import Win98Modern.KernelEx.ThreadPoolQueue

/-!
# The accounts of an object

`View`: what concerns one object in a state.  A step changes the view of one object at most, and `Good`
says how the counters of an object hang together.
-/

namespace Win98Modern.ThreadPool

open List

/-! ### Workers -/

def Worker.runs (w : Nat) : Worker → Bool
  | .running a => a.work == w
  | _ => false

def Worker.runsAssociated (w : Nat) : Worker → Bool
  | .running a => a.work == w && a.associated
  | _ => false

def Worker.isWoken : Worker → Bool
  | .woken => true
  | _ => false

namespace Pool

def active (p : Pool) (w : Nat) : Nat := p.workers.countP (Worker.runs w)

/-- Those that waits wait for. -/
def associated (p : Pool) (w : Nat) : Nat := p.workers.countP (Worker.runsAssociated w)

/-- The workers between the semaphore and the queue. -/
def woken (p : Pool) : Nat := p.workers.countP Worker.isWoken

end Pool

theorem countP_set {α : Type*} {f : α → Bool} {l : List α} {i : Nat} {a : α} (b : α) (h : l[i]? = some a) :
    (l.set i b).countP f + (f a).toNat = l.countP f + (f b).toNat := by
  induction l generalizing i with
  | nil => exact nomatch h
  | cons c l ih =>
    cases i with
    | zero =>
      obtain rfl := Option.some.inj h
      simp only [set_cons_zero, countP_cons]
      cases f c <;> cases f b <;> simp
    | succ i =>
      have hl := ih (i := i) h
      simp only [set_cons_succ, countP_cons]
      omega

theorem countP_pos_of_getElem {α : Type*} {f : α → Bool} {l : List α} {i : Nat} {a : α} (h : l[i]? = some a)
    (hf : f a = true) : 0 < l.countP f :=
  countP_pos_iff.2 ⟨a, mem_of_getElem? h, hf⟩

/-! ### Views -/

structure View where
  work : Option Work
  ledger : Ledger
  active : Nat
  associated : Nat
  dying : Nat

def System.view (s : System) (w : Nat) : View :=
  ⟨s.pool.works w, s.ledger w, s.pool.active w, s.pool.associated w, s.pool.dying.count w⟩

/-- The accounts of an object that exists. -/
structure Live (v : View) (o : Work) : Prop where
  queued : o.queued = true ↔ 0 < o.pending
  idle : o.idle = true ↔ o.pending = 0 ∧ o.running = 0
  running : o.running = v.associated
  references : o.references = v.ledger.opened.toNat + o.pending + v.active
  closed : o.closed = !v.ledger.opened
  dying : v.dying = if o.references = 0 then 1 else 0
  pending : o.pending ≤ 0xffffffff
  submitted : v.ledger.submitted = v.ledger.started + v.ledger.cancelled + o.pending
  started : v.ledger.started = v.ledger.finished + v.active
  destroyed : v.ledger.destroyed = 0

/-- The accounts of an object that does not exist, before its creation and after its end. -/
structure Gone (v : View) (made : Bool) : Prop where
  opened : v.ledger.opened = false
  active : v.active = 0
  associated : v.associated = 0
  dying : v.dying = 0
  submitted : v.ledger.submitted = v.ledger.started + v.ledger.cancelled
  started : v.ledger.started = v.ledger.finished
  destroyed : v.ledger.destroyed = made.toNat

def Good (made : Bool) (v : View) : Prop :=
  match v.work with
  | none => Gone v made
  | some o => made = true ∧ Live v o

variable {v : View} {o : Work} {l : Ledger}

/-! ### What the operations do to the accounts -/

theorem Gone.create (h : Gone v false) (finalization : Bool) :
    Live ⟨some ⟨0, 0, 1, false, false, true, finalization⟩, { v.ledger with opened := true }, v.active, v.associated,
      v.dying⟩ ⟨0, 0, 1, false, false, true, finalization⟩ where
  queued := by simp
  idle := by simp
  running := h.associated.symm
  references := by simp [h.active]
  closed := rfl
  dying := h.dying
  pending := Nat.zero_le _
  submitted := h.submitted
  started := by simp [h.active, h.started]
  destroyed := h.destroyed

theorem Live.dying_zero (h : Live v o) (huse : v.ledger.opened = true ∨ 0 < v.active) : v.dying = 0 := by
  have hrefs := h.references
  have hpos : o.references ≠ 0 := by
    rcases huse with hopen | hactive
    · rw [hopen, Bool.toNat_true] at hrefs
      omega
    · omega
  rw [h.dying, if_neg hpos]

def Work.submit (o : Work) : Work :=
  { o with
    idle := if o.pending = 0 ∧ o.running = 0 then false else o.idle
    pending := o.pending + 1
    references := o.references + 1
    queued := true }

theorem Live.submit (h : Live v o) (hopen : o.closed = false) (hfull : o.pending ≠ 0xffffffff) :
    Live ⟨some o.submit, { v.ledger with submitted := v.ledger.submitted + 1 }, v.active, v.associated, v.dying⟩
      o.submit where
  queued := by simp [Work.submit]
  idle := by
    have hidle := h.idle
    simp only [Work.submit]
    split <;> simp_all
  running := h.running
  references := by
    have hrefs := h.references
    simp only [Work.submit]
    omega
  closed := h.closed
  dying := h.dying_zero (.inl (by simpa [hopen] using h.closed))
  pending := by
    have hp := h.pending
    simp only [Work.submit]
    omega
  submitted := by
    have hs := h.submitted
    simp only [Work.submit]
    omega
  started := h.started
  destroyed := h.destroyed

def Work.cancel (o : Work) : Work :=
  { o with
    queued := false
    references := o.references - o.pending
    pending := 0
    idle := if o.running = 0 then true else o.idle }

theorem Live.cancel (h : Live v o) (huse : v.ledger.opened = true ∨ 0 < v.active) :
    Live ⟨some o.cancel, { v.ledger with cancelled := v.ledger.cancelled + o.pending }, v.active, v.associated,
      v.dying⟩ o.cancel where
  queued := by simp [Work.cancel]
  idle := by
    have hidle := h.idle
    simp only [Work.cancel]
    split <;> simp_all
  running := h.running
  references := by
    have hrefs := h.references
    simp only [Work.cancel]
    omega
  closed := h.closed
  dying := by
    have hrefs := h.references
    have hpos : o.cancel.references ≠ 0 := by
      simp only [Work.cancel]
      rcases huse with hopen | hactive
      · rw [hopen, Bool.toNat_true] at hrefs
        omega
      · omega
    rw [if_neg hpos]
    exact h.dying_zero huse
  pending := Nat.zero_le _
  submitted := by
    have hs := h.submitted
    simp only [Work.cancel]
    omega
  started := h.started
  destroyed := h.destroyed

def Work.close (o : Work) : Work := { o with closed := true, references := o.references - 1 }

theorem Live.close (h : Live v o) (hopen : o.closed = false) :
    Live ⟨some o.close, { v.ledger with opened := false }, v.active, v.associated,
      v.dying + if o.references - 1 = 0 then 1 else 0⟩ o.close where
  queued := h.queued
  idle := h.idle
  running := h.running
  references := by
    have hrefs := h.references
    have hl : v.ledger.opened = true := by simpa [hopen] using h.closed
    rw [hl, Bool.toNat_true] at hrefs
    simp only [Work.close, Bool.toNat_false]
    omega
  closed := rfl
  dying := by
    have hl : v.ledger.opened = true := by simpa [hopen] using h.closed
    rw [h.dying_zero (.inl hl), Nat.zero_add]
    rfl
  pending := h.pending
  submitted := h.submitted
  started := h.started
  destroyed := h.destroyed

def Work.start (o : Work) : Work :=
  { o with
    pending := o.pending - 1
    running := o.running + 1
    queued := decide (o.pending - 1 ≠ 0) }

theorem Live.start (h : Live v o) (hq : o.queued = true) :
    Live ⟨some o.start, { v.ledger with started := v.ledger.started + 1 }, v.active + 1, v.associated + 1, v.dying⟩
      o.start where
  queued := by
    simp only [Work.start, decide_eq_true_eq]
    omega
  idle := by
    have hpos := h.queued.1 hq
    have hidle : ¬o.idle = true := fun hi => by
      have hzero := (h.idle.1 hi).1
      omega
    exact iff_of_false hidle fun hzero => absurd hzero.2 (Nat.succ_ne_zero _)
  running := congrArg (· + 1) h.running
  references := by
    have hrefs := h.references
    have hpos := h.queued.1 hq
    simp only [Work.start]
    omega
  closed := h.closed
  dying := h.dying
  pending := by
    have hp := h.pending
    simp only [Work.start]
    omega
  submitted := by
    have hs := h.submitted
    have hpos := h.queued.1 hq
    simp only [Work.start]
    omega
  started := by
    have hs := h.started
    show v.ledger.started + 1 = v.ledger.finished + (v.active + 1)
    omega
  destroyed := h.destroyed

def Work.disassociate (o : Work) : Work :=
  { o with
    running := o.running - 1
    idle := if o.pending = 0 ∧ o.running - 1 = 0 then true else o.idle }

theorem Live.disassociate (h : Live v o) (ha : 0 < v.associated) :
    Live ⟨some o.disassociate, v.ledger, v.active, v.associated - 1, v.dying⟩ o.disassociate where
  queued := h.queued
  idle := by
    have hidle := h.idle
    simp only [Work.disassociate]
    split
    case isTrue hzero => exact iff_of_true rfl hzero
    case isFalse hn => exact iff_of_false (fun hi => by have hzero := hidle.1 hi; omega) hn
  running := by
    have hrunning := h.running
    simp only [Work.disassociate]
    omega
  references := h.references
  closed := h.closed
  dying := h.dying
  pending := h.pending
  submitted := h.submitted
  started := h.started
  destroyed := h.destroyed

def Work.finish (o : Work) (associated : Bool) : Work :=
  { o with
    running := o.running - associated.toNat
    references := o.references - 1
    idle := if o.pending = 0 ∧ o.running - associated.toNat = 0 then true else o.idle }

theorem Live.finish (h : Live v o) (hactive : 0 < v.active) (b : Bool) (hb : b.toNat ≤ v.associated) :
    Live ⟨some (o.finish b), { v.ledger with finished := v.ledger.finished + 1 }, v.active - 1,
      v.associated - b.toNat, v.dying + if o.closed = true ∧ o.references - 1 = 0 then 1 else 0⟩ (o.finish b) where
  queued := h.queued
  idle := by
    have hidle := h.idle
    simp only [Work.finish]
    split
    case isTrue hzero => exact iff_of_true rfl hzero
    case isFalse hn => exact iff_of_false (fun hi => by have hzero := hidle.1 hi; omega) hn
  running := by
    have hrunning := h.running
    simp only [Work.finish]
    omega
  references := by
    have hrefs := h.references
    simp only [Work.finish]
    omega
  closed := h.closed
  dying := by
    have hrefs := h.references
    have hclosed := h.closed
    rw [h.dying_zero (.inr hactive), Nat.zero_add]
    refine if_congr ⟨fun hz => hz.2, fun hz => ⟨?_, hz⟩⟩ rfl rfl
    -- the handle would be a reference
    cases hl : v.ledger.opened with
    | true =>
      rw [hl, Bool.toNat_true] at hrefs
      exact absurd hz (by simp only [Work.finish]; omega)
    | false => rw [hclosed, hl, Bool.not_false]
  pending := h.pending
  submitted := h.submitted
  started := by
    have hs := h.started
    show v.ledger.started = v.ledger.finished + 1 + (v.active - 1)
    omega
  destroyed := h.destroyed

theorem Live.destroy (h : Live v o) (ha : v.associated ≤ v.active) (hd : 0 < v.dying) :
    Gone ⟨none, { v.ledger with destroyed := v.ledger.destroyed + 1 }, v.active, v.associated, v.dying - 1⟩ true := by
  have hrefs := h.references
  have hdying := h.dying
  have hzero : o.references = 0 := by
    by_contra hne
    rw [if_neg hne] at hdying
    omega
  rw [if_pos hzero] at hdying
  have hopened : v.ledger.opened = false := by
    cases hl : v.ledger.opened with
    | false => rfl
    | true =>
      rw [hl, Bool.toNat_true] at hrefs
      omega
  have hactive : v.active = 0 := by omega
  have hsubmitted := h.submitted
  have hstarted := h.started
  exact {
    opened := hopened
    active := hactive
    associated := by
      show v.associated = 0
      omega
    dying := by
      show v.dying - 1 = 0
      omega
    submitted := by
      show v.ledger.submitted = v.ledger.started + v.ledger.cancelled
      omega
    started := by
      show v.ledger.started = v.ledger.finished
      omega
    destroyed := congrArg (· + 1) h.destroyed }

end Win98Modern.ThreadPool
