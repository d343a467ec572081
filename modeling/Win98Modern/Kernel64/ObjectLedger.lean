import Win98Modern.Kernel64.ObjectRun

/-!
# What waits consume

The log is read as a ledger.  `balance` adds up the units of a semaphore, `unspent` asks
whether an event has been set since somebody last took it, `unreleased` counts how often a
thread has a mutant, and `lastWait` says what the wait of a thread has taken.

**`waits_accounted`**: in every run these are what the objects hold, as long as each wait
that is satisfied finds a unit for every time it names a semaphore (`AllFit`).  A wait for
all of `[o, o]` does not look that far: **`wait_all_overdraws`**.
-/

namespace Win98Modern.Ob

open Function List Option

/-! ### The ledger -/

/-- What a semaphore started with and what was released, less what was acquired. -/
def balance (o : Oid) : List Event → Int
  | [] => 0
  | .created x k :: log => if x = o then k.count else balance o log
  | .released x n :: log => if x = o then balance o log + n else balance o log
  | .acquired _ x :: log => if x = o then balance o log - 1 else balance o log
  | _ :: log => balance o log

/-- `o` has been signaled since somebody last acquired it. -/
def unspent (o : Oid) : List Event → Bool
  | [] => false
  | .created x k :: log => if x = o then k.signaled else unspent o log
  | .signal x :: log => if x = o then true else unspent o log
  | .acquired _ x :: log => if x = o then false else unspent o log
  | _ :: log => unspent o log

/-- Each wait that was satisfied with `o` had a signal to itself. -/
def EachSpentOnce (o : Oid) : List Event → Prop
  | [] => True
  | .created x _ :: log => x = o ∨ EachSpentOnce o log
  | .satisfied _ taken _ :: log => (o ∈ taken → unspent o log = true) ∧ EachSpentOnce o log
  | _ :: log => EachSpentOnce o log

/-- How often `t` has acquired the mutant `o` without releasing it. -/
def unreleased (t : Tid) (o : Oid) : List Event → Int
  | [] => 0
  | .created x _ :: log => if x = o then 0 else unreleased t o log
  | .took u x :: log => if x = o ∧ u = t then unreleased t o log + 1 else unreleased t o log
  | .dropped u x :: log => if x = o ∧ u = t then unreleased t o log - 1 else unreleased t o log
  | .forfeited u x :: log => if x = o ∧ u = t then 0 else unreleased t o log
  | _ :: log => unreleased t o log

/-- A wait and what it has taken so far. -/
structure Receipt where
  objs : List Oid
  all : Bool
  taken : List Oid
  deriving DecidableEq, Repr

def Receipt.add (r : Receipt) (objs : List Oid) : Receipt := { r with taken := r.taken ++ objs }

def lastWait (t : Tid) : List Event → Receipt
  | [] => ⟨[], false, []⟩
  | .called u objs all :: log => if u = t then ⟨objs, all, []⟩ else lastWait t log
  | .acquired u o :: log =>
    if u = t then (lastWait t log).add [o] else lastWait t log
  | _ :: log => lastWait t log

/-- All or none of the objects, or one or none. -/
def Receipt.Fair (r : Receipt) : Prop :=
  r.taken = [] ∨ if r.all then r.taken = r.objs else ∃ o ∈ r.objs, r.taken = [o]

/-- What was taken is what the status says. -/
def Receipt.Settles (r : Receipt) (status : Int) : Prop :=
  if status = STATUS_TIMEOUT ∨ status = STATUS_NO_MEMORY ∨ status = STATUS_INVALID_PARAMETER then
    r.taken = []
  else if r.all then
    r.taken = r.objs ∧ (status = STATUS_SUCCESS ∨ status = STATUS_ABANDONED_WAIT_0)
  else
    ∃ (i : Nat) (o : Oid), r.objs[i]? = some o ∧ r.taken = [o] ∧
      (status = i ∨ status = i + STATUS_ABANDONED_WAIT_0)

/-- Every wait that has returned is settled. -/
def Settled : List Event → Prop
  | [] => True
  | .returned t status :: log => (lastWait t log).Settles status ∧ Settled log
  | _ :: log => Settled log

/-- Each satisfied wait found all that it took. -/
def AllFit (log : List Event) : Prop := ∀ t taken, Event.satisfied t taken false ∉ log

/-- A set of it satisfies one wait. -/
def Kobject.auto (k : Kobject) : Bool :=
  (k.type == .event || k.type == .timer) && !k.manual

/-- The objects hold what the ledger says. -/
structure Accounts (s : Machine) : Prop where
  semaphore : ∀ o, (s.objs o).type = .semaphore →
    (s.objs o).count = balance o s.log ∧ 0 ≤ (s.objs o).count
  auto : ∀ o, (s.objs o).auto = true → EachSpentOnce o s.log
  mutant : ∀ o, (s.objs o).type = .mutant → ∀ t,
    unreleased t o s.log = if (s.objs o).owner = some t then (s.objs o).recursion else 0
  owner : ∀ o, (s.objs o).type = .mutant → (s.objs o).owner ≠ none → 0 < (s.objs o).recursion
  waits : ∀ t, (lastWait t s.log).Fair
  settled : Settled s.log

/-! ### One object -/

variable {s s' : Machine} {o : Oid} {t : Tid} {d : Waitdesc} {log : List Event} {e : Event}

/-- The object that an event is entered for. -/
def Event.object : Event → Option Oid
  | .created o _ | .acquired _ o | .took _ o | .signal o | .released o _ | .dropped _ o
  | .forfeited _ o => some o
  | _ => none

/-- What the ledger says of one object. -/
structure Entry (log : List Event) (o : Oid) (k : Kobject) : Prop where
  units : k.type = .semaphore →
    k.count = balance o log ∧ 0 ≤ k.count ∧ k.count ≤ k.max ∧ k.max < 2 ^ 31
  signal : k.auto = true → k.signaled = true → unspent o log = true
  holder : k.type = .mutant → ∀ t,
    unreleased t o log = if k.owner = some t then k.recursion else 0
  depth : k.type = .mutant → if k.owner = none then k.recursion = 0 else 0 < k.recursion
  owned : k.owner ≠ none → k.type = .mutant

theorem balance_cons_of_ne (h : e.object ≠ some o) : balance o (e :: log) = balance o log := by
  cases e <;> simp_all [balance, Event.object]

theorem unspent_cons_of_ne (h : e.object ≠ some o) : unspent o (e :: log) = unspent o log := by
  cases e <;> simp_all [unspent, Event.object]

theorem unreleased_cons_of_ne (h : e.object ≠ some o) :
    unreleased t o (e :: log) = unreleased t o log := by
  cases e <;> simp_all [unreleased, Event.object]

variable {k k' : Kobject} {taken objs : List Oid}

theorem Entry.cons (h : Entry log o k) (he : e.object ≠ some o) : Entry (e :: log) o k where
  units := by
    rw [balance_cons_of_ne he]
    exact h.units
  signal := by
    rw [unspent_cons_of_ne he]
    exact h.signal
  holder := by
    intro hk t
    rw [unreleased_cons_of_ne he]
    exact h.holder hk t
  depth := h.depth
  owned := h.owned

theorem Entry.of_type (hs : k.type ≠ .semaphore) (hm : k.type ≠ .mutant) (ho : k.owner = none)
    (ha : k.auto = true → k.signaled = true → unspent o log = true) : Entry log o k :=
  ⟨fun hk => absurd hk hs, ha, fun hk => absurd hk hm, fun hk => absurd hk hm,
    fun hne => absurd ho hne⟩

theorem Entry.of_mutant (hm : k.type = .mutant)
    (hh : ∀ t, unreleased t o log = if k.owner = some t then k.recursion else 0)
    (hd : if k.owner = none then k.recursion = 0 else 0 < k.recursion) : Entry log o k := by
  refine ⟨fun hk => ?_, fun hk => ?_, fun _ => hh, fun _ => hd, fun _ => hm⟩
  · rw [hm] at hk
    cases hk
  · simp [Kobject.auto, hm] at hk

theorem Entry.of_semaphore (hs : k.type = .semaphore) (ho : k.owner = none)
    (hu : k.count = balance o log ∧ 0 ≤ k.count ∧ k.count ≤ k.max ∧ k.max < 2 ^ 31) :
    Entry log o k := by
  refine ⟨fun _ => hu, fun hk => ?_, fun hk => ?_, fun hk => ?_, fun hne => absurd ho hne⟩
  · simp [Kobject.auto, hs] at hk
  · rw [hs] at hk
    cases hk
  · rw [hs] at hk
    cases hk

theorem Entry.no_owner (h : Entry log o k) (hm : k.type ≠ .mutant) : k.owner = none := by
  by_contra hne
  exact hm (h.owned hne)

/-! ### Acquisitions -/

/-- `t` can take the object `n` times. -/
structure Kobject.Affords (k : Kobject) (t : Tid) (n : Nat) : Prop where
  units : k.type = .semaphore → (n : Int) ≤ k.count
  levels : k.type = .mutant → k.recursion + n < 2 ^ 31
  free : k.type = .mutant → k.owner = none ∨ k.owner = some t

theorem affords_of_fits (hf : s.fits taken = true) (hr : ∀ o ∈ taken, s.signaled o t = true) :
    ∀ o ∈ taken, (s.objs o).Affords t (taken.count o) := by
  have h := all_eq_true.1 hf
  refine fun o ho => ⟨fun hk => ?_, fun hk => ?_, fun hk => ?_⟩
  · simpa [hk] using h o ho
  · simpa [hk] using h o ho
  · have hs := hr o ho
    simpa [Machine.signaled, Kobject.signaledFor, hk] using hs

theorem objAcquire_log (s : Machine) (o : Oid) (t : Tid) :
    (s.objAcquire o t).1.log =
      if (s.objs o).type = .mutant then .took t o :: .acquired t o :: s.log
      else .acquired t o :: s.log := by
  unfold Machine.objAcquire
  simp only
  split
  · rfl
  · rfl

theorem acquire_type (k : Kobject) (t : Tid) : (k.acquire t).type = k.type := by
  obtain h | h := acquire_hold k t
  · rw [h.2.2.1, h.1]
  · exact h.2.type

theorem acquire_manual (k : Kobject) (t : Tid) : (k.acquire t).manual = k.manual := by
  unfold Kobject.acquire Kobject.take
  split
  · split
    · rfl
    · rfl
  · split
    · rfl
    · rfl
  · rfl
  · rfl
  · rfl

theorem acquire_auto (k : Kobject) (t : Tid) : (k.acquire t).auto = k.auto := by
  rw [Kobject.auto, acquire_type, acquire_manual, Kobject.auto]

theorem wrap32_of_lt {x : Int} (h₀ : 0 ≤ x) (h : x < 2 ^ 31) : wrap32 x = x := by
  rw [wrap32, Int.bmod_eq_of_le]
  · omega
  · omega

theorem Entry.recursion_nonneg (h : Entry log o k) (hk : k.type = .mutant) : 0 ≤ k.recursion := by
  have hd := h.depth hk
  split at hd
  · omega
  · omega

theorem acquire_owner (hk : k.type = .mutant) (hfree : k.owner = none ∨ k.owner = some t) :
    (k.acquire t).owner = some t := by
  obtain e | e := hfree
  · simp [Kobject.acquire, hk, Kobject.take, e]
  · simp [Kobject.acquire, hk, Kobject.take, e]

theorem acquire_owner_of_ne (hk : k.type ≠ .mutant) : (k.acquire t).owner = k.owner := by
  obtain h | h := acquire_hold k t
  · exact absurd h.1 hk
  · exact h.2.owner

/-- `t` becomes the owner of a mutant, or is not any more. -/
theorem Entry.reown (h : Entry log o k) (hk : k.type = .mutant) (hown : k.owner = none ∨ k.owner = some t)
    (hk' : k'.type = .mutant) (hown' : k'.owner = none ∨ k'.owner = some t)
    (hother : ∀ u, u ≠ t → unreleased u o (e :: log) = unreleased u o log)
    (hself : unreleased t o (e :: log) = if k'.owner = some t then k'.recursion else 0)
    (hd : if k'.owner = none then k'.recursion = 0 else 0 < k'.recursion) : Entry (e :: log) o k' := by
  refine .of_mutant hk' (fun u => ?_) hd
  by_cases hne : u = t
  · rw [hne]
    exact hself
  · have hnot : ∀ x : Option Tid, x = none ∨ x = some t → x ≠ some u := by
      rintro _ (rfl | rfl)
      · nofun
      · exact fun hc => hne (some.inj hc).symm
    rw [hother u hne, h.holder hk u, if_neg (hnot _ hown), if_neg (hnot _ hown')]

theorem Entry.take (h : Entry log o k) (hk : k.type = .mutant)
    (hfree : k.owner = none ∨ k.owner = some t) (hlt : k.recursion + 1 < 2 ^ 31)
    (hk' : k'.type = .mutant) (hr : k'.recursion = wrap32 (k.recursion + 1))
    (ho : k'.owner = some t) : Entry (.took t o :: log) o k' := by
  have hd := h.depth hk
  have hge := h.recursion_nonneg hk
  rw [wrap32_of_lt (by omega) hlt] at hr
  refine h.reown hk hfree hk' (.inr ho) (fun u hne => if_neg fun hc => hne hc.2.symm) ?_ ?_
  · rw [unreleased, if_pos ⟨rfl, rfl⟩, h.holder hk t, if_pos ho, hr]
    obtain e | e := hfree
    · rw [e, if_pos rfl] at hd
      simp [e, hd]
    · simp [e]
  · rw [ho, if_neg (by simp), hr]
    omega

theorem Entry.acquire {n : Nat} (h : Entry log o k) (ha : k.Affords t (n + 1)) :
    Entry (if k.type = .mutant then .took t o :: .acquired t o :: log else .acquired t o :: log)
      o (k.acquire t) := by
  cases hk : k.type with
  | mutant =>
    have hm : Entry (.acquired t o :: log) o k := .of_mutant hk (h.holder hk) (h.depth hk)
    have hlevel := ha.levels hk
    refine hm.take hk (ha.free hk) (by omega) ?_ ?_ ?_
    · rw [acquire_type, hk]
    · simp [Kobject.acquire, hk, Kobject.take]
    · exact acquire_owner hk (ha.free hk)
  | semaphore =>
    rw [if_neg (by simp)]
    have hu := h.units hk
    have hpos := ha.units hk
    refine .of_semaphore ((acquire_type k t).trans hk) ?_ ?_
    · rw [acquire_owner_of_ne (by simp [hk])]
      exact h.no_owner (by simp [hk])
    · simp only [Kobject.acquire, hk, balance, if_true]
      omega
  | _ =>
    refine .of_type ?_ ?_ ?_ fun ha hs => ?_
    · simp [acquire_type, hk]
    · simp [acquire_type, hk]
    · rw [acquire_owner_of_ne (by simp [hk])]
      exact h.no_owner (by simp [hk])
    · -- an event or timer that is reset by hand is not for one wait only
      rw [acquire_auto] at ha
      simp_all [Kobject.auto, Kobject.acquire]

theorem Kobject.Affords.acquire {n : Nat} (h : k.Affords t (n + 1))
    (hge : k.type = .mutant → 0 ≤ k.recursion) : (k.acquire t).Affords t n := by
  refine ⟨fun hk => ?_, fun hk => ?_, fun hk => ?_⟩
  · rw [acquire_type] at hk
    have hu := h.units hk
    simp only [Kobject.acquire, hk]
    omega
  · rw [acquire_type] at hk
    have hl := h.levels hk
    have hr := hge hk
    simp only [Kobject.acquire, hk, Kobject.take]
    rw [wrap32_of_lt (by omega) (by omega)]
    omega
  · rw [acquire_type] at hk
    exact .inr (acquire_owner hk (h.free hk))

/-- The objects are what the ledger says. -/
def Entered (s : Machine) : Prop := ∀ o, Entry s.log o (s.objs o)

theorem Entered.objAcquire {n : Nat} (h : Entered s) (ha : (s.objs o).Affords t (n + 1)) :
    Entered (s.objAcquire o t).1 := by
  intro x
  rw [objAcquire_log, objAcquire_objs]
  by_cases hx : x = o
  · subst hx
    rw [update_self]
    exact (h x).acquire ha
  · rw [update_of_ne hx]
    have hne : Event.object (.acquired t o) ≠ some x := fun hc => hx (some.inj hc).symm
    split
    · exact ((h x).cons hne).cons hne
    · exact (h x).cons hne

theorem Entered.acquireAll (h : Entered s) (ha : ∀ o ∈ objs, (s.objs o).Affords t (objs.count o))
    (ab : Bool) : Entered (Machine.acquireAll t objs s ab).1 := by
  induction objs generalizing s ab with
  | nil => exact h
  | cons x objs ih =>
    have hx := ha x mem_cons_self
    rw [count_cons_self] at hx
    refine ih (h.objAcquire hx) ?_ _
    intro o ho
    have hao := ha o (mem_cons_of_mem x ho)
    rw [objAcquire_objs]
    by_cases hxo : o = x
    · subst hxo
      rw [update_self]
      exact hx.acquire (h o).recursion_nonneg
    · rw [update_of_ne hxo]
      rwa [count_cons_of_ne (Ne.symm hxo)] at hao

theorem acquireAll_log (t : Tid) (objs : List Oid) (s : Machine) (ab : Bool) :
    (∀ u, lastWait u (Machine.acquireAll t objs s ab).1.log =
      if u = t then (lastWait t s.log).add objs else lastWait u s.log) ∧
    (∀ o, EachSpentOnce o (Machine.acquireAll t objs s ab).1.log ↔ EachSpentOnce o s.log) ∧
    (Settled (Machine.acquireAll t objs s ab).1.log ↔ Settled s.log) ∧
    (AllFit (Machine.acquireAll t objs s ab).1.log ↔ AllFit s.log) := by
  induction objs generalizing s ab with
  | nil =>
    refine ⟨fun u => ?_, fun _ => Iff.rfl, Iff.rfl, Iff.rfl⟩
    by_cases hu : u = t
    · simp [Machine.acquireAll, hu, Receipt.add]
    · simp [Machine.acquireAll, hu]
  | cons o objs ih =>
    obtain ⟨h₁, h₂, h₃, h₄⟩ := ih (s.objAcquire o t).1 (ab || (s.objAcquire o t).2)
    have hlog := objAcquire_log s o t
    have hwait : ∀ u, lastWait u (s.objAcquire o t).1.log =
        if u = t then (lastWait t s.log).add [o] else lastWait u s.log := by
      intro u
      rw [hlog]
      by_cases hu : u = t
      · subst hu
        split
        · simp [lastWait]
        · simp [lastWait]
      · have hne : t ≠ u := fun e => hu e.symm
        split
        · simp [lastWait, hne]
        · simp [lastWait, hne]
    refine ⟨fun u => (h₁ u).trans ?_, fun x => (h₂ x).trans ?_, h₃.trans ?_, h₄.trans ?_⟩
    · rw [hwait, hwait, if_pos rfl]
      by_cases hu : u = t
      · simp [hu, Receipt.add]
      · simp [hu]
    · rw [hlog]
      split
      · rfl
      · rfl
    · rw [hlog]
      split
      · rfl
      · rfl
    · rw [hlog]
      split
      · simp [AllFit]
      · simp [AllFit]

/-! ### Satisfied waits -/

/-- What a thread has taken goes with how far its wait has got. -/
structure Waitdesc.Matches (d : Waitdesc) (r : Receipt) : Prop where
  objs : r.objs = d.objs
  all : r.all = d.all
  length : d.objs.length ≤ MAX_WAIT
  taken : if d.result = -1 then r.taken = []
    else if d.all then d.result = 0 ∧ r.taken = d.objs
    else ∃ (i : Nat) (o : Oid), d.objs[i]? = some o ∧ r.taken = [o] ∧ d.result = i

theorem Waitdesc.Matches.fair {r : Receipt} (h : d.Matches r) : r.Fair := by
  have ht := h.taken
  split at ht
  · exact .inl ht
  · right
    rw [h.all, h.objs]
    split
    · rename_i hall
      rw [if_pos hall] at ht
      exact ht.2
    · rename_i hall
      rw [if_neg hall] at ht
      obtain ⟨i, o, hi, htaken, -⟩ := ht
      exact ⟨o, mem_of_getElem? hi, htaken⟩

/-- A pending wait is satisfied. -/
theorem Grant.matches {r : Int} {receipt : Receipt} (hg : Grant s t d taken r)
    (hm : d.Matches receipt) (ab : Bool) :
    Waitdesc.Matches { d with result := r, abandoned := ab } (receipt.add taken) := by
  have hnone := hm.taken
  rw [if_pos (pending_iff.1 hg.pending).2] at hnone
  refine ⟨hm.objs, hm.all, hm.length, ?_⟩
  rw [Receipt.add, hnone, nil_append, if_neg hg.result_ne]
  obtain ⟨hall, htaken, hr⟩ | ⟨hall, i, o, hi, htaken, hr⟩ := hg.outcome
  · rw [if_pos hall]
    exact ⟨hr, htaken⟩
  · rw [if_neg (by simp [hall])]
    exact ⟨i, o, hi, htaken, hr⟩

structure Books (s : Machine) : Prop where
  entered : Entered s
  spent : ∀ o, (s.objs o).auto = true → EachSpentOnce o s.log
  settled : Settled s.log
  fair : ∀ t, (lastWait t s.log).Fair
  waits : ∀ t d, (s.threads t).waitMulti = some d → d.Matches (lastWait t s.log)

theorem AllFit.of_cons (h : AllFit (e :: log)) : AllFit log :=
  fun t taken hm => h t taken (mem_cons_of_mem _ hm)

theorem AllFit.of_append {l : List Event} (h : AllFit (l ++ log)) : AllFit log :=
  fun t taken hm => h t taken (mem_append_right _ hm)

theorem acquireFor_allFit (h : AllFit (s.acquireFor t taken).1.log) :
    s.fits taken = true ∧ AllFit s.log := by
  have hfit := (acquireAll_log t taken (s.note (.satisfied t taken (s.fits taken))) false).2.2.2.1 h
  refine ⟨?_, AllFit.of_cons hfit⟩
  by_contra hno
  refine hfit t taken ?_
  rw [Bool.not_eq_true] at hno
  simp [Machine.note, hno]

theorem acquireAll_auto (t : Tid) (objs : List Oid) (s : Machine) (ab : Bool) (x : Oid) :
    ((Machine.acquireAll t objs s ab).1.objs x).auto = (s.objs x).auto := by
  induction objs generalizing s ab with
  | nil => rfl
  | cons o objs ih =>
    refine (ih (s.objAcquire o t).1 _).trans ?_
    rw [objAcquire_objs]
    by_cases hx : x = o
    · subst hx
      rw [update_self]
      exact acquire_auto _ t
    · rw [update_of_ne hx]

/-- What a satisfied wait leaves in the ledger. -/
theorem Books.acquireFor (h : Books s) (hf : s.fits taken = true)
    (hr : ∀ o ∈ taken, s.signaled o t = true) : Entered (s.acquireFor t taken).1 ∧
    (∀ o, ((s.acquireFor t taken).1.objs o).auto = true →
      EachSpentOnce o (s.acquireFor t taken).1.log) ∧
    Settled (s.acquireFor t taken).1.log ∧
    ∀ u, lastWait u (s.acquireFor t taken).1.log =
      if u = t then (lastWait t s.log).add taken else lastWait u s.log := by
  obtain ⟨hwait, hspent, hsettled, -⟩ :=
    acquireAll_log t taken (s.note (.satisfied t taken (s.fits taken))) false
  refine ⟨?_, fun o ho => (hspent o).2 ?_, hsettled.2 h.settled, hwait⟩
  · refine Entered.acquireAll (s := s.note (.satisfied t taken (s.fits taken))) ?_
      (affords_of_fits hf hr) false
    exact fun o => (h.entered o).cons nofun
  · rw [Machine.acquireFor, acquireAll_auto] at ho
    refine ⟨fun hm => ?_, h.spent o ho⟩
    refine (h.entered o).signal ho ?_
    -- an event or a timer is signaled for everybody or for nobody
    have hs := hr o hm
    have hauto : (s.objs o).auto = true := ho
    rw [Kobject.auto, Bool.and_eq_true, Bool.or_eq_true, beq_iff_eq, beq_iff_eq] at hauto
    obtain hk | hk := hauto.1
    · simpa [Machine.signaled, Kobject.signaledFor, hk] using hs
    · simpa [Machine.signaled, Kobject.signaledFor, hk] using hs

theorem Books.satisfy (h : Books s) {r : Int} (hg : Grant s t d taken r) (hf : s.fits taken = true) :
    Books (s.satisfy t d taken r) := by
  obtain ⟨hent, hspent, hsettled, hwait⟩ := h.acquireFor hf hg.ready
  have hlog := satisfy_log s t d taken r
  have hobjs := satisfy_objs s t d taken r
  have hm := h.waits t d (pending_iff.1 hg.pending).1
  refine ⟨fun o => ?_, fun o ho => ?_, ?_, fun u => ?_, fun u e hu => ?_⟩
  · rw [hlog, hobjs]
    exact hent o
  · rw [hobjs] at ho
    rw [hlog]
    exact hspent o ho
  · rw [hlog]
    exact hsettled
  · rw [hlog, hwait]
    split
    · exact (hg.matches hm false).fair
    · exact h.fair u
  · rw [satisfy_waitMulti] at hu
    rw [hlog, hwait]
    split at hu
    · rename_i hut
      obtain rfl := some.inj hu
      rw [if_pos hut]
      exact hg.matches hm _
    · rename_i hut
      rw [if_neg hut]
      exact h.waits u e hu

/-- The books are right unless some wait took what was not there. -/
def Balanced (s : Machine) : Prop := AllFit s.log → Books s

theorem Balanced.releaseCheck (h : Balanced s) (hq : Queued s) (o : Oid) :
    Queued (s.releaseCheck o) ∧ Balanced (s.releaseCheck o) := by
  refine ⟨?_, (releaseCheck_spec ?_ hq h o).2.1⟩
  · exact (releaseCheck_spec (P := fun _ => True) (fun _ _ _ _ _ _ _ _ => trivial) hq trivial o).1
  · intro m t d taken r _ hg hp hfit
    rw [satisfy_log] at hfit
    obtain ⟨hf, hold⟩ := acquireFor_allFit hfit
    exact (hp hold).satisfy hg hf

/-! ### Sections that change one object -/

/-- An entry for `o` that is not an acquisition. -/
def Event.Enters (o : Oid) : Event → Prop
  | .created x _ | .took _ x | .signal x | .released x _ | .dropped _ x | .forfeited _ x => x = o
  | _ => False

theorem Event.Enters.object (h : e.Enters o) : e.object = some o := by
  cases e <;> simp_all [Event.Enters, Event.object]

theorem Event.Enters.lastWait (h : e.Enters o) : lastWait t (e :: log) = lastWait t log := by
  cases e <;> first | rfl | exact h.elim

theorem Event.Enters.settled (h : e.Enters o) : Settled (e :: log) ↔ Settled log := by
  cases e <;> first | rfl | exact h.elim

theorem Event.Enters.spent {x : Oid} (h : e.Enters o) (hs : EachSpentOnce x log) :
    EachSpentOnce x (e :: log) := by
  cases e with
  | created => exact .inr hs
  | satisfied => exact h.elim
  | _ => exact hs

theorem Balanced.write (h : Balanced s) (o : Oid) (evs : Option Event)
    (hw : ∀ t d, (s'.threads t).waitMulti = some d → (s.threads t).waitMulti = some d)
    (hobj : ∀ x, x ≠ o → s'.objs x = s.objs x) (hlog : s'.log = evs.toList ++ s.log)
    (hevs : ∀ e ∈ evs, e.Enters o)
    (hent : Entry s.log o (s.objs o) → Entry s'.log o (s'.objs o))
    (hauto : (s'.objs o).auto = true → (s.objs o).auto = true ∨ EachSpentOnce o s'.log) :
    Balanced s' := by
  intro hfit
  have hb := h (AllFit.of_append (hlog ▸ hfit))
  have hwait : ∀ t, lastWait t s'.log = lastWait t s.log := by
    intro t
    rw [hlog]
    cases evs with
    | none => rfl
    | some e => exact (hevs e rfl).lastWait
  refine ⟨fun x => ?_, fun x hx => ?_, ?_, fun t => ?_, fun t d hd => ?_⟩
  · by_cases hne : x = o
    · rw [hne]
      exact hent (hb.entered o)
    · rw [hobj x hne, hlog]
      cases evs with
      | none => exact hb.entered x
      | some e =>
        refine (hb.entered x).cons ?_
        rw [(hevs e rfl).object]
        exact fun hc => hne (some.inj hc).symm
  · have hspent : (s.objs x).auto = true → EachSpentOnce x s'.log := by
      intro ha
      rw [hlog]
      cases evs with
      | none => exact hb.spent x ha
      | some e => exact (hevs e rfl).spent (hb.spent x ha)
    by_cases hne : x = o
    · subst hne
      exact (hauto hx).elim hspent fun hs => hs
    · rw [hobj x hne] at hx
      exact hspent hx
  · rw [hlog]
    cases evs with
    | none => exact hb.settled
    | some e => exact (hevs e rfl).settled.2 hb.settled
  · rw [hwait]
    exact hb.fair t
  · rw [hwait]
    exact hb.waits t d (hw t d hd)

/-- What the ledger is compared with is the same, or a signal less. -/
structure SameUnits (k k' : Kobject) : Prop where
  type : k'.type = k.type
  manual : k'.manual = k.manual
  count : k'.count = k.count
  max : k'.max = k.max
  owner : k'.owner = k.owner
  recursion : k'.recursion = k.recursion
  signaled : k'.signaled = true → k.signaled = true

theorem SameUnits.auto (h : SameUnits k k') : k'.auto = k.auto := by
  rw [Kobject.auto, h.type, h.manual, Kobject.auto]

theorem SameUnits.entry (hk : SameUnits k k') (h : Entry log o k) : Entry log o k' where
  units := by
    rw [hk.type, hk.count, hk.max]
    exact h.units
  signal := by
    rw [hk.auto]
    exact fun ha hs => h.signal ha (hk.signaled hs)
  holder := by
    rw [hk.type, hk.owner, hk.recursion]
    exact h.holder
  depth := by
    rw [hk.type, hk.owner, hk.recursion]
    exact h.depth
  owned := by
    rw [hk.type, hk.owner]
    exact h.owned

theorem Balanced.congr (h : Balanced s) (hobj : s'.objs = s.objs) (hlog : s'.log = s.log)
    (hw : ∀ t d, (s'.threads t).waitMulti = some d → (s.threads t).waitMulti = some d) :
    Balanced s' := by
  refine h.write 0 none hw (fun x _ => by rw [hobj]) hlog (fun _ he => nomatch he) ?_ fun ha => .inl ?_
  · rw [hobj, hlog]
    exact fun he => he
  · rwa [hobj] at ha

theorem Balanced.setObj (h : Balanced s) (hk : SameUnits (s.objs o) k) :
    Balanced (s.setObj o k) := by
  refine h.write o none (fun _ _ hd => hd) (fun x hx => setObj_objs_of_ne hx k) rfl (fun _ he => nomatch he) ?_ ?_
  · rw [setObj_objs_self]
    exact hk.entry
  · rw [setObj_objs_self, hk.auto]
    exact .inl

theorem Balanced.setThread (h : Balanced s) {th : Thread}
    (hw : ∀ d, th.waitMulti = some d → (s.threads t).waitMulti = some d) : Balanced (s.setThread t th) := by
  refine h.congr rfl rfl fun u d hu => ?_
  by_cases hut : u = t
  · rw [hut, setThread_threads_self] at hu
    exact hut ▸ hw d hu
  · rwa [setThread_threads_of_ne hut] at hu

theorem Balanced.obDeref (h : Balanced s) (o : Oid) : Balanced (s.obDeref o) := by
  rw [obDeref_eq]
  exact (h.setObj (k := { s.objs o with refs := (s.objs o).refs - 1 })
    ⟨rfl, rfl, rfl, rfl, rfl, rfl, fun hs => hs⟩).congr rfl rfl fun _ _ hd => hd

theorem Balanced.enter (h : Balanced s) (he : e.Enters o)
    (hent : Entry s.log o (s.objs o) → Entry (e :: s.log) o k)
    (hauto : k.auto = true → (s.objs o).auto = true) : Balanced ((s.setObj o k).note e) := by
  have hself : ((s.setObj o k).note e).objs o = k := setObj_objs_self s o k
  refine h.write o (some e) (fun _ _ hd => hd) (fun x hx => setObj_objs_of_ne hx k) rfl ?_ ?_ ?_
  · rintro e' he'
    rwa [← some.inj he']
  · rw [hself]
    exact hent
  · rw [hself]
    exact fun ha => .inl (hauto ha)

/-! ### Signals -/

theorem Balanced.obSignal (h : Balanced s) (hq : Queued s) (o : Oid) :
    Queued (s.obSignal o) ∧ Balanced (s.obSignal o) := by
  have hn : Balanced ((s.setObj o { s.objs o with signaled := true }).note (.signal o)) :=
    h.enter rfl (fun he => ⟨he.units, fun _ _ => if_pos rfl, he.holder, he.depth, he.owned⟩)
      fun ha => ha
  exact hn.releaseCheck (hq.congr rfl (fun _ => rfl) rfl) o

theorem Balanced.mark (h : Balanced s) (ht : (s.objs o).type = .process) :
    Balanced (s.setObj o { s.objs o with signaled := true }) := by
  have hself := setObj_objs_self s o { s.objs o with signaled := true }
  refine h.write o none (fun _ _ hd => hd) (fun x hx => setObj_objs_of_ne hx _) rfl (fun _ he => nomatch he) ?_ ?_
  · rw [hself]
    intro he
    refine .of_type (by simp [ht]) (by simp [ht]) (he.no_owner (by simp [ht])) fun ha _ => ?_
    simp [Kobject.auto, ht] at ha
  · rw [hself]
    intro ha
    simp [Kobject.auto, ht] at ha

theorem Balanced.obReset (h : Balanced s) (o : Oid) : Balanced (s.obReset o) :=
  h.setObj ⟨rfl, rfl, rfl, rfl, rfl, rfl, nofun⟩

theorem Balanced.semRounds (h : Balanced s) (hq : Queued s) (o : Oid) (n : Nat) :
    Balanced (s.semRounds o n) := by
  induction n generalizing s with
  | zero => exact h
  | succ n ih =>
    unfold Machine.semRounds
    split
    · obtain ⟨hq', h'⟩ := h.releaseCheck hq o
      exact ih h' hq'
    · exact h

theorem Entry.release (h : Entry log o k) (ht : k.type = .semaphore) {n : Int} (hpos : 0 < n)
    (hn : n ≤ wrap32 (k.max - k.count)) :
    Entry (.released o n :: log) o { k with count := k.count + n, signaled := true } := by
  obtain ⟨hbal, hge, hle, hmax⟩ := h.units ht
  rw [wrap32_of_lt (by omega) (by omega)] at hn
  refine .of_semaphore ht (h.no_owner (by simp [ht])) ⟨?_, ?_, ?_, hmax⟩
  · simp only [balance, if_true, hbal]
  · show 0 ≤ k.count + n
    omega
  · show k.count + n ≤ k.max
    omega

theorem Balanced.releaseSemaphore (h : Balanced s) (hq : Queued s)
    (ht : (s.objs o).type = .semaphore) (n : Int) : Balanced (s.releaseSemaphore o n) := by
  unfold Machine.releaseSemaphore
  simp only
  split
  · exact h
  · split
    · exact h
    · rename_i hpos hroom
      have hn : Balanced ((s.setObj o
          { s.objs o with count := (s.objs o).count + n, signaled := true }).note (.released o n)) :=
        h.enter rfl (fun he => he.release ht (by omega) (by omega)) fun ha => ha
      exact hn.semRounds (hq.congr rfl (fun _ => rfl) rfl) o _

/-! ### Mutants -/

theorem Entry.drop (h : Entry log o k) (ho : k.owner = some t) (hk : k'.type = k.type)
    (hr : k'.recursion = k.recursion - 1)
    (ho' : k'.owner = if k.recursion - 1 = 0 then none else some t) :
    Entry (.dropped t o :: log) o k' := by
  have ht := h.owned (by rw [ho]; simp)
  have hd := h.depth ht
  rw [ho, if_neg (by simp)] at hd
  refine h.reown ht (.inr ho) (hk.trans ht) ?_ (fun u hne => if_neg fun hc => hne hc.2.symm) ?_ ?_ <;> rw [ho']
  · exact ite_eq_or_eq ..
  · rw [unreleased, if_pos ⟨rfl, rfl⟩, h.holder ht t, if_pos ho, hr]
    split
    · rename_i hz
      rw [hz, if_neg (by simp)]
    · rw [if_pos rfl]
  · rw [hr]
    split
    · rename_i hz
      rw [if_pos rfl, hz]
    · rw [if_neg (by simp)]
      omega

theorem Entry.forfeit (h : Entry log o k) (ho : k.owner = some t) (hk : k'.type = k.type)
    (hr : k'.recursion = 0) (ho' : k'.owner = none) : Entry (.forfeited t o :: log) o k' := by
  have ht := h.owned (by rw [ho]; simp)
  refine h.reown ht (.inr ho) (hk.trans ht) (.inl ho') (fun u hne => if_neg fun hc => hne hc.2.symm) ?_ ?_
  · rw [unreleased, if_pos ⟨rfl, rfl⟩, ho', if_neg (by simp)]
  · rw [ho', if_pos rfl, hr]

theorem Balanced.mutantRelease (h : Balanced s) (hq : Queued s) (o : Oid) (t : Tid) :
    Balanced (s.mutantRelease o t) := by
  unfold Machine.mutantRelease
  simp only
  split
  · rename_i ho
    split
    · rename_i hz
      have hn : Balanced ((s.setObj o { s.objs o with
          recursion := 0, owner := none, signaled := true }).note (.dropped t o)) :=
        h.enter rfl (fun he => he.drop ho rfl hz.symm (by rw [if_pos hz])) fun ha => ha
      refine And.right (Balanced.releaseCheck ?_ ?_ o)
      · exact hn.congr rfl rfl fun _ _ hd => hd
      · exact hq.congr rfl (fun _ => rfl) rfl
    · rename_i hz
      have hn : Balanced ((s.setObj o { s.objs o with
          recursion := (s.objs o).recursion - 1 }).note (.dropped t o)) :=
        h.enter rfl (fun he => he.drop ho rfl rfl (by rw [if_neg hz]; exact ho)) fun ha => ha
      exact hn.congr rfl rfl fun _ _ hd => hd
  · exact h

theorem Balanced.forfeitOwned (h : Balanced s) (hq : Queued s) (t : Tid) (fuel : Nat) :
    Queued (s.forfeitOwned t fuel) ∧ Balanced (s.forfeitOwned t fuel) := by
  induction fuel generalizing s with
  | zero => exact ⟨hq, h⟩
  | succ fuel ih =>
    unfold Machine.forfeitOwned
    split
    · exact ⟨hq, h⟩
    · rename_i o hfind
      have ho : (s.objs o).owner = some t := by simpa using List.find?_some hfind
      have hn : Balanced ((s.setObj o { s.objs o with
          owner := none, recursion := 0, abandoned := true, signaled := true }).note
          (.forfeited t o)) :=
        h.enter rfl (fun he => he.forfeit ho rfl rfl rfl) fun ha => ha
      simp only
      generalize hm : Machine.releaseCheck _ o = m
      have hrel : Queued m ∧ Balanced m := by
        subst hm
        refine Balanced.releaseCheck ?_ ?_ o
        · exact hn.congr rfl rfl fun _ _ hd => hd
        · exact hq.congr rfl (fun _ => rfl) rfl
      have hdrop : Balanced (m.setLoose o (m.loose o - 1)) :=
        hrel.2.congr rfl rfl fun _ _ hd => hd
      have hrests := obDeref_rests (m.setLoose o (m.loose o - 1)) o
      exact ih (hdrop.obDeref o) (hrel.1.congr hrests.links hrests.pending hrests.order)

theorem Balanced.threadObjectSignal (h : Balanced s) (hq : Queued s) (t : Tid) :
    Balanced (s.threadObjectSignal t) := by
  unfold Machine.threadObjectSignal
  simp only
  obtain ⟨hq', h'⟩ := h.forfeitOwned hq t s.owned.length
  split
  · exact h'
  · exact (h'.obSignal hq' _).2

/-! ### Timers -/

theorem Balanced.checkTimer (h : Balanced s) (hq : Queued s) (o : Oid) :
    Queued (s.checkTimer o) ∧ Balanced (s.checkTimer o) := by
  unfold Machine.checkTimer
  simp only
  split
  · refine Balanced.obSignal (h.setObj ?_) ?_ o
    on_goal 2 => exact hq.congr rfl (fun _ => rfl) rfl
    split
    · exact ⟨rfl, rfl, rfl, rfl, rfl, rfl, fun hs => hs⟩
    · exact ⟨rfl, rfl, rfl, rfl, rfl, rfl, fun hs => hs⟩
  · exact ⟨hq, h⟩

theorem Balanced.checkTimers (h : Balanced s) (hq : Queued s) (l : List Oid) :
    Balanced (l.foldl Machine.checkTimer s) := by
  induction l generalizing s with
  | nil => exact h
  | cons o l ih =>
    obtain ⟨hq', h'⟩ := h.checkTimer hq o
    exact ih h' hq'

theorem Balanced.schedTick (h : Balanced s) (hq : Queued s) : Balanced s.schedTick := by
  have hwait : ∀ t, (if (s.threads t).state = ThreadState.blocked ∧ (s.threads t).wakeTick ≠ 0 ∧
      (s.threads t).wakeTick ≤ s.jiffies + 1 then
        { s.threads t with state := .ready, wakeTick := 0 } else s.threads t).waitMulti =
      (s.threads t).waitMulti := by
    intro t
    split
    · rfl
    · rfl
  refine Balanced.checkTimers ?_ ?_ _
  · exact h.congr rfl rfl fun t d hd => (hwait t).symm.trans hd
  · exact hq.congr rfl (fun t => congrArg (Option.filter _) (hwait t)) rfl

/-! ### New objects -/

/-- An object as the calls that create objects make it. -/
structure Kobject.Initial (k : Kobject) : Prop where
  owner : k.owner = none
  recursion : k.recursion = 0
  units : k.type = .semaphore → 0 ≤ k.count ∧ k.count ≤ k.max ∧ k.max < 2 ^ 31

theorem Kobject.Initial.entry (h : k.Initial) :
    Entry (.created o k :: log) o { k with refs := 1 } where
  units := fun hk => ⟨(if_pos rfl).symm, h.units hk⟩
  signal := fun _ hs => (if_pos rfl).trans hs
  holder := by
    intro _ t
    rw [unreleased, if_pos rfl, h.owner, if_neg (by simp)]
  depth := by
    intro _
    rw [h.owner, if_pos rfl]
    exact h.recursion
  owned := fun hne => absurd h.owner hne

theorem Balanced.obCreate (h : Balanced s) (hk : k.Initial) (n : Nat) :
    Balanced (s.obCreate k n) := by
  refine h.write s.nextObj (some (.created s.nextObj k)) (fun _ _ hd => hd)
    (fun x hx => update_of_ne hx ..) rfl ?_ ?_ ?_
  · rintro e he
    rw [← some.inj he]
    rfl
  · rw [obCreate_objs_self]
    exact fun _ => hk.entry
  · exact fun _ => .inr (.inl rfl)

theorem Balanced.mutantInitialOwner (h : Balanced s) (htype : (s.objs o).type = .mutant)
    (hnone : (s.objs o).owner = none) (hr : (s.objs o).recursion = 0) (t : Tid) :
    Balanced (s.mutantInitialOwner o t) := by
  have hn : Balanced ((s.setObj o ((s.objs o).take t)).note (.took t o)) := by
    refine h.enter rfl (fun he => ?_) fun ha => ?_
    · refine he.take htype (.inl hnone) ?_ htype rfl ?_
      · rw [hr]
        decide
      · simp [Kobject.take, hnone]
    · simp [Kobject.auto, Kobject.take, htype] at ha
  exact hn.congr rfl rfl fun _ _ hd => hd

/-! ### Waits -/

theorem Receipt.Settles.of_empty {r : Receipt} {n : Int} (hr : r.taken = [])
    (hn : n = STATUS_TIMEOUT ∨ n = STATUS_NO_MEMORY ∨ n = STATUS_INVALID_PARAMETER) :
    r.Settles n := by
  rw [Receipt.Settles, if_pos hn]
  exact hr

theorem Balanced.returned (h : Balanced s) {n : Int}
    (hn : AllFit s.log → (lastWait t s.log).Settles n) :
    Balanced (s.note (.returned t n)) := by
  intro hfit
  have hb := h hfit.of_cons
  exact ⟨fun o => (hb.entered o).cons nofun, hb.spent, ⟨hn hfit.of_cons, hb.settled⟩, hb.fair,
    hb.waits⟩

theorem Balanced.called (h : Balanced s) (hw : (s.threads t).waitMulti = none) (objs : List Oid)
    (all : Bool) : Balanced (s.note (.called t objs all)) := by
  intro hfit
  have hb := h hfit.of_cons
  refine ⟨fun o => (hb.entered o).cons nofun, hb.spent, hb.settled, fun u => ?_, fun u d hu => ?_⟩
  · show (lastWait u (.called t objs all :: s.log)).Fair
    rw [lastWait]
    split
    · exact .inl rfl
    · exact hb.fair u
  · have hne : t ≠ u := by
      rintro rfl
      have hd := hu
      rw [show (s.note (.called t objs all)).threads = s.threads from rfl, hw] at hd
      cases hd
    show d.Matches (lastWait u (.called t objs all :: s.log))
    rw [lastWait, if_neg hne]
    exact hb.waits u d hu

theorem Balanced.take (h : Balanced s) (hw : (s.threads t).waitMulti = none) {all : Bool}
    (hl : lastWait t s.log = ⟨objs, all, []⟩) (hr : ∀ o ∈ taken, s.signaled o t = true)
    (hfair : Receipt.Fair ⟨objs, all, taken⟩) {n : Int} (hn : Receipt.Settles ⟨objs, all, taken⟩ n) :
    Balanced ((s.acquireFor t taken).1.note (.returned t n)) := by
  intro hfit
  obtain ⟨hf, hold⟩ := acquireFor_allFit hfit.of_cons
  have hb := h hold
  obtain ⟨hent, hspent, hsettled, hwait⟩ := hb.acquireFor hf hr
  have hself : lastWait t (s.acquireFor t taken).1.log = ⟨objs, all, taken⟩ := by
    rw [hwait, if_pos rfl, hl]
    rfl
  refine ⟨fun o => (hent o).cons nofun, hspent, ⟨?_, hsettled⟩, fun u => ?_, fun u d hu => ?_⟩
  · rw [hself]
    exact hn
  · show (lastWait u (s.acquireFor t taken).1.log).Fair
    by_cases hu : u = t
    · rw [hu, hself]
      exact hfair
    · rw [hwait, if_neg hu]
      exact hb.fair u
  · have hu' : (s.threads u).waitMulti = some d := by
      rw [← acquireFor_threads s t taken]
      exact hu
    show d.Matches (lastWait u (s.acquireFor t taken).1.log)
    rw [hwait, if_neg]
    · exact hb.waits u d hu'
    · rintro rfl
      rw [hw] at hu'
      cases hu'

theorem Balanced.obBlock (h : Balanced s) {waitAll : Bool}
    (hl : lastWait t s.log = ⟨objs, waitAll, []⟩) (hlen : objs.length ≤ MAX_WAIT) (timeout : Int)
    (memory : Bool) : Balanced (s.obBlock t objs waitAll timeout memory) := by
  have hempty : (lastWait t s.log).taken = [] := by rw [hl]
  unfold Machine.obBlock
  split
  · exact h.returned fun _ => .of_empty hempty (.inl rfl)
  split
  · intro hfit
    have hb := h hfit.of_cons
    refine ⟨fun o => (hb.entered o).cons nofun, hb.spent, hb.settled, hb.fair, fun u d hu => ?_⟩
    show d.Matches (lastWait u s.log)
    by_cases hut : u = t
    · rw [hut] at hu ⊢
      have hd := some.inj ((congrArg Thread.waitMulti
        (setThread_threads_self (s.linkWaits t objs) t _)).symm.trans hu)
      rw [← hd, hl]
      exact ⟨rfl, rfl, hlen, rfl⟩
    · exact hb.waits u d ((congrArg Thread.waitMulti
        (setThread_threads_of_ne hut _)).symm.trans hu)
  · exact h.returned fun _ => .of_empty hempty (.inr (.inl rfl))

theorem settles_all (objs : List Oid) (ab : Bool) :
    Receipt.Settles ⟨objs, true, objs⟩ (Machine.abandonedBase ab) := by
  cases ab with
  | false => exact ⟨rfl, .inl rfl⟩
  | true => exact ⟨rfl, .inr rfl⟩

theorem settles_any {i : Nat} (hi : objs[i]? = some o) (hlen : objs.length ≤ MAX_WAIT) (ab : Bool) :
    Receipt.Settles ⟨objs, false, [o]⟩ (i + Machine.abandonedBase ab) := by
  have hlt : i < objs.length := (List.getElem?_eq_some_iff.1 hi).1
  have hle : (i : Int) < 64 := by
    unfold MAX_WAIT at hlen
    omega
  have hbase : Machine.abandonedBase ab = 0 ∨ Machine.abandonedBase ab = 0x80 := by
    cases ab with
    | false => exact .inl rfl
    | true => exact .inr rfl
  unfold Receipt.Settles STATUS_TIMEOUT STATUS_NO_MEMORY STATUS_INVALID_PARAMETER
  rw [if_neg (by omega), if_neg (by simp)]
  refine ⟨i, o, hi, rfl, ?_⟩
  obtain hb | hb := hbase
  · left
    omega
  · right
    rw [hb]
    rfl

theorem Balanced.obWait (h : Balanced s) (hw : (s.threads t).waitMulti = none)
    (objs : List Oid) (waitAll : Bool) (timeout : Int) (memory : Bool) :
    Balanced (s.obWait t objs waitAll timeout memory) := by
  have hc := h.called hw objs waitAll
  have hl : lastWait t (s.note (.called t objs waitAll)).log = ⟨objs, waitAll, []⟩ := if_pos rfl
  unfold Machine.obWait
  simp only
  split
  · refine hc.returned fun _ => .of_empty ?_ (.inr (.inr rfl))
    rw [hl]
  · rename_i hlen
    rw [not_or, Nat.not_lt] at hlen
    cases waitAll with
    | true =>
      simp only [if_true]
      split
      · rename_i hall
        refine hc.take hw hl (fun o ho => all_eq_true.1 hall o ho) ?_ (settles_all objs _)
        exact .inr rfl
      · exact hc.obBlock hl hlen.2 timeout memory
    | false =>
      cases hf : Machine.firstSignaled (s.note (.called t objs false)) t objs with
      | some p =>
        have hi : objs[p.2]? = some p.1 :=
          mk_mem_zipIdx_iff_getElem?.1 (mem_of_find?_eq_some hf)
        refine hc.take hw hl (fun o ho => ?_) ?_ (settles_any hi hlen.2 _)
        · rw [mem_singleton.1 ho]
          exact List.find?_some (p := fun p : Oid × Nat =>
            (s.note (.called t objs false)).signaled p.1 t) hf
        · exact .inr ⟨p.1, mem_of_getElem? hi, rfl⟩
      | none => exact hc.obBlock hl hlen.2 timeout memory

theorem Waitdesc.Matches.settles {r : Receipt} (h : d.Matches r) :
    r.Settles d.status := by
  unfold Waitdesc.status
  obtain ⟨objs, all, taken⟩ := r
  obtain ⟨rfl, rfl, hlen, ht⟩ := h
  by_cases hres : d.result = -1
  · rw [if_pos hres] at ht
    simp only [hres, if_true]
    exact .of_empty ht (.inl rfl)
  · rw [if_neg hres] at ht
    cases hall : d.all with
    | true =>
      rw [if_pos hall] at ht
      obtain ⟨hr, htaken⟩ := ht
      simp only [hr, if_true, Int.zero_add]
      rw [if_neg (by decide), if_neg (by decide), show taken = d.objs from htaken]
      exact settles_all d.objs _
    | false =>
      rw [if_neg (by simp [hall])] at ht
      obtain ⟨i, o, hi, htaken, hr⟩ := ht
      simp only [hr, Bool.false_eq_true, if_false]
      rw [if_neg (by omega), if_neg (by omega), show taken = [o] from htaken]
      exact settles_any hi hlen _

theorem Balanced.obResume (h : Balanced s) (hw : (s.threads t).waitMulti = some d) :
    Balanced (s.obResume t d) := by
  rw [obResume_eq]
  refine Balanced.returned (Balanced.setThread ?_ ?_) fun hfit => ((h hfit).waits t d hw).settles
  · exact h.congr rfl rfl fun _ _ hd => hd
  · nofun

/-! ### Steps and runs -/

theorem Balanced.registerTimer (h : Balanced s) (o : Oid) : Balanced (s.registerTimer o) := by
  unfold Machine.registerTimer
  split
  · exact h.congr rfl rfl fun _ _ hd => hd
  · exact h

theorem step_balanced (h : Balanced s) (hs : Sound R X s) {a : Act} (hstep : s.step a = some s') :
    Balanced s' := by
  have hq := hs.queued
  cases a with
  | spawn t =>
    obtain ⟨-, rfl⟩ := Option.ite_some_none_eq_some.1 hstep
    have hc := h.obCreate (k := { type := .thread, thr := some t }) ⟨rfl, rfl, by simp⟩ 0
    exact hc.setThread fun _ hd => by cases hd
  | createEvent | createProcess | createIo =>
    obtain rfl := some.inj hstep
    refine h.obCreate ?_ 1
    exact ⟨rfl, rfl, by simp⟩
  | createSemaphore initial max =>
    simp only [Machine.step] at hstep
    split at hstep
    · cases hstep
    · rename_i hc
      obtain rfl := some.inj hstep
      refine h.obCreate ⟨rfl, rfl, fun _ => ?_⟩ 1
      simp only
      omega
  | createMutant t initialOwner =>
    obtain ⟨-, rfl⟩ := Option.ite_some_none_eq_some.1 hstep
    have hc := h.obCreate (k := { type := .mutant, signaled := true }) ⟨rfl, rfl, by simp⟩ 1
    split
    · refine hc.mutantInitialOwner ?_ ?_ ?_ t <;> rw [obCreate_objs_self]
    · exact hc
  | createTimer manual =>
    obtain rfl := some.inj hstep
    have hc := h.obCreate (k := { type := .timer, manual := manual }) ⟨rfl, rfl, by simp⟩ 1
    exact hc.registerTimer _
  | ref o =>
    obtain ⟨-, rfl⟩ := Option.ite_some_none_eq_some.1 hstep
    have hw := h.setObj (k := { s.objs o with refs := (s.objs o).refs + 1 })
      ⟨rfl, rfl, rfl, rfl, rfl, rfl, fun hs => hs⟩
    exact hw.congr rfl rfl fun _ _ hd => hd
  | deref o =>
    obtain ⟨-, rfl⟩ := Option.ite_some_none_eq_some.1 hstep
    refine Balanced.obDeref ?_ o
    exact h.congr rfl rfl fun _ _ hd => hd
  | setEvent o | completeIo o =>
    obtain ⟨-, rfl⟩ := Option.ite_some_none_eq_some.1 hstep
    exact (h.obSignal hq o).2
  | resetEvent o | clearIo o =>
    obtain ⟨-, rfl⟩ := Option.ite_some_none_eq_some.1 hstep
    exact h.obReset o
  | releaseSemaphore o n =>
    obtain ⟨hc, rfl⟩ := Option.ite_some_none_eq_some.1 hstep
    exact h.releaseSemaphore hq (live_iff.1 hc).2 n
  | releaseMutant t o =>
    obtain ⟨-, rfl⟩ := Option.ite_some_none_eq_some.1 hstep
    exact h.mutantRelease hq o t
  | setTimer o due period =>
    obtain ⟨-, rfl⟩ := Option.ite_some_none_eq_some.1 hstep
    exact h.setObj ⟨rfl, rfl, rfl, rfl, rfl, rfl, by simp⟩
  | cancelTimer o =>
    obtain ⟨-, rfl⟩ := Option.ite_some_none_eq_some.1 hstep
    exact h.setObj ⟨rfl, rfl, rfl, rfl, rfl, rfl, fun hs => hs⟩
  | markProcess o =>
    obtain ⟨hc, rfl⟩ := Option.ite_some_none_eq_some.1 hstep
    exact (h.mark (live_iff.1 hc).2).congr rfl rfl fun _ _ hd => hd
  | checkProcess o =>
    obtain ⟨-, rfl⟩ := Option.ite_some_none_eq_some.1 hstep
    refine And.right (Balanced.releaseCheck ?_ ?_ o)
    · exact h.congr rfl rfl fun _ _ hd => hd
    · exact hq.congr rfl (fun _ => rfl) rfl
  | wait t objs all timeout memory =>
    obtain ⟨hc, rfl⟩ := Option.ite_some_none_eq_some.1 hstep
    rw [Bool.and_eq_true] at hc
    exact h.obWait (running_iff.1 hc.1).2.2 objs all timeout memory
  | wake t =>
    obtain rfl := some.inj hstep
    have he := threadWake_eq s t
    refine h.congr (by rw [he]) (by rw [he]) fun u d hu => ?_
    rwa [threadWake_waitMulti] at hu
  | tick =>
    obtain rfl := some.inj hstep
    exact h.schedTick hq
  | resume t =>
    simp only [Machine.step] at hstep
    split at hstep
    · rename_i d hd
      split at hstep
      · obtain rfl := some.inj hstep
        exact h.obResume hd
      · cases hstep
    · cases hstep
  | exit t =>
    obtain ⟨hc, rfl⟩ := Option.ite_some_none_eq_some.1 hstep
    have hrests : Rests s (s.setThread t { s.threads t with state := .zombie }) :=
      .setThread rfl (.inr ⟨ThreadState.noConfusion, (running_iff.1 hc).2.2⟩)
    refine Balanced.threadObjectSignal (h.setThread ?_) (hq.congr rfl hrests.pending rfl) t
    exact fun _ hd => hd
  | reap t =>
    simp only [Machine.step] at hstep
    split at hstep
    · have hfree : Balanced (s.setThread t {}) := h.setThread fun _ hd => by cases hd
      split at hstep
      · obtain rfl := some.inj hstep
        exact hfree
      · rename_i o ho
        obtain rfl := some.inj hstep
        refine Balanced.obDeref (hfree.setObj ?_) o
        exact ⟨rfl, rfl, rfl, rfl, rfl, rfl, fun hs => hs⟩
    · cases hstep

theorem boot_balanced : Balanced boot := by
  intro _
  refine ⟨fun o => .of_type nofun nofun rfl nofun, nofun, trivial, fun t => .inl rfl, nofun⟩

theorem Books.accounts (h : Books s) : Accounts s where
  semaphore := by
    intro o ho
    obtain ⟨hbal, hge, -⟩ := (h.entered o).units ho
    exact ⟨hbal, hge⟩
  auto := h.spent
  mutant := fun o ho => (h.entered o).holder ho
  owner := by
    intro o ho hne
    have hd := (h.entered o).depth ho
    rwa [if_neg hne] at hd
  waits := h.fair
  settled := h.settled

theorem run_balanced (h : Balanced s) (hs : Sound R X s) (as : List Act) :
    s.Always (fun m => AllFit m.log → Accounts m) as := by
  induction as generalizing s R X with
  | nil => exact fun hfit => (h hfit).accounts
  | cons a as ih =>
    refine ⟨fun hfit => (h hfit).accounts, fun s' hstep => ?_⟩
    exact ih (step_balanced h hs (next_step hstep)) (step_sound hs (next_step hstep))

/-- **What waits consume.**  In every state of every run in which each satisfied wait found
a unit for each time it names a semaphore, and each mutant it names a free level, counts,
owners, levels and the outcomes of waits are what the ledger says. -/
theorem waits_accounted (as : List Act) :
    boot.Always (fun s => AllFit s.log → Accounts s) as :=
  run_balanced boot_balanced boot_sound as

/-- A thread waits for all of a semaphore with one unit and the same semaphore. -/
def overdrawnRun : List Act :=
  [.spawn 0, .createSemaphore 1 5, .wait 0 [1, 1] true 0 true]

theorem overdrawnRun_isSome : (boot.run overdrawnRun).isSome := by decide +kernel

/-- **The same unit is taken twice**: the count of the semaphore becomes negative. -/
theorem wait_all_overdraws : ¬∀ as, boot.Always Accounts as := by
  intro h
  have hrun := always_run (h overdrawnRun) (some_get overdrawnRun_isSome).symm
  have hcount := (hrun.semaphore 1 (by decide +kernel)).2
  revert hcount
  decide +kernel

end Win98Modern.Ob
