import Win98Modern.Kernel64.ObjectLinks

/-!
# Satisfying waiters

`Queued s`: the waiter list of each object holds the blocks of the pending waits on it, in
the order in which the waits began, and nothing else.  `arrivals` reads that order off what
has happened.

`Quiet X s`: no pending wait could be satisfied without an object of `X`.  A signal of `o`
leaves `Quiet (o :: X)`, and **`releaseCheck_spec`** says that the walk over the waiters
of `o` brings `Quiet X` back: it may stop early only when nobody finds `o` signaled any
more.
-/

namespace Win98Modern.Ob

open Function List

/-! ### Pending waits -/

/-- The threads whose waits are pending, first come first. -/
def arrivals : List Event → List Tid
  | [] => []
  | .blocked t :: log => arrivals log ++ [t]
  | .satisfied t _ _ :: log => (arrivals log).erase t
  | .returned t _ :: log => (arrivals log).erase t
  | _ :: log => arrivals log

namespace Machine

/-- The wait of a thread, if nothing has ended it yet. -/
def pending (s : Machine) (t : Tid) : Option Waitdesc :=
  (s.threads t).waitMulti.filter fun d => d.result == -1

def waitObjs (s : Machine) (t : Tid) : List Oid := ((s.pending t).map Waitdesc.objs).getD []

/-- The blocks of the pending waits for `o`, first come first. -/
def waiters (s : Machine) (o : Oid) : List Block := waitersOf s.waitObjs (arrivals s.log) o

end Machine

variable {s s' : Machine} {o : Oid} {t : Tid} {d : Waitdesc}

theorem pending_iff :
    s.pending t = some d ↔ (s.threads t).waitMulti = some d ∧ d.result = -1 := by
  simp [Machine.pending, Option.filter_eq_some_iff]

theorem waitObjs_of_pending (h : s.pending t = some d) : s.waitObjs t = d.objs := by
  rw [Machine.waitObjs, h]
  rfl

structure Queued (s : Machine) : Prop where
  nodup : (arrivals s.log).Nodup
  mem : ∀ t, t ∈ arrivals s.log ↔ ∃ d, s.pending t = some d
  queues : Queues s.links s.waiters

theorem mem_waiters (h : Queued s) {b : Block} :
    b ∈ s.waiters o ↔ ∃ d, s.pending b.thread = some d ∧ d.objs[b.index]? = some o := by
  rw [Machine.waiters, mem_waitersOf, h.mem]
  constructor
  · rintro ⟨⟨d, hd⟩, hi⟩
    exact ⟨d, hd, waitObjs_of_pending hd ▸ hi⟩
  · rintro ⟨d, hd, hi⟩
    exact ⟨⟨d, hd⟩, (waitObjs_of_pending hd).symm ▸ hi⟩

/-- Changes that leave the waits alone. -/
structure Still (s s' : Machine) : Prop where
  links : s'.links = s.links
  threads : s'.threads = s.threads
  arrivals : arrivals s'.log = arrivals s.log

theorem Still.refl (s : Machine) : Still s s := ⟨rfl, rfl, rfl⟩

theorem Still.trans {s'' : Machine} (h : Still s s') (h' : Still s' s'') : Still s s'' :=
  ⟨h'.links.trans h.links, h'.threads.trans h.threads, h'.arrivals.trans h.arrivals⟩

theorem Still.pending (h : Still s s') (t : Tid) : s'.pending t = s.pending t := by
  rw [Machine.pending, h.threads]
  rfl

theorem Queued.congr (h : Queued s) (hl : s'.links = s.links)
    (hp : ∀ t, s'.pending t = s.pending t) (ha : arrivals s'.log = arrivals s.log) :
    Queued s' := by
  have hobjs : s'.waitObjs = s.waitObjs := by
    funext t
    rw [Machine.waitObjs, hp]
    rfl
  refine ⟨ha ▸ h.nodup, fun t => ?_, ?_⟩
  · rw [ha, hp]
    exact h.mem t
  · rw [hl, show s'.waiters = s.waiters from ?_]
    · exact h.queues
    · funext o
      rw [Machine.waiters, hobjs, ha]
      rfl

theorem Queued.still (h : Queued s) (hs : Still s s') : Queued s' :=
  h.congr hs.links hs.pending hs.arrivals

/-! ### Acquisitions -/

@[simp] theorem setObj_objs_self (s : Machine) (o : Oid) (k : Kobject) :
    (s.setObj o k).objs o = k := update_self ..

variable {x : Oid} {u : Tid} {k : Kobject} {taken X : List Oid} {r : Int} {w : Block}

@[simp] theorem setObj_objs_of_ne (h : x ≠ o) (k : Kobject) :
    (s.setObj o k).objs x = s.objs x := update_of_ne h ..

@[simp] theorem setThread_threads_self (s : Machine) (t : Tid) (th : Thread) :
    (s.setThread t th).threads t = th := update_self ..

@[simp] theorem setThread_threads_of_ne (h : u ≠ t) (th : Thread) :
    (s.setThread t th).threads u = s.threads u := update_of_ne h ..

theorem setObj_signaled (s : Machine) (o : Oid) (k : Kobject) (x : Oid) (t : Tid) :
    (s.setObj o k).signaled x t = if x = o then k.signaledFor t else s.signaled x t := by
  by_cases hx : x = o
  · simp [Machine.signaled, hx]
  · simp [Machine.signaled, hx]

theorem objAcquire_objs (s : Machine) (o : Oid) (t : Tid) :
    (s.objAcquire o t).1.objs = update s.objs o ((s.objs o).acquire t) := by
  unfold Machine.objAcquire
  simp only
  split
  · rfl
  · rfl

theorem objAcquire_still (s : Machine) (o : Oid) (t : Tid) : Still s (s.objAcquire o t).1 := by
  unfold Machine.objAcquire
  simp only
  split
  · exact ⟨rfl, rfl, rfl⟩
  · exact ⟨rfl, rfl, rfl⟩

theorem acquireAll_still (t : Tid) (objs : List Oid) (s : Machine) (ab : Bool) :
    Still s (Machine.acquireAll t objs s ab).1 := by
  induction objs generalizing s ab with
  | nil => exact Still.refl s
  | cons o objs ih => exact (objAcquire_still s o t).trans (ih ..)

theorem signaledFor_acquire (h : (k.acquire t).signaledFor u = true) : k.signaledFor u = true := by
  unfold Kobject.acquire Kobject.take Kobject.signaledFor at *
  cases hk : k.type with
  | event => cases hm : k.manual <;> simp_all
  | timer => cases hm : k.manual <;> simp_all
  | semaphore =>
    simp only [hk, decide_eq_true_eq] at h ⊢
    omega
  | mutant =>
    simp only [hk] at h ⊢
    by_cases ho : k.owner = none
    · simp [ho]
    · simpa [ho] using h
  | _ => simp_all

theorem acquireAll_signaled (objs : List Oid) (ab : Bool)
    (h : (Machine.acquireAll t objs s ab).1.signaled x u = true) : s.signaled x u = true := by
  induction objs generalizing s ab with
  | nil => exact h
  | cons o objs ih =>
    have h' := ih (s := (s.objAcquire o t).1) _ h
    rw [Machine.signaled, objAcquire_objs] at h'
    by_cases hx : x = o
    · subst hx
      rw [update_self] at h'
      exact signaledFor_acquire h'
    · rwa [update_of_ne hx] at h'

/-- What the thread that took it no longer finds signaled, nobody does. -/
theorem signaledFor_consumed (h : k.signaledFor t = true) (h' : (k.acquire t).signaledFor t = false)
    (u : Tid) : (k.acquire t).signaledFor u = false := by
  unfold Kobject.acquire Kobject.take Kobject.signaledFor at *
  cases hk : k.type with
  | mutant =>
    simp only [hk] at h h'
    by_cases ho : k.owner = none
    · simp [ho] at h'
    · simp_all
  | event => cases hm : k.manual <;> simp_all
  | timer => cases hm : k.manual <;> simp_all
  | _ => simp_all

theorem acquireFor_links (s : Machine) (t : Tid) (taken : List Oid) :
    (s.acquireFor t taken).1.links = s.links := (acquireAll_still t taken _ false).links

theorem acquireFor_threads (s : Machine) (t : Tid) (taken : List Oid) :
    (s.acquireFor t taken).1.threads = s.threads := (acquireAll_still t taken _ false).threads

theorem acquireFor_arrivals (s : Machine) (t : Tid) (taken : List Oid) :
    arrivals (s.acquireFor t taken).1.log = (arrivals s.log).erase t :=
  (acquireAll_still t taken _ false).arrivals

theorem acquireFor_signaled (h : (s.acquireFor t taken).1.signaled x u = true) :
    s.signaled x u = true :=
  acquireAll_signaled (s := s.note (.satisfied t taken (s.fits taken))) taken false h

/-! ### One satisfied wait -/

theorem threadWake_waitMulti (s : Machine) (t u : Tid) :
    ((s.threadWake t).threads u).waitMulti = (s.threads u).waitMulti := by
  unfold Machine.threadWake
  split
  · by_cases hu : u = t
    · subst hu
      simp [Machine.setThread]
    · simp [Machine.setThread, hu]
  · rfl

theorem threadWake_eq (s : Machine) (t : Tid) :
    s.threadWake t = { s with threads := (s.threadWake t).threads } := by
  unfold Machine.threadWake
  split
  · rfl
  · rfl

theorem satisfy_eq (s : Machine) (t : Tid) (d : Waitdesc) (taken : List Oid) (r : Int) :
    s.satisfy t d taken r =
      { (s.acquireFor t taken).1 with
        links := d.objs.zipIdx.foldl (unlinkBlock t) s.links
        threads := (s.satisfy t d taken r).threads } := by
  unfold Machine.satisfy
  simp only
  rw [threadWake_eq]
  simp only [Machine.unlinkWaits, Machine.setWait, Machine.setThread, acquireFor_links]

theorem satisfy_links (s : Machine) (t : Tid) (d : Waitdesc) (taken : List Oid) (r : Int) :
    (s.satisfy t d taken r).links = d.objs.zipIdx.foldl (unlinkBlock t) s.links := by
  rw [satisfy_eq]

theorem satisfy_objs (s : Machine) (t : Tid) (d : Waitdesc) (taken : List Oid) (r : Int) :
    (s.satisfy t d taken r).objs = (s.acquireFor t taken).1.objs := by
  rw [satisfy_eq]

theorem satisfy_log (s : Machine) (t : Tid) (d : Waitdesc) (taken : List Oid) (r : Int) :
    (s.satisfy t d taken r).log = (s.acquireFor t taken).1.log := by
  rw [satisfy_eq]

theorem satisfy_waitMulti (s : Machine) (t : Tid) (d : Waitdesc) (taken : List Oid) (r : Int)
    (u : Tid) : ((s.satisfy t d taken r).threads u).waitMulti =
      if u = t then some { d with result := r, abandoned := (s.acquireFor t taken).2 }
      else (s.threads u).waitMulti := by
  unfold Machine.satisfy
  simp only [threadWake_waitMulti, Machine.unlinkWaits, Machine.setWait, Machine.setThread,
    acquireFor_threads]
  by_cases hu : u = t
  · simp [hu]
  · simp [hu]

theorem satisfy_pending (hr : r ≠ -1) (taken : List Oid) (u : Tid) :
    (s.satisfy t d taken r).pending u = if u = t then none else s.pending u := by
  rw [Machine.pending, satisfy_waitMulti]
  by_cases hu : u = t
  · simp [hu, hr]
  · simp [hu, Machine.pending]

theorem satisfy_state (hu : u ≠ t) :
    ((s.satisfy t d taken r).threads u).state = (s.threads u).state := by
  unfold Machine.satisfy Machine.threadWake
  simp only
  split
  · simp [Machine.unlinkWaits, Machine.setWait, Machine.setThread, hu, acquireFor_threads]
  · simp [Machine.unlinkWaits, Machine.setWait, Machine.setThread, hu, acquireFor_threads]

theorem satisfy_signaled (h : (s.satisfy t d taken r).signaled x u = true) :
    s.signaled x u = true := by
  rw [Machine.signaled, satisfy_objs] at h
  exact acquireFor_signaled h

/-- A wait can be satisfied with `taken`, and its result is `r`. -/
structure Grant (s : Machine) (t : Tid) (d : Waitdesc) (taken : List Oid) (r : Int) : Prop where
  pending : s.pending t = some d
  outcome : (d.all = true ∧ taken = d.objs ∧ r = 0) ∨
    (d.all = false ∧ ∃ (i : Nat) (o : Oid), d.objs[i]? = some o ∧ taken = [o] ∧ r = i)
  ready : ∀ o ∈ taken, s.signaled o t = true

theorem Grant.result_ne (h : Grant s t d taken r) : r ≠ -1 := by
  obtain ⟨-, -, rfl⟩ | ⟨-, i, o, -, -, rfl⟩ := h.outcome
  · decide
  · omega

theorem Queued.leave (h : Queued s) (hp : s.pending t = some d)
    (hl : s'.links = d.objs.zipIdx.foldl (unlinkBlock t) s.links)
    (hpend : ∀ u, s'.pending u = if u = t then none else s.pending u)
    (harr : arrivals s'.log = (arrivals s.log).erase t) :
    Queued s' ∧ s'.waiters = waitersOf s.waitObjs ((arrivals s.log).erase t) ∧
      ∀ b : Block, b.thread = t → s'.links (.next b) = s.links (.next b) := by
  have ht : t ∈ arrivals s.log := (h.mem t).2 ⟨d, hp⟩
  have hnotin : t ∉ (arrivals s.log).erase t := fun hm => (h.nodup.mem_erase_iff.1 hm).1 rfl
  have hw : s'.waiters = waitersOf s.waitObjs ((arrivals s.log).erase t) := by
    show waitersOf _ (arrivals s'.log) = _
    rw [harr]
    refine waitersOf_congr fun u hu => ?_
    have hne : u ≠ t := fun e => hnotin (e ▸ hu)
    rw [Machine.waitObjs, hpend, if_neg hne]
    rfl
  have hun := h.queues.unlinkWaits h.nodup ht
  rw [waitObjs_of_pending hp, ← hl] at hun
  refine ⟨⟨harr ▸ h.nodup.erase t, fun u => ?_, hw ▸ hun.1⟩, hw, hun.2⟩
  rw [harr, h.nodup.mem_erase_iff, h.mem, hpend]
  by_cases hu : u = t
  · simp [hu]
  · simp [hu]

theorem Queued.satisfy (h : Queued s) (hg : Grant s t d taken r) : Queued (s.satisfy t d taken r) ∧
      (s.satisfy t d taken r).waiters = waitersOf s.waitObjs ((arrivals s.log).erase t) ∧
      ∀ b : Block, b.thread = t →
        (s.satisfy t d taken r).links (.next b) = s.links (.next b) :=
  h.leave hg.pending (satisfy_links ..) (satisfy_pending hg.result_ne taken)
    (by rw [satisfy_log, acquireFor_arrivals])

/-! ### Waits that could be satisfied -/

/-- The wait would be satisfied if the objects with `p` were the signaled ones. -/
def Satisfiable (p : Oid → Prop) (d : Waitdesc) : Prop :=
  if d.all then ∀ o ∈ d.objs, p o else ∃ o ∈ d.objs, p o

theorem Satisfiable.mono {p p' : Oid → Prop} (h : Satisfiable p d)
    (hp : ∀ o ∈ d.objs, p o → p' o) : Satisfiable p' d := by
  unfold Satisfiable at *
  split
  · rename_i hall
    rw [if_pos hall] at h
    exact fun o ho => hp o ho (h o ho)
  · rename_i hall
    rw [if_neg hall] at h
    obtain ⟨o, ho, hpo⟩ := h
    exact ⟨o, ho, hp o ho hpo⟩

/-- Without an object of `X`, no wait of a blocked thread could be satisfied. -/
def Quiet (X : List Oid) (s : Machine) : Prop :=
  ∀ t d, (s.threads t).state = .blocked → s.pending t = some d →
    ¬Satisfiable (fun o => o ∉ X ∧ s.signaled o t = true) d

theorem Quiet.mono {X' : List Oid} (h : Quiet X s)
    (hp : ∀ t d, (s'.threads t).state = .blocked → s'.pending t = some d →
      ((s.threads t).state = .blocked ∧ s.pending t = some d) ∧
        ∀ o ∈ d.objs, o ∉ X' → s'.signaled o t = true → o ∉ X ∧ s.signaled o t = true) :
    Quiet X' s' := by
  intro t d hb ht hsat
  obtain ⟨⟨hb', ht'⟩, hsig⟩ := hp t d hb ht
  exact h t d hb' ht' (hsat.mono fun o ho hx => hsig o ho hx.1 hx.2)

theorem Quiet.waits_for (h : Quiet (o :: X) s) (hb : (s.threads t).state = .blocked)
    (ht : s.pending t = some d) (hs : Satisfiable (fun x => x ∉ X ∧ s.signaled x t = true) d) :
    o ∈ d.objs ∧ s.signaled o t = true := by
  by_contra hno
  refine h t d hb ht (hs.mono fun x hx hsx => ⟨?_, hsx.2⟩)
  rintro hm
  obtain rfl | hm := mem_cons.1 hm
  · exact hno ⟨hx, hsx.2⟩
  · exact hsx.1 hm

theorem Quiet.satisfy (h : Quiet X s) (hr : r ≠ -1) : Quiet X (s.satisfy t d taken r) := by
  refine h.mono fun u e hb hu => ?_
  rw [satisfy_pending hr] at hu
  have hne : u ≠ t := by
    rintro rfl
    simp at hu
  rw [if_neg hne] at hu
  rw [satisfy_state hne] at hb
  exact ⟨⟨hb, hu⟩, fun x _ hX hx => ⟨hX, satisfy_signaled hx⟩⟩

theorem visit_idle (h : s.pending w.thread = none) : s.visit o w = (s, false) := by
  unfold Machine.visit
  cases hw : (s.threads w.thread).waitMulti with
  | none => rfl
  | some d =>
    have hd : d.result ≠ -1 := by
      intro hd
      have := pending_iff.2 ⟨hw, hd⟩
      rw [h] at this
      cases this
    simp only [if_neg hd]

/-- A waiter is satisfied, or could not have been. -/
theorem visit_cases (h : s.pending w.thread = some d) (hw : d.objs[w.index]? = some o) :
    (s.visit o w = (s, false) ∧
      (if d.all then ∃ x ∈ d.objs, s.signaled x w.thread = false
        else s.signaled o w.thread = false)) ∨
    ∃ taken r stop, Grant s w.thread d taken r ∧
      s.visit o w = (s.satisfy w.thread d taken r, stop) ∧
      (stop = true → ∀ u, (s.satisfy w.thread d taken r).signaled o u = false) := by
  obtain ⟨hwait, hres⟩ := pending_iff.1 h
  unfold Machine.visit
  simp only [hwait, if_pos hres]
  cases hall : d.all with
  | true =>
    simp only [if_true]
    by_cases hs : (d.objs.all fun x => s.signaled x w.thread) = true
    · right
      refine ⟨d.objs, 0, false, ⟨h, .inl ⟨hall, rfl, rfl⟩, ?_⟩, by rw [if_pos hs], nofun⟩
      exact fun x hx => all_eq_true.1 hs x hx
    · left
      refine ⟨by rw [if_neg hs], ?_⟩
      simpa using hs
  | false =>
    simp only [Bool.false_eq_true, if_false]
    by_cases hs : s.signaled o w.thread = true
    · right
      have hg : Grant s w.thread d [o] w.index :=
        ⟨h, .inr ⟨hall, w.index, o, hw, rfl, rfl⟩, by simpa using hs⟩
      refine ⟨[o], w.index, _, hg, by rw [if_pos hs], ?_⟩
      intro hstop u
      rw [Bool.and_eq_true, Bool.and_eq_true, Bool.not_eq_true'] at hstop
      have hobj : (s.satisfy w.thread d [o] w.index).objs o = (s.objs o).acquire w.thread := by
        rw [satisfy_objs]
        exact (congrFun (objAcquire_objs _ _ _) o).trans (update_self ..)
      have hcons := hstop.1.1
      rw [Machine.signaled, hobj] at hcons ⊢
      exact signaledFor_consumed hs hcons u
    · left
      exact ⟨by rw [if_neg hs], by simpa using hs⟩

/-! ### The walk -/

def Ahead (links : Slot → Option Block) (cursor : Option Block) : List Block → Prop
  | [] => cursor = none
  | b :: rest => cursor = some b ∧ Chain Slot.next links (.next b) rest

theorem Ahead.of_chain {links : Slot → Option Block} {p : Slot} {l : List Block}
    (h : Chain Slot.next links p l) : Ahead links (links p) l := by
  cases l with
  | nil => exact h
  | cons b l => exact h

/-- A wait that a visit leaves alone could not be satisfied. -/
theorem Quiet.refused (h : Quiet (o :: X) s) (hb : (s.threads t).state = .blocked) (ht : s.pending t = some d)
    (hun : if d.all then ∃ x ∈ d.objs, s.signaled x t = false else s.signaled o t = false) :
    ¬Satisfiable (fun x => x ∉ X ∧ s.signaled x t = true) d := by
  intro hs
  have hso := (h.waits_for hb ht hs).2
  unfold Satisfiable at hs
  cases hall : d.all with
  | true =>
    simp only [hall, if_true] at hun hs
    obtain ⟨x, hx, hxs⟩ := hun
    exact nomatch hxs.symm.trans (hs x hx).2
  | false =>
    simp only [hall, Bool.false_eq_true, if_false] at hun
    exact nomatch hun.symm.trans hso

/-- The thread of a satisfied wait leaves the list: its blocks are next, the others are behind. -/
theorem Queued.walk {front live : List Block} (hq : Queued s) (hg : Grant s w.thread d taken r)
    (hL : s.waiters o = front ++ w :: live) (hrest : Chain Slot.next s.links (.next w) live) :
    ∃ own behind front', live = own ++ behind ∧ (∀ b ∈ own, b.thread = w.thread) ∧
      (s.satisfy w.thread d taken r).waiters o = front' ++ behind ∧
      Ahead (s.satisfy w.thread d taken r).links (s.links (.next w)) (own ++ behind) := by
  obtain ⟨hq', hL', hnext⟩ := hq.satisfy hg
  obtain ⟨own, behind, rfl, hown, ⟨front', hfront⟩, -⟩ :=
    waitersOf_split hq.nodup (show waitersOf _ _ o = front ++ w :: live from hL)
  have hwait : (s.satisfy w.thread d taken r).waiters o = front' ++ behind := by
    rw [hL', hfront]
  have hchain : Chain Slot.next (s.satisfy w.thread d taken r).links (.next w) (own ++ behind) := by
    refine hrest.congr fun q hmem => ?_
    rw [slots, mem_cons, mem_map] at hmem
    obtain rfl | ⟨b, hb, rfl⟩ := hmem
    · exact hnext w rfl
    · obtain hb | hb := mem_append.1 hb
      · exact hnext b (hown b hb)
      · -- a block behind: both heaps have it in the same list
        obtain ⟨l₁, l₂, rfl⟩ := append_of_mem hb
        have hold := hq.queues.chain o
        have hnew := hq'.queues.chain o
        rw [hL, show front ++ w :: (own ++ (l₁ ++ b :: l₂)) =
          (front ++ w :: (own ++ l₁)) ++ b :: l₂ by simp] at hold
        rw [hwait, ← append_assoc] at hnew
        exact hnew.drop.2.head.trans hold.drop.2.head.symm
  exact ⟨own, behind, front', rfl, hown, hwait, hnext w rfl ▸ Ahead.of_chain hchain⟩

section Walk

variable {P : Machine → Prop}
  (hP : ∀ s t d taken r, Queued s → Grant s t d taken r → P s → P (s.satisfy t d taken r))

include hP

theorem releaseFrom_spec (o : Oid) (fuel : Nat) : ∀ (s : Machine) (cursor : Option Block)
    (front stale live : List Block), Queued s → P s → s.waiters o = front ++ live →
    (∀ b ∈ stale, s.pending b.thread = none) → Ahead s.links cursor (stale ++ live) →
    (stale ++ live).length ≤ fuel →
    Queued (Machine.releaseFrom o fuel cursor s) ∧ P (Machine.releaseFrom o fuel cursor s) ∧
      ∀ X, Quiet (o :: X) s →
        (∀ t d, (s.threads t).state = .blocked → s.pending t = some d →
          Satisfiable (fun x => x ∉ X ∧ s.signaled x t = true) d → ∃ b ∈ live, b.thread = t) →
        Quiet X (Machine.releaseFrom o fuel cursor s) := by
  induction fuel with
  | zero =>
    intro s cursor front stale live hq hp hL hst hah hlen
    obtain ⟨-, rfl⟩ := append_eq_nil_iff.1 (length_eq_zero_iff.1 (Nat.le_zero.1 hlen))
    exact ⟨hq, hp, fun X _ hK t d hb ht hs => by
      obtain ⟨b, hmem, -⟩ := hK t d hb ht hs
      cases hmem⟩
  | succ fuel ih =>
    intro s cursor front stale live hq hp hL hst hah hlen
    cases stale with
    | cons w stale =>
      -- the wait of this block is over
      obtain ⟨rfl, hrest⟩ := hah
      have hidle := visit_idle (o := o) (hst w mem_cons_self)
      simp only [Machine.releaseFrom, hidle, Bool.false_eq_true, if_false]
      refine ih s _ front stale live hq hp hL (fun b hb => hst b (mem_cons_of_mem _ hb))
        (Ahead.of_chain hrest) ?_
      simpa using hlen
    | nil =>
      cases live with
      | nil =>
        obtain rfl : cursor = none := hah
        exact ⟨hq, hp, fun X _ hK t d hb ht hs => by
          obtain ⟨b, hmem, -⟩ := hK t d hb ht hs
          cases hmem⟩
      | cons w live =>
        obtain ⟨rfl, hrest⟩ := hah
        obtain ⟨d, hd, hw⟩ := (mem_waiters hq).1 (show w ∈ s.waiters o by rw [hL]; simp)
        obtain ⟨hv, hun⟩ | ⟨taken, r, stop, hg, hv, hstop⟩ := visit_cases hd hw
        · -- not satisfied: the walk goes on
          simp only [Machine.releaseFrom, hv, Bool.false_eq_true, if_false]
          obtain ⟨h₁, h₂, h₃⟩ := ih s _ (front ++ [w]) [] live hq hp (by simpa using hL) (by simp)
            (Ahead.of_chain hrest) (by simpa using hlen)
          refine ⟨h₁, h₂, fun X hX hK => h₃ X hX fun t e hbl ht hs => ?_⟩
          obtain ⟨b, hb, rfl⟩ := hK t e hbl ht hs
          obtain rfl | hb := mem_cons.1 hb
          · obtain rfl := Option.some.inj (hd.symm.trans ht)
            exact absurd hs (hX.refused hbl ht hun)
          · exact ⟨b, hb, rfl⟩
        · -- satisfied: the other blocks of the thread are stale now
          obtain ⟨hq', -, -⟩ := hq.satisfy hg
          have hp' := hP s w.thread d taken r hq hg hp
          obtain ⟨own, behind, front', rfl, hown, hwait, hcur⟩ := hq.walk hg hL hrest
          cases stop with
          | true =>
            simp only [Machine.releaseFrom, hv, if_true]
            refine ⟨hq', hp', fun X hX _ u e hbl hu hs => ?_⟩
            have hX' : Quiet (o :: X) (s.satisfy w.thread d taken r) := hX.satisfy hg.result_ne
            have hsig := hX'.waits_for hbl hu hs
            rw [hstop rfl u] at hsig
            cases hsig.2
          | false =>
            simp only [Machine.releaseFrom, hv, Bool.false_eq_true, if_false]
            obtain ⟨h₁, h₂, h₃⟩ := ih _ _ front' own behind hq' hp' hwait
              (fun b hb => by rw [satisfy_pending hg.result_ne, if_pos (hown b hb)])
              hcur (by simpa using hlen)
            refine ⟨h₁, h₂, fun X hX hK => h₃ X (hX.satisfy hg.result_ne) fun u e hbl hu hs => ?_⟩
            have hne : u ≠ w.thread := by
              rintro rfl
              rw [satisfy_pending hg.result_ne, if_pos rfl] at hu
              cases hu
            rw [satisfy_pending hg.result_ne, if_neg hne] at hu
            rw [satisfy_state hne] at hbl
            obtain ⟨b, hb, rfl⟩ := hK u e hbl hu (hs.mono fun x _ hx =>
              ⟨hx.1, satisfy_signaled hx.2⟩)
            obtain rfl | hb := mem_cons.1 hb
            · exact absurd rfl hne
            · obtain hb | hb := mem_append.1 hb
              · exact absurd (hown b hb) hne
              · exact ⟨b, hb, rfl⟩

/-- **The walk over the waiters of `o`**: afterwards no pending wait could be satisfied
through `o`. -/
theorem releaseCheck_spec (hq : Queued s) (hp : P s) (o : Oid) :
    Queued (s.releaseCheck o) ∧ P (s.releaseCheck o) ∧
      ∀ X, Quiet (o :: X) s → Quiet X (s.releaseCheck o) := by
  obtain ⟨h₁, h₂, h₃⟩ := releaseFrom_spec hP o maxBlocks s _ [] [] (s.waiters o) hq hp rfl
    (by simp) (Ahead.of_chain (hq.queues.chain o)) (hq.queues.length_le o)
  refine ⟨h₁, h₂, fun X hX => h₃ X hX fun t d hb ht hs => ?_⟩
  obtain ⟨i, hi⟩ := mem_iff_getElem?.1 (hX.waits_for hb ht hs).1
  exact ⟨⟨t, i⟩, (mem_waiters hq).2 ⟨d, ht, hi⟩, rfl⟩

end Walk

end Win98Modern.Ob
