import Win98Modern.Kernel64.ObjectWaits

/-!
# Runs of the object manager

`Sound` collects what holds between sections with interrupts off: the waiter lists
(`Queued`), the list of owned mutants and the references (`Owners`), and that no blocked
thread could be satisfied without a process object that `process_reap_signal` has marked
and not released yet (`Quiet s.reaping s`).

**`no_missed_wakeups`**: the lists are right in every state of every run, and a blocked
thread's wait could be satisfied in some state if and only if that store, made with
interrupts on, was made for a process that some blocked thread was waiting for.
-/

namespace Win98Modern.Ob

open Function List Option

variable {s s' : Machine} {o : Oid} {t : Tid} {d : Waitdesc}

/-! ### Owners and references -/

/-- The references that the owner of a mutant and the thread of a thread object hold. -/
def Kobject.held (k : Kobject) : Nat :=
  (if k.owner = none then 0 else 1) + (if k.thr = none then 0 else 1)

/-- An owner is listed and has a mutant, and the references are counted. -/
structure Kobject.Accounted (k : Kobject) (loose : Nat) (owned : Prop) : Prop where
  owned_iff : owned ↔ k.owner ≠ none
  type : k.owner ≠ none → k.type = .mutant
  refs : k.refs = loose + k.held

structure Owners (s : Machine) : Prop where
  nodup : s.owned.Nodup
  object : ∀ o, (s.objs o).Accounted (s.loose o) (o ∈ s.owned)
  fresh : ∀ o, s.nextObj ≤ o → (s.objs o).refs = 0

theorem Owners.of_fresh (h : Owners s) (ho : s.nextObj ≤ o) :
    (s.objs o).owner = none ∧ (s.objs o).thr = none := by
  have hr := (h.object o).refs
  rw [h.fresh o ho, Kobject.held] at hr
  refine ⟨?_, ?_⟩
  · by_contra hne
    rw [if_neg hne] at hr
    omega
  · by_contra hne
    rw [if_neg hne] at hr
    omega

theorem Owners.congr (h : Owners s) (ho : s'.objs = s.objs) (hw : s'.owned = s.owned)
    (hl : s'.loose = s.loose) (hn : s'.nextObj = s.nextObj) : Owners s' where
  nodup := hw ▸ h.nodup
  object := by rw [ho, hl, hw]; exact h.object
  fresh := by rw [ho, hn]; exact h.fresh

theorem Owners.live (h : Owners s) (ho : 0 < (s.objs o).refs) : o < s.nextObj := by
  by_contra hle
  rw [h.fresh o (Nat.not_lt.1 hle)] at ho
  exact Nat.lt_irrefl 0 ho

variable {k : Kobject} {objs taken : List Oid} {r : Int} {a : Act} {P : Machine → Prop}

/-- Only the object `o` is written, and the threads are left alone. -/
structure Writes (o : Oid) (k : Kobject) (s s' : Machine) : Prop extends Still s s' where
  objs : s'.objs = update s.objs o k
  loose : ∀ x, x ≠ o → s'.loose x = s.loose x
  owned : ∀ x, x ≠ o → (x ∈ s'.owned ↔ x ∈ s.owned)
  nextObj : s.nextObj ≤ s'.nextObj
  reaping : s'.reaping = s.reaping

/-- The accounts of the other objects stay right. -/
theorem Owners.write (h : Owners s) (hw : Writes o k s s') (hnd : s'.owned.Nodup)
    (hk : k.Accounted (s'.loose o) (o ∈ s'.owned)) (hf : s'.nextObj ≤ o → k.refs = 0) : Owners s' := by
  refine ⟨hnd, fun x => ?_, fun x hle => ?_⟩
  · rw [hw.objs]
    by_cases e : x = o
    · rw [e, update_self]
      exact hk
    · rw [update_of_ne e, hw.loose x e, hw.owned x e]
      exact h.object x
  · rw [hw.objs]
    by_cases e : x = o
    · rw [e] at hle ⊢
      rw [update_self]
      exact hf hle
    · rw [update_of_ne e]
      exact h.fresh x (Nat.le_trans hw.nextObj hle)

/-- What the references and the owners of an object depend on is the same. -/
structure SameHold (k k' : Kobject) : Prop where
  type : k'.type = k.type
  refs : k'.refs = k.refs
  owner : k'.owner = k.owner
  thr : k'.thr = k.thr

theorem Owners.same (h : Owners s) (hw : Writes o k s s') (hk : SameHold (s.objs o) k)
    (howned : s'.owned = s.owned) (hl : s'.loose = s.loose) : Owners s' := by
  have ho := h.object o
  refine h.write hw (howned ▸ h.nodup) ⟨?_, ?_, ?_⟩ fun hle => hk.refs.trans (h.fresh o (Nat.le_trans hw.nextObj hle))
  · rw [howned, hk.owner]
    exact ho.owned_iff
  · rw [hk.owner, hk.type]
    exact ho.type
  · rw [hl, hk.refs, Kobject.held, hk.owner, hk.thr]
    exact ho.refs

theorem acquire_hold (k : Kobject) (t : Tid) :
    (k.type = .mutant ∧ k.owner = none ∧ (k.acquire t).type = .mutant ∧
      (k.acquire t).owner = some t ∧ (k.acquire t).refs = k.refs + 1 ∧
      (k.acquire t).thr = k.thr) ∨
    ((k.type = .mutant → k.owner ≠ none) ∧ SameHold k (k.acquire t)) := by
  unfold Kobject.acquire Kobject.take
  cases hk : k.type with
  | mutant =>
    by_cases ho : k.owner = none
    · left
      simp [ho]
    · right
      exact ⟨fun _ => ho, by constructor <;> simp [ho, hk]⟩
  | event => right; exact ⟨nofun, by constructor <;> cases k.manual <;> simp [hk]⟩
  | timer => right; exact ⟨nofun, by constructor <;> cases k.manual <;> simp [hk]⟩
  | _ => right; exact ⟨nofun, by constructor <;> simp [hk]⟩

theorem objAcquire_owned (s : Machine) (o : Oid) (t : Tid) :
    (s.objAcquire o t).1.owned =
      if (s.objs o).type = .mutant ∧ (s.objs o).owner = none then o :: s.owned else s.owned := by
  unfold Machine.objAcquire
  by_cases ht : (s.objs o).type = .mutant
  · by_cases ho : (s.objs o).owner = none
    · simp [ht, ho, Machine.mutantTake, Machine.note, Machine.setObj, Machine.kassert]
    · simp [ht, ho, Machine.mutantTake, Machine.note, Machine.setObj, Machine.kassert]
  · simp [ht, Machine.note, Machine.setObj]

/-- What acquisitions never touch. -/
structure Kept (s s' : Machine) : Prop where
  loose : s'.loose = s.loose
  nextObj : s'.nextObj = s.nextObj
  reaping : s'.reaping = s.reaping

theorem Kept.refl (s : Machine) : Kept s s := ⟨rfl, rfl, rfl⟩

theorem Kept.trans {s'' : Machine} (h : Kept s s') (h' : Kept s' s'') : Kept s s'' :=
  ⟨h'.loose.trans h.loose, h'.nextObj.trans h.nextObj, h'.reaping.trans h.reaping⟩

theorem objAcquire_kept (s : Machine) (o : Oid) (t : Tid) : Kept s (s.objAcquire o t).1 := by
  unfold Machine.objAcquire
  simp only
  split
  · exact ⟨rfl, rfl, rfl⟩
  · exact ⟨rfl, rfl, rfl⟩

theorem objAcquire_writes (s : Machine) (o : Oid) (t : Tid) :
    Writes o ((s.objs o).acquire t) s (s.objAcquire o t).1 := by
  have hk := objAcquire_kept s o t
  refine ⟨objAcquire_still s o t, objAcquire_objs s o t, fun _ _ => by rw [hk.loose], fun x hne => ?_,
    Nat.le_of_eq hk.nextObj.symm, hk.reaping⟩
  rw [objAcquire_owned]
  split
  · exact mem_cons.trans (or_iff_right hne)
  · rfl

theorem Owners.take (h : Owners s) (hw : Writes o k s s') (ho : o < s.nextObj)
    (hnone : (s.objs o).owner = none)
    (hk : k.type = .mutant ∧ k.owner = some t ∧ k.refs = (s.objs o).refs + 1 ∧
      k.thr = (s.objs o).thr) (hown : s'.owned = o :: s.owned) (hl : s'.loose = s.loose)
    (hn : s'.nextObj = s.nextObj) : Owners s' := by
  obtain ⟨htype, howner, hrefs, hthr⟩ := hk
  have hnot : o ∉ s.owned := fun hm => (h.object o).owned_iff.1 hm hnone
  refine h.write hw (hown ▸ nodup_cons.2 ⟨hnot, h.nodup⟩) ⟨?_, fun _ => htype, ?_⟩
    fun hle => absurd ho (Nat.not_lt.2 (hn ▸ hle))
  · rw [hown, howner]
    simp
  · rw [hl, Kobject.held, howner, hrefs, hthr, (h.object o).refs, Kobject.held, hnone]
    simp
    omega

theorem Owners.objAcquire (h : Owners s) (ho : o < s.nextObj) (t : Tid) :
    Owners (s.objAcquire o t).1 := by
  have hw := objAcquire_writes s o t
  have hkept := objAcquire_kept s o t
  obtain ⟨htype, hnone, hk⟩ | ⟨hty, hsame⟩ := acquire_hold (s.objs o) t
  · exact h.take hw ho hnone hk (by rw [objAcquire_owned, if_pos ⟨htype, hnone⟩]) hkept.loose hkept.nextObj
  · exact h.same hw hsame (by rw [objAcquire_owned, if_neg fun hc => hty hc.1 hc.2]) hkept.loose

theorem acquireAll_kept (t : Tid) (objs : List Oid) (s : Machine) (ab : Bool) :
    Kept s (Machine.acquireAll t objs s ab).1 := by
  induction objs generalizing s ab with
  | nil => exact Kept.refl s
  | cons o objs ih => exact (objAcquire_kept s o t).trans (ih ..)

theorem Owners.acquireAll (h : Owners s) (ho : ∀ o ∈ objs, o < s.nextObj) (ab : Bool) :
    Owners (Machine.acquireAll t objs s ab).1 := by
  induction objs generalizing s ab with
  | nil => exact h
  | cons o objs ih =>
    refine ih (h.objAcquire (ho o mem_cons_self) t) ?_ _
    intro x hx
    rw [(objAcquire_kept s o t).nextObj]
    exact ho x (mem_cons_of_mem _ hx)

theorem acquireFor_kept (s : Machine) (t : Tid) (taken : List Oid) :
    Kept s (s.acquireFor t taken).1 := by
  have h := acquireAll_kept t taken (s.note (.satisfied t taken (s.fits taken))) false
  exact ⟨h.loose, h.nextObj, h.reaping⟩

theorem Owners.acquireFor (h : Owners s) (ho : ∀ o ∈ taken, o < s.nextObj) :
    Owners (s.acquireFor t taken).1 :=
  Owners.acquireAll (s := s.note (.satisfied t taken (s.fits taken)))
    (h.congr rfl rfl rfl rfl) ho false

theorem acquireAll_thr (t : Tid) (objs : List Oid) (s : Machine) (ab : Bool) (x : Oid) :
    ((Machine.acquireAll t objs s ab).1.objs x).thr = (s.objs x).thr := by
  induction objs generalizing s ab with
  | nil => rfl
  | cons o objs ih =>
    refine (ih (s.objAcquire o t).1 _).trans ?_
    rw [objAcquire_objs]
    by_cases hx : x = o
    · subst hx
      rw [update_self]
      obtain h | h := acquire_hold (s.objs x) t
      · exact h.2.2.2.2.2
      · exact h.2.thr
    · rw [update_of_ne hx]

/-! ### Threads -/

/-- Waits name objects that exist, threads that are not there do not wait, and the object
of a thread knows it. -/
structure Side (R : List Oid) (s : Machine) : Prop where
  owners : Owners s
  known : ∀ t d, s.pending t = some d → ∀ o ∈ d.objs, o < s.nextObj
  idle : ∀ t, (s.threads t).waitMulti ≠ none →
    (s.threads t).state = .ready ∨ (s.threads t).state = .blocked
  objects : ∀ t o, (s.threads t).object = some o → (s.objs o).thr = some t
  reaping : s.reaping = R

variable {R X : List Oid}

/-- No wait begins or ends. -/
structure Rests (s s' : Machine) : Prop where
  links : s'.links = s.links
  order : arrivals s'.log = arrivals s.log
  wait : ∀ t, (s'.threads t).waitMulti = (s.threads t).waitMulti
  state : ∀ t, (s'.threads t).state = (s.threads t).state ∨ (s'.threads t).state = .ready ∨
    (s'.threads t).state ≠ .blocked ∧ (s.threads t).waitMulti = none

theorem Rests.of_threads (hl : s'.links = s.links) (ht : s'.threads = s.threads)
    (ha : arrivals s'.log = arrivals s.log) : Rests s s' :=
  ⟨hl, ha, fun _ => by rw [ht], fun _ => .inl (by rw [ht])⟩

theorem Rests.setThread {th : Thread} (hw : th.waitMulti = (s.threads t).waitMulti)
    (hst : th.state = .ready ∨ th.state ≠ .blocked ∧ (s.threads t).waitMulti = none) :
    Rests s (s.setThread t th) := by
  refine ⟨rfl, rfl, fun u => ?_, fun u => ?_⟩
  · by_cases hu : u = t
    · rw [hu, setThread_threads_self]
      exact hw
    · rw [setThread_threads_of_ne hu]
  · by_cases hu : u = t
    · rw [hu, setThread_threads_self]
      exact .inr hst
    · rw [setThread_threads_of_ne hu]
      exact .inl rfl

theorem Rests.pending (h : Rests s s') (t : Tid) : s'.pending t = s.pending t := by
  rw [Machine.pending, h.wait]
  rfl

theorem Rests.blocked (h : Rests s s') (hb : (s'.threads t).state = .blocked) :
    (s.threads t).state = .blocked := by
  obtain e | e | ⟨e, -⟩ := h.state t
  · rwa [← e]
  · rw [hb] at e
    cases e
  · exact absurd hb e

theorem Side.rests (h : Side R s) (hs : Rests s s') (ho : Owners s')
    (hn : s.nextObj ≤ s'.nextObj) (hr : s'.reaping = s.reaping)
    (hthr : ∀ t o, (s'.threads t).object = some o → (s'.objs o).thr = some t) : Side R s' where
  owners := ho
  known := by
    intro t d ht o hmem
    rw [hs.pending] at ht
    exact Nat.lt_of_lt_of_le (h.known t d ht o hmem) hn
  idle := by
    intro t ht
    rw [hs.wait] at ht
    obtain e | e | ⟨-, e⟩ := hs.state t
    · rw [e]
      exact h.idle t ht
    · exact .inl e
    · exact absurd e ht
  objects := hthr
  reaping := hr.trans h.reaping

theorem threadWake_state (s : Machine) (t u : Tid) :
    ((s.threadWake t).threads u).state = (s.threads u).state ∨
      ((s.threadWake t).threads u).state = .ready := by
  unfold Machine.threadWake
  split
  · by_cases hu : u = t
    · right
      simp [Machine.setThread, hu]
    · left
      simp [Machine.setThread, hu]
  · exact .inl rfl

theorem threadWake_object (s : Machine) (t u : Tid) :
    ((s.threadWake t).threads u).object = (s.threads u).object := by
  unfold Machine.threadWake
  split
  · by_cases hu : u = t
    · simp [Machine.setThread, hu]
    · simp [Machine.setThread, hu]
  · rfl

theorem satisfy_object (s : Machine) (t : Tid) (d : Waitdesc) (taken : List Oid) (r : Int)
    (u : Tid) : ((s.satisfy t d taken r).threads u).object = (s.threads u).object := by
  unfold Machine.satisfy
  simp only [threadWake_object, Machine.unlinkWaits, Machine.setWait, Machine.setThread,
    acquireFor_threads]
  by_cases hu : u = t
  · simp [hu]
  · simp [hu]

theorem Grant.mem (h : Grant s t d taken r) : ∀ o ∈ taken, o ∈ d.objs := by
  obtain ⟨-, rfl, -⟩ | ⟨-, i, o, hi, rfl, -⟩ := h.outcome
  · exact fun _ ho => ho
  · intro x hx
    rw [mem_singleton.1 hx]
    exact mem_of_getElem? hi

theorem Side.satisfy (h : Side R s) (hg : Grant s t d taken r) :
    Side R (s.satisfy t d taken r) := by
  have hkept := acquireFor_kept s t taken
  have hknown := h.known t d hg.pending
  constructor
  · rw [satisfy_eq]
    exact (h.owners.acquireFor fun o ho => hknown o (hg.mem o ho)).congr rfl rfl rfl rfl
  · intro u e hu o ho
    rw [satisfy_pending hg.result_ne] at hu
    by_cases hne : u = t
    · simp [hne] at hu
    · rw [satisfy_eq]
      exact Nat.lt_of_lt_of_eq (h.known u e (by simpa [hne] using hu) o ho) hkept.nextObj.symm
  · intro u hu
    by_cases hne : u = t
    · subst hne
      have hidle := h.idle u (by rw [(pending_iff.1 hg.pending).1]; simp)
      obtain e | e := threadWake_state (((s.acquireFor u taken).1.setWait u
        (some { d with result := r, abandoned := (s.acquireFor u taken).2 })).unlinkWaits u
        d.objs) u u
      · have hst : ((s.satisfy u d taken r).threads u).state = (s.threads u).state := by
          refine Eq.trans e ?_
          simp [Machine.unlinkWaits, Machine.setWait, Machine.setThread, acquireFor_threads]
        rwa [hst]
      · exact .inl e
    · rw [satisfy_waitMulti, if_neg hne] at hu
      rw [satisfy_state hne]
      exact h.idle u hu
  · intro u o hu
    rw [satisfy_object] at hu
    rw [satisfy_objs]
    exact (acquireAll_thr t taken _ false o).trans (h.objects u o hu)
  · rw [satisfy_eq]
    exact hkept.reaping.trans h.reaping

/-! ### Between sections -/

/-- `R` are the processes marked and not released, and `Quiet X`. -/
structure Sound (R X : List Oid) (s : Machine) : Prop where
  queued : Queued s
  side : Side R s
  quiet : Quiet X s

theorem Sound.release (h : Sound R (o :: X) s) : Sound R X (s.releaseCheck o) := by
  obtain ⟨h₁, h₂, h₃⟩ := releaseCheck_spec (fun _ _ _ _ _ _ hg hp => Side.satisfy hp hg) h.queued h.side o
  exact ⟨h₁, h₂, h₃ X h.quiet⟩

theorem Sound.calm (h : Sound R X s) (hst : Rests s s') (ho : Owners s')
    (hn : s.nextObj ≤ s'.nextObj) (hr : s'.reaping = s.reaping)
    (hthr : ∀ t o, (s'.threads t).object = some o → (s'.objs o).thr = some t)
    (hx : ∀ x < s.nextObj, ∀ t, s'.signaled x t = true → s.signaled x t = true) : Sound R X s' := by
  refine ⟨h.queued.congr hst.links hst.pending hst.order,
    h.side.rests hst ho hn hr hthr, ?_⟩
  refine h.quiet.mono fun t d hb ht => ?_
  rw [hst.pending] at ht
  exact ⟨⟨hst.blocked hb, ht⟩, fun x hm hX hs => ⟨hX, hx x (h.side.known t d ht x hm) t hs⟩⟩

variable {Y : List Oid}

/-- A write is calm but for the objects in `Y`. -/
theorem Sound.write (h : Sound R X s) (hw : Writes o k s s') (ho : Owners s')
    (hthr : ∀ t, (s.threads t).object = some o → k.thr = some t) (hY : X ⊆ Y)
    (hsig : o < s.nextObj → o ∉ Y → ∀ t, k.signaledFor t = true → (s.objs o).signaledFor t = true) :
    Sound R Y s' := by
  have hst : Rests s s' := .of_threads hw.links hw.threads hw.arrivals
  refine ⟨h.queued.still hw.toStill, h.side.rests hst ho hw.nextObj hw.reaping fun t x ht => ?_, ?_⟩
  · rw [hw.threads] at ht
    rw [hw.objs]
    by_cases hx : x = o
    · subst hx
      rw [update_self]
      exact hthr t ht
    · rw [update_of_ne hx]
      exact h.side.objects t x ht
  · refine h.quiet.mono fun t d hb ht => ?_
    rw [hst.pending] at ht
    refine ⟨⟨hst.blocked hb, ht⟩, fun x hm hX hs => ⟨fun hX' => hX (hY hX'), ?_⟩⟩
    rw [Machine.signaled, hw.objs] at hs
    by_cases hx : x = o
    · subst hx
      rw [update_self] at hs
      exact hsig (h.side.known t d ht x hm) hX t hs
    · rwa [update_of_ne hx] at hs

theorem Sound.same (h : Sound R X s) (hw : Writes o k s s') (hk : SameHold (s.objs o) k)
    (howned : s'.owned = s.owned) (hl : s'.loose = s.loose) (hY : X ⊆ Y)
    (hsig : o < s.nextObj → o ∉ Y → ∀ t, k.signaledFor t = true → (s.objs o).signaledFor t = true) :
    Sound R Y s' :=
  h.write hw (h.side.owners.same hw hk howned hl) (fun t ht => hk.thr.trans (h.side.objects t o ht)) hY hsig

theorem Sound.setObj (h : Sound R X s) (hk : SameHold (s.objs o) k)
    (hsig : ∀ t, k.signaledFor t = true → (s.objs o).signaledFor t = true) :
    Sound R X (s.setObj o k) :=
  h.same ⟨⟨rfl, rfl, rfl⟩, rfl, fun _ _ => rfl, fun _ _ => Iff.rfl, le_rfl, rfl⟩ hk rfl rfl (Subset.refl _)
    fun _ _ => hsig

/-- The object is signaled, and its waiters are for a release. -/
theorem Sound.raise (h : Sound R X s) (hw : Writes o k s s') (hk : SameHold (s.objs o) k)
    (howned : s'.owned = s.owned) (hl : s'.loose = s.loose) : Sound R (o :: X) s' :=
  h.same hw hk howned hl (subset_cons_self ..) fun _ hn => absurd mem_cons_self hn

theorem Sound.obSignal (h : Sound R X s) (o : Oid) : Sound R X (s.obSignal o) := by
  refine Sound.release (h.raise (k := { s.objs o with signaled := true }) ?_ ⟨rfl, rfl, rfl, rfl⟩ rfl rfl)
  exact ⟨⟨rfl, rfl, rfl⟩, rfl, fun _ _ => rfl, fun _ _ => Iff.rfl, le_rfl, rfl⟩

theorem Sound.obReset (h : Sound R X s) (o : Oid) : Sound R X (s.obReset o) := by
  refine h.setObj ⟨rfl, rfl, rfl, rfl⟩ fun t hs => ?_
  unfold Kobject.signaledFor at hs ⊢
  cases hk : (s.objs o).type with
  | semaphore => simpa [hk] using hs
  | mutant => simpa [hk] using hs
  | _ => simp [hk] at hs

theorem Sound.releaseCheck (h : Sound R X s) (o : Oid) : Sound R X (s.releaseCheck o) := by
  refine Sound.release (h.raise (k := s.objs o) ?_ ⟨rfl, rfl, rfl, rfl⟩ rfl rfl)
  exact ⟨⟨rfl, rfl, rfl⟩, (update_eq_self ..).symm, fun _ _ => rfl, fun _ _ => Iff.rfl, le_rfl, rfl⟩

theorem Sound.semRounds (h : Sound R X s) (o : Oid) (n : Nat) : Sound R X (s.semRounds o n) := by
  induction n generalizing s with
  | zero => exact h
  | succ n ih =>
    unfold Machine.semRounds
    split
    · exact ih (h.releaseCheck o)
    · exact h

theorem Sound.releaseSemaphore (h : Sound R X s) (ho : (s.objs o).type = .semaphore) (n : Int) :
    Sound R X (s.releaseSemaphore o n) := by
  have hk : SameHold (s.objs o)
      { s.objs o with count := (s.objs o).count + n, signaled := true } := ⟨rfl, rfl, rfl, rfl⟩
  have hw : Writes o { s.objs o with count := (s.objs o).count + n, signaled := true } s ((s.setObj o
      { s.objs o with count := (s.objs o).count + n, signaled := true }).note (.released o n)) :=
    ⟨⟨rfl, rfl, rfl⟩, rfl, fun _ _ => rfl, fun _ _ => Iff.rfl, le_rfl, rfl⟩
  unfold Machine.releaseSemaphore
  simp only
  split
  · exact h
  · split
    · exact h
    · obtain ⟨m, hm⟩ : ∃ m, n.toNat = m + 1 := ⟨n.toNat - 1, by omega⟩
      rw [hm]
      unfold Machine.semRounds
      split
      · -- the first round looks for waiters, the others find none
        exact (h.raise hw hk rfl rfl).release.semRounds o m
      · rename_i hpos
        have hle : ¬0 < (s.objs o).count + n := by simpa [Machine.note] using hpos
        refine h.same hw hk rfl rfl (Subset.refl _) fun _ _ t hs => ?_
        simp [Kobject.signaledFor, ho, hle] at hs

/-! ### References -/

theorem obDeref_eq (s : Machine) (o : Oid) :
    s.obDeref o = { s with
      objs := update s.objs o { s.objs o with refs := (s.objs o).refs - 1 }
      timers := (s.obDeref o).timers
      panicked := (s.obDeref o).panicked } := by
  unfold Machine.obDeref
  simp only
  split
  · split
    · split
      · rfl
      · rfl
    · rfl
  · rfl

theorem obDeref_rests (s : Machine) (o : Oid) : Rests s (s.obDeref o) := by
  rw [obDeref_eq]
  exact .of_threads rfl rfl rfl

/-- A reference that is counted as loose goes. -/
theorem Sound.obDeref (h : Sound R X s) (hw : Writes o k s s') (hnd : s'.owned.Nodup)
    (hk : k.Accounted (s'.loose o + 1) (o ∈ s'.owned)) (ho : o < s.nextObj)
    (hthr : ∀ t, (s.threads t).object = some o → k.thr = some t)
    (hsig : ∀ t, k.signaledFor t = true → (s.objs o).signaledFor t = true) : Sound R X (s'.obDeref o) := by
  have hobj : s'.objs o = k := by rw [hw.objs, update_self]
  have hw' : Writes o { k with refs := k.refs - 1 } s (s'.obDeref o) := by
    rw [obDeref_eq, hobj, hw.objs, update_idem]
    exact ⟨⟨hw.links, hw.threads, hw.arrivals⟩, rfl, hw.loose, hw.owned, hw.nextObj, hw.reaping⟩
  refine h.write hw' (h.side.owners.write hw' ?_ ?_ fun hle => absurd ho ?_) hthr (Subset.refl _) fun _ _ => hsig
  · rw [obDeref_eq]
    exact hnd
  · rw [obDeref_eq]
    have hr := hk.refs
    exact ⟨hk.owned_iff, hk.type, show k.refs - 1 = s'.loose o + k.held by omega⟩
  · exact Nat.not_lt.2 (Nat.le_trans hw'.nextObj hle)

theorem Sound.deref (h : Sound R X s) (hl : 0 < s.loose o) :
    Sound R X ((s.setLoose o (s.loose o - 1)).obDeref o) := by
  have hr := (h.side.owners.object o).refs
  refine h.obDeref (k := s.objs o) ?_ h.side.owners.nodup { h.side.owners.object o with refs := ?_ }
    (h.side.owners.live (by omega)) (fun t ht => h.side.objects t o ht) fun _ hs => hs
  · exact ⟨⟨rfl, rfl, rfl⟩, (update_eq_self ..).symm, fun _ hx => update_of_ne hx .., fun _ _ => Iff.rfl,
      le_rfl, rfl⟩
  · show (s.objs o).refs = update s.loose o (s.loose o - 1) o + 1 + (s.objs o).held
    rw [update_self]
    omega

/-! ### Mutants -/

theorem Sound.disown (h : Sound R X s) (ho : (s.objs o).owner = some t)
    (hw : Writes o k s s') (hk : k.refs = (s.objs o).refs ∧ k.thr = (s.objs o).thr ∧ k.owner = none)
    (howned : s'.owned = s.owned.erase o) (hl : s'.loose o = s.loose o + 1) : Sound R X (s'.releaseCheck o) := by
  obtain ⟨hrefs, hthr, hnone⟩ := hk
  have hown := h.side.owners
  have hr := (hown.object o).refs
  rw [Kobject.held, ho] at hr
  refine (h.write hw (hown.write hw (howned ▸ hown.nodup.erase o) ⟨?_, fun hc => absurd hnone hc, ?_⟩ fun hle => ?_)
    (fun t ht => hthr.trans (h.side.objects t o ht)) (subset_cons_self ..) fun _ hn => absurd mem_cons_self hn).release
  · rw [hnone, howned, hown.nodup.mem_erase_iff]
    simp
  · rw [hl, Kobject.held, hrefs, hthr, hnone, hr]
    simp
    omega
  · rw [hown.fresh o (Nat.le_trans hw.nextObj hle)] at hr
    simp at hr
    omega

theorem Sound.mutantRelease (h : Sound R X s) (o : Oid) (t : Tid) : Sound R X (s.mutantRelease o t) := by
  unfold Machine.mutantRelease
  simp only
  split
  · rename_i ho
    split
    · exact h.disown ho ⟨⟨rfl, rfl, rfl⟩, rfl, fun _ hx => update_of_ne hx .., fun _ hx => mem_erase_of_ne hx, le_rfl,
        rfl⟩ ⟨rfl, rfl, rfl⟩ rfl (update_self ..)
    · refine h.same (k := { s.objs o with recursion := (s.objs o).recursion - 1 }) ?_ ⟨rfl, rfl, rfl, rfl⟩ rfl rfl
        (Subset.refl _) fun _ _ _ hs => hs
      exact ⟨⟨rfl, rfl, rfl⟩, rfl, fun _ _ => rfl, fun _ _ => Iff.rfl, le_rfl, rfl⟩
  · exact h

theorem releaseCheck_loose (hq : Queued s) (o : Oid) : (s.releaseCheck o).loose = s.loose := by
  refine (releaseCheck_spec (P := fun m => m.loose = s.loose) ?_ hq rfl o).2.1
  intro m u e taken r _ _ hp
  rw [satisfy_eq]
  exact (acquireFor_kept m u taken).loose.trans hp

theorem Sound.forfeitOwned (h : Sound R X s) (t : Tid) (fuel : Nat) :
    Sound R X (s.forfeitOwned t fuel) := by
  induction fuel generalizing s with
  | zero => exact h
  | succ fuel ih =>
    unfold Machine.forfeitOwned
    split
    · exact h
    · rename_i o hfind
      have ho : (s.objs o).owner = some t := by simpa using List.find?_some hfind
      refine ih (Sound.deref ?_ ?_)
      · exact h.disown ho ⟨⟨rfl, rfl, rfl⟩, rfl, fun _ hx => update_of_ne hx .., fun _ hx => mem_erase_of_ne hx, le_rfl,
          rfl⟩ ⟨rfl, rfl, rfl⟩ rfl (update_self ..)
      · rw [releaseCheck_loose]
        · simp [Machine.setLoose]
        · exact h.queued.still ⟨rfl, rfl, rfl⟩

theorem Sound.mutantInitialOwner (h : Sound R X s) (htype : (s.objs o).type = .mutant)
    (hnone : (s.objs o).owner = none) (ho : o < s.nextObj) (t : Tid) :
    Sound R X (s.mutantInitialOwner o t) := by
  have hown : (s.mutantInitialOwner o t).owned = o :: s.owned := by
    simp [Machine.mutantInitialOwner, Machine.mutantTake, Machine.setObj, Machine.note, Machine.kassert, hnone]
  have hw : Writes o ((s.objs o).take t) s (s.mutantInitialOwner o t) :=
    ⟨⟨rfl, rfl, rfl⟩, rfl, fun _ _ => rfl, fun _ hx => hown ▸ mem_cons.trans (or_iff_right hx), le_rfl, rfl⟩
  refine h.write hw (h.side.owners.take (t := t) hw ho hnone ?_ hown rfl rfl) (fun u hu => h.side.objects u o hu)
    (Subset.refl _) fun _ _ u hs => ?_
  · simp [Kobject.take, hnone, htype]
  · simp [Kobject.signaledFor, htype, hnone]

/-! ### New objects and threads -/

theorem obCreate_objs_self (s : Machine) (k : Kobject) (n : Nat) :
    (s.obCreate k n).objs s.nextObj = { k with refs := 1 } := update_self ..

theorem Sound.obCreate (h : Sound R X s) (k : Kobject) (n : Nat) (hk : k.owner = none)
    (hn : n + k.held = 1) : Sound R X (s.obCreate k n) := by
  have hown := h.side.owners
  obtain ⟨howner, hthr⟩ := hown.of_fresh (Nat.le_refl s.nextObj)
  have hw : Writes s.nextObj { k with refs := 1 } s (s.obCreate k n) :=
    ⟨⟨rfl, rfl, rfl⟩, rfl, fun _ hx => update_of_ne hx .., fun _ _ => Iff.rfl, Nat.le_succ _, rfl⟩
  refine h.write hw (hown.write hw hown.nodup ⟨?_, fun hc => absurd hk hc, ?_⟩ fun hle => ?_) (fun t ht => ?_)
    (Subset.refl _) fun hlt => absurd hlt (Nat.lt_irrefl _)
  · exact (hown.object _).owned_iff.trans (by rw [howner, hk])
  · show 1 = update s.loose s.nextObj n s.nextObj + k.held
    rw [update_self, hn]
  · exact absurd hle (Nat.not_le.2 (Nat.lt_succ_self _))
  · rw [h.side.objects t _ ht] at hthr
    cases hthr

theorem Sound.congr (h : Sound R X s) (hst : Rests s s') (ho : s'.objs = s.objs)
    (hw : s'.owned = s.owned) (hl : s'.loose = s.loose) (hn : s'.nextObj = s.nextObj)
    (hr : s'.reaping = s.reaping) (hobj : ∀ t, (s'.threads t).object = (s.threads t).object) :
    Sound R X s' := by
  refine h.calm hst (h.side.owners.congr ho hw hl hn) (Nat.le_of_eq hn.symm) hr ?_ ?_
  · intro t x ht
    rw [hobj] at ht
    rw [ho]
    exact h.side.objects t x ht
  · intro x _ t hs
    rwa [Machine.signaled, ho] at hs

theorem Sound.threadWake (h : Sound R X s) (t : Tid) : Sound R X (s.threadWake t) := by
  have he := threadWake_eq s t
  refine h.congr ⟨?_, ?_, threadWake_waitMulti s t, fun u => ?_⟩ ?_ ?_ ?_ ?_ ?_
    (threadWake_object s t)
  all_goals try (rw [he])
  obtain e | e := threadWake_state s t u
  · exact .inl e
  · exact .inr (.inl e)

theorem Sound.checkTimer (h : Sound R X s) (o : Oid) : Sound R X (s.checkTimer o) := by
  unfold Machine.checkTimer
  simp only
  split
  · refine Sound.obSignal (h.setObj ?_ ?_) o
    · split
      · exact ⟨rfl, rfl, rfl, rfl⟩
      · exact ⟨rfl, rfl, rfl, rfl⟩
    · intro t hs
      split at hs
      · exact hs
      · exact hs
  · exact h

theorem Sound.checkTimers (h : Sound R X s) (l : List Oid) : Sound R X (l.foldl Machine.checkTimer s) := by
  induction l generalizing s with
  | nil => exact h
  | cons o l ih => exact ih (h.checkTimer o)

theorem Sound.schedTick (h : Sound R X s) : Sound R X s.schedTick := by
  refine Sound.checkTimers ?_ _
  refine h.congr ⟨rfl, rfl, fun t => ?_, fun t => ?_⟩ rfl rfl rfl rfl rfl fun t => ?_
  · simp only
    split
    · rfl
    · rfl
  · simp only
    split
    · exact .inr (.inl rfl)
    · exact .inl rfl
  · simp only
    split
    · rfl
    · rfl

theorem Sound.threadObjectSignal (h : Sound R X s) (t : Tid) : Sound R X (s.threadObjectSignal t) := by
  unfold Machine.threadObjectSignal
  simp only
  split
  · exact h.forfeitOwned t _
  · exact (h.forfeitOwned t _).obSignal _

/-! ### Waits -/

theorem erase_arrivals (h : Queued s) (hp : s.pending t = none) :
    (arrivals s.log).erase t = arrivals s.log := by
  refine erase_of_not_mem fun hm => ?_
  obtain ⟨d, hd⟩ := (h.mem t).1 hm
  rw [hp] at hd
  cases hd

theorem Sound.returned (h : Sound R X s) (hp : s.pending t = none) (n : Int) :
    Sound R X (s.note (.returned t n)) :=
  h.congr (.of_threads rfl rfl (erase_arrivals h.queued hp)) rfl rfl rfl rfl rfl fun _ => rfl

theorem Sound.acquireFor (h : Sound R X s) (hp : s.pending t = none)
    (ho : ∀ o ∈ taken, o < s.nextObj) : Sound R X (s.acquireFor t taken).1 := by
  have hkept := acquireFor_kept s t taken
  refine h.calm (.of_threads (acquireFor_links s t taken) (acquireFor_threads s t taken) ?_)
    (h.side.owners.acquireFor ho) (Nat.le_of_eq hkept.nextObj.symm) hkept.reaping ?_
    fun x _ u hs => acquireFor_signaled hs
  · rw [acquireFor_arrivals, erase_arrivals h.queued hp]
  · intro u x hu
    rw [acquireFor_threads] at hu
    exact (acquireAll_thr t taken _ false x).trans (h.side.objects u x hu)

theorem acquireFor_pending (s : Machine) (t : Tid) (taken : List Oid) (u : Tid) :
    (s.acquireFor t taken).1.pending u = s.pending u := by
  rw [Machine.pending, acquireFor_threads]
  rfl

theorem pending_of_waitMulti (h : (s.threads t).waitMulti = none) : s.pending t = none := by
  rw [Machine.pending, h]
  rfl

/-- Only the thread `t` changes. -/
structure Moves (t : Tid) (s s' : Machine) : Prop where
  threads : ∀ u, u ≠ t → s'.threads u = s.threads u
  object : (s'.threads t).object = (s.threads t).object
  objs : s'.objs = s.objs
  owned : s'.owned = s.owned
  loose : s'.loose = s.loose
  nextObj : s'.nextObj = s.nextObj
  reaping : s'.reaping = s.reaping

theorem Moves.pending (h : Moves t s s') (u : Tid) :
    s'.pending u = if u = t then s'.pending t else s.pending u := by
  split
  · rename_i hu
    rw [hu]
  · rename_i hu
    rw [Machine.pending, h.threads u hu]
    rfl

theorem Side.move (h : Side R s) (hm : Moves t s s')
    (hknown : ∀ d, s'.pending t = some d → ∀ o ∈ d.objs, o < s.nextObj)
    (hst : (s'.threads t).state = .ready ∨ (s'.threads t).state = .blocked) : Side R s' := by
  refine ⟨h.owners.congr hm.objs hm.owned hm.loose hm.nextObj, fun u e hu => ?_, fun u hu => ?_, fun u x hu => ?_,
    hm.reaping.trans h.reaping⟩
  · rw [hm.nextObj]
    by_cases hne : u = t
    · exact hknown e (hne ▸ hu)
    · rw [hm.pending, if_neg hne] at hu
      exact h.known u e hu
  · by_cases hne : u = t
    · rw [hne]
      exact hst
    · rw [hm.threads u hne] at hu ⊢
      exact h.idle u hu
  · rw [hm.objs]
    refine h.objects u x ?_
    by_cases hne : u = t
    · rw [hne, hm.object] at hu
      rwa [hne]
    · rwa [hm.threads u hne] at hu

theorem Sound.obBlock (h : Sound R X s) (hw : (s.threads t).waitMulti = none) (ht : t < MAX_THREADS)
    (hlen : objs.length ≤ MAX_WAIT) (hknown : ∀ o ∈ objs, o < s.nextObj) {waitAll : Bool}
    (hun : ¬Satisfiable (fun o => s.signaled o t = true)
      { objs := objs, all := waitAll, result := -1, abandoned := false }) (timeout : Int)
    (memory : Bool) : Sound R X (s.obBlock t objs waitAll timeout memory) := by
  have hp := pending_of_waitMulti hw
  unfold Machine.obBlock
  split
  · exact h.returned hp _
  split
  · simp only
    set d : Waitdesc := { objs := objs, all := waitAll, result := -1, abandoned := false } with hd
    generalize hm : Machine.note _ (Event.blocked t) = m
    have hmv : Moves t s m := by
      subst hm
      exact ⟨fun u hu => update_of_ne hu .., by simp [Machine.note, Machine.setThread, Machine.linkWaits],
        rfl, rfl, rfl, rfl, rfl⟩
    have hself : (m.threads t).waitMulti = some d ∧ (m.threads t).state = .blocked := by
      subst hm
      simp [Machine.note, Machine.setThread, Machine.linkWaits]
    have hpend : ∀ u, m.pending u = if u = t then some d else s.pending u := fun u => by
      rw [hmv.pending, pending_iff.2 ⟨hself.1, rfl⟩]
    have harr : arrivals m.log = arrivals s.log ++ [t] := by
      subst hm
      rfl
    have hnotin : t ∉ arrivals s.log := by
      intro hmem
      obtain ⟨e, he⟩ := (h.queued.mem t).1 hmem
      rw [hp] at he
      cases he
    have hobjs : m.waitObjs t = objs := waitObjs_of_pending (by rw [hpend, if_pos rfl])
    have hbefore : waitersOf m.waitObjs (arrivals s.log) = s.waiters := by
      refine waitersOf_congr fun u hu => ?_
      have hne : u ≠ t := fun e => hnotin (e ▸ hu)
      rw [Machine.waitObjs, hpend, if_neg hne]
      rfl
    refine ⟨⟨?_, fun u => ?_, ?_⟩, h.side.move hmv (fun e he => ?_) (.inr hself.2), ?_⟩
    · rw [harr, nodup_append]
      exact ⟨h.queued.nodup, by simp, fun a ha b hb e => hnotin (by
        rw [← mem_singleton.1 hb, ← e]
        exact ha)⟩
    · rw [harr, hpend, mem_append, mem_singleton, h.queued.mem]
      by_cases hu : u = t
      · simp [hu]
      · simp [hu]
    · have hq := h.queued.queues
      rw [← hbefore] at hq
      have hlink := hq.linkWaits hnotin ht (by rw [hobjs]; exact hlen)
      rw [hobjs] at hlink
      have hlinks : m.links = objs.zipIdx.foldl (linkBlock t) s.links := by
        subst hm
        rfl
      show Queues m.links (waitersOf m.waitObjs (arrivals m.log))
      rwa [harr, hlinks]
    · rw [hpend, if_pos rfl] at he
      obtain rfl := some.inj he
      exact hknown
    · intro u e hb hu hs
      have hsig : ∀ x, m.signaled x u = s.signaled x u := fun x => by rw [Machine.signaled, hmv.objs]; rfl
      by_cases hne : u = t
      · rw [hpend, if_pos hne] at hu
        obtain rfl := some.inj hu
        subst hne
        exact hun (hs.mono fun x _ hx => (hsig x).symm.trans hx.2)
      · rw [hpend, if_neg hne] at hu
        rw [hmv.threads u hne] at hb
        exact h.quiet u e hb hu (hs.mono fun x _ hx => ⟨hx.1, (hsig x).symm.trans hx.2⟩)
  · exact h.returned hp _

theorem Sound.obWait (h : Sound R X s) (hw : (s.threads t).waitMulti = none) (ht : t < MAX_THREADS)
    (hlive : ∀ o ∈ objs, 0 < (s.objs o).refs) (waitAll : Bool) (timeout : Int) (memory : Bool) :
    Sound R X (s.obWait t objs waitAll timeout memory) := by
  have hp := pending_of_waitMulti hw
  have hknown : ∀ o ∈ objs, o < s.nextObj := fun o ho => h.side.owners.live (hlive o ho)
  have hc : Sound R X (s.note (.called t objs waitAll)) :=
    h.congr (.of_threads rfl rfl rfl) rfl rfl rfl rfl rfl fun _ => rfl
  unfold Machine.obWait
  simp only
  split
  · exact hc.returned hp _
  · rename_i hlen
    rw [not_or, Nat.not_lt] at hlen
    cases waitAll with
    | true =>
      simp only [if_true]
      split
      · have ha := hc.acquireFor hp hknown
        exact ha.returned ((acquireFor_pending ..).trans hp) _
      · rename_i hun
        refine hc.obBlock hw ht hlen.2 hknown ?_ timeout memory
        intro hs
        exact hun (all_eq_true.2 hs)
    | false =>
      cases hf : Machine.firstSignaled (s.note (.called t objs false)) t objs with
      | some p =>
        have hmem : p.1 ∈ objs := by
          have := mem_of_find?_eq_some hf
          exact fst_mem_of_mem_zipIdx this
        have ha := hc.acquireFor hp fun o ho => mem_singleton.1 ho ▸ hknown p.1 hmem
        exact ha.returned ((acquireFor_pending ..).trans hp) _
      | none =>
        refine hc.obBlock hw ht hlen.2 hknown ?_ timeout memory
        intro hs
        obtain ⟨o, ho, hso⟩ := hs
        obtain ⟨i, hi⟩ := mem_iff_getElem?.1 ho
        have := List.find?_eq_none.1 hf (o, i) (mk_mem_zipIdx_iff_getElem?.2 hi)
        exact this hso

/-- What a wait returns that is over. -/
def Waitdesc.status (d : Waitdesc) : Int :=
  if (if d.result = -1 then -2 else d.result) = -2 then STATUS_TIMEOUT
  else if (if d.result = -1 then -2 else d.result) = -3 then STATUS_THREAD_IS_TERMINATING
  else (if d.all then 0 else if d.result = -1 then -2 else d.result) + Machine.abandonedBase d.abandoned

theorem obResume_eq (s : Machine) (t : Tid) (d : Waitdesc) : s.obResume t d = ({ s with
    links := if d.result = -1 then d.objs.zipIdx.foldl (unlinkBlock t) s.links else s.links }.setThread t
      { s.threads t with waitMulti := none, wakeTick := 0 }).note (.returned t d.status) := by
  unfold Machine.obResume Waitdesc.status
  by_cases hres : d.result = -1
  · simp only [if_pos hres]
    rfl
  · simp only [if_neg hres]

theorem Sound.obResume (h : Sound R X s) (hw : (s.threads t).waitMulti = some d)
    (hst : (s.threads t).state = .ready) : Sound R X (s.obResume t d) := by
  have heq := obResume_eq s t d
  generalize s.obResume t d = m at heq
  have hmv : Moves t s m := by
    subst heq
    exact ⟨fun u hu => update_of_ne hu .., by simp [Machine.note, Machine.setThread], rfl, rfl, rfl, rfl, rfl⟩
  have hself : (m.threads t).waitMulti = none ∧ (m.threads t).state = .ready := by
    subst heq
    simp [Machine.note, Machine.setThread, hst]
  have hpend : ∀ u, m.pending u = if u = t then none else s.pending u := fun u => by
    rw [hmv.pending, pending_of_waitMulti hself.1]
  have harr : arrivals m.log = (arrivals s.log).erase t := by
    subst heq
    rfl
  have hlinks : m.links = if d.result = -1 then d.objs.zipIdx.foldl (unlinkBlock t) s.links else s.links := by
    subst heq
    rfl
  refine ⟨?_, h.side.move hmv (fun e he => ?_) (.inl hself.2), ?_⟩
  · by_cases hres : d.result = -1
    · exact (h.queued.leave (pending_iff.2 ⟨hw, hres⟩) (by rw [hlinks, if_pos hres]) hpend harr).1
    · have hp : s.pending t = none := by
        cases hp : s.pending t with
        | none => rfl
        | some e =>
          obtain ⟨hw', he⟩ := pending_iff.1 hp
          rw [hw] at hw'
          rw [← some.inj hw'] at he
          exact absurd he hres
      refine h.queued.congr (by rw [hlinks, if_neg hres]) (fun u => ?_) (harr.trans (erase_arrivals h.queued hp))
      rw [hpend]
      split
      · rename_i hu
        rw [hu, hp]
      · rfl
  · rw [hpend, if_pos rfl] at he
    cases he
  · refine h.quiet.mono fun u e hb hu => ?_
    rw [hpend] at hu
    split at hu
    · cases hu
    · rename_i hne
      rw [hmv.threads u hne] at hb
      refine ⟨⟨hb, hu⟩, fun x _ hX hx => ⟨hX, ?_⟩⟩
      rwa [Machine.signaled, hmv.objs] at hx

/-! ### Steps and runs -/

theorem Side.no_wait (h : Side R s) (hr : (s.threads t).state ≠ .ready)
    (hb : (s.threads t).state ≠ .blocked) : (s.threads t).waitMulti = none := by
  by_contra hw
  obtain e | e := h.idle t hw
  · exact hr e
  · exact hb e

theorem Sound.spawn (h : Sound R X s) (hst : (s.threads t).state = .free) :
    Sound R X ((s.obCreate { type := .thread, thr := some t } 0).setThread t
      { state := .ready, object := some s.nextObj }) := by
  have hc := h.obCreate { type := .thread, thr := some t } 0 rfl rfl
  have hw : (s.threads t).waitMulti = none :=
    h.side.no_wait (by rw [hst]; nofun) (by rw [hst]; nofun)
  refine hc.calm (.setThread hw.symm (.inl rfl)) (hc.side.owners.congr rfl rfl rfl rfl) le_rfl rfl
    (fun u x hu => ?_) fun _ _ _ hs => hs
  by_cases hne : u = t
  · rw [hne, setThread_threads_self] at hu
    obtain rfl := some.inj hu
    rw [hne]
    exact congrArg Kobject.thr (setObj_objs_self { s with nextObj := s.nextObj + 1 } s.nextObj _)
  · rw [setThread_threads_of_ne hne] at hu
    exact hc.side.objects u x hu

theorem Sound.free (h : Sound R X s) (hst : (s.threads t).state = .zombie) :
    Sound R X (s.setThread t {}) := by
  have hw : (s.threads t).waitMulti = none :=
    h.side.no_wait (by rw [hst]; nofun) (by rw [hst]; nofun)
  refine h.calm (.setThread hw.symm (.inr ⟨nofun, hw⟩)) (h.side.owners.congr rfl rfl rfl rfl) le_rfl rfl
    (fun u x hu => ?_) fun _ _ _ hs => hs
  by_cases hne : u = t
  · simp [hne] at hu
  · rw [setThread_threads_of_ne hne] at hu
    exact h.side.objects u x hu

theorem Sound.detach (h : Sound R X s) (hst : (s.threads t).state = .zombie)
    (ho : (s.threads t).object = some o) :
    Sound R X (((s.setThread t {}).setObj o { s.objs o with thr := none }).obDeref o) := by
  have hthr := h.side.objects t o ho
  have hk := h.side.owners.object o
  have hr := hk.refs
  rw [Kobject.held, hthr] at hr
  simp only [reduceCtorEq, if_false] at hr
  refine (h.free hst).obDeref (k := { s.objs o with thr := none }) ?_ h.side.owners.nodup
    ⟨hk.owned_iff, hk.type, ?_⟩ (h.side.owners.live (by omega)) (fun u hu => ?_) fun _ hs => hs
  · exact ⟨⟨rfl, rfl, rfl⟩, rfl, fun _ _ => rfl, fun _ _ => Iff.rfl, le_rfl, rfl⟩
  · show (s.objs o).refs = s.loose o + 1 + ((if (s.objs o).owner = none then 0 else 1) + 0)
    omega
  · by_cases hne : u = t
    · simp [hne] at hu
    · rw [setThread_threads_of_ne hne] at hu
      exact absurd (some.inj ((h.side.objects u o hu).symm.trans hthr)) hne

/-- `process_reap_signal` stores `signaled`, and the waiters are for the next section. -/
theorem Sound.mark (h : Sound R X s) (o : Oid) : Sound (o :: R) (o :: X)
    { s.setObj o { s.objs o with signaled := true } with reaping := o :: s.reaping } := by
  have hm : Sound R (o :: X) (s.setObj o { s.objs o with signaled := true }) :=
    h.raise ⟨⟨rfl, rfl, rfl⟩, rfl, fun _ _ => rfl, fun _ _ => Iff.rfl, le_rfl, rfl⟩ ⟨rfl, rfl, rfl, rfl⟩ rfl rfl
  exact ⟨hm.queued.congr rfl (fun _ => rfl) rfl, ⟨hm.side.owners.congr rfl rfl rfl rfl, hm.side.known, hm.side.idle,
    hm.side.objects, congrArg (List.cons o) h.side.reaping⟩, hm.quiet⟩

theorem Sound.check (h : Sound R X s) (o : Oid) :
    Sound (R.erase o) (X.erase o) ({ s with reaping := s.reaping.erase o }.releaseCheck o) := by
  refine Sound.release ⟨h.queued.congr rfl (fun _ => rfl) rfl, ⟨h.side.owners.congr rfl rfl rfl rfl, h.side.known,
    h.side.idle, h.side.objects, congrArg (List.erase · o) h.side.reaping⟩, ?_⟩
  refine h.quiet.mono fun t d hb ht => ⟨⟨hb, ht⟩, fun x _ hX hs => ⟨fun hm => ?_, hs⟩⟩
  rw [mem_cons, not_or] at hX
  exact hX.2 ((mem_erase_of_ne hX.1).2 hm)

theorem Sound.exit (h : Sound R X s) (hw : (s.threads t).waitMulti = none) :
    Sound R X ((s.setThread t { s.threads t with state := .zombie }).threadObjectSignal t) := by
  refine Sound.threadObjectSignal ?_ t
  refine h.congr (.setThread rfl (.inr ⟨nofun, hw⟩)) rfl rfl rfl rfl rfl fun u => ?_
  by_cases hu : u = t
  · rw [hu, setThread_threads_self]
  · rw [setThread_threads_of_ne hu]

theorem Sound.ref (h : Sound R X s) (ho : 0 < (s.objs o).refs) :
    Sound R X ((s.setObj o { s.objs o with refs := (s.objs o).refs + 1 }).setLoose o
      (s.loose o + 1)) := by
  have hk := h.side.owners.object o
  have hw : Writes o { s.objs o with refs := (s.objs o).refs + 1 } s
      ((s.setObj o { s.objs o with refs := (s.objs o).refs + 1 }).setLoose o (s.loose o + 1)) :=
    ⟨⟨rfl, rfl, rfl⟩, rfl, fun _ hx => update_of_ne hx .., fun _ _ => Iff.rfl, le_rfl, rfl⟩
  refine h.write hw (h.side.owners.write hw h.side.owners.nodup ⟨hk.owned_iff, hk.type, ?_⟩ fun hle => ?_)
    (fun t ht => h.side.objects t o ht) (Subset.refl _) fun _ _ _ hs => hs
  · show (s.objs o).refs + 1 = update s.loose o (s.loose o + 1) o + (s.objs o).held
    rw [update_self, hk.refs]
    exact Nat.add_right_comm ..
  · exact absurd (h.side.owners.live ho) (Nat.not_lt.2 hle)

theorem live_iff {type : ObType} : s.live o type = true ↔
    0 < (s.objs o).refs ∧ (s.objs o).type = type := by
  simp [Machine.live]

theorem running_iff : s.running t = true ↔
    t < MAX_THREADS ∧ (s.threads t).state = .ready ∧ (s.threads t).waitMulti = none := by
  simp [Machine.running, and_assoc]

/-- The processes marked and not released, after a step. -/
def Act.after (X : List Oid) : Act → List Oid
  | .markProcess o => o :: X
  | .checkProcess o => X.erase o
  | _ => X

theorem step_sound (h : Sound R X s) (hs : s.step a = some s') :
    Sound (a.after R) (a.after X) s' := by
  cases a with
  | spawn t =>
    obtain ⟨hc, rfl⟩ := Option.ite_some_none_eq_some.1 hs
    exact h.spawn hc.2
  | createEvent | createProcess | createIo =>
    obtain rfl := some.inj hs
    exact h.obCreate _ 1 rfl rfl
  | createSemaphore initial max =>
    simp only [Machine.step] at hs
    split at hs
    · cases hs
    · obtain rfl := some.inj hs
      exact h.obCreate _ 1 rfl rfl
  | createMutant t initialOwner =>
    obtain ⟨-, rfl⟩ := Option.ite_some_none_eq_some.1 hs
    have hc := h.obCreate { type := .mutant, signaled := true } 1 rfl rfl
    split
    · refine hc.mutantInitialOwner ?_ ?_ (Nat.lt_succ_self _) t
      · rw [obCreate_objs_self]
      · rw [obCreate_objs_self]
    · exact hc
  | createTimer manual =>
    obtain rfl := some.inj hs
    unfold Machine.registerTimer
    have hc := h.obCreate { type := .timer, manual := manual } 1 rfl rfl
    split
    · exact hc.congr (.of_threads rfl rfl rfl) rfl rfl rfl rfl rfl fun _ => rfl
    · exact hc
  | ref o =>
    obtain ⟨hc, rfl⟩ := Option.ite_some_none_eq_some.1 hs
    exact h.ref hc
  | deref o =>
    obtain ⟨hc, rfl⟩ := Option.ite_some_none_eq_some.1 hs
    exact h.deref hc
  | setEvent o | completeIo o =>
    obtain ⟨-, rfl⟩ := Option.ite_some_none_eq_some.1 hs
    exact h.obSignal o
  | resetEvent o | clearIo o =>
    obtain ⟨-, rfl⟩ := Option.ite_some_none_eq_some.1 hs
    exact h.obReset o
  | releaseSemaphore o n =>
    obtain ⟨hc, rfl⟩ := Option.ite_some_none_eq_some.1 hs
    exact h.releaseSemaphore (live_iff.1 hc).2 n
  | releaseMutant t o =>
    obtain ⟨-, rfl⟩ := Option.ite_some_none_eq_some.1 hs
    exact h.mutantRelease o t
  | setTimer o due period =>
    obtain ⟨hc, rfl⟩ := Option.ite_some_none_eq_some.1 hs
    refine h.setObj ⟨rfl, rfl, rfl, rfl⟩ fun t ht => ?_
    simp [Kobject.signaledFor, (live_iff.1 hc).2] at ht
  | cancelTimer o =>
    obtain ⟨-, rfl⟩ := Option.ite_some_none_eq_some.1 hs
    exact h.setObj ⟨rfl, rfl, rfl, rfl⟩ fun t ht => ht
  | markProcess o =>
    obtain ⟨-, rfl⟩ := Option.ite_some_none_eq_some.1 hs
    exact h.mark o
  | checkProcess o =>
    obtain ⟨-, rfl⟩ := Option.ite_some_none_eq_some.1 hs
    exact h.check o
  | wait t objs all timeout memory =>
    obtain ⟨hc, rfl⟩ := Option.ite_some_none_eq_some.1 hs
    rw [Bool.and_eq_true] at hc
    obtain ⟨ht, -, hw⟩ := running_iff.1 hc.1
    exact h.obWait hw ht (fun o ho => by simpa using all_eq_true.1 hc.2 o ho) all timeout
      memory
  | wake t =>
    obtain rfl := some.inj hs
    exact h.threadWake t
  | tick =>
    obtain rfl := some.inj hs
    exact h.schedTick
  | resume t =>
    simp only [Machine.step] at hs
    split at hs
    · rename_i d hd
      split at hs
      · rename_i hc
        obtain rfl := some.inj hs
        exact h.obResume hd hc
      · cases hs
    · cases hs
  | exit t =>
    obtain ⟨hc, rfl⟩ := Option.ite_some_none_eq_some.1 hs
    exact h.exit (running_iff.1 hc).2.2
  | reap t =>
    simp only [Machine.step] at hs
    split at hs
    · rename_i hc
      split at hs
      · obtain rfl := some.inj hs
        exact h.free hc
      · rename_i o ho
        obtain rfl := some.inj hs
        exact h.detach hc ho
    · cases hs

theorem boot_sound : Sound [] [] boot where
  queued :=
    { nodup := nodup_nil
      mem := fun _ => ⟨nofun, nofun⟩
      queues :=
        { chain := fun _ => rfl
          nodup := fun _ => nodup_nil
          apart := nofun
          bound := nofun } }
  side :=
    { owners :=
        { nodup := nodup_nil
          object := fun _ => ⟨⟨nofun, fun hc => absurd rfl hc⟩, fun hc => absurd rfl hc, rfl⟩
          fresh := fun _ _ => rfl }
      known := nofun
      idle := fun _ hc => absurd rfl hc
      objects := nofun
      reaping := rfl }
  quiet := nofun

theorem next_step (hs : s.next a = some s') : s.step a = some s' := by
  unfold Machine.next at hs
  split at hs
  · cases hs
  · exact hs

theorem Sound.always (h : Sound R X s) (hP : ∀ R X s, Sound R X s → P s) (as : List Act) :
    s.Always P as := by
  induction as generalizing s R X with
  | nil => exact hP R X s h
  | cons a as ih => exact ⟨hP R X s h, fun s' hs => ih (step_sound h (next_step hs))⟩

theorem always_run {as : List Act} (h : s.Always P as) (hs : s.run as = some s') : P s' := by
  induction as generalizing s with
  | nil =>
    obtain rfl := some.inj hs
    exact h
  | cons a as ih =>
    obtain ⟨m, hm, hrest⟩ := bind_eq_some_iff.1 hs
    exact ih (h.2 m hm) hrest

/-! ### No missed wake-up -/

/-- No thread is blocked in a wait that what is signaled would satisfy. -/
def NoMissedWakeup (s : Machine) : Prop :=
  ∀ t d, (s.threads t).state = .blocked → (s.threads t).waitMulti = some d → d.result = -1 →
    ¬Satisfiable (fun o => s.signaled o t = true) d

/-- Waiter lists hold the blocks of the pending waits, each once and in the order of
arrival; the owned mutants are listed, and each owner has a reference. -/
structure ListsRight (s : Machine) : Prop where
  waiters : ∀ o, Chain Slot.next s.links (.waiters o) (s.waiters o)
  once : ∀ o, (s.waiters o).Nodup
  pending : ∀ o b, b ∈ s.waiters o ↔ ∃ d, (s.threads b.thread).waitMulti = some d ∧
    d.result = -1 ∧ d.objs[b.index]? = some o
  owned_once : s.owned.Nodup
  owned : ∀ o, o ∈ s.owned ↔ (s.objs o).type = .mutant ∧ (s.objs o).owner ≠ none
  refs : ∀ o, (s.objs o).refs = s.loose o + (s.objs o).held

theorem Sound.listsRight (h : Sound R X s) : ListsRight s where
  waiters := h.queued.queues.chain
  once := h.queued.queues.nodup
  pending := by
    intro o b
    rw [mem_waiters h.queued]
    simp only [pending_iff, and_assoc]
  owned_once := h.side.owners.nodup
  owned := by
    intro o
    rw [(h.side.owners.object o).owned_iff]
    exact ⟨fun hne => ⟨(h.side.owners.object o).type hne, hne⟩, fun hc => hc.2⟩
  refs o := (h.side.owners.object o).refs

theorem noMissedWakeup_iff : NoMissedWakeup s ↔ Quiet [] s := by
  constructor
  · intro h t d hb ht hs
    obtain ⟨hw, hd⟩ := pending_iff.1 ht
    exact h t d hb hw hd (hs.mono fun _ _ hx => hx.2)
  · intro h t d hb hw hd hs
    exact h t d hb (pending_iff.2 ⟨hw, hd⟩) (hs.mono fun _ _ hx => ⟨not_mem_nil, hx⟩)

/-- No blocked thread would be satisfied if the process object `o` were signaled. -/
def Unawaited (s : Machine) (o : Oid) : Prop :=
  ∀ t d, (s.threads t).state = .blocked → s.pending t = some d →
    if d.all then o ∈ d.objs → ∃ x ∈ d.objs, x ≠ o ∧ s.signaled x t = false else o ∉ d.objs

/-- The store of `process_reap_signal` is made for a process nobody waits for. -/
def MarksUnawaited (s : Machine) : Act → Prop
  | .markProcess o => Unawaited s o
  | _ => True

theorem mark_noMissedWakeup (h : NoMissedWakeup s) (htype : (s.objs o).type = .process) :
    NoMissedWakeup { s.setObj o { s.objs o with signaled := true } with
      reaping := o :: s.reaping } ↔ Unawaited s o := by
  have hself : ∀ t, (s.setObj o { s.objs o with signaled := true }).signaled o t = true := by
    intro t
    rw [setObj_signaled, if_pos rfl, Kobject.signaledFor, htype]
  have hother : ∀ x t, x ≠ o →
      (s.setObj o { s.objs o with signaled := true }).signaled x t = s.signaled x t := by
    intro x t hx
    rw [setObj_signaled, if_neg hx]
  constructor
  · intro h' t d hb ht
    obtain ⟨hw, hd⟩ := pending_iff.1 ht
    have hun := h' t d hb hw hd
    split
    · rename_i hall
      intro _
      by_contra hno
      refine hun ?_
      rw [Satisfiable, if_pos hall]
      intro x hx
      by_cases hxo : x = o
      · rw [hxo]
        exact hself t
      · refine (hother x t hxo).trans ?_
        by_contra hs
        exact hno ⟨x, hx, hxo, by simpa using hs⟩
    · rename_i hall
      intro hmem
      refine hun ?_
      rw [Satisfiable, if_neg hall]
      exact ⟨o, hmem, hself t⟩
  · intro hu t d hb hw hd hs
    have hun := hu t d hb (pending_iff.2 ⟨hw, hd⟩)
    refine h t d hb hw hd ?_
    unfold Satisfiable at hs ⊢
    split
    · rename_i hall
      rw [if_pos hall] at hs hun
      intro x hx
      by_cases hxo : o ∈ d.objs
      · obtain ⟨y, hy, hyo, hys⟩ := hun hxo
        have hsy := (hother y t hyo).symm.trans (hs y hy)
        rw [hys] at hsy
        cases hsy
      · have hne : x ≠ o := fun e => hxo (e ▸ hx)
        exact (hother x t hne).symm.trans (hs x hx)
    · rename_i hall
      rw [if_neg hall] at hs hun
      obtain ⟨x, hx, hsx⟩ := hs
      have hne : x ≠ o := fun e => hun (e ▸ hx)
      exact ⟨x, hx, (hother x t hne).symm.trans hsx⟩

/-- Nothing but that store can leave a wake-up out. -/
theorem step_noMissedWakeup (h : Sound R [] s) (hs : s.step a = some s') :
    NoMissedWakeup s' ↔ MarksUnawaited s a := by
  have hq := (step_sound h hs).quiet
  cases a with
  | markProcess o =>
    simp only [Machine.step] at hs
    split at hs
    · rename_i hc
      obtain rfl := some.inj hs
      exact mark_noMissedWakeup (noMissedWakeup_iff.2 h.quiet) (live_iff.1 hc).2
    · cases hs
  | checkProcess o => exact iff_of_true (noMissedWakeup_iff.2 hq) trivial
  | _ => exact iff_of_true (noMissedWakeup_iff.2 hq) trivial

theorem run_noMissedWakeup (h : Sound R [] s) (as : List Act) :
    s.Always NoMissedWakeup as ↔ s.Meets MarksUnawaited as := by
  have hnow := noMissedWakeup_iff.2 h.quiet
  induction as generalizing s R with
  | nil => exact iff_of_true hnow trivial
  | cons a as ih =>
    have hstep : ∀ s', s.next a = some s' → NoMissedWakeup s' → Sound (a.after R) [] s' := by
      intro s' hs' hn
      have hsound := step_sound h (next_step hs')
      exact ⟨hsound.queued, hsound.side, noMissedWakeup_iff.1 hn⟩
    constructor
    · rintro ⟨-, hrest⟩ s' hs'
      have hn : NoMissedWakeup s' := by
        have hr := hrest s' hs'
        cases as with
        | nil => exact hr
        | cons b bs => exact hr.1
      exact ⟨(step_noMissedWakeup h (next_step hs')).1 hn,
        (ih (hstep s' hs' hn) hn).1 (hrest s' hs')⟩
    · intro hm
      refine ⟨hnow, fun s' hs' => ?_⟩
      obtain ⟨hc, hrest⟩ := hm s' hs'
      have hn := (step_noMissedWakeup h (next_step hs')).2 hc
      exact (ih (hstep s' hs' hn) hn).2 hrest

/-- **No lost wake-up.**  In every run the lists are right throughout; and every state is
without a missed wake-up exactly if `process_reap_signal` makes its store, with interrupts
on, only for processes that no blocked thread waits for. -/
theorem no_missed_wakeups (as : List Act) :
    boot.Always ListsRight as ∧
      (boot.Always NoMissedWakeup as ↔ boot.Meets MarksUnawaited as) :=
  ⟨boot_sound.always (fun _ _ _ h => h.listsRight) as, run_noMissedWakeup boot_sound as⟩

/-- Thread 0 waits for a process object, which is marked. -/
def markedRun : List Act :=
  [.spawn 0, .createProcess, .wait 0 [1] false INT64_MAX true, .markProcess 1]

theorem markedRun_isSome : (boot.run markedRun).isSome := by decide +kernel

/-- **The store comes too early**: between it and the section that releases the waiters,
a thread is blocked on a signaled object. -/
theorem mark_misses_wakeup : ¬∀ as, boot.Always NoMissedWakeup as := by
  intro h
  have hrun := always_run (h markedRun) (some_get markedRun_isSome).symm
  refine hrun 0 ⟨[1], false, -1, false⟩ (by decide +kernel) (by decide +kernel) rfl ?_
  exact ⟨1, by decide, by decide +kernel⟩

end Win98Modern.Ob
