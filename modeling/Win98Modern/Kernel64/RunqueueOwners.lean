import Win98Modern.Kernel64.RunqueueCheck

/-!
# Who is on which CPU

`Owners r`: a thread that is current or outgoing on a CPU is marked as being there, and the
other way round; a hand-off has a running thread on the other side.  `Integrity` joins this to
the check of the queues and to the law of the ready threads.  The lemmas after it say what a
change has to keep.
-/

namespace Win98Modern.Sched

open Function List

variable {r r' : Runqueues} {Q : Queues} {t u : Tid} {c d : CpuId} {taken : List Tid}

/-- A thread on a CPU, as current or as outgoing. -/
structure Occupant (r : Runqueues) (c : CpuId) (t : Tid) : Prop where
  valid : t < r.count
  onCpu : (r.table t).onCpu = c
  online : r.online c = true
  alive : (r.table t).state ≠ .new ∧ (r.table t).state ≠ .free
  level : (r.table t).schedPriority < SCHED_PRIORITY_LEVELS
  mask : (r.table t).cpuMask ≠ 0
  inside : r.outside (r.table t).cpuMask = false

structure IdleOf (r : Runqueues) (c : CpuId) (t : Tid) : Prop where
  valid : t < r.count
  online : r.online c = true
  queued : (r.table t).readyQueued = false
  onCpu : (r.table t).onCpu = K64_CPU_NONE ∨ (r.table t).onCpu = c
  alive : (r.table t).state ≠ .new ∧ (r.table t).state ≠ .free
  level : (r.table t).schedPriority < SCHED_PRIORITY_LEVELS
  mask : (r.table t).cpuMask = cpuBit c
  awake : (r.table t).apKernelCohort = K64_AP_WORKER_CLASS → (r.table t).state ≠ .blocked

structure Owners (r : Runqueues) : Prop where
  within : ∀ c, r.onlineMask.getLsbD c = true → c < K64_CPU_MAX
  occupant : ∀ c < K64_CPU_MAX, ∀ t, r.occupies c t = true → Occupant r c t
  handoff : ∀ c < K64_CPU_MAX, ∀ t, (r.cpu c).outgoing = some t →
    (r.table t).state ≠ .running ∧
      ∃ u, (r.cpu c).current = some u ∧ u ≠ t ∧ (r.table u).state = .running
  owned : ∀ t < r.count, (r.table t).onCpu ≠ K64_CPU_NONE →
    (r.table t).onCpu < K64_CPU_MAX ∧ r.occupies (r.table t).onCpu t = true
  idle : ∀ c < K64_CPU_MAX, ∀ t, (r.cpu c).idle = some t → IdleOf r c t

def Runqueues.isIdle (r : Runqueues) (t : Tid) : Bool :=
  (List.range K64_CPU_MAX).any fun c => (r.cpu c).idle == some t

/-- What holds between two calls.  `taken` are the threads taken off their queue by a bare
remove. -/
structure Integrity (r : Runqueues) (taken : List Tid) : Prop where
  valid : r.rqValidate = true
  owners : Owners r
  ready : ∀ t < r.count, (r.table t).state = .ready → r.isIdle t = false → t ∉ taken →
    (r.table t).readyQueued = true ∨ (r.table t).onCpu ≠ K64_CPU_NONE

theorem isIdle_iff : r.isIdle t = true ↔ ∃ c < K64_CPU_MAX, (r.cpu c).idle = some t := by
  simp [Runqueues.isIdle]

theorem occupies_iff : r.occupies c t = true ↔
    (r.cpu c).current = some t ∨ (r.cpu c).outgoing = some t := by
  simp [Runqueues.occupies]

theorem Integrity.shape (h : Integrity r taken) : ∃ Q, Shape r Q := ((rqValidate_iff r).1 h.valid).1

theorem Integrity.queued (h : Integrity r taken) : QueuedRight r := ((rqValidate_iff r).1 h.valid).2

theorem Owners.current (h : Owners r) (hc : c < K64_CPU_MAX) (ht : (r.cpu c).current = some t) :
    Occupant r c t := h.occupant c hc t (occupies_iff.2 (.inl ht))

theorem Owners.outgoing (h : Owners r) (hc : c < K64_CPU_MAX)
    (ht : (r.cpu c).outgoing = some t) : Occupant r c t :=
  h.occupant c hc t (occupies_iff.2 (.inr ht))

theorem none_ge (hc : c < K64_CPU_MAX) : c ≠ K64_CPU_NONE := by
  rintro rfl
  exact absurd hc (by decide)

/-- What runs on a CPU is on no queue. -/
theorem Integrity.unqueued (h : Integrity r taken) (hc : c < K64_CPU_MAX)
    (ht : r.occupies c t = true) : (r.table t).readyQueued = false := by
  have hocc := h.owners.occupant c hc t ht
  by_contra hq
  have hnone := (h.queued t hocc.valid (by simpa using hq)).onCpu
  exact none_ge hc (hocc.onCpu.symm.trans hnone)

/-- A thread is on one CPU at most. -/
theorem Owners.unique (h : Owners r) (hc : c < K64_CPU_MAX) (hd : d < K64_CPU_MAX)
    (ht : r.occupies c t = true) (ht' : r.occupies d t = true) : c = d :=
  (h.occupant c hc t ht).onCpu.symm.trans (h.occupant d hd t ht').onCpu

theorem Owners.idle_allowed (h : Owners r) (hc : c < K64_CPU_MAX) (ht : (r.cpu c).idle = some t)
    (hd : (r.table t).cpuMask.getLsbD d = true) : d = c := by
  rw [(h.idle c hc t ht).mask, cpuBit_getLsbD hc] at hd
  exact of_decide_eq_true hd

/-! ### Threads that a call does not write -/

theorem Eligible.congr (h : Eligible r u) (hu : r'.table u = r.table u)
    (hon : r'.online (r.table u).readyCpu = true) (hin : r'.outside (r.table u).cpuMask = false) :
    Eligible r' u := by
  constructor
  all_goals rw [hu]
  exacts [h.state, h.onCpu, hon, h.allowed, hin]

theorem Occupant.congr (h : Occupant r c u) (hu : r'.table u = r.table u) (hsize : r'.count = r.count)
    (hon : r'.online c = true) (hin : r'.outside (r.table u).cpuMask = false) : Occupant r' c u := by
  refine ⟨hsize ▸ h.valid, ?_, hon, ?_, ?_, ?_, ?_⟩
  all_goals rw [hu]
  exacts [h.onCpu, h.alive, h.level, h.mask, hin]

theorem IdleOf.congr (h : IdleOf r c u) (hu : r'.table u = r.table u) (hsize : r'.count = r.count)
    (hon : r'.online c = true) : IdleOf r' c u := by
  refine ⟨hsize ▸ h.valid, hon, ?_, ?_, ?_, ?_, ?_, ?_⟩
  all_goals rw [hu]
  exacts [h.queued, h.onCpu, h.alive, h.level, h.mask, h.awake]

/-! ### The choice of a CPU -/

theorem foldl_choose (mask : BitVec 64) (l : List CpuId) (best : CpuId)
    (hl : ∀ c ∈ l, c < K64_CPU_MAX) :
    let res := l.foldl (fun best c =>
      if mask.getLsbD c ∧ (best = K64_CPU_NONE ∨ (r.cpu c).readyCount < (r.cpu best).readyCount)
      then c else best) best
    (res = best ∧ (best = K64_CPU_NONE → ∀ c ∈ l, mask.getLsbD c = false)) ∨
      (res ∈ l ∧ mask.getLsbD res = true) := by
  induction l generalizing best with
  | nil => exact .inl ⟨rfl, fun _ => nofun⟩
  | cons c l ih =>
    have hrest := fun best => ih best fun d hd => hl d (mem_cons_of_mem c hd)
    simp only [foldl_cons]
    split
    · rename_i hb
      obtain ⟨hres, -⟩ | ⟨hin, hmask⟩ := hrest c
      · right
        rw [hres]
        exact ⟨mem_cons_self, hb.1⟩
      · exact .inr ⟨mem_cons_of_mem c hin, hmask⟩
    · rename_i hb
      obtain ⟨hres, hnone⟩ | ⟨hin, hmask⟩ := hrest best
      · refine .inl ⟨hres, fun hbest d hd => ?_⟩
        obtain rfl | hd := mem_cons.1 hd
        · have hbit := fun hm => hb ⟨hm, .inl hbest⟩
          simpa using hbit
        · exact hnone hbest d hd
      · exact .inr ⟨mem_cons_of_mem c hin, hmask⟩

/-- The CPU chosen is online and allowed. -/
theorem rqChoose_spec (hw : ∀ c, r.onlineMask.getLsbD c = true → c < K64_CPU_MAX)
    {mask : BitVec 64} (hm : mask ≠ 0) (ho : r.outside mask = false) :
    r.online (r.rqChoose mask) = true ∧ mask.getLsbD (r.rqChoose mask) = true := by
  have hbit : mask.getLsbD (r.rqChoose mask) = true := by
    unfold Runqueues.rqChoose
    rw [if_neg (not_or.2 ⟨hm, by simp [ho]⟩)]
    obtain ⟨-, hnone⟩ | ⟨-, hmask⟩ := foldl_choose (r := r) mask (List.range K64_CPU_MAX) K64_CPU_NONE
      fun c => mem_range.1
    · refine absurd (BitVec.eq_of_getLsbD_eq fun c _ => ?_) hm
      show mask.getLsbD c = (0#64).getLsbD c
      by_contra hc
      have hc : mask.getLsbD c = true := by simpa using hc
      have hlt := hw c (outside_eq_false.1 ho c hc)
      rw [hnone rfl c (mem_range.2 hlt)] at hc
      cases hc
    · exact hmask
  have hon := outside_eq_false.1 ho _ hbit
  refine ⟨?_, hbit⟩
  unfold Runqueues.online
  rw [hon, decide_eq_true (hw _ hon)]
  rfl

/-! ### Changes beside the queues -/

/-- What `Shape` speaks of is the same. -/
structure SameQueues (r r' : Runqueues) : Prop where
  prev : ∀ u, (r'.table u).readyPrev = (r.table u).readyPrev
  next : ∀ u, (r'.table u).readyNext = (r.table u).readyNext
  queued : ∀ u, (r'.table u).readyQueued = (r.table u).readyQueued
  readyCpu : ∀ u, (r'.table u).readyCpu = (r.table u).readyCpu
  level : ∀ u < r.count, (r.table u).readyQueued = true →
    (r'.table u).schedPriority = (r.table u).schedPriority
  head : ∀ c, (r'.cpu c).head = (r.cpu c).head
  tail : ∀ c, (r'.cpu c).tail = (r.cpu c).tail
  mask : ∀ c, (r'.cpu c).readyMask = (r.cpu c).readyMask
  count : ∀ c, (r'.cpu c).readyCount = (r.cpu c).readyCount
  size : r'.count = r.count

theorem SameQueues.trans {r'' : Runqueues} (h : SameQueues r r') (h' : SameQueues r' r'') :
    SameQueues r r'' where
  prev u := (h'.prev u).trans (h.prev u)
  next u := (h'.next u).trans (h.next u)
  queued u := (h'.queued u).trans (h.queued u)
  readyCpu u := (h'.readyCpu u).trans (h.readyCpu u)
  level u hu hq := (h'.level u (h.size ▸ hu) ((h.queued u).trans hq)).trans (h.level u hu hq)
  head c := (h'.head c).trans (h.head c)
  tail c := (h'.tail c).trans (h.tail c)
  mask c := (h'.mask c).trans (h.mask c)
  count c := (h'.count c).trans (h.count c)
  size := h'.size.trans h.size

theorem sameQueues_setCpu (r : Runqueues) (c : CpuId) (current idle outgoing : Option Tid) :
    SameQueues r (r.setCpu c { r.cpu c with
      current := current, idle := idle, outgoing := outgoing }) := by
  constructor
  case head | tail | mask | count =>
    intro d
    by_cases hd : d = c
    · simp [Runqueues.setCpu, hd]
    · simp [Runqueues.setCpu, hd]
  all_goals intros; rfl

theorem sameQueues_setThread (r : Runqueues) (t : Tid) (th : Thread)
    (hprev : th.readyPrev = (r.table t).readyPrev) (hnext : th.readyNext = (r.table t).readyNext)
    (hqueued : th.readyQueued = (r.table t).readyQueued)
    (hcpu : th.readyCpu = (r.table t).readyCpu)
    (hlevel : (r.table t).readyQueued = true → th.schedPriority = (r.table t).schedPriority) :
    SameQueues r (r.setThread t th) := by
  have hself : (r.setThread t th).table t = th := update_self ..
  have hother : ∀ u, u ≠ t → (r.setThread t th).table u = r.table u :=
    fun u hu => update_of_ne hu ..
  constructor
  case head | tail | mask | count => exact fun _ => rfl
  case size => rfl
  all_goals
    intro u
    by_cases hu : u = t
    · subst hu
      rw [hself]
      first | assumption | exact fun _ => hlevel
    · rw [hother u hu]
      try exact fun _ _ => rfl

/-- The queues are as they were if nothing they rest on changed. -/
theorem Shape.frame (h : Shape r Q) (hs : SameQueues r r') : Shape r' Q where
  linked c hc p hp := by
    rw [hs.head, hs.tail]
    exact (h.linked c hc p hp).congr (fun u _ => hs.prev u) fun u _ => hs.next u
  mem c p u := by
    rw [h.mem, hs.queued, hs.readyCpu, hs.size]
    constructor
    · rintro ⟨hu, hq, hc, hp⟩
      exact ⟨hu, hq, hc, (hs.level u hu hq).trans hp⟩
    · rintro ⟨hu, hq, hc, hp⟩
      exact ⟨hu, hq, hc, (hs.level u hu hq).symm.trans hp⟩
  level := h.level
  count c hc := by rw [hs.count, h.count c hc]
  mask c hc p hp := by rw [hs.mask, h.mask c hc p hp]
  idle u hu hq := by
    rw [hs.prev, hs.next]
    exact h.idle u (hs.size ▸ hu) ((hs.queued u).symm.trans hq)

theorem SameQueues.valid (hs : SameQueues r r') (h : r.rqValidate = true)
    (he : ∀ u < r.count, (r.table u).readyQueued = true → Eligible r u → Eligible r' u) :
    r'.rqValidate = true := by
  obtain ⟨⟨Q, hQ⟩, hq⟩ := (rqValidate_iff r).1 h
  refine (rqValidate_iff r').2 ⟨⟨Q, hQ.frame hs⟩, fun u hu hqu => ?_⟩
  rw [hs.size] at hu
  rw [hs.queued] at hqu
  exact he u hu hqu (hq u hu hqu)

/-- `t` may be written over with `th`: the queue fields stay, and what the thread's place asks
of it still holds. -/
structure Fits (r : Runqueues) (t : Tid) (th : Thread) : Prop where
  prev : th.readyPrev = (r.table t).readyPrev
  next : th.readyNext = (r.table t).readyNext
  queued : th.readyQueued = (r.table t).readyQueued
  readyCpu : th.readyCpu = (r.table t).readyCpu
  onCpu : th.onCpu = (r.table t).onCpu
  cohort : th.apKernelCohort = (r.table t).apKernelCohort
  inQueue : (r.table t).readyQueued = true → th.state = (r.table t).state ∧
    th.schedPriority = (r.table t).schedPriority ∧
    th.cpuMask.getLsbD (r.table t).readyCpu = true ∧ r.outside th.cpuMask = false
  onOne : ∀ c < K64_CPU_MAX, r.occupies c t = true → (th.state ≠ .new ∧ th.state ≠ .free) ∧
    th.schedPriority < SCHED_PRIORITY_LEVELS ∧ th.cpuMask ≠ 0 ∧ r.outside th.cpuMask = false
  leaving : ∀ c < K64_CPU_MAX, (r.cpu c).outgoing = some t → th.state ≠ .running
  arriving : ∀ c < K64_CPU_MAX, (r.cpu c).current = some t → (r.cpu c).outgoing ≠ none →
    th.state = .running
  idle : r.isIdle t = true → th.cpuMask = (r.table t).cpuMask ∧
    (th.state ≠ .new ∧ th.state ≠ .free) ∧ th.schedPriority < SCHED_PRIORITY_LEVELS ∧
    (th.apKernelCohort = K64_AP_WORKER_CLASS → th.state ≠ .blocked)

variable {th : Thread} {since order : Nat}

theorem Fits.sameQueues (h : Fits r t th) : SameQueues r (r.setThread t th) :=
  sameQueues_setThread r t th h.prev h.next h.queued h.readyCpu fun hq => (h.inQueue hq).2.1

theorem Fits.valid (h : Fits r t th) (hv : r.rqValidate = true) :
    (r.setThread t th).rqValidate = true := by
  refine h.sameQueues.valid hv fun u hu hq he => ?_
  by_cases hut : u = t
  · subst hut
    obtain ⟨hstate, -, hbit, hin⟩ := h.inQueue hq
    have hself : (r.setThread u th).table u = th := update_self ..
    constructor
    · rw [hself, hstate, he.state]
    · rw [hself, h.onCpu, he.onCpu]
    · rw [hself, h.readyCpu]
      exact he.online
    · rw [hself, h.readyCpu]
      exact hbit
    · rw [hself]
      exact hin
  · exact he.congr (update_of_ne hut ..) he.online he.inside

theorem Fits.owners (h : Fits r t th) (ho : Owners r) : Owners (r.setThread t th) := by
  have hself : (r.setThread t th).table t = th := update_self ..
  have hother : ∀ u, u ≠ t → (r.setThread t th).table u = r.table u :=
    fun u hu => update_of_ne hu ..
  refine ⟨ho.within, fun c hc u hu => ?_, fun c hc u hu => ?_, fun u hu hon => ?_,
    fun c hc u hu => ?_⟩
  · have hocc := ho.occupant c hc u hu
    by_cases hut : u = t
    · subst hut
      obtain ⟨halive, hlevel, hmask, hin⟩ := h.onOne c hc hu
      exact ⟨hocc.valid, by rw [hself, h.onCpu, hocc.onCpu], hocc.online, by rwa [hself],
        by rwa [hself], by rwa [hself], by rwa [hself]⟩
    · exact hocc.congr (hother u hut) rfl hocc.online hocc.inside
  · obtain ⟨hstate, v, hv, hvu, hrun⟩ := ho.handoff c hc u hu
    have hnone : (r.cpu c).outgoing ≠ none := by
      rw [show (r.cpu c).outgoing = some u from hu]
      exact nofun
    refine ⟨?_, v, hv, hvu, ?_⟩
    · by_cases hut : u = t
      · subst hut
        rw [hself]
        exact h.leaving c hc hu
      · rwa [hother u hut]
    · by_cases hvt : v = t
      · subst hvt
        rw [hself]
        exact h.arriving c hc hv hnone
      · rwa [hother v hvt]
  · by_cases hut : u = t
    · subst hut
      rw [hself, h.onCpu] at hon ⊢
      exact ho.owned u hu hon
    · rw [hother u hut] at hon ⊢
      exact ho.owned u hu hon
  · have hidle := ho.idle c hc u hu
    by_cases hut : u = t
    · subst hut
      obtain ⟨hmask, halive, hlevel, hawake⟩ := h.idle (isIdle_iff.2 ⟨c, hc, hu⟩)
      exact ⟨hidle.valid, hidle.online, by rw [hself, h.queued, hidle.queued],
        by rw [hself, h.onCpu]; exact hidle.onCpu, by rwa [hself], by rwa [hself],
        by rw [hself, hmask, hidle.mask], by rwa [hself]⟩
    · exact hidle.congr (hother u hut) rfl hidle.online

/-- A thread may change what no queue and no CPU rests on. -/
theorem Fits.integrity (h : Fits r t th) (hr : Integrity r taken)
    (hready : th.state = .ready → r.isIdle t = false → t ∉ taken →
      (r.table t).readyQueued = true ∨ (r.table t).onCpu ≠ K64_CPU_NONE) :
    Integrity (r.setThread t th) taken := by
  refine ⟨h.valid hr.valid, h.owners hr.owners, fun u hu hstate hidle htaken => ?_⟩
  by_cases hut : u = t
  · subst hut
    have hself : (r.setThread u th).table u = th := update_self ..
    rw [hself] at hstate ⊢
    rw [h.queued, h.onCpu]
    exact hready hstate hidle htaken
  · have hother : (r.setThread t th).table u = r.table u := update_of_ne hut ..
    rw [hother] at hstate ⊢
    exact hr.ready u hu hstate hidle htaken

/-! ### Enqueue and remove -/

/-- What `Owners` speaks of is the same. -/
structure SameOwners (r r' : Runqueues) : Prop where
  state : ∀ u, (r'.table u).state = (r.table u).state
  onCpu : ∀ u, (r'.table u).onCpu = (r.table u).onCpu
  level : ∀ u, (r'.table u).schedPriority = (r.table u).schedPriority
  mask : ∀ u, (r'.table u).cpuMask = (r.table u).cpuMask
  cohort : ∀ u, (r'.table u).apKernelCohort = (r.table u).apKernelCohort
  current : ∀ c, (r'.cpu c).current = (r.cpu c).current
  outgoing : ∀ c, (r'.cpu c).outgoing = (r.cpu c).outgoing
  idle : ∀ c, (r'.cpu c).idle = (r.cpu c).idle
  size : r'.count = r.count
  online : r'.onlineMask = r.onlineMask

theorem SameOwners.outside (h : SameOwners r r') (mask : BitVec 64) :
    r'.outside mask = r.outside mask := by
  unfold Runqueues.outside
  rw [h.online]

theorem SameOwners.onlineCpu (h : SameOwners r r') (c : CpuId) : r'.online c = r.online c := by
  unfold Runqueues.online
  rw [h.online]

theorem SameOwners.occupies (h : SameOwners r r') (c : CpuId) (t : Tid) :
    r'.occupies c t = r.occupies c t := by
  unfold Runqueues.occupies
  rw [h.current, h.outgoing]

theorem SameOwners.isIdle (h : SameOwners r r') (t : Tid) : r'.isIdle t = r.isIdle t := by
  unfold Runqueues.isIdle
  simp only [h.idle]

theorem SameOwners.owners (h : SameOwners r r') (ho : Owners r)
    (hidle : ∀ t, r.isIdle t = true → (r'.table t).readyQueued = false) : Owners r' := by
  refine ⟨fun c hc => ho.within c (h.online ▸ hc), fun c hc u hu => ?_, fun c hc u hu => ?_,
    fun u hu hon => ?_, fun c hc u hu => ?_⟩
  · rw [h.occupies] at hu
    have hocc := ho.occupant c hc u hu
    exact ⟨by rw [h.size]; exact hocc.valid, by rw [h.onCpu, hocc.onCpu],
      by rw [h.onlineCpu, hocc.online], by rw [h.state]; exact hocc.alive,
      by rw [h.level]; exact hocc.level, by rw [h.mask]; exact hocc.mask,
      by rw [h.mask, h.outside, hocc.inside]⟩
  · rw [h.outgoing] at hu
    obtain ⟨hstate, v, hv, hvu, hrun⟩ := ho.handoff c hc u hu
    exact ⟨by rwa [h.state], v, by rw [h.current, hv], hvu, by rw [h.state, hrun]⟩
  · rw [h.onCpu] at hon ⊢
    rw [h.occupies]
    exact ho.owned u (h.size ▸ hu) hon
  · rw [h.idle] at hu
    have hid := ho.idle c hc u hu
    exact ⟨by rw [h.size]; exact hid.valid, by rw [h.onlineCpu, hid.online],
      hidle u (isIdle_iff.2 ⟨c, hc, hu⟩), by rw [h.onCpu]; exact hid.onCpu,
      by rw [h.state]; exact hid.alive, by rw [h.level]; exact hid.level,
      by rw [h.mask, hid.mask], by rw [h.state, h.cohort]; exact hid.awake⟩

theorem Enqueued.sameOwners (h : Enqueued r r' t c since order) : SameOwners r r' := by
  constructor
  case size => exact h.count
  case online => exact h.online
  case current | outgoing | idle =>
    intro d
    by_cases hd : d = c
    · rw [hd, h.cpu]
    · rw [h.cpus d hd]
  all_goals
    intro u
    by_cases hu : u = t
    · rw [hu, h.self]
    · rw [h.other u hu]

theorem Removed.sameOwners {p : Nat} (h : Removed r r' t c p) : SameOwners r r' := by
  obtain ⟨head, tail, hcpu, -, -⟩ := h.cpu
  constructor
  case size => exact h.count
  case online => exact h.online
  case current | outgoing | idle =>
    intro d
    by_cases hd : d = c
    · rw [hd, hcpu]
    · rw [h.cpus d hd]
  all_goals
    intro u
    by_cases hu : u = t
    · rw [hu, h.self]
    · rw [h.other u hu]

theorem SameOwners.eligible (h : SameOwners r r') (hcpu : (r'.table u).readyCpu = (r.table u).readyCpu)
    (he : Eligible r u) : Eligible r' u := by
  constructor
  · rw [h.state, he.state]
  · rw [h.onCpu, he.onCpu]
  · rw [hcpu, h.onlineCpu, he.online]
  · rw [hcpu, h.mask, he.allowed]
  · rw [h.mask, h.outside, he.inside]

theorem CanEnqueue.not_idle (h : CanEnqueue r t c) (ho : Owners r) : r.isIdle t = false := by
  by_contra hi
  obtain ⟨d, hd, hidle⟩ := isIdle_iff.1 (by simpa using hi)
  obtain rfl := ho.idle_allowed hd hidle h.allowed
  exact h.idle hidle

/-- A thread that was taken off may be queued. -/
theorem Integrity.enqueue (h : Integrity r (t :: taken)) (hc : CanEnqueue r t c)
    (he : Enqueued r r' t c since order) : Integrity r' taken := by
  obtain ⟨Q, hQ⟩ := h.shape
  have hsame := he.sameOwners
  have hqueued : ∀ u, u ≠ t → (r'.table u).readyQueued = (r.table u).readyQueued :=
    fun u hu => by rw [he.other u hu]
  refine ⟨(rqValidate_iff r').2 ⟨⟨_, hQ.enqueue hc he⟩, fun u hu hq => ?_⟩, ?_,
    fun u hu hstate hidle htaken => ?_⟩
  · by_cases hut : u = t
    · subst hut
      have hcpu : (r'.table u).readyCpu = c := by rw [he.self]
      constructor
      · rw [hsame.state, hc.state]
      · rw [hsame.onCpu, hc.onCpu]
      · rw [hcpu, hsame.onlineCpu, hc.online]
      · rw [hcpu, hsame.mask, hc.allowed]
      · rw [hsame.mask, hsame.outside, hc.inside]
    · rw [hqueued u hut] at hq
      refine hsame.eligible ?_ (h.queued u (he.count ▸ hu) hq)
      rw [he.other u hut]
  · refine hsame.owners h.owners fun u hu => ?_
    have hut : u ≠ t := by
      rintro rfl
      rw [hc.not_idle h.owners] at hu
      cases hu
    obtain ⟨d, hd, hidle⟩ := isIdle_iff.1 hu
    rw [hqueued u hut, (h.owners.idle d hd u hidle).queued]
  · by_cases hut : u = t
    · left
      rw [hut, he.self]
    · rw [hqueued u hut, hsame.onCpu]
      rw [hsame.state] at hstate
      rw [hsame.isIdle] at hidle
      exact h.ready u (he.count ▸ hu) hstate hidle fun hm =>
        htaken ((mem_cons.1 hm).resolve_left hut)

/-- A queued thread may be taken off. -/
theorem Integrity.remove (h : Integrity r taken) (hc : CanRemove r t)
    (he : Removed r r' t (r.table t).readyCpu (r.table t).schedPriority) :
    Integrity r' (t :: taken) := by
  obtain ⟨Q, hQ⟩ := h.shape
  have hsame := he.sameOwners
  have hqueued : ∀ u, u ≠ t → (r'.table u).readyQueued = (r.table u).readyQueued :=
    fun u hu => by rw [he.other u hu]
  have hout : (r'.table t).readyQueued = false := by rw [he.self]
  obtain ⟨a, b, -, hafter⟩ := hQ.remove hc he
  refine ⟨(rqValidate_iff r').2 ⟨⟨_, hafter⟩, fun u hu hq => ?_⟩, ?_,
    fun u hu hstate hidle htaken => ?_⟩
  · have hut : u ≠ t := by
      rintro rfl
      rw [hout] at hq
      cases hq
    rw [hqueued u hut] at hq
    refine hsame.eligible ?_ (h.queued u (he.count ▸ hu) hq)
    rw [he.other u hut]
  · refine hsame.owners h.owners fun u hu => ?_
    by_cases hut : u = t
    · rw [hut, hout]
    · obtain ⟨d, hd, hidle⟩ := isIdle_iff.1 hu
      rw [hqueued u hut, (h.owners.idle d hd u hidle).queued]
  · obtain ⟨hut, htaken⟩ := not_or.1 (fun hm => htaken (mem_cons.2 hm))
    rw [hqueued u hut, hsame.onCpu]
    rw [hsame.state] at hstate
    rw [hsame.isIdle] at hidle
    exact h.ready u (he.count ▸ hu) hstate hidle htaken

theorem Shape.room (h : Shape r Q) (ht : t < r.count) (hq : (r.table t).readyQueued = false)
    (hc : c < K64_CPU_MAX) : (r.cpu c).readyCount < r.count := by
  have hnd := h.nodup [c] (nodup_singleton c) fun d hd => mem_singleton.1 hd ▸ hc
  rw [flatMap_singleton] at hnd
  have hnot : t ∉ Q.all c := fun hm => by
    obtain ⟨p, hm⟩ := h.mem_all.1 hm
    exact h.not_mem hq hm
  have hle : (t :: Q.all c).length ≤ r.count := by
    refine length_le_of_nodup (nodup_cons.2 ⟨hnot, hnd⟩) fun u hu => ?_
    obtain rfl | hu := mem_cons.1 hu
    · exact ht
    · obtain ⟨p, hu⟩ := h.mem_all.1 hu
      exact ((h.mem c p u).1 hu).1
  rw [h.count c hc]
  exact hle

/-- A ready thread off the queues can be queued where `rqChoose` says. -/
theorem Integrity.canEnqueue (h : Integrity r taken) (ht : t < r.count)
    (hstate : (r.table t).state = .ready) (hq : (r.table t).readyQueued = false)
    (hon : (r.table t).onCpu = K64_CPU_NONE)
    (hlevel : (r.table t).schedPriority < SCHED_PRIORITY_LEVELS)
    (hmask : (r.table t).cpuMask ≠ 0) (hin : r.outside (r.table t).cpuMask = false)
    (hidle : r.isIdle t = false) : CanEnqueue r t (r.rqChoose (r.table t).cpuMask) := by
  obtain ⟨Q, hQ⟩ := h.shape
  obtain ⟨honl, hbit⟩ := rqChoose_spec h.owners.within hmask hin
  refine ⟨ht, honl, hstate, hq, hon, hlevel, hmask, hin, hbit, fun hi => ?_,
    hQ.room ht hq (online_lt honl)⟩
  rw [isIdle_iff.2 ⟨_, online_lt honl, hi⟩] at hidle
  cases hidle

theorem Integrity.rqEnqueue_cases (h : Integrity r taken) (t : Tid) (c : CpuId)
    (since order : Nat) :
    (¬CanEnqueue r t c ∧ r.rqEnqueue t c since order = r.fail) ∨
    (CanEnqueue r t c ∧ ∃ r', r.rqEnqueue t c since order = { rc := 0, rq := r' } ∧
      Enqueued r r' t c since order) := by
  obtain ⟨Q, hQ⟩ := h.shape
  obtain hno | ⟨hc, r', hret, he⟩ := Sched.rqEnqueue_cases r t c since order
  · exact .inl hno
  · refine .inr ⟨hc, r', hret, he fun htail => ?_⟩
    exact hQ.not_mem hc.queued (hQ.tail_mem (online_lt hc.online) hc.level htail)

theorem Integrity.rqRemove_cases (h : Integrity r taken) (t : Tid) :
    (¬CanRemove r t ∧ r.rqRemove t = r.fail) ∨
    (CanRemove r t ∧ ∃ r', r.rqRemove t = { rc := 0, rq := r' } ∧
      Removed r r' t (r.table t).readyCpu (r.table t).schedPriority) := by
  obtain ⟨Q, hQ⟩ := h.shape
  exact Sched.rqRemove_cases hQ t

end Win98Modern.Sched
