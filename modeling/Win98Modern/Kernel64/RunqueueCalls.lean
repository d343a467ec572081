import Win98Modern.Kernel64.RunqueueOwners

/-!
# Each call keeps the order

`Kept r taken ret`: the call that returned `ret` on `r` left the integrity, held its
`KASSERT`, changed nothing if it failed, and did not lose a ready thread.  One lemma for each
call of `sched_cpu.h`, and for what `schedule` does to the thread that gives the CPU up.
-/

namespace Win98Modern.Sched

open Function List

variable {r r' : Runqueues} {Q : Queues} {t u : Tid} {c d : CpuId} {taken : List Tid}

structure Kept (r : Runqueues) (taken : List Tid) (ret : Ret) : Prop where
  integrity : Integrity ret.rq taken
  kassert : ret.kassert = true
  failed : ret.rc = -1 → ret.rq = r
  ready : ∀ u < r.count, (r.table u).state = .ready →
    (ret.rq.table u).state = .ready ∨ (ret.rq.table u).state = .running

theorem Integrity.mono (h : Integrity r taken) (t : Tid) : Integrity r (t :: taken) :=
  ⟨h.valid, h.owners, fun u hu hs hi hm =>
    h.ready u hu hs hi fun hin => hm (mem_cons_of_mem t hin)⟩

theorem Kept.same (h : Integrity r taken) (rc : Int) : Kept r taken { rc := rc, rq := r } :=
  ⟨h, rfl, fun _ => rfl, fun _ _ => .inl⟩

theorem Kept.fail (h : Integrity r taken) : Kept r taken r.fail := Kept.same h (-1)

theorem Integrity.canRemove (h : Integrity r taken) (ht : t < r.count)
    (hq : (r.table t).readyQueued = true) : CanRemove r t := by
  obtain ⟨Q, hQ⟩ := h.shape
  have hm := (hQ.mem _ _ t).2 ⟨ht, hq, rfl, rfl⟩
  exact ⟨ht, hq, (h.queued t ht hq).online, (hQ.level _ _ t hm).2⟩

/-- A ready thread that is nowhere is queued. -/
theorem Integrity.requeue {th : Thread} (h : Integrity r (t :: taken)) (hself : r.table t = th)
    (ht : t < r.count) (hs : th.state = .ready) (hq : th.readyQueued = false)
    (hon : th.onCpu = K64_CPU_NONE) (hlevel : th.schedPriority < SCHED_PRIORITY_LEVELS)
    (hmask : th.cpuMask ≠ 0) (hin : r.outside th.cpuMask = false) (hidle : r.isIdle t = false)
    (since order : Nat) : ∃ r', r.rqEnqueue t (r.rqChoose th.cpuMask) since order =
      { rc := 0, rq := r' } ∧ Enqueued r r' t (r.rqChoose th.cpuMask) since order ∧
        Integrity r' taken := by
  subst hself
  have hcan := h.canEnqueue ht hs hq hon hlevel hmask hin hidle
  obtain ⟨hno, -⟩ | ⟨hc, r', hret, he⟩ := h.rqEnqueue_cases t _ since order
  · exact absurd hcan hno
  · exact ⟨r', hret, he, h.enqueue hc he⟩

theorem rqEnqueue_kept (h : Integrity r taken) (t : Tid) (c : CpuId) (since order : Nat) :
    Kept r taken (r.rqEnqueue t c since order) := by
  obtain ⟨-, hret⟩ | ⟨hc, r', hret, he⟩ := h.rqEnqueue_cases t c since order
  · rw [hret]
    exact Kept.fail h
  · rw [hret]
    refine ⟨(h.mono t).enqueue hc he, rfl, by simp, fun u _ hs => .inl ?_⟩
    exact (he.sameOwners.state u).trans hs

theorem rqRemove_kept (h : Integrity r taken) (t : Tid) :
    Kept r (if (r.rqRemove t).rc = 0 then t :: taken else taken) (r.rqRemove t) := by
  obtain ⟨-, hret⟩ | ⟨hc, r', hret, he⟩ := h.rqRemove_cases t
  · rw [hret]
    exact Kept.fail h
  · rw [hret]
    refine ⟨h.remove hc he, rfl, by simp, fun u _ hs => .inl ?_⟩
    exact (he.sameOwners.state u).trans hs

/-! ### Workers -/

/-- `th` differs from the thread in the state and in what only the scheduler reads. -/
structure SameBut (t th : Thread) : Prop where
  prev : th.readyPrev = t.readyPrev
  next : th.readyNext = t.readyNext
  queued : th.readyQueued = t.readyQueued
  readyCpu : th.readyCpu = t.readyCpu
  onCpu : th.onCpu = t.onCpu
  cohort : th.apKernelCohort = t.apKernelCohort
  level : th.schedPriority = t.schedPriority
  mask : th.cpuMask = t.cpuMask

theorem SameBut.fits {th : Thread} (hb : SameBut (r.table t) th) (ho : Owners r)
    (hq : (r.table t).readyQueued = false) (halive : th.state ≠ .new ∧ th.state ≠ .free)
    (hleaving : ∀ c < K64_CPU_MAX, (r.cpu c).outgoing = some t → th.state ≠ .running)
    (harriving : ∀ c < K64_CPU_MAX, (r.cpu c).current = some t → (r.cpu c).outgoing ≠ none →
      th.state = .running)
    (hidle : r.isIdle t = true → th.apKernelCohort = K64_AP_WORKER_CLASS → th.state ≠ .blocked) :
    Fits r t th := by
  refine ⟨hb.prev, hb.next, hb.queued, hb.readyCpu, hb.onCpu, hb.cohort, fun hin => ?_,
    fun c hc ht => ?_, hleaving, harriving, fun hi => ?_⟩
  · rw [hq] at hin
    cases hin
  · have hocc := ho.occupant c hc t ht
    rw [hb.level, hb.mask]
    exact ⟨halive, hocc.level, hocc.mask, hocc.inside⟩
  · obtain ⟨c, hc, hci⟩ := isIdle_iff.1 hi
    rw [hb.level, hb.mask]
    exact ⟨rfl, halive, (ho.idle c hc t hci).level, hidle hi⟩

theorem Owners.idle_here (h : Owners r) (hc : c < K64_CPU_MAX) (hd : d < K64_CPU_MAX)
    (ht : r.occupies c t = true) (hi : (r.cpu d).idle = some t) : d = c := by
  have hon := (h.occupant c hc t ht).onCpu
  obtain hnone | hcpu := (h.idle d hd t hi).onCpu
  · exact absurd (hon.symm.trans hnone) (none_ge hc)
  · exact hcpu.symm.trans hon

theorem setThread_state (r : Runqueues) (t : Tid) (th : Thread)
    (h : (r.table t).state = .ready → th.state = .ready ∨ th.state = .running) (u : Tid)
    (hu : (r.table u).state = .ready) : ((r.setThread t th).table u).state = .ready ∨
      ((r.setThread t th).table u).state = .running := by
  by_cases hut : u = t
  · subst hut
    simpa [Runqueues.setThread] using h hu
  · left
    simpa [Runqueues.setThread, hut] using hu

theorem rqWorkPark_kept (h : Integrity r taken) (c : CpuId) (t : Tid) :
    Kept r taken (r.rqWorkPark c t) := by
  unfold Runqueues.rqWorkPark
  simp only
  split
  · exact Kept.fail h
  · rename_i hg
    simp only [not_or, Decidable.not_not, Bool.not_eq_true', Bool.not_eq_true] at hg
    obtain ⟨-, hon, hv, -, -, hcur, hid, hrun, hcpu, hq, hout⟩ := hg
    have hclt := online_lt (by simpa using hon)
    have hocc : r.occupies c t = true := occupies_iff.2 (.inl hcur)
    have hidle : r.isIdle t = false := by
      by_contra hi
      obtain ⟨d, hd, hi⟩ := isIdle_iff.1 (by simpa using hi)
      exact hid (h.owners.idle_here hclt hd hocc hi ▸ hi)
    have hfits : Fits r t { r.table t with state := .blocked, agingServiceLeft := 0 } := by
      refine SameBut.fits ⟨rfl, rfl, rfl, rfl, rfl, rfl, rfl, rfl⟩ h.owners hq ⟨nofun, nofun⟩
        (fun _ _ _ => by simp) (fun d hd hcd ho => ?_) fun hi => ?_
      · obtain rfl := h.owners.unique hclt hd hocc (occupies_iff.2 (.inl hcd))
        exact absurd hout ho
      · rw [hidle] at hi
        cases hi
    refine ⟨hfits.integrity h nofun, rfl, by simp, fun u _ => setThread_state r t _ ?_ u⟩
    intro hs
    rw [hrun] at hs
    cases hs

/-- What `rqWorkWake` asks of the thread, whatever its state is. -/
structure CanWake (r : Runqueues) (t : Tid) : Prop where
  valid : t < r.count
  worker : (r.table t).apKernelCohort = K64_AP_WORKER_CLASS
  safe : (r.table t).cohortSafe = true
  mask : (r.table t).cpuMask ≠ 0
  apart : (r.table t).cpuMask.getLsbD 0 = false
  inside : r.outside (r.table t).cpuMask = false
  level : (r.table t).schedPriority < SCHED_PRIORITY_LEVELS
  quantum : 0 < (r.table t).quantumTicks ∧ (r.table t).quantumTicks ≤ SCHED_MAX_QUANTUM_TICKS

/-- The wake of `t` is not lost: after 0 it is ready or runs, and a blocked worker gets 0, also while its
stack is handed off. -/
structure Woken (r : Runqueues) (t : Tid) (ret : Ret) : Prop where
  done : ret.rc = 0 → (ret.rq.table t).state = .ready ∨ (ret.rq.table t).state = .running
  accepted : CanWake r t → (r.table t).state = .blocked → ret.rc = 0

theorem rqWorkWake_spec (h : Integrity r taken) (t : Tid) (now order : Nat) :
    Kept r taken (r.rqWorkWake t now order) ∧ Woken r t (r.rqWorkWake t now order) := by
  unfold Runqueues.rqWorkWake
  simp only
  split
  · rename_i hg
    refine ⟨Kept.fail h, nofun, fun hc _ => ?_⟩
    have hq := hc.quantum
    obtain hg | hg | hg | hg | hg | hg | hg | hg | hg := hg
    · simp [Runqueues.valid, hc.valid] at hg
    · exact absurd hc.worker hg
    · simp [hc.safe] at hg
    · exact absurd hg hc.mask
    · rw [hc.apart] at hg
      cases hg
    · simp [hc.inside] at hg
    · exact absurd hc.level (Nat.not_lt.2 hg)
    · omega
    · omega
  rename_i hg
  simp only [not_or, Decidable.not_not, Bool.not_eq_true', Bool.not_eq_true, Bool.not_eq_false,
    Nat.not_le] at hg
  obtain ⟨hv, hclass, -, hmask, -, hin, hlevel, -, -⟩ := hg
  have hv : t < r.count := by simpa [Runqueues.valid] using hv
  split
  · rename_i hs
    split
    · exact ⟨Kept.same h 0, fun _ => ‹_›, fun _ hb => absurd hb hs⟩
    · exact ⟨Kept.fail h, nofun, fun _ hb => absurd hb hs⟩
  rename_i hs
  have hs := Decidable.not_not.1 hs
  have hq : (r.table t).readyQueued = false := by
    by_contra hq
    have hready := (h.queued t hv (by simpa using hq)).state
    rw [hs] at hready
    cases hready
  split
  · -- a blocked thread is on no queue, and on a CPU only as current or outgoing
    rename_i hg
    obtain ⟨Q, hQ⟩ := h.shape
    obtain ⟨hp, hn⟩ := hQ.idle t hv hq
    refine ⟨Kept.fail h, nofun, fun _ _ => ?_⟩
    obtain hg | hg | hg | ⟨hon, hg⟩ := hg
    · rw [hq] at hg
      cases hg
    · exact absurd hp hg
    · exact absurd hn hg
    · obtain ⟨hlt, hocc⟩ := h.owners.owned t hv hon
      simp [(h.owners.occupant _ hlt t hocc).online, hocc] at hg
  rename_i hg
  simp only [not_or] at hg
  obtain ⟨-, -, -, hown⟩ := hg
  have hidle : r.isIdle t = false := by
    by_contra hi
    obtain ⟨d, hd, hi⟩ := isIdle_iff.1 (by simpa using hi)
    exact (h.owners.idle d hd t hi).awake hclass hs
  have hfits : Fits r t { r.table t with
      state := .ready, readySince := now, readyOrder := order, agingServiceLeft := 0 } := by
    refine SameBut.fits ⟨rfl, rfl, rfl, rfl, rfl, rfl, rfl, rfl⟩ h.owners hq ⟨by simp, by simp⟩
      (fun _ _ _ => by simp) (fun d hd hcd ho => ?_) fun _ _ => by simp
    obtain ⟨u, hu⟩ := Option.ne_none_iff_exists'.1 ho
    obtain ⟨-, v, hvc, -, hrun⟩ := h.owners.handoff d hd u hu
    obtain rfl := Option.some.inj (hcd.symm.trans hvc)
    rw [hs] at hrun
    cases hrun
  have hself : (r.setThread t { r.table t with
      state := .ready, readySince := now, readyOrder := order, agingServiceLeft := 0 }).table t =
      { r.table t with
        state := .ready, readySince := now, readyOrder := order, agingServiceLeft := 0 } :=
    update_self ..
  have hstate := setThread_state r t { r.table t with
    state := .ready, readySince := now, readyOrder := order, agingServiceLeft := 0 }
    fun _ => .inl rfl
  split
  · rename_i hnone
    have hmid := hfits.integrity (h.mono t) fun _ _ hm => absurd mem_cons_self hm
    obtain ⟨r', hret, he, hint⟩ := hmid.requeue hself hv rfl hq hnone hlevel hmask hin hidle now order
    rw [hret]
    refine ⟨⟨hint, rfl, by simp, fun u hu hur => ?_⟩, fun _ => .inl ?_, fun _ _ => rfl⟩
    · rw [he.sameOwners.state]
      exact hstate u hur
    · rw [he.sameOwners.state, hself]
  · rename_i hon
    have hown := not_or.1 fun hx => hown ⟨hon, hx⟩
    simp only [Bool.not_eq_true', Bool.not_eq_false] at hown
    refine ⟨⟨hfits.integrity h fun _ _ _ => .inr hon, ?_, by simp, fun u _ => hstate u⟩, fun _ => .inl ?_,
      fun _ _ => rfl⟩
    · show (r.online _ && r.occupies _ t) = true
      rw [hown.1, hown.2]
      rfl
    · rw [hself]

theorem rqWorkMove_kept (h : Integrity r taken) (t : Tid) (destination : CpuId) :
    Kept r taken (r.rqWorkMove t destination) := by
  unfold Runqueues.rqWorkMove
  simp only
  split
  · exact Kept.fail h
  rename_i hg
  simp only [not_or, Decidable.not_not, Bool.not_eq_true', Bool.not_eq_true, Bool.not_eq_false] at hg
  obtain ⟨hv, -, -, -, hon, hs, hcpu, hq, -, -, -, -, -, -, -, -⟩ := hg
  split
  · exact Kept.fail h
  rename_i hany
  simp only [any_eq_true, mem_range, Bool.or_eq_true, beq_iff_eq, not_exists, not_and,
    not_or] at hany
  refine ⟨Fits.integrity ?_ h ?_, rfl, by simp, fun u _ => setThread_state r t _ ?_ u⟩
  · refine ⟨rfl, rfl, rfl, rfl, rfl, rfl, fun hin => ?_, fun c hc ht => ?_, fun c hc ht => ?_,
      fun c hc ht _ => ?_, fun hi => ?_⟩
    · rw [hq] at hin
      cases hin
    · exact absurd ht (hany c hc).1
    · exact absurd (occupies_iff.2 (.inr ht)) (hany c hc).1
    · exact absurd (occupies_iff.2 (.inl ht)) (hany c hc).1
    · obtain ⟨c, hc, hci⟩ := isIdle_iff.1 hi
      exact absurd hci (hany c hc).2
  · intro hready
    exact absurd (hs.symm.trans hready) nofun
  · intro hready
    exact absurd (hs.symm.trans hready) nofun

/-! ### Policy -/

/-- While a hand-off is going on, the thread that arrives runs. -/
theorem Owners.arriving (h : Owners r) (hc : c < K64_CPU_MAX) (ht : (r.cpu c).current = some t)
    (ho : (r.cpu c).outgoing ≠ none) : (r.table t).state = .running := by
  obtain ⟨u, hu⟩ := Option.ne_none_iff_exists'.1 ho
  obtain ⟨-, v, hv, -, hrun⟩ := h.handoff c hc u hu
  obtain rfl := Option.some.inj (ht.symm.trans hv)
  exact hrun

/-- The fields that `rqPolicy` writes. -/
def Thread.policy (th : Thread) (priority quantum : Nat) (mask : BitVec 64) : Thread :=
  { th with
    schedPriority := priority
    quantumTicks := quantum
    quantumLeft := if th.state ≠ .running ∨ quantum < th.quantumLeft then quantum
      else th.quantumLeft
    cpuMask := mask }

variable {priority : Nat} {mask : BitVec 64} {prev next : Tid}

theorem policy_fits (quantum : Nat) (ho : Owners r) (hlevel : priority < SCHED_PRIORITY_LEVELS)
    (hmask : mask ≠ 0) (hin : r.outside mask = false) (hidle : r.isIdle t = false)
    (hstay : (r.table t).readyQueued = true → priority = (r.table t).schedPriority ∧
      mask.getLsbD (r.table t).readyCpu = true) :
    Fits r t ((r.table t).policy priority quantum mask) := by
  refine ⟨rfl, rfl, rfl, rfl, rfl, rfl, fun hq => ?_, fun c hc ht => ?_, fun c hc ht => ?_,
    fun c hc ht hout => ho.arriving hc ht hout, fun hi => ?_⟩
  · exact ⟨rfl, (hstay hq).1, (hstay hq).2, hin⟩
  · exact ⟨(ho.occupant c hc t ht).alive, hlevel, hmask, hin⟩
  · exact (ho.handoff c hc t ht).1
  · rw [hidle] at hi
    cases hi

theorem policy_move (h : Integrity r taken) (quantum : Nat) (now order : Nat) (ht : t < r.count)
    (hq : (r.table t).readyQueued = true) (hlevel : priority < SCHED_PRIORITY_LEVELS)
    (hmask : mask ≠ 0) (hin : r.outside mask = false) (hidle : r.isIdle t = false) :
    ∃ r₁, r.rqRemove t = { rc := 0, rq := r₁ } ∧
      ∃ r₃, (r₁.setThread t ((r₁.table t).policy priority quantum mask)).rqEnqueue t
          ((r₁.setThread t ((r₁.table t).policy priority quantum mask)).rqChoose mask) now order =
          { rc := 0, rq := r₃ } ∧
        Integrity r₃ taken ∧ ∀ u, (r₃.table u).state = (r.table u).state := by
  have hel := h.queued t ht hq
  obtain ⟨hno, -⟩ | ⟨hc, r₁, hret, he⟩ := h.rqRemove_cases t
  · exact absurd (h.canRemove ht hq) hno
  have hmid := h.remove hc he
  have hsame := he.sameOwners
  have hout : (r₁.table t).readyQueued = false := by rw [he.self]
  have hin₁ : r₁.outside mask = false := by rw [hsame.outside, hin]
  have hidle₁ : r₁.isIdle t = false := by rw [hsame.isIdle, hidle]
  have hfits : Fits r₁ t ((r₁.table t).policy priority quantum mask) :=
    policy_fits quantum hmid.owners hlevel hmask hin₁ hidle₁ fun hq => by
      rw [hout] at hq
      cases hq
  have hset := hfits.integrity hmid fun _ _ hm => absurd mem_cons_self hm
  have hself : (r₁.setThread t ((r₁.table t).policy priority quantum mask)).table t =
      (r₁.table t).policy priority quantum mask := update_self ..
  obtain ⟨r₃, hret₂, he₂, hint⟩ := hset.requeue hself (he.count ▸ ht)
    ((hsame.state t).trans hel.state) hout ((hsame.onCpu t).trans hel.onCpu) hlevel hmask hin₁ hidle₁
    now order
  refine ⟨r₁, hret, r₃, hret₂, hint, fun u => ?_⟩
  rw [he₂.sameOwners.state, ← hsame.state]
  by_cases hu : u = t
  · rw [hu, hself]
    rfl
  · exact congrArg Thread.state (update_of_ne hu ..)

theorem rqPolicy_kept (h : Integrity r taken) (t : Tid) (priority quantum : Nat)
    (mask : BitVec 64) (now order : Nat) :
    Kept r taken (r.rqPolicy t priority quantum mask now order) := by
  unfold Runqueues.rqPolicy
  simp only
  split
  · exact Kept.fail h
  rename_i hg
  simp only [not_or, Bool.not_eq_true', Bool.not_eq_true, Bool.not_eq_false, Nat.not_le] at hg
  obtain ⟨hv, hfree, hzombie, hlevel, -, -, hmask, hin, hhere⟩ := hg
  have ht : t < r.count := by simpa [Runqueues.valid] using hv
  split
  · exact Kept.fail h
  split
  · exact Kept.fail h
  rename_i hidle
  have hidle : r.isIdle t = false := by simpa [Runqueues.isIdle] using hidle
  cases hmove : ((r.table t).readyQueued && (decide (priority ≠ (r.table t).schedPriority) ||
      !mask.getLsbD (r.table t).readyCpu)) with
  | true =>
    have hq : (r.table t).readyQueued = true := (Bool.and_eq_true_iff.1 hmove).1
    obtain ⟨r₁, hrem, r₃, henq, hint, hstate⟩ :=
      policy_move h quantum now order ht hq hlevel hmask hin hidle
    simp only [Thread.policy] at henq
    simp only [if_true, hrem, henq]
    exact ⟨hint, rfl, by simp, fun u _ hu => .inl ((hstate u).trans hu)⟩
  | false =>
    have hfits : Fits r t ((r.table t).policy priority quantum mask) := by
      refine policy_fits quantum h.owners hlevel hmask hin hidle fun hq => ?_
      simpa [hq] using hmove
    refine ⟨hfits.integrity h fun hs hi hm => h.ready t ht hs hi hm, rfl, by simp, fun u _ => ?_⟩
    exact setThread_state r t ((r.table t).policy priority quantum mask) .inl u

/-! ### Giving up the CPU -/

/-- How the thread that runs gives the CPU up. -/
inductive Leaving
  | yield (now order : Nat)
  | block
  | exit
  deriving DecidableEq, Repr

/-- What the caller of `k64_rq_dispatch_locked` has done to the current thread, under the same
ticket (`schedule`) or before (`thread_block_current`, `thread_exit`). -/
def Runqueues.leave (r : Runqueues) (c : CpuId) (how : Leaving) : Ret :=
  match (r.cpu c).current with
  | none => { rc := 0, rq := r }
  | some t =>
    let th := r.table t
    if !r.online c ∨ th.state ≠ .running ∨ (r.cpu c).outgoing ≠ none then { rc := 0, rq := r }
    else
      { rc := 0
        rq := r.setThread t (match how with
          | .yield now order => { th with
              state := .ready, readySince := now, readyOrder := order, agingServiceLeft := 0 }
          | .block => { th with state := .blocked, agingServiceLeft := 0 }
          | .exit => { th with state := .zombie, agingServiceLeft := 0 }) }

theorem leave_kept (h : Integrity r taken) (c : CpuId) (how : Leaving)
    (hidle : how = .block → ∀ t, (r.cpu c).current = some t → (r.cpu c).idle = some t →
      (r.table t).apKernelCohort ≠ K64_AP_WORKER_CLASS) : Kept r taken (r.leave c how) := by
  unfold Runqueues.leave
  split
  · exact Kept.same h 0
  rename_i t hcur
  simp only
  split
  · exact Kept.same h 0
  rename_i hg
  simp only [not_or, Decidable.not_not, Bool.not_eq_true', Bool.not_eq_false] at hg
  obtain ⟨hon, hrun, hout⟩ := hg
  have hclt := online_lt hon
  have hocc : r.occupies c t = true := occupies_iff.2 (.inl hcur)
  have hone := (h.owners.occupant c hclt t hocc).onCpu
  have hfits : ∀ th, SameBut (r.table t) th → (th.state = .ready ∨ th.state = .blocked ∧
      how = .block ∨ th.state = .zombie) → Kept r taken { rc := 0, rq := r.setThread t th } := by
    intro th hb hs
    have hfits : Fits r t th := by
      refine hb.fits h.owners (h.unqueued hclt hocc) ?_ (fun _ _ _ hr => ?_)
        (fun d hd hcd ho => ?_) fun hi hw hblock => ?_
      · obtain hs | ⟨hs, -⟩ | hs := hs
        all_goals
          rw [hs]
          exact ⟨nofun, nofun⟩
      · rw [hr] at hs
        simp at hs
      · obtain rfl := h.owners.unique hclt hd hocc (occupies_iff.2 (.inl hcd))
        exact absurd hout ho
      · obtain ⟨d, hd, hi⟩ := isIdle_iff.1 hi
        obtain rfl := h.owners.idle_here hclt hd hocc hi
        rw [hblock] at hs
        obtain hs | ⟨-, hs⟩ | hs := hs
        · cases hs
        · exact hidle hs t hcur hi (hb.cohort.symm.trans hw)
        · cases hs
    refine ⟨hfits.integrity h fun _ _ _ => .inr ?_, rfl, by simp, fun u _ => ?_⟩
    · rw [hone]
      exact none_ge hclt
    · refine setThread_state r t th (fun hs => ?_) u
      rw [hrun] at hs
      cases hs
  cases how with
  | yield now order =>
    exact hfits _ ⟨rfl, rfl, rfl, rfl, rfl, rfl, rfl, rfl⟩ (.inl rfl)
  | block => exact hfits _ ⟨rfl, rfl, rfl, rfl, rfl, rfl, rfl, rfl⟩ (.inr (.inl ⟨rfl, rfl⟩))
  | exit => exact hfits _ ⟨rfl, rfl, rfl, rfl, rfl, rfl, rfl, rfl⟩ (.inr (.inr rfl))

/-! ### A thread and a CPU -/

/-- A call writes the record of `c` and that of `t`, and no queue. -/
structure Touched (r r' : Runqueues) (c : CpuId) (t : Tid) : Prop where
  queues : SameQueues r r'
  other : ∀ u, u ≠ t → r'.table u = r.table u
  cpus : ∀ d, d ≠ c → r'.cpu d = r.cpu d

theorem touched_write (th : Thread) (current idle : Option Tid) (mask : BitVec 64)
    (hs : SameQueues r (r.setThread t th)) :
    Touched r { (r.setThread t th).setCpu c { r.cpu c with current := current, idle := idle } with
      onlineMask := mask } c t := by
  have hset := hs.trans (sameQueues_setCpu _ c current idle (r.cpu c).outgoing)
  refine ⟨⟨hset.prev, hset.next, hset.queued, hset.readyCpu, hset.level, hset.head, hset.tail,
    hset.mask, hset.count, hset.size⟩, fun u hu => ?_, fun d hd => ?_⟩
  · simp [Runqueues.setThread, Runqueues.setCpu, hu]
  · simp [Runqueues.setThread, Runqueues.setCpu, hd]

/-- What such a call has made of `c` and of `t` is in order, and the others still fit their CPUs. -/
structure Settled (r r' : Runqueues) (c : CpuId) (t : Tid) : Prop extends Touched r r' c t where
  within : ∀ d, r'.onlineMask.getLsbD d = true → d < K64_CPU_MAX
  online : ∀ d, d ≠ c → r.online d = true → r'.online d = true
  inside : ∀ u < r.count, u ≠ t →
    (r.table u).readyQueued = true ∨ (r.table u).onCpu ≠ K64_CPU_NONE →
    r.outside (r.table u).cpuMask = false → r'.outside (r.table u).cpuMask = false
  queued : (r.table t).readyQueued = false
  apart : ∀ d < K64_CPU_MAX, d ≠ c → ∀ u, r.occupies d u = true → u ≠ t
  occupant : ∀ u, r'.occupies c u = true → Occupant r' c u
  handoff : ∀ u, (r'.cpu c).outgoing = some u → (r'.table u).state ≠ .running ∧
    ∃ v, (r'.cpu c).current = some v ∧ v ≠ u ∧ (r'.table v).state = .running
  owned : (r'.table t).onCpu ≠ K64_CPU_NONE →
    (r'.table t).onCpu < K64_CPU_MAX ∧ r'.occupies (r'.table t).onCpu t = true
  stays : ∀ u, u ≠ t → r.occupies c u = true → r'.occupies c u = true
  idle : ∀ d < K64_CPU_MAX, ∀ u, (r'.cpu d).idle = some u → u = t ∨ d = c → IdleOf r' d u
  idles : ∀ u, u ≠ t → (r.cpu c).idle = some u → (r'.cpu c).idle = some u

theorem onlineCpu_iff : r.online c = true ↔ c < K64_CPU_MAX ∧ r.onlineMask.getLsbD c = true := by
  simp [Runqueues.online]

theorem Settled.integrity {taken' : List Tid} (ha : Settled r r' c t)
    (h : Integrity r (t :: taken)) (hsub : ∀ u ∈ taken, u ∈ taken')
    (hself : (r'.table t).state = .ready → t ∈ taken') : Integrity r' taken' := by
  refine ⟨ha.queues.valid h.valid fun u hu hq he => ?_, ⟨ha.within, fun d hd u hu => ?_,
    fun d hd u hu => ?_, fun u hu hne => ?_, fun d hd u hu => ?_⟩, fun u hu hs hi hm => ?_⟩
  · have hut : u ≠ t := by
      rintro rfl
      rw [ha.queued] at hq
      cases hq
    have hin := ha.inside u hu hut (.inl hq) he.inside
    have hbit := outside_eq_false.1 hin _ he.allowed
    exact he.congr (ha.other u hut) (onlineCpu_iff.2 ⟨ha.within _ hbit, hbit⟩) hin
  · by_cases hdc : d = c
    · rw [hdc] at hu ⊢
      exact ha.occupant u hu
    · rw [occupies_iff, ha.cpus d hdc, ← occupies_iff] at hu
      have ho := h.owners.occupant d hd u hu
      have hut := ha.apart d hd hdc u hu
      exact ho.congr (ha.other u hut) ha.queues.size (ha.online d hdc ho.online)
        (ha.inside u ho.valid hut (.inr (ho.onCpu ▸ none_ge hd)) ho.inside)
  · by_cases hdc : d = c
    · rw [hdc] at hu ⊢
      exact ha.handoff u hu
    · rw [ha.cpus d hdc] at hu ⊢
      obtain ⟨hs, v, hv, hvu, hrun⟩ := h.owners.handoff d hd u hu
      rw [ha.other u (ha.apart d hd hdc u (occupies_iff.2 (.inr hu)))]
      refine ⟨hs, v, hv, hvu, ?_⟩
      rw [ha.other v (ha.apart d hd hdc v (occupies_iff.2 (.inl hv))), hrun]
  · by_cases hut : u = t
    · rw [hut] at hne ⊢
      exact ha.owned hne
    · rw [ha.other u hut] at hne ⊢
      obtain ⟨hlt, hud⟩ := h.owners.owned u (ha.queues.size ▸ hu) hne
      refine ⟨hlt, ?_⟩
      by_cases hdc : (r.table u).onCpu = c
      · rw [hdc] at hud ⊢
        exact ha.stays u hut hud
      · rw [occupies_iff, ha.cpus _ hdc, ← occupies_iff]
        exact hud
  · by_cases hc : u = t ∨ d = c
    · exact ha.idle d hd u hu hc
    · obtain ⟨hut, hdc⟩ := not_or.1 hc
      rw [ha.cpus d hdc] at hu
      have hid := h.owners.idle d hd u hu
      exact hid.congr (ha.other u hut) ha.queues.size (ha.online d hdc hid.online)
  · have hut : u ≠ t := by
      rintro rfl
      exact hm (hself hs)
    rw [ha.other u hut] at hs ⊢
    refine h.ready u (ha.queues.size ▸ hu) hs ?_
      fun hin => hm (hsub u ((mem_cons.1 hin).resolve_left hut))
    by_contra hid
    obtain ⟨d, hd, hid⟩ := isIdle_iff.1 (by simpa using hid)
    have hidle : (r'.cpu d).idle = some u := by
      by_cases hdc : d = c
      · rw [hdc] at hid ⊢
        exact ha.idles u hut hid
      · rw [ha.cpus d hdc, hid]
    rw [isIdle_iff.2 ⟨d, hd, hidle⟩] at hi
    cases hi

/-! ### Hand-offs -/

/-- What makes `next` the thread that runs on `c`, with `prev` still to be saved. -/
structure Dispatched (r r' : Runqueues) (c : CpuId) (prev next : Tid) : Prop
    extends Touched r r' c next where
  running : (r'.table next).state = .running
  onCpu : (r'.table next).onCpu = c
  level : (r'.table next).schedPriority = (r.table next).schedPriority
  mask : (r'.table next).cpuMask = (r.table next).cpuMask
  current : (r'.cpu c).current = some next
  outgoing : (r'.cpu c).outgoing = some prev
  idle : ∀ d, (r'.cpu d).idle = (r.cpu d).idle
  online : r'.onlineMask = r.onlineMask

/-- `next` can take over from `prev` on `c`. -/
structure CanTake (r : Runqueues) (c : CpuId) (prev next : Tid) : Prop where
  online : r.online c = true
  valid : next < r.count
  current : (r.cpu c).current = some prev
  outgoing : (r.cpu c).outgoing = none
  left : (r.table prev).state ≠ .running
  ne : next ≠ prev
  alive : (r.table next).state = .ready
  queued : (r.table next).readyQueued = false
  onCpu : (r.table next).onCpu = K64_CPU_NONE
  level : (r.table next).schedPriority < SCHED_PRIORITY_LEVELS
  allowed : (r.table next).cpuMask.getLsbD c = true
  inside : r.outside (r.table next).cpuMask = false

theorem Dispatched.occupies_iff (h : Dispatched r r' c prev next) :
    r'.occupies c t = true ↔ t = next ∨ t = prev := by
  rw [Sched.occupies_iff, h.current, h.outgoing]
  simp [eq_comm]

theorem Dispatched.settled (h : Dispatched r r' c prev next) (hc : CanTake r c prev next)
    (ho : Owners r) : Settled r r' c next := by
  have hclt := online_lt hc.online
  have hprev := ho.current hclt hc.current
  have hout : ∀ mask, r'.outside mask = r.outside mask := fun mask => by
    unfold Runqueues.outside
    rw [h.online]
  have honl : ∀ d, r'.online d = r.online d := fun d => by
    unfold Runqueues.online
    rw [h.online]
  refine { h with
    within := fun d hd => ho.within d (h.online ▸ hd), online := fun d _ hd => by rw [honl, hd]
    inside := fun u _ _ _ hin => by rw [hout, hin], queued := hc.queued, apart := ?_, occupant := ?_
    handoff := ?_, owned := fun _ => ?_, stays := fun u _ hu => ?_, idle := fun d hd u hu _ => ?_
    idles := fun u _ hu => by rw [h.idle, hu] }
  · rintro d hd - u hu rfl
    exact none_ge hd ((ho.occupant d hd u hu).onCpu.symm.trans hc.onCpu)
  · intro u hu
    obtain rfl | rfl := h.occupies_iff.1 hu
    · refine ⟨h.queues.size ▸ hc.valid, h.onCpu, by rw [honl, hc.online],
        by rw [h.running]; exact ⟨nofun, nofun⟩, by rw [h.level]; exact hc.level, ?_,
        by rw [h.mask, hout, hc.inside]⟩
      rw [h.mask]
      intro hz
      have hbit := hc.allowed
      rw [hz] at hbit
      simp at hbit
    · exact hprev.congr (h.other u hc.ne.symm) h.queues.size (by rw [honl, hprev.online])
        (by rw [hout, hprev.inside])
  · intro u hu
    obtain rfl := Option.some.inj (h.outgoing.symm.trans hu)
    rw [h.other prev hc.ne.symm]
    exact ⟨hc.left, next, h.current, hc.ne, h.running⟩
  · rw [h.onCpu]
    exact ⟨hclt, h.occupies_iff.2 (.inl rfl)⟩
  · obtain hcur | hcout := Sched.occupies_iff.1 hu
    · exact h.occupies_iff.2 (.inr (Option.some.inj (hcur.symm.trans hc.current)))
    · rw [hc.outgoing] at hcout
      cases hcout
  · rw [h.idle] at hu
    have hi := ho.idle d hd u hu
    by_cases hun : u = next
    · subst hun
      have hdc := ho.idle_allowed hd hu hc.allowed
      exact ⟨h.queues.size ▸ hi.valid, by rw [honl, hi.online],
        by rw [h.queues.queued, hi.queued], .inr (h.onCpu.trans hdc),
        by rw [h.running]; exact ⟨nofun, nofun⟩, by rw [h.level]; exact hi.level,
        by rw [h.mask, hi.mask], by rw [h.running]; exact fun _ => nofun⟩
    · exact hi.congr (h.other u hun) h.queues.size (by rw [honl, hi.online])

theorem Dispatched.integrity (h : Dispatched r r' c prev next) (hc : CanTake r c prev next)
    (hr : Integrity r (next :: taken)) : Integrity r' taken := by
  refine (h.settled hc hr.owners).integrity hr (fun _ => id) fun hs => ?_
  rw [h.running] at hs
  cases hs

theorem dispatched_of_writes {prev next : Tid} {th : Thread} (hb : SameBut (r.table next) th)
    (hrun : th.state = .running) (hq : (r.table next).readyQueued = false) :
    let m := r.setThread next th
    let m := m.setThread next { m.table next with onCpu := c }
    Dispatched r (m.setCpu c { m.cpu c with current := some next, outgoing := some prev })
      c prev next := by
  have hnot : (r.table next).readyQueued = true → False := by
    intro h
    rw [hq] at h
    cases h
  refine ⟨⟨?_, fun u hu => ?_, fun d hd => ?_⟩, ?_, ?_, ?_, ?_, ?_, ?_, fun d => ?_, rfl⟩
  · refine (sameQueues_setThread r next th hb.prev hb.next hb.queued hb.readyCpu
      fun h => (hnot h).elim).trans ?_
    refine (sameQueues_setThread _ next { (r.setThread next th).table next with onCpu := c }
      rfl rfl rfl rfl fun _ => rfl).trans ?_
    exact sameQueues_setCpu _ c (some next) _ (some prev)
  · simp [Runqueues.setThread, Runqueues.setCpu, hu]
  · simp [Runqueues.setThread, Runqueues.setCpu, hd]
  · simp [Runqueues.setThread, Runqueues.setCpu, hrun]
  · simp [Runqueues.setThread, Runqueues.setCpu]
  · simp [Runqueues.setThread, Runqueues.setCpu, hb.level]
  · simp [Runqueues.setThread, Runqueues.setCpu, hb.mask]
  · simp [Runqueues.setThread, Runqueues.setCpu]
  · simp [Runqueues.setThread, Runqueues.setCpu]
  · by_cases hd : d = c
    · simp [Runqueues.setThread, Runqueues.setCpu, hd]
    · simp [Runqueues.setThread, Runqueues.setCpu, hd]

/-- What the guards of `rqDispatch` let through. -/
structure CanDispatch (r : Runqueues) (c : CpuId) (prev next : Tid) : Prop where
  online : r.online c = true
  valid : next < r.count
  current : (r.cpu c).current = some prev
  outgoing : (r.cpu c).outgoing = none
  prevQueued : (r.table prev).readyQueued = false
  left : (r.table prev).state ≠ .running
  alive : (r.table next).state = .ready
  inside : r.outside (r.table next).cpuMask = false
  allowed : (r.table next).cpuMask.getLsbD c = true
  free : next ≠ prev → (r.table next).onCpu = K64_CPU_NONE
  queue : (r.table next).readyQueued = true → (r.table next).readyCpu = c
  idle : (r.table next).readyQueued = false → next ≠ prev → (r.cpu c).idle = some next

/-- What `rqDispatch` makes of `next`, taken off its queue. -/
def Thread.dispatched (nt : Thread) (aged idle : Bool) (now : Nat) : Thread :=
  { nt with
    agingServiceLeft := if aged then SCHED_AGED_SERVICE_TICKS else 0
    quantumLeft := nt.quantumTicks
    maxReadyWaitTicks :=
      if !idle ∧ nt.maxReadyWaitTicks < elapsed now nt.readySince then elapsed now nt.readySince
      else nt.maxReadyWaitTicks
    state := .running }

theorem Thread.dispatched_sameBut (nt : Thread) (aged idle : Bool) (now : Nat) :
    SameBut nt (nt.dispatched aged idle now) := ⟨rfl, rfl, rfl, rfl, rfl, rfl, rfl, rfl⟩

/-- The queues after `next` has been taken off its own. -/
def Runqueues.without (r : Runqueues) (next : Tid) : Ret :=
  if (r.table next).readyQueued then r.rqRemove next else { rc := 0, rq := r }

theorem rqDispatch_cases (r : Runqueues) (c : CpuId) (next : Tid) (aged : Bool) (now : Nat) :
    r.rqDispatch c next aged now = r.fail ∨
    ∃ prev, CanDispatch r c prev next ∧ r.rqDispatch c next aged now =
      if (r.without next).rc ≠ 0 then { rc := -1, rq := (r.without next).rq }
      else
        let r := (r.without next).rq
        let m := r.setThread next
          ((r.table next).dispatched aged ((r.cpu c).idle == some next) now)
        if next = prev then { rc := 0, rq := m }
        else
          let m := m.setThread next { m.table next with onCpu := c }
          { rc := 1, rq := m.setCpu c { m.cpu c with current := some next, outgoing := some prev } } := by
  unfold Runqueues.rqDispatch
  split
  · exact .inl rfl
  rename_i hv
  split
  · exact .inl rfl
  rename_i prev hcur
  simp only
  split
  · exact .inl rfl
  rename_i hg
  right
  simp only [not_or, Decidable.not_not, Bool.not_eq_true', Bool.not_eq_true, Bool.not_eq_false,
    not_and, Runqueues.valid, decide_eq_false_iff_not] at hv hg
  obtain ⟨hon, hv⟩ := hv
  obtain ⟨-, -, hout, hpq, hleft, hs, -, hin, hbit, hfree, hqueue, hfrom⟩ := hg
  refine ⟨prev, ⟨hon, hv, hcur, hout, hpq, hleft, hs, hin, hbit, hfree, hqueue, hfrom⟩, ?_⟩
  simp [Runqueues.without, Thread.dispatched]

/-- A thread that may be dispatched can be taken off its queue, if it is on one. -/
theorem Integrity.without (h : Integrity r taken) (hv : next < r.count) :
    ∃ r₁, r.without next = { rc := 0, rq := r₁ } ∧ Integrity r₁ (next :: taken) ∧
      SameOwners r r₁ ∧ (r₁.table next).readyQueued = false ∧
      (∀ u, u ≠ next → (r₁.table u).readyQueued = (r.table u).readyQueued) := by
  unfold Runqueues.without
  cases hq : (r.table next).readyQueued with
  | false =>
    exact ⟨r, rfl, h.mono next, ⟨fun _ => rfl, fun _ => rfl, fun _ => rfl, fun _ => rfl,
      fun _ => rfl, fun _ => rfl, fun _ => rfl, fun _ => rfl, rfl, rfl⟩, hq, fun _ _ => rfl⟩
  | true =>
    obtain ⟨hno, -⟩ | ⟨hc, r₁, hret, he⟩ := h.rqRemove_cases next
    · exact absurd (h.canRemove hv hq) hno
    · exact ⟨r₁, hret, h.remove hc he, he.sameOwners, by rw [he.self],
        fun u hu => by rw [he.other u hu]⟩

theorem rqDispatch_kept (h : Integrity r taken) (c : CpuId) (next : Tid) (aged : Bool)
    (now : Nat) : Kept r taken (r.rqDispatch c next aged now) := by
  obtain hret | ⟨prev, hd, hret⟩ := rqDispatch_cases r c next aged now
  · rw [hret]
    exact Kept.fail h
  obtain ⟨r₁, hw, hint, hsame, hq, hqo⟩ := h.without hd.valid
  have hclt := online_lt hd.online
  have hocc : r.occupies c prev = true := occupies_iff.2 (.inl hd.current)
  have hb := (r₁.table next).dispatched_sameBut aged ((r₁.cpu c).idle == some next) now
  have hready : ∀ u, (r.table u).state = .ready → (r₁.table u).state = .ready :=
    fun u hu => (hsame.state u).trans hu
  rw [hret, hw]
  rw [if_neg (by simp)]
  split
  · rename_i hnp
    subst hnp
    have hfits : Fits r₁ next ((r₁.table next).dispatched aged ((r₁.cpu c).idle == some next) now) := by
      refine hb.fits hint.owners hq ⟨nofun, nofun⟩ (fun d hdlt ho => ?_) (fun _ _ _ _ => rfl)
        fun _ _ => nofun
      rw [hsame.outgoing] at ho
      obtain rfl := h.owners.unique hclt hdlt hocc (occupies_iff.2 (.inr ho))
      rw [hd.outgoing] at ho
      cases ho
    have hset := hfits.integrity hint nofun
    refine ⟨⟨hset.valid, hset.owners, fun u hu hs hi hm => ?_⟩, rfl, by simp, fun u _ hu => ?_⟩
    · have hun : u ≠ next := by
        rintro rfl
        simp [Runqueues.setThread, Thread.dispatched] at hs
      exact hset.ready u hu hs hi fun hin => hm ((mem_cons.1 hin).resolve_left hun)
    · exact setThread_state r₁ next _ (fun _ => .inr rfl) u (hready u hu)
  · rename_i hnp
    have hlevel : (r.table next).schedPriority < SCHED_PRIORITY_LEVELS := by
      cases hnq : (r.table next).readyQueued with
      | true => exact (h.canRemove hd.valid hnq).level
      | false => exact (h.owners.idle c hclt next (hd.idle hnq hnp)).level
    have htake : CanTake r₁ c prev next :=
      ⟨by rw [hsame.onlineCpu, hd.online], hsame.size ▸ hd.valid, by rw [hsame.current, hd.current],
        by rw [hsame.outgoing, hd.outgoing], by rw [hsame.state]; exact hd.left, hnp,
        hready next hd.alive, hq, by rw [hsame.onCpu, hd.free hnp],
        by rw [hsame.level]; exact hlevel, by rw [hsame.mask, hd.allowed],
        by rw [hsame.mask, hsame.outside, hd.inside]⟩
    have hdis := @dispatched_of_writes r₁ c prev next _ hb rfl hq
    refine ⟨hdis.integrity htake hint, rfl, by simp, fun u _ hu => ?_⟩
    by_cases hun : u = next
    · right
      rw [hun]
      exact hdis.running
    · left
      exact (congrArg Thread.state (hdis.other u hun)).trans (hready u hu)

/-- Nobody is outgoing on `c` any more. -/
def Runqueues.arrived (r : Runqueues) (c : CpuId) : Runqueues :=
  r.setCpu c { r.cpu c with outgoing := none }

theorem arrived_cpu_of_ne (r : Runqueues) (hd : d ≠ c) : (r.arrived c).cpu d = r.cpu d := by
  simp [Runqueues.arrived, Runqueues.setCpu, hd]

theorem arrived_cpu (r : Runqueues) (c : CpuId) :
    (r.arrived c).cpu c = { r.cpu c with outgoing := none } := by
  simp [Runqueues.arrived, Runqueues.setCpu]

theorem Enqueued.arrived {since order : Nat} (h : Enqueued r r' t d since order) (c : CpuId) :
    Enqueued (r.arrived c) (r'.arrived c) t d since order := by
  have htail : ((r.arrived c).cpu d).tail = (r.cpu d).tail := by
    by_cases hd : d = c
    · rw [hd, arrived_cpu]
    · rw [arrived_cpu_of_ne r hd]
  refine ⟨?_, fun u hu => ?_, ?_, fun e he => ?_, h.count, h.online⟩
  · rw [htail]
    exact h.self
  · rw [htail]
    exact h.other u hu
  · by_cases hd : d = c
    · subst hd
      rw [arrived_cpu, arrived_cpu, h.cpu]
      rfl
    · rw [arrived_cpu_of_ne r' hd, arrived_cpu_of_ne r hd, h.cpu]
      rfl
  · by_cases hec : e = c
    · rw [hec] at he ⊢
      rw [arrived_cpu, arrived_cpu, h.cpus c he]
    · rw [arrived_cpu_of_ne r' hec, arrived_cpu_of_ne r hec, h.cpus e he]

theorem arrived_ends (r : Runqueues) (c d : CpuId) :
    ((r.arrived c).cpu d).idle = (r.cpu d).idle ∧
      ((r.arrived c).cpu d).readyCount = (r.cpu d).readyCount := by
  by_cases hd : d = c
  · rw [hd, arrived_cpu]
    exact ⟨rfl, rfl⟩
  · rw [arrived_cpu_of_ne r hd]
    exact ⟨rfl, rfl⟩

theorem CanEnqueue.of_arrived (h : CanEnqueue (r.arrived c) t d) : CanEnqueue r t d :=
  ⟨h.valid, h.online, h.state, h.queued, h.onCpu, h.level, h.mask, h.inside, h.allowed,
    (arrived_ends r c d).1 ▸ h.idle, (arrived_ends r c d).2 ▸ h.room⟩

theorem rqChoose_arrived (r : Runqueues) (c : CpuId) (mask : BitVec 64) :
    (r.arrived c).rqChoose mask = r.rqChoose mask := by
  unfold Runqueues.rqChoose
  simp only [(arrived_ends r c _).2]
  rfl

/-- The thread `t` has left the CPU `c`, and is nowhere. -/
def Runqueues.departed (r : Runqueues) (t : Tid) : Runqueues :=
  r.setThread t { r.table t with onCpu := K64_CPU_NONE }

theorem departed_integrity (h : Integrity r taken) (hc : c < K64_CPU_MAX)
    (ht : (r.cpu c).outgoing = some t) : Integrity ((r.departed t).arrived c) (t :: taken) := by
  have hocc : r.occupies c t = true := occupies_iff.2 (.inr ht)
  obtain ⟨-, v, hv, hvt, hrun⟩ := h.owners.handoff c hc t ht
  have hself : ((r.departed t).arrived c).table t = { r.table t with onCpu := K64_CPU_NONE } :=
    update_self ..
  have hother : ∀ u, u ≠ t → ((r.departed t).arrived c).table u = r.table u :=
    fun u hu => update_of_ne hu ..
  have hqueues : SameQueues r ((r.departed t).arrived c) :=
    (sameQueues_setThread r t { r.table t with onCpu := K64_CPU_NONE } rfl rfl rfl rfl
      fun _ => rfl).trans (sameQueues_setCpu _ c _ _ none)
  have hcur : (((r.departed t).arrived c).cpu c).current = some v := by
    rw [arrived_cpu]
    exact hv
  have hcout : (((r.departed t).arrived c).cpu c).outgoing = none := by rw [arrived_cpu]
  have hidles : ∀ d, (((r.departed t).arrived c).cpu d).idle = (r.cpu d).idle :=
    fun d => (arrived_ends (r.departed t) c d).1
  have hv' := h.owners.current hc hv
  refine Settled.integrity (c := c) {
    queues := hqueues, other := hother
    cpus := fun d hd => arrived_cpu_of_ne (r.departed t) hd, within := h.owners.within
    online := fun _ _ hd => hd, inside := fun _ _ _ _ hin => hin, queued := h.unqueued hc hocc
    apart := ?_, occupant := fun u hu => ?_, handoff := fun u hu => ?_
    owned := fun hne => absurd (by rw [hself]) hne, stays := fun u hut hu => ?_
    idle := fun d hd u hu _ => ?_, idles := fun u _ hu => by rw [hidles, hu] }
    (h.mono t) (fun _ => mem_cons_of_mem t) fun _ => mem_cons_self
  · rintro d hd hdc u hu rfl
    exact hdc (h.owners.unique hd hc hu hocc)
  · rw [occupies_iff, hcur, hcout] at hu
    obtain hu | hu := hu
    · obtain rfl := Option.some.inj hu
      exact hv'.congr (hother v hvt) rfl hv'.online hv'.inside
    · cases hu
  · rw [hcout] at hu
    cases hu
  · rw [occupies_iff, hcur]
    obtain hu | hu := occupies_iff.1 hu
    · exact .inl (hv.symm.trans hu)
    · exact absurd (Option.some.inj (hu.symm.trans ht)) hut
  · rw [hidles] at hu
    have hid := h.owners.idle d hd u hu
    by_cases hut : u = t
    · subst hut
      exact ⟨hid.valid, hid.online, by rw [hself]; exact hid.queued, by rw [hself]; exact .inl rfl,
        by rw [hself]; exact hid.alive, by rw [hself]; exact hid.level,
        by rw [hself]; exact hid.mask, by rw [hself]; exact hid.awake⟩
    · exact hid.congr (hother u hut) rfl hid.online

/-- `t` is handed over: it is on no CPU any more, and on a queue if it is ready and no idle
thread. -/
structure HandedOver (r r' : Runqueues) (c : CpuId) (t : Tid) : Prop where
  outgoing : (r'.cpu c).outgoing = none
  onCpu : (r'.table t).onCpu = K64_CPU_NONE
  queued : (r.table t).state = .ready → r.isIdle t = false → (r'.table t).readyQueued = true
  state : ∀ u, (r'.table u).state = (r.table u).state

section HandOff

variable (h : Integrity r taken) (hc : c < K64_CPU_MAX) (ho : (r.cpu c).outgoing = some t)

/-- The thread that has left is where `k64_rq_complete_locked` wants it. -/
def Runqueues.handed (r : Runqueues) (c : CpuId) (t : Tid) : Ret :=
  if (r.table t).state = .ready ∧ (r.cpu c).idle ≠ some t then
    (r.departed t).rqEnqueue t ((r.departed t).rqChoose (r.table t).cpuMask) (r.table t).readySince
      (r.table t).readyOrder
  else { rc := 0, rq := r.departed t }

theorem departed_self : (r.departed t).table t = { r.table t with onCpu := K64_CPU_NONE } := update_self ..

theorem departed_state (u : Tid) : ((r.departed t).table u).state = (r.table u).state := by
  by_cases hu : u = t
  · rw [hu, departed_self]
  · exact congrArg Thread.state (update_of_ne hu ..)

theorem departed_isIdle (u : Tid) : ((r.departed t).arrived c).isIdle u = r.isIdle u := by
  unfold Runqueues.isIdle
  simp only [(arrived_ends (r.departed t) c _).1]
  rfl

include h ho

theorem rqComplete_eq (hon : r.online c = true) : r.rqComplete c =
    (some t, (r.handed c t).rq.arrived c, (r.handed c t).rc == 0) := by
  have hc := online_lt hon
  obtain ⟨hleft, v, hv, hvt, hrun⟩ := h.owners.handoff c hc t ho
  have htocc := h.owners.outgoing hc ho
  have hvocc := h.owners.current hc hv
  have hstates : (r.table t).state = .ready ∨ (r.table t).state = .blocked ∨
      (r.table t).state = .zombie := by
    have halive := htocc.alive
    cases hs : (r.table t).state with
    | free => exact absurd hs halive.2
    | new => exact absurd hs halive.1
    | running => exact absurd hs hleft
    | ready => exact .inl rfl
    | blocked => exact .inr (.inl rfl)
    | zombie => exact .inr (.inr rfl)
  unfold Runqueues.rqComplete
  rw [hon, if_neg (by decide), ho, hv]
  simp only
  rw [if_neg]
  · rfl
  simp only [not_or, Decidable.not_not, Bool.not_eq_true', Bool.not_eq_true, not_and]
  refine ⟨by simpa [Runqueues.valid] using htocc.valid, by
    simpa [Runqueues.valid] using hvocc.valid, hvt.symm, htocc.onCpu, hvocc.onCpu, hrun,
    h.unqueued hc (occupies_iff.2 (.inr ho)), fun h₁ h₂ => ?_, htocc.mask, htocc.inside⟩
  exact (hstates.resolve_left h₁).resolve_left h₂

include hc

/-- A ready thread goes to a queue. -/
theorem handed_ready (hr : (r.table t).state = .ready ∧ (r.cpu c).idle ≠ some t) :
    ∃ r', r.handed c t = { rc := 0, rq := r' } ∧ Integrity (r'.arrived c) taken ∧
      HandedOver r (r'.arrived c) c t := by
  have htocc := h.owners.outgoing hc ho
  have hocc := occupies_iff.2 (.inr ho)
  have hq := h.unqueued hc hocc
  have hmid := departed_integrity h hc ho
  have hidle : ((r.departed t).arrived c).isIdle t = false := by
    rw [departed_isIdle]
    by_contra hi
    obtain ⟨d, hd, hi⟩ := isIdle_iff.1 (by simpa using hi)
    exact hr.2 (h.owners.idle_here hc hd hocc hi ▸ hi)
  have hself : ((r.departed t).arrived c).table t = { r.table t with onCpu := K64_CPU_NONE } := departed_self
  have hcan' := hmid.canEnqueue (t := t) htocc.valid (by rw [hself]; exact hr.1)
    (by rw [hself]; exact hq) (by rw [hself]) (by rw [hself]; exact htocc.level)
    (by rw [hself]; exact htocc.mask) (by rw [hself]; exact htocc.inside) hidle
  rw [rqChoose_arrived, hself] at hcan'
  have hcan := hcan'.of_arrived
  obtain ⟨Q, hQ⟩ := h.shape
  obtain ⟨hno, -⟩ | ⟨-, r', hret, he⟩ := Sched.rqEnqueue_cases (r.departed t) t
      ((r.departed t).rqChoose (r.table t).cpuMask) (r.table t).readySince (r.table t).readyOrder
  · exact absurd hcan hno
  have he := he fun htail => by
    rw [departed_self] at htail
    exact hQ.not_mem hq (hQ.tail_mem (online_lt hcan.online) htocc.level htail)
  refine ⟨r', (if_pos hr).trans hret, hmid.enqueue hcan' (he.arrived c), ?_, ?_, fun _ _ => ?_, fun u => ?_⟩
  · rw [arrived_cpu]
  · show (r'.table t).onCpu = _
    rw [he.sameOwners.onCpu, departed_self]
  · show (r'.table t).readyQueued = true
    rw [he.self]
  · show (r'.table u).state = _
    rw [he.sameOwners.state, departed_state]

/-- Any other thread stays off the queues. -/
theorem handed_rest (hr : ¬((r.table t).state = .ready ∧ (r.cpu c).idle ≠ some t)) :
    Integrity ((r.departed t).arrived c) taken ∧ HandedOver r ((r.departed t).arrived c) c t := by
  have hmid := departed_integrity h hc ho
  have hexempt : (r.table t).state = .ready → r.isIdle t = true := by
    intro hs
    by_contra hi
    exact hr ⟨hs, fun hci => hi (isIdle_iff.2 ⟨c, hc, hci⟩)⟩
  refine ⟨⟨hmid.valid, hmid.owners, fun u hu hs hi hm => ?_⟩, ?_, ?_, fun hs hi => ?_, departed_state⟩
  · have hut : u ≠ t := by
      rintro rfl
      rw [departed_isIdle, hexempt ((departed_state u).symm.trans hs)] at hi
      cases hi
    exact hmid.ready u hu hs hi fun hin => hm ((mem_cons.1 hin).resolve_left hut)
  · rw [arrived_cpu]
  · show ((r.departed t).table t).onCpu = _
    rw [departed_self]
  · rw [hexempt hs] at hi
    cases hi

end HandOff

/-- **Completing a hand-off never fails, and queues the thread that has left if it is ready.** -/
theorem rqComplete_spec (h : Integrity r taken) (c : CpuId) :
    ((∀ t, r.online c = true → (r.cpu c).outgoing ≠ some t) ∧ r.rqComplete c = (none, r, true)) ∨
    ∃ t r', (r.cpu c).outgoing = some t ∧ r.rqComplete c = (some t, r', true) ∧
      Integrity r' taken ∧ HandedOver r r' c t := by
  by_cases hon : r.online c = true
  case neg =>
    refine .inl ⟨fun t ht => absurd ht hon, ?_⟩
    unfold Runqueues.rqComplete
    rw [if_pos (by simpa using hon)]
  cases ho : (r.cpu c).outgoing with
  | none =>
    refine .inl ⟨fun t _ => nofun, ?_⟩
    unfold Runqueues.rqComplete
    rw [hon, if_neg (by decide), ho]
  | some t =>
    refine .inr ⟨t, (r.handed c t).rq.arrived c, rfl, ?_⟩
    rw [rqComplete_eq h ho hon]
    have hc := online_lt hon
    by_cases hr : (r.table t).state = .ready ∧ (r.cpu c).idle ≠ some t
    · obtain ⟨r', hret, hspec⟩ := handed_ready h hc ho hr
      rw [hret]
      exact ⟨rfl, hspec⟩
    · rw [show r.handed c t = { rc := 0, rq := r.departed t } from if_neg hr]
      exact ⟨rfl, handed_rest h hc ho hr⟩

/-! ### Cohorts -/

/-- `t` is the idle thread of `c`, and the only thread there. -/
structure Admitted (r r' : Runqueues) (c : CpuId) (t : Tid) : Prop extends Touched r r' c t where
  self : (r'.table t).state = .running ∧ (r'.table t).onCpu = c ∧
    (r'.table t).schedPriority = 0 ∧ (r'.table t).cpuMask = cpuBit c
  ends : (r'.cpu c).current = some t ∧ (r'.cpu c).idle = some t ∧ (r'.cpu c).outgoing = none
  online : ∀ d, r'.onlineMask.getLsbD d = true ↔ r.onlineMask.getLsbD d = true ∨ d = c

theorem Admitted.integrity (ha : Admitted r r' c t) (h : Integrity r taken)
    (hc : c < K64_CPU_MAX) (ht : t < r.count) (hnew : (r.table t).state = .new)
    (hq : (r.table t).readyQueued = false) (hon : (r.table t).onCpu = K64_CPU_NONE)
    (hcur : (r.cpu c).current = none) (hidle : (r.cpu c).idle = none)
    (hout : (r.cpu c).outgoing = none) : Integrity r' taken := by
  have honl : ∀ d, r.online d = true → r'.online d = true := by
    intro d hd
    obtain ⟨hlt, hb⟩ := onlineCpu_iff.1 hd
    exact onlineCpu_iff.2 ⟨hlt, (ha.online d).2 (.inl hb)⟩
  have honc : r'.online c = true := onlineCpu_iff.2 ⟨hc, (ha.online c).2 (.inr rfl)⟩
  obtain ⟨hrun, hcpu, hlevel, hmask⟩ := ha.self
  obtain ⟨hcur', hidle', hout'⟩ := ha.ends
  have hvalid : t < r'.count := ha.queues.size ▸ ht
  have halive : (r'.table t).state ≠ .new ∧ (r'.table t).state ≠ .free := by
    rw [hrun]
    decide
  refine Settled.integrity { ha with
    within := fun d hd => ?_, online := fun d _ => honl d, inside := fun u _ _ _ hin => ?_, queued := hq
    apart := ?_, occupant := fun u hu => ?_, handoff := fun u hu => ?_
    owned := fun _ => by rw [hcpu]; exact ⟨hc, occupies_iff.2 (.inl hcur')⟩
    stays := fun u _ hu => ?_, idle := fun d hd u hu hor => ?_
    idles := fun u _ hu => by rw [hidle] at hu; cases hu } (h.mono t) (fun _ => id) fun hs => ?_
  · obtain hd | rfl := (ha.online d).1 hd
    · exact h.owners.within d hd
    · exact hc
  · exact outside_eq_false.2 fun d hd => (ha.online d).2 (.inl (outside_eq_false.1 hin d hd))
  · rintro d hd - u hu rfl
    exact none_ge hd ((h.owners.occupant d hd u hu).onCpu.symm.trans hon)
  · rw [occupies_iff, hcur', hout'] at hu
    obtain hu | hu := hu
    · obtain rfl := Option.some.inj hu
      refine ⟨hvalid, hcpu, honc, halive, by rw [hlevel]; decide, ?_, ?_⟩
      · rw [hmask]
        intro hz
        have hbit := cpuBit_getLsbD hc c
        rw [hz] at hbit
        simp at hbit
      · rw [hmask]
        refine outside_eq_false.2 fun d hd => (ha.online d).2 (.inr ?_)
        rw [cpuBit_getLsbD hc] at hd
        exact of_decide_eq_true hd
    · cases hu
  · rw [hout'] at hu
    cases hu
  · simp [Runqueues.occupies, hcur, hout] at hu
  · by_cases hdc : d = c
    · rw [hdc] at hu ⊢
      obtain rfl := Option.some.inj (hidle'.symm.trans hu)
      exact ⟨hvalid, honc, by rw [ha.queues.queued, hq], .inr hcpu, halive, by rw [hlevel]; decide,
        hmask, fun _ => by rw [hrun]; decide⟩
    · obtain rfl := hor.resolve_right hdc
      rw [ha.cpus d hdc] at hu
      exact absurd hnew (h.owners.idle d hd u hu).alive.1
  · rw [hrun] at hs
    cases hs

theorem rqAdmitCohort_kept (h : Integrity r taken) (c : CpuId) (t : Tid) :
    Kept r taken (r.rqAdmitCohort c t) := by
  unfold Runqueues.rqAdmitCohort
  simp only
  split
  · exact Kept.fail h
  rename_i hg
  simp only [not_or, Decidable.not_not, Bool.not_eq_true', Bool.not_eq_true, Nat.not_le] at hg
  obtain ⟨-, hc, -, hv, -, hnew, hq, hon, hcur, hidle, hout, -, -⟩ := hg
  have ht : t < r.count := by simpa [Runqueues.valid] using hv
  refine ⟨Admitted.integrity (c := c) (t := t) ?_ h hc ht hnew hq hon hcur hidle hout, rfl,
    by simp, fun u _ hu => .inl ?_⟩
  · have htouch := touched_write (c := c) { r.table t with
      state := .running, cpuMask := cpuBit c, onCpu := c, schedPriority := 0, agingServiceLeft := 0 }
      (some t) (some t) (r.onlineMask ||| cpuBit c)
      (sameQueues_setThread r t _ rfl rfl rfl rfl fun hqu => absurd hqu (by simp [hq]))
    refine ⟨htouch, ?_, ?_, fun d => ?_⟩
    · simp [Runqueues.setThread, Runqueues.setCpu]
    · simp [Runqueues.setThread, Runqueues.setCpu, hout]
    · show (r.onlineMask ||| cpuBit c).getLsbD d = true ↔ _
      rw [BitVec.getLsbD_or, Bool.or_eq_true, cpuBit_getLsbD hc, decide_eq_true_eq]
  · have hut : u ≠ t := by
      rintro rfl
      rw [hnew] at hu
      cases hu
    simpa [Runqueues.setThread, Runqueues.setCpu, hut] using hu

/-- `t` was the idle thread of `c`, and the CPU is gone. -/
structure Withdrawn (r r' : Runqueues) (c : CpuId) (t : Tid) : Prop extends Touched r r' c t where
  self : (r'.table t).state = .new ∧ (r'.table t).onCpu = K64_CPU_NONE
  ends : (r'.cpu c).current = none ∧ (r'.cpu c).idle = none ∧ (r'.cpu c).outgoing = none
  online : ∀ d, r'.onlineMask.getLsbD d = true ↔ r.onlineMask.getLsbD d = true ∧ d ≠ c

/-- Of the threads that are queued or on a CPU, only the idle thread of `c` may name `c`. -/
def Runqueues.retired (r : Runqueues) (c : CpuId) : Prop :=
  ∀ t < r.count, (r.table t).cpuMask.getLsbD c = true →
    (r.table t).readyQueued = true ∨ (r.table t).onCpu ≠ K64_CPU_NONE → (r.cpu c).idle = some t

theorem Withdrawn.integrity (ha : Withdrawn r r' c t) (h : Integrity r taken)
    (hc : c < K64_CPU_MAX) (hq : (r.table t).readyQueued = false)
    (hcur : (r.cpu c).current = some t) (hidle : (r.cpu c).idle = some t)
    (hout : (r.cpu c).outgoing = none) (hret : r.retired c) : Integrity r' taken := by
  obtain ⟨hnew, hnone⟩ := ha.self
  obtain ⟨hcur', hidle', hout'⟩ := ha.ends
  have htocc : r.occupies c t = true := occupies_iff.2 (.inl hcur)
  have hempty : ∀ u, r'.occupies c u ≠ true := by simp [Runqueues.occupies, hcur', hout']
  refine Settled.integrity { ha with
    within := fun d hd => h.owners.within d ((ha.online d).1 hd).1, online := fun d hdc hd => ?_
    inside := fun u hu hut huse hin => ?_, queued := hq, apart := ?_
    occupant := fun u hu => absurd hu (hempty u), handoff := fun u hu => ?_
    owned := fun hne => absurd hnone hne, stays := fun u hut hu => ?_
    idle := fun d hd u hu hor => ?_, idles := fun u hut hu => ?_ } (h.mono t) (fun _ => id) fun hs => ?_
  · obtain ⟨hlt, hb⟩ := onlineCpu_iff.1 hd
    exact onlineCpu_iff.2 ⟨hlt, (ha.online d).2 ⟨hb, hdc⟩⟩
  · refine outside_eq_false.2 fun d hd => (ha.online d).2 ⟨outside_eq_false.1 hin d hd, ?_⟩
    rintro rfl
    exact hut (Option.some.inj ((hret u hu hd huse).symm.trans hidle))
  · rintro d hd hdc u hu rfl
    exact hdc (h.owners.unique hd hc hu htocc)
  · rw [hout'] at hu
    cases hu
  · simp [Runqueues.occupies, hcur, hout, Ne.symm hut] at hu
  · by_cases hdc : d = c
    · rw [hdc, hidle'] at hu
      cases hu
    · obtain rfl := hor.resolve_right hdc
      rw [ha.cpus d hdc] at hu
      refine absurd (h.owners.idle_allowed hc hidle ?_) hdc
      rw [(h.owners.idle d hd u hu).mask, cpuBit_getLsbD hd]
      exact decide_eq_true rfl
  · exact absurd (Option.some.inj (hu.symm.trans hidle)) hut
  · rw [hnew] at hs
    cases hs

theorem rqWithdrawCohort_kept (h : Integrity r taken) (c : CpuId) (hret : r.retired c) :
    Kept r taken (r.rqWithdrawCohort c) := by
  unfold Runqueues.rqWithdrawCohort
  split
  · exact Kept.fail h
  rename_i hon
  simp only
  split
  · exact Kept.fail h
  rename_i t hidle
  split
  · exact Kept.fail h
  rename_i hg
  simp only [not_or, Decidable.not_not, Bool.not_eq_true', Bool.not_eq_true, Bool.not_eq_false]
    at hon hg
  obtain ⟨-, -, hcur, hrun, -, hq, hout, -, -⟩ := hg
  have hc := online_lt hon.2
  refine ⟨Withdrawn.integrity (c := c) (t := t) ?_ h hc hq hcur hidle hout hret, rfl, by simp,
    fun u _ hu => .inl ?_⟩
  · have htouch := touched_write (c := c)
      { r.table t with state := .new, onCpu := K64_CPU_NONE, cpuMask := 1 } none none
      (r.onlineMask &&& ~~~cpuBit c) (sameQueues_setThread r t _ rfl rfl rfl rfl fun _ => rfl)
    refine ⟨htouch, ?_, ?_, fun d => ?_⟩
    · simp [Runqueues.setThread, Runqueues.setCpu]
    · simp [Runqueues.setThread, Runqueues.setCpu, hout]
    · show (r.onlineMask &&& ~~~cpuBit c).getLsbD d = true ↔ _
      rw [BitVec.getLsbD_and, BitVec.getLsbD_not, cpuBit_getLsbD hc, Bool.and_eq_true]
      constructor
      · rintro ⟨h₁, h₂⟩
        simp only [Bool.and_eq_true, decide_eq_true_eq, Bool.not_eq_true',
          decide_eq_false_iff_not] at h₂
        exact ⟨h₁, h₂.2⟩
      · rintro ⟨h₁, h₂⟩
        refine ⟨h₁, ?_⟩
        simp [BitVec.lt_of_getLsbD h₁, h₂]
  · have hut : u ≠ t := by
      rintro rfl
      rw [hrun] at hu
      cases hu
    simpa [Runqueues.setThread, Runqueues.setCpu, hut] using hu

end Win98Modern.Sched
