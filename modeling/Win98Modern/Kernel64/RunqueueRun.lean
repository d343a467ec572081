import Win98Modern.Kernel64.RunqueueCalls

/-!
# Runs of calls on the run queues

`Call` is one call of `sched_cpu.h`, or the step of `schedule` before a dispatch, and
`Sys.run` a sequence of them.  **`runqueues_in_order`**: from any state in order, every run
of allowed calls stays in order, no `KASSERT` fires, a failed call changes nothing, and a
hand-off queues the thread that has left.  `bare_calls_break_order` shows what the allowed
calls leave out.
-/

namespace Win98Modern.Sched

variable {r : Runqueues} {t : Tid} {c : CpuId} {taken : List Tid}

inductive Call
  | admitCohort (c : CpuId) (idle : Tid)
  | withdraw (c : CpuId)
  | enqueue (t : Tid) (c : CpuId) (since order : Nat)
  | remove (t : Tid)
  | policy (t : Tid) (priority quantum : Nat) (mask : BitVec 64) (now order : Nat)
  | leave (c : CpuId) (how : Leaving)
  | dispatch (c : CpuId) (next : Tid) (aged : Bool) (now : Nat)
  | complete (c : CpuId)
  | park (c : CpuId) (t : Tid)
  | wake (t : Tid) (now order : Nat)
  | move (t : Tid) (destination : CpuId)
  deriving DecidableEq, Repr

def Call.exec (r : Runqueues) : Call → Ret
  | .admitCohort c idle => r.rqAdmitCohort c idle
  | .withdraw c => r.rqWithdrawCohort c
  | .enqueue t c since order => r.rqEnqueue t c since order
  | .remove t => r.rqRemove t
  | .policy t priority quantum mask now order => r.rqPolicy t priority quantum mask now order
  | .leave c how => r.leave c how
  | .dispatch c next aged now => r.rqDispatch c next aged now
  | .complete c =>
    let (t, rq, kassert) := r.rqComplete c
    { rc := if t.isSome then 0 else -1, rq := rq, kassert := kassert }
  | .park c t => r.rqWorkPark c t
  | .wake t now order => r.rqWorkWake t now order
  | .move t destination => r.rqWorkMove t destination

/-- What the callers of the kernel promise: every worker of a CPU has moved on before the CPU is
withdrawn, and an idle thread of the workers' class does not block. -/
def Call.Allowed (r : Runqueues) : Call → Prop
  | .withdraw c => r.retired c
  | .leave c .block => ∀ t, (r.cpu c).current = some t → (r.cpu c).idle = some t →
      (r.table t).apKernelCohort ≠ K64_AP_WORKER_CLASS
  | _ => True

/-- The queues, and the threads that a bare remove took off and that were not queued since. -/
structure Sys where
  rq : Runqueues
  taken : List Tid := []

def Sys.step (s : Sys) (call : Call) : Sys :=
  let ret := call.exec s.rq
  let taken := match call with
    | .remove t => if ret.rc = 0 then t :: s.taken else s.taken
    | _ => s.taken
  { rq := ret.rq, taken := taken.filter fun t => !(ret.rq.table t).readyQueued }

def Sys.run (s : Sys) (calls : List Call) : Sys := calls.foldl Sys.step s

def Sys.Legal : Sys → List Call → Prop
  | _, [] => True
  | s, call :: calls => call.Allowed s.rq ∧ (s.step call).Legal calls

/-- The order of one state, in the words of the source. -/
structure InOrder (r : Runqueues) (taken : List Tid) : Prop where
  valid : r.rqValidate = true
  one : ∀ c < K64_CPU_MAX, ∀ d < K64_CPU_MAX, ∀ t,
    r.occupies c t = true → r.occupies d t = true → c = d
  apart : ∀ c < K64_CPU_MAX, ∀ t, (r.cpu c).outgoing = some t → (r.cpu c).current ≠ some t
  off : ∀ t < r.count, (r.table t).readyQueued = true → (r.table t).onCpu = K64_CPU_NONE
  ready : ∀ t < r.count, (r.table t).state = .ready → r.isIdle t = false → t ∉ taken →
    (r.online (r.table t).readyCpu = true ∧
      (r.table t).cpuMask.getLsbD (r.table t).readyCpu = true ∧
      ∃ Q, Shape r Q ∧ t ∈ Q.all (r.table t).readyCpu ∧ ∀ c, t ∈ Q.all c → c = (r.table t).readyCpu) ∨
    ∃ c < K64_CPU_MAX, r.occupies c t = true

theorem Integrity.inOrder (h : Integrity r taken) : InOrder r taken := by
  refine ⟨h.valid, fun c hc d hd t => h.owners.unique hc hd, fun c hc t ht hcur => ?_,
    fun t ht hq => (h.queued t ht hq).onCpu, fun t ht hs hi hm => ?_⟩
  · obtain ⟨-, u, hu, hut, -⟩ := h.owners.handoff c hc t ht
    exact hut (Option.some.inj (hu.symm.trans hcur))
  · obtain hq | hon := h.ready t ht hs hi hm
    · have he := h.queued t ht hq
      obtain ⟨Q, hQ⟩ := h.shape
      have hin := (hQ.mem _ _ t).2 ⟨ht, hq, rfl, rfl⟩
      refine .inl ⟨he.online, he.allowed, Q, hQ, hQ.mem_all.2 ⟨_, hin⟩, fun c hc => ?_⟩
      obtain ⟨p, hp⟩ := hQ.mem_all.1 hc
      exact (hQ.unique hin hp).1
    · exact .inr ⟨_, (h.owners.owned t ht hon).1, (h.owners.owned t ht hon).2⟩

/-! ### Steps and runs -/

theorem rqComplete_kept (h : Integrity r taken) (c : CpuId) :
    Kept r taken ((Call.complete c).exec r) := by
  obtain ⟨-, hret⟩ | ⟨t, r', -, hret, hint, hover⟩ := rqComplete_spec h c
  · simp only [Call.exec, hret]
    exact Kept.fail h
  · simp only [Call.exec, hret]
    exact ⟨hint, rfl, by simp, fun u _ hu => .inl ((hover.state u).trans hu)⟩

/-- The threads that may be ready and nowhere after the call. -/
def Call.takes (call : Call) (r : Runqueues) (taken : List Tid) : List Tid :=
  match call with
  | .remove t => if (r.rqRemove t).rc = 0 then t :: taken else taken
  | _ => taken

theorem Call.kept (call : Call) (h : Integrity r taken) (ha : call.Allowed r) :
    Kept r (call.takes r taken) (call.exec r) := by
  cases call with
  | admitCohort c idle => exact rqAdmitCohort_kept h c idle
  | withdraw c => exact rqWithdrawCohort_kept h c ha
  | enqueue t c since order => exact rqEnqueue_kept h t c since order
  | remove t => exact rqRemove_kept h t
  | policy t priority quantum mask now order =>
    exact rqPolicy_kept h t priority quantum mask now order
  | leave c how =>
    refine leave_kept h c how ?_
    rintro rfl
    exact ha
  | dispatch c next aged now => exact rqDispatch_kept h c next aged now
  | complete c => exact rqComplete_kept h c
  | park c t => exact rqWorkPark_kept h c t
  | wake t now order => exact (rqWorkWake_spec h t now order).1
  | move t destination => exact rqWorkMove_kept h t destination

theorem Integrity.filter (h : Integrity r taken) :
    Integrity r (taken.filter fun t => !(r.table t).readyQueued) := by
  refine ⟨h.valid, h.owners, fun t ht hs hi hm => ?_⟩
  by_cases hin : t ∈ taken
  · left
    by_contra hq
    exact hm (List.mem_filter.2 ⟨hin, by simpa using hq⟩)
  · exact h.ready t ht hs hi hin

theorem Sys.step_integrity (s : Sys) (call : Call) (h : Integrity s.rq s.taken)
    (ha : call.Allowed s.rq) : Integrity (s.step call).rq (s.step call).taken := by
  have hkept := (call.kept h ha).integrity.filter
  cases call with
  | _ => exact hkept

theorem Sys.run_integrity (s : Sys) (calls : List Call) (h : Integrity s.rq s.taken)
    (hl : s.Legal calls) : Integrity (s.run calls).rq (s.run calls).taken := by
  induction calls generalizing s with
  | nil => exact h
  | cons call calls ih => exact ih (s.step call) (s.step_integrity call h hl.1) hl.2

/-- **Every run of allowed calls keeps the run queues in order.**  The next call holds its
`KASSERT`, changes nothing when it fails, and keeps every ready thread ready or makes it run; a wake is
not lost; completing a hand-off frees the thread that has left, and queues it if it is ready. -/
theorem runqueues_in_order (s : Sys) (h : Integrity s.rq s.taken) (calls : List Call)
    (hl : s.Legal calls) (call : Call) (ha : call.Allowed (s.run calls).rq) :
    let r := (s.run calls).rq
    let ret := call.exec r
    InOrder r (s.run calls).taken ∧ ret.kassert = true ∧ (ret.rc = -1 → ret.rq = r) ∧
      (∀ t < r.count, (r.table t).state = .ready →
        (ret.rq.table t).state = .ready ∨ (ret.rq.table t).state = .running) ∧
      (∀ t now order, call = .wake t now order → Woken r t ret) ∧
      ∀ c t, call = .complete c → r.online c = true → (r.cpu c).outgoing = some t →
        (r.rqComplete c).1 = some t ∧ HandedOver r ret.rq c t := by
  have hint := s.run_integrity calls h hl
  have hkept := call.kept hint ha
  refine ⟨hint.inOrder, hkept.kassert, hkept.failed, hkept.ready, ?_, ?_⟩
  · rintro t now order rfl
    exact (rqWorkWake_spec hint t now order).2
  rintro c t rfl hon hout
  obtain ⟨hno, -⟩ | ⟨u, r', hu, hret, -, hover⟩ := rqComplete_spec hint c
  · exact absurd hout (hno t hon)
  · obtain rfl := Option.some.inj (hout.symm.trans hu)
    have hrq : ((Call.complete c).exec (s.run calls).rq).rq = r' := by
      show ((s.run calls).rq.rqComplete c).2.1 = r'
      rw [hret]
    refine ⟨by rw [hret], ?_⟩
    rw [hrq]
    exact hover

/-! ### The queues after boot -/

/-- Thread 0 runs on the first CPU, whose idle thread is thread 1; thread 2 is to be the idle
thread of the second CPU, and thread 3 is its blocked worker. -/
def boot : Runqueues where
  table
    | 0 => { state := .running, onCpu := 0 }
    | 1 => { state := .ready, schedPriority := 0 }
    | 2 => { state := .new, apKernelCohort := K64_AP_WORKER_CLASS }
    | 3 => { state := .blocked, cpuMask := 2, apKernelCohort := K64_AP_WORKER_CLASS }
    | _ => {}
  count := 4
  onlineMask := 1
  cpu
    | 0 => { Cpu.empty with current := some 0, idle := some 1 }
    | _ => Cpu.empty

theorem boot_cpu (hc : c ≠ 0) : boot.cpu c = Cpu.empty := by
  cases c with
  | zero => exact absurd rfl hc
  | succ c => rfl

theorem boot_integrity : Integrity boot [] := by
  have hocc : ∀ c t, boot.occupies c t = true → c = 0 ∧ t = 0 := by
    intro c t h
    by_cases hc : c = 0
    · subst hc
      refine ⟨rfl, ?_⟩
      obtain h | h := occupies_iff.1 h
      · exact (Option.some.inj h).symm
      · cases h
    · rw [Runqueues.occupies, boot_cpu hc] at h
      cases h
  refine ⟨by decide +kernel, ⟨fun c hc => ?_, fun c _ t ht => ?_, fun c _ t ht => ?_,
    fun t ht => ?_, fun c _ t ht => ?_⟩, fun t ht => ?_⟩
  · rw [show boot.onlineMask = cpuBit 0 from rfl, cpuBit_getLsbD (by decide)] at hc
    rw [of_decide_eq_true hc]
    decide
  · obtain ⟨rfl, rfl⟩ := hocc c t ht
    exact ⟨by decide, rfl, by decide, by decide, by decide, by decide, by decide⟩
  · obtain ⟨rfl, rfl⟩ := hocc c t (occupies_iff.2 (.inr ht))
    cases ht
  · revert t
    decide
  · by_cases hc : c = 0
    · subst hc
      obtain rfl : 1 = t := Option.some.inj ht
      exact ⟨by decide, by decide, rfl, .inl rfl, by decide, by decide, by decide, fun ha => by cases ha⟩
    · rw [boot_cpu hc] at ht
      cases ht
  · refine fun hs hi hm => ?_
    clear hm
    revert t
    decide

/-- Thread 0 gives the CPU up to the idle thread, and the hand-off queues it. -/
theorem runqueues_in_order_boot :
    let s : Sys := { rq := boot }
    let r := (s.run [.leave 0 (.yield 5 1), .dispatch 0 1 false 5]).rq
    (r.cpu 0).outgoing = some 0 ∧ (r.rqComplete 0).1 = some 0 ∧
      HandedOver r ((Call.complete 0).exec r).rq 0 0 := by
  have h := runqueues_in_order { rq := boot } boot_integrity
    [.leave 0 (.yield 5 1), .dispatch 0 1 false 5] ⟨trivial, trivial, trivial⟩ (.complete 0) trivial
  have hout : ((Sys.run { rq := boot } [.leave 0 (.yield 5 1), .dispatch 0 1 false 5]).rq.cpu
      0).outgoing = some 0 := by decide +kernel
  exact ⟨hout, h.2.2.2.2.2 0 0 rfl (by decide +kernel) hout⟩

/-- What the callers have to keep from: a bare remove leaves a ready thread nowhere; a CPU
withdrawn while a thread queued elsewhere names it fails the check; and waking the idle thread of
a worker CPU, if it blocked, fails after it has changed the thread. -/
theorem bare_calls_break_order :
    Integrity boot [] ∧
    (let r := (Sys.run { rq := boot } [.leave 0 (.yield 5 1), .dispatch 0 1 false 5, .complete 0,
        .remove 0]).rq;
      r.isIdle 0 = false ∧ (r.table 0).state = .ready ∧ (r.table 0).readyQueued = false ∧
        (r.table 0).onCpu = K64_CPU_NONE) ∧
    (let s := Sys.run { rq := boot } [.leave 0 (.yield 5 1), .dispatch 0 1 false 5, .complete 0,
        .admitCohort 1 2, .policy 0 16 1 3 5 2];
      s.rq.rqValidate = true ∧ (s.rq.rqWithdrawCohort 1).rc = 0 ∧
        (s.step (.withdraw 1)).rq.rqValidate = false) ∧
    (let r := (Sys.run { rq := boot } [.admitCohort 1 2, .wake 3 5 1, .leave 1 .block,
        .dispatch 1 3 false 5, .complete 1]).rq;
      r.isIdle 2 = true ∧ (r.table 2).state = .blocked ∧ (r.rqWorkWake 2 6 2).rc = -1 ∧
        ((r.rqWorkWake 2 6 2).rq.table 2).state = .ready) :=
  ⟨boot_integrity, by decide +kernel, by decide +kernel, by decide +kernel⟩

end Win98Modern.Sched
