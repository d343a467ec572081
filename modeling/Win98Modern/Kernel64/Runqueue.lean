import Mathlib.Data.BitVec
import Mathlib.Data.List.Range

/-!
# Run queues

The priority queues of `sched_cpu.h`, one per CPU and level, under one ticket: admission and
withdrawal of a CPU, enqueue and remove, the two halves of a stack hand-off (dispatch, of any thread,
and complete), parking, waking and moving of workers, policy changes, and the check that they are in
order (`rqValidate`).

A thread is its index in the table.  A function that changes something in place and then
fails gives back what it has changed.
-/

namespace Win98Modern.Sched

open Function

abbrev Tid := Nat
abbrev CpuId := Nat

def K64_CPU_MAX : Nat := 32
def K64_CPU_NONE : CpuId := 2 ^ 32 - 1
def SCHED_PRIORITY_LEVELS : Nat := 32
def SCHED_DEFAULT_PRIORITY : Nat := 16
def SCHED_MAX_QUANTUM_TICKS : Nat := 16
def SCHED_AGED_SERVICE_TICKS : Nat := 4
def K64_AP_WORKER_CLASS : Nat := 2

/-! ### The data -/

inductive ThreadState
  | free | ready | running | blocked | zombie | new
  deriving DecidableEq, Repr

/-- What ties a thread to the rest of the system; zero where there is nothing. -/
structure Bindings where
  proc : Nat := 0
  teb : Nat := 0
  object : Nat := 0
  ipc : Nat := 0
  waitSem : Nat := 0
  waitMulti : Nat := 0
  next : Nat := 0
  userRip : Nat := 0
  userRsp : Nat := 0
  deriving DecidableEq, Repr

structure Thread where
  state : ThreadState := .free
  readyQueued : Bool := false
  readyPrev : Option Tid := none
  readyNext : Option Tid := none
  readySince : Nat := 0
  readyOrder : Nat := 0
  readyCpu : CpuId := K64_CPU_NONE
  onCpu : CpuId := K64_CPU_NONE
  schedPriority : Nat := SCHED_DEFAULT_PRIORITY
  quantumTicks : Nat := 1
  quantumLeft : Nat := 1
  agingServiceLeft : Nat := 0
  cpuMask : BitVec 64 := 1
  maxReadyWaitTicks : Nat := 0
  apKernelCohort : Nat := 0
  bindings : Bindings := {}
  deriving DecidableEq, Repr

/-- `k64_cpu_sched_t`; `head` and `tail` are the two ends of `ready`. -/
structure Cpu where
  head : Nat → Option Tid
  tail : Nat → Option Tid
  readyMask : BitVec 32
  readyCount : Nat
  current : Option Tid
  idle : Option Tid
  outgoing : Option Tid

/-- `k64_runqueues_t` and the thread table. -/
structure Runqueues where
  table : Tid → Thread
  count : Nat
  onlineMask : BitVec 64
  cpu : CpuId → Cpu

/-- Nothing queued and nobody there. -/
def Cpu.empty : Cpu where
  head := fun _ => none
  tail := fun _ => none
  readyMask := 0
  readyCount := 0
  current := none
  idle := none
  outgoing := none

/-- The difference of two `uint64_t`. -/
def elapsed (now since : Nat) : Nat := if since ≤ now then now - since else 2 ^ 64 + now - since

/-- `1ull << c`. -/
def cpuBit (c : CpuId) : BitVec 64 := 1#64 <<< c

/-- `1u << p`. -/
def levelBit (p : Nat) : BitVec 32 := 1#32 <<< p

namespace Runqueues

def setThread (r : Runqueues) (t : Tid) (th : Thread) : Runqueues :=
  { r with table := update r.table t th }

def setCpu (r : Runqueues) (c : CpuId) (cpu : Cpu) : Runqueues :=
  { r with cpu := update r.cpu c cpu }

def valid (r : Runqueues) (t : Tid) : Bool := decide (t < r.count)

def online (r : Runqueues) (c : CpuId) : Bool :=
  decide (c < K64_CPU_MAX) && r.onlineMask.getLsbD c

/-- `mask & ~r->online_mask`. -/
def outside (r : Runqueues) (mask : BitVec 64) : Bool := mask &&& ~~~r.onlineMask != 0

end Runqueues

def Thread.cohortSafe (t : Thread) : Bool := t.apKernelCohort != 0 && t.bindings == {}

/-- The return value, the queues after the call, and whether every `KASSERT` held. -/
structure Ret where
  rc : Int
  rq : Runqueues
  kassert : Bool := true

namespace Runqueues

def fail (r : Runqueues) : Ret := { rc := -1, rq := r }

/-- `k64_rq_admit_cohort_locked`. -/
def rqAdmitCohort (r : Runqueues) (c : CpuId) (idle : Tid) : Ret :=
  let cpu := r.cpu c
  let th := r.table idle
  if c = 0 ∨ K64_CPU_MAX ≤ c ∨ r.online c ∨ !r.valid idle ∨ !th.cohortSafe ∨ th.state ≠ .new ∨
      th.readyQueued ∨ th.onCpu ≠ K64_CPU_NONE ∨ cpu.current ≠ none ∨ cpu.idle ≠ none ∨
      cpu.outgoing ≠ none ∨ cpu.readyCount ≠ 0 ∨ cpu.readyMask ≠ 0 then r.fail
  else
    let r := r.setThread idle { th with
      state := .running, cpuMask := cpuBit c, onCpu := c, schedPriority := 0, agingServiceLeft := 0 }
    let r := r.setCpu c { cpu with current := some idle, idle := some idle }
    { rc := 0, rq := { r with onlineMask := r.onlineMask ||| cpuBit c } }

/-- `k64_rq_withdraw_cohort_locked`. -/
def rqWithdrawCohort (r : Runqueues) (c : CpuId) : Ret :=
  if c = 0 ∨ !r.online c then r.fail
  else
    let cpu := r.cpu c
    match cpu.idle with
    | none => r.fail
    | some idle =>
      let th := r.table idle
      if !r.valid idle ∨ !th.cohortSafe ∨ cpu.current ≠ some idle ∨ th.state ≠ .running ∨
          th.onCpu ≠ c ∨ th.readyQueued ∨ cpu.outgoing ≠ none ∨ cpu.readyCount ≠ 0 ∨
          cpu.readyMask ≠ 0 then r.fail
      else
        let r := r.setThread idle { th with state := .new, onCpu := K64_CPU_NONE, cpuMask := 1 }
        let r := r.setCpu c { cpu with current := none, idle := none }
        { rc := 0, rq := { r with onlineMask := r.onlineMask &&& ~~~cpuBit c } }

/-! ### Queues -/

/-- `k64_rq_choose_locked`. -/
def rqChoose (r : Runqueues) (mask : BitVec 64) : CpuId :=
  if mask = 0 ∨ r.outside mask then K64_CPU_NONE
  else (List.range K64_CPU_MAX).foldl
    (fun best c =>
      if mask.getLsbD c ∧ (best = K64_CPU_NONE ∨ (r.cpu c).readyCount < (r.cpu best).readyCount)
      then c else best) K64_CPU_NONE

/-- `t->ready_prev->ready_next = next`, or the head of the queue. -/
def setNextOf (r : Runqueues) (prev : Option Tid) (c : CpuId) (p : Nat) (next : Option Tid) :
    Runqueues :=
  match prev with
  | some u => r.setThread u { r.table u with readyNext := next }
  | none => r.setCpu c { r.cpu c with head := update (r.cpu c).head p next }

/-- `t->ready_next->ready_prev = prev`, or the tail of the queue. -/
def setPrevOf (r : Runqueues) (next : Option Tid) (c : CpuId) (p : Nat) (prev : Option Tid) :
    Runqueues :=
  match next with
  | some u => r.setThread u { r.table u with readyPrev := prev }
  | none => r.setCpu c { r.cpu c with tail := update (r.cpu c).tail p prev }

/-- `k64_rq_enqueue_locked`. -/
def rqEnqueue (r : Runqueues) (t : Tid) (c : CpuId) (since order : Nat) : Ret :=
  let th := r.table t
  if !r.valid t ∨ !r.online c ∨ th.state ≠ .ready ∨ th.readyQueued ∨ th.onCpu ≠ K64_CPU_NONE ∨
      SCHED_PRIORITY_LEVELS ≤ th.schedPriority ∨ th.cpuMask = 0 ∨ r.outside th.cpuMask ∨
      !th.cpuMask.getLsbD c ∨ (r.cpu c).idle = some t ∨ r.count ≤ (r.cpu c).readyCount then r.fail
  else
    let p := th.schedPriority
    let prev := (r.cpu c).tail p
    let r := r.setThread t { th with
      readyPrev := prev, readyNext := none, readySince := since, readyOrder := order
      readyQueued := true, readyCpu := c, agingServiceLeft := 0 }
    let r := r.setNextOf prev c p (some t)
    let cpu := r.cpu c
    { rc := 0
      rq := r.setCpu c { cpu with
        tail := update cpu.tail p (some t)
        readyMask := cpu.readyMask ||| levelBit p
        readyCount := cpu.readyCount + 1 } }

/-- `k64_rq_remove_locked`. -/
def rqRemove (r : Runqueues) (t : Tid) : Ret :=
  let th := r.table t
  if !r.valid t ∨ !th.readyQueued ∨ !r.online th.readyCpu ∨
      SCHED_PRIORITY_LEVELS ≤ th.schedPriority then r.fail
  else
    let c := th.readyCpu
    let p := th.schedPriority
    let cpu := r.cpu c
    if th.readyPrev.any (fun u => !r.valid u || (r.table u).readyNext != some t) ∨
        th.readyNext.any (fun u => !r.valid u || (r.table u).readyPrev != some t) then r.fail
    else if cpu.readyCount = 0 ∨ (th.readyPrev = none ∧ cpu.head p ≠ some t) ∨
        (th.readyNext = none ∧ cpu.tail p ≠ some t) then r.fail
    else
      let r := r.setNextOf th.readyPrev c p th.readyNext
      let r := r.setPrevOf th.readyNext c p th.readyPrev
      let r := r.setThread t { r.table t with
        readyPrev := none, readyNext := none, readyQueued := false, readyCpu := K64_CPU_NONE }
      let cpu := r.cpu c
      { rc := 0
        rq := r.setCpu c { cpu with
          readyMask := if (cpu.head p).isNone then cpu.readyMask &&& ~~~levelBit p else cpu.readyMask
          readyCount := cpu.readyCount - 1 } }

/-! ### Hand-offs -/

/-- `k64_rq_dispatch_locked`. -/
def rqDispatch (r : Runqueues) (c : CpuId) (next : Tid) (aged : Bool) (now : Nat) : Ret :=
  if !r.online c ∨ !r.valid next then r.fail
  else
    match (r.cpu c).current with
    | none => r.fail
    | some prev =>
      let pt := r.table prev
      let nt := r.table next
      if !r.valid prev ∨ pt.onCpu ≠ c ∨ (r.cpu c).outgoing ≠ none ∨ pt.readyQueued ∨
          pt.state = .running ∨ nt.state ≠ .ready ∨ nt.cpuMask = 0 ∨ r.outside nt.cpuMask ∨
          !nt.cpuMask.getLsbD c ∨ (next ≠ prev ∧ nt.onCpu ≠ K64_CPU_NONE) ∨
          (nt.readyQueued ∧ nt.readyCpu ≠ c) ∨
          (!nt.readyQueued ∧ next ≠ prev ∧ (r.cpu c).idle ≠ some next) then r.fail
      else
        let removed := if nt.readyQueued then r.rqRemove next else { rc := 0, rq := r }
        if removed.rc ≠ 0 then { rc := -1, rq := removed.rq }
        else
          let r := removed.rq
          let nt := r.table next
          let waited := elapsed now nt.readySince
          let r := r.setThread next { nt with
            agingServiceLeft := if aged then SCHED_AGED_SERVICE_TICKS else 0
            quantumLeft := nt.quantumTicks
            maxReadyWaitTicks :=
              if (r.cpu c).idle ≠ some next ∧ nt.maxReadyWaitTicks < waited then waited
              else nt.maxReadyWaitTicks
            state := .running }
          if next = prev then { rc := 0, rq := r }
          else
            let r := r.setThread next { r.table next with onCpu := c }
            { rc := 1
              rq := r.setCpu c { r.cpu c with current := some next, outgoing := some prev } }

/-- `k64_rq_complete_locked`: the thread, the queues, and whether the `KASSERT` held. -/
def rqComplete (r : Runqueues) (c : CpuId) : Option Tid × Runqueues × Bool :=
  if !r.online c then (none, r, true)
  else
    match (r.cpu c).outgoing, (r.cpu c).current with
    | some t, some current =>
      let th := r.table t
      let ct := r.table current
      if !r.valid t ∨ !r.valid current ∨ t = current ∨ th.onCpu ≠ c ∨ ct.onCpu ≠ c ∨
          ct.state ≠ .running ∨ th.readyQueued ∨
          (th.state ≠ .ready ∧ th.state ≠ .blocked ∧ th.state ≠ .zombie) ∨
          th.cpuMask = 0 ∨ r.outside th.cpuMask then (none, r, true)
      else
        let r := r.setThread t { th with onCpu := K64_CPU_NONE }
        let queued :=
          if th.state = .ready ∧ (r.cpu c).idle ≠ some t then
            r.rqEnqueue t (r.rqChoose th.cpuMask) th.readySince th.readyOrder
          else { rc := 0, rq := r }
        let r := queued.rq
        (some t, r.setCpu c { r.cpu c with outgoing := none }, queued.rc == 0)
    | _, _ => (none, r, true)

/-! ### Workers -/

/-- `k64_rq_work_park_locked`. -/
def rqWorkPark (r : Runqueues) (c : CpuId) (t : Tid) : Ret :=
  let th := r.table t
  if c = 0 ∨ !r.online c ∨ !r.valid t ∨ th.apKernelCohort ≠ K64_AP_WORKER_CLASS ∨ !th.cohortSafe ∨
      (r.cpu c).current ≠ some t ∨ (r.cpu c).idle = some t ∨ th.state ≠ .running ∨ th.onCpu ≠ c ∨
      th.readyQueued ∨ (r.cpu c).outgoing ≠ none then r.fail
  else { rc := 0, rq := r.setThread t { th with state := .blocked, agingServiceLeft := 0 } }

/-- The thread is `current` or `outgoing` of the CPU. -/
def occupies (r : Runqueues) (c : CpuId) (t : Tid) : Bool :=
  (r.cpu c).current == some t || (r.cpu c).outgoing == some t

/-- `k64_rq_work_wake_locked`. -/
def rqWorkWake (r : Runqueues) (t : Tid) (now order : Nat) : Ret :=
  let th := r.table t
  if !r.valid t ∨ th.apKernelCohort ≠ K64_AP_WORKER_CLASS ∨ !th.cohortSafe ∨ th.cpuMask = 0 ∨
      th.cpuMask.getLsbD 0 ∨ r.outside th.cpuMask ∨ SCHED_PRIORITY_LEVELS ≤ th.schedPriority ∨
      th.quantumTicks = 0 ∨ SCHED_MAX_QUANTUM_TICKS < th.quantumTicks then r.fail
  else if th.state ≠ .blocked then
    if th.state = .ready ∨ th.state = .running then { rc := 0, rq := r } else r.fail
  else if th.readyQueued ∨ th.readyPrev ≠ none ∨ th.readyNext ≠ none ∨
      (th.onCpu ≠ K64_CPU_NONE ∧ (!r.online th.onCpu ∨ !r.occupies th.onCpu t)) then r.fail
  else
    let r := r.setThread t { th with
      state := .ready, readySince := now, readyOrder := order, agingServiceLeft := 0 }
    if th.onCpu = K64_CPU_NONE then r.rqEnqueue t (r.rqChoose th.cpuMask) now order
    else { rc := 0, rq := r, kassert := r.online th.onCpu && r.occupies th.onCpu t }

/-- `k64_rq_work_move_locked`. -/
def rqWorkMove (r : Runqueues) (t : Tid) (destination : CpuId) : Ret :=
  let th := r.table t
  if !r.valid t ∨ th.apKernelCohort ≠ K64_AP_WORKER_CLASS ∨ !th.cohortSafe ∨ destination = 0 ∨
      !r.online destination ∨ th.state ≠ .blocked ∨ th.onCpu ≠ K64_CPU_NONE ∨ th.readyQueued ∨
      th.readyPrev ≠ none ∨ th.readyNext ≠ none ∨ th.readyCpu ≠ K64_CPU_NONE ∨ th.cpuMask = 0 ∨
      th.cpuMask &&& (th.cpuMask - 1) ≠ 0 ∨ th.cpuMask.getLsbD 0 ∨ r.outside th.cpuMask ∨
      th.cpuMask = cpuBit destination then r.fail
  else if (List.range K64_CPU_MAX).any
      (fun c => r.occupies c t || (r.cpu c).idle == some t) then r.fail
  else { rc := 0, rq := r.setThread t { th with cpuMask := cpuBit destination } }

/-- `k64_rq_policy_locked`. -/
def rqPolicy (r : Runqueues) (t : Tid) (priority quantum : Nat) (mask : BitVec 64)
    (now order : Nat) : Ret :=
  let th := r.table t
  if !r.valid t ∨ th.state = .free ∨ th.state = .zombie ∨ SCHED_PRIORITY_LEVELS ≤ priority ∨
      quantum = 0 ∨ SCHED_MAX_QUANTUM_TICKS < quantum ∨ mask = 0 ∨ r.outside mask ∨
      (th.onCpu ≠ K64_CPU_NONE ∧ (!r.online th.onCpu ∨ !mask.getLsbD th.onCpu)) then r.fail
  else if th.readyQueued ∧ (th.onCpu ≠ K64_CPU_NONE ∨ !r.online th.readyCpu) then r.fail
  else if (List.range K64_CPU_MAX).any (fun c => (r.cpu c).idle == some t) then r.fail
  else
    let move := th.readyQueued &&
      (decide (priority ≠ th.schedPriority) || !mask.getLsbD th.readyCpu)
    let removed := if move then r.rqRemove t else { rc := 0, rq := r }
    if removed.rc ≠ 0 then { rc := -1, rq := removed.rq }
    else
      let r := removed.rq
      let th := r.table t
      let r := r.setThread t { th with
        schedPriority := priority
        quantumTicks := quantum
        quantumLeft := if th.state ≠ .running ∨ quantum < th.quantumLeft then quantum
          else th.quantumLeft
        cpuMask := mask }
      if move then r.rqEnqueue t (r.rqChoose mask) now order else { rc := 0, rq := r }

/-! ### The check -/

/-- What `k64_rq_validate_locked` asks of a thread at level `p` of the CPU `c`, behind `prev`. -/
def queuedRight (r : Runqueues) (c : CpuId) (p : Nat) (prev : Option Tid) (t : Tid) : Bool :=
  let th := r.table t
  th.state == .ready && th.readyQueued && th.readyCpu == c && th.onCpu == K64_CPU_NONE &&
    th.schedPriority == p && th.readyPrev == prev && r.online c && th.cpuMask.getLsbD c &&
    !r.outside th.cpuMask

/-- The `while (t)` loop over one queue: `seen` are the threads met so far, the last first,
`n` of them on this CPU. -/
def validateQueue (r : Runqueues) (c : CpuId) (p : Nat) :
    Nat → Option Tid → Option Tid → Nat → List Tid → Option (Option Tid × Nat × List Tid)
  | 0, _, _, _, _ => none
  | _ + 1, prev, none, n, seen => some (prev, n, seen)
  | fuel + 1, prev, some t, n, seen =>
    if r.count < n + 1 ∨ !r.valid t then none
    else if t ∈ seen ∨ !r.queuedRight c p prev t then none
    else validateQueue r c p fuel (some t) (r.table t).readyNext (n + 1) (t :: seen)

/-- The loop over the levels of one CPU. -/
def validateLevels (r : Runqueues) (c : CpuId) :
    List Nat → Nat → BitVec 32 → List Tid → Option (Nat × BitVec 32 × List Tid)
  | [], n, mask, seen => some (n, mask, seen)
  | p :: ps, n, mask, seen =>
    let mask := if ((r.cpu c).head p).isSome then mask ||| levelBit p else mask
    match r.validateQueue c p (r.count + 2) none ((r.cpu c).head p) n seen with
    | none => none
    | some (last, n, seen) =>
      if last ≠ (r.cpu c).tail p then none else validateLevels r c ps n mask seen

def validateCpus (r : Runqueues) : List CpuId → List Tid → Option (List Tid)
  | [], seen => some seen
  | c :: cs, seen =>
    match r.validateLevels c (List.range SCHED_PRIORITY_LEVELS) 0 0 seen with
    | none => none
    | some (n, mask, seen) =>
      if n ≠ (r.cpu c).readyCount ∨ mask ≠ (r.cpu c).readyMask then none
      else validateCpus r cs seen

/-- `k64_rq_validate_locked`; `true` for 0. -/
def rqValidate (r : Runqueues) : Bool :=
  match r.validateCpus (List.range K64_CPU_MAX) [] with
  | none => false
  | some seen => (List.range r.count).all fun i =>
      (r.table i).readyQueued == decide (i ∈ seen) &&
        (decide (i ∈ seen) || ((r.table i).readyPrev == none && (r.table i).readyNext == none))

end Runqueues

end Win98Modern.Sched
