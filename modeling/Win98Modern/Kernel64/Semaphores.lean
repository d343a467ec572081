import Mathlib.Data.BitVec
import Win98Modern.Lib.ChainFamily

/-!
# Kernel semaphores and mutexes

`sem_wait`, `sem_wait_timeout`, `sem_post`, `mutex_lock`, `mutex_unlock` and the timeout scan of the tick on
one processor.  Interrupts are off in each of them, so the threads interleave where a call blocks: there
`schedule` runs other threads, and the blocked one goes on behind it (`Call`) when it is ready again.

The waiters of an object are linked through `next` of the threads.  A `System` adds to the state a record of
what was done: the waits take numbers in the order in which they begin.
-/

namespace Win98Modern.Semaphores

open Function

def TICK_US : Nat := 1000
def UINT64_MAX : Nat := 2 ^ 64 - 1
/-- The `STATUS_TIMEOUT` marker. -/
def TIMEOUT_MARKER : Int := 0x102

/-- What threads wait for. -/
inductive Obj
  | sem (s : Nat)
  | mutex (m : Nat)
  deriving DecidableEq

/-- Where a pointer to a thread is kept: `waiters` of an object, `next` of a thread. -/
inductive Slot
  | waiters (o : Obj)
  | next (t : Nat)
  deriving DecidableEq

inductive Call
  | none
  | semWait (s ms : Nat)
  | mutexLock (m : Nat)
  | sleep
  deriving DecidableEq

def Call.obj : Call → Option Obj
  | .semWait s _ => some (.sem s)
  | .mutexLock m => some (.mutex m)
  | _ => .none

structure Thread where
  /-- `state == TS_BLOCKED`; otherwise the thread is ready or running. -/
  blocked : Bool
  wakeTick : Nat
  waitSem : Option Nat
  waitResult : Int
  call : Call

structure State where
  threadHi : Nat
  jiffies : Nat
  thread : Nat → Thread
  count : Nat → BitVec 32
  locked : Nat → Bool
  owner : Nat → Option Nat
  link : Slot → Option Nat

def State.setThread (σ : State) (t : Nat) (th : Thread) : State :=
  { σ with thread := update σ.thread t th }

/-- `s->waiters` or `m->waiters`. -/
abbrev State.waiters (σ : State) (o : Obj) : Option Nat := σ.link (.waiters o)

/-- `current->next = 0;` and `current` is put behind the last waiter. -/
def State.enqueue (σ : State) (o : Obj) (t : Nat) : State :=
  { σ with link := appendNode Slot.next σ.threadHi (.waiters o) t σ.link }

/-- `waiters = w->next; w->next = 0;` for the first waiter `w`. -/
def State.dequeue (σ : State) (o : Obj) (w : Nat) : State :=
  { σ with link := update (update σ.link (.waiters o) (σ.link (.next w))) (.next w) none }

/-! ### Time -/

def deadlineAfterMs (jiffies ms : Nat) : Nat :=
  let whole := ms / TICK_US
  let fraction := (ms % TICK_US * 1000 + TICK_US - 1) / TICK_US
  if whole > (UINT64_MAX - fraction) / 1000 then UINT64_MAX
  else
    let ticks := whole * 1000 + fraction
    let ticks := if ticks = 0 then 1 else ticks
    if ticks > UINT64_MAX - jiffies then UINT64_MAX else jiffies + ticks

/-- What the scan of the tick does with a thread. -/
def expire (σ : State) (i : Nat) : State :=
  let th := σ.thread i
  if th.blocked ∧ th.wakeTick ≠ 0 ∧ th.wakeTick ≤ σ.jiffies then
    let σ' := match th.waitSem with
      | some s => { σ with link := removeNode Slot.next σ.threadHi (.waiters (.sem s)) i σ.link }
      | none => σ
    let result := if th.waitSem.isSome then -1 else th.waitResult
    σ'.setThread i { th with
      blocked := false, wakeTick := 0, waitSem := none
      waitResult := if result ≠ 0 then result else TIMEOUT_MARKER }
  else σ

def schedTick (σ : State) : State :=
  (List.range σ.threadHi).foldl expire { σ with jiffies := (σ.jiffies + 1) % 2 ^ 64 }

def threadSleepMs (σ : State) (t ms : Nat) : State :=
  σ.setThread t { σ.thread t with wakeTick := deadlineAfterMs σ.jiffies ms, blocked := true, call := .sleep }

/-! ### Semaphores -/

/-- `sem_wait_common` up to its return or to `schedule`; `ms` is 0 for a wait without end. -/
def semWaitCommon (σ : State) (t s ms : Nat) : State :=
  if BitVec.slt 0 (σ.count s) then { σ with count := update σ.count s (σ.count s - 1) }
  else
    (σ.enqueue (.sem s) t).setThread t { σ.thread t with
      waitSem := some s
      wakeTick := if ms ≠ 0 then deadlineAfterMs σ.jiffies ms else 0
      waitResult := 0, blocked := true, call := .semWait s ms }

/-- `sem_wait_common` behind `schedule`. -/
def semWaitReturn (σ : State) (t ms : Nat) : Int × State :=
  let rc : Int := if ms ≠ 0 ∧ (σ.thread t).waitResult = -1 then -1 else 0
  (rc, σ.setThread t { σ.thread t with waitResult := 0, call := .none })

def semWait (σ : State) (t s : Nat) : State := semWaitCommon σ t s 0
def semWaitTimeout (σ : State) (t s ms : Nat) : State := semWaitCommon σ t s (if ms ≠ 0 then ms else 1)

def semPost (σ : State) (s : Nat) : State :=
  match σ.waiters (.sem s) with
  | some w =>
    (σ.dequeue (.sem s) w).setThread w { σ.thread w with waitSem := none, wakeTick := 0, blocked := false }
  | none => { σ with count := update σ.count s (σ.count s + 1) }

/-! ### Mutexes -/

/-- A turn of the loop of `mutex_lock`; without a result when the assertion fails. -/
def mutexLock (σ : State) (t m : Nat) : Option State :=
  if σ.locked m = false then
    some ({ σ with locked := update σ.locked m true, owner := update σ.owner m (some t) }.setThread t
      { σ.thread t with call := .none })
  else if σ.owner m = some t then none
  else some ((σ.enqueue (.mutex m) t).setThread t { σ.thread t with blocked := true, call := .mutexLock m })

def mutexUnlock (σ : State) (t m : Nat) : Option State :=
  if σ.locked m = true ∧ σ.owner m = some t then
    let σ := { σ with locked := update σ.locked m false, owner := update σ.owner m none }
    match σ.waiters (.mutex m) with
    | some w => some ((σ.dequeue (.mutex m) w).setThread w { σ.thread w with blocked := false })
    | none => some σ
  else none

/-- Threads that run, and objects as `sem_init` and `mutex_init` leave them.  Results of earlier waits and
links in `next` are whatever they are. -/
def State.init (threadHi jiffies : Nat) (count : Nat → BitVec 32) (result : Nat → Int) (next : Nat → Option Nat) :
    State where
  threadHi := threadHi
  jiffies := jiffies
  thread t := ⟨false, 0, none, result t, .none⟩
  count := count
  locked _ := false
  owner _ := none
  link
    | .waiters _ => none
    | .next t => next t

/-! ### Runs -/

inductive Event
  | semWait (t s : Nat)
  | semWaitTimeout (t s ms : Nat)
  | semPost (s : Nat)
  | tick
  | mutexLock (t m : Nat)
  | mutexUnlock (t m : Nat)
  | sleep (t ms : Nat)
  /-- A thread that was woken goes on in its call. -/
  | resume (t : Nat)
  deriving DecidableEq

/-- The machine, and what was done on it. -/
structure System where
  state : State
  initial : Nat → BitVec 32
  posts : Nat → Nat
  /-- The number of the next wait, and that of the last wait of a thread. -/
  drawn : Nat
  ticket : Nat → Nat
  /-- The waits on a semaphore that were given a unit, in this order. -/
  served : Nat → List Nat
  /-- The waits on a semaphore that have returned, with what they returned. -/
  returned : Nat → List (Nat × Int)
  /-- The threads whose `mutex_lock` has returned and that have not unlocked the mutex. -/
  holders : Nat → List Nat

def State.Free (σ : State) (t : Nat) : Prop :=
  t < σ.threadHi ∧ (σ.thread t).blocked = false ∧ (σ.thread t).call = .none

instance (σ : State) (t : Nat) : Decidable (σ.Free t) :=
  inferInstanceAs (Decidable (_ ∧ _))

/-- A wait begins, with this state after it: it takes a number, and without blocking it is served and
returns 0. -/
def System.wait (S : System) (t s : Nat) (σ : State) : System :=
  let k := S.drawn
  let S' := { S with
    state := σ
    drawn := k + 1
    ticket := update S.ticket t k }
  if BitVec.slt 0 (S.state.count s) then
    { S' with
      served := update S.served s (S.served s ++ [k])
      returned := update S.returned s (S.returned s ++ [(k, 0)]) }
  else S'

def System.post (S : System) (s : Nat) : System :=
  let S' := { S with state := semPost S.state s, posts := update S.posts s (S.posts s + 1) }
  match S.state.waiters (.sem s) with
  | some w => { S' with served := update S.served s (S.served s ++ [S.ticket w]) }
  | none => S'

/-- `mutex_lock` is called or goes on, and it returns when the mutex was free. -/
def System.lock (S : System) (t m : Nat) : System :=
  match mutexLock S.state t m with
  | none => S
  | some σ =>
    if S.state.locked m = false then
      { S with state := σ, holders := update S.holders m (S.holders m ++ [t]) }
    else { S with state := σ }

def System.unlock (S : System) (t m : Nat) : System :=
  match mutexUnlock S.state t m with
  | none => S
  | some σ => { S with state := σ, holders := update S.holders m ((S.holders m).filter (· ≠ t)) }

def System.resume (S : System) (t : Nat) : System :=
  match (S.state.thread t).call with
  | .none => S
  | .semWait s ms =>
    let r := semWaitReturn S.state t ms
    { S with state := r.2, returned := update S.returned s (S.returned s ++ [(S.ticket t, r.1)]) }
  | .mutexLock m => S.lock t m
  | .sleep => { S with state := S.state.setThread t { S.state.thread t with call := .none } }

/-- A step.  What a thread cannot do where it is, or an assertion that fails, is no step. -/
def System.step (S : System) : Event → System
  | .semWait t s => if S.state.Free t then S.wait t s (semWait S.state t s) else S
  | .semWaitTimeout t s ms => if S.state.Free t then S.wait t s (semWaitTimeout S.state t s ms) else S
  | .semPost s => S.post s
  | .tick => { S with state := schedTick S.state }
  | .mutexLock t m => if S.state.Free t then S.lock t m else S
  | .mutexUnlock t m => if S.state.Free t then S.unlock t m else S
  | .sleep t ms => if S.state.Free t then { S with state := threadSleepMs S.state t ms } else S
  | .resume t => if t < S.state.threadHi ∧ (S.state.thread t).blocked = false then S.resume t else S

def System.start (σ : State) : System where
  state := σ
  initial := σ.count
  posts _ := 0
  drawn := 0
  ticket _ := 0
  served _ := []
  returned _ := []
  holders _ := []

end Win98Modern.Semaphores
