import Win98Modern.Lib.Chain
import Mathlib.Algebra.Group.Int.Defs
import Mathlib.Algebra.Group.Nat.Defs
import Mathlib.Data.Int.Basic

/-!
# Kernel objects and waits

Events, semaphores, mutants, timers, thread and process objects, and the wait machinery of
the object manager: `obWait` with its fast path, `releaseCheck` which satisfies waiters in
the order of the object's waiter list, the release of a dead thread's mutants.

A section with interrupts off is one step of the machine (`Machine.step`); which thread runs
next is free.  A thread is its slot, an object an address that is never given out twice.
Waitblocks are linked through the slots of the library's lists.

`log` and `loose` are bookkeeping that no function reads: what happened, newest first, and
how many references of an object are neither a thread's nor an owner's.
-/

namespace Win98Modern.Ob

open Function

abbrev Oid := Nat
abbrev Tid := Nat

def MAX_WAIT : Nat := 64
def MAX_THREADS : Nat := 1024

def STATUS_SUCCESS : Int := 0
def STATUS_ABANDONED_WAIT_0 : Int := 0x80
def STATUS_TIMEOUT : Int := 0x102
def STATUS_INVALID_PARAMETER : Int := 0xC000000D - 2 ^ 32
def STATUS_NO_MEMORY : Int := 0xC0000017 - 2 ^ 32
def STATUS_THREAD_IS_TERMINATING : Int := 0xC000004B - 2 ^ 32

def INT64_MAX : Int := 2 ^ 63 - 1
def TICK_US : Nat := 1000

/-- The value of an `int` after an addition. -/
def wrap32 (x : Int) : Int := x.bmod (2 ^ 32)

/-! ### The data -/

/-- `io` is a socket or a handle for requests in progress; nobody waits for an `other`. -/
inductive ObType
  | event | mutant | semaphore | thread | process | timer | io | other
  deriving DecidableEq, Repr

structure Kobject where
  type : ObType
  refs : Nat := 0
  signaled : Bool := false
  manual : Bool := false
  owner : Option Tid := none
  recursion : Int := 0
  abandoned : Bool := false
  count : Int := 0
  max : Int := 0
  /-- The thread of a thread object, until it is reclaimed. -/
  thr : Option Tid := none
  dueTick : Nat := 0
  periodMs : Nat := 0
  armed : Bool := false
  deriving DecidableEq, Repr

/-- A waitblock is known by its thread and its index in the wait. -/
structure Block where
  thread : Tid
  index : Nat
  deriving DecidableEq, Repr

/-- `&o->waiters` or `&w->next`. -/
inductive Slot
  | waiters (o : Oid)
  | next (w : Block)
  deriving DecidableEq, Repr

/-- `result` is -1 while the wait is pending, then an index, or -2 for a timeout. -/
structure Waitdesc where
  objs : List Oid
  all : Bool
  result : Int
  abandoned : Bool
  deriving DecidableEq, Repr

/-- `ready` is a thread that runs or may be picked to run. -/
inductive ThreadState
  | free | ready | blocked | zombie
  deriving DecidableEq, Repr

structure Thread where
  state : ThreadState := .free
  waitMulti : Option Waitdesc := none
  wakeTick : Nat := 0
  object : Option Oid := none
  deriving DecidableEq, Repr

inductive Event
  | created (o : Oid) (k : Kobject)
  | called (t : Tid) (objs : List Oid) (all : Bool)
  | blocked (t : Tid)
  /-- A wait of `t` is satisfied by taking these; `fits`: they were all there to take. -/
  | satisfied (t : Tid) (taken : List Oid) (fits : Bool)
  | acquired (t : Tid) (o : Oid)
  /-- `mutant_take`. -/
  | took (t : Tid) (o : Oid)
  | returned (t : Tid) (status : Int)
  | signal (o : Oid)
  | released (o : Oid) (n : Int)
  | dropped (t : Tid) (o : Oid)
  | forfeited (t : Tid) (o : Oid)
  deriving DecidableEq, Repr

structure Machine where
  objs : Oid → Kobject
  threads : Tid → Thread
  links : Slot → Option Block
  /-- `owned_mutants`. -/
  owned : List Oid
  /-- `timers_head`, up to `timer_count`. -/
  timers : List Oid
  jiffies : Nat
  nextObj : Oid
  /-- Process objects marked signaled whose waiters are still to be released. -/
  reaping : List Oid
  /-- A `KASSERT` failed. -/
  panicked : Bool
  loose : Oid → Nat
  log : List Event

/-- No objects, no threads. -/
def boot : Machine where
  objs := fun _ => { type := .other }
  threads := fun _ => {}
  links := fun _ => none
  owned := []
  timers := []
  jiffies := 0
  nextObj := 0
  reaping := []
  panicked := false
  loose := fun _ => 0
  log := []

namespace Machine

def setObj (s : Machine) (o : Oid) (k : Kobject) : Machine :=
  { s with objs := update s.objs o k }

def setThread (s : Machine) (t : Tid) (th : Thread) : Machine :=
  { s with threads := update s.threads t th }

def setLoose (s : Machine) (o : Oid) (n : Nat) : Machine :=
  { s with loose := update s.loose o n }

def note (s : Machine) (e : Event) : Machine := { s with log := e :: s.log }

def kassert (s : Machine) (c : Bool) : Machine := { s with panicked := s.panicked || !c }

end Machine

/-! ### Acquiring -/

/-- `obj_signaled`. -/
def Kobject.signaledFor (k : Kobject) (t : Tid) : Bool :=
  match k.type with
  | .event | .thread | .process | .timer | .io => k.signaled
  | .semaphore => decide (0 < k.count)
  | .mutant => k.owner == none || k.owner == some t
  | .other => false

/-- What `mutant_take` does to the object. -/
def Kobject.take (k : Kobject) (t : Tid) : Kobject :=
  { k with
    refs := if k.owner = none then k.refs + 1 else k.refs
    owner := if k.owner = none then some t else k.owner
    recursion := wrap32 (k.recursion + 1)
    signaled := false }

/-- What `obj_acquire` does to the object. -/
def Kobject.acquire (k : Kobject) (t : Tid) : Kobject :=
  match k.type with
  | .event | .timer => if k.manual then k else { k with signaled := false }
  | .semaphore => { k with count := k.count - 1, signaled := decide (0 < k.count - 1) }
  | .mutant => { k.take t with abandoned := false }
  | _ => k

namespace Machine

def signaled (s : Machine) (o : Oid) (t : Tid) : Bool := (s.objs o).signaledFor t

/-- `mutant_take`; the object itself is written by the caller. -/
def mutantTake (s : Machine) (o : Oid) (t : Tid) : Machine :=
  let k := s.objs o
  let s := s.kassert (k.owner == none || k.owner == some t)
  { s with owned := if k.owner = none then o :: s.owned else s.owned }.note (.took t o)

/-- `obj_acquire`: the machine, and whether the object was abandoned. -/
def objAcquire (s : Machine) (o : Oid) (t : Tid) : Machine × Bool :=
  let k := s.objs o
  let s := s.note (.acquired t o)
  let s := if k.type = .mutant then s.mutantTake o t else s
  (s.setObj o (k.acquire t), k.type == .mutant && k.abandoned)

/-- One acquisition after the other, `ab |= obj_acquire(objs[i], t)`. -/
def acquireAll (t : Tid) : List Oid → Machine → Bool → Machine × Bool
  | [], s, ab => (s, ab)
  | o :: objs, s, ab =>
    let (s, a) := s.objAcquire o t
    acquireAll t objs s (ab || a)

/-- Each semaphore has a unit and each mutant a free recursion level for each time it is
in the list. -/
def fits (s : Machine) (taken : List Oid) : Bool :=
  taken.all fun o =>
    let k := s.objs o
    match k.type with
    | .semaphore => decide ((taken.count o : Int) ≤ k.count)
    | .mutant => decide (k.recursion + taken.count o < 2 ^ 31)
    | _ => true

/-- The acquisitions of one satisfied wait. -/
def acquireFor (s : Machine) (t : Tid) (taken : List Oid) : Machine × Bool :=
  acquireAll t taken (s.note (.satisfied t taken (s.fits taken))) false

/-! ### Waiter lists -/

end Machine

/-- No list is longer: every thread waits once, for at most `MAX_WAIT` objects. -/
def maxBlocks : Nat := MAX_THREADS * MAX_WAIT

/-- One iteration of `unlink_waits`. -/
def unlinkBlock (t : Tid) (heap : Slot → Option Block) (p : Oid × Nat) : Slot → Option Block :=
  unlink Slot.next ⟨t, p.2⟩ maxBlocks (.waiters p.1) heap

/-- A new waitblock goes behind the waiters that are there. -/
def linkBlock (t : Tid) (heap : Slot → Option Block) (p : Oid × Nat) : Slot → Option Block :=
  let heap := update heap (.next ⟨t, p.2⟩) none
  update heap (tailSlot Slot.next heap maxBlocks (.waiters p.1)) (some ⟨t, p.2⟩)

namespace Machine

def unlinkWaits (s : Machine) (t : Tid) (objs : List Oid) : Machine :=
  { s with links := objs.zipIdx.foldl (unlinkBlock t) s.links }

def linkWaits (s : Machine) (t : Tid) (objs : List Oid) : Machine :=
  { s with links := objs.zipIdx.foldl (linkBlock t) s.links }

def threadWake (s : Machine) (t : Tid) : Machine :=
  if (s.threads t).state = .blocked then
    s.setThread t { s.threads t with state := .ready, wakeTick := 0 }
  else s

def setWait (s : Machine) (t : Tid) (d : Option Waitdesc) : Machine :=
  s.setThread t { s.threads t with waitMulti := d }

/-- A pending wait is satisfied by another thread's signal. -/
def satisfy (s : Machine) (t : Tid) (d : Waitdesc) (taken : List Oid) (result : Int) : Machine :=
  let (s, ab) := s.acquireFor t taken
  let s := s.setWait t (some { d with result := result, abandoned := ab })
  (s.unlinkWaits t d.objs).threadWake t

/-- One iteration of `ob_release_check`; `true` leaves the loop. -/
def visit (s : Machine) (o : Oid) (w : Block) : Machine × Bool :=
  match (s.threads w.thread).waitMulti with
  | none => (s, false)
  | some d =>
    if d.result = -1 then
      if d.all then
        if d.objs.all (s.signaled · w.thread) then (s.satisfy w.thread d d.objs 0, false)
        else (s, false)
      else if s.signaled o w.thread then
        let s := s.satisfy w.thread d [o] w.index
        -- consumed: stop at the first satisfied waiter
        (s, !s.signaled o w.thread && (s.objs o).type != .thread && (s.objs o).type != .process)
      else (s, false)
    else (s, false)

/-- The loop of `ob_release_check`; the next waitblock is read before the iteration. -/
def releaseFrom (o : Oid) : Nat → Option Block → Machine → Machine
  | 0, _, s => s
  | _ + 1, none, s => s
  | fuel + 1, some w, s =>
    let next := s.links (.next w)
    let (s, stop) := s.visit o w
    if stop then s else releaseFrom o fuel next s

def releaseCheck (s : Machine) (o : Oid) : Machine :=
  releaseFrom o maxBlocks (s.links (.waiters o)) s

/-- `ob_deref`; the last reference of a timer takes it out of the table, where the last
entry moves to its place. -/
def obDeref (s : Machine) (o : Oid) : Machine :=
  let k := s.objs o
  let s := (s.kassert (0 < k.refs)).setObj o { k with refs := k.refs - 1 }
  if k.refs - 1 = 0 then
    let s := s.kassert (k.type != .mutant || k.owner == none)
    if k.type = .timer then
      match s.timers.idxOf? o with
      | none => s
      | some i => { s with timers := (s.timers.set i (s.timers.getLastD 0)).dropLast }
    else s
  else s

/-- `ob_create`; the new object is `s.nextObj`. -/
def obCreate (s : Machine) (k : Kobject) (loose : Nat) : Machine :=
  let s' := { s with nextObj := s.nextObj + 1 }.setObj s.nextObj { k with refs := 1 }
  (s'.setLoose s.nextObj loose).note (.created s.nextObj k)

/-! ### Signals -/

/-- `o->signaled = 1; ob_release_check(o);` in one section: `ob_signal_event`, a completed
request. -/
def obSignal (s : Machine) (o : Oid) : Machine :=
  ((s.setObj o { s.objs o with signaled := true }).note (.signal o)).releaseCheck o

/-- `ob_reset_event`. -/
def obReset (s : Machine) (o : Oid) : Machine := s.setObj o { s.objs o with signaled := false }

/-- `for (n = 0; n < a2 && o->u.sem.count > 0; ++n) ob_release_check(o);` -/
def semRounds (o : Oid) : Nat → Machine → Machine
  | 0, s => s
  | n + 1, s => if 0 < (s.objs o).count then semRounds o n (s.releaseCheck o) else s

/-- `NtReleaseSemaphore`, of which a refused call leaves everything as it is. -/
def releaseSemaphore (s : Machine) (o : Oid) (n : Int) : Machine :=
  let k := s.objs o
  if n ≤ 0 then s
  else if wrap32 (k.max - k.count) < n then s
  else
    let s := s.setObj o { k with count := k.count + n, signaled := true }
    semRounds o n.toNat (s.note (.released o n))

def mutantUnlinkOwned (s : Machine) (o : Oid) : Machine :=
  let s := s.kassert (s.owned.contains o)
  { s with owned := s.owned.erase o }

/-- `ob_mutant_release` up to the end of the section; the reference of the owner is then
the caller's to drop. -/
def mutantRelease (s : Machine) (o : Oid) (t : Tid) : Machine :=
  let k := s.objs o
  if k.owner = some t then
    let s := (s.kassert (0 < k.recursion)).note (.dropped t o)
    if k.recursion - 1 = 0 then
      let s := s.mutantUnlinkOwned o
      let s := s.setObj o { k with recursion := 0, owner := none, signaled := true }
      (s.setLoose o (s.loose o + 1)).releaseCheck o
    else s.setObj o { k with recursion := k.recursion - 1 }
  else s

def mutantInitialOwner (s : Machine) (o : Oid) (t : Tid) : Machine :=
  let k := s.objs o
  (s.mutantTake o t).setObj o (k.take t)

/-- The loop of `thread_object_signal` over the mutants that `t` still owns. -/
def forfeitOwned (t : Tid) : Nat → Machine → Machine
  | 0, s => s
  | fuel + 1, s =>
    match s.owned.find? fun o => (s.objs o).owner == some t with
    | none => s
    | some o =>
      let s := (s.mutantUnlinkOwned o).note (.forfeited t o)
      let s := s.setObj o { s.objs o with
        owner := none, recursion := 0, abandoned := true, signaled := true }
      let s := (s.setLoose o (s.loose o + 1)).releaseCheck o
      -- the reference of the old owner
      forfeitOwned t fuel ((s.setLoose o (s.loose o - 1)).obDeref o)

def threadObjectSignal (s : Machine) (t : Tid) : Machine :=
  let s := forfeitOwned t s.owned.length s
  match (s.threads t).object with
  | none => s
  | some o => s.obSignal o

/-- One timer of `sched_check_timeouts`. -/
def checkTimer (s : Machine) (o : Oid) : Machine :=
  let k := s.objs o
  if k.armed && decide (k.dueTick ≤ s.jiffies) then
    (s.setObj o (if k.periodMs = 0 then { k with armed := false }
      else { k with dueTick := s.jiffies + k.periodMs })).obSignal o
  else s

/-- The tick: blocked threads whose time is up become ready, timers that are due are
signaled. -/
def schedTick (s : Machine) : Machine :=
  let s := { s with jiffies := s.jiffies + 1 }
  let s := { s with threads := fun t =>
    let th := s.threads t
    if th.state = ThreadState.blocked ∧ th.wakeTick ≠ 0 ∧ th.wakeTick ≤ s.jiffies then
      { th with state := .ready, wakeTick := 0 }
    else th }
  s.timers.foldl checkTimer s

/-! ### Waiting -/

/-- The first object of a WaitAny that is signaled, with its index. -/
def firstSignaled (s : Machine) (t : Tid) (objs : List Oid) : Option (Oid × Nat) :=
  objs.zipIdx.find? fun p => s.signaled p.1 t

def abandonedBase (ab : Bool) : Int := if ab then STATUS_ABANDONED_WAIT_0 else 0

/-- `ob_wait` when nothing can be taken: `memory` is the outcome of the allocation. -/
def obBlock (s : Machine) (t : Tid) (objs : List Oid) (waitAll : Bool) (timeout : Int)
    (memory : Bool) : Machine :=
  if timeout = 0 then s.note (.returned t STATUS_TIMEOUT)
  else if memory then
    let s := s.linkWaits t objs
    let ms := if timeout < 0 then timeout.natAbs / 10000 else 0
    let wakeTick := if timeout = INT64_MAX then 0
      else s.jiffies + (ms * 1000 + TICK_US - 1) / TICK_US + 1
    (s.setThread t { s.threads t with
      waitMulti := some { objs := objs, all := waitAll, result := -1, abandoned := false }
      wakeTick := wakeTick
      state := .blocked }).note (.blocked t)
  else s.note (.returned t STATUS_NO_MEMORY)

/-- `ob_wait` up to the point where it returns or blocks. -/
def obWait (s : Machine) (t : Tid) (objs : List Oid) (waitAll : Bool) (timeout : Int)
    (memory : Bool) : Machine :=
  let s := s.note (.called t objs waitAll)
  if objs = [] ∨ MAX_WAIT < objs.length then s.note (.returned t STATUS_INVALID_PARAMETER)
  else if waitAll then
    if objs.all (s.signaled · t) then
      let (s, ab) := s.acquireFor t objs
      s.note (.returned t (abandonedBase ab))
    else s.obBlock t objs waitAll timeout memory
  else
    match s.firstSignaled t objs with
    | some (o, i) =>
      let (s, ab) := s.acquireFor t [o]
      s.note (.returned t (i + abandonedBase ab))
    | none => s.obBlock t objs waitAll timeout memory

/-- `ob_wait` after `thread_block_current` has returned. -/
def obResume (s : Machine) (t : Tid) (d : Waitdesc) : Machine :=
  let timedOut := d.result = -1
  let s := if timedOut then s.unlinkWaits t d.objs else s
  let result := if timedOut then -2 else d.result
  let s := s.setThread t { s.threads t with waitMulti := none, wakeTick := 0 }
  s.note (.returned t (
    if result = -2 then STATUS_TIMEOUT
    else if result = -3 then STATUS_THREAD_IS_TERMINATING
    else (if d.all then 0 else result) + abandonedBase d.abandoned))

end Machine

/-! ### Steps -/

/-- What one section with interrupts off does, and for whom. -/
inductive Act
  | spawn (t : Tid)
  | createEvent (manual signaled : Bool)
  | createSemaphore (initial max : Int)
  | createMutant (t : Tid) (initialOwner : Bool)
  | createTimer (manual : Bool)
  | createProcess
  | createIo
  | ref (o : Oid)
  | deref (o : Oid)
  | setEvent (o : Oid)
  | resetEvent (o : Oid)
  | releaseSemaphore (o : Oid) (n : Int)
  | releaseMutant (t : Tid) (o : Oid)
  | setTimer (o : Oid) (due : Int) (period : Int)
  | cancelTimer (o : Oid)
  /-- A request on a handle begins or is completed. -/
  | clearIo (o : Oid)
  | completeIo (o : Oid)
  /-- `process_reap_signal` stores `signaled` with interrupts on, and releases the waiters
  in the section after that. -/
  | markProcess (o : Oid)
  | checkProcess (o : Oid)
  | wait (t : Tid) (objs : List Oid) (all : Bool) (timeout : Int) (memory : Bool)
  /-- A kill or an asynchronous call wakes a waiting thread. -/
  | wake (t : Tid)
  | tick
  | resume (t : Tid)
  | exit (t : Tid)
  | reap (t : Tid)
  deriving DecidableEq, Repr

namespace Machine

def live (s : Machine) (o : Oid) (type : ObType) : Bool :=
  decide (0 < (s.objs o).refs) && (s.objs o).type == type

/-- The thread executes, outside of any wait. -/
def running (s : Machine) (t : Tid) : Bool :=
  decide (t < MAX_THREADS) && (s.threads t).state == .ready && (s.threads t).waitMulti == none

/-- A new timer is entered in the table if there is room. -/
def registerTimer (s : Machine) (o : Oid) : Machine :=
  if s.timers.length < 16 then { s with timers := s.timers ++ [o] } else s

/-- One step, if it can be taken. -/
def step (s : Machine) : Act → Option Machine
  | .spawn t =>
    if t < MAX_THREADS ∧ (s.threads t).state = .free then
      some ((s.obCreate { type := .thread, thr := some t } 0).setThread t
        { state := .ready, object := some s.nextObj })
    else none
  | .createEvent manual signaled =>
    some (s.obCreate { type := .event, manual := manual, signaled := signaled } 1)
  | .createSemaphore initial max =>
    if max ≤ 0 ∨ initial < 0 ∨ max < initial ∨ 2 ^ 31 ≤ max then none
    else
      some (s.obCreate { type := .semaphore, count := initial, max := max
                         signaled := decide (0 < initial) } 1)
  | .createMutant t initialOwner =>
    if s.running t then
      let s' := s.obCreate { type := .mutant, signaled := true } 1
      some (if initialOwner then s'.mutantInitialOwner s.nextObj t else s')
    else none
  | .createTimer manual =>
    some ((s.obCreate { type := .timer, manual := manual } 1).registerTimer s.nextObj)
  | .createProcess => some (s.obCreate { type := .process } 1)
  | .createIo => some (s.obCreate { type := .io } 1)
  | .ref o =>
    if 0 < (s.objs o).refs then
      some ((s.setObj o { s.objs o with refs := (s.objs o).refs + 1 }).setLoose o (s.loose o + 1))
    else none
  | .deref o =>
    if 0 < s.loose o then some ((s.setLoose o (s.loose o - 1)).obDeref o) else none
  | .setEvent o => if s.live o .event then some (s.obSignal o) else none
  | .resetEvent o => if s.live o .event then some (s.obReset o) else none
  | .releaseSemaphore o n => if s.live o .semaphore then some (s.releaseSemaphore o n) else none
  | .releaseMutant t o =>
    if s.running t && s.live o .mutant then some (s.mutantRelease o t) else none
  | .setTimer o due period =>
    if s.live o .timer then
      some (s.setObj o { s.objs o with
        signaled := false
        periodMs := if 0 < period then period.toNat else 0
        dueTick := s.jiffies + (if due < 0 then due.natAbs / 10000 else 1) + 1
        armed := true })
    else none
  | .cancelTimer o =>
    if s.live o .timer then some (s.setObj o { s.objs o with armed := false }) else none
  | .clearIo o => if s.live o .io then some (s.obReset o) else none
  | .completeIo o => if s.live o .io then some (s.obSignal o) else none
  | .markProcess o =>
    if s.live o .process then
      some { s.setObj o { s.objs o with signaled := true } with reaping := o :: s.reaping }
    else none
  | .checkProcess o =>
    if o ∈ s.reaping then
      some ({ s with reaping := s.reaping.erase o }.releaseCheck o)
    else none
  | .wait t objs all timeout memory =>
    if s.running t && objs.all (fun o => decide (0 < (s.objs o).refs)) then
      some (s.obWait t objs all timeout memory)
    else none
  | .wake t => some (s.threadWake t)
  | .tick => some s.schedTick
  | .resume t =>
    match (s.threads t).waitMulti with
    | some d => if (s.threads t).state = .ready then some (s.obResume t d) else none
    | none => none
  | .exit t =>
    if s.running t then
      some ((s.setThread t { s.threads t with state := .zombie }).threadObjectSignal t)
    else none
  | .reap t =>
    if (s.threads t).state = .zombie then
      let th := s.threads t
      let s := s.setThread t {}
      match th.object with
      | none => some s
      | some o => some ((s.setObj o { s.objs o with thr := none }).obDeref o)
    else none

/-- A failed `KASSERT` stops the kernel. -/
def next (s : Machine) (a : Act) : Option Machine := if s.panicked then none else s.step a

def run (s : Machine) : List Act → Option Machine
  | [] => some s
  | a :: as => (s.next a).bind fun s => s.run as

/-- `P` holds in every state of a run. -/
def Always (P : Machine → Prop) (s : Machine) : List Act → Prop
  | [] => P s
  | a :: as => P s ∧ ∀ s', s.next a = some s' → Always P s' as

/-- `C` holds of every step of a run, in the state before it. -/
def Meets (C : Machine → Act → Prop) (s : Machine) : List Act → Prop
  | [] => True
  | a :: as => ∀ s', s.next a = some s' → C s a ∧ Meets C s' as

end Machine

end Win98Modern.Ob
