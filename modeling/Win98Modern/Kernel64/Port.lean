import Mathlib.Data.List.Range
import Win98Modern.Lib.Chain

/-!
# Completion ports

The completion ports of `ipc_io.c`: posting a packet (`iocpPost`), taking packets off the queue
(`portTake`), the closing of the last handle, and `port_remove` as what it does between two
blocks: `portLoop` is one round of its loop, `portResume` what comes after the block.

Each section runs with interrupts off, so a run is a sequence of them.  A packet is its number
in posting order; a waiter record lives on the stack of its thread, and is named by it.
-/

namespace Win98Modern.Iocp

open Function

abbrev Tid := Nat
abbrev PacketId := Nat

structure Packet where
  key : Nat
  ctx : Nat
  status : Int
  info : Nat
  deriving DecidableEq, Repr

/-- Where a pointer to a packet or to a waiter record is kept. -/
inductive Slot
  | first
  | next (n : Nat)
  deriving DecidableEq, Repr

inductive Status
  | success | timeout | abandonedWait0 | userApc | threadIsTerminating | noMemory
  | insufficientResources
  deriving DecidableEq, Repr

/-- `iocp_t`, its packets and the waiter records: `queue .first` is `head`, `waiters .first` is
`waiters`. -/
structure Port where
  packet : PacketId → Packet
  queue : Slot → Option PacketId
  tail : Option PacketId
  count : Nat
  waiters : Slot → Option Tid
  got : Tid → Option PacketId
  closed : Bool

/-- The arguments of `port_remove`, with the deadline that it computes. -/
structure Args where
  max : Nat
  timeout : Option Int
  alertable : Bool
  deadline : Nat
  deriving DecidableEq, Repr

/-- Where a thread is with respect to the port. -/
inductive Phase
  | outside
  | waiting (a : Args)
  deriving DecidableEq, Repr

/-- What a thread reads beside the port: an APC is pending, it must die, the clock. -/
structure Env where
  apcPending : Bool
  mustDie : Bool
  ticks : Nat
  deriving DecidableEq, Repr

/-- The port, the threads, and what has happened: the number of calls of `port_remove`, the packets
posted, those that have left the queue or gone past it, and what the calls returned. -/
structure Sys where
  port : Port
  phase : Tid → Phase
  blocked : Tid → Bool
  calls : Nat
  posted : List PacketId
  left : List PacketId
  returned : List (Tid × List PacketId × Status)

def Sys.init : Sys where
  port := {
    packet := fun _ => { key := 0, ctx := 0, status := 0, info := 0 }
    queue := fun _ => none
    tail := none
    count := 0
    waiters := fun _ => none
    got := fun _ => none
    closed := false }
  phase := fun _ => .outside
  blocked := fun _ => false
  calls := 0
  posted := []
  left := []
  returned := []

/-! ### The queue -/

def Port.portTake (q : Port) : Option PacketId × Port :=
  match q.queue .first with
  | none => (none, q)
  | some pk =>
    let queue := update q.queue .first (q.queue (.next pk))
    (some pk, { q with
      queue := update queue (.next pk) none
      tail := if queue .first = none then none else q.tail
      count := q.count - 1 })

/-- `while (*n < max && (pk = port_take(q))) out[(*n)++] = pk;` with `max - *n` left. -/
def Port.takeMore : Nat → Port → List PacketId × Port
  | 0, q => ([], q)
  | k + 1, q =>
    match q.portTake with
    | (none, q) => ([], q)
    | (some pk, q) =>
      let (out, q) := q.takeMore k
      (pk :: out, q)

def Port.waiterRemove (q : Port) (fuel : Nat) (t : Tid) : Port :=
  { q with waiters := unlink Slot.next t fuel .first q.waiters }

def Sys.threadWake (s : Sys) (t : Tid) : Sys := { s with blocked := update s.blocked t false }

/-- `iocp_post`; `alloc` says whether the packet could be allocated. -/
def Sys.iocpPost (s : Sys) (p : Packet) (alloc : Bool) : Sys × Status :=
  if !alloc then (s, .insufficientResources)
  else
    let pk := s.posted.length
    let q := { s.port with
      packet := update s.port.packet pk p
      queue := update s.port.queue (.next pk) none }
    let s := { s with posted := s.posted ++ [pk] }
    match q.waiters .first with
    | some w =>
      let q := { q with
        waiters := update q.waiters .first (q.waiters (.next w))
        got := update q.got w (some pk) }
      let s := { s with port := q, left := s.left ++ [pk] }
      (if s.blocked w then s.threadWake w else s, .success)
    | none =>
      let slot := match q.tail with
        | some last => Slot.next last
        | none => Slot.first
      ({ s with port := { q with
          queue := update q.queue slot (some pk)
          tail := some pk
          count := q.count + 1 } }, .success)

/-- The loop of `iocp_handle_closed` over the waiters. -/
def Sys.wakeAll : Nat → Slot → Sys → Sys
  | 0, _, s => s
  | fuel + 1, p, s =>
    match s.port.waiters p with
    | none => s
    | some w => Sys.wakeAll fuel (.next w) (if s.blocked w then s.threadWake w else s)

/-- `iocp_handle_closed`; there are no more waiters than calls. -/
def Sys.iocpHandleClosed (s : Sys) : Sys :=
  Sys.wakeAll s.calls .first { s with port := { s.port with closed := true } }

/-! ### Removing packets -/

def TICK_US : Nat := 1000

/-- The deadline in ticks; 0 where the wait has no end or none is needed. -/
def deadlineOf (timeout : Option Int) (ticks : Nat) : Nat :=
  match timeout with
  | none => 0
  | some timeout =>
    if timeout = 0 then 0
    else
      let ms := if timeout < 0 then (-timeout).toNat / 10000 else 0
      ticks + (ms * 1000 + TICK_US - 1) / TICK_US + 1

def Sys.ret (s : Sys) (t : Tid) (out : List PacketId) (st : Status) : Sys :=
  { s with
    phase := update s.phase t .outside
    returned := s.returned ++ [(t, out, st)] }

/-- One round of the loop of `port_remove`: it returns or blocks. -/
def Sys.portLoop (s : Sys) (t : Tid) (a : Args) (env : Env) : Sys :=
  if a.alertable ∧ env.apcPending then s.ret t [] .userApc
  else
    match s.port.portTake with
    | (some pk, q) =>
      let (more, q) := q.takeMore (a.max - 1)
      { s with port := q, left := s.left ++ (pk :: more) }.ret t (pk :: more) .success
    | (none, q) =>
      if q.closed then s.ret t [] .abandonedWait0
      else if a.timeout = some 0 ∨ (a.deadline ≠ 0 ∧ a.deadline ≤ env.ticks) then
        s.ret t [] .timeout
      else if env.mustDie then s.ret t [] .threadIsTerminating
      else
        { s with
          port := { q with
            got := update q.got t none
            waiters := update (update q.waiters (.next t) (q.waiters .first))
              .first (some t) }
          phase := update s.phase t (.waiting a)
          blocked := update s.blocked t true }

/-- `port_remove` up to its first block; `alloc` says whether `ipc_thread` succeeds. -/
def Sys.portRemove (s : Sys) (t : Tid) (max : Nat) (timeout : Option Int) (alertable alloc : Bool)
    (env : Env) : Sys :=
  let s := { s with calls := s.calls + 1 }
  if !alloc then s.ret t [] .noMemory
  else s.portLoop t { max, timeout, alertable, deadline := deadlineOf timeout env.ticks } env

/-- `port_remove` from `thread_block_current` to the next block or to the end. -/
def Sys.portResume (s : Sys) (t : Tid) (a : Args) (env : Env) : Sys :=
  match s.port.got t with
  | some pk =>
    let (more, q) := s.port.takeMore (a.max - 1)
    { s with port := q, left := s.left ++ more }.ret t (pk :: more) .success
  | none => { s with port := s.port.waiterRemove s.calls t }.portLoop t a env

/-! ### Runs -/

/-- One section with interrupts off.  A blocked thread may be woken at any time: by the timer
tick, by an APC, because it must die. -/
inductive Step
  | post (p : Packet) (alloc : Bool)
  | close
  | wake (t : Tid)
  | remove (t : Tid) (max : Nat) (timeout : Option Int) (alertable alloc : Bool) (env : Env)
  | resume (t : Tid) (env : Env)
  deriving DecidableEq, Repr

def Sys.step (s : Sys) : Step → Sys
  | .post p alloc => (s.iocpPost p alloc).1
  | .close => s.iocpHandleClosed
  | .wake t => s.threadWake t
  | .remove t max timeout alertable alloc env =>
    match s.phase t with
    | .outside => s.portRemove t max timeout alertable alloc env
    | .waiting _ => s
  | .resume t env =>
    match s.phase t with
    | .outside => s
    | .waiting a => if s.blocked t then s else s.portResume t a env

def Sys.run (s : Sys) (steps : List Step) : Sys := steps.foldl Sys.step s

end Win98Modern.Iocp
