import Win98Modern.Lib.Runs
import Win98Modern.Lib.Trail
import Mathlib.Algebra.Group.Nat.Defs

/-!
# The split virtqueue: virtq.c

The driver's side of a queue with the three areas it shares with the device.  Counters of 16 bits are numbers
below `2 ^ 16`, a null cookie is 0.  `System` puts the device beside it: it takes published entries of the
available ring in the order of their indices, and writes any elements it likes into the used ring.
-/

namespace Win98Modern.Virtq

open Function

abbrev VIRTQ_DESC_F_NEXT : Nat := 1
abbrev VIRTQ_DESC_F_WRITE : Nat := 2
abbrev VIRTQ_USED_F_NO_NOTIFY : Nat := 1
abbrev VIRTQ_MAX_SIZE : Nat := 32768

/-- `virtq_sg_t`. -/
structure Sg where
  pa : Nat
  len : Nat

/-- `virtq_used_elem_t`. -/
structure UsedElem where
  id : Nat
  len : Nat

/-- `virtq_t`, with the areas it points to.  The link of a descriptor is in `next`, what it describes in the
three tables before it. -/
structure Queue where
  size : Nat
  addr : Nat → Nat
  len : Nat → Nat
  flags : Nat → Nat
  next : Nat → Nat
  availIdx : Nat
  availRing : Nat → Nat
  usedFlags : Nat
  usedIdx : Nat
  usedRing : Nat → UsedElem
  freeHead : Nat
  numFree : Nat
  lastUsedIdx : Nat
  availPending : Nat
  cookie : Nat → Nat
  chainLen : Nat → Nat

/-- `virtq_init` over zeroed memory. -/
def init (size : Nat) : Option Queue :=
  if size = 0 ∨ VIRTQ_MAX_SIZE < size then none
  else some {
    size := size
    addr := fun _ => 0
    len := fun _ => 0
    flags := fun _ => 0
    next := fun i => if i < size then i + 1 else 0
    availIdx := 0
    availRing := fun _ => 0
    usedFlags := 0
    usedIdx := 0
    usedRing := fun _ => ⟨0, 0⟩
    freeHead := 0
    numFree := size
    lastUsedIdx := 0
    availPending := 0
    cookie := fun _ => 0
    chainLen := fun _ => 0 }

namespace Queue

variable (q : Queue)

/-- The `i`-th of `total` buffers goes into the descriptor `cur`. -/
def describe (cur i total nOut : Nat) (out inn : Nat → Sg) : Queue :=
  let sg := if i < nOut then out i else inn (i - nOut)
  { q with
    addr := update q.addr cur sg.pa
    len := update q.len cur sg.len
    flags := update q.flags cur
      ((if i < nOut then 0 else VIRTQ_DESC_F_WRITE) + (if i + 1 < total then VIRTQ_DESC_F_NEXT else 0)) }

/-- The loop of `virtq_add` over the `k` last buffers: the queue, the last descriptor and the next free one. -/
def describeAll (total nOut : Nat) (out inn : Nat → Sg) : Nat → Queue → Nat → Nat → Queue × Nat × Nat
  | 0, q, prev, cur => (q, prev, cur)
  | k + 1, q, _, cur =>
    describeAll total nOut out inn k (q.describe cur (total - (k + 1)) total nOut out inn) cur (q.next cur)

/-- What `virtq_add` does once the chain of `total` descriptors from `head` to `prev` is described. -/
def publish (head prev cur total cookie : Nat) : Queue :=
  { q with
    next := update q.next prev 0
    freeHead := cur
    numFree := q.numFree - total
    cookie := update q.cookie head cookie
    chainLen := update q.chainLen head total
    availRing := update q.availRing ((q.availIdx + q.availPending) % 2 ^ 16 % q.size) head
    availPending := (q.availPending + 1) % 2 ^ 16 }

/-- `virtq_add`: the head of the chain, none for the return value -1. -/
def add (nOut nIn : Nat) (out inn : Nat → Sg) (cookie : Nat) : Queue × Option Nat :=
  let total := (nOut + nIn) % 2 ^ 32
  if total = 0 ∨ q.size < total ∨ q.numFree < total then (q, none)
  else
    let head := q.freeHead
    match describeAll total nOut out inn total q 0 head with
    | (q, prev, cur) => (q.publish head prev cur total cookie, some head)

def kickPrepare : Queue × Bool :=
  if q.availPending = 0 then (q, false)
  else
    ({ q with availIdx := (q.availIdx + q.availPending) % 2 ^ 16, availPending := 0 },
      decide (q.usedFlags % 2 ≠ VIRTQ_USED_F_NO_NOTIFY))

/-- The chain of `n` descriptors at `head` goes back to the free list. -/
def splice (head n : Nat) : Queue :=
  { q with
    cookie := update q.cookie head 0
    chainLen := update q.chainLen head 0
    next := update q.next (q.next^[n - 1] head) q.freeHead
    freeHead := head
    numFree := (q.numFree + n) % 2 ^ 16 }

/-- `virtq_get_used`: the cookie and the number of bytes written. -/
def getUsed : Queue × Nat × Nat :=
  if q.lastUsedIdx = q.usedIdx then (q, 0, 0)
  else
    let e := q.usedRing (q.lastUsedIdx % q.size)
    let q := { q with lastUsedIdx := (q.lastUsedIdx + 1) % 2 ^ 16 }
    let head := e.id % 2 ^ 16
    if q.size ≤ head ∨ q.chainLen head = 0 then (q, 0, 0)
    else (q.splice head (q.chainLen head), q.cookie head, e.len)

end Queue

/-! ### The device -/

/-- A chain that was added. -/
structure Chain where
  head : Nat
  cookie : Nat
  deriving DecidableEq

/-- The queue and the device.  `devIdx` is the device's place in the available ring.  Recorded are the chains
that were added, the heads that the device read, the elements that it reported and how many of them were
taken, the number in `added` of the chain that a head stands for while it is in flight, and the chains whose
cookies came back, with the values that came back. -/
structure System where
  queue : Queue
  devIdx : Nat
  added : List Chain
  consumed : List Nat
  reports : List UsedElem
  taken : Nat
  inFlight : Nat → Option Nat
  returned : List (Nat × Nat)

inductive Event
  | add (nOut nIn : Nat) (out inn : Nat → Sg) (cookie : Nat)
  | kick
  | getUsed
  /-- The device reads the next published entry of the available ring. -/
  | consume
  /-- The device writes an element into the used ring. -/
  | report (e : UsedElem)
  /-- The device asks for notifications or not. -/
  | notify (flags : Nat)

namespace System

def start (q : Queue) : System := ⟨q, 0, [], [], [], 0, fun _ => none, []⟩

variable (s : System)

def add (nOut nIn : Nat) (out inn : Nat → Sg) (cookie : Nat) : System :=
  match s.queue.add nOut nIn out inn cookie with
  | (q, none) => { s with queue := q }
  | (q, some head) => { s with
      queue := q
      added := s.added ++ [⟨head, cookie⟩]
      inFlight := update s.inFlight head (some s.added.length) }

/-- The element that `virtq_get_used` reads, if there is one. -/
def nextUsed : Option UsedElem :=
  if s.queue.lastUsedIdx = s.queue.usedIdx then none
  else some (s.queue.usedRing (s.queue.lastUsedIdx % s.queue.size))

/-- The head that an element names to the driver, if the chain is in flight. -/
def accepts (e : UsedElem) : Option Nat :=
  if s.queue.size ≤ e.id % 2 ^ 16 then none else s.inFlight (e.id % 2 ^ 16)

def getUsed : System :=
  match s.nextUsed with
  | none => { s with queue := s.queue.getUsed.1 }
  | some e =>
    match s.accepts e with
    | none => { s with queue := s.queue.getUsed.1, taken := s.taken + 1 }
    | some k => { s with
        queue := s.queue.getUsed.1
        taken := s.taken + 1
        inFlight := update s.inFlight (e.id % 2 ^ 16) none
        returned := (k, s.queue.getUsed.2.1) :: s.returned }

def consume : System :=
  if s.devIdx = s.queue.availIdx then s
  else { s with
    devIdx := (s.devIdx + 1) % 2 ^ 16
    consumed := s.consumed ++ [s.queue.availRing (s.devIdx % s.queue.size)] }

def report (e : UsedElem) : System :=
  { s with
    queue := { s.queue with
      usedRing := update s.queue.usedRing (s.queue.usedIdx % s.queue.size) e
      usedIdx := (s.queue.usedIdx + 1) % 2 ^ 16 }
    reports := s.reports ++ [e] }

def step (s : System) : Event → System
  | .add nOut nIn out inn cookie => s.add nOut nIn out inn cookie
  | .kick => { s with queue := s.queue.kickPrepare.1 }
  | .getUsed => s.getUsed
  | .consume => s.consume
  | .report e => s.report e
  | .notify flags => { s with queue := { s.queue with usedFlags := flags } }

end System

end Win98Modern.Virtq
