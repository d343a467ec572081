import Win98Modern.Lib.Runs
import Mathlib.Algebra.Group.Nat.Defs

/-!
# The ticket lock

`pma_ticket_lock`, `pma_ticket_trylock` and `pma_ticket_unlock`, cut at their atomic accesses.  A
CPU that is in a call makes one access at a time (`go`); any CPU may call anything when it is
idle.  Beside the counters the machine keeps who took a ticket, in which order the lock was
acquired, which acquisitions were not released yet, and which one an `unlock` was called for.
-/

namespace Win98Modern.Pma

open Function

/-- `pma_ticketlock_t`. -/
structure TicketLock where
  next : BitVec 32
  owner : BitVec 32
  reservation : BitVec 32
  deriving DecidableEq, Repr

def TicketLock.init : TicketLock := ⟨0, 0, 0⟩

/-- Where a CPU is: the access it makes next. -/
inductive Pc
  | idle
  /-- `lock`: the gate, `next++`, opening the gate, waiting for `owner`. -/
  | reserve
  | issue
  | ungate (ticket : BitVec 32)
  | spin (ticket : BitVec 32)
  /-- `trylock`: the gate, loading `owner`, comparing `next`, storing `next`, opening the gate. -/
  | tryReserve
  | tryOwner
  | tryNext (owner : BitVec 32)
  | tryIssue (owner : BitVec 32)
  | tryUngate (ticket : Option (BitVec 32))
  /-- `unlock`: comparing `next`, then the compare-and-swap of `owner`. -/
  | check (ticket : BitVec 32)
  | cas (ticket : BitVec 32)
  deriving DecidableEq, Repr

def Pc.inGate : Pc → Bool
  | .issue | .ungate _ | .tryOwner | .tryNext _ | .tryIssue _ | .tryUngate _ => true
  | _ => false

/-- With a ticket of `lock` that has not been served. -/
def Pc.waits : Pc → Option (BitVec 32)
  | .ungate ticket | .spin ticket => some ticket
  | _ => none

/-- What a call returned. -/
inductive Ret
  | locked (ticket : BitVec 32)
  | tried (ticket : Option (BitVec 32))
  | unlocked (done : Bool)
  deriving DecidableEq, Repr

/-- The number that the acquisition `n` (the `n`-th ticket) carries. -/
abbrev token (n : Nat) : BitVec 32 := BitVec.ofNat 32 n

structure Machine (Cpu : Type) where
  lock : TicketLock
  pc : Cpu → Pc
  ret : Cpu → Option Ret
  /-- Who took the tickets, in order. -/
  took : List Cpu
  /-- The last ticket that the CPU took. -/
  serial : Cpu → Nat
  /-- The acquisitions, in order, and those among them that were not released. -/
  entered : List Nat
  held : List Nat
  /-- How many times `owner` was advanced. -/
  advances : Nat
  /-- The acquisition that an `unlock` was called for. -/
  aim : Cpu → Option Nat

inductive Act (Cpu : Type)
  | lock (c : Cpu)
  | trylock (c : Cpu)
  | unlock (c : Cpu) (ticket : BitVec 32)
  | go (c : Cpu)
  deriving DecidableEq, Repr

namespace Machine

variable {Cpu : Type} [DecidableEq Cpu]

def init : Machine Cpu where
  lock := .init
  pc _ := .idle
  ret _ := none
  took := []
  serial _ := 0
  entered := []
  held := []
  advances := 0
  aim _ := none

def setPc (m : Machine Cpu) (c : Cpu) (pc : Pc) : Machine Cpu :=
  { m with pc := update m.pc c pc }

/-- The call of `c` returns. -/
def finish (m : Machine Cpu) (c : Cpu) (ret : Ret) : Machine Cpu :=
  { m with pc := update m.pc c .idle, ret := update m.ret c (some ret) }

/-- `pma_ticket_reserve_try`, at `pc` when it succeeds. -/
def reserveTry (m : Machine Cpu) (c : Cpu) (pc : Pc) (fail : Machine Cpu) : Machine Cpu :=
  if m.lock.reservation = 0 then { m with lock := { m.lock with reservation := 1 } }.setPc c pc
  else fail

def reserveRelease (m : Machine Cpu) : Machine Cpu :=
  { m with lock := { m.lock with reservation := 0 } }

/-- `c` takes the ticket `m.took.length`. -/
def take (m : Machine Cpu) (c : Cpu) (next : BitVec 32) : Machine Cpu :=
  { m with
    lock := { m.lock with next := next }
    took := m.took ++ [c]
    serial := update m.serial c m.took.length }

/-- `c` acquires the lock with its ticket. -/
def enter (m : Machine Cpu) (c : Cpu) : Machine Cpu :=
  { m with entered := m.entered ++ [m.serial c], held := m.held ++ [m.serial c] }

/-- The compare-and-swap of `unlock`. -/
def release (m : Machine Cpu) (c : Cpu) (ticket : BitVec 32) : Machine Cpu :=
  if m.lock.owner = ticket then
    { m with
      lock := { m.lock with owner := ticket + 1 }
      held := m.held.filter fun n => token n ≠ ticket
      advances := m.advances + 1 }.finish c (.unlocked true)
  else m.finish c (.unlocked false)

/-- The next access of `c`. -/
def go (m : Machine Cpu) (c : Cpu) : Machine Cpu :=
  match m.pc c with
  | .idle => m
  | .reserve => m.reserveTry c .issue m
  | .issue => (m.take c (m.lock.next + 1)).setPc c (.ungate m.lock.next)
  | .ungate ticket => m.reserveRelease.setPc c (.spin ticket)
  | .spin ticket => if m.lock.owner = ticket then (m.enter c).finish c (.locked ticket) else m
  | .tryReserve => m.reserveTry c .tryOwner (m.finish c (.tried none))
  | .tryOwner => m.setPc c (.tryNext m.lock.owner)
  | .tryNext owner =>
    if m.lock.next = owner then m.setPc c (.tryIssue owner) else m.setPc c (.tryUngate none)
  | .tryIssue owner => ((m.take c (owner + 1)).enter c).setPc c (.tryUngate (some owner))
  | .tryUngate ticket => m.reserveRelease.finish c (.tried ticket)
  | .check ticket =>
    if m.lock.next = ticket then m.finish c (.unlocked false) else m.setPc c (.cas ticket)
  | .cas ticket => m.release c ticket

def step (m : Machine Cpu) : Act Cpu → Machine Cpu
  | .lock c => if m.pc c = .idle then m.setPc c .reserve else m
  | .trylock c => if m.pc c = .idle then m.setPc c .tryReserve else m
  | .unlock c ticket =>
    if m.pc c = .idle then
      { m.setPc c (.check ticket) with
        aim := update m.aim c (m.held.find? fun n => token n = ticket) }
    else m
  | .go c => m.go c

/-- The `unlock` of `c` was called for an acquisition that is still held. -/
def Aimed (m : Machine Cpu) (c : Cpu) : Prop := ∃ n, m.aim c = some n ∧ n ∈ m.held

/-- One caller holds the lock at most, acquisitions are in the order of the tickets, and `owner`
does not pass `next`: the counters show the numbers of acquisitions and of tickets. -/
structure StateOk (m : Machine Cpu) : Prop where
  exclusive : m.held.length ≤ 1
  fifo : m.entered = List.range m.entered.length
  behind : m.advances ≤ m.took.length
  next : m.lock.next = token m.took.length
  owner : m.lock.owner = token m.advances

/-- `trylock` succeeds only when no ticket is outstanding, so that nobody waits.  An `unlock` that
was not called for an acquisition that is still held returns 0 and changes no counter. -/
def StepOk (m : Machine Cpu) : Act Cpu → Prop
  | .go c =>
    match m.pc c with
    | .tryIssue _ => m.took.length = m.advances ∧ m.held = [] ∧ ∀ d, (m.pc d).waits = none
    | .cas _ => m.Aimed c ∨ (m.go c).lock = m.lock ∧ (m.go c).ret c = some (.unlocked false)
    | .check ticket => (m.go c).lock = m.lock ∧
        ((m.go c).ret c = some (.unlocked false) ∨ (m.go c).pc c = .cas ticket)
    | _ => True
  | _ => True

/-- The machine works throughout the run. -/
def Correct (m : Machine Cpu) (as : List (Act Cpu)) : Prop := Along step StateOk StepOk m as

/-- An `unlock` that was not called for an acquisition that is still held does not find its number
in `owner` at the compare-and-swap. -/
def Timely (m : Machine Cpu) : Act Cpu → Prop
  | .go c =>
    match m.pc c with
    | .cas ticket => m.lock.owner = ticket → m.Aimed c
    | _ => True
  | _ => True

def AllTimely (m : Machine Cpu) (as : List (Act Cpu)) : Prop := Steps step Timely m as

/-- Fewer than `2 ^ 32` tickets are outstanding. -/
def FewTickets (m : Machine Cpu) : Prop := m.took.length < m.advances + 2 ^ 32

instance : DecidablePred fun m : Machine Cpu => m.FewTickets := fun _ => inferInstanceAs (Decidable (_ < _))

/-- Fewer than `2 ^ 32` tickets are outstanding throughout the run. -/
def Bounded (m : Machine Cpu) (as : List (Act Cpu)) : Prop :=
  Along step FewTickets (fun _ _ => True) m as

instance (m : Machine Cpu) (as : List (Act Cpu)) : Decidable (m.Bounded as) :=
  inferInstanceAs (Decidable (Along ..))

end Machine

end Win98Modern.Pma
