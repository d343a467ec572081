import Win98Modern.Supervisor.Domain
import Mathlib.Data.List.FinRange

/-!
# Doorbells and the scheduler

The Supervisor runs its domains one after the other on the boot CPU (`domain.c`).  A `Pass` is one
turn of the loop in `sched_run`: the scan picks a domain that runs or has become ready, events are
delivered to it, it is entered, and its exit is handled, a hypercall among others.  What the devices,
the clock and the guest do in a pass is part of the pass.

`log` records, newest first, what happened to the doorbells; the code does not have it.
-/

namespace Win98Modern.Doorbell

open Supervisor

/-- The fields of `domain_t` for the timer and the doorbell. -/
structure Domain where
  kind : DomKind
  state : DomState
  timerNext : Nat
  timerPeriod : Nat
  timerVector : BitVec 8
  doorbellVector : BitVec 8
  doorbellPending : BitVec 32
  doorbellSignaled : Bool
  deriving DecidableEq, Repr

/-- What is injected into a domain. -/
inductive Injection
  | timer (vector : BitVec 8)
  | device (vector : BitVec 8)
  | doorbell (vector : BitVec 8)
  deriving DecidableEq, Repr

inductive Entry
  | notified (target : Fin SHZ_MAX_DOMAINS) (bits : BitVec 32)
  | acked (d : Fin SHZ_MAX_DOMAINS) (value : BitVec 32)
  | injected (d : Fin SHZ_MAX_DOMAINS) (what : Injection)
  deriving DecidableEq, Repr

structure System where
  dom : Fin SHZ_MAX_DOMAINS → Domain
  last : Fin SHZ_MAX_DOMAINS
  log : List Entry

/-- The hypercalls that matter here. -/
inductive Call
  | exit
  | timerSet (vector us : BitVec 64)
  | notify (target bits : BitVec 64)
  | wait
  | setDoorbellVector (vector : BitVec 64)
  | doorbellAck
  | other
  deriving DecidableEq, Repr

/-- Why the guest left its slice. -/
inductive Exit
  | vmcall (call : Call)
  | hlt (interrupts : Bool)
  | fail
  | other
  deriving DecidableEq, Repr

/-- One turn of the scheduler's loop: the time and the devices of the scan, then of the slice. -/
structure Pass where
  now : Nat
  device : Fin SHZ_MAX_DOMAINS → Bool
  loadFails : Bool
  sliceNow : Nat
  sliceDevice : Option (BitVec 8)
  interruptible : Bool
  exitNow : Nat
  exit : Exit

def System.setDom (s : System) (d : Fin SHZ_MAX_DOMAINS) (n : Domain) : System :=
  { s with dom := Function.update s.dom d n }

def System.setState (s : System) (d : Fin SHZ_MAX_DOMAINS) (state : DomState) : System :=
  s.setDom d { s.dom d with state := state }

/-- `d->timer_period && now >= d->timer_next`. -/
def timerDue (d : Domain) (now : Nat) : Bool := d.timerPeriod ≠ 0 && d.timerNext ≤ now

/-- `d->doorbell_vector && d->doorbell_pending && !d->doorbell_signaled`. -/
def doorbellDue (d : Domain) : Bool :=
  d.doorbellVector ≠ 0 && d.doorbellPending ≠ 0 && !d.doorbellSignaled

def kernelReady (d : Domain) (now : Nat) : Bool := timerDue d now || doorbellDue d

/-- `dos_ready`, `win98_ready` or `kernel_ready`; `device` is what the first two find at the devices. -/
def ready (d : Domain) (now : Nat) (device : Bool) : Bool :=
  match d.kind with
  | .dos16 => device
  | .win98 => device || doorbellDue d
  | .kernel32 | .kernel64 => kernelReady d now

/-- `deliver_events`; `device` is the vector that the interrupt controller would give.  What cannot
be injected waits for the interrupt window. -/
def deliverEvents (d : Domain) (now : Nat) (device : Option (BitVec 8)) (interruptible : Bool) :
    Option Injection × Domain :=
  if !interruptible then (none, d)
  else if d.kind = .dos16 ∨ d.kind = .win98 then
    match device with
    | some vector => (some (.device vector), d)
    | none =>
      if d.kind = .win98 ∧ doorbellDue d then
        (some (.doorbell d.doorbellVector), { d with doorbellSignaled := true })
      else (none, d)
  else if timerDue d now then
    (some (.timer d.timerVector),
      { d with timerNext := d.timerNext + d.timerPeriod * ((now - d.timerNext) / d.timerPeriod + 1) })
  else if doorbellDue d then
    (some (.doorbell d.doorbellVector), { d with doorbellSignaled := true })
  else (none, d)

/-- The delivery with its entry in the log. -/
def deliver (s : System) (d : Fin SHZ_MAX_DOMAINS) (p : Pass) : System :=
  let r := deliverEvents (s.dom d) p.sliceNow p.sliceDevice p.interruptible
  match r.1 with
  | none => s.setDom d r.2
  | some what => { s.setDom d r.2 with log := .injected d what :: s.log }

def notify (s : System) (target bits : BitVec 64) : System :=
  if h : 2 ≤ target.toNat ∧ target.toNat < SHZ_MAX_DOMAINS then
    let t : Fin SHZ_MAX_DOMAINS := ⟨target.toNat, h.2⟩
    let n := s.dom t
    if n.state = .unused ∨ n.state = .exited ∨ n.state = .failed then s
    else { s.setDom t { n with
        doorbellPending := n.doorbellPending ||| bits.setWidth 32
        doorbellSignaled := false } with
      log := .notified t (bits.setWidth 32) :: s.log }
  else s

/-- `SHZ_HC_TIMER_SET`; `ticks` are those of a microsecond. -/
def timerSet (ticks : Nat) (n : Domain) (now : Nat) (vector us : BitVec 64) : Domain :=
  if us = 0 then { n with timerPeriod := 0 }
  else if vector < 32 ∨ 255 < vector ∨ 10000000 < us then n
  else { n with
    timerVector := vector.setWidth 8
    timerPeriod := us.toNat * ticks
    timerNext := now + us.toNat * ticks }

def hcallVmcall (ticks : Nat) (s : System) (d : Fin SHZ_MAX_DOMAINS) (now : Nat) : Call → System
  | .exit => s.setState d .exited
  | .timerSet vector us => s.setDom d (timerSet ticks (s.dom d) now vector us)
  | .notify target bits => notify s target bits
  | .wait => if (s.dom d).doorbellPending = 0 then s.setState d .waiting else s
  | .setDoorbellVector vector =>
    if vector < 32 ∨ 255 < vector then s
    else s.setDom d { s.dom d with doorbellVector := vector.setWidth 8 }
  | .doorbellAck =>
    { s.setDom d { s.dom d with doorbellPending := 0, doorbellSignaled := false } with
      log := .acked d (s.dom d).doorbellPending :: s.log }
  | .other => s

/-- `handle_exit`.  A DOS domain has no hypercalls. -/
def handleExit (ticks : Nat) (s : System) (d : Fin SHZ_MAX_DOMAINS) (p : Pass) : System :=
  match p.exit with
  | .vmcall call =>
    if (s.dom d).kind = .dos16 then s.setState d .failed else hcallVmcall ticks s d p.exitNow call
  | .hlt interrupts => if interrupts then s.setState d .waiting else s.setState d .failed
  | .fail => s.setState d .failed
  | .other => s

def runSlice (ticks : Nat) (s : System) (d : Fin SHZ_MAX_DOMAINS) (p : Pass) : System :=
  if p.loadFails then s.setState d .failed else handleExit ticks (deliver s d p) d p

/-- The domains in the order in which the scan comes to them. -/
def order (last : Fin SHZ_MAX_DOMAINS) : List (Fin SHZ_MAX_DOMAINS) :=
  (List.finRange SHZ_MAX_DOMAINS).map fun n => last + n + 1

def eligible (s : System) (p : Pass) (d : Fin SHZ_MAX_DOMAINS) : Bool :=
  (s.dom d).state = .runnable || (s.dom d).state = .waiting && ready (s.dom d) p.now (p.device d)

def pick (s : System) (p : Pass) : Option (Fin SHZ_MAX_DOMAINS) := (order s.last).find? (eligible s p)

def picked (s : System) (d : Fin SHZ_MAX_DOMAINS) : System := { s.setState d .runnable with last := d }

/-- One turn of the loop of `sched_run`, or a failure of a domain in the housekeeping. -/
inductive Event
  | pass (p : Pass)
  | fail (d : Fin SHZ_MAX_DOMAINS)

def step (ticks : Nat) (s : System) : Event → System
  | .pass p =>
    match pick s p with
    | none => s
    | some d => runSlice ticks (picked s d) d p
  | .fail d => s.setState d .failed

/-! ### What the log says -/

/-- The bits notified to `d` since its last acknowledgement. -/
def since (d : Fin SHZ_MAX_DOMAINS) : List Entry → BitVec 32
  | [] => 0
  | .notified t bits :: log => if t = d then bits ||| since d log else since d log
  | .acked d' _ :: log => if d' = d then 0 else since d log
  | .injected _ _ :: log => since d log

/-- Each acknowledgement returned the bits notified since the one before. -/
def AcksExact : List Entry → Prop
  | [] => True
  | .acked d value :: log => value = since d log ∧ AcksExact log
  | .notified _ _ :: log => AcksExact log
  | .injected _ _ :: log => AcksExact log

/-- The doorbell of `d` was injected after the last notification to `d`. -/
def Rung (d : Fin SHZ_MAX_DOMAINS) : List Entry → Prop
  | [] => False
  | .notified t _ :: log => t ≠ d ∧ Rung d log
  | .acked _ _ :: log => Rung d log
  | .injected d' (.doorbell _) :: log => d' = d ∨ Rung d log
  | .injected _ (.timer _) :: log => Rung d log
  | .injected _ (.device _) :: log => Rung d log

end Win98Modern.Doorbell
