import Mathlib.Algebra.Group.Nat.Defs
import Mathlib.Data.List.Basic

/-!
# Thread-pool work objects

m98_threadpool.c: work objects, their queue and the workers.  A step is what a thread does while it holds
`m98_tp_lock`, or between two such sections.  A work object is named by the number of its creation, a
worker by its place; the other threads have no names.
-/

namespace Win98Modern.ThreadPool

open Function

/-- `m98_tp_work`; a callback, its context and the environment's flag are read but not interpreted. -/
structure Work where
  pending : Nat
  running : Nat
  references : Nat
  queued : Bool
  closed : Bool
  /-- The idle event is set. -/
  idle : Bool
  /-- There is a finalization callback. -/
  finalization : Bool
  deriving DecidableEq, Repr

/-- How far a worker is with a callback. -/
inductive Stage
  | starting
  | callback
  | finalization
  | cleanup
  | returned
  deriving DecidableEq, Repr

/-- Application code runs, with an instance that the calls accept. -/
def Stage.calls : Stage → Bool
  | .callback | .finalization => true
  | _ => false

structure Instance where
  work : Nat
  associated : Bool
  stage : Stage
  deriving DecidableEq, Repr

/-- Where a worker is: at the semaphore, between the semaphore and the lock, or with a callback. -/
inductive Worker
  | waiting
  | woken
  | running (i : Instance)
  deriving DecidableEq, Repr

/-- The worker runs application code of the object. -/
def Worker.calls (w : Nat) : Worker → Bool
  | .running a => a.work == w && a.stage.calls
  | _ => false

/-- The pool.  The pointer to the first object is the link of `none`, the `next` of an object that of
`some`. -/
structure Pool where
  works : Nat → Option Work
  made : Nat
  links : Option Nat → Option Nat
  last : Option Nat
  semaphore : Nat
  busy : Nat
  workers : List Worker
  /-- Objects that a thread goes to destroy. -/
  dying : List Nat
  /-- Memory has been used after it was freed. -/
  touched : Bool

/-- `m98_tp_initialize`. -/
def Pool.init : Pool := ⟨fun _ => none, 0, fun _ => none, none, 0, 0, [], [], false⟩

/-- The largest count of the semaphore. -/
def maxCount : Nat := 0x7fffffff

/-- The size of a work object and of the address space. -/
def workSize : Nat := 60
def addressSpace : Nat := 2 ^ 32

namespace Pool

variable (p : Pool)

def modify (w : Nat) (f : Work → Work) : Pool :=
  { p with works := update p.works w ((p.works w).map f) }

def setWorker (i : Nat) (k : Worker) : Pool := { p with workers := p.workers.set i k }

def touch : Pool := { p with touched := true }

/-- `ReleaseSemaphore` by one; it fails at the largest count. -/
def release : Pool := if p.semaphore < maxCount then { p with semaphore := p.semaphore + 1 } else p

/-! ### The queue -/

def push (w : Nat) : Pool :=
  let q := p.modify w fun o => { o with queued := true }
  { q with links := update (update p.links (some w) none) p.last (some w), last := some w }

def pop : Pool × Option Nat :=
  match p.links none with
  | none => (p, none)
  | some w =>
    let q := p.modify w fun o => { o with queued := false }
    let first := p.links (some w)
    ({ q with
        links := update (update p.links none first) (some w) none
        last := if first = none then none else p.last }, some w)

/-- The loop of `m98_tp_queue_remove`: the link that leads to the object. -/
def seek (links : Option Nat → Option Nat) (w : Nat) : Nat → Option Nat → Option (Option Nat)
  | 0, _ => none
  | fuel + 1, previous =>
    match links previous with
    | none => none
    | some cursor => if cursor = w then some previous else seek links w fuel (some cursor)

def remove (w : Nat) : Pool :=
  match seek p.links w p.made none with
  | none => p
  | some previous =>
    let q := p.modify w fun o => { o with queued := false }
    { q with
      links := update (update p.links previous (p.links (some w))) (some w) none
      last := if p.last = some w then previous else p.last }

/-! ### Calls -/

def live : Nat := (List.range p.made).countP fun w => (p.works w).isSome

/-- A new worker, at any growth of the pool. -/
def spawn : Pool := { p with workers := p.workers ++ [.waiting] }

/-- `m98_tp_create` where it succeeds. -/
def create (finalization : Bool) : Pool :=
  { p with
    works := update p.works p.made (some ⟨0, 0, 1, false, false, true, finalization⟩)
    made := p.made + 1 }

/-- `m98_SubmitThreadpoolWork`; false where it refuses. -/
def submit (w : Nat) : Pool × Bool :=
  match p.works w with
  | none => (p.touch, false)
  | some o =>
    if o.closed ∨ o.pending = 0xffffffff then (p, false)
    else
      let q := p.modify w fun o =>
        { o with
          idle := if o.pending = 0 ∧ o.running = 0 then false else o.idle
          pending := o.pending + 1
          references := o.references + 1 }
      if o.queued then (q, true) else ((q.push w).release, true)

/-- The section of `m98_WaitForThreadpoolWorkCallbacks` that cancels, with the number of submissions
removed. -/
def cancel (w : Nat) : Pool × Nat :=
  match p.works w with
  | none => (p.touch, 0)
  | some o =>
    let q := if o.queued then p.remove w else p
    (q.modify w fun o =>
      { o with
        references := o.references - o.pending
        pending := 0
        idle := if o.running = 0 then true else o.idle }, o.pending)

/-- `m98_WaitForThreadpoolWorkCallbacks` takes the event of the object and waits for it. -/
def wait (w : Nat) : Pool :=
  match p.works w with
  | none => p.touch
  | some _ => p

/-- The section of `m98_CloseThreadpoolWork`; false where the object is closed already. -/
def close (w : Nat) : Pool × Bool :=
  match p.works w with
  | none => (p.touch, false)
  | some o =>
    if o.closed then (p, false)
    else
      let q := p.modify w fun o => { o with closed := true, references := o.references - 1 }
      (if o.references - 1 = 0 then { q with dying := w :: q.dying } else q, true)

/-- `m98_tp_destroy_work`, outside the lock. -/
def destroy (w : Nat) : Pool :=
  match p.works w with
  | none => p.touch
  | some _ => { p with works := update p.works w none, dying := p.dying.erase w }

/-! ### Workers -/

def wake (i : Nat) : Pool :=
  if p.workers[i]? = some .waiting ∧ 0 < p.semaphore then
    { p with semaphore := p.semaphore - 1 }.setWorker i .woken
  else p

/-- The first section of `m98_tp_worker`, with the object whose callback it takes. -/
def start (i : Nat) : Pool × Option Nat :=
  match p.workers[i]? with
  | some .woken =>
    match p.pop with
    | (q, none) => (q.setWorker i .waiting, none)
    | (q, some w) =>
      match q.works w with
      | none => (q.touch, none)
      | some o =>
        let q := { q.modify w fun o => { o with pending := o.pending - 1, running := o.running + 1 } with
          busy := q.busy + 1 }
        let q := if o.pending - 1 ≠ 0 then (q.push w).release else q
        (q.setWorker i (.running ⟨w, true, .starting⟩), some w)
  | _ => (p, none)

/-- The worker goes on to the next stage; it reads the object before the callback and the
finalization. -/
def advance (i : Nat) : Pool :=
  match p.workers[i]? with
  | some (.running a) =>
    match a.stage, p.works a.work with
    | .starting, some _ => p.setWorker i (.running { a with stage := .callback })
    | .callback, some o =>
      p.setWorker i (.running { a with stage := if o.finalization then .finalization else .cleanup })
    | .finalization, _ => p.setWorker i (.running { a with stage := .cleanup })
    | .cleanup, _ => p.setWorker i (.running { a with stage := .returned })
    | .returned, _ => p
    | _, none => p.touch
  | _ => p

/-- The worker's callback calls `m98_DisassociateCurrentThreadFromCallback`. -/
def disassociate (i : Nat) : Pool :=
  match p.workers[i]? with
  | some (.running a) =>
    if a.associated ∧ a.stage.calls then
      match p.works a.work with
      | none => p.touch
      | some _ =>
        (p.modify a.work fun o =>
          { o with
            running := o.running - 1
            idle := if o.pending = 0 ∧ o.running - 1 = 0 then true else o.idle }).setWorker i
          (.running { a with associated := false })
    else p
  | _ => p

/-- The last section of `m98_tp_worker`, with the object whose callback has ended. -/
def finish (i : Nat) : Pool × Option Nat :=
  match p.workers[i]? with
  | some (.running a) =>
    if a.stage = .returned then
      match p.works a.work with
      | none => (p.touch, none)
      | some o =>
        let running := if a.associated then o.running - 1 else o.running
        let q := { p.modify a.work fun o =>
          { o with
            running := running
            references := o.references - 1
            idle := if o.pending = 0 ∧ running = 0 then true else o.idle } with busy := p.busy - 1 }
        let q := if o.closed ∧ o.references - 1 = 0 then { q with dying := a.work :: q.dying } else q
        (q.setWorker i .waiting, some a.work)
    else (p, none)
  | _ => (p, none)

end Pool

/-! ### Runs -/

/-- What has happened to an object. -/
structure Ledger where
  /-- The caller's handle is open. -/
  opened : Bool
  submitted : Nat
  started : Nat
  cancelled : Nat
  finished : Nat
  destroyed : Nat
  deriving DecidableEq, Repr

structure System where
  pool : Pool
  ledger : Nat → Ledger

def System.init : System := ⟨.init, fun _ => ⟨false, 0, 0, 0, 0, 0⟩⟩

/-- The steps.  A call is made by a worker's callback or by another thread (`none`);
`m98_TrySubmitThreadpoolCallback` is a creation, a submission and a close of one thread. -/
inductive Event
  | spawn
  | create (finalization : Bool)
  | submit (caller : Option Nat) (w : Nat)
  | cancel (caller : Option Nat) (w : Nat)
  | wait (caller : Option Nat) (w : Nat)
  | close (caller : Option Nat) (w : Nat)
  | destroy (w : Nat)
  | wake (i : Nat)
  | start (i : Nat)
  | advance (i : Nat)
  | disassociate (i : Nat)
  | finish (i : Nat)
  deriving DecidableEq, Repr

namespace System

def note (s : System) (w : Nat) (f : Ledger → Ledger) : Nat → Ledger := update s.ledger w (f (s.ledger w))

/-- Counts for the object of a step, if it has one. -/
def noteOn (s : System) (w : Option Nat) (f : Ledger → Ledger) : Nat → Ledger := w.elim s.ledger fun w => s.note w f

def step (s : System) : Event → System
  | .spawn => ⟨s.pool.spawn, s.ledger⟩
  | .create f => ⟨s.pool.create f, s.note s.pool.made fun l => { l with opened := true }⟩
  | .submit _ w =>
    let r := s.pool.submit w
    ⟨r.1, s.note w fun l => { l with submitted := l.submitted + r.2.toNat }⟩
  | .cancel _ w =>
    let r := s.pool.cancel w
    ⟨r.1, s.note w fun l => { l with cancelled := l.cancelled + r.2 }⟩
  | .wait _ w => ⟨s.pool.wait w, s.ledger⟩
  | .close _ w =>
    let r := s.pool.close w
    ⟨r.1, s.note w fun l => { l with opened := l.opened && !r.2 }⟩
  | .destroy w => ⟨s.pool.destroy w, s.note w fun l => { l with destroyed := l.destroyed + 1 }⟩
  | .wake i => ⟨s.pool.wake i, s.ledger⟩
  | .start i =>
    let r := s.pool.start i
    ⟨r.1, s.noteOn r.2 fun l => { l with started := l.started + 1 }⟩
  | .advance i => ⟨s.pool.advance i, s.ledger⟩
  | .disassociate i => ⟨s.pool.disassociate i, s.ledger⟩
  | .finish i =>
    let r := s.pool.finish i
    ⟨r.1, s.noteOn r.2 fun l => { l with finished := l.finished + 1 }⟩

/-- The caller is a callback of the object. -/
def OwnCallback (s : System) (caller : Option Nat) (w : Nat) : Prop :=
  (caller.bind fun i => s.pool.workers[i]?).any (Worker.calls w) = true

/-- No use of an object after its close except by its own callbacks. -/
def MayUse (s : System) (caller : Option Nat) (w : Nat) : Prop :=
  (s.ledger w).opened = true ∨ s.OwnCallback caller w

/-- The steps that can come next: objects lie apart in the address space, calls keep to the rule, and an
object is destroyed by the thread that decided it. -/
def Allowed (s : System) : Event → Prop
  | .create _ => (s.pool.live + 1) * workSize ≤ addressSpace
  | .submit c w | .cancel c w | .wait c w | .close c w => s.MayUse c w
  | .destroy w => w ∈ s.pool.dying
  | _ => True

instance (s : System) (c : Option Nat) (w : Nat) : Decidable (s.MayUse c w) := inferInstanceAs (Decidable (_ = true ∨ _ = true))

instance (s : System) : ∀ e, Decidable (s.Allowed e)
  | .create _ => inferInstanceAs (Decidable (_ ≤ _))
  | .submit _ _ | .cancel _ _ | .wait _ _ | .close _ _ => inferInstanceAs (Decidable (s.MayUse _ _))
  | .destroy _ => inferInstanceAs (Decidable (_ ∈ _))
  | .spawn | .wake _ | .start _ | .advance _ | .disassociate _ | .finish _ => isTrue trivial

end System

end Win98Modern.ThreadPool
