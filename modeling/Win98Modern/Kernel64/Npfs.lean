import Mathlib.Logic.Function.Basic

/-!
# Named pipes

The two data queues of a pipe instance with their pending reads and writes, and the calls on the two ends.  A
call runs in sections with interrupts off; between them user memory is copied and other threads run, so a
thread is in a `Task`.  Requests are recorded when they complete.

What the copies from and to user memory find, and how many pages are free for blocks, is the `Memory` of the
section.  An `open_client` whose `ipc_give_handle` fails is left out.
-/

namespace Win98Modern.Npfs

open Function

def BLK_DATA : Nat := 4096 - 32
def DEFAULT_QUOTA : Nat := 4096

inductive Status
  | success | pending | bufferOverflow | accessViolation | insufficientResources | cancelled
  | pipeListening | pipeDisconnected | pipeBroken | pipeClosing | pipeConnected | pipeEmpty | pipeBusy
  | invalidPipeState | invalidReadMode
  deriving DecidableEq

/-- User memory by process and address, and the pages left. -/
structure Memory where
  load : Nat → Nat → Option UInt8
  store : Nat → Nat → Bool
  pages : Nat

def Memory.copyFromUser (m : Memory) (proc addr n : Nat) : Option (List UInt8) :=
  (List.range n).mapM fun i => m.load proc (addr + i)

def Memory.copyToUser (m : Memory) (proc addr n : Nat) : Bool := (List.range n).all fun i => m.store proc (addr + i)

structure Blk where
  data : List UInt8
  off : Nat
  msgEnd : Bool
  deriving DecidableEq

def Blk.avail (b : Blk) : Nat := b.data.length - b.off

structure Irp where
  id : Nat
  proc : Nat
  buf : Nat
  len : Nat
  /-- `read_mode == FILE_PIPE_MESSAGE`. -/
  messageMode : Bool
  deriving DecidableEq

/-- A request that is complete, with what it has read. -/
structure Done where
  irp : Nat
  status : Status
  info : Nat
  data : List UInt8
  deriving DecidableEq

structure DataQ where
  blocks : List Blk
  bytes : Nat
  messages : Nat
  readers : List Irp
  writers : List Irp
  quota : Nat
  deriving DecidableEq

def qEmpty (quota : Nat) : DataQ := ⟨[], 0, 0, [], [], quota⟩

/-! ### Data queues -/

def qFree (q : DataQ) : DataQ := { q with blocks := [], bytes := 0, messages := 0 }

/-- A fresh chain of blocks with `len` bytes from `src`; there is one even for no byte. -/
def blocksBuild (m : Memory) (proc src len : Nat) (message : Bool) : (pages done : Nat) → Except Status (List Blk)
  | 0, _ => .error .insufficientResources
  | pages + 1, done =>
    let n := min (len - done) BLK_DATA
    match m.copyFromUser proc (src + done) n with
    | none => .error .accessViolation
    | some data =>
      if done + n < len then
        match blocksBuild m proc src len message pages (done + n) with
        | .ok bs => .ok (⟨data, 0, false⟩ :: bs)
        | .error st => .error st
      else .ok [⟨data, 0, message⟩]

def Irp.build (irp : Irp) (m : Memory) (message : Bool) : Except Status (List Blk) :=
  blocksBuild m irp.proc irp.buf irp.len message m.pages 0

def qLink (q : DataQ) (first : List Blk) (len : Nat) (message : Bool) : DataQ :=
  { q with
    blocks := q.blocks ++ first
    bytes := q.bytes + len
    messages := if message then q.messages + 1 else q.messages }

/-- Bytes of the first queued message. -/
def qFirstMessage : List Blk → Nat
  | [] => 0
  | b :: bs => if b.msgEnd then b.avail else b.avail + qFirstMessage bs

/-- What `q_take` leaves; without `got` there was a fault. -/
structure Taken where
  q : DataQ
  got : Option (List UInt8)
  overflow : Bool

/-- The loop of `q_take`: `q` has the blocks that are left, and `done` has been copied. -/
def qTakeLoop (m : Memory) (messageMode : Bool) (proc dst len : Nat) (q : DataQ) :
    List Blk → List UInt8 → Taken
  | [], done => ⟨{ q with blocks := [] }, some done, false⟩
  | b :: bs, done =>
    if done.length = len ∧ (b.avail ≠ 0 ∨ messageMode = false) then
      ⟨{ q with blocks := b :: bs }, some done, messageMode⟩
    else
      let n := min b.avail (len - done.length)
      if n ≠ 0 ∧ m.copyToUser proc (dst + done.length) n = false then ⟨{ q with blocks := b :: bs }, none, false⟩
      else
        let done := done ++ (b.data.drop b.off).take n
        let q := { q with bytes := q.bytes - n }
        if b.off + n = b.data.length then
          if b.msgEnd then
            let q := { q with messages := q.messages - 1 }
            if messageMode then ⟨{ q with blocks := bs }, some done, false⟩
            else qTakeLoop m messageMode proc dst len q bs done
          else qTakeLoop m messageMode proc dst len q bs done
        else
          -- the buffer is full: in byte mode the next turn of the loop leaves it
          ⟨{ q with blocks := { b with off := b.off + n } :: bs }, some done, messageMode⟩

def qTake (m : Memory) (messageMode : Bool) (proc dst len : Nat) (q : DataQ) : Taken :=
  qTakeLoop m messageMode proc dst len q q.blocks []

/-- The status of a read that has taken from the queue. -/
def Taken.done (t : Taken) (id : Nat) : Done :=
  match t.got with
  | none => ⟨id, .accessViolation, 0, []⟩
  | some data => ⟨id, if t.overflow then .bufferOverflow else .success, data.length, data⟩

/-- `serve_readers` for the readers of the list. -/
def serveReadersLoop (m : Memory) (messagePipe : Bool) (dead : Option Status) : List Irp → DataQ → DataQ × List Done
  | [], q => ({ q with readers := [] }, [])
  | irp :: rest, q =>
    if q.blocks = [] then
      match dead with
      | none => ({ q with readers := irp :: rest }, [])
      | some st =>
        let r := serveReadersLoop m messagePipe dead rest q
        (r.1, ⟨irp.id, st, 0, []⟩ :: r.2)
    else
      let t := qTake m (messagePipe && irp.messageMode) irp.proc irp.buf irp.len q
      let r := serveReadersLoop m messagePipe dead rest t.q
      (r.1, t.done irp.id :: r.2)

def serveReaders (m : Memory) (messagePipe : Bool) (dead : Option Status) (q : DataQ) : DataQ × List Done :=
  serveReadersLoop m messagePipe dead q.readers q

/-! ### Instances and ends -/

inductive PipeState
  | disconnected | listening | connected | closing
  deriving DecidableEq

structure Pipe where
  /-- `type == FILE_PIPE_MESSAGE`. -/
  message : Bool
  inQuota : Nat
  outQuota : Nat

structure Inst where
  pipe : Pipe
  server : Option Nat
  client : Option Nat
  state : PipeState
  /-- `to_server` at `true`, `to_client` at `false`. -/
  queue : Bool → DataQ
  listeners : List Irp
  serverGone : Bool

structure End where
  inst : Option Nat
  server : Bool
  messageMode : Bool
  /-- `completion_mode == FILE_PIPE_COMPLETE_OPERATION`. -/
  nowait : Bool
  orphaned : Bool

/-- What a thread is in. -/
inductive Task
  | idle
  /-- A write that may go on, into the queue of the instance `i`. -/
  | write (e i : Nat) (irp : Irp)
  /-- Its blocks are built; `j` is the instance that it saw before. -/
  | writeLink (e i j : Nat) (irp : Irp) (built : Except Status (List Blk))
  /-- At the head of the loop of `serve_writers`. -/
  | serve (e : Nat)
  /-- `serve_writers` has taken a write off the list of the instance `i`. -/
  | accept (e i : Nat) (irp : Irp)
  /-- `FSCTL_PIPE_TRANSCEIVE` may go on with the request in `src`. -/
  | transceive (e : Nat) (irp src : Irp)
  | exchange (e : Nat) (j : Option Nat) (irp src : Irp) (built : Except Status (List Blk))

structure State where
  nextInst : Nat
  nextEnd : Nat
  inst : Nat → Inst
  ends : Nat → End
  /-- The pended requests, `all_irps`. -/
  allIrps : List Nat
  completed : List Done
  task : Nat → Task

def State.readDeadStatus (σ : State) (e : Nat) : Option Status :=
  match (σ.ends e).inst with
  | none => some (if (σ.ends e).orphaned then .pipeDisconnected else .invalidPipeState)
  | some i =>
    if (σ.ends e).server then
      match (σ.inst i).state with
      | .listening => some .pipeListening
      | .disconnected => some .pipeDisconnected
      | .closing => some .pipeBroken
      | .connected => none
    else if (σ.inst i).serverGone then some .pipeBroken else none

def State.writeDeadStatus (σ : State) (e : Nat) : Option Status :=
  match (σ.ends e).inst with
  | none => some (if (σ.ends e).orphaned then .pipeDisconnected else .invalidPipeState)
  | some i =>
    if (σ.ends e).server then
      match (σ.inst i).state with
      | .listening => some .pipeListening
      | .disconnected => some .pipeDisconnected
      | .closing => some .pipeClosing
      | .connected => none
    else if (σ.inst i).serverGone then some .pipeClosing else none

/-- The queue that the end `e` reads is `rq σ e` of its instance. -/
def State.rq (σ : State) (e : Nat) : Bool := (σ.ends e).server

/-- The queue that it writes. -/
def State.wq (σ : State) (e : Nat) : Bool := !(σ.ends e).server

/-! ### Edits -/

def State.setInst (σ : State) (i : Nat) (v : Inst) : State := { σ with inst := update σ.inst i v }

def State.setQueue (σ : State) (i : Nat) (d : Bool) (q : DataQ) : State :=
  σ.setInst i { σ.inst i with queue := update (σ.inst i).queue d q }

def State.setEnd (σ : State) (e : Nat) (v : End) : State := { σ with ends := update σ.ends e v }

def State.setTask (σ : State) (t : Nat) (v : Task) : State := { σ with task := update σ.task t v }

/-- `irp_complete`; a request completes once. -/
def State.complete (σ : State) (d : Done) : State :=
  if d.irp ∈ σ.completed.map Done.irp then σ
  else { σ with completed := σ.completed ++ [d], allIrps := σ.allIrps.erase d.irp }

def State.completeAll (σ : State) (ds : List Done) : State := ds.foldl State.complete σ

def State.failAll (σ : State) (irps : List Irp) (st : Status) : State :=
  σ.completeAll (irps.map fun irp => ⟨irp.id, st, 0, []⟩)

/-- `pend_on` the readers or the writers of a queue. -/
def State.pendReader (σ : State) (i : Nat) (d : Bool) (irp : Irp) : State :=
  let q := (σ.inst i).queue d
  { σ.setQueue i d { q with readers := q.readers ++ [irp] } with allIrps := irp.id :: σ.allIrps }

def State.pendWriter (σ : State) (i : Nat) (d : Bool) (irp : Irp) : State :=
  let q := (σ.inst i).queue d
  { σ.setQueue i d { q with writers := q.writers ++ [irp] } with allIrps := irp.id :: σ.allIrps }

/-- `serve_readers` of a queue. -/
def State.serveReaders (σ : State) (m : Memory) (i : Nat) (d messagePipe : Bool) (dead : Option Status) : State :=
  let r := Npfs.serveReaders m messagePipe dead ((σ.inst i).queue d)
  (σ.setQueue i d r.1).completeAll r.2

/-- `q_link` and then `serve_readers`. -/
def State.link (σ : State) (m : Memory) (i : Nat) (d : Bool) (first : List Blk) (len : Nat) (message : Bool) : State :=
  (σ.setQueue i d (qLink ((σ.inst i).queue d) first len message)).serveReaders m i d message none

def State.destroy (σ : State) (i : Nat) : State :=
  σ.setInst i { σ.inst i with queue := fun d => qFree ((σ.inst i).queue d) }

/-! ### Sections of the calls -/

/-- The request of a call on the end `e`. -/
def State.irp (σ : State) (e id proc buf len : Nat) : Irp := ⟨id, proc, buf, len, (σ.ends e).messageMode⟩

/-- `NtWriteFile` up to the copy. -/
def State.write (σ : State) (t e : Nat) (irp : Irp) : State :=
  match (σ.ends e).inst, σ.writeDeadStatus e with
  | some i, none =>
    let q := (σ.inst i).queue (σ.wq e)
    if q.quota ≤ q.bytes ∨ q.writers ≠ [] then
      if (σ.ends e).nowait then σ.complete ⟨irp.id, .success, 0, []⟩ else σ.pendWriter i (σ.wq e) irp
    else σ.setTask t (.write e i irp)
  | _, some dead => σ.complete ⟨irp.id, dead, 0, []⟩
  | none, none => σ

/-- The copy of `NtWriteFile`, with interrupts on. -/
def State.writeBuild (σ : State) (t : Nat) (m : Memory) (e i : Nat) (irp : Irp) : State :=
  match (σ.ends e).inst with
  | none => (σ.complete ⟨irp.id, .pipeDisconnected, 0, []⟩).setTask t .idle
  | some j => σ.setTask t (.writeLink e i j irp (irp.build m (σ.inst j).pipe.message))

/-- `NtWriteFile` behind the copy. -/
def State.writeLink (σ : State) (t : Nat) (m : Memory) (e i j : Nat) (irp : Irp) (built : Except Status (List Blk)) :
    State :=
  let σ' := σ.setTask t .idle
  match built with
  | .error st => σ'.complete ⟨irp.id, st, 0, []⟩
  | .ok first =>
    match if (σ.ends e).inst = some j then σ.writeDeadStatus e else some .pipeDisconnected with
    | some dead => σ'.complete ⟨irp.id, dead, 0, []⟩
    | none =>
      (σ'.link m i (σ.wq e) first irp.len (σ.inst j).pipe.message).complete ⟨irp.id, .success, irp.len, []⟩

/-- `NtReadFile`. -/
def State.read (σ : State) (t : Nat) (m : Memory) (e : Nat) (irp : Irp) : State :=
  match (σ.ends e).inst with
  | none =>
    match σ.readDeadStatus e with
    | some dead => σ.complete ⟨irp.id, dead, 0, []⟩
    | none => σ
  | some i =>
    let q := (σ.inst i).queue (σ.rq e)
    if q.blocks ≠ [] ∧ q.readers = [] then
      let taken := qTake m ((σ.inst i).pipe.message && (σ.ends e).messageMode) irp.proc irp.buf irp.len q
      ((σ.setQueue i (σ.rq e) taken.q).complete (taken.done irp.id)).setTask t (.serve e)
    else
      match σ.readDeadStatus e with
      | some dead => σ.complete ⟨irp.id, dead, 0, []⟩
      | none =>
        if (σ.ends e).nowait then σ.complete ⟨irp.id, .pipeEmpty, 0, []⟩ else σ.pendReader i (σ.rq e) irp

/-- `serve_writers` at the head of its loop. -/
def State.serve (σ : State) (t e : Nat) : State :=
  match (σ.ends e).inst with
  | none => σ.setTask t .idle
  | some i =>
    let q := (σ.inst i).queue (σ.rq e)
    match q.writers with
    | [] => σ.setTask t .idle
    | irp :: rest =>
      if q.quota ≤ q.bytes then σ.setTask t .idle
      else (σ.setQueue i (σ.rq e) { q with writers := rest }).setTask t (.accept e i irp)

/-- The copy of `serve_writers` and what follows. -/
def State.accept (σ : State) (t : Nat) (m : Memory) (e i : Nat) (irp : Irp) : State :=
  match irp.build m (σ.inst i).pipe.message with
  | .error st => (σ.complete ⟨irp.id, st, 0, []⟩).setTask t .idle
  | .ok first =>
    if (σ.ends e).inst ≠ some i then (σ.complete ⟨irp.id, .pipeBroken, 0, []⟩).setTask t .idle
    else
      ((σ.link m i (σ.rq e) first irp.len (σ.inst i).pipe.message).complete
        ⟨irp.id, .success, irp.len, []⟩).setTask t (.serve e)

/-- `FSCTL_PIPE_TRANSCEIVE` up to the copy of the request `src`. -/
def State.transceive (σ : State) (t e : Nat) (irp src : Irp) : State :=
  match (σ.ends e).inst with
  | none => σ
  | some i =>
    if (σ.ends e).messageMode = false ∨ (σ.inst i).pipe.message = false then σ
    else
      match σ.writeDeadStatus e with
      | some dead => σ.complete ⟨irp.id, dead, 0, []⟩
      | none =>
        if ((σ.inst i).queue (σ.rq e)).bytes ≠ 0 then σ.complete ⟨irp.id, .pipeBusy, 0, []⟩
        else σ.setTask t (.transceive e irp src)

/-- Its copy. -/
def State.transceiveBuild (σ : State) (t : Nat) (m : Memory) (e : Nat) (irp src : Irp) : State :=
  σ.setTask t (.exchange e (σ.ends e).inst irp src (src.build m true))

/-- It takes the reply, or waits for it. -/
def State.reply (σ : State) (m : Memory) (e i : Nat) (irp : Irp) : State :=
  let q := (σ.inst i).queue (σ.rq e)
  if q.blocks ≠ [] then
    let taken := qTake m true irp.proc irp.buf irp.len q
    (σ.setQueue i (σ.rq e) taken.q).complete (taken.done irp.id)
  else
    match σ.readDeadStatus e with
    | some dead => σ.complete ⟨irp.id, dead, 0, []⟩
    | none => σ.pendReader i (σ.rq e) irp

/-- `FSCTL_PIPE_TRANSCEIVE` behind the copy. -/
def State.exchange (σ : State) (t : Nat) (m : Memory) (e : Nat) (j : Option Nat) (irp src : Irp)
    (built : Except Status (List Blk)) : State :=
  let σ' := σ.setTask t .idle
  match built with
  | .error st => σ'.complete ⟨irp.id, st, 0, []⟩
  | .ok first =>
    if (σ.ends e).inst ≠ j then σ'.complete ⟨irp.id, .pipeDisconnected, 0, []⟩
    else
      match (σ.ends e).inst, σ.writeDeadStatus e with
      | some i, none => (σ'.link m i (σ.wq e) first src.len true).reply m e i irp
      | _, some dead => σ'.complete ⟨irp.id, dead, 0, []⟩
      | none, none => σ'

/-! ### Connections -/

/-- `NtCreateNamedPipeFile`: another instance of the pipe, and its server end. -/
def State.create (σ : State) (pipe : Pipe) (messageMode nowait : Bool) : State :=
  { σ with
    nextInst := σ.nextInst + 1
    nextEnd := σ.nextEnd + 1
    inst := update σ.inst σ.nextInst
      ⟨pipe, some σ.nextEnd, none, .listening, fun d => qEmpty (if d then pipe.inQuota else pipe.outQuota), [], false⟩
    ends := update σ.ends σ.nextEnd ⟨some σ.nextInst, true, messageMode, nowait, false⟩ }

def newPipe (message : Bool) (inQuota outQuota : Nat) : Pipe :=
  ⟨message, if inQuota ≠ 0 then inQuota else DEFAULT_QUOTA, if outQuota ≠ 0 then outQuota else DEFAULT_QUOTA⟩

def State.openClient (σ : State) (i : Nat) : State :=
  if (σ.inst i).state = .listening ∧ (σ.inst i).client = none ∧ (σ.inst i).server ≠ none then
    let ls := (σ.inst i).listeners
    let σ := σ.setInst i { σ.inst i with client := some σ.nextEnd, state := .connected, listeners := [] }
    let σ := { σ.setEnd σ.nextEnd ⟨some i, false, false, false, false⟩ with nextEnd := σ.nextEnd + 1 }
    σ.completeAll (ls.map fun irp => ⟨irp.id, .success, 0, []⟩)
  else σ

/-- `FSCTL_PIPE_LISTEN` on a server end. -/
def State.listen (σ : State) (e : Nat) (irp : Irp) : State :=
  match (σ.ends e).inst with
  | none => σ.complete ⟨irp.id, .invalidPipeState, 0, []⟩
  | some i =>
    match (σ.inst i).state with
    | .connected => σ.complete ⟨irp.id, .pipeConnected, 0, []⟩
    | .closing => σ.complete ⟨irp.id, .pipeClosing, 0, []⟩
    | _ =>
      let σ := σ.setInst i { σ.inst i with state := .listening }
      if (σ.ends e).nowait then σ.complete ⟨irp.id, .pipeListening, 0, []⟩
      else { σ.setInst i { σ.inst i with listeners := (σ.inst i).listeners ++ [irp] } with
        allIrps := irp.id :: σ.allIrps }

/-- The requests of the lists of an instance complete, and its lists are empty. -/
def State.failListeners (σ : State) (i : Nat) (st : Status) : State :=
  (σ.setInst i { σ.inst i with listeners := [] }).failAll (σ.inst i).listeners st

def State.failReaders (σ : State) (i : Nat) (d : Bool) (st : Status) : State :=
  let q := (σ.inst i).queue d
  (σ.setQueue i d { q with readers := [] }).failAll q.readers st

def State.failWriters (σ : State) (i : Nat) (d : Bool) (st : Status) : State :=
  let q := (σ.inst i).queue d
  (σ.setQueue i d { q with writers := [] }).failAll q.writers st

/-- The client end, if there is one, loses its instance. -/
def State.orphan (σ : State) : Option Nat → State
  | some c => σ.setEnd c { σ.ends c with inst := none, orphaned := true }
  | none => σ

/-- `FSCTL_PIPE_DISCONNECT` on a server end. -/
def State.disconnect (σ : State) (m : Memory) (e : Nat) : State :=
  match (σ.ends e).inst with
  | none => σ
  | some i =>
    if (σ.inst i).state = .disconnected then σ
    else
      let σ := σ.failListeners i .pipeDisconnected
      let σ := σ.failWriters i true .pipeDisconnected
      let σ := σ.failWriters i false .pipeDisconnected
      let σ := σ.setQueue i false (qFree ((σ.inst i).queue false))
      let σ := σ.setQueue i true (qFree ((σ.inst i).queue true))
      let c := (σ.inst i).client
      let σ := σ.setInst i { σ.inst i with client := none, state := .disconnected }
      let σ := σ.orphan c
      let σ := σ.serveReaders m i false false (some .pipeDisconnected)
      σ.serveReaders m i true false (some .pipeDisconnected)

/-- `npfs_handle_closed` for the server end. -/
def State.closeServer (σ : State) (m : Memory) (i : Nat) : State :=
  let σ := σ.setInst i { σ.inst i with server := none, serverGone := true }
  let σ := σ.failListeners i .pipeBroken
  let σ := σ.failWriters i true .pipeClosing
  match (σ.inst i).client with
  | some _ => σ.serveReaders m i false (σ.inst i).pipe.message (some .pipeBroken)
  | none => σ.destroy i

/-- `npfs_handle_closed` for the client end. -/
def State.closeClient (σ : State) (m : Memory) (i : Nat) : State :=
  let σ := σ.setInst i { σ.inst i with
    client := none
    state := if (σ.inst i).state = .connected then .closing else (σ.inst i).state }
  let σ := σ.failWriters i false .pipeClosing
  match (σ.inst i).server with
  | some _ => σ.serveReaders m i true (σ.inst i).pipe.message (some .pipeBroken)
  | none => if (σ.inst i).serverGone then σ.destroy i else σ

/-- `npfs_handle_closed`. -/
def State.close (σ : State) (m : Memory) (e : Nat) : State :=
  match (σ.ends e).inst with
  | none => σ
  | some i =>
    let σ := σ.failReaders i (σ.rq e) .pipeBroken
    let σ := σ.failWriters i (σ.wq e) .pipeBroken
    let σ := σ.setEnd e { σ.ends e with inst := none }
    if (σ.ends e).server then σ.closeServer m i else σ.closeClient m i

/-- `FilePipeInformation` is set. -/
def State.setInfo (σ : State) (e : Nat) (messageMode nowait : Bool) : State :=
  let message := match (σ.ends e).inst with
    | some i => (σ.inst i).pipe.message
    | none => false
  if messageMode = true ∧ message = false then σ
  else σ.setEnd e { σ.ends e with messageMode := messageMode, nowait := nowait }

/-- The request leaves the list that it is in. -/
def DataQ.unlink (q : DataQ) (id : Nat) : DataQ :=
  { q with readers := q.readers.filter (·.id ≠ id), writers := q.writers.filter (·.id ≠ id) }

def State.cancel (σ : State) (id : Nat) : State :=
  if id ∈ σ.allIrps then
    { σ with inst := fun i => { σ.inst i with
        queue := fun d => ((σ.inst i).queue d).unlink id
        listeners := (σ.inst i).listeners.filter (·.id ≠ id) } }.complete ⟨id, .cancelled, 0, []⟩
  else σ

/-! ### Runs -/

inductive Event
  /-- A new pipe, and another instance of the pipe of the instance `i`. -/
  | create (message : Bool) (inQuota outQuota : Nat) (messageMode nowait : Bool)
  | createInstance (i : Nat) (messageMode nowait : Bool)
  | openClient (i : Nat)
  | listen (e id : Nat)
  | disconnect (m : Memory) (e : Nat)
  | close (m : Memory) (e : Nat)
  | setInfo (e : Nat) (messageMode nowait : Bool)
  | cancel (id : Nat)
  | write (t e id proc buf len : Nat)
  | read (t : Nat) (m : Memory) (e id proc buf len : Nat)
  | transceive (t e id proc inBuf inLen outBuf outLen : Nat)
  /-- A thread that is in a call goes on. -/
  | resume (t : Nat) (m : Memory)

def State.resume (σ : State) (t : Nat) (m : Memory) : State :=
  match σ.task t with
  | .idle => σ
  | .write e i irp => σ.writeBuild t m e i irp
  | .writeLink e i j irp built => σ.writeLink t m e i j irp built
  | .serve e => σ.serve t e
  | .accept e i irp => σ.accept t m e i irp
  | .transceive e irp src => σ.transceiveBuild t m e irp src
  | .exchange e j irp src built => σ.exchange t m e j irp src built

def Task.isIdle : Task → Bool
  | .idle => true
  | _ => false

/-- A thread is in one call at a time. -/
def State.Idle (σ : State) (t : Nat) : Prop := (σ.task t).isIdle = true

instance (σ : State) (t : Nat) : Decidable (σ.Idle t) := inferInstanceAs (Decidable (_ = true))

def State.step (σ : State) : Event → State
  | .create message inQuota outQuota messageMode nowait =>
    if messageMode = true ∧ message = false then σ else σ.create (newPipe message inQuota outQuota) messageMode nowait
  | .createInstance i messageMode nowait =>
    if σ.nextInst ≤ i ∨ messageMode = true ∧ (σ.inst i).pipe.message = false then σ
    else σ.create (σ.inst i).pipe messageMode nowait
  | .openClient i => σ.openClient i
  | .listen e id => if (σ.ends e).server then σ.listen e ⟨id, 0, 0, 0, false⟩ else σ
  | .disconnect m e => if (σ.ends e).server then σ.disconnect m e else σ
  | .close m e => σ.close m e
  | .setInfo e messageMode nowait => σ.setInfo e messageMode nowait
  | .cancel id => σ.cancel id
  | .write t e id proc buf len => if σ.Idle t then σ.write t e (σ.irp e id proc buf len) else σ
  | .read t m e id proc buf len => if σ.Idle t then σ.read t m e (σ.irp e id proc buf len) else σ
  | .transceive t e id proc inBuf inLen outBuf outLen =>
    if σ.Idle t then σ.transceive t e ⟨id, proc, outBuf, outLen, true⟩ ⟨id, proc, inBuf, inLen, true⟩ else σ
  | .resume t m => σ.resume t m

/-- The thread that makes a section of a call that may have several. -/
def Event.thread : Event → Option Nat
  | .write t .. | .read t .. | .transceive t .. | .resume t _ => some t
  | _ => none

def State.init : State where
  nextInst := 0
  nextEnd := 0
  inst _ := ⟨newPipe false 0 0, none, none, .disconnected, fun _ => qEmpty DEFAULT_QUOTA, [], false⟩
  ends _ := ⟨none, false, false, false, false⟩
  allIrps := []
  completed := []
  task _ := .idle

end Win98Modern.Npfs
