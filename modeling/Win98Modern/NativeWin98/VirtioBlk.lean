import Win98Modern.NativeWin98.PersistentDisk

/-!
# The virtio block driver and its sealed member

`submit` and `w98_vblk_seal_member` of `virtio_blk.c`, and the disk backend of `persistent_disk.c`
above them.  What the device and the PCI bus answer in one call of `submit` is a parameter
(`SubmitIo`); the requests made available to the device are recorded.
-/

namespace Win98Modern.NativeWin98

inductive ReqType
  | read
  | write
  | flush
deriving DecidableEq, Repr

structure Request where
  type : ReqType
  sector : Nat
deriving DecidableEq, Repr

/-- `w98_vblk_t`, after its initialization; `addr` tells it from other objects.  `requests`, the
requests put into the queue, the latest first, is for the proofs only. -/
structure Vblk where
  addr : Nat
  sectors : Nat
  ready : Bool
  failed : Bool
  busy : Bool
  sealed : Bool
  resetAcknowledged : Bool
  extent : List Extent
  requests : List Request

/-- One call of `submit`: `admitted` that the function, its state and its capacity are those expected
and the time is not up, `idle` that no other request is in the used ring, `mapped` that all addresses
are given, `notified` that the device was told, `completed` that it answered in time and with success,
`data` what it read; `reset` that a reset is acknowledged. -/
structure SubmitIo where
  admitted : Bool
  idle : Bool
  mapped : Bool
  notified : Bool
  completed : Bool
  reset : Bool
  data : Sector

/-- `range` of `virtio_blk.c`. -/
def InRange (base size start bytes : Nat) : Prop :=
  size ≠ 0 ∧ bytes ≠ 0 ∧ base ≤ start ∧ start - base < size ∧ bytes ≤ size - (start - base)

instance (base size start bytes : Nat) : Decidable (InRange base size start bytes) :=
  inferInstanceAs (Decidable (_ ∧ _))

namespace Vblk

def memberLba (v : Vblk) (lba : Nat) : Bool :=
  v.extent.any fun x => InRange x.deviceLba x.count lba 1

/-- `fail`: the driver takes no more requests; its reset may be acknowledged or not. -/
def fail (v : Vblk) (io : SubmitIo) : Vblk :=
  { v with failed := true, ready := false, resetAcknowledged := io.reset }

/-- The calls that `submit` returns from before it touches the device. -/
def Refuses (v : Vblk) (type : ReqType) (lba : Nat) : Prop :=
  ¬v.ready ∨ v.failed ∨ (type ≠ .flush ∧ v.sectors ≤ lba) ∨
    (type = .write ∧ (¬v.sealed ∨ ¬v.memberLba lba)) ∨ v.busy

instance (v : Vblk) (type : ReqType) (lba : Nat) : Decidable (v.Refuses type lba) :=
  inferInstanceAs (Decidable (_ ∨ _))

/-- `submit`: the driver after it, and the data on success. -/
def submit (v : Vblk) (type : ReqType) (lba : Nat) (io : SubmitIo) : Vblk × Option Sector :=
  if v.Refuses type lba then (v, none)
  else if ¬io.admitted ∨ ¬io.idle ∨ ¬io.mapped then (v.fail io, none)
  else
    let v := { v with requests := ⟨type, if type = .flush then 0 else lba⟩ :: v.requests }
    if ¬io.notified ∨ ¬io.completed then (v.fail io, none) else (v, some io.data)

def readBlock (v : Vblk) (lba count : Nat) (io : SubmitIo) : Vblk × Option Sector :=
  if count = 1 then v.submit .read lba io else (v, none)

def writeBlock (v : Vblk) (lba count : Nat) (io : SubmitIo) : Vblk × Option Sector :=
  if count = 1 then v.submit .write lba io else (v, none)

def flushBlock (v : Vblk) (io : SubmitIo) : Vblk × Option Sector :=
  if v.sealed then v.submit .flush 0 io else (v, none)

def close (v : Vblk) (io : SubmitIo) : Vblk := if v.busy then v else v.fail io

/-- The loop of `w98_vblk_seal_member` over the extents from `logical` on; `before` are those that it
has passed. -/
def sealLoop (sectors : Nat) : List Extent → List Extent → Nat → Option Nat
  | _, [], logical => some logical
  | before, x :: xs, logical =>
    if x.first ≠ logical ∨ x.count = 0 ∨ W98_PERSIST_DISK_SECTORS - logical < x.count ∨
        ¬InRange 0 sectors x.deviceLba x.count then none
    else if before.any fun y =>
        x.deviceLba < y.deviceLba + y.count ∧ y.deviceLba < x.deviceLba + x.count then none
    else sealLoop sectors (before ++ [x]) xs (logical + x.count)

/-- `w98_vblk_seal_member`; `expired` is whether the time for the admission is up. -/
def sealMember (v : Vblk) (m : Persist) (expired : Bool) : Option Vblk :=
  if ¬v.ready ∨ v.failed ∨ v.sealed ∨ m.failed ∨ ¬m.admitted ∨ m.extent = [] ∨
      W98_PERSIST_MAX_EXTENTS < m.extent.length ∨ m.block.ctx ≠ v.addr ∨ m.block.ops ≠ .vblk ∨
      m.block.sectors ≠ v.sectors ∨ expired then none
  else
    match sealLoop v.sectors [] m.extent 0 with
    | none => none
    | some logical =>
      if logical ≠ W98_PERSIST_DISK_SECTORS then none
      else some { v with extent := m.extent, sealed := true }

end Vblk

/-! ### The backend -/

/-- The admitted disk and the driver below it. -/
structure DiskSystem where
  m : Persist
  v : Vblk

/-- What a member function does with the result of the block device. -/
def DiskSystem.finish (s : DiskSystem) (r : Vblk × Option Sector) : DiskSystem × Option Sector :=
  match r with
  | (v, none) => ({ s with m := { s.m with failed := true }, v }, none)
  | (v, some data) => ({ s with v }, some data)

def DiskSystem.memberRead (s : DiskSystem) (sector : Nat) (io : SubmitIo) : DiskSystem × Option Sector :=
  match s.m.location sector with
  | none => (s, none)
  | some lba => if s.m.busy then (s, none) else s.finish (s.v.readBlock lba 1 io)

def DiskSystem.memberWrite (s : DiskSystem) (sector : Nat) (io : SubmitIo) : DiskSystem × Option Sector :=
  match s.m.location sector with
  | none => (s, none)
  | some lba => if s.m.busy then (s, none) else s.finish (s.v.writeBlock lba 1 io)

def DiskSystem.memberFlush (s : DiskSystem) (io : SubmitIo) : DiskSystem × Option Sector :=
  if ¬s.m.admitted ∨ s.m.failed ∨ s.m.busy then (s, none) else s.finish (s.v.flushBlock io)

/-- The calls, and other contexts that enter or leave one (`contend`). -/
inductive DiskAct
  | memberRead (sector : Nat) (io : SubmitIo)
  | memberWrite (sector : Nat) (io : SubmitIo)
  | memberFlush (io : SubmitIo)
  | readBlock (lba count : Nat) (io : SubmitIo)
  | writeBlock (lba count : Nat) (io : SubmitIo)
  | flushBlock (io : SubmitIo)
  | close (io : SubmitIo)
  | contend (member driver : Bool)

/-- A call on the driver itself. -/
def DiskSystem.direct (s : DiskSystem) (r : Vblk × Option Sector) : DiskSystem × Option Sector :=
  ({ s with v := r.1 }, r.2)

/-- The system after an act, and what a transfer returns. -/
def DiskSystem.act (s : DiskSystem) : DiskAct → DiskSystem × Option Sector
  | .memberRead sector io => s.memberRead sector io
  | .memberWrite sector io => s.memberWrite sector io
  | .memberFlush io => s.memberFlush io
  | .readBlock lba count io => s.direct (s.v.readBlock lba count io)
  | .writeBlock lba count io => s.direct (s.v.writeBlock lba count io)
  | .flushBlock io => s.direct (s.v.flushBlock io)
  | .close io => ({ s with v := s.v.close io }, none)
  | .contend member driver =>
    ({ m := { s.m with busy := member }, v := { s.v with busy := driver } }, none)

def DiskSystem.step (s : DiskSystem) (a : DiskAct) : DiskSystem := (s.act a).1

end Win98Modern.NativeWin98
