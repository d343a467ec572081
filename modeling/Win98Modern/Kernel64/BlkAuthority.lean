import Mathlib.Tactic.Common

/-!
# Block-device write authority

The registry of whole devices with its claims (`blk_authority.c`) and the archive snapshots that a
claim may name as its sources (`archive_source.c`).  Each call is atomic under its lock; from
`blk_authority_enter` to `blk_authority_leave` the lock is held, so ordinary I/O is one call too.

What a driver does to the structure of its own device, the mounted devices, random numbers, memory
and the lookup of a path are parts of the call.  `log` is not in the code: it records the generations
that were given out, what was pinned, and what changed.
-/

namespace Win98Modern.BlkAuthority

open Function

abbrev U32 := BitVec 32

def BLK_MAX_DEVICES : Nat := 32
def BLK_F_READONLY : U32 := 1
def BLK_F_PARTITION : U32 := 2
def BLK_F_REMOVABLE : U32 := 4
def BLK_F_MOUNTED : U32 := 8
def BLK_F_FLUSH : U32 := 16
def ARCHIVE_SOURCE_SLOTS : Nat := 8
def UINT64_MAX : Nat := 0xffffffffffffffff
def UINT32_MAX : Nat := 0xffffffff
def SHZ_STORAGE_MAGIC : Nat := 0x505a4853
def SHZ_STORAGE_SATA : Nat := 1
def SHZ_STORAGE_NVME : Nat := 2
def SHZ_STORAGE_READONLY : Nat := 1
def SHZ_STORAGE_REMOVABLE : Nat := 2

/-- `shz_storage_locator_t` -/
structure Locator where
  version : Nat
  size : Nat
  transport : Nat
  reserved0 : Nat
  segment : Nat
  bus : Nat
  device : Nat
  function : Nat
  reserved1 : Nat
  unit : Nat
  multiplier : Nat
  lun : Nat
  sectors : Nat
  blockSize : Nat
  mediaId : Nat
  namespaceEui : List Nat
  mediaFlags : Nat
  reserved2 : Nat
  deriving DecidableEq, Repr

/-- `shz_storage_provenance_t` -/
structure Provenance where
  magic : Nat
  version : Nat
  size : Nat
  flags : Nat
  reserved : Nat
  boot : Locator
  archive : Locator
  archiveGpa : Nat
  archiveSize : Nat
  deriving DecidableEq, Repr

/-- The address of a `blk_dev_t`. -/
abbrev DevId := Nat

/-- `blk_dev_t`; the driver's operations are addresses, 0 for NULL. -/
structure Device where
  sectorSize : Nat
  sectors : Nat
  startLba : Nat
  parent : Option DevId
  flags : U32
  priv : Nat
  read : Nat
  write : Nat
  flush : Nat
  readAsync : Nat
  writeAsync : Nat
  discard : Nat
  control : Nat
  storage : Locator
  deriving DecidableEq, Repr

/-- `blk_authority_identity_t` -/
structure Identity where
  wholeId : Nat
  generation : Nat
  sectors : Nat
  sectorSize : Nat
  flags : U32
  deriving DecidableEq, Repr

/-- `blk_authority_source_t`: a whole device, or a slot of the archive sources. -/
structure Source where
  whole : Option DevId
  archive : Option Nat
  identity : Identity
  deriving DecidableEq, Repr

/-- `struct blk_authority_claim`; `owner` is 0 while the device is not claimed. -/
structure Entry where
  device : DevId
  identity : Identity
  snapshot : Device
  owner : Nat
  sources : Source × Source
  poisoned : Bool
  deriving DecidableEq, Repr

/-- `archive_source_info_t` -/
structure Info where
  id : Nat
  generation : Nat
  bytes : Nat
  sha256 : Nat
  physicalOrigin : Locator
  deriving DecidableEq, Repr

/-- `struct archive_source`; `data` is what its pages hold. -/
structure Slot where
  owner : Nat
  refs : Nat
  info : Info
  data : List Nat
  deriving DecidableEq, Repr

inductive Mark
  | mint (generation : Nat)
  | pin (d : DevId) (identity : Identity)
  | change (d : DevId)
  | claim (c owner : Nat) (reviewed : Identity) (src : Source × Source)
  | snapshot (info : Info) (data : List Nat)
  deriving DecidableEq, Repr

/-- The devices of the drivers, `blk_authority.c` and `archive_source.c`. -/
structure State where
  dev : DevId → Device
  entries : Nat → Entry
  used : Nat
  epoch : Nat
  bootRole : Source
  systemRole : Source
  rolesKind : Nat
  externalOrigin : Provenance
  slots : Nat → Slot
  origin : Option Provenance
  sourceEpoch : Nat
  log : List Mark

/-! ### Locators and devices -/

def locatorValid (x : Locator) : Bool :=
  x.version = 1 ∧ x.size = 56 ∧ x.reserved0 = 0 ∧ x.reserved1 = 0 ∧ x.reserved2 = 0 ∧
    x.segment = 0 ∧ x.device < 32 ∧ x.function < 8 ∧ x.sectors ≠ 0 ∧
    (x.blockSize = 512 ∨ x.blockSize = 2048 ∨ x.blockSize = 4096) ∧ x.mediaFlags < 4 ∧
    ((x.transport = SHZ_STORAGE_SATA ∧ x.unit < 32 ∧ x.multiplier = 0xffff ∧ x.lun = 0) ∨
      (x.transport = SHZ_STORAGE_NVME ∧ x.unit ≠ 0 ∧ x.unit ≠ UINT32_MAX ∧ x.multiplier = 0 ∧ x.lun = 0))

def sameUnit (a b : Locator) : Bool :=
  a.transport = b.transport ∧ a.segment = b.segment ∧ a.bus = b.bus ∧ a.device = b.device ∧
    a.function = b.function ∧ a.unit = b.unit ∧ a.multiplier = b.multiplier ∧ a.lun = b.lun

/-- The comparison of `observed`. -/
def sameDescriptor (d s : Device) : Bool :=
  d.sectorSize = s.sectorSize ∧ d.sectors = s.sectors ∧ d.startLba = s.startLba ∧
    d.priv = s.priv ∧ d.read = s.read ∧ d.write = s.write ∧ d.flush = s.flush ∧
    d.readAsync = s.readAsync ∧ d.writeAsync = s.writeAsync ∧ d.discard = s.discard ∧
    d.control = s.control ∧ d.storage = s.storage ∧ (d.flags ^^^ s.flags) &&& ~~~BLK_F_MOUNTED = 0

def partition (d : Device) : Bool := d.flags &&& BLK_F_PARTITION ≠ 0

section Lookup

variable (s : State)

def entry (d : DevId) : Option Nat :=
  if (s.dev d).parent.isSome ∨ partition (s.dev d) then none
  else (List.range s.used).find? fun i => (s.entries i).device = d

/-- The loop of `whole`. -/
def parents : Nat → DevId → DevId
  | 0, d => d
  | n + 1, d => match (s.dev d).parent with
    | some p => parents n p
    | none => d

/-- `entry(whole(d))`; `entry` refuses what still has a parent. -/
def wholeEntry (d : DevId) : Option Nat := entry s (parents s BLK_MAX_DEVICES d)

/-- `observed` of an entry. -/
def observed (i : Nat) : Bool :=
  let e := s.entries i
  let d := s.dev e.device
  d.parent = none ∧ partition d = false ∧ sameDescriptor d e.snapshot

/-- `find` of `archive_source.c` -/
def live (k : Nat) : Bool := k < ARCHIVE_SOURCE_SLOTS ∧ (s.slots k).refs ≠ 0

/-- `equal` of `archive_source.c`, for a live slot. -/
def slotEqual (k id generation bytes : Nat) : Bool :=
  live s k ∧ (s.slots k).info.generation = generation ∧ (s.slots k).info.bytes = bytes ∧
    (s.slots k).info.id = id

/-- A source that is a device is pinned as it is now. -/
def deviceOk (d : DevId) (identity : Identity) : Bool :=
  match entry s d with
  | some i => observed s i ∧ (s.entries i).owner = 0 ∧ (s.entries i).poisoned = false ∧
      identity = (s.entries i).identity
  | none => false

def pinOk (p : Source) : Bool :=
  match p.archive with
  | some k => p.whole = none ∧ p.identity.sectorSize = 1 ∧ p.identity.flags = 0 ∧
      slotEqual s k p.identity.wholeId p.identity.generation p.identity.sectors
  | none => match p.whole with
    | some d => deviceOk s d p.identity
    | none => false

def rolesOk : Bool :=
  if s.rolesKind = 1 then pinOk s s.bootRole && pinOk s s.systemRole
  else s.rolesKind = 2 ∧ s.origin = some s.externalOrigin

def targetExcluded (d : DevId) : Bool :=
  if s.rolesKind = 1 then some d = s.bootRole.whole ∨ some d = s.systemRole.whole
  else if s.rolesKind ≠ 2 ∨ locatorValid (s.dev d).storage = false ∨
      (s.dev d).storage.sectors ≠ (s.dev d).sectors ∨
      (s.dev d).storage.blockSize ≠ (s.dev d).sectorSize then true
  else sameUnit s.externalOrigin.boot (s.dev d).storage

def claimed (i : Nat) : Bool := i < s.used ∧ (s.entries i).owner ≠ 0

/-- The device is a source of a claim. -/
def protectedSource (d : DevId) : Bool :=
  (List.range s.used).any fun i => claimed s i ∧
    ((s.entries i).sources.1.whole = some d ∨ (s.entries i).sources.2.whole = some d)

def sourceAsync (p : Source) : Bool :=
  match p.whole with
  | some d => (s.dev d).readAsync ≠ 0 ∨ (s.dev d).writeAsync ≠ 0
  | none => false

/-- `eligible`; `busy` is `blk_user_write_busy`. -/
def eligible (i : Nat) (src : Source × Source) (busy : Bool) : Bool :=
  let e := s.entries i
  let d := s.dev e.device
  observed s i ∧ e.owner = 0 ∧ e.poisoned = false ∧ protectedSource s e.device = false ∧
    d.sectorSize = 512 ∧ d.write ≠ 0 ∧ d.flush ≠ 0 ∧ d.flags &&& BLK_F_FLUSH ≠ 0 ∧
    d.flags &&& (BLK_F_READONLY ||| BLK_F_PARTITION ||| BLK_F_REMOVABLE) = 0 ∧ d.startLba = 0 ∧
    d.readAsync = 0 ∧ d.writeAsync = 0 ∧ busy = false ∧ rolesOk s ∧ targetExcluded s e.device = false ∧
    pinOk s src.1 ∧ pinOk s src.2 ∧
    some e.device ≠ s.bootRole.whole ∧ some e.device ≠ s.systemRole.whole ∧
    some e.device ≠ src.1.whole ∧ some e.device ≠ src.2.whole ∧
    sourceAsync s src.1 = false ∧ sourceAsync s src.2 = false

def held (owner c : Nat) (id : Identity) (busy : Bool) : Bool :=
  let e := s.entries c
  c < s.used ∧ owner ≠ 0 ∧ e.owner = owner ∧ e.poisoned = false ∧ observed s c ∧ id = e.identity ∧
    rolesOk s ∧ targetExcluded s e.device = false ∧ pinOk s e.sources.1 ∧ pinOk s e.sources.2 ∧
    some e.device ≠ s.bootRole.whole ∧ some e.device ≠ s.systemRole.whole ∧ busy = false

end Lookup

/-! ### Changes -/

namespace State

def mark (s : State) (m : Mark) : State := { s with log := m :: s.log }

def setEntry (s : State) (i : Nat) (e : Entry) : State :=
  { s with entries := update s.entries i e }

def poison (s : State) (i : Nat) : State := s.setEntry i { s.entries i with poisoned := true }

/-- What a driver leaves in the structure of its device: all but the parent. -/
def setDev (s : State) (d : DevId) (after : Device) : State :=
  { s with dev := update s.dev d { after with parent := (s.dev d).parent } }

def setSlot (s : State) (k : Nat) (x : Slot) : State := { s with slots := update s.slots k x }

end State

def bump (s : State) (i : Nat) : State × Bool :=
  if s.epoch = UINT64_MAX then (s.poison i, false)
  else
    let e := s.entries i
    let s := { s with epoch := s.epoch + 1 }
    ((s.setEntry i { e with identity := { e.identity with generation := s.epoch } }).mark
      (.mint s.epoch), true)

def deadSlot : Slot := ⟨0, 0, ⟨0, 0, 0, 0, ⟨0, 0, 0, 0, 0, 0, 0, 0, 0, 0, 0, 0, 0, 0, 0, [], 0, 0⟩⟩, []⟩

/-- One reference less; the last one destroys the slot. -/
def dropRef (s : State) (k : Nat) (x : Slot) : State :=
  if x.refs = 1 then s.setSlot k deadSlot else s.setSlot k { x with refs := x.refs - 1 }

/-- `archive_source_retain` -/
def archiveRetain (s : State) (owner k : Nat) (identity : Identity) : State × Bool :=
  let x := s.slots k
  if owner ≠ 0 ∧ slotEqual s k identity.wholeId identity.generation identity.sectors ∧
      x.owner = owner ∧ x.refs < UINT32_MAX then
    (s.setSlot k { x with refs := x.refs + 1 }, true)
  else (s, false)

/-- `archive_source_release` -/
def archiveRelease (s : State) (k : Nat) (identity : Identity) : State :=
  let x := s.slots k
  if slotEqual s k identity.wholeId identity.generation x.info.bytes ∧
      (if x.owner = 0 then 0 else 1) < x.refs then dropRef s k x
  else s

def retainSource (s : State) (owner : Nat) (p : Source) : State × Bool :=
  match p.archive with
  | some k => archiveRetain s owner k p.identity
  | none => (s, true)

def releaseSource (s : State) (p : Source) : State :=
  match p.archive with
  | some k => archiveRelease s k p.identity
  | none => s

/-! ### Calls -/

/-- The first identifier that is not zero and not taken, of eight. -/
def freshId (s : State) (ids : List Nat) : Option Nat :=
  (ids.take 8).find? fun id => id ≠ 0 ∧ ∀ i ∈ List.range s.used, (s.entries i).identity.wholeId ≠ id

def register (s : State) (d : DevId) (ids : List Nat) : State × Bool :=
  let desc := s.dev d
  if desc.parent.isSome ∨ partition desc then (s, false)
  else if s.used = BLK_MAX_DEVICES ∨ (entry s d).isSome ∨ s.epoch = UINT64_MAX then (s, false)
  else if locatorValid desc.storage ∧ ∃ i ∈ List.range s.used,
      locatorValid (s.entries i).snapshot.storage ∧ sameUnit desc.storage (s.entries i).snapshot.storage then
    (s, false)
  else match freshId s ids with
    | none => (s, false)
    | some id =>
      let identity : Identity := ⟨id, 0, desc.sectors, desc.sectorSize, desc.flags &&& ~~~BLK_F_MOUNTED⟩
      let e : Entry := ⟨d, identity, desc, 0, (⟨none, none, identity⟩, ⟨none, none, identity⟩), false⟩
      let t := (bump (s.setEntry s.used e) s.used).1
      ({ t with used := t.used + 1 }, true)

/-- `blk_authority_enter`: whether it succeeds. -/
def enter (s : State) (d : DevId) (mutation : Bool) : Bool :=
  match wholeEntry s d with
  | none => false
  | some i => observed s i ∧ (s.entries i).owner = 0 ∧ (s.entries i).poisoned = false ∧
      (mutation = true → protectedSource s (s.entries i).device = false)

def leave (s : State) (d : DevId) (result : Int) (changed : Bool) : State :=
  if result ≠ 0 ∨ changed then
    (match wholeEntry s d with
      | none => s
      | some i => (bump s i).1).mark (.change (parents s BLK_MAX_DEVICES d))
  else s

def ordinary (s : State) (d : DevId) (mutation : Bool) (after : Device) (result : Int)
    (changed : Bool) : State × Bool :=
  if enter s d mutation then
    (leave (s.setDev (parents s BLK_MAX_DEVICES d) after) d result changed, true)
  else (s, false)

def markMounted (s : State) (d : DevId) : State × Bool :=
  if enter s d true then
    (leave (s.setDev d { s.dev d with flags := (s.dev d).flags ||| BLK_F_MOUNTED }) d 0 false, true)
  else (s, false)

def pinned (s : State) (i : Nat) : Source := ⟨some (s.entries i).device, none, (s.entries i).identity⟩

def anyClaimed (s : State) : Bool := (List.range s.used).any fun i => claimed s i

def bindBootRoles (s : State) (boot system : DevId) : State × Bool :=
  match wholeEntry s boot, wholeEntry s system with
  | some a, some b =>
    if s.rolesKind ≠ 0 ∨ anyClaimed s ∨ observed s a = false ∨ observed s b = false then (s, false)
    else
      let p := pinned s a
      let q := pinned s b
      ((({ s with bootRole := p, systemRole := q, rolesKind := 1 } : State).mark
        (.pin (s.entries a).device p.identity)).mark (.pin (s.entries b).device q.identity), true)
  | _, _ => (s, false)

def bindArchiveOrigin (s : State) : State × Bool :=
  match s.origin with
  | none => (s, false)
  | some p =>
    if p.boot.blockSize ≠ 2048 ∨ p.boot.mediaFlags ≠ SHZ_STORAGE_READONLY + SHZ_STORAGE_REMOVABLE ∨
        anyClaimed s ∨ s.rolesKind ≠ 0 then (s, false)
    else ({ s with externalOrigin := p, rolesKind := 2 }, true)

def pinSource (s : State) (d : DevId) : State × Option Source :=
  match wholeEntry s d with
  | none => (s, none)
  | some i =>
    if observed s i ∧ (s.entries i).owner = 0 ∧ (s.entries i).poisoned = false then
      (s.mark (.pin (s.entries i).device (s.entries i).identity), some (pinned s i))
    else (s, none)

/-- `archive_source_info` -/
def archiveInfo (s : State) (owner k : Nat) (review : Info) : Option Info :=
  if owner ≠ 0 ∧ slotEqual s k review.id review.generation review.bytes ∧ (s.slots k).owner = owner then
    some (s.slots k).info
  else none

def pinArchive (s : State) (owner k : Nat) (review : Info) : Option Source :=
  (archiveInfo s owner k review).map fun info =>
    ⟨none, some k, ⟨info.id, info.generation, info.bytes, 1, 0⟩⟩

def review (s : State) (d : DevId) (src : Source × Source) (busy : Bool) : Option Identity :=
  match entry s d with
  | some i => if eligible s i src busy then some (s.entries i).identity else none
  | none => none

def claimTarget (s : State) (owner : Nat) (d : DevId) (reviewed : Identity) (src : Source × Source)
    (busy : Bool) : State × Option Nat :=
  match entry s d with
  | none => (s, none)
  | some i =>
    if owner ≠ 0 ∧ eligible s i src busy ∧ reviewed = (s.entries i).identity then
      let (s₁, first) := retainSource s owner src.1
      if first = false then (s, none)
      else
        let (s₂, second) := retainSource s₁ owner src.2
        if second = false then (releaseSource s₁ src.1, none)
        else ((s₂.setEntry i { s₂.entries i with owner := owner, sources := src }).mark
          (.claim i owner reviewed src), some i)
    else (s, none)

def check (s : State) (owner c : Nat) (id : Identity) (busy : Bool) : Bool := held s owner c id busy

/-- What the driver of a claimed device returns, and what it leaves in the structure. -/
structure Driver where
  rc : Int
  after : Device

/-- The device is held and the driver is called. -/
def reaches (s : State) (owner c : Nat) (id : Identity) (lba n : Nat) (busy : Bool) : Bool :=
  held s owner c id busy ∧ n ≠ 0 ∧ n ≤ 2048 ∧ lba < (s.dev (s.entries c).device).sectors ∧
    n ≤ (s.dev (s.entries c).device).sectors - lba

def afterDriver (s : State) (c : Nat) (drv : Driver) : State × Bool :=
  let s := s.setDev (s.entries c).device drv.after
  if drv.rc ≠ 0 ∨ observed s c = false then (s.poison c, false) else (s, true)

/-- `io`, for a buffer that is not NULL: the same for reads and writes. -/
def io (s : State) (owner c : Nat) (id : Identity) (lba n : Nat) (busy : Bool) (drv : Driver) :
    State × Bool :=
  if reaches s owner c id lba n busy then afterDriver s c drv else (s, false)

def flush (s : State) (owner c : Nat) (id : Identity) (busy : Bool) (drv : Driver) : State × Bool :=
  if held s owner c id busy then afterDriver s c drv else (s, false)

def release (s : State) (owner c : Nat) (id : Identity) : State × Bool :=
  let e := s.entries c
  if c < s.used ∧ owner ≠ 0 ∧ e.owner = owner ∧ e.poisoned = false ∧ observed s c ∧ id = e.identity then
    match bump s c with
    | (s, false) => (s, false)
    | (s, true) =>
      let s := releaseSource (releaseSource s e.sources.1) e.sources.2
      (s.setEntry c { s.entries c with owner := 0 }, true)
  else (s, false)

/-- `archive_source_bind_origin`; `valid` stands for its checks of the handoff. -/
def bindOrigin (s : State) (p : Provenance) (valid : Bool) : State × Bool :=
  if valid = false ∨ p.magic ≠ SHZ_STORAGE_MAGIC ∨ s.origin.isSome ∨
      ∃ k ∈ List.range ARCHIVE_SOURCE_SLOTS, live s k then (s, false)
  else ({ s with origin := some p }, true)

/-- What `archive_source_open` finds: the bytes of the path's node, the identifier that it draws,
and the digest. -/
structure Found where
  data : List Nat
  ids : List Nat
  sha256 : Nat

/-- `archive_source_open`; `found` is `none` when a check or an allocation fails. -/
def archiveOpen (s : State) (owner : Nat) (found : Option Found) : State × Option Info :=
  match s.origin, found, (List.range ARCHIVE_SOURCE_SLOTS).find? fun k => (s.slots k).refs = 0 with
  | some p, some f, some k =>
    if owner = 0 ∨ s.sourceEpoch = UINT64_MAX then (s, none)
    else match (f.ids.take 8).find? (· ≠ 0) with
      | none => (s.setSlot k deadSlot, none)
      | some id =>
        let s := { s with sourceEpoch := s.sourceEpoch + 1 }
        let info : Info := ⟨id, s.sourceEpoch, f.data.length, f.sha256, p.archive⟩
        ((s.setSlot k ⟨owner, 1, info, f.data⟩).mark (.snapshot info f.data), some info)
  | _, _, _ => (s, none)

/-- `archive_source_close` -/
def archiveClose (s : State) (owner k : Nat) (review : Info) : State × Bool :=
  let x := s.slots k
  if owner ≠ 0 ∧ slotEqual s k review.id review.generation review.bytes ∧ x.owner = owner then
    (dropRef s k { x with owner := 0 }, true)
  else (s, false)

/-! ### The system -/

inductive Event
  | fill (d : DevId) (desc : Device)
  | register (d : DevId) (ids : List Nat)
  | ordinary (d : DevId) (mutation : Bool) (after : Device) (result : Int) (changed : Bool)
  | markMounted (d : DevId)
  | bindBootRoles (boot system : DevId)
  | bindArchiveOrigin
  | bindOrigin (p : Provenance) (valid : Bool)
  | pinSource (d : DevId)
  | pinArchive (owner k : Nat) (review : Info)
  | review (d : DevId) (src : Source × Source) (busy : Bool)
  | claimTarget (owner : Nat) (d : DevId) (reviewed : Identity) (src : Source × Source) (busy : Bool)
  | check (owner c : Nat) (id : Identity) (busy : Bool)
  | io (owner c : Nat) (id : Identity) (lba n : Nat) (busy : Bool) (drv : Driver)
  | flush (owner c : Nat) (id : Identity) (busy : Bool) (drv : Driver)
  | release (owner c : Nat) (id : Identity)
  | archiveOpen (owner : Nat) (found : Option Found)
  | archiveClose (owner k : Nat) (review : Info)

def fill (s : State) (d : DevId) (desc : Device) : State :=
  if ∃ i ∈ List.range s.used, (s.entries i).device = d then s
  else { s with dev := update s.dev d desc }

def call (s : State) : Event → State × Bool
  | .fill d desc => (fill s d desc, true)
  | .register d ids => register s d ids
  | .ordinary d mutation after result changed => ordinary s d mutation after result changed
  | .markMounted d => markMounted s d
  | .bindBootRoles boot system => bindBootRoles s boot system
  | .bindArchiveOrigin => bindArchiveOrigin s
  | .bindOrigin p valid => bindOrigin s p valid
  | .pinSource d => ((pinSource s d).1, (pinSource s d).2.isSome)
  | .pinArchive owner k info => (s, (pinArchive s owner k info).isSome)
  | .review d src busy => (s, (review s d src busy).isSome)
  | .claimTarget owner d reviewed src busy =>
    ((claimTarget s owner d reviewed src busy).1, (claimTarget s owner d reviewed src busy).2.isSome)
  | .check owner c id busy => (s, check s owner c id busy)
  | .io owner c id lba n busy drv => io s owner c id lba n busy drv
  | .flush owner c id busy drv => flush s owner c id busy drv
  | .release owner c id => release s owner c id
  | .archiveOpen owner found => ((archiveOpen s owner found).1, (archiveOpen s owner found).2.isSome)
  | .archiveClose owner k info => archiveClose s owner k info

def step (s : State) (a : Event) : State := (call s a).1

structure Start (s : State) : Prop where
  used : s.used = 0
  epoch : s.epoch = 0
  rolesKind : s.rolesKind = 0
  slots : ∀ k, s.slots k = deadSlot
  origin : s.origin = none
  sourceEpoch : s.sourceEpoch = 0
  log : s.log = []

end Win98Modern.BlkAuthority
