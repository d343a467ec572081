import Win98Modern.Abi.Ring
import Win98Modern.Lib.Runs
import Mathlib.Algebra.BigOperators.Group.Finset.Basic
import Mathlib.Data.Fintype.Basic

/-!
# The shared buffer pool

A channel has one owner byte for each block of its pool.  `shz_pool_alloc`, `shz_pool_release` and
`shz_pool_check` are cut at their accesses to the owner table; any threads of the two domains call
them.  Beside the table the machine keeps the live allocations and the blocks that a check has
seen.
-/

namespace Win98Modern.Shz

open Function

def SHZ_CHANNEL_MAGIC : BitVec 32 := 0x4c4e4843
def SHZ_MAX_CHANNELS : Nat := 4
def SHZ_DOM_NONE : BitVec 32 := 0
def SHZ_DOM_MAX : BitVec 32 := 8
def SHZ_POOL_BLOCK : Nat := 4096

/-- `sizeof(shz_channel_hdr_t)`. -/
def channelHdrSize : Nat := 128

/-- `shz_channel_hdr_t`. -/
structure Channel where
  magic : BitVec 32
  abiMajor : BitVec 16
  channelId : BitVec 32
  domainA : BitVec 32
  domainB : BitVec 32
  ringAbOffset : BitVec 64
  ringBaOffset : BitVec 64
  poolOffset : BitVec 64
  poolSize : BitVec 64
  slotCount : BitVec 32
  deriving DecidableEq, Repr

namespace Channel

def hasDomain (c : Channel) (domain : BitVec 32) : Bool :=
  SHZ_DOM_NONE < domain && domain < SHZ_DOM_MAX && (domain = c.domainA || domain = c.domainB)

def poolBlocks (c : Channel) : Nat := c.poolSize.toNat / SHZ_POOL_BLOCK % 2 ^ 32

/-- `shz_channel_valid` for a region of `bytes` bytes at `base`, with the two rings in it. -/
def valid (sizeMax base bytes : Nat) (c : Channel) (ab ba : Ring) : Bool :=
  let ring := ringBytes sizeMax c.slotCount
  let owners := c.poolSize.toNat / SHZ_POOL_BLOCK
  base ≠ 0 && channelHdrSize ≤ bytes && base % msgAlign = 0 && bytes - 1 ≤ sizeMax - base &&
    c.magic = SHZ_CHANNEL_MAGIC && c.abiMajor = SHZ_ABI_MAJOR &&
    c.channelId.toNat < SHZ_MAX_CHANNELS &&
    c.hasDomain c.domainA && c.hasDomain c.domainB && c.domainA ≠ c.domainB && countOk c.slotCount &&
    ring ≠ 0 && c.poolSize ≠ 0 && c.poolSize.toNat % SHZ_POOL_BLOCK = 0 &&
    c.poolOffset.toNat % SHZ_POOL_BLOCK = 0 &&
    c.ringAbOffset.toNat % msgAlign = 0 && c.ringBaOffset.toNat % msgAlign = 0 &&
    rangeOk c.ringAbOffset.toNat ring bytes && rangeOk c.ringBaOffset.toNat ring bytes &&
    rangeOk c.poolOffset.toNat c.poolSize.toNat bytes &&
    owners < 2 ^ 32 && channelHdrSize + owners ≤ c.ringAbOffset.toNat &&
    c.ringAbOffset.toNat + ring ≤ c.ringBaOffset.toNat &&
    c.ringBaOffset.toNat + ring ≤ c.poolOffset.toNat &&
    ab.valid sizeMax (base + c.ringAbOffset.toNat) &&
    ba.valid sizeMax (base + c.ringBaOffset.toNat) &&
    ab.slotCount = c.slotCount && ba.slotCount = c.slotCount

end Channel

/-! ### Calls -/

/-- The blocks that `len` bytes need. -/
def blocksFor (len : BitVec 32) : Nat := (len.toNat + SHZ_POOL_BLOCK - 1) / SHZ_POOL_BLOCK

/-- The byte that marks a block of `owner`. -/
def mark (owner : BitVec 32) : BitVec 8 := owner.setWidth 8

def checkFirst (c : Channel) (m : MsgHdr) : Nat :=
  (m.bufferOffset.toNat - c.poolOffset.toNat) / SHZ_POOL_BLOCK

def checkNeed (c : Channel) (m : MsgHdr) : Nat :=
  ((m.bufferOffset.toNat - c.poolOffset.toNat) % SHZ_POOL_BLOCK + m.bufferLength.toNat +
    SHZ_POOL_BLOCK - 1) / SHZ_POOL_BLOCK % 2 ^ 32

/-- Where a thread is: the access to the owner table that it makes next. -/
inductive PoolPc
  | idle
  /-- `shz_pool_alloc`: loading byte `i` after a run of free ones; claiming byte `j` of the run that
  ends at `i`; giving back the byte before `j`. -/
  | scan (owner len : BitVec 32) (i run : Nat)
  | claim (owner len : BitVec 32) (i j : Nat)
  | undo (owner len : BitVec 32) (i j : Nat)
  /-- `shz_pool_release`: loading byte `first + i`, storing it. -/
  | verify (owner newOwner : BitVec 32) (first need i : Nat)
  | hand (owner newOwner : BitVec 32) (first need i : Nat)
  /-- `shz_pool_check`: loading byte `i` of the blocks of the message. -/
  | inspect (m : MsgHdr) (owner : BitVec 32) (i : Nat)
  deriving DecidableEq, Repr

inductive PoolRet
  | allocated (offset : Nat)
  | released (status : Status)
  | checked (status : Status)
  deriving DecidableEq, Repr

/-- A range of blocks in the hands of a domain. -/
structure Allocation where
  owner : BitVec 32
  first : Nat
  need : Nat
  deriving DecidableEq, Repr

structure Pool (T : Type) where
  table : Nat → BitVec 8
  pc : T → PoolPc
  ret : T → Option PoolRet
  /-- What was allocated or transferred and not released yet. -/
  live : List Allocation
  /-- The blocks that the last check of the thread found marked with the expected owner. -/
  seen : T → List Nat

inductive PoolAct (T : Type)
  | alloc (t : T) (owner len : BitVec 32)
  | release (t : T) (owner : BitVec 32) (offset : BitVec 64) (len newOwner : BitVec 32)
  | check (t : T) (m : MsgHdr) (owner : BitVec 32)
  | go (t : T)
  deriving DecidableEq, Repr

namespace Pool

variable {T : Type} [DecidableEq T]

def start (table : Nat → BitVec 8) (live : List Allocation) : Pool T :=
  ⟨table, fun _ => .idle, fun _ => none, live, fun _ => []⟩

def setPc (p : Pool T) (t : T) (pc : PoolPc) : Pool T := { p with pc := update p.pc t pc }

def finish (p : Pool T) (t : T) (ret : PoolRet) : Pool T :=
  { p.setPc t .idle with ret := update p.ret t (some ret) }

def store (p : Pool T) (b : Nat) (v : BitVec 8) : Pool T :=
  { p with table := update p.table b v }

/-- The next access of `t`. -/
def go (c : Channel) (p : Pool T) (t : T) : Pool T :=
  match p.pc t with
  | .idle => p
  | .scan owner len i run =>
    if i < c.poolBlocks then
      if p.table i ≠ 0 then p.setPc t (.scan owner len (i + 1) 0)
      else if run + 1 = blocksFor len then p.setPc t (.claim owner len i (i + 1 - blocksFor len))
      else p.setPc t (.scan owner len (i + 1) (run + 1))
    else p.finish t (.allocated 0)
  | .claim owner len i j =>
    let first := i + 1 - blocksFor len
    if p.table j = 0 then
      if j = i then
        { p.store j (mark owner) with live := p.live ++ [Allocation.mk owner first (blocksFor len)] }.finish t
          (.allocated (c.poolOffset.toNat + first * SHZ_POOL_BLOCK))
      else (p.store j (mark owner)).setPc t (.claim owner len i (j + 1))
    else if j = first then p.setPc t (.scan owner len (i + 1) 0)
    else p.setPc t (.undo owner len i j)
  | .undo owner len i j =>
    let first := i + 1 - blocksFor len
    if j - 1 = first then (p.store (j - 1) 0).setPc t (.scan owner len (i + 1) 0)
    else (p.store (j - 1) 0).setPc t (.undo owner len i (j - 1))
  | .verify owner newOwner first need i =>
    if (p.table (first + i)).setWidth 32 ≠ owner then p.finish t (.released .denied)
    else if i + 1 = need then
      { p with live := p.live.erase (Allocation.mk owner first need) }.setPc t
        (.hand owner newOwner first need 0)
    else p.setPc t (.verify owner newOwner first need (i + 1))
  | .hand owner newOwner first need i =>
    if i + 1 = need then
      { p.store (first + i) (mark newOwner) with
        live := if newOwner = 0 then p.live else p.live ++ [Allocation.mk newOwner first need] }.finish t
          (.released .ok)
    else (p.store (first + i) (mark newOwner)).setPc t (.hand owner newOwner first need (i + 1))
  | .inspect m owner i =>
    let b := checkFirst c m + i
    if (p.table b).setWidth 32 ≠ owner then p.finish t (.checked .denied)
    else
      let p := { p with seen := update p.seen t (b :: p.seen t) }
      if i + 1 = checkNeed c m then p.finish t (.checked .ok) else p.setPc t (.inspect m owner (i + 1))

def step (c : Channel) (p : Pool T) : PoolAct T → Pool T
  | .alloc t owner len =>
    if p.pc t ≠ .idle then p
    else if len = 0 ∨ blocksFor len = 0 ∨ c.poolBlocks < blocksFor len ∨ !c.hasDomain owner then
      p.finish t (.allocated 0)
    else p.setPc t (.scan owner len 0 0)
  | .release t owner offset len newOwner =>
    let first := (offset.toNat - c.poolOffset.toNat) / SHZ_POOL_BLOCK
    if p.pc t ≠ .idle then p
    else if !c.hasDomain owner ∨ (newOwner ≠ 0 ∧ !c.hasDomain newOwner) then
      p.finish t (.released .denied)
    else if len = 0 ∨ offset.toNat < c.poolOffset.toNat ∨
        (offset.toNat - c.poolOffset.toNat) % SHZ_POOL_BLOCK ≠ 0 then
      p.finish t (.released .range)
    else if !rangeOk first (blocksFor len) c.poolBlocks then p.finish t (.released .range)
    else p.setPc t (.verify owner newOwner first (blocksFor len) 0)
  | .check t m owner =>
    if p.pc t ≠ .idle then p
    else
      let p := { p with seen := update p.seen t [] }
      if m.bufferLength = 0 then p.finish t (.checked .ok)
      else if !c.hasDomain owner then p.finish t (.checked .denied)
      else if m.bufferOffset.toNat < c.poolOffset.toNat then p.finish t (.checked .range)
      else if !rangeOk (m.bufferOffset.toNat - c.poolOffset.toNat) m.bufferLength.toNat
          c.poolSize.toNat then
        p.finish t (.checked .range)
      else p.setPc t (.inspect m owner 0)
  | .go t => p.go c t

end Pool

end Win98Modern.Shz
