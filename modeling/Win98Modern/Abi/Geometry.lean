import Win98Modern.Lib.Memory
import Win98Modern.Abi.Pool

/-!
# The layout of a channel region, byte by byte

`shz_channel_init` and `shz_channel_valid` over the bytes of a region, on a machine whose `size_t` and
pointers have `bits` bits: sums and products of sizes are taken modulo `2 ^ bits`, those of 64-bit fields
modulo `2 ^ 64`.  For the calls on the pool, the entries of the owner table that they touch; what they read there
is anybody's, since the peer writes to the table at the same time.
-/

namespace Win98Modern.Shz

/-- A compiler of the library. -/
structure Target where
  bits : Nat
  /-- The alignment of the two headers. -/
  align : Nat
  bits_eq : bits = 32 ∨ bits = 64
  align_eq : align = 4 ∨ align = 8

namespace Target

variable (t : Target)

/-- `SIZE_MAX` and `UINTPTR_MAX`. -/
def sizeMax : Nat := 2 ^ t.bits - 1

/-- A sum or a product of `size_t`. -/
def wrap (x : Nat) : Nat := x % 2 ^ t.bits

/-- A difference of `size_t`. -/
def sub (x y : Nat) : Nat := (x + 2 ^ t.bits - y) % 2 ^ t.bits

def ringBytes (slotCount : Nat) : Nat :=
  let bytes := (ringHdrSize + slotCount * SHZ_MSG_SLOT_SIZE) % 2 ^ 64
  if bytes ≤ t.sizeMax then bytes else 0

def countOk (slotCount : Nat) : Bool := 2 ≤ slotCount && slotCount &&& (slotCount - 1) = 0

end Target

namespace Region

/-! ### Offsets of the fields -/

abbrev oMagic : Nat := 0
abbrev oAbiMajor : Nat := 4
abbrev oAbiMinor : Nat := 6
abbrev oChannelId : Nat := 8
abbrev oGeneration : Nat := 12
abbrev oDomainA : Nat := 16
abbrev oDomainB : Nat := 20
abbrev oRingAb : Nat := 24
abbrev oRingBa : Nat := 32
abbrev oPool : Nat := 40
abbrev oPoolSize : Nat := 48
abbrev oSlotCount : Nat := 56

/-- Of the ring header, from the start of the ring. -/
abbrev oRingSlotCount : Nat := 4
abbrev oRingSlotSize : Nat := 8

open Memory

variable (t : Target)

/-- `shz_ring_init` at the offset `off` of a region at `base`. -/
def ringInit (base off bytes slotCount : Nat) (m : Memory) : Option Memory :=
  let needed := t.ringBytes slotCount
  if (base + off) % t.align ≠ 0 ∨ ¬Target.countOk slotCount ∨ needed = 0 ∨ bytes < needed then none
  else
    let m := m.fill off needed
    let m := store 4 m (off + oRingSlotCount) slotCount
    let m := store 4 m (off + oRingSlotSize) SHZ_MSG_SLOT_SIZE
    some (store 4 m off SHZ_RING_MAGIC.toNat)

/-- The arguments that `shz_channel_init` refuses. -/
def argumentsOk (base bytes id a b slotCount : Nat) : Prop :=
  base ≠ 0 ∧ base % t.align = 0 ∧ 65536 ≤ bytes ∧ id < SHZ_MAX_CHANNELS ∧ a ≠ SHZ_DOM_NONE.toNat ∧
    a < SHZ_DOM_MAX.toNat ∧ b ≠ SHZ_DOM_NONE.toNat ∧ b < SHZ_DOM_MAX.toNat ∧ a ≠ b ∧ Target.countOk slotCount

instance (base bytes id a b slotCount : Nat) : Decidable (argumentsOk t base bytes id a b slotCount) :=
  inferInstanceAs (Decidable (_ ∧ _))

/-- The layout that the two passes find. -/
structure Layout where
  tableBytes : Nat
  poolOffset : Nat
  blocks : Nat

def secondPass (bytes ring tableBytes : Nat) : Option Layout :=
  let off := t.wrap (channelHdrSize + t.wrap (2 * ring))
  if t.sub bytes off < tableBytes then none
  else
    let off := t.wrap (off + tableBytes)
    let padding := (SHZ_POOL_BLOCK - off % SHZ_POOL_BLOCK) % SHZ_POOL_BLOCK
    if t.sub bytes off < padding then none
    else
      let off := t.wrap (off + padding)
      let blocks := t.sub bytes off / SHZ_POOL_BLOCK
      let blocks := if tableBytes < blocks then tableBytes else blocks
      if blocks = 0 ∨ 2 ^ 32 - 1 < blocks then none else some ⟨tableBytes, off, blocks⟩

/-- The layout of a region of `bytes` bytes. -/
def layout (base bytes slotCount : Nat) : Option Layout :=
  let ring := t.ringBytes slotCount
  if ring = 0 ∨ t.sub bytes channelHdrSize / 2 < ring ∨ t.sizeMax - base < t.sub bytes 1 then none
  else
    let blocks := t.sub (t.sub bytes channelHdrSize) (t.wrap (2 * ring)) / (SHZ_POOL_BLOCK + 1)
    if blocks = 0 ∨ 2 ^ 32 - 1 < blocks ∨ t.sizeMax - 63 < blocks then none
    else secondPass t bytes ring (t.wrap (blocks + 63) / 64 * 64)

/-- The header of a region with a layout, all but its magic. -/
def writeHeader (l : Layout) (ring id a b slotCount generation : Nat) (m : Memory) : Memory :=
  let m := m.fill 0 l.poolOffset
  let m := store 2 m oAbiMajor SHZ_ABI_MAJOR.toNat
  let m := store 2 m oAbiMinor SHZ_ABI_MINOR.toNat
  let m := store 4 m oChannelId id
  let m := store 4 m oGeneration generation
  let m := store 4 m oDomainA a
  let m := store 4 m oDomainB b
  let m := store 4 m oSlotCount slotCount
  let m := store 8 m oRingAb (t.wrap (channelHdrSize + l.tableBytes))
  let m := store 8 m oRingBa ((load 8 m oRingAb + ring) % 2 ^ 64)
  let m := store 8 m oPool l.poolOffset
  store 8 m oPoolSize (t.wrap (l.blocks * SHZ_POOL_BLOCK))

def channelInit (base bytes id a b slotCount generation : Nat) (m : Memory) : Memory × Status :=
  if ¬argumentsOk t base bytes id a b slotCount then (m, .invalid)
  else
    match layout t base bytes slotCount with
    | none => (m, .range)
    | some l =>
      let ring := t.ringBytes slotCount
      let m := writeHeader t l ring id a b slotCount generation m
      match ringInit t base (load 8 m oRingAb) ring slotCount m with
      | none => (m, .invalid)
      | some m =>
        match ringInit t base (load 8 m oRingBa) ring slotCount m with
        | none => (m, .invalid)
        | some m => (store 4 m oMagic SHZ_CHANNEL_MAGIC.toNat, .ok)

/-! ### Validation -/

/-- The fields that the readers of a region use. -/
structure Header where
  ringAb : Nat
  ringBa : Nat
  pool : Nat
  poolSize : Nat
  slotCount : Nat

def header (m : Memory) : Header where
  ringAb := load 8 m oRingAb
  ringBa := load 8 m oRingBa
  pool := load 8 m oPool
  poolSize := load 8 m oPoolSize
  slotCount := load 4 m oSlotCount

def hasDomain (m : Memory) (domain : Nat) : Prop :=
  SHZ_DOM_NONE.toNat < domain ∧ domain < SHZ_DOM_MAX.toNat ∧ (domain = load 4 m oDomainA ∨ domain = load 4 m oDomainB)

instance (m : Memory) (domain : Nat) : Decidable (hasDomain m domain) := inferInstanceAs (Decidable (_ ∧ _))

/-- `shz_ring_valid` of the ring at the offset `off`. -/
def ringValid (base off : Nat) (m : Memory) : Prop :=
  (base + off) % t.align = 0 ∧ load 4 m off = SHZ_RING_MAGIC.toNat ∧ load 4 m (off + oRingSlotSize) = SHZ_MSG_SLOT_SIZE ∧
    Target.countOk (load 4 m (off + oRingSlotCount)) ∧ t.ringBytes (load 4 m (off + oRingSlotCount)) ≠ 0

instance (base off : Nat) (m : Memory) : Decidable (ringValid t base off m) := inferInstanceAs (Decidable (_ ∧ _))

/-- What `shz_channel_valid` checks first. -/
def fieldsValid (base bytes : Nat) (m : Memory) : Prop :=
  base ≠ 0 ∧ channelHdrSize ≤ bytes ∧ base % t.align = 0 ∧ t.sub bytes 1 ≤ t.sizeMax - base ∧
    load 4 m oMagic = SHZ_CHANNEL_MAGIC.toNat ∧ load 2 m oAbiMajor = SHZ_ABI_MAJOR.toNat ∧
      load 4 m oChannelId < SHZ_MAX_CHANNELS ∧ hasDomain m (load 4 m oDomainA) ∧ hasDomain m (load 4 m oDomainB) ∧
        load 4 m oDomainA ≠ load 4 m oDomainB ∧ Target.countOk (load 4 m oSlotCount)

instance (base bytes : Nat) (m : Memory) : Decidable (fieldsValid t base bytes m) :=
  inferInstanceAs (Decidable (_ ∧ _))

/-- What it checks of the offsets. -/
def offsetsValid (bytes : Nat) (h : Header) : Prop :=
  let ring := t.ringBytes h.slotCount
  let owners := h.poolSize / SHZ_POOL_BLOCK
  ring ≠ 0 ∧ h.poolSize ≠ 0 ∧ h.poolSize % SHZ_POOL_BLOCK = 0 ∧ h.pool % SHZ_POOL_BLOCK = 0 ∧
    h.ringAb % t.align = 0 ∧ h.ringBa % t.align = 0 ∧ rangeOk h.ringAb ring bytes ∧ rangeOk h.ringBa ring bytes ∧
      rangeOk h.pool h.poolSize bytes ∧ owners ≤ 2 ^ 32 - 1 ∧ (channelHdrSize + owners) % 2 ^ 64 ≤ h.ringAb ∧
        (h.ringAb + ring) % 2 ^ 64 ≤ h.ringBa ∧ (h.ringBa + ring) % 2 ^ 64 ≤ h.pool

instance (bytes : Nat) (h : Header) : Decidable (offsetsValid t bytes h) := by
  unfold offsetsValid
  infer_instance

def channelValid (base bytes : Nat) (m : Memory) : Prop :=
  fieldsValid t base bytes m ∧ offsetsValid t bytes (header m) ∧
    ringValid t base (header m).ringAb m ∧ ringValid t base (header m).ringBa m ∧
      load 4 m ((header m).ringAb + oRingSlotCount) = (header m).slotCount ∧
        load 4 m ((header m).ringBa + oRingSlotCount) = (header m).slotCount

instance (base bytes : Nat) (m : Memory) : Decidable (channelValid t base bytes m) :=
  inferInstanceAs (Decidable (_ ∧ _))

/-! ### Accesses -/

/-- The offset of the slot that `shz_ring_slot` finds in the ring at `off`. -/
def ringSlot (m : Memory) (off index : Nat) : Nat :=
  t.wrap (off + ringHdrSize +
    t.wrap ((index &&& (load 4 m (off + oRingSlotCount) - 1)) * SHZ_MSG_SLOT_SIZE))

def poolBlocks (h : Header) : Nat := h.poolSize / SHZ_POOL_BLOCK % 2 ^ 32

/-- The blocks that `len` bytes need, in 32 bits. -/
def blocksNeeded (len : Nat) : Nat := (len + SHZ_POOL_BLOCK - 1) / SHZ_POOL_BLOCK % 2 ^ 32

/-- The entries that the claim of `need` blocks from `first` on touches, `k` of them left; the values that the
exchanges see come from `see`.  A lost race rolls back, and the entries are stored again in reverse. -/
def claimTouches (first need : Nat) : Nat → (Nat → BitVec 8) → List Nat × Bool
  | 0, _ => ([], true)
  | k + 1, see =>
    let j := first + (need - (k + 1))
    if see 0 = 0 then
      match claimTouches first need k (fun i => see (i + 1)) with
      | (l, won) => (j :: l, won)
    else (j :: ((List.range' first (need - (k + 1))).reverse), false)

/-- The entries that the scan of `shz_pool_alloc` touches from the `i`-th on, `k` of them left. -/
def allocTouches (need total : Nat) : Nat → Nat → (Nat → BitVec 8) → List Nat
  | 0, _, _ => []
  | k + 1, run, see =>
    let i := total - (k + 1)
    if see 0 ≠ 0 then i :: allocTouches need total k 0 (fun i => see (i + 1))
    else if run + 1 = need then
      match claimTouches (i + 1 - need) need need (fun i => see (i + 1)) with
      | (l, true) => i :: l
      | (l, false) => i :: (l ++ allocTouches need total k 0 (fun i => see (i + 1 + need)))
    else i :: allocTouches need total k (run + 1) (fun i => see (i + 1))

/-- The entries that `shz_pool_alloc` touches. -/
def poolAllocTouches (m : Memory) (owner len : Nat) (see : Nat → BitVec 8) : List Nat :=
  let need := blocksNeeded len
  let total := poolBlocks (header m)
  if len = 0 ∨ need = 0 ∨ total < need ∨ ¬hasDomain m owner then [] else allocTouches need total total 0 see

/-- The entries that a loop over `need` of them from `first` on touches; it stops at one that is not `owner`'s. -/
def loopTouches (owner first : Nat) : Nat → Nat → (Nat → BitVec 8) → List Nat × Bool
  | 0, _, _ => ([], true)
  | k + 1, i, see =>
    if (see i).toNat ≠ owner then ([first + i], false)
    else match loopTouches owner first k (i + 1) see with
      | (l, ok) => ((first + i) :: l, ok)

/-- The entries that `shz_pool_release` touches. -/
def poolReleaseTouches (m : Memory) (owner offset len newOwner : Nat) (see : Nat → BitVec 8) : List Nat :=
  let h := header m
  let need := blocksNeeded len
  if ¬hasDomain m owner ∨ (newOwner ≠ 0 ∧ ¬hasDomain m newOwner) then []
  else if len = 0 ∨ offset < h.pool ∨ (offset - h.pool) % SHZ_POOL_BLOCK ≠ 0 then []
  else
    let first := (offset - h.pool) / SHZ_POOL_BLOCK
    if ¬rangeOk first need (poolBlocks h) then []
    else match loopTouches owner first need 0 see with
      | (l, false) => l
      | (l, true) => l ++ List.range' first need

/-- The entries that `shz_pool_check` touches, and its result. -/
def poolCheck (m : Memory) (bufferOffset bufferLength owner : Nat) (see : Nat → BitVec 8) : List Nat × Status :=
  let h := header m
  if bufferLength = 0 then ([], .ok)
  else if ¬hasDomain m owner then ([], .denied)
  else if bufferOffset < h.pool then ([], .range)
  else if ¬rangeOk (bufferOffset - h.pool) bufferLength h.poolSize then ([], .range)
  else
    let first := (bufferOffset - h.pool) / SHZ_POOL_BLOCK
    let need := ((bufferOffset - h.pool) % SHZ_POOL_BLOCK + bufferLength + SHZ_POOL_BLOCK - 1) / SHZ_POOL_BLOCK % 2 ^ 32
    match loopTouches owner first need 0 see with
    | (l, false) => (l, .denied)
    | (l, true) => (l, .ok)

end Region

end Win98Modern.Shz
