import Win98Modern.Abi.Basic
import Mathlib.Data.List.OfFn

/-!
# Rings of messages

The ring of `shz_ipc.h` with its producer and its consumer, cut at the loads and stores of `head`
and `tail`, the filling and the copying of a slot.  A hostile producer may store anything in
`head` and in the slots at any moment (`forge`).
-/

namespace Win98Modern.Shz

/-! ### Bytes and checksums -/

/-- The `n` lower bytes, the lowest first. -/
def le {w : Nat} (n : Nat) (v : BitVec w) : List (BitVec 8) :=
  (List.range n).map fun i => v.extractLsb' (8 * i) 8

def MsgHdr.bytes (h : MsgHdr) : List (BitVec 8) :=
  le 4 h.magic ++ le 2 h.abiMajor ++ le 2 h.abiMinor ++ le 2 h.headerSize ++ le 2 h.flags ++
    le 4 h.messageSize ++ le 4 h.opcode ++ le 2 h.srcDomain ++ le 2 h.dstDomain ++
    le 8 h.requestId ++ le 4 h.generation ++ le 4 h.status ++ le 2 h.payloadOffset ++
    le 2 h.payloadLength ++ le 4 h.bufferLength ++ le 8 h.bufferOffset ++ le 4 h.capabilityId ++
    le 4 h.checksum

@[simp] theorem le_length {w n : Nat} (v : BitVec w) : (le n v).length = n := by
  unfold le
  rw [List.length_map, List.length_range]

theorem MsgHdr.bytes_length (h : MsgHdr) : h.bytes.length = hdrSize := by
  unfold MsgHdr.bytes
  simp only [List.length_append, le_length]
  rfl

/-- One turn of the inner loop of `shz_crc32`. -/
def crcBit (crc : BitVec 32) : BitVec 32 := (crc >>> 1) ^^^ (0xedb88320 &&& (0 - (crc &&& 1)))

def crcByte (crc : BitVec 32) (b : BitVec 8) : BitVec 32 := crcBit^[8] (crc ^^^ b.setWidth 32)

def crc32 (data : List (BitVec 8)) : BitVec 32 := ~~~data.foldl crcByte 0xffffffff

structure Slot where
  hdr : MsgHdr
  body : Fin SHZ_MSG_MAX_INLINE → BitVec 8

def Slot.bytes (s : Slot) : List (BitVec 8) := s.hdr.bytes ++ List.ofFn s.body

def Slot.checksum (s : Slot) : BitVec 32 :=
  let buf := { s.hdr with checksum := 0 }.bytes ++
    if hdrSize < s.hdr.messageSize.toNat ∧ s.hdr.messageSize.toNat ≤ SHZ_MSG_SLOT_SIZE then
      (List.ofFn s.body).take (s.hdr.messageSize.toNat - hdrSize)
    else []
  crc32 (buf.take
    (if s.hdr.messageSize.toNat ≤ SHZ_MSG_SLOT_SIZE then s.hdr.messageSize.toNat else hdrSize))

/-! ### The ring -/

structure Ring where
  magic : BitVec 32
  slotCount : BitVec 32
  slotSize : BitVec 32
  head : BitVec 32
  tail : BitVec 32
  slots : Nat → Slot

/-- `sizeof(shz_ring_hdr_t)`. -/
def ringHdrSize : Nat := 192

/-- The alignment of the message header. -/
def msgAlign : Nat := 8

/-- `shz_ring_bytes` on a machine whose largest size is `sizeMax`. -/
def ringBytes (sizeMax : Nat) (slotCount : BitVec 32) : Nat :=
  let bytes := ringHdrSize + slotCount.toNat * SHZ_MSG_SLOT_SIZE
  if bytes ≤ sizeMax then bytes else 0

/-- `slot_count < 2 || (slot_count & (slot_count - 1))` is false. -/
def countOk (slotCount : BitVec 32) : Bool := 2 ≤ slotCount && slotCount &&& (slotCount - 1) = 0

/-- `shz_ring_init` at the address `base`. -/
def ringInit (sizeMax base bytes : Nat) (slotCount : BitVec 32) : Option Ring :=
  let needed := ringBytes sizeMax slotCount
  if base = 0 ∨ base % msgAlign ≠ 0 ∨ !countOk slotCount ∨ needed = 0 ∨ bytes < needed then none
  else some ⟨SHZ_RING_MAGIC, slotCount, BitVec.ofNat 32 SHZ_MSG_SLOT_SIZE, 0, 0,
    fun _ => ⟨.zero, fun _ => 0⟩⟩

namespace Ring

def valid (r : Ring) (sizeMax base : Nat) : Bool :=
  base ≠ 0 && base % msgAlign = 0 && r.magic = SHZ_RING_MAGIC &&
    r.slotSize = BitVec.ofNat 32 SHZ_MSG_SLOT_SIZE && countOk r.slotCount &&
    ringBytes sizeMax r.slotCount ≠ 0

/-- The slot that `shz_ring_slot` finds. -/
def index (r : Ring) (i : BitVec 32) : Nat := (i &&& (r.slotCount - 1)).toNat

end Ring

/-! ### Messages -/

/-- What the caller of `shz_ring_push` has sent: the header as it is after the call, and the
payload. -/
structure Message where
  hdr : MsgHdr
  payload : List (BitVec 8)
  deriving DecidableEq, Repr

/-- The fields that `shz_ring_push` sets, before the checksum. -/
def MsgHdr.stamp (h : MsgHdr) : MsgHdr :=
  { h with
    magic := SHZ_MSG_MAGIC
    abiMajor := SHZ_ABI_MAJOR
    abiMinor := SHZ_ABI_MINOR
    headerSize := BitVec.ofNat 16 hdrSize
    payloadOffset := if h.payloadLength ≠ 0 then BitVec.ofNat 16 hdrSize else 0
    messageSize := BitVec.ofNat 32 hdrSize + h.payloadLength.setWidth 32
    checksum := 0 }

/-- The slot after the header and the payload were copied over zeros. -/
def unsignedSlot (h : MsgHdr) (payload : Nat → BitVec 8) : Slot :=
  ⟨h.stamp, fun i => if i < h.payloadLength.toNat then payload i else 0⟩

/-- The slot as `shz_ring_push` leaves it. -/
def filledSlot (h : MsgHdr) (payload : Nat → BitVec 8) : Slot :=
  { unsignedSlot h payload with
    hdr := { h.stamp with checksum := (unsignedSlot h payload).checksum } }

def sent (h : MsgHdr) (payload : Nat → BitVec 8) : Message :=
  ⟨(filledSlot h payload).hdr, (List.range h.payloadLength.toNat).map payload⟩

/-- `enum shz_proto_reason`. -/
inductive ProtoReason
  | none | magic | version | headerSize | messageSize | payloadRange | checksum | headCorrupt
  deriving DecidableEq, Repr

/-- What a pop gives back: the size of the caller's buffer (`none` for a null pointer), the
status, the reason, the header and the payload bytes that were copied. -/
structure Taken where
  cap : Option Nat
  status : Status
  reason : ProtoReason
  hdr : MsgHdr
  payload : List (BitVec 8)
  deriving DecidableEq, Repr

/-- The checks of `shz_ring_pop` before the checksum. -/
def Slot.malformed (s : Slot) : ProtoReason :=
  if s.hdr.magic ≠ SHZ_MSG_MAGIC then .magic
  else if s.hdr.abiMajor ≠ SHZ_ABI_MAJOR then .version
  else if s.hdr.headerSize ≠ BitVec.ofNat 16 hdrSize then .headerSize
  else if s.hdr.messageSize.toNat < hdrSize ∨ SHZ_MSG_SLOT_SIZE < s.hdr.messageSize.toNat ∨
      s.hdr.messageSize ≠ s.hdr.headerSize.setWidth 32 + s.hdr.payloadLength.setWidth 32 then
    .messageSize
  else if SHZ_MSG_MAX_INLINE < s.hdr.payloadLength.toNat ∨
      (s.hdr.payloadLength ≠ 0 ∧ s.hdr.payloadOffset ≠ s.hdr.headerSize) ∨
      !rangeOk s.hdr.payloadOffset.toNat s.hdr.payloadLength.toNat s.hdr.messageSize.toNat then
    .payloadRange
  else .none

/-- The snapshot with `snapshot.header.checksum = 0`. -/
def Slot.cleared (s : Slot) : Slot := { s with hdr := { s.hdr with checksum := 0 } }

def Slot.fits (s : Slot) (cap : Option Nat) : Bool :=
  s.hdr.payloadLength = 0 || cap.any (s.hdr.payloadLength.toNat ≤ ·)

/-- What `shz_ring_pop` makes of its snapshot. -/
def Slot.read (s : Slot) (cap : Option Nat) : Taken :=
  let proto why := ⟨cap, .proto, why, s.hdr, []⟩
  match s.malformed with
  | .none =>
    if crc32 (s.cleared.bytes.take s.hdr.messageSize.toNat) ≠ s.hdr.checksum then proto .checksum
    else if s.fits cap then
      ⟨cap, .ok, .none, s.hdr,
        (s.cleared.bytes.drop s.hdr.payloadOffset.toNat).take s.hdr.payloadLength.toNat⟩
    else proto .payloadRange
  | why => proto why

/-! ### Producer and consumer -/

inductive Producer
  | idle
  /-- Before loading `head`, loading `tail`, filling the slot and storing `head`. -/
  | head (h : MsgHdr) (payload : Nat → BitVec 8)
  | tail (h : MsgHdr) (payload : Nat → BitVec 8) (head : BitVec 32)
  | fill (h : MsgHdr) (payload : Nat → BitVec 8) (head : BitVec 32)
  | publish (h : MsgHdr) (payload : Nat → BitVec 8) (head : BitVec 32)

inductive Consumer
  | idle
  /-- Before loading `tail`, loading `head`, copying the slot and storing `tail`. -/
  | tail (cap : Option Nat)
  | head (cap : Option Nat) (tail : BitVec 32)
  | copy (cap : Option Nat) (tail : BitVec 32)
  | store (cap : Option Nat) (tail : BitVec 32) (snapshot : Slot)

/-- A ring with its two sides, what the last calls returned, the messages pushed with `SHZ_OK`
and the pops that took a slot. -/
structure Link where
  ring : Ring
  producer : Producer
  consumer : Consumer
  pushRet : Option Status
  popRet : Option (Status × ProtoReason)
  pushed : List Message
  taken : List Taken

inductive LinkAct
  | push (h : MsgHdr) (payload : Option (Nat → BitVec 8))
  | pop (cap : Option Nat)
  | producer
  | consumer
  | forge (head : BitVec 32) (slots : Nat → Slot)

namespace Link

def start (r : Ring) : Link := ⟨r, .idle, .idle, none, none, [], []⟩

def pushEnd (l : Link) (status : Status) : Link :=
  { l with producer := .idle, pushRet := some status }

def popEnd (l : Link) (status : Status) (reason : ProtoReason) : Link :=
  { l with consumer := .idle, popRet := some (status, reason) }

/-- The next access of `shz_ring_push`. -/
def produce (l : Link) : Link :=
  match l.producer with
  | .idle => l
  | .head h payload => { l with producer := .tail h payload l.ring.head }
  | .tail h payload head =>
    if l.ring.slotCount ≤ head - l.ring.tail then l.pushEnd .queueFull
    else { l with producer := .fill h payload head }
  | .fill h payload head =>
    { l with
      ring := { l.ring with
        slots := Function.update l.ring.slots (l.ring.index head) (filledSlot h payload) }
      producer := .publish h payload head }
  | .publish h payload head =>
    { l with
      ring := { l.ring with head := head + 1 }
      pushed := l.pushed ++ [sent h payload] }.pushEnd .ok

/-- The next access of `shz_ring_pop`. -/
def consume (l : Link) : Link :=
  match l.consumer with
  | .idle => l
  | .tail cap => { l with consumer := .head cap l.ring.tail }
  | .head cap tail =>
    if l.ring.head = tail then l.popEnd .noent .none
    else if l.ring.slotCount < l.ring.head - tail then l.popEnd .proto .headCorrupt
    else { l with consumer := .copy cap tail }
  | .copy cap tail => { l with consumer := .store cap tail (l.ring.slots (l.ring.index tail)) }
  | .store cap tail snapshot =>
    { l with
      ring := { l.ring with tail := tail + 1 }
      taken := l.taken ++ [snapshot.read cap] }.popEnd
        (snapshot.read cap).status (snapshot.read cap).reason

/-- One step on a ring at `base`. -/
def step (sizeMax base : Nat) (l : Link) : LinkAct → Link
  | .push h payload =>
    match l.producer with
    | .idle =>
      if !l.ring.valid sizeMax base then l.pushEnd .invalid
      else if SHZ_MSG_MAX_INLINE < h.payloadLength.toNat then l.pushEnd .range
      else match payload with
        | some bytes => { l with producer := .head h bytes }
        | none =>
          if h.payloadLength ≠ 0 then l.pushEnd .range
          else { l with producer := .head h fun _ => 0 }
    | _ => l
  | .pop cap =>
    match l.consumer with
    | .idle =>
      if !l.ring.valid sizeMax base then l.popEnd .invalid .none
      else { l with consumer := .tail cap }
    | _ => l
  | .producer => l.produce
  | .consumer => l.consume
  | .forge head slots => { l with ring := { l.ring with head := head, slots := slots } }

end Link

end Win98Modern.Shz
