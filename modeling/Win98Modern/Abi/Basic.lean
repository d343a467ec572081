import Mathlib.Tactic.Common

/-!
# The inter-kernel ABI

Constants, status codes and the message header of `shz_abi.h`.
-/

namespace Win98Modern.Shz

def SHZ_ABI_MAJOR : BitVec 16 := 1
def SHZ_ABI_MINOR : BitVec 16 := 1
def SHZ_MSG_MAGIC : BitVec 32 := 0x43505a53
def SHZ_MSG_SLOT_SIZE : Nat := 256
def SHZ_MSG_MAX_INLINE : Nat := SHZ_MSG_SLOT_SIZE - 64
def SHZ_RING_MAGIC : BitVec 32 := 0x474e4952

/-- `sizeof(shz_msg_hdr_t)`. -/
def hdrSize : Nat := 64

/-- The codes of `enum shz_status` that the library returns. -/
inductive Status
  | ok | invalid | range | noent | queueFull | stale | cancelled | proto | denied
  deriving DecidableEq, Repr

/-- `shz_msg_hdr_t`. -/
structure MsgHdr where
  magic : BitVec 32
  abiMajor : BitVec 16
  abiMinor : BitVec 16
  headerSize : BitVec 16
  flags : BitVec 16
  messageSize : BitVec 32
  opcode : BitVec 32
  srcDomain : BitVec 16
  dstDomain : BitVec 16
  requestId : BitVec 64
  generation : BitVec 32
  status : BitVec 32
  payloadOffset : BitVec 16
  payloadLength : BitVec 16
  bufferLength : BitVec 32
  bufferOffset : BitVec 64
  capabilityId : BitVec 32
  checksum : BitVec 32
  deriving DecidableEq, Repr

/-- A header of zero bytes. -/
def MsgHdr.zero : MsgHdr := ⟨0, 0, 0, 0, 0, 0, 0, 0, 0, 0, 0, 0, 0, 0, 0, 0, 0, 0⟩

def rangeOk (offset length limit : Nat) : Bool := offset ≤ limit && length ≤ limit - offset

theorem rangeOk_iff {offset length limit : Nat} :
    rangeOk offset length limit ↔ offset + length ≤ limit := by
  unfold rangeOk
  grind

end Win98Modern.Shz
