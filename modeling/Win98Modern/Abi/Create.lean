import Win98Modern.Abi.GeometryRun

/-!
# CREATE_PROCESS messages

`shz_w64_create_pack` builds the block of three UTF-16 strings and its header, `shz_w64_create_check` validates
the message that brings them, inline or in a buffer of the pool.  Sums and products of lengths are taken modulo
`2 ^ 32`, and the header has 16 bits for a length.
-/

namespace Win98Modern.Shz.Create

open Memory

abbrev SHZ_W64_MAX_ARGS_BYTES : Nat := 4096
abbrev SHZ_W64_MAX_PATH_CHARS : Nat := 260
abbrev SHZ_W64_CF_NONE : Nat := 0
abbrev SHZ_MSGF_BUFFER : Nat := 8

/-- `sizeof(shz_w64_create_t)`. -/
abbrev createSize : Nat := 16

/-- `shz_w64_create_t`. -/
structure Header where
  flags : Nat
  pathChars : Nat
  cmdlineChars : Nat
  cwdChars : Nat
  reserved : Nat
  blockBytes : Nat
  deriving DecidableEq

/-- The header in the first 16 bytes of a payload. -/
def Header.read (m : Memory) : Header := ⟨load 4 m 0, load 2 m 4, load 2 m 6, load 2 m 8, load 2 m 10, load 4 m 12⟩

/-- A UTF-16 string, or a null pointer. -/
abbrev Text := Option (Nat → BitVec 16)

/-- The arguments of `shz_w64_create_pack` but for the header. -/
structure Args where
  path : Text
  pathChars : BitVec 32
  cmdline : Text
  cmdlineChars : BitVec 32
  cwd : Text
  cwdChars : BitVec 32
  /-- What the block holds before the call. -/
  blockOut : Text
  blockCap : BitVec 32

/-- What it leaves: the block, and the return value with the header, none where it is not written. -/
structure Packed where
  block : Nat → BitVec 16
  header : Option Header

/-- The copy of the `k` units of a string from the `i`-th on to the place `n` of the block; none when a NUL stops it. -/
def copy (s : Nat → BitVec 16) : Nat → Nat → Nat → (Nat → BitVec 16) → (Nat → BitVec 16) × Option Nat
  | 0, _, n, out => (out, some n)
  | k + 1, i, n, out =>
    if s i = 0 then (out, none) else copy s k (i + 1) ((n + 1) % 2 ^ 32) (Function.update out n (s i))

/-- The units behind a pointer; a null pointer is not followed. -/
def Text.units (s : Text) : Nat → BitVec 16 := s.getD fun _ => 0

namespace Args

variable (x : Args)

/-- `total`, in 32 bits. -/
def total : Nat := (x.pathChars.toNat + x.cmdlineChars.toNat + x.cwdChars.toNat) % 2 ^ 32

/-- What is refused before anything is copied. -/
def refused : Prop :=
  x.path.isNone ∨ x.pathChars = 0 ∨ SHZ_W64_MAX_PATH_CHARS < x.pathChars.toNat ∨
    SHZ_W64_MAX_PATH_CHARS < x.cwdChars.toNat ∨ (x.cmdlineChars ≠ 0 ∧ x.cmdline.isNone) ∨
      (x.cwdChars ≠ 0 ∧ x.cwd.isNone) ∨ SHZ_W64_MAX_ARGS_BYTES < x.total * 2 % 2 ^ 32 ∨ x.blockOut.isNone ∨
        x.blockCap.toNat < x.total

instance : Decidable x.refused := inferInstanceAs (Decidable (_ ∨ _))

def header : Header :=
  ⟨SHZ_W64_CF_NONE, x.pathChars.toNat % 2 ^ 16, x.cmdlineChars.toNat % 2 ^ 16, x.cwdChars.toNat % 2 ^ 16, 0,
    x.total * 2 % 2 ^ 32⟩

def pack : Packed :=
  if x.refused then ⟨x.blockOut.units, none⟩
  else
    match copy x.path.units x.pathChars.toNat 0 0 x.blockOut.units with
    | (out, none) => ⟨out, none⟩
    | (out, some n) =>
      match copy x.cmdline.units x.cmdlineChars.toNat 0 n out with
      | (out, none) => ⟨out, none⟩
      | (out, some n) =>
        match copy x.cwd.units x.cwdChars.toNat 0 n out with
        | (out, none) => ⟨out, none⟩
        | (out, some _) => ⟨out, some x.header⟩

end Args

namespace Packed

variable (p : Packed)

def ret : Nat := match p.header with
  | none => 0
  | some h => h.blockBytes

/-- `*needs_pool`. -/
def needsPool : Bool := match p.header with
  | none => false
  | some h => decide (SHZ_MSG_MAX_INLINE - createSize < h.blockBytes)

end Packed

/-- What `shz_w64_create_check` gives: the status, and with SHZ_OK the header and where the block is. -/
structure Checked where
  status : Status
  header : Header
  block : Memory × Nat

def unitsOk (m : Memory) (off total : Nat) : Bool := (List.range total).all fun i => load 2 m (off + 2 * i) ≠ 0

/-- `shz_w64_create_check`; `region` is the channel that the pool is in, and `see` what the check of the owner table
reads. -/
def check (m : MsgHdr) (payload : Memory) (region : Option Memory) (see : Nat → BitVec 8) : Checked :=
  let h := Header.read payload
  let total := h.pathChars + h.cmdlineChars + h.cwdChars
  let answer (s : Status) : Checked := ⟨s, h, (payload, createSize)⟩
  if m.payloadLength.toNat < createSize then answer .proto
  else if h.flags ≠ SHZ_W64_CF_NONE ∨ h.reserved ≠ 0 ∨ h.pathChars = 0 ∨ SHZ_W64_MAX_PATH_CHARS < h.pathChars ∨
      SHZ_W64_MAX_PATH_CHARS < h.cwdChars ∨ h.blockBytes ≠ total * 2 then answer .invalid
  else if SHZ_W64_MAX_ARGS_BYTES < h.blockBytes then answer .range
  else if m.flags.toNat / SHZ_MSGF_BUFFER % 2 = 1 then
    match region with
    | none => answer .invalid
    | some r =>
      if m.bufferLength.toNat ≠ h.blockBytes ∨ m.payloadLength.toNat ≠ createSize then answer .invalid
      else if (Region.poolCheck r m.bufferOffset.toNat m.bufferLength.toNat m.srcDomain.toNat see).2 ≠ .ok then
        answer .denied
      else if unitsOk r m.bufferOffset.toNat total then ⟨.ok, h, (r, m.bufferOffset.toNat)⟩
      else answer .invalid
  else if m.bufferLength ≠ 0 ∨ m.payloadLength.toNat ≠ createSize + h.blockBytes then answer .invalid
  else if unitsOk payload createSize total then answer .ok
  else answer .invalid

end Win98Modern.Shz.Create
