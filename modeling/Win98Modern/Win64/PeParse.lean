import Win98Modern.Lib.Reading
import Mathlib.Algebra.Group.Nat.Defs

/-!
# Images: pe_parse.c

`peParse` validates an image as `pe_parse` does and returns what it read of the headers; `getSection`
reads the section table and `rvaToOffset` finds the bytes of the file behind an address of the image.
Offsets into the file are `uint64_t` and never wrap; where the source computes in `uint32_t` the model
reduces modulo 2^32.
-/

namespace Win98Modern.Pe

open Reading

abbrev PE_E_TRUNCATED : Int := -1
abbrev PE_E_DOS : Int := -2
abbrev PE_E_NT_SIG : Int := -3
abbrev PE_E_MACHINE : Int := -4
abbrev PE_E_MAGIC : Int := -5
abbrev PE_E_OPT_SIZE : Int := -6
abbrev PE_E_ALIGN : Int := -7
abbrev PE_E_SECTIONS : Int := -8
abbrev PE_E_SECTION_RANGE : Int := -9
abbrev PE_E_OVERLAP : Int := -10
abbrev PE_E_IMAGE_SIZE : Int := -11
abbrev PE_E_HEADERS : Int := -12
abbrev PE_E_DIR : Int := -13
abbrev PE_E_RVA : Int := -14
abbrev PE_E_IMPORT : Int := -15
abbrev PE_E_RELOC : Int := -16
abbrev PE_E_EXPORT : Int := -17
abbrev PE_E_ENTRY : Int := -18
abbrev PE_E_NOT_FOUND : Int := -20
abbrev PE_E_FORWARD : Int := -21
abbrev PE_E_STRING : Int := -22
abbrev PE_E_CLR : Int := -23
abbrev PE_E_LOADCFG : Int := -25
abbrev PE_E_DELAY : Int := -26

def maxSections : Nat := 96

abbrev Result := Reading Int

def u32 (n : Nat) : Nat := n % 2 ^ 32

/-- `[off, off + len)` ends at or below `limit`. -/
def inRange (off len limit : Nat) : Prop := off ≤ limit ∧ len ≤ limit - off

instance (off len limit : Nat) : Decidable (inRange off len limit) := inferInstanceAs (Decidable (_ ∧ _))

def pow2 (v : Nat) : Prop := v ≠ 0 ∧ v &&& (v - 1) = 0

instance (v : Nat) : Decidable (pow2 v) := inferInstanceAs (Decidable (_ ∧ _))

/-- `v` rounded up to a multiple of `a`; for the powers of two it is used with, the mask of the source. -/
def alignUp (v a : Nat) : Nat := u32 ((v + a - 1) / a * a)

structure Section where
  name : List UInt8
  vsize : Nat
  rva : Nat
  rawSize : Nat
  rawOff : Nat
  characteristics : Nat

/-- `pe_info_t`. -/
structure Info where
  imageBase : Nat
  stackReserve : Nat
  stackCommit : Nat
  heapReserve : Nat
  heapCommit : Nat
  sizeOfImage : Nat
  sizeOfHeaders : Nat
  sectionAlignment : Nat
  fileAlignment : Nat
  entryRva : Nat
  checksum : Nat
  characteristics : Nat
  dllCharacteristics : Nat
  subsystem : Nat
  nsections : Nat
  majorOs : Nat
  minorOs : Nat
  dirs : List (Nat × Nat)
  ntOffset : Nat
  sectionTableOffset : Nat
  lowAlignment : Bool
  deriving DecidableEq

namespace Info

/-- `dir_rva[i]` and `dir_size[i]`: zero for a directory that the headers leave out. -/
def dirRva (o : Info) (i : Nat) : Nat := (o.dirs.getD i (0, 0)).1

def dirSize (o : Info) (i : Nat) : Nat := (o.dirs.getD i (0, 0)).2

end Info

/-- The entry of the section table at `p`. -/
def sectionEntry (f : Bytes) (p : Nat) : Section where
  name := (List.range 8).map fun k => f.byte (p + k)
  vsize := f.le (p + 8) 4
  rva := f.le (p + 12) 4
  rawSize := f.le (p + 16) 4
  rawOff := f.le (p + 20) 4
  characteristics := f.le (p + 36) 4

def getSection (f : Bytes) (o : Info) (index : Nat) : Result Section := do
  refuse (o.nsections ≤ index) PE_E_SECTIONS
  let p := o.sectionTableOffset + index * 40
  if p + 40 ≤ f.size then .ok (sectionEntry f p) else .error .outside

/-! ### pe_parse -/

/-- The data directories the optional header at `opt` holds. -/
def readDirs (f : Bytes) (opt : Nat) (nrva : Nat) : Result (List (Nat × Nat)) :=
  (List.range nrva).mapM fun i => do
    let rva ← f.rd 4 (opt + 112 + i * 8)
    let size ← f.rd 4 (opt + 116 + i * 8)
    pure (rva, size)

/-- The optional header at `opt`, of `optSize` bytes, and where the section table behind it begins. -/
def readOptional (f : Bytes) (nt nsec characteristics optSize : Nat) : Result (Info × Nat) := do
  let opt := nt + 24
  refuse (optSize < 112 ∨ ¬inRange opt optSize f.size) PE_E_OPT_SIZE
  let magic ← f.rd 2 opt
  refuse (magic ≠ 0x20b) PE_E_MAGIC
  let entryRva ← f.rd 4 (opt + 16)
  let imageBase ← f.rd 8 (opt + 24)
  let sectionAlignment ← f.rd 4 (opt + 32)
  let fileAlignment ← f.rd 4 (opt + 36)
  let majorOs ← f.rd 2 (opt + 40)
  let minorOs ← f.rd 2 (opt + 42)
  let sizeOfImage ← f.rd 4 (opt + 56)
  let sizeOfHeaders ← f.rd 4 (opt + 60)
  let checksum ← f.rd 4 (opt + 64)
  let subsystem ← f.rd 2 (opt + 68)
  let dllCharacteristics ← f.rd 2 (opt + 70)
  let stackReserve ← f.rd 8 (opt + 72)
  let stackCommit ← f.rd 8 (opt + 80)
  let heapReserve ← f.rd 8 (opt + 88)
  let heapCommit ← f.rd 8 (opt + 96)
  let count ← f.rd 4 (opt + 108)
  let nrva := min count 16
  refuse (optSize < 112 + nrva * 8) PE_E_OPT_SIZE
  let dirs ← readDirs f opt nrva
  let sec := opt + optSize
  pure ({ imageBase, stackReserve, stackCommit, heapReserve, heapCommit, sizeOfImage, sizeOfHeaders,
          sectionAlignment, fileAlignment, entryRva, checksum, characteristics, dllCharacteristics, subsystem,
          nsections := nsec, majorOs, minorOs, dirs, ntOffset := u32 nt, sectionTableOffset := u32 sec,
          lowAlignment := decide (sectionAlignment < 4096) }, sec)

def checkSizes (f : Bytes) (o : Info) (sec : Nat) : Result Unit := do
  refuse (¬pow2 o.sectionAlignment ∨ ¬pow2 o.fileAlignment ∨ o.fileAlignment < 512 ∨ 65536 < o.fileAlignment ∨
    o.sectionAlignment < o.fileAlignment) PE_E_ALIGN
  refuse (o.sectionAlignment < 4096 ∧ o.sectionAlignment ≠ o.fileAlignment) PE_E_ALIGN
  refuse (o.imageBase % 65536 ≠ 0) PE_E_ALIGN
  refuse (2 ^ 47 ≤ o.imageBase ∨ 2 ^ 47 < o.imageBase + o.sizeOfImage) PE_E_ALIGN
  refuse (¬inRange sec (o.nsections * 40) f.size) PE_E_SECTIONS
  let hdrEnd := u32 (sec + o.nsections * 40)
  refuse (o.sizeOfHeaders < hdrEnd ∨ f.size < o.sizeOfHeaders ∨ o.sizeOfImage < o.sizeOfHeaders ∨
    o.sizeOfImage = 0) PE_E_HEADERS
  refuse (o.sizeOfImage % o.sectionAlignment ≠ 0) PE_E_IMAGE_SIZE
  refuse (2 ^ 30 < o.sizeOfImage) PE_E_IMAGE_SIZE

/-- What the overlap check reserves for a section: its virtual size, or one unit of the alignment. -/
def reserved (o : Info) (s : Section) : Nat :=
  if s.vsize ≠ 0 then alignUp s.vsize o.sectionAlignment else o.sectionAlignment

/-- The checks of the `i`-th section, against the file, the image and the sections before it. -/
def checkSection (f : Bytes) (o : Info) (i : Nat) : Result Unit := do
  let s ← getSection f o i
  refuse (s.rva % o.sectionAlignment ≠ 0 ∨ s.rva < alignUp o.sizeOfHeaders o.sectionAlignment) PE_E_SECTION_RANGE
  refuse (¬inRange s.rva (if s.vsize ≠ 0 then s.vsize else 1) o.sizeOfImage) PE_E_SECTION_RANGE
  refuse (s.rawSize ≠ 0 ∧ s.rawOff % o.fileAlignment ≠ 0 ∧ s.rawOff % 512 ≠ 0) PE_E_SECTION_RANGE
  refuse (s.rawSize ≠ 0 ∧ ¬inRange s.rawOff s.rawSize f.size) PE_E_SECTION_RANGE
  refuse (s.rawSize ≠ 0 ∧ s.rawOff < o.sizeOfHeaders) PE_E_SECTION_RANGE
  refuse (s.rawSize ≠ 0 ∧ o.lowAlignment = true ∧ s.rawOff ≠ s.rva) PE_E_SECTION_RANGE
  (List.range i).forM fun j => do
    let t ← getSection f o j
    refuse (s.rva < t.rva + reserved o t ∧ t.rva < s.rva + reserved o s) PE_E_OVERLAP

/-- The checks of the data directories, but the fourth, which holds an offset into the file. -/
def checkDirs (o : Info) : Result Unit :=
  (List.range 16).forM fun i =>
    refuse ((o.dirRva i ≠ 0 ∨ o.dirSize i ≠ 0) ∧ i ≠ 4 ∧ ¬inRange (o.dirRva i) (o.dirSize i) o.sizeOfImage) PE_E_DIR

def peParse (f : Bytes) : Result Info := do
  refuse (f.size < 64) PE_E_TRUNCATED
  let m ← f.rd8 0
  let z ← f.rd8 1
  refuse (m ≠ 0x4d ∨ z ≠ 0x5a) PE_E_DOS
  let nt ← f.rd 4 0x3c
  refuse (nt < 64 ∨ ¬inRange nt 24 f.size) PE_E_TRUNCATED
  let sig ← f.rd 4 nt
  refuse (sig ≠ 0x00004550) PE_E_NT_SIG
  let machine ← f.rd 2 (nt + 4)
  refuse (machine ≠ 0x8664) PE_E_MACHINE
  let nsec ← f.rd 2 (nt + 6)
  let optSize ← f.rd 2 (nt + 20)
  let characteristics ← f.rd 2 (nt + 22)
  refuse (nsec = 0 ∨ maxSections < nsec) PE_E_SECTIONS
  refuse (characteristics &&& 0x0002 = 0) PE_E_HEADERS
  let (o, sec) ← readOptional f nt nsec characteristics optSize
  checkSizes f o sec
  (List.range o.nsections).forM (checkSection f o)
  checkDirs o
  refuse (o.dirRva 14 ≠ 0) PE_E_CLR
  refuse (o.entryRva ≠ 0 ∧ o.sizeOfImage ≤ o.entryRva) PE_E_ENTRY
  pure o

/-! ### Addresses and strings -/

/-- Bytes of the file: where they begin and how many there are. -/
structure Span where
  off : Nat
  avail : Nat

/-- The bytes of a section that the file has and the image uses. -/
def backed (s : Section) : Nat := min s.rawSize (if s.vsize ≠ 0 then s.vsize else s.rawSize)

/-- The bytes at an address that the sections from `i` on back; `n` are left to look at. -/
def findBacked (f : Bytes) (o : Info) (rva : Nat) : Nat → Nat → Result Span
  | 0, _ => .error (.code PE_E_RVA)
  | n + 1, i => do
    let s ← getSection f o i
    if s.rva ≤ rva ∧ rva - s.rva < backed s then do
      let off := s.rawOff + (rva - s.rva)
      refuse (f.size ≤ off) PE_E_RVA
      pure ⟨off, min (backed s - (rva - s.rva)) (f.size - off)⟩
    else findBacked f o rva n (i + 1)

def rvaToOffset (f : Bytes) (o : Info) (rva : Nat) : Result Span :=
  if rva < o.sizeOfHeaders then .ok ⟨rva, o.sizeOfHeaders - rva⟩ else findBacked f o rva o.nsections 0

/-- The printable text at `p` that ends with a zero within `n` bytes. -/
def text (f : Bytes) (p : Nat) : Nat → Result (List UInt8)
  | 0 => .error (.code PE_E_STRING)
  | n + 1 => do
    let ch ← f.rd8 p
    if ch = 0 then pure []
    else do
      refuse (ch < 0x20 ∨ 0x7e < ch) PE_E_STRING
      let rest ← text f (p + 1) n
      pure (ch :: rest)

/-- `pe_read_string`, into a buffer of `cap` bytes. -/
def readString (f : Bytes) (o : Info) (rva cap : Nat) : Result (List UInt8) := do
  let sp ← recode PE_E_STRING (rvaToOffset f o rva)
  text f sp.off (min sp.avail (cap - 1))

/-- `pe_symbol_view` (and `pe_string_at`): the offset of the text at `rva`. -/
def symbolView (f : Bytes) (o : Info) (rva : Nat) : Result Nat := do
  let sp ← recode PE_E_STRING (rvaToOffset f o rva)
  let _ ← text f sp.off sp.avail
  pure sp.off

end Win98Modern.Pe
