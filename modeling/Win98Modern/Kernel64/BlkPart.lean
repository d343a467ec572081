import Mathlib.Algebra.Group.Nat.Defs
import Mathlib.Data.List.Basic

/-!
# The partition scanner

blk_part.c: GPT with its backup, and the MBR with the chain of an extended partition.  A sector is a
function of the offset; a read that fails gives nothing.
-/

namespace Win98Modern.BlkPart

abbrev Byte := UInt8
abbrev Sector := Nat → Byte

structure Disk where
  sectorSize : Nat
  sectors : Nat
  read : Nat → Option Sector

inductive Scheme
  | none
  | mbr
  | gpt
  deriving DecidableEq, Repr

def PARTF_BOOTABLE : Nat := 1
def PARTF_LOGICAL : Nat := 2
def PARTF_FROM_BACKUP_GPT : Nat := 4

/-- `blk_part_t`. -/
structure Part where
  start : Nat
  sectors : Nat
  index : Nat
  scheme : Scheme
  mbrType : Byte
  flags : Nat
  typeGuid : List Byte
  partGuid : List Byte
  name : List Byte
  deriving DecidableEq, Repr

/-- `memset(&p, 0, sizeof p)`. -/
def Part.zero : Part := ⟨0, 0, 0, .none, 0, 0, List.replicate 16 0, List.replicate 16 0, []⟩

def PSCAN_MBR_VALID : Nat := 0x1
def PSCAN_PROTECTIVE_MBR : Nat := 0x2
def PSCAN_GPT_PRIMARY_OK : Nat := 0x4
def PSCAN_GPT_PRIMARY_BAD : Nat := 0x8
def PSCAN_GPT_BACKUP_OK : Nat := 0x10
def PSCAN_GPT_BACKUP_BAD : Nat := 0x20
def PSCAN_GPT_USED_BACKUP : Nat := 0x40
def PSCAN_GPT_ENTRIES_CRC_BAD : Nat := 0x80
def PSCAN_EBR_CHAIN : Nat := 0x100
def PSCAN_OUT_OF_RANGE : Nat := 0x200
def PSCAN_HYBRID_MBR : Nat := 0x400
def PSCAN_READ_ERROR : Nat := 0x800
def PSCAN_TRUNCATED : Nat := 0x1000
def PSCAN_EBR_LOOP : Nat := 0x2000

/-! ### The checksum -/

def crcBit (c : Nat) : Nat := if c % 2 = 1 then 0xedb88320 ^^^ c / 2 else c / 2

/-- `crc_table[i]`. -/
def crcTable (i : Nat) : Nat := Nat.repeat crcBit 8 i

def crcByte (crc : Nat) (b : Byte) : Nat := crcTable ((crc ^^^ b.toNat) % 256) ^^^ crc / 256

/-- `blk_crc32`; the complement is that of 32 bits. -/
def blkCrc32 (crc : Nat) (data : List Byte) : Nat :=
  data.foldl crcByte (crc ^^^ 0xffffffff) ^^^ 0xffffffff

/-! ### Fields -/

def rd16 (p : Sector) (i : Nat) : Nat := (p i).toNat + (p (i + 1)).toNat * 2 ^ 8
def rd32 (p : Sector) (i : Nat) : Nat := rd16 p i + rd16 p (i + 2) * 2 ^ 16
def rd64 (p : Sector) (i : Nat) : Nat := rd32 p i + rd32 p (i + 4) * 2 ^ 32

def bytes (p : Sector) (i n : Nat) : List Byte := (List.range n).map fun j => p (i + j)

/-! ### Adding a partition -/

/-- `scan_t`: what has been found; `s->n` is the length. -/
structure Scan where
  out : List Part
  notes : Nat
  deriving DecidableEq, Repr

def Scan.note (s : Scan) (bit : Nat) : Scan := { s with notes := s.notes ||| bit }

/-- `add`; false stands for -1. -/
def add (d : Disk) (max : Nat) (s : Scan) (p : Part) : Scan × Bool :=
  if d.sectors ≤ p.start ∨ p.sectors = 0 ∨ d.sectors - p.start < p.sectors then (s.note PSCAN_OUT_OF_RANGE, true)
  else if max ≤ s.out.length then (s.note PSCAN_TRUNCATED, false)
  else ({ s with out := s.out ++ [{ p with index := s.out.length + 1 }] }, true)

/-! ### GPT -/

structure GptHdr where
  headerSize : Nat
  headerCrc : Nat
  entriesCrc : Nat
  numEntries : Nat
  entrySize : Nat
  myLba : Nat
  altLba : Nat
  firstUsable : Nat
  lastUsable : Nat
  entriesLba : Nat
  deriving DecidableEq, Repr

def hdrOf (b : Sector) : GptHdr where
  headerSize := rd32 b 12
  headerCrc := rd32 b 16
  entriesCrc := rd32 b 88
  numEntries := rd32 b 80
  entrySize := rd32 b 84
  myLba := rd64 b 24
  altLba := rd64 b 32
  firstUsable := rd64 b 40
  lastUsable := rd64 b 48
  entriesLba := rd64 b 72

/-- The header's bytes with its own checksum zeroed. -/
def blanked (b : Sector) : Sector := fun i => if 16 ≤ i ∧ i < 20 then 0 else b i

def GptHdr.bytes (h : GptHdr) : Nat := h.numEntries * h.entrySize

/-- The sectors of the entry array. -/
def GptHdr.nsec (h : GptHdr) (d : Disk) : Nat := (h.bytes + d.sectorSize - 1) / d.sectorSize

/-- "EFI PART". -/
def signature : List Byte := [0x45, 0x46, 0x49, 0x20, 0x50, 0x41, 0x52, 0x54]

def gptHeader (d : Disk) (s : Scan) (lba : Nat) : Scan × Option GptHdr :=
  if d.sectors ≤ lba then (s, none)
  else
    match d.read lba with
    | none => (s.note PSCAN_READ_ERROR, none)
    | some b =>
      let h := hdrOf b
      if bytes b 0 8 ≠ signature then (s, none)
      else if rd32 b 8 ≠ 0x00010000 then (s, none)
      else if h.headerSize < 92 ∨ d.sectorSize < h.headerSize then (s, none)
      else if blkCrc32 0 (bytes (blanked b) 0 h.headerSize) ≠ h.headerCrc then (s, none)
      else if h.myLba ≠ lba then (s, none)
      else if h.entrySize < 128 ∨ h.entrySize % 8 ≠ 0 ∨ d.sectorSize < h.entrySize then (s, none)
      else if h.numEntries = 0 ∨ 4096 < h.numEntries then (s, none)
      else if h.entriesLba = 0 ∨ d.sectors ≤ h.entriesLba ∨ d.sectors - h.entriesLba < h.nsec d then (s, none)
      else if h.entriesLba ≤ lba ∧ lba < h.entriesLba + h.nsec d then (s, none)
      else if h.lastUsable < h.firstUsable ∨ d.sectors ≤ h.lastUsable then (s, none)
      else (s, some h)

def foldName (p : Sector) (i : Nat) : List Byte :=
  (((List.range 36).map fun j => rd16 p (i + 2 * j)).takeWhile (· ≠ 0)).map fun c =>
    if 0x20 ≤ c ∧ c < 0x7f then UInt8.ofNat c else 0x3f

/-- The partition of an entry at an offset; nothing where the type is zero. -/
def entryAt (flags : Nat) (p : Sector) (i : Nat) : Option Part :=
  if bytes p i 16 = List.replicate 16 0 then none
  else
    some { Part.zero with
      typeGuid := bytes p i 16
      partGuid := bytes p (i + 16) 16
      start := rd64 p (i + 32)
      sectors := if rd64 p (i + 32) ≤ rd64 p (i + 40) then (rd64 p (i + 40) - rd64 p (i + 32) + 1) % 2 ^ 64 else 0
      scheme := .gpt
      flags := flags
      name := foldName p (i + 56) }

/-- The turn of the inner loop for an entry; the flag says that the table is full. -/
def addEntry (d : Disk) (max : Nat) (acc : Scan × Bool) : Option Part → Scan × Bool
  | none => acc
  | some p =>
    if acc.2 then acc
    else
      let r := add d max acc.1 p
      (r.1, !r.2)

def sectorEntries (d : Disk) (h : GptHdr) (flags done : Nat) (buf : Sector) : List (Option Part) :=
  ((List.range (d.sectorSize / h.entrySize)).takeWhile fun e => done + e * h.entrySize < h.bytes).map
    fun e => entryAt flags buf (e * h.entrySize)

/-- The loop over the sectors of the array: nothing after a read error, else the checksum. -/
def entriesLoop (d : Disk) (max : Nat) (h : GptHdr) (flags : Nat) :
    Nat → Scan × Bool → Nat → Nat → Nat → Scan × Option Nat
  | 0, acc, _, _, crc => (acc.1, some crc)
  | fuel + 1, acc, done, lba, crc =>
    if done < h.bytes then
      let chunk := min (h.bytes - done) d.sectorSize
      match d.read lba with
      | none => (acc.1.note PSCAN_READ_ERROR, none)
      | some buf =>
        entriesLoop d max h flags fuel ((sectorEntries d h flags done buf).foldl (addEntry d max) acc) (done + chunk)
          (lba + 1) (blkCrc32 crc (bytes buf 0 chunk))
    else (acc.1, some crc)

/-- `gpt_entries`; false stands for -1, and what was stored is discarded then. -/
def gptEntries (d : Disk) (max : Nat) (s : Scan) (h : GptHdr) (flags : Nat) : Scan × Bool :=
  let first := s.out.length
  match entriesLoop d max h flags (h.nsec d) (s, false) 0 h.entriesLba 0 with
  | (s, none) => ({ s with out := s.out.take first }, false)
  | (s, some crc) =>
    if crc ≠ h.entriesCrc then ({ s.note PSCAN_GPT_ENTRIES_CRC_BAD with out := s.out.take first }, false)
    else (s, true)

/-- The second half of `scan_gpt`. -/
def scanBackup (d : Disk) (max : Nat) (s : Scan) : Scan × Bool :=
  match gptHeader d s (d.sectors - 1) with
  | (s, some h) =>
    match gptEntries d max (s.note PSCAN_GPT_BACKUP_OK) h PARTF_FROM_BACKUP_GPT with
    | (s, true) => (s.note PSCAN_GPT_USED_BACKUP, true)
    | (s, false) => (s, false)
  | (s, none) => (s.note PSCAN_GPT_BACKUP_BAD, false)

def scanGpt (d : Disk) (max : Nat) (s : Scan) : Scan × Bool :=
  match gptHeader d s 1 with
  | (s, some h) =>
    match gptEntries d max (s.note PSCAN_GPT_PRIMARY_OK) h 0 with
    | (s, true) => (s, true)
    | (s, false) => scanBackup d max s
  | (s, none) => scanBackup d max (s.note PSCAN_GPT_PRIMARY_BAD)

/-! ### MBR -/

def isExtended (t : Byte) : Bool := t == 0x05 || t == 0x0f || t == 0x85

def bootable (p : Sector) (i : Nat) : Nat := if 0x80 ≤ (p i).toNat then PARTF_BOOTABLE else 0

/-- The logical partition of an EBR at `ebr`. -/
def logicalAt (p : Sector) (ebr : Nat) : Part :=
  { Part.zero with
    start := ebr + rd32 p (446 + 8)
    sectors := rd32 p (446 + 12)
    scheme := .mbr
    mbrType := p (446 + 4)
    flags := PARTF_LOGICAL ||| bootable p 446 }

/-- What `scan_ebr` does with the first entry of an EBR; false where it returns. -/
def addLogical (d : Disk) (max : Nat) (s : Scan) (extStart extSectors ebr : Nat) (p : Sector) : Scan × Bool :=
  if p (446 + 4) ≠ 0 ∧ ¬isExtended (p (446 + 4)) ∧ rd32 p (446 + 12) ≠ 0 then
    let q := logicalAt p ebr
    if q.start < extStart ∨ extSectors ≤ q.start - extStart then (s.note PSCAN_OUT_OF_RANGE, true)
    else add d max s q
  else (s, true)

/-- The loop of `scan_ebr`, with room for `fuel` more sectors in `seen`. -/
def ebrLoop (d : Disk) (max extStart extSectors : Nat) : Nat → Scan → List Nat → Nat → Scan
  | 0, s, _, _ => s.note PSCAN_EBR_LOOP
  | fuel + 1, s, seen, ebr =>
    if ebr ∈ seen then s.note PSCAN_EBR_LOOP
    else if d.sectors ≤ ebr then s.note PSCAN_OUT_OF_RANGE
    else
      match d.read ebr with
      | none => s.note PSCAN_READ_ERROR
      | some p =>
        if rd16 p 510 ≠ 0xaa55 then s
        else
          match addLogical d max s extStart extSectors ebr p with
          | (s, false) => s
          | (s, true) =>
            if ¬isExtended (p (462 + 4)) ∨ rd32 p (462 + 12) = 0 then s
            else ebrLoop d max extStart extSectors fuel s (ebr :: seen) (extStart + rd32 p (462 + 8))

def scanEbr (d : Disk) (max : Nat) (s : Scan) (extStart extSectors : Nat) : Scan :=
  ebrLoop d max extStart extSectors 32 (s.note PSCAN_EBR_CHAIN) [] extStart

def primaryAt (m : Sector) (i : Nat) : Part :=
  { Part.zero with
    start := rd32 m (i + 8)
    sectors := rd32 m (i + 12)
    scheme := .mbr
    mbrType := m (i + 4)
    flags := bootable m i }

/-- The loop of `scan_mbr` over the entries at these offsets, with the extended partition found so far;
nothing where the table is full. -/
def mbrLoop (d : Disk) (max : Nat) (m : Sector) : List Nat → Scan → Nat × Nat → Scan × Option (Nat × Nat)
  | [], s, ext => (s, some ext)
  | i :: rest, s, ext =>
    if m (i + 4) = 0 ∨ rd32 m (i + 12) = 0 then mbrLoop d max m rest s ext
    else if isExtended (m (i + 4)) then
      mbrLoop d max m rest s (if ext.2 = 0 then (rd32 m (i + 8), rd32 m (i + 12)) else ext)
    else
      match add d max s (primaryAt m i) with
      | (s, false) => (s, none)
      | (s, true) => mbrLoop d max m rest s ext

/-- The offsets of the four entries. -/
def mbrOffsets : List Nat := [446, 462, 478, 494]

def scanMbr (d : Disk) (max : Nat) (s : Scan) (m : Sector) : Scan :=
  match mbrLoop d max m mbrOffsets s (0, 0) with
  | (s, none) => s
  | (s, some (extStart, extSectors)) =>
    if extSectors ≠ 0 ∧ extStart < d.sectors then scanEbr d max s extStart extSectors else s

/-! ### The scan -/

/-- `sector_size` is a power of two from 512 on, and there are two sectors. -/
def Disk.Sane (d : Disk) : Prop := 512 ≤ d.sectorSize ∧ d.sectorSize &&& (d.sectorSize - 1) = 0 ∧ 2 ≤ d.sectors

instance (d : Disk) : Decidable d.Sane := inferInstanceAs (Decidable (_ ∧ _))

/-- `blk_part_scan`: the partitions, or nothing where no table could be read, and the notes. -/
def blkPartScan (d : Disk) (max : Nat) : Option (List Part) × Nat :=
  if ¬d.Sane then (none, 0)
  else
    match d.read 0 with
    | none => (none, PSCAN_READ_ERROR)
    | some m =>
      let mbrOk : Bool := rd16 m 510 == 0xaa55
      let types := mbrOffsets.map fun i => m (i + 4)
      let protective := mbrOk && types.any (· == 0xee)
      let other := mbrOk && types.any fun t => t != 0xee && t != 0
      let s : Scan := ⟨[], (if mbrOk then PSCAN_MBR_VALID else 0) ||| (if protective then PSCAN_PROTECTIVE_MBR else 0)⟩
      match scanGpt d max s with
      | (s, true) => (some s.out, if mbrOk && other then s.notes ||| PSCAN_HYBRID_MBR else s.notes)
      | (s, false) =>
        if ¬mbrOk then (none, s.notes)
        else if protective then (some [], s.notes)
        else
          let s := scanMbr d max s m
          (some s.out, s.notes)

end Win98Modern.BlkPart
