import Win98Modern.Libsfs.Basic
import Win98Modern.Lib.Fields
import Mathlib.Algebra.Group.Int.Defs

/-!
# Raw inodes

`sfs_inode.c`: `decode` and `encode`, the timestamps, the checksum and `sfs_add_blocks`; `sfs_crc.c`:
`sfs_crc32c`.  The bytes of an inode are a memory, and what `encode` writes is a list of fields in the order
of the source.  Seconds are integers.
-/

namespace Win98Modern.Libsfs.Raw

/-- What `parse_super` accepts of the parameters that are read here. -/
structure Vol where
  bsBits : Nat
  isize : Nat
  csum : Bool
  csumSeed : UInt32
  hugeFile : Bool
  largedir : Bool
  bsBits_range : 10 ≤ bsBits ∧ bsBits ≤ 12
  isize_range : 128 ≤ isize ∧ isize ≤ 2 ^ bsBits
  isize_pow : ∃ k, isize = 2 ^ k

/-- Seconds and nanoseconds. -/
structure Stamp where
  sec : Int
  ns : UInt32
  deriving DecidableEq

abbrev IN_BLOCK_BYTES : Nat := 60

/-- `sfs_inode`, as far as it is kept on disk. -/
structure Inode where
  ino : UInt32
  mode : UInt16
  links : UInt16
  uid : UInt32
  gid : UInt32
  size : UInt64
  nblocks : UInt64
  flags : UInt32
  generation : UInt32
  fileAcl : UInt64
  dtime : UInt32
  atime : Stamp
  mtime : Stamp
  ctime : Stamp
  crtime : Stamp
  extraIsize : UInt16
  csumSeed : UInt32
  iblock : Vector (BitVec 8) IN_BLOCK_BYTES

abbrev IN_mode : Nat := 0x00
abbrev IN_uid : Nat := 0x02
abbrev IN_size_lo : Nat := 0x04
abbrev IN_atime : Nat := 0x08
abbrev IN_ctime : Nat := 0x0C
abbrev IN_mtime : Nat := 0x10
abbrev IN_dtime : Nat := 0x14
abbrev IN_gid : Nat := 0x18
abbrev IN_links_count : Nat := 0x1A
abbrev IN_blocks_lo : Nat := 0x1C
abbrev IN_flags : Nat := 0x20
abbrev IN_block : Nat := 0x28
abbrev IN_generation : Nat := 0x64
abbrev IN_file_acl_lo : Nat := 0x68
abbrev IN_size_high : Nat := 0x6C
abbrev IN_blocks_high : Nat := 0x74
abbrev IN_file_acl_high : Nat := 0x76
abbrev IN_uid_high : Nat := 0x78
abbrev IN_gid_high : Nat := 0x7A
abbrev IN_checksum_lo : Nat := 0x7C
abbrev IN_extra_isize : Nat := 0x80
abbrev IN_checksum_hi : Nat := 0x82
abbrev IN_ctime_extra : Nat := 0x84
abbrev IN_mtime_extra : Nat := 0x88
abbrev IN_atime_extra : Nat := 0x8C
abbrev IN_crtime : Nat := 0x90
abbrev IN_crtime_extra : Nat := 0x94

def IFL_HUGE_FILE : UInt32 := 0x40000
def SFS_S_IFMT : UInt16 := 0xF000
def SFS_S_IFREG : UInt16 := 0x8000

def rd16 (raw : Memory) (off : Nat) : Nat := raw.load 2 off
def rd32 (raw : Memory) (off : Nat) : Nat := raw.load 4 off
def wr16 (off v : Nat) : Field := .num off 2 v
def wr32 (off v : Nat) : Field := .num off 4 v

/-- The `n` bytes at `a`. -/
def bytes (raw : Memory) (a n : Nat) : List (BitVec 8) := (List.range n).map fun i => raw (a + i)

/-! ### The checksum -/

def crc32cBit (c : UInt32) : UInt32 := if c &&& 1 ≠ 0 then (c >>> 1) ^^^ 0x82F63B78 else c >>> 1

/-- `crc32c_table[i]`. -/
def crc32cTable (i : UInt32) : UInt32 := Nat.repeat crc32cBit 8 i

def sfsCrc32c (crc : UInt32) (data : List (BitVec 8)) : UInt32 :=
  data.foldl (fun crc b => crc32cTable ((crc ^^^ UInt32.ofNat b.toNat) &&& 0xFF) ^^^ (crc >>> 8)) crc

/-- The four bytes that `wr32` writes. -/
def le32 (v : UInt32) : List (BitVec 8) := (List.range 4).map (wr32 0 v.toNat).byte

def sfsInodeSeed (fs : Vol) (ino gen : UInt32) : UInt32 := sfsCrc32c (sfsCrc32c fs.csumSeed (le32 ino)) (le32 gen)

/-- `inode_csum`, with `has_hi`. -/
def inodeCsum (fs : Vol) (ino : UInt32) (raw : Memory) : UInt32 × Bool :=
  let c := sfsInodeSeed fs ino (UInt32.ofNat (rd32 raw IN_generation))
  let c := sfsCrc32c c (bytes raw 0 IN_checksum_lo)
  let c := sfsCrc32c c [0, 0]
  let c := sfsCrc32c c (bytes raw (IN_checksum_lo + 2) (128 - IN_checksum_lo - 2))
  if 128 < fs.isize then
    let extra := rd16 raw IN_extra_isize
    let c := sfsCrc32c c (bytes raw 128 (IN_checksum_hi - 128))
    if IN_checksum_hi + 2 ≤ 128 + extra then
      let c := sfsCrc32c c [0, 0]
      (sfsCrc32c c (bytes raw (IN_checksum_hi + 2) (fs.isize - IN_checksum_hi - 2)), true)
    else (sfsCrc32c c (bytes raw IN_checksum_hi (fs.isize - IN_checksum_hi)), false)
  else (c, false)

def sfsInodeCsumOk (fs : Vol) (ino : UInt32) (raw : Memory) : Bool :=
  if fs.csum then
    let r := inodeCsum fs ino raw
    let c := if r.2 then r.1.toNat else r.1.toNat &&& 0xFFFF
    let stored := rd16 raw IN_checksum_lo
    let stored := if r.2 then stored ||| rd16 raw IN_checksum_hi <<< 16 else stored
    -- an inode of zeros was never used
    c == stored || (bytes raw 0 fs.isize).all (· == 0)
  else true

/-- What `sfs_inode_csum_set` writes. -/
def csumFields (fs : Vol) (ino : UInt32) (raw : Memory) : List Field :=
  if fs.csum then
    let r := inodeCsum fs ino raw
    wr16 IN_checksum_lo r.1.toNat :: if r.2 then [wr16 IN_checksum_hi (r.1.toNat >>> 16)] else []
  else []

def sfsInodeCsumSet (fs : Vol) (ino : UInt32) (raw : Memory) : Memory := raw.writeAll (csumFields fs ino raw)

/-! ### Timestamps -/

/-- `(int32_t)v` and `(uint32_t)x`. -/
def int32 (v : Nat) : Int := if v % 2 ^ 32 < 2 ^ 31 then (v % 2 ^ 32 : Nat) else (v % 2 ^ 32 : Nat) - 2 ^ 32
def uint32 (x : Int) : Nat := (x % 2 ^ 32).toNat

/-- `fits`, by `extra_isize`. -/
def Fits (extra : UInt16) (off size : Nat) : Prop := off + size ≤ 128 + extra.toNat

instance (extra : UInt16) (off size : Nat) : Decidable (Fits extra off size) := inferInstanceAs (Decidable (_ ≤ _))

def timeDecode (raw : Memory) (extra : UInt16) (off xoff : Nat) : Stamp :=
  let sec := int32 (rd32 raw off)
  if xoff ≠ 0 ∧ Fits extra xoff 4 then
    let x := rd32 raw xoff
    ⟨sec + ((x &&& 3) <<< 32 : Nat), if 999999999 < x >>> 2 then 0 else UInt32.ofNat (x >>> 2)⟩
  else ⟨sec, 0⟩

def epochOf (sec : Int) : Nat := ((sec - int32 (uint32 sec)) / 2 ^ 32 % 4).toNat

def timeEncode (extra : UInt16) (off xoff : Nat) (t : Stamp) : List Field :=
  wr32 off (uint32 t.sec) ::
    if xoff ≠ 0 ∧ Fits extra xoff 4 then [wr32 xoff (epochOf t.sec ||| t.ns.toNat <<< 2)] else []

/-! ### Decoding -/

def decodeBlocks (fs : Vol) (flags : UInt32) (raw : Memory) : UInt64 :=
  let blocks := rd32 raw IN_blocks_lo
  if fs.hugeFile then
    let blocks := blocks ||| rd16 raw IN_blocks_high <<< 32
    if flags &&& IFL_HUGE_FILE ≠ 0 then UInt64.ofNat blocks else UInt64.ofNat (blocks >>> (fs.bsBits - 9))
  else UInt64.ofNat (blocks >>> (fs.bsBits - 9))

/-- The size has its high half in a regular file, or where directories may have one. -/
def WideSize (fs : Vol) (mode : UInt16) : Prop := mode &&& SFS_S_IFMT = SFS_S_IFREG ∨ fs.largedir = true

instance (fs : Vol) (mode : UInt16) : Decidable (WideSize fs mode) := inferInstanceAs (Decidable (_ ∨ _))

def decode (fs : Vol) (ino : UInt32) (raw : Memory) : Except Err Inode :=
  let mode := UInt16.ofNat (rd16 raw IN_mode)
  let size := rd32 raw IN_size_lo
  let flags := UInt32.ofNat (rd32 raw IN_flags)
  let generation := UInt32.ofNat (rd32 raw IN_generation)
  let extra := if 128 < fs.isize then UInt16.ofNat (rd16 raw IN_extra_isize) else 0
  if 128 < fs.isize ∧ (extra &&& 3 ≠ 0 ∨ fs.isize < 128 + extra.toNat) then .error .corrupt
  else .ok {
    ino
    mode
    links := UInt16.ofNat (rd16 raw IN_links_count)
    uid := UInt32.ofNat (rd16 raw IN_uid ||| rd16 raw IN_uid_high <<< 16)
    gid := UInt32.ofNat (rd16 raw IN_gid ||| rd16 raw IN_gid_high <<< 16)
    size := UInt64.ofNat (if WideSize fs mode then size ||| rd32 raw IN_size_high <<< 32 else size)
    nblocks := decodeBlocks fs flags raw
    flags
    generation
    fileAcl := UInt64.ofNat (rd32 raw IN_file_acl_lo ||| rd16 raw IN_file_acl_high <<< 32)
    dtime := UInt32.ofNat (rd32 raw IN_dtime)
    atime := timeDecode raw extra IN_atime IN_atime_extra
    mtime := timeDecode raw extra IN_mtime IN_mtime_extra
    ctime := timeDecode raw extra IN_ctime IN_ctime_extra
    crtime := if Fits extra IN_crtime 4 then timeDecode raw extra IN_crtime IN_crtime_extra else ⟨0, 0⟩
    extraIsize := extra
    csumSeed := if fs.csum then sfsInodeSeed fs ino generation else 0
    iblock := Vector.ofFn fun k => raw (IN_block + k)
  }

/-! ### Encoding -/

/-- The first fields, before the block count. -/
def encodeHead (i : Inode) : List Field :=
  [wr16 IN_mode i.mode.toNat, wr16 IN_uid i.uid.toNat, wr16 IN_uid_high (i.uid.toNat >>> 16),
    wr16 IN_gid i.gid.toNat, wr16 IN_gid_high (i.gid.toNat >>> 16), wr32 IN_size_lo i.size.toNat,
    wr32 IN_size_high (i.size.toNat >>> 32), wr16 IN_links_count i.links.toNat, wr32 IN_dtime i.dtime.toNat]

/-- The halves of the block count and the flags. -/
def encodeBlocks (fs : Vol) (i : Inode) : Except Err (Nat × Nat × UInt32) :=
  let sectors := i.nblocks.toNat <<< (fs.bsBits - 9) % 2 ^ 64
  if sectors ≤ 0xFFFFFFFF then .ok (sectors, 0, i.flags &&& ~~~IFL_HUGE_FILE)
  else if fs.hugeFile = false then .error .fBig
  else if sectors ≤ 0xFFFFFFFFFFFF then .ok (sectors, sectors >>> 32, i.flags &&& ~~~IFL_HUGE_FILE)
  else .ok (i.nblocks.toNat, i.nblocks.toNat >>> 32, i.flags ||| IFL_HUGE_FILE)

/-- The fields from the block count on. -/
def encodeTail (fs : Vol) (i : Inode) (lo hi : Nat) (flags : UInt32) : List Field :=
  [wr32 IN_blocks_lo lo, wr16 IN_blocks_high hi, wr32 IN_flags flags.toNat, wr32 IN_generation i.generation.toNat,
    wr32 IN_file_acl_lo i.fileAcl.toNat, wr16 IN_file_acl_high (i.fileAcl.toNat >>> 32),
    ⟨IN_block, IN_BLOCK_BYTES, fun k => i.iblock.toList.getD k 0⟩] ++
  (if 128 < fs.isize then [wr16 IN_extra_isize i.extraIsize.toNat] else []) ++
  timeEncode i.extraIsize IN_atime IN_atime_extra i.atime ++
  timeEncode i.extraIsize IN_mtime IN_mtime_extra i.mtime ++
  timeEncode i.extraIsize IN_ctime IN_ctime_extra i.ctime ++
  if Fits i.extraIsize IN_crtime 4 then timeEncode i.extraIsize IN_crtime IN_crtime_extra i.crtime else []

/-- `encode`: the code, the inode and the bytes afterwards. -/
def encode (fs : Vol) (i : Inode) (raw : Memory) : Option Err × Inode × Memory :=
  let raw := raw.writeAll (encodeHead i)
  match encodeBlocks fs i with
  | .error e => (some e, i, raw)
  | .ok (lo, hi, flags) =>
    (none, { i with flags }, sfsInodeCsumSet fs i.ino (raw.writeAll (encodeTail fs i lo hi flags)))

/-- `sfs_add_blocks`: the count and the code. -/
def sfsAddBlocks (fs : Vol) (nblocks : UInt64) (delta : Int) : UInt64 × Option Err :=
  let n := if delta < 0 ∧ nblocks.toNat < (-delta).toNat then 0 else UInt64.ofInt (nblocks.toNat + delta)
  (n, if fs.hugeFile = false ∧ 0xFFFFFFFF < n.toNat <<< (fs.bsBits - 9) % 2 ^ 64 then some .fBig else none)

end Win98Modern.Libsfs.Raw
