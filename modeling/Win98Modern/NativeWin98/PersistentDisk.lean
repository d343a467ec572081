import Mathlib.Data.BitVec

/-!
# Admission of the persistent disk

`w98_persist_disk_init` of `persistent_disk.c`, which walks the FAT32 volume of the owned ESP and
admits the sectors of `DISK.IMG`, and `location`, which translates a sector of the disk.  A sector
is the function from its offsets to its bytes; each read may fail.  `none` stands for the result
`-1`.
-/

namespace Win98Modern.NativeWin98

abbrev Byte := BitVec 8

abbrev Sector := Nat → Byte

def W98_PERSIST_ESP_SECTORS : Nat := 4718592
def W98_PERSIST_DISK_SECTORS : Nat := 4194304
def W98_PERSIST_VOLUME_ID : Nat := 0x53485739
def W98_PERSIST_MAX_CLUSTERS : Nat := 1 <<< 20
def W98_PERSIST_MAX_EXTENTS : Nat := 4096
def W98_PERSIST_MAX_DIRS : Nat := 128

def u16 (p : Sector) (i : Nat) : Nat := (p i).toNat + 256 * (p (i + 1)).toNat

def u32 (p : Sector) (i : Nat) : Nat := u16 p i + 65536 * u16 p (i + 2)

/-- `memcmp(a, b, n) == 0`. -/
def SameBytes (n : Nat) (a b : Sector) : Prop := ∀ i < n, a i = b i

instance (n : Nat) (a b : Sector) : Decidable (SameBytes n a b) :=
  inferInstanceAs (Decidable (∀ i < n, a i = b i))

/-- The bytes at `i` are those of a text. -/
def spells (p : Sector) (i : Nat) (s : String) : Bool :=
  (List.range s.length).map (fun k => p (i + k)) = s.toList.map fun c => BitVec.ofNat 8 c.toNat

/-! ### The state of the admission -/

inductive BlockOps
  | missing
  | vblk
  | other
deriving DecidableEq

/-- `w98_owned_block_t`; `ctx` is the object that its functions are called with. -/
structure OwnedBlock where
  sectors : Nat
  ctx : Nat
  ops : BlockOps

structure Esp where
  content : Nat → Sector
  fails : Nat → Bool

structure Geometry where
  spc : Nat
  reserved : Nat
  fatSectors : Nat
  dataLba : Nat
  clusters : Nat
  root : Nat

structure Extent where
  first : Nat
  count : Nat
  deviceLba : Nat
deriving DecidableEq, Repr

structure DiskDir where
  first : Nat
  parent : Nat
  depth : Nat
  shzdos : Bool
deriving DecidableEq, Repr

/-- `w98_persist_disk_t`.  The arrays are as long as their counters say; `seen n` is the bit `n % 8` of
the byte `n / 8`, and `reads` the number of reads made. -/
structure Persist where
  block : OwnedBlock
  geo : Geometry
  extent : List Extent
  directory : List DiskDir
  name : List (Nat × List Byte)
  entriesSeen : Nat
  fatCache : Option (Nat × Sector)
  seen : Nat → Bool
  reads : Nat
  admitted : Bool
  failed : Bool
  busy : Bool

def ValidCluster (g : Geometry) (n : Nat) : Prop := 2 ≤ n ∧ n - 2 < g.clusters

instance (g : Geometry) (n : Nat) : Decidable (ValidCluster g n) := inferInstanceAs (Decidable (_ ∧ _))

/-- The end of a chain. -/
def Eoc (n : Nat) : Prop := 0x0ffffff8 ≤ n

instance (n : Nat) : Decidable (Eoc n) := inferInstanceAs (Decidable (_ ≤ _))

def Geometry.clusterLba (g : Geometry) (n : Nat) : Nat := g.dataLba + (n - 2) * g.spc

def Persist.claimed (m : Persist) (n : Nat) : Bool := m.seen (n - 2)

/-! ### Reading -/

variable (e : Esp)

def Persist.rawRead (m : Persist) (lba : Nat) : Option (Sector × Persist) :=
  if m.block.sectors ≤ lba ∨ e.fails m.reads then none
  else some (e.content lba, { m with reads := m.reads + 1 })

/-- Both copies of a sector of the FAT. -/
def Persist.readFat (m : Persist) (sector : Nat) : Option (Sector × Persist) := do
  let (fat, m) ← m.rawRead e (m.geo.reserved + sector)
  let (mirror, m) ← m.rawRead e (m.geo.reserved + m.geo.fatSectors + sector)
  if SameBytes 512 fat mirror then some (fat, m) else none

def Persist.fatNext (m : Persist) (n : Nat) : Option (Nat × Persist) :=
  let sector := n / 128
  let entry (cache : Sector) := u32 cache (n % 128 * 4) &&& 0x0fffffff
  if m.geo.fatSectors ≤ sector then none
  else
    match m.fatCache.filter fun c => c.1 = sector with
    | some c => some (entry c.2, m)
    | none => do
      let (cache, m) ← m.readFat e sector
      some (entry cache, { m with fatCache := some (sector, cache) })

/-! ### Chains -/

def Persist.claim (m : Persist) (n : Nat) : Option Persist :=
  if ¬ValidCluster m.geo n ∨ m.claimed n then none
  else some { m with seen := Function.update m.seen (n - 2) true }

/-- `extent`: the run of `count` sectors from `first` on is at `lba`. -/
def Persist.addExtent (m : Persist) (first count lba : Nat) : Option Persist :=
  if count = 0 ∨ m.block.sectors ≤ lba ∨ m.block.sectors - lba < count ∨
      W98_PERSIST_DISK_SECTORS ≤ first ∨ W98_PERSIST_DISK_SECTORS - first < count then none
  else
    let fresh : Option Persist :=
      if m.extent.length = W98_PERSIST_MAX_EXTENTS then none
      else some { m with extent := m.extent ++ [⟨first, count, lba⟩] }
    match m.extent.getLast? with
    | some last =>
      if last.first + last.count = first ∧ last.deviceLba + last.count = lba then
        some { m with extent := m.extent.dropLast ++ [{ last with count := last.count + count }] }
      else fresh
    | none => fresh

/-- `if(disk) extent(...)` of `file_chain`. -/
def Persist.grow (m : Persist) (disk : Bool) (first count lba : Nat) : Option Persist :=
  if disk then m.addExtent first count lba else some m

/-- The loop of `file_chain`, with `left` clusters to go. -/
def Persist.fileChainLoop (disk : Bool) : Nat → Persist → Nat → Nat → Option (Persist × Nat)
  | 0, m, _, logical => some (m, logical)
  | left + 1, m, n, logical => do
    let m ← m.claim n
    let (next, m) ← m.fatNext e n
    let sectors := min m.geo.spc (W98_PERSIST_DISK_SECTORS - logical)
    let m ← m.grow disk logical sectors (m.geo.clusterLba n)
    if left = 0 ∧ ¬Eoc next ∨ left ≠ 0 ∧ ¬ValidCluster m.geo next then none
    else m.fileChainLoop disk left next (if disk then logical + sectors else logical)

def Persist.fileChain (m : Persist) (first bytes : Nat) (disk : Bool) : Option Persist :=
  let total := if bytes = 0 then 0 else (bytes + m.geo.spc * 512 - 1) / (m.geo.spc * 512)
  if total = 0 then if first = 0 then some m else none
  else do
    let (m, logical) ← m.fileChainLoop e disk total first 0
    if disk ∧ logical ≠ W98_PERSIST_DISK_SECTORS then none else some m

/-! ### Directories -/

def foldByte (c : Byte) : Byte := if 0x61 ≤ c ∧ c ≤ 0x7a then c - 0x20 else c

def foldName (p : Sector) : List Byte := (List.range 11).map fun i => foldByte (p i)

def equalName (p : Sector) (s : String) : Bool :=
  foldName p = s.toList.map fun c => BitVec.ofNat 8 c.toNat

def Persist.uniqueName (m : Persist) (dir : Nat) (raw : Sector) : Option Persist :=
  if W98_PERSIST_MAX_DIRS ≤ dir ∨ m.name.length = 4096 then none
  else if (dir, foldName raw) ∈ m.name then none
  else some { m with name := m.name ++ [(dir, foldName raw)] }

/-- The characters that `directory` does not take in a name. -/
def BadChar (c : Byte) : Prop :=
  c < 0x20 ∨ 0x7e < c ∨ c = 0x2f ∨ c = 0x5c ∨ c = 0x3a ∨ c = 0x2a ∨ c = 0x3f

instance : DecidablePred BadChar := fun _ => inferInstanceAs (Decidable (_ ∨ _))

def attrOf (p : Sector) : Byte := p 11
def firstOf (p : Sector) : Nat := 65536 * u16 p 20 + u16 p 26
def bytesOf (p : Sector) : Nat := u32 p 28
def IsDot (p : Sector) : Prop := spells p 0 ".          "
def IsDotDot (p : Sector) : Prop := spells p 0 "..         "

instance : DecidablePred IsDot := fun _ => inferInstanceAs (Decidable (_ = true))
instance : DecidablePred IsDotDot := fun _ => inferInstanceAs (Decidable (_ = true))

/-- The locals of `directory`, and the counters behind its pointers. -/
structure Walk where
  m : Persist
  ended : Bool
  shzdos : Nat
  disk : Nat

def Walk.child (w : Walk) (d : DiskDir) (p : Sector) : Option Walk :=
  let first := firstOf p
  if bytesOf p ≠ 0 ∨ ¬ValidCluster w.m.geo first ∨ w.m.directory.length = W98_PERSIST_MAX_DIRS ∨
      d.depth = 8 then none
  else
    let shzdos : Bool := d.first = w.m.geo.root ∧ equalName p "SHZDOS     "
    let m := { w.m with directory := w.m.directory ++ [⟨first, d.first, d.depth + 1, shzdos⟩] }
    if shzdos then if w.shzdos + 1 = 1 then some { w with m, shzdos := w.shzdos + 1 } else none
    else some { w with m }

/-- A file; the member is `DISK.IMG` in `SHZDOS`. -/
def Walk.file (w : Walk) (d : DiskDir) (p : Sector) : Option Walk :=
  let member : Bool := d.shzdos ∧ equalName p "DISK    IMG"
  if member ∧ (bytesOf p ≠ 2 <<< 30 ∨ w.disk + 1 ≠ 1) then none
  else do
    let m ← w.m.fileChain e (firstOf p) (bytesOf p) member
    some { w with m, disk := if member then w.disk + 1 else w.disk }

/-- An entry in use, after its name was found to be new. -/
def Walk.object (d : DiskDir) (w : Walk) (p : Sector) : Option Walk :=
  if d.first = w.m.geo.root ∧ equalName p "SHZDOS     " ∧
      (attrOf p &&& 16 = 0 ∨ attrOf p &&& 8 ≠ 0) then none
  else if d.shzdos ∧ equalName p "DISK    IMG" ∧ attrOf p &&& 24 ≠ 0 then none
  else if IsDot p then
    if attrOf p ≠ 16 ∨ firstOf p ≠ d.first ∨ bytesOf p ≠ 0 then none else some w
  else if IsDotDot p then
    if attrOf p ≠ 16 ∨ bytesOf p ≠ 0 ∨
        (firstOf p ≠ d.parent ∧ ¬(d.parent = w.m.geo.root ∧ firstOf p = 0)) then none
    else some w
  else if (List.range 11).any fun i => BadChar (p i) then none
  else if attrOf p &&& 8 ≠ 0 then
    if attrOf p ≠ 8 ∨ d.first ≠ w.m.geo.root ∨ firstOf p ≠ 0 ∨ bytesOf p ≠ 0 then none else some w
  else if attrOf p &&& 16 ≠ 0 then w.child d p
  else w.file e d p

/-- One entry of the directory `d`, which has the index `dir`. -/
def Walk.entry (d : DiskDir) (dir : Nat) (w : Walk) (p : Sector) : Option Walk :=
  if w.ended ∨ p 0 = 0 then if SameBytes 32 p (fun _ => 0) then some { w with ended := true } else none
  else if p 0 = 0xe5 then some w
  else if 4096 < w.m.entriesSeen + 1 then none
  else if attrOf p = 0x0f ∨ attrOf p &&& 0xc0 ≠ 0 then none
  else do
    let m ← { w.m with entriesSeen := w.m.entriesSeen + 1 }.uniqueName dir p
    Walk.object e d { w with m } p

/-- The entry `k` of a sector. -/
def slot (s : Sector) (k : Nat) : Sector := fun i => s (32 * k + i)

def Walk.sector (d : DiskDir) (dir : Nat) (w : Walk) (lba : Nat) : Option Walk := do
  let (data, m) ← w.m.rawRead e lba
  (List.range 16).foldlM (fun w k => Walk.entry e d dir w (slot data k)) { w with m }

/-- The loop over the clusters of a directory.  Each turn claims a cluster, so that there are no more
turns than clusters. -/
def Walk.clusters (d : DiskDir) (dir : Nat) : Nat → Walk → Nat → Option Walk
  | 0, _, _ => none
  | fuel + 1, w, n => do
    let m ← w.m.claim n
    let w ← (List.range m.geo.spc).foldlM
      (fun w s => Walk.sector e d dir w (w.m.geo.clusterLba n + s)) { w with m }
    let (next, m) ← w.m.fatNext e n
    let w := { w with m }
    if Eoc next then some w else w.clusters d dir fuel next

def Walk.directory (w : Walk) (d : DiskDir) (dir : Nat) : Option Walk := do
  let w ← Walk.clusters e d dir (w.m.geo.clusters + 1) { w with ended := false } d.first
  if w.ended then some w else none

/-- The loop over the directories, which grow in number as it goes. -/
def Walk.directories : Nat → Walk → Nat → Option Walk
  | 0, w, i => if w.m.directory.length ≤ i then some w else none
  | fuel + 1, w, i =>
    match w.m.directory[i]? with
    | none => some w
    | some d => do
      let w ← w.directory e d i
      w.directories fuel (i + 1)

/-! ### Admission -/

def BootOk (s : Sector) : Prop :=
  u16 s 11 = 512 ∧ s 16 = 2 ∧ s 21 = 0xf8 ∧ u16 s 17 = 0 ∧ u16 s 19 = 0 ∧ u16 s 22 = 0 ∧ u32 s 28 = 0 ∧
    u16 s 40 = 0 ∧ u16 s 42 = 0 ∧ u16 s 48 = 1 ∧ u16 s 50 = 6 ∧ u32 s 67 = W98_PERSIST_VOLUME_ID ∧
    spells s 82 "FAT32   " ∧ u16 s 510 = 0xaa55

instance (s : Sector) : Decidable (BootOk s) := inferInstanceAs (Decidable (_ ∧ _))

def geometryOf (s : Sector) : Geometry :=
  let spc := (s 13).toNat
  let reserved := u16 s 14
  let fatSectors := u32 s 36
  let dataLba := reserved + 2 * fatSectors
  ⟨spc, reserved, fatSectors, dataLba, (u32 s 32 - dataLba) / spc, u32 s 44⟩

/-- The checks on the geometry; `sectors` is the total of the boot sector. -/
def GeometryOk (g : Geometry) (sectors : Nat) : Prop :=
  (g.spc ≠ 0 ∧ g.spc ≤ 128 ∧ g.spc &&& (g.spc - 1) = 0 ∧ 32 ≤ g.reserved ∧
      sectors = W98_PERSIST_ESP_SECTORS ∧ g.fatSectors ≠ 0 ∧ g.fatSectors ≤ (sectors - g.reserved) / 2) ∧
    65525 ≤ g.clusters ∧ g.clusters ≤ W98_PERSIST_MAX_CLUSTERS ∧
    g.clusters + 2 ≤ g.fatSectors * 128 ∧ ValidCluster g g.root

instance (g : Geometry) (sectors : Nat) : Decidable (GeometryOk g sectors) :=
  inferInstanceAs (Decidable (_ ∧ _))

/-- The sector of free-space information at `lba`. -/
def Persist.fsInfo (m : Persist) (lba : Nat) : Option Persist := do
  let (s, m) ← m.rawRead e lba
  if u32 s 0 ≠ 0x41615252 ∨ u32 s 484 ≠ 0x61417272 ∨ u32 s 508 ≠ 0xaa550000 then none
  else if u32 s 488 ≠ 0xffffffff ∧ m.geo.clusters < u32 s 488 then none
  else if u32 s 492 ≠ 0xffffffff ∧ ¬ValidCluster m.geo (u32 s 492) then none
  else some m

/-- A cluster that the FAT does not show as free is claimed. -/
def Persist.checkOwned (m : Persist) (n : Nat) : Option Persist := do
  let (next, m) ← m.fatNext e n
  if next ≠ 0 ∧ ¬m.claimed n then none else some m

/-- `w98_persist_disk_init`, with the opt-in `W98_DISK_BACKEND_OPTIN` given or not. -/
def persistDiskInit (optin : Bool) (b : OwnedBlock) : Option Persist :=
  if ¬optin ∨ b.sectors ≠ W98_PERSIST_ESP_SECTORS ∨ b.ops = .missing then none
  else do
    let m : Persist := ⟨b, ⟨0, 0, 0, 0, 0, 0⟩, [], [], [], 0, none, fun _ => false, 0, false, false, false⟩
    let (boot, m) ← m.rawRead e 0
    if ¬BootOk boot then none
    else
      let m := { m with geo := geometryOf boot }
      if ¬GeometryOk m.geo (u32 boot 32) then none
      else do
        let (mirror, m) ← m.rawRead e 6
        if ¬SameBytes 512 boot mirror then none
        else do
          let m ← m.fsInfo e 1
          let m ← m.fsInfo e 7
          let m ← (List.range m.geo.fatSectors).foldlM (fun m i => (m.readFat e i).map Prod.snd) m
          let (fat0, m) ← m.fatNext e 0
          let (fat1, m) ← m.fatNext e 1
          if fat0 ≠ 0x0ffffff8 ∨ fat1 ≠ 0x0fffffff then none
          else do
            let w ← Walk.directories e W98_PERSIST_MAX_DIRS
              ⟨{ m with directory := [⟨m.geo.root, 0, 0, false⟩] }, false, 0, 0⟩ 0
            if w.shzdos ≠ 1 ∨ w.disk ≠ 1 ∨ w.m.extent = [] then none
            else do
              let m ← (List.range' 2 w.m.geo.clusters).foldlM (fun m n => m.checkOwned e n) w.m
              some { m with admitted := true }

omit e in
/-- The binary search of `location`; it halves the extents left in each turn. -/
def locate (extent : List Extent) (sector : Nat) : Nat → Nat → Nat → Option Nat
  | 0, _, _ => none
  | fuel + 1, lo, hi =>
    if lo < hi then
      let mid := lo + (hi - lo) / 2
      match extent[mid]? with
      | none => none
      | some x =>
        if sector < x.first then locate extent sector fuel lo mid
        else if x.count ≤ sector - x.first then locate extent sector fuel (mid + 1) hi
        else some (x.deviceLba + sector - x.first)
    else none

def Persist.location (m : Persist) (sector : Nat) : Option Nat :=
  if ¬m.admitted ∨ m.failed ∨ W98_PERSIST_DISK_SECTORS ≤ sector then none
  else (locate m.extent sector (m.extent.length + 1) 0 m.extent.length).filter (· < m.block.sectors)

end Win98Modern.NativeWin98
