import Win98Modern.Libsfs.Basic
import Mathlib.Algebra.Group.Nat.Defs

/-!
# Names, directories and link counts

The updates of the namespace (`libsfs/sfs_api.c`): `sfs_create`, `sfs_mkdir`,
`sfs_symlink`, `sfs_unlink`, `sfs_rmdir`, `sfs_rename`, with the data updates as
far as they touch what these read.

The inode table is one function for each field, over inode numbers.  Directories
are modelled at the level of `sfs_dir_lookup`, `sfs_dir_add`, `sfs_dir_remove`
and `sfs_dir_set_inode`: the entries of all directories, without `.` and `..`,
stand in one list, and `dotdot` is the second entry of the first block.

Each access to storage may fail.  `Env` says how the accesses of one call turn
out: an access made before anything was changed, or one that allocates, may fail
with any code but `ENOENT`, which is an answer (`Fault`); one that returns to
blocks the call has read before fails only with a code on which `sfs_op_end`
aborts, or in a commit that has aborted already (`LateFault`).  Time stamps,
generations and the contents of files are left out.
-/

namespace Win98Modern.Libsfs

open Function

abbrev Ino := Nat
abbrev Name := List UInt8

def SFS_ROOT_INO : Ino := 2
def SFS_NAME_MAX : Nat := 255
def LINK_MAX : Nat := 65000

/-! ### The volume -/

/-- A directory entry, with the directory it stands in. -/
structure Entry where
  dir : Ino
  name : Name
  ino : Ino
  type : Nat
  deriving DecidableEq, Repr

/-- The inode table and the directories, as far as the namespace goes. -/
structure Ns where
  mode : Ino → Nat
  links : Ino → Nat
  /-- The inode that `..` names. -/
  dotdot : Ino → Ino
  /-- The inode bitmap. -/
  used : Ino → Bool
  entries : List Entry

/-- The features of the volume, from the superblock. -/
structure Features where
  dirIndex : Bool
  dirNlink : Bool
  hugeFile : Bool
  filetype : Bool
  bsBits : Nat
  firstIno : Ino
  inodesCount : Nat

structure Fs extends Ns where
  feat : Features
  /-- `IFL_INDEX`. -/
  index : Ino → Bool
  /-- `IFL_IMMUTABLE | IFL_APPEND`. -/
  sealed : Ino → Bool
  dtime : Ino → Nat
  nblocks : Ino → Nat
  /-- The lengths of the runs that releasing the inode frees, in that order. -/
  runs : Ino → List Nat
  lastOrphan : Ino
  dead : Bool
  ro : Bool
  mods : Nat
  opMods : Nat

/-- `(mode & SFS_S_IFMT) == SFS_S_IFDIR`. -/
def isDirMode (mode : Nat) : Bool := mode / 0x1000 % 16 = 4

def Ns.isDir (s : Ns) (i : Ino) : Bool := isDirMode (s.mode i)

def modeToFt (mode : Nat) : Nat :=
  match mode / 0x1000 % 16 with
  | 8 => 1
  | 4 => 2
  | 2 => 3
  | 6 => 4
  | 1 => 5
  | 12 => 6
  | 10 => 7
  | _ => 0

def inoValid (s : Fs) (i : Ino) : Bool := 1 ≤ i ∧ i ≤ s.feat.inodesCount

/-! ### How the accesses of a call turn out -/

/-- What a failed access leaves behind: nothing, changed buffers of the running
transaction, or a volume that a commit inside it has aborted. -/
inductive Harm
  | clean | wrote | died
  deriving DecidableEq, Repr

structure Failure where
  err : Err
  harm : Harm
  deriving DecidableEq, Repr

/-- A failed access to storage; `ENOENT` is an answer and not a failure. -/
structure Fault extends Failure where
  real : err ≠ .noEnt

/-- A failed access to blocks that the call has read before. -/
structure LateFault extends Failure where
  aborts : err.aborts ∨ harm = .died

/-- Accesses made before anything was changed, and those that allocate. -/
inductive Site
  | opBegin | getDir | getDir' | lookup | lookup' | iget | iget' | isEmpty | ancestor (k : Nat)
  | allocInode | igetNew | init | add | commit
  deriving DecidableEq, Repr

/-- Accesses to blocks that the call has read before. -/
inductive LateSite
  | remove | setInode | setParent | release (k : Nat) | free | flush
  deriving DecidableEq, Repr

/-- How the accesses of one call turn out, the inode `sfs_alloc_inode` settles
on, and the shape of the directory after `sfs_dir_add`. -/
structure Env where
  fault : Site → Option Fault
  late : LateSite → Option LateFault
  pick : Ino
  now : Nat
  /-- On a failed `sfs_dir_init` or `slow_symlink`: whether its block was mapped. -/
  mapped : Bool
  index : Bool
  nblocks : Nat
  runs : List Nat

def Fs.harm (s : Fs) : Harm → Fs
  | .clean => s
  | .wrote => { s with mods := s.mods + 1 }
  | .died => { s with mods := s.mods + 1, dead := true, ro := true }

def Fs.failed (s : Fs) (f : Failure) : Option Err × Fs := (some f.err, s.harm f.harm)

/-! ### Operations -/

def nameOk (name : Name) : Option Err :=
  if name.length = 0 then some .inval
  else if name.length > SFS_NAME_MAX then some .nameTooLong
  else if name.any (fun c => c = 47 ∨ c = 0) then some .inval
  else if name = [46] ∨ name = [46, 46] then some .inval
  else none

def opBegin (s : Fs) (env : Env) : Option Err × Fs :=
  if s.dead then (some .io, s)
  else if s.ro then (some .roFs, s)
  else
    match env.fault .opBegin with
    | some f => (some f.err, s)
    | none => (none, { s with opMods := s.mods })

/-- `sfs_op_end`; a commit that fails aborts the transaction whatever the code.  What an
aborted volume holds in memory stays as the failure left it and is not read again. -/
def opEnd (env : Env) (r : Option Err × Fs) : Option Err × Fs :=
  let (rc, s) := r
  if s.dead then (rc <|> some .io, s)
  else if rc.any Err.aborts ∧ s.mods ≠ s.opMods then (rc, { s with dead := true, ro := true })
  else
    match env.fault .commit with
    | some f => (rc <|> some f.err, { s with dead := true, ro := true })
    | none => (rc, s)

/-- `sfs_iget`, as its failure. -/
def iget (s : Fs) (i : Ino) (f : Option Fault) : Option Failure :=
  if ¬inoValid s i then some ⟨.corrupt, .clean⟩
  else
    match f with
    | some f => some f.toFailure
    | none => if s.mode i = 0 then some ⟨.noEnt, .clean⟩ else none

/-- `get_dir`, as its failure. -/
def getDir (s : Fs) (i : Ino) (f : Option Fault) : Option Failure :=
  match iget s i f with
  | some f => some f
  | none =>
    if ¬s.isDir i then some ⟨.notDir, .clean⟩
    else if s.links i = 0 then some ⟨.noEnt, .clean⟩
    else none

/-- The entry of `name` in `dir`. -/
def Ns.entry (s : Ns) (dir : Ino) (name : Name) : Option Entry :=
  s.entries.find? (fun e => e.dir = dir ∧ e.name = name)

/-- `sfs_dir_lookup`: the inode, `none` for `ENOENT`, or the failure. -/
def dirLookup (s : Fs) (dir : Ino) (name : Name) (f : Option Fault) : Except Failure (Option Ino) :=
  match f with
  | some f => .error f.toFailure
  | none => .ok ((s.entry dir name).map Entry.ino)

def Ns.dirIsEmpty (s : Ns) (dir : Ino) : Bool := s.entries.all (fun e => e.dir ≠ dir)

def isDx (s : Fs) (d : Ino) : Bool := s.feat.dirIndex ∧ s.index d

def Fs.setLinks (s : Fs) (i : Ino) (n : Nat) : Fs :=
  { s with links := update s.links i n, mods := s.mods + 1 }

def dirLinkInc (s : Fs) (d : Ino) : Fs :=
  if s.links d = 1 ∧ s.feat.dirNlink then { s with mods := s.mods + 1 }
  else if s.links d + 1 > LINK_MAX then s.setLinks d 1
  else s.setLinks d (s.links d + 1)

def dirLinkDec (s : Fs) (d : Ino) : Fs :=
  if s.links d > 2 then s.setLinks d (s.links d - 1) else { s with mods := s.mods + 1 }

/-- The directory's blocks and index as `sfs_dir_add` leaves them. -/
def Fs.reshaped (s : Fs) (dir : Ino) (env : Env) : Fs :=
  { s with index := update s.index dir env.index,
           nblocks := update s.nblocks dir env.nblocks,
           runs := update s.runs dir env.runs }

/-- `sfs_dir_add`: the entry goes in, or the call fails and none does. -/
def dirAdd (s : Fs) (env : Env) (dir : Ino) (name : Name) (ino : Ino) (type : Nat) :
    Option Err × Fs :=
  match env.fault .add with
  | some f => (s.reshaped dir env).failed f.toFailure
  | none =>
    (none, { s.reshaped dir env with
      entries := ⟨dir, name, ino, if s.feat.filetype then type else 0⟩ :: s.entries,
      mods := s.mods + 1 })

/-- The entries without that of `name` in `dir`. -/
def Ns.without (s : Ns) (dir : Ino) (name : Name) : List Entry :=
  s.entries.filter (fun e => ¬(e.dir = dir ∧ e.name = name))

def dirRemove (s : Fs) (env : Env) (dir : Ino) (name : Name) (expect : Ino) : Option Err × Fs :=
  match env.late .remove with
  | some f => s.failed f.toFailure
  | none =>
    match s.entry dir name with
    | none => (some .noEnt, s)
    | some e =>
      if e.ino ≠ expect then (some .noEnt, s)
      else (none, { s with entries := s.without dir name, mods := s.mods + 1 })

def dirSetInode (s : Fs) (env : Env) (dir : Ino) (name : Name) (ino : Ino) (type : Nat) :
    Option Err × Fs :=
  match env.late .setInode with
  | some f => s.failed f.toFailure
  | none =>
    match s.entry dir name with
    | none => (some .noEnt, s)
    | some e =>
      (none, { s with
        entries := ⟨dir, name, ino, if s.feat.filetype then type else e.type⟩ :: s.without dir name,
        mods := s.mods + 1 })

def dirSetParent (s : Fs) (env : Env) (dir parent : Ino) : Option Err × Fs :=
  match env.late .setParent with
  | some f => s.failed f.toFailure
  | none =>
    (none, { s with dotdot := update s.dotdot dir parent, mods := s.mods + 1 })

/-! ### Releasing inodes -/

/-- The block count fits the 32-bit sector count of a volume without `huge_file`. -/
def blocksFit (feat : Features) (nblocks : Nat) : Bool :=
  feat.hugeFile ∨ nblocks * 2 ^ (feat.bsBits - 9) ≤ 0xFFFFFFFF

/-- `sfs_add_blocks(-len)` for each run freed, in the order of `sfs_ext_truncate`
and `release_xattr_block`. -/
def releaseRuns (env : Env) (i : Ino) : Nat → List Nat → Fs → Option Err × Fs
  | _, [], s => (none, s)
  | k, len :: rest, s =>
    match env.late (.release k) with
    | some f => s.failed f.toFailure
    | none =>
      let left := s.nblocks i - len
      let s := { s with nblocks := update s.nblocks i left,
                        runs := update s.runs i rest, mods := s.mods + 1 }
      if blocksFit s.feat left then releaseRuns env i (k + 1) rest s else (some .fBig, s)

def releaseAll (s : Fs) (env : Env) (i : Ino) : Option Err × Fs :=
  match releaseRuns env i 0 (s.runs i) s with
  | (some e, s) => (some e, s)
  | (none, s) => (none, { s with mods := s.mods + 1 })

def orphanAdd (s : Fs) (i : Ino) : Fs :=
  { s with dtime := update s.dtime i s.lastOrphan, lastOrphan := i, mods := s.mods + 1 }

/-- `sfs_orphan_del` of the inode at the head of the list. -/
def orphanDel (s : Fs) (i : Ino) : Fs :=
  { s with lastOrphan := s.dtime i, dtime := update s.dtime i 0, mods := s.mods + 1 }

def freeInode (s : Fs) (f : Option LateFault) (i : Ino) : Option Err × Fs :=
  if ¬inoValid s i ∨ i < s.feat.firstIno then (some .corrupt, s)
  else
    match f with
    | some f => s.failed f.toFailure
    | none =>
      if ¬s.used i then (some .corrupt, s)
      else (none, { s with used := update s.used i false, mods := s.mods + 1 })

/-- `sfs_iflush` of a dirty inode: `encode` tests the block count. -/
def iflush (s : Fs) (env : Env) (i : Ino) : Option Err × Fs :=
  match env.late .flush with
  | some f => s.failed f.toFailure
  | none =>
    if blocksFit s.feat (s.nblocks i) then (none, { s with mods := s.mods + 1 })
    else (some .fBig, s)

/-- What `destroy_inode` and the undo of `create_common` share: the inode without
links is given its deletion time, freed in the bitmap and written back. -/
def retire (s : Fs) (env : Env) (i : Ino) (dtime : Nat) : Option Err × Fs :=
  let s := { s.setLinks i 0 with dtime := update s.dtime i dtime }
  match freeInode s (env.late .free) i with
  | (some e, s) => (some e, s)
  | (none, s) => iflush s env i

def destroyInode (s : Fs) (env : Env) (i : Ino) : Option Err × Fs :=
  match releaseAll (orphanAdd s i) env i with
  | (some e, s) => (some e, s)
  | (none, s) => retire (orphanDel s i) env i (if env.now ≠ 0 then env.now else 1)

/-! ### Creation -/

/-- `sfs_alloc_inode`: any free inode above the reserved ones. -/
def allocInode (s : Fs) (env : Env) : Except Err Ino × Fs :=
  match env.fault .allocInode with
  | some f => (.error f.err, s.harm f.harm)
  | none =>
    if inoValid s env.pick ∧ s.feat.firstIno ≤ env.pick ∧ ¬s.used env.pick then
      (.ok env.pick, { s with used := update s.used env.pick true, mods := s.mods + 1 })
    else (.error .noSpc, s)

/-- The inode as `sfs_iget_new` sets it up. -/
def Fs.newInode (s : Fs) (i : Ino) (mode : Nat) : Fs :=
  { s with
    mode := update s.mode i mode
    links := update s.links i 1
    index := update s.index i false
    sealed := update s.sealed i false
    dtime := update s.dtime i 0
    nblocks := update s.nblocks i 0
    runs := update s.runs i []
    mods := s.mods + 1 }

/-- One block mapped at the start of a new inode. -/
def Fs.mapFirst (s : Fs) (i : Ino) : Fs :=
  { s with nblocks := update s.nblocks i 1, runs := update s.runs i [1],
           mods := s.mods + 1 }

/-- What kind of inode `create_common` makes: its type bits, and for a symlink
the length of the target. -/
inductive NewKind
  | file | directory | symlink (tlen : Nat)
  deriving DecidableEq, Repr

def NewKind.mode (k : NewKind) (mode : Nat) : Nat :=
  match k with
  | .file => 0x8000 + mode % 0x1000
  | .directory => 0x4000 + mode % 0x1000
  | .symlink _ => 0xA1FF

/-- The first contents of a new inode: `sfs_dir_init`, a fast symlink, or `slow_symlink`. -/
def fillNew (s : Fs) (env : Env) (i dir : Ino) (k : NewKind) : Option Err × Fs :=
  match k with
  | .file => (none, s)
  | .directory =>
    let s := s.setLinks i 2
    match env.fault .init with
    | some f => (if env.mapped then s.mapFirst i else s).failed f.toFailure
    | none => (none, { s.mapFirst i with dotdot := update s.dotdot i dir })
  | .symlink tlen =>
    if tlen < 60 then (none, s)
    else
      match env.fault .init with
      | some f => (if env.mapped then s.mapFirst i else s).failed f.toFailure
      | none => (none, s.mapFirst i)

/-- The undo of `create_common`; `rc` is the code that made it necessary. -/
def undoCreate (s : Fs) (env : Env) (i : Ino) (rc : Err) : Option Err × Fs :=
  match releaseAll s env i with
  | (some e, s) =>
    (some e, { s.setLinks i 0 with dtime := update s.dtime i (env.now ||| 1) })
  | (none, s) =>
    match retire s env i (env.now ||| 1) with
    | (some e, s) => (some e, s)
    | (none, s) => (some rc, s)

/-- The guards of `create_common` on the link count of the parent. -/
def linkGuard (s : Fs) (d : Ino) : Bool :=
  (s.links d ≥ LINK_MAX ∧ ¬(s.feat.dirNlink ∧ isDx s d)) ∨ (s.links d = 1 ∧ ¬s.feat.dirNlink)

/-- `create_common` from the new inode on. -/
def createNew (s : Fs) (env : Env) (dir : Ino) (name : Name) (k : NewKind) (mode : Nat) (i : Ino) :
    Option Err × Fs :=
  match fillNew s env i dir k with
  | (some e, s) => undoCreate s env i e
  | (none, s) =>
    match dirAdd s env dir name i (modeToFt (k.mode mode)) with
    | (some e, s) => undoCreate s env i e
    | (none, s) => (none, if k = .directory then dirLinkInc s dir else s)

/-- `create_common` between `sfs_op_begin` and `sfs_op_end`. -/
def createBody (s : Fs) (env : Env) (dir : Ino) (name : Name) (k : NewKind) (mode : Nat) :
    Option Err × Fs :=
  match getDir s dir (env.fault .getDir) with
  | some f => s.failed f
  | none =>
    match dirLookup s dir name (env.fault .lookup) with
    | .error f => s.failed f
    | .ok (some _) => (some .exist, s)
    | .ok none =>
      if k = .directory ∧ linkGuard s dir then (some .range, s)
      else
        match allocInode s env with
        | (.error e, s) => (some e, s)
        | (.ok i, s) =>
          match env.fault .igetNew with
          -- the bitmap is pinned by the running transaction: freeing the inode again cannot fail
          | some f => (some f.err, (freeInode (s.harm f.harm) none i).2)
          | none => createNew (s.newInode i (k.mode mode)) env dir name k mode i

/-- `tlen >= fs->bs || tlen > 4095`. -/
def NewKind.tooLong (k : NewKind) (bsBits : Nat) : Bool :=
  match k with
  | .symlink tlen => tlen ≥ 2 ^ bsBits ∨ tlen > 4095
  | _ => false

def createCommon (s : Fs) (env : Env) (dir : Ino) (name : Name) (k : NewKind) (mode : Nat) :
    Option Err × Fs :=
  match nameOk name with
  | some e => (some e, s)
  | none =>
    if k = .symlink 0 then (some .inval, s)
    else if k.tooLong s.feat.bsBits then (some .nameTooLong, s)
    else
      match opBegin s env with
      | (some e, s) => (some e, s)
      | (none, s) => opEnd env (createBody s env dir name k mode)

/-! ### Removal -/

def unlinkBody (s : Fs) (env : Env) (dir : Ino) (name : Name) : Option Err × Fs :=
  match getDir s dir (env.fault .getDir) with
  | some f => s.failed f
  | none =>
    match dirLookup s dir name (env.fault .lookup) with
    | .error f => s.failed f
    | .ok none => (some .noEnt, s)
    | .ok (some i) =>
      match iget s i (env.fault .iget) with
      | some f => s.failed f
      | none =>
        if s.isDir i then (some .isDir, s)
        else if s.sealed i then (some .roFs, s)
        else
          match dirRemove s env dir name i with
          | (some e, s) => (some e, s)
          | (none, s) =>
            let s := if s.links i ≠ 0 then s.setLinks i (s.links i - 1) else s
            if s.links i = 0 then destroyInode s env i else (none, s)

def sfsUnlink (s : Fs) (env : Env) (dir : Ino) (name : Name) : Option Err × Fs :=
  match nameOk name with
  | some e => (some e, s)
  | none =>
    match opBegin s env with
    | (some e, s) => (some e, s)
    | (none, s) => opEnd env (unlinkBody s env dir name)

def rmdirBody (s : Fs) (env : Env) (dir : Ino) (name : Name) : Option Err × Fs :=
  match getDir s dir (env.fault .getDir) with
  | some f => s.failed f
  | none =>
    match dirLookup s dir name (env.fault .lookup) with
    | .error f => s.failed f
    | .ok none => (some .noEnt, s)
    | .ok (some c) =>
      match iget s c (env.fault .iget) with
      | some f => s.failed f
      | none =>
        if ¬s.isDir c then (some .notDir, s)
        else if c = SFS_ROOT_INO then (some .busy, s)
        else
          match env.fault .isEmpty with
          | some f => s.failed f.toFailure
          | none =>
            if ¬s.dirIsEmpty c then (some .notEmpty, s)
            else
              match dirRemove s env dir name c with
              | (some e, s) => (some e, s)
              | (none, s) => destroyInode ((dirLinkDec s dir).setLinks c 0) env c

def sfsRmdir (s : Fs) (env : Env) (dir : Ino) (name : Name) : Option Err × Fs :=
  match nameOk name with
  | some e => (some e, s)
  | none =>
    match opBegin s env with
    | (some e, s) => (some e, s)
    | (none, s) => opEnd env (rmdirBody s env dir name)

/-! ### Rename -/

/-- The loop of `is_ancestor` from `cur` on; `fuel` is what is left of the 4096
steps, `k` counts them. -/
def isAncestorFrom (s : Fs) (env : Env) (anc : Ino) : Nat → Nat → Ino → Except Failure Bool
  | 0, _, cur => .ok (cur = anc)
  | fuel + 1, k, cur =>
    if cur = SFS_ROOT_INO then .ok (cur = anc)
    else if cur = anc then .ok true
    else
      match iget s cur (env.fault (.ancestor k)) with
      | some f => .error f
      | none =>
        let parent := s.dotdot cur
        if parent = cur then .ok (cur = anc)
        else isAncestorFrom s env anc fuel (k + 1) parent

def isAncestor (s : Fs) (env : Env) (anc dir : Ino) : Except Failure Bool :=
  isAncestorFrom s env anc 4096 0 dir

/-- The test of `sfs_rename` before anything is changed: a directory does not
move below itself. -/
def renameCheck (s : Fs) (env : Env) (sino odir ndir : Ino) : Option Failure :=
  if s.isDir sino ∧ odir ≠ ndir then
    match isAncestor s env sino ndir with
    | .error f => some f
    | .ok true => some ⟨.inval, .clean⟩
    | .ok false => none
  else none

/-- The `..` entry and the link counts of both parents when a directory moves to
another; `ndir` gains a subdirectory only if it `grows`. -/
def reparent (s : Fs) (env : Env) (odir ndir sino : Ino) (grows : Bool) : Option Err × Fs :=
  if s.isDir sino ∧ odir ≠ ndir then
    match dirSetParent s env sino ndir with
    | (some e, s) => (some e, s)
    | (none, s) =>
      (none, if grows then dirLinkInc (dirLinkDec s odir) ndir else dirLinkDec s odir)
  else (none, s)

/-- The link counts after the target `t` has lost its entry. -/
def dropTarget (s : Fs) (odir ndir sino t : Ino) : Fs :=
  if s.isDir t then
    let s := s.setLinks t 0
    if odir = ndir ∨ ¬s.isDir sino then dirLinkDec s ndir else s
  else if s.links t ≠ 0 then s.setLinks t (s.links t - 1) else s

/-- `sfs_rename` from `sfs_dir_remove` on, with the target that was there. -/
def renameTail (s : Fs) (env : Env) (odir : Ino) (oname : Name) (ndir : Ino) (sino : Ino)
    (tgt : Option Ino) : Option Err × Fs :=
  match dirRemove s env odir oname sino with
  | (some e, s) => (some e, s)
  | (none, s) =>
    match reparent s env odir ndir sino (tgt = none) with
    | (some e, s) => (some e, s)
    | (none, s) =>
      match tgt with
      | none => (none, s)
      | some t =>
        let s := dropTarget s odir ndir sino t
        if s.links t = 0 then destroyInode s env t else (none, s)

/-- The tests of `sfs_rename` on the inode that the new name has already. -/
def targetCheck (s : Fs) (env : Env) (sino t : Ino) : Option Failure :=
  match iget s t (env.fault .iget') with
  | some f => some f
  | none =>
    if s.isDir t then
      if ¬s.isDir sino then some ⟨.isDir, .clean⟩
      else
        match env.fault .isEmpty with
        | some f => some f.toFailure
        | none => if s.dirIsEmpty t then none else some ⟨.notEmpty, .clean⟩
    else if s.isDir sino then some ⟨.notDir, .clean⟩
    else none

def renameBody (s : Fs) (env : Env) (odir : Ino) (oname : Name) (ndir : Ino) (nname : Name)
    (replace : Bool) : Option Err × Fs :=
  match getDir s odir (env.fault .getDir) with
  | some f => s.failed f
  | none =>
    match getDir s ndir (env.fault .getDir') with
    | some f => s.failed f
    | none =>
      match dirLookup s odir oname (env.fault .lookup) with
      | .error f => s.failed f
      | .ok none => (some .noEnt, s)
      | .ok (some sino) =>
        match iget s sino (env.fault .iget) with
        | some f => s.failed f
        | none =>
          match renameCheck s env sino odir ndir with
          | some f => s.failed f
          | none =>
            match dirLookup s ndir nname (env.fault .lookup') with
            | .error f => s.failed f
            | .ok (some t) =>
              if t = sino then (none, s)
              else if ¬replace then (some .exist, s)
              else
                match targetCheck s env sino t with
                | some f => s.failed f
                | none =>
                  match dirSetInode s env ndir nname sino (modeToFt (s.mode sino)) with
                  | (some e, s) => (some e, s)
                  | (none, s) => renameTail s env odir oname ndir sino (some t)
            | .ok none =>
              if (s.isDir sino ∧ odir ≠ ndir) ∧ s.links ndir ≥ LINK_MAX ∧
                  ¬(s.feat.dirNlink ∧ isDx s ndir) then (some .range, s)
              else
                match dirAdd s env ndir nname sino (modeToFt (s.mode sino)) with
                | (some e, s) => (some e, s)
                | (none, s) => renameTail s env odir oname ndir sino none

def sfsRename (s : Fs) (env : Env) (odir : Ino) (oname : Name) (ndir : Ino) (nname : Name)
    (replace : Bool) : Option Err × Fs :=
  match nameOk oname with
  | some e => (some e, s)
  | none =>
    match nameOk nname with
    | some e => (some e, s)
    | none =>
      match opBegin s env with
      | (some e, s) => (some e, s)
      | (none, s) => opEnd env (renameBody s env odir oname ndir nname replace)

/-- What `sfs_write`, `sfs_truncate`, `sfs_set_times` and `sfs_set_mode` may
change of an inode: its permission bits and its blocks, also when they fail. -/
def dataBody (s : Fs) (env : Env) (i : Ino) (perm nblocks : Nat) (runs : List Nat)
    (rc : Option Fault) : Option Err × Fs :=
  match iget s i (env.fault .iget) with
  | some f => s.failed f
  | none =>
    let s := { s with mode := update s.mode i (s.mode i / 0x1000 * 0x1000 + perm % 0x1000),
                      nblocks := update s.nblocks i nblocks,
                      runs := update s.runs i runs, mods := s.mods + 1 }
    match rc with
    | some f => s.failed f.toFailure
    | none => (none, s)

def dataUpdate (s : Fs) (env : Env) (i : Ino) (perm nblocks : Nat) (runs : List Nat)
    (rc : Option Fault) : Option Err × Fs :=
  match opBegin s env with
  | (some e, s) => (some e, s)
  | (none, s) => opEnd env (dataBody s env i perm nblocks runs rc)

/-! ### Calls -/

inductive Call
  | create (dir : Ino) (name : Name) (mode : Nat)
  | mkdir (dir : Ino) (name : Name) (mode : Nat)
  | symlink (dir : Ino) (name : Name) (tlen : Nat)
  | unlink (dir : Ino) (name : Name)
  | rmdir (dir : Ino) (name : Name)
  | rename (odir : Ino) (oname : Name) (ndir : Ino) (nname : Name) (replace : Bool)
  | data (i : Ino) (perm nblocks : Nat) (runs : List Nat) (rc : Option Fault)

def step (s : Fs) (env : Env) : Call → Option Err × Fs
  | .create dir name mode => createCommon s env dir name .file mode
  | .mkdir dir name mode => createCommon s env dir name .directory mode
  | .symlink dir name tlen => createCommon s env dir name (.symlink tlen) 0
  | .unlink dir name => sfsUnlink s env dir name
  | .rmdir dir name => sfsRmdir s env dir name
  | .rename odir oname ndir nname replace => sfsRename s env odir oname ndir nname replace
  | .data i perm nblocks runs rc => dataUpdate s env i perm nblocks runs rc

def run (s : Fs) (calls : List (Env × Call)) : Fs :=
  calls.foldl (fun s c => (step s c.1 c.2).2) s

end Win98Modern.Libsfs
