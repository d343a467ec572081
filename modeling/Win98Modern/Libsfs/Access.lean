import Win98Modern.Libsfs.Namespace

/-!
# Ownership and access checks

The policy layer of `libsfs/sfs_access.c` over the updates of the namespace:
`sfs_open_as`, `sfs_mkdir_as`, `sfs_unlink_as`, `sfs_rmdir_as`, `sfs_rename_as`,
`sfs_chmod_as` and `sfs_chown_as`.

A volume gains the owner, the group and the size of each inode.  The functions
that only read give back what they read, or their code with the volume as the
failed access has left it (`Reads`).  `AsEnv` says how the accesses of one call
turn out: its own reads, the update it makes and the operation around a creation.
`Mount` adds the disk: `sfs_fail` drops the running transaction, so that of an
aborted volume only what the last commit has written is left.
-/

namespace Win98Modern.Libsfs

open Function

def S_ISUID : Nat := 0o4000
def S_ISGID : Nat := 0o2000
def S_ISVTX : Nat := 0o1000

def SFS_CRED_NGROUPS : Nat := 32

def SFS_CAP_DAC_OVERRIDE : Nat := 0x1
def SFS_CAP_DAC_READ_SEARCH : Nat := 0x2
def SFS_CAP_FOWNER : Nat := 0x4
def SFS_CAP_CHOWN : Nat := 0x8
def SFS_CAP_FSETID : Nat := 0x10
def SFS_CAP_ALL : Nat := 0x1F

def SFS_MAY_EXEC : Nat := 1
def SFS_MAY_WRITE : Nat := 2
def SFS_MAY_READ : Nat := 4

def SFS_O_READ : Nat := 0x01
def SFS_O_WRITE : Nat := 0x02
def SFS_O_CREATE : Nat := 0x04
def SFS_O_EXCL : Nat := 0x08
def SFS_O_TRUNC : Nat := 0x10
def SFS_O_DIRECTORY : Nat := 0x20

def SFS_ID_KEEP : Nat := 0xFFFFFFFF

/-- A mounted volume with the owners and sizes of its inodes. -/
structure Vol extends Fs where
  uid : Ino → Nat
  gid : Ino → Nat
  size : Ino → Nat

/-- `sfs_cred`: the first `ngroups` of the array `groups` count. -/
structure Cred where
  uid : Nat
  gid : Nat
  ngroups : Nat
  groups : Nat → Nat
  caps : Nat

/-- `sfs_stat_t`, as far as it is read here. -/
structure Stat where
  mode : Nat
  uid : Nat
  gid : Nat
  size : Nat

/-- The codes of the core, `SFS_EACCES` and `SFS_EPERM`. -/
inductive Code
  | fs (e : Err) | acces | perm
  deriving DecidableEq, Repr

/-- What a function that only reads gives: a value, or the code with the volume
after the access that failed. -/
abbrev Reads (α : Type) := Except (Code × Vol) α

/-! ### How the accesses of a checked call turn out -/

/-- A failed access on which `sfs_op_end` aborts. -/
structure AbortFault extends Fault where
  aborts : err.aborts ∨ harm = .died

/-- The reads of a checked call. -/
inductive AsSite
  | dirStat | dirStat' | getDir | getDir' | lookup | lookup' | victim | victim' | own
  deriving DecidableEq, Repr

/-- How the accesses of one checked call turn out. -/
structure AsEnv where
  fault : AsSite → Option Fault
  /-- The update that the call makes. -/
  inner : Env
  /-- The operation around it. -/
  outer : Env
  /-- The access of `create_owned` to the inode that it has just made. -/
  owning : Option AbortFault
  /-- How `sfs_file_truncate` turns out, and what it leaves of a file. -/
  truncated : Option Fault
  size : Nat
  nblocks : Nat
  runs : List Nat

/-- The volume after a failed access, with its code. -/
def Vol.failed {α : Type} (v : Vol) (f : Failure) : Reads α :=
  .error (.fs f.err, { v with toFs := v.toFs.harm f.harm })

/-! ### Checks -/

def sfsCredCheck (c : Cred) : Option Code :=
  if c.ngroups > SFS_CRED_NGROUPS ∨ c.caps > SFS_CAP_ALL then some (.fs .inval) else none

def sfsCredInGroup (c : Cred) (gid : Nat) : Bool :=
  c.gid = gid ∨ ∃ i < min c.ngroups SFS_CRED_NGROUPS, c.groups i = gid

def sfsPermissionSt (c : Cred) (st : Stat) (mask : Nat) : Option Code :=
  if (sfsCredCheck c).isSome ∨ mask > 7 then some (.fs .inval)
  else
    let bits :=
      if c.uid = st.uid then (st.mode >>> 6) &&& 7
      else if sfsCredInGroup c st.gid then (st.mode >>> 3) &&& 7
      else st.mode &&& 7
    if bits &&& mask = mask then none
    else if c.caps &&& SFS_CAP_DAC_OVERRIDE ≠ 0 ∧
        (mask &&& SFS_MAY_EXEC = 0 ∨ isDirMode st.mode ∨ st.mode &&& 0o111 ≠ 0) then none
    else if c.caps &&& SFS_CAP_DAC_READ_SEARCH ≠ 0 ∧
        (if isDirMode st.mode then mask &&& SFS_MAY_WRITE = 0 else mask = SFS_MAY_READ) then none
    else some .acces

def Vol.stat (v : Vol) (i : Ino) : Stat := ⟨v.mode i, v.uid i, v.gid i, v.size i⟩

def sfsStat (v : Vol) (i : Ino) (f : Option Fault) : Reads Stat :=
  if v.dead then v.failed ⟨.io, .clean⟩
  else
    match iget v.toFs i f with
    | some f => v.failed f
    | none => .ok (v.stat i)

/-- The inode of a name; `.` and `..` are names here too. -/
def Vol.named (v : Vol) (dir : Ino) (name : Name) : Option Ino :=
  if name = [46] then some dir
  else if name = [46, 46] then some (v.dotdot dir)
  else (v.entry dir name).map Entry.ino

/-- `sfs_lookup`; its accesses are those of `get_dir` and of `sfs_dir_lookup`. -/
def sfsLookup (v : Vol) (dir : Ino) (name : Name) (f g : Option Fault) : Reads Ino :=
  if v.dead then v.failed ⟨.io, .clean⟩
  else
    match getDir v.toFs dir f with
    | some f => v.failed f
    | none =>
      match g with
      | some f => v.failed f.toFailure
      | none =>
        match v.named dir name with
        | none => v.failed ⟨.noEnt, .clean⟩
        | some i => if inoValid v.toFs i then .ok i else v.failed ⟨.corrupt, .clean⟩

/-- A check that is passed if it gives no code. -/
def Vol.demand (v : Vol) (rc : Option Code) : Reads Unit :=
  match rc with
  | some rc => .error (rc, v)
  | none => .ok ()

def dirCheck (v : Vol) (f : Option Fault) (c : Cred) (dir : Ino) (write : Bool) : Reads Stat := do
  v.demand (sfsCredCheck c)
  let dst ← sfsStat v dir f
  v.demand (if isDirMode dst.mode then none else some (.fs .notDir))
  v.demand (sfsPermissionSt c dst (if write then SFS_MAY_WRITE ||| SFS_MAY_EXEC else SFS_MAY_EXEC))
  return dst

def stickyOk (c : Cred) (dst victim : Stat) : Option Code :=
  if dst.mode &&& S_ISVTX = 0 then none
  else if c.uid = victim.uid ∨ c.uid = dst.uid ∨ c.caps &&& SFS_CAP_FOWNER ≠ 0 then none
  else some .perm

/-! ### Owners -/

/-- `set_owner_in_op`, with how `sfs_iget` turns out. -/
def setOwnerInOp (v : Vol) (i : Ino) (uid gid mode : Nat) (got : Option Failure) :
    Option Err × Vol :=
  match got with
  | some f => (some f.err, { v with toFs := v.toFs.harm f.harm })
  | none =>
    (none, { v with
      uid := update v.uid i uid
      gid := update v.gid i gid
      mode := update v.mode i (v.mode i / 0x1000 * 0x1000 + mode % 0x1000)
      mods := v.mods + 1 })

/-- `sfs_op_end` on the volume with its owners. -/
def Vol.opEnd (env : Env) (r : Option Err × Vol) : Option Err × Vol :=
  let (rc, s) := Libsfs.opEnd env (r.1, r.2.toFs)
  (rc, { r.2 with toFs := s })

def sfsSetOwner (v : Vol) (env : Env) (i : Ino) (uid gid mode : Nat) (f : Option Fault) :
    Option Err × Vol :=
  match opBegin v.toFs env with
  | (some e, s) => (some e, { v with toFs := s })
  | (none, s) =>
    Vol.opEnd env (setOwnerInOp { v with toFs := s } i uid gid mode (iget s i f))

/-! ### Creation -/

/-- `sfs_iget_new` finds the directory of a creation in memory: it is no new inode. -/
def Env.inUse (env : Env) (dir : Ino) : Env :=
  { env with
    fault := fun site =>
      if site = .igetNew ∧ env.pick = dir then some ⟨⟨.corrupt, .clean⟩, nofun⟩
      else env.fault site }

/-- The inode that `create_common` sets up by `sfs_iget_new` between `sfs_op_begin` and
`sfs_op_end`, if it gets as far. -/
def freshBody (s : Fs) (env : Env) (dir : Ino) (name : Name) (k : NewKind) : Option Ino :=
  match getDir s dir (env.fault .getDir) with
  | some _ => none
  | none =>
    match dirLookup s dir name (env.fault .lookup) with
    | .error _ => none
    | .ok (some _) => none
    | .ok none =>
      if k = .directory ∧ linkGuard s dir then none
      else
        match allocInode s env with
        | (.error _, _) => none
        | (.ok i, _) => if (env.fault .igetNew).isSome then none else some i

def freshIno (s : Fs) (env : Env) (dir : Ino) (name : Name) (k : NewKind) : Option Ino :=
  if (nameOk name).isSome then none
  else
    match opBegin s env with
    | (some _, _) => none
    | (none, s) => freshBody s env dir name k

/-- `sfs_create` and `sfs_mkdir` with no permissions, with the owner of a new inode. -/
def createBare (v : Vol) (env : Env) (dir : Ino) (name : Name) (k : NewKind) : Option Err × Vol :=
  let r := createCommon v.toFs (env.inUse dir) dir name k 0
  match freshIno v.toFs (env.inUse dir) dir name k with
  | none => (r.1, { v with toFs := r.2 })
  | some i =>
    (r.1, { v with
      toFs := r.2
      uid := update v.uid i 0
      gid := update v.gid i 0
      size := update v.size i 0 })

/-- The group of a new inode. -/
def newGid (c : Cred) (dst : Stat) : Nat := if dst.mode &&& S_ISGID ≠ 0 then dst.gid else c.gid

/-- The permission bits of a new inode. -/
def newPerm (c : Cred) (dst : Stat) (mode : Nat) (isDir : Bool) : Nat :=
  let perm := mode &&& 0o7777
  let perm := if dst.mode &&& S_ISGID ≠ 0 ∧ isDir then perm ||| S_ISGID else perm
  if ¬isDir ∧ perm &&& S_ISGID ≠ 0 ∧ ¬sfsCredInGroup c (newGid c dst) ∧
      c.caps &&& SFS_CAP_FSETID = 0 then perm &&& (0xFFFF ^^^ S_ISGID)
  else perm

/-- What a call gives after its update: the inode, or the code. -/
def resultOf (ino : Ino) (r : Option Err × Vol) : Except Code Ino × Vol :=
  match r with
  | (some e, v) => (.error (.fs e), v)
  | (none, v) => (.ok ino, v)

def createOwned (v : Vol) (env : AsEnv) (c : Cred) (dir : Ino) (dst : Stat) (name : Name)
    (mode : Nat) (isDir : Bool) : Except Code Ino × Vol :=
  match opBegin v.toFs env.outer with
  | (some e, s) => (.error (.fs e), { v with toFs := s })
  | (none, s) =>
    let r := createBare { v with toFs := s } env.inner dir name (if isDir then .directory else .file)
    let ino := env.inner.pick
    let r :=
      match r with
      | (some e, v) => (some e, v)
      | (none, v) =>
        setOwnerInOp v ino c.uid (newGid c dst) (newPerm c dst mode isDir)
          (match env.owning with
          | some f => some f.toFailure
          | none => iget v.toFs ino none)
    resultOf ino (Vol.opEnd env.outer r)

/-! ### Opening -/

/-- `sfs_truncate(fs, ino, 0)`; a failed one may have stored the size already. -/
def truncateFile (v : Vol) (env : AsEnv) (i : Ino) : Option Err × Vol :=
  match dataUpdate v.toFs env.inner i (v.mode i) env.nblocks env.runs env.truncated with
  | (some e, s) => (some e, { v with toFs := s, size := update v.size i env.size })
  | (none, s) => (none, { v with toFs := s, size := update v.size i 0 })

/-- The mask that the flags of `sfs_open_as` ask for. -/
def openMask (oflags : Nat) : Nat :=
  (if oflags &&& SFS_O_READ ≠ 0 then SFS_MAY_READ else 0) |||
    (if oflags &&& (SFS_O_WRITE ||| SFS_O_TRUNC) ≠ 0 then SFS_MAY_WRITE else 0)

/-- The test of `sfs_open_as` on the type of the inode. -/
def openType (mode oflags : Nat) : Option Code :=
  if mode / 0x1000 % 16 = 10 then some (.fs .notSup)
  else if mode / 0x1000 % 16 = 4 then
    if oflags &&& (SFS_O_WRITE ||| SFS_O_TRUNC) ≠ 0 then some (.fs .isDir) else none
  else if oflags &&& SFS_O_DIRECTORY ≠ 0 then some (.fs .notDir)
  else none

/-- `sfs_open_as` of a name that is there. -/
def openFound (v : Vol) (env : AsEnv) (c : Cred) (ino : Ino) (oflags : Nat) :
    Except Code Ino × Vol :=
  let checked : Reads Stat := do
    v.demand (if oflags &&& SFS_O_CREATE ≠ 0 ∧ oflags &&& SFS_O_EXCL ≠ 0 then some (.fs .exist)
      else none)
    let st ← sfsStat v ino (env.fault .victim)
    v.demand (openType st.mode oflags)
    v.demand (sfsPermissionSt c st (openMask oflags))
    v.demand (if openMask oflags &&& SFS_MAY_WRITE ≠ 0 ∧ v.ro then some (.fs .roFs) else none)
    return st
  match checked with
  | .error (rc, v) => (.error rc, v)
  | .ok st =>
    if oflags &&& SFS_O_TRUNC ≠ 0 ∧ st.mode / 0x1000 % 16 = 8 ∧ st.size ≠ 0 then
      resultOf ino (truncateFile v env ino)
    else (.ok ino, v)

/-- The checks of `sfs_open_as` before it creates a file. -/
def openNew (v : Vol) (c : Cred) (dst : Stat) (oflags : Nat) : Reads Unit := do
  v.demand (if oflags &&& SFS_O_DIRECTORY ≠ 0 then some (.fs .inval) else none)
  v.demand (sfsPermissionSt c dst (SFS_MAY_WRITE ||| SFS_MAY_EXEC))
  v.demand (if v.ro then some (.fs .roFs) else none)

def sfsOpenAs (v : Vol) (env : AsEnv) (c : Cred) (dir : Ino) (name : Name) (oflags mode : Nat) :
    Except Code Ino × Vol :=
  if oflags > 0x3F then (.error (.fs .inval), v)
  else
    match dirCheck v (env.fault .dirStat) c dir false with
    | .error (rc, v) => (.error rc, v)
    | .ok dst =>
      match sfsLookup v dir name (env.fault .getDir) (env.fault .lookup) with
      | .ok ino => openFound v env c ino oflags
      | .error (rc, v) =>
        if rc = .fs .noEnt ∧ oflags &&& SFS_O_CREATE ≠ 0 then
          match openNew v c dst oflags with
          | .error (rc, v) => (.error rc, v)
          | .ok () => createOwned v env c dir dst name mode false
        else (.error rc, v)

def sfsMkdirAs (v : Vol) (env : AsEnv) (c : Cred) (dir : Ino) (name : Name) (mode : Nat) :
    Except Code Ino × Vol :=
  match dirCheck v (env.fault .dirStat) c dir true with
  | .error (rc, v) => (.error rc, v)
  | .ok dst =>
    match sfsLookup v dir name (env.fault .getDir) (env.fault .lookup) with
    | .ok _ => (.error (.fs .exist), v)
    | .error (rc, v) =>
      if rc ≠ .fs .noEnt then (.error rc, v)
      else if v.ro then (.error (.fs .roFs), v)
      else createOwned v env c dir dst name mode true

/-! ### Removal and renaming -/

/-- `may_delete`: the directory and the victim. -/
def mayDelete (v : Vol) (env : AsEnv) (c : Cred) (dir : Ino) (name : Name) : Reads (Stat × Stat) := do
  let dst ← dirCheck v (env.fault .dirStat) c dir true
  let ino ← sfsLookup v dir name (env.fault .getDir) (env.fault .lookup)
  let vst ← sfsStat v ino (env.fault .victim)
  v.demand (stickyOk c dst vst)
  return (dst, vst)

/-- An update of the core that leaves the owners alone, behind its checks. -/
def Vol.checked {α : Type} (v : Vol) (r : Reads α) (update : Fs → Option Err × Fs) :
    Option Code × Vol :=
  match r with
  | .error (rc, v) => (some rc, v)
  | .ok _ => ((update v.toFs).1.map .fs, { v with toFs := (update v.toFs).2 })

def sfsUnlinkAs (v : Vol) (env : AsEnv) (c : Cred) (dir : Ino) (name : Name) : Option Code × Vol :=
  v.checked (mayDelete v env c dir name) (fun s => sfsUnlink s env.inner dir name)

def sfsRmdirAs (v : Vol) (env : AsEnv) (c : Cred) (dir : Ino) (name : Name) : Option Code × Vol :=
  v.checked (mayDelete v env c dir name) (fun s => sfsRmdir s env.inner dir name)

/-- The test of `sfs_rename_as` on the name that the entry is to get. -/
def mayReplace (v : Vol) (env : AsEnv) (c : Cred) (ndir : Ino) (nname : Name) (ndst : Stat)
    (replace : Bool) : Reads Unit :=
  match sfsLookup v ndir nname (env.fault .getDir') (env.fault .lookup') with
  | .error (rc, v) => if rc = .fs .noEnt then .ok () else .error (rc, v)
  | .ok tino => do
    v.demand (if replace then none else some (.fs .exist))
    let tst ← sfsStat v tino (env.fault .victim')
    v.demand (stickyOk c ndst tst)

/-- The checks of `sfs_rename_as`. -/
def mayRename (v : Vol) (env : AsEnv) (c : Cred) (odir : Ino) (oname : Name) (ndir : Ino)
    (nname : Name) (replace : Bool) : Reads Unit := do
  let (_, sst) ← mayDelete v env c odir oname
  let ndst ← dirCheck v (env.fault .dirStat') c ndir true
  mayReplace v env c ndir nname ndst replace
  -- a directory moved to another parent gets its `..` rewritten
  v.demand (if isDirMode sst.mode ∧ odir ≠ ndir then sfsPermissionSt c sst SFS_MAY_WRITE else none)

def sfsRenameAs (v : Vol) (env : AsEnv) (c : Cred) (odir : Ino) (oname : Name) (ndir : Ino)
    (nname : Name) (replace : Bool) : Option Code × Vol :=
  v.checked (mayRename v env c odir oname ndir nname replace)
    (fun s => sfsRename s env.inner odir oname ndir nname replace)

/-! ### Modes and owners -/

/-- The checks of `sfs_chmod_as`. -/
def mayChmod (v : Vol) (env : AsEnv) (c : Cred) (i : Ino) : Reads Stat := do
  v.demand (sfsCredCheck c)
  let st ← sfsStat v i (env.fault .victim)
  v.demand (if c.uid ≠ st.uid ∧ c.caps &&& SFS_CAP_FOWNER = 0 then some .perm else none)
  return st

/-- The permission bits that `sfs_chmod_as` stores. -/
def chmodPerm (c : Cred) (st : Stat) (mode : Nat) : Nat :=
  let perm := mode &&& 0o7777
  if perm &&& S_ISGID ≠ 0 ∧ ¬sfsCredInGroup c st.gid ∧ c.caps &&& SFS_CAP_FSETID = 0 then
    perm &&& (0xFFFF ^^^ S_ISGID)
  else perm

def sfsChmodAs (v : Vol) (env : AsEnv) (c : Cred) (i : Ino) (mode : Nat) : Option Code × Vol :=
  match mayChmod v env c i with
  | .error (rc, v) => (some rc, v)
  | .ok st =>
    let r := dataUpdate v.toFs env.inner i (chmodPerm c st mode) (v.nblocks i) (v.runs i) none
    (r.1.map .fs, { v with toFs := r.2 })

/-- The checks of `sfs_chown_as`. -/
def mayChown (v : Vol) (env : AsEnv) (c : Cred) (i uid gid : Nat) : Reads Stat := do
  v.demand (sfsCredCheck c)
  let st ← sfsStat v i (env.fault .victim)
  let nuid := if uid = SFS_ID_KEEP then st.uid else uid
  let ngid := if gid = SFS_ID_KEEP then st.gid else gid
  v.demand
    (if c.caps &&& SFS_CAP_CHOWN ≠ 0 then none
    else if c.uid ≠ st.uid ∨ nuid ≠ st.uid then some .perm
    else if ngid ≠ st.gid ∧ ¬sfsCredInGroup c ngid then some .perm
    else none)
  return st

/-- The permission bits that `sfs_chown_as` stores. -/
def chownPerm (st : Stat) : Nat :=
  let perm := st.mode &&& 0o7777
  if isDirMode st.mode then perm
  else
    let perm := perm &&& (0xFFFF ^^^ S_ISUID)
    if perm &&& 0o10 ≠ 0 then perm &&& (0xFFFF ^^^ S_ISGID) else perm

def sfsChownAs (v : Vol) (env : AsEnv) (c : Cred) (i uid gid : Nat) : Option Code × Vol :=
  match mayChown v env c i uid gid with
  | .error (rc, v) => (some rc, v)
  | .ok st =>
    let nuid := if uid = SFS_ID_KEEP then st.uid else uid
    let ngid := if gid = SFS_ID_KEEP then st.gid else gid
    let r := sfsSetOwner v env.inner i nuid ngid (chownPerm st) (env.fault .own)
    (r.1.map .fs, r.2)

/-! ### Calls -/

inductive AsCall
  | openAs (dir : Ino) (name : Name) (oflags mode : Nat)
  | mkdir (dir : Ino) (name : Name) (mode : Nat)
  | unlink (dir : Ino) (name : Name)
  | rmdir (dir : Ino) (name : Name)
  | rename (odir : Ino) (oname : Name) (ndir : Ino) (nname : Name) (replace : Bool)
  | chmod (i : Ino) (mode : Nat)
  | chown (i : Ino) (uid gid : Nat)

/-- The code of a call that gives an inode. -/
def codeOf : Except Code Ino → Option Code
  | .error rc => some rc
  | .ok _ => none

/-- One call of the credential `c`: its code and the volume after it. -/
def stepAs (v : Vol) (env : AsEnv) (c : Cred) : AsCall → Option Code × Vol
  | .openAs dir name oflags mode =>
    let r := sfsOpenAs v env c dir name oflags mode
    (codeOf r.1, r.2)
  | .mkdir dir name mode =>
    let r := sfsMkdirAs v env c dir name mode
    (codeOf r.1, r.2)
  | .unlink dir name => sfsUnlinkAs v env c dir name
  | .rmdir dir name => sfsRmdirAs v env c dir name
  | .rename odir oname ndir nname replace => sfsRenameAs v env c odir oname ndir nname replace
  | .chmod i mode => sfsChmodAs v env c i mode
  | .chown i uid gid => sfsChownAs v env c i uid gid

/-! ### Commits -/

/-- A mounted volume, and what its last commit has written. -/
structure Mount where
  vol : Vol
  disk : Vol

/-- What can be read of it: an aborted volume has to be mounted again. -/
def Mount.shown (m : Mount) : Vol := if m.vol.dead then m.disk else m.vol

/-- A call with its commits: whether the transaction is written at its end, and for a
commit in its midst (the end of an inner operation, `sfs_safe_point`) how the call would
turn out if it were cut off there. -/
structure MountEnv extends AsEnv where
  commits : Bool
  midway : Option AsEnv

/-- One call of `c`: its code, the volume and the disk after it. -/
def Mount.step (m : Mount) (env : MountEnv) (c : Cred) (call : AsCall) : Option Code × Mount :=
  let (rc, v) := stepAs m.vol env.toAsEnv c call
  let disk :=
    if m.vol.dead then m.disk
    else if env.commits ∧ ¬v.dead then v
    else match env.midway with
      | some cut => (stepAs m.vol cut c call).2
      | none => m.disk
  (rc, ⟨v, disk⟩)

def Mount.run (m : Mount) (c : Cred) (calls : List (MountEnv × AsCall)) : Mount :=
  calls.foldl (fun m call => (m.step call.1 c call.2).2) m

end Win98Modern.Libsfs
