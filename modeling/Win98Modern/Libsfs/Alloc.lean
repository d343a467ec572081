import Win98Modern.Lib.Bits
import Win98Modern.Libsfs.Basic

/-!
# Block allocation

The block allocator (`libsfs/sfs_alloc.c`) with what it uses of `sfs_super.c`:
group descriptors, bitmaps that are computed on first use, preallocation windows
and frees that wait for the commit.

Bitmaps are functions from bits to values, one for each group; the
descriptor fields that never change stand in `Geo`.  `Env` says which accesses to
storage fail: reading a descriptor or a bitmap with any code (`ECORRUPT` also for
a checksum that does not match), writing a descriptor that was read before with a
code on which `sfs_op_end` aborts.  The revoke records of freed metadata, the
checksums and the hint group of allocations without an inode are left out.
-/

namespace Win98Modern.Libsfs.Alloc

open Function

def EXT_INIT_MAX_LEN : Nat := 32768
def PA_MAX : Nat := 48
def RUNS_PER_PAGE : Nat := 250

/-! ### Geometry -/

/-- The layout of the volume, from the superblock and the group descriptors. -/
structure Geo where
  firstDataBlock : Nat
  nblocks : Nat
  bpg : Nat
  itableBlocks : Nat
  logGroupsPerFlex : Nat
  sparse : Bool
  sparse2 : Bool
  backupBgs : Nat × Nat
  metaBg : Bool
  firstMetaBg : Nat
  descPerBlock : Nat
  gdtBlocks : Nat
  reservedGdt : Nat
  blockBitmap : Nat → Nat
  inodeBitmap : Nat → Nat
  inodeTable : Nat → Nat
  bpg_pos : 0 < bpg
  nblocks_gt : firstDataBlock < nblocks

section

variable (geo : Geo)

def Geo.ngroups : Nat := (geo.nblocks - geo.firstDataBlock + geo.bpg - 1) / geo.bpg

/-- `sfs_group_first_block`. -/
def Geo.groupFirst (g : Nat) : Nat := geo.firstDataBlock + g * geo.bpg

/-- `sfs_group_block_count`. -/
def Geo.groupCount (g : Nat) : Nat :=
  if g + 1 < geo.ngroups then geo.bpg else geo.nblocks - geo.groupFirst g

/-- `sfs_group_of_block`. -/
def Geo.groupOf (blk : Nat) : Nat := (blk - geo.firstDataBlock) / geo.bpg

def Geo.blockValid (blk : Nat) : Bool := geo.firstDataBlock ≤ blk ∧ blk < geo.nblocks

def Geo.rangeValid (blk n : Nat) : Bool :=
  geo.firstDataBlock ≤ blk ∧ n ≤ geo.nblocks ∧ blk ≤ geo.nblocks - n

/-- The loop of `is_power_of`. -/
def isPowerOf (b : Nat) : Nat → Nat → Bool
  | 0, n => n = 1
  | fuel + 1, n => if n > 1 ∧ n % b = 0 then isPowerOf b fuel (n / b) else n = 1

def Geo.groupHasSuper (g : Nat) : Bool :=
  if g = 0 then true
  else if geo.sparse2 then g = geo.backupBgs.1 ∨ g = geo.backupBgs.2
  else if g ≤ 1 ∨ ¬geo.sparse then true
  else if g % 2 = 0 then false
  else isPowerOf 3 g g || isPowerOf 5 g g || isPowerOf 7 g g

/-- The blocks at the head of the group for the superblock copy and descriptors. -/
def Geo.groupSuperBlocks (g : Nat) : Nat :=
  let hs := geo.groupHasSuper g
  let n := if hs then 1 else 0
  if ¬geo.metaBg ∨ g / geo.descPerBlock < geo.firstMetaBg then
    if hs then n + (if geo.metaBg then geo.firstMetaBg else geo.gdtBlocks) + geo.reservedGdt else n
  else
    let r := g % geo.descPerBlock
    if r = 0 ∨ r = 1 ∨ r = geo.descPerBlock - 1 then n + 1 else n

/-- The block holds metadata that the descriptor of group `h` names. -/
def Geo.tableOf (h blk : Nat) : Bool :=
  blk = geo.blockBitmap h ∨ blk = geo.inodeBitmap h ∨
    (geo.inodeTable h ≤ blk ∧ blk < geo.inodeTable h + geo.itableBlocks)

/-- The bitmap that `sfs_block_bitmap` computes for a group never initialised. -/
def Geo.computed (g : Nat) : Nat → Bool := fun i =>
  i < geo.groupSuperBlocks g || geo.tableOf g (geo.groupFirst g + i) || geo.groupCount g ≤ i

/-- Fixed metadata: superblocks and descriptors, bitmaps, inode tables. -/
def Geo.Fixed (blk : Nat) : Prop :=
  (∃ g < geo.ngroups, geo.groupFirst g ≤ blk ∧ blk < geo.groupFirst g + geo.groupSuperBlocks g) ∨
    ∃ h < geo.ngroups, geo.tableOf h blk = true

end

/-! ### The volume -/

/-- A group: the free count and flag of its descriptor, and its bitmap. -/
structure Group where
  free : Nat
  /-- `BG_BLOCK_UNINIT`. -/
  uninit : Bool
  bits : Nat → Bool
  /-- The buffer of the bitmap belongs to the running transaction. -/
  pinned : Bool

/-- A preallocation window. -/
structure Pa where
  ino : Nat
  lblk : Nat
  pblk : Nat
  len : Nat
  age : Nat
  deriving DecidableEq, Repr

/-- A run of blocks that waits to be freed. -/
structure Run where
  start : Nat
  len : Nat
  metadata : Bool
  deriving DecidableEq, Repr

structure Fs where
  geo : Geo
  naive : Bool
  groups : Nat → Group
  freeBlocks : Nat
  pa : Nat → Pa
  clock : Nat
  /-- `txn.frees`, page by page. -/
  frees : List (List Run)
  dead : Bool

/-- The inode that asks for blocks. -/
structure Inode where
  ino : Nat
  isReg : Bool
  nblocks : Nat
  ino_pos : 0 < ino

/-- The accesses of one call. -/
inductive Site
  | window | search (pass g i : Nat) | ahead | hits (g h : Nat) | apply (k blk : Nat)
  deriving DecidableEq, Repr

/-- A failed access; `ENOSPC` is no failure of one. -/
structure Fault where
  err : Err
  real : err ≠ .noSpc

/-- How the accesses of one call turn out. -/
structure Env where
  gdRead : Site → Option Fault
  bitmap : Site → Option Fault
  gdWrite : Site → Bool
  noMem : Bool
  noMemRevoke : Bool
  /-- A commit that fails after the frees were applied. -/
  commit : Bool

/-- `sfs_block_bitmap`; `f` is the fault of its reading. -/
def blockBitmap (s : Fs) (g : Nat) (f : Option Fault) : Except Err (Nat → Bool) :=
  if (s.groups g).uninit ∧ ¬(s.groups g).pinned then
    match f with
    | some f => .error f.err
    | none =>
      let cnt := s.geo.groupCount g
      if zeros (s.geo.computed g) cnt ≠ (s.groups g).free then .error .corrupt
      else .ok (s.geo.computed g)
  else
    match f with
    | some f => .error f.err
    | none => .ok (s.groups g).bits

def findZero (map : Nat → Bool) (start limit : Nat) : Nat := findBit (fun i => !map i) start limit

def findOne (map : Nat → Bool) (start limit : Nat) : Nat := findBit map start limit

/-! ### Preallocation windows -/

/-- `pa_of`: the slot of the inode's window. -/
def paOf (s : Fs) (ino : Nat) : Option Nat :=
  (List.range PA_MAX).find? (fun i => (s.pa i).len ≠ 0 ∧ (s.pa i).ino = ino)

/-- Empties the window in a slot. -/
def Fs.drop (s : Fs) (i : Nat) : Fs :=
  { s with pa := update s.pa i { s.pa i with len := 0 } }

def paRelease (s : Fs) (ino : Nat) : Fs :=
  match paOf s ino with
  | some i => s.drop i
  | none => s

/-- The window meets the blocks `[start, start + n)`. -/
def Pa.meets (w : Pa) (start n : Nat) : Bool :=
  w.len ≠ 0 ∧ w.pblk < start + n ∧ start < w.pblk + w.len

/-- One round of the loop of `pa_conflict`. -/
def conflictStep (s : Fs) (ino start n : Nat) (acc : Option (Nat × Nat)) (i : Nat) :
    Option (Nat × Nat) :=
  let w := s.pa i
  if w.ino ≠ ino ∧ w.meets start n then
    match acc with
    | none => some (w.pblk, w.pblk + w.len)
    | some (ws, we) => if w.pblk < ws then some (w.pblk, w.pblk + w.len) else some (ws, we)
  else acc

/-- `pa_conflict`: start and end of the first window of another inode that meets
the blocks. -/
def paConflict (s : Fs) (ino start n : Nat) : Option (Nat × Nat) :=
  (List.range PA_MAX).foldl (conflictStep s ino start n) none

def paDropOverlap (s : Fs) (start n : Nat) : Fs :=
  { s with pa := fun i =>
      if i < PA_MAX ∧ (s.pa i).meets start n then { s.pa i with len := 0 } else s.pa i }

/-- The slot that `pa_set` takes: the first empty one, else the oldest. -/
def paVictim (s : Fs) : List Nat → Nat → Nat
  | [], v => v
  | i :: rest, v =>
    if (s.pa i).len = 0 then i else paVictim s rest (if (s.pa i).age < (s.pa v).age then i else v)

def paSet (s : Fs) (ino lblk pblk len : Nat) : Fs :=
  let i := match paOf s ino with
    | some i => i
    | none => paVictim s (List.range PA_MAX) 0
  { s with pa := update s.pa i ⟨ino, lblk, pblk, len, s.clock + 1⟩, clock := s.clock + 1 }

/-! ### Allocation -/

/-- `take_run` on the bitmap `map` of group `g`. -/
def takeRun (s : Fs) (g : Nat) (map : Nat → Bool) (bit n : Nat) (fails : Bool) : Option Err × Fs :=
  let grp := { s.groups g with bits := setRange map true bit n, pinned := true }
  if fails then
    (some .io, { s with groups := update s.groups g grp,
                        freeBlocks := s.freeBlocks - n, dead := true })
  else
    (none, { s with
      groups := update s.groups g { grp with free := grp.free - n, uninit := false },
      freeBlocks := s.freeBlocks - n })

/-- The loop of `search_group`: the bits to take. -/
def searchLoop (s : Fs) (ino first : Nat) (map : Nat → Bool) (cnt want : Nat) (strict : Bool) :
    Nat → Nat → Option (Nat × Nat)
  | 0, _ => none
  | fuel + 1, bit =>
    if bit < cnt then
      let z := findZero map bit cnt
      if z ≥ cnt then none
      else
        let lim := if z + want < cnt then z + want else cnt
        let e := findOne map z lim
        match if strict then paConflict s ino (first + z) (e - z) else none with
        | some (ws, we) =>
          if ws > first + z then some (z, ws - first)
          else searchLoop s ino first map cnt want strict fuel (we - first)
        | none => some (z, e)
    else none

/-- `search_group`; `site` names its accesses. -/
def searchGroup (s : Fs) (env : Env) (site : Site) (ino g start want : Nat) (strict : Bool) :
    Except Err (Nat × Nat) × Fs :=
  match env.gdRead site with
  | some f => (.error f.err, s)
  | none =>
    if (s.groups g).free = 0 then (.error .noSpc, s)
    else
      match blockBitmap s g (env.bitmap site) with
      | .error .corrupt => (.error .noSpc, s)
      | .error e => (.error e, s)
      | .ok map =>
        let first := s.geo.groupFirst g
        let cnt := s.geo.groupCount g
        match searchLoop s ino first map cnt want strict (cnt + 1) (if start < cnt then start else 0)
          with
        | none => (.error .noSpc, s)
        | some (z, e) =>
          let s := if strict then s else paDropOverlap s (first + z) (e - z)
          match takeRun s g map z (e - z) (env.gdWrite site) with
          | (some err, s) => (.error err, s)
          | (none, s) => (.ok (first + z, e - z), s)

/-- Goes on after `ENOSPC`, else returns what there is. -/
def orNext (r next : Except Err (Nat × Nat) × Fs) : Except Err (Nat × Nat) × Fs :=
  match r with
  | (.error .noSpc, _) => next
  | r => r

/-- One pass of `alloc_search` over the groups, `n` of them left. -/
def searchGroups (s : Fs) (env : Env) (pass ino g0 goalOff want : Nat) (strict : Bool) :
    Nat → Nat → Except Err (Nat × Nat) × Fs
  | 0, _ => (.error .noSpc, s)
  | n + 1, i =>
    if i = s.geo.ngroups ∧ goalOff = 0 then (.error .noSpc, s)
    else
      orNext (searchGroup s env (.search pass ((g0 + i) % s.geo.ngroups) i) ino
        ((g0 + i) % s.geo.ngroups) (if i = 0 then goalOff else 0) want strict)
        (searchGroups s env pass ino g0 goalOff want strict n (i + 1))

def allocSearch (s : Fs) (env : Env) (ino goal want : Nat) : Except Err (Nat × Nat) × Fs :=
  let goal := if s.geo.blockValid goal then goal else s.geo.firstDataBlock
  let g0 := s.geo.groupOf goal
  let goalOff := goal - s.geo.groupFirst g0
  orNext (searchGroups s env 0 ino g0 goalOff want (!s.naive) (s.geo.ngroups + 1) 0)
    (searchGroups s env 1 ino g0 goalOff want false (s.geo.ngroups + 1) 0)

/-- The end of `sfs_alloc_blocks`: the free run behind the blocks just taken is
reserved for the inode. -/
def reserveAhead (s : Fs) (env : Env) (inode : Inode) (lblk start got : Nat) : Fs :=
  if s.naive ∨ ¬inode.isReg ∨ (paOf s inode.ino).isSome then s
  else
    let nb := start + got
    let sizeBlocks := min (inode.nblocks + got) 0x7FFFFFFF
    let wlen := if sizeBlocks < 32 then 32 else if sizeBlocks > 2048 then 2048 else sizeBlocks
    if nb < s.geo.nblocks then
      let g := s.geo.groupOf nb
      let first := s.geo.groupFirst g
      match env.gdRead .ahead with
      | some _ => s
      | none =>
        if (s.groups g).free = 0 then s
        else
          match blockBitmap s g (env.bitmap .ahead) with
          | .error _ => s
          | .ok map =>
            let bit := nb - first
            let cnt := s.geo.groupCount g
            let lim := if bit + wlen < cnt then bit + wlen else cnt
            let e := findOne map bit lim
            let e :=
              if e > bit then
                match paConflict s inode.ino nb (e - bit) with
                | some (ws, _) => if ws > nb then ws - first else bit
                | none => e
              else e
            if e > bit then paSet s inode.ino (lblk + got) nb (e - bit) else s
    else s

/-- The front of the inode's own window in slot `i`: the blocks taken, `none` when
the window is of no use, or the failure. -/
def takeWindow (s : Fs) (env : Env) (i want : Nat) : Except Err (Option (Nat × Nat)) × Fs :=
  let w := s.pa i
  let g := s.geo.groupOf w.pblk
  let first := s.geo.groupFirst g
  let bit := w.pblk - first
  let cnt := s.geo.groupCount g
  match env.gdRead .window with
  | some f => if f.err = .corrupt then (.ok none, s.drop i) else (.error f.err, s)
  | none =>
    match blockBitmap s g (env.bitmap .window) with
    | .error .corrupt => (.ok none, s.drop i)
    | .error e => (.error e, s)
    | .ok map =>
      let lim := if bit + min want w.len > cnt then cnt else bit + min want w.len
      let e := findOne map bit lim
      if e > bit then
        match takeRun s g map bit (e - bit) (env.gdWrite .window) with
        | (some err, s) => (.error err, s)
        | (none, s) =>
          let got := e - bit
          (.ok (some (w.pblk, got)), { s with
            pa := update s.pa i
              ⟨w.ino, w.lblk + got, w.pblk + got, w.len - got, s.clock + 1⟩
            clock := s.clock + 1 })
      else (.ok none, s.drop i)

/-- `sfs_alloc_blocks` up to its label `done`. -/
def allocRun (s : Fs) (env : Env) (inode : Option Inode) (lblk goal want : Nat) :
    Except Err (Nat × Nat) × Fs :=
  let ino := (inode.map Inode.ino).getD 0
  match if inode.isSome ∧ ¬s.naive then paOf s ino else none with
  | none => allocSearch s env ino goal want
  | some i =>
    if (s.pa i).lblk = lblk then
      match takeWindow s env i want with
      | (.error e, s) => (.error e, s)
      | (.ok (some r), s) => (.ok r, s)
      | (.ok none, s) => allocSearch s env ino goal want
    else allocSearch (s.drop i) env ino goal want

def allocBlocks (s : Fs) (env : Env) (inode : Option Inode) (lblk goal want : Nat) :
    Except Err (Nat × Nat) × Fs :=
  if want = 0 then (.error .inval, s)
  else if s.freeBlocks = 0 then (.error .noSpc, s)
  else
    match allocRun s env inode lblk goal (min want EXT_INIT_MAX_LEN) with
    | (.error e, s) => (.error e, s)
    | (.ok (start, got), s) =>
      (.ok (start, got), match inode with
        | some inode => reserveAhead s env inode lblk start got
        | none => s)

def allocMetaBlock (s : Fs) (env : Env) (goal : Nat) : Except Err (Nat × Nat) × Fs :=
  if s.freeBlocks = 0 then (.error .noSpc, s) else allocSearch s env 0 goal 1

/-! ### Freeing -/

def runpageAdd (pages : List (List Run)) (r : Run) : List (List Run) :=
  match pages with
  | [] => [[r]]
  | p :: ps =>
    match p.getLast? with
    | none => [r] :: ps
    | some l =>
      if l.metadata = r.metadata ∧ l.start + l.len = r.start ∧ l.len + r.len ≤ 0x7FFFFFFF then
        (p.dropLast ++ [{ l with len := l.len + r.len }]) :: ps
      else if p.length = RUNS_PER_PAGE then [r] :: p :: ps
      else (p ++ [r]) :: ps

def Geo.flexGroups (geo : Geo) (g : Nat) : Nat × Nat :=
  if geo.logGroupsPerFlex ≠ 0 ∧ geo.logGroupsPerFlex < 31 then
    let per := 2 ^ geo.logGroupsPerFlex
    (g - g % per, min (g - g % per + per) geo.ngroups)
  else (g, min (g + 1) geo.ngroups)

/-- The tables of group `h` meet the blocks `[start, stop)`. -/
def Geo.tableMeets (geo : Geo) (h start stop : Nat) : Bool :=
  (geo.blockBitmap h ≥ start ∧ geo.blockBitmap h < stop) ∨
    (geo.inodeBitmap h ≥ start ∧ geo.inodeBitmap h < stop) ∨
    (geo.inodeTable h < stop ∧ start < geo.inodeTable h + geo.itableBlocks)

def runHitsMeta (s : Fs) (env : Env) (start count : Nat) : Bool :=
  let stop := start + count
  let g0 := s.geo.groupOf start
  let gl := s.geo.groupOf (start + count - 1)
  (List.range' g0 (gl + 1 - g0)).any fun g =>
    let nsb := s.geo.groupSuperBlocks g
    (nsb ≠ 0 ∧ start < s.geo.groupFirst g + nsb ∧ stop > s.geo.groupFirst g) ||
      let (h0, h1) := s.geo.flexGroups g
      (List.range' h0 (h1 - h0)).any fun h =>
        (env.gdRead (.hits g h)).isSome || s.geo.tableMeets h start stop

def freeBlocks (s : Fs) (env : Env) (start count : Nat) (metadata : Bool) : Option Err × Fs :=
  if count = 0 then (none, s)
  else if ¬s.geo.rangeValid start count ∨ runHitsMeta s env start count then (some .corrupt, s)
  else if env.noMem then (some .noMem, s)
  else (if metadata ∧ env.noMemRevoke then some .noMem else none,
    { s with frees := runpageAdd s.frees ⟨start, count, metadata⟩ })

/-- The run `[b, b + n)` in `sfs_apply_pending_frees`, group by group; `none` when
it fails. -/
def applyRun (env : Env) (k : Nat) : Nat → Nat → Nat → Fs → Option Fs
  | 0, _, _, s => some s
  | fuel + 1, b, n, s =>
    if n = 0 then some s
    else
      let g := s.geo.groupOf b
      let first := s.geo.groupFirst g
      let off := b - first
      let len := min n (s.geo.groupCount g - off)
      match env.gdRead (.apply k b) with
      | some _ => none
      | none =>
        match blockBitmap s g (env.bitmap (.apply k b)) with
        | .error _ => none
        | .ok map =>
          -- `clear_bits` counts the bits that were clear already
          if Nat.count (fun i => map (off + i) = false) len ≠ 0 ∨ env.gdWrite (.apply k b) then none
          else
            let grp := { s.groups g with
              free := (s.groups g).free + len, bits := setRange map false off len, pinned := true }
            applyRun env k fuel (b + len) (n - len)
              { s with groups := update s.groups g grp, freeBlocks := s.freeBlocks + len }

/-- The runs of `sfs_apply_pending_frees`, numbered from `k` on. -/
def applyRuns (env : Env) : Nat → List Run → Fs → Option Fs
  | _, [], s => some s
  | k, r :: rest, s =>
    match applyRun env k r.len r.start r.len s with
    | none => none
    | some s => applyRuns env (k + 1) rest s

/-- `sfs_commit` as far as allocation goes: a commit that fails aborts the volume. -/
def commit (s : Fs) (env : Env) : Fs :=
  match applyRuns env 0 s.frees.flatten s with
  | none => { s with dead := true, frees := [] }
  | some s =>
    if env.commit then { s with dead := true, frees := [] }
    else { s with
      frees := []
      groups := fun g => { s.groups g with pinned := false } }

/-! ### Calls -/

/-- What the rest of the library asks of the allocator. -/
inductive Call
  | alloc (inode : Option Inode) (lblk goal want : Nat)
  | allocMeta (goal : Nat)
  | free (start count : Nat) (metadata : Bool)
  | release (ino : Nat)
  | commit

/-- An aborted volume is left alone. -/
def step (s : Fs) (env : Env) (c : Call) : Fs :=
  if s.dead then s
  else
    match c with
    | .alloc inode lblk goal want => (allocBlocks s env inode lblk goal want).2
    | .allocMeta goal => (allocMetaBlock s env goal).2
    | .free start count metadata => (freeBlocks s env start count metadata).2
    | .release ino => paRelease s ino
    | .commit => commit s env

def run (s : Fs) (calls : List (Env × Call)) : Fs := calls.foldl (fun s c => step s c.1 c.2) s

end Win98Modern.Libsfs.Alloc
