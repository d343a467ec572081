import Win98Modern.Lib.Runs
import Win98Modern.Libsfs.Namespace
import Mathlib.Algebra.GroupWithZero.Nat
import Mathlib.Logic.Function.Basic

/-!
# `.` and `..` of linear and of indexed directories

The directories of an extent-mapped volume (`libsfs/sfs_dir.c`) with the calls of `sfs_api.c` that
change them.  A directory is linear, a list of leaf blocks, or indexed, with a root in block 0 that
names `.` and `..` and leaves that the hash of a name leads to.  `find_entry` searches the leaves of
an indexed directory only: `dots_resolve` is about the runs in which no directory is converted, and
`indexed_loses_dotdot` about one in which a fourth long name converts it.

The device does not fail; an allocation may.  Entry types, link counts and time stamps are left
out.  The hash of a name and what `dx_add` does when
a leaf is full are parameters: no result depends on them.
-/

namespace Win98Modern.Libsfs.Dotdot

open Function

def dot : Name := [46]
def dotdot : Name := [46, 46]

structure Rec where
  ino : Ino
  name : Name
  recLen : Nat

/-- The entries of a dx block: the hash and the block; the first has no hash. -/
abbrev Index := List (Nat × Nat)

inductive Block
  | leaf (recs : List Rec)
  | root (self parent levels : Nat) (index : Index)
  | node (index : Index)

structure Dir where
  extents : Bool
  /-- `IFL_INDEX`. -/
  index : Bool
  blocks : List Block

/-- The mounted volume: the superblock, the mount flags and the parameters. -/
structure Volume where
  bs : Nat
  csum : Bool
  dirIndex : Bool
  largedir : Bool
  naive : Bool
  inodesCount : Nat
  dxHash : Name → Except Err Nat
  dxGrow : Dir → Name → Ino → Option Err × Dir

def recMin (len : Nat) : Nat := (8 + len + 3) / 4 * 4

/-! ### Leaf blocks -/

def leafFind (name : Name) : List Rec → Option (Nat × Rec)
  | [] => none
  | r :: rs =>
    if r.ino ≠ 0 ∧ r.name = name then some (0, r)
    else (leafFind name rs).map fun p => (p.1 + 1, p.2)

def Rec.used (r : Rec) : Nat := if r.ino ≠ 0 then recMin r.name.length else 0

def leafInsert (name : Name) (ino : Ino) : List Rec → Option (List Rec)
  | [] => none
  | r :: rs =>
    if r.used + recMin name.length ≤ r.recLen then
      if r.used ≠ 0 then
        some ({ r with recLen := r.used } :: ⟨ino, name, r.recLen - r.used⟩ :: rs)
      else some (⟨ino, name, r.recLen⟩ :: rs)
    else (leafInsert name ino rs).map (r :: ·)

/-- The end of `sfs_dir_remove`: the record joins the one before it. -/
def leafRemove (rs : List Rec) : Nat → List Rec
  | 0 => rs.modify 0 fun r => { r with ino := 0 }
  | k + 1 =>
    (rs.modify k fun r => { r with recLen := r.recLen + (rs[k + 1]?.elim 0 Rec.recLen) }).eraseIdx (k + 1)

def leafBuild (limit : Nat) : List Rec → List Rec
  | [] => [⟨0, [], limit⟩]
  | [r] => [{ r with recLen := limit }]
  | r :: rs =>
    { r with recLen := recMin r.name.length } :: leafBuild (limit - recMin r.name.length) rs

def Block.onLeaf (f : List Rec → List Rec) : Block → Block
  | .leaf rs => .leaf (f rs)
  | b => b

def Dir.onLeaf (d : Dir) (b : Nat) (f : List Rec → List Rec) : Dir :=
  { d with blocks := d.blocks.modify b (·.onLeaf f) }

def Dir.leafAt (d : Dir) (b : Nat) : Except Err (List Rec) :=
  match d.blocks[b]? with
  | some (.leaf rs) => .ok rs
  | _ => .error .corrupt

namespace Volume

variable (V : Volume)

def leafLimit : Nat := if V.csum then V.bs - 12 else V.bs
def inoValid (i : Ino) : Bool := 1 ≤ i ∧ i ≤ V.inodesCount
def isIndexed (d : Dir) : Bool := V.dirIndex && d.index

/-- `dir_append`; `e` is how the allocation ends. -/
def dirAppend (e : Option Err) (d : Dir) (b : Block) : Option Err × Dir :=
  if !d.extents then (some .notSup, d)
  else if 0xFFFFFFFF ≤ d.blocks.length ∨ (!V.largedir ∧ 0x80000000 ≤ d.blocks.length * V.bs) then
    (some .noSpc, d)
  else
    match e with
    | some e => (some e, d)
    | none => (none, { d with blocks := d.blocks ++ [b] })

end Volume

/-! ### The index -/

/-- A dx block on the way to a leaf, with the entry taken; lists of frames begin with the deepest. -/
structure Frame where
  index : Index
  entry : Nat

def Frame.blk (f : Frame) : Nat := (f.index.getD f.entry (0, 0)).2 % 0x10000000

def dxSearch (es : Index) (hash : Nat) : Nat → Nat → Nat → Nat → Nat
  | 0, _, _, found => found
  | n + 1, lo, hi, found =>
    if hi < lo then found
    else if (es.getD ((lo + hi) / 2) (0, 0)).1 ≤ hash then
      dxSearch es hash n ((lo + hi) / 2 + 1) hi ((lo + hi) / 2)
    else dxSearch es hash n lo ((lo + hi) / 2 - 1) found

def dxProbe (d : Dir) (hash : Nat) : Nat → Index → List Frame → Except Err (List Frame × Nat)
  | levels, es, outer =>
    let f : Frame := ⟨es, dxSearch es hash es.length 1 (es.length - 1) 0⟩
    if f.blk = 0 ∨ d.blocks.length ≤ f.blk then .error .corrupt
    else
      match levels, d.blocks[f.blk]? with
      | 0, _ => .ok (f :: outer, f.blk)
      | l + 1, some (.node es') => dxProbe d hash l es' (f :: outer)
      | _, _ => .error .corrupt

def dxDescend (d : Dir) : Nat → List Frame → Frame → Except Err (Option (List Frame × Nat))
  | 0, outer, f =>
    if f.blk = 0 ∨ d.blocks.length ≤ f.blk then .error .corrupt else .ok (some (f :: outer, f.blk))
  | n + 1, outer, f =>
    match d.blocks[f.blk]? with
    | some (.node es) => dxDescend d n (f :: outer) ⟨es, 0⟩
    | _ => .error .corrupt

/-- `dx_next`; `none` where no entry continues the hash. -/
def dxNext (d : Dir) (hash : Nat) (frames : List Frame) : Except Err (Option (List Frame × Nat)) :=
  match frames.dropWhile fun f => f.index.length ≤ f.entry + 1 with
  | [] => .ok none
  | f :: outer =>
    if (f.index.getD (f.entry + 1) (0, 0)).1 / 2 * 2 ≠ hash then .ok none
    else dxDescend d (frames.length - outer.length - 1) outer { f with entry := f.entry + 1 }

/-- The loop of `find_entry` over the leaves that continue the hash. -/
def findHashed (d : Dir) (name : Name) (hash : Nat) :
    Nat → List Frame → Nat → Except Err (Nat × Nat × Rec)
  | 0, _, _ => .error .corrupt
  | n + 1, frames, leaf =>
    match d.leafAt leaf with
    | .error e => .error e
    | .ok rs =>
      match leafFind name rs with
      | some p => .ok (leaf, p)
      | none =>
        match dxNext d hash frames with
        | .error e => .error e
        | .ok none => .error .noEnt
        | .ok (some (frames, leaf)) => findHashed d name hash n frames leaf

def findLinear (name : Name) : Nat → List Block → Except Err (Nat × Nat × Rec)
  | _, [] => .error .noEnt
  | b, .leaf rs :: bs =>
    match leafFind name rs with
    | some p => .ok (b, p)
    | none => findLinear name (b + 1) bs
  | _, _ :: _ => .error .corrupt

def Block.entries : Block → Nat
  | .leaf _ => 0
  | .root _ _ _ es | .node es => es.length

namespace Volume

variable (V : Volume)

def probe (d : Dir) (name : Name) : Except Err (Nat × List Frame × Nat) :=
  match d.blocks, V.dxHash name with
  | .root _ _ levels es :: _, .ok hash => (dxProbe d hash levels es []).map (hash, ·)
  | .root .. :: _, .error e => .error e
  | _, _ => .error .corrupt

/-- The block, the place in the block and the record. The positions of at most three frames
increase, which bounds the leaves of one search. -/
def findEntry (d : Dir) (name : Name) : Except Err (Nat × Nat × Rec) :=
  if V.isIndexed d then
    match V.probe d name with
    | .error e => .error e
    | .ok (hash, frames, leaf) =>
      findHashed d name hash (((d.blocks.map Block.entries).sum + 1) ^ 3) frames leaf
  else findLinear name 0 d.blocks

def dirLookup (d : Dir) (name : Name) : Except Err Ino :=
  if name = [] then .error .noEnt
  else if SFS_NAME_MAX < name.length then .error .nameTooLong
  else (V.findEntry d name).map fun p => p.2.2.ino

/-! ### Updates of one directory -/

def dxAdd (d : Dir) (name : Name) (ino : Ino) : Option Err × Dir :=
  match V.probe d name with
  | .error e => (some e, d)
  | .ok (_, _, leaf) =>
    match d.leafAt leaf with
    | .error e => (some e, d)
    | .ok rs =>
      match leafInsert name ino rs with
      | some rs' => (none, d.onLeaf leaf fun _ => rs')
      | none => V.dxGrow d name ino

/-- `make_indexed`; `none` for an unusual layout. -/
def makeIndexed (e : Option Err) (self : Ino) (d : Dir) : Option (Option Err × Dir) :=
  match d.blocks with
  | .leaf (r₀ :: r₁ :: rest) :: _ =>
    if r₀.recLen ≠ 12 ∨ r₀.name.length ≠ 1 ∨ r₁.name.length ≠ 2 then none
    else
      match V.dirAppend e d (.leaf (leafBuild V.leafLimit (rest.filter (·.ino ≠ 0)))) with
      | (some e, d) => some (some e, d)
      | (none, d') =>
        some (none, { d' with
          index := true
          blocks := d'.blocks.set 0 (.root self r₁.ino 0 [(0, d.blocks.length)]) })
  | _ => none

end Volume

def insertLinear (name : Name) (ino : Ino) : List Block → Except Err (Option (List Block))
  | [] => .ok none
  | .leaf rs :: bs =>
    match leafInsert name ino rs with
    | some rs' => .ok (some (.leaf rs' :: bs))
    | none => (insertLinear name ino bs).map (·.map (.leaf rs :: ·))
  | _ :: _ => .error .corrupt

namespace Volume

variable (V : Volume)

def mayIndex (d : Dir) : Bool :=
  d.blocks.length = 1 && V.dirIndex && !d.index && d.extents && !V.naive

/-- The end of `sfs_dir_add`: a new leaf block. -/
def addLeaf (e : Option Err) (d : Dir) (name : Name) (ino : Ino) : Option Err × Dir :=
  match leafInsert name ino [⟨0, [], V.leafLimit⟩] with
  | some rs => V.dirAppend e d (.leaf rs)
  | none =>
    let r := V.dirAppend e d (.leaf [⟨0, [], V.leafLimit⟩])
    (some (r.1.getD .corrupt), r.2)

def dirAdd (e : Option Err) (self : Ino) (d : Dir) (name : Name) (ino : Ino) : Option Err × Dir :=
  if name = [] ∨ SFS_NAME_MAX < name.length then (some .nameTooLong, d)
  else if V.isIndexed d then V.dxAdd d name ino
  else
    match insertLinear name ino d.blocks with
    | .error err => (some err, d)
    | .ok (some bs) => (none, { d with blocks := bs })
    | .ok none =>
      match if V.mayIndex d then V.makeIndexed e self d else none with
      | some (some err, d') => (some err, d')
      | some (none, d') => V.dxAdd d' name ino
      | none => V.addLeaf e d name ino

def dirRemove (d : Dir) (name : Name) (expect : Ino) : Option Err × Dir :=
  match V.findEntry d name with
  | .error e => (some e, d)
  | .ok (b, k, r) =>
    if r.ino ≠ expect then (some .noEnt, d) else (none, d.onLeaf b (leafRemove · k))

def dirSetInode (d : Dir) (name : Name) (ino : Ino) : Option Err × Dir :=
  match V.findEntry d name with
  | .error e => (some e, d)
  | .ok (b, k, _) => (none, d.onLeaf b (·.modify k fun r => { r with ino }))

def dirInit (e : Option Err) (ino parent : Ino) : Option Err × Dir :=
  V.dirAppend e ⟨true, false, []⟩
    (.leaf [⟨ino, dot, 12⟩, ⟨parent, dotdot, V.leafLimit - 12⟩])

/-- What `sfs_dir_get_parent` returns, and what `sfs_dir_set_parent` leaves for `p`. -/
def parentSlot (d : Dir) : Except Err (Ino × (Ino → Dir)) :=
  match V.isIndexed d, d.blocks with
  | false, .leaf (r₀ :: r₁ :: rs) :: bs =>
    if r₀.name ≠ dot ∨ r₀.recLen ≠ 12 ∨ r₁.name ≠ dotdot then .error .corrupt
    else .ok (r₁.ino, fun p => { d with blocks := .leaf (r₀ :: { r₁ with ino := p } :: rs) :: bs })
  | true, .root i p l es :: bs => .ok (p, fun p => { d with blocks := .root i p l es :: bs })
  | _, _ => .error .corrupt

end Volume

/-! ### The table of directories -/

/-- The live directories; `up` is the parent that each was given last. -/
structure Tree where
  dir : Ino → Option Dir
  up : Ino → Ino

def Tree.set (T : Tree) (i : Ino) (d : Option Dir) : Tree :=
  { T with dir := update T.dir i d }

/-- What the calls of `sfs_api.c` do to directories: `sfs_mkdir` is an `init` and an `add` to the
parent, `sfs_rename` an `add` or a `setInode`, a `remove` and, between directories, a `setParent`;
`drop` frees the directory that `sfs_rmdir` or a `sfs_rename` over it took out. -/
inductive Op
  | init (e : Option Err) (ino parent : Ino)
  | add (e : Option Err) (dir : Ino) (name : Name) (ino : Ino)
  | remove (dir : Ino) (name : Name) (expect : Ino)
  | setInode (dir : Ino) (name : Name) (ino : Ino)
  | setParent (dir parent : Ino)
  | drop (dir : Ino)

namespace Volume

variable (V : Volume)

def lookup (T : Tree) (dir : Ino) (name : Name) : Except Err Ino :=
  match T.dir dir with
  | none => .error .notDir
  | some d =>
    match V.dirLookup d name with
    | .error e => .error e
    | .ok i => if V.inoValid i then .ok i else .error .corrupt

/-- The loop of `sfs_path_lookup` over the components of a path. -/
def pathLookup (T : Tree) : Ino → List Name → Except Err Ino
  | cur, [] => .ok cur
  | cur, s :: path =>
    if s = dot then pathLookup T cur path
    else
      match V.lookup T cur s with
      | .error e => .error e
      | .ok next => pathLookup T next path

/-- The callers check names with `name_ok`, allocate an inode that is free and move a directory
into a live one. -/
def step (T : Tree) : Op → Tree
  | .init e ino parent =>
    match T.dir ino, T.dir parent, V.dirInit e ino parent with
    | none, some _, (none, d) =>
      if V.inoValid ino then { T.set ino d with up := update T.up ino parent } else T
    | _, _, _ => T
  | .add e dir name ino =>
    match nameOk name, T.dir dir with
    | none, some d => T.set dir (V.dirAdd e dir d name ino).2
    | _, _ => T
  | .remove dir name expect =>
    match nameOk name, T.dir dir with
    | none, some d => T.set dir (V.dirRemove d name expect).2
    | _, _ => T
  | .setInode dir name ino =>
    match nameOk name, T.dir dir with
    | none, some d => T.set dir (V.dirSetInode d name ino).2
    | _, _ => T
  | .setParent dir parent =>
    match (T.dir dir).map V.parentSlot, T.dir parent with
    | some (.ok (_, put)), some _ =>
      { T.set dir (put parent) with up := update T.up dir parent }
    | _, _ => T
  | .drop dir => T.set dir none

end Volume

/-! ### Linear directories -/

variable {V : Volume} {T : Tree} {D D' : Dir} {d p ino : Ino} {name : Name} {e : Option Err}

/-- A linear directory: its first block opens with `.` and `..`. -/
structure Linear (V : Volume) (d p : Ino) (D : Dir) : Prop where
  self_valid : V.inoValid d
  parent_valid : V.inoValid p
  plain : D.index = false
  dots : ∃ r rest more, D.blocks = .leaf (⟨d, dot, 12⟩ :: ⟨p, dotdot, r⟩ :: rest) :: more

/-- The directories are linear, as a format leaves them. -/
def Laid (V : Volume) (T : Tree) : Prop := ∀ d D, T.dir d = some D → Linear V d (T.up d) D

/-- The directory is not one that is converted, or the name fits. -/
def Fits (V : Volume) (name : Name) (D : Dir) : Prop :=
  V.mayIndex D → ∃ rs, D.blocks = [.leaf rs] ∧ ∃ r ∈ rs, r.used + recMin name.length ≤ r.recLen

/-- The operation converts no directory. -/
def Keeps (V : Volume) (T : Tree) : Op → Prop
  | .add _ dir name _ => ∀ D, T.dir dir = some D → Fits V name D
  | _ => True

theorem isIndexed_eq_false (h : D.index = false) : V.isIndexed D = false := by
  rw [Volume.isIndexed, h, Bool.and_false]

theorem ne_zero_of_valid (h : V.inoValid d) : d ≠ 0 := by
  rintro rfl
  simp [Volume.inoValid] at h

theorem nameOk_dots (h : nameOk name = none) : name ≠ dot ∧ name ≠ dotdot := by
  constructor <;> rintro rfl <;> exact absurd h (by decide)

theorem le_findLinear (bs : List Block) {b : Nat} {x : Nat × Nat × Rec}
    (hf : findLinear name b bs = .ok x) : b ≤ x.1 := by
  induction bs generalizing b with
  | nil => cases hf
  | cons c bs ih =>
    cases c with
    | leaf rs =>
      rw [findLinear] at hf
      split at hf
      · cases hf
        exact Nat.le_refl _
      · exact Nat.le_of_succ_le (ih hf)
    | root => cases hf
    | node => cases hf

theorem leafInsert_some (ino : Ino) {rs : List Rec} {r : Rec} (hr : r ∈ rs)
    (hfit : r.used + recMin name.length ≤ r.recLen) : leafInsert name ino rs ≠ none := by
  induction rs with
  | nil => cases hr
  | cons s rs ih =>
    rw [leafInsert]
    split
    · split <;> exact Option.some_ne_none _
    · rename_i hs
      obtain rfl | hr := List.mem_cons.mp hr
      · exact absurd hfit hs
      · rw [ne_eq, Option.map_eq_none_iff]
        exact ih hr

section Linear

variable (h : Linear V d p D)
include h

theorem Linear.lookup_self : V.dirLookup D dot = .ok d := by
  obtain ⟨r, rest, more, hb⟩ := h.dots
  have hd := ne_zero_of_valid h.self_valid
  simp [Volume.dirLookup, Volume.findEntry, isIndexed_eq_false h.plain, hb, findLinear, leafFind,
    Except.map, hd, dot, SFS_NAME_MAX]

theorem Linear.lookup_parent : V.dirLookup D dotdot = .ok p := by
  obtain ⟨r, rest, more, hb⟩ := h.dots
  have hp := ne_zero_of_valid h.parent_valid
  simp [Volume.dirLookup, Volume.findEntry, isIndexed_eq_false h.plain, hb, findLinear, leafFind,
    Except.map, hp, dot, dotdot, SFS_NAME_MAX]

/-- Any other entry of the first block comes after the two. -/
theorem Linear.findEntry {b k : Nat} {r : Rec} (hname : nameOk name = none)
    (hf : V.findEntry D name = .ok (b, k, r)) (hb₀ : b = 0) : 2 ≤ k := by
  obtain ⟨r', rest, more, hb⟩ := h.dots
  obtain ⟨hdot, hdotdot⟩ := nameOk_dots hname
  rw [Volume.findEntry, isIndexed_eq_false h.plain, if_neg Bool.false_ne_true, hb, findLinear] at hf
  split at hf
  · rename_i x hx
    cases hf
    rw [leafFind, if_neg fun hr => hdot hr.2.symm, leafFind, if_neg fun hr => hdotdot hr.2.symm,
      Option.map_map] at hx
    obtain ⟨y, -, hy⟩ := Option.map_eq_some_iff.mp hx
    cases hy
    exact Nat.le_add_left ..
  · have := le_findLinear more hf
    omega

/-- A change of one leaf that leaves the two entries where they are. -/
theorem Linear.onLeaf {b : Nat} {f : List Rec → List Rec}
    (hf : b = 0 → ∀ r rest, ∃ r' rest',
      f (⟨d, dot, 12⟩ :: ⟨p, dotdot, r⟩ :: rest) = ⟨d, dot, 12⟩ :: ⟨p, dotdot, r'⟩ :: rest') :
    Linear V d p (D.onLeaf b f) := by
  obtain ⟨r, rest, more, hb⟩ := h.dots
  refine ⟨h.self_valid, h.parent_valid, h.plain, ?_⟩
  cases b with
  | zero =>
    obtain ⟨r', rest', hr⟩ := hf rfl r rest
    exact ⟨r', rest', more, by simp [Dir.onLeaf, hb, Block.onLeaf, hr]⟩
  | succ b => exact ⟨r, rest, _, by simp [Dir.onLeaf, hb]; rfl⟩

theorem Linear.remove (hname : nameOk name = none) : Linear V d p (V.dirRemove D name ino).2 := by
  rw [Volume.dirRemove]
  split
  · exact h
  · rename_i b k r hf
    split
    · exact h
    · refine h.onLeaf fun hb r rest => ?_
      obtain ⟨k, rfl⟩ := Nat.exists_eq_add_of_le' (h.findEntry hname hf hb)
      cases k <;> exact ⟨_, _, rfl⟩

theorem Linear.setInode (hname : nameOk name = none) : Linear V d p (V.dirSetInode D name ino).2 := by
  rw [Volume.dirSetInode]
  split
  · exact h
  · rename_i b k r hf
    refine h.onLeaf fun hb r rest => ?_
    obtain ⟨k, rfl⟩ := Nat.exists_eq_add_of_le' (h.findEntry hname hf hb)
    exact ⟨_, _, rfl⟩

theorem Linear.append {b : Block} : Linear V d p (V.dirAppend e D b).2 := by
  obtain ⟨r, rest, more, hb⟩ := h.dots
  unfold Volume.dirAppend
  split_ifs
  · exact h
  · exact h
  · cases e with
    | some e => exact h
    | none => exact ⟨h.self_valid, h.parent_valid, h.plain, r, rest, more ++ [b], by simp [hb]⟩

theorem Linear.addLeaf : Linear V d p (V.addLeaf e D name ino).2 := by
  unfold Volume.addLeaf
  split <;> exact h.append

/-- The record of `.` has no room, and the one of `..` keeps its place. -/
theorem Linear.insert {bs : List Block} (hi : insertLinear name ino D.blocks = .ok (some bs)) :
    Linear V d p { D with blocks := bs } := by
  obtain ⟨r, rest, more, hb⟩ := h.dots
  have hd := ne_zero_of_valid h.self_valid
  have hp : (Rec.mk p dotdot r).used ≠ 0 := by
    simp [Rec.used, ne_zero_of_valid h.parent_valid, recMin, dotdot]
  refine ⟨h.self_valid, h.parent_valid, h.plain, ?_⟩
  rw [hb, insertLinear] at hi
  split at hi
  · rename_i rs hrs
    cases hi
    have hdot : ¬(Rec.mk d dot 12).used + recMin name.length ≤ 12 := by
      simp only [Rec.used, if_pos hd, dot, recMin, List.length_singleton]
      omega
    rw [leafInsert, if_neg hdot, leafInsert, if_pos hp] at hrs
    obtain ⟨ys, hys, rfl⟩ := Option.map_eq_some_iff.mp hrs
    split at hys
    · cases hys
      exact ⟨_, _, more, rfl⟩
    · obtain ⟨zs, -, rfl⟩ := Option.map_eq_some_iff.mp hys
      exact ⟨r, zs, more, rfl⟩
  · match hm : insertLinear name ino more, hi with
    | .ok (some bs), hi =>
      cases hi
      exact ⟨r, rest, bs, rfl⟩

/-- **Adding** to a directory that is not converted. -/
theorem Linear.add (hfit : Fits V name D) : Linear V d p (V.dirAdd e d D name ino).2 := by
  unfold Volume.dirAdd
  rw [isIndexed_eq_false h.plain, if_neg Bool.false_ne_true]
  split
  · exact h
  · split
    · exact h
    · rename_i bs hi
      exact h.insert hi
    · rename_i hi
      have hmay : ¬V.mayIndex D := by
        intro hm
        obtain ⟨rs, hrs, r, hr, hroom⟩ := hfit hm
        obtain ⟨rs', hrs'⟩ := Option.ne_none_iff_exists'.mp (leafInsert_some ino hr hroom)
        rw [hrs, insertLinear, hrs'] at hi
        cases hi
      rw [if_neg hmay]
      exact h.addLeaf

theorem Linear.setParent {q : Ino} {x : Ino × (Ino → Dir)} (hq : V.inoValid q)
    (hx : V.parentSlot D = .ok x) : Linear V d q (x.2 q) := by
  obtain ⟨r, rest, more, hb⟩ := h.dots
  simp only [Volume.parentSlot, isIndexed_eq_false h.plain, hb] at hx
  cases hx
  exact ⟨h.self_valid, hq, h.plain, r, rest, more, rfl⟩

end Linear

theorem linear_init {x : Dir} (hd : V.inoValid d) (hp : V.inoValid p)
    (hi : V.dirInit e d p = (none, x)) : Linear V d p x := by
  unfold Volume.dirInit Volume.dirAppend at hi
  split_ifs at hi
  · cases hi
  · cases hi
  · cases e with
    | some e => cases hi
    | none =>
      cases hi
      exact ⟨hd, hp, rfl, _, _, _, rfl⟩

/-! ### Runs -/

theorem Tree.set_self {o : Option Dir} : (T.set d o).dir d = o := update_self ..

theorem Tree.set_of_ne {i : Ino} {o : Option Dir} (h : i ≠ d) : (T.set d o).dir i = T.dir i :=
  update_of_ne h ..

/-- A directory gets another parent. -/
theorem Laid.move (h : Laid V T) (hD : Linear V d p D) :
    Laid V { T.set d (some D) with up := update T.up d p } := by
  intro i E hi
  obtain rfl | hne := eq_or_ne i d
  · cases Tree.set_self.symm.trans hi
    show Linear V i (update T.up i p i) D
    rwa [update_self]
  · show Linear V i (update T.up d p i) E
    rw [update_of_ne hne]
    exact h i E ((Tree.set_of_ne hne).symm.trans hi)

theorem Laid.set (h : Laid V T) (hD : Linear V d (T.up d) D) : Laid V (T.set d (some D)) := by
  have hm := h.move hD
  rwa [update_eq_self] at hm

/-- **An operation that converts no directory** leaves the directories linear. -/
theorem Laid.step (h : Laid V T) (op : Op) (hk : Keeps V T op) : Laid V (V.step T op) := by
  cases op with
  | init e ino parent =>
    simp only [Volume.step]
    split
    · rename_i q x _ hq hi
      split
      · rename_i hv
        exact h.move (linear_init hv (h parent q hq).self_valid hi)
      · exact h
    · exact h
  | add e dir name ino =>
    simp only [Volume.step]
    split
    · rename_i D _ hD
      exact h.set ((h dir D hD).add (hk D hD))
    · exact h
  | remove dir name expect =>
    simp only [Volume.step]
    split
    · rename_i D hn hD
      exact h.set ((h dir D hD).remove hn)
    · exact h
  | setInode dir name ino =>
    simp only [Volume.step]
    split
    · rename_i D hn hD
      exact h.set ((h dir D hD).setInode hn)
    · exact h
  | setParent dir parent =>
    simp only [Volume.step]
    split
    · rename_i i put q hx hq
      obtain ⟨D, hD, hx⟩ := Option.map_eq_some_iff.mp hx
      exact h.move ((h dir D hD).setParent (h parent q hq).self_valid hx)
    · exact h
  | drop dir =>
    intro i E hi
    obtain rfl | hne := eq_or_ne i dir
    · cases Tree.set_self.symm.trans hi
    · exact h i E ((Tree.set_of_ne hne).symm.trans hi)

theorem Laid.lookup (h : Laid V T) (hD : T.dir d = some D) :
    V.lookup T d dotdot = .ok (T.up d) ∧ V.lookup T d dot = .ok d := by
  have hl := h d D hD
  simp [Volume.lookup, hD, hl.lookup_parent, hl.lookup_self, hl.parent_valid, hl.self_valid]

theorem pathLookup_append {i j : Ino} {path : List Name} (rest : List Name)
    (hp : V.pathLookup T i path = .ok j) :
    V.pathLookup T i (path ++ rest) = V.pathLookup T j rest := by
  induction path generalizing i with
  | nil =>
    cases hp
    rfl
  | cons s path ih =>
    rw [List.cons_append, Volume.pathLookup]
    rw [Volume.pathLookup] at hp
    split
    · rename_i hs
      rw [if_pos hs] at hp
      exact ih hp
    · rename_i hs
      rw [if_neg hs] at hp
      split at hp
      · cases hp
      · exact ih hp

/-- Every directory finds its parent and itself, and so does every path. -/
def DotsResolve (V : Volume) (T : Tree) : Prop :=
  ∀ d D, T.dir d = some D →
    V.lookup T d dotdot = .ok (T.up d) ∧ V.lookup T d dot = .ok d ∧
    ∀ path, V.pathLookup T SFS_ROOT_INO path = .ok d → ∀ rest,
      V.pathLookup T SFS_ROOT_INO (path ++ dotdot :: rest) = V.pathLookup T (T.up d) rest ∧
      V.pathLookup T SFS_ROOT_INO (path ++ dot :: rest) = V.pathLookup T d rest

theorem Laid.dotsResolve (h : Laid V T) : DotsResolve V T := by
  intro d D hD
  obtain ⟨hparent, hself⟩ := h.lookup hD
  refine ⟨hparent, hself, fun path hpath rest => ⟨?_, ?_⟩⟩
  · rw [pathLookup_append (dotdot :: rest) hpath, Volume.pathLookup, if_neg (by decide), hparent]
  · rw [pathLookup_append (dot :: rest) hpath, Volume.pathLookup, if_pos rfl]

/-- **Parents resolve** in every state of a run that converts no directory. -/
theorem dots_resolve {ops : List Op} (h : Laid V T) (hrun : Steps V.step (Keeps V) T ops) :
    Along V.step (DotsResolve V) (fun _ _ => True) T ops :=
  along_of_inv ops (fun _ => Laid.dotsResolve) (fun _ op h _ hk => ⟨trivial, h.step op hk⟩) h hrun

/-! ### A directory that is converted -/

/-- Blocks of 1 KB and 100 inodes. -/
def small : Volume :=
  ⟨1024, false, true, false, false, 100, fun _ => .ok 0, fun d _ _ => (some .noSpc, d)⟩

def start : Tree := ⟨fun i => if i = 2 then some (small.dirInit none 2 2).2 else none, fun _ => 2⟩

/-- `mkdir /d`. -/
def made : List Op := [.init none 12 2, .add none 2 [100] 12]

theorem start_laid : Laid small start := by
  intro d D hD
  obtain ⟨rfl, hD⟩ := (Option.ite_none_right_eq_some (p := d = 2)).mp hD
  cases hD
  exact linear_init (e := none) (by decide) (by decide) rfl

theorem dots_resolve_made : DotsResolve small (made.foldl small.step start) := by
  have hrun : Steps small.step (Keeps small) start made := by
    refine ⟨trivial, trivial, trivial, fun D hD => ?_, trivial⟩
    cases hD
    exact fun _ => ⟨_, rfl, _, .tail _ (.head _), by decide⟩
  exact (dots_resolve start_laid hrun).last

def long (c : UInt8) : Name := c :: List.replicate 247 97

/-- Three long names are in `/d`. -/
def full : Tree :=
  [.add none 12 (long 1) 13, .add none 12 (long 2) 14, .add none 12 (long 3) 15].foldl small.step
    (made.foldl small.step start)

/-- The fourth long name converts the directory: it is still in the root, but finds neither its
parent nor itself, and the path `d/..` is gone. -/
theorem indexed_loses_dotdot :
    let T := small.step full (.add none 12 (long 4) 16)
    small.pathLookup full SFS_ROOT_INO [[100], dotdot] = .ok 2 ∧
    small.pathLookup T SFS_ROOT_INO [[100]] = .ok 12 ∧ T.up 12 = 2 ∧
    small.lookup T 12 (long 4) = .ok 16 ∧
    small.lookup T 12 dotdot = .error .noEnt ∧ small.lookup T 12 dot = .error .noEnt ∧
    small.pathLookup T SFS_ROOT_INO [[100], dotdot] = .error .noEnt := by
  decide +kernel

end Win98Modern.Libsfs.Dotdot
