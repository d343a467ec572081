import Win98Modern.Lib.Spans
import Mathlib.Algebra.Group.Nat.Defs

/-!
# User address-space descriptors

The descriptor array of a process (`kernel64/vad.c`): `vad_alloc`,
`vad_insert_fixed`, `vad_insert_image`, `vad_free`, `vad_protect`,
`vad_remove_view` and `vad_query`, with the page-table entries that they drop or
rewrite.

Addresses and sizes are 64-bit numbers, so every sum and difference of the
source is taken modulo `2 ^ 64` (`add64`, `sub64`).  `kzalloc` may fail when the
array has to grow: each call that inserts takes one truth value for each
insertion, saying whether the allocation succeeds.

`k32_before_unmap` only records statistics and lock state kept elsewhere; it is
left out.  The descriptors of one process are only touched with interrupts off,
so every call here is one step.
-/

namespace Win98Modern.Kernel64

open List

/-! ### Machine arithmetic and constants -/

/-- `uint64_t` addition. -/
def add64 (a b : Nat) : Nat := (a + b) % 2 ^ 64

/-- `uint64_t` subtraction of a `b ≤ 2 ^ 64`. -/
def sub64 (a b : Nat) : Nat := (a + 2 ^ 64 - b) % 2 ^ 64

def PAGE_SIZE : Nat := 4096
def USER_MIN : Nat := 0x10000
def USER_TOP : Nat := 0x00007ffffffef000

/-- `v & PAGE_MASK`. -/
def pageFloor (v : Nat) : Nat := v / PAGE_SIZE * PAGE_SIZE

/-- `v & ~0xffffull`. -/
def floor64K (v : Nat) : Nat := v / 0x10000 * 0x10000

def up (v : Nat) : Nat := pageFloor (add64 v (PAGE_SIZE - 1))

def MEM_COMMIT : Nat := 0x1000
def MEM_RESERVE : Nat := 0x2000
def MEM_DECOMMIT : Nat := 0x4000
def MEM_RELEASE : Nat := 0x8000
def MEM_TOP_DOWN : Nat := 0x100000

def PAGE_NOACCESS : Nat := 0x01
def PAGE_READONLY : Nat := 0x02
def PAGE_READWRITE : Nat := 0x04
def PAGE_WRITECOPY : Nat := 0x08
def PAGE_EXECUTE : Nat := 0x10
def PAGE_EXECUTE_READ : Nat := 0x20
def PAGE_EXECUTE_READWRITE : Nat := 0x40
def PAGE_EXECUTE_WRITECOPY : Nat := 0x80
def PAGE_GUARD : Nat := 0x100

/-- The status codes the calls return. -/
inductive Status
  | success
  | invalidParameter
  | noMemory
  | conflictingAddresses
  | unableToFreeVm
  | freeVmNotAtBase
  | unableToDeleteSection
  | notMappedView
  deriving DecidableEq, Repr

inductive VadState
  | free | reserved | committed
  deriving DecidableEq, Repr

inductive VadKind
  | «private» | image | stack | teb | view
  deriving DecidableEq, Repr

/-! ### The process -/

/-- `vad_t`: the descriptor of `[start, stop)`; `img = 0` is the null pointer. -/
structure Vad where
  start : Nat
  stop : Nat
  state : VadState
  prot : Nat
  kind : VadKind
  allocProt : Nat
  allocBase : Nat
  img : Nat
  deriving DecidableEq, Repr

/-- A present page-table entry: the frame and the flags `PT_W | PT_U | PT_NX | PT_PWT | PT_PCD`. -/
structure Pte where
  pa : Nat
  writable : Bool
  user : Bool
  noExecute : Bool
  cacheDisable : Bool
  deriving DecidableEq, Repr

/-- What the descriptor code touches of `process_t`: the descriptor array with
its capacity, the hint for base-less requests, the page tables by page number,
and the frames it has handed to `pmm_free`, in order. -/
structure Process where
  vads : List Vad
  cap : Nat
  mmapHint : Nat
  pml4 : Nat → Option Pte
  freed : List Nat

/-- `vad_init`, with the hint `proc.c` sets. -/
def vadInit : Process :=
  { vads := [], cap := 64, mmapHint := 0x10000000, pml4 := fun _ => none, freed := [] }

/-! ### The array -/

/-- `vad_insert_at`; `kz` says whether `kzalloc` succeeds when the array is full. -/
def vadInsertAt (p : Process) (idx : Nat) (n : Vad) (kz : Bool) : Option Process :=
  let vads := p.vads.take idx ++ n :: p.vads.drop idx
  if p.vads.length = p.cap then
    if kz then some { p with vads := vads, cap := p.cap * 2 } else none
  else some { p with vads := vads }

def vadRemoveAt (p : Process) (idx : Nat) : Process :=
  { p with vads := p.vads.take idx ++ p.vads.drop (idx + 1) }

/-- Index of the first descriptor with `stop > addr`. -/
def vadLower (vads : List Vad) (addr : Nat) : Nat :=
  lowerBound (fun mid => (vads[mid]?).any (fun v => decide (v.stop ≤ addr))) vads.length 0
    vads.length

/-- `vad_find`, with the index for the pointer. -/
def vadFind (vads : List Vad) (addr : Nat) : Option (Nat × Vad) :=
  let i := vadLower vads addr
  match vads[i]? with
  | some v => if v.start ≤ addr then some (i, v) else none
  | none => none

/-- Split so that `at` is a descriptor boundary; `none` when `vad_insert_at`
fails, which leaves the left half cut (the second component). -/
def vadSplit (p : Process) (addr : Nat) (kz : Bool) : Bool × Process :=
  let i := vadLower p.vads addr
  match p.vads[i]? with
  | none => (true, p)
  | some v =>
    if v.start ≥ addr ∨ v.stop ≤ addr then (true, p)
    else
      let right := { v with start := addr }
      let cut := { p with vads := p.vads.set i { v with stop := addr } }
      match vadInsertAt cut (i + 1) right kz with
      | some q => (true, q)
      | none => (false, cut)

/-- The test of `vad_coalesce`. -/
def mergeable (a b : Vad) : Bool :=
  a.stop = b.start ∧ a.state = b.state ∧ a.prot = b.prot ∧ a.kind = b.kind ∧
    a.allocBase = b.allocBase ∧ a.allocProt = b.allocProt ∧ a.img = b.img

/-- The loop of `vad_coalesce` from the descriptor `a` on. -/
def coalesceFrom (a : Vad) : List Vad → List Vad
  | [] => [a]
  | b :: r =>
    if mergeable a b then coalesceFrom { a with stop := b.stop } r else a :: coalesceFrom b r

def vadCoalesce (p : Process) : Process :=
  match p.vads with
  | [] => p
  | a :: r => { p with vads := coalesceFrom a r }

def rangeFree (p : Process) (start stop : Nat) : Bool :=
  !(p.vads[vadLower p.vads start]?).any (fun v => decide (v.start < stop))

/-! ### Pages -/

/-- `vm_unmap`: the frame that was mapped, with the entry cleared. -/
def vmUnmap (p : Process) (va : Nat) : Option (Nat × Process) :=
  match p.pml4 (va / PAGE_SIZE) with
  | none => none
  | some e => some (e.pa, { p with pml4 := Function.update p.pml4 (va / PAGE_SIZE) none })

/-- `vm_map` over an entry whose tables exist: it cannot fail. -/
def vmMap (p : Process) (va : Nat) (e : Pte) : Process :=
  { p with pml4 := Function.update p.pml4 (va / PAGE_SIZE) (some e) }

def pmmFree (p : Process) (pa : Nat) : Process := { p with freed := p.freed ++ [pa] }

/-- The `va` of `for (va = start; va < stop; va += PAGE_SIZE)`. -/
def pagesOf (start stop : Nat) : List Nat :=
  (List.range ((stop - start + (PAGE_SIZE - 1)) / PAGE_SIZE)).map (fun i => start + i * PAGE_SIZE)

/-- One page of `unmap_pages`. -/
def unmapPage (p : Process) (va : Nat) : Process :=
  match vmUnmap p va with
  | some (pa, q) => pmmFree q pa
  | none => p

def unmapPages (p : Process) (start stop : Nat) : Process :=
  (pagesOf start stop).foldl unmapPage p

theorem foldl_vads {f : Process → Nat → Process} (hf : ∀ p va, (f p va).vads = p.vads) :
    ∀ (l : List Nat) (p : Process), (l.foldl f p).vads = p.vads := by
  intro l
  induction l with
  | nil => intro p; rfl
  | cons va l ih => intro p; rw [foldl_cons, ih, hf]

@[simp] theorem unmapPage_vads (p : Process) (va : Nat) : (unmapPage p va).vads = p.vads := by
  unfold unmapPage vmUnmap pmmFree
  cases p.pml4 (va / PAGE_SIZE) <;> rfl

@[simp] theorem unmapPages_vads (p : Process) (start stop : Nat) :
    (unmapPages p start stop).vads = p.vads := foldl_vads unmapPage_vads _ p

/-- `prot_to_ptflags` of the entry that maps `pa`; a protection outside the
table gives no flags at all. -/
def protToPtflags (prot pa : Nat) : Pte :=
  let pcd := prot / 0x200 % 2 = 1
  match prot % 0x100 with
  | 0x02 => ⟨pa, false, true, true, pcd⟩
  | 0x04 | 0x08 => ⟨pa, true, true, true, pcd⟩
  | 0x10 | 0x20 => ⟨pa, false, true, false, pcd⟩
  | 0x40 | 0x80 => ⟨pa, true, true, false, pcd⟩
  | _ => ⟨pa, false, false, false, pcd⟩

def protValid (prot : Nat) : Bool :=
  let base := prot % 0x100
  base = PAGE_NOACCESS ∨ base = PAGE_READONLY ∨ base = PAGE_READWRITE ∨ base = PAGE_WRITECOPY ∨
    base = PAGE_EXECUTE ∨ base = PAGE_EXECUTE_READ ∨ base = PAGE_EXECUTE_READWRITE ∨
    base = PAGE_EXECUTE_WRITECOPY

/-- `(prot & 0xff) == PAGE_NOACCESS || (prot & 0x100)`: the pages are parked. -/
def parks (prot : Nat) : Bool := prot % 0x100 = PAGE_NOACCESS ∨ prot / PAGE_GUARD % 2 = 1

/-- One resident page of `vad_apply_prot`. -/
def applyProtPage (w : Vad) (newProt : Nat) (p : Process) (va : Nat) : Process :=
  if w.kind = .view then
    match vmUnmap p va with
    | some (_, q) => q
    | none => p
  else
    match p.pml4 (va / PAGE_SIZE) with
    | none => p
    | some e =>
      if parks newProt then vmMap p va ⟨e.pa, false, false, false, false⟩
      else vmMap p va (protToPtflags newProt e.pa)

/-- `vad_apply_prot` of the descriptor at index `i`. -/
def vadApplyProt (p : Process) (i : Nat) (newProt : Nat) : Process :=
  match p.vads[i]? with
  | none => p
  | some w =>
    (pagesOf w.start w.stop).foldl (applyProtPage w newProt)
      { p with vads := p.vads.set i { w with prot := newProt } }

/-! ### Walks over a range -/

/-- The descriptor `vad_find` returns ends above the address, in any array. -/
theorem vadFind_stop {vads : List Vad} {addr i : Nat} {v : Vad}
    (h : vadFind vads addr = some (i, v)) : addr < v.stop := by
  simp only [vadFind] at h
  split at h
  · rename_i w hw
    split at h
    · simp only [Option.some.injEq, Prod.mk.injEq] at h
      obtain ⟨rfl, rfl⟩ := h
      have hlt : vadLower vads addr < vads.length := (List.getElem?_eq_some_iff.1 hw).1
      rcases lowerBound_test (fun mid => (vads[mid]?).any (fun v => decide (v.stop ≤ addr)))
        vads.length 0 vads.length (by omega) (by omega) with he | he
      · rw [vadLower] at hlt; omega
      · rw [← vadLower, hw] at he
        simpa using he
    · simp at h
  · simp at h

/-- `for (a = start; a < end; a = vad_find(p, a)->end)` with the tests of the
source: every address of the range is described, by descriptors that pass `ok`. -/
def covered (vads : List Vad) (ok : Vad → Bool) (a stop : Nat) : Bool :=
  if a < stop then
    match _h : vadFind vads a with
    | none => false
    | some (_, v) => ok v && covered vads ok v.stop stop
  else true
termination_by stop - a
decreasing_by have := vadFind_stop _h; omega

/-- The same walk, changing each descriptor it visits with `body`, which gets
the descriptor's index. -/
def walk (body : Process → Nat → Process) (p : Process) (a stop : Nat) : Process :=
  if a < stop then
    match vadFind p.vads a with
    | none => p
    | some (i, _) =>
      match _h : vadFind (body p i).vads a with
      | none => body p i
      | some (_, v) => walk body (body p i) v.stop stop
  else p
termination_by stop - a
decreasing_by have := vadFind_stop _h; omega

/-! ### Allocation -/

/-- What a call returns: the status, the out parameters `*base` and `*size`, and the process. -/
structure Reply where
  status : Status
  base : Nat
  size : Nat
  proc : Process

def MAX_TRIES : Nat := 4096

/-- The search of `vad_alloc_locked` for a base-less request: `tries` is what is
left of the 4096 moves.  `none` is `STATUS_NO_MEMORY`. -/
def chooseBase (vads : List Vad) (topDown : Bool) (len : Nat) : Nat → Nat → Option Nat
  | tries, cand =>
    if cand < USER_MIN ∨ add64 cand len > USER_TOP then none
    else
      match vads[vadLower vads cand]? with
      | none => some cand
      | some v =>
        if v.start < add64 cand len then
          match tries with
          | 0 => none
          | tries + 1 =>
            chooseBase vads topDown len tries
              (if topDown then floor64K (sub64 v.start len) else floor64K (add64 v.stop 0xffff))
        else some cand

/-- The first candidate of `chooseBase`. -/
def firstCandidate (p : Process) (topDown : Bool) (len : Nat) : Nat :=
  if topDown then floor64K (sub64 USER_TOP len) else floor64K (add64 p.mmapHint 0xffff)

/-- The descriptor a reservation installs. -/
def newVad (start stop : Nat) (commit : Bool) (prot : Nat) (kind : VadKind) : Vad :=
  { start := start, stop := stop, state := if commit then .committed else .reserved, prot := prot,
    kind := kind, allocProt := prot, allocBase := start, img := 0 }

/-- The body of the commit walk of `vad_alloc_locked`. -/
def commitOne (prot : Nat) (p : Process) (i : Nat) : Process :=
  match p.vads[i]? with
  | none => p
  | some v =>
    let q := { p with vads := p.vads.set i { v with state := .committed } }
    if v.state = .committed ∧ v.prot ≠ prot then vadApplyProt q i prot
    else { q with vads := q.vads.set i { v with state := .committed, prot := prot } }

/-- `len` of `vad_alloc_locked`. -/
def allocLen (base size : Nat) : Nat := up (add64 size (base % PAGE_SIZE))

/-- `start` of `vad_alloc_locked` for a request with a base. -/
def allocStart (reserve : Bool) (base : Nat) : Nat :=
  if reserve then floor64K (pageFloor base) else pageFloor base

def vadAlloc (p : Process) (base size type prot : Nat) (kind : VadKind) (kz kz' : Bool) : Reply :=
  let fail := fun st q => Reply.mk st base size q
  let commit := decide (type / MEM_COMMIT % 2 = 1)
  let reserve := decide (type / MEM_RESERVE % 2 = 1)
  let topDown := decide (type / MEM_TOP_DOWN % 2 = 1)
  if ¬(commit ∨ reserve) ∨ size = 0 ∨ ¬protValid prot then fail .invalidParameter p
  else
    let reserve := reserve || decide (base = 0)
    let known := MEM_COMMIT * (type / MEM_COMMIT % 2) + MEM_RESERVE * (type / MEM_RESERVE % 2) +
      MEM_TOP_DOWN * (type / MEM_TOP_DOWN % 2)
    if type ≠ known then fail .invalidParameter p
    else
      let len := allocLen base size
      if len = 0 ∨ len > USER_TOP then fail .invalidParameter p
      else if base ≠ 0 then
        let start := allocStart reserve base
        let stop := add64 start len
        if start < USER_MIN ∨ stop > USER_TOP ∨ stop < start then fail .invalidParameter p
        else if reserve then
          if !rangeFree p start stop then fail .conflictingAddresses p
          else
            match vadInsertAt p (vadLower p.vads start) (newVad start stop commit prot kind) kz with
            | none => fail .noMemory p
            | some q => ⟨.success, start, stop - start, vadCoalesce q⟩
        else if !covered p.vads (fun _ => true) start stop then fail .invalidParameter p
        else
          match vadSplit p start kz with
          | (false, q) => fail .noMemory q
          | (true, q) =>
            match vadSplit q stop kz' with
            | (false, q) => fail .noMemory q
            | (true, q) =>
              ⟨.success, start, stop - start, vadCoalesce (walk (commitOne prot) q start stop)⟩
      else
        match chooseBase p.vads topDown len MAX_TRIES (firstCandidate p topDown len) with
        | none => fail .noMemory p
        | some cand =>
          let stop := add64 cand len
          match vadInsertAt p (vadLower p.vads cand) (newVad cand stop commit prot kind) kz with
          | none => fail .noMemory p
          | some q =>
            ⟨.success, cand, sub64 stop cand,
              vadCoalesce (if topDown then q else { q with mmapHint := stop })⟩

def vadInsertFixed (p : Process) (start size : Nat) (state : VadState) (prot : Nat)
    (kind : VadKind) (allocBase : Nat) (kz : Bool) : Status × Process :=
  let stop := add64 start (up size)
  if start % PAGE_SIZE ≠ 0 ∨ start < USER_MIN ∨ stop > USER_TOP ∨ stop ≤ start then
    (.invalidParameter, p)
  else if !rangeFree p start stop then (.conflictingAddresses, p)
  else
    let n : Vad := { start := start, stop := stop, state := state, prot := prot, kind := kind,
                     allocProt := prot, allocBase := allocBase, img := 0 }
    match vadInsertAt p (vadLower p.vads start) n kz with
    | none => (.noMemory, p)
    | some q => (.success, q)

def vadInsertImage (p : Process) (start size prot allocBase img : Nat) (kz : Bool) :
    Status × Process :=
  match vadInsertFixed p start size .committed prot .image allocBase kz with
  | (.success, q) =>
    match vadFind q.vads start with
    | some (i, v) => (.success, { q with vads := q.vads.set i { v with img := img } })
    | none => (.success, q)
  | (st, q) => (st, q)

/-! ### Release and decommit -/

/-- The removal loop of `MEM_RELEASE` at index `i`, with the end reached so far. -/
def releaseLoop (base i : Nat) (p : Process) (stop : Nat) : Process × Nat :=
  match _h : p.vads[i]? with
  | none => (p, stop)
  | some v =>
    if v.allocBase = base then
      releaseLoop base i (vadRemoveAt (unmapPages p v.start v.stop) i) v.stop
    else (p, stop)
termination_by p.vads.length
decreasing_by
  have := (List.getElem?_eq_some_iff.1 _h).1
  simp only [vadRemoveAt, unmapPages_vads, length_append, length_take, length_drop]
  omega

def decommitOne (p : Process) (i : Nat) : Process :=
  match p.vads[i]? with
  | none => p
  | some w =>
    let q := if w.state = .committed then unmapPages p w.start w.stop else p
    { q with vads := q.vads.set i { w with state := .reserved } }

def vadFree (p : Process) (base size type : Nat) (kz kz' : Bool) : Reply :=
  let fail := fun st q => Reply.mk st base size q
  if base = 0 then fail .invalidParameter p
  else
    let v := vadFind p.vads base
    if v.any (fun v => v.2.kind = .view) then fail .unableToDeleteSection p
    else if type = MEM_RELEASE then
      match v with
      | none => fail .unableToFreeVm p
      | some (_, v) =>
        if v.allocBase ≠ base then fail .freeVmNotAtBase p
        else if size ≠ 0 then fail .invalidParameter p
        else
          let r := releaseLoop base (vadLower p.vads v.start) p v.start
          ⟨.success, base, sub64 r.2 v.start, r.1⟩
    else if type = MEM_DECOMMIT then
      let start := pageFloor base
      let stop := up (add64 base size)
      if size = 0 ∨ stop ≤ start then fail .invalidParameter p
      else if !covered p.vads (fun _ => true) start stop then fail .invalidParameter p
      else
        match vadSplit p start kz with
        | (false, q) => fail .noMemory q
        | (true, q) =>
          match vadSplit q stop kz' with
          | (false, q) => fail .noMemory q
          | (true, q) =>
            ⟨.success, start, stop - start, vadCoalesce (walk decommitOne q start stop)⟩
    else fail .invalidParameter p

/-- `vad_protect_locked`, with `*old_prot` when the range was checked. -/
def vadProtect (p : Process) (base size newProt : Nat) (kz kz' : Bool) :
    Status × Option Nat × Process :=
  let start := pageFloor base
  let stop := up (add64 base size)
  if size = 0 ∨ stop ≤ start ∨ ¬protValid newProt then (.invalidParameter, none, p)
  else if !covered p.vads (fun v => v.state = .committed) start stop then
    (.invalidParameter, none, p)
  else
    let old := (vadFind p.vads start).map (fun v => v.2.prot)
    match vadSplit p start kz with
    | (false, q) => (.noMemory, old, q)
    | (true, q) =>
      match vadSplit q stop kz' with
      | (false, q) => (.noMemory, old, q)
      | (true, q) =>
        (.success, old, vadCoalesce (walk (fun q i => vadApplyProt q i newProt) q start stop))

/-- The removal loop of `vad_remove_view` at index `i`. -/
def removeViewLoop (base i : Nat) (p : Process) (found : Bool) : Process × Bool :=
  match _h : p.vads[i]? with
  | none => (p, found)
  | some v =>
    if v.allocBase = base ∧ v.kind = .view then removeViewLoop base i (vadRemoveAt p i) true
    else (p, found)
termination_by p.vads.length
decreasing_by
  have := (List.getElem?_eq_some_iff.1 _h).1
  simp only [vadRemoveAt, length_append, length_take, length_drop]
  omega

def vadRemoveView (p : Process) (base : Nat) : Status × Process :=
  let r := removeViewLoop base (vadLower p.vads base) p false
  (if r.2 then .success else .notMappedView, r.1)

/-! ### Queries -/

def MEM_FREE : Nat := 0x10000
def MEM_PRIVATE : Nat := 0x20000
def MEM_MAPPED : Nat := 0x40000
def MEM_IMAGE : Nat := 0x1000000

/-- The out parameters of `vad_query`. -/
structure Region where
  base : Nat
  allocBase : Nat
  allocProt : Nat
  size : Nat
  state : Nat
  prot : Nat
  type : Nat
  deriving DecidableEq, Repr

/-- `vad_query_locked`; `none` is `STATUS_INVALID_PARAMETER`. -/
def vadQuery (p : Process) (addr : Nat) : Option Region :=
  if addr ≥ USER_TOP then none
  else
    match vadFind p.vads (pageFloor addr) with
    | none =>
      let start := pageFloor addr
      let stop := (p.vads[vadLower p.vads addr]?).elim USER_TOP Vad.start
      some { base := start, allocBase := 0, allocProt := 0, size := sub64 stop start,
             state := MEM_FREE, prot := PAGE_NOACCESS, type := 0 }
    | some (_, v) =>
      some { base := v.start, allocBase := v.allocBase, allocProt := v.allocProt,
             size := sub64 v.stop v.start,
             state := if v.state = .committed then MEM_COMMIT else MEM_RESERVE,
             prot := if v.state = .committed then v.prot else 0,
             type := if v.kind = .image then MEM_IMAGE
               else if v.kind = .view then MEM_MAPPED else MEM_PRIVATE }

end Win98Modern.Kernel64
