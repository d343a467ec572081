import Win98Modern.Kernel64.Pmm

/-!
# The kernel heap

`mem.c`: `heap_init`, `kmalloc` and `kfree`.  The blocks are listed in the order of their `next` pointers, and
addresses are physical.  A call holds `heap_lock`, so it is one step; `entered` says whether the lock took the
CPU of the caller.  A `KASSERT` that fails stops the machine, which is `none`.
-/

namespace Win98Modern.Heap

open Pmm

/-- `used`: 0, 1 and `HFENCE`. -/
inductive Used
  | free | live | fence
  deriving DecidableEq, Repr

/-- `struct hblock` at its address. -/
structure Block where
  addr : Nat
  size : Nat
  used : Used
  deriving DecidableEq, Repr

/-- `sizeof(struct hblock)`. -/
abbrev hdr : Nat := 32

/-- What is handed out, `b + 1`, and the end of the block. -/
def Block.payload (b : Block) : Nat := b.addr + hdr
def Block.fin (b : Block) : Nat := b.addr + hdr + b.size

/-- `heap_head` and `heap_used_bytes`. -/
structure State where
  blocks : List Block
  usedBytes : Nat

/-! ### The start -/

/-- The nearest hole at or after `seg`: where the segment stops, and where the next one may begin. -/
def nearestHole (seg : Nat) : List (Nat × Nat) → Nat × Nat → Nat × Nat
  | [], r => r
  | (gpa, fin) :: holes, (stop, resume) =>
    nearestHole seg holes (if seg < fin ∧ gpa < stop then (max gpa seg, fin) else (stop, resume))

theorem nearestHole_resume {seg : Nat} {holes : List (Nat × Nat)} {r : Nat × Nat} (h : r.1 < PMM_BASE → seg < r.2) :
    (nearestHole seg holes r).1 < PMM_BASE → seg < (nearestHole seg holes r).2 := by
  induction holes generalizing r with
  | nil => exact h
  | cons hole holes ih =>
    refine ih fun hlt => ?_
    split_ifs at hlt ⊢ with hc
    · exact hc.1
    · exact h hlt

/-- The blocks of a segment: a free one, and a fence before a hole. -/
def segmentBlocks (seg stop : Nat) : List Block :=
  if 2 * hdr + 64 ≤ stop - seg then
    if stop < PMM_BASE then [⟨seg, stop - seg - hdr - hdr, .free⟩, ⟨stop - hdr, 0, .fence⟩]
    else [⟨seg, stop - seg - hdr, .free⟩]
  else []

/-- The loop of `heap_init`; the window ends at `PMM_BASE`. -/
def heapSegments (holes : List (Nat × Nat)) (seg : Nat) : List Block :=
  if seg < PMM_BASE then
    let r := nearestHole seg holes (PMM_BASE, PMM_BASE)
    segmentBlocks seg r.1 ++ heapSegments holes (if r.1 < PMM_BASE then r.2 else PMM_BASE)
  else []
termination_by PMM_BASE - seg
decreasing_by
  have hlt : (nearestHole seg holes (PMM_BASE, PMM_BASE)).1 < PMM_BASE →
      seg < (nearestHole seg holes (PMM_BASE, PMM_BASE)).2 := nearestHole_resume fun h => absurd h (lt_irrefl _)
  split_ifs with h
  · have := hlt h
    omega
  · omega

/-- `heap_init`; the holes are given by `hole_gpa` and `hole_end`. -/
def heapInit (holes : List (Nat × Nat)) : Option State :=
  let blocks := heapSegments holes HEAP_PA
  if blocks = [] then none else some ⟨blocks, 0⟩

/-! ### Calls -/

/-- The loop of `kmalloc` for a rounded size: the blocks afterwards, and the one that was taken. -/
def takeFit (n : Nat) : List Block → Option (List Block × Block)
  | [] => none
  | b :: next =>
    if b.used = .free ∧ n ≤ b.size then
      if hdr + 32 ≤ b.size - n then
        let rest : Block := ⟨b.payload + n, b.size - n - hdr, .free⟩
        some (⟨b.addr, n, .live⟩ :: rest :: next, ⟨b.addr, n, .live⟩)
      else some (⟨b.addr, b.size, .live⟩ :: next, ⟨b.addr, b.size, .live⟩)
    else (takeFit n next).map fun r => (b :: r.1, r.2)

/-- `kmalloc`: the address, or 0. -/
def kmalloc (s : State) (entered : Bool) (n : Nat) : State × Nat :=
  if 2 ^ 64 - 1 - 15 < n then (s, 0)
  else if entered then
    match takeFit ((n + 15) / 16 * 16) s.blocks with
    | some (blocks, b) => (⟨blocks, s.usedBytes + b.size⟩, b.payload)
    | none => (s, 0)
  else (s, 0)

/-- The neighbours are free, and one begins where the other ends. -/
def Touching (b c : Block) : Prop := b.used = .free ∧ c.used = .free ∧ b.fin = c.addr

instance : DecidableRel Touching := fun _ _ => inferInstanceAs (Decidable (_ ∧ _))

/-- The merging of `kfree` from the block `n` on. -/
def mergeFrom (n : Block) : List Block → List Block
  | [] => [n]
  | b :: next =>
    if Touching n b then mergeFrom ⟨n.addr, n.size + (hdr + b.size), n.used⟩ next else n :: mergeFrom b next

def mergeBlocks : List Block → List Block
  | [] => []
  | n :: next => mergeFrom n next

/-- The block of the pointer gets free: the list, and the bytes that it had; a pointer to no live block is
refused. -/
def release (p : Nat) : List Block → Option (List Block × Nat)
  | [] => none
  | b :: next =>
    if b.payload = p then
      if b.used = .live then some (⟨b.addr, b.size, .free⟩ :: next, b.size) else none
    else (release p next).map fun r => (b :: r.1, r.2)

def kfree (s : State) (entered : Bool) (p : Nat) : Option State :=
  if p = 0 then some s
  else if entered ∧ p &&& 15 = 0 ∧ HEAP_PA + hdr ≤ p ∧ p < PMM_BASE then
    (release p s.blocks).map fun r => ⟨mergeBlocks r.1, s.usedBytes - r.2⟩
  else none

/-! ### Runs -/

/-- The heap, and the pointers that callers hold, with the sizes that they asked for. -/
structure Run extends State where
  held : List (Nat × Nat)

inductive Call
  | kmalloc (entered : Bool) (n : Nat)
  | kfree (entered : Bool) (p : Nat)

/-- Callers free what they hold. -/
def Run.next (r : Run) : Call → Option Run
  | .kmalloc e n =>
    let s := kmalloc r.toState e n
    some ⟨s.1, if s.2 = 0 then r.held else (s.2, n) :: r.held⟩
  | .kfree e p =>
    if p ∈ r.held.map Prod.fst then
      (kfree r.toState e p).map fun s => ⟨s, r.held.filter fun h => h.1 ≠ p⟩
    else none

def Run.run (r : Run) : List Call → Option Run
  | [] => some r
  | c :: cs => (r.next c).bind fun r => r.run cs

end Win98Modern.Heap
