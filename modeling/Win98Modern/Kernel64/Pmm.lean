import Win98Modern.Lib.Bits

/-!
# The page allocator

`mem.c`: `pmm_alloc`, `pmm_free`, `pmm_alloc_contig` and `pmm_free_contig`, and what `mem_init` reserves
before the first of them.  A call holds `pmm_lock`, so it is one step; `entered` says whether the lock took
the CPU of the caller.  A `KASSERT` that fails stops the machine, which is `none`.
-/

namespace Win98Modern.Pmm

abbrev PAGE_SIZE : Nat := 4096
abbrev HEAP_PA : Nat := 0x400000
abbrev PMM_BASE : Nat := 0xF00000
abbrev MAX_PAGES : Nat := 2 ^ 20

/-- `page_map`, `page_allocated`, `pmm_pages`, `pmm_free_pages`, `pmm_hint` and `contig_hint`. -/
structure State where
  pageMap : Nat → Bool
  pageAllocated : Nat → Bool
  pages : Nat
  freePages : Nat
  hint : Nat
  contigHint : Nat

/-- The address of a page, and the page of an address. -/
def pageAddr (i : Nat) : Nat := PMM_BASE + i * PAGE_SIZE
def pageOf (pa : Nat) : Nat := (pa - PMM_BASE) / PAGE_SIZE

/-! ### Reservations -/

/-- What `mem_init` reads of `shz_bootinfo_t`. -/
structure BootInfo where
  ramSize : Nat
  initrdGpa : Nat
  initrdSize : Nat

/-- `bit_set` and a page less that is free. -/
def State.reserve (s : State) (i : Nat) : State :=
  { s with pageMap := Function.update s.pageMap i true, freePages := s.freePages - 1 }

/-- `for (; i <= last && i < pmm_pages; ++i)` over the pages of the initial RAM image. -/
def reserveInitrd (last i : Nat) (s : State) : State :=
  if i ≤ last ∧ i < s.pages then reserveInitrd last (i + 1) (s.reserve i) else s
termination_by s.pages - i
decreasing_by simp only [State.reserve]; omega

/-- `for (; off < z && off < ram_top; off += PAGE_SIZE)` over the pages of a hole. -/
def reserveHole (ramTop z off : Nat) (s : State) : State :=
  if off < z ∧ off < ramTop then
    reserveHole ramTop z (off + PAGE_SIZE) (if s.pageMap (pageOf off) = false then s.reserve (pageOf off) else s)
  else s
termination_by ramTop - off
decreasing_by have : PAGE_SIZE = 4096 := rfl; omega

/-- A hole `[a, z)` that is accepted. -/
def HoleOk (a z : Nat) : Prop := HEAP_PA ≤ a ∧ a < z ∧ a &&& 0xFFF = 0 ∧ z &&& 0xFFF = 0

instance (a z : Nat) : Decidable (HoleOk a z) := inferInstanceAs (Decidable (_ ∧ _))

/-- The holes of the record, as gpa and size; no record is no holes. -/
def reserveHoles (ramTop : Nat) : List (Nat × Nat) → State → Option State
  | [], s => some s
  | (a, size) :: holes, s =>
    let z := (a + size) % 2 ^ 64
    if HoleOk a z then reserveHoles ramTop holes (reserveHole ramTop z (max a PMM_BASE) s) else none

/-- `mem_init`, up to the building of the page tables. -/
def memInit (bi : BootInfo) (holes : List (Nat × Nat)) : Option State :=
  let ramTop := bi.ramSize
  if 16 <<< 20 < ramTop ∧ ramTop ≤ MAX_PAGES * PAGE_SIZE ∧ ramTop &&& 0x1FFFFF = 0 then
    let pages := (ramTop - PMM_BASE) / PAGE_SIZE
    let s : State := ⟨fun _ => false, fun _ => false, pages, pages, 0, 0⟩
    let s :=
      if bi.initrdSize ≠ 0 then
        let first := (bi.initrdGpa + 2 ^ 64 - PMM_BASE) % 2 ^ 64 / PAGE_SIZE
        let last := (bi.initrdGpa + bi.initrdSize + 2 ^ 64 - 1 - PMM_BASE) % 2 ^ 64 / PAGE_SIZE
        reserveInitrd last first s
      else s
    reserveHoles ramTop holes s
  else none

/-! ### Single pages -/

/-- The loop of `pmm_alloc`, `n` counting up to `pmm_pages` as `left` counts down. -/
def allocScan (s : State) : Nat → Nat → Option Nat
  | 0, _ => none
  | left + 1, n =>
    let i := (s.hint + n) % s.pages
    if s.pageMap i = false then some i else allocScan s left (n + 1)

/-- `pmm_alloc`: the address, or 0. -/
def pmmAlloc (s : State) (entered : Bool) : State × Nat :=
  if entered then
    match allocScan s s.pages 0 with
    | some i =>
      ({ s with pageMap := setRange s.pageMap true i 1, pageAllocated := setRange s.pageAllocated true i 1,
                hint := i + 1, freePages := s.freePages - 1 }, pageAddr i)
    | none => (s, 0)
  else (s, 0)

def pmmFree (s : State) (entered : Bool) (pa : Nat) : Option State :=
  let i := pageOf pa
  if entered ∧ PMM_BASE ≤ pa ∧ pa &&& 0xFFF = 0 ∧ i < s.pages ∧ s.pageMap i ∧ s.pageAllocated i then
    some { s with pageMap := setRange s.pageMap false i 1, pageAllocated := setRange s.pageAllocated false i 1,
                  freePages := s.freePages + 1 }
  else none

/-! ### Contiguous pages -/

/-- `page_map[b] == 0xff`. -/
def ByteFull (map : Nat → Bool) (b : Nat) : Prop := ∀ k < 8, map (8 * b + k) = true

instance (map : Nat → Bool) (b : Nat) : Decidable (ByteFull map b) := inferInstanceAs (Decidable (∀ k < 8, _))

/-- A pass of the search down from `i`, `run` free pages having been seen right above: the first page of a
run of `n`.  As many turns as pages are left are enough. -/
def contigScan (map : Nat → Bool) (n : Nat) : Nat → Nat → Nat → Option Nat
  | 0, _, _ => none
  | fuel + 1, i, run =>
    if i = 0 then none
    else
      let i := i - 1
      if i % 8 = 7 ∧ ByteFull map (i / 8) then contigScan map n fuel (i - 7) 0
      else if map i then contigScan map n fuel i 0
      else if run + 1 = n then some i
      else contigScan map n fuel i (run + 1)

/-- The bound of the first pass. -/
def contigStart (s : State) : Nat := if s.contigHint ≠ 0 ∧ s.contigHint ≤ s.pages then s.contigHint else s.pages

def contigSearch (s : State) (n : Nat) : Option Nat :=
  match contigScan s.pageMap n (contigStart s) (contigStart s) 0 with
  | some b => some b
  | none => contigScan s.pageMap n s.pages s.pages 0

def pmmAllocContig (s : State) (entered : Bool) (n : Nat) : State × Nat :=
  if n = 0 then (s, 0)
  else if entered = false then (s, 0)
  else if s.pages < n then (s, 0)
  else
    match contigSearch s n with
    | none => (s, 0)
    | some base =>
      ({ s with pageMap := setRange s.pageMap true base n, pageAllocated := setRange s.pageAllocated true base n,
                freePages := s.freePages - n, contigHint := base }, pageAddr base)

def pmmFreeContig (s : State) (entered : Bool) (pa n : Nat) : Option State :=
  let i := pageOf pa
  if entered ∧ PMM_BASE ≤ pa ∧ pa &&& 0xFFF = 0 ∧ i ≤ s.pages ∧ n ≤ s.pages - i ∧
      ∀ j < n, s.pageMap (i + j) ∧ s.pageAllocated (i + j) then
    some { s with pageMap := setRange s.pageMap false i n, pageAllocated := setRange s.pageAllocated false i n,
                  freePages := s.freePages + n,
                  contigHint := if s.contigHint < i + n then i + n else s.contigHint }
  else none

/-! ### Calls -/

inductive Call
  | alloc (entered : Bool)
  | free (entered : Bool) (pa : Nat)
  | allocContig (entered : Bool) (n : Nat)
  | freeContig (entered : Bool) (pa n : Nat)

/-- The pages that a call asks for, or gives back. -/
def Call.count : Call → Nat
  | .alloc _ => 1
  | .free _ _ => 1
  | .allocContig _ n => n
  | .freeContig _ _ n => n

/-- A call, with what it returns; 0 where it returns nothing. -/
def step (s : State) : Call → Option (State × Nat)
  | .alloc e => some (pmmAlloc s e)
  | .free e pa => (pmmFree s e pa).map fun s => (s, 0)
  | .allocContig e n => some (pmmAllocContig s e n)
  | .freeContig e pa n => (pmmFreeContig s e pa n).map fun s => (s, 0)

/-- The allocator and, for each page, the number of the allocation that it belongs to.  The numbers are kept
by what the calls return and free, without a look at the allocator. -/
structure Ledger extends State where
  holder : Nat → Option Nat
  serial : Nat

/-- The pages from `b` on, `n` of them, get a new holder. -/
def setHolder (h : Nat → Option Nat) (b n : Nat) (v : Option Nat) : Nat → Option Nat :=
  fun i => if b ≤ i ∧ i < b + n then v else h i

def nextHolder (h : Nat → Option Nat) (serial : Nat) (c : Call) (r : Nat) : Nat → Option Nat :=
  match c with
  | .alloc _ | .allocContig _ _ => if r = 0 then h else setHolder h (pageOf r) c.count (some serial)
  | .free _ pa => setHolder h (pageOf pa) 1 none
  | .freeContig _ pa n => setHolder h (pageOf pa) n none

def Ledger.next (l : Ledger) (c : Call) : Option Ledger :=
  (step l.toState c).map fun r => ⟨r.1, nextHolder l.holder l.serial c r.2, l.serial + 1⟩

def Ledger.run (l : Ledger) : List Call → Option Ledger
  | [] => some l
  | c :: cs => (l.next c).bind fun l => l.run cs

/-- The allocator before the first call, with any reservations. -/
structure Start (s : State) : Prop where
  free_eq : s.freePages = zeros s.pageMap s.pages
  none_allocated : ∀ i, s.pageAllocated i = false

def Ledger.start (s : State) : Ledger := ⟨s, fun _ => none, 0⟩

end Win98Modern.Pmm
