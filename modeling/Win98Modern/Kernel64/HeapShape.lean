import Win98Modern.Kernel64.Heap
import Win98Modern.Lib.Coalesce

/-!
# The block list of the heap

`Window holes l`: what `heap_init` makes of the holes (`heapInit_window`).  `Shape init l`: the list has been
cut and merged from it.  Joining two free neighbours and cutting a block keep the shape (`Shape.step`,
`Shape.cut`), and so does the change of a block from free to live and back (`Shape.mark`).
-/

namespace Win98Modern.Heap

open List Block

open Pmm

/-! ### Blocks -/

/-- The block and its header lie over `x`. -/
def Block.Covers (b : Block) (x : Nat) : Prop := b.addr ≤ x ∧ x < b.fin

def Ordered (l : List Block) : Prop := l.Pairwise fun b c => b.fin ≤ c.addr

theorem Block.addr_lt_fin (b : Block) : b.addr < b.fin := by
  have : hdr = 32 := rfl
  rw [fin]
  omega

variable {l l' init : List Block} {b c : Block} {r : Nat × Nat} {holes : List (Nat × Nat)}
  {seg stop : Nat}

theorem Ordered.apart (h : Ordered l) (hb : b ∈ l) (hc : c ∈ l) :
    b = c ∨ b.fin ≤ c.addr ∨ c.fin ≤ b.addr := by
  induction l with
  | nil => cases hb
  | cons a l ih =>
    obtain ⟨ha, hl⟩ := pairwise_cons.1 h
    rcases mem_cons.1 hb with hba | hb'
    · rcases mem_cons.1 hc with hca | hc'
      · exact .inl (hba.trans hca.symm)
      · exact .inr (.inl (hba ▸ ha c hc'))
    · rcases mem_cons.1 hc with hca | hc'
      · exact .inr (.inr (hca ▸ ha b hb'))
      · exact ih hl hb' hc'

/-- Different blocks of a list do not begin at one place. -/
theorem Ordered.eq_of_addr (h : Ordered l) (hb : b ∈ l) (hc : c ∈ l) (heq : b.addr = c.addr) :
    b = c := by
  have hbfin := b.addr_lt_fin
  have hcfin := c.addr_lt_fin
  rcases h.apart hb hc with rfl | hlt | hlt
  · rfl
  · omega
  · omega

def blocksJoin : Coalescing Block where
  Joins := Touching
  decJoins := inferInstance
  join b c := ⟨b.addr, b.size + (hdr + c.size), b.used⟩
  joins_left := by
    rintro a b c ⟨ha, hb, hab⟩
    have hfin : fin ⟨a.addr, a.size + (hdr + b.size), a.used⟩ = b.fin := by
      simp only [fin] at hab ⊢
      omega
    rw [Touching, Touching, hfin]
    exact ⟨fun h => ⟨hb, h.2⟩, fun h => ⟨ha, h.2⟩⟩
  joins_right := by
    rintro a b c ⟨hb, -, -⟩
    rfl
  join_assoc := by
    rintro a b c - -
    rw [mk.injEq]
    refine ⟨rfl, ?_, rfl⟩
    dsimp only
    omega

theorem mergeFrom_eq (n : Block) (l : List Block) : mergeFrom n l = blocksJoin.merge n l := by
  induction l generalizing n with
  | nil => rfl
  | cons b l ih =>
    rw [mergeFrom, Coalescing.merge, ih, ih]
    rfl

theorem mergeBlocks_eq (l : List Block) : mergeBlocks l = blocksJoin.mergeAll l := by
  cases l with
  | nil => rfl
  | cons n l => exact mergeFrom_eq n l

theorem join_fin (h : Touching b c) : (blocksJoin.join b c).fin = c.fin := by
  have := h.2.2
  simp only [fin, blocksJoin] at this ⊢
  omega

/-! ### What joining and marking change -/

theorem step_ordered (h : blocksJoin.Step l l') : Ordered l ↔ Ordered l' := by
  obtain ⟨p, b, c, q, hj, rfl, rfl⟩ := h
  have hbc : b.fin = c.addr := hj.2.2
  have hb := b.addr_lt_fin
  have hc := c.addr_lt_fin
  have haddr : (blocksJoin.join b c).addr = b.addr := rfl
  simp only [Ordered, pairwise_append, pairwise_cons, mem_cons, forall_eq_or_imp, join_fin hj, haddr]
  constructor
  · rintro ⟨hp, ⟨-, hcq, hq⟩, hpq⟩
    exact ⟨hp, ⟨hcq, hq⟩, fun x hx => ⟨(hpq x hx).1, (hpq x hx).2.2⟩⟩
  · rintro ⟨hp, ⟨hcq, hq⟩, hpq⟩
    refine ⟨hp, ⟨⟨hbc.le, fun x hx => ?_⟩, hcq, hq⟩, fun x hx => ⟨(hpq x hx).1, ?_, (hpq x hx).2⟩⟩
    · have := hcq x hx
      omega
    · have := (hpq x hx).1
      omega

theorem step_covers (h : blocksJoin.Step l l') (x : Nat) :
    (∃ b ∈ l, b.Covers x) ↔ ∃ b ∈ l', b.Covers x := by
  obtain ⟨p, b, c, q, hj, rfl, rfl⟩ := h
  have hbc : b.fin = c.addr := hj.2.2
  have hb := b.addr_lt_fin
  have hc := c.addr_lt_fin
  have hjoin : (blocksJoin.join b c).Covers x ↔ b.Covers x ∨ c.Covers x := by
    rw [Block.Covers, Block.Covers, Block.Covers, join_fin hj]
    show b.addr ≤ x ∧ _ ↔ _
    omega
  simp only [mem_append, mem_cons, or_and_right, exists_or, exists_eq_left, hjoin, or_assoc]

theorem step_filter (h : blocksJoin.Step l l') {u : Used} (hu : u ≠ .free) :
    l.filter (fun b => b.used = u) = l'.filter fun b => b.used = u := by
  obtain ⟨p, b, c, q, ⟨hb, hc, -⟩, rfl, rfl⟩ := h
  have hjoin : (blocksJoin.join b c).used = .free := hb
  have hne : ¬Used.free = u := fun h => hu h.symm
  simp [filter_append, hb, hc, hjoin, hne]

def Block.freed (b : Block) : Block := if b.used = .fence then b else { b with used := .free }

theorem Block.freed_of_ne (h : b.used ≠ .fence) : b.freed = { b with used := .free } := if_neg h

theorem map_freed (h : ∀ b ∈ l, b.used ≠ .live) : l.map freed = l := by
  refine (map_congr_left fun b hb => ?_).trans (map_id l)
  obtain ⟨addr, size, u⟩ := b
  cases u with
  | free => rfl
  | live => exact absurd rfl (h _ hb)
  | fence => rfl

theorem step_freed (h : blocksJoin.Step l l') :
    blocksJoin.Step (l.map freed) (l'.map freed) := by
  obtain ⟨p, b, c, q, ⟨hb, hc, hbc⟩, rfl, rfl⟩ := h
  have hfree : ∀ {d : Block}, d.used = .free → d.freed = d := by
    rintro ⟨a, s, u⟩ rfl
    rfl
  have hjoin : (blocksJoin.join b c).freed = blocksJoin.join b c := hfree hb
  refine ⟨p.map freed, b, c, q.map freed, ⟨hb, hc, hbc⟩, ?_, ?_⟩
  · rw [map_append, map_cons, map_cons, hfree hb, hfree hc]
  · rw [map_append, map_cons, hjoin]

/-! ### The shape -/

/-- The list comes from `init` by cutting, joining and marking. -/
structure Shape (init l : List Block) : Prop where
  ordered : Ordered l
  covers : ∀ x, (∃ b ∈ l, b.Covers x) ↔ ∃ b ∈ init, b.Covers x
  aligned : ∀ b ∈ l, b.addr % 16 = 0 ∧ b.size % 16 = 0
  inside : ∀ b ∈ l, b.addr + 64 ≤ PMM_BASE ∧ b.fin ≤ PMM_BASE
  fences : l.filter (fun b => b.used = .fence) = init.filter fun b => b.used = .fence
  whole : mergeBlocks (l.map freed) = init

theorem Shape.step {init l l' : List Block} (h : Shape init l) (hs : blocksJoin.Step l l') : Shape init l' where
  ordered := (step_ordered hs).1 h.ordered
  covers x := (step_covers hs x).symm.trans (h.covers x)
  aligned := by
    obtain ⟨p, b, c, q, hj, rfl, rfl⟩ := hs
    have hb := h.aligned b (by simp)
    have hc := h.aligned c (by simp)
    intro d hd
    rcases mem_append.1 hd with hd | hd
    · exact h.aligned d (by simp [hd])
    rcases mem_cons.1 hd with rfl | hd
    · refine ⟨hb.1, ?_⟩
      show (b.size + (32 + c.size)) % 16 = 0
      omega
    · exact h.aligned d (by simp [hd])
  inside := by
    obtain ⟨p, b, c, q, hj, rfl, rfl⟩ := hs
    intro d hd
    rcases mem_append.1 hd with hd | hd
    · exact h.inside d (by simp [hd])
    rcases mem_cons.1 hd with rfl | hd
    · exact ⟨(h.inside b (by simp)).1, (join_fin hj).trans_le (h.inside c (by simp)).2⟩
    · exact h.inside d (by simp [hd])
  fences := (step_filter hs (by decide)).symm.trans h.fences
  whole := by
    have := Coalescing.mergeAll_step (step_freed hs)
    rw [← mergeBlocks_eq, ← mergeBlocks_eq] at this
    exact this.symm.trans h.whole

theorem Shape.steps (h : Shape init l) (hs : Relation.ReflTransGen blocksJoin.Step l l') :
    Shape init l' := by
  induction hs with
  | refl => exact h
  | tail _ hstep ih => exact ih.step hstep

/-- A block is cut in two; what must be seen about the parts is asked for. -/
theorem Shape.cut (h : Shape init l') (hs : blocksJoin.Step l l')
    (haligned : ∀ b ∈ l, b.addr % 16 = 0 ∧ b.size % 16 = 0)
    (hinside : ∀ b ∈ l, b.addr + 64 ≤ PMM_BASE ∧ b.fin ≤ PMM_BASE) : Shape init l where
  ordered := (step_ordered hs).2 h.ordered
  covers x := (step_covers hs x).trans (h.covers x)
  aligned := haligned
  inside := hinside
  fences := (step_filter hs (by decide)).trans h.fences
  whole := by
    have := Coalescing.mergeAll_step (step_freed hs)
    rw [← mergeBlocks_eq, ← mergeBlocks_eq] at this
    exact this.trans h.whole

theorem Shape.mark {p q : List Block} (h : Shape init (p ++ b :: q)) (haddr : c.addr = b.addr)
    (hsize : c.size = b.size) (hb : b.used ≠ .fence) (hc : c.used ≠ .fence) :
    Shape init (p ++ c :: q) := by
  have hfin : c.fin = b.fin := by rw [fin, fin, haddr, hsize]
  have hfreed : c.freed = b.freed := by rw [freed_of_ne hb, freed_of_ne hc, haddr, hsize]
  obtain ⟨h1, h2, h3, h4, h5, h6⟩ := h
  simp only [mem_append, mem_cons] at h3 h4
  refine ⟨?_, fun x => ?_, fun d hd => ?_, fun d hd => ?_, ?_, ?_⟩
  · simp only [Ordered, pairwise_append, pairwise_cons, mem_cons, forall_eq_or_imp, haddr,
      hfin] at h1 ⊢
    exact h1
  · rw [← h2 x]
    simp only [mem_append, mem_cons, or_and_right, exists_or, exists_eq_left, Block.Covers, haddr, hfin]
  · rcases mem_append.1 hd with hd | hd
    · exact h3 d (.inl hd)
    rcases mem_cons.1 hd with rfl | hd
    · rw [haddr, hsize]
      exact h3 b (.inr (.inl rfl))
    · exact h3 d (.inr (.inr hd))
  · rcases mem_append.1 hd with hd | hd
    · exact h4 d (.inl hd)
    rcases mem_cons.1 hd with rfl | hd
    · rw [haddr, hfin]
      exact h4 b (.inr (.inl rfl))
    · exact h4 d (.inr (.inr hd))
  · rw [← h5]
    simp [filter_append, hb, hc]
  · rw [← h6, map_append, map_append, map_cons, map_cons, hfreed]

/-! ### The start -/

/-- The window from `seg` on, without the holes. -/
def Usable (holes : List (Nat × Nat)) (seg x : Nat) : Prop :=
  seg ≤ x ∧ x < PMM_BASE ∧ ∀ hole ∈ holes, ¬(hole.1 ≤ x ∧ x < hole.2)

/-- Blocks that are free or fences tile the window from `seg` on. -/
structure Window (holes : List (Nat × Nat)) (seg : Nat) (l : List Block) : Prop where
  ordered : Ordered l
  covers : ∀ x, (∃ b ∈ l, b.Covers x) ↔ Usable holes seg x
  aligned : ∀ b ∈ l, b.addr % 16 = 0 ∧ b.size % 16 = 0
  inside : ∀ b ∈ l, b.addr + 64 ≤ PMM_BASE ∧ b.fin ≤ PMM_BASE
  merged : blocksJoin.Merged l
  idle : ∀ b ∈ l, b.used ≠ .live

theorem nearestHole_spec (seg : Nat) (holes : List (Nat × Nat)) (hr : seg ≤ r.1) :
    seg ≤ (nearestHole seg holes r).1 ∧ (nearestHole seg holes r).1 ≤ r.1 ∧
      (nearestHole seg holes r = r ∨ ∃ hole ∈ holes, (nearestHole seg holes r).1 = max hole.1 seg ∧
        (nearestHole seg holes r).2 = hole.2 ∧ seg < hole.2) ∧
      ∀ hole ∈ holes, seg < hole.2 → (nearestHole seg holes r).1 ≤ max hole.1 seg := by
  induction holes generalizing r with
  | nil => exact ⟨hr, le_rfl, .inl rfl, fun _ h => by cases h⟩
  | cons hole holes ih =>
    obtain ⟨gpa, fin⟩ := hole
    rw [nearestHole]
    by_cases hc : seg < fin ∧ gpa < r.1
    · rw [if_pos hc]
      obtain ⟨h1, h2, h3, h4⟩ := ih (r := (max gpa seg, fin)) (le_max_right _ _)
      refine ⟨h1, by omega, .inr ?_, fun k hk hlt => ?_⟩
      · rcases h3 with h3 | ⟨k, hk, h3⟩
        · exact ⟨(gpa, fin), mem_cons_self, by rw [h3], by rw [h3], hc.1⟩
        · exact ⟨k, mem_cons_of_mem _ hk, h3⟩
      · rcases mem_cons.1 hk with rfl | hk
        · exact h2
        · exact h4 k hk hlt
    · rw [if_neg hc]
      obtain ⟨h1, h2, h3, h4⟩ := ih hr
      refine ⟨h1, h2, h3.imp_right ?_, fun k hk hlt => ?_⟩
      · rintro ⟨k, hk, h⟩
        exact ⟨k, mem_cons_of_mem _ hk, h⟩
      rcases mem_cons.1 hk with rfl | hk
      · exact h2.trans ((not_lt.1 fun h => hc ⟨hlt, h⟩).trans (le_max_left _ _))
      · exact h4 k hk hlt

theorem nearest_cases (hok : ∀ hole ∈ holes, HoleOk hole.1 hole.2) (hseg : seg % PAGE_SIZE = 0)
    (hlt : seg < PMM_BASE) (heq : nearestHole seg holes (PMM_BASE, PMM_BASE) = r) :
    r.1 % PAGE_SIZE = 0 ∧ seg ≤ r.1 ∧ r.1 ≤ PMM_BASE ∧ (∀ x, seg ≤ x → x < r.1 → Usable holes seg x) ∧
      (r.1 < PMM_BASE → r.2 % PAGE_SIZE = 0 ∧ r.1 ≤ r.2 ∧ ∀ x, r.1 ≤ x → x < r.2 → ¬Usable holes seg x) := by
  obtain ⟨h1, h2, h3, h4⟩ := nearestHole_spec seg holes (r := (PMM_BASE, PMM_BASE)) hlt.le
  rw [heq] at h1 h2 h3 h4
  have hpage : ∀ a, a &&& 0xFFF = a % PAGE_SIZE := fun a => Nat.and_two_pow_sub_one_eq_mod a 12
  refine ⟨?_, h1, h2, fun x hx hx' => ⟨hx, by omega, fun hole hhole => ?_⟩, fun hstop => ?_⟩
  · rcases h3 with h3 | ⟨hole, hhole, h3, -⟩
    · rw [h3]
      rfl
    · have := (hok hole hhole).2.2.1
      rw [hpage] at this
      rcases max_cases hole.1 seg with ⟨hmax, -⟩ | ⟨hmax, -⟩ <;> rw [h3, hmax] <;> assumption
  · rintro ⟨hin, hin'⟩
    have := h4 hole hhole (by omega)
    omega
  · rcases h3 with h3 | ⟨hole, hhole, h3, hres, hfin⟩
    · rw [h3] at hstop
      exact absurd hstop (lt_irrefl _)
    · have hhok := hok hole hhole
      rw [HoleOk, hpage, hpage] at hhok
      rw [hres]
      refine ⟨hhok.2.2.2, by omega, fun x hx hx' hu => hu.2.2 hole hhole ⟨by omega, hx'⟩⟩

theorem segmentBlocks_spec (hseg : seg % PAGE_SIZE = 0) (hstop : stop % PAGE_SIZE = 0)
    (hle : seg ≤ stop) (hend : stop ≤ PMM_BASE) : Ordered (segmentBlocks seg stop) ∧
      (∀ x, (∃ b ∈ segmentBlocks seg stop, b.Covers x) ↔ seg ≤ x ∧ x < stop) ∧
      (∀ b ∈ segmentBlocks seg stop, (b.addr % 16 = 0 ∧ b.size % 16 = 0) ∧ b.addr + 64 ≤ PMM_BASE ∧
        b.used ≠ .live ∧ b.fin ≤ stop) ∧
      blocksJoin.Merged (segmentBlocks seg stop) ∧
      (stop < PMM_BASE → ∀ b ∈ (segmentBlocks seg stop).getLast?, b.used ≠ .free) := by
  have hseg' : seg % 4096 = 0 := hseg
  have hstop' : stop % 4096 = 0 := hstop
  have hend' : stop ≤ 0xF00000 := hend
  rw [segmentBlocks]
  by_cases hempty : stop = seg
  · rw [if_neg (by show ¬2 * 32 + 64 ≤ _; omega)]
    exact ⟨.nil, fun x => iff_of_false (by simp) (by omega), by simp, .nil, by simp⟩
  rw [if_pos (by show 2 * 32 + 64 ≤ _; omega)]
  split_ifs with hlt
  · have hlt' : stop < 0xF00000 := hlt
    refine ⟨?_, fun x => ?_, ?_, ?_, fun _ b hb => ?_⟩
    · refine pairwise_pair.2 ?_
      show seg + 32 + (stop - seg - 32 - 32) ≤ stop - 32
      omega
    · simp only [mem_cons, not_mem_nil, or_false, exists_eq_or_imp, exists_eq_left]
      show (seg ≤ x ∧ x < seg + 32 + (stop - seg - 32 - 32)) ∨ (stop - 32 ≤ x ∧ x < stop - 32 + 32 + 0) ↔ _
      omega
    · simp only [mem_cons, not_mem_nil, or_false, forall_eq_or_imp, forall_eq]
      refine ⟨⟨⟨by show seg % 16 = 0; omega, by show (stop - seg - 32 - 32) % 16 = 0; omega⟩, ?_,
        Used.noConfusion, ?_⟩, ⟨by show (stop - 32) % 16 = 0; omega, trivial⟩, ?_, Used.noConfusion, ?_⟩
      · show seg + 64 ≤ 0xF00000
        omega
      · show seg + 32 + (stop - seg - 32 - 32) ≤ stop
        omega
      · show stop - 32 + 64 ≤ 0xF00000
        omega
      · show stop - 32 + 32 + 0 ≤ stop
        omega
    · exact isChain_pair.2 fun h => Used.noConfusion h.2.1
    · cases hb
      exact Used.noConfusion
  · have heq : stop = 0xF00000 := by
      have : ¬stop < 0xF00000 := hlt
      omega
    refine ⟨pairwise_singleton _ _, fun x => ?_, ?_, .singleton _, fun h => absurd h hlt⟩
    · simp only [mem_singleton, exists_eq_left]
      show (seg ≤ x ∧ x < seg + 32 + (stop - seg - 32)) ↔ _
      omega
    · simp only [mem_singleton, forall_eq]
      refine ⟨⟨by show seg % 16 = 0; omega, by show (stop - seg - 32) % 16 = 0; omega⟩, ?_,
        Used.noConfusion, ?_⟩
      · show seg + 64 ≤ 0xF00000
        omega
      · show seg + 32 + (stop - seg - 32) ≤ stop
        omega

theorem Window.le (h : Window holes seg l) (hb : b ∈ l) : seg ≤ b.addr ∧ b.addr < PMM_BASE := by
  have hu := (h.covers b.addr).1 ⟨b, hb, le_rfl, b.addr_lt_fin⟩
  exact ⟨hu.1, hu.2.1⟩

theorem Window.append {seg' : Nat} (hl : Window holes seg' l) (hseg : seg % PAGE_SIZE = 0)
    (hstop : stop % PAGE_SIZE = 0) (hle : seg ≤ stop) (hend : stop ≤ PMM_BASE)
    (hclear : ∀ x, seg ≤ x → x < stop → Usable holes seg x) (hnext : stop ≤ seg')
    (hhole : ∀ x, stop ≤ x → x < seg' → ¬Usable holes seg x) :
    Window holes seg (segmentBlocks seg stop ++ l) := by
  obtain ⟨h1, h2, h3, h4, h5⟩ := segmentBlocks_spec hseg hstop hle hend
  refine ⟨?_, fun x => ?_, fun b hb => ?_, fun b hb => ?_, ?_, fun b hb => ?_⟩
  · refine pairwise_append.2 ⟨h1, hl.ordered, fun b hb c hc => ?_⟩
    exact ((h3 b hb).2.2.2.trans hnext).trans (hl.le hc).1
  · simp only [mem_append, or_and_right, exists_or]
    rw [h2, hl.covers]
    constructor
    · rintro (h | h)
      · exact hclear x h.1 h.2
      · exact ⟨by have := h.1; omega, h.2⟩
    · intro h
      by_cases hx : x < stop
      · exact .inl ⟨h.1, hx⟩
      · exact .inr ⟨not_lt.1 fun hx' => hhole x (by omega) hx' h, h.2⟩
  · exact (mem_append.1 hb).elim (fun hb => (h3 b hb).1) (hl.aligned b)
  · exact (mem_append.1 hb).elim (fun hb => ⟨(h3 b hb).2.1, (h3 b hb).2.2.2.trans hend⟩) (hl.inside b)
  · refine isChain_append.2 ⟨h4, hl.merged, fun b hb c hc hj => ?_⟩
    by_cases hlt : stop < PMM_BASE
    · exact h5 hlt b hb hj.1
    · have := hl.le (mem_of_mem_head? hc)
      omega
  · exact (mem_append.1 hb).elim (fun hb => (h3 b hb).2.2.1) (hl.idle b)

theorem heapSegments_window (hok : ∀ hole ∈ holes, HoleOk hole.1 hole.2)
    (hseg : seg % PAGE_SIZE = 0) : Window holes seg (heapSegments holes seg) := by
  fun_induction heapSegments holes seg with
  | case1 seg hlt r ih =>
    obtain ⟨hpage, hle, hend, hclear, hhole⟩ := nearest_cases hok hseg hlt rfl
    by_cases hstop : r.1 < PMM_BASE
    · obtain ⟨hpage', hle', hhole'⟩ := hhole hstop
      rw [dif_pos hstop] at ih
      rw [if_pos hstop]
      exact (ih hpage').append hseg hpage hle hend hclear hle' hhole'
    · rw [dif_neg hstop] at ih
      rw [if_neg hstop]
      refine (ih rfl).append hseg hpage hle hend hclear hend fun x hx hx' => ?_
      exact absurd hx' (by omega)
  | case2 seg hge =>
    exact ⟨.nil, fun x => iff_of_false (by simp) fun h => hge (h.1.trans_lt h.2.1), by simp, by simp, .nil, by simp⟩

theorem heapInit_window (hok : ∀ hole ∈ holes, HoleOk hole.1 hole.2) {s : State}
    (h : heapInit holes = some s) : Window holes HEAP_PA s.blocks ∧ s.usedBytes = 0 := by
  rw [heapInit] at h
  split_ifs at h
  cases h
  exact ⟨heapSegments_window hok rfl, rfl⟩

theorem Window.shape (h : Window holes seg l) : Shape l l where
  ordered := h.ordered
  covers _ := Iff.rfl
  aligned := h.aligned
  inside := h.inside
  fences := rfl
  whole := by rw [map_freed h.idle, mergeBlocks_eq, h.merged.mergeAll_eq]

end Win98Modern.Heap
