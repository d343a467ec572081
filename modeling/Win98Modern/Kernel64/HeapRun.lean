import Win98Modern.Kernel64.HeapShape
import Mathlib.Algebra.GroupWithZero.Nat

/-!
# Runs of the kernel heap

Every call keeps `Inv` (`Inv.kmalloc`, `Inv.kfree`), so every run from `heap_init` does (`Inv.run`), and `Inv`
says what the heap promises (`heap_integrity`).
-/

namespace Win98Modern.Heap

open List

open Pmm

/-- The blocks that callers hold. -/
def live (l : List Block) : List Block := l.filter fun b => b.used = .live

@[simp] theorem live_append (p q : List Block) : live (p ++ q) = live p ++ live q := filter_append ..
variable {b c : Block} {l l' q init : List Block} {n : Nat} {holes : List (Nat × Nat)} {r' : Run}

theorem live_cons (hb : b.used = .live) (l : List Block) : live (b :: l) = b :: live l := by
  simp [live, hb]

theorem live_cons_of_ne (hb : b.used ≠ .live) (l : List Block) : live (b :: l) = live l := by
  simp [live, hb]

theorem mem_live : b ∈ live l ↔ b ∈ l ∧ b.used = .live := by simp [live]

theorem steps_live (h : Relation.ReflTransGen blocksJoin.Step l l') : live l = live l' := by
  induction h with
  | refl => rfl
  | tail _ hstep ih => exact ih.trans (step_filter hstep (by decide))

theorem merged_split {p : List Block} (hc : c.used ≠ .free) :
    blocksJoin.Merged (p ++ c :: q) ↔ blocksJoin.Merged p ∧ blocksJoin.Merged q := by
  constructor
  · exact fun h => ⟨h.left_of_append, h.right_of_append.tail⟩
  · rintro ⟨hp, hq⟩
    refine isChain_append.2 ⟨hp, isChain_cons.2 ⟨fun b _ hj => hc hj.1, hq⟩, fun a _ b hb hj => ?_⟩
    cases hb
    exact hc hj.2.1

/-! ### Calls -/

theorem takeFit_eq (h : takeFit n l = some (l', c)) :
    ∃ p b q, l = p ++ b :: q ∧ b.used = .free ∧ n ≤ b.size ∧
      (c = ⟨b.addr, b.size, .live⟩ ∧ l' = p ++ c :: q ∨ 64 ≤ b.size - n ∧ c = ⟨b.addr, n, .live⟩ ∧
        l' = p ++ c :: ⟨b.payload + n, b.size - n - hdr, .free⟩ :: q) := by
  induction l generalizing l' with
  | nil => cases h
  | cons b l ih =>
    rw [takeFit] at h
    split_ifs at h with hfit hcut
    · cases h
      exact ⟨[], b, l, rfl, hfit.1, hfit.2, .inr ⟨hcut, rfl, rfl⟩⟩
    · cases h
      exact ⟨[], b, l, rfl, hfit.1, hfit.2, .inl ⟨rfl, rfl⟩⟩
    · cases htake : takeFit n l with
      | none =>
        rw [htake] at h
        cases h
      | some r =>
        rw [htake] at h
        cases h
        obtain ⟨p, d, q, rfl, hfree, hle, hl'⟩ := ih htake
        refine ⟨b :: p, d, q, rfl, hfree, hle, hl'.imp (fun h => ⟨h.1, ?_⟩) fun h => ⟨h.1, h.2.1, ?_⟩⟩
        · exact congrArg (b :: ·) h.2
        · exact congrArg (b :: ·) h.2.2

theorem Shape.split {p : List Block} (h : Shape init (p ++ b :: q)) (hb : b.used = .free)
    (hn : n % 16 = 0) (hle : n + 64 ≤ b.size) :
    Shape init (p ++ ⟨b.addr, n, .free⟩ :: ⟨b.payload + n, b.size - n - hdr, .free⟩ :: q) := by
  have hmem : ∀ {d : Block}, d ∈ p ∨ d = b ∨ d ∈ q → d ∈ p ++ b :: q := by simp
  have halign := h.aligned b (hmem (.inr (.inl rfl)))
  have hin := h.inside b (hmem (.inr (.inl rfl)))
  have hfin : b.addr + 32 + b.size ≤ PMM_BASE := hin.2
  refine h.cut ⟨p, _, _, q, ⟨rfl, rfl, rfl⟩, rfl, ?_⟩ (fun d hd => ?_) fun d hd => ?_
  · refine congrArg (p ++ · :: q) ?_
    obtain ⟨addr, size, u⟩ := b
    cases hb
    refine congrArg (Block.mk addr · Used.free) ?_
    show size = n + (32 + (size - n - 32))
    dsimp only at hle
    omega
  · simp only [mem_append, mem_cons] at hd
    rcases hd with hd | rfl | rfl | hd
    · exact h.aligned d (hmem (.inl hd))
    · exact ⟨halign.1, hn⟩
    · show (b.addr + 32 + n) % 16 = 0 ∧ (b.size - n - 32) % 16 = 0
      omega
    · exact h.aligned d (hmem (.inr (.inr hd)))
  · simp only [mem_append, mem_cons] at hd
    rcases hd with hd | rfl | rfl | hd
    · exact h.inside d (hmem (.inl hd))
    · refine ⟨hin.1, ?_⟩
      show b.addr + 32 + n ≤ PMM_BASE
      omega
    · show b.addr + 32 + n + 64 ≤ PMM_BASE ∧ b.addr + 32 + n + 32 + (b.size - n - 32) ≤ PMM_BASE
      omega
    · exact h.inside d (hmem (.inr (.inr hd)))

/-- What `kmalloc` does to the list. -/
theorem takeFit_spec (h : Shape init l) (hm : blocksJoin.Merged l) (hn : n % 16 = 0)
    (ht : takeFit n l = some (l', c)) : Shape init l' ∧ blocksJoin.Merged l' ∧ n ≤ c.size ∧
      ∃ p q, live l = p ++ q ∧ live l' = p ++ c :: q := by
  obtain ⟨p, b, q, rfl, hfree, hle, ⟨rfl, rfl⟩ | ⟨hcut, rfl, rfl⟩⟩ := takeFit_eq ht
  · refine ⟨h.mark rfl rfl (by simp [hfree]) Used.noConfusion, ?_, hle, live p, live q, ?_, ?_⟩
    · exact (merged_split Used.noConfusion).2 ⟨hm.left_of_append, hm.right_of_append.tail⟩
    · rw [live_append, live_cons_of_ne (by simp [hfree])]
    · rw [live_append, live_cons rfl]
  · refine ⟨(h.split hfree hn (by omega)).mark rfl rfl Used.noConfusion Used.noConfusion, ?_, le_rfl,
      live p, live q, ?_, ?_⟩
    · refine (merged_split Used.noConfusion).2 ⟨hm.left_of_append, ?_⟩
      have hq := isChain_cons.1 hm.right_of_append
      refine isChain_cons.2 ⟨fun d hd hj => hq.1 d hd ⟨hfree, hj.2.1, Eq.trans ?_ hj.2.2⟩, hq.2⟩
      show b.addr + 32 + b.size = b.addr + 32 + n + 32 + (b.size - n - 32)
      omega
    · rw [live_append, live_cons_of_ne (by simp [hfree])]
    · rw [live_append, live_cons rfl, live_cons_of_ne Used.noConfusion]

theorem release_eq {p k : Nat} (h : release p l = some (l', k)) :
    ∃ a b q, l = a ++ b :: q ∧ b.payload = p ∧ b.used = .live ∧ k = b.size ∧
      l' = a ++ ⟨b.addr, b.size, .free⟩ :: q := by
  induction l generalizing l' with
  | nil => cases h
  | cons b l ih =>
    rw [release] at h
    split_ifs at h with hp hlive
    · cases h
      exact ⟨[], b, l, rfl, hp, hlive, rfl, rfl⟩
    · cases hrel : release p l with
      | none =>
        rw [hrel] at h
        cases h
      | some r =>
        rw [hrel] at h
        cases h
        obtain ⟨a, d, q, rfl, hd, hused, hk, hl'⟩ := ih hrel
        exact ⟨b :: a, d, q, rfl, hd, hused, hk, congrArg (b :: ·) hl'⟩

theorem release_some (ho : Ordered l) (hb : b ∈ l) (hlive : b.used = .live) :
    (release b.payload l).isSome := by
  induction l with
  | nil => cases hb
  | cons c l ih =>
    rw [release]
    by_cases hp : c.payload = b.payload
    · have hcb : c = b := ho.eq_of_addr mem_cons_self hb (Nat.add_right_cancel hp)
      rw [if_pos hp, if_pos (hcb ▸ hlive)]
      rfl
    · have hb' : b ∈ l := (mem_cons.1 hb).resolve_left fun h => hp (h ▸ rfl)
      rw [if_neg hp, Option.isSome_map]
      exact ih (pairwise_cons.1 ho).2 hb'

theorem payloads_nodup (ho : Ordered l) : ((live l).map Block.payload).Nodup := by
  refine pairwise_map.2 ((ho.sublist filter_sublist).imp fun {b c} hbc heq => ?_)
  have := b.addr_lt_fin
  have : b.addr = c.addr := Nat.add_right_cancel heq
  omega

/-! ### The invariant -/

/-- The list keeps its shape, and what callers hold is what is in use. -/
structure Inv (init : List Block) (r : Run) : Prop where
  shape : Shape init r.blocks
  merged : blocksJoin.Merged r.blocks
  held : (r.held.map Prod.fst).Perm ((live r.blocks).map Block.payload)
  sizes : ∀ h ∈ r.held, ∃ b ∈ live r.blocks, b.payload = h.1 ∧ h.2 ≤ b.size
  bytes : r.usedBytes = ((live r.blocks).map Block.size).sum

theorem Inv.start {s : State} (h : Window holes HEAP_PA s.blocks) (hbytes : s.usedBytes = 0) :
    Inv s.blocks ⟨s, []⟩ := by
  have hlive : live s.blocks = [] := filter_eq_nil_iff.2 fun b hb => by simp [h.idle b hb]
  exact ⟨h.shape, h.merged, by simp [hlive], by simp, by simp [hlive, hbytes]⟩

theorem kmalloc_cases (s : State) (e : Bool) (n : Nat) :
    Heap.kmalloc s e n = (s, 0) ∨ ∃ l' c, takeFit ((n + 15) / 16 * 16) s.blocks = some (l', c) ∧
      Heap.kmalloc s e n = (⟨l', s.usedBytes + c.size⟩, c.payload) := by
  rw [Heap.kmalloc]
  by_cases hbig : 2 ^ 64 - 1 - 15 < n
  · exact .inl (if_pos hbig)
  · cases e with
    | false => exact .inl (if_neg hbig)
    | true =>
      rw [if_neg hbig, if_pos rfl]
      cases takeFit ((n + 15) / 16 * 16) s.blocks with
      | none => exact .inl rfl
      | some w => exact .inr ⟨w.1, w.2, rfl, rfl⟩

theorem Inv.kmalloc {r : Run} (h : Inv init r) (e : Bool) (n : Nat)
    (hr : r.next (.kmalloc e n) = some r') : Inv init r' := by
  rw [Run.next] at hr
  rcases kmalloc_cases r.toState e n with hk | ⟨l', c, ht, hk⟩
  · rw [hk] at hr
    cases hr
    exact h
  · have hpay : c.payload ≠ 0 := Nat.ne_of_gt (Nat.add_pos_right _ (by decide))
    rw [hk] at hr
    cases hr
    obtain ⟨hshape, hmerged, hsize, p, q, hl, hl'⟩ := takeFit_spec h.shape h.merged (Nat.mul_mod_left ..) ht
    obtain ⟨-, -, hheld, hsizes, hbytes⟩ := h
    rw [hl] at hheld hsizes hbytes
    refine ⟨hshape, hmerged, ?_, ?_, ?_⟩
    · show (c.payload :: r.held.map Prod.fst).Perm ((live l').map Block.payload)
      rw [hl', map_append, map_cons]
      rw [map_append] at hheld
      exact (hheld.cons _).trans perm_middle.symm
    · show ∀ h ∈ (c.payload, n) :: r.held, ∃ b ∈ live l', b.payload = h.1 ∧ h.2 ≤ b.size
      rw [hl']
      refine forall_mem_cons.2 ⟨⟨c, by simp, rfl, ?_⟩, fun x hx => ?_⟩
      · show n ≤ c.size
        omega
      · obtain ⟨b, hb, hbx⟩ := hsizes x hx
        refine ⟨b, ?_, hbx⟩
        rw [mem_append] at hb
        simp only [mem_append, mem_cons]
        exact hb.imp_right .inr
    · show r.usedBytes + c.size = ((live l').map Block.size).sum
      rw [hbytes, hl']
      simp only [map_append, sum_append, map_cons, sum_cons]
      omega

theorem Inv.kfree_some {r : Run} (hw : Window holes HEAP_PA init) (h : Inv init r) {p : Nat}
    (hp : p ∈ r.held.map Prod.fst) : (Heap.kfree r.toState true p).isSome := by
  obtain ⟨b, hb, rfl⟩ := mem_map.1 (h.held.mem_iff.1 hp)
  obtain ⟨hmem, hlive⟩ := mem_live.1 hb
  have hlow : HEAP_PA ≤ b.addr := ((hw.covers b.addr).1 ((h.shape.covers b.addr).1 ⟨b, hmem, le_rfl, b.addr_lt_fin⟩)).1
  have halign := (h.shape.aligned b hmem).1
  have hin := (h.shape.inside b hmem).1
  have hpay : b.payload = b.addr + 32 := rfl
  have hmask : b.payload &&& 15 = 0 := by
    rw [show (15 : Nat) = 2 ^ 4 - 1 from rfl, Nat.and_two_pow_sub_one_eq_mod]
    show b.payload % 16 = 0
    omega
  have hdr32 : hdr = 32 := rfl
  rw [Heap.kfree, if_neg (by omega), if_pos ⟨rfl, hmask, by omega, by omega⟩, Option.isSome_map]
  exact release_some h.shape.ordered hmem hlive

theorem Inv.kfree {r : Run} (h : Inv init r) (e : Bool) (p : Nat)
    (hr : r.next (.kfree e p) = some r') : Inv init r' := by
  simp only [Run.next, Heap.kfree] at hr
  split_ifs at hr with hp h0 hrange
  · -- no block begins at 0
    obtain ⟨b, -, hb⟩ := mem_map.1 (h.held.mem_iff.1 hp)
    have : b.addr + 32 = p := hb
    omega
  · cases hrel : release p r.blocks with
    | none =>
      rw [hrel] at hr
      cases hr
    | some w =>
      rw [hrel] at hr
      cases hr
      obtain ⟨a, b, q, hblocks, rfl, hlive, hk, hl'⟩ := release_eq hrel
      have hnodup := payloads_nodup h.shape.ordered
      obtain ⟨hshape, -, hheld, hsizes, hbytes⟩ := h
      have hl : live r.blocks = live a ++ b :: live q := by rw [hblocks, live_append, live_cons hlive]
      have hsteps : Relation.ReflTransGen blocksJoin.Step w.1 (mergeBlocks w.1) := by
        rw [mergeBlocks_eq]
        exact Coalescing.mergeAll_steps w.1
      have hfreed : live (mergeBlocks w.1) = live a ++ live q := by
        rw [← steps_live hsteps, hl', live_append, live_cons_of_ne Used.noConfusion]
      rw [hl] at hheld hsizes hbytes hnodup
      rw [map_append, map_cons] at hheld hnodup
      have hne : ∀ x ∈ (live a).map Block.payload ++ (live q).map Block.payload, x ≠ b.payload := by
        have := (nodup_cons.1 (perm_middle.nodup_iff.1 hnodup)).1
        exact fun x hx heq => this (heq ▸ hx)
      refine ⟨?_, ?_, ?_, fun x hx => ?_, ?_⟩
      · refine Shape.steps ?_ hsteps
        rw [hblocks] at hshape
        rw [hl']
        exact hshape.mark rfl rfl (by simp [hlive]) Used.noConfusion
      · show blocksJoin.Merged (mergeBlocks w.1)
        rw [mergeBlocks_eq]
        exact Coalescing.mergeAll_merged w.1
      · show ((r.held.filter fun h => h.1 ≠ b.payload).map Prod.fst).Perm ((live (mergeBlocks w.1)).map Block.payload)
        have hmap : (r.held.filter fun h => h.1 ≠ b.payload).map Prod.fst =
            (r.held.map Prod.fst).filter fun x => x ≠ b.payload := by
          rw [filter_map]
          rfl
        have hrest := (hheld.trans perm_middle).filter fun x => x ≠ b.payload
        rw [filter_cons_of_neg (by simp), filter_eq_self.2 fun x hx => decide_eq_true (hne x hx)] at hrest
        rw [hmap, hfreed, map_append]
        exact hrest
      · obtain ⟨hx, hxp⟩ := mem_filter.1 hx
        obtain ⟨d, hd, hdx⟩ := hsizes x hx
        refine ⟨d, ?_, hdx⟩
        show d ∈ live (mergeBlocks w.1)
        rw [hfreed]
        simp only [mem_append, mem_cons] at hd ⊢
        rcases hd with hd | rfl | hd
        · exact .inl hd
        · exact absurd hdx.1.symm (of_decide_eq_true hxp)
        · exact .inr hd
      · show r.usedBytes - w.2 = ((live (mergeBlocks w.1)).map Block.size).sum
        rw [hbytes, hfreed, hk]
        simp only [map_append, sum_append, map_cons, sum_cons]
        omega
  · cases hr

theorem Inv.run {r : Run} (h : Inv init r) (cs : List Call) (hr : r.run cs = some r') :
    Inv init r' := by
  induction cs generalizing r with
  | nil =>
    cases hr
    exact h
  | cons c cs ih =>
    obtain ⟨s, hs, hrest⟩ := Option.bind_eq_some_iff.1 hr
    refine ih ?_ hrest
    cases c with
    | kmalloc e n => exact h.kmalloc e n hs
    | kfree e p => exact h.kfree e p hs

/-! ### The heap's list and its bytes -/

/-- `hole_gpa` and `hole_end`, from the gpa and the size of the record. -/
def holeEnds (holes : List (Nat × Nat)) : List (Nat × Nat) := holes.map fun h => (h.1, (h.1 + h.2) % 2 ^ 64)

theorem reserveHoles_ok {ramTop : Nat} {s s' : Pmm.State}
    (h : reserveHoles ramTop holes s = some s') :
    ∀ hole ∈ holeEnds holes, HoleOk hole.1 hole.2 := by
  induction holes generalizing s with
  | nil => exact fun _ hmem => by cases hmem
  | cons hole holes ih =>
    simp only [reserveHoles] at h
    split_ifs at h with hok
    exact forall_mem_cons.2 ⟨hok, ih h⟩

theorem memInit_holes {bi : BootInfo} {s : Pmm.State} (h : memInit bi holes = some s) :
    ∀ hole ∈ holeEnds holes, HoleOk hole.1 hole.2 := by
  rw [memInit] at h
  split_ifs at h <;> exact reserveHoles_ok h

/-- What holds between two calls; `init` are the blocks that `heap_init` made. -/
structure Integrity (holes : List (Nat × Nat)) (init : List Block) (r : Run) : Prop where
  ordered : Ordered r.blocks
  tiles : ∀ x, (∃ b ∈ r.blocks, b.Covers x) ↔ Usable holes HEAP_PA x
  merged : r.blocks.IsChain fun b c => ¬Touching b c
  held : (r.held.map Prod.fst).Perm ((live r.blocks).map Block.payload)
  sizes : ∀ h ∈ r.held, h.1 % 16 = 0 ∧ ∃ b ∈ live r.blocks, b.payload = h.1 ∧ h.2 ≤ b.size
  disjoint : r.held.Pairwise fun h k => h.1 + h.2 ≤ k.1 ∨ k.1 + k.2 ≤ h.1
  usedBytes : r.usedBytes = ((live r.blocks).map Block.size).sum
  fences : r.blocks.filter (fun b => b.used = .fence) = init.filter fun b => b.used = .fence
  frees : ∀ h ∈ r.held, (Heap.kfree r.toState true h.1).isSome
  whole : r.held = [] → r.blocks = init

theorem Inv.integrity {r : Run} (hw : Window holes HEAP_PA init) (h : Inv init r) :
    Integrity holes init r where
  ordered := h.shape.ordered
  tiles x := (h.shape.covers x).trans (hw.covers x)
  merged := h.merged
  held := h.held
  sizes x hx := by
    obtain ⟨b, hb, hbx⟩ := h.sizes x hx
    have halign := (h.shape.aligned b (mem_live.1 hb).1).1
    have hpay : b.addr + 32 = x.1 := hbx.1
    exact ⟨by omega, b, hb, hbx⟩
  disjoint := by
    have hnodup : (r.held.map Prod.fst).Nodup := h.held.nodup_iff.2 (payloads_nodup h.shape.ordered)
    refine (pairwise_map.1 hnodup).imp_of_mem fun {x y} hx hy hne => ?_
    obtain ⟨b, hb, hbx, hbn⟩ := h.sizes x hx
    obtain ⟨c, hc, hcy, hcn⟩ := h.sizes y hy
    have hbx' : b.addr + 32 = x.1 := hbx
    have hcy' : c.addr + 32 = y.1 := hcy
    have hbfin : b.fin = b.addr + 32 + b.size := rfl
    have hcfin : c.fin = c.addr + 32 + c.size := rfl
    rcases h.shape.ordered.apart (mem_live.1 hb).1 (mem_live.1 hc).1 with rfl | hlt | hlt
    · exact absurd (hbx.symm.trans hcy) hne
    · omega
    · omega
  usedBytes := h.bytes
  fences := h.shape.fences
  frees x hx := h.kfree_some hw (mem_map_of_mem hx)
  whole hnil := by
    have hlive : live r.blocks = [] := by
      have := h.held
      rw [hnil, map_nil] at this
      exact map_eq_nil_iff.1 (nil_perm.1 this)
    have hidle : ∀ b ∈ r.blocks, b.used ≠ .live := fun b hb hused => by
      have := mem_live.2 ⟨hb, hused⟩
      rw [hlive] at this
      cases this
    have := h.shape.whole
    rwa [map_freed hidle, mergeBlocks_eq, h.merged.mergeAll_eq] at this

/-- **The heap keeps its blocks in order.**  For the holes that `mem_init` accepts, in every run of `kmalloc` and
`kfree` of what callers hold. -/
theorem heap_integrity {bi : BootInfo} {holes : List (Nat × Nat)} {pmm : Pmm.State} {s : State} {r : Run}
    (cs : List Call) (hmem : memInit bi holes = some pmm) (hinit : heapInit (holeEnds holes) = some s)
    (hr : Run.run ⟨s, []⟩ cs = some r) : Integrity (holeEnds holes) s.blocks r := by
  obtain ⟨hw, hbytes⟩ := heapInit_window (memInit_holes hmem) hinit
  exact ((Inv.start hw hbytes).run cs hr).integrity hw

theorem heapSegments_eq {seg : Nat} {r : Nat × Nat} (hlt : seg < PMM_BASE)
    (hr : nearestHole seg holes (PMM_BASE, PMM_BASE) = r) : heapSegments holes seg =
      segmentBlocks seg r.1 ++ heapSegments holes (if r.1 < PMM_BASE then r.2 else PMM_BASE) := by
  subst hr
  rw [heapSegments, if_pos hlt]

/-- A hole from 8 MiB on. -/
theorem heap_integrity_sample : ∃ r, Run.run ⟨⟨[⟨0x400000, 0x3FFFC0, .free⟩, ⟨0x7FFFE0, 0, .fence⟩,
      ⟨0x808000, 0x6F7FE0, .free⟩], 0⟩, []⟩ [.kmalloc true 100, .kmalloc true 0, .kfree true 0x400020] = some r ∧
    Integrity (holeEnds [(0x800000, 0x8000)])
      [⟨0x400000, 0x3FFFC0, .free⟩, ⟨0x7FFFE0, 0, .fence⟩, ⟨0x808000, 0x6F7FE0, .free⟩] r := by
  obtain ⟨pmm, hpmm⟩ := Option.isSome_iff_exists.1
    (rfl : (memInit ⟨0x2000000, 0, 0⟩ [(0x800000, 0x8000)]).isSome = true)
  have hfirst : heapSegments [(0x800000, 0x808000)] 0x400000 = [⟨0x400000, 0x3FFFC0, .free⟩, ⟨0x7FFFE0, 0, .fence⟩] ++
      heapSegments [(0x800000, 0x808000)] 0x808000 := by
    rw [heapSegments_eq (by decide) (by decide : _ = (0x800000, 0x808000))]
    simp [segmentBlocks, PMM_BASE, hdr]
  have hsecond : heapSegments [(0x800000, 0x808000)] 0x808000 = [⟨0x808000, 0x6F7FE0, .free⟩] ++
      heapSegments [(0x800000, 0x808000)] 0xF00000 := by
    rw [heapSegments_eq (by decide) (by decide : _ = (0xF00000, 0xF00000))]
    simp [segmentBlocks, PMM_BASE, hdr]
  have hlast : heapSegments [(0x800000, 0x808000)] 0xF00000 = [] := by
    rw [heapSegments, if_neg (by decide)]
  have hinit : heapInit (holeEnds [(0x800000, 0x8000)]) = some ⟨[⟨0x400000, 0x3FFFC0, .free⟩,
      ⟨0x7FFFE0, 0, .fence⟩, ⟨0x808000, 0x6F7FE0, .free⟩], 0⟩ := by
    show (if heapSegments [(0x800000, 0x808000)] 0x400000 = [] then none
      else some (⟨heapSegments [(0x800000, 0x808000)] 0x400000, 0⟩ : State)) = _
    rw [hfirst, hsecond, hlast]
    rfl
  exact ⟨_, rfl, heap_integrity [.kmalloc true 100, .kmalloc true 0, .kfree true 0x400020] hpmm hinit rfl⟩

end Win98Modern.Heap
