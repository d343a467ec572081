import Win98Modern.Abi.Pool
import Mathlib.Algebra.BigOperators.Group.Finset.Piecewise
import Mathlib.Algebra.GroupWithZero.Nat
import Mathlib.Algebra.Order.BigOperators.Group.Finset
import Mathlib.Order.Interval.Finset.Nat

/-!
# Ownership of the pool

Each byte of the owner table that is not 0 has one holder: a live allocation, or a call that is
claiming, giving back or handing over the block (`Inv`).  **`pool_ownership`**: this holds in every
run in which a release that passes the owner check is of a range that its domain holds.
-/

namespace Win98Modern.Shz

open Function List

/-! ### Counting holders -/

section Counting

variable {T α : Type} [DecidableEq T] [Fintype T]

theorem sum_update_add {f : T → α} {g : α → Nat} {t : T} {a : α} :
    ∑ u, g (update f t a u) + g (f t) = ∑ u, g (f u) + g a := by
  rw [← Finset.add_sum_erase _ (fun u => g (f u)) (Finset.mem_univ t),
    ← Finset.add_sum_erase _ (fun u => g (update f t a u)) (Finset.mem_univ t),
    update_self]
  have hrest : ∑ u ∈ Finset.univ.erase t, g (update f t a u) =
      ∑ u ∈ Finset.univ.erase t, g (f u) := by
    apply Finset.sum_congr rfl
    intro u hu
    rw [update_of_ne (Finset.ne_of_mem_erase hu)]
  omega

/-- Ranges that overlap nowhere: no point is in two of them. -/
theorem pairwise_of_countP_le {β : Type} {covers : α → β → Prop} [∀ a b, Decidable (covers a b)]
    {l : List α} (h : ∀ b, l.countP (fun a => covers a b) ≤ 1) :
    l.Pairwise fun a a' => ∀ b, ¬(covers a b ∧ covers a' b) := by
  induction l with
  | nil => exact List.Pairwise.nil
  | cons a l ih =>
    constructor
    · rintro a' ha' b ⟨hab, hab'⟩
      have hb := h b
      rw [countP_cons, if_pos (decide_eq_true hab)] at hb
      have hpos := countP_pos_iff (p := fun a => covers a b).2 ⟨a', ha', decide_eq_true hab'⟩
      omega
    · apply ih
      intro b
      have hb := h b
      rw [countP_cons] at hb
      omega

theorem countP_le_of_pairwise {β : Type} {covers : α → β → Prop} [∀ a b, Decidable (covers a b)]
    {l : List α} (h : l.Pairwise fun a a' => ∀ b, ¬(covers a b ∧ covers a' b)) (b : β) :
    l.countP (fun a => covers a b) ≤ 1 := by
  induction l with
  | nil => exact Nat.zero_le _
  | cons a l ih =>
    rw [pairwise_cons] at h
    by_cases hab : covers a b
    · rw [countP_cons, if_pos (decide_eq_true hab)]
      have hzero : l.countP (fun a => covers a b) = 0 := by
        rw [countP_eq_zero]
        intro a' ha' hab'
        exact h.1 a' ha' b ⟨hab, of_decide_eq_true hab'⟩
      omega
    · rw [countP_cons, if_neg (by simpa using hab)]
      exact ih h.2

theorem sum_range_indicator {lo hi n : Nat} (h : hi ≤ n) :
    ∑ b ∈ Finset.range n, (if lo ≤ b ∧ b < hi then 1 else 0) = hi - lo := by
  rw [← Finset.card_filter, ← Nat.card_Ico]
  congr 1
  ext b
  rw [Finset.mem_filter, Finset.mem_range, Finset.mem_Ico]
  omega

end Counting

/-! ### Holders -/

def Allocation.covers (a : Allocation) (b : Nat) : Prop := a.first ≤ b ∧ b < a.first + a.need

instance (a : Allocation) (b : Nat) : Decidable (a.covers b) := inferInstanceAs (Decidable (_ ∧ _))

namespace PoolPc

/-- The blocks that a call in progress holds: from the first number up to the second. -/
def span : PoolPc → Nat × Nat
  | .claim _ len i j | .undo _ len i j => (i + 1 - blocksFor len, j)
  | .hand _ newOwner first need i => (if newOwner = 0 then first + i else first, first + need)
  | _ => (0, 0)

/-- How a block that a call holds is marked. -/
def value : PoolPc → Nat → BitVec 8
  | .claim owner _ _ _, _ | .undo owner _ _ _, _ => mark owner
  | .hand owner newOwner first _ i, b => if b < first + i then mark newOwner else mark owner
  | _, _ => 0

def Holds (pc : PoolPc) (b : Nat) : Prop := pc.span.1 ≤ b ∧ b < pc.span.2

instance (pc : PoolPc) (b : Nat) : Decidable (pc.Holds b) := inferInstanceAs (Decidable (_ ∧ _))

def blocks (pc : PoolPc) : Nat := pc.span.2 - pc.span.1

/-- What a thread knows where it is. -/
def Ok (c : Channel) : PoolPc → Prop
  | .idle => True
  | .scan owner len i run =>
    c.hasDomain owner ∧ 0 < blocksFor len ∧ i ≤ c.poolBlocks ∧ run ≤ i ∧ run < blocksFor len
  | .claim owner len i j =>
    c.hasDomain owner ∧ 0 < blocksFor len ∧ blocksFor len ≤ i + 1 ∧ i < c.poolBlocks ∧
      i + 1 - blocksFor len ≤ j ∧ j ≤ i
  | .undo owner len i j =>
    c.hasDomain owner ∧ 0 < blocksFor len ∧ blocksFor len ≤ i + 1 ∧ i < c.poolBlocks ∧
      i + 1 - blocksFor len < j ∧ j ≤ i
  | .verify owner newOwner first need i =>
    c.hasDomain owner ∧ (newOwner = 0 ∨ c.hasDomain newOwner) ∧ first + need ≤ c.poolBlocks ∧
      i < need
  | .hand owner newOwner first need i =>
    c.hasDomain owner ∧ (newOwner = 0 ∨ c.hasDomain newOwner) ∧ first + need ≤ c.poolBlocks ∧
      i < need
  | .inspect m _ i =>
    c.poolOffset.toNat ≤ m.bufferOffset.toNat ∧
      m.bufferOffset.toNat - c.poolOffset.toNat + m.bufferLength.toNat ≤ c.poolSize.toNat ∧
      m.bufferLength ≠ 0 ∧ i < checkNeed c m

end PoolPc

namespace Pool

variable {T : Type} [DecidableEq T] [Fintype T] {c : Channel} {p p' : Pool T} {t u : T}
  {pc : PoolPc} {b x : Nat} {v : BitVec 8} {a : Allocation}

/-- No block is in two live allocations; a live allocation lies in the pool and its blocks are
marked with its owner; the table bytes that are not 0 are those of live allocations and of calls in
progress. -/
structure StateOk (c : Channel) (p : Pool T) : Prop where
  disjoint : p.live.Pairwise fun a a' => ∀ b, ¬(a.covers b ∧ a'.covers b)
  marked : ∀ a ∈ p.live, a.first + a.need ≤ c.poolBlocks ∧
    ∀ b, a.covers b → p.table b = mark a.owner
  count : ((Finset.range c.poolBlocks).filter fun b => p.table b ≠ 0).card =
    (p.live.map (·.need)).sum + ∑ t, (p.pc t).blocks

/-- `shz_pool_alloc` returns blocks of the pool that are marked with the caller; a release that
finds another mark is refused and changes nothing; a check that succeeds has seen the mark of the
expected owner on every block of the buffer. -/
def StepOk (c : Channel) (p : Pool T) : PoolAct T → Prop
  | .go t =>
    match p.pc t with
    | .claim owner len _ _ => (p.go c t).pc t = .idle →
        ∃ first, (p.go c t).ret t =
          some (.allocated (c.poolOffset.toNat + first * SHZ_POOL_BLOCK)) ∧
          first + blocksFor len ≤ c.poolBlocks ∧
          ∀ b, first ≤ b → b < first + blocksFor len → (p.go c t).table b = mark owner
    | .verify owner _ first _ i => (p.go c t).table = p.table ∧
        ((p.table (first + i)).setWidth 32 ≠ owner →
          (p.go c t).ret t = some (.released .denied) ∧ (p.go c t).pc t = .idle ∧
            (p.go c t).live = p.live)
    | .inspect m _ _ => (p.go c t).table = p.table ∧
        ((p.go c t).ret t = some (.checked .ok) → (p.go c t).pc t = .idle →
          ∀ x, m.bufferOffset.toNat ≤ x → x < m.bufferOffset.toNat + m.bufferLength.toNat →
            c.poolOffset.toNat ≤ x ∧ (x - c.poolOffset.toNat) / SHZ_POOL_BLOCK < c.poolBlocks ∧
            (x - c.poolOffset.toNat) / SHZ_POOL_BLOCK ∈ (p.go c t).seen t)
    | .scan _ _ _ _ => (p.go c t).table = p.table
    | _ => True
  | a => (p.step c a).table = p.table

/-- A release that passes the owner check is of a range that its domain holds. -/
def Rightful (p : Pool T) : PoolAct T → Prop
  | .go t =>
    match p.pc t with
    | .verify owner _ first need i => (p.table (first + i)).setWidth 32 = owner → i + 1 = need →
        ⟨owner, first, need⟩ ∈ p.live
    | _ => True
  | _ => True

/-- Allocations that the table shows. -/
structure Shown (c : Channel) (table : Nat → BitVec 8) (live : List Allocation) : Prop where
  inside : ∀ a ∈ live, a.first + a.need ≤ c.poolBlocks ∧ c.hasDomain a.owner
  marked : ∀ a ∈ live, ∀ b, a.covers b → table b = mark a.owner
  disjoint : live.Pairwise fun a a' => ∀ b, ¬(a.covers b ∧ a'.covers b)
  free : ∀ b, (∀ a ∈ live, ¬a.covers b) → table b = 0

/-- Each byte that is not 0 has one holder, whose mark it is. -/
structure Held (p : Pool T) : Prop where
  count : ∀ b, (if p.table b = 0 then 0 else 1) =
    p.live.countP (fun a => a.covers b) + ∑ t, if (p.pc t).Holds b then 1 else 0
  live : ∀ a ∈ p.live, ∀ b, a.covers b → p.table b = mark a.owner
  pcs : ∀ t b, (p.pc t).Holds b → p.table b = (p.pc t).value b

structure Inv (c : Channel) (p : Pool T) : Prop where
  held : Held p
  inside : ∀ a ∈ p.live, a.first + a.need ≤ c.poolBlocks ∧ c.hasDomain a.owner
  pcs : ∀ t, (p.pc t).Ok c
  seen : ∀ t m owner i, p.pc t = .inspect m owner i → ∀ k < i, checkFirst c m + k ∈ p.seen t

/-! ### Marks -/

omit [DecidableEq T] [Fintype T] in
variable {owner len newOwner : BitVec 32} {i j first need sizeMax base bytes : Nat} {m : MsgHdr}
  {ab ba : Ring}

theorem mark_ne_zero (h : c.hasDomain owner) : mark owner ≠ 0 := by
  unfold Channel.hasDomain at h
  simp only [Bool.and_eq_true, decide_eq_true_eq] at h
  obtain ⟨⟨h0, h8⟩, -⟩ := h
  have h8 : owner.toNat < 8 := h8
  intro he
  have he := congrArg BitVec.toNat he
  unfold mark at he
  rw [BitVec.toNat_setWidth, Nat.mod_eq_of_lt (by omega)] at he
  exact h0.ne' he

theorem Held.alone (h : Held p) (hown : (p.pc t).Holds b ∨ p.table b = 0) :
    (∀ a ∈ p.live, ¬a.covers b) ∧ ∀ u, u ≠ t → ¬(p.pc u).Holds b := by
  have hc := h.count b
  rw [← Finset.add_sum_erase _ _ (Finset.mem_univ t)] at hc
  have hzero : p.live.countP (fun a => a.covers b) = 0 ∧
      ∑ u ∈ Finset.univ.erase t, (if (p.pc u).Holds b then 1 else 0) = 0 := by
    obtain hown | hfree := hown
    · rw [if_pos hown] at hc
      split at hc <;> omega
    · rw [if_pos hfree] at hc
      omega
  constructor
  · intro a ha hab
    exact countP_eq_zero.1 hzero.1 a ha (decide_eq_true hab)
  · intro u hu hub
    have := Finset.sum_eq_zero_iff.1 hzero.2 u (Finset.mem_erase.2 ⟨hu, Finset.mem_univ u⟩)
    rw [if_pos hub] at this
    cases this

theorem Held.store (h : Held p) (hown : (p.pc t).Holds x ∨ p.table x = 0)
    (hother : ∀ b, b ≠ x → (pc.Holds b ↔ (p.pc t).Holds b) ∧
      (pc.Holds b → pc.value b = (p.pc t).value b))
    (hx : pc.Holds x ↔ v ≠ 0) (hv : pc.Holds x → pc.value x = v) :
    Held ((p.store x v).setPc t pc) := by
  obtain ⟨hlive, hothers⟩ := h.alone hown
  have hsum : ∀ b, ∑ u, (if (update p.pc t pc u).Holds b then 1 else 0) +
      (if (p.pc t).Holds b then 1 else 0) =
      ∑ u, (if (p.pc u).Holds b then 1 else 0) + if pc.Holds b then 1 else 0 :=
    fun b => sum_update_add (g := fun pc => if PoolPc.Holds pc b then 1 else 0)
  constructor
  · intro b
    show (if update p.table x v b = 0 then 0 else 1) =
      p.live.countP (fun a => a.covers b) +
        ∑ u, if (update p.pc t pc u).Holds b then 1 else 0
    by_cases hb : b = x
    · rw [hb, update_self]
      have hzero : p.live.countP (fun a => a.covers x) = 0 := by
        rw [countP_eq_zero]
        intro a ha hax
        exact hlive a ha (of_decide_eq_true hax)
      have hsingle : ∑ u, (if (p.pc u).Holds x then 1 else 0) = if (p.pc t).Holds x then 1 else 0 :=
        Finset.sum_eq_single t (fun u _ hu => if_neg (hothers u hu))
          fun ht => absurd (Finset.mem_univ t) ht
      have hs := hsum x
      by_cases hv0 : v = 0
      · rw [if_neg (show ¬pc.Holds x from fun hp => hx.1 hp hv0)] at hs
        rw [if_pos hv0]
        omega
      · rw [if_pos (hx.2 hv0)] at hs
        rw [if_neg hv0]
        omega
    · rw [update_of_ne hb, h.count b]
      have hs := hsum b
      have hiff := (hother b hb).1
      by_cases hh : pc.Holds b
      · rw [if_pos hh, if_pos (hiff.1 hh)] at hs
        omega
      · rw [if_neg hh, if_neg fun h' => hh (hiff.2 h')] at hs
        omega
  · intro a ha b hab
    have hb : b ≠ x := by
      rintro rfl
      exact hlive a ha hab
    exact (update_of_ne hb ..).trans (h.live a ha b hab)
  · intro u b hub
    show update p.table x v b = (update p.pc t pc u).value b
    change (update p.pc t pc u).Holds b at hub
    by_cases hu : u = t
    · rw [hu, update_self] at hub ⊢
      by_cases hb : b = x
      · rw [hb] at hub ⊢
        rw [update_self, hv hub]
      · rw [update_of_ne hb, (hother b hb).2 hub]
        exact h.pcs t b ((hother b hb).1.1 hub)
    · rw [update_of_ne hu] at hub ⊢
      have hb : b ≠ x := by
        rintro rfl
        exact hothers u hu hub
      rw [update_of_ne hb]
      exact h.pcs u b hub

omit [DecidableEq T] in
theorem Held.congr (h : Held p) (ht : p'.table = p.table) (hl : p'.live = p.live)
    (hpc : p'.pc = p.pc) : Held p' :=
  ⟨by rw [ht, hl, hpc]; exact h.count, by rw [ht, hl]; exact h.live, by rw [ht, hpc]; exact h.pcs⟩

theorem Held.setPc (h : Held p) (hh : ∀ b, pc.Holds b ↔ (p.pc t).Holds b)
    (hv : ∀ b, pc.Holds b → pc.value b = (p.pc t).value b) : Held (p.setPc t pc) := by
  refine ⟨fun b => ?_, h.live, fun u b hub => ?_⟩
  · show (if p.table b = 0 then 0 else 1) = p.live.countP _ +
      ∑ u, if (update p.pc t pc u).Holds b then 1 else 0
    rw [h.count b]
    have hs := sum_update_add (f := p.pc) (g := fun pc => if PoolPc.Holds pc b then 1 else 0) (t := t) (a := pc)
    by_cases hpc : pc.Holds b
    · rw [if_pos hpc, if_pos ((hh b).1 hpc)] at hs
      omega
    · rw [if_neg hpc, if_neg fun h' => hpc ((hh b).2 h')] at hs
      omega
  · change (update p.pc t pc u).Holds b at hub
    show _ = (update p.pc t pc u).value b
    by_cases hu : u = t
    · rw [hu, update_self] at hub ⊢
      rw [hv b hub]
      exact h.pcs t b ((hh b).1 hub)
    · rw [update_of_ne hu] at hub ⊢
      exact h.pcs u b hub

theorem Held.give (h : Held p) (hh : ∀ b, a.covers b ↔ (p.pc t).Holds b)
    (hv : ∀ b, a.covers b → (p.pc t).value b = mark a.owner) (hpc : ∀ b, ¬pc.Holds b) :
    Held ({ p with live := p.live ++ [a] }.setPc t pc) := by
  refine ⟨fun b => ?_, fun a' ha' b hab => ?_, fun u b hub => ?_⟩
  · show (if p.table b = 0 then 0 else 1) = (p.live ++ [a]).countP _ + ∑ u, if (update p.pc t pc u).Holds b then 1 else 0
    have hs := sum_update_add (f := p.pc) (g := fun pc => if PoolPc.Holds pc b then 1 else 0) (t := t) (a := pc)
    rw [if_neg (hpc b)] at hs
    have hc := h.count b
    rw [countP_append, countP_singleton]
    by_cases hab : a.covers b
    · rw [if_pos ((hh b).1 hab)] at hs
      rw [if_pos (decide_eq_true hab)]
      omega
    · rw [if_neg fun h' => hab ((hh b).2 h')] at hs
      rw [if_neg (show ¬decide (a.covers b) = true by simpa using hab)]
      omega
  · obtain ha' | ha' := mem_append.1 ha'
    · exact h.live a' ha' b hab
    · obtain rfl := mem_singleton.1 ha'
      exact (h.pcs t b ((hh b).1 hab)).trans (hv b hab)
  · change (update p.pc t pc u).Holds b at hub
    show _ = (update p.pc t pc u).value b
    by_cases hu : u = t
    · rw [hu, update_self] at hub
      exact absurd hub (hpc b)
    · rw [update_of_ne hu] at hub ⊢
      exact h.pcs u b hub

theorem Held.takeOver (h : Held p) (ha : a ∈ p.live) (hpc : ∀ b, ¬(p.pc t).Holds b)
    (hh : ∀ b, pc.Holds b ↔ a.covers b) (hv : ∀ b, pc.Holds b → pc.value b = mark a.owner) :
    Held ({ p with live := p.live.erase a }.setPc t pc) := by
  refine ⟨fun b => ?_, fun a' ha' => h.live a' (mem_of_mem_erase ha'), fun u b hub => ?_⟩
  · show (if p.table b = 0 then 0 else 1) = (p.live.erase a).countP _ + ∑ u, if (update p.pc t pc u).Holds b then 1 else 0
    have hs := sum_update_add (f := p.pc) (g := fun pc => if PoolPc.Holds pc b then 1 else 0) (t := t) (a := pc)
    rw [if_neg (hpc b)] at hs
    have hc := h.count b
    rw [(perm_cons_erase ha).countP_eq, countP_cons] at hc
    by_cases hab : a.covers b
    · rw [if_pos ((hh b).2 hab)] at hs
      rw [if_pos (decide_eq_true hab)] at hc
      omega
    · rw [if_neg fun h' => hab ((hh b).1 h')] at hs
      rw [if_neg (show ¬decide (a.covers b) = true by simpa using hab)] at hc
      omega
  · change (update p.pc t pc u).Holds b at hub
    show _ = (update p.pc t pc u).value b
    by_cases hu : u = t
    · rw [hu, update_self] at hub ⊢
      rw [hv b hub]
      exact h.live a ha b ((hh b).1 hub)
    · rw [update_of_ne hu] at hub ⊢
      exact h.pcs u b hub

/-! ### Steps -/

theorem Inv.next (h : Inv c p) (hheld : Held p') (hpc : p'.pc = update p.pc t pc)
    (hok : pc.Ok c) (hinside : ∀ a ∈ p'.live, a.first + a.need ≤ c.poolBlocks ∧ c.hasDomain a.owner)
    (hseen : ∀ u, u ≠ t → p'.seen u = p.seen u)
    (hins : ∀ m owner i, pc = .inspect m owner i → ∀ k < i, checkFirst c m + k ∈ p'.seen t) :
    Inv c p' := by
  refine ⟨hheld, hinside, fun u => ?_, fun u m owner i hu => ?_⟩
  · rw [hpc]
    by_cases hut : u = t
    · rw [hut, update_self]
      exact hok
    · rw [update_of_ne hut]
      exact h.pcs u
  · rw [hpc] at hu
    by_cases hut : u = t
    · rw [hut, update_self] at hu
      rw [hut]
      exact hins m owner i hu
    · rw [update_of_ne hut] at hu
      rw [hseen u hut]
      exact h.seen u m owner i hu

theorem Inv.move (h : Inv c p) (hempty : ∀ b, ¬(p.pc t).Holds b) (hnew : ∀ b, ¬pc.Holds b)
    (hok : pc.Ok c)
    (hins : ∀ m owner i, pc = .inspect m owner i → ∀ k < i, checkFirst c m + k ∈ p.seen t) :
    Inv c (p.setPc t pc) :=
  h.next (h.held.setPc (fun b => iff_of_false (hnew b) (hempty b)) fun b hb => absurd hb (hnew b)) rfl
    hok h.inside (fun _ _ => rfl) hins

omit [DecidableEq T] in
theorem Inv.ret (h : Inv c p) (ret : T → Option PoolRet) : Inv c { p with ret := ret } :=
  ⟨⟨h.held.count, h.held.live, h.held.pcs⟩, h.inside, h.pcs, h.seen⟩

theorem Inv.finish (h : Inv c p) (hempty : ∀ b, ¬(p.pc t).Holds b) (r : PoolRet) :
    Inv c (p.finish t r) :=
  Inv.ret (h.move hempty (fun _ (hb : PoolPc.idle.Holds _) => absurd hb.2 (Nat.not_lt_zero _)) trivial nofun) _

theorem not_holds_of_span (h : pc.span = (0, 0)) (b : Nat) : ¬pc.Holds b := by
  unfold PoolPc.Holds
  rw [h]
  exact fun hb => absurd hb.2 (Nat.not_lt_zero _)

theorem holds_claim :
    (PoolPc.claim owner len i j).Holds b ↔ i + 1 - blocksFor len ≤ b ∧ b < j := Iff.rfl

theorem holds_undo :
    (PoolPc.undo owner len i j).Holds b ↔ i + 1 - blocksFor len ≤ b ∧ b < j := Iff.rfl

theorem holds_hand : (PoolPc.hand owner newOwner first need i).Holds b ↔
      (if newOwner = 0 then first + i else first) ≤ b ∧ b < first + need := Iff.rfl

omit [DecidableEq T] in
/-- Where a thread is, its state fits the channel. -/
theorem Inv.point (h : Inv c p) (hpc : p.pc t = pc) : pc.Ok c := hpc ▸ h.pcs t

section Go

omit [Fintype T]

theorem go_claim (hpc : p.pc t = .claim owner len i j) : p.go c t =
    if p.table j = 0 then
      if j = i then
        { p.store j (mark owner) with
          live := p.live ++ [Allocation.mk owner (i + 1 - blocksFor len) (blocksFor len)] }.finish t
          (.allocated (c.poolOffset.toNat + (i + 1 - blocksFor len) * SHZ_POOL_BLOCK))
      else (p.store j (mark owner)).setPc t (.claim owner len i (j + 1))
    else if j = i + 1 - blocksFor len then p.setPc t (.scan owner len (i + 1) 0)
    else p.setPc t (.undo owner len i j) := by
  unfold go
  rw [hpc]

theorem go_verify (hpc : p.pc t = .verify owner newOwner first need i) : p.go c t =
    if (p.table (first + i)).setWidth 32 ≠ owner then p.finish t (.released .denied)
    else if i + 1 = need then
      { p with live := p.live.erase (Allocation.mk owner first need) }.setPc t
        (.hand owner newOwner first need 0)
    else p.setPc t (.verify owner newOwner first need (i + 1)) := by
  unfold go
  rw [hpc]

/-- The block is seen. -/
def see (p : Pool T) (t : T) (b : Nat) : Pool T := { p with seen := update p.seen t (b :: p.seen t) }

theorem go_inspect (hpc : p.pc t = .inspect m owner i) : p.go c t =
    if (p.table (checkFirst c m + i)).setWidth 32 ≠ owner then p.finish t (.checked .denied)
    else if i + 1 = checkNeed c m then (p.see t (checkFirst c m + i)).finish t (.checked .ok)
    else (p.see t (checkFirst c m + i)).setPc t (.inspect m owner (i + 1)) := by
  unfold go
  rw [hpc]
  rfl

end Go

/-- After the access at `i` the check has seen the blocks up to `i`. -/
theorem mem_seen (h : Inv c p) (hpc : p.pc t = .inspect m owner i) {k : Nat} (hk : k < i + 1) :
    checkFirst c m + k ∈ (p.see t (checkFirst c m + i)).seen t := by
  show _ ∈ update p.seen t _ t
  rw [update_self]
  by_cases hki : k = i
  · rw [hki]
    exact mem_cons_self
  · exact mem_cons_of_mem _ (h.seen t m owner i hpc k (by omega))

theorem inv_scan (h : Inv c p) {run : Nat} (hpc : p.pc t = .scan owner len i run) :
    Inv c (p.go c t) := by
  obtain ⟨hdom, hpos, hi, hrun, hneed⟩ := h.point hpc
  have hempty : ∀ b, ¬(p.pc t).Holds b := not_holds_of_span (by rw [hpc]; rfl)
  unfold go
  rw [hpc]
  show Inv c (if _ then if _ then _ else if _ then _ else _ else _)
  split
  · rename_i hlt
    split
    · exact h.move hempty (not_holds_of_span rfl)
        ⟨hdom, hpos, hlt, Nat.zero_le _, hpos⟩ nofun
    · split
      · rename_i hlast
        refine h.move hempty (fun b hb => ?_) ⟨hdom, hpos, by omega, hlt, le_rfl, by omega⟩ nofun
        rw [holds_claim] at hb
        omega
      · rename_i hmore
        exact h.move hempty (not_holds_of_span rfl)
          ⟨hdom, hpos, hlt, by omega, by omega⟩ nofun
  · exact h.finish hempty _

theorem inv_claim (h : Inv c p) (hpc : p.pc t = .claim owner len i j) : Inv c (p.go c t) := by
  obtain ⟨hdom, hpos, hneed, hi, hj, hji⟩ := h.point hpc
  rw [go_claim hpc]
  have hmark := mark_ne_zero hdom
  split
  · rename_i hfree
    -- the block joins the run that the call holds
    have hstore : Held ((p.store j (mark owner)).setPc t (.claim owner len i (j + 1))) := by
      apply h.held.store (.inr hfree)
      · intro b hb
        rw [hpc, holds_claim, holds_claim]
        exact ⟨by omega, fun _ => rfl⟩
      · rw [holds_claim]
        exact iff_of_true ⟨hj, j.lt_succ_self⟩ hmark
      · exact fun _ => rfl
    split
    · rename_i hlast
      have hidle : ∀ b, ¬PoolPc.Holds .idle b := not_holds_of_span rfl
      have hself : ((p.store j (mark owner)).setPc t (.claim owner len i (j + 1))).pc t =
          .claim owner len i (j + 1) := update_self ..
      have hgive := hstore.give (a := ⟨owner, i + 1 - blocksFor len, blocksFor len⟩) (t := t)
        (fun b => by
          rw [hself, holds_claim]
          unfold Allocation.covers
          simp only
          omega) (fun b _ => by rw [hself]; rfl) hidle
      refine h.next (hgive.congr rfl rfl (update_idem ..).symm) rfl trivial ?_
        (fun _ _ => rfl) nofun
      intro a ha
      obtain ha | ha := mem_append.1 ha
      · exact h.inside a ha
      · obtain rfl := mem_singleton.1 ha
        exact ⟨by show i + 1 - blocksFor len + blocksFor len ≤ _; omega, hdom⟩
    · exact h.next hstore rfl ⟨hdom, hpos, hneed, hi, by omega, by omega⟩ h.inside (fun _ _ => rfl) nofun
  · have hclaim : ∀ b, (p.pc t).Holds b ↔ i + 1 - blocksFor len ≤ b ∧ b < j := by
      intro b
      rw [hpc, holds_claim]
    split
    · rename_i hfirst
      refine h.move (fun b hb => ?_) (not_holds_of_span rfl)
        ⟨hdom, hpos, hi, Nat.zero_le _, hpos⟩ nofun
      rw [hclaim] at hb
      omega
    · exact h.next (h.held.setPc (fun b => (hclaim b).symm) fun b _ => by rw [hpc]; rfl) rfl
        ⟨hdom, hpos, hneed, hi, by omega, hji⟩ h.inside (fun _ _ => rfl) nofun

theorem inv_undo (h : Inv c p) (hpc : p.pc t = .undo owner len i j) : Inv c (p.go c t) := by
  obtain ⟨hdom, hpos, hneed, hi, hj, hji⟩ := h.point hpc
  have hown : (p.pc t).Holds (j - 1) := by
    rw [hpc, holds_undo]
    omega
  have hstore : ∀ pc : PoolPc, (∀ b, pc.Holds b ↔ i + 1 - blocksFor len ≤ b ∧ b < j - 1) →
      (∀ b, pc.Holds b → pc.value b = mark owner) →
      Held ((p.store (j - 1) 0).setPc t pc) := by
    intro pc hh hv
    apply h.held.store (.inl hown)
    · intro b hb
      rw [hh, hpc, holds_undo]
      exact ⟨by omega, fun hb' => hv b ((hh b).2 hb')⟩
    · rw [hh]
      exact iff_of_false (by omega) (by decide)
    · intro hb
      rw [hh] at hb
      omega
  unfold go
  rw [hpc]
  show Inv c (if _ then _ else _)
  split
  · rename_i hlast
    refine h.next (hstore _ (fun b => iff_of_false (not_holds_of_span rfl b) (by omega))
      fun b hb => absurd hb (not_holds_of_span rfl b)) rfl
      ⟨hdom, hpos, hi, Nat.zero_le _, hpos⟩ h.inside (fun _ _ => rfl) nofun
  · exact h.next (hstore _ (fun b => holds_undo) fun b _ => rfl) rfl
      ⟨hdom, hpos, hneed, hi, by omega, by omega⟩ h.inside (fun _ _ => rfl) nofun

theorem inv_verify (h : Inv c p) (hpc : p.pc t = .verify owner newOwner first need i)
    (hr : p.Rightful (.go t)) : Inv c (p.go c t) := by
  obtain ⟨hdom, hnew, hfit, hi⟩ := h.point hpc
  have hempty : ∀ b, ¬(p.pc t).Holds b := not_holds_of_span (by rw [hpc]; rfl)
  simp only [Rightful, hpc] at hr
  rw [go_verify hpc]
  split
  · exact h.finish hempty _
  · rename_i hmark
    split
    · rename_i hlast
      have hmem := hr (not_not.1 hmark) hlast
      refine h.next (h.held.takeOver hmem hempty ?_ ?_) rfl ⟨hdom, hnew, hfit, by omega⟩
        (fun a ha => h.inside a (mem_of_mem_erase ha)) (fun _ _ => rfl) nofun
      · intro b
        rw [holds_hand]
        unfold Allocation.covers
        simp only [Nat.add_zero, ite_self]
      · intro b hb
        rw [holds_hand] at hb
        show (if b < first + 0 then _ else _) = _
        simp only [Nat.add_zero, ite_self] at hb
        exact if_neg (by omega)
    · exact h.move hempty (not_holds_of_span rfl) ⟨hdom, hnew, hfit, by omega⟩ nofun

theorem inv_hand (h : Inv c p) (hpc : p.pc t = .hand owner newOwner first need i) :
    Inv c (p.go c t) := by
  obtain ⟨hdom, hnew, hfit, hi⟩ := h.point hpc
  have hmark : newOwner ≠ 0 → mark newOwner ≠ 0 := fun hne => mark_ne_zero (hnew.resolve_left hne)
  have hmark0 : newOwner = 0 → mark newOwner = 0 := fun he => by rw [he]; rfl
  have hstore : Held ((p.store (first + i) (mark newOwner)).setPc t
      (.hand owner newOwner first need (i + 1))) := by
    apply h.held.store
    · rw [hpc, holds_hand]
      left
      split <;> omega
    · intro b hb
      rw [hpc, holds_hand, holds_hand]
      refine ⟨by split <;> omega, fun _ => ?_⟩
      show (if b < first + (i + 1) then _ else _) = if b < first + i then _ else _
      split <;> split <;> first | rfl | omega
    · rw [holds_hand]
      by_cases h0 : newOwner = 0
      · rw [if_pos h0]
        exact iff_of_false (by omega) fun hne => hne (hmark0 h0)
      · rw [if_neg h0]
        exact iff_of_true (by omega) (hmark h0)
    · intro _
      exact if_pos (by omega)
  unfold go
  rw [hpc]
  show Inv c (if _ then _ else _)
  split
  · rename_i hlast
    have hidle : ∀ b, ¬PoolPc.Holds .idle b := not_holds_of_span rfl
    have hself : ((p.store (first + i) (mark newOwner)).setPc t
        (.hand owner newOwner first need (i + 1))).pc t =
        .hand owner newOwner first need (i + 1) := update_self ..
    by_cases h0 : newOwner = 0
    · simp only [if_pos h0]
      have hdone := hstore.setPc (t := t) (fun b : Nat => show PoolPc.idle.Holds b ↔ _ by
        rw [hself, holds_hand, if_pos h0]
        exact iff_of_false (hidle b) (by omega)) fun b hb => absurd hb (hidle b)
      exact h.next (hdone.congr rfl rfl (update_idem ..).symm) rfl trivial
        h.inside (fun _ _ => rfl) nofun
    · simp only [if_neg h0]
      have hgive := hstore.give (a := ⟨newOwner, first, need⟩) (t := t)
        (fun b => by
          rw [hself, holds_hand, if_neg h0]
          exact Iff.rfl) (fun b hb => by
          rw [hself]
          exact if_pos (by have := hb.2; simp only at this; omega)) hidle
      refine h.next (hgive.congr rfl rfl (update_idem ..).symm) rfl trivial ?_
        (fun _ _ => rfl) nofun
      intro a ha
      obtain ha | ha := mem_append.1 ha
      · exact h.inside a ha
      · obtain rfl := mem_singleton.1 ha
        exact ⟨hfit, hnew.resolve_left h0⟩
  · exact h.next hstore rfl ⟨hdom, hnew, hfit, by omega⟩ h.inside (fun _ _ => rfl) nofun

theorem inv_inspect (h : Inv c p) (hpc : p.pc t = .inspect m owner i) : Inv c (p.go c t) := by
  obtain ⟨hlow, hfit, hlen, hi⟩ := h.point hpc
  have hempty : ∀ b, ¬(p.pc t).Holds b := not_holds_of_span (by rw [hpc]; rfl)
  have hsaw : Inv c (p.see t (checkFirst c m + i)) := by
    refine ⟨⟨h.held.count, h.held.live, h.held.pcs⟩, h.inside, h.pcs, fun u m' owner' i' hu k hk => ?_⟩
    show _ ∈ update p.seen t _ u
    by_cases hut : u = t
    · rw [hut, update_self]
      rw [hut] at hu
      exact mem_cons_of_mem _ (h.seen t m' owner' i' hu k hk)
    · rw [update_of_ne hut]
      exact h.seen u m' owner' i' hu k hk
  rw [go_inspect hpc]
  split
  · exact h.finish hempty _
  split
  · exact hsaw.finish hempty _
  · refine hsaw.move hempty (not_holds_of_span rfl) ⟨hlow, hfit, hlen, by omega⟩ ?_
    intro m' owner' i' he k hk
    obtain ⟨rfl, rfl, rfl⟩ := PoolPc.inspect.inj he
    exact mem_seen h hpc hk

/-! ### Calls -/

omit [DecidableEq T] [Fintype T] in
theorem blocksFor_pos (h : len ≠ 0) : 0 < blocksFor len := by
  have hpos : 0 < len.toNat := Nat.pos_of_ne_zero fun h0 => h (BitVec.eq_of_toNat_eq h0)
  unfold blocksFor SHZ_POOL_BLOCK
  omega

omit [DecidableEq T] [Fintype T] in
theorem checkNeed_eq (c : Channel) (m : MsgHdr) : checkNeed c m =
    ((m.bufferOffset.toNat - c.poolOffset.toNat) % SHZ_POOL_BLOCK + m.bufferLength.toNat +
      SHZ_POOL_BLOCK - 1) / SHZ_POOL_BLOCK := by
  have := m.bufferLength.isLt
  unfold checkNeed SHZ_POOL_BLOCK
  apply Nat.mod_eq_of_lt
  omega

theorem inv_step (h : Inv c p) (act : PoolAct T) (hr : p.Rightful act) : Inv c (p.step c act) := by
  have hidle : ∀ {t}, p.pc t = .idle → ∀ b, ¬(p.pc t).Holds b :=
    fun ht => not_holds_of_span (by rw [ht]; rfl)
  cases act with
  | alloc t owner len =>
    show Inv c (if _ then _ else if _ then _ else _)
    split
    · exact h
    · rename_i ht
      have ht := hidle (not_not.1 ht)
      split
      · exact h.finish ht _
      · rename_i hok
        rw [not_or, not_or, not_or, Bool.not_eq_true', Bool.not_eq_false] at hok
        exact h.move ht (not_holds_of_span rfl) ⟨hok.2.2.2, Nat.pos_of_ne_zero hok.2.1,
          Nat.zero_le _, le_rfl, Nat.pos_of_ne_zero hok.2.1⟩ nofun
  | release t owner offset len newOwner =>
    show Inv c (if _ then _ else if _ then _ else if _ then _ else if _ then _ else _)
    split
    · exact h
    · rename_i ht
      have ht := hidle (not_not.1 ht)
      split
      · exact h.finish ht _
      · rename_i hdom
        split
        · exact h.finish ht _
        · rename_i hlen
          split
          · exact h.finish ht _
          · rename_i hrange
            rw [not_or, not_and_or, Bool.not_eq_true', Bool.not_eq_false, Bool.not_eq_true',
              Bool.not_eq_false, not_not] at hdom
            rw [not_or, not_or] at hlen
            rw [Bool.not_eq_true', Bool.not_eq_false, rangeOk_iff] at hrange
            exact h.move ht (not_holds_of_span rfl)
              ⟨hdom.1, hdom.2, hrange, blocksFor_pos hlen.1⟩ nofun
  | check t m owner =>
    show Inv c (if _ then _ else if _ then _ else if _ then _ else if _ then _ else if _ then _ else _)
    split
    · exact h
    · rename_i ht
      have hpc := not_not.1 ht
      have ht := hidle hpc
      have hreset : Inv c { p with seen := update p.seen t [] } := by
        refine ⟨⟨h.held.count, h.held.live, h.held.pcs⟩, h.inside, h.pcs, fun u m' o i hu k hk => ?_⟩
        have hut : u ≠ t := by
          rintro rfl
          rw [show p.pc u = _ from hu] at hpc
          cases hpc
        show _ ∈ update p.seen t [] u
        rw [update_of_ne hut]
        exact h.seen u m' o i hu k hk
      split
      · exact hreset.finish ht _
      · rename_i hlen
        split
        · exact hreset.finish ht _
        · split
          · exact hreset.finish ht _
          · rename_i hlow
            split
            · exact hreset.finish ht _
            · rename_i hrange
              rw [Bool.not_eq_true', Bool.not_eq_false, rangeOk_iff] at hrange
              refine hreset.move ht (not_holds_of_span rfl)
                ⟨Nat.le_of_not_lt hlow, hrange, hlen, ?_⟩ ?_
              · have hpos : 0 < m.bufferLength.toNat :=
                  Nat.pos_of_ne_zero fun h0 => hlen (BitVec.eq_of_toNat_eq h0)
                rw [checkNeed_eq]
                unfold SHZ_POOL_BLOCK
                omega
              · intro m' o i he k hk
                obtain ⟨-, -, rfl⟩ := PoolPc.inspect.inj he
                exact absurd hk (Nat.not_lt_zero k)
  | go t =>
    cases hpc : p.pc t with
    | idle =>
      show Inv c (p.go c t)
      unfold go
      rw [hpc]
      exact h
    | scan owner len i run => exact inv_scan h hpc
    | claim owner len i j => exact inv_claim h hpc
    | undo owner len i j => exact inv_undo h hpc
    | verify owner newOwner first need i => exact inv_verify h hpc hr
    | hand owner newOwner first need i => exact inv_hand h hpc
    | inspect m owner i => exact inv_inspect h hpc

theorem span_le (h : pc.Ok c) : pc.span.2 ≤ c.poolBlocks := by
  cases pc with
  | claim owner len i j =>
    obtain ⟨-, -, -, hi, -, hj⟩ := h
    show j ≤ _
    omega
  | undo owner len i j =>
    obtain ⟨-, -, -, hi, -, hj⟩ := h
    show j ≤ _
    omega
  | hand owner newOwner first need i => exact h.2.2.1
  | _ => exact Nat.zero_le _

omit [DecidableEq T] [Fintype T] in
theorem sum_countP_covers {n : Nat} {l : List Allocation} (h : ∀ a ∈ l, a.first + a.need ≤ n) :
    ∑ b ∈ Finset.range n, l.countP (fun a => a.covers b) = (l.map (·.need)).sum := by
  induction l with
  | nil => exact Finset.sum_const_zero
  | cons a l ih =>
    have hone : ∑ b ∈ Finset.range n, (if a.covers b then 1 else 0) = a.first + a.need - a.first :=
      sum_range_indicator (h a mem_cons_self)
    rw [Nat.add_sub_cancel_left] at hone
    rw [map_cons, sum_cons, ← ih fun a' ha' => h a' (mem_cons_of_mem _ ha'), ← hone,
      ← Finset.sum_add_distrib]
    apply Finset.sum_congr rfl
    intro b _
    rw [countP_cons, Nat.add_comm]
    simp only [decide_eq_true_eq]

omit [DecidableEq T] in
/-- The bytes that are not 0, counted by holder. -/
theorem Inv.card (h : Inv c p) :
    ((Finset.range c.poolBlocks).filter fun b => p.table b ≠ 0).card =
      (p.live.map (·.need)).sum + ∑ t, (p.pc t).blocks := by
  have hcount : ∀ b, (if p.table b ≠ 0 then 1 else 0) =
      p.live.countP (fun a => a.covers b) + ∑ t, if (p.pc t).Holds b then 1 else 0 := by
    intro b
    rw [← h.held.count b]
    by_cases h0 : p.table b = 0
    · rw [if_pos h0, if_neg (not_not.2 h0)]
    · rw [if_neg h0, if_pos h0]
  have hlive := sum_countP_covers fun a ha => (h.inside a ha).1
  rw [Finset.card_filter, Finset.sum_congr rfl fun b _ => hcount b, Finset.sum_add_distrib, hlive,
    Finset.sum_comm]
  congr 1
  apply Finset.sum_congr rfl
  intro t _
  exact sum_range_indicator (span_le (h.pcs t))

omit [DecidableEq T] in
theorem Inv.stateOk (h : Inv c p) : StateOk c p where
  disjoint := by
    apply pairwise_of_countP_le
    intro b
    have hc := h.held.count b
    split at hc <;> omega
  marked a ha := ⟨(h.inside a ha).1, h.held.live a ha⟩
  count := h.card

/-! ### What the calls return -/

theorem valid_blocks (h : c.valid sizeMax base bytes ab ba) :
    c.poolBlocks * SHZ_POOL_BLOCK = c.poolSize.toNat := by
  unfold Channel.valid at h
  simp only [Bool.and_eq_true, decide_eq_true_eq] at h
  have hmod : c.poolSize.toNat % SHZ_POOL_BLOCK = 0 := by tauto
  have hlt : c.poolSize.toNat / SHZ_POOL_BLOCK < 2 ^ 32 := by tauto
  unfold Channel.poolBlocks
  rw [Nat.mod_eq_of_lt hlt]
  exact Nat.div_mul_cancel (Nat.dvd_of_mod_eq_zero hmod)

theorem block_of_byte (hlow : c.poolOffset.toNat ≤ m.bufferOffset.toNat)
    (hx : m.bufferOffset.toNat ≤ x) (hx' : x < m.bufferOffset.toNat + m.bufferLength.toNat) :
    ∃ k < checkNeed c m, (x - c.poolOffset.toNat) / SHZ_POOL_BLOCK = checkFirst c m + k := by
  rw [checkNeed_eq]
  unfold checkFirst SHZ_POOL_BLOCK
  refine ⟨(x - c.poolOffset.toNat) / 4096 -
    (m.bufferOffset.toNat - c.poolOffset.toNat) / 4096, ?_, ?_⟩ <;> omega

section Access

omit [Fintype T]

theorem finish_pc (r : PoolRet) : (p.finish t r).pc t = .idle := update_self ..

theorem finish_ret (r : PoolRet) : (p.finish t r).ret t = some r := update_self ..

theorem setPc_pc : (p.setPc t pc).pc t = pc := update_self ..

theorem finish_table (r : PoolRet) : (p.finish t r).table = p.table := rfl

theorem setPc_table : (p.setPc t pc).table = p.table := rfl

/-- A call makes its first access to the table later. -/
theorem enter_table (act : PoolAct T) (hact : ∀ t, act ≠ .go t) : (p.step c act).table = p.table := by
  cases act with
  | go t => exact absurd rfl (hact t)
  | _ => simp only [step, apply_ite Pool.table, finish_table, setPc_table, ite_self]

theorem scan_table {run : Nat} (hpc : p.pc t = .scan owner len i run) : (p.go c t).table = p.table := by
  unfold go
  rw [hpc]
  simp only [apply_ite Pool.table, finish_table, setPc_table, ite_self]

/-- The check of a release stores nothing, and another's mark ends the call. -/
theorem verify_denies (hpc : p.pc t = .verify owner newOwner first need i) :
    (p.go c t).table = p.table ∧ ((p.table (first + i)).setWidth 32 ≠ owner →
      (p.go c t).ret t = some (.released .denied) ∧ (p.go c t).pc t = .idle ∧ (p.go c t).live = p.live) := by
  rw [go_verify hpc]
  refine ⟨?_, fun hne => ?_⟩
  · simp only [apply_ite Pool.table, finish_table, setPc_table, ite_self]
  · rw [if_pos hne]
    exact ⟨finish_ret _, finish_pc _, rfl⟩

end Access

/-- A claim that has come to its end returns the blocks, marked. -/
theorem claim_allocates (hpc : p.pc t = .claim owner len i j) (h : Inv c (p.go c t))
    (hend : (p.go c t).pc t = .idle) : ∃ first,
      (p.go c t).ret t = some (.allocated (c.poolOffset.toNat + first * SHZ_POOL_BLOCK)) ∧
      first + blocksFor len ≤ c.poolBlocks ∧
      ∀ b, first ≤ b → b < first + blocksFor len → (p.go c t).table b = mark owner := by
  have hmarked := h.stateOk.marked
  rw [go_claim hpc] at hend hmarked ⊢
  split at hend
  · split at hend
    · rename_i hfree hlast
      rw [if_pos hfree, if_pos hlast] at hmarked ⊢
      have hnew := hmarked ⟨owner, i + 1 - blocksFor len, blocksFor len⟩
        (mem_append_right _ (mem_singleton_self _))
      exact ⟨_, finish_ret _, hnew.1, fun b hb hb' => hnew.2 b ⟨hb, hb'⟩⟩
    · rw [setPc_pc] at hend
      cases hend
  · split at hend <;> rw [setPc_pc] at hend <;> cases hend

/-- A check that accepts a message has seen every block of it. -/
theorem inspect_covers (h : Inv c p) (hvalid : c.valid sizeMax base bytes ab ba)
    (hpc : p.pc t = .inspect m owner i) : (p.go c t).table = p.table ∧
      ((p.go c t).ret t = some (.checked .ok) → (p.go c t).pc t = .idle →
        ∀ x, m.bufferOffset.toNat ≤ x → x < m.bufferOffset.toNat + m.bufferLength.toNat →
          c.poolOffset.toNat ≤ x ∧ (x - c.poolOffset.toNat) / SHZ_POOL_BLOCK < c.poolBlocks ∧
          (x - c.poolOffset.toNat) / SHZ_POOL_BLOCK ∈ (p.go c t).seen t) := by
  obtain ⟨hlow, hfit, -, -⟩ := h.point hpc
  rw [go_inspect hpc]
  split
  · refine ⟨rfl, fun hret => ?_⟩
    rw [finish_ret] at hret
    cases hret
  split
  case isFalse =>
    refine ⟨rfl, fun _ hend => ?_⟩
    rw [setPc_pc] at hend
    cases hend
  case isTrue hlast =>
    refine ⟨rfl, fun _ _ x hx hx' => ?_⟩
    obtain ⟨k, hk, hkx⟩ := block_of_byte hlow hx hx'
    refine ⟨hlow.trans hx, ?_, ?_⟩
    · apply Nat.div_lt_of_lt_mul
      rw [Nat.mul_comm, valid_blocks hvalid]
      omega
    · rw [hkx]
      exact mem_seen h hpc (hlast ▸ hk)

theorem stepOk_of_inv (h : Inv c p) (hvalid : c.valid sizeMax base bytes ab ba) (act : PoolAct T)
    (hr : p.Rightful act) : StepOk c p act := by
  cases act with
  | alloc | release | check => exact enter_table _ nofun
  | go t =>
    simp only [StepOk]
    cases hpc : p.pc t with
    | idle | undo | hand => trivial
    | scan owner len i run => exact scan_table hpc
    | claim owner len i j => exact claim_allocates hpc (inv_step h (.go t) hr)
    | verify owner newOwner first need i => exact verify_denies hpc
    | inspect m owner i => exact inspect_covers h hvalid hpc

/-! ### Every run -/

omit [DecidableEq T] in
theorem inv_start {table : Nat → BitVec 8} {live : List Allocation} (h : Shown c table live) :
    Inv c (start table live : Pool T) where
  held := by
    refine ⟨fun b => ?_, h.marked, fun t b hb => absurd hb (not_holds_of_span rfl b)⟩
    have hzero : ∑ t : T, (if ((start table live : Pool T).pc t).Holds b then 1 else 0) = 0 :=
      Finset.sum_eq_zero fun t _ => if_neg (not_holds_of_span rfl b)
    rw [hzero, Nat.add_zero]
    show (if table b = 0 then 0 else 1) = live.countP _
    by_cases hb : ∃ a ∈ live, a.covers b
    · obtain ⟨a, ha, hab⟩ := hb
      have hpos := countP_pos_iff (p := fun a => Allocation.covers a b).2
        ⟨a, ha, decide_eq_true hab⟩
      have hle := countP_le_of_pairwise h.disjoint b
      rw [if_neg]
      · omega
      · rw [h.marked a ha b hab]
        exact mark_ne_zero (h.inside a ha).2
    · have hnone : ∀ a ∈ live, ¬a.covers b := fun a ha hab => hb ⟨a, ha, hab⟩
      rw [if_pos (h.free b hnone)]
      symm
      rw [countP_eq_zero]
      intro a ha hab
      exact hnone a ha (of_decide_eq_true hab)
  inside := h.inside
  pcs _ := trivial
  seen _ _ _ _ := nofun

/-- **Every block has one owner.**  On a channel that `shz_channel_valid` accepts, in every run of
the accesses of any calls by any threads of the two domains in which a release that passes the
owner check is of a range that its domain holds: no block is in two live allocations, allocations
are marked ranges of the pool, the bytes that are not 0 are those of live allocations and of calls
in progress, a refused release changes nothing, and a successful check has seen the mark of the
expected owner on every block of the buffer. -/
theorem pool_ownership {sizeMax base bytes : Nat} {ab ba : Ring}
    (hvalid : c.valid sizeMax base bytes ab ba) {table : Nat → BitVec 8} {live : List Allocation}
    (hshown : Shown c table live) (acts : List (PoolAct T))
    (hr : Steps (step c) Rightful (start table live : Pool T) acts) :
    Along (step c) (StateOk c) (StepOk c) (start table live : Pool T) acts :=
  along_of_inv acts (fun _ => Inv.stateOk)
    (fun _ act h _ ha => ⟨stepOk_of_inv h hvalid act ha, inv_step h act ha⟩) (inv_start hshown) hr

/-- A channel between the domains 3 and 4 with a pool of two blocks. -/
def twoBlocks : Channel :=
  ⟨SHZ_CHANNEL_MAGIC, SHZ_ABI_MAJOR, 1, 3, 4, 192, 896, 4096, 8192, 2⟩

def twoSlots : Ring :=
  ⟨SHZ_RING_MAGIC, 2, BitVec.ofNat 32 SHZ_MSG_SLOT_SIZE, 0, 0, fun _ => ⟨.zero, fun _ => 0⟩⟩

theorem twoBlocks_valid : twoBlocks.valid (2 ^ 64 - 1) 4096 12288 twoSlots twoSlots := by decide

theorem shown_empty : Shown twoBlocks (fun _ => 0) [] :=
  ⟨fun _ h => absurd h not_mem_nil, fun _ h => absurd h not_mem_nil, .nil, fun _ _ => rfl⟩

/-- The first domain allocates both blocks and hands them to the second, which releases them while
an allocation of the first is scanning, and that allocation gets a block. -/
def handedOver : List (PoolAct Bool) :=
  [.alloc true 3 8192, .go true, .go true, .go true, .go true,
    .release true 3 4096 8192 4, .go true, .go true, .go true, .go true,
    .release false 4 4096 8192 0, .go false, .go false, .go false,
    .alloc true 3 4096, .go true, .go false, .go true,
    .check false { MsgHdr.zero with bufferLength := 100, bufferOffset := 4096 } 3, .go false]

theorem pool_ownership_twoBlocks :
    Along (step twoBlocks) (StateOk twoBlocks) (StepOk twoBlocks)
      (start (fun _ => 0) [] : Pool Bool) handedOver ∧
    (let p := handedOver.foldl (step twoBlocks) (start (fun _ => 0) [] : Pool Bool)
     p.ret true = some (.allocated 4096) ∧ p.live = [⟨3, 0, 1⟩] ∧
      p.ret false = some (.checked .ok)) := by
  refine ⟨pool_ownership twoBlocks_valid shown_empty handedOver ?_, by decide⟩
  repeat first | exact trivial | exact fun _ _ => by decide | refine ⟨trivial, ?_, ?_⟩

/-- One domain allocates both blocks, releases them, allocates them again one by one, and releases
the two blocks a second time. -/
def secondRelease : List (PoolAct Unit) :=
  [.alloc () 3 8192, .go (), .go (), .go (), .go (),
    .release () 3 4096 8192 0, .go (), .go (), .go (), .go (),
    .alloc () 3 4096, .go (), .go (), .alloc () 3 4096, .go (), .go (), .go (),
    .release () 3 4096 8192 0, .go (), .go (), .go (), .go ()]

/-- The second release succeeds and frees the blocks of two live allocations. -/
theorem second_release_frees :
    let p := secondRelease.foldl (step twoBlocks) (start (fun _ => 0) [] : Pool Unit)
    p.ret () = some (.released .ok) ∧ p.live = [⟨3, 0, 1⟩, ⟨3, 1, 1⟩] ∧
      p.table 0 = 0 ∧ p.table 1 = 0 ∧ ¬StateOk twoBlocks p := by
  refine ⟨by decide, by decide, by decide, by decide, fun h => ?_⟩
  have hmark := (h.marked ⟨3, 0, 1⟩ (by decide)).2 0 (by decide)
  exact absurd hmark (by decide)

end Pool

end Win98Modern.Shz
