import Mathlib.Data.Finset.Card

/-!
# Marking what is reachable

A list of nodes is gone through again and again, and each marked node marks its successors, until a
turn marks nothing new.  With a turn for each node the marked nodes are those that the first marks
reach (`mem_mark_iff`).
-/

namespace Win98Modern

open List

variable {α : Type*} [DecidableEq α] (next : α → List α)

/-- A marked node marks its successors. -/
def visit (marked : Finset α) (n : α) : Finset α :=
  if n ∈ marked then marked ∪ (next n).toFinset else marked

/-- One turn over the nodes; what is marked early in it marks others later in it. -/
def sweep (nodes : List α) (marked : Finset α) : Finset α := nodes.foldl (visit next) marked

/-- Turns until nothing changes, at most `fuel`. -/
def mark (nodes : List α) : Nat → Finset α → Finset α
  | 0, s => s
  | fuel + 1, s => if sweep next nodes s = s then s else mark nodes fuel (sweep next nodes s)

variable {next} {nodes : List α} {s : Finset α} {a b : α} {P : α → Prop}

theorem subset_visit (s : Finset α) (n : α) : s ⊆ visit next s n := by
  unfold visit
  split
  · exact Finset.subset_union_left
  · exact Finset.Subset.refl s

theorem visit_induct (hs : ∀ a ∈ s, P a) {n : α} (hnext : P n → ∀ a ∈ next n, P a) :
    ∀ a ∈ visit next s n, P a := by
  intro a ha
  unfold visit at ha
  split at ha
  · rename_i hn
    obtain ha | ha := Finset.mem_union.1 ha
    · exact hs a ha
    · exact hnext (hs n hn) a (mem_toFinset.1 ha)
  · exact hs a ha

theorem subset_sweep (nodes : List α) (s : Finset α) : s ⊆ sweep next nodes s := by
  induction nodes generalizing s with
  | nil => exact Finset.Subset.refl s
  | cons n nodes ih => exact Finset.Subset.trans (subset_visit s n) (ih _)

theorem sweep_induct (hs : ∀ a ∈ s, P a) (hnext : ∀ n ∈ nodes, P n → ∀ a ∈ next n, P a) :
    ∀ a ∈ sweep next nodes s, P a := by
  induction nodes generalizing s with
  | nil => exact hs
  | cons n nodes ih =>
    apply ih
    · exact visit_induct hs (hnext n mem_cons_self)
    · exact fun k hk => hnext k (mem_cons_of_mem n hk)

/-- After a turn the successors of a node that was marked before it are marked. -/
theorem next_mem_sweep (hn : a ∈ nodes) (ha : a ∈ s) (hb : b ∈ next a) : b ∈ sweep next nodes s := by
  induction nodes generalizing s with
  | nil => cases hn
  | cons n nodes ih =>
    obtain rfl | hn := mem_cons.1 hn
    · apply subset_sweep nodes
      unfold visit
      rw [if_pos ha]
      exact Finset.mem_union_right s (mem_toFinset.2 hb)
    · exact ih hn (subset_visit s n ha)

theorem subset_mark (nodes : List α) (fuel : Nat) (s : Finset α) : s ⊆ mark next nodes fuel s := by
  induction fuel generalizing s with
  | zero => exact Finset.Subset.refl s
  | succ fuel ih =>
    unfold mark
    split
    · exact Finset.Subset.refl s
    · exact Finset.Subset.trans (subset_sweep nodes s) (ih _)

theorem mark_induct (fuel : Nat) (hs : ∀ a ∈ s, P a) (hnext : ∀ n ∈ nodes, P n → ∀ a ∈ next n, P a) :
    ∀ a ∈ mark next nodes fuel s, P a := by
  induction fuel generalizing s with
  | zero => exact hs
  | succ fuel ih =>
    unfold mark
    split
    · exact hs
    · exact ih (sweep_induct hs hnext)

/-- With enough turns the last one changes nothing. -/
theorem sweep_mark (hs : ∀ a ∈ s, a ∈ nodes) (hnext : ∀ n ∈ nodes, ∀ a ∈ next n, a ∈ nodes)
    {fuel : Nat} (hfuel : nodes.length < fuel + s.card) :
    sweep next nodes (mark next nodes fuel s) = mark next nodes fuel s := by
  induction fuel generalizing s with
  | zero =>
    have hsub : s ⊆ nodes.toFinset := fun a ha => mem_toFinset.2 (hs a ha)
    have hcard := Finset.card_le_card hsub
    have hlength := nodes.toFinset_card_le
    omega
  | succ fuel ih =>
    unfold mark
    split
    · assumption
    · rename_i hne
      apply ih (sweep_induct hs fun n hn _ => hnext n hn)
      have hlt : s.card < (sweep next nodes s).card :=
        Finset.card_lt_card ((subset_sweep nodes s).ssubset_of_ne fun h => hne h.symm)
      omega

theorem mem_mark_iff (hs : ∀ a ∈ s, a ∈ nodes) (hnext : ∀ n ∈ nodes, ∀ a ∈ next n, a ∈ nodes)
    {fuel : Nat} (hfuel : nodes.length < fuel) :
    b ∈ mark next nodes fuel s ↔ ∃ a ∈ s, Relation.ReflTransGen (fun x y => y ∈ next x) a b := by
  constructor
  · intro hb
    refine mark_induct (P := fun b => ∃ a ∈ s, Relation.ReflTransGen (fun x y => y ∈ next x) a b)
      fuel (fun a ha => ⟨a, ha, .refl⟩) ?_ b hb
    rintro n - ⟨a, ha, hreach⟩ b hb
    exact ⟨a, ha, hreach.tail hb⟩
  · rintro ⟨a, ha, hreach⟩
    have hnodes : ∀ x ∈ mark next nodes fuel s, x ∈ nodes :=
      mark_induct fuel hs fun n hn _ => hnext n hn
    induction hreach with
    | refl => exact subset_mark nodes fuel s ha
    | tail _ hedge ih =>
      rw [← sweep_mark hs hnext (Nat.lt_add_right s.card hfuel)]
      exact next_mem_sweep (hnodes _ ih) ih hedge

end Win98Modern
