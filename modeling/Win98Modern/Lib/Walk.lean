import Mathlib.Data.List.Basic
import Mathlib.Data.List.Induction

/-!
# Walks in a tree with labelled edges

`find a n` is the node that the edge `n` leads to from `a`.  A walk follows a list of labels.
When no node is entered by two edges and none enters the root, a node is at one path only
(`walk_inj`).  Planting a new node adds one path (`walk_plant`), cutting an edge removes the
paths that go through the part below it (`walk_prune`).
-/

namespace Win98Modern

open List Option

section Walk

variable {α κ : Type*} {find find' : α → κ → Option α} {root a b c d k x : α} {n m : κ}
  {p q : List κ}

def walk (find : α → κ → Option α) : α → List κ → Option α
  | a, [] => some a
  | a, n :: p => (find a n).bind fun c => walk find c p

theorem walk_append : walk find a (p ++ q) = (walk find a p).bind fun c => walk find c q := by
  induction p generalizing a with
  | nil => rfl
  | cons n p ih =>
    rw [cons_append, walk, walk, bind_assoc]
    exact congrArg _ (funext fun c => ih)

theorem walk_concat : walk find a (p ++ [n]) = (walk find a p).bind fun c => find c n := by
  rw [walk_append]
  refine congrArg _ (funext fun c => ?_)
  rw [walk]
  cases find c n <;> rfl

theorem walk_concat_eq_some :
    walk find a (p ++ [n]) = some x ↔ ∃ b, walk find a p = some b ∧ find b n = some x := by
  rw [walk_concat, bind_eq_some_iff]

/-- Edges lead to a node from one node, by one label, and never to the root. -/
structure Branching (find : α → κ → Option α) (root : α) : Prop where
  inj : ∀ {a b c n m}, find a n = some c → find b m = some c → a = b ∧ n = m
  top : ∀ {a n}, find a n ≠ some root

/-- **A node is at one path only.** -/
theorem walk_inj (h : Branching find root) (hp : walk find root p = some x)
    (hq : walk find root q = some x) : p = q := by
  induction p using List.reverseRecOn generalizing q x with
  | nil =>
    obtain rfl := some.inj hp
    rcases eq_nil_or_concat' q with rfl | ⟨q, m, rfl⟩
    · rfl
    · obtain ⟨b, -, hb⟩ := walk_concat_eq_some.mp hq
      exact absurd hb h.top
  | append_singleton p n ih =>
    obtain ⟨b, hb, hn⟩ := walk_concat_eq_some.mp hp
    rcases eq_nil_or_concat' q with rfl | ⟨q, m, rfl⟩
    · obtain rfl := some.inj hq
      exact absurd hn h.top
    · obtain ⟨b', hb', hm⟩ := walk_concat_eq_some.mp hq
      obtain ⟨rfl, rfl⟩ := h.inj hn hm
      rw [ih hb hb']

/-- The new edge `n` from `k` to the node `c`, which no edge led to and none leads from. -/
structure Planted (find find' : α → κ → Option α) (k : α) (n : κ) (c : α) : Prop where
  edge : find' k n = some c
  same : ∀ {b m}, ¬(b = k ∧ m = n) → find' b m = find b m
  free : find k n = none
  leaf : ∀ {m}, find c m = none
  new : ∀ {b m}, find b m ≠ some c
  ne : c ≠ k

theorem walk_plant (h : Planted find find' k n c) (hroot : c ≠ root) :
    walk find' root p = some x ↔
      walk find root p = some x ∨ x = c ∧ ∃ q, p = q ++ [n] ∧ walk find root q = some k := by
  induction p using List.reverseRecOn generalizing x with
  | nil =>
    refine ⟨.inl, ?_⟩
    rintro (h | ⟨-, q, hq, -⟩)
    · exact h
    · exact absurd hq.symm (append_ne_nil_of_right_ne_nil q (cons_ne_nil n []))
  | append_singleton p m ih =>
    rw [walk_concat_eq_some, walk_concat_eq_some]
    constructor
    · rintro ⟨b, hb, hm⟩
      rcases ih.mp hb with hb | ⟨rfl, -⟩
      · by_cases hbm : b = k ∧ m = n
        · obtain ⟨rfl, rfl⟩ := hbm
          rw [h.edge] at hm
          exact .inr ⟨(some.inj hm).symm, p, rfl, hb⟩
        · rw [h.same hbm] at hm
          exact .inl ⟨b, hb, hm⟩
      · rw [h.same fun hbk => h.ne hbk.1, h.leaf] at hm
        exact absurd hm nofun
    · rintro (⟨b, hb, hm⟩ | ⟨rfl, q, hq, hk⟩)
      · refine ⟨b, ih.mpr (.inl hb), ?_⟩
        rwa [h.same]
        rintro ⟨rfl, rfl⟩
        rw [h.free] at hm
        exact absurd hm nofun
      · obtain ⟨rfl, hmn⟩ := append_inj' hq rfl
        obtain rfl := head_eq_of_cons_eq hmn
        exact ⟨k, ih.mpr (.inl hk), h.edge⟩

/-- The edge `n` out of `k` is cut; `S` is the part below it, where anything may change. -/
structure Pruned (find find' : α → κ → Option α) (S : α → Prop) (k : α) (n : κ) : Prop where
  cut : find' k n = none
  same : ∀ {b m}, ¬S b → ¬(b = k ∧ m = n) → find' b m = find b m
  below : ∀ {c}, find k n = some c → S c
  down : ∀ {b m d}, S b → find b m = some d → S d
  into : ∀ {b m d}, ¬S b → find b m = some d → S d → b = k ∧ m = n

theorem walk_prune {S : α → Prop} (h : Pruned find find' S k n) (hroot : ¬S root) :
    walk find' root p = some x ↔ walk find root p = some x ∧ ¬S x := by
  induction p using List.reverseRecOn generalizing x with
  | nil =>
    refine ⟨fun hx => ⟨hx, ?_⟩, And.left⟩
    obtain rfl := some.inj hx
    exact hroot
  | append_singleton p m ih =>
    rw [walk_concat_eq_some, walk_concat_eq_some]
    constructor
    · rintro ⟨b, hb, hm⟩
      obtain ⟨hb, hSb⟩ := ih.mp hb
      have hbm : ¬(b = k ∧ m = n) := by
        rintro ⟨rfl, rfl⟩
        rw [h.cut] at hm
        exact absurd hm nofun
      rw [h.same hSb hbm] at hm
      exact ⟨⟨b, hb, hm⟩, fun hx => hbm (h.into hSb hm hx)⟩
    · rintro ⟨⟨b, hb, hm⟩, hx⟩
      have hSb : ¬S b := fun hS => hx (h.down hS hm)
      refine ⟨b, ih.mpr ⟨hb, hSb⟩, ?_⟩
      rwa [h.same hSb]
      rintro ⟨rfl, rfl⟩
      exact hx (h.below hm)

theorem walk_congr {R : α → Prop} (h : ∀ {b m}, R b → find' b m = find b m)
    (hR : ∀ {b m c}, R b → find b m = some c → R c) (ha : R a) :
    walk find' a p = walk find a p := by
  induction p generalizing a with
  | nil => rfl
  | cons n p ih =>
    rw [walk, walk, h ha]
    cases hn : find a n with
    | none => rfl
    | some c => exact ih (hR ha hn)

theorem walk_mem {R : α → Prop} (hR : ∀ {b m c}, R b → find b m = some c → R c) (ha : R a)
    (hp : walk find a p = some x) : R x := by
  induction p generalizing a with
  | nil => exact some.inj hp ▸ ha
  | cons n p ih =>
    obtain ⟨c, hc, hp⟩ := bind_eq_some_iff.mp hp
    exact ih (hR ha hc) hp

end Walk

end Win98Modern
