import Mathlib.Order.Interval.Finset.Nat

/-!
# A window of a sequence in a ring

A sequence is written into a ring of slots entry by entry, the `k`-th into the slot `slot k`, and read in the
same order.  `Window slot ring lo l`: the entries of `l` from the `lo`-th on, which are not read yet, stand in
their slots, and no two of them share one.
-/

namespace Win98Modern

section Window

variable {α : Type*} {slot : Nat → Nat} {ring : Nat → α} {lo n : Nat} {l : List α} {a : α}

structure Window (slot : Nat → Nat) (ring : Nat → α) (lo : Nat) (l : List α) : Prop where
  le : lo ≤ l.length
  stands : ∀ k a, lo ≤ k → l[k]? = some a → ring (slot k) = a
  apart : ∀ i j, lo ≤ i → i < j → j < l.length → slot i ≠ slot j

theorem Window.nil : Window slot ring 0 ([] : List α) where
  le := Nat.le_refl 0
  stands _ _ _ h := by simp at h
  apart _ j _ _ h := absurd h (Nat.not_lt_zero j)

/-- Another entry, whose slot is not one of an entry that is still to be read. -/
theorem Window.push (h : Window slot ring lo l) (hs : ∀ k, lo ≤ k → k < l.length → slot k ≠ slot l.length) (a : α) :
    Window slot (Function.update ring (slot l.length) a) lo (l ++ [a]) where
  le := by
    rw [List.length_append]
    exact Nat.le_add_right_of_le h.le
  stands k b hk hb := by
    rcases Nat.lt_trichotomy k l.length with hlt | rfl | hgt
    · rw [List.getElem?_append_left hlt] at hb
      rw [Function.update_of_ne (hs k hk hlt)]
      exact h.stands k b hk hb
    · rw [List.getElem?_concat_length] at hb
      rw [Function.update_self, Option.some.inj hb]
    · rw [List.getElem?_eq_none (by rw [List.length_append, List.length_singleton]; omega)] at hb
      cases hb
  apart i j hi hij hj := by
    rw [List.length_append, List.length_singleton] at hj
    rcases Nat.lt_succ_iff_lt_or_eq.1 hj with hlt | rfl
    · exact h.apart i j hi hij hlt
    · exact hs i hi hij

theorem Window.advance (h : Window slot ring lo l) (hlt : lo < l.length) : Window slot ring (lo + 1) l where
  le := hlt
  stands k a hk := h.stands k a (by omega)
  apart i j hi := h.apart i j (by omega)

theorem Window.front (h : Window slot ring lo l) (hlt : lo < l.length) : l[lo]? = some (ring (slot lo)) := by
  rw [List.getElem?_eq_getElem hlt, h.stands lo _ (Nat.le_refl lo) (List.getElem?_eq_getElem hlt)]

theorem Window.length_le (h : Window slot ring lo l) (hn : ∀ k, slot k < n) : l.length ≤ lo + n := by
  have hinj : Set.InjOn slot (Finset.Ico lo l.length) := by
    intro i hi j hj hij
    rw [Finset.coe_Ico, Set.mem_Ico] at hi hj
    rcases Nat.lt_trichotomy i j with hlt | heq | hgt
    · exact absurd hij (h.apart i j hi.1 hlt hj.2)
    · exact heq
    · exact absurd hij.symm (h.apart j i hj.1 hgt hi.2)
  have hcard := Finset.card_le_card_of_injOn (t := Finset.range n) slot (fun k _ => Finset.mem_range.2 (hn k)) hinj
  rw [Nat.card_Ico, Finset.card_range] at hcard
  omega

end Window

end Win98Modern
