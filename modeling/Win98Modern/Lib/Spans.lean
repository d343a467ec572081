import Mathlib.Data.List.Basic
import Mathlib.Order.Basic

/-!
# Spans in address order

A *span* is anything with a lower and an upper bound, `lo x < hi x`.  A list of
spans is `Ordered` when each ends before the next begins; every address is then
in at most one of them (`Ordered.unique`), and the spans that end at or below
an address are a prefix of the list (`Ordered.split_at`).

`spanAt` is the lookup of an address; `spanAt_iff` says that in an ordered list
it finds the one span that contains the address, and the lemmas after it what
insertion, removal and a change of the spans do to it.

`lowerBound` is the binary search for the first index at which a monotone test
fails, as programs write it with two indices `lo`, `hi`; `lowerBound_spec` says
what it returns when the test is monotone, and `lowerBound_test` what is left
of that when it is not.
-/

namespace Win98Modern

open List

/-! ### Binary search -/

/-- The search for the first index in `[lo, hi)` at which `test` fails; `fuel`
bounds the number of halvings. -/
def lowerBound (test : Nat → Bool) : Nat → Nat → Nat → Nat
  | 0, lo, _ => lo
  | fuel + 1, lo, hi =>
    if lo < hi then
      let mid := (lo + hi) / 2
      if test mid then lowerBound test fuel (mid + 1) hi else lowerBound test fuel lo mid
    else lo

theorem lowerBound_le (test : Nat → Bool) : ∀ fuel lo hi : Nat, lo ≤ hi →
    lo ≤ lowerBound test fuel lo hi ∧ lowerBound test fuel lo hi ≤ hi := by
  intro fuel
  induction fuel with
  | zero => intro lo hi h; simp [lowerBound, h]
  | succ fuel ih =>
    intro lo hi h
    rw [lowerBound]
    split
    · simp only
      split
      · have := ih ((lo + hi) / 2 + 1) hi (by omega)
        omega
      · have := ih lo ((lo + hi) / 2) (by omega)
        omega
    · omega

/-- Whatever the test, the index returned is one at which it was seen to fail,
or the upper end of the range. -/
theorem lowerBound_test (test : Nat → Bool) : ∀ fuel lo hi : Nat, hi - lo ≤ fuel → lo ≤ hi →
    lowerBound test fuel lo hi = hi ∨ test (lowerBound test fuel lo hi) = false := by
  intro fuel
  induction fuel with
  | zero => intro lo hi h h'; left; rw [lowerBound]; omega
  | succ fuel ih =>
    intro lo hi h h'
    rw [lowerBound]
    split
    · rename_i hlt
      simp only
      split
      · exact ih _ _ (by omega) (by omega)
      · rename_i ht
        rcases ih lo ((lo + hi) / 2) (by omega) (by omega) with he | he
        · right; rw [he]; simpa using ht
        · exact .inr he
    · left; omega

/-- For a test that holds on a prefix, the search returns where the prefix
ends. -/
theorem lowerBound_spec (test : Nat → Bool) (top : Nat)
    (hmono : ∀ i j, i ≤ j → j < top → test j = true → test i = true) :
    ∀ fuel lo hi : Nat, hi - lo ≤ fuel → lo ≤ hi → hi ≤ top →
      (∀ i, i < lo → test i = true) → (∀ i, hi ≤ i → i < top → test i = false) →
      (∀ i, i < lowerBound test fuel lo hi → test i = true) ∧
        ∀ i, lowerBound test fuel lo hi ≤ i → i < top → test i = false := by
  intro fuel
  induction fuel with
  | zero =>
    intro lo hi hf hle _ hlow hhigh
    have : lo = hi := by omega
    subst this
    exact ⟨hlow, hhigh⟩
  | succ fuel ih =>
    intro lo hi hf hle htop hlow hhigh
    rw [lowerBound]
    split
    · rename_i hlt
      simp only
      split
      · rename_i ht
        refine ih _ _ (by omega) (by omega) htop (fun i hi' => ?_) hhigh
        exact hmono i ((lo + hi) / 2) (by omega) (by omega) ht
      · rename_i ht
        refine ih _ _ (by omega) (by omega) (by omega) hlow (fun i hi' hit => ?_)
        by_contra hc
        exact ht (hmono _ i hi' hit (by simpa using hc))
    · have : lo = hi := by omega
      subst this
      exact ⟨hlow, hhigh⟩

/-! ### Ordered lists of spans -/

section Ordered

variable {α : Type*} {lo hi : α → Nat}

/-- Each span ends at or before the beginning of every later one. -/
def Ordered (lo hi : α → Nat) (xs : List α) : Prop := xs.Pairwise (fun a b => hi a ≤ lo b)

theorem ordered_nil : Ordered lo hi [] := List.Pairwise.nil

theorem ordered_append {xs ys : List α} :
    Ordered lo hi (xs ++ ys) ↔
      Ordered lo hi xs ∧ Ordered lo hi ys ∧ ∀ a ∈ xs, ∀ b ∈ ys, hi a ≤ lo b :=
  pairwise_append

theorem ordered_cons {x : α} {xs : List α} :
    Ordered lo hi (x :: xs) ↔ (∀ b ∈ xs, hi x ≤ lo b) ∧ Ordered lo hi xs :=
  pairwise_cons

theorem ordered_around {l r : List α} {x : α} :
    Ordered lo hi (l ++ x :: r) ↔
      Ordered lo hi (l ++ r) ∧ (∀ a ∈ l, hi a ≤ lo x) ∧ ∀ b ∈ r, hi x ≤ lo b := by
  rw [ordered_append, ordered_cons, ordered_append]
  constructor
  · rintro ⟨hl, ⟨hx, hr⟩, hlr⟩
    exact ⟨⟨hl, hr, fun a ha b hb => hlr a ha b (mem_cons_of_mem _ hb)⟩,
      fun a ha => hlr a ha x mem_cons_self, hx⟩
  · rintro ⟨⟨hl, hr, hlr⟩, hlx, hxr⟩
    refine ⟨hl, ⟨hxr, hr⟩, fun a ha b hb => ?_⟩
    rcases mem_cons.1 hb with rfl | hb
    · exact hlx a ha
    · exact hlr a ha b hb

theorem Ordered.sublist {xs ys : List α} (h : Ordered lo hi ys) (hs : xs.Sublist ys) :
    Ordered lo hi xs := List.Pairwise.sublist hs h

/-- The spans that end at or below `a` are a prefix. -/
theorem Ordered.split_at {xs : List α} (h : Ordered lo hi xs) (hpos : ∀ x ∈ xs, lo x < hi x)
    (a : Nat) : ∃ l r, xs = l ++ r ∧ (∀ x ∈ l, hi x ≤ a) ∧ ∀ x ∈ r, a < hi x := by
  induction xs with
  | nil => exact ⟨[], [], rfl, by simp, by simp⟩
  | cons x xs ih =>
    rw [ordered_cons] at h
    by_cases hx : hi x ≤ a
    · obtain ⟨l, r, rfl, hl, hr⟩ := ih h.2 (fun y hy => hpos y (mem_cons_of_mem _ hy))
      exact ⟨x :: l, r, rfl, by simpa using ⟨hx, hl⟩, hr⟩
    · refine ⟨[], x :: xs, rfl, by simp, fun y hy => ?_⟩
      rcases mem_cons.1 hy with rfl | hy'
      · omega
      · have := h.1 y hy'
        have := hpos y hy
        omega

/-- An address is in at most one span. -/
theorem Ordered.unique {xs : List α} (h : Ordered lo hi xs) {x y : α} (hx : x ∈ xs) (hy : y ∈ xs)
    {a : Nat} (hxa : lo x ≤ a ∧ a < hi x) (hya : lo y ≤ a ∧ a < hi y) : x = y := by
  induction xs with
  | nil => simp at hx
  | cons z xs ih =>
    rw [ordered_cons] at h
    rcases mem_cons.1 hx with ex | hx' <;> rcases mem_cons.1 hy with ey | hy'
    · rw [ex, ey]
    · have := h.1 y hy'; subst ex; omega
    · have := h.1 x hx'; subst ey; omega
    · exact ih h.2 hx' hy'

theorem Ordered.insert_between {l r : List α} {x : α} (h : Ordered lo hi (l ++ r))
    (hl : ∀ a ∈ l, hi a ≤ lo x) (hr : ∀ b ∈ r, hi x ≤ lo b) : Ordered lo hi (l ++ x :: r) :=
  ordered_around.2 ⟨h, hl, hr⟩

end Ordered

/-! ### Lookup -/

section Lookup

variable {α β : Type*} {lo hi : α → Nat}

/-- The first span that contains the address. -/
def spanAt (lo hi : α → Nat) (xs : List α) (a : Nat) : Option α :=
  xs.find? (fun x => decide (lo x ≤ a ∧ a < hi x))

theorem spanAt_mem {xs : List α} {a : Nat} {x : α} (h : spanAt lo hi xs a = some x) :
    x ∈ xs ∧ lo x ≤ a ∧ a < hi x :=
  ⟨mem_of_find?_eq_some h, by simpa using List.find?_some h⟩

theorem spanAt_eq_none {xs : List α} {a : Nat} :
    spanAt lo hi xs a = none ↔ ∀ x ∈ xs, ¬(lo x ≤ a ∧ a < hi x) := by
  rw [spanAt, List.find?_eq_none]
  simp only [decide_eq_true_eq]

/-- In an ordered list the lookup finds exactly the span that contains the address. -/
theorem spanAt_iff {xs : List α} (h : Ordered lo hi xs) {a : Nat} {x : α} :
    spanAt lo hi xs a = some x ↔ x ∈ xs ∧ lo x ≤ a ∧ a < hi x := by
  constructor
  · exact spanAt_mem
  · rintro ⟨hx, hin⟩
    cases hy : spanAt lo hi xs a with
    | none => exact absurd hin (spanAt_eq_none.1 hy x hx)
    | some y =>
      have hym := spanAt_mem hy
      rw [h.unique hym.1 hx hym.2 hin]

theorem spanAt_append (xs ys : List α) (a : Nat) :
    spanAt lo hi (xs ++ ys) a = (spanAt lo hi xs a).or (spanAt lo hi ys a) :=
  List.find?_append

theorem spanAt_cons (x : α) (xs : List α) (a : Nat) :
    spanAt lo hi (x :: xs) a = if lo x ≤ a ∧ a < hi x then some x else spanAt lo hi xs a := by
  rw [spanAt, List.find?_cons]
  split <;> rename_i h <;> simp only [decide_eq_true_eq, decide_eq_false_iff_not] at h
  · rw [if_pos h]
  · rw [if_neg h, spanAt]

theorem spanAt_map {f : α → α} (hlo : ∀ x, lo (f x) = lo x) (hhi : ∀ x, hi (f x) = hi x)
    (xs : List α) (a : Nat) : spanAt lo hi (xs.map f) a = (spanAt lo hi xs a).map f := by
  rw [spanAt, List.find?_map, spanAt]
  congr 2
  funext x
  simp only [Function.comp_apply, hlo, hhi]

theorem spanAt_filter {xs : List α} (h : Ordered lo hi xs) (keep : α → Bool) (a : Nat) :
    spanAt lo hi (xs.filter keep) a = (spanAt lo hi xs a).filter keep := by
  apply Option.ext
  intro x
  rw [spanAt_iff (h.sublist filter_sublist), Option.filter_eq_some_iff, spanAt_iff h,
    mem_filter]
  tauto

theorem spanAt_insert {l r : List α} {x : α} (h : Ordered lo hi (l ++ x :: r)) (a : Nat) :
    spanAt lo hi (l ++ x :: r) a =
      if lo x ≤ a ∧ a < hi x then some x else spanAt lo hi (l ++ r) a := by
  split
  · rename_i hin
    exact (spanAt_iff h).2 ⟨by simp, hin⟩
  · rename_i hout
    rw [spanAt_append, spanAt_append, spanAt_cons, if_neg hout]

theorem spanAt_congr {f : α → β} {xs ys : List α} {a : Nat}
    (h : (spanAt lo hi xs a).map f = (spanAt lo hi ys a).map f) (l r : List α) :
    (spanAt lo hi (l ++ xs ++ r) a).map f = (spanAt lo hi (l ++ ys ++ r) a).map f := by
  simp only [spanAt_append, Option.map_or, h]

end Lookup

end Win98Modern
