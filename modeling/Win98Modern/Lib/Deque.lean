import Mathlib.Data.List.Nodup

/-!
# Doubly linked lists

Nodes with a pointer to the node before and one to the node behind, and the two ends of the
list.  `Linked prev next head tail l` says that they hold the list `l`.  A node is pushed at
the end or taken out anywhere.
-/

namespace Win98Modern

open List

section Deque

variable {N : Type*} {prev next prev' next' : N → Option N}
  {head tail : Option N} {l a b : List N} {x t : N}

/-- The pointers hold the list `l`. -/
structure Linked (prev next : N → Option N) (head tail : Option N) (l : List N) : Prop where
  head : head = l.head?
  tail : tail = l.getLast?
  nodup : l.Nodup
  links : ∀ a x b, l = a ++ x :: b → prev x = a.getLast? ∧ next x = b.head?

theorem Linked.congr (h : Linked prev next head tail l) (hp : ∀ x ∈ l, prev' x = prev x)
    (hn : ∀ x ∈ l, next' x = next x) : Linked prev' next' head tail l where
  head := h.head
  tail := h.tail
  nodup := h.nodup
  links := by
    intro a x b hl
    have hx : x ∈ l := by simp [hl]
    rw [hp x hx, hn x hx]
    exact h.links a x b hl

theorem head_append_singleton (l : List N) (t : N) :
    (l ++ [t]).head? = if l = [] then some t else l.head? := by
  cases l with
  | nil => rfl
  | cons x l => rfl

theorem Linked.push [DecidableEq N] (h : Linked prev next head tail l) (ht : t ∉ l)
    (hp : ∀ x ∈ l, prev' x = prev x) (hpt : prev' t = tail)
    (hn : ∀ x ∈ l, next' x = if tail = some x then some t else next x) (hnt : next' t = none) :
    Linked prev' next' (if tail = none then some t else head) (some t) (l ++ [t]) where
  head := by
    rw [head_append_singleton, h.tail, h.head]
    simp
  tail := by simp
  nodup := by
    rw [nodup_append]
    refine ⟨h.nodup, by simp, ?_⟩
    intro x hx y hy e
    rw [mem_singleton.1 hy] at e
    exact ht (e ▸ hx)
  links := by
    intro a x b hl
    obtain rfl | ⟨b', y, rfl⟩ := eq_nil_or_concat b
    · -- the new node
      have hsplit := append_inj' hl rfl
      obtain rfl := hsplit.1
      obtain rfl : t = x := by simpa using hsplit.2
      exact ⟨hpt.trans h.tail, hnt⟩
    · -- a node in front of it
      rw [concat_eq_append, ← cons_append, ← append_assoc] at hl
      have hsplit := append_inj' hl rfl
      obtain rfl : t = y := by simpa using hsplit.2
      have hold := hsplit.1
      have hx : x ∈ l := by simp [hold]
      have hlinks := h.links a x b' hold
      rw [hp x hx, hn x hx, hlinks.1, hlinks.2, concat_eq_append, head_append_singleton]
      refine ⟨rfl, ?_⟩
      have hlast : tail = some x ↔ b' = [] := by
        rw [h.tail, hold]
        constructor
        · intro hx'
          by_contra hne
          have hmem : x ∈ b' := by
            rw [List.getLast?_append_of_ne_nil _ (by simp),
              List.getLast?_cons_of_ne_nil hne] at hx'
            exact mem_of_getLast? hx'
          have hnd := h.nodup
          rw [hold, nodup_append] at hnd
          exact (nodup_cons.1 hnd.2.1).1 hmem
        · rintro rfl
          simp
      by_cases hb : b' = []
      · rw [if_pos (hlast.2 hb), if_pos hb]
      · rw [if_neg fun e => hb (hlast.1 e), if_neg hb]

theorem Linked.mem_of_prev (h : Linked prev next head tail (a ++ t :: b)) {x : N}
    (hx : prev t = some x) : x ∈ a := by
  rw [(h.links a t b rfl).1] at hx
  exact mem_of_getLast? hx

theorem Linked.mem_of_next (h : Linked prev next head tail (a ++ t :: b)) {x : N}
    (hx : next t = some x) : x ∈ b := by
  rw [(h.links a t b rfl).2] at hx
  exact mem_of_head? hx

theorem Linked.remove [DecidableEq N] (h : Linked prev next head tail (a ++ t :: b))
    (hp : ∀ x ∈ a ++ b, prev' x = if next t = some x then prev t else prev x)
    (hn : ∀ x ∈ a ++ b, next' x = if prev t = some x then next t else next x) :
    Linked prev' next' (if prev t = none then next t else head)
      (if next t = none then prev t else tail) (a ++ b) := by
  obtain ⟨hpt, hnt⟩ := h.links a t b rfl
  have hnd := h.nodup
  rw [nodup_append] at hnd
  have hcons := nodup_cons.1 hnd.2.1
  refine ⟨?_, ?_, ?_, ?_⟩
  · rw [hpt, hnt, h.head]
    cases a with
    | nil => rfl
    | cons y a => simp
  · rw [hpt, hnt, h.tail]
    cases b with
    | nil => simp
    | cons y b => simp
  · rw [nodup_append]
    exact ⟨hnd.1, hcons.2, fun x hx y hy => hnd.2.2 x hx y (mem_cons_of_mem t hy)⟩
  · intro u x v hl
    have hx : x ∈ a ++ b := by simp [hl]
    have hnext : x ∈ a → next t ≠ some x := fun hxa e =>
      hnd.2.2 x hxa x (mem_cons_of_mem t (h.mem_of_next e)) rfl
    have hprev : x ∈ b → prev t ≠ some x := fun hxb e =>
      hnd.2.2 x (h.mem_of_prev e) x (mem_cons_of_mem t hxb) rfl
    have behind : ∀ w, u = a ++ w → b = w ++ x :: v →
        (if next t = some x then prev t else prev x) = u.getLast? ∧
          (if prev t = some x then next t else next x) = v.head? := by
      rintro w rfl rfl
      have hlinks := h.links (a ++ t :: w) x v (by simp)
      rw [if_neg (hprev (by simp))]
      refine ⟨?_, hlinks.2⟩
      cases w with
      | nil =>
        rw [if_pos (by simpa using hnt), hpt]
        simp
      | cons y w =>
        have hyx : y ≠ x := by
          rintro rfl
          simpa using hcons.2
        rw [if_neg (by simpa [hnt] using hyx), hlinks.1]
        simp
    rw [hp x hx, hn x hx]
    obtain ⟨w, hu, hb⟩ | ⟨w, ha, hv⟩ := append_eq_append_iff.1 hl
    · exact behind w hu hb
    · cases w with
      | nil => exact behind [] (by simpa using ha.symm) (by simpa using hv.symm)
      | cons y w =>
        -- in front of `t`
        obtain ⟨rfl, rfl⟩ := List.cons.inj hv
        subst ha
        have hlinks := h.links u x (w ++ t :: b) (by simp)
        rw [if_neg (hnext (by simp)), hlinks.1, hlinks.2]
        refine ⟨rfl, ?_⟩
        have hlast : prev t = some x ↔ w = [] := by
          rw [hpt]
          constructor
          · intro e
            by_contra hne
            have hmem : x ∈ w := by
              rw [List.getLast?_append_of_ne_nil _ (by simp),
                List.getLast?_cons_of_ne_nil hne] at e
              exact mem_of_getLast? e
            have hndu := nodup_append.1 hnd.1
            exact (nodup_cons.1 hndu.2.1).1 hmem
          · rintro rfl
            simp
        by_cases hw : w = []
        · rw [if_pos (hlast.2 hw), hnt, hw]
          rfl
        · rw [if_neg fun e => hw (hlast.1 e)]
          cases w with
          | nil => exact absurd rfl hw
          | cons z w => rfl

end Deque

end Win98Modern
