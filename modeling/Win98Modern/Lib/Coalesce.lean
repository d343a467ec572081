import Mathlib.Data.List.Chain

/-!
# Lists whose neighbours join

Where two neighbours of a list join, they may be put together.  `mergeAll` does so from left to right; it
gets where single steps lead (`mergeAll_steps`), leaves no two neighbours that join (`mergeAll_merged`), and
does not depend on steps taken before (`mergeAll_step`).
-/

namespace Win98Modern

/-- Which neighbours join, and what they become; a join does not change what is joined at its ends. -/
structure Coalescing (α : Type*) where
  Joins : α → α → Prop
  decJoins : DecidableRel Joins
  join : α → α → α
  joins_left : ∀ {a b c}, Joins a b → (Joins (join a b) c ↔ Joins b c)
  joins_right : ∀ {a b c}, Joins b c → (Joins a (join b c) ↔ Joins a b)
  join_assoc : ∀ {a b c}, Joins a b → Joins b c → join (join a b) c = join a (join b c)

namespace Coalescing

variable {α : Type*} (C : Coalescing α)

instance (a b : α) : Decidable (C.Joins a b) := C.decJoins a b

/-- All joins from `a` on. -/
def merge : α → List α → List α
  | a, [] => [a]
  | a, b :: l => if C.Joins a b then merge (C.join a b) l else a :: merge b l

def mergeAll : List α → List α
  | [] => []
  | a :: l => C.merge a l

/-- Two neighbours have been put together. -/
def Step (l l' : List α) : Prop :=
  ∃ p a b q, C.Joins a b ∧ l = p ++ a :: b :: q ∧ l' = p ++ C.join a b :: q

/-- No two neighbours join. -/
def Merged (l : List α) : Prop := l.IsChain fun a b => ¬C.Joins a b

variable {C} {a b : α} {l l' q : List α}

theorem Step.cons (a : α) (h : C.Step l l') : C.Step (a :: l) (a :: l') := by
  obtain ⟨p, b, c, q, hj, rfl, rfl⟩ := h
  exact ⟨a :: p, b, c, q, hj, rfl, rfl⟩

theorem merge_joins (h : C.Joins a b) : C.merge a (b :: l) = C.merge (C.join a b) l := if_pos h
theorem merge_apart (h : ¬C.Joins a b) : C.merge a (b :: l) = a :: C.merge b l := if_neg h

theorem merge_steps (a : α) (l : List α) : Relation.ReflTransGen C.Step (a :: l) (C.merge a l) := by
  induction l generalizing a with
  | nil => exact .refl
  | cons b l ih =>
    rw [merge]
    split_ifs with hj
    · exact .head ⟨[], a, b, l, hj, rfl, rfl⟩ (ih _)
    · exact (ih b).lift (a :: ·) fun _ _ h => h.cons a

theorem mergeAll_steps (l : List α) : Relation.ReflTransGen C.Step l (C.mergeAll l) := by
  cases l with
  | nil => exact .refl
  | cons a l => exact merge_steps a l

theorem merge_head (a : α) (l : List α) :
    ∃ a' l', C.merge a l = a' :: l' ∧ ∀ b, C.Joins b a' ↔ C.Joins b a := by
  induction l generalizing a with
  | nil => exact ⟨a, [], rfl, fun b => Iff.rfl⟩
  | cons b l ih =>
    rw [merge]
    split_ifs with hj
    · obtain ⟨a', l', heq, h⟩ := ih (C.join a b)
      exact ⟨a', l', heq, fun c => (h c).trans (C.joins_right hj)⟩
    · exact ⟨a, _, rfl, fun c => Iff.rfl⟩

theorem merge_merged (a : α) (l : List α) : C.Merged (C.merge a l) := by
  induction l generalizing a with
  | nil => exact .singleton a
  | cons b l ih =>
    rw [merge]
    split_ifs with hj
    · exact ih _
    · obtain ⟨b', l', heq, h⟩ := C.merge_head b l
      have hb := ih b
      rw [heq] at hb ⊢
      exact hb.cons_cons fun hab => hj ((h a).1 hab)

theorem mergeAll_merged (l : List α) : C.Merged (C.mergeAll l) := by
  cases l with
  | nil => exact .nil
  | cons a l => exact merge_merged a l

theorem Merged.merge_eq (h : C.Merged (a :: l)) : C.merge a l = a :: l := by
  induction l generalizing a with
  | nil => rfl
  | cons b l ih =>
    obtain ⟨hj, hrest⟩ := List.isChain_cons_cons.1 h
    rw [merge_apart hj, ih hrest]

theorem Merged.mergeAll_eq (h : C.Merged l) : C.mergeAll l = l := by
  cases l with
  | nil => rfl
  | cons a l => exact h.merge_eq

/-- A merge does not see whether two elements behind the first one were put together before. -/
theorem merge_step (h : C.Step l l') (a : α) : C.merge a l = C.merge a l' := by
  obtain ⟨p, b, c, q, hj, rfl, rfl⟩ := h
  induction p generalizing a with
  | nil =>
    rw [List.nil_append, List.nil_append]
    by_cases hab : C.Joins a b
    · rw [merge_joins hab, merge_joins ((C.joins_left hab).2 hj), merge_joins ((C.joins_right hj).2 hab),
        C.join_assoc hab hj]
    · rw [merge_apart hab, merge_joins hj, merge_apart (mt (C.joins_right hj).1 hab)]
  | cons d p ih =>
    rw [List.cons_append, List.cons_append, merge, ih, ih, merge]

theorem mergeAll_step (h : C.Step l l') : C.mergeAll l = C.mergeAll l' := by
  obtain ⟨p, b, c, q, hj, rfl, rfl⟩ := h
  cases p with
  | nil => exact if_pos hj
  | cons a p => exact merge_step ⟨p, b, c, q, hj, rfl, rfl⟩ a

end Coalescing

end Win98Modern
