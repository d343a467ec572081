import Mathlib.Logic.Function.Iterate
import Mathlib.Order.Basic
import Mathlib.Tactic.Common

/-!
# Parent pointers

A function `up` from nodes to nodes, with a node `root`.  A node is `Rooted` when
climbing from it arrives at the root; when all nodes are, the pointers form a
tree.  Turning one pointer keeps the nodes rooted when the new parent is rooted
and does not lie below the node that is turned (`Rooted.update`).
-/

namespace Win98Modern

section Forest

variable {α : Type*} {up : α → α} {root a b d : α}

/-- Climbing from `d` arrives at the root. -/
def Rooted (up : α → α) (root d : α) : Prop := ∃ k, up^[k] d = root

theorem rooted_root : Rooted up root root := ⟨0, rfl⟩

theorem Rooted.down (h : Rooted up root (up d)) : Rooted up root d := by
  obtain ⟨k, hk⟩ := h
  exact ⟨k + 1, hk⟩

theorem Rooted.induct {P : α → Prop} (hroot : P root)
    (hstep : ∀ d, d ≠ root → Rooted up root (up d) → P (up d) → P d) (h : Rooted up root d) :
    P d := by
  obtain ⟨k, hk⟩ := h
  induction k generalizing d with
  | zero =>
    obtain rfl : d = root := hk
    exact hroot
  | succ k ih =>
    by_cases hd : d = root
    · rw [hd]
      exact hroot
    · exact hstep d hd ⟨k, hk⟩ (ih hk)

theorem Rooted.congr {up' : α → α} {P : α → Prop} (hP : ∀ d, P d → d ≠ root → P (up d))
    (heq : ∀ d, P d → up' d = up d) (hd : P d) (h : Rooted up root d) : Rooted up' root d := by
  refine Rooted.induct (P := fun d => P d → Rooted up' root d) (fun _ => rooted_root) ?_ h hd
  intro d hne _ ih hd
  refine Rooted.down ?_
  rw [heq d hd]
  exact ih (hP d hd hne)

variable [DecidableEq α]

theorem iterate_update_of_avoid (h : ∀ k, up^[k] d ≠ a) :
    ∀ k, (Function.update up a b)^[k] d = up^[k] d := by
  intro k
  induction k with
  | zero => rfl
  | succ k ih =>
    rw [Function.iterate_succ_apply', Function.iterate_succ_apply', ih,
      Function.update_of_ne (h k)]

theorem Rooted.update (hb : Rooted up root b) (hnot : ∀ k, up^[k] b ≠ a) (h : Rooted up root d) :
    Rooted (Function.update up a b) root d := by
  have hb' : Rooted (Function.update up a b) root b := by
    obtain ⟨k, hk⟩ := hb
    exact ⟨k, (iterate_update_of_avoid hnot k).trans hk⟩
  refine Rooted.induct (P := Rooted (Function.update up a b) root) rooted_root ?_ h
  intro d _ _ ih
  refine Rooted.down ?_
  by_cases hd : d = a
  · subst hd
    rwa [Function.update_self]
  · rwa [Function.update_of_ne hd]

end Forest

end Win98Modern
