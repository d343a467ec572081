import Mathlib.Tactic.Common

/-!
# Properties along a run

A machine makes the steps of a list one after the other.  `Along step P Q s as`: from `s`, the
states of the run satisfy `P` and its steps satisfy `Q`.  An invariant is carried along a run by
`along_of_inv`; `Along.last` reads off the final state.
-/

namespace Win98Modern

section Runs

variable {σ α : Type*} {step : σ → α → σ} {I A P P' : σ → Prop} {G Q Q' : σ → α → Prop} {s : σ}

/-- `P` holds in each state of the run, and `Q` of each step. -/
def Along (step : σ → α → σ) (P : σ → Prop) (Q : σ → α → Prop) : σ → List α → Prop
  | s, [] => P s
  | s, a :: as => P s ∧ Q s a ∧ Along step P Q (step s a) as

/-- The steps of the run satisfy `Q`. -/
abbrev Steps (step : σ → α → σ) (Q : σ → α → Prop) : σ → List α → Prop := Along step (fun _ => True) Q

theorem Along.head {as : List α} (h : Along step P Q s as) : P s := by
  cases as with
  | nil => exact h
  | cons a as => exact h.1

theorem Along.mono (as : List α) (h : Along step P Q s as) (hP : ∀ s, P s → P' s)
    (hQ : ∀ s a, Q s a → Q' s a) : Along step P' Q' s as := by
  induction as generalizing s with
  | nil => exact hP s h
  | cons a as ih => exact ⟨hP s h.1, hQ s a h.2.1, ih h.2.2⟩

theorem Along.and (as : List α) (h : Along step P Q s as) (h' : Along step P' Q' s as) :
    Along step (fun s => P s ∧ P' s) (fun s a => Q s a ∧ Q' s a) s as := by
  induction as generalizing s with
  | nil => exact ⟨h, h'⟩
  | cons a as ih => exact ⟨⟨h.1, h'.1⟩, ⟨h.2.1, h'.2.1⟩, ih h.2.2 h'.2.2⟩

theorem along_true : ∀ (s : σ) (as : List α), Along step (fun _ => True) (fun _ _ => True) s as
  | _, [] => trivial
  | s, a :: as => ⟨trivial, trivial, along_true (step s a) as⟩

theorem Along.last (as : List α) (h : Along step P Q s as) : P (as.foldl step s) := by
  induction as generalizing s with
  | nil => exact h
  | cons a as ih => exact ih h.2.2

theorem steps_append (xs ys : List α) (h : Steps step Q s (xs ++ ys)) :
    Steps step Q s xs ∧ Steps step Q (xs.foldl step s) ys := by
  induction xs generalizing s with
  | nil => exact ⟨trivial, h⟩
  | cons x xs ih =>
    obtain ⟨hx, hy⟩ := ih h.2.2
    exact ⟨⟨trivial, h.2.1, hx⟩, hy⟩

/-- **The invariant rule.**  `I` holds at the start, and a step from a state with `I` keeps it and
satisfies `Q`, as far as the run satisfies `A` and `G`. -/
theorem along_of_inv (as : List α) (hP : ∀ s, I s → P s)
    (hstep : ∀ s a, I s → A s → G s a → Q s a ∧ I (step s a)) (hs : I s)
    (hrun : Along step A G s as) : Along step P Q s as := by
  induction as generalizing s with
  | nil => exact hP s hs
  | cons a as ih =>
    obtain ⟨hq, hi⟩ := hstep s a hs hrun.1 hrun.2.1
    exact ⟨hP s hs, hq, ih hi hrun.2.2⟩

instance decidableAlong [DecidablePred P] [∀ s a, Decidable (Q s a)] :
    ∀ (s : σ) (as : List α), Decidable (Along step P Q s as)
  | s, [] => inferInstanceAs (Decidable (P s))
  | s, a :: as =>
    have := decidableAlong (step s a) as
    inferInstanceAs (Decidable (P s ∧ Q s a ∧ _))

end Runs

end Win98Modern
