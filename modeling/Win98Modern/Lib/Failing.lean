import Mathlib.Tactic.Common

/-!
# Computations that fail and keep their state

A computation on a state that may fail, and whose effects stay when it does: what it has done has to be
undone by its caller.  `Spec P x Q E`: from a state with `P`, `x` ends with a result and a state that
satisfy `Q`, or fails in a state that satisfies `E`.
-/

namespace Win98Modern

def Failing (σ ε α : Type) : Type := σ → σ × Except ε α

namespace Failing

variable {σ ε α β : Type}

instance : Monad (Failing σ ε) where
  pure a := fun s => (s, .ok a)
  bind x f := fun s =>
    match x s with
    | (s', .ok a) => f a s'
    | (s', .error e) => (s', .error e)

def fail (e : ε) : Failing σ ε α := fun s => (s, .error e)

def ensure (c : Prop) [Decidable c] (e : ε) : Failing σ ε Unit := if c then pure () else fail e

def modify (f : σ → σ) : Failing σ ε Unit := fun s => (f s, .ok ())

/-- The states before and after a computation. -/
def Spec (P : σ → Prop) (x : Failing σ ε α) (Q : α → σ → Prop) (E : σ → Prop) : Prop :=
  ∀ s, P s → (∀ a s', x s = (s', .ok a) → Q a s') ∧ ∀ e s', x s = (s', .error e) → E s'

variable {P P' : σ → Prop} {x : Failing σ ε α} {f : α → Failing σ ε β} {Q Q' : α → σ → Prop}
  {R : β → σ → Prop} {E : σ → Prop}

theorem Spec.mono (h : Spec P x Q E) (hP : ∀ s, P' s → P s) (hQ : ∀ a s, Q a s → Q' a s) :
    Spec P' x Q' E := by
  intro s hs
  obtain ⟨hok, herr⟩ := h s (hP s hs)
  exact ⟨fun a s' hx => hQ a s' (hok a s' hx), herr⟩

/-- The last step of a computation that ends with a result. -/
theorem run_ok {a : α} {s : σ} (h : Q a s) :
    (∀ b t, (s, (.ok a : Except ε α)) = (t, .ok b) → Q b t) ∧
      ∀ e t, (s, (.ok a : Except ε α)) = (t, .error e) → E t := by
  refine ⟨fun b t hb => ?_, fun e t he => ?_⟩
  · cases hb
    exact h
  · cases he

/-- The last step of a computation that fails. -/
theorem run_error {e : ε} {s : σ} (h : E s) :
    (∀ b t, (s, (.error e : Except ε α)) = (t, .ok b) → Q b t) ∧
      ∀ e' t, (s, (.error e : Except ε α)) = (t, .error e') → E t := by
  refine ⟨fun b t hb => ?_, fun e' t he => ?_⟩
  · cases hb
  · cases he
    exact h

/-- What every state before a computation satisfies may be assumed of it. -/
theorem spec_of_pre {c : Prop} (hc : ∀ s, P s → c) (h : c → Spec P x Q E) : Spec P x Q E :=
  fun s hs => h (hc s hs) s hs

theorem spec_pure {a : α} (h : ∀ s, P s → Q a s) : Spec P (pure a : Failing σ ε α) Q E :=
  fun s hs => run_ok (h s hs)

theorem spec_fail {e : ε} (h : ∀ s, P s → E s) : Spec P (fail e : Failing σ ε α) Q E :=
  fun s hs => run_error (h s hs)

theorem bind_run (s : σ) : (x >>= f) s = match x s with
    | (s', .ok a) => f a s'
    | (s', .error e) => (s', .error e) := rfl

theorem Spec.bind (hx : Spec P x Q E) (hf : ∀ a, Spec (Q a) (f a) R E) : Spec P (x >>= f) R E := by
  intro s hs
  obtain ⟨hok, herr⟩ := hx s hs
  have hbind := bind_run (x := x) (f := f) s
  rcases hrun : x s with ⟨s', a | a⟩ <;> rw [hrun] at hbind <;> rw [hbind]
  · refine ⟨fun b t hb => ?_, fun e t he => ?_⟩
    · cases hb
    · cases he
      exact herr a s' hrun
  · exact hf a s' (hok a s' hrun)

theorem spec_ensure {c : Prop} [Decidable c] {e : ε} (h : ∀ s, P s → E s) :
    Spec P (ensure c e : Failing σ ε Unit) (fun _ s => P s) E := by
  unfold ensure
  split
  · exact spec_pure fun _ hs => hs
  · exact spec_fail h

theorem spec_modify {g : σ → σ} {Q : Unit → σ → Prop} (h : ∀ s, P s → Q () (g s)) :
    Spec P (modify g : Failing σ ε Unit) Q E :=
  fun s hs => run_ok (h s hs)

end Failing

end Win98Modern
