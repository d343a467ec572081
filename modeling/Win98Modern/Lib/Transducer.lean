import Mathlib.Data.List.Basic

/-!
# Machines that read one symbol at a time

A transducer changes its state and writes symbols for each symbol that it reads.  What it writes for a
string does not depend on where the string is cut: `run_append`.
-/

namespace Win98Modern

/-- The state after a symbol, and what is written for it. -/
structure Transducer (σ α β : Type) where
  step : σ → α → σ × List β

namespace Transducer

variable {σ α β : Type} (T : Transducer σ α β)

def run : σ → List α → σ × List β
  | s, [] => (s, [])
  | s, a :: l => ((run (T.step s a).1 l).1, (T.step s a).2 ++ (run (T.step s a).1 l).2)

variable {T} {s : σ}

@[simp] theorem run_nil : T.run s [] = (s, []) := rfl

theorem run_cons {a : α} {l : List α} :
    T.run s (a :: l) = ((T.run (T.step s a).1 l).1, (T.step s a).2 ++ (T.run (T.step s a).1 l).2) := rfl

theorem run_append {l m : List α} :
    T.run s (l ++ m) = ((T.run (T.run s l).1 m).1, (T.run s l).2 ++ (T.run (T.run s l).1 m).2) := by
  induction l generalizing s with
  | nil => rfl
  | cons a l ih => simp only [List.cons_append, run_cons, ih, List.append_assoc]

end Transducer

end Win98Modern
