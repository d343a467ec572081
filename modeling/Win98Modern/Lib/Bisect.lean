import Mathlib.Tactic.Common

/-!
# Search by halving

`bisect p lo hi` is the last number of `lo … hi` at which `p` holds, for a `p` that holds up to
some number and fails above it.
-/

namespace Win98Modern

/-- The upper middle is tried: at `lo = hi` nothing is, so `p lo` is taken for granted. -/
def bisect (p : Nat → Bool) (lo hi : Nat) : Nat :=
  if lo < hi then
    if p (lo + (hi - lo + 1) / 2) then bisect p (lo + (hi - lo + 1) / 2) hi
    else bisect p lo (lo + (hi - lo + 1) / 2 - 1)
  else lo
termination_by hi - lo

/-- A bound that lies between the ends is found. -/
theorem bisect_eq {p : Nat → Bool} {k lo hi : Nat} (hp : ∀ m ≤ hi, p m = true ↔ m ≤ k)
    (hlo : lo ≤ k) (hhi : k ≤ hi) : bisect p lo hi = k := by
  induction lo, hi using bisect.induct p with
  | case1 lo hi hlt hmid ih =>
    rw [bisect, if_pos hlt, if_pos hmid]
    exact ih hp ((hp _ (by omega)).mp hmid) hhi
  | case2 lo hi hlt hmid ih =>
    have hk : ¬lo + (hi - lo + 1) / 2 ≤ k := fun h => hmid ((hp _ (by omega)).mpr h)
    rw [bisect, if_pos hlt, if_neg hmid]
    exact ih (fun m hm => hp m (by omega)) hlo (by omega)
  | case3 lo hi hge =>
    rw [bisect, if_neg hge]
    omega

end Win98Modern
