import Mathlib.Algebra.Group.Nat.Defs
import Mathlib.Data.List.Basic

/-!
# Little-endian numbers in a memory of bytes

`load n m a` is the number in the `n` bytes at `a`, `store n m a v` writes one there, `fill m a n` zeroes `n`
bytes.  A load sees the last store at its place (`load_store`), and no store beside it
(`load_store_of_disjoint`).
-/

namespace Win98Modern

open Function

abbrev Memory := Nat → BitVec 8

namespace Memory

variable {m m' : Memory} {a b n k v : Nat}

def load : Nat → Memory → Nat → Nat
  | 0, _, _ => 0
  | n + 1, m, a => (m a).toNat + load n m (a + 1) * 256

def store : Nat → Memory → Nat → Nat → Memory
  | 0, m, _, _ => m
  | n + 1, m, a, v => update (store n m (a + 1) (v / 256)) a (BitVec.ofNat 8 v)

def fill (m : Memory) (a n : Nat) : Memory := fun i => if a ≤ i ∧ i < a + n then 0 else m i

theorem store_apply {i : Nat} (h : i < a ∨ a + n ≤ i) : store n m a v i = m i := by
  induction n generalizing a v with
  | zero => rfl
  | succ n ih => rw [store, update_of_ne (by omega), ih (by omega)]

theorem load_congr (h : ∀ i, a ≤ i → i < a + n → m' i = m i) : load n m' a = load n m a := by
  induction n generalizing a with
  | zero => rfl
  | succ n ih => rw [load, load, h a (by omega) (by omega), ih fun i hi hlt => h i (by omega) (by omega)]

theorem load_lt : load n m a < 256 ^ n := by
  induction n generalizing a with
  | zero => exact Nat.one_pos
  | succ n ih =>
    have := ih (a := a + 1)
    rw [load, Nat.pow_succ]
    omega

theorem load_store (hv : v < 256 ^ n) : load n (store n m a v) a = v := by
  induction n generalizing a v with
  | zero => exact (Nat.lt_one_iff.1 hv).symm
  | succ n ih =>
    have hrest : load n (store (n + 1) m a v) (a + 1) = load n (store n m (a + 1) (v / 256)) (a + 1) :=
      load_congr fun i hi _ => update_of_ne (by omega) _ _
    rw [load, hrest, ih (by omega), store, update_self, BitVec.toNat_ofNat]
    omega

theorem load_store_of_disjoint (h : a + n ≤ b ∨ b + k ≤ a) : load n (store k m b v) a = load n m a :=
  load_congr fun i hi hlt => store_apply (by omega)

end Memory

end Win98Modern
