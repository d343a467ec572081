import Mathlib.Data.List.Nodup
import Mathlib.Logic.Function.Iterate

/-!
# Trails through a table of links

`trail next a n` are the first `n` slots from `a` on along the links `next`.  Only the links of its slots
but the last one are read, so a write to another slot, or to the last one, does not move it
(`trail_congr`, `trail_update`), and linking its last slot joins two trails (`trail_join`).
-/

namespace Win98Modern

open Function List

section Trail

variable {α : Type*} {next next' : α → α} {a b : α} {m n : Nat}

def trail (next : α → α) : α → Nat → List α
  | _, 0 => []
  | a, n + 1 => a :: trail next (next a) n

@[simp] theorem trail_zero : trail next a 0 = [] := rfl

theorem trail_succ : trail next a (n + 1) = a :: trail next (next a) n := rfl

@[simp] theorem length_trail : (trail next a n).length = n := by
  induction n generalizing a with
  | zero => rfl
  | succ n ih => rw [trail_succ, length_cons, ih]

theorem trail_add : trail next a (m + n) = trail next a m ++ trail next (next^[m] a) n := by
  induction m generalizing a with
  | zero => rw [Nat.zero_add, trail_zero, nil_append, Function.iterate_zero_apply]
  | succ m ih => rw [Nat.succ_add, trail_succ, ih, trail_succ, cons_append, Function.iterate_succ_apply]

theorem trail_concat : trail next a (n + 1) = trail next a n ++ [next^[n] a] := trail_add

theorem mem_trail_iff : b ∈ trail next a n ↔ ∃ i < n, next^[i] a = b := by
  induction n generalizing a with
  | zero => exact ⟨nofun, fun ⟨i, hi, _⟩ => absurd hi (Nat.not_lt_zero i)⟩
  | succ n ih =>
    rw [trail_succ, mem_cons, ih]
    constructor
    · rintro (rfl | ⟨i, hi, h⟩)
      · exact ⟨0, Nat.succ_pos n, rfl⟩
      · exact ⟨i + 1, Nat.succ_lt_succ hi, h⟩
    · rintro ⟨i, hi, h⟩
      cases i with
      | zero => exact .inl h.symm
      | succ i => exact .inr ⟨i, Nat.lt_of_succ_lt_succ hi, h⟩

theorem head_mem_trail (h : 0 < n) : a ∈ trail next a n := mem_trail_iff.2 ⟨0, h, rfl⟩

theorem trail_congr (h : ∀ i, i + 1 < n → next' (next^[i] a) = next (next^[i] a)) :
    trail next' a n = trail next a n ∧ ∀ i < n, next'^[i] a = next^[i] a := by
  induction n generalizing a with
  | zero => exact ⟨rfl, fun i hi => absurd hi (Nat.not_lt_zero i)⟩
  | succ n ih =>
    cases n with
    | zero =>
      refine ⟨rfl, fun i hi => ?_⟩
      rw [Nat.lt_one_iff.1 hi]
      rfl
    | succ n =>
      have ha : next' a = next a := h 0 (by omega)
      obtain ⟨ht, hi⟩ := ih (a := next a) fun i hi => h (i + 1) (by omega)
      refine ⟨by rw [trail_succ, ha, ht, ← trail_succ], fun i hlt => ?_⟩
      cases i with
      | zero => rfl
      | succ i => rw [Function.iterate_succ_apply, Function.iterate_succ_apply, ha, hi i (by omega)]

variable [DecidableEq α]

theorem trail_update (h : b ∉ trail next a n) (x : α) : trail (update next b x) a n = trail next a n := by
  refine (trail_congr fun i hi => ?_).1
  rw [update_of_ne]
  exact fun he => h (mem_trail_iff.2 ⟨i, by omega, he⟩)

theorem trail_update_last (h : (trail next a (n + 1)).Nodup) (x : α) :
    trail (update next (next^[n] a) x) a (n + 1) = trail next a (n + 1) ∧
      (update next (next^[n] a) x)^[n + 1] a = x := by
  rw [trail_concat] at h
  have hne : ∀ i, i < n → next^[i] a ≠ next^[n] a := fun i hi he =>
    disjoint_of_nodup_append h (mem_trail_iff.2 ⟨i, hi, rfl⟩) (by rw [he]; exact mem_singleton_self _)
  obtain ⟨ht, hi⟩ := @trail_congr α next (update next (next^[n] a) x) a (n + 1)
    fun i hi => update_of_ne (hne i (by omega)) _ _
  refine ⟨ht, ?_⟩
  rw [Function.iterate_succ_apply', hi n (by omega), update_self]

theorem trail_join (h : (trail next a (n + 1) ++ trail next b m).Nodup) :
    trail (update next (next^[n] a) b) a (n + 1 + m) = trail next a (n + 1) ++ trail next b m := by
  obtain ⟨ht, hb⟩ := trail_update_last (List.Nodup.of_append_left h) b
  have hlast : next^[n] a ∈ trail next a (n + 1) := mem_trail_iff.2 ⟨n, by omega, rfl⟩
  rw [trail_add, ht, hb, trail_update (fun hm => disjoint_of_nodup_append h hlast hm)]

end Trail

end Win98Modern
