import Mathlib.Data.Nat.Count

/-!
# Bitmaps

A bitmap is a function from indices to bits.  `findBit` is the search for the
first index in a range that passes a test, as programs write it for a bitmap
stored in words: single bits up to a word boundary, whole words while none of
their bits passes, single bits again.  `findBit_spec` says that it finds what the
plain search finds.

`setRange` writes a range, and `zeros` counts the zero bits below a bound.
-/

namespace Win98Modern

/-! ### Searching -/

/-- `for (; i < limit; ++i) if (test(i)) return i; return limit;` -/
def findFrom (test : Nat → Bool) (limit : Nat) : Nat → Nat → Nat
  | 0, _ => limit
  | fuel + 1, i =>
    if i < limit then if test i then i else findFrom test limit fuel (i + 1) else limit

/-- Skips words of 64 bits in which no bit passes the test. -/
def skipWords (test : Nat → Bool) (limit : Nat) : Nat → Nat → Nat
  | 0, i => i
  | fuel + 1, i =>
    if i + 64 ≤ limit ∧ ∀ k < 64, test (i + k) = false then skipWords test limit fuel (i + 64) else i

/-- The first index of `[start, limit)` that passes the test, or `limit`. -/
def findBit (test : Nat → Bool) (start limit : Nat) : Nat :=
  let i := findFrom (fun i => decide (i % 64 = 0) || test i) limit limit start
  if i < limit ∧ i % 64 ≠ 0 then i
  else
    let j := skipWords test limit limit i
    findFrom test limit limit j

variable {limit start n i cnt : Nat} {map : Nat → Bool} {b : Bool}

theorem findFrom_spec (test : Nat → Bool) : ∀ {fuel i : Nat}, limit ≤ i + fuel →
    i ≤ limit → i ≤ findFrom test limit fuel i ∧ findFrom test limit fuel i ≤ limit ∧
      (∀ k, i ≤ k → k < findFrom test limit fuel i → test k = false) ∧
      (findFrom test limit fuel i < limit → test (findFrom test limit fuel i) = true) := by
  intro fuel
  induction fuel with
  | zero =>
    intro i hf hi
    have heq : i = limit := by omega
    subst heq
    refine ⟨le_rfl, le_rfl, fun k h1 h2 => ?_, fun h => absurd h (lt_irrefl _)⟩
    exact absurd h2 (by show ¬k < i; omega)
  | succ fuel ih =>
    intro i hf hi
    rw [findFrom]
    by_cases hlt : i < limit
    · rw [if_pos hlt]
      by_cases ht : test i = true
      · rw [if_pos ht]
        exact ⟨le_rfl, hi, fun k h1 h2 => absurd h2 (by omega), fun _ => ht⟩
      · rw [if_neg ht]
        obtain ⟨h1, h2, h3, h4⟩ := ih (i := i + 1) (by omega) (by omega)
        refine ⟨by omega, h2, fun k hk hk' => ?_, h4⟩
        by_cases hki : k = i
        · rw [hki]
          simpa using ht
        · exact h3 k (by omega) hk'
    · rw [if_neg hlt]
      exact ⟨hi, le_rfl, fun k h1 h2 => absurd h2 (by omega), fun h => absurd h (lt_irrefl _)⟩

theorem skipWords_spec (test : Nat → Bool) : ∀ (fuel : Nat) {i : Nat}, i ≤ limit →
    i ≤ skipWords test limit fuel i ∧ skipWords test limit fuel i ≤ limit ∧
      ∀ k, i ≤ k → k < skipWords test limit fuel i → test k = false := by
  intro fuel
  induction fuel with
  | zero => exact fun hi => ⟨le_rfl, hi, fun k h1 h2 => absurd h2 (Nat.not_lt.2 h1)⟩
  | succ fuel ih =>
    intro i hi
    rw [skipWords]
    split
    · rename_i hw
      obtain ⟨h1, h2, h3⟩ := ih hw.1
      refine ⟨by omega, h2, fun k hk hk' => ?_⟩
      by_cases hlt : k < i + 64
      · have := hw.2 (k - i) (by omega)
        rwa [show i + (k - i) = k by omega] at this
      · exact h3 k (by omega) hk'
    · exact ⟨le_rfl, hi, fun k h1 h2 => absurd h2 (by omega)⟩

/-- **The search by words finds the first index.** -/
theorem findBit_spec (test : Nat → Bool) (h : start ≤ limit) :
    start ≤ findBit test start limit ∧ findBit test start limit ≤ limit ∧
      (∀ k, start ≤ k → k < findBit test start limit → test k = false) ∧
      (findBit test start limit < limit → test (findBit test start limit) = true) := by
  obtain ⟨h1, h2, h3, h4⟩ := findFrom_spec (fun i => decide (i % 64 = 0) || test i)
    (show limit ≤ start + limit by omega) h
  unfold findBit
  simp only
  generalize findFrom (fun i => decide (i % 64 = 0) || test i) limit limit start = i at h1 h2 h3 h4
  have hbefore : ∀ k, start ≤ k → k < i → test k = false := by
    intro k hk hk'
    have := h3 k hk hk'
    simp only [Bool.or_eq_false_iff] at this
    exact this.2
  split
  · rename_i hi
    refine ⟨h1, h2, hbefore, fun hlt => ?_⟩
    simpa [hi.2] using h4 hlt
  · obtain ⟨k1, k2, k3⟩ := skipWords_spec test limit h2
    obtain ⟨l1, l2, l3, l4⟩ := findFrom_spec test
      (show limit ≤ skipWords test limit limit i + limit by omega) k2
    refine ⟨h1.trans (k1.trans l1), l2, fun k hk hk' => ?_, l4⟩
    by_cases hki : k < i
    · exact hbefore k hk hki
    · by_cases hkj : k < skipWords test limit limit i
      · exact k3 k (by omega) hkj
      · exact l3 k (by omega) hk'

/-! ### Ranges -/

/-- The map with `n` bits from `start` on written. -/
def setRange (map : Nat → Bool) (b : Bool) (start n : Nat) : Nat → Bool :=
  fun i => if start ≤ i ∧ i < start + n then b else map i

theorem setRange_mem (h : start ≤ i ∧ i < start + n) : setRange map b start n i = b := if_pos h

theorem setRange_not_mem (h : ¬(start ≤ i ∧ i < start + n)) :
    setRange map b start n i = map i := if_neg h

/-- The number of zero bits below `cnt`. -/
def zeros (map : Nat → Bool) (cnt : Nat) : Nat := Nat.count (fun i => map i = false) cnt

theorem zeros_congr {map' : Nat → Bool} (h : ∀ i < cnt, map i = map' i) :
    zeros map cnt = zeros map' cnt := by
  unfold zeros
  induction cnt with
  | zero => rfl
  | succ cnt ih =>
    rw [Nat.count_succ, Nat.count_succ, ih fun i hi => h i (by omega), h cnt (by omega)]

theorem zeros_pos (hi : i < cnt) (hz : map i = false) : 0 < zeros map cnt :=
  Nat.pos_of_ne_zero (Nat.count_ne_iff_exists.2 ⟨i, hi, hz⟩)

theorem zeros_set (h : start + n ≤ cnt) (hz : ∀ i, start ≤ i → i < start + n → map i = false) :
    zeros map cnt = zeros (setRange map true start n) cnt + n := by
  obtain ⟨r, rfl⟩ : ∃ r, cnt = start + n + r := ⟨cnt - (start + n), by omega⟩
  unfold zeros
  rw [Nat.count_add, Nat.count_add, Nat.count_add _ (start + n), Nat.count_add _ start n]
  have h1 : Nat.count (fun k => setRange map true start n k = false) start =
      Nat.count (fun k => map k = false) start :=
    zeros_congr fun i hi => setRange_not_mem (by omega)
  have h2 : Nat.count (fun k => setRange map true start n (start + k) = false) n = 0 :=
    Nat.count_iff_forall_not.2 fun k hk => by rw [setRange_mem (by omega)]; decide
  have h3 : Nat.count (fun k => map (start + k) = false) n = n :=
    Nat.count_iff_forall.2 fun k hk => hz _ (by omega) (by omega)
  have h4 : Nat.count (fun k => setRange map true start n (start + n + k) = false) r =
      Nat.count (fun k => map (start + n + k) = false) r :=
    zeros_congr fun i _ => setRange_not_mem (by omega)
  omega

theorem zeros_clear (h : start + n ≤ cnt) (hz : ∀ i, start ≤ i → i < start + n → map i = true) :
    zeros (setRange map false start n) cnt = zeros map cnt + n := by
  rw [zeros_set h fun i h1 h2 => setRange_mem ⟨h1, h2⟩]
  congr 1
  refine zeros_congr fun i _ => ?_
  by_cases hi : start ≤ i ∧ i < start + n
  · rw [setRange_mem hi, hz i hi.1 hi.2]
  · rw [setRange_not_mem hi, setRange_not_mem hi]

end Win98Modern
