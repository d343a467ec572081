import Mathlib.Order.Interval.Finset.Nat

/-!
# A string put together from pieces

A *piece* is a part of a string at an offset; the last piece of a string is marked.  A list of
pieces, the latest first, is an image of the string (`image`), its length is what the latest marked
piece says (`extent`), and the units of `k` entries it touches are counted (`units`).

Counting units does not tell a hole from a piece beyond the end.  `whole_iff` says when a full count
means that nothing is missing, and `PieceOf.image_eq`, `complete_of_all` that the pieces of one
string give it back, in any order and with repetitions.
-/

namespace Win98Modern

open List

structure Piece (α : Type*) where
  off : Nat
  data : List α
  last : Bool

namespace Piece

variable {α : Type*} {k : Nat} {p : Piece α} {ps : List (Piece α)} {s : List α}

/-- The offset behind the piece. -/
def fin (p : Piece α) : Nat := p.off + p.data.length

/-- The entry of the string at `i`, if it is in the piece. -/
def get? (p : Piece α) (i : Nat) : Option α := if p.off ≤ i then p.data[i - p.off]? else none

variable {i u : Nat}

theorem isSome_get? : (p.get? i).isSome ↔ p.off ≤ i ∧ i < p.fin := by
  unfold get? fin
  split
  · rw [Option.isSome_iff_ne_none, ne_eq, List.getElem?_eq_none_iff]
    omega
  · rename_i h
    exact iff_of_false nofun fun hi => h hi.1

/-- The units of `k` entries that the piece touches. -/
def span (k : Nat) (p : Piece α) : Finset Nat := Finset.Ico (p.off / k) ((p.fin + (k - 1)) / k)

/-- What the pieces say about the entry at `i`; later pieces go first. -/
def image (ps : List (Piece α)) (i : Nat) : Option α := ps.findSome? (·.get? i)

/-- The length of the string, as the latest last piece has it; 0 without one. -/
def extent (ps : List (Piece α)) : Nat := ((ps.find? (·.last)).map fin).getD 0

def units (k : Nat) : List (Piece α) → Finset Nat
  | [] => ∅
  | p :: ps => span k p ∪ units k ps

/-- The length is known, and as many units were touched as it has. -/
def Complete (k : Nat) (ps : List (Piece α)) : Prop :=
  extent ps ≠ 0 ∧ (units k ps).card = (extent ps + (k - 1)) / k

instance : Decidable (Complete k ps) := inferInstanceAs (Decidable (_ ∧ _))

/-- No entry of the string is missing. -/
def Whole (ps : List (Piece α)) : Prop := ∀ i < extent ps, (image ps i).isSome

/-- No piece lies beyond the unit in which the string ends, and where a piece ends inside a unit,
before the end of the string, other pieces have the rest of that unit. -/
def Fits (k : Nat) (ps : List (Piece α)) : Prop :=
  ∀ p ∈ ps, (p.fin + (k - 1)) / k ≤ (extent ps + (k - 1)) / k ∧
    ∀ i < extent ps, p.fin ≤ i → i < (p.fin + (k - 1)) / k * k →
      ∃ q ∈ ps, q.off ≤ i ∧ i < q.fin

theorem isSome_image : (image ps i).isSome ↔ ∃ p ∈ ps, p.off ≤ i ∧ i < p.fin := by
  unfold image
  rw [List.findSome?_isSome_iff]
  simp only [isSome_get?]

theorem mem_units : u ∈ units k ps ↔ ∃ p ∈ ps, u ∈ span k p := by
  induction ps with
  | nil => exact iff_of_false (Finset.notMem_empty u) nofun
  | cons p ps ih => rw [units, Finset.mem_union, ih, exists_mem_cons_iff]

theorem mem_span : u ∈ span k p ↔ p.off / k ≤ u ∧ u < (p.fin + (k - 1)) / k :=
  Finset.mem_Ico

/-- An entry of a piece is in a unit that the piece touches. -/
theorem div_mem_span (hk : 0 < k) (hlo : p.off ≤ i) (hhi : i < p.fin) : i / k ∈ span k p := by
  refine mem_span.2 ⟨Nat.div_le_div_right hlo, ?_⟩
  rw [Nat.div_lt_iff_lt_mul hk, Nat.mul_comm]
  have := Nat.lt_mul_div_succ (p.fin + (k - 1)) hk
  rw [Nat.mul_add, Nat.mul_one] at this
  omega

theorem le_of_div_mem_span (hk : 0 < k) (halign : k ∣ p.off) (h : i / k ∈ span k p) :
    p.off ≤ i ∧ i < (p.fin + (k - 1)) / k * k := by
  obtain ⟨hlo, hhi⟩ := mem_span.1 h
  constructor
  · obtain ⟨m, hm⟩ := halign
    rw [hm, Nat.mul_div_cancel_left _ hk] at hlo
    rw [hm]
    exact Nat.le_trans (Nat.mul_le_mul_left k hlo) (Nat.mul_div_le i k)
  · exact (Nat.div_lt_iff_lt_mul hk).1 hhi

theorem mem_units_of_all (hk : 0 < k) {n : Nat} (hall : ∀ i < n, (image ps i).isSome)
    (hu : u < (n + (k - 1)) / k) : u ∈ units k ps := by
  have hlast : u * k < n := by
    have := Nat.mul_le_of_le_div k _ _ (Nat.succ_le_of_lt hu)
    rw [Nat.succ_mul] at this
    omega
  obtain ⟨q, hq, hlo, hhi⟩ := isSome_image.1 (hall _ hlast)
  have := div_mem_span hk hlo hhi
  rw [Nat.mul_div_cancel _ hk] at this
  exact mem_units.2 ⟨q, hq, this⟩

theorem units_eq_range (hall : ∀ u < n, u ∈ units k ps) (hcard : (units k ps).card = n) :
    units k ps = Finset.range n := by
  symm
  apply Finset.eq_of_subset_of_card_le
  · intro u hu
    exact hall u (Finset.mem_range.1 hu)
  · rw [hcard, Finset.card_range]

theorem whole_iff (hk : 0 < k) (halign : ∀ p ∈ ps, k ∣ p.off) (hne : ∀ p ∈ ps, p.data ≠ [])
    (hfull : Complete k ps) : Whole ps ↔ Fits k ps := by
  obtain ⟨-, hcard⟩ := hfull
  constructor
  · intro hwhole p hp
    have hunits : units k ps = Finset.range ((extent ps + (k - 1)) / k) := by
      apply units_eq_range _ hcard
      intro u hu
      exact mem_units_of_all hk hwhole hu
    constructor
    · by_contra hlt
      have hlen : 0 < p.data.length := length_pos_iff.2 (hne p hp)
      have hmem : (p.fin - 1) / k ∈ units k ps :=
        mem_units.2 ⟨p, hp, div_mem_span hk (by unfold fin; omega) (by unfold fin; omega)⟩
      rw [hunits, Finset.mem_range] at hmem
      have hround : (p.fin + (k - 1)) / k = (p.fin - 1) / k + 1 := by
        rw [← Nat.add_div_right _ hk]
        congr 1
        unfold fin
        omega
      omega
    · intro i hi _ _
      exact isSome_image.1 (hwhole i hi)
  · intro hfits i hi
    have hsub : units k ps ⊆ Finset.range ((extent ps + (k - 1)) / k) := by
      intro u hu
      obtain ⟨p, hp, hup⟩ := mem_units.1 hu
      exact Finset.mem_range.2 ((mem_span.1 hup).2.trans_le (hfits p hp).1)
    have hunits := Finset.eq_of_subset_of_card_le hsub (by rw [hcard, Finset.card_range])
    have hmem : i / k ∈ units k ps := by
      rw [hunits, Finset.mem_range, Nat.div_lt_iff_lt_mul hk]
      have := Nat.lt_mul_div_succ (extent ps + (k - 1)) hk
      rw [Nat.mul_add, Nat.mul_one, Nat.mul_comm] at this
      omega
    obtain ⟨p, hp, hup⟩ := mem_units.1 hmem
    obtain ⟨hlo, hhi⟩ := le_of_div_mem_span hk (halign p hp) hup
    rw [isSome_image]
    obtain hin | hout := Nat.lt_or_ge i p.fin
    · exact ⟨p, hp, hlo, hin⟩
    · exact (hfits p hp).2 i hi hout hhi

/-! ### Pieces of one string -/

/-- `p` is a piece of `s`, not empty, and marked exactly if it ends `s`. -/
structure PieceOf (s : List α) (p : Piece α) : Prop where
  data_ne : p.data ≠ []
  data_eq : p.data = (s.drop p.off).take p.data.length
  fin_le : p.fin ≤ s.length
  last_iff : p.last = true ↔ p.fin = s.length

theorem PieceOf.get?_eq (h : PieceOf s p) (hlo : p.off ≤ i) (hhi : i < p.fin) :
    p.get? i = s[i]? := by
  unfold get? fin at *
  rw [if_pos hlo, h.data_eq, List.getElem?_take_of_lt (by omega), List.getElem?_drop]
  congr 1
  omega

theorem extent_pieces (h : ∀ p ∈ ps, PieceOf s p) : extent ps = 0 ∨ extent ps = s.length := by
  unfold extent
  cases hf : ps.find? (·.last) with
  | none => exact .inl rfl
  | some p =>
    have hlast : p.last = true := List.find?_some (p := fun p : Piece α => p.last) hf
    exact .inr ((h p (mem_of_find?_eq_some hf)).last_iff.1 hlast)

theorem image_pieces (h : ∀ p ∈ ps, PieceOf s p) (hi : (image ps i).isSome) :
    image ps i = s[i]? := by
  unfold image at *
  cases hf : ps.findSome? (·.get? i) with
  | none =>
    rw [hf] at hi
    cases hi
  | some b =>
    obtain ⟨p, hp, hb⟩ := exists_of_findSome?_eq_some hf
    have hsome : (p.get? i).isSome := by rw [hb]; rfl
    obtain ⟨hlo, hhi⟩ := isSome_get?.1 hsome
    rw [← hb]
    exact (h p hp).get?_eq hlo hhi

/-- Pieces of one string do not end beyond it, and where one ends inside a unit the string ends. -/
theorem fits_pieces (hk : 0 < k) (h : ∀ p ∈ ps, PieceOf s p)
    (hpart : ∀ p ∈ ps, p.last = false → k ∣ p.fin) (hext : extent ps ≠ 0) : Fits k ps := by
  have hlen : extent ps = s.length := (extent_pieces h).resolve_left hext
  intro p hp
  rw [hlen]
  refine ⟨Nat.div_le_div_right (Nat.add_le_add_right (h p hp).fin_le _), ?_⟩
  intro i hi hlo hhi
  cases hl : p.last with
  | true =>
    rw [(h p hp).last_iff.1 hl] at hlo
    omega
  | false =>
    obtain ⟨m, hm⟩ := hpart p hp hl
    have hround : (p.fin + (k - 1)) / k = m := by
      rw [hm, Nat.mul_add_div hk, Nat.div_eq_of_lt (by omega), Nat.add_zero]
    rw [hround, Nat.mul_comm, ← hm] at hhi
    omega

/-- **The pieces of a string give it back**: a full count of units is the whole string. -/
theorem PieceOf.image_eq (hk : 0 < k) (h : ∀ p ∈ ps, PieceOf s p) (halign : ∀ p ∈ ps, k ∣ p.off)
    (hpart : ∀ p ∈ ps, p.last = false → k ∣ p.fin) (hfull : Complete k ps) :
    extent ps = s.length ∧ ∀ i < s.length, image ps i = s[i]? := by
  have hlen : extent ps = s.length := (extent_pieces h).resolve_left hfull.1
  refine ⟨hlen, fun i hi => image_pieces h ?_⟩
  have hwhole := (whole_iff hk halign (fun p hp => (h p hp).data_ne) hfull).2
    (fits_pieces hk h hpart hfull.1)
  exact hwhole i (hlen ▸ hi)

/-- **Once all of a string is there, the count is full.** -/
theorem complete_of_all (hk : 0 < k) (h : ∀ p ∈ ps, PieceOf s p)
    (hs : s ≠ []) (hall : ∀ i < s.length, (image ps i).isSome) : Complete k ps := by
  have hpos : 0 < s.length := length_pos_iff.2 hs
  have hlen : extent ps = s.length := by
    refine (extent_pieces h).resolve_left ?_
    obtain ⟨p, hp, hlo, hhi⟩ := isSome_image.1 (hall (s.length - 1) (by omega))
    have hlast : p.last = true := (h p hp).last_iff.2 (by have := (h p hp).fin_le; omega)
    unfold extent
    cases hf : ps.find? (·.last) with
    | none => exact absurd hlast (by simpa using List.find?_eq_none.1 hf p hp)
    | some q =>
      have hq : q.last = true := List.find?_some (p := fun p : Piece α => p.last) hf
      have hfin := (h q (mem_of_find?_eq_some hf)).last_iff.1 hq
      show q.fin ≠ 0
      omega
  refine ⟨by omega, ?_⟩
  have hunits : units k ps = Finset.range ((s.length + (k - 1)) / k) := by
    ext u
    rw [Finset.mem_range]
    constructor
    · intro hu
      obtain ⟨p, hp, hup⟩ := mem_units.1 hu
      exact (mem_span.1 hup).2.trans_le
        (Nat.div_le_div_right (Nat.add_le_add_right (h p hp).fin_le _))
    · intro hu
      exact mem_units_of_all hk hall hu
  rw [hunits, Finset.card_range, hlen]

end Piece

end Win98Modern
