import Mathlib.Data.List.Infix
import Mathlib.Data.Nat.Find

/-!
# UTF-8 with replacement

`Decodes bytes chars`: a character where an encoded character stands, and one U+FFFD for each maximal
subpart of an ill-formed sequence: the longest part that begins some encoded character, or one byte.
Every string of bytes decodes (`Decodes.exists`), and the characters of an encoded text to themselves
(`Decodes.encoded`).

`lead` is the table of well-formed sequences: for a first byte of two or more, how many bytes follow,
the bounds of the second byte and the bits of the first one.  `encoded_of_seq` and `seq_of_encoded`
relate it to the encoding of characters.
-/

namespace Win98Modern.Utf8

open List

abbrev encode := String.utf8EncodeChar

def replacement : Char := '\uFFFD'

/-- The bytes begin the encoding of some character. -/
def Begins (p : List UInt8) : Prop := ∃ c : Char, p <+: encode c

/-- `p` is the part of `p ++ rest` that is replaced as a whole. -/
structure MaximalSubpart (p rest : List UInt8) : Prop where
  ne_nil : p ≠ []
  not_encoded : ∀ c : Char, ¬encode c <+: p ++ rest
  begins : p.length = 1 ∨ Begins p
  longest : ∀ q, q <+: p ++ rest → Begins q → q.length ≤ p.length

inductive Decodes : List UInt8 → List Char → Prop
  | nil : Decodes [] []
  | char {rest : List UInt8} {cs : List Char} (c : Char) (h : Decodes rest cs) :
      Decodes (encode c ++ rest) (c :: cs)
  | bad {p rest : List UInt8} {cs : List Char} (hp : MaximalSubpart p rest) (h : Decodes rest cs) :
      Decodes (p ++ rest) (replacement :: cs)

theorem encode_ne_nil (c : Char) : encode c ≠ [] := String.utf8EncodeChar_ne_nil

theorem Decodes.encoded (cs : List Char) : Decodes (cs.flatMap encode) cs := by
  induction cs with
  | nil => exact .nil
  | cons c cs ih => exact .char c ih

theorem exists_first {bytes : List UInt8} (hne : bytes ≠ []) :
    (∃ c rest, bytes = encode c ++ rest) ∨ ∃ p rest, bytes = p ++ rest ∧ MaximalSubpart p rest := by
  classical
  by_cases hc : ∃ c, encode c <+: bytes
  · obtain ⟨c, rest, rfl⟩ := hc
    exact .inl ⟨c, rest, rfl⟩
  · refine .inr ?_
    let n := Nat.findGreatest (fun k => Begins (bytes.take k)) bytes.length
    have hlen : 1 ≤ bytes.length := length_pos_iff.2 hne
    have hn : n ≤ bytes.length := Nat.findGreatest_le _
    have htake : (bytes.take (max 1 n)).length = max 1 n := by
      rw [length_take]
      omega
    refine ⟨bytes.take (max 1 n), bytes.drop (max 1 n), (take_append_drop _ _).symm, ?_, ?_, ?_, ?_⟩
    · intro h
      rw [h] at htake
      simp only [length_nil] at htake
      omega
    · intro c h
      rw [take_append_drop] at h
      exact hc ⟨c, h⟩
    · by_cases h0 : n = 0
      · left
        rw [htake, h0]
        rfl
      · right
        rw [Nat.max_eq_right (by omega)]
        exact Nat.findGreatest_of_ne_zero (P := fun k => Begins (bytes.take k)) rfl h0
    · intro q hq hb
      rw [take_append_drop] at hq
      have hq' : bytes.take q.length = q := (prefix_iff_eq_take.1 hq).symm
      have hle : q.length ≤ n := Nat.le_findGreatest hq.length_le (by rw [hq']; exact hb)
      omega

theorem Decodes.exists (bytes : List UInt8) : ∃ cs, Decodes bytes cs := by
  induction hn : bytes.length using Nat.strong_induction_on generalizing bytes with
  | _ n ih =>
    by_cases hne : bytes = []
    · subst hne
      exact ⟨[], .nil⟩
    · rcases exists_first hne with ⟨c, rest, rfl⟩ | ⟨p, rest, rfl, hp⟩
      · have hpos := length_pos_iff.2 (encode_ne_nil c)
        rw [length_append] at hn
        obtain ⟨cs, h⟩ := ih rest.length (by omega) rest rfl
        exact ⟨c :: cs, .char c h⟩
      · have hpos := length_pos_iff.2 hp.ne_nil
        rw [length_append] at hn
        obtain ⟨cs, h⟩ := ih rest.length (by omega) rest rfl
        exact ⟨replacement :: cs, .bad hp h⟩

/-! ### The table of well-formed sequences -/

/-- What a first byte announces. -/
structure Lead where
  need : Nat
  lower : Nat
  upper : Nat
  bits : Nat

def lead (b : Nat) : Option Lead :=
  if 0xC2 ≤ b ∧ b ≤ 0xDF then some ⟨1, 0x80, 0xBF, b % 32⟩
  else if 0xE0 ≤ b ∧ b ≤ 0xEF then
    some ⟨2, if b = 0xE0 then 0xA0 else 0x80, if b = 0xED then 0x9F else 0xBF, b % 16⟩
  else if 0xF0 ≤ b ∧ b ≤ 0xF4 then
    some ⟨3, if b = 0xF0 then 0x90 else 0x80, if b = 0xF4 then 0x8F else 0xBF, b % 8⟩
  else none

/-- A byte that may stand at place `i` behind the first one. -/
def Lead.Fits (l : Lead) (i : Nat) (x : UInt8) : Prop :=
  if i = 0 then l.lower ≤ x.toNat ∧ x.toNat ≤ l.upper else 0x80 ≤ x.toNat ∧ x.toNat ≤ 0xBF

/-- The bytes that follow a first byte, as far as they have come. -/
def Lead.Follows (l : Lead) (t : List UInt8) : Prop :=
  t.length ≤ l.need ∧ ∀ i x, t[i]? = some x → l.Fits i x

def value (acc : Nat) (t : List UInt8) : Nat := t.foldl (fun v x => v * 64 + x.toNat % 64) acc

theorem value_concat (acc : Nat) (t : List UInt8) (x : UInt8) :
    value acc (t ++ [x]) = value acc t * 64 + x.toNat % 64 := by
  simp [value]

variable {l : Lead} {x : UInt8} {t : List UInt8} {n v : Nat}

theorem lead_cases {b : Nat} (h : lead b = some l) :
    (0xC2 ≤ b ∧ b ≤ 0xDF ∧ l = ⟨1, 0x80, 0xBF, b % 32⟩) ∨
    (0xE0 ≤ b ∧ b ≤ 0xEF ∧
      l = ⟨2, if b = 0xE0 then 0xA0 else 0x80, if b = 0xED then 0x9F else 0xBF, b % 16⟩) ∨
    (0xF0 ≤ b ∧ b ≤ 0xF4 ∧
      l = ⟨3, if b = 0xF0 then 0x90 else 0x80, if b = 0xF4 then 0x8F else 0xBF, b % 8⟩) := by
  rw [lead] at h
  by_cases h1 : 0xC2 ≤ b ∧ b ≤ 0xDF
  · rw [if_pos h1] at h
    exact .inl ⟨h1.1, h1.2, (Option.some.inj h).symm⟩
  rw [if_neg h1] at h
  by_cases h2 : 0xE0 ≤ b ∧ b ≤ 0xEF
  · rw [if_pos h2] at h
    exact .inr (.inl ⟨h2.1, h2.2, (Option.some.inj h).symm⟩)
  rw [if_neg h2] at h
  by_cases h3 : 0xF0 ≤ b ∧ b ≤ 0xF4
  · rw [if_pos h3] at h
    exact .inr (.inr ⟨h3.1, h3.2, (Option.some.inj h).symm⟩)
  rw [if_neg h3] at h
  cases h

theorem lead_bounds {b : Nat} (h : lead b = some l) :
    0x80 ≤ l.lower ∧ l.lower ≤ l.upper ∧ l.upper ≤ 0xBF ∧ 0 < l.need := by
  rcases lead_cases h with ⟨-, -, rfl⟩ | ⟨-, -, rfl⟩ | ⟨-, -, rfl⟩
  · exact ⟨le_rfl, Nat.le_add_right 0x80 0x3F, le_rfl, Nat.one_pos⟩
  · dsimp only
    split_ifs <;> omega
  · dsimp only
    split_ifs <;> omega

theorem Lead.fits_zero : l.Fits 0 x ↔ l.lower ≤ x.toNat ∧ x.toNat ≤ l.upper := by
  rw [Lead.Fits, if_pos rfl]

theorem Lead.fits_succ {i : Nat} : l.Fits (i + 1) x ↔ 0x80 ≤ x.toNat ∧ x.toNat ≤ 0xBF := by
  rw [Lead.Fits, if_neg (Nat.succ_ne_zero i)]

theorem Lead.follows_nil (l : Lead) : l.Follows [] := ⟨Nat.zero_le _, by simp⟩

theorem Lead.follows_concat :
    l.Follows (t ++ [x]) ↔ l.Follows t ∧ t.length < l.need ∧ l.Fits t.length x := by
  constructor
  · rintro ⟨hlen, hfit⟩
    rw [length_append, length_singleton] at hlen
    refine ⟨⟨by omega, fun i y hy => hfit i y ?_⟩, by omega, hfit t.length x (by simp)⟩
    rw [List.getElem?_append_left (List.getElem?_eq_some_iff.1 hy).1]
    exact hy
  · rintro ⟨⟨hlen, hfit⟩, hlt, hx⟩
    refine ⟨by rw [length_append, length_singleton]; omega, fun i y hy => ?_⟩
    rcases Nat.lt_trichotomy i t.length with hi | hi | hi
    · rw [List.getElem?_append_left hi] at hy
      exact hfit i y hy
    · subst hi
      simp only [List.getElem?_concat_length, Option.some.injEq] at hy
      rw [← hy]
      exact hx
    · rw [List.getElem?_eq_none (by rw [length_append, length_singleton]; omega)] at hy
      cases hy

theorem Lead.Follows.of_prefix {u : List UInt8} (h : l.Follows u) (ht : t <+: u) : l.Follows t := by
  obtain ⟨r, rfl⟩ := ht
  refine ⟨?_, fun i x hx => h.2 i x ?_⟩
  · have := h.1
    rw [length_append] at this
    omega
  · rw [List.getElem?_append_left (List.getElem?_eq_some_iff.1 hx).1]
    exact hx

/-! ### The table and the encoding -/

theorem ofNat_eq (h : n = x.toNat) : UInt8.ofNat n = x := by
  rw [h, UInt8.ofNat_toNat]

theorem toNat_ofNat_of_lt (h : n < 256) : (UInt8.ofNat n).toNat = n := UInt8.toNat_ofNat_of_lt h

theorem val_ofNat (h : v.isValidChar) : (Char.ofNat v).val.toNat = v := by
  rw [Char.ofNat, dif_pos h]
  rfl

theorem valid_val (c : Char) : c.val.toNat.isValidChar := c.valid

/-- The bytes of a character by its number. -/
def bytesOf (v : Nat) : List UInt8 :=
  if v ≤ 0x7f then [UInt8.ofNat v]
  else if v ≤ 0x7ff then [UInt8.ofNat (v / 64 % 0x20 + 0xc0), UInt8.ofNat (v % 0x40 + 0x80)]
  else if v ≤ 0xffff then
    [UInt8.ofNat (v / 4096 % 0x10 + 0xe0), UInt8.ofNat (v / 64 % 0x40 + 0x80), UInt8.ofNat (v % 0x40 + 0x80)]
  else
    [UInt8.ofNat (v / 262144 % 0x08 + 0xf0), UInt8.ofNat (v / 4096 % 0x40 + 0x80),
      UInt8.ofNat (v / 64 % 0x40 + 0x80), UInt8.ofNat (v % 0x40 + 0x80)]

theorem encode_eq (c : Char) : encode c = bytesOf c.val.toNat := rfl

theorem encode_ofNat (h : v.isValidChar) : encode (Char.ofNat v) = bytesOf v := by
  rw [encode_eq, val_ofNat h]

theorem encode_ascii {b : UInt8} (h : b.toNat < 0x80) : encode (Char.ofNat b.toNat) = [b] := by
  rw [encode_ofNat (.inl (by omega)), bytesOf, if_pos (by omega), UInt8.ofNat_toNat]

theorem encoded_of_seq {b : UInt8} (hb : lead b.toNat = some l) (ht : l.Follows t)
    (hlen : t.length = l.need) : ∃ c, encode c = b :: t ∧ c.val.toNat = value l.bits t := by
  obtain ⟨-, hfit⟩ := ht
  rcases lead_cases hb with ⟨h1, h2, rfl⟩ | ⟨h1, h2, rfl⟩ | ⟨h1, h2, rfl⟩
  · obtain ⟨x, rfl⟩ := length_eq_one_iff.1 hlen
    have hx : 0x80 ≤ x.toNat ∧ x.toNat ≤ 0xBF := hfit 0 x rfl
    have hval : value (b.toNat % 32) [x] = b.toNat % 32 * 64 + x.toNat % 64 := rfl
    generalize value (b.toNat % 32) [x] = v at hval
    have hv : v.isValidChar := .inl (by omega)
    refine ⟨Char.ofNat v, ?_, val_ofNat hv⟩
    rw [encode_ofNat hv, bytesOf, if_neg (by omega), if_pos (by omega), ofNat_eq (x := b) (by omega),
      ofNat_eq (x := x) (by omega)]
  · obtain ⟨x, y, rfl⟩ := length_eq_two.1 hlen
    have hx : (if b.toNat = 0xE0 then 0xA0 else 0x80) ≤ x.toNat ∧
        x.toNat ≤ (if b.toNat = 0xED then 0x9F else 0xBF) := hfit 0 x rfl
    have hy : 0x80 ≤ y.toNat ∧ y.toNat ≤ 0xBF := hfit 1 y rfl
    have hval : value (b.toNat % 16) [x, y] = (b.toNat % 16 * 64 + x.toNat % 64) * 64 + y.toNat % 64 := rfl
    generalize value (b.toNat % 16) [x, y] = v at hval
    have hx' : 0x80 ≤ x.toNat ∧ x.toNat ≤ 0xBF ∧ 0x7ff < v ∧ (v < 0xD800 ∨ 0xDFFF < v) := by
      split_ifs at hx <;> omega
    have hv : v.isValidChar := by
      omega
    refine ⟨Char.ofNat v, ?_, val_ofNat hv⟩
    rw [encode_ofNat hv, bytesOf, if_neg (by omega), if_neg (by omega), if_pos (by omega),
      ofNat_eq (x := b) (by omega), ofNat_eq (x := x) (by omega), ofNat_eq (x := y) (by omega)]
  · obtain ⟨x, y, z, rfl⟩ := length_eq_three.1 hlen
    have hx : (if b.toNat = 0xF0 then 0x90 else 0x80) ≤ x.toNat ∧
        x.toNat ≤ (if b.toNat = 0xF4 then 0x8F else 0xBF) := hfit 0 x rfl
    have hy : 0x80 ≤ y.toNat ∧ y.toNat ≤ 0xBF := hfit 1 y rfl
    have hz : 0x80 ≤ z.toNat ∧ z.toNat ≤ 0xBF := hfit 2 z rfl
    have hval : value (b.toNat % 8) [x, y, z] =
        ((b.toNat % 8 * 64 + x.toNat % 64) * 64 + y.toNat % 64) * 64 + z.toNat % 64 := rfl
    generalize value (b.toNat % 8) [x, y, z] = v at hval
    have hx' : 0x80 ≤ x.toNat ∧ x.toNat ≤ 0xBF ∧ 0xffff < v ∧ v < 0x110000 := by
      split_ifs at hx <;> omega
    have hv : v.isValidChar := .inr (by omega)
    refine ⟨Char.ofNat v, ?_, val_ofNat hv⟩
    rw [encode_ofNat hv, bytesOf, if_neg (by omega), if_neg (by omega), if_neg (by omega),
      ofNat_eq (x := b) (by omega), ofNat_eq (x := x) (by omega), ofNat_eq (x := y) (by omega),
      ofNat_eq (x := z) (by omega)]

/-- The encoding of a character is one byte below 0x80 or a sequence of the table. -/
theorem seq_of_encoded (c : Char) : (∃ b : UInt8, encode c = [b] ∧ b.toNat < 0x80 ∧ b.toNat = c.val.toNat) ∨
    ∃ (b : UInt8) (t : List UInt8) (l : Lead), encode c = b :: t ∧ lead b.toNat = some l ∧
      l.Follows t ∧ t.length = l.need ∧ value l.bits t = c.val.toNat := by
  have hc := valid_val c
  rw [encode_eq, bytesOf]
  generalize c.val.toNat = v at hc ⊢
  -- a byte behind the first one
  have htail : ∀ w i (l : Lead), l.Fits (i + 1) (UInt8.ofNat (w % 0x40 + 0x80)) := by
    intro w i l
    rw [Lead.fits_succ, toNat_ofNat_of_lt (by omega)]
    omega
  have hlow : ∀ w, (UInt8.ofNat (w % 0x40 + 0x80)).toNat % 64 = w % 64 := by
    intro w
    rw [toNat_ofNat_of_lt (by omega)]
    omega
  split_ifs with h1 h2 h3
  · have hv : (UInt8.ofNat v).toNat = v := toNat_ofNat_of_lt (by omega)
    exact .inl ⟨_, rfl, by omega, hv⟩
  · refine .inr ⟨_, [] ++ [_], ⟨1, 0x80, 0xBF, v / 64⟩, rfl, ?_, ?_, rfl, ?_⟩
    · rw [toNat_ofNat_of_lt (by omega), lead, if_pos (by omega)]
      congr 2
      omega
    · rw [Lead.follows_concat, length_nil, Lead.fits_zero, toNat_ofNat_of_lt (by omega)]
      refine ⟨Lead.follows_nil _, Nat.one_pos, ?_⟩
      dsimp only
      omega
    · rw [value_concat, hlow]
      exact Nat.div_add_mod' v 64
  · refine .inr ⟨_, ([] ++ [_]) ++ [_],
      ⟨2, if v / 4096 = 0 then 0xA0 else 0x80, if v / 4096 = 13 then 0x9F else 0xBF, v / 4096⟩, rfl, ?_, ?_, rfl, ?_⟩
    · rw [toNat_ofNat_of_lt (by omega), lead, if_neg (by omega), if_pos (by omega)]
      congr 2
      · exact if_congr (by omega) rfl rfl
      · exact if_congr (by omega) rfl rfl
      · omega
    · rw [Lead.follows_concat, Lead.follows_concat, length_nil, Lead.fits_zero, toNat_ofNat_of_lt (by omega)]
      refine ⟨⟨Lead.follows_nil _, Nat.two_pos, ?_⟩, Nat.one_lt_two, htail _ 0 _⟩
      dsimp only
      split_ifs <;> omega
    · rw [value_concat, value_concat, hlow, hlow]
      show (v / 4096 * 64 + v / 64 % 64) * 64 + v % 64 = v
      omega
  · refine .inr ⟨_, (([] ++ [_]) ++ [_]) ++ [_],
      ⟨3, if v / 262144 = 0 then 0x90 else 0x80, if v / 262144 = 4 then 0x8F else 0xBF, v / 262144⟩, rfl, ?_, ?_, rfl, ?_⟩
    · rw [toNat_ofNat_of_lt (by omega), lead, if_neg (by omega), if_neg (by omega), if_pos (by omega)]
      congr 2
      · exact if_congr (by omega) rfl rfl
      · exact if_congr (by omega) rfl rfl
      · omega
    · rw [Lead.follows_concat, Lead.follows_concat, Lead.follows_concat, length_nil, Lead.fits_zero,
        toNat_ofNat_of_lt (by omega)]
      refine ⟨⟨⟨Lead.follows_nil _, Nat.succ_pos 2, ?_⟩, Nat.succ_lt_succ Nat.two_pos, htail _ 0 _⟩,
        Nat.lt_succ_self 2, htail _ 1 _⟩
      dsimp only
      split_ifs <;> omega
    · rw [value_concat, value_concat, value_concat, hlow, hlow, hlow]
      show ((v / 262144 * 64 + v / 4096 % 64) * 64 + v / 64 % 64) * 64 + v % 64 = v
      omega

theorem begins_of_follows {b : UInt8} (hb : lead b.toNat = some l) (ht : l.Follows t) :
    Begins (b :: t) := by
  obtain ⟨h1, h2, h3, -⟩ := lead_bounds hb
  induction hk : l.need - t.length generalizing t with
  | zero =>
    obtain ⟨c, hc, -⟩ := encoded_of_seq hb ht (by have := ht.1; omega)
    exact ⟨c, by rw [hc]⟩
  | succ k ih =>
    let x : UInt8 := if t.length = 0 then UInt8.ofNat l.lower else 0x80
    have hx : l.Fits t.length x := by
      by_cases h0 : t.length = 0
      · simp only [x, Lead.Fits, if_pos h0]
        rw [toNat_ofNat_of_lt (by omega)]
        omega
      · simp only [x, Lead.Fits, if_neg h0]
        decide
    obtain ⟨c, hc⟩ := ih (t := t ++ [x]) (Lead.follows_concat.2 ⟨ht, by omega, hx⟩)
      (by rw [length_append, length_singleton]; omega)
    exact ⟨c, (prefix_append (b :: t) [x]).trans hc⟩

theorem follows_of_begins {b : UInt8} (h : Begins (b :: t)) :
    (t = [] ∧ b.toNat < 0x80) ∨ ∃ l, lead b.toNat = some l ∧ l.Follows t := by
  obtain ⟨c, hc⟩ := h
  rcases seq_of_encoded c with ⟨b', hb', hlt, -⟩ | ⟨b', t', l, hb', hl, ht', -⟩
  · rw [hb', cons_prefix_cons] at hc
    obtain ⟨rfl, ht⟩ := hc
    exact .inl ⟨prefix_nil.1 ht, hlt⟩
  · rw [hb', cons_prefix_cons] at hc
    obtain ⟨rfl, ht⟩ := hc
    exact .inr ⟨l, hl, ht'.of_prefix ht⟩

/-- A maximal subpart is one byte that begins nothing, or a sequence of the table that is cut short by
the end or by a byte that does not fit. -/
theorem MaximalSubpart.cases {p rest : List UInt8} (h : MaximalSubpart p rest) :
    (∃ b : UInt8, p = [b] ∧ 0x80 ≤ b.toNat ∧ lead b.toNat = none) ∨
    ∃ (b : UInt8) (t : List UInt8) (l : Lead), p = b :: t ∧ lead b.toNat = some l ∧ l.Follows t ∧
      t.length < l.need ∧ ∀ x r, rest = x :: r → ¬l.Fits t.length x := by
  obtain ⟨hne, henc, hbeg, hmax⟩ := h
  cases p with
  | nil => exact absurd rfl hne
  | cons b t =>
    have hlow : ¬b.toNat < 0x80 := fun hlt =>
      henc _ (by rw [encode_ascii hlt]; exact ⟨t ++ rest, rfl⟩)
    cases hl : lead b.toNat with
    | none =>
      refine .inl ⟨b, ?_, by omega, hl⟩
      rcases hbeg with h1 | h1
      · rw [length_cons, Nat.succ_inj, length_eq_zero_iff] at h1
        rw [h1]
      · rcases follows_of_begins h1 with ⟨rfl, -⟩ | ⟨l, hl', -⟩
        · rfl
        · rw [hl] at hl'
          cases hl'
    | some l =>
      have ht : l.Follows t := by
        rcases hbeg with h1 | h1
        · rw [length_cons, Nat.succ_inj, length_eq_zero_iff] at h1
          rw [h1]
          exact l.follows_nil
        · rcases follows_of_begins h1 with ⟨-, hlt⟩ | ⟨l', hl', ht⟩
          · exact absurd hlt hlow
          · rw [hl] at hl'
            cases hl'
            exact ht
      have hlt : t.length < l.need := by
        refine lt_of_le_of_ne ht.1 fun heq => ?_
        obtain ⟨c, hc, -⟩ := encoded_of_seq hl ht heq
        exact henc c (by rw [hc]; exact prefix_append _ _)
      refine .inr ⟨b, t, l, rfl, hl, ht, hlt, fun x r hr hx => ?_⟩
      have hlonger := hmax (b :: (t ++ [x])) ⟨r, by rw [hr]; simp⟩
        (begins_of_follows hl (Lead.follows_concat.2 ⟨ht, hlt, hx⟩))
      simp only [length_cons, length_append, length_nil] at hlonger
      omega

end Win98Modern.Utf8
