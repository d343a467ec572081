import Win98Modern.Trident.Charset
import Win98Modern.Lib.Transducer
import Win98Modern.Lib.Utf8
import Win98Modern.Lib.Utf16

/-!
# Decoding does not depend on the calls

The loops of `charset.c` are transducers (`utf8Loop_eq`, `utf16Loop_eq`), so cutting the input changes
nothing (`decodeCalls_eq`).  `utf8_sound`: the output is that of the decoder of `Lib.Utf8`; `utf16_sound`:
the output is the repaired text of `Lib.Utf16`.
-/

namespace Win98Modern.Trident

open List Transducer

open Utf8 Utf16

/-! ### The loops as transducers -/

/-- A byte, with the replacement for the sequence that it ends. -/
def utf8Byte (d : Decoder) (b : UInt8) : Decoder × List UInt16 :=
  if d.need = 0 then
    if b < 0x80 then (d, [shzChar b.toNat]) else utf8Lead d b.toNat
  else if b.toNat < d.lower ∨ d.upper < b.toNat then
    if b < 0x80 then (d.reset, [0xFFFD, shzChar b.toNat])
    else ((utf8Lead d.reset b.toNat).1, 0xFFFD :: (utf8Lead d.reset b.toNat).2)
  else utf8Continue d b.toNat

def utf8Machine : Transducer Decoder UInt8 UInt16 := ⟨utf8Byte⟩
def utf16Machine : Transducer Decoder UInt8 UInt16 := ⟨utf16Byte⟩

variable {d : Decoder} {t rest bytes : List UInt8} {cs : List Char}

theorem utf8Byte_idle (h : d.need = 0) (b : UInt8) :
    utf8Byte d b = if b < 0x80 then (d, [shzChar b.toNat]) else utf8Lead d b.toNat := by
  rw [utf8Byte, if_pos h]

theorem utf8Byte_broken (h : d.need ≠ 0) {b : UInt8} (hb : b.toNat < d.lower ∨ d.upper < b.toNat) :
    utf8Byte d b = ((utf8Byte d.reset b).1, 0xFFFD :: (utf8Byte d.reset b).2) := by
  rw [utf8Byte, if_neg h, if_pos hb, utf8Byte_idle rfl]
  split_ifs <;> rfl

theorem run_ascii (h : d.need = 0) {l : List UInt8} (hl : ∀ b ∈ l, b < 0x80) :
    utf8Machine.run d l = (d, l.map fun c => shzChar c.toNat) := by
  induction l with
  | nil => rfl
  | cons b l ih =>
    have hstep : utf8Machine.step d b = (d, [shzChar b.toNat]) := by
      show utf8Byte d b = _
      rw [utf8Byte_idle h, if_pos (hl b mem_cons_self)]
    rw [run_cons, hstep, ih fun c hc => hl c (mem_cons_of_mem _ hc)]
    rfl

theorem utf8Turn_run (d : Decoder) (b : UInt8) (rest : List UInt8) :
    utf8Machine.run d (b :: rest) =
      ((utf8Machine.run (utf8Turn d b rest).1 (utf8Turn d b rest).2.1).1,
        (utf8Turn d b rest).2.2 ++ (utf8Machine.run (utf8Turn d b rest).1 (utf8Turn d b rest).2.1).2) := by
  by_cases h0 : d.need = 0
  · rw [utf8Turn, if_pos h0]
    by_cases hb : b < 0x80
    · rw [if_pos hb]
      have hrun := run_ascii h0 (l := (b :: rest).takeWhile (· < 0x80)) fun c hc => by
        simpa using mem_takeWhile_imp hc
      have happ : (b :: rest).takeWhile (· < 0x80) ++ (b :: rest).dropWhile (· < 0x80) = b :: rest :=
        takeWhile_append_dropWhile
      conv_lhs => rw [← happ, run_append, hrun]
    · rw [if_neg hb]
      have hstep : utf8Machine.step d b = utf8Lead d b.toNat := by
        show utf8Byte d b = _
        rw [utf8Byte_idle h0, if_neg hb]
      rw [run_cons, hstep]
  · rw [utf8Turn, if_neg h0]
    by_cases hbad : b.toNat < d.lower ∨ d.upper < b.toNat
    · rw [if_pos hbad]
      have hstep : utf8Machine.step d b = ((utf8Byte d.reset b).1, 0xFFFD :: (utf8Byte d.reset b).2) :=
        utf8Byte_broken h0 hbad
      rw [run_cons, hstep]
      rfl
    · rw [if_neg hbad]
      have hstep : utf8Machine.step d b = utf8Continue d b.toNat := by
        show utf8Byte d b = _
        rw [utf8Byte, if_neg h0, if_neg hbad]
      rw [run_cons, hstep]

theorem utf8Loop_eq (d : Decoder) (input : List UInt8) : utf8Loop d input = utf8Machine.run d input := by
  induction d, input using utf8Loop.induct with
  | case1 d => rw [utf8Loop]; rfl
  | case2 d b rest r ih => rw [utf8Loop, ih, utf8Turn_run]

theorem utf16Loop_eq (d : Decoder) (input : List UInt8) : utf16Loop d input = utf16Machine.run d input := by
  induction input generalizing d with
  | nil => rfl
  | cons b rest ih => rw [utf16Loop, run_cons, ih]; rfl

/-! ### Cutting the input -/

theorem utf8Byte_cs (d : Decoder) (b : UInt8) : (utf8Byte d b).1.cs = d.cs := by
  rw [utf8Byte, utf8Lead, utf8Lead, utf8Continue]
  split_ifs <;> rfl

theorem utf16Fresh_cs (d : Decoder) (u : Nat) : (utf16Fresh d u).1.cs = d.cs := by
  rw [utf16Fresh]
  split_ifs <;> rfl

theorem utf16Unit_cs (d : Decoder) (u : Nat) : (utf16Unit d u).1.cs = d.cs := by
  rw [utf16Unit]
  split
  · split_ifs
    · rfl
    · exact utf16Fresh_cs _ u
  · exact utf16Fresh_cs d u

theorem utf16Byte_cs (d : Decoder) (b : UInt8) : (utf16Byte d b).1.cs = d.cs := by
  rw [utf16Byte]
  split
  · rfl
  · exact utf16Unit_cs d _

theorem run_cs {T : Transducer Decoder UInt8 UInt16} (h : ∀ d b, (T.step d b).1.cs = d.cs) (d : Decoder)
    (input : List UInt8) : (T.run d input).1.cs = d.cs := by
  induction input generalizing d with
  | nil => rfl
  | cons b rest ih => rw [run_cons, ih, h]

/-- A call is a run, and the flush looks at the decoder afterwards. -/
theorem shzDecode_append (d : Decoder) (l m : List UInt8) (flush : Bool) :
    shzDecode d (l ++ m) flush =
      ((shzDecode (shzDecode d l false).1 m flush).1,
        (shzDecode d l false).2 ++ (shzDecode (shzDecode d l false).1 m flush).2) := by
  have hutf16 : ∀ d : Decoder, (utf16Machine.run d l).1.cs = d.cs := fun d => run_cs utf16Byte_cs d l
  have hutf8 : (utf8Machine.run d l).1.cs = d.cs := run_cs utf8Byte_cs d l
  cases hcs : d.cs with
  | utf8 =>
    simp only [shzDecode, hcs, utf8Decode, utf8Loop_eq, run_append, Bool.false_eq_true, false_and,
      if_false, hutf8]
    split_ifs <;> simp
  | windows1252 => simp [shzDecode, hcs]
  | iso8859_15 => simp [shzDecode, hcs]
  | utf16le =>
    have h := (hutf16 d).trans hcs
    simp only [shzDecode, hcs, utf16Loop_eq, run_append, Bool.false_eq_true, if_false, h]
    split_ifs <;> simp
  | utf16be =>
    have h := (hutf16 d).trans hcs
    simp only [shzDecode, hcs, utf16Loop_eq, run_append, Bool.false_eq_true, if_false, h]
    split_ifs <;> simp

theorem decodeCalls_eq (d : Decoder) (pieces : List (List UInt8)) (last : List UInt8) :
    decodeCalls d pieces last = (shzDecode d (pieces.flatten ++ last) true).2 := by
  induction pieces generalizing d with
  | nil => rfl
  | cons p ps ih =>
    rw [decodeCalls, ih, flatten_cons, append_assoc]
    exact (congrArg Prod.snd (shzDecode_append d p _ true)).symm

/-! ### UTF-8 -/

/-- No sequence has begun. -/
structure Idle (d : Decoder) : Prop where
  need : d.need = 0
  seen : d.seen = 0
  lower : d.lower = 0x80
  upper : d.upper = 0xBF

/-- The bytes `t` have followed a first byte. -/
structure Midway (d : Decoder) (l : Lead) (t : List UInt8) : Prop where
  need : d.need = l.need
  seen : d.seen = t.length
  cp : d.cp = value l.bits t
  lower : d.lower = if t.length = 0 then l.lower else 0x80
  upper : d.upper = if t.length = 0 then l.upper else 0xBF

theorem idle_init (cs : Option Charset) : Idle (decoderInit cs) := ⟨rfl, rfl, rfl, rfl⟩
theorem idle_reset (d : Decoder) : Idle d.reset := ⟨rfl, rfl, rfl, rfl⟩

theorem and_two_pow (b k : Nat) : b &&& 2 ^ k - 1 = b % 2 ^ k := Nat.and_two_pow_sub_one_eq_mod b k

theorem midway_lead (hd : Idle d) {b : UInt8} {l : Lead} (hb : lead b.toNat = some l) :
    (utf8Byte d b).2 = [] ∧ Midway (utf8Byte d b).1 l [] := by
  have h5 : b.toNat &&& 0x1F = b.toNat % 32 := and_two_pow b.toNat 5
  have h4 : b.toNat &&& 0x0F = b.toNat % 16 := and_two_pow b.toNat 4
  have h3 : b.toNat &&& 0x07 = b.toNat % 8 := and_two_pow b.toNat 3
  have hhigh : ¬b < 0x80 := by
    rw [UInt8.lt_iff_toNat_lt, show (0x80 : UInt8).toNat = 0x80 from rfl]
    rcases lead_cases hb with ⟨h, -⟩ | ⟨h, -⟩ | ⟨h, -⟩ <;> omega
  rw [utf8Byte_idle hd.need, if_neg hhigh, utf8Lead, hd.lower, hd.upper, h5, h4, h3]
  rcases lead_cases hb with ⟨h1, h2, rfl⟩ | ⟨h1, h2, rfl⟩ | ⟨h1, h2, rfl⟩
  · rw [if_pos ⟨h1, h2⟩]
    exact ⟨rfl, rfl, hd.seen, rfl, rfl, rfl⟩
  · rw [if_neg (by omega), if_pos ⟨h1, h2⟩]
    exact ⟨rfl, rfl, hd.seen, rfl, rfl, rfl⟩
  · rw [if_neg (by omega), if_neg (by omega), if_pos ⟨h1, h2⟩]
    exact ⟨rfl, rfl, hd.seen, rfl, rfl, rfl⟩

theorem utf8Byte_stray (hd : Idle d) {b : UInt8} (hhigh : 0x80 ≤ b.toNat) (hb : lead b.toNat = none) :
    utf8Byte d b = (d, [0xFFFD]) := by
  have hlt : ¬b < 0x80 := by
    rw [UInt8.lt_iff_toNat_lt, show (0x80 : UInt8).toNat = 0x80 from rfl]
    omega
  rw [lead] at hb
  rw [utf8Byte_idle hd.need, if_neg hlt, utf8Lead]
  by_cases h1 : 0xC2 ≤ b.toNat ∧ b.toNat ≤ 0xDF
  · rw [if_pos h1] at hb
    cases hb
  rw [if_neg h1] at hb ⊢
  by_cases h2 : 0xE0 ≤ b.toNat ∧ b.toNat ≤ 0xEF
  · rw [if_pos h2] at hb
    cases hb
  rw [if_neg h2] at hb ⊢
  by_cases h3 : 0xF0 ≤ b.toNat ∧ b.toNat ≤ 0xF4
  · rw [if_pos h3] at hb
    cases hb
  rw [if_neg h3]

theorem Midway.bounds {l : Lead} (h : Midway d l t) (x : UInt8) :
    l.Fits t.length x ↔ ¬(x.toNat < d.lower ∨ d.upper < x.toNat) := by
  rw [h.lower, h.upper, Lead.Fits]
  split_ifs <;> omega

theorem Midway.need_ne {l : Lead} (h : Midway d l t) (ht : t.length < l.need) : d.need ≠ 0 := by
  rw [h.need]
  omega

/-- The code point with one more byte; the value of what has come so far has at most 15 bits. -/
theorem Midway.cp_next {l : Lead} (h : Midway d l t) (hv : value l.bits t < 2 ^ 26) (x : UInt8) :
    (d.cp <<< 6) % 2 ^ 32 ||| x.toNat &&& 0x3F = value l.bits (t ++ [x]) := by
  have h6 : x.toNat &&& 0x3F = x.toNat % 64 := and_two_pow x.toNat 6
  have hlt : x.toNat % 64 < 2 ^ 6 := Nat.mod_lt _ (by decide)
  have hsh : d.cp <<< 6 < 2 ^ 32 := by
    rw [h.cp, Nat.shiftLeft_eq]
    omega
  rw [h6, Nat.mod_eq_of_lt hsh, ← Nat.shiftLeft_add_eq_or_of_lt hlt, h.cp, value_concat, Nat.shiftLeft_eq]

theorem value_lt {l : Lead} {b : Nat} (hb : lead b = some l) (ht : t.length < l.need) :
    value l.bits t < 2 ^ 26 := by
  have hstep : ∀ (t : List UInt8) acc, value acc t < (acc + 1) * 64 ^ t.length := by
    intro t
    induction t with
    | nil => intro acc; simp [value]
    | cons x t ih =>
      intro acc
      have h := ih (acc * 64 + x.toNat % 64)
      have hx : acc * 64 + x.toNat % 64 + 1 ≤ (acc + 1) * 64 := by omega
      calc value acc (x :: t) = value (acc * 64 + x.toNat % 64) t := rfl
        _ < (acc * 64 + x.toNat % 64 + 1) * 64 ^ t.length := h
        _ ≤ (acc + 1) * 64 * 64 ^ t.length := Nat.mul_le_mul_right _ hx
        _ = (acc + 1) * (64 ^ t.length * 64) := by rw [Nat.mul_assoc, Nat.mul_comm 64]
  have hbits : l.bits < 32 ∧ l.need ≤ 3 := by
    rcases lead_cases hb with ⟨-, -, rfl⟩ | ⟨-, -, rfl⟩ | ⟨-, -, rfl⟩ <;> dsimp only <;> omega
  have hpow : 64 ^ t.length ≤ 64 ^ 2 := Nat.pow_le_pow_right (by decide) (by omega)
  calc value l.bits t < (l.bits + 1) * 64 ^ t.length := hstep t l.bits
    _ ≤ 32 * 64 ^ 2 := Nat.mul_le_mul (by omega) hpow
    _ ≤ 2 ^ 26 := by decide

theorem Midway.step {d : Decoder} {l : Lead} {t : List UInt8} {b : Nat} (h : Midway d l t) (hb : lead b = some l)
    {x : UInt8} (ht : t.length < l.need) (hx : l.Fits t.length x) :
    if t.length + 1 = l.need then
      (utf8Byte d x).2 = putCp (value l.bits (t ++ [x])) ∧ Idle (utf8Byte d x).1
    else (utf8Byte d x).2 = [] ∧ Midway (utf8Byte d x).1 l (t ++ [x]) := by
  have hcp := h.cp_next (value_lt hb ht) x
  have hlen : (t ++ [x]).length = t.length + 1 := by rw [length_append, length_singleton]
  rw [utf8Byte, if_neg (h.need_ne ht), if_neg ((h.bounds x).1 hx), utf8Continue]
  rw [hcp, h.seen, h.need]
  by_cases hlast : t.length + 1 = l.need
  · rw [if_pos hlast, if_pos hlast]
    exact ⟨rfl, rfl, rfl, rfl, rfl⟩
  · rw [if_neg hlast, if_neg hlast]
    exact ⟨rfl, rfl, hlen.symm, rfl, by rw [hlen]; rfl, by rw [hlen]; rfl⟩

theorem run_follows (hd : Idle d) {b : UInt8} {l : Lead} (hb : lead b.toNat = some l)
    (t : List UInt8) (ht : l.Follows t) (hlt : t.length < l.need) :
    (utf8Machine.run d (b :: t)).2 = [] ∧ Midway (utf8Machine.run d (b :: t)).1 l t := by
  induction t using List.reverseRecOn with
  | nil =>
    obtain ⟨h1, h2⟩ := midway_lead hd hb
    exact ⟨by rw [run_cons]; exact (append_nil _).trans h1, h2⟩
  | append_singleton t x ih =>
    obtain ⟨ht', hlt', hx⟩ := Lead.follows_concat.1 ht
    obtain ⟨h1, h2⟩ := ih ht' hlt'
    have hstep := h2.step hb hlt' hx
    rw [length_append, length_singleton] at hlt
    rw [if_neg (by omega)] at hstep
    rw [← cons_append, run_append, h1]
    exact ⟨(append_nil _).trans hstep.1, hstep.2⟩

theorem putCp_eq (c : Char) : putCp c.val.toNat = Utf16.encode c := by
  have hand : (c.val.toNat - 0x10000) &&& 0x3FF = (c.val.toNat - 0x10000) % 1024 := and_two_pow _ 10
  rw [putCp, Utf16.encode, hand, Nat.shiftRight_eq_div_pow]
  by_cases h : c.val.toNat < 0x10000
  · rw [if_neg (by omega)]
    simp only [h, if_true]
    rfl
  · rw [if_pos (by omega)]
    simp only [h, if_false]
    rfl

theorem run_encoded (hd : Idle d) (c : Char) :
    (utf8Machine.run d (Utf8.encode c)).2 = Utf16.encode c ∧ Idle (utf8Machine.run d (Utf8.encode c)).1 := by
  rcases seq_of_encoded c with ⟨b, hb, hlt, hval⟩ | ⟨b, t, l, hbt, hl, ht, hlen, hval⟩
  · have hb80 : b < 0x80 := UInt8.lt_iff_toNat_lt.2 hlt
    have hrun := run_ascii hd.need (l := [b]) fun x hx => by rwa [mem_singleton.1 hx]
    rw [hb, hrun]
    refine ⟨?_, hd⟩
    rw [← putCp_eq, ← hval, putCp, if_neg (by omega)]
    rfl
  · obtain ⟨-, -, -, hpos⟩ := lead_bounds hl
    obtain ⟨u, x, rfl⟩ : ∃ u x, t = u ++ [x] :=
      ⟨t.dropLast, t.getLast (by rintro rfl; simp at hlen; omega), (dropLast_append_getLast _).symm⟩
    obtain ⟨hu, hlt, hx⟩ := Lead.follows_concat.1 ht
    rw [length_append, length_singleton] at hlen
    obtain ⟨h1, h2⟩ := run_follows hd hl u hu hlt
    have hstep := h2.step hl hlt hx
    rw [if_pos hlen] at hstep
    rw [hbt, ← cons_append, run_append, h1, ← putCp_eq, ← hval]
    exact ⟨(append_nil _).trans hstep.1, hstep.2⟩

def utf8Flush (d : Decoder) : List UInt16 := if d.need ≠ 0 then [0xFFFD] else []

theorem utf8Decode_eq (d : Decoder) (input : List UInt8) :
    (utf8Decode d input true).2 = (utf8Machine.run d input).2 ++ utf8Flush (utf8Machine.run d input).1 := by
  rw [utf8Decode, utf8Loop_eq, utf8Flush]
  by_cases h : (utf8Machine.run d input).1.need = 0
  · rw [if_neg (by simp [h]), if_neg (by simp [h]), append_nil]
  · rw [if_pos ⟨rfl, h⟩, if_pos h]

theorem run_cut {l : Lead} (h : Midway d l t) (ht : t.length < l.need)
    (hcut : ∀ x r, rest = x :: r → ¬l.Fits t.length x) :
    (utf8Machine.run d rest).2 ++ utf8Flush (utf8Machine.run d rest).1 =
      0xFFFD :: ((utf8Machine.run d.reset rest).2 ++ utf8Flush (utf8Machine.run d.reset rest).1) := by
  cases rest with
  | nil =>
    have hreset : utf8Flush d.reset = [] := rfl
    rw [run_nil, run_nil, utf8Flush, if_pos (h.need_ne ht), hreset]
    rfl
  | cons x r =>
    have hbad := not_not.1 fun hn => hcut x r rfl ((h.bounds x).2 hn)
    have hstep : utf8Machine.step d x = ((utf8Byte d.reset x).1, 0xFFFD :: (utf8Byte d.reset x).2) :=
      utf8Byte_broken (h.need_ne ht) hbad
    rw [run_cons, hstep]
    rfl

theorem run_bad (hd : Idle d) {p : List UInt8} (hp : MaximalSubpart p rest) :
    ∃ d', Idle d' ∧ (utf8Machine.run d (p ++ rest)).2 ++ utf8Flush (utf8Machine.run d (p ++ rest)).1 =
      0xFFFD :: ((utf8Machine.run d' rest).2 ++ utf8Flush (utf8Machine.run d' rest).1) := by
  rcases hp.cases with ⟨b, rfl, hhigh, hb⟩ | ⟨b, t, l, rfl, hb, ht, hlt, hcut⟩
  · have hstep : utf8Machine.step d b = (d, [0xFFFD]) := utf8Byte_stray hd hhigh hb
    refine ⟨d, hd, ?_⟩
    rw [singleton_append, run_cons, hstep]
    rfl
  · obtain ⟨h1, h2⟩ := run_follows hd hb t ht hlt
    refine ⟨_, idle_reset (utf8Machine.run d (b :: t)).1, ?_⟩
    rw [run_append, h1, nil_append, run_cut h2 hlt hcut]

/-- The decoder writes the characters of the text. -/
theorem decodes_run (h : Decodes bytes cs) (hd : Idle d) :
    (utf8Machine.run d bytes).2 ++ utf8Flush (utf8Machine.run d bytes).1 = cs.flatMap Utf16.encode := by
  induction h generalizing d with
  | nil =>
    rw [run_nil, utf8Flush, if_neg (not_not.2 hd.need)]
    rfl
  | char c _ ih =>
    obtain ⟨h1, h2⟩ := run_encoded hd c
    rw [run_append, h1, append_assoc, ih h2, flatMap_cons]
  | bad hp _ ih =>
    obtain ⟨d', hd', hrun⟩ := run_bad hd hp
    rw [hrun, ih hd', flatMap_cons]
    rfl

theorem utf8_sound (h : Decodes bytes cs) :
    (shzDecode (decoderInit (some .utf8)) bytes true).2 = cs.flatMap Utf16.encode := by
  have hinit : shzDecode (decoderInit (some .utf8)) bytes true = utf8Decode (decoderInit (some .utf8)) bytes true := rfl
  rw [hinit, utf8Decode_eq, decodes_run h (idle_init _)]

/-! ### UTF-16 -/

theorem isHigh_iff (u : UInt16) : isHigh u = true ↔ isHighSurrogate u.toNat := by
  simp only [isHigh, Bool.and_eq_true, decide_eq_true_eq, UInt16.le_iff_toNat_le]
  rfl

theorem isLow_iff (u : UInt16) : isLow u = true ↔ isLowSurrogate u.toNat := by
  simp only [isLow, Bool.and_eq_true, decide_eq_true_eq, UInt16.le_iff_toNat_le]
  rfl

theorem shzChar_toNat (u : UInt16) : shzChar u.toNat = u := UInt16.ofNat_toNat

/-- The high surrogate that the decoder keeps. -/
structure Keeps (d : Decoder) (l : Option UInt16) : Prop where
  lead : d.lead = l.map UInt16.toNat
  high : ∀ h ∈ l, isHigh h = true

/-- What a unit adds to the text that has been read: `out` is written, and `l'` kept in place of `l`. -/
structure Advances (l : Option UInt16) (u : UInt16) (out : List UInt16) (l' : Option UInt16) : Prop where
  repair : ∀ us, repair (l.toList ++ u :: us) = out ++ repair (l'.toList ++ us)
  endsHigh : ∀ us, endsHigh (l.toList ++ u :: us) = endsHigh (l'.toList ++ us)

theorem utf16Fresh_spec (hd : Keeps d none) (u : UInt16) :
    ∃ l', Keeps (utf16Fresh d u.toNat).1 l' ∧ Advances none u (utf16Fresh d u.toNat).2 l' := by
  rw [utf16Fresh]
  cases hh : isHigh u with
  | true =>
    rw [if_pos ((isHigh_iff u).1 hh)]
    exact ⟨some u, ⟨rfl, fun h he => by cases he; exact hh⟩, ⟨fun us => rfl, fun us => rfl⟩⟩
  | false =>
    rw [if_neg (mt (isHigh_iff u).2 (by simp [hh]))]
    cases hl : isLow u with
    | true =>
      rw [if_pos ((isLow_iff u).1 hl)]
      exact ⟨none, hd, ⟨fun us => repair_low hh hl us, fun us => endsHigh_cons hh us⟩⟩
    | false =>
      rw [if_neg (mt (isLow_iff u).2 (by simp [hl])), shzChar_toNat]
      exact ⟨none, hd, ⟨fun us => repair_plain hh hl us, fun us => endsHigh_cons hh us⟩⟩

theorem utf16Unit_spec {l : Option UInt16} (hd : Keeps d l) (u : UInt16) :
    ∃ l', Keeps (utf16Unit d u.toNat).1 l' ∧ Advances l u (utf16Unit d u.toNat).2 l' := by
  cases l with
  | none =>
    have hlead : d.lead = none := hd.lead
    rw [utf16Unit, hlead]
    exact utf16Fresh_spec hd u
  | some h =>
    have hh : isHigh h = true := hd.high h rfl
    have hlead : d.lead = some h.toNat := hd.lead
    rw [utf16Unit, hlead]
    cases hl : isLow u with
    | true =>
      have hu : isHigh u = false := by
        by_contra hu
        rw [not_low_of_high (by simpa using hu)] at hl
        cases hl
      dsimp only
      rw [if_pos ((isLow_iff u).1 hl), shzChar_toNat, shzChar_toNat]
      refine ⟨none, ⟨rfl, fun h he => by cases he⟩, ⟨fun us => repair_pair hh hl us, fun us => ?_⟩⟩
      exact (endsHigh_cons_cons h u us).trans (endsHigh_cons hu us)
    | false =>
      dsimp only
      rw [if_neg (mt (isLow_iff u).2 (by simp [hl]))]
      obtain ⟨l', hk, ha⟩ := utf16Fresh_spec (d := { d with lead := none }) ⟨rfl, fun h he => by cases he⟩ u
      refine ⟨l', hk, ⟨fun us => ?_, fun us => ?_⟩⟩
      · have hrep : Utf16.repair (h :: u :: us) = Utf16.replacement :: Utf16.repair (u :: us) :=
          repair_high hh fun v hv => by rwa [← Option.some.inj hv]
        exact hrep.trans (congrArg _ (ha.repair us))
      · exact (endsHigh_cons_cons h u us).trans (ha.endsHigh us)

/-- How two bytes make a unit. -/
def unitOf (d : Decoder) : UInt8 → UInt8 → UInt16 := if d.cs = .utf16le then little else big

theorem unitOf_toNat (d : Decoder) (a b : UInt8) :
    (if d.cs = .utf16le then a.toNat ||| b.toNat <<< 8 else a.toNat <<< 8 ||| b.toNat) = (unitOf d a b).toNat := by
  have ha : a.toNat < 2 ^ 8 := a.toNat_lt
  have hb : b.toNat < 2 ^ 8 := b.toNat_lt
  have hor : ∀ x y : Nat, y < 2 ^ 8 → x <<< 8 ||| y = x * 256 + y := by
    intro x y hy
    rw [← Nat.shiftLeft_add_eq_or_of_lt hy, Nat.shiftLeft_eq]
  rw [unitOf]
  split_ifs
  · rw [Nat.or_comm, hor _ _ ha, little, UInt16.toNat_ofNat_of_lt' (by rw [UInt16.size]; omega)]
    omega
  · rw [hor _ _ hb, big, UInt16.toNat_ofNat_of_lt' (by rw [UInt16.size]; omega)]

def utf16Flush (d : Decoder) : List UInt16 := if d.pending.isSome ∨ d.lead.isSome then [0xFFFD] else []

theorem run_two (hp : d.pending = none) (a b : UInt8) (rest : List UInt8) :
    utf16Machine.run d (a :: b :: rest) =
      let r := utf16Unit { d with pending := some a.toNat } (unitOf d a b).toNat
      let s := utf16Machine.run { r.1 with pending := none } rest
      (s.1, r.2 ++ s.2) := by
  have hfirst : utf16Machine.step d a = ({ d with pending := some a.toNat }, []) := by
    show utf16Byte d a = _
    rw [utf16Byte, hp]
  have hsecond : utf16Machine.step { d with pending := some a.toNat } b =
      ({ (utf16Unit { d with pending := some a.toNat } (unitOf d a b).toNat).1 with pending := none },
        (utf16Unit { d with pending := some a.toNat } (unitOf d a b).toNat).2) := by
    show utf16Byte { d with pending := some a.toNat } b = _
    rw [utf16Byte, ← unitOf_toNat]
  rw [run_cons, hfirst, run_cons, hsecond]
  rfl

theorem run_units (bytes : List UInt8) {l : Option UInt16} (hd : Keeps d l) (hp : d.pending = none) :
    (utf16Machine.run d bytes).2 ++ utf16Flush (utf16Machine.run d bytes).1 =
      repair (l.toList ++ units (unitOf d) bytes) ++
        if bytes.length % 2 = 1 ∧ endsHigh (l.toList ++ units (unitOf d) bytes) = false then [Utf16.replacement]
        else [] := by
  induction hn : bytes.length using Nat.strong_induction_on generalizing bytes d l with
  | _ n ih =>
    match bytes with
    | [] =>
      rw [← hn]
      cases l with
      | none =>
        have hlead : d.lead = none := hd.lead
        simp [utf16Flush, hp, hlead, units, repair]
      | some h =>
        have hlead : d.lead = some h.toNat := hd.lead
        simp [utf16Flush, hlead, units, repair, hd.high h rfl, Utf16.replacement]
    | [b] =>
      have hstep : utf16Machine.step d b = ({ d with pending := some b.toNat }, []) := by
        show utf16Byte d b = _
        rw [utf16Byte, hp]
      rw [run_cons, hstep, ← hn]
      cases l with
      | none => simp [utf16Flush, units, repair, endsHigh, Utf16.replacement]
      | some h => simp [utf16Flush, units, repair, endsHigh, Utf16.replacement, hd.high h rfl]
    | a :: b :: rest =>
      obtain ⟨l', hk, hadv⟩ :=
        utf16Unit_spec (d := { d with pending := some a.toNat }) ⟨hd.lead, hd.high⟩ (unitOf d a b)
      have hcs := utf16Unit_cs { d with pending := some a.toNat } (unitOf d a b).toNat
      rw [run_two hp]
      generalize utf16Unit { d with pending := some a.toNat } (unitOf d a b).toNat = r at hk hadv hcs
      have hunit : unitOf { r.1 with pending := none } = unitOf d := by
        rw [unitOf, unitOf, hcs]
      have hrest := ih rest.length (by rw [← hn, length_cons, length_cons]; omega) rest
        (d := { r.1 with pending := none }) (l := l') ⟨hk.lead, hk.high⟩ rfl rfl
      have hodd : (a :: b :: rest).length % 2 = rest.length % 2 := by
        rw [length_cons, length_cons]
        omega
      have hunits : units (unitOf d) (a :: b :: rest) = unitOf d a b :: units (unitOf d) rest := rfl
      rw [hunit] at hrest
      rw [← hn, hodd, hunits, hadv.repair, hadv.endsHigh]
      exact (append_assoc _ _ _).trans ((congrArg (r.2 ++ ·) hrest).trans (append_assoc _ _ _).symm)

theorem utf16_sound (hcs : d.cs = .utf16le ∨ d.cs = .utf16be) (hp : d.pending = none)
    (hl : d.lead = none) (bytes : List UInt8) :
    (shzDecode d bytes true).2 = Utf16.decode (unitOf d) bytes := by
  have hrun := run_units bytes (d := d) (l := none) ⟨hl, fun h he => by cases he⟩ hp
  have hdec : (shzDecode d bytes true).2 =
      (utf16Machine.run d bytes).2 ++ utf16Flush (utf16Machine.run d bytes).1 := by
    rcases hcs with hcs | hcs <;> simp only [shzDecode, hcs, utf16Loop_eq, if_true, utf16Flush]
  rw [hdec, hrun]
  rfl

/-- What decoding writes does not depend on the calls; for UTF-8 it is the text that the bytes decode to,
and for UTF-16 the repaired one. -/
theorem decoding_standard :
    (∀ cs pieces last, decodeCalls (decoderInit cs) pieces last =
      (shzDecode (decoderInit cs) (pieces.flatten ++ last) true).2) ∧
    (∀ bytes, ∃ chars, Decodes bytes chars ∧
      (shzDecode (decoderInit (some .utf8)) bytes true).2 = chars.flatMap Utf16.encode) ∧
    (∀ bytes chars, Decodes bytes chars →
      (shzDecode (decoderInit (some .utf8)) bytes true).2 = chars.flatMap Utf16.encode) ∧
    (∀ chars : List Char, (shzDecode (decoderInit (some .utf8)) (chars.flatMap Utf8.encode) true).2 =
      chars.flatMap Utf16.encode) ∧
    (∀ bytes, (shzDecode (decoderInit (some .utf16le)) bytes true).2 = Utf16.decode little bytes) ∧
    ∀ bytes, (shzDecode (decoderInit (some .utf16be)) bytes true).2 = Utf16.decode big bytes := by
  refine ⟨fun cs => decodeCalls_eq _, fun bytes => ?_, fun bytes chars => utf8_sound,
    fun chars => utf8_sound (.encoded chars), ?_, ?_⟩
  · obtain ⟨chars, h⟩ := Decodes.exists bytes
    exact ⟨chars, h, utf8_sound h⟩
  · exact utf16_sound (.inl rfl) rfl rfl
  · exact utf16_sound (.inr rfl) rfl rfl

/-- A high surrogate and half a unit behind it give one U+FFFD, not one each. -/
theorem truncated_pair_once :
    ¬∀ bytes, (shzDecode (decoderInit (some .utf16be)) bytes true).2 =
      repair (units big bytes) ++ if bytes.length % 2 = 1 then [Utf16.replacement] else [] := by
  intro h
  exact absurd (h [0xD8, 0x00, 0x41]) (by decide)

end Win98Modern.Trident
