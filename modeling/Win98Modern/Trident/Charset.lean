import Mathlib.Algebra.Group.Nat.Defs
import Mathlib.Data.List.TakeWhile
import Mathlib.Tactic.Common

/-!
# Character decoding

`charset.c`: `shz_decoder_init`, `utf8_decode`, `utf16_unit` and `shz_decode`.  A call returns the decoder
afterwards and the units that it appends to the buffer, which is taken to grow.  Bytes and units have their widths; the fields
of the decoder are numbers.
-/

namespace Win98Modern.Trident

/-- `shz_charset`; `SHZ_CS_NONE` is `none`. -/
inductive Charset
  | utf8 | windows1252 | iso8859_15 | utf16le | utf16be
  deriving DecidableEq, Repr

/-- `shz_decoder`; -1 in `pending` and `lead` is `none`. -/
structure Decoder where
  cs : Charset
  cp : Nat
  need : Nat
  seen : Nat
  lower : Nat
  upper : Nat
  pending : Option Nat
  lead : Option Nat
  deriving DecidableEq, Repr

def decoderInit (cs : Option Charset) : Decoder :=
  ⟨cs.getD .utf8, 0, 0, 0, 0x80, 0xBF, none, none⟩

/-- A unit of the output, `(shz_char)c`. -/
def shzChar (c : Nat) : UInt16 := UInt16.ofNat c

def putCp (cp : Nat) : List UInt16 :=
  if 0x10000 ≤ cp then [shzChar (0xD800 + ((cp - 0x10000) >>> 10)), shzChar (0xDC00 + ((cp - 0x10000) &&& 0x3FF))]
  else [shzChar cp]

/-! ### Single bytes -/

def cp1252C1Table : List UInt16 :=
  [0x20AC, 0x0081, 0x201A, 0x0192, 0x201E, 0x2026, 0x2020, 0x2021, 0x02C6, 0x2030, 0x0160, 0x2039, 0x0152, 0x008D,
   0x017D, 0x008F, 0x0090, 0x2018, 0x2019, 0x201C, 0x201D, 0x2022, 0x2013, 0x2014, 0x02DC, 0x2122, 0x0161, 0x203A,
   0x0153, 0x009D, 0x017E, 0x0178]

def cp1252C1 (b : UInt8) : UInt16 :=
  if 0x80 ≤ b ∧ b ≤ 0x9F then cp1252C1Table.getD (b.toNat - 0x80) 0 else shzChar b.toNat

def iso8859_15 (b : UInt8) : UInt16 :=
  match b with
  | 0xA4 => 0x20AC
  | 0xA6 => 0x0160
  | 0xA8 => 0x0161
  | 0xB4 => 0x017D
  | 0xB8 => 0x017E
  | 0xBC => 0x0152
  | 0xBD => 0x0153
  | 0xBE => 0x0178
  | b => shzChar b.toNat

/-! ### UTF-8 -/

def Decoder.reset (d : Decoder) : Decoder := { d with need := 0, seen := 0, cp := 0, lower := 0x80, upper := 0xBF }

/-- A byte from 0x80 on that begins a sequence, and what is written for one that cannot. -/
def utf8Lead (d : Decoder) (b : Nat) : Decoder × List UInt16 :=
  if 0xC2 ≤ b ∧ b ≤ 0xDF then ({ d with need := 1, cp := b &&& 0x1F }, [])
  else if 0xE0 ≤ b ∧ b ≤ 0xEF then
    ({ d with lower := if b = 0xE0 then 0xA0 else d.lower, upper := if b = 0xED then 0x9F else d.upper,
              need := 2, cp := b &&& 0x0F }, [])
  else if 0xF0 ≤ b ∧ b ≤ 0xF4 then
    ({ d with lower := if b = 0xF0 then 0x90 else d.lower, upper := if b = 0xF4 then 0x8F else d.upper,
              need := 3, cp := b &&& 0x07 }, [])
  else (d, [0xFFFD])

/-- A byte that continues a sequence. -/
def utf8Continue (d : Decoder) (b : Nat) : Decoder × List UInt16 :=
  let cp := (d.cp <<< 6) % 2 ^ 32 ||| b &&& 0x3F
  let d := { d with lower := 0x80, upper := 0xBF, cp := cp, seen := d.seen + 1 }
  if d.seen = d.need then ({ d with need := 0, seen := 0, cp := 0 }, putCp cp) else (d, [])

/-- A turn of the loop of `utf8_decode`: the decoder, the bytes still to read and the units written. -/
def utf8Turn (d : Decoder) (b : UInt8) (rest : List UInt8) : Decoder × List UInt8 × List UInt16 :=
  if d.need = 0 then
    if b < 0x80 then
      -- the fast path: all ASCII bytes up to the next one from 0x80 on
      let run := (b :: rest).takeWhile (· < 0x80)
      (d, (b :: rest).dropWhile (· < 0x80), run.map fun c => shzChar c.toNat)
    else
      let r := utf8Lead d b.toNat
      (r.1, rest, r.2)
  else if b.toNat < d.lower ∨ d.upper < b.toNat then (d.reset, b :: rest, [0xFFFD])
  else
    let r := utf8Continue d b.toNat
    (r.1, rest, r.2)

/-- What is left of a loop: bytes count twice, as one of them may be read again. -/
def utf8Left (d : Decoder) (input : List UInt8) : Nat := 2 * input.length + if d.need = 0 then 0 else 1

theorem utf8Left_le (d : Decoder) (input : List UInt8) : utf8Left d input ≤ 2 * input.length + 1 := by
  rw [utf8Left]
  split_ifs <;> omega

theorem utf8Turn_shorter (d : Decoder) (b : UInt8) (rest : List UInt8) :
    utf8Left (utf8Turn d b rest).1 (utf8Turn d b rest).2.1 < utf8Left d (b :: rest) := by
  have hlen : (b :: rest).length = rest.length + 1 := rfl
  by_cases h0 : d.need = 0
  · have hleft : utf8Left d (b :: rest) = 2 * (rest.length + 1) := by rw [utf8Left, if_pos h0, hlen, Nat.add_zero]
    rw [utf8Turn, if_pos h0, hleft]
    by_cases hb : b < 0x80
    · rw [if_pos hb]
      have hdrop : ((b :: rest).dropWhile (· < 0x80)).length ≤ rest.length := by
        rw [List.dropWhile_cons_of_pos (by simpa using hb)]
        exact (List.dropWhile_suffix _).length_le
      dsimp only
      rw [utf8Left, if_pos h0]
      omega
    · rw [if_neg hb]
      have := utf8Left_le (utf8Lead d b.toNat).1 rest
      dsimp only
      omega
  · have hleft : utf8Left d (b :: rest) = 2 * (rest.length + 1) + 1 := by rw [utf8Left, if_neg h0, hlen]
    rw [utf8Turn, if_neg h0, hleft]
    split
    · have hidle : d.reset.need = 0 := rfl
      rw [utf8Left, if_pos hidle, hlen]
      omega
    · have := utf8Left_le (utf8Continue d b.toNat).1 rest
      dsimp only
      omega

/-- The loop of `utf8_decode`. -/
def utf8Loop (d : Decoder) (input : List UInt8) : Decoder × List UInt16 :=
  match input with
  | [] => (d, [])
  | b :: rest =>
    let r := utf8Turn d b rest
    let s := utf8Loop r.1 r.2.1
    (s.1, r.2.2 ++ s.2)
termination_by utf8Left d input
decreasing_by exact utf8Turn_shorter d b rest

def utf8Decode (d : Decoder) (input : List UInt8) (flush : Bool) : Decoder × List UInt16 :=
  let r := utf8Loop d input
  if flush = true ∧ r.1.need ≠ 0 then (r.1.reset, r.2 ++ [0xFFFD]) else r

/-! ### UTF-16 -/

def isLowSurrogate (u : Nat) : Prop := 0xDC00 ≤ u ∧ u ≤ 0xDFFF
def isHighSurrogate (u : Nat) : Prop := 0xD800 ≤ u ∧ u ≤ 0xDBFF

instance (u : Nat) : Decidable (isLowSurrogate u) := inferInstanceAs (Decidable (_ ∧ _))
instance (u : Nat) : Decidable (isHighSurrogate u) := inferInstanceAs (Decidable (_ ∧ _))

def utf16Fresh (d : Decoder) (u : Nat) : Decoder × List UInt16 :=
  if isHighSurrogate u then ({ d with lead := some u }, [])
  else if isLowSurrogate u then (d, [0xFFFD])
  else (d, [shzChar u])

def utf16Unit (d : Decoder) (u : Nat) : Decoder × List UInt16 :=
  match d.lead with
  | some lead =>
    if isLowSurrogate u then ({ d with lead := none }, [shzChar lead, shzChar u])
    else
      let r := utf16Fresh { d with lead := none } u
      (r.1, 0xFFFD :: r.2)
  | none => utf16Fresh d u

/-- A turn of the loop over the bytes. -/
def utf16Byte (d : Decoder) (b : UInt8) : Decoder × List UInt16 :=
  match d.pending with
  | none => ({ d with pending := some b.toNat }, [])
  | some p =>
    let u := if d.cs = .utf16le then p ||| b.toNat <<< 8 else p <<< 8 ||| b.toNat
    let r := utf16Unit d u
    ({ r.1 with pending := none }, r.2)

def utf16Loop (d : Decoder) : List UInt8 → Decoder × List UInt16
  | [] => (d, [])
  | b :: rest =>
    let r := utf16Byte d b
    let s := utf16Loop r.1 rest
    (s.1, r.2 ++ s.2)

def shzDecode (d : Decoder) (input : List UInt8) (flush : Bool) : Decoder × List UInt16 :=
  match d.cs with
  | .utf8 => utf8Decode d input flush
  | .windows1252 => (d, input.map cp1252C1)
  | .iso8859_15 => (d, input.map iso8859_15)
  | .utf16le | .utf16be =>
    let r := utf16Loop d input
    if flush then
      ({ r.1 with pending := none, lead := none },
        r.2 ++ if r.1.pending.isSome ∨ r.1.lead.isSome then [0xFFFD] else [])
    else r

/-- Consecutive calls, with `flush` on the last one only: what they write. -/
def decodeCalls (d : Decoder) : List (List UInt8) → List UInt8 → List UInt16
  | [], last => (shzDecode d last true).2
  | piece :: pieces, last =>
    let r := shzDecode d piece false
    r.2 ++ decodeCalls r.1 pieces last

end Win98Modern.Trident
