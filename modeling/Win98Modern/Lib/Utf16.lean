import Mathlib.Data.List.Basic

/-!
# UTF-16

The units of a character, and of a text in which unpaired surrogates are replaced.
-/

namespace Win98Modern.Utf16

def isHigh (u : UInt16) : Bool := 0xD800 ≤ u && u ≤ 0xDBFF
def isLow (u : UInt16) : Bool := 0xDC00 ≤ u && u ≤ 0xDFFF

def replacement : UInt16 := 0xFFFD

/-- The units of a character. -/
def encode (c : Char) : List UInt16 :=
  let v := c.val.toNat
  if v < 0x10000 then [UInt16.ofNat v]
  else [UInt16.ofNat (0xD800 + (v - 0x10000) / 1024), UInt16.ofNat (0xDC00 + (v - 0x10000) % 1024)]

/-- Each unpaired surrogate is replaced. -/
def repair : List UInt16 → List UInt16
  | [] => []
  | [u] => if isHigh u || isLow u then [replacement] else [u]
  | u :: v :: rest =>
    if isHigh u then
      if isLow v then u :: v :: repair rest else replacement :: repair (v :: rest)
    else if isLow u then replacement :: repair (v :: rest)
    else u :: repair (v :: rest)

/-- The units that stand in a string of bytes, by how two bytes make a unit; an odd byte at the end is
none. -/
def units (unit : UInt8 → UInt8 → UInt16) : List UInt8 → List UInt16
  | a :: b :: rest => unit a b :: units unit rest
  | _ => []

def little (a b : UInt8) : UInt16 := UInt16.ofNat (a.toNat + b.toNat * 256)
def big (a b : UInt8) : UInt16 := UInt16.ofNat (a.toNat * 256 + b.toNat)

theorem not_low_of_high {u : UInt16} (h : isHigh u = true) : isLow u = false := by
  simp only [isHigh, isLow, Bool.and_eq_true, Bool.and_eq_false_iff, decide_eq_true_eq, decide_eq_false_iff_not,
    UInt16.le_iff_toNat_le] at h ⊢
  left
  have : (0xDC00 : UInt16).toNat = 0xDC00 := rfl
  have : (0xDBFF : UInt16).toNat = 0xDBFF := rfl
  omega

/-! ### The rules of the repair -/

theorem repair_pair {h l : UInt16} (hh : isHigh h = true) (hl : isLow l = true) (us : List UInt16) :
    repair (h :: l :: us) = h :: l :: repair us := by
  simp [repair, hh, hl]

theorem repair_high {h : UInt16} (hh : isHigh h = true) {us : List UInt16} (hl : ∀ l ∈ us.head?, isLow l = false) :
    repair (h :: us) = replacement :: repair us := by
  cases us with
  | nil => simp [repair, hh]
  | cons l us =>
    have hl : isLow l = false := hl l rfl
    simp [repair, hh, hl]

theorem repair_low {u : UInt16} (hh : isHigh u = false) (hl : isLow u = true) (us : List UInt16) :
    repair (u :: us) = replacement :: repair us := by
  cases us with
  | nil => simp [repair, hh, hl]
  | cons v us => simp [repair, hh, hl]

theorem repair_plain {u : UInt16} (hh : isHigh u = false) (hl : isLow u = false) (us : List UInt16) :
    repair (u :: us) = u :: repair us := by
  cases us with
  | nil => simp [repair, hh, hl]
  | cons v us => simp [repair, hh, hl]

def endsHigh (us : List UInt16) : Bool := us.getLast?.any isHigh

theorem endsHigh_cons {u : UInt16} (hu : isHigh u = false) (us : List UInt16) : endsHigh (u :: us) = endsHigh us := by
  cases us with
  | nil => simp [endsHigh, hu]
  | cons v us => simp [endsHigh, List.getLast?_cons_cons]

theorem endsHigh_cons_cons (u v : UInt16) (us : List UInt16) : endsHigh (u :: v :: us) = endsHigh (v :: us) := by
  simp [endsHigh, List.getLast?_cons_cons]

/-- A string of bytes as a text: an odd byte at the end is replaced, together with an unpaired surrogate
directly before it. -/
def decode (unit : UInt8 → UInt8 → UInt16) (bytes : List UInt8) : List UInt16 :=
  repair (units unit bytes) ++
    if bytes.length % 2 = 1 ∧ endsHigh (units unit bytes) = false then [replacement] else []

end Win98Modern.Utf16
