import Win98Modern.Lib.Memory
import Mathlib.Data.List.Pairwise

/-!
# Records of fields

A record is written field by field.  Where the fields lie apart, each reads back what was written there
(`load_writeAll_num`, `writeAll_apply_of_mem`), and no other byte changes (`writeAll_apply_of_notMem`).
-/

namespace Win98Modern

open List

/-- `width` bytes for the place `off`. -/
structure Field where
  off : Nat
  width : Nat
  byte : Nat → BitVec 8

namespace Field

/-- A number of `n` bytes, the low one first. -/
def num (off n v : Nat) : Field := ⟨off, n, fun i => BitVec.ofNat 8 (v / 256 ^ i)⟩

def Covers (f : Field) (i : Nat) : Prop := f.off ≤ i ∧ i < f.off + f.width

instance (f : Field) (i : Nat) : Decidable (f.Covers i) := inferInstanceAs (Decidable (_ ∧ _))

def span (f : Field) : Nat × Nat := (f.off, f.width)

def SpansApart (a b : Nat × Nat) : Prop := a.1 + a.2 ≤ b.1 ∨ b.1 + b.2 ≤ a.1

instance (a b : Nat × Nat) : Decidable (SpansApart a b) := inferInstanceAs (Decidable (_ ∨ _))

def Apart (fs : List Field) : Prop := (fs.map span).Pairwise SpansApart

theorem Apart.sublist {fs : List Field} {layout : List (Nat × Nat)} (h : (fs.map span).Sublist layout)
    (hl : layout.Pairwise SpansApart) : Apart fs := hl.sublist h

end Field

namespace Memory

variable {m : Memory} {f : Field} {fs gs : List Field} {i n a v : Nat}

def write (m : Memory) (f : Field) : Memory := fun i => if f.Covers i then f.byte (i - f.off) else m i

def writeAll (m : Memory) (fs : List Field) : Memory := fs.foldl write m

theorem writeAll_append : m.writeAll (fs ++ gs) = (m.writeAll fs).writeAll gs := foldl_append

theorem write_apply (h : i < f.width) : m.write f (f.off + i) = f.byte i := by
  rw [write, if_pos ⟨by omega, by omega⟩, Nat.add_sub_cancel_left]

theorem writeAll_apply_of_notMem (h : ∀ f ∈ fs, ¬f.Covers i) : m.writeAll fs i = m i := by
  induction fs generalizing m with
  | nil => rfl
  | cons f fs ih =>
    have hfirst : m.write f i = m i := if_neg (h f mem_cons_self)
    rw [← hfirst]
    exact ih fun g hg => h g (mem_cons_of_mem _ hg)

theorem writeAll_apply_of_mem (hap : Field.Apart fs) (hf : f ∈ fs) (hi : i < f.width) :
    m.writeAll fs (f.off + i) = f.byte i := by
  induction fs generalizing m with
  | nil => cases hf
  | cons g fs ih =>
    obtain ⟨hg, hrest⟩ := pairwise_cons.1 hap
    rcases mem_cons.1 hf with rfl | hf
    · have hlater : ∀ k ∈ fs, ¬k.Covers (f.off + i) := by
        rintro k hk ⟨h1, h2⟩
        have := hg _ (mem_map_of_mem hk)
        simp only [Field.SpansApart, Field.span] at this
        omega
      exact (writeAll_apply_of_notMem hlater).trans (write_apply hi)
    · exact ih hrest hf

theorem load_of_digits (h : ∀ i < n, m (a + i) = BitVec.ofNat 8 (v / 256 ^ i)) : load n m a = v % 256 ^ n := by
  induction n generalizing a v with
  | zero => exact (Nat.mod_one v).symm
  | succ n ih =>
    have hrest := ih (a := a + 1) (v := v / 256) fun i hi => by
      have := h (i + 1) (by omega)
      rwa [Nat.pow_succ', ← Nat.div_div_eq_div_mul, ← Nat.add_assoc, Nat.add_right_comm] at this
    have hfirst := h 0 (by omega)
    rw [Nat.add_zero, Nat.pow_zero, Nat.div_one] at hfirst
    have hpow : 256 ^ (n + 1) = 256 * 256 ^ n := Nat.pow_succ'
    rw [load, hrest, hfirst, BitVec.toNat_ofNat, hpow, Nat.mod_mul, Nat.mul_comm 256]

theorem load_writeAll_num (hap : Field.Apart fs) (hf : Field.num a n v ∈ fs) :
    load n (m.writeAll fs) a = v % 256 ^ n :=
  load_of_digits fun _ hi => writeAll_apply_of_mem hap hf hi

end Memory

end Win98Modern
