import Mathlib.Data.List.Basic
import Mathlib.Data.Nat.ModEq

/-!
# Ring buffers

`count` elements behind `head` in a ring of `n` slots.  The ring holds the list `toList`: a push
behind the last one appends, as long as there is room, and a pop takes off the head.
-/

namespace Win98Modern

open List

/-- A ring of `n` slots. -/
structure RingBuffer (α : Type*) (n : Nat) where
  slots : Nat → α
  head : Nat
  count : Nat

namespace RingBuffer

variable {α : Type*} {n : Nat} {r : RingBuffer α n}

/-- The slot `i` behind the head. -/
def get (r : RingBuffer α n) (i : Nat) : α := r.slots ((r.head + i) % n)

def toList (r : RingBuffer α n) : List α := (List.range r.count).map r.get

def push (r : RingBuffer α n) (a : α) : RingBuffer α n :=
  { r with slots := Function.update r.slots ((r.head + r.count) % n) a, count := r.count + 1 }

def pop (r : RingBuffer α n) : RingBuffer α n :=
  { r with head := (r.head + 1) % n, count := r.count - 1 }

def ofList [Inhabited α] (l : List α) : RingBuffer α n := ⟨fun i => l.getD i default, 0, l.length⟩

def clear (r : RingBuffer α n) : RingBuffer α n := { r with head := 0, count := 0 }

@[simp] theorem length_toList : r.toList.length = r.count := by simp [toList]

@[simp] theorem count_push (a : α) : (r.push a).count = r.count + 1 := rfl

@[simp] theorem count_pop : r.pop.count = r.count - 1 := rfl

theorem slot_ne {h i j : Nat} (hij : i < j) (hj : j < n) : (h + i) % n ≠ (h + j) % n := by
  intro he
  have hdvd : n ∣ h + j - (h + i) := (Nat.modEq_iff_dvd' (by omega)).1 he
  have := Nat.le_of_dvd (by omega) hdvd
  omega

theorem toList_push (a : α) (h : r.count < n) : (r.push a).toList = r.toList ++ [a] := by
  unfold toList
  rw [count_push, range_succ, map_append, map_singleton]
  congr 1
  · refine map_congr_left fun i hi => ?_
    exact Function.update_of_ne (slot_ne (mem_range.1 hi) h) ..
  · exact congrArg ([·]) (Function.update_self ..)

theorem toList_eq_nil_iff : r.toList = [] ↔ r.count = 0 := by
  rw [← length_eq_zero_iff, length_toList]

theorem toList_pop (h : 0 < r.count) : r.toList = r.slots (r.head % n) :: r.pop.toList := by
  obtain ⟨c, hc⟩ := Nat.exists_eq_succ_of_ne_zero (Nat.pos_iff_ne_zero.1 h)
  unfold toList
  rw [count_pop, hc, range_succ_eq_map, map_cons, map_map]
  refine congrArg _ (map_congr_left fun i _ => ?_)
  unfold pop get
  simp only [Function.comp, Nat.mod_add_mod]
  congr 2
  omega

theorem toList_ofList [Inhabited α] (l : List α) (h : l.length ≤ n) :
    (ofList (n := n) l).toList = l := by
  refine ext_getElem (by simp [ofList]) fun i hi _ => ?_
  have hlt : i < l.length := by simpa [ofList] using hi
  simp only [toList, getElem_map, getElem_range, get, ofList, Nat.zero_add]
  rw [Nat.mod_eq_of_lt (by omega), getD_eq_getElem?_getD, List.getElem?_eq_getElem hlt]
  rfl

end RingBuffer

end Win98Modern
