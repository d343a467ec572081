import Mathlib.Data.List.Nodup

/-!
# Singly linked lists

A heap of *slots*: a slot holds a pointer to a node, or none, and every node `a` has a
slot `nx a` of its own for the node after it.  `Chain nx heap p l` says that the list
starting at slot `p` has the nodes `l`.

`tailSlot` walks to the empty slot at the end and `unlink` searches a node with a pointer
to the slot that may point at it, as C programs do with `waitblock_t **pp`; `fuel` bounds
the nodes walked.  `Chain.push` and `Chain.cut` are the two edits.
-/

namespace Win98Modern

open Function List

section Chains

variable {N S : Type*} {nx : N → S} {heap : S → Option N}

/-- The list that starts at a slot has these nodes. -/
def Chain (nx : N → S) (heap : S → Option N) : S → List N → Prop
  | p, [] => heap p = none
  | p, a :: l => heap p = some a ∧ Chain nx heap (nx a) l

/-- The slots that a list from `p` reads. -/
def slots (nx : N → S) (p : S) (l : List N) : List S := p :: l.map nx

def lastSlot (nx : N → S) : S → List N → S
  | p, [] => p
  | _, a :: l => lastSlot nx (nx a) l

/-- `while (*pp) pp = &(*pp)->next;` -/
def tailSlot (nx : N → S) (heap : S → Option N) : Nat → S → S
  | 0, p => p
  | fuel + 1, p =>
    match heap p with
    | none => p
    | some a => tailSlot nx heap fuel (nx a)

/-- `for (; *pp; pp = &(*pp)->next) if (*pp == b) { *pp = b->next; break; }` -/
def unlink [DecidableEq N] [DecidableEq S] (nx : N → S) (b : N) : Nat → S → (S → Option N) → S → Option N
  | 0, _, heap => heap
  | fuel + 1, p, heap =>
    match heap p with
    | none => heap
    | some a =>
      if a = b then update heap p (heap (nx b)) else unlink nx b fuel (nx a) heap

/-! ### What a list reads -/

theorem slots_cons (p : S) (a : N) (l : List N) : slots nx p (a :: l) = p :: slots nx (nx a) l :=
  rfl

variable {p : S} {l pre post : List N} {fuel : Nat} {b : N}

theorem Chain.congr {heap' : S → Option N} (h : Chain nx heap p l)
    (hs : ∀ q ∈ slots nx p l, heap' q = heap q) : Chain nx heap' p l := by
  induction l generalizing p with
  | nil => exact (hs p (by simp [slots])).trans h
  | cons a l ih =>
    rw [slots_cons] at hs
    refine ⟨(hs p (by simp)).trans h.1, ih h.2 ?_⟩
    intro q hq
    exact hs q (mem_cons_of_mem _ hq)

/-- A heap has one chain from a slot. -/
theorem Chain.unique {m : List N} (h : Chain nx heap p l) (h' : Chain nx heap p m) : l = m := by
  induction l generalizing p m with
  | nil =>
    cases m with
    | nil => rfl
    | cons b m => exact absurd (h.symm.trans h'.1) (by simp)
  | cons a l ih =>
    cases m with
    | nil => exact absurd (h'.symm.trans h.1) (by simp)
    | cons b m =>
      obtain rfl : a = b := Option.some.inj (h.1.symm.trans h'.1)
      rw [ih h.2 h'.2]

theorem Chain.head (h : Chain nx heap p l) : heap p = l.head? := by
  cases l with
  | nil => exact h
  | cons a l => exact h.1

theorem Chain.drop (h : Chain nx heap p (pre ++ post)) :
    Chain nx heap (lastSlot nx p pre) post := by
  induction pre generalizing p with
  | nil => exact h
  | cons a pre ih => exact ih h.2

theorem lastSlot_eq (p : S) (l : List N) : lastSlot nx p l = (l.getLast?.map nx).getD p := by
  induction l generalizing p with
  | nil => rfl
  | cons a l ih =>
    rw [lastSlot, ih]
    cases hl : l.getLast? with
    | none => simp [List.getLast?_eq_none_iff.1 hl]
    | some b =>
      have hne : l ≠ [] := by
        rintro rfl
        cases hl
      simp [List.getLast?_cons_of_ne_nil hne, hl]

theorem lastSlot_mem (p : S) (l : List N) : lastSlot nx p l ∈ slots nx p l := by
  induction l generalizing p with
  | nil => simp [lastSlot, slots]
  | cons a l ih => exact mem_cons_of_mem _ (ih (nx a))

theorem lastSlot_cases (p : S) (l : List N) :
    lastSlot nx p l = p ∨ ∃ a ∈ l, lastSlot nx p l = nx a := by
  have h : lastSlot nx p l ∈ slots nx p l := lastSlot_mem p l
  rw [slots, mem_cons, mem_map] at h
  obtain h | ⟨a, ha, h⟩ := h
  · exact .inl h
  · exact .inr ⟨a, ha, h.symm⟩

theorem slots_nodup (hnx : Function.Injective nx) (hp : ∀ a, nx a ≠ p) (hl : l.Nodup) :
    (slots nx p l).Nodup := by
  refine nodup_cons.2 ⟨?_, hl.map hnx⟩
  intro h
  obtain ⟨a, -, ha⟩ := mem_map.1 h
  exact hp a ha

/-! ### Linking a node at the end -/

theorem Chain.tailSlot (h : Chain nx heap p l) (hf : l.length ≤ fuel) :
    tailSlot nx heap fuel p = lastSlot nx p l := by
  induction l generalizing p fuel with
  | nil =>
    cases fuel with
    | zero => rfl
    | succ fuel => simp only [Win98Modern.tailSlot, show heap p = none from h, lastSlot]
  | cons a l ih =>
    cases fuel with
    | zero => simp at hf
    | succ fuel =>
      simp only [Win98Modern.tailSlot, h.1, lastSlot]
      exact ih h.2 (by simpa using hf)

variable [DecidableEq S]

/-- A node is linked behind the last one. -/
theorem Chain.push (h : Chain nx heap p l) (hs : (slots nx p l).Nodup) (hb : heap (nx b) = none)
    (hbs : nx b ∉ slots nx p l) :
    Chain nx (update heap (lastSlot nx p l) (some b)) p (l ++ [b]) := by
  induction l generalizing p with
  | nil =>
    have hne : nx b ≠ p := by simpa [slots] using hbs
    refine ⟨update_self .., ?_⟩
    exact (update_of_ne hne ..).trans hb
  | cons a l ih =>
    rw [slots_cons] at hs hbs
    rw [nodup_cons] at hs
    refine ⟨?_, ih h.2 hs.2 fun hm => hbs (mem_cons_of_mem _ hm)⟩
    have hne : p ≠ lastSlot nx (nx a) l := fun e => hs.1 (e ▸ lastSlot_mem ..)
    exact (update_of_ne hne ..).trans h.1

theorem Chain.link (h : Chain nx heap p l) (hs : (slots nx p l).Nodup) (hbs : nx b ∉ slots nx p l) :
    Chain nx (update (update heap (nx b) (heap p)) p (some b)) p (b :: l) := by
  have hbp : nx b ≠ p := fun e => hbs (e ▸ mem_cons_self)
  refine ⟨update_self .., ?_⟩
  have hself : update (update heap (nx b) (heap p)) p (some b) (nx b) = heap p := by
    rw [update_of_ne hbp, update_self]
  cases l with
  | nil => exact hself.trans h
  | cons a l =>
    refine ⟨hself.trans h.1, h.2.congr fun q hq => ?_⟩
    have hqp : q ≠ p := fun e => (nodup_cons.1 hs).1 (e ▸ hq)
    have hqb : q ≠ nx b := fun e => hbs (e ▸ mem_cons_of_mem _ hq)
    rw [update_of_ne hqp, update_of_ne hqb]

theorem Chain.pop (h : Chain nx heap p (b :: l)) (hs : (slots nx p (b :: l)).Nodup) :
    Chain nx (update heap p (heap (nx b))) p l := by
  have hp : p ∉ slots nx (nx b) l := (nodup_cons.1 hs).1
  have hl : Chain nx (update heap p (heap (nx b))) (nx b) l :=
    h.2.congr fun q hq => update_of_ne (fun e : q = p => hp (e ▸ hq)) ..
  cases l with
  | nil => exact (update_self ..).trans h.2
  | cons c l => exact ⟨(update_self ..).trans h.2.1, hl.2⟩

variable [DecidableEq N]

/-- The loop stops at the slot in front of the node. -/
theorem unlink_of_mem (h : Chain nx heap p (pre ++ b :: post)) (hb : b ∉ pre)
    (hf : pre.length < fuel) :
    unlink nx b fuel p heap = update heap (lastSlot nx p pre) (heap (nx b)) := by
  induction pre generalizing p fuel with
  | nil =>
    obtain ⟨fuel, rfl⟩ : ∃ k, fuel = k + 1 := ⟨fuel - 1, by simp at hf; omega⟩
    simp only [unlink, show heap p = some b from h.1, if_pos, lastSlot]
  | cons a pre ih =>
    obtain ⟨fuel, rfl⟩ : ∃ k, fuel = k + 1 := ⟨fuel - 1, by simp at hf; omega⟩
    rw [mem_cons, not_or] at hb
    simp only [unlink, show heap p = some a from h.1]
    rw [if_neg (Ne.symm hb.1)]
    exact ih h.2 hb.2 (by simpa using hf)

omit [DecidableEq N] in
/-- A node is unlinked where it stands. -/
theorem Chain.cut (h : Chain nx heap p (pre ++ b :: post))
    (hs : (slots nx p (pre ++ b :: post)).Nodup) :
    Chain nx (update heap (lastSlot nx p pre) (heap (nx b))) p (pre ++ post) := by
  induction pre generalizing p with
  | nil => exact h.pop hs
  | cons a pre ih =>
    rw [cons_append, slots_cons] at hs
    have hn := nodup_cons.1 hs
    refine ⟨?_, ih h.2 hn.2⟩
    have hne : p ≠ lastSlot nx (nx a) pre := by
      intro e
      apply hn.1
      rw [e]
      have : lastSlot nx (nx a) pre ∈ slots nx (nx a) pre := lastSlot_mem (nx a) pre
      rw [slots, mem_cons] at this ⊢
      obtain h | h := this
      · exact .inl h
      · exact .inr (by rw [map_append]; exact mem_append_left _ h)
    exact (update_of_ne hne ..).trans h.1

end Chains

end Win98Modern
