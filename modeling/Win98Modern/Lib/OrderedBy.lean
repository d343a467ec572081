import Mathlib.Data.List.Lex
import Mathlib.Data.List.Pairwise
import Mathlib.Order.Lattice

/-!
# Chains ordered by a key

A list kept strictly increasing in a key.  `seek` scans it for a key and stops as soon as it has
gone past it; `insertOrd` puts an element before the first one that is not below it.  In an
ordered chain the early stop loses nothing (`seek_eq_some`, `seek_eq_none`).
-/

namespace Win98Modern

open List

section OrderedBy

variable {α κ : Type*} [LinearOrder κ] {key : α → κ} {cs : List α} {a c : α} {k : κ}

/-- The chain increases strictly in `key`. -/
def OrderedBy (key : α → κ) (cs : List α) : Prop := cs.Pairwise fun a b => key a < key b

/-- The first element with the key `k`, given up at the first one above it. -/
def seek (key : α → κ) : List α → κ → Option α
  | [], _ => none
  | c :: cs, k =>
    match cmp (key c) k with
    | .eq => some c
    | .gt => none
    | .lt => seek key cs k

/-- `a` put before the first element that is not below it. -/
def insertOrd (key : α → κ) (a : α) : List α → List α
  | [] => [a]
  | c :: cs => if key c < key a then c :: insertOrd key a cs else a :: c :: cs

@[simp] theorem orderedBy_nil : OrderedBy key [] := List.Pairwise.nil

theorem orderedBy_cons : OrderedBy key (c :: cs) ↔ (∀ b ∈ cs, key c < key b) ∧ OrderedBy key cs :=
  pairwise_cons

theorem OrderedBy.nodup (h : OrderedBy key cs) : cs.Nodup :=
  h.imp_of_mem fun _ _ hab heq => hab.ne (congrArg key heq)

theorem OrderedBy.sublist {ds : List α} (h : OrderedBy key cs) (hs : ds.Sublist cs) :
    OrderedBy key ds :=
  List.Pairwise.sublist hs h

theorem OrderedBy.inj (h : OrderedBy key cs) (ha : a ∈ cs) (hc : c ∈ cs) (hk : key a = key c) :
    a = c := by
  induction cs with
  | nil => exact absurd ha not_mem_nil
  | cons d cs ih =>
    obtain ⟨hd, hcs⟩ := orderedBy_cons.mp h
    rcases mem_cons.mp ha with rfl | ha'
    · rcases mem_cons.mp hc with rfl | hc'
      · rfl
      · exact absurd hk (hd c hc').ne
    · rcases mem_cons.mp hc with rfl | hc'
      · exact absurd hk.symm (hd a ha').ne
      · exact ih hcs ha' hc'

theorem seek_lt (h : cmp (key c) k = .lt) : seek key (c :: cs) k = seek key cs k := by
  change (match cmp (key c) k with
    | .eq => some c
    | .gt => none
    | .lt => seek key cs k) = seek key cs k
  rw [h]

theorem seek_eq (h : cmp (key c) k = .eq) : seek key (c :: cs) k = some c := by
  change (match cmp (key c) k with
    | .eq => some c
    | .gt => none
    | .lt => seek key cs k) = some c
  rw [h]

theorem seek_gt (h : cmp (key c) k = .gt) : seek key (c :: cs) k = none := by
  change (match cmp (key c) k with
    | .eq => some c
    | .gt => none
    | .lt => seek key cs k) = none
  rw [h]

/-- **The early stop loses nothing**: the scan finds an element exactly when it is there. -/
theorem seek_eq_some (h : OrderedBy key cs) : seek key cs k = some c ↔ c ∈ cs ∧ key c = k := by
  induction cs with
  | nil => exact ⟨fun h => absurd h nofun, fun h => absurd h.1 not_mem_nil⟩
  | cons d cs ih =>
    obtain ⟨hd, hcs⟩ := orderedBy_cons.mp h
    cases hcmp : cmp (key d) k with
    | lt =>
      have hlt : key d < k := (cmp_eq_lt_iff _ _).mp hcmp
      rw [seek_lt hcmp]
      refine (ih hcs).trans ⟨fun h => ⟨mem_cons_of_mem _ h.1, h.2⟩, fun h => ⟨?_, h.2⟩⟩
      rcases mem_cons.mp h.1 with rfl | hm
      · exact absurd h.2 hlt.ne
      · exact hm
    | eq =>
      have heq : key d = k := (cmp_eq_eq_iff _ _).mp hcmp
      rw [seek_eq hcmp]
      constructor
      · intro h
        obtain rfl := Option.some.inj h
        exact ⟨mem_cons_self, heq⟩
      · intro h'
        rw [h.inj mem_cons_self h'.1 (heq.trans h'.2.symm)]
    | gt =>
      have hgt : k < key d := (cmp_eq_gt_iff _ _).mp hcmp
      rw [seek_gt hcmp]
      refine ⟨fun h => absurd h nofun, fun h => ?_⟩
      rcases mem_cons.mp h.1 with rfl | hm
      · exact absurd h.2 hgt.ne'
      · exact absurd h.2 (hgt.trans (hd c hm)).ne'

theorem seek_eq_none (h : OrderedBy key cs) : seek key cs k = none ↔ ∀ c ∈ cs, key c ≠ k := by
  constructor
  · intro hn c hc hk
    rw [(seek_eq_some h).mpr ⟨hc, hk⟩] at hn
    exact absurd hn nofun
  · intro hall
    cases hs : seek key cs k with
    | none => rfl
    | some c =>
      obtain ⟨hc, hk⟩ := (seek_eq_some h).mp hs
      exact absurd hk (hall c hc)

theorem seek_congr {key' : α → κ} (h : ∀ c ∈ cs, key' c = key c) :
    seek key' cs k = seek key cs k := by
  induction cs with
  | nil => rfl
  | cons d cs ih =>
    have hd := h d mem_cons_self
    have htail := ih fun c hc => h c (mem_cons_of_mem _ hc)
    cases hcmp : cmp (key d) k with
    | lt => rw [seek_lt hcmp, seek_lt (hd.symm ▸ hcmp), htail]
    | eq => rw [seek_eq hcmp, seek_eq (hd.symm ▸ hcmp)]
    | gt => rw [seek_gt hcmp, seek_gt (hd.symm ▸ hcmp)]

theorem perm_insertOrd : (insertOrd key a cs).Perm (a :: cs) := by
  induction cs with
  | nil => exact List.Perm.refl _
  | cons d cs ih =>
    rw [insertOrd]
    split
    · exact (List.Perm.cons d ih).trans (List.Perm.swap a d cs)
    · exact List.Perm.refl _

@[simp] theorem mem_insertOrd : c ∈ insertOrd key a cs ↔ c = a ∨ c ∈ cs := by
  rw [perm_insertOrd.mem_iff, mem_cons]

@[simp] theorem length_insertOrd : (insertOrd key a cs).length = cs.length + 1 :=
  perm_insertOrd.length_eq

theorem OrderedBy.insert (h : OrderedBy key cs) (hnew : ∀ c ∈ cs, key c ≠ key a) :
    OrderedBy key (insertOrd key a cs) := by
  induction cs with
  | nil => exact pairwise_singleton _ _
  | cons d cs ih =>
    obtain ⟨hd, hcs⟩ := orderedBy_cons.mp h
    rw [insertOrd]
    split
    case isTrue hlt =>
      refine orderedBy_cons.mpr ⟨fun b hb => ?_, ih hcs fun c hc => hnew c (mem_cons_of_mem _ hc)⟩
      rcases mem_insertOrd.mp hb with rfl | hb
      · exact hlt
      · exact hd b hb
    case isFalse hge =>
      have had : key a < key d :=
        lt_of_le_of_ne (not_lt.mp hge) fun heq => hnew d mem_cons_self heq.symm
      refine orderedBy_cons.mpr ⟨fun b hb => ?_, h⟩
      rcases mem_cons.mp hb with rfl | hb
      · exact had
      · exact had.trans (hd b hb)

end OrderedBy

end Win98Modern
