import Mathlib.Tactic.Common

/-!
# Numbered rounds

A coordinator publishes a value in numbered rounds; the members drop their old copies (`refresh`)
and acknowledge; a round is complete when all have, and the coordinator may give up (`poison`)
instead.  The log has the newest mark first.  `Lawful` says when each mark may be made; in a lawful
log at most one round is outstanding, and a complete round has been refreshed by every member.
-/

namespace Win98Modern.Rounds

open List

inductive Mark (ι ν : Type*) where
  | publish (g : Nat) (v : ν)
  | refresh (p : ι)
  | ack (p : ι) (g : Nat)
  | poison (g : Nat)
  | complete (g : Nat)
  deriving DecidableEq, Repr

variable {ι ν : Type*} {members : ι → Prop} {l xs : List (Mark ι ν)} {m : Mark ι ν} {p : ι}
  {g h : Nat} {v w : ν}

def latest : List (Mark ι ν) → Option (Nat × ν)
  | [] => none
  | .publish g v :: _ => some (g, v)
  | _ :: l => latest l

/-- Its number, or 0. -/
def issued (l : List (Mark ι ν)) : Nat := ((latest l).map Prod.fst).getD 0

/-- `p` has dropped its copies since the last round was published. -/
def Refreshed (p : ι) : List (Mark ι ν) → Prop
  | [] => False
  | .publish _ _ :: _ => False
  | .refresh q :: l => q = p ∨ Refreshed p l
  | _ :: l => Refreshed p l

/-- Round `g` is the last one, and not complete. -/
def Outstanding (l : List (Mark ι ν)) (g : Nat) : Prop := issued l = g ∧ g ≠ 0 ∧ .complete g ∉ l

def Poisoned (l : List (Mark ι ν)) : Prop := ∃ g, .poison g ∈ l

/-- When a mark may be made. -/
def Allowed (members : ι → Prop) (l : List (Mark ι ν)) : Mark ι ν → Prop
  | .publish g _ => g = issued l + 1 ∧ (issued l ≠ 0 → .complete (issued l) ∈ l) ∧ ¬ Poisoned l
  | .refresh _ => True
  | .ack p g => Outstanding l g ∧ Refreshed p l ∧ .ack p g ∉ l
  | .poison g => Outstanding l g ∧ ¬ Poisoned l
  | .complete g => Outstanding l g ∧ ¬ Poisoned l ∧ ∀ p, members p → .ack p g ∈ l

def Lawful (members : ι → Prop) : List (Mark ι ν) → Prop
  | [] => True
  | m :: l => Allowed members l m ∧ Lawful members l

def Mark.round : Mark ι ν → Option Nat
  | .publish g _ | .ack _ g | .poison g | .complete g => some g
  | .refresh _ => none

def Mark.OfMember : Mark ι ν → Prop
  | .refresh _ | .ack _ _ => True
  | _ => False

theorem latest_append (hxs : ∀ x ∈ xs, x.OfMember) : latest (xs ++ l) = latest l := by
  induction xs with
  | nil => rfl
  | cons x xs ih =>
    have hx := hxs x mem_cons_self
    have := ih fun y hy => hxs y (mem_cons_of_mem x hy)
    cases x with
    | refresh | ack => exact this
    | publish | poison | complete => exact hx.elim

theorem issued_append (hxs : ∀ x ∈ xs, x.OfMember) : issued (xs ++ l) = issued l := by
  rw [issued, latest_append hxs, issued]

theorem mem_append_iff (hxs : ∀ x ∈ xs, x.OfMember) (hm : ¬ m.OfMember) : m ∈ xs ++ l ↔ m ∈ l := by
  rw [mem_append, or_iff_right fun h => hm (hxs m h)]

theorem issued_cons (hm : m.OfMember) : issued (m :: l) = issued l := by
  cases m with
  | refresh | ack => rfl
  | publish | poison | complete => exact hm.elim

theorem complete_cons (hm : m.OfMember) : .complete g ∈ m :: l ↔ .complete g ∈ l := by
  rw [mem_cons, or_iff_right]
  rintro rfl
  exact hm

theorem poisoned_cons (hm : m.OfMember) : Poisoned (m :: l) ↔ Poisoned l := by
  refine exists_congr fun g => ?_
  rw [mem_cons, or_iff_right]
  rintro rfl
  exact hm

theorem outstanding_cons (hm : m.OfMember) : Outstanding (m :: l) g ↔ Outstanding l g := by
  rw [Outstanding, complete_cons hm, issued_cons hm, Outstanding]

theorem refreshed_append (hxs : ∀ x ∈ xs, x.OfMember) (h : Refreshed p l) : Refreshed p (xs ++ l) := by
  induction xs with
  | nil => exact h
  | cons x xs ih =>
    have hx := hxs x mem_cons_self
    have := ih fun y hy => hxs y (mem_cons_of_mem x hy)
    cases x with
    | refresh => exact .inr this
    | ack => exact this
    | publish | poison | complete => exact hx.elim

section Lawful

theorem issued_le_cons (ha : Allowed members l m) : issued l ≤ issued (m :: l) := by
  cases m with
  | publish g v =>
    obtain ⟨rfl, _⟩ := ha
    exact Nat.le_succ _
  | refresh | ack | poison | complete => exact Nat.le_refl _

theorem round_le_issued (hl : Lawful members l) (hm : m ∈ l) (hg : m.round = some g) : g ≤ issued l := by
  induction l with
  | nil => cases hm
  | cons x l ih =>
    obtain ⟨ha, hl⟩ := hl
    rcases mem_cons.1 hm with rfl | hin
    · cases m with
      | publish => exact Nat.le_of_eq (Option.some.inj hg).symm
      | refresh => exact nomatch hg
      | ack | poison | complete => exact Nat.le_of_eq ((Option.some.inj hg).symm.trans ha.1.1.symm)
    · exact Nat.le_trans (ih hl hin) (issued_le_cons ha)

theorem complete_of_lt (hl : Lawful members l) (h : .publish g v ∈ l) (hg : g ≠ issued l) :
    .complete g ∈ l := by
  induction l with
  | nil => cases h
  | cons m l ih =>
    obtain ⟨ha, hl⟩ := hl
    rcases mem_cons.1 h with rfl | hin
    · exact absurd rfl hg
    · refine mem_cons_of_mem m ?_
      by_cases hi : g = issued l
      · subst hi
        cases m with
        | publish g' v' =>
          obtain ⟨_, hdone, _⟩ := ha
          refine hdone fun h0 => ?_
          rw [h0] at hin
          exact publish_ne_zero hl hin
        | refresh | ack | poison | complete => exact absurd rfl hg
      · exact ih hl hin hi
where
  publish_ne_zero {l : List (Mark ι ν)} {v : ν} (hl : Lawful members l) (h : .publish 0 v ∈ l) : False := by
    induction l with
    | nil => cases h
    | cons m l ih =>
      rcases mem_cons.1 h with rfl | hin
      · exact absurd hl.1.1 (Nat.succ_ne_zero _).symm
      · exact ih hl.2 hin

/-- **At most one round is outstanding.** -/
theorem outstanding_unique (hl : Lawful members l) (hg : .publish g v ∈ l) (hcg : .complete g ∉ l)
    (hh : .publish h w ∈ l) (hch : .complete h ∉ l) : g = h := by
  have one : ∀ {k u}, .publish k u ∈ l → .complete k ∉ l → k = issued l := by
    intro k u hk hck
    by_contra hne
    exact hck (complete_of_lt hl hk hne)
  rw [one hg hcg, one hh hch]

/-- A member that has acknowledged the last round has refreshed since. -/
theorem refreshed_of_ack (hl : Lawful members l) (h : .ack p g ∈ l) (hg : issued l = g) :
    Refreshed p l := by
  induction l with
  | nil => cases h
  | cons m l ih =>
    obtain ⟨ha, hl⟩ := hl
    rcases mem_cons.1 h with rfl | hin
    · exact ha.2.1
    · cases m with
      | publish g' v' =>
        obtain ⟨rfl, _⟩ := ha
        obtain rfl : issued l + 1 = g := hg
        exact absurd (round_le_issued hl hin rfl) (Nat.not_succ_le_self _)
      | refresh => exact .inr (ih hl hin hg)
      | ack | poison | complete => exact ih hl hin hg

theorem ack_of_complete (hl : Lawful members l) (h : .complete g ∈ l) (hp : members p) :
    .ack p g ∈ l := by
  induction l with
  | nil => cases h
  | cons m l ih =>
    obtain ⟨ha, hl⟩ := hl
    refine mem_cons_of_mem m ?_
    rcases mem_cons.1 h with rfl | h
    · exact ha.2.2 p hp
    · exact ih hl h

/-- **When the last round is complete, every member has dropped its copies since.** -/
theorem refreshed_of_complete (hl : Lawful members l) (h : .complete g ∈ l) (hg : issued l = g)
    (hp : members p) : Refreshed p l :=
  refreshed_of_ack hl (ack_of_complete hl h hp) hg

end Lawful

end Win98Modern.Rounds
