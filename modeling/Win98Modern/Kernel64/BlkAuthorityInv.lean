import Win98Modern.Kernel64.BlkAuthority
import Mathlib.Algebra.BigOperators.Group.Finset.Basic

/-!
# What the registry keeps

The bookkeeping of the claims (`Inv`): a claimed device is no source of a claim, each snapshot has
one reference for its owner and one for each claim that names it, every generation is given out once,
and the generation of a device says whether it changed since it was pinned.
-/

namespace Win98Modern.BlkAuthority

open Function List

variable {s : State} {d : DevId} {i j k c owner : Nat} {id : Identity} {e : Entry} {m : Mark}

/-! ### The log -/

/-- The generations that were given out. -/
def mints (l : List Mark) : List Nat := l.filterMap fun
  | .mint g => some g
  | _ => none

def snapshots (l : List Mark) : List Nat := l.filterMap fun
  | .snapshot info _ => some info.generation
  | _ => none

/-- The device changed after it was pinned as `id`. -/
def ChangedSince (d : DevId) (id : Identity) : List Mark → Prop
  | [] => False
  | m :: l => (m = .change d ∧ .pin d id ∈ l) ∨ ChangedSince d id l

def lastClaim (c : Nat) : List Mark → Option (Nat × Identity × Source × Source)
  | [] => none
  | .claim c' owner reviewed src :: l => if c' = c then some (owner, reviewed, src) else lastClaim c l
  | _ :: l => lastClaim c l

/-! ### The sources -/

def Entry.srcs (e : Entry) : List Source := [e.sources.1, e.sources.2]

def holds (e : Entry) (k : Nat) : Nat :=
  if e.owner = 0 then 0 else (e.srcs.filter fun p => p.archive = some k).length

def retained (s : State) (k : Nat) : Nat := ∑ i ∈ Finset.range s.used, holds (s.entries i) k

/-- The references are those of the owners, and `f`. -/
def Counted (s : State) (f : Nat → Nat) : Prop :=
  ∀ k < ARCHIVE_SOURCE_SLOTS, (s.slots k).refs = (if (s.slots k).owner = 0 then 0 else 1) + f k

def Names (s : State) (k : Nat) (id : Identity) : Prop :=
  slotEqual s k id.wholeId id.generation id.sectors = true

/-! ### The invariant -/

structure Identities (s : State) : Prop where
  distinct : ∀ i j, i < s.used → j < s.used → (s.entries i).device = (s.entries j).device → i = j
  parent : ∀ i < s.used, (s.dev (s.entries i).device).parent = none
  generation : ∀ i < s.used, (s.entries i).identity.generation ∈ mints s.log
  generations : ∀ i j, i < s.used → j < s.used →
    (s.entries i).identity.generation = (s.entries j).identity.generation → i = j
  minted : (mints s.log).Pairwise (· > ·) ∧ ∀ g ∈ mints s.log, g ≤ s.epoch
  pinned : ∀ d id, .pin d id ∈ s.log → ∃ i < s.used, (s.entries i).device = d ∧
    id.generation ≤ (s.entries i).identity.generation
  changed : ∀ i < s.used, ∀ id, ChangedSince (s.entries i).device id s.log →
    (s.entries i).poisoned = true ∨ id.generation < (s.entries i).identity.generation ∨
      observed s i = false

def Exclusive (s : State) : Prop :=
  ∀ i j, claimed s i → claimed s j → ∀ p ∈ (s.entries j).srcs, p.whole ≠ some (s.entries i).device

/-- The references to the snapshots. -/
structure Snapshots (s : State) : Prop where
  named : ∀ i, claimed s i → ∀ p ∈ (s.entries i).srcs, ∀ k, p.archive = some k → Names s k p.identity
  refs : Counted s (retained s)
  taken : ∀ k, live s k → .snapshot (s.slots k).info (s.slots k).data ∈ s.log
  minted : (snapshots s.log).Pairwise (· > ·) ∧ ∀ g ∈ snapshots s.log, g ≤ s.sourceEpoch

/-- Each claim is as it was made. -/
def Recorded (s : State) : Prop :=
  ∀ i, claimed s i → lastClaim i s.log =
    some ((s.entries i).owner, (s.entries i).identity, (s.entries i).sources)

structure Inv (s : State) : Prop where
  identities : Identities s
  exclusive : Exclusive s
  snapshots : Snapshots s
  recorded : Recorded s

section State

@[simp] theorem setEntry_same : (s.setEntry i e).entries i = e := update_self ..

theorem setEntry_of_ne (h : j ≠ i) : (s.setEntry i e).entries j = s.entries j :=
  update_of_ne h ..

@[simp] theorem setSlot_same {x : Slot} : (s.setSlot k x).slots k = x := update_self ..

theorem setSlot_of_ne {x : Slot} {l : Nat} (h : l ≠ k) : (s.setSlot k x).slots l = s.slots l :=
  update_of_ne h ..

@[simp] theorem setDev_same {after : Device} :
    (s.setDev d after).dev d = { after with parent := (s.dev d).parent } := update_self ..

theorem setDev_of_ne {after : Device} {d' : DevId} (h : d' ≠ d) :
    (s.setDev d after).dev d' = s.dev d' := update_of_ne h ..

theorem forall_setEntry {P : Nat → Entry → Prop} (h : P i e) (hs : ∀ j, j ≠ i → P j (s.entries j)) :
    ∀ j, P j ((s.setEntry i e).entries j) := by
  intro j
  by_cases hj : j = i
  · rw [hj, setEntry_same]
    exact h
  · rw [setEntry_of_ne hj]
    exact hs j hj

end State

section Lookup

theorem claimed_iff : claimed s i = true ↔ i < s.used ∧ (s.entries i).owner ≠ 0 := by
  simp [claimed]

theorem entry_some (h : entry s d = some i) :
    i < s.used ∧ (s.entries i).device = d ∧ (s.dev d).parent = none ∧ partition (s.dev d) = false := by
  unfold entry at h
  split at h
  case isTrue => exact nomatch h
  case isFalse hd =>
    obtain ⟨hp, hq⟩ := not_or.1 hd
    refine ⟨mem_range.1 (mem_of_find?_eq_some h), by simpa using List.find?_some h, ?_, ?_⟩
    · exact Option.not_isSome_iff_eq_none.1 hp
    · exact Bool.not_eq_true _ ▸ hq

theorem entry_none (h : entry s d = none) (hp : (s.dev d).parent = none)
    (hq : partition (s.dev d) = false) : ∀ i < s.used, (s.entries i).device ≠ d := by
  unfold entry at h
  rw [if_neg (by simp [hp, hq])] at h
  intro i hi he
  exact List.find?_eq_none.1 h i (mem_range.2 hi) (decide_eq_true he)

/-- `entry` finds each registered device. -/
theorem Identities.entry_eq (hi : Identities s) (h : i < s.used)
    (hq : partition (s.dev (s.entries i).device) = false) : entry s (s.entries i).device = some i := by
  cases he : entry s (s.entries i).device with
  | none => exact absurd rfl (entry_none he (hi.parent i h) hq i h)
  | some j =>
    obtain ⟨hj, hd, _⟩ := entry_some he
    rw [hi.distinct j i hj h hd]

theorem observed_iff : observed s i = true ↔ (s.dev (s.entries i).device).parent = none ∧
    partition (s.dev (s.entries i).device) = false ∧
      sameDescriptor (s.dev (s.entries i).device) (s.entries i).snapshot = true := by
  simp [observed]

theorem parents_of_root (h : (s.dev d).parent = none) (n : Nat) : parents s n d = d := by
  cases n with
  | zero => rfl
  | succ n => simp only [parents, h]

theorem retained_setEntry (hi : i < s.used) (e : Entry) (k : Nat) :
    retained (s.setEntry i e) k + holds (s.entries i) k = retained s k + holds e k := by
  have hmem : i ∈ Finset.range s.used := Finset.mem_range.2 hi
  have hsame : ∀ j ∈ (Finset.range s.used).erase i,
      holds ((s.setEntry i e).entries j) k = holds (s.entries j) k := by
    intro j hj
    rw [setEntry_of_ne (Finset.ne_of_mem_erase hj)]
  have hnew : holds ((s.setEntry i e).entries i) k = holds e k := by
    rw [setEntry_same]
  show (∑ j ∈ Finset.range s.used, holds ((s.setEntry i e).entries j) k) + _ = _
  rw [← Finset.add_sum_erase _ _ hmem, Finset.sum_congr rfl hsame, hnew, retained,
    ← Finset.add_sum_erase _ _ hmem]
  omega

end Lookup

end Win98Modern.BlkAuthority
