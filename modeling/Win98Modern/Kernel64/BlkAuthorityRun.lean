import Win98Modern.Kernel64.BlkAuthorityCalls
import Win98Modern.Lib.Runs

/-!
# Write authority along a run

What each call may change (`Moves`), and from it and the invariant what every run from the start
satisfies: no claimed device is a source, a claimed device is out of reach of ordinary I/O, and the
driver of a claimed device is called only while nothing that the claim was made on has changed.
-/

namespace Win98Modern.BlkAuthority

variable {s t u : State} {d : DevId} {i j k c owner : Nat} {id : Identity} {e : Entry} {m : Mark}

/-! ### What a call may change -/

section Moves

def roles (s : State) : Nat × Source × Source × Provenance :=
  (s.rolesKind, s.bootRole, s.systemRole, s.externalOrigin)

/-- `r` is the claim that the call may give up. -/
structure Moves (r : Option Nat) (s t : State) : Prop where
  used : s.used ≤ t.used
  epoch : s.epoch ≤ t.epoch
  generation : ∀ i < t.used, s.epoch < (t.entries i).identity.generation ∨
    i < s.used ∧ (t.entries i).identity.generation = (s.entries i).identity.generation
  frozen : ∀ i < s.used, (s.entries i).poisoned = true → t.entries i = s.entries i
  device : ∀ i < s.used, (t.entries i).device = (s.entries i).device ∧
    (t.entries i).snapshot = (s.entries i).snapshot
  owner : ∀ i, claimed s i → some i ≠ r → (t.entries i).owner = (s.entries i).owner
  roles : s.rolesKind ≠ 0 → roles t = roles s
  lastClaim : ∀ i, claimed s i → lastClaim i t.log = lastClaim i s.log
  log : ∀ m ∈ s.log, m ∈ t.log

theorem Moves.refl (s : State) : Moves none s s :=
  ⟨le_rfl, le_rfl, fun _ h => .inr ⟨h, rfl⟩, fun _ _ _ => rfl, fun _ _ => ⟨rfl, rfl⟩, fun _ _ _ => rfl,
    fun _ => rfl, fun _ _ => rfl, fun _ h => h⟩

theorem Moves.claimed {r : Option Nat} (h : Moves r s t) (hi : claimed s i) (hr : some i ≠ r) :
    claimed t i := by
  obtain ⟨hlt, ho⟩ := claimed_iff.1 hi
  exact claimed_iff.2 ⟨hlt.trans_le h.used, h.owner i hi hr ▸ ho⟩

theorem Moves.trans {r : Option Nat} (h₁ : Moves r s t) (h₂ : Moves r t u)
    (hc : ∀ i, BlkAuthority.claimed s i → BlkAuthority.lastClaim i u.log = BlkAuthority.lastClaim i t.log) :
    Moves r s u where
  device i hi :=
    have h := h₂.device i (hi.trans_le h₁.used)
    ⟨h.1.trans (h₁.device i hi).1, h.2.trans (h₁.device i hi).2⟩
  owner i hi hr := (h₂.owner i (h₁.claimed hi hr) hr).trans (h₁.owner i hi hr)
  used := h₁.used.trans h₂.used
  epoch := h₁.epoch.trans h₂.epoch
  generation i hi := by
    rcases h₂.generation i hi with h | ⟨hlt, he⟩
    · exact .inl (h₁.epoch.trans_lt h)
    · rw [he]
      exact h₁.generation i hlt
  frozen i hi hp := by
    have h := h₁.frozen i hi hp
    rw [h₂.frozen i (hi.trans_le h₁.used) (h ▸ hp), h]
  roles hk := by
    have h := h₁.roles hk
    have hkind : t.rolesKind = s.rolesKind := congrArg Prod.fst h
    rw [h₂.roles (hkind ▸ hk), h]
  lastClaim i hi := (hc i hi).trans (h₁.lastClaim i hi)
  log m hm := h₂.log m (h₁.log m hm)

theorem Moves.same (hu : t.used = s.used) (hep : t.epoch = s.epoch) (he : t.entries = s.entries)
    (hr : s.rolesKind ≠ 0 → BlkAuthority.roles t = BlkAuthority.roles s) (hl : t.log = s.log) :
    Moves none s t where
  used := hu.ge
  epoch := hep.ge
  generation i hi := .inr ⟨hu ▸ hi, by rw [he]⟩
  frozen i _ _ := by rw [he]
  device i _ := by
    rw [he]
    exact ⟨rfl, rfl⟩
  owner i _ _ := by rw [he]
  roles := hr
  lastClaim i _ := by rw [hl]
  log m hm := hl ▸ hm

theorem Moves.mark (s : State) (hm : m.Quiet) : Moves none s (s.mark m) :=
  { Moves.refl s with
    lastClaim := fun i _ => lastClaim_cons hm i
    log := fun _ h => .tail _ h }

theorem Moves.poison (s : State) (i : Nat) : Moves none s (s.poison i) where
  used := le_rfl
  epoch := le_rfl
  generation j hj := .inr ⟨hj, by rw [(poison_fields s i j).2.2.2.2]⟩
  frozen j _ hp := by
    by_cases hji : j = i
    · subst hji
      show (s.setEntry j { s.entries j with poisoned := true }).entries j = s.entries j
      rw [setEntry_same, ← hp]
    · exact setEntry_of_ne hji
  device j _ := ⟨(poison_fields s i j).1, (poison_fields s i j).2.2.2.1⟩
  owner j _ _ := (poison_fields s i j).2.1
  roles _ := rfl
  lastClaim _ _ := rfl
  log _ h := h

theorem Moves.place {n : Nat} (hn : ∀ j < n, j ≠ i → j < s.used) (hle : s.used ≤ n)
    (hp : i < s.used → (s.entries i).poisoned = false)
    (he : i < s.used → e.device = (s.entries i).device ∧ e.snapshot = (s.entries i).snapshot ∧
      e.owner = (s.entries i).owner) : Moves none s (place s n i e) where
  used := hle
  epoch := Nat.le_succ _
  generation j hj := by
    by_cases hji : j = i
    · rw [hji, place_same]
      exact .inl (Nat.lt_succ_self _)
    · rw [place_of_ne hji]
      exact .inr ⟨hn j hj hji, rfl⟩
  frozen j hj hpj := by
    refine place_of_ne fun hji => ?_
    subst hji
    exact nomatch hpj.symm.trans (hp hj)
  device j hj := by
    by_cases hji : j = i
    · subst hji
      rw [place_same]
      exact ⟨(he hj).1, (he hj).2.1⟩
    · rw [place_of_ne hji]
      exact ⟨rfl, rfl⟩
  owner j hj _ := by
    by_cases hji : j = i
    · subst hji
      rw [place_same]
      exact (he (claimed_iff.1 hj).1).2.2
    · rw [place_of_ne hji]
  roles _ := rfl
  lastClaim _ _ := rfl
  log _ h := .tail _ h

theorem Moves.bump (s : State) (hp : (s.entries i).poisoned = false) : Moves none s (bump s i).1 := by
  by_cases h : s.epoch = UINT64_MAX
  · rw [bump_exhausted h]
    exact .poison s i
  · rw [bump_eq h]
    exact .place (fun _ hj _ => hj) le_rfl (fun _ => hp) fun _ => ⟨rfl, rfl, rfl⟩

theorem Moves.assign (s : State) (hp : (s.entries i).poisoned = false) (owner : Nat)
    (src : Source × Source) : Moves (some i) s (s.setEntry i ((s.entries i).assign owner src)) where
  used := le_rfl
  epoch := le_rfl
  generation j hj := .inr ⟨hj, by rw [(assign_fields s i owner src j).2.1]⟩
  frozen j _ hpj := setEntry_of_ne fun hji => nomatch (hji ▸ hpj).symm.trans hp
  device j _ := ⟨(assign_fields s i owner src j).1, (assign_fields s i owner src j).2.2.2⟩
  owner j _ hr := by rw [setEntry_of_ne fun hji => hr (congrArg some hji)]
  roles _ := rfl
  lastClaim _ _ := rfl
  log _ h := h

end Moves
section Calls

variable {src : Source × Source} {reviewed : Identity}

theorem Moves.dev (s : State) (f : DevId → Device) : Moves none s { s with dev := f } :=
  .same rfl rfl rfl (fun _ => rfl) rfl

end Calls
section Guarded

end Guarded

/-! ### What holds of every call -/

section Obeys

variable {mutation busy : Bool} {p : Source} {drv : Driver} {a : Event} {lba n : Nat}

/-- The source is as it was when it was pinned. -/
def Unchanged (s : State) (p : Source) : Prop :=
  match p.archive with
  | some k => Names s k p.identity ∧ .snapshot (s.slots k).info (s.slots k).data ∈ s.log
  | none => ∃ i < s.used, p.whole = some (s.entries i).device ∧ observed s i = true ∧
      (s.entries i).poisoned = false ∧ p.identity = (s.entries i).identity ∧
        ¬ChangedSince (s.entries i).device p.identity s.log

def RolesUnchanged (s : State) : Prop :=
  s.rolesKind = 1 ∧ Unchanged s s.bootRole ∧ Unchanged s s.systemRole ∨
    s.rolesKind = 2 ∧ s.origin = some s.externalOrigin

/-- The device was claimed by `owner` as `id`, and nothing that the claim rests on has changed. -/
structure Granted (s : State) (owner c : Nat) (id : Identity) : Prop where
  claimed : claimed s c
  claim : lastClaim c s.log = some (owner, id, (s.entries c).sources)
  device : observed s c = true ∧ (s.entries c).poisoned = false
  sources : Unchanged s (s.entries c).sources.1 ∧ Unchanged s (s.entries c).sources.2
  roles : RolesUnchanged s

/-- The call uses the driver of a claimed device. -/
def Drives (s : State) (owner c : Nat) (id : Identity) (drv : Driver) : Event → Prop
  | .io owner' c' id' lba n busy drv' =>
    (owner', c', id', drv') = (owner, c, id, drv) ∧ reaches s owner' c' id' lba n busy = true
  | .flush owner' c' id' busy drv' =>
    (owner', c', id', drv') = (owner, c, id, drv) ∧ held s owner' c' id' busy = true
  | _ => False

/-- The call enters the device for ordinary I/O. -/
def Enters (d : DevId) (mutation : Bool) : Event → Prop
  | .ordinary d' mutation' .. => (d', mutation') = (d, mutation)
  | .markMounted d' => (d', true) = (d, mutation)
  | _ => False

structure Obeys (s : State) (a : Event) : Prop where
  /-- ordinary I/O does not enter a claimed device, nor change a source -/
  ordinary : ∀ d mutation, Enters d mutation a → (call s a).2 = true → ∀ i, claimed s i →
    (s.entries i).device ≠ parents s BLK_MAX_DEVICES d ∧
      (mutation = true → ∀ p ∈ (s.entries i).srcs, p.whole ≠ some (parents s BLK_MAX_DEVICES d))
  /-- the driver is called for the owner of the claim only -/
  driver : ∀ owner c id drv, Drives s owner c id drv a → Granted s owner c id
  inside : ∀ owner c id lba n busy drv, a = .io owner c id lba n busy drv →
    reaches s owner c id lba n busy = true → n ≠ 0 ∧ lba + n ≤ (s.dev (s.entries c).device).sectors
  /-- an error or a changed device poisons the claim, for ever -/
  poisons : ∀ owner c id drv, Drives s owner c id drv a →
    drv.rc ≠ 0 ∨ observed (step s a) c = false → ((step s a).entries c).poisoned = true
  frozen : ∀ i < s.used, (s.entries i).poisoned = true → (step s a).entries i = s.entries i
  /-- a device has its old generation, or one that was never given out -/
  fresh : ∀ i < (step s a).used, ((step s a).entries i).identity.generation ∉ mints s.log ∨
    i < s.used ∧ ((step s a).entries i).identity.generation = (s.entries i).identity.generation
  roles : s.rolesKind ≠ 0 → roles (step s a) = roles s
  /-- a call that fails changes nothing, unless it is the driver that failed -/
  refused : (call s a).2 = false → (∀ owner c id drv, ¬Drives s owner c id drv a) →
    s.epoch ≠ UINT64_MAX → (step s a).entries = s.entries ∧ (step s a).used = s.used ∧
      BlkAuthority.roles (step s a) = BlkAuthority.roles s ∧
      ∀ k, ((step s a).slots k).refs = (s.slots k).refs ∧
        (live s k = true → (step s a).slots k = s.slots k)
  /-- only its owner gives a claim up, and till then it and its snapshots stay -/
  released : ∀ i, claimed s i → ¬claimed (step s a) i →
    a = .release (s.entries i).owner i (s.entries i).identity
  kept : ∀ i, claimed s i → claimed (step s a) i →
    (step s a).entries i = { s.entries i with poisoned := ((step s a).entries i).poisoned } ∧
      ∀ p ∈ (s.entries i).srcs, ∀ k, p.archive = some k →
        live (step s a) k = true ∧ ((step s a).slots k).info = (s.slots k).info ∧
          ((step s a).slots k).data = (s.slots k).data

end Obeys
section Sound

variable {mutation busy : Bool} {p : Source} {drv : Driver} {a : Event} {lba n : Nat}

theorem Drives.held (h : Drives s owner c id drv a) : ∃ busy, held s owner c id busy = true ∧
    call s a = afterDriver s c drv := by
  cases a with
  | io owner' c' id' lba n busy drv' =>
    obtain ⟨he, hr⟩ := h
    cases he
    exact ⟨busy, (reaches_spec hr).1, if_pos hr⟩
  | flush owner' c' id' busy drv' =>
    obtain ⟨he, hr⟩ := h
    cases he
    exact ⟨busy, hr, if_pos hr⟩
  | _ => exact h.elim

theorem Enters.entered (h : Enters d mutation a) (hc : (call s a).2 = true) : enter s d mutation = true := by
  -- where the device is not entered, the call answers no
  have hno : ∀ {x : State}, (if enter s d mutation then (x, true) else (s, false)).2 = true →
      enter s d mutation = true := fun {_} hx => by
    split at hx
    case isTrue he => exact he
    case isFalse => exact nomatch hx
  cases a with
  | ordinary d' mutation' after result changed =>
    cases h
    exact hno hc
  | markMounted d' =>
    cases h
    exact hno hc
  | _ => exact h.elim

/-- Where the answer is no, the state is as it was. -/
def Refuses (s : State) (r : State × Bool) : Prop := r.2 = false → r.1 = s

theorem Refuses.ite {p : Prop} [Decidable p] {x y : State × Bool} (hx : Refuses s x) (hy : Refuses s y) :
    Refuses s (if p then x else y) := by
  split
  · exact hx
  · exact hy

theorem run_inv (hi : Inv s) (as : List Event) : Inv (as.foldl step s) := by
  induction as generalizing s with
  | nil => exact hi
  | cons a as ih => exact ih (step_inv hi a)

end Sound
/-! ### A run -/

section Sample

def sampleLocator : Locator := ⟨0, 0, 0, 0, 0, 0, 0, 0, 0, 0, 0, 0, 0, 0, 0, [], 0, 0⟩

def sampleDisk (priv : Nat) : Device :=
  ⟨512, 100, 0, none, BLK_F_FLUSH, priv, 1, 2, 3, 0, 0, 0, 0, sampleLocator⟩

def sampleIdentity (wholeId generation : Nat) : Identity := ⟨wholeId, generation, 100, 512, BLK_F_FLUSH⟩

def sampleSource : Source := ⟨some 2, none, sampleIdentity 12 2⟩

def sample : State where
  dev _ := sampleDisk 0
  entries _ := ⟨0, sampleIdentity 0 0, sampleDisk 0, 0, (sampleSource, sampleSource), false⟩
  used := 0
  epoch := 0
  bootRole := ⟨none, none, sampleIdentity 0 0⟩
  systemRole := ⟨none, none, sampleIdentity 0 0⟩
  rolesKind := 0
  externalOrigin := ⟨0, 0, 0, 0, 0, sampleLocator, sampleLocator, 0, 0⟩
  slots _ := deadSlot
  origin := none
  sourceEpoch := 0
  log := []

theorem sample_start : Start sample := ⟨rfl, rfl, rfl, fun _ => rfl, rfl, rfl, rfl⟩

/-- Disk 1 is claimed with disk 2 as its source, and written; disk 3 has the boot roles. -/
def sampleRun : List Event :=
  [.fill 1 (sampleDisk 1), .fill 2 (sampleDisk 2), .fill 3 (sampleDisk 3),
    .register 1 [11], .register 2 [12], .register 3 [13], .bindBootRoles 3 3, .pinSource 2,
    .claimTarget 7 1 (sampleIdentity 11 1) (sampleSource, sampleSource) false,
    .io 7 0 (sampleIdentity 11 1) 99 1 false ⟨0, sampleDisk 1⟩,
    .ordinary 1 false (sampleDisk 1) 0 false, .ordinary 2 false (sampleDisk 2) 0 false,
    .ordinary 2 true (sampleDisk 2) 0 true, .io 7 0 (sampleIdentity 11 1) 99 2 false ⟨0, sampleDisk 1⟩,
    .release 7 0 (sampleIdentity 11 1), .ordinary 2 true (sampleDisk 2) 0 true]

end Sample

end Win98Modern.BlkAuthority
