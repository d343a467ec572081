import Win98Modern.Kernel64.BlkAuthorityInv

/-!
# What each change keeps
-/

namespace Win98Modern.BlkAuthority

open Function List

variable {s t : State} {d : DevId} {i j k c owner : Nat} {id : Identity} {e : Entry} {m : Mark}

/-! ### The claims -/

section Claims

structure SameClaims (s t : State) : Prop where
  claimed : ∀ i, claimed t i = claimed s i
  device : ∀ i, BlkAuthority.claimed s i → (t.entries i).device = (s.entries i).device
  owner : ∀ i, BlkAuthority.claimed s i → (t.entries i).owner = (s.entries i).owner
  sources : ∀ i, BlkAuthority.claimed s i → (t.entries i).sources = (s.entries i).sources
  retained : ∀ k, retained t k = retained s k

theorem SameClaims.of_entries (hu : t.used = s.used)
    (h : ∀ i, (t.entries i).device = (s.entries i).device ∧ (t.entries i).owner = (s.entries i).owner ∧
      (t.entries i).sources = (s.entries i).sources) : SameClaims s t where
  claimed i := by
    unfold BlkAuthority.claimed
    rw [hu, (h i).2.1]
  device i _ := (h i).1
  owner i _ := (h i).2.1
  sources i _ := (h i).2.2
  retained k := by
    unfold BlkAuthority.retained
    rw [hu]
    refine Finset.sum_congr rfl fun i _ => ?_
    unfold holds Entry.srcs
    rw [(h i).2.1, (h i).2.2]

theorem SameClaims.refl (hu : t.used = s.used) (he : t.entries = s.entries) : SameClaims s t :=
  .of_entries hu fun i => by simp [he]

theorem SameClaims.srcs (h : SameClaims s t) (hi : BlkAuthority.claimed s i) :
    (t.entries i).srcs = (s.entries i).srcs := by
  unfold Entry.srcs
  rw [h.sources i hi]

theorem slotEqual_congr (hslots : t.slots = s.slots) (k id generation bytes : Nat) :
    slotEqual t k id generation bytes = slotEqual s k id generation bytes := by
  unfold slotEqual live
  rw [hslots]

theorem Exclusive.congr (hs : Exclusive s) (h : SameClaims s t) : Exclusive t := by
  intro i j hi hj p hp
  rw [h.claimed] at hi hj
  rw [h.srcs hj] at hp
  rw [h.device i hi]
  exact hs i j hi hj p hp

theorem Snapshots.congr (hs : Snapshots s) (h : SameClaims s t) (hslots : t.slots = s.slots)
    (hepoch : t.sourceEpoch = s.sourceEpoch)
    (hlog : ∀ info data, .snapshot info data ∈ s.log → Mark.snapshot info data ∈ t.log)
    (hsnap : snapshots t.log = snapshots s.log) : Snapshots t where
  named i hi p hp k hk := by
    rw [h.claimed] at hi
    rw [h.srcs hi] at hp
    exact (slotEqual_congr hslots ..).trans (hs.named i hi p hp k hk)
  refs k hk := by
    rw [hslots, h.retained]
    exact hs.refs k hk
  taken k hk := by
    rw [hslots]
    have hlive : live t k = live s k := by
      unfold live
      rw [hslots]
    exact hlog _ _ (hs.taken k (hlive ▸ hk))
  minted := by
    rw [hsnap, hepoch]
    exact hs.minted

theorem Recorded.congr (hs : Recorded s) (h : SameClaims s t)
    (hid : ∀ i, claimed s i → (t.entries i).identity = (s.entries i).identity)
    (hlog : ∀ i, lastClaim i t.log = lastClaim i s.log) : Recorded t := by
  intro i hi
  rw [h.claimed] at hi
  rw [hlog, h.owner i hi, h.sources i hi, hid i hi]
  exact hs i hi

end Claims

/-! ### The identities -/

section Identities

/-- The devices and what the registry knows of them are the same. -/
structure SameIds (s t : State) : Prop where
  used : t.used = s.used
  dev : t.dev = s.dev
  epoch : t.epoch = s.epoch
  device : ∀ i, (t.entries i).device = (s.entries i).device
  identity : ∀ i, (t.entries i).identity = (s.entries i).identity
  poisoned : ∀ i, (t.entries i).poisoned = (s.entries i).poisoned
  snapshot : ∀ i, (t.entries i).snapshot = (s.entries i).snapshot

theorem observed_congr (hdev : t.dev (s.entries i).device = s.dev (s.entries i).device)
    (hd : (t.entries i).device = (s.entries i).device)
    (hs : (t.entries i).snapshot = (s.entries i).snapshot) : observed t i = observed s i := by
  simp only [observed, hd, hs, hdev]

/-- The identities rest on the entries, the devices and the marks. -/
theorem Identities.congr (hs : Identities s) (h : SameIds s t) (hmint : mints t.log = mints s.log)
    (hpin : ∀ d id, .pin d id ∈ t.log → ∃ i < s.used, (s.entries i).device = d ∧
      id.generation ≤ (s.entries i).identity.generation)
    (hchange : ∀ d id, ChangedSince d id t.log → ChangedSince d id s.log) : Identities t where
  distinct i j hi hj he := by
    rw [h.used] at hi hj
    rw [h.device, h.device] at he
    exact hs.distinct i j hi hj he
  parent i hi := by
    rw [h.used] at hi
    rw [h.dev, h.device]
    exact hs.parent i hi
  generation i hi := by
    rw [h.used] at hi
    rw [hmint, h.identity]
    exact hs.generation i hi
  generations i j hi hj he := by
    rw [h.used] at hi hj
    rw [h.identity, h.identity] at he
    exact hs.generations i j hi hj he
  minted := by
    rw [hmint, h.epoch]
    exact hs.minted
  pinned d id hmem := by
    obtain ⟨i, hi, hd, hg⟩ := hpin d id hmem
    exact ⟨i, h.used ▸ hi, (h.device i).trans hd, (h.identity i).symm ▸ hg⟩
  changed i hi id hc := by
    rw [h.used] at hi
    rw [h.device] at hc
    rw [h.poisoned, h.identity, observed_congr (congrFun h.dev _) (h.device i) (h.snapshot i)]
    exact hs.changed i hi id (hchange _ id hc)

theorem Identities.mark (hs : Identities s) (hm : mints [m] = []) (hc : ∀ d, m ≠ .change d)
    (hp : ∀ d id, m = .pin d id → ∃ i < s.used, (s.entries i).device = d ∧
      id.generation ≤ (s.entries i).identity.generation) : Identities (s.mark m) := by
  refine hs.congr ⟨rfl, rfl, rfl, fun _ => rfl, fun _ => rfl, fun _ => rfl, fun _ => rfl⟩ ?_ ?_ ?_
  · show mints ([m] ++ s.log) = _
    rw [mints, filterMap_append]
    exact congrArg (· ++ _) hm
  · intro d id hmem
    rcases mem_cons.1 hmem with h | h
    · exact hp d id h.symm
    · exact hs.pinned d id h
  · intro d id h
    exact h.resolve_left fun h => hc d h.1

/-- A driver may change a device that is as it was registered. -/
theorem identities_setDev (hs : Identities s) (after : Device)
    (hobs : ∀ i < s.used, (s.entries i).device = d → observed s i = true) :
    Identities (s.setDev d after) where
  distinct := hs.distinct
  parent i hi := by
    by_cases hd : (s.entries i).device = d
    · show ((s.setDev d after).dev (s.entries i).device).parent = none
      rw [hd, setDev_same, ← hd]
      exact hs.parent i hi
    · show ((s.setDev d after).dev (s.entries i).device).parent = none
      rw [setDev_of_ne hd]
      exact hs.parent i hi
  generation := hs.generation
  generations := hs.generations
  minted := hs.minted
  pinned := hs.pinned
  changed i hi id hc := by
    have h := hs.changed i hi id hc
    by_cases hd : (s.entries i).device = d
    · rw [hobs i hi hd] at h
      exact h.imp_right fun h => .inl (h.resolve_right nofun)
    · have : observed (s.setDev d after) i = observed s i :=
        observed_congr (setDev_of_ne hd) rfl rfl
      rw [this]
      exact h

theorem identities_fill (hs : Identities s) (d : DevId) (desc : Device) : Identities (fill s d desc) := by
  unfold fill
  split
  case isTrue => exact hs
  case isFalse hd =>
    have hne : ∀ i < s.used, (s.entries i).device ≠ d :=
      fun i hi he => hd ⟨i, mem_range.2 hi, he⟩
    have hdev : ∀ i < s.used,
        update s.dev d desc (s.entries i).device = s.dev (s.entries i).device :=
      fun i hi => update_of_ne (hne i hi) ..
    refine { hs with parent := fun i hi => ?_, changed := fun i hi id hc => ?_ }
    · show (update s.dev d desc (s.entries i).device).parent = none
      rw [hdev i hi]
      exact hs.parent i hi
    · rw [show observed { s with dev := update s.dev d desc } i = observed s i from
        observed_congr (hdev i hi) rfl rfl]
      exact hs.changed i hi id hc

theorem identities_poison (hs : Identities s) (i : Nat) : Identities (s.poison i) := by
  have hdev : ∀ j, ((s.poison i).entries j).device = (s.entries j).device :=
    forall_setEntry (P := fun j e => e.device = (s.entries j).device) rfl fun _ _ => rfl
  have hid : ∀ j, ((s.poison i).entries j).identity = (s.entries j).identity :=
    forall_setEntry (P := fun j e => e.identity = (s.entries j).identity) rfl fun _ _ => rfl
  have hsnap : ∀ j, ((s.poison i).entries j).snapshot = (s.entries j).snapshot :=
    forall_setEntry (P := fun j e => e.snapshot = (s.entries j).snapshot) rfl fun _ _ => rfl
  have hpois : ∀ j, (s.entries j).poisoned = true → ((s.poison i).entries j).poisoned = true :=
    forall_setEntry (P := fun j e => (s.entries j).poisoned = true → e.poisoned = true)
      (fun _ => rfl) fun _ _ h => h
  refine ⟨?_, ?_, ?_, ?_, hs.minted, ?_, ?_⟩
  · intro j l hj hl he
    rw [hdev, hdev] at he
    exact hs.distinct j l hj hl he
  · intro j hj
    rw [hdev]
    exact hs.parent j hj
  · intro j hj
    rw [hid]
    exact hs.generation j hj
  · intro j l hj hl he
    rw [hid, hid] at he
    exact hs.generations j l hj hl he
  · intro d id hmem
    obtain ⟨j, hj, hd, hg⟩ := hs.pinned d id hmem
    exact ⟨j, hj, (hdev j).trans hd, (hid j).symm ▸ hg⟩
  · intro j hj id hc
    rw [hdev] at hc
    rw [hid, show observed (s.poison i) j = observed s j from observed_congr rfl (hdev j) (hsnap j)]
    exact (hs.changed j hj id hc).imp_left (hpois j)

end Identities
/-! ### Generations -/

section Generations

def Entry.renew (e : Entry) (g : Nat) : Entry := { e with identity := { e.identity with generation := g } }

def place (s : State) (n i : Nat) (e : Entry) : State :=
  (({ s with epoch := s.epoch + 1, used := n } : State).setEntry i (e.renew (s.epoch + 1))).mark
    (.mint (s.epoch + 1))

/-- The state after a successful `bump`. -/
def renewed (s : State) (i : Nat) : State := place s s.used i (s.entries i)

/-- The generations are used up: the device is poisoned instead. -/
theorem bump_exhausted (h : s.epoch = UINT64_MAX) : bump s i = (s.poison i, false) := by
  unfold bump
  rw [if_pos h]

theorem bump_eq (h : s.epoch ≠ UINT64_MAX) : bump s i = (renewed s i, true) := by
  unfold bump
  rw [if_neg h]
  rfl

theorem renewed_same : (renewed s i).entries i = (s.entries i).renew (s.epoch + 1) := setEntry_same

theorem renewed_of_ne (h : j ≠ i) : (renewed s i).entries j = s.entries j := setEntry_of_ne h

theorem renewed_fields (s : State) (i : Nat) : ∀ j,
    ((renewed s i).entries j).device = (s.entries j).device ∧
      ((renewed s i).entries j).owner = (s.entries j).owner ∧
      ((renewed s i).entries j).sources = (s.entries j).sources ∧
      ((renewed s i).entries j).snapshot = (s.entries j).snapshot ∧
      ((renewed s i).entries j).poisoned = (s.entries j).poisoned :=
  forall_setEntry (P := fun j e => e.device = (s.entries j).device ∧ e.owner = (s.entries j).owner ∧
      e.sources = (s.entries j).sources ∧ e.snapshot = (s.entries j).snapshot ∧
      e.poisoned = (s.entries j).poisoned) ⟨rfl, rfl, rfl, rfl, rfl⟩ fun _ _ => ⟨rfl, rfl, rfl, rfl, rfl⟩

theorem poison_fields (s : State) (i : Nat) : ∀ j,
    ((s.poison i).entries j).device = (s.entries j).device ∧
      ((s.poison i).entries j).owner = (s.entries j).owner ∧
      ((s.poison i).entries j).sources = (s.entries j).sources ∧
      ((s.poison i).entries j).snapshot = (s.entries j).snapshot ∧
      ((s.poison i).entries j).identity = (s.entries j).identity :=
  forall_setEntry (P := fun j e => e.device = (s.entries j).device ∧ e.owner = (s.entries j).owner ∧
      e.sources = (s.entries j).sources ∧ e.snapshot = (s.entries j).snapshot ∧
      e.identity = (s.entries j).identity) ⟨rfl, rfl, rfl, rfl, rfl⟩ fun _ _ => ⟨rfl, rfl, rfl, rfl, rfl⟩

theorem ChangedSince.pinned {l : List Mark} : ChangedSince d id l → .pin d id ∈ l := by
  induction l with
  | nil => exact fun h => h.elim
  | cons m l ih => exact fun h => h.elim (fun h => .tail _ h.2) fun h => .tail _ (ih h)

theorem Identities.generation_le (hs : Identities s) (hj : j < s.used) :
    (s.entries j).identity.generation ≤ s.epoch :=
  hs.minted.2 _ (hs.generation j hj)

theorem place_same {n : Nat} : (place s n i e).entries i = e.renew (s.epoch + 1) := setEntry_same

theorem place_of_ne {n : Nat} (h : j ≠ i) : (place s n i e).entries j = s.entries j := setEntry_of_ne h

/-- A device gets a generation that was never given out. -/
theorem identities_place (hs : Identities s) {n : Nat} (hn : ∀ j < n, j ≠ i → j < s.used)
    (hle : s.used ≤ n) (hdist : ∀ j < s.used, j ≠ i → (s.entries j).device ≠ e.device)
    (hpar : (s.dev e.device).parent = none) (hold : i < s.used → e.device = (s.entries i).device)
    (hi : i < n) : Identities (place s n i e) := by
  have hgen : ∀ j < n, j ≠ i → ((place s n i e).entries j).identity.generation ≤ s.epoch := by
    intro j hj hne
    rw [place_of_ne hne]
    exact hs.generation_le (hn j hj hne)
  have hnew : ((place s n i e).entries i).identity.generation = s.epoch + 1 := by
    rw [place_same]
    rfl
  have hdev : ((place s n i e).entries i).device = e.device := by
    rw [place_same]
    rfl
  refine ⟨?_, ?_, ?_, ?_, ⟨?_, ?_⟩, ?_, ?_⟩
  · intro j l hj hl he
    by_cases hji : j = i <;> by_cases hli : l = i
    · rw [hji, hli]
    · rw [hji, hdev, place_of_ne hli] at he
      exact absurd he.symm (hdist l (hn l hl hli) hli)
    · rw [hli, hdev, place_of_ne hji] at he
      exact absurd he (hdist j (hn j hj hji) hji)
    · rw [place_of_ne hji, place_of_ne hli] at he
      exact hs.distinct j l (hn j hj hji) (hn l hl hli) he
  · intro j hj
    by_cases hji : j = i
    · rw [hji, hdev]
      exact hpar
    · rw [place_of_ne hji]
      exact hs.parent j (hn j hj hji)
  · intro j hj
    by_cases hji : j = i
    · rw [hji, hnew]
      exact .head _
    · rw [place_of_ne hji]
      exact .tail _ (hs.generation j (hn j hj hji))
  · intro j l hj hl he
    -- the new generation is no other entry's
    by_cases hji : j = i <;> by_cases hli : l = i
    · rw [hji, hli]
    · have := hgen l hl hli
      rw [← he, hji, hnew] at this
      omega
    · have := hgen j hj hji
      rw [he, hli, hnew] at this
      omega
    · rw [place_of_ne hji, place_of_ne hli] at he
      exact hs.generations j l (hn j hj hji) (hn l hl hli) he
  · exact pairwise_cons.2 ⟨fun g hg => Nat.lt_succ_of_le (hs.minted.2 g hg), hs.minted.1⟩
  · intro g hg
    rcases mem_cons.1 hg with h | h
    · exact h.le
    · exact Nat.le_succ_of_le (hs.minted.2 g h)
  · intro d id hmem
    obtain ⟨j, hj, hd, hg⟩ := hs.pinned d id ((mem_cons.1 hmem).resolve_left nofun)
    by_cases hji : j = i
    · subst hji
      exact ⟨j, hi, hdev.trans ((hold hj).trans hd), hnew ▸ Nat.le_succ_of_le (hg.trans (hs.generation_le hj))⟩
    · exact ⟨j, hj.trans_le hle, by rw [place_of_ne hji]; exact ⟨hd, hg⟩⟩
  · intro j hj id hc
    have hc := hc.resolve_left fun h => nomatch h.1
    by_cases hji : j = i
    · obtain ⟨l, hl, _, hg⟩ := hs.pinned _ id hc.pinned
      rw [hji, hnew]
      exact .inr (.inl (Nat.lt_succ_of_le (hg.trans (hs.generation_le hl))))
    · rw [place_of_ne hji] at hc ⊢
      rw [show observed (place s n i e) j = observed s j from
        observed_congr rfl (by rw [place_of_ne hji]) (by rw [place_of_ne hji])]
      exact hs.changed j (hn j hj hji) id hc

theorem identities_renewed (hs : Identities s) (hi : i < s.used) : Identities (renewed s i) :=
  identities_place hs (fun _ hj _ => hj) le_rfl (fun j hj hne he => hne (hs.distinct j i hj hi he))
    (hs.parent i hi) (fun _ => rfl) hi

theorem identities_bump (hs : Identities s) (hi : i < s.used) : Identities (bump s i).1 := by
  by_cases h : s.epoch = UINT64_MAX
  · rw [bump_exhausted h]
    exact identities_poison hs i
  · rw [bump_eq h]
    exact identities_renewed hs hi

theorem identities_change (hs : Identities s)
    (h : ∀ i < s.used, (s.entries i).device = d → (s.entries i).poisoned = true ∨
      observed s i = false ∨ ∀ id, .pin d id ∈ s.log → id.generation < (s.entries i).identity.generation) :
    Identities (s.mark (.change d)) :=
  { hs with
    generation := hs.generation
    pinned := fun d id hmem => hs.pinned d id ((mem_cons.1 hmem).resolve_left nofun)
    changed := fun i hi id hc => by
      rcases hc with ⟨hm, hpin⟩ | hc
      · obtain rfl : d = (s.entries i).device := Mark.change.inj hm
        rcases h i hi rfl with h | h | h
        · exact .inl h
        · exact .inr (.inr h)
        · exact .inr (.inl (h id hpin))
      · exact hs.changed i hi id hc }

/-- After a bump every pin is of an older generation, or the device is poisoned. -/
theorem bump_stale (hs : Identities s) (i : Nat) :
    ((bump s i).1.entries i).poisoned = true ∨
      ∀ id, .pin (s.entries i).device id ∈ (bump s i).1.log →
        id.generation < ((bump s i).1.entries i).identity.generation := by
  by_cases h : s.epoch = UINT64_MAX
  · left
    rw [bump_exhausted h]
    show ((s.setEntry i _).entries i).poisoned = true
    rw [setEntry_same]
  · right
    intro id hmem
    rw [bump_eq h] at hmem ⊢
    obtain ⟨j, hj, hd, hg⟩ := hs.pinned _ id ((mem_cons.1 hmem).resolve_left nofun)
    show id.generation < ((renewed s i).entries i).identity.generation
    rw [renewed_same]
    exact Nat.lt_succ_of_le (hg.trans (hs.generation_le hj))

theorem bump_fields (s : State) (i j : Nat) :
    ((bump s i).1.entries j).device = (s.entries j).device ∧
      ((bump s i).1.entries j).owner = (s.entries j).owner ∧
      ((bump s i).1.entries j).sources = (s.entries j).sources ∧
      ((bump s i).1.entries j).snapshot = (s.entries j).snapshot := by
  by_cases h : s.epoch = UINT64_MAX
  · rw [bump_exhausted h]
    have hf := poison_fields s i j
    exact ⟨hf.1, hf.2.1, hf.2.2.1, hf.2.2.2.1⟩
  · rw [bump_eq h]
    have hf := renewed_fields s i j
    exact ⟨hf.1, hf.2.1, hf.2.2.1, hf.2.2.2.1⟩

theorem bump_of_ne (h : j ≠ i) : (bump s i).1.entries j = s.entries j := by
  by_cases he : s.epoch = UINT64_MAX
  · rw [bump_exhausted he]
    exact setEntry_of_ne h
  · rw [bump_eq he]
    exact renewed_of_ne h

@[simp] theorem bump_used : (bump s i).1.used = s.used := by
  unfold bump
  split <;> rfl

@[simp] theorem bump_slots : (bump s i).1.slots = s.slots := by
  unfold bump
  split <;> rfl

@[simp] theorem bump_sourceEpoch : (bump s i).1.sourceEpoch = s.sourceEpoch := by
  unfold bump
  split <;> rfl

end Generations
/-! ### References to the snapshots -/

section References

variable {f : Nat → Nat} {p : Source} {x : Slot}

def refsOf (p : Source) (k : Nat) : Nat := if p.archive = some k then 1 else 0

theorem holds_of_owner (h : e.owner ≠ 0) (k : Nat) :
    holds e k = refsOf e.sources.1 k + refsOf e.sources.2 k := by
  unfold holds
  rw [if_neg h]
  show (List.filter _ [e.sources.1, e.sources.2]).length = _
  unfold refsOf
  by_cases h1 : e.sources.1.archive = some k <;> by_cases h2 : e.sources.2.archive = some k <;>
    simp [h1, h2]

theorem live_iff : live s k = true ↔ k < ARCHIVE_SOURCE_SLOTS ∧ (s.slots k).refs ≠ 0 := by
  simp [live]

theorem slotEqual_iff {id generation bytes : Nat} : slotEqual s k id generation bytes = true ↔
    live s k = true ∧ (s.slots k).info.generation = generation ∧ (s.slots k).info.bytes = bytes ∧
      (s.slots k).info.id = id := by
  simp [slotEqual]

/-- Only slots differ, and what is still live holds the same snapshot. -/
structure SlotStep (s t : State) : Prop where
  entries : t.entries = s.entries
  used : t.used = s.used
  dev : t.dev = s.dev
  epoch : t.epoch = s.epoch
  sourceEpoch : t.sourceEpoch = s.sourceEpoch
  log : t.log = s.log
  kept : ∀ k, live t k → live s k = true ∧ (t.slots k).info = (s.slots k).info ∧
    (t.slots k).data = (s.slots k).data

theorem SlotStep.refl (s : State) : SlotStep s s :=
  ⟨rfl, rfl, rfl, rfl, rfl, rfl, fun _ h => ⟨h, rfl, rfl⟩⟩

theorem SlotStep.trans {u : State} (h₁ : SlotStep s t) (h₂ : SlotStep t u) : SlotStep s u where
  entries := h₂.entries.trans h₁.entries
  used := h₂.used.trans h₁.used
  dev := h₂.dev.trans h₁.dev
  epoch := h₂.epoch.trans h₁.epoch
  sourceEpoch := h₂.sourceEpoch.trans h₁.sourceEpoch
  log := h₂.log.trans h₁.log
  kept k hk := by
    obtain ⟨hl, hi, hd⟩ := h₂.kept k hk
    obtain ⟨hl', hi', hd'⟩ := h₁.kept k hl
    exact ⟨hl', hi.trans hi', hd.trans hd'⟩

theorem SlotStep.names (h : SlotStep s t) (hn : Names s k id) (hl : live t k = true) : Names t k id := by
  obtain ⟨_, hi, _⟩ := h.kept k hl
  obtain ⟨_, hg, hb, hid⟩ := slotEqual_iff.1 hn
  refine slotEqual_iff.2 ⟨hl, ?_, ?_, ?_⟩ <;> rw [hi]
  exacts [hg, hb, hid]

theorem Counted.live (hc : Counted s f) (hk : k < ARCHIVE_SOURCE_SLOTS) (hf : 0 < f k) :
    live s k = true :=
  live_iff.2 ⟨hk, by rw [hc k hk]; omega⟩

theorem counted_setSlot (hc : ∀ l < ARCHIVE_SOURCE_SLOTS, l ≠ k →
      (s.slots l).refs = (if (s.slots l).owner = 0 then 0 else 1) + f l)
    (hx : x.refs = (if x.owner = 0 then 0 else 1) + f k) : Counted (s.setSlot k x) f := by
  intro l hl
  by_cases h : l = k
  · rw [h, setSlot_same]
    exact hx
  · rw [setSlot_of_ne h]
    exact hc l hl h

theorem slotStep_setSlot (hl : live s k = true)
    (hx : x.refs ≠ 0 → x.info = (s.slots k).info ∧ x.data = (s.slots k).data) :
    SlotStep s (s.setSlot k x) := by
  refine ⟨rfl, rfl, rfl, rfl, rfl, rfl, fun l h => ?_⟩
  obtain ⟨hlt, hr⟩ := live_iff.1 h
  by_cases hlk : l = k
  · rw [hlk, setSlot_same] at hr ⊢
    exact ⟨hl, hx hr⟩
  · rw [setSlot_of_ne hlk] at hr ⊢
    exact ⟨live_iff.2 ⟨hlt, hr⟩, rfl, rfl⟩

/-- One reference less, and the slot dies with the last. -/
theorem dropRef_spec (hc : ∀ l < ARCHIVE_SOURCE_SLOTS, l ≠ k →
      (s.slots l).refs = (if (s.slots l).owner = 0 then 0 else 1) + f l)
    (hl : live s k = true) (hinfo : x.info = (s.slots k).info) (hdata : x.data = (s.slots k).data)
    (hx : x.refs = (if x.owner = 0 then 0 else 1) + f k + 1) :
    Counted (dropRef s k x) f ∧ SlotStep s (dropRef s k x) := by
  unfold dropRef
  split
  case isTrue h1 =>
    refine ⟨counted_setSlot hc ?_, slotStep_setSlot hl fun h => absurd rfl h⟩
    show 0 = 0 + f k
    omega
  case isFalse h1 =>
    refine ⟨counted_setSlot hc ?_, slotStep_setSlot hl fun _ => ⟨hinfo, hdata⟩⟩
    show x.refs - 1 = (if x.owner = 0 then 0 else 1) + f k
    omega

theorem refsOf_of_archive (h : p.archive = some k) {l : Nat} : refsOf p l = if l = k then 1 else 0 := by
  unfold refsOf
  rw [h]
  by_cases hl : l = k
  · rw [if_pos hl, if_pos (congrArg some hl.symm)]
  · rw [if_neg hl, if_neg fun he => hl (Option.some.inj he).symm]

theorem refsOf_of_none (h : p.archive = none) {l : Nat} : refsOf p l = 0 := by
  unfold refsOf
  rw [h]
  rfl

/-- A source retained has one reference more. -/
theorem retainSource_spec (hc : Counted s f) (h : (retainSource s owner p).2 = true) :
    (∀ k, p.archive = some k → Names s k p.identity) ∧ SlotStep s (retainSource s owner p).1 ∧
      Counted (retainSource s owner p).1 fun k => f k + refsOf p k := by
  unfold retainSource at h ⊢
  cases hp : p.archive with
  | none =>
    refine ⟨nofun, SlotStep.refl s, fun k hk => ?_⟩
    show (s.slots k).refs = (if (s.slots k).owner = 0 then 0 else 1) + (f k + refsOf p k)
    rw [refsOf_of_none hp]
    exact hc k hk
  | some k =>
    rw [hp] at h
    dsimp only [archiveRetain] at h ⊢
    split at h
    case isFalse => exact nomatch h
    case isTrue hg =>
      rw [if_pos hg]
      obtain ⟨_, hname, _, _⟩ := hg
      have hl := (slotEqual_iff.1 hname).1
      refine ⟨fun l hl => Option.some.inj hl ▸ hname, slotStep_setSlot hl fun _ => ⟨rfl, rfl⟩,
        counted_setSlot (fun l hl hne => ?_) ?_⟩
      · rw [refsOf_of_archive hp, if_neg hne]
        exact hc l hl
      · rw [refsOf_of_archive hp, if_pos rfl]
        show (s.slots k).refs + 1 = _
        rw [hc k (live_iff.1 hl).1, Nat.add_assoc]

/-- A release takes back what a retain has done. -/
theorem releaseSource_retainSource (h : (retainSource s owner p).2 = true) :
    releaseSource (retainSource s owner p).1 p = s := by
  unfold retainSource at h ⊢
  unfold releaseSource
  cases hp : p.archive with
  | none => rfl
  | some k =>
    rw [hp] at h
    dsimp only [archiveRetain] at h ⊢
    split at h
    case isFalse => exact nomatch h
    case isTrue hg =>
      rw [if_pos hg]
      obtain ⟨ho, hname, hown, _⟩ := hg
      obtain ⟨hl, hgen, _, hid⟩ := slotEqual_iff.1 hname
      obtain ⟨hlt, hr⟩ := live_iff.1 hl
      have hown0 : (s.slots k).owner ≠ 0 := hown ▸ ho
      unfold archiveRelease
      rw [setSlot_same]
      dsimp only
      rw [if_pos ⟨slotEqual_iff.2 ⟨live_iff.2 ⟨hlt, by rw [setSlot_same]; exact Nat.succ_ne_zero _⟩,
        by rw [setSlot_same]; exact hgen, by rw [setSlot_same], by rw [setSlot_same]; exact hid⟩,
        by rw [if_neg hown0]; omega⟩]
      unfold dropRef
      rw [if_neg (by show (s.slots k).refs + 1 ≠ 1; omega)]
      show { s with slots := update (update s.slots k _) k (s.slots k) } = s
      rw [update_idem, update_eq_self]

/-- A source released has one reference less. -/
theorem releaseSource_spec (hc : Counted s fun k => f k + refsOf p k)
    (hp : ∀ k, p.archive = some k → Names s k p.identity) :
    Counted (releaseSource s p) f ∧ SlotStep s (releaseSource s p) := by
  unfold releaseSource
  cases ha : p.archive with
  | none =>
    refine ⟨fun k hk => ?_, SlotStep.refl s⟩
    have hrefs : (s.slots k).refs = (if (s.slots k).owner = 0 then 0 else 1) + (f k + refsOf p k) := hc k hk
    rw [refsOf_of_none ha] at hrefs
    exact hrefs
  | some k =>
    obtain ⟨hl, hgen, _, hid⟩ := slotEqual_iff.1 (hp k ha)
    have hk := (live_iff.1 hl).1
    have hrefs : (s.slots k).refs = (if (s.slots k).owner = 0 then 0 else 1) + (f k + refsOf p k) := hc k hk
    rw [refsOf_of_archive ha, if_pos rfl, ← Nat.add_assoc] at hrefs
    dsimp only [archiveRelease]
    rw [if_pos ⟨slotEqual_iff.2 ⟨hl, hgen, rfl, hid⟩, by omega⟩]
    refine dropRef_spec (fun l hl hne => ?_) hl rfl rfl hrefs
    have hother : (s.slots l).refs = (if (s.slots l).owner = 0 then 0 else 1) + (f l + refsOf p l) := hc l hl
    rw [refsOf_of_archive ha, if_neg hne] at hother
    exact hother

end References

end Win98Modern.BlkAuthority
