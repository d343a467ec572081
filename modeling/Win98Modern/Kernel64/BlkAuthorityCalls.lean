import Win98Modern.Kernel64.BlkAuthoritySteps
import Mathlib.Algebra.Order.BigOperators.Group.Finset

/-!
# The calls keep the invariant
-/

namespace Win98Modern.BlkAuthority

open List

variable {s t : State} {d : DevId} {i j k c owner : Nat} {id : Identity} {e : Entry} {m : Mark}

/-! ### Marks and entries -/

section Keep

/-- A mark that neither claims nor opens a snapshot. -/
def Mark.Quiet : Mark → Prop
  | .claim .. | .snapshot .. => False
  | _ => True

theorem lastClaim_cons {l : List Mark} (hm : m.Quiet) (c : Nat) : lastClaim c (m :: l) = lastClaim c l := by
  cases m with
  | claim | snapshot => exact hm.elim
  | mint | pin | change => rfl

theorem snapshots_cons {l : List Mark} (hm : m.Quiet) : snapshots (m :: l) = snapshots l := by
  cases m with
  | claim | snapshot => exact hm.elim
  | mint | pin | change => rfl

/-- A step that leaves claims and snapshots keeps the invariant. -/
theorem Inv.keep (hi : Inv s) (hid : Identities t) (h : SameClaims s t) (hslots : t.slots = s.slots)
    (hepoch : t.sourceEpoch = s.sourceEpoch)
    (hident : ∀ i, claimed s i → (t.entries i).identity = (s.entries i).identity)
    (hlog : ∀ i, lastClaim i t.log = lastClaim i s.log)
    (hsnap : BlkAuthority.snapshots t.log = BlkAuthority.snapshots s.log)
    (hmem : ∀ m ∈ s.log, m ∈ t.log) : Inv t where
  identities := hid
  exclusive := hi.exclusive.congr h
  snapshots := hi.snapshots.congr h hslots hepoch (fun _ _ h => hmem _ h) hsnap
  recorded := hi.recorded.congr h hident hlog

theorem Inv.mark (hi : Inv s) (hm : m.Quiet) (hid : Identities (s.mark m)) : Inv (s.mark m) :=
  hi.keep hid (.refl rfl rfl) rfl rfl (fun _ _ => rfl) (lastClaim_cons hm) (snapshots_cons hm)
    fun _ h => .tail _ h

theorem Inv.pin (hi : Inv s) (h : i < s.used) :
    Inv (s.mark (.pin (s.entries i).device (s.entries i).identity)) :=
  hi.mark trivial (hi.identities.mark rfl nofun fun d id hm => by
    injection hm with hd hid
    exact ⟨i, h, hd, hid ▸ le_rfl⟩)

theorem Inv.dev (hi : Inv s) {f : DevId → Device} (hid : Identities { s with dev := f }) :
    Inv { s with dev := f } :=
  hi.keep hid (.refl rfl rfl) rfl rfl (fun _ _ => rfl) (fun _ => rfl) rfl fun _ h => h

theorem Inv.poison (hi : Inv s) (i : Nat) : Inv (s.poison i) :=
  hi.keep (identities_poison hi.identities i)
    (.of_entries rfl fun j => ⟨(poison_fields s i j).1, (poison_fields s i j).2.1, (poison_fields s i j).2.2.1⟩)
    rfl rfl (fun j _ => (poison_fields s i j).2.2.2.2) (fun _ => rfl) rfl fun _ h => h

theorem bump_lastClaim (i c : Nat) : lastClaim c (bump s i).1.log = lastClaim c s.log := by
  unfold bump
  split <;> rfl

theorem bump_snapshots (i : Nat) : snapshots (bump s i).1.log = snapshots s.log := by
  unfold bump
  split <;> rfl

theorem bump_log (i : Nat) (h : m ∈ s.log) : m ∈ (bump s i).1.log := by
  unfold bump
  split
  · exact h
  · exact .tail _ h

theorem bump_claims (s : State) (i : Nat) : SameClaims s (bump s i).1 :=
  .of_entries bump_used fun j => ⟨(bump_fields s i j).1, (bump_fields s i j).2.1, (bump_fields s i j).2.2.1⟩

theorem Inv.bump (hi : Inv s) (h : i < s.used) (ho : (s.entries i).owner = 0) : Inv (bump s i).1 :=
  hi.keep (identities_bump hi.identities h) (bump_claims s i) bump_slots bump_sourceEpoch
    (fun j hj => by
      have hne : j ≠ i := fun hji => (claimed_iff.1 hj).2 (hji ▸ ho)
      rw [bump_of_ne hne])
    (bump_lastClaim i) (bump_snapshots i) fun _ h => bump_log i h

end Keep

/-! ### Slots -/

section Slots

theorem retained_pos (hc : claimed s i) {p : Source} (hp : p ∈ (s.entries i).srcs)
    (hk : p.archive = some k) : 0 < retained s k := by
  obtain ⟨hi, ho⟩ := claimed_iff.1 hc
  refine Finset.sum_pos' (fun _ _ => Nat.zero_le _) ⟨i, Finset.mem_range.2 hi, ?_⟩
  unfold holds
  rw [if_neg ho]
  exact length_pos_of_mem (mem_filter.2 ⟨hp, decide_eq_true hk⟩)

theorem Snapshots.live_of_named (hs : Snapshots s) (hc : claimed s i) {p : Source}
    (hp : p ∈ (s.entries i).srcs) (hk : p.archive = some k) (ht : Counted t (retained s)) :
    live t k = true :=
  ht.live (live_iff.1 (slotEqual_iff.1 (hs.named i hc p hp k hk)).1).1 (retained_pos hc hp hk)

theorem SlotStep.identities (h : SlotStep s t) (hi : Identities s) : Identities t :=
  hi.congr ⟨h.used, h.dev, h.epoch, fun _ => by rw [h.entries], fun _ => by rw [h.entries],
      fun _ => by rw [h.entries], fun _ => by rw [h.entries]⟩
    (by rw [h.log]) (fun d id hm => hi.pinned d id (h.log ▸ hm)) fun _ _ hc => h.log ▸ hc

theorem SlotStep.claims (h : SlotStep s t) : SameClaims s t := .refl h.used h.entries

/-- So does one that changes references as the claims say. -/
theorem Inv.slotStep (hi : Inv s) (h : SlotStep s t) (hc : Counted t (retained s)) : Inv t where
  identities := h.identities hi.identities
  exclusive := hi.exclusive.congr h.claims
  snapshots :=
    { named := fun i hcl p hp k hk => by
        rw [h.claims.claimed] at hcl
        rw [h.entries] at hp
        exact h.names (hi.snapshots.named i hcl p hp k hk) (hi.snapshots.live_of_named hcl hp hk hc)
      refs := fun k hk => by
        rw [h.claims.retained]
        exact hc k hk
      taken := fun k hk => by
        obtain ⟨hl, hinfo, hdata⟩ := h.kept k hk
        rw [h.log, hinfo, hdata]
        exact hi.snapshots.taken k hl
      minted := by
        rw [h.log, h.sourceEpoch]
        exact hi.snapshots.minted }
  recorded := hi.recorded.congr h.claims (fun _ _ => by rw [h.entries]) fun _ => by rw [h.log]

theorem archiveClose_inv (hi : Inv s) (owner k : Nat) (review : Info) :
    Inv (archiveClose s owner k review).1 := by
  dsimp only [archiveClose]
  split
  case isFalse => exact hi
  case isTrue hg =>
    obtain ⟨ho, hname, hown⟩ := hg
    have hl := (slotEqual_iff.1 hname).1
    have hrefs := hi.snapshots.refs k (live_iff.1 hl).1
    rw [if_neg (hown ▸ ho)] at hrefs
    have hspec := dropRef_spec (x := { s.slots k with owner := 0 })
      (fun l hlt _ => hi.snapshots.refs l hlt) hl rfl rfl (by
        show (s.slots k).refs = 0 + retained s k + 1
        omega)
    exact hi.slotStep hspec.2 hspec.1

/-- A snapshot is opened in a free slot. -/
theorem archiveOpen_inv (hi : Inv s) (owner : Nat) (found : Option Found) :
    Inv (archiveOpen s owner found).1 := by
  unfold archiveOpen
  split
  case h_2 => exact hi
  case h_1 p f k _ hfind =>
    have hfree : (s.slots k).refs = 0 := by simpa using List.find?_some hfind
    have hk : k < ARCHIVE_SOURCE_SLOTS := mem_range.1 (mem_of_find?_eq_some hfind)
    have hnone : retained s k = 0 := by
      have := hi.snapshots.refs k hk
      omega
    split
    case isTrue => exact hi
    case isFalse ho =>
      have ho := (not_or.1 ho).1
      split
      case h_1 =>
        refine hi.slotStep ⟨rfl, rfl, rfl, rfl, rfl, rfl, fun l hl => ?_⟩
          (counted_setSlot (fun l hl _ => hi.snapshots.refs l hl) (by rw [hnone]; rfl))
        obtain ⟨hlt, hr⟩ := live_iff.1 hl
        by_cases hlk : l = k
        · rw [hlk, setSlot_same] at hr
          exact absurd rfl hr
        · rw [setSlot_of_ne hlk] at hr ⊢
          exact ⟨live_iff.2 ⟨hlt, hr⟩, rfl, rfl⟩
      case h_2 id _ =>
        let info : Info := ⟨id, s.sourceEpoch + 1, f.data.length, f.sha256, p.archive⟩
        let x : Slot := ⟨owner, 1, info, f.data⟩
        let t := (({ s with sourceEpoch := s.sourceEpoch + 1 } : State).setSlot k x).mark
          (.snapshot info f.data)
        show Inv t
        have hcl : SameClaims s t := .refl rfl rfl
        have hsame : ∀ l, l ≠ k → t.slots l = s.slots l := fun l hl => setSlot_of_ne hl
        have hnew : t.slots k = x := setSlot_same
        refine ⟨hi.identities.congr ⟨rfl, rfl, rfl, fun _ => rfl, fun _ => rfl, fun _ => rfl, fun _ => rfl⟩
          rfl (fun d id hm => hi.identities.pinned d id ((mem_cons.1 hm).resolve_left nofun))
          (fun _ _ hc => hc.resolve_left fun h => nomatch h.1), hi.exclusive.congr hcl,
          ⟨?_, ?_, ?_, ⟨?_, ?_⟩⟩, hi.recorded.congr hcl (fun _ _ => rfl) fun _ => rfl⟩
        · intro i (hc : claimed s i) q hq l hl
          -- no claim names the free slot
          have hne : l ≠ k := by
            rintro rfl
            exact absurd (retained_pos hc hq hl) (hnone ▸ Nat.lt_irrefl 0)
          have hn := hi.snapshots.named i hc q hq l hl
          obtain ⟨hlive, hrest⟩ := slotEqual_iff.1 hn
          refine slotEqual_iff.2 ⟨live_iff.2 ⟨(live_iff.1 hlive).1, ?_⟩, ?_⟩
          · rw [hsame l hne]
            exact (live_iff.1 hlive).2
          · rw [hsame l hne]
            exact hrest
        · intro l hl
          rw [hcl.retained]
          by_cases hlk : l = k
          · rw [hlk, hnew, hnone]
            exact (if_neg ho).symm
          · rw [hsame l hlk]
            exact hi.snapshots.refs l hl
        · intro l hl
          obtain ⟨hlt, hr⟩ := live_iff.1 hl
          by_cases hlk : l = k
          · rw [hlk, hnew]
            exact .head _
          · rw [hsame l hlk] at hr ⊢
            exact .tail _ (hi.snapshots.taken l (live_iff.2 ⟨hlt, hr⟩))
        · exact pairwise_cons.2 ⟨fun g hg => Nat.lt_succ_of_le (hi.snapshots.minted.2 g hg),
            hi.snapshots.minted.1⟩
        · intro g hg
          rcases mem_cons.1 hg with h | h
          · exact h.le
          · exact Nat.le_succ_of_le (hi.snapshots.minted.2 g h)

end Slots
/-! ### Devices -/

section Devices

theorem parents_congr (h : ∀ d, (t.dev d).parent = (s.dev d).parent) (n : Nat) (d : DevId) :
    parents t n d = parents s n d := by
  induction n generalizing d with
  | zero => rfl
  | succ n ih =>
    unfold parents
    rw [h]
    cases (s.dev d).parent with
    | none => rfl
    | some p => exact ih p

theorem setDev_parent (s : State) (d d' : DevId) (after : Device) :
    ((s.setDev d after).dev d').parent = (s.dev d').parent := by
  by_cases h : d' = d
  · rw [h, setDev_same]
  · rw [setDev_of_ne h]

theorem register_eq (s : State) (e : Entry) (h : s.epoch ≠ UINT64_MAX) :
    (bump (s.setEntry s.used e) s.used).1 = place s s.used s.used e := by
  rw [bump_eq (s := s.setEntry s.used e) h]
  unfold renewed
  rw [setEntry_same]
  dsimp only [place, State.setEntry, State.mark]
  rw [Function.update_idem]

theorem place_claims (s : State) (ho : e.owner = 0) : SameClaims s (place s (s.used + 1) s.used e) := by
  have hsame : ∀ i, claimed s i → (place s (s.used + 1) s.used e).entries i = s.entries i :=
    fun i hc => place_of_ne (claimed_iff.1 hc).1.ne
  refine ⟨fun i => ?_, fun i hc => by rw [hsame i hc], fun i hc => by rw [hsame i hc],
    fun i hc => by rw [hsame i hc], fun k => ?_⟩
  · rw [Bool.eq_iff_iff, claimed_iff, claimed_iff]
    show i < s.used + 1 ∧ _ ↔ _
    by_cases hi : i = s.used
    · rw [hi, place_same]
      exact ⟨fun h => absurd ho h.2, fun h => absurd h.1 (Nat.lt_irrefl _)⟩
    · rw [place_of_ne hi]
      exact and_congr_left' ⟨fun h => Nat.lt_of_le_of_ne (Nat.le_of_lt_succ h) hi, Nat.lt_succ_of_lt⟩
  · show ∑ i ∈ Finset.range (s.used + 1), _ = ∑ i ∈ Finset.range s.used, _
    rw [Finset.sum_range_succ, place_same]
    have hnew : holds (e.renew (s.epoch + 1)) k = 0 := if_pos ho
    rw [hnew, Nat.add_zero]
    refine Finset.sum_congr rfl fun i hi => ?_
    rw [place_of_ne (Finset.mem_range.1 hi).ne]

theorem register_inv (hi : Inv s) (d : DevId) (ids : List Nat) : Inv (register s d ids).1 := by
  unfold register
  dsimp only
  split
  case isTrue => exact hi
  case isFalse hroot =>
    split
    case isTrue => exact hi
    case isFalse hfree =>
      obtain ⟨_, hfree⟩ := not_or.1 hfree
      obtain ⟨hnone, hepoch⟩ := not_or.1 hfree
      have hdist := entry_none (Option.not_isSome_iff_eq_none.1 hnone)
        (Option.not_isSome_iff_eq_none.1 (not_or.1 hroot).1) (Bool.not_eq_true _ ▸ (not_or.1 hroot).2)
      split
      case isTrue => exact hi
      case isFalse =>
        split
        case h_1 => exact hi
        case h_2 id _ =>
          rw [register_eq s _ hepoch]
          refine hi.keep (identities_place hi.identities (fun j hj hne =>
              Nat.lt_of_le_of_ne (Nat.le_of_lt_succ hj) hne) (Nat.le_succ _) (fun j hj _ => hdist j hj)
              (Option.not_isSome_iff_eq_none.1 (not_or.1 hroot).1)
              (fun h => absurd h (Nat.lt_irrefl _)) (Nat.lt_succ_self _))
            (place_claims s rfl) rfl rfl (fun i hc => ?_) (fun _ => rfl) rfl fun _ h => .tail _ h
          rw [place_of_ne (claimed_iff.1 hc).1.ne]

/-- A device that may be entered is unclaimed and as it was registered. -/
theorem enter_spec {mutation : Bool} (h : enter s d mutation = true) : ∃ i, i < s.used ∧
    (s.entries i).device = parents s BLK_MAX_DEVICES d ∧ observed s i = true ∧
      (s.entries i).owner = 0 ∧ (s.entries i).poisoned = false ∧
      (mutation = true → protectedSource s (parents s BLK_MAX_DEVICES d) = false) := by
  unfold enter at h
  split at h
  case h_1 => exact nomatch h
  case h_2 i he =>
    obtain ⟨hi, hd, _⟩ := entry_some he
    obtain ⟨ho, hown, hp, hm⟩ := of_decide_eq_true h
    exact ⟨i, hi, hd, ho, hown, hp, hd ▸ hm⟩

theorem leave_inv (hi : Inv s) (h : i < s.used) (hd : (s.entries i).device = parents s BLK_MAX_DEVICES d)
    (ho : (s.entries i).owner = 0) (result : Int) (changed : Bool) : Inv (leave s d result changed) := by
  unfold leave
  split
  case isFalse => exact hi
  case isTrue =>
    have honly : ∀ j < s.used, (s.entries j).device = parents s BLK_MAX_DEVICES d → j = i :=
      fun j hj hdj => hi.identities.distinct j i hj h (hdj.trans hd.symm)
    split
    case h_1 hw =>
      -- the driver made the device a partition
      refine hi.mark trivial (identities_change hi.identities fun j hj hdj => .inr (.inl ?_))
      unfold wholeEntry at hw
      rw [← hdj] at hw
      cases hobs : observed s j with
      | false => rfl
      | true =>
        rw [hi.identities.entry_eq hj (observed_iff.1 hobs).2.1] at hw
        exact nomatch hw
    case h_2 j hw =>
      obtain ⟨hj, hdj, _⟩ := entry_some hw
      obtain rfl := honly j hj hdj
      have hb := hi.bump hj ho
      refine hb.mark trivial (identities_change hb.identities fun l hl hdl => ?_)
      rw [(bump_fields s j l).1] at hdl
      obtain rfl := honly l (bump_used (s := s) ▸ hl) hdl
      have hstale := bump_stale hi.identities l
      rw [hd] at hstale
      exact hstale.imp_right .inr

theorem setDev_inv (hi : Inv s) (after : Device)
    (h : ∀ j < s.used, (s.entries j).device = d → observed s j = true) : Inv (s.setDev d after) :=
  hi.dev (identities_setDev hi.identities after h)

theorem ordinary_inv (hi : Inv s) (d : DevId) (mutation : Bool) (after : Device) (result : Int)
    (changed : Bool) : Inv (ordinary s d mutation after result changed).1 := by
  unfold ordinary
  split
  case isFalse => exact hi
  case isTrue he =>
    obtain ⟨i, hlt, hd, hobs, ho, _⟩ := enter_spec he
    have ht := setDev_inv (d := parents s BLK_MAX_DEVICES d) hi after fun j hj hdj => by
      rw [hi.identities.distinct j i hj hlt (hdj.trans hd.symm)]
      exact hobs
    exact leave_inv ht hlt (hd.trans (parents_congr (setDev_parent s _ · after) _ d).symm) ho result changed

theorem markMounted_inv (hi : Inv s) (d : DevId) : Inv (markMounted s d).1 := by
  unfold markMounted
  split
  case isFalse => exact hi
  case isTrue he =>
    obtain ⟨i, hlt, hd, hobs, _⟩ := enter_spec he
    refine setDev_inv hi _ fun j hj hdj => ?_
    have hroot := hi.identities.parent j hj
    rw [parents_of_root (hdj ▸ hroot)] at hd
    rw [hi.identities.distinct j i hj hlt (hdj.trans hd.symm)]
    exact hobs

theorem fill_inv (hi : Inv s) (d : DevId) (desc : Device) : Inv (fill s d desc) := by
  have hid := identities_fill hi.identities d desc
  unfold fill at hid ⊢
  split
  case isTrue => exact hi
  case isFalse h =>
    rw [if_neg h] at hid
    exact hi.dev hid

theorem afterDriver_inv (hi : Inv s) (h : c < s.used) (hobs : observed s c = true) (drv : Driver) :
    Inv (afterDriver s c drv).1 := by
  have ht := setDev_inv (d := (s.entries c).device) hi drv.after fun j hj hdj => by
    rw [hi.identities.distinct j c hj h hdj]
    exact hobs
  dsimp only [afterDriver]
  split
  · exact ht.poison c
  · exact ht

/-- What `held` has checked. -/
theorem held_spec {busy : Bool} (h : held s owner c id busy = true) : c < s.used ∧ owner ≠ 0 ∧
    (s.entries c).owner = owner ∧ (s.entries c).poisoned = false ∧ observed s c = true ∧
      id = (s.entries c).identity ∧ rolesOk s = true ∧ targetExcluded s (s.entries c).device = false ∧
      pinOk s (s.entries c).sources.1 = true ∧ pinOk s (s.entries c).sources.2 = true := by
  obtain ⟨h1, h2, h3, h4, h5, h6, h7, h8, h9, h10, _⟩ := of_decide_eq_true h
  exact ⟨h1, h2, h3, h4, h5, h6, h7, h8, h9, h10⟩

theorem reaches_spec {lba n : Nat} {busy : Bool} (h : reaches s owner c id lba n busy = true) :
    held s owner c id busy = true ∧ n ≠ 0 ∧ lba + n ≤ (s.dev (s.entries c).device).sectors := by
  obtain ⟨hh, hn, _, hlt, hle⟩ := of_decide_eq_true h
  exact ⟨hh, hn, by omega⟩

theorem io_inv (hi : Inv s) (owner c : Nat) (id : Identity) (lba n : Nat) (busy : Bool) (drv : Driver) :
    Inv (io s owner c id lba n busy drv).1 := by
  unfold io
  split
  case isFalse => exact hi
  case isTrue h =>
    have hh := held_spec (reaches_spec h).1
    exact afterDriver_inv hi hh.1 hh.2.2.2.2.1 drv

theorem flush_inv (hi : Inv s) (owner c : Nat) (id : Identity) (busy : Bool) (drv : Driver) :
    Inv (flush s owner c id busy drv).1 := by
  unfold flush
  split
  case isFalse => exact hi
  case isTrue h =>
    have hh := held_spec h
    exact afterDriver_inv hi hh.1 hh.2.2.2.2.1 drv

end Devices
/-! ### Claims -/

section Claims

variable {src : Source × Source} {reviewed : Identity} {busy : Bool} {p : Source}

def Entry.assign (e : Entry) (owner : Nat) (src : Source × Source) : Entry :=
  { e with owner := owner, sources := src }

theorem assign_fields (s : State) (i owner : Nat) (src : Source × Source) : ∀ j,
    ((s.setEntry i ((s.entries i).assign owner src)).entries j).device = (s.entries j).device ∧
      ((s.setEntry i ((s.entries i).assign owner src)).entries j).identity = (s.entries j).identity ∧
      ((s.setEntry i ((s.entries i).assign owner src)).entries j).poisoned = (s.entries j).poisoned ∧
      ((s.setEntry i ((s.entries i).assign owner src)).entries j).snapshot = (s.entries j).snapshot :=
  forall_setEntry (P := fun j e => e.device = (s.entries j).device ∧
      e.identity = (s.entries j).identity ∧ e.poisoned = (s.entries j).poisoned ∧
      e.snapshot = (s.entries j).snapshot) ⟨rfl, rfl, rfl, rfl⟩ fun _ _ => ⟨rfl, rfl, rfl, rfl⟩

theorem identities_assign (hs : Identities s) (i owner : Nat) (src : Source × Source) :
    Identities (s.setEntry i ((s.entries i).assign owner src)) := by
  have hf := assign_fields s i owner src
  exact hs.congr ⟨rfl, rfl, rfl, fun j => (hf j).1, fun j => (hf j).2.1, fun j => (hf j).2.2.1,
    fun j => (hf j).2.2.2⟩ rfl hs.pinned fun _ _ h => h

theorem protectedSource_false (h : protectedSource s d = false) (hj : claimed s j)
    (hp : p ∈ (s.entries j).srcs) : p.whole ≠ some d := by
  intro hw
  refine any_eq_false.1 h j (mem_range.2 (claimed_iff.1 hj).1) (decide_eq_true ⟨hj, ?_⟩)
  rcases mem_pair.1 hp with rfl | rfl
  · exact .inl hw
  · exact .inr hw

theorem deviceOk_spec (h : deviceOk s d id = true) : ∃ i, i < s.used ∧ (s.entries i).device = d ∧
    observed s i = true ∧ (s.entries i).owner = 0 ∧ (s.entries i).poisoned = false ∧
      id = (s.entries i).identity := by
  unfold deviceOk at h
  split at h
  case h_1 i he =>
    obtain ⟨hi, hd, _⟩ := entry_some he
    obtain ⟨h1, h2, h3, h4⟩ := of_decide_eq_true h
    exact ⟨i, hi, hd, h1, h2, h3, h4⟩
  case h_2 => exact nomatch h

/-- A source that is pinned is a snapshot, or a device. -/
theorem pinOk_spec (h : pinOk s p = true) :
    (∃ k, p.archive = some k ∧ p.whole = none ∧ Names s k p.identity) ∨
      (∃ d, p.archive = none ∧ p.whole = some d ∧ deviceOk s d p.identity = true) := by
  unfold pinOk at h
  split at h
  case h_1 k hk =>
    obtain ⟨hw, _, _, hn⟩ := of_decide_eq_true h
    exact .inl ⟨k, hk, hw, hn⟩
  case h_2 hk =>
    split at h
    case h_1 d hd => exact .inr ⟨d, hk, hd, h⟩
    case h_2 => exact nomatch h

theorem pinOk_unclaimed (hs : Identities s) (h : pinOk s p = true) (hc : claimed s j) :
    p.whole ≠ some (s.entries j).device := by
  intro hw
  obtain ⟨hj, hown⟩ := claimed_iff.1 hc
  rcases pinOk_spec h with ⟨_, _, hnone, _⟩ | ⟨d, _, hd, hok⟩
  · exact nomatch hnone.symm.trans hw
  · obtain ⟨i, hi, hdev, _, ho, _⟩ := deviceOk_spec hok
    obtain rfl := hs.distinct i j hi hj (hdev.trans (Option.some.inj (hd.symm.trans hw)))
    exact hown ho

theorem eligible_spec (h : eligible s i src busy = true) : (s.entries i).owner = 0 ∧
    protectedSource s (s.entries i).device = false ∧ pinOk s src.1 = true ∧ pinOk s src.2 = true ∧
      some (s.entries i).device ≠ src.1.whole ∧ some (s.entries i).device ≠ src.2.whole := by
  obtain ⟨_, h2, _, h4, _, _, _, _, _, _, _, _, _, _, _, h5, h6, _, _, h7, h8, _⟩ := of_decide_eq_true h
  exact ⟨h2, h4, h5, h6, h7, h8⟩

/-- A claim is made: the sources are retained. -/
def claimAs (s : State) (i owner : Nat) (reviewed : Identity) (src : Source × Source) : State :=
  (s.setEntry i ((s.entries i).assign owner src)).mark (.claim i owner reviewed src)

/-- The claim is made after both sources are retained. -/
theorem claimAs_inv (hi : Inv s) (hlt : i < s.used) (he : eligible s i src busy = true) (ho : owner ≠ 0)
    (hrev : reviewed = (s.entries i).identity) (hstep : SlotStep s t)
    (hn₁ : ∀ k, src.1.archive = some k → Names s k src.1.identity)
    (hn₂ : ∀ k, src.2.archive = some k → Names s k src.2.identity)
    (hc : Counted t fun k => retained s k + refsOf src.1 k + refsOf src.2 k) :
    Inv (claimAs t i owner reviewed src) := by
  obtain ⟨hown, hprot, hp₁, hp₂, hne₁, hne₂⟩ := eligible_spec he
  have hent : t.entries = s.entries := hstep.entries
  have hother : ∀ j, j ≠ i → (claimAs t i owner reviewed src).entries j = s.entries j :=
    fun j hj => (setEntry_of_ne hj).trans (congrFun hent j)
  have hself : (claimAs t i owner reviewed src).entries i = (s.entries i).assign owner src :=
    setEntry_same.trans (by rw [hent])
  have hdev : ∀ j, ((claimAs t i owner reviewed src).entries j).device = (s.entries j).device :=
    fun j => (assign_fields t i owner src j).1.trans (by rw [hent])
  have hcl : ∀ j, j ≠ i → claimed (claimAs t i owner reviewed src) j → claimed s j := by
    intro j hj h
    obtain ⟨hlt', hown'⟩ := claimed_iff.1 h
    rw [hother j hj] at hown'
    exact claimed_iff.2 ⟨hstep.used ▸ hlt', hown'⟩
  have hret : ∀ k, retained (claimAs t i owner reviewed src) k =
      retained s k + refsOf src.1 k + refsOf src.2 k := by
    intro k
    have hset := retained_setEntry (s := t) (hstep.used.symm ▸ hlt) ((t.entries i).assign owner src) k
    have hold : holds (t.entries i) k = 0 := by
      rw [hent]
      exact if_pos hown
    rw [hold, holds_of_owner (e := (t.entries i).assign owner src) ho, hstep.claims.retained,
      Nat.add_zero, ← Nat.add_assoc] at hset
    exact hset
  have hcounted : Counted (claimAs t i owner reviewed src) (retained (claimAs t i owner reviewed src)) := by
    intro k hk
    rw [hret k]
    exact hc k hk
  refine ⟨?_, ?_, ⟨?_, hcounted, ?_, ?_⟩, ?_⟩
  · exact (identities_assign (hstep.identities hi.identities) i owner src).mark rfl nofun nofun
  · intro j l hj hl p hp
    rw [hdev]
    by_cases hli : l = i
    · rw [hli, hself] at hp
      by_cases hji : j = i
      · rw [hji]
        rcases mem_pair.1 hp with rfl | rfl
        exacts [hne₁.symm, hne₂.symm]
      · rcases mem_pair.1 hp with rfl | rfl
        exacts [pinOk_unclaimed hi.identities hp₁ (hcl j hji hj), pinOk_unclaimed hi.identities hp₂ (hcl j hji hj)]
    · rw [hother l hli] at hp
      by_cases hji : j = i
      · rw [hji]
        exact protectedSource_false hprot (hcl l hli hl) hp
      · exact hi.exclusive j l (hcl j hji hj) (hcl l hli hl) p hp
  · intro j hj p hp k hk
    have hname : Names s k p.identity := by
      by_cases hji : j = i
      · rw [hji, hself] at hp
        rcases mem_pair.1 hp with rfl | rfl
        exacts [hn₁ k hk, hn₂ k hk]
      · rw [hother j hji] at hp
        exact hi.snapshots.named j (hcl j hji hj) p hp k hk
    have hlive := hcounted.live (live_iff.1 (slotEqual_iff.1 hname).1).1 (retained_pos hj hp hk)
    exact hstep.names hname hlive
  · intro k hk
    obtain ⟨hl, hinfo, hdata⟩ := hstep.kept k hk
    show _ ∈ Mark.claim i owner reviewed src :: t.log
    rw [hstep.log]
    refine .tail _ ?_
    show Mark.snapshot (t.slots k).info (t.slots k).data ∈ s.log
    rw [hinfo, hdata]
    exact hi.snapshots.taken k hl
  · show (snapshots t.log).Pairwise _ ∧ ∀ g ∈ snapshots t.log, g ≤ t.sourceEpoch
    rw [hstep.log, hstep.sourceEpoch]
    exact hi.snapshots.minted
  · intro j hj
    show lastClaim j (Mark.claim i owner reviewed src :: t.log) = _
    by_cases hji : j = i
    · rw [hji, hself, lastClaim, if_pos rfl, hrev]
      rfl
    · rw [hother j hji, lastClaim, if_neg (Ne.symm hji), hstep.log]
      exact hi.recorded j (hcl j hji hj)

theorem claimTarget_cases (s : State) (owner : Nat) (d : DevId) (reviewed : Identity)
    (src : Source × Source) (busy : Bool) :
    claimTarget s owner d reviewed src busy = (s, none) ∨
      ∃ i, entry s d = some i ∧ owner ≠ 0 ∧ eligible s i src busy = true ∧
        reviewed = (s.entries i).identity ∧ (retainSource s owner src.1).2 = true ∧
        (retainSource (retainSource s owner src.1).1 owner src.2).2 = true ∧
        claimTarget s owner d reviewed src busy =
          (claimAs (retainSource (retainSource s owner src.1).1 owner src.2).1 i owner reviewed src, some i) := by
  unfold claimTarget
  cases he : entry s d with
  | none => exact .inl rfl
  | some i =>
    dsimp only
    split
    case isFalse => exact .inl rfl
    case isTrue hg =>
      cases h₁ : (retainSource s owner src.1).2 with
      | false => exact .inl (if_pos rfl)
      | true =>
        cases h₂ : (retainSource (retainSource s owner src.1).1 owner src.2).2 with
        | false =>
          left
          rw [if_neg (by decide), if_pos rfl, releaseSource_retainSource h₁]
        | true => exact .inr ⟨i, rfl, hg.1, hg.2.1, hg.2.2, rfl, rfl, rfl⟩

theorem claimTarget_inv (hi : Inv s) (owner : Nat) (d : DevId) (reviewed : Identity)
    (src : Source × Source) (busy : Bool) : Inv (claimTarget s owner d reviewed src busy).1 := by
  rcases claimTarget_cases s owner d reviewed src busy with h | ⟨i, he, ho, helig, hrev, h₁, h₂, h⟩
  · rw [h]
    exact hi
  · rw [h]
    obtain ⟨hn₁, hs₁, hc₁⟩ := retainSource_spec hi.snapshots.refs h₁
    obtain ⟨hn₂, hs₂, hc₂⟩ := retainSource_spec hc₁ h₂
    refine claimAs_inv hi (entry_some he).1 helig ho hrev (hs₁.trans hs₂) hn₁ (fun k hk => ?_) hc₂
    obtain ⟨hl, hg, hb, hid⟩ := slotEqual_iff.1 (hn₂ k hk)
    obtain ⟨hl', hinfo, _⟩ := hs₁.kept k hl
    rw [hinfo] at hg hb hid
    exact slotEqual_iff.2 ⟨hl', hg, hb, hid⟩

end Claims
/-! ### Release -/

section Release

def freed (s : State) (c : Nat) : State :=
  let t := releaseSource (releaseSource (renewed s c) (s.entries c).sources.1) (s.entries c).sources.2
  t.setEntry c ((t.entries c).assign 0 (t.entries c).sources)

theorem release_cases (s : State) (owner c : Nat) (id : Identity) :
    release s owner c id = (s, false) ∨ release s owner c id = (s.poison c, false) ∧ s.epoch = UINT64_MAX ∨
      claimed s c ∧ (s.entries c).poisoned = false ∧ release s owner c id = (freed s c, true) := by
  unfold release
  dsimp only
  split
  case isFalse => exact .inl rfl
  case isTrue hg =>
    obtain ⟨hlt, ho, hown, hpois, _⟩ := hg
    right
    by_cases he : s.epoch = UINT64_MAX
    · rw [bump_exhausted he]
      exact .inl ⟨rfl, he⟩
    · rw [bump_eq he]
      exact .inr ⟨claimed_iff.2 ⟨hlt, hown ▸ ho⟩, hpois, rfl⟩

/-- A claim given up releases its sources, and changes nothing else. -/
theorem freed_spec (hi : Inv s) (hcl : claimed s c) : ∃ t, SlotStep (renewed s c) t ∧
    freed s c = t.setEntry c ((t.entries c).assign 0 (t.entries c).sources) ∧
      Counted t (retained (freed s c)) := by
  obtain ⟨hlt, hown⟩ := claimed_iff.1 hcl
  obtain ⟨p₁, hp₁⟩ : ∃ p, p = (s.entries c).sources.1 := ⟨_, rfl⟩
  obtain ⟨p₂, hp₂⟩ : ∃ p, p = (s.entries c).sources.2 := ⟨_, rfl⟩
  -- what remains when the claim is gone
  let f := retained ((renewed s c).setEntry c (((renewed s c).entries c).assign 0 (s.entries c).sources))
  have hf : ∀ k, retained s k = f k + refsOf p₂ k + refsOf p₁ k := by
    intro k
    have hset : f k + holds ((renewed s c).entries c) k = retained (renewed s c) k +
        holds (((renewed s c).entries c).assign 0 (s.entries c).sources) k :=
      retained_setEntry (s := renewed s c) hlt _ k
    have hnone : holds (((renewed s c).entries c).assign 0 (s.entries c).sources) k = 0 := if_pos rfl
    have hold : holds ((renewed s c).entries c) k = refsOf p₁ k + refsOf p₂ k := by
      rw [renewed_same, hp₁, hp₂]
      exact holds_of_owner (e := (s.entries c).renew (s.epoch + 1)) hown k
    have hsame : retained (renewed s c) k = retained s k := by
      have h := (bump_claims s c).retained k
      by_cases he : s.epoch = UINT64_MAX
      · exact (SameClaims.of_entries rfl fun j => ⟨(renewed_fields s c j).1, (renewed_fields s c j).2.1,
          (renewed_fields s c j).2.2.1⟩ : SameClaims s (renewed s c)).retained k
      · rw [bump_eq he] at h
        exact h
    omega
  have hnamed : ∀ p ∈ (s.entries c).srcs, ∀ k, p.archive = some k → Names (renewed s c) k p.identity :=
    hi.snapshots.named c hcl
  have hc₁ : Counted (renewed s c) fun k => (fun k => f k + refsOf p₂ k) k + refsOf p₁ k := by
    intro k hk
    have hrefs := hi.snapshots.refs k hk
    rw [hf k] at hrefs
    exact hrefs
  obtain ⟨hd₁, hs₁⟩ := releaseSource_spec hc₁ (hnamed p₁ (by rw [hp₁]; exact .head _))
  have hn₂ : ∀ k, p₂.archive = some k → Names (releaseSource (renewed s c) p₁) k p₂.identity := by
    intro k hk
    have hname := hnamed p₂ (by rw [hp₂]; exact .tail _ (.head _)) k hk
    refine hs₁.names hname (hd₁.live (live_iff.1 (slotEqual_iff.1 hname).1).1 ?_)
    show 0 < f k + refsOf p₂ k
    rw [refsOf_of_archive hk, if_pos rfl]
    exact Nat.succ_pos _
  obtain ⟨hd₂, hs₂⟩ := releaseSource_spec hd₁ hn₂
  have hs := hs₁.trans hs₂
  obtain ⟨t, ht⟩ : ∃ t, t = releaseSource (releaseSource (renewed s c) p₁) p₂ := ⟨_, rfl⟩
  have heq : freed s c = t.setEntry c ((t.entries c).assign 0 (t.entries c).sources) := by
    rw [ht, hp₁, hp₂, freed]
  rw [← ht] at hs hd₂
  refine ⟨t, hs, heq, fun k hk => ?_⟩
  have hent : (freed s c).entries =
      ((renewed s c).setEntry c (((renewed s c).entries c).assign 0 (s.entries c).sources)).entries := by
    rw [heq, State.setEntry, State.setEntry, hs.entries, renewed_same]
    rfl
  have hused : (freed s c).used = s.used := by
    rw [heq]
    exact hs.used
  have hret : retained (freed s c) k = f k := by
    unfold retained
    rw [hent, hused]
    rfl
  rw [hret]
  exact hd₂ k hk

theorem freed_inv (hi : Inv s) (hcl : claimed s c) : Inv (freed s c) := by
  obtain ⟨t, hs, heq, hc⟩ := freed_spec hi hcl
  have hlt := (claimed_iff.1 hcl).1
  have hfree : ((freed s c).entries c).owner = 0 := by
    rw [heq, setEntry_same]
    rfl
  have hother : ∀ j, j ≠ c → (freed s c).entries j = s.entries j := by
    intro j hj
    rw [heq, setEntry_of_ne hj, hs.entries, renewed_of_ne hj]
  have hne : ∀ j, claimed (freed s c) j → j ≠ c := fun j hj hjc => (claimed_iff.1 hj).2 (hjc ▸ hfree)
  have hused : (freed s c).used = s.used := by
    rw [heq]
    exact hs.used
  have hold : ∀ j, claimed (freed s c) j → claimed s j := by
    intro j hj
    obtain ⟨hjlt, hown⟩ := claimed_iff.1 hj
    rw [hother j (hne j hj)] at hown
    exact claimed_iff.2 ⟨hused ▸ hjlt, hown⟩
  have hcounted : Counted (freed s c) (retained (freed s c)) := by
    intro k hk
    have hslots : (freed s c).slots = t.slots := by
      rw [heq]
      rfl
    rw [hslots]
    exact hc k hk
  refine ⟨?_, ?_, ⟨?_, hcounted, ?_, ?_⟩, ?_⟩
  · rw [heq]
    exact identities_assign (hs.identities (identities_renewed hi.identities hlt)) c 0 _
  · intro j l hj hl p hp
    rw [hother j (hne j hj)]
    rw [hother l (hne l hl)] at hp
    exact hi.exclusive j l (hold j hj) (hold l hl) p hp
  · intro j hj p hp k hk
    have hp' := hp
    rw [hother j (hne j hj)] at hp'
    have hname : Names (renewed s c) k p.identity := hi.snapshots.named j (hold j hj) p hp' k hk
    have hlive := hcounted.live (live_iff.1 (slotEqual_iff.1 hname).1).1 (retained_pos hj hp hk)
    rw [heq] at hlive ⊢
    exact hs.names hname hlive
  · intro k hk
    rw [heq] at hk ⊢
    obtain ⟨hl, hinfo, hdata⟩ := hs.kept k hk
    show Mark.snapshot (t.slots k).info (t.slots k).data ∈ t.log
    rw [hs.log, hinfo, hdata]
    exact .tail _ (hi.snapshots.taken k hl)
  · rw [heq]
    show (snapshots t.log).Pairwise _ ∧ ∀ g ∈ snapshots t.log, g ≤ t.sourceEpoch
    rw [hs.log, hs.sourceEpoch]
    exact hi.snapshots.minted
  · intro j hj
    have hlog : (freed s c).log = .mint (s.epoch + 1) :: s.log := by
      rw [heq]
      exact hs.log
    rw [hlog, hother j (hne j hj)]
    exact hi.recorded j (hold j hj)

theorem release_inv (hi : Inv s) (owner c : Nat) (id : Identity) : Inv (release s owner c id).1 := by
  rcases release_cases s owner c id with h | ⟨h, _⟩ | ⟨hcl, _, h⟩ <;> rw [h]
  · exact hi
  · exact hi.poison c
  · exact freed_inv hi hcl

end Release

/-! ### Every call -/

section Call

theorem bindBootRoles_inv (hi : Inv s) (boot system : DevId) : Inv (bindBootRoles s boot system).1 := by
  unfold bindBootRoles
  split
  case h_2 => exact hi
  case h_1 a b ha hb =>
    split
    case isTrue => exact hi
    case isFalse =>
      have hroles : Inv { s with bootRole := pinned s a, systemRole := pinned s b, rolesKind := 1 } :=
        hi.slotStep ⟨rfl, rfl, rfl, rfl, rfl, rfl, fun _ h => ⟨h, rfl, rfl⟩⟩ hi.snapshots.refs
      exact (hroles.pin (entry_some ha).1).pin (entry_some hb).1

theorem pinSource_inv (hi : Inv s) (d : DevId) : Inv (pinSource s d).1 := by
  unfold pinSource
  split
  case h_1 => exact hi
  case h_2 i he =>
    split
    case isTrue => exact hi.pin (entry_some he).1
    case isFalse => exact hi

theorem bindArchiveOrigin_inv (hi : Inv s) : Inv (bindArchiveOrigin s).1 := by
  unfold bindArchiveOrigin
  split
  case h_1 => exact hi
  case h_2 =>
    split
    case isTrue => exact hi
    case isFalse =>
      exact hi.slotStep ⟨rfl, rfl, rfl, rfl, rfl, rfl, fun _ h => ⟨h, rfl, rfl⟩⟩ hi.snapshots.refs

theorem bindOrigin_inv (hi : Inv s) (p : Provenance) (valid : Bool) : Inv (bindOrigin s p valid).1 := by
  unfold bindOrigin
  split
  case isTrue => exact hi
  case isFalse =>
    exact hi.slotStep ⟨rfl, rfl, rfl, rfl, rfl, rfl, fun _ h => ⟨h, rfl, rfl⟩⟩ hi.snapshots.refs

/-- **Every call keeps the invariant.** -/
theorem step_inv (hi : Inv s) (a : Event) : Inv (step s a) := by
  cases a with
  | fill d desc => exact fill_inv hi d desc
  | register d ids => exact register_inv hi d ids
  | ordinary d mutation after result changed => exact ordinary_inv hi d mutation after result changed
  | markMounted d => exact markMounted_inv hi d
  | bindBootRoles boot system => exact bindBootRoles_inv hi boot system
  | bindArchiveOrigin => exact bindArchiveOrigin_inv hi
  | bindOrigin p valid => exact bindOrigin_inv hi p valid
  | pinSource d => exact pinSource_inv hi d
  | pinArchive | review | check => exact hi
  | claimTarget owner d reviewed src busy => exact claimTarget_inv hi owner d reviewed src busy
  | io owner c id lba n busy drv => exact io_inv hi owner c id lba n busy drv
  | flush owner c id busy drv => exact flush_inv hi owner c id busy drv
  | release owner c id => exact release_inv hi owner c id
  | archiveOpen owner found => exact archiveOpen_inv hi owner found
  | archiveClose owner k info => exact archiveClose_inv hi owner k info

theorem start_inv (hs : Start s) : Inv s := by
  have hno : ∀ i, ¬claimed s i := fun i h => by
    have := (claimed_iff.1 h).1
    rw [hs.used] at this
    exact Nat.not_lt_zero _ this
  have hlt : ∀ {i}, ¬i < s.used := fun h => Nat.not_lt_zero _ (hs.used ▸ h)
  refine ⟨⟨fun _ _ h => absurd h hlt, fun _ h => absurd h hlt, fun _ h => absurd h hlt,
    fun _ _ h => absurd h hlt, ?_, ?_, fun _ h => absurd h hlt⟩, fun i _ h => absurd h (hno i),
    ⟨fun i h => absurd h (hno i), fun k _ => ?_, fun k h => ?_, ?_⟩, fun i h => absurd h (hno i)⟩
  · rw [hs.log]
    exact ⟨.nil, fun _ hx => by cases hx⟩
  · rw [hs.log]
    exact fun _ _ hx => by cases hx
  · rw [hs.slots, retained, hs.used]
    rfl
  · rw [live_iff, hs.slots] at h
    exact absurd rfl h.2
  · rw [hs.log]
    exact ⟨.nil, fun _ hx => by cases hx⟩

end Call

end Win98Modern.BlkAuthority
