import Win98Modern.Kernel64.BlkPartEntries
import Mathlib.Data.List.GetD

/-!
# What a scan returns

`scan_correct`: the partitions of a scan are inside the device; those of a GPT are the entries of the
primary array if its header and checksum are right, else those of the backup, and no entry of an array
that fails its checks is returned.
-/

namespace Win98Modern.BlkPart

open List Option

variable {d : Disk} {c : Nat} {s t : Scan} {p : Part} {h : GptHdr} {g lba : Nat}

/-! ### Headers -/

/-- The rules for a header at `lba`, and that it is the one of the sector. -/
structure ValidHeader (d : Disk) (lba : Nat) (h : GptHdr) : Prop where
  onDisk : lba < d.sectors
  sector : ∃ b, d.read lba = some b ∧ h = hdrOf b ∧ bytes b 0 8 = signature ∧ rd32 b 8 = 0x00010000 ∧
    blkCrc32 0 (bytes (blanked b) 0 h.headerSize) = h.headerCrc
  size : 92 ≤ h.headerSize ∧ h.headerSize ≤ d.sectorSize
  myLba : h.myLba = lba
  entrySize : 128 ≤ h.entrySize ∧ h.entrySize % 8 = 0 ∧ h.entrySize ≤ d.sectorSize
  numEntries : h.numEntries ≠ 0 ∧ h.numEntries ≤ 4096
  placed : h.entriesLba ≠ 0 ∧ h.entriesLba + h.nsec d ≤ d.sectors ∧ h.entriesLba < d.sectors
  apart : lba < h.entriesLba ∨ h.entriesLba + h.nsec d ≤ lba
  usable : h.firstUsable ≤ h.lastUsable ∧ h.lastUsable < d.sectors

theorem ValidHeader.unique {h' : GptHdr} (hv : ValidHeader d lba h) (hv' : ValidHeader d lba h') : h = h' := by
  obtain ⟨b, hb, rfl, -⟩ := hv.sector
  obtain ⟨b', hb', rfl, -⟩ := hv'.sector
  rw [some.inj (hb.symm.trans hb')]

theorem of_ite_none {α β : Type} {c : Prop} [Decidable c] {a : α} {x : α × Option β} {y : β}
    (hx : (if c then (a, none) else x).2 = some y) : ¬c ∧ x.2 = some y := by
  by_cases hc : c
  · rw [if_pos hc] at hx
    exact nomatch hx
  · rw [if_neg hc] at hx
    exact ⟨hc, hx⟩

theorem gptHeader_some : (gptHeader d s lba).2 = some h ↔ ValidHeader d lba h := by
  constructor
  · intro hx
    obtain ⟨hlba, hx⟩ := of_ite_none hx
    cases hr : d.read lba with
    | none =>
      rw [hr] at hx
      exact nomatch hx
    | some b =>
      rw [hr] at hx
      obtain ⟨hsig, hx⟩ := of_ite_none hx
      obtain ⟨hrev, hx⟩ := of_ite_none hx
      obtain ⟨hsize, hx⟩ := of_ite_none hx
      obtain ⟨hcrc, hx⟩ := of_ite_none hx
      obtain ⟨hmy, hx⟩ := of_ite_none hx
      obtain ⟨hentry, hx⟩ := of_ite_none hx
      obtain ⟨hnum, hx⟩ := of_ite_none hx
      obtain ⟨hplaced, hx⟩ := of_ite_none hx
      obtain ⟨hapart, hx⟩ := of_ite_none hx
      obtain ⟨husable, hx⟩ := of_ite_none hx
      obtain rfl := some.inj hx
      exact ⟨by omega, ⟨b, hr, rfl, not_not.1 hsig, not_not.1 hrev, not_not.1 hcrc⟩, by omega, not_not.1 hmy,
        by omega, by omega, by omega, by omega, by omega⟩
  · intro hv
    obtain ⟨b, hr, rfl, hsig, hrev, hcrc⟩ := hv.sector
    have hlba := hv.onDisk
    have hsize := hv.size
    have hentry := hv.entrySize
    have hnum := hv.numEntries
    have hplaced := hv.placed
    have hapart := hv.apart
    have husable := hv.usable
    unfold gptHeader
    rw [if_neg (by omega), hr]
    dsimp only
    rw [if_neg (not_not.2 hsig), if_neg (not_not.2 hrev), if_neg (by omega), if_neg (not_not.2 hcrc),
      if_neg (not_not.2 hv.myLba), if_neg (by omega), if_neg (by omega), if_neg (by omega), if_neg (by omega),
      if_neg (by omega)]

theorem ite_out {β : Type} {c : Prop} [Decidable c] {x : Scan × Option β} (hx : x.1.out = s.out) :
    (if c then (s, none) else x).1.out = s.out := by
  split
  · rfl
  · exact hx

theorem gptHeader_out : (gptHeader d s lba).1.out = s.out := by
  refine ite_out ?_
  cases d.read lba with
  | none => rfl
  | some b => exact ite_out (ite_out (ite_out (ite_out (ite_out (ite_out (ite_out (ite_out (ite_out (ite_out rfl)))))))))

/-! ### Arrays -/

/-- The header obeys the rules, and the array can be read and has its checksum. -/
structure Valid (d : Disk) (lba : Nat) (h : GptHdr) : Prop where
  header : ValidHeader d lba h
  readable : Readable d h
  crc : blkCrc32 0 (bytes (array d h) 0 h.bytes) = h.entriesCrc

/-- The partitions of an array: its entries of non-zero type that are not empty and inside the device,
numbered, as many as there is room for. -/
def expected (d : Disk) (c : Nat) (h : GptHdr) (g : Nat) : List Part :=
  numbered 0 (((records d h g).reduceOption.filter fun p => Inside d p).take c)

theorem crcAt_nsec (hss : 0 < d.sectorSize) : crcAt d h (h.nsec d) = blkCrc32 0 (bytes (array d h) 0 h.bytes) := by
  unfold crcAt doneAt
  rw [Nat.min_eq_right (nsec_spec hss).1]

theorem entriesLoop_result (hss : 0 < d.sectorSize) :
    (entriesLoop d c h g (h.nsec d) (s, false) 0 h.entriesLba 0).2 =
      if Readable d h then some (blkCrc32 0 (bytes (array d h) 0 h.bytes)) else none := by
  have hloop := entriesLoop_crc (c := c) (h := h) (g := g) hss (h.nsec d) 0 (s, false) (by omega)
  rw [crcAt_zero, crcAt_nsec hss] at hloop
  rw [doneAt_zero, Nat.add_zero] at hloop
  rw [hloop]
  exact if_congr ⟨fun hall j hj => hall j hj (Nat.zero_le j), fun hall i hi _ => hall i hi⟩ rfl rfl

theorem gptEntries_spec (hss : 0 < d.sectorSize) (hs : s.out = []) :
    ((gptEntries d c s h g).2 = true ↔
        Readable d h ∧ blkCrc32 0 (bytes (array d h) 0 h.bytes) = h.entriesCrc) ∧
      ((gptEntries d c s h g).2 = false → (gptEntries d c s h g).1.out = []) := by
  have hloop := entriesLoop_result (c := c) (h := h) (g := g) (s := s) hss
  unfold gptEntries
  rw [hs, length_nil]
  generalize entriesLoop d c h g (h.nsec d) (s, false) 0 h.entriesLba 0 = r at hloop ⊢
  obtain ⟨t, o⟩ := r
  subst hloop
  by_cases hr : Readable d h
  · rw [if_pos hr]
    dsimp only
    split
    case isTrue hcrc => exact ⟨iff_of_false nofun fun hv => hcrc hv.2, fun _ => rfl⟩
    case isFalse hcrc => exact ⟨iff_of_true rfl ⟨hr, not_not.1 hcrc⟩, nofun⟩
  · rw [if_neg hr]
    exact ⟨iff_of_false nofun fun hv => hr hv.1, fun _ => rfl⟩

theorem gptEntries_loop (hok : (gptEntries d c s h g).2 = true) : (gptEntries d c s h g).1.out =
    (entriesLoop d c h g (h.nsec d) (s, false) 0 h.entriesLba 0).1.out := by
  unfold gptEntries at hok ⊢
  generalize entriesLoop d c h g (h.nsec d) (s, false) 0 h.entriesLba 0 = r at hok ⊢
  obtain ⟨t, o⟩ := r
  cases o with
  | none => exact nomatch hok
  | some crc =>
    dsimp only at hok ⊢
    split at hok
    case isTrue => exact nomatch hok
    case isFalse hcrc => rw [if_neg hcrc]

theorem gptEntries_out (hv : ValidHeader d lba h) (hal : Aligned d h) (hs : s.out = [])
    (hok : (gptEntries d c s h g).2 = true) :
    (gptEntries d c s h g).1.out = expected d c h g := by
  have hsize := hv.entrySize
  have hss : 0 < d.sectorSize := by omega
  have hr := ((gptEntries_spec hss hs).1.1 hok).1
  have hout := entriesLoop_out (c := c) (g := g) hal hsize.1 hsize.2.2 (h.nsec d) 0 0 (s, false) (by omega)
    fun i hi _ => hr i hi
  rw [doneAt_zero, Nat.add_zero, Nat.zero_mul, drop_zero] at hout
  have hfull : Full c (s, false) := nofun
  rw [gptEntries_loop hok, hout, foldl_addEntry _ hfull, foldl_push, hs]
  rfl

/-! ### What every partition satisfies -/

section All

variable {P : Part → Prop} {out : List Part}

theorem push_all (hall : ∀ q ∈ out, P q) (hp : Inside d p → ∀ n, P { p with index := n }) :
    ∀ q ∈ push d c out p, P q := by
  unfold push
  split
  case isTrue hin =>
    intro q hq
    rcases mem_append.1 hq with hq | hq
    · exact hall q hq
    · rw [mem_singleton.1 hq]
      exact hp hin.1 _
  case isFalse => exact hall

theorem add_all (hall : ∀ q ∈ s.out, P q) (hp : Inside d p → ∀ n, P { p with index := n }) :
    ∀ q ∈ (add d c s p).1.out, P q := by
  rw [add_out]
  exact push_all hall hp

theorem addEntry_all (os : List (Option Part)) (hos : ∀ p, some p ∈ os → Inside d p → ∀ n, P { p with index := n }) :
    ∀ {acc : Scan × Bool}, (∀ q ∈ acc.1.out, P q) → ∀ q ∈ (os.foldl (addEntry d c) acc).1.out, P q := by
  induction os with
  | nil => exact fun hall => hall
  | cons o os ih =>
    intro acc hall
    refine ih (fun p hp => hos p (mem_cons_of_mem _ hp)) ?_
    cases o with
    | none => exact hall
    | some p =>
      unfold addEntry
      dsimp only
      split
      case isTrue => exact hall
      case isFalse => exact add_all hall (hos p mem_cons_self)

def FromArray (d : Disk) (h : GptHdr) (g : Nat) (q : Part) : Prop :=
  ∃ buf, (∃ j < h.nsec d, d.read (h.entriesLba + j) = some buf) ∧ ∃ i p n, entryAt g buf i = some p ∧
    q = { p with index := n }

theorem entriesLoop_all (hss : 0 < d.sectorSize) (hP : ∀ q, Inside d q → FromArray d h g q → P q) (fuel : Nat) :
    ∀ (j crc : Nat) (acc : Scan × Bool), (∀ q ∈ acc.1.out, P q) →
      ∀ q ∈ (entriesLoop d c h g fuel acc (doneAt d h j) (h.entriesLba + j) crc).1.out, P q := by
  induction fuel with
  | zero => exact fun _ _ _ hall => hall
  | succ fuel ih =>
    intro j crc acc hall
    rw [entriesLoop]
    by_cases hlt : j < h.nsec d
    · have hjb := ((nsec_spec hss).2 j).2 hlt
      rw [if_pos ((doneAt_lt hss).2 hlt)]
      cases hr : d.read (h.entriesLba + j) with
      | none => exact hall
      | some buf =>
        dsimp only
        rw [(doneAt_succ hjb).2, Nat.add_assoc]
        refine ih (j + 1) _ _ (addEntry_all _ (fun p hp hin n => ?_) hall)
        obtain ⟨e, -, he⟩ := mem_map.1 hp
        exact hP _ hin ⟨buf, ⟨j, hlt, hr⟩, _, p, n, he, rfl⟩
    · rw [if_neg fun hd => hlt ((doneAt_lt hss).1 hd)]
      exact hall

theorem gptEntries_all (hss : 0 < d.sectorSize) (hs : s.out = [])
    (hP : ∀ q, Inside d q → FromArray d h g q → P q) : ∀ q ∈ (gptEntries d c s h g).1.out, P q := by
  have hall := entriesLoop_all (c := c) hss hP (h.nsec d) 0 0 (s, false)
    (fun q hq => absurd (hs ▸ hq) not_mem_nil)
  rw [doneAt_zero, Nat.add_zero] at hall
  unfold gptEntries
  rw [hs, length_nil]
  generalize entriesLoop d c h g (h.nsec d) (s, false) 0 h.entriesLba 0 = r at hall ⊢
  obtain ⟨t, o⟩ := r
  cases o with
  | none => exact fun q hq => absurd hq not_mem_nil
  | some crc =>
    dsimp only
    split
    case isTrue => exact fun q hq => absurd hq not_mem_nil
    case isFalse => exact hall

end All

/-! ### GPT -/

/-- The partitions that a valid array at `lba` gives. -/
structure FromHeader (d : Disk) (c lba g : Nat) (h : GptHdr) (out : List Part) : Prop where
  valid : Valid d lba h
  loop : ∃ s, s.out = [] ∧ out = (entriesLoop d c h g (h.nsec d) (s, false) 0 h.entriesLba 0).1.out
  all : ∀ q ∈ out, Inside d q ∧ FromArray d h g q
  exact : Aligned d h → out = expected d c h g

/-- One header and its array: they are valid and the partitions theirs, or nothing is kept. -/
theorem header_cases (lba g bit : Nat) (hs : s.out = []) :
    (∃ t h, gptHeader d s lba = (t, some h) ∧ t.out = [] ∧
      (((gptEntries d c (t.note bit) h g).2 = true ∧
          FromHeader d c lba g h (gptEntries d c (t.note bit) h g).1.out) ∨
        ((gptEntries d c (t.note bit) h g).2 = false ∧ (∀ h, ¬Valid d lba h) ∧
          (gptEntries d c (t.note bit) h g).1.out = []))) ∨
      ∃ t, gptHeader d s lba = (t, none) ∧ t.out = [] ∧ ∀ h, ¬Valid d lba h := by
  have hout : (gptHeader d s lba).1.out = s.out := gptHeader_out
  rcases hg : gptHeader d s lba with ⟨t, o⟩
  rw [hg, hs] at hout
  cases o with
  | none =>
    refine .inr ⟨t, rfl, hout, fun h hv => ?_⟩
    have hsome := (gptHeader_some (s := s)).2 hv.header
    rw [hg] at hsome
    exact nomatch hsome
  | some h =>
    have hv : ValidHeader d lba h := gptHeader_some.1 (congrArg Prod.snd hg)
    have hsize := hv.entrySize
    have hss : 0 < d.sectorSize := by omega
    have hn : (t.note bit).out = [] := hout
    refine .inl ⟨t, h, rfl, hout, ?_⟩
    obtain ⟨hiff, hbad⟩ := gptEntries_spec (c := c) (h := h) (g := g) hss hn
    cases hok : (gptEntries d c (t.note bit) h g).2 with
    | true =>
      obtain ⟨hr, hcrc⟩ := hiff.1 hok
      exact .inl ⟨rfl, ⟨hv, hr, hcrc⟩, ⟨_, hn, gptEntries_loop hok⟩, gptEntries_all hss hn fun q hin hf => ⟨hin, hf⟩,
        fun hal => gptEntries_out hv hal hn hok⟩
    | false =>
      refine .inr ⟨rfl, fun h' hv' => ?_, hbad hok⟩
      obtain rfl := hv.unique hv'.header
      exact nomatch hok.symm.trans (hiff.2 ⟨hv'.readable, hv'.crc⟩)

/-- What `scan_gpt` finds: the primary, else the backup, else nothing. -/
inductive GptResult (d : Disk) (c : Nat) (out : List Part) : Bool → Prop
  | primary (h : GptHdr) (hf : FromHeader d c 1 0 h out) : GptResult d c out true
  | backup (h : GptHdr) (hn : ∀ h, ¬Valid d 1 h) (hf : FromHeader d c (d.sectors - 1) PARTF_FROM_BACKUP_GPT h out) :
      GptResult d c out true
  | nothing (hn : ∀ h, ¬Valid d 1 h) (hb : ∀ h, ¬Valid d (d.sectors - 1) h) (hout : out = []) :
      GptResult d c out false

theorem scanBackup_spec (hs : s.out = []) (hn : ∀ h, ¬Valid d 1 h) :
    GptResult d c (scanBackup d c s).1.out (scanBackup d c s).2 := by
  unfold scanBackup
  rcases header_cases (c := c) (d.sectors - 1) PARTF_FROM_BACKUP_GPT PSCAN_GPT_BACKUP_OK hs with
    ⟨t, h, hg, -, hcases⟩ | ⟨t, hg, hout, hv⟩
  · rw [hg]
    dsimp only
    generalize gptEntries d c (t.note PSCAN_GPT_BACKUP_OK) h PARTF_FROM_BACKUP_GPT = r at hcases ⊢
    obtain ⟨t, ok⟩ := r
    rcases hcases with ⟨rfl, hf⟩ | ⟨rfl, hv, hout⟩
    · exact .backup h hn hf
    · exact .nothing hn hv hout
  · rw [hg]
    exact .nothing hn hv hout

theorem scanGpt_spec (hs : s.out = []) : GptResult d c (scanGpt d c s).1.out (scanGpt d c s).2 := by
  unfold scanGpt
  rcases header_cases (c := c) 1 0 PSCAN_GPT_PRIMARY_OK hs with ⟨t, h, hg, -, hcases⟩ | ⟨t, hg, hout, hv⟩
  · rw [hg]
    dsimp only
    generalize gptEntries d c (t.note PSCAN_GPT_PRIMARY_OK) h 0 = r at hcases ⊢
    obtain ⟨t, ok⟩ := r
    rcases hcases with ⟨rfl, hf⟩ | ⟨rfl, hv, hout⟩
    · exact .primary h hf
    · exact scanBackup_spec hout hv
  · rw [hg]
    exact scanBackup_spec hout hv

theorem scanGpt_primary (hs : s.out = []) (hv : Valid d 1 h) :
    (scanGpt d c s).2 = true ∧ FromHeader d c 1 0 h (scanGpt d c s).1.out := by
  have hspec := scanGpt_spec (c := c) (d := d) hs
  generalize scanGpt d c s = r at hspec ⊢
  obtain ⟨t, ok⟩ := r
  cases hspec with
  | primary h' hf =>
    obtain rfl := hf.valid.header.unique hv.header
    exact ⟨rfl, hf⟩
  | backup h' hn hf => exact absurd hv (hn h)
  | nothing hn hb hout => exact absurd hv (hn h)

/-! ### MBR -/

def InExtended (m : Sector) (p : Part) : Prop :=
  ∃ i ∈ mbrOffsets, isExtended (m (i + 4)) = true ∧ rd32 m (i + 8) ≤ p.start ∧
    p.start < rd32 m (i + 8) + rd32 m (i + 12)

/-- A partition of the MBR or of the chain of its extended partition. -/
structure FromMbr (d : Disk) (m : Sector) (p : Part) : Prop where
  inside : Inside d p
  scheme : p.scheme = .mbr
  logical : p.flags &&& PARTF_LOGICAL ≠ 0 → InExtended m p

variable {m : Sector} {extStart extSectors : Nat}

def Extended (m : Sector) (extStart extSectors : Nat) : Prop :=
  ∃ i ∈ mbrOffsets, isExtended (m (i + 4)) = true ∧ rd32 m (i + 8) = extStart ∧ rd32 m (i + 12) = extSectors

theorem addLogical_all (he : Extended m extStart extSectors) (hall : ∀ q ∈ s.out, FromMbr d m q) (ebr : Nat)
    (b : Sector) : ∀ q ∈ (addLogical d c s extStart extSectors ebr b).1.out, FromMbr d m q := by
  unfold addLogical
  split
  case isFalse => exact hall
  case isTrue =>
    dsimp only
    split
    case isTrue => exact hall
    case isFalse hin =>
      refine add_all hall fun hi n => ⟨hi, rfl, fun _ => ?_⟩
      obtain ⟨i, him, hx, hstart, hsectors⟩ := he
      rw [not_or] at hin
      exact ⟨i, him, hx, by rw [hstart]; exact Nat.not_lt.1 hin.1, by
        rw [hstart, hsectors]
        show (logicalAt b ebr).start < extStart + extSectors
        omega⟩

theorem ebrLoop_all (he : Extended m extStart extSectors) (fuel : Nat) : ∀ (s : Scan) (seen : List Nat) (ebr : Nat),
    (∀ q ∈ s.out, FromMbr d m q) →
      ∀ q ∈ (ebrLoop d c extStart extSectors fuel s seen ebr).out, FromMbr d m q := by
  induction fuel with
  | zero => exact fun _ _ _ hall => hall
  | succ fuel ih =>
    intro s seen ebr hall
    rw [ebrLoop]
    split
    case isTrue => exact hall
    case isFalse =>
      split
      case isTrue => exact hall
      case isFalse =>
        cases d.read ebr with
        | none => exact hall
        | some b =>
          dsimp only
          split
          case isTrue => exact hall
          case isFalse =>
            have hadd := addLogical_all (c := c) he hall ebr b
            rcases ha : addLogical d c s extStart extSectors ebr b with ⟨t, ok⟩
            rw [ha] at hadd
            cases ok with
            | false => exact hadd
            | true =>
              dsimp only
              split
              case isTrue => exact hadd
              case isFalse => exact ih t _ _ hadd

theorem bootable_logical (b : Sector) (i : Nat) : bootable b i &&& PARTF_LOGICAL = 0 := by
  unfold bootable
  split <;> rfl

/-- The primary entries: the partitions are inside, and the extended partition is one of the MBR. -/
theorem mbrLoop_all (offsets : List Nat) : ∀ (s : Scan) (ext : Nat × Nat), (∀ i ∈ offsets, i ∈ mbrOffsets) →
    (∀ q ∈ s.out, FromMbr d m q) → (ext.2 ≠ 0 → Extended m ext.1 ext.2) →
      (∀ q ∈ (mbrLoop d c m offsets s ext).1.out, FromMbr d m q) ∧
        ∀ e, (mbrLoop d c m offsets s ext).2 = some e → e.2 ≠ 0 → Extended m e.1 e.2 := by
  induction offsets with
  | nil =>
    intro s ext _ hall he
    refine ⟨hall, fun e hs => ?_⟩
    obtain rfl := some.inj hs
    exact he
  | cons i rest ih =>
    intro s ext hmem hall he
    have hrest : ∀ i ∈ rest, i ∈ mbrOffsets := fun j hj => hmem j (mem_cons_of_mem _ hj)
    rw [mbrLoop]
    split
    case isTrue => exact ih s ext hrest hall he
    case isFalse =>
      split
      case isTrue hx =>
        refine ih s _ hrest hall ?_
        split
        case isTrue => exact fun _ => ⟨i, hmem i mem_cons_self, hx, rfl, rfl⟩
        case isFalse => exact he
      case isFalse =>
        have hadd : ∀ q ∈ (add d c s (primaryAt m i)).1.out, FromMbr d m q :=
          add_all hall fun hi n => ⟨hi, rfl, fun hl => absurd (bootable_logical m i) hl⟩
        rcases ha : add d c s (primaryAt m i) with ⟨t, ok⟩
        rw [ha] at hadd
        cases ok with
        | false => exact ⟨hadd, nofun⟩
        | true => exact ih t ext hrest hadd he

theorem scanMbr_all (hs : s.out = []) : ∀ q ∈ (scanMbr d c s m).out, FromMbr d m q := by
  obtain ⟨hall, hext⟩ := mbrLoop_all (d := d) (c := c) (m := m) mbrOffsets s (0, 0) (fun _ hi => hi)
    (fun q hq => absurd (hs ▸ hq) not_mem_nil) fun h => absurd rfl h
  unfold scanMbr
  rcases hl : mbrLoop d c m mbrOffsets s (0, 0) with ⟨t, o⟩
  rw [hl] at hall hext
  cases o with
  | none => exact hall
  | some e =>
    dsimp only
    split
    case isTrue hne => exact ebrLoop_all (hext e rfl hne.1) 32 _ _ _ hall
    case isFalse => exact hall

/-! ### The scan -/

/-- What is right about the result of a scan. -/
structure Correct (d : Disk) (c : Nat) (res : Option (List Part)) : Prop where
  inside : ∀ ps, res = some ps → ∀ p ∈ ps, Inside d p
  primary : d.Sane → (d.read 0).isSome = true → ∀ h, Valid d 1 h → Aligned d h → res = some (expected d c h 0)
  backup : d.Sane → (d.read 0).isSome = true → (∀ h, ¬Valid d 1 h) → ∀ h, Valid d (d.sectors - 1) h → Aligned d h →
    res = some (expected d c h PARTF_FROM_BACKUP_GPT)
  checked : ∀ ps, res = some ps → ∀ p ∈ ps, p.scheme = .mbr ∨ ∃ h, Valid d 1 h ∧ FromArray d h 0 p ∨
    (∀ h, ¬Valid d 1 h) ∧ Valid d (d.sectors - 1) h ∧ FromArray d h PARTF_FROM_BACKUP_GPT p
  logical : ∀ ps, res = some ps → ∀ p ∈ ps, p.flags &&& PARTF_LOGICAL ≠ 0 →
    ∃ m, d.read 0 = some m ∧ InExtended m p

theorem correct_none (hn : ¬(d.Sane ∧ (d.read 0).isSome = true)) : Correct d c none where
  inside := nofun
  primary hs hr := absurd ⟨hs, hr⟩ hn
  backup hs hr := absurd ⟨hs, hr⟩ hn
  checked := nofun
  logical := nofun

theorem entryAt_flags {buf : Sector} {i : Nat} (he : entryAt g buf i = some p) : p.flags = g := by
  unfold entryAt at he
  split at he
  · exact nomatch he
  · rw [← some.inj he]

theorem FromArray.same_flags {q : Part} (hf : FromArray d h g q) : q.flags = g := by
  obtain ⟨_, _, _, p, _, he, rfl⟩ := hf
  exact entryAt_flags (p := p) he

theorem GptResult.correct {out : List Part} (hr : GptResult d c out true) : Correct d c (some out) := by
  cases hr with
  | primary h hf =>
    exact {
      inside := by
        intro ps hps p hp
        obtain rfl := some.inj hps
        exact (hf.all p hp).1
      primary := by
        intro _ _ h' hv hal
        obtain rfl := hf.valid.header.unique hv.header
        rw [hf.exact hal]
      backup := fun _ _ hn => absurd hf.valid (hn h)
      checked := by
        intro ps hps p hp
        obtain rfl := some.inj hps
        exact .inr ⟨h, .inl ⟨hf.valid, (hf.all p hp).2⟩⟩
      logical := by
        intro ps hps p hp hl
        obtain rfl := some.inj hps
        rw [(hf.all p hp).2.same_flags] at hl
        exact absurd rfl hl }
  | backup h hn hf =>
    exact {
      inside := by
        intro ps hps p hp
        obtain rfl := some.inj hps
        exact (hf.all p hp).1
      primary := fun _ _ h' hv => absurd hv (hn h')
      backup := by
        intro _ _ _ h' hv hal
        obtain rfl := hf.valid.header.unique hv.header
        rw [hf.exact hal]
      checked := by
        intro ps hps p hp
        obtain rfl := some.inj hps
        exact .inr ⟨h, .inr ⟨hn, hf.valid, (hf.all p hp).2⟩⟩
      logical := by
        intro ps hps p hp hl
        obtain rfl := some.inj hps
        rw [(hf.all p hp).2.same_flags] at hl
        exact absurd rfl hl }

/-- A scan without a GPT. -/
theorem correct_mbr {res : Option (List Part)} (hn : ∀ h, ¬Valid d 1 h) (hb : ∀ h, ¬Valid d (d.sectors - 1) h)
    (hm : d.read 0 = some m) (hall : ∀ ps, res = some ps → ∀ p ∈ ps, FromMbr d m p) : Correct d c res where
  inside ps hps p hp := (hall ps hps p hp).inside
  primary _ _ h hv := absurd hv (hn h)
  backup _ _ _ h hv := absurd hv (hb h)
  checked ps hps p hp := .inl (hall ps hps p hp).scheme
  logical ps hps p hp hl := ⟨m, hm, (hall ps hps p hp).logical hl⟩

/-- **A partition scan** ends and returns partitions inside the device: the entries of the GPT that obeys
the rules, the primary before the backup, or those of the MBR, where logical partitions start inside the
extended partition. -/
theorem scan_correct (d : Disk) (c : Nat) : Correct d c (blkPartScan d c).1 ∧
    ∀ lba h, ValidHeader d lba h → ∀ g acc more, entriesLoop d c h g (h.nsec d + more) acc 0 h.entriesLba 0 =
      entriesLoop d c h g (h.nsec d) acc 0 h.entriesLba 0 := by
  constructor
  · unfold blkPartScan
    by_cases hsane : d.Sane
    · rw [if_neg (not_not.2 hsane)]
      cases hm : d.read 0 with
      | none => exact correct_none fun hr => by rw [hm] at hr; exact nomatch hr.2
      | some m =>
        dsimp only
        generalize hs : (⟨[], _⟩ : Scan) = s
        have hout : s.out = [] := by rw [← hs]
        have hgpt := scanGpt_spec (d := d) (c := c) hout
        rcases hg : scanGpt d c s with ⟨t, ok⟩
        rw [hg] at hgpt
        cases ok with
        | true => exact hgpt.correct
        | false =>
          cases hgpt with
          | nothing hn hb hempty =>
            dsimp only
            split
            case isTrue => exact correct_mbr hn hb hm nofun
            case isFalse =>
              split
              case isTrue =>
                refine correct_mbr hn hb hm fun ps hps p hp => ?_
                obtain rfl := some.inj hps
                exact absurd hp not_mem_nil
              case isFalse =>
                refine correct_mbr hn hb hm fun ps hps => ?_
                obtain rfl := some.inj hps
                exact scanMbr_all hempty
    · rw [if_pos hsane]
      exact correct_none fun hr => hsane hr.1
  · intro lba h hv g acc more
    have hsize := hv.entrySize
    have hend := entriesLoop_fuel (c := c) (h := h) (g := g) (d := d) (by omega) (h.nsec d) more 0 0 acc
      (by omega)
    rwa [doneAt_zero] at hend

/-! ### Disks with other results -/

/-- A number in little endian. -/
def le : Nat → Nat → List Byte
  | 0, _ => []
  | n + 1, v => UInt8.ofNat (v % 256) :: le n (v / 256)

def sectorOf (l : List Byte) : Sector := fun i => l.getD i 0

/-- A header at LBA 1 with its array at LBA 2. -/
def headerBytes (num size crc entriesCrc : Nat) : List Byte :=
  signature ++ le 4 0x10000 ++ le 4 92 ++ le 4 crc ++ le 4 0 ++ le 8 1 ++ le 8 7 ++ le 8 4 ++ le 8 6 ++ le 16 0 ++
    le 8 2 ++ le 4 num ++ le 4 size ++ le 4 entriesCrc

def entryBytes (start last : Nat) : List Byte := List.replicate 16 1 ++ le 16 0 ++ le 8 start ++ le 8 last

def diskOf (one two : List Byte) (zero : List Byte) : Disk :=
  ⟨512, 8, fun l => some (sectorOf (if l = 0 then zero else if l = 1 then one else if l = 2 then two else []))⟩

/-- One entry, beyond the end of the device. -/
def farDisk : Disk := diskOf (headerBytes 1 128 542034477 3108496652) (entryBytes 100 101) []

/-- Four entries of 136 bytes, where the last one crosses the end of a sector. -/
def crossedDisk : Disk :=
  diskOf (headerBytes 4 136 3956424150 2786121459) (List.replicate 408 0 ++ entryBytes 4 5) []

/-- The table of an MBR or an EBR with one entry. -/
def tableBytes (type start sectors : Nat) : List Byte :=
  List.replicate 450 0 ++ le 4 type ++ le 4 start ++ le 4 sectors ++ List.replicate 48 0 ++ [0x55, 0xaa]

/-- An extended partition of three sectors with a logical one of four. -/
def chainDisk : Disk := diskOf [] (tableBytes 6 1 4) (tableBytes 5 2 3)

theorem scan_primary {m : Sector} (hsane : d.Sane) (hm : d.read 0 = some m) (hv : Valid d 1 h) :
    ∃ out, (blkPartScan d c).1 = some out ∧ FromHeader d c 1 0 h out := by
  unfold blkPartScan
  rw [if_neg (not_not.2 hsane), hm]
  dsimp only
  generalize hs : (⟨[], _⟩ : Scan) = s
  have hout : s.out = [] := by rw [← hs]
  obtain ⟨hok, hf⟩ := scanGpt_primary (c := c) hout hv
  generalize scanGpt d c s = r at hok hf ⊢
  obtain ⟨t, ok⟩ := r
  subst hok
  exact ⟨t.out, rfl, hf⟩

def farHeader : GptHdr := hdrOf (sectorOf (headerBytes 1 128 542034477 3108496652))

theorem farHeader_valid : Valid farDisk 1 farHeader :=
  ⟨gptHeader_some (s := ⟨[], 0⟩).1 (by decide +kernel), by decide +kernel, by decide +kernel⟩

def crossedHeader : GptHdr := hdrOf (sectorOf (headerBytes 4 136 3956424150 2786121459))

theorem crc_entry {q : Sector} {i x y : Nat} (hx : blkCrc32 0 (bytes q 0 i) = x) (hy : blkCrc32 x (bytes q i 136) = y) :
    blkCrc32 0 (bytes q 0 (i + 136)) = y := by
  rw [bytes_add, ← blkCrc32_append, hx, Nat.zero_add, hy]

theorem array_crossed {i : Nat} (hi : i < 1024) :
    array crossedDisk crossedHeader i = sectorOf (List.replicate 408 0 ++ entryBytes 4 5) i := by
  have hlba : crossedHeader.entriesLba = 2 := by decide +kernel
  have hsize : crossedDisk.sectorSize = 512 := rfl
  rw [array, hlba, hsize]
  by_cases hlow : i < 512
  · rw [Nat.div_eq_of_lt hlow, Nat.mod_eq_of_lt hlow]
    rfl
  · rw [show i / 512 = 1 by omega]
    refine (getD_eq_default _ _ ?_).symm
    rw [length_append, length_replicate]
    show 408 + 48 ≤ i
    omega

theorem crossed_zeros {i : Nat} (hi : i ≤ 272) : bytes (array crossedDisk crossedHeader) i 136 = List.replicate 136 0 := by
  refine eq_replicate_iff.2 ⟨(length_map _).trans length_range, fun b hb => ?_⟩
  obtain ⟨j, hj, rfl⟩ := mem_map.1 hb
  have hj' := mem_range.1 hj
  rw [array_crossed (by omega), sectorOf, getD_append _ _ _ _ (by rw [length_replicate]; omega)]
  exact getD_replicate _ (by omega)

theorem crossed_last : bytes (array crossedDisk crossedHeader) 408 136 = bytes (sectorOf (entryBytes 4 5)) 0 136 := by
  refine map_congr_left fun j hj => ?_
  have hj' := mem_range.1 hj
  rw [array_crossed (by omega), sectorOf, sectorOf,
    getD_append_right _ _ _ _ (by rw [length_replicate]; omega), length_replicate,
    Nat.add_sub_cancel_left, Nat.zero_add]

theorem crossed_crc : blkCrc32 0 (bytes (array crossedDisk crossedHeader) 0 544) = 2786121459 := by
  have hone : blkCrc32 0 (bytes (array crossedDisk crossedHeader) 0 136) = 1999844326 := by
    decide +kernel
  have htwo := crc_entry (y := 1893640712) hone (by rw [crossed_zeros (by decide)]; decide +kernel)
  have hthree := crc_entry (y := 3465388594) htwo (by rw [crossed_zeros (by decide)]; decide +kernel)
  exact crc_entry hthree (by rw [crossed_last]; decide +kernel)

theorem crossedHeader_valid : Valid crossedDisk 1 crossedHeader where
  header := gptHeader_some (s := ⟨[], 0⟩).1 (by decide +kernel)
  readable := by decide +kernel
  crc := crossed_crc

/-- The loop reads no entry where the fourth one lies. -/
theorem crossed_loop (hs : s.out = []) :
    (entriesLoop crossedDisk c crossedHeader 0 (crossedHeader.nsec crossedDisk) (s, false) 0 2 0).1.out = [] := by
  exact hs

/-- Entries outside the device are left out, so are those that cross the end of a sector, and a logical
partition may end beyond the extended one. -/
theorem scan_omits :
    (∃ h, Valid farDisk 1 h ∧ entryAt 0 (array farDisk h) 0 ≠ none ∧ (blkPartScan farDisk 8).1 = some []) ∧
      (∃ h, Valid crossedDisk 1 h ∧ 3 < h.numEntries ∧
        (∃ p, entryAt 0 (array crossedDisk h) (3 * h.entrySize) = some p ∧ Inside crossedDisk p) ∧
          (blkPartScan crossedDisk 8).1 = some []) ∧
      ∃ ps p, (blkPartScan chainDisk 8).1 = some ps ∧ p ∈ ps ∧ p.flags = PARTF_LOGICAL ∧ 2 + 3 < p.start + p.sectors := by
  refine ⟨⟨farHeader, farHeader_valid, by decide +kernel, by decide +kernel⟩,
    ⟨crossedHeader, crossedHeader_valid, by decide +kernel, ?_, ?_⟩,
    [{ Part.zero with start := 3, sectors := 4, index := 1, scheme := .mbr, mbrType := 6, flags := 2 }], _,
    by decide +kernel, mem_singleton.2 rfl, by decide +kernel, by decide +kernel⟩
  · exact ⟨{ Part.zero with
      start := 4, sectors := 2, scheme := .gpt, typeGuid := List.replicate 16 1, name := [] }, by decide +kernel,
      by decide +kernel⟩
  · obtain ⟨out, hscan, hf⟩ := scan_primary (c := 8) (d := crossedDisk) (by decide +kernel) rfl crossedHeader_valid
    obtain ⟨s, hs, rfl⟩ := hf.loop
    exact hscan.trans (congrArg some (crossed_loop hs))

end Win98Modern.BlkPart
