import Win98Modern.Kernel64.BlkPart
import Mathlib.Data.List.ReduceOption

/-!
# The entry array

The array is read sector by sector.  `entriesLoop_crc`: the checksum is that of the whole array, and
`entriesLoop_out`: the entries are those at the multiples of `SizeOfEntry`, where this divides the sector
size or the array fits in one sector.
-/

namespace Win98Modern.BlkPart

open List

variable {d : Disk} {c : Nat} {s : Scan} {p : Part} {h : GptHdr} {g : Nat} {acc : Scan × Bool}

/-! ### Adding -/

def Inside (d : Disk) (p : Part) : Prop := p.sectors ≠ 0 ∧ p.start + p.sectors ≤ d.sectors

instance (d : Disk) : DecidablePred (Inside d) := fun _ => inferInstanceAs (Decidable (_ ∧ _))

theorem not_inside : d.sectors ≤ p.start ∨ p.sectors = 0 ∨ d.sectors - p.start < p.sectors ↔ ¬Inside d p := by
  unfold Inside
  omega

/-- What `add` does to the table. -/
def push (d : Disk) (c : Nat) (out : List Part) (p : Part) : List Part :=
  if Inside d p ∧ out.length < c then out ++ [{ p with index := out.length + 1 }] else out

theorem add_out : (add d c s p).1.out = push d c s.out p := by
  unfold add push
  by_cases hin : Inside d p
  · rw [if_neg fun hout => not_inside.1 hout hin]
    by_cases hroom : c ≤ s.out.length
    · rw [if_pos hroom, if_neg (by omega)]
      rfl
    · rw [if_neg hroom, if_pos ⟨hin, by omega⟩]
  · rw [if_pos (not_inside.2 hin), if_neg fun hp => hin hp.1]
    rfl

theorem add_full (hf : (add d c s p).2 = false) : c ≤ s.out.length := by
  unfold add at hf
  split at hf
  case isTrue => exact nomatch hf
  case isFalse =>
    split at hf
    case isTrue hroom => exact hroom
    case isFalse => exact nomatch hf

theorem push_full {out : List Part} (hf : c ≤ out.length) : push d c out p = out :=
  if_neg fun hp => absurd hp.2 (by omega)

/-- Numbers the partitions of a table that starts at an index. -/
def numbered (n : Nat) : List Part → List Part
  | [] => []
  | p :: ps => { p with index := n + 1 } :: numbered (n + 1) ps

/-- Adding one after the other: those inside the device, as many as there is room for. -/
theorem foldl_push (ps : List Part) : ∀ out : List Part, ps.foldl (push d c) out =
    out ++ numbered out.length ((ps.filter fun p => Inside d p).take (c - out.length)) := by
  induction ps with
  | nil =>
    intro out
    rw [filter_nil, take_nil]
    exact (append_nil out).symm
  | cons p ps ih =>
    intro out
    rw [foldl_cons, ih]
    unfold push
    by_cases hin : Inside d p
    · rw [filter_cons_of_pos (by exact decide_eq_true hin)]
      by_cases hroom : out.length < c
      · rw [if_pos ⟨hin, hroom⟩, length_append, length_singleton, append_assoc,
          show c - out.length = c - (out.length + 1) + 1 by omega, take_succ_cons]
        rfl
      · rw [if_neg fun hp => hroom hp.2, show c - out.length = 0 by omega, take_zero, take_zero]
    · rw [if_neg fun hp => hin hp.1, filter_cons_of_neg (by rwa [decide_eq_true_eq])]

/-- The flag says that the table is full. -/
def Full (c : Nat) (acc : Scan × Bool) : Prop := acc.2 = true → c ≤ acc.1.out.length

theorem addEntry_out (hf : Full c acc) (o : Option Part) :
    (addEntry d c acc o).1.out = (o.toList.foldl (push d c) acc.1.out) ∧ Full c (addEntry d c acc o) := by
  cases o with
  | none => exact ⟨rfl, hf⟩
  | some p =>
    unfold addEntry
    dsimp only [Option.toList, foldl]
    split
    case isTrue ht => exact ⟨(push_full (hf ht)).symm, hf⟩
    case isFalse =>
      refine ⟨add_out, fun ht => ?_⟩
      have hlen := add_full (d := d) (s := acc.1) (p := p) (by simpa using ht)
      show c ≤ (add d c acc.1 p).1.out.length
      rw [add_out, push_full hlen]
      exact hlen

theorem foldl_addEntry (os : List (Option Part)) : ∀ {acc : Scan × Bool}, Full c acc →
    (os.foldl (addEntry d c) acc).1.out = os.reduceOption.foldl (push d c) acc.1.out := by
  induction os with
  | nil => exact fun _ => rfl
  | cons o os ih =>
    intro acc hf
    obtain ⟨hout, hf'⟩ := addEntry_out (d := d) hf o
    rw [foldl_cons, ih hf', hout]
    cases o with
    | none => rw [reduceOption_cons_of_none]; rfl
    | some p => rw [reduceOption_cons_of_some]; rfl

/-! ### The array as a whole -/

theorem blkCrc32_nil (crc : Nat) : blkCrc32 crc [] = crc := by
  unfold blkCrc32
  rw [foldl_nil, Nat.xor_assoc, Nat.xor_self, Nat.xor_zero]

theorem blkCrc32_append (crc : Nat) (a b : List Byte) : blkCrc32 (blkCrc32 crc a) b = blkCrc32 crc (a ++ b) := by
  unfold blkCrc32
  rw [Nat.xor_assoc, Nat.xor_self, Nat.xor_zero, foldl_append]

/-- The bytes of the entry array. -/
def array (d : Disk) (h : GptHdr) : Sector := fun i =>
  ((d.read (h.entriesLba + i / d.sectorSize)).getD fun _ => 0) (i % d.sectorSize)

/-- All its sectors can be read. -/
def Readable (d : Disk) (h : GptHdr) : Prop := ∀ j < h.nsec d, (d.read (h.entriesLba + j)).isSome = true

instance (d : Disk) (h : GptHdr) : Decidable (Readable d h) := inferInstanceAs (Decidable (∀ j < _, _))

/-- The entries at the multiples of `SizeOfEntry`. -/
def records (d : Disk) (h : GptHdr) (g : Nat) : List (Option Part) :=
  (range h.numEntries).map fun i => entryAt g (array d h) (i * h.entrySize)

theorem bytes_congr {q q' : Sector} {i i' n : Nat} (hq : ∀ k < n, q (i + k) = q' (i' + k)) :
    bytes q i n = bytes q' i' n := by
  exact map_congr_left fun k hk => hq k (mem_range.1 hk)

theorem bytes_add (q : Sector) (i m n : Nat) : bytes q i (m + n) = bytes q i m ++ bytes q (i + m) n := by
  unfold bytes
  rw [range_add, map_append, map_map]
  congr 1
  exact map_congr_left fun k _ => congrArg q (Nat.add_assoc i m k).symm

section Congr

variable {q q' : Sector} {i i' : Nat}

variable {o : Nat}

theorem rd16_congr (hq : ∀ k < 128, q (i + k) = q' (i' + k)) (ho : o + 2 ≤ 128) :
    rd16 q (i + o) = rd16 q' (i' + o) := by
  unfold rd16
  rw [Nat.add_assoc, Nat.add_assoc, hq o (by omega), hq (o + 1) (by omega)]

theorem rd32_congr (hq : ∀ k < 128, q (i + k) = q' (i' + k)) (ho : o + 4 ≤ 128) :
    rd32 q (i + o) = rd32 q' (i' + o) := by
  unfold rd32
  rw [rd16_congr hq (by omega), Nat.add_assoc, Nat.add_assoc, rd16_congr hq (o := o + 2) (by omega)]

theorem rd64_congr (hq : ∀ k < 128, q (i + k) = q' (i' + k)) (ho : o + 8 ≤ 128) :
    rd64 q (i + o) = rd64 q' (i' + o) := by
  unfold rd64
  rw [rd32_congr hq (by omega), Nat.add_assoc, Nat.add_assoc, rd32_congr hq (o := o + 4) (by omega)]

theorem entryAt_congr (hq : ∀ k < 128, q (i + k) = q' (i' + k)) : entryAt g q i = entryAt g q' i' := by
  have htype : bytes q i 16 = bytes q' i' 16 := bytes_congr fun k hk => hq k (by omega)
  have hguid : bytes q (i + 16) 16 = bytes q' (i' + 16) 16 :=
    bytes_congr fun k hk => by rw [Nat.add_assoc, Nat.add_assoc, hq (16 + k) (by omega)]
  have hname : foldName q (i + 56) = foldName q' (i' + 56) := by
    refine congrArg _ (congrArg _ (map_congr_left fun j hj => ?_))
    have := mem_range.1 hj
    rw [Nat.add_assoc, Nat.add_assoc, rd16_congr hq (by omega)]
  unfold entryAt
  rw [htype, hguid, hname, rd64_congr hq (o := 32) (by omega), rd64_congr hq (o := 40) (by omega)]

end Congr

/-! ### The loop -/

theorem nsec_spec (hss : 0 < d.sectorSize) : h.bytes ≤ h.nsec d * d.sectorSize ∧
    ∀ j, j * d.sectorSize < h.bytes ↔ j < h.nsec d := by
  have hiff : ∀ j, j * d.sectorSize < h.bytes ↔ j < h.nsec d := by
    intro j
    have hle := Nat.le_div_iff_mul_le (x := j + 1) (y := h.bytes + d.sectorSize - 1) hss
    rw [Nat.succ_mul] at hle
    unfold GptHdr.nsec
    omega
  exact ⟨Nat.not_lt.1 fun hlt => absurd ((hiff _).1 hlt) (Nat.lt_irrefl _), hiff⟩

variable {j : Nat} {buf : Sector}

theorem array_sector {k : Nat} (hr : d.read (h.entriesLba + j) = some buf) (hk : k < d.sectorSize) :
    array d h (j * d.sectorSize + k) = buf k := by
  have hss : 0 < d.sectorSize := by omega
  unfold array
  rw [Nat.mul_comm j, Nat.mul_add_div hss, Nat.div_eq_of_lt hk, Nat.add_zero, hr, Nat.mul_add_mod,
    Nat.mod_eq_of_lt hk]
  rfl

/-- Where the loop is after `j` sectors. -/
def doneAt (d : Disk) (h : GptHdr) (j : Nat) : Nat := min (j * d.sectorSize) h.bytes

theorem doneAt_zero : doneAt d h 0 = 0 := by
  unfold doneAt
  omega

theorem doneAt_lt (hss : 0 < d.sectorSize) : doneAt d h j < h.bytes ↔ j < h.nsec d := by
  rw [← (nsec_spec hss).2 j]
  unfold doneAt
  omega

theorem doneAt_succ (hj : j * d.sectorSize < h.bytes) : doneAt d h j = j * d.sectorSize ∧
      doneAt d h j + min (h.bytes - doneAt d h j) d.sectorSize = doneAt d h (j + 1) := by
  unfold doneAt
  rw [Nat.succ_mul]
  omega

/-- The checksum of the array up to there. -/
def crcAt (d : Disk) (h : GptHdr) (j : Nat) : Nat := blkCrc32 0 (bytes (array d h) 0 (doneAt d h j))

theorem crcAt_zero : crcAt d h 0 = 0 := by
  unfold crcAt doneAt
  rw [Nat.zero_mul, Nat.zero_min]
  exact blkCrc32_nil 0

theorem crcAt_succ (hr : d.read (h.entriesLba + j) = some buf) (hj : j * d.sectorSize < h.bytes) :
    blkCrc32 (crcAt d h j) (bytes buf 0 (min (h.bytes - doneAt d h j) d.sectorSize)) = crcAt d h (j + 1) := by
  obtain ⟨hdone, hnext⟩ := doneAt_succ hj
  unfold crcAt
  rw [blkCrc32_append, ← hnext, bytes_add, hdone]
  refine congrArg _ (congrArg _ (bytes_congr fun k hk => ?_))
  rw [Nat.zero_add, Nat.zero_add, array_sector hr (by omega)]

theorem entriesLoop_crc (hss : 0 < d.sectorSize) (fuel : Nat) : ∀ (j : Nat) (acc : Scan × Bool),
    h.nsec d ≤ j + fuel → (entriesLoop d c h g fuel acc (doneAt d h j) (h.entriesLba + j) (crcAt d h j)).2 =
      if ∀ i < h.nsec d, j ≤ i → (d.read (h.entriesLba + i)).isSome = true then some (crcAt d h (h.nsec d)) else none := by
  have hend : ∀ {j}, h.nsec d ≤ j → crcAt d h j = crcAt d h (h.nsec d) := by
    intro j hj
    have hle := (nsec_spec (h := h) hss).1
    have hmul : h.nsec d * d.sectorSize ≤ j * d.sectorSize := Nat.mul_le_mul_right _ hj
    have hd : doneAt d h j = doneAt d h (h.nsec d) := by
      unfold doneAt
      omega
    unfold crcAt
    rw [hd]
  induction fuel with
  | zero =>
    intro j acc hj
    rw [entriesLoop, if_pos fun i hi hji => absurd hi (by omega), hend (by omega)]
  | succ fuel ih =>
    intro j acc hj
    rw [entriesLoop]
    by_cases hlt : j < h.nsec d
    · rw [if_pos ((doneAt_lt hss).2 hlt)]
      have hjb := ((nsec_spec hss).2 j).2 hlt
      cases hr : d.read (h.entriesLba + j) with
      | none =>
        rw [if_neg fun hall => absurd (hall j hlt (Nat.le_refl j)) (by rw [hr]; exact nofun)]
      | some buf =>
        dsimp only
        rw [(doneAt_succ hjb).2, crcAt_succ hr hjb, Nat.add_assoc, ih (j + 1) _ (by omega)]
        refine if_congr ⟨fun hall i hi hji => ?_, fun hall i hi hji => hall i hi (by omega)⟩ rfl rfl
        by_cases he : i = j
        · rw [he, hr]
          rfl
        · exact hall i hi (by omega)
    · rw [if_neg (fun hd => hlt ((doneAt_lt hss).1 hd)), if_pos fun i hi hji => absurd hi (by omega), hend (by omega)]

theorem entriesLoop_fuel (hss : 0 < d.sectorSize) (fuel more : Nat) : ∀ (j crc : Nat) (acc : Scan × Bool),
    h.nsec d ≤ j + fuel → entriesLoop d c h g (fuel + more) acc (doneAt d h j) (h.entriesLba + j) crc =
      entriesLoop d c h g fuel acc (doneAt d h j) (h.entriesLba + j) crc := by
  induction fuel with
  | zero =>
    intro j crc acc hj
    have hend : ¬doneAt d h j < h.bytes := fun hd => absurd ((doneAt_lt hss).1 hd) (by omega)
    cases more with
    | zero => rfl
    | succ more =>
      exact if_neg hend
  | succ fuel ih =>
    intro j crc acc hj
    rw [show fuel + 1 + more = fuel + more + 1 by omega, entriesLoop, entriesLoop]
    by_cases hlt : j < h.nsec d
    · have hjb := ((nsec_spec hss).2 j).2 hlt
      rw [if_pos ((doneAt_lt hss).2 hlt), if_pos ((doneAt_lt hss).2 hlt)]
      cases d.read (h.entriesLba + j) with
      | none => rfl
      | some buf =>
        dsimp only
        rw [(doneAt_succ hjb).2, Nat.add_assoc]
        exact ih (j + 1) _ _ (by omega)
    · rw [if_neg (fun hd => hlt ((doneAt_lt hss).1 hd)), if_neg (fun hd => hlt ((doneAt_lt hss).1 hd))]

def Aligned (d : Disk) (h : GptHdr) : Prop := d.sectorSize % h.entrySize = 0 ∨ h.bytes ≤ d.sectorSize

instance (d : Disk) (h : GptHdr) : Decidable (Aligned d h) := inferInstanceAs (Decidable (_ ∨ _))

theorem takeWhile_range (m : Nat) : ∀ n, (range n).takeWhile (fun e => decide (e < m)) = range (min n m) := by
  intro n
  induction n with
  | zero => rw [Nat.zero_min]; rfl
  | succ n ih =>
    rw [range_succ, takeWhile_append, ih, length_range, length_range]
    by_cases hm : n < m
    · rw [Nat.min_eq_left (Nat.le_of_lt hm), if_pos rfl, Nat.min_eq_left (Nat.succ_le_of_lt hm), range_succ,
        takeWhile_cons, decide_eq_true hm]
      rfl
    · have hle := Nat.not_lt.1 hm
      rw [Nat.min_eq_right hle, Nat.min_eq_right (Nat.le_succ_of_le hle)]
      split
      case isTrue he =>
        obtain rfl := he
        rw [takeWhile_cons, decide_eq_false hm]
        exact append_nil _
      case isFalse => rfl

theorem entry_fits {e : Nat} (hal : Aligned d h) (hj : j * d.sectorSize < h.bytes)
    (he : e < d.sectorSize / h.entrySize) :
    j * d.sectorSize = j * (d.sectorSize / h.entrySize) * h.entrySize ∧
      e * h.entrySize + h.entrySize ≤ d.sectorSize := by
  have hper := Nat.div_mul_le_self d.sectorSize h.entrySize
  have hmul : (e + 1) * h.entrySize ≤ d.sectorSize / h.entrySize * h.entrySize := Nat.mul_le_mul_right _ he
  rw [Nat.succ_mul] at hmul
  refine ⟨?_, by omega⟩
  rcases hal with hal | hal
  · rw [Nat.mul_assoc, Nat.div_mul_cancel (Nat.dvd_of_mod_eq_zero hal)]
  · have hz : j = 0 := by
      rcases Nat.eq_zero_or_pos j with hz | hp
      · exact hz
      · have := Nat.le_mul_of_pos_left d.sectorSize hp
        omega
    rw [hz, Nat.zero_mul, Nat.zero_mul, Nat.zero_mul]

theorem takeWhile_congr {p p' : Nat → Bool} (l : List Nat) (hp : ∀ x ∈ l, p x = p' x) :
    l.takeWhile p = l.takeWhile p' := by
  induction l with
  | nil => rfl
  | cons x l ih =>
    rw [takeWhile_cons, takeWhile_cons, hp x mem_cons_self,
      ih fun y hy => hp y (mem_cons_of_mem _ hy)]

theorem sectorEntries_eq (hal : Aligned d h) (hsize : 128 ≤ h.entrySize)
    (hj : j * d.sectorSize < h.bytes) (hr : d.read (h.entriesLba + j) = some buf) :
    sectorEntries d h g (doneAt d h j) buf =
      ((records d h g).drop (j * (d.sectorSize / h.entrySize))).take (d.sectorSize / h.entrySize) := by
  have hpos : 0 < h.entrySize := by omega
  rw [(doneAt_succ hj).1]
  unfold sectorEntries
  have hguard : ∀ e ∈ range (d.sectorSize / h.entrySize),
      decide (j * d.sectorSize + e * h.entrySize < h.bytes) =
        decide (e < h.numEntries - j * (d.sectorSize / h.entrySize)) := by
    intro e he
    obtain ⟨hjs, -⟩ := entry_fits hal hj (mem_range.1 he)
    rw [hjs, ← Nat.add_mul]
    have hiff : (j * (d.sectorSize / h.entrySize) + e) * h.entrySize < h.bytes ↔
        j * (d.sectorSize / h.entrySize) + e < h.numEntries := Nat.mul_lt_mul_right hpos
    exact decide_eq_decide.2 (hiff.trans (by omega))
  rw [takeWhile_congr _ hguard, takeWhile_range]
  refine ext_getElem? fun e => ?_
  unfold records
  rw [getElem?_take, getElem?_map, getElem?_drop, getElem?_map]
  by_cases he : e < d.sectorSize / h.entrySize
  · rw [if_pos he]
    obtain ⟨hjs, hfit⟩ := entry_fits hal hj he
    by_cases hin : e < h.numEntries - j * (d.sectorSize / h.entrySize)
    · rw [getElem?_range (by omega), getElem?_range (by omega), Option.map_some, Option.map_some]
      have hentry : entryAt g buf (e * h.entrySize) =
          entryAt g (array d h) ((j * (d.sectorSize / h.entrySize) + e) * h.entrySize) := by
        refine entryAt_congr fun k hk => ?_
        rw [Nat.add_mul, ← hjs, Nat.add_assoc, array_sector hr (by omega)]
      rw [hentry]
    · rw [getElem?_eq_none (by rw [length_range]; omega),
        getElem?_eq_none (by rw [length_range]; omega), Option.map_none, Option.map_none]
  · rw [if_neg he, getElem?_eq_none (by rw [length_range]; omega), Option.map_none]

theorem entriesLoop_out (hal : Aligned d h) (hsize : 128 ≤ h.entrySize) (hss : h.entrySize ≤ d.sectorSize)
    (fuel : Nat) : ∀ (j : Nat) (crc : Nat) (acc : Scan × Bool), h.nsec d ≤ j + fuel →
      (∀ i < h.nsec d, j ≤ i → (d.read (h.entriesLba + i)).isSome = true) →
        (entriesLoop d c h g fuel acc (doneAt d h j) (h.entriesLba + j) crc).1 =
          (((records d h g).drop (j * (d.sectorSize / h.entrySize))).foldl (addEntry d c) acc).1 := by
  have hpos : 0 < d.sectorSize := by omega
  have hend : ∀ {j}, h.nsec d ≤ j → (records d h g).drop (j * (d.sectorSize / h.entrySize)) = [] := by
    intro j hj
    have hle := (nsec_spec (h := h) hpos).1
    have hmul : h.nsec d * d.sectorSize ≤ j * d.sectorSize := Nat.mul_le_mul_right _ hj
    refine drop_eq_nil_of_le ?_
    unfold records
    rw [length_map, length_range]
    refine Nat.le_of_mul_le_mul_right (c := h.entrySize) ?_ (by omega)
    show h.bytes ≤ _
    rw [Nat.mul_assoc]
    rcases hal with hal | hal
    · rw [Nat.div_mul_cancel (Nat.dvd_of_mod_eq_zero hal)]
      omega
    · rcases Nat.eq_zero_or_pos j with hz | hp
      · subst hz
        omega
      · have hn : h.numEntries ≤ d.sectorSize / h.entrySize := (Nat.le_div_iff_mul_le (by omega)).2 hal
        have hb : h.bytes ≤ d.sectorSize / h.entrySize * h.entrySize := Nat.mul_le_mul_right _ hn
        exact Nat.le_trans hb (Nat.le_mul_of_pos_left _ hp)
  induction fuel with
  | zero =>
    intro j crc acc hj _
    rw [hend (by omega), entriesLoop]
    rfl
  | succ fuel ih =>
    intro j crc acc hj hall
    rw [entriesLoop]
    by_cases hlt : j < h.nsec d
    · have hjb := ((nsec_spec hpos).2 j).2 hlt
      rw [if_pos ((doneAt_lt hpos).2 hlt)]
      obtain ⟨buf, hr⟩ := Option.isSome_iff_exists.1 (hall j hlt (Nat.le_refl j))
      rw [hr]
      dsimp only
      rw [(doneAt_succ hjb).2, Nat.add_assoc, ih (j + 1) _ _ (by omega) fun i hi hji => hall i hi (by omega),
        sectorEntries_eq hal hsize hjb hr, ← foldl_append, Nat.succ_mul, ← drop_drop,
        take_append_drop]
    · rw [if_neg fun hd => hlt ((doneAt_lt hpos).1 hd), hend (by omega)]
      rfl

end Win98Modern.BlkPart
