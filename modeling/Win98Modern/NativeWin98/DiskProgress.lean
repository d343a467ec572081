import Win98Modern.NativeWin98.DiskAdmission

/-!
# Admission succeeds

On a device that can be read, with two equal copies of the FAT (`Readable`), the steps of the
admission do not fail: a free cluster is claimed, the FAT is read, a chain of free clusters in a row
becomes one extent (`fileChainLoop_ok`), and blank sectors end a directory.
-/

namespace Win98Modern.NativeWin98

open Function List Option Walk

open Volume

variable {e : Esp} {v : Volume} {b : OwnedBlock} {own : Nat → Option Owner} {m : Persist} {n : Nat}

/-- No read fails, and the copies of the FAT are equal. -/
structure Readable (e : Esp) (v : Volume) (b : OwnedBlock) : Prop where
  fails : ∀ k, e.fails k = false
  room : v.geo.reserved + 2 * v.geo.fatSectors ≤ b.sectors
  mirror : ∀ s < v.geo.fatSectors, e.content (v.geo.reserved + v.geo.fatSectors + s) =
    e.content (v.geo.reserved + s)

theorem rawRead_ok (hfails : ∀ k, e.fails k = false) {lba : Nat} (hlba : lba < m.block.sectors) :
    m.rawRead e lba = some (e.content lba, { m with reads := m.reads + 1 }) := by
  unfold Persist.rawRead
  rw [if_neg]
  rintro (hout | hfail)
  · omega
  · rw [hfails] at hfail
    cases hfail

theorem readFat_ok (hr : Readable e v b) (hgeo : m.geo = v.geo) (hblock : m.block = b) {s : Nat}
    (hs : s < v.geo.fatSectors) :
    m.readFat e s = some (e.content (v.geo.reserved + s), { m with reads := m.reads + 2 }) := by
  have hroom := hr.room
  unfold Persist.readFat
  rw [hgeo, rawRead_ok hr.fails (by rw [hblock]; omega), bind_eq_bind, bind_some]
  simp only
  rw [hgeo, rawRead_ok hr.fails (by show _ < m.block.sectors; rw [hblock]; omega), bind_some]
  rw [hr.mirror s hs]
  exact if_pos fun _ _ => rfl

theorem fatNext_ok (hr : Readable e v b) (hb : Base e v b own m) (hn : n / 128 < v.geo.fatSectors) :
    ∃ m', m.fatNext e n = some (v.next n, m') ∧ SameButReads m m' ∧ Base e v b own m' := by
  have hsome : ∃ x m', m.fatNext e n = some (x, m') := by
    unfold Persist.fatNext
    rw [if_neg (by rw [hb.geo]; omega)]
    split
    · exact ⟨_, _, rfl⟩
    · rw [readFat_ok hr hb.geo hb.block hn]
      exact ⟨_, _, rfl⟩
  obtain ⟨x, m', h⟩ := hsome
  obtain ⟨rfl, hsame, hb'⟩ := fatNext_spec hb h
  exact ⟨m', h, hsame, hb'⟩

theorem claim_ok (o : Owner) (hb : Base e v b own m) (hn : ValidCluster v.geo n) (hfree : own n = none) :
    ∃ m', m.claim n = some m' ∧ (∃ seen, m' = { m with seen := seen }) ∧
      Base e v b (update own n (some o)) m' := by
  have hsome : ∃ m', m.claim n = some m' := by
    unfold Persist.claim
    rw [if_neg]
    · exact ⟨_, rfl⟩
    · rintro (hbad | hclaimed)
      · rw [hb.geo] at hbad
        exact hbad hn
      · exact (hb.claimed n hn).1 hclaimed hfree
  obtain ⟨m', h⟩ := hsome
  obtain ⟨-, -, hseen, hb'⟩ := claim_spec o hb h
  exact ⟨m', h, hseen, hb'⟩

/-- The extents are one run up to `logical`, which ends at `lba`. -/
def OneRun (extent : List Extent) (logical start lba : Nat) : Prop :=
  (logical = 0 ∧ extent = [] ∧ start = lba) ∨
    (logical ≠ 0 ∧ extent = [⟨0, logical, start⟩] ∧ start + logical = lba)

theorem addExtent_ok {logical start lba count : Nat} (h : OneRun m.extent logical start lba)
    (hcount : 0 < count) (hroom : lba + count ≤ m.block.sectors)
    (hdisk : logical + count ≤ W98_PERSIST_DISK_SECTORS) :
    m.addExtent logical count lba = some { m with extent := [⟨0, logical + count, start⟩] } := by
  unfold Persist.addExtent
  rw [if_neg (by omega)]
  obtain ⟨rfl, hnil, rfl⟩ | ⟨-, hone, rfl⟩ := h
  · simp only [hnil, getLast?_nil, length_nil, nil_append, Nat.zero_add]
    exact if_neg (by decide)
  · simp only [hone, getLast?_singleton, Nat.zero_add, and_self, if_true]
    rfl

/-- One turn of the loop at a free cluster lengthens the one extent. -/
theorem fileChainLoop_turn (hr : Readable e v b) (hg : Sized v.geo) (o : Owner)
    (hfat : v.geo.clusters + 2 ≤ v.geo.fatSectors * 128)
    (hdata : v.geo.dataLba + v.geo.clusters * v.geo.spc ≤ b.sectors) {start logical : Nat}
    (hb : Base e v b own m) (hrun : OneRun m.extent logical start (v.geo.clusterLba n))
    (hroom : logical + v.geo.spc ≤ W98_PERSIST_DISK_SECTORS) (hn : ValidCluster v.geo n)
    (hfree : own n = none) :
    ∃ m', Base e v b (update own n (some o)) m' ∧ SameButChains m m' ∧
      m'.extent = [⟨0, logical + v.geo.spc, start⟩] ∧
      ∀ left, m.fileChainLoop e true (left + 1) n logical =
        if left = 0 ∧ ¬Eoc (v.next n) ∨ left ≠ 0 ∧ ¬ValidCluster v.geo (v.next n) then none
        else m'.fileChainLoop e true left (v.next n) (logical + v.geo.spc) := by
  have hlba : v.geo.clusterLba n + v.geo.spc ≤ b.sectors := by
    have hmul : (n - 2 + 1) * v.geo.spc ≤ v.geo.clusters * v.geo.spc :=
      Nat.mul_le_mul_right _ hn.2
    rw [Nat.succ_mul] at hmul
    unfold Geometry.clusterLba
    omega
  obtain ⟨m₁, hclaim, ⟨seen, rfl⟩, hb₁⟩ := claim_ok o hb hn hfree
  obtain ⟨m₂, hnext, ⟨cache, reads, rfl⟩, hb₂⟩ := fatNext_ok hr hb₁ (by
    have := hn.2
    omega : n / 128 < v.geo.fatSectors)
  refine ⟨_, hb₂.extents [⟨0, logical + v.geo.spc, start⟩], ⟨_, seen, cache, reads, rfl⟩, rfl,
    fun left => ?_⟩
  have hmin : min m.geo.spc (W98_PERSIST_DISK_SECTORS - logical) = v.geo.spc := by
    rw [hb.geo]
    exact Nat.min_eq_left (by omega)
  have hlba' : m.geo.clusterLba n = v.geo.clusterLba n := by rw [hb.geo]
  have hvalid : ValidCluster m.geo = ValidCluster v.geo := by rw [hb.geo]
  have hgrow := addExtent_ok (m := { m with seen := seen, fatCache := cache, reads := reads })
    hrun hg.spc_pos (by show _ ≤ m.block.sectors; rw [hb.block]; exact hlba) hroom
  simp only [Persist.fileChainLoop, hclaim, hnext, bind_eq_bind, bind_some, hmin, hlba',
    hvalid, Persist.grow, if_true, hgrow]

theorem fileChainLoop_ok (hr : Readable e v b) (hg : Sized v.geo) (o : Owner)
    (hfat : v.geo.clusters + 2 ≤ v.geo.fatSectors * 128)
    (hdata : v.geo.dataLba + v.geo.clusters * v.geo.spc ≤ b.sectors) (start left : Nat) :
    ∀ {own : Nat → Option Owner} {m : Persist} {n logical : Nat}, Base e v b own m →
    OneRun m.extent logical start (v.geo.clusterLba n) →
    logical + (left + 1) * v.geo.spc ≤ W98_PERSIST_DISK_SECTORS →
    (∀ i ≤ left, ValidCluster v.geo (n + i) ∧ own (n + i) = none) →
    (∀ i < left, v.next (n + i) = n + i + 1) → Eoc (v.next (n + left)) →
    ∃ m' own', m.fileChainLoop e true (left + 1) n logical =
        some (m', logical + (left + 1) * v.geo.spc) ∧ Extends own own' ∧
      (∀ i ≤ left, own' (n + i) = some o) ∧ (∀ x, own' x ≠ none → own x ≠ none ∨ n ≤ x ∧ x ≤ n + left) ∧
      Base e v b own' m' ∧ SameButChains m m' ∧
      m'.extent = [⟨0, logical + (left + 1) * v.geo.spc, start⟩] := by
  induction left with
  | zero =>
    intro own m n logical hb hrun hroom hfree _ hend
    rw [Nat.zero_add, Nat.one_mul] at hroom ⊢
    obtain ⟨hn, hnone⟩ : ValidCluster v.geo n ∧ own n = none := hfree 0 (Nat.le_refl 0)
    obtain ⟨m', hb', hsame, hext, hloop⟩ :=
      fileChainLoop_turn hr hg o hfat hdata hb hrun hroom hn hnone
    refine ⟨m', _, ?_, extends_update hnone, ?_, ?_, hb', hsame, hext⟩
    · have hend' : Eoc (v.next n) := hend
      rw [hloop 0, if_neg (by simpa using hend')]
      rfl
    · intro i hi
      rw [Nat.le_zero.1 hi]
      exact update_self ..
    · intro x hx
      by_cases hxn : x = n
      · exact .inr ⟨hxn.ge, hxn.le⟩
      · rw [update_of_ne hxn] at hx
        exact .inl hx
  | succ left ih =>
    intro own m n logical hb hrun hroom hfree hlink hend
    rw [Nat.succ_mul] at hroom ⊢
    obtain ⟨hn, hnone⟩ : ValidCluster v.geo n ∧ own n = none := hfree 0 (Nat.zero_le _)
    obtain ⟨m₁, hb₁, hsame₁, hext₁, hloop⟩ :=
      fileChainLoop_turn hr hg o hfat hdata hb hrun (by omega) hn hnone
    have hnext : v.next n = n + 1 := hlink 0 (Nat.zero_lt_succ _)
    obtain ⟨hn', -⟩ := hfree 1 (by omega)
    have hrun₁ : OneRun m₁.extent (logical + v.geo.spc) start (v.geo.clusterLba (n + 1)) := by
      refine .inr ⟨by have := hg.spc_pos; omega, hext₁, ?_⟩
      have hlba : v.geo.clusterLba (n + 1) = v.geo.clusterLba n + v.geo.spc := by
        unfold Geometry.clusterLba
        have h2 : 2 ≤ n := hn.1
        rw [show n + 1 - 2 = n - 2 + 1 by omega, Nat.succ_mul, Nat.add_assoc]
      obtain ⟨rfl, -, rfl⟩ | ⟨-, -, hstart⟩ := hrun <;> omega
    obtain ⟨m', own', hrest, hext, hown, honly, hb', hsame, hone⟩ := ih hb₁ hrun₁
      (by rw [Nat.add_assoc, Nat.add_comm v.geo.spc]; exact hroom) (fun i hi => by
        obtain ⟨hvalid, hfree'⟩ := hfree (i + 1) (by omega)
        rw [show n + 1 + i = n + (i + 1) by omega]
        refine ⟨hvalid, ?_⟩
        rw [update_of_ne (by omega)]
        exact hfree') (fun i hi => by
        rw [show n + 1 + i = n + (i + 1) by omega]
        exact hlink (i + 1) (by omega)) (by
        rw [show n + 1 + left = n + (left + 1) by omega]
        exact hend)
    have htotal : logical + v.geo.spc + (left + 1) * v.geo.spc =
        logical + ((left + 1) * v.geo.spc + v.geo.spc) := by
      rw [Nat.add_assoc, Nat.add_comm v.geo.spc]
    rw [htotal] at hrest hone
    refine ⟨m', own', ?_, (extends_update hnone).trans hext, ?_, ?_, hb', hsame₁.trans hsame, hone⟩
    · rw [hloop (left + 1), hnext, if_neg (by rintro (⟨h0, -⟩ | ⟨-, hbad⟩); exacts [by omega, hbad hn'])]
      exact hrest
    · intro i hi
      cases i with
      | zero => exact hext n o (update_self ..)
      | succ i =>
        have := hown i (by omega)
        rwa [show n + 1 + i = n + (i + 1) by omega] at this
    · intro x hx
      obtain hx | ⟨hlo, hhi⟩ := honly x hx
      · by_cases hxn : x = n
        · exact .inr ⟨hxn.ge, by omega⟩
        · rw [update_of_ne hxn] at hx
          exact .inl hx
      · exact .inr ⟨by omega, by omega⟩

theorem fileChain_ok (hr : Readable e v b) (hg : Sized v.geo) (o : Owner)
    (hfat : v.geo.clusters + 2 ≤ v.geo.fatSectors * 128)
    (hdata : v.geo.dataLba + v.geo.clusters * v.geo.spc ≤ b.sectors) (left : Nat)
    (hsize : (left + 1) * v.geo.spc = W98_PERSIST_DISK_SECTORS) (hb : Base e v b own m)
    (hnil : m.extent = []) (hfree : ∀ i ≤ left, ValidCluster v.geo (n + i) ∧ own (n + i) = none)
    (hlink : ∀ i < left, v.next (n + i) = n + i + 1) (hend : Eoc (v.next (n + left))) :
    ∃ m' own', m.fileChain e n (2 <<< 30) true = some m' ∧ Extends own own' ∧
      (∀ i ≤ left, own' (n + i) = some o) ∧ (∀ x, own' x ≠ none → own x ≠ none ∨ n ≤ x ∧ x ≤ n + left) ∧
      Base e v b own' m' ∧ SameButChains m m' ∧
      m'.extent = [⟨0, W98_PERSIST_DISK_SECTORS, v.geo.clusterLba n⟩] := by
  obtain ⟨m', own', hloop, hext, hown, honly, hb', hsame, hone⟩ :=
    fileChainLoop_ok hr hg o hfat hdata (v.geo.clusterLba n) left hb (.inl ⟨rfl, hnil, rfl⟩)
      (by rw [Nat.zero_add]; exact hsize.le) hfree hlink hend
  refine ⟨m', own', ?_, hext, hown, honly, hb', hsame,
    by rw [hone, hsize, Nat.zero_add]⟩
  have htotal : (2 <<< 30 + m.geo.spc * 512 - 1) / (m.geo.spc * 512) = left + 1 := by
    rw [hb.geo]
    exact Nat.eq_of_mul_eq_mul_right hg.spc_pos ((disk_clusters hg).trans hsize.symm)
  have hsome : (if 2 <<< 30 = 0 then 0 else (2 <<< 30 + m.geo.spc * 512 - 1) / (m.geo.spc * 512)) =
      left + 1 := (if_neg (by decide)).trans htotal
  unfold Persist.fileChain
  simp only [hsome, Nat.succ_ne_zero, if_false, hloop, bind_eq_bind, bind_some]
  rw [if_neg (by rintro ⟨-, hne⟩; exact hne (by rw [Nat.zero_add]; exact hsize))]

theorem readFats_ok (hr : Readable e v b) (l : List Nat) (hl : ∀ s ∈ l, s < v.geo.fatSectors) :
    ∀ {m : Persist}, m.geo = v.geo → m.block = b → ∃ reads,
      l.foldlM (fun m i => (Persist.readFat e m i).map Prod.snd) m = some { m with reads := reads } := by
  induction l with
  | nil => exact fun {m} _ _ => ⟨m.reads, rfl⟩
  | cons s l ih =>
    intro m hgeo hblock
    rw [foldlM_cons, readFat_ok hr hgeo hblock (hl s mem_cons_self)]
    exact ih (fun x hx => hl x (mem_cons_of_mem _ hx)) hgeo hblock

theorem checkOwned_ok (hr : Readable e v b) (l : List Nat)
    (hl : ∀ n ∈ l, n / 128 < v.geo.fatSectors ∧
      (v.next n = 0 ∨ ValidCluster v.geo n ∧ own n ≠ none)) :
    ∀ {m : Persist}, Base e v b own m → ∃ m',
      l.foldlM (fun m n => Persist.checkOwned e m n) m = some m' := by
  induction l with
  | nil => exact fun {m} _ => ⟨m, rfl⟩
  | cons n l ih =>
    intro m hb
    obtain ⟨hn, hown⟩ := hl n mem_cons_self
    obtain ⟨m₁, hnext, -, hb₁⟩ := fatNext_ok hr hb hn
    have hcheck : m.checkOwned e n = some m₁ := by
      unfold Persist.checkOwned
      rw [hnext, bind_eq_bind, bind_some]
      simp only
      rw [if_neg]
      rintro ⟨hne, hno⟩
      obtain h0 | ⟨hvalid, hsome⟩ := hown
      · exact hne h0
      · exact hno ((hb₁.claimed n hvalid).2 hsome)
    rw [foldlM_cons, hcheck]
    exact ih (fun x hx => hl x (mem_cons_of_mem _ hx)) hb₁

/-! ### Blank places -/

variable {d : DiskDir} {dir : Nat} {w w₁ : Walk}

theorem entry_blank {p : Sector} (hend : w.ended = true ∨ p 0 = 0) (hp : ∀ i < 32, p i = 0) :
    entry e d dir w p = some { w with ended := true } := by
  have hsame : SameBytes 32 p fun _ => 0 := hp
  unfold entry
  rw [if_pos hend, if_pos hsame]

theorem entries_blank (s : Sector) (ks : List Nat) (h : ∀ k ∈ ks, ∀ i < 32, slot s k i = 0) :
    ks.foldlM (fun w k => entry e d dir w (slot s k)) { w with ended := true } =
      some { w with ended := true } := by
  induction ks with
  | nil => rfl
  | cons k ks ih =>
    have hentry : entry e d dir { w with ended := true } (slot s k) =
        some { w with ended := true } := entry_blank (.inl rfl) (h k mem_cons_self)
    rw [foldlM_cons, hentry]
    exact ih fun k' hk' => h k' (mem_cons_of_mem _ hk')

theorem sector_ok (hfails : ∀ k, e.fails k = false) {lba : Nat} (hlba : lba < w.m.block.sectors)
    (hfirst : entry e d dir { w with m := { w.m with reads := w.m.reads + 1 } }
      (slot (e.content lba) 0) = some w₁)
    (hrest : ∀ k ∈ range' 1 15, ∀ i < 32, slot (e.content lba) k i = 0) :
    sector e d dir w lba = some { w₁ with ended := true } := by
  have hsecond : entry e d dir w₁ (slot (e.content lba) 1) = some { w₁ with ended := true } :=
    entry_blank (.inr (hrest 1 (by decide) 0 (by decide))) (hrest 1 (by decide))
  unfold sector
  rw [rawRead_ok hfails hlba, bind_eq_bind, bind_some]
  show (0 :: 1 :: range' 2 14).foldlM _ _ = _
  rw [foldlM_cons, hfirst, bind_eq_bind, bind_some, foldlM_cons, hsecond,
    bind_eq_bind, bind_some]
  apply entries_blank
  intro k hk
  apply hrest k
  rw [mem_range'_1] at hk ⊢
  omega

theorem sectors_blank (d : DiskDir) (dir : Nat) (hfails : ∀ k, e.fails k = false) {n : Nat}
    (ss : List Nat) :
    ∀ {w : Walk}, (∀ s ∈ ss, w.m.geo.clusterLba n + s < w.m.block.sectors ∧
      ∀ i < 512, e.content (w.m.geo.clusterLba n + s) i = 0) → ∃ reads,
      ss.foldlM (fun w s => sector e d dir w (w.m.geo.clusterLba n + s)) { w with ended := true } =
        some { w with m := { w.m with reads := reads }, ended := true } := by
  induction ss with
  | nil => exact fun {w} _ => ⟨w.m.reads, rfl⟩
  | cons s ss ih =>
    intro w h
    obtain ⟨hlba, hblank⟩ := h s mem_cons_self
    have hslot : ∀ k < 16, ∀ i < 32, slot (e.content (w.m.geo.clusterLba n + s)) k i = 0 :=
      fun k hk i hi => hblank _ (by omega)
    have hsector : sector e d dir { w with ended := true } (w.m.geo.clusterLba n + s) =
        some { w with m := { w.m with reads := w.m.reads + 1 }, ended := true } := by
      exact sector_ok (w := { w with ended := true }) hfails hlba (entry_blank (.inl rfl) (hslot 0 (by decide)))
        fun k hk => hslot k (by have := mem_range'_1.1 hk; omega)
    rw [foldlM_cons, hsector, bind_eq_bind, bind_some]
    exact ih (w := { w with m := { w.m with reads := w.m.reads + 1 } })
      fun x hx => h x (mem_cons_of_mem _ hx)

theorem directory_ok (dir : Nat) (hr : Readable e v b) (hg : Sized v.geo) (hb : Base e v b own w.m)
    (hfat : v.geo.clusters + 2 ≤ v.geo.fatSectors * 128)
    (hdata : v.geo.dataLba + v.geo.clusters * v.geo.spc ≤ b.sectors)
    (hn : ValidCluster v.geo d.first) (hfree : own d.first = none) (heoc : Eoc (v.next d.first))
    (hrest : ∀ k ∈ range' 1 15, ∀ i < 32, slot (e.content (v.geo.clusterLba d.first)) k i = 0)
    (hblank : ∀ s ∈ range' 1 (v.geo.spc - 1), ∀ i < 512,
      e.content (v.geo.clusterLba d.first + s) i = 0)
    {Q : (Nat → Option Owner) → Walk → Prop} (hQ : ∀ own w cache reads, Q own w →
      Q own { w with m := { w.m with fatCache := cache, reads := reads }, ended := true })
    (hentry : ∀ seen reads, Base e v b (update own d.first (some (.dir d.first)))
        { w.m with seen := seen, reads := reads } →
      ∃ w₁ own₁, entry e d dir
          { w with m := { w.m with seen := seen, reads := reads }, ended := false }
          (slot (e.content (v.geo.clusterLba d.first)) 0) = some w₁ ∧
        Extends (update own d.first (some (.dir d.first))) own₁ ∧ Base e v b own₁ w₁.m ∧
        Q own₁ w₁) :
    ∃ w' own', w.directory e d dir = some w' ∧ own' d.first ≠ none ∧
      Extends own own' ∧ Base e v b own' w'.m ∧ Q own' w' := by
  obtain ⟨m₁, hclaim, ⟨seen, rfl⟩, hb₁⟩ := claim_ok (.dir d.first) hb hn hfree
  obtain ⟨w₁, own₁, hone, hext, hbw, hq⟩ := hentry seen (w.m.reads + 1) (hb₁.reads _)
  have hlba : v.geo.clusterLba d.first + v.geo.spc ≤ b.sectors := by
    have hmul : (d.first - 2 + 1) * v.geo.spc ≤ v.geo.clusters * v.geo.spc :=
      Nat.mul_le_mul_right _ hn.2
    rw [Nat.succ_mul] at hmul
    unfold Geometry.clusterLba
    omega
  have hpos := hg.spc_pos
  have hsector : sector e d dir { w with m := { w.m with seen := seen }, ended := false }
      (v.geo.clusterLba d.first) = some { w₁ with ended := true } :=
    sector_ok hr.fails (by show _ < w.m.block.sectors; rw [hb.block]; omega) hone hrest
  obtain ⟨reads, hsectors⟩ := sectors_blank d dir (n := d.first) hr.fails
    (range' 1 (v.geo.spc - 1)) (w := w₁) fun s hs => by
      rw [hbw.geo, hbw.block]
      exact ⟨by have := mem_range'_1.1 hs; omega, hblank s hs⟩
  obtain ⟨m₂, hnext, ⟨cache, reads₂, rfl⟩, hb₂⟩ := fatNext_ok hr (hbw.reads reads) (by
    have := hn.2
    omega : d.first / 128 < v.geo.fatSectors)
  have hclusters : clusters e d dir (w.m.geo.clusters + 1) { w with ended := false } d.first =
      some { w₁ with m := { w₁.m with fatCache := cache, reads := reads₂ }, ended := true } := by
    have hclusterLba : w.m.geo.clusterLba d.first = v.geo.clusterLba d.first := by rw [hb.geo]
    have hrange : range w.m.geo.spc = 0 :: range' 1 (v.geo.spc - 1) := by
      rw [hb.geo, range_eq_range', show v.geo.spc = v.geo.spc - 1 + 1 by omega, range'_succ]
      rfl
    unfold clusters
    simp only [hclaim, bind_eq_bind, bind_some, hrange, foldlM_cons, hclusterLba,
      Nat.add_zero, hsector, hsectors, hnext, if_pos heoc]
  refine ⟨{ w₁ with m := { w₁.m with fatCache := cache, reads := reads₂ }, ended := true }, own₁, ?_,
    ?_, (extends_update hfree).trans hext, hb₂, hQ own₁ w₁ cache reads₂ hq⟩
  · unfold directory
    rw [hclusters, bind_eq_bind, bind_some]
    rfl
  · rw [hext _ _ (update_self ..)]
    exact some_ne_none _

theorem directories_some {fuel i : Nat} (hd : w.m.directory[i]? = some d)
    (h : w.directory e d i = some w₁) :
    directories e (fuel + 1) w i = directories e fuel w₁ (i + 1) := by
  rw [directories, hd]
  simp only [h, bind_eq_bind, bind_some]

theorem directories_none {fuel i : Nat} (hd : w.m.directory[i]? = none) :
    directories e (fuel + 1) w i = some w := by
  rw [directories, hd]

/-! ### The whole admission -/

/-- The state of the admission before the walk. -/
def Persist.start (b : OwnedBlock) (geo : Geometry) (cache : Option (Nat × Sector)) (reads : Nat) :
    Persist :=
  ⟨b, geo, [], [], [], 0, cache, fun _ => false, reads, false, false, false⟩

def Walk.start (b : OwnedBlock) (geo : Geometry) (cache : Option (Nat × Sector)) (reads : Nat) : Walk :=
  ⟨{ Persist.start b geo cache reads with directory := [⟨geo.root, 0, 0, false⟩] }, false, 0, 0⟩

/-- The admission succeeds where its checks do and its walk ends with every cluster in use owned. -/
theorem persistDiskInit_ok (hr : Readable e e.volume b) (hsectors : b.sectors = W98_PERSIST_ESP_SECTORS)
    (hops : b.ops ≠ .missing) (hboot : BootOk (e.content 0))
    (hgeo : GeometryOk (geometryOf (e.content 0)) (u32 (e.content 0) 32))
    (hmirror : SameBytes 512 (e.content 0) (e.content 6))
    (hinfo : ∀ m : Persist, m.block = b → m.geo = geometryOf (e.content 0) →
      m.fsInfo e 1 = some { m with reads := m.reads + 1 } ∧
        m.fsInfo e 7 = some { m with reads := m.reads + 1 })
    (hfat0 : e.volume.next 0 = 0x0ffffff8) (hfat1 : e.volume.next 1 = 0x0fffffff) {extent : List Extent}
    (hextent : extent ≠ [])
    (hwalk : ∀ cache reads, Base e e.volume b (fun _ => none) (start b e.volume.geo cache reads).m →
      ∃ w own, directories e W98_PERSIST_MAX_DIRS (.start b e.volume.geo cache reads) 0 = some w ∧
        Base e e.volume b own w.m ∧ w.shzdos = 1 ∧ w.disk = 1 ∧ w.m.extent = extent ∧
        ∀ n ∈ range' 2 e.volume.geo.clusters, n / 128 < e.volume.geo.fatSectors ∧
          (e.volume.next n = 0 ∨ ValidCluster e.volume.geo n ∧ own n ≠ none)) :
    ∃ m, persistDiskInit e true b = some m ∧ m.extent = extent := by
  have hread : ∀ geo reads lba, lba < W98_PERSIST_ESP_SECTORS →
      (Persist.start b geo none reads).rawRead e lba =
        some (e.content lba, .start b geo none (reads + 1)) :=
    fun geo reads lba hlba => rawRead_ok hr.fails (hsectors.symm ▸ hlba)
  have hinfo₁ := (hinfo (.start b e.volume.geo none 2) rfl rfl).1
  have hinfo₇ := (hinfo (.start b e.volume.geo none 3) rfl rfl).2
  obtain ⟨reads, hfats⟩ := readFats_ok hr (range e.volume.geo.fatSectors)
    (fun s hs => mem_range.1 hs) (m := .start b e.volume.geo none 4) rfl rfl
  have hb : Base e e.volume b (fun _ => none) (.start b e.volume.geo none reads) :=
    ⟨rfl, rfl, rfl, rfl, nofun, fun n _ => iff_of_false nofun fun hn => hn rfl, nofun⟩
  have hpos : 0 < e.volume.geo.fatSectors := Nat.pos_of_ne_zero hgeo.1.2.2.2.2.2.1
  obtain ⟨m₀, hnext₀, ⟨cache₀, reads₀, rfl⟩, hb₀⟩ := fatNext_ok (n := 0) hr hb hpos
  obtain ⟨m₁, hnext₁, ⟨cache₁, reads₁, rfl⟩, hb₁⟩ := fatNext_ok (n := 1) hr hb₀ hpos
  obtain ⟨w, own, hdirs, hw, hshzdos, hdisk, hext, hown⟩ := hwalk cache₁ reads₁
    ⟨hb₁.content, hb₁.geo, hb₁.block, hb₁.failed, hb₁.cache, hb₁.claimed, hb₁.valid⟩
  rw [← show w.m.geo = e.volume.geo from hw.geo] at hown
  obtain ⟨m₂, hcheck⟩ := checkOwned_ok hr (range' 2 w.m.geo.clusters)
    (fun n hn => by rw [← hw.geo]; exact hown n hn) hw
  obtain ⟨cache₂, reads₂, rfl⟩ := checkOwned_spec _ hw hcheck
  refine ⟨{ w.m with fatCache := cache₂, reads := reads₂, admitted := true }, ?_, hext⟩
  unfold persistDiskInit
  rw [if_neg (by simp [hsectors, hops])]
  refine bind_eq_some_iff.2 ⟨_, hread _ 0 0 (by decide), ?_⟩
  refine (if_neg (not_not_intro hboot)).trans ?_
  refine (if_neg (not_not_intro hgeo)).trans ?_
  refine bind_eq_some_iff.2 ⟨_, hread _ 1 6 (by decide), ?_⟩
  refine (if_neg (not_not_intro hmirror)).trans ?_
  refine bind_eq_some_iff.2 ⟨_, hinfo₁, ?_⟩
  refine bind_eq_some_iff.2 ⟨_, hinfo₇, ?_⟩
  refine bind_eq_some_iff.2 ⟨_, hfats, ?_⟩
  refine bind_eq_some_iff.2 ⟨_, hnext₀, ?_⟩
  refine bind_eq_some_iff.2 ⟨_, hnext₁, ?_⟩
  refine (if_neg (by simp [hfat0, hfat1])).trans ?_
  refine bind_eq_some_iff.2 ⟨_, hdirs, ?_⟩
  refine (if_neg (by simp [hshzdos, hdisk, hext, hextent])).trans ?_
  exact bind_eq_some_iff.2 ⟨_, hcheck, rfl⟩

end Win98Modern.NativeWin98
