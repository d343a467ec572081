import Win98Modern.NativeWin98.DiskWalk

/-!
# The admitted disk

After the walk every directory of the volume is in the list with its clusters and entries (`Walked`).
`persistDiskInit_spec`: the admitted extents are the sectors of `DISK.IMG`, and no other file or
directory of the volume has one of them (`DiskImage`).
-/

namespace Win98Modern.NativeWin98

open Option

open Volume

variable {e : Esp} {v : Volume} {b : OwnedBlock} {own own' : Nat → Option Owner} {w w' : Walk}

/-- The directory owns its chain, and its entries are listed. -/
def Handled (v : Volume) (own : Nat → Option Owner) (dirs : List DiskDir) (x : DiskDir) : Prop :=
  ∃ l, v.FatChain x.first l ∧ (∀ n ∈ l, own n = some (.dir x.first)) ∧
    ∀ a ∈ v.entries l, Listed v own dirs x.first a

theorem Handled.mono {dirs dirs' : List DiskDir} {x : DiskDir} (h : Handled v own dirs x)
    (hown : Extends own own') (hdirs : dirs ⊆ dirs') : Handled v own' dirs' x := by
  obtain ⟨l, hl, hdir, hentries⟩ := h
  exact ⟨l, hl, fun n hn => hown n _ (hdir n hn), fun a ha => (hentries a ha).mono hown hdirs⟩

/-- The entry at `a` is in `SHZDOS`. -/
def InShzdos (v : Volume) (a : Nat × Nat) : Prop :=
  ∃ f l, v.Dir f true ∧ v.FatChain f l ∧ a ∈ v.entries l

/-- The walk after the first `i` directories of the list. -/
structure Walked (e : Esp) (v : Volume) (b : OwnedBlock) (own : Nat → Option Owner) (i : Nat)
    (w : Walk) : Prop where
  base : Base e v b own w.m
  dir : ∀ x ∈ w.m.directory, v.Dir x.first x.shzdos
  root : ∃ x ∈ w.m.directory, x.first = v.geo.root ∧ x.shzdos = false
  handled : ∀ j < i, ∀ x, w.m.directory[j]? = some x → Handled v own w.m.directory x
  found : Found v own w (InShzdos v)

theorem directory_spec (hg : Sized v.geo) {i : Nat} {d : DiskDir} (hw : Walked e v b own i w)
    (hd : w.m.directory[i]? = some d) (h : w.directory e d i = some w') :
    ∃ own', Extends own own' ∧ Walked e v b own' (i + 1) w' := by
  obtain ⟨w₁, hclusters, h⟩ := bind_eq_some_iff.1 h
  obtain ⟨-, h⟩ := ite_none_right_eq_some.1 h
  obtain rfl := some.inj h
  have hstart : Scan e v b own d w.m.directory (InShzdos v) [] { w with ended := false } :=
    ⟨hw.base, iff_of_false nofun (by rintro ⟨a, ha, -⟩; cases ha), nofun, List.prefix_refl _,
      fun x hx => .inl hx, hw.found.mono (.refl own) (fun a => .inl) rfl rfl⟩
  obtain ⟨t, own', ht, hext, hown, hs⟩ := clusters_spec hg _ hstart hclusters
  have hchain : v.FatChain d.first (d.first :: t) := ⟨t, rfl, ht⟩
  have hdir : v.Dir d.first d.shzdos := hw.dir d (List.mem_of_getElem? hd)
  refine ⟨own', hext, hs.base, ?_, ?_, ?_, ?_⟩
  · intro x hx
    obtain hx | ⟨a, ha, hsub, hfirst, hshz⟩ := hs.fresh x hx
    · exact hw.dir x hx
    · rw [hfirst, hshz]
      exact .sub hdir hchain ha hsub
  · obtain ⟨x, hx, heq⟩ := hw.root
    exact ⟨x, hs.kept.subset hx, heq⟩
  · intro j hj x hx
    have hlen : i < w.m.directory.length := (List.getElem?_eq_some_iff.1 hd).1
    have hold : w.m.directory[j]? = some x := by
      obtain ⟨new, hnew⟩ := hs.kept
      rw [← hnew, List.getElem?_append_left (by omega)] at hx
      exact hx
    obtain hji | rfl := Nat.lt_succ_iff_lt_or_eq.1 hj
    · exact (hw.handled j hji x hold).mono hext hs.kept.subset
    · obtain rfl := some.inj (hd.symm.trans hold)
      exact ⟨_, hchain, hown, hs.listed⟩
  · refine hs.found.mono (.refl own') (fun a ha => ?_) rfl rfl
    obtain ha | ⟨hshzdos, ha⟩ := ha
    · exact ha
    · rw [hshzdos] at hdir
      exact ⟨d.first, _, hdir, hchain, ha⟩

theorem directories_spec (hg : Sized v.geo) (fuel : Nat) : ∀ {own : Nat → Option Owner} {i : Nat}
    {w w' : Walk}, Walked e v b own i w → w.directories e fuel i = some w' →
    ∃ own', Walked e v b own' w'.m.directory.length w' := by
  induction fuel with
  | zero =>
    intro own i w w' hw h
    obtain ⟨hlen, h⟩ := ite_none_right_eq_some.1 h
    obtain rfl := some.inj h
    exact ⟨own, hw.base, hw.dir, hw.root, fun j hj => hw.handled j (by omega), hw.found⟩
  | succ fuel ih =>
    intro own i w w' hw h
    unfold Walk.directories at h
    split at h
    · rename_i hnone
      obtain rfl := some.inj h
      have hlen := List.getElem?_eq_none_iff.1 hnone
      exact ⟨own, hw.base, hw.dir, hw.root, fun j hj => hw.handled j (by omega), hw.found⟩
    · rename_i d hd
      obtain ⟨w₁, hdirectory, h⟩ := bind_eq_some_iff.1 h
      obtain ⟨own₁, -, hw₁⟩ := directory_spec hg hw hd hdirectory
      exact ih hw₁ h

variable {f lba : Nat} {l : List Nat} {m m' : Persist}

theorem Walked.mem_of_dir (h : Walked e v b own w.m.directory.length w) {s : Bool} (hf : v.Dir f s) :
    ∃ x ∈ w.m.directory, x.first = f ∧ x.shzdos = s := by
  induction hf with
  | root => exact h.root
  | @sub dir s l a hdir hchain ha hsub ih =>
    obtain ⟨x, hx, rfl, -⟩ := ih
    obtain ⟨j, hj⟩ := List.getElem?_of_mem hx
    obtain ⟨l', hl', -, hentries⟩ := h.handled j (List.getElem?_eq_some_iff.1 hj).1 x hj
    rw [hchain.unique hl'] at ha
    exact (hentries a ha).subdir hsub

theorem Walked.handled_of_dir (h : Walked e v b own w.m.directory.length w) {s : Bool}
    (hf : v.Dir f s) (hl : v.FatChain f l) :
    (∀ n ∈ l, own n = some (.dir f)) ∧ ∀ a ∈ v.entries l, Listed v own w.m.directory f a := by
  obtain ⟨x, hx, rfl, -⟩ := h.mem_of_dir hf
  obtain ⟨j, hj⟩ := List.getElem?_of_mem hx
  obtain ⟨l', hl', hown, hentries⟩ := h.handled j (List.getElem?_eq_some_iff.1 hj).1 x hj
  rw [hl.unique hl']
  exact ⟨hown, hentries⟩

theorem disjoint_sectors (hb : Base e v b own w.m) {o o' : Owner} (hne : o ≠ o') {l' : List Nat}
    (hl : ∀ n ∈ l, own n = some o) (hl' : ∀ n ∈ l', own n = some o') (h : lba ∈ v.sectors l) :
    lba ∉ v.sectors l' := by
  intro h'
  obtain ⟨n, hn, s, hs, rfl⟩ := mem_sectors.1 h
  obtain ⟨n', hn', s', hs', heq⟩ := mem_sectors.1 h'
  obtain ⟨rfl, -⟩ := clusterLba_inj (hb.valid n o (hl n hn)) (hb.valid n' o' (hl' n' hn')) hs hs' heq
  exact hne (some.inj ((hl n hn).symm.trans (hl' n hn')))

/-- `c` are the clusters of `DISK.IMG`, whose entry is at `a`; the admitted disk is the sectors of `c`
in order, each once, in the data area of the volume, and no other file and no directory has one of
them. -/
structure DiskImage (v : Volume) (sectors : Nat) (m : Persist) (a : Nat × Nat) (c : List Nat) :
    Prop where
  inShzdos : InShzdos v a
  file : IsFile (v.entryAt a)
  named : equalName (v.entryAt a) "DISK    IMG"
  chain : v.FatChain (firstOf (v.entryAt a)) c
  maps : Maps m.extent (v.sectors c)
  size : (v.sectors c).length = W98_PERSIST_DISK_SECTORS
  nodup : (v.sectors c).Nodup
  dataLba : v.geo.dataLba = v.geo.reserved + 2 * v.geo.fatSectors
  inData : ∀ lba ∈ v.sectors c, v.geo.dataLba ≤ lba ∧ lba < sectors
  directories : ∀ f s l, v.Dir f s → v.FatChain f l → ∀ lba ∈ v.sectors l, lba ∉ v.sectors c
  files : ∀ f s l a' c', v.Dir f s → v.FatChain f l → a' ∈ v.entries l → a' ≠ a →
    IsFile (v.entryAt a') → firstOf (v.entryAt a') ≠ 0 → v.FatChain (firstOf (v.entryAt a')) c' →
      ∀ lba ∈ v.sectors c', lba ∉ v.sectors c

theorem diskImage_of_walked (hw : Walked e v b own w.m.directory.length w) (hdisk : w.disk = 1)
    (hdata : v.geo.dataLba = v.geo.reserved + 2 * v.geo.fatSectors)
    (hroom : v.geo.dataLba + v.geo.clusters * v.geo.spc ≤ b.sectors) :
    ∃ a c, DiskImage v b.sectors w.m a c := by
  obtain ⟨h0, -⟩ | ⟨-, a, c, hin, hat⟩ := hw.found
  · rw [hdisk] at h0
    cases h0
  refine ⟨a, c, hin, hat.file, hat.named, hat.chain, hat.maps, hat.size, ?_, hdata, ?_, ?_, ?_⟩
  · exact nodup_sectors hat.chain.nodup fun n hn => hw.base.valid n _ (hat.own n hn)
  · intro lba hlba
    obtain ⟨n, hn, s, hs, rfl⟩ := mem_sectors.1 hlba
    obtain ⟨h2, hlt⟩ := hw.base.valid n _ (hat.own n hn)
    have hmul : (n - 2 + 1) * v.geo.spc ≤ v.geo.clusters * v.geo.spc := Nat.mul_le_mul_right _ hlt
    rw [Nat.succ_mul] at hmul
    unfold Geometry.clusterLba
    omega
  · intro f s l hf hl lba hlba
    obtain ⟨hown, -⟩ := hw.handled_of_dir hf hl
    exact disjoint_sectors hw.base (show Owner.dir f ≠ .file a from nofun) hown hat.own hlba
  · intro f s l a' c' hf hl ha' hne hfile hfirst hc' lba hlba
    obtain ⟨-, hentries⟩ := hw.handled_of_dir hf hl
    obtain ⟨c'', hc'', hown⟩ := (hentries a' ha').file hfile hfirst
    rw [hc'.unique hc''] at hlba
    exact disjoint_sectors hw.base (fun he => hne (Owner.file.inj he)) hown hat.own hlba

/-! ### Before and after the walk -/

theorem fsInfo_spec (h : m.fsInfo e lba = some m') : ∃ reads, m' = { m with reads := reads } := by
  obtain ⟨⟨s, m₁⟩, hread, h⟩ := bind_eq_some_iff.1 h
  obtain ⟨-, rfl⟩ := rawRead_spec hread
  obtain ⟨-, h⟩ := ite_none_left_eq_some.1 h
  obtain ⟨-, h⟩ := ite_none_left_eq_some.1 h
  obtain ⟨-, h⟩ := ite_none_left_eq_some.1 h
  exact ⟨_, (some.inj h).symm⟩

theorem readFats_spec (l : List Nat)
    (h : l.foldlM (fun m i => (Persist.readFat e m i).map Prod.snd) m = some m') :
    ∃ reads, m' = { m with reads := reads } := by
  refine foldlM_inv (I := fun _ x => ∃ reads, x = { m with reads := reads }) ?_ l []
    ⟨m.reads, rfl⟩ h
  rintro - x i x' ⟨reads, rfl⟩ hread
  obtain ⟨⟨s, x₁⟩, hfat, rfl⟩ := map_eq_some_iff.1 hread
  obtain ⟨-, rfl⟩ := readFat_spec hfat
  exact ⟨_, rfl⟩

theorem checkOwned_spec (l : List Nat) (hb : Base e v b own m)
    (h : l.foldlM (fun m n => Persist.checkOwned e m n) m = some m') : SameButReads m m' := by
  have hinv := foldlM_inv (I := fun _ x => SameButReads m x ∧ Base e v b own x) ?_ l []
    ⟨⟨m.fatCache, m.reads, rfl⟩, hb⟩ h
  · exact hinv.1
  · rintro - x n x' ⟨⟨cache, reads, rfl⟩, hx⟩ hcheck
    obtain ⟨⟨next, x₁⟩, hnext, hcheck⟩ := bind_eq_some_iff.1 hcheck
    obtain ⟨-, ⟨cache', reads', rfl⟩, hx'⟩ := fatNext_spec hx hnext
    obtain ⟨-, hcheck⟩ := ite_none_left_eq_some.1 hcheck
    obtain rfl := some.inj hcheck
    exact ⟨⟨cache', reads', rfl⟩, hx'⟩

/-- The volume that the boot sector describes. -/
def Esp.volume (e : Esp) : Volume := ⟨geometryOf (e.content 0), e.content⟩

theorem sized_of_geometryOk {g : Geometry} {sectors : Nat} (h : GeometryOk g sectors) : Sized g :=
  ⟨Nat.pos_of_ne_zero h.1.1, h.1.2.1, h.1.2.2.1, h.2.2.1⟩

theorem clusters_room {s : Sector} (h : GeometryOk (geometryOf s) (u32 s 32)) :
    (geometryOf s).dataLba + (geometryOf s).clusters * (geometryOf s).spc ≤
      W98_PERSIST_ESP_SECTORS := by
  obtain ⟨⟨-, -, -, -, hsectors, -, hfats⟩, hclusters, -⟩ := h
  have hmul : (geometryOf s).clusters * (geometryOf s).spc ≤ u32 s 32 - (geometryOf s).dataLba :=
    Nat.div_mul_le_self _ _
  have hpos : 0 < u32 s 32 - (geometryOf s).dataLba := by
    by_contra h0
    have hzero : (geometryOf s).clusters = 0 := by
      show (u32 s 32 - (geometryOf s).dataLba) / (geometryOf s).spc = 0
      rw [Nat.eq_zero_of_not_pos h0, Nat.zero_div]
    omega
  omega

/-- **Admission.**  An admitted disk is the image of `DISK.IMG`. -/
theorem persistDiskInit_spec {optin : Bool} (h : persistDiskInit e optin b = some m) :
    m.admitted = true ∧ m.failed = false ∧ m.block = b ∧ b.sectors = W98_PERSIST_ESP_SECTORS ∧
      ∃ a c, DiskImage e.volume b.sectors m a c := by
  obtain ⟨hargs, h⟩ := ite_none_left_eq_some.1 h
  have hsectors : b.sectors = W98_PERSIST_ESP_SECTORS :=
    not_not.1 (not_or.1 (not_or.1 hargs).2).1
  obtain ⟨⟨boot, m₁⟩, hboot, h⟩ := bind_eq_some_iff.1 h
  obtain ⟨rfl, rfl⟩ := rawRead_spec hboot
  obtain ⟨-, h⟩ := ite_none_left_eq_some.1 h
  obtain ⟨hgeo, h⟩ := ite_none_left_eq_some.1 h
  have hgeo := not_not.1 hgeo
  obtain ⟨⟨mirror, m₂⟩, hmirror, h⟩ := bind_eq_some_iff.1 h
  obtain ⟨-, rfl⟩ := rawRead_spec hmirror
  obtain ⟨-, h⟩ := ite_none_left_eq_some.1 h
  obtain ⟨m₃, hinfo, h⟩ := bind_eq_some_iff.1 h
  obtain ⟨reads₃, rfl⟩ := fsInfo_spec hinfo
  obtain ⟨m₄, hinfo', h⟩ := bind_eq_some_iff.1 h
  obtain ⟨reads₄, rfl⟩ := fsInfo_spec hinfo'
  obtain ⟨m₅, hfats, h⟩ := bind_eq_some_iff.1 h
  obtain ⟨reads₅, rfl⟩ := readFats_spec _ hfats
  obtain ⟨⟨fat0, m₆⟩, hfat0, h⟩ := bind_eq_some_iff.1 h
  have hb₅ : Base e e.volume b (fun _ => none)
      ⟨b, geometryOf (e.content 0), [], [], [], 0, none, fun _ => false, reads₅, false, false, false⟩ :=
    ⟨rfl, rfl, rfl, rfl, nofun, fun n _ => iff_of_false nofun fun hn => hn rfl, nofun⟩
  obtain ⟨-, ⟨cache₆, reads₆, rfl⟩, hb₆⟩ := fatNext_spec hb₅ hfat0
  obtain ⟨⟨fat1, m₇⟩, hfat1, h⟩ := bind_eq_some_iff.1 h
  obtain ⟨-, ⟨cache₇, reads₇, rfl⟩, hb₇⟩ := fatNext_spec hb₆ hfat1
  obtain ⟨-, h⟩ := ite_none_left_eq_some.1 h
  obtain ⟨w, hwalk, h⟩ := bind_eq_some_iff.1 h
  obtain ⟨hfound, h⟩ := ite_none_left_eq_some.1 h
  obtain ⟨m₈, hcheck, h⟩ := bind_eq_some_iff.1 h
  obtain rfl := some.inj h
  have hstart : Walked e e.volume b (fun _ => none) 0
      ⟨⟨b, geometryOf (e.content 0), [], [⟨(geometryOf (e.content 0)).root, 0, 0, false⟩], [], 0, cache₇,
        fun _ => false, reads₇, false, false, false⟩, false, 0, 0⟩ := by
    refine ⟨⟨rfl, rfl, rfl, rfl, hb₇.cache, hb₇.claimed, nofun⟩, ?_, ?_, nofun, .inl ⟨rfl, rfl⟩⟩
    · intro x hx
      obtain rfl := List.mem_singleton.1 hx
      exact .root
    · exact ⟨_, List.mem_singleton_self _, rfl, rfl⟩
  obtain ⟨own, hw⟩ := directories_spec (sized_of_geometryOk hgeo) _ hstart hwalk
  obtain ⟨cache₈, reads₈, rfl⟩ := checkOwned_spec _ hw.base hcheck
  have hdisk : w.disk = 1 := not_not.1 (not_or.1 (not_or.1 hfound).2).1
  obtain ⟨a, c, himage⟩ := diskImage_of_walked hw hdisk rfl (hsectors ▸ clusters_room hgeo)
  refine ⟨rfl, hw.base.failed, hw.base.block, hsectors, a, c, himage.inShzdos, himage.file, himage.named,
    himage.chain, himage.maps, himage.size, himage.nodup, himage.dataLba, himage.inData,
    himage.directories, himage.files⟩

/-- **Translation.**  `location` gives the sectors of `DISK.IMG` in order. -/
theorem location_spec {a : Nat × Nat} {c : List Nat} (hadmitted : m.admitted = true)
    (hfailed : m.failed = false) (h : DiskImage v m.block.sectors m a c) (s : Nat) :
    m.location s = (v.sectors c)[s]? := by
  obtain ⟨hcontig, hmapped⟩ := h.maps
  unfold Persist.location
  by_cases hs : W98_PERSIST_DISK_SECTORS ≤ s
  · rw [if_pos (.inr (.inr hs)), List.getElem?_eq_none (h.size ▸ hs)]
  · have hlt : s < (mapped m.extent).length := by
      rw [hmapped, h.size]
      exact Nat.not_le.1 hs
    obtain ⟨i, x, hx, hlo, hhi, hget⟩ := mapped_get hcontig (Nat.zero_le s) (by omega)
    have hlen := (List.getElem?_eq_some_iff.1 hx).1
    rw [Nat.sub_zero, hmapped] at hget
    rw [if_neg (by rw [hadmitted, hfailed]; simpa using Nat.not_le.1 hs),
      locate_eq hcontig hx hlo hhi _ 0 _ (by omega) (Nat.zero_le i) hlen (Nat.le_refl _), hget]
    exact filter_some_pos (decide_eq_true (h.inData _ (List.mem_of_getElem? hget)).2)

end Win98Modern.NativeWin98
