import Win98Modern.NativeWin98.DiskVolume

/-!
# Claims and chains

Each claimed cluster has an owner, the directory or the file for which it was claimed, and keeps it
(`Base`, `Extends`).  `fileChain_spec`: a chain that is accepted is the chain of the FAT, and all its
clusters were free; the extents of the disk are its sectors.
-/

namespace Win98Modern.NativeWin98

open Function List Option

open Volume

/-- A directory, by its first cluster, or a file, by the place of its entry. -/
inductive Owner
  | dir (first : Nat)
  | file (place : Nat × Nat)

variable {e : Esp} {v : Volume} {b : OwnedBlock} {own own' own'' : Nat → Option Owner}
  {m m' : Persist} {n : Nat} {o : Owner}

/-- Later owners leave earlier ones as they are. -/
def Extends (own own' : Nat → Option Owner) : Prop := ∀ n o, own n = some o → own' n = some o

theorem Extends.refl (own : Nat → Option Owner) : Extends own own := fun _ _ h => h

theorem Extends.trans (h : Extends own own') (h' : Extends own' own'') : Extends own own'' :=
  fun n o hn => h' n o (h n o hn)

/-- The state is that of an admission of the volume `v`; the clusters it claimed have owners. -/
structure Base (e : Esp) (v : Volume) (b : OwnedBlock) (own : Nat → Option Owner) (m : Persist) :
    Prop where
  content : v.content = e.content
  geo : m.geo = v.geo
  block : m.block = b
  failed : m.failed = false
  cache : ∀ c, m.fatCache = some c → c.2 = v.content (v.geo.reserved + c.1)
  claimed : ∀ n, ValidCluster v.geo n → (m.claimed n = true ↔ own n ≠ none)
  valid : ∀ n o, own n = some o → ValidCluster v.geo n

/-- Only what reading changes differs. -/
def SameButReads (m m' : Persist) : Prop :=
  ∃ cache reads, m' = { m with fatCache := cache, reads := reads }

variable {lba first count : Nat} {s : Sector} {l : List Nat} {disk : Bool}

theorem rawRead_spec (h : m.rawRead e lba = some (s, m')) :
    s = e.content lba ∧ m' = { m with reads := m.reads + 1 } := by
  unfold Persist.rawRead at h
  split at h
  · cases h
  · obtain ⟨rfl, rfl⟩ := Prod.mk.inj (some.inj h)
    exact ⟨rfl, rfl⟩

theorem readFat_spec {sector : Nat} (h : m.readFat e sector = some (s, m')) :
    s = e.content (m.geo.reserved + sector) ∧ m' = { m with reads := m.reads + 2 } := by
  obtain ⟨⟨fat, m₁⟩, h₁, h⟩ := bind_eq_some_iff.1 h
  obtain ⟨⟨mirror, m₂⟩, h₂, h⟩ := bind_eq_some_iff.1 h
  obtain ⟨hfat, rfl⟩ := rawRead_spec h₁
  obtain ⟨-, rfl⟩ := rawRead_spec h₂
  simp only at h
  split at h
  · obtain ⟨rfl, rfl⟩ := Prod.mk.inj (some.inj h)
    exact ⟨hfat, rfl⟩
  · cases h

theorem Base.reads (h : Base e v b own m) (reads : Nat) : Base e v b own { m with reads := reads } :=
  ⟨h.content, h.geo, h.block, h.failed, h.cache, h.claimed, h.valid⟩

theorem fatNext_spec {next : Nat} (h : Base e v b own m) (hn : m.fatNext e n = some (next, m')) :
    next = v.next n ∧ SameButReads m m' ∧ Base e v b own m' := by
  unfold Persist.fatNext at hn
  simp only at hn
  split at hn
  · cases hn
  · split at hn
    · rename_i c hc
      obtain ⟨hcache, hsector⟩ := filter_eq_some_iff.1 hc
      obtain ⟨rfl, rfl⟩ := Prod.mk.inj (some.inj hn)
      refine ⟨?_, ⟨m.fatCache, m.reads, rfl⟩, h⟩
      rw [h.cache c hcache, of_decide_eq_true hsector]
      rfl
    · obtain ⟨⟨s, m₁⟩, hread, hn⟩ := bind_eq_some_iff.1 hn
      obtain ⟨rfl, rfl⟩ := readFat_spec hread
      obtain ⟨rfl, rfl⟩ := Prod.mk.inj (some.inj hn)
      have hcontent : e.content (m.geo.reserved + n / 128) =
          v.content (v.geo.reserved + n / 128) := by rw [h.content, h.geo]
      refine ⟨?_, ⟨_, _, rfl⟩, h.content, h.geo, h.block, h.failed, ?_, h.claimed, h.valid⟩
      · rw [hcontent]
        rfl
      · intro c hc
        obtain rfl := some.inj hc
        exact hcontent

theorem claim_spec (o : Owner) (h : Base e v b own m) (hn : m.claim n = some m') :
    ValidCluster v.geo n ∧ own n = none ∧ (∃ seen, m' = { m with seen := seen }) ∧
      Base e v b (update own n (some o)) m' := by
  unfold Persist.claim at hn
  split at hn
  · cases hn
  · rename_i hfree
    obtain ⟨hvalid, hfree⟩ := not_or.1 hfree
    rw [not_not, h.geo] at hvalid
    have hnone : own n = none := by
      by_contra hown
      exact hfree ((h.claimed n hvalid).2 hown)
    obtain rfl := some.inj hn
    refine ⟨hvalid, hnone, ⟨_, rfl⟩, h.content, h.geo, h.block, h.failed, h.cache, ?_, ?_⟩
    · intro x hx
      show update m.seen (n - 2) true (x - 2) = true ↔ _
      by_cases hxn : x = n
      · rw [hxn, update_self, update_self]
        exact ⟨fun _ => nofun, fun _ => rfl⟩
      · have hne : x - 2 ≠ n - 2 := by
          have := hx.1
          have := hvalid.1
          omega
        rw [update_of_ne hne, update_of_ne hxn]
        exact h.claimed x hx
    · intro x o' hx
      by_cases hxn : x = n
      · rw [hxn]
        exact hvalid
      · rw [update_of_ne hxn] at hx
        exact h.valid x o' hx

theorem extends_update (hn : own n = none) : Extends own (update own n (some o)) := by
  intro x o' hx
  rw [update_of_ne (fun he => by rw [he, hn] at hx; cases hx)]
  exact hx

/-! ### Extents -/

/-- The extents follow each other from 0 on and map `l`. -/
def Maps (extent : List Extent) (l : List Nat) : Prop := Contiguous 0 extent ∧ mapped extent = l

theorem range'_append_range' {a k : Nat} :
    List.range' a k ++ List.range' (a + k) n = List.range' a (k + n) := by
  rw [← List.range'_append_1]

theorem addExtent_frame (h : m.addExtent first count lba = some m') :
    ∃ extent, m' = { m with extent := extent } := by
  unfold Persist.addExtent at h
  split at h
  · cases h
  · simp only at h
    split at h
    · split at h
      · obtain rfl := some.inj h
        exact ⟨_, rfl⟩
      · split at h
        · cases h
        · obtain rfl := some.inj h
          exact ⟨_, rfl⟩
    · split at h
      · cases h
      · obtain rfl := some.inj h
        exact ⟨_, rfl⟩

theorem addExtent_spec (h : Maps m.extent l) (hadd : m.addExtent l.length count lba = some m') :
    Maps m'.extent (l ++ List.range' lba count) := by
  obtain ⟨hcontig, rfl⟩ := h
  unfold Persist.addExtent at hadd
  split at hadd
  · cases hadd
  · rename_i hcheck
    have hcount : 0 < count := Nat.pos_of_ne_zero (not_or.1 hcheck).1
    have hfresh : (if m.extent.length = W98_PERSIST_MAX_EXTENTS then none
        else some { m with extent := m.extent ++ [⟨(mapped m.extent).length, count, lba⟩] }) = some m' →
        Maps m'.extent (mapped m.extent ++ List.range' lba count) := by
      intro hm
      split at hm
      · cases hm
      · obtain rfl := some.inj hm
        refine ⟨contiguous_append.2 ⟨hcontig, ?_, hcount, trivial⟩, ?_⟩
        · exact (Nat.zero_add _).symm
        · rw [mapped_append, mapped_singleton]
    simp only at hadd
    split at hadd
    · rename_i last hlast
      obtain ⟨pre, hpre⟩ := List.getLast?_eq_some_iff.1 hlast
      split at hadd
      · rename_i hmerge
        obtain rfl := some.inj hadd
        show Maps (m.extent.dropLast ++ [{ last with count := last.count + count }]) _
        rw [hpre, dropLast_concat]
        rw [hpre, contiguous_append] at hcontig
        obtain ⟨hcontig, hfirst, hpos, -⟩ := hcontig
        refine ⟨contiguous_append.2 ⟨hcontig, hfirst, Nat.lt_of_lt_of_le hpos (Nat.le_add_right _ _),
          trivial⟩, ?_⟩
        rw [mapped_append, mapped_append, mapped_singleton, mapped_singleton, append_assoc,
          ← hmerge.2, range'_append_range']
      · exact hfresh hadd
    · exact hfresh hadd

/-! ### The chain of a file -/

/-- Only what `file_chain` changes differs. -/
def SameButChains (m m' : Persist) : Prop :=
  ∃ extent seen cache reads,
    m' = { m with extent := extent, seen := seen, fatCache := cache, reads := reads }

theorem SameButChains.trans {m'' : Persist} (h : SameButChains m m') (h' : SameButChains m' m'') :
    SameButChains m m'' := by
  obtain ⟨_, _, _, _, rfl⟩ := h
  obtain ⟨x, s, c, r, rfl⟩ := h'
  exact ⟨x, s, c, r, rfl⟩

theorem Base.extents (h : Base e v b own m) (extent : List Extent) :
    Base e v b own { m with extent := extent } :=
  ⟨h.content, h.geo, h.block, h.failed, h.cache, h.claimed, h.valid⟩

theorem grow_spec (h : m.grow disk first count lba = some m') :
    (∃ extent, m' = { m with extent := extent }) ∧ (disk = false → m'.extent = m.extent) ∧
      (disk = true → first = l.length → Maps m.extent l →
        Maps m'.extent (l ++ List.range' lba count)) := by
  cases disk with
  | false =>
    obtain rfl := some.inj h
    exact ⟨⟨_, rfl⟩, fun _ => rfl, nofun⟩
  | true =>
    refine ⟨addExtent_frame h, nofun, ?_⟩
    rintro - rfl hmaps
    exact addExtent_spec hmaps h

theorem not_eoc_of_valid (hclusters : v.geo.clusters ≤ W98_PERSIST_MAX_CLUSTERS)
    (hn : ValidCluster v.geo n) : ¬Eoc n := by
  have hmax : v.geo.clusters ≤ 1048576 := hclusters
  intro h
  have h' : 0x0ffffff8 ≤ n := h
  have := hn.2
  omega

theorem fileChainLoop_step (o : Owner) {left logical logical' : Nat} (hb : Base e v b own m)
    (h : m.fileChainLoop e disk (left + 1) n logical = some (m', logical')) :
    ∃ m₁, own n = none ∧ Base e v b (update own n (some o)) m₁ ∧ SameButChains m m₁ ∧
      (disk = false → m₁.extent = m.extent) ∧
      (disk = true → ∀ l : List Nat, logical = l.length → Maps m.extent l →
        l.length + v.geo.spc ≤ W98_PERSIST_DISK_SECTORS →
        Maps m₁.extent (l ++ v.sectors [n])) ∧
      (if left = 0 then Eoc (v.next n) else ValidCluster v.geo (v.next n)) ∧
      m₁.fileChainLoop e disk left (v.next n)
        (if disk then logical + min v.geo.spc (W98_PERSIST_DISK_SECTORS - logical) else logical) =
          some (m', logical') := by
  obtain ⟨m₁, hclaim, h⟩ := bind_eq_some_iff.1 h
  obtain ⟨⟨next, m₂⟩, hnext, h⟩ := bind_eq_some_iff.1 h
  obtain ⟨m₃, hgrow, h⟩ := bind_eq_some_iff.1 h
  obtain ⟨-, hfree, ⟨seen, rfl⟩, hb₁⟩ := claim_spec o hb hclaim
  obtain ⟨rfl, ⟨cache, reads, rfl⟩, hb₂⟩ := fatNext_spec hb₁ hnext
  obtain ⟨⟨extent, rfl⟩, hsame, -⟩ := grow_spec (l := []) hgrow
  have hb₃ := hb₂.extents extent
  rw [← hb.geo]
  split at h
  · cases h
  · rename_i hend
    refine ⟨_, hfree, hb₃, ⟨extent, seen, cache, reads, rfl⟩, hsame, ?_, ?_, h⟩
    · intro hd l hl hmaps hroom
      have hmin : min m.geo.spc (W98_PERSIST_DISK_SECTORS - logical) = m.geo.spc :=
        Nat.min_eq_left (by omega)
      rw [hmin] at hgrow
      rw [sectors_cons, show v.sectors [] = [] from rfl, append_nil, ← hb.geo]
      exact (grow_spec hgrow).2.2 hd hl hmaps
    · by_cases h0 : left = 0
      · rw [if_pos h0]
        by_contra hne
        exact hend (.inl ⟨h0, hne⟩)
      · rw [if_neg h0]
        by_contra hne
        exact hend (.inr ⟨h0, hne⟩)

theorem fileChainLoop_spec (hclusters : v.geo.clusters ≤ W98_PERSIST_MAX_CLUSTERS) (disk : Bool)
    (o : Owner) (left : Nat) : ∀ (m : Persist) (own : Nat → Option Owner) (n : Nat) (l : List Nat)
    (logical : Nat) (m' : Persist) (logical' : Nat), Base e v b own m →
    (disk = true → logical = l.length ∧ Maps m.extent l ∧
      l.length + (left + 1) * v.geo.spc ≤ W98_PERSIST_DISK_SECTORS) →
    m.fileChainLoop e disk (left + 1) n logical = some (m', logical') →
    ∃ t own', Chain id v.succ n t ∧ t.length = left ∧ Extends own own' ∧
      (∀ x ∈ n :: t, own' x = some o) ∧ Base e v b own' m' ∧ SameButChains m m' ∧
      (disk = false → m'.extent = m.extent) ∧
      (disk = true → Maps m'.extent (l ++ v.sectors (n :: t))) := by
  induction left with
  | zero =>
    intro m own n l logical m' logical' hb hdisk h
    obtain ⟨m₁, hfree, hb₁, hframe, hsame, hmaps, hend, hrest⟩ := fileChainLoop_step o hb h
    obtain ⟨rfl, -⟩ := Prod.mk.inj (some.inj hrest)
    refine ⟨[], _, if_pos hend, rfl, extends_update hfree, ?_, hb₁, hframe, hsame, fun hd => ?_⟩
    · intro x hx
      rw [mem_singleton.1 hx, update_self]
    · obtain ⟨hl, hm, hroom⟩ := hdisk hd
      exact hmaps hd l hl hm (by omega)
  | succ left ih =>
    intro m own n l logical m' logical' hb hdisk h
    obtain ⟨m₁, hfree, hb₁, hframe, hsame, hmaps, hvalid, hrest⟩ := fileChainLoop_step o hb h
    have hsucc : v.succ n = some (v.next n) := if_neg (not_eoc_of_valid hclusters hvalid)
    obtain ⟨t, own', ht, hlen, hext, hown, hb', hframe', hsame', hmaps'⟩ :=
      ih m₁ _ (v.next n) (l ++ v.sectors [n]) _ m' logical' hb₁ (fun hd => by
        obtain ⟨hl, hm, hroom⟩ := hdisk hd
        rw [Nat.succ_mul] at hroom
        refine ⟨?_, hmaps hd l hl hm (by omega), ?_⟩
        · rw [if_pos hd, length_append, length_sectors, length_singleton, Nat.one_mul, hl,
            Nat.min_eq_left (by omega)]
        · rw [length_append, length_sectors, length_singleton, Nat.one_mul]
          omega) hrest
    refine ⟨v.next n :: t, own', ⟨hsucc, ht⟩, by rw [length_cons, hlen],
      (extends_update hfree).trans hext, ?_, hb', hframe.trans hframe',
      fun hd => (hsame' hd).trans (hsame hd), fun hd => ?_⟩
    · intro x hx
      obtain rfl | hx := mem_cons.1 hx
      · exact hext x o (update_self ..)
      · exact hown x hx
    · have := hmaps' hd
      rwa [append_assoc, show v.sectors [n] ++ v.sectors (v.next n :: t) =
        v.sectors (n :: v.next n :: t) from by rw [sectors_cons, sectors_cons n (_ :: t)]; simp [sectors]]
        at this

/-- What the admission knows of the geometry. -/
structure Sized (g : Geometry) : Prop where
  spc_pos : 0 < g.spc
  spc_le : g.spc ≤ 128
  spc_pow : g.spc &&& (g.spc - 1) = 0
  clusters_le : g.clusters ≤ W98_PERSIST_MAX_CLUSTERS

theorem disk_clusters {g : Geometry} (h : Sized g) :
    (2 <<< 30 + g.spc * 512 - 1) / (g.spc * 512) * g.spc = W98_PERSIST_DISK_SECTORS := by
  have hall : ∀ s < 129, 0 < s → s &&& (s - 1) = 0 →
      (2 <<< 30 + s * 512 - 1) / (s * 512) * s = W98_PERSIST_DISK_SECTORS := by decide
  exact hall g.spc (Nat.lt_succ_of_le h.spc_le) h.spc_pos h.spc_pow

/-- **An accepted chain** is the chain of the FAT; its clusters had no owner before.  The extents of
the disk are its sectors, in order. -/
theorem fileChain_spec (hg : Sized v.geo) (o : Owner) {bytes : Nat} (hb : Base e v b own m)
    (hdisk : disk = true → bytes = 2 <<< 30 ∧ m.extent = [])
    (h : m.fileChain e first bytes disk = some m') :
    ∃ own', Extends own own' ∧ Base e v b own' m' ∧ SameButChains m m' ∧
      (disk = false → m'.extent = m.extent) ∧
      (first ≠ 0 → ∃ c, v.FatChain first c ∧ ∀ x ∈ c, own' x = some o) ∧
      (disk = true → ∃ c, v.FatChain first c ∧ (∀ x ∈ c, own' x = some o) ∧
        Maps m'.extent (v.sectors c) ∧ (v.sectors c).length = W98_PERSIST_DISK_SECTORS) := by
  unfold Persist.fileChain at h
  rw [hb.geo] at h
  generalize htotal : (if bytes = 0 then 0 else (bytes + v.geo.spc * 512 - 1) / (v.geo.spc * 512)) =
    total at h
  simp only at h
  cases total with
  | zero =>
    rw [if_pos rfl] at h
    split at h
    · rename_i h0
      obtain rfl := some.inj h
      refine ⟨own, .refl own, hb, ⟨_, _, _, _, rfl⟩, fun _ => rfl, fun hne => absurd h0 hne, ?_⟩
      intro hd
      rw [(hdisk hd).1, if_neg (by decide)] at htotal
      have hsize := disk_clusters hg
      rw [htotal, Nat.zero_mul] at hsize
      exact absurd hsize (by decide)
    · cases h
  | succ left =>
    obtain ⟨⟨m₁, logical⟩, hloop, h⟩ := bind_eq_some_iff.1 h
    split at h
    · cases h
    · obtain rfl := some.inj h
      have hsize : disk = true → (left + 1) * v.geo.spc = W98_PERSIST_DISK_SECTORS := by
        intro hd
        rw [(hdisk hd).1, if_neg (by decide)] at htotal
        rw [← htotal]
        exact disk_clusters hg
      obtain ⟨t, own', ht, hlen, hext, hown, hb', hframe, hsame, hmaps⟩ :=
        fileChainLoop_spec hg.clusters_le disk o left m own first [] 0 m₁ logical hb (fun hd => by
          rw [(hdisk hd).2]
          exact ⟨rfl, ⟨trivial, rfl⟩, by rw [length_nil, Nat.zero_add]; exact (hsize hd).le⟩) hloop
      refine ⟨own', hext, hb', hframe, hsame, fun _ => ⟨first :: t, ⟨t, rfl, ht⟩, hown⟩, fun hd => ?_⟩
      refine ⟨first :: t, ⟨t, rfl, ht⟩, hown, hmaps hd, ?_⟩
      rw [length_sectors, length_cons, hlen]
      exact hsize hd

end Win98Modern.NativeWin98
