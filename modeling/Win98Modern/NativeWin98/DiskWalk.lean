import Win98Modern.NativeWin98.DiskChains

/-!
# The walk over the directories

`Scan` says what the walk knows inside a directory, for the places read so far, and `Walked` what it
knows after some directories: their entries are listed with the clusters they own, and the extents
are those of the disk, if it was found.
-/

namespace Win98Modern.NativeWin98

open List Option

open Volume

variable {e : Esp} {v : Volume} {b : OwnedBlock} {own own' : Nat → Option Owner} {w w' : Walk}
  {d : DiskDir} {old : List DiskDir} {P Q : Nat × Nat → Prop} {done : List (Nat × Nat)} {a : Nat × Nat}

/-- The entry at `a` of the directory `dir` is in the list of directories, or owns the clusters of its
chain. -/
structure Listed (v : Volume) (own : Nat → Option Owner) (dirs : List DiskDir) (dir : Nat)
    (a : Nat × Nat) : Prop where
  subdir : IsSubdir (v.entryAt a) → ∃ x ∈ dirs, x.first = firstOf (v.entryAt a) ∧
    x.shzdos = v.isShzdos dir (v.entryAt a)
  file : IsFile (v.entryAt a) → firstOf (v.entryAt a) ≠ 0 →
    ∃ c, v.FatChain (firstOf (v.entryAt a)) c ∧ ∀ x ∈ c, own x = some (.file a)

variable {dirs : List DiskDir} {dir : Nat} {p : Sector}

theorem Listed.mono {dirs' : List DiskDir} (h : Listed v own dirs dir a) (hown : Extends own own')
    (hdirs : dirs ⊆ dirs') : Listed v own' dirs' dir a := by
  constructor
  · intro hsub
    obtain ⟨x, hx, heq⟩ := h.subdir hsub
    exact ⟨x, hdirs hx, heq⟩
  · intro hfile hfirst
    obtain ⟨c, hc, hcown⟩ := h.file hfile hfirst
    exact ⟨c, hc, fun x hx => hown x _ (hcown x hx)⟩

theorem Listed.of_not_object (h : ¬IsObject (v.entryAt a)) : Listed v own dirs dir a :=
  ⟨fun hsub => absurd hsub.1 h, fun hfile => absurd hfile.1 h⟩

/-- The extents are those of the disk with the entry at `a`. -/
structure DiskAt (v : Volume) (own : Nat → Option Owner) (extent : List Extent) (a : Nat × Nat)
    (c : List Nat) : Prop where
  file : IsFile (v.entryAt a)
  named : equalName (v.entryAt a) "DISK    IMG"
  chain : v.FatChain (firstOf (v.entryAt a)) c
  own : ∀ x ∈ c, own x = some (.file a)
  maps : Maps extent (v.sectors c)
  size : (v.sectors c).length = W98_PERSIST_DISK_SECTORS

/-- The disk was not found yet, or at a place with `P`. -/
def Found (v : Volume) (own : Nat → Option Owner) (w : Walk) (P : Nat × Nat → Prop) : Prop :=
  (w.disk = 0 ∧ w.m.extent = []) ∨ (w.disk ≠ 0 ∧ ∃ a c, P a ∧ DiskAt v own w.m.extent a c)

theorem Found.mono (h : Found v own w P) (hown : Extends own own') (hPQ : ∀ a, P a → Q a)
    (hdisk : w'.disk = w.disk) (hextent : w'.m.extent = w.m.extent) : Found v own' w' Q := by
  obtain ⟨h0, hnil⟩ | ⟨h1, a, c, hP, hat⟩ := h
  · exact .inl ⟨hdisk.trans h0, hextent.trans hnil⟩
  · refine .inr ⟨fun h0 => h1 (hdisk ▸ h0), a, c, hPQ a hP, hat.file, hat.named, hat.chain, ?_, ?_,
      hat.size⟩
    · exact fun x hx => hown x _ (hat.own x hx)
    · rw [hextent]
      exact hat.maps

/-- The walk in the directory `d`, which began with the directories `old`, after the places `done`. -/
structure Scan (e : Esp) (v : Volume) (b : OwnedBlock) (own : Nat → Option Owner) (d : DiskDir)
    (old : List DiskDir) (P : Nat × Nat → Prop) (done : List (Nat × Nat)) (w : Walk) : Prop where
  base : Base e v b own w.m
  ended : w.ended = true ↔ ∃ a ∈ done, v.entryAt a 0 = 0
  listed : ∀ a ∈ v.live done, Listed v own w.m.directory d.first a
  kept : old <+: w.m.directory
  fresh : ∀ x ∈ w.m.directory, x ∈ old ∨ ∃ a ∈ v.live done, IsSubdir (v.entryAt a) ∧
    x.first = firstOf (v.entryAt a) ∧ x.shzdos = v.isShzdos d.first (v.entryAt a)
  found : Found v own w fun a => P a ∨ d.shzdos = true ∧ a ∈ v.live done

theorem Scan.push (h : Scan e v b own d old P done w) (hown : Extends own own')
    (hbase : Base e v b own' w'.m) (hended : w.ended = false) (hended' : w'.ended = false)
    (ha : v.entryAt a 0 ≠ 0) (hkept : w.m.directory <+: w'.m.directory)
    (hfresh : ∀ x ∈ w'.m.directory, x ∈ w.m.directory ∨ IsSubdir (v.entryAt a) ∧
      x.first = firstOf (v.entryAt a) ∧ x.shzdos = v.isShzdos d.first (v.entryAt a))
    (hlisted : Listed v own' w'.m.directory d.first a)
    (hfound : Found v own' w' fun x => P x ∨ d.shzdos = true ∧ x ∈ done ++ [a]) :
    Scan e v b own' d old P (done ++ [a]) w' := by
  have hno : ¬∃ x ∈ done, v.entryAt x 0 = 0 := fun hx => by
    rw [h.ended.2 hx] at hended
    cases hended
  have hno' : ¬∃ x ∈ done ++ [a], v.entryAt x 0 = 0 := by
    rintro ⟨x, hx, h0⟩
    obtain hx | hx := mem_append.1 hx
    · exact hno ⟨x, hx, h0⟩
    · exact ha (mem_singleton.1 hx ▸ h0)
  have hlive := live_of_no_end hno
  refine ⟨hbase, iff_of_false (by rw [hended']; nofun) hno', ?_, h.kept.trans hkept, ?_, ?_⟩ <;>
    rw [live_of_no_end hno']
  · intro x hx
    obtain hx | hx := mem_append.1 hx
    · exact (h.listed x (hlive.symm ▸ hx)).mono hown hkept.subset
    · rw [mem_singleton.1 hx]
      exact hlisted
  · intro x hx
    obtain hx | hnew := hfresh x hx
    · refine (h.fresh x hx).imp id fun ⟨y, hy, heq⟩ => ?_
      exact ⟨y, mem_append_left _ (hlive ▸ hy), heq⟩
    · exact .inr ⟨a, mem_append_right _ (mem_singleton_self a), hnew⟩
  · exact hfound

theorem Scan.pad (h : Scan e v b own d old P done w) (ha : w.ended = true ∨ v.entryAt a 0 = 0) :
    Scan e v b own d old P (done ++ [a]) { w with ended := true } := by
  have hend : ∃ x ∈ done ++ [a], v.entryAt x 0 = 0 := by
    obtain he | h0 := ha
    · obtain ⟨x, hx, h0⟩ := h.ended.1 he
      exact ⟨x, mem_append_left _ hx, h0⟩
    · exact ⟨a, mem_append_right _ (mem_singleton_self a), h0⟩
  have hlive : v.live (done ++ [a]) = v.live done := by
    by_cases hdone : ∃ x ∈ done, v.entryAt x 0 = 0
    · exact live_append_of_end hdone
    · have h0 : v.entryAt a 0 = 0 := ha.resolve_left fun he => hdone (h.ended.1 he)
      rw [live_of_no_end hdone]
      unfold live
      rw [takeWhile_append_of_pos fun x hx => by simpa using fun h0 => hdone ⟨x, hx, h0⟩,
        takeWhile_cons, if_neg (by simpa using h0), append_nil]
  refine ⟨h.base, iff_of_true rfl hend, ?_, h.kept, ?_, ?_⟩ <;> rw [hlive]
  · exact h.listed
  · exact h.fresh
  · exact h.found

theorem uniqueName_spec {m m' : Persist} (h : m.uniqueName dir p = some m') :
    ∃ name, m' = { m with name := name } := by
  unfold Persist.uniqueName at h
  split at h
  · cases h
  · split at h
    · cases h
    · exact ⟨_, (some.inj h).symm⟩

/-- A subdirectory is put into the list. -/
theorem child_spec (hgeo : w.m.geo = v.geo) (h : w.child d p = some w') :
    ∃ x shzdos, w' = { w with m := { w.m with directory := w.m.directory ++ [x] }, shzdos } ∧
      x.first = firstOf p ∧ x.shzdos = v.isShzdos d.first p := by
  have hshz : v.isShzdos d.first p = decide (d.first = w.m.geo.root ∧ equalName p "SHZDOS     ") := by
    rw [hgeo]
    rfl
  obtain ⟨-, h⟩ := ite_none_left_eq_some.1 h
  rw [hshz]
  generalize decide (d.first = w.m.geo.root ∧ equalName p "SHZDOS     " = true) = shzdos at h ⊢
  cases shzdos with
  | true =>
    obtain ⟨-, h⟩ := ite_none_right_eq_some.1 h
    exact ⟨_, _, (some.inj h).symm, rfl, rfl⟩
  | false => exact ⟨_, _, (some.inj h).symm, rfl, rfl⟩

theorem file_spec (hg : Sized v.geo) (hb : Base e v b own w.m) (hfound : Found v own w P)
    (hfile : IsFile (v.entryAt a)) (h : w.file e d (v.entryAt a) = some w') :
    ∃ own', Extends own own' ∧ Base e v b own' w'.m ∧ w'.ended = w.ended ∧
      w'.m.directory = w.m.directory ∧
      (firstOf (v.entryAt a) ≠ 0 →
        ∃ c, v.FatChain (firstOf (v.entryAt a)) c ∧ ∀ x ∈ c, own' x = some (.file a)) ∧
      Found v own' w' fun x => P x ∨ d.shzdos = true ∧ x = a := by
  unfold Walk.file at h
  simp only at h
  generalize hmember : (decide (d.shzdos = true ∧ equalName (v.entryAt a) "DISK    IMG" = true)) =
    member at h
  split at h
  · cases h
  · rename_i hcheck
    obtain ⟨m', hchain, h⟩ := bind_eq_some_iff.1 h
    obtain rfl := some.inj h
    have hdisk : member = true → bytesOf (v.entryAt a) = 2 <<< 30 ∧ w.m.extent = [] := by
      intro hm
      obtain ⟨hsize, hcount⟩ := not_or.1 fun hbad => hcheck ⟨hm, hbad⟩
      refine ⟨not_not.1 hsize, ?_⟩
      obtain ⟨-, hnil⟩ | ⟨h1, -⟩ := hfound
      · exact hnil
      · exact absurd (not_not.1 hcount) (by omega)
    obtain ⟨own', hext, hb', ⟨extent, seen, cache, reads, rfl⟩, hsame, hfirst, hmaps⟩ :=
      fileChain_spec hg (.file a) hb hdisk hchain
    refine ⟨own', hext, hb', rfl, rfl, hfirst, ?_⟩
    cases member with
    | false => exact hfound.mono hext (fun _ => .inl) rfl (hsame rfl)
    | true =>
      obtain ⟨hshzdos, hname⟩ := of_decide_eq_true hmember
      obtain ⟨c, hc, hown, hm, hsize⟩ := hmaps rfl
      exact .inr ⟨Nat.succ_ne_zero _, a, c, .inr ⟨hshzdos, rfl⟩, hfile, hname, hc, hown, hm, hsize⟩

theorem object_spec (hg : Sized v.geo) (hs : Scan e v b own d old P done w) (hended : w.ended = false)
    (ha : v.entryAt a 0 ≠ 0) (hdeleted : v.entryAt a 0 ≠ 0xe5)
    (h : w.object e d (v.entryAt a) = some w') :
    ∃ own', Extends own own' ∧ Scan e v b own' d old P (done ++ [a]) w' := by
  have hown := Extends.refl own
  have hdone : v.live done = done := live_of_no_end fun hx => by
    rw [hs.ended.2 hx] at hended
    cases hended
  have hfound := hs.found
  rw [hdone] at hfound
  have hmore : ∀ x, (P x ∨ d.shzdos = true ∧ x ∈ done) → P x ∨ d.shzdos = true ∧ x ∈ done ++ [a] :=
    fun x => Or.imp id fun ⟨h1, h2⟩ => ⟨h1, mem_append_left _ h2⟩
  -- what is no object changes nothing
  have hskip : ¬IsObject (v.entryAt a) → some w = some w' →
      ∃ own', Extends own own' ∧ Scan e v b own' d old P (done ++ [a]) w' := by
    intro hno heq
    obtain rfl := some.inj heq
    exact ⟨own, hown, hs.push hown hs.base hended hended ha (prefix_refl _) (fun _ => .inl)
      (.of_not_object hno) (hfound.mono hown hmore rfl rfl)⟩
  obtain ⟨-, h⟩ := ite_none_left_eq_some.1 h
  obtain ⟨-, h⟩ := ite_none_left_eq_some.1 h
  by_cases hdot : IsDot (v.entryAt a)
  · rw [if_pos hdot] at h
    exact hskip (fun ho => ho.2.1 hdot) (ite_none_left_eq_some.1 h).2
  rw [if_neg hdot] at h
  by_cases hdotdot : IsDotDot (v.entryAt a)
  · rw [if_pos hdotdot] at h
    exact hskip (fun ho => ho.2.2.1 hdotdot) (ite_none_left_eq_some.1 h).2
  rw [if_neg hdotdot] at h
  obtain ⟨-, h⟩ := ite_none_left_eq_some.1 h
  by_cases hlabel : attrOf (v.entryAt a) &&& 8 ≠ 0
  · rw [if_pos hlabel] at h
    exact hskip (fun ho => hlabel ho.2.2.2) (ite_none_left_eq_some.1 h).2
  rw [if_neg hlabel] at h
  have hobject : IsObject (v.entryAt a) := ⟨hdeleted, hdot, hdotdot, not_not.1 hlabel⟩
  by_cases hsub : attrOf (v.entryAt a) &&& 16 ≠ 0
  · rw [if_pos hsub] at h
    obtain ⟨x, shzdos, rfl, hfirst, hshz⟩ := child_spec (v := v) hs.base.geo h
    have hb := hs.base
    refine ⟨own, hown, hs.push hown ?_ hended hended ha (prefix_append _ _) ?_ ?_ ?_⟩
    · exact ⟨hb.content, hb.geo, hb.block, hb.failed, hb.cache, hb.claimed, hb.valid⟩
    · intro y hy
      obtain hy | hy := mem_append.1 hy
      · exact .inl hy
      · rw [mem_singleton.1 hy]
        exact .inr ⟨⟨hobject, hsub⟩, hfirst, hshz⟩
    · exact ⟨fun _ => ⟨x, mem_append_right _ (mem_singleton_self x), hfirst, hshz⟩,
        fun hf => absurd hf.2 hsub⟩
    · exact hfound.mono hown hmore rfl rfl
  · rw [if_neg hsub] at h
    have hfile : IsFile (v.entryAt a) := ⟨hobject, not_not.1 hsub⟩
    obtain ⟨own', hext, hb', hended', hdirs, hchain, hfound'⟩ :=
      file_spec hg hs.base hfound hfile h
    refine ⟨own', hext, hs.push hext hb' hended (hended'.trans hended) ha ?_ ?_ ?_ ?_⟩
    · rw [hdirs]
    · intro y hy
      rw [hdirs] at hy
      exact .inl hy
    · exact ⟨fun hd => absurd hfile.2 hd.2, fun _ => hchain⟩
    · refine hfound'.mono (.refl own') (fun x hx => ?_) rfl rfl
      obtain hx | ⟨hshzdos, rfl⟩ := hx
      · exact hmore x hx
      · exact .inr ⟨hshzdos, mem_append_right _ (mem_singleton_self _)⟩

theorem Scan.named (h : Scan e v b own d old P done w) (count : Nat) (name : List (Nat × List Byte)) :
    Scan e v b own d old P done
      { w with m := { w.m with entriesSeen := count, name := name } } :=
  have hb := h.base
  ⟨⟨hb.content, hb.geo, hb.block, hb.failed, hb.cache, hb.claimed, hb.valid⟩, h.ended, h.listed,
    h.kept, h.fresh, h.found⟩

theorem entry_spec (hg : Sized v.geo) (hs : Scan e v b own d old P done w)
    (h : w.entry e d dir (v.entryAt a) = some w') :
    ∃ own', Extends own own' ∧ Scan e v b own' d old P (done ++ [a]) w' := by
  unfold Walk.entry at h
  by_cases hend : w.ended = true ∨ v.entryAt a 0 = 0
  · rw [if_pos hend] at h
    obtain ⟨-, h⟩ := ite_none_right_eq_some.1 h
    obtain rfl := some.inj h
    exact ⟨own, .refl own, hs.pad hend⟩
  · rw [if_neg hend] at h
    obtain ⟨hended, ha⟩ := not_or.1 hend
    have hended : w.ended = false := by simpa using hended
    by_cases hdeleted : v.entryAt a 0 = 0xe5
    · rw [if_pos hdeleted] at h
      obtain rfl := some.inj h
      have hdone : v.live done = done := live_of_no_end fun hx => by
        rw [hs.ended.2 hx] at hended
        cases hended
      refine ⟨own, .refl own, hs.push (.refl own) hs.base hended hended ha (prefix_refl _)
        (fun _ => .inl) (.of_not_object fun ho => ho.1 hdeleted) ?_⟩
      have hfound := hs.found
      rw [hdone] at hfound
      exact hfound.mono (.refl own)
        (fun x => Or.imp id fun ⟨h1, h2⟩ => ⟨h1, mem_append_left _ h2⟩) rfl rfl
    · rw [if_neg hdeleted] at h
      obtain ⟨-, h⟩ := ite_none_left_eq_some.1 h
      obtain ⟨-, h⟩ := ite_none_left_eq_some.1 h
      obtain ⟨m, hunique, h⟩ := bind_eq_some_iff.1 h
      obtain ⟨name, rfl⟩ := uniqueName_spec hunique
      exact object_spec hg (hs.named _ name) hended ha hdeleted h

/-! ### The loops -/

/-- A fold that fails with its steps: what each step keeps, the fold keeps. -/
theorem foldlM_inv {α σ : Type*} {f : σ → α → Option σ} {I : List α → σ → Prop}
    (hstep : ∀ done s x s', I done s → f s x = some s' → I (done ++ [x]) s') (xs : List α) :
    ∀ (done : List α) {s s' : σ}, I done s → xs.foldlM f s = some s' → I (done ++ xs) s' := by
  induction xs with
  | nil =>
    intro done s s' hs h
    obtain rfl := some.inj h
    rwa [append_nil]
  | cons x xs ih =>
    intro done s s' hs h
    obtain ⟨t, ht, h⟩ := bind_eq_some_iff.1 h
    rw [append_cons]
    exact ih _ (hstep done s x t hs ht) h

/-- Owners that were added, and the walk after the places. -/
def Scanned (e : Esp) (v : Volume) (b : OwnedBlock) (own : Nat → Option Owner) (d : DiskDir)
    (old : List DiskDir) (P : Nat × Nat → Prop) (done : List (Nat × Nat)) (w : Walk) : Prop :=
  ∃ own', Extends own own' ∧ Scan e v b own' d old P done w

theorem sector_spec (hg : Sized v.geo) {lba : Nat} (hs : Scanned e v b own d old P done w)
    (h : w.sector e d dir lba = some w') :
    Scanned e v b own d old P (done ++ (List.range 16).map fun k => (lba, k)) w' := by
  obtain ⟨⟨data, m⟩, hread, h⟩ := bind_eq_some_iff.1 h
  obtain ⟨rfl, rfl⟩ := rawRead_spec hread
  have hstart : Scanned e v b own d old P (done ++ ([] : List Nat).map fun k => (lba, k))
      { w with m := { w.m with reads := w.m.reads + 1 } } := by
    obtain ⟨own', hext, hs⟩ := hs
    rw [map_nil, append_nil]
    exact ⟨own', hext, hs.base.reads _, hs.ended, hs.listed, hs.kept, hs.fresh, hs.found⟩
  refine foldlM_inv (I := fun ks w => Scanned e v b own d old P
    (done ++ ks.map fun k => (lba, k)) w) ?_ (List.range 16) [] hstart h
  rintro ks w₁ k w₂ ⟨own₁, hext, hs₁⟩ hentry
  have hcontent : slot (e.content lba) k = v.entryAt (lba, k) := by
    unfold entryAt
    rw [hs₁.base.content]
  rw [hcontent] at hentry
  obtain ⟨own₂, hext₂, hs₂⟩ := entry_spec hg hs₁ hentry
  rw [map_append, ← append_assoc]
  exact ⟨own₂, hext.trans hext₂, hs₂⟩

theorem cluster_spec (hg : Sized v.geo) {n spc : Nat} (hspc : spc = v.geo.spc)
    (hs : Scanned e v b own d old P done w) (h : (List.range spc).foldlM
      (fun w s => Walk.sector e d dir w (w.m.geo.clusterLba n + s)) w = some w') :
    Scanned e v b own d old P (done ++ v.places [n]) w' := by
  have hplaces : v.places [n] = (List.range v.geo.spc).flatMap fun s =>
      (List.range 16).map fun k => (v.geo.clusterLba n + s, k) := by
    unfold places sectors
    rw [flatMap_singleton, List.range'_eq_map_range, flatMap_map]
  have hstart : Scanned e v b own d old P (done ++ ([] : List Nat).flatMap fun s =>
      (List.range 16).map fun k => (v.geo.clusterLba n + s, k)) w := by
    rwa [flatMap_nil, append_nil]
  rw [hspc] at h
  rw [hplaces]
  refine foldlM_inv (I := fun ss w => Scanned e v b own d old P (done ++ ss.flatMap fun s =>
    (List.range 16).map fun k => (v.geo.clusterLba n + s, k)) w) ?_ _ [] hstart h
  intro ss w₁ s w₂ hs₁ hsector
  have hgeo : w₁.m.geo = v.geo := by
    obtain ⟨_, -, hs₁⟩ := hs₁
    exact hs₁.base.geo
  rw [hgeo] at hsector
  rw [flatMap_append, flatMap_singleton, ← append_assoc]
  exact sector_spec hg hs₁ hsector

theorem places_cons (n : Nat) (l : List Nat) : v.places (n :: l) = v.places [n] ++ v.places l := by
  unfold places
  rw [← flatMap_append]
  congr 1
  rw [sectors_cons, sectors_cons n [], show v.sectors [] = [] from rfl, append_nil]

/-- **The clusters of a directory** are its chain, and each is claimed for it. -/
theorem clusters_spec (hg : Sized v.geo) (fuel : Nat) : ∀ {own : Nat → Option Owner}
    {n : Nat} {done : List (Nat × Nat)} {w w' : Walk}, Scan e v b own d old P done w →
    w.clusters e d dir fuel n = some w' →
    ∃ t own', Chain id v.succ n t ∧ Extends own own' ∧ (∀ x ∈ n :: t, own' x = some (.dir d.first)) ∧
      Scan e v b own' d old P (done ++ v.places (n :: t)) w' := by
  induction fuel with
  | zero =>
    intro own n done w w' hs h
    cases h
  | succ fuel ih =>
    intro own n done w w' hs h
    obtain ⟨m, hclaim, h⟩ := bind_eq_some_iff.1 h
    obtain ⟨w₁, hsectors, h⟩ := bind_eq_some_iff.1 h
    obtain ⟨⟨next, m₂⟩, hnext, h⟩ := bind_eq_some_iff.1 h
    obtain ⟨-, hfree, ⟨seen, rfl⟩, hb⟩ := claim_spec (.dir d.first) hs.base hclaim
    have hext := extends_update (o := .dir d.first) hfree
    have hs₀ : Scan e v b (Function.update own n (some (.dir d.first))) d old P done
        { w with m := { w.m with seen := seen } } :=
      ⟨hb, hs.ended, fun a ha => (hs.listed a ha).mono hext (List.Subset.refl _), hs.kept, hs.fresh,
        hs.found.mono hext (fun _ => id) rfl rfl⟩
    obtain ⟨own₁, hext₁, hs₁⟩ := cluster_spec hg (congrArg Geometry.spc hs.base.geo)
      ⟨_, .refl _, hs₀⟩ hsectors
    obtain ⟨rfl, ⟨cache, reads, rfl⟩, hb₂⟩ := fatNext_spec hs₁.base hnext
    have hs₂ : Scan e v b own₁ d old P (done ++ v.places [n])
        { w₁ with m := { w₁.m with fatCache := cache, reads := reads } } :=
      ⟨hb₂, hs₁.ended, hs₁.listed, hs₁.kept, hs₁.fresh, hs₁.found⟩
    have hn : own₁ n = some (.dir d.first) := hext₁ n _ (Function.update_self ..)
    simp only at h
    by_cases heoc : Eoc (v.next n)
    · rw [if_pos heoc] at h
      obtain rfl := some.inj h
      refine ⟨[], own₁, if_pos heoc, hext.trans hext₁, fun x hx => ?_, hs₂⟩
      rw [mem_singleton.1 hx]
      exact hn
    · rw [if_neg heoc] at h
      obtain ⟨t, own', ht, hext', hown, hs'⟩ := ih hs₂ h
      refine ⟨v.next n :: t, own', ⟨if_neg heoc, ht⟩, (hext.trans hext₁).trans hext', ?_, ?_⟩
      · intro x hx
        obtain rfl | hx := mem_cons.1 hx
        · exact hext' _ _ hn
        · exact hown x hx
      · rw [append_assoc, ← places_cons] at hs'
        exact hs'

end Win98Modern.NativeWin98
