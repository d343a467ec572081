import Win98Modern.Libsfs.NamespaceTree
import Mathlib.Algebra.GroupWithZero.Nat

/-!
# Link counts

The link count of a file is the number of its entries.  That of a directory is 2
and its subdirectories, or 1 for good once that was too much for the volume
(`DirCount`).  An inode is free exactly when no entry names it (`Freed`).

`sfs_add_blocks` reports `EFBIG` also for a count that shrinks, so releasing an
inode stops when what remains is still beyond 32 bits of sectors: its last entry
is gone, but the inode is not freed.  As long as each inode that loses its last
entry is `Releasable`, all of this holds over every run (`run_links`).
-/

namespace Win98Modern.Libsfs

open Function List

/-! ### Counting entries -/

/-- The number of subdirectories. -/
def Ns.subdirs (n : Ns) (d : Ino) : Nat := n.entries.countP (fun e => e.dir = d ∧ n.isDir e.ino)

section

variable {feat : Features} {rel : Ino → Prop} {nlink : Bool} {n m : Ns}

theorem named_congr (he : m.entries = n.entries) (j : Ino) : m.named j = n.named j := by
  unfold Ns.named
  rw [he]

theorem subdirs_congr (he : m.entries = n.entries) (hm : m.mode = n.mode) (d : Ino) :
    m.subdirs d = n.subdirs d := by
  unfold Ns.subdirs Ns.isDir
  rw [he, hm]

variable {d od nd i : Ino} {name oname nname : Name} {e : Entry} {ty l subs mode : Nat}
  {k : NewKind}

theorem subdirs_removeEntry
    (hn : n.entries.Pairwise (fun a b => ¬(a.dir = b.dir ∧ a.name = b.name)))
    (he : n.entry d name = some e) (j : Ino) : n.subdirs j = (n.removeEntry d name).subdirs j +
      if e.dir = j ∧ n.isDir e.ino = true then 1 else 0 := by
  unfold Ns.subdirs
  rw [(entries_perm hn he).countP_eq, countP_cons]
  simp only [decide_eq_true_eq]
  rfl

theorem relocated_subdirs (hn : n.entries.Pairwise (fun a b => ¬(a.dir = b.dir ∧ a.name = b.name)))
    (he : n.entry od oname = some e) (hkey : ¬(nd = od ∧ nname = oname)) (j : Ino) :
    ((n.addEntry ⟨nd, nname, e.ino, ty⟩).removeEntry od oname).subdirs j +
        (if od = j ∧ n.isDir e.ino = true then 1 else 0) =
      n.subdirs j + if nd = j ∧ n.isDir e.ino = true then 1 else 0 := by
  obtain ⟨-, rfl, -⟩ := entry_mem he
  rw [subdirs_removeEntry hn he]
  unfold Ns.subdirs
  rw [relocated_entries hkey, countP_cons]
  simp only [decide_eq_true_eq]
  exact Nat.add_right_comm ..

/-! ### The counts of directories -/

/-- The link count `l` of a directory with `subs` subdirectories. -/
def DirCount (nlink : Bool) (l subs : Nat) : Prop := l = 2 + subs ∨ nlink = true ∧ l = 1

theorem DirCount.inc (h : DirCount nlink l subs) (hg : nlink = false → l < LINK_MAX) :
    DirCount nlink (linkInc nlink l) (subs + 1) := by
  unfold linkInc
  rcases h with rfl | ⟨hnl, rfl⟩
  · rw [if_neg (by omega)]
    split
    · right
      cases nlink with
      | true => exact ⟨rfl, rfl⟩
      | false =>
        have := hg rfl
        omega
    · left
      omega
  · rw [if_pos ⟨rfl, hnl⟩]
    exact .inr ⟨hnl, rfl⟩

theorem DirCount.dec (h : DirCount nlink l (subs + 1)) : DirCount nlink (linkDec l) subs := by
  unfold linkDec
  rcases h with rfl | ⟨hnl, rfl⟩
  · rw [if_pos (by omega)]
    exact .inl (by omega)
  · rw [if_neg (by omega)]
    exact .inr ⟨hnl, rfl⟩

theorem DirCount.saturates (h : DirCount nlink l subs) (hg : nlink = false → l < LINK_MAX)
    (hone : linkInc nlink l = 1) : l = 1 ∨ nlink = true ∧ LINK_MAX < 2 + (subs + 1) := by
  rcases h with rfl | ⟨-, rfl⟩
  · right
    unfold linkInc at hone
    rw [if_neg (by omega)] at hone
    split at hone
    · cases nlink with
      | true => exact ⟨rfl, by omega⟩
      | false =>
        have := hg rfl
        omega
    · omega
  · exact .inl rfl

theorem linkDec_le (l : Nat) : linkDec l ≤ l := by
  unfold linkDec
  split <;> omega

theorem linkDec_eq_one (h : linkDec l = 1) : l = 1 := by
  unfold linkDec at h
  split at h <;> omega

theorem linkInc_lt (h : l < 2 ^ 16) : linkInc nlink l < 2 ^ 16 := by
  unfold linkInc LINK_MAX
  split
  · exact h
  · split <;> omega

/-! ### The invariant -/

/-- The link counts agree with the entries, and fit their 16 bits. -/
structure Counted (nlink : Bool) (n : Ns) : Prop where
  file : ∀ i, n.Live i → n.isDir i = false → n.links i = n.named i
  dir : ∀ d, n.DirNode d → DirCount nlink (n.links d) (n.subdirs d)
  fits : ∀ i, n.links i < 2 ^ 16

/-- Inodes above the reserved ones are in use exactly when an entry names them. -/
def Freed (feat : Features) (n : Ns) : Prop :=
  ∀ i, feat.firstIno ≤ i → (n.used i = true ↔ n.named i ≠ 0)

/-- The link count of a directory has become 1 only with `dir_nlink`, and only
where there are too many subdirectories. -/
def Saturates (nlink : Bool) (n m : Ns) : Prop :=
  ∀ d, m.DirNode d → m.links d = 1 →
    n.DirNode d ∧ n.links d = 1 ∨ nlink = true ∧ LINK_MAX < 2 + m.subdirs d

/-! ### One inode -/

/-- The inode `j` of `m` has the right link count, after `n`. -/
structure Recounted (nlink : Bool) (n m : Ns) (j : Ino) : Prop where
  file : m.Live j → m.isDir j = false → m.links j = m.named j
  dir : m.DirNode j → DirCount nlink (m.links j) (m.subdirs j) ∧ (m.links j = 1 →
    n.DirNode j ∧ n.links j = 1 ∨ nlink = true ∧ LINK_MAX < 2 + m.subdirs j)
  fits : m.links j < 2 ^ 16

theorem counted_of_recounted (h : ∀ j, Recounted nlink n m j) :
    Counted nlink m ∧ Saturates nlink n m :=
  ⟨⟨fun j => (h j).file, fun j hj => ((h j).dir hj).1, fun j => (h j).fits⟩,
    fun j hj => ((h j).dir hj).2⟩

variable {j : Ino}

theorem Counted.same (hc : Counted nlink n) (hu : m.used j = true → n.used j = true)
    (hl : m.links j = n.links j) (hd : m.isDir j = n.isDir j)
    (hnamed : n.isDir j = false → m.named j = n.named j)
    (hsub : n.isDir j = true → m.subdirs j = n.subdirs j) : Recounted nlink n m j := by
  have hlive : m.Live j → n.Live j := fun hj => ⟨hu hj.1, hl ▸ hj.2⟩
  refine ⟨fun hj hjd => ?_, fun hj => ?_, hl ▸ hc.fits j⟩
  · rw [hd] at hjd
    rw [hl, hnamed hjd, hc.file j (hlive hj) hjd]
  · have hn : n.DirNode j := ⟨hlive hj.1, hd ▸ hj.2⟩
    rw [hl, hsub hn.2]
    exact ⟨hc.dir j hn, fun h1 => .inl ⟨hn, h1⟩⟩

/-- A directory gets one more subdirectory. -/
theorem Counted.gains (hc : Counted nlink n) (hn : n.DirNode j) (hd : m.isDir j = true)
    (hl : m.links j = linkInc nlink (n.links j)) (hsub : m.subdirs j = n.subdirs j + 1)
    (hg : nlink = false → n.links j < LINK_MAX) : Recounted nlink n m j := by
  have hcj := hc.dir j hn
  refine ⟨fun _ hjd => absurd (hd.symm.trans hjd) (by decide), fun _ => ?_, ?_⟩
  · rw [hl, hsub]
    exact ⟨hcj.inc hg, fun h1 => (hcj.saturates hg h1).imp_left fun h1 => ⟨hn, h1⟩⟩
  · rw [hl]
    exact linkInc_lt (hc.fits j)

/-- A directory loses one of its subdirectories. -/
theorem Counted.loses (hc : Counted nlink n) (hn : n.DirNode j) (hd : m.isDir j = true)
    (hl : m.links j = linkDec (n.links j)) (hsub : n.subdirs j = m.subdirs j + 1) :
    Recounted nlink n m j := by
  have hcj := hc.dir j hn
  rw [hsub] at hcj
  refine ⟨fun _ hjd => absurd (hd.symm.trans hjd) (by decide), fun _ => ?_, ?_⟩
  · rw [hl]
    exact ⟨hcj.dec, fun h1 => .inl ⟨hn, linkDec_eq_one h1⟩⟩
  · rw [hl]
    exact (linkDec_le _).trans_lt (hc.fits j)

/-- A file loses one of its names. -/
theorem Counted.unnamed (hc : Counted nlink n) (hj : n.Live j) (hf : n.isDir j = false)
    (hd : m.isDir j = false) (hl : m.links j = n.links j - 1)
    (hnamed : n.named j = m.named j + 1) : Recounted nlink n m j := by
  have hfile := hc.file j hj hf
  refine ⟨fun _ _ => by omega, fun hm => absurd (hd.symm.trans hm.2) (by decide), ?_⟩
  rw [hl]
  exact (Nat.sub_le ..).trans_lt (hc.fits j)

theorem recounted_gone (hl : m.links j = 0) : Recounted nlink n m j :=
  ⟨fun hj => absurd hl hj.2, fun hj => absurd hl hj.1.2, by rw [hl]; decide⟩

/-! ### Outcomes -/

theorem Ends.frame (he : Ends rel n i m) :
    m.entries = n.entries ∧ m.mode = n.mode ∧ m.links = n.links ∧
      ∀ j, m.used j = true → n.used j = true := by
  rcases he with ⟨-, rfl⟩ | ⟨hl, rfl | ⟨rfl, -⟩⟩
  · exact ⟨rfl, rfl, rfl, fun _ h => h⟩
  · refine ⟨rfl, rfl, ?_, fun j hj => ?_⟩
    · show update n.links i 0 = n.links
      rw [← hl, update_eq_self]
    · have hj' : update n.used i false j = true := hj
      by_cases hji : j = i
      · rw [hji, update_self] at hj'
        cases hj'
      · rwa [update_of_ne hji] at hj'
  · exact ⟨rfl, rfl, rfl, fun _ h => h⟩

theorem Counted.mono (h : Counted nlink n) (he : m.entries = n.entries) (hm : m.mode = n.mode)
    (hl : m.links = n.links) (hu : ∀ j, m.used j = true → n.used j = true) : Counted nlink m := by
  refine (counted_of_recounted fun j => h.same (hu j) (by rw [hl]) ?_ (fun _ => named_congr he j)
    fun _ => subdirs_congr he hm j).1
  unfold Ns.isDir
  rw [hm]

theorem Saturates.mono {m' : Ns} (h : Saturates nlink n m) (he : m'.entries = m.entries)
    (hm : m'.mode = m.mode) (hl : m'.links = m.links)
    (hu : ∀ j, m'.used j = true → m.used j = true) : Saturates nlink n m' := by
  intro d hd hone
  rw [subdirs_congr he hm]
  have hdir : m'.isDir d = m.isDir d := by unfold Ns.isDir; rw [hm]
  exact h d ⟨⟨hu d hd.1.1, by rw [← hl]; exact hd.1.2⟩, by rw [← hdir]; exact hd.2⟩
    (by rw [← hl]; exact hone)

/-- An inode is destroyed when its last entry has gone. -/
theorem Freed.ends {n' : Ns} (hf : Freed feat n) (he : Ends rel m i n') (hused : m.used = n.used)
    (hi : n.used i = true) (hnamed : ∀ j, n.named j = m.named j + if i = j then 1 else 0)
    (hzero : m.named i = 0 ↔ m.links i = 0) (hrel : n.named i = 1 → rel i) : Freed feat n' := by
  intro j hj
  rw [named_congr he.frame.1]
  have hother : j ≠ i → (m.used j = true ↔ m.named j ≠ 0) := by
    intro hji
    have hold := hf j hj
    rwa [hnamed, if_neg (Ne.symm hji), Nat.add_zero, ← hused] at hold
  rcases he with ⟨hl, rfl⟩ | ⟨hl, rfl | ⟨rfl, hno⟩⟩
  · by_cases hji : j = i
    · rw [hji, hused, Ne, hzero]
      exact iff_of_true hi hl
    · exact hother hji
  · by_cases hji : j = i
    · rw [hji, Ne, hzero]
      show update m.used i false i = true ↔ _
      rw [update_self]
      exact iff_of_false (by decide) (not_not.2 hl)
    · show update m.used i false j = true ↔ _
      rw [update_of_ne hji]
      exact hother hji
  · refine absurd (hrel ?_) hno
    rw [hnamed, if_pos rfl, hzero.2 hl]

theorem Wf.unused (h : Wf feat n) (hi : ¬n.Live i) : n.named i = 0 ∧ n.subdirs i = 0 := by
  unfold Ns.named Ns.subdirs
  rw [countP_eq_zero, countP_eq_zero]
  refine ⟨fun e he hei => ?_, fun e he hei => ?_⟩
  · rw [decide_eq_true_eq] at hei
    exact hi (hei ▸ (h.inos e he).1)
  · rw [decide_eq_true_eq] at hei
    exact hi (hei.1 ▸ (h.dirs e he).1)

theorem Counted.agrees (hc : Counted nlink n) (h : Wf feat n) (ha : Agrees n m) :
    Counted nlink m ∧ Saturates nlink n m := by
  have hsub : ∀ d, m.subdirs d = n.subdirs d := by
    intro d
    unfold Ns.subdirs
    rw [ha.entries]
    refine countP_congr fun e he => ?_
    rw [ha.isDir _ (h.inos e he).1.1]
  refine counted_of_recounted fun j => ?_
  cases hu : n.used j with
  | true =>
    exact hc.same (fun _ => hu) (ha.links j hu) (ha.isDir j hu) (fun _ => named_congr ha.entries j)
      fun _ => hsub j
  | false =>
    have hnot : ¬m.Live j := fun hj => absurd (ha.used ▸ hj.1) (by rw [hu]; decide)
    refine ⟨fun hj => absurd hj hnot, fun hj => absurd hj.1 hnot, ?_⟩
    rcases ha.free j hu with h1 | h1 <;> rw [h1]
    · exact hc.fits j
    · decide

theorem created_links {j : Ino} (hdi : d ≠ i) : (n.created nlink i d k mode e).links j =
      if j = i then (if k = .directory then 2 else 1)
      else if j = d ∧ k = .directory then linkInc nlink (n.links d) else n.links j := by
  unfold Ns.created
  by_cases hk : k = .directory
  · rw [if_pos hk]
    show update (update (update n.links i 1) i 2) d
      (linkInc nlink (update (update n.links i 1) i 2 d)) j = _
    simp only [update_apply, hk, and_true, if_true, if_neg hdi]
    by_cases hj : j = d
    · rw [if_pos hj, if_neg (by rw [hj]; exact hdi), if_pos hj]
    · rw [if_neg hj, if_neg hj]
      split <;> rfl
  · rw [if_neg hk]
    show update n.links i 1 j = _
    simp [update_apply, hk]

theorem Counted.created (hc : Counted feat.dirNlink n) (h : Wf feat n) (hf : Freed feat n)
    (hi : n.used i = false) (hd : n.isDir d = true) (hdl : n.links d ≠ 0)
    (hg : k = .directory → feat.dirNlink = false → n.links d < LINK_MAX ∧ n.links d ≠ 1) :
    let m := n.created feat.dirNlink i d k (k.mode mode) ⟨d, name, i, ty⟩
    Counted feat.dirNlink m ∧ Saturates feat.dirNlink n m ∧ Freed feat m := by
  intro m
  have hdn : n.DirNode d := ⟨h.live_of_links hdl, hd⟩
  have hin : ¬n.Live i := fun hl => absurd hl.1 (by rw [hi]; decide)
  have hdi : d ≠ i := fun hdi => hin (hdi ▸ hdn.1)
  have hentries : m.entries = ⟨d, name, i, ty⟩ :: n.entries := by
    show (Ns.created ..).entries = _
    unfold Ns.created
    split <;> rfl
  have hmodes : m.mode = update n.mode i (k.mode mode) := by
    show (Ns.created ..).mode = _
    unfold Ns.created
    split <;> rfl
  have hused : m.used = update n.used i true := by
    show (Ns.created ..).used = _
    unfold Ns.created
    split <;> rfl
  have hdir : ∀ j, j ≠ i → m.isDir j = n.isDir j := by
    intro j hj
    unfold Ns.isDir
    rw [hmodes, update_of_ne hj]
  have hdiri : m.isDir i = decide (k = .directory) := by
    unfold Ns.isDir
    rw [hmodes, update_self]
    exact NewKind.isDirMode_mode k mode
  have hnamed : ∀ j, m.named j = n.named j + if i = j then 1 else 0 := by
    intro j
    unfold Ns.named
    rw [hentries, countP_cons]
    simp only [decide_eq_true_eq]
  have hsub : ∀ j, m.subdirs j = n.subdirs j + if d = j ∧ k = .directory then 1 else 0 := by
    intro j
    unfold Ns.subdirs
    rw [hentries, countP_cons]
    simp only [decide_eq_true_eq, hdiri]
    congr 1
    refine countP_congr fun e he => ?_
    rw [hdir _ fun hei => hin (hei ▸ (h.inos e he).1)]
  have hlinks : ∀ j, m.links j = _ := fun j => created_links (j := j) hdi
  obtain ⟨hnamed0, hsub0⟩ := h.unused hin
  refine and_assoc.1 ⟨counted_of_recounted fun j => ?_, fun j hjf => ?_⟩
  · by_cases hji : j = i
    · subst hji
      have hl : m.links j = if k = .directory then 2 else 1 := by rw [hlinks, if_pos rfl]
      by_cases hk : k = .directory
      · rw [if_pos hk] at hl
        refine ⟨fun _ hjd => ?_, fun _ => ⟨.inl ?_, by omega⟩, by omega⟩
        · rw [hdiri, decide_eq_false_iff_not] at hjd
          exact absurd hk hjd
        · rw [hl, hsub, hsub0, if_neg (fun h => hdi h.1)]
      · rw [if_neg hk] at hl
        refine ⟨fun _ _ => ?_, fun hj => ?_, by omega⟩
        · rw [hl, hnamed, hnamed0, if_pos rfl]
        · exact absurd (by simpa [hdiri] using hj.2) hk
    · by_cases hjd : j = d ∧ k = .directory
      · obtain ⟨rfl, hk⟩ := hjd
        exact hc.gains hdn (by rw [hdir j hji, hd]) (by rw [hlinks, if_neg hji, if_pos ⟨rfl, hk⟩])
          (by rw [hsub, if_pos ⟨rfl, hk⟩]) fun hnl => (hg hk hnl).1
      · refine hc.same (by rw [hused, update_of_ne hji]; exact id)
          (by rw [hlinks, if_neg hji, if_neg hjd]) (hdir j hji) (fun _ => ?_) fun _ => ?_
        · rw [hnamed, if_neg (Ne.symm hji), Nat.add_zero]
        · rw [hsub, if_neg (fun h => hjd ⟨h.1.symm, h.2⟩), Nat.add_zero]
  · rw [hused, hnamed]
    by_cases hji : j = i
    · rw [hji, update_self, if_pos rfl]
      exact iff_of_true rfl (by omega)
    · rw [update_of_ne hji, if_neg (Ne.symm hji)]
      exact hf j hjf

theorem Counted.unlinked (hc : Counted nlink n) (h : Wf feat n) (he : n.entry d name = some e)
    (hf : n.isDir e.ino = false) :
    let m := (n.removeEntry d name).setLinks e.ino (n.links e.ino - 1)
    Counted nlink m ∧ Saturates nlink n m ∧ (m.named e.ino = 0 ↔ m.links e.ino = 0) ∧
      ∀ j, n.named j = m.named j + if e.ino = j then 1 else 0 := by
  intro m
  obtain ⟨hmem, rfl, -⟩ := entry_mem he
  have hnamed : ∀ j, n.named j = m.named j + if e.ino = j then 1 else 0 :=
    named_removeEntry h.names he
  have hsub : ∀ j, m.subdirs j = n.subdirs j := by
    intro j
    have := subdirs_removeEntry h.names he j
    rw [if_neg (fun hd => absurd (hd.2.symm.trans hf) (by decide))] at this
    exact this.symm
  have hlinks : ∀ j, j ≠ e.ino → m.links j = n.links j := fun j hj => update_of_ne hj _ _
  have hself : m.links e.ino = n.links e.ino - 1 := update_self ..
  have hfile := hc.file e.ino (h.inos e hmem).1 hf
  have hne : n.named e.ino = m.named e.ino + 1 := by rw [hnamed, if_pos rfl]
  refine and_assoc.1 ⟨counted_of_recounted fun j => ?_, by omega, hnamed⟩
  by_cases hji : j = e.ino
  · rw [hji]
    exact hc.unnamed (h.inos e hmem).1 hf hf hself hne
  · refine hc.same id (hlinks j hji) rfl (fun _ => ?_) fun _ => hsub j
    rw [hnamed j, if_neg (Ne.symm hji), Nat.add_zero]

theorem Counted.rmdired (hc : Counted nlink n) (h : Wf feat n) (he : n.entry d name = some e)
    (hd : n.isDir e.ino = true) (hempty : n.dirIsEmpty e.ino = true) :
    let m := ((n.removeEntry d name).setLinks d (linkDec (n.links d))).setLinks e.ino 0
    Counted nlink m ∧ Saturates nlink n m ∧ m.named e.ino = 0 ∧
      ∀ j, n.named j = m.named j + if e.ino = j then 1 else 0 := by
  intro m
  obtain ⟨hmem, rfl, -⟩ := entry_mem he
  have hdn := h.dirs e hmem
  have hdi : e.dir ≠ e.ino := h.no_entry_in (fun _ => hempty) e hmem
  have hnamed : ∀ j, n.named j = m.named j + if e.ino = j then 1 else 0 :=
    named_removeEntry h.names he
  have hsub : ∀ j, n.subdirs j = m.subdirs j + if e.dir = j ∧ n.isDir e.ino = true then 1 else 0 :=
    subdirs_removeEntry h.names he
  have hone := h.single e.ino (h.inos e hmem).1 hd (h.inos e hmem).2
  have hself : m.links e.ino = 0 := update_self ..
  have hparent : m.links e.dir = linkDec (n.links e.dir) := by
    show update (update n.links e.dir _) e.ino 0 e.dir = _
    rw [update_of_ne hdi, update_self]
  have hother : ∀ j, j ≠ e.ino → j ≠ e.dir → m.links j = n.links j := fun j hj hjd =>
    (update_of_ne hj _ _).trans (update_of_ne hjd _ _)
  refine and_assoc.1 ⟨counted_of_recounted fun j => ?_, ?_, hnamed⟩
  · by_cases hji : j = e.ino
    · exact recounted_gone (hji ▸ hself)
    · by_cases hjd : j = e.dir
      · rw [hjd]
        exact hc.loses hdn hdn.2 hparent (by rw [hsub, if_pos ⟨rfl, hd⟩])
      · refine hc.same id (hother j hji hjd) rfl (fun _ => ?_) fun _ => ?_
        · rw [hnamed j, if_neg (Ne.symm hji), Nat.add_zero]
        · rw [hsub j, if_neg (fun h => hjd h.1.symm), Nat.add_zero]
  · have := hnamed e.ino
    rw [if_pos rfl] at this
    omega

theorem Counted.moved (hc : Counted feat.dirNlink n) (h : Wf feat n) (hf : Freed feat n)
    (he : n.entry od oname = some e) (hd : n.isDir nd = true) (hdl : n.links nd ≠ 0)
    (hname : n.entry nd nname = none)
    (hg : n.isDir e.ino = true → od ≠ nd → feat.dirNlink = false → n.links nd < LINK_MAX) :
    let m := ((n.addEntry ⟨nd, nname, e.ino, ty⟩).removeEntry od oname).reparent feat.dirNlink
      od nd e.ino true
    Counted feat.dirNlink m ∧ Saturates feat.dirNlink n m ∧ Freed feat m := by
  intro m
  obtain ⟨hmem, rfl, -⟩ := entry_mem he
  have hod := h.dirs e hmem
  have hkey : ¬(nd = e.dir ∧ nname = oname) := by
    rintro ⟨rfl, rfl⟩
    rw [he] at hname
    cases hname
  obtain ⟨p, hp⟩ : ∃ p, p = (n.addEntry ⟨nd, nname, e.ino, ty⟩).removeEntry e.dir oname := ⟨_, rfl⟩
  have hm : m = p.reparent feat.dirNlink e.dir nd e.ino true := by rw [hp]
  obtain ⟨hre, hru, hrm, -⟩ := reparent_frame p feat.dirNlink e.dir nd e.ino true
  rw [← hm] at hre hru hrm
  have hnamed : ∀ j, m.named j = n.named j := fun j => by
    rw [named_congr hre, hp]
    exact relocated_named h.names he hkey j
  have hsub : ∀ j, m.subdirs j + (if e.dir = j ∧ n.isDir e.ino = true then 1 else 0) =
      n.subdirs j + if nd = j ∧ n.isDir e.ino = true then 1 else 0 := fun j => by
    rw [subdirs_congr hre hrm, hp]
    exact relocated_subdirs h.names he hkey j
  have hlinks : ∀ j, m.links j = if n.isDir e.ino = true ∧ e.dir ≠ nd then
      if j = nd then linkInc feat.dirNlink (n.links nd)
      else if j = e.dir then linkDec (n.links e.dir) else n.links j
      else n.links j := fun j => by
    rw [hm, reparent_links_eq, hp]
    simp only [and_true]
    rfl
  have hused : m.used = n.used := by rw [hru, hp]; rfl
  have hdir : ∀ j, m.isDir j = n.isDir j := fun j => by unfold Ns.isDir; rw [hrm, hp]; rfl
  refine and_assoc.1 ⟨counted_of_recounted fun j => ?_, fun j hj => ?_⟩
  · have hs := hsub j
    have hsame := fun hl hs => hc.same (m := m) (j := j) (by rw [hused]; exact id) hl (hdir j)
      (fun _ => hnamed j) fun _ => hs
    by_cases hmv : n.isDir e.ino = true ∧ e.dir ≠ nd
    · by_cases hjn : j = nd
      · subst hjn
        rw [if_neg (fun h => hmv.2 h.1), if_pos ⟨rfl, hmv.1⟩, Nat.add_zero] at hs
        exact hc.gains ⟨h.live_of_links hdl, hd⟩ (by rw [hdir, hd])
          (by rw [hlinks, if_pos hmv, if_pos rfl]) hs (hg hmv.1 hmv.2)
      · rw [if_neg (fun h : nd = j ∧ _ => hjn h.1.symm), Nat.add_zero] at hs
        by_cases hjo : j = e.dir
        · subst hjo
          rw [if_pos ⟨rfl, hmv.1⟩] at hs
          exact hc.loses hod (by rw [hdir, hod.2])
            (by rw [hlinks, if_pos hmv, if_neg hjn, if_pos rfl]) hs.symm
        · rw [if_neg (fun h => hjo h.1.symm), Nat.add_zero] at hs
          exact hsame (by rw [hlinks, if_pos hmv, if_neg hjn, if_neg hjo]) hs
    · refine hsame (by rw [hlinks, if_neg hmv]) ?_
      by_cases hdirs : n.isDir e.ino = true
      · have hoe : e.dir = nd := by
          by_contra hne
          exact hmv ⟨hdirs, hne⟩
        rw [hoe] at hs
        omega
      · rwa [if_neg (fun h => hdirs h.2), if_neg (fun h => hdirs h.2)] at hs
  · rw [hused, hnamed]
    exact hf j hj

theorem Counted.replaced (hc : Counted nlink n) (h : Wf feat n) {t : Entry} (ty : Nat)
    (he : n.entry od oname = some e) (ht : n.entry nd nname = some t) (hne : t.ino ≠ e.ino)
    (hsame : n.isDir t.ino = n.isDir e.ino)
    (hempty : n.isDir t.ino = true → n.dirIsEmpty t.ino = true) :
    let m := ((((n.removeEntry nd nname).addEntry ⟨nd, nname, e.ino, ty⟩).removeEntry od
      oname).reparent nlink od nd e.ino false).dropTarget od nd e.ino t.ino
    Counted nlink m ∧ Saturates nlink n m ∧ (m.named t.ino = 0 ↔ m.links t.ino = 0) ∧
      ∀ j, n.named j = m.named j + if t.ino = j then 1 else 0 := by
  intro m
  obtain ⟨hmem, rfl, -⟩ := entry_mem he
  obtain ⟨htmem, htd, -⟩ := entry_mem ht
  have hod := h.dirs e hmem
  have hno := h.no_entry_in hempty
  have hkey : ¬(nd = e.dir ∧ nname = oname) := by
    rintro ⟨rfl, rfl⟩
    rw [he] at ht
    obtain rfl : e = t := by simpa using ht
    exact hne rfl
  have hnames := h.names.filter (fun e : Entry => decide ¬(e.dir = nd ∧ e.name = nname))
  have he' : (n.removeEntry nd nname).entry e.dir oname = some e :=
    (entry_without_ne hkey).trans he
  obtain ⟨p, hp⟩ : ∃ p, p = ((n.removeEntry nd nname).addEntry ⟨nd, nname, e.ino, ty⟩).removeEntry
      e.dir oname := ⟨_, rfl⟩
  have hm : m = (p.reparent nlink e.dir nd e.ino false).dropTarget e.dir nd e.ino t.ino := by rw [hp]
  obtain ⟨hre, hru, hrm, -⟩ := reparent_frame p nlink e.dir nd e.ino false
  obtain ⟨hde, hdu, hdm, -⟩ := dropTarget_frame (p.reparent nlink e.dir nd e.ino false) e.dir nd
    e.ino t.ino
  rw [← hm] at hde hdu hdm
  have hnamed : ∀ j, n.named j = m.named j + if t.ino = j then 1 else 0 := fun j => by
    rw [named_congr (hde.trans hre), hp, relocated_named hnames he' hkey j]
    exact named_removeEntry h.names ht j
  have hsub : ∀ j, m.subdirs j + (if e.dir = j ∧ n.isDir e.ino = true then 1 else 0) =
      n.subdirs j := fun j => by
    rw [subdirs_congr (hde.trans hre) (hdm.trans hrm), hp]
    refine (relocated_subdirs hnames he' hkey j).trans ?_
    rw [subdirs_removeEntry h.names ht j, htd, hsame]
    rfl
  have hlinks : ∀ j, m.links j = if j = t.ino then (if n.isDir t.ino = true then 0
      else n.links t.ino - 1) else if n.isDir e.ino = true ∧ j = e.dir then linkDec (n.links e.dir)
      else n.links j := fun j => by
    rw [hm, replaced_links_eq (hno e hmem) (htd ▸ hno t htmem) (by rw [hp]; exact hsame), hp]
    rfl
  have hused : m.used = n.used := by rw [hdu, hru, hp]; rfl
  have hdir : ∀ j, m.isDir j = n.isDir j := fun j => by unfold Ns.isDir; rw [hdm, hrm, hp]; rfl
  have hzero : m.named t.ino = 0 ↔ m.links t.ino = 0 := by
    have hnt := hnamed t.ino
    rw [if_pos rfl] at hnt
    rw [hlinks, if_pos rfl]
    cases htdir : n.isDir t.ino with
    | true =>
      have := h.single t.ino (h.inos t htmem).1 htdir (h.inos t htmem).2
      rw [if_pos rfl]
      omega
    | false =>
      have := hc.file t.ino (h.inos t htmem).1 htdir
      rw [if_neg (by decide)]
      omega
  refine and_assoc.1 ⟨counted_of_recounted fun j => ?_, hzero, hnamed⟩
  by_cases hjt : j = t.ino
  · subst hjt
    cases htdir : n.isDir t.ino with
    | true => exact recounted_gone (by rw [hlinks, if_pos rfl, if_pos htdir])
    | false =>
      exact hc.unnamed (h.inos t htmem).1 htdir (by rw [hdir, htdir])
        (by rw [hlinks, if_pos rfl, htdir]; rfl) (by rw [hnamed, if_pos rfl])
  · by_cases hjo : n.isDir e.ino = true ∧ j = e.dir
    · obtain ⟨hdirs, rfl⟩ := hjo
      exact hc.loses hod (by rw [hdir, hod.2]) (by rw [hlinks, if_neg hjt, if_pos ⟨hdirs, rfl⟩])
        (by rw [← hsub, if_pos ⟨rfl, hdirs⟩])
    · refine hc.same (by rw [hused]; exact id) (by rw [hlinks, if_neg hjt, if_neg hjo]) (hdir j)
        (fun _ => ?_) fun _ => ?_
      · rw [hnamed j, if_neg (Ne.symm hjt), Nat.add_zero]
      · rw [← hsub j, if_neg (fun h => hjo ⟨h.2, h.1.symm⟩), Nat.add_zero]

/-- The inode whose entry a call takes away. -/
def TakesFrom (n : Ns) : Call → Ino → Prop
  | .unlink d name, i => ∃ e, n.entry d name = some e ∧ e.ino = i
  | .rmdir d name, i => ∃ e, n.entry d name = some e ∧ e.ino = i
  | .rename _ _ nd nname true, i => ∃ e, n.entry nd nname = some e ∧ e.ino = i
  | _, _ => False

/-- **Every outcome keeps the link counts** where the inode that loses its last
entry can be released. -/
theorem Counted.outcome (hc : Counted feat.dirNlink n) (h : Wf feat n) (hf : Freed feat n)
    {c : Call} (ho : Outcome feat rel n c m)
    (hrel : ∀ i, TakesFrom n c i → n.named i = 1 → rel i) :
    Counted feat.dirNlink m ∧ Saturates feat.dirNlink n m ∧ Freed feat m := by
  cases ho with
  | agrees ha =>
    obtain ⟨h1, h2⟩ := hc.agrees h ha
    refine ⟨h1, h2, fun i hi => ?_⟩
    rw [ha.used, named_congr ha.entries]
    exact hf i hi
  | create i d name k mode ty hi _ hd hdl _ hg => exact hc.created h hf hi hd hdl hg
  | unlink d name e he hfile hends =>
    obtain ⟨hcount, hsat, hzero, hnamed⟩ := hc.unlinked h he hfile
    obtain ⟨h1, h2, h3, h4⟩ := hends.frame
    refine ⟨hcount.mono h1 h2 h3 h4, hsat.mono h1 h2 h3 h4, ?_⟩
    exact hf.ends hends rfl (h.inos e (entry_mem he).1).1.1 hnamed hzero (hrel e.ino ⟨e, he, rfl⟩)
  | rmdir d name e he hd hr hempty hends =>
    obtain ⟨hcount, hsat, hzero, hnamed⟩ := hc.rmdired h he hd hempty
    obtain ⟨h1, h2, h3, h4⟩ := hends.frame
    refine ⟨hcount.mono h1 h2 h3 h4, hsat.mono h1 h2 h3 h4, ?_⟩
    exact hf.ends hends rfl (h.inos e (entry_mem he).1).1.1 hnamed
      (iff_of_true hzero (update_self ..)) (hrel e.ino ⟨e, he, rfl⟩)
  | move od oname nd nname replace e ty he hd hdl hname hmoves =>
    exact hc.moved h hf he hd hdl hname fun hdir hne => (hmoves hdir hne).2
  | replace od oname nd nname e t ty he hd hdl ht hne hmoves hsame hempty hends =>
    obtain ⟨hcount, hsat, hzero, hnamed⟩ := hc.replaced h ty he ht hne hsame hempty
    obtain ⟨h1, h2, h3, h4⟩ := hends.frame
    refine ⟨hcount.mono h1 h2 h3 h4, hsat.mono h1 h2 h3 h4, ?_⟩
    refine hf.ends hends ?_ (h.inos t (entry_mem ht).1).1.1 hnamed hzero (hrel t.ino ⟨t, ht, rfl⟩)
    rw [(dropTarget_frame ..).2.1, (reparent_frame ..).2.1]
    rfl

end

/-! ### Runs -/

def Fs.LinksOk (s : Fs) : Prop := Counted s.feat.dirNlink s.toNs ∧ Freed s.feat s.toNs

def ReleasesLast (s : Fs) (c : Call) : Prop :=
  ∀ i, TakesFrom s.toNs c i → s.named i = 1 → Releasable s i

def AllReleasesLast : Fs → List (Env × Call) → Prop
  | _, [] => True
  | s, c :: calls => ReleasesLast s c.2 ∧ AllReleasesLast (step s c.1 c.2).2 calls

theorem Fs.LinksOk.step {s : Fs} (hl : s.LinksOk) (h : s.Wf) (env : Env) (c : Call)
    (hrel : ReleasesLast s c) :
    (step s env c).2.dead = true ∨ ((step s env c).2.Wf ∧ (step s env c).2.LinksOk ∧
      Saturates s.feat.dirNlink s.toNs (step s env c).2.toNs) := by
  obtain ⟨hfeat, hd | ho⟩ := step_outcome env c (fun i _ hl => h.used_of_links hl)
  · exact .inl hd
  · right
    obtain ⟨hcount, hsat, hfreed⟩ := hl.1.outcome h hl.2 ho hrel
    unfold Fs.Wf Fs.LinksOk
    rw [hfeat]
    exact ⟨Libsfs.Wf.outcome h ho, ⟨hcount, hfreed⟩, hsat⟩

/-- **The link counts hold over runs**: after each call of a run in which what
loses its last entry can be released, the volume was aborted, or files count
their entries, directories their subdirectories, and the inodes in use are those
with entries; and the call has let no count become 1 but with `dir_nlink` past
`LINK_MAX`. -/
theorem run_links {s : Fs} (calls : List (Env × Call)) (env : Env) (c : Call) (h : s.Wf)
    (hl : s.LinksOk) (hok : AllReleasesLast s (calls ++ [(env, c)])) :
    (step (run s calls) env c).2.dead = true ∨ ((step (run s calls) env c).2.LinksOk ∧
      Saturates s.feat.dirNlink (run s calls).toNs (step (run s calls) env c).2.toNs) := by
  have hstart : s.dead = true ∨ s.Wf ∧ s.LinksOk := .inr ⟨h, hl⟩
  clear h hl
  induction calls generalizing s with
  | nil =>
    rcases hstart with hd | ⟨h, hl⟩
    · exact .inl ((step_dead hd env c).symm ▸ hd)
    · exact (hl.step h env c hok.1).imp_right And.right
  | cons x calls ih =>
    have hnext : (step s x.1 x.2).2.dead = true ∨ (step s x.1 x.2).2.Wf ∧
        (step s x.1 x.2).2.LinksOk := by
      rcases hstart with hd | ⟨h, hl⟩
      · exact .inl ((step_dead hd x.1 x.2).symm ▸ hd)
      · exact (hl.step h x.1 x.2 hok.1).imp_right fun h => ⟨h.1, h.2.1⟩
    have hfeat : (step s x.1 x.2).2.feat = s.feat := by
      rcases hstart with hd | ⟨h, -⟩
      · rw [step_dead hd]
      · exact (step_outcome x.1 x.2 (fun i _ hl => h.used_of_links hl)).1
    rw [← hfeat]
    exact ih hok.2 hnext

/-! ### A file beyond 32 bits of sectors -/

/-- A volume of 4 KiB blocks without `huge_file`, with one file of these runs. -/
def fileVolume (runs : List Nat) : Fs :=
  { mode := fun i => if i = SFS_ROOT_INO then 0x41ED else 0x81A4
    links := fun i => if i = SFS_ROOT_INO then 2 else if i = 11 then 1 else 0
    dotdot := fun _ => SFS_ROOT_INO
    used := fun i => i ≤ 11
    entries := [⟨SFS_ROOT_INO, [97], 11, 1⟩]
    feat := { dirIndex := true, dirNlink := true, hugeFile := false, filetype := true, bsBits := 12,
              firstIno := 11, inodesCount := 1000000 }
    index := fun _ => false
    sealed := fun _ => false
    dtime := fun _ => 0
    nblocks := fun i => if i = 11 then runs.sum else 1
    runs := fun i => if i = 11 then runs else [1]
    lastOrphan := 0
    dead := false
    ro := false
    mods := 0
    opMods := 0 }

variable {runs : List Nat} {i : Ino}

theorem fileVolume_live : (fileVolume runs).Live i ↔ i = SFS_ROOT_INO ∨ i = 11 := by
  show decide (i ≤ 11) = true ∧ (if i = SFS_ROOT_INO then 2 else if i = 11 then 1 else 0) ≠ 0 ↔ _
  by_cases hr : i = SFS_ROOT_INO
  · subst hr
    decide
  · by_cases hf : i = 11
    · subst hf
      decide
    · simp [hr, hf]

theorem fileVolume_isDir : (fileVolume runs).isDir i = decide (i = SFS_ROOT_INO) := by
  show isDirMode (if i = SFS_ROOT_INO then 0x41ED else 0x81A4) = _
  by_cases hr : i = SFS_ROOT_INO
  · rw [if_pos hr, decide_eq_true hr]
    decide
  · rw [if_neg hr, decide_eq_false hr]
    decide

theorem fileVolume_wf (runs : List Nat) : (fileVolume runs).Wf := by
  have hroot : (fileVolume runs).Live SFS_ROOT_INO := fileVolume_live.2 (.inl rfl)
  have hfile : (fileVolume runs).Live 11 := fileVolume_live.2 (.inr rfl)
  have hdir : (fileVolume runs).isDir SFS_ROOT_INO = true := by rw [fileVolume_isDir]; rfl
  refine ⟨show 2 < 11 by decide, pairwise_singleton .., fun e he => ?_, fun e he => ?_,
    ⟨hroot, hdir, rfl⟩, fun i hi => ?_, fun e he hd => ?_, fun i hi hd hr => ?_, fun i hi hd => ?_⟩
  · obtain rfl := mem_singleton.1 he
    exact ⟨hroot, hdir⟩
  · obtain rfl := mem_singleton.1 he
    exact ⟨hfile, by decide⟩
  · have hi' : ¬i ≤ 11 := of_decide_eq_false hi
    show (if i = SFS_ROOT_INO then 2 else if i = 11 then 1 else 0) = 0
    rw [if_neg (by rintro rfl; exact hi' (by decide)), if_neg (by rintro rfl; exact hi' le_rfl)]
  · obtain rfl := mem_singleton.1 he
    rfl
  · rw [fileVolume_isDir] at hd
    exact absurd (of_decide_eq_true hd) hr
  · obtain rfl | rfl := fileVolume_live.1 hi
    · rw [hdir] at hd
      cases hd
    · exact le_rfl

theorem fileVolume_links (runs : List Nat) : (fileVolume runs).LinksOk := by
  refine ⟨⟨fun i hi hd => ?_, fun d hd => ?_, fun i => ?_⟩, fun i hi => ?_⟩
  · obtain rfl | rfl := fileVolume_live.1 hi
    · rw [fileVolume_isDir] at hd
      exact absurd rfl (of_decide_eq_false hd)
    · rfl
  · have hr : d = SFS_ROOT_INO := by
      have := hd.2
      rw [fileVolume_isDir] at this
      exact of_decide_eq_true this
    subst hr
    have hnone : (fileVolume runs).subdirs SFS_ROOT_INO = 0 := by
      unfold Ns.subdirs
      rw [countP_eq_zero]
      intro e he
      obtain rfl := mem_singleton.1 he
      rw [fileVolume_isDir]
      decide
    rw [hnone]
    exact .inl rfl
  · show (if i = SFS_ROOT_INO then 2 else if i = 11 then 1 else 0) < 2 ^ 16
    split
    · decide
    · split <;> decide
  · have hi' : 11 ≤ i := hi
    show decide (i ≤ 11) = true ↔ List.countP _ [_] ≠ 0
    rw [decide_eq_true_iff, countP_cons, countP_nil]
    by_cases h11 : i = 11
    · subst h11
      decide
    · exact iff_of_false (fun h => h11 (le_antisymm h hi')) (by simpa using Ne.symm h11)

/-- A file of one block is released with its last entry. -/
theorem run_links_unlink : (step (fileVolume [1]) noFaults (.unlink SFS_ROOT_INO [97])).2.LinksOk := by
  have hok : ReleasesLast (fileVolume [1]) (.unlink SFS_ROOT_INO [97]) := by
    rintro i ⟨e, he, rfl⟩ - len rest hruns
    obtain rfl : _ = e := Option.some.inj he
    obtain ⟨rfl, -⟩ := List.cons.inj hruns
    decide
  exact ((run_links [] noFaults (.unlink SFS_ROOT_INO [97]) (fileVolume_wf [1])
    (fileVolume_links [1]) ⟨hok, trivial⟩).resolve_left (by decide)).1

/-- The runs of a file whose blocks just fit a 32-bit count of sectors. -/
def fullRuns : List Nat := 32767 :: List.replicate 16383 32768

/-- A write that fails as the sector count is full. -/
def full : Fault := ⟨⟨.fBig, .wrote⟩, by decide⟩

/-- Two writes that fail for the full sector count leave the file two blocks
above it.  Its `unlink` then stops after the first block it frees, without an
abort: the entry is gone and the inode still in use. -/
theorem run_unlink_leaks : ¬∀ (s : Fs) (calls : List (Env × Call)) (env : Env) (c : Call), s.Wf →
    s.LinksOk → (step (run s calls) env c).1 = none →
    (step (run s calls) env c).2.dead = true ∨ (step (run s calls) env c).2.LinksOk := by
  intro h
  rcases h (fileVolume fullRuns)
    [(noFaults, .data 11 0x1A4 536870912 (1 :: fullRuns) (some full)),
     (noFaults, .data 11 0x1A4 536870913 (1 :: 1 :: fullRuns) (some full)),
     (noFaults, .unlink SFS_ROOT_INO [97])]
    noFaults (.create SFS_ROOT_INO [98] 0x1A4) (fileVolume_wf _) (fileVolume_links _)
    (by decide +kernel) with hd | hlinks
  · revert hd
    decide +kernel
  · have hused := hlinks.2 11 (by decide +kernel)
    revert hused
    decide +kernel

end Win98Modern.Libsfs
