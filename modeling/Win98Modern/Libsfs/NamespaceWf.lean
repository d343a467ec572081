import Mathlib.Data.List.Perm.Basic
import Win98Modern.Libsfs.NamespaceSteps

/-!
# Well-formed namespaces

`Wf` is what the directories of a consistent volume satisfy apart from being a
tree: names are unique within a directory, entries stand in directories and name
inodes in use, a directory is named by exactly one entry and its `..` is the
directory of that entry, and no file has more entries than links.  Every outcome
of a call keeps it (`Wf.outcome`).

`Wf` sees link counts only through being zero, apart from the last clause, so
that counting the subdirectories up and down does not touch it (`Wf.relink`).
-/

namespace Win98Modern.Libsfs

open Function List

/-- The one element with the wanted key can be put in front. -/
theorem perm_cons_filter {α : Type*} {p : α → Bool} {xs : List α} {x : α}
    (huniq : xs.Pairwise (fun a b => ¬(p a = true ∧ p b = true))) (hx : xs.find? p = some x) :
    xs.Perm (x :: xs.filter (fun a => !p a)) := by
  induction xs with
  | nil => cases hx
  | cons y ys ih =>
    rw [pairwise_cons] at huniq
    by_cases hy : p y = true
    · rw [List.find?_cons_of_pos hy] at hx
      obtain rfl : y = x := by simpa using hx
      have hrest : ys.filter (fun a => !p a) = ys := by
        rw [filter_eq_self]
        intro a ha
        have := huniq.1 a ha
        simpa [hy] using this
      rw [filter_cons_of_neg (by simp [hy]), hrest]
    · rw [List.find?_cons_of_neg hy] at hx
      rw [filter_cons_of_pos (by simpa using hy)]
      exact ((ih huniq.2 hx).cons y).trans (List.Perm.swap ..)

/-! ### The invariant -/

def Ns.Live (n : Ns) (i : Ino) : Prop := n.used i = true ∧ n.links i ≠ 0

/-- The number of entries that name an inode. -/
def Ns.named (n : Ns) (i : Ino) : Nat := n.entries.countP (fun e => e.ino = i)

structure Wf (feat : Features) (n : Ns) : Prop where
  first : SFS_ROOT_INO < feat.firstIno
  names : n.entries.Pairwise (fun a b => ¬(a.dir = b.dir ∧ a.name = b.name))
  dirs : ∀ e ∈ n.entries, n.Live e.dir ∧ n.isDir e.dir = true
  inos : ∀ e ∈ n.entries, n.Live e.ino ∧ e.ino ≠ SFS_ROOT_INO
  root : n.Live SFS_ROOT_INO ∧ n.isDir SFS_ROOT_INO = true ∧
    n.dotdot SFS_ROOT_INO = SFS_ROOT_INO
  free : ∀ i, n.used i = false → n.links i = 0
  parent : ∀ e ∈ n.entries, n.isDir e.ino = true → n.dotdot e.ino = e.dir
  single : ∀ i, n.Live i → n.isDir i = true → i ≠ SFS_ROOT_INO → n.named i = 1
  files : ∀ i, n.Live i → n.isDir i = false → n.named i ≤ n.links i

section

variable {feat : Features} {rel : Ino → Prop} {n m : Ns}

variable {i d od nd src : Ino} {name oname nname : Name} {e : Entry} {nlink : Bool} {ty : Nat}

theorem Wf.used_of_links (h : Wf feat n) (hl : n.links i ≠ 0) : n.used i = true := by
  by_contra hu
  exact hl (h.free i (by simpa using hu))

theorem Wf.live_of_links (h : Wf feat n) (hl : n.links i ≠ 0) : n.Live i :=
  ⟨h.used_of_links hl, hl⟩

theorem entries_perm (hn : n.entries.Pairwise (fun a b => ¬(a.dir = b.dir ∧ a.name = b.name)))
    (he : n.entry d name = some e) : n.entries.Perm (e :: n.without d name) := by
  have hperm := perm_cons_filter (hn.imp (S := fun a b : Entry =>
      ¬(decide (a.dir = d ∧ a.name = name) = true ∧ decide (b.dir = d ∧ b.name = name) = true)) (by
    intro a b hab hk
    simp only [decide_eq_true_eq] at hk
    exact hab ⟨by rw [hk.1.1, hk.2.1], by rw [hk.1.2, hk.2.2]⟩)) he
  unfold Ns.without
  simpa only [decide_not] using hperm

theorem Wf.entries_perm (h : Wf feat n) (he : n.entry d name = some e) :
    n.entries.Perm (e :: n.without d name) :=
  Libsfs.entries_perm h.names he

theorem named_removeEntry (hn : n.entries.Pairwise (fun a b => ¬(a.dir = b.dir ∧ a.name = b.name)))
    (he : n.entry d name = some e) (j : Ino) :
    n.named j = (n.removeEntry d name).named j + if e.ino = j then 1 else 0 := by
  unfold Ns.named
  rw [(entries_perm hn he).countP_eq, countP_cons]
  simp only [decide_eq_true_eq]
  rfl

theorem relocated_entries (hkey : ¬(nd = od ∧ nname = oname)) :
    ((n.addEntry ⟨nd, nname, e.ino, ty⟩).removeEntry od oname).entries =
      ⟨nd, nname, e.ino, ty⟩ :: n.without od oname := by
  simp only [Ns.removeEntry, Ns.without, Ns.addEntry]
  rw [filter_cons, if_pos (decide_eq_true hkey)]

theorem relocated_named (hn : n.entries.Pairwise (fun a b => ¬(a.dir = b.dir ∧ a.name = b.name)))
    (he : n.entry od oname = some e) (hkey : ¬(nd = od ∧ nname = oname)) (j : Ino) :
    ((n.addEntry ⟨nd, nname, e.ino, ty⟩).removeEntry od oname).named j = n.named j := by
  rw [named_removeEntry hn he]
  unfold Ns.named
  rw [relocated_entries hkey, countP_cons]
  simp only [decide_eq_true_eq]
  rfl

theorem Wf.two_names (h : Wf feat n) {x : Entry} (he : n.entry d name = some e)
    (hx : x ∈ n.without d name) (hxe : x.ino = e.ino) : 2 ≤ n.named e.ino := by
  have hpos : 0 < (n.without d name).countP (fun x => x.ino = e.ino) :=
    countP_pos_iff.2 ⟨x, hx, by simpa using hxe⟩
  unfold Ns.named
  rw [(h.entries_perm he).countP_eq, countP_cons, if_pos (by simp)]
  omega

/-- `Wf` looks at the live inodes only. -/
theorem Wf.congr (h : Wf feat n) (he : m.entries = n.entries) (hlive : ∀ i, m.Live i ↔ n.Live i)
    (hdir : ∀ i, n.Live i → m.isDir i = n.isDir i) (hdot : ∀ i, n.Live i → m.dotdot i = n.dotdot i)
    (hl : ∀ i, n.Live i → n.isDir i = false → m.links i = n.links i)
    (hfree : ∀ i, m.used i = false → m.links i = 0) : Wf feat m := by
  have hnamed : ∀ i, m.named i = n.named i := fun i => by unfold Ns.named; rw [he]
  refine ⟨h.first, by rw [he]; exact h.names, fun e hm => ?_, fun e hm => ?_, ?_, hfree,
    fun e hm hd => ?_, fun i hi hd hr => ?_, fun i hi hd => ?_⟩
  · have hold := h.dirs e (he ▸ hm)
    rw [hlive, hdir _ hold.1]
    exact hold
  · rw [hlive]
    exact h.inos e (he ▸ hm)
  · rw [hlive, hdir _ h.root.1, hdot _ h.root.1]
    exact h.root
  · have hme : e ∈ n.entries := he ▸ hm
    have hle := (h.inos e hme).1
    rw [hdir _ hle] at hd
    rw [hdot _ hle]
    exact h.parent e hme hd
  · rw [hlive] at hi
    rw [hdir _ hi] at hd
    rw [hnamed]
    exact h.single i hi hd hr
  · rw [hlive] at hi
    rw [hdir _ hi] at hd
    rw [hnamed, hl i hi hd]
    exact h.files i hi hd

theorem Wf.agrees (h : Wf feat n) (ha : Agrees n m) : Wf feat m := by
  refine h.congr ha.entries (fun i => ?_) (fun i hi => ha.isDir i hi.1) (fun i hi => ha.dotdot i hi.1)
    (fun i hi _ => ha.links i hi.1) fun i hi => ?_
  · unfold Ns.Live
    rw [ha.used]
    exact and_congr_right fun hi => by rw [ha.links i hi]
  · rw [ha.used] at hi
    rcases ha.free i hi with h1 | h1
    · rw [h1, h.free i hi]
    · exact h1

/-- Link counts of directories may change between nonzero values. -/
theorem Wf.relink (h : Wf feat n) (he : m.entries = n.entries) (hu : m.used = n.used)
    (hmode : m.mode = n.mode) (hdot : m.dotdot = n.dotdot)
    (hl : ∀ i, m.links i = n.links i ∨ n.isDir i = true ∧ n.links i ≠ 0 ∧ m.links i ≠ 0) :
    Wf feat m := by
  have hzero : ∀ i, m.links i = 0 ↔ n.links i = 0 := by
    intro i
    rcases hl i with h1 | ⟨-, h1, h2⟩
    · rw [h1]
    · exact iff_of_false h2 h1
  refine h.congr he (fun i => ?_) (fun i _ => by unfold Ns.isDir; rw [hmode])
    (fun i _ => by rw [hdot]) (fun i _ hd => ?_) fun i hi => (hzero i).2 (h.free i (hu ▸ hi))
  · unfold Ns.Live
    rw [hu, Ne, hzero i]
  · refine (hl i).resolve_right fun h1 => ?_
    rw [hd] at h1
    cases h1.1

theorem Wf.setDirLinks (h : Wf feat n) {k : Nat} (hd : n.isDir d = true) (hl : n.links d ≠ 0)
    (hk : k ≠ 0) : Wf feat (n.setLinks d k) := by
  refine h.relink rfl rfl rfl rfl fun i => ?_
  by_cases hi : i = d
  · subst hi
    exact .inr ⟨hd, hl, by simpa [Ns.setLinks] using hk⟩
  · exact .inl (update_of_ne hi _ _)

theorem linkInc_ne_zero {k : Nat} : linkInc nlink k ≠ 0 := by
  unfold linkInc
  split
  · omega
  · split <;> omega

theorem linkDec_ne_zero {k : Nat} (h : k ≠ 0) : linkDec k ≠ 0 := by
  unfold linkDec
  split <;> omega

theorem Wf.destroy (h : Wf feat n) (hl : n.links i = 0) : Wf feat (n.destroy i) := by
  have hlinks : (n.destroy i).links = n.links := by
    show update n.links i 0 = n.links
    rw [← hl, update_eq_self]
  have hlive : ∀ j, (n.destroy i).Live j ↔ n.Live j := by
    intro j
    unfold Ns.Live
    rw [hlinks]
    show update n.used i false j = true ∧ _ ↔ _
    by_cases hj : j = i
    · subst hj
      simp [hl]
    · rw [update_of_ne hj]
  refine h.congr rfl hlive (fun _ _ => rfl) (fun _ _ => rfl) (fun _ _ _ => by rw [hlinks])
    fun j hj => ?_
  rw [hlinks]
  by_cases he : j = i
  · rw [he, hl]
  · exact h.free j ((update_of_ne he _ _).symm.trans hj)

theorem Wf.ends (h : Wf feat n) (he : Ends rel n i m) : Wf feat m := by
  rcases he with ⟨-, rfl⟩ | ⟨hl, rfl | ⟨rfl, -⟩⟩
  · exact h
  · exact h.destroy hl
  · exact h

/-! ### Outcomes -/

theorem Wf.create (h : Wf feat n) {k : Nat} (hi : n.used i = false) (hd : n.isDir d = true)
    (hdl : n.links d ≠ 0) (hname : n.entry d name = none) (hk : k ≠ 0)
    (he : m.entries = ⟨d, name, i, ty⟩ :: n.entries) (hu : m.used = update n.used i true)
    (hmode : ∀ j, j ≠ i → m.isDir j = n.isDir j) (hl : m.links = update n.links i k)
    (hdot : ∀ j, j ≠ i → m.dotdot j = n.dotdot j) (hdoti : m.isDir i = true → m.dotdot i = d) :
    Wf feat m := by
  have hne : ∀ j, n.Live j → j ≠ i := by
    rintro j hj rfl
    exact absurd hj.1 (by rw [hi]; simp)
  have hlive : ∀ j, m.Live j ↔ j = i ∨ n.Live j := by
    intro j
    unfold Ns.Live
    rw [hu, hl]
    by_cases hj : j = i
    · subst hj
      simp [hk]
    · simp [hj]
  have hnamed : ∀ j, m.named j = n.named j + if i = j then 1 else 0 := by
    intro j
    unfold Ns.named
    rw [he, countP_cons]
    simp
  have hnamed0 : n.named i = 0 := by
    unfold Ns.named
    rw [countP_eq_zero]
    intro e hme
    simpa using hne _ (h.inos e hme).1
  have hlived : n.Live d := h.live_of_links hdl
  refine ⟨h.first, ?_, fun e hm => ?_, fun e hm => ?_, ?_, fun j hj => ?_, fun e hm hde => ?_,
    fun j hj hdj hr => ?_, fun j hj hdj => ?_⟩
  · rw [he, pairwise_cons]
    refine ⟨fun e hm hkey => ?_, h.names⟩
    unfold Ns.entry at hname
    rw [List.find?_eq_none] at hname
    exact hname e hm (by simpa using ⟨hkey.1.symm, hkey.2.symm⟩)
  · rw [he] at hm
    rcases mem_cons.1 hm with rfl | hm
    · rw [hmode _ (hne d hlived)]
      exact ⟨(hlive d).2 (.inr hlived), hd⟩
    · have hold := h.dirs e hm
      rw [hmode _ (hne _ hold.1)]
      exact ⟨(hlive _).2 (.inr hold.1), hold.2⟩
  · rw [he] at hm
    rcases mem_cons.1 hm with rfl | hm
    · exact ⟨(hlive i).2 (.inl rfl), (hne _ h.root.1).symm⟩
    · have hold := h.inos e hm
      exact ⟨(hlive _).2 (.inr hold.1), hold.2⟩
  · have hr := hne _ h.root.1
    rw [hmode _ hr, hdot _ hr]
    exact ⟨(hlive _).2 (.inr h.root.1), h.root.2⟩
  · by_cases hji : j = i
    · subst hji
      rw [hu, update_self] at hj
      cases hj
    · rw [hu, update_of_ne hji] at hj
      rw [hl, update_of_ne hji]
      exact h.free j hj
  · rw [he] at hm
    rcases mem_cons.1 hm with rfl | hm
    · exact hdoti hde
    · have hold := hne _ (h.inos e hm).1
      rw [hmode _ hold] at hde
      rw [hdot _ hold]
      exact h.parent e hm hde
  · rw [hnamed]
    rcases (hlive j).1 hj with rfl | hold
    · rw [hnamed0, if_pos rfl]
    · rw [if_neg (hne j hold).symm]
      rw [hmode _ (hne j hold)] at hdj
      exact h.single j hold hdj hr
  · rw [hnamed]
    rcases (hlive j).1 hj with rfl | hold
    · rw [hnamed0, if_pos rfl, hl, update_self]
      omega
    · rw [if_neg (hne j hold).symm, hl, update_of_ne (hne j hold)]
      rw [hmode _ (hne j hold)] at hdj
      exact h.files j hold hdj

theorem Wf.created (h : Wf feat n) {k : NewKind} {mode : Nat} (hi : n.used i = false)
    (hd : n.isDir d = true) (hdl : n.links d ≠ 0) (hname : n.entry d name = none) :
    Wf feat (n.created nlink i d k (k.mode mode) ⟨d, name, i, ty⟩) := by
  have hdi : d ≠ i := by
    rintro rfl
    rw [h.used_of_links hdl] at hi
    cases hi
  have hmode : ∀ j, j ≠ i → (n.newInode i (k.mode mode)).isDir j = n.isDir j := by
    intro j hj
    show isDirMode (update n.mode i _ j) = _
    rw [update_of_ne hj]
    rfl
  unfold Ns.created
  by_cases hk : k = .directory
  · rw [if_pos hk]
    have hbase : Wf feat ((((n.newInode i (k.mode mode)).setLinks i 2).setDotdot i d).addEntry
        ⟨d, name, i, ty⟩) := by
      refine h.create (k := 2) hi hd hdl hname (by omega) rfl rfl hmode ?_
        (fun j hj => update_of_ne hj _ _) (fun _ => update_self ..)
      show update (update n.links i 1) i 2 = _
      rw [update_idem]
    refine hbase.setDirLinks ?_ ?_ linkInc_ne_zero
    · exact (hmode d hdi).trans hd
    · show update (update n.links i 1) i 2 d ≠ 0
      rw [update_of_ne hdi, update_of_ne hdi]
      exact hdl
  · rw [if_neg hk]
    refine h.create (k := 1) hi hd hdl hname (by omega) rfl rfl hmode rfl (fun _ _ => rfl)
      fun hdir => ?_
    have hdir' : isDirMode (update n.mode i (k.mode mode) i) = true := hdir
    rw [update_self, NewKind.isDirMode_mode, decide_eq_true_eq] at hdir'
    exact absurd hdir' hk

theorem mem_without {x : Entry} (hx : x ∈ n.without d name) :
    x ∈ n.entries := (mem_filter.1 hx).1

theorem Wf.unname (h : Wf feat n) {k : Nat} (he : n.entry d name = some e)
    (hrest : ∀ x ∈ n.without d name, x.ino = e.ino ∨ x.dir = e.ino → k ≠ 0)
    (hfile : n.isDir e.ino = false → n.named e.ino ≤ k + 1) (hdir : n.isDir e.ino = true → k = 0) :
    Wf feat ((n.removeEntry d name).setLinks e.ino k) := by
  have hmem := (entry_mem he).1
  have hnamed : ∀ j, n.named j = ((n.removeEntry d name).setLinks e.ino k).named j +
      if e.ino = j then 1 else 0 := named_removeEntry h.names he
  have hlinks : ∀ j, j ≠ e.ino → ((n.removeEntry d name).setLinks e.ino k).links j = n.links j :=
    fun j hj => update_of_ne hj _ _
  have hself : ((n.removeEntry d name).setLinks e.ino k).links e.ino = k := update_self ..
  have hlive : ∀ j, (j = e.ino → k ≠ 0) → n.Live j →
      ((n.removeEntry d name).setLinks e.ino k).Live j := by
    intro j hj hn
    refine ⟨hn.1, ?_⟩
    by_cases hji : j = e.ino
    · rw [hji, hself]
      exact hj hji
    · rw [hlinks j hji]
      exact hn.2
  have hlive' : ∀ j, ((n.removeEntry d name).setLinks e.ino k).Live j → n.Live j := by
    intro j hj
    by_cases hji : j = e.ino
    · rw [hji]
      exact (h.inos e hmem).1
    · exact ⟨hj.1, by rw [← hlinks j hji]; exact hj.2⟩
  refine ⟨h.first, h.names.filter _, fun x hx => ?_, fun x hx => ?_, ?_, fun j hj => ?_,
    fun x hx => h.parent x (mem_without hx), fun j hj hd hr => ?_, fun j hj hd => ?_⟩
  · have hold := h.dirs x (mem_without hx)
    exact ⟨hlive _ (fun hxe => hrest x hx (.inr hxe)) hold.1, hold.2⟩
  · have hold := h.inos x (mem_without hx)
    exact ⟨hlive _ (fun hxe => hrest x hx (.inl hxe)) hold.1, hold.2⟩
  · exact ⟨hlive _ (fun hr => absurd hr.symm (h.inos e hmem).2) h.root.1, h.root.2⟩
  · have hji : j ≠ e.ino := by
      rintro rfl
      have := (h.inos e hmem).1.1
      rw [show n.used e.ino = false from hj] at this
      cases this
    rw [hlinks j hji]
    exact h.free j hj
  · have hji : j ≠ e.ino := by
      rintro rfl
      exact hj.2 (hself.trans (hdir hd))
    have := hnamed j
    rw [h.single j (hlive' j hj) hd hr, if_neg hji.symm] at this
    omega
  · have hn := hnamed j
    by_cases hji : j = e.ino
    · subst hji
      have := hfile hd
      rw [if_pos rfl] at hn
      omega
    · rw [hlinks j hji]
      have := h.files j (hlive' j hj) hd
      omega

theorem Wf.unnameFile (h : Wf feat n) (he : n.entry d name = some e) (hf : n.isDir e.ino = false) :
    Wf feat ((n.removeEntry d name).setLinks e.ino (n.links e.ino - 1)) := by
  have hmem := (entry_mem he).1
  have hbound := h.files e.ino (h.inos e hmem).1 hf
  refine h.unname he (fun x hx hxe => ?_) (fun _ => ?_) (fun hd => absurd hd (by rw [hf]; simp))
  · rcases hxe with hxe | hxe
    · -- a second entry, so at least two links
      have := h.two_names he hx hxe
      omega
    · have := (h.dirs x (mem_without hx)).2
      rw [hxe, hf] at this
      cases this
  · omega

theorem Wf.unnameDir (h : Wf feat n) (he : n.entry d name = some e) (hd : n.isDir e.ino = true)
    (hempty : n.dirIsEmpty e.ino = true) : Wf feat ((n.removeEntry d name).setLinks e.ino 0) := by
  have hmem := (entry_mem he).1
  have hone := h.single e.ino (h.inos e hmem).1 hd (h.inos e hmem).2
  refine h.unname he (fun x hx hxe => ?_) (fun hf => absurd hd (by rw [hf]; simp)) (fun _ => rfl)
  exfalso
  rcases hxe with hxe | hxe
  · have := h.two_names he hx hxe
    omega
  · unfold Ns.dirIsEmpty at hempty
    rw [all_eq_true] at hempty
    simpa [hxe] using hempty x (mem_without hx)

theorem Wf.moveEntry (h : Wf feat n) (ty : Nat) (he : n.entry od oname = some e)
    (hd : n.isDir nd = true) (hdl : n.links nd ≠ 0) (hname : n.entry nd nname = none)
    (hentries : m.entries = ((n.addEntry ⟨nd, nname, e.ino, ty⟩).removeEntry od oname).entries)
    (hused : m.used = n.used) (hmode : m.mode = n.mode) (hlinks : m.links = n.links)
    (hdot : ∀ j, j ≠ e.ino → m.dotdot j = n.dotdot j)
    (hdote : n.isDir e.ino = true → m.dotdot e.ino = nd) : Wf feat m := by
  obtain ⟨hmem, hdir, hnm⟩ := entry_mem he
  have hkey : ¬(nd = od ∧ nname = oname) := by
    rintro ⟨rfl, rfl⟩
    rw [he] at hname
    cases hname
  have hlist : m.entries = ⟨nd, nname, e.ino, ty⟩ :: n.without od oname :=
    hentries.trans (relocated_entries hkey)
  have hlive : ∀ j, m.Live j ↔ n.Live j := fun j => by unfold Ns.Live; rw [hused, hlinks]
  have hisDir : ∀ j, m.isDir j = n.isDir j := fun j => by unfold Ns.isDir; rw [hmode]
  have hnamed : ∀ j, m.named j = n.named j := fun j => by
    rw [← relocated_named h.names he hkey j, Ns.named, hentries, Ns.named]
  refine ⟨h.first, ?_, fun x hx => ?_, fun x hx => ?_, ?_, fun j hj => ?_, fun x hx hxd => ?_,
    fun j hj hjd hr => ?_, fun j hj hjd => ?_⟩
  · rw [hlist, pairwise_cons]
    refine ⟨fun x hx hk => ?_, h.names.filter _⟩
    unfold Ns.entry at hname
    rw [List.find?_eq_none] at hname
    exact hname x (mem_without hx) (by simpa using ⟨hk.1.symm, hk.2.symm⟩)
  · rw [hlist] at hx
    rw [hlive, hisDir]
    rcases mem_cons.1 hx with rfl | hx
    · exact ⟨h.live_of_links hdl, hd⟩
    · exact h.dirs x (mem_without hx)
  · rw [hlist] at hx
    rw [hlive]
    rcases mem_cons.1 hx with rfl | hx
    · exact h.inos e hmem
    · exact h.inos x (mem_without hx)
  · rw [hlive, hisDir, hdot _ (h.inos e hmem).2.symm]
    exact h.root
  · rw [hlinks]
    exact h.free j (hused ▸ hj)
  · rw [hlist] at hx
    rw [hisDir] at hxd
    rcases mem_cons.1 hx with rfl | hx
    · exact hdote hxd
    · by_cases hxe : x.ino = e.ino
      · -- a directory has one entry only, and that one has moved
        exfalso
        have hone := h.single _ (h.inos x (mem_without hx)).1 hxd (h.inos x (mem_without hx)).2
        rw [hxe] at hone
        have := h.two_names he hx hxe
        omega
      · rw [hdot _ hxe]
        exact h.parent x (mem_without hx) hxd
  · rw [hlive] at hj
    rw [hisDir] at hjd
    rw [hnamed]
    exact h.single j hj hjd hr
  · rw [hlive] at hj
    rw [hisDir] at hjd
    rw [hnamed, hlinks]
    exact h.files j hj hjd

theorem Wf.moved (h : Wf feat n) (he : n.entry od oname = some e) (hd : n.isDir nd = true)
    (hdl : n.links nd ≠ 0) (hname : n.entry nd nname = none) :
    Wf feat (((n.addEntry ⟨nd, nname, e.ino, ty⟩).removeEntry od oname).reparent nlink od nd
      e.ino true) := by
  obtain ⟨hmem, rfl, -⟩ := entry_mem he
  have hod := h.dirs e hmem
  unfold Ns.reparent
  split
  · rename_i hmoves
    have hbase : Wf feat (((n.addEntry ⟨nd, nname, e.ino, ty⟩).removeEntry e.dir oname).setDotdot
        e.ino nd) :=
      h.moveEntry ty he hd hdl hname rfl rfl rfl rfl
        (fun j hj => update_of_ne hj _ _) (fun _ => update_self ..)
    refine (hbase.setDirLinks hod.2 hod.1.2 (linkDec_ne_zero hod.1.2)).setDirLinks hd ?_
      linkInc_ne_zero
    show update n.links e.dir _ nd ≠ 0
    rw [update_of_ne (Ne.symm hmoves.2)]
    exact hdl
  · rename_i hmoves
    refine h.moveEntry ty he hd hdl hname rfl rfl rfl rfl (fun _ _ => rfl) fun hdir => ?_
    have : e.dir = nd := by
      by_contra hne
      exact hmoves ⟨hdir, hne⟩
    exact (h.parent e hmem hdir).trans this

theorem entry_removed : (n.removeEntry d name).entry d name = none := by
  unfold Ns.entry Ns.removeEntry Ns.without
  rw [List.find?_eq_none]
  intro x hx
  have := (mem_filter.1 hx).2
  rw [decide_eq_true_eq] at this ⊢
  exact this

/-- A target that `targetCheck` lets pass holds no entry, so it is neither parent. -/
theorem Wf.no_entry_in (h : Wf feat n) {t : Ino}
    (hempty : n.isDir t = true → n.dirIsEmpty t = true) : ∀ x ∈ n.entries, x.dir ≠ t := by
  intro x hx hxe
  cases htdir : n.isDir t with
  | true =>
    have := hempty htdir
    unfold Ns.dirIsEmpty at this
    rw [all_eq_true] at this
    simpa [hxe] using this x hx
  | false =>
    have := (h.dirs x hx).2
    rw [hxe, htdir] at this
    cases this

theorem reparent_links_eq {grows : Bool} (j : Ino) : (n.reparent nlink od nd src grows).links j =
      if n.isDir src = true ∧ od ≠ nd then
        if j = nd ∧ grows = true then linkInc nlink (n.links nd)
        else if j = od then linkDec (n.links od) else n.links j
      else n.links j := by
  unfold Ns.reparent
  by_cases hm : n.isDir src = true ∧ od ≠ nd
  · rw [if_pos hm, if_pos hm]
    cases grows with
    | true =>
      show update (update n.links od _) nd
        (linkInc nlink (update n.links od _ nd)) j = _
      rw [update_of_ne (Ne.symm hm.2)]
      simp only [update_apply, and_true]
    | false =>
      show update n.links od _ j = _
      simp [update_apply]
  · rw [if_neg hm, if_neg hm]

theorem replaced_links_eq {t : Ino} (hot : od ≠ t) (hnt : nd ≠ t) (hsame : n.isDir t = n.isDir src)
    (j : Ino) : ((n.reparent nlink od nd src false).dropTarget od nd src t).links j =
      if j = t then (if n.isDir t = true then 0 else n.links t - 1)
      else if n.isDir src = true ∧ j = od then linkDec (n.links od) else n.links j := by
  obtain ⟨m, hm⟩ : ∃ m, m = n.reparent nlink od nd src false := ⟨_, rfl⟩
  have hdir : ∀ j, m.isDir j = n.isDir j := by
    intro j
    rw [hm, Ns.reparent]
    split <;> rfl
  have hlinks : ∀ j, m.links j = _ := fun j => hm ▸ reparent_links_eq j
  rw [← hm, Ns.dropTarget, hdir t, hdir src]
  cases hd : n.isDir src with
  | false =>
    rw [hsame, hd]
    show update m.links t (m.links t - 1) j = _
    simp [update_apply, hlinks, hd]
  | true =>
    rw [hsame, hd]
    simp only [if_true, not_true_eq_false, or_false, true_and]
    by_cases hsd : od = nd
    · subst hsd
      rw [if_pos rfl]
      show update (update m.links t 0) od
        (linkDec (update m.links t 0 od)) j = _
      simp only [update_apply, hlinks, hot, if_false]
      by_cases hj : j = od
      · subst hj
        simp [hot]
      · simp [hj]
    · rw [if_neg hsd]
      show update m.links t 0 j = _
      simp [update_apply, hlinks, hd, hsd]

theorem replaced_links {t : Ino} (hot : od ≠ t) (hnt : nd ≠ t) (hsame : n.isDir t = n.isDir src)
    (hod : n.links od ≠ 0) {j : Ino} (hj : j ≠ t) :
    ((n.reparent nlink od nd src false).dropTarget od nd src t).links j = n.links j ∨
      j = od ∧ ((n.reparent nlink od nd src false).dropTarget od nd src t).links j ≠ 0 := by
  rw [replaced_links_eq hot hnt hsame, if_neg hj]
  split
  · rename_i hd
    exact .inr ⟨hd.2, linkDec_ne_zero hod⟩
  · exact .inl rfl

theorem dropTarget_frame (n : Ns) (od nd src t : Ino) :
    (n.dropTarget od nd src t).entries = n.entries ∧ (n.dropTarget od nd src t).used = n.used ∧
      (n.dropTarget od nd src t).mode = n.mode ∧ (n.dropTarget od nd src t).dotdot = n.dotdot := by
  unfold Ns.dropTarget
  split
  · split <;> exact ⟨rfl, rfl, rfl, rfl⟩
  · exact ⟨rfl, rfl, rfl, rfl⟩

theorem reparent_frame (n : Ns) (nlink : Bool) (od nd src : Ino) (grows : Bool) :
    (n.reparent nlink od nd src grows).entries = n.entries ∧
      (n.reparent nlink od nd src grows).used = n.used ∧
      (n.reparent nlink od nd src grows).mode = n.mode ∧
      (n.reparent nlink od nd src grows).dotdot =
        if n.isDir src ∧ od ≠ nd then update n.dotdot src nd else n.dotdot := by
  unfold Ns.reparent
  split
  · split <;> exact ⟨rfl, rfl, rfl, rfl⟩
  · exact ⟨rfl, rfl, rfl, rfl⟩

theorem Wf.replaced (h : Wf feat n) {t : Entry} (he : n.entry od oname = some e)
    (hd : n.isDir nd = true) (hdl : n.links nd ≠ 0) (ht : n.entry nd nname = some t)
    (hne : t.ino ≠ e.ino) (hsame : n.isDir t.ino = n.isDir e.ino)
    (hempty : n.isDir t.ino = true → n.dirIsEmpty t.ino = true) :
    Wf feat (((((n.removeEntry nd nname).addEntry ⟨nd, nname, e.ino, ty⟩).removeEntry od
      oname).reparent nlink od nd e.ino false).dropTarget od nd e.ino t.ino) := by
  obtain ⟨hmem, rfl, -⟩ := entry_mem he
  obtain ⟨htmem, htd, -⟩ := entry_mem ht
  have hod := h.dirs e hmem
  have hkey : ¬(nd = e.dir ∧ nname = oname) := by
    rintro ⟨rfl, rfl⟩
    rw [he] at ht
    obtain rfl : e = t := by simpa using ht
    exact hne rfl
  have hno := h.no_entry_in hempty
  have hnt : nd ≠ t.ino := htd ▸ hno t htmem
  have hot : e.dir ≠ t.ino := hno e hmem
  obtain ⟨k, hk⟩ : ∃ k, k = if n.isDir t.ino then 0 else n.links t.ino - 1 := ⟨_, rfl⟩
  -- first the target loses its entry, then the entry `e` moves to the free name
  have hfirst : Wf feat ((n.removeEntry nd nname).setLinks t.ino k) := by
    cases htdir : n.isDir t.ino with
    | true =>
      rw [hk, if_pos htdir]
      exact h.unnameDir ht htdir (hempty htdir)
    | false =>
      rw [hk, if_neg (by simp [htdir])]
      exact h.unnameFile ht htdir
  obtain ⟨p, hp⟩ : ∃ p, p = ((n.removeEntry nd nname).addEntry ⟨nd, nname, e.ino, ty⟩).removeEntry
      e.dir oname := ⟨_, rfl⟩
  rw [← hp]
  obtain ⟨hr1, hr2, hr3, hr4⟩ := reparent_frame p nlink e.dir nd e.ino false
  obtain ⟨hd1, hd2, hd3, hd4⟩ := dropTarget_frame (p.reparent nlink e.dir nd e.ino false) e.dir nd
    e.ino t.ino
  have hpdir : p.isDir e.ino = n.isDir e.ino := by rw [hp]; rfl
  have hmoved : Wf feat { p with
      links := ((n.removeEntry nd nname).setLinks t.ino k).links
      dotdot := (p.reparent nlink e.dir nd e.ino false).dotdot } := by
    refine hfirst.moveEntry ty (show Ns.entry _ e.dir oname = some e from
      (entry_without_ne hkey).trans he) hd ?_ (show Ns.entry _ nd nname = none from entry_removed) ?_ ?_ ?_ rfl ?_ ?_
    · show update n.links t.ino k nd ≠ 0
      rw [update_of_ne hnt]
      exact hdl
    · rw [hp]; rfl
    · rw [hp]; rfl
    · rw [hp]; rfl
    · intro j hj
      rw [hr4]
      split
      · rw [update_of_ne hj, hp]; rfl
      · rw [hp]; rfl
    · intro hdir
      rw [hr4, hpdir]
      split
      · exact update_self ..
      · rename_i hmoves
        have : e.dir = nd := by
          by_contra hne'
          exact hmoves ⟨hdir, hne'⟩
        rw [hp]
        exact (h.parent e hmem hdir).trans this
  have hpsame : p.isDir t.ino = p.isDir e.ino := by rw [hp]; exact hsame
  refine hmoved.relink (hd1.trans hr1) (hd2.trans hr2) (hd3.trans hr3) hd4 fun j => ?_
  by_cases hj : j = t.ino
  · left
    rw [hj, replaced_links_eq hot hnt hpsame, if_pos rfl, hp]
    show _ = update n.links t.ino k t.ino
    rw [update_self, hk]
    rfl
  · have hbase : update n.links t.ino k j = n.links j := update_of_ne hj _ _
    have hpl : p.links j = n.links j := by rw [hp]; rfl
    rcases replaced_links hot hnt hpsame (by rw [hp]; exact hod.1.2) hj with
      h1 | ⟨rfl, h2⟩
    · left
      rw [h1, hpl]
      exact hbase.symm
    · right
      refine ⟨?_, ?_, h2⟩
      · rw [hp]; exact hod.2
      · show update n.links t.ino k e.dir ≠ 0
        rw [hbase]
        exact hod.1.2

theorem Wf.outcome (h : Wf feat n) {c : Call} (ho : Outcome feat rel n c m) : Wf feat m := by
  cases ho with
  | agrees ha => exact h.agrees ha
  | create i d name k mode ty hi _ hd hdl hname _ => exact h.created hi hd hdl hname
  | unlink d name e he hf hends => exact (h.unnameFile he hf).ends hends
  | rmdir d name e he hd _ hempty hends =>
    obtain ⟨hmem, rfl, -⟩ := entry_mem he
    have hdir := h.dirs e hmem
    have hset := h.setDirLinks hdir.2 hdir.1.2 (linkDec_ne_zero hdir.1.2)
    exact (hset.unnameDir (e := e) he hd hempty).ends hends
  | move od oname nd nname replace e ty he hd hdl hname _ => exact h.moved he hd hdl hname
  | replace od oname nd nname e t ty he hd hdl ht hne _ hsame hempty hends =>
    exact (h.replaced he hd hdl ht hne hsame hempty).ends hends

end

def Fs.Wf (s : Fs) : Prop := Libsfs.Wf s.feat s.toNs

end Win98Modern.Libsfs
