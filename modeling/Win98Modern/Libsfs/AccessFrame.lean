import Mathlib.Data.List.Basic
import Win98Modern.Libsfs.Access
import Win98Modern.Libsfs.NamespaceSteps

/-!
# What the updates leave alone

`Ns.Frame` bounds what an update may touch, whatever its accesses do and also
when it aborts the volume: the names in `D`, the inodes in `M` and the `..` of
the directories in `U`.  Frames compose, so each function gets one from those of
its parts.
-/

namespace Win98Modern.Libsfs

open Function

/-- Only the names in `D`, the inodes in `M` and the `..` of those in `U` differ; outside `M`
inodes are freed at most. -/
structure Ns.Frame (D : Ino → Name → Bool) (M U : Ino → Prop) (n m : Ns) : Prop where
  entries : m.entries.filter (fun e => !D e.dir e.name) =
    n.entries.filter (fun e => !D e.dir e.name)
  mode : ∀ i, ¬M i → m.mode i = n.mode i
  used : ∀ i, ¬M i → m.used i = true → n.used i = true
  dotdot : ∀ i, ¬U i → m.dotdot i = n.dotdot i

section Frame

variable {D : Ino → Name → Bool} {M U : Ino → Prop} {n m o : Ns} {s : Fs} {env : Env}

theorem Ns.Frame.refl (D : Ino → Name → Bool) (M U : Ino → Prop) (n : Ns) : n.Frame D M U n :=
  ⟨rfl, fun _ _ => rfl, fun _ _ h => h, fun _ _ => rfl⟩

theorem Ns.Frame.trans (h : n.Frame D M U m) (h' : m.Frame D M U o) : n.Frame D M U o where
  entries := h'.entries.trans h.entries
  mode i hi := (h'.mode i hi).trans (h.mode i hi)
  used i hi hu := h.used i hi (h'.used i hi hu)
  dotdot i hi := (h'.dotdot i hi).trans (h.dotdot i hi)

theorem frame_of_eq (h : m = n) : n.Frame D M U m := by
  subst h
  exact .refl ..

variable {d src od nd i : Ino} {a oname nname : Name} {t : Fs} {replace : Bool} {k : NewKind}
  {mode : Nat} {r : Option Err × Fs}

theorem Ns.Frame.entry (h : n.Frame D M U m) (hd : D d a = false) : m.entry d a = n.entry d a := by
  have hfind : ∀ o : Ns, o.entry d a =
      (o.entries.filter (fun e => !D e.dir e.name)).find? (fun e => e.dir = d ∧ e.name = a) := by
    intro o
    rw [Ns.entry, List.find?_filter]
    congr 1
    funext e
    by_cases he : e.dir = d ∧ e.name = a
    · simp [he, hd]
    · simp [he]
  rw [hfind, hfind, h.entries]

theorem Ns.Frame.entriesOf (h : n.Frame D M U m) (hd : ∀ a, D d a = false) :
    m.entries.filter (fun e => e.dir = d) = n.entries.filter (fun e => e.dir = d) := by
  have hfilter : ∀ o : Ns, o.entries.filter (fun e => e.dir = d) =
      (o.entries.filter (fun e => !D e.dir e.name)).filter (fun e => e.dir = d) := by
    intro o
    rw [List.filter_filter]
    congr 1
    funext e
    by_cases he : e.dir = d
    · simp [he, hd]
    · simp [he]
  rw [hfilter, hfilter, h.entries]

/-! ### The parts -/

theorem frame_setLinks (i : Ino) (k : Nat) : n.Frame D M U (n.setLinks i k) :=
  ⟨rfl, fun _ _ => rfl, fun _ _ h => h, fun _ _ => rfl⟩

theorem frame_free (i : Ino) : n.Frame D M U (n.free i) := by
  refine ⟨rfl, fun _ _ => rfl, fun j _ hj => ?_, fun _ _ => rfl⟩
  by_cases h : j = i
  · subst h
    simp [Ns.free] at hj
  · simpa [Ns.free, update_of_ne h] using hj

theorem frame_addEntry {e : Entry} (h : D e.dir e.name = true) : n.Frame D M U (n.addEntry e) :=
  ⟨by simp [Ns.addEntry, h], fun _ _ => rfl, fun _ _ hu => hu, fun _ _ => rfl⟩

theorem frame_removeEntry (h : D d a = true) : n.Frame D M U (n.removeEntry d a) := by
  refine ⟨?_, fun _ _ => rfl, fun _ _ hu => hu, fun _ _ => rfl⟩
  rw [Ns.removeEntry, Ns.without, List.filter_filter]
  congr 1
  funext e
  by_cases he : e.dir = d ∧ e.name = a
  · simp [he, h]
  · simp [he]

theorem frame_setDotdot (p : Ino) (h : U d) : n.Frame D M U (n.setDotdot d p) := by
  refine ⟨rfl, fun _ _ => rfl, fun _ _ hu => hu, fun i hi => ?_⟩
  have hne : i ≠ d := by
    rintro rfl
    exact hi h
  exact update_of_ne hne _ _

variable (env) in
theorem releaseRuns_toNs (i : Ino) (l : List Nat) : ∀ (k : Nat) (s : Fs),
    (releaseRuns env i k l s).2.toNs = s.toNs := by
  induction l with
  | nil => intro k s; rfl
  | cons len rest ih =>
    intro k s
    rw [releaseRuns]
    cases env.late (.release k) with
    | some f => exact harm_toNs ..
    | none =>
      simp only
      split
      · exact ih _ _
      · rfl

variable (env) in
theorem releaseAll_toNs (i : Ino) : (releaseAll s env i).2.toNs = s.toNs := by
  have h := releaseRuns_toNs env i (s.runs i) 0 s
  unfold releaseAll
  split
  · rename_i e t hr
    rwa [hr] at h
  · rename_i t hr
    rw [hr] at h
    exact h

theorem iflush_toNs (i : Ino) : (iflush s env i).2.toNs = s.toNs := by
  unfold iflush
  cases env.late .flush with
  | some f => exact harm_toNs ..
  | none =>
    simp only
    split <;> rfl

theorem freeInode_frame (f : Option LateFault) (i : Ino) :
    s.toNs.Frame D M U (freeInode s f i).2.toNs := by
  rcases freeInode_cases s f i with ⟨f', h⟩ | h | ⟨t, h, -, ht⟩
  · rw [h]
    exact frame_of_eq (harm_toNs ..)
  · rw [h]
    exact .refl ..
  · rw [h, ht]
    exact frame_free i

variable (env) in
theorem retire_frame (i : Ino) (dtime : Nat) : s.toNs.Frame D M U (retire s env i dtime).2.toNs := by
  have hset : s.toNs.Frame D M U
      ({ s.setLinks i 0 with dtime := update s.dtime i dtime } : Fs).toNs :=
    frame_setLinks i 0
  have hfree := freeInode_frame (D := D) (M := M) (U := U)
    (s := { s.setLinks i 0 with dtime := update s.dtime i dtime }) (env.late .free) i
  unfold retire
  simp only
  split
  · rename_i e t h
    rw [h] at hfree
    exact hset.trans hfree
  · rename_i t h
    rw [h] at hfree
    exact (hset.trans hfree).trans (frame_of_eq (iflush_toNs i))

theorem destroyInode_frame (i : Ino) : s.toNs.Frame D M U (destroyInode s env i).2.toNs := by
  have hrel := releaseAll_toNs (s := orphanAdd s i) env i
  unfold destroyInode
  split
  · rename_i e t h
    rw [h] at hrel
    exact frame_of_eq hrel
  · rename_i t h
    rw [h] at hrel
    have hto : (orphanDel t i).toNs = s.toNs := hrel
    rw [← hto]
    exact retire_frame _ i _

theorem undoCreate_frame (i : Ino) (rc : Err) :
    s.toNs.Frame D M U (undoCreate s env i rc).2.toNs := by
  have hrel := releaseAll_toNs (s := s) env i
  unfold undoCreate
  split
  · rename_i e t h
    rw [h] at hrel
    rw [← hrel]
    exact frame_setLinks i 0
  · rename_i t h
    rw [h] at hrel
    have hret := retire_frame (s := t) (D := D) (M := M) (U := U) env i (env.now ||| 1)
    rw [hrel] at hret
    split
    · rename_i e u hu
      rwa [hu] at hret
    · rename_i u hu
      rwa [hu] at hret

variable (env) in
theorem dirAdd_frame (ino : Ino) (type : Nat) (h : D d a = true) :
    s.toNs.Frame D M U (dirAdd s env d a ino type).2.toNs := by
  rcases dirAdd_cases s env d a ino type with ⟨f, hf⟩ | ⟨t, ty, hf, -, ht⟩
  · rw [hf]
    exact frame_of_eq (harm_toNs ..)
  · rw [hf, ht]
    exact frame_addEntry h

variable (env) in
theorem dirRemove_frame (expect : Ino) (h : D d a = true) :
    s.toNs.Frame D M U (dirRemove s env d a expect).2.toNs := by
  rcases dirRemove_cases s env d a expect with ⟨f, hf⟩ | ⟨-, hf⟩ | ⟨t, hf, -, ht⟩
  · rw [hf]
    exact frame_of_eq (harm_toNs ..)
  · rw [hf]
    exact .refl ..
  · rw [hf, ht]
    exact frame_removeEntry h

variable (env) in
theorem dirSetInode_frame (ino : Ino) (type : Nat) (h : D d a = true) :
    s.toNs.Frame D M U (dirSetInode s env d a ino type).2.toNs := by
  cases he : s.entry d a with
  | none =>
    unfold dirSetInode
    cases env.late .setInode with
    | some f => exact frame_of_eq (harm_toNs ..)
    | none =>
      rw [he]
      exact .refl ..
  | some old =>
    rcases dirSetInode_cases s env d a ino type he with ⟨f, hf⟩ | ⟨t, ty, hf, -, ht⟩
    · rw [hf]
      exact frame_of_eq (harm_toNs ..)
    · rw [hf, ht]
      exact (frame_removeEntry h).trans (frame_addEntry h)

theorem dirLinkInc_frame (d : Ino) : s.toNs.Frame D M U (dirLinkInc s d).toNs := by
  rw [(dirLinkInc_spec s d).2]
  exact frame_setLinks ..

theorem dirLinkDec_frame (d : Ino) : s.toNs.Frame D M U (dirLinkDec s d).toNs := by
  rw [(dirLinkDec_spec s d).2]
  exact frame_setLinks ..

@[simp] theorem failed_toNs (s : Fs) (f : Failure) : (s.failed f).2.toNs = s.toNs := harm_toNs ..

/-! ### Removal and renaming -/

@[simp] theorem opEnd_toNs (env : Env) (r : Option Err × Fs) : (opEnd env r).2.toNs = r.2.toNs := by
  unfold opEnd
  simp only
  split
  · rfl
  · split
    · rfl
    · split <;> rfl

theorem opBegin_none (h : opBegin s env = (none, t)) :
    t = { s with opMods := s.mods } ∧ s.dead = false ∧ s.ro = false := by
  unfold opBegin at h
  split at h
  · cases h
  rename_i hdead
  split at h
  · cases h
  rename_i hro
  split at h
  · cases h
  · exact ⟨(Prod.mk.inj h).2.symm, by simpa using hdead, by simpa using hro⟩

theorem opBegin_some {e : Err} (h : opBegin s env = (some e, t)) : t = s := by
  unfold opBegin at h
  split at h
  · exact (Prod.mk.inj h).2.symm
  split at h
  · exact (Prod.mk.inj h).2.symm
  split at h
  · exact (Prod.mk.inj h).2.symm
  · cases h

theorem frame_op {body : Fs → Option Err × Fs}
    (h : ∀ t : Fs, t.toNs = s.toNs → s.toNs.Frame D M U (body t).2.toNs) :
    s.toNs.Frame D M U (match opBegin s env with
      | (some e, s) => (some e, s)
      | (none, s) => opEnd env (body s)).2.toNs := by
  split
  · rename_i e t hr
    exact frame_of_eq (congrArg Fs.toNs (opBegin_some hr))
  · rename_i t hr
    rw [opEnd_toNs]
    refine h t ?_
    rw [(opBegin_none hr).1]

theorem unlinkBody_frame (h : D d a = true) : s.toNs.Frame D M U (unlinkBody s env d a).2.toNs := by
  unfold unlinkBody
  split
  · exact frame_of_eq (failed_toNs ..)
  split
  · exact frame_of_eq (failed_toNs ..)
  · exact .refl ..
  rename_i i hlook
  split
  · exact frame_of_eq (failed_toNs ..)
  split
  · exact .refl ..
  split
  · exact .refl ..
  have hrem := dirRemove_frame (s := s) (M := M) (U := U) env i h
  split
  · rename_i e t hr
    rwa [hr] at hrem
  · rename_i t hr
    rw [hr] at hrem
    simp only
    obtain ⟨u, hu⟩ : ∃ u, u = if t.links i ≠ 0 then t.setLinks i (t.links i - 1) else t := ⟨_, rfl⟩
    have hset : s.toNs.Frame D M U u.toNs := by
      rw [hu]
      split
      · exact hrem.trans (frame_setLinks ..)
      · exact hrem
    rw [← hu]
    split
    · exact hset.trans (destroyInode_frame i)
    · exact hset

theorem rmdirBody_frame (h : D d a = true) : s.toNs.Frame D M U (rmdirBody s env d a).2.toNs := by
  unfold rmdirBody
  split
  · exact frame_of_eq (failed_toNs ..)
  split
  · exact frame_of_eq (failed_toNs ..)
  · exact .refl ..
  rename_i i hlook
  split
  · exact frame_of_eq (failed_toNs ..)
  split
  · exact .refl ..
  split
  · exact .refl ..
  split
  · exact frame_of_eq (failed_toNs ..)
  split
  · exact .refl ..
  have hrem := dirRemove_frame (s := s) (M := M) (U := U) env i h
  split
  · rename_i e t hr
    rwa [hr] at hrem
  · rename_i t hr
    rw [hr] at hrem
    have hset : s.toNs.Frame D M U ((dirLinkDec t d).setLinks i 0).toNs :=
      (hrem.trans (dirLinkDec_frame d)).trans (frame_setLinks i 0)
    exact hset.trans (destroyInode_frame i)

variable (env) in
theorem reparent_within (od nd : Ino) (grows : Bool) (h : s.isDir src = true → od ≠ nd → U src) :
    s.toNs.Frame D M U (reparent s env od nd src grows).2.toNs := by
  unfold reparent
  split
  · rename_i hm
    rcases dirSetParent_cases s env src nd with ⟨f, hf⟩ | ⟨t, hf, -, ht⟩
    · rw [hf]
      exact frame_of_eq (failed_toNs ..)
    · rw [hf]
      have hset : s.toNs.Frame D M U t.toNs := by
        rw [ht]
        exact frame_setDotdot nd (h hm.1 hm.2)
      simp only
      split
      · exact (hset.trans (dirLinkDec_frame od)).trans (dirLinkInc_frame nd)
      · exact hset.trans (dirLinkDec_frame od)
  · exact .refl ..

theorem dropTarget_within (od nd src t : Ino) :
    s.toNs.Frame D M U (dropTarget s od nd src t).toNs := by
  unfold dropTarget
  split
  · simp only
    have hset : s.toNs.Frame D M U (s.setLinks t 0).toNs := frame_setLinks t 0
    split
    · exact hset.trans (dirLinkDec_frame nd)
    · exact hset
  · split
    · exact frame_setLinks ..
    · exact .refl ..

theorem renameTail_frame (nd : Ino) (tgt : Option Ino) (hD : D od oname = true)
    (hU : s.isDir src = true → od ≠ nd → U src) :
    s.toNs.Frame D M U (renameTail s env od oname nd src tgt).2.toNs := by
  have hrem := dirRemove_frame (s := s) (M := M) (U := U) env src hD
  have hmode := dirRemove_frame (s := s) (D := D) (M := fun _ => False) (U := U) env src hD
  unfold renameTail
  split
  · rename_i e t hr
    rwa [hr] at hrem
  · rename_i t hr
    rw [hr] at hrem hmode
    have hdir : t.isDir src = s.isDir src := congrArg isDirMode (hmode.mode src id)
    have hrep := reparent_within (s := t) (D := D) (M := M) env od nd (tgt = none)
      (by rwa [hdir])
    split
    · rename_i e u hu
      rw [hu] at hrep
      exact hrem.trans hrep
    · rename_i u hu
      rw [hu] at hrep
      cases tgt with
      | none => exact hrem.trans hrep
      | some x =>
        have hdrop := (hrem.trans hrep).trans (dropTarget_within (s := u) od nd src x)
        simp only
        split
        · exact hdrop.trans (destroyInode_frame x)
        · exact hdrop

theorem renameBody_frame (hold : D od oname = true) (hlive : s.links nd ≠ 0 → D nd nname = true)
    (hU : ∀ i, s.entry od oname = some i → s.isDir i.ino = true → od ≠ nd → U i.ino) :
    s.toNs.Frame D M U (renameBody s env od oname nd nname replace).2.toNs := by
  unfold renameBody
  split
  · exact frame_of_eq (failed_toNs ..)
  split
  · exact frame_of_eq (failed_toNs ..)
  rename_i hnd
  have hnew := hlive (getDir_none hnd).2
  split
  · exact frame_of_eq (failed_toNs ..)
  · exact .refl ..
  rename_i sino hlook
  obtain ⟨e, he, rfl⟩ := lookup_some hlook
  split
  · exact frame_of_eq (failed_toNs ..)
  split
  · exact frame_of_eq (failed_toNs ..)
  split
  · exact frame_of_eq (failed_toNs ..)
  · rename_i t _
    split
    · exact .refl ..
    split
    · exact .refl ..
    split
    · exact frame_of_eq (failed_toNs ..)
    have hset := dirSetInode_frame (s := s) (D := D) (M := fun _ => False) (U := U) env
      e.ino (modeToFt (s.mode e.ino)) hnew
    have hset' := dirSetInode_frame (s := s) (D := D) (M := M) (U := U) env
      e.ino (modeToFt (s.mode e.ino)) hnew
    split
    · rename_i rc u hu
      rwa [hu] at hset'
    · rename_i u hu
      rw [hu] at hset hset'
      have hdir : u.isDir e.ino = s.isDir e.ino := congrArg isDirMode (hset.mode e.ino id)
      exact hset'.trans (renameTail_frame nd (some t) hold (by rw [hdir]; exact hU e he))
  · split
    · exact .refl ..
    have hadd := dirAdd_frame (s := s) (D := D) (M := fun _ => False) (U := U) env
      e.ino (modeToFt (s.mode e.ino)) hnew
    have hadd' := dirAdd_frame (s := s) (D := D) (M := M) (U := U) env
      e.ino (modeToFt (s.mode e.ino)) hnew
    split
    · rename_i rc u hu
      rwa [hu] at hadd'
    · rename_i u hu
      rw [hu] at hadd hadd'
      have hdir : u.isDir e.ino = s.isDir e.ino := congrArg isDirMode (hadd.mode e.ino id)
      exact hadd'.trans (renameTail_frame nd none hold (by rw [hdir]; exact hU e he))

theorem sfsUnlink_frame (h : D d a = true) : s.toNs.Frame D M U (sfsUnlink s env d a).2.toNs := by
  unfold sfsUnlink
  split
  · exact .refl ..
  · exact frame_op fun t ht => by rw [← ht]; exact unlinkBody_frame h

theorem sfsRmdir_frame (h : D d a = true) : s.toNs.Frame D M U (sfsRmdir s env d a).2.toNs := by
  unfold sfsRmdir
  split
  · exact .refl ..
  · exact frame_op fun t ht => by rw [← ht]; exact rmdirBody_frame h

theorem sfsRename_frame (hold : D od oname = true) (hlive : s.links nd ≠ 0 → D nd nname = true)
    (hU : ∀ i, s.entry od oname = some i → s.isDir i.ino = true → od ≠ nd → U i.ino) :
    s.toNs.Frame D M U (sfsRename s env od oname nd nname replace).2.toNs := by
  unfold sfsRename
  split
  · exact .refl ..
  split
  · exact .refl ..
  · exact frame_op fun t ht => by
      rw [← ht]
      rw [← ht] at hU hlive
      exact renameBody_frame hold hlive hU

variable (env) in
theorem dataUpdate_toNs (i : Ino) (perm nblocks : Nat) (runs : List Nat) (rc : Option Fault) :
    (dataUpdate s env i perm nblocks runs rc).2.toNs = s.toNs ∨
    (dataUpdate s env i perm nblocks runs rc).2.toNs = { s.toNs with
      mode := update s.mode i (s.mode i / 0x1000 * 0x1000 + perm % 0x1000) } := by
  unfold dataUpdate
  cases hb : opBegin s env with
  | mk e t =>
  cases e with
  | some e =>
    obtain rfl := opBegin_some hb
    exact .inl rfl
  | none =>
    obtain ⟨rfl, -, -⟩ := opBegin_none hb
    simp only [opEnd_toNs]
    unfold dataBody
    split
    · exact .inl (failed_toNs ..)
    · simp only
      split
      · rw [failed_toNs]
        exact .inr rfl
      · exact .inr rfl

/-! ### Creation -/

theorem setLinks_frame (i : Ino) (k : Nat) : s.toNs.Frame D M U (s.setLinks i k).toNs :=
  frame_setLinks i k

variable (env) in
theorem fillNew_frame (d : Ino) (k : NewKind) (h : U i) :
    s.toNs.Frame D M U (fillNew s env i d k).2.toNs := by
  cases k with
  | file => exact .refl ..
  | directory =>
    unfold fillNew
    simp only
    cases env.fault .init with
    | some f =>
      simp only [failed_toNs]
      split
      · exact setLinks_frame i 2
      · exact setLinks_frame i 2
    | none => exact (setLinks_frame i 2).trans (frame_setDotdot (n := (s.setLinks i 2).toNs) d h)
  | symlink tlen =>
    unfold fillNew
    simp only
    split
    · exact .refl ..
    · cases env.fault .init with
      | some f =>
        simp only [failed_toNs]
        split
        · exact .refl ..
        · exact .refl ..
      | none => exact .refl ..

theorem createNew_frame (k : NewKind) (mode : Nat) (h : D d a = true) (hU : U i) :
    s.toNs.Frame D M U (createNew s env d a k mode i).2.toNs := by
  have hfill := fillNew_frame (s := s) (D := D) (M := M) env d k hU
  unfold createNew
  split
  · rename_i e t ht
    rw [ht] at hfill
    exact hfill.trans (undoCreate_frame i e)
  · rename_i t ht
    rw [ht] at hfill
    have hadd := dirAdd_frame (s := t) (M := M) (U := U) env i (modeToFt (k.mode mode)) h
    split
    · rename_i e u hu
      rw [hu] at hadd
      exact (hfill.trans hadd).trans (undoCreate_frame i e)
    · rename_i u hu
      rw [hu] at hadd
      split
      · exact (hfill.trans hadd).trans (dirLinkInc_frame d)
      · exact hfill.trans hadd

/-- A creation that goes through has changed something. -/
theorem createNew_none (hruns : s.runs i = []) (h : (createNew s env d a k mode i).1 = none) :
    (createNew s env d a k mode i).2.feat = s.feat ∧
      (createNew s env d a k mode i).2.opMods = s.opMods ∧
      s.mods < (createNew s env d a k mode i).2.mods := by
  have hundo : ∀ t e, (undoCreate t env i e).1 ≠ none := by
    intro t e
    unfold undoCreate
    split
    · simp
    · split
      · simp
      · simp
  obtain ⟨hfill, -⟩ := fillNew_spec (s := s) env (i := i) (d := d) k hruns
  obtain ⟨ho, hm⟩ := hfill.mods
  have hfeat := hfill.feat
  unfold createNew at h ⊢
  split at h
  · exact absurd h (hundo _ _)
  · rename_i t ht
    rw [ht] at ho hm hfeat
    simp only at ho hm hfeat
    rcases dirAdd_cases t env d a i (modeToFt (k.mode mode)) with ⟨f, hf⟩ | ⟨u, ty, hf, hl, -⟩
    · rw [hf] at h
      exact absurd h (hundo _ _)
    · have h0 : u.feat = t.feat := hl.feat
      have h1 : u.opMods = t.opMods := hl.opMods
      have h2 : t.mods < u.mods := hl.mods
      rw [hf]
      simp only
      split
      · obtain ⟨hi, -⟩ := dirLinkInc_spec u d
        exact ⟨by rw [hi.feat, h0, hfeat], by rw [hi.opMods, h1, ho], by have := hi.mods; omega⟩
      · exact ⟨by rw [h0, hfeat], by rw [h1, ho], by omega⟩

/-- A creation that fails frees the inode, or the volume is aborted. -/
theorem createNew_some (hruns : s.runs i = []) (hdi : d ≠ i) (hm : s.opMods < s.mods)
    (h : (createNew s env d a k mode i).1 ≠ none) :
    Lands s.feat (fun m => m.used i = false) (createNew s env d a k mode i) := by
  obtain ⟨hfill, -⟩ := fillNew_spec (s := s) env (i := i) (d := d) k hruns
  have hundo : ∀ {t : Fs} (e : Err), Filled s t i →
      Lands s.feat (fun m => m.used i = false) (undoCreate t env i e) := by
    intro t e ht
    have hl := undoCreate_lands env i e (by have := ht.mods; omega) ht.runs
    rw [ht.feat] at hl
    refine hl.mono fun m hm => ?_
    rw [hm]
    exact update_self ..
  unfold createNew at h ⊢
  cases hf : fillNew s env i d k with
  | mk rc t =>
  rw [hf] at hfill h
  cases rc with
  | some e => exact hundo e hfill
  | none =>
    simp only at h ⊢
    rcases dirAdd_cases t env d a i (modeToFt (k.mode mode)) with ⟨f, hadd⟩ | ⟨u, ty, hadd, -, -⟩
    · rw [hadd, Fs.failed]
      refine hundo f.err (Filled.harm ?_ f.harm)
      refine ⟨hfill.feat, hfill.mods, hfill.entries, hfill.used, hfill.mode, hfill.links,
        hfill.dotdot, ?_⟩
      simpa [Fs.reshaped, update_of_ne hdi.symm] using hfill.runs
    · rw [hadd] at h
      simp at h

/-- `create_common` either stops before it sets up an inode and leaves the namespace as it is,
or goes on from the new inode. -/
inductive Begun (s : Fs) (env : Env) (d : Ino) (a : Name) (k : NewKind) (mode : Nat)
    (r : Option Err × Fs) : Prop
  | stopped : freshIno s env d a k = none → r.1 ≠ none → r.2.toNs = s.toNs → Begun s env d a k mode r
  | went (u : Fs) : freshIno s env d a k = some env.pick → s.used env.pick = false →
      s.entry d a = none → inoValid s env.pick = true → env.fault .igetNew = none →
      u.toNs = s.toNs.newInode env.pick (k.mode mode) → u.feat = s.feat → u.runs env.pick = [] →
      u.opMods < u.mods → r = opEnd env (createNew u env d a k mode env.pick) →
      Begun s env d a k mode r

theorem opEnd_none (h : (opEnd env r).1 = none) : opEnd env r = r ∧ r.2.dead = false := by
  obtain ⟨rc, s⟩ := r
  unfold opEnd at h ⊢
  simp only at h ⊢
  split at h
  · cases rc <;> simp at h
  rename_i hdead
  rw [if_neg hdead]
  split at h
  · rename_i ha
    simp only at h
    rw [h] at ha
    simp at ha
  rename_i hab
  rw [if_neg hab]
  split at h
  · cases rc <;> simp at h
  · exact ⟨rfl, by simpa using hdead⟩

theorem opEnd_failed (h : r.1 = none) (hrc : (opEnd env r).1 ≠ none) :
    (opEnd env r).2.dead = true := by
  obtain ⟨rc, s⟩ := r
  obtain rfl : rc = none := h
  unfold opEnd at hrc ⊢
  simp only at hrc ⊢
  split
  · rename_i hd
    exact hd
  · rename_i hd
    rw [if_neg hd, if_neg (by simp)] at hrc
    cases hf : env.fault .commit with
    | some f => rfl
    | none =>
      rw [hf] at hrc
      exact absurd rfl hrc

theorem opEnd_dead {e : Err} (h : t.dead = true ∨ (e.aborts = true ∧ t.mods ≠ t.opMods)) :
    (opEnd env (some e, t)).2.dead = true := by
  unfold opEnd
  simp only
  split
  · rename_i hd
    exact hd
  rename_i hd
  rw [if_pos ⟨by simpa using (h.resolve_left hd).1, (h.resolve_left hd).2⟩]

theorem opEnd_error {e : Err} : (opEnd env (some e, t)).1 ≠ none := by
  unfold opEnd
  simp only
  split
  · simp
  · split
    · simp
    · split
      · simp
      · simp

variable (env) in
theorem createBody_begun (mode : Nat) (hm : s.opMods ≤ s.mods) :
    (freshBody s env d a k = none ∧ (createBody s env d a k mode).1 ≠ none ∧
      (createBody s env d a k mode).2.toNs = s.toNs) ∨
    ∃ u : Fs, freshBody s env d a k = some env.pick ∧ s.used env.pick = false ∧
      s.entry d a = none ∧ inoValid s env.pick = true ∧ env.fault .igetNew = none ∧
      u.toNs = s.toNs.newInode env.pick (k.mode mode) ∧ u.feat = s.feat ∧ u.runs env.pick = [] ∧
      u.opMods < u.mods ∧ createBody s env d a k mode = createNew u env d a k mode env.pick := by
  unfold freshBody createBody
  cases hget : getDir s d (env.fault .getDir) with
  | some f => exact .inl ⟨rfl, by simp [Fs.failed], failed_toNs ..⟩
  | none =>
  cases hlook : dirLookup s d a (env.fault .lookup) with
  | error f => exact .inl ⟨rfl, by simp [Fs.failed], failed_toNs ..⟩
  | ok found =>
  cases found with
  | some i => exact .inl ⟨rfl, by simp, rfl⟩
  | none =>
  by_cases hguard : k = .directory ∧ linkGuard s d
  · exact .inl ⟨by simp [hguard], by simp [hguard], by simp [hguard]⟩
  simp only [if_neg hguard]
  cases ha : allocInode s env with
  | mk r t =>
  unfold allocInode at ha
  split at ha
  · obtain ⟨rfl, rfl⟩ := Prod.mk.inj ha
    exact .inl ⟨rfl, by simp, harm_toNs ..⟩
  split at ha
  · rename_i hpick
    obtain ⟨rfl, rfl⟩ := Prod.mk.inj ha
    obtain ⟨hvalid, hfirst, hfree⟩ := hpick
    rw [Bool.not_eq_true] at hfree
    simp only
    cases hg : env.fault .igetNew with
    | some f =>
      obtain ⟨-, hns⟩ := freeInode_undoes (v := { s with
        used := update s.used env.pick true, mods := s.mods + 1 }.harm f.harm) hvalid
        hfirst hfree (by simp) (by simp)
      exact .inl ⟨by simp, by simp, hns⟩
    | none =>
      refine .inr ⟨_, by simp, hfree, lookup_none hlook, hvalid, rfl, ?_, ?_, ?_, ?_, rfl⟩
      · rfl
      · rfl
      · simp [Fs.newInode]
      · simp only [Fs.newInode]
        omega
  · obtain ⟨rfl, rfl⟩ := Prod.mk.inj ha
    exact .inl ⟨rfl, by simp, rfl⟩

variable (env) in
theorem createCommon_begun (mode : Nat) (hk : k = .file ∨ k = .directory) :
    Begun s env d a k mode (createCommon s env d a k mode) := by
  have h0 : k ≠ .symlink 0 := by rcases hk with rfl | rfl <;> simp
  have hl : k.tooLong s.feat.bsBits = false := by rcases hk with rfl | rfl <;> rfl
  unfold createCommon
  cases hn : nameOk a with
  | some e => exact .stopped (by simp [freshIno, hn]) (by simp) rfl
  | none =>
    simp only [h0, hl, if_false, Bool.false_eq_true]
    cases hb : opBegin s env with
    | mk rc t =>
    cases rc with
    | some e =>
      obtain rfl := opBegin_some hb
      exact .stopped (by simp [freshIno, hn, hb]) (by simp) rfl
    | none =>
      obtain ⟨rfl, -, -⟩ := opBegin_none hb
      have hfresh : freshIno s env d a k = freshBody { s with opMods := s.mods } env d a k := by
        simp [freshIno, hn, hb]
      rcases createBody_begun (s := { s with opMods := s.mods }) (d := d) (a := a) (k := k) env mode
        le_rfl with ⟨h1, h2, h3⟩ | ⟨u, h1, h2, h3, h4, h5, h6, h7, h8, h9, h10⟩
      · refine .stopped (hfresh.trans h1) ?_ (by simpa using h3)
        simp only
        cases hr : createBody { s with opMods := s.mods } env d a k mode with
        | mk rc t =>
        cases rc with
        | none =>
          rw [hr] at h2
          exact absurd rfl h2
        | some e => exact opEnd_error
      · exact .went u (hfresh.trans h1) h2 h3 h4 h5 h6 h7 h8 h9 (by simp only [h10])

end Frame

end Win98Modern.Libsfs
