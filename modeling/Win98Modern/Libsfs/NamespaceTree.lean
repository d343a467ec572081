import Win98Modern.Lib.Forest
import Win98Modern.Libsfs.NamespaceWf

/-!
# The directories form a tree

A directory is `Rooted` when following `..` from it arrives at the root.  On a
well-formed namespace this makes the directories a tree: each is reached from
the root by exactly one chain of entries (`Wf.isTree`).

Only `sfs_rename` turns a `..` entry.  Its walk `is_ancestor` stops after 4096
steps, so a directory that is moved more than 4096 levels below itself is not
noticed (`DeepMove`), and the directories on the way become a cycle that no
chain from the root reaches.  Without such a move the directories stay a tree
over every run (`run_isTree`).
-/

namespace Win98Modern.Libsfs

open Function List

/-! ### Chains of entries -/

inductive Chain (n : Ns) : List Entry → Ino → Prop
  | root : Chain n [] SFS_ROOT_INO
  | step {l : List Entry} {e : Entry} : Chain n l e.dir → e ∈ n.entries → Chain n (e :: l) e.ino

/-- Each directory is reached from the root by exactly one chain of entries, and
its `..` is the directory that contains it. -/
structure IsTree (n : Ns) : Prop where
  chain : ∀ d, n.Live d → n.isDir d = true → ∃! l, Chain n l d
  dotdot : ∀ e ∈ n.entries, n.isDir e.ino = true → n.dotdot e.ino = e.dir

def AllRooted (n : Ns) : Prop :=
  ∀ d, n.Live d → n.isDir d = true → Rooted n.dotdot SFS_ROOT_INO d

section

variable {feat : Features} {rel : Ino → Prop} {n m : Ns}

variable {d i : Ino} {c : Call}

theorem Wf.entry_of_dir (h : Wf feat n) (hl : n.Live d) (hd : n.isDir d = true)
    (hr : d ≠ SFS_ROOT_INO) : ∃ e ∈ n.entries, e.ino = d ∧ ∀ x ∈ n.entries, x.ino = d → x = e := by
  have hone := h.single d hl hd hr
  unfold Ns.named at hone
  rw [countP_eq_length_filter, length_eq_one_iff] at hone
  obtain ⟨e, he⟩ := hone
  have hmem : ∀ x, x ∈ n.entries ∧ x.ino = d ↔ x = e := by
    intro x
    have : x ∈ n.entries.filter (fun e => e.ino = d) ↔ x ∈ [e] := by rw [he]
    simpa using this
  obtain ⟨h1, h2⟩ := (hmem e).2 rfl
  exact ⟨e, h1, h2, fun x hx hxd => (hmem x).1 ⟨hx, hxd⟩⟩

theorem Wf.chain_unique (h : Wf feat n) {l : List Entry} (hc : Chain n l d) :
    n.isDir d = true → ∀ l', Chain n l' d → l' = l := by
  induction hc with
  | root =>
    intro _ l' hl'
    generalize hd : SFS_ROOT_INO = d at hl'
    cases hl' with
    | root => rfl
    | step _ he => exact absurd hd.symm (h.inos _ he).2
  | @step l e _ he ih =>
    intro hdir l' hl'
    have hlive := h.inos e he
    generalize hd : e.ino = d at hl'
    cases hl' with
    | root => exact absurd hd hlive.2
    | @step l'' e' hc' he' =>
      obtain ⟨x, -, -, hx⟩ := h.entry_of_dir hlive.1 hdir hlive.2
      obtain rfl : e = x := hx e he rfl
      obtain rfl : e' = e := hx e' he' hd.symm
      rw [ih (h.dirs e' he').2 l'' hc']

/-- **Rooted directories form a tree.** -/
theorem Wf.isTree (h : Wf feat n) (hr : AllRooted n) : IsTree n where
  dotdot := h.parent
  chain := by
    intro d hl hd
    have hex : ∃ l, Chain n l d := by
      refine Rooted.induct (P := fun d => n.Live d → n.isDir d = true → ∃ l, Chain n l d)
        (fun _ _ => ⟨[], .root⟩) ?_ (hr d hl hd) hl hd
      intro d hne _ ih hl hd
      obtain ⟨e, he, rfl, -⟩ := h.entry_of_dir hl hd hne
      have hparent := h.parent e he hd
      rw [hparent] at ih
      obtain ⟨l, hc⟩ := ih (h.dirs e he).1 (h.dirs e he).2
      exact ⟨e :: l, .step hc he⟩
    obtain ⟨l, hc⟩ := hex
    exact ⟨l, hc, h.chain_unique hc hd⟩

theorem Wf.up_live (h : Wf feat n) (hd : n.Live d ∧ n.isDir d = true) :
    n.Live (n.dotdot d) ∧ n.isDir (n.dotdot d) = true := by
  by_cases hr : d = SFS_ROOT_INO
  · subst hr
    rw [h.root.2.2]
    exact ⟨h.root.1, h.root.2.1⟩
  · obtain ⟨e, he, rfl, -⟩ := h.entry_of_dir hd.1 hd.2 hr
    rw [h.parent e he hd.2]
    exact h.dirs e he

/-! ### What an outcome does to the directories -/

def Ns.DirNode (n : Ns) (d : Ino) : Prop := n.Live d ∧ n.isDir d = true

theorem Ends.dirNode (he : Ends rel n i m) (hd : m.DirNode d) :
    n.DirNode d ∧ m.dotdot d = n.dotdot d := by
  rcases he with ⟨-, rfl⟩ | ⟨hl, rfl | ⟨rfl, -⟩⟩
  · exact ⟨hd, rfl⟩
  · obtain ⟨⟨hu, hk⟩, hdir⟩ := hd
    have hdi : d ≠ i := by
      rintro rfl
      exact hk (update_self ..)
    refine ⟨⟨⟨?_, ?_⟩, hdir⟩, rfl⟩
    · rwa [← show (n.destroy i).used d = n.used d from update_of_ne hdi _ _]
    · rwa [← show (n.destroy i).links d = n.links d from update_of_ne hdi _ _]
  · exact ⟨hd, rfl⟩

theorem created_dirNode {nlink : Bool} {k : NewKind} {mode : Nat} {e : Entry} (hd : n.DirNode d)
    {x : Ino} (hx : (n.created nlink i d k mode e).DirNode x) (hxi : x ≠ i) :
    n.DirNode x ∧ (n.created nlink i d k mode e).dotdot x = n.dotdot x := by
  unfold Ns.created at hx ⊢
  split at hx
  · rename_i hk
    rw [if_pos hk]
    obtain ⟨⟨hu, hl⟩, hdir⟩ := hx
    have hdir' : n.isDir x = true := by
      rw [← hdir]
      show isDirMode (n.mode x) = isDirMode (update n.mode i _ x)
      rw [update_of_ne hxi]
    have hu' : n.used x = true := by
      rw [← hu]
      exact (update_of_ne hxi _ _).symm
    refine ⟨⟨⟨hu', ?_⟩, hdir'⟩, update_of_ne hxi _ _⟩
    by_cases hxd : x = d
    · exact hxd ▸ hd.1.2
    · intro h0
      refine hl ?_
      show update (update (update n.links i 1) i 2) d _ x = 0
      rw [update_of_ne hxd, update_of_ne hxi, update_of_ne hxi, h0]
  · rename_i hk
    rw [if_neg hk]
    obtain ⟨⟨hu, hl⟩, hdir⟩ := hx
    refine ⟨⟨⟨?_, ?_⟩, ?_⟩, rfl⟩
    · rw [← hu]
      exact (update_of_ne hxi _ _).symm
    · intro h0
      exact hl ((update_of_ne hxi _ _).trans h0)
    · rw [← hdir]
      show isDirMode (n.mode x) = isDirMode (update n.mode i _ x)
      rw [update_of_ne hxi]

/-- The directory that a call moves to another one, if it does. -/
def Moved (n : Ns) (c : Call) (src nd : Ino) : Prop :=
  ∃ od oname nname replace e, c = .rename od oname nd nname replace ∧ n.entry od oname = some e ∧
    e.ino = src ∧ n.isDir src = true ∧ od ≠ nd

/-- What an outcome does to the directories and their `..`. -/
inductive Turns (n : Ns) (c : Call) (m : Ns) : Prop
  | stay (h : ∀ x, m.DirNode x → n.DirNode x ∧ m.dotdot x = n.dotdot x)
  | made (i d : Ino) (hd : n.DirNode d) (hi : ¬n.DirNode i) (hdot : m.isDir i = true → m.dotdot i = d)
    (hold : ∀ x, m.DirNode x → x ≠ i → n.DirNode x ∧ m.dotdot x = n.dotdot x)
  | moved (src nd : Ino) (hmv : Moved n c src nd) (hmet : NotMet n src nd) (hnd : n.DirNode nd)
    (hdot : m.dotdot = update n.dotdot src nd) (hold : ∀ x, m.DirNode x → n.DirNode x)

theorem turns_of_rename {od nd : Ino} {oname nname : Name} {replace : Bool} {e : Entry}
    (he : n.entry od oname = some e) (hnd : n.DirNode nd)
    (hmoves : n.isDir e.ino = true → od ≠ nd → NotMet n e.ino nd)
    (hdot : m.dotdot =
      if n.isDir e.ino = true ∧ od ≠ nd then update n.dotdot e.ino nd else n.dotdot)
    (hold : ∀ x, m.DirNode x → n.DirNode x) : Turns n (.rename od oname nd nname replace) m := by
  by_cases hm : n.isDir e.ino = true ∧ od ≠ nd
  · rw [if_pos hm] at hdot
    exact .moved e.ino nd ⟨od, oname, nname, replace, e, rfl, he, rfl, hm.1, hm.2⟩
      (hmoves hm.1 hm.2) hnd hdot hold
  · rw [if_neg hm] at hdot
    exact .stay fun x hx => ⟨hold x hx, by rw [hdot]⟩

/-- The directories of a rename to a free name. -/
theorem Wf.moved_dirNode (h : Wf feat n) {nd : Ino} {oname nname : Name} {ty : Nat} {e : Entry}
    (he : e ∈ n.entries) (hnd : n.DirNode nd) {x : Ino}
    (hx : (((n.addEntry ⟨nd, nname, e.ino, ty⟩).removeEntry e.dir oname).reparent feat.dirNlink
      e.dir nd e.ino true).DirNode x) : n.DirNode x := by
  obtain ⟨p, hp⟩ : ∃ p, p = (n.addEntry ⟨nd, nname, e.ino, ty⟩).removeEntry e.dir oname :=
    ⟨_, rfl⟩
  obtain ⟨-, hused, hmode, -⟩ := reparent_frame p feat.dirNlink e.dir nd e.ino true
  rw [← hp] at hx
  obtain ⟨⟨hu, hl⟩, hdir⟩ := hx
  by_cases hxo : x = e.dir
  · exact hxo ▸ h.dirs e he
  · by_cases hxn : x = nd
    · exact hxn ▸ hnd
    · refine ⟨⟨?_, ?_⟩, ?_⟩
      · rw [hused, hp] at hu
        exact hu
      · simp only [reparent_links_eq, hxn, hxo, false_and, if_false, ite_self] at hl
        rw [hp] at hl
        exact hl
      · unfold Ns.isDir at hdir
        rw [hmode, hp] at hdir
        exact hdir

/-- The directories of a rename over an entry: the old target is none any more. -/
theorem Wf.replaced_dirNode (h : Wf feat n) {nd : Ino} {oname nname : Name} {ty : Nat} {e t : Entry}
    (he : e ∈ n.entries) (ht : t ∈ n.entries) (htd : t.dir = nd)
    (hsame : n.isDir t.ino = n.isDir e.ino)
    (hempty : n.isDir t.ino = true → n.dirIsEmpty t.ino = true) {x : Ino}
    (hx : (((((n.removeEntry nd nname).addEntry ⟨nd, nname, e.ino, ty⟩).removeEntry e.dir
      oname).reparent feat.dirNlink e.dir nd e.ino false).dropTarget e.dir nd e.ino t.ino).DirNode x) :
    n.DirNode x := by
  have hno := h.no_entry_in hempty
  obtain ⟨p, hp⟩ : ∃ p, p = ((n.removeEntry nd nname).addEntry ⟨nd, nname, e.ino, ty⟩).removeEntry
      e.dir oname := ⟨_, rfl⟩
  obtain ⟨-, hused, hmode, -⟩ := reparent_frame p feat.dirNlink e.dir nd e.ino false
  obtain ⟨-, hused', hmode', -⟩ :=
    dropTarget_frame (p.reparent feat.dirNlink e.dir nd e.ino false) e.dir nd e.ino t.ino
  have hpsame : p.isDir t.ino = p.isDir e.ino := by rw [hp]; exact hsame
  rw [← hp] at hx
  obtain ⟨⟨hu, hl⟩, hdir⟩ := hx
  have hdirx : n.isDir x = true := by
    unfold Ns.isDir at hdir
    rw [hmode', hmode, hp] at hdir
    exact hdir
  have hxt : x ≠ t.ino := by
    rintro rfl
    refine hl ((replaced_links_eq (hno e he) (htd ▸ hno t ht) hpsame _).trans ?_)
    rw [if_pos rfl, if_pos (by rw [hp]; exact hdirx)]
  rcases replaced_links (hno e he) (htd ▸ hno t ht) hpsame
    (by rw [hp]; exact (h.dirs e he).1.2) hxt with h1 | ⟨rfl, -⟩
  · refine ⟨⟨?_, ?_⟩, hdirx⟩
    · rw [hused', hused, hp] at hu
      exact hu
    · rw [h1, hp] at hl
      exact hl
  · exact h.dirs e he

theorem Ends.dotdot (he : Ends rel n i m) : m.dotdot = n.dotdot := by
  rcases he with ⟨-, rfl⟩ | ⟨-, rfl | ⟨rfl, -⟩⟩ <;> rfl

theorem Wf.turns (h : Wf feat n) (ho : Outcome feat rel n c m) : Turns n c m := by
  cases ho with
  | agrees ha =>
    refine .stay fun x hx => ?_
    have hu : n.used x = true := ha.used ▸ hx.1.1
    exact ⟨⟨⟨hu, by rw [← ha.links x hu]; exact hx.1.2⟩, by rw [← ha.isDir x hu]; exact hx.2⟩,
      ha.dotdot x hu⟩
  | create i d name k mode ty hi _ hd hdl _ _ =>
    have hdn : n.DirNode d := ⟨h.live_of_links hdl, hd⟩
    have hin : ¬n.DirNode i := fun hd => absurd hd.1.1 (by rw [hi]; simp)
    refine .made i d hdn hin (fun hdir => ?_) fun x hx hxi => created_dirNode hdn hx hxi
    unfold Ns.created at hdir ⊢
    split
    · exact update_self ..
    · rename_i hk
      rw [if_neg hk] at hdir
      have hdir' : isDirMode (update n.mode i (k.mode mode) i) = true := hdir
      rw [update_self, NewKind.isDirMode_mode, decide_eq_true_eq] at hdir'
      exact absurd hdir' hk
  | unlink d name e he hf hends =>
    refine .stay fun x hx => ?_
    obtain ⟨⟨⟨hu, hl⟩, hdir⟩, hdot⟩ := hends.dirNode hx
    have hxe : x ≠ e.ino := by
      rintro rfl
      have hdir' : n.isDir e.ino = true := hdir
      rw [hf] at hdir'
      cases hdir'
    exact ⟨⟨⟨hu, fun h0 => hl ((update_of_ne hxe _ _).trans h0)⟩, hdir⟩, hdot⟩
  | rmdir d name e he hd hr hempty hends =>
    obtain ⟨hmem, rfl, -⟩ := entry_mem he
    refine .stay fun x hx => ?_
    obtain ⟨⟨⟨hu, hl⟩, hdir⟩, hdot⟩ := hends.dirNode hx
    refine ⟨?_, hdot⟩
    by_cases hxd : x = e.dir
    · exact hxd ▸ h.dirs e hmem
    · have hxe : x ≠ e.ino := by
        rintro rfl
        exact hl (update_self ..)
      exact ⟨⟨hu, fun h0 => hl ((update_of_ne hxe _ _).trans
        ((update_of_ne hxd _ _).trans h0))⟩, hdir⟩
  | move od oname nd nname replace e ty he hd hdl hname hmoves =>
    obtain ⟨hmem, rfl, -⟩ := entry_mem he
    have hnd : n.DirNode nd := ⟨h.live_of_links hdl, hd⟩
    obtain ⟨-, -, -, hdot⟩ := reparent_frame
      ((n.addEntry ⟨nd, nname, e.ino, ty⟩).removeEntry e.dir oname) feat.dirNlink e.dir nd e.ino true
    exact turns_of_rename he hnd (fun hd hne => (hmoves hd hne).1) hdot
      fun x hx => h.moved_dirNode hmem hnd hx
  | replace od oname nd nname e t ty he hd hdl ht hne hmoves hsame hempty hends =>
    obtain ⟨hmem, rfl, -⟩ := entry_mem he
    obtain ⟨htmem, htd, -⟩ := entry_mem ht
    obtain ⟨-, -, -, hdot⟩ := reparent_frame
      (((n.removeEntry nd nname).addEntry ⟨nd, nname, e.ino, ty⟩).removeEntry e.dir oname)
      feat.dirNlink e.dir nd e.ino false
    exact turns_of_rename he ⟨h.live_of_links hdl, hd⟩ hmoves
      (hends.dotdot.trans ((dropTarget_frame ..).2.2.2.trans hdot))
      fun x hx => h.replaced_dirNode hmem htmem htd hsame hempty (hends.dirNode hx).1

/-- A directory that a call moves more than 4096 levels below itself. -/
def DeepMove (n : Ns) (c : Call) : Prop :=
  ∃ src nd, Moved n c src nd ∧ ∃ k, 4096 < k ∧ n.dotdot^[k] nd = src

theorem AllRooted.outcome (hr : AllRooted n) (h : Wf feat n) (ho : Outcome feat rel n c m)
    (hdeep : ¬DeepMove n c) : AllRooted m := by
  have hm := h.outcome ho
  cases h.turns ho with
  | stay hstay =>
    intro x hl hdir
    refine (hr x (hstay x ⟨hl, hdir⟩).1.1 (hstay x ⟨hl, hdir⟩).1.2).congr (P := m.DirNode) ?_
      (fun y hy => (hstay y hy).2) ⟨hl, hdir⟩
    intro y hy _
    rw [← (hstay y hy).2]
    exact hm.up_live hy
  | made i d hd hi hdot hold =>
    have hne : ∀ y, n.DirNode y → y ≠ i := fun y hy hyi => hi (hyi ▸ hy)
    have hrooted : ∀ x, m.DirNode x → n.DirNode x → Rooted m.dotdot SFS_ROOT_INO x := by
      intro x hx hx'
      refine (hr x hx'.1 hx'.2).congr (P := fun y => m.DirNode y ∧ n.DirNode y) ?_
        (fun y hy => (hold y hy.1 (hne y hy.2)).2) ⟨hx, hx'⟩
      rintro y ⟨hy, hy'⟩ _
      have hup := hm.up_live hy
      rw [(hold y hy (hne y hy')).2] at hup
      exact ⟨hup, h.up_live hy'⟩
    intro x hl hdir
    by_cases hxi : x = i
    · subst hxi
      have hup := hm.up_live ⟨hl, hdir⟩
      rw [hdot hdir] at hup
      refine Rooted.down ?_
      rw [hdot hdir]
      exact hrooted d hup hd
    · exact hrooted x ⟨hl, hdir⟩ (hold x ⟨hl, hdir⟩ hxi).1
  | moved src nd hmv hmet hnd hdot hold =>
    intro x hl hdir
    have hx := hold x ⟨hl, hdir⟩
    have hnot : ∀ k, n.dotdot^[k] nd ≠ src := by
      intro k hk
      by_cases hk' : k ≤ 4096
      · exact hmet h.root.2.2 k hk' hk
      · exact hdeep ⟨src, nd, hmv, k, by omega, hk⟩
    rw [hdot]
    exact (hr nd hnd.1 hnd.2).update hnot (hr x hx.1 hx.2)

end

/-! ### Runs -/

theorem step_dead {s : Fs} (hd : s.dead = true) (env : Env) (c : Call) : (step s env c).2 = s := by
  have hbegin : opBegin s env = (some .io, s) := by rw [opBegin, if_pos hd]
  have hcreate : ∀ d name k mode, (createCommon s env d name k mode).2 = s := by
    intro d name k mode
    unfold createCommon
    rw [hbegin]
    split
    · rfl
    · split
      · rfl
      · split <;> rfl
  cases c with
  | create d name mode => exact hcreate ..
  | mkdir d name mode => exact hcreate ..
  | symlink d name tlen => exact hcreate ..
  | unlink d name =>
    unfold step sfsUnlink
    simp only [hbegin]
    split <;> rfl
  | rmdir d name =>
    unfold step sfsRmdir
    simp only [hbegin]
    split <;> rfl
  | rename od oname nd nname replace =>
    unfold step sfsRename
    simp only [hbegin]
    split
    · rfl
    · split <;> rfl
  | data i perm nblocks runs rc =>
    unfold step dataUpdate
    simp only [hbegin]

/-- No call of the run is a deep move where it is made. -/
def NoDeepMove : Fs → List (Env × Call) → Prop
  | _, [] => True
  | s, c :: calls => ¬DeepMove s.toNs c.2 ∧ NoDeepMove (step s c.1 c.2).2 calls

/-- **The namespace stays a tree**: after a run without deep moves the volume was
aborted, or each directory is reached by exactly one chain of entries and `..`
names the directory that contains it. -/
theorem run_isTree {s : Fs} (calls : List (Env × Call)) (h : s.Wf) (hr : AllRooted s.toNs)
    (hok : NoDeepMove s calls) : (run s calls).dead = true ∨ IsTree (run s calls).toNs := by
  have hrun : (run s calls).dead = true ∨ (run s calls).Wf ∧ AllRooted (run s calls).toNs := by
    have hstart : s.dead = true ∨ s.Wf ∧ AllRooted s.toNs := .inr ⟨h, hr⟩
    clear h hr
    induction calls generalizing s with
    | nil => exact hstart
    | cons c calls ih =>
      refine ih hok.2 ?_
      show (step s c.1 c.2).2.dead = true ∨ (step s c.1 c.2).2.Wf ∧ AllRooted (step s c.1 c.2).2.toNs
      rcases hstart with hd | ⟨h, hr⟩
      · rw [step_dead hd]
        exact .inl hd
      · obtain ⟨hf, hd | ho⟩ := step_outcome c.1 c.2 (fun i _ hl => h.used_of_links hl)
        · exact .inl hd
        · right
          refine ⟨?_, hr.outcome h ho hok.1⟩
          unfold Fs.Wf
          rw [hf]
          exact h.outcome ho
  exact hrun.imp_right fun ⟨h, hr⟩ => h.isTree hr

/-- **The namespace stays well formed** over every run, whatever fails and whatever directories are moved. -/
theorem run_wf {s : Fs} (calls : List (Env × Call)) (h : s.Wf) :
    (run s calls).dead = true ∨ (run s calls).Wf := by
  have hstart : s.dead = true ∨ s.Wf := .inr h
  clear h
  induction calls generalizing s with
  | nil => exact hstart
  | cons c calls ih =>
    refine ih ?_
    show (step s c.1 c.2).2.dead = true ∨ (step s c.1 c.2).2.Wf
    obtain hd | h := hstart
    · rw [step_dead hd]
      exact .inl hd
    · obtain ⟨hf, ho⟩ := step_outcome c.1 c.2 (fun i _ hl => h.used_of_links hl)
      refine ho.imp_right fun ho => ?_
      rw [Fs.Wf, hf]
      exact h.outcome ho

/-! ### Nested directories -/

def noFaults : Env :=
  { fault := fun _ => none, late := fun _ => none, pick := 100000, now := 0, mapped := true,
    index := false, nblocks := 1, runs := [1] }

/-- The number of the directory at depth `k + 1` of a chain volume. -/
def chainIno (k : Nat) : Ino := k + 11

/-- The directory that contains it. -/
def chainDir : Nat → Ino
  | 0 => SFS_ROOT_INO
  | k + 1 => chainIno k

def chainEntry (k : Nat) : Entry := ⟨chainDir k, [97], chainIno k, 2⟩

/-- A volume with `depth` directories, each but the first inside the one before. -/
def chainVolume (depth : Nat) : Fs :=
  { mode := fun _ => 0x41ED
    links := fun i => if i = SFS_ROOT_INO ∨ 11 ≤ i ∧ i < depth + 11 then 3 else 0
    dotdot := fun i => if i ≤ 11 then SFS_ROOT_INO else i - 1
    used := fun i => i < depth + 11
    entries := (List.range depth).map chainEntry
    feat := { dirIndex := true, dirNlink := true, hugeFile := true, filetype := true, bsBits := 12,
              firstIno := 11, inodesCount := 1000000 }
    index := fun _ => false
    sealed := fun _ => false
    dtime := fun _ => 0
    nblocks := fun _ => 1
    runs := fun _ => [1]
    lastOrphan := 0
    dead := false
    ro := false
    mods := 0
    opMods := 0 }

variable {depth : Nat} {n : Ns} {d : Ino}

theorem mem_chain {e : Entry} :
    e ∈ (chainVolume depth).entries ↔ ∃ k < depth, chainEntry k = e := by
  show e ∈ (List.range depth).map chainEntry ↔ _
  simp

theorem chainDir_inj : ∀ {j k : Nat}, chainDir j = chainDir k → j = k
  | 0, 0, _ => rfl
  | 0, k + 1, h => absurd h (show ¬2 = k + 11 by omega)
  | j + 1, 0, h => absurd h (show ¬j + 11 = 2 by omega)
  | j + 1, k + 1, h => by
    have h' : j + 11 = k + 11 := h
    omega

theorem chainVolume_live {i : Ino} :
    (chainVolume depth).Live i ↔ i = SFS_ROOT_INO ∨ ∃ k < depth, chainIno k = i := by
  have hiff : (∃ k < depth, chainIno k = i) ↔ 11 ≤ i ∧ i < depth + 11 := by
    constructor
    · rintro ⟨k, hk, rfl⟩
      exact ⟨Nat.le_add_left 11 k, Nat.add_lt_add_right hk 11⟩
    · rintro ⟨h1, h2⟩
      exact ⟨i - 11, Nat.sub_lt_right_of_lt_add h1 h2, Nat.sub_add_cancel h1⟩
  rw [hiff]
  show decide (i < depth + 11) = true ∧
    (if i = SFS_ROOT_INO ∨ 11 ≤ i ∧ i < depth + 11 then 3 else 0) ≠ 0 ↔ _
  by_cases hi : i = SFS_ROOT_INO ∨ 11 ≤ i ∧ i < depth + 11
  · rw [if_pos hi]
    refine ⟨fun _ => hi, fun _ => ⟨decide_eq_true ?_, by decide⟩⟩
    rcases hi with rfl | hi
    · exact Nat.lt_add_left depth (show 2 < 11 by decide)
    · exact hi.2
  · rw [if_neg hi]
    exact ⟨fun h => absurd rfl h.2, fun h => absurd h hi⟩

theorem chainVolume_named {k : Nat} (hk : k < depth) :
    (chainVolume depth).named (chainIno k) = 1 := by
  show ((List.range depth).map chainEntry).countP _ = 1
  rw [countP_map]
  have hpred : (fun e : Entry => decide (e.ino = chainIno k)) ∘ chainEntry = (· == k) := by
    funext j
    show decide (j + 11 = k + 11) = (j == k)
    rw [Bool.eq_iff_iff, decide_eq_true_iff, beq_iff_eq, Nat.add_right_cancel_iff]
  rw [hpred]
  show (List.range depth).count k = 1
  rw [count_range, if_pos hk]

theorem chainVolume_wf (depth : Nat) : (chainVolume depth).Wf := by
  have hlive : ∀ k < depth, (chainVolume depth).Live (chainIno k) := fun k hk =>
    chainVolume_live.2 (.inr ⟨k, hk, rfl⟩)
  have hroot : (chainVolume depth).Live SFS_ROOT_INO := chainVolume_live.2 (.inl rfl)
  have hdir : ∀ i, (chainVolume depth).isDir i = true := fun _ => by
    show isDirMode 0x41ED = true
    decide
  refine ⟨show 2 < 11 by decide, ?_, fun e he => ?_, fun e he => ?_, ⟨hroot, hdir _, rfl⟩,
    fun i hi => ?_, fun e he _ => ?_, fun i hi _ hr => ?_, fun i _ hf => ?_⟩
  · show ((List.range depth).map chainEntry).Pairwise _
    rw [pairwise_map]
    exact pairwise_lt_range.imp fun hjk hkey => hjk.ne (chainDir_inj hkey.1)
  · obtain ⟨k, hk, rfl⟩ := mem_chain.1 he
    refine ⟨?_, hdir _⟩
    cases k with
    | zero => exact hroot
    | succ k => exact hlive k (Nat.lt_of_succ_lt hk)
  · obtain ⟨k, hk, rfl⟩ := mem_chain.1 he
    exact ⟨hlive k hk, show k + 11 ≠ 2 by omega⟩
  · by_contra hl
    have hused : (chainVolume depth).used i = true := by
      have hor : i = SFS_ROOT_INO ∨ 11 ≤ i ∧ i < depth + 11 := by
        by_contra hno
        exact hl (if_neg hno)
      rcases hor with rfl | hlt
      · exact hroot.1
      · exact decide_eq_true hlt.2
    rw [hused] at hi
    cases hi
  · obtain ⟨k, hk, rfl⟩ := mem_chain.1 he
    cases k with
    | zero => rfl
    | succ k =>
      show (if k + 1 + 11 ≤ 11 then SFS_ROOT_INO else k + 11) = k + 11
      rw [if_neg (by omega)]
  · obtain rfl | ⟨k, hk, rfl⟩ := chainVolume_live.1 hi
    · exact absurd rfl hr
    · exact chainVolume_named hk
  · rw [hdir] at hf
    cases hf

theorem chainVolume_rooted (depth : Nat) : AllRooted (chainVolume depth).toNs := by
  intro d hl _
  have hchain : ∀ k, Rooted (chainVolume depth).dotdot SFS_ROOT_INO (chainIno k) := by
    intro k
    induction k with
    | zero => exact ⟨1, rfl⟩
    | succ k ih =>
      refine Rooted.down ?_
      exact ih
  obtain rfl | ⟨k, -, rfl⟩ := chainVolume_live.1 hl
  · exact rooted_root
  · exact hchain k

/-- A directory moves up to the root. -/
theorem run_isTree_up : IsTree (run (chainVolume 2)
    [(noFaults, .rename (chainIno 0) [97] SFS_ROOT_INO [98] false)]).toNs := by
  have hok : NoDeepMove (chainVolume 2)
      [(noFaults, .rename (chainIno 0) [97] SFS_ROOT_INO [98] false)] := by
    refine ⟨?_, trivial⟩
    rintro ⟨src, nd, ⟨od, oname, nname, replace, e, hc, he, hsrc, -, -⟩, k, -, hk⟩
    cases hc
    rw [Function.iterate_fixed rfl] at hk
    exact ((chainVolume_wf 2).inos e (entry_mem he).1).2 (hsrc.trans hk.symm)
  exact (run_isTree _ (chainVolume_wf 2) (chainVolume_rooted 2) hok).resolve_left (by decide)

theorem Chain.eq_root (h : n.entries.all (fun e => e.dir != SFS_ROOT_INO) = true) {l : List Entry}
    (hc : Chain n l d) : d = SFS_ROOT_INO := by
  induction hc with
  | root => rfl
  | @step l e _ he ih =>
    have hne := all_eq_true.1 h e he
    rw [ih] at hne
    exact absurd hne (by decide)

theorem not_isTree_of_rootless (hl : n.Live d) (hd : n.isDir d = true) (hr : d ≠ SFS_ROOT_INO)
    (h : n.entries.all (fun e => e.dir != SFS_ROOT_INO) = true) : ¬IsTree n := by
  intro htree
  obtain ⟨l, hc, -⟩ := htree.chain d hl hd
  exact hr (hc.eq_root h)

def cycled : Fs := run (chainVolume 4098) [(noFaults, .rename SFS_ROOT_INO [97] (chainIno 4097) [98] false)]

theorem cycled_spec : ¬cycled.dead = true ∧ cycled.toNs.used (chainIno 0) = true ∧
    cycled.toNs.links (chainIno 0) ≠ 0 ∧ cycled.toNs.isDir (chainIno 0) = true ∧
      cycled.toNs.entries.all (fun e => e.dir != SFS_ROOT_INO) = true := by
  decide +kernel

/-- The cycle is well formed. -/
theorem run_wf_cycled : cycled.Wf :=
  (run_wf [(noFaults, .rename SFS_ROOT_INO [97] (chainIno 4097) [98] false)] (chainVolume_wf 4098)).resolve_left
    cycled_spec.1

/-- The first of 4098 nested directories moves into the last one: the walk stops
one step before it would meet it, and the root is left without entries. -/
theorem run_rename_cycle : ¬∀ (s : Fs) (calls : List (Env × Call)), s.Wf → AllRooted s.toNs →
    (run s calls).dead = true ∨ IsTree (run s calls).toNs := by
  intro h
  obtain ⟨hd, hused, hlinks, hdir, hall⟩ := cycled_spec
  rcases h (chainVolume 4098) [(noFaults, .rename SFS_ROOT_INO [97] (chainIno 4097) [98] false)]
    (chainVolume_wf _) (chainVolume_rooted _) with hdead | htree
  · exact hd hdead
  · exact not_isTree_of_rootless (d := chainIno 0) ⟨hused, hlinks⟩ hdir (by decide +kernel) hall htree

end Win98Modern.Libsfs
