import Mathlib.Logic.Function.Iterate
import Mathlib.Order.Nat
import Win98Modern.Libsfs.Namespace

/-!
# What a call does to the namespace

`Outcome` says once what a call may do to the inode table and the directories
when it does not abort the volume; `step_outcome` proves it of every call.  The
invariants of the namespace are derived from `Outcome` alone.

The argument follows the return code.  `Lands` is what each body must reach: an
aborted volume, a code on which `sfs_op_end` will abort it, or a namespace of
the wanted form.  Once something was changed (`Fs.Later`), a failing access to
blocks that the call has read before always lands.
-/

namespace Win98Modern.Libsfs

open Function Fs Nat

/-! ### Landing -/

/-- `t` comes from `s` by changes of the running transaction, none of them to the
blocks of an inode. -/
structure Fs.Later (s t : Fs) : Prop where
  feat : t.feat = s.feat
  opMods : t.opMods = s.opMods
  mods : s.mods < t.mods
  runs : t.runs = s.runs
  nblocks : t.nblocks = s.nblocks

variable {s t : Fs} {feat : Features} {P : Ns → Prop} {r : Option Err × Fs} {env : Env} {n : Ns}
  {i : Ino}

theorem Fs.Later.trans {u : Fs} (h : s.Later t) (h' : t.Later u) : s.Later u :=
  ⟨h'.feat.trans h.feat, h'.opMods.trans h.opMods, lt_trans h.mods h'.mods, h'.runs.trans h.runs,
    h'.nblocks.trans h.nblocks⟩

/-- The result of a body that leads to an aborted volume or to `P`. -/
def Lands (feat : Features) (P : Ns → Prop) (r : Option Err × Fs) : Prop :=
  r.2.feat = feat ∧
    (r.2.dead = true ∨ (r.1.any Err.aborts = true ∧ r.2.opMods < r.2.mods) ∨ P r.2.toNs)

theorem Lands.mono {Q : Ns → Prop} (h : Lands feat P r) (hpq : ∀ n, P n → Q n) : Lands feat Q r :=
  ⟨h.1, h.2.imp_right (Or.imp_right (hpq _))⟩

theorem lands_done (rc : Option Err) (h : P s.toNs) :
    Lands s.feat P (rc, s) := ⟨rfl, .inr (.inr h)⟩

@[simp] theorem harm_toNs (s : Fs) (h : Harm) : (s.harm h).toNs = s.toNs := by cases h <;> rfl

@[simp] theorem harm_feat (s : Fs) (h : Harm) : (s.harm h).feat = s.feat := by cases h <;> rfl

theorem lands_failed (f : Failure) (h : P s.toNs) : Lands s.feat P (s.failed f) :=
  ⟨harm_feat s f.harm, .inr (.inr (by rw [failed, harm_toNs]; exact h))⟩

theorem lands_late (f : LateFault) (h : s.opMods < s.mods) :
    Lands s.feat P (s.failed f.toFailure) := by
  refine ⟨harm_feat s f.harm, ?_⟩
  rcases f.aborts with ha | hd
  · cases hh : f.harm with
    | clean => exact .inr (.inl ⟨ha, by simpa [failed, harm, hh] using h⟩)
    | wrote =>
      exact .inr (.inl ⟨ha, by simp only [failed, harm, hh]; omega⟩)
    | died => exact .inl (by simp [failed, harm, hh])
  · exact .inl (by simp [failed, harm, hd])

theorem lands_abort {e : Err} (he : e.aborts = true) (h : s.opMods < s.mods) :
    Lands s.feat P (some e, s) := ⟨rfl, .inr (.inl ⟨he, h⟩)⟩

theorem opEnd_lands (h : Lands feat P r) : (opEnd env r).2.feat = feat ∧
      ((opEnd env r).2.dead = true ∨ P (opEnd env r).2.toNs) := by
  obtain ⟨rc, s⟩ := r
  obtain ⟨hf, hd⟩ := h
  simp only at hf hd
  unfold opEnd
  simp only
  split
  · rename_i hdead
    exact ⟨hf, .inl hdead⟩
  rename_i hdead
  split
  · exact ⟨hf, .inl rfl⟩
  rename_i habort
  split
  · exact ⟨hf, .inl rfl⟩
  · refine ⟨hf, .inr ?_⟩
    rcases hd with hd | ⟨ha, hm⟩ | hp
    · exact absurd hd hdead
    · exact absurd ⟨ha, by omega⟩ habort
    · exact hp

/-! ### The parts of a call -/

def Ns.setLinks (n : Ns) (i : Ino) (k : Nat) : Ns := { n with links := update n.links i k }

def Ns.free (n : Ns) (i : Ino) : Ns := { n with used := update n.used i false }

def Ns.addEntry (n : Ns) (e : Entry) : Ns := { n with entries := e :: n.entries }

def Ns.removeEntry (n : Ns) (dir : Ino) (name : Name) : Ns :=
  { n with entries := n.without dir name }

def Ns.setDotdot (n : Ns) (d parent : Ino) : Ns :=
  { n with dotdot := update n.dotdot d parent }

/-- The link count after `dir_link_inc`. -/
def linkInc (nlink : Bool) (n : Nat) : Nat :=
  if n = 1 ∧ nlink = true then n else if n + 1 > LINK_MAX then 1 else n + 1

/-- The link count after `dir_link_dec`. -/
def linkDec (n : Nat) : Nat := if n > 2 then n - 1 else n

theorem setLinks_of_zero (h : n.links i = 0) : n.setLinks i (n.links i - 1) = n := by
  have hpred : n.links i - 1 = n.links i := by omega
  rw [Ns.setLinks, hpred, update_eq_self]

theorem setLinks_later (s : Fs) (i : Ino) (k : Nat) : s.Later (s.setLinks i k) :=
  ⟨rfl, rfl, lt_succ_self _, rfl, rfl⟩

theorem dirLinkInc_spec (s : Fs) (d : Ino) : s.Later (dirLinkInc s d) ∧
    (dirLinkInc s d).toNs = s.toNs.setLinks d (linkInc s.feat.dirNlink (s.links d)) := by
  unfold dirLinkInc linkInc
  split
  · exact ⟨⟨rfl, rfl, lt_succ_self _, rfl, rfl⟩, by simp [Ns.setLinks]⟩
  · split
    · exact ⟨setLinks_later .., rfl⟩
    · exact ⟨setLinks_later .., rfl⟩

theorem dirLinkDec_spec (s : Fs) (d : Ino) : s.Later (dirLinkDec s d) ∧
    (dirLinkDec s d).toNs = s.toNs.setLinks d (linkDec (s.links d)) := by
  unfold dirLinkDec linkDec
  split
  · exact ⟨setLinks_later .., rfl⟩
  · exact ⟨⟨rfl, rfl, lt_succ_self _, rfl, rfl⟩, by simp [Ns.setLinks]⟩

theorem dirAdd_cases (s : Fs) (env : Env) (dir : Ino) (name : Name) (ino : Ino) (type : Nat) :
    (∃ f : Fault, dirAdd s env dir name ino type = (s.reshaped dir env).failed f.toFailure) ∨
    ∃ t ty, dirAdd s env dir name ino type = (none, t) ∧ (s.reshaped dir env).Later t ∧
      t.toNs = s.toNs.addEntry ⟨dir, name, ino, ty⟩ := by
  unfold dirAdd
  cases env.fault .add with
  | some f => exact .inl ⟨f, rfl⟩
  | none => exact .inr ⟨_, _, rfl, ⟨rfl, rfl, lt_succ_self _, rfl, rfl⟩, rfl⟩

theorem dirRemove_cases (s : Fs) (env : Env) (dir : Ino) (name : Name) (expect : Ino) :
    (∃ f : LateFault, dirRemove s env dir name expect = s.failed f.toFailure) ∨
    ((∀ e, s.entry dir name = some e → e.ino ≠ expect) ∧
      dirRemove s env dir name expect = (some .noEnt, s)) ∨
    ∃ t, dirRemove s env dir name expect = (none, t) ∧ s.Later t ∧
      t.toNs = s.toNs.removeEntry dir name := by
  unfold dirRemove
  cases env.late .remove with
  | some f => exact .inl ⟨f, rfl⟩
  | none =>
    cases he : s.entry dir name with
    | none => exact .inr (.inl ⟨by simp, rfl⟩)
    | some e =>
      by_cases hi : e.ino = expect
      · exact .inr (.inr ⟨{ s with entries := s.without dir name, mods := s.mods + 1 },
          by simp [hi], ⟨rfl, rfl, lt_succ_self _, rfl, rfl⟩, rfl⟩)
      · exact .inr (.inl ⟨by simpa using hi, by simp [hi]⟩)

theorem dirSetInode_cases (s : Fs) (env : Env) (dir : Ino) (name : Name) (ino : Ino) (type : Nat)
    {old : Entry} (hold : s.entry dir name = some old) :
    (∃ f : LateFault, dirSetInode s env dir name ino type = s.failed f.toFailure) ∨
    ∃ t ty, dirSetInode s env dir name ino type = (none, t) ∧ s.Later t ∧
      t.toNs = (s.toNs.removeEntry dir name).addEntry ⟨dir, name, ino, ty⟩ := by
  unfold dirSetInode
  cases env.late .setInode with
  | some f => exact .inl ⟨f, rfl⟩
  | none =>
    rw [hold]
    exact .inr ⟨_, _, rfl, ⟨rfl, rfl, lt_succ_self _, rfl, rfl⟩, rfl⟩

theorem dirSetParent_cases (s : Fs) (env : Env) (dir parent : Ino) :
    (∃ f : LateFault, dirSetParent s env dir parent = s.failed f.toFailure) ∨
    ∃ t, dirSetParent s env dir parent = (none, t) ∧ s.Later t ∧
      t.toNs = s.toNs.setDotdot dir parent := by
  unfold dirSetParent
  cases env.late .setParent with
  | some f => exact .inl ⟨f, rfl⟩
  | none => exact .inr ⟨_, rfl, ⟨rfl, rfl, lt_succ_self _, rfl, rfl⟩, rfl⟩

theorem NewKind.isDirMode_mode (k : NewKind) (mode : Nat) :
    isDirMode (k.mode mode) = decide (k = .directory) := by
  cases k with
  | file =>
    have : (0x8000 + mode % 0x1000) / 0x1000 % 16 = 8 := by omega
    simp [isDirMode, NewKind.mode, this]
  | directory =>
    have : (0x4000 + mode % 0x1000) / 0x1000 % 16 = 4 := by omega
    simp [isDirMode, NewKind.mode, this]
  | symlink tlen => exact (by decide : isDirMode 0xA1FF = false)

/-! ### Destroying an inode -/

/-- Releasing the inode never stops at the 32-bit sector count: the first run it
frees brings the block count within the limit. -/
def Releasable (s : Fs) (i : Ino) : Prop :=
  ∀ len rest, s.runs i = len :: rest → blocksFit s.feat (s.nblocks i - len) = true

theorem blocksFit_mono {a b : Nat} (hab : a ≤ b) (h : blocksFit feat b = true) :
    blocksFit feat a = true := by
  simp only [blocksFit, Bool.decide_or, Bool.or_eq_true, decide_eq_true_eq] at h ⊢
  exact h.imp_right (fun h => le_trans (mul_le_mul_right _ hab) h)

theorem releaseRuns_lands (env : Env) (i : Ino) : ∀ (l : List Nat) (k : Nat) {s : Fs},
    s.opMods < s.mods →
      (∃ t, releaseRuns env i k l s = (none, t) ∧ t.feat = s.feat ∧ t.opMods = s.opMods ∧
        s.mods ≤ t.mods ∧ t.toNs = s.toNs) ∨
      ∃ e t, releaseRuns env i k l s = (some e, t) ∧
        Lands s.feat (fun n => n = s.toNs ∧
          ∃ len rest, l = len :: rest ∧ ¬blocksFit s.feat (s.nblocks i - len)) (some e, t) := by
  intro l
  induction l with
  | nil => intro k s _; exact .inl ⟨s, rfl, rfl, rfl, le_rfl, rfl⟩
  | cons len rest ih =>
    intro k s hm
    cases hf : env.late (.release k) with
    | some f => exact .inr ⟨_, _, by simp [releaseRuns, hf, failed], lands_late f hm⟩
    | none =>
      have hrun : releaseRuns env i k (len :: rest) s =
          if blocksFit s.feat (s.nblocks i - len) then
            releaseRuns env i (k + 1) rest
              { s with nblocks := update s.nblocks i (s.nblocks i - len),
                       runs := update s.runs i rest, mods := s.mods + 1 }
          else (some .fBig,
              { s with nblocks := update s.nblocks i (s.nblocks i - len),
                       runs := update s.runs i rest, mods := s.mods + 1 }) := by
        rw [releaseRuns]
        simp only [hf]
      rw [hrun]
      by_cases hfit : blocksFit s.feat (s.nblocks i - len) = true
      · rw [if_pos hfit]
        have hstep := ih (k + 1)
          (s := { s with nblocks := update s.nblocks i (s.nblocks i - len),
                         runs := update s.runs i rest, mods := s.mods + 1 })
          (by simp only; omega)
        rcases hstep with ⟨t, ht, hft, hot, hmt, hns⟩ | ⟨e, t, ht, hl⟩
        · exact .inl ⟨t, ht, hft, hot, by simp only at hmt; omega, hns⟩
        · refine .inr ⟨e, t, ht, hl.mono fun n hn => ?_⟩
          -- below a count that fits every further count fits
          obtain ⟨-, len', rest', -, hnot⟩ := hn
          simp only [update_self] at hnot
          exact absurd (blocksFit_mono (sub_le _ _) hfit) hnot
      · rw [if_neg hfit]
        refine .inr ⟨_, _, rfl, rfl, .inr (.inr ⟨rfl, len, rest, rfl, hfit⟩)⟩

def Ns.destroy (n : Ns) (i : Ino) : Ns := (n.setLinks i 0).free i

theorem freeInode_cases (s : Fs) (f : Option LateFault) (i : Ino) :
    (∃ f' : LateFault, freeInode s f i = s.failed f'.toFailure) ∨
    freeInode s f i = (some .corrupt, s) ∨
    ∃ t, freeInode s f i = (none, t) ∧ s.Later t ∧ t.toNs = s.toNs.free i := by
  unfold freeInode
  split
  · exact .inr (.inl rfl)
  · cases f with
    | some f => exact .inl ⟨f, rfl⟩
    | none =>
      simp only
      split
      · exact .inr (.inl rfl)
      · exact .inr (.inr ⟨_, rfl, ⟨rfl, rfl, lt_succ_self _, rfl, rfl⟩, rfl⟩)

theorem iflush_lands (env : Env) (i : Ino) (hm : s.opMods < s.mods) (h : P s.toNs) :
    Lands s.feat P (iflush s env i) := by
  unfold iflush
  cases env.late .flush with
  | some f => exact lands_late f hm
  | none =>
    simp only
    split
    · exact ⟨rfl, .inr (.inr h)⟩
    · exact lands_done _ h

theorem retire_lands (env : Env) (i : Ino) (dtime : Nat) (hm : s.opMods ≤ s.mods) :
    Lands s.feat (fun n => n = s.toNs.destroy i) (retire s env i dtime) := by
  obtain ⟨u, hu⟩ : ∃ u : Fs, u = { s.setLinks i 0 with dtime := update s.dtime i dtime } :=
    ⟨_, rfl⟩
  have hfeat : u.feat = s.feat := by rw [hu]; rfl
  have hns : u.toNs = s.toNs.setLinks i 0 := by rw [hu]; rfl
  have hmods : u.opMods < u.mods := by rw [hu]; exact lt_succ_of_le hm
  unfold retire
  rw [← hu]
  rcases freeInode_cases u (env.late .free) i with ⟨f, hf⟩ | hf | ⟨t, hf, hl, ht⟩
  · simp only [hf, failed]
    rw [← hfeat]
    exact lands_late f hmods
  · simp only [hf]
    rw [← hfeat]
    exact lands_abort rfl hmods
  · simp only [hf]
    rw [← hfeat, ← hl.feat]
    refine iflush_lands env i ?_ ?_
    · rw [hl.opMods]; exact lt_trans hmods hl.mods
    · rw [ht, hns, Ns.destroy]

theorem destroyInode_lands (env : Env) (i : Ino) (hm : s.opMods ≤ s.mods) :
    Lands s.feat (fun n => n = s.toNs.destroy i ∨ (n = s.toNs ∧ ¬Releasable s i))
      (destroyInode s env i) := by
  unfold destroyInode releaseAll
  have hrel := releaseRuns_lands env i ((orphanAdd s i).runs i) 0 (s := orphanAdd s i) (lt_succ_of_le hm)
  rcases hrel with ⟨t, ht, hft, hot, hmt, hns⟩ | ⟨e, t, ht, hl⟩
  · rw [ht]
    have hret := retire_lands (s := orphanDel { t with mods := t.mods + 1 } i) env i
      (if env.now ≠ 0 then env.now else 1) (by
        simp only [orphanDel]
        have : s.mods + 1 ≤ t.mods := hmt
        have : t.opMods = s.opMods := hot
        omega)
    have hfeat : (orphanDel { t with mods := t.mods + 1 } i).feat = s.feat := hft
    have hto : (orphanDel { t with mods := t.mods + 1 } i).toNs = s.toNs := hns
    rw [hfeat] at hret
    exact hret.mono fun n hn => .inl (by rw [hn, hto])
  · rw [ht]
    refine hl.mono fun n hn => .inr ⟨hn.1, fun hr => ?_⟩
    obtain ⟨-, len, rest, hlen, hnot⟩ := hn
    exact hnot (hr len rest hlen)

/-- The undo of a creation frees the new inode, which holds at most its first block. -/
theorem undoCreate_lands (env : Env) (i : Ino) (rc : Err) (hm : s.opMods < s.mods)
    (hruns : s.runs i = [] ∨ s.runs i = [1] ∧ s.nblocks i = 1) :
    Lands s.feat (fun n => n = s.toNs.destroy i) (undoCreate s env i rc) := by
  unfold undoCreate releaseAll
  rcases releaseRuns_lands env i (s.runs i) 0 hm with
    ⟨t, ht, hft, hot, hmt, hns⟩ | ⟨e, t, ht, hl⟩
  · rw [ht]
    simp only
    obtain ⟨v, hv⟩ : ∃ v : Fs, v = { t with mods := t.mods + 1 } := ⟨_, rfl⟩
    have hvfeat : v.feat = s.feat := by rw [hv, ← hft]
    have hvns : v.toNs = s.toNs := by rw [hv, ← hns]
    have hret := retire_lands (s := v) env i (env.now ||| 1) (by rw [hv]; simp only; omega)
    rw [← hv, ← hvfeat, ← hvns]
    split
    · rename_i e u hu
      rwa [hu] at hret
    · rename_i u hu
      rw [hu] at hret
      obtain ⟨hf, hd | ⟨ha, -⟩ | hp⟩ := hret
      · exact ⟨hf, .inl hd⟩
      · simp at ha
      · exact ⟨hf, .inr (.inr hp)⟩
  · rw [ht]
    obtain ⟨hf, hd | ⟨ha, hmt⟩ | ⟨-, len, rest, hlen, hnot⟩⟩ := hl
    · exact ⟨hf, .inl hd⟩
    · exact ⟨hf, .inr (.inl ⟨ha, by simp only [setLinks] at hmt ⊢; omega⟩)⟩
    · exfalso
      refine hnot ?_
      rcases hruns with hr | ⟨hr, hn⟩
      · rw [hr] at hlen; simp at hlen
      · rw [hr] at hlen
        obtain ⟨rfl, -⟩ : 1 = len ∧ _ := by simpa using hlen
        simp [blocksFit, hn]

/-! ### Outcomes -/

/-- The same namespace: the inodes in use keep what it depends on. -/
structure Agrees (n m : Ns) : Prop where
  entries : m.entries = n.entries
  used : m.used = n.used
  isDir : ∀ i, n.used i = true → m.isDir i = n.isDir i
  links : ∀ i, n.used i = true → m.links i = n.links i
  dotdot : ∀ i, n.used i = true → m.dotdot i = n.dotdot i
  free : ∀ i, n.used i = false → m.links i = n.links i ∨ m.links i = 0

theorem Agrees.refl (n : Ns) : Agrees n n :=
  ⟨rfl, rfl, fun _ _ => rfl, fun _ _ => rfl, fun _ _ => rfl, fun _ _ => .inl rfl⟩

/-- The inode `sfs_alloc_inode` and `sfs_iget_new` set up. -/
def Ns.newInode (n : Ns) (i : Ino) (mode : Nat) : Ns :=
  { n with mode := update n.mode i mode, links := update n.links i 1,
           used := update n.used i true }

def Ns.created (n : Ns) (nlink : Bool) (i d : Ino) (k : NewKind) (mode : Nat) (e : Entry) : Ns :=
  if k = .directory then
    let m := (((n.newInode i mode).setLinks i 2).setDotdot i d).addEntry e
    m.setLinks d (linkInc nlink (m.links d))
  else (n.newInode i mode).addEntry e

/-- The `..` entry and the link counts after a directory has moved to another. -/
def Ns.reparent (n : Ns) (nlink : Bool) (od nd src : Ino) (grows : Bool) : Ns :=
  if n.isDir src ∧ od ≠ nd then
    let m := (n.setDotdot src nd).setLinks od (linkDec (n.links od))
    if grows then m.setLinks nd (linkInc nlink (m.links nd)) else m
  else n

/-- The link counts after an entry has been taken from the inode `t`. -/
def Ns.dropTarget (n : Ns) (od nd src t : Ino) : Ns :=
  if n.isDir t then
    let m := n.setLinks t 0
    if od = nd ∨ ¬n.isDir src then m.setLinks nd (linkDec (m.links nd)) else m
  else n.setLinks t (n.links t - 1)

/-- An inode is destroyed if it has no links left, unless its release stops. -/
def Ends (rel : Ino → Prop) (m : Ns) (i : Ino) (m' : Ns) : Prop :=
  (m.links i ≠ 0 ∧ m' = m) ∨ (m.links i = 0 ∧ (m' = m.destroy i ∨ (m' = m ∧ ¬rel i)))

/-- The walk of `is_ancestor` from `nd` has not met `src`. -/
def NotMet (n : Ns) (src nd : Ino) : Prop :=
  n.dotdot SFS_ROOT_INO = SFS_ROOT_INO → ∀ k ≤ 4096, n.dotdot^[k] nd ≠ src

/-- What a call that does not abort the volume does to the namespace. -/
inductive Outcome (feat : Features) (rel : Ino → Prop) (n : Ns) : Call → Ns → Prop
  | agrees {c : Call} {m : Ns} : Agrees n m → Outcome feat rel n c m
  | create {c : Call} (i d : Ino) (name : Name) (k : NewKind) (mode ty : Nat) :
      n.used i = false → feat.firstIno ≤ i → n.isDir d = true → n.links d ≠ 0 →
      n.entry d name = none →
      (k = .directory → feat.dirNlink = false → n.links d < LINK_MAX ∧ n.links d ≠ 1) →
      Outcome feat rel n c (n.created feat.dirNlink i d k (k.mode mode) ⟨d, name, i, ty⟩)
  | unlink (d : Ino) (name : Name) (e : Entry) {m : Ns} :
      n.entry d name = some e → n.isDir e.ino = false →
      Ends rel ((n.removeEntry d name).setLinks e.ino (n.links e.ino - 1)) e.ino m →
      Outcome feat rel n (.unlink d name) m
  | rmdir (d : Ino) (name : Name) (e : Entry) {m : Ns} :
      n.entry d name = some e → n.isDir e.ino = true → e.ino ≠ SFS_ROOT_INO →
      n.dirIsEmpty e.ino = true →
      Ends rel (((n.removeEntry d name).setLinks d (linkDec (n.links d))).setLinks e.ino 0) e.ino m →
      Outcome feat rel n (.rmdir d name) m
  | move (od : Ino) (oname : Name) (nd : Ino) (nname : Name) (replace : Bool) (e : Entry)
      (ty : Nat) :
      n.entry od oname = some e → n.isDir nd = true → n.links nd ≠ 0 → n.entry nd nname = none →
      (n.isDir e.ino = true → od ≠ nd → NotMet n e.ino nd ∧
        (feat.dirNlink = false → n.links nd < LINK_MAX)) →
      Outcome feat rel n (.rename od oname nd nname replace)
        (((n.addEntry ⟨nd, nname, e.ino, ty⟩).removeEntry od oname).reparent feat.dirNlink od nd
          e.ino true)
  | replace (od : Ino) (oname : Name) (nd : Ino) (nname : Name) (e t : Entry) (ty : Nat) {m : Ns} :
      n.entry od oname = some e → n.isDir nd = true → n.links nd ≠ 0 → n.entry nd nname = some t →
      t.ino ≠ e.ino → (n.isDir e.ino = true → od ≠ nd → NotMet n e.ino nd) →
      n.isDir t.ino = n.isDir e.ino → (n.isDir t.ino = true → n.dirIsEmpty t.ino = true) →
      Ends rel (((((n.removeEntry nd nname).addEntry ⟨nd, nname, e.ino, ty⟩).removeEntry od
        oname).reparent feat.dirNlink od nd e.ino false).dropTarget od nd e.ino t.ino) t.ino m →
      Outcome feat rel n (.rename od oname nd nname true) m

/-! ### Creation -/

/-- A new inode that is gone again. -/
theorem agrees_undone {m : Ns} (hfree : n.used i = false) (he : m.entries = n.entries)
    (hu : m.used = update n.used i true) (hmode : ∀ j, j ≠ i → m.mode j = n.mode j)
    (hlinks : ∀ j, j ≠ i → m.links j = n.links j) (hdot : ∀ j, j ≠ i → m.dotdot j = n.dotdot j) :
    Agrees n (m.destroy i) := by
  have hne : ∀ j, n.used j = true → j ≠ i := by
    rintro j hj rfl
    rw [hfree] at hj
    cases hj
  refine ⟨he, ?_, fun j hj => ?_, fun j hj => ?_, fun j hj => hdot j (hne j hj), fun j _ => ?_⟩
  · show update m.used i false = n.used
    rw [hu, update_idem, ← hfree, update_eq_self]
  · show isDirMode (m.mode j) = isDirMode (n.mode j)
    rw [hmode j (hne j hj)]
  · show update m.links i 0 j = n.links j
    rw [update_of_ne (hne j hj), hlinks j (hne j hj)]
  · show update m.links i 0 j = n.links j ∨ update m.links i 0 j = 0
    by_cases hj : j = i
    · subst hj
      exact .inr (update_self ..)
    · rw [update_of_ne hj]
      exact .inl (hlinks j hj)

/-- The state of a new inode after `fillNew`, whether it went through or not. -/
structure Filled (s t : Fs) (i : Ino) : Prop where
  feat : t.feat = s.feat
  mods : t.opMods = s.opMods ∧ s.mods ≤ t.mods
  entries : t.entries = s.entries
  used : t.used = s.used
  mode : t.mode = s.mode
  links : ∀ j, j ≠ i → t.links j = s.links j
  dotdot : ∀ j, j ≠ i → t.dotdot j = s.dotdot j
  runs : t.runs i = [] ∨ t.runs i = [1] ∧ t.nblocks i = 1

theorem Filled.harm (h : Filled s t i) (x : Harm) : Filled s (t.harm x) i := by
  obtain ⟨h1, ⟨h2, h3⟩, h4, h5, h6, h7, h8, h9⟩ := h
  cases x with
  | clean => exact ⟨h1, ⟨h2, h3⟩, h4, h5, h6, h7, h8, h9⟩
  | wrote => exact ⟨h1, ⟨h2, le_succ_of_le h3⟩, h4, h5, h6, h7, h8, h9⟩
  | died => exact ⟨h1, ⟨h2, le_succ_of_le h3⟩, h4, h5, h6, h7, h8, h9⟩

theorem fillNew_spec (env : Env) {d : Ino} (k : NewKind) (hruns : s.runs i = []) :
    Filled s (fillNew s env i d k).2 i ∧ ((fillNew s env i d k).1 = none →
      (fillNew s env i d k).2.toNs =
        if k = .directory then (s.toNs.setLinks i 2).setDotdot i d else s.toNs) := by
  have hself : Filled s s i :=
    ⟨rfl, ⟨rfl, le_rfl⟩, rfl, rfl, rfl, fun _ _ => rfl, fun _ _ => rfl, .inl hruns⟩
  have hmapped : ∀ {t : Fs}, Filled s t i → Filled s (t.mapFirst i) i := by
    rintro t ⟨h1, ⟨h2, h3⟩, h4, h5, h6, h7, h8, -⟩
    exact ⟨h1, ⟨h2, le_succ_of_le h3⟩, h4, h5, h6, h7, h8,
      .inr ⟨by simp [mapFirst], by simp [mapFirst]⟩⟩
  cases k with
  | file => exact ⟨hself, fun _ => rfl⟩
  | directory =>
    have hlinks : Filled s (s.setLinks i 2) i :=
      ⟨rfl, ⟨rfl, le_succ _⟩, rfl, rfl, rfl,
        fun j hj => by simp [setLinks, update_of_ne hj], fun _ _ => rfl, .inl hruns⟩
    simp only [fillNew]
    cases env.fault .init with
    | some f =>
      refine ⟨Filled.harm ?_ _, by simp [failed]⟩
      split
      · exact hmapped hlinks
      · exact hlinks
    | none =>
      obtain ⟨h1, h2, h4, h5, h6, h7, h8, h9⟩ := hmapped hlinks
      exact ⟨⟨h1, h2, h4, h5, h6, h7,
        fun j hj => (update_of_ne hj _ _).trans (h8 j hj), h9⟩,
        fun _ => rfl⟩
  | symlink tlen =>
    simp only [fillNew]
    split
    · exact ⟨hself, fun _ => rfl⟩
    · cases env.fault .init with
      | some f =>
        refine ⟨Filled.harm ?_ _, by simp [failed]⟩
        split
        · exact hmapped hself
        · exact hself
      | none => exact ⟨hmapped hself, fun _ => rfl⟩

section Bodies

variable {s : Fs} {env : Env} {rel : Ino → Prop} {c : Call}

variable {n : Ns} {d i od sino nd : Ino} {name oname : Name} {k : NewKind} {mode : Nat}
  {f : Option Fault} {e : Entry}

theorem createNew_lands {u : Fs} (hu : u.toNs = n.newInode i (k.mode mode)) (hruns : u.runs i = [])
    (hm : u.opMods < u.mods) (hfree : n.used i = false) (hfirst : u.feat.firstIno ≤ i)
    (hused : n.used d = true) (hd : n.isDir d = true) (hlinks : n.links d ≠ 0)
    (hname : n.entry d name = none)
    (hguard : k = .directory → u.feat.dirNlink = false → n.links d < LINK_MAX ∧ n.links d ≠ 1) :
    Lands u.feat (Outcome u.feat rel n c) (createNew u env d name k mode i) := by
  have hdi : d ≠ i := by rintro rfl; rw [hfree] at hused; cases hused
  obtain ⟨hfill, hok⟩ := fillNew_spec env (d := d) k hruns
  unfold createNew
  cases hf : fillNew u env i d k with
  | mk rc t =>
  rw [hf] at hfill hok
  -- whatever the new inode holds, undoing leaves the namespace as it was
  have hundo : ∀ {v : Fs} (e : Err), Filled u v i →
      Lands u.feat (Outcome u.feat rel n c) (undoCreate v env i e) := by
    intro v e hv
    have hl := undoCreate_lands env i e (by have := hv.mods; omega) hv.runs
    rw [hv.feat] at hl
    refine hl.mono fun m hm => ?_
    subst hm
    refine .agrees (agrees_undone hfree ?_ ?_ ?_ ?_ ?_)
    · rw [hv.entries, hu]; rfl
    · rw [hv.used, hu]; rfl
    · intro j hj
      rw [hv.mode, hu]
      exact update_of_ne hj _ _
    · intro j hj
      rw [hv.links j hj, hu]
      exact update_of_ne hj _ _
    · intro j hj
      rw [hv.dotdot j hj, hu]
      rfl
  cases rc with
  | some e => exact hundo e hfill
  | none =>
    have hns := hok rfl
    simp only
    rcases dirAdd_cases t env d name i (modeToFt (k.mode mode)) with ⟨f, hadd⟩ | ⟨v, ty, hadd, hl, hv⟩
    · rw [hadd, failed]
      refine hundo f.err (Filled.harm ?_ f.harm)
      refine ⟨hfill.feat, hfill.mods, hfill.entries, hfill.used, hfill.mode, hfill.links,
        hfill.dotdot, ?_⟩
      simpa [reshaped, update_of_ne hdi.symm] using hfill.runs
    · rw [hadd]
      simp only
      have hfeat : v.feat = u.feat := hl.feat.trans hfill.feat
      by_cases hk : k = .directory
      · rw [if_pos hk]
        obtain ⟨hinc, hincns⟩ := dirLinkInc_spec v d
        refine ⟨hinc.feat.trans hfeat, .inr (.inr ?_)⟩
        have hout : Outcome u.feat rel n c _ :=
          .create i d name k mode ty hfree hfirst hd hlinks hname hguard
        have : (dirLinkInc v d).toNs = n.created u.feat.dirNlink i d k (k.mode mode)
            ⟨d, name, i, ty⟩ := by
          rw [hincns, hv, hns, if_pos hk, hu, Ns.created, if_pos hk, hfeat]
        rwa [this]
      · rw [if_neg hk]
        refine ⟨hfeat, .inr (.inr ?_)⟩
        have hout : Outcome u.feat rel n c _ :=
          .create i d name k mode ty hfree hfirst hd hlinks hname hguard
        have : v.toNs = n.created u.feat.dirNlink i d k (k.mode mode) ⟨d, name, i, ty⟩ := by
          rw [hv, hns, if_neg hk, hu, Ns.created, if_neg hk]
        rwa [this]

theorem getDir_none (h : getDir s d f = none) : s.isDir d = true ∧ s.links d ≠ 0 := by
  unfold getDir at h
  split at h
  · cases h
  · split at h
    · cases h
    · rename_i hd
      split at h
      · cases h
      · rename_i hl
        exact ⟨by simpa using hd, hl⟩

theorem dirLookup_ok {r : Option Ino} (h : dirLookup s d name f = .ok r) :
    r = (s.entry d name).map Entry.ino := by
  unfold dirLookup at h
  cases f with
  | some f => cases h
  | none => simpa using h.symm

theorem lookup_none (h : dirLookup s d name f = .ok none) : s.entry d name = none := by
  have := dirLookup_ok h
  simpa using this.symm

theorem lookup_some (h : dirLookup s d name f = .ok (some i)) :
    ∃ e, s.entry d name = some e ∧ e.ino = i := by
  have := dirLookup_ok h
  simpa using this.symm

/-- Freeing the inode just allocated gives the namespace back. -/
theorem freeInode_undoes {v : Fs} (hvalid : inoValid s i = true) (hfirst : s.feat.firstIno ≤ i)
    (hfree : s.used i = false) (hfeat : v.feat = s.feat)
    (hns : v.toNs = { s.toNs with used := update s.used i true }) :
    (freeInode v none i).2.feat = s.feat ∧ (freeInode v none i).2.toNs = s.toNs := by
  have hvalid' : inoValid v i = true := by unfold inoValid at hvalid ⊢; rwa [hfeat]
  have hused : v.used = update s.used i true := by rw [hns]
  unfold freeInode
  rw [if_neg (by simp [hvalid', hfeat, hfirst]), hused]
  simp only [update_self, not_true_eq_false, if_false, update_idem]
  refine ⟨hfeat, ?_⟩
  rw [hns, ← hfree, update_eq_self]

theorem createBody_lands (hm : s.opMods ≤ s.mods)
    (hroot : ∀ i, s.isDir i = true → s.links i ≠ 0 → s.used i = true) :
    Lands s.feat (Outcome s.feat rel s.toNs c) (createBody s env d name k mode) := by
  unfold createBody
  split
  · exact lands_failed _ (.agrees (.refl _))
  rename_i hget
  obtain ⟨hd, hlinks⟩ := getDir_none hget
  split
  · exact lands_failed _ (.agrees (.refl _))
  · exact lands_done _ (.agrees (.refl _))
  rename_i hlook
  have hname := lookup_none hlook
  split
  · exact lands_done _ (.agrees (.refl _))
  rename_i hguard
  have hguard' : k = .directory → s.feat.dirNlink = false → s.links d < LINK_MAX ∧ s.links d ≠ 1 := by
    intro hk hn
    have hg : linkGuard s d = false := by
      rw [not_and] at hguard
      simpa using hguard hk
    simp only [linkGuard, hn] at hg
    simp at hg
    omega
  cases ha : allocInode s env with
  | mk r t =>
  unfold allocInode at ha
  split at ha
  · rename_i f hf
    obtain ⟨rfl, rfl⟩ := Prod.mk.inj ha
    exact lands_failed f.toFailure (.agrees (.refl _))
  · split at ha
    · rename_i hpick
      obtain ⟨rfl, rfl⟩ := Prod.mk.inj ha
      simp only
      obtain ⟨hvalid, hfirst, hfree⟩ := hpick
      rw [Bool.not_eq_true] at hfree
      split
      · rename_i f hf
        obtain ⟨hfeat, hns⟩ := freeInode_undoes (v := { s with
          used := update s.used env.pick true, mods := s.mods + 1 }.harm f.harm) hvalid
          hfirst hfree (by simp) (by simp)
        exact ⟨hfeat, .inr (.inr (by rw [hns]; exact .agrees (.refl _)))⟩
      · exact createNew_lands rfl (by simp [newInode]) (by simp only [newInode]; omega) hfree
          hfirst (hroot d hd hlinks) hd hlinks hname hguard'
    · obtain ⟨rfl, rfl⟩ := Prod.mk.inj ha
      exact lands_done _ (.agrees (.refl _))

/-! ### Removal -/

theorem ends_lands {t : Fs} (hm : t.opMods ≤ t.mods) : Lands t.feat (Ends (Releasable t) t.toNs i)
      (if t.links i = 0 then destroyInode t env i else (none, t)) := by
  split
  · rename_i h
    exact (destroyInode_lands env i hm).mono fun n hn => .inr ⟨h, hn⟩
  · rename_i h
    exact lands_done _ (.inl ⟨h, rfl⟩)

theorem releasable_later {t : Fs} (h : s.Later t) : Releasable t = Releasable s := by
  unfold Releasable
  rw [h.runs, h.nblocks, h.feat]

theorem unlinkBody_lands (hm : s.opMods ≤ s.mods) :
    Lands s.feat (Outcome s.feat (Releasable s) s.toNs (.unlink d name)) (unlinkBody s env d name) := by
  unfold unlinkBody
  split
  · exact lands_failed _ (.agrees (.refl _))
  split
  · exact lands_failed _ (.agrees (.refl _))
  · exact lands_done _ (.agrees (.refl _))
  rename_i i hlook
  obtain ⟨e, he, rfl⟩ := lookup_some hlook
  split
  · exact lands_failed _ (.agrees (.refl _))
  split
  · exact lands_done _ (.agrees (.refl _))
  rename_i hfile
  split
  · exact lands_done _ (.agrees (.refl _))
  rcases dirRemove_cases s env d name e.ino with ⟨f, hr⟩ | ⟨-, hr⟩ | ⟨t, hr, hl, ht⟩
  · rw [hr]
    exact lands_failed _ (.agrees (.refl _))
  · rw [hr]
    exact lands_done _ (.agrees (.refl _))
  · rw [hr]
    simp only
    obtain ⟨u, hu⟩ : ∃ u, u = if t.links e.ino ≠ 0 then t.setLinks e.ino (t.links e.ino - 1) else t :=
      ⟨_, rfl⟩
    have hlinks : t.links = s.links := by rw [ht]; rfl
    have huns : u.toNs = (s.toNs.removeEntry d name).setLinks e.ino (s.links e.ino - 1) := by
      rw [hu]
      split
      · show Ns.setLinks t.toNs _ _ = _
        rw [ht]
        rfl
      · rename_i h0
        rw [not_not, hlinks] at h0
        rw [ht]
        exact (setLinks_of_zero (n := s.toNs.removeEntry d name) h0).symm
    have hul : s.Later u := by
      rw [hu]
      split
      · exact hl.trans (setLinks_later ..)
      · exact hl
    rw [← hu, ← hul.feat]
    refine (ends_lands (by have := hul.opMods; have := hul.mods; omega)).mono fun n hn => ?_
    rw [releasable_later hul, huns] at hn
    exact .unlink d name e he (by simpa using hfile) hn

theorem rmdirBody_lands (hm : s.opMods ≤ s.mods) :
    Lands s.feat (Outcome s.feat (Releasable s) s.toNs (.rmdir d name)) (rmdirBody s env d name) := by
  unfold rmdirBody
  split
  · exact lands_failed _ (.agrees (.refl _))
  split
  · exact lands_failed _ (.agrees (.refl _))
  · exact lands_done _ (.agrees (.refl _))
  rename_i i hlook
  obtain ⟨e, he, rfl⟩ := lookup_some hlook
  split
  · exact lands_failed _ (.agrees (.refl _))
  split
  · exact lands_done _ (.agrees (.refl _))
  rename_i hdir
  split
  · exact lands_done _ (.agrees (.refl _))
  rename_i hroot
  split
  · exact lands_failed _ (.agrees (.refl _))
  split
  · exact lands_done _ (.agrees (.refl _))
  rename_i hempty
  rcases dirRemove_cases s env d name e.ino with ⟨f, hr⟩ | ⟨-, hr⟩ | ⟨t, hr, hl, ht⟩
  · rw [hr]
    exact lands_failed _ (.agrees (.refl _))
  · rw [hr]
    exact lands_done _ (.agrees (.refl _))
  · rw [hr]
    obtain ⟨hdl, hdns⟩ := dirLinkDec_spec t d
    have hul := (hl.trans hdl).trans (setLinks_later (dirLinkDec t d) e.ino 0)
    have huns : ((dirLinkDec t d).setLinks e.ino 0).toNs =
        ((s.toNs.removeEntry d name).setLinks d (linkDec (s.links d))).setLinks e.ino 0 := by
      show Ns.setLinks (dirLinkDec t d).toNs _ _ = _
      rw [hdns, ht]
      rfl
    rw [← hul.feat]
    have hdes := destroyInode_lands (s := (dirLinkDec t d).setLinks e.ino 0) env e.ino
      (by have := hul.opMods; have := hul.mods; omega)
    refine hdes.mono fun n hn => ?_
    rw [releasable_later hul, huns] at hn
    refine .rmdir d name e he (by simpa using hdir) hroot (by simpa using hempty) (.inr ⟨?_, hn⟩)
    simp [Ns.setLinks]

/-! ### Rename -/

theorem reparent_cases (s : Fs) (env : Env) (od nd src : Ino) (grows : Bool) :
    (∃ f : LateFault, reparent s env od nd src grows = s.failed f.toFailure) ∨
    ∃ t, reparent s env od nd src grows = (none, t) ∧ (t = s ∨ s.Later t) ∧
      t.toNs = s.toNs.reparent s.feat.dirNlink od nd src grows := by
  unfold reparent Ns.reparent
  by_cases hmoves : s.isDir src ∧ od ≠ nd
  · rw [if_pos hmoves, if_pos hmoves]
    rcases dirSetParent_cases s env src nd with ⟨f, hf⟩ | ⟨t, ht, hl, hns⟩
    · exact .inl ⟨f, by rw [hf]; rfl⟩
    · rw [ht]
      obtain ⟨hdl, hdns⟩ := dirLinkDec_spec t od
      have hdns' : (dirLinkDec t od).toNs =
          (s.toNs.setDotdot src nd).setLinks od (linkDec (s.links od)) := by
        rw [hdns, hns]
        rfl
      cases grows with
      | false => exact .inr ⟨_, rfl, .inr (hl.trans hdl), hdns'⟩
      | true =>
        obtain ⟨hil, hins⟩ := dirLinkInc_spec (dirLinkDec t od) nd
        refine .inr ⟨_, rfl, .inr ((hl.trans hdl).trans hil), ?_⟩
        simp only [if_true]
        rw [hins, hdns', (hl.trans hdl).feat]
  · rw [if_neg hmoves, if_neg hmoves]
    exact .inr ⟨s, rfl, .inl rfl, rfl⟩

theorem dropTarget_spec (s : Fs) (od nd src t : Ino) :
    (dropTarget s od nd src t = s ∨ s.Later (dropTarget s od nd src t)) ∧
      (dropTarget s od nd src t).toNs = s.toNs.dropTarget od nd src t := by
  unfold dropTarget Ns.dropTarget
  by_cases hdir : s.isDir t = true
  · rw [if_pos hdir, if_pos hdir]
    have hl := setLinks_later s t 0
    have hsame : (s.setLinks t 0).isDir src = s.isDir src := rfl
    simp only [hsame]
    by_cases hdec : od = nd ∨ ¬s.isDir src = true
    · rw [if_pos hdec, if_pos hdec]
      obtain ⟨hdl, hdns⟩ := dirLinkDec_spec (s.setLinks t 0) nd
      exact ⟨.inr (hl.trans hdl), hdns⟩
    · rw [if_neg hdec, if_neg hdec]
      exact ⟨.inr hl, rfl⟩
  · rw [if_neg hdir, if_neg hdir]
    split
    · exact ⟨.inr (setLinks_later ..), rfl⟩
    · rename_i h0
      rw [not_not] at h0
      exact ⟨.inl rfl, (setLinks_of_zero h0).symm⟩

theorem renameTail_lands (env : Env) (nd : Ino) (tgt : Option Ino) (hm : s.opMods < s.mods)
    (he : s.entry od oname = some e) (hi : e.ino = sino) : Lands s.feat (fun m => match tgt with
      | none => m = (s.toNs.removeEntry od oname).reparent s.feat.dirNlink od nd sino true
      | some t => Ends (Releasable s)
          (((s.toNs.removeEntry od oname).reparent s.feat.dirNlink od nd sino false).dropTarget od nd
            sino t) t m)
      (renameTail s env od oname nd sino tgt) := by
  unfold renameTail
  rcases dirRemove_cases s env od oname sino with ⟨f, hr⟩ | ⟨hno, -⟩ | ⟨u, hr, hl, hu⟩
  · rw [hr]
    exact lands_late f hm
  · exact absurd hi (hno e he)
  rw [hr]
  simp only
  have hmu : u.opMods < u.mods := by have := hl.opMods; have := hl.mods; omega
  rcases reparent_cases u env od nd sino (tgt = none) with ⟨f, hp⟩ | ⟨v, hp, hv, hvns⟩
  · rw [hp, ← hl.feat]
    exact lands_late f hmu
  rw [hp]
  have hlv : s.Later v := by
    rcases hv with rfl | hv
    · exact hl
    · exact hl.trans hv
  rw [hu, hl.feat] at hvns
  cases tgt with
  | none =>
    refine ⟨hlv.feat, .inr (.inr ?_)⟩
    simpa using hvns
  | some t =>
    obtain ⟨hd, hdns⟩ := dropTarget_spec v od nd sino t
    have hlw : s.Later (dropTarget v od nd sino t) := by
      rcases hd with hd | hd
      · rw [hd]; exact hlv
      · exact hlv.trans hd
    rw [← hlw.feat]
    refine (ends_lands (by have := hlw.opMods; have := hlw.mods; omega)).mono fun n hn => ?_
    rw [releasable_later hlw, hdns, hvns] at hn
    rw [hlw.feat]
    simpa using hn

theorem isAncestorFrom_false {anc : Ino} (hroot : s.dotdot SFS_ROOT_INO = SFS_ROOT_INO) :
    ∀ {fuel k : Nat} {cur : Ino}, isAncestorFrom s env anc fuel k cur = .ok false →
      ∀ j ≤ fuel, s.dotdot^[j] cur ≠ anc := by
  -- at a fixed point of `..` the walk stands still
  have hfix : ∀ {cur : Ino}, s.dotdot cur = cur → cur ≠ anc → ∀ j, s.dotdot^[j] cur ≠ anc := by
    intro cur hc hne j
    rwa [Function.iterate_fixed hc]
  intro fuel
  induction fuel with
  | zero =>
    intro k cur h j hj
    obtain rfl : j = 0 := by omega
    simpa [isAncestorFrom] using h
  | succ fuel ih =>
    intro k cur h j hj
    rw [isAncestorFrom] at h
    split at h
    · rename_i hcur
      subst hcur
      exact hfix hroot (by simpa using h) j
    split at h
    · simp at h
    rename_i hne
    split at h
    · cases h
    simp only at h
    split at h
    · rename_i hself
      exact hfix hself hne j
    · cases j with
      | zero => exact hne
      | succ j => exact ih h j (by omega)

theorem renameCheck_none (h : renameCheck s env sino od nd = none) (hdir : s.isDir sino = true)
    (hne : od ≠ nd) : NotMet s.toNs sino nd := by
  intro hroot
  unfold renameCheck at h
  rw [if_pos ⟨hdir, hne⟩] at h
  split at h
  · cases h
  · cases h
  · rename_i ha
    exact isAncestorFrom_false hroot ha

theorem targetCheck_none {t : Ino} (h : targetCheck s env sino t = none) :
    s.isDir t = s.isDir sino ∧ (s.isDir t = true → s.dirIsEmpty t = true) := by
  unfold targetCheck at h
  split at h
  · cases h
  split at h
  · rename_i ht
    split at h
    · cases h
    rename_i hs
    split at h
    · cases h
    split at h
    · rename_i he
      exact ⟨by rw [ht, not_not.1 hs], fun _ => he⟩
    · cases h
  · rename_i ht
    split at h
    · cases h
    · rename_i hs
      exact ⟨by rw [Bool.not_eq_true] at ht hs; rw [ht, hs], fun he => absurd he ht⟩

theorem entry_mem (h : n.entry d name = some e) : e ∈ n.entries ∧ e.dir = d ∧ e.name = name := by
  have := List.find?_some h
  exact ⟨List.mem_of_find?_eq_some h, by simpa using this⟩

theorem entry_cons_ne (h : ¬(e.dir = d ∧ e.name = name)) :
    (n.addEntry e).entry d name = n.entry d name := by
  unfold Ns.entry Ns.addEntry
  rw [List.find?_cons_of_neg (by simpa using h)]

theorem entry_without_ne {d' : Ino} {name' : Name} (h : ¬(d' = d ∧ name' = name)) :
    (n.removeEntry d' name').entry d name = n.entry d name := by
  unfold Ns.entry Ns.removeEntry Ns.without
  rw [List.find?_filter]
  congr 1
  funext e
  rw [decide_eq_decide, decide_eq_true_eq, decide_eq_true_eq]
  constructor
  · exact And.right
  · intro he
    exact ⟨fun hk => h ⟨by rw [← hk.1, he.1], by rw [← hk.2, he.2]⟩, he⟩

theorem renameBody_lands {nname : Name} {replace : Bool} (hm : s.opMods ≤ s.mods) :
    Lands s.feat (Outcome s.feat (Releasable s) s.toNs (.rename od oname nd nname replace))
      (renameBody s env od oname nd nname replace) := by
  unfold renameBody
  split
  · exact lands_failed _ (.agrees (.refl _))
  split
  · exact lands_failed _ (.agrees (.refl _))
  rename_i hnd
  obtain ⟨hdir, hlinks⟩ := getDir_none hnd
  split
  · exact lands_failed _ (.agrees (.refl _))
  · exact lands_done _ (.agrees (.refl _))
  rename_i sino hlook
  obtain ⟨e, he, hi⟩ := lookup_some hlook
  split
  · exact lands_failed _ (.agrees (.refl _))
  split
  · exact lands_failed _ (.agrees (.refl _))
  rename_i hcheck
  have hnot : s.isDir e.ino = true → od ≠ nd → NotMet s.toNs e.ino nd := by
    rw [hi]
    exact renameCheck_none hcheck
  split
  · exact lands_failed _ (.agrees (.refl _))
  · rename_i t htlook
    obtain ⟨x, hx, rfl⟩ := lookup_some htlook
    split
    · exact lands_done _ (.agrees (.refl _))
    rename_i hne
    split
    · exact lands_done _ (.agrees (.refl _))
    rename_i hrep
    split
    · exact lands_failed _ (.agrees (.refl _))
    rename_i htgt
    obtain ⟨hsame, hempty⟩ := targetCheck_none htgt
    -- the two names are different entries, since they name different inodes
    have hkey : ¬(nd = od ∧ nname = oname) := by
      rintro ⟨rfl, rfl⟩
      rw [he] at hx
      obtain rfl : e = x := by simpa using hx
      exact hne hi
    rcases dirSetInode_cases s env nd nname sino (modeToFt (s.mode sino)) hx with
      ⟨f, hset⟩ | ⟨u, ty, hset, hl, hu⟩
    · rw [hset]
      exact lands_failed _ (.agrees (.refl _))
    · rw [hset]
      have hue : u.entry od oname = some e := by
        rw [hu, entry_cons_ne (by simpa using hkey), entry_without_ne hkey]
        exact he
      have htail := renameTail_lands env nd (some x.ino)
        (by have := hl.opMods; have := hl.mods; omega) hue hi
      rw [← hl.feat]
      refine htail.mono fun n hn => ?_
      rw [releasable_later hl, hu, hl.feat, ← hi] at hn
      obtain rfl : replace = true := by simpa using hrep
      exact .replace od oname nd nname e x ty he hdir hlinks hx (by rw [hi]; exact hne) hnot
        (by rw [hi]; exact hsame) hempty hn
  · rename_i htlook
    have hfresh := lookup_none htlook
    split
    · exact lands_done _ (.agrees (.refl _))
    rename_i hguard
    have hkey : ¬(nd = od ∧ nname = oname) := by
      rintro ⟨rfl, rfl⟩
      rw [he] at hfresh
      cases hfresh
    rcases dirAdd_cases s env nd nname sino (modeToFt (s.mode sino)) with
      ⟨f, hadd⟩ | ⟨u, ty, hadd, hl, hu⟩
    · rw [hadd]
      exact lands_failed (s := s.reshaped nd env) _ (.agrees (.refl _))
    · rw [hadd]
      have hue : u.entry od oname = some e := by
        rw [hu, entry_cons_ne (by simpa using hkey)]
        exact he
      have hmu : u.opMods < u.mods := by
        have h1 : u.opMods = s.opMods := hl.opMods
        have h2 : s.mods < u.mods := hl.mods
        omega
      have htail := renameTail_lands env nd none hmu hue hi
      have hfeat : u.feat = s.feat := hl.feat
      rw [← hfeat]
      refine htail.mono fun n hn => ?_
      rw [hn, hu, hfeat, ← hi]
      refine .move od oname nd nname replace e ty he hdir hlinks hfresh fun h1 h2 => ⟨hnot h1 h2, ?_⟩
      intro hn
      rw [hi] at h1
      simp only [h1, hn] at hguard
      exact (by simpa using hguard : od ≠ nd → s.links nd < LINK_MAX) h2

theorem isDirMode_perm (mode perm : Nat) :
    isDirMode (mode / 0x1000 * 0x1000 + perm % 0x1000) = isDirMode mode := by
  unfold isDirMode
  have : (mode / 0x1000 * 0x1000 + perm % 0x1000) / 0x1000 = mode / 0x1000 := by omega
  rw [this]

theorem dataBody_lands {perm nblocks : Nat} {runs : List Nat} {rc : Option Fault} :
    Lands s.feat (Outcome s.feat rel s.toNs c) (dataBody s env i perm nblocks runs rc) := by
  unfold dataBody
  split
  · exact lands_failed _ (.agrees (.refl _))
  have hagrees : Agrees s.toNs { s.toNs with
      mode := update s.mode i (s.mode i / 0x1000 * 0x1000 + perm % 0x1000) } := by
    refine ⟨rfl, rfl, fun j _ => ?_, fun _ _ => rfl, fun _ _ => rfl, fun _ _ => .inl rfl⟩
    show isDirMode (update s.mode i _ j) = isDirMode (s.mode j)
    by_cases hj : j = i
    · subst hj
      rw [update_self, isDirMode_perm]
    · rw [update_of_ne hj]
  split
  · refine ⟨harm_feat _ _, .inr (.inr ?_)⟩
    rw [failed, harm_toNs]
    exact .agrees hagrees
  · exact ⟨rfl, .inr (.inr (.agrees hagrees))⟩

end Bodies

theorem opBegin_lands {body : Fs → Option Err × Fs} (hs : P s.toNs)
    (hbody : Lands s.feat P (body { s with opMods := s.mods })) : (match opBegin s env with
      | (some e, s) => (some e, s)
      | (none, s) => opEnd env (body s)).2.feat = s.feat ∧
    ((match opBegin s env with
      | (some e, s) => (some e, s)
      | (none, s) => opEnd env (body s)).2.dead = true ∨
      P (match opBegin s env with
      | (some e, s) => (some e, s)
      | (none, s) => opEnd env (body s)).2.toNs) := by
  unfold opBegin
  by_cases hdead : s.dead = true
  · rw [if_pos hdead]
    exact ⟨rfl, .inr hs⟩
  rw [if_neg hdead]
  by_cases hro : s.ro = true
  · rw [if_pos hro]
    exact ⟨rfl, .inr hs⟩
  rw [if_neg hro]
  cases env.fault .opBegin with
  | some f => exact ⟨rfl, .inr hs⟩
  | none => exact opEnd_lands hbody

/-- **What a call does**: it aborts the volume, or has one of the outcomes. -/
theorem step_outcome (env : Env) (c : Call)
    (hused : ∀ i, s.isDir i = true → s.links i ≠ 0 → s.used i = true) :
    (step s env c).2.feat = s.feat ∧ ((step s env c).2.dead = true ∨
      Outcome s.feat (Releasable s) s.toNs c (step s env c).2.toNs) := by
  have hsame : Outcome s.feat (Releasable s) s.toNs c s.toNs := .agrees (.refl _)
  have hcreate : ∀ d name k mode, (createCommon s env d name k mode).2.feat = s.feat ∧
      ((createCommon s env d name k mode).2.dead = true ∨
        Outcome s.feat (Releasable s) s.toNs c (createCommon s env d name k mode).2.toNs) := by
    intro d name k mode
    unfold createCommon
    split
    · exact ⟨rfl, .inr hsame⟩
    split
    · exact ⟨rfl, .inr hsame⟩
    split
    · exact ⟨rfl, .inr hsame⟩
    · exact opBegin_lands hsame (createBody_lands (s := { s with opMods := s.mods }) le_rfl hused)
  cases c with
  | create d name mode => exact hcreate ..
  | mkdir d name mode => exact hcreate ..
  | symlink d name tlen => exact hcreate ..
  | unlink d name =>
    unfold step sfsUnlink
    simp only
    split
    · exact ⟨rfl, .inr hsame⟩
    · exact opBegin_lands hsame (unlinkBody_lands (s := { s with opMods := s.mods }) le_rfl)
  | rmdir d name =>
    unfold step sfsRmdir
    simp only
    split
    · exact ⟨rfl, .inr hsame⟩
    · exact opBegin_lands hsame (rmdirBody_lands (s := { s with opMods := s.mods }) le_rfl)
  | rename od oname nd nname replace =>
    unfold step sfsRename
    simp only
    split
    · exact ⟨rfl, .inr hsame⟩
    split
    · exact ⟨rfl, .inr hsame⟩
    · exact opBegin_lands hsame (renameBody_lands (s := { s with opMods := s.mods }) le_rfl)
  | data i perm nblocks runs rc =>
    exact opBegin_lands hsame (dataBody_lands (s := { s with opMods := s.mods }))

end Win98Modern.Libsfs
