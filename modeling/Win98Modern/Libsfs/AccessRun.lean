import Mathlib.Data.List.Induction
import Mathlib.Data.Nat.Bitwise
import Win98Modern.Libsfs.AccessFrame

/-!
# The access policy over runs

`Allowed` says what one call of a credential may do to a volume: the owners, the
modes, the set-id bits and the entries.  `stepAs_allowed` proves it of every call
of a credential without capabilities, on any volume and however its accesses
turn out; `runAs_allowed` is the statement about runs, and about what a commit has
written in the midst of a call.

Whether a class grants something is stated on the mode bits alone (`Grants`); the
checks of the source are compared with it in `grants_of_permission`.
-/

namespace Win98Modern.Libsfs

open Function Except Nat

/-! ### The policy -/

/-- The mode classes; exactly one of them applies to a credential. -/
inductive Class
  | owner | group | other
  deriving DecidableEq

def Class.lowest : Class → Nat
  | .owner => 6
  | .group => 3
  | .other => 0

def classOf (c : Cred) (uid gid : Nat) : Class :=
  if c.uid = uid then .owner else if sfsCredInGroup c gid then .group else .other

/-- The class that applies to `c` has the bit: 0 is search, 1 is write. -/
def Grants (c : Cred) (v : Vol) (i : Ino) (bit : Nat) : Prop :=
  (v.mode i).testBit ((classOf c (v.uid i) (v.gid i)).lowest + bit) = true

/-- Write and search. -/
def MayEdit (c : Cred) (v : Vol) (d : Ino) : Prop := Grants c v d 1 ∧ Grants c v d 0

def hasSetgid (mode : Nat) : Bool := mode.testBit 10
def hasSetuid (mode : Nat) : Bool := mode.testBit 11
def isSticky (mode : Nat) : Bool := mode.testBit 9

/-- What is left of a creation that is cut off before the owner is stored. -/
def Unowned (v : Vol) (i : Ino) : Prop :=
  v.dead = true ∧ v.uid i = 0 ∧ v.gid i = 0 ∧ v.mode i % 0x1000 = 0

/-- What a call of `c` with the code `rc` may do to the volume `v`. -/
structure Allowed (c : Cred) (v : Vol) (rc : Option Code) (w : Vol) : Prop where
  owner : ∀ i, v.used i = true → w.uid i = v.uid i
  made : ∀ i, v.used i = false → w.used i = true →
    w.uid i = c.uid ∨ (v.dead = false ∧ Unowned w i)
  setgid : ∀ i, w.used i = true → w.isDir i = false → hasSetgid (w.mode i) = true →
    sfsCredInGroup c (w.gid i) = true ∨
      (v.used i = true ∧ hasSetgid (v.mode i) = true ∧ w.gid i = v.gid i)
  setuid : ∀ i, v.used i = true → v.isDir i = false → w.gid i ≠ v.gid i →
    hasSetuid (w.mode i) = false
  mode : ∀ i, v.used i = true → v.uid i ≠ c.uid → w.mode i = v.mode i
  entries : ∀ d, w.entries.filter (fun e => e.dir = d) ≠ v.entries.filter (fun e => e.dir = d) →
    MayEdit c v d
  dotdot : ∀ d, v.used d = true → w.dotdot d ≠ v.dotdot d → v.isDir d = true ∧ Grants c v d 1
  sticky : ∀ d a e, v.entry d a = some e → w.entry d a ≠ some e → isSticky (v.mode d) = true →
    v.uid e.ino = c.uid ∨ v.uid d = c.uid
  denied : rc = some .acces ∨ rc = some .perm → w = v

/-- A call that failed before it changed anything. -/
structure Idle (v : Vol) (rc : Code) (w : Vol) : Prop where
  toNs : w.toNs = v.toNs
  uid : w.uid = v.uid
  gid : w.gid = v.gid
  denied : rc = .acces ∨ rc = .perm → w = v

section Policy

variable {α β : Type} {v w : Vol} {c : Cred} {env : AsEnv} {rc : Code}

theorem allowed_same (rc : Option Code) (hns : w.toNs = v.toNs) (huid : w.uid = v.uid)
    (hgid : w.gid = v.gid) (hden : rc = some .acces ∨ rc = some .perm → w = v) :
    Allowed c v rc w where
  owner i _ := by rw [huid]
  made i hv hw := by
    rw [hns, hv] at hw
    cases hw
  setgid i hw _ hb := by
    rw [hns] at hw hb
    exact .inr ⟨hw, hb, by rw [hgid]⟩
  setuid i _ _ hne := absurd (by rw [hgid]) hne
  mode i _ _ := by rw [hns]
  entries d hne := absurd (by rw [hns]) hne
  dotdot d _ hne := absurd (by rw [hns]) hne
  sticky d a e he hne := absurd (by rw [hns]; exact he) hne
  denied := hden

theorem core_not_denied {e : Option Err} :
    ¬(e.map Code.fs = some Code.acces ∨ e.map Code.fs = some Code.perm) := by
  cases e <;> simp

theorem allowed_core {e : Option Err} (hns : w.toNs = v.toNs) (huid : w.uid = v.uid)
    (hgid : w.gid = v.gid) : Allowed c v (e.map .fs) w :=
  allowed_same _ hns huid hgid fun h => absurd h core_not_denied

theorem Idle.allowed (h : Idle v rc w) : Allowed c v (some rc) w :=
  allowed_same _ h.toNs h.uid h.gid fun hrc => h.denied (by simpa using hrc)

/-! ### The reads -/

/-- A function that only reads: when it fails, it has changed nothing. -/
def Quiet (v : Vol) (r : Reads α) : Prop := ∀ rc w, r = .error (rc, w) → Idle v rc w

theorem quiet_ok (a : α) : Quiet v (.ok a : Reads α) := by
  intro rc w h
  cases h

theorem quiet_failed (f : Failure) : Quiet v (v.failed f : Reads α) := by
  intro rc w h
  obtain ⟨rfl, rfl⟩ := Prod.mk.inj (error.inj h)
  exact ⟨harm_toNs .., rfl, rfl, by simp⟩

theorem quiet_demand (rc : Option Code) : Quiet v (v.demand rc) := by
  intro rc' w h
  cases rc with
  | none => cases h
  | some rc =>
    obtain ⟨rfl, rfl⟩ := Prod.mk.inj (error.inj h)
    exact ⟨rfl, rfl, rfl, fun _ => rfl⟩

theorem Quiet.bind {x : Reads α} {f : α → Reads β} (hx : Quiet v x) (hf : ∀ a, Quiet v (f a)) :
    Quiet v (x >>= f) := by
  intro rc w h
  cases x with
  | error e =>
    obtain ⟨rfl, rfl⟩ := Prod.mk.inj (error.inj h)
    exact hx _ _ rfl
  | ok a => exact hf a rc w h

theorem quiet_pure (a : α) : Quiet v (pure a : Reads α) := quiet_ok a

/-- Two reads in a row give a value if both do. -/
theorem reads_bind {x : Reads α} {f : α → Reads β} {b : β} (h : (x >>= f) = .ok b) :
    ∃ a, x = .ok a ∧ f a = .ok b := by
  cases x with
  | error e => cases h
  | ok a => exact ⟨a, rfl, h⟩

/-- A read that an aborted volume fails, as it is. -/
def Closed (v : Vol) (r : Reads α) : Prop := v.dead = true → ∃ rc, r = .error (rc, v)

theorem Closed.bind {x : Reads α} (hx : Closed v x) (f : α → Reads β) : Closed v (x >>= f) := by
  intro hd
  obtain ⟨rc, rfl⟩ := hx hd
  exact ⟨rc, rfl⟩

theorem closed_demand {rc : Option Code} {f : Unit → Reads α} (hf : Closed v (f ())) :
    Closed v (v.demand rc >>= f) := by
  intro hd
  cases rc with
  | none => exact hf hd
  | some rc => exact ⟨rc, rfl⟩

theorem sfsStat_closed (i : Ino) (f : Option Fault) : Closed v (sfsStat v i f) :=
  fun hd => ⟨.fs .io, if_pos hd⟩

theorem demand_ok {rc : Option Code} {u : Unit} (h : v.demand rc = .ok u) : rc = none := by
  cases rc with
  | none => rfl
  | some rc => cases h

theorem sfsStat_quiet (i : Ino) (f : Option Fault) : Quiet v (sfsStat v i f) := by
  unfold sfsStat
  split
  · exact quiet_failed _
  · split
    · exact quiet_failed _
    · exact quiet_ok _

variable {i d : Ino} {st : Stat} {a : Name} {g : Option Fault} {mask k : Nat}

theorem sfsStat_ok {f : Option Fault} (h : sfsStat v i f = .ok st) :
    st = v.stat i ∧ v.dead = false := by
  unfold sfsStat at h
  split at h
  · cases h
  · rename_i hd
    split at h
    · cases h
    · exact ⟨(ok.inj h).symm, by simpa using hd⟩

theorem sfsLookup_quiet (d : Ino) (a : Name) (f g : Option Fault) :
    Quiet v (sfsLookup v d a f g) := by
  unfold sfsLookup
  split
  · exact quiet_failed _
  split
  · exact quiet_failed _
  split
  · exact quiet_failed _
  split
  · exact quiet_failed _
  split
  · exact quiet_ok _
  · exact quiet_failed _

theorem sfsLookup_ok {f : Option Fault} (h : sfsLookup v d a f g = .ok i) :
    v.named d a = some i := by
  unfold sfsLookup at h
  split at h
  · cases h
  split at h
  · cases h
  split at h
  · cases h
  split at h
  · cases h
  · rename_i j hj
    split at h
    · rw [hj, ok.inj h]
    · cases h

theorem getDir_noEnt {s : Fs} {f : Option Fault} {x : Failure} (h : getDir s d f = some x)
    (hx : x.err = .noEnt) : x.harm = .clean ∧ (s.isDir d = false ∨ s.links d = 0) := by
  unfold getDir iget at h
  split at h
  · rename_i y hy
    split at hy
    · obtain rfl := Option.some.inj hy
      obtain rfl := Option.some.inj h
      cases hx
    · cases f with
      | some f =>
        obtain rfl := Option.some.inj hy
        obtain rfl := Option.some.inj h
        exact absurd hx f.real
      | none =>
        simp only at hy
        split at hy
        · rename_i hm
          obtain rfl := Option.some.inj hy
          obtain rfl := Option.some.inj h
          refine ⟨rfl, .inl ?_⟩
          rw [Ns.isDir, hm]
          rfl
        · cases hy
  · split at h
    · obtain rfl := Option.some.inj h
      cases hx
    · split at h
      · rename_i hl
        obtain rfl := Option.some.inj h
        exact ⟨rfl, .inr hl⟩
      · cases h

/-- `ENOENT` of `sfs_lookup`: there is no such name, or the directory is gone. -/
theorem sfsLookup_noEnt {f : Option Fault} (h : sfsLookup v d a f g = .error (.fs .noEnt, w)) :
    w = v ∧ (v.named d a = none ∨ v.isDir d = false ∨ v.links d = 0) := by
  unfold sfsLookup at h
  split at h
  · cases h
  split at h
  · rename_i x hx
    obtain ⟨he, rfl⟩ := Prod.mk.inj (error.inj h)
    obtain ⟨hh, hd⟩ := getDir_noEnt hx (Code.fs.inj he)
    exact ⟨by rw [hh]; rfl, .inr hd⟩
  split at h
  · rename_i x
    obtain ⟨he, rfl⟩ := Prod.mk.inj (error.inj h)
    exact absurd (Code.fs.inj he) x.real
  split at h
  · rename_i hn
    obtain ⟨-, rfl⟩ := Prod.mk.inj (error.inj h)
    exact ⟨rfl, .inl hn⟩
  split at h
  · cases h
  · cases h

/-! ### The checks -/

theorem testBit_of_land {bits : Nat} (h : bits &&& mask = mask) (hk : mask.testBit k = true) :
    bits.testBit k = true := by
  rw [← h, testBit_land] at hk
  exact (Bool.and_eq_true_iff.1 hk).1

/-- Without capabilities, what is permitted is granted by the class that applies. -/
theorem bit_of_permission (hc : c.caps = 0) (h : sfsPermissionSt c st mask = none) (hk : k < 3)
    (hmask : mask.testBit k = true) :
    st.mode.testBit ((classOf c st.uid st.gid).lowest + k) = true := by
  unfold sfsPermissionSt at h
  split at h
  · cases h
  simp only [hc, zero_and, ne_eq, not_true_eq_false, false_and, if_false] at h
  obtain ⟨bits, hbits⟩ : ∃ b, b =
    if c.uid = st.uid then st.mode >>> 6 &&& 7
    else if sfsCredInGroup c st.gid = true then st.mode >>> 3 &&& 7
    else st.mode &&& 7 := ⟨_, rfl⟩
  rw [← hbits] at h
  have hb : bits &&& mask = mask := by
    by_contra hne
    rw [if_neg hne] at h
    cases h
  have hbit := testBit_of_land hb hmask
  have h7 : (7 : Nat).testBit k = true := by
    rcases (by omega : k = 0 ∨ k = 1 ∨ k = 2) with rfl | rfl | rfl <;> rfl
  rw [hbits] at hbit
  unfold classOf
  split at hbit
  · rename_i ho
    rw [if_pos ho]
    simpa [testBit_land, testBit_shiftRight, h7, Class.lowest] using hbit
  · rename_i ho
    rw [if_neg ho]
    split at hbit
    · rename_i hg
      rw [if_pos hg]
      simpa [testBit_land, testBit_shiftRight, h7, Class.lowest] using hbit
    · rename_i hg
      rw [if_neg hg]
      simpa [testBit_land, h7, Class.lowest] using hbit

theorem grants_of_permission (hc : c.caps = 0) (h : sfsPermissionSt c (v.stat i) mask = none)
    (hk : k < 3) (hmask : mask.testBit k = true) : Grants c v i k :=
  bit_of_permission hc h hk hmask

theorem dirCheck_quiet (f : Option Fault) (d : Ino) (write : Bool) :
    Quiet v (dirCheck v f c d write) :=
  (quiet_demand _).bind fun _ => (sfsStat_quiet d f).bind fun _ => (quiet_demand _).bind fun _ =>
    (quiet_demand _).bind fun _ => quiet_pure _

theorem dirCheck_closed (c : Cred) (f : Option Fault) (d : Ino) (write : Bool) :
    Closed v (dirCheck v f c d write) :=
  closed_demand ((sfsStat_closed d f).bind _)

theorem dirCheck_ok {f : Option Fault} {write : Bool} {dst : Stat}
    (h : dirCheck v f c d write = .ok dst) : dst = v.stat d ∧ v.dead = false ∧ v.isDir d = true ∧
      sfsPermissionSt c dst (if write then SFS_MAY_WRITE ||| SFS_MAY_EXEC else SFS_MAY_EXEC) = none := by
  obtain ⟨_, -, h⟩ := reads_bind h
  obtain ⟨st, hst, h⟩ := reads_bind h
  obtain ⟨_, hdir, h⟩ := reads_bind h
  obtain ⟨_, hperm, h⟩ := reads_bind h
  obtain rfl := ok.inj h
  obtain ⟨rfl, hdead⟩ := sfsStat_ok hst
  refine ⟨rfl, hdead, ?_, demand_ok hperm⟩
  have hnone := demand_ok hdir
  exact (by simpa using hnone : isDirMode (v.stat d).mode = true)

theorem mayEdit_of_permission (hc : c.caps = 0)
    (h : sfsPermissionSt c (v.stat d) (SFS_MAY_WRITE ||| SFS_MAY_EXEC) = none) : MayEdit c v d :=
  ⟨grants_of_permission hc h (by decide) rfl, grants_of_permission hc h (by decide) rfl⟩

theorem stickyOk_none {vst : Stat} (hc : c.caps = 0) (h : stickyOk c st vst = none)
    (hs : isSticky st.mode = true) : vst.uid = c.uid ∨ st.uid = c.uid := by
  unfold stickyOk at h
  split at h
  · rename_i h0
    have : (st.mode &&& S_ISVTX).testBit 9 = true := by
      rw [testBit_land, (by exact hs : st.mode.testBit 9 = true)]
      rfl
    rw [h0] at this
    simp at this
  · split at h
    · rename_i ho
      rcases ho with ho | ho | ho
      · exact .inl ho.symm
      · exact .inr ho.symm
      · rw [hc] at ho
        simp at ho
    · cases h

theorem mayDelete_quiet (d : Ino) (a : Name) : Quiet v (mayDelete v env c d a) :=
  (dirCheck_quiet _ d true).bind fun _ => (sfsLookup_quiet d a _ _).bind fun i =>
    (sfsStat_quiet i _).bind fun _ => (quiet_demand _).bind fun _ => quiet_pure _

theorem mayDelete_closed (env : AsEnv) (c : Cred) (d : Ino) (a : Name) : Closed v (mayDelete v env c d a) :=
  (dirCheck_closed c _ d true).bind _

theorem mayDelete_ok {p : Stat × Stat} (hc : c.caps = 0) (h : mayDelete v env c d a = .ok p) :
    MayEdit c v d ∧ ∃ i, v.named d a = some i ∧
      p.2 = v.stat i ∧ (isSticky (v.mode d) = true → v.uid i = c.uid ∨ v.uid d = c.uid) := by
  obtain ⟨dst, hd, h⟩ := reads_bind h
  obtain ⟨i, hi, h⟩ := reads_bind h
  obtain ⟨vst, hv, h⟩ := reads_bind h
  obtain ⟨_, hs, h⟩ := reads_bind h
  obtain rfl := ok.inj h
  obtain ⟨rfl, -, -, hperm⟩ := dirCheck_ok hd
  obtain ⟨rfl, -⟩ := sfsStat_ok hv
  exact ⟨mayEdit_of_permission hc hperm, i, sfsLookup_ok hi, rfl,
    fun hst => stickyOk_none hc (demand_ok hs) hst⟩

theorem named_eq (h : nameOk a = none) : v.named d a = (v.entry d a).map Entry.ino := by
  have h1 : a ≠ [46] := by
    rintro rfl
    cases h
  have h2 : a ≠ [46, 46] := by
    rintro rfl
    cases h
  rw [Vol.named, if_neg h1, if_neg h2]

end Policy
section Calls

variable {v w : Vol} {c : Cred} {env : AsEnv} {rc : Option Err}

/-! ### Removal and renaming -/

theorem allowed_of_frame {t : Fs} {D : Ino → Name → Bool} {U : Ino → Prop}
    (hF : v.toNs.Frame D (fun _ => False) U t.toNs) (hD : ∀ d a, D d a = true → MayEdit c v d)
    (hsticky : ∀ d a e, D d a = true → v.entry d a = some e → isSticky (v.mode d) = true →
      v.uid e.ino = c.uid ∨ v.uid d = c.uid)
    (hU : ∀ d, U d → v.isDir d = true ∧ Grants c v d 1) :
    Allowed c v (rc.map .fs) { v with toFs := t } where
  owner _ _ := rfl
  made i hv hw := by
    have := hF.used i id hw
    rw [hv] at this
    cases this
  setgid i hw _ hb := by
    have hm : t.mode i = v.mode i := hF.mode i id
    exact .inr ⟨hF.used i id hw, by rw [← hm]; exact hb, rfl⟩
  setuid _ _ _ hne := absurd rfl hne
  mode i _ _ := hF.mode i id
  entries d hne := by
    by_cases h : ∃ a, D d a = true
    · obtain ⟨a, ha⟩ := h
      exact hD d a ha
    · refine absurd (hF.entriesOf fun a => ?_) hne
      simpa using fun ha => h ⟨a, ha⟩
  dotdot d _ hne := by
    by_cases h : U d
    · exact hU d h
    · exact absurd (hF.dotdot d h) hne
  sticky d a e he hne hs := by
    by_cases h : D d a = true
    · exact hsticky d a e h he hs
    · exact absurd ((hF.entry (by simpa using h)).trans he) hne
  denied h := absurd h core_not_denied

/-- The name `a` of the directory `d`, and no other. -/
def nameIn (d : Ino) (a : Name) (d' : Ino) (a' : Name) : Bool := d' = d ∧ a' = a

variable {d nd od : Ino} {a nname oname : Name} {st dst : Stat} {replace : Bool} {u : Unit}
  {mode uid gid oflags : Nat}

theorem nameIn_iff {d' : Ino} {a' : Name} : nameIn d a d' a' = true ↔ d' = d ∧ a' = a := by
  simp [nameIn]

theorem delete_allowed {update : Fs → Option Err × Fs} (hc : c.caps = 0)
    (hbad : nameOk a ≠ none → (update v.toFs).2 = v.toFs)
    (hF : v.toNs.Frame (nameIn d a) (fun _ => False) (fun _ => False) (update v.toFs).2.toNs) :
    Allowed c v (v.checked (mayDelete v env c d a) update).1
      (v.checked (mayDelete v env c d a) update).2 := by
  unfold Vol.checked
  cases hr : mayDelete v env c d a with
  | error x => exact (mayDelete_quiet d a _ _ hr).allowed
  | ok p =>
    obtain ⟨hedit, i, hi, -, hs⟩ := mayDelete_ok hc hr
    by_cases hname : nameOk a = none
    · refine allowed_of_frame hF (fun d' a' h => ?_) (fun d' a' e h he hst => ?_) fun _ h => h.elim
      · obtain ⟨rfl, rfl⟩ := nameIn_iff.1 h
        exact hedit
      · obtain ⟨rfl, rfl⟩ := nameIn_iff.1 h
        rw [named_eq hname, he] at hi
        obtain rfl := Option.some.inj hi
        exact hs hst
    · rw [hbad hname]
      exact allowed_core rfl rfl rfl

theorem sfsUnlinkAs_allowed (hc : c.caps = 0) :
    Allowed c v (sfsUnlinkAs v env c d a).1 (sfsUnlinkAs v env c d a).2 := by
  refine delete_allowed hc (fun h => ?_) (sfsUnlink_frame (nameIn_iff.2 ⟨rfl, rfl⟩))
  obtain ⟨e, he⟩ := Option.ne_none_iff_exists'.1 h
  simp only [sfsUnlink, he]

theorem sfsRmdirAs_allowed (hc : c.caps = 0) :
    Allowed c v (sfsRmdirAs v env c d a).1 (sfsRmdirAs v env c d a).2 := by
  refine delete_allowed hc (fun h => ?_) (sfsRmdir_frame (nameIn_iff.2 ⟨rfl, rfl⟩))
  obtain ⟨e, he⟩ := Option.ne_none_iff_exists'.1 h
  simp only [sfsRmdir, he]

theorem mayReplace_quiet : Quiet v (mayReplace v env c nd nname st replace) := by
  unfold mayReplace
  split
  · rename_i rc w hl
    split
    · exact quiet_ok _
    · intro rc' w' h
      obtain ⟨rfl, rfl⟩ := Prod.mk.inj (error.inj h)
      exact sfsLookup_quiet _ _ _ _ _ _ hl
  · exact (quiet_demand _).bind fun _ => (sfsStat_quiet _ _).bind fun _ => quiet_demand _

/-- The new name is not there, or its directory is gone, or the sticky rule allows replacing it. -/
theorem mayReplace_ok (hc : c.caps = 0)
    (h : mayReplace v env c nd nname (v.stat nd) replace = .ok u) :
    v.named nd nname = none ∨ v.isDir nd = false ∨ v.links nd = 0 ∨
      ∃ i, v.named nd nname = some i ∧
        (isSticky (v.mode nd) = true → v.uid i = c.uid ∨ v.uid nd = c.uid) := by
  unfold mayReplace at h
  split at h
  · rename_i rc w hl
    split at h
    · rename_i hrc
      rw [hrc] at hl
      exact (sfsLookup_noEnt hl).2.imp_right (Or.imp_right .inl)
    · cases h
  · rename_i i hl
    obtain ⟨_, -, h⟩ := reads_bind h
    obtain ⟨tst, ht, h⟩ := reads_bind h
    obtain ⟨rfl, -⟩ := sfsStat_ok ht
    exact .inr (.inr (.inr ⟨i, sfsLookup_ok hl, fun hst => stickyOk_none hc (demand_ok h) hst⟩))

theorem mayRename_quiet : Quiet v (mayRename v env c od oname nd nname replace) :=
  (mayDelete_quiet od oname).bind fun _ => (dirCheck_quiet _ nd true).bind fun _ =>
    mayReplace_quiet.bind fun _ => quiet_demand _

theorem mayRename_closed (env : AsEnv) (c : Cred) (od nd : Ino) (oname nname : Name)
    (replace : Bool) : Closed v (mayRename v env c od oname nd nname replace) :=
  (mayDelete_closed env c od oname).bind _

theorem sfsRenameAs_allowed (hc : c.caps = 0) :
    Allowed c v (sfsRenameAs v env c od oname nd nname replace).1
      (sfsRenameAs v env c od oname nd nname replace).2 := by
  unfold sfsRenameAs Vol.checked
  cases hr : mayRename v env c od oname nd nname replace with
  | error x => exact (mayRename_quiet _ _ hr).allowed
  | ok u =>
    obtain ⟨p, hdel, hr⟩ := reads_bind hr
    obtain ⟨ndst, hnd, hr⟩ := reads_bind hr
    obtain ⟨_, hrep, hself⟩ := reads_bind hr
    obtain ⟨hold, i, hi, hp, hs⟩ := mayDelete_ok hc hdel
    obtain ⟨rfl, -, hdir, hperm⟩ := dirCheck_ok hnd
    have hnew := mayEdit_of_permission hc hperm
    have hself := demand_ok hself
    by_cases hbad : nameOk oname ≠ none ∨ nameOk nname ≠ none
    · have hsame : (sfsRename v.toFs env.inner od oname nd nname replace).2 = v.toFs := by
        unfold sfsRename
        split
        · rfl
        · rename_i h1
          split
          · rfl
          · rename_i h2
            exact absurd hbad (by simp [h1, h2])
      rw [hsame]
      exact allowed_core rfl rfl rfl
    rw [not_or, not_not, not_not] at hbad
    obtain ⟨honame, hnname⟩ := hbad
    rw [named_eq honame] at hi
    obtain ⟨e, he, rfl⟩ := Option.map_eq_some_iff.1 hi
    -- the new name counts only where its directory is still linked
    refine allowed_of_frame
      (D := fun d a => nameIn od oname d a || (nameIn nd nname d a && decide (v.links nd ≠ 0)))
      (U := fun x => x = e.ino ∧ v.isDir x = true ∧ od ≠ nd)
      (sfsRename_frame ?_ (fun hl => ?_) fun x hx hxd hne => ?_) (fun d a h => ?_)
      (fun d a x h hx hst => ?_) fun d h => ?_
    · simp [nameIn]
    · simp [nameIn, hl]
    · rw [he] at hx
      obtain rfl := Option.some.inj hx
      exact ⟨rfl, hxd, hne⟩
    · rcases Bool.or_eq_true_iff.1 h with h | h
      · obtain ⟨rfl, rfl⟩ := nameIn_iff.1 h
        exact hold
      · obtain ⟨rfl, rfl⟩ := nameIn_iff.1 (Bool.and_eq_true_iff.1 h).1
        exact hnew
    · rcases Bool.or_eq_true_iff.1 h with h | h
      · obtain ⟨rfl, rfl⟩ := nameIn_iff.1 h
        rw [he] at hx
        obtain rfl := Option.some.inj hx
        exact hs hst
      · obtain ⟨hn, hl⟩ := Bool.and_eq_true_iff.1 h
        obtain ⟨rfl, rfl⟩ := nameIn_iff.1 hn
        have hnamed : v.named d a = some x.ino := by rw [named_eq hnname, hx]; rfl
        rcases mayReplace_ok hc hrep with h0 | h0 | h0 | ⟨j, hj, hs'⟩
        · rw [hnamed] at h0
          cases h0
        · rw [hdir] at h0
          cases h0
        · simp [h0] at hl
        · rw [hnamed] at hj
          obtain rfl := Option.some.inj hj
          exact hs' hst
    · obtain ⟨rfl, hxd, hne⟩ := h
      refine ⟨hxd, ?_⟩
      have hcond : isDirMode p.2.mode = true ∧ od ≠ nd := ⟨by rw [hp]; exact hxd, hne⟩
      rw [if_pos hcond, hp] at hself
      exact grants_of_permission hc hself (by decide) rfl

/-! ### Modes and owners -/

theorem testBit_perm (mode perm : Nat) {k : Nat} (hk : k < 12) :
    (mode / 0x1000 * 0x1000 + perm % 0x1000).testBit k = perm.testBit k := by
  have hlt : perm % 2 ^ 12 < 2 ^ 12 := mod_lt _ (by decide)
  have hsum : mode / 0x1000 * 0x1000 + perm % 0x1000 = 2 ^ 12 * (mode / 0x1000) + perm % 2 ^ 12 := by
    omega
  rw [hsum, testBit_two_pow_mul_add _ hlt, if_pos hk, testBit_mod_two_pow]
  simp [hk]

theorem clear_setgid (perm : Nat) : (perm &&& (0xFFFF ^^^ S_ISGID)).testBit 10 = false := by
  rw [testBit_land, (by decide : (0xFFFF ^^^ S_ISGID).testBit 10 = false), Bool.and_false]

theorem testBit_setgid {perm : Nat} (h : perm.testBit 10 = true) : perm &&& S_ISGID ≠ 0 := by
  intro h0
  have hbit : (perm &&& S_ISGID).testBit 10 = true := by
    rw [testBit_land, h]
    rfl
  rw [h0] at hbit
  simp at hbit

/-- The owner of `i` stores permissions and a group. -/
theorem allowed_of_perm {i perm ngid : Nat} (hown : v.uid i = c.uid)
    (hns : w.toNs = { v.toNs with
      mode := update v.mode i (v.mode i / 0x1000 * 0x1000 + perm % 0x1000) })
    (huid : w.uid = v.uid) (hgid : w.gid = update v.gid i ngid)
    (hsetgid : v.isDir i = false → perm.testBit 10 = true →
      sfsCredInGroup c ngid = true ∨ (hasSetgid (v.mode i) = true ∧ ngid = v.gid i))
    (hsetuid : v.isDir i = false → ngid ≠ v.gid i → perm.testBit 11 = false) :
    Allowed c v (rc.map .fs) w := by
  have hmode : w.mode = update v.mode i (v.mode i / 0x1000 * 0x1000 + perm % 0x1000) := by rw [hns]
  have hkeep : ∀ j, j ≠ i → w.mode j = v.mode j ∧ w.gid j = v.gid j := fun j hj => by
    rw [hmode, hgid, update_of_ne hj, update_of_ne hj]
    exact ⟨rfl, rfl⟩
  have hbit : ∀ {k}, k < 12 → (w.mode i).testBit k = perm.testBit k := fun hk => by
    rw [hmode, update_self, testBit_perm _ _ hk]
  constructor
  case owner => exact fun j _ => by rw [huid]
  case made =>
    intro j hv hw
    rw [hns, hv] at hw
    cases hw
  case setgid =>
    intro j hw hd hb
    rw [hns] at hw
    by_cases hj : j = i
    · subst hj
      rw [Ns.isDir, hmode, update_self, isDirMode_perm] at hd
      rw [hgid, update_self]
      exact (hsetgid hd ((hbit (by decide)).symm.trans hb)).imp_right fun h => ⟨hw, h⟩
    · rw [(hkeep j hj).1] at hb
      exact .inr ⟨hw, hb, (hkeep j hj).2⟩
  case setuid =>
    intro j _ hd hne
    by_cases hj : j = i
    · subst hj
      rw [hgid, update_self] at hne
      exact (hbit (by decide)).trans (hsetuid hd hne)
    · exact absurd (hkeep j hj).2 hne
  case mode => exact fun j _ hne => (hkeep j fun hj => hne (by rw [hj, hown])).1
  case entries => exact fun d hne => absurd (by rw [hns]) hne
  case dotdot => exact fun d _ hne => absurd (by rw [hns]) hne
  case sticky => exact fun d a e he hne _ => absurd (by rw [hns]; exact he) hne
  case denied => exact fun h => absurd h core_not_denied

theorem mayChmod_quiet (i : Ino) : Quiet v (mayChmod v env c i) :=
  (quiet_demand _).bind fun _ => (sfsStat_quiet i _).bind fun _ => (quiet_demand _).bind fun _ =>
    quiet_pure _

theorem mayChmod_closed (env : AsEnv) (c : Cred) (i : Ino) : Closed v (mayChmod v env c i) :=
  closed_demand ((sfsStat_closed i _).bind _)

theorem mayChmod_ok {i : Ino} (hc : c.caps = 0) (h : mayChmod v env c i = .ok st) :
    st = v.stat i ∧ v.uid i = c.uid := by
  obtain ⟨_, -, h⟩ := reads_bind h
  obtain ⟨st', hst, h⟩ := reads_bind h
  obtain ⟨_, hown, h⟩ := reads_bind h
  obtain rfl := ok.inj h
  obtain ⟨rfl, -⟩ := sfsStat_ok hst
  have hnone := demand_ok hown
  simp only [hc, zero_and, and_true] at hnone
  refine ⟨rfl, ?_⟩
  by_contra hne
  rw [if_pos fun he : c.uid = (v.stat i).uid => hne he.symm] at hnone
  cases hnone

theorem chmodPerm_setgid (hc : c.caps = 0) (h : (chmodPerm c st mode).testBit 10 = true) :
    sfsCredInGroup c st.gid = true := by
  unfold chmodPerm at h
  simp only [hc, zero_and, and_true] at h
  split at h
  · rw [clear_setgid] at h
    cases h
  · rename_i hno
    by_contra hg
    exact hno ⟨testBit_setgid h, hg⟩

theorem sfsChmodAs_allowed {i : Ino} (hc : c.caps = 0) :
    Allowed c v (sfsChmodAs v env c i mode).1 (sfsChmodAs v env c i mode).2 := by
  unfold sfsChmodAs
  cases hr : mayChmod v env c i with
  | error x => exact (mayChmod_quiet i _ _ hr).allowed
  | ok st =>
    obtain ⟨rfl, hown⟩ := mayChmod_ok hc hr
    simp only
    rcases dataUpdate_toNs (s := v.toFs) env.inner i (chmodPerm c (v.stat i) mode)
      (v.nblocks i) (v.runs i) none with hns | hns
    · exact allowed_core hns rfl rfl
    · exact allowed_of_perm hown hns rfl (update_eq_self ..).symm
        (fun _ hb => .inl (chmodPerm_setgid hc hb)) fun _ hne => absurd rfl hne

theorem mayChown_quiet (i uid gid : Nat) : Quiet v (mayChown v env c i uid gid) :=
  (quiet_demand _).bind fun _ => (sfsStat_quiet i _).bind fun _ => (quiet_demand _).bind fun _ =>
    quiet_pure _

theorem mayChown_closed (env : AsEnv) (c : Cred) (i uid gid : Nat) : Closed v (mayChown v env c i uid gid) :=
  closed_demand ((sfsStat_closed i _).bind _)

theorem mayChown_ok {i : Nat} (hc : c.caps = 0) (h : mayChown v env c i uid gid = .ok st) :
    st = v.stat i ∧ v.uid i = c.uid ∧ (if uid = SFS_ID_KEEP then v.uid i else uid) = v.uid i ∧
      ((if gid = SFS_ID_KEEP then v.gid i else gid) = v.gid i ∨
        sfsCredInGroup c (if gid = SFS_ID_KEEP then v.gid i else gid) = true) := by
  obtain ⟨_, -, h⟩ := reads_bind h
  obtain ⟨st', hst, h⟩ := reads_bind h
  obtain ⟨_, hown, h⟩ := reads_bind h
  obtain rfl := ok.inj h
  obtain ⟨rfl, -⟩ := sfsStat_ok hst
  have hnone := demand_ok hown
  rw [hc, zero_and, if_neg (by simp)] at hnone
  have hkeep : ¬(c.uid ≠ v.uid i ∨ (if uid = SFS_ID_KEEP then v.uid i else uid) ≠ v.uid i) := by
    intro h
    rw [if_pos (by exact h)] at hnone
    cases hnone
  rw [if_neg (by exact hkeep)] at hnone
  rw [not_or, not_not, not_not] at hkeep
  refine ⟨rfl, hkeep.1.symm, hkeep.2, ?_⟩
  by_contra hno
  rw [not_or] at hno
  rw [if_pos (by exact hno)] at hnone
  cases hnone

theorem chownPerm_bits (hd : isDirMode st.mode = false) : (chownPerm st).testBit 11 = false ∧
      ((chownPerm st).testBit 10 = true → st.mode.testBit 10 = true) := by
  have h11 : (st.mode &&& 0o7777 &&& (0xFFFF ^^^ S_ISUID)).testBit 11 = false := by
    rw [testBit_land, (by decide : (0xFFFF ^^^ S_ISUID).testBit 11 = false), Bool.and_false]
  have h10 : (st.mode &&& 0o7777 &&& (0xFFFF ^^^ S_ISUID)).testBit 10 = true →
      st.mode.testBit 10 = true := by
    intro h
    rw [testBit_land, testBit_land] at h
    exact (Bool.and_eq_true_iff.1 (Bool.and_eq_true_iff.1 h).1).1
  unfold chownPerm
  simp only [hd, Bool.false_eq_true, if_false]
  split
  · refine ⟨?_, fun h => ?_⟩
    · rw [testBit_land, h11, Bool.false_and]
    · rw [clear_setgid] at h
      cases h
  · exact ⟨h11, h10⟩

theorem opEnd_toNs_vol (e : Env) (r : Option Err × Vol) : (Vol.opEnd e r).2.toNs = r.2.toNs ∧
    (Vol.opEnd e r).2.uid = r.2.uid ∧ (Vol.opEnd e r).2.gid = r.2.gid :=
  ⟨opEnd_toNs e (r.1, r.2.toFs), rfl, rfl⟩

theorem sfsChownAs_allowed {i : Nat} (hc : c.caps = 0) :
    Allowed c v (sfsChownAs v env c i uid gid).1 (sfsChownAs v env c i uid gid).2 := by
  unfold sfsChownAs
  cases hr : mayChown v env c i uid gid with
  | error x => exact (mayChown_quiet i uid gid _ _ hr).allowed
  | ok st =>
    obtain ⟨rfl, hown, huid, hgid⟩ := mayChown_ok hc hr
    have hu : (if uid = SFS_ID_KEEP then (v.stat i).uid else uid) = v.uid i := huid
    have hg : (if gid = SFS_ID_KEEP then (v.stat i).gid else gid) =
        (if gid = SFS_ID_KEEP then v.gid i else gid) := rfl
    simp only [hu, hg]
    generalize (if gid = SFS_ID_KEEP then v.gid i else gid) = ngid at hgid
    unfold sfsSetOwner
    cases hb : opBegin v.toFs env.inner with
    | mk e s =>
    cases e with
    | some e =>
      obtain rfl := opBegin_some hb
      exact allowed_core (e := some e) rfl rfl rfl
    | none =>
      obtain ⟨rfl, -, -⟩ := opBegin_none hb
      simp only
      cases iget { v.toFs with opMods := v.mods } i (env.fault .own) with
      | some f => exact allowed_core ((opEnd_toNs_vol _ _).1.trans (harm_toNs ..)) rfl rfl
      | none =>
        have hbits := fun hd : isDirMode (v.stat i).mode = false => chownPerm_bits hd
        exact allowed_of_perm hown (opEnd_toNs_vol _ _).1 (update_eq_self ..) rfl
          (fun hd hb => hgid.symm.imp_right fun h => ⟨(hbits hd).2 hb, h⟩) fun hd _ => (hbits hd).1

/-! ### Creation -/

/-- A file gets `S_ISGID` only with a group of the credential. -/
theorem newPerm_setgid (hc : c.caps = 0) (h : (newPerm c dst mode false).testBit 10 = true) :
    sfsCredInGroup c (newGid c dst) = true := by
  unfold newPerm at h
  simp only [hc, zero_and, and_true, Bool.false_eq_true, and_false, if_false, not_false_eq_true,
    true_and] at h
  split at h
  · rw [clear_setgid] at h
    cases h
  · rename_i hno
    by_contra hg
    exact hno ⟨testBit_setgid h, hg⟩

/-- The volume `w` has the new inode `i` under the name `a`, and nothing else is new. -/
structure Added (v : Vol) (d : Ino) (a : Name) (i : Ino) (w : Vol) : Prop where
  free : v.used i = false
  fresh : v.entry d a = none
  frame : v.toNs.Frame (nameIn d a) (fun j => j = i) (fun j => j = i) w.toNs
  uid : ∀ j, j ≠ i → w.uid j = v.uid j
  gid : ∀ j, j ≠ i → w.gid j = v.gid j

theorem Added.allowed {i : Ino} (h : Added v d a i w) (hedit : MayEdit c v d)
    (hmade : w.used i = true → w.uid i = c.uid ∨ (v.dead = false ∧ Unowned w i))
    (hsetgid : w.isDir i = false → hasSetgid (w.mode i) = true → sfsCredInGroup c (w.gid i) = true) :
    Allowed c v (rc.map .fs) w := by
  have hne : ∀ j, v.used j = true → j ≠ i := by
    rintro j hj rfl
    rw [h.free] at hj
    cases hj
  refine ⟨fun j hj => h.uid j (hne j hj), fun j hv hw => ?_, fun j hw hd hb => ?_,
    fun j hj _ hg => absurd (h.gid j (hne j hj)) hg, fun j hj _ => h.frame.mode j (hne j hj),
    fun d' hd' => ?_, fun j hj hd' => absurd (h.frame.dotdot j (hne j hj)) hd',
    fun d' a' e he hno _ => ?_, fun hden => absurd hden core_not_denied⟩
  · by_cases hj : j = i
    · subst hj
      exact hmade hw
    · have := h.frame.used j hj hw
      rw [hv] at this
      cases this
  · by_cases hj : j = i
    · subst hj
      exact .inl (hsetgid hd hb)
    · rw [h.frame.mode j hj] at hb
      exact .inr ⟨h.frame.used j hj hw, hb, h.gid j hj⟩
  · by_cases hdd : d' = d
    · subst hdd
      exact hedit
    · exact absurd (h.frame.entriesOf fun a' => by simp [nameIn, hdd]) hd'
  · by_cases hname : nameIn d a d' a' = true
    · obtain ⟨rfl, rfl⟩ := nameIn_iff.1 hname
      rw [h.fresh] at he
      cases he
    · exact absurd ((h.frame.entry (by simpa using hname)).trans he) hno

/-- What `sfs_create` and `sfs_mkdir` leave before the owner is stored. -/
theorem createBare_cases (e : Env) (d : Ino) (a : Name) {k : NewKind}
    (hk : k = .file ∨ k = .directory) :
    ((createBare v e d a k).1 ≠ none ∧ (createBare v e d a k).2.toNs = v.toNs ∧
      (createBare v e d a k).2.uid = v.uid ∧ (createBare v e d a k).2.gid = v.gid) ∨
    (Added v d a e.pick (createBare v e d a k).2 ∧ inoValid v.toFs e.pick = true ∧
      (createBare v e d a k).2.mode e.pick = k.mode 0 ∧ (createBare v e d a k).2.uid e.pick = 0 ∧
      (createBare v e d a k).2.gid e.pick = 0 ∧
      ((createBare v e d a k).1 = none → (createBare v e d a k).2.feat = v.feat ∧
        (createBare v e d a k).2.opMods < (createBare v e d a k).2.mods) ∧
      ((createBare v e d a k).1 ≠ none → (createBare v e d a k).2.dead = true ∨
        (createBare v e d a k).2.used e.pick = false)) := by
  have hb := createCommon_begun (s := v.toFs) (d := d) (a := a) (e.inUse d) 0 hk
  unfold createBare
  generalize createCommon v.toFs (e.inUse d) d a k 0 = r at hb ⊢
  cases hb with
  | stopped h1 h2 h3 =>
    left
    simp only [h1]
    exact ⟨h2, h3, trivial, trivial⟩
  | went u h1 h2 h3 h4 h5 h6 h7 h8 h9 h10 =>
    right
    have hp : (e.inUse d).pick = e.pick := rfl
    rw [hp] at h1 h2 h4 h6 h8 h10
    have hdi : d ≠ e.pick := by
      rintro rfl
      simp [Env.inUse] at h5
    simp only [h1]
    have hframe : u.toNs.Frame (nameIn d a) (fun _ => False) (fun j => j = e.pick)
        (createNew u (e.inUse d) d a k 0 e.pick).2.toNs :=
      createNew_frame k 0 (nameIn_iff.2 ⟨rfl, rfl⟩) rfl
    have hns : r.2.toNs = (createNew u (e.inUse d) d a k 0 e.pick).2.toNs := by
      rw [h10, opEnd_toNs]
    have hmode : u.mode = update v.mode e.pick (k.mode 0) := by rw [h6]; rfl
    have hused : u.used = update v.used e.pick true := by rw [h6]; rfl
    have hall : v.toNs.Frame (nameIn d a) (fun j => j = e.pick) (fun j => j = e.pick) r.2.toNs := by
      rw [hns]
      refine ⟨hframe.entries.trans (by rw [h6]; rfl), fun j hj => ?_, fun j hj hu => ?_,
        fun j hj => (hframe.dotdot j hj).trans (by rw [h6]; rfl)⟩
      · rw [hframe.mode j id, hmode, update_of_ne hj]
      · have := hframe.used j id hu
        rwa [hused, update_of_ne hj] at this
    refine ⟨⟨h2, h3, hall, fun j hj => update_of_ne hj _ _,
      fun j hj => update_of_ne hj _ _⟩, h4, ?_, update_self ..,
      update_self .., fun hnone => ?_, fun hsome => ?_⟩
    · show r.2.mode e.pick = _
      rw [hns, hframe.mode _ id, hmode, update_self]
    · have hr : r.1 = none := hnone
      rw [h10] at hr
      obtain ⟨heq, -⟩ := opEnd_none hr
      rw [heq] at hr
      obtain ⟨hf, ho, hm⟩ := createNew_none h8 hr
      show r.2.feat = v.feat ∧ r.2.opMods < r.2.mods
      rw [h10, heq]
      exact ⟨hf.trans h7, by omega⟩
    · show r.2.dead = true ∨ r.2.used e.pick = false
      by_cases hc : (createNew u (e.inUse d) d a k 0 e.pick).1 = none
      · -- the commit at the end of the inner operation has failed
        left
        rw [h10]
        exact opEnd_failed hc (by rw [← h10]; exact hsome)
      · rw [h10]
        exact (opEnd_lands (createNew_some h8 hdi h9 hc)).2

@[simp] theorem codeOf_resultOf (i : Ino) (r : Option Err × Vol) :
    codeOf (resultOf i r).1 = r.1.map Code.fs := by
  obtain ⟨rc, v⟩ := r
  cases rc <;> rfl

@[simp] theorem resultOf_vol (i : Ino) (r : Option Err × Vol) : (resultOf i r).2 = r.2 := by
  obtain ⟨rc, v⟩ := r
  cases rc <;> rfl

theorem bare_mode (k : NewKind) (hk : k = .file ∨ k = .directory) :
    k.mode 0 ≠ 0 ∧ k.mode 0 % 0x1000 = 0 ∧ hasSetgid (k.mode 0) = false := by
  rcases hk with rfl | rfl
  · exact ⟨by decide, by decide, by decide⟩
  · exact ⟨by decide, by decide, by decide⟩

theorem Added.perm {i m o g : Nat} {x : Vol} (h : Added v d a i w)
    (hns : x.toNs = { w.toNs with mode := update w.mode i m }) (huid : x.uid = update w.uid i o)
    (hgid : x.gid = update w.gid i g) : Added v d a i x where
  free := h.free
  fresh := h.fresh
  frame := ⟨by rw [hns]; exact h.frame.entries,
    fun j hj => by rw [hns]; exact (update_of_ne hj ..).trans (h.frame.mode j hj),
    fun j hj hu => h.frame.used j hj (by rwa [hns] at hu),
    fun j hj => by rw [hns]; exact h.frame.dotdot j hj⟩
  uid j hj := by rw [huid, update_of_ne hj, h.uid j hj]
  gid j hj := by rw [hgid, update_of_ne hj, h.gid j hj]

/-- A new inode whose owner was not stored: its volume is aborted, or it is free again. -/
theorem bare_allowed {i : Ino} {k : NewKind} {x : Vol} (hk : k = .file ∨ k = .directory)
    (h : Added v d a i w) (hedit : MayEdit c v d) (hlive : v.dead = false)
    (hmode : w.mode i = k.mode 0) (huid : w.uid i = 0) (hgid : w.gid i = 0)
    (hns : x.toNs = w.toNs) (hu : x.uid = w.uid) (hg : x.gid = w.gid)
    (hend : x.dead = true ∨ x.used i = false) : Allowed c v (rc.map .fs) x := by
  obtain ⟨-, hperm, hbit⟩ := bare_mode k hk
  have hx : Added v d a i x := h.perm (m := w.mode i) (o := w.uid i) (g := w.gid i)
    (by rw [update_eq_self, hns]) (by rw [update_eq_self, hu]) (by rw [update_eq_self, hg])
  have hxm : x.mode i = k.mode 0 := by rw [hns, hmode]
  refine hx.allowed hedit (fun hused => .inr ⟨hlive, hend.resolve_right (by simp [hused]),
    by rw [hu, huid], by rw [hg, hgid], by rw [hxm, hperm]⟩) fun _ hb => ?_
  rw [hxm, hbit] at hb
  cases hb

theorem createOwned_allowed {isDir : Bool} (hc : c.caps = 0) (hedit : MayEdit c v d)
    (hlive : v.dead = false) :
    Allowed c v (codeOf (createOwned v env c d (v.stat d) a mode isDir).1)
      (createOwned v env c d (v.stat d) a mode isDir).2 := by
  have hk : (if isDir then NewKind.directory else .file) = .file ∨
      (if isDir then NewKind.directory else .file) = .directory := by cases isDir <;> simp
  have hkd : (if isDir then NewKind.directory else .file).mode 0 =
      if isDir then 0x4000 else 0x8000 := by cases isDir <;> rfl
  unfold createOwned
  generalize (if isDir then NewKind.directory else .file) = k at hk hkd
  cases hb : opBegin v.toFs env.outer with
  | mk e s =>
  cases e with
  | some e =>
    obtain rfl := opBegin_some hb
    exact allowed_core (e := some e) rfl rfl rfl
  | none =>
    obtain ⟨rfl, -, -⟩ := opBegin_none hb
    simp only [codeOf_resultOf, resultOf_vol]
    have hcases := createBare_cases (v := { v with opMods := v.mods }) env.inner d a hk
    generalize createBare { v with opMods := v.mods } env.inner d a k = r at hcases
    obtain ⟨rc, w⟩ := r
    rcases hcases with ⟨hrc, hns, hu, hg⟩ | ⟨hadd, hvalid, hmode, hu, hg, hok, hfail⟩
    · cases rc with
      | none => exact absurd rfl hrc
      | some e =>
        obtain ⟨hns', hu', hg'⟩ := opEnd_toNs_vol env.outer (some e, w)
        exact allowed_core (hns'.trans hns) (hu'.trans hu) (hg'.trans hg)
    have hadd' : Added v d a env.inner.pick w := ⟨hadd.free, hadd.fresh, hadd.frame, hadd.uid, hadd.gid⟩
    cases rc with
    | some e =>
      obtain ⟨hns', hu', hg'⟩ := opEnd_toNs_vol env.outer (some e, w)
      refine bare_allowed hk hadd' hedit hlive hmode hu hg hns' hu' hg' ?_
      exact (hfail (by simp)).imp (fun hd => opEnd_dead (.inl hd)) fun hd => by rw [hns']; exact hd
    | none =>
      obtain ⟨hfeat, hmods⟩ := hok rfl
      simp only at hfeat hmods hmode
      have hgot : iget w.toFs env.inner.pick none = none := by
        have hv : inoValid w.toFs env.inner.pick = true := by
          unfold inoValid at hvalid ⊢
          rw [hfeat]
          exact hvalid
        unfold iget
        rw [if_neg (by simp [hv]), hmode]
        simp [(bare_mode k hk).1]
      cases hown : env.owning with
      | some f =>
        simp only [setOwnerInOp]
        obtain ⟨hns', hu', hg'⟩ := opEnd_toNs_vol env.outer
          (some f.err, { w with toFs := w.toFs.harm f.harm })
        refine bare_allowed hk hadd' hedit hlive hmode hu hg (hns'.trans (harm_toNs ..)) hu' hg'
          (.inl (opEnd_dead ?_))
        rcases f.aborts with ha | hd
        · cases hh : f.harm with
          | clean => exact .inr ⟨ha, by simp only [Fs.harm]; omega⟩
          | wrote => exact .inr ⟨ha, by simp only [Fs.harm]; omega⟩
          | died => exact .inl rfl
        · rw [hd]
          exact .inl rfl
      | none =>
        simp only [hgot, setOwnerInOp]
        obtain ⟨hns', hu', hg'⟩ := opEnd_toNs_vol env.outer (none, ({ w with
          uid := update w.uid env.inner.pick c.uid
          gid := update w.gid env.inner.pick (newGid c (v.stat d))
          mode := update w.mode env.inner.pick (w.mode env.inner.pick / 0x1000 * 0x1000 +
            newPerm c (v.stat d) mode isDir % 0x1000)
          mods := w.mods + 1 } : Vol))
        generalize Vol.opEnd env.outer _ = r at hns' hu' hg' ⊢
        dsimp only at hns' hu' hg'
        have hmodes := congrArg Ns.mode hns'
        dsimp only at hmodes
        refine (hadd'.perm hns' hu' hg').allowed hedit
          (fun _ => .inl (by rw [hu', update_self])) fun hd hbit => ?_
        rw [hg', update_self]
        rw [Ns.isDir, hmodes, update_self, isDirMode_perm, hmode, hkd] at hd
        rw [hasSetgid, hmodes, update_self, testBit_perm _ _ (by decide)] at hbit
        cases isDir with
        | true => simp [isDirMode] at hd
        | false => exact newPerm_setgid hc hbit

/-! ### Opening -/

variable (env) in
theorem truncateFile_same (i : Ino) : (truncateFile v env i).2.toNs = v.toNs ∧
    (truncateFile v env i).2.uid = v.uid ∧ (truncateFile v env i).2.gid = v.gid := by
  have hmode : v.mode i / 0x1000 * 0x1000 + v.mode i % 0x1000 = v.mode i := by omega
  have hns := dataUpdate_toNs (s := v.toFs) env.inner i (v.mode i) env.nblocks env.runs
    env.truncated
  rw [hmode, update_eq_self, or_self] at hns
  unfold truncateFile
  split
  · rename_i e s h
    rw [h] at hns
    exact ⟨hns, rfl, rfl⟩
  · rename_i s h
    rw [h] at hns
    exact ⟨hns, rfl, rfl⟩

theorem openFound_allowed {i : Ino} :
    Allowed c v (codeOf (openFound v env c i oflags).1) (openFound v env c i oflags).2 := by
  have hquiet : Quiet v (do
      v.demand (if oflags &&& SFS_O_CREATE ≠ 0 ∧ oflags &&& SFS_O_EXCL ≠ 0 then some (.fs .exist)
        else none)
      let st ← sfsStat v i (env.fault .victim)
      v.demand (openType st.mode oflags)
      v.demand (sfsPermissionSt c st (openMask oflags))
      v.demand (if openMask oflags &&& SFS_MAY_WRITE ≠ 0 ∧ v.ro then some (.fs .roFs) else none)
      return st) :=
    (quiet_demand _).bind fun _ => (sfsStat_quiet i _).bind fun _ => (quiet_demand _).bind fun _ =>
      (quiet_demand _).bind fun _ => (quiet_demand _).bind fun _ => quiet_pure _
  unfold openFound
  simp only
  split
  · rename_i rc w h
    exact (hquiet rc w h).allowed
  · split
    · rw [codeOf_resultOf, resultOf_vol]
      obtain ⟨hns, hu, hg⟩ := truncateFile_same (v := v) env i
      exact allowed_core hns hu hg
    · exact allowed_same none rfl rfl rfl fun _ => rfl

theorem openNew_quiet : Quiet v (openNew v c dst oflags) :=
  (quiet_demand _).bind fun _ => (quiet_demand _).bind fun _ => quiet_demand _

theorem openNew_ok (h : openNew v c dst oflags = .ok u) :
    sfsPermissionSt c dst (SFS_MAY_WRITE ||| SFS_MAY_EXEC) = none := by
  obtain ⟨_, -, h⟩ := reads_bind h
  obtain ⟨_, hperm, -⟩ := reads_bind h
  exact demand_ok hperm

theorem sfsOpenAs_allowed (hc : c.caps = 0) :
    Allowed c v (codeOf (sfsOpenAs v env c d a oflags mode).1)
      (sfsOpenAs v env c d a oflags mode).2 := by
  unfold sfsOpenAs
  split
  · exact allowed_same (some _) rfl rfl rfl fun _ => rfl
  cases hdir : dirCheck v (env.fault .dirStat) c d false with
  | error x => exact (dirCheck_quiet _ d false _ _ hdir).allowed
  | ok dst =>
    obtain ⟨rfl, hlive, -, -⟩ := dirCheck_ok hdir
    cases hl : sfsLookup v d a (env.fault .getDir) (env.fault .lookup) with
    | ok i => exact openFound_allowed
    | error x =>
      obtain ⟨rc, w⟩ := x
      simp only
      split
      · rename_i hrc
        rw [hrc.1] at hl
        obtain ⟨rfl, -⟩ := sfsLookup_noEnt hl
        split
        · rename_i rc' w' hn
          exact (openNew_quiet _ _ hn).allowed
        · rename_i hn
          exact createOwned_allowed hc (mayEdit_of_permission hc (openNew_ok hn)) hlive
      · exact (sfsLookup_quiet _ _ _ _ _ _ hl).allowed

theorem sfsMkdirAs_allowed (hc : c.caps = 0) :
    Allowed c v (codeOf (sfsMkdirAs v env c d a mode).1) (sfsMkdirAs v env c d a mode).2 := by
  unfold sfsMkdirAs
  cases hdir : dirCheck v (env.fault .dirStat) c d true with
  | error x => exact (dirCheck_quiet _ d true _ _ hdir).allowed
  | ok dst =>
    obtain ⟨rfl, hlive, -, hperm⟩ := dirCheck_ok hdir
    cases hl : sfsLookup v d a (env.fault .getDir) (env.fault .lookup) with
    | ok i => exact allowed_same (some _) rfl rfl rfl fun _ => rfl
    | error x =>
      obtain ⟨rc, w⟩ := x
      simp only
      split
      · exact (sfsLookup_quiet _ _ _ _ _ _ hl).allowed
      · rename_i hrc
        rw [not_not] at hrc
        rw [hrc] at hl
        obtain ⟨rfl, -⟩ := sfsLookup_noEnt hl
        split
        · exact allowed_same (some _) rfl rfl rfl fun _ => rfl
        · exact createOwned_allowed hc (mayEdit_of_permission hc hperm) hlive

/-! ### Every call -/

/-- **What a call may do**, on any volume and however its accesses turn out. -/
theorem stepAs_allowed (hc : c.caps = 0) (v : Vol) (env : AsEnv) (call : AsCall) :
    Allowed c v (stepAs v env c call).1 (stepAs v env c call).2 := by
  cases call with
  | openAs d a oflags mode => exact sfsOpenAs_allowed hc
  | mkdir d a mode => exact sfsMkdirAs_allowed hc
  | unlink d a => exact sfsUnlinkAs_allowed hc
  | rmdir d a => exact sfsRmdirAs_allowed hc
  | rename od oname nd nname replace => exact sfsRenameAs_allowed hc
  | chmod i mode => exact sfsChmodAs_allowed hc
  | chown i uid gid => exact sfsChownAs_allowed hc

end Calls
section Runs

variable {v w : Vol} {c : Cred}

theorem stepAs_dead (hd : v.dead = true) (env : AsEnv) (call : AsCall) :
    (stepAs v env c call).2 = v := by
  cases call with
  | openAs d a oflags mode =>
    obtain ⟨rc, h⟩ := dirCheck_closed c (env.fault .dirStat) d false hd
    simp only [stepAs, sfsOpenAs, h]
    split <;> rfl
  | mkdir d a mode =>
    obtain ⟨rc, h⟩ := dirCheck_closed c (env.fault .dirStat) d true hd
    simp only [stepAs, sfsMkdirAs, h]
  | unlink d a =>
    obtain ⟨rc, h⟩ := mayDelete_closed env c d a hd
    simp only [stepAs, sfsUnlinkAs, Vol.checked, h]
  | rmdir d a =>
    obtain ⟨rc, h⟩ := mayDelete_closed env c d a hd
    simp only [stepAs, sfsRmdirAs, Vol.checked, h]
  | rename od oname nd nname replace =>
    obtain ⟨rc, h⟩ := mayRename_closed env c od nd oname nname replace hd
    simp only [stepAs, sfsRenameAs, Vol.checked, h]
  | chmod i mode =>
    obtain ⟨rc, h⟩ := mayChmod_closed env c i hd
    simp only [stepAs, sfsChmodAs, h]
  | chown i uid gid =>
    obtain ⟨rc, h⟩ := mayChown_closed env c i uid gid hd
    simp only [stepAs, sfsChownAs, h]

/-- What a call of `c` may do to a mount `m`: an aborted volume stays as it is, a call that
leaves the volume mounted is allowed, and so is what a commit wrote in the midst of it. -/
structure Lawful (c : Cred) (m : Mount) (rc : Option Code) (m' : Mount) : Prop where
  dead : m.vol.dead = true → m' = m
  alive : m'.vol.dead = false → Allowed c m.vol rc m'.vol
  denied : rc = some .acces ∨ rc = some .perm → m'.shown = m.shown
  disk : m.vol.dead = false → m'.disk = m.disk ∨ ∃ rc', Allowed c m.vol rc' m'.disk

theorem step_lawful (hc : c.caps = 0) (m : Mount) (env : MountEnv) (call : AsCall) :
    Lawful c m (m.step env c call).1 (m.step env c call).2 where
  dead hd := by
    have hv := stepAs_dead (c := c) hd env.toAsEnv call
    simp only [Mount.step, hv, hd, if_true]
  alive _ := stepAs_allowed hc m.vol env.toAsEnv call
  denied hrc := by
    have hv : (m.step env c call).2.vol = m.vol :=
      (stepAs_allowed hc m.vol env.toAsEnv call).denied hrc
    unfold Mount.shown
    rw [hv]
    split
    · rename_i hd
      exact if_pos hd
    · rfl
  disk hd := by
    simp only [Mount.step, hd, Bool.false_eq_true, if_false]
    split
    · exact .inr ⟨_, stepAs_allowed hc m.vol env.toAsEnv call⟩
    · cases env.midway with
      | some cut => exact .inr ⟨_, stepAs_allowed hc m.vol cut call⟩
      | none => exact .inl rfl

/-- Whose the inodes in use are: as on the mount `m`, or of `c`, or unowned. -/
def Owned (c : Cred) (m : Mount) (v : Vol) : Prop :=
  ∀ i, v.used i = true → (m.vol.used i = true ∧ v.uid i = m.vol.uid i) ∨
    (m.disk.used i = true ∧ v.uid i = m.disk.uid i) ∨ v.uid i = c.uid ∨ Unowned v i

theorem Owned.allowed {m : Mount} {rc : Option Code} (h : Owned c m v) (hlive : v.dead = false)
    (hw : Allowed c v rc w) : Owned c m w := by
  intro i hi
  cases hv : v.used i with
  | true =>
    have hu := hw.owner i hv
    rw [hu]
    refine (h i hv).imp_right (Or.imp_right (Or.imp_right fun hun => ?_))
    have hdead := hun.1
    rw [hlive] at hdead
    cases hdead
  | false => exact .inr (.inr ((hw.made i hv hi).imp_right And.right))

theorem run_owned (hc : c.caps = 0) (m : Mount) (calls : List (MountEnv × AsCall)) :
    ((m.run c calls).vol.dead = false → Owned c m (m.run c calls).vol) ∧
      Owned c m (m.run c calls).disk := by
  induction calls using List.reverseRecOn with
  | nil => exact ⟨fun _ i hi => .inl ⟨hi, rfl⟩, fun i hi => .inr (.inl ⟨hi, rfl⟩)⟩
  | append_singleton calls call ih =>
    have hrun : m.run c (calls ++ [call]) = ((m.run c calls).step call.1 c call.2).2 :=
      List.foldl_append
    rw [hrun]
    have hstep := step_lawful hc (m.run c calls) call.1 call.2
    cases hd : (m.run c calls).vol.dead with
    | true =>
      rw [hstep.dead hd]
      exact ih
    | false =>
      refine ⟨fun hd' => (ih.1 hd).allowed hd (hstep.alive hd'), ?_⟩
      obtain heq | ⟨rc, hdisk⟩ := hstep.disk hd
      · rw [heq]
        exact ih.2
      · exact (ih.1 hd).allowed hd hdisk

/-- **The access policy**: every call of a run of `c` is lawful, and what can be read after the run
has inodes with the owners they had, of `c`, or, where the volume was aborted, unowned. -/
theorem runAs_allowed (hc : c.caps = 0) (m : Mount) (calls : List (MountEnv × AsCall)) :
    (∀ pre call post, calls = pre ++ call :: post →
      Lawful c (m.run c pre) ((m.run c pre).step call.1 c call.2).1 (m.run c (pre ++ [call]))) ∧
    ∀ i, (m.run c calls).shown.used i = true →
      (m.vol.used i = true ∧ (m.run c calls).shown.uid i = m.vol.uid i) ∨
        (m.disk.used i = true ∧ (m.run c calls).shown.uid i = m.disk.uid i) ∨
        (m.run c calls).shown.uid i = c.uid ∨
        ((m.run c calls).vol.dead = true ∧ Unowned (m.run c calls).shown i) := by
  constructor
  · rintro pre call post -
    have hrun : m.run c (pre ++ [call]) = ((m.run c pre).step call.1 c call.2).2 :=
      List.foldl_append
    rw [hrun]
    exact step_lawful hc _ call.1 call.2
  · obtain ⟨hvol, hdisk⟩ := run_owned hc m calls
    unfold Mount.shown
    cases hd : (m.run c calls).vol.dead with
    | true => exact fun i hi => (hdisk i hi).imp_right (Or.imp_right (Or.imp_right fun hun => ⟨rfl, hun⟩))
    | false =>
      intro i hi
      refine (hvol hd i hi).imp_right (Or.imp_right (Or.imp_right fun hun => ?_))
      have hdead := hun.1
      rw [hd] at hdead
      cases hdead

end Runs

/-! ### A volume of two users -/

/-- A credential without capabilities and without supplementary groups. -/
def alice : Cred := ⟨1000, 1000, 0, fun _ => 0, 0⟩

/-- The root directory is everybody's, and holds two directories of user 1000; the first of
them grants its owner write and no search. -/
def shared : Vol where
  mode i := if i = 2 then 0o40777 else if i = 12 then 0o40200 else if i = 13 then 0o40700 else 0
  links i := if i = 2 then 4 else if i = 12 ∨ i = 13 then 2 else 0
  dotdot _ := 2
  used i := i = 2 ∨ i = 12 ∨ i = 13
  entries := [⟨2, [97], 12, 2⟩, ⟨2, [98], 13, 2⟩]
  feat := ⟨false, true, true, true, 12, 11, 32⟩
  index _ := false
  «sealed» _ := false
  dtime _ := 0
  nblocks _ := 1
  runs _ := [1]
  lastOrphan := 0
  dead := false
  ro := false
  mods := 0
  opMods := 0
  uid i := if i = 2 then 0 else 1000
  gid i := if i = 2 then 0 else 1000
  size _ := 4096

/-- Every access goes through, but for those in `fault`. -/
def envWith (fault : Site → Option Fault) : Env := ⟨fault, fun _ => none, 11, 1, true, false, 1, [1]⟩

def asEnvWith (fault : Site → Option Fault) : AsEnv :=
  ⟨fun _ => none, envWith fault, envWith fun _ => none, none, none, 0, 0, []⟩

def commitFails (site : Site) : Option Fault :=
  if site = .commit then some ⟨⟨.io, .clean⟩, nofun⟩ else none

/-- A call whose accesses go through, without a commit. -/
def quietly : MountEnv := ⟨asEnvWith fun _ => none, false, none⟩

/-- The transaction is written when the inner operation of the creation ends. -/
def committedInside : MountEnv :=
  ⟨asEnvWith fun _ => none, false,
    some { asEnvWith fun _ => none with owning := some ⟨⟨⟨.io, .clean⟩, nofun⟩, .inl rfl⟩ }⟩

theorem runAs_allowed_shared :
    let m := (Mount.mk shared shared).run alice [(quietly, .openAs 2 [99] SFS_O_CREATE 0o644)]
    Lawful alice ⟨shared, shared⟩
      ((Mount.mk shared shared).step quietly alice (.openAs 2 [99] SFS_O_CREATE 0o644)).1 m ∧
    m.vol.dead = false ∧ m.shown.used 11 = true ∧ m.shown.uid 11 = 1000 :=
  ⟨(runAs_allowed rfl ⟨shared, shared⟩ [(quietly, .openAs 2 [99] SFS_O_CREATE 0o644)]).1 [] _ [] rfl,
    by decide +kernel, by decide +kernel, by decide +kernel⟩

/-- A commit inside a creation and the abort of the volume by a later call leave an inode of
user 0, and moving a directory rewrites its `..` with no search permission on it. -/
theorem created_unowned :
    (¬∀ (c : Cred) (v : Vol) (calls : List (MountEnv × AsCall)), c.caps = 0 →
      ∀ i, v.used i = false → ((Mount.mk v v).run c calls).shown.used i = true →
        ((Mount.mk v v).run c calls).shown.uid i = c.uid) ∧
    ¬∀ (c : Cred) (v : Vol) (env : AsEnv) (call : AsCall), c.caps = 0 →
      ∀ d, v.used d = true → (stepAs v env c call).2.dotdot d ≠ v.dotdot d → MayEdit c v d := by
  constructor
  · intro h
    have h11 := h alice shared [(committedInside, .openAs 2 [99] SFS_O_CREATE 0o644),
      (⟨asEnvWith commitFails, false, none⟩, .chmod 11 0)] rfl 11 (by decide +kernel) (by decide +kernel)
    revert h11
    decide +kernel
  · intro h
    have h12 := (h alice shared (asEnvWith fun _ => none) (.rename 2 [97] 13 [97] false) rfl 12
      (by decide +kernel) (by decide +kernel)).2
    unfold Grants at h12
    revert h12
    decide +kernel

end Win98Modern.Libsfs
