import Win98Modern.Kernel64.VadPlace

/-!
# Runs of the descriptor calls

`Sound p` says that the descriptor array of a process has the right shape and
that the hint for base-less requests is inside the user range.  It holds of
`vad_init` and is kept by every call that is `Admitted`:

* `vad_free`, `vad_protect` and `vad_remove_view` always are;
* `vad_insert_fixed` and `vad_insert_image` are when the descriptor `Joins` the
  array, as the loader sees to: it names its own start as allocation base, or
  extends an allocation that is there at one of its edges;
* `vad_alloc` is when it does not land in a hole of an allocation that is still
  being built, and, for a base-less `MEM_TOP_DOWN` request, when the user range
  has room for it.

The last condition is not the caller's to keep: a top-down request for which
there is no room wraps below zero and installs a descriptor that ends before it
begins.
-/

namespace Win98Modern.Kernel64

open List

/-! ### Calls and runs -/

/-- A call on the descriptors of one process, with the outcome of each `kzalloc`. -/
inductive Call
  | alloc (base size type prot : Nat) (kind : VadKind) (kz kz' : Bool)
  | insertFixed (start size : Nat) (state : VadState) (prot : Nat) (kind : VadKind)
      (allocBase : Nat) (kz : Bool)
  | insertImage (start size prot allocBase img : Nat) (kz : Bool)
  | free (base size type : Nat) (kz kz' : Bool)
  | protect (base size newProt : Nat) (kz kz' : Bool)
  | removeView (base : Nat)
  deriving DecidableEq, Repr

def step (p : Process) : Call → Process
  | .alloc base size type prot kind kz kz' => (vadAlloc p base size type prot kind kz kz').proc
  | .insertFixed start size state prot kind allocBase kz =>
    (vadInsertFixed p start size state prot kind allocBase kz).2
  | .insertImage start size prot allocBase img kz =>
    (vadInsertImage p start size prot allocBase img kz).2
  | .free base size type kz kz' => (vadFree p base size type kz kz').proc
  | .protect base size newProt kz kz' => (vadProtect p base size newProt kz kz').2.2
  | .removeView base => (vadRemoveView p base).2

def run (p : Process) (calls : List Call) : Process := calls.foldl step p

/-- The argument checks of `vad_alloc`. -/
def AllocArgs (base size type prot : Nat) : Prop :=
  (type / MEM_COMMIT % 2 = 1 ∨ type / MEM_RESERVE % 2 = 1) ∧ size ≠ 0 ∧ protValid prot ∧
    type = MEM_COMMIT * (type / MEM_COMMIT % 2) + MEM_RESERVE * (type / MEM_RESERVE % 2) +
      MEM_TOP_DOWN * (type / MEM_TOP_DOWN % 2) ∧
    allocLen base size ≠ 0 ∧ allocLen base size ≤ USER_TOP

/-- What a call needs of the state it is made in. -/
def Admitted (p : Process) : Call → Prop
  | .alloc base size type prot _ _ _ =>
    let len := allocLen base size
    let topDown := decide (type / MEM_TOP_DOWN % 2 = 1)
    AllocArgs base size type prot →
      if base = 0 then
        (topDown → Room p.vads len) ∧
          ∀ c, FirstFit p.vads p.mmapHint topDown len c → ¬InHole p.vads c len
      else type / MEM_RESERVE % 2 = 1 → ¬InHole p.vads (allocStart true base) len
  | .insertFixed start _ _ _ kind allocBase _ => Joins p.vads start allocBase kind
  | .insertImage start _ _ allocBase _ _ => Joins p.vads start allocBase .image
  | .free .. => True
  | .protect .. => True
  | .removeView _ => True

def RunOk : Process → List Call → Prop
  | _, [] => True
  | p, c :: calls => Admitted p c ∧ RunOk (step p c) calls

structure Sound (p : Process) : Prop where
  shape : Shape p.vads
  hint : p.mmapHint ≤ USER_TOP

theorem sound_init : Sound vadInit := ⟨shape_nil, by decide⟩

/-! ### Edits between searches -/

section Edits

variable {p q : Process}

theorem Sound.edit (h : Sound p) (hr : Reshapes p.vads q.vads) (hh : q.mmapHint = p.mmapHint) :
    Sound q :=
  ⟨hr.shape h.shape, hh ▸ h.hint⟩

theorem Sound.split (h : Sound p) {addr : Nat} (hp : PAGE_SIZE ∣ addr) {kz b : Bool}
    (hq : vadSplit p addr kz = (b, q)) : Sound q := by
  have := h.edit (vadSplit_reshapes p hp kz) (vadSplit_hint p addr kz)
  rwa [hq] at this

theorem Sound.coalesce (h : Sound p) : Sound (vadCoalesce p) :=
  h.edit (vadCoalesce_reshapes p) (vadCoalesce_hint p)

theorem Sound.walk (h : Sound p) {body : Process → Nat → Process}
    (hbody : ∀ p i, Reshapes p.vads (body p i).vads)
    (hhint : ∀ p i, (body p i).mmapHint = p.mmapHint) (a stop : Nat) : Sound (walk body p a stop) :=
  h.edit (walk_reshapes hbody p a stop) (walk_hint hhint p a stop)

end Edits

/-! ### Each call keeps the invariant -/

variable {p : Process} {start prot base size allocBase : Nat} {kz : Bool} {kind : VadKind}

theorem Sound.reserve {q : Process} (h : Sound p) {len : Nat} (hlen : 0 < len)
    (hmin : USER_MIN ≤ start) (htop : start + len ≤ USER_TOP) (hpage : PAGE_SIZE ∣ start)
    (hlenPage : PAGE_SIZE ∣ len) (hfree : Free p.vads start len) (hhole : ¬InHole p.vads start len)
    {commit : Bool}
    (hq : vadInsertAt p (vadLower p.vads start) (newVad start (start + len) commit prot kind) kz =
      some q) : Sound q := by
  have hok : (newVad start (start + len) commit prot kind).Ok :=
    ⟨hmin, Nat.lt_add_of_pos_right hlen, htop, hpage, Nat.dvd_add hpage hlenPage⟩
  refine ⟨h.shape.install hok (by simpa [newVad] using hfree)
    (h.shape.joins_new hlen hfree hhole kind) hq, ?_⟩
  rw [vadInsertAt_hint hq]
  exact h.hint

theorem allocStart_dvd (reserve : Bool) (base : Nat) : PAGE_SIZE ∣ allocStart reserve base := by
  unfold allocStart
  split
  · exact page_dvd_of_64K (floor64K_dvd _)
  · exact pageFloor_dvd _

theorem Sound.vadAlloc (h : Sound p) {type : Nat} {kz' : Bool}
    (ha : Admitted p (.alloc base size type prot kind kz kz')) :
    Sound (vadAlloc p base size type prot kind kz kz').proc := by
  have hlenPage : PAGE_SIZE ∣ allocLen base size := up_dvd _
  unfold Kernel64.vadAlloc
  simp only
  split
  · exact h
  rename_i hargs
  split
  · exact h
  rename_i hknown
  split
  · exact h
  rename_i hlen
  simp only [decide_eq_true_eq, not_or, not_not, Bool.not_eq_true] at hargs hknown hlen
  have hadm := ha ⟨by omega, hargs.2.1, by simpa using hargs.2.2, hknown, hlen.1, by omega⟩
  have htop : allocLen base size ≤ USER_TOP := by omega
  split
  · rename_i hbase
    rw [if_neg hbase] at hadm
    simp only [decide_eq_false hbase, Bool.or_false]
    generalize hres : decide (type / MEM_RESERVE % 2 = 1) = reserve
    have hstart := allocStart_dvd reserve base
    split
    · exact h
    rename_i hrange
    simp only [not_or, Nat.not_lt] at hrange
    have hstop := add64_of_le hrange.2.2 (by simp only [USER_TOP] at htop; omega)
    rw [hstop] at hrange ⊢
    split
    · rename_i hr
      subst hr
      split
      · exact h
      · rename_i hfree
        have hlt : allocStart true base < allocStart true base + allocLen base size := by omega
        have hfree := h.shape.rangeFree_iff hlt (by simpa using hfree)
        rw [Nat.add_sub_cancel_left] at hfree
        split
        · exact h
        · rename_i q hq
          exact (h.reserve (by omega) hrange.1 hrange.2.1 hstart hlenPage hfree
            (hadm (by simpa using hres)) hq).coalesce
    · split
      · exact h
      · split
        · rename_i q hq
          exact h.split hstart hq
        · rename_i q hq
          have hs := h.split hstart hq
          split
          · rename_i q' hq'
            exact hs.split (Nat.dvd_add hstart hlenPage) hq'
          · rename_i q' hq'
            have hs' := hs.split (Nat.dvd_add hstart hlenPage) hq'
            exact (hs'.walk (commitOne_reshapes prot) (commitOne_hint prot) _ _).coalesce
  · rename_i hbase
    rw [if_pos (by simpa using hbase)] at hadm
    split
    · exact h
    · rename_i cand hcand
      have hfit := h.shape.chooseBase htop
        (Shape.first_candidate htop h.hint hadm.1) hcand
      have hhole := hadm.2 _ hfit
      obtain ⟨haligned, hmin, hctop, hfree, -⟩ := hfit
      have hstop := add64_eq (a := cand) (b := allocLen base size)
        (by simp only [USER_TOP] at hctop; omega)
      simp only [hstop]
      split
      · exact h
      · rename_i q hq
        have hs := h.reserve (by omega) hmin hctop (page_dvd_of_64K haligned) hlenPage hfree hhole hq
        refine Sound.coalesce ?_
        split
        · exact hs
        · exact ⟨hs.shape, hctop⟩

theorem Sound.vadInsertFixed (h : Sound p) (hj : Joins p.vads start allocBase kind) (size : Nat)
    (state : VadState) (prot : Nat) (kz : Bool) :
    Sound (vadInsertFixed p start size state prot kind allocBase kz).2 := by
  unfold Kernel64.vadInsertFixed
  simp only
  split
  · exact h
  rename_i hrange
  simp only [not_or, not_not, Nat.not_lt, Nat.not_le] at hrange
  obtain ⟨hpage, hmin, htop, hlt⟩ := hrange
  split
  · exact h
  rename_i hfree
  split
  · exact h
  · rename_i q hq
    have hstart := Nat.dvd_of_mod_eq_zero hpage
    have hfree := h.shape.rangeFree_iff hlt (by simpa using hfree)
    have hok : Vad.Ok ⟨start, add64 start (up size), state, prot, kind, prot, allocBase, 0⟩ :=
      ⟨hmin, hlt, htop, hstart, add64_dvd hstart (up_dvd _)⟩
    refine ⟨h.shape.install hok hfree hj hq, ?_⟩
    rw [vadInsertAt_hint hq]
    exact h.hint

theorem Sound.vadInsertImage (h : Sound p) {img : Nat} (hj : Joins p.vads start allocBase .image) :
    Sound (vadInsertImage p start size prot allocBase img kz).2 := by
  have hs := h.vadInsertFixed hj size .committed prot kz
  unfold Kernel64.vadInsertImage
  split
  · rename_i q hq
    rw [hq] at hs
    split
    · rename_i i v hv
      exact hs.edit (set_reshapes (vadFind_some hv).1 rfl rfl rfl Iff.rfl) rfl
    · exact hs
  · rename_i st q _ hq
    rwa [hq] at hs

theorem Sound.release (h : Sound p) {i : Nat} {v : Vad} (hv : vadFind p.vads base = some (i, v))
    (hb : v.allocBase = base) : (releaseLoop base (vadLower p.vads v.start) p v.start).1.vads =
      p.vads.filter (fun w => w.allocBase ≠ base) := by
  have hmem := vadFind_mem hv
  have hstart : v.start = base := by
    have := h.shape.base_le v hmem
    have := (vadFind_some hv).2.1
    omega
  obtain ⟨l, r, hlr, hlen, hl, hr⟩ := h.shape.lower v.start
  have hpos := h.shape.pos v hmem
  have hvr : v ∈ r := by
    rw [hlr] at hmem
    rcases mem_append.1 hmem with hm | hm
    · have := hl v hm; omega
    · exact hm
  cases r with
  | nil => simp at hvr
  | cons w r =>
    have hwv : w = v := by
      rcases mem_cons.1 hvr with rfl | hm
      · rfl
      · have hord := h.shape.ordered
        rw [hlr] at hord
        have := (ordered_cons.1 (ordered_append.1 hord).2.1).1 v hm
        have := hr w mem_cons_self
        omega
    subst hwv
    have hshape := h.shape
    rw [hlr] at hshape
    rw [hlen, releaseLoop_vads base (w :: r) l p w.start hlr, hlr,
      hshape.alloc_prefix hstart hb]

theorem Sound.vadFree (h : Sound p) (base size type : Nat) (kz kz' : Bool) :
    Sound (vadFree p base size type kz kz').proc := by
  unfold Kernel64.vadFree
  simp only
  split
  · exact h
  split
  · exact h
  split
  · split
    · exact h
    · rename_i i v hv
      split
      · exact h
      rename_i hb
      split
      · exact h
      · refine ⟨?_, by simpa only [releaseLoop_hint] using h.hint⟩
        rw [h.release hv (by simpa using hb)]
        exact h.shape.remove_alloc base
  split
  · split
    · exact h
    split
    · exact h
    split
    · rename_i q hq
      exact h.split (pageFloor_dvd _) hq
    · rename_i q hq
      have hs := h.split (pageFloor_dvd _) hq
      split
      · rename_i q' hq'
        exact hs.split (up_dvd _) hq'
      · rename_i q' hq'
        exact ((hs.split (up_dvd _) hq').walk decommitOne_reshapes decommitOne_hint _ _).coalesce
  · exact h

theorem Sound.vadProtect (h : Sound p) (base size newProt : Nat) (kz kz' : Bool) :
    Sound (vadProtect p base size newProt kz kz').2.2 := by
  unfold Kernel64.vadProtect
  simp only
  split
  · exact h
  split
  · exact h
  split
  · rename_i q hq
    exact h.split (pageFloor_dvd _) hq
  · rename_i q hq
    have hs := h.split (pageFloor_dvd _) hq
    split
    · rename_i q' hq'
      exact hs.split (up_dvd _) hq'
    · rename_i q' hq'
      exact ((hs.split (up_dvd _) hq').walk (fun q i => vadApplyProt_reshapes q i newProt)
        (fun q i => vadApplyProt_hint q i newProt) _ _).coalesce

theorem dropWhile_congr_mem {α : Type*} {f g : α → Bool} {xs : List α}
    (h : ∀ x ∈ xs, f x = g x) : xs.dropWhile f = xs.dropWhile g := by
  induction xs with
  | nil => rfl
  | cons x xs ih =>
    rw [dropWhile_cons, dropWhile_cons, h x mem_cons_self,
      ih fun y hy => h y (mem_cons_of_mem _ hy)]

theorem Shape.remove_view (h : Shape p.vads) (base : Nat) : (vadRemoveView p base).2.vads = p.vads ∨
      (vadRemoveView p base).2.vads = p.vads.filter (fun v => v.allocBase ≠ base) := by
  obtain ⟨l, r, hlr, hlen, hl, hr⟩ := h.lower base
  have hvads := removeViewLoop_vads base r l p false hlr
  rw [← hlen] at hvads
  have heq : (vadRemoveView p base).2.vads =
      l ++ r.dropWhile (fun v => v.allocBase = base ∧ v.kind = .view) := hvads
  rw [heq, hlr]
  cases r with
  | nil => exact .inl rfl
  | cons v r =>
    by_cases hv : v.allocBase = base ∧ v.kind = .view
    · right
      rw [hlr] at h
      have hmem : v ∈ l ++ v :: r := by simp
      -- the first descriptor of the allocation is at or after `v`, so it is `v`
      have hstart : v.start = base := by
        obtain ⟨h0, hh0, hs, -⟩ := h.head v hmem
        rw [hv.1] at hs
        have hbase := h.base_le v hmem
        have hord := h.ordered
        rw [ordered_around] at hord
        have hv0 := h.pos v hmem
        have hh := h.pos h0 hh0
        rcases mem_append.1 hh0 with hm | hm
        · have := hl h0 hm; omega
        · rcases mem_cons.1 hm with rfl | hm
          · exact hs
          · have := hord.2.2 h0 hm; omega
      rw [h.alloc_prefix hstart hv.1]
      have hsame : ∀ w ∈ v :: r, (decide (w.allocBase = base ∧ w.kind = .view)) =
          decide (w.allocBase = base) := by
        intro w hw
        have hview := h.view w (by simp only [mem_append]; exact .inr hw) v hmem
        by_cases hb : w.allocBase = base
        · have := (hview (by rw [hb, hv.1])).2 hv.2
          simp [hb, this]
        · simp [hb]
      rw [dropWhile_congr_mem hsame]
    · left
      rw [dropWhile_cons_of_neg (by simpa using hv)]

theorem Sound.vadRemoveView (h : Sound p) (base : Nat) : Sound (vadRemoveView p base).2 := by
  refine ⟨?_, by
    show (removeViewLoop base _ p false).1.mmapHint ≤ USER_TOP
    rw [removeViewLoop_hint]; exact h.hint⟩
  rcases h.shape.remove_view base with he | he
  · rw [he]; exact h.shape
  · rw [he]; exact h.shape.remove_alloc base

/-! ### Runs -/

theorem Sound.step {p : Process} {c : Call} (h : Sound p) (ha : Admitted p c) :
    Sound (step p c) := by
  cases c with
  | alloc => exact h.vadAlloc ha
  | insertFixed => exact h.vadInsertFixed ha ..
  | insertImage => exact h.vadInsertImage ha
  | free => exact h.vadFree ..
  | protect => exact h.vadProtect ..
  | removeView => exact h.vadRemoveView _

theorem Sound.run {calls : List Call} : ∀ {p : Process}, Sound p → RunOk p calls →
    Sound (run p calls) := by
  induction calls with
  | nil => intro p h _; exact h
  | cons c calls ih => intro p h hr; exact ih (h.step hr.1) hr.2

/-- What the callers of `vad_find` rely on, by index: descriptors inside the
user range with page-aligned bounds, in address order and disjoint, those of one
allocation in consecutive places. -/
structure Descriptors (vads : List Vad) : Prop where
  ok : ∀ v ∈ vads, v.Ok
  sorted : ∀ i j (hi : i < j) (hj : j < vads.length), vads[i].stop ≤ vads[j].start
  consecutive : ∀ i j k (hij : i < j) (hjk : j < k) (hk : k < vads.length),
    vads[i].allocBase = vads[k].allocBase → vads[j].allocBase = vads[i].allocBase

theorem Shape.descriptors {vads : List Vad} (h : Shape vads) : Descriptors vads where
  ok := h.ok
  sorted := fun i j hi hj => pairwise_iff_getElem.1 h.ordered i j (by omega) hj hi
  consecutive := by
    intro i j k hij hjk hk he
    have hpair := pairwise_iff_getElem.1 h.ordered
    have h1 := hpair i j (by omega) (by omega) hij
    have h2 := hpair j k (by omega) hk hjk
    have hi := h.pos _ (getElem_mem (l := vads) (n := i) (by omega))
    have hj := h.pos _ (getElem_mem (l := vads) (n := j) (by omega))
    exact h.runs _ (getElem_mem (by omega)) _ (getElem_mem (by omega)) _
      (getElem_mem hk) (by omega) (by omega) he

/-- **Descriptor invariant**: after every admitted run of the calls, the array is
in order, and `vad_find` returns the one descriptor that contains the address,
or none when there is none. -/
theorem run_descriptors (calls : List Call) (h : RunOk vadInit calls) :
    Descriptors (run vadInit calls).vads ∧
      ∀ addr, (∀ i v, vadFind (run vadInit calls).vads addr = some (i, v) →
          v ∈ (run vadInit calls).vads ∧ v.start ≤ addr ∧ addr < v.stop ∧
            ∀ w ∈ (run vadInit calls).vads, w.start ≤ addr → addr < w.stop → w = v) ∧
        (vadFind (run vadInit calls).vads addr = none →
          ∀ v ∈ (run vadInit calls).vads, ¬(v.start ≤ addr ∧ addr < v.stop)) := by
  have hs := (sound_init.run h).shape
  refine ⟨hs.descriptors, fun addr => ⟨fun i v hv => ?_, fun hnone v hv hin => ?_⟩⟩
  · obtain ⟨hmem, hlo, hhi⟩ := (hs.find_iff addr v).1 ⟨i, hv⟩
    exact ⟨hmem, hlo, hhi, fun w hw hwlo hwhi =>
      hs.ordered.unique hw hmem ⟨hwlo, hwhi⟩ ⟨hlo, hhi⟩⟩
  · obtain ⟨i, hi⟩ := (hs.find_iff addr v).2 ⟨hv, hin⟩
    rw [hnone] at hi
    cases hi

/-- A module is mapped, a stack is reserved above it and its guard page protected. -/
theorem run_descriptors_module :
    Descriptors (run vadInit
      [.insertFixed 0x400000 0x3000 .committed PAGE_EXECUTE_READ .image 0x400000 true,
        .alloc 0 0x100000 (MEM_RESERVE + MEM_COMMIT + MEM_TOP_DOWN) PAGE_READWRITE .stack true true,
        .protect 0x7fffffe00000 0x1000 (PAGE_READWRITE + PAGE_GUARD) true true]).vads := by
  refine (run_descriptors _ ?_).1
  refine ⟨?_, ?_, trivial, trivial⟩
  · exact ⟨le_rfl, .inl rfl, by simp [vadInit], by simp [vadInit], by simp [vadInit]⟩
  · have hv : (step vadInit
        (.insertFixed 0x400000 0x3000 .committed PAGE_EXECUTE_READ .image 0x400000 true)).vads =
        [⟨0x400000, 0x403000, .committed, PAGE_EXECUTE_READ, .image, PAGE_EXECUTE_READ,
          0x400000, 0⟩] := by decide
    have hlen : allocLen 0 0x100000 = 0x100000 := by decide
    intro _
    rw [if_pos rfl, hlen, hv]
    refine ⟨fun _ => ⟨0x1000000, ⟨0x100, rfl⟩, by decide, by simp [Free]⟩, fun c _ hc => ?_⟩
    obtain ⟨a, ha, b, hb, -, h1, h2⟩ := hc
    rw [mem_singleton] at ha hb
    subst ha hb
    simp only at h1 h2
    omega

/-- Without room a `MEM_TOP_DOWN` request installs a descriptor that ends before
it begins: the subtraction in the search wraps below zero. -/
theorem run_topDown_wraps :
    ¬∀ calls, Descriptors (run vadInit calls).vads := by
  intro h
  have hbad : ∃ v ∈ (run vadInit
      [.alloc 0 0x1000 MEM_RESERVE PAGE_READWRITE .private true true,
        .alloc 0 (USER_TOP - 0x20000) (MEM_RESERVE + MEM_TOP_DOWN) PAGE_READWRITE .private
          true true]).vads, v.stop < v.start := by decide +kernel
  obtain ⟨v, hv, hlt⟩ := hbad
  have := ((h _).ok v hv).start_lt
  omega

end Win98Modern.Kernel64
