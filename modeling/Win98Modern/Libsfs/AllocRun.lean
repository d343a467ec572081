import Win98Modern.Libsfs.AllocWindows

/-!
# The allocator over runs

Counts and windows hold after any sequence of allocations, frees and commits that
did not abort the volume.  That a block just allocated is no fixed metadata and
does not wait to be freed needs more: whoever frees blocks must have them
(`FreesOwned`).  `sfs_file_write` does not keep to that: when `sfs_add_blocks`
fails it frees the blocks it has put into the extent tree, and a later truncate
frees them again.
-/

namespace Win98Modern.Libsfs.Alloc

open List

/-! ### The queue of frees -/

def Run.Has (r : Run) (b : Nat) : Prop := r.start ≤ b ∧ b < r.start + r.len

/-- The block waits in `txn.frees`. -/
def Fs.Queued (s : Fs) (b : Nat) : Prop := ∃ r ∈ s.frees.flatten, r.Has b

variable {b : Nat} {s : Fs}

theorem runpageAdd_has {pages : List (List Run)} {r : Run} :
    (∃ q ∈ (runpageAdd pages r).flatten, q.Has b) ↔ (∃ q ∈ pages.flatten, q.Has b) ∨ r.Has b := by
  cases pages with
  | nil => simp [runpageAdd]
  | cons p ps =>
    rw [runpageAdd]
    cases hlast : p.getLast? with
    | none =>
      obtain rfl := List.getLast?_eq_none_iff.1 hlast
      simp [or_comm]
    | some l =>
      obtain ⟨q, rfl⟩ := List.getLast?_eq_some_iff.1 hlast
      simp only [dropLast_concat]
      by_cases hmerge : l.metadata = r.metadata ∧ l.start + l.len = r.start ∧
          l.len + r.len ≤ 0x7FFFFFFF
      · -- the run goes on where the last one ends
        rw [if_pos hmerge]
        have hhas : Run.Has { l with len := l.len + r.len } b ↔ l.Has b ∨ r.Has b := by
          unfold Run.Has
          simp only
          omega
        simp only [flatten_cons, mem_append, mem_singleton, or_and_right, exists_or,
          exists_eq_left, hhas, or_assoc, or_left_comm, or_comm]
      · rw [if_neg hmerge]
        split
        · simp [or_comm]
        · simp only [flatten_cons, mem_append, mem_singleton, or_and_right, exists_or,
            exists_eq_left, or_assoc, or_comm]

/-- The computed bitmap of the block's group has the block free. -/
def Geo.Plain (geo : Geo) (b : Nat) : Prop :=
  geo.firstDataBlock ≤ b ∧ b < geo.nblocks ∧
    geo.computed (geo.groupOf b) (b - geo.groupFirst (geo.groupOf b)) = false

section

variable {s t : Fs} {env : Env}

variable {geo : Geo} {start n g b off len : Nat} {r : Nat × Nat}

theorem Geo.rangeValid_iff : geo.rangeValid start n = true ↔
    geo.firstDataBlock ≤ start ∧ start + n ≤ geo.nblocks := by
  unfold Geo.rangeValid
  rw [decide_eq_true_iff]
  omega

theorem Geo.mem_flexGroups (hg : g < geo.ngroups) :
    (geo.flexGroups g).1 ≤ g ∧ g < (geo.flexGroups g).2 := by
  unfold Geo.flexGroups
  split
  · have hmod := Nat.mod_lt g (Nat.two_pow_pos geo.logGroupsPerFlex)
    simp only
    omega
  · simp only
    omega

/-- What `sfs_free_blocks` accepts holds no metadata of its own groups. -/
theorem runHitsMeta_plain {count : Nat} (hv : s.geo.rangeValid start count = true)
    (h : runHitsMeta s env start count = false) (hb : start ≤ b ∧ b < start + count) :
    s.geo.Plain b := by
  rw [Geo.rangeValid_iff] at hv
  obtain ⟨hg, hin⟩ := s.geo.in_groupOf (b := b) (by omega) (by omega)
  refine ⟨by omega, by omega, ?_⟩
  obtain ⟨g, hgdef⟩ : ∃ g, g = s.geo.groupOf b := ⟨_, rfl⟩
  rw [← hgdef] at hg hin ⊢
  have hlow : s.geo.groupOf start ≤ g := by
    rw [hgdef]
    exact Nat.div_le_div_right (by omega)
  have hhigh : g ≤ s.geo.groupOf (start + count - 1) := by
    rw [hgdef]
    exact Nat.div_le_div_right (by omega)
  unfold runHitsMeta at h
  simp only [any_eq_false, mem_range'_1, Bool.or_eq_true, not_or, decide_eq_true_eq,
    Bool.not_eq_true] at h
  obtain ⟨hsuper, htables⟩ := h g (by omega)
  obtain ⟨hf1, hf2⟩ := Geo.mem_flexGroups hg
  obtain ⟨-, htable⟩ := htables g (by omega)
  have hin1 := hin.1
  have hin2 := hin.2
  have hsum : s.geo.groupFirst g + (b - s.geo.groupFirst g) = b := by omega
  unfold Geo.tableMeets at htable
  rw [decide_eq_false_iff_not] at htable
  unfold Geo.computed Geo.tableOf
  simp only [hsum, Bool.or_eq_false_iff, decide_eq_false_iff_not]
  refine ⟨⟨by omega, by omega⟩, by omega⟩

/-! ### Applying the frees -/

/-- Blocks `[b, b + n)` were freed, and nothing else happened. -/
structure Cleared (s t : Fs) (b n : Nat) : Prop where
  geo : t.geo = s.geo
  naive : t.naive = s.naive
  frees : t.frees = s.frees
  dead : t.dead = s.dead
  used : ∀ x, s.geo.firstDataBlock ≤ x → x < s.geo.nblocks →
    t.used x = if b ≤ x ∧ x < b + n then false else s.used x
  counted : Counted t
  windowed : Windowed t

theorem count_clear {map : Nat → Bool} (h : Nat.count (fun i => map (off + i) = false) len = 0) :
    ∀ i, off ≤ i → i < off + len → map i = true := by
  intro i h1 h2
  have := Nat.count_iff_forall_not.1 h (i - off) (by omega)
  rw [show off + (i - off) = i by omega] at this
  simpa using this

theorem clear_group (hc : Counted s) (hw : Windowed s) (hg : g < s.geo.ngroups)
    (hfit : off + len ≤ s.geo.groupCount g) (hb : b = s.geo.groupFirst g + off) (hn : len ≤ n)
    (hlen : 0 < len) (hplain : ∀ x, b ≤ x → x < b + n → s.geo.Plain x)
    (hones : ∀ i, off ≤ i → i < off + len → bitsOf s g i = true) : Cleared s { s with
      groups := Function.update s.groups g { s.groups g with
        free := (s.groups g).free + len
        bits := setRange (bitsOf s g) false off len
        pinned := true }
      freeBlocks := s.freeBlocks + len } b len := by
  have hin : s.geo.In b g := ⟨by omega, by omega⟩
  have hof := (Geo.groupOf_in hg hin).1
  -- in a group never initialised the block would be free
  have hinit : (s.groups g).uninit = false := by
    by_contra hu
    rw [Bool.not_eq_false] at hu
    have hbit := hones off le_rfl (by omega)
    have hp := (hplain b le_rfl (by omega)).2.2
    rw [hof, hb, Nat.add_sub_cancel_left] at hp
    unfold bitsOf at hbit
    rw [if_pos ⟨hu, by rw [hc.fresh g hu]; decide⟩, hp] at hbit
    cases hbit
  generalize hs' : ({ s with
      groups := Function.update s.groups g { s.groups g with
        free := (s.groups g).free + len
        bits := setRange (bitsOf s g) false off len
        pinned := true }
      freeBlocks := s.freeBlocks + len } : Fs) = s'
  have hgeo : s'.geo = s.geo := by rw [← hs']
  have hself : bitsOf s' g = setRange (bitsOf s g) false off len := by
    rw [← hs']
    simp [bitsOf, hinit]
  have hwrote : Wrote s s' false g off len := by
    intro g' i
    by_cases hgg : g' = g
    · subst hgg
      rw [hself]
      simp only [true_and]
      rfl
    · rw [← hs']
      simp only [bitsOf, Function.update_of_ne hgg, hgg, false_and, if_false]
  refine ⟨hgeo, by rw [← hs'], by rw [← hs'], by rw [← hs'], fun x hx hx' => ?_, ?_, ?_⟩
  · rw [hwrote.used hgeo hg hfit hx hx', hb]
  · refine hc.update hg hgeo (by rw [← hs']) ?_ (fun hu => ?_) (by rw [← hs']; simp only; omega)
    · rw [hself, zeros_clear hfit hones, hc.group g hg]
    · rw [show (s.groups g).uninit = true from hu] at hinit
      cases hinit
  · refine hw.shrink hgeo (by rw [← hs']) (fun i _ hl => ?_) fun i _ x _ g' _ _ hfree => ?_
    · rw [← hs'] at hl ⊢
      exact ⟨hl, rfl, fun _ h => h⟩
    · rw [hwrote]
      split
      · rfl
      · exact hfree

theorem Cleared.trans {u : Fs} {m : Nat} (h : Cleared s t b m) (h' : Cleared t u (b + m) n) :
    Cleared s u b (m + n) := by
  refine ⟨h'.geo.trans h.geo, h'.naive.trans h.naive, h'.frees.trans h.frees, h'.dead.trans h.dead,
    fun x hx hx' => ?_, h'.counted, h'.windowed⟩
  rw [h'.used x (h.geo ▸ hx) (h.geo ▸ hx'), h.used x hx hx']
  by_cases h1 : b ≤ x ∧ x < b + m
  · rw [if_pos h1, if_pos (show b ≤ x ∧ x < b + (m + n) by omega)]
    exact ite_self _
  · rw [if_neg h1]
    by_cases h2 : b + m ≤ x ∧ x < b + m + n
    · rw [if_pos h2, if_pos (by omega)]
    · rw [if_neg h2, if_neg (by omega)]

theorem applyRun_spec {k : Nat} : ∀ {fuel b n : Nat} {s : Fs}, Counted s → Windowed s → n ≤ fuel →
    (∀ x, b ≤ x → x < b + n → s.geo.Plain x) → applyRun env k fuel b n s = some t →
    Cleared s t b n := by
  intro fuel
  induction fuel with
  | zero =>
    intro b n s hc hw hn _ h
    obtain rfl := Option.some.inj h
    exact ⟨rfl, rfl, rfl, rfl, fun x _ _ => (if_neg (by omega)).symm, hc, hw⟩
  | succ fuel ih =>
    intro b n s hc hw hn hplain h
    rw [applyRun] at h
    by_cases hn0 : n = 0
    · rw [if_pos hn0] at h
      obtain rfl := Option.some.inj h
      exact ⟨rfl, rfl, rfl, rfl, fun x _ _ => (if_neg (by omega)).symm, hc, hw⟩
    rw [if_neg hn0] at h
    simp only at h
    have hb := hplain b le_rfl (by omega)
    obtain ⟨hg, hin⟩ := s.geo.in_groupOf hb.1 hb.2.1
    have hin1 := hin.1
    have hin2 := hin.2
    generalize s.geo.groupOf b = g at h hg hin1 hin2
    generalize hoff : b - s.geo.groupFirst g = off at h
    generalize hlen : min n (s.geo.groupCount g - off) = len at h
    split at h
    · cases h
    split at h
    · cases h
    rename_i map hmap
    obtain rfl := blockBitmap_ok hmap
    split at h
    · cases h
    rename_i hclear
    simp only [not_or, not_not] at hclear
    have hone := clear_group hc hw hg (show off + len ≤ s.geo.groupCount g by omega)
      (show b = s.geo.groupFirst g + off by omega) (show len ≤ n by omega) (by omega) hplain
      (count_clear hclear.1)
    have hrest := ih hone.counted hone.windowed (show n - len ≤ fuel by omega)
      (fun x hx hx' => hplain x (by omega) (by omega)) h
    have hall := hone.trans hrest
    rwa [show len + (n - len) = n by omega] at hall

theorem applyRuns_spec : ∀ {l : List Run} {k : Nat} {s : Fs}, Counted s → Windowed s →
    (∀ b, (∃ r ∈ l, r.Has b) → s.geo.Plain b) → applyRuns env k l s = some t →
    t.geo = s.geo ∧ t.naive = s.naive ∧ t.frees = s.frees ∧ t.dead = s.dead ∧ Counted t ∧
      Windowed t ∧ ∀ b, s.geo.firstDataBlock ≤ b → b < s.geo.nblocks →
        ¬(∃ r ∈ l, r.Has b) → t.used b = s.used b := by
  intro l
  induction l with
  | nil =>
    intro k s hc hw _ h
    obtain rfl := Option.some.inj h
    exact ⟨rfl, rfl, rfl, rfl, hc, hw, fun _ _ _ _ => rfl⟩
  | cons r l ih =>
    intro k s hc hw hplain h
    rw [applyRuns] at h
    split at h
    · cases h
    rename_i u hu
    have hone := applyRun_spec hc hw le_rfl
      (fun x hx hx' => hplain x ⟨r, mem_cons_self, hx, hx'⟩) hu
    obtain ⟨h1, h2, h3, h4, h5, h6, h7⟩ := ih hone.counted hone.windowed (fun b hb => by
      obtain ⟨q, hq, hqb⟩ := hb
      rw [hone.geo]
      exact hplain b ⟨q, mem_cons_of_mem _ hq, hqb⟩) h
    refine ⟨h1.trans hone.geo, h2.trans hone.naive, h3.trans hone.frees, h4.trans hone.dead, h5, h6,
      fun b hb hb' hno => ?_⟩
    rw [h7 b (hone.geo ▸ hb) (hone.geo ▸ hb') fun ⟨q, hq, hqb⟩ =>
      hno ⟨q, mem_cons_of_mem _ hq, hqb⟩, hone.used b hb hb',
      if_neg fun hhas : r.start ≤ b ∧ b < r.start + r.len => hno ⟨r, mem_cons_self, hhas⟩]

/-! ### What every step keeps -/

/-- What the allocator keeps by itself. -/
structure Kept (s : Fs) : Prop where
  counted : Counted s
  windowed : Windowed s
  queue : ∀ b, s.Queued b → s.geo.Plain b

/-- Blocks that wait to be freed are in use and no fixed metadata, which is in use
too. -/
structure Owned (s : Fs) : Prop where
  queued : ∀ b, s.Queued b → s.used b = true ∧ ¬s.geo.Fixed b
  fixed : ∀ b, s.geo.firstDataBlock ≤ b → b < s.geo.nblocks → s.geo.Fixed b → s.used b = true

/-- A free that passes the checks is one of blocks in use that are no fixed
metadata. -/
def Call.Owner (s : Fs) (env : Env) : Call → Prop
  | .free start count _ => s.geo.rangeValid start count = true →
      runHitsMeta s env start count = false →
      ∀ b, start ≤ b → b < start + count → s.used b = true ∧ ¬s.geo.Fixed b
  | _ => True

theorem queued_of_frees (h : t.frees = s.frees) (b : Nat) : t.Queued b ↔ s.Queued b := by
  unfold Fs.Queued
  rw [h]

theorem SameBlocks.kept (h : SameBlocks s t) (hk : Kept s) (hw : Windowed t) : Kept t :=
  ⟨h.counted hk.counted, hw, fun b hb => by
    rw [h.geo]
    exact hk.queue b ((queued_of_frees h.frees b).1 hb)⟩

theorem SameBlocks.owned (h : SameBlocks s t) (ho : Owned s) : Owned t := by
  refine ⟨fun b hb => ?_, fun b hb hb' hf => ?_⟩
  · rw [h.used, h.geo]
    exact ho.queued b ((queued_of_frees h.frees b).1 hb)
  · rw [h.geo] at hb hb' hf
    rw [h.used]
    exact ho.fixed b hb hb' hf

theorem Took.kept (h : Took s t r) (hk : Kept s) : Kept t :=
  ⟨h.counted, h.windowed, fun b hb => by
    rw [h.geo]
    exact hk.queue b ((queued_of_frees h.frees b).1 hb)⟩

theorem Took.owned (h : Took s t r) (hk : Kept s) (ho : Owned s) : Owned t := by
  have hgrow : ∀ b, s.geo.firstDataBlock ≤ b → b < s.geo.nblocks → s.used b = true →
      t.used b = true := by
    intro b hb hb' hu
    rw [h.used b hb hb', hu]
    exact ite_self _
  refine ⟨fun b hb => ?_, fun b hb hb' hf => ?_⟩
  · have hq := (queued_of_frees h.frees b).1 hb
    obtain ⟨h1, h2, -⟩ := hk.queue b hq
    rw [h.geo]
    exact (ho.queued b hq).imp_left (hgrow b h1 h2)
  · rw [h.geo] at hb hb' hf
    exact hgrow b hb hb' (ho.fixed b hb hb' hf)

theorem taken_step {res : Except Err (Nat × Nat) × Fs} {P : Nat × Nat → Prop} (hk : Kept s)
    (h : (∀ r s', res = (.ok r, s') → Took s s' r ∧ P r) ∧
      ∀ e s', res = (.error e, s') → s'.dead = true ∨ SameBlocks s s' ∧ Windowed s') :
    res.2.dead = true ∨ Kept res.2 ∧ (Owned s → Owned res.2) := by
  obtain ⟨x, u⟩ := res
  cases x with
  | ok r =>
    have htook := (h.1 r u rfl).1
    exact .inr ⟨htook.kept hk, htook.owned hk⟩
  | error e =>
    rcases h.2 e u rfl with hd | ⟨hsame, hw⟩
    · exact .inl hd
    · exact .inr ⟨hsame.kept hk hw, hsame.owned⟩

/-- A queue that grew by blocks of one run. -/
theorem freeBlocks_spec (env : Env) (start count : Nat) (metadata : Bool) (hk : Kept s) :
    Kept (freeBlocks s env start count metadata).2 ∧
      (Owned s → (Call.free start count metadata).Owner s env →
        Owned (freeBlocks s env start count metadata).2) := by
  unfold freeBlocks
  split
  · exact ⟨hk, fun ho _ => ho⟩
  split
  · exact ⟨hk, fun ho _ => ho⟩
  rename_i hpass
  rw [not_or, not_not, Bool.not_eq_true] at hpass
  split
  · exact ⟨hk, fun ho _ => ho⟩
  have hq : ∀ b, Fs.Queued { s with frees := runpageAdd s.frees ⟨start, count, metadata⟩ } b ↔
      s.Queued b ∨ start ≤ b ∧ b < start + count := fun b => runpageAdd_has
  refine ⟨⟨⟨hk.counted.group, hk.counted.total, hk.counted.fresh⟩, ?_, fun b hb => ?_⟩,
    fun ho hown => ⟨fun b hb => ?_, ho.fixed⟩⟩
  · exact ⟨hk.windowed.owner, hk.windowed.group, hk.windowed.apart, hk.windowed.naive⟩
  · rcases (hq b).1 hb with hb | hb
    · exact hk.queue b hb
    · exact runHitsMeta_plain hpass.1 hpass.2 hb
  · rcases (hq b).1 hb with hb | hb
    · exact ho.queued b hb
    · exact hown hpass.1 hpass.2 b hb.1 hb.2

theorem commit_spec (env : Env) (hk : Kept s) :
    (commit s env).dead = true ∨ Kept (commit s env) ∧ (Owned s → Owned (commit s env)) := by
  unfold commit
  split
  · exact .inl rfl
  rename_i u hu
  obtain ⟨h1, -, -, -, h5, h6, h7⟩ := applyRuns_spec hk.counted hk.windowed hk.queue hu
  split
  · exact .inl rfl
  right
  generalize ht : ({ u with
      frees := []
      groups := fun g => { u.groups g with pinned := false } } : Fs) = t
  have hgeo : t.geo = u.geo := by rw [← ht]
  have hgroup : ∀ g, t.groups g = { u.groups g with pinned := false } := fun g => by rw [← ht]
  -- a pinned bitmap is one of a group that was initialised
  have hbits : ∀ g, bitsOf t g = bitsOf u g := by
    intro g
    unfold bitsOf
    rw [hgroup, hgeo]
    by_cases hun : (u.groups g).uninit = true
    · simp [hun, h5.fresh g hun]
    · simp [hun]
  have hused : ∀ b, t.used b = u.used b := by
    intro b
    unfold Fs.used
    rw [hgeo, hbits]
  have hempty : ∀ b, ¬t.Queued b := by
    rintro b ⟨r, hr, -⟩
    rw [← ht] at hr
    exact not_mem_nil hr
  refine ⟨⟨⟨fun g hg => ?_, ?_, fun g _ => by rw [hgroup]⟩, ?_, fun b hb => absurd hb (hempty b)⟩,
    fun ho => ⟨fun b hb => absurd hb (hempty b), fun b hb hb' hf => ?_⟩⟩
  · rw [hgeo] at hg ⊢
    rw [hgroup, hbits]
    exact h5.group g hg
  · have htotal : t.freeBlocks = u.freeBlocks := by rw [← ht]
    rw [htotal, hgeo, h5.total]
    exact Finset.sum_congr rfl fun g _ => by rw [hgroup]
  · refine h6.shrink hgeo (by rw [← ht]) (fun i _ hl => ?_) fun i _ b _ g _ _ hfree => by
      rw [hbits]; exact hfree
    rw [← ht] at hl ⊢
    exact ⟨hl, rfl, fun _ h => h⟩
  · rw [hgeo, h1] at hb hb' hf
    rw [hused, h7 b hb hb' fun hq => (ho.queued b hq).2 hf]
    exact ho.fixed b hb hb' hf

theorem step_spec (env : Env) (c : Call) (hk : Kept s) :
    (step s env c).dead = true ∨
      Kept (step s env c) ∧ (Owned s → c.Owner s env → Owned (step s env c)) := by
  unfold step
  split
  · exact .inl ‹_›
  cases c with
  | alloc inode lblk goal want =>
    rcases taken_step hk (allocBlocks_spec env inode lblk goal want hk.counted hk.windowed)
      with hd | ⟨h1, h2⟩
    · exact .inl hd
    · exact .inr ⟨h1, fun ho _ => h2 ho⟩
  | allocMeta goal =>
    rcases taken_step hk (allocMetaBlock_spec env goal hk.counted hk.windowed) with hd | ⟨h1, h2⟩
    · exact .inl hd
    · exact .inr ⟨h1, fun ho _ => h2 ho⟩
  | free start count metadata => exact .inr (freeBlocks_spec env start count metadata hk)
  | release ino =>
    obtain ⟨hsame, hw⟩ := paRelease_spec ino hk.windowed
    exact .inr ⟨hsame.kept hk hw, fun ho _ => hsame.owned ho⟩
  | commit => exact (commit_spec env hk).imp_right fun h => ⟨h.1, fun ho _ => h.2 ho⟩

end

/-! ### Runs -/

/-- A volume as mounted, and consistent. -/
structure Mounted (s : Fs) : Prop where
  counted : Counted s
  windows : ∀ i < PA_MAX, (s.pa i).len = 0
  frees : s.frees = []
  fixed : ∀ b, s.geo.firstDataBlock ≤ b → b < s.geo.nblocks → s.geo.Fixed b → s.used b = true

theorem Mounted.kept (h : Mounted s) : Kept s ∧ Owned s := by
  have hempty : ∀ b, ¬s.Queued b := by
    rintro b ⟨r, hr, -⟩
    rw [h.frees] at hr
    exact not_mem_nil hr
  refine ⟨⟨h.counted, ⟨fun i hi hl => ?_, fun i hi hl => ?_, fun i hi _ _ _ hl => ?_,
    fun _ => h.windows⟩, fun b hb => absurd hb (hempty b)⟩, fun b hb => absurd hb (hempty b), h.fixed⟩
  · exact absurd (h.windows i hi) hl
  · exact absurd (h.windows i hi) hl
  · exact absurd (h.windows i hi) hl

/-- Every free of the run, as long as the volume is not aborted, is one of blocks in
use that are no fixed metadata. -/
def FreesOwned (s : Fs) : List (Env × Call) → Prop
  | [] => True
  | c :: rest => (s.dead = false → c.2.Owner s c.1) ∧ FreesOwned (step s c.1 c.2) rest

theorem step_dead (h : s.dead = true) (env : Env) (c : Call) : step s env c = s := if_pos h

theorem run_dead (h : s.dead = true) (calls : List (Env × Call)) : run s calls = s := by
  induction calls with
  | nil => rfl
  | cons c calls ih =>
    rw [run, foldl_cons, step_dead h]
    exact ih

/-- **Counts and windows hold in every state reached.** -/
theorem run_spec {calls : List (Env × Call)} (hk : Kept s) : (run s calls).dead = true ∨
      Kept (run s calls) ∧ (Owned s → FreesOwned s calls → Owned (run s calls)) := by
  induction calls generalizing s with
  | nil => exact .inr ⟨hk, fun ho _ => ho⟩
  | cons c calls ih =>
    by_cases hdead : s.dead = true
    · rw [run_dead hdead]
      exact .inl hdead
    show (run (step s c.1 c.2) calls).dead = true ∨ Kept (run (step s c.1 c.2) calls) ∧ _
    rcases step_spec c.1 c.2 hk with hd | ⟨h1, h2⟩
    · rw [run_dead hd]
      exact .inl hd
    · exact (ih h1).imp_right fun h =>
        ⟨h.1, fun ho hf => h.2 (h2 ho (hf.1 (Bool.eq_false_iff.2 hdead))) hf.2⟩

/-- What a caller gets: blocks that are free, that nothing else has a right to, and
that are reserved for another inode only when nothing else was left. -/
structure Granted (s : Fs) (env : Env) (ino want : Nat) (r : Nat × Nat) : Prop where
  pos : 1 ≤ r.2
  le : r.2 ≤ want
  free : ∀ b, r.1 ≤ b → b < r.1 + r.2 → s.geo.blockValid b = true ∧ s.used b = false
  fixed : ∀ b, r.1 ≤ b → b < r.1 + r.2 → ¬s.geo.Fixed b
  queued : ∀ b, r.1 ≤ b → b < r.1 + r.2 → ¬s.Queued b
  spares : Spares s env ino r

theorem Took.granted {t : Fs} {env : Env} {ino want : Nat} {r : Nat × Nat} (h : Took s t r)
    (ho : Owned s) (hle : r.2 ≤ want) (hsp : Spares s env ino r) : Granted s env ino want r := by
  obtain ⟨g, hg, hin⟩ := h.group
  have hvalid : ∀ b, r.1 ≤ b → b < r.1 + r.2 → s.geo.firstDataBlock ≤ b ∧ b < s.geo.nblocks :=
    fun b hb hb' => (Geo.groupOf_in hg (hin b hb hb')).2
  refine ⟨h.pos, hle, fun b hb hb' => ⟨?_, h.free b hb hb'⟩, fun b hb hb' hf => ?_,
    fun b hb hb' hq => ?_, hsp⟩
  · exact decide_eq_true (hvalid b hb hb')
  · have hu := ho.fixed b (hvalid b hb hb').1 (hvalid b hb hb').2 hf
    rw [h.free b hb hb'] at hu
    cases hu
  · have hu := (ho.queued b hq).1
    rw [h.free b hb hb'] at hu
    cases hu

/-- **The allocator over runs.**  From a consistent volume, if every free is one of
blocks in use, the counts agree and the windows are disjoint free ranges in every state
that is reached and not aborted, and whatever is allocated there is granted rightly. -/
theorem run_alloc {s : Fs} (h : Mounted s) {calls : List (Env × Call)} (hf : FreesOwned s calls) :
    (run s calls).dead = true ∨ Counted (run s calls) ∧ Windowed (run s calls) ∧
      (∀ env inode lblk goal want r t,
        allocBlocks (run s calls) env inode lblk goal want = (.ok r, t) →
          Granted (run s calls) env (inoOf inode) want r) ∧
      ∀ env goal r t, allocMetaBlock (run s calls) env goal = (.ok r, t) →
        Granted (run s calls) env 0 1 r := by
  obtain ⟨hk, ho⟩ := h.kept
  refine (run_spec hk).imp_right fun hrun => ?_
  have hown := hrun.2 ho hf
  have hkept := hrun.1
  refine ⟨hkept.counted, hkept.windowed, fun env inode lblk goal want r t hr => ?_,
    fun env goal r t hr => ?_⟩
  · obtain ⟨h1, h2, h3⟩ := (allocBlocks_spec env inode lblk goal want hkept.counted
      hkept.windowed).1 r t hr
    exact h1.granted hown h2 h3
  · obtain ⟨h1, h2, h3⟩ := (allocMetaBlock_spec env goal hkept.counted hkept.windowed).1 r t hr
    exact h1.granted hown h2 h3

/-! ### A volume of 2 TiB -/

/-- 16399 groups of 32768 blocks, and one of sixteen.  The tables of sixteen groups lie
in the first of them. -/
def bigGeo : Geo where
  firstDataBlock := 0
  nblocks := 537362448
  bpg := 32768
  itableBlocks := 4
  logGroupsPerFlex := 4
  sparse := true
  sparse2 := false
  backupBgs := (0, 0)
  metaBg := false
  firstMetaBg := 0
  descPerBlock := 64
  gdtBlocks := 257
  reservedGdt := 0
  blockBitmap := fun h => h / 16 * 524288 + 512 + h % 16
  inodeBitmap := fun h => h / 16 * 524288 + 528 + h % 16
  inodeTable := fun h => h / 16 * 524288 + 544 + h % 16 * 4
  bpg_pos := by decide
  nblocks_gt := by decide

/-- Free are the first block of the last group and its upper half. -/
def big : Fs where
  geo := bigGeo
  naive := false
  groups := fun g =>
    if g = 16399 then ⟨9, false, fun i => 1 ≤ i && i < 8, false⟩ else ⟨0, false, fun _ => true, false⟩
  freeBlocks := 9
  pa := fun _ => ⟨0, 0, 0, 0, 0⟩
  clock := 0
  frees := []
  dead := false

theorem bigGeo_ngroups : bigGeo.ngroups = 16400 := rfl

theorem big_fixed (h : bigGeo.Fixed b) : b < 537362432 := by
  rcases h with ⟨g, hg, hin⟩ | ⟨g, hg, hin⟩
  · rw [bigGeo_ngroups] at hg
    have hfirst : bigGeo.groupFirst g = 0 + g * 32768 := rfl
    have hsuper : bigGeo.groupSuperBlocks g ≤ 258 := by
      unfold Geo.groupSuperBlocks
      rw [if_pos (.inl (by decide))]
      cases bigGeo.groupHasSuper g <;> decide
    by_cases hlast : g = 16399
    · rw [hlast, show bigGeo.groupSuperBlocks 16399 = 0 by decide] at hin
      omega
    · omega
  · rw [bigGeo_ngroups] at hg
    unfold Geo.tableOf at hin
    rw [decide_eq_true_iff] at hin
    change b = g / 16 * 524288 + 512 + g % 16 ∨ b = g / 16 * 524288 + 528 + g % 16 ∨
      g / 16 * 524288 + 544 + g % 16 * 4 ≤ b ∧ b < g / 16 * 524288 + 544 + g % 16 * 4 + 4 at hin
    omega

theorem big_mounted : Mounted big := by
  have hgroup : ∀ g, g ≠ 16399 → big.groups g = ⟨0, false, fun _ => true, false⟩ :=
    fun _ hg => if_neg hg
  refine ⟨⟨fun g _ => ?_, ?_, fun g => ?_⟩, fun i _ => rfl, rfl, fun b _ _ hf => ?_⟩
  · by_cases hlast : g = 16399
    · rw [hlast]
      decide
    · unfold bitsOf
      rw [hgroup g hlast]
      exact (Nat.count_iff_forall_not.2 fun _ _ h => by cases h).symm
  · rw [show big.geo.ngroups = 16399 + 1 from rfl, Finset.sum_range_succ, Finset.sum_eq_zero]
    · rfl
    · intro g hg
      rw [hgroup g (Finset.mem_range.1 hg).ne]
  · by_cases hlast : g = 16399
    · rw [hlast]
      exact nofun
    · rw [hgroup g hlast]
      exact nofun
  · have hlt := big_fixed hf
    have hne : big.geo.groupOf b ≠ 16399 := by
      show (b - 0) / 32768 ≠ 16399
      omega
    unfold Fs.used bitsOf
    rw [hgroup _ hne]
    rfl

def quiet : Env := ⟨fun _ => none, fun _ => none, fun _ => false, false, false, false⟩

/-- A file whose blocks are the most that 32 bits of sectors count, with a hole before its
last block, 537362433; and a new file. -/
def fileA : Inode := ⟨12, true, 536870911, by decide⟩
def fileB : Inode := ⟨1048577, true, 0, by decide⟩

/-- `sfs_write` of a block into the hole: `sfs_add_blocks` fails (`EFBIG`), the block is
freed and stays in the extent tree. -/
def holeWrite : List (Env × Call) :=
  [(quiet, .alloc (some fileA) 536800000 537362432 1), (quiet, .free 537362432 1 false)]

theorem run_alloc_holeWrite :
    Granted (run big (holeWrite ++ [(quiet, .commit)])) quiet 1048577 1 (537362432, 1) := by
  have hf : FreesOwned big (holeWrite ++ [(quiet, .commit)]) := by
    refine ⟨fun _ => trivial, fun _ _ _ b hb hb' => ?_, fun _ => trivial, trivial⟩
    obtain rfl : b = 537362432 := by omega
    exact ⟨by decide, fun h => absurd (big_fixed h) (by decide)⟩
  obtain h | h := run_alloc big_mounted hf
  · exact absurd h (by decide)
  · exact h.2.2.1 quiet (some fileB) 0 536870912 1 (537362432, 1) _ (Prod.ext (by decide) rfl)

/-- `sfs_truncate` to the hole and its block, `sfs_sync`, and `sfs_truncate` to what is
before the hole. -/
def twoCuts : List (Env × Call) :=
  [(quiet, .release 12), (quiet, .free 537362433 1 false), (quiet, .commit),
    (quiet, .release 12), (quiet, .free 537362432 1 false)]

/-- **A block that waits to be freed is handed out.**  The second truncate frees the block
that the failed write has freed, and `sfs_write` to a new file gets it. -/
theorem run_alloc_queued : ¬∀ s calls, Mounted s → (run s calls).dead = false →
    ∀ env inode lblk goal want r t,
      allocBlocks (run s calls) env inode lblk goal want = (.ok r, t) →
        ∀ b, r.1 ≤ b → b < r.1 + r.2 → ¬(run s calls).Queued b := by
  intro h
  exact h big (holeWrite ++ twoCuts) big_mounted (by decide) quiet (some fileB)
    0 536870912 1 (537362432, 1) _ (Prod.ext (by decide) rfl) 537362432 le_rfl (by decide)
    ⟨⟨537362432, 1, false⟩, by decide, by decide, by decide⟩

end Win98Modern.Libsfs.Alloc
