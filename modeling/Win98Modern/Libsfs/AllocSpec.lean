import Mathlib.Algebra.Order.BigOperators.Group.Finset
import Win98Modern.Libsfs.Alloc

/-!
# What an allocation takes

`Counted` and `Windowed` are what the allocator keeps: the free counts agree with
the bitmaps, and the preallocation windows are disjoint ranges of free blocks.
`allocSearch_spec` says what a successful search takes, and where a strict pass
that found nothing has looked.
-/

namespace Win98Modern.Libsfs.Alloc

open List Prod Except

/-! ### Geometry -/

section

variable {geo : Geo} {b g i : Nat}

theorem Geo.ngroups_pos (geo : Geo) : 0 < geo.ngroups := by
  have h1 := geo.bpg_pos
  have h2 := geo.nblocks_gt
  exact Nat.div_pos (by omega) h1

theorem Geo.ngroups_mul (geo : Geo) :
    geo.nblocks - geo.firstDataBlock ≤ geo.ngroups * geo.bpg ∧
      (geo.ngroups - 1) * geo.bpg < geo.nblocks - geo.firstDataBlock := by
  have h1 := geo.bpg_pos
  have h2 := geo.nblocks_gt
  have h3 := Nat.div_add_mod (geo.nblocks - geo.firstDataBlock + geo.bpg - 1) geo.bpg
  have h4 := Nat.mod_lt (geo.nblocks - geo.firstDataBlock + geo.bpg - 1) h1
  change geo.bpg * geo.ngroups + _ = _ at h3
  rw [Nat.mul_comm] at h3
  rw [Nat.sub_mul, Nat.one_mul]
  omega

def Geo.In (geo : Geo) (b g : Nat) : Prop :=
  geo.groupFirst g ≤ b ∧ b < geo.groupFirst g + geo.groupCount g

theorem Geo.groupCount_le (hg : g < geo.ngroups) : geo.groupCount g ≤ geo.bpg := by
  unfold Geo.groupCount Geo.groupFirst
  have hm := geo.ngroups_mul
  split
  · exact le_rfl
  · have hlast : g = geo.ngroups - 1 := by omega
    subst hlast
    have : geo.ngroups * geo.bpg = (geo.ngroups - 1) * geo.bpg + geo.bpg := by
      rw [← Nat.succ_mul]
      congr 1
      omega
    omega

theorem Geo.groupCount_pos (hg : g < geo.ngroups) : 0 < geo.groupCount g := by
  unfold Geo.groupCount Geo.groupFirst
  have hm := geo.ngroups_mul
  have hpos := geo.bpg_pos
  split
  · exact hpos
  · have hlast : g = geo.ngroups - 1 := by omega
    rw [hlast]
    omega

theorem Geo.groupOf_in (hg : g < geo.ngroups) (hb : geo.In b g) :
    geo.groupOf b = g ∧ geo.firstDataBlock ≤ b ∧ b < geo.nblocks := by
  have hcnt := geo.groupCount_le hg
  obtain ⟨h1, h2⟩ := hb
  have hm := geo.ngroups_mul
  have hfirst : geo.groupFirst g = geo.firstDataBlock + g * geo.bpg := rfl
  refine ⟨?_, by omega, ?_⟩
  · unfold Geo.groupOf
    refine Nat.div_eq_of_lt_le (by omega) ?_
    rw [Nat.succ_mul]
    omega
  · have hle : (g + 1) * geo.bpg ≤ (geo.ngroups - 1) * geo.bpg ∨ g + 1 = geo.ngroups := by
      by_cases hlast : g + 1 = geo.ngroups
      · exact .inr hlast
      · exact .inl (Nat.mul_le_mul_right _ (by omega))
    rcases hle with hle | hlast
    · rw [Nat.succ_mul] at hle
      omega
    · have hcount : geo.groupCount g = geo.nblocks - geo.groupFirst g := by
        unfold Geo.groupCount
        rw [if_neg (by omega)]
      omega

theorem Geo.in_groupOf (h1 : geo.firstDataBlock ≤ b) (h2 : b < geo.nblocks) :
    geo.groupOf b < geo.ngroups ∧ geo.In b (geo.groupOf b) := by
  have hm := geo.ngroups_mul
  have hpos := geo.bpg_pos
  have hlt : geo.groupOf b < geo.ngroups := by
    unfold Geo.groupOf
    rw [Nat.div_lt_iff_lt_mul hpos]
    omega
  have hdiv := Nat.div_add_mod (b - geo.firstDataBlock) geo.bpg
  have hmod := Nat.mod_lt (b - geo.firstDataBlock) hpos
  change geo.bpg * geo.groupOf b + _ = _ at hdiv
  rw [Nat.mul_comm] at hdiv
  have hfirst : geo.groupFirst (geo.groupOf b) = geo.firstDataBlock + geo.groupOf b * geo.bpg := rfl
  refine ⟨hlt, by omega, ?_⟩
  unfold Geo.groupCount
  split <;> omega

end

/-! ### Bitmaps -/

/-- The bitmap of a group, computed where it was never initialised. -/
def bitsOf (s : Fs) (g : Nat) : Nat → Bool :=
  if (s.groups g).uninit ∧ ¬(s.groups g).pinned then s.geo.computed g else (s.groups g).bits

/-- The block is marked in the bitmap of its group. -/
def Fs.used (s : Fs) (b : Nat) : Bool :=
  bitsOf s (s.geo.groupOf b) (b - s.geo.groupFirst (s.geo.groupOf b))

structure Counted (s : Fs) : Prop where
  group : ∀ g < s.geo.ngroups, (s.groups g).free = zeros (bitsOf s g) (s.geo.groupCount g)
  total : s.freeBlocks = ∑ g ∈ Finset.range s.geo.ngroups, (s.groups g).free
  fresh : ∀ g, (s.groups g).uninit = true → (s.groups g).pinned = false

section

variable {s : Fs} {g : Nat}

variable {f : Option Fault}

theorem blockBitmap_ok {map : Nat → Bool} (h : blockBitmap s g f = .ok map) : map = bitsOf s g := by
  unfold blockBitmap at h
  unfold bitsOf
  by_cases hu : (s.groups g).uninit ∧ ¬(s.groups g).pinned
  · rw [if_pos hu] at h ⊢
    cases f with
    | some e => cases h
    | none =>
      simp only at h
      split at h
      · cases h
      · exact (ok.inj h).symm
  · rw [if_neg hu] at h ⊢
    cases f with
    | some e => cases h
    | none => exact (ok.inj h).symm

theorem Counted.blockBitmap_error (h : Counted s) (hg : g < s.geo.ngroups) {e : Err}
    (he : blockBitmap s g f = .error e) : ∃ x, f = some x ∧ x.err = e := by
  unfold blockBitmap at he
  cases f with
  | some x =>
    simp only [ite_self] at he
    exact ⟨x, rfl, error.inj he⟩
  | none =>
    have hcount := h.group g hg
    unfold bitsOf at hcount
    split at he
    · rename_i hu
      rw [if_pos hu] at hcount
      rw [if_neg (by rw [hcount]; exact fun h => h rfl)] at he
      cases he
    · cases he

end

/-! ### Windows -/

def Pa.Has (w : Pa) (b : Nat) : Prop := w.pblk ≤ b ∧ b < w.pblk + w.len

/-- The preallocation windows: each within a group, over free blocks; no two of
one inode, and no two that overlap. -/
structure Windowed (s : Fs) : Prop where
  owner : ∀ i < PA_MAX, (s.pa i).len ≠ 0 → (s.pa i).ino ≠ 0
  group : ∀ i < PA_MAX, (s.pa i).len ≠ 0 → ∃ g < s.geo.ngroups,
    ∀ b, (s.pa i).Has b → s.geo.In b g ∧ bitsOf s g (b - s.geo.groupFirst g) = false
  apart : ∀ i < PA_MAX, ∀ j < PA_MAX, i ≠ j → (s.pa i).len ≠ 0 → (s.pa j).len ≠ 0 →
    (s.pa i).ino ≠ (s.pa j).ino ∧ ∀ b, ¬((s.pa i).Has b ∧ (s.pa j).Has b)
  naive : s.naive = true → ∀ i < PA_MAX, (s.pa i).len = 0

/-- The block lies in the window of another inode. -/
def Fs.Reserved (s : Fs) (ino b : Nat) : Prop :=
  ∃ i < PA_MAX, (s.pa i).ino ≠ ino ∧ (s.pa i).Has b

theorem Pa.meets_iff {w : Pa} {start n : Nat} (hn : n ≠ 0) :
    w.meets start n = true ↔ ∃ b, start ≤ b ∧ b < start + n ∧ w.Has b := by
  unfold Pa.meets Pa.Has
  rw [decide_eq_true_iff]
  constructor
  · rintro ⟨h1, h2, h3⟩
    exact ⟨max start w.pblk, by omega, by omega, by omega, by omega⟩
  · rintro ⟨b, h1, h2, h3, h4⟩
    omega

section

variable {s : Fs} {ino start n : Nat}

variable (s ino start n) in
theorem conflict_fold (l : List Nat) (acc : Option (Nat × Nat)) :
    (l.foldl (conflictStep s ino start n) acc = acc ∧
        ∀ i ∈ l, (s.pa i).ino ≠ ino → (s.pa i).meets start n = true →
          ∃ r, acc = some r ∧ r.1 ≤ (s.pa i).pblk) ∨
      ∃ j ∈ l, (s.pa j).ino ≠ ino ∧ (s.pa j).meets start n = true ∧
        l.foldl (conflictStep s ino start n) acc =
          some ((s.pa j).pblk, (s.pa j).pblk + (s.pa j).len) ∧
        (∀ r, acc = some r → (s.pa j).pblk ≤ r.1) ∧
        ∀ i ∈ l, (s.pa i).ino ≠ ino → (s.pa i).meets start n = true →
          (s.pa j).pblk ≤ (s.pa i).pblk := by
  induction l generalizing acc with
  | nil => exact .inl ⟨rfl, fun i hi => absurd hi (not_mem_nil)⟩
  | cons k l ih =>
    rw [foldl_cons]
    by_cases hk : (s.pa k).ino ≠ ino ∧ (s.pa k).meets start n = true
    · -- slot `k` is taken over, unless an earlier window begins below it
      by_cases hacc : ∃ r, acc = some r ∧ r.1 ≤ (s.pa k).pblk
      · obtain ⟨r, rfl, hr⟩ := hacc
        have hstep : conflictStep s ino start n (some r) k = some r := by
          unfold conflictStep
          rw [if_pos hk]
          exact if_neg (by omega)
        rw [hstep]
        rcases ih (some r) with ⟨h1, h2⟩ | ⟨j, hj, h1, h2, h3, h4, h5⟩
        · refine .inl ⟨h1, fun i hi hne hm => ?_⟩
          rcases mem_cons.1 hi with rfl | hi
          · exact ⟨r, rfl, hr⟩
          · exact h2 i hi hne hm
        · refine .inr ⟨j, mem_cons_of_mem _ hj, h1, h2, h3, h4, fun i hi hne hm => ?_⟩
          rcases mem_cons.1 hi with rfl | hi
          · exact (h4 r rfl).trans hr
          · exact h5 i hi hne hm
      · have hstep : conflictStep s ino start n acc k =
            some ((s.pa k).pblk, (s.pa k).pblk + (s.pa k).len) := by
          unfold conflictStep
          rw [if_pos hk]
          cases acc with
          | none => rfl
          | some r => exact if_pos (not_le.1 fun hle => hacc ⟨r, rfl, hle⟩)
        rw [hstep]
        have hlow : ∀ r, acc = some r → (s.pa k).pblk ≤ r.1 := fun r hr =>
          (not_le.1 fun hle => hacc ⟨r, hr, hle⟩).le
        right
        rcases ih (some ((s.pa k).pblk, (s.pa k).pblk + (s.pa k).len)) with
          ⟨h1, h2⟩ | ⟨j, hj, h1, h2, h3, h4, h5⟩
        · refine ⟨k, mem_cons_self, hk.1, hk.2, h1, hlow, fun i hi hne hm => ?_⟩
          rcases mem_cons.1 hi with rfl | hi
          · exact le_rfl
          · obtain ⟨r, hr, hle⟩ := h2 i hi hne hm
            obtain rfl := Option.some.inj hr
            exact hle
        · have hjk := h4 _ rfl
          refine ⟨j, mem_cons_of_mem _ hj, h1, h2, h3, fun r hr => hjk.trans (hlow r hr),
            fun i hi hne hm => ?_⟩
          rcases mem_cons.1 hi with rfl | hi
          · exact hjk
          · exact h5 i hi hne hm
    · have hstep : conflictStep s ino start n acc k = acc := by
        unfold conflictStep
        exact if_neg hk
      rw [hstep]
      rcases ih acc with ⟨h1, h2⟩ | ⟨j, hj, h1, h2, h3, h4, h5⟩
      · refine .inl ⟨h1, fun i hi hne hm => ?_⟩
        rcases mem_cons.1 hi with rfl | hi
        · exact absurd ⟨hne, hm⟩ hk
        · exact h2 i hi hne hm
      · refine .inr ⟨j, mem_cons_of_mem _ hj, h1, h2, h3, h4, fun i hi hne hm => ?_⟩
        rcases mem_cons.1 hi with rfl | hi
        · exact absurd ⟨hne, hm⟩ hk
        · exact h5 i hi hne hm

theorem paConflict_none (h : paConflict s ino start n = none) (hn : n ≠ 0) {b : Nat}
    (hb : start ≤ b ∧ b < start + n) : ¬s.Reserved ino b := by
  rintro ⟨i, hi, hne, hhas⟩
  rcases conflict_fold s ino start n (List.range PA_MAX) none with
    ⟨-, h2⟩ | ⟨j, -, -, -, h3, -⟩
  · obtain ⟨r, hr, -⟩ := h2 i (mem_range.2 hi) hne
      ((Pa.meets_iff hn).2 ⟨b, hb.1, hb.2, hhas⟩)
    cases hr
  · rw [paConflict, h3] at h
    cases h

/-- The window found is that of another inode, and none begins below it. -/
theorem paConflict_some {ws we : Nat} (h : paConflict s ino start n = some (ws, we)) (hn : n ≠ 0) :
    start < we ∧ ws < start + n ∧ (∀ b, ws ≤ b → b < we → s.Reserved ino b) ∧
      ∀ b, start ≤ b → b < ws → ¬s.Reserved ino b := by
  rcases conflict_fold s ino start n (List.range PA_MAX) none with
    ⟨h1, -⟩ | ⟨j, hj, hne, hm, h3, -, h5⟩
  · rw [paConflict, h1] at h
    cases h
  · rw [paConflict, h3] at h
    obtain ⟨rfl, rfl⟩ := mk.inj (Option.some.inj h)
    have hm' := hm
    unfold Pa.meets at hm'
    rw [decide_eq_true_iff] at hm'
    refine ⟨hm'.2.2, hm'.2.1, fun b h1 h2 => ⟨j, mem_range.1 hj, hne, h1, h2⟩, ?_⟩
    rintro b h1 h2 ⟨i, hi, hine, hhas⟩
    have := h5 i (mem_range.2 hi) hine
      ((Pa.meets_iff hn).2 ⟨b, h1, by omega, hhas⟩)
    have := hhas.1
    omega

end

section

variable {s : Fs} {env : Env} {ino first cnt want : Nat} {map : Nat → Bool} {strict : Bool}

theorem findZero_spec (map : Nat → Bool) {start limit : Nat} (h : start ≤ limit) :
    start ≤ findZero map start limit ∧ findZero map start limit ≤ limit ∧
      (∀ k, start ≤ k → k < findZero map start limit → map k = true) ∧
      (findZero map start limit < limit → map (findZero map start limit) = false) := by
  obtain ⟨h1, h2, h3, h4⟩ := findBit_spec (fun i => !map i) h
  refine ⟨h1, h2, fun k hk hk' => ?_, fun hlt => ?_⟩
  · simpa using h3 k hk hk'
  · have := h4 hlt
    rw [Bool.not_eq_true'] at this
    exact this

variable (s ino first map strict) in
theorem searchLoop_spec (hw : 0 < want) : ∀ {fuel bit : Nat}, cnt < bit + fuel →
    (∀ z e, searchLoop s ino first map cnt want strict fuel bit = some (z, e) →
      z < e ∧ e ≤ cnt ∧ e ≤ z + want ∧ (∀ i, z ≤ i → i < e → map i = false) ∧
        (strict = true → ∀ b, first + z ≤ b → b < first + e → ¬s.Reserved ino b)) ∧
    (searchLoop s ino first map cnt want strict fuel bit = none →
      ∀ i, bit ≤ i → i < cnt → map i = false → strict = true ∧ s.Reserved ino (first + i)) := by
  intro fuel
  induction fuel with
  | zero => exact fun hf => ⟨fun z e h => (by cases h), fun _ i h1 h2 => absurd h2 (by omega)⟩
  | succ fuel ih =>
    intro bit hf
    rw [searchLoop]
    by_cases hb : bit < cnt
    · rw [if_pos hb]
      simp only
      obtain ⟨z1, z2, z3, z4⟩ := findZero_spec map hb.le
      generalize findZero map bit cnt = z at z1 z2 z3 z4 ⊢
      by_cases hz : z ≥ cnt
      · rw [if_pos hz]
        refine ⟨fun z e h => (by cases h), fun _ i h1 h2 hi => ?_⟩
        rw [z3 i h1 (by omega)] at hi
        cases hi
      · rw [if_neg hz]
        obtain ⟨lim, hlim⟩ : ∃ lim, lim = if z + want < cnt then z + want else cnt := ⟨_, rfl⟩
        rw [← hlim]
        have hl : z < lim ∧ lim ≤ cnt ∧ lim ≤ z + want := by
          rw [hlim]
          split <;> omega
        obtain ⟨e1, e2, e3, -⟩ := findBit_spec map hl.1.le
        have hpos : z < findOne map z lim := by
          by_contra hno
          have heq : findOne map z lim = z := by
            have : z ≤ findOne map z lim := e1
            omega
          have h4 := (findBit_spec map hl.1.le).2.2.2 (by
            show findOne map z lim < lim
            omega)
          rw [show findBit map z lim = z from heq, z4 (by omega)] at h4
          cases h4
        change z ≤ findOne map z lim at e1
        change findOne map z lim ≤ lim at e2
        change ∀ k, z ≤ k → k < findOne map z lim → _ at e3
        generalize findOne map z lim = e at e1 e2 e3 hpos ⊢
        have hplain : (strict = true → ∀ b, first + z ≤ b → b < first + e → ¬s.Reserved ino b) →
            (∀ z' e', some (z, e) = some (z', e') → z' < e' ∧ e' ≤ cnt ∧ e' ≤ z' + want ∧
              (∀ i, z' ≤ i → i < e' → map i = false) ∧
              (strict = true → ∀ b, first + z' ≤ b → b < first + e' → ¬s.Reserved ino b)) ∧
            (some (z, e) = none →
              ∀ i, bit ≤ i → i < cnt → map i = false → strict = true ∧ s.Reserved ino (first + i)) := by
          intro hfree
          refine ⟨fun z' e' h => ?_, fun h => (by cases h)⟩
          obtain ⟨rfl, rfl⟩ := mk.inj (Option.some.inj h)
          exact ⟨hpos, by omega, by omega, e3, hfree⟩
        cases hc : if strict = true then paConflict s ino (first + z) (e - z) else none with
        | none =>
          refine hplain fun hs b h1 h2 => ?_
          rw [if_pos hs] at hc
          exact paConflict_none hc (by omega) ⟨h1, by omega⟩
        | some r =>
          obtain ⟨ws, we⟩ := r
          have hs : strict = true := by
            by_contra hno
            rw [if_neg hno] at hc
            cases hc
          rw [if_pos hs] at hc
          obtain ⟨c1, c2, c3, c4⟩ := paConflict_some hc (by omega)
          simp only
          by_cases hws : ws > first + z
          · -- the free piece in front of the window
            rw [if_pos hws]
            refine ⟨fun z' e' h => ?_, fun h => (by cases h)⟩
            obtain ⟨rfl, rfl⟩ := mk.inj (Option.some.inj h)
            exact ⟨by omega, by omega, by omega, fun i h1 h2 => e3 i h1 (by omega),
              fun _ b h1 h2 => c4 b h1 (by omega)⟩
          · rw [if_neg hws]
            obtain ⟨h1, h2⟩ := ih (show cnt < we - first + fuel by omega)
            refine ⟨h1, fun hnone i hi hi' hfree => ?_⟩
            by_cases hiz : i < z
            · rw [z3 i hi hiz] at hfree
              cases hfree
            · by_cases hiw : first + i < we
              · exact ⟨hs, c3 _ (by omega) hiw⟩
              · exact h2 hnone i (by omega) hi' hfree
    · rw [if_neg hb]
      exact ⟨fun z e h => (by cases h), fun _ i h1 h2 => absurd h2 (by omega)⟩

end

/-! ### Taking a run -/

section

variable {s s' : Fs} {g bit n : Nat}

theorem sum_update {f : Nat → Nat} {k v : Nat} (hg : g < k) :
    ∑ i ∈ Finset.range k, Function.update f g v i + f g = ∑ i ∈ Finset.range k, f i + v := by
  have hmem : g ∈ Finset.range k := Finset.mem_range.2 hg
  rw [← Finset.add_sum_erase _ _ hmem, ← Finset.add_sum_erase _ f hmem, Function.update_self]
  have hrest : ∑ i ∈ (Finset.range k).erase g, Function.update f g v i =
      ∑ i ∈ (Finset.range k).erase g, f i :=
    Finset.sum_congr rfl fun i hi => Function.update_of_ne (Finset.ne_of_mem_erase hi) _ _
  omega

theorem Counted.update (h : Counted s) (hg : g < s.geo.ngroups) {grp : Group}
    (hgeo : s'.geo = s.geo) (hgroups : s'.groups = Function.update s.groups g grp)
    (hfree : grp.free = zeros (bitsOf s' g) (s.geo.groupCount g))
    (hfresh : grp.uninit = true → grp.pinned = false)
    (htotal : s'.freeBlocks + (s.groups g).free = s.freeBlocks + grp.free) : Counted s' := by
  have hother : ∀ g', g' ≠ g → s'.groups g' = s.groups g' := fun g' hne => by
    rw [hgroups, Function.update_of_ne hne]
  have hself : s'.groups g = grp := by rw [hgroups, Function.update_self]
  refine ⟨fun g' hg' => ?_, ?_, fun g' hu => ?_⟩
  · rw [hgeo] at hg' ⊢
    by_cases hgg : g' = g
    · rw [hgg, hself]
      exact hfree
    · have hbits : bitsOf s' g' = bitsOf s g' := by
        unfold bitsOf
        rw [hother g' hgg, hgeo]
      rw [hother g' hgg, hbits]
      exact h.group g' hg'
  · have hsum := sum_update (f := fun i => (s.groups i).free) (v := grp.free) hg
    have hfun : (fun i => (s'.groups i).free) =
        Function.update (fun i => (s.groups i).free) g grp.free := by
      funext i
      by_cases hi : i = g
      · rw [hi, hself, Function.update_self]
      · rw [hother i hi, Function.update_of_ne hi]
    have hsum' : ∑ i ∈ Finset.range s.geo.ngroups, (s'.groups i).free + (s.groups g).free =
        ∑ i ∈ Finset.range s.geo.ngroups, (s.groups i).free + grp.free := by
      rw [← hsum]
      congr 1
      exact Finset.sum_congr rfl fun i _ => congrFun hfun i
    have := h.total
    rw [hgeo]
    omega
  · by_cases hgg : g' = g
    · rw [hgg, hself] at hu ⊢
      exact hfresh hu
    · rw [hother g' hgg] at hu ⊢
      exact h.fresh g' hu

/-- The bitmaps after `n` bits of group `g` from `bit` on were written. -/
def Wrote (s s' : Fs) (v : Bool) (g bit n : Nat) : Prop :=
  ∀ g' i, bitsOf s' g' i = if g' = g ∧ bit ≤ i ∧ i < bit + n then v else bitsOf s g' i

variable {fails : Bool} {b : Nat}

theorem takeRun_ok (h : Counted s) (hg : g < s.geo.ngroups) (hfit : bit + n ≤ s.geo.groupCount g)
    (hz : ∀ i, bit ≤ i → i < bit + n → bitsOf s g i = false)
    (ht : takeRun s g (bitsOf s g) bit n fails = (none, s')) :
    Counted s' ∧ Wrote s s' true g bit n ∧ s'.geo = s.geo ∧ s'.naive = s.naive ∧ s'.pa = s.pa ∧
      s'.frees = s.frees ∧ s'.dead = s.dead := by
  cases fails with
  | true => cases ht
  | false =>
    obtain ⟨-, rfl⟩ := mk.inj ht
    have hcount := h.group g hg
    rw [zeros_set hfit hz] at hcount
    refine ⟨?_, fun g' i => ?_, rfl, rfl, rfl, rfl, rfl⟩
    · refine h.update hg rfl rfl ?_ (fun hu => by cases hu) ?_
      · show (s.groups g).free - n = zeros (bitsOf _ g) _
        rw [hcount, Nat.add_sub_cancel]
        refine zeros_congr fun i _ => ?_
        unfold bitsOf
        simp
      · have hle : (s.groups g).free ≤ s.freeBlocks := by
          rw [h.total]
          exact Finset.single_le_sum (f := fun i => (s.groups i).free) (fun i _ => Nat.zero_le _)
            (Finset.mem_range.2 hg)
        show s.freeBlocks - n + (s.groups g).free = s.freeBlocks + ((s.groups g).free - n)
        omega
    · by_cases hgg : g' = g
      · subst hgg
        simp only [bitsOf, Function.update_self, Bool.false_eq_true, false_and, if_false, true_and]
        rfl
      · simp only [bitsOf, Function.update_of_ne hgg, hgg, false_and, if_false]

theorem takeRun_error {map : Nat → Bool} {e : Err} (ht : takeRun s g map bit n fails = (some e, s')) :
    s'.dead = true ∧ e ≠ .noSpc := by
  cases fails with
  | true =>
    obtain ⟨h1, rfl⟩ := mk.inj ht
    obtain rfl := Option.some.inj h1
    exact ⟨rfl, by decide⟩
  | false => cases ht

theorem Windowed.shrink (h : Windowed s) (hgeo : s'.geo = s.geo) (hnaive : s'.naive = s.naive)
    (hpa : ∀ i < PA_MAX, (s'.pa i).len ≠ 0 → (s.pa i).len ≠ 0 ∧ (s'.pa i).ino = (s.pa i).ino ∧
      ∀ b, (s'.pa i).Has b → (s.pa i).Has b)
    (hbits : ∀ i < PA_MAX, ∀ b, (s'.pa i).Has b → ∀ g < s.geo.ngroups, s.geo.In b g →
      bitsOf s g (b - s.geo.groupFirst g) = false → bitsOf s' g (b - s.geo.groupFirst g) = false) :
    Windowed s' := by
  refine ⟨fun i hi hl => ?_, fun i hi hl => ?_, fun i hi j hj hij hl hl' => ?_, fun hn i hi => ?_⟩
  · obtain ⟨h1, h2, -⟩ := hpa i hi hl
    rw [h2]
    exact h.owner i hi h1
  · obtain ⟨h1, -, h3⟩ := hpa i hi hl
    obtain ⟨g, hg, hin⟩ := h.group i hi h1
    rw [hgeo]
    refine ⟨g, hg, fun b hb => ?_⟩
    obtain ⟨h4, h5⟩ := hin b (h3 b hb)
    exact ⟨h4, hbits i hi b hb g hg h4 h5⟩
  · obtain ⟨h1, h2, h3⟩ := hpa i hi hl
    obtain ⟨k1, k2, k3⟩ := hpa j hj hl'
    obtain ⟨h4, h5⟩ := h.apart i hi j hj hij h1 k1
    rw [h2, k2]
    exact ⟨h4, fun b hb => h5 b ⟨h3 b hb.1, k3 b hb.2⟩⟩
  · by_contra hl
    exact (hpa i hi hl).1 (h.naive (hnaive ▸ hn) i hi)

theorem Wrote.outside {v : Bool} (hw : Wrote s s' v g bit n) {g' : Nat} (hin : s.geo.In b g')
    (hb : ¬(s.geo.groupFirst g + bit ≤ b ∧ b < s.geo.groupFirst g + bit + n)) :
    bitsOf s' g' (b - s.geo.groupFirst g') = bitsOf s g' (b - s.geo.groupFirst g') := by
  rw [hw, if_neg]
  rintro ⟨rfl, h1, h2⟩
  have := hin.1
  omega

theorem Wrote.used {v : Bool} (hw : Wrote s s' v g bit n) (hgeo : s'.geo = s.geo)
    (hg : g < s.geo.ngroups) (hfit : bit + n ≤ s.geo.groupCount g) (h1 : s.geo.firstDataBlock ≤ b)
    (h2 : b < s.geo.nblocks) :
    s'.used b = if s.geo.groupFirst g + bit ≤ b ∧ b < s.geo.groupFirst g + bit + n then v
      else s.used b := by
  obtain ⟨hgb, hin⟩ := s.geo.in_groupOf h1 h2
  unfold Fs.used
  rw [hgeo, hw]
  by_cases hb : s.geo.groupFirst g + bit ≤ b ∧ b < s.geo.groupFirst g + bit + n
  · have hof : s.geo.groupOf b = g := (Geo.groupOf_in hg ⟨by omega, by omega⟩).1
    rw [if_pos hb, if_pos ⟨hof, by rw [hof]; omega, by rw [hof]; omega⟩]
  · rw [if_neg hb, if_neg]
    rintro ⟨hof, h3, h4⟩
    have := hin.1
    rw [hof] at h3 h4 this
    omega

end

/-! ### What a search returns -/

/-- The run `r` was free, lies in one group, and is taken. -/
structure Took (s s' : Fs) (r : Nat × Nat) : Prop where
  geo : s'.geo = s.geo
  naive : s'.naive = s.naive
  frees : s'.frees = s.frees
  dead : s'.dead = s.dead
  pos : 1 ≤ r.2
  group : ∃ g < s.geo.ngroups, ∀ b, r.1 ≤ b → b < r.1 + r.2 → s.geo.In b g
  free : ∀ b, r.1 ≤ b → b < r.1 + r.2 → s.used b = false
  used : ∀ b, s.geo.firstDataBlock ≤ b → b < s.geo.nblocks →
    s'.used b = if r.1 ≤ b ∧ b < r.1 + r.2 then true else s.used b
  counted : Counted s'
  windowed : Windowed s'

def Windowless (s : Fs) (ino : Nat) : Prop := ∀ i < PA_MAX, (s.pa i).len ≠ 0 → (s.pa i).ino ≠ ino

/-- In the first pass the bitmap of a group was found damaged. -/
def Unreadable (env : Env) (g : Nat) : Prop := ∃ i x, env.bitmap (.search 0 g i) = some x ∧ x.err = .corrupt

section

variable {s s' : Fs} {env : Env} {ino g : Nat}

variable {b n z want g0 goalOff : Nat} {t : Fs} {r : Nat × Nat} {x y : Except Err (Nat × Nat) × Fs}

theorem used_of_in (hg : g < s.geo.ngroups) (hb : s.geo.In b g) :
    s.used b = bitsOf s g (b - s.geo.groupFirst g) := by
  unfold Fs.used
  rw [(Geo.groupOf_in hg hb).1]

theorem Pa.Has.len_ne {w : Pa} (h : w.Has b) : w.len ≠ 0 := by
  have h1 := h.1
  have h2 := h.2
  omega

theorem paDropOverlap_spec (s : Fs) (start : Nat) (hn : n ≠ 0) :
    (∀ i < PA_MAX, ((paDropOverlap s start n).pa i).len ≠ 0 → (s.pa i).len ≠ 0 ∧
      (paDropOverlap s start n).pa i = s.pa i) ∧
    ∀ i < PA_MAX, ∀ b, ((paDropOverlap s start n).pa i).Has b → ¬(start ≤ b ∧ b < start + n) := by
  have hcase : ∀ i < PA_MAX, ((s.pa i).meets start n = true ∧
      ((paDropOverlap s start n).pa i).len = 0) ∨
      ((s.pa i).meets start n ≠ true ∧ (paDropOverlap s start n).pa i = s.pa i) := by
    intro i hi
    by_cases hm : (s.pa i).meets start n = true
    · left
      refine ⟨hm, ?_⟩
      show (if i < PA_MAX ∧ (s.pa i).meets start n = true then _ else _ : Pa).len = 0
      rw [if_pos ⟨hi, hm⟩]
    · right
      exact ⟨hm, if_neg fun h => hm h.2⟩
  refine ⟨fun i hi hl => ?_, fun i hi b hb hin => ?_⟩
  · rcases hcase i hi with ⟨-, h0⟩ | ⟨-, heq⟩
    · exact absurd h0 hl
    · rw [heq] at hl ⊢
      exact ⟨hl, rfl⟩
  · rcases hcase i hi with ⟨-, h0⟩ | ⟨hm, heq⟩
    · exact hb.len_ne h0
    · rw [heq] at hb
      exact hm ((Pa.meets_iff hn).2 ⟨b, hin.1, hin.2, hb⟩)

/-- The same volume but for its windows. -/
structure SameBlocks (s s' : Fs) : Prop where
  geo : s'.geo = s.geo
  naive : s'.naive = s.naive
  groups : s'.groups = s.groups
  freeBlocks : s'.freeBlocks = s.freeBlocks
  frees : s'.frees = s.frees
  dead : s'.dead = s.dead

theorem SameBlocks.refl (s : Fs) : SameBlocks s s := ⟨rfl, rfl, rfl, rfl, rfl, rfl⟩

theorem SameBlocks.bits (h : SameBlocks s s') (g : Nat) : bitsOf s' g = bitsOf s g := by
  unfold bitsOf
  rw [h.groups, h.geo]

theorem SameBlocks.used (h : SameBlocks s s') (b : Nat) : s'.used b = s.used b := by
  unfold Fs.used
  rw [h.geo, h.bits]

theorem SameBlocks.counted (h : SameBlocks s s') (hc : Counted s) : Counted s' := by
  refine ⟨fun g hg => ?_, ?_, ?_⟩
  · rw [h.geo] at hg ⊢
    rw [h.bits, h.groups]
    exact hc.group g hg
  · rw [h.geo, h.groups, h.freeBlocks]
    exact hc.total
  · rw [h.groups]
    exact hc.fresh

theorem SameBlocks.windowed (h : SameBlocks s s') (hw : Windowed s)
    (hpa : ∀ i < PA_MAX, (s'.pa i).len ≠ 0 → (s.pa i).len ≠ 0 ∧ (s'.pa i).ino = (s.pa i).ino ∧
      ∀ b, (s'.pa i).Has b → (s.pa i).Has b) : Windowed s' :=
  hw.shrink h.geo h.naive hpa fun i _ b _ g _ _ hfree => by rw [h.bits]; exact hfree

theorem SameBlocks.took (h : SameBlocks s s') (ht : Took s' t r) : Took s t r := by
  refine ⟨ht.geo.trans h.geo, ht.naive.trans h.naive, ht.frees.trans h.frees,
    ht.dead.trans h.dead, ht.pos, ?_, fun b hb hb' => ?_, fun b hb hb' => ?_, ht.counted, ht.windowed⟩
  · rw [← h.geo]
    exact ht.group
  · rw [← h.used]
    exact ht.free b hb hb'
  · rw [← h.used]
    rw [← h.geo] at hb hb'
    exact ht.used b hb hb'

theorem took_of_takeRun (hc : Counted s) (hw : Windowed s) (hg : g < s.geo.ngroups) (hn : 0 < n)
    (hcnt : z + n ≤ s.geo.groupCount g) (hz : ∀ i, z ≤ i → i < z + n → bitsOf s g i = false)
    {fails : Bool} (ht : takeRun s g (bitsOf s g) z n fails = (none, t)) (hsame : SameBlocks t s')
    (hpa : ∀ i < PA_MAX, (s'.pa i).len ≠ 0 → (s.pa i).len ≠ 0 ∧ (s'.pa i).ino = (s.pa i).ino ∧
      ∀ b, (s'.pa i).Has b → (s.pa i).Has b) (hmiss : ∀ i < PA_MAX, ∀ b, (s'.pa i).Has b →
      ¬(s.geo.groupFirst g + z ≤ b ∧ b < s.geo.groupFirst g + z + n)) :
    Took s s' (s.geo.groupFirst g + z, n) := by
  obtain ⟨h1, h2, h3, h4, h5, h6, h7⟩ := takeRun_ok hc hg hcnt hz ht
  have hwrote : Wrote s s' true g z n := fun g' i => by rw [hsame.bits]; exact h2 g' i
  have hgeo := hsame.geo.trans h3
  have hin : ∀ b, s.geo.groupFirst g + z ≤ b → b < s.geo.groupFirst g + z + n → s.geo.In b g :=
    fun b hb hb' => ⟨by omega, by omega⟩
  refine ⟨hgeo, hsame.naive.trans h4, hsame.frees.trans h6, hsame.dead.trans h7, hn, ⟨g, hg, hin⟩,
    fun b hb hb' => ?_, fun b hb hb' => hwrote.used hgeo hg hcnt hb hb', hsame.counted h1, ?_⟩
  · rw [used_of_in hg (hin b hb hb')]
    exact hz _ (by omega) (by omega)
  · refine hw.shrink hgeo (hsame.naive.trans h4) hpa fun i hi b hb g' _ hin' hfree => ?_
    rw [hwrote.outside hin' (hmiss i hi b hb)]
    exact hfree

theorem clear_way {e : Nat} {strict : Bool} (hown : Windowless s ino) (hze : z < e)
    (hfree : strict = true → ∀ b, s.geo.groupFirst g + z ≤ b → b < s.geo.groupFirst g + e →
      ¬s.Reserved ino b)
    (hs : s' = if strict = true then s else paDropOverlap s (s.geo.groupFirst g + z) (e - z)) :
    SameBlocks s s' ∧ (∀ i < PA_MAX, (s'.pa i).len ≠ 0 → (s.pa i).len ≠ 0 ∧ s'.pa i = s.pa i) ∧
      ∀ i < PA_MAX, ∀ b, (s'.pa i).Has b →
        ¬(s.geo.groupFirst g + z ≤ b ∧ b < s.geo.groupFirst g + e) := by
  cases strict with
  | true =>
    obtain rfl : s' = s := hs
    refine ⟨.refl _, fun i _ hl => ⟨hl, rfl⟩, fun i hi b hb hin => ?_⟩
    exact hfree rfl b hin.1 hin.2 ⟨i, hi, hown i hi hb.len_ne, hb⟩
  | false =>
    obtain rfl : s' = paDropOverlap s (s.geo.groupFirst g + z) (e - z) := hs
    obtain ⟨h1, h2⟩ := paDropOverlap_spec s (s.geo.groupFirst g + z)
      (show e - z ≠ 0 by omega)
    refine ⟨⟨rfl, rfl, rfl, rfl, rfl, rfl⟩, h1, fun i hi b hb hin => h2 i hi b hb ⟨hin.1, ?_⟩⟩
    omega

/-- The free run that a search has found is taken, and no window is in its way. -/
theorem took_found {e : Nat} {s1 s2 : Fs} {strict fails : Bool} (hc : Counted s) (hw : Windowed s)
    (hown : Windowless s ino) (hg : g < s.geo.ngroups) (hze : z < e) (hcnt : e ≤ s.geo.groupCount g)
    (hzero : ∀ i, z ≤ i → i < e → bitsOf s g i = false)
    (hfree : strict = true → ∀ b, s.geo.groupFirst g + z ≤ b → b < s.geo.groupFirst g + e →
      ¬s.Reserved ino b)
    (hs : s1 = if strict then s else paDropOverlap s (s.geo.groupFirst g + z) (e - z))
    (ht : takeRun s1 g (bitsOf s g) z (e - z) fails = (none, s2)) :
    Took s s2 (s.geo.groupFirst g + z, e - z) ∧ Windowless s2 ino := by
  obtain ⟨hsame, hpa, hmiss⟩ := clear_way hown hze hfree hs
  have hw1 : Windowed s1 := hsame.windowed hw fun i hi hl =>
    ⟨(hpa i hi hl).1, by rw [(hpa i hi hl).2], fun b hb => (hpa i hi hl).2 ▸ hb⟩
  have hgeo := hsame.geo
  rw [← hsame.bits g] at ht hzero
  rw [← hgeo] at hg hcnt hmiss ⊢
  have hzero' : ∀ i, z ≤ i → i < z + (e - z) → bitsOf s1 g i = false := fun i hi hi' => hzero i hi (by omega)
  have hpa2 : s2.pa = s1.pa := (takeRun_ok (hsame.counted hc) hg (by omega) hzero' ht).2.2.2.2.1
  refine ⟨hsame.took (took_of_takeRun (hsame.counted hc) hw1 hg (by omega) (by omega) hzero' ht (.refl _)
    (fun i _ hl => by rw [hpa2] at hl ⊢; exact ⟨hl, rfl, fun _ h => h⟩)
    fun i hi b hb hin => hmiss i hi b (hpa2 ▸ hb) ⟨hin.1, by omega⟩), fun i hi hl => ?_⟩
  rw [hpa2] at hl ⊢
  rw [(hpa i hi hl).2]
  exact hown i hi (hpa i hi hl).1

theorem searchGroup_spec (env : Env) (site : Site) {start : Nat} (strict : Bool) (hc : Counted s)
    (hw : Windowed s) (hown : Windowless s ino) (hg : g < s.geo.ngroups) (hwant : 0 < want)
    (hstart : start < s.geo.groupCount g) :
    (∀ r s', searchGroup s env site ino g start want strict = (.ok r, s') →
      Took s s' r ∧ r.2 ≤ want ∧ Windowless s' ino ∧
        (strict = true → ∀ b, r.1 ≤ b → b < r.1 + r.2 → ¬s.Reserved ino b)) ∧
    (∀ e s', searchGroup s env site ino g start want strict = (.error e, s') →
      s'.dead = true ∧ e ≠ .noSpc ∨ s' = s ∧ (e = .noSpc →
        (∃ x, env.bitmap site = some x ∧ x.err = .corrupt) ∨
        ∀ b, s.geo.In b g → s.geo.groupFirst g + start ≤ b → s.used b = false →
          strict = true ∧ s.Reserved ino b)) := by
  obtain ⟨res, hres⟩ : ∃ res, res = searchGroup s env site ino g start want strict := ⟨_, rfl⟩
  rw [← hres]
  unfold searchGroup at hres
  cases hgd : env.gdRead site with
  | some f =>
    rw [hgd] at hres
    subst hres
    refine ⟨fun r s' h => (by cases h), fun e s' h => .inr ?_⟩
    obtain ⟨h1, rfl⟩ := mk.inj h
    exact ⟨rfl, fun he => absurd ((error.inj h1).trans he) f.real⟩
  | none =>
    rw [hgd] at hres
    by_cases hfree : (s.groups g).free = 0
    · rw [if_pos hfree] at hres
      subst hres
      refine ⟨fun r s' h => (by cases h), fun e s' h => .inr ?_⟩
      obtain ⟨-, rfl⟩ := mk.inj h
      refine ⟨rfl, fun _ => .inr fun b hb _ hu => ?_⟩
      rw [used_of_in hg hb] at hu
      have hpos := zeros_pos (show b - s.geo.groupFirst g < s.geo.groupCount g by
        have := hb.1; have := hb.2; omega) hu
      rw [← hc.group g hg, hfree] at hpos
      exact absurd hpos (lt_irrefl 0)
    · rw [if_neg hfree] at hres
      cases hmap : blockBitmap s g (env.bitmap site) with
      | error e =>
        obtain ⟨x, hx, hxe⟩ := hc.blockBitmap_error hg hmap
        have hcase : res = (.error e, s) ∨ e = .corrupt ∧ res = (.error .noSpc, s) := by
          cases e <;> simp_all
        refine ⟨fun r s' h => ?_, fun e' s' h => .inr ?_⟩
        · rcases hcase with rfl | ⟨-, rfl⟩ <;> cases h
        · rcases hcase with rfl | ⟨he, rfl⟩
          · obtain ⟨h1, rfl⟩ := mk.inj h
            exact ⟨rfl, fun he => absurd (hxe.trans ((error.inj h1).trans he)) x.real⟩
          · obtain ⟨-, rfl⟩ := mk.inj h
            exact ⟨rfl, fun _ => .inl ⟨x, hx, hxe.trans he⟩⟩
      | ok map =>
        obtain rfl := blockBitmap_ok hmap
        rw [hmap] at hres
        simp only at hres
        rw [if_pos hstart] at hres
        obtain ⟨hsome, hnone⟩ := searchLoop_spec s ino (s.geo.groupFirst g) (bitsOf s g)
          strict hwant (show s.geo.groupCount g < start + (s.geo.groupCount g + 1) by omega)
        cases hloop : searchLoop s ino (s.geo.groupFirst g) (bitsOf s g) (s.geo.groupCount g) want
          strict (s.geo.groupCount g + 1) start with
        | none =>
          rw [hloop] at hres
          subst hres
          refine ⟨fun r s' h => (by cases h), fun e s' h => .inr ?_⟩
          obtain ⟨-, rfl⟩ := mk.inj h
          refine ⟨rfl, fun _ => .inr fun b hb hlow hu => ?_⟩
          rw [used_of_in hg hb] at hu
          have hb1 := hb.1
          have hb2 := hb.2
          have := hnone hloop (b - s.geo.groupFirst g) (by omega) (by omega) hu
          rwa [Nat.add_sub_cancel' hb1] at this
        | some r =>
          obtain ⟨z, e⟩ := r
          obtain ⟨hze, hecnt, hewant, hzero, hres'⟩ := hsome z e hloop
          rw [hloop] at hres
          simp only at hres
          generalize hs1 : (if strict = true then s
            else paDropOverlap s (s.geo.groupFirst g + z) (e - z)) = s1 at hres
          cases htake : takeRun s1 g (bitsOf s g) z (e - z) (env.gdWrite site) with
          | mk o s2 =>
            rw [htake] at hres
            cases o with
            | some err =>
              subst hres
              refine ⟨fun r s' h => (by cases h), fun e' s' h => .inl ?_⟩
              obtain ⟨h1, rfl⟩ := mk.inj h
              obtain rfl := error.inj h1
              exact takeRun_error htake
            | none =>
              subst hres
              refine ⟨fun r s' h => ?_, fun e' s' h => (by cases h)⟩
              obtain ⟨h1, rfl⟩ := mk.inj h
              obtain rfl := ok.inj h1
              obtain ⟨htook, hless⟩ := took_found hc hw hown hg hze hecnt hzero hres' hs1.symm htake
              refine ⟨htook, by show e - z ≤ want; omega, hless, fun hs b hb hb' => hres' hs b hb ?_⟩
              omega

theorem orNext_ok :
    orNext x y = (.ok r, s') ↔ x = (.ok r, s') ∨ x = (.error .noSpc, x.2) ∧ y = (.ok r, s') := by
  obtain ⟨res, t⟩ := x
  cases res with
  | ok r' => simp [orNext]
  | error e => cases e <;> simp [orNext]

theorem orNext_error {e : Err} : orNext x y = (.error e, s') ↔
      x = (.error e, s') ∧ e ≠ .noSpc ∨ x = (.error .noSpc, x.2) ∧ y = (.error e, s') := by
  obtain ⟨res, t⟩ := x
  cases res with
  | ok r' => simp [orNext]
  | error e' =>
    by_cases he : e' = .noSpc
    · subst he
      constructor
      · exact fun h => .inr ⟨by trivial, h⟩
      · rintro (⟨h, hne⟩ | ⟨-, h⟩)
        · exact absurd (error.inj (mk.inj h).1).symm hne
        · exact h
    · have hx : orNext (.error e', t) y = (.error e', t) := by
        cases e' <;> first | rfl | exact absurd rfl he
      rw [hx]
      constructor
      · exact fun h => .inl ⟨h, (error.inj (mk.inj h).1) ▸ he⟩
      · rintro (⟨h, -⟩ | ⟨h, -⟩)
        · exact h
        · exact absurd (error.inj (mk.inj h).1) he

theorem searchGroups_spec (env : Env) (pass : Nat) (strict : Bool) (hc : Counted s)
    (hw : Windowed s) (hown : Windowless s ino) (hwant : 0 < want) (hg0 : g0 < s.geo.ngroups)
    (hoff : goalOff < s.geo.groupCount g0) : ∀ n i,
    (∀ r s', searchGroups s env pass ino g0 goalOff want strict n i = (.ok r, s') →
      Took s s' r ∧ r.2 ≤ want ∧ Windowless s' ino ∧
        (strict = true → ∀ b, r.1 ≤ b → b < r.1 + r.2 → ¬s.Reserved ino b)) ∧
    (∀ e s', searchGroups s env pass ino g0 goalOff want strict n i = (.error e, s') →
      s'.dead = true ∧ e ≠ .noSpc ∨ s' = s ∧ (e = .noSpc → ∀ j, i ≤ j → j < i + n →
        j ≤ s.geo.ngroups → (j = s.geo.ngroups → goalOff ≠ 0) →
        (∃ x, env.bitmap (.search pass ((g0 + j) % s.geo.ngroups) j) = some x ∧ x.err = .corrupt) ∨
        ∀ b, s.geo.In b ((g0 + j) % s.geo.ngroups) →
          s.geo.groupFirst ((g0 + j) % s.geo.ngroups) + (if j = 0 then goalOff else 0) ≤ b →
          s.used b = false → strict = true ∧ s.Reserved ino b)) := by
  intro n
  induction n with
  | zero =>
    intro i
    refine ⟨fun r s' h => (by cases h), fun e s' h => .inr ?_⟩
    obtain ⟨-, rfl⟩ := mk.inj h
    exact ⟨rfl, fun _ j h1 h2 => absurd h2 (by omega)⟩
  | succ n ih =>
    intro i
    rw [searchGroups]
    by_cases hend : i = s.geo.ngroups ∧ goalOff = 0
    · rw [if_pos hend]
      refine ⟨fun r s' h => (by cases h), fun e s' h => .inr ?_⟩
      obtain ⟨-, rfl⟩ := mk.inj h
      exact ⟨rfl, fun _ j h1 _ h3 h4 => absurd hend.2 (h4 (by omega))⟩
    · rw [if_neg hend]
      have hg : (g0 + i) % s.geo.ngroups < s.geo.ngroups := Nat.mod_lt _ s.geo.ngroups_pos
      have hstart : (if i = 0 then goalOff else 0) < s.geo.groupCount ((g0 + i) % s.geo.ngroups) := by
        split
        · rename_i hi
          rw [hi, Nat.add_zero, Nat.mod_eq_of_lt hg0]
          exact hoff
        · exact Geo.groupCount_pos hg
      obtain ⟨hok, herr⟩ := searchGroup_spec env
        (.search pass ((g0 + i) % s.geo.ngroups) i) strict hc hw hown hg hwant
        hstart
      obtain ⟨h1, h2⟩ := ih (i + 1)
      refine ⟨fun r s' h => ?_, fun e s' h => ?_⟩
      · rcases orNext_ok.1 h with hcur | ⟨-, hnext⟩
        · exact hok r s' hcur
        · exact h1 r s' hnext
      · rcases orNext_error.1 h with ⟨hcur, he⟩ | ⟨hcur, hnext⟩
        · rcases herr e s' hcur with hd | ⟨hs, -⟩
          · exact .inl hd
          · exact .inr ⟨hs, fun he' => absurd he' he⟩
        · rcases herr _ _ hcur with ⟨-, hno⟩ | ⟨-, hthis⟩
          · exact absurd rfl hno
          rcases h2 e s' hnext with hd | ⟨hs, hcover⟩
          · exact .inl hd
          · refine .inr ⟨hs, fun he j hj hj' hlast hoff' => ?_⟩
            by_cases hji : j = i
            · rw [hji]
              exact hthis rfl
            · exact hcover he j (by omega) (by omega) hlast hoff'

theorem pass_covers {P : Nat → Prop} (hg0 : g0 < s.geo.ngroups)
    (hcover : ∀ j, 0 ≤ j → j < 0 + (s.geo.ngroups + 1) → j ≤ s.geo.ngroups →
      (j = s.geo.ngroups → goalOff ≠ 0) →
      (∃ x, env.bitmap (.search 0 ((g0 + j) % s.geo.ngroups) j) = some x ∧ x.err = .corrupt) ∨
      ∀ b, s.geo.In b ((g0 + j) % s.geo.ngroups) →
        s.geo.groupFirst ((g0 + j) % s.geo.ngroups) + (if j = 0 then goalOff else 0) ≤ b →
        s.used b = false → P b) (hb : s.geo.firstDataBlock ≤ b) (hb' : b < s.geo.nblocks)
    (hu : s.used b = false) : P b ∨ Unreadable env (s.geo.groupOf b) := by
  obtain ⟨hg, hin⟩ := s.geo.in_groupOf hb hb'
  -- the round in which the block is looked at
  obtain ⟨j, hj, hoff, hmod, hlow⟩ : ∃ j ≤ s.geo.ngroups, (j = s.geo.ngroups → goalOff ≠ 0) ∧
      (g0 + j) % s.geo.ngroups = s.geo.groupOf b ∧
      s.geo.groupFirst (s.geo.groupOf b) + (if j = 0 then goalOff else 0) ≤ b := by
    have hfirst := hin.1
    by_cases hlt : g0 < s.geo.groupOf b
    · refine ⟨s.geo.groupOf b - g0, by omega, by omega, ?_, ?_⟩
      · rw [Nat.add_sub_cancel' hlt.le, Nat.mod_eq_of_lt hg]
      · rw [if_neg (by omega)]
        exact hfirst
    · by_cases hgt : s.geo.groupOf b < g0
      · refine ⟨s.geo.ngroups - (g0 - s.geo.groupOf b), by omega, by omega, ?_, ?_⟩
        · rw [show g0 + (s.geo.ngroups - (g0 - s.geo.groupOf b)) =
            s.geo.groupOf b + s.geo.ngroups by omega, Nat.add_mod_right, Nat.mod_eq_of_lt hg]
        · rw [if_neg (by omega)]
          exact hfirst
      · have heq : g0 = s.geo.groupOf b := by omega
        by_cases hlow : s.geo.groupFirst (s.geo.groupOf b) + goalOff ≤ b
        · refine ⟨0, by omega, by omega, ?_, ?_⟩
          · rw [Nat.add_zero, heq, Nat.mod_eq_of_lt hg]
          · rw [if_pos rfl]
            exact hlow
        · refine ⟨s.geo.ngroups, le_rfl, fun _ => by omega, ?_, ?_⟩
          · rw [Nat.add_mod_right, heq, Nat.mod_eq_of_lt hg]
          · rw [if_neg (by omega)]
            exact hfirst
  rcases hcover j (Nat.zero_le _) (by omega) hj hoff with ⟨x, hx, he⟩ | hcov
  · right
    rw [hmod] at hx
    exact ⟨j, x, hx, he⟩
  · left
    rw [hmod] at hcov
    exact hcov b hin hlow hu

/-- **What `alloc_search` returns**: a run of free blocks that avoids the windows
of other inodes, or all that was free and readable was reserved for others. -/
theorem allocSearch_spec (env : Env) (goal : Nat) (hc : Counted s) (hw : Windowed s)
    (hown : Windowless s ino) (hwant : 0 < want) :
    (∀ r s', allocSearch s env ino goal want = (.ok r, s') →
      Took s s' r ∧ r.2 ≤ want ∧ Windowless s' ino ∧
        ((∀ b, r.1 ≤ b → b < r.1 + r.2 → ¬s.Reserved ino b) ∨
          ∀ b, s.geo.firstDataBlock ≤ b → b < s.geo.nblocks → s.used b = false →
            s.Reserved ino b ∨ Unreadable env (s.geo.groupOf b))) ∧
    (∀ e s', allocSearch s env ino goal want = (.error e, s') → s'.dead = true ∨ s' = s) := by
  unfold allocSearch
  generalize hgoal : (if s.geo.blockValid goal = true then goal else s.geo.firstDataBlock) = b0
  have hb0 : s.geo.firstDataBlock ≤ b0 ∧ b0 < s.geo.nblocks := by
    rw [← hgoal]
    split
    · rename_i hv
      unfold Geo.blockValid at hv
      rwa [decide_eq_true_iff] at hv
    · exact ⟨le_rfl, s.geo.nblocks_gt⟩
  obtain ⟨hg0, hin⟩ := s.geo.in_groupOf hb0.1 hb0.2
  have hoff : b0 - s.geo.groupFirst (s.geo.groupOf b0) < s.geo.groupCount (s.geo.groupOf b0) := by
    have := hin.1
    have := hin.2
    omega
  obtain ⟨hok0, herr0⟩ := searchGroups_spec env 0 (!s.naive) hc hw hown
    hwant hg0 hoff (s.geo.ngroups + 1) 0
  obtain ⟨hok1, herr1⟩ := searchGroups_spec env 1 false hc hw hown
    hwant hg0 hoff (s.geo.ngroups + 1) 0
  refine ⟨fun r s' h => ?_, fun e s' h => ?_⟩
  · by_cases hn : s.naive = true
    · -- no window is ever set
      have hnone : ∀ b, ¬s.Reserved ino b := by
        rintro b ⟨i, hi, -, hb⟩
        exact hb.len_ne (hw.naive hn i hi)
      rcases orNext_ok.1 h with h | ⟨-, h⟩
      · obtain ⟨h1, h2, h3, -⟩ := hok0 r s' h
        exact ⟨h1, h2, h3, .inl fun b _ _ => hnone b⟩
      · obtain ⟨h1, h2, h3, -⟩ := hok1 r s' h
        exact ⟨h1, h2, h3, .inl fun b _ _ => hnone b⟩
    · rcases orNext_ok.1 h with h | ⟨hfail, h⟩
      · obtain ⟨h1, h2, h3, h4⟩ := hok0 r s' h
        exact ⟨h1, h2, h3, .inl (h4 (by simpa using hn))⟩
      · obtain ⟨h1, h2, h3, -⟩ := hok1 r s' h
        refine ⟨h1, h2, h3, .inr fun b hb hb' hu => ?_⟩
        rcases herr0 _ _ hfail with ⟨-, hno⟩ | ⟨-, hcover⟩
        · exact absurd rfl hno
        exact (pass_covers hg0 (hcover rfl) hb hb' hu).imp_left And.right
  · rcases orNext_error.1 h with ⟨h, -⟩ | ⟨-, h⟩
    · rcases herr0 e s' h with ⟨hd, -⟩ | ⟨hs, -⟩
      · exact .inl hd
      · exact .inr hs
    · rcases herr1 e s' h with ⟨hd, -⟩ | ⟨hs, -⟩
      · exact .inl hd
      · exact .inr hs

end

end Win98Modern.Libsfs.Alloc
