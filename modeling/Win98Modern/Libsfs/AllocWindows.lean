import Win98Modern.Libsfs.AllocSpec

/-!
# What an allocation returns

The window of the inode as the fast path, the search, and the window that is set
behind the blocks taken.  `allocBlocks_spec` and `allocMetaBlock_spec` say what a
successful call returns; an unsuccessful one changes windows at most, or aborts the
volume.
-/

namespace Win98Modern.Libsfs.Alloc

open Function List

/-! ### Windows of an inode -/

section

variable {s s' : Fs} {env : Env} {ino i : Nat}

theorem paOf_some (h : paOf s ino = some i) :
    i < PA_MAX ∧ (s.pa i).len ≠ 0 ∧ (s.pa i).ino = ino := by
  have hmem := mem_of_find?_eq_some h
  have hp := List.find?_some h
  rw [decide_eq_true_iff] at hp
  exact ⟨mem_range.1 hmem, hp⟩

theorem paOf_none (h : paOf s ino = none) : Windowless s ino := by
  intro i hi hl hino
  unfold paOf at h
  rw [List.find?_eq_none] at h
  exact h i (mem_range.2 hi) (by rw [decide_eq_true_iff]; exact ⟨hl, hino⟩)

theorem SameBlocks.of_pa (s : Fs) (pa : Nat → Pa) (clock : Nat) :
    SameBlocks s { s with pa := pa, clock := clock } := ⟨rfl, rfl, rfl, rfl, rfl, rfl⟩

theorem drop_same (s : Fs) (i : Nat) : SameBlocks s (s.drop i) := .of_pa ..

theorem drop_self : ((s.drop i).pa i).len = 0 := by
  show (update s.pa i { s.pa i with len := 0 } i).len = 0
  rw [update_self]

theorem drop_other {j : Nat} (h : j ≠ i) : (s.drop i).pa j = s.pa j := update_of_ne h _ _

theorem drop_pa {j : Nat} (hl : ((s.drop i).pa j).len ≠ 0) : j ≠ i ∧ (s.drop i).pa j = s.pa j := by
  have hj : j ≠ i := by
    rintro rfl
    exact hl drop_self
  exact ⟨hj, drop_other hj⟩

theorem Windowed.drop (h : Windowed s) : Windowed (s.drop i) :=
  (drop_same s i).windowed h fun j _ hl => by
    have hpa := (drop_pa hl).2
    rw [hpa] at hl ⊢
    exact ⟨hl, rfl, fun _ hb => hb⟩

theorem Windowed.windowless_drop (h : Windowed s) (hi : paOf s ino = some i) :
    Windowless (s.drop i) ino := by
  intro j hj hl hino
  obtain ⟨hne, hpa⟩ := drop_pa hl
  rw [hpa] at hl hino
  obtain ⟨hi1, hi2, hi3⟩ := paOf_some hi
  exact (h.apart j hj i hi1 hne hl hi2).1 (hino.trans hi3.symm)

theorem drop_reserved (hi : (s.pa i).ino = ino) {b : Nat} :
    (s.drop i).Reserved ino b ↔ s.Reserved ino b := by
  constructor
  · rintro ⟨j, hj, hne, hb⟩
    rw [(drop_pa hb.len_ne).2] at hne hb
    exact ⟨j, hj, hne, hb⟩
  · rintro ⟨j, hj, hne, hb⟩
    have hji : j ≠ i := by
      rintro rfl
      exact hne hi
    exact ⟨j, hj, by rw [drop_other hji]; exact hne, by rw [drop_other hji]; exact hb⟩

theorem paRelease_spec (ino : Nat) (h : Windowed s) : SameBlocks s (paRelease s ino) ∧
    Windowed (paRelease s ino) := by
  unfold paRelease
  split
  · exact ⟨drop_same .., h.drop⟩
  · exact ⟨.refl _, h⟩

/-- The run avoids the windows of other inodes, or all that was free and readable
was reserved for others. -/
def Spares (s : Fs) (env : Env) (ino : Nat) (r : Nat × Nat) : Prop :=
  (∀ b, r.1 ≤ b → b < r.1 + r.2 → ¬s.Reserved ino b) ∨
    ∀ b, s.geo.firstDataBlock ≤ b → b < s.geo.nblocks → s.used b = false →
      s.Reserved ino b ∨ Unreadable env (s.geo.groupOf b)

theorem Windowed.missed (hw : Windowed s) (hi : paOf s ino = some i) {j b : Nat} (hj : j < PA_MAX) (hji : j ≠ i)
    (hb : (s.pa j).Has b) : ¬(s.pa i).Has b := fun hbi => by
  obtain ⟨hi1, hi2, -⟩ := paOf_some hi
  exact (hw.apart j hj i hi1 hji hb.len_ne hi2).2 b ⟨hb, hbi⟩

/-- The front of the window is taken, and the window begins behind it. -/
theorem took_front {g bit n clock : Nat} {t : Fs} {fails : Bool} {x : Pa} (hc : Counted s) (hw : Windowed s)
    (hi : paOf s ino = some i) (hg : g < s.geo.ngroups) (hn : 0 < n) (hle : n ≤ (s.pa i).len)
    (hcnt : bit + n ≤ s.geo.groupCount g) (hbit : s.geo.groupFirst g + bit = (s.pa i).pblk)
    (hzero : ∀ k, bit ≤ k → k < bit + n → bitsOf s g k = false)
    (ht : takeRun s g (bitsOf s g) bit n fails = (none, t)) (hino : x.ino = (s.pa i).ino)
    (hpblk : x.pblk = (s.pa i).pblk + n) (hlen : x.len = (s.pa i).len - n) :
    Took s { t with pa := update t.pa i x, clock := clock } ((s.pa i).pblk, n) := by
  have htpa := (takeRun_ok hc hg hcnt hzero ht).2.2.2.2.1
  have hself : ∀ {j}, j = i → update t.pa i x j = x := by
    rintro j rfl
    exact update_self ..
  have hother : ∀ {j}, j ≠ i → update t.pa i x j = s.pa j := fun hj =>
    (update_of_ne hj _ _).trans (by rw [htpa])
  have hrest : ∀ b, x.Has b → (s.pa i).pblk + n ≤ b ∧ (s.pa i).Has b := by
    intro b hb
    have h1 := hb.1
    have h2 := hb.2
    exact ⟨by omega, by omega, by omega⟩
  rw [← hbit]
  refine took_of_takeRun hc hw hg hn hcnt hzero ht (.of_pa ..) ?_ ?_
  · intro j _ hl
    show (s.pa j).len ≠ 0 ∧ (update t.pa i x j).ino = _ ∧ ∀ b, (update t.pa i x j).Has b → _
    have hl : (update t.pa i x j).len ≠ 0 := hl
    by_cases hji : j = i
    · rw [hself hji, hji]
      exact ⟨(paOf_some hi).2.1, hino, fun b hb => (hrest b hb).2⟩
    · rw [hother hji] at hl ⊢
      exact ⟨hl, rfl, fun _ hb => hb⟩
  · intro j hj b hb hin
    have hb : (update t.pa i x j).Has b := hb
    by_cases hji : j = i
    · rw [hself hji] at hb
      have := (hrest b hb).1
      omega
    · rw [hother hji] at hb
      exact hw.missed hi hj hji hb ⟨by omega, by omega⟩

theorem takeWindow_spec (env : Env) {want : Nat} (hc : Counted s) (hw : Windowed s) (hi : paOf s ino = some i)
    (hwant : 0 < want) :
    (∀ r s', takeWindow s env i want = (.ok (some r), s') →
      Took s s' r ∧ r.2 ≤ want ∧ Spares s env ino r) ∧
    (∀ s', takeWindow s env i want = (.ok none, s') → s' = s.drop i) ∧
    (∀ e s', takeWindow s env i want = (.error e, s') → s'.dead = true ∨ s' = s) := by
  obtain ⟨hi1, hi2, hi3⟩ := paOf_some hi
  obtain ⟨g, hg, hin⟩ := hw.group i hi1 hi2
  have hhas : ∀ b, (s.pa i).pblk ≤ b → b < (s.pa i).pblk + (s.pa i).len → (s.pa i).Has b :=
    fun b h1 h2 => ⟨h1, h2⟩
  have hfirst := (hin _ (hhas (s.pa i).pblk le_rfl (by omega))).1
  have hlast := (hin _ (hhas ((s.pa i).pblk + (s.pa i).len - 1) (by omega) (by omega))).1
  have hof : s.geo.groupOf (s.pa i).pblk = g := (Geo.groupOf_in hg hfirst).1
  obtain ⟨res, hres⟩ : ∃ res, res = takeWindow s env i want := ⟨_, rfl⟩
  rw [← hres]
  unfold takeWindow at hres
  simp only [hof] at hres
  cases hgd : env.gdRead .window with
  | some f =>
    rw [hgd] at hres
    simp only at hres
    split at hres
    · subst hres
      refine ⟨fun r s' h => (by cases h), fun s' h => ?_, fun e s' h => (by cases h)⟩
      exact (Prod.mk.inj h).2.symm
    · subst hres
      refine ⟨fun r s' h => (by cases h), fun s' h => (by cases h), fun e s' h => .inr ?_⟩
      exact (Prod.mk.inj h).2.symm
  | none =>
    rw [hgd] at hres
    cases hmap : blockBitmap s g (env.bitmap .window) with
    | error e =>
      rw [hmap] at hres
      have hcase : res = (.ok none, s.drop i) ∨ ∃ e', res = (.error e', s) := by
        cases e <;> first | exact .inl hres | exact .inr ⟨_, hres⟩
      rcases hcase with rfl | ⟨e', rfl⟩
      · refine ⟨fun r s' h => (by cases h), fun s' h => ?_, fun e s' h => (by cases h)⟩
        exact (Prod.mk.inj h).2.symm
      · refine ⟨fun r s' h => (by cases h), fun s' h => (by cases h), fun e s' h => .inr ?_⟩
        exact (Prod.mk.inj h).2.symm
    | ok map =>
      obtain rfl := blockBitmap_ok hmap
      rw [hmap] at hres
      simp only at hres
      obtain ⟨bit, hbit⟩ : ∃ bit, bit = (s.pa i).pblk - s.geo.groupFirst g := ⟨_, rfl⟩
      obtain ⟨n, hn⟩ : ∃ n, n = min want (s.pa i).len := ⟨_, rfl⟩
      have hf1 := hfirst.1
      have hl2 := hlast.2
      rw [← hbit, ← hn, if_neg (show ¬bit + n > s.geo.groupCount g by omega)] at hres
      have hzero : ∀ k, bit ≤ k → k < bit + n → bitsOf s g k = false := by
        intro k h1 h2
        have := (hin _ (hhas (s.geo.groupFirst g + k) (by omega) (by omega))).2
        rwa [Nat.add_sub_cancel_left] at this
      -- the window is free, so all of it is taken
      have hend : findOne (bitsOf s g) bit (bit + n) = bit + n := by
        obtain ⟨e1, e2, -, e4⟩ := findBit_spec (bitsOf s g) (show bit ≤ bit + n by omega)
        by_contra hne
        have hlt : findBit (bitsOf s g) bit (bit + n) < bit + n :=
          lt_of_le_of_ne e2 hne
        have := e4 hlt
        rw [hzero _ e1 hlt] at this
        cases this
      rw [hend, if_pos (show bit + n > bit by omega), Nat.add_sub_cancel_left] at hres
      cases htake : takeRun s g (bitsOf s g) bit n (env.gdWrite .window) with
      | mk o t =>
        rw [htake] at hres
        cases o with
        | some err =>
          subst hres
          refine ⟨fun r s' h => (by cases h), fun s' h => (by cases h), fun e s' h => .inl ?_⟩
          obtain ⟨-, rfl⟩ := Prod.mk.inj h
          exact (takeRun_error htake).1
        | none =>
          subst hres
          refine ⟨fun r s' h => ?_, fun s' h => (by cases h), fun e s' h => (by cases h)⟩
          obtain ⟨h1, rfl⟩ := Prod.mk.inj h
          obtain rfl := Option.some.inj (Except.ok.inj h1)
          refine ⟨took_front hc hw hi hg (by omega) (by omega) (by omega) (by omega) hzero htake rfl rfl rfl,
            by show n ≤ want; omega, .inl ?_⟩
          rintro b h1 h2 ⟨j, hj, hne, hb⟩
          refine hw.missed hi hj (fun hji => hne (hji ▸ hi3)) hb ⟨h1, ?_⟩
          show b < (s.pa i).pblk + (s.pa i).len
          have h2 : b < (s.pa i).pblk + n := h2
          omega

/-! ### A window ahead -/

/-- A new window over free blocks that no other inode has reserved. -/
theorem paSet_spec {lblk pblk len g : Nat} (hw : Windowed s) (hnone : paOf s ino = none)
    (hino : ino ≠ 0) (hnaive : s.naive = false) (hg : g < s.geo.ngroups)
    (hfree : ∀ b, pblk ≤ b → b < pblk + len →
      s.geo.In b g ∧ bitsOf s g (b - s.geo.groupFirst g) = false)
    (hres : ∀ b, pblk ≤ b → b < pblk + len → ¬s.Reserved ino b) :
    SameBlocks s (paSet s ino lblk pblk len) ∧ Windowed (paSet s ino lblk pblk len) := by
  have hless := paOf_none hnone
  obtain ⟨v, hv⟩ : ∃ v, v = paVictim s (List.range PA_MAX) 0 := ⟨_, rfl⟩
  have hset : paSet s ino lblk pblk len = { s with
      pa := update s.pa v ⟨ino, lblk, pblk, len, s.clock + 1⟩, clock := s.clock + 1 } := by
    unfold paSet
    rw [hnone, hv]
  rw [hset]
  have hself : ∀ i, i = v → (update s.pa v ⟨ino, lblk, pblk, len, s.clock + 1⟩) i =
      (⟨ino, lblk, pblk, len, s.clock + 1⟩ : Pa) := by
    rintro i rfl
    exact update_self ..
  have hother : ∀ i, i ≠ v → (update s.pa v ⟨ino, lblk, pblk, len, s.clock + 1⟩) i = s.pa i :=
    fun i hi => update_of_ne hi _ _
  have hnew : ∀ i < PA_MAX, i ≠ v → (s.pa i).len ≠ 0 → (s.pa i).ino ≠ ino ∧
      ∀ b, pblk ≤ b → b < pblk + len → ¬(s.pa i).Has b := fun i hi _ hl =>
    ⟨hless i hi hl, fun b hb hb' hhas => hres b hb hb' ⟨i, hi, hless i hi hl, hhas⟩⟩
  refine ⟨.of_pa .., ⟨fun i hi hl => ?_, fun i hi hl => ?_, fun i hi j hj hij hl hl' => ?_,
    fun hn => ?_⟩⟩
  · change (update s.pa v _ i).len ≠ 0 at hl
    show (update s.pa v _ i).ino ≠ 0
    by_cases hiv : i = v
    · rw [hself i hiv]
      exact hino
    · rw [hother i hiv] at hl ⊢
      exact hw.owner i hi hl
  · change (update s.pa v _ i).len ≠ 0 at hl
    show ∃ g < s.geo.ngroups, ∀ b, (update s.pa v _ i).Has b → _ ∧ bitsOf s g _ = false
    by_cases hiv : i = v
    · rw [hself i hiv]
      exact ⟨g, hg, fun b hb => hfree b hb.1 hb.2⟩
    · rw [hother i hiv] at hl ⊢
      exact hw.group i hi hl
  · change (update s.pa v _ i).len ≠ 0 at hl
    change (update s.pa v _ j).len ≠ 0 at hl'
    show (update s.pa v _ i).ino ≠ (update s.pa v _ j).ino ∧
      ∀ b, ¬((update s.pa v _ i).Has b ∧ (update s.pa v _ j).Has b)
    by_cases hiv : i = v
    · have hjv : j ≠ v := fun hjv => hij (hiv.trans hjv.symm)
      rw [hother j hjv] at hl' ⊢
      rw [hself i hiv]
      obtain ⟨h1, h2⟩ := hnew j hj hjv hl'
      exact ⟨h1.symm, fun b hb => h2 b hb.1.1 hb.1.2 hb.2⟩
    · rw [hother i hiv] at hl ⊢
      by_cases hjv : j = v
      · rw [hself j hjv]
        obtain ⟨h1, h2⟩ := hnew i hi hiv hl
        exact ⟨h1, fun b hb => h2 b hb.2.1 hb.2.2 hb.1⟩
      · rw [hother j hjv] at hl' ⊢
        exact hw.apart i hi j hj hij hl hl'
  · exact absurd hn (by simp [hnaive])

theorem reserveAhead_spec (env : Env) (inode : Inode) (lblk : Nat) {start : Nat} (got : Nat) (hw : Windowed s)
    (hstart : s.geo.firstDataBlock ≤ start) :
    SameBlocks s (reserveAhead s env inode lblk start got) ∧
      Windowed (reserveAhead s env inode lblk start got) := by
  have hsame : SameBlocks s s ∧ Windowed s := ⟨.refl _, hw⟩
  unfold reserveAhead
  split
  · exact hsame
  rename_i hcond
  simp only [not_or] at hcond
  obtain ⟨hnaive, -, hpa⟩ := hcond
  simp only
  generalize (if min (inode.nblocks + got) 0x7FFFFFFF < 32 then 32
    else if min (inode.nblocks + got) 0x7FFFFFFF > 2048 then 2048
    else min (inode.nblocks + got) 0x7FFFFFFF) = wlen
  split
  · rename_i hnb
    obtain ⟨hg, hin⟩ := s.geo.in_groupOf (b := start + got) (by omega) hnb
    obtain ⟨g, hgdef⟩ : ∃ g, g = s.geo.groupOf (start + got) := ⟨_, rfl⟩
    rw [← hgdef] at hg hin ⊢
    have hin1 := hin.1
    have hin2 := hin.2
    split
    · exact hsame
    split
    · exact hsame
    split
    · exact hsame
    rename_i map hmap
    obtain rfl := blockBitmap_ok hmap
    obtain ⟨bit, hbit⟩ : ∃ bit, bit = start + got - s.geo.groupFirst g := ⟨_, rfl⟩
    rw [← hbit]
    obtain ⟨lim, hlim⟩ : ∃ lim, lim = if bit + wlen < s.geo.groupCount g then bit + wlen
      else s.geo.groupCount g := ⟨_, rfl⟩
    rw [← hlim]
    have hl : bit ≤ lim ∧ lim ≤ s.geo.groupCount g := by
      rw [hlim]
      split <;> omega
    obtain ⟨e1, e2, e3, -⟩ := findBit_spec (bitsOf s g) hl.1
    change findOne (bitsOf s g) bit lim ≤ lim at e2
    change ∀ k, bit ≤ k → k < findOne (bitsOf s g) bit lim → _ at e3
    generalize findOne (bitsOf s g) bit lim = e at e1 e2 e3 ⊢
    -- the window is cut off where that of another inode begins
    have hset : ∀ e', e' ≤ e → (∀ b, start + got ≤ b → b < s.geo.groupFirst g + e' →
        ¬s.Reserved inode.ino b) → bit < e' →
        SameBlocks s (paSet s inode.ino (lblk + got) (start + got) (e' - bit)) ∧
          Windowed (paSet s inode.ino (lblk + got) (start + got) (e' - bit)) := by
      intro e' he' hres hlt
      refine paSet_spec hw (by simpa using hpa) inode.ino_pos.ne' (by simpa using hnaive) hg
        (fun b hb hb' => ⟨⟨by omega, by omega⟩, e3 _ (by omega) (by omega)⟩)
        fun b hb hb' => hres b hb (by omega)
    by_cases hebit : e > bit
    · rw [if_pos hebit]
      cases hc : paConflict s inode.ino (start + got) (e - bit) with
      | none =>
        rw [if_pos hebit]
        exact hset e le_rfl (fun b hb hb' => paConflict_none hc (by omega) ⟨hb, by omega⟩) hebit
      | some r =>
        obtain ⟨ws, we⟩ := r
        obtain ⟨c1, c2, -, c4⟩ := paConflict_some hc (by omega)
        simp only
        by_cases hws : ws > start + got
        · rw [if_pos hws, if_pos (show ws - s.geo.groupFirst g > bit by omega)]
          exact hset _ (by omega) (fun b hb hb' => c4 b hb (by omega)) (by omega)
        · rw [if_neg hws, if_neg (lt_irrefl bit)]
          exact hsame
    · rw [if_neg hebit, if_neg hebit]
      exact hsame
  · exact hsame

/-! ### Allocations -/

/-- The inode number an allocation is made for; 0 for the library's own blocks. -/
def inoOf (inode : Option Inode) : Nat := (inode.map Inode.ino).getD 0

theorem Windowed.windowless_zero (hw : Windowed s) : Windowless s 0 := hw.owner

theorem spares_drop {r : Nat × Nat} (hi : (s.pa i).ino = ino) (h : Spares (s.drop i) env ino r) :
    Spares s env ino r := by
  rcases h with h | h
  · exact .inl fun b hb hb' hres => h b hb hb' ((drop_reserved hi).2 hres)
  · exact .inr fun b hb hb' hu => (h b hb hb' hu).imp_left (drop_reserved hi).1

theorem allocRun_spec (env : Env) (inode : Option Inode) (lblk goal : Nat) {want : Nat} (hc : Counted s)
    (hw : Windowed s) (hwant : 0 < want) :
    (∀ r s', allocRun s env inode lblk goal want = (.ok r, s') →
      Took s s' r ∧ r.2 ≤ want ∧ Spares s env (inoOf inode) r) ∧
    (∀ e s', allocRun s env inode lblk goal want = (.error e, s') →
      s'.dead = true ∨ SameBlocks s s' ∧ Windowed s') := by
  have hsearch : ∀ t, SameBlocks s t → Windowed t → Windowless t (inoOf inode) →
      (∀ r, Spares t env (inoOf inode) r → Spares s env (inoOf inode) r) →
      (∀ r s', allocSearch t env (inoOf inode) goal want = (.ok r, s') →
        Took s s' r ∧ r.2 ≤ want ∧ Spares s env (inoOf inode) r) ∧
      (∀ e s', allocSearch t env (inoOf inode) goal want = (.error e, s') →
        s'.dead = true ∨ SameBlocks s s' ∧ Windowed s') := by
    intro t hsame ht hless hsp
    obtain ⟨h1, h2⟩ := allocSearch_spec env goal (hsame.counted hc) ht hless hwant
    refine ⟨fun r s' h => ?_, fun e s' h => ?_⟩
    · obtain ⟨k1, k2, -, k4⟩ := h1 r s' h
      exact ⟨hsame.took k1, k2, hsp r k4⟩
    · rcases h2 e s' h with hd | rfl
      · exact .inl hd
      · exact .inr ⟨hsame, ht⟩
  unfold allocRun
  simp only
  split
  · -- no window: none is set, or the inode has none, or there is no inode
    rename_i hnone
    refine hsearch s (.refl _) hw ?_ fun _ h => h
    by_cases hcond : inode.isSome = true ∧ ¬s.naive = true
    · rw [if_pos hcond] at hnone
      exact paOf_none hnone
    · intro j hj hl
      by_cases hn : s.naive = true
      · exact absurd (hw.naive hn j hj) hl
      · have hno : inode = none := by
          cases inode with
          | none => rfl
          | some x => exact absurd ⟨rfl, hn⟩ hcond
        rw [hno]
        exact hw.owner j hj hl
  · rename_i i hsome
    have hi : paOf s (inoOf inode) = some i := by
      by_cases hcond : inode.isSome = true ∧ ¬s.naive = true
      · rwa [if_pos hcond] at hsome
      · rw [if_neg hcond] at hsome
        cases hsome
    have hino := (paOf_some hi).2.2
    have hdrop := hsearch (s.drop i) (drop_same s i) hw.drop (hw.windowless_drop hi)
      fun _ h => spares_drop hino h
    split
    · obtain ⟨h1, h2, h3⟩ := takeWindow_spec env hc hw hi hwant
      split
      · rename_i e t hres
        refine ⟨fun r s' h => (by cases h), fun e' s' h => ?_⟩
        obtain ⟨-, rfl⟩ := Prod.mk.inj h
        rcases h3 _ _ hres with hd | rfl
        · exact .inl hd
        · exact .inr ⟨.refl _, hw⟩
      · rename_i r t hres
        refine ⟨fun r' s' h => ?_, fun e s' h => (by cases h)⟩
        obtain ⟨hr, rfl⟩ := Prod.mk.inj h
        obtain rfl := Except.ok.inj hr
        exact h1 _ _ hres
      · rename_i t hres
        obtain rfl := h2 _ hres
        exact hdrop
    · exact hdrop

theorem Took.same {t : Fs} {r : Nat × Nat} (h : Took s s' r) (hsame : SameBlocks s' t)
    (hw : Windowed t) : Took s t r :=
  ⟨hsame.geo.trans h.geo, hsame.naive.trans h.naive, hsame.frees.trans h.frees,
    hsame.dead.trans h.dead, h.pos, h.group, h.free,
    fun b hb hb' => (hsame.used b).trans (h.used b hb hb'), hsame.counted h.counted, hw⟩

theorem allocBlocks_spec (env : Env) (inode : Option Inode) (lblk goal want : Nat) (hc : Counted s)
    (hw : Windowed s) :
    (∀ r s', allocBlocks s env inode lblk goal want = (.ok r, s') →
      Took s s' r ∧ r.2 ≤ want ∧ Spares s env (inoOf inode) r) ∧
    (∀ e s', allocBlocks s env inode lblk goal want = (.error e, s') →
      s'.dead = true ∨ SameBlocks s s' ∧ Windowed s') := by
  unfold allocBlocks
  have hfail : ∀ e, (∀ r s', ((.error e, s) : Except Err (Nat × Nat) × Fs) = (.ok r, s') →
      Took s s' r ∧ r.2 ≤ want ∧ Spares s env (inoOf inode) r) ∧
      ∀ e' s', ((.error e, s) : Except Err (Nat × Nat) × Fs) = (.error e', s') →
        s'.dead = true ∨ SameBlocks s s' ∧ Windowed s' := by
    refine fun e => ⟨fun r s' h => (by cases h), fun e' s' h => .inr ?_⟩
    obtain ⟨-, rfl⟩ := Prod.mk.inj h
    exact ⟨.refl _, hw⟩
  split
  · exact hfail _
  split
  · exact hfail _
  obtain ⟨h1, h2⟩ := allocRun_spec env inode lblk goal hc hw
    (show 0 < min want EXT_INIT_MAX_LEN by rw [EXT_INIT_MAX_LEN]; omega)
  split
  · rename_i e t hres
    refine ⟨fun r s' h => (by cases h), fun e' s' h => ?_⟩
    obtain ⟨-, rfl⟩ := Prod.mk.inj h
    exact h2 _ _ hres
  · rename_i start got t hres
    obtain ⟨k1, k2, k3⟩ := h1 _ _ hres
    refine ⟨fun r s' h => ?_, fun e s' h => (by cases h)⟩
    obtain ⟨hr, rfl⟩ := Prod.mk.inj h
    obtain rfl := Except.ok.inj hr
    refine ⟨?_, k2.trans (min_le_left _ _), k3⟩
    cases inode with
    | none => exact k1
    | some inode =>
      obtain ⟨g, hg, hin⟩ := k1.group
      have hfirst := (Geo.groupOf_in hg (hin start le_rfl (Nat.lt_add_of_pos_right k1.pos))).2.1
      obtain ⟨j1, j2⟩ := reserveAhead_spec env inode lblk got k1.windowed
        (show t.geo.firstDataBlock ≤ start by rw [k1.geo]; exact hfirst)
      exact k1.same j1 j2

theorem allocMetaBlock_spec (env : Env) (goal : Nat) (hc : Counted s) (hw : Windowed s) :
    (∀ r s', allocMetaBlock s env goal = (.ok r, s') →
      Took s s' r ∧ r.2 ≤ 1 ∧ Spares s env 0 r) ∧
    (∀ e s', allocMetaBlock s env goal = (.error e, s') →
      s'.dead = true ∨ SameBlocks s s' ∧ Windowed s') := by
  unfold allocMetaBlock
  split
  · refine ⟨fun r s' h => (by cases h), fun e' s' h => .inr ?_⟩
    obtain ⟨-, rfl⟩ := Prod.mk.inj h
    exact ⟨.refl _, hw⟩
  · obtain ⟨h1, h2⟩ := allocSearch_spec env goal hc hw hw.windowless_zero
      Nat.one_pos
    refine ⟨fun r s' h => ?_, fun e s' h => ?_⟩
    · obtain ⟨k1, k2, -, k4⟩ := h1 r s' h
      exact ⟨k1, k2, k4⟩
    · rcases h2 e s' h with hd | rfl
      · exact .inl hd
      · exact .inr ⟨.refl _, hw⟩

end

end Win98Modern.Libsfs.Alloc
