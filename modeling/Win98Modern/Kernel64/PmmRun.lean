import Win98Modern.Kernel64.Pmm

/-!
# Runs of the page allocator

`Sound res l`: the count of free pages is right, what is unavailable was reserved at the start or is
allocated, and the ledger knows the holder of each allocated page.  A call keeps it (`Sound.next`), so it
holds after every run.  `contigScan_none` says that the search for contiguous pages misses no run,
`reserved_kept` that what `mem_init` reserves is never given out.
-/

namespace Win98Modern.Pmm

open Function Option

/-- `n` pages from `b` on are free. -/
def FreeRun (s : State) (b n : Nat) : Prop := b + n ≤ s.pages ∧ ∀ i, b ≤ i → i < b + n → s.pageMap i = false

/-! ### The searches -/

theorem allocScan_some {s : State} {left n i : Nat} (hpos : 0 < s.pages) (h : allocScan s left n = some i) :
    FreeRun s i 1 := by
  induction left generalizing n with
  | zero => cases h
  | succ left ih =>
    rw [allocScan] at h
    split_ifs at h with hfree
    · cases h
      have hlt := Nat.mod_lt (s.hint + n) hpos
      exact ⟨hlt, fun k h1 h2 => by rwa [show k = (s.hint + n) % s.pages by omega]⟩
    · exact ih h

theorem allocScan_none {s : State} {left n : Nat} (h : allocScan s left n = none) :
    ∀ k, n ≤ k → k < n + left → s.pageMap ((s.hint + k) % s.pages) = true := by
  induction left generalizing n with
  | zero => exact fun k h1 h2 => absurd h2 (by omega)
  | succ left ih =>
    rw [allocScan] at h
    split_ifs at h with hfree
    intro k h1 h2
    rcases Nat.eq_or_lt_of_le h1 with rfl | h1
    · simpa using hfree
    · exact ih h k h1 (by omega)

theorem exists_turn (hint : Nat) {pages i : Nat} (hi : i < pages) : ∃ k < pages, (hint + k) % pages = i := by
  have hpos : 0 < pages := by omega
  have hh := Nat.mod_lt hint hpos
  by_cases hle : hint % pages ≤ i
  · refine ⟨i - hint % pages, by omega, ?_⟩
    rw [Nat.add_mod, Nat.mod_eq_of_lt (show i - hint % pages < pages by omega),
      show hint % pages + (i - hint % pages) = i by omega, Nat.mod_eq_of_lt hi]
  · refine ⟨pages + i - hint % pages, by omega, ?_⟩
    rw [Nat.add_mod, Nat.mod_eq_of_lt (show pages + i - hint % pages < pages by omega),
      show hint % pages + (pages + i - hint % pages) = i + pages by omega, Nat.add_mod_right, Nat.mod_eq_of_lt hi]

theorem allocScan_all {s : State} (h : allocScan s s.pages 0 = none) {i : Nat} (hi : i < s.pages) :
    s.pageMap i = true := by
  obtain ⟨k, hk, rfl⟩ := exists_turn s.hint hi
  exact allocScan_none h k (Nat.zero_le k) (by omega)

/-- A pass that finds a run: it lies below the start of the pass. -/
theorem contigScan_some {map : Nat → Bool} {n fuel i run b : Nat} (hrun : ∀ k, i ≤ k → k < i + run → map k = false)
    (h : contigScan map n fuel i run = some b) :
    b + n ≤ i + run ∧ ∀ k, b ≤ k → k < b + n → map k = false := by
  induction fuel generalizing i run with
  | zero => cases h
  | succ fuel ih =>
    rw [contigScan] at h
    by_cases h0 : i = 0
    · rw [if_pos h0] at h
      cases h
    dsimp only at h
    split_ifs at h with hskip hused hlast
    · obtain ⟨h1, h2⟩ := ih (fun k h1 h2 => absurd h2 (by omega)) h
      exact ⟨by omega, h2⟩
    · obtain ⟨h1, h2⟩ := ih (fun k h1 h2 => absurd h2 (by omega)) h
      exact ⟨by omega, h2⟩
    · cases h
      refine ⟨by omega, fun k h1 h2 => ?_⟩
      by_cases hk : k = i - 1
      · rw [hk]
        simpa using hused
      · exact hrun k (by omega) (by omega)
    · have hrun' : ∀ k, i - 1 ≤ k → k < i - 1 + (run + 1) → map k = false := by
        intro k h1 h2
        by_cases hk : k = i - 1
        · rw [hk]
          simpa using hused
        · exact hrun k (by omega) (by omega)
      obtain ⟨h1, h2⟩ := ih hrun' h
      exact ⟨by omega, h2⟩

/-- A pass that finds nothing has met a page that is not free in every run. -/
theorem contigScan_none {map : Nat → Bool} {n fuel i run : Nat} (hfuel : i ≤ fuel) (hlt : run < n)
    (h : contigScan map n fuel i run = none) {b : Nat} (hb : b + n ≤ i + run) :
    ∃ k, b ≤ k ∧ k < b + n ∧ map k = true := by
  induction fuel generalizing i run with
  | zero => omega
  | succ fuel ih =>
    rw [contigScan] at h
    by_cases h0 : i = 0
    · omega
    dsimp only at h
    split_ifs at h with hskip hused hlast
    · by_cases hbelow : b + n ≤ i - 1 - 7
      · exact ih (by omega) (by omega) h hbelow
      · -- the run has a page in the byte that is full
        obtain ⟨hmod, hfull⟩ := hskip
        refine ⟨max b (i - 8), by omega, by omega, ?_⟩
        have := hfull (max b (i - 8) - 8 * ((i - 1) / 8)) (by omega)
        rwa [show 8 * ((i - 1) / 8) + (max b (i - 8) - 8 * ((i - 1) / 8)) = max b (i - 8) by omega] at this
    · by_cases hbelow : b + n ≤ i - 1
      · exact ih (by omega) (by omega) h hbelow
      · exact ⟨i - 1, by omega, by omega, hused⟩
    · exact ih (by omega) (by omega) h (by omega)

theorem contigStart_le (s : State) : contigStart s ≤ s.pages := by
  rw [contigStart]
  split_ifs with h
  · exact h.2
  · exact le_rfl

theorem contigSearch_some {s : State} {n b : Nat} (h : contigSearch s n = some b) : FreeRun s b n := by
  have hnone : ∀ i k, i ≤ k → k < i + 0 → s.pageMap k = false := fun i k h1 h2 => absurd h2 (by omega)
  rw [contigSearch] at h
  cases hfirst : contigScan s.pageMap n (contigStart s) (contigStart s) 0 with
  | some b' =>
    rw [hfirst] at h
    cases h
    obtain ⟨h1, h2⟩ := contigScan_some (hnone _) hfirst
    exact ⟨h1.trans (contigStart_le s), h2⟩
  | none =>
    rw [hfirst] at h
    exact contigScan_some (hnone _) h

theorem contigSearch_none {s : State} {n : Nat} (hn : 0 < n) (h : contigSearch s n = none) (b : Nat) :
    ¬FreeRun s b n := by
  rintro ⟨hb, hfree⟩
  rw [contigSearch] at h
  cases hfirst : contigScan s.pageMap n (contigStart s) (contigStart s) 0 with
  | some b' =>
    rw [hfirst] at h
    cases h
  | none =>
    rw [hfirst] at h
    obtain ⟨k, h1, h2, hk⟩ := contigScan_none le_rfl hn h hb
    rw [hfree k h1 h2] at hk
    cases hk

/-! ### The invariant -/

structure Sound (res : Nat → Bool) (l : Ledger) : Prop where
  free_eq : l.freePages = zeros l.pageMap l.pages
  map_eq : ∀ i, l.pageMap i = (res i || l.pageAllocated i)
  apart : ∀ i, l.pageAllocated i = true → res i = false
  in_range : ∀ i, l.pageAllocated i = true → i < l.pages
  holder : ∀ i, l.holder i = none ↔ l.pageAllocated i = false

theorem Start.sound {s : State} (h : Start s) : Sound s.pageMap (Ledger.start s) where
  free_eq := h.free_eq
  map_eq i := by simp [Ledger.start, h.none_allocated i]
  apart i hi := absurd hi (by simp [Ledger.start, h.none_allocated i])
  in_range i hi := absurd hi (by simp [Ledger.start, h.none_allocated i])
  holder i := by simp [Ledger.start, h.none_allocated i]

theorem Sound.take {res : Nat → Bool} {l : Ledger} (h : Sound res l) {b n : Nat} (hb : FreeRun l.toState b n)
    (hint contigHint v serial : Nat) :
    Sound res ⟨⟨setRange l.pageMap true b n, setRange l.pageAllocated true b n, l.pages, l.freePages - n, hint,
      contigHint⟩, setHolder l.holder b n (some v), serial⟩ where
  free_eq := by
    have := zeros_set hb.1 hb.2
    have hfree := h.free_eq
    show l.freePages - n = zeros (setRange l.pageMap true b n) l.pages
    omega
  map_eq i := by
    show setRange _ _ _ _ _ = (_ || setRange _ _ _ _ _)
    by_cases hi : b ≤ i ∧ i < b + n
    · rw [setRange_mem hi, setRange_mem hi, Bool.or_true]
    · rw [setRange_not_mem hi, setRange_not_mem hi, h.map_eq]
  apart i hi := by
    by_cases hin : b ≤ i ∧ i < b + n
    · have hfree := hb.2 i hin.1 hin.2
      rw [h.map_eq, Bool.or_eq_false_iff] at hfree
      exact hfree.1
    · exact h.apart i ((setRange_not_mem hin).symm.trans hi)
  in_range i hi := by
    have hle := hb.1
    show i < l.pages
    by_cases hin : b ≤ i ∧ i < b + n
    · omega
    · exact h.in_range i ((setRange_not_mem hin).symm.trans hi)
  holder i := by
    show setHolder _ _ _ _ _ = _ ↔ setRange _ _ _ _ _ = _
    by_cases hin : b ≤ i ∧ i < b + n
    · rw [setHolder, if_pos hin, setRange_mem hin]
      simp
    · rw [setHolder, if_neg hin, setRange_not_mem hin]
      exact h.holder i

theorem Sound.give {res : Nat → Bool} {l : Ledger} (h : Sound res l) {b n : Nat} (hb : b + n ≤ l.pages)
    (halloc : ∀ i, b ≤ i → i < b + n → l.pageAllocated i = true) (hint contigHint serial : Nat) :
    Sound res ⟨⟨setRange l.pageMap false b n, setRange l.pageAllocated false b n, l.pages, l.freePages + n, hint,
      contigHint⟩, setHolder l.holder b n none, serial⟩ where
  free_eq := by
    have hmap : ∀ i, b ≤ i → i < b + n → l.pageMap i = true := fun i h1 h2 => by
      rw [h.map_eq, halloc i h1 h2, Bool.or_true]
    show l.freePages + n = _
    rw [zeros_clear hb hmap, h.free_eq]
  map_eq i := by
    show setRange _ _ _ _ _ = (_ || setRange _ _ _ _ _)
    by_cases hin : b ≤ i ∧ i < b + n
    · rw [setRange_mem hin, setRange_mem hin, h.apart i (halloc i hin.1 hin.2), Bool.or_false]
    · rw [setRange_not_mem hin, setRange_not_mem hin, h.map_eq]
  apart i hi := by
    by_cases hin : b ≤ i ∧ i < b + n
    · exact h.apart i (halloc i hin.1 hin.2)
    · exact h.apart i ((setRange_not_mem hin).symm.trans hi)
  in_range i hi := by
    by_cases hin : b ≤ i ∧ i < b + n
    · exact h.in_range i (halloc i hin.1 hin.2)
    · exact h.in_range i ((setRange_not_mem hin).symm.trans hi)
  holder i := by
    show setHolder _ _ _ _ _ = _ ↔ setRange _ _ _ _ _ = _
    by_cases hin : b ≤ i ∧ i < b + n
    · rw [setHolder, if_pos hin, setRange_mem hin]
      simp
    · rw [setHolder, if_neg hin, setRange_not_mem hin]
      exact h.holder i

theorem pageOf_pageAddr (i : Nat) : pageOf (pageAddr i) = i := by
  rw [pageOf, pageAddr, Nat.add_sub_cancel_left, Nat.mul_div_cancel _ (by decide)]

theorem pageAddr_ne_zero (i : Nat) : pageAddr i ≠ 0 := by
  exact Nat.ne_of_gt (Nat.add_pos_left (by decide) _)

/-! ### What the calls do -/

theorem pmmAlloc_cases (s : State) (e : Bool) :
    (∃ i, FreeRun s i 1 ∧ pmmAlloc s e = ({ s with
      pageMap := setRange s.pageMap true i 1, pageAllocated := setRange s.pageAllocated true i 1, hint := i + 1,
      freePages := s.freePages - 1 }, pageAddr i)) ∨
    (pmmAlloc s e = (s, 0) ∧ (e = false ∨ ∀ i < s.pages, s.pageMap i = true)) := by
  cases e with
  | false => exact .inr ⟨rfl, .inl rfl⟩
  | true =>
    rw [pmmAlloc, if_pos rfl]
    cases hscan : allocScan s s.pages 0 with
    | some i =>
      have hpos : 0 < s.pages := by
        refine Nat.pos_of_ne_zero fun h0 => ?_
        rw [h0] at hscan
        cases hscan
      exact .inl ⟨i, allocScan_some hpos hscan, rfl⟩
    | none => exact .inr ⟨rfl, .inr fun i hi => allocScan_all hscan hi⟩

theorem pmmAllocContig_cases (s : State) (e : Bool) (n : Nat) :
    (∃ b, FreeRun s b n ∧ pmmAllocContig s e n = ({ s with
      pageMap := setRange s.pageMap true b n, pageAllocated := setRange s.pageAllocated true b n,
      freePages := s.freePages - n, contigHint := b }, pageAddr b)) ∨
    (pmmAllocContig s e n = (s, 0) ∧ (n = 0 ∨ e = false ∨ ∀ b, ¬FreeRun s b n)) := by
  rw [pmmAllocContig]
  by_cases h0 : n = 0
  · rw [if_pos h0]
    exact .inr ⟨rfl, .inl h0⟩
  by_cases he : e = false
  · rw [if_neg h0, if_pos he]
    exact .inr ⟨rfl, .inr (.inl he)⟩
  by_cases hbig : s.pages < n
  · rw [if_neg h0, if_neg he, if_pos hbig]
    exact .inr ⟨rfl, .inr (.inr fun b hb => by have := hb.1; omega)⟩
  rw [if_neg h0, if_neg he, if_neg hbig]
  cases hs : contigSearch s n with
  | some b => exact .inl ⟨b, contigSearch_some hs, rfl⟩
  | none => exact .inr ⟨rfl, .inr (.inr (contigSearch_none (Nat.pos_of_ne_zero h0) hs))⟩

theorem pmmFree_some {s s' : State} {e : Bool} {pa : Nat} (h : pmmFree s e pa = some s') :
    pageOf pa + 1 ≤ s.pages ∧ s.pageAllocated (pageOf pa) = true ∧
      s' = { s with pageMap := setRange s.pageMap false (pageOf pa) 1,
                    pageAllocated := setRange s.pageAllocated false (pageOf pa) 1, freePages := s.freePages + 1 } := by
  rw [pmmFree] at h
  split_ifs at h with hok
  obtain ⟨-, -, -, hlt, -, ha⟩ := hok
  exact ⟨hlt, ha, (some.inj h).symm⟩

theorem pmmFreeContig_some {s s' : State} {e : Bool} {pa n : Nat} (h : pmmFreeContig s e pa n = some s') :
    pageOf pa + n ≤ s.pages ∧ (∀ i, pageOf pa ≤ i → i < pageOf pa + n → s.pageAllocated i = true) ∧
      ∃ top, s' = ⟨setRange s.pageMap false (pageOf pa) n,
        setRange s.pageAllocated false (pageOf pa) n, s.pages, s.freePages + n, s.hint, top⟩ := by
  rw [pmmFreeContig] at h
  by_cases hok : e ∧ PMM_BASE ≤ pa ∧ pa &&& 0xFFF = 0 ∧ pageOf pa ≤ s.pages ∧ n ≤ s.pages - pageOf pa ∧
      ∀ j < n, s.pageMap (pageOf pa + j) ∧ s.pageAllocated (pageOf pa + j)
  · rw [if_pos hok] at h
    obtain ⟨-, -, -, hle, hn, ha⟩ := hok
    refine ⟨by omega, fun i h1 h2 => ?_, _, (some.inj h).symm⟩
    have := (ha (i - pageOf pa) (by omega)).2
    rwa [show pageOf pa + (i - pageOf pa) = i by omega] at this
  · rw [if_neg hok] at h
    cases h

theorem Sound.same {res : Nat → Bool} {l : Ledger} (h : Sound res l) (serial : Nat) :
    Sound res { l with serial } := ⟨h.free_eq, h.map_eq, h.apart, h.in_range, h.holder⟩

theorem Sound.next {res : Nat → Bool} {l l' : Ledger} (h : Sound res l) {c : Call} (hc : l.next c = some l') :
    Sound res l' := by
  cases c with
  | alloc e =>
    rcases pmmAlloc_cases l.toState e with ⟨i, hi, heq⟩ | ⟨heq, -⟩
    · simp only [Ledger.next, step, heq, map_some, nextHolder, if_neg (pageAddr_ne_zero i), pageOf_pageAddr,
        some.injEq] at hc
      rw [← hc]
      exact h.take hi _ _ _ _
    · simp only [Ledger.next, step, heq, map_some, nextHolder, if_true, some.injEq] at hc
      rw [← hc]
      exact h.same _
  | free e pa =>
    obtain ⟨⟨s', r⟩, hs, rfl⟩ := map_eq_some_iff.1 hc
    obtain ⟨s'', hfree, heq⟩ := map_eq_some_iff.1 hs
    cases heq
    obtain ⟨hlt, ha, rfl⟩ := pmmFree_some hfree
    exact h.give hlt (fun i h1 h2 => by rwa [show i = pageOf pa by omega]) _ _ _
  | allocContig e n =>
    rcases pmmAllocContig_cases l.toState e n with ⟨b, hb, heq⟩ | ⟨heq, -⟩
    · simp only [Ledger.next, step, heq, map_some, nextHolder, if_neg (pageAddr_ne_zero b), pageOf_pageAddr,
        some.injEq] at hc
      rw [← hc]
      exact h.take hb _ _ _ _
    · simp only [Ledger.next, step, heq, map_some, nextHolder, if_true, some.injEq] at hc
      rw [← hc]
      exact h.same _
  | freeContig e pa n =>
    obtain ⟨⟨s', r⟩, hs, rfl⟩ := map_eq_some_iff.1 hc
    obtain ⟨s'', hfree, heq⟩ := map_eq_some_iff.1 hs
    cases heq
    obtain ⟨hle, ha, hint, rfl⟩ := pmmFreeContig_some hfree
    exact h.give hle ha _ _ _

theorem Sound.run {res : Nat → Bool} {l l' : Ledger} (h : Sound res l) {calls : List Call}
    (hrun : l.run calls = some l') : Sound res l' := by
  induction calls generalizing l with
  | nil =>
    cases hrun
    exact h
  | cons c cs ih =>
    obtain ⟨m, hm, hrest⟩ := bind_eq_some_iff.1 hrun
    exact ih (h.next hm) hrest

/-! ### The start -/

theorem zeros_update {map : Nat → Bool} {i cnt : Nat} (hi : i < cnt) (hz : map i = false) :
    zeros map cnt = zeros (update map i true) cnt + 1 := by
  have hset : update map i true = setRange map true i 1 := by
    funext k
    by_cases hk : k = i
    · rw [hk, update_self, setRange_mem ⟨le_rfl, Nat.lt_succ_self i⟩]
    · rw [update_of_ne hk, setRange_not_mem (by omega)]
  rw [hset]
  exact zeros_set hi fun k h1 h2 => by rwa [show k = i by omega]

structure Reserving (pages : Nat) (s : State) : Prop extends Start s where
  pages_eq : s.pages = pages

theorem Reserving.reserve {pages : Nat} {s : State} (h : Reserving pages s) {i : Nat} (hi : i < pages)
    (hz : s.pageMap i = false) : Reserving pages (s.reserve i) where
  free_eq := by
    have hfree := h.free_eq
    have hzeros : zeros s.pageMap s.pages = zeros (update s.pageMap i true) s.pages + 1 :=
      zeros_update (by rwa [h.pages_eq]) hz
    show s.freePages - 1 = zeros (update s.pageMap i true) s.pages
    omega
  none_allocated := h.none_allocated
  pages_eq := h.pages_eq

theorem Reserving.initrd {pages last i : Nat} {s : State} (h : Reserving pages s)
    (hz : ∀ k, i ≤ k → s.pageMap k = false) : Reserving pages (reserveInitrd last i s) := by
  fun_induction reserveInitrd last i s with
  | case1 i s hlt ih =>
    refine ih (h.reserve (h.pages_eq ▸ hlt.2) (hz i le_rfl)) fun k hk => ?_
    exact (update_of_ne (by omega) _ _).trans (hz k (by omega))
  | case2 i s hge => exact h

theorem Reserving.hole {ramTop z off : Nat} {s : State} (hoff : PMM_BASE ≤ off)
    (h : Reserving ((ramTop - PMM_BASE) / PAGE_SIZE) s) (halign : off % PAGE_SIZE = 0) (hram : ramTop % PAGE_SIZE = 0) :
    Reserving ((ramTop - PMM_BASE) / PAGE_SIZE) (reserveHole ramTop z off s) := by
  fun_induction reserveHole ramTop z off s with
  | case1 off s hlt ih =>
    refine ih (Nat.le_add_right_of_le hoff) ?_ (by rwa [Nat.add_mod_right])
    split_ifs with hfree
    · refine h.reserve ?_ hfree
      have hoff' : 0xF00000 ≤ off := hoff
      have hram' : ramTop % 4096 = 0 := hram
      show (off - 0xF00000) / 4096 < (ramTop - 0xF00000) / 4096
      omega
    · exact h
  | case2 off s hge => exact h

theorem Reserving.holes {ramTop : Nat} {holes : List (Nat × Nat)} {s s' : State}
    (h : Reserving ((ramTop - PMM_BASE) / PAGE_SIZE) s) (hram : ramTop % PAGE_SIZE = 0)
    (hs : reserveHoles ramTop holes s = some s') : Reserving ((ramTop - PMM_BASE) / PAGE_SIZE) s' := by
  induction holes generalizing s with
  | nil =>
    cases hs
    exact h
  | cons hole holes ih =>
    obtain ⟨a, size⟩ := hole
    rw [reserveHoles] at hs
    split_ifs at hs with hok
    have halign : a % PAGE_SIZE = 0 := (Nat.and_two_pow_sub_one_eq_mod a 12).symm.trans hok.2.2.1
    refine ih (h.hole (le_max_right _ _) ?_ hram) hs
    rcases max_cases a PMM_BASE with ⟨hmax, -⟩ | ⟨hmax, -⟩
    · rw [hmax, halign]
    · rw [hmax]
      rfl

theorem memInit_start {bi : BootInfo} {holes : List (Nat × Nat)} {s : State} (h : memInit bi holes = some s) :
    Start s := by
  rw [memInit] at h
  split_ifs at h with hram hinitrd
  all_goals
    have halign : bi.ramSize % PAGE_SIZE = 0 := by
      have hand : bi.ramSize &&& 0x1FFFFF = bi.ramSize % 2 ^ 21 := Nat.and_two_pow_sub_one_eq_mod _ 21
      show bi.ramSize % 4096 = 0
      omega
    have hzeros : ∀ n, n = zeros (fun _ => false) n := fun n =>
      (Nat.count_iff_forall.2 fun _ _ => rfl).symm
    have hempty : Reserving ((bi.ramSize - PMM_BASE) / PAGE_SIZE)
        ⟨fun _ => false, fun _ => false, _, _, 0, 0⟩ := ⟨⟨hzeros _, fun _ => rfl⟩, rfl⟩
  · exact ((hempty.initrd fun _ _ => rfl).holes halign h).toStart
  · exact (hempty.holes halign h).toStart

/-! ### Reserved memory -/

/-- The page is not to be had. -/
def Taken (i : Nat) (s : State) : Prop := s.pageMap i = true

theorem taken_reserve {s : State} {i j : Nat} (h : Taken i s ∨ i = j) : Taken i (s.reserve j) := by
  show update s.pageMap j true i = true
  by_cases hi : i = j
  · rw [hi, update_self]
  · rw [update_of_ne hi]
    exact h.resolve_right hi

theorem Taken.initrd {last i j : Nat} {s : State} (h : Taken i s) : Taken i (reserveInitrd last j s) := by
  fun_induction reserveInitrd last j s with
  | case1 j s hlt ih => exact ih (taken_reserve (.inl h))
  | case2 j s hge => exact h

theorem taken_initrd {last i j : Nat} {s : State} (hlo : j ≤ i) (hle : i ≤ last) (hlt : i < s.pages) :
    Taken i (reserveInitrd last j s) := by
  fun_induction reserveInitrd last j s with
  | case1 j s hj ih =>
    by_cases hi : i = j
    · exact (taken_reserve (.inr hi)).initrd
    · exact ih (by omega) hlt
  | case2 j s hge => omega

theorem Taken.hole {ramTop z off i : Nat} {s : State} (h : Taken i s) : Taken i (reserveHole ramTop z off s) := by
  fun_induction reserveHole ramTop z off s with
  | case1 off s hlt ih =>
    apply ih
    split_ifs
    · exact taken_reserve (.inl h)
    · exact h
  | case2 off s hge => exact h

theorem taken_hole {ramTop z off x : Nat} {s : State} (hoff : PMM_BASE ≤ off) (halign : off % PAGE_SIZE = 0)
    (hlo : off ≤ x) (hz : x < z) (htop : x < ramTop) : Taken (pageOf x) (reserveHole ramTop z off s) := by
  fun_induction reserveHole ramTop z off s with
  | case1 off s hlt ih =>
    by_cases hx : x < off + PAGE_SIZE
    · have hpage : pageOf x = pageOf off := by
        simp only [pageOf, PMM_BASE, PAGE_SIZE] at *
        omega
      rw [hpage]
      apply Taken.hole
      split_ifs with hfree
      · exact taken_reserve (.inr rfl)
      · simpa [Taken] using hfree
    · exact ih (Nat.le_add_right_of_le hoff) (by rwa [Nat.add_mod_right]) (Nat.le_of_not_lt hx)
  | case2 off s hge => omega

theorem Taken.holes {ramTop i : Nat} {holes : List (Nat × Nat)} {s s' : State} (h : Taken i s)
    (hs : reserveHoles ramTop holes s = some s') : Taken i s' := by
  induction holes generalizing s with
  | nil =>
    cases hs
    exact h
  | cons hole holes ih =>
    rw [reserveHoles] at hs
    split_ifs at hs
    exact ih h.hole hs

def InHole (holes : List (Nat × Nat)) (x : Nat) : Prop := ∃ hole ∈ holes, hole.1 ≤ x ∧ x < (hole.1 + hole.2) % 2 ^ 64

theorem taken_holes {ramTop x : Nat} {holes : List (Nat × Nat)} {s s' : State} (hx : InHole holes x)
    (hlo : PMM_BASE ≤ x) (htop : x < ramTop) (hs : reserveHoles ramTop holes s = some s') : Taken (pageOf x) s' := by
  induction holes generalizing s with
  | nil =>
    obtain ⟨_, hmem, -⟩ := hx
    cases hmem
  | cons hole holes ih =>
    rw [reserveHoles] at hs
    split_ifs at hs with hok
    obtain ⟨_, hmem, ha, hz⟩ := hx
    cases hmem with
    | head =>
      have halign : hole.1 % PAGE_SIZE = 0 := (Nat.and_two_pow_sub_one_eq_mod hole.1 12).symm.trans hok.2.2.1
      refine Taken.holes (taken_hole (le_max_right ..) ?_ (max_le ha hlo) hz htop) hs
      obtain ⟨hmax, -⟩ | ⟨hmax, -⟩ := max_cases hole.1 PMM_BASE
      · rwa [hmax]
      · rw [hmax]
        rfl
    | tail _ hmem => exact ih ⟨_, hmem, ha, hz⟩ hs

/-- An address of the initial RAM image, which the loader puts above `PMM_BASE`. -/
def BootInfo.InInitrd (bi : BootInfo) (x : Nat) : Prop :=
  PMM_BASE ≤ bi.initrdGpa ∧ bi.initrdGpa + bi.initrdSize < 2 ^ 64 ∧ bi.initrdGpa ≤ x ∧
    x < bi.initrdGpa + bi.initrdSize

/-- **Reserved memory is never given out**: after `mem_init` and any calls no page of a firmware hole or of the
initial RAM image is allocated or belongs to anybody, and the count of free pages is right. -/
theorem reserved_kept {bi : BootInfo} {holes : List (Nat × Nat)} {s : State} (h : memInit bi holes = some s)
    {calls : List Call} {l : Ledger} (hrun : (Ledger.start s).run calls = some l) :
    l.freePages = zeros l.pageMap l.pages ∧ ∀ x, InHole holes x ∨ bi.InInitrd x → PMM_BASE ≤ x → x < bi.ramSize →
      l.pageAllocated (pageOf x) = false ∧ l.holder (pageOf x) = none := by
  have hs : Sound s.pageMap l := (memInit_start h).sound.run hrun
  refine ⟨hs.free_eq, fun x hx hlo htop => ?_⟩
  have htaken : s.pageMap (pageOf x) = true := by
    rw [memInit] at h
    split_ifs at h with hram hinitrd
    · obtain hx | ⟨hbase, hend, hxlo, hxhi⟩ := hx
      · exact taken_holes hx hlo htop h
      · have hand : bi.ramSize &&& 0x1FFFFF = bi.ramSize % 2 ^ 21 := Nat.and_two_pow_sub_one_eq_mod _ 21
        refine Taken.holes (taken_initrd ?_ ?_ ?_) h
        all_goals
          simp only [pageOf, PMM_BASE, PAGE_SIZE] at *
          omega
    · obtain hx | ⟨-, -, hxlo, hxhi⟩ := hx
      · exact taken_holes hx hlo htop h
      · omega
  have hfree : l.pageAllocated (pageOf x) = false := by
    by_contra ha
    rw [hs.apart _ (by simpa using ha)] at htaken
    cases htaken
  exact ⟨hfree, (hs.holder _).2 hfree⟩

/-- 18 MiB with a hole of two pages at 16 MiB. -/
theorem reserved_kept_sample : ∃ s l, memInit ⟨18 <<< 20, 0, 0⟩ [(0x1000000, 0x2000)] = some s ∧
    (Ledger.start s).run [.alloc true] = some l ∧ l.pageAllocated (pageOf 0x1001000) = false := by
  obtain ⟨s, hs⟩ : ∃ s, memInit ⟨18 <<< 20, 0, 0⟩ [(0x1000000, 0x2000)] = some s := by
    rw [memInit, if_pos (by decide)]
    dsimp only
    rw [if_neg (by decide), reserveHoles, if_pos (by decide)]
    exact ⟨_, rfl⟩
  obtain ⟨l, hl⟩ : ∃ l, (Ledger.start s).run [.alloc true] = some l := ⟨_, rfl⟩
  exact ⟨s, l, hs, hl,
    ((reserved_kept hs hl).2 0x1001000 (.inl ⟨_, .head _, by decide⟩) (by decide) (by decide)).1⟩

/-! ### The allocator -/

/-- A grant: `n` pages from an address on that were free, were not reserved and belonged to nobody. -/
def Granted (s₀ : State) (l : Ledger) (n pa : Nat) : Prop :=
  ∃ b, pa = pageAddr b ∧ b + n ≤ l.pages ∧
    ∀ i, b ≤ i → i < b + n → l.pageMap i = false ∧ s₀.pageMap i = false ∧ l.holder i = none

theorem Sound.granted {s₀ : State} {l : Ledger} (h : Sound s₀.pageMap l) {b n : Nat} (hb : FreeRun l.toState b n) :
    Granted s₀ l n (pageAddr b) := by
  refine ⟨b, rfl, hb.1, fun i h1 h2 => ?_⟩
  have hfree := hb.2 i h1 h2
  have hnone := h.map_eq i
  rw [hfree, eq_comm, Bool.or_eq_false_iff] at hnone
  exact ⟨hfree, hnone.1, (h.holder i).2 hnone.2⟩

/-- After every run of the calls from any reservations: the count of free pages is right, allocated pages
are unavailable and were not reserved, what a call returns was free, in range and nobody's, and a call
that returns 0 was asked for nothing, was refused the lock or had no run to give. -/
theorem page_allocator {s₀ : State} (h : Start s₀) {calls : List Call} {l : Ledger}
    (hrun : (Ledger.start s₀).run calls = some l) :
    l.freePages = zeros l.pageMap l.pages ∧
    (∀ i, l.pageAllocated i = true → l.pageMap i = true ∧ s₀.pageMap i = false) ∧
    (∀ e s r, step l.toState (.alloc e) = some (s, r) → r ≠ 0 → Granted s₀ l 1 r) ∧
    (∀ e n s r, step l.toState (.allocContig e n) = some (s, r) → r ≠ 0 → Granted s₀ l n r) ∧
    (∀ e s, step l.toState (.alloc e) = some (s, 0) → e = false ∨ ∀ b, ¬FreeRun l.toState b 1) ∧
    ∀ e n s, step l.toState (.allocContig e n) = some (s, 0) → n = 0 ∨ e = false ∨ ∀ b, ¬FreeRun l.toState b n := by
  have hs : Sound s₀.pageMap l := h.sound.run hrun
  refine ⟨hs.free_eq, fun i hi => ⟨?_, hs.apart i hi⟩, ?_, ?_, ?_, ?_⟩
  · rw [hs.map_eq, hi, Bool.or_true]
  · intro e s r hc hr
    rcases pmmAlloc_cases l.toState e with ⟨b, hb, heq⟩ | ⟨heq, -⟩
    · rw [step, heq] at hc
      cases hc
      exact hs.granted hb
    · rw [step, heq] at hc
      cases hc
      exact absurd rfl hr
  · intro e n s r hc hr
    rcases pmmAllocContig_cases l.toState e n with ⟨b, hb, heq⟩ | ⟨heq, -⟩
    · rw [step, heq] at hc
      cases hc
      exact hs.granted hb
    · rw [step, heq] at hc
      cases hc
      exact absurd rfl hr
  · intro e s hc
    rcases pmmAlloc_cases l.toState e with ⟨b, hb, heq⟩ | ⟨-, hwhy⟩
    · rw [step, heq] at hc
      exact absurd (Prod.mk.inj (some.inj hc)).2 (pageAddr_ne_zero b)
    · refine hwhy.imp_right fun hfull b hb => ?_
      have := hb.2 b le_rfl (Nat.lt_succ_self b)
      rw [hfull b hb.1] at this
      cases this
  · intro e n s hc
    rcases pmmAllocContig_cases l.toState e n with ⟨b, hb, heq⟩ | ⟨-, hwhy⟩
    · rw [step, heq] at hc
      exact absurd (Prod.mk.inj (some.inj hc)).2 (pageAddr_ne_zero b)
    · exact hwhy

/-- Sixteen pages, of which the first two are reserved. -/
def sample : State := ⟨fun i => i < 2, fun _ => false, 16, 14, 0, 0⟩

theorem sample_start : Start sample := ⟨by decide, fun _ => rfl⟩

def sampleCalls : List Call :=
  [.alloc true, .allocContig true 3, .free true (pageAddr 2), .freeContig true (pageAddr 14) 1, .alloc true]

theorem page_allocator_sample : ∃ l, (Ledger.start sample).run sampleCalls = some l ∧
    l.freePages = zeros l.pageMap l.pages :=
  ⟨_, rfl, (@page_allocator sample sample_start sampleCalls _ rfl).1⟩

/-- A request for no pages is answered by 0, whatever is free. -/
theorem empty_request_refused :
    ¬∀ s₀ calls l, Start s₀ → (Ledger.start s₀).run calls = some l →
      ∀ e n s, step l.toState (.allocContig e n) = some (s, 0) → ∀ b, ¬FreeRun l.toState b n := by
  intro h
  exact h sample [] _ sample_start rfl true 0 _ rfl 0 ⟨Nat.zero_le _, fun i _ hi => absurd hi (Nat.not_lt_zero i)⟩

end Win98Modern.Pmm
