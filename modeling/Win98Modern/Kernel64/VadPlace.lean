import Win98Modern.Kernel64.VadEdits

/-!
# Placing a descriptor

Where `vad_alloc` and `vad_insert_fixed` may put a descriptor without spoiling
the shape of the array (`Joins`, `Shape.install`), and what the search of
`vad_alloc` for a base-less request finds: the lowest free 64 KiB boundary from
the hint on, or the highest one of the user range (`FirstFit`).

For a `MEM_TOP_DOWN` request this needs `Room`.  The source computes
`v[i].start - len` without testing `v[i].start < len`, so that without room the
search goes on from a candidate above the user range.
-/

namespace Win98Modern.Kernel64

open List

/-! ### Arithmetic of pages -/

variable {a b x start len cand hint c : Nat} {vads : List Vad} {p : Process} {topDown : Bool}

theorem add64_eq (h : a + b < 2 ^ 64) : add64 a b = a + b := Nat.mod_eq_of_lt h

/-- A sum that does not come out below its first summand has not wrapped. -/
theorem add64_of_le (h : a ≤ add64 a b) (hb : b < 2 ^ 64) : add64 a b = a + b := by
  unfold add64 at *
  omega

theorem sub64_eq (hb : b ≤ a) (ha : a < 2 ^ 64) : sub64 a b = a - b := by
  unfold sub64; omega

theorem pageFloor_dvd (v : Nat) : PAGE_SIZE ∣ pageFloor v := ⟨v / PAGE_SIZE, by
  rw [pageFloor, Nat.mul_comm]⟩

theorem up_dvd (v : Nat) : PAGE_SIZE ∣ up v := pageFloor_dvd _

theorem floor64K_dvd (v : Nat) : 0x10000 ∣ floor64K v := ⟨v / 0x10000, by
  rw [floor64K, Nat.mul_comm]⟩

theorem floor64K_le (v : Nat) : floor64K v ≤ v := Nat.div_mul_le_self _ _

theorem lt_floor64K (v : Nat) : v < floor64K v + 0x10000 := by
  unfold floor64K
  omega

theorem le_floor64K {v : Nat} (hx : 0x10000 ∣ x) (h : x ≤ v) : x ≤ floor64K v := by
  unfold floor64K
  omega

theorem page_dvd_of_64K (h : 0x10000 ∣ x) : PAGE_SIZE ∣ x :=
  Nat.dvd_trans ⟨16, rfl⟩ h

theorem top_dvd : PAGE_SIZE ∣ USER_TOP := ⟨0x7ffffffef, rfl⟩

theorem add64_dvd (ha : PAGE_SIZE ∣ a) (hb : PAGE_SIZE ∣ b) : PAGE_SIZE ∣ add64 a b := by
  exact (Nat.dvd_mod_iff ⟨2 ^ 52, rfl⟩).2 (Nat.dvd_add ha hb)

theorem pageFloor_le (v : Nat) : pageFloor v ≤ v := Nat.div_mul_le_self _ _

/-! ### Placing a descriptor -/

/-- The addresses from `start` on, `len` of them, touch no descriptor. -/
def Free (vads : List Vad) (start len : Nat) : Prop :=
  ∀ v ∈ vads, v.stop ≤ start ∨ start + len ≤ v.start

/-- The user range has room for `len` bytes at a 64 KiB boundary.  The boundary
may be 0, at which `vad_alloc` gives up cleanly. -/
def Room (vads : List Vad) (len : Nat) : Prop :=
  ∃ x, 0x10000 ∣ x ∧ x + len ≤ USER_TOP ∧ Free vads x len

/-- `[start, start + len)` is a hole of an allocation. -/
def InHole (vads : List Vad) (start len : Nat) : Prop :=
  ∃ a ∈ vads, ∃ c ∈ vads, a.allocBase = c.allocBase ∧ a.stop ≤ start ∧ start + len ≤ c.start

/-- A descriptor from `start` on, of the given allocation base and kind, is a new
allocation of its own or extends an allocation at one of its edges. -/
structure Joins (vads : List Vad) (start allocBase : Nat) (kind : VadKind) : Prop where
  base_le : allocBase ≤ start
  head : allocBase = start ∨ ∃ h ∈ vads, h.start = allocBase ∧ h.allocBase = allocBase
  view : ∀ v ∈ vads, v.allocBase = allocBase → (v.kind = .view ↔ kind = .view)
  outside : ∀ a ∈ vads, ∀ c ∈ vads, a.start ≤ start → start ≤ c.start →
    a.allocBase = c.allocBase → allocBase = a.allocBase
  edge : ∀ a ∈ vads, a.allocBase = allocBase → ∀ b ∈ vads,
    (a.start ≤ b.start ∧ b.start ≤ start ∨ start ≤ b.start ∧ b.start ≤ a.start) →
      b.allocBase = allocBase

theorem Shape.joins_new (h : Shape vads) (hlen : 0 < len) (hfree : Free vads start len)
    (hhole : ¬InHole vads start len) (kind : VadKind) : Joins vads start start kind := by
  have hnone : ∀ v ∈ vads, v.allocBase ≠ start := by
    intro v hv he
    obtain ⟨h0, hh0, hs, -⟩ := h.head v hv
    have := h.pos h0 hh0
    have := hfree h0 hh0
    omega
  refine ⟨le_rfl, .inl rfl, fun v hv he => absurd he (hnone v hv), ?_,
    fun a ha he => absurd he (hnone a ha)⟩
  intro a ha c hc has hsc he
  have := hfree a ha
  have := hfree c hc
  have := h.pos c hc
  exact absurd ⟨a, ha, c, hc, he, by omega, by omega⟩ hhole

theorem Shape.rangeFree_iff (h : Shape p.vads) {stop : Nat} (hlt : start < stop)
    (hf : rangeFree p start stop = true) : Free p.vads start (stop - start) := by
  obtain ⟨l, r, hlr, hlen, hl, hr⟩ := h.lower start
  rw [rangeFree, hlen, hlr, List.getElem?_append_right le_rfl, Nat.sub_self] at hf
  rw [hlr]
  intro v hv
  rcases mem_append.1 hv with hv | hv
  · exact .inl (hl v hv)
  · right
    cases r with
    | nil => simp at hv
    | cons w r =>
      simp only [List.getElem?_cons_zero, Option.any_some, Bool.not_eq_true',
        decide_eq_false_iff_not, not_lt] at hf
      rcases mem_cons.1 hv with rfl | hv
      · omega
      · rw [hlr] at h
        have := (ordered_cons.1 (ordered_append.1 h.ordered).2.1).1 v hv
        have := h.pos w (by simp)
        omega

theorem Shape.install {q : Process} (h : Shape p.vads) {n : Vad} {kz : Bool} (hok : n.Ok)
    (hfree : Free p.vads n.start (n.stop - n.start)) (hj : Joins p.vads n.start n.allocBase n.kind)
    (hq : vadInsertAt p (vadLower p.vads n.start) n kz = some q) : Shape q.vads := by
  rw [vadInsertAt_vads hq]
  exact h.insert ⟨hok, fun v hv => by have := hfree v hv; omega, hj.base_le, hj.head, hj.view,
    hj.outside, hj.edge⟩

/-! ### The search for a base -/

theorem Shape.free_or_hit (h : Shape vads) :
    (∀ v, vads[vadLower vads cand]? = some v → ¬v.start < cand + len) → Free vads cand len := by
  intro hv
  obtain ⟨l, r, rfl, hlen, hl, hr⟩ := h.lower cand
  intro v hvm
  rcases mem_append.1 hvm with hvm | hvm
  · exact .inl (hl v hvm)
  · right
    cases r with
    | nil => simp at hvm
    | cons w r =>
      have hw := hv w (by simp [hlen])
      rcases mem_cons.1 hvm with rfl | hvm
      · omega
      · have := (ordered_cons.1 (ordered_append.1 h.ordered).2.1).1 v hvm
        have := h.pos w (by simp)
        omega

/-- `c` is where a base-less request for `len` bytes goes: the lowest free 64 KiB
boundary from the hint on, or the highest one in the user range. -/
def FirstFit (vads : List Vad) (hint : Nat) (topDown : Bool) (len c : Nat) : Prop :=
  0x10000 ∣ c ∧ USER_MIN ≤ c ∧ c + len ≤ USER_TOP ∧ Free vads c len ∧
    if topDown then ∀ x, 0x10000 ∣ x → c < x → x + len ≤ USER_TOP → ¬Free vads x len
    else hint ≤ c ∧ ∀ x, 0x10000 ∣ x → hint ≤ x → x < c → ¬Free vads x len

/-- A candidate of the search from which no step wraps and that has passed no
free boundary; for a top-down search some free boundary is at or below it. -/
structure Candidate (vads : List Vad) (hint : Nat) (topDown : Bool) (len cand : Nat) : Prop where
  aligned : 0x10000 ∣ cand
  small : cand + len < 2 ^ 64
  below : topDown = true → ∃ x, 0x10000 ∣ x ∧ x ≤ cand ∧ Free vads x len
  highest : topDown = true → ∀ x, 0x10000 ∣ x → cand < x → x + len ≤ USER_TOP → ¬Free vads x len
  lowest : topDown = false → hint ≤ cand ∧ ∀ x, 0x10000 ∣ x → hint ≤ x → x < cand → ¬Free vads x len

theorem Candidate.firstFit (h : Candidate vads hint topDown len c) (hmin : USER_MIN ≤ c)
    (htop : c + len ≤ USER_TOP) (hfree : Free vads c len) : FirstFit vads hint topDown len c := by
  refine ⟨h.aligned, hmin, htop, hfree, ?_⟩
  cases topDown with
  | true => exact h.highest rfl
  | false => exact h.lowest rfl

theorem Shape.first_candidate (hlen : len ≤ USER_TOP) (hhint : p.mmapHint ≤ USER_TOP)
    (hroom : topDown = true → Room p.vads len) :
    Candidate p.vads p.mmapHint topDown len (firstCandidate p topDown len) := by
  unfold firstCandidate
  simp only [USER_TOP] at *
  cases topDown with
  | true =>
    obtain ⟨x, hx, hle, hfree⟩ := hroom rfl
    simp only [USER_TOP] at hle
    rw [if_pos rfl, sub64_eq (by omega) (by omega)]
    have := floor64K_le (0x00007ffffffef000 - len)
    refine ⟨floor64K_dvd _, by omega, fun _ => ⟨x, hx, le_floor64K hx (by omega), hfree⟩,
      fun _ y hy hlt hyt => ?_, fun hf => absurd hf (by simp)⟩
    simp only [USER_TOP] at hyt
    have := le_floor64K (v := 0x00007ffffffef000 - len) hy (by omega)
    omega
  | false =>
    rw [if_neg Bool.false_ne_true, add64_eq (by omega)]
    have := floor64K_le (p.mmapHint + 0xffff)
    have := lt_floor64K (p.mmapHint + 0xffff)
    refine ⟨floor64K_dvd _, by omega, fun hf => absurd hf Bool.false_ne_true,
      fun hf => absurd hf Bool.false_ne_true, fun _ => ⟨by omega, fun y hy hle hlt => ?_⟩⟩
    unfold floor64K at hlt
    omega

/-- The candidate after one that overlaps `v`. -/
def nextCandidate (topDown : Bool) (len : Nat) (v : Vad) : Nat :=
  if topDown then floor64K (sub64 v.start len) else floor64K (add64 v.stop 0xffff)

theorem chooseBase_cases {tries : Nat} (h : chooseBase vads topDown len tries cand = some c) :
    (c = cand ∧ USER_MIN ≤ cand ∧ add64 cand len ≤ USER_TOP ∧
      ∀ v, vads[vadLower vads cand]? = some v → ¬v.start < add64 cand len) ∨
    ∃ t v, tries = t + 1 ∧ vads[vadLower vads cand]? = some v ∧ v.start < add64 cand len ∧
      chooseBase vads topDown len t (nextCandidate topDown len v) = some c := by
  rw [chooseBase] at h
  by_cases hin : cand < USER_MIN ∨ add64 cand len > USER_TOP
  · rw [if_pos hin] at h
    cases h
  · rw [if_neg hin] at h
    rw [not_or, Nat.not_lt, Nat.not_lt] at hin
    split at h
    · rename_i hnone
      exact .inl ⟨by simpa using h.symm, hin.1, hin.2, by simp [hnone]⟩
    · rename_i v hv
      split at h
      · rename_i hlt
        cases tries with
        | zero => cases h
        | succ t => exact .inr ⟨t, v, rfl, hv, hlt, h⟩
      · rename_i hlt
        refine .inl ⟨by simpa using h.symm, hin.1, hin.2, fun w hw => ?_⟩
        obtain rfl : v = w := by rw [hv] at hw; simpa using hw
        exact hlt

/-- The step of the search from a candidate that overlaps a descriptor. -/
theorem Shape.next_candidate (h : Shape vads) {v : Vad} (hlen : len ≤ USER_TOP)
    (hc : Candidate vads hint topDown len cand) (hv : vads[vadLower vads cand]? = some v)
    (hlt : v.start < cand + len) :
    Candidate vads hint topDown len (nextCandidate topDown len v) := by
  unfold nextCandidate
  obtain ⟨l, r, hlr, hl, -, hr⟩ := h.lower cand
  have hmem : v ∈ vads := mem_of_getElem? hv
  have htop := (h.ok v hmem).le_top
  have hstop : cand < v.stop := by
    refine hr v ?_
    rw [hl, hlr, List.getElem?_append_right le_rfl] at hv
    exact mem_of_getElem? hv
  simp only [USER_TOP] at hlen htop
  cases topDown with
  | true =>
    obtain ⟨x, hxd, hxc, hxf⟩ := hc.below rfl
    -- the free boundary lies below the overlapped descriptor, so the subtraction does not wrap
    have hle : x + len ≤ v.start := by
      rcases hxf v hmem with hf | hf
      · omega
      · exact hf
    rw [if_pos rfl, sub64_eq (by omega) (by omega)]
    have := floor64K_le (v.start - len)
    refine ⟨floor64K_dvd _, by omega, fun _ => ⟨x, hxd, le_floor64K hxd (by omega), hxf⟩,
      fun _ y hy hylt hyt hyf => ?_, fun hf => absurd hf (by simp)⟩
    by_cases hyc : cand < y
    · exact hc.highest rfl y hy hyc hyt hyf
    · rcases hyf v hmem with hf | hf
      · omega
      · have := le_floor64K (v := v.start - len) hy (by omega)
        omega
  | false =>
    obtain ⟨hhint, hlow⟩ := hc.lowest rfl
    rw [if_neg Bool.false_ne_true, add64_eq (by omega)]
    have := floor64K_le (v.stop + 0xffff)
    have := lt_floor64K (v.stop + 0xffff)
    refine ⟨floor64K_dvd _, by omega, fun hf => absurd hf Bool.false_ne_true,
      fun hf => absurd hf Bool.false_ne_true, fun _ => ⟨by omega, fun y hy hyh hylt hyf => ?_⟩⟩
    by_cases hyc : y < cand
    · exact hlow y hy hyh hyc hyf
    · rcases hyf v hmem with hf | hf
      · obtain ⟨k, rfl⟩ := hy
        unfold floor64K at hylt
        omega
      · omega

/-- **The search is first fit**, if it starts from a candidate. -/
theorem Shape.chooseBase (h : Shape vads) (hlen : len ≤ USER_TOP) :
    ∀ {tries cand c : Nat}, Candidate vads hint topDown len cand →
      chooseBase vads topDown len tries cand = some c → FirstFit vads hint topDown len c := by
  intro tries
  induction tries with
  | zero =>
    intro cand c hc he
    rcases chooseBase_cases he with ⟨rfl, hmin, htop, hv⟩ | ⟨t, -, ht, -⟩
    · rw [add64_eq hc.small] at htop hv
      exact hc.firstFit hmin htop (h.free_or_hit hv)
    · omega
  | succ tries ih =>
    intro cand c hc he
    rcases chooseBase_cases he with ⟨rfl, hmin, htop, hv⟩ | ⟨t, v, ht, hv, hlt, hrest⟩
    · rw [add64_eq hc.small] at htop hv
      exact hc.firstFit hmin htop (h.free_or_hit hv)
    · obtain rfl : tries = t := by omega
      rw [add64_eq hc.small] at hlt
      exact ih (h.next_candidate hlen hc hv hlt) hrest

end Win98Modern.Kernel64
