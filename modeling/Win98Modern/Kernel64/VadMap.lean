import Win98Modern.Kernel64.VadPages

/-!
# The calls as operations on the page map

What each call of `vad.c` does to the page map: a reservation takes a free range
of pages, commit, decommit and protect change the pages that `[base, base + size)`
touches, a release frees the pages of one allocation, a query reports the map,
and a call that fails does nothing.  The sum `base + size` is taken without a
bound here, as a caller means it.

The calls do that except in four situations, and these are exact
(`alloc_refines`, `free_refines`, `protect_refines`):

* a reservation whose base lies past the first page of its 64 KiB unit is moved
  down to the boundary without being made longer (`AllocMeets`);
* a size that overflows 64 bits together with the base, or with the offset of
  the base in its page, changes one page;
* a split that finds no room has cut the descriptor already (`SplitsOk`);
* a search from the top that comes to a descriptor below `len` wraps (`Sinks`).
-/

namespace Win98Modern.Kernel64

open List

/-! ### What a call should do -/

/-- The page intersects `[base, base + size)`, the sum taken without a bound. -/
def Touched (base size n : Nat) : Prop := n * PAGE_SIZE < base + size ∧ base < (n + 1) * PAGE_SIZE

/-- A reservation: the range of the reply was free, begins at a 64 KiB boundary,
holds what was requested, and is all that changes. -/
structure Reserved (before after : Nat → Page) (base size : Nat) (r : Reply) (new : Page) : Prop where
  aligned : 0x10000 ∣ r.base
  nonempty : 0 < r.size
  free : ∀ n, Within r.base (r.base + r.size) n → before n = .free
  inside : ∀ n, Within r.base (r.base + r.size) n → after n = new
  outside : ∀ n, ¬Within r.base (r.base + r.size) n → after n = before n
  requested : if base = 0 then size ≤ r.size
    else ∀ n, Touched base size n → Within r.base (r.base + r.size) n

/-- Exactly the pages touched change, and all of them may. -/
structure Changed (before after : Nat → Page) (base size : Nat) (may : Page → Prop)
    (f : Page → Page) : Prop where
  allowed : ∀ n, Touched base size n → may (before n)
  inside : ∀ n, Touched base size n → after n = f (before n)
  outside : ∀ n, ¬Touched base size n → after n = before n

def Page.Described (g : Page) : Prop := g ≠ .free

def Page.Committed (g : Page) : Prop := ∃ prot b, g = .committed prot b

/-- The request takes a fresh range. -/
def Reserves (base type : Nat) : Prop := base = 0 ∨ type / MEM_RESERVE % 2 = 1

instance (base type : Nat) : Decidable (Reserves base type) := inferInstanceAs (Decidable (_ ∨ _))

/-- What a fresh page looks like. -/
def newPage (type prot start : Nat) : Page :=
  if type / MEM_COMMIT % 2 = 1 then .committed prot start else .reserved start

def AllocRefines (p : Process) (base size type prot : Nat) (kind : VadKind) (kz kz' : Bool) : Prop :=
  let r := vadAlloc p base size type prot kind kz kz'
  if r.status = .success then
    if Reserves base type then
      Reserved (pageMap p.vads) (pageMap r.proc.vads) base size r (newPage type prot r.base)
    else Changed (pageMap p.vads) (pageMap r.proc.vads) base size Page.Described (Page.commit prot)
  else pageMap r.proc.vads = pageMap p.vads

def FreeRefines (p : Process) (base size type : Nat) (kz kz' : Bool) : Prop :=
  let r := vadFree p base size type kz kz'
  if r.status = .success then
    if type = MEM_RELEASE then
      ∀ n, pageMap r.proc.vads n =
        if (pageMap p.vads n).allocBase? = some base then .free else pageMap p.vads n
    else Changed (pageMap p.vads) (pageMap r.proc.vads) base size Page.Described Page.decommit
  else pageMap r.proc.vads = pageMap p.vads

def ProtectRefines (p : Process) (base size newProt : Nat) (kz kz' : Bool) : Prop :=
  let r := vadProtect p base size newProt kz kz'
  if r.1 = .success then
    Changed (pageMap p.vads) (pageMap r.2.2.vads) base size Page.Committed (Page.protect newProt)
  else pageMap r.2.2.vads = pageMap p.vads

/-- What the out parameters of a query say about the pages of the region. -/
def Region.page (r : Region) : Page :=
  if r.state = MEM_FREE then .free
  else if r.state = MEM_COMMIT then .committed r.prot r.allocBase else .reserved r.allocBase

def QueryRefines (p : Process) (addr : Nat) : Prop :=
  match vadQuery p addr with
  | none => USER_TOP ≤ addr
  | some r => r.base ≤ addr ∧ addr < r.base + r.size ∧
      ∀ n, Within r.base (r.base + r.size) n → pageMap p.vads n = r.page

/-! ### When it does -/

/-- Neither split of a range runs out of room; the first one may have grown the
array already. -/
def SplitsOk (p : Process) (start stop : Nat) (kz kz' : Bool) : Prop :=
  (Straddles p.vads start → ¬NoRoom p kz) ∧
  (Straddles p.vads stop → kz' = false →
    p.vads.length + (if Straddles p.vads start then 1 else 0) ≠
      if Straddles p.vads start ∧ p.vads.length = p.cap then p.cap * 2 else p.cap)

/-- The top-down search for `len` bytes comes, within its moves, to a candidate
that overlaps a descriptor which begins below `len`. -/
def Sinks (vads : List Vad) (len : Nat) : Nat → Nat → Prop
  | 0, _ => False
  | tries + 1, cand => USER_MIN ≤ cand ∧ cand + len ≤ USER_TOP ∧
      ∃ v, vads[vadLower vads cand]? = some v ∧ v.start < cand + len ∧
        (v.start < len ∨ Sinks vads len tries (floor64K (v.start - len)))

/-- The range lies in the user range. -/
def InUser (start len : Nat) : Prop := USER_MIN ≤ start ∧ start + len ≤ USER_TOP

def AllocMeets (p : Process) (base size type prot : Nat) (kz kz' : Bool) : Prop :=
  let len := allocLen base size
  AllocArgs base size type prot →
    if base = 0 then
      type / MEM_TOP_DOWN % 2 = 1 → ¬NoRoom p kz →
        ¬Sinks p.vads len MAX_TRIES (floor64K (USER_TOP - len))
    else if type / MEM_RESERVE % 2 = 1 then
      InUser (floor64K (pageFloor base)) len → Free p.vads (floor64K (pageFloor base)) len →
        ¬NoRoom p kz → base % 0x10000 < PAGE_SIZE ∧ size + base % PAGE_SIZE < 2 ^ 64
    else
      InUser (pageFloor base) len →
        (∀ n, Within (pageFloor base) (pageFloor base + len) n → (pageMap p.vads n).Described) →
        SplitsOk p (pageFloor base) (pageFloor base + len) kz kz' ∧
          size + base % PAGE_SIZE < 2 ^ 64

/-- A walk over the pages from `base` on is made, and every page may be changed. -/
def RangeMeets (p : Process) (base size : Nat) (may : Page → Prop) (kz kz' : Bool) : Prop :=
  let start := pageFloor base
  let stop := up (add64 base size)
  size ≠ 0 → start < stop → (∀ n, Within start stop n → may (pageMap p.vads n)) →
    SplitsOk p start stop kz kz' ∧ base + size < 2 ^ 64

def FreeMeets (p : Process) (base size type : Nat) (kz kz' : Bool) : Prop :=
  base ≠ 0 → type = MEM_DECOMMIT →
    (∀ v ∈ p.vads, v.start ≤ base → base < v.stop → v.kind ≠ .view) →
    RangeMeets p base size Page.Described kz kz'

def ProtectMeets (p : Process) (base size newProt : Nat) (kz kz' : Bool) : Prop :=
  protValid newProt → RangeMeets p base size Page.Committed kz kz'

/-! ### Pages of a request -/

theorem up_cases (v : Nat) (hv : v < 2 ^ 64) :
    (v + 4095 < 2 ^ 64 ∧ up v = (v + 4095) / 4096 * 4096) ∨ up v = 0 := by
  unfold up pageFloor add64 PAGE_SIZE
  omega

variable {base size n stop a start len : Nat} {vads : List Vad} {f : Page → Page} {p : Process}
  {body : Process → Nat → Process} {g : Vad → Vad} {kz kz' : Bool}

/-- The rounded range of a request holds exactly the pages it touches. -/
theorem touched_iff_alloc (hlt : size + base % PAGE_SIZE < 2 ^ 64) (hlen : allocLen base size ≠ 0) :
    Touched base size n ↔ Within (pageFloor base) (pageFloor base + allocLen base size) n := by
  have hadd : add64 size (base % PAGE_SIZE) = size + base % PAGE_SIZE := add64_eq hlt
  unfold allocLen at hlen ⊢
  rw [hadd] at hlen ⊢
  rcases up_cases _ hlt with ⟨h, he⟩ | he
  · rw [he]
    unfold Touched Within pageFloor PAGE_SIZE at *
    omega
  · exact absurd he hlen

theorem allocLen_le (hsize : size < 2 ^ 64) (hge : 2 ^ 64 ≤ size + base % PAGE_SIZE) :
    allocLen base size ≤ PAGE_SIZE := by
  have hmod : base % PAGE_SIZE < 4096 := Nat.mod_lt _ (by decide)
  have hadd : add64 size (base % PAGE_SIZE) = size + base % PAGE_SIZE - 2 ^ 64 := by
    unfold add64
    omega
  unfold allocLen
  rw [hadd]
  rcases up_cases (size + base % PAGE_SIZE - 2 ^ 64) (by omega) with ⟨h, he⟩ | he <;>
    rw [he]
  · unfold PAGE_SIZE
    omega
  · exact Nat.zero_le _

theorem le_allocLen_zero (hsize : size < 2 ^ 64) (hlen : allocLen 0 size ≠ 0) :
    size ≤ allocLen 0 size := by
  have hadd : add64 size (0 % PAGE_SIZE) = size := by
    rw [Nat.zero_mod]
    exact add64_eq (by omega)
  unfold allocLen at hlen ⊢
  rw [hadd] at hlen ⊢
  rcases up_cases size hsize with ⟨h, he⟩ | he
  · rw [he]
    omega
  · exact absurd he hlen

/-- The range of decommit and protect holds exactly the pages touched. -/
theorem touched_iff_range (hlt : base + size < 2 ^ 64)
    (hpos : pageFloor base < up (add64 base size)) :
    Touched base size n ↔ Within (pageFloor base) (up (add64 base size)) n := by
  rw [add64_eq hlt] at hpos ⊢
  rcases up_cases _ hlt with ⟨h, he⟩ | he
  · rw [he] at hpos ⊢
    unfold Touched Within pageFloor PAGE_SIZE at *
    omega
  · rw [he] at hpos
    exact absurd hpos (Nat.not_lt_zero _)

theorem Shape.not_changed (h : Shape vads) {after : Nat → Page} {may : Page → Prop}
    (hmay : ∀ g, may g → g ≠ .free) (hbase : base < USER_TOP + PAGE_SIZE)
    (hend : USER_TOP < base + size) : ¬Changed (pageMap vads) after base size may f := by
  intro hc
  have htop : USER_TOP / PAGE_SIZE * PAGE_SIZE = USER_TOP := Nat.div_mul_cancel top_dvd
  refine hmay _ (hc.allowed (USER_TOP / PAGE_SIZE) ⟨by rw [htop]; exact hend, ?_⟩)
    (pageMap_above (fun v hv => (h.ok v hv).le_top) htop.ge)
  exact hbase

/-! ### Walks over a checked range -/

theorem Shape.covered_iff (h : Shape vads) (ok : Vad → Bool) (ha : PAGE_SIZE ∣ a) :
    covered vads ok a stop = true ↔
      ∀ n, Within a stop n → ∃ v ∈ vads, Within v.start v.stop n ∧ ok v = true := by
  induction a using covered.induct vads stop with
  | case1 a hlt hnone =>
    rw [covered, if_pos hlt]
    have hno : ¬∃ v ∈ vads, Within v.start v.stop (a / PAGE_SIZE) ∧ ok v = true := by
      rintro ⟨v, hv, hin, -⟩
      rw [Within, Nat.div_mul_cancel ha] at hin
      obtain ⟨i, hi⟩ := (h.find_iff a v).2 ⟨hv, hin⟩
      rw [hnone] at hi
      cases hi
    split
    · constructor
      · intro hf
        cases hf
      · intro hall
        exact absurd (hall _ (within_of_dvd ha le_rfl hlt)) hno
    · rename_i i v hv
      rw [hnone] at hv
      cases hv
  | case2 a hlt i v hsome ih =>
    obtain ⟨hmem, hin⟩ := (h.find_iff a v).1 ⟨i, hsome⟩
    have ih := ih (h.ok v hmem).stop_page
    rw [covered, if_pos hlt]
    split
    · rename_i hnone
      rw [hsome] at hnone
      cases hnone
    · rename_i j w hw
      obtain ⟨rfl, rfl⟩ : i = j ∧ v = w := by
        rw [hsome] at hw
        simpa using hw
      rw [Bool.and_eq_true, ih]
      constructor
      · rintro ⟨hok, hrest⟩ n hn
        by_cases hnv : n * PAGE_SIZE < v.stop
        · exact ⟨v, hmem, ⟨le_trans hin.1 hn.1, hnv⟩, hok⟩
        · exact hrest n ⟨by omega, hn.2⟩
      · intro hall
        refine ⟨?_, fun n hn => hall n ⟨by have := hn.1; omega, hn.2⟩⟩
        obtain ⟨w, hw, hwin, hok⟩ := hall _ (within_of_dvd ha le_rfl hlt)
        rw [Within, Nat.div_mul_cancel ha] at hwin
        rwa [h.ordered.unique hmem hw hin hwin]
  | case3 a hge =>
    rw [covered, if_neg hge]
    refine iff_of_true rfl (fun n hn => absurd hn (fun hn => ?_))
    have := hn.1
    have := hn.2
    omega

theorem Shape.covered_described (h : Shape vads) (stop : Nat) (ha : PAGE_SIZE ∣ a) :
    covered vads (fun _ => true) a stop = true ↔
      ∀ n, Within a stop n → (pageMap vads n).Described := by
  rw [h.covered_iff _ ha]
  refine forall₂_congr (fun n _ => ⟨?_, ?_⟩)
  · rintro ⟨v, hv, hin, -⟩
    rw [h.pageMap_eq hv hin]
    exact v.page_ne_free
  · intro hne
    obtain ⟨v, hv, hin, -⟩ := pageMap_mem hne
    exact ⟨v, hv, hin, rfl⟩

theorem Shape.covered_committed (h : Shape vads) (stop : Nat) (ha : PAGE_SIZE ∣ a) :
    covered vads (fun v => v.state = .committed) a stop = true ↔
      ∀ n, Within a stop n → (pageMap vads n).Committed := by
  rw [h.covered_iff _ ha]
  refine forall₂_congr (fun n _ => ⟨?_, ?_⟩)
  · rintro ⟨v, hv, hin, hst⟩
    rw [h.pageMap_eq hv hin, Vad.page, if_pos (by simpa using hst)]
    exact ⟨_, _, rfl⟩
  · rintro ⟨prot, b, he⟩
    obtain ⟨v, hv, hin, hp⟩ := pageMap_mem (show pageMap vads n ≠ .free by rw [he]; simp)
    refine ⟨v, hv, hin, ?_⟩
    rw [he, Vad.page] at hp
    by_contra hst
    rw [if_neg (by simpa using hst)] at hp
    cases hp

theorem Shape.splits_cases (h : Shape p.vads) (hlt : start < stop) (hs : PAGE_SIZE ∣ start)
    (he : PAGE_SIZE ∣ stop) (kz kz' : Bool) :
    (SplitsOk p start stop kz kz' ∧ ∃ q q', vadSplit p start kz = (true, q) ∧
        vadSplit q stop kz' = (true, q') ∧ Shape q'.vads ∧ pageMap q'.vads = pageMap p.vads ∧
        ¬Straddles q'.vads start ∧ ¬Straddles q'.vads stop) ∨
    (¬SplitsOk p start stop kz kz' ∧
      ((∃ q, vadSplit p start kz = (false, q) ∧ pageMap q.vads ≠ pageMap p.vads) ∨
        ∃ q q', vadSplit p start kz = (true, q) ∧ vadSplit q stop kz' = (false, q') ∧
          pageMap q'.vads ≠ pageMap p.vads)) := by
  rcases hq : vadSplit p start kz with ⟨b, q⟩
  cases b with
  | false =>
    have hf := (h.split_eq_false start kz).1 (by rw [hq])
    exact .inr ⟨fun hok => hok.1 hf.1 hf.2, .inl ⟨q, rfl, h.split_fails hs hq⟩⟩
  | true =>
    obtain ⟨hmap, hst, hlen, hcap⟩ := h.split_ok hq
    have hfirst : Straddles p.vads start → ¬NoRoom p kz := by
      intro hx hn
      have := (h.split_eq_false start kz).2 ⟨hx, hn⟩
      rw [hq] at this
      cases this
    have hshape : Shape q.vads := by
      have := (vadSplit_reshapes p hs kz).shape h
      rwa [hq] at this
    have hstop : Straddles q.vads stop ↔ Straddles p.vads stop := by
      rw [hst]
      exact ⟨fun hx => hx.1, fun hx => ⟨hx, by omega⟩⟩
    rcases hq' : vadSplit q stop kz' with ⟨b', q'⟩
    cases b' with
    | false =>
      have hf := (hshape.split_eq_false stop kz').1 (by rw [hq'])
      rw [hstop, NoRoom, hlen, hcap] at hf
      exact .inr ⟨fun hok => hok.2 hf.1 hf.2.2 hf.2.1,
        .inr ⟨q, q', rfl, hq', hmap ▸ hshape.split_fails he hq'⟩⟩
    | true =>
      obtain ⟨hmap', hst', -, -⟩ := hshape.split_ok hq'
      left
      refine ⟨⟨hfirst, fun hx hk hn => ?_⟩, q, q', rfl, hq', ?_, hmap'.trans hmap, ?_, ?_⟩
      · have hfull : NoRoom q kz' := by
          rw [NoRoom, hlen, hcap]
          exact ⟨hn, hk⟩
        have := (hshape.split_eq_false stop kz').2 ⟨hstop.2 hx, hfull⟩
        rw [hq'] at this
        cases this
      · have := (vadSplit_reshapes q he kz').shape hshape
        rwa [hq'] at this
      · intro hx
        exact ((hst start).1 ((hst' start).1 hx).1).2 rfl
      · intro hx
        exact ((hst' stop).1 hx).2 rfl

/-- After its splits a walk changes the pages of its range. -/
theorem Shape.pageMap_range (hb : Visits body g) (hr : ∀ p i, Reshapes p.vads (body p i).vads)
    (hf : f .free = .free) (hg : ∀ v, (g v).page = f v.page) {q : Process} (h : Shape q.vads)
    (hs : PAGE_SIZE ∣ start) (hmap : pageMap q.vads = pageMap p.vads)
    (hcov : ∀ n, Within start stop n → (pageMap p.vads n).Described)
    (hstart : ¬Straddles q.vads start) (hstop : ¬Straddles q.vads stop) (n : Nat) :
    pageMap (vadCoalesce (walk body q start stop)).vads n =
      if Within start stop n then f (pageMap p.vads n) else pageMap p.vads n := by
  have hw : Shape (walk body q start stop).vads := (walk_reshapes hr q start stop).shape h
  rw [pageMap_coalesce (fun v hv => (hw.pos v hv).le),
    h.pageMap_walk hb hf hg hs (fun n hn => hmap ▸ hcov n hn) hstart hstop, hmap]

/-! ### The bodies of the walks -/

theorem commitOne_visits (prot : Nat) :
    Visits (commitOne prot) (fun v => { v with state := .committed, prot := prot }) where
  vads := by
    intro p i v hv
    unfold commitOne
    rw [hv]
    simp only
    split
    · have hget : (p.vads.set i { v with state := .committed })[i]? =
          some { v with state := .committed } := by
        rw [List.getElem?_set_self (List.getElem?_eq_some_iff.1 hv).1]
      rw [vadApplyProt_vads (p := { p with vads := p.vads.set i { v with state := .committed } })
        hget, set_set]
    · rw [set_set]
  start := fun _ => rfl
  stop := fun _ => rfl
  allocBase := fun _ => rfl
  kind := fun _ => rfl

theorem decommitOne_visits : Visits decommitOne (fun v => { v with state := .reserved }) where
  vads := by
    intro p i v hv
    unfold decommitOne
    rw [hv]
    simp only
    split
    · rw [unmapPages_vads]
    · rfl
  start := fun _ => rfl
  stop := fun _ => rfl
  allocBase := fun _ => rfl
  kind := fun _ => rfl

theorem vadApplyProt_visits (prot : Nat) :
    Visits (fun p i => vadApplyProt p i prot) (fun v => { v with prot := prot }) where
  vads := fun _ _ _ hv => vadApplyProt_vads hv prot
  start := fun _ => rfl
  stop := fun _ => rfl
  allocBase := fun _ => rfl
  kind := fun _ => rfl

theorem page_commit (prot : Nat) (v : Vad) :
    Vad.page { v with state := .committed, prot := prot } = Page.commit prot v.page := by
  unfold Vad.page
  rw [if_pos rfl]
  split <;> rfl

theorem page_decommit (v : Vad) : Vad.page { v with state := .reserved } = Page.decommit v.page := by
  unfold Vad.page
  rw [if_neg (by simp)]
  split <;> rfl

theorem page_protect (prot : Nat) (v : Vad) :
    Vad.page { v with prot := prot } = Page.protect prot v.page := by
  unfold Vad.page
  split <;> rfl

/-! ### Decommit and protect -/

/-- **Walks change the pages touched**: the tail that commit, decommit and protect
share, as an equivalence.  `small` says that the request does not overflow. -/
theorem Shape.range_refines (hb : Visits body g) (hr : ∀ p i, Reshapes p.vads (body p i).vads)
    (hf : f .free = .free) (hg : ∀ v, (g v).page = f v.page) (may : Page → Prop)
    (hmay : ∀ g, may g → g ≠ .free) (h : Shape p.vads) (kz kz' : Bool) (small : Prop)
    (hstop : PAGE_SIZE ∣ stop) (hpos : pageFloor base < stop)
    (htouch : small → ∀ n, Touched base size n ↔ Within (pageFloor base) stop n)
    (hbig : ¬small → USER_TOP < base + size)
    (hcov : ∀ n, Within (pageFloor base) stop n → may (pageMap p.vads n)) :
    (∃ q q', vadSplit p (pageFloor base) kz = (true, q) ∧ vadSplit q stop kz' = (true, q') ∧
        (Changed (pageMap p.vads)
            (pageMap (vadCoalesce (walk body q' (pageFloor base) stop)).vads) base size may f ↔
          SplitsOk p (pageFloor base) stop kz kz' ∧ small)) ∨
    (¬SplitsOk p (pageFloor base) stop kz kz' ∧
      ((∃ q, vadSplit p (pageFloor base) kz = (false, q) ∧ pageMap q.vads ≠ pageMap p.vads) ∨
        ∃ q q', vadSplit p (pageFloor base) kz = (true, q) ∧ vadSplit q stop kz' = (false, q') ∧
          pageMap q'.vads ≠ pageMap p.vads)) := by
  rcases h.splits_cases hpos (pageFloor_dvd _) hstop kz kz' with
    ⟨hok, q, q', hq, hq', hshape, hmap, hs, he⟩ | hbad
  · left
    refine ⟨q, q', hq, hq', ?_⟩
    have hafter := hshape.pageMap_range hb hr hf hg (pageFloor_dvd base) hmap
      (fun n hn => hmay _ (hcov n hn)) hs he
    constructor
    · intro hc
      refine ⟨hok, ?_⟩
      by_contra hlarge
      -- the first page of the range is described, so the base is in the user range
      have hfirst := hmay _ (hcov (base / PAGE_SIZE) ⟨le_rfl, hpos⟩)
      have hlow : base / PAGE_SIZE * PAGE_SIZE < USER_TOP := by
        by_contra hhigh
        exact hfirst (pageMap_above (fun v hv => (h.ok v hv).le_top) (by omega))
      refine h.not_changed hmay ?_ (hbig hlarge) hc
      unfold PAGE_SIZE at *
      omega
    · rintro ⟨-, hsmall⟩
      have htouch := htouch hsmall
      refine ⟨fun n hn => hcov n ((htouch n).1 hn), fun n hn => ?_, fun n hn => ?_⟩
      · rw [hafter, if_pos ((htouch n).1 hn)]
      · rw [hafter, if_neg (fun hw => hn ((htouch n).2 hw))]
  · exact .inr hbad

theorem protect_refines (h : Sound p) {newProt : Nat} :
    ProtectRefines p base size newProt kz kz' ↔ ProtectMeets p base size newProt kz kz' := by
  have hcovered := h.shape.covered_committed (up (add64 base size)) (pageFloor_dvd base)
  unfold ProtectRefines ProtectMeets RangeMeets vadProtect
  simp only
  split
  · rename_i hargs
    refine iff_of_true (by simp) (fun hv hs hlt => absurd hargs ?_)
    simp [hv, hs, hlt]
  · rename_i hargs
    simp only [not_or, not_not, Nat.not_le] at hargs
    obtain ⟨hs, hpos, hvalid⟩ := hargs
    split
    · rename_i hcov
      refine iff_of_true (by simp) (fun _ _ _ hall => absurd (hcovered.2 hall) (by simpa using hcov))
    · rename_i hcov
      have hall := hcovered.1 (by simpa using hcov)
      have hmeets : (protValid newProt = true → size ≠ 0 →
          pageFloor base < up (add64 base size) →
          (∀ n, Within (pageFloor base) (up (add64 base size)) n → (pageMap p.vads n).Committed) →
          SplitsOk p (pageFloor base) (up (add64 base size)) kz kz' ∧ base + size < 2 ^ 64) ↔
          SplitsOk p (pageFloor base) (up (add64 base size)) kz kz' ∧ base + size < 2 ^ 64 :=
        ⟨fun hm => hm hvalid hs hpos hall, fun hm _ _ _ _ => hm⟩
      rw [hmeets]
      rcases h.shape.range_refines (vadApplyProt_visits newProt)
        (fun q i => vadApplyProt_reshapes q i newProt) rfl (page_protect newProt)
        Page.Committed (fun g hg => by obtain ⟨a, b, rfl⟩ := hg; simp) kz kz' (base + size < 2 ^ 64) (up_dvd _) hpos
        (fun hlt n => touched_iff_range hlt hpos)
        (fun hge => by unfold USER_TOP; omega) hall with
        ⟨q, q', hq, hq', hiff⟩ | ⟨hno, ⟨q, hq, hne⟩ | ⟨q, q', hq, hq', hne⟩⟩
      · simpa only [hq, hq', if_true] using hiff
      · simp [hq, hne, hno]
      · simp [hq, hq', hne, hno]

theorem free_refines (h : Sound p) {type : Nat} :
    FreeRefines p base size type kz kz' ↔ FreeMeets p base size type kz kz' := by
  have hcovered := h.shape.covered_described (up (add64 base size)) (pageFloor_dvd base)
  unfold FreeRefines FreeMeets RangeMeets vadFree
  simp only
  split
  · rename_i h0
    refine iff_of_true (by simp) (fun hb => absurd h0 hb)
  rename_i h0
  split
  · rename_i hview
    refine iff_of_true (by simp) (fun _ _ hno => ?_)
    cases hv : vadFind p.vads base with
    | none => rw [hv] at hview; cases hview
    | some w =>
      rw [hv, Option.any_some, decide_eq_true_eq] at hview
      obtain ⟨hlo, hhi⟩ := (vadFind_some hv).2
      exact absurd hview (hno w.2 (vadFind_mem hv) hlo hhi)
  rename_i hview
  split
  · rename_i htype
    have hmeets : ¬type = MEM_DECOMMIT := by rw [htype]; decide
    simp only [hmeets, false_imp_iff, implies_true, iff_true]
    split
    · simp
    · rename_i i v hv
      split
      · simp
      · rename_i hb
        split
        · simp
        · simp only [if_true]
          intro n
          rw [h.release hv (by simpa using hb), h.shape.pageMap_remove]
  rename_i hrel
  split
  · rename_i htype
    have hnoview : ∀ v ∈ p.vads, v.start ≤ base → base < v.stop → v.kind ≠ .view := by
      intro v hv hlo hhi hk
      obtain ⟨i, hi⟩ := (h.shape.find_iff base v).2 ⟨hv, hlo, hhi⟩
      rw [hi] at hview
      simp [hk] at hview
    split
    · rename_i hargs
      refine iff_of_true (by simp) (fun _ _ _ hs hlt => ?_)
      omega
    · rename_i hargs
      rw [not_or, Nat.not_le] at hargs
      obtain ⟨hs, hpos⟩ := hargs
      split
      · rename_i hcov
        refine iff_of_true (by simp)
          (fun _ _ _ _ _ hall => absurd (hcovered.2 hall) (by simpa using hcov))
      · rename_i hcov
        have hall := hcovered.1 (by simpa using hcov)
        have hmeets : (base ≠ 0 → type = MEM_DECOMMIT →
            (∀ v ∈ p.vads, v.start ≤ base → base < v.stop → v.kind ≠ .view) → size ≠ 0 →
            pageFloor base < up (add64 base size) →
            (∀ n, Within (pageFloor base) (up (add64 base size)) n →
              (pageMap p.vads n).Described) →
            SplitsOk p (pageFloor base) (up (add64 base size)) kz kz' ∧ base + size < 2 ^ 64) ↔
            SplitsOk p (pageFloor base) (up (add64 base size)) kz kz' ∧ base + size < 2 ^ 64 :=
          ⟨fun hm => hm h0 htype hnoview hs hpos hall, fun hm _ _ _ _ _ _ => hm⟩
        rw [hmeets]
        rcases h.shape.range_refines decommitOne_visits decommitOne_reshapes rfl page_decommit
          Page.Described (fun g hg => hg) kz kz' (base + size < 2 ^ 64) (up_dvd _) hpos
          (fun hlt n => touched_iff_range hlt hpos)
          (fun hge => by unfold USER_TOP; omega) hall with
          ⟨q, q', hq, hq', hiff⟩ | ⟨hno, ⟨q, hq, hne⟩ | ⟨q, q', hq, hq', hne⟩⟩
        · simpa only [hq, hq', if_true, if_neg hrel] using hiff
        · simp [hq, hne, hno]
        · simp [hq, hq', hne, hno]
  · rename_i htype
    exact iff_of_true (by simp) (fun _ ht => absurd ht htype)

theorem chooseBase_free (h : Shape vads) {topDown : Bool} (hlen : len ≤ USER_TOP) :
    ∀ {tries cand c : Nat}, 0x10000 ∣ cand → cand + len < 2 ^ 64 →
      (topDown = true → ¬Sinks vads len tries cand) →
      chooseBase vads topDown len tries cand = some c →
        0x10000 ∣ c ∧ USER_MIN ≤ c ∧ c + len ≤ USER_TOP ∧ Free vads c len := by
  intro tries
  induction tries with
  | zero =>
    intro cand c hd hlt _ he
    rcases chooseBase_cases he with ⟨rfl, hmin, htop, hv⟩ | ⟨t, -, ht, -⟩
    · rw [add64_eq hlt] at htop hv
      exact ⟨hd, hmin, htop, h.free_or_hit hv⟩
    · omega
  | succ tries ih =>
    intro cand c hd hlt hsink he
    rcases chooseBase_cases he with ⟨rfl, hmin, htop, hv⟩ | ⟨t, v, ht, hv, hvlt, hrest⟩
    · rw [add64_eq hlt] at htop hv
      exact ⟨hd, hmin, htop, h.free_or_hit hv⟩
    · obtain rfl : tries = t := by omega
      rw [add64_eq hlt] at hvlt
      have hok := h.ok v (mem_of_getElem? hv)
      have hvtop := hok.le_top
      rw [USER_TOP] at hlen hvtop
      have hin : USER_MIN ≤ cand ∧ cand + len ≤ USER_TOP := by
        rw [chooseBase] at he
        by_cases hout : cand < USER_MIN ∨ add64 cand len > USER_TOP
        · rw [if_pos hout] at he
          cases he
        · rw [add64_eq hlt] at hout
          omega
      cases topDown with
      | true =>
        have hno := hsink rfl
        have hge : len ≤ v.start := by
          by_contra hc
          exact hno ⟨hin.1, hin.2, v, hv, hvlt, .inl (by omega)⟩
        have hnext : nextCandidate true len v = floor64K (v.start - len) := by
          rw [nextCandidate, if_pos rfl, sub64_eq hge (by omega)]
        rw [hnext] at hrest
        have := floor64K_le (v.start - len)
        exact ih (floor64K_dvd _) (by omega)
          (fun _ hs => hno ⟨hin.1, hin.2, v, hv, hvlt, .inr hs⟩) hrest
      | false =>
        have hnext : nextCandidate false len v = floor64K (v.stop + 0xffff) := by
          rw [nextCandidate, if_neg Bool.false_ne_true, add64_eq (by omega)]
        rw [hnext] at hrest
        have := floor64K_le (v.stop + 0xffff)
        exact ih (floor64K_dvd _) (by omega) (fun hf => absurd hf Bool.false_ne_true) hrest

/-- A search that sinks ends above the user range. -/
theorem chooseBase_sinks (h : Shape vads) (hlen : len ≤ USER_TOP) :
    ∀ {tries cand : Nat}, Sinks vads len tries cand →
      ∃ c, chooseBase vads true len tries cand = some c ∧ 0x10000 ∣ c ∧ USER_TOP < c ∧
        c < 2 ^ 64 ∧ add64 c len ≤ USER_TOP := by
  intro tries
  induction tries with
  | zero => intro cand hs; cases hs
  | succ tries ih =>
    intro cand hs
    obtain ⟨hmin, htop, v, hv, hvlt, hs⟩ := hs
    have hok := h.ok v (mem_of_getElem? hv)
    have hvmin := hok.min_le
    have hadd : add64 cand len = cand + len := add64_eq (by rw [USER_TOP] at htop; omega)
    have hstep : chooseBase vads true len (tries + 1) cand =
        chooseBase vads true len tries (floor64K (sub64 v.start len)) := by
      rw [chooseBase, if_neg (by rw [hadd]; omega), hv]
      simp only
      rw [hadd, if_pos hvlt]
      rfl
    rw [hstep]
    by_cases hlt : v.start < len
    · -- the next candidate lies just below 2 ^ 64 and is free
      refine ⟨floor64K (sub64 v.start len), ?_, floor64K_dvd _, ?_⟩
      · have hbig : USER_TOP < floor64K (sub64 v.start len) ∧
            add64 (floor64K (sub64 v.start len)) len ≤ USER_TOP := by
          unfold sub64 floor64K add64 USER_MIN USER_TOP at *
          omega
        have hnone : vads[vadLower vads (floor64K (sub64 v.start len))]? = none := by
          obtain ⟨l, r, rfl, hl, -, hr⟩ := h.lower (floor64K (sub64 v.start len))
          rw [hl]
          cases r with
          | nil => simp
          | cons w r =>
            have := hr w mem_cons_self
            have := (h.ok w (by simp)).le_top
            omega
        rw [chooseBase, if_neg (by unfold USER_MIN USER_TOP at *; omega), hnone]
      · unfold sub64 floor64K add64 USER_MIN USER_TOP at *
        omega
    · rw [sub64_eq (by omega) (by unfold USER_TOP at *; omega)]
      exact ih (hs.resolve_left hlt)

/-! ### Allocation -/

section Alloc

variable {p : Process} {base size type prot : Nat} {kind : VadKind} {kz kz' : Bool}

theorem vadAlloc_args (ha : ¬AllocArgs base size type prot) :
    vadAlloc p base size type prot kind kz kz' = ⟨.invalidParameter, base, size, p⟩ := by
  unfold vadAlloc
  simp only
  split
  · rfl
  rename_i hargs
  split
  · rfl
  rename_i hknown
  split
  · rfl
  rename_i hlen
  simp only [decide_eq_true_eq, not_or, not_not, Bool.not_eq_true] at hargs hknown hlen
  exact absurd ⟨by omega, hargs.2.1, by simpa using hargs.2.2, hknown, hlen.1, by omega⟩ ha

theorem allocArgs_checks (hcr : type / MEM_COMMIT % 2 = 1 ∨ type / MEM_RESERVE % 2 = 1)
    (hs : size ≠ 0) (hv : protValid prot) :
    ¬(¬(decide (type / MEM_COMMIT % 2 = 1) = true ∨ decide (type / MEM_RESERVE % 2 = 1) = true) ∨
      size = 0 ∨ ¬protValid prot = true) := by
  rintro (hx | hx | hx)
  · exact hx (hcr.imp decide_eq_true decide_eq_true)
  · exact hs hx
  · exact hx hv

/-- The call behind its argument checks. -/
theorem vadAlloc_base (ha : AllocArgs base size type prot) (hb : base ≠ 0) :
    vadAlloc p base size type prot kind kz kz' =
      let reserve := decide (type / MEM_RESERVE % 2 = 1)
      let start := allocStart reserve base
      let stop := add64 start (allocLen base size)
      if start < USER_MIN ∨ stop > USER_TOP ∨ stop < start then ⟨.invalidParameter, base, size, p⟩
      else if reserve then
        if !rangeFree p start stop then ⟨.conflictingAddresses, base, size, p⟩
        else
          match vadInsertAt p (vadLower p.vads start)
            (newVad start stop (decide (type / MEM_COMMIT % 2 = 1)) prot kind) kz with
          | none => ⟨.noMemory, base, size, p⟩
          | some q => ⟨.success, start, stop - start, vadCoalesce q⟩
      else if !covered p.vads (fun _ => true) start stop then ⟨.invalidParameter, base, size, p⟩
      else
        match vadSplit p start kz with
        | (false, q) => ⟨.noMemory, base, size, q⟩
        | (true, q) =>
          match vadSplit q stop kz' with
          | (false, q) => ⟨.noMemory, base, size, q⟩
          | (true, q) =>
            ⟨.success, start, stop - start, vadCoalesce (walk (commitOne prot) q start stop)⟩ := by
  obtain ⟨hcr, hs, hv, hknown, hl0, hl⟩ := ha
  unfold vadAlloc
  rewrite [if_neg (allocArgs_checks hcr hs hv), if_neg (not_not.2 hknown), if_neg (by omega), if_pos hb,
    decide_eq_false hb, Bool.or_false]
  rfl

theorem vadAlloc_anywhere (ha : AllocArgs 0 size type prot) :
    vadAlloc p 0 size type prot kind kz kz' =
      let topDown := decide (type / MEM_TOP_DOWN % 2 = 1)
      let len := allocLen 0 size
      match chooseBase p.vads topDown len MAX_TRIES (firstCandidate p topDown len) with
      | none => ⟨.noMemory, 0, size, p⟩
      | some cand =>
        match vadInsertAt p (vadLower p.vads cand)
          (newVad cand (add64 cand len) (decide (type / MEM_COMMIT % 2 = 1)) prot kind) kz with
        | none => ⟨.noMemory, 0, size, p⟩
        | some q => ⟨.success, cand, sub64 (add64 cand len) cand,
            vadCoalesce (if topDown then q else { q with mmapHint := add64 cand len })⟩ := by
  obtain ⟨hcr, hs, hv, hknown, hl0, hl⟩ := ha
  unfold vadAlloc
  rewrite [if_neg (allocArgs_checks hcr hs hv), if_neg (not_not.2 hknown), if_neg (by omega),
    if_neg (by simp)]
  rfl

theorem page_newVad (start stop : Nat) (type prot : Nat) (kind : VadKind) :
    (newVad start stop (decide (type / MEM_COMMIT % 2 = 1)) prot kind).page =
      newPage type prot start := by
  unfold Vad.page newVad newPage
  by_cases h : type / MEM_COMMIT % 2 = 1 <;> simp [h]

variable {top start len : Nat} {q : Process}

theorem coalesceFrom_stop : ∀ (r : List Vad) (a : Vad),
    (∀ v ∈ a :: r, v.stop ≤ top) → ∀ v ∈ coalesceFrom a r, v.stop ≤ top := by
  intro r
  induction r with
  | nil => intro a h; exact h
  | cons b r ih =>
    intro a h
    have hb := h b (by simp)
    rw [coalesceFrom]
    split
    · apply ih
      intro v hv
      rcases mem_cons.1 hv with rfl | hv
      · exact hb
      · exact h v (by simp [hv])
    · intro v hv
      rcases mem_cons.1 hv with rfl | hv
      · exact h v (by simp)
      · exact ih b (fun w hw => h w (mem_cons_of_mem _ hw)) v hv

theorem vadCoalesce_stop (h : ∀ v ∈ q.vads, v.stop ≤ top) :
    ∀ v ∈ (vadCoalesce q).vads, v.stop ≤ top := by
  unfold vadCoalesce
  split
  · exact h
  · rename_i a r hvads
    rw [hvads] at h
    exact coalesceFrom_stop r a h

theorem Shape.reserved (h : Shape p.vads) (hlen : 0 < len) (hfree : Free p.vads start len)
    (hq : vadInsertAt p (vadLower p.vads start)
      (newVad start (start + len) (decide (type / MEM_COMMIT % 2 = 1)) prot kind) kz = some q)
    (q' : Process) (hq' : q'.vads = q.vads) (n : Nat) : pageMap (vadCoalesce q').vads n =
      if Within start (start + len) n then newPage type prot start else pageMap p.vads n := by
  have hvads := vadInsertAt_vads hq
  have hins := h.pageMap_insert (v := newVad start (start + len) _ prot kind)
    (Nat.lt_add_of_pos_right hlen) (by simpa [newVad] using hfree) hq n
  rw [pageMap_coalesce, hq', hins, page_newVad]
  · rfl
  · rw [hq', hvads]
    intro v hv
    rcases mem_append.1 hv with hv | hv
    · exact (h.pos v (mem_of_mem_take hv)).le
    · rcases mem_cons.1 hv with rfl | hv
      · exact Nat.le_add_right _ _
      · exact (h.pos v (mem_of_mem_drop hv)).le

theorem Free.pages {vads : List Vad} {n : Nat} (h : Free vads start len)
    (hn : Within start (start + len) n) : pageMap vads n = .free := by
  refine pageMap_free (fun v hv hin => ?_)
  have := h v hv
  have := hn.1
  have := hn.2
  have := hin.1
  have := hin.2
  omega

theorem Shape.rangeFree_eq (h : Shape p.vads) (hlen : 0 < len) :
    rangeFree p start (start + len) = true ↔ Free p.vads start len := by
  constructor
  · intro hf
    have := h.rangeFree_iff (Nat.lt_add_of_pos_right hlen) hf
    rwa [Nat.add_sub_cancel_left] at this
  · intro hfree
    obtain ⟨l, r, hlr, hl, -, hr⟩ := h.lower start
    rw [rangeFree, hl, hlr, List.getElem?_append_right le_rfl, Nat.sub_self]
    cases r with
    | nil => rfl
    | cons v r =>
      have := hr v mem_cons_self
      have := hfree v (by rw [hlr]; simp)
      have hge : ¬v.start < start + len := by omega
      simp [hge]

theorem range_ok_iff (start : Nat) (hs : start < 2 ^ 64) (hl : len ≤ USER_TOP) :
    ¬(start < USER_MIN ∨ add64 start len > USER_TOP ∨ add64 start len < start) ↔
      InUser start len := by
  unfold InUser add64 USER_TOP USER_MIN at *
  omega

theorem reserve_refines (h : Sound p) (hbase : base < 2 ^ 64) (hsize : size < 2 ^ 64)
    (hb : base ≠ 0) (hr : type / MEM_RESERVE % 2 = 1) :
    AllocRefines p base size type prot kind kz kz' ↔ AllocMeets p base size type prot kz kz' := by
  unfold AllocRefines AllocMeets
  by_cases ha : AllocArgs base size type prot
  case neg => rw [vadAlloc_args ha]; simp [ha]
  have hl0 : 0 < allocLen base size := Nat.pos_of_ne_zero ha.2.2.2.2.1
  rw [vadAlloc_base ha hb]
  simp only [ha, forall_const, if_neg hb, hr, if_true, decide_true, allocStart]
  generalize hstart : floor64K (pageFloor base) = start
  have hle : start ≤ pageFloor base := hstart ▸ floor64K_le _
  have hrange := range_ok_iff start (by have := pageFloor_le base; omega)
    ha.2.2.2.2.2
  split
  · rename_i hout
    exact iff_of_true (by simp) (fun hin => absurd hout (hrange.2 hin))
  rename_i hin
  have hin := hrange.1 hin
  have hadd : add64 start (allocLen base size) = start + allocLen base size :=
    add64_eq (by have := hin.2; unfold USER_TOP at this; omega)
  rw [hadd]
  simp only [hin, forall_const, ← h.shape.rangeFree_eq hl0]
  split
  · rename_i hf
    exact iff_of_true (by simp) (fun hf' => absurd hf' (by simpa using hf))
  rename_i hf
  have hf : rangeFree p start (start + allocLen base size) = true := by simpa using hf
  have hfree := (h.shape.rangeFree_eq hl0).1 hf
  simp only [hf, forall_const]
  split
  · rename_i hq
    rw [vadInsertAt_eq_none] at hq
    simp [hq]
  rename_i q hq
  have hroom : ¬NoRoom p kz := by
    rw [← vadInsertAt_eq_none, hq]
    simp
  simp only [hroom, not_false_eq_true, forall_const, if_true, Reserves, hr, or_true]
  have hafter := h.shape.reserved hl0 hfree hq q rfl
  have hsz : start + (start + allocLen base size - start) = start + allocLen base size := by omega
  constructor
  · intro hres
    have hreq := hres.requested
    rw [if_neg hb] at hreq
    simp only [hsz] at hreq
    -- a base past the first page, or a size that wraps, leaves a touched page outside
    by_contra hbad
    by_cases hwrap : 2 ^ 64 ≤ size + base % PAGE_SIZE
    · have hone := allocLen_le hsize hwrap
      have hn := hreq (base / PAGE_SIZE + 1) (by unfold Touched PAGE_SIZE at *; omega)
      have := hn.2
      unfold pageFloor PAGE_SIZE at *
      omega
    · have hlt : size + base % PAGE_SIZE < 2 ^ 64 := by omega
      obtain ⟨k, hk⟩ : PAGE_SIZE ∣ allocLen base size := up_dvd _
      have hn := hreq (base / PAGE_SIZE + k - 1) ((touched_iff_alloc hlt hl0.ne').2
        (by rw [hk] at hl0 ⊢; unfold Within pageFloor PAGE_SIZE at *; omega))
      have := hn.2
      unfold floor64K pageFloor PAGE_SIZE at *
      omega
  · rintro ⟨hoff, hlt⟩
    have hsame : start = pageFloor base := by
      unfold floor64K pageFloor PAGE_SIZE at *
      omega
    refine ⟨hstart ▸ floor64K_dvd _, by simpa using hl0, ?_, ?_, ?_, ?_⟩
    · intro n hn
      exact hfree.pages (hsz ▸ hn)
    · intro n hn
      rw [hafter, if_pos (hsz ▸ hn)]
    · intro n hn
      rw [hafter, if_neg (hsz ▸ hn)]
    · rw [if_neg hb]
      intro n hn
      simp only [hsz]
      rw [hsame]
      exact (touched_iff_alloc hlt hl0.ne').1 hn

theorem commit_refines (h : Sound p) (hbase : base < 2 ^ 64) (hb : base ≠ 0)
    (hr : ¬type / MEM_RESERVE % 2 = 1) :
    AllocRefines p base size type prot kind kz kz' ↔ AllocMeets p base size type prot kz kz' := by
  unfold AllocRefines AllocMeets
  by_cases ha : AllocArgs base size type prot
  case neg => rw [vadAlloc_args ha]; simp [ha]
  have hl0 : 0 < allocLen base size := Nat.pos_of_ne_zero ha.2.2.2.2.1
  have hfloor := pageFloor_le base
  rw [vadAlloc_base ha hb]
  simp only [ha, forall_const, if_neg hb, hr, if_false, decide_false, allocStart,
    Bool.false_eq_true]
  have hrange := range_ok_iff (pageFloor base) (by omega) ha.2.2.2.2.2
  split
  · rename_i hout
    exact iff_of_true (by simp) (fun hin => absurd hout (hrange.2 hin))
  rename_i hin
  have hin := hrange.1 hin
  have hadd : add64 (pageFloor base) (allocLen base size) = pageFloor base + allocLen base size :=
    add64_eq (by have := hin.2; unfold USER_TOP at this; omega)
  have hcovered := h.shape.covered_described (pageFloor base + allocLen base size)
    (pageFloor_dvd base)
  rw [hadd]
  simp only [hin, forall_const, ← hcovered]
  split
  · rename_i hcov
    exact iff_of_true (by simp) (fun hcov' => absurd hcov' (by simpa using hcov))
  rename_i hcov
  have hcov : covered p.vads (fun _ => true) (pageFloor base)
      (pageFloor base + allocLen base size) = true := by simpa using hcov
  simp only [hcov, forall_const]
  have hdvd : PAGE_SIZE ∣ pageFloor base + allocLen base size :=
    Nat.dvd_add (pageFloor_dvd base) (up_dvd _)
  have hnoreserve : ¬Reserves base type := by simp [Reserves, hb, hr]
  rcases h.shape.range_refines (commitOne_visits prot) (commitOne_reshapes prot) rfl
    (page_commit prot) Page.Described (fun g hg => hg) kz kz' (size + base % PAGE_SIZE < 2 ^ 64)
    hdvd (Nat.lt_add_of_pos_right hl0)
    (fun hlt n => touched_iff_alloc hlt hl0.ne')
    (fun hge => by unfold USER_TOP PAGE_SIZE at *; omega) (hcovered.1 hcov) with
    ⟨q, q', hq, hq', hiff⟩ | ⟨hno, ⟨q, hq, hne⟩ | ⟨q, q', hq, hq', hne⟩⟩
  · simpa only [hq, hq', if_true, if_neg hnoreserve] using hiff
  · simp [hq, hne, hno]
  · simp [hq, hq', hne, hno]

theorem anywhere_refines (h : Sound p) (hsize : size < 2 ^ 64) :
    AllocRefines p 0 size type prot kind kz kz' ↔ AllocMeets p 0 size type prot kz kz' := by
  unfold AllocRefines AllocMeets
  by_cases ha : AllocArgs 0 size type prot
  case neg => rw [vadAlloc_args ha]; simp [ha]
  have hl0 : 0 < allocLen 0 size := Nat.pos_of_ne_zero ha.2.2.2.2.1
  have htop : allocLen 0 size ≤ USER_TOP := ha.2.2.2.2.2
  have hlarge := le_allocLen_zero hsize hl0.ne'
  rw [vadAlloc_anywhere ha]
  simp only [ha, forall_const, if_true]
  generalize hlen : allocLen 0 size = len at *
  have hfirst : ∀ topDown, 0x10000 ∣ firstCandidate p topDown len ∧
      firstCandidate p topDown len + len < 2 ^ 64 ∧
      (topDown = true → firstCandidate p topDown len = floor64K (USER_TOP - len)) := by
    have hhint := h.hint
    intro topDown
    unfold firstCandidate
    cases topDown with
    | true =>
      have := floor64K_le (USER_TOP - len)
      rw [if_pos rfl, sub64_eq htop (by decide)]
      exact ⟨floor64K_dvd _, by unfold USER_TOP at *; omega, fun _ => rfl⟩
    | false =>
      have := floor64K_le (p.mmapHint + 0xffff)
      rw [if_neg Bool.false_ne_true, add64_eq (by unfold USER_TOP at *; omega)]
      exact ⟨floor64K_dvd _, by unfold USER_TOP at *; omega, fun hf => absurd hf (by decide)⟩
  by_cases hsink : type / MEM_TOP_DOWN % 2 = 1 ∧
      Sinks p.vads len MAX_TRIES (floor64K (USER_TOP - len))
  · obtain ⟨htd, hsink⟩ := hsink
    obtain ⟨c, hc, hcd, hclow, hchigh, hcwrap⟩ := chooseBase_sinks h.shape htop hsink
    have htd' : decide (type / MEM_TOP_DOWN % 2 = 1) = true := decide_eq_true htd
    have hchoose : chooseBase p.vads (decide (type / MEM_TOP_DOWN % 2 = 1)) len MAX_TRIES
        (firstCandidate p (decide (type / MEM_TOP_DOWN % 2 = 1)) len) = some c := by
      rw [htd', (hfirst true).2.2 rfl, hc]
    rw [hchoose]
    simp only [hsink, htd, forall_const, not_true_eq_false, decide_true, if_true]
    cases hq : vadInsertAt p (vadLower p.vads c)
        (newVad c (add64 c len) (decide (type / MEM_COMMIT % 2 = 1)) prot kind) kz with
    | none =>
      rw [vadInsertAt_eq_none] at hq
      simp [hq]
    | some q =>
      have hroom : ¬NoRoom p kz := by
        rw [← vadInsertAt_eq_none, hq]
        simp
      refine iff_of_false (fun hres => ?_) (fun hno => hno hroom)
      -- no descriptor reaches above the user range, where the reply says the range is
      have hpage := hres.inside (c / PAGE_SIZE)
        (within_of_dvd (page_dvd_of_64K hcd) le_rfl (by have := hres.nonempty; simpa using this))
      have hstops : ∀ v ∈ (vadCoalesce q).vads, v.stop ≤ USER_TOP := by
        refine vadCoalesce_stop (fun v hv => ?_)
        rw [vadInsertAt_vads hq] at hv
        rcases mem_append.1 hv with hv | hv
        · exact (h.shape.ok v (mem_of_mem_take hv)).le_top
        · rcases mem_cons.1 hv with rfl | hv
          · exact hcwrap
          · exact (h.shape.ok v (mem_of_mem_drop hv)).le_top
      rw [pageMap_above hstops (by rw [Nat.div_mul_cancel (page_dvd_of_64K hcd)]; exact hclow.le)]
        at hpage
      unfold newPage at hpage
      split at hpage <;> cases hpage
  · refine iff_of_true ?_ (fun htd _ hs => hsink ⟨htd, hs⟩)
    obtain ⟨hd, hlt, htd⟩ := hfirst (decide (type / MEM_TOP_DOWN % 2 = 1))
    cases hc : chooseBase p.vads (decide (type / MEM_TOP_DOWN % 2 = 1)) len MAX_TRIES
        (firstCandidate p (decide (type / MEM_TOP_DOWN % 2 = 1)) len) with
    | none => simp
    | some c =>
      obtain ⟨hcd, hmin, hctop, hfree⟩ := chooseBase_free h.shape htop hd hlt
        (fun ht => by rw [htd ht]; exact fun hs => hsink ⟨by simpa using ht, hs⟩) hc
      have hadd : add64 c len = c + len := add64_eq (by unfold USER_TOP at hctop; omega)
      have hsub : sub64 (c + len) c = len := by
        rw [sub64_eq (Nat.le_add_right _ _) (by unfold USER_TOP at hctop; omega)]
        omega
      simp only [hadd, hsub]
      cases hq : vadInsertAt p (vadLower p.vads c)
          (newVad c (c + len) (decide (type / MEM_COMMIT % 2 = 1)) prot kind) kz with
      | none => simp
      | some q =>
        have hafter := h.shape.reserved hl0 hfree hq
          (if decide (type / MEM_TOP_DOWN % 2 = 1) then q else { q with mmapHint := c + len })
          (by split <;> rfl)
        refine ⟨hcd, hl0, fun n hn => hfree.pages hn, fun n hn => ?_, fun n hn => ?_, ?_⟩
        · rw [hafter, if_pos hn]
        · rw [hafter, if_neg hn]
        · rw [if_pos rfl]
          exact hlarge

theorem alloc_refines (h : Sound p) (hbase : base < 2 ^ 64) (hsize : size < 2 ^ 64) :
    AllocRefines p base size type prot kind kz kz' ↔ AllocMeets p base size type prot kz kz' := by
  by_cases hb : base = 0
  · subst hb
    exact anywhere_refines h hsize
  · by_cases hr : type / MEM_RESERVE % 2 = 1
    · exact reserve_refines h hbase hsize hb hr
    · exact commit_refines h hbase hb hr

end Alloc

theorem lt_of_pageFloor_lt {addr b : Nat} (hb : PAGE_SIZE ∣ b) (h : pageFloor addr < b) :
    addr < b := by
  unfold pageFloor PAGE_SIZE at *
  omega

theorem query_refines (h : Sound p) (addr : Nat) : QueryRefines p addr := by
  unfold QueryRefines vadQuery
  by_cases hge : addr ≥ USER_TOP
  · rw [if_pos hge]
    exact hge
  rw [if_neg hge]
  have htop : addr < USER_TOP := Nat.lt_of_not_le hge
  have hfloor := pageFloor_le addr
  cases hv : vadFind p.vads (pageFloor addr) with
  | some iv =>
    obtain ⟨i, v⟩ := iv
    obtain ⟨hmem, hlo, hhi⟩ := (h.shape.find_iff _ _).1 ⟨i, hv⟩
    have hok := h.shape.ok v hmem
    have hsub : sub64 v.stop v.start = v.stop - v.start :=
      sub64_eq hok.start_lt.le (by have := hok.le_top; unfold USER_TOP at this; omega)
    have hend : v.start + (v.stop - v.start) = v.stop := Nat.add_sub_cancel' hok.start_lt.le
    simp only [hsub, hend]
    refine ⟨le_trans hlo hfloor, lt_of_pageFloor_lt hok.stop_page hhi, fun n hn => ?_⟩
    rw [h.shape.pageMap_eq hmem hn]
    unfold Region.page Vad.page
    by_cases hst : v.state = .committed <;> simp [hst, MEM_COMMIT, MEM_FREE, MEM_RESERVE]
  | none =>
    have hnone : ∀ v ∈ p.vads, ¬(v.start ≤ pageFloor addr ∧ pageFloor addr < v.stop) := by
      intro v hv' hin
      obtain ⟨i, hi⟩ := (h.shape.find_iff _ _).2 ⟨hv', hin⟩
      rw [hv] at hi
      cases hi
    -- the region ends where the next descriptor begins
    have hnext : ∃ stop, (p.vads[vadLower p.vads addr]?).elim USER_TOP Vad.start = stop ∧
        addr < stop ∧ stop ≤ USER_TOP ∧
        ∀ v ∈ p.vads, v.stop ≤ pageFloor addr ∨ stop ≤ v.start := by
      obtain ⟨l, r, hlr, hl, hlow, hhigh⟩ := h.shape.lower addr
      have hbelow : ∀ v ∈ l, v.stop ≤ pageFloor addr := by
        intro v hvl
        have hok := h.shape.ok v (by rw [hlr]; simp [hvl])
        by_contra hc
        have := lt_of_pageFloor_lt hok.stop_page (Nat.lt_of_not_le hc)
        have := hlow v hvl
        omega
      rw [hl, hlr]
      cases r with
      | nil =>
        refine ⟨USER_TOP, by simp, htop, le_rfl, fun v hv => ?_⟩
        exact .inl (hbelow v (by simpa using hv))
      | cons w r =>
        have hok := h.shape.ok w (by rw [hlr]; simp)
        have hgt := hhigh w mem_cons_self
        have hw : pageFloor addr < w.start := by
          by_contra hc
          exact hnone w (by rw [hlr]; simp) ⟨by omega, by omega⟩
        refine ⟨w.start, by simp, lt_of_pageFloor_lt hok.start_page hw,
          le_trans hok.start_lt.le hok.le_top, fun v hv => ?_⟩
        rcases mem_append.1 hv with hv | hv
        · exact .inl (hbelow v hv)
        · right
          rcases mem_cons.1 hv with rfl | hv
          · exact le_rfl
          · have := (ordered_around.1 (hlr ▸ h.shape.ordered)).2.2 v hv
            have := hok.start_lt
            omega
    obtain ⟨stop, hstop, hlt, hle, hfree⟩ := hnext
    have hsub : sub64 stop (pageFloor addr) = stop - pageFloor addr :=
      sub64_eq (by omega) (by unfold USER_TOP at *; omega)
    have hend : pageFloor addr + (stop - pageFloor addr) = stop := by omega
    simp only
    rw [hstop, hsub, hend]
    refine ⟨hfloor, hlt, fun n hn => ?_⟩
    refine pageMap_free (fun v hv hin => ?_)
    have := hn.1
    have := hn.2
    have := hin.1
    have := hin.2
    have := hfree v hv
    omega

/-! ### All calls -/

/-- **The calls refine the page map**: in every state of the right shape and for
all 64-bit arguments, exactly when they meet their conditions; a query always does. -/
theorem calls_refine {p : Process} (h : Sound p) :
    (∀ base size type prot kind kz kz', base < 2 ^ 64 → size < 2 ^ 64 →
      (AllocRefines p base size type prot kind kz kz' ↔ AllocMeets p base size type prot kz kz')) ∧
    (∀ base size type kz kz',
      (FreeRefines p base size type kz kz' ↔ FreeMeets p base size type kz kz')) ∧
    (∀ base size newProt kz kz',
      (ProtectRefines p base size newProt kz kz' ↔ ProtectMeets p base size newProt kz kz')) ∧
    ∀ addr, QueryRefines p addr :=
  ⟨fun _ _ _ _ _ _ _ hb hs => alloc_refines h hb hs, fun _ _ _ _ _ => free_refines h,
    fun _ _ _ _ _ => protect_refines h, query_refines h⟩

instance (p : Process) (start stop : Nat) (kz kz' : Bool) :
    Decidable (SplitsOk p start stop kz kz') := inferInstanceAs (Decidable (_ ∧ (_ → _)))

/-- In a reservation of three pages the middle one is committed, and the call
that would decommit it instead changes that page alone as well. -/
theorem calls_refine_reservation :
    AllocRefines (step vadInit (.alloc 0x400000 0x3000 MEM_RESERVE PAGE_READWRITE .private true
        true)) 0x401000 0x1000 MEM_COMMIT PAGE_READONLY .private true true ∧
      FreeRefines (step vadInit (.alloc 0x400000 0x3000 MEM_RESERVE PAGE_READWRITE .private true
        true)) 0x401000 0x1000 MEM_DECOMMIT true true := by
  have hs : Sound (step vadInit
      (.alloc 0x400000 0x3000 MEM_RESERVE PAGE_READWRITE .private true true)) := by
    refine sound_init.step (fun _ => ?_)
    rintro - ⟨a, ha, -⟩
    simp [vadInit] at ha
  have hall := calls_refine hs
  constructor
  · refine (hall.1 _ _ _ _ _ _ _ (by decide) (by decide)).2 (fun _ => ?_)
    exact fun _ _ => ⟨by decide, by decide⟩
  · exact (hall.2.1 _ _ _ _ _).2 (fun _ _ _ _ _ _ => ⟨by decide, by decide⟩)

/-- A reservation of the page at 0x25000 reserves the page at 0x20000 instead. -/
theorem reserve_misses_page :
    ¬∀ p, Sound p → ∀ base size type prot kind kz kz',
      AllocRefines p base size type prot kind kz kz' := by
  intro hall
  have hm := (alloc_refines sound_init (by decide) (by decide)).1
    (hall vadInit sound_init 0x25000 0x1000 MEM_RESERVE PAGE_READWRITE .private true true)
  have hargs : AllocArgs 0x25000 0x1000 MEM_RESERVE PAGE_READWRITE := by
    refine ⟨?_, ?_, ?_, ?_, ?_, ?_⟩ <;> decide
  have hm := hm hargs
  have := (hm (by constructor <;> decide) (by simp [Free, vadInit]) (by decide)).1
  exact absurd this (by decide)

end Win98Modern.Kernel64
