import Win98Modern.Kernel64.VadRun

/-!
# The page map of a process

What the descriptors say about each page: free, reserved, or committed with a
protection, and the allocation it belongs to (`pageMap`).  The edits that the
calls of `vad.c` are made of are read here as edits of that map: a split and a
coalescing leave it alone (`look_join`), an installation and a removal change
the pages of one allocation, and a walk over a range changes the pages of the
range (`Shape.pageMap_walk`).

A split whose second half finds no place is the exception: the left half has
been cut by then, so the pages of the right half are lost (`Shape.split_fails`).
-/

namespace Win98Modern.Kernel64

open List

/-! ### Pages -/

/-- The state of one page. -/
inductive Page
  | free
  | reserved (allocBase : Nat)
  | committed (prot allocBase : Nat)
  deriving DecidableEq, Repr

/-- The allocation a page belongs to. -/
def Page.allocBase? : Page → Option Nat
  | .free => none
  | .reserved b => some b
  | .committed _ b => some b

/-- A page of an allocation, committed with the protection. -/
def Page.commit (prot : Nat) : Page → Page
  | .free => .free
  | .reserved b => .committed prot b
  | .committed _ b => .committed prot b

def Page.decommit : Page → Page
  | .free => .free
  | .reserved b => .reserved b
  | .committed _ b => .reserved b

def Page.protect (prot : Nat) : Page → Page
  | .free => .free
  | .reserved b => .reserved b
  | .committed _ b => .committed prot b

/-- What a descriptor says about its pages. -/
def Vad.page (v : Vad) : Page :=
  if v.state = .committed then .committed v.prot v.allocBase else .reserved v.allocBase

/-- What `f` shows of the descriptor of a page; page number `n` is the one at
address `n * PAGE_SIZE`. -/
def look {β : Type*} (f : Vad → β) (vads : List Vad) (n : Nat) : Option β :=
  (spanAt Vad.start Vad.stop vads (n * PAGE_SIZE)).map f

/-- `f` does not see where a descriptor begins or ends, nor tell apart two that
`vad_coalesce` joins. -/
structure Blind {β : Type*} (f : Vad → β) : Prop where
  bounds : ∀ v s t, f { v with start := s, stop := t } = f v
  merge : ∀ a b, mergeable a b = true → f a = f b

def pageMap (vads : List Vad) (n : Nat) : Page :=
  ((spanAt Vad.start Vad.stop vads (n * PAGE_SIZE)).map Vad.page).getD .free

/-- The page lies in `[start, stop)`. -/
def Within (start stop n : Nat) : Prop := start ≤ n * PAGE_SIZE ∧ n * PAGE_SIZE < stop

instance (start stop n : Nat) : Decidable (Within start stop n) :=
  inferInstanceAs (Decidable (_ ∧ _))

/-- Some descriptor has the address inside, not at its start. -/
def Straddles (vads : List Vad) (addr : Nat) : Prop := ∃ v ∈ vads, v.start < addr ∧ addr < v.stop

instance (vads : List Vad) (addr : Nat) : Decidable (Straddles vads addr) :=
  inferInstanceAs (Decidable (∃ v ∈ vads, _))

@[simp] theorem Vad.page_allocBase (v : Vad) : v.page.allocBase? = some v.allocBase := by
  unfold Vad.page
  split <;> rfl

theorem Vad.page_ne_free (v : Vad) : v.page ≠ .free := by
  intro h
  have hb := v.page_allocBase
  rw [h] at hb
  cases hb

theorem blind_page : Blind Vad.page where
  bounds := fun _ _ _ => rfl
  merge := by
    intro a b h
    simp only [mergeable, decide_eq_true_eq] at h
    obtain ⟨-, hst, hprot, -, hbase, -⟩ := h
    simp only [Vad.page, hst, hprot, hbase]

theorem blind_kind : Blind Vad.kind where
  bounds := fun _ _ _ => rfl
  merge := by
    intro a b h
    simp only [mergeable, decide_eq_true_eq] at h
    exact h.2.2.2.1

theorem pageMap_of_look {xs ys : List Vad} (h : look Vad.page xs = look Vad.page ys) :
    pageMap xs = pageMap ys := by
  funext n
  exact congrArg (fun o => Option.getD o Page.free) (congrFun h n)

/-! ### Reading the map -/

variable {vads : List Vad} {v : Vad} {n stop a addr : Nat} {p q : Process} {kz : Bool}
  {body : Process → Nat → Process} {g : Vad → Vad}

theorem Shape.look_eq {β : Type*} {f : Vad → β} (h : Shape vads) (hv : v ∈ vads)
    (hn : Within v.start v.stop n) : look f vads n = some (f v) := by
  rw [look, (spanAt_iff h.ordered).2 ⟨hv, hn⟩]
  rfl

theorem look_mem {β : Type*} {f : Vad → β} {b : β} (h : look f vads n = some b) :
    ∃ v ∈ vads, Within v.start v.stop n ∧ f v = b := by
  rw [look, Option.map_eq_some_iff] at h
  obtain ⟨v, hv, rfl⟩ := h
  exact ⟨v, (spanAt_mem hv).1, (spanAt_mem hv).2, rfl⟩

theorem Shape.pageMap_eq (h : Shape vads) (hv : v ∈ vads) (hn : Within v.start v.stop n) :
    pageMap vads n = v.page := by
  rw [pageMap, (spanAt_iff h.ordered).2 ⟨hv, hn⟩]
  rfl

theorem pageMap_free (h : ∀ v ∈ vads, ¬Within v.start v.stop n) : pageMap vads n = .free := by
  rw [pageMap, spanAt_eq_none.2 h]
  rfl

theorem pageMap_mem (h : pageMap vads n ≠ .free) :
    ∃ v ∈ vads, Within v.start v.stop n ∧ pageMap vads n = v.page := by
  rw [pageMap] at h ⊢
  cases hv : spanAt Vad.start Vad.stop vads (n * PAGE_SIZE) with
  | none => rw [hv] at h; exact absurd rfl h
  | some v => exact ⟨v, (spanAt_mem hv).1, (spanAt_mem hv).2, rfl⟩

theorem pageMap_above (h : ∀ v ∈ vads, v.stop ≤ USER_TOP) (hn : USER_TOP ≤ n * PAGE_SIZE) :
    pageMap vads n = .free := by
  refine pageMap_free (fun v hv hin => ?_)
  have := h v hv
  have := hin.2
  omega

theorem within_of_dvd {start : Nat} (ha : PAGE_SIZE ∣ a) (h : start ≤ a) (h' : a < stop) :
    Within start stop (a / PAGE_SIZE) := by
  rw [Within, Nat.div_mul_cancel ha]
  exact ⟨h, h'⟩

/-! ### Edits that leave the map alone -/

section Look

variable {β : Type*} {f : Vad → β}

theorem look_mid (xs ys : List Vad)
    (h : ∀ a, (spanAt Vad.start Vad.stop xs a).map f = (spanAt Vad.start Vad.stop ys a).map f)
    (l r : List Vad) : look f (l ++ xs ++ r) = look f (l ++ ys ++ r) := by
  funext n
  exact spanAt_congr (h _) l r

/-- **Joining two neighbours**, and so splitting a descriptor, leaves the map alone. -/
theorem look_join (hf : Blind f) (l : List Vad) (a b : Vad) (r : List Vad) (hab : a.stop = b.start)
    (hp : f a = f b) (ha : a.start ≤ a.stop) (hb : b.start ≤ b.stop) :
    look f (l ++ a :: b :: r) = look f (l ++ { a with stop := b.stop } :: r) := by
  have hmid := look_mid (f := f) [a, b] [{ a with stop := b.stop }] (fun x => ?_) l r
  · simpa using hmid
  · have hsame : f { a with stop := b.stop } = f a := hf.bounds a a.start b.stop
    simp only [spanAt_cons]
    by_cases h1 : a.start ≤ x ∧ x < a.stop
    · rw [if_pos h1, if_pos (by omega)]
      exact congrArg some hsame.symm
    · rw [if_neg h1]
      by_cases h2 : b.start ≤ x ∧ x < b.stop
      · rw [if_pos h2, if_pos (by omega)]
        exact congrArg some (hp.symm.trans hsame.symm)
      · rw [if_neg h2, if_neg (by omega)]

theorem look_coalesceFrom (hf : Blind f) : ∀ (r : List Vad) (a : Vad) (l : List Vad),
    (∀ v ∈ a :: r, v.start ≤ v.stop) → look f (l ++ coalesceFrom a r) = look f (l ++ a :: r) := by
  intro r
  induction r with
  | nil => intro a l _; rfl
  | cons b r ih =>
    intro a l hle
    have ha := hle a mem_cons_self
    have hb := hle b (by simp)
    rw [coalesceFrom]
    split
    · rename_i hm
      have hab : a.stop = b.start := by
        simp only [mergeable, decide_eq_true_eq] at hm
        exact hm.1
      rw [look_join hf l a b r hab (hf.merge a b hm) ha hb]
      apply ih
      intro v hv
      rcases mem_cons.1 hv with rfl | hv
      · show a.start ≤ b.stop
        omega
      · exact hle v (by simp [hv])
    · have := ih b (l ++ [a]) (fun v hv => hle v (mem_cons_of_mem _ hv))
      rwa [append_assoc, append_assoc] at this

theorem look_coalesce (hf : Blind f) {p : Process} (h : ∀ v ∈ p.vads, v.start ≤ v.stop) :
    look f (vadCoalesce p).vads = look f p.vads := by
  unfold vadCoalesce
  split
  · rfl
  · rename_i a r hvads
    rw [hvads] at h ⊢
    exact look_coalesceFrom hf r a [] h

end Look

theorem pageMap_coalesce (h : ∀ v ∈ p.vads, v.start ≤ v.stop) :
    pageMap (vadCoalesce p).vads = pageMap p.vads :=
  pageMap_of_look (look_coalesce blind_page h)

/-! ### Splits -/

/-- The array has no room for one more descriptor, and none is allocated. -/
def NoRoom (p : Process) (kz : Bool) : Prop := p.vads.length = p.cap ∧ kz = false

instance (p : Process) (kz : Bool) : Decidable (NoRoom p kz) := inferInstanceAs (Decidable (_ ∧ _))

theorem vadInsertAt_eq_none (idx : Nat) (n : Vad) :
    vadInsertAt p idx n kz = none ↔ NoRoom p kz := by
  unfold vadInsertAt NoRoom
  by_cases h : p.vads.length = p.cap <;> cases kz <;> simp [h]

/-- The two ways of a split: nothing to do, or one descriptor is cut. -/
theorem Shape.split_cases (h : Shape p.vads) (addr : Nat) (kz : Bool) :
    (¬Straddles p.vads addr ∧ vadSplit p addr kz = (true, p)) ∨
    ∃ l v r, p.vads = l ++ v :: r ∧ v.start < addr ∧ addr < v.stop ∧
      vadSplit p addr kz =
        match vadInsertAt { p with vads := l ++ { v with stop := addr } :: r } (l.length + 1)
          { v with start := addr } kz with
        | some q => (true, q)
        | none => (false, { p with vads := l ++ { v with stop := addr } :: r }) := by
  obtain ⟨l, r, hlr, hlen, hl, hr⟩ := h.lower addr
  unfold vadSplit
  simp only
  cases r with
  | nil =>
    left
    rw [append_nil] at hlr
    have hnone : p.vads[vadLower p.vads addr]? = none := by rw [hlen, hlr]; simp
    rw [hnone]
    refine ⟨?_, rfl⟩
    rintro ⟨v, hv, -, hlt⟩
    have := hl v (hlr ▸ hv)
    omega
  | cons v r =>
    have hsome : p.vads[vadLower p.vads addr]? = some v := by rw [hlen, hlr]; simp
    have hlt := hr v mem_cons_self
    rw [hsome]
    simp only
    split
    · rename_i hout
      left
      refine ⟨?_, rfl⟩
      rintro ⟨w, hw, hws, hwt⟩
      have hord := h.ordered
      rw [hlr] at hw hord
      rcases mem_append.1 hw with hw | hw
      · have := hl w hw; omega
      · rcases mem_cons.1 hw with rfl | hw
        · omega
        · have := (ordered_around.1 hord).2.2 w hw
          omega
    · rename_i hin
      right
      refine ⟨l, v, r, hlr, by omega, hlt, ?_⟩
      rewrite [hlen, hlr, set_around]
      rfl

theorem split_vads {l r : List Vad}
    (hq : vadInsertAt { p with vads := l ++ { v with stop := addr } :: r } (l.length + 1)
      { v with start := addr } kz = some q) :
    q.vads = l ++ { v with stop := addr } :: { v with start := addr } :: r := by
  rw [vadInsertAt_vads hq]
  rw [show l.length + 1 = (l ++ [{ v with stop := addr }]).length by simp,
    show l ++ { v with stop := addr } :: r = (l ++ [{ v with stop := addr }]) ++ r by simp,
    take_left, drop_left, append_assoc]
  rfl

theorem Shape.look_split {β : Type*} {f : Vad → β} (hf : Blind f) (h : Shape p.vads)
    (hq : vadSplit p addr kz = (true, q)) : look f q.vads = look f p.vads := by
  rcases h.split_cases addr kz with ⟨-, he⟩ | ⟨l, v, r, hlr, h1, h2, he⟩
  · rw [he] at hq
    obtain rfl : p = q := by simpa using hq
    rfl
  · rw [he] at hq
    split at hq
    · rename_i q' hq'
      obtain rfl : q' = q := by simpa using hq
      rw [split_vads hq', hlr]
      have hhalf : f { v with stop := addr } = f { v with start := addr } :=
        (hf.bounds v v.start addr).trans (hf.bounds v addr v.stop).symm
      exact look_join hf l { v with stop := addr } { v with start := addr } r rfl hhalf h1.le h2.le
    · simp at hq

/-- **A split that succeeds leaves the map alone** and takes away one straddled
address. -/
theorem Shape.split_ok (h : Shape p.vads) (hq : vadSplit p addr kz = (true, q)) :
    pageMap q.vads = pageMap p.vads ∧ (∀ x, Straddles q.vads x ↔ Straddles p.vads x ∧ x ≠ addr) ∧
      q.vads.length = p.vads.length + (if Straddles p.vads addr then 1 else 0) ∧
      q.cap = if Straddles p.vads addr ∧ p.vads.length = p.cap then p.cap * 2 else p.cap := by
  refine ⟨pageMap_of_look (h.look_split blind_page hq), ?_⟩
  rcases h.split_cases addr kz with ⟨hno, he⟩ | ⟨l, v, r, hlr, h1, h2, he⟩
  · rw [he] at hq
    obtain rfl : p = q := by simpa using hq
    refine ⟨fun x => ⟨fun hx => ⟨hx, fun hxa => hno (hxa ▸ hx)⟩, fun hx => hx.1⟩, ?_, ?_⟩
    · rw [if_neg hno, Nat.add_zero]
    · rw [if_neg (fun hc => hno hc.1)]
  · have hst : Straddles p.vads addr := ⟨v, by rw [hlr]; simp, h1, h2⟩
    rw [he] at hq
    split at hq
    · rename_i q' hq'
      obtain rfl : q' = q := by simpa using hq
      have hvads := split_vads hq'
      refine ⟨fun x => ?_, ?_, ?_⟩
      · -- an address strictly inside the descriptor is inside one of its halves, or the cut
        rw [hvads, hlr]
        simp only [Straddles, mem_append, mem_cons]
        constructor
        · rintro ⟨w, hw, hws, hwt⟩
          have hord := ordered_around.1 (hlr ▸ h.ordered)
          rcases hw with hw | rfl | rfl | hw
          · have := hord.2.1 w hw
            exact ⟨⟨w, .inl hw, hws, hwt⟩, by omega⟩
          · simp only at hws hwt
            exact ⟨⟨v, .inr (.inl rfl), hws, by omega⟩, by omega⟩
          · simp only at hws hwt
            exact ⟨⟨v, .inr (.inl rfl), by omega, hwt⟩, by omega⟩
          · have := hord.2.2 w hw
            exact ⟨⟨w, .inr (.inr hw), hws, hwt⟩, by omega⟩
        · rintro ⟨⟨w, hw, hws, hwt⟩, hne⟩
          rcases hw with hw | rfl | hw
          · exact ⟨w, .inl hw, hws, hwt⟩
          · rcases Nat.lt_or_gt_of_ne hne with hlt | hgt
            · exact ⟨{ w with stop := addr }, .inr (.inl rfl), hws, hlt⟩
            · exact ⟨{ w with start := addr }, .inr (.inr (.inl rfl)), hgt, hwt⟩
          · exact ⟨w, .inr (.inr (.inr hw)), hws, hwt⟩
      · rw [if_pos hst, hvads, hlr]
        simp only [length_append, length_cons]
        omega
      · have hlen : (l ++ { v with stop := addr } :: r).length = p.vads.length := by
          rw [hlr]; simp
        unfold vadInsertAt at hq'
        simp only [hlen] at hq'
        by_cases hc : p.vads.length = p.cap
        · rw [if_pos hc] at hq'
          rw [if_pos ⟨hst, hc⟩]
          split at hq' <;> simp only [Option.some.injEq, reduceCtorEq] at hq'
          rw [← hq']
        · rw [if_neg hc, Option.some.injEq] at hq'
          rw [if_neg (fun h => hc h.2), ← hq']
    · simp at hq

theorem Shape.split_eq_false (h : Shape p.vads) (addr : Nat) (kz : Bool) :
    (vadSplit p addr kz).1 = false ↔ Straddles p.vads addr ∧ NoRoom p kz := by
  rcases h.split_cases addr kz with ⟨hno, he⟩ | ⟨l, v, r, hlr, h1, h2, he⟩
  · rw [he]
    simp [hno]
  · have hst : Straddles p.vads addr := ⟨v, by rw [hlr]; simp, h1, h2⟩
    have hroom : NoRoom { p with vads := l ++ { v with stop := addr } :: r } kz ↔ NoRoom p kz := by
      simp [NoRoom, hlr]
    rw [he]
    split
    · rename_i q hq
      have hne : ¬NoRoom p kz := by
        rw [← hroom, ← vadInsertAt_eq_none (l.length + 1) { v with start := addr }, hq]
        simp
      simp [hne]
    · rename_i hq
      rw [vadInsertAt_eq_none, hroom] at hq
      simp [hst, hq]

/-- **A split that fails loses pages**: the page at the address was described and
no longer is. -/
theorem Shape.split_fails (h : Shape p.vads) (hp : PAGE_SIZE ∣ addr)
    (hq : vadSplit p addr kz = (false, q)) : pageMap q.vads ≠ pageMap p.vads := by
  rcases h.split_cases addr kz with ⟨hno, he⟩ | ⟨l, v, r, hlr, h1, h2, he⟩
  · rw [he] at hq
    simp at hq
  · rw [he] at hq
    split at hq
    · simp at hq
    · obtain rfl : _ = q := by simpa using hq
      intro hsame
      have hbefore : pageMap p.vads (addr / PAGE_SIZE) = v.page :=
        h.pageMap_eq (by rw [hlr]; simp) (within_of_dvd hp h1.le h2)
      have hafter : pageMap (l ++ { v with stop := addr } :: r) (addr / PAGE_SIZE) = .free := by
        have hord := ordered_around.1 (hlr ▸ h.ordered)
        refine pageMap_free (fun w hw hin => ?_)
        rw [Within, Nat.div_mul_cancel hp] at hin
        rcases mem_append.1 hw with hw | hw
        · have := hord.2.1 w hw
          omega
        · rcases mem_cons.1 hw with rfl | hw
          · exact absurd hin.2 (lt_irrefl _)
          · have := hord.2.2 w hw
            omega
      rw [← congrFun hsame, hafter] at hbefore
      exact v.page_ne_free hbefore.symm

theorem Shape.pageMap_insert (h : Shape p.vads) (hlt : v.start < v.stop)
    (hfree : Free p.vads v.start (v.stop - v.start))
    (hq : vadInsertAt p (vadLower p.vads v.start) v kz = some q) (n : Nat) :
    pageMap q.vads n = if Within v.start v.stop n then v.page else pageMap p.vads n := by
  obtain ⟨l, r, hlr, hlen, hl, hr⟩ := h.lower v.start
  have hord : Ordered Vad.start Vad.stop (l ++ v :: r) := by
    refine Ordered.insert_between (hlr ▸ h.ordered) hl (fun b hb => ?_)
    have := hr b hb
    have := hfree b (by rw [hlr]; simp [hb])
    omega
  rw [vadInsertAt_vads hq, hlen, hlr, take_left, drop_left, pageMap, spanAt_insert hord]
  split
  · rename_i hin
    exact (if_pos (c := Within v.start v.stop n) hin).symm
  · rename_i hout
    exact (if_neg (c := Within v.start v.stop n) hout).symm

theorem Shape.pageMap_remove (h : Shape vads) (base n : Nat) :
    pageMap (vads.filter (fun v => v.allocBase ≠ base)) n =
      if (pageMap vads n).allocBase? = some base then .free else pageMap vads n := by
  rw [pageMap, spanAt_filter h.ordered, pageMap]
  cases spanAt Vad.start Vad.stop vads (n * PAGE_SIZE) with
  | none => rfl
  | some v =>
    by_cases hb : v.allocBase = base <;> simp [Option.filter, hb]

/-! ### Walks -/

/-- The bodies of the walks change one descriptor, and not where it lies. -/
structure Visits (body : Process → Nat → Process) (g : Vad → Vad) : Prop where
  vads : ∀ p i v, p.vads[i]? = some v → (body p i).vads = p.vads.set i (g v)
  start : ∀ v, (g v).start = v.start
  stop : ∀ v, (g v).stop = v.stop
  allocBase : ∀ v, (g v).allocBase = v.allocBase
  kind : ∀ v, (g v).kind = v.kind

theorem Shape.walk_vads (hb : Visits body g) (h : Shape p.vads)
    (hcov : ∀ x, a ≤ x → x < stop → ∃ v ∈ p.vads, v.start ≤ x ∧ x < v.stop)
    (ha : ¬Straddles p.vads a) (hstop : ¬Straddles p.vads stop) : (walk body p a stop).vads =
      p.vads.map (fun v => if a ≤ v.start ∧ v.start < stop then g v else v) := by
  induction p, a using walk.induct body stop with
  | case1 p a hlt hnone =>
    obtain ⟨v, hv, hin⟩ := hcov a le_rfl hlt
    obtain ⟨i, hi⟩ := (h.find_iff a v).2 ⟨hv, hin⟩
    rw [hnone] at hi
    cases hi
  | case2 p a hlt i v hsome hnone =>
    obtain ⟨hget, hin⟩ := vadFind_some hsome
    have hset := hb.vads p i v hget
    have hshape : Shape (body p i).vads := by
      rw [hset]
      exact (set_reshapes hget (hb.start v) (hb.stop v) (hb.allocBase v) (by rw [hb.kind])).shape h
    have hmem : g v ∈ (body p i).vads := by
      rw [hset]
      exact mem_set (List.getElem?_eq_some_iff.1 hget).1 _
    obtain ⟨j, hj⟩ := (hshape.find_iff a (g v)).2 ⟨hmem, by rw [hb.start, hb.stop]; exact hin⟩
    rw [hnone] at hj
    cases hj
  | case3 p a hlt i v hsome j w hnext ih =>
    obtain ⟨hget, hin⟩ := vadFind_some hsome
    have hset := hb.vads p i v hget
    have hshape : Shape (body p i).vads := by
      rw [hset]
      exact (set_reshapes hget (hb.start v) (hb.stop v) (hb.allocBase v) (by rw [hb.kind])).shape h
    obtain ⟨l, r, hlr, rfl⟩ := split_of_getElem? hget
    rw [hlr, set_around] at hset
    have hw : w = g v := by
      have hmem : g v ∈ (body p l.length).vads := by rw [hset]; simp
      have hwm := (hshape.find_iff a w).1 ⟨j, hnext⟩
      exact hshape.ordered.unique hwm.1 hmem hwm.2 (by rw [hb.start, hb.stop]; exact hin)
    have hwstop : w.stop = v.stop := by rw [hw, hb.stop]
    -- the two arrays have the same descriptors, as far as their bounds go
    have hsame : ∀ P : Nat → Nat → Prop, (∃ x ∈ (body p l.length).vads, P x.start x.stop) ↔
        ∃ x ∈ p.vads, P x.start x.stop := by
      intro P
      rw [hset, hlr]
      simp only [mem_append, mem_cons, or_and_right, exists_or, exists_eq_left,
        hb.start, hb.stop]
    have hord := ordered_around.1 (hlr ▸ h.ordered)
    have hstart : v.start = a := by
      by_contra hne
      exact ha ⟨v, vadFind_mem hsome, by omega, hin.2⟩
    rw [walk_eq hlt hsome, hnext]
    rw [ih hshape]
    · rw [hset, hlr, map_append, map_append, map_cons, map_cons, hwstop]
      congr 1
      · refine map_congr_left (fun x hx => ?_)
        have := hord.2.1 x hx
        have := h.pos x (by rw [hlr]; simp [hx])
        rw [if_neg (by omega), if_neg (by omega)]
      · congr 1
        · rw [hb.start, if_neg (by omega), if_pos (by omega)]
        · refine map_congr_left (fun x hx => ?_)
          have := hord.2.2 x hx
          have hiff : v.stop ≤ x.start ∧ x.start < stop ↔ a ≤ x.start ∧ x.start < stop := by omega
          simp only [hiff]
    · intro x hx hxs
      exact (hsame (fun s e => s ≤ x ∧ x < e)).2 (hcov x (by omega) hxs)
    · intro hst
      have hst := (hsame (fun s e => s < w.stop ∧ w.stop < e)).1 hst
      obtain ⟨x, hx, hxs, hxe⟩ := hst
      rw [hlr] at hx
      rcases mem_append.1 hx with hx | hx
      · have := hord.2.1 x hx
        omega
      · rcases mem_cons.1 hx with rfl | hx
        · omega
        · have := hord.2.2 x hx
          omega
    · exact fun hst => hstop ((hsame (fun s e => s < stop ∧ stop < e)).1 hst)
  | case4 p a hge =>
    rw [walk, if_neg hge]
    have hid : p.vads.map (fun v => if a ≤ v.start ∧ v.start < stop then g v else v) =
        p.vads.map id := by
      refine map_congr_left (fun v _ => ?_)
      rw [if_neg (by omega)]
      rfl
    rw [hid, map_id]

theorem Shape.pageMap_walk (hb : Visits body g) {f : Page → Page} (hf : f .free = .free)
    (hg : ∀ v, (g v).page = f v.page) (h : Shape p.vads) (haPage : PAGE_SIZE ∣ a)
    (hcov : ∀ n, Within a stop n → pageMap p.vads n ≠ .free) (ha : ¬Straddles p.vads a)
    (hstop : ¬Straddles p.vads stop) (n : Nat) : pageMap (walk body p a stop).vads n =
      if Within a stop n then f (pageMap p.vads n) else pageMap p.vads n := by
  have hbytes : ∀ x, a ≤ x → x < stop → ∃ v ∈ p.vads, v.start ≤ x ∧ x < v.stop := by
    intro x hx hxs
    have hfloor := pageFloor_le x
    have haf : a ≤ pageFloor x := by
      unfold pageFloor PAGE_SIZE at *
      omega
    obtain ⟨v, hv, hin, -⟩ := pageMap_mem (hcov (x / PAGE_SIZE) ⟨haf, lt_of_le_of_lt hfloor hxs⟩)
    refine ⟨v, hv, le_trans hin.1 hfloor, ?_⟩
    have hlt := hin.2
    obtain ⟨k, hk⟩ := (h.ok v hv).stop_page
    unfold PAGE_SIZE at *
    omega
  rw [h.walk_vads hb hbytes ha hstop]
  have hmap : spanAt Vad.start Vad.stop
      (p.vads.map (fun v => if a ≤ v.start ∧ v.start < stop then g v else v)) (n * PAGE_SIZE) =
      (spanAt Vad.start Vad.stop p.vads (n * PAGE_SIZE)).map
        (fun v => if a ≤ v.start ∧ v.start < stop then g v else v) := by
    apply spanAt_map
    · intro v
      split
      · exact hb.start v
      · rfl
    · intro v
      split
      · exact hb.stop v
      · rfl
  rw [pageMap, hmap, pageMap]
  cases hv : spanAt Vad.start Vad.stop p.vads (n * PAGE_SIZE) with
  | none =>
    simp only [Option.map_none, Option.getD_none, hf, ite_self]
  | some v =>
    obtain ⟨hmem, hin⟩ := spanAt_mem hv
    -- the descriptor of the page is inside the range or outside it, never across an end
    have hiff : (a ≤ v.start ∧ v.start < stop) ↔ Within a stop n := by
      constructor
      · rintro ⟨h1, h2⟩
        refine ⟨le_trans h1 hin.1, ?_⟩
        by_contra hge
        exact hstop ⟨v, hmem, h2, by omega⟩
      · rintro ⟨h1, h2⟩
        refine ⟨?_, lt_of_le_of_lt hin.1 h2⟩
        by_contra hlt
        exact ha ⟨v, hmem, by omega, by omega⟩
    simp only [Option.map_some, Option.getD_some, hiff]
    split
    · exact hg v
    · rfl

end Win98Modern.Kernel64
