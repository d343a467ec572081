import Win98Modern.Kernel64.Loader

/-!
# What a load does

A load adds records at the head of the list and edges from any record (`Grow`), maps images at bases
that were free (`Bases`), and as long as it has not failed every new record is mapped, and linked or
being linked (`Done`).  `loadDll_spec` says so of a load at any depth.
-/

namespace Win98Modern.Loader

open Function List

open Failing

variable {p q q' : Process} {env : Env} {id source target : Nat} {f : Module → Module}

def Live (p : Process) (id : Nat) : Prop := ∃ m ∈ p.modules, m.id = id ∧ m.retiring = false

theorem mem_ids : id ∈ p.ids ↔ ∃ m ∈ p.modules, m.id = id := mem_map

theorem Live.mem_ids (h : Live p id) : id ∈ p.ids := by
  obtain ⟨m, hm, rfl, -⟩ := h
  exact mem_map_of_mem hm

/-- The records of a list, and the edges between them. -/
structure Tidy (p : Process) : Prop where
  nodup : p.ids.Nodup
  lt : ∀ m ∈ p.modules, m.id < p.nextId
  edges : ∀ m ∈ p.modules, ∀ e ∈ m.edges, e ∈ p.ids
  kept : ∀ m ∈ p.modules, m.retiring = false → ∀ e ∈ m.edges, Live p e

theorem Tidy.unique (h : Tidy p) {a b : Module} (ha : a ∈ p.modules) (hb : b ∈ p.modules)
    (hab : a.id = b.id) : a = b := inj_on_of_nodup_map h.nodup ha hb hab

/-- The image maps: the module holds one reference until it is freed, and each page-in another. -/
structure ImagesOk (p : Process) : Prop where
  live : ∀ m ∈ p.modules, m.lazy = true → p.image m.id = ⟨p.pageIns.count m.id + 1, false⟩
  gone : ∀ i, (p.image i).retired = true →
    (p.image i).refs = p.pageIns.count i ∧ (i ∈ p.imagesFreed ↔ i ∉ p.pageIns)
  nodup : p.imagesFreed.Nodup
  freed : ∀ i, i ∈ p.imagesFreed ∨ i ∈ p.freedLazy → (p.image i).retired = true
  used : ∀ i ∈ p.pageIns, (p.image i).retired = true ∨ ∃ m ∈ p.modules, m.id = i ∧ m.lazy = true
  unused : ∀ i, p.nextId ≤ i → (p.image i).retired = false ∧ i ∉ p.pageIns

/-- The edges made between two states. -/
def newLinks (p q : Process) : List (Nat × Nat) := q.linked.take (q.linked.length - p.linked.length)

theorem newLinks_append {l : List (Nat × Nat)} (h : q.linked = l ++ p.linked) : newLinks p q = l := by
  unfold newLinks
  rw [h, length_append, Nat.add_sub_cancel, take_left]

/-- `q` is `p` with more records and more edges. -/
structure Grow (p q : Process) : Prop where
  tidy : Tidy q
  images : ImagesOk q
  next : p.nextId ≤ q.nextId
  counter : p.initCounter ≤ q.initCounter
  ids : ∃ fresh, q.ids = fresh ++ p.ids ∧ ∀ i ∈ fresh, p.nextId ≤ i
  old : ∀ m ∈ q.modules, m.id < p.nextId → ∃ m₀ ∈ p.modules, ∃ extra,
    m = { m₀ with edges := extra ++ m₀.edges } ∧ ∀ e ∈ extra, (m.id, e) ∈ newLinks p q
  new : ∀ m ∈ q.modules, p.nextId ≤ m.id →
    m.refs = 0 ∧ m.root = false ∧ m.pinned = false ∧ m.retiring = false
  linked : ∃ links, q.linked = links ++ p.linked ∧
    ∀ e ∈ links, (∃ m ∈ q.modules, m.id = e.1 ∧ e.2 ∈ m.edges) ∧
      ∀ m ∈ p.modules, m.id = e.1 → e.2 ∉ m.edges
  same : q.retirement = p.retirement ∧ q.retireSequence = p.retireSequence ∧ q.freed = p.freed ∧
    q.pageIns = p.pageIns

/-- What the rollback needs of the bases. -/
structure Bases (p q : Process) : Prop where
  zero : 0 ∉ q.mapped
  sub : p.mapped ⊆ q.mapped
  new : ∀ m ∈ q.modules, p.nextId ≤ m.id → m.base ∉ p.mapped
  from_new : ∀ b ∈ q.mapped, b ∉ p.mapped → ∃ m ∈ q.modules, p.nextId ≤ m.id ∧ m.base = b

/-- The new records are mapped and linked, but those on the stack, which are being linked. -/
structure Done (p : Process) (stack : List Nat) (q : Process) : Prop where
  base : ∀ m ∈ q.modules, p.nextId ≤ m.id → m.base ∈ q.mapped
  inj : ∀ a ∈ q.modules, ∀ b ∈ q.modules, p.nextId ≤ a.id → p.nextId ≤ b.id → a.base = b.base →
    a.id = b.id
  state : ∀ m ∈ q.modules, p.nextId ≤ m.id → m.state = .linked ∨ m.state = .loading ∧ m.id ∈ stack
  completion : ∀ m ∈ q.modules, p.nextId ≤ m.id → m.state = .linked →
    p.initCounter < m.completion ∧ m.completion ≤ q.initCounter
  distinct : ∀ a ∈ q.modules, ∀ b ∈ q.modules, p.nextId ≤ a.id → p.nextId ≤ b.id → a.state = .linked →
    b.state = .linked → a.completion = b.completion → a.id = b.id

/-! ### Changes of one record -/

/-- The record is the same for the list, its edges and the image maps. -/
structure SameLinks (m m' : Module) : Prop where
  id : m'.id = m.id
  isLazy : m'.lazy = m.lazy
  edges : m'.edges = m.edges
  retiring : m'.retiring = m.retiring

/-- Only what linking changes differs. -/
structure SameRecord (m m' : Module) : Prop extends SameLinks m m' where
  refs : m'.refs = m.refs
  root : m'.root = m.root
  pinned : m'.pinned = m.pinned

variable {m : Module} {base : Nat}

theorem mem_map_update {l : List Module} {m' : Module} :
    m' ∈ (l.map fun m => if m.id = id then f m else m) ↔
      (∃ m ∈ l, m.id = id ∧ f m = m') ∨ m' ∈ l ∧ m'.id ≠ id := by
  rw [mem_map]
  constructor
  · rintro ⟨m, hm, hm'⟩
    split at hm'
    · exact .inl ⟨m, hm, ‹_›, hm'⟩
    · subst hm'
      exact .inr ⟨hm, ‹_›⟩
  · rintro (⟨m, hm, hid, rfl⟩ | ⟨hm, hid⟩)
    · exact ⟨m, hm, if_pos hid⟩
    · exact ⟨m', hm, if_neg hid⟩

theorem ids_update {l : List Module} (hf : ∀ m, (f m).id = m.id) :
    (l.map fun m => if m.id = id then f m else m).map Module.id = l.map Module.id := by
  rw [map_map]
  apply map_congr_left
  intro m _
  show Module.id (if m.id = id then f m else m) = m.id
  split
  · exact hf m
  · rfl

/-- Each record of one list corresponds to one of the other. -/
structure Matched (R : Module → Module → Prop) (q q' : Process) : Prop where
  back : ∀ m' ∈ q'.modules, ∃ m ∈ q.modules, R m m'
  forth : ∀ m ∈ q.modules, ∃ m' ∈ q'.modules, R m m'

variable {R : Module → Module → Prop}

theorem Matched.mono {R' : Module → Module → Prop} (h : Matched R q q') (hR : ∀ m m', R m m' → R' m m') :
    Matched R' q q' := by
  constructor
  · intro m' hm'
    obtain ⟨m, hm, hmm⟩ := h.back m' hm'
    exact ⟨m, hm, hR m m' hmm⟩
  · intro m hm
    obtain ⟨m', hm', hmm⟩ := h.forth m hm
    exact ⟨m', hm', hR m m' hmm⟩

theorem matched_update (hf : ∀ m, m.id = id → R m (f m)) (hrefl : ∀ m, m.id ≠ id → R m m)
    (hm : q'.modules = q.modules.map fun m => if m.id = id then f m else m) : Matched R q q' := by
  constructor
  · intro m' hm'
    rw [hm] at hm'
    obtain ⟨m, hmem, hid, rfl⟩ | ⟨hmem, hid⟩ := mem_map_update.1 hm'
    · exact ⟨m, hmem, hf m hid⟩
    · exact ⟨m', hmem, hrefl m' hid⟩
  · intro m hmem
    rw [hm]
    by_cases hid : m.id = id
    · exact ⟨f m, mem_map_update.2 (.inl ⟨m, hmem, hid, rfl⟩), hf m hid⟩
    · exact ⟨m, mem_map_update.2 (.inr ⟨hmem, hid⟩), hrefl m hid⟩

theorem Matched.live (h : Matched R q q') (hR : ∀ m m', R m m' → m'.id = m.id ∧ m'.retiring = m.retiring)
    {i : Nat} (hi : Live q i) : Live q' i := by
  obtain ⟨m, hm, rfl, hret⟩ := hi
  obtain ⟨m', hm', hmm⟩ := h.forth m hm
  exact ⟨m', hm', (hR m m' hmm).1, (hR m m' hmm).2.trans hret⟩

theorem Matched.tidy (h : Matched SameLinks q q') (hids : q'.ids = q.ids) (hnext : q'.nextId = q.nextId)
    (ht : Tidy q) : Tidy q' := by
  refine ⟨?_, ?_, ?_, ?_⟩
  · rw [hids]
    exact ht.nodup
  · intro m' hm'
    obtain ⟨m, hm, hsame⟩ := h.back m' hm'
    rw [hsame.id, hnext]
    exact ht.lt m hm
  · intro m' hm'
    obtain ⟨m, hm, hsame⟩ := h.back m' hm'
    rw [hsame.edges, hids]
    exact ht.edges m hm
  · intro m' hm' hret e he
    obtain ⟨m, hm, hsame⟩ := h.back m' hm'
    rw [hsame.edges] at he
    rw [hsame.retiring] at hret
    exact h.live (fun _ _ hs => ⟨hs.id, hs.retiring⟩) (ht.kept m hm hret e he)

/-- The image maps need no more of the records than which of them are mapped lazily. -/
theorem Matched.images (h : Matched R q q') (hR : ∀ m m', R m m' → m'.id = m.id ∧ m'.lazy = m.lazy)
    (hq : q' = { q with
      modules := q'.modules, mapped := q'.mapped, tlsSlots := q'.tlsSlots, initCounter := q'.initCounter
      linked := q'.linked })
    (hi : ImagesOk q) : ImagesOk q' := by
  rw [hq]
  refine ⟨?_, hi.gone, hi.nodup, hi.freed, ?_, hi.unused⟩
  · intro m' hm' hlazy
    obtain ⟨m, hm, hmm⟩ := h.back m' hm'
    rw [(hR m m' hmm).2] at hlazy
    rw [(hR m m' hmm).1]
    exact hi.live m hm hlazy
  · intro i hin
    obtain hret | ⟨m, hm, hid, hlazy⟩ := hi.used i hin
    · exact .inl hret
    · obtain ⟨m', hm', hmm⟩ := h.forth m hm
      exact .inr ⟨m', hm', (hR m m' hmm).1.trans hid, (hR m m' hmm).2.trans hlazy⟩

/-- The records of `q'` are those of `q`, and the old ones have not changed. -/
structure Redone (p q q' : Process) : Prop extends Matched SameRecord q q' where
  ids : q'.ids = q.ids
  old : ∀ m' ∈ q'.modules, m'.id < p.nextId → m' ∈ q.modules
  counter : q.initCounter ≤ q'.initCounter
  rest : q' = { q with
    modules := q'.modules, mapped := q'.mapped, tlsSlots := q'.tlsSlots, initCounter := q'.initCounter }

theorem redone_update (hid : p.nextId ≤ id) (hf : ∀ m, SameRecord m (f m))
    (hm : q'.modules = q.modules.map fun m => if m.id = id then f m else m)
    (hcounter : q.initCounter ≤ q'.initCounter)
    (hq : q' = { q with
      modules := q'.modules, mapped := q'.mapped, tlsSlots := q'.tlsSlots, initCounter := q'.initCounter }) :
    Redone p q q' := by
  have hrefl : ∀ m, SameRecord m m := fun m => ⟨⟨rfl, rfl, rfl, rfl⟩, rfl, rfl, rfl⟩
  refine ⟨matched_update (fun m _ => hf m) (fun m _ => hrefl m) hm, ?_, ?_, hcounter, hq⟩
  · show q'.modules.map Module.id = _
    rw [hm]
    exact ids_update fun m => (hf m).id
  · intro m' hm' hold
    rw [hm] at hm'
    obtain ⟨m, -, hmid, rfl⟩ | ⟨hmem, -⟩ := mem_map_update.1 hm'
    · rw [(hf m).id] at hold
      omega
    · exact hmem

/-- What linking changes in a new record is no matter for the list and its edges. -/
theorem Grow.redone (h : Grow p q) (hq : Redone p q q') : Grow p q' := by
  have hnext : q'.nextId = q.nextId := by rw [hq.rest]
  have hlinks : q'.linked = q.linked := by rw [hq.rest]
  refine ⟨?_, ?_, ?_, h.counter.trans hq.counter, ?_, ?_, ?_, ?_, ?_⟩
  · exact (hq.toMatched.mono fun _ _ hs => hs.toSameLinks).tidy hq.ids hnext h.tidy
  · exact hq.images (fun _ _ hs => ⟨hs.id, hs.isLazy⟩) (by rw [hq.rest]) h.images
  · rw [hnext]
    exact h.next
  · rw [hq.ids]
    exact h.ids
  · unfold newLinks
    rw [hlinks]
    exact fun m' hm' hold => h.old m' (hq.old m' hm' hold) hold
  · intro m' hm' hnew
    obtain ⟨m, hm, hsame⟩ := hq.back m' hm'
    rw [hsame.id] at hnew
    rw [hsame.refs, hsame.root, hsame.pinned, hsame.retiring]
    exact h.new m hm hnew
  · obtain ⟨links, heq, hl⟩ := h.linked
    refine ⟨links, hlinks.trans heq, fun e he => ?_⟩
    obtain ⟨⟨m, hm, hid, hmem⟩, hfresh⟩ := hl e he
    obtain ⟨m', hm', hsame⟩ := hq.forth m hm
    exact ⟨⟨m', hm', hsame.id.trans hid, by
      rw [hsame.edges]
      exact hmem⟩, hfresh⟩
  · rw [hq.rest]
    exact h.same

/-! ### New edges and new records -/

theorem hasEdge_eq_false_iff : hasEdge q source target = false ↔
    ∀ m ∈ q.modules, m.id = source → target ∉ m.edges := by
  unfold hasEdge
  simp

theorem Grow.keeps (hp : Tidy p) (h : Grow p q) {m₀ : Module} (hm₀ : m₀ ∈ p.modules) :
    ∃ extra, { m₀ with edges := extra ++ m₀.edges } ∈ q.modules ∧
      ∀ e ∈ extra, (m₀.id, e) ∈ newLinks p q := by
  obtain ⟨fresh, hfresh, -⟩ := h.ids
  have hin : m₀.id ∈ q.ids := by
    rw [hfresh]
    exact mem_append_right fresh (mem_map_of_mem hm₀)
  obtain ⟨m, hm, hid⟩ := mem_ids.1 hin
  obtain ⟨m₁, hm₁, extra, rfl, hextra⟩ := h.old m hm (by rw [hid]; exact hp.lt m₀ hm₀)
  obtain rfl := hp.unique hm₁ hm₀ hid
  exact ⟨extra, hm, hextra⟩

theorem Grow.newLinks_addEdge (h : Grow p q) (source target : Nat) :
    newLinks p (addEdge source target q) = (source, target) :: newLinks p q := by
  obtain ⟨links, hlinked, -⟩ := h.linked
  rw [newLinks_append hlinked, newLinks_append (l := (source, target) :: links)]
  show (source, target) :: q.linked = _
  rw [hlinked]
  rfl

theorem grow_addEdge (hp : Tidy p) (h : Grow p q) (hsource : source ∈ q.ids) (htarget : Live q target)
    (hno : hasEdge q source target = false) : Grow p (addEdge source target q) := by
  have hno := hasEdge_eq_false_iff.1 hno
  have hids : (addEdge source target q).ids = q.ids := ids_update fun _ => rfl
  obtain ⟨links, hlinked, hl⟩ := h.linked
  have hlinks := h.newLinks_addEdge source target
  have hmatch : Matched (fun m m' => ∃ new, m' = { m with edges := new ++ m.edges } ∧
      (m.id = source ∧ new = [target] ∨ m.id ≠ source ∧ new = [])) q (addEdge source target q) := by
    exact matched_update (fun m (hid : m.id = source) => ⟨[target], rfl, .inl ⟨hid, rfl⟩⟩)
      (fun m hid => ⟨[], rfl, .inr ⟨hid, rfl⟩⟩) rfl
  have hlive : ∀ i, Live q i → Live (addEdge source target q) i := by
    refine fun i => hmatch.live ?_
    rintro m m' ⟨new, rfl, -⟩
    exact ⟨rfl, rfl⟩
  refine ⟨⟨?_, ?_, ?_, ?_⟩, ?_, h.next, h.counter, ?_, ?_, ?_, ?_, h.same⟩
  · rw [hids]
    exact h.tidy.nodup
  · intro m' hm'
    obtain ⟨m, hm, new, rfl, -⟩ := hmatch.back m' hm'
    exact h.tidy.lt m hm
  · intro m' hm' e he
    obtain ⟨m, hm, new, rfl, hnew⟩ := hmatch.back m' hm'
    rw [hids]
    obtain he | he := mem_append.1 he
    · obtain ⟨-, rfl⟩ | ⟨-, rfl⟩ := hnew
      · rw [mem_singleton.1 he]
        exact htarget.mem_ids
      · cases he
    · exact h.tidy.edges m hm e he
  · intro m' hm' hret e he
    obtain ⟨m, hm, new, rfl, hnew⟩ := hmatch.back m' hm'
    apply hlive
    obtain he | he := mem_append.1 he
    · obtain ⟨-, rfl⟩ | ⟨-, rfl⟩ := hnew
      · rw [mem_singleton.1 he]
        exact htarget
      · cases he
    · exact h.tidy.kept m hm hret e he
  · refine hmatch.images ?_ rfl h.images
    rintro m m' ⟨new, rfl, -⟩
    exact ⟨rfl, rfl⟩
  · rw [hids]
    exact h.ids
  · intro m' hm' hold
    obtain ⟨m, hm, new, rfl, hnew⟩ := hmatch.back m' hm'
    obtain ⟨m₀, hm₀, extra, rfl, hextra⟩ := h.old m hm hold
    refine ⟨m₀, hm₀, new ++ extra, by simp only [append_assoc], fun e he => ?_⟩
    rw [hlinks]
    obtain he | he := mem_append.1 he
    · obtain ⟨hid, rfl⟩ | ⟨-, rfl⟩ := hnew
      · rw [mem_singleton.1 he, ← hid]
        exact mem_cons_self
      · cases he
    · exact mem_cons_of_mem _ (hextra e he)
  · intro m' hm' hnew'
    obtain ⟨m, hm, new, rfl, -⟩ := hmatch.back m' hm'
    exact h.new m hm hnew'
  · refine ⟨(source, target) :: links, ?_, fun e he => ?_⟩
    · show (source, target) :: q.linked = _
      rw [hlinked]
      rfl
    · obtain rfl | he := mem_cons.1 he
      · constructor
        · obtain ⟨m, hm, hid⟩ := mem_ids.1 hsource
          obtain ⟨m', hm', new, rfl, ⟨-, rfl⟩ | ⟨hne, -⟩⟩ := hmatch.forth m hm
          · exact ⟨_, hm', hid, mem_cons_self⟩
          · exact absurd hid hne
        · intro m₀ hm₀ hid hedge
          obtain ⟨extra, hm, -⟩ := h.keeps hp hm₀
          exact hno _ hm hid (mem_append_right extra hedge)
      · obtain ⟨⟨m, hm, hid, hmem'⟩, hfresh⟩ := hl e he
        obtain ⟨m', hm', new, rfl, -⟩ := hmatch.forth m hm
        exact ⟨⟨_, hm', hid, mem_append_right new hmem'⟩, hfresh⟩

theorem grow_push (h : Grow p q) (name : String) (file : ImageFile) :
    Grow p (q.push (q.fresh name file)) := by
  have hnew : ∀ m ∈ q.modules, m.id ≠ q.nextId := fun m hm => Nat.ne_of_lt (h.tidy.lt m hm)
  have hcount : q.pageIns.count q.nextId = 0 :=
    count_eq_zero.2 (h.images.unused q.nextId (Nat.le_refl _)).2
  have hret := (h.images.unused q.nextId (Nat.le_refl _)).1
  have himage : ∀ i, i ≠ q.nextId → (q.push (q.fresh name file)).image i = q.image i :=
    fun i hi => update_of_ne hi ..
  have hretired : ∀ i, ((q.push (q.fresh name file)).image i).retired = (q.image i).retired := by
    intro i
    by_cases hi : i = q.nextId
    · subst hi
      rw [hret]
      show (update q.image q.nextId _ q.nextId).retired = false
      rw [update_self]
    · rw [himage i hi]
  have hlive : ∀ i, Live q i → Live (q.push (q.fresh name file)) i := by
    rintro i ⟨m, hm, hid, hr⟩
    exact ⟨m, mem_cons_of_mem _ hm, hid, hr⟩
  refine ⟨⟨?_, ?_, ?_, ?_⟩, ⟨?_, ?_, h.images.nodup, ?_, ?_, ?_⟩, ?_, h.counter, ?_, ?_, ?_, ?_,
    h.same⟩
  · refine nodup_cons.2 ⟨fun hmem => ?_, h.tidy.nodup⟩
    obtain ⟨m, hm, hid⟩ := mem_ids.1 hmem
    exact hnew m hm hid
  · intro m hm
    obtain rfl | hm := mem_cons.1 hm
    · exact Nat.lt_succ_self q.nextId
    · exact Nat.lt_succ_of_lt (h.tidy.lt m hm)
  · intro m hm e he
    obtain rfl | hm := mem_cons.1 hm
    · cases he
    · exact mem_cons_of_mem _ (h.tidy.edges m hm e he)
  · intro m hm hr e he
    obtain rfl | hm := mem_cons.1 hm
    · cases he
    · exact hlive e (h.tidy.kept m hm hr e he)
  · intro m hm hlazy
    obtain rfl | hm := mem_cons.1 hm
    · have hfile : file.lazy = true := hlazy
      refine (update_self ..).trans ?_
      show (⟨if file.lazy = true then 1 else 0, false⟩ : ImageLife) = ⟨q.pageIns.count q.nextId + 1, false⟩
      rw [if_pos hfile, hcount]
    · rw [himage _ (hnew m hm)]
      exact h.images.live m hm hlazy
  · intro i hi
    rw [hretired] at hi
    rw [himage i (by rintro rfl; rw [hret] at hi; cases hi)]
    exact h.images.gone i hi
  · intro i hi
    rw [hretired]
    exact h.images.freed i hi
  · intro i hi
    rw [hretired]
    obtain hr | ⟨m, hm, hid, hlazy⟩ := h.images.used i hi
    · exact .inl hr
    · exact .inr ⟨m, mem_cons_of_mem _ hm, hid, hlazy⟩
  · intro i hi
    rw [hretired]
    exact h.images.unused i (Nat.le_of_succ_le hi)
  · exact Nat.le_succ_of_le h.next
  · obtain ⟨fresh, hfresh, hle⟩ := h.ids
    refine ⟨q.nextId :: fresh, ?_, fun i hi => ?_⟩
    · show q.nextId :: q.ids = _
      rw [hfresh]
      rfl
    · obtain rfl | hi := mem_cons.1 hi
      · exact h.next
      · exact hle i hi
  · intro m hm hold
    obtain rfl | hm := mem_cons.1 hm
    · exact absurd hold (Nat.not_lt.2 h.next)
    · exact h.old m hm hold
  · intro m hm hge
    obtain rfl | hm := mem_cons.1 hm
    · exact ⟨rfl, rfl, rfl, rfl⟩
    · exact h.new m hm hge
  · obtain ⟨links, heq, hl⟩ := h.linked
    refine ⟨links, heq, fun e he => ?_⟩
    obtain ⟨⟨m, hm, hid, hmem⟩, hfresh⟩ := hl e he
    exact ⟨⟨m, mem_cons_of_mem _ hm, hid, hmem⟩, hfresh⟩

/-! ### The state of a load -/

variable {stack : List Nat}

/-- A load that has not failed. -/
structure Going (p : Process) (stack : List Nat) (q : Process) : Prop where
  grow : Grow p q
  bases : Bases p q
  done : Done p stack q

/-- What is left of a load that has failed. -/
structure Failed (p q : Process) : Prop where
  grow : Grow p q
  bases : Bases p q

theorem Going.failed (h : Going p stack q) : Failed p q := ⟨h.grow, h.bases⟩

/-- The records differ in nothing that the progress of a load is about. -/
structure SameProgress (m m' : Module) : Prop where
  id : m'.id = m.id
  base : m'.base = m.base
  state : m'.state = m.state
  completion : m'.completion = m.completion
  retiring : m'.retiring = m.retiring

theorem Going.update (h : Going p stack q) (hgrow : Grow p q') (hf : ∀ m, SameProgress m (f m))
    (hm : q'.modules = q.modules.map fun m => if m.id = id then f m else m)
    (hmapped : q'.mapped = q.mapped) (hcounter : q'.initCounter = q.initCounter) :
    Going p stack q' := by
  have hmatch : Matched SameProgress q q' :=
    matched_update (fun m _ => hf m) (fun m _ => ⟨rfl, rfl, rfl, rfl, rfl⟩) hm
  refine ⟨hgrow, ⟨?_, ?_, ?_, ?_⟩, ⟨?_, ?_, ?_, ?_, ?_⟩⟩
  · rw [hmapped]
    exact h.bases.zero
  · rw [hmapped]
    exact h.bases.sub
  · intro m' hm' hnew
    obtain ⟨m, hmem, hsame⟩ := hmatch.back m' hm'
    rw [hsame.base]
    exact h.bases.new m hmem (hsame.id ▸ hnew)
  · intro b hb hnot
    rw [hmapped] at hb
    obtain ⟨m, hmem, hnew, rfl⟩ := h.bases.from_new b hb hnot
    obtain ⟨m', hm', hsame⟩ := hmatch.forth m hmem
    exact ⟨m', hm', hsame.id.symm ▸ hnew, hsame.base⟩
  · intro m' hm' hnew
    obtain ⟨m, hmem, hsame⟩ := hmatch.back m' hm'
    rw [hsame.base, hmapped]
    exact h.done.base m hmem (hsame.id ▸ hnew)
  · intro a' ha' b' hb' hna hnb hab
    obtain ⟨a, ha, hsa⟩ := hmatch.back a' ha'
    obtain ⟨b, hb, hsb⟩ := hmatch.back b' hb'
    rw [hsa.id, hsb.id]
    exact h.done.inj a ha b hb (hsa.id ▸ hna) (hsb.id ▸ hnb) (hsa.base ▸ hsb.base ▸ hab)
  · intro m' hm' hnew
    obtain ⟨m, hmem, hsame⟩ := hmatch.back m' hm'
    rw [hsame.state, hsame.id]
    exact h.done.state m hmem (hsame.id ▸ hnew)
  · intro m' hm' hnew hlinked
    obtain ⟨m, hmem, hsame⟩ := hmatch.back m' hm'
    rw [hsame.completion, hcounter]
    exact h.done.completion m hmem (hsame.id ▸ hnew) (hsame.state ▸ hlinked)
  · intro a' ha' b' hb' hna hnb hla hlb hab
    obtain ⟨a, ha, hsa⟩ := hmatch.back a' ha'
    obtain ⟨b, hb, hsb⟩ := hmatch.back b' hb'
    rw [hsa.id, hsb.id]
    exact h.done.distinct a ha b hb (hsa.id ▸ hna) (hsb.id ▸ hnb) (hsa.state ▸ hla) (hsb.state ▸ hlb)
      (hsa.completion ▸ hsb.completion ▸ hab)

theorem going_takeTlsSlot (h : Going p stack q) (hid : p.nextId ≤ id) :
    Going p stack (takeTlsSlot id q) :=
  h.update (f := fun m => { m with hasTls := true })
    (h.grow.redone (redone_update (f := fun m => { m with hasTls := true }) hid
      (fun _ => ⟨⟨rfl, rfl, rfl, rfl⟩, rfl, rfl, rfl⟩) rfl (Nat.le_refl _) rfl))
    (fun _ => ⟨rfl, rfl, rfl, rfl, rfl⟩) rfl rfl rfl

theorem going_addEdge (hp : Tidy p) (h : Going p stack q) (hsource : source ∈ q.ids)
    (htarget : Live q target) (hno : hasEdge q source target = false) :
    Going p stack (addEdge source target q) :=
  h.update (f := fun m => { m with edges := target :: m.edges }) (grow_addEdge hp h.grow hsource htarget hno)
    (fun _ => ⟨rfl, rfl, rfl, rfl, rfl⟩) rfl rfl rfl

theorem going_complete (h : Going p (id :: stack) q) (hid : p.nextId ≤ id) :
    Going p stack (complete id q) := by
  have hgrow : Grow p (complete id q) :=
    h.grow.redone (redone_update
      (f := fun m => { m with state := .linked, completion := q.initCounter + 1 }) hid
      (fun _ => ⟨⟨rfl, rfl, rfl, rfl⟩, rfl, rfl, rfl⟩) rfl (Nat.le_succ _) rfl)
  have hcounter : (complete id q).initCounter = q.initCounter + 1 := rfl
  have hmatch : Matched (fun m m' => m'.id = m.id ∧ m'.base = m.base ∧
      (m.id = id ∧ m'.state = .linked ∧ m'.completion = q.initCounter + 1 ∨ m' = m ∧ m.id ≠ id))
      q (complete id q) :=
    matched_update (f := fun m => { m with state := .linked, completion := q.initCounter + 1 })
      (fun _ hid => ⟨rfl, rfl, .inl ⟨hid, rfl, rfl⟩⟩) (fun _ hne => ⟨rfl, rfl, .inr ⟨rfl, hne⟩⟩) rfl
  refine ⟨hgrow, ⟨h.bases.zero, h.bases.sub, ?_, ?_⟩, ⟨?_, ?_, ?_, ?_, ?_⟩⟩
  · intro m' hm' hnew
    obtain ⟨m, hmem, heq, hbase, -⟩ := hmatch.back m' hm'
    rw [hbase]
    exact h.bases.new m hmem (heq ▸ hnew)
  · intro b hb hnot
    obtain ⟨m, hmem, hnew, rfl⟩ := h.bases.from_new b hb hnot
    obtain ⟨m', hm', heq, hbase, -⟩ := hmatch.forth m hmem
    exact ⟨m', hm', heq.symm ▸ hnew, hbase⟩
  · intro m' hm' hnew
    obtain ⟨m, hmem, heq, hbase, -⟩ := hmatch.back m' hm'
    rw [hbase]
    exact h.done.base m hmem (heq ▸ hnew)
  · intro a' ha' b' hb' hna hnb hab
    obtain ⟨a, ha, haid, habase, -⟩ := hmatch.back a' ha'
    obtain ⟨b, hb, hbid, hbbase, -⟩ := hmatch.back b' hb'
    rw [haid, hbid]
    exact h.done.inj a ha b hb (haid ▸ hna) (hbid ▸ hnb) (habase ▸ hbbase ▸ hab)
  · intro m' hm' hnew
    obtain ⟨m, hmem, heq, -, ⟨-, hlinked, -⟩ | ⟨rfl, hne⟩⟩ := hmatch.back m' hm'
    · exact .inl hlinked
    · obtain hlinked | ⟨hloading, hin⟩ := h.done.state m' hmem hnew
      · exact .inl hlinked
      · exact .inr ⟨hloading, (mem_cons.1 hin).resolve_left hne⟩
  · intro m' hm' hnew hlinked
    have hle := h.grow.counter
    obtain ⟨m, hmem, heq, -, ⟨-, -, hcomp⟩ | ⟨rfl, -⟩⟩ := hmatch.back m' hm'
    · omega
    · have := h.done.completion m' hmem hnew hlinked
      omega
  · intro a' ha' b' hb' hna hnb hla hlb hab
    obtain ⟨a, ha, haid, -, ⟨haid', -, hca⟩ | ⟨rfl, -⟩⟩ := hmatch.back a' ha' <;>
      obtain ⟨b, hb, hbid, -, ⟨hbid', -, hcb⟩ | ⟨rfl, -⟩⟩ := hmatch.back b' hb'
    · rw [haid, hbid, haid', hbid']
    · have := h.done.completion b' hb hnb hlb
      omega
    · have := h.done.completion a' ha hna hla
      omega
    · exact h.done.distinct a' ha b' hb hna hnb hla hlb hab

/-! ### A new image -/

variable {name : String} {file : ImageFile}

theorem bases_push (h : Bases p q) : Bases p (q.push (q.fresh name file)) := by
  refine ⟨h.zero, h.sub, ?_, ?_⟩
  · intro m hm hnew
    obtain rfl | hm := mem_cons.1 hm
    · exact fun h0 => h.zero (h.sub h0)
    · exact h.new m hm hnew
  · intro b hb hnot
    obtain ⟨m, hm, hnew⟩ := h.from_new b hb hnot
    exact ⟨m, mem_cons_of_mem _ hm, hnew⟩

theorem bases_setBase (hg : Grow p q) (h : Bases p q) (hbase : base ∉ q.mapped)
    (hq : q'.modules = (q.push (q.fresh name file)).modules.map fun m =>
      if m.id = q.nextId then { m with base := base } else m)
    (hmapped : q'.mapped = q.mapped ∨ base ≠ 0 ∧ q'.mapped = insert base q.mapped) :
    Bases p q' := by
  have hmem : ∀ m' ∈ q'.modules, m' ∈ q.modules ∧ m'.id ≠ q.nextId ∨ m'.id = q.nextId ∧ m'.base = base := by
    intro m' hm'
    rw [hq] at hm'
    obtain ⟨m, hm, hid, rfl⟩ | ⟨hm, hne⟩ := mem_map_update.1 hm'
    · exact .inr ⟨hid, rfl⟩
    · obtain rfl | hm := mem_cons.1 hm
      · exact absurd rfl hne
      · exact .inl ⟨hm, hne⟩
  have hkeep : ∀ m ∈ q.modules, m ∈ q'.modules := by
    intro m hm
    rw [hq]
    exact mem_map_update.2 (.inr ⟨mem_cons_of_mem _ hm, Nat.ne_of_lt (hg.tidy.lt m hm)⟩)
  have hin : ∃ m ∈ q'.modules, m.id = q.nextId ∧ m.base = base := by
    rw [hq]
    exact ⟨_, mem_map_update.2 (.inl ⟨_, mem_cons_self, rfl, rfl⟩), rfl, rfl⟩
  have hsub : q.mapped ⊆ q'.mapped := by
    obtain h | ⟨-, h⟩ := hmapped <;> rw [h]
    exact Finset.subset_insert base q.mapped
  refine ⟨?_, h.sub.trans hsub, ?_, ?_⟩
  · obtain heq | ⟨hne, heq⟩ := hmapped <;> rw [heq]
    · exact h.zero
    · exact fun h0 => (Finset.mem_insert.1 h0).elim (fun h' => hne h'.symm) h.zero
  · intro m' hm' hnew
    obtain ⟨hm, -⟩ | ⟨-, rfl⟩ := hmem m' hm'
    · exact h.new m' hm hnew
    · exact fun hold => hbase (h.sub hold)
  · intro b hb hnot
    by_cases hold : b ∈ q.mapped
    · obtain ⟨m, hm, hnew⟩ := h.from_new b hold hnot
      exact ⟨m, hkeep m hm, hnew⟩
    · obtain heq | ⟨-, heq⟩ := hmapped
      · exact absurd (heq ▸ hb) hold
      · rw [heq] at hb
        obtain rfl := (Finset.mem_insert.1 hb).resolve_right hold
        obtain ⟨m, hm, hid, hmb⟩ := hin
        exact ⟨m, hm, hid.symm ▸ hg.next, hmb⟩

theorem grow_setBase (h : Grow p q)
    (hq : q'.modules = (q.push (q.fresh name file)).modules.map fun m =>
      if m.id = q.nextId then { m with base := base } else m)
    (hcounter : q.initCounter ≤ q'.initCounter) (hrest : q' = { q.push (q.fresh name file) with
      modules := q'.modules, mapped := q'.mapped, tlsSlots := q'.tlsSlots, initCounter := q'.initCounter }) :
    Grow p q' :=
  (grow_push h name file).redone
    (redone_update (f := fun m => { m with base := base }) h.next
      (fun _ => ⟨⟨rfl, rfl, rfl, rfl⟩, rfl, rfl, rfl⟩) hq hcounter hrest)

theorem going_mapImage (h : Going p stack q) (hbase : base ∉ q.mapped) (hzero : base ≠ 0) :
    Going p (q.nextId :: stack) (mapImage q.nextId base (q.push (q.fresh name file))) := by
  have hgrow : Grow p (mapImage q.nextId base (q.push (q.fresh name file))) :=
    grow_setBase h.grow rfl (Nat.le_refl _) rfl
  have hbases : Bases p (mapImage q.nextId base (q.push (q.fresh name file))) :=
    bases_setBase h.grow h.bases hbase rfl (.inr ⟨hzero, rfl⟩)
  have hmem : ∀ m' ∈ (mapImage q.nextId base (q.push (q.fresh name file))).modules,
      m' ∈ q.modules ∧ m'.id ≠ q.nextId ∨ m'.id = q.nextId ∧ m'.base = base ∧ m'.state = .loading := by
    intro m' hm'
    obtain ⟨m, hm, hid, rfl⟩ | ⟨hm, hne⟩ := mem_map_update.1 hm'
    · obtain rfl | hm := mem_cons.1 hm
      · exact .inr ⟨hid, rfl, rfl⟩
      · exact absurd hid (Nat.ne_of_lt (h.grow.tidy.lt m hm))
    · obtain rfl | hm := mem_cons.1 hm
      · exact absurd rfl hne
      · exact .inl ⟨hm, hne⟩
  refine ⟨hgrow, hbases, ⟨?_, ?_, ?_, ?_, ?_⟩⟩
  · intro m' hm' hnew
    obtain ⟨hm, -⟩ | ⟨-, rfl, -⟩ := hmem m' hm'
    · exact Finset.mem_insert_of_mem (h.done.base m' hm hnew)
    · exact Finset.mem_insert_self ..
  · intro a ha b hb hna hnb hab
    obtain ⟨ha, -⟩ | ⟨haid, habase, -⟩ := hmem a ha <;> obtain ⟨hb, -⟩ | ⟨hbid, hbbase, -⟩ := hmem b hb
    · exact h.done.inj a ha b hb hna hnb hab
    · exact absurd (h.done.base a ha hna) (by rw [hab, hbbase]; exact hbase)
    · exact absurd (h.done.base b hb hnb) (by rw [← hab, habase]; exact hbase)
    · rw [haid, hbid]
  · intro m' hm' hnew
    obtain ⟨hm, -⟩ | ⟨hid, -, hloading⟩ := hmem m' hm'
    · obtain hlinked | ⟨hloading, hin⟩ := h.done.state m' hm hnew
      · exact .inl hlinked
      · exact .inr ⟨hloading, mem_cons_of_mem _ hin⟩
    · exact .inr ⟨hloading, hid ▸ mem_cons_self⟩
  · intro m' hm' hnew hlinked
    obtain ⟨hm, -⟩ | ⟨-, -, hloading⟩ := hmem m' hm'
    · exact h.done.completion m' hm hnew hlinked
    · rw [hlinked] at hloading
      cases hloading
  · intro a ha b hb hna hnb hla hlb hab
    obtain ⟨ha, -⟩ | ⟨-, -, hloading⟩ := hmem a ha
    · obtain ⟨hb, -⟩ | ⟨-, -, hloading⟩ := hmem b hb
      · exact h.done.distinct a ha b hb hna hnb hla hlb hab
      · rw [hlb] at hloading
        cases hloading
    · rw [hla] at hloading
      cases hloading

end Win98Modern.Loader
