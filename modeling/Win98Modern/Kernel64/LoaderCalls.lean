import Win98Modern.Kernel64.LoaderLinks
import Win98Modern.Kernel64.LoaderRelease

/-!
# The calls of the loader

Between two calls every module is linked or prepared and its image is mapped, the prepared ones are
those of the retirement, and no other has an edge to them (`Wf`).  Each call keeps this; PREPARE selects
the modules that no root reaches (`mem_selected_iff`).
-/

namespace Win98Modern.Loader

open List

variable {p q r : Process} {id : Nat} {m : Module}

/-- The state between two calls. -/
structure Wf (p : Process) : Prop where
  tidy : Tidy p
  images : ImagesOk p
  zero : 0 ∉ p.mapped
  base : ∀ m ∈ p.modules, m.base ∈ p.mapped
  inj : ∀ a ∈ p.modules, ∀ b ∈ p.modules, a.base = b.base → a.id = b.id
  from_module : ∀ b ∈ p.mapped, ∃ m ∈ p.modules, m.base = b
  state : ∀ m ∈ p.modules, m.state = if m.retiring then .prepared else .linked
  completion : ∀ m ∈ p.modules, m.completion ≤ p.initCounter
  distinct : ∀ a ∈ p.modules, ∀ b ∈ p.modules, a.completion = b.completion → a.id = b.id
  retiring : ∀ m ∈ p.modules, m.retiring = true ↔ ∃ tx, p.retirement = some tx ∧ m.id ∈ tx.nodes
  nodes : ∀ tx, p.retirement = some tx → tx.nodes.Nodup ∧ ∀ i ∈ tx.nodes, i ∈ p.ids
  freed_nodup : p.freed.Nodup
  freed : ∀ i ∈ p.freed, i ∉ p.ids ∧ i < p.nextId

theorem Wf.listed (h : Wf p) : Listed p := ⟨h.tidy.nodup, h.tidy.lt, h.images, h.zero⟩

theorem Wf.id_lt (h : Wf p) (hid : id ∈ p.ids) : id < p.nextId := by
  obtain ⟨m, hm, rfl⟩ := mem_ids.1 hid
  exact h.tidy.lt m hm

/-! ### A load -/

theorem Grow.refl (h : Tidy p) (himages : ImagesOk p) (hnew : ∀ m ∈ p.modules, m.id < p.nextId) :
    Grow p p := by
  refine ⟨h, himages, Nat.le_refl _, Nat.le_refl _, ⟨[], rfl, nofun⟩, ?_, ?_, ⟨[], rfl, nofun⟩,
    rfl, rfl, rfl, rfl⟩
  · exact fun m hm _ => ⟨m, hm, [], rfl, nofun⟩
  · intro m hm hge
    exact absurd (hnew m hm) (Nat.not_lt.2 hge)

theorem Wf.going (h : Wf p) : Going p [] p := by
  have hno : ∀ m ∈ p.modules, ¬p.nextId ≤ m.id := fun m hm => Nat.not_le.2 (h.tidy.lt m hm)
  refine ⟨.refl h.tidy h.images h.tidy.lt, ⟨h.zero, Finset.Subset.refl _, ?_, ?_⟩, ⟨?_, ?_, ?_, ?_, ?_⟩⟩
  · exact fun m hm hge => absurd hge (hno m hm)
  · exact fun b hb hnot => absurd hb hnot
  · exact fun m hm hge => absurd hge (hno m hm)
  · exact fun a ha b _ hge => absurd hge (hno a ha)
  · exact fun m hm hge => absurd hge (hno m hm)
  · exact fun m hm hge => absurd hge (hno m hm)
  · exact fun a ha b _ hge => absurd hge (hno a ha)

theorem Going.wf (hp : Wf p) (h : Going p [] q) : Wf q := by
  have hg := h.grow
  have hkind : ∀ m ∈ q.modules, (∃ m₀ ∈ p.modules, m.id = m₀.id ∧ m.base = m₀.base ∧
      m.state = m₀.state ∧ m.retiring = m₀.retiring ∧ m.completion = m₀.completion) ∨ p.nextId ≤ m.id := by
    intro m hm
    by_cases hold : m.id < p.nextId
    · obtain ⟨m₀, hm₀, extra, rfl, -⟩ := hg.old m hm hold
      exact .inl ⟨m₀, hm₀, rfl, rfl, rfl, rfl, rfl⟩
    · exact .inr (Nat.not_lt.1 hold)
  have hlinked : ∀ m ∈ q.modules, p.nextId ≤ m.id → m.state = .linked := fun m hm hge =>
    (h.done.state m hm hge).resolve_right fun hc => by cases hc.2
  obtain ⟨hretirement, -, hfreed, -⟩ := hg.same
  obtain ⟨fresh, hids, hfresh⟩ := hg.ids
  refine ⟨hg.tidy, hg.images, h.bases.zero, ?_, ?_, ?_, ?_, ?_, ?_, ?_, ?_, ?_, ?_⟩
  · intro m hm
    obtain ⟨m₀, hm₀, -, hbase, -⟩ | hge := hkind m hm
    · rw [hbase]
      exact h.bases.sub (hp.base m₀ hm₀)
    · exact h.done.base m hm hge
  · intro a ha b hb hab
    obtain ⟨a₀, ha₀, haid, habase, -⟩ | hna := hkind a ha <;>
      obtain ⟨b₀, hb₀, hbid, hbbase, -⟩ | hnb := hkind b hb
    · rw [haid, hbid]
      exact hp.inj a₀ ha₀ b₀ hb₀ (habase ▸ hbbase ▸ hab)
    · exact absurd (hp.base a₀ ha₀) (by rw [← habase, hab]; exact h.bases.new b hb hnb)
    · exact absurd (hp.base b₀ hb₀) (by rw [← hbbase, ← hab]; exact h.bases.new a ha hna)
    · exact h.done.inj a ha b hb hna hnb hab
  · intro b hb
    by_cases hold : b ∈ p.mapped
    · obtain ⟨m₀, hm₀, rfl⟩ := hp.from_module b hold
      obtain ⟨extra, hm, -⟩ := hg.keeps hp.tidy hm₀
      exact ⟨_, hm, rfl⟩
    · obtain ⟨m, hm, -, hbase⟩ := h.bases.from_new b hb hold
      exact ⟨m, hm, hbase⟩
  · intro m hm
    obtain ⟨m₀, hm₀, -, -, hstate, hret, -⟩ | hge := hkind m hm
    · rw [hstate, hret]
      exact hp.state m₀ hm₀
    · rw [hlinked m hm hge, (hg.new m hm hge).2.2.2]
      rfl
  · intro m hm
    obtain ⟨m₀, hm₀, -, -, -, -, hcomp⟩ | hge := hkind m hm
    · rw [hcomp]
      exact (hp.completion m₀ hm₀).trans hg.counter
    · exact (h.done.completion m hm hge (hlinked m hm hge)).2
  · intro a ha b hb hab
    obtain ⟨a₀, ha₀, haid, -, -, -, hac⟩ | hna := hkind a ha <;>
      obtain ⟨b₀, hb₀, hbid, -, -, -, hbc⟩ | hnb := hkind b hb
    · rw [haid, hbid]
      exact hp.distinct a₀ ha₀ b₀ hb₀ (hac ▸ hbc ▸ hab)
    · have h1 := hp.completion a₀ ha₀
      have h2 := (h.done.completion b hb hnb (hlinked b hb hnb)).1
      omega
    · have h1 := hp.completion b₀ hb₀
      have h2 := (h.done.completion a ha hna (hlinked a ha hna)).1
      omega
    · exact h.done.distinct a ha b hb hna hnb (hlinked a ha hna) (hlinked b hb hnb) hab
  · intro m hm
    rw [hretirement]
    obtain ⟨m₀, hm₀, hid, -, -, hret, -⟩ | hge := hkind m hm
    · rw [hret, hid]
      exact hp.retiring m₀ hm₀
    · refine iff_of_false (by rw [(hg.new m hm hge).2.2.2]; nofun) ?_
      rintro ⟨tx, htx, hin⟩
      have := hp.id_lt ((hp.nodes tx htx).2 _ hin)
      omega
  · intro tx htx
    rw [hretirement] at htx
    obtain ⟨hnodup, hin⟩ := hp.nodes tx htx
    refine ⟨hnodup, fun i hi => ?_⟩
    rw [hids]
    exact mem_append_right _ (hin i hi)
  · rw [hfreed]
    exact hp.freed_nodup
  · rw [hfreed]
    intro i hi
    obtain ⟨hnot, hlt⟩ := hp.freed i hi
    refine ⟨fun hin => ?_, hlt.trans_le hg.next⟩
    rw [hids] at hin
    obtain hin | hin := mem_append.1 hin
    · have := hfresh i hin
      omega
    · exact hnot hin

/-- `r` is `p` but for edges between its records, each of them new. -/
structure Undone (p r : Process) : Prop where
  tidy : Tidy r
  images : ImagesOk r
  ids : r.ids = p.ids
  record : ∀ m ∈ r.modules, ∃ m₀ ∈ p.modules, ∃ extra, m = { m₀ with edges := extra ++ m₀.edges } ∧
    ∀ e ∈ extra, (m.id, e) ∈ newLinks p r ∧ e ∈ p.ids
  mapped : r.mapped = p.mapped
  tlsSlots : r.tlsSlots = p.tlsSlots
  retirement : r.retirement = p.retirement
  counter : p.initCounter ≤ r.initCounter
  next : p.nextId ≤ r.nextId
  freed : ∃ fresh : List Nat, r.freed = fresh.reverse ++ p.freed ∧ fresh.Nodup ∧
    ∀ i ∈ fresh, p.nextId ≤ i ∧ i < r.nextId

theorem rollback_spec (hp : Wf p) (h : Failed p q) :
    Undone p (rollback (p.modules.head?.map Module.id) p.tlsSlots q) ∧
      newLinks p (rollback (p.modules.head?.map Module.id) p.tlsSlots q) = newLinks p q := by
  have hg := h.grow
  obtain ⟨fresh, hids, hfresh⟩ := hg.ids
  obtain ⟨hretirement, -, hfreed, -⟩ := hg.same
  have hold : ∀ i ∈ p.ids, i ∉ fresh := by
    intro i hi hin
    have h1 := hfresh i hin
    have h2 := hp.id_lt hi
    omega
  have hlisted : Listed q := ⟨hg.tidy.nodup, hg.tidy.lt, hg.images, h.bases.zero⟩
  have hlen : fresh.length ≤ q.modules.length := by
    have hl := congrArg List.length hids
    rw [length_append, Process.ids, length_map] at hl
    omega
  have hmark : p.modules.head?.map Module.id = p.ids.head? := List.head?_map.symm
  obtain ⟨hrel, hlist⟩ := rollbackLoop_spec fresh hlisted hids hlen
  rw [← hmark] at hrel hlist
  have hrollback : rollback (p.modules.head?.map Module.id) p.tlsSlots q =
      { rollbackLoop (p.modules.head?.map Module.id) q.modules.length q with tlsSlots := p.tlsSlots } := rfl
  rw [hrollback]
  generalize rollbackLoop (p.modules.head?.map Module.id) q.modules.length q = s at hrel hlist
  have hrest := hrel.rest
  have hids' : s.ids = p.ids := by
    rw [hrel.ids, hids, filter_append, filter_eq_nil_iff.2, filter_eq_self.2, nil_append]
    · intro i hi
      exact decide_eq_true (hold i hi)
    · intro i hi
      rw [decide_eq_true_eq, not_not]
      exact hi
  have hin : ∀ i ∈ q.ids, i ∉ fresh → i ∈ p.ids := by
    intro i hi hnot
    rw [hids] at hi
    exact (mem_append.1 hi).resolve_left hnot
  have htidy : Tidy s := hrel.tidy hg.tidy
  have hlinked : newLinks p { s with tlsSlots := p.tlsSlots } = newLinks p q := by
    unfold newLinks
    show s.linked.take (s.linked.length - p.linked.length) = _
    rw [hrest]
  refine ⟨?_, hlinked⟩
  refine ⟨⟨htidy.nodup, htidy.lt, htidy.edges, htidy.kept⟩, ?_, hids', ?_, ?_, rfl, ?_, ?_, ?_, ?_⟩
  · have himages := hlist.images
    exact ⟨himages.live, himages.gone, himages.nodup, himages.freed, himages.used, himages.unused⟩
  · intro m hm
    rw [hrel.modules] at hm
    obtain ⟨m₁, hm₁, hid, rfl⟩ := mem_without.1 hm
    obtain ⟨m₀, hm₀, extra, rfl, hextra⟩ :=
      hg.old m₁ hm₁ (hp.id_lt (hin _ (mem_map_of_mem hm₁) hid))
    refine ⟨m₀, hm₀, extra.filter fun e => e ∉ fresh, ?_, fun e he => ?_⟩
    · have hedges : (m₀.edges.filter fun e => e ∉ fresh) = m₀.edges :=
        filter_eq_self.2 fun e he => decide_eq_true (hold e (hp.tidy.edges m₀ hm₀ e he))
      simp only [filter_append, hedges]
    · rw [mem_filter, decide_eq_true_eq] at he
      refine ⟨?_, hin e (hg.tidy.edges _ hm₁ e (mem_append_left _ he.1)) he.2⟩
      rw [hlinked]
      exact hextra e he.1
  · ext b
    show b ∈ s.mapped ↔ b ∈ p.mapped
    rw [hrel.mapped]
    constructor
    · rintro ⟨hb, hall⟩
      by_contra hnot
      obtain ⟨m, hm, hge, hbase⟩ := h.bases.from_new b hb hnot
      refine hall m hm ?_ hbase
      by_contra hfr
      have := hp.id_lt (hin _ (mem_map_of_mem hm) hfr)
      omega
    · intro hb
      refine ⟨h.bases.sub hb, fun m hm hmem hbase => ?_⟩
      exact h.bases.new m hm (hfresh _ hmem) (hbase ▸ hb)
  · show s.retirement = p.retirement
    rw [hrest]
    exact hretirement
  · show p.initCounter ≤ s.initCounter
    rw [hrest]
    exact hg.counter
  · show p.nextId ≤ s.nextId
    rw [hrest]
    exact hg.next
  · have hnodup := hg.tidy.nodup
    rw [hids] at hnodup
    refine ⟨fresh, ?_, (nodup_append.1 hnodup).1, fun i hi => ⟨hfresh i hi, ?_⟩⟩
    · show s.freed = _
      rw [hrel.freed, hfreed]
    · show i < s.nextId
      rw [hrest]
      obtain ⟨m, hm, rfl⟩ := mem_ids.1 (show i ∈ q.ids by
        rw [hids]
        exact mem_append_left _ hi)
      exact hg.tidy.lt m hm

/-- Records that differ in edges and references only, the edges and the lists of the freed apart. -/
theorem Wf.of_matched (h : Wf p) (hm : Matched SameProgress p r) (htidy : Tidy r) (himages : ImagesOk r)
    (hids : r.ids = p.ids) (hmapped : r.mapped = p.mapped) (hretirement : r.retirement = p.retirement)
    (hcounter : p.initCounter ≤ r.initCounter) (hnodup : r.freed.Nodup)
    (hfreed : ∀ i ∈ r.freed, i ∉ r.ids ∧ i < r.nextId) : Wf r := by
  refine ⟨htidy, himages, ?_, ?_, ?_, ?_, ?_, ?_, ?_, ?_, ?_, hnodup, hfreed⟩
  · rw [hmapped]
    exact h.zero
  · intro m' hm'
    obtain ⟨m, hmem, hsame⟩ := hm.back m' hm'
    rw [hsame.base, hmapped]
    exact h.base m hmem
  · intro a' ha' b' hb' hab
    obtain ⟨a, ha, hsa⟩ := hm.back a' ha'
    obtain ⟨b, hb, hsb⟩ := hm.back b' hb'
    rw [hsa.id, hsb.id]
    exact h.inj a ha b hb (hsa.base ▸ hsb.base ▸ hab)
  · intro b hb
    rw [hmapped] at hb
    obtain ⟨m, hmem, rfl⟩ := h.from_module b hb
    obtain ⟨m', hm', hsame⟩ := hm.forth m hmem
    exact ⟨m', hm', hsame.base⟩
  · intro m' hm'
    obtain ⟨m, hmem, hsame⟩ := hm.back m' hm'
    rw [hsame.state, hsame.retiring]
    exact h.state m hmem
  · intro m' hm'
    obtain ⟨m, hmem, hsame⟩ := hm.back m' hm'
    rw [hsame.completion]
    exact (h.completion m hmem).trans hcounter
  · intro a' ha' b' hb' hab
    obtain ⟨a, ha, hsa⟩ := hm.back a' ha'
    obtain ⟨b, hb, hsb⟩ := hm.back b' hb'
    rw [hsa.id, hsb.id]
    exact h.distinct a ha b hb (hsa.completion ▸ hsb.completion ▸ hab)
  · intro m' hm'
    obtain ⟨m, hmem, hsame⟩ := hm.back m' hm'
    rw [hsame.retiring, hsame.id, hretirement]
    exact h.retiring m hmem
  · rw [hretirement, hids]
    exact h.nodes

theorem Undone.wf (hp : Wf p) (h : Undone p r) : Wf r := by
  have hmatch : Matched SameProgress p r := by
    refine ⟨fun m hm => ?_, fun m₀ hm₀ => ?_⟩
    · obtain ⟨m₀, hm₀, extra, rfl, -⟩ := h.record m hm
      exact ⟨m₀, hm₀, rfl, rfl, rfl, rfl, rfl⟩
    · obtain ⟨m, hm, hid⟩ := mem_ids.1 (show m₀.id ∈ r.ids by
        rw [h.ids]
        exact mem_map_of_mem hm₀)
      obtain ⟨m₁, hm₁, extra, rfl, -⟩ := h.record m hm
      obtain rfl := hp.tidy.unique hm₁ hm₀ hid
      exact ⟨_, hm, rfl, rfl, rfl, rfl, rfl⟩
  obtain ⟨fresh, hfreed, hnodup, hfresh⟩ := h.freed
  refine hp.of_matched hmatch h.tidy h.images h.ids h.mapped h.retirement h.counter ?_ ?_
  · rw [hfreed]
    refine nodup_append.2 ⟨nodup_reverse.2 hnodup, hp.freed_nodup, ?_⟩
    rintro i hi _ hj rfl
    have h1 := (hfresh i (mem_reverse.1 hi)).1
    have h2 := (hp.freed i hj).2
    omega
  · intro i hi
    rw [hfreed] at hi
    rw [h.ids]
    obtain hi | hi := mem_append.1 hi
    · obtain ⟨hge, hlt⟩ := hfresh i (mem_reverse.1 hi)
      refine ⟨fun hin => ?_, hlt⟩
      have := hp.id_lt hin
      omega
    · obtain ⟨hnot, hlt⟩ := hp.freed i hi
      exact ⟨hnot, hlt.trans_le h.next⟩

theorem Undone.modules_eq (hp : Wf p) (h : Undone p r)
    (hno : ∀ e ∈ newLinks p r, e.1 ∈ p.ids → e.2 ∉ p.ids) : r.modules = p.modules := by
  have hsame : ∀ m ∈ r.modules, m ∈ p.modules := by
    intro m hm
    obtain ⟨m₀, hm₀, extra, rfl, hextra⟩ := h.record m hm
    have hnil : extra = [] := by
      apply eq_nil_iff_forall_not_mem.2
      intro e he
      obtain ⟨hlink, hin⟩ := hextra e he
      exact hno _ hlink (mem_map_of_mem hm₀) hin
    subst hnil
    exact hm₀
  apply ext_getElem
  · have := congrArg List.length h.ids
    rwa [Process.ids, Process.ids, length_map, length_map] at this
  · intro i hi hi'
    apply hp.tidy.unique (hsame _ (getElem_mem hi)) (getElem_mem hi')
    have := getElem_of_eq h.ids (by rw [Process.ids, length_map]; exact hi)
    simpa [Process.ids] using this

/-! ### References -/

/-- Only the references differ. -/
structure SameButRefs (m m' : Module) : Prop extends SameLinks m m', SameProgress m m'

theorem SameButRefs.refl (m : Module) : SameButRefs m m := ⟨⟨rfl, rfl, rfl, rfl⟩, rfl, rfl, rfl⟩

theorem Wf.map (h : Wf p) {f : Module → Module} (hf : ∀ m, SameButRefs m (f m)) :
    Wf { p with modules := p.modules.map f } := by
  have hmatch : Matched SameButRefs p { p with modules := p.modules.map f } := by
    refine ⟨fun m' hm' => ?_, fun m hm => ⟨f m, mem_map_of_mem hm, hf m⟩⟩
    obtain ⟨m, hm, rfl⟩ := mem_map.1 hm'
    exact ⟨m, hm, hf m⟩
  have hids : ({ p with modules := p.modules.map f } : Process).ids = p.ids := by
    unfold Process.ids
    rw [map_map]
    exact map_congr_left fun m _ => (hf m).id
  have htidy := (hmatch.mono fun _ _ hs => hs.toSameLinks).tidy hids rfl h.tidy
  have himages := hmatch.images (fun _ _ hs => ⟨hs.id, hs.isLazy⟩) rfl h.images
  exact h.of_matched (hmatch.mono fun _ _ hs => hs.toSameProgress) htidy himages hids rfl rfl (Nat.le_refl _)
    h.freed_nodup (hids.symm ▸ h.freed)

theorem Wf.update (h : Wf p) {f : Module → Module} (hf : ∀ m, SameButRefs m (f m)) :
    Wf (p.update id f) := by
  apply h.map
  intro m
  split
  · exact hf m
  · exact .refl m

theorem addref_cases (base : Nat) (pin written : Bool) (p : Process) :
    (∃ st, addref base pin written p = (p, .error st)) ∨
    ∃ id, ∃ f : Module → Module, (∀ m, SameButRefs m (f m)) ∧
      addref base pin written p = (p.update id f, .ok ()) := by
  unfold addref
  cases p.modules.reverse.find? fun m => m.base = base with
  | none => exact .inl ⟨_, rfl⟩
  | some m =>
    simp only
    split_ifs
    · exact .inl ⟨_, rfl⟩
    · exact .inl ⟨_, rfl⟩
    · exact .inr ⟨m.id, fun x => { x with pinned := true }, fun m => ⟨⟨rfl, rfl, rfl, rfl⟩, rfl, rfl, rfl⟩,
        rfl⟩
    · exact .inr ⟨m.id, fun x => { x with refs := x.refs + 1 },
        fun m => ⟨⟨rfl, rfl, rfl, rfl⟩, rfl, rfl, rfl⟩, rfl⟩
    · exact .inl ⟨_, rfl⟩

theorem addref_wf (h : Wf p) (base : Nat) (pin written : Bool) : Wf (addref base pin written p).1 := by
  obtain ⟨st, heq⟩ | ⟨id, f, hf, heq⟩ := addref_cases base pin written p <;> rw [heq]
  · exact h
  · exact h.update hf

/-- A failing load leaves the list as it was but for edges of forwarders that it asked for; another one has
linked what it has loaded. -/
theorem loadRuntime_cases (hp : Wf p) (env : Env) (nest : Nat) (name : String) (publish : Bool) :
    (∃ st q, loadRuntime env nest name publish p = (q, .error st) ∧ Undone p q ∧ ∀ e ∈ newLinks p q,
      e.1 ∈ p.ids → e.2 ∈ p.ids → e.1 ≠ e.2 ∧ ¬Edge p e.1 e.2 ∧ Forwards env p (Asks env p name) e.1 e.2) ∨
    ∃ base q id, loadRuntime env nest name publish p =
      (q.update id fun x => { x with refs := x.refs + 1 }, .ok base) ∧ Going p [] q ∧
        Trail env p (search env p name) q := by
  have hbody : Failing.Spec (At env p (search env p name) [] fun _ => True) (do
      let r ← resolveDllName env (env.baseName name)
      loadDll env nest 0 (if r.2 then r.1 else name) r.2 : Load Module)
      (fun _ => At env p (search env p name) [] fun _ => True) (Left env p (search env p name)) := by
    refine resolveDllName_bind _ (fun _ h => h.left) fun host api hset => ?_
    exact (loadDll_spec hp.tidy (closed_search env p name) nest []).plain 0 (Asks.load hset)
  have hundo : ∀ {q}, Left env p (search env p name) q → ∀ {r},
      r = rollback (p.modules.head?.map Module.id) p.tlsSlots q → Undone p r ∧ ∀ e ∈ newLinks p r,
        e.1 ∈ p.ids → e.2 ∈ p.ids → e.1 ≠ e.2 ∧ ¬Edge p e.1 e.2 ∧ Forwards env p (Asks env p name) e.1 e.2 := by
    rintro q hq _ rfl
    obtain ⟨hundone, hlinks⟩ := rollback_spec hp hq.failed
    refine ⟨hundone, fun e he hs ht => ?_⟩
    rw [hlinks] at he
    obtain ⟨hne, hfwd⟩ := hq.trail.links e he hs ht
    obtain ⟨links, heq, hl⟩ := hq.failed.grow.linked
    rw [newLinks_append heq] at he
    exact ⟨hne, fun ⟨m, hm, hid, hmem⟩ => (hl e he).2 m hm hid hmem, hfwd⟩
  unfold loadRuntime
  obtain ⟨hok, herr⟩ := hbody p ⟨hp.going, trail_refl env p _, trivial⟩
  simp only
  split
  · rename_i q st heq
    exact .inl ⟨st, _, rfl, hundo (herr st q heq) rfl⟩
  · rename_i q m heq
    have hat := hok m q heq
    cases q.modules.find? fun x => x.id = m.id with
    | none => exact .inl ⟨_, _, rfl, hundo hat.left rfl⟩
    | some m =>
      simp only
      split_ifs
      · exact .inl ⟨_, _, rfl, hundo hat.left rfl⟩
      · exact .inr ⟨m.base, q, m.id, rfl, hat.going, hat.trail⟩
      · exact .inl ⟨_, _, rfl, hundo hat.left rfl⟩

theorem loadRuntime_wf (hp : Wf p) (env : Env) (nest : Nat) (name : String) (publish : Bool) :
    Wf (loadRuntime env nest name publish p).1 := by
  obtain ⟨st, q, heq, hundone, -⟩ | ⟨base, q, id, heq, hgoing, -⟩ :=
    loadRuntime_cases hp env nest name publish
  · rw [heq]
    exact hundone.wf hp
  · rw [heq]
    exact (hgoing.wf hp).update fun m => ⟨⟨rfl, rfl, rfl, rfl⟩, rfl, rfl, rfl⟩

/-! ### PREPARE -/

/-- A module of the startup, a pinned or a referenced one. -/
def IsRoot (p : Process) (i : Nat) : Prop :=
  ∃ m ∈ p.modules, m.id = i ∧ m.retiring = false ∧ (m.root = true ∨ m.pinned = true ∨ m.refs ≠ 0)

/-- A module that a root reaches along the edges. -/
def Needed (p : Process) (i : Nat) : Prop := ∃ r, IsRoot p r ∧ Relation.ReflTransGen (Edge p) r i

theorem Wf.not_retiring (h : Wf p) (hno : p.retirement = none) {m : Module} (hm : m ∈ p.modules) :
    m.retiring = false := by
  rw [← Bool.not_eq_true, h.retiring m hm, hno]
  rintro ⟨tx, htx, -⟩
  cases htx

theorem mem_liveEdges_iff (h : Wf p) (hno : p.retirement = none) {i j : Nat} :
    j ∈ liveEdges p i ↔ Edge p i j := by
  have hret : isRetiring p j = false := by
    unfold isRetiring
    rw [any_eq_false]
    intro m hm
    rw [h.not_retiring hno hm]
    simp
  unfold liveEdges Edge
  simp only [mem_flatMap, mem_filter, decide_eq_true_eq, and_assoc]
  refine exists_congr fun m => and_congr_right fun _ => and_congr_right fun _ => ?_
  rw [hret]
  simp

theorem mem_roots_iff {i : Nat} : i ∈ roots p ↔ IsRoot p i := by
  unfold roots IsRoot
  rw [mem_toFinset, mem_map]
  constructor
  · rintro ⟨m, hm, rfl⟩
    rw [mem_filter, decide_eq_true_eq] at hm
    exact ⟨m, hm.1, rfl, Bool.eq_false_iff.2 hm.2.1, hm.2.2⟩
  · rintro ⟨m, hm, rfl, hret, hroot⟩
    refine ⟨m, ?_, rfl⟩
    rw [mem_filter, decide_eq_true_eq]
    exact ⟨hm, Bool.eq_false_iff.1 hret, hroot⟩

/-- **The marks.** -/
theorem mem_reachable_iff (h : Wf p) (hno : p.retirement = none) {i : Nat} :
    i ∈ reachable p ↔ Needed p i := by
  have hroots : ∀ a ∈ roots p, a ∈ p.ids := by
    intro a ha
    obtain ⟨m, hm, rfl, -⟩ := mem_roots_iff.1 ha
    exact mem_map_of_mem hm
  have hnext : ∀ n ∈ p.ids, ∀ a ∈ liveEdges p n, a ∈ p.ids := by
    intro n _ a ha
    obtain ⟨m, hm, -, hmem⟩ := (mem_liveEdges_iff h hno).1 ha
    exact h.tidy.edges m hm a hmem
  have hfuel : p.ids.length < p.modules.length + 1 := by
    unfold Process.ids
    rw [length_map]
    exact Nat.lt_succ_self _
  have hedge : (fun x y => y ∈ liveEdges p x) = Edge p := by
    funext x y
    exact propext (mem_liveEdges_iff h hno)
  unfold reachable Needed
  rw [mem_mark_iff hroots hnext hfuel, hedge]
  exact exists_congr fun r => and_congr_left fun _ => mem_roots_iff

theorem exchange_perm (a : Module) (l : List Module) :
    ((exchange a l).1 :: (exchange a l).2).Perm (a :: l) := by
  induction l generalizing a with
  | nil => exact .refl _
  | cons x xs ih =>
    unfold exchange
    split
    · calc (exchange x xs).1 :: a :: (exchange x xs).2
        _ |>.Perm (a :: (exchange x xs).1 :: (exchange x xs).2) := .swap ..
        _ |>.Perm (a :: x :: xs) := (ih x).cons a
    · calc (exchange a xs).1 :: x :: (exchange a xs).2
        _ |>.Perm (x :: (exchange a xs).1 :: (exchange a xs).2) := .swap ..
        _ |>.Perm (x :: a :: xs) := (ih a).cons x
        _ |>.Perm (a :: x :: xs) := .swap ..

theorem exchange_le (a : Module) (l : List Module) :
    ∀ x ∈ a :: l, x.initSeq ≤ (exchange a l).1.initSeq := by
  induction l generalizing a with
  | nil =>
    intro x hx
    rw [mem_singleton.1 hx]
    exact Nat.le_refl _
  | cons y ys ih =>
    intro x hx
    unfold exchange
    split
    · rename_i hlt
      have hy := ih y y mem_cons_self
      obtain rfl | hx := mem_cons.1 hx
      · exact hlt.le.trans hy
      · exact ih y x hx
    · rename_i hge
      have ha := ih a a mem_cons_self
      obtain rfl | hx := mem_cons.1 hx
      · exact ha
      · obtain rfl | hx := mem_cons.1 hx
        · exact (Nat.not_lt.1 hge).trans ha
        · exact ih a x (mem_cons_of_mem a hx)

theorem latestFirst_spec (fuel : Nat) : ∀ {l : List Module}, l.length ≤ fuel →
    (latestFirst fuel l).Perm l ∧ (latestFirst fuel l).Pairwise fun a b => b.initSeq ≤ a.initSeq := by
  induction fuel with
  | zero =>
    intro l hl
    rw [length_eq_zero_iff.1 (Nat.le_zero.1 hl)]
    exact ⟨.refl _, .nil⟩
  | succ fuel ih =>
    intro l hl
    cases l with
    | nil => exact ⟨.refl _, .nil⟩
    | cons a xs =>
      have hperm := exchange_perm a xs
      have hlen : (exchange a xs).2.length ≤ fuel := by
        have := hperm.length_eq
        rw [length_cons, length_cons] at this
        rw [length_cons] at hl
        omega
      obtain ⟨hrest, hsorted⟩ := ih hlen
      refine ⟨(hrest.cons _).trans hperm, pairwise_cons.2 ⟨fun b hb => ?_, hsorted⟩⟩
      exact exchange_le a xs b (hperm.subset (mem_cons_of_mem _ (hrest.subset hb)))

theorem dropRef_wf (h : Wf p) (id : Nat) : Wf (dropRef id p) :=
  h.update fun _ => ⟨⟨rfl, rfl, rfl, rfl⟩, rfl, rfl, rfl⟩

theorem dropRef_ids (p : Process) (id : Nat) : (dropRef id p).ids = p.ids := ids_update fun _ => rfl

theorem mem_selected_iff (h : Wf p) (hno : p.retirement = none) {i : Nat} :
    i ∈ selected p ↔ i ∈ p.ids ∧ ¬Needed p i := by
  unfold selected
  rw [mem_map]
  constructor
  · rintro ⟨m, hm, rfl⟩
    have hm := (latestFirst_spec _ (Nat.le_refl _)).1.subset hm
    rw [unreachable, mem_filter, decide_eq_true_eq, mem_reachable_iff h hno] at hm
    exact ⟨mem_map_of_mem hm.1, hm.2.1⟩
  · rintro ⟨hi, hnot⟩
    obtain ⟨m, hm, rfl⟩ := mem_ids.1 hi
    refine ⟨m, (latestFirst_spec _ (Nat.le_refl _)).1.symm.subset ?_, rfl⟩
    rw [unreachable, mem_filter, decide_eq_true_eq, mem_reachable_iff h hno]
    refine ⟨hm, hnot, ?_⟩
    rw [h.state m hm, h.not_retiring hno hm]
    rfl

theorem selected_nodup (h : Wf p) : (selected p).Nodup := by
  have hsub : ((unreachable p).map Module.id).Sublist p.ids := filter_sublist.map _
  exact ((latestFirst_spec _ (Nat.le_refl _)).1.map Module.id).nodup_iff.2 (h.tidy.nodup.sublist hsub)

theorem selected_sorted (p : Process) : (selected p).Pairwise fun i j =>
    ∃ a ∈ p.modules, ∃ b ∈ p.modules, a.id = i ∧ b.id = j ∧ b.initSeq ≤ a.initSeq := by
  unfold selected
  rw [pairwise_map]
  obtain ⟨hperm, hsorted⟩ := latestFirst_spec (unreachable p).length (l := unreachable p) (Nat.le_refl _)
  refine hsorted.imp_of_mem fun {a b} ha hb hab => ?_
  have ha := mem_filter.1 (hperm.subset ha)
  have hb := mem_filter.1 (hperm.subset hb)
  exact ⟨a, ha.1, b, hb.1, rfl, rfl, hab⟩

/-- The state after PREPARE has selected records. -/
def prepared (tid : Nat) (q : Process) : Process :=
  if selected q = [] then q
  else { setRetiring (selected q) q with
    retireSequence := q.retireSequence + 1
    retirement := some ⟨q.retireSequence + 1, tid, selected q⟩ }

theorem prepare_cases (base capacity : Nat) (io : PrepareIo) (p : Process) :
    (∃ st, prepare base capacity io p = (p, .error st)) ∨
    ∃ m ∈ p.modules, m.base = base ∧ p.retirement = none ∧
      prepare base capacity io p = (prepared io.tid (dropRef m.id p), .ok (selected (dropRef m.id p))) := by
  unfold prepare
  by_cases hcap : 1024 < capacity
  · rw [if_pos hcap]
    exact .inl ⟨_, rfl⟩
  rw [if_neg hcap]
  cases hfind : p.modules.reverse.find? fun m => m.base = base with
  | none => exact .inl ⟨_, rfl⟩
  | some m =>
    have hm : m ∈ p.modules := mem_reverse.1 (mem_of_find?_eq_some hfind)
    have hbase : m.base = base := by simpa using List.find?_some hfind
    simp only
    by_cases hlinked : m.state ≠ .linked ∨ m.retiring
    · rw [if_pos hlinked]
      exact .inl ⟨_, rfl⟩
    rw [if_neg hlinked]
    by_cases hno : p.retirement ≠ none
    · rw [if_pos hno]
      exact .inl ⟨_, rfl⟩
    rw [if_neg hno]
    by_cases hrefs : m.refs = 0 ∧ ¬m.root ∧ ¬m.pinned
    · rw [if_pos hrefs]
      exact .inl ⟨_, rfl⟩
    rw [if_neg hrefs]
    by_cases hmax : 1024 < p.modules.length ∨ p.retireSequence = 2 ^ 64 - 1
    · rw [if_pos hmax]
      exact .inl ⟨_, rfl⟩
    rw [if_neg hmax]
    by_cases halloc : ¬io.allocated
    · rw [if_pos halloc]
      exact .inl ⟨_, rfl⟩
    rw [if_neg halloc]
    cases (unreachable (dropRef m.id p)).findSome? (retireCheck io) with
    | some st => exact .inl ⟨_, rfl⟩
    | none =>
      by_cases hlong : capacity < (unreachable (dropRef m.id p)).length
      · rw [if_pos hlong]
        exact .inl ⟨_, rfl⟩
      rw [if_neg hlong]
      by_cases hcopy : ¬io.copied ∨ ¬io.counted
      · rw [if_pos hcopy]
        exact .inl ⟨_, rfl⟩
      rw [if_neg hcopy]
      refine .inr ⟨m, hm, hbase, not_not.1 hno, ?_⟩
      unfold prepared
      by_cases hnil : selected (dropRef m.id p) = []
      · rw [if_pos hnil, if_pos hnil]
      · rw [if_neg hnil, if_neg hnil]
        rfl

theorem setRetiring_ids (nodes : List Nat) (q : Process) : (setRetiring nodes q).ids = q.ids := by
  unfold setRetiring Process.ids
  rw [map_map]
  apply map_congr_left
  intro m _
  show Module.id (if m.id ∈ nodes then _ else m) = m.id
  split <;> rfl

theorem prepared_ids (tid : Nat) (q : Process) : (prepared tid q).ids = q.ids := by
  unfold prepared
  split
  · rfl
  · exact setRetiring_ids _ q

/-- What a selection leaves of a record: all but the mark and the state. -/
theorem mem_setRetiring (h : Wf q) (hno : q.retirement = none) {nodes : List Nat} {m' : Module}
    (hm' : m' ∈ (setRetiring nodes q).modules) : ∃ m ∈ q.modules, m'.id = m.id ∧
      m'.base = m.base ∧ m'.lazy = m.lazy ∧ m'.edges = m.edges ∧ m'.completion = m.completion ∧
      (m'.retiring = true ↔ m.id ∈ nodes) ∧
      m'.state = if m'.retiring then .prepared else .linked := by
  obtain ⟨m, hm, rfl⟩ := mem_map.1 hm'
  refine ⟨m, hm, ?_⟩
  by_cases hin : m.id ∈ nodes
  · rw [if_pos hin]
    exact ⟨rfl, rfl, rfl, rfl, rfl, iff_of_true rfl hin, rfl⟩
  · rw [if_neg hin]
    exact ⟨rfl, rfl, rfl, rfl, rfl, iff_of_false (by rw [h.not_retiring hno hm]; nofun) hin, h.state m hm⟩

theorem setRetiring_mem {nodes : List Nat} (hm : m ∈ q.modules) : ∃ m' ∈ (setRetiring nodes q).modules,
    m'.id = m.id ∧ m'.base = m.base ∧ m'.lazy = m.lazy ∧ (m.id ∉ nodes → m' = m) := by
  refine ⟨_, mem_map_of_mem hm, ?_⟩
  by_cases hin : m.id ∈ nodes
  · rw [if_pos hin]
    exact ⟨rfl, rfl, rfl, fun hc => absurd hin hc⟩
  · rw [if_neg hin]
    exact ⟨rfl, rfl, rfl, fun _ => rfl⟩

/-- The edges of a record that is kept go to records that are kept. -/
theorem kept_edges (h : Wf q) (hno : q.retirement = none) (hm : m ∈ q.modules) (hkept : m.id ∉ selected q)
    {e : Nat} (he : e ∈ m.edges) : e ∉ selected q := by
  have hneeded : Needed q m.id := by
    by_contra hnot
    exact hkept ((mem_selected_iff h hno).2 ⟨mem_map_of_mem hm, hnot⟩)
  obtain ⟨root, hroot, hreach⟩ := hneeded
  exact fun hc => ((mem_selected_iff h hno).1 hc).2 ⟨root, hroot, hreach.tail ⟨m, hm, rfl, he⟩⟩

theorem prepared_wf (h : Wf q) (hno : q.retirement = none) (tid : Nat) : Wf (prepared tid q) := by
  unfold prepared
  split
  · exact h
  have hids := setRetiring_ids (selected q) q
  refine ⟨⟨?_, ?_, ?_, ?_⟩, ⟨?_, h.images.gone, h.images.nodup, h.images.freed, ?_, h.images.unused⟩,
    h.zero, ?_, ?_, ?_, ?_, ?_, ?_, ?_, ?_, h.freed_nodup, ?_⟩
  · exact hids ▸ h.tidy.nodup
  · intro m' hm'
    obtain ⟨m, hm, hid, -⟩ := mem_setRetiring h hno hm'
    rw [hid]
    exact h.tidy.lt m hm
  · intro m' hm' e he
    obtain ⟨m, hm, -, -, -, hedges, -⟩ := mem_setRetiring h hno hm'
    rw [hedges] at he
    exact hids.symm ▸ h.tidy.edges m hm e he
  · intro m' hm' hret e he
    obtain ⟨m, hm, -, -, -, hedges, -, hiff, -⟩ := mem_setRetiring h hno hm'
    rw [hedges] at he
    have hkept : m.id ∉ selected q := fun hc => by
      rw [hiff.2 hc] at hret
      cases hret
    obtain ⟨t, ht, rfl, htret⟩ := h.tidy.kept m hm (h.not_retiring hno hm) e he
    obtain ⟨t', ht', -, -, -, hsame⟩ := setRetiring_mem ht
    rw [hsame (kept_edges h hno hm hkept he)] at ht'
    exact ⟨t, ht', rfl, htret⟩
  · intro m' hm' hlazy
    obtain ⟨m, hm, hid, -, hl, -⟩ := mem_setRetiring h hno hm'
    rw [hid]
    rw [hl] at hlazy
    exact h.images.live m hm hlazy
  · intro i hi
    obtain hret | ⟨m, hm, hid, hlazy⟩ := h.images.used i hi
    · exact .inl hret
    · obtain ⟨m', hm', hid', -, hl, -⟩ := setRetiring_mem hm
      exact .inr ⟨m', hm', hid'.trans hid, hl.trans hlazy⟩
  · intro m' hm'
    obtain ⟨m, hm, -, hbase, -⟩ := mem_setRetiring h hno hm'
    rw [hbase]
    exact h.base m hm
  · intro a' ha' b' hb' hab
    obtain ⟨a, ha, haid, habase, -⟩ := mem_setRetiring h hno ha'
    obtain ⟨b, hb, hbid, hbbase, -⟩ := mem_setRetiring h hno hb'
    rw [haid, hbid]
    exact h.inj a ha b hb (habase ▸ hbbase ▸ hab)
  · intro b hb
    obtain ⟨m, hm, rfl⟩ := h.from_module b hb
    obtain ⟨m', hm', -, hbase, -⟩ := setRetiring_mem hm
    exact ⟨m', hm', hbase⟩
  · intro m' hm'
    obtain ⟨m, hm, -, -, -, -, -, -, hstate⟩ := mem_setRetiring h hno hm'
    exact hstate
  · intro m' hm'
    obtain ⟨m, hm, -, -, -, -, hcomp, -⟩ := mem_setRetiring h hno hm'
    rw [hcomp]
    exact h.completion m hm
  · intro a' ha' b' hb' hab
    obtain ⟨a, ha, haid, -, -, -, hac, -⟩ := mem_setRetiring h hno ha'
    obtain ⟨b, hb, hbid, -, -, -, hbc, -⟩ := mem_setRetiring h hno hb'
    rw [haid, hbid]
    exact h.distinct a ha b hb (hac ▸ hbc ▸ hab)
  · intro m' hm'
    obtain ⟨m, hm, hid, -, -, -, -, hiff, -⟩ := mem_setRetiring h hno hm'
    rw [hiff, hid]
    constructor
    · exact fun hin => ⟨_, rfl, hin⟩
    · rintro ⟨tx, htx, hin⟩
      obtain rfl := Option.some.inj htx
      exact hin
  · intro tx htx
    obtain rfl := Option.some.inj htx
    exact ⟨selected_nodup h, fun i hi => hids.symm ▸ ((mem_selected_iff h hno).1 hi).1⟩
  · intro i hi
    exact ⟨hids.symm ▸ (h.freed i hi).1, (h.freed i hi).2⟩

theorem prepare_wf (h : Wf p) (base capacity : Nat) (io : PrepareIo) :
    Wf (prepare base capacity io p).1 := by
  obtain ⟨st, heq⟩ | ⟨m, -, -, hno, heq⟩ := prepare_cases base capacity io p
  · rw [heq]
    exact h
  · rw [heq]
    exact prepared_wf (dropRef_wf h m.id) hno io.tid

/-! ### COMMIT -/

theorem commit_cases (h : Wf p) (token tid : Nat) (io : CommitIo) :
    (∃ st, commit token tid io p = (p, .error st)) ∨
    ∃ tx gone left q, p.retirement = some tx ∧ tx.nodes = gone ++ left ∧ Released p q gone ∧ Listed q ∧
      (left = [] ∧ commit token tid io p = ({ q with retirement := none }, .ok ()) ∨
        left ≠ [] ∧ ∃ st, commit token tid io p =
          ({ q with retirement := some { tx with nodes := left } }, .error st)) := by
  unfold commit
  cases htx : p.retirement with
  | none => exact .inl ⟨_, rfl⟩
  | some tx =>
    simp only
    by_cases htoken : token = 0 ∨ token ≠ tx.token ∨ tx.ownerTid ≠ tid
    · rw [if_pos htoken]
      exact .inl ⟨_, rfl⟩
    rw [if_neg htoken]
    by_cases hvalid : (tx.nodes.any fun id => ¬io.listsValid id) = true
    · rw [if_pos hvalid]
      exact .inl ⟨_, rfl⟩
    rw [if_neg hvalid]
    obtain ⟨hnodup, hin⟩ := h.nodes tx htx
    obtain ⟨gone, hgone, hrel, hlisted, hok⟩ := commitLoop_spec io tx.nodes h.listed hnodup hin
    rcases hloop : commitLoop io tx.nodes p with ⟨q, left, st | ⟨⟩⟩ <;> rw [hloop] at hgone hrel hlisted hok
    · exact .inr ⟨tx, gone, left, q, rfl, hgone, hrel, hlisted,
        .inr ⟨fun hnil => (nomatch hok.2 hnil), st, rfl⟩⟩
    · exact .inr ⟨tx, gone, left, q, rfl, hgone, hrel, hlisted, .inl ⟨hok.1 rfl, rfl⟩⟩

theorem Released.wf (hp : Wf p) {tx : Retirement} (htx : p.retirement = some tx) {gone left : List Nat}
    (hnodes : tx.nodes = gone ++ left) (h : Released p q gone) (hl : Listed q) {R : Option Retirement}
    (hR : ∀ i, (∃ tx, R = some tx ∧ i ∈ tx.nodes) ↔ i ∈ left)
    (hR' : ∀ tx, R = some tx → tx.nodes = left) : Wf { q with retirement := R } := by
  have htidy := h.tidy hp.tidy
  have hids := h.ids
  have hrest := h.rest
  obtain ⟨hnodup, hin⟩ := hp.nodes tx htx
  rw [hnodes] at hnodup hin
  obtain ⟨hgone, hleft, hdisj⟩ := nodup_append.1 hnodup
  have hmem : ∀ m ∈ q.modules, ∃ m₀ ∈ p.modules, m₀.id ∉ gone ∧
      m = { m₀ with edges := m₀.edges.filter fun e => e ∉ gone } := by
    intro m hm
    rw [h.modules] at hm
    exact mem_without.1 hm
  refine ⟨⟨htidy.nodup, htidy.lt, htidy.edges, htidy.kept⟩, ?_, hl.zero, ?_, ?_, ?_, ?_, ?_, ?_, ?_, ?_, ?_, ?_⟩
  · have himages := hl.images
    exact ⟨himages.live, himages.gone, himages.nodup, himages.freed, himages.used, himages.unused⟩
  · intro m hm
    obtain ⟨m₀, hm₀, hid, rfl⟩ := hmem m hm
    refine (h.mapped _).2 ⟨hp.base m₀ hm₀, fun x hx hxg hbase => ?_⟩
    exact hid (hp.inj x hx m₀ hm₀ hbase ▸ hxg)
  · intro a ha b hb hab
    obtain ⟨a₀, ha₀, -, rfl⟩ := hmem a ha
    obtain ⟨b₀, hb₀, -, rfl⟩ := hmem b hb
    exact hp.inj a₀ ha₀ b₀ hb₀ hab
  · intro b hb
    obtain ⟨hb, hall⟩ := (h.mapped b).1 hb
    obtain ⟨m, hm, rfl⟩ := hp.from_module b hb
    refine ⟨{ m with edges := m.edges.filter fun e => e ∉ gone }, ?_, rfl⟩
    show _ ∈ q.modules
    rw [h.modules]
    exact mem_without.2 ⟨m, hm, fun hc => hall m hm hc rfl, rfl⟩
  · intro m hm
    obtain ⟨m₀, hm₀, -, rfl⟩ := hmem m hm
    exact hp.state m₀ hm₀
  · intro m hm
    obtain ⟨m₀, hm₀, -, rfl⟩ := hmem m hm
    show m₀.completion ≤ q.initCounter
    rw [hrest]
    exact hp.completion m₀ hm₀
  · intro a ha b hb hab
    obtain ⟨a₀, ha₀, -, rfl⟩ := hmem a ha
    obtain ⟨b₀, hb₀, -, rfl⟩ := hmem b hb
    exact hp.distinct a₀ ha₀ b₀ hb₀ hab
  · intro m hm
    obtain ⟨m₀, hm₀, hid, rfl⟩ := hmem m hm
    refine (hp.retiring m₀ hm₀).trans (Iff.trans ?_ (hR _).symm)
    rw [htx]
    constructor
    · rintro ⟨tx', heq, hmem'⟩
      rw [← Option.some.inj heq, hnodes] at hmem'
      exact (mem_append.1 hmem').resolve_left hid
    · intro hmem'
      exact ⟨tx, rfl, hnodes ▸ mem_append_right _ hmem'⟩
  · intro tx' htx'
    rw [hR' tx' htx']
    refine ⟨hleft, fun i hi => ?_⟩
    show i ∈ q.ids
    rw [hids, mem_filter, decide_eq_true_eq]
    exact ⟨hin i (mem_append_right _ hi), fun hc => hdisj i hc i hi rfl⟩
  · show q.freed.Nodup
    rw [h.freed]
    refine nodup_append.2 ⟨nodup_reverse.2 hgone, hp.freed_nodup, ?_⟩
    rintro i hi _ hj rfl
    exact (hp.freed i hj).1 (hin i (mem_append_left _ (mem_reverse.1 hi)))
  · intro i hi
    show i ∉ q.ids ∧ i < q.nextId
    rw [h.freed] at hi
    rw [hids, hrest, mem_filter, decide_eq_true_eq]
    obtain hi | hi := mem_append.1 hi
    · have hi := mem_reverse.1 hi
      exact ⟨fun hc => hc.2 hi, hp.id_lt (hin i (mem_append_left _ hi))⟩
    · exact ⟨fun hc => (hp.freed i hi).1 hc.1, (hp.freed i hi).2⟩

theorem commit_wf (h : Wf p) (token tid : Nat) (io : CommitIo) : Wf (commit token tid io p).1 := by
  obtain ⟨st, heq⟩ | ⟨tx, gone, left, q, htx, hnodes, hrel, hl, ⟨rfl, heq⟩ | ⟨-, st, heq⟩⟩ :=
    commit_cases h token tid io
  · rw [heq]
    exact h
  · rw [heq]
    exact hrel.wf h htx hnodes hl (fun i => iff_of_false (fun ⟨_, hc, _⟩ => nomatch hc) nofun) nofun
  · rw [heq]
    refine hrel.wf h htx hnodes hl (fun i => ⟨?_, fun hi => ⟨_, rfl, hi⟩⟩) fun tx' htx' => ?_
    · rintro ⟨tx', htx', hi⟩
      rw [← Option.some.inj htx'] at hi
      exact hi
    · rw [← Option.some.inj htx']

end Win98Modern.Loader
