import Win98Modern.Kernel64.LoaderCalls
import Win98Modern.Lib.Runs

/-!
# The lifetime of modules in runs

In every run of loads, lifetime calls and page-ins, no edge leads to a record that was freed, each
record and each image map is freed once, and what a module that is not retiring reaches stays mapped
(`Safe`, `Keeps`).  Each call does what it is for (`CallHolds`) where it meets its condition (`Meets`): no
forwarder that the load asks for leads from a loaded module to another one without an edge, and the 32-bit
numbers of the initialization are in order.
-/

namespace Win98Modern.Loader

open Function List

variable {p q : Process} {id : Nat}

/-! ### Page-ins -/

theorem Wf.images_update (h : Wf p) {image : Nat → ImageLife} {pageIns : List Nat} (freed : List Nat)
    (himages : ImagesOk { p with image := image, pageIns := pageIns, imagesFreed := freed }) :
    Wf { p with image := image, pageIns := pageIns, imagesFreed := freed } :=
  ⟨⟨h.tidy.nodup, h.tidy.lt, h.tidy.edges, h.tidy.kept⟩, himages, h.zero, h.base, h.inj, h.from_module,
    h.state, h.completion, h.distinct, h.retiring, h.nodes, h.freed_nodup, h.freed⟩

theorem pageIn_wf (h : Wf p) (id : Nat) : Wf (pageIn id p) := by
  unfold pageIn
  split_ifs with hcan
  · obtain ⟨hany, -⟩ := hcan
    obtain ⟨m, hm, hc⟩ := any_eq_true.1 hany
    obtain ⟨rfl, hlazy, -⟩ := of_decide_eq_true hc
    have himages := h.images
    have hlive := himages.live m hm hlazy
    refine h.images_update p.imagesFreed ⟨?_, ?_, himages.nodup, ?_, ?_, ?_⟩
    · intro x hx hxl
      by_cases hid : x.id = m.id
      · show update p.image m.id _ x.id = ⟨(m.id :: p.pageIns).count x.id + 1, false⟩
        rw [hid, update_self, hlive, count_cons_self]
      · show update p.image m.id _ x.id = ⟨(m.id :: p.pageIns).count x.id + 1, false⟩
        rw [update_of_ne hid, count_cons_of_ne (Ne.symm hid)]
        exact himages.live x hx hxl
    · intro i hi
      have hne : i ≠ m.id := by
        rintro rfl
        have hi : (update p.image m.id ⟨(p.image m.id).refs + 1, false⟩ m.id).retired = true := hi
        rw [update_self] at hi
        cases hi
      show (update p.image m.id _ i).refs = (m.id :: p.pageIns).count i ∧
        (i ∈ p.imagesFreed ↔ i ∉ m.id :: p.pageIns)
      have hi : (update p.image m.id ⟨(p.image m.id).refs + 1, false⟩ i).retired = true := hi
      rw [update_of_ne hne] at hi ⊢
      rw [count_cons_of_ne (Ne.symm hne), mem_cons, or_iff_right hne]
      exact himages.gone i hi
    · intro i hi
      have hret := himages.freed i hi
      have hne : i ≠ m.id := by
        rintro rfl
        rw [hlive] at hret
        cases hret
      show (update p.image m.id _ i).retired = true
      rw [update_of_ne hne]
      exact hret
    · intro i hi
      by_cases hid : i = m.id
      · exact .inr ⟨m, hm, hid.symm, hlazy⟩
      · show (update p.image m.id _ i).retired = true ∨ _
        rw [update_of_ne hid]
        exact himages.used i ((mem_cons.1 hi).resolve_left hid)
    · intro i hi
      have hlt := h.tidy.lt m hm
      have hi : p.nextId ≤ i := hi
      have hne : i ≠ m.id := by omega
      show (update p.image m.id _ i).retired = false ∧ i ∉ m.id :: p.pageIns
      rw [update_of_ne hne, mem_cons, or_iff_right hne]
      exact himages.unused i hi
  · exact h

theorem pageOut_wf (h : Wf p) (id : Nat) : Wf (pageOut id p) := by
  unfold pageOut
  by_cases hin : id ∈ p.pageIns
  · rw [if_pos hin]
    have himages := h.images
    have hcount : 0 < p.pageIns.count id := count_pos_iff.2 hin
    have herase : (p.pageIns.erase id).count id = p.pageIns.count id - 1 := count_erase_self
    have hnot : id ∉ p.imagesFreed := fun hf => ((himages.gone id (himages.freed id (.inl hf))).2.1 hf) hin
    have hlast : (p.image id).refs = 1 ↔ (p.image id).retired = true ∧ id ∉ p.pageIns.erase id := by
      rw [← count_eq_zero, herase]
      obtain hret | ⟨m, hm, rfl, hlazy⟩ := himages.used id hin
      · rw [(himages.gone id hret).1, hret]
        simp only [true_and]
        omega
      · rw [himages.live m hm hlazy]
        simp only [Bool.false_eq_true, false_and, iff_false]
        omega
    refine h.images_update _ ⟨?_, ?_, ?_, ?_, ?_, ?_⟩
    · intro x hx hxl
      show update p.image id _ x.id = ⟨(p.pageIns.erase id).count x.id + 1, false⟩
      have hlive := himages.live x hx hxl
      by_cases hid : x.id = id
      · rw [hid] at hlive ⊢
        rw [update_self, hlive, herase]
        simp only [Nat.add_sub_cancel, ImageLife.mk.injEq, and_true]
        omega
      · rw [update_of_ne hid, count_erase_of_ne hid]
        exact hlive
    · intro i hi
      have hi : (update p.image id ⟨(p.image id).refs - 1, (p.image id).retired⟩ i).retired =
        true := hi
      show (update p.image id _ i).refs = (p.pageIns.erase id).count i ∧
        (i ∈ (if (p.image id).refs = 1 then id :: p.imagesFreed else p.imagesFreed) ↔
          i ∉ p.pageIns.erase id)
      by_cases hid : i = id
      · subst hid
        rw [update_self] at hi ⊢
        have hret : (p.image i).retired = true := hi
        refine ⟨by rw [herase, ← (himages.gone i hret).1], ?_⟩
        split
        · exact iff_of_true mem_cons_self (hlast.1 ‹_›).2
        · exact iff_of_false hnot fun hc => ‹¬_› (hlast.2 ⟨hret, hc⟩)
      · rw [update_of_ne hid] at hi ⊢
        rw [count_erase_of_ne hid, mem_erase_of_ne hid]
        obtain ⟨hrefs, hiff⟩ := himages.gone i hi
        refine ⟨hrefs, ?_⟩
        split
        · rw [mem_cons, or_iff_right hid, hiff]
        · exact hiff
    · show (if (p.image id).refs = 1 then id :: p.imagesFreed else p.imagesFreed).Nodup
      split
      · exact nodup_cons.2 ⟨hnot, himages.nodup⟩
      · exact himages.nodup
    · intro i hi
      show (update p.image id _ i).retired = true
      by_cases hid : i = id
      · subst hid
        rw [update_self]
        obtain hi | hi := hi
        · split at hi
          · exact (hlast.1 ‹_›).1
          · exact absurd hi hnot
        · exact himages.freed i (.inr hi)
      · rw [update_of_ne hid]
        refine himages.freed i (hi.imp_left fun hi => ?_)
        split at hi
        · exact (mem_cons.1 hi).resolve_left hid
        · exact hi
    · intro i hi
      have hused := himages.used i (mem_of_mem_erase hi)
      show (update p.image id _ i).retired = true ∨ _
      by_cases hid : i = id
      · subst hid
        rw [update_self]
        exact hused
      · rw [update_of_ne hid]
        exact hused
    · intro i hi
      obtain ⟨hret, hno⟩ := himages.unused i hi
      have hne : i ≠ id := fun hc => hno (hc ▸ hin)
      show (update p.image id _ i).retired = false ∧ i ∉ p.pageIns.erase id
      rw [update_of_ne hne, mem_erase_of_ne hne]
      exact ⟨hret, hno⟩
  · rw [if_neg hin]
    exact h

theorem step_wf (h : Wf p) (a : Act) : Wf (step p a) := by
  cases a with
  | load env nest name publish => exact loadRuntime_wf h env nest name publish
  | addref base pin written => exact addref_wf h base pin written
  | prepare base capacity io => exact prepare_wf h base capacity io
  | commit token tid io => exact commit_wf h token tid io
  | pageIn id => exact pageIn_wf h id
  | pageOut id => exact pageOut_wf h id
  | others loads =>
    have himages := h.images
    exact ⟨⟨h.tidy.nodup, h.tidy.lt, h.tidy.edges, h.tidy.kept⟩,
      ⟨himages.live, himages.gone, himages.nodup, himages.freed, himages.used, himages.unused⟩, h.zero,
      h.base, h.inj, h.from_module, h.state, fun m hm => Nat.le_add_right_of_le (h.completion m hm),
      h.distinct, h.retiring, h.nodes, h.freed_nodup, h.freed⟩

theorem empty_wf (counter : Nat) : Wf (.empty counter) := by
  refine ⟨⟨.nil, nofun, nofun, nofun⟩, ⟨nofun, nofun, .nil, nofun, nofun, fun _ _ => ⟨rfl, nofun⟩⟩, ?_,
    nofun, nofun, ?_, nofun, nofun, nofun, nofun, nofun, .nil, nofun⟩
  · exact Finset.notMem_empty 0
  · exact fun b hb => absurd hb (Finset.notMem_empty b)

theorem createProcess_wf {env : Env} {nest : Nat} {name : String} {file : ImageFile} {counter : Nat}
    (h : createProcess env nest name file counter = some p) : Wf p := by
  have hempty := empty_wf counter
  have hbody : Failing.Spec (At env (.empty counter) .all [] fun _ => True) (do
      let _ ← loadDll env nest 0 "ntdll.dll" true
      loadModuleFile env (loadDll env nest) 0 name file : Load Module)
      (fun _ => At env (.empty counter) .all [] fun _ => True) (Left env (.empty counter) .all) := by
    have hload := loadDll_spec hempty.tidy (closed_all env (.empty counter)) nest
    have hntdll : Search.all.asks "ntdll.dll" true none := trivial
    refine ((hload []).plain 0 hntdll).bind fun _ => ?_
    exact (loadModuleFile_spec (K := fun _ => True) hempty.tidy (closed_all env _) hload
      (fun _ _ _ _ => trivial) 0 trivial).mono (fun _ h => h) fun _ _ h => h.mono fun _ => trivial
  obtain ⟨hok, -⟩ := hbody _ ⟨hempty.going, trail_refl _ _ _, trivial⟩
  unfold createProcess at h
  simp only at h
  split at h
  · cases h
  · rename_i q m heq
    obtain rfl := Option.some.inj h
    exact ((hok m q heq).going.wf hempty).map fun m => ⟨⟨rfl, rfl, rfl, rfl⟩, rfl, rfl, rfl⟩

/-! ### What holds of the states and the calls -/

/-- No edge leads to a freed record, a record or image map is freed once, the maps when no page-in is
left, and the mapped images are those of the modules. -/
structure Safe (p : Process) : Prop where
  edges : ∀ m ∈ p.modules, ∀ e ∈ m.edges, e ∈ p.ids ∧ e ∉ p.freed
  freed : p.freed.Nodup ∧ ∀ i ∈ p.freed, i ∉ p.ids
  images : p.imagesFreed.Nodup ∧ ∀ i, (p.image i).retired = true → (i ∈ p.imagesFreed ↔ i ∉ p.pageIns)
  mapped : ∀ b, b ∈ p.mapped ↔ ∃ m ∈ p.modules, m.base = b

/-- What a module that is not retiring reaches is still there after the call, and mapped. -/
def Keeps (p : Process) (a : Act) : Prop :=
  ∀ i, Live p i → ∀ j, Relation.ReflTransGen (Edge p) i j →
    ∃ m ∈ (step p a).modules, m.id = j ∧ m.base ∈ (step p a).mapped

/-- Nothing is unmapped or freed, and the retirement stays. -/
structure NothingReleased (p q : Process) : Prop where
  ids : ∀ i ∈ p.ids, i ∈ q.ids
  mapped : p.mapped ⊆ q.mapped
  freed : q.freed = p.freed
  retirement : q.retirement = p.retirement

/-- Each module that was loaded has the edges of its imports, and so have the forwarders on the way. -/
def Extends (env : Env) (name : String) (p q : Process) : Prop := ∀ m ∈ q.modules, m.id ∉ p.ids →
  ∃ file, Finds env p name m.name file ∧ m.exports = file.exports ∧ ∀ i ∈ file.imports, Imported env q m.id i

/-- The nodes are the modules that no root reaches, the last one completed first. -/
structure Selects (p : Process) (nodes : List Nat) : Prop where
  mem : ∀ i, i ∈ nodes ↔ (∃ m ∈ p.modules, m.id = i ∧ m.state = .linked) ∧ ¬Needed p i
  nodup : nodes.Nodup
  sorted : nodes.Pairwise fun i j =>
    ∀ a ∈ p.modules, ∀ b ∈ p.modules, a.id = i → b.id = j → b.completion < a.completion

def PrepareHolds (p : Process) (base capacity : Nat) (io : PrepareIo) : Prop :=
  match prepare base capacity io p with
  | (q, .error _) => q = p
  | (q, .ok nodes) => p.retirement = none ∧ q.ids = p.ids ∧ q.mapped = p.mapped ∧ q.freed = p.freed ∧
      (∃ m ∈ p.modules, m.base = base ∧ Selects (dropRef m.id p) nodes) ∧
      q.retirement = if nodes = [] then none else some ⟨p.retireSequence + 1, io.tid, nodes⟩

/-- The commit releases the nodes in their order: all of them, or those before an error. -/
def CommitHolds (p : Process) (token tid : Nat) (io : CommitIo) : Prop :=
  match commit token tid io p with
  | (q, .ok ()) => ∃ tx, p.retirement = some tx ∧ Released p { q with retirement := p.retirement } tx.nodes ∧
      q.retirement = none
  | (q, .error _) => q = p ∨ ∃ tx gone left, p.retirement = some tx ∧ tx.nodes = gone ++ left ∧
      Released p { q with retirement := p.retirement } gone ∧
      q.retirement = some { tx with nodes := left }

def CallHolds (p : Process) : Act → Prop
  | .load env nest name publish =>
    match loadRuntime env nest name publish p with
    | (q, .error _) => q.modules = p.modules ∧ q.mapped = p.mapped ∧ q.tlsSlots = p.tlsSlots ∧
        q.retirement = p.retirement
    | (q, .ok _) => NothingReleased p q ∧ Extends env name p q
  | .addref base pin written =>
    match addref base pin written p with
    | (q, .error _) => q = p
    | (q, .ok ()) => NothingReleased p q
  | .prepare base capacity io => PrepareHolds p base capacity io
  | .commit token tid io => CommitHolds p token tid io
  | .pageIn id => NothingReleased p (step p (.pageIn id))
  | .pageOut id => NothingReleased p (step p (.pageOut id))
  | .others loads => NothingReleased p (step p (.others loads))

/-- The 32-bit numbers of the modules that no root reaches are in the order of their completion. -/
def InOrder (p : Process) : Prop := ∀ a ∈ p.modules, ∀ b ∈ p.modules, ¬Needed p a.id → ¬Needed p b.id →
  a.completion < b.completion → a.initSeq < b.initSeq

/-- Each forwarder that the load asks for and that leads from a loaded module to another one has its edge,
and PREPARE finds the 32-bit numbers of the modules to retire in the order of their completion. -/
def Meets (p : Process) : Act → Prop
  | .load env _ name _ => ∀ i j, Forwards env p (Asks env p name) i j → Joined p i j
  | .prepare base _ _ => ∀ m ∈ p.modules, m.base = base → InOrder (dropRef m.id p)
  | _ => True

def Succeeds (p : Process) : Act → Prop
  | .load env nest name publish => ∃ base, (loadRuntime env nest name publish p).2 = .ok base
  | _ => False

theorem Wf.safe (h : Wf p) : Safe p := by
  refine ⟨fun m hm e he => ?_, ⟨h.freed_nodup, fun i hi => (h.freed i hi).1⟩,
    ⟨h.images.nodup, fun i hi => (h.images.gone i hi).2⟩, fun b => ⟨h.from_module b, ?_⟩⟩
  · have hin := h.tidy.edges m hm e he
    exact ⟨hin, fun hf => (h.freed e hf).1 hin⟩
  · rintro ⟨m, hm, rfl⟩
    exact h.base m hm

theorem live_of_reach (h : Wf p) {i j : Nat} (hi : Live p i)
    (hreach : Relation.ReflTransGen (Edge p) i j) : Live p j := by
  induction hreach with
  | refl => exact hi
  | tail _ hedge ih =>
    obtain ⟨m, hm, rfl, hret⟩ := ih
    obtain ⟨m', hm', hid, he⟩ := hedge
    obtain rfl := h.tidy.unique hm' hm hid
    exact h.tidy.kept m' hm' hret _ he

/-- The calls but COMMIT keep all records. -/
theorem keeps_of_ids (h : Wf p) {a : Act} (hids : ∀ i ∈ p.ids, i ∈ (step p a).ids) : Keeps p a := by
  intro i hi j hreach
  obtain ⟨m, hm, hid⟩ := mem_ids.1 (hids j (live_of_reach h hi hreach).mem_ids)
  exact ⟨m, hm, hid, (step_wf h a).base m hm⟩

theorem going_released (h : Going p [] q) :
    NothingReleased p (q.update id fun x => { x with refs := x.refs + 1 }) := by
  obtain ⟨fresh, hids, -⟩ := h.grow.ids
  obtain ⟨hretirement, -, hfreed, -⟩ := h.grow.same
  have hsame : (q.update id fun x => { x with refs := x.refs + 1 }).ids = q.ids := ids_update fun _ => rfl
  refine ⟨fun i hi => ?_, h.bases.sub, hfreed, hretirement⟩
  rw [hsame, hids]
  exact mem_append_right _ hi

theorem pageIn_released (p : Process) (id : Nat) : NothingReleased p (pageIn id p) := by
  unfold pageIn
  split <;> exact ⟨fun i hi => hi, Finset.Subset.refl _, rfl, rfl⟩

theorem pageOut_released (p : Process) (id : Nat) : NothingReleased p (pageOut id p) := by
  unfold pageOut
  split <;> exact ⟨fun i hi => hi, Finset.Subset.refl _, rfl, rfl⟩

theorem update_released {f : Module → Module} (hf : ∀ m, SameButRefs m (f m)) :
    NothingReleased p (p.update id f) := by
  have hids : (p.update id f).ids = p.ids := ids_update fun m => (hf m).id
  exact ⟨fun i hi => hids.symm ▸ hi, Finset.Subset.refl _, rfl, rfl⟩

theorem step_keeps (h : Wf p) (a : Act) : Keeps p a := by
  cases a with
  | load env nest name publish =>
    apply keeps_of_ids h
    obtain ⟨st, q, heq, hundone, -⟩ | ⟨base, q, id, heq, hgoing, -⟩ :=
      loadRuntime_cases h env nest name publish
    · rw [step, heq, hundone.ids]
      exact fun i hi => hi
    · rw [step, heq]
      exact (going_released hgoing).ids
  | addref base pin written =>
    apply keeps_of_ids h
    obtain ⟨st, heq⟩ | ⟨id, f, hf, heq⟩ := addref_cases base pin written p <;> rw [step, heq]
    · exact fun i hi => hi
    · exact (update_released hf).ids
  | prepare base capacity io =>
    apply keeps_of_ids h
    obtain ⟨st, heq⟩ | ⟨m, -, -, hno, heq⟩ := prepare_cases base capacity io p <;> rw [step, heq]
    · exact fun i hi => hi
    · intro i hi
      show i ∈ (prepared io.tid (dropRef m.id p)).ids
      rw [prepared_ids, dropRef_ids]
      exact hi
  | commit token tid io =>
    intro i hi j hreach
    obtain ⟨m, hm, rfl, hret⟩ := live_of_reach h hi hreach
    obtain ⟨st, heq⟩ | ⟨tx, gone, left, q, htx, hnodes, hrel, -, hend⟩ := commit_cases h token tid io
    · rw [step, heq]
      exact ⟨m, hm, rfl, h.base m hm⟩
    · -- what is released was prepared
      have hkept : m.id ∉ gone := by
        intro hc
        rw [(h.retiring m hm).2 ⟨tx, htx, hnodes ▸ mem_append_left _ hc⟩] at hret
        cases hret
      have hin : m.id ∈ (step p (.commit token tid io)).ids := by
        have hq : m.id ∈ q.ids := by
          rw [hrel.ids, mem_filter, decide_eq_true_eq]
          exact ⟨mem_map_of_mem hm, hkept⟩
        obtain ⟨-, heq⟩ | ⟨-, st, heq⟩ := hend <;> rw [step, heq] <;> exact hq
      obtain ⟨m', hm', hid⟩ := mem_ids.1 hin
      exact ⟨m', hm', hid, (step_wf h _).base m' hm'⟩
  | pageIn id => exact keeps_of_ids h (pageIn_released p id).ids
  | pageOut id => exact keeps_of_ids h (pageOut_released p id).ids
  | others loads => exact keeps_of_ids h fun i hi => hi

theorem selects_of_inOrder (h : Wf p) (hno : p.retirement = none) (horder : InOrder p) :
    Selects p (selected p) := by
  refine ⟨fun i => ?_, selected_nodup h, ?_⟩
  · rw [mem_selected_iff h hno, mem_ids]
    refine and_congr_left fun _ => exists_congr fun m => and_congr_right fun hm => ?_
    rw [h.state m hm, h.not_retiring hno hm]
    exact (and_iff_left rfl).symm
  · refine ((selected_sorted p).and (selected_nodup h)).imp_of_mem fun {i j} hi hj hseq => ?_
    rintro a ha b hb rfl rfl
    obtain ⟨⟨a', ha', b', hb', hai, hbi, hle⟩, hne⟩ := hseq
    obtain rfl := h.tidy.unique ha' ha hai
    obtain rfl := h.tidy.unique hb' hb hbi
    have hmem := fun i => mem_selected_iff h hno (i := i)
    by_contra hnot
    obtain heq | hlt := (Nat.not_lt.1 hnot).eq_or_lt
    · exact hne (h.distinct a' ha b' hb heq)
    · have := horder a' ha b' hb ((hmem _).1 hi).2 ((hmem _).1 hj).2 hlt
      omega

theorem prepared_rest (tid : Nat) (q : Process) : (prepared tid q).mapped = q.mapped ∧
    (prepared tid q).freed = q.freed ∧ (prepared tid q).retirement =
      if selected q = [] then q.retirement else some ⟨q.retireSequence + 1, tid, selected q⟩ := by
  unfold prepared
  split
  · exact ⟨rfl, rfl, rfl⟩
  · exact ⟨rfl, rfl, rfl⟩

theorem Released.retire {gone : List Nat} (h : Released p q gone) (R : Option Retirement) :
    Released p { { q with retirement := R } with retirement := p.retirement } gone := by
  refine ⟨h.modules, h.mapped, h.freed, ?_⟩
  conv_lhs => rw [h.rest]

/-- After a load that succeeds every new module is linked. -/
theorem extends_of_trail {env : Env} {name : String} (hg : Going p [] q)
    (ht : Trail env p (search env p name) q) :
    Extends env name p (q.update id fun x => { x with refs := x.refs + 1 }) := by
  have hname : ∀ m : Module, SameName m { m with refs := m.refs + 1 } := fun m =>
    ⟨rfl, rfl, rfl, rfl, fun _ he => he⟩
  have ht : Trail env p _ (q.update id fun x => { x with refs := x.refs + 1 }) :=
    ht.progress hname (fun _ => rfl) rfl rfl
  intro m' hm' hnew
  obtain ⟨m₀, hm₀, hs⟩ | ⟨hge, file, hl⟩ := ht.records m' hm'
  · exact absurd (hs.id ▸ mem_map_of_mem hm₀) hnew
  · refine ⟨file, hl.finds, hl.exports, hl.imports ?_⟩
    have hlinked : ∀ m ∈ q.modules, p.nextId ≤ m.id → m.state = .linked := fun m hm hge =>
      (hg.done.state m hm hge).resolve_right fun hc => by cases hc.2
    obtain ⟨m, hm, -, rfl⟩ | ⟨hm, -⟩ := mem_map_update.1 hm'
    · exact hlinked m hm hge
    · exact hlinked m' hm hge

theorem callHolds_of_meets (h : Wf p) {a : Act} (hmeets : Meets p a ∨ Succeeds p a) : CallHolds p a := by
  cases a with
  | load env nest name publish =>
    unfold CallHolds
    obtain ⟨st, q, heq, hundone, hlinks⟩ | ⟨base, q, id, heq, hgoing, htrail⟩ :=
      loadRuntime_cases h env nest name publish
    · simp only [heq]
      obtain hmeets | ⟨base, hok⟩ := hmeets
      · refine ⟨hundone.modules_eq h fun e he hs ht => ?_, hundone.mapped, hundone.tlsSlots,
          hundone.retirement⟩
        obtain ⟨hne, hedge, hfwd⟩ := hlinks e he hs ht
        exact (hmeets _ _ hfwd).elim hne hedge
      · rw [heq] at hok
        cases hok
    · simp only [heq]
      exact ⟨going_released hgoing, extends_of_trail hgoing htrail⟩
  | addref base pin written =>
    unfold CallHolds
    obtain ⟨st, heq⟩ | ⟨id, f, hf, heq⟩ := addref_cases base pin written p <;> simp only [heq]
    exact update_released hf
  | prepare base capacity io =>
    show PrepareHolds p base capacity io
    unfold PrepareHolds
    obtain ⟨st, heq⟩ | ⟨m, hm, hbase, hno, heq⟩ := prepare_cases base capacity io p <;> simp only [heq]
    obtain ⟨hmapped, hfreed, hretirement⟩ := prepared_rest io.tid (dropRef m.id p)
    refine ⟨hno, by rw [prepared_ids, dropRef_ids], hmapped, hfreed,
      ⟨m, hm, hbase, selects_of_inOrder (dropRef_wf h m.id) hno ?_⟩, ?_⟩
    · exact hmeets.elim (fun hmeets => hmeets m hm hbase) False.elim
    · rw [hretirement]
      split
      · exact hno
      · rfl
  | commit token tid io =>
    show CommitHolds p token tid io
    unfold CommitHolds
    obtain ⟨st, heq⟩ | ⟨tx, gone, left, q, htx, hnodes, hrel, -, ⟨rfl, heq⟩ | ⟨-, st, heq⟩⟩ :=
      commit_cases h token tid io <;> rw [heq]
    · exact .inl rfl
    · rw [append_nil] at hnodes
      exact ⟨tx, htx, hnodes ▸ hrel.retire none, rfl⟩
    · exact .inr ⟨tx, gone, left, htx, hnodes, hrel.retire _, rfl⟩
  | pageIn id => exact pageIn_released p id
  | pageOut id => exact pageOut_released p id
  | others loads => exact ⟨fun i hi => hi, Finset.Subset.refl _, rfl, rfl⟩

/-- **The lifetime of modules.**  In every run of a process after its startup no edge leads to a freed
record, each record is freed once, and what a module that is kept reaches stays loaded and mapped; every
call that meets its condition, and every load that succeeds, does what it is for. -/
theorem module_lifetime {env : Env} {nest : Nat} {name : String} {file : ImageFile} {counter : Nat}
    (h : createProcess env nest name file counter = some p) (acts : List Act) :
    Along step Safe (fun p a => Keeps p a ∧ (Meets p a ∨ Succeeds p a → CallHolds p a)) p acts ∧
      (Steps step Meets p acts → Steps step CallHolds p acts) := by
  have hwf := createProcess_wf h
  constructor
  · exact along_of_inv acts (fun _ hs => hs.safe)
      (fun _ a hs _ _ => ⟨⟨step_keeps hs a, callHolds_of_meets hs⟩, step_wf hs a⟩) hwf (along_true p acts)
  · exact along_of_inv acts (fun _ _ => trivial)
      (fun _ a hs _ hm => ⟨callHolds_of_meets hs (.inl hm), step_wf hs a⟩) hwf

/-- **The module table is consistent** in every state of every run, whatever fails: bases and numbers of
completion are different, an image map is held by its module and its page-ins, and what is retiring is what
the retirement lists. -/
theorem module_table {env : Env} {nest : Nat} {name : String} {file : ImageFile} {counter : Nat}
    (h : createProcess env nest name file counter = some p) (acts : List Act) :
    Along step Wf (fun _ _ => True) p acts :=
  along_of_inv acts (fun _ hs => hs) (fun _ a hs _ _ => ⟨trivial, step_wf hs a⟩) (createProcess_wf h)
    (along_true p acts)

/-! ### An edge that stays -/

def sampleFile (base : Nat) (imports : List Import) (exports : Symbol → Export) : ImageFile :=
  ⟨true, true, false, .whole, base, true, true, imports, true, .absent, exports⟩

/-- `x.dll` forwards `f` to `y.dll`; `n.dll` imports it, and then from a file that is missing. -/
def sampleEnv : Env where
  baseName name := name
  apiset name := some (name, false)
  locateFile name _ :=
    if name = "ntdll.dll" then some (sampleFile 1 [] fun _ => .code)
    else if name = "x.dll" then some (sampleFile 2 [] fun s =>
      if s = .name "f" then .forward "y.dll" (some (.name "g")) else .code)
    else if name = "y.dll" then some (sampleFile 3 [] fun _ => .code)
    else if name = "n.dll" then some (sampleFile 4
      [⟨"x.dll", .name "f", true⟩, ⟨"missing.dll", .name "f", true⟩] fun _ => .code)
    else none
  edgeAlloc _ _ := true

/-- The program imports from `x.dll` and from `y.dll`. -/
def sampleExe : ImageFile :=
  sampleFile 5 [⟨"x.dll", .name "h", true⟩, ⟨"y.dll", .name "g", true⟩] fun _ => .code

def sampleLoad : Act := .load sampleEnv 5 "n.dll" true

def sampleShape (p : Process) : List (List Nat) × List (List Nat) × Bool :=
  (p.modules.map Module.edges, (step p sampleLoad).modules.map Module.edges,
    match (loadRuntime sampleEnv 5 "n.dll" true p).2 with
    | .error st => st = .dllNotFound
    | .ok _ => false)

theorem sampleProcess : (createProcess sampleEnv 5 "a.exe" sampleExe 0).map sampleShape =
    some ([[], [], [3, 2], []], [[], [3], [3, 2], []], true) := by
  decide +kernel

theorem module_lifetime_sample : ∃ p, createProcess sampleEnv 5 "a.exe" sampleExe 0 = some p ∧
    Along step Safe (fun p a => Keeps p a ∧ (Meets p a ∨ Succeeds p a → CallHolds p a)) p [sampleLoad] := by
  obtain ⟨p, hp, -⟩ := Option.map_eq_some_iff.1 sampleProcess
  exact ⟨p, hp, (module_lifetime hp [sampleLoad]).1⟩

theorem module_table_sample : ∃ p, createProcess sampleEnv 5 "a.exe" sampleExe 0 = some p ∧
    Along step Wf (fun _ _ => True) p [sampleLoad] := by
  obtain ⟨p, hp, -⟩ := Option.map_eq_some_iff.1 sampleProcess
  exact ⟨p, hp, module_table hp [sampleLoad]⟩

/-- The load of `n.dll` fails, and `x.dll` has an edge to `y.dll` then. -/
theorem edge_left : ∃ p, createProcess sampleEnv 5 "a.exe" sampleExe 0 = some p ∧
    ¬Steps step CallHolds p [sampleLoad] := by
  obtain ⟨p, hp, hshape⟩ := Option.map_eq_some_iff.1 sampleProcess
  obtain ⟨hbefore, hafter, hst⟩ := by simpa only [sampleShape, Prod.mk.injEq] using hshape
  refine ⟨p, hp, fun h => ?_⟩
  have hcall : CallHolds p sampleLoad := h.2.1
  rcases hload : loadRuntime sampleEnv 5 "n.dll" true p with ⟨q, st | base⟩ <;>
    simp only [sampleLoad, CallHolds, hload] at hcall <;> rw [hload] at hst
  · have hq : (step p sampleLoad).modules = q.modules := by
      show (loadRuntime sampleEnv 5 "n.dll" true p).1.modules = _
      rw [hload]
    rw [hq, hcall.1, hbefore] at hafter
    cases hafter
  · cases hst

end Win98Modern.Loader
