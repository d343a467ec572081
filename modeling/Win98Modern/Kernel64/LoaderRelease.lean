import Win98Modern.Kernel64.LoaderGrow

/-!
# Releasing records

The rollback of a load and the commit of a retirement take records out of the list one by one, with
the edges to them (`Released`).  After the rollback of a failed load the list is as before, but for the
edges that the load made between old records (`rollback_spec`).
-/

namespace Win98Modern.Loader

open Function List

variable {p q r : Process} {id : Nat} {gone : List Nat} {m : Module}

def without (gone : List Nat) (l : List Module) : List Module :=
  (l.filter fun m => m.id ∉ gone).map fun m => { m with edges := m.edges.filter fun e => e ∉ gone }

theorem mem_without {l : List Module} : m ∈ without gone l ↔ ∃ m₀ ∈ l, m₀.id ∉ gone ∧
    m = { m₀ with edges := m₀.edges.filter fun e => e ∉ gone } := by
  unfold without
  rw [mem_map]
  constructor
  · rintro ⟨m₀, hm₀, rfl⟩
    rw [mem_filter, decide_eq_true_eq] at hm₀
    exact ⟨m₀, hm₀.1, hm₀.2, rfl⟩
  · rintro ⟨m₀, hm₀, hid, rfl⟩
    exact ⟨m₀, mem_filter.2 ⟨hm₀, decide_eq_true hid⟩, rfl⟩

theorem without_nil (l : List Module) : without [] l = l := by
  unfold without
  simp

theorem without_without (l : List Module) : without gone (without [id] l) = without (id :: gone) l := by
  unfold without
  rw [filter_map, map_map, filter_filter]
  congr 1
  · funext m
    simp only [Function.comp, filter_filter, mem_cons, not_or, not_mem_nil,
      not_false_eq_true, and_true, Bool.decide_and, Bool.and_comm]
  · congr 1
    funext m
    simp only [Function.comp, mem_cons, not_or, not_mem_nil, not_false_eq_true, and_true,
      Bool.decide_and, Bool.and_comm]

theorem ids_without (l : List Module) :
    (without gone l).map Module.id = (l.map Module.id).filter fun i => i ∉ gone := by
  unfold without
  rw [map_map, filter_map]
  rfl

/-- `q` is `p` without the records of `gone`. -/
structure Released (p q : Process) (gone : List Nat) : Prop where
  modules : q.modules = without gone p.modules
  mapped : ∀ b, b ∈ q.mapped ↔ b ∈ p.mapped ∧ ∀ m ∈ p.modules, m.id ∈ gone → m.base ≠ b
  freed : q.freed = gone.reverse ++ p.freed
  rest : q = { p with
    modules := q.modules, mapped := q.mapped, image := q.image, imagesFreed := q.imagesFreed
    freed := q.freed, freedLazy := q.freedLazy }

theorem released_nil (p : Process) : Released p p [] := by
  refine ⟨(without_nil _).symm, fun b => ?_, rfl, rfl⟩
  simp

theorem Released.cons (h : Released p q [id]) (h' : Released q r gone) : Released p r (id :: gone) := by
  refine ⟨?_, fun b => ?_, ?_, ?_⟩
  · rw [h'.modules, h.modules, without_without]
  · rw [h'.mapped, h.mapped]
    constructor
    · rintro ⟨⟨hb, hid⟩, hgone⟩
      refine ⟨hb, fun m hm hmem => ?_⟩
      by_cases hmid : m.id = id
      · exact hid m hm (mem_singleton.2 hmid)
      · have hin : m.id ∈ gone := (mem_cons.1 hmem).resolve_left hmid
        refine hgone { m with edges := m.edges.filter fun e => e ∉ [id] } ?_ hin
        rw [h.modules]
        exact mem_without.2 ⟨m, hm, fun hc => hmid (mem_singleton.1 hc), rfl⟩
    · rintro ⟨hb, hall⟩
      refine ⟨⟨hb, fun m hm hmem => hall m hm ?_⟩, fun m hm hmem => ?_⟩
      · rw [mem_singleton.1 hmem]
        exact mem_cons_self
      · rw [h.modules] at hm
        obtain ⟨m₀, hm₀, -, rfl⟩ := mem_without.1 hm
        exact hall m₀ hm₀ (mem_cons_of_mem id hmem)
  · rw [h'.freed, h.freed]
    simp
  · rw [h'.rest, h.rest]

theorem Released.ids (h : Released p q gone) : q.ids = p.ids.filter fun i => i ∉ gone := by
  unfold Process.ids
  rw [h.modules, ids_without]

theorem Released.tidy (h : Released p q gone) (hp : Tidy p) : Tidy q := by
  have hids := h.ids
  have hlive : ∀ e, e ∉ gone → Live p e → Live q e := by
    rintro e he ⟨m, hm, rfl, hret⟩
    refine ⟨{ m with edges := m.edges.filter fun e => e ∉ gone }, ?_, rfl, hret⟩
    rw [h.modules]
    exact mem_without.2 ⟨m, hm, he, rfl⟩
  have hmem : ∀ m ∈ q.modules, ∃ m₀ ∈ p.modules, m = { m₀ with edges := m₀.edges.filter fun e => e ∉ gone } := by
    intro m hm
    rw [h.modules] at hm
    obtain ⟨m₀, hm₀, -, heq⟩ := mem_without.1 hm
    exact ⟨m₀, hm₀, heq⟩
  have hedge : ∀ {l : List Nat} {e : Nat}, (e ∈ l.filter fun e => e ∉ gone) → e ∈ l ∧ e ∉ gone := by
    intro l e he
    rw [mem_filter, decide_eq_true_eq] at he
    exact he
  refine ⟨?_, ?_, ?_, ?_⟩
  · rw [hids]
    exact hp.nodup.filter _
  · intro m hm
    obtain ⟨m₀, hm₀, rfl⟩ := hmem m hm
    rw [h.rest]
    exact hp.lt m₀ hm₀
  · intro m hm e he
    obtain ⟨m₀, hm₀, rfl⟩ := hmem m hm
    obtain ⟨hin, hnot⟩ := hedge he
    rw [hids, mem_filter, decide_eq_true_eq]
    exact ⟨hp.edges m₀ hm₀ e hin, hnot⟩
  · intro m hm hret e he
    obtain ⟨m₀, hm₀, rfl⟩ := hmem m hm
    obtain ⟨hin, hnot⟩ := hedge he
    exact hlive e hnot (hp.kept m₀ hm₀ hret e hin)

/-- What every state of the two loops satisfies. -/
structure Listed (p : Process) : Prop where
  nodup : p.ids.Nodup
  lt : ∀ m ∈ p.modules, m.id < p.nextId
  images : ImagesOk p
  zero : 0 ∉ p.mapped

theorem without_singleton (l : List Module) : without [id] l =
    (l.filter fun m => m.id ≠ id).map fun m => { m with edges := m.edges.filter fun e => e ≠ id } := by
  unfold without
  simp only [mem_singleton]

theorem release_of_not_lazy (h : m.lazy = false) :
    release m p = { incomingRemove m.id p with freed := m.id :: p.freed } := by
  unfold release ownerRetire
  rw [if_pos (.inl (by rw [h]; exact Bool.false_ne_true)), h]
  rfl

theorem release_of_lazy (h : m.lazy = true) {n : Nat} (himage : p.image m.id = ⟨n + 1, false⟩) :
    release m p = { incomingRemove m.id p with
      image := update p.image m.id ⟨n, true⟩
      imagesFreed := if n = 0 then m.id :: p.imagesFreed else p.imagesFreed
      freed := m.id :: p.freed, freedLazy := m.id :: p.freedLazy } := by
  have himage' : (incomingRemove m.id p).image m.id = ⟨n + 1, false⟩ := himage
  unfold release ownerRetire
  rw [himage', if_neg (by rw [h]; simp), h]
  simp only [Nat.add_sub_cancel, Nat.add_eq_right]
  rfl

theorem release_modules : (release m p).modules =
    p.modules.map fun x => { x with edges := x.edges.filter fun e => e ≠ m.id } := by
  unfold release ownerRetire
  split <;> rfl

theorem release_rest : release m p = { p with
    modules := (release m p).modules, image := (release m p).image
    imagesFreed := (release m p).imagesFreed, freed := m.id :: p.freed, freedLazy := (release m p).freedLazy } := by
  unfold release ownerRetire
  split <;> rfl

/-- `q` has the records of `p` but `m`. -/
structure Loses (p q : Process) (m : Module) : Prop where
  old : ∀ x ∈ q.modules, ∃ x₀ ∈ p.modules, x₀.id ≠ m.id ∧ x.id = x₀.id ∧ x.lazy = x₀.lazy
  kept : ∀ x₀ ∈ p.modules, x₀.id ≠ m.id → ∃ x ∈ q.modules, x.id = x₀.id ∧ x.lazy = x₀.lazy
  pageIns : q.pageIns = p.pageIns
  nextId : q.nextId = p.nextId

/-- Without the record of another image, all images are as before. -/
theorem Loses.plain (hq : Loses p q m) (hnodup : p.ids.Nodup) (h : ImagesOk p) (hm : m ∈ p.modules)
    (hlazy : m.lazy = false) (himage : q.image = p.image) (hfreed : q.imagesFreed = p.imagesFreed)
    (hrecords : q.freedLazy = p.freedLazy) : ImagesOk q := by
  refine ⟨?_, ?_, ?_, ?_, ?_, ?_⟩
  · intro x hx hxl
    obtain ⟨x₀, hx₀, -, hid, hl'⟩ := hq.old x hx
    rw [himage, hq.pageIns, hid]
    exact h.live x₀ hx₀ (hl' ▸ hxl)
  · rw [himage, hq.pageIns, hfreed]
    exact h.gone
  · rw [hfreed]
    exact h.nodup
  · rw [himage, hfreed, hrecords]
    exact h.freed
  · rw [himage, hq.pageIns]
    intro i hi
    obtain hret | ⟨x₀, hx₀, hid, hl'⟩ := h.used i hi
    · exact .inl hret
    · have hne : x₀.id ≠ m.id := by
        intro heq
        rw [inj_on_of_nodup_map hnodup hx₀ hm heq, hlazy] at hl'
        cases hl'
      obtain ⟨x, hx, hxid, hxl⟩ := hq.kept x₀ hx₀ hne
      exact .inr ⟨x, hx, hxid.trans hid, hxl.trans hl'⟩
  · rw [himage, hq.pageIns, hq.nextId]
    exact h.unused

/-- The image of a lazily mapped record is retired, and freed when no page of it is read. -/
theorem Loses.retire (hq : Loses p q m) (hlt : m.id < p.nextId) (h : ImagesOk p) (hm : m ∈ p.modules)
    (hlazy : m.lazy = true) (himage : q.image = update p.image m.id ⟨p.pageIns.count m.id, true⟩)
    (hfreed : q.imagesFreed = if p.pageIns.count m.id = 0 then m.id :: p.imagesFreed else p.imagesFreed)
    (hrecords : q.freedLazy = m.id :: p.freedLazy) : ImagesOk q := by
  have hnot : m.id ∉ p.imagesFreed := by
    intro hin
    have := h.freed m.id (.inl hin)
    rw [h.live m hm hlazy] at this
    cases this
  refine ⟨?_, ?_, ?_, ?_, ?_, ?_⟩
  · intro x hx hxl
    obtain ⟨x₀, hx₀, hne, hid, hl'⟩ := hq.old x hx
    rw [himage, hq.pageIns, hid, update_of_ne hne]
    exact h.live x₀ hx₀ (hl' ▸ hxl)
  · intro i hi
    rw [himage, hq.pageIns, hfreed]
    by_cases him : i = m.id
    · subst him
      rw [update_self]
      refine ⟨rfl, ?_⟩
      split
      · exact iff_of_true mem_cons_self (count_eq_zero.1 ‹_›)
      · exact iff_of_false hnot fun hc => ‹¬_› (count_eq_zero.2 hc)
    · rw [himage, update_of_ne him] at hi
      rw [update_of_ne him]
      obtain ⟨hrefs, hiff⟩ := h.gone i hi
      refine ⟨hrefs, ?_⟩
      split
      · rw [mem_cons, or_iff_right him, hiff]
      · exact hiff
  · rw [hfreed]
    split
    · exact nodup_cons.2 ⟨hnot, h.nodup⟩
    · exact h.nodup
  · intro i hi
    rw [himage]
    by_cases him : i = m.id
    · rw [him, update_self]
    · rw [update_of_ne him]
      rw [hfreed, hrecords] at hi
      refine h.freed i (hi.imp (fun hi => ?_) fun hi => (mem_cons.1 hi).resolve_left him)
      split at hi
      · exact (mem_cons.1 hi).resolve_left him
      · exact hi
  · intro i hi
    rw [hq.pageIns] at hi
    rw [himage]
    by_cases him : i = m.id
    · rw [him, update_self]
      exact .inl rfl
    · rw [update_of_ne him]
      obtain hret | ⟨x₀, hx₀, rfl, hl'⟩ := h.used i hi
      · exact .inl hret
      · obtain ⟨x, hx, hxid, hxl⟩ := hq.kept x₀ hx₀ him
        exact .inr ⟨x, hx, hxid, hxl.trans hl'⟩
  · intro i hi
    rw [hq.nextId] at hi
    rw [himage, hq.pageIns, update_of_ne (by omega)]
    exact h.unused i hi

theorem images_release (hnodup : p.ids.Nodup) (hlt : ∀ m ∈ p.modules, m.id < p.nextId)
    (h : ImagesOk p) (hm : m ∈ p.modules) {l : List Module} {mapped : Finset Nat}
    (hl : l = p.modules.filter fun x => x.id ≠ m.id) :
    ImagesOk (release m { p with modules := l, mapped := mapped }) := by
  have hloses : Loses p (release m { p with modules := l, mapped := mapped }) m := by
    refine ⟨fun x hx => ?_, fun x₀ hx₀ hne => ?_, by rw [release_rest], by rw [release_rest]⟩
    · rw [release_modules, hl] at hx
      obtain ⟨x₀, hx₀, rfl⟩ := mem_map.1 hx
      obtain ⟨hx₀, hne⟩ := mem_filter.1 hx₀
      exact ⟨x₀, hx₀, of_decide_eq_true hne, rfl, rfl⟩
    · rw [release_modules, hl]
      exact ⟨_, mem_map_of_mem (mem_filter.2 ⟨hx₀, decide_eq_true hne⟩), rfl, rfl⟩
  cases hlazy : m.lazy with
  | false =>
    rw [release_of_not_lazy hlazy] at hloses ⊢
    exact hloses.plain hnodup h hm hlazy rfl rfl rfl
  | true =>
    rw [release_of_lazy (p := { p with modules := l, mapped := mapped }) hlazy (h.live m hm hlazy)] at hloses ⊢
    exact hloses.retire (hlt m hm) h hm hlazy rfl rfl rfl

theorem release_spec (h : Listed p) (hm : m ∈ p.modules) {l : List Module} {mapped : Finset Nat}
    (hl : l = p.modules.filter fun x => x.id ≠ m.id) (hmapped : mapped = p.mapped.erase m.base) :
    Released p (release m { p with modules := l, mapped := mapped }) [m.id] ∧
      Listed (release m { p with modules := l, mapped := mapped }) := by
  have hmod : (release m { p with modules := l, mapped := mapped }).modules = without [m.id] p.modules := by
    rw [release_modules, without_singleton, hl]
  have hrel : Released p (release m { p with modules := l, mapped := mapped }) [m.id] := by
    refine ⟨hmod, fun b => ?_, ?_, ?_⟩
    · have heq : (release m { p with modules := l, mapped := mapped }).mapped = p.mapped.erase m.base := by
        rw [release_rest]
        exact hmapped
      rw [heq, Finset.mem_erase]
      constructor
      · rintro ⟨hne, hb⟩
        refine ⟨hb, fun x hx hid => ?_⟩
        rw [inj_on_of_nodup_map h.nodup hx hm (mem_singleton.1 hid)]
        exact hne.symm
      · rintro ⟨hb, hall⟩
        exact ⟨(hall m hm (mem_singleton.2 rfl)).symm, hb⟩
    · rw [release_rest]
      rfl
    · rw [release_rest]
  refine ⟨hrel, ?_, ?_, images_release h.nodup h.lt h.images hm hl, ?_⟩
  · rw [hrel.ids]
    exact h.nodup.filter _
  · intro x hx
    rw [hmod] at hx
    obtain ⟨x₀, hx₀, -, rfl⟩ := mem_without.1 hx
    rw [hrel.rest]
    exact h.lt x₀ hx₀
  · intro h0
    exact h.zero ((hrel.mapped 0).1 h0).1

/-! ### The two loops -/

theorem filter_of_not_mem {l : List Module} (h : id ∉ l.map Module.id) :
    l.filter (fun x => x.id ≠ id) = l := by
  rw [filter_eq_self]
  intro x hx
  rw [decide_eq_true_eq]
  rintro rfl
  exact h (mem_map_of_mem hx)

theorem rollbackLoop_spec (fresh : List Nat) {rest : List Nat} :
    ∀ {fuel : Nat} {p : Process}, Listed p → p.ids = fresh ++ rest → fresh.length ≤ fuel →
      Released p (rollbackLoop rest.head? fuel p) fresh ∧ Listed (rollbackLoop rest.head? fuel p) := by
  induction fresh with
  | nil =>
    intro fuel p h hids _
    have hstop : rollbackLoop rest.head? fuel p = p := by
      cases fuel with
      | zero => rfl
      | succ fuel =>
        unfold rollbackLoop
        cases hm : p.modules with
        | nil => rfl
        | cons m ms =>
          have hhead : some m.id = rest.head? := by
            rw [← nil_append rest, ← hids]
            unfold Process.ids
            rw [hm]
            rfl
          exact if_pos hhead
    rw [hstop]
    exact ⟨released_nil p, h⟩
  | cons i fresh ih =>
    intro fuel p h hids hfuel
    obtain ⟨fuel, rfl⟩ : ∃ n, fuel = n + 1 := ⟨fuel - 1, by
      rw [length_cons] at hfuel
      omega⟩
    obtain ⟨m, ms, hmods, rfl, hms⟩ := map_eq_cons_iff.1 hids
    have hnodup := h.nodup
    rw [hids] at hnodup
    obtain ⟨hnot, -⟩ := nodup_cons.1 hnodup
    have hne : ¬some m.id = rest.head? := by
      intro hc
      exact hnot (mem_append_right _ (mem_of_head? hc.symm))
    have hl : ms = p.modules.filter fun x => x.id ≠ m.id := by
      rw [hmods, filter_cons_of_neg (by simp), filter_of_not_mem (by rw [hms]; exact hnot)]
    have hmapped : (if m.base = 0 then p.mapped else p.mapped.erase m.base) = p.mapped.erase m.base := by
      split
      · rename_i h0
        rw [h0, Finset.erase_eq_of_notMem h.zero]
      · rfl
    obtain ⟨hrel, hlisted⟩ := release_spec h (hmods ▸ mem_cons_self) hl hmapped
    have hids' : (release m { p with
        modules := ms
        mapped := if m.base = 0 then p.mapped else p.mapped.erase m.base }).ids = fresh ++ rest := by
      rw [hrel.ids, hids, cons_append, filter_cons_of_neg (by simp), filter_eq_self]
      intro x hx
      rw [decide_eq_true_eq, mem_singleton]
      rintro rfl
      exact hnot hx
    obtain ⟨hrel', hlisted'⟩ := ih hlisted hids' (Nat.le_of_succ_le_succ hfuel)
    have hloop : rollbackLoop rest.head? (fuel + 1) p = rollbackLoop rest.head? fuel
        (release m { p with
          modules := ms
          mapped := if m.base = 0 then p.mapped else p.mapped.erase m.base }) := by
      rw [rollbackLoop, hmods]
      exact if_neg hne
    rw [hloop]
    exact ⟨hrel.cons hrel', hlisted'⟩

theorem commitLoop_spec (io : CommitIo) (nodes : List Nat) : ∀ {p : Process}, Listed p →
    nodes.Nodup → (∀ i ∈ nodes, i ∈ p.ids) → ∃ gone, nodes = gone ++ (commitLoop io nodes p).2.1 ∧
      Released p (commitLoop io nodes p).1 gone ∧ Listed (commitLoop io nodes p).1 ∧
      ((commitLoop io nodes p).2.2 = .ok () ↔ (commitLoop io nodes p).2.1 = []) := by
  induction nodes with
  | nil => exact fun {p} h _ _ => ⟨[], rfl, released_nil p, h, iff_of_true rfl rfl⟩
  | cons i rest ih =>
    intro p h hnodup hin
    obtain ⟨hnot, hnodup'⟩ := nodup_cons.1 hnodup
    have hstuck : ∀ st : Status, ∃ gone, i :: rest = gone ++ (i :: rest) ∧ Released p p gone ∧ Listed p ∧
        ((.error st : Except Status Unit) = .ok () ↔ i :: rest = []) := fun st =>
      ⟨[], rfl, released_nil p, h, iff_of_false nofun nofun⟩
    unfold commitLoop
    cases hfind : p.modules.find? fun m => m.id = i with
    | none => exact hstuck _
    | some m =>
      obtain rfl : m.id = i := by
        have := List.find?_some hfind
        exact of_decide_eq_true this
      simp only
      by_cases hunlinked : ¬io.unlinked m.id
      · rw [if_pos hunlinked]
        exact hstuck _
      rw [if_neg hunlinked]
      by_cases hunmapped : ¬io.unmapped m.id
      · rw [if_pos hunmapped]
        exact hstuck _
      rw [if_neg hunmapped]
      obtain ⟨hrel, hlisted⟩ := release_spec h (mem_of_find?_eq_some hfind) rfl rfl
      obtain ⟨gone, hgone, hrel', hlisted', hok⟩ := ih hlisted hnodup' fun x hx => by
        rw [hrel.ids, mem_filter, decide_eq_true_eq, mem_singleton]
        exact ⟨hin x (mem_cons_of_mem _ hx), fun hc => hnot (hc ▸ hx)⟩
      exact ⟨m.id :: gone, by rw [cons_append, ← hgone], hrel.cons hrel', hlisted', hok⟩

end Win98Modern.Loader
