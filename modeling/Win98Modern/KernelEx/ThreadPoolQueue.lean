import Win98Modern.KernelEx.ThreadPool
import Win98Modern.Lib.Chain

/-!
# The queue of work objects

`Queue p q`: the objects linked from the first one are `q`.  An object is put behind the last one, the
first one is taken, and one in the middle is removed.
-/

namespace Win98Modern.ThreadPool

open Function List

variable {p : Pool} {w u : Nat} {q : List Nat}

namespace Pool

/-- The links and the pointer to the last object are those of a list. -/
structure Queue (p : Pool) (q : List Nat) : Prop where
  chain : Chain some p.links none q
  last : p.last = q.getLast?
  nodup : q.Nodup

theorem Queue.congr {p' : Pool} (h : Queue p q) (hlinks : p'.links = p.links) (hlast : p'.last = p.last) :
    Queue p' q := by
  obtain ⟨hchain, hl, hn⟩ := h
  exact ⟨hlinks ▸ hchain, hlast.trans hl, hn⟩

theorem lastSlot_some (q : List Nat) : lastSlot some none q = q.getLast? := by
  rw [lastSlot_eq]
  cases q.getLast? <;> rfl

theorem slots_nodup_some (hq : q.Nodup) : (slots some none q).Nodup :=
  slots_nodup (fun _ _ => Option.some.inj) nofun hq

theorem some_not_mem_slots (hw : w ∉ q) : some w ∉ slots some none q := by
  intro hmem
  rcases mem_cons.1 hmem with hnone | hmap
  · exact nomatch hnone
  · obtain ⟨u, hu, hsome⟩ := mem_map.1 hmap
    exact hw (Option.some.inj hsome ▸ hu)

/-- A link outside the queue can change. -/
theorem chain_update {heap : Option Nat → Option Nat} (h : Chain some heap none q) (hw : w ∉ q) (x : Option Nat) :
    Chain some (update heap (some w) x) none q := by
  refine h.congr fun s hs => update_of_ne ?_ _ _
  rintro rfl
  exact some_not_mem_slots hw hs

theorem push_queue (h : Queue p q) (hw : w ∉ q) : Queue (p.push w) (q ++ [w]) where
  chain := by
    have hclear := chain_update h.chain hw none
    have hslot : p.last = lastSlot some none q := h.last.trans (lastSlot_some q).symm
    show Chain some (update (update p.links (some w) none) p.last (some w)) none (q ++ [w])
    rw [hslot]
    exact hclear.push (slots_nodup_some h.nodup) (update_self ..) (some_not_mem_slots hw)
  last := by
    rw [List.getLast?_concat]
    rfl
  nodup := nodup_append.2 ⟨h.nodup, nodup_singleton w, fun a ha b hb hab =>
    hw (mem_singleton.1 hb ▸ hab ▸ ha)⟩

/-! ### Pop -/

theorem Queue.first (h : Queue p q) : p.links none = q.head? := h.chain.head

theorem pop_none (h : Queue p []) : p.pop = (p, none) := by
  have hfirst : p.links none = none := h.first
  simp only [pop, hfirst]

theorem pop_some (h : Queue p (w :: q)) : p.pop.2 = some w ∧ Queue p.pop.1 q ∧
    p.pop.1.works = update p.works w ((p.works w).map fun o => { o with queued := false }) ∧
      p.pop.1.workers = p.workers ∧ p.pop.1.dying = p.dying ∧ p.pop.1.made = p.made ∧ p.pop.1.busy = p.busy ∧
        p.pop.1.semaphore = p.semaphore ∧ p.pop.1.touched = p.touched := by
  have hfirst : p.links none = some w := h.first
  obtain ⟨hw, hq⟩ := nodup_cons.1 h.nodup
  have hnext : p.links (some w) = q.head? := h.chain.2.head
  rw [pop, hfirst]
  refine ⟨rfl, ⟨?_, ?_, hq⟩, rfl, rfl, rfl, rfl, rfl, rfl, rfl⟩
  · exact chain_update (h.chain.pop (slots_nodup_some h.nodup)) hw none
  · show (if p.links (some w) = none then none else p.last) = q.getLast?
    rw [hnext, h.last]
    cases q with
    | nil => rfl
    | cons a q => rw [if_neg nofun, List.getLast?_cons_cons]

theorem seek_spec {links : Option Nat → Option Nat} {post : List Nat} (pre : List Nat) : ∀ {slot : Option Nat}
    {fuel : Nat}, Chain some links slot (pre ++ w :: post) → w ∉ pre → pre.length < fuel →
      seek links w fuel slot = some (lastSlot some slot pre) := by
  induction pre with
  | nil =>
    intro slot fuel hchain _ hfuel
    obtain ⟨fuel, rfl⟩ := Nat.exists_eq_succ_of_ne_zero (Nat.ne_of_gt hfuel)
    have hslot : links slot = some w := hchain.1
    simp only [seek, hslot, if_pos, lastSlot]
  | cons a pre ih =>
    intro slot fuel hchain hw hfuel
    obtain ⟨fuel, rfl⟩ := Nat.exists_eq_succ_of_ne_zero (Nat.ne_of_gt (Nat.zero_lt_of_lt hfuel))
    have hslot : links slot = some a := hchain.1
    have ha : a ≠ w := fun he => hw (he ▸ mem_cons_self)
    simp only [seek, hslot, if_neg ha, lastSlot]
    exact ih hchain.2 (fun hmem => hw (mem_cons_of_mem _ hmem)) (Nat.lt_of_succ_lt_succ hfuel)

theorem remove_spec (h : Queue p q) (hw : w ∈ q) (hlen : q.length ≤ p.made) :
    Queue (p.remove w) (q.erase w) ∧
      (p.remove w).works = update p.works w ((p.works w).map fun o => { o with queued := false }) ∧
        (p.remove w).workers = p.workers ∧ (p.remove w).dying = p.dying ∧ (p.remove w).made = p.made ∧
          (p.remove w).semaphore = p.semaphore ∧ (p.remove w).touched = p.touched ∧ (p.remove w).busy = p.busy := by
  obtain ⟨pre, post, rfl, hpre⟩ := eq_append_cons_of_mem hw
  have hn := nodup_middle.1 h.nodup
  obtain ⟨hw', hn'⟩ := nodup_cons.1 hn
  have hpost : w ∉ post := fun hmem => hw' (mem_append_right _ hmem)
  have hseek : seek p.links w p.made none = some (lastSlot some none pre) :=
    seek_spec pre h.chain hpre (by simp only [length_append, length_cons] at hlen; omega)
  rw [erase_append_right _ hpre, erase_cons_head]
  simp only [remove, hseek]
  refine ⟨⟨?_, ?_, hn'⟩, rfl, rfl, rfl, rfl, rfl, rfl, rfl⟩
  · exact chain_update (h.chain.cut (slots_nodup_some h.nodup)) hw' none
  · show (if p.last = some w then lastSlot some none pre else p.last) = (pre ++ post).getLast?
    rw [h.last, lastSlot_some]
    cases post with
    | nil => simp
    | cons a post =>
      have hlast : (a :: post).getLast? ≠ some w := fun he => hpost (mem_of_getLast? he)
      rw [List.getLast?_append_of_ne_nil _ (cons_ne_nil _ _), List.getLast?_cons_cons, if_neg hlast,
        List.getLast?_append_of_ne_nil _ (cons_ne_nil _ _)]

end Pool

end Win98Modern.ThreadPool
