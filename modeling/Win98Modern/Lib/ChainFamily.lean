import Win98Modern.Lib.Chain

/-!
# Many linked lists in one heap

The lists of a family start at the slots `hd k`, and a node has one slot, so it can be in one list at
most.  `ChainFamily hd nx heap L`: the list at `hd k` has the nodes `L k`, and no node is in two lists or
twice in one.  `appendNode` links a node behind the last of a list, and `removeNode` takes a node out and
empties its slot; both change one list of the family.
-/

namespace Win98Modern

open Function List

section Families

variable {K N S : Type*} {hd : K → S} {nx : N → S} {heap : S → Option N} {L : K → List N}

/-- The list at `hd k` has the nodes `L k`, and no node is in two places. -/
structure ChainFamily (hd : K → S) (nx : N → S) (heap : S → Option N) (L : K → List N) : Prop where
  chain : ∀ k, Chain nx heap (hd k) (L k)
  nodup : ∀ k, (L k).Nodup
  apart : ∀ k k' a, a ∈ L k → a ∈ L k' → k = k'

/-- `a->next = 0;` and then the last slot of the list at `p` takes `a`. -/
def appendNode [DecidableEq S] (nx : N → S) (fuel : Nat) (p : S) (a : N) (heap : S → Option N) : S → Option N :=
  let heap := update heap (nx a) none
  update heap (tailSlot nx heap fuel p) (some a)

/-- `a` leaves the list at `p`, and then `a->next = 0;`. -/
def removeNode [DecidableEq N] [DecidableEq S] (nx : N → S) (fuel : Nat) (p : S) (a : N)
    (heap : S → Option N) : S → Option N :=
  update (unlink nx a fuel p heap) (nx a) none

theorem ChainFamily.head (h : ChainFamily hd nx heap L) (k : K) : heap (hd k) = (L k).head? := (h.chain k).head

theorem ChainFamily.count [DecidableEq N] (h : ChainFamily hd nx heap L) (k : K) (a : N) :
    (L k).count a = if a ∈ L k then 1 else 0 := by
  by_cases ha : a ∈ L k
  · rw [if_pos ha, count_eq_one_of_mem (h.nodup k) ha]
  · rw [if_neg ha, count_eq_zero_of_not_mem ha]

/-! ### Slots of different lists -/

variable {k : K} {l pre post : List N} {a : N} {fuel : Nat}

theorem slot_not_mem (hnx : Function.Injective nx) (hne : ∀ k a, hd k ≠ nx a) (ha : a ∉ l) :
    nx a ∉ slots nx (hd k) l := by
  intro hm
  rw [slots, mem_cons, mem_map] at hm
  obtain e | ⟨b, hb, e⟩ := hm
  · exact hne k a e.symm
  · exact ha (hnx e ▸ hb)

theorem ChainFamily.slots_nodup (h : ChainFamily hd nx heap L) (hnx : Function.Injective nx)
    (hne : ∀ k a, hd k ≠ nx a) (k : K) : (slots nx (hd k) (L k)).Nodup :=
  Win98Modern.slots_nodup hnx (fun a e => hne k a e.symm) (h.nodup k)

theorem ChainFamily.slots_apart (h : ChainFamily hd nx heap L) (hhd : Function.Injective hd)
    (hnx : Function.Injective nx) (hne : ∀ k a, hd k ≠ nx a) {k' : K} (hk : k ≠ k') {p : S}
    (hp : p ∈ slots nx (hd k) (L k)) : p ∉ slots nx (hd k') (L k') := by
  rw [slots, mem_cons, mem_map] at hp
  obtain rfl | ⟨a, ha, rfl⟩ := hp
  · intro hp'
    rw [slots, mem_cons, mem_map] at hp'
    obtain e | ⟨b, -, e⟩ := hp'
    · exact hk (hhd e)
    · exact hne k b e.symm
  · exact slot_not_mem hnx hne fun ha' => hk (h.apart k k' a ha ha')

/-! ### Rewriting one list -/

variable [DecidableEq K]

theorem ChainFamily.rewrite (h : ChainFamily hd nx heap L) {heap' : S → Option N}
    (hl : Chain nx heap' (hd k) l) (hnd : l.Nodup) (hapart : ∀ k', k' ≠ k → ∀ a ∈ l, a ∉ L k')
    (hsame : ∀ k', k' ≠ k → ∀ q ∈ slots nx (hd k') (L k'), heap' q = heap q) :
    ChainFamily hd nx heap' (update L k l) where
  chain := by
    intro k'
    by_cases hk : k' = k
    · subst hk
      rwa [update_self]
    · rw [update_of_ne hk]
      exact (h.chain k').congr (hsame k' hk)
  nodup := by
    intro k'
    by_cases hk : k' = k
    · subst hk
      rwa [update_self]
    · rw [update_of_ne hk]
      exact h.nodup k'
  apart := by
    intro k₁ k₂ a h₁ h₂
    by_cases e₁ : k₁ = k
    · by_cases e₂ : k₂ = k
      · rw [e₁, e₂]
      · subst e₁
        rw [update_self] at h₁
        rw [update_of_ne e₂] at h₂
        exact absurd h₂ (hapart k₂ e₂ a h₁)
    · rw [update_of_ne e₁] at h₁
      by_cases e₂ : k₂ = k
      · subst e₂
        rw [update_self] at h₂
        exact absurd h₁ (hapart k₁ e₁ a h₂)
      · rw [update_of_ne e₂] at h₂
        exact h.apart k₁ k₂ a h₁ h₂

variable [DecidableEq S]

omit [DecidableEq K] in
theorem ChainFamily.clear (h : ChainFamily hd nx heap L) (hnx : Function.Injective nx)
    (hne : ∀ k a, hd k ≠ nx a) (ha : ∀ k, a ∉ L k) :
    ChainFamily hd nx (update heap (nx a) none) L := by
  refine ⟨fun k => (h.chain k).congr fun q hq => update_of_ne ?_ .., h.nodup, h.apart⟩
  rintro rfl
  exact slot_not_mem hnx hne (ha k) hq

/-- A node that is in no list is the last one of a list then. -/
theorem ChainFamily.append (h : ChainFamily hd nx heap L) (hhd : Function.Injective hd)
    (hnx : Function.Injective nx) (hne : ∀ k a, hd k ≠ nx a) (ha : ∀ k, a ∉ L k)
    (hf : (L k).length ≤ fuel) :
    ChainFamily hd nx (appendNode nx fuel (hd k) a heap) (update L k (L k ++ [a])) := by
  have hc := h.clear hnx hne ha
  have hlast : lastSlot nx (hd k) (L k) ∈ slots nx (hd k) (L k) := lastSlot_mem ..
  rw [appendNode, (hc.chain k).tailSlot hf]
  refine hc.rewrite ?_ ?_ ?_ ?_
  · exact (hc.chain k).push (hc.slots_nodup hnx hne k) (update_self ..) (slot_not_mem hnx hne (ha k))
  · rw [nodup_append]
    refine ⟨h.nodup k, nodup_singleton a, ?_⟩
    rintro b hb c hc rfl
    exact ha k (mem_singleton.1 hc ▸ hb)
  · intro k' hk b hb
    obtain hb | hb := mem_append.1 hb
    · exact fun hb' => hk (h.apart k' k b hb' hb)
    · rw [mem_singleton.1 hb]
      exact ha k'
  · intro k' hk q hq
    refine update_of_ne ?_ ..
    rintro rfl
    exact h.slots_apart hhd hnx hne hk hq hlast

theorem ChainFamily.detach (h : ChainFamily hd nx heap L) (hhd : Function.Injective hd)
    (hnx : Function.Injective nx) (hne : ∀ k a, hd k ≠ nx a) (hL : L k = pre ++ a :: post) :
    ChainFamily hd nx (update heap (lastSlot nx (hd k) pre) (heap (nx a)))
      (update L k (pre ++ post)) := by
  have hchain := h.chain k
  have hslots := h.slots_nodup hnx hne k
  have hnd := h.nodup k
  rw [hL] at hchain hslots hnd
  have hsub : ∀ b ∈ pre ++ post, b ∈ L k := by
    intro b hb
    rw [hL]
    obtain hb | hb := mem_append.1 hb
    · exact mem_append_left _ hb
    · exact mem_append_right _ (mem_cons_of_mem _ hb)
  have hlast : lastSlot nx (hd k) pre ∈ slots nx (hd k) (L k) := by
    have hc : lastSlot nx (hd k) pre = hd k ∨ ∃ b ∈ pre, lastSlot nx (hd k) pre = nx b := lastSlot_cases ..
    obtain e | ⟨b, hb, e⟩ := hc
    · rw [e]
      exact mem_cons_self
    · rw [e, hL]
      exact mem_cons_of_mem _ (mem_map_of_mem (mem_append_left _ hb))
  refine h.rewrite (hchain.cut hslots) (nodup_cons.1 (nodup_middle.1 hnd)).2
    (fun k' hk b hb hb' => hk (h.apart k' k b hb' (hsub b hb))) fun k' hk q hq => update_of_ne ?_ ..
  rintro rfl
  exact h.slots_apart hhd hnx hne hk hq hlast

theorem ChainFamily.cut (h : ChainFamily hd nx heap L) (hhd : Function.Injective hd)
    (hnx : Function.Injective nx) (hne : ∀ k a, hd k ≠ nx a) (hL : L k = pre ++ a :: post) :
    ChainFamily hd nx
      (update (update heap (lastSlot nx (hd k) pre) (heap (nx a))) (nx a) none)
      (update L k (pre ++ post)) := by
  refine (h.detach hhd hnx hne hL).clear hnx hne fun k' => ?_
  by_cases hk : k' = k
  · subst hk
    rw [update_self]
    exact (nodup_cons.1 (nodup_middle.1 (hL ▸ h.nodup k'))).1
  · rw [update_of_ne hk]
    intro ha
    exact hk (h.apart k' k a ha (hL ▸ mem_append_right _ mem_cons_self))

theorem ChainFamily.pop (h : ChainFamily hd nx heap L) (hhd : Function.Injective hd)
    (hnx : Function.Injective nx) (hne : ∀ k a, hd k ≠ nx a) (hL : L k = a :: l) :
    ChainFamily hd nx (update (update heap (hd k) (heap (nx a))) (nx a) none)
      (update L k l) :=
  h.cut hhd hnx hne (show L k = [] ++ a :: l from hL)

variable [DecidableEq N]

theorem ChainFamily.remove (h : ChainFamily hd nx heap L) (hhd : Function.Injective hd)
    (hnx : Function.Injective nx) (hne : ∀ k a, hd k ≠ nx a) (hL : L k = pre ++ a :: post)
    (hf : (L k).length ≤ fuel) :
    ChainFamily hd nx (removeNode nx fuel (hd k) a heap) (update L k (pre ++ post)) := by
  have hchain := h.chain k
  have hnd := h.nodup k
  rw [hL] at hchain hnd hf
  rw [length_append, length_cons] at hf
  have hpre : a ∉ pre := fun hm =>
    (nodup_cons.1 (nodup_middle.1 hnd)).1 (mem_append_left _ hm)
  rw [removeNode, unlink_of_mem hchain hpre (by omega)]
  exact h.cut hhd hnx hne hL

end Families

end Win98Modern
