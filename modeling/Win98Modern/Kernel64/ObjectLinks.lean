import Mathlib.Data.List.Perm.Subperm
import Mathlib.Data.List.ProdSigma
import Win98Modern.Kernel64.Objects

/-!
# Waiter lists

`Queues heap L`: the waiter list of every object `o` has exactly the blocks `L o`, and
no block is in two lists or twice in one.  `Queues.linkWaits` and `Queues.unlinkWaits` are
the two edits of the wait machinery.

A wait that is satisfied takes all its blocks out of their lists, but leaves their own
next slots as they are (`Queues.unlinkWaits`), so a walk that stands on such a block goes
on to the blocks that follow it.
-/

namespace Win98Modern.Ob

open Function List

/-! ### Queues -/

structure Queues (heap : Slot → Option Block) (L : Oid → List Block) : Prop where
  chain : ∀ o, Chain Slot.next heap (.waiters o) (L o)
  nodup : ∀ o, (L o).Nodup
  apart : ∀ o o' b, b ∈ L o → b ∈ L o' → o = o'
  bound : ∀ o, ∀ b ∈ L o, b.thread < MAX_THREADS ∧ b.index < MAX_WAIT

theorem next_injective : Function.Injective Slot.next := fun _ _ h => Slot.next.inj h

/-- The place of a block in a table with a row of `MAX_WAIT` for each thread. -/
def place (t i : Nat) : Nat := t * MAX_WAIT + i

variable {t i : Nat} {req : Tid → List Oid} {q : List Tid}

theorem place_inj {t' i' : Nat} (hi : i < MAX_WAIT) (hi' : i' < MAX_WAIT)
    (h : place t i = place t' i') : t = t' ∧ i = i' := by
  unfold place MAX_WAIT at *
  omega

theorem place_lt (ht : t < MAX_THREADS) (hi : i < MAX_WAIT) : place t i < maxBlocks := by
  unfold place maxBlocks MAX_THREADS MAX_WAIT at *
  omega

theorem blocks_length_le {l : List Block} (hl : l.Nodup)
    (hb : ∀ b ∈ l, b.thread < MAX_THREADS ∧ b.index < MAX_WAIT) : l.length ≤ maxBlocks := by
  have hmap : (l.map fun b => place b.thread b.index).Nodup := by
    refine hl.map_on ?_
    intro a ha b hb' he
    obtain ⟨h₁, h₂⟩ := place_inj (hb a ha).2 (hb b hb').2 he
    cases a
    cases b
    exact Block.mk.injEq .. ▸ ⟨h₁, h₂⟩
  have hsub : (l.map fun b => place b.thread b.index) ⊆ List.range maxBlocks := by
    intro n hn
    obtain ⟨b, hm, rfl⟩ := mem_map.1 hn
    exact mem_range.2 (place_lt (hb b hm).1 (hb b hm).2)
  simpa using (subperm_of_subset hmap hsub).length_le

section Edits

variable {heap : Slot → Option Block} {L : Oid → List Block}

theorem Queues.length_le (h : Queues heap L) (o : Oid) : (L o).length ≤ maxBlocks :=
  blocks_length_le (h.nodup o) (h.bound o)

theorem Queues.slots_nodup (h : Queues heap L) (o : Oid) :
    (slots Slot.next (.waiters o) (L o)).Nodup :=
  Win98Modern.slots_nodup next_injective (fun _ => Slot.noConfusion) (h.nodup o)

variable {o : Oid} {p : Slot} {t : Tid} {i : Nat} {ps : List (Oid × Nat)}

theorem Queues.slots_apart (h : Queues heap L) {o' : Oid} (ho : o ≠ o')
    (hp : p ∈ slots Slot.next (.waiters o) (L o)) : p ∉ slots Slot.next (.waiters o') (L o') := by
  intro hp'
  rw [slots, mem_cons, mem_map] at hp hp'
  obtain rfl | ⟨a, ha, rfl⟩ := hp
  · obtain e | ⟨b, -, e⟩ := hp'
    · exact ho (Slot.waiters.inj e)
    · exact Slot.noConfusion e
  · obtain e | ⟨b, hb, e⟩ := hp'
    · exact Slot.noConfusion e
    · rw [Slot.next.inj e] at hb
      exact ho (h.apart o o' a ha hb)

/-- One list changes, and the others are apart from it. -/
theorem Queues.write (h : Queues heap L) {v : Option Block} {l : List Block}
    (hp : p ∈ slots Slot.next (.waiters o) (L o))
    (hl : Chain Slot.next (update heap p v) (.waiters o) l) (hnd : l.Nodup)
    (hapart : ∀ o', o' ≠ o → ∀ b ∈ l, b ∉ L o')
    (hbound : ∀ b ∈ l, b.thread < MAX_THREADS ∧ b.index < MAX_WAIT) :
    Queues (update heap p v) (update L o l) where
  chain := by
    intro o'
    by_cases ho : o' = o
    · subst ho
      rwa [update_self]
    · rw [update_of_ne ho]
      refine (h.chain o').congr fun q hq => update_of_ne ?_ ..
      rintro rfl
      exact h.slots_apart (Ne.symm ho) hp hq
  nodup := by
    intro o'
    by_cases ho : o' = o
    · subst ho
      rwa [update_self]
    · rw [update_of_ne ho]
      exact h.nodup o'
  apart := by
    intro o₁ o₂ b h₁ h₂
    by_cases e₁ : o₁ = o
    · by_cases e₂ : o₂ = o
      · rw [e₁, e₂]
      · subst e₁
        rw [update_self] at h₁
        rw [update_of_ne e₂] at h₂
        exact absurd h₂ (hapart o₂ e₂ b h₁)
    · rw [update_of_ne e₁] at h₁
      by_cases e₂ : o₂ = o
      · subst e₂
        rw [update_self] at h₂
        exact absurd h₁ (hapart o₁ e₁ b h₂)
      · rw [update_of_ne e₂] at h₂
        exact h.apart o₁ o₂ b h₁ h₂
  bound := by
    intro o'
    by_cases ho : o' = o
    · subst ho
      rwa [update_self]
    · rw [update_of_ne ho]
      exact h.bound o'

theorem Queues.linkBlock (h : Queues heap L) (hnew : ∀ o', (⟨t, i⟩ : Block) ∉ L o')
    (ht : t < MAX_THREADS) (hi : i < MAX_WAIT) :
    Queues (linkBlock t heap (o, i)) (update L o (L o ++ [⟨t, i⟩])) := by
  have hslot : ∀ o', Slot.next ⟨t, i⟩ ∉ slots Slot.next (.waiters o') (L o') := by
    intro o' hm
    rw [slots, mem_cons, mem_map] at hm
    obtain e | ⟨b, hb, e⟩ := hm
    · exact Slot.noConfusion e
    · exact hnew o' (Slot.next.inj e ▸ hb)
  have hclear : Queues (update heap (.next ⟨t, i⟩) none) L :=
    { h with
      chain := by
        intro o'
        refine (h.chain o').congr fun q hq => update_of_ne ?_ ..
        rintro rfl
        exact hslot o' hq }
  unfold Win98Modern.Ob.linkBlock
  simp only
  rw [(hclear.chain o).tailSlot (hclear.length_le o)]
  refine hclear.write (lastSlot_mem ..)
    ((hclear.chain o).push (hclear.slots_nodup o) (update_self ..) (hslot o)) ?_ ?_ ?_
  · rw [nodup_append]
    refine ⟨h.nodup o, by simp, ?_⟩
    rintro a ha b hb rfl
    exact hnew o (mem_singleton.1 hb ▸ ha)
  · intro o' ho b hb
    obtain hb | hb := mem_append.1 hb
    · exact fun hb' => ho (h.apart o' o b hb' hb)
    · rw [mem_singleton.1 hb]
      exact hnew o'
  · intro b hb
    obtain hb | hb := mem_append.1 hb
    · exact h.bound o b hb
    · rw [mem_singleton.1 hb]
      exact ⟨ht, hi⟩

theorem Queues.unlinkBlock (h : Queues heap L) {pre post : List Block}
    (hL : L o = pre ++ ⟨t, i⟩ :: post) (hpre : ∀ b ∈ pre, b.thread ≠ t) :
    Queues (unlinkBlock t heap (o, i)) (update L o (pre ++ post)) ∧
      ∀ b : Block, b.thread = t → unlinkBlock t heap (o, i) (.next b) = heap (.next b) := by
  have hchain := h.chain o
  have hslots := h.slots_nodup o
  have hnd := h.nodup o
  have hlen := h.length_le o
  rw [hL] at hchain hslots hnd hlen
  rw [length_append, length_cons] at hlen
  have hpre' : (⟨t, i⟩ : Block) ∉ pre := fun hm => hpre _ hm rfl
  have hun : Win98Modern.Ob.unlinkBlock t heap (o, i) =
      update heap (lastSlot Slot.next (.waiters o) pre) (heap (.next ⟨t, i⟩)) :=
    unlink_of_mem hchain hpre' (by omega)
  have hsub : ∀ b ∈ pre ++ post, b ∈ L o := by
    intro b hb
    rw [hL]
    obtain hb | hb := mem_append.1 hb
    · exact mem_append_left _ hb
    · exact mem_append_right _ (mem_cons_of_mem _ hb)
  have hlast : lastSlot Slot.next (.waiters o) pre = .waiters o ∨
      ∃ a ∈ pre, lastSlot Slot.next (.waiters o) pre = .next a := lastSlot_cases ..
  rw [hun]
  constructor
  · refine h.write ?_ (hchain.cut hslots) ?_ ?_ fun b hb => h.bound o b (hsub b hb)
    · obtain e | ⟨a, ha, e⟩ := hlast
      · rw [e]
        exact mem_cons_self
      · rw [e, hL]
        exact mem_cons_of_mem _ (mem_map_of_mem (mem_append_left _ ha))
    · rw [nodup_append] at hnd ⊢
      refine ⟨hnd.1, (nodup_cons.1 hnd.2.1).2, ?_⟩
      intro a ha b hb
      exact hnd.2.2 a ha b (mem_cons_of_mem _ hb)
    · exact fun o' ho b hb hb' => ho (h.apart o' o b hb' (hsub b hb))
  · intro b hb
    refine update_of_ne ?_ ..
    intro e
    obtain e' | ⟨a, ha, e'⟩ := hlast
    · exact Slot.noConfusion (e.trans e')
    · rw [Slot.next.inj (e.trans e')] at hb
      exact hpre a ha hb

/-! ### The blocks of a wait -/

/-- The blocks that entries of a wait put on the list of `o`. -/
def pairBlocks (t : Tid) (ps : List (Oid × Nat)) (o : Oid) : List Block :=
  (ps.filter fun p => p.1 == o).map fun p => ⟨t, p.2⟩

theorem pairBlocks_cons (t : Tid) (p : Oid × Nat) (ps : List (Oid × Nat)) (o : Oid) :
    pairBlocks t (p :: ps) o =
      if p.1 = o then ⟨t, p.2⟩ :: pairBlocks t ps o else pairBlocks t ps o := by
  by_cases h : p.1 = o <;> simp [pairBlocks, h]

theorem mem_pairBlocks {b : Block} : b ∈ pairBlocks t ps o ↔ b.thread = t ∧ (o, b.index) ∈ ps := by
  simp only [pairBlocks, mem_map, mem_filter, beq_iff_eq]
  constructor
  · rintro ⟨⟨_, i⟩, ⟨hp, rfl⟩, rfl⟩
    exact ⟨rfl, hp⟩
  · rintro ⟨rfl, hp⟩
    exact ⟨(o, b.index), ⟨hp, rfl⟩, rfl⟩

theorem Queues.linkPairs (h : Queues heap L) (hps : (ps.map Prod.snd).Nodup)
    (hnew : ∀ p ∈ ps, ∀ o, (⟨t, p.2⟩ : Block) ∉ L o) (ht : t < MAX_THREADS)
    (hi : ∀ p ∈ ps, p.2 < MAX_WAIT) :
    Queues (ps.foldl (Win98Modern.Ob.linkBlock t) heap) fun o => L o ++ pairBlocks t ps o := by
  induction ps generalizing heap L with
  | nil => simpa [pairBlocks] using h
  | cons p ps ih =>
    rw [map_cons, nodup_cons] at hps
    have h' := h.linkBlock (o := p.1) (hnew p mem_cons_self) ht (hi p mem_cons_self)
    have hmore : ∀ p' ∈ ps, ∀ o,
        (⟨t, p'.2⟩ : Block) ∉ update L p.1 (L p.1 ++ [⟨t, p.2⟩]) o := by
      intro p' hp' o hm
      have hne : p'.2 ≠ p.2 := fun e => hps.1 (e ▸ mem_map_of_mem hp')
      have hold := hnew p' (mem_cons_of_mem _ hp')
      by_cases ho : o = p.1
      · rw [ho, update_self, mem_append, mem_singleton] at hm
        obtain hm | hm := hm
        · exact hold p.1 hm
        · exact hne (Block.mk.inj hm).2
      · rw [update_of_ne ho] at hm
        exact hold o hm
    have hrest := ih h' hps.2 hmore fun p' hp' => hi p' (mem_cons_of_mem _ hp')
    rw [foldl_cons]
    convert hrest using 2 with o
    rw [pairBlocks_cons]
    by_cases ho : p.1 = o
    · subst ho
      simp
    · rw [if_neg ho, update_of_ne (Ne.symm ho)]

theorem Queues.unlinkPairs {A B : Oid → List Block}
    (h : Queues heap fun o => A o ++ (pairBlocks t ps o ++ B o)) (hA : ∀ o, ∀ b ∈ A o, b.thread ≠ t) :
    Queues (ps.foldl (Win98Modern.Ob.unlinkBlock t) heap) (fun o => A o ++ B o) ∧
      ∀ b : Block, b.thread = t →
        ps.foldl (Win98Modern.Ob.unlinkBlock t) heap (.next b) = heap (.next b) := by
  induction ps generalizing heap with
  | nil => exact ⟨by simpa [pairBlocks] using h, fun _ _ => rfl⟩
  | cons p ps ih =>
    have hsplit : A p.1 ++ (pairBlocks t (p :: ps) p.1 ++ B p.1) =
        A p.1 ++ ⟨t, p.2⟩ :: (pairBlocks t ps p.1 ++ B p.1) := by simp [pairBlocks_cons]
    obtain ⟨h', hnext⟩ := h.unlinkBlock hsplit (hA p.1)
    have h'' : Queues (Win98Modern.Ob.unlinkBlock t heap (p.1, p.2))
        fun o => A o ++ (pairBlocks t ps o ++ B o) := by
      convert h' using 1
      funext o
      by_cases ho : o = p.1
      · rw [ho, update_self]
      · rw [update_of_ne ho, pairBlocks_cons, if_neg (Ne.symm ho)]
    obtain ⟨hq, hn⟩ := ih h''
    refine ⟨hq, fun b hb => ?_⟩
    exact (hn b hb).trans (hnext b hb)

end Edits

/-! ### Waits in order of arrival -/

/-- The waiter list of `o` when the threads `q` wait, in this order, for `req`. -/
def waitersOf (req : Tid → List Oid) (q : List Tid) (o : Oid) : List Block :=
  q.flatMap fun t => pairBlocks t (req t).zipIdx o

theorem waitersOf_append (req : Tid → List Oid) (q q' : List Tid) (o : Oid) :
    waitersOf req (q ++ q') o = waitersOf req q o ++ waitersOf req q' o := flatMap_append

theorem waitersOf_cons (req : Tid → List Oid) (t : Tid) (q : List Tid) (o : Oid) :
    waitersOf req (t :: q) o = pairBlocks t (req t).zipIdx o ++ waitersOf req q o :=
  flatMap_cons

theorem waitersOf_congr {req' : Tid → List Oid} (h : ∀ t ∈ q, req t = req' t) :
    waitersOf req q = waitersOf req' q := by
  funext o
  exact flatMap_congr fun t ht => by rw [h t ht]

theorem mem_waitersOf {o : Oid} {b : Block} :
    b ∈ waitersOf req q o ↔ b.thread ∈ q ∧ (req b.thread)[b.index]? = some o := by
  simp only [waitersOf, mem_flatMap, mem_pairBlocks, mk_mem_zipIdx_iff_getElem?]
  constructor
  · rintro ⟨t, ht, rfl, hi⟩
    exact ⟨ht, hi⟩
  · rintro ⟨ht, hi⟩
    exact ⟨b.thread, ht, rfl, hi⟩

section Waits

variable {heap : Slot → Option Block} {req : Tid → List Oid} {q : List Tid} {t : Tid}

/-- The blocks of a wait join the lists of its objects. -/
theorem Queues.linkWaits (h : Queues heap (waitersOf req q)) (ht : t ∉ q) (hlt : t < MAX_THREADS)
    (hlen : (req t).length ≤ MAX_WAIT) :
    Queues ((req t).zipIdx.foldl (Win98Modern.Ob.linkBlock t) heap)
      (waitersOf req (q ++ [t])) := by
  have hL : waitersOf req (q ++ [t]) =
      fun o => waitersOf req q o ++ pairBlocks t (req t).zipIdx o := by
    funext o
    simp [waitersOf]
  rw [hL]
  refine h.linkPairs ?_ ?_ hlt ?_
  · rw [zipIdx_map_snd]
    exact nodup_range'
  · intro p _ o hm
    exact ht (mem_waitersOf.1 hm).1
  · intro p hp
    have := snd_lt_of_mem_zipIdx hp
    omega

/-- They leave them when the thread does. -/
theorem Queues.unlinkWaits (h : Queues heap (waitersOf req q)) (hq : q.Nodup) (ht : t ∈ q) :
    Queues ((req t).zipIdx.foldl (Win98Modern.Ob.unlinkBlock t) heap)
        (waitersOf req (q.erase t)) ∧
      ∀ b : Block, b.thread = t →
        (req t).zipIdx.foldl (Win98Modern.Ob.unlinkBlock t) heap (.next b) = heap (.next b) := by
  obtain ⟨q₁, q₂, hn, rfl, he⟩ := exists_erase_eq ht
  have hL : waitersOf req (q₁ ++ t :: q₂) = fun o => waitersOf req q₁ o ++
      (pairBlocks t (req t).zipIdx o ++ waitersOf req q₂ o) := by
    funext o
    rw [waitersOf_append, waitersOf_cons]
  rw [hL] at h
  have hA : ∀ o, ∀ b ∈ waitersOf req q₁ o, b.thread ≠ t := by
    rintro o b hb rfl
    exact hn (mem_waitersOf.1 hb).1
  obtain ⟨h₁, h₂⟩ := h.unlinkPairs hA
  refine ⟨?_, h₂⟩
  rw [he]
  convert h₁ using 1
  funext o
  rw [waitersOf_append]

theorem waitersOf_split (hq : q.Nodup) {o : Oid} {pre rest : List Block} {w : Block}
    (hL : waitersOf req q o = pre ++ w :: rest) :
    ∃ own behind, rest = own ++ behind ∧ (∀ b ∈ own, b.thread = w.thread) ∧
      (∃ front, waitersOf req (q.erase w.thread) o = front ++ behind) ∧
      ∀ b ∈ behind, b.thread ≠ w.thread := by
  have hw : w.thread ∈ q :=
    (mem_waitersOf.1 (show w ∈ waitersOf req q o by rw [hL]; simp)).1
  obtain ⟨q₁, q₂, hn, rfl, he⟩ := exists_erase_eq hw
  have hq₂ : w.thread ∉ q₂ := (nodup_cons.1 (nodup_append.1 hq).2.1).1
  have hA : ∀ b ∈ waitersOf req q₁ o, b.thread ≠ w.thread :=
    fun b hb e => hn (e ▸ (mem_waitersOf.1 hb).1)
  have hB : ∀ b ∈ waitersOf req q₂ o, b.thread ≠ w.thread :=
    fun b hb e => hq₂ (e ▸ (mem_waitersOf.1 hb).1)
  have hM : ∀ b ∈ pairBlocks w.thread (req w.thread).zipIdx o, b.thread = w.thread :=
    fun b hb => (mem_pairBlocks.1 hb).1
  rw [he, waitersOf_append]
  rw [waitersOf_append, waitersOf_cons] at hL
  obtain ⟨a, ha, hr⟩ | ⟨c, hc, hr⟩ := append_eq_append_iff.1 hL
  · -- the walk has passed the threads before
    obtain ⟨d, hd, hr'⟩ | ⟨d, hd, hr'⟩ := append_eq_append_iff.1 hr
    · exact absurd rfl (hB w (by rw [hr']; simp))
    · cases d with
      | nil =>
        exact absurd rfl (hB w (by rw [← nil_append (waitersOf req q₂ o), ← hr']; simp))
      | cons x own =>
        rw [cons_append, List.cons.injEq] at hr'
        refine ⟨own, _, hr'.2, ?_, ⟨_, rfl⟩, hB⟩
        intro b hb
        exact hM b (by rw [hd]; exact mem_append_right _ (mem_cons_of_mem _ hb))
  · cases c with
    | nil =>
      rw [nil_append] at hr
      cases hm : pairBlocks w.thread (req w.thread).zipIdx o with
      | nil =>
        rw [hm, nil_append] at hr
        exact absurd rfl (hB w (by rw [← hr]; simp))
      | cons x own =>
        rw [hm, cons_append, List.cons.injEq] at hr
        refine ⟨own, _, hr.2, ?_, ⟨_, rfl⟩, hB⟩
        intro b hb
        exact hM b (by rw [hm]; exact mem_cons_of_mem _ hb)
    | cons x c =>
      rw [cons_append, List.cons.injEq] at hr
      exact absurd rfl (hA w (by rw [hc, hr.1]; simp))

end Waits

end Win98Modern.Ob
