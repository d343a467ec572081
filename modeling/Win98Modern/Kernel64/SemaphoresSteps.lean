import Win98Modern.Kernel64.Semaphores

/-!
# The calls of semaphores and mutexes

`Inv S L`: the waiters of the objects are linked in the lists `L`, where a thread is if and only if it is
blocked in a call that waits for the object (`Listed`); the fields that the kinds of waits share are clean
(`Thread.Clean`); and the numbers of the waits that were served, followed by those of the waiters, ascend
(`Tickets`).  Every call and every thread of the tick's scan keep it.
-/

namespace Win98Modern.Semaphores

open Function List State

/-! ### The lists -/

theorem waiters_injective : Function.Injective Slot.waiters := fun _ _ h => Slot.waiters.inj h

theorem next_injective : Function.Injective Slot.next := fun _ _ h => Slot.next.inj h

theorem waiters_ne_next (o : Obj) (t : Nat) : Slot.waiters o ≠ Slot.next t := Slot.noConfusion

def Thread.WaitsFor (th : Thread) (o : Obj) : Prop := th.blocked = true ∧ th.call.obj = some o

instance (th : Thread) (o : Obj) : Decidable (th.WaitsFor o) := inferInstanceAs (Decidable (_ ∧ _))

structure Listed (σ : State) (L : Obj → List Nat) : Prop where
  family : ChainFamily Slot.waiters Slot.next σ.link L
  mem : ∀ o t, t ∈ L o ↔ t < σ.threadHi ∧ (σ.thread t).WaitsFor o

section Lists

variable {σ : State} {L : Obj → List Nat} {o : Obj} {t w : Nat} {th : Thread}

@[simp] theorem setThread_self : (σ.setThread t th).thread t = th := update_self ..

@[simp] theorem setThread_ne {u : Nat} (h : u ≠ t) : (σ.setThread t th).thread u = σ.thread u :=
  update_of_ne h ..

theorem Listed.length_le (h : Listed σ L) (o : Obj) : (L o).length ≤ σ.threadHi := by
  have hsub : L o ⊆ List.range σ.threadHi := fun t ht => mem_range.2 ((h.mem o t).1 ht).1
  simpa using (subperm_of_subset (h.family.nodup o) hsub).length_le

theorem Listed.waiters_eq (h : Listed σ L) (o : Obj) : σ.waiters o = (L o).head? := h.family.head o

theorem Listed.keep (h : Listed σ L) (ht : ∀ o, ¬(σ.thread t).WaitsFor o) (hth : ∀ o, ¬th.WaitsFor o) :
    Listed (σ.setThread t th) L := by
  refine ⟨h.family, fun o u => ?_⟩
  by_cases hu : u = t
  · subst hu
    rw [setThread_self, h.mem]
    exact iff_of_false (fun hc => ht o hc.2) (fun hc => hth o hc.2)
  · rw [setThread_ne hu]
    exact h.mem o u

/-- A thread joins the end of the list it waits on. -/
theorem Listed.block (h : Listed σ L) (hlt : t < σ.threadHi) (ht : ∀ o, ¬(σ.thread t).WaitsFor o)
    (hth : th.WaitsFor o) : Listed ((σ.enqueue o t).setThread t th) (update L o (L o ++ [t])) := by
  have hout : ∀ o, t ∉ L o := fun o hm => ht o ((h.mem o t).1 hm).2
  refine ⟨h.family.append waiters_injective next_injective waiters_ne_next hout (h.length_le o), ?_⟩
  intro o' u
  by_cases hu : u = t
  · subst hu
    rw [setThread_self]
    by_cases ho : o' = o
    · subst ho
      rw [update_self]
      exact iff_of_true (mem_append_right _ (mem_singleton_self u)) ⟨hlt, hth⟩
    · rw [update_of_ne ho]
      refine iff_of_false (hout o') fun hc => ho ?_
      exact Option.some.inj (hc.2.2.symm.trans hth.2)
  · rw [setThread_ne hu]
    by_cases ho : o' = o
    · subst ho
      rw [update_self, mem_append, mem_singleton]
      exact ⟨fun hc => (h.mem o' u).1 (hc.resolve_right hu), fun hc => .inl ((h.mem o' u).2 hc)⟩
    · rw [update_of_ne ho]
      exact h.mem o' u

variable {pre post : List Nat}

theorem Listed.wake (h : Listed σ L) (hL : L o = pre ++ w :: post) {link : Slot → Option Nat}
    (hf : ChainFamily Slot.waiters Slot.next link (update L o (pre ++ post)))
    (hth : th.blocked = false) :
    Listed ({ σ with link := link }.setThread w th) (update L o (pre ++ post)) := by
  refine ⟨hf, fun o' u => ?_⟩
  have hw : w ∈ L o := hL ▸ mem_append_right _ mem_cons_self
  have hnd := (nodup_cons.1 (nodup_middle.1 (hL ▸ h.family.nodup o))).1
  by_cases hu : u = w
  · subst hu
    rw [setThread_self]
    refine iff_of_false ?_ fun hc => by
      rw [Thread.WaitsFor, hth] at hc
      exact Bool.noConfusion hc.2.1
    by_cases ho : o' = o
    · subst ho
      rwa [update_self]
    · rw [update_of_ne ho]
      exact fun hm => ho (h.family.apart o' o u hm hw)
  · rw [setThread_ne hu]
    by_cases ho : o' = o
    · subst ho
      refine Iff.trans ?_ (h.mem o' u)
      rw [hL]
      simp [hu]
    · rw [update_of_ne ho]
      exact h.mem o' u

theorem Listed.dequeue (h : Listed σ L) {l : List Nat} (hL : L o = w :: l) (hth : th.blocked = false) :
    Listed ((σ.dequeue o w).setThread w th) (update L o l) :=
  h.wake (show L o = [] ++ w :: l from hL) (h.family.pop waiters_injective next_injective waiters_ne_next hL) hth

/-- A waiter leaves the list where it stands. -/
theorem Listed.removeNode (h : Listed σ L) (hL : L o = pre ++ w :: post) (hth : th.blocked = false) :
    Listed ({ σ with link := removeNode Slot.next σ.threadHi (.waiters o) w σ.link }.setThread w th)
      (update L o (pre ++ post)) :=
  h.wake hL (h.family.remove waiters_injective next_injective waiters_ne_next hL (h.length_le o)) hth

end Lists

/-! ### The fields of a thread -/

/-- `wait_sem`, `wake_tick` and `wait_result` are those of the wait that the thread is in. -/
structure Thread.Clean (th : Thread) : Prop where
  waitSem : ∀ s, th.waitSem = some s ↔ th.blocked = true ∧ ∃ ms, th.call = .semWait s ms
  wakeTick : th.wakeTick ≠ 0 →
    th.blocked = true ∧ (th.call = .sleep ∨ ∃ s ms, th.call = .semWait s ms ∧ ms ≠ 0)
  waitResult : th.blocked = true → ∀ s ms, th.call = .semWait s ms → th.waitResult = 0

variable {th : Thread}

theorem Thread.Clean.waitSem_none (h : th.Clean) (hb : th.blocked = false) : th.waitSem = none := by
  cases hs : th.waitSem with
  | none => rfl
  | some s => exact absurd ((h.waitSem s).1 hs).1 (by rw [hb]; exact Bool.noConfusion)

theorem Thread.Clean.wakeTick_zero (h : th.Clean) (hb : th.blocked = false) : th.wakeTick = 0 := by
  by_contra hne
  exact absurd (h.wakeTick hne).1 (by rw [hb]; exact Bool.noConfusion)

theorem clean_of_ready (hb : th.blocked = false) (hs : th.waitSem = none) (hw : th.wakeTick = 0) :
    th.Clean where
  waitSem s := by rw [hs, hb]; simp
  wakeTick h := absurd hw h
  waitResult h := by rw [hb] at h; exact Bool.noConfusion h

/-! ### The invariant -/

def Thread.InWait (th : Thread) (s : Nat) : Prop := ∃ ms, th.call = .semWait s ms

/-- A wait that returned `rc` was given a unit if and only if `rc` is 0; otherwise it timed out. -/
def Settled (served : List Nat) (k : Nat) (rc : Int) : Prop := rc = 0 ∧ k ∈ served ∨ rc = -1 ∧ k ∉ served

structure Tickets (S : System) (L : Obj → List Nat) : Prop where
  ticket_lt : ∀ t s, (S.state.thread t).InWait s → S.ticket t < S.drawn
  ticket_inj : ∀ t s t' s', (S.state.thread t).InWait s → (S.state.thread t').InWait s' →
    S.ticket t = S.ticket t' → t = t'
  served_lt : ∀ s, ∀ k ∈ S.served s, k < S.drawn
  order : ∀ s, (S.served s ++ (L (.sem s)).map S.ticket).Pairwise (· < ·)
  woken : ∀ t s ms, (S.state.thread t).blocked = false → (S.state.thread t).call = .semWait s ms →
    Settled (S.served s) (S.ticket t) (S.state.thread t).waitResult ∧ ((S.state.thread t).waitResult = -1 → ms ≠ 0)
  returned : ∀ s, ∀ p ∈ S.returned s, p.1 < S.drawn ∧ Settled (S.served s) p.1 p.2 ∧
    ∀ t s', (S.state.thread t).InWait s' → S.ticket t ≠ p.1

/-- A mutex is held by its owner, and when it is free with waiters there is a thread that will try it. -/
structure MutexOk (S : System) (L : Obj → List Nat) (m : Nat) : Prop where
  owner : (S.state.owner m).isSome = S.state.locked m
  holders : S.holders m = (S.state.owner m).toList
  retry : S.state.locked m = false → L (.mutex m) ≠ [] →
    ∃ t < S.state.threadHi, (S.state.thread t).blocked = false ∧ (S.state.thread t).call = .mutexLock m

structure Inv (S : System) (L : Obj → List Nat) : Prop where
  lists : Listed S.state L
  clean : ∀ t, (S.state.thread t).Clean
  idle : ∀ s, BitVec.slt 0 (S.state.count s) → L (.sem s) = []
  tickets : Tickets S L
  mutexes : ∀ m, MutexOk S L m

/-! ### What a step leaves alone -/

section Steps

variable {S S' : System} {L L' : Obj → List Nat} {t s m w : Nat} {th : Thread}

theorem not_inWait (h : th.call = .none) (s : Nat) : ¬th.InWait s := by
  rintro ⟨ms, hc⟩
  rw [h] at hc
  exact Call.noConfusion hc

theorem not_waitsFor (h : th.blocked = false) (o : Obj) : ¬th.WaitsFor o := by
  intro hc
  rw [Thread.WaitsFor, h] at hc
  exact Bool.noConfusion hc.1

theorem Tickets.frame (h : Tickets S L) (hL : ∀ s, L' (.sem s) = L (.sem s))
    (hthread : ∀ u, S'.state.thread u = S.state.thread u ∨
      (∀ s, ¬(S.state.thread u).InWait s) ∧ ∀ s, ¬(S'.state.thread u).InWait s)
    (hdrawn : S'.drawn = S.drawn) (hticket : S'.ticket = S.ticket) (hserved : S'.served = S.served)
    (hreturned : S'.returned = S.returned) : Tickets S' L' := by
  have hwait : ∀ u s, (S'.state.thread u).InWait s → (S.state.thread u).InWait s := by
    intro u s hu
    obtain e | ⟨-, hn⟩ := hthread u
    · exact e ▸ hu
    · exact absurd hu (hn s)
  constructor
  · intro u s hu
    rw [hticket, hdrawn]
    exact h.ticket_lt u s (hwait u s hu)
  · intro u s u' s' hu hu'
    rw [hticket]
    exact h.ticket_inj u s u' s' (hwait u s hu) (hwait u' s' hu')
  · rw [hserved, hdrawn]
    exact h.served_lt
  · intro s
    rw [hserved, hticket, hL]
    exact h.order s
  · intro u s ms hb hc
    rw [hserved, hticket]
    obtain e | ⟨-, hn⟩ := hthread u
    · rw [e] at hb hc ⊢
      exact h.woken u s ms hb hc
    · exact absurd ⟨ms, hc⟩ (hn s)
  · intro s p hp
    rw [hreturned] at hp
    rw [hdrawn, hserved, hticket]
    obtain ⟨hlt, hset, hne⟩ := h.returned s p hp
    exact ⟨hlt, hset, fun u s' hu => hne u s' (hwait u s' hu)⟩

theorem MutexOk.frame (h : MutexOk S L m) (hL : L' (.mutex m) = L (.mutex m))
    (hlocked : S'.state.locked m = S.state.locked m) (howner : S'.state.owner m = S.state.owner m)
    (hholders : S'.holders m = S.holders m) (hhi : S'.state.threadHi = S.state.threadHi)
    (hthread : ∀ u, (S.state.thread u).blocked = false → (S.state.thread u).call = .mutexLock m →
      S'.state.thread u = S.state.thread u) : MutexOk S' L' m := by
  refine ⟨by rw [howner, hlocked, h.owner], by rw [hholders, howner, h.holders], ?_⟩
  rw [hlocked, hL, hhi]
  intro hfree hne
  obtain ⟨u, hu, hb, hc⟩ := h.retry hfree hne
  exact ⟨u, hu, by rw [hthread u hb hc, hb], by rw [hthread u hb hc, hc]⟩

variable {σ : State} {k u ms : Nat}

theorem clean_setThread (h : ∀ u, (σ.thread u).Clean) (hth : th.Clean) (u : Nat) :
    ((σ.setThread t th).thread u).Clean := by
  by_cases hu : u = t
  · subst hu
    rwa [setThread_self]
  · rw [setThread_ne hu]
    exact h u

/-! ### Waits and posts -/

theorem settled_append {served : List Nat} {j : Nat} {rc : Int} (h : Settled served k rc)
    (hne : k ≠ j) : Settled (served ++ [j]) k rc := by
  obtain ⟨hrc, hk⟩ | ⟨hrc, hk⟩ := h
  · exact .inl ⟨hrc, mem_append_left _ hk⟩
  · exact .inr ⟨hrc, by simp [hk, hne]⟩

theorem Listed.inWait (h : Listed S.state L) (hu : u ∈ L (.sem s)) :
    (S.state.thread u).InWait s := by
  have hobj := ((h.mem _ u).1 hu).2.2
  cases hc : (S.state.thread u).call with
  | semWait s' ms =>
    rw [hc] at hobj
    obtain rfl : s' = s := Obj.sem.inj (Option.some.inj hobj)
    exact ⟨ms, hc⟩
  | mutexLock m =>
    rw [hc] at hobj
    exact Obj.noConfusion (Option.some.inj hobj)
  | none => simp [hc, Call.obj] at hobj
  | sleep => simp [hc, Call.obj] at hobj

/-- A wait draws the next ticket. -/
theorem Tickets.draw (h : Tickets S L) (hl : Listed S.state L) (hnot : ∀ s, ¬(S.state.thread t).InWait s) :
    Tickets { S with drawn := S.drawn + 1, ticket := update S.ticket t S.drawn } L := by
  have hticket : ∀ u s, (S.state.thread u).InWait s → update S.ticket t S.drawn u = S.ticket u := by
    intro u s hu
    refine update_of_ne ?_ ..
    rintro rfl
    exact hnot s hu
  constructor <;> dsimp only
  · intro u s hu
    rw [hticket u s hu]
    exact Nat.lt_succ_of_lt (h.ticket_lt u s hu)
  · intro u s u' s' hu hu' he
    rw [hticket u s hu, hticket u' s' hu'] at he
    exact h.ticket_inj u s u' s' hu hu' he
  · exact fun s k hk => Nat.lt_succ_of_lt (h.served_lt s k hk)
  · intro s
    rw [map_congr_left fun u hu => hticket u s (hl.inWait hu)]
    exact h.order s
  · intro u s ms hb hc
    rw [hticket u s ⟨ms, hc⟩]
    exact h.woken u s ms hb hc
  · intro s p hp
    obtain ⟨hlt, hset, hne⟩ := h.returned s p hp
    refine ⟨Nat.lt_succ_of_lt hlt, hset, fun u s' hu => ?_⟩
    rw [hticket u s' hu]
    exact hne u s' hu

/-- A wait on a positive count is served at once. -/
theorem Tickets.serve (h : Tickets S L) (hk : k < S.drawn) (hL : L (.sem s) = [])
    (hserved : ∀ s, ∀ j ∈ S.served s, j < k) (hreturned : ∀ s, ∀ p ∈ S.returned s, p.1 < k)
    (hticket : ∀ u s, (S.state.thread u).InWait s → S.ticket u < k) : Tickets { S with
      served := update S.served s (S.served s ++ [k])
      returned := update S.returned s (S.returned s ++ [(k, 0)]) } L := by
  constructor <;> dsimp only
  · exact h.ticket_lt
  · exact h.ticket_inj
  · intro s' j hj
    by_cases hs : s' = s
    · subst hs
      rw [update_self, mem_append, mem_singleton] at hj
      obtain hj | rfl := hj
      · exact h.served_lt s' j hj
      · exact hk
    · rw [update_of_ne hs] at hj
      exact h.served_lt s' j hj
  · intro s'
    by_cases hs : s' = s
    · subst hs
      have ho := h.order s'
      rw [hL, map_nil, append_nil] at ho
      rw [update_self, hL, map_nil, append_nil, pairwise_append]
      refine ⟨ho, pairwise_singleton _ _, fun j hj i hi => ?_⟩
      rw [mem_singleton.1 hi]
      exact hserved s' j hj
    · rw [update_of_ne hs]
      exact h.order s'
  · intro u s' ms hb hc
    obtain ⟨hset, hms⟩ := h.woken u s' ms hb hc
    refine ⟨?_, hms⟩
    by_cases hs : s' = s
    · subst hs
      rw [update_self]
      exact settled_append hset (Nat.ne_of_lt (hticket u s' ⟨ms, hc⟩))
    · rwa [update_of_ne hs]
  · intro s' p hp
    by_cases hs : s' = s
    · subst hs
      rw [update_self, mem_append, mem_singleton] at hp
      rw [update_self]
      obtain hp | rfl := hp
      · obtain ⟨hlt, hset, hne⟩ := h.returned s' p hp
        exact ⟨hlt, settled_append hset (Nat.ne_of_lt (hreturned s' p hp)), hne⟩
      · refine ⟨hk, .inl ⟨rfl, mem_append_right _ (mem_singleton_self k)⟩, fun u s'' hu => ?_⟩
        exact Nat.ne_of_lt (hticket u s'' hu)
    · rw [update_of_ne hs] at hp ⊢
      exact h.returned s' p hp

theorem Inv.take (h : Inv S L) (hfree : S.state.Free t) (hc : BitVec.slt 0 (S.state.count s)) :
    Inv (S.wait t s (semWaitCommon S.state t s ms)) L := by
  have hnot := not_inWait hfree.2.2
  have hcount : semWaitCommon S.state t s ms =
      { S.state with count := update S.state.count s (S.state.count s - 1) } := if_pos hc
  have hticket : ∀ u s', (S.state.thread u).InWait s' →
      update S.ticket t S.drawn u < S.drawn := by
    intro u s' hu
    rw [update_of_ne]
    · exact h.tickets.ticket_lt u s' hu
    · rintro rfl
      exact hnot s' hu
  have hdraw := (h.tickets.draw h.lists hnot).serve (Nat.lt_succ_self S.drawn) (h.idle s hc)
    h.tickets.served_lt (fun s' p hp => (h.tickets.returned s' p hp).1) hticket
  rw [System.wait, if_pos hc, hcount]
  refine ⟨⟨h.lists.family, h.lists.mem⟩, h.clean, ?_,
    hdraw.frame (fun _ => rfl) (fun _ => .inl rfl) rfl rfl rfl rfl,
    fun m => (h.mutexes m).frame rfl rfl rfl rfl rfl fun _ _ _ => rfl⟩
  intro s' hs'
  by_cases hs : s' = s
  · subst hs
    exact h.idle s' hc
  · dsimp only at hs'
    rw [update_of_ne hs] at hs'
    exact h.idle s' hs'

theorem Tickets.block (h : Tickets S L) (hnot : ∀ s, ¬(S.state.thread t).InWait s)
    (hthread : ∀ u, u ≠ t → S'.state.thread u = S.state.thread u) (hblocked : (S'.state.thread t).blocked = true)
    (hticket : S'.ticket = S.ticket)
    (hserved : S'.served = S.served) (hreturned : S'.returned = S.returned) (hdrawn : S'.drawn = S.drawn)
    (hlt : S.ticket t < S.drawn) (hother : ∀ u s, (S.state.thread u).InWait s → S.ticket u < S.ticket t)
    (hafter : ∀ s, ∀ k ∈ S.served s, k < S.ticket t) (hret : ∀ s, ∀ p ∈ S.returned s, p.1 < S.ticket t)
    (hl : Listed S.state L) :
    Tickets S' (update L (.sem s) (L (.sem s) ++ [t])) := by
  constructor
  · intro u s' hu
    rw [hticket, hdrawn]
    by_cases hut : u = t
    · exact hut ▸ hlt
    · exact h.ticket_lt u s' (hthread u hut ▸ hu)
  · intro u s₁ u' s₂ hu hu' he
    rw [hticket] at he
    by_cases hut : u = t
    · by_cases hut' : u' = t
      · rw [hut, hut']
      · exact absurd he (Nat.ne_of_gt (hut ▸ hother u' s₂ (hthread u' hut' ▸ hu')))
    · by_cases hut' : u' = t
      · exact absurd he (Nat.ne_of_lt (hut' ▸ hother u s₁ (hthread u hut ▸ hu)))
      · exact h.ticket_inj u s₁ u' s₂ (hthread u hut ▸ hu) (hthread u' hut' ▸ hu') he
  · rw [hserved, hdrawn]
    exact h.served_lt
  · intro s'
    rw [hserved, hticket]
    by_cases hs : s' = s
    · subst hs
      rw [update_self, map_append, ← append_assoc, pairwise_append]
      refine ⟨h.order s', pairwise_singleton _ _, fun j hj i hi => ?_⟩
      rw [map_singleton, mem_singleton] at hi
      subst hi
      obtain hj | hj := mem_append.1 hj
      · exact hafter s' j hj
      · obtain ⟨u, hu, rfl⟩ := mem_map.1 hj
        exact hother u s' (hl.inWait hu)
    · rw [update_of_ne fun e => hs (Obj.sem.inj e)]
      exact h.order s'
  · intro u s' ms hb hc
    have hut : u ≠ t := by
      rintro rfl
      rw [hblocked] at hb
      exact Bool.noConfusion hb
    rw [hthread u hut] at hb hc ⊢
    rw [hserved, hticket]
    exact h.woken u s' ms hb hc
  · intro s' p hp
    rw [hreturned] at hp
    rw [hserved, hticket, hdrawn]
    obtain ⟨hlt, hset, hne⟩ := h.returned s' p hp
    refine ⟨hlt, hset, fun u s'' hu => ?_⟩
    by_cases hut : u = t
    · exact Nat.ne_of_gt (hut ▸ hret s' p hp)
    · exact hne u s'' (hthread u hut ▸ hu)

theorem Inv.block (h : Inv S L) (hfree : S.state.Free t) (hc : ¬BitVec.slt 0 (S.state.count s)) :
    Inv (S.wait t s (semWaitCommon S.state t s ms)) (update L (.sem s) (L (.sem s) ++ [t])) := by
  have hnot := not_inWait hfree.2.2
  have hother : ∀ u s', (S.state.thread u).InWait s' →
      update S.ticket t S.drawn u < update S.ticket t S.drawn t := by
    intro u s' hu
    rw [update_self, update_of_ne]
    · exact h.tickets.ticket_lt u s' hu
    · rintro rfl
      exact hnot s' hu
  rw [System.wait, if_neg hc, semWaitCommon, if_neg hc]
  refine ⟨h.lists.block hfree.1 (not_waitsFor hfree.2.1) ⟨rfl, rfl⟩, ?_, ?_, ?_, fun m => ?_⟩
  · refine clean_setThread h.clean ⟨fun s' => ?_, fun hw => ⟨rfl, .inr ⟨s, ms, rfl, ?_⟩⟩, fun _ _ _ _ => rfl⟩
    · simp
    · rintro rfl
      exact hw rfl
  · intro s' hs'
    have hs : s' ≠ s := by
      rintro rfl
      exact hc hs'
    rw [update_of_ne fun e => hs (Obj.sem.inj e)]
    exact h.idle s' hs'
  · refine (h.tickets.draw h.lists hnot).block (t := t) hnot (fun u hu => setThread_ne hu) (by simp) rfl rfl rfl
      rfl (by simp) hother ?_ ?_ ⟨h.lists.family, h.lists.mem⟩
    · simpa using h.tickets.served_lt
    · intro s' p hp
      simpa using (h.tickets.returned s' p hp).1
  · refine (h.mutexes m).frame (update_of_ne Obj.noConfusion ..) rfl rfl rfl rfl fun u _ hu => setThread_ne ?_
    rintro rfl
    rw [hfree.2.2] at hu
    exact Call.noConfusion hu

theorem inWait_of_call (hthread : ∀ u, u ≠ w → S'.state.thread u = S.state.thread u)
    (hcall : (S'.state.thread w).call = (S.state.thread w).call) (u s : Nat)
    (h : (S'.state.thread u).InWait s) : (S.state.thread u).InWait s := by
  obtain ⟨ms, hc⟩ := h
  by_cases hu : u = w
  · subst hu
    exact ⟨ms, hcall ▸ hc⟩
  · exact ⟨ms, hthread u hu ▸ hc⟩

/-- The first waiter is given a unit and wakes. -/
theorem Tickets.hand (h : Tickets S L) {l : List Nat} (hl : Listed S.state L) (hL : L (.sem s) = w :: l)
    (hthread : ∀ u, u ≠ w → S'.state.thread u = S.state.thread u)
    (hcall : (S'.state.thread w).call = (S.state.thread w).call) (hresult : (S'.state.thread w).waitResult = 0)
    (hserved : S'.served = update S.served s (S.served s ++ [S.ticket w])) (hticket : S'.ticket = S.ticket)
    (hreturned : S'.returned = S.returned) (hdrawn : S'.drawn = S.drawn) :
    Tickets S' (update L (.sem s) l) := by
  have hw : (S.state.thread w).InWait s := hl.inWait (hL ▸ mem_cons_self)
  have hin := inWait_of_call hthread hcall
  constructor
  · intro u s' hu
    rw [hticket, hdrawn]
    exact h.ticket_lt u s' (hin u s' hu)
  · intro u s₁ u' s₂ hu hu'
    rw [hticket]
    exact h.ticket_inj u s₁ u' s₂ (hin u s₁ hu) (hin u' s₂ hu')
  · intro s' k hk
    rw [hserved] at hk
    rw [hdrawn]
    by_cases hs : s' = s
    · subst hs
      rw [update_self, mem_append, mem_singleton] at hk
      obtain hk | rfl := hk
      · exact h.served_lt s' k hk
      · exact h.ticket_lt w s' hw
    · rw [update_of_ne hs] at hk
      exact h.served_lt s' k hk
  · intro s'
    rw [hserved, hticket]
    by_cases hs : s' = s
    · subst hs
      have ho := h.order s'
      rw [hL, map_cons] at ho
      rw [update_self, update_self, append_assoc]
      exact ho
    · rw [update_of_ne hs, update_of_ne fun e => hs (Obj.sem.inj e)]
      exact h.order s'
  · intro u s' ms hb hc
    rw [hserved, hticket]
    by_cases hu : u = w
    · subst hu
      obtain ⟨ms', hw⟩ := hw
      rw [hcall, hw] at hc
      obtain ⟨rfl, rfl⟩ := Call.semWait.inj hc
      rw [update_self, hresult]
      exact ⟨.inl ⟨rfl, mem_append_right _ (mem_singleton_self _)⟩, fun e => absurd e (by decide)⟩
    · rw [hthread u hu] at hb hc ⊢
      obtain ⟨hset, hms⟩ := h.woken u s' ms hb hc
      refine ⟨?_, hms⟩
      by_cases hs : s' = s
      · subst hs
        rw [update_self]
        exact settled_append hset fun e => hu (h.ticket_inj u s' w s' ⟨ms, hc⟩ hw e)
      · rwa [update_of_ne hs]
  · intro s' p hp
    rw [hreturned] at hp
    rw [hserved, hticket, hdrawn]
    obtain ⟨hlt, hset, hne⟩ := h.returned s' p hp
    refine ⟨hlt, ?_, fun u s'' hu => hne u s'' (hin u s'' hu)⟩
    by_cases hs : s' = s
    · subst hs
      rw [update_self]
      exact settled_append hset (hne w s' hw).symm
    · rwa [update_of_ne hs]

/-- A waiter whose time is over leaves its ticket unserved. -/
theorem Tickets.giveUp (h : Tickets S L) {pre post : List Nat} (hl : Listed S.state L)
    (hL : L (.sem s) = pre ++ w :: post) (hthread : ∀ u, u ≠ w → S'.state.thread u = S.state.thread u)
    (hcall : (S'.state.thread w).call = (S.state.thread w).call) (hresult : (S'.state.thread w).waitResult = -1)
    (hms : ∀ s' ms, (S.state.thread w).call = .semWait s' ms → ms ≠ 0) (hserved : S'.served = S.served)
    (hticket : S'.ticket = S.ticket) (hreturned : S'.returned = S.returned) (hdrawn : S'.drawn = S.drawn) :
    Tickets S' (update L (.sem s) (pre ++ post)) := by
  have hw : (S.state.thread w).InWait s := hl.inWait (hL ▸ mem_append_right _ mem_cons_self)
  have hin := inWait_of_call hthread hcall
  have ho := h.order s
  rw [hL] at ho
  constructor
  · intro u s' hu
    rw [hticket, hdrawn]
    exact h.ticket_lt u s' (hin u s' hu)
  · intro u s₁ u' s₂ hu hu'
    rw [hticket]
    exact h.ticket_inj u s₁ u' s₂ (hin u s₁ hu) (hin u' s₂ hu')
  · rw [hserved, hdrawn]
    exact h.served_lt
  · intro s'
    rw [hserved, hticket]
    by_cases hs : s' = s
    · subst hs
      rw [update_self]
      refine ho.sublist ((List.Sublist.refl _).append (List.Sublist.map _ ?_))
      exact (List.Sublist.refl pre).append (sublist_cons_self w post)
    · rw [update_of_ne fun e => hs (Obj.sem.inj e)]
      exact h.order s'
  · intro u s' ms hb hc
    rw [hserved, hticket]
    by_cases hu : u = w
    · subst hu
      rw [hcall] at hc
      refine ⟨.inr ⟨hresult, fun hmem => ?_⟩, fun _ => hms s' ms hc⟩
      obtain ⟨ms', hw⟩ := hw
      obtain ⟨rfl, rfl⟩ := Call.semWait.inj (hw.symm.trans hc)
      have hlt := (pairwise_append.1 ho).2.2 _ hmem (S.ticket u)
        (mem_map_of_mem (mem_append_right _ mem_cons_self))
      exact Nat.lt_irrefl _ hlt
    · rw [hthread u hu] at hb hc ⊢
      exact h.woken u s' ms hb hc
  · intro s' p hp
    rw [hreturned] at hp
    rw [hserved, hticket, hdrawn]
    obtain ⟨hlt, hset, hne⟩ := h.returned s' p hp
    exact ⟨hlt, hset, fun u s'' hu => hne u s'' (hin u s'' hu)⟩

theorem Listed.blocked (h : Listed S.state L) {o : Obj} (hu : u ∈ L o) :
    (S.state.thread u).blocked = true :=
  ((h.mem o u).1 hu).2.1

/-- **A post hands its unit to the first waiter, or counts it.** -/
theorem Inv.post (h : Inv S L) (s : Nat) : ∃ L', Inv (S.post s) L' := by
  have hhead := h.lists.waiters_eq (.sem s)
  cases hL : L (.sem s) with
  | nil =>
    rw [hL, List.head?_nil] at hhead
    refine ⟨L, ?_⟩
    simp only [System.post, semPost, hhead]
    refine ⟨⟨h.lists.family, h.lists.mem⟩, h.clean, fun s' hs' => ?_,
      h.tickets.frame (fun _ => rfl) (fun _ => .inl rfl) rfl rfl rfl rfl,
      fun m => (h.mutexes m).frame rfl rfl rfl rfl rfl fun _ _ _ => rfl⟩
    by_cases hs : s' = s
    · rw [hs, hL]
    · dsimp only at hs'
      rw [update_of_ne hs] at hs'
      exact h.idle s' hs'
  | cons w l =>
    rw [hL, List.head?_cons] at hhead
    have hw : w ∈ L (.sem s) := hL ▸ mem_cons_self
    obtain ⟨ms, hcall⟩ := h.lists.inWait hw
    have hblocked := h.lists.blocked hw
    refine ⟨update L (.sem s) l, ?_⟩
    simp only [System.post, semPost, hhead]
    refine ⟨h.lists.dequeue hL rfl, ?_, ?_, ?_, fun m => ?_⟩
    · exact clean_setThread h.clean (clean_of_ready rfl rfl rfl)
    · intro s' hs'
      have hne : s' ≠ s := by
        rintro rfl
        rw [h.idle s' hs'] at hL
        cases hL
      rw [update_of_ne fun e => hne (Obj.sem.inj e)]
      exact h.idle s' hs'
    · refine h.tickets.hand h.lists hL (fun u hu => setThread_ne hu) ?_ ?_ rfl rfl rfl rfl
      · rw [setThread_self]
      · rw [setThread_self]
        exact (h.clean w).waitResult hblocked s ms hcall
    · refine (h.mutexes m).frame (update_of_ne Obj.noConfusion ..) rfl rfl rfl rfl fun u hu _ =>
        setThread_ne ?_
      rintro rfl
      rw [hblocked] at hu
      exact Bool.noConfusion hu

/-! ### The tick -/

/-- The waiter is taken off the list when its time is over. -/
theorem Inv.timeout (h : Inv S L) {i : Nat} (hi : i < S.state.threadHi) :
    ∃ L', Inv { S with state := expire S.state i } L' := by
  by_cases hdue : (S.state.thread i).blocked = true ∧ (S.state.thread i).wakeTick ≠ 0 ∧
      (S.state.thread i).wakeTick ≤ S.state.jiffies
  · have hblocked := hdue.1
    obtain ⟨-, hcall | ⟨s, ms, hcall, hms⟩⟩ := (h.clean i).wakeTick hdue.2.1
    · -- it sleeps, and is in no list
      have hsem : (S.state.thread i).waitSem = none := by
        cases hs : (S.state.thread i).waitSem with
        | none => rfl
        | some s =>
          obtain ⟨-, ms, hc⟩ := ((h.clean i).waitSem s).1 hs
          rw [hcall] at hc
          exact Call.noConfusion hc
      have hnotWait : ∀ th : Thread, th.call = .sleep → ∀ s, ¬th.InWait s := by
        rintro th hc s ⟨ms, hc'⟩
        rw [hc] at hc'
        exact Call.noConfusion hc'
      refine ⟨L, ?_⟩
      simp only [expire, if_pos hdue, hsem]
      refine ⟨h.lists.keep ?_ (not_waitsFor rfl), clean_setThread h.clean (clean_of_ready rfl rfl rfl), h.idle, ?_, fun m => ?_⟩
      · rintro o ⟨-, ho⟩
        rw [hcall] at ho
        simp [Call.obj] at ho
      · refine h.tickets.frame (fun _ => rfl) (fun u => ?_) rfl rfl rfl rfl
        by_cases hu : u = i
        · subst hu
          right
          refine ⟨hnotWait _ hcall, hnotWait _ ?_⟩
          rw [setThread_self]
          exact hcall
        · exact .inl (setThread_ne hu)
      · refine (h.mutexes m).frame rfl rfl rfl rfl rfl fun u hu _ => setThread_ne ?_
        rintro rfl
        rw [hblocked] at hu
        exact Bool.noConfusion hu
    · -- it waits on a semaphore, in whose list it is
      have hsem : (S.state.thread i).waitSem = some s := ((h.clean i).waitSem s).2 ⟨hblocked, ms, hcall⟩
      have hmem : i ∈ L (.sem s) := (h.lists.mem _ i).2 ⟨hi, hblocked, by rw [hcall]; rfl⟩
      obtain ⟨pre, post, hL⟩ := append_of_mem hmem
      refine ⟨update L (.sem s) (pre ++ post), ?_⟩
      simp only [expire, if_pos hdue, hsem]
      refine ⟨h.lists.removeNode hL rfl, clean_setThread h.clean (clean_of_ready rfl rfl rfl), ?_, ?_, fun m => ?_⟩
      · intro s' hs'
        have hne : s' ≠ s := by
          rintro rfl
          rw [h.idle s' hs'] at hmem
          exact not_mem_nil hmem
        rw [update_of_ne fun e => hne (Obj.sem.inj e)]
        exact h.idle s' hs'
      · refine h.tickets.giveUp h.lists hL (fun u hu => setThread_ne hu) ?_ ?_ ?_ rfl rfl rfl rfl
        · rw [setThread_self]
        · rw [setThread_self]
          rfl
        · intro s' ms' hc
          rw [hcall] at hc
          exact (Call.semWait.inj hc).2 ▸ hms
      · refine (h.mutexes m).frame (update_of_ne Obj.noConfusion ..) rfl rfl rfl rfl fun u hu _ =>
          setThread_ne ?_
        rintro rfl
        rw [hblocked] at hu
        exact Bool.noConfusion hu
  · refine ⟨L, ?_⟩
    rw [expire, if_neg hdue]
    exact h

theorem expire_threadHi (σ : State) (i : Nat) : (expire σ i).threadHi = σ.threadHi := by
  simp only [expire]
  split
  · cases (σ.thread i).waitSem <;> rfl
  · rfl

theorem Inv.scan (h : Inv S L) (is : List Nat) (his : ∀ i ∈ is, i < S.state.threadHi) :
    ∃ L', Inv { S with state := is.foldl expire S.state } L' := by
  induction is generalizing S L with
  | nil => exact ⟨L, h⟩
  | cons i is ih =>
    obtain ⟨L', h'⟩ := h.timeout (his i mem_cons_self)
    exact ih h' fun j hj => by
      rw [expire_threadHi]
      exact his j (mem_cons_of_mem _ hj)

theorem Inv.tick (h : Inv S L) : ∃ L', Inv { S with state := schedTick S.state } L' := by
  have hj : Inv { S with state := { S.state with jiffies := (S.state.jiffies + 1) % 2 ^ 64 } } L :=
    ⟨⟨h.lists.family, h.lists.mem⟩, h.clean, h.idle,
      h.tickets.frame (fun _ => rfl) (fun _ => .inl rfl) rfl rfl rfl rfl,
      fun m => (h.mutexes m).frame rfl rfl rfl rfl rfl fun _ _ _ => rfl⟩
  exact hj.scan _ fun i hi => mem_range.1 hi

/-! ### Mutexes -/

/-- `t` is outside of the calls, or it was woken in `mutex_lock`. -/
def State.Tries (σ : State) (t m : Nat) : Prop :=
  t < σ.threadHi ∧ (σ.thread t).blocked = false ∧ ((σ.thread t).call = .none ∨ (σ.thread t).call = .mutexLock m)

theorem State.Tries.not_inWait (h : σ.Tries t m) (s : Nat) : ¬(σ.thread t).InWait s := by
  rintro ⟨ms, hc⟩
  obtain ⟨-, -, hn | hl⟩ := h
  · rw [hn] at hc
    exact Call.noConfusion hc
  · rw [hl] at hc
    exact Call.noConfusion hc

theorem State.Tries.ne (h : σ.Tries t m) {m' : Nat} (hm : m' ≠ m)
    (hc : (σ.thread u).call = .mutexLock m') : u ≠ t := by
  rintro rfl
  obtain ⟨-, -, hn | hl⟩ := h
  · rw [hn] at hc
    exact Call.noConfusion hc
  · rw [hl] at hc
    exact hm (Call.mutexLock.inj hc).symm

/-- The mutex is taken, or its waiter queued. -/
theorem Inv.lock (h : Inv S L) (ht : S.state.Tries t m) : ∃ L', Inv (S.lock t m) L' := by
  have hm := h.mutexes m
  cases hlocked : S.state.locked m with
  | false =>
    -- the mutex is free, and `t` is its owner
    have hnone : S.state.owner m = none := by
      have ho := hm.owner
      rw [hlocked] at ho
      simpa using ho
    refine ⟨L, ?_⟩
    simp only [System.lock, mutexLock, if_pos hlocked]
    refine ⟨?_, clean_setThread h.clean ?_, h.idle, ?_, fun m' => ?_⟩
    · exact Listed.keep ⟨h.lists.family, h.lists.mem⟩ (not_waitsFor ht.2.1) (not_waitsFor ht.2.1)
    · exact clean_of_ready ht.2.1 ((h.clean t).waitSem_none ht.2.1) ((h.clean t).wakeTick_zero ht.2.1)
    · refine h.tickets.frame (fun _ => rfl) (fun u => ?_) rfl rfl rfl rfl
      by_cases hu : u = t
      · subst hu
        exact .inr ⟨ht.not_inWait, by rw [setThread_self]; exact not_inWait rfl⟩
      · exact .inl (setThread_ne hu)
    · by_cases hm' : m' = m
      · subst hm'
        have hheld := hm.holders
        rw [hnone] at hheld
        refine ⟨?_, ?_, fun hfree => ?_⟩
        · simp [setThread]
        · simp [setThread, hheld]
        · simp [setThread] at hfree
      · refine (h.mutexes m').frame rfl (update_of_ne hm' ..) (update_of_ne hm' ..)
          (update_of_ne hm' ..) rfl fun u _ hc => ?_
        exact setThread_ne (ht.ne hm' hc)
  | true =>
    by_cases howner : S.state.owner m = some t
    · -- the assertion fails
      refine ⟨L, ?_⟩
      simpa [System.lock, mutexLock, hlocked, howner] using h
    · refine ⟨update L (.mutex m) (L (.mutex m) ++ [t]), ?_⟩
      simp only [System.lock, mutexLock, hlocked, if_neg howner, Bool.true_eq_false, if_false]
      refine ⟨h.lists.block ht.1 (not_waitsFor ht.2.1) ⟨rfl, rfl⟩, clean_setThread h.clean ?_, ?_, ?_, fun m' => ?_⟩
      · have hsem := (h.clean t).waitSem_none ht.2.1
        exact ⟨fun s => by simp [hsem], fun hw => absurd ((h.clean t).wakeTick_zero ht.2.1) hw,
          fun _ s ms hc => Call.noConfusion hc⟩
      · intro s hs
        exact h.idle s hs
      · refine h.tickets.frame (fun _ => update_of_ne Obj.noConfusion ..) (fun u => ?_) rfl rfl rfl rfl
        by_cases hu : u = t
        · subst hu
          refine .inr ⟨ht.not_inWait, fun s => ?_⟩
          rw [setThread_self]
          rintro ⟨ms, hc⟩
          exact Call.noConfusion hc
        · exact .inl (setThread_ne hu)
      · by_cases hm' : m' = m
        · subst hm'
          refine ⟨hm.owner, hm.holders, fun hfree => ?_⟩
          exact absurd (hlocked.symm.trans hfree) Bool.noConfusion
        · refine (h.mutexes m').frame (update_of_ne (fun e => hm' (Obj.mutex.inj e)) ..) rfl rfl rfl rfl
            fun u _ hc => ?_
          exact setThread_ne (ht.ne hm' hc)

theorem Inv.unlock (h : Inv S L) (t m : Nat) : ∃ L', Inv (S.unlock t m) L' := by
  have hm := h.mutexes m
  by_cases howns : S.state.locked m = true ∧ S.state.owner m = some t
  · have hheld : (S.holders m).filter (· ≠ t) = [] := by
      rw [hm.holders, howns.2]
      simp
    have hhead := h.lists.waiters_eq (.mutex m)
    cases hL : L (.mutex m) with
    | nil =>
      rw [hL, List.head?_nil, waiters] at hhead
      refine ⟨L, ?_⟩
      simp only [System.unlock, mutexUnlock, if_pos howns, waiters, hhead, hheld]
      refine ⟨⟨h.lists.family, h.lists.mem⟩, h.clean, h.idle,
        h.tickets.frame (fun _ => rfl) (fun _ => .inl rfl) rfl rfl rfl rfl, fun m' => ?_⟩
      by_cases hm' : m' = m
      · subst hm'
        exact ⟨by simp, by simp, fun _ hne => absurd hL hne⟩
      · exact (h.mutexes m').frame rfl (update_of_ne hm' ..) (update_of_ne hm' ..)
          (update_of_ne hm' ..) rfl fun _ _ _ => rfl
    | cons w l =>
      rw [hL, List.head?_cons, waiters] at hhead
      have hw : w ∈ L (.mutex m) := hL ▸ mem_cons_self
      obtain ⟨hlt, hblocked, hobj⟩ := (h.lists.mem _ w).1 hw
      have hcall : (S.state.thread w).call = .mutexLock m := by
        cases hc : (S.state.thread w).call with
        | mutexLock m' =>
          rw [hc] at hobj
          rw [Obj.mutex.inj (Option.some.inj hobj)]
        | _ => simp [hc, Call.obj] at hobj
      refine ⟨update L (.mutex m) l, ?_⟩
      simp only [System.unlock, mutexUnlock, if_pos howns, waiters, hhead, hheld]
      refine ⟨?_, clean_setThread h.clean ?_, ?_, ?_, fun m' => ?_⟩
      · have hlists : Listed { S.state with
            locked := update S.state.locked m false
            owner := update S.state.owner m none } L := ⟨h.lists.family, h.lists.mem⟩
        exact hlists.dequeue hL rfl
      · refine clean_of_ready rfl ?_ ?_
        · cases hs : (S.state.thread w).waitSem with
          | none => rfl
          | some s =>
            obtain ⟨-, ms, hc⟩ := ((h.clean w).waitSem s).1 hs
            rw [hcall] at hc
            exact Call.noConfusion hc
        · by_contra hne
          obtain ⟨-, hc | ⟨s, ms, hc, -⟩⟩ := (h.clean w).wakeTick hne
          · rw [hcall] at hc
            exact Call.noConfusion hc
          · rw [hcall] at hc
            exact Call.noConfusion hc
      · intro s hs
        exact h.idle s hs
      · refine h.tickets.frame (fun _ => update_of_ne Obj.noConfusion ..) (fun u => ?_) rfl rfl rfl rfl
        by_cases hu : u = w
        · subst hu
          have hnot : ∀ th : Thread, th.call = .mutexLock m → ∀ s, ¬th.InWait s := by
            rintro th hc s ⟨ms, hc'⟩
            rw [hc] at hc'
            exact Call.noConfusion hc'
          exact .inr ⟨hnot _ hcall, hnot _ (by rw [setThread_self]; exact hcall)⟩
        · exact .inl (setThread_ne hu)
      · by_cases hm' : m' = m
        · subst hm'
          refine ⟨by simp [setThread, dequeue], by simp [setThread, dequeue], fun _ _ => ?_⟩
          exact ⟨w, hlt, by rw [setThread_self], by rw [setThread_self]; exact hcall⟩
        · refine (h.mutexes m').frame (update_of_ne (fun e => hm' (Obj.mutex.inj e)) ..)
            (update_of_ne hm' ..) (update_of_ne hm' ..) (update_of_ne hm' ..) rfl
            fun u hu _ => setThread_ne ?_
          rintro rfl
          rw [hblocked] at hu
          exact Bool.noConfusion hu
  · refine ⟨L, ?_⟩
    simp only [System.unlock, mutexUnlock, if_neg howns]
    exact h

/-! ### Sleep and the end of a call -/

theorem Inv.sleep (h : Inv S L) (hfree : S.state.Free t) (ms : Nat) :
    Inv { S with state := threadSleepMs S.state t ms } L := by
  rw [threadSleepMs]
  refine ⟨h.lists.keep (not_waitsFor hfree.2.1) ?_, clean_setThread h.clean ?_, h.idle, ?_, fun m => ?_⟩
  · rintro o ⟨-, ho⟩
    simp [Call.obj] at ho
  · have hsem := (h.clean t).waitSem_none hfree.2.1
    exact ⟨fun s => by simp [hsem], fun _ => ⟨rfl, .inl rfl⟩, fun _ s ms hc => Call.noConfusion hc⟩
  · refine h.tickets.frame (fun _ => rfl) (fun u => ?_) rfl rfl rfl rfl
    by_cases hu : u = t
    · subst hu
      refine .inr ⟨not_inWait hfree.2.2, fun s => ?_⟩
      rw [setThread_self]
      rintro ⟨ms, hc⟩
      exact Call.noConfusion hc
    · exact .inl (setThread_ne hu)
  · refine (h.mutexes m).frame rfl rfl rfl rfl rfl fun u _ hc => setThread_ne ?_
    rintro rfl
    rw [hfree.2.2] at hc
    exact Call.noConfusion hc

theorem Inv.leave (h : Inv S L) (hb : (S.state.thread t).blocked = false)
    (hcall : ∀ m, (S.state.thread t).call ≠ .mutexLock m) (hthb : th.blocked = false) (hths : th.waitSem = none)
    (hthw : th.wakeTick = 0) (hS : S'.state = S.state.setThread t th) (hholders : S'.holders = S.holders)
    (htickets : Tickets S' L) : Inv S' L := by
  refine ⟨?_, ?_, ?_, htickets, fun m => ?_⟩
  · rw [hS]
    exact h.lists.keep (not_waitsFor hb) (not_waitsFor hthb)
  · rw [hS]
    exact clean_setThread h.clean (clean_of_ready hthb hths hthw)
  · rw [hS]
    exact h.idle
  · refine (h.mutexes m).frame rfl (by rw [hS]; rfl) (by rw [hS]; rfl) (by rw [hholders]) (by rw [hS]; rfl)
      fun u _ hc => ?_
    rw [hS]
    refine setThread_ne ?_
    rintro rfl
    exact hcall m hc

theorem Inv.finish (h : Inv S L) (hb : (S.state.thread t).blocked = false)
    (hcall : (S.state.thread t).call = .semWait s ms) : Inv (S.resume t) L := by
  have hin : (S.state.thread t).InWait s := ⟨ms, hcall⟩
  obtain ⟨hset, hms⟩ := h.tickets.woken t s ms hb hcall
  have hrc : Settled (S.served s) (S.ticket t) (semWaitReturn S.state t ms).1 := by
    obtain ⟨hr, hk⟩ | ⟨hr, hk⟩ := hset
    · exact .inl ⟨by simp [semWaitReturn, hr], hk⟩
    · exact .inr ⟨by simp [semWaitReturn, hr, hms hr], hk⟩
  have hwait : ∀ u s', ((S.state.setThread t { S.state.thread t with waitResult := 0, call := .none }).thread u).InWait s' →
      u ≠ t ∧ (S.state.thread u).InWait s' := by
    intro u s' hu
    have hut : u ≠ t := by
      rintro rfl
      rw [setThread_self] at hu
      exact not_inWait rfl s' hu
    rw [setThread_ne hut] at hu
    exact ⟨hut, hu⟩
  simp only [System.resume, hcall]
  refine h.leave hb (fun m hc => ?_) ?_ ?_ ?_ rfl rfl ?_
  · rw [hcall] at hc
    exact Call.noConfusion hc
  · exact hb
  · exact (h.clean t).waitSem_none hb
  · exact (h.clean t).wakeTick_zero hb
  · constructor
    · exact fun u s' hu => h.tickets.ticket_lt u s' (hwait u s' hu).2
    · exact fun u s₁ u' s₂ hu hu' => h.tickets.ticket_inj u s₁ u' s₂ (hwait u s₁ hu).2 (hwait u' s₂ hu').2
    · exact h.tickets.served_lt
    · exact h.tickets.order
    · intro u s' ms' hbu hc
      have hut := (hwait u s' ⟨ms', hc⟩).1
      dsimp only [semWaitReturn] at hbu hc ⊢
      rw [setThread_ne hut] at hbu hc ⊢
      exact h.tickets.woken u s' ms' hbu hc
    · intro s' p hp
      have hold : p ∈ S.returned s' → p.1 < S.drawn ∧ Settled (S.served s') p.1 p.2 ∧
          ∀ u s'', ((semWaitReturn S.state t ms).2.thread u).InWait s'' → S.ticket u ≠ p.1 := by
        intro hp
        obtain ⟨hlt, hset, hne⟩ := h.tickets.returned s' p hp
        exact ⟨hlt, hset, fun u s'' hu => hne u s'' (hwait u s'' hu).2⟩
      by_cases hs : s' = s
      · subst hs
        dsimp only at hp
        rw [update_self, mem_append, mem_singleton] at hp
        obtain hp | rfl := hp
        · exact hold hp
        · refine ⟨h.tickets.ticket_lt t s' hin, hrc, fun u s'' hu he => ?_⟩
          obtain ⟨hut, hu⟩ := hwait u s'' hu
          exact hut (h.tickets.ticket_inj u s'' t s' hu hin he)
      · dsimp only at hp
        rw [update_of_ne hs] at hp
        exact hold hp

theorem Inv.resume (h : Inv S L) (ht : t < S.state.threadHi) (hb : (S.state.thread t).blocked = false) :
    ∃ L', Inv (S.resume t) L' := by
  cases hcall : (S.state.thread t).call with
  | none => exact ⟨L, by simpa only [System.resume, hcall] using h⟩
  | semWait s ms => exact ⟨L, h.finish hb hcall⟩
  | mutexLock m =>
    simp only [System.resume, hcall]
    exact h.lock ⟨ht, hb, .inr hcall⟩
  | sleep =>
    refine ⟨L, ?_⟩
    simp only [System.resume, hcall]
    refine h.leave hb (fun m hc => ?_) ?_ ?_ ?_ rfl rfl ?_
    · rw [hcall] at hc
      exact Call.noConfusion hc
    · exact hb
    · exact (h.clean t).waitSem_none hb
    · exact (h.clean t).wakeTick_zero hb
    · refine h.tickets.frame (fun _ => rfl) (fun u => ?_) rfl rfl rfl rfl
      by_cases hu : u = t
      · subst hu
        refine .inr ⟨?_, by rw [setThread_self]; exact not_inWait rfl⟩
        rintro s ⟨ms, hc⟩
        rw [hcall] at hc
        exact Call.noConfusion hc
      · exact .inl (setThread_ne hu)

theorem Inv.wait (h : Inv S L) (hfree : S.state.Free t) (s ms : Nat) :
    ∃ L', Inv (S.wait t s (semWaitCommon S.state t s ms)) L' := by
  by_cases hc : BitVec.slt 0 (S.state.count s)
  · exact ⟨L, h.take hfree hc⟩
  · exact ⟨_, h.block hfree hc⟩

/-- **Every event keeps the invariant.** -/
theorem Inv.step (h : Inv S L) (e : Event) : ∃ L', Inv (S.step e) L' := by
  have hlock : ∀ {t m}, S.state.Free t → S.state.Tries t m := fun hf => ⟨hf.1, hf.2.1, .inl hf.2.2⟩
  cases e with
  | semWait t s =>
    simp only [System.step]
    split
    · exact h.wait ‹_› s 0
    · exact ⟨L, h⟩
  | semWaitTimeout t s ms =>
    simp only [System.step]
    split
    · exact h.wait ‹_› s _
    · exact ⟨L, h⟩
  | semPost s => exact h.post s
  | tick => exact h.tick
  | mutexLock t m =>
    simp only [System.step]
    split
    · exact h.lock (hlock ‹_›)
    · exact ⟨L, h⟩
  | mutexUnlock t m =>
    simp only [System.step]
    split
    · exact h.unlock t m
    · exact ⟨L, h⟩
  | sleep t ms =>
    simp only [System.step]
    split
    · exact ⟨L, h.sleep ‹_› ms⟩
    · exact ⟨L, h⟩
  | resume t =>
    simp only [System.step]
    split
    · rename_i ht
      exact h.resume ht.1 ht.2
    · exact ⟨L, h⟩

end Steps

end Win98Modern.Semaphores
