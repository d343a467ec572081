import Win98Modern.Kernel64.SemaphoresSteps
import Win98Modern.Lib.Runs

/-!
# Semaphores and mutexes over whole runs

The units of a semaphore are balanced as long as its count does not wrap (`Balanced`, `Counts`), and then
nothing is lost (`Sound`): what the numbers of the waits and the lists say is read off the invariant.
-/

namespace Win98Modern.Semaphores

open Function List

section Units

variable {S S' : System} {t s m : Nat}

/-- The units of a semaphore. -/
def Balanced (S : System) : Prop :=
  ∀ s, (S.state.count s).toInt + (S.served s).length = (S.initial s).toInt + S.posts s

/-! ### The units -/

def INT_MAX : BitVec 32 := 0x7fffffff

/-- A post without a waiter finds room in the count. -/
def Counts (S : System) : Event → Prop
  | .semPost s => S.state.waiters (.sem s) = none → S.state.count s ≠ INT_MAX
  | _ => True

theorem toInt_pred {c : BitVec 32} (hc : BitVec.slt 0 c) : (c - 1).toInt = c.toInt - 1 := by
  have hpos : 0 < c.toInt := by simpa [BitVec.slt] using hc
  have hlt : c.toInt < 2 ^ 31 := BitVec.toInt_lt
  rw [BitVec.toInt_sub, show (1 : BitVec 32).toInt = 1 from rfl]
  exact Int.bmod_eq_of_le (by omega) (by omega)

theorem toInt_succ {c : BitVec 32} (hc : c ≠ INT_MAX) : (c + 1).toInt = c.toInt + 1 := by
  have hne : c.toInt ≠ 2 ^ 31 - 1 := fun e => hc (BitVec.eq_of_toInt_eq e)
  have hlt : c.toInt < 2 ^ 31 := BitVec.toInt_lt
  have hle : -2 ^ 31 ≤ c.toInt := BitVec.le_toInt c
  rw [BitVec.toInt_add, show (1 : BitVec 32).toInt = 1 from rfl]
  exact Int.bmod_eq_of_le (by omega) (by omega)

theorem Balanced.congr (h : Balanced S) (hcount : S'.state.count = S.state.count) (hserved : S'.served = S.served)
    (hinitial : S'.initial = S.initial) (hposts : S'.posts = S.posts) : Balanced S' := by
  intro s
  rw [hcount, hserved, hinitial, hposts]
  exact h s

theorem expire_count (σ : State) (i : Nat) : (expire σ i).count = σ.count := by
  simp only [expire]
  split
  · cases (σ.thread i).waitSem <;> rfl
  · rfl

theorem scan_count (is : List Nat) (σ : State) : (is.foldl expire σ).count = σ.count := by
  induction is generalizing σ with
  | nil => rfl
  | cons i is ih => exact (ih (expire σ i)).trans (expire_count σ i)

theorem mutexLock_count {σ σ' : State} (h : mutexLock σ t m = some σ') : σ'.count = σ.count := by
  unfold mutexLock at h
  split at h
  · exact (Option.some.inj h) ▸ rfl
  · split at h
    · cases h
    · exact (Option.some.inj h) ▸ rfl

theorem mutexUnlock_count {σ σ' : State} (h : mutexUnlock σ t m = some σ') : σ'.count = σ.count := by
  simp only [mutexUnlock] at h
  split at h
  · split at h
    · exact (Option.some.inj h) ▸ rfl
    · exact (Option.some.inj h) ▸ rfl
  · cases h

theorem Balanced.lock (h : Balanced S) (t m : Nat) : Balanced (S.lock t m) := by
  unfold System.lock
  split
  · exact h
  · rename_i σ hσ
    split
    · exact h.congr (mutexLock_count hσ) rfl rfl rfl
    · exact h.congr (mutexLock_count hσ) rfl rfl rfl

theorem Balanced.unlock (h : Balanced S) (t m : Nat) : Balanced (S.unlock t m) := by
  unfold System.unlock
  split
  · exact h
  · exact h.congr (mutexUnlock_count ‹_›) rfl rfl rfl

theorem Balanced.wait (h : Balanced S) (t s ms : Nat) : Balanced (S.wait t s (semWaitCommon S.state t s ms)) := by
  by_cases hc : BitVec.slt 0 (S.state.count s)
  · intro s'
    rw [System.wait, if_pos hc, semWaitCommon, if_pos hc]
    dsimp only
    by_cases hs : s' = s
    · subst hs
      have hb := h s'
      rw [update_self, update_self, toInt_pred hc, length_append, length_singleton]
      omega
    · rw [update_of_ne hs, update_of_ne hs]
      exact h s'
  · rw [System.wait, if_neg hc, semWaitCommon, if_neg hc]
    exact h.congr rfl rfl rfl rfl

theorem Balanced.post (h : Balanced S) (hc : Counts S (.semPost s)) : Balanced (S.post s) := by
  intro s'
  have hb := h s'
  unfold System.post semPost
  cases hw : S.state.waiters (.sem s) with
  | none =>
    dsimp only
    by_cases hs : s' = s
    · subst hs
      rw [update_self, update_self, toInt_succ (hc hw)]
      omega
    · rw [update_of_ne hs, update_of_ne hs]
      exact hb
  | some w =>
    dsimp only [State.setThread, State.dequeue]
    by_cases hs : s' = s
    · subst hs
      rw [update_self, update_self, length_append, length_singleton]
      omega
    · rw [update_of_ne hs, update_of_ne hs]
      exact hb

theorem Balanced.step (h : Balanced S) (e : Event) (hc : Counts S e) : Balanced (S.step e) := by
  cases e with
  | semWait t s =>
    simp only [System.step]
    split
    · exact h.wait t s 0
    · exact h
  | semWaitTimeout t s ms =>
    simp only [System.step]
    split
    · exact h.wait t s _
    · exact h
  | semPost s => exact h.post hc
  | tick => exact h.congr (scan_count _ _) rfl rfl rfl
  | mutexLock t m =>
    simp only [System.step]
    split
    · exact h.lock t m
    · exact h
  | mutexUnlock t m =>
    simp only [System.step]
    split
    · exact h.unlock t m
    · exact h
  | sleep t ms =>
    simp only [System.step]
    split
    · exact h.congr rfl rfl rfl rfl
    · exact h
  | resume t =>
    simp only [System.step]
    split
    · unfold System.resume
      split
      · exact h
      · exact h.congr rfl rfl rfl rfl
      · exact h.lock t _
      · exact h.congr rfl rfl rfl rfl
    · exact h

/-- A post that finds no room wraps the count, and `2 ^ 32` units are gone. -/
theorem Balanced.lost (h : Balanced S) {e : Event} (hc : ¬Counts S e) : ¬Balanced (S.step e) := by
  cases e with
  | semPost s =>
    simp only [Counts, Classical.not_imp, ne_eq, not_not] at hc
    obtain ⟨hw, hmax⟩ := hc
    intro h'
    have hb := h s
    have hb' := h' s
    simp only [System.step, System.post, semPost, hw, update_self, hmax] at hb'
    rw [hmax, show INT_MAX.toInt = 2 ^ 31 - 1 from rfl] at hb
    rw [show (INT_MAX + 1).toInt = -2 ^ 31 from rfl] at hb'
    omega
  | _ => exact absurd trivial hc

end Units

/-! ### Runs -/

structure Sound (S : System) : Prop where
  balance : Balanced S
  idle : ∀ s, BitVec.slt 0 (S.state.count s) → S.state.waiters (.sem s) = none
  returned : ∀ s, ∀ p ∈ S.returned s, Settled (S.served s) p.1 p.2
  fifo : ∀ s, (S.served s).Pairwise (· < ·)
  /-- A thread is once in the list of the object that it waits for, and in no other list. -/
  one_list : ∃ L : Obj → List Nat, (∀ o, Chain Slot.next S.state.link (.waiters o) (L o)) ∧
    ∀ o t, (L o).count t = if t < S.state.threadHi ∧ (S.state.thread t).WaitsFor o then 1 else 0
  owner : ∀ m, S.holders m = (S.state.owner m).toList
  retry : ∀ m, S.state.locked m = false → S.state.waiters (.mutex m) ≠ none →
    ∃ t < S.state.threadHi, (S.state.thread t).blocked = false ∧ (S.state.thread t).call = .mutexLock m

theorem Inv.sound {S : System} {L : Obj → List Nat} (h : Inv S L) (hb : Balanced S) : Sound S where
  balance := hb
  idle s hs := by rw [h.lists.waiters_eq, h.idle s hs]; rfl
  returned s p hp := (h.tickets.returned s p hp).2.1
  fifo s := (pairwise_append.1 (h.tickets.order s)).1
  one_list := by
    refine ⟨L, h.lists.family.chain, fun o t => ?_⟩
    rw [h.lists.family.count]
    exact if_congr (h.lists.mem o t) rfl rfl
  owner m := (h.mutexes m).holders
  retry m hfree hne := by
    refine (h.mutexes m).retry hfree fun hL => hne ?_
    rw [h.lists.waiters_eq, hL]
    rfl

theorem inv_start (n jiffies : Nat) (count : Nat → BitVec 32) (result : Nat → Int) (next : Nat → Option Nat) :
    Inv (.start (.init n jiffies count result next)) fun _ => [] where
  lists := by
    refine ⟨⟨fun _ => rfl, fun _ => nodup_nil, fun _ _ _ h => absurd h not_mem_nil⟩, fun o t => ?_⟩
    exact iff_of_false not_mem_nil fun h => Bool.noConfusion h.2.1
  clean t := clean_of_ready rfl rfl rfl
  idle _ _ := rfl
  tickets := by
    have hnot : ∀ t s, ¬((State.init n jiffies count result next).thread t).InWait s := fun t => not_inWait rfl
    exact ⟨fun t s h => absurd h (hnot t s), fun t s _ _ h => absurd h (hnot t s),
      fun _ _ h => absurd h not_mem_nil, fun _ => List.Pairwise.nil, fun t s ms _ h => absurd ⟨ms, h⟩ (hnot t s),
      fun _ _ h => absurd h not_mem_nil⟩
  mutexes m := ⟨rfl, rfl, fun _ h => absurd rfl h⟩

/-- **Nothing is lost** in a run if and only if each post without a waiter finds room in the count. -/
theorem semaphores_and_mutexes (n jiffies : Nat) (count : Nat → BitVec 32) (result : Nat → Int)
    (next : Nat → Option Nat) (evs : List Event) :
    Along System.step Sound (fun _ _ => True) (.start (.init n jiffies count result next)) evs ↔
      Steps System.step Counts (.start (.init n jiffies count result next)) evs := by
  constructor
  · generalize System.start (.init n jiffies count result next) = S
    intro h
    induction evs generalizing S with
    | nil => trivial
    | cons e evs ih =>
      refine ⟨trivial, ?_, ih _ h.2.2⟩
      by_contra hc
      exact h.1.balance.lost hc h.2.2.head.balance
  · refine along_of_inv (I := fun S => (∃ L, Inv S L) ∧ Balanced S) evs ?_ ?_ ?_
    · rintro S ⟨⟨L, hL⟩, hb⟩
      exact hL.sound hb
    · rintro S e ⟨⟨L, hL⟩, hb⟩ - hc
      exact ⟨trivial, hL.step e, hb.step e hc⟩
    · exact ⟨⟨_, inv_start n jiffies count result next⟩, fun s => by simp [System.start]⟩

/-- The laws that a count which wraps leaves alone: a thread that waits has a later number than all that were
served, and none waits while there are units. -/
structure InOrder (S : System) : Prop where
  owner : ∀ m, S.holders m = (S.state.owner m).toList
  retry : ∀ m, S.state.locked m = false → (∃ t < S.state.threadHi, (S.state.thread t).WaitsFor (.mutex m)) →
    ∃ t < S.state.threadHi, (S.state.thread t).blocked = false ∧ (S.state.thread t).call = .mutexLock m
  fifo : ∀ s, (S.served s).Pairwise (· < ·)
  returned : ∀ s, ∀ p ∈ S.returned s, Settled (S.served s) p.1 p.2
  later : ∀ s, ∀ t < S.state.threadHi, (S.state.thread t).WaitsFor (.sem s) → ∀ k ∈ S.served s, k < S.ticket t
  idle : ∀ s, BitVec.slt 0 (S.state.count s) → ∀ t < S.state.threadHi, ¬(S.state.thread t).WaitsFor (.sem s)

theorem Inv.inOrder {S : System} {L : Obj → List Nat} (h : Inv S L) : InOrder S where
  owner m := (h.mutexes m).holders
  retry m hfree := fun ⟨t, ht, hw⟩ => (h.mutexes m).retry hfree (ne_nil_of_mem ((h.lists.mem _ t).2 ⟨ht, hw⟩))
  fifo s := (pairwise_append.1 (h.tickets.order s)).1
  returned s p hp := (h.tickets.returned s p hp).2.1
  later s t ht hw k hk := by
    have ht : t ∈ L (.sem s) := (h.lists.mem _ t).2 ⟨ht, hw⟩
    exact (pairwise_append.1 (h.tickets.order s)).2.2 k hk _ (mem_map_of_mem ht)
  idle s hs t ht hw := by
    have ht : t ∈ L (.sem s) := (h.lists.mem _ t).2 ⟨ht, hw⟩
    rw [h.idle s hs] at ht
    cases ht

/-- **Mutual exclusion, and first come first served**, in every run, also when a post wraps a count. -/
theorem waits_in_order (n jiffies : Nat) (count : Nat → BitVec 32) (result : Nat → Int)
    (next : Nat → Option Nat) (evs : List Event) :
    Along System.step InOrder (fun _ _ => True) (.start (.init n jiffies count result next)) evs :=
  along_of_inv (I := fun S => ∃ L, Inv S L) evs (fun _ ⟨_, h⟩ => h.inOrder)
    (fun _ e ⟨_, h⟩ _ _ => ⟨trivial, h.step e⟩) ⟨_, inv_start n jiffies count result next⟩ (along_true _ evs)

/-- The count of a semaphore that has all the units an `int` can count. -/
theorem full_count_wraps : ¬Along System.step Sound (fun _ _ => True)
    (.start (.init 1 0 (fun _ => INT_MAX) (fun _ => 0) fun _ => none)) [.semPost 0] := by
  intro h
  have hb := h.2.2.balance 0
  exact absurd hb (by decide)

end Win98Modern.Semaphores
