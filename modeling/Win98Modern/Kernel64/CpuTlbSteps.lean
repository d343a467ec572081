import Win98Modern.Kernel64.CpuTlbInv

/-!
# The actions of the domain

What each action that writes does to the invariant, and that it stays within what the others rely on.
-/

namespace Win98Modern.CpuTlb

open Function List

open Rounds

variable {c : Config} {m : Tlb} {g prev : U64} {cpu cpu' : Nat}

/-! ### The service routine -/

section Service

def refreshed (cpu : Nat) (m : Tlb) : Tlb :=
  { m with cached := update m.cached cpu [], log := .refresh cpu :: m.log }

def acknowledged (cpu : Nat) (g : U64) (m : Tlb) : Tlb :=
  { m with ack := update m.ack cpu g, log := .ack cpu g.toNat :: m.log }

@[simp] theorem refreshed_cached_self : (refreshed cpu m).cached cpu = [] := update_self ..

theorem refreshed_cached_of_ne (h : cpu' ≠ cpu) : (refreshed cpu m).cached cpu' = m.cached cpu' :=
  update_of_ne h ..

@[simp] theorem acknowledged_ack_self : (acknowledged cpu g m).ack cpu = g := update_self ..

theorem acknowledged_ack_of_ne (h : cpu' ≠ cpu) : (acknowledged cpu g m).ack cpu' = m.ack cpu' :=
  update_of_ne h ..

theorem inv_refreshed (hi : Inv c m) (cpu : Nat) : Inv c (refreshed cpu m) where
  generation := hi.generation
  request := hi.request
  phase := hi.phase
  opened g hg := by
    obtain ⟨ho, hr⟩ := hi.opened g hg
    exact ⟨(outstanding_cons (m := .refresh cpu) trivial).2 ho, hr⟩
  idle g hg hp := by
    obtain ⟨h1, h2, h3, h4⟩ := hi.idle g hg hp
    exact ⟨h1, h2, h3, fun h => (complete_cons (m := .refresh cpu) trivial).2 (h4 h)⟩
  poisoned := (poisoned_cons (m := .refresh cpu) trivial).trans hi.poisoned
  lawful := ⟨trivial, hi.lawful⟩
  acked cpu h := mem_cons_of_mem _ (hi.acked cpu h)
  current cpu' g h := by
    rcases mem_cons.1 h with h | h
    · exact nomatch h
    · exact hi.current cpu' g h
  ack_le := hi.ack_le
  leaf := hi.leaf
  cached p hp f hf := by
    by_cases hc : p = cpu
    · subst hc
      rw [refreshed_cached_self] at hf
      exact nomatch hf
    · rw [refreshed_cached_of_ne hc] at hf
      refine hi.cached p ?_ f hf
      exact hp.resolve_left fun h => hc h.symm

theorem inv_acknowledged (hi : Inv c m) (ho : Outstanding m.log g.toNat) (hreq : m.request = g)
    (hack : m.ack cpu ≠ g) (hr : Refreshed cpu m.log) : Inv c (acknowledged cpu g m) where
  generation := hi.generation
  request := hi.request
  phase := hi.phase
  opened g' hg := by
    obtain ⟨ho, hr⟩ := hi.opened g' hg
    exact ⟨(outstanding_cons (m := .ack cpu g.toNat) trivial).2 ho, hr⟩
  idle g' hg hp := by
    obtain ⟨h1, h2, h3, h4⟩ := hi.idle g' hg hp
    exact ⟨h1, h2, h3, fun h => (complete_cons (m := .ack cpu g.toNat) trivial).2 (h4 h)⟩
  poisoned := (poisoned_cons (m := .ack cpu g.toNat) trivial).trans hi.poisoned
  lawful := ⟨⟨ho, hr, fun h => hack (hi.current cpu g h ho.1)⟩, hi.lawful⟩
  acked p h := by
    by_cases hc : p = cpu
    · subst hc
      rw [acknowledged_ack_self]
      exact mem_cons_self
    · rw [acknowledged_ack_of_ne hc] at h ⊢
      exact mem_cons_of_mem _ (hi.acked p h)
  current p g' h hiss := by
    rcases mem_cons.1 h with h | h
    · injection h with hp hg
      rw [hp, acknowledged_ack_self]
      exact (BitVec.eq_of_toNat_eq hg).symm
    · have hg : g = g' := BitVec.eq_of_toNat_eq (ho.1.symm.trans hiss)
      by_cases hc : p = cpu
      · rw [hc, acknowledged_ack_self, hg]
      · rw [acknowledged_ack_of_ne hc]
        exact hi.current p g' h hiss
  ack_le p := by
    by_cases hc : p = cpu
    · subst hc
      rw [acknowledged_ack_self]
      exact Nat.le_of_eq (congrArg _ hreq.symm)
    · rw [acknowledged_ack_of_ne hc]
      exact hi.ack_le p
  leaf := hi.leaf
  cached := hi.cached

theorem boot_refreshed (cpu : Nat) (m : Tlb) : BootRely m (refreshed cpu m) :=
  ⟨rfl, rfl, rfl, rfl, rfl, rfl, ⟨[.refresh cpu], rfl, fun x hx => by
    rw [mem_singleton.1 hx]
    trivial⟩, fun _ => rfl⟩

theorem irq_refreshed (cpu cpu' : Nat) (m : Tlb) : IrqRely c cpu' m (refreshed cpu m) :=
  .of_eq rfl rfl rfl .inr

theorem boot_acknowledged (hg : Open m g) (cpu : Nat) : BootRely m (acknowledged cpu g m) :=
  ⟨rfl, rfl, rfl, rfl, rfl, rfl, ⟨[.ack cpu g.toNat], rfl, fun x hx => by
    rw [mem_singleton.1 hx]
    trivial⟩, fun hno => absurd hg (hno g)⟩

theorem irq_acknowledged (h : cpu' ≠ cpu) (g : U64) (m : Tlb) :
    IrqRely c cpu' m (acknowledged cpu g m) :=
  .of_eq rfl rfl (update_of_ne h ..) id

theorem inv_walk (hi : Inv c m) (w : Walk) : Inv c (walk w m) := by
  unfold walk
  split
  case isTrue => exact hi
  case isFalse =>
    refine { hi with cached := fun p hp f hf => ?_, leaf := fun g f h => ?_ }
    · refine Eq.trans ?_ (frameOf_or _ w.write).symm
      by_cases hc : p = w.cpu
      · subst hc
        have hf : f ∈ update m.cached w.cpu (frameOf m.leaf :: m.cached w.cpu) w.cpu := hf
        rw [update_self] at hf
        exact (mem_cons.1 hf).elim id (hi.cached _ hp f)
      · have hf : f ∈ update m.cached w.cpu (frameOf m.leaf :: m.cached w.cpu) p := hf
        rw [update_of_ne hc] at hf
        exact hi.cached p hp f hf
    · exact (frameOf_or _ w.write).trans (hi.leaf g f h)

theorem boot_walk (w : Walk) (m : Tlb) : BootRely m (walk w m) := by
  unfold walk
  split
  case isTrue => exact .refl m
  case isFalse =>
    exact ⟨rfl, rfl, rfl, rfl, rfl, cleared_or _ _, ⟨[], rfl, fun _ h => nomatch h⟩, fun _ => rfl⟩

theorem irq_walk (w : Walk) (m : Tlb) : IrqRely c cpu m (walk w m) := by
  unfold walk
  split
  case isTrue => exact .refl c cpu m
  case isFalse => exact .of_eq rfl rfl rfl id

end Service

/-! ### The boot processor -/

section Boot

variable {l : U64}

theorem Inv.not_poisoned (hi : Inv c m) {st : Phase} (hprev : prev.toNat < 2 ^ 62)
    (hp : m.phase = phaseValue prev st) (hst : st ≠ .poisoned) : ¬ Poisoned m.log := by
  intro h
  obtain ⟨g, hg, hph⟩ := hi.poisoned.1 h
  exact hst (phaseValue_inj hprev hg (hp.symm.trans hph)).2

/-- While the boot processor publishes, nothing is said of the phase. -/
theorem inv_of_publishing (hprev : prev.toNat < 2 ^ 62) (hp : m.phase = phaseValue prev .publishing)
    (hgen : m.generation.toNat < 2 ^ 62) (hreq : m.request.toNat < 2 ^ 62) (hpoison : ¬ Poisoned m.log)
    (lawful : Lawful (· < c.count) m.log)
    (acked : ∀ cpu, m.ack cpu ≠ 0 → .ack cpu (m.ack cpu).toNat ∈ m.log)
    (current : ∀ cpu g, .ack cpu (BitVec.toNat g) ∈ m.log → issued m.log = g.toNat → m.ack cpu = g)
    (ack_le : ∀ cpu, (m.ack cpu).toNat ≤ m.request.toNat)
    (cached : ∀ cpu, Refreshed cpu m.log → ∀ f ∈ m.cached cpu, f = frameOf m.leaf)
    (leaf : ∀ g f, latest m.log = some (g, f) → frameOf m.leaf = f) : Inv c m where
  generation := hgen
  request := hreq
  phase := ⟨prev, .publishing, hprev, hp⟩
  opened _ hg := absurd hg (Open.not_publishing hp hprev _)
  idle _ hg hidle := nomatch (phaseValue_inj hprev hg (hp.symm.trans hidle)).2
  poisoned := iff_of_false hpoison fun ⟨_, hg, hph⟩ => nomatch (phaseValue_inj hprev hg (hp.symm.trans hph)).2
  lawful := lawful
  acked := acked
  current := current
  ack_le := ack_le
  cached := cached
  leaf := leaf

theorem inv_claimed (hi : Inv c m) (hprev : prev.toNat < 2 ^ 62) (hp : m.phase = phaseValue prev .idle) :
    Inv c { m with phase := phaseValue prev .publishing, log := [] ++ m.log } :=
  inv_of_publishing hprev rfl hi.generation hi.request (hi.not_poisoned hprev hp nofun) hi.lawful hi.acked
    hi.current hi.ack_le hi.cached hi.leaf

theorem inv_unchanged (hi : Inv c m) (hprev : prev.toNat < 2 ^ 62)
    (hp : m.phase = phaseValue prev .publishing) (hgen : m.generation = prev) (hreq : m.request = prev)
    (hiss : issued m.log = prev.toNat) (hdone : prev.toNat ≠ 0 → .complete prev.toNat ∈ m.log) :
    Inv c { m with phase := phaseValue prev .idle } :=
  { hi with
    phase := ⟨prev, .idle, hprev, rfl⟩
    opened := fun g hg => absurd hg (Open.not_idle rfl hprev g)
    idle := fun g hg he => by
      obtain rfl := (phaseValue_inj hprev hg he).1
      exact ⟨hiss, hreq, hgen, hdone⟩
    poisoned := iff_of_false (hi.not_poisoned hprev hp nofun) fun ⟨_, hg, hph⟩ =>
      nomatch (phaseValue_inj hprev hg hph).2 }

theorem inv_published (hi : Inv c m) (hprev : prev.toNat < 2 ^ 62)
    (hp : m.phase = phaseValue prev .publishing) (hiss : issued m.log = prev.toNat)
    (hdone : prev.toNat ≠ 0 → .complete prev.toNat ∈ m.log) :
    Inv c { m with leaf := l, log := .publish (prev.toNat + 1) (frameOf l) :: m.log } := by
  have hnp := hi.not_poisoned hprev hp nofun
  refine inv_of_publishing hprev hp hi.generation hi.request ?_ ⟨⟨by rw [hiss], by rwa [hiss], hnp⟩, hi.lawful⟩
    (fun p h => mem_cons_of_mem _ (hi.acked p h)) ?_ hi.ack_le (fun p h => h.elim) ?_
  · rintro ⟨g, hg⟩
    rcases mem_cons.1 hg with h | h
    · exact nomatch h
    · exact hnp ⟨g, h⟩
  · intro p g hg he
    rcases mem_cons.1 hg with h | h
    · exact nomatch h
    · have hle := round_le_issued hi.lawful h rfl
      have he : prev.toNat + 1 = g.toNat := he
      omega
  · intro g f h
    have := Option.some.inj h
    exact congrArg Prod.snd this

theorem inv_generation (hi : Inv c m) (hprev : prev.toNat < 2 ^ 62)
    (hp : m.phase = phaseValue prev .publishing) (hg : g.toNat < 2 ^ 62) :
    Inv c { m with generation := g } :=
  inv_of_publishing hprev hp hg hi.request (hi.not_poisoned hprev hp nofun) hi.lawful hi.acked hi.current hi.ack_le
    hi.cached hi.leaf

theorem inv_request (hi : Inv c m) (hprev : prev.toNat < 2 ^ 62)
    (hp : m.phase = phaseValue prev .publishing) (hg : g.toNat < 2 ^ 62)
    (hle : m.request.toNat ≤ g.toNat) :
    Inv c { m with request := g } :=
  inv_of_publishing hprev hp hi.generation hg (hi.not_poisoned hprev hp nofun) hi.lawful hi.acked
    hi.current (fun p => Nat.le_trans (hi.ack_le p) hle) hi.cached hi.leaf

theorem inv_pending (hi : Inv c m) (hprev : prev.toNat < 2 ^ 62)
    (hp : m.phase = phaseValue prev .publishing) (hg : g.toNat < 2 ^ 62)
    (ho : Outstanding m.log g.toNat) (hreq : m.request = g) (hgen : m.generation = g) :
    Inv c { m with phase := phaseValue g .pending } :=
  { hi with
    phase := ⟨g, .pending, hg, rfl⟩
    opened := fun h hh => by
      obtain rfl := hh.unique hg rfl
      exact ⟨ho, hreq, hgen⟩
    idle := fun h hh he => nomatch (phaseValue_inj hg hh he).2
    poisoned := iff_of_false (hi.not_poisoned hprev hp nofun) fun ⟨_, hh, hph⟩ =>
      nomatch (phaseValue_inj hg hh hph).2 }

theorem inv_poisoned (hi : Inv c m) (hg : g.toNat < 2 ^ 62) (hp : m.phase = phaseValue g .pending) :
    Inv c { m with phase := phaseValue g .poisoned, log := [.poison g.toNat] ++ m.log } := by
  obtain ⟨ho, hreq⟩ := hi.opened g ⟨hg, .inl hp⟩
  have hmem : ∀ {x}, (∀ k, x ≠ .poison k) → x ∈ [.poison g.toNat] ++ m.log → x ∈ m.log := by
    intro x hx h
    exact (mem_cons.1 h).resolve_left (hx _)
  refine { hi with
    phase := ⟨g, .poisoned, hg, rfl⟩
    opened := fun h hh => ?_
    idle := fun h hh he => nomatch (phaseValue_inj hg hh he).2
    poisoned := iff_of_true ⟨_, mem_cons_self⟩ ⟨g, hg, rfl⟩
    lawful := ⟨⟨ho, hi.not_poisoned hg hp nofun⟩, hi.lawful⟩
    acked := fun p h => mem_cons_of_mem _ (hi.acked p h)
    current := fun p g h => hi.current p g (hmem nofun h) }
  obtain rfl := hh.unique hg rfl
  exact ⟨⟨ho.1, ho.2.1, fun h => ho.2.2 (hmem nofun h)⟩, hreq⟩

theorem inv_completed (hi : Inv c m) (hg : g.toNat < 2 ^ 62) (hp : m.phase = phaseValue g .pending)
    (hall : ∀ cpu < c.count, .ack cpu g.toNat ∈ m.log) :
    Inv c { m with phase := phaseValue g .idle, log := [.complete g.toNat] ++ m.log } := by
  obtain ⟨ho, hreq, hgen⟩ := hi.opened g ⟨hg, .inl hp⟩
  have hnp := hi.not_poisoned hg hp nofun
  have hmem : ∀ {x}, (∀ k, x ≠ .complete k) → x ∈ [.complete g.toNat] ++ m.log → x ∈ m.log := by
    intro x hx h
    exact (mem_cons.1 h).resolve_left (hx _)
  exact { hi with
    phase := ⟨g, .idle, hg, rfl⟩
    opened := fun h hh => absurd hh (Open.not_idle rfl hg h)
    idle := fun h hh he => by
      obtain rfl := (phaseValue_inj hg hh he).1
      exact ⟨ho.1, hreq, hgen, fun _ => mem_cons_self⟩
    poisoned := iff_of_false (fun ⟨k, hk⟩ => hnp ⟨k, hmem nofun hk⟩) fun ⟨_, hh, hph⟩ =>
      nomatch (phaseValue_inj hg hh hph).2
    lawful := ⟨⟨ho, hnp, hall⟩, hi.lawful⟩
    acked := fun p h => mem_cons_of_mem _ (hi.acked p h)
    current := fun p g h => hi.current p g (hmem nofun h) }

theorem irq_poisoned (hg : g.toNat < 2 ^ 62) (hp : m.phase = phaseValue g .pending) :
    IrqRely c cpu m { m with phase := phaseValue g .poisoned, log := [.poison g.toNat] ++ m.log } := by
  refine ⟨fun h hw => ?_, fun _ _ hr => hr, Nat.le_refl _, .inl rfl⟩
  obtain rfl := hw.opened.unique hg hp
  exact ⟨hw.member, ⟨hg, .inr rfl⟩, hw.ack⟩

theorem irq_completed (hi : Inv c m) (hg : g.toNat < 2 ^ 62) (hp : m.phase = phaseValue g .pending)
    (hall : ∀ cpu < c.count, .ack cpu g.toNat ∈ m.log) :
    IrqRely c cpu m { m with phase := phaseValue g .idle, log := [.complete g.toNat] ++ m.log } := by
  have hno : ∀ h, ¬ Wait c cpu h m := by
    intro h hw
    obtain rfl := hw.opened.unique hg hp
    exact hw.ack (hi.current cpu h (hall cpu hw.member) (hi.opened h hw.opened).1.1)
  exact ⟨fun h hw => absurd hw (hno h), fun h hw => absurd hw (hno h), Nat.le_refl _, .inl rfl⟩

end Boot

end Win98Modern.CpuTlb
