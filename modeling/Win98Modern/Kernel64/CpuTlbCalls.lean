import Win98Modern.Kernel64.CpuTlbSteps

/-!
# The calls of the domain

Each call keeps to its contract: the service routine of a processor invalidates and acknowledges
only for itself, and the boot processor's calls speak only of the generation they are given.
-/

namespace Win98Modern.CpuTlb

open List Safe

open Rounds

variable {c : Config} {m m' : Tlb} {g prev : U64} {cpu index : Nat}

/-- The marks that a call of the boot processor may make. -/
def Job.Marks : Job → Mark Nat U64 → Prop
  | .begin _, x => (∃ g f, x = .publish g f) ∨ x = .refresh 0 ∨ ∃ g, x = .ack 0 g
  | .dispatch g, x | .poison g, x => x = .poison g.toNat
  | .finish g, x => x = .poison g.toNat ∨ x = .complete g.toNat
  | .ipi, _ | .enroll, _ => False

/-- The marks that the service routine of `cpu` may make. -/
def OwnMark (cpu : Nat) (x : Mark Nat U64) : Prop := x = .refresh cpu ∨ ∃ g, x = .ack cpu g

def Grows (K : Mark Nat U64 → Prop) (m m' : Tlb) : Prop := ∃ xs, m'.log = xs ++ m.log ∧ ∀ x ∈ xs, K x

theorem Grows.of_eq {K : Mark Nat U64 → Prop} (h : m'.log = m.log) : Grows K m m' :=
  ⟨[], h, fun _ hx => nomatch hx⟩

theorem Grows.one {K : Mark Nat U64 → Prop} {x : Mark Nat U64} (h : m'.log = x :: m.log) (hx : K x) :
    Grows K m m' :=
  ⟨[x], h, fun _ hy => mem_singleton.1 hy ▸ hx⟩

def bootContract (c : Config) (job : Job) : Contract Tlb where
  rely := BootRely
  guar m m' := (∀ cpu, IrqRely c cpu m m') ∧ Grows job.Marks m m'
  rely_refl := .refl
  rely_trans := .trans
  guar_refl m := ⟨fun cpu => .refl c cpu m, .of_eq rfl⟩

def irqContract (c : Config) (cpu : Nat) : Contract Tlb where
  rely := IrqRely c cpu
  guar m m' := BootRely m m' ∧ (∀ p, p ≠ cpu → IrqRely c p m m') ∧ Grows (OwnMark cpu) m m'
  rely_refl := .refl c cpu
  rely_trans := .trans
  guar_refl m := ⟨.refl m, fun p _ => .refl c p m, .of_eq rfl⟩

/-! ### The service routine -/

section Service

/-- `cpu` has not acknowledged `g`, which is open or over. -/
def WaitOrOver (c : Config) (cpu : Nat) (g : U64) (m : Tlb) : Prop :=
  Wait c cpu g m ∨ g.toNat < m.request.toNat

theorem stable_wait : Stable (Inv c) (irqContract c cpu) (Wait c cpu g) :=
  fun _ _ _ _ hr hw => hr.wait g hw

theorem stable_waitOrOver : Stable (Inv c) (irqContract c cpu) (WaitOrOver c cpu g) :=
  fun _ _ _ _ hr => Or.imp (hr.wait g) fun h => Nat.lt_of_lt_of_le h hr.request

theorem stable_past :
    Stable (Inv c) (irqContract c cpu) fun m => m.ack cpu = g ∨ WaitOrOver c cpu g m := by
  rintro m m' hi hi' hr (rfl | h)
  · rcases hr.acked with heq | hlt
    · exact .inl heq
    · exact .inr (.inr hlt)
  · exact .inr (stable_waitOrOver m m' hi hi' hr h)

theorem stable_refreshed :
    Stable (Inv c) (irqContract c cpu) fun m => Wait c cpu g m ∧ Refreshed cpu m.log :=
  fun _ _ _ _ hr h => ⟨hr.wait g h.1, hr.refreshed g h.1 h.2⟩

theorem safe_descriptorValid (hi : Inv c m) (h : WaitOrOver c cpu g m) :
    Safe (Inv c) (irqContract c cpu) (fun r s => r = true → Wait c cpu g s) (descriptorValid c g) m := by
  refine ite (fun _ => .ret stable_true hi trivial fun _ _ _ h => nomatch h) fun _ => ?_
  refine .load stable_waitOrOver hi h fun m hi h => ?_
  refine ite (fun _ => .ret stable_true hi trivial fun _ _ _ h => nomatch h) fun hreq => ?_
  have hw : Wait c cpu g m := h.resolve_right fun hlt => by
    rw [← Classical.not_not.1 hreq] at hlt
    exact Nat.lt_irrefl _ hlt
  refine .load stable_wait hi hw fun m hi hw => ?_
  refine ite (fun _ => .ret stable_true hi trivial fun _ _ _ h => nomatch h) fun _ => ?_
  refine .ask stable_wait hi hw fun m count hi hw => ?_
  exact .ret stable_wait hi hw fun m hi hw _ => hw

theorem Inv.of_pending (hi : Inv c m) (hp : m.phase &&& 3 = Phase.pending.code) :
    (m.phase >>> 2).toNat < 2 ^ 62 ∧ m.phase = phaseValue (m.phase >>> 2) .pending := by
  obtain ⟨h, st, hh, hph⟩ := hi.phase
  rw [hph, phaseValue_and hh] at hp
  obtain rfl := Phase.code_inj hp
  rw [hph, phaseValue_shift hh]
  exact ⟨hh, rfl⟩

theorem safe_ipi (hi : Inv c m) :
    Safe (Inv c) (irqContract c cpu) (fun _ _ => True) (cpuTlbIpi c cpu) m := by
  refine .load stable_true hi trivial fun m hi _ => ?_
  refine guard hi fun hpend => ?_
  obtain ⟨hg, hp⟩ := hi.of_pending (Classical.not_not.1 hpend)
  generalize hgen : m.phase >>> 2 = g at hg hp ⊢
  refine guard hi fun hcount => ?_
  have h : m.ack cpu = g ∨ WaitOrOver c cpu g m := by
    by_cases hack : m.ack cpu = g
    · exact .inl hack
    · exact .inr (.inl ⟨Nat.lt_of_not_le hcount, ⟨hg, .inl hp⟩, hack⟩)
  refine .load stable_past hi h fun m hi h => ?_
  refine guard hi fun hack => ?_
  refine .bind ((safe_descriptorValid hi (h.resolve_left hack)).mono fun valid m hi hv => ?_)
  refine guard hi fun hvalid => ?_
  have hw : Wait c cpu g m := hv (by simpa using hvalid)
  refine .ask stable_wait hi hw fun m e hi hw => ?_
  refine guard hi fun _ => ?_
  refine guard hi fun _ => ?_
  refine .store stable_wait hi hw fun m hi hw => ⟨inv_refreshed hi cpu,
    ⟨boot_refreshed cpu m, fun p _ => irq_refreshed cpu p m, .one rfl (.inl rfl)⟩, ?_⟩
  have hw : Wait c cpu g (refreshed cpu m) ∧ Refreshed cpu (refreshed cpu m).log :=
    ⟨⟨hw.member, hw.opened, hw.ack⟩, .inl rfl⟩
  refine .store stable_refreshed (inv_refreshed hi cpu) hw fun m hi hw => ⟨{ hi with },
    ⟨⟨rfl, rfl, rfl, rfl, rfl, rfl, ⟨[], rfl, fun _ h => nomatch h⟩, fun _ => rfl⟩,
      fun p _ => .of_eq rfl rfl rfl id, .of_eq rfl⟩, ?_⟩
  refine guard { hi with } fun _ => ?_
  refine .store_last (stable_refreshed (g := g)) { hi with }
    ⟨⟨hw.1.member, hw.1.opened, hw.1.ack⟩, hw.2⟩ fun m hi ⟨hw, hr⟩ => ?_
  obtain ⟨ho, hreq, _⟩ := hi.opened g hw.opened
  exact ⟨inv_acknowledged hi ho hreq hw.ack hr,
    ⟨boot_acknowledged hw.opened cpu, fun p hp => irq_acknowledged hp g m, .one rfl (.inr ⟨_, rfl⟩)⟩,
    fun _ _ _ => trivial⟩

theorem safe_enroll (hi : Inv c m) :
    Safe (Inv c) (irqContract c cpu) (fun _ _ => True) (cpuTlbEnroll c cpu) m := by
  refine .ask stable_true hi trivial fun m e hi _ => ?_
  refine guard hi fun _ => ?_
  refine .load stable_true hi trivial fun m hi _ => ?_
  refine guard hi fun _ => ?_
  refine .load stable_true hi trivial fun m hi _ => ?_
  refine guard hi fun _ => ?_
  refine .store stable_true hi trivial fun m hi _ => ⟨{ hi with },
    ⟨⟨rfl, rfl, rfl, rfl, rfl, rfl, ⟨[], rfl, fun _ h => nomatch h⟩, fun _ => rfl⟩,
      fun p _ => .of_eq rfl rfl rfl id, .of_eq rfl⟩, ?_⟩
  exact .ret stable_true { hi with } trivial fun _ _ _ => trivial

end Service
/-! ### The boot processor -/

section Boot

variable {job : Job} {entry : Tlb}

/-- The memory as the call found it, as far as the boot processor alone writes it. -/
structure Untouched (entry m : Tlb) : Prop where
  generation : m.generation = entry.generation
  index : m.index = entry.index
  leaf : cleared m.leaf = cleared entry.leaf
  log : ∀ x ∈ entry.log, x ∈ m.log

/-- The boot processor has claimed the phase; `prev` was the last generation. -/
structure Claimed (entry : Tlb) (prev : U64) (m : Tlb) : Prop where
  lt : prev.toNat + 1 < 2 ^ 62
  phase : m.phase = phaseValue prev .publishing
  generation : m.generation = prev
  request : m.request = prev
  issued : issued m.log = prev.toNat
  done : prev.toNat ≠ 0 → .complete prev.toNat ∈ m.log
  untouched : Untouched entry m

/-- The leaf has moved for generation `g`, which is not pending yet. -/
structure Moved (prev g : U64) (m : Tlb) : Prop where
  succ : g.toNat = prev.toNat + 1
  lt : g.toNat < 2 ^ 62
  phase : m.phase = phaseValue prev .publishing
  outstanding : Outstanding m.log g.toNat

/-- Round `g` is the last one, and complete. -/
def Settled (g : U64) (m : Tlb) : Prop := g ≠ 0 ∧ issued m.log = g.toNat ∧ .complete g.toNat ∈ m.log

theorem BootRely.issued (h : BootRely m m') : issued m'.log = issued m.log := by
  obtain ⟨xs, hxs, hmem⟩ := h.log
  rw [hxs, issued_append hmem]

theorem BootRely.complete (h : BootRely m m') {n : Nat} :
    .complete n ∈ m'.log ↔ .complete n ∈ m.log := by
  obtain ⟨xs, hxs, hmem⟩ := h.log
  rw [hxs, mem_append_iff hmem id]

theorem BootRely.mem (h : BootRely m m') {x : Mark Nat U64} (hx : x ∈ m.log) : x ∈ m'.log := by
  obtain ⟨xs, hxs, _⟩ := h.log
  rw [hxs]
  exact mem_append_right xs hx

theorem BootRely.refreshed (h : BootRely m m') (hx : Refreshed cpu m.log) : Refreshed cpu m'.log := by
  obtain ⟨xs, hxs, hmem⟩ := h.log
  rw [hxs]
  exact refreshed_append hmem hx

theorem Untouched.rely (h : Untouched entry m) (hr : BootRely m m') : Untouched entry m' :=
  ⟨hr.generation.trans h.generation, hr.index.trans h.index, hr.leaf.trans h.leaf,
    fun x hx => hr.mem (h.log x hx)⟩


theorem stable_untouched : Stable (Inv c) (bootContract c job) (Untouched entry) :=
  fun _ _ _ _ hr h => h.rely hr

theorem stable_claimed : Stable (Inv c) (bootContract c job) (Claimed entry prev) := by
  intro m m' _ _ hr h
  exact ⟨h.lt, hr.phase.trans h.phase, hr.generation.trans h.generation, hr.request.trans h.request,
    hr.issued.trans h.issued, fun h0 => hr.complete.2 (h.done h0), h.untouched.rely hr⟩

theorem stable_moved : Stable (Inv c) (bootContract c job) (Moved prev g) := by
  intro m m' _ _ hr h
  exact ⟨h.succ, h.lt, hr.phase.trans h.phase, hr.issued.trans h.outstanding.1, h.outstanding.2.1,
    fun hc => h.outstanding.2.2 (hr.complete.1 hc)⟩

theorem stable_settled : Stable (Inv c) (bootContract c job) (Settled g) := by
  intro m m' _ _ hr h
  exact ⟨h.1, hr.issued.trans h.2.1, hr.complete.2 h.2.2⟩

theorem stable_own {β : Type} (f : Tlb → β) (hf : ∀ m m', BootRely m m' → f m' = f m) (P : β → Prop) :
    Stable (Inv c) (bootContract c job) fun m => P (f m) := by
  intro m m' _ _ hr h
  show P (f m')
  rw [hf m m' hr]
  exact h

theorem stable_phase {p : U64} : Stable (Inv c) (bootContract c job) fun m => m.phase = p :=
  stable_own (·.phase) (fun _ _ h => h.phase) (· = p)

theorem stable_request (g : U64) : Stable (Inv c) (bootContract c job) fun m => m.request = g :=
  stable_own (·.request) (fun _ _ h => h.request) (· = g)

theorem stable_generation (g : U64) : Stable (Inv c) (bootContract c job) fun m => m.generation = g :=
  stable_own (·.generation) (fun _ _ h => h.generation) (· = g)

theorem stable_index (index : Nat) : Stable (Inv c) (bootContract c job) fun m => m.index = index :=
  stable_own (·.index) (fun _ _ h => h.index) (· = index)

theorem stable_boot_refreshed (cpu : Nat) :
    Stable (Inv c) (bootContract c job) fun m => Refreshed cpu m.log :=
  fun _ _ _ _ hr h => BootRely.refreshed hr h

theorem stable_ack (cpu : Nat) :
    Stable (Inv c) (bootContract c job) fun m => Moved prev g m ∧ m.ack cpu ≠ g := by
  intro m m' hi hi' hr h
  refine ⟨stable_moved m m' hi hi' hr h.1, ?_⟩
  have hprev : prev.toNat < 2 ^ 62 := by
    have := h.1.succ
    have := h.1.lt
    omega
  rw [hr.ack (Open.not_publishing h.1.phase hprev)]
  exact h.2

theorem stable_marks (cpus : List Nat) :
    Stable (Inv c) (bootContract c job) fun m => ∀ cpu ∈ cpus, .ack cpu g.toNat ∈ m.log :=
  fun _ _ _ _ hr h cpu hcpu => BootRely.mem hr (h cpu hcpu)

theorem safe_poison (hi : Inv c m) (hjob : ∀ x, x = .poison g.toNat → job.Marks x) :
    Safe (Inv c) (bootContract c job) (fun _ _ => True) (cpuTlbPoison 0 g) m := by
  refine guard hi fun hg => ?_
  have hlt : g.toNat < 2 ^ 62 := by
    have hle : g ≤ UINT64_MAX >>> 2 := by
      have := (not_or.1 (not_or.1 hg).2).2
      exact BitVec.not_lt.1 this
    have : g.toNat ≤ (UINT64_MAX >>> 2).toNat := hle
    have hmax : (UINT64_MAX >>> 2).toNat = 2 ^ 62 - 1 := by decide
    omega
  refine .atomic stable_true hi trivial fun m _ hi _ => ?_
  by_cases hp : m.phase = phaseValue g .pending
  · rw [if_pos hp]
    exact ⟨inv_poisoned hi hlt hp, ⟨fun cpu => irq_poisoned hlt hp, .one rfl (hjob _ rfl)⟩,
      .ret stable_true (inv_poisoned hi hlt hp) trivial fun _ _ _ => trivial⟩
  · rw [if_neg hp]
    exact ⟨hi, (bootContract c job).guar_refl m, .ret stable_true hi trivial fun _ _ _ => trivial⟩

theorem safe_sendAll (hi : Inv c m) (hjob : ∀ x, x = .poison g.toNat → job.Marks x) (cpus : List Nat) :
    Safe (Inv c) (bootContract c job) (fun _ _ => True) (sendAll g cpus) m := by
  induction cpus generalizing m with
  | nil => exact .ret stable_true hi trivial fun _ _ _ => trivial
  | cons cpu cpus ih =>
    refine .ask stable_true hi trivial fun m sent hi _ => ?_
    refine ite (fun _ => ?_) fun _ => ih hi
    exact .bind ((safe_poison hi hjob).mono fun _ m hi _ =>
      .ret stable_true hi trivial fun _ _ _ => trivial)

theorem safe_dispatch (hi : Inv c m) :
    Safe (Inv c) (bootContract c (.dispatch g)) (fun _ _ => True) (cpuTlbDispatch c 0 g) m := by
  have hjob : ∀ x, x = Mark.poison g.toNat → (Job.dispatch g).Marks x := fun _ h => h
  refine guard hi fun _ => ?_
  refine .load stable_true hi trivial fun m hi _ => ?_
  refine guard hi fun _ => ?_
  refine .load stable_true hi trivial fun m hi _ => ?_
  refine guard hi fun _ => ?_
  refine .ask stable_true hi trivial fun m flags hi _ => ?_
  refine ite (fun _ => ?_) fun _ => safe_sendAll hi hjob _
  exact .bind ((safe_poison hi hjob).mono fun _ m hi _ =>
    .ret stable_true hi trivial fun _ _ _ => trivial)

theorem safe_descriptorValid_keep {P : Tlb → Prop} (hP : Stable (Inv c) (bootContract c job) P)
    (hi : Inv c m) (h : P m) :
    Safe (Inv c) (bootContract c job) (fun _ => P) (descriptorValid c g) m := by
  refine ite (fun _ => .ret hP hi h fun _ _ h => h) fun _ => ?_
  refine .load hP hi h fun m hi h => ?_
  refine ite (fun _ => .ret hP hi h fun _ _ h => h) fun _ => ?_
  refine .load hP hi h fun m hi h => ?_
  refine ite (fun _ => .ret hP hi h fun _ _ h => h) fun _ => ?_
  exact .ask hP hi h fun m count hi h => .ret hP hi h fun _ _ h => h

/-- Each processor of the loop was seen to have acknowledged. -/
theorem safe_allAcked {P : Tlb → Prop} (hP : Stable (Inv c) (bootContract c job) P) (hg : g ≠ 0)
    (hi : Inv c m) (cpus seen : List Nat) (h : P m ∧ ∀ cpu ∈ seen, .ack cpu g.toNat ∈ m.log) :
    Safe (Inv c) (bootContract c job)
      (fun r m => P m ∧ (r = true → ∀ cpu ∈ seen ++ cpus, .ack cpu g.toNat ∈ m.log))
      (allAcked g cpus) m := by
  have hkeep := hP.and (stable_marks (c := c) (g := g) seen)
  induction cpus generalizing m seen with
  | nil =>
    rw [append_nil]
    exact .ret hkeep hi h fun _ _ h => ⟨h.1, fun _ => h.2⟩
  | cons cpu cpus ih =>
    refine .load hkeep hi h fun m hi h => ?_
    refine ite (fun _ => .ret hP hi h.1 fun _ _ h => ⟨h, fun h => nomatch h⟩) fun hack => ?_
    have hack : m.ack cpu = g := Classical.not_not.1 hack
    have hmark : .ack cpu g.toNat ∈ m.log := hack ▸ hi.acked cpu (hack ▸ hg)
    have hseen : ∀ p ∈ seen ++ [cpu], .ack p g.toNat ∈ m.log := by
      intro p hp
      rcases mem_append.1 hp with hp | hp
      · exact h.2 p hp
      · rw [mem_singleton.1 hp]
        exact hmark
    have := ih hi (seen ++ [cpu]) ⟨h.1, hseen⟩ (hP.and (stable_marks _))
    rwa [append_assoc] at this

theorem safe_finish (hi : Inv c m) :
    Safe (Inv c) (bootContract c (.finish g)) (fun r m => r = 0 → Settled g m) (cpuTlbFinish c 0 g) m := by
  have hfail : ∀ {m} {r : Int}, Inv c m → r ≠ 0 →
      Safe (Inv c) (bootContract c (.finish g)) (fun r m => r = 0 → Settled g m) (pure r : Code Int) m :=
    fun hi hr => .ret stable_true hi trivial fun _ _ _ h => absurd h hr
  have hpoison : ∀ x, x = Mark.poison g.toNat → (Job.finish g).Marks x := fun _ h => .inl h
  refine ite (fun _ => hfail hi nofun) fun hg => ?_
  have hg : g ≠ 0 := (not_or.1 hg).2
  refine .load stable_true hi trivial fun m hi _ => ?_
  refine ite (fun _ => hfail hi nofun) fun hreq => ?_
  have hreq : m.request = g := (Classical.not_not.1 hreq).symm
  refine .load (stable_request _) hi hreq fun m hi hreq => ?_
  have hlt : g.toNat < 2 ^ 62 := hreq ▸ hi.request
  generalize hp : m.phase = p
  refine .load stable_phase hi hp fun m hi hp => ?_
  refine ite (fun hidle => ?_) fun _ => ?_
  · obtain ⟨hiss, _, _, hdone⟩ := hi.idle g hlt (hp.trans hidle.1)
    have h0 : g.toNat ≠ 0 := fun h0 => hg (BitVec.eq_of_toNat_eq h0)
    exact .ret stable_settled hi ⟨hg, hiss, hdone h0⟩ fun _ _ h _ => h
  refine ite (fun _ => hfail hi nofun) fun hpend => ?_
  obtain rfl : p = phaseValue g .pending := Classical.not_not.1 hpend
  refine .bind ((safe_descriptorValid_keep stable_phase hi hp).mono fun valid m hi hp => ?_)
  refine ite (fun _ => ?_) fun _ => ?_
  · exact .bind ((safe_poison hi hpoison).mono fun _ m hi _ => hfail hi nofun)
  refine .bind ((safe_allAcked stable_phase hg hi (List.range c.count) []
    ⟨hp, fun _ h => nomatch h⟩).mono fun acked m hi ⟨hp, hacked⟩ => ?_)
  refine ite (fun _ => hfail hi nofun) fun hall => ?_
  have hmarks : ∀ cpu ∈ List.range c.count, .ack cpu g.toNat ∈ m.log := hacked (by simpa using hall)
  refine .atomic (stable_phase.and (stable_marks _)) hi ⟨hp, hmarks⟩ fun m _ hi ⟨hp, hmarks⟩ => ?_
  have hmarks : ∀ cpu < c.count, .ack cpu g.toNat ∈ m.log :=
    fun cpu h => hmarks cpu (mem_range.2 h)
  rw [if_pos hp]
  have hdone := inv_completed hi hlt hp hmarks
  have hset : Settled g { m with phase := phaseValue g .idle, log := [.complete g.toNat] ++ m.log } :=
    ⟨hg, (hi.opened g ⟨hlt, .inl hp⟩).1.1, mem_cons_self⟩
  refine ⟨hdone, ⟨fun cpu => irq_completed hi hlt hp hmarks, .one rfl (.inr rfl)⟩, ?_⟩
  refine ite (fun h => nomatch h) fun _ => ?_
  refine .store stable_settled hdone hset fun m hi hset => ⟨{ hi with },
    ⟨fun cpu => .of_eq rfl rfl rfl id, .of_eq rfl⟩, ?_⟩
  exact .ret stable_settled { hi with } hset fun _ _ h _ => h

/-- What `shz_cpu_tlb_begin` promises: -1 leaves the leaf, the index and the generation; a success
issues the next generation, which no poison precedes. -/
def BeginPost (index : Nat) (entry : Tlb) (r : Option U64) (m : Tlb) : Prop :=
  match r with
  | none => Untouched entry m
  | some g => g.toNat = entry.generation.toNat + 1 ∧ m.generation = g ∧ m.index = index ∧
      ¬ Poisoned entry.log

theorem safe_unchanged (hi : Inv c m) (h : Claimed entry prev m) :
    Safe (Inv c) (bootContract c (.begin index)) (BeginPost index entry) (unchanged prev) m := by
  have hprev : prev.toNat < 2 ^ 62 := by
    have := h.lt
    omega
  refine .store stable_claimed hi h fun m hi h => ?_
  have hinv := inv_unchanged hi hprev h.phase h.generation h.request h.issued h.done
  refine ⟨hinv, ⟨fun cpu => .of_not_open (Open.not_publishing h.phase hprev) (Nat.le_refl _) (.inl rfl),
    .of_eq rfl⟩, ?_⟩
  exact .ret stable_untouched hinv
    ⟨h.untouched.generation, h.untouched.index, h.untouched.leaf, h.untouched.log⟩ fun _ _ h => h

theorem safe_publish (hi : Inv c m) (h : Moved prev g m) (hgen : m.generation = prev)
    (hreq : m.request = prev) (hentry : g.toNat = entry.generation.toNat + 1)
    (hclean : ¬ Poisoned entry.log) :
    Safe (Inv c) (bootContract c (.begin index)) (BeginPost index entry) (do
      storeIndex index
      let issued ← addGeneration
      storeRequest issued
      invlpg 0
      countInvalidation 0
      storeAck 0 issued
      storePhase (phaseValue issued .pending)
      return some issued) m := by
  have hprev : prev.toNat < 2 ^ 62 := by
    have := h.succ
    have := h.lt
    omega
  have hno : ∀ {m}, Moved prev g m → ∀ k, ¬ Open m k := fun h => Open.not_publishing h.phase hprev
  have move : ∀ {m m' : Tlb}, Moved prev g m → m'.phase = m.phase →
      Outstanding m'.log g.toNat → Moved prev g m' :=
    fun h hp ho => ⟨h.succ, h.lt, hp.trans h.phase, ho⟩
  refine .store ((stable_moved.and (stable_generation _)).and (stable_request _)) hi ⟨⟨h, hgen⟩, hreq⟩
    fun m hi ⟨⟨h, hgen⟩, hreq⟩ => ⟨{ hi with }, ⟨fun cpu => .of_eq rfl rfl rfl id, .of_eq rfl⟩, ?_⟩
  refine .atomic (((stable_moved.and (stable_generation _)).and (stable_request _)).and
    (stable_index index)) { hi with } ⟨⟨⟨move h rfl h.outstanding, hgen⟩, hreq⟩, rfl⟩
    fun m _ hi ⟨⟨⟨h, hgen⟩, hreq⟩, hidx⟩ => ?_
  have hsucc : m.generation + 1 = g := by
    apply BitVec.eq_of_toNat_eq
    rw [BitVec.toNat_add, hgen, h.succ]
    have : (1 : U64).toNat = 1 := rfl
    omega
  rw [hsucc]
  have hi' := inv_generation hi hprev h.phase h.lt
  refine ⟨hi', ⟨fun cpu => .of_eq rfl rfl rfl id, .of_eq rfl⟩, ?_⟩
  refine .store (((stable_moved.and (stable_generation g)).and (stable_request prev)).and
    (stable_index index)) hi' ⟨⟨⟨move h rfl h.outstanding, rfl⟩, hreq⟩, hidx⟩
    fun m hi ⟨⟨⟨h, hgen⟩, hreq⟩, hidx⟩ => ?_
  have hle : m.request.toNat ≤ g.toNat := by
    rw [hreq, h.succ]
    exact Nat.le_succ _
  have hi' := inv_request hi hprev h.phase h.lt hle
  refine ⟨hi', ⟨fun cpu => .of_not_open (hno h) hle (.inl rfl), .of_eq rfl⟩, ?_⟩
  have hack : m.ack 0 ≠ g := by
    rintro rfl
    have := hi.ack_le 0
    rw [hreq] at this
    have := h.succ
    omega
  refine .store (((stable_ack 0).and ((stable_generation g).and (stable_request g))).and
    (stable_index index)) hi' ⟨⟨⟨move h rfl h.outstanding, hack⟩, hgen, rfl⟩, hidx⟩
    fun m hi ⟨⟨⟨h, hack⟩, hgen, hreq⟩, hidx⟩ => ?_
  have ho : Outstanding (refreshed 0 m).log g.toNat :=
    (outstanding_cons (m := .refresh 0) trivial).2 h.outstanding
  refine ⟨inv_refreshed hi 0, ⟨fun cpu => irq_refreshed 0 cpu m, .one rfl (.inr (.inl rfl))⟩, ?_⟩
  refine .store ((((stable_ack 0).and ((stable_generation g).and
    (stable_request g))).and (stable_index index)).and
    (stable_boot_refreshed 0)) (inv_refreshed hi 0)
    ⟨⟨⟨⟨move h rfl ho, hack⟩, hgen, hreq⟩, hidx⟩, .inl rfl⟩
    fun m hi ⟨⟨⟨⟨h, hack⟩, hgen, hreq⟩, hidx⟩, hr⟩ =>
      ⟨{ hi with }, ⟨fun cpu => .of_eq rfl rfl rfl id, .of_eq rfl⟩, ?_⟩
  refine .store ((((stable_ack 0).and ((stable_generation g).and
    (stable_request g))).and (stable_index index)).and
    (stable_boot_refreshed 0)) { hi with }
    ⟨⟨⟨⟨move h rfl h.outstanding, hack⟩, hgen, hreq⟩, hidx⟩, hr⟩
    fun m hi ⟨⟨⟨⟨h, hack⟩, hgen, hreq⟩, hidx⟩, hr⟩ => ?_
  have hi' := inv_acknowledged hi h.outstanding hreq hack hr
  have hlt : (m.ack 0).toNat < g.toNat := by
    refine Nat.lt_of_le_of_ne (hreq ▸ hi.ack_le 0) fun he => hack (BitVec.eq_of_toNat_eq he)
  have ho : Outstanding (acknowledged 0 g m).log g.toNat :=
    (outstanding_cons (m := .ack 0 g.toNat) trivial).2 h.outstanding
  refine ⟨hi', ⟨fun cpu => .of_not_open (hno h) (Nat.le_refl _) ?_, .one rfl (.inr (.inr ⟨_, rfl⟩))⟩, ?_⟩
  · by_cases hc : cpu = 0
    · subst hc
      exact .inr (Nat.lt_of_lt_of_eq hlt (congrArg _ hreq.symm))
    · exact .inl (acknowledged_ack_of_ne hc)
  refine .store ((stable_moved.and ((stable_generation g).and (stable_request g))).and
    (stable_index index)) hi' ⟨⟨move h rfl ho, hgen, hreq⟩, hidx⟩
    fun m hi ⟨⟨h, hgen, hreq⟩, hidx⟩ => ?_
  have hi' := inv_pending hi hprev h.phase h.lt h.outstanding hreq hgen
  refine ⟨hi', ⟨fun cpu => .of_not_open (hno h) (Nat.le_refl _) (.inl rfl), .of_eq rfl⟩, ?_⟩
  exact .ret ((stable_generation g).and (stable_index index)) hi' ⟨hgen, hidx⟩
    fun _ _ h => ⟨hentry, h.1, h.2, hclean⟩

theorem safe_begin (hi : Inv c m) (h : Untouched entry m) :
    Safe (Inv c) (bootContract c (.begin index)) (BeginPost index entry) (cpuTlbBegin c 0 index) m := by
  have hfail : ∀ {m}, Inv c m → Untouched entry m →
      Safe (Inv c) (bootContract c (.begin index)) (BeginPost index entry)
        (pure none : Code (Option U64)) m :=
    fun hi h => .ret stable_untouched hi h fun _ _ h => h
  refine .ask stable_untouched hi h fun m e hi h => ?_
  refine .load stable_untouched hi h fun m hi h => ?_
  generalize hprev : m.generation = prev
  refine .load (stable_untouched.and (stable_generation _)) hi ⟨h, hprev⟩ fun m hi ⟨h, hprev⟩ => ?_
  refine ite (fun _ => hfail hi h) fun hguard => ?_
  have hlt : prev.toNat + 1 < 2 ^ 62 := by
    have hnot : ¬ UINT64_MAX >>> 2 ≤ prev := by tauto
    have hlt : prev.toNat < (UINT64_MAX >>> 2).toNat := BitVec.not_le.1 hnot
    have hmax : (UINT64_MAX >>> 2).toNat = 2 ^ 62 - 1 := by decide
    omega
  refine .load (stable_untouched.and (stable_generation _)) hi ⟨h, hprev⟩ fun m hi ⟨h, hprev⟩ => ?_
  refine ite (fun _ => hfail hi h) fun _ => ?_
  refine .atomic (stable_untouched.and (stable_generation _)) hi ⟨h, hprev⟩ fun m _ hi ⟨h, hprev⟩ => ?_
  by_cases hp : m.phase = phaseValue prev .idle
  case neg =>
    rw [if_neg hp]
    exact ⟨hi, (bootContract c _).guar_refl m, hfail hi h⟩
  case pos =>
    have hprev' : prev.toNat < 2 ^ 62 := by omega
    obtain ⟨hiss, hreq, _, hdone⟩ := hi.idle prev hprev' hp
    have hclaim := inv_claimed hi hprev' hp
    rw [if_pos hp]
    refine ⟨hclaim, ⟨fun cpu => .of_not_open (Open.not_idle hp hprev') (Nat.le_refl _) (.inl rfl),
      .of_eq rfl⟩, ?_⟩
    have hc : Claimed entry prev { m with phase := phaseValue prev .publishing, log := [] ++ m.log } :=
      ⟨hlt, rfl, hprev, hreq, hiss, hdone, h.generation, h.index, h.leaf, h.log⟩
    have hclean : ¬ Poisoned entry.log :=
      fun ⟨k, hk⟩ => hi.not_poisoned hprev' hp nofun ⟨k, h.log _ hk⟩
    refine ite (fun h => nomatch h) fun _ => ?_
    refine .ask stable_claimed hclaim hc fun m e hi hc => ?_
    refine ite (fun _ => safe_unchanged hi hc) fun _ => ?_
    refine .load stable_claimed hi hc fun m hi hc => ?_
    generalize m.leaf = actual
    refine ite (fun _ => safe_unchanged hi hc) fun _ => ?_
    refine .atomic stable_claimed hi hc fun m _ hi hc => ?_
    by_cases hl : m.leaf = actual
    case neg =>
      rw [if_neg hl]
      exact ⟨hi, (bootContract c _).guar_refl m, safe_unchanged hi hc⟩
    case pos =>
      rw [if_pos hl]
      have hpub := inv_published hi hprev' hc.phase hc.issued hc.done
        (l := c.ap.frame index ||| PT_P ||| PT_W ||| PT_NX)
      refine ⟨hpub, ⟨fun cpu => .of_not_open (Open.not_publishing hc.phase hprev') (Nat.le_refl _)
        (.inl rfl), .one rfl (.inl ⟨_, _, rfl⟩)⟩, ?_⟩
      refine ite (fun h => nomatch h) fun _ => ?_
      have hsucc : (prev + 1).toNat = prev.toNat + 1 := by
        rw [BitVec.toNat_add]
        have : (1 : U64).toNat = 1 := rfl
        omega
      refine safe_publish hpub ⟨hsucc, hsucc ▸ hlt, hc.phase, ?_⟩ hc.generation hc.request ?_ hclean
      · rw [hsucc]
        refine ⟨rfl, Nat.succ_ne_zero _, fun hmem => ?_⟩
        have hle := round_le_issued hi.lawful ((mem_cons.1 hmem).resolve_left nofun) rfl
        rw [hc.issued] at hle
        exact Nat.not_succ_le_self _ hle
      · rw [hsucc, ← hc.untouched.generation, hc.generation]

end Boot

end Win98Modern.CpuTlb
