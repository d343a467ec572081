import Win98Modern.Kernel64.CpuTlbCalls

/-!
# TLB shootdown

In every interleaving of the boot processor's calls with the service routines of the processors, and
with page walks that reload the translation at any moment, at most one generation is outstanding, and
when `shz_cpu_tlb_finish` returns 0 no processor holds a translation to an older frame.

An IPI carries no generation: a routine acknowledges the one that it finds pending, whichever IPI
woke it.
-/

namespace Win98Modern.CpuTlb

open Rounds

variable {c : Config} {s : State} {m m' : Tlb}

def contract (c : Config) : Runner → Job → Contract Tlb
  | .boot, job => bootContract c job
  | .irq cpu, _ => irqContract c cpu

def post : Runner → Job → Tlb → Ret → Tlb → Prop
  | .boot, .begin index, entry, .begun r, m => BeginPost index entry r m
  | .boot, .finish g, _, .status r, m => r = 0 → Settled g m
  | _, _, _, _, _ => True

/-- `shz_cpu_tlb_*` has returned `r` to the boot processor. -/
def Returned (s : State) (job : Job) (entry : Tlb) (r : Ret) : Prop :=
  s.thread .boot = some ⟨job, entry, .ret r⟩

structure Shootdown (c : Config) (s : State) : Prop where
  /-- At most one generation is outstanding. -/
  outstanding : ∀ g h v w, .publish g v ∈ s.mem.log → .complete g ∉ s.mem.log →
    .publish h w ∈ s.mem.log → .complete h ∉ s.mem.log → g = h
  /-- Each mark was made when it may be: an acknowledgement only of the outstanding generation, after
  an invalidation since its leaf update, and only once. -/
  lawful : Lawful (· < c.count) s.mem.log
  /-- While the phase word says pending or poisoned, its generation is the one outstanding. -/
  opened : ∀ g, Open s.mem g → Outstanding s.mem.log g.toNat
  /-- The acknowledgement words speak of what the log has. -/
  acked : ∀ cpu, s.mem.ack cpu ≠ 0 → .ack cpu (s.mem.ack cpu).toNat ∈ s.mem.log
  /-- When finish returns 0, every processor has invalidated since the leaf moved, and holds the new
  frame or none. -/
  finished : ∀ g entry, Returned s (.finish g) entry (.status 0) →
    ∃ f, latest s.mem.log = some (g.toNat, f) ∧ ∀ cpu < c.count,
      Refreshed cpu s.mem.log ∧ ∀ f' ∈ s.mem.cached cpu, f' = f
  /-- A begin that returns -1 leaves the leaf, the index and the generation. -/
  unchanged : ∀ index entry, Returned s (.begin index) entry (.begun none) →
    cleared s.mem.leaf = cleared entry.leaf ∧ s.mem.index = entry.index ∧
      s.mem.generation = entry.generation
  /-- A begin that finds the domain poisoned does not succeed. -/
  refused : ∀ index entry g, Returned s (.begin index) entry (.begun (some g)) →
    ¬ Poisoned entry.log
  poisoned : Poisoned s.mem.log ↔ s.mem.phase &&& 3 = Phase.poisoned.code
  /-- The generation does not reach the phase bits. -/
  encoded : s.mem.generation.toNat < 2 ^ 62 ∧
    ∃ (g : U64) (st : Phase), g.toNat < 2 ^ 62 ∧ s.mem.phase.toNat = 4 * g.toNat + st.num

/-- What each step keeps to: the log only grows; a call of the boot processor poisons and completes
only the generation that it is given, the routine of a processor invalidates and acknowledges only
for itself, and nothing else speaks of a generation. -/
def Obeys (c : Config) (s : State) (a : Event) : Prop :=
  let s' := step c s a
  match a with
  | .run i _ => s'.mem.log = s.mem.log ∨ ∃ t, s.thread i = some t ∧
      match i with
      | .boot => Grows t.job.Marks s.mem s'.mem
      | .irq cpu => Grows (OwnMark cpu) s.mem s'.mem
  | .start _ _ | .env _ => s'.mem.log = s.mem.log

theorem safe_body (i : Runner) (job : Job) (hi : Inv c m) :
    Safe (Inv c) (contract c i job) (post i job m) (body c i job) m := by
  cases i with
  | boot =>
    cases job with
    | begin index =>
      refine .bind ((safe_begin hi ⟨rfl, rfl, rfl, fun _ h => h⟩).mono fun r m' hi h => ?_)
      cases r with
      | none => exact .ret stable_untouched hi h fun _ _ h => h
      | some g =>
        exact .ret ((stable_generation g).and (stable_index index)) hi ⟨h.2.1, h.2.2.1⟩
          fun _ _ h' => ⟨h.1, h'.1, h'.2, h.2.2.2⟩
    | dispatch g =>
      exact .bind ((safe_dispatch hi).mono fun _ _ hi _ => .ret stable_true hi trivial fun _ _ _ => trivial)
    | poison g =>
      have hjob : ∀ x, x = Mark.poison g.toNat → (Job.poison g).Marks x := fun _ h => h
      exact .bind ((safe_poison hi hjob).mono fun _ _ hi _ =>
        .ret stable_true hi trivial fun _ _ _ => trivial)
    | finish g =>
      refine .bind ((safe_finish hi).mono fun r m' hi h => ?_)
      by_cases hr : r = 0
      · exact .ret stable_settled hi (h hr) fun _ _ h _ => h
      · exact .ret stable_true hi trivial fun _ _ _ h => absurd h hr
    | ipi | enroll => exact .ret stable_true hi trivial fun _ _ _ => trivial
  | irq cpu =>
    cases job with
    | ipi =>
      exact .bind ((safe_ipi hi).mono fun _ _ hi _ => .ret stable_true hi trivial fun _ _ _ => trivial)
    | enroll =>
      exact .bind ((safe_enroll hi).mono fun _ _ hi _ => .ret stable_true hi trivial fun _ _ _ => trivial)
    | begin | dispatch | poison | finish => exact .ret stable_true hi trivial fun _ _ _ => trivial

/-- **The threads of the domain keep out of each other's way.** -/
theorem verified (c : Config) : Pool.Verified (body c) walk (Inv c) (contract c) post where
  body i job m hi := safe_body i job hi
  compat i j hij k l m m' _ _ hg := by
    cases i with
    | boot =>
      cases j with
      | boot => exact absurd rfl hij
      | irq cpu => exact hg.1 cpu
    | irq cpu =>
      cases j with
      | boot => exact hg.1
      | irq p => exact hg.2.1 p fun h => hij (congrArg _ h.symm)
  env w m hi := by
    refine ⟨inv_walk hi w, fun j l => ?_⟩
    cases j with
    | boot => exact boot_walk w m
    | irq cpu => exact irq_walk w m

theorem Start.inv (start : Start s) : Inv c s.mem := by
  have h0 : (0 : U64).toNat = 0 := rfl
  have hp : s.mem.phase = phaseValue 0 .idle := start.phase
  have hlt : (0 : U64).toNat < 2 ^ 62 := by decide
  refine ⟨by rw [start.generation]; exact hlt, by rw [start.request]; exact hlt, ⟨0, .idle, hlt, hp⟩,
    fun g hg => absurd hg (Open.not_idle hp hlt g), fun g hg he => ?_, ?_, ?_, fun cpu h => absurd (start.ack cpu) h,
    ?_, fun cpu => ?_, ?_, ?_⟩
  · obtain rfl := (phaseValue_inj hlt hg (hp.symm.trans he)).1
    rw [start.log, start.request, start.generation]
    exact ⟨rfl, rfl, rfl, fun h => absurd h0 h⟩
  · rw [start.log]
    exact iff_of_false (fun ⟨_, h⟩ => nomatch h) fun ⟨_, hg, he⟩ => nomatch (phaseValue_inj hlt hg (hp.symm.trans he)).2
  · rw [start.log]
    trivial
  · rw [start.log]
    exact fun _ _ h => nomatch h
  · rw [start.ack, h0]
    exact Nat.zero_le _
  · rw [start.log]
    exact fun _ h => h.elim
  · rw [start.log]
    exact fun _ _ h => nomatch h

theorem poisoned_iff (hi : Inv c m) : Poisoned m.log ↔ m.phase &&& 3 = Phase.poisoned.code := by
  obtain ⟨g, st, hg, hp⟩ := hi.phase
  rw [hi.poisoned, hp, phaseValue_and hg]
  constructor
  · rintro ⟨h, hh, he⟩
    rw [(phaseValue_inj hg hh he).2]
  · intro h
    obtain rfl := Phase.code_inj h
    exact ⟨g, hg, rfl⟩

theorem Settled.refreshed (hi : Inv c m) {g : U64} (h : Settled g m) :
    ∃ f, latest m.log = some (g.toNat, f) ∧ ∀ cpu < c.count,
      Refreshed cpu m.log ∧ ∀ f' ∈ m.cached cpu, f' = f := by
  obtain ⟨h0, hiss, hdone⟩ := h
  cases hl : latest m.log with
  | none =>
    rw [issued, hl] at hiss
    exact absurd (BitVec.eq_of_toNat_eq hiss.symm) h0
  | some r =>
    obtain ⟨n, f⟩ := r
    rw [issued, hl] at hiss
    obtain rfl : n = g.toNat := hiss
    refine ⟨f, rfl, fun cpu hcpu => ?_⟩
    have hr : Refreshed cpu m.log := refreshed_of_complete hi.lawful hdone (by rw [issued, hl]; rfl) hcpu
    exact ⟨hr, fun f' hf' => (hi.cached cpu hr f' hf').trans (hi.leaf _ f hl)⟩

theorem shootdown_of_sound (h : Pool.Sound (Inv c) (contract c) post s) : Shootdown c s where
  outstanding _ _ _ _ hg hcg hh hch := outstanding_unique h.inv.lawful hg hcg hh hch
  lawful := h.inv.lawful
  opened g hg := (h.inv.opened g hg).1
  acked := h.inv.acked
  finished g entry hr := Settled.refreshed h.inv (h.returned hr rfl rfl)
  unchanged index entry hr := by
    have hu : Untouched entry s.mem := h.returned hr rfl
    exact ⟨hu.leaf, hu.index, hu.generation⟩
  refused index entry g hr := (h.returned hr rfl : BeginPost index entry (some g) s.mem).2.2.2
  poisoned := poisoned_iff h.inv
  encoded := by
    obtain ⟨g, st, hg, hp⟩ := h.inv.phase
    exact ⟨h.inv.generation, g, st, hg, by rw [hp, toNat_phaseValue hg]⟩

theorem obeys_of_guaranteed {a : Event} (h : Pool.Guaranteed (body c) walk (contract c) s a) :
    Obeys c s a := by
  cases a with
  | run i e =>
    cases ht : s.thread i with
    | none =>
      refine .inl ?_
      simp only [step, Pool.step, ht]
    | some t =>
      refine .inr ⟨t, ht, ?_⟩
      cases i with
      | boot => exact (h t ht).2
      | irq cpu => exact (h t ht).2.2
  | start i k =>
    show (Pool.step _ _ s (.start i k)).mem.log = _
    simp only [Pool.step]
    split <;> rfl
  | env w =>
    show (walk w s.mem).log = _
    unfold walk
    split <;> rfl

/-- **TLB shootdown safety.** -/
theorem tlb_shootdown (start : Start s) (as : List Event) :
    Along (step c) (Shootdown c) (Obeys c) s as :=
  (Pool.pool_sound (verified c) (Pool.sound_start start.inv start.thread) as).mono as
    (fun _ h => shootdown_of_sound h) fun _ _ h => obeys_of_guaranteed h

/-! ### A run -/

section Sample

def sampleConfig : Config where
  ap :=
    { root := 0x1000, va := SHZ_TLB_APERTURE_VA, frame := fun i => if i = 0 then 0x5000 else 0x6000,
      prepared := true }
  count := 2
  target := 3
  diagnostic := 0

def sampleMem : Tlb where
  generation := 0
  request := 0
  completed := 0
  phase := 0
  ack _ := 0
  invalidations _ := 0
  ready := 3
  index := 0
  leaf := 0x8000000000005003
  cached _ := [0x5000]
  log := []

def sample : State := ⟨sampleMem, fun _ => none⟩

theorem sample_start : Start sample := ⟨fun _ => rfl, rfl, rfl, rfl, rfl, fun _ => rfl, rfl⟩

def sampleAnswer : Answer where
  flags := 0x200
  cr3 := 0x1000
  cr4 := 0
  topology := 2
  apertureValid := true
  state := SHZ_SMP_CPU_ONLINE
  sendIpi := 0

/-- Generation 1: begin, the service routine of processor 1, and finish, which returns 0. -/
def sampleRun : List Event :=
  .start .boot (.begin 1) :: List.replicate 15 (.run .boot sampleAnswer) ++
    .env ⟨0, false⟩ :: .start (.irq 1) .ipi :: List.replicate 9 (.run (.irq 1) sampleAnswer) ++
      .start .boot (.finish 1) :: List.replicate 10 (.run .boot sampleAnswer)

theorem tlb_shootdown_sample :
    (match (sampleRun.foldl (step sampleConfig) sample).thread .boot with
      | some ⟨.finish 1, _, .ret (.status 0)⟩ => true
      | _ => false) = true ∧
    Along (step sampleConfig) (Shootdown sampleConfig) (Obeys sampleConfig) sample sampleRun :=
  ⟨by decide +kernel, tlb_shootdown sample_start sampleRun⟩

end Sample

end Win98Modern.CpuTlb
