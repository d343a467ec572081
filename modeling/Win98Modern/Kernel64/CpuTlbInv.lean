import Win98Modern.Kernel64.CpuTlb
import Mathlib.Algebra.Group.Nat.Defs

/-!
# What the phase says

The phase word and the log of the generations agree (`Inv`): while a generation is pending or
poisoned it is the one outstanding, and between generations the last one is complete.  A processor
whose acknowledgement is missing keeps the pending generation open (`Wait`); this is what its
service routine relies on.
-/

namespace Win98Modern.CpuTlb

open Rounds

variable {c : Config} {m m' : Tlb} {g h prev : U64} {st st' : Phase} {cpu : Nat}

/-! ### The phase word -/

def Phase.num : Phase → Nat
  | .idle => 0
  | .publishing => 1
  | .pending => 2
  | .poisoned => 3

theorem Phase.num_lt (st : Phase) : st.num < 4 := by cases st <;> decide

theorem toNat_phaseValue (hg : g.toNat < 2 ^ 62) (st : Phase) :
    (phaseValue g st).toNat = 4 * g.toNat + st.num := by
  have hcode : st.code.toNat = st.num := by cases st <;> rfl
  have hshift : g.toNat <<< 2 % 2 ^ 64 = g.toNat <<< 2 := by
    omega
  rw [phaseValue, BitVec.toNat_or, BitVec.toNat_shiftLeft, hcode, hshift,
    ← Nat.shiftLeft_add_eq_or_of_lt st.num_lt, Nat.shiftLeft_eq]
  omega

/-- **The generation and the state are read back from the phase word.** -/
theorem phaseValue_inj (hg : g.toNat < 2 ^ 62) (hh : h.toNat < 2 ^ 62)
    (he : phaseValue g st = phaseValue h st') : g = h ∧ st = st' := by
  have hn := congrArg BitVec.toNat he
  rw [toNat_phaseValue hg, toNat_phaseValue hh] at hn
  have := st.num_lt
  have := st'.num_lt
  refine ⟨BitVec.eq_of_toNat_eq (by omega), ?_⟩
  have hst : st.num = st'.num := by omega
  revert hst
  cases st <;> cases st' <;> decide

theorem phaseValue_shift (hg : g.toNat < 2 ^ 62) : phaseValue g st >>> 2 = g := by
  apply BitVec.eq_of_toNat_eq
  have := st.num_lt
  rw [BitVec.toNat_ushiftRight, toNat_phaseValue hg, Nat.shiftRight_eq_div_pow]
  omega

theorem phaseValue_and (hg : g.toNat < 2 ^ 62) : phaseValue g st &&& 3 = st.code := by
  apply BitVec.eq_of_toNat_eq
  have hcode : st.code.toNat = st.num := by cases st <;> rfl
  have := st.num_lt
  rw [BitVec.toNat_and, toNat_phaseValue hg, hcode]
  show (4 * g.toNat + st.num) &&& (2 ^ 2 - 1) = _
  rw [Nat.and_two_pow_sub_one_eq_mod]
  omega

theorem Phase.code_inj (h : st.code = st'.code) : st = st' := by
  revert h
  cases st <;> cases st' <;> decide

/-! ### The leaf -/

/-- The leaf without the bits that the processor sets. -/
def cleared (leaf : U64) : U64 := leaf &&& ~~~accessedDirty

theorem or_and_of_disjoint {x b mask : U64} (h : b &&& mask = 0#64) : (x ||| b) &&& mask = x &&& mask := by
  rw [BitVec.and_or_distrib_right, h, BitVec.or_zero]

theorem frameOf_or (leaf : U64) (w : Bool) :
    frameOf (leaf ||| if w then 0x60 else 0x20) = frameOf leaf :=
  or_and_of_disjoint (by cases w <;> decide)

theorem cleared_or (leaf : U64) (w : Bool) :
    cleared (leaf ||| if w then 0x60 else 0x20) = cleared leaf :=
  or_and_of_disjoint (by cases w <;> decide)

/-! ### The invariant -/

/-- Generation `g` is pending, or was poisoned. -/
def Open (m : Tlb) (g : U64) : Prop :=
  g.toNat < 2 ^ 62 ∧ (m.phase = phaseValue g .pending ∨ m.phase = phaseValue g .poisoned)

structure Inv (c : Config) (m : Tlb) : Prop where
  generation : m.generation.toNat < 2 ^ 62
  request : m.request.toNat < 2 ^ 62
  phase : ∃ h st, h.toNat < 2 ^ 62 ∧ m.phase = phaseValue h st
  opened : ∀ g, Open m g → Outstanding m.log g.toNat ∧ m.request = g ∧ m.generation = g
  idle : ∀ g : U64, g.toNat < 2 ^ 62 → m.phase = phaseValue g .idle →
    issued m.log = g.toNat ∧ m.request = g ∧ m.generation = g ∧
      (g.toNat ≠ 0 → .complete g.toNat ∈ m.log)
  poisoned : Poisoned m.log ↔ ∃ g : U64, g.toNat < 2 ^ 62 ∧ m.phase = phaseValue g .poisoned
  lawful : Lawful (· < c.count) m.log
  acked : ∀ cpu, m.ack cpu ≠ 0 → .ack cpu (m.ack cpu).toNat ∈ m.log
  current : ∀ cpu g, .ack cpu (BitVec.toNat g) ∈ m.log → issued m.log = g.toNat → m.ack cpu = g
  ack_le : ∀ cpu, (m.ack cpu).toNat ≤ m.request.toNat
  cached : ∀ cpu, Refreshed cpu m.log → ∀ f ∈ m.cached cpu, f = frameOf m.leaf
  leaf : ∀ g f, latest m.log = some (g, f) → frameOf m.leaf = f

/-- `cpu` has not acknowledged the open generation `g`. -/
structure Wait (c : Config) (cpu : Nat) (g : U64) (m : Tlb) : Prop where
  member : cpu < c.count
  opened : Open m g
  ack : m.ack cpu ≠ g

/-- What the boot processor's thread relies on. -/
structure BootRely (m m' : Tlb) : Prop where
  generation : m'.generation = m.generation
  request : m'.request = m.request
  completed : m'.completed = m.completed
  phase : m'.phase = m.phase
  index : m'.index = m.index
  leaf : cleared m'.leaf = cleared m.leaf
  log : ∃ xs, m'.log = xs ++ m.log ∧ ∀ x ∈ xs, x.OfMember
  ack : (∀ g, ¬ Open m g) → m'.ack = m.ack

/-- What the service routine of `cpu` relies on. -/
structure IrqRely (c : Config) (cpu : Nat) (m m' : Tlb) : Prop where
  wait : ∀ g, Wait c cpu g m → Wait c cpu g m'
  refreshed : ∀ g, Wait c cpu g m → Refreshed cpu m.log → Refreshed cpu m'.log
  request : m.request.toNat ≤ m'.request.toNat
  acked : m'.ack cpu = m.ack cpu ∨ (m.ack cpu).toNat < m'.request.toNat

theorem Open.congr (hg : Open m g) (hp : m'.phase = m.phase) : Open m' g := by
  rw [Open, hp]
  exact hg

theorem Open.not_publishing (hp : m.phase = phaseValue prev .publishing) (hprev : prev.toNat < 2 ^ 62) :
    ∀ g, ¬ Open m g := by
  rintro g ⟨hg, hph | hph⟩
  · exact nomatch (phaseValue_inj hprev hg (hp.symm.trans hph)).2
  · exact nomatch (phaseValue_inj hprev hg (hp.symm.trans hph)).2

theorem Open.not_idle (hp : m.phase = phaseValue prev .idle) (hprev : prev.toNat < 2 ^ 62) :
    ∀ g, ¬ Open m g := by
  rintro g ⟨hg, hph | hph⟩
  · exact nomatch (phaseValue_inj hprev hg (hp.symm.trans hph)).2
  · exact nomatch (phaseValue_inj hprev hg (hp.symm.trans hph)).2

theorem Open.unique (hg : Open m g) (hh : h.toNat < 2 ^ 62) (hp : m.phase = phaseValue h st) : g = h := by
  rcases hg with ⟨hg, hph | hph⟩
  · exact (phaseValue_inj hg hh (hph.symm.trans hp)).1
  · exact (phaseValue_inj hg hh (hph.symm.trans hp)).1

theorem BootRely.refl (m : Tlb) : BootRely m m :=
  ⟨rfl, rfl, rfl, rfl, rfl, rfl, ⟨[], rfl, fun _ h => nomatch h⟩, fun _ => rfl⟩

theorem BootRely.trans {m₁ m₂ m₃ : Tlb} (h : BootRely m₁ m₂) (h' : BootRely m₂ m₃) : BootRely m₁ m₃ := by
  obtain ⟨xs, hxs, hmem⟩ := h.log
  obtain ⟨ys, hys, hmem'⟩ := h'.log
  refine ⟨h'.generation.trans h.generation, h'.request.trans h.request, h'.completed.trans h.completed,
    h'.phase.trans h.phase, h'.index.trans h.index, h'.leaf.trans h.leaf, ⟨ys ++ xs, ?_, ?_⟩, ?_⟩
  · rw [hys, hxs, List.append_assoc]
  · intro x hx
    exact (List.mem_append.1 hx).elim (hmem' x) (hmem x)
  · intro hno
    rw [h'.ack fun g hg => hno g (hg.congr h.phase.symm), h.ack hno]

theorem IrqRely.refl (c : Config) (cpu : Nat) (m : Tlb) : IrqRely c cpu m m :=
  ⟨fun _ h => h, fun _ _ h => h, Nat.le_refl _, .inl rfl⟩

theorem IrqRely.trans {m₁ m₂ m₃ : Tlb} (h : IrqRely c cpu m₁ m₂) (h' : IrqRely c cpu m₂ m₃) :
    IrqRely c cpu m₁ m₃ := by
  refine ⟨fun g hw => h'.wait g (h.wait g hw),
    fun g hw hr => h'.refreshed g (h.wait g hw) (h.refreshed g hw hr), Nat.le_trans h.request h'.request, ?_⟩
  rcases h.acked with heq | hlt
  · rw [← heq]
    exact h'.acked
  · exact .inr (Nat.lt_of_lt_of_le hlt h'.request)

theorem IrqRely.of_eq (hphase : m'.phase = m.phase) (hreq : m'.request = m.request)
    (hack : m'.ack cpu = m.ack cpu) (hlog : Refreshed cpu m.log → Refreshed cpu m'.log) :
    IrqRely c cpu m m' :=
  ⟨fun _ hw => ⟨hw.member, hw.opened.congr hphase, hack ▸ hw.ack⟩, fun _ _ => hlog,
    Nat.le_of_eq (congrArg _ hreq.symm), .inl hack⟩

theorem IrqRely.of_not_open (hno : ∀ g, ¬ Open m g) (hreq : m.request.toNat ≤ m'.request.toNat)
    (hack : m'.ack cpu = m.ack cpu ∨ (m.ack cpu).toNat < m'.request.toNat) : IrqRely c cpu m m' :=
  ⟨fun g hw => absurd hw.opened (hno g), fun g hw => absurd hw.opened (hno g), hreq, hack⟩

end Win98Modern.CpuTlb
