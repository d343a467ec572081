import Win98Modern.Supervisor.Doorbell
import Win98Modern.Lib.Runs

/-!
# Doorbells over runs

The pending bits are the notified ones, and a doorbell that counts as signaled was injected after
the last notification (`Inv`), in every run.  That a domain which waits with unacknowledged bits is
woken by its doorbell (`Awake`) is kept exactly by the steps that satisfy `Meets`.
-/

namespace Win98Modern.Doorbell

open Function List

open Supervisor

structure Inv (s : System) : Prop where
  pending : ∀ d, (s.dom d).doorbellPending = since d s.log
  acks : AcksExact s.log
  signaled : ∀ d, (s.dom d).doorbellSignaled = true → Rung d s.log
  dos : ∀ d, (s.dom d).kind = .dos16 → (s.dom d).doorbellVector = 0

/-- A domain that waits with unacknowledged bits is woken by its doorbell. -/
def Awake (s : System) : Prop :=
  ∀ d, (s.dom d).state = .waiting → (s.dom d).doorbellPending ≠ 0 → doorbellDue (s.dom d) = true

structure Boot (s : System) : Prop where
  log : s.log = []
  dom : ∀ d, (s.dom d).doorbellPending = 0 ∧ (s.dom d).doorbellSignaled = false ∧
    (s.dom d).doorbellVector = 0

/-- The exit of `d` parks no domain without a doorbell that wakes it: `d` halts with bits pending
only if its doorbell is due, and a domain that waits is notified only if it has a vector. -/
def ParksSafely (s : System) (d : Fin SHZ_MAX_DOMAINS) : Exit → Prop
  | .hlt true => (s.dom d).doorbellPending = 0 ∨ doorbellDue (s.dom d) = true
  | .vmcall (.notify target bits) => (s.dom d).kind ≠ .dos16 →
      ∀ t : Fin SHZ_MAX_DOMAINS, 2 ≤ target.toNat → t.val = target.toNat →
        (s.dom t).state = .waiting → bits.setWidth 32 ≠ (0 : BitVec 32) → (s.dom t).doorbellVector ≠ 0
  | _ => True

def Meets (s : System) : Event → Prop
  | .pass p => ∀ d ∈ pick s p, p.loadFails = false → ParksSafely (deliver (picked s d) d p) d p.exit
  | .fail _ => True

/-- A doorbell is injected with the vector of its domain.  A domain that is entered interruptible, with
a vector and unacknowledged bits, has had its doorbell injected since the last notification, or gets a
timer or device interrupt now. -/
def Delivers (s : System) : Event → Prop
  | .pass p => ∀ d ∈ pick s p, p.loadFails = false →
      let t := deliver (picked s d) d p
      (∀ v, t.log = .injected d (.doorbell v) :: s.log → v = (s.dom d).doorbellVector) ∧
      (p.interruptible = true → (t.dom d).doorbellVector ≠ 0 → (t.dom d).doorbellPending ≠ 0 →
        Rung d t.log ∨ ∃ v, t.log.head? = some (.injected d (.timer v)) ∨
          t.log.head? = some (.injected d (.device v)))
  | .fail _ => True

/-- How many domains the scan comes to before `d`. -/
def behind (last d : Fin SHZ_MAX_DOMAINS) : Nat := (d - last - 1).val

/-- The scan picks a domain that waits with unacknowledged bits, or one it comes to before. -/
def NeverSkipped (s : System) : Event → Prop
  | .pass p => ∀ d, (s.dom d).state = .waiting → (s.dom d).doorbellPending ≠ 0 →
      ∃ q ∈ pick s p, behind s.last q ≤ behind s.last d
  | .fail _ => True

/-! ### The bookkeeping -/

section Inv

variable {s : System} {d d' : Fin SHZ_MAX_DOMAINS} {n : Domain}

@[simp] theorem setDom_same : (s.setDom d n).dom d = n := update_self ..

theorem setDom_other (h : d' ≠ d) : (s.setDom d n).dom d' = s.dom d' := update_of_ne h ..

theorem forall_setDom {P : Fin SHZ_MAX_DOMAINS → Domain → Prop} (hd : P d n)
    (h : ∀ i, i ≠ d → P i (s.dom i)) : ∀ i, P i ((s.setDom d n).dom i) := by
  intro i
  by_cases hi : i = d
  · subst hi
    rw [setDom_same]
    exact hd
  · rw [setDom_other hi]
    exact h i hi

theorem Inv.setDom (h : Inv s) (hp : n.doorbellPending = (s.dom d).doorbellPending)
    (hs : n.doorbellSignaled = true → (s.dom d).doorbellSignaled = true)
    (hk : n.kind = .dos16 → n.doorbellVector = 0) : Inv (s.setDom d n) where
  pending := forall_setDom (P := fun i m => m.doorbellPending = since i s.log)
    (hp.trans (h.pending d)) fun i _ => h.pending i
  acks := h.acks
  signaled := forall_setDom (P := fun i m => m.doorbellSignaled = true → Rung i s.log)
    (fun hn => h.signaled d (hs hn)) fun i _ => h.signaled i
  dos := forall_setDom (P := fun _ m => m.kind = .dos16 → m.doorbellVector = 0) hk fun i _ => h.dos i

theorem Inv.setState (h : Inv s) (d : Fin SHZ_MAX_DOMAINS) (state : DomState) : Inv (s.setState d state) :=
  h.setDom rfl id (h.dos d)

theorem Inv.picked (h : Inv s) (d : Fin SHZ_MAX_DOMAINS) : Inv (picked s d) :=
  have := h.setState d .runnable
  ⟨this.pending, this.acks, this.signaled, this.dos⟩

theorem Inv.notify (h : Inv s) (target bits : BitVec 64) : Inv (notify s target bits) := by
  unfold Doorbell.notify
  split_ifs with ht
  · extract_lets t n
    split_ifs
    · exact h
    · refine ⟨?_, h.acks, ?_, ?_⟩
      · refine forall_setDom (P := fun i m => m.doorbellPending = since i (_ :: s.log)) ?_ fun i hi => ?_
        · rw [since, if_pos rfl, BitVec.or_comm, ← h.pending t]
        · rw [since, if_neg (Ne.symm hi)]
          exact h.pending i
      · refine forall_setDom (P := fun i m => m.doorbellSignaled = true → Rung i (_ :: s.log)) nofun ?_
        exact fun i hi hs => ⟨Ne.symm hi, h.signaled i hs⟩
      · exact forall_setDom (P := fun _ m => m.kind = .dos16 → m.doorbellVector = 0) (h.dos t) fun i _ => h.dos i
  · exact h

theorem Inv.ack (h : Inv s) (d : Fin SHZ_MAX_DOMAINS) : Inv { s.setDom d { s.dom d with
      doorbellPending := 0, doorbellSignaled := false } with
    log := .acked d (s.dom d).doorbellPending :: s.log } := by
  refine ⟨?_, ⟨h.pending d, h.acks⟩, ?_, ?_⟩
  · refine forall_setDom (P := fun i m => m.doorbellPending = since i (_ :: s.log)) ?_ fun i hi => ?_
    · rw [since, if_pos rfl]
    · rw [since, if_neg (Ne.symm hi)]
      exact h.pending i
  · exact forall_setDom (P := fun i m => m.doorbellSignaled = true → Rung i (_ :: s.log)) nofun
      fun i _ => h.signaled i
  · exact forall_setDom (P := fun _ m => m.kind = .dos16 → m.doorbellVector = 0) (h.dos d) fun i _ => h.dos i

theorem Inv.hcallVmcall (ticks : Nat) (h : Inv s) (hk : (s.dom d).kind ≠ .dos16) (now : Nat) (call : Call) :
    Inv (hcallVmcall ticks s d now call) := by
  cases call with
  | exit => exact h.setState d _
  | timerSet vector us =>
    refine h.setDom ?_ ?_ ?_ <;> unfold timerSet <;> split_ifs
    all_goals first | rfl | exact id | exact h.dos d
  | notify target bits => exact h.notify target bits
  | wait =>
    rw [Doorbell.hcallVmcall]
    split_ifs
    · exact h.setState d _
    · exact h
  | setDoorbellVector vector =>
    rw [Doorbell.hcallVmcall]
    split_ifs
    · exact h
    · exact h.setDom rfl id fun hd => absurd hd hk
  | doorbellAck => exact h.ack d
  | other => exact h

theorem Inv.handleExit (ticks : Nat) (h : Inv s) (p : Pass) : Inv (handleExit ticks s d p) := by
  unfold Doorbell.handleExit
  cases p.exit with
  | vmcall call =>
    dsimp only
    by_cases hk : (s.dom d).kind = .dos16
    · rw [if_pos hk]
      exact h.setState d _
    · rw [if_neg hk]
      exact h.hcallVmcall ticks hk p.exitNow call
  | hlt interrupts =>
    cases interrupts <;> exact h.setState d _
  | fail => exact h.setState d _
  | other => exact h

end Inv

/-! ### Delivery -/

section Deliver

variable {s : System} {d : Fin SHZ_MAX_DOMAINS}

/-- **What is delivered**: nothing, an interrupt of a device or the timer, or the doorbell, which is
then signaled.  An interruptible domain gets nothing only when its doorbell is not due. -/
theorem deliverEvents_cases (n : Domain) (now : Nat) (device : Option (BitVec 8)) (interruptible : Bool) :
    let r := deliverEvents n now device interruptible
    (r = (none, n) ∧ (interruptible = true → n.kind = .dos16 ∨ doorbellDue n = false)) ∨
      (∃ v, r = (some (.device v), n)) ∨ (∃ v t, r = (some (.timer v), { n with timerNext := t })) ∨
      r = (some (.doorbell n.doorbellVector), { n with doorbellSignaled := true }) := by
  unfold deliverEvents
  cases interruptible with
  | false => exact .inl ⟨rfl, nofun⟩
  | true =>
    by_cases hdos : n.kind = .dos16 ∨ n.kind = .win98
    · rw [if_pos hdos]
      cases device with
      | some v => exact .inr (.inl ⟨v, rfl⟩)
      | none =>
        by_cases hdue : n.kind = .win98 ∧ doorbellDue n
        · rw [if_pos hdue]
          exact .inr (.inr (.inr rfl))
        · rw [if_neg hdue]
          refine .inl ⟨rfl, fun _ => hdos.imp_right fun hw => ?_⟩
          exact Bool.eq_false_iff.2 fun hd => hdue ⟨hw, hd⟩
    · rw [if_neg hdos]
      by_cases htimer : timerDue n now
      · rw [if_pos htimer]
        exact .inr (.inr (.inl ⟨_, _, rfl⟩))
      · rw [if_neg htimer]
        by_cases hdue : doorbellDue n
        · rw [if_pos hdue]
          exact .inr (.inr (.inr rfl))
        · rw [if_neg hdue]
          exact .inl ⟨rfl, fun _ => .inr (Bool.eq_false_iff.2 hdue)⟩

def inject (s : System) (d : Fin SHZ_MAX_DOMAINS) (n : Domain) (what : Injection) : System :=
  { s.setDom d n with log := .injected d what :: s.log }

theorem deliver_cases (s : System) (d : Fin SHZ_MAX_DOMAINS) (p : Pass) :
    (deliver s d p = s.setDom d (s.dom d) ∧
        (p.interruptible = true → (s.dom d).kind = .dos16 ∨ doorbellDue (s.dom d) = false)) ∨
      (∃ v, deliver s d p = inject s d (s.dom d) (.device v)) ∨
      (∃ v t, deliver s d p = inject s d { s.dom d with timerNext := t } (.timer v)) ∨
      deliver s d p = inject s d { s.dom d with doorbellSignaled := true }
        (.doorbell (s.dom d).doorbellVector) := by
  unfold deliver
  rcases deliverEvents_cases (s.dom d) p.sliceNow p.sliceDevice p.interruptible with
    ⟨hr, hnone⟩ | ⟨v, hr⟩ | ⟨v, t, hr⟩ | hr <;> rw [hr]
  · exact .inl ⟨rfl, hnone⟩
  · exact .inr (.inl ⟨v, rfl⟩)
  · exact .inr (.inr (.inl ⟨v, t, rfl⟩))
  · exact .inr (.inr (.inr rfl))

theorem Inv.inject {n : Domain} (h : Inv (s.setDom d n)) (what : Injection) : Inv (inject s d n what) where
  pending := h.pending
  acks := h.acks
  signaled i hs := by
    have := h.signaled i hs
    cases what with
    | timer v => exact this
    | device v => exact this
    | doorbell v => exact .inr this
  dos := h.dos

theorem Inv.deliver (h : Inv s) (p : Pass) : Inv (deliver s d p) := by
  rcases deliver_cases s d p with ⟨hr, _⟩ | ⟨v, hr⟩ | ⟨v, t, hr⟩ | hr <;> rw [hr]
  · exact h.setDom rfl id (h.dos d)
  · exact (h.setDom rfl id (h.dos d)).inject _
  · exact (h.setDom (n := { s.dom d with timerNext := t }) rfl id (h.dos d)).inject _
  · -- the flag that is set now is the one of the doorbell in the log
    refine ⟨?_, h.acks, ?_, ?_⟩
    · exact forall_setDom (P := fun i m => m.doorbellPending = since i s.log) (h.pending d)
        fun i _ => h.pending i
    · refine forall_setDom (P := fun i m => m.doorbellSignaled = true → Rung i (_ :: s.log)) ?_ ?_
      · exact fun _ => .inl rfl
      · exact fun i _ hs => .inr (h.signaled i hs)
    · exact forall_setDom (P := fun _ m => m.kind = .dos16 → m.doorbellVector = 0) (h.dos d)
        fun i _ => h.dos i

theorem deliver_dom (s : System) (d : Fin SHZ_MAX_DOMAINS) (p : Pass) :
    (∀ i, i ≠ d → (deliver s d p).dom i = s.dom i) ∧ ((deliver s d p).dom d).state = (s.dom d).state ∧
      (deliver s d p).last = s.last := by
  rcases deliver_cases s d p with ⟨hr, _⟩ | ⟨v, hr⟩ | ⟨v, t, hr⟩ | hr <;> rw [hr]
  all_goals
    refine ⟨fun i hi => setDom_other hi, ?_, rfl⟩
    show (update s.dom d _ d).state = _
    rw [update_self]

theorem delivers (h : Inv s) (e : Event) : Delivers s e := by
  cases e with
  | fail d => trivial
  | pass p =>
    intro d hd hload t
    refine ⟨fun v hlog => ?_, fun hint hv hp => ?_⟩
    · have hvector : ((picked s d).dom d).doorbellVector = (s.dom d).doorbellVector := by
        rw [picked, System.setState, setDom_same]
      rcases deliver_cases (picked s d) d p with ⟨hr, -⟩ | ⟨v, hr⟩ | ⟨v, u, hr⟩ | hr <;>
        rw [show t = _ from hr] at hlog
      · exact absurd (congrArg length hlog) (Nat.ne_of_lt (Nat.lt_succ_self _))
      · cases hlog
      · cases hlog
      · exact (Injection.doorbell.inj (Entry.injected.inj (cons.inj hlog).1).2).symm.trans hvector
    have ht : Inv t := (h.picked d).deliver p
    rcases deliver_cases (picked s d) d p with ⟨hr, hnone⟩ | ⟨v, hr⟩ | ⟨v, u, hr⟩ | hr
    · -- nothing was injected: the doorbell is signaled already
      left
      have hdom : t.dom d = (picked s d).dom d := by
        rw [show t = _ from hr, setDom_same]
      have hkind : (t.dom d).kind ≠ .dos16 := fun hk => hv (ht.dos d hk)
      have hdue := (hnone hint).resolve_left (hdom ▸ hkind)
      rw [← hdom] at hdue
      refine ht.signaled d ?_
      unfold doorbellDue at hdue
      simp only [Bool.and_eq_false_iff, decide_eq_false_iff_not, not_not, Bool.not_eq_false'] at hdue
      rcases hdue with (hv' | hp') | hs
      · exact absurd hv' hv
      · exact absurd hp' hp
      · exact hs
    · exact .inr ⟨v, .inr (by rw [show t = _ from hr]; rfl)⟩
    · exact .inr ⟨v, .inl (by rw [show t = _ from hr]; rfl)⟩
    · left
      rw [show t = _ from hr]
      exact .inl rfl

theorem step_inv (ticks : Nat) (h : Inv s) (e : Event) : Inv (step ticks s e) := by
  cases e with
  | fail d => exact h.setState d _
  | pass p =>
    simp only [step]
    cases pick s p with
    | none => exact h
    | some d =>
      simp only [runSlice]
      cases p.loadFails
      · exact ((h.picked d).deliver p).handleExit ticks p
      · exact (h.picked d).setState d _

end Deliver

/-! ### Parking and waking -/

section Awake

variable {s : System} {d : Fin SHZ_MAX_DOMAINS}

variable {n : Domain}

theorem Awake.setDom_iff (h : Awake s) : Awake (s.setDom d n) ↔
    (n.state = .waiting → n.doorbellPending ≠ 0 → doorbellDue n = true) := by
  constructor
  · intro ha
    have hd := ha d
    rwa [setDom_same] at hd
  · exact fun hn => forall_setDom
      (P := fun _ m => m.state = .waiting → m.doorbellPending ≠ 0 → doorbellDue m = true) hn fun i _ => h i

theorem Awake.setDom (h : Awake s)
    (hn : n.state = .waiting → n.doorbellPending ≠ 0 → doorbellDue n = true) :
    Awake (s.setDom d n) :=
  h.setDom_iff.2 hn

theorem Awake.setState (h : Awake s) {state : DomState} (hs : state ≠ .waiting) :
    Awake (s.setState d state) := h.setDom fun hw => absurd hw hs

theorem Awake.picked (h : Awake s) (d : Fin SHZ_MAX_DOMAINS) : Awake (picked s d) :=
  h.setState (d := d) (by decide)

theorem picked_dom (s : System) (d : Fin SHZ_MAX_DOMAINS) : ((picked s d).dom d).state = .runnable := by
  show (update s.dom d _ d).state = _
  rw [update_self]

theorem running (s : System) (d : Fin SHZ_MAX_DOMAINS) (p : Pass) :
    ((deliver (picked s d) d p).dom d).state = .runnable :=
  (deliver_dom _ d p).2.1.trans (picked_dom s d)

theorem Awake.deliver (h : Awake s) (hrun : (s.dom d).state = .runnable) (p : Pass) :
    Awake (deliver s d p) := by
  intro i hw
  obtain ⟨hother, hstate, _⟩ := deliver_dom s d p
  by_cases hi : i = d
  · subst hi
    rw [hstate, hrun] at hw
    cases hw
  · rw [hother i hi] at hw ⊢
    exact h i hw

theorem or_ne_zero {a b : BitVec 32} (h : a ≠ 0) : b ||| a ≠ 0 := by
  intro h0
  exact h (BitVec.or_eq_zero_iff.1 h0).2

theorem awake_notify (h : Awake s) (target bits : BitVec 64) :
    Awake (notify s target bits) ↔
      ∀ t : Fin SHZ_MAX_DOMAINS, 2 ≤ target.toNat → t.val = target.toNat →
        (s.dom t).state = .waiting → bits.setWidth 32 ≠ (0 : BitVec 32) → (s.dom t).doorbellVector ≠ 0 := by
  unfold notify
  split_ifs with ht
  · extract_lets t n
    have hval (u : Fin SHZ_MAX_DOMAINS) (hu : u.val = target.toNat) : u = t := Fin.ext hu
    split_ifs with hdead
    · refine iff_of_true h fun u _ hu hw => ?_
      obtain rfl := hval u hu
      rw [hw] at hdead
      simp at hdead
    · refine (h.setDom_iff (d := t)).trans ⟨fun hm u _ hu hw hb => ?_, fun hv hw hp => ?_⟩
      · obtain rfl := hval u hu
        have hdue := hm hw (or_ne_zero hb)
        unfold doorbellDue at hdue
        grind
      · have hvec : n.doorbellVector ≠ 0 := by
          by_cases hb : bits.setWidth 32 = (0 : BitVec 32)
          · have hold : n.doorbellPending ≠ 0 := by
              intro h0
              refine hp ?_
              show n.doorbellPending ||| bits.setWidth 32 = 0
              rw [h0, hb]
              rfl
            have hdue := h t hw hold
            unfold doorbellDue at hdue
            grind
          · exact hv t ht.1 rfl hw hb
        unfold doorbellDue
        grind
  · exact iff_of_true h fun t h2 ht' => absurd ⟨h2, ht' ▸ t.2⟩ ht

/-- **Only a `HLT` and a notification can leave a domain waiting for bits without a doorbell.** -/
theorem awake_handleExit (ticks : Nat) (h : Awake s) (hrun : (s.dom d).state = .runnable) (p : Pass) :
    Awake (handleExit ticks s d p) ↔ ParksSafely s d p.exit := by
  unfold handleExit
  cases p.exit with
  | vmcall call =>
    dsimp only
    by_cases hk : (s.dom d).kind = .dos16
    · rw [if_pos hk]
      refine iff_of_true (h.setState (by decide)) ?_
      cases call <;> first | trivial | exact fun hn => absurd hk hn
    · rw [if_neg hk]
      cases call with
      | exit => exact iff_of_true (h.setState (by decide)) trivial
      | timerSet vector us =>
        refine iff_of_true (h.setDom fun hw => ?_) trivial
        have : (timerSet ticks (s.dom d) p.exitNow vector us).state = (s.dom d).state := by
          unfold timerSet
          split_ifs <;> rfl
        rw [this, hrun] at hw
        cases hw
      | notify target bits =>
        exact (awake_notify h target bits).trans ⟨fun ha _ => ha, fun ha => ha hk⟩
      | wait =>
        refine iff_of_true ?_ trivial
        rw [hcallVmcall]
        split_ifs with hp
        · exact h.setDom fun _ hne => absurd hp hne
        · exact h
      | setDoorbellVector vector =>
        refine iff_of_true ?_ trivial
        rw [hcallVmcall]
        split_ifs
        · exact h
        · exact h.setDom fun hw => absurd (hrun.symm.trans hw) (by decide)
      | doorbellAck => exact iff_of_true (h.setDom fun _ hne => absurd rfl hne) trivial
      | other => exact iff_of_true h trivial
  | hlt interrupts =>
    cases interrupts with
    | false => exact iff_of_true (h.setState (by decide)) trivial
    | true =>
      constructor
      · intro ha
        by_cases hp : (s.dom d).doorbellPending = 0
        · exact .inl hp
        · have := ha d (by simp [System.setState]) (by simpa [System.setState] using hp)
          exact .inr (by simpa [System.setState, doorbellDue] using this)
      · intro hsafe
        refine h.setDom fun _ hne => ?_
        exact hsafe.resolve_left hne
  | fail => exact iff_of_true (h.setState (by decide)) trivial
  | other => exact iff_of_true h trivial

theorem awake_step (ticks : Nat) (h : Awake s) (e : Event) : Awake (step ticks s e) ↔ Meets s e := by
  cases e with
  | fail d => exact iff_of_true (h.setState (by decide)) trivial
  | pass p =>
    simp only [step, Meets]
    cases hpick : pick s p with
    | none => exact iff_of_true h (by simp)
    | some d =>
      simp only [runSlice, Option.mem_some_iff, forall_eq']
      cases hload : p.loadFails
      · have ha : Awake (deliver (picked s d) d p) := (h.picked d).deliver (picked_dom s d) p
        simpa using awake_handleExit ticks ha (running s d p) p
      · exact iff_of_true ((h.picked d).setState (by decide)) (by simp)

end Awake

/-! ### The scan comes round -/

section Scan

variable {s : System} {d : Fin SHZ_MAX_DOMAINS}

theorem mem_order (last d : Fin SHZ_MAX_DOMAINS) : d ∈ order last := by
  revert last d
  decide

theorem order_pairwise (last : Fin SHZ_MAX_DOMAINS) :
    (order last).Pairwise fun q d => behind last q < behind last d := by
  revert last
  decide

variable {last q : Fin SHZ_MAX_DOMAINS} {n : Domain} {p : Pass}

theorem behind_lt (h : behind last q < behind last d) : behind q d < behind last d := by
  revert last q d
  decide +kernel

theorem behind_inj (h : behind last q = behind last d) : q = d := by
  revert last q d
  decide +kernel

theorem behind_lt_size (last d : Fin SHZ_MAX_DOMAINS) : behind last d < SHZ_MAX_DOMAINS := (d - last - 1).isLt

theorem ready_of_due (hk : n.kind ≠ .dos16) (hdue : doorbellDue n = true) (now : Nat)
    (device : Bool) : ready n now device = true := by
  unfold ready kernelReady
  rw [hdue]
  cases hkind : n.kind with
  | dos16 => exact absurd hkind hk
  | win98 => exact Bool.or_true _
  | kernel32 => exact Bool.or_true _
  | kernel64 => exact Bool.or_true _

/-- The scan stops at an eligible domain or before it. -/
theorem pick_of_eligible (h : eligible s p d = true) :
    ∃ q ∈ pick s p, behind s.last q ≤ behind s.last d := by
  unfold pick
  cases hfind : (order s.last).find? (eligible s p) with
  | none => exact absurd h (by simpa using List.find?_eq_none.1 hfind d (mem_order s.last d))
  | some q =>
    refine ⟨q, rfl, ?_⟩
    obtain ⟨_, as, bs, hl, has⟩ := List.find?_eq_some_iff_append.1 hfind
    have hd := mem_order s.last d
    rw [hl, mem_append, mem_cons] at hd
    rcases hd with hd | rfl | hd
    · exact absurd h (by simpa using has d hd)
    · exact Nat.le_refl _
    · have hp := order_pairwise s.last
      rw [hl] at hp
      exact Nat.le_of_lt ((pairwise_cons.1 (pairwise_append.1 hp).2.1).1 d hd)

/-- `d` waits with unacknowledged bits. -/
def Waits (s : System) (d : Fin SHZ_MAX_DOMAINS) : Prop :=
  (s.dom d).state = .waiting ∧ (s.dom d).doorbellPending ≠ 0

theorem pick_of_waits (h : Inv s) (ha : Awake s) (hd : Waits s d) (p : Pass) :
    ∃ q ∈ pick s p, behind s.last q ≤ behind s.last d := by
  have hdue := ha d hd.1 hd.2
  have hk : (s.dom d).kind ≠ .dos16 := by
    intro hk
    have hv := h.dos d hk
    unfold doorbellDue at hdue
    grind
  refine pick_of_eligible ?_
  unfold eligible
  rw [hd.1, ready_of_due hk hdue]
  rfl

theorem neverSkipped (h : Inv s) (ha : Awake s) (e : Event) : NeverSkipped s e := by
  cases e with
  | pass p => exact fun d hw hp => pick_of_waits h ha ⟨hw, hp⟩ p
  | fail d => trivial

theorem waits_setDom {i : Fin SHZ_MAX_DOMAINS} (hd : Waits s d) (hi : d ≠ i) :
    Waits (s.setDom i n) d := by
  unfold Waits
  rw [setDom_other hi]
  exact hd

theorem waits_notify (hd : Waits s d) (target bits : BitVec 64) : Waits (notify s target bits) d := by
  unfold notify
  split_ifs with ht
  · extract_lets t n
    split_ifs
    · exact hd
    · by_cases hdt : d = t
      · rw [hdt] at hd ⊢
        show (update s.dom t _ t).state = _ ∧ (update s.dom t _ t).doorbellPending ≠ 0
        rw [update_self]
        refine ⟨hd.1, fun h0 => hd.2 ?_⟩
        exact (BitVec.or_eq_zero_iff.1 h0).1
      · exact waits_setDom hd hdt
  · exact hd

theorem waits_handleExit (ticks : Nat) (hd : Waits s d) (hq : d ≠ q) (p : Pass) :
    Waits (handleExit ticks s q p) d := by
  unfold handleExit
  cases p.exit with
  | vmcall call =>
    dsimp only
    split_ifs
    · exact waits_setDom hd hq
    · cases call with
      | notify target bits => exact waits_notify hd target bits
      | wait =>
        rw [hcallVmcall]
        split_ifs
        · exact waits_setDom hd hq
        · exact hd
      | setDoorbellVector vector =>
        rw [hcallVmcall]
        split_ifs
        · exact hd
        · exact waits_setDom hd hq
      | other => exact hd
      | _ => exact waits_setDom hd hq
  | hlt interrupts => cases interrupts <;> exact waits_setDom hd hq
  | fail => exact waits_setDom hd hq
  | other => exact hd

@[simp] theorem hcallVmcall_last (ticks : Nat) (q : Fin SHZ_MAX_DOMAINS) (now : Nat) (call : Call) :
    (hcallVmcall ticks s q now call).last = s.last := by
  cases call with
  | notify target bits =>
    rw [hcallVmcall, notify]
    split_ifs
    · extract_lets t n
      split_ifs <;> rfl
    · rfl
  | wait => rw [hcallVmcall]; split_ifs <;> rfl
  | setDoorbellVector vector => rw [hcallVmcall]; split_ifs <;> rfl
  | _ => rfl

theorem handleExit_last (ticks : Nat) (q : Fin SHZ_MAX_DOMAINS) (p : Pass) :
    (handleExit ticks s q p).last = s.last := by
  unfold handleExit
  cases p.exit with
  | vmcall call =>
    split_ifs
    · rfl
    · exact hcallVmcall_last ..
  | hlt interrupts => cases interrupts <;> rfl
  | fail => rfl
  | other => rfl

theorem waits_pass (ticks : Nat) (hd : Waits s d) (hq : pick s p = some q) (hne : d ≠ q) :
    Waits (step ticks s (.pass p)) d ∧ (step ticks s (.pass p)).last = q := by
  have hp : Waits (picked s q) d := waits_setDom hd hne
  simp only [step, hq, runSlice]
  cases p.loadFails
  · obtain ⟨hother, _, hlast⟩ := deliver_dom (picked s q) q p
    have hdel : Waits (deliver (picked s q) q p) d := by
      unfold Waits
      rw [hother d hne]
      exact hp
    exact ⟨waits_handleExit ticks hdel hne p, (handleExit_last ticks q p).trans hlast⟩
  · exact ⟨waits_setDom hp hne, rfl⟩

def passes (es : List Event) : Nat := es.countP fun
  | .pass _ => true
  | .fail _ => false

/-- In the run of `es` from `s` the domain `d` is picked, or it is failed from outside. -/
def Served (ticks : Nat) (s : System) (d : Fin SHZ_MAX_DOMAINS) (es : List Event) : Prop :=
  (∃ xs p ys, es = xs ++ .pass p :: ys ∧ pick (xs.foldl (step ticks) s) p = some d) ∨ .fail d ∈ es

theorem Served.cons {ticks : Nat} {e : Event} {es : List Event} (h : Served ticks (step ticks s e) d es) :
    Served ticks s d (e :: es) := by
  rcases h with ⟨xs, p, ys, rfl, hp⟩ | hf
  · exact .inl ⟨e :: xs, p, ys, rfl, hp⟩
  · exact .inr (mem_cons_of_mem e hf)

/-- **A domain that waits with unacknowledged bits is picked** before the scan has gone round. -/
theorem served_of_waits (ticks : Nat) (es : List Event) (s : System) (h : Inv s) (ha : Awake s)
    (hm : Steps (step ticks) Meets s es) (hd : Waits s d) (hn : behind s.last d < passes es) :
    Served ticks s d es := by
  induction es generalizing s with
  | nil => exact absurd hn (Nat.not_lt_zero _)
  | cons e es ih =>
    have hinv := step_inv ticks h e
    have hawake := (awake_step ticks ha e).2 hm.2.1
    cases e with
    | fail i =>
      by_cases hi : d = i
      · subst hi
        exact .inr mem_cons_self
      · exact (ih _ hinv hawake hm.2.2 (waits_setDom hd hi) hn).cons
    | pass p =>
      obtain ⟨q, hq, hle⟩ := pick_of_waits h ha hd p
      by_cases hi : d = q
      · subst hi
        exact .inl ⟨[], p, es, rfl, hq⟩
      · obtain ⟨hw, hlast⟩ := waits_pass ticks hd hq hi
        have hlt : behind s.last q < behind s.last d :=
          lt_of_le_of_ne hle fun heq => hi (behind_inj heq).symm
        refine (ih _ hinv hawake hm.2.2 hw ?_).cons
        rw [hlast]
        have hcons : passes (.pass p :: es) = passes es + 1 := by simp [passes]
        have := behind_lt hlt
        omega

end Scan

/-! ### Runs -/

section Run

variable {ticks : Nat} {s₀ : System}

theorem Boot.inv (h : Boot s₀) : Inv s₀ where
  pending d := by rw [(h.dom d).1, h.log]; rfl
  acks := by rw [h.log]; trivial
  signaled d hs := absurd hs (by simp [(h.dom d).2.1])
  dos d _ := (h.dom d).2.2

theorem Boot.awake (h : Boot s₀) : Awake s₀ := fun d _ hp => absurd (h.dom d).1 hp

theorem run_inv (ticks : Nat) (boot : Boot s₀) (es : List Event) :
    Along (step ticks) Inv Delivers s₀ es :=
  along_of_inv (A := fun _ => True) (G := fun _ _ => True) es (fun _ h => h)
    (fun _ e h _ _ => ⟨delivers h e, step_inv ticks h e⟩) boot.inv (along_true s₀ es)

theorem run_awake (boot : Boot s₀) (es : List Event) (hm : Steps (step ticks) Meets s₀ es) :
    Along (step ticks) (fun s => Inv s ∧ Awake s) NeverSkipped s₀ es :=
  along_of_inv es (fun _ h => h)
    (fun _ e h _ hg => ⟨neverSkipped h.1 h.2 e, step_inv ticks h.1 e, (awake_step ticks h.2 e).2 hg⟩)
    ⟨boot.inv, boot.awake⟩ hm

theorem meets_of_awake (es : List Event) (s : System) (h : Along (step ticks) Awake (fun _ _ => True) s es) :
    Steps (step ticks) Meets s es := by
  induction es generalizing s with
  | nil => trivial
  | cons e es ih => exact ⟨trivial, (awake_step ticks h.1 e).1 h.2.2.head, ih _ h.2.2⟩

/-- **No lost doorbell.**  In every run each acknowledgement returns the bits notified since the one
before, and an interruptible domain with a vector gets its doorbell before it runs on, unless a timer
or device interrupt comes first.  That each domain which waits with unacknowledged bits is woken by
its doorbell holds exactly in the runs whose steps meet the condition; in these the scan never passes
it over, and picks it within one round. -/
theorem no_lost_doorbell (ticks : Nat) (s₀ : System) (boot : Boot s₀) (es : List Event) :
    (AcksExact (es.foldl (step ticks) s₀).log ∧
      ∀ d, ((es.foldl (step ticks) s₀).dom d).doorbellPending = since d (es.foldl (step ticks) s₀).log) ∧
    Steps (step ticks) Delivers s₀ es ∧
    (Along (step ticks) Awake (fun _ _ => True) s₀ es ↔ Steps (step ticks) Meets s₀ es) ∧
    (Steps (step ticks) Meets s₀ es → Steps (step ticks) NeverSkipped s₀ es ∧
      ∀ xs ys d, es = xs ++ ys → Waits (xs.foldl (step ticks) s₀) d → SHZ_MAX_DOMAINS ≤ passes ys →
        Served ticks (xs.foldl (step ticks) s₀) d ys) := by
  have hinv := run_inv ticks boot es
  refine ⟨⟨hinv.last.acks, hinv.last.pending⟩, hinv.mono es (fun _ _ => trivial) fun _ _ h => h,
    ⟨meets_of_awake es s₀, fun hm => ?_⟩, fun hm => ⟨?_, ?_⟩⟩
  · exact (run_awake boot es hm).mono es (fun _ h => h.2) fun _ _ _ => trivial
  · exact (run_awake boot es hm).mono es (fun _ _ => trivial) fun _ _ h => h
  · rintro xs ys d rfl hd hn
    obtain ⟨hxs, hys⟩ := steps_append xs ys hm
    obtain ⟨hi, ha⟩ := (run_awake boot xs hxs).last
    exact served_of_waits ticks ys _ hi ha hys hd (Nat.lt_of_lt_of_le (behind_lt_size _ d) hn)

end Run

/-! ### A doorbell that is lost -/

/-- Kernel64 in slot 4 and Win98 in slot 5, nothing pending. -/
def twoDomains : System where
  dom d := ⟨if d = 4 then .kernel64 else .win98, if d = 4 ∨ d = 5 then .runnable else .unused,
    0, 0, 0, 0, 0, false⟩
  last := 0
  log := []

theorem twoDomains_boot : Boot twoDomains := ⟨rfl, fun _ => ⟨rfl, rfl, rfl⟩⟩

/-- A slice without interrupts of the timer or a device. -/
def slice (exit : Exit) : Event := .pass ⟨0, fun _ => false, false, 0, none, true, 0, exit⟩

/-- Kernel64 sets its vector and is notified; it halts in the slice in which the doorbell is
injected, before it acknowledges.  The last slice is that of Win98. -/
def haltedBeforeAck : List Event :=
  [slice (.vmcall (.setDoorbellVector 0x21)), slice (.vmcall (.notify 4 1)), slice (.hlt true)]

/-- **A domain that halts between injection and acknowledgement is not woken**: the next scan goes
past it. -/
theorem halt_loses_doorbell : ¬ ∀ ticks s₀, Boot s₀ → ∀ es, Steps (step ticks) NeverSkipped s₀ es := by
  intro h
  have hrun := h 0 twoDomains twoDomains_boot (haltedBeforeAck ++
    [slice (.vmcall .exit), slice .other])
  obtain ⟨q, hq, _⟩ := hrun.2.2.2.2.2.2.2.2.2.1 4 (by decide +kernel) (by decide +kernel)
  have hnone : pick ((haltedBeforeAck ++ [slice (.vmcall .exit)]).foldl (step 0) twoDomains)
    ⟨0, fun _ => false, false, 0, none, true, 0, .other⟩ = none := by decide +kernel
  exact absurd (hnone.symm.trans hq) nofun

/-- The doorbell is acknowledged before the domain waits, and rung again while it waits. -/
def acknowledged : List Event :=
  [slice (.vmcall (.setDoorbellVector 0x21)), slice (.vmcall (.notify 4 1)),
    slice (.vmcall .doorbellAck), slice .other, slice (.vmcall .wait), slice (.vmcall (.notify 4 6)),
    slice (.vmcall .doorbellAck)]

/-- Kernel64 is never notified while it waits without a vector. -/
theorem acknowledged_meets : Steps (step 0) Meets twoDomains acknowledged := by
  refine ⟨trivial, fun _ _ _ => trivial, trivial, fun d hd _ _ t _ ht hw _ => ?_, trivial, fun _ _ _ => trivial,
    trivial, fun _ _ _ => trivial, trivial, fun _ _ _ => trivial, trivial, fun d hd _ _ t _ ht _ _ => ?_, trivial,
    fun _ _ _ => trivial, trivial⟩
  · obtain rfl : t = 4 := Fin.ext ht
    obtain rfl := Option.mem_unique (a := 5) (by decide +kernel) hd
    exact absurd hw (by decide +kernel)
  · obtain rfl : t = 4 := Fin.ext ht
    obtain rfl := Option.mem_unique (a := 5) (by decide +kernel) hd
    decide +kernel

theorem no_lost_doorbell_sample : Along (step 0) Awake (fun _ _ => True) twoDomains acknowledged ∧
    Steps (step 0) Delivers twoDomains acknowledged :=
  have h := no_lost_doorbell 0 twoDomains twoDomains_boot acknowledged
  ⟨h.2.2.1.2 acknowledged_meets, h.2.1⟩

end Win98Modern.Doorbell
