import Win98Modern.Kcommon.TicketLock
import Mathlib.Data.List.Basic

/-!
# The ticket lock over runs

`Inv` ties the counters to the numbers of tickets and acquisitions.  **`ticket_lock_correct`**: for
any CPUs and any interleaving, across any number of wraps of the counters, the lock is exclusive
and first come, first served, if and only if no `unlock` finds the number that it was given in
`owner` when the acquisition it was called for is not held.
-/

namespace Win98Modern.Pma.Machine

open Function List

variable {Cpu : Type} {m : Machine Cpu} {c d : Cpu} {p : Pc}

/-- What a CPU knows where it is. -/
def PcOk (m : Machine Cpu) (c : Cpu) : Pc → Prop
  | .ungate ticket | .spin ticket =>
    m.took[m.serial c]? = some c ∧ ticket = token (m.serial c) ∧ m.entered.length ≤ m.serial c
  | .tryNext owner => ∃ r ≤ m.advances, owner = token r ∧ m.took.length < r + 2 ^ 32
  | .tryIssue owner => owner = token m.took.length ∧ m.took.length = m.advances
  | _ => True

structure Inv (m : Machine Cpu) : Prop where
  gate : ∀ c d, (m.pc c).inGate → (m.pc d).inGate → c = d
  closed : m.lock.reservation = 0 → ∀ c, ¬(m.pc c).inGate
  next : m.lock.next = token m.took.length
  owner : m.lock.owner = token m.advances
  fifo : m.entered = List.range m.entered.length
  held : m.held = [] ∧ m.entered.length = m.advances ∨
    m.held = [m.advances] ∧ m.entered.length = m.advances + 1
  issued : m.entered.length ≤ m.took.length
  pcs : ∀ c, m.PcOk c (m.pc c)

/-- Numbers recur only after `2 ^ 32` tickets. -/
theorem token_inj {a b : Nat} (h : token a = token b) (hle : a ≤ b) (hlt : b < a + 2 ^ 32) :
    a = b := by
  have h := congrArg BitVec.toNat h
  rw [BitVec.toNat_ofNat, BitVec.toNat_ofNat] at h
  omega

theorem token_succ (n : Nat) : token n + 1 = token (n + 1) := (BitVec.ofNat_add ..).symm

theorem inv_init : Inv (init : Machine Cpu) where
  gate _ _ h := by cases h
  closed _ _ h := by cases h
  next := rfl
  owner := rfl
  fifo := rfl
  held := .inl ⟨rfl, rfl⟩
  issued := Nat.le_refl _
  pcs _ := trivial

theorem Inv.advances_le (h : Inv m) : m.advances ≤ m.entered.length := by
  obtain ⟨-, he⟩ | ⟨-, he⟩ := h.held <;> omega

theorem Inv.stateOk (h : Inv m) : m.StateOk where
  exclusive := by
    obtain ⟨he, -⟩ | ⟨he, -⟩ := h.held <;> rw [he]
    · exact Nat.zero_le _
    · exact Nat.le_refl _
  fifo := h.fifo
  behind := Nat.le_trans h.advances_le h.issued
  next := h.next
  owner := h.owner

theorem Inv.free (h : Inv m) (he : m.took.length = m.advances) :
    m.held = [] ∧ m.entered.length = m.advances := by
  obtain hf | ⟨-, hlen⟩ := h.held
  · exact hf
  · have := h.issued
    omega

variable {ticket : BitVec 32}

theorem Inv.waits (h : Inv m) (hw : (m.pc d).waits = some ticket) :
    m.took[m.serial d]? = some d ∧ ticket = token (m.serial d) ∧
      m.entered.length ≤ m.serial d := by
  have hok := h.pcs d
  cases hp : m.pc d <;> rw [hp] at hw hok <;> cases hw <;> exact hok

theorem Inv.no_waiter (h : Inv m) (he : m.took.length = m.entered.length) (d : Cpu) :
    (m.pc d).waits = none := by
  cases hw : (m.pc d).waits with
  | none => rfl
  | some ticket =>
    obtain ⟨ht, -, hle⟩ := h.waits hw
    have := (List.getElem?_eq_some_iff.1 ht).1
    omega

theorem Inv.served (h : Inv m) (hb : m.took.length < m.advances + 2 ^ 32)
    (hw : (m.pc c).waits = some ticket) (ho : m.lock.owner = ticket) :
    m.serial c = m.advances ∧ m.held = [] ∧ m.entered.length = m.advances := by
  obtain ⟨ht, hs, hle⟩ := h.waits hw
  have hlt := (List.getElem?_eq_some_iff.1 ht).1
  have hadv := h.advances_le
  rw [h.owner, hs] at ho
  have he := token_inj ho (by omega) (by omega)
  obtain hf | ⟨-, hlen⟩ := h.held
  · exact ⟨he.symm, hf⟩
  · omega

theorem range_concat (h : Inv m) (hlen : m.entered.length = m.advances) :
    m.entered ++ [m.advances] = List.range (m.entered ++ [m.advances]).length := by
  rw [length_append, length_singleton, range_succ, ← h.fifo, hlen]

theorem inv_ret (h : Inv m) (ret : Cpu → Option Ret) : Inv { m with ret := ret } :=
  ⟨h.gate, h.closed, h.next, h.owner, h.fifo, h.held, h.issued, h.pcs⟩

theorem inv_aim (h : Inv m) (aim : Cpu → Option Nat) : Inv { m with aim := aim } :=
  ⟨h.gate, h.closed, h.next, h.owner, h.fifo, h.held, h.issued, h.pcs⟩

/-! ### Moves of one CPU -/

variable [DecidableEq Cpu]

@[simp] theorem setPc_pc_self : (m.setPc c p).pc c = p := update_self ..

theorem setPc_pc_ne (h : d ≠ c) : (m.setPc c p).pc d = m.pc d := update_of_ne h ..

theorem inGate_of_setPc (hp : p.inGate → (m.pc c).inGate) (hd : ((m.setPc c p).pc d).inGate) :
    (m.pc d).inGate := by
  by_cases hdc : d = c
  · rw [hdc, setPc_pc_self] at hd
    rw [hdc]
    exact hp hd
  · rwa [setPc_pc_ne hdc] at hd

theorem pcs_setPc (m' : Machine Cpu) (h : Inv m) (hpc : m'.pc = m.pc) (hp : m'.PcOk c p)
    (hother : ∀ d, d ≠ c → m.PcOk d (m.pc d) → m'.PcOk d (m.pc d)) (d : Cpu) :
    (m'.setPc c p).PcOk d ((m'.setPc c p).pc d) := by
  show m'.PcOk d _
  by_cases hd : d = c
  · rw [hd, setPc_pc_self]
    exact hp
  · rw [setPc_pc_ne hd, hpc]
    exact hother d hd (h.pcs d)

theorem inv_setPc (h : Inv m) (hg : p.inGate → (m.pc c).inGate) (hp : m.PcOk c p) :
    Inv (m.setPc c p) where
  gate a b ha hb := h.gate a b (inGate_of_setPc hg ha) (inGate_of_setPc hg hb)
  closed h0 a ha := h.closed h0 a (inGate_of_setPc hg ha)
  next := h.next
  owner := h.owner
  fifo := h.fifo
  held := h.held
  issued := h.issued
  pcs := pcs_setPc _ h rfl hp fun _ _ h => h

theorem inv_finish (h : Inv m) (ret : Ret) : Inv (m.finish c ret) :=
  inv_ret (inv_setPc h (p := .idle) nofun trivial) _

theorem inv_finish_of (h : Inv (m.setPc c .idle)) (ret : Ret) : Inv (m.finish c ret) :=
  inv_ret h _

theorem inv_reserve (h : Inv m) (h0 : m.lock.reservation = 0) (hp : m.PcOk c p) :
    Inv ({ m with lock := { m.lock with reservation := 1 } }.setPc c p) := by
  have honly : ∀ a, (({ m with lock := { m.lock with reservation := 1 } }.setPc c p).pc a).inGate →
      a = c := by
    intro a ha
    by_contra hne
    rw [setPc_pc_ne hne] at ha
    exact h.closed h0 a ha
  exact {
    gate a b ha hb := (honly a ha).trans (honly b hb).symm
    closed h1 := absurd h1 (by show ¬(1 : BitVec 32) = 0; decide)
    next := h.next
    owner := h.owner
    fifo := h.fifo
    held := h.held
    issued := h.issued
    pcs := pcs_setPc _ h rfl hp fun _ _ h => h }

theorem inv_release (h : Inv m) (hc : (m.pc c).inGate) (hg : ¬p.inGate) (hp : m.PcOk c p) :
    Inv (m.reserveRelease.setPc c p) := by
  have hnone : ∀ a, ¬((m.reserveRelease.setPc c p).pc a).inGate := by
    intro a ha
    by_cases hac : a = c
    · rw [hac, setPc_pc_self] at ha
      exact hg ha
    · rw [setPc_pc_ne hac] at ha
      exact hac (h.gate a c ha hc)
  exact {
    gate a _ ha := absurd ha (hnone a)
    closed _ := hnone
    next := h.next
    owner := h.owner
    fifo := h.fifo
    held := h.held
    issued := h.issued
    pcs := pcs_setPc _ h rfl hp fun _ _ h => h }

theorem pcOk_take (h : Inv m) (hc : (m.pc c).inGate) (hd : d ≠ c) (next : BitVec 32) :
    (m.take c next).PcOk d (m.pc d) := by
  have hgate : ¬(m.pc d).inGate := fun hg => hd (h.gate d c hg hc)
  have hwait : ∀ ticket, (m.pc d).waits = some ticket → (m.took ++ [c])[m.serial d]? = some d ∧
      ticket = token (m.serial d) ∧ m.entered.length ≤ m.serial d := by
    intro ticket hw
    obtain ⟨ht, hrest⟩ := h.waits hw
    refine ⟨?_, hrest⟩
    rwa [List.getElem?_append_left (List.getElem?_eq_some_iff.1 ht).1]
  have hserial : (m.take c next).serial d = m.serial d := update_of_ne hd ..
  cases hp : m.pc d with
  | ungate ticket =>
    rw [hp] at hwait
    have := hwait ticket rfl
    rw [← hserial] at this
    exact this
  | spin ticket =>
    rw [hp] at hwait
    have := hwait ticket rfl
    rw [← hserial] at this
    exact this
  | tryNext owner =>
    rw [hp] at hgate
    exact absurd rfl hgate
  | tryIssue owner =>
    rw [hp] at hgate
    exact absurd rfl hgate
  | _ => trivial

theorem inv_issue (h : Inv m) (hc : m.pc c = .issue) :
    Inv ((m.take c (m.lock.next + 1)).setPc c (.ungate m.lock.next)) := by
  have hg : (m.pc c).inGate := by rw [hc]; rfl
  have hlen : (m.took ++ [c]).length = m.took.length + 1 := length_append
  exact {
    gate a b ha hb := h.gate a b (inGate_of_setPc (m := m.take c _) (fun _ => hg) ha)
      (inGate_of_setPc (m := m.take c _) (fun _ => hg) hb)
    closed h0 a ha := h.closed h0 a (inGate_of_setPc (m := m.take c _) (fun _ => hg) ha)
    next := by
      show m.lock.next + 1 = token (m.took ++ [c]).length
      rw [hlen, h.next, token_succ]
    owner := h.owner
    fifo := h.fifo
    held := h.held
    issued := by
      show m.entered.length ≤ (m.took ++ [c]).length
      have := h.issued
      omega
    pcs := by
      apply pcs_setPc (m.take c (m.lock.next + 1)) h rfl
      · show (m.took ++ [c])[update m.serial c _ c]? = _ ∧ _ = token
          (update m.serial c _ c) ∧ m.entered.length ≤ update m.serial c _ c
        rw [update_self]
        exact ⟨by simp, h.next, h.issued⟩
      · exact fun d hd _ => pcOk_take h hg hd _ }

theorem inv_spin (h : Inv m) (hb : m.took.length < m.advances + 2 ^ 32) (hc : m.pc c = .spin ticket)
    (ho : m.lock.owner = ticket) : Inv ((m.enter c).finish c (.locked ticket)) := by
  have hw : (m.pc c).waits = some ticket := by rw [hc]; rfl
  obtain ⟨hs, hheld, hlen⟩ := h.served hb hw ho
  obtain ⟨ht, -, -⟩ := h.waits hw
  have hlt := (List.getElem?_eq_some_iff.1 ht).1
  have hlen' : (m.entered ++ [m.advances]).length = m.advances + 1 := by
    rw [length_append, hlen]
    rfl
  have henter : m.enter c =
      { m with entered := m.entered ++ [m.advances], held := [m.advances] } := by
    unfold enter
    rw [hs, hheld]
    rfl
  rw [henter]
  apply inv_finish_of
  exact {
    gate a b ha hb := h.gate a b (inGate_of_setPc (m := m) (p := .idle) nofun ha)
      (inGate_of_setPc (m := m) (p := .idle) nofun hb)
    closed h0 a ha := h.closed h0 a (inGate_of_setPc (m := m) (p := .idle) nofun ha)
    next := h.next
    owner := h.owner
    fifo := range_concat h hlen
    held := .inr ⟨rfl, hlen'⟩
    issued := by
      show (m.entered ++ [m.advances]).length ≤ m.took.length
      omega
    pcs := by
      apply pcs_setPc { m with entered := m.entered ++ [m.advances], held := [m.advances] } h rfl
      · trivial
      · intro d hd hok
        -- another waiter has a later ticket
        have hlater : ∀ t', (m.pc d).waits = some t' →
            (m.entered ++ [m.advances]).length ≤ m.serial d := by
          intro t' hw'
          obtain ⟨ht', -, hle⟩ := h.waits hw'
          have hne : m.serial d ≠ m.serial c := by
            intro he
            rw [he, ht] at ht'
            exact hd (Option.some.inj ht').symm
          omega
        cases hp : m.pc d <;> rw [hp] at hok hlater <;> try exact hok
        · exact ⟨hok.1, hok.2.1, hlater _ rfl⟩
        · exact ⟨hok.1, hok.2.1, hlater _ rfl⟩ }

theorem inv_tryIssue (h : Inv m) {owner : BitVec 32} (hc : m.pc c = .tryIssue owner) :
    Inv (((m.take c (owner + 1)).enter c).setPc c (.tryUngate (some owner))) := by
  have hg : (m.pc c).inGate := by rw [hc]; rfl
  have hok := h.pcs c
  rw [hc] at hok
  obtain ⟨howner, hall⟩ := hok
  obtain ⟨hheld, hlen⟩ := h.free hall
  have hlen' : (m.entered ++ [m.advances]).length = m.advances + 1 := by
    rw [length_append, hlen]
    rfl
  have htook : (m.took ++ [c]).length = m.took.length + 1 := length_append
  have henter : (m.take c (owner + 1)).enter c =
      { m.take c (owner + 1) with
        entered := m.entered ++ [m.advances], held := [m.advances] } := by
    show { m.take c (owner + 1) with
      entered := m.entered ++ [update m.serial c m.took.length c]
      held := m.held ++ [update m.serial c m.took.length c] } = _
    rw [update_self, hheld, hall]
    rfl
  rw [henter]
  exact {
    gate a b ha hb := h.gate a b (inGate_of_setPc (m := m) (fun _ => hg) ha)
      (inGate_of_setPc (m := m) (fun _ => hg) hb)
    closed h0 a ha := h.closed h0 a (inGate_of_setPc (m := m) (fun _ => hg) ha)
    next := by
      show owner + 1 = token (m.took ++ [c]).length
      rw [htook, howner, token_succ]
    owner := h.owner
    fifo := range_concat h hlen
    held := .inr ⟨rfl, hlen'⟩
    issued := by
      show (m.entered ++ [m.advances]).length ≤ (m.took ++ [c]).length
      omega
    pcs := by
      apply pcs_setPc { m.take c (owner + 1) with
        entered := m.entered ++ [m.advances], held := [m.advances] } h rfl
      · trivial
      · intro d hd _
        have hgate : ¬(m.pc d).inGate := fun hgd => hd (h.gate d c hgd hg)
        have hwait := h.no_waiter (by omega) d
        cases hp : m.pc d <;> rw [hp] at hgate hwait <;> trivial }

theorem inv_cas (h : Inv m) (ho : m.lock.owner = ticket) (ha : m.Aimed c) :
    Inv (m.release c ticket) := by
  obtain ⟨n, -, hn⟩ := ha
  obtain ⟨he, -⟩ | ⟨hheld, hlen⟩ := h.held
  · rw [he] at hn
    cases hn
  have hissued := h.issued
  have hrel : m.release c ticket =
      { m with
        lock := { m.lock with owner := token (m.advances + 1) }
        held := []
        advances := m.advances + 1 }.finish c (.unlocked true) := by
    unfold release
    have hfilter : [m.advances].filter (fun n => token n ≠ token m.advances) = [] := by simp
    rw [if_pos ho, ← ho, h.owner, hheld, hfilter, token_succ]
  rw [hrel]
  apply inv_finish_of
  exact {
    gate a b ha hb := h.gate a b (inGate_of_setPc (m := m) (p := .idle) nofun ha)
      (inGate_of_setPc (m := m) (p := .idle) nofun hb)
    closed h0 a ha := h.closed h0 a (inGate_of_setPc (m := m) (p := .idle) nofun ha)
    next := h.next
    owner := rfl
    fifo := h.fifo
    held := .inl ⟨rfl, hlen⟩
    issued := hissued
    pcs := by
      apply pcs_setPc { m with
        lock := { m.lock with owner := token (m.advances + 1) }
        held := []
        advances := m.advances + 1 } h rfl
      · trivial
      intro d _ hok
      cases hp : m.pc d <;> rw [hp] at hok <;> try exact hok
      · obtain ⟨r, hr, hrest⟩ := hok
        exact ⟨r, Nat.le_succ_of_le hr, hrest⟩
      · have := hok.2
        omega }

/-! ### Steps and runs -/

theorem inv_step (h : Inv m) (hb : m.took.length < m.advances + 2 ^ 32) (a : Act Cpu)
    (ht : m.Timely a) : Inv (m.step a) := by
  cases a with
  | lock c =>
    show Inv (if _ then _ else _)
    split
    · exact inv_setPc h nofun trivial
    · exact h
  | trylock c =>
    show Inv (if _ then _ else _)
    split
    · exact inv_setPc h nofun trivial
    · exact h
  | unlock c ticket =>
    show Inv (if _ then _ else _)
    split
    · exact inv_aim (inv_setPc h (p := .check ticket) nofun trivial) _
    · exact h
  | go c =>
    show Inv (m.go c)
    unfold go
    cases hc : m.pc c with
    | idle => exact h
    | reserve =>
      show Inv (if _ then _ else _)
      split
      · rename_i h0
        exact inv_reserve h h0 trivial
      · exact h
    | issue => exact inv_issue h hc
    | ungate ticket =>
      have hok := h.pcs c
      rw [hc] at hok
      exact inv_release h (by rw [hc]; rfl) nofun hok
    | spin ticket =>
      show Inv (if _ then _ else _)
      split
      · rename_i ho
        exact inv_spin h hb hc ho
      · exact h
    | tryReserve =>
      show Inv (if _ then _ else _)
      split
      · rename_i h0
        exact inv_reserve h h0 trivial
      · exact inv_finish h _
    | tryOwner =>
      apply inv_setPc h
      · rw [hc]
        exact fun _ => rfl
      · exact ⟨m.advances, Nat.le_refl _, h.owner, hb⟩
    | tryNext owner =>
      have hok := h.pcs c
      rw [hc] at hok
      obtain ⟨r, hr, howner, hlt⟩ := hok
      show Inv (if _ then _ else _)
      split
      · rename_i hn
        have hle := h.advances_le
        have hissued := h.issued
        rw [h.next, howner] at hn
        have he := token_inj hn.symm (by omega) hlt
        apply inv_setPc h
        · rw [hc]
          exact fun _ => rfl
        · exact ⟨by rw [howner, he], by omega⟩
      · apply inv_setPc h
        · rw [hc]
          exact fun _ => rfl
        · trivial
    | tryIssue owner => exact inv_tryIssue h hc
    | tryUngate ticket =>
      exact inv_ret (inv_release h (p := .idle) (by rw [hc]; rfl) nofun trivial) _
    | check ticket =>
      show Inv (if _ then _ else _)
      split
      · exact inv_finish h _
      · exact inv_setPc h nofun trivial
    | cas ticket =>
      by_cases ho : m.lock.owner = ticket
      · apply inv_cas h ho
        simp only [Timely, hc] at ht
        exact ht ho
      · show Inv (m.release c ticket)
        unfold release
        rw [if_neg ho]
        exact inv_finish h _

theorem release_else (ho : m.lock.owner ≠ ticket) :
    m.release c ticket = m.finish c (.unlocked false) := if_neg ho

theorem go_cas (hc : m.pc c = .cas ticket) : m.go c = m.release c ticket := by
  unfold go
  rw [hc]

theorem go_check (hc : m.pc c = .check ticket) :
    m.go c = if m.lock.next = ticket then m.finish c (.unlocked false)
      else m.setPc c (.cas ticket) := by
  unfold go
  rw [hc]

theorem finish_ret (ret : Ret) : (m.finish c ret).ret c = some ret := update_self ..

theorem stepOk_of_inv (h : Inv m) (a : Act Cpu) (ht : m.Timely a) : m.StepOk a := by
  cases a with
  | go c =>
    simp only [StepOk]
    simp only [Timely] at ht
    cases hc : m.pc c with
    | tryIssue owner =>
      have hok := h.pcs c
      rw [hc] at hok
      obtain ⟨hheld, hlen⟩ := h.free hok.2
      refine ⟨hok.2, hheld, h.no_waiter ?_⟩
      have := hok.2
      omega
    | check ticket =>
      show (m.go c).lock = m.lock ∧ _
      rw [go_check hc]
      split
      · exact ⟨rfl, .inl (finish_ret _)⟩
      · exact ⟨rfl, .inr setPc_pc_self⟩
    | cas ticket =>
      rw [hc] at ht
      by_cases ho : m.lock.owner = ticket
      · exact .inl (ht ho)
      · right
        show (m.go c).lock = m.lock ∧ _
        rw [go_cas hc, release_else ho]
        exact ⟨rfl, finish_ret _⟩
    | _ => trivial
  | _ => trivial

/-- At the compare-and-swap, the machine is right only if the `unlock` was timely. -/
theorem timely_of_stepOk {a : Act Cpu} (h : m.StepOk a) : m.Timely a := by
  cases a with
  | go c =>
    simp only [StepOk] at h
    simp only [Timely]
    cases hc : m.pc c with
    | cas ticket =>
      intro ho
      rw [hc] at h
      obtain ha | ⟨-, hret⟩ := h
      · exact ha
      · rw [go_cas hc] at hret
        unfold release at hret
        rw [if_pos ho, finish_ret] at hret
        cases hret
    | _ => trivial
  | _ => trivial

theorem correct_of_timely (as : List (Act Cpu)) (h : Inv m) (hb : m.Bounded as)
    (ht : m.AllTimely as) : m.Correct as :=
  along_of_inv as (fun _ => Inv.stateOk)
    (fun _ a h hb ht => ⟨stepOk_of_inv h a ht.2, inv_step h hb.1 a ht.2⟩) h (hb.and as ht)

theorem timely_of_correct (as : List (Act Cpu)) (h : m.Correct as) : m.AllTimely as :=
  Along.mono as h (fun _ _ => trivial) fun _ _ => timely_of_stepOk

/-- **The ticket lock is right exactly when releases are timely.**  For any CPUs and any
interleaving of the accesses with fewer than `2 ^ 32` outstanding tickets, however often the
counters wrap: the lock is exclusive and first come, first served, `trylock` overtakes nobody and
`unlock` with a wrong token changes nothing, if and only if no `unlock` reaches its
compare-and-swap while `owner` shows the number that it was given and the acquisition that it was
called for is not held. -/
theorem ticket_lock_correct (as : List (Act Cpu)) (hb : (init : Machine Cpu).Bounded as) :
    (init : Machine Cpu).Correct as ↔ (init : Machine Cpu).AllTimely as :=
  ⟨timely_of_correct as, correct_of_timely as inv_init hb⟩

/-- A CPU takes the lock, another one waits for it, and gets it when the first has unlocked it. -/
def handOver : List (Act Bool) :=
  [.lock true, .go true, .go true, .go true, .go true, .lock false, .go false, .go false, .go false, .go false,
    .unlock true 0, .go true, .go true, .go false]

theorem ticket_lock_correct_two :
    (init : Machine Bool).Correct handOver ∧ (handOver.foldl step init).held = [1] := by
  refine ⟨(ticket_lock_correct _ (by decide)).2 ?_, by decide⟩
  refine ⟨trivial, trivial, trivial, trivial, trivial, trivial, trivial, trivial, trivial, trivial, trivial,
    trivial, trivial, trivial, trivial, trivial, trivial, trivial, trivial, trivial, trivial, trivial, trivial,
    trivial, trivial, fun _ => ⟨0, rfl, by decide⟩, trivial, trivial, trivial⟩

/-- One CPU calls `unlock` with the number 1 on a new lock and passes the comparison with `next`;
another one locks and unlocks; then the first swaps `owner` from 1 to 2. -/
def lateUnlock : List (Act Bool) :=
  [.unlock true 1, .go true, .lock false, .go false, .go false, .go false, .go false,
    .unlock false 0, .go false, .go false, .go true]

/-- The late `unlock` returns 1 and moves `owner` past `next`. -/
theorem late_unlock_passes :
    (init : Machine Bool).Bounded lateUnlock ∧ ¬(init : Machine Bool).Correct lateUnlock ∧
      (lateUnlock.foldl step init).ret true = some (.unlocked true) ∧
      (lateUnlock.foldl step init).lock = ⟨1, 2, 0⟩ := by
  refine ⟨by decide, fun h => ?_, by decide, by decide⟩
  exact absurd (Along.last lateUnlock h).behind (by decide)

end Win98Modern.Pma.Machine
