import Win98Modern.Abi.Basic
import Win98Modern.Lib.Runs
import Mathlib.Algebra.Group.Nat.Defs
import Mathlib.Data.List.FinRange

/-!
# Request tracking

`ReqTab` is the table of outstanding requests with its operations.  `Fate` is what has become of
a request id; `Session` runs the table beside the fates.  **`requests_exactly_once`**: a reply is
accepted exactly for a pending request of the same generation, once, as long as the id counter
does not wrap to 0 (the value that also means that the table is full).
-/

namespace Win98Modern.Shz

open Function List

def SHZ_REQ_SLOTS : Nat := 16

inductive ReqState
  | free | pending | cancelled
  deriving DecidableEq, Repr

structure ReqSlot where
  id : BitVec 64
  deadline : BitVec 64
  state : ReqState
  generation : BitVec 32
  deriving DecidableEq, Repr

def ReqSlot.zero : ReqSlot := ⟨0, 0, .free, 0⟩

/-- `shz_reqtab_t`. -/
structure ReqTab where
  slot : Fin SHZ_REQ_SLOTS → ReqSlot
  nextId : BitVec 64
  peerGeneration : BitVec 32

namespace ReqTab

/-- The loop over the slots: the first one that `p` accepts. -/
def first (t : ReqTab) (p : ReqSlot → Bool) : Option (Fin SHZ_REQ_SLOTS) :=
  (List.finRange SHZ_REQ_SLOTS).find? fun i => p (t.slot i)

def setSlot (t : ReqTab) (i : Fin SHZ_REQ_SLOTS) (r : ReqSlot) : ReqTab :=
  { t with slot := update t.slot i r }

def init (peerGeneration : BitVec 32) (firstId : BitVec 64) : ReqTab :=
  ⟨fun _ => .zero, firstId, peerGeneration⟩

def reqBegin (t : ReqTab) (deadline : BitVec 64) : BitVec 64 × ReqTab :=
  match t.first fun r => r.state = .free with
  | some i =>
    (t.nextId,
      { t.setSlot i ⟨t.nextId, deadline, .pending, t.peerGeneration⟩ with nextId := t.nextId + 1 })
  | none => (0, t)

def reqComplete (t : ReqTab) (reply : MsgHdr) : Status × ReqTab :=
  if reply.generation ≠ t.peerGeneration then (.stale, t)
  else match t.first fun r => r.state ≠ .free && r.id = reply.requestId with
    | some i =>
      (if (t.slot i).state = .cancelled then .cancelled else .ok,
        t.setSlot i { t.slot i with state := .free })
    | none => (.noent, t)

def reqCancel (t : ReqTab) (id : BitVec 64) : Status × ReqTab :=
  match t.first fun r => r.state = .pending && r.id = id with
  | some i => (.ok, t.setSlot i { t.slot i with state := .cancelled })
  | none => (.noent, t)

def expired (now : BitVec 64) (r : ReqSlot) : Bool := r.state = .pending && r.deadline ≤ now

def reqExpire (t : ReqTab) (now : BitVec 64) : Nat × ReqTab :=
  ((List.finRange SHZ_REQ_SLOTS).countP fun i => expired now (t.slot i),
    { t with slot := fun i =>
        if expired now (t.slot i) then { t.slot i with state := .cancelled } else t.slot i })

def reset (t : ReqTab) (newGeneration : BitVec 32) : ReqTab :=
  { t with slot := fun _ => .zero, peerGeneration := newGeneration }

def Occupied (t : ReqTab) (i : Fin SHZ_REQ_SLOTS) : Prop := (t.slot i).state ≠ .free

instance (t : ReqTab) (i : Fin SHZ_REQ_SLOTS) : Decidable (t.Occupied i) :=
  inferInstanceAs (Decidable (_ ≠ _))

end ReqTab

/-! ### What becomes of a request -/

structure Awaited where
  generation : BitVec 32
  deadline : BitVec 64
  deriving DecidableEq, Repr

/-- A request id is unknown until `reqBegin` returns it; then it is pending, and in the end its
reply was delivered, or it was dropped (cancelled, expired, or outstanding at a reset). -/
inductive Fate
  | unknown
  | pending (r : Awaited)
  | delivered
  | dropped
  deriving DecidableEq, Repr

/-- The deadline of a pending request passes. -/
def Fate.expire (now : BitVec 64) : Fate → Fate
  | .pending r => if r.deadline ≤ now then .dropped else .pending r
  | f => f

def Fate.reset : Fate → Fate
  | .pending _ => .dropped
  | f => f

variable {f : Fate} {now : BitVec 64} {r : Awaited}

theorem Fate.expire_eq_pending :
    f.expire now = .pending r ↔ f = .pending r ∧ ¬r.deadline ≤ now := by
  cases f with
  | pending r' =>
    show (if r'.deadline ≤ now then Fate.dropped else .pending r') = _ ↔ _
    by_cases hd : r'.deadline ≤ now
    · rw [if_pos hd]
      exact iff_of_false nofun fun h => h.2 (Fate.pending.inj h.1 ▸ hd)
    · rw [if_neg hd]
      exact ⟨fun h => ⟨h, Fate.pending.inj h ▸ hd⟩, fun h => h.1⟩
  | _ => exact iff_of_false nofun nofun

theorem Fate.expire_eq_delivered : f.expire now = .delivered ↔ f = .delivered := by
  cases f with
  | pending r =>
    refine iff_of_false ?_ nofun
    show (if r.deadline ≤ now then Fate.dropped else .pending r) ≠ _
    split <;> exact nofun
  | _ => rfl

theorem Fate.reset_ne_pending : f.reset ≠ .pending r := by
  cases f <;> exact nofun

theorem Fate.reset_eq_delivered : f.reset = .delivered ↔ f = .delivered := by
  cases f with
  | pending r => exact iff_of_false nofun nofun
  | _ => rfl

inductive ReqOp
  | begin (deadline : BitVec 64)
  | complete (reply : MsgHdr)
  | cancel (id : BitVec 64)
  | expire (now : BitVec 64)
  | reset (newGeneration : BitVec 32)
  deriving DecidableEq, Repr

/-- The table, what has become of each id, and the ids delivered so far. -/
structure Session where
  tab : ReqTab
  fate : BitVec 64 → Fate
  delivered : List (BitVec 64)

namespace Session

def start (peerGeneration : BitVec 32) (firstId : BitVec 64) : Session :=
  ⟨.init peerGeneration firstId, fun _ => .unknown, []⟩

def step (s : Session) : ReqOp → Session
  | .begin deadline =>
    { s with
      tab := (s.tab.reqBegin deadline).2
      fate := if (s.tab.reqBegin deadline).1 = 0 then s.fate
        else update s.fate (s.tab.reqBegin deadline).1
          (.pending ⟨s.tab.peerGeneration, deadline⟩) }
  | .complete reply =>
    if (s.tab.reqComplete reply).1 = .ok then
      { tab := (s.tab.reqComplete reply).2
        fate := update s.fate reply.requestId .delivered
        delivered := s.delivered ++ [reply.requestId] }
    else { s with tab := (s.tab.reqComplete reply).2 }
  | .cancel id =>
    { s with
      tab := (s.tab.reqCancel id).2
      fate := if (s.tab.reqCancel id).1 = .ok then update s.fate id .dropped else s.fate }
  | .expire now =>
    { s with tab := (s.tab.reqExpire now).2, fate := fun id => (s.fate id).expire now }
  | .reset newGeneration =>
    { s with tab := s.tab.reset newGeneration, fate := fun id => (s.fate id).reset }

/-- What one call may do: `reqBegin` returns 0 exactly when all slots are occupied, and otherwise
an id that was never returned before; `reqComplete` accepts exactly the replies to pending
requests that carry the generation of the request. -/
def CallOk (s : Session) : ReqOp → Prop
  | .begin deadline =>
    ((s.tab.reqBegin deadline).1 = 0 ↔ ∀ i, s.tab.Occupied i) ∧
      ((s.tab.reqBegin deadline).1 ≠ 0 → s.fate (s.tab.reqBegin deadline).1 = .unknown)
  | .complete reply =>
    (s.tab.reqComplete reply).1 = .ok ↔
      ∃ r, s.fate reply.requestId = .pending r ∧ r.generation = reply.generation
  | .cancel id => (s.tab.reqCancel id).1 = .ok ↔ ∃ r, s.fate id = .pending r
  | _ => True

/-- The ids of occupied slots differ, no id is delivered twice, and a delivered id is neither
pending nor dropped. -/
structure TableOk (s : Session) : Prop where
  apart : ∀ i j, s.tab.Occupied i → s.tab.Occupied j → (s.tab.slot i).id = (s.tab.slot j).id → i = j
  once : s.delivered.Nodup
  fate : ∀ id ∈ s.delivered, s.fate id = .delivered

/-- Every call of the sequence does what it may, and the table is right before and after it. -/
def Exact (s : Session) (ops : List ReqOp) : Prop := Along step TableOk CallOk s ops

/-- `reqBegin` finds a free slot only while the counter is not 0. -/
def Counts (s : Session) : ReqOp → Prop
  | .begin _ => (∃ i, ¬s.tab.Occupied i) → s.tab.nextId ≠ 0
  | _ => True

/-- The id counter does not stand at 0 at any call that takes it. -/
def Unwrapped (s : Session) (ops : List ReqOp) : Prop := Steps step Counts s ops

end Session

def begins (ops : List ReqOp) : Nat := ops.countP fun op => op matches .begin _

/-! ### The slots -/

namespace ReqTab

variable {t : ReqTab} {p : ReqSlot → Bool} {i j : Fin SHZ_REQ_SLOTS} {r : ReqSlot}

theorem of_first_eq_some (h : t.first p = some i) : p (t.slot i) := by
  exact (List.find?_eq_some_iff_append.1 h).1

theorem first_eq_none : t.first p = none ↔ ∀ i, ¬p (t.slot i) := by
  unfold first
  rw [List.find?_eq_none]
  exact ⟨fun h i => h i (mem_finRange i), fun h i _ => h i⟩

@[simp] theorem setSlot_slot_self : (t.setSlot i r).slot i = r := update_self ..

theorem setSlot_slot_ne (h : j ≠ i) : (t.setSlot i r).slot j = t.slot j :=
  update_of_ne h ..

theorem reqBegin_cases (t : ReqTab) (deadline : BitVec 64) :
    (∃ i, ¬t.Occupied i ∧ t.reqBegin deadline =
      (t.nextId, { t.setSlot i ⟨t.nextId, deadline, .pending, t.peerGeneration⟩ with
        nextId := t.nextId + 1 })) ∨
    ((∀ i, t.Occupied i) ∧ t.reqBegin deadline = (0, t)) := by
  unfold reqBegin
  cases hf : t.first (fun r => r.state = .free) with
  | some i =>
    have hi := of_first_eq_some hf
    refine .inl ⟨i, ?_, rfl⟩
    intro ho
    exact ho (of_decide_eq_true hi)
  | none =>
    refine .inr ⟨fun i hi => ?_, rfl⟩
    exact first_eq_none.1 hf i (decide_eq_true hi)

/-- `reqComplete` refuses a reply, drops the reply to a cancelled request, or accepts the reply
to a pending one. -/
theorem reqComplete_cases (t : ReqTab) (reply : MsgHdr) :
    (∃ i, reply.generation = t.peerGeneration ∧ t.Occupied i ∧
      (t.slot i).id = reply.requestId ∧
      t.reqComplete reply = (if (t.slot i).state = .cancelled then .cancelled else .ok,
        t.setSlot i { t.slot i with state := .free })) ∨
    ((reply.generation = t.peerGeneration → ∀ i, t.Occupied i → (t.slot i).id ≠ reply.requestId) ∧
      (t.reqComplete reply).1 ≠ .ok ∧ (t.reqComplete reply).2 = t) := by
  unfold reqComplete
  by_cases hg : reply.generation = t.peerGeneration
  · rw [if_neg (not_not.2 hg)]
    cases hf : t.first (fun r => r.state ≠ .free && r.id = reply.requestId) with
    | some i =>
      have hi := of_first_eq_some hf
      simp only [ne_eq, Bool.and_eq_true, decide_eq_true_eq] at hi
      exact .inl ⟨i, hg, hi.1, hi.2, rfl⟩
    | none =>
      refine .inr ⟨fun _ i ho hid => ?_, nofun, rfl⟩
      apply first_eq_none.1 hf i
      simp only [ne_eq, Bool.and_eq_true, decide_eq_true_eq]
      exact ⟨ho, hid⟩
  · rw [if_pos hg]
    exact .inr ⟨fun h => absurd h hg, nofun, rfl⟩

theorem reqCancel_cases (t : ReqTab) (id : BitVec 64) :
    (∃ i, (t.slot i).state = .pending ∧ (t.slot i).id = id ∧
      t.reqCancel id = (.ok, t.setSlot i { t.slot i with state := .cancelled })) ∨
    ((∀ i, (t.slot i).state = .pending → (t.slot i).id ≠ id) ∧ t.reqCancel id = (.noent, t)) := by
  unfold reqCancel
  cases hf : t.first (fun r => r.state = .pending && r.id = id) with
  | some i =>
    have hi := of_first_eq_some hf
    simp only [Bool.and_eq_true, decide_eq_true_eq] at hi
    exact .inl ⟨i, hi.1, hi.2, rfl⟩
  | none =>
    refine .inr ⟨fun i hp hid => ?_, rfl⟩
    apply first_eq_none.1 hf i
    simp only [Bool.and_eq_true, decide_eq_true_eq]
    exact ⟨hp, hid⟩

end ReqTab

/-! ### The invariant -/

def ReqSlot.fate (r : ReqSlot) : Fate :=
  if r.state = .pending then .pending ⟨r.generation, r.deadline⟩ else .dropped

namespace Session

variable {s : Session} {firstId : BitVec 64} {k : Nat}

/-- After `k` ids were handed out, from `firstId` on. -/
structure Inv (firstId : BitVec 64) (k : Nat) (s : Session) : Prop where
  next : s.tab.nextId = firstId + BitVec.ofNat 64 k
  known : ∀ id, s.fate id ≠ .unknown → ∃ j < k, id = firstId + BitVec.ofNat 64 j
  generation : ∀ i, s.tab.Occupied i → (s.tab.slot i).generation = s.tab.peerGeneration
  slots : ∀ i, s.tab.Occupied i → s.fate (s.tab.slot i).id = (s.tab.slot i).fate
  apart : ∀ i j, s.tab.Occupied i → s.tab.Occupied j → (s.tab.slot i).id = (s.tab.slot j).id → i = j
  kept : ∀ id r, s.fate id = .pending r → ∃ i, s.tab.slot i = ⟨id, r.deadline, .pending, r.generation⟩
  once : s.delivered.Nodup
  delivered : ∀ id, id ∈ s.delivered ↔ s.fate id = .delivered

theorem step_begin (deadline : BitVec 64) : s.step (.begin deadline) =
    { s with
      tab := (s.tab.reqBegin deadline).2
      fate := if (s.tab.reqBegin deadline).1 = 0 then s.fate
        else update s.fate (s.tab.reqBegin deadline).1
          (.pending ⟨s.tab.peerGeneration, deadline⟩) } := rfl

theorem callOk_begin (deadline : BitVec 64) : s.CallOk (.begin deadline) ↔
    ((s.tab.reqBegin deadline).1 = 0 ↔ ∀ i, s.tab.Occupied i) ∧
      ((s.tab.reqBegin deadline).1 ≠ 0 → s.fate (s.tab.reqBegin deadline).1 = .unknown) := Iff.rfl

theorem callOk_complete (reply : MsgHdr) : s.CallOk (.complete reply) ↔
    ((s.tab.reqComplete reply).1 = .ok ↔
      ∃ r, s.fate reply.requestId = .pending r ∧ r.generation = reply.generation) := Iff.rfl

theorem callOk_cancel (id : BitVec 64) : s.CallOk (.cancel id) ↔
    ((s.tab.reqCancel id).1 = .ok ↔ ∃ r, s.fate id = .pending r) := Iff.rfl

theorem step_complete (reply : MsgHdr) : s.step (.complete reply) =
    if (s.tab.reqComplete reply).1 = .ok then
      { tab := (s.tab.reqComplete reply).2
        fate := update s.fate reply.requestId .delivered
        delivered := s.delivered ++ [reply.requestId] }
    else { s with tab := (s.tab.reqComplete reply).2 } := rfl

theorem step_cancel (id : BitVec 64) : s.step (.cancel id) =
    { s with
      tab := (s.tab.reqCancel id).2
      fate := if (s.tab.reqCancel id).1 = .ok then update s.fate id .dropped
        else s.fate } := rfl

theorem Inv.tableOk (h : Inv firstId k s) : s.TableOk :=
  ⟨h.apart, h.once, fun id => (h.delivered id).1⟩

theorem inv_start (g : BitVec 32) (firstId : BitVec 64) : Inv firstId 0 (start g firstId) where
  next := (BitVec.add_zero _).symm
  known _ h := absurd rfl h
  generation _ h := absurd rfl h
  slots _ h := absurd rfl h
  apart _ _ h := absurd rfl h
  kept _ _ := nofun
  once := nodup_nil
  delivered _ := iff_of_false not_mem_nil nofun

/-- Ids repeat only after `2 ^ 64` of them. -/
theorem Inv.fresh (h : Inv firstId k s) (hk : k < 2 ^ 64) : s.fate s.tab.nextId = .unknown := by
  by_contra hf
  obtain ⟨j, hj, he⟩ := h.known _ hf
  rw [h.next] at he
  have he := congrArg BitVec.toNat ((BitVec.add_right_inj _).1 he)
  rw [BitVec.toNat_ofNat, BitVec.toNat_ofNat, Nat.mod_eq_of_lt hk,
    Nat.mod_eq_of_lt (hj.trans hk)] at he
  exact hj.ne' he

/-! ### One call -/

theorem Inv.fate_ne (h : Inv firstId k s) (hk : k < 2 ^ 64) {i} (ho : s.tab.Occupied i) :
    (s.tab.slot i).id ≠ s.tab.nextId := by
  intro he
  have hf := h.slots i ho
  rw [he, h.fresh hk] at hf
  unfold ReqSlot.fate at hf
  split at hf <;> cases hf

/-- The session after `reqBegin` took the slot `i`. -/
def begun (s : Session) (i : Fin SHZ_REQ_SLOTS) (deadline : BitVec 64) : Session :=
  { s with
    tab := { s.tab.setSlot i ⟨s.tab.nextId, deadline, .pending, s.tab.peerGeneration⟩ with
      nextId := s.tab.nextId + 1 }
    fate := update s.fate s.tab.nextId (.pending ⟨s.tab.peerGeneration, deadline⟩) }

section Begun

variable {i j : Fin SHZ_REQ_SLOTS} {deadline : BitVec 64}

@[simp] theorem begun_slot_self :
    (s.begun i deadline).tab.slot i = ⟨s.tab.nextId, deadline, .pending, s.tab.peerGeneration⟩ :=
  update_self ..

theorem begun_slot_ne (h : j ≠ i) : (s.begun i deadline).tab.slot j = s.tab.slot j :=
  update_of_ne h ..

theorem begun_occupied_ne (h : j ≠ i) :
    (s.begun i deadline).tab.Occupied j ↔ s.tab.Occupied j := by
  unfold ReqTab.Occupied
  rw [begun_slot_ne h]

@[simp] theorem begun_fate_self : (s.begun i deadline).fate s.tab.nextId =
    .pending ⟨s.tab.peerGeneration, deadline⟩ := update_self ..

theorem begun_fate_ne {id : BitVec 64} (h : id ≠ s.tab.nextId) :
    (s.begun i deadline).fate id = s.fate id := update_of_ne h ..

theorem inv_begun (h : Inv firstId k s) (hk : k < 2 ^ 64) (hi : ¬s.tab.Occupied i) :
    Inv firstId (k + 1) (s.begun i deadline) where
  next := by
    show s.tab.nextId + 1 = _
    rw [h.next, BitVec.add_assoc, BitVec.ofNat_add]
    rfl
  known id hid := by
    by_cases heq : id = s.tab.nextId
    · exact ⟨k, k.lt_succ_self, heq.trans h.next⟩
    · rw [begun_fate_ne heq] at hid
      obtain ⟨j, hj, hj'⟩ := h.known id hid
      exact ⟨j, hj.trans k.lt_succ_self, hj'⟩
  generation j ho := by
    by_cases hj : j = i
    · rw [hj, begun_slot_self]
      rfl
    · rw [begun_slot_ne hj]
      exact h.generation j ((begun_occupied_ne hj).1 ho)
  slots j ho := by
    by_cases hj : j = i
    · rw [hj, begun_slot_self, begun_fate_self]
      rfl
    · have ho := (begun_occupied_ne hj).1 ho
      rw [begun_slot_ne hj, begun_fate_ne (h.fate_ne hk ho)]
      exact h.slots j ho
  apart a b ha hb hab := by
    by_cases hai : a = i
    · by_cases hbi : b = i
      · exact hai.trans hbi.symm
      · rw [hai, begun_slot_self, begun_slot_ne hbi] at hab
        exact absurd hab.symm (h.fate_ne hk ((begun_occupied_ne hbi).1 hb))
    · by_cases hbi : b = i
      · rw [hbi, begun_slot_self, begun_slot_ne hai] at hab
        exact absurd hab (h.fate_ne hk ((begun_occupied_ne hai).1 ha))
      · rw [begun_slot_ne hai, begun_slot_ne hbi] at hab
        exact h.apart a b ((begun_occupied_ne hai).1 ha) ((begun_occupied_ne hbi).1 hb) hab
  kept id r hr := by
    by_cases heq : id = s.tab.nextId
    · rw [heq, begun_fate_self] at hr
      obtain rfl := Fate.pending.inj hr
      exact ⟨i, begun_slot_self.trans (by rw [heq])⟩
    · rw [begun_fate_ne heq] at hr
      obtain ⟨j, hj⟩ := h.kept id r hr
      have hji : j ≠ i := by
        rintro rfl
        apply hi
        unfold ReqTab.Occupied
        rw [hj]
        exact nofun
      exact ⟨j, (begun_slot_ne hji).trans hj⟩
  once := h.once
  delivered id := by
    show id ∈ s.delivered ↔ _
    rw [h.delivered]
    by_cases heq : id = s.tab.nextId
    · rw [heq, begun_fate_self, h.fresh hk]
      exact iff_of_false nofun nofun
    · rw [begun_fate_ne heq]

end Begun

theorem inv_begin (h : Inv firstId k s) (hk : k < 2 ^ 64) {deadline : BitVec 64}
    (hc : s.Counts (.begin deadline)) :
    s.CallOk (.begin deadline) ∧ ∃ k' ≤ k + 1, Inv firstId k' (s.step (.begin deadline)) := by
  rw [callOk_begin, step_begin]
  obtain ⟨i, hi, he⟩ | ⟨hfull, he⟩ := s.tab.reqBegin_cases deadline
  · have hne : s.tab.nextId ≠ 0 := hc ⟨i, hi⟩
    rw [he]
    refine ⟨⟨iff_of_false hne fun hall => hi (hall i), fun _ => h.fresh hk⟩, k + 1, le_rfl, ?_⟩
    simp only [if_neg hne]
    exact inv_begun h hk hi
  · rw [he]
    exact ⟨⟨iff_of_true rfl hfull, fun hne => absurd rfl hne⟩, k, k.le_succ, h⟩

/-! A slot changes its state: its request is answered, or given up. -/

section Settle

variable {i j : Fin SHZ_REQ_SLOTS} {t : ReqTab} {f : BitVec 64 → Fate}

/-- What `reqComplete`, `reqCancel`, `reqExpire` and `reset` do to the table: they change states of
slots, free them or make a pending one cancelled, and leave the counter alone. -/
structure Settled (s : Session) (t : ReqTab) (f : BitVec 64 → Fate) : Prop where
  next : t.nextId = s.tab.nextId
  known : ∀ id, f id ≠ .unknown → s.fate id ≠ .unknown
  occupied : ∀ i, t.Occupied i → s.tab.Occupied i
  id : ∀ i, t.Occupied i → (t.slot i).id = (s.tab.slot i).id
  generation : ∀ i, t.Occupied i → (s.tab.slot i).generation = s.tab.peerGeneration →
    (t.slot i).generation = t.peerGeneration
  slots : ∀ i, t.Occupied i → f (t.slot i).id = (t.slot i).fate
  kept : ∀ id r, f id = .pending r → ∃ i, t.slot i = ⟨id, r.deadline, .pending, r.generation⟩

theorem Settled.inv (hs : Settled s t f) (h : Inv firstId k s) {d : List (BitVec 64)}
    (hnd : d.Nodup) (hd : ∀ id, id ∈ d ↔ f id = .delivered) : Inv firstId k ⟨t, f, d⟩ where
  next := hs.next.trans h.next
  known id hid := h.known id (hs.known id hid)
  generation i ho := hs.generation i ho (h.generation i (hs.occupied i ho))
  slots := hs.slots
  apart a b ha hb hab := by
    rw [hs.id a ha, hs.id b hb] at hab
    exact h.apart a b (hs.occupied a ha) (hs.occupied b hb) hab
  kept := hs.kept
  once := hnd
  delivered := hd

variable {r : ReqSlot}

@[simp] theorem fate_pending (h : r.state = .pending) :
    r.fate = .pending ⟨r.generation, r.deadline⟩ := if_pos h

@[simp] theorem fate_cancelled (h : r.state = .cancelled) : r.fate = .dropped := by
  unfold ReqSlot.fate
  rw [h]
  rfl

theorem Inv.fate_eq (h : Inv firstId k s) (hi : (s.tab.slot i).state = .pending) :
    s.fate (s.tab.slot i).id = .pending ⟨(s.tab.slot i).generation, (s.tab.slot i).deadline⟩ := by
  rw [h.slots i (by unfold ReqTab.Occupied; rw [hi]; exact nofun)]
  exact fate_pending hi

theorem settled_setSlot (st : ReqState) (h : Inv firstId k s) (hi : s.tab.Occupied i)
    (hst : st ≠ .pending) {x : Fate} (hx : x = .delivered ∧ st = .free ∨ x = .dropped) :
    Settled s (s.tab.setSlot i { s.tab.slot i with state := st })
      (update s.fate (s.tab.slot i).id x) := by
  have hother : ∀ {j}, j ≠ i →
      (s.tab.setSlot i { s.tab.slot i with state := st }).slot j = s.tab.slot j :=
    fun hj => ReqTab.setSlot_slot_ne hj
  have hself : (s.tab.setSlot i { s.tab.slot i with state := st }).slot i =
      { s.tab.slot i with state := st } := ReqTab.setSlot_slot_self
  have hocc : ∀ j, (s.tab.setSlot i { s.tab.slot i with state := st }).Occupied j →
      s.tab.Occupied j := by
    intro j ho
    by_cases hj : j = i
    · rwa [hj]
    · unfold ReqTab.Occupied at ho
      rwa [hother hj] at ho
  have hid : ∀ j, ((s.tab.setSlot i { s.tab.slot i with state := st }).slot j).id =
      (s.tab.slot j).id := by
    intro j
    by_cases hj : j = i
    · rw [hj, hself]
    · rw [hother hj]
  refine ⟨rfl, ?_, hocc, fun j _ => hid j, ?_, ?_, ?_⟩
  · intro id hne
    by_cases heq : id = (s.tab.slot i).id
    · rw [heq, h.slots i hi]
      unfold ReqSlot.fate
      split <;> exact nofun
    · rwa [update_of_ne heq] at hne
  · intro j _ hg
    by_cases hj : j = i
    · subst hj
      rwa [hself]
    · rwa [hother hj]
  · intro j ho
    rw [hid]
    by_cases hj : j = i
    · subst hj
      rw [update_self, hself]
      obtain ⟨-, rfl⟩ | rfl := hx
      · unfold ReqTab.Occupied at ho
        rw [hself] at ho
        exact absurd rfl ho
      · exact (if_neg hst).symm
    · rw [update_of_ne fun heq => hj (h.apart j i (hocc j ho) hi heq), hother hj]
      exact h.slots j (hocc j ho)
  · intro id r hr
    by_cases heq : id = (s.tab.slot i).id
    · rw [heq, update_self] at hr
      obtain ⟨rfl, -⟩ | rfl := hx <;> cases hr
    · rw [update_of_ne heq] at hr
      obtain ⟨j, hj⟩ := h.kept id r hr
      have hji : j ≠ i := by
        rintro rfl
        rw [hj] at heq
        exact heq rfl
      exact ⟨j, (hother hji).trans hj⟩

theorem inv_complete (h : Inv firstId k s) (reply : MsgHdr) :
    s.CallOk (.complete reply) ∧ Inv firstId k (s.step (.complete reply)) := by
  rw [callOk_complete, step_complete]
  obtain ⟨i, hg, ho, hid, he⟩ | ⟨hno, hne, he⟩ := s.tab.reqComplete_cases reply
  · rw [he, ← hid]
    by_cases hc : (s.tab.slot i).state = .cancelled
    · have hfate : s.fate (s.tab.slot i).id = .dropped := (h.slots i ho).trans (fate_cancelled hc)
      rw [if_pos hc, if_neg nofun, hfate]
      refine ⟨iff_of_false nofun ?_, ?_⟩
      · rintro ⟨r, hr, -⟩
        cases hr
      · have hs := settled_setSlot .free h ho nofun (.inr rfl)
        rw [← hfate, update_eq_self] at hs
        exact hs.inv h h.once h.delivered
    · have hp : (s.tab.slot i).state = .pending := by
        cases hst : (s.tab.slot i).state with
        | free => exact absurd hst ho
        | pending => rfl
        | cancelled => exact absurd hst hc
      have hfate := h.fate_eq hp
      rw [if_neg hc, if_pos rfl]
      refine ⟨iff_of_true rfl ⟨_, hfate, (h.generation i ho).trans hg.symm⟩, ?_⟩
      have hnot : (s.tab.slot i).id ∉ s.delivered := by
        rw [h.delivered, hfate]
        exact nofun
      apply (settled_setSlot .free h ho nofun (.inl ⟨rfl, rfl⟩)).inv h
      · exact nodup_append.2 ⟨h.once, nodup_singleton _, by
          intro a ha b hb
          rw [mem_singleton.1 hb]
          rintro rfl
          exact hnot ha⟩
      · intro id
        rw [mem_append, mem_singleton]
        by_cases heq : id = (s.tab.slot i).id
        · rw [heq, update_self]
          exact iff_of_true (.inr rfl) rfl
        · rw [update_of_ne heq, h.delivered]
          exact ⟨fun hor => hor.resolve_right heq, .inl⟩
  · rw [he, if_neg hne]
    refine ⟨iff_of_false hne ?_, h⟩
    rintro ⟨r, hr, hgen⟩
    obtain ⟨i, hi⟩ := h.kept _ r hr
    have ho : s.tab.Occupied i := by
      unfold ReqTab.Occupied
      rw [hi]
      exact nofun
    have hgi := h.generation i ho
    rw [hi] at hgi
    apply hno (hgen.symm.trans hgi) i ho
    rw [hi]

theorem inv_cancel (h : Inv firstId k s) (id : BitVec 64) :
    s.CallOk (.cancel id) ∧ Inv firstId k (s.step (.cancel id)) := by
  rw [callOk_cancel, step_cancel]
  obtain ⟨i, hp, rfl, he⟩ | ⟨hno, he⟩ := s.tab.reqCancel_cases id
  · have ho : s.tab.Occupied i := by
      unfold ReqTab.Occupied
      rw [hp]
      exact nofun
    rw [he, if_pos rfl]
    refine ⟨iff_of_true rfl ⟨_, h.fate_eq hp⟩, ?_⟩
    apply (settled_setSlot .cancelled h ho nofun (.inr rfl)).inv h h.once
    intro id
    rw [h.delivered]
    by_cases heq : id = (s.tab.slot i).id
    · rw [heq, update_self, h.fate_eq hp]
      exact iff_of_false nofun nofun
    · rw [update_of_ne heq]
  · rw [he, if_neg nofun]
    refine ⟨iff_of_false nofun ?_, h⟩
    rintro ⟨r, hr⟩
    obtain ⟨i, hi⟩ := h.kept _ r hr
    apply hno i
    · rw [hi]
    · rw [hi]

theorem inv_expire (h : Inv firstId k s) (now : BitVec 64) :
    Inv firstId k (s.step (.expire now)) := by
  have hocc : ∀ i, (s.tab.reqExpire now).2.Occupied i → s.tab.Occupied i := by
    intro i ho hfree
    apply ho
    show (if ReqTab.expired now (s.tab.slot i) then _ else s.tab.slot i).state = _
    rw [if_neg (by unfold ReqTab.expired; rw [hfree]; simp), hfree]
  have hid : ∀ i, ((s.tab.reqExpire now).2.slot i).id = (s.tab.slot i).id := by
    intro i
    show (if ReqTab.expired now (s.tab.slot i) then _ else s.tab.slot i).id = _
    split <;> rfl
  apply Settled.inv (s := s) _ h h.once
  · intro id
    rw [h.delivered]
    exact Fate.expire_eq_delivered.symm
  · refine ⟨rfl, ?_, hocc, fun i _ => hid i, ?_, ?_, ?_⟩
    · intro id hne he
      rw [he] at hne
      exact hne rfl
    · intro i _ hg
      show (if ReqTab.expired now (s.tab.slot i) then _ else s.tab.slot i).generation = _
      split <;> exact hg
    · intro i ho
      rw [hid, h.slots i (hocc i ho)]
      show _ = (if ReqTab.expired now (s.tab.slot i) then _ else s.tab.slot i).fate
      unfold ReqSlot.fate ReqTab.expired
      by_cases hp : (s.tab.slot i).state = .pending
      · by_cases hd : (s.tab.slot i).deadline ≤ now
        · simp [hp, hd, Fate.expire]
        · simp [hp, hd, Fate.expire]
      · simp [hp, Fate.expire]
    · intro id r hr
      obtain ⟨hf, hd⟩ := Fate.expire_eq_pending.1 hr
      obtain ⟨i, hi⟩ := h.kept id r hf
      refine ⟨i, ?_⟩
      show (if ReqTab.expired now (s.tab.slot i) then _ else s.tab.slot i) = _
      rw [if_neg (by unfold ReqTab.expired; rw [hi]; simp [hd]), hi]

theorem inv_reset (h : Inv firstId k s) (g : BitVec 32) : Inv firstId k (s.step (.reset g)) := by
  have hfree : ∀ i, ¬(s.tab.reset g).Occupied i := fun i ho => ho rfl
  apply Settled.inv (s := s) _ h h.once
  · intro id
    rw [h.delivered]
    exact Fate.reset_eq_delivered.symm
  · refine ⟨rfl, ?_, fun i ho => absurd ho (hfree i), fun i ho => absurd ho (hfree i),
      fun i ho => absurd ho (hfree i), fun i ho => absurd ho (hfree i), ?_⟩
    · intro id hne he
      rw [he] at hne
      exact hne rfl
    · intro id r hr
      exact absurd hr Fate.reset_ne_pending

end Settle

/-! ### Every sequence of calls -/

variable {op : ReqOp}

theorem inv_step (h : Inv firstId k s) (hk : k < 2 ^ 64) (hc : s.Counts op) :
    s.CallOk op ∧ ∃ k' ≤ k + begins [op], Inv firstId k' (s.step op) := by
  cases op with
  | begin deadline => exact inv_begin h hk hc
  | complete reply =>
    obtain ⟨hok, hinv⟩ := inv_complete h reply
    exact ⟨hok, k, k.le_add_right _, hinv⟩
  | cancel id =>
    obtain ⟨hok, hinv⟩ := inv_cancel h id
    exact ⟨hok, k, k.le_add_right _, hinv⟩
  | expire now => exact ⟨trivial, k, k.le_add_right _, inv_expire h now⟩
  | reset g => exact ⟨trivial, k, k.le_add_right _, inv_reset h g⟩

theorem counts_of_callOk (h : s.CallOk op) : s.Counts op := by
  cases op with
  | begin deadline =>
    rintro ⟨i, hi⟩ h0
    obtain ⟨j, -, he⟩ | ⟨hfull, -⟩ := s.tab.reqBegin_cases deadline
    · apply hi
      apply (callOk_begin deadline).1 h |>.1.1
      rw [he]
      exact h0
    · exact hi (hfull i)
  | _ => trivial

theorem begins_cons (op : ReqOp) (ops : List ReqOp) :
    begins (op :: ops) = begins [op] + begins ops := by
  unfold begins
  rw [← singleton_append, countP_append]

theorem exact_of_inv (ops : List ReqOp) (h : Inv firstId k s) (hk : k + begins ops < 2 ^ 64)
    (hu : s.Unwrapped ops) : s.Exact ops := by
  induction ops generalizing s k with
  | nil => exact h.tableOk
  | cons op ops ih =>
    rw [begins_cons] at hk
    obtain ⟨hok, k', hk', hinv⟩ := inv_step h (by omega) hu.2.1
    exact ⟨h.tableOk, hok, ih hinv (by omega) hu.2.2⟩

theorem unwrapped_of_exact (ops : List ReqOp) (h : s.Exact ops) : s.Unwrapped ops :=
  Along.mono ops h (fun _ _ => trivial) fun _ _ => counts_of_callOk

/-- The counter stays away from 0 for `2 ^ 64 - firstId` requests. -/
theorem unwrapped_of_inv (ops : List ReqOp) (h : Inv firstId k s) (hfirst : 1 ≤ firstId.toNat)
    (hk : firstId.toNat + k + begins ops ≤ 2 ^ 64) : s.Unwrapped ops := by
  induction ops generalizing s k with
  | nil => trivial
  | cons op ops ih =>
    rw [begins_cons] at hk
    have hc : s.Counts op := by
      cases op with
      | begin deadline =>
        intro _ h0
        have hone : begins [.begin deadline] = 1 := rfl
        have hnext := congrArg BitVec.toNat (h.next.symm.trans h0)
        rw [BitVec.toNat_add, BitVec.toNat_ofNat, Nat.mod_eq_of_lt (a := k) (by omega),
          Nat.mod_eq_of_lt (by omega)] at hnext
        change _ = 0 at hnext
        omega
      | _ => trivial
    obtain ⟨-, k', hk', hinv⟩ := inv_step h (by omega) hc
    exact ⟨trivial, hc, ih hinv (by omega)⟩

/-- **Replies are accepted exactly once.**  For every sequence of calls with fewer than `2 ^ 64`
begins: every call does what it may, and the table is right throughout, if and only if `reqBegin`
never takes the id 0 (`unwrapped_of_inv`: the first `2 ^ 64 - firstId` requests do not). -/
theorem requests_exactly_once (peerGeneration : BitVec 32) (firstId : BitVec 64)
    (ops : List ReqOp) (hops : begins ops < 2 ^ 64) :
    (start peerGeneration firstId).Exact ops ↔ (start peerGeneration firstId).Unwrapped ops :=
  ⟨unwrapped_of_exact ops, exact_of_inv ops (inv_start ..) (by omega)⟩

def replyTo (id : BitVec 64) : MsgHdr := { MsgHdr.zero with requestId := id, generation := 5 }

/-- Two requests; the first is answered twice, the second is answered after it has expired. -/
def answeredTwice : List ReqOp :=
  [.begin 7, .begin 8, .complete (replyTo 100), .complete (replyTo 100), .expire 8, .complete (replyTo 101)]

theorem requests_exactly_once_two :
    (start 5 100).Exact answeredTwice ∧ (answeredTwice.foldl step (start 5 100)).delivered = [100] :=
  ⟨(requests_exactly_once 5 100 _ (by decide)).2
    (unwrapped_of_inv _ (inv_start ..) (by decide) (by decide)), by decide⟩

/-- From the largest id on, the second request gets the id 0 while 15 slots are free. -/
theorem begin_returns_zero :
    (((start 5 (BitVec.allOnes 64)).step (.begin 7)).tab.reqBegin 8).1 = 0 ∧
      ¬((start 5 (BitVec.allOnes 64)).step (.begin 7)).tab.Occupied ⟨1, by decide⟩ ∧
      ¬(start 5 (BitVec.allOnes 64)).Exact [.begin 7, .begin 8] := by
  refine ⟨by decide, by decide, fun h => ?_⟩
  have hfull := ((callOk_begin 8).1 h.2.2.2.1).1.1 (by decide)
  exact absurd (hfull ⟨1, by decide⟩) (by decide)

end Session

end Win98Modern.Shz
