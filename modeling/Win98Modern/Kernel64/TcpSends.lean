import Win98Modern.Kernel64.TcpCalls
import Mathlib.Tactic.Common

/-!
# What sending leaves

Segments that go out, acknowledgements and timers change how a connection sends.  They leave the lists, the
received bytes and the segments held, the handshake is not undone, and the right edge of the window moves up
to what fits only (`Tcb.Sends`).
-/

namespace Win98Modern.Tcp

section Relations

variable {n n' n'' : Net} {t t' t'' : Tcb} {i : Id} {R R' : Tcb → Tcb → Prop} {s s' s'' : Tcps}

/-- The handshake is not undone: a half-open connection stays or ends, and an ended one stays. -/
def Later (s s' : Tcps) : Prop :=
  s' = s ∨ (s ≠ .closed ∧ s' ≠ .synSent ∧ s' ≠ .synRcvd ∧ (s = .synRcvd → s' = .closed))

theorem Later.refl (s : Tcps) : Later s s := .inl rfl

theorem Later.trans (h : Later s s') (h' : Later s' s'') : Later s s'' := by
  obtain rfl | ⟨h1, h2, h3, h4⟩ := h
  · exact h'
  · obtain rfl | ⟨h5, h6, h7, -⟩ := h'
    · exact .inr ⟨h1, h2, h3, h4⟩
    · exact .inr ⟨h1, h6, h7, fun e => absurd (h4 e) h5⟩

theorem later_closed (s : Tcps) : Later s .closed := by
  by_cases h : s = .closed
  · exact .inl h.symm
  · exact .inr ⟨h, nofun, nofun, fun _ => rfl⟩

/-- What the lists rest on. -/
structure Tcb.Kept (t t' : Tcb) : Prop where
  sock : t'.sock = t.sock
  parent : t'.parent = t.parent
  queued : t'.queued = t.queued
  wasEst : t'.wasEst = t.wasEst
  later : Later t.state t'.state

theorem Tcb.Kept.refl (t : Tcb) : t.Kept t := ⟨rfl, rfl, rfl, rfl, Later.refl _⟩

theorem Tcb.Kept.trans (h : t.Kept t') (h' : t'.Kept t'') : t.Kept t'' :=
  ⟨h'.sock.trans h.sock, h'.parent.trans h.parent, h'.queued.trans h.queued, h'.wasEst.trans h.wasEst,
    h.later.trans h'.later⟩

/-- How far the right edge of the window is ahead. -/
def Tcb.ahead (t : Tcb) : Nat := (t.rcvAdv - t.rcvNxt).toNat

/-- What is received and held stays, and the right edge moves up to what fits. -/
structure Tcb.Sends (t t' : Tcb) : Prop extends Tcb.Kept t t' where
  rcvNxt : t'.rcvNxt = t.rcvNxt
  rcvq : t'.rcvq = t.rcvq
  ooo : t'.ooo = t.ooo
  oooBytes : t'.oooBytes = t.oooBytes
  fits : t'.rcvAdv = t.rcvAdv ∨ (t'.ahead ≤ bqSpace t.rcvq ∧ t'.ahead ≤ 65535)
  forward : t.ahead ≤ 65535 → t.ahead ≤ t'.ahead

theorem Tcb.Sends.refl (t : Tcb) : t.Sends t :=
  ⟨Tcb.Kept.refl t, rfl, rfl, rfl, rfl, .inl rfl, fun _ => Nat.le_refl _⟩

theorem Tcb.Sends.ahead_le (h : t.Sends t') (ha : t.ahead ≤ 65535) : t'.ahead ≤ 65535 := by
  obtain e | e := h.fits
  · rwa [Tcb.ahead, e, h.rcvNxt]
  · exact e.2

theorem Tcb.Sends.trans (h : t.Sends t') (h' : t'.Sends t'') : t.Sends t'' where
  toKept := h.toKept.trans h'.toKept
  rcvNxt := h'.rcvNxt.trans h.rcvNxt
  rcvq := h'.rcvq.trans h.rcvq
  ooo := h'.ooo.trans h.ooo
  oooBytes := h'.oooBytes.trans h.oooBytes
  fits := by
    obtain e' | e' := h'.fits
    · rw [Tcb.ahead, h'.rcvNxt, e']
      exact h.fits
    · rw [h.rcvq] at e'
      exact .inr e'
  forward := fun ha => Nat.le_trans (h.forward ha) (h'.forward (h.ahead_le ha))

/-- What `Sends` is about. -/
def Tcb.core (t : Tcb) :
    Option SockId × Option SockId × Bool × Bool × UInt32 × UInt32 × Queue × List Ooo × Nat :=
  (t.sock, t.parent, t.queued, t.wasEst, t.rcvNxt, t.rcvAdv, t.rcvq, t.ooo, t.oooBytes)

theorem Tcb.Sends.of_core (h : t'.core = t.core) (hl : Later t.state t'.state) : t.Sends t' := by
  simp only [Tcb.core, Prod.mk.injEq] at h
  obtain ⟨h1, h2, h3, h4, h5, h6, h7, h8, h9⟩ := h
  refine ⟨⟨h1, h2, h3, h4, hl⟩, h5, h7, h8, h9, .inl h6, fun _ => Nat.le_of_eq ?_⟩
  rw [Tcb.ahead, Tcb.ahead, h5, h6]

/-- One connection is changed by `R`; the lists and the sockets stay. -/
structure Touches (R : Tcb → Tcb → Prop) (i : Id) (n n' : Net) : Prop where
  tcbs : n'.tcbs = n.tcbs
  heap : n'.heap = n.heap
  acc : n'.acc = n.acc
  sock : n'.sock = n.sock
  socks : n'.socks = n.socks
  other : ∀ j, j ≠ i → n'.tcb j = n.tcb j
  self : R (n.tcb i) (n'.tcb i)

theorem Touches.refl (hR : ∀ t, R t t) (n : Net) : Touches R i n n := ⟨rfl, rfl, rfl, rfl, rfl, fun _ _ => rfl, hR _⟩

theorem Touches.trans (hR : ∀ {t t' t''}, R t t' → R t' t'' → R t t'') (h : Touches R i n n')
    (h' : Touches R i n' n'') : Touches R i n n'' where
  tcbs := h'.tcbs.trans h.tcbs
  heap := h'.heap.trans h.heap
  acc := h'.acc.trans h.acc
  sock := h'.sock.trans h.sock
  socks := h'.socks.trans h.socks
  other := fun j hj => (h'.other j hj).trans (h.other j hj)
  self := hR h.self h'.self

theorem Touches.kept_trans (h : Touches Tcb.Kept i n n') (h' : Touches Tcb.Kept i n' n'') :
    Touches Tcb.Kept i n n'' :=
  Touches.trans Tcb.Kept.trans h h'

theorem Touches.mono (h : Touches R i n n') (hR : R (n.tcb i) (n'.tcb i) → R' (n.tcb i) (n'.tcb i)) :
    Touches R' i n n' :=
  ⟨h.tcbs, h.heap, h.acc, h.sock, h.socks, h.other, hR h.self⟩

@[simp] theorem setTcb_self (n : Net) (i : Id) (t : Tcb) : (n.setTcb i t).tcb i = t := Function.update_self ..

theorem setTcb_of_ne (n : Net) {i j : Id} (t : Tcb) (h : j ≠ i) : (n.setTcb i t).tcb j = n.tcb j :=
  Function.update_of_ne h ..

theorem touches_setTcb (h : R (n.tcb i) t) : Touches R i n (n.setTcb i t) :=
  ⟨rfl, rfl, rfl, rfl, rfl, fun _ hj => setTcb_of_ne n t hj, (setTcb_self n i t).symm ▸ h⟩

theorem touches_modTcb {f : Tcb → Tcb} (h : R (n.tcb i) (f (n.tcb i))) : Touches R i n (n.modTcb i f) :=
  touches_setTcb h

abbrev Sends (i : Id) (n n' : Net) : Prop := Touches Tcb.Sends i n n'

theorem Sends.refl (n : Net) : Sends i n n := Touches.refl Tcb.Sends.refl n

theorem Sends.trans (h : Sends i n n') (h' : Sends i n' n'') : Sends i n n'' :=
  Touches.trans Tcb.Sends.trans h h'

theorem sends_setTcb (h : t.core = (n.tcb i).core) (hl : Later (n.tcb i).state t.state) : Sends i n (n.setTcb i t) :=
  touches_setTcb (Tcb.Sends.of_core h hl)

theorem sends_modTcb {f : Tcb → Tcb} (h : ∀ t, (f t).core = t.core) (hl : ∀ t, Later t.state (f t).state) :
    Sends i n (n.modTcb i f) :=
  sends_setTcb (h _) (hl _)

theorem Sends.after_set (h : Sends i (n.setTcb i t) n') (hc : t.core = (n.tcb i).core)
    (hl : Later (n.tcb i).state t.state) : Sends i n n' :=
  (sends_setTcb hc hl).trans h

theorem Sends.mod {f : Tcb → Tcb} (h : Sends i n n') (hc : ∀ t, (f t).core = t.core)
    (hl : ∀ t, Later t.state (f t).state) : Sends i n (n'.modTcb i f) :=
  h.trans (sends_modTcb hc hl)

theorem sends_ipOutput (n : Net) (i : Id) (p : Packet) : Sends i n (n.ipOutput p) :=
  ⟨rfl, rfl, rfl, rfl, rfl, fun _ _ => rfl, Tcb.Sends.refl _⟩

end Relations

/-! ### Windows -/

section Windows

variable (t : Tcb)

theorem rcvWindow_le_space : rcvWindow t ≤ bqSpace t.rcvq := by
  simp only [rcvWindow]
  split_ifs <;> omega

theorem rcvWindow_le : rcvWindow t ≤ 65535 := by
  simp only [rcvWindow]
  split_ifs <;> omega

theorem toNat_ofNat {k : Nat} (h : k < 2 ^ 32) : (UInt32.ofNat k).toNat = k := UInt32.toNat_ofNat_of_lt' h

theorem seqGT_iff (a b : UInt32) : SEQ_GT a b ↔ 0 < (a - b).toNat ∧ (a - b).toNat < 2 ^ 31 := by
  have h : a = b ↔ (a - b).toNat = 0 := by
    rw [← UInt32.toNat_inj, UInt32.toNat_sub]
    have ha := a.toNat_lt
    have hb := b.toNat_lt
    omega
  simp only [SEQ_GT, SEQ_LEQ, SEQ_LT, Bool.not_eq_true', Bool.or_eq_false_iff, decide_eq_false_iff_not,
    beq_eq_false_iff_ne, ne_eq, h]
  omega

theorem add_sub_self (a b : UInt32) : a + b - a = b := by
  rw [UInt32.add_comm, UInt32.add_sub_cancel]

/-- The right edge moves up to what fits. -/
theorem sends_advertise : t.Sends { t with rcvAdv := advertise t (rcvWindow t) } := by
  have hle := rcvWindow_le t
  have hwin : (t.rcvNxt + UInt32.ofNat (rcvWindow t) - t.rcvNxt).toNat = rcvWindow t := by
    rw [add_sub_self, toNat_ofNat (by omega)]
  refine ⟨⟨rfl, rfl, rfl, rfl, .inl rfl⟩, rfl, rfl, rfl, rfl, ?_, fun ha => ?_⟩
  · simp only [advertise]
    split
    · refine .inr ?_
      rw [Tcb.ahead, hwin]
      exact ⟨rcvWindow_le_space t, hle⟩
    · exact .inl rfl
  · simp only [advertise, Tcb.ahead]
    split
    · rename_i hgt
      obtain ⟨-, hlt⟩ := (seqGT_iff _ _).1 hgt
      rw [Tcb.ahead, UInt32.toNat_sub] at ha
      rw [UInt32.toNat_sub, UInt32.toNat_add, toNat_ofNat (by omega)] at hlt
      rw [UInt32.toNat_sub]
      have hadv := t.rcvAdv.toNat_lt
      have hnxt := t.rcvNxt.toNat_lt
      omega
    · exact Nat.le_refl _

end Windows

/-! ### Segments that go out -/

section Local

variable (n : Net) (i : Id)

theorem sends_acked (t : Tcb) (flags : Flags) :
    t.Sends (if flags.ack then { t with ackPending := false, ackNow := false, ackDeadline := 0, rxUnacked := 0 }
      else t) := by
  split
  · exact Tcb.Sends.of_core rfl (.inl rfl)
  · exact Tcb.Sends.refl _

theorem sends_xmit (seq : UInt32) (flags : Flags) (off len : Nat) (mssOpt : Option UInt32) :
    Sends i n (xmit n i seq flags off len mssOpt) := by
  refine (sends_ipOutput n i _).trans (touches_setTcb (Tcb.Sends.trans ?_ (sends_acked _ flags)))
  cases mssOpt with
  | some m => exact Tcb.Sends.refl _
  | none => exact sends_advertise _

theorem sends_sendAck : Sends i n (sendAck n i) := sends_xmit ..

theorem sends_sendSyn (withAck : Bool) : Sends i n (sendSyn n i withAck) := sends_xmit ..

theorem sends_sendRstConn : Sends i n (sendRstConn n i) := sends_ipOutput ..

theorem sends_replyRst (j : Id) (lip rip : Ip) (lport rport : Port) (seq ack : UInt32) (flags : Flags)
    (slen : UInt32) : Sends j n (replyRst n lip rip lport rport seq ack flags slen) := sends_ipOutput ..

theorem later_sentSegment (len : UInt32) (fin : Bool) (t : Tcb) : Later t.state (sentSegment n len fin t).state := by
  simp only [sentSegment]
  split
  · cases hs : t.state <;> simp [Later]
  · exact Later.refl _

theorem sends_outputLoop (fuel : Nat) (n : Net) (probe : Bool) : Sends i n (outputLoop i fuel n probe) := by
  induction fuel generalizing n with
  | zero => exact Sends.refl n
  | succ fuel ih =>
    simp only [outputLoop]
    split
    · exact Sends.refl n
    · split
      · exact Sends.refl n
      · split
        · exact (sends_xmit ..).mod (fun _ => rfl) fun _ => Later.refl _
        · have hsent := (sends_xmit n i (n.tcb i).sndNxt
            { ack := true
              psh := (nextSegment n (n.tcb i) probe).1 != 0 && (nextSegment n (n.tcb i) probe).1 ==
                (n.tcb i).sndUna + UInt32.ofNat (n.tcb i).sndq.data.length - (n.tcb i).sndNxt
              fin := (nextSegment n (n.tcb i) probe).2.2 }
            ((n.tcb i).sndNxt - (n.tcb i).sndUna).toNat (nextSegment n (n.tcb i) probe).1.toNat none).trans
            (sends_modTcb (f := sentSegment n (nextSegment n (n.tcb i) probe).1 (nextSegment n (n.tcb i) probe).2.2)
              (fun _ => rfl) (later_sentSegment _ _ _))
          split
          · exact hsent
          · exact hsent.trans (ih ..)

theorem sends_tcpOutputEx (probe : Bool) : Sends i n (tcpOutputEx n i probe) := by
  simp only [tcpOutputEx]
  split
  · refine (sends_outputLoop ..).trans (sends_modTcb (fun t => ?_) fun t => ?_)
    · simp only [armPersist]
      split <;> rfl
    · simp only [armPersist]
      split <;> exact Later.refl _
  · exact Sends.refl n

theorem sends_tcpOutput : Sends i n (tcpOutput n i) := sends_tcpOutputEx n i false

theorem sends_retransmitOne : Sends i n (retransmitOne n i).1 := by
  have hset : Sends i n (n.setTcb i { n.tcb i with rttTiming := false }) := sends_setTcb rfl (Later.refl _)
  simp only [retransmitOne]
  split
  · exact hset.trans (sends_sendSyn ..)
  · split
    · exact hset.trans (sends_sendSyn ..)
    · split
      · exact hset.trans (sends_xmit ..)
      · split
        · exact hset.trans (sends_xmit ..)
        · exact hset

theorem sends_tcpKeepaliveChanged : Sends i n (tcpKeepaliveChanged n i) := by
  simp only [tcpKeepaliveChanged]
  split
  · exact sends_setTcb rfl (Later.refl _)
  · exact sends_setTcb rfl (Later.refl _)

theorem sends_tcpShutdownWrite : Sends i n (tcpShutdownWrite n i) := by
  simp only [tcpShutdownWrite]
  split_ifs
  · exact Sends.refl n
  · exact (sends_tcpOutput ..).after_set rfl (Later.refl _)
  · exact Sends.refl n

theorem sends_tcpAfterRead : Sends i n (tcpAfterRead n i) := by
  simp only [tcpAfterRead]
  split_ifs
  · exact sends_sendAck n i
  · exact Sends.refl n
  · exact Sends.refl n

theorem sends_segmentOutput : Sends i n (segmentOutput n i) := by
  simp only [segmentOutput]
  split
  · exact (sends_tcpOutput n i).trans (sends_sendAck ..)
  · exact sends_tcpOutput n i

/-! ### Acknowledgements -/

theorem core_rttSample (t : Tcb) (r : UInt32) : (rttSample t r).core = t.core ∧ (rttSample t r).state = t.state := by
  simp only [rttSample]
  split
  · exact ⟨rfl, rfl⟩
  · exact ⟨rfl, rfl⟩

theorem core_handshakeSample (t : Tcb) (ack : UInt32) (now : Nat) :
    (handshakeSample t ack now).core = t.core ∧ (handshakeSample t ack now).state = t.state := by
  simp only [handshakeSample]
  split
  · exact core_rttSample ..
  · exact ⟨rfl, rfl⟩

theorem core_ackBytes (t : Tcb) (ack : UInt32) (now : Nat) :
    (ackBytes t ack now).1.core = t.core ∧ (ackBytes t ack now).1.state = t.state := by
  simp only [ackBytes]
  split
  · exact core_rttSample ..
  · exact ⟨rfl, rfl⟩

theorem core_windowUpdate (g : Segment) (t : Tcb) :
    (windowUpdate g t).core = t.core ∧ (windowUpdate g t).state = t.state := by
  simp only [windowUpdate]
  split
  · exact ⟨rfl, rfl⟩
  · exact ⟨rfl, rfl⟩

theorem sends_same {t : Tcb} (h : t.core = (n.tcb i).core ∧ t.state = (n.tcb i).state) : Sends i n (n.setTcb i t) :=
  sends_setTcb h.1 (.inl h.2)

theorem core_restartRtx (t : Tcb) (now : Nat) :
    (restartRtx now t).core = t.core ∧ (restartRtx now t).state = t.state := by
  simp only [restartRtx]
  split
  · exact ⟨rfl, rfl⟩
  · exact ⟨rfl, rfl⟩

theorem sends_resend : Sends i n (resend n i) :=
  Sends.mod (f := fun u => { u with sndNxt := (n.tcb i).sndNxt })
    ((sends_retransmitOne ..).after_set rfl (Later.refl _)) (fun _ => rfl) fun _ => Later.refl _

theorem sends_dupAck : Sends i n (dupAck n i) := by
  have hcount : Sends i n (n.modTcb i fun t => { t with dupacks := t.dupacks + 1 }) :=
    sends_modTcb (fun _ => rfl) fun _ => Later.refl _
  simp only [dupAck]
  refine hcount.trans ?_
  split_ifs
  · refine Sends.mod ?_ (fun _ => rfl) fun _ => Later.refl _
    exact (sends_resend ..).after_set rfl (Later.refl _)
  · exact (sends_tcpOutput ..).after_set rfl (Later.refl _)
  · exact Sends.refl _

/-- What an acknowledgement of new bytes does before it wakes the writers. -/
theorem newAck_eq (notify : Net → Net) (g : Segment) :
    ∃ m, Sends i n m ∧ newAck notify n i g = tcbNotify notify m i := by
  refine ⟨_, ?_, rfl⟩
  refine Sends.mod ?_ (fun t => (core_restartRtx t _).1) fun t => .inl (core_restartRtx t _).2
  refine (sends_same n i (core_ackBytes (n.tcb i) g.ack n.now)).trans ?_
  split_ifs
  · exact sends_modTcb (fun _ => rfl) fun _ => Later.refl _
  · exact Sends.mod (sends_resend ..) (fun _ => rfl) fun _ => Later.refl _
  · exact sends_modTcb (fun _ => rfl) fun _ => Later.refl _

theorem sends_persistTimeout : Sends i n (persistTimeout n i) := by
  simp only [persistTimeout]
  split
  · exact (sends_tcpOutputEx ..).mod (fun _ => rfl) fun _ => Later.refl _
  · exact sends_setTcb rfl (Later.refl _)

end Local

end Win98Modern.Tcp
