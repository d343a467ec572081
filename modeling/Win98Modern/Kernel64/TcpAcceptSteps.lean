import Win98Modern.Kernel64.TcpAccept

/-!
# Segments, timers and calls

Each step of the connections is fine, but for a SYN that a listener takes.
-/

namespace Win98Modern.Tcp

open List Fine Tcb

/-! ### Closing a socket -/

section Closing

variable {n n' n'' : Net} {s : SockId}

/-- Connections are freed and the others stay. -/
structure Sheds (n n' : Net) : Prop where
  tcbs : n'.tcbs.Sublist n.tcbs
  kept : ∀ t ∈ n'.tcbs, n'.tcb t = n.tcb t
  socks : n'.socks = n.socks
  listening : ∀ k, (n'.sock k).listening = (n.sock k).listening
  accCount : ∀ k, (n'.sock k).accCount ≤ (n.sock k).accCount

theorem Sheds.refl (n : Net) : Sheds n n := ⟨List.Sublist.refl _, fun _ _ => rfl, rfl, fun _ => rfl, fun _ => Nat.le_refl _⟩

theorem Sheds.trans (h : Sheds n n') (h' : Sheds n' n'') : Sheds n n'' where
  tcbs := h'.tcbs.trans h.tcbs
  kept := fun t ht => (h'.kept t ht).trans (h.kept t (h'.tcbs.subset ht))
  socks := h'.socks.trans h.socks
  listening := fun k => (h'.listening k).trans (h.listening k)
  accCount := fun k => Nat.le_trans (h'.accCount k) (h.accCount k)

theorem Frees.sheds {i : Id} (h : Frees i n n') (hnd : n.tcbs.Nodup) : Sheds n n' where
  tcbs := h.tcbs ▸ erase_sublist
  kept := fun t ht => h.other t (hnd.mem_erase_iff.1 (h.tcbs ▸ ht)).1
  socks := h.socks
  listening := h.listening
  accCount := h.accCount

theorem Sheds.pending_le (h : Sheds n n') (l : SockId) : pending n' l ≤ pending n l := by
  refine Tcp.pending_le (h.accCount l) h.tcbs fun t ht hp hs => ?_
  rw [h.kept t ht] at hp hs
  exact ⟨hp, hs⟩

theorem freeChildren {Q : SockId → List Id} (cs : List Id) (hQ : Wf n Q) (hcs : cs.Nodup)
    (hmem : ∀ c ∈ cs, c ∈ n.tcbs) :
    (∃ Q', Wf (cs.foldl (freeChild s) n) Q') ∧ Sheds n (cs.foldl (freeChild s) n) ∧
      ∀ c ∈ cs, c ∈ (cs.foldl (freeChild s) n).tcbs → (n.tcb c).parent ≠ some s := by
  induction cs generalizing n Q with
  | nil => exact ⟨⟨Q, hQ⟩, Sheds.refl n, nofun⟩
  | cons c cs ih =>
    rw [nodup_cons] at hcs
    rw [foldl_cons]
    by_cases hp : (n.tcb c).parent = some s
    · obtain ⟨m, hm, hout⟩ : ∃ m, freeChild s n c = tcbFree m c ∧ ∃ out, m = { n with out := out } := by
        simp only [freeChild, hp, if_true]
        split
        · exact ⟨_, rfl, _, rfl⟩
        · exact ⟨n, rfl, n.out, rfl⟩
      obtain ⟨out, rfl⟩ := hout
      have hQm : Wf { n with out := out } Q := ⟨hQ.nodup, hQ.heap, hQ.family, hQ.tail, hQ.count, hQ.mem, hQ.child⟩
      have hc : c ∈ n.tcbs := hmem c mem_cons_self
      obtain ⟨Q₁, hQ₁⟩ := hQm.tcbFree hc
      have hf := frees_tcbFree { n with out := out } c
      have hs : Sheds n (freeChild s n c) := by
        rw [hm]
        have hs := hf.sheds hQm.nodup
        exact ⟨hs.tcbs, hs.kept, hs.socks, hs.listening, hs.accCount⟩
      rw [hm] at hs ⊢
      obtain ⟨hex, hsheds, hnone⟩ := ih hQ₁ hcs.2 fun d hd => by
        rw [hf.tcbs, hQm.nodup.mem_erase_iff]
        exact ⟨fun e => hcs.1 (e ▸ hd), hmem d (mem_cons_of_mem _ hd)⟩
      refine ⟨hex, hs.trans hsheds, fun d hd hdm => ?_⟩
      obtain rfl | hd := mem_cons.1 hd
      · have := hsheds.tcbs.subset hdm
        rw [hf.tcbs, hQm.nodup.mem_erase_iff] at this
        exact absurd rfl this.1
      · have hne : d ≠ c := fun e => hcs.1 (e ▸ hd)
        rw [← hf.other d hne]
        exact hnone d hd hdm
    · have hskip : freeChild s n c = n := by simp only [freeChild, hp, if_false]
      rw [hskip]
      obtain ⟨hex, hsheds, hnone⟩ := ih hQ hcs.2 fun d hd => hmem d (mem_cons_of_mem _ hd)
      refine ⟨hex, hsheds, fun d hd hdm => ?_⟩
      obtain rfl | hd := mem_cons.1 hd
      · exact hp
      · exact hnone d hd hdm

theorem closeListener {Q : SockId → List Id} (notify : Net → Net) (hQ : Wf n Q)
    (hc : Children n fun l => l ≠ s → l ∈ n.socks ∧ (n.sock l).listening) (hl : (n.sock s).listening) :
    Inv (tcpSockClosed notify n s) ∧ ∀ l, pending (tcpSockClosed notify n s) l ≤ pending n l := by
  have hQ' : Wf (n.setSock s fun s => { s with listening := false }) Q := hQ.setSock rfl rfl
  obtain ⟨hex, hsheds, hnone⟩ := freeChildren (s := s) _ hQ' hQ'.nodup fun _ hc => hc
  have hsock : ∀ l, ((n.setSock s fun s => { s with listening := false }).sock l).accCount = (n.sock l).accCount := by
    intro l
    by_cases hls : l = s
    · subst hls
      rw [setSock_self]
    · rw [setSock_of_ne _ _ hls]
  simp only [tcpSockClosed, hl, if_true]
  refine ⟨⟨hex, fun t ht l hp => ?_⟩, fun l => Nat.le_trans (hsheds.pending_le l) ?_⟩
  · have htn := hsheds.tcbs.subset ht
    rw [hsheds.kept t ht] at hp
    have hls : l ≠ s := by
      rintro rfl
      exact hnone t htn ht hp
    obtain ⟨hsocks, hlistening⟩ := hc t htn l hp hls
    exact ⟨hsheds.socks.symm ▸ hsocks,
      (hsheds.listening l).trans ((congrArg Sock.listening (setSock_of_ne _ _ hls)).trans hlistening)⟩
  · exact Tcp.pending_le (Nat.le_of_eq (hsock l)) (List.Sublist.refl _) fun _ _ hp hs => ⟨hp, hs⟩

end Closing

section Steps

variable {notify : Net → Net} (hn : ∀ n, Fine n (notify n)) (n : Net) (i : Id)

include hn

theorem fine_closeSocket (s : SockId) (hl : (n.sock s).listening = false) : Fine n (tcpSockClosed notify n s) := by
  simp only [tcpSockClosed, hl, Bool.false_eq_true, if_false]
  split
  · exact refl n
  · rename_i i _
    refine trans ?_ (fine_tcbOrphaned hn _ i _)
    exact (fine_disown n i).trans (fine_setSock rfl rfl rfl)

theorem fine_tcpSockClosed (s : SockId) : Fine n (tcpSockClosed notify n s) := by
  cases hl : (n.sock s).listening with
  | false => exact fine_closeSocket hn n s hl
  | true =>
    refine ⟨fun h => ?_⟩
    obtain ⟨Q, hQ⟩ := h.queues
    exact closeListener notify hQ (h.children.mono fun l hs _ => hs) hl

omit hn in
/-- A connection that is taken off an accept queue gets an owner. -/
theorem fine_dequeue {n n' : Net} {l : SockId} {t : Id} (hd : tcpAcceptDequeue n l = some (t, n')) :
    Fine n n' ∧ (Inv n → (n'.tcb t).parent = none) := by
  refine ⟨⟨fun h => ?_⟩, fun h => ?_⟩
  · obtain ⟨Q, hQ⟩ := h.queues
    obtain ⟨hex, -, -, hself, hother, htcbs, hsocks, hlistening, hcount⟩ := hQ.dequeue hd
    refine ⟨⟨hex, fun j hj k hp => ?_⟩, fun k => ?_⟩
    · by_cases he : j = t
      · subst he
        rw [hself] at hp
        cases hp
      · rw [hother j he] at hp
        rw [hsocks, hlistening]
        exact h.children j (htcbs ▸ hj) k hp
    · refine Tcp.pending_le (hcount k) (htcbs ▸ List.Sublist.refl _) fun j _ hp hs => ?_
      by_cases he : j = t
      · subst he
        rw [hself] at hp
        cases hp
      · rw [hother j he] at hp hs
        exact ⟨hp, hs⟩
  · obtain ⟨Q, hQ⟩ := h.queues
    obtain ⟨-, -, -, hself, -⟩ := hQ.dequeue hd
    rw [hself]
    rfl

omit hn in
theorem fine_adopt (l s : SockId) (t : Id) (hp : (n.tcb t).parent = none) : Fine n (adopt n l s t) :=
  trans (fine_setSock rfl rfl rfl) (fine_setTcb_of_parent (n := n.setSock s _) hp hp)

omit hn in
theorem fine_readFrom (s : SockId) (k : Nat) : Fine n (readFrom n s k) := by
  simp only [readFrom]
  split
  · exact refl n
  · rename_i i _
    split
    · exact refl n
    · exact (fine_modTcb ⟨rfl, rfl, rfl, rfl, Later.refl _⟩).trans (sends_tcpAfterRead _ i).fine_of_sends

omit hn in
theorem fine_usedRoom : Fine n n.usedRoom := fine_rest

omit hn in
theorem fine_writeTo (s : SockId) (data : List Byte) : Fine n (writeTo n s data) := by
  simp only [writeTo]
  split
  · exact refl n
  · rename_i i _
    split
    · have hset : Fine n ((n.setTcb i { n.tcb i with
          sndq := (bqWrite (n.tcb i).sndq data (n.room data.length)).1 }).usedRoom) := by
        refine trans ?_ (fine_usedRoom _)
        exact fine_setTcb ⟨rfl, rfl, rfl, rfl, Later.refl _⟩
      split
      · exact hset
      · exact hset.trans (sends_tcpOutput _ i).fine_of_sends
    · exact refl n

theorem fine_runRequest (r : Request) : Fine n (runRequest notify n r) := by
  cases r with
  | attach l s =>
    simp only [runRequest]
    split
    · cases hd : tcpAcceptDequeue n l with
      | none => exact refl n
      | some r =>
        obtain ⟨t, m⟩ := r
        obtain ⟨hf, hp⟩ := fine_dequeue hd
        exact ⟨fun h => (hf.trans (fine_adopt m l s t (hp h))).keeps h⟩
    · exact refl n
  | read s k =>
    simp only [runRequest]
    split
    · exact refl n
    · exact fine_readFrom n s k
  | write s data =>
    simp only [runRequest]
    split
    · exact refl n
    · exact fine_writeTo n s data
  | abandon s accepting =>
    simp only [runRequest]
    refine trans ?_ (fine_setSock ?_ ?_ ?_)
    · split
      · exact (fine_tcpAbort hn n _ true).trans (fine_tcpSockClosed hn _ s)
      · exact refl n
    all_goals split <;> rfl

theorem fine_runRequests : Fine n (runRequests notify n) := by
  simp only [runRequests]
  split
  · exact refl n
  · exact trans fine_rest (foldl (fine_runRequest hn) _ _)

/-! ### Segments -/

omit hn in
/-- A child whose handshake is over goes to the end of the queue. -/
theorem fine_handOver (hi : i ∈ n.tcbs) (hs : (n.tcb i).state = .synSent ∨ (n.tcb i).state = .synRcvd)
    (seq ack wnd : UInt32) : Fine n (handOver (n.modTcb i (opened seq ack wnd)) i) := by
  have hopened : (n.modTcb i (opened seq ack wnd)).tcb i = (n.tcb i).opened seq ack wnd := setTcb_self ..
  refine ⟨fun h => ?_⟩
  cases hp : (n.tcb i).parent with
  | none =>
    have e : handOver (n.modTcb i (opened seq ack wnd)) i = n.modTcb i (opened seq ack wnd) := by
      rw [handOver, hopened, show ((n.tcb i).opened seq ack wnd).parent = none from hp]
    rw [e]
    exact (fine_setTcb_of_parent (t := (n.tcb i).opened seq ack wnd) hp hp).keeps h
  | some l =>
    have e : handOver (n.modTcb i (opened seq ack wnd)) i =
        acceptqAppend (n.modTcb i (opened seq ack wnd)) l i := by
      rw [handOver, hopened, show ((n.tcb i).opened seq ack wnd).parent = some l from hp]
    have hrcvd : (n.tcb i).state = .synRcvd := by
      refine hs.resolve_left fun hsent => ?_
      rw [h.parent_of_synSent hi hsent] at hp
      cases hp
    have hq := h.queued_of_synRcvd hi hrcvd hp
    obtain ⟨Q, hQ⟩ := h.queues
    have ha := acceptqAppend_appends (n.modTcb i (opened seq ack wnd)) l i
    rw [e]
    generalize acceptqAppend (n.modTcb i (opened seq ack wnd)) l i = m at ha
    have hself : m.tcb i = { (n.tcb i).opened seq ack wnd with queued := true } :=
      ha.self.trans (congrArg (fun c : Tcb => { c with queued := true }) hopened)
    have hother : ∀ j, j ≠ i → m.tcb j = n.tcb j := fun j hj => (ha.other j hj).trans (setTcb_of_ne n _ hj)
    have htcbs : m.tcbs = n.tcbs := ha.tcbs
    have hlistening : ∀ k, (m.sock k).listening = (n.sock k).listening := by
      intro k
      by_cases hk : k = l
      · subst hk
        rw [ha.sock]
        rfl
      · rw [ha.sockOther k hk]
        rfl
    refine ⟨⟨⟨_, hQ.append (t := (n.tcb i).opened seq ack wnd) hi hp hq hp (hQ.child i hi l hp).sock rfl rfl ha⟩,
      fun j hj k hk => ?_⟩, fun k => ?_⟩
    · have hchild : (n.tcb j).parent = some k := by
        by_cases he : j = i
        · subst he
          rw [hself] at hk
          exact hk
        · rwa [hother j he] at hk
      obtain ⟨hsocks, hl⟩ := h.children j (htcbs ▸ hj) k hchild
      exact ⟨ha.socks.symm ▸ hsocks, (hlistening k).trans hl⟩
    · by_cases hk : k = l
      · subst hk
        have hlt := halfOpen_lt hi hp hrcvd htcbs (by rw [hself]; exact nofun) hother
        have hcount : (m.sock k).accCount = (n.sock k).accCount + 1 := by
          rw [ha.sock]
          rfl
        rw [pending, pending, hcount]
        omega
      · refine Tcp.pending_le (Nat.le_of_eq ?_) (htcbs ▸ List.Sublist.refl _) fun j _ hj hjs => ?_
        · rw [ha.sockOther k hk]
          rfl
        · by_cases he : j = i
          · subst he
            rw [hself] at hjs
            exact nomatch hjs
          · rw [hother j he] at hj hjs
            exact ⟨hj, hjs⟩

theorem fine_established (hi : i ∈ n.tcbs) (hs : (n.tcb i).state = .synSent ∨ (n.tcb i).state = .synRcvd)
    (seq ack wnd : UInt32) : Fine n (established notify n i seq ack wnd) := by
  refine trans ?_ (fine_tcbNotify hn _ i)
  exact (fine_handOver n i hi hs seq ack wnd).trans (sends_tcpKeepaliveChanged _ i).fine_of_sends

theorem fine_gotReset (hi : i ∈ n.tcbs) : Fine n (gotReset notify n i) := by
  simp only [gotReset]
  split
  · exact fine_tcbFree hi
  · exact fine_tcbDie hn n i _

theorem fine_opened (hi : i ∈ n.tcbs) (hs : (n.tcb i).state = .synSent ∨ (n.tcb i).state = .synRcvd)
    (g : Segment) :
    Fine n (established notify (n.modTcb i fun t => handshakeSample t g.ack n.now) i g.seq g.ack g.wnd) := by
  have hsample := core_handshakeSample (n.tcb i) g.ack n.now
  have hset : Fine n (n.modTcb i fun t => handshakeSample t g.ack n.now) := (sends_same n i hsample).fine_of_sends
  have hself : (n.modTcb i fun t => handshakeSample t g.ack n.now).tcb i = handshakeSample (n.tcb i) g.ack n.now :=
    setTcb_self ..
  have hstate : ((n.modTcb i fun t => handshakeSample t g.ack n.now).tcb i).state = (n.tcb i).state :=
    (congrArg state hself).trans hsample.2
  exact hset.trans (fine_established hn (n.modTcb i fun t => handshakeSample t g.ack n.now) i hi (hstate ▸ hs) _ _ _)

omit hn in
theorem fine_simultaneousOpen (hi : i ∈ n.tcbs) (hs : (n.tcb i).state = .synSent) :
    Fine n (n.modTcb i fun t => { t with state := .synRcvd }) := by
  refine ⟨fun h => ?_⟩
  have hp := h.parent_of_synSent hi hs
  exact (fine_setTcb_of_parent (t := { n.tcb i with state := .synRcvd }) hp hp).keeps h

theorem fine_synSentSegment (g : Segment) (hi : i ∈ n.tcbs) (hs : (n.tcb i).state = .synSent) :
    Fine n (synSentSegment notify n i g) := by
  have hsync : Fine n (n.modTcb i (synced g)) := fine_modTcb ⟨rfl, rfl, rfl, rfl, Later.refl _⟩
  have hself : (n.modTcb i (synced g)).tcb i = (n.tcb i).synced g := setTcb_self ..
  have hstate : ((n.modTcb i (synced g)).tcb i).state = .synSent := by rw [hself]; exact hs
  have hmem : i ∈ (n.modTcb i (synced g)).tcbs := hi
  simp only [synSentSegment]
  generalize n.modTcb i (synced g) = m at hsync hstate hmem
  split
  · split
    · exact refl n
    · exact (sends_replyRst n i _ _ _ _ _ _ _ _).fine_of_sends
  · split
    · split
      · exact fine_tcbDie hn n i _
      · exact refl n
    · split
      · exact refl n
      · split
        · exact (hsync.trans (fine_opened hn m i hmem (.inl hstate) g)).trans (sends_sendAck _ i).fine_of_sends
        · have hsyn := (fine_simultaneousOpen m i hmem hstate).trans (sends_sendSyn _ i true).fine_of_sends
          exact (hsync.trans hsyn).trans (fine_modTcb ⟨rfl, rfl, rfl, rfl, Later.refl _⟩)

/-! ### Acknowledgements and data -/

omit hn in
theorem fine_windowUpdate (g : Segment) : Fine n (n.modTcb i (windowUpdate g)) :=
  (sends_same n i (core_windowUpdate g _)).fine_of_sends

theorem fine_processAck (g : Segment) : Fine n (processAck notify n i g).1 := by
  simp only [processAck]
  split
  · exact (sends_sendAck n i).fine_of_sends
  · refine trans ?_ (fine_windowUpdate _ i g)
    split
    · split
      · exact (sends_dupAck n i).fine_of_sends
      · exact refl n
    · obtain ⟨m, hm, e⟩ := newAck_eq n i notify g
      rw [e]
      exact hm.fine_of_sends.trans (fine_tcbNotify hn m i)

theorem fine_finAcknowledged : Fine n (finAcknowledged notify n i).1 := by
  simp only [finAcknowledged]
  split
  · split
    · rename_i hst
      have hl : Later (n.tcb i).state .finWait2 := .inr ⟨by simp [hst], nofun, nofun, by simp [hst]⟩
      exact (fine_modTcb (f := finWaits n.now) ⟨rfl, rfl, rfl, rfl, hl⟩).trans (fine_tcbNotify hn _ i)
    · rename_i hst
      exact fine_enterTimeWait hn n i (.inr ⟨by simp [hst], nofun, nofun, by simp [hst]⟩)
    · exact fine_tcbClosed hn n i
    · exact refl n
  · exact refl n

omit hn in
theorem fine_received (q : Queue) (k : Nat) : Fine n (n.modTcb i (received q k)).usedRoom :=
  (fine_modTcb ⟨rfl, rfl, rfl, rfl, Later.refl _⟩).trans (fine_usedRoom _)

theorem fine_takeData (data : List Byte) : Fine n (takeData notify n i data).1 := by
  simp only [takeData]
  split
  · exact fine_received n i _ _
  · refine trans ?_ (fine_tcbNotify hn _ i)
    refine trans ?_ fine_rest
    exact (fine_received n i _ _).trans (fine_modTcb ⟨rfl, rfl, rfl, rfl, Later.refl _⟩)

omit hn in
theorem fine_oooDeliverLoop (os : List Ooo) (n : Net) : Fine n (oooDeliverLoop i os n).1 := by
  induction os generalizing n with
  | nil => exact refl n
  | cons o os ih =>
    have hpop : Fine n (n.modTcb i (popped os o.len)) := fine_modTcb ⟨rfl, rfl, rfl, rfl, Later.refl _⟩
    simp only [oooDeliverLoop]
    split
    · split
      · split
        · exact hpop.trans (fine_received _ i _ _)
        · split
          · exact hpop.trans (fine_received _ i _ _)
          · exact (hpop.trans (fine_received _ i _ _)).trans (ih _)
      · split
        · exact hpop
        · exact hpop.trans (ih _)
    · exact refl n

theorem fine_fillHole : Fine n (fillHole notify n i).1 := by
  simp only [fillHole]
  split
  · exact refl n
  · split
    · have hdeliver : Fine n (oooDeliver n i).1 := fine_oooDeliverLoop i _ n
      split
      · refine trans ?_ (fine_tcbNotify hn _ i)
        refine trans ?_ fine_rest
        exact hdeliver.trans (fine_modTcb ⟨rfl, rfl, rfl, rfl, Later.refl _⟩)
      · exact hdeliver
    · exact refl n

omit hn in
theorem later_ended (t : Tcb) : Later t.state t.ended.state := by
  cases hs : t.state with
  | finWait1 =>
    simp only [ended, hs]
    split <;> exact .inr ⟨nofun, nofun, nofun, nofun⟩
  | _ => simp [ended, hs, Later]

theorem fine_takeFin : Fine n (takeFin notify n i) := by
  have hend : Fine n (n.modTcb i ended) := fine_modTcb ⟨rfl, rfl, rfl, rfl, later_ended _⟩
  refine trans ?_ (fine_tcbNotify hn _ i)
  split
  · rename_i hst
    exact hend.trans (fine_enterTimeWait hn _ i (hst ▸ Later.refl _))
  · exact hend

omit hn in
theorem fine_segmentOutput : Fine n (segmentOutput n i) := (sends_segmentOutput n i).fine_of_sends

theorem fine_inSequence (seq : UInt32) (data : List Byte) (fin wasGap : Bool) :
    Fine n (inSequence notify n i seq data fin wasGap) := by
  have hdata : Fine n (if data = [] then (n, 0) else takeData notify n i data).1 := by
    split
    · exact refl n
    · exact fine_takeData hn n i data
  simp only [inSequence]
  generalize (if data = [] then (n, 0) else takeData notify n i data) = r at hdata
  have hhole := hdata.trans (fine_fillHole hn r.1 i)
  have hgap : Fine n ((fillHole notify r.1 i).1.modTcb i (gapClosed wasGap)) :=
    hhole.trans (fine_modTcb ⟨rfl, rfl, rfl, rfl, Later.refl _⟩)
  refine trans ?_ (fine_segmentOutput _ i)
  exact fine_ite (hgap.trans (fine_takeFin hn _ i)) hgap

omit hn in
theorem fine_oooInsert (seq : UInt32) (data : List Byte) (fin alloc : Bool) :
    Fine n (n.setTcb i (oooInsert (n.tcb i) seq data fin alloc)) := by
  refine fine_setTcb ?_
  simp only [oooInsert]
  split_ifs <;> exact ⟨rfl, rfl, rfl, rfl, Later.refl _⟩

theorem fine_segmentData (g : Segment) (right : UInt32) : Fine n (segmentData notify n i g right) := by
  simp only [segmentData]
  split
  · split
    · split
      · exact (sends_sendRstConn n i).fine_of_sends.trans (fine_tcbDie hn _ i _)
      · split
        · exact fine_inSequence hn n i _ _ _ _
        · exact (fine_oooInsert n i _ _ _ _).trans (sends_sendAck _ i).fine_of_sends
    · exact fine_inSequence hn n i _ _ _ _
  · refine trans ?_ (fine_segmentOutput _ i)
    split
    · exact fine_modTcb ⟨rfl, rfl, rfl, rfl, Later.refl _⟩
    · exact refl n

theorem fine_segmentAcked (g : Segment) (right : UInt32) : Fine n (segmentAcked notify n i g right) := by
  have hack := fine_processAck hn n i g
  simp only [segmentAcked]
  split
  · exact hack
  · have hfin := hack.trans (fine_finAcknowledged hn (processAck notify n i g).1 i)
    split
    · exact hfin
    · exact hfin.trans (fine_segmentData hn _ i g right)

theorem fine_segmentAccepted (g : Segment) (hi : i ∈ n.tcbs) : Fine n (segmentAccepted notify n i g) := by
  simp only [segmentAccepted]
  split
  · split
    · exact refl n
    · split
      · exact fine_gotReset hn n i hi
      · exact (sends_sendAck n i).fine_of_sends
  · split
    · exact (sends_sendAck n i).fine_of_sends
    · split
      · exact refl n
      · split
        · rename_i hs
          split
          · exact (fine_opened hn n i hi (.inr hs) g).trans (fine_segmentAcked hn _ i g _)
          · exact (sends_replyRst n i _ _ _ _ _ _ _ _).fine_of_sends
        · exact fine_segmentAcked hn n i g _

theorem fine_segmentForTcb (g : Segment) (hi : i ∈ n.tcbs) : Fine n (segmentForTcb notify n i g) := by
  have hheard : Fine n (n.modTcb i (heard n)) := fine_modTcb ⟨rfl, rfl, rfl, rfl, Later.refl _⟩
  have him : i ∈ (n.modTcb i (heard n)).tcbs := hi
  simp only [segmentForTcb]
  generalize n.modTcb i (heard n) = m at hheard him
  refine hheard.trans ?_
  split
  · rename_i hs
    exact fine_synSentSegment hn m i g him hs
  · split
    · exact (sends_sendSyn m i true).fine_of_sends
    · split
      · refine trans ?_ (sends_sendAck _ i).fine_of_sends
        refine fine_setTcb ?_
        exact ⟨rfl, rfl, rfl, rfl, Later.refl _⟩
      · split
        · split
          · exact refl m
          · exact (sends_sendAck m i).fine_of_sends
        · exact fine_segmentAccepted hn m i g him

/-! ### Timers -/

theorem fine_rtxTimeout : Fine n (rtxTimeout notify n i) := by
  simp only [rtxTimeout]
  split
  · refine trans ?_ (fine_tcbDie hn _ i _)
    have hset : Fine n (n.setTcb i { n.tcb i with rtxCount := (n.tcb i).rtxCount + 1, timedOut := true }) := by
      refine fine_setTcb ?_
      exact ⟨rfl, rfl, rfl, rfl, Later.refl _⟩
    split
    · exact hset
    · exact hset.trans (sends_sendRstConn _ i).fine_of_sends
  · refine trans ?_ (fine_modTcb ?_)
    · refine trans ?_ (sends_retransmitOne _ i).fine_of_sends
      refine fine_setTcb ?_
      split <;> exact ⟨rfl, rfl, rfl, rfl, Later.refl _⟩
    · split <;> exact ⟨rfl, rfl, rfl, rfl, Later.refl _⟩

theorem fine_keepaliveTimeout : Fine n (keepaliveTimeout notify n i) := by
  simp only [keepaliveTimeout]
  split
  · refine fine_setTcb ?_
    exact ⟨rfl, rfl, rfl, rfl, Later.refl _⟩
  · split
    · exact fine_tcbDie hn n i _
    · refine trans (sends_xmit n i _ _ _ _ _).fine_of_sends (fine_modTcb ?_)
      exact ⟨rfl, rfl, rfl, rfl, Later.refl _⟩

theorem fine_timersFor : Fine n (timersFor notify n i) := by
  simp only [timersFor]
  split
  · rename_i hc
    exact fine_unlink (.inr (by simpa using hc.2.2))
  · have hack : Fine n (ackTimer n i) := fine_ite (sends_sendAck n i).fine_of_sends (refl n)
    have hwait : ∀ m, Fine m (waitTimer notify m i) := fun m => fine_ite (fine_tcbClosed hn m i) (refl m)
    have hrtx : ∀ m, Fine m (rtxTimer notify m i) := fun m => fine_ite (fine_rtxTimeout hn m i) (refl m)
    have hpersist : ∀ m, Fine m (persistTimer m i) := fun m =>
      fine_ite (sends_persistTimeout m i).fine_of_sends (refl m)
    have hka : ∀ m, Fine m (keepaliveTimer notify m i) := fun m =>
      fine_ite (fine_keepaliveTimeout hn m i) (refl m)
    exact (((hack.trans (hwait _)).trans (hrtx _)).trans (hpersist _)).trans (hka _)

theorem fine_tcpTimers : Fine n (tcpTimers notify n) := (hn n).trans (foldl (fine_timersFor hn) _ _)

omit hn in
theorem fine_tcpFlushAcks : Fine n (tcpFlushAcks n) := by
  simp only [tcpFlushAcks]
  split
  · refine trans fine_rest (foldl (fun n i => ?_) _ _)
    exact fine_ite (sends_sendAck n i).fine_of_sends (refl n)
  · exact refl n

end Steps

theorem fine_notifyAt (d : Nat) (n : Net) : Fine n (notifyAt d n) := by
  induction d generalizing n with
  | zero => exact refl n
  | succ d ih => exact fine_runRequests ih n

end Win98Modern.Tcp
