import Win98Modern.Kernel64.TcpAcceptSteps
import Win98Modern.Lib.Runs

/-!
# The accept queues over whole runs

A listener admits a SYN within its backlog only, and all other calls are fine, so the accept queues are right
in every state of a run (`accept_queues_sound`).
-/

namespace Win98Modern.Tcp

open List Fine

section Admission

variable {n n' : Net} {i : Id} {l : SockId}

/-- A listener has no more children pending than before, or no more than its backlog. -/
def Admits (n n' : Net) : Prop := ∀ l, pending n' l ≤ pending n l ∨ pending n' l ≤ (n'.sock l).backlog

/-- The accept queues stay right, and who is admitted is within the backlog. -/
structure Admitting (n n' : Net) : Prop where
  keeps : Inv n → Inv n' ∧ Admits n n'

theorem Fine.admitting (h : Fine n n') : Admitting n n' :=
  ⟨fun hn => ⟨(h.keeps hn).1, fun l => .inl ((h.keeps hn).2 l)⟩⟩

theorem Fine.then_admitting {n'' : Net} (h : Fine n n') (h' : Admitting n' n'') : Admitting n n'' where
  keeps := fun hn =>
    have ⟨h1, h2⟩ := h.keeps hn
    have ⟨h3, h4⟩ := h'.keeps h1
    ⟨h3, fun l => (h4 l).imp_left fun hle => Nat.le_trans hle (h2 l)⟩

/-! ### Admitting a SYN -/

theorem findListener_spec {dst : Ip} {dport : Port} (h : findListener n dst dport = some l) :
    l ∈ n.socks ∧ (n.sock l).listening := by
  have hfilter : l ∈ n.socks.filter fun s => (n.sock s).listening && (n.sock s).lport == dport := by
    simp only [findListener] at h
    split at h
    · rename_i s hs
      exact Option.some.inj h ▸ mem_of_find?_eq_some hs
    · exact (mem_filter.1 (mem_of_getLast? h)).1
  rw [mem_filter, Bool.and_eq_true] at hfilter
  exact ⟨hfilter.1, hfilter.2.1⟩

theorem child_inv {m : Net} {t : Tcb} (h : Inv n) {sndlim rcvlim : Nat} (ha : tcbAlloc n sndlim rcvlim = some (i, m))
    (hl : l ∈ n.socks ∧ (n.sock l).listening) (hp : t.parent = some l) (hq : t.queued = false)
    (hw : t.wasEst = false) (hsock : t.sock = none) (hs : t.state = .synRcvd) :
    Inv (m.setTcb i t) ∧ pending (m.setTcb i t) l ≤ pending n l + 1 ∧
      ∀ k, k ≠ l → pending (m.setTcb i t) k ≤ pending n k := by
  obtain ⟨Q, hQ⟩ := h.queues
  obtain ⟨hm, hnew, htcbs, hparent, -, -, -, hother, hsocks, hsame⟩ := hQ.tcbAlloc ha
  have htcb : ∀ j ∈ n.tcbs, (m.setTcb i t).tcb j = n.tcb j := by
    intro j hj
    have hne : j ≠ i := by
      rintro rfl
      exact hnew hj
    rw [setTcb_of_ne m t hne, hother j hne]
  have hhalf : ∀ k, halfOpen (m.setTcb i t) k =
      (if k = l then 1 else 0) + halfOpen n k := by
    intro k
    have hrest : (n.tcbs.countP fun c => ((m.setTcb i t).tcb c).parent == some k &&
        ((m.setTcb i t).tcb c).state == .synRcvd) = halfOpen n k :=
      countP_congr fun c hc => by rw [htcb c hc]
    rw [halfOpen, show (m.setTcb i t).tcbs = i :: n.tcbs from htcbs, countP_cons, hrest, setTcb_self, hp, hs,
      Nat.add_comm]
    by_cases hk : k = l
    · subst hk
      simp
    · simp [hk, Ne.symm hk]
  have hcount : ∀ k, ((m.setTcb i t).sock k).accCount = (n.sock k).accCount := fun k => by rw [setTcb_sock, hsame]
  refine ⟨⟨⟨Q, hm.setTcb (fun k => ?_) fun _ k _ => ⟨hsock, by rw [hq, hw], fun e => ?_, fun _ => .inl hs⟩⟩,
    fun j hj k hk => ?_⟩, ?_, fun k hk => ?_⟩
  · rw [hparent, hq]
    exact iff_of_false (fun e => Bool.noConfusion e.2) fun e => by cases e.1
  · rw [hq] at e
    cases e
  · rw [show (m.setTcb i t).socks = n.socks from hsocks, setTcb_sock, hsame]
    obtain rfl | hj := mem_cons.1 (htcbs ▸ hj)
    · rw [setTcb_self, hp] at hk
      exact Option.some.inj hk ▸ hl
    · rw [htcb j hj] at hk
      exact h.children j hj k hk
  · rw [pending, pending, hcount, hhalf, if_pos rfl]
    omega
  · rw [pending, pending, hcount, hhalf, if_neg hk]
    omega

theorem touches_synOut (n : Net) (i : Id) :
    Touches Tcb.Kept i n (((sendSyn n i true).modTcb i Tcb.advertised).modTcb i (Tcb.synOut (sendSyn n i true))) ∧
      (((sendSyn n i true).modTcb i Tcb.advertised).modTcb i (Tcb.synOut (sendSyn n i true))).sock = n.sock := by
  have hsends : Touches Tcb.Kept i n (sendSyn n i true) := (sends_sendSyn n i true).mono Tcb.Sends.toKept
  have hadv : Touches Tcb.Kept i n ((sendSyn n i true).modTcb i Tcb.advertised) :=
    hsends.kept_trans (touches_modTcb ⟨rfl, rfl, rfl, rfl, Later.refl _⟩)
  have hout := hadv.kept_trans (touches_modTcb (f := Tcb.synOut (sendSyn n i true))
    ⟨rfl, rfl, rfl, rfl, Later.refl _⟩)
  exact ⟨hout, hout.sock⟩

theorem passiveOpen_admitting (g : Segment) (hl : l ∈ n.socks ∧ (n.sock l).listening) :
    Admitting n (passiveOpen n g l) := by
  refine ⟨fun h => ?_⟩
  have hstay : Inv n ∧ Admits n n := ⟨h, fun _ => .inl (Nat.le_refl _)⟩
  simp only [passiveOpen]
  split
  · exact hstay
  · rename_i hroom
    split
    · exact hstay
    · rename_i i m ha
      obtain ⟨Q, hQ⟩ := h.queues
      obtain ⟨-, -, -, -, hqueued, hwas, hsock, -, -, hsame⟩ := hQ.tcbAlloc ha
      obtain ⟨hinv, hself, hrest⟩ := child_inv (t := (m.tcb i).halfOpened g l m.env.isn
        ((n.route g.src).elim NET_MTU Prod.snd)) h ha hl rfl hqueued hwas hsock rfl
      have hsame' : (m.modTcb i (Tcb.halfOpened g l m.env.isn ((n.route g.src).elim NET_MTU Prod.snd))).sock =
          n.sock := hsame
      change Inv (m.modTcb i (Tcb.halfOpened g l m.env.isn ((n.route g.src).elim NET_MTU Prod.snd))) at hinv
      change pending (m.modTcb i (Tcb.halfOpened g l m.env.isn ((n.route g.src).elim NET_MTU Prod.snd))) l ≤ _ at hself
      change ∀ k, k ≠ l → pending (m.modTcb i (Tcb.halfOpened g l m.env.isn
        ((n.route g.src).elim NET_MTU Prod.snd))) k ≤ _ at hrest
      generalize m.modTcb i (Tcb.halfOpened g l m.env.isn ((n.route g.src).elim NET_MTU Prod.snd)) = c
        at hinv hself hrest hsame'
      obtain ⟨htouch, hsynOut⟩ := touches_synOut c i
      obtain ⟨hkeep, hle⟩ := htouch.fine.keeps hinv
      refine ⟨hkeep, fun k => ?_⟩
      by_cases hk : k = l
      · subst hk
        refine .inr (Nat.le_trans (hle k) (Nat.le_trans hself ?_))
        rw [hsynOut, hsame', pending]
        omega
      · exact .inl (Nat.le_trans (hle k) (hrest k hk))

theorem strayInput_admitting (n : Net) (g : Segment) : Admitting n (strayInput n g) := by
  simp only [strayInput]
  split
  · exact (refl n).admitting
  · split
    · rename_i l hl
      split
      · exact passiveOpen_admitting g (findListener_spec hl)
      · split
        · exact (sends_replyRst n 0 _ _ _ _ _ _ _ _).fine_of_sends.admitting
        · exact (refl n).admitting
    · exact (sends_replyRst n 0 _ _ _ _ _ _ _ _).fine_of_sends.admitting

theorem tcpInput_admitting {notify : Net → Net} (hn : ∀ n, Fine n (notify n)) (n : Net) (g : Segment) :
    Admitting n (tcpInput notify n g) := by
  simp only [tcpInput]
  split
  · exact strayInput_admitting n g
  · rename_i i hi
    have hmem : i ∈ n.tcbs := mem_of_find?_eq_some hi
    split
    · exact (fine_tcbFree hmem).then_admitting (strayInput_admitting _ g)
    · exact (fine_segmentForTcb hn n i g hmem).admitting

end Admission

/-! ### Calls of the sockets -/

section Calls

variable {notify : Net → Net} (hn : ∀ n, Fine n (notify n)) (n : Net)

theorem fine_tcbAlloc {n m : Net} {i : Id} {sndlim rcvlim : Nat} (ha : tcbAlloc n sndlim rcvlim = some (i, m)) :
    Fine n m ∧ (Inv n → (m.tcb i).parent = none) := by
  refine ⟨⟨fun h => ?_⟩, fun h => ?_⟩
  · obtain ⟨Q, hQ⟩ := h.queues
    obtain ⟨hm, hnew, htcbs, hparent, -, -, -, hother, hsocks, hsame⟩ := hQ.tcbAlloc ha
    refine ⟨⟨⟨Q, hm⟩, fun j hj k hk => ?_⟩, fun k => ?_⟩
    · rw [hsocks, hsame]
      obtain rfl | hj := mem_cons.1 (htcbs ▸ hj)
      · rw [hparent] at hk
        cases hk
      · have hne : j ≠ i := by
          rintro rfl
          exact hnew hj
        rw [hother j hne] at hk
        exact h.children j hj k hk
    · have hrest : (n.tcbs.countP fun c => (m.tcb c).parent == some k && (m.tcb c).state == .synRcvd) =
          halfOpen n k := by
        refine countP_congr fun c hc => ?_
        have hne : c ≠ i := by
          rintro rfl
          exact hnew hc
        rw [hother c hne]
      rw [pending, pending, halfOpen, htcbs, countP_cons, hrest, hparent, hsame]
      simp
  · obtain ⟨Q, hQ⟩ := h.queues
    exact (hQ.tcbAlloc ha).2.2.2.1

theorem fine_tcpConnect (s : SockId) (dst : Ip) (dport : Port) : Fine n (tcpConnect n s dst dport) := by
  simp only [tcpConnect]
  split
  · exact refl n
  · rename_i src mtu _
    generalize (if (n.sock s).lip ≠ 0 then (n.sock s).lip else src) = src
    have hport : ∀ port, Fine n (if (n.sock s).lport = 0 then
        n.setSock s fun k => { k with lport := port, bound := k.bound || port != 0 } else n) := by
      intro port
      refine fine_ite ?_ (refl n)
      exact fine_setSock rfl rfl rfl
    have hport := hport n.env.port
    generalize (if (n.sock s).lport = 0 then n.setSock s fun k =>
      { k with lport := n.env.port, bound := k.bound || n.env.port != 0 } else n) = m at hport
    refine hport.trans ?_
    split
    · exact refl m
    · split
      · exact refl m
      · split
        · exact refl m
        · rename_i i m' ha
          obtain ⟨hf, hp⟩ := fine_tcbAlloc ha
          refine ⟨fun h => ?_⟩
          have hopen : Fine m (m'.modTcb i (Tcb.opening s src (m.sock s).lport dst dport m'.env.isn mtu)) :=
            hf.trans (fine_setTcb_of_parent (hp h) (hp h))
          generalize m'.modTcb i (Tcb.opening s src (m.sock s).lport dst dport m'.env.isn mtu) = c at hopen
          have hsyn : Fine m ((sendSyn c i false).modTcb i (Tcb.synOut (sendSyn c i false))) :=
            (hopen.trans (sends_sendSyn c i false).fine_of_sends).trans (fine_modTcb ⟨rfl, rfl, rfl, rfl, Later.refl _⟩)
          exact (hsyn.trans (fine_setSock rfl rfl rfl)).keeps h

theorem fine_tcpListen (s : SockId) (backlog : Nat) (hs : s ∈ n.socks) : Fine n (tcpListen n s backlog) := by
  refine ⟨fun h => ?_⟩
  obtain ⟨Q, hQ⟩ := h.queues
  refine ⟨⟨⟨Q, hQ.setSock rfl rfl⟩, fun j hj k hk => ?_⟩, fun k => ?_⟩
  · obtain ⟨hsocks, hl⟩ := h.children j hj k hk
    refine ⟨hsocks, ?_⟩
    by_cases he : k = s
    · subst he
      exact congrArg Sock.listening (setSock_self ..)
    · exact (congrArg Sock.listening (setSock_of_ne n _ he)).trans hl
  · refine Tcp.pending_le (Nat.le_of_eq ?_) (List.Sublist.refl _) fun _ _ hp hs => ⟨hp, hs⟩
    by_cases he : k = s
    · subst he
      rw [tcpListen, setSock_self]
    · rw [tcpListen, setSock_of_ne _ _ he]

theorem fine_sockNew {n m : Net} {s : SockId} (hs : sockNew n = some (s, m)) : Fine n m ∧ m.tcb = n.tcb := by
  simp only [sockNew] at hs
  split at hs
  · cases hs
  · rename_i a _
    split at hs
    · cases hs
    · rename_i hnew
      obtain ⟨rfl, rfl⟩ := Prod.mk.inj (Option.some.inj hs)
      refine ⟨⟨fun h => ?_⟩, rfl⟩
      obtain ⟨Q, hQ⟩ := h.queues
      have hnil : Q a = [] := by
        rw [eq_nil_iff_forall_not_mem]
        intro t ht
        obtain ⟨htcb, hp, -⟩ := (hQ.mem a t).1 ht
        exact hnew (h.children t htcb a hp).1
      have hacc : Function.update n.acc (.head a) none = n.acc := by
        rw [Function.update_eq_self_iff, hQ.family.head, hnil]
        rfl
      have hself : ((n.setSock a fun _ => {}).sock a) = {} := setSock_self ..
      have hother : ∀ k, k ≠ a → (n.setSock a fun _ => {}).sock k = n.sock k := fun k hk => setSock_of_ne n _ hk
      refine ⟨⟨⟨Q, hQ.nodup, hQ.heap, ?_, fun k => ?_, fun k => ?_, hQ.mem, hQ.child⟩, fun j hj k hk => ?_⟩,
        fun k => ?_⟩
      · show ChainFamily Slot.head Slot.next (Function.update n.acc (.head a) none) Q
        rw [hacc]
        exact hQ.family
      · by_cases he : k = a
        · subst he
          rw [hnil]
          exact congrArg Sock.accTail hself
        · exact (congrArg Sock.accTail (hother k he)).trans (hQ.tail k)
      · by_cases he : k = a
        · subst he
          rw [hnil]
          exact congrArg Sock.accCount hself
        · exact (congrArg Sock.accCount (hother k he)).trans (hQ.count k)
      · obtain ⟨hsocks, hl⟩ := h.children j hj k hk
        have he : k ≠ a := fun e => hnew (e ▸ hsocks)
        exact ⟨mem_cons_of_mem _ hsocks, (congrArg Sock.listening (hother k he)).trans hl⟩
      · refine Tcp.pending_le ?_ (List.Sublist.refl _) fun _ _ hp hs => ⟨hp, hs⟩
        by_cases he : k = a
        · subst he
          exact Nat.le_trans (Nat.le_of_eq (congrArg Sock.accCount hself)) (Nat.zero_le _)
        · exact Nat.le_of_eq (congrArg Sock.accCount (hother k he))

include hn

theorem fine_opAccept (l : SockId) : Fine n (opAccept notify n l) := by
  simp only [opAccept]
  split
  · split
    · exact refl n
    · rename_i t m hd
      obtain ⟨hf, hp⟩ := fine_dequeue hd
      split
      · rename_i s m' hs
        obtain ⟨hnew, htcb⟩ := fine_sockNew hs
        exact ⟨fun h => ((hf.trans hnew).trans (fine_adopt m' l s t (by rw [htcb]; exact hp h))).keeps h⟩
      · exact (hf.trans (fine_tcpAbort hn m t true)).trans (fine_disown _ t)
  · exact refl n

omit hn in
theorem fine_opSetopt (s : SockId) (opt : SockOpt) : Fine n (opSetopt n s opt) := by
  cases opt with
  | keepalive on =>
    simp only [opSetopt]
    split
    · refine trans ?_ (sends_tcpKeepaliveChanged _ _).fine_of_sends
      exact fine_setSock rfl rfl rfl
    · exact fine_setSock rfl rfl rfl
  | keepIdle secs =>
    simp only [opSetopt]
    split
    · refine trans ?_ (sends_tcpKeepaliveChanged _ _).fine_of_sends
      exact fine_setSock rfl rfl rfl
    · exact fine_setSock rfl rfl rfl
  | keepIntvl secs =>
    simp only [opSetopt]
    exact fine_setSock rfl rfl rfl
  | keepCnt count =>
    simp only [opSetopt]
    exact fine_setSock rfl rfl rfl
  | nodelay on =>
    simp only [opSetopt]
    split
    · split
      · refine trans ?_ (sends_tcpOutput _ _).fine_of_sends
        exact fine_setSock rfl rfl rfl
      · exact fine_setSock rfl rfl rfl
    · exact fine_setSock rfl rfl rfl
  | linger on secs =>
    simp only [opSetopt]
    exact fine_setSock rfl rfl rfl
  | sndbuf size =>
    simp only [opSetopt]
    split
    · refine trans ?_ (fine_modTcb ⟨rfl, rfl, rfl, rfl, Later.refl _⟩)
      exact fine_setSock rfl rfl rfl
    · exact fine_setSock rfl rfl rfl
  | rcvbuf size =>
    simp only [opSetopt]
    split
    · refine trans ?_ (fine_modTcb ⟨rfl, rfl, rfl, rfl, Later.refl _⟩)
      exact fine_setSock rfl rfl rfl
    · exact fine_setSock rfl rfl rfl
  | updateContext =>
    simp only [opSetopt]
    split
    · refine trans ?_ (sends_tcpOutput _ _).fine_of_sends
      refine trans ?_ (sends_tcpKeepaliveChanged _ _).fine_of_sends
      exact fine_setSock rfl rfl rfl
    · exact refl n

theorem fine_forget (s : SockId) : Fine n (tcpSockClosed notify { n with socks := n.socks.erase s } s) := by
  refine ⟨fun h => ?_⟩
  obtain ⟨Q, hQ⟩ := h.queues
  have hQ' : Wf { n with socks := n.socks.erase s } Q :=
    ⟨hQ.nodup, hQ.heap, hQ.family, hQ.tail, hQ.count, hQ.mem, hQ.child⟩
  have hchildren : Children { n with socks := n.socks.erase s }
      fun l => l ≠ s → l ∈ n.socks.erase s ∧ (n.sock l).listening := by
    intro t ht l hp hl
    obtain ⟨hsocks, hlistening⟩ := h.children t ht l hp
    exact ⟨(mem_erase_of_ne hl).2 hsocks, hlistening⟩
  cases hl : (n.sock s).listening with
  | true => exact closeListener notify hQ' hchildren hl
  | false =>
    have hinv : Inv { n with socks := n.socks.erase s } := by
      refine ⟨⟨Q, hQ'⟩, fun t ht l hp => hchildren t ht l hp ?_⟩
      rintro rfl
      have hlistening := (h.children t ht l hp).2
      rw [hl] at hlistening
      cases hlistening
    exact (fine_closeSocket hn { n with socks := n.socks.erase s } s hl).keeps hinv

theorem fine_sockClose (s : SockId) : Fine n (sockClose notify n s) := (hn n).trans (fine_forget hn _ s)

omit hn in
theorem fine_shutdownWrite (s : SockId) : Fine n (shutdownWrite n s) := by
  simp only [shutdownWrite]
  split
  · exact fine_ite (refl n) (sends_tcpShutdownWrite n _).fine_of_sends
  · exact refl n

omit hn in
theorem fine_routes (route : Ip → Option (Ip × UInt32)) : Fine n { n with route := route } :=
  Quiet.fine ⟨⟨rfl, rfl, rfl, fun _ => rfl, fun _ => rfl, fun _ => Tcb.Kept.refl _⟩, rfl, fun _ => rfl⟩

theorem call_admitting (c : Call) : Admitting n (call notify n c) := by
  cases c with
  | segment g => exact tcpInput_admitting hn n g
  | timers => exact (fine_tcpTimers hn n).admitting
  | flushAcks => exact (fine_tcpFlushAcks n).admitting
  | hostUnreachable unreachable => exact (fine_tcpHostUnreachable hn n unreachable).admitting
  | routes route => exact (fine_routes n route).admitting
  | socket =>
    simp only [call]
    split
    · exact (fine_sockNew ‹_›).1.admitting
    · exact (refl n).admitting
  | bind s ip port => exact (fine_ite (fine_setSock rfl rfl rfl) (refl n)).admitting
  | listen s backlog =>
    simp only [call]
    split
    · rename_i hs
      exact (fine_tcpListen n s backlog hs.1).admitting
    · exact (refl n).admitting
  | accept l => exact (fine_ite (fine_opAccept hn n l) (refl n)).admitting
  | connect s dst dport => exact (fine_ite (fine_tcpConnect n s dst dport) (refl n)).admitting
  | connectEx s dst dport =>
    refine (fine_ite ?_ (refl n)).admitting
    refine trans ?_ (fine_setSock rfl rfl rfl)
    exact trans (fine_setSock rfl rfl rfl) (fine_tcpConnect _ s dst dport)
  | connectFailed s =>
    simp only [call]
    split
    · refine (fine_ite ?_ (refl n)).admitting
      exact (fine_tcpSockClosed hn n s).trans (fine_setSock rfl rfl rfl)
    · exact (refl n).admitting
  | disconnect s =>
    simp only [call]
    split
    · refine (fine_ite ?_ (refl n)).admitting
      exact (fine_tcpSockClosed hn n s).trans (fine_setSock rfl rfl rfl)
    · exact (refl n).admitting
  | recv s k => exact (fine_ite (fine_readFrom n s k) (refl n)).admitting
  | send s data => exact (fine_ite (fine_writeTo n s data) (refl n)).admitting
  | shutdown s => exact (fine_ite ((fine_shutdownWrite n s).trans (hn _)) (refl n)).admitting
  | setopt s opt => exact (fine_ite (fine_opSetopt n s opt) (refl n)).admitting
  | request r => exact (fine_runRequest hn n r).admitting
  | close s => exact (fine_ite (fine_sockClose hn n s) (refl n)).admitting

end Calls

/-! ### Runs -/

theorem step_admitting (n : Net) (e : Event) : Admitting n (step n e) := by
  have hrest : Fine n { n with env := e.env, now := n.now + e.elapsed } :=
    Quiet.fine ⟨⟨rfl, rfl, rfl, fun _ => rfl, fun _ => rfl, fun _ => Tcb.Kept.refl _⟩, rfl, fun _ => rfl⟩
  exact hrest.then_admitting (call_admitting (fine_notifyAt e.depth) _ e.call)

theorem boot_inv (route : Ip → Option (Ip × UInt32)) : Inv (boot route) where
  queues := ⟨fun _ => [], ⟨nodup_nil, rfl, ⟨fun _ => rfl, fun _ => nodup_nil, nofun⟩, fun _ => rfl,
    fun _ => rfl, fun _ _ => ⟨nofun, fun h => nomatch h.1⟩, nofun⟩⟩
  children := nofun

/-- A handshake that is over, and nobody accepted the connection. -/
def Completed (n : Net) (l : SockId) (t : Id) : Prop :=
  t ∈ n.tcbs ∧ (n.tcb t).parent = some l ∧ (n.tcb t).wasEst

/-- The accept queue of a listener is a list of its completed connections, each of them once, with its length
and its last node beside it; and what is on a list is not freed. -/
structure Sound (n : Net) : Prop where
  queue : ∀ l, ∃ q : List Id, Chain Slot.next n.acc (.head l) q ∧ q.Nodup ∧ (∀ t, t ∈ q ↔ Completed n l t) ∧
    (n.sock l).accCount = q.length ∧ (n.sock l).accTail = q.getLast? ∧ ∀ t ∈ q, t ∈ n.heap
  listed : n.tcbs.Nodup ∧ ∀ t, t ∈ n.tcbs ↔ t ∈ n.heap

theorem Inv.sound {n : Net} (h : Inv n) : Sound n := by
  obtain ⟨Q, hQ⟩ := h.queues
  refine ⟨fun l => ⟨Q l, hQ.family.chain l, hQ.family.nodup l, fun t => ?_, hQ.count l, hQ.tail l, fun t ht => ?_⟩,
    hQ.nodup, fun t => by rw [hQ.heap]⟩
  · rw [hQ.mem]
    constructor
    · rintro ⟨ht, hp, hq⟩
      exact ⟨ht, hp, (hQ.child t ht l hp).queued ▸ hq⟩
    · rintro ⟨ht, hp, hw⟩
      exact ⟨ht, hp, (hQ.child t ht l hp).queued.symm ▸ hw⟩
  · rw [hQ.heap]
    exact ((hQ.mem l t).1 ht).1

/-- **The accept queues are right in every state of a run**, and a listener that has more connections pending
after a step than before has no more than its backlog. -/
theorem accept_queues_sound (route : Ip → Option (Ip × UInt32)) (es : List Event) :
    Along step Sound (fun n e => Admits n (step n e)) (boot route) es := by
  refine along_of_inv es (fun _ h => h.sound) (fun n e h _ _ => ?_) (boot_inv route) (along_true (boot route) es)
  obtain ⟨hinv, hadmits⟩ := (step_admitting n e).keeps h
  exact ⟨hadmits, hinv⟩

end Win98Modern.Tcp
