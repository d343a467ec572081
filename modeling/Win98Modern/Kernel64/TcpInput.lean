import Win98Modern.Kernel64.Tcp

/-!
# What a connection receives

`segment_for_tcb` takes a segment for a connection: the handshake, the acceptability of its sequence number,
RST and SYN, the acknowledgement, and then data and FIN.  The loop of `tcp_input` over the options of the
header, which finds the MSS, and its checksum are not here: a `Segment` has what they leave.
-/

namespace Win98Modern.Tcp

open UInt32

structure Segment where
  src : Ip
  dst : Ip
  sport : Port
  dport : Port
  seq : UInt32
  ack : UInt32
  flags : Flags
  wnd : UInt32
  /-- Of the MSS option; 0 when there is none. -/
  mss : UInt32 := 0
  data : List Byte := []

/-- How much sequence space a segment takes. -/
def Segment.slen (g : Segment) : UInt32 :=
  ofNat g.data.length + (if g.flags.syn then 1 else 0) + (if g.flags.fin then 1 else 0)

/-! ### Round trips and congestion -/

/-- `rto` from `srtt` and `rttvar`. -/
def clampRto (t : Tcb) : Tcb :=
  let rto := (t.srtt >>> 3) + t.rttvar
  let rto := if rto < RTO_MIN then RTO_MIN else rto
  { t with rto := if RTO_MAX < rto then RTO_MAX else rto }

def rttSample (t : Tcb) (r : UInt32) : Tcb :=
  let r := if r < 1 then 1 else r
  if t.srtt = 0 then clampRto { t with srtt := r <<< 3, rttvar := r <<< 1 }
  else
    let delta := r - (t.srtt >>> 3)
    let size := if 2 ^ 31 ≤ delta.toNat then 0 - delta else delta
    clampRto { t with srtt := t.srtt + delta, rttvar := t.rttvar + (size - (t.rttvar >>> 2)) }

def initCwnd (t : Tcb) : Tcb :=
  { t with cwnd := min (4 * t.mss) (max (2 * t.mss) 4380), ssthresh := 0x7fffffff }

section Input

variable (notify : Net → Net) (n : Net) (i : Id) (g : Segment)

/-! ### The handshake -/

/-- `t` becomes the last of the accept queue of `l`. -/
def acceptqAppend (n : Net) (l : SockId) (t : Id) : Net :=
  let n := n.setAcc (.next t) none
  let n := match (n.sock l).accTail with
    | some q => n.setAcc (.next q) (some t)
    | none => n.setAcc (.head l) (some t)
  (n.setSock l fun s => { s with accTail := some t, accCount := s.accCount + 1 }).modTcb t
    fun c => { c with queued := true }

/-- The connection once the handshake is over. -/
def Tcb.opened (seq ack wnd : UInt32) (t : Tcb) : Tcb := initCwnd
  { t with
    state := .established, wasEst := true, sndUna := ack, sndWnd := wnd, sndWl1 := seq, sndWl2 := ack
    sndMaxWnd := if t.sndMaxWnd < wnd then wnd else t.sndMaxWnd
    rtxDeadline := 0, rtxCount := 0 }

/-- A passive connection is handed to `accept`. -/
def handOver : Net :=
  match (n.tcb i).parent with
  | some l => acceptqAppend n l i
  | none => n

def established (seq ack wnd : UInt32) : Net :=
  let n := handOver (n.modTcb i (Tcb.opened seq ack wnd)) i
  tcbNotify notify (tcpKeepaliveChanged n i) i

/-- A half-open connection of a listener is forgotten. -/
def gotReset : Net :=
  let t := n.tcb i
  if t.state = .synRcvd ∧ t.passive then tcbFree n i
  else tcbDie notify n i (if t.state = .synRcvd then .connRefused else .connReset)

/-- The timed segment is acknowledged, and it was sent once. -/
def handshakeSample (t : Tcb) (ack : UInt32) (now : Nat) : Tcb :=
  let t := if t.rttTiming && SEQ_GEQ ack t.rttSeq && t.rtxCount == 0 then
    rttSample t (ofNat (now - t.rttStart)) else t
  { t with rttTiming := false }

/-- What the SYN of the other side tells. -/
def Tcb.synced (g : Segment) (t : Tcb) : Tcb :=
  let mss := if g.mss ≠ 0 then min t.mss g.mss else min t.mss DEF_MSS
  { t with
    irs := g.seq, rcvNxt := g.seq + 1, mss := if mss < 64 then 64 else mss
    rcvAdv := g.seq + 1 + ofNat (min t.rcvq.limit 65535) }

/-- A segment for a connection in SYN_SENT. -/
def synSentSegment : Net :=
  let t := n.tcb i
  let ackOk := g.flags.ack && SEQ_GT g.ack t.iss && SEQ_LEQ g.ack t.sndNxt
  if g.flags.ack && !ackOk then
    if g.flags.rst then n else replyRst n t.lip t.rip t.lport t.rport g.seq g.ack g.flags g.slen
  else if g.flags.rst then
    if ackOk then tcbDie notify n i .connRefused else n
  else if !g.flags.syn then n
  else
    let n := n.modTcb i (Tcb.synced g)
    if ackOk then
      let n := n.modTcb i fun t => handshakeSample t g.ack n.now
      sendAck (established notify n i g.seq g.ack g.wnd) i
    else
      -- simultaneous open
      (sendSyn (n.modTcb i fun t => { t with state := .synRcvd }) i true).modTcb i (armRtx n)

/-! ### Acknowledgements -/

/-- An acknowledgement of nothing new that counts as a duplicate. -/
def isDupAck (t : Tcb) : Bool :=
  g.ack == t.sndUna && g.data.isEmpty && !g.flags.fin && g.wnd == t.sndWnd && t.sndUna != t.sndMax

/-- Sends the segment at `snd_una` and comes back to where the flow was. -/
def resend : Net :=
  let t := n.tcb i
  ((retransmitOne (n.setTcb i { t with sndNxt := t.sndUna }) i).1).modTcb i fun u => { u with sndNxt := t.sndNxt }

def dupAck : Net :=
  let n := n.modTcb i fun t => { t with dupacks := t.dupacks + 1 }
  let t := n.tcb i
  if t.dupacks = 3 ∧ !t.inRecovery then
    let flight := t.sndMax - t.sndUna
    let n := n.setTcb i
      { t with ssthresh := max (flight / 2) (2 * t.mss), recover := t.sndMax, inRecovery := true }
    (resend n i).modTcb i fun t => { t with cwnd := t.ssthresh + 3 * t.mss }
  else if 3 < t.dupacks ∧ t.inRecovery then tcpOutput (n.setTcb i { t with cwnd := t.cwnd + t.mss }) i
  else n

/-- The bytes up to `ack` leave the send queue; with how many they were. -/
def ackBytes (t : Tcb) (ack : UInt32) (now : Nat) : Tcb × UInt32 :=
  let acked := ack - t.sndUna
  let dataEnd := t.sndUna + ofNat t.sndq.data.length
  let pastFin := t.finSent && SEQ_GT ack dataEnd
  let dataAcked := if pastFin then dataEnd - t.sndUna else acked
  let dataAcked := if ofNat t.sndq.data.length < dataAcked then ofNat t.sndq.data.length else dataAcked
  let t :=
    { t with
      finAcked := t.finAcked || pastFin, sndq := bqDrop t.sndq dataAcked.toNat, sndUna := ack
      sndNxt := if SEQ_LT t.sndNxt ack then ack else t.sndNxt }
  let t := if t.rttTiming && SEQ_GEQ ack t.rttSeq then
    { rttSample t (ofNat (now - t.rttStart)) with rttTiming := false } else t
  (t, dataAcked)

/-- A full acknowledgement ends the recovery. -/
def leaveRecovery (t : Tcb) : Tcb :=
  { t with cwnd := min t.ssthresh (max (t.sndMax - t.sndUna) t.mss + t.mss), inRecovery := false, dupacks := 0 }

/-- A partial one: the next hole is lost too. -/
def deflate (dataAcked : UInt32) (t : Tcb) : Tcb :=
  let cwnd := if dataAcked < t.cwnd then t.cwnd - dataAcked else t.mss
  { t with cwnd := if t.mss ≤ dataAcked then cwnd + t.mss else cwnd }

def growCwnd (acked : UInt32) (t : Tcb) : Tcb :=
  { t with
    dupacks := 0
    cwnd := if t.cwnd < t.ssthresh then t.cwnd + min acked t.mss else t.cwnd + max 1 (t.mss * t.mss / t.cwnd) }

def restartRtx (now : Nat) (t : Tcb) : Tcb :=
  let t := if t.srtt ≠ 0 then clampRto t else { t with rto := RTO_INIT }
  { t with rtxCount := 0, rtxDeadline := if t.sndUna = t.sndMax then 0 else now + t.rto.toNat }

def newAck : Net :=
  let acked := g.ack - (n.tcb i).sndUna
  let r := ackBytes (n.tcb i) g.ack n.now
  let n := n.setTcb i r.1
  let n :=
    if (n.tcb i).inRecovery then
      if SEQ_GEQ g.ack (n.tcb i).recover then n.modTcb i leaveRecovery else (resend n i).modTcb i (deflate r.2)
    else n.modTcb i (growCwnd acked)
  tcbNotify notify (n.modTcb i (restartRtx n.now)) i

/-- The window of the peer, when the segment is newer than the last that had one. -/
def windowUpdate (t : Tcb) : Tcb :=
  if SEQ_LT t.sndWl1 g.seq || (t.sndWl1 == g.seq && SEQ_LEQ t.sndWl2 g.ack) then
    { t with
      sndWnd := g.wnd, sndWl1 := g.seq, sndWl2 := g.ack
      sndMaxWnd := if t.sndMaxWnd < g.wnd then g.wnd else t.sndMaxWnd
      persistDeadline := if g.wnd ≠ 0 then 0 else t.persistDeadline }
  else t

/-- The flag tells whether the segment is gone on with. -/
def processAck : Net × Bool :=
  let t := n.tcb i
  if SEQ_GT g.ack t.sndMax then (sendAck n i, false)
  else
    let n :=
      if SEQ_LEQ g.ack t.sndUna then if isDupAck g t then dupAck n i else n
      else newAck notify n i g
    (n.modTcb i (windowUpdate g), true)

/-! ### Data -/

/-- What is left of a segment inside `[rcv_nxt, right)`: where it starts, its bytes and its FIN. -/
def trim (rcvNxt right : UInt32) : UInt32 × List Byte × Bool :=
  let before := SEQ_LT g.seq rcvNxt
  let cut := min (rcvNxt - g.seq).toNat g.data.length
  let seq := if before then g.seq + ofNat cut else g.seq
  let data := if before then g.data.drop cut else g.data
  let fin := g.flags.fin && !(before && SEQ_LT (seq + ofNat data.length) rcvNxt)
  if SEQ_GT (seq + ofNat data.length + (if fin then 1 else 0)) right then
    (seq, if SEQ_GT (seq + ofNat data.length) right then data.take (right - seq).toNat else data, false)
  else (seq, data, fin)

/-- `k` bytes came in at time `now`: they are acknowledged soon, and every second full segment at once. -/
def Tcb.delayed (now k : Nat) (t : Tcb) : Tcb :=
  { t with
    ackPending := true
    ackDeadline := if t.ackDeadline = 0 then now + DELACK_MS else t.ackDeadline
    rxUnacked := t.rxUnacked + k
    ackNow := t.ackNow || decide ((2 * t.mss).toNat ≤ t.rxUnacked + k) }

/-- `bq_write` of a segment that starts at `rcv_nxt`; with how many bytes were taken. -/
def takeData (data : List Byte) : Net × Nat :=
  let r := bqWrite (n.tcb i).rcvq data (n.room data.length)
  let n := (n.modTcb i (Tcb.received r.1 r.2)).usedRoom
  if r.2 = 0 then (n, 0)
  else (tcbNotify notify { n.modTcb i (Tcb.delayed n.now r.2) with ackDirty := true } i, r.2)

def Tcb.ackAtOnce (t : Tcb) : Tcb := { t with ackPending := true, ackNow := true }

/-- The segment closed a hole; the flag tells that a FIN is next in sequence now. -/
def fillHole : Net × Bool :=
  let t := n.tcb i
  match t.ooo with
  | [] => (n, false)
  | o :: _ =>
    if SEQ_LEQ o.seq t.rcvNxt then
      let r := oooDeliver n i
      if (r.1.tcb i).rcvNxt ≠ t.rcvNxt then
        (tcbNotify notify { r.1.modTcb i Tcb.ackAtOnce with ackDirty := true } i, r.2)
      else r
    else (n, false)

/-- The FIN takes its sequence number. -/
def Tcb.ended (t : Tcb) : Tcb :=
  { t with
    rcvNxt := t.rcvNxt + 1, rcvdFin := true, ackNow := true
    state := match t.state with
      | .established => .closeWait
      | .finWait1 => if t.finAcked then .timeWait else .closing
      | .finWait2 => .timeWait
      | s => s }

def takeFin : Net :=
  let n := n.modTcb i Tcb.ended
  tcbNotify notify (if (n.tcb i).state = .timeWait then enterTimeWait notify n i else n) i

/-- The end of a segment: new data may go out, and the acknowledgement. -/
def segmentOutput : Net :=
  let n := tcpOutput n i
  if (n.tcb i).ackNow then sendAck n i else n

/-- Whoever filled the last gap is answered at once. -/
def Tcb.gapClosed (wasGap : Bool) (t : Tcb) : Tcb := { t with ackNow := t.ackNow || (wasGap && t.ooo.isEmpty) }

/-- The segment is in sequence, as far as it has data. -/
def inSequence (seq : UInt32) (data : List Byte) (fin wasGap : Bool) : Net :=
  let r := if data = [] then (n, 0) else takeData notify n i data
  let fin := fin && decide (data.length ≤ r.2)
  let h := fillHole notify r.1 i
  let n := h.1.modTcb i (Tcb.gapClosed wasGap)
  let last := if h.2 then (n.tcb i).rcvNxt else seq + ofNat data.length
  segmentOutput (if (h.2 || fin) && last == (n.tcb i).rcvNxt then takeFin notify n i else n) i

/-- Step 5 of `segment_for_tcb`. -/
def segmentData (right : UInt32) : Net :=
  let t := n.tcb i
  let (seq, data, fin) := trim g t.rcvNxt right
  if t.state = .established ∨ t.state = .finWait1 ∨ t.state = .finWait2 then
    let wasGap := !t.ooo.isEmpty
    if data ≠ [] ∨ (fin ∧ seq ≠ t.rcvNxt) then
      if t.sock = none ∧ t.state ≠ .established ∧ t.rcvq.limit = 0 then tcbDie notify (sendRstConn n i) i .connReset
      else if seq = t.rcvNxt then inSequence notify n i seq data fin wasGap
      else sendAck (n.setTcb i (oooInsert t seq data fin n.env.ooo)) i
    else inSequence notify n i seq data fin wasGap
  else
    segmentOutput (if data ≠ [] ∨ fin then n.modTcb i fun t => { t with ackNow := true } else n) i

/-! ### Segments -/

/-- How much of the window that was advertised is left. -/
def rwin (t : Tcb) : UInt32 := if SEQ_GT t.rcvAdv t.rcvNxt then t.rcvAdv - t.rcvNxt else 0

def inWindow (t : Tcb) (x : UInt32) : Bool := SEQ_GEQ x t.rcvNxt && SEQ_LT x (t.rcvNxt + rwin t)

def acceptable (t : Tcb) : Bool :=
  if g.slen = 0 then if rwin t = 0 then g.seq == t.rcvNxt else inWindow t g.seq
  else if rwin t = 0 then false
  else inWindow t g.seq || inWindow t (g.seq + g.slen - 1)

/-- FIN_WAIT_2; an orphan does not wait forever. -/
def Tcb.finWaits (now : Nat) (t : Tcb) : Tcb :=
  { t with
    state := .finWait2, rtxDeadline := 0
    twDeadline := if t.sock.isNone then now + FIN_WAIT2_MS else t.twDeadline }

/-- The acknowledgement of a FIN of ours; the flag tells whether the segment is gone on with. -/
def finAcknowledged : Net × Bool :=
  let t := n.tcb i
  if t.finAcked then
    match t.state with
    | .finWait1 =>
      (tcbNotify notify (n.modTcb i (Tcb.finWaits n.now)) i, true)
    | .closing => (enterTimeWait notify n i, true)
    | .lastAck => (tcbClosed notify n i, false)
    | _ => (n, true)
  else (n, true)

/-- Steps 4 and 5 once the handshake is over. -/
def segmentAcked (right : UInt32) : Net :=
  let r := processAck notify n i g
  if !r.2 then r.1
  else
    let r := finAcknowledged notify r.1 i
    if !r.2 then r.1 else segmentData notify r.1 i g right

/-- Steps 2 to 5: the sequence number is acceptable. -/
def segmentAccepted : Net :=
  let t := n.tcb i
  let right := t.rcvNxt + rwin t
  if g.flags.rst then
    if t.state = .timeWait then n
    else if g.seq = t.rcvNxt then gotReset notify n i
    else sendAck n i
  else if g.flags.syn then sendAck n i
  else if !g.flags.ack then n
  else if t.state = .synRcvd then
    if SEQ_LT t.sndUna g.ack ∧ SEQ_LEQ g.ack t.sndNxt then
      let n := n.modTcb i fun t => handshakeSample t g.ack n.now
      segmentAcked notify (established notify n i g.seq g.ack g.wnd) i g right
    else replyRst n t.lip t.rip t.lport t.rport g.seq g.ack g.flags g.slen
  else segmentAcked notify n i g right

/-- A sign of life of the other side. -/
def Tcb.heard (n : Net) (t : Tcb) : Tcb :=
  { t with
    kaProbes := 0
    kaDeadline :=
      if t.kaDeadline ≠ 0 ∧ keptAlive n t ∧ (t.state = .established ∨ t.state = .closeWait) then
        n.now + (kaIdleMs n t).toNat
      else t.kaDeadline }

def segmentForTcb : Net :=
  let n := n.modTcb i (Tcb.heard n)
  let t := n.tcb i
  if t.state = .synSent then synSentSegment notify n i g
  else if t.state = .synRcvd ∧ g.flags.syn ∧ g.seq = t.irs then sendSyn n i true
  else if t.state = .timeWait ∧ g.flags.fin ∧ !g.flags.rst then
    sendAck (n.setTcb i { t with twDeadline := n.now + 2 * MSL_MS }) i
  else if !acceptable g t then if g.flags.rst then n else sendAck n i
  else segmentAccepted notify n i g

/-! ### Listeners -/

/-- The connections of `l` that the handshake is not over for. -/
def halfOpen (n : Net) (l : SockId) : Nat :=
  n.tcbs.countP fun c => (n.tcb c).parent == some l && (n.tcb c).state == .synRcvd

/-- A half-open connection of `l`, for a SYN. -/
def Tcb.halfOpened (g : Segment) (l : SockId) (isn mtu : UInt32) (t : Tcb) : Tcb :=
  let mss := min (if g.mss ≠ 0 then g.mss else DEF_MSS) (mtu - 40)
  { t with
    parent := some l, passive := true, lip := g.dst, lport := g.dport, rip := g.src, rport := g.sport
    irs := g.seq, rcvNxt := g.seq + 1, iss := isn, sndUna := isn, mss := if mss < 64 then 64 else mss
    sndWnd := g.wnd, sndWl1 := g.seq, sndWl2 := 0, state := .synRcvd }

/-- The SYN is out; it is timed, and it will be sent again. -/
def Tcb.synOut (n : Net) (t : Tcb) : Tcb := armRtx n
  { t with sndNxt := t.iss + 1, sndMax := t.iss + 1, rttTiming := true, rttSeq := t.iss + 1, rttStart := n.now }

def Tcb.advertised (t : Tcb) : Tcb := { t with rcvAdv := t.rcvNxt + ofNat (min t.rcvq.limit 65535) }

def passiveOpen (l : SockId) : Net :=
  let s := n.sock l
  if s.backlog ≤ s.accCount + halfOpen n l then n
  else
    let mtu := (n.route g.src).elim NET_MTU Prod.snd
    match tcbAlloc n s.sndbuf s.rcvbuf with
    | none => n
    | some (i, n) =>
      let n := n.modTcb i (Tcb.halfOpened g l n.env.isn mtu)
      let n := sendSyn n i true
      (n.modTcb i Tcb.advertised).modTcb i (Tcb.synOut n)

/-- A segment of no connection. -/
def strayInput : Net :=
  if g.flags.rst then n
  else
    match findListener n g.dst g.dport with
    | some l =>
      if g.flags.syn ∧ !g.flags.ack then passiveOpen n g l
      else if g.flags.ack then replyRst n g.dst g.src g.dport g.sport g.seq g.ack g.flags g.slen
      else n
    | none => replyRst n g.dst g.src g.dport g.sport g.seq g.ack g.flags g.slen

def tcpInput : Net :=
  match tcbLookup n g.dst g.dport g.src g.sport with
  | none => strayInput n g
  | some i =>
    let t := n.tcb i
    -- a new incarnation may take the addresses of a connection in TIME_WAIT
    if t.state = .timeWait ∧ g.flags.syn ∧ !g.flags.ack ∧ !g.flags.rst ∧ SEQ_GT g.seq t.rcvNxt then
      strayInput (tcbFree n i) g
    else segmentForTcb notify n i g

end Input

end Win98Modern.Tcp
