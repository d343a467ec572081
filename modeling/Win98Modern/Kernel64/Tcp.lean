import Mathlib.Algebra.Group.Nat.Defs
import Mathlib.Logic.Function.Basic

/-!
# The TCP connections of the kernel

`net_tcp.c` keeps every connection on one list, `g_tcbs`, and a completed connection of a listener on the
listener's accept queue until `accept` takes it.  All of it runs under the net lock; packets to the host
itself are queued and come in when the lock is dropped.  This module has the state and what a connection
sends and gives up; `TcpInput` has what it receives.

A notification of a socket runs the `ConnectEx` and `AcceptEx` requests that can go on.  What they do is
the argument `notify` here: `TcpCalls` says what it can be.
-/

namespace Win98Modern.Tcp

abbrev Byte := UInt8

/-- Where a `tcb_t` is. -/
abbrev Id := Nat

/-- Where a `sock_t` is. -/
abbrev SockId := Nat

abbrev Ip := UInt32
abbrev Port := UInt16

/-! ### Sequence numbers -/

/-- `(int32_t)(a - b) < 0`. -/
def SEQ_LT (a b : UInt32) : Bool := decide (2 ^ 31 ≤ (a - b).toNat)

def SEQ_LEQ (a b : UInt32) : Bool := a == b || SEQ_LT a b

def SEQ_GT (a b : UInt32) : Bool := !SEQ_LEQ a b

def SEQ_GEQ (a b : UInt32) : Bool := !SEQ_LT a b

/-! ### Times and limits -/

def MSL_MS : Nat := 30000
def RTO_INIT : UInt32 := 1000
def RTO_MIN : UInt32 := 200
def RTO_MAX : UInt32 := 60000
def MAX_DATA_RTX : Nat := 9
def MAX_SYN_TRIES : Nat := 4
def DELACK_MS : Nat := 40
def FIN_WAIT2_MS : Nat := 60000
def KA_IDLE_MS : UInt32 := 7200000
def KA_INTVL_MS : UInt32 := 1000
def KA_PROBES : UInt32 := 10
def DEF_MSS : UInt32 := 536
def NET_MTU : UInt32 := 1500

/-! ### The state -/

inductive Tcps
  | closed
  | synSent
  | synRcvd
  | established
  | finWait1
  | finWait2
  | closeWait
  | closing
  | lastAck
  | timeWait
  deriving DecidableEq

/-- The `NET_ERR` codes that connections end with and calls answer. -/
inductive NetErr
  | connAborted
  | connReset
  | connRefused
  | timedOut
  | hostUnreach
  deriving DecidableEq

/-- A `bq_t`: the bytes it holds and how many it may hold. -/
structure Queue where
  data : List Byte := []
  limit : Nat := 0

def bqSpace (q : Queue) : Nat := q.limit - q.data.length

/-- Stores what fits and what there are pages for; `room` bytes go into the pages that can be had. -/
def bqWrite (q : Queue) (src : List Byte) (room : Nat) : Queue × Nat :=
  let n := min (min src.length (bqSpace q)) room
  ({ q with data := q.data ++ src.take n }, n)

def bqPeek (q : Queue) (off n : Nat) : List Byte := (q.data.drop off).take n

def bqDrop (q : Queue) (n : Nat) : Queue := { q with data := q.data.drop n }

def bqFree (q : Queue) : Queue := { q with data := [] }

/-- `ooo_t`: `len` has 16 bits. -/
structure Ooo where
  seq : UInt32
  len : Nat
  fin : Bool
  data : List Byte

structure Tcb where
  sock : Option SockId := none
  parent : Option SockId := none
  state : Tcps := .closed
  finQueued : Bool := false
  finSent : Bool := false
  finAcked : Bool := false
  rcvdFin : Bool := false
  ackNow : Bool := false
  ackPending : Bool := false
  inRecovery : Bool := false
  rttTiming : Bool := false
  passive : Bool := false
  timedOut : Bool := false
  queued : Bool := false
  wasEst : Bool := false
  lip : Ip := 0
  rip : Ip := 0
  lport : Port := 0
  rport : Port := 0
  iss : UInt32 := 0
  irs : UInt32 := 0
  sndUna : UInt32 := 0
  sndNxt : UInt32 := 0
  sndMax : UInt32 := 0
  sndWnd : UInt32 := 0
  sndWl1 : UInt32 := 0
  sndWl2 : UInt32 := 0
  sndMaxWnd : UInt32 := 0
  rcvNxt : UInt32 := 0
  rcvAdv : UInt32 := 0
  mss : UInt32 := 0
  cwnd : UInt32 := 0
  ssthresh : UInt32 := 0
  recover : UInt32 := 0
  dupacks : Nat := 0
  srtt : UInt32 := 0
  rttvar : UInt32 := 0
  rto : UInt32 := 0
  rttSeq : UInt32 := 0
  rttStart : Nat := 0
  rtxDeadline : Nat := 0
  persistDeadline : Nat := 0
  twDeadline : Nat := 0
  ackDeadline : Nat := 0
  kaDeadline : Nat := 0
  rtxCount : Nat := 0
  persistShift : Nat := 0
  kaProbes : UInt32 := 0
  rxUnacked : Nat := 0
  sndq : Queue := {}
  rcvq : Queue := {}
  ooo : List Ooo := []
  oooBytes : Nat := 0
  err : Option NetErr := none

/-- What the connections use of a stream socket. -/
structure Sock where
  bound : Bool := false
  listening : Bool := false
  lip : Ip := 0
  rip : Ip := 0
  lport : Port := 0
  rport : Port := 0
  keepalive : Bool := false
  nodelay : Bool := false
  lingerOn : Bool := false
  lingerSecs : Nat := 0
  kaIdleS : UInt32 := 0
  kaIntvlS : UInt32 := 0
  kaCnt : UInt32 := 0
  extensionContextPending : Bool := false
  rcvbuf : Nat := 65536
  sndbuf : Nat := 65536
  tcb : Option Id := none
  accTail : Option Id := none
  accCount : Nat := 0
  backlog : Nat := 0

/-- Where a pointer of an accept queue is stored. -/
inductive Slot
  | head (l : SockId)
  | next (t : Id)
  deriving DecidableEq

structure Flags where
  fin : Bool := false
  syn : Bool := false
  rst : Bool := false
  psh : Bool := false
  ack : Bool := false
  deriving DecidableEq

/-- A segment given to `ip_output`. -/
structure Packet where
  src : Ip
  dst : Ip
  sport : Port
  dport : Port
  seq : UInt32
  ack : UInt32
  flags : Flags
  win : Nat
  mss : Option UInt32
  data : List Byte

/-- What a pending request does to its sockets when it goes on; `AcceptEx` and `ConnectEx` give up alike but
for the addresses they leave. -/
inductive Request
  | attach (l s : SockId)
  | read (s : SockId) (k : Nat)
  | write (s : SockId) (data : List Byte)
  | abandon (s : SockId) (accepting : Bool)

/-- What the rest of the kernel answers during one call. -/
structure Env where
  /-- What the requests do at each notification. -/
  requests : List (List Request) := []
  /-- How much the next `bq_write` calls find pages for; all, when there is no entry. -/
  rooms : List Nat := []
  /-- `kzalloc` of a tcb, of a socket, and `kmalloc` of a held segment. -/
  tcb : Option Id := none
  sock : Option SockId := none
  ooo : Bool := true
  /-- `make_isn` and `sock_alloc_port`. -/
  isn : UInt32 := 0
  port : Port := 0

structure Net where
  tcb : Id → Tcb
  /-- `g_tcbs`, along the `next` links. -/
  tcbs : List Id
  /-- The tcbs that `kzalloc` gave and `kfree` did not take back. -/
  heap : List Id
  /-- `acc_head` of the sockets and `acc_next` of the tcbs. -/
  acc : Slot → Option Id
  sock : SockId → Sock
  /-- `g_socks`: the sockets that are not dead. -/
  socks : List SockId
  /-- What `ip_route_src` answers. -/
  route : Ip → Option (Ip × UInt32)
  now : Nat
  ackDirty : Bool
  out : List Packet
  env : Env

def Net.setTcb (n : Net) (i : Id) (t : Tcb) : Net := { n with tcb := Function.update n.tcb i t }

def Net.modTcb (n : Net) (i : Id) (f : Tcb → Tcb) : Net := n.setTcb i (f (n.tcb i))

def Net.setSock (n : Net) (s : SockId) (f : Sock → Sock) : Net :=
  { n with sock := Function.update n.sock s (f (n.sock s)) }

def Net.setAcc (n : Net) (p : Slot) (t : Option Id) : Net := { n with acc := Function.update n.acc p t }

def Net.kfree (n : Net) (i : Id) : Net := { n with heap := n.heap.erase i }

def Net.ipOutput (n : Net) (p : Packet) : Net := { n with out := p :: n.out }

/-- What the next `bq_write` finds pages for. -/
def Net.room (n : Net) (len : Nat) : Nat := n.env.rooms.headD len

def Net.usedRoom (n : Net) : Net := { n with env := { n.env with rooms := n.env.rooms.tail } }

section Local

variable (n : Net) (i : Id)

/-! ### Options of the owner -/

def kaIdleMs (t : Tcb) : UInt32 :=
  match t.sock with
  | some s => if (n.sock s).kaIdleS ≠ 0 then (n.sock s).kaIdleS * 1000 else KA_IDLE_MS
  | none => KA_IDLE_MS

def kaIntvlMs (t : Tcb) : UInt32 :=
  match t.sock with
  | some s => if (n.sock s).kaIntvlS ≠ 0 then (n.sock s).kaIntvlS * 1000 else KA_INTVL_MS
  | none => KA_INTVL_MS

def kaCnt (t : Tcb) : UInt32 :=
  match t.sock with
  | some s => if (n.sock s).kaCnt ≠ 0 then (n.sock s).kaCnt else KA_PROBES
  | none => KA_PROBES

/-- `t->sock && t->sock->keepalive`. -/
def keptAlive (t : Tcb) : Bool := t.sock.any fun s => (n.sock s).keepalive

def tcpKeepaliveChanged : Net :=
  let t := n.tcb i
  let on := t.sock.any fun s => (n.sock s).keepalive && !(n.sock s).extensionContextPending
  if on ∧ (t.state = .established ∨ t.state = .closeWait) then
    n.setTcb i { t with kaDeadline := n.now + (kaIdleMs n t).toNat }
  else n.setTcb i { t with kaDeadline := 0 }

/-! ### Out-of-order segments -/

/-- `while (*pp && SEQ_LT((*pp)->seq, seq))`: what is before the place of `seq` and what is behind it. -/
def oooSplit (seq : UInt32) : List Ooo → List Ooo × List Ooo
  | [] => ([], [])
  | o :: os => if SEQ_LT o.seq seq then (o :: (oooSplit seq os).1, (oooSplit seq os).2) else ([], o :: os)

/-- A duplicate of something already held: `o` is the first segment behind the place. -/
def oooDuplicate (seq : UInt32) (len : Nat) (fin : Bool) (os : List Ooo) : Bool :=
  match os with
  | [] => false
  | o :: _ => o.seq == seq && decide (len ≤ o.len) && (!fin || o.fin)

def oooInsert (t : Tcb) (seq : UInt32) (data : List Byte) (fin alloc : Bool) : Tcb :=
  let len := data.length
  let r := oooSplit seq t.ooo
  if oooDuplicate seq len fin r.2 then t
  else if t.rcvq.limit < t.oooBytes + t.rcvq.data.length + len then t
  else if !alloc then t
  else
    { t with
      ooo := r.1 ++ { seq := seq, len := len % 2 ^ 16, fin := fin, data := data } :: r.2
      oooBytes := t.oooBytes + len }

/-- The first held segment is taken off the queue. -/
def Tcb.popped (os : List Ooo) (len : Nat) (t : Tcb) : Tcb := { t with ooo := os, oooBytes := t.oooBytes - len }

/-- `k` bytes went into the receive queue. -/
def Tcb.received (q : Queue) (k : Nat) (t : Tcb) : Tcb :=
  { t with rcvq := q, rcvNxt := t.rcvNxt + UInt32.ofNat k }

/-- The loop of `ooo_deliver` over the held segments; the flag tells that a FIN was reached. -/
def oooDeliverLoop : List Ooo → Net → Net × Bool
  | [], n => (n, false)
  | o :: os, n =>
    let t := n.tcb i
    if SEQ_LEQ o.seq t.rcvNxt then
      let right := o.seq + UInt32.ofNat o.len
      let n := n.modTcb i (Tcb.popped os o.len)
      if SEQ_GT right t.rcvNxt then
        let skip := (t.rcvNxt - o.seq).toNat
        let take := o.len - skip
        let r := bqWrite t.rcvq ((o.data.drop skip).take take) (n.room take)
        let n := (n.modTcb i (Tcb.received r.1 r.2)).usedRoom
        if r.2 < take then (n, false)
        else if o.fin && (n.tcb i).rcvNxt == right then (n, true)
        else oooDeliverLoop os n
      else if o.fin && t.rcvNxt == right then (n, true)
      else oooDeliverLoop os n
    else (n, false)

def oooDeliver : Net × Bool := oooDeliverLoop i (n.tcb i).ooo n

/-! ### The lists -/

/-- The walk of `acceptq_remove` at `p`, with the node before it. -/
def acceptqUnlink (l : SockId) (t : Id) : Nat → Option Id → Option Id → Net → Net
  | 0, _, _, n => n
  | _ + 1, _, none, n => n
  | fuel + 1, prev, some p, n =>
    if p = t then
      let n := n.setAcc (match prev with | some q => .next q | none => .head l) (n.acc (.next p))
      n.setSock l fun s =>
        { s with accTail := if s.accTail = some p then prev else s.accTail, accCount := s.accCount - 1 }
    else acceptqUnlink l t fuel (some p) (n.acc (.next p)) n

/-- The walk ends behind the last of the nodes, and these are on `g_tcbs`. -/
def acceptqRemove : Net :=
  match (n.tcb i).parent with
  | none => n
  | some l =>
    let n := if (n.tcb i).queued then acceptqUnlink l i (n.tcbs.length + 1) none (n.acc (.head l)) n else n
    n.modTcb i fun t => { t with queued := false, parent := none }

def tcbUnlink : Net := { n with tcbs := n.tcbs.erase i }

def tcbFree : Net :=
  let n := tcbUnlink (acceptqRemove n i) i
  let n := match (n.tcb i).sock with
    | some s => n.setSock s fun s => { s with tcb := none }
    | none => n
  n.kfree i

/-- `kzalloc` gives what is not in use. -/
def tcbAlloc (sndlim rcvlim : Nat) : Option (Id × Net) :=
  match n.env.tcb with
  | none => none
  | some i =>
    if i ∈ n.heap then none
    else
      let n := n.setTcb i { sndq := { limit := sndlim }, rcvq := { limit := rcvlim }, rto := RTO_INIT }
      some (i, { n.setAcc (.next i) none with tcbs := i :: n.tcbs, heap := i :: n.heap })

def tcbLookup (lip : Ip) (lport : Port) (rip : Ip) (rport : Port) : Option Id :=
  n.tcbs.find? fun i =>
    let t := n.tcb i
    t.lport == lport && t.rport == rport && t.rip == rip && t.lip == lip && t.state != .closed

/-- A listener at the address goes before one at any address; of these the last one of the list is taken. -/
def findListener (dst : Ip) (dport : Port) : Option SockId :=
  let ls := n.socks.filter fun s => (n.sock s).listening && (n.sock s).lport == dport
  match ls.find? fun s => (n.sock s).lip == dst with
  | some s => some s
  | none => (ls.filter fun s => (n.sock s).lip == 0).getLast?

/-! ### Sending -/

def rcvWindow (t : Tcb) : Nat :=
  let avail := bqSpace t.rcvq
  let cur := if SEQ_GT t.rcvAdv t.rcvNxt then (t.rcvAdv - t.rcvNxt).toNat else 0
  let thresh := min (if t.mss ≠ 0 then t.mss else DEF_MSS).toNat (t.rcvq.limit / 2)
  let win := if avail < cur then avail else if thresh ≤ avail - cur then avail else cur
  if 65535 < win then 65535 else win

/-- `rcv_adv` after a segment that advertises `win`. -/
def advertise (t : Tcb) (win : Nat) : UInt32 :=
  let right := t.rcvNxt + UInt32.ofNat win
  if SEQ_GT right t.rcvAdv then right else t.rcvAdv

/-- A segment with the option advertises the whole buffer and leaves `rcv_adv`. -/
def xmit (seq : UInt32) (flags : Flags) (off len : Nat) (mssOpt : Option UInt32) : Net :=
  let t := n.tcb i
  let win := if mssOpt.isSome then min t.rcvq.limit 65535 else rcvWindow t
  let t' := if mssOpt.isSome then t else { t with rcvAdv := advertise t win }
  let n := n.ipOutput
    { src := t.lip, dst := t.rip, sport := t.lport, dport := t.rport, seq := seq
      ack := if flags.ack then t.rcvNxt else 0
      flags := flags, win := win, mss := mssOpt, data := bqPeek t.sndq off len }
  n.setTcb i
    (if flags.ack then { t' with ackPending := false, ackNow := false, ackDeadline := 0, rxUnacked := 0 } else t')

def localMss (t : Tcb) : UInt32 := ((n.route t.rip).elim NET_MTU Prod.snd) - 40

def sendAck : Net := xmit n i (n.tcb i).sndNxt { ack := true } 0 0 none

def sendSyn (withAck : Bool) : Net :=
  xmit n i (n.tcb i).iss { syn := true, ack := withAck } 0 0 (some (localMss n (n.tcb i)))

/-- A RST for a segment that matches no connection. -/
def replyRst (lip rip : Ip) (lport rport : Port) (seq ack : UInt32) (flags : Flags) (slen : UInt32) : Net :=
  n.ipOutput
    { src := lip, dst := rip, sport := lport, dport := rport
      seq := if flags.ack then ack else 0
      ack := if flags.ack then 0 else seq + slen
      flags := { rst := true, ack := !flags.ack }, win := 0, mss := none, data := [] }

def sendRstConn : Net :=
  let t := n.tcb i
  n.ipOutput
    { src := t.lip, dst := t.rip, sport := t.lport, dport := t.rport, seq := t.sndNxt, ack := t.rcvNxt
      flags := { rst := true, ack := true }, win := 0, mss := none, data := [] }

/-! ### The output engine -/

def armRtx (n : Net) (t : Tcb) : Tcb := { t with rtxDeadline := n.now + t.rto.toNat }

def nextSegment (t : Tcb) (probe : Bool) : UInt32 × Bool × Bool :=
  let dataEnd := t.sndUna + UInt32.ofNat t.sndq.data.length
  let unsent := dataEnd - t.sndNxt
  let flight := t.sndNxt - t.sndUna
  let wnd := min t.sndWnd t.cwnd
  let avail := if flight < wnd then wnd - flight else 0
  let len := min (min unsent avail) t.mss
  let forced := probe && len == 0 && decide (0 < unsent)
  let len := if forced then 1 else len
  let nodelay := match t.sock with
    | some s => (n.sock s).nodelay && !(n.sock s).extensionContextPending
    | none => true
  -- Nagle, and then no small segment for a small window
  let len := if !forced ∧ 0 < len ∧ len < t.mss ∧ 0 < flight ∧ !nodelay ∧ !(t.finQueued && len == unsent) then 0
    else len
  let len := if !forced ∧ 0 < len ∧ len < t.mss ∧ len < unsent ∧ 0 < flight then 0 else len
  let fin := if len = 0 then t.finQueued && unsent == 0 && t.sndNxt == dataEnd && !t.finAcked
    else !forced && t.finQueued && len == unsent && decide (len < avail)
  (len, forced, fin)

/-- The connection once a segment with `len` bytes at `snd_nxt` is out. -/
def sentSegment (n : Net) (len : UInt32) (fin : Bool) (t : Tcb) : Tcb :=
  let seq := t.sndNxt
  let covered := len + (if fin then 1 else 0)
  let timed := !t.rttTiming && SEQ_GEQ seq t.sndMax && (len != 0 || fin)
  { t with
    rttTiming := t.rttTiming || timed
    rttSeq := if timed then seq + covered else t.rttSeq
    rttStart := if timed then n.now else t.rttStart
    sndNxt := seq + covered
    sndMax := if SEQ_GT (seq + covered) t.sndMax then seq + covered else t.sndMax
    rtxDeadline := if t.rtxDeadline = 0 then n.now + t.rto.toNat else t.rtxDeadline
    persistDeadline := 0
    finSent := t.finSent || fin
    state := if fin then
        match t.state with
        | .established => .finWait1
        | .closeWait => .lastAck
        | s => s
      else t.state }

/-- `for (;;)`: a turn that is not the last one sends unsent bytes. -/
def outputLoop : Nat → Net → Bool → Net
  | 0, n, _ => n
  | fuel + 1, n, probe =>
    let t := n.tcb i
    let dataEnd := t.sndUna + UInt32.ofNat t.sndq.data.length
    if SEQ_GT t.sndNxt dataEnd then n
    else
      let (len, forced, fin) := nextSegment n t probe
      if len = 0 ∧ !fin then n
      else
        let flags : Flags := { ack := true, psh := len != 0 && len == dataEnd - t.sndNxt, fin := fin }
        let n := xmit n i t.sndNxt flags (t.sndNxt - t.sndUna).toNat len.toNat none
        if forced then
          n.modTcb i fun u => { u with sndMax := if SEQ_GT (t.sndNxt + len) u.sndMax then t.sndNxt + len else u.sndMax }
        else
          let n := n.modTcb i (sentSegment n len fin)
          if fin then n else outputLoop fuel n probe

/-- The persist timer: data is waiting, the peer's window is closed and nothing is in flight. -/
def armPersist (n : Net) (t : Tcb) : Tcb :=
  let dataEnd := t.sndUna + UInt32.ofNat t.sndq.data.length
  if SEQ_GT dataEnd t.sndNxt ∧ t.sndWnd = 0 ∧ t.sndUna = t.sndNxt ∧ t.persistDeadline = 0 then
    { t with persistShift := 0, persistDeadline := n.now + t.rto.toNat }
  else t

def tcpOutputEx (probe : Bool) : Net :=
  let t := n.tcb i
  if t.state = .established ∨ t.state = .closeWait ∨ t.state = .finWait1 ∨ t.state = .closing ∨ t.state = .lastAck then
    let unsent := t.sndUna + UInt32.ofNat t.sndq.data.length - t.sndNxt
    let n := outputLoop i (unsent.toNat + 1) n probe
    n.modTcb i (armPersist n)
  else n

def tcpOutput : Net := tcpOutputEx n i false

/-- Sends the segment at `snd_una` again; with how much sequence space it covers. -/
def retransmitOne : Net × UInt32 :=
  let t := n.tcb i
  let dataEnd := t.sndUna + UInt32.ofNat t.sndq.data.length
  let n := n.setTcb i { t with rttTiming := false }
  if t.state = .synSent then (sendSyn n i false, 0)
  else if t.state = .synRcvd then (sendSyn n i true, 0)
  else if SEQ_LT t.sndUna dataEnd then
    let queued := dataEnd - t.sndUna
    let wasSent := if SEQ_GT t.sndMax dataEnd then queued else t.sndMax - t.sndUna
    let k := min t.mss (if wasSent ≠ 0 then wasSent else queued)
    let last := k == queued
    let fin := last && t.finQueued && SEQ_GT t.sndMax dataEnd
    (xmit n i t.sndUna { ack := true, psh := last, fin := fin } 0 k.toNat none, k + (if fin then 1 else 0))
  else if t.finSent && !t.finAcked then (xmit n i dataEnd { ack := true, fin := true } 0 0 none, 1)
  else (n, 0)

end Local

/-! ### The end of a connection -/

section Ends

variable (notify : Net → Net) (n : Net) (i : Id)

/-- A socket that nobody asks for only wakes who sleeps. -/
def tcbNotify : Net := if (n.tcb i).sock.isSome ∨ (n.tcb i).parent.isSome then notify n else n

/-- Both queues are discarded. -/
def tcbDie (err : NetErr) : Net :=
  tcbNotify notify (n.modTcb i fun t =>
    { t with
      state := .closed, err := t.err <|> some err
      rtxDeadline := 0, persistDeadline := 0, twDeadline := 0, ackDeadline := 0, kaDeadline := 0
      sndq := bqFree t.sndq, rcvq := bqFree t.rcvq, ooo := [], oooBytes := 0 }) i

/-- What the application has not read stays readable. -/
def tcbClosed : Net :=
  tcbNotify notify (n.modTcb i fun t =>
    { t with
      state := .closed
      rtxDeadline := 0, persistDeadline := 0, twDeadline := 0, ackDeadline := 0, kaDeadline := 0
      sndq := bqFree t.sndq }) i

def tcpAbort (sendRst : Bool) : Net :=
  let s := (n.tcb i).state
  let n := if sendRst ∧ s ≠ .closed ∧ s ≠ .synSent ∧ s ≠ .timeWait then sendRstConn n i else n
  tcbDie notify n i .connAborted

def tcpShutdownWrite (n : Net) (i : Id) : Net :=
  let t := n.tcb i
  if t.finQueued then n
  else if t.state = .established ∨ t.state = .closeWait ∨ t.state = .synRcvd then
    tcpOutput (n.setTcb i { t with finQueued := true }) i
  else n

/-- The application is gone: the connection goes on as an orphan, or is reset. -/
def tcbOrphaned (lingerReset : Bool) : Net :=
  let t := n.tcb i
  if t.state = .closed ∨ t.state = .synSent ∨ t.state = .timeWait then
    let n := if t.state = .timeWait then n else tcbClosed notify n i
    n.modTcb i fun t => { t with rcvq := { data := [], limit := 0 } }
  else if lingerReset ∨ t.rcvq.data ≠ [] then tcbDie notify (sendRstConn n i) i .connReset
  else
    let n := n.modTcb i fun t => { t with rcvq := { t.rcvq with limit := 0 } }
    let n := if t.state = .established ∨ t.state = .closeWait ∨ t.state = .synRcvd then tcpShutdownWrite n i else n
    if (n.tcb i).state = .finWait2 then n.modTcb i fun t => { t with twDeadline := n.now + FIN_WAIT2_MS } else n

/-- `c` is reset and freed if it is a child of `s`. -/
def freeChild (s : SockId) (n : Net) (c : Id) : Net :=
  if (n.tcb c).parent = some s then
    let st := (n.tcb c).state
    tcbFree (if st ≠ .closed ∧ st ≠ .timeWait then sendRstConn n c else n) c
  else n

def tcpSockClosed (s : SockId) : Net :=
  if (n.sock s).listening then
    let n := n.setSock s fun s => { s with listening := false }
    n.tcbs.foldl (freeChild s) n
  else
    match (n.sock s).tcb with
    | none => n
    | some i =>
      let lingerReset := (n.sock s).lingerOn && (n.sock s).lingerSecs == 0
      let n := (n.modTcb i fun t => { t with sock := none }).setSock s fun s => { s with tcb := none }
      tcbOrphaned notify n i lingerReset

/-- The neighbour is gone: who is connecting through it cannot complete. -/
def tcpHostUnreachable (unreachable : Ip → Bool) : Net :=
  n.tcbs.foldl (fun n i =>
    if (n.tcb i).state = .synSent ∧ unreachable (n.tcb i).rip then tcbDie notify n i .hostUnreach else n) n

def enterTimeWait : Net :=
  tcbNotify notify (n.modTcb i fun t =>
    { t with
      state := .timeWait, rtxDeadline := 0, persistDeadline := 0, kaDeadline := 0
      twDeadline := n.now + 2 * MSL_MS, sndq := bqFree t.sndq }) i

end Ends

end Win98Modern.Tcp
