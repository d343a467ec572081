import Win98Modern.Kernel64.TcpInput

/-!
# The calls into the connections

What the sockets, the timers and the network ask of `net_tcp.c`.  Each call runs under the net lock, so a
run is a list of calls, one after the other.  A pending `ConnectEx` or `AcceptEx` request goes on at a
notification: it may take a connection off an accept queue, read, write, or give its connection up
(`runRequest`).  The requests do not run each other (`extension_busy`, `g_acceptex_busy`), so there is a
bound on how deep notifications nest (`notifyAt`).
-/

namespace Win98Modern.Tcp

section Calls

variable (notify : Net → Net) (n : Net)

/-! ### Sockets and connections -/

/-- A connection of the socket `s` to be. -/
def Tcb.opening (s : SockId) (src : Ip) (lport : Port) (dst : Ip) (dport : Port) (isn mtu : UInt32) (t : Tcb) : Tcb :=
  { t with
    sock := some s, lip := src, lport := lport, rip := dst, rport := dport, iss := isn
    sndUna := isn, sndNxt := isn, sndMax := isn, mss := min (mtu - 40) 65535, state := .synSent, rcvAdv := 0 }

def tcpConnect (s : SockId) (dst : Ip) (dport : Port) : Net :=
  match n.route dst with
  | none => n
  | some (src, mtu) =>
    let src := if (n.sock s).lip ≠ 0 then (n.sock s).lip else src
    let n :=
      if (n.sock s).lport = 0 then
        n.setSock s fun k => { k with lport := n.env.port, bound := k.bound || n.env.port != 0 }
      else n
    if (n.sock s).lport = 0 then n
    else
      let lport := (n.sock s).lport
      if (tcbLookup n src lport dst dport).isSome then n
      else
        match tcbAlloc n (n.sock s).sndbuf (n.sock s).rcvbuf with
        | none => n
        | some (i, n) =>
          let n := n.modTcb i (Tcb.opening s src lport dst dport n.env.isn mtu)
          let n := sendSyn n i false
          let n := n.modTcb i (Tcb.synOut n)
          n.setSock s fun k =>
            { k with tcb := some i, lip := if k.lip ≠ 0 then k.lip else src, rip := dst, rport := dport }

def tcpListen (s : SockId) (backlog : Nat) : Net :=
  n.setSock s fun k => { k with backlog := min (max backlog 1) 128, listening := true }

def tcpAcceptDequeue (l : SockId) : Option (Id × Net) :=
  match n.acc (.head l) with
  | none => none
  | some t =>
    let next := n.acc (.next t)
    let n := (n.setAcc (.head l) next).setAcc (.next t) none
    let n := n.setSock l fun s =>
      { s with accTail := if next = none then none else s.accTail, accCount := s.accCount - 1 }
    some (t, n.modTcb t fun c => { c with parent := none, queued := false })

/-- The connection `t` of the listener `l` becomes that of the socket `s`. -/
def adopt (l s : SockId) (t : Id) : Net :=
  let k := n.sock l
  let c := n.tcb t
  (n.setSock s fun a =>
    { a with
      tcb := some t, lip := c.lip, lport := c.lport, rip := c.rip, rport := c.rport, bound := true
      keepalive := k.keepalive, nodelay := k.nodelay, lingerOn := k.lingerOn, lingerSecs := k.lingerSecs
      rcvbuf := k.rcvbuf, sndbuf := k.sndbuf, kaIdleS := k.kaIdleS, kaIntvlS := k.kaIntvlS, kaCnt := k.kaCnt }).setTcb
    t { c with
        sock := some s, sndq := { c.sndq with limit := k.sndbuf }, rcvq := { c.rcvq with limit := k.rcvbuf } }

def tcpAfterRead (i : Id) : Net :=
  let t := n.tcb i
  let cur := (rwin t).toNat
  let win := rcvWindow t
  if t.state = .established ∨ t.state = .finWait1 ∨ t.state = .finWait2 then
    if cur < win ∧ min t.mss.toNat (t.rcvq.limit / 2) ≤ win - cur then sendAck n i else n
  else n

/-- `bq_read_user` of what there is, up to `k` bytes, and `tcp_after_read`. -/
def readFrom (s : SockId) (k : Nat) : Net :=
  match (n.sock s).tcb with
  | none => n
  | some i =>
    if (n.tcb i).rcvq.data = [] ∨ k = 0 then n
    else tcpAfterRead (n.modTcb i fun t => { t with rcvq := bqDrop t.rcvq k }) i

/-- `bq_write_user` of what fits, and `tcp_output`. -/
def writeTo (s : SockId) (data : List Byte) : Net :=
  match (n.sock s).tcb with
  | none => n
  | some i =>
    let t := n.tcb i
    if (t.state = .established ∨ t.state = .closeWait) ∧ !t.finQueued then
      let r := bqWrite t.sndq data (n.room data.length)
      let n := (n.setTcb i { t with sndq := r.1 }).usedRoom
      if r.2 = 0 then n else tcpOutput n i
    else n

/-! ### Requests -/

/-- A socket that `AcceptEx` may hand a connection to. -/
def canTake (s : SockId) : Bool :=
  s ∈ n.socks && !(n.sock s).bound && !(n.sock s).listening && (n.sock s).tcb.isNone

def runRequest : Request → Net
  | .attach l s =>
    if canTake n s ∧ l ∈ n.socks ∧ (n.sock l).listening then
      match tcpAcceptDequeue n l with
      | some (t, n) => adopt n l s t
      | none => n
    else n
  | .read s k => if (n.sock s).listening then n else readFrom n s k
  | .write s data => if (n.sock s).listening then n else writeTo n s data
  | .abandon s accepting =>
    let n := match (n.sock s).tcb with
      | some i => tcpSockClosed notify (tcpAbort notify n i true) s
      | none => n
    n.setSock s fun k =>
      if accepting then { k with bound := false, lip := 0, lport := 0, rip := 0, rport := 0 }
      else { k with extensionContextPending := false, rip := 0, rport := 0 }

/-- What the requests do next. -/
def runRequests : Net :=
  match n.env.requests with
  | [] => n
  | rs :: rest => rs.foldl (runRequest notify) { n with env := { n.env with requests := rest } }

end Calls

/-- Notifications that nest `d` deep at most. -/
def notifyAt : Nat → Net → Net
  | 0, n => n
  | d + 1, n => runRequests (notifyAt d) n

/-! ### Timers -/

section Timers

variable (notify : Net → Net) (n : Net) (i : Id)

/-- The retransmission timer of `t` has run out. -/
def rtxTimeout : Net :=
  let t := n.tcb i
  let syn := t.state = .synSent ∨ t.state = .synRcvd
  let count := t.rtxCount + 1
  if (syn ∧ MAX_SYN_TRIES ≤ count) ∨ (¬syn ∧ MAX_DATA_RTX < count) then
    let n := n.setTcb i { t with rtxCount := count, timedOut := true }
    tcbDie notify (if syn then n else sendRstConn n i) i .timedOut
  else
    let t := { t with rtxCount := count }
    let t := if syn then t else
      { t with
        ssthresh := max ((t.sndMax - t.sndUna) / 2) (2 * t.mss), cwnd := t.mss, inRecovery := false
        dupacks := 0, sndNxt := t.sndUna }
    let r := retransmitOne (n.setTcb i { t with rto := if RTO_MAX < t.rto * 2 then RTO_MAX else t.rto * 2 }) i
    r.1.modTcb i fun u => armRtx n (if syn then u else { u with sndNxt := u.sndUna + r.2 })

def persistTimeout : Net :=
  let t := n.tcb i
  if t.sndWnd = 0 ∧ SEQ_GT (t.sndUna + UInt32.ofNat t.sndq.data.length) t.sndNxt then
    (tcpOutputEx n i true).modTcb i fun t =>
      let shift := if t.persistShift < 6 then t.persistShift + 1 else t.persistShift
      { t with
        persistShift := shift, persistDeadline := n.now + (min (t.rto <<< UInt32.ofNat shift) RTO_MAX).toNat }
  else n.setTcb i { t with persistDeadline := 0 }

def keepaliveTimeout : Net :=
  let t := n.tcb i
  if !keptAlive n t then n.setTcb i { t with kaDeadline := 0 }
  else if kaCnt n t ≤ t.kaProbes then tcbDie notify n i .timedOut
  else
    (xmit n i (t.sndUna - 1) { ack := true } 0 0 none).modTcb i fun u =>
      { u with kaProbes := u.kaProbes + 1, kaDeadline := n.now + (kaIntvlMs n u).toNat }

def ackTimer : Net :=
  let t := n.tcb i
  if t.ackPending ∧ t.ackDeadline ≠ 0 ∧ t.ackDeadline ≤ n.now ∧ t.state ≠ .closed then sendAck n i else n

def waitTimer : Net :=
  let t := n.tcb i
  if (t.state = .timeWait ∧ t.twDeadline ≤ n.now) ∨
      (t.state = .finWait2 ∧ t.twDeadline ≠ 0 ∧ t.twDeadline ≤ n.now) then
    tcbClosed notify n i
  else n

def rtxTimer : Net :=
  let t := n.tcb i
  if t.rtxDeadline ≠ 0 ∧ t.rtxDeadline ≤ n.now ∧ t.state ≠ .closed then rtxTimeout notify n i else n

def persistTimer : Net :=
  let t := n.tcb i
  if t.persistDeadline ≠ 0 ∧ t.persistDeadline ≤ n.now ∧ t.state ≠ .closed then persistTimeout n i else n

def keepaliveTimer : Net :=
  let t := n.tcb i
  if t.kaDeadline ≠ 0 ∧ t.kaDeadline ≤ n.now ∧ (t.state = .established ∨ t.state = .closeWait) then
    keepaliveTimeout notify n i
  else n

/-- What `tcp_timers` does with a connection; one that ended and that nobody knows is reaped. -/
def timersFor : Net :=
  let t := n.tcb i
  if t.state = .closed ∧ t.sock = none ∧ !t.queued then (tcbUnlink n i).kfree i
  else
    let n := ackTimer n i
    let n := waitTimer notify n i
    let n := rtxTimer notify n i
    let n := persistTimer n i
    keepaliveTimer notify n i

def tcpTimers : Net :=
  let n := notify n
  n.tcbs.foldl (timersFor notify) n

def tcpFlushAcks : Net :=
  if n.ackDirty then
    n.tcbs.foldl (fun n i => if (n.tcb i).ackPending ∧ (n.tcb i).state ≠ .closed then sendAck n i else n)
      { n with ackDirty := false }
  else n

end Timers

/-! ### Runs -/

inductive SockOpt
  | keepalive (on : Bool)
  | keepIdle (secs : UInt32)
  | keepIntvl (secs : UInt32)
  | keepCnt (count : UInt32)
  | nodelay (on : Bool)
  | linger (on : Bool) (secs : Nat)
  | sndbuf (size : Nat)
  | rcvbuf (size : Nat)
  /-- `SO_UPDATE_CONNECT_CONTEXT`. -/
  | updateContext

inductive Call
  | segment (g : Segment)
  | timers
  | flushAcks
  | hostUnreachable (unreachable : Ip → Bool)
  | routes (route : Ip → Option (Ip × UInt32))
  /-- `sock_new`: `env.sock` is the new socket. -/
  | socket
  | bind (s : SockId) (ip : Ip) (port : Port)
  | listen (s : SockId) (backlog : Nat)
  | accept (l : SockId)
  | connect (s : SockId) (dst : Ip) (dport : Port)
  /-- `ConnectEx`; its request writes at notifications. -/
  | connectEx (s : SockId) (dst : Ip) (dport : Port)
  /-- Reports a failed `connect`. -/
  | connectFailed (s : SockId)
  | disconnect (s : SockId)
  | recv (s : SockId) (k : Nat)
  | send (s : SockId) (data : List Byte)
  | shutdown (s : SockId)
  | setopt (s : SockId) (opt : SockOpt)
  | request (r : Request)
  | close (s : SockId)

def bufclamp (v : Nat) : Nat := if v < 2048 then 2048 else if 4 * 2 ^ 20 < v then 4 * 2 ^ 20 else v

/-- A socket of zeroes with the default buffers; what is in use is not given again. -/
def sockNew (n : Net) : Option (SockId × Net) :=
  match n.env.sock with
  | none => none
  | some s =>
    if s ∈ n.socks then none
    else some (s, { (n.setSock s fun _ => {}).setAcc (.head s) none with socks := s :: n.socks })

section Step

variable (notify : Net → Net) (n : Net)

def opAccept (l : SockId) : Net :=
  if (n.sock l).listening ∧ (n.sock l).accCount ≠ 0 then
    match tcpAcceptDequeue n l with
    | none => n
    | some (t, n) =>
      match sockNew n with
      | some (s, n) => adopt n l s t
      | none => (tcpAbort notify n t true).modTcb t fun c => { c with sock := none }
  else n

def opSetopt (s : SockId) : SockOpt → Net
  | .keepalive on =>
    let n := n.setSock s fun k => { k with keepalive := on }
    match (n.sock s).tcb with
    | some i => tcpKeepaliveChanged n i
    | none => n
  | .keepIdle secs =>
    let n := n.setSock s fun k => { k with kaIdleS := secs }
    match (n.sock s).tcb with
    | some i => tcpKeepaliveChanged n i
    | none => n
  | .keepIntvl secs => n.setSock s fun k => { k with kaIntvlS := secs }
  | .keepCnt count => n.setSock s fun k => { k with kaCnt := count }
  | .nodelay on =>
    let n := n.setSock s fun k => { k with nodelay := on }
    match (n.sock s).tcb with
    | some i => if on then tcpOutput n i else n
    | none => n
  | .linger on secs => n.setSock s fun k => { k with lingerOn := on, lingerSecs := secs }
  | .sndbuf size =>
    let n := n.setSock s fun k => { k with sndbuf := bufclamp size }
    match (n.sock s).tcb with
    | some i => n.modTcb i fun t => { t with sndq := { t.sndq with limit := bufclamp size } }
    | none => n
  | .rcvbuf size =>
    let n := n.setSock s fun k => { k with rcvbuf := bufclamp size }
    match (n.sock s).tcb with
    | some i => n.modTcb i fun t => { t with rcvq := { t.rcvq with limit := bufclamp size } }
    | none => n
  | .updateContext =>
    match (n.sock s).tcb with
    | some i => tcpOutput (tcpKeepaliveChanged (n.setSock s fun k => { k with extensionContextPending := false }) i) i
    | none => n

/-- `sock_close_locked`: the requests that name the socket are given up first. -/
def sockClose (s : SockId) : Net :=
  let n := notify n
  tcpSockClosed notify { n with socks := n.socks.erase s } s

def shutdownWrite (s : SockId) : Net :=
  match (n.sock s).tcb with
  | some i => if (n.tcb i).state = .synSent ∨ (n.tcb i).state = .closed then n else tcpShutdownWrite n i
  | none => n

/-- A call on a socket finds one that is not dead. -/
def call : Call → Net
  | .segment g => tcpInput notify n g
  | .timers => tcpTimers notify n
  | .flushAcks => tcpFlushAcks n
  | .hostUnreachable unreachable => tcpHostUnreachable notify n unreachable
  | .routes route => { n with route := route }
  | .socket =>
    match sockNew n with
    | some (_, n) => n
    | none => n
  | .bind s ip port =>
    if s ∈ n.socks ∧ !(n.sock s).bound ∧ (n.sock s).tcb = none ∧ !(n.sock s).listening then
      n.setSock s fun k => { k with lip := ip, lport := port, bound := true }
    else n
  | .listen s backlog =>
    if s ∈ n.socks ∧ (n.sock s).bound ∧ (n.sock s).tcb = none then tcpListen n s backlog else n
  | .accept l => if l ∈ n.socks then opAccept notify n l else n
  | .connect s dst dport =>
    if s ∈ n.socks ∧ !(n.sock s).listening ∧ (n.sock s).tcb = none then tcpConnect n s dst dport else n
  | .connectEx s dst dport =>
    if s ∈ n.socks ∧ !(n.sock s).listening ∧ (n.sock s).tcb = none ∧ (n.sock s).bound then
      let n := tcpConnect (n.setSock s fun k => { k with extensionContextPending := true }) s dst dport
      n.setSock s fun k => { k with extensionContextPending := k.tcb.isSome }
    else n
  | .connectFailed s =>
    match (n.sock s).tcb with
    | some i =>
      if s ∈ n.socks ∧ !(n.sock s).listening ∧ (n.tcb i).state = .closed ∧ (n.tcb i).err ≠ none ∧ !(n.tcb i).wasEst then
        (tcpSockClosed notify n s).setSock s fun k => { k with rip := 0, rport := 0 }
      else n
    | none => n
  | .disconnect s =>
    match (n.sock s).tcb with
    | some i =>
      if s ∈ n.socks ∧ !(n.sock s).listening ∧ (n.tcb i).wasEst ∧ (n.tcb i).state ≠ .closed then
        (tcpSockClosed notify n s).setSock s fun k => { k with extensionContextPending := false, rip := 0, rport := 0 }
      else n
    | none => n
  | .recv s k => if s ∈ n.socks ∧ !(n.sock s).listening then readFrom n s k else n
  | .send s data => if s ∈ n.socks ∧ !(n.sock s).listening then writeTo n s data else n
  | .shutdown s => if s ∈ n.socks then notify (shutdownWrite n s) else n
  | .setopt s opt => if s ∈ n.socks then opSetopt n s opt else n
  | .request r => runRequest notify n r
  | .close s => if s ∈ n.socks then sockClose notify n s else n

end Step

/-- A call, what the rest of the kernel answers during it, how deep its notifications nest, and how many
milliseconds went by before it. -/
structure Event where
  call : Call
  env : Env := {}
  depth : Nat := 3
  elapsed : Nat := 0

def step (n : Net) (e : Event) : Net :=
  call (notifyAt e.depth) { n with env := e.env, now := n.now + e.elapsed } e.call

def boot (route : Ip → Option (Ip × UInt32)) : Net where
  tcb := fun _ => {}
  tcbs := []
  heap := []
  acc := fun _ => none
  sock := fun _ => {}
  socks := []
  route := route
  now := 0
  ackDirty := false
  out := []
  env := {}

end Win98Modern.Tcp
