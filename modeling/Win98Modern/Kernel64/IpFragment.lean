import Win98Modern.Lib.Pieces

/-!
# IP fragments

`ip_output`, which cuts a payload into fragments, and `ip_fragment_in` with its table of
reassemblies, of `net_core.c`.  A packet is the list of its bytes.  What `send_ip_packet` returns
and what `kmalloc` gives are parameters.
-/

namespace Win98Modern.Net

open Function

abbrev Byte := BitVec 8

/-- Bytes of a packet, in network order; a packet is never read behind its end. -/
def rd16 (p : List Byte) (i : Nat) : BitVec 16 := p.getD i 0 ++ p.getD (i + 1) 0

def rd32 (p : List Byte) (i : Nat) : BitVec 32 :=
  p.getD i 0 ++ p.getD (i + 1) 0 ++ p.getD (i + 2) 0 ++ p.getD (i + 3) 0

def wr16 (v : BitVec 16) : List Byte := [v.extractLsb' 8 8, v.extractLsb' 0 8]

def wr32 (v : BitVec 32) : List Byte :=
  [v.extractLsb' 24 8, v.extractLsb' 16 8, v.extractLsb' 8 8, v.extractLsb' 0 8]

def IP_HLEN : Nat := 20
def NET_MTU : Nat := 1500
def LO_MTU : Nat := 16384
def REASM_N : Nat := 3
def REASM_MS : Nat := 30000

/-! ### Transmit -/

inductive NetErr
  | WSAEMSGSIZE
  | WSAENETDOWN
  | WSAENETUNREACH
deriving DecidableEq, Repr

def csumAdd (sum : BitVec 32) : List Byte → BitVec 32
  | a :: b :: data => csumAdd (sum + (a ++ b).setWidth 32) data
  | [a] => sum + a.setWidth 32 <<< 8
  | [] => sum

/-- `csum_fold`; a sum of 32 bits is folded after two turns, the third finds no carry. -/
def csumFold (sum : BitVec 32) : BitVec 16 :=
  let fold (s : BitVec 32) := if s >>> 16 = 0 then s else (s &&& 0xffff) + s >>> 16
  ~~~(fold^[3] sum).setWidth 16

/-- `build_ip_header`, with the checksum over the header with a checksum of 0. -/
def buildIpHeader (proto : Byte) (src dst : BitVec 32) (total : Nat) (id frag : BitVec 16) :
    List Byte :=
  let header (csum : BitVec 16) : List Byte :=
    [0x45, 0] ++ wr16 (BitVec.ofNat 16 total) ++ wr16 id ++ wr16 frag ++ [64, proto] ++
      wr16 csum ++ wr32 src ++ wr32 dst
  header (csumFold (csumAdd 0 (header 0)))

/-- `g_net`, as far as routes depend on it. -/
structure NetConfig where
  ip : BitVec 32
  mask : BitVec 32
  gw : BitVec 32
  nicPresent : Bool

structure Route where
  lo : Bool
  bcast : Bool
  nexthop : BitVec 32
  src : BitVec 32
  mtu : Nat

def NetConfig.isLocal (g : NetConfig) (a : BitVec 32) : Bool :=
  a >>> 24 = 127 || (g.ip ≠ 0 && a = g.ip)

def NetConfig.isBroadcast (g : NetConfig) (a : BitVec 32) : Bool :=
  a = 0xffffffff ||
    (g.ip ≠ 0 && g.mask ≠ 0 && a &&& ~~~g.mask = ~~~g.mask && a &&& g.mask = g.ip &&& g.mask)

def NetConfig.routeLookup (g : NetConfig) (dst : BitVec 32) : Except NetErr Route :=
  if g.isLocal dst then .ok ⟨true, false, dst, dst, LO_MTU⟩
  else if ¬g.nicPresent ∨ dst = 0 ∨ dst >>> 28 = 0xe then .error .WSAENETUNREACH
  else if dst = 0xffffffff ∨ g.isBroadcast dst then .ok ⟨false, true, dst, g.ip, NET_MTU⟩
  else if g.ip = 0 then .error .WSAENETUNREACH
  else if dst &&& g.mask = g.ip &&& g.mask then .ok ⟨false, false, dst, g.ip, NET_MTU⟩
  else if g.gw ≠ 0 then .ok ⟨false, false, g.gw, g.ip, NET_MTU⟩
  else .error .WSAENETUNREACH

/-- What a call of `ip_output` returns, the packets it passed to `send_ip_packet`, and `ip_ident`
after it. -/
structure Output where
  status : Option NetErr
  packets : List (List Byte)
  ident : BitVec 16

/-- The fragmentation loop: `send i` is what `send_ip_packet` returns for the packet `i`.  Each turn
sends a byte at least if `per` is not 0, so that `payload.length` turns of fuel are enough. -/
def fragmentLoop (header : Nat → BitVec 16 → List Byte) (payload : List Byte) (per : Nat)
    (send : Nat → Option NetErr) : Nat → Nat → Nat → Option NetErr × List (List Byte)
  | 0, _, _ => (none, [])
  | fuel + 1, off, i =>
    if off < payload.length then
      let n := if payload.length - off > per then per else payload.length - off
      let more := off + n < payload.length
      let packet := header (IP_HLEN + n) (BitVec.ofNat 16 (off / 8 ||| if more then 0x2000 else 0)) ++
        (payload.drop off).take n
      match send i with
      | some st => (some st, [packet])
      | none =>
        let rest := fragmentLoop header payload per send fuel (off + n) (i + 1)
        (rest.1, packet :: rest.2)
    else (none, [])

/-- `ip_output` behind its `route_lookup`. -/
def Route.ipOutput (rt : Route) (ident : BitVec 16) (send : Nat → Option NetErr) (proto : Byte)
    (src dst : BitVec 32) (payload : List Byte) (df : Bool) : Output :=
  let src := if src = 0 then rt.src else src
  let id := ident + 1
  if payload.length + IP_HLEN ≤ rt.mtu then
    ⟨send 0, [buildIpHeader proto src dst (IP_HLEN + payload.length) id (if df then 0x4000 else 0) ++
      payload], id⟩
  else if df ∨ payload.length + IP_HLEN > 65535 then ⟨some .WSAEMSGSIZE, [], ident⟩
  else
    let per := (rt.mtu - IP_HLEN) / 8 * 8
    let sent := fragmentLoop (fun total frag => buildIpHeader proto src dst total id frag) payload per
      send payload.length 0 0
    ⟨sent.1, sent.2, id⟩

def NetConfig.ipOutput (g : NetConfig) (ident : BitVec 16) (send : Nat → Option NetErr)
    (proto : Byte) (src dst : BitVec 32) (payload : List Byte) (df : Bool) : Output :=
  match g.routeLookup dst with
  | .error st => ⟨some st, [], ident⟩
  | .ok rt => rt.ipOutput ident send proto src dst payload df

/-! ### Receive -/

/-- What tells the fragments of one datagram from those of another. -/
structure Flow where
  src : BitVec 32
  dst : BitVec 32
  id : BitVec 16
  proto : Byte
deriving DecidableEq, Repr

/-- A used entry of `reasm`.  `bitmap u` is the bit `u & 7` of its byte `u >> 3`; `pieces`, the
fragments written since the entry was opened, the latest first, is for the proofs only. -/
structure Reasm where
  flow : Flow
  deadline : Nat
  buf : Nat → Byte
  total : Nat
  gotUnits : Nat
  bitmap : Nat → Bool
  pieces : List (Piece Byte)

/-- `reasm`; an entry that is not used holds zeros only. -/
abbrev Table := Fin REASM_N → Option Reasm

structure Datagram where
  proto : Byte
  src : BitVec 32
  dst : BitVec 32
  payload : List Byte
deriving DecidableEq, Repr

def flowOf (p : List Byte) : Flow := ⟨rd32 p 12, rd32 p 16, rd16 p 4, p.getD 9 0⟩

/-- The fragment in the packet `p`, with a header of `hlen` bytes and `total` bytes in all. -/
def fragmentOf (p : List Byte) (hlen total : Nat) : Piece Byte where
  off := (rd16 p 6 &&& 0x1fff).toNat * 8
  data := (p.drop hlen).take (total - hlen)
  last := rd16 p 6 &&& 0x2000 = 0

/-- The fragments that `ip_fragment_in` ignores. -/
def Refused (f : Piece Byte) : Prop :=
  (f.last = false ∧ f.data.length % 8 ≠ 0) ∨ f.data.length = 0 ∨ f.off + f.data.length > 65528

instance : DecidablePred Refused := fun _ => inferInstanceAs (Decidable (_ ∨ _))

def Table.find (t : Table) (flow : Flow) : Option (Fin REASM_N) :=
  (List.finRange REASM_N).find? fun i => (t i).any fun r => decide (r.flow = flow)

def Table.deadline (t : Table) (i : Fin REASM_N) : Nat := ((t i).map Reasm.deadline).getD 0

/-- The entry with the smallest deadline, the first of them. -/
def Table.oldest (t : Table) : Fin REASM_N :=
  (List.finRange REASM_N).tail.foldl (fun r i => if t.deadline i < t.deadline r then i else r)
    ⟨0, by decide⟩

/-- The entry to open: one that is not used, or the oldest, which is evicted. -/
def Table.pick (t : Table) : Fin REASM_N :=
  ((List.finRange REASM_N).find? fun i => (t i).isNone).getD t.oldest

/-- The entry for a fragment of `flow`, opened if there is none; `kmalloc` is what the allocation of
its buffer gives, the bytes it happens to hold or nothing. -/
def Table.entryFor (t : Table) (flow : Flow) (kmalloc : Option (Nat → Byte)) (now : Nat) :
    Fin REASM_N × Option Reasm :=
  match t.find flow with
  | some i => (i, t i)
  | none =>
    (t.pick, kmalloc.map fun junk => ⟨flow, now + REASM_MS, junk, 0, 0, fun _ => false, []⟩)

/-- One turn of the loop over the units of a fragment. -/
def mark (b : (Nat → Bool) × Nat) (u : Nat) : (Nat → Bool) × Nat :=
  if b.1 u then b else (update b.1 u true, b.2 + 1)

def Reasm.write (r : Reasm) (f : Piece Byte) : Reasm :=
  let first := f.off / 8
  let last := (f.off + f.data.length + 7) / 8
  let marked := (List.range' first (last - first)).foldl mark (r.bitmap, r.gotUnits)
  { r with
    buf := fun i =>
      if f.off ≤ i ∧ i < f.off + f.data.length then f.data.getD (i - f.off) 0 else r.buf i
    bitmap := marked.1
    gotUnits := marked.2
    total := if f.last then f.off + f.data.length else r.total
    pieces := f :: r.pieces }

/-- The test for a finished reassembly. -/
def Reasm.Done (r : Reasm) : Prop := r.total ≠ 0 ∧ r.gotUnits = (r.total + 7) / 8

instance : DecidablePred Reasm.Done := fun _ => inferInstanceAs (Decidable (_ ∧ _))

def Reasm.datagram (r : Reasm) : Datagram :=
  ⟨r.flow.proto, r.flow.src, r.flow.dst, (List.range r.total).map r.buf⟩

def Table.written (t : Table) (p : List Byte) (hlen total : Nat) (kmalloc : Option (Nat → Byte))
    (now : Nat) : Option Reasm :=
  if Refused (fragmentOf p hlen total) then none
  else (t.entryFor (flowOf p) kmalloc now).2.map fun r => r.write (fragmentOf p hlen total)

/-- `ip_fragment_in`: the table after it, and the datagram it delivers. -/
def Table.ipFragmentIn (t : Table) (p : List Byte) (hlen total : Nat)
    (kmalloc : Option (Nat → Byte)) (now : Nat) : Table × Option Datagram :=
  let f := fragmentOf p hlen total
  if Refused f then (t, none)
  else
    match t.entryFor (flowOf p) kmalloc now with
    | (i, none) => (update t i none, none)
    | (i, some r) =>
      let r := r.write f
      if r.Done then (update t i none, some r.datagram)
      else (update t i (some r), none)

/-- The part of `net_timers` that is about `reasm`. -/
def Table.timers (t : Table) (now : Nat) : Table := fun i =>
  (t i).filter fun r => now < r.deadline

/-! ### Runs -/

/-- A packet as `ip_input` passes it on: the header and the whole are inside it. -/
structure Arrival where
  packet : List Byte
  hlen : Nat
  total : Nat
  hlen_le : hlen ≤ total
  total_le : total ≤ packet.length

inductive NetAct
  | fragment (a : Arrival) (kmalloc : Option (Nat → Byte)) (now : Nat)
  | timers (now : Nat)

/-- The table, and the datagrams delivered, the latest first. -/
structure Stack where
  reasm : Table
  delivered : List Datagram

def Stack.empty : Stack := ⟨fun _ => none, []⟩

def step (s : Stack) : NetAct → Stack
  | .fragment a kmalloc now =>
    let r := s.reasm.ipFragmentIn a.packet a.hlen a.total kmalloc now
    ⟨r.1, r.2.toList ++ s.delivered⟩
  | .timers now => { s with reasm := s.reasm.timers now }

end Win98Modern.Net
