import Win98Modern.Kernel64.DnsName

/-!
# The stub resolver

net_dns.c: responses, the cache and `dns_resolve`.  A lookup keeps the network lock but for the wait for a
datagram, so that lookups interleave there.  Texts are those of C strings; a lookup and an entry of the
cache are records, times are in milliseconds.
-/

namespace Win98Modern.Dns

inductive Err
  | noRecovery
  | hostNotFound
  | tryAgain
  | noData
  | noBufs
  | timedOut
  | unreachable
  | other (code : Nat)
  deriving DecidableEq, Repr

/-! ### Responses -/

/-- What is kept of a resource record. -/
structure RR where
  off : Nat
  type : Nat
  rdlen : Nat
  rdoff : Nat
  ttl : Nat
  deriving DecidableEq, Repr

def CNAME : Nat := 5
def A : Nat := 1

/-- The loop over the answer section, at most `n` records from `off` on. -/
def records (p : List Byte) : Nat → Nat → List RR
  | 0, _ => []
  | n + 1, off =>
    match dnsName p off with
    | .name _ next =>
      let rdlen := rd16 p (next + 8)
      if p.length < next + 10 ∨ p.length < next + 10 + rdlen then []
      else ⟨off, rd16 p next, rdlen, next + 10, rd32 p (next + 4)⟩ :: records p n (next + 10 + rdlen)
    | _ => []

/-- `cur`, `changed` and `ttl_min`. -/
structure Chase where
  cur : Text
  changed : Bool
  ttl : Nat
  deriving DecidableEq, Repr

/-- A record in a pass for CNAMEs. -/
def chaseOne (p : List Byte) (c : Chase) (r : RR) : Chase :=
  if r.type ≠ CNAME then c
  else
    match dnsName p r.off, dnsName p r.rdoff with
    | .name owner _, .name target _ =>
      if cstr owner ≠ c.cur then c
      else
        { cur := if cstr target ≠ c.cur then (cstr target).take (nameCap - 1) else c.cur
          changed := c.changed || decide (cstr target ≠ c.cur)
          ttl := min c.ttl r.ttl }
    | _, _ => c

/-- The passes, until nothing changes. -/
def chase (p : List Byte) (rrs : List RR) : Nat → Text → Nat → Text × Nat
  | 0, cur, ttl => (cur, ttl)
  | n + 1, cur, ttl =>
    let c := rrs.foldl (chaseOne p) ⟨cur, false, ttl⟩
    if c.changed then chase p rrs n c.cur c.ttl else (c.cur, c.ttl)

def DNS_MAX_ADDR : Nat := 8

/-- A record in the loop for addresses. -/
def collectOne (p : List Byte) (cur : Text) (acc : List Nat × Nat) (r : RR) : List Nat × Nat :=
  if DNS_MAX_ADDR ≤ acc.1.length ∨ r.type ≠ A ∨ r.rdlen ≠ 4 then acc
  else
    match dnsName p r.off with
    | .name owner _ => if cstr owner ≠ cur then acc else (acc.1 ++ [rd32 p r.rdoff], min acc.2 r.ttl)
    | _ => acc

/-- `parse_response`: the addresses and the time to live. -/
def parseResponse (p : List Byte) (id : Nat) (qname : Text) : Except Err (List Nat × Nat) :=
  if p.length < 12 ∨ rd16 p 0 ≠ id then .error .noRecovery
  else if rd16 p 2 < 0x8000 then .error .noRecovery
  else if rd16 p 2 % 16 = 3 then .error .hostNotFound
  else if rd16 p 2 % 16 = 2 then .error .tryAgain
  else if rd16 p 2 % 16 ≠ 0 then .error .noRecovery
  else if rd16 p 4 ≠ 1 then .error .noRecovery
  else
    match dnsName p 12 with
    | .name owner off =>
      if cstr owner ≠ qname ∨ p.length < off + 4 ∨ rd16 p off ≠ 1 ∨ rd16 p (off + 2) ≠ 1 then .error .noRecovery
      else
        let rrs := records p (min (rd16 p 6) 48) (off + 4)
        let c := chase p rrs 8 (qname.take (nameCap - 1)) 0xffffffff
        let r := rrs.foldl (collectOne p c.1) ([], c.2)
        if r.1 = [] then .error .noData else .ok (r.1, if r.2 = 0xffffffff then 60 else r.2)
    | _ => .error .noRecovery

/-! ### The cache -/

/-- `dns_ent_t`; an entry that is not used is absent. -/
structure Ent where
  name : Text
  addr : List Nat
  neg : Option Err
  server : Nat
  port : Nat
  expires : Nat
  deriving DecidableEq, Repr

def DNS_CACHE_N : Nat := 16

/-- The letters that fit in the name of an entry. -/
def entName : Nat := 127

def Ent.isFor (e : Ent) (name : Text) (server port : Nat) : Bool := e.server == server && e.port == port && e.name == name

def cacheFind (cache : List (Option Ent)) (now : Nat) (name : Text) (server port : Nat) : Option Ent :=
  cache.findSome? fun o => o.filter fun e => decide (now < e.expires) && e.isFor name server port

/-- The loop of `cache_put`, from an index on. -/
def pickLoop (now : Nat) (name : Text) (server port : Nat) : List (Option Ent) → Nat → Option Nat → Option Nat
  | [], _, e => e
  | none :: rest, i, e => pickLoop now name server port rest (i + 1) (e.or (some i))
  | some x :: rest, i, e =>
    if x.isFor name server port then some i
    else pickLoop now name server port rest (i + 1) (if x.expires ≤ now then e.or (some i) else e)

/-- When an answer that is stored expires. -/
def expiry (now ttl : Nat) : Nat := now + min ttl 3600 * 1000

/-- `cache_put`, with the random number for the slot. -/
def cachePut (cache : List (Option Ent)) (now : Nat) (name : Text) (server port : Nat) (addr : List Nat)
    (neg : Option Err) (ttl random : Nat) : List (Option Ent) :=
  cache.set ((pickLoop now name server port cache 0 none).getD (random % DNS_CACHE_N))
    (some ⟨name.take entName, addr, neg, server, port, expiry now ttl⟩)

/-! ### Lookups -/

def parseDotted : Nat → Nat → Nat → Nat → Text → Option Nat
  | v, parts, cur, digits, [] => if digits = 0 ∨ parts + 1 ≠ 4 then none else some (v * 256 + cur)
  | v, parts, cur, digits, c :: cs =>
    if 0x30 ≤ c ∧ c ≤ 0x39 then
      let cur := cur * 10 + (c.toNat - 0x30)
      if 3 < digits + 1 ∨ 255 < cur then none else parseDotted v parts cur (digits + 1) cs
    else if c = dot then if digits = 0 then none else parseDotted (v * 256 + cur) (parts + 1) 0 0 cs
    else none

def localhost : Text := [0x6c, 0x6f, 0x63, 0x61, 0x6c, 0x68, 0x6f, 0x73, 0x74]

structure Lookup where
  name : Text
  server : Nat
  port : Nat
  max : Nat
  attempt : Nat
  id : Nat
  deriving DecidableEq, Repr

/-- Where an answer comes from. -/
inductive Source
  | here
  | cache
  | fresh
  deriving DecidableEq, Repr

structure Return where
  name : Text
  server : Nat
  port : Nat
  result : Except Err (List Nat)
  source : Source
  time : Nat

/-- A datagram that a lookup has read, with the id that was pending. -/
structure Received where
  server : Nat
  port : Nat
  pending : Nat
  data : List Byte
  deriving DecidableEq, Repr

/-- An answer that was stored. -/
structure Put where
  name : Text
  server : Nat
  port : Nat
  addr : List Nat
  neg : Option Err
  time : Nat
  ttl : Nat
  deriving DecidableEq, Repr

/-- The resolver and what has happened. -/
structure System where
  now : Nat
  cache : List (Option Ent)
  lookups : List Lookup
  received : List Received
  puts : List Put
  returns : List Return

def System.init : System := ⟨0, List.replicate DNS_CACHE_N none, [], [], [], []⟩

namespace System

variable (s : System)

def put (name : Text) (server port : Nat) (addr : List Nat) (neg : Option Err) (ttl random : Nat) : System :=
  { s with
    cache := cachePut s.cache s.now name server port addr neg ttl random
    puts := s.puts ++ [⟨name, server, port, addr, neg, s.now, ttl⟩] }

def give (name : Text) (server port : Nat) (result : Except Err (List Nat)) (source : Source) : System :=
  { s with returns := s.returns ++ [⟨name, server, port, result, source, s.now⟩] }

/-- The end of `dns_resolve`. -/
def finish (l : Lookup) (st : Except Err (List Nat × Nat)) (random : Nat) : System :=
  match st with
  | .ok (addr, ttl) => (s.put l.name l.server l.port addr none ttl random).give l.name l.server l.port (.ok (addr.take l.max)) .fresh
  | .error e =>
    (if e = .hostNotFound ∨ e = .noData then s.put l.name l.server l.port [] (some e) 30 random else s).give
      l.name l.server l.port (.error e) .fresh

/-- An attempt: the query is sent with this id, or `udp_send` fails. -/
def query (l : Lookup) (attempt id : Nat) (sent : Option Err) (random : Nat) : System :=
  match sent with
  | none => { s with lookups := s.lookups ++ [{ l with attempt := attempt, id := id }] }
  | some e => s.finish l (.error e) random

/-- After an attempt that is not final. -/
def retry (l : Lookup) (id : Nat) (sent : Option Err) (random : Nat) : System :=
  if l.attempt + 1 < 3 then s.query l (l.attempt + 1) id sent random else s.finish l (.error .tryAgain) random

def target (server port dns : Nat) : Nat × Nat :=
  if server = 0 then (dns, 53) else if port = 0 then (server, 53) else (server, port)

/-- `dns_resolve` up to the first wait. -/
def call (nameIn : Text) (server port max dns : Nat) (socket : Bool) (id : Nat) (sent : Option Err) (random : Nat) :
    System :=
  let t := target server port dns
  match acceptName nameIn with
  | none => s.give nameIn t.1 t.2 (.error .hostNotFound) .here
  | some name =>
    if name = localhost then s.give name t.1 t.2 (.ok [0x7f000001]) .here
    else
      match parseDotted 0 0 0 0 name with
      | some lit => s.give name t.1 t.2 (.ok [lit]) .here
      | none =>
        if t.1 = 0 then s.give name t.1 t.2 (.error .tryAgain) .here
        else
          match cacheFind s.cache s.now name t.1 t.2 with
          | some e =>
            s.give name t.1 t.2 (match e.neg with
              | some err => .error err
              | none => .ok (e.addr.take max)) .cache
          | none =>
            if socket = false then s.give name t.1 t.2 (.error .noBufs) .here
            else s.query ⟨name, t.1, t.2, max, 0, id⟩ 0 id sent random

/-- The size of the buffer for a datagram. -/
def respSize : Nat := 1500

/-- `ksock_recvfrom` gives a datagram to a lookup. -/
def datagram (k : Nat) (l : Lookup) (src sport : Nat) (data : List Byte) (id : Nat) (sent : Option Err) (random : Nat) :
    System :=
  let resp := data.take respSize
  let s := { s with received := s.received ++ [⟨src, sport, l.id, resp⟩] }
  if src ≠ l.server ∨ sport ≠ l.port ∨ resp.length < 12 ∨ rd16 resp 0 ≠ l.id then s
  else
    let s := { s with lookups := s.lookups.eraseIdx k }
    match parseResponse resp l.id l.name with
    | .error .tryAgain => s.retry l id sent random
    | st => s.finish l st random

/-- `ksock_recvfrom` fails. -/
def recvError (k : Nat) (l : Lookup) (rs : Err) (id : Nat) (sent : Option Err) (random : Nat) : System :=
  let s := { s with lookups := s.lookups.eraseIdx k }
  if rs = .timedOut then s.retry l id sent random
  else if rs = .unreachable then s.finish l (.error .tryAgain) random
  else s.finish l (.error rs) random

end System

/-- The steps; what the network, the clock and the random numbers do is part of them. -/
inductive Event
  | tick (ms : Nat)
  | flush
  | call (nameIn : Text) (server port max dns : Nat) (socket : Bool) (id : Nat) (sent : Option Err) (random : Nat)
  | datagram (k : Nat) (src sport : Nat) (data : List Byte) (id : Nat) (sent : Option Err) (random : Nat)
  | recvError (k : Nat) (rs : Err) (id : Nat) (sent : Option Err) (random : Nat)
  deriving DecidableEq, Repr

def System.step (s : System) : Event → System
  | .tick ms => { s with now := s.now + ms }
  | .flush => { s with cache := List.replicate DNS_CACHE_N none }
  | .call nameIn server port max dns socket id sent random => s.call nameIn server port max dns socket id sent random
  | .datagram k src sport data id sent random =>
    match s.lookups[k]? with
    | some l => s.datagram k l src sport data id sent random
    | none => s
  | .recvError k rs id sent random =>
    match s.lookups[k]? with
    | some l => s.recvError k l rs id sent random
    | none => s

end Win98Modern.Dns
