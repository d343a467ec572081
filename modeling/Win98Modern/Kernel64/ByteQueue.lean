import Win98Modern.Lib.Chain
import Mathlib.Algebra.Group.Nat.Defs

/-!
# The byte queues of sockets

`bq_t` of net_core.c: a list of pages that hold 4080 bytes each.  The first byte is at `hoff` in the
first chunk and the next one goes to `toff` in the last.  What `pmm_alloc` answers is an argument of the
calls that allocate, and so is the memory of the process.
-/

namespace Win98Modern.ByteQueue

open Function

abbrev Byte := UInt8
abbrev Addr := Nat

def BQ_DATA : Nat := 4080

/-- Where a pointer to a chunk is stored. -/
inductive Slot
  | head
  | next (c : Addr)
  deriving DecidableEq

/-- A `bq_t`, the chunks it points at, and the pages it got from `pmm_alloc` and did not give back. -/
structure Bq where
  slot : Slot → Option Addr
  tail : Option Addr
  data : Addr → Nat → Byte
  hoff : Nat
  toff : Nat
  len : Nat
  limit : Nat
  held : List Addr

/-- A queue of zeroes, as `tcb_alloc` sets it up. -/
def empty (data : Addr → Nat → Byte) (limit : Nat) : Bq :=
  ⟨fun _ => none, none, data, 0, 0, 0, limit, []⟩

/-- The memory of a process; `user_page` refuses what is not readable or writable. -/
structure User where
  readable : Nat → Bool
  writable : Nat → Bool
  mem : Nat → Byte

/-! ### Copies -/

/-- The bytes up to the first that cannot be read. -/
def fetch (u : User) : Nat → Nat → List Byte × Bool
  | _, 0 => ([], true)
  | uva, n + 1 =>
    if u.readable uva then
      let r := fetch u (uva + 1) n
      (u.mem uva :: r.1, r.2)
    else ([], false)

/-- What arrives at the destination, and whether it is all. -/
def copyFromUser (u : User) (uva n : Nat) : List Byte × Bool :=
  if 2 ^ 64 ≤ uva + n then ([], false) else fetch u uva n

def User.store (u : User) (uva : Nat) (b : Byte) : User := { u with mem := update u.mem uva b }

/-- Stores up to the first byte that cannot be written. -/
def deliver (u : User) : Nat → List Byte → User × Bool
  | _, [] => (u, true)
  | uva, b :: bs => if u.writable uva then deliver (u.store uva b) (uva + 1) bs else (u, false)

def copyToUser (u : User) (uva : Nat) (bs : List Byte) : User × Bool :=
  if 2 ^ 64 ≤ uva + bs.length then (u, false) else deliver u uva bs

/-- `memcpy` to `chunk_data(c) + off`. -/
def Bq.put (q : Bq) (c : Addr) (off : Nat) (bs : List Byte) : Bq :=
  { q with
    data := update q.data c fun i => if off ≤ i then bs.getD (i - off) (q.data c i) else q.data c i }

/-- `memcpy` from `chunk_data(c) + off`. -/
def Bq.get (q : Bq) (c : Addr) (off n : Nat) : List Byte := (List.range n).map fun i => q.data c (off + i)

/-! ### The calls -/

def bqSpace (q : Bq) : Nat := if q.len < q.limit then q.limit - q.len else 0

/-- `chunk_new` and the links to the new chunk. -/
def Bq.link (q : Bq) (c : Addr) : Bq :=
  let slot := update q.slot (.next c) none
  match q.tail with
  | some t =>
    { q with slot := update slot (.next t) (some c), tail := some c, toff := 0, held := c :: q.held }
  | none =>
    { q with
      slot := update slot .head (some c), hoff := 0, tail := some c, toff := 0, held := c :: q.held }

/-- The chunk that the next byte goes to, the queue and the answers of `pmm_alloc` that are left. -/
def bqRoom (q : Bq) (pages : List (Option Addr)) : Option Addr × Bq × List (Option Addr) :=
  if q.tail = none ∨ q.toff = BQ_DATA then
    match pages with
    | some c :: pages => (some c, q.link c, pages)
    | none :: pages => (none, q, pages)
    | [] => (none, q, [])
  else (q.tail, q, pages)

def Bq.advance (q : Bq) (k : Nat) : Bq := { q with toff := q.toff + k, len := q.len + k }

/-- The loop of `bq_write`; `s` is what is left to write.  Each turn writes a byte at least. -/
def writeLoop : Nat → Bq → List Byte → List (Option Addr) → Nat → Bq × Nat
  | 0, q, _, _, done => (q, done)
  | fuel + 1, q, s, pages, done =>
    if s = [] then (q, done)
    else
      match bqRoom q pages with
      | (none, q, _) => (q, done)
      | (some c, q, pages) =>
        let k := min (BQ_DATA - q.toff) s.length
        writeLoop fuel ((q.put c q.toff (s.take k)).advance k) (s.drop k) pages (done + k)

def bqWrite (q : Bq) (src : List Byte) (pages : List (Option Addr)) : Bq × Nat :=
  let n := min src.length (bqSpace q)
  writeLoop n q (src.take n) pages 0

inductive Status
  | success
  | noMemory
  | accessViolation
  deriving DecidableEq

/-- The loop of `bq_write_user`; `n` bytes are left to write. -/
def writeUserLoop (u : User) (uva : Nat) : Nat → Bq → Nat → List (Option Addr) → Nat → Bq × Nat × Status
  | 0, q, _, _, done => (q, done, .success)
  | fuel + 1, q, n, pages, done =>
    if n = 0 then (q, done, .success)
    else
      match bqRoom q pages with
      | (none, q, _) => (q, done, .noMemory)
      | (some c, q, pages) =>
        let k := min (BQ_DATA - q.toff) n
        match copyFromUser u ((uva + done) % 2 ^ 64) k with
        | (bs, false) => (q.put c q.toff bs, done, .accessViolation)
        | (bs, true) => writeUserLoop u uva fuel ((q.put c q.toff bs).advance k) (n - k) pages (done + k)

def bqWriteUser (q : Bq) (u : User) (uva n : Nat) (pages : List (Option Addr)) : Bq × Nat × Status :=
  let n := min n (bqSpace q)
  let r := writeUserLoop u uva n q n pages 0
  (r.1, r.2.1, if r.2.1 ≠ 0 then .success else r.2.2)

/-- `while (pos >= BQ_DATA)`; nothing where it goes through a null pointer. -/
def skip (q : Bq) : Nat → Option Addr → Nat → Option (Option Addr × Nat)
  | 0, c, pos => some (c, pos)
  | fuel + 1, c, pos =>
    if pos < BQ_DATA then some (c, pos)
    else
      match c with
      | none => none
      | some c => skip q fuel (q.slot (.next c)) (pos - BQ_DATA)

/-- `while (n)` of `bq_peek`. -/
def peekLoop (q : Bq) : Nat → Option Addr → Nat → Nat → Option (List Byte)
  | 0, _, _, _ => some []
  | fuel + 1, c, pos, n =>
    if n = 0 then some []
    else
      match c with
      | none => none
      | some c =>
        let k := min (BQ_DATA - pos) n
        (peekLoop q fuel (q.slot (.next c)) 0 (n - k)).map (q.get c pos k ++ ·)

def bqPeek (q : Bq) (off n : Nat) : Option (List Byte) :=
  let pos := (q.hoff + off) % 2 ^ 32
  match skip q (pos / BQ_DATA) (q.slot .head) pos with
  | none => none
  | some (c, pos) => peekLoop q n c pos n

/-- The loop of `bq_read_user`: the memory of the process, and whether all of it was copied. -/
def readUserLoop (q : Bq) (uva : Nat) : Nat → User → Option Addr → Nat → Nat → Nat → Option (User × Bool)
  | 0, u, _, _, _, _ => some (u, true)
  | fuel + 1, u, c, pos, n, done =>
    if n = 0 then some (u, true)
    else
      match c with
      | none => none
      | some c =>
        let k := min (BQ_DATA - pos) n
        match copyToUser u ((uva + done) % 2 ^ 64) (q.get c pos k) with
        | (u, false) => some (u, false)
        | (u, true) => readUserLoop q uva fuel u (q.slot (.next c)) 0 (n - k) (done + k)

/-- `chunk_free` of the first chunk. -/
def Bq.unlink (q : Bq) (h : Addr) : Bq :=
  if q.slot .head = q.tail then
    { q with slot := update q.slot .head none, tail := none, hoff := 0, toff := 0, held := q.held.erase h }
  else
    { q with slot := update q.slot .head (q.slot (.next h)), hoff := 0, held := q.held.erase h }

def dropLoop : Nat → Bq → Nat → Bq
  | 0, q, _ => q
  | fuel + 1, q, n =>
    if n = 0 then q
    else
      match q.slot .head with
      | none => q
      | some h =>
        let fin := if q.slot .head = q.tail then q.toff else BQ_DATA
        let take := min (fin - q.hoff) n
        let q := { q with hoff := q.hoff + take, len := q.len - take }
        dropLoop fuel (if q.hoff = fin then q.unlink h else q) (n - take)

def bqDrop (q : Bq) (n : Nat) : Bq := dropLoop (n + q.held.length) q n

def bqReadUser (q : Bq) (u : User) (uva n : Nat) (consume : Bool) : Option (Bq × User × Bool) :=
  match readUserLoop q uva n u (q.slot .head) q.hoff n 0 with
  | none => none
  | some (u, false) => some (q, u, false)
  | some (u, true) => some (if consume then bqDrop q n else q, u, true)

def freeLoop : Nat → Bq → Option Addr → Bq
  | 0, q, _ => q
  | fuel + 1, q, c =>
    match c with
    | none => q
    | some c => freeLoop fuel { q with held := q.held.erase c } (q.slot (.next c))

def bqFree (q : Bq) : Bq :=
  { freeLoop q.held.length q (q.slot .head) with
    slot := update q.slot .head none, tail := none, hoff := 0, toff := 0, len := 0 }

end Win98Modern.ByteQueue
