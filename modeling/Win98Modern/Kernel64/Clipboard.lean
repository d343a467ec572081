import Mathlib.Algebra.GroupWithZero.Nat
import Mathlib.Order.Lattice
import Mathlib.Tactic.Common

/-!
# The clipboard

`gfx_clip.c`: one store of formats for all processes.  What a call reads from its user and from
the window manager is part of the call.  The array of formats is its first `g_nfmt` entries and,
for the others, the `delayed` flags that were left in them.
-/

namespace Win98Modern.Clipboard

def GCLIP_MAX_FORMATS : Nat := 32
def GCLIP_MAX_BYTES : Nat := 32 <<< 20

inductive Status
  | success | accessViolation | invalidParameter | noMemory | invalidHandle | accessDenied | notFound
  deriving DecidableEq, Repr

structure Pages where
  run : Nat
  bytes : List UInt8

/-- `gclipfmt_t`. -/
structure Fmt where
  format : Nat
  data : Option Pages
  delayed : Bool

def Fmt.size (f : Fmt) : Nat := f.data.elim 0 fun p => p.bytes.length

structure Clip where
  fmts : List Fmt
  spare : Nat → Bool
  total : Nat
  seq : BitVec 32
  owner : Nat
  openHwnd : Nat
  openTid : Nat
  changed : Bool
  listen : List Nat
  /-- The windows that were sent `WM_CLIPBOARDUPDATE`. -/
  posted : List Nat
  /-- The runs that were handed out are numbered; these were freed. -/
  nextRun : Nat
  freed : List Nat

/-- What `wm_lookup` finds: the process of a window, and whether it has a queue. -/
structure Win where
  pid : Nat
  queue : Bool

abbrev Windows := Nat → Option Win

inductive Op
  | open | close | empty | set | get | enum | count | info | listen | other
  deriving DecidableEq, Repr

/-- `shz_clip_t`. -/
structure Request where
  op : Op
  hwnd : Nat := 0
  format : Nat := 0
  size : Nat := 0
  buf : Bool := false

/-- A call, and how its accesses to the memory of the process end. -/
structure Call where
  request : Option Request
  pid : Nat
  /-- The id of the thread, if it can have a queue. -/
  queue : Option Nat
  windows : Windows
  pages : Bool := true
  bytes : Option (Nat → UInt8) := none
  dataOut : Bool := true
  replyOut : Bool := true
  queue_pos : ∀ tid ∈ queue, 0 < tid := by decide

structure Reply where
  out0 : Nat := 0
  out1 : Nat := 0
  out2 : Nat := 0

def Clip.free (s : Clip) (p : Option Pages) : Clip := { s with freed := (p.map Pages.run).toList ++ s.freed }

def clearAll (s : Clip) : Clip :=
  { s with
    fmts := []
    spare := fun i => s.fmts[i]?.elim (s.spare i) Fmt.delayed
    total := s.total - (s.fmts.map Fmt.size).sum
    freed := s.fmts.filterMap (fun f => f.data.map Pages.run) ++ s.freed }

def notifyListeners (w : Windows) (s : Clip) : Clip :=
  { s with
    listen := s.listen.map fun h => if h ≠ 0 ∧ (w h).isSome then h else 0
    posted := s.posted ++ s.listen.filter fun h => h ≠ 0 ∧ (w h).any Win.queue }

/-- The clipboard is closed, by a call or with its thread: `SHZ_CB_CLOSE`, `gclip_queue_gone`. -/
def shut (w : Windows) (s : Clip) : Clip :=
  { if s.changed then notifyListeners w s else s with openTid := 0, openHwnd := 0, changed := false }

def windowGone (hwnd : Nat) (s : Clip) : Clip :=
  { s with
    listen := s.listen.map fun h => if h = hwnd then 0 else h
    owner := if s.owner = hwnd then 0 else s.owner
    openHwnd := if s.openHwnd = hwnd then 0 else s.openHwnd }

def queueGone (w : Windows) (tid : Nat) (s : Clip) : Clip :=
  if s.openTid ≠ 0 ∧ s.openTid = tid then shut w s else s

def cbOpen (w : Windows) (hwnd tid : Nat) (s : Clip) : Status × Reply × Clip :=
  if hwnd ≠ 0 ∧ (w hwnd).isNone then (.invalidHandle, {}, s)
  else if s.openTid ≠ 0 ∧ s.openTid ≠ tid then (.accessDenied, {}, s)
  else (.success, {}, { s with openTid := tid, openHwnd := hwnd })

def cbClose (w : Windows) (tid : Nat) (s : Clip) : Status × Reply × Clip :=
  if s.openTid ≠ tid then (.invalidParameter, {}, s)
  else (.success, { out0 := s.changed.toNat }, shut w s)

def cbEmpty (tid : Nat) (s : Clip) : Status × Reply × Clip :=
  if s.openTid ≠ tid then (.accessDenied, {}, s)
  else (.success, { out1 := s.owner },
    { clearAll s with owner := s.openHwnd, seq := s.seq + 1, changed := true })

/-- The entry for a format: `fmt_find`, or the next one of the array. -/
def entry (format : Nat) (s : Clip) : Fmt × Clip :=
  match s.fmts.find? (·.format = format) with
  | some f => (f, s)
  | none =>
    let f : Fmt := ⟨format, none, s.spare s.fmts.length⟩
    (f, { s with fmts := s.fmts ++ [f] })

/-- The data `tmp` become those of the entry `f`; what it held is freed. -/
def store (f : Fmt) (tmp : Option Pages) (s : Clip) : Clip :=
  let g : Fmt := { f with data := tmp, delayed := tmp.isNone }
  { s with
    fmts := s.fmts.map fun h => if h.format = f.format then g else h
    total := s.total - f.size + g.size
    freed := (f.data.map Pages.run).toList ++ s.freed
    seq := s.seq + 1
    changed := true }

/-- The process of the owner renders a format that it delayed. -/
def renders (w : Windows) (pid format : Nat) (tmp : Option Pages) (s : Clip) : Bool :=
  s.owner ≠ 0 && (w s.owner).any (·.pid = pid) && (s.fmts.find? (·.format = format)).any Fmt.delayed && tmp.isSome

/-- `SHZ_CB_SET`; data that were not stored are freed on the way out. -/
def cbSet (w : Windows) (pid format tid : Nat) (tmp : Option Pages) (s : Clip) : Status × Reply × Clip :=
  if format = 0 then (.invalidParameter, {}, s.free tmp)
  else if s.openTid ≠ tid ∧ renders w pid format tmp s = false then (.accessDenied, {}, s.free tmp)
  else if s.fmts.find? (·.format = format) = none ∧ GCLIP_MAX_FORMATS ≤ s.fmts.length then
    (.noMemory, {}, s.free tmp)
  else
    let (f, s) := entry format s
    if tmp.any fun p => s.total - f.size + p.bytes.length > GCLIP_MAX_BYTES then (.noMemory, {}, s.free tmp)
    else (.success, {}, store f tmp s)

def cbGet (dataOut : Bool) (c : Request) (s : Clip) : Status × Reply × Clip :=
  match s.fmts.find? (·.format = c.format) with
  | none => (.notFound, {}, s)
  | some f =>
    (if f.data.isSome ∧ c.buf ∧ c.size ≥ f.size ∧ dataOut = false then .accessViolation else .success,
      { out0 := f.size, out1 := f.delayed.toNat }, s)

def cbEnum (format : Nat) (s : Clip) : Nat :=
  let formatAt (i : Nat) := s.fmts[i]?.elim 0 Fmt.format
  if format = 0 then formatAt 0
  else match s.fmts.findIdx? (·.format = format) with
    | some i => formatAt (i + 1)
    | none => 0

def cbInfo (w : Windows) (s : Clip) : Reply :=
  ⟨s.seq.toNat, if s.owner ≠ 0 ∧ (w s.owner).isSome then s.owner else 0, if s.openTid ≠ 0 then s.openHwnd else 0⟩

def cbListen (w : Windows) (hwnd : Nat) (add : Bool) (s : Clip) : Status × Reply × Clip :=
  if (w hwnd).isNone then (.invalidHandle, {}, s)
  else match s.listen.findIdx? (· = hwnd), add with
    | some _, true => (.success, {}, s)
    | some i, false => (.success, {}, { s with listen := s.listen.set i 0 })
    | none, false => (.notFound, {}, s)
    | none, true =>
      match s.listen.findIdx? (· = 0) with
      | some i => (.success, {}, { s with listen := s.listen.set i hwnd })
      | none => (.noMemory, {}, s)

/-- The part of `gfx_syscall_clipboard` under the lock. -/
def locked (e : Call) (c : Request) (tmp : Option Pages) (s : Clip) : Status × Reply × Clip :=
  match e.queue with
  | none => (.noMemory, {}, s.free tmp)
  | some tid =>
    match c.op with
    | .open => cbOpen e.windows c.hwnd tid s
    | .close => cbClose e.windows tid s
    | .empty => cbEmpty tid s
    | .set => cbSet e.windows e.pid c.format tid tmp s
    | .get => cbGet e.dataOut c s
    | .enum => (.success, { out0 := cbEnum c.format s }, s)
    | .count => (.success, { out0 := s.fmts.length }, s)
    | .info => (.success, cbInfo e.windows s, s)
    | .listen => cbListen e.windows c.hwnd (c.format ≠ 0) s
    | .other => (.invalidParameter, {}, s)

/-- `gfx_syscall_clipboard` up to the copy of the reply: the data of a SET are read first. -/
def serve (e : Call) (s : Clip) : Status × Reply × Clip :=
  match e.request with
  | none => (.accessViolation, {}, s)
  | some c =>
    if c.op = .set ∧ c.buf then
      if c.size = 0 ∨ GCLIP_MAX_BYTES < c.size then (.invalidParameter, {}, s)
      else if !e.pages then (.noMemory, {}, s)
      else
        let t := { s with nextRun := s.nextRun + 1 }
        match e.bytes with
        | none => (.accessViolation, {}, t.free (some ⟨s.nextRun, []⟩))
        | some bytes => locked e c (some ⟨s.nextRun, (List.range c.size).map bytes⟩) t
    else locked e c none s

def syscall (e : Call) (s : Clip) : Status × Reply × Clip :=
  let (st, r, t) := serve e s
  (if st = .success ∧ e.replyOut = false then .accessViolation else st, r, t)

inductive Event
  | call (e : Call)
  | windowGone (hwnd : Nat)
  | queueGone (windows : Windows) (tid : Nat)

def step (s : Clip) : Event → Clip
  | .call e => (syscall e s).2.2
  | .windowGone hwnd => windowGone hwnd s
  | .queueGone w tid => queueGone w tid s

def boot : Clip := ⟨[], fun _ => false, 0, 1, 0, 0, 0, false, List.replicate 32 0, [], 0, []⟩

end Win98Modern.Clipboard
