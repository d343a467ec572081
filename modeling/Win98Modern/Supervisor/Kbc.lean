import Win98Modern.Lib.Fates
import Win98Modern.Lib.RingBuffer

/-!
# The native 8042

The keyboard controller of the native Win98 domain (`devices.c`): the output FIFO with its five
producers, the keyboard and its ring of host key sequences, the pointer, and the controller's ports.
The interrupt lines are left out.

`Line` is the FIFO with the counter of dropped replies and two fields that the code does not have:
`trace` is what was done to the FIFO, and `reads` what the guest has read from it.
-/

namespace Win98Modern.I8042

abbrev Byte := BitVec 8

def FIFO_AUX : Byte := 1
def FIFO_HOST : Byte := 2
def KBC_REPLY_RESERVE : Nat := 4
/-- `sizeof kbc_fifo`. -/
abbrev fifoSize : Nat := 16
def UINT32_MAX : Nat := 0xffffffff

/-- The results of the source calls. -/
inductive DriverStatus
  | ok | busy | invalid | revoked | unsupported | capacity
  deriving DecidableEq, Repr

/-- A slot of `kbc_fifo` and `kbc_fifo_aux`. -/
structure Queued where
  byte : Byte
  flag : Byte
  deriving DecidableEq, Repr, Inhabited

inductive Packet
  | reply (v : Byte)
  | pointer (bytes : List Byte) (host : Bool)
  | key (set2 bytes : List Byte)
  deriving DecidableEq, Repr

/-- The bytes of a packet with their provenance. -/
def Packet.queued : Packet → List Queued
  | .reply v => [⟨v, 0⟩]
  | .pointer bytes host => bytes.map fun b => ⟨b, FIFO_AUX ||| if host then FIFO_HOST else 0⟩
  | .key _ bytes => bytes.map fun b => ⟨b, FIFO_HOST⟩

/-- What is done to the FIFO.  `drop` is a reply that was counted as dropped. -/
inductive Act
  | put (p : Packet)
  | drop
  | take
  | purge (mask value : Byte)
  deriving DecidableEq, Repr

/-- The test of `kbc_fifo_purge`. -/
def purged (mask value : Byte) (q : Queued) : Bool := q.flag &&& mask = value

def Act.op : Act → QueueOp Queued
  | .put p => .put p.queued
  | .drop => .put []
  | .take => .take
  | .purge mask value => .purge (purged mask value)

/-- `kbc_fifo` with its head and count, and `kbc_reply_dropped`. -/
structure Line where
  fifo : RingBuffer Queued fifoSize
  replyDropped : Nat
  trace : List Act
  reads : List Byte

/-- Writes one byte behind the others; the count is 8 bits wide. -/
def enqueue (r : RingBuffer Queued fifoSize) (q : Queued) : RingBuffer Queued fifoSize :=
  { r.push q with count := (r.count + 1) % 256 }

def Line.put (l : Line) (p : Packet) : Line :=
  { l with fifo := p.queued.foldl enqueue l.fifo, trace := l.trace ++ [.put p] }

def Line.drop (l : Line) : Line :=
  { l with
    replyDropped := if l.replyDropped ≠ UINT32_MAX then l.replyDropped + 1 else l.replyDropped
    trace := l.trace ++ [.drop] }

def Line.purge (l : Line) (mask value : Byte) : Line :=
  let keep := l.fifo.toList.filter (!purged mask value ·)
  { l with
    fifo := if keep.length = l.fifo.count then l.fifo else .ofList keep
    trace := l.trace ++ [.purge mask value] }

def Line.take (l : Line) : Line :=
  { l with
    fifo := l.fifo.pop
    trace := l.trace ++ [.take]
    reads := l.reads ++ [(l.fifo.slots (l.fifo.head % fifoSize)).byte] }

def Line.kbcReply (l : Line) (v : Byte) : Line :=
  if l.fifo.count = fifoSize then l.drop else l.put (.reply v)

/-- The room that `pointer_reply` tests, in unsigned arithmetic. -/
def Line.room (l : Line) : Nat := (fifoSize + 2 ^ 64 - l.fifo.count) % 2 ^ 64

/-- The room that `keyboard_flush` tests, in unsigned arithmetic. -/
def Line.keyRoom (l : Line) : Nat :=
  (fifoSize - KBC_REPLY_RESERVE + 2 ^ 64 - l.fifo.count) % 2 ^ 64

/-- The keyboard: its owner and its state, and the ring of whole key sequences.  `accepted` is
what `dev_native_keyboard_input` has taken so far. -/
structure Keyboard where
  context : Nat
  bound : Bool
  ring : RingBuffer (List Byte) 16
  pending : Byte
  scanset : Byte
  scanning : Bool
  leds : Byte
  typematic : Byte
  accepted : List (List Byte)

structure Pointer where
  context : Nat
  bound : Bool
  pending : Byte
  enabled : Bool
  remote : Bool
  wrap : Bool
  scale : Bool
  resolution : Byte
  rate : Byte
  buttons : Byte
  reportedButtons : Byte
  last : List Byte
  x : Int
  y : Int
  resolutionX : Int
  resolutionY : Int
  lastTsc : Nat

structure Kbc where
  line : Line
  keyboard : Keyboard
  pointer : Pointer
  config : Byte
  cmd : Byte
  cmdPending : Bool
  a20Gate : Bool
  keyDelivered : Nat
  keyDropped : Nat

def bumpU32 (n : Nat) : Nat := if n ≠ UINT32_MAX then n + 1 else n

def kbcTranslate : List Byte :=
  [0xff, 0x43, 0x41, 0x3f, 0x3d, 0x3b, 0x3c, 0x58, 0x64, 0x44, 0x42, 0x40, 0x3e, 0x0f, 0x29, 0x59,
   0x65, 0x38, 0x2a, 0x70, 0x1d, 0x10, 0x02, 0x5a, 0x66, 0x71, 0x2c, 0x1f, 0x1e, 0x11, 0x03, 0x5b,
   0x67, 0x2e, 0x2d, 0x20, 0x12, 0x05, 0x04, 0x5c, 0x68, 0x39, 0x2f, 0x21, 0x14, 0x13, 0x06, 0x5d,
   0x69, 0x31, 0x30, 0x23, 0x22, 0x15, 0x07, 0x5e, 0x6a, 0x72, 0x32, 0x24, 0x16, 0x08, 0x09, 0x5f,
   0x6b, 0x33, 0x25, 0x17, 0x18, 0x0b, 0x0a, 0x60, 0x6c, 0x34, 0x35, 0x26, 0x27, 0x19, 0x0c, 0x61,
   0x6d, 0x73, 0x28, 0x74, 0x1a, 0x0d, 0x62, 0x6e, 0x3a, 0x36, 0x1c, 0x1b, 0x75, 0x2b, 0x63, 0x76,
   0x55, 0x56, 0x77, 0x78, 0x79, 0x7a, 0x0e, 0x7b, 0x7c, 0x4f, 0x7d, 0x4b, 0x47, 0x7e, 0x7f, 0x6f,
   0x52, 0x53, 0x50, 0x4c, 0x4d, 0x48, 0x01, 0x45, 0x57, 0x4e, 0x51, 0x4a, 0x37, 0x49, 0x46, 0x54,
   0x80, 0x81, 0x82, 0x41, 0x54, 0x85, 0x86, 0x87]

/-- `kbc_translate_fold`, from a `release` flag on. -/
def kbcTranslateFold (release : Byte) : List Byte → List Byte
  | [] => []
  | b :: bs =>
    if b = 0xf0 then kbcTranslateFold 0x80 bs
    else (kbcTranslate.getD b.toNat b ||| release) :: kbcTranslateFold 0 bs

/-- `keyboard_encode`: the bytes on the wire, none for a scan set without a mapping. -/
def keyboardEncode (s : Kbc) (set2 : List Byte) : Option (List Byte) :=
  if s.keyboard.scanset = 2 then
    some (if s.config &&& 0x40 ≠ 0 then kbcTranslateFold 0 set2 else set2)
  else if s.keyboard.scanset = 1 then
    let wire := kbcTranslateFold 0 set2
    some (if s.config &&& 0x40 ≠ 0 then kbcTranslateFold 0 wire else wire)
  else none

def Keyboard.clear (k : Keyboard) : Keyboard := { k with ring := k.ring.clear }

def Pointer.defaults (p : Pointer) (tsc : Nat) : Pointer :=
  { p with
    pending := 0, enabled := false, remote := false, wrap := false, scale := false
    resolution := 2, rate := 100, x := 0, y := 0, resolutionX := 0, resolutionY := 0
    buttons := 0, reportedButtons := 0, last := [], lastTsc := tsc }

def Line.pointerRemoveBytes (l : Line) : Line := l.purge FIFO_AUX FIFO_AUX

def Line.keyboardPurgeHost (l : Line) : Line := l.purge (FIFO_AUX ||| FIFO_HOST) FIFO_HOST

/-- `keyboard_valid`, with the answer of the source's `validate`. -/
def keyboardValid (s : Kbc) (validate : Bool) : Bool × Kbc :=
  if !s.keyboard.bound then (false, s)
  else if validate then (true, s)
  else (false, { s with
    keyboard := { s.keyboard with bound := false }.clear
    line := s.line.keyboardPurgeHost })

def keyboardAttach (s : Kbc) (context : Nat) (validate : Bool) : DriverStatus × Kbc :=
  if context = 0 then (.invalid, s)
  else if s.keyboard.context ≠ 0 then (.busy, s)
  else if !validate then (.revoked, s)
  else (.ok, { s with
    keyboard := { s.keyboard with context := context, bound := true }.clear
    line := s.line.keyboardPurgeHost })

def keyboardDetach (s : Kbc) (context : Nat) : DriverStatus × Kbc :=
  if context = 0 ∨ s.keyboard.context ≠ context then (.invalid, s)
  else (.ok, { s with
    keyboard := { s.keyboard with context := 0, bound := false }.clear
    line := s.line.keyboardPurgeHost })

/-- `pointer_valid`, with the answer of the source's `validate`. -/
def pointerValid (s : Kbc) (validate : Bool) (tsc : Nat) : Bool × Kbc :=
  if !s.pointer.bound then (false, s)
  else if validate then (true, s)
  else (false, { s with
    line := s.line.pointerRemoveBytes
    pointer := { s.pointer with bound := false }.defaults tsc })

def pointerAttach (s : Kbc) (context : Nat) (validate : Bool) (tsc : Nat) : DriverStatus × Kbc :=
  if context = 0 then (.invalid, s)
  else if s.pointer.context ≠ 0 then (.busy, s)
  else if !validate then (.revoked, s)
  else (.ok, { s with pointer := { s.pointer with context := context, bound := true }.defaults tsc })

def pointerDetach (s : Kbc) (context : Nat) (tsc : Nat) : DriverStatus × Kbc :=
  if s.pointer.context ≠ context then (.invalid, s)
  else (.ok, { s with
    line := s.line.pointerRemoveBytes
    pointer := { s.pointer with context := 0, bound := false }.defaults tsc })

/-! ### The pointer -/

def pointerReply (s : Kbc) (bytes : List Byte) (remember host : Bool) : DriverStatus × Kbc :=
  if s.line.room < bytes.length then (.capacity, { s with line := s.line.drop })
  else
    let last := if 1 < bytes.length ∧ bytes.head? = some 0xfa then bytes.tail else bytes
    (.ok, { s with
      line := s.line.put (.pointer bytes host)
      pointer := if remember then { s.pointer with last := last } else s.pointer })

def pointerScaled (p : Pointer) (value : Int) : Int :=
  if !p.scale then value
  else
    let magnitude := value.natAbs
    let scaled : Int :=
      if magnitude ≤ 1 then magnitude else if magnitude = 2 then 1 else if magnitude = 3 then 3
      else if magnitude = 4 then 6 else if magnitude = 5 then 9 else magnitude * 2
    if value < 0 then -scaled else scaled

def pointerPacket (s : Kbc) (ack : Bool) (tsc : Nat) : DriverStatus × Kbc :=
  let p := s.pointer
  let limit : Int := if p.scale then 127 else 255
  let x := if limit < p.x then limit else if p.x < -limit then -limit else p.x
  let y := if limit < p.y then limit else if p.y < -limit then -limit else p.y
  let sx := pointerScaled p x
  let sy := pointerScaled p y
  let packet : List Byte :=
    [8 ||| p.buttons ||| (if sx < 0 then 16 else 0) ||| (if sy < 0 then 32 else 0),
      BitVec.ofInt 8 sx, BitVec.ofInt 8 sy]
  let r := pointerReply s (if ack then 0xfa :: packet else packet) true !ack
  if r.1 ≠ .ok then r
  else (.ok, { r.2 with pointer := { r.2.pointer with
    x := p.x - x, y := p.y - y, reportedButtons := p.buttons, lastTsc := tsc } })

/-- `pointer_flush`; `hz` is `g_tsc_hz`. -/
def pointerFlush (s : Kbc) (validate : Bool) (hz now tsc : Nat) : Kbc :=
  let v := pointerValid s validate tsc
  let p := v.2.pointer
  if !v.1 || !p.enabled || p.remote || p.wrap || v.2.config &&& 0x20 ≠ 0 then v.2
  else if p.x = 0 ∧ p.y = 0 ∧ p.buttons = p.reportedButtons then v.2
  else if now < p.lastTsc ∨ now - p.lastTsc < hz / p.rate.toNat then v.2
  else (pointerPacket v.2 false tsc).2

def pointerInput (s : Kbc) (context : Nat) (x y : Int) (buttons : Byte) (validate : Bool) (tsc : Nat) :
    DriverStatus × Kbc :=
  if !s.pointer.bound ∨ s.pointer.context ≠ context then (.busy, s)
  else
    let v := pointerValid s validate tsc
    if !v.1 then (.revoked, v.2)
    else if 7 < buttons then (.unsupported, v.2)
    else
      let p := v.2.pointer
      let coarse := p.resolution < 2
      let divisor : Int := 2 ^ (2 - p.resolution.toNat)
      let factor : Int := 2 ^ (p.resolution.toNat - 2)
      let dx := if coarse then (x + p.resolutionX).tdiv divisor else x * factor
      let dy := if coarse then (-y + p.resolutionY).tdiv divisor else -y * factor
      let rx := if coarse then (x + p.resolutionX).tmod divisor else 0
      let ry := if coarse then (-y + p.resolutionY).tmod divisor else 0
      if dx + p.x < -2 ^ 31 ∨ 2 ^ 31 ≤ dx + p.x ∨ dy + p.y < -2 ^ 31 ∨ 2 ^ 31 ≤ dy + p.y then
        (.capacity, v.2)
      else (.ok, { v.2 with pointer := { p with
        x := dx + p.x, y := dy + p.y, resolutionX := rx, resolutionY := ry, buttons := buttons } })

/-- The counts of movement are forgotten. -/
def Pointer.still (p : Pointer) : Pointer := { p with x := 0, y := 0, resolutionX := 0, resolutionY := 0 }

/-- What a pointer command does after its reply of `data` went out. -/
def pointerCommandDone (p : Pointer) (value : Byte) (data : List Byte) (tsc : Nat) : Pointer :=
  if value = 0xff ∨ value = 0xf6 then
    { p.defaults tsc with last := if 1 < data.length then data.tail else data }
  else if value = 0xe6 ∨ value = 0xe7 then { p with scale := value = 0xe7 }
  else if value = 0xe8 ∨ value = 0xf3 then { p with pending := value }
  else if value = 0xee ∨ value = 0xec then { p with wrap := value = 0xee }.still
  else if value = 0xea ∨ value = 0xf0 then { p with remote := value = 0xf0 }.still
  else if value = 0xf4 ∨ value = 0xf5 then { p with enabled := value = 0xf4 }.still
  else if value = 0xe9 ∨ value = 0xf2 then p.still
  else p

/-- The reply to a pointer command, none for one that is refused. -/
def pointerCommandReply (p : Pointer) (value : Byte) : Option (List Byte) :=
  if value = 0xff then some [0xfa, 0xaa, 0]
  else if value = 0xf2 then some [0xfa, 0]
  else if value = 0xe9 then
    some [0xfa, (if p.remote then 64 else 0) ||| (if p.enabled then 32 else 0) |||
      (if p.scale then 16 else 0) ||| (p.buttons &&& 4) ||| ((p.buttons &&& 1) <<< 1) |||
      ((p.buttons &&& 2) >>> 1), p.resolution, p.rate]
  else if value ∈ ([0xe6, 0xe7, 0xe8, 0xea, 0xee, 0xec, 0xf0, 0xf3, 0xf4, 0xf5, 0xf6] : List Byte) then
    some [0xfa]
  else none

def nativePointerCommand (s : Kbc) (value : Byte) (validate : Bool) (tsc : Nat) : Kbc :=
  let v := pointerValid s validate tsc
  let s := v.2
  let p := s.pointer
  if !v.1 then s
  else if p.wrap ∧ value ≠ 0xff ∧ value ≠ 0xec then (pointerReply s [value] true false).2
  else if value = 0xfe then
    (pointerReply s (if p.last ≠ [] then p.last else [0xfe]) false false).2
  else if p.pending ≠ 0 then
    let accepted : Bool :=
      if p.pending = 0xe8 then value ≤ 3
      else value ∈ ([10, 20, 40, 60, 80, 100, 200] : List Byte)
    if !accepted then (pointerReply s [0xfe] false false).2
    else
      let r := pointerReply s [0xfa] true false
      if r.1 ≠ .ok then r.2
      else
        let q := r.2.pointer
        let q := if p.pending = 0xe8 then { q with resolution := value } else { q with rate := value }
        { r.2 with pointer := { q with pending := 0 }.still }
  else if value = 0xeb then (pointerPacket s true tsc).2
  else
    match pointerCommandReply p value with
    | none => (pointerReply s [0xfe] false false).2
    | some data =>
      let r := pointerReply s data true false
      if r.1 ≠ .ok then r.2
      else { r.2 with pointer := pointerCommandDone r.2.pointer value data tsc }

/-! ### The keyboard -/

def Kbc.reply (s : Kbc) (v : Byte) : Kbc := { s with line := s.line.kbcReply v }

def nativeKeyboardCommand (s : Kbc) (value : Byte) : Kbc :=
  let k := s.keyboard
  if k.pending ≠ 0 then
    let s := { s with keyboard := { k with pending := 0 } }
    if k.pending = 0xf0 then
      if value = 0 then (s.reply 0xfa).reply k.scanset
      else if value ≤ 3 then
        Kbc.reply { s with keyboard := { s.keyboard with scanset := value }.clear } 0xfa
      else s.reply 0xfe
    else if k.pending = 0xed then
      if value ≤ 7 then Kbc.reply { s with keyboard := { s.keyboard with leds := value } } 0xfa
      else s.reply 0xfe
    else if k.pending = 0xf3 then
      if value < 128 then Kbc.reply { s with keyboard := { s.keyboard with typematic := value } } 0xfa
      else s.reply 0xfe
    else s
  else if value = 0xff then
    (Kbc.reply { s with keyboard := { k with
      scanset := 2, scanning := true, leds := 0, typematic := 0x2b }.clear } 0xfa).reply 0xaa
  else if value = 0xf2 then ((s.reply 0xfa).reply 0xab).reply 0x83
  else if value = 0xee then s.reply 0xee
  else if value = 0xf0 ∨ value = 0xed ∨ value = 0xf3 then
    Kbc.reply { s with keyboard := { k with pending := value } } 0xfa
  else if value = 0xf4 then Kbc.reply { s with keyboard := { k with scanning := true } } 0xfa
  else if value = 0xf5 ∨ value = 0xf6 then
    Kbc.reply { s with keyboard := { k with
      scanset := 2, leds := 0, typematic := 0x2b, scanning := value = 0xf6 }.clear } 0xfa
  else s.reply 0xfe

def keyboardInput (s : Kbc) (context : Nat) (set2 : List Byte) (validate : Bool) : DriverStatus × Kbc :=
  if context = 0 ∨ !s.keyboard.bound ∨ s.keyboard.context ≠ context then (.busy, s)
  else
    let v := keyboardValid s validate
    if !v.1 then (.revoked, v.2)
    else if set2 = [] ∨ 8 < set2.length then (.invalid, v.2)
    else if !v.2.keyboard.scanning then
      (.unsupported, { v.2 with keyDropped := bumpU32 v.2.keyDropped })
    else if v.2.keyboard.ring.count = 16 then
      (.capacity, { v.2 with keyDropped := bumpU32 v.2.keyDropped })
    else (.ok, { v.2 with keyboard := { v.2.keyboard with
      ring := v.2.keyboard.ring.push set2
      accepted := v.2.keyboard.accepted ++ [set2] } })

/-- The first key sequence leaves the ring. -/
def Keyboard.next (k : Keyboard) : Keyboard := { k with ring := k.ring.pop }

/-- One turn of `keyboard_flush`; none when it ends. -/
def keyboardFlushTurn (s : Kbc) : Option Kbc :=
  if s.keyboard.bound ∧ 0 < s.keyboard.ring.count ∧ s.config &&& 0x10 = 0 then
    let set2 := s.keyboard.ring.slots (s.keyboard.ring.head % 16)
    match keyboardEncode s set2 with
    | none => some { s with keyboard := s.keyboard.next, keyDropped := bumpU32 s.keyDropped }
    | some bytes =>
      if bytes = [] then
        some { s with keyboard := s.keyboard.next, keyDropped := bumpU32 s.keyDropped }
      else if s.line.keyRoom < bytes.length then none
      else some { s with
        keyboard := s.keyboard.next
        line := s.line.put (.key set2 bytes)
        keyDelivered := bumpU32 s.keyDelivered }
  else none

/-- `keyboard_flush`: a turn for each sequence in the ring at most. -/
def keyboardFlush : Nat → Kbc → Kbc
  | 0, s => s
  | turns + 1, s =>
    match keyboardFlushTurn s with
    | none => s
    | some s' => keyboardFlush turns s'

/-! ### The controller's ports -/

inductive Port
  | data | status
  deriving DecidableEq, Repr

/-- `kbc_read`, with the answers of the two sources. -/
def kbcRead (s : Kbc) (port : Port) (pointerOk keyboardOk : Bool) (tsc : Nat) : Byte × Kbc :=
  let s := (keyboardValid (pointerValid s pointerOk tsc).2 keyboardOk).2
  let r := s.line.fifo
  match port with
  | .status => (0x14 ||| (if r.count ≠ 0 then 1 else 0) |||
      (if r.count ≠ 0 ∧ (r.slots (r.head % fifoSize)).flag &&& FIFO_AUX ≠ 0 then 0x20 else 0), s)
  | .data =>
    if r.count = 0 then (0, s)
    else ((r.slots (r.head % fifoSize)).byte, { s with line := s.line.take })

def nativeKbcWrite (s : Kbc) (port : Port) (value : Byte) (pointerOk : Bool) (tsc : Nat) : Kbc :=
  match port with
  | .status =>
    let s := { s with cmdPending := false }
    if value = 0x20 then s.reply s.config
    else if value = 0x60 ∨ value = 0xd1 ∨ value = 0xd4 then { s with cmd := value, cmdPending := true }
    else if value = 0xaa then s.reply 0x55
    else if value = 0xab then s.reply 0
    else if value = 0xa9 then
      let v := pointerValid s pointerOk tsc
      v.2.reply (if v.1 then 0 else 1)
    else if value = 0xad then { s with config := s.config ||| 0x10 }
    else if value = 0xae then { s with config := s.config &&& ~~~0x10 }
    else if value = 0xa7 then { s with config := s.config ||| 0x20 }
    else if value = 0xa8 then { s with config := s.config &&& ~~~0x20 }
    else if value = 0xd0 then s.reply (1 ||| if s.a20Gate then 2 else 0)
    else if value = 0xdd then { s with a20Gate := false }
    else if value = 0xdf then { s with a20Gate := true }
    else s
  | .data =>
    if s.cmdPending then
      let s := { s with cmdPending := false }
      if s.cmd = 0x60 then { s with config := value }
      else if s.cmd = 0xd1 then { s with a20Gate := (value >>> 1) &&& 1 ≠ 0 }
      else if s.cmd = 0xd4 then nativePointerCommand s value pointerOk tsc
      else s
    else nativeKeyboardCommand s value

end Win98Modern.I8042
