import Mathlib.Algebra.GroupWithZero.Nat
import Mathlib.Order.Lattice
import Win98Modern.Lib.Bisect

/-!
# The interval timer

`devices.c`: the counters of the 8254 are computed from the time stamp counter when they are
read.  Channel 2 of the native Win98 domain keeps the time that its gate was high.
`shz_clock_ticks_ns` scales the same counter to nanoseconds.
-/

namespace Win98Modern.Pit

abbrev U64 := BitVec 64

def PIT_HZ : U64 := 1193182
def UINT64_MAX : U64 := 18446744073709551615
def INT64_MAX : U64 := 9223372036854775807
def SHZ_CLOCK_FREQUENCY : U64 := 1000000000

@[simp] theorem toNat_pit_hz : PIT_HZ.toNat = 1193182 := by decide
@[simp] theorem toNat_uint64_max : UINT64_MAX.toNat = 18446744073709551615 := by decide
@[simp] theorem toNat_int64_max : INT64_MAX.toNat = 9223372036854775807 := by decide
@[simp] theorem toNat_frequency : SHZ_CLOCK_FREQUENCY.toNat = 1000000000 := by decide

/-- `struct pit_ch`, what the counting reads. -/
structure PitCh where
  reload : Nat
  mode : Fin 6
  startTsc : U64
  gate : Bool
  nextIrqTsc : U64
  running : Bool
  mode0ElapsedTsc : U64
  reload_pos : 0 < reload
  reload_le : reload ≤ 65536

/-- A channel that runs in mode 2 since the time zero. -/
def startedAt (reload : Nat) (hpos : 0 < reload) (hle : reload ≤ 65536) : PitCh :=
  ⟨reload, 2, 0, false, 0, true, 0, hpos, hle⟩

def pitPeriodTsc (hz : U64) (c : PitCh) : U64 := .ofNat 64 c.reload * hz / PIT_HZ

/-- `native_pit_ticks_tsc`: the ticks of the counter in ticks of the time stamp counter, rounded
up. -/
def nativePitTicksTsc (hz : U64) (ticks : Nat) : U64 :=
  .ofNat 64 ticks * (hz / PIT_HZ) + (.ofNat 64 ticks * (hz % PIT_HZ) + PIT_HZ - 1) / PIT_HZ

def nativePitElapsed (c : PitCh) (now : U64) : U64 :=
  if !c.running then 0
  else if !c.gate then c.mode0ElapsedTsc
  else if now - c.startTsc > UINT64_MAX - c.mode0ElapsedTsc then UINT64_MAX
  else c.mode0ElapsedTsc + (now - c.startTsc)

def nativePitTicksMod (hz elapsed : U64) : BitVec 16 :=
  let whole := elapsed / hz % 65536
  let remainder := elapsed % hz
  let lo := bisect (fun mid => nativePitTicksTsc hz mid ≤ remainder) 0 1193181
  (whole * (PIT_HZ % 65536) + .ofNat 64 lo).setWidth 16

/-- The port 0x61 is written: `native_pit_gate`, on the third channel. -/
def nativePitGate (nativeWin98 : Bool) (c : PitCh) (gate : Bool) (now : U64) : PitCh :=
  if nativeWin98 ∧ c.mode = 0 ∧ gate ≠ c.gate then
    { c with mode0ElapsedTsc := nativePitElapsed c now, startTsc := now, gate := gate }
  else { c with gate := gate }

/-- `native_win98 && c==&pit[2] && c->mode==0`. -/
def nativeMode0 (nativeWin98 : Bool) (n : Fin 3) (c : PitCh) : Bool := nativeWin98 && n == 2 && c.mode == 0

/-- `pit_counter` of the channel `n`. -/
def pitCounter (hz : U64) (nativeWin98 : Bool) (n : Fin 3) (c : PitCh) (now : U64) : BitVec 16 :=
  if nativeMode0 nativeWin98 n c then
    if !c.running then .ofNat 16 c.reload
    else .ofNat 16 c.reload - nativePitTicksMod hz (nativePitElapsed c now)
  else
    let ticks := (now - c.startTsc) * PIT_HZ / hz
    if !c.running then .ofNat 16 c.reload
    else if c.mode = 3 then .ofNat 16 (c.reload - (ticks * 2).toNat % c.reload)
    else .ofNat 16 (c.reload - ticks.toNat % c.reload)

/-- `pit_load`; a count of zero is the longest. -/
def pitLoad (hz : U64) (nativeWin98 : Bool) (n : Fin 3) (c : PitCh) (value : BitVec 16) (now : U64) : PitCh :=
  let c := { c with
    reload := if value = 0 then 65536 else value.toNat
    startTsc := now
    mode0ElapsedTsc := if nativeWin98 ∧ n = 2 then 0 else c.mode0ElapsedTsc
    running := true
    reload_pos := by split <;> bv_omega
    reload_le := by split <;> bv_omega }
  if n = 0 then { c with nextIrqTsc := c.startTsc + pitPeriodTsc hz c } else c

/-- OUT of the third channel in mode 0, as a read of the port 0x61 of the native Win98 domain
computes it. -/
def nativeOut (hz : U64) (c : PitCh) (now : U64) : Bool :=
  c.running && nativePitTicksTsc hz c.reload ≤ nativePitElapsed c now

inductive ClockError
  | invalid | range
  deriving DecidableEq, Repr

/-- `shz_clock_ticks_ns`; `value` says that there is a place for the result. -/
def shzClockTicksNs (ticks hz : U64) (value : Bool) : Except ClockError U64 :=
  if !value ∨ hz = 0 then .error .invalid
  else if hz > UINT64_MAX / SHZ_CLOCK_FREQUENCY then .error .range
  else
    let sec := ticks / hz
    if sec > INT64_MAX / SHZ_CLOCK_FREQUENCY then .error .range
    else
      let fraction := ticks % hz * SHZ_CLOCK_FREQUENCY / hz
      let ns := sec * SHZ_CLOCK_FREQUENCY
      if fraction > INT64_MAX - ns then .error .range else .ok (ns + fraction)

/-! ### What is computed -/

/-- The ticks of a clock of the frequency `rate` in `elapsed` ticks of one of the frequency `hz`. -/
def scale (hz elapsed rate : Nat) : Nat := elapsed * rate / hz

/-- The port 0x61 is written at these times. -/
def gates (c : PitCh) (es : List (U64 × Bool)) : PitCh :=
  es.foldl (fun c e => nativePitGate true c e.2 e.1) c

/-- The time up to `now` at which the gate was high, from the time `t` on. -/
def highTime (gate : Bool) (t : U64) : List (U64 × Bool) → U64 → Nat
  | [], now => if gate then now.toNat - t.toNat else 0
  | e :: es, now => (if gate then e.1.toNat - t.toNat else 0) + highTime e.2 e.1 es now

/-- What is not computed by a product of 64 bits is exact after `elapsed` ticks of the time stamp counter. -/
structure ExactScaled (hz elapsed : U64) : Prop where
  /-- The counter and OUT in the native mode 0, over the changes of the gate since the load. -/
  gated : ∀ (c : PitCh) value t₀ es now, c.mode = 0 →
    (t₀ :: (es.map Prod.fst ++ [now])).Pairwise (· ≤ ·) → highTime c.gate t₀ es now = elapsed.toNat →
    let r := gates (pitLoad hz true 2 c value t₀) es
    pitCounter hz true 2 r now = .ofInt 16 (r.reload - (scale hz.toNat elapsed.toNat 1193182 : Nat)) ∧
      (nativeOut hz r now = true ↔ r.reload ≤ scale hz.toNat elapsed.toNat 1193182)
  /-- The clock of the Core. -/
  clock : shzClockTicksNs elapsed hz true =
    if scale hz.toNat elapsed.toNat 1000000000 ≤ INT64_MAX.toNat then
      .ok (.ofNat 64 (scale hz.toNat elapsed.toNat 1000000000))
    else .error .range

/-- All that the timer computes in `elapsed` ticks of the time stamp counter is exact. -/
structure Exact (hz elapsed : U64) : Prop extends ExactScaled hz elapsed where
  /-- Each counter, but for the native mode 0. -/
  counter : ∀ nativeWin98 n (c : PitCh) now, nativeMode0 nativeWin98 n c = false → c.running = true →
    now - c.startTsc = elapsed → pitCounter hz nativeWin98 n c now = .ofInt 16 (c.reload -
      (scale hz.toNat elapsed.toNat 1193182 * (if c.mode = 3 then 2 else 1) % c.reload : Nat))

end Win98Modern.Pit
