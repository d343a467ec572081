import Win98Modern.Lib.RelyGuarantee
import Win98Modern.Lib.Rounds

/-!
# The invalidation domain of the shared root

The TLB shootdown of Kernel64 (`cpu_tlb.c`): the boot processor moves the aperture's leaf from one
frame to the other in numbered generations, and each processor of the domain invalidates and
acknowledges when the IPI reaches it.  Every load, store and compare-exchange of the source is one
action; memory is sequentially consistent.

`Tlb.cached` is the hardware's: the frames that a processor's TLB holds for the aperture.  `Tlb.log`
is not in the code: it records what became of the generations.
-/

namespace Win98Modern.CpuTlb

open Function Prog

open Rounds

abbrev U64 := BitVec 64
abbrev U32 := BitVec 32

def SHZ_TLB_APERTURE_VA : U64 := 0xffff802000000000
def TLB_PA_MASK : U64 := 0x000ffffffffff000
def PT_P : U64 := 1
def PT_W : U64 := 2
def PT_NX : U64 := 0x8000000000000000
/-- The bits of a leaf that the processor sets. -/
def accessedDirty : U64 := 0x60
def SHZ_SMP_CPU_ONLINE : Nat := 2
def SHZ_TLB_SKIP_INVALIDATE : Nat := 1
def SHZ_TLB_WITHHOLD_ACK : Nat := 2
def UINT64_MAX : U64 := 0xffffffffffffffff

/-- `TLB_IDLE` and its successors. -/
inductive Phase
  | idle | publishing | pending | poisoned
  deriving DecidableEq, Repr

def Phase.code : Phase → U64
  | .idle => 0
  | .publishing => 1
  | .pending => 2
  | .poisoned => 3

def phaseValue (generation : U64) (state : Phase) : U64 := (generation <<< 2) ||| state.code

def fullMask (count : Nat) : U32 :=
  if count = 32 then 0xffffffff else if count ≠ 0 ∧ count < 32 then (1 <<< count) - 1 else 0

/-- `shz_tlb_aperture_t`, without the table addresses. -/
structure Aperture where
  root : U64
  va : U64
  frame : Nat → U64
  prepared : Bool

/-- What `shz_cpu_tlb_prepare` has fixed. -/
structure Config where
  ap : Aperture
  count : Nat
  target : U32
  diagnostic : Nat

/-- The rest of `tlb`, the leaf, and the processors' translations. -/
structure Tlb where
  generation : U64
  request : U64
  completed : U64
  phase : U64
  ack : Nat → U64
  invalidations : Nat → U64
  ready : U32
  index : Nat
  leaf : U64
  cached : Nat → List U64
  log : List (Mark Nat U64)

/-- What the environment answers to an action that asks: the flags and control registers of the
processor, the topology, the walk of `shz_tlb_aperture_valid`, the state in `shz_smp_cpus`, and the
result of `shz_smp_send_ipi`. -/
structure Answer where
  flags : U64
  cr3 : U64
  cr4 : U64
  topology : Nat
  apertureValid : Bool
  state : Nat
  sendIpi : Int

abbrev Code (α : Type) := Prog Tlb Answer α

def frameOf (leaf : U64) : U64 := leaf &&& TLB_PA_MASK

section Actions

/-- A compare-exchange of the phase. -/
def casPhase (expected new : U64) (marks : List (Mark Nat U64)) : Code Bool :=
  atomic fun _ s =>
    if s.phase = expected then ({ s with phase := new, log := marks ++ s.log }, true) else (s, false)

/-- The compare-exchange of the leaf, which publishes `generation`. -/
def casLeaf (expected new : U64) (generation : Nat) : Code Bool :=
  atomic fun _ s =>
    if s.leaf = expected then
      ({ s with leaf := new, log := .publish generation (frameOf new) :: s.log }, true)
    else (s, false)

def addGeneration : Code U64 :=
  atomic fun _ s => ({ s with generation := s.generation + 1 }, s.generation + 1)

def invlpg (cpu : Nat) : Code Unit :=
  store fun s => { s with cached := update s.cached cpu [], log := .refresh cpu :: s.log }

def countInvalidation (cpu : Nat) : Code Unit :=
  store fun s =>
    { s with invalidations := update s.invalidations cpu (s.invalidations cpu + 1) }

def storeAck (cpu : Nat) (generation : U64) : Code Unit :=
  store fun s =>
    { s with ack := update s.ack cpu generation, log := .ack cpu generation.toNat :: s.log }

def storePhase (phase : U64) : Code Unit := store fun s => { s with phase := phase }
def storeRequest (generation : U64) : Code Unit := store fun s => { s with request := generation }
def storeIndex (index : Nat) : Code Unit := store fun s => { s with index := index }
def storeCompleted (generation : U64) : Code Unit :=
  store fun s => { s with completed := generation }

def orReady (bits : U32) : Code Unit := store fun s => { s with ready := s.ready ||| bits }

end Actions

section Calls

variable (c : Config)

def archCompatible (e : Answer) : Bool :=
  e.cr3 = c.ap.root ∧ e.cr4 &&& ((1 <<< 17) ||| (1 <<< 12) ||| (1 <<< 7)) = 0

def descriptorValid (generation : U64) : Code Bool := do
  if c.ap.va ≠ SHZ_TLB_APERTURE_VA ∨ c.target ≠ fullMask c.count ∨ generation = 0 then return false
  let request ← load (·.request)
  if generation ≠ request then return false
  let current ← load (·.generation)
  if generation ≠ current then return false
  let count ← ask (·.topology)
  return count = c.count

def cpuTlbEnroll (cpu : Nat) : Code Int := do
  let e ← ask id
  if c.ap.prepared = false ∨ c.count ≤ cpu ∨ e.flags &&& 512 = 0 ∨ archCompatible c e = false ∨
      e.topology ≠ c.count ∨ e.state ≠ SHZ_SMP_CPU_ONLINE then
    return -1
  let request ← load (·.request)
  if request ≠ 0 then return -1
  let phase ← load (·.phase)
  if phase &&& 3 ≠ Phase.idle.code then return -1
  orReady (1 <<< cpu)
  return 0

/-- The label `unchanged` of `shz_cpu_tlb_begin`. -/
def unchanged (previous : U64) : Code (Option U64) := do
  storePhase (phaseValue previous .idle)
  return none

/-- `shz_cpu_tlb_begin`; the result is the generation that it issues, or -1. -/
def cpuTlbBegin (cpu index : Nat) : Code (Option U64) := do
  let e ← ask id
  let previous ← load (·.generation)
  let current ← load (·.index)
  if cpu ≠ 0 ∨ e.flags &&& 512 = 0 ∨ c.ap.prepared = false ∨ 2 ≤ index ∨ index = current ∨
      archCompatible c e = false ∨ UINT64_MAX >>> 2 ≤ previous then
    return none
  let ready ← load (·.ready)
  if ready ≠ c.target then return none
  let claimed ← casPhase (phaseValue previous .idle) (phaseValue previous .publishing) []
  if claimed = false then return none
  let e ← ask id
  if e.apertureValid = false ∨ e.topology ≠ c.count then unchanged previous
  else
    let actual ← load (·.leaf)
    if actual &&& ~~~accessedDirty ≠ c.ap.frame current ||| PT_P ||| PT_W ||| PT_NX then
      unchanged previous
    else
      let swapped ← casLeaf actual (c.ap.frame index ||| PT_P ||| PT_W ||| PT_NX) (previous.toNat + 1)
      if swapped = false then unchanged previous
      else
        storeIndex index
        let issued ← addGeneration
        storeRequest issued
        invlpg cpu
        countInvalidation cpu
        storeAck cpu issued
        storePhase (phaseValue issued .pending)
        return some issued

def cpuTlbPoison (cpu : Nat) (generation : U64) : Code Unit := do
  if cpu ≠ 0 ∨ generation = 0 ∨ UINT64_MAX >>> 2 < generation then return ()
  let _ ← casPhase (phaseValue generation .pending) (phaseValue generation .poisoned)
    [.poison generation.toNat]
  return ()

/-- The loop of `shz_cpu_tlb_dispatch` over the other processors. -/
def sendAll (generation : U64) : List Nat → Code Int
  | [] => return 0
  | _ :: cpus => do
    let sent ← ask (·.sendIpi)
    if sent ≠ 0 then
      cpuTlbPoison 0 generation
      return -1
    else sendAll generation cpus

def cpuTlbDispatch (cpu : Nat) (generation : U64) : Code Int := do
  if cpu ≠ 0 then return -1
  let request ← load (·.request)
  if generation ≠ request then return -1
  let phase ← load (·.phase)
  if phase ≠ phaseValue generation .pending then return -1
  let flags ← ask (·.flags)
  if flags &&& 512 = 0 then
    cpuTlbPoison cpu generation
    return -1
  else sendAll generation ((List.range c.count).drop 1)

def cpuTlbIpi (cpu : Nat) : Code Unit := do
  let phase ← load (·.phase)
  if phase &&& 3 ≠ Phase.pending.code then return ()
  let generation := phase >>> 2
  if c.count ≤ cpu then return ()
  let acked ← load (·.ack cpu)
  if acked = generation then return ()
  let valid ← descriptorValid c generation
  if valid = false then return ()
  let e ← ask id
  if archCompatible c e = false ∨ e.state ≠ SHZ_SMP_CPU_ONLINE then return ()
  if cpu = 1 ∧ c.diagnostic = SHZ_TLB_SKIP_INVALIDATE then return ()
  invlpg cpu
  countInvalidation cpu
  if cpu = 1 ∧ c.diagnostic = SHZ_TLB_WITHHOLD_ACK then return ()
  storeAck cpu generation

/-- The loop of `shz_cpu_tlb_finish` over the acknowledgements. -/
def allAcked (generation : U64) : List Nat → Code Bool
  | [] => return true
  | cpu :: cpus => do
    let acked ← load (·.ack cpu)
    if acked ≠ generation then return false else allAcked generation cpus

def cpuTlbFinish (cpu : Nat) (generation : U64) : Code Int := do
  if cpu ≠ 0 ∨ generation = 0 then return -1
  let request ← load (·.request)
  if generation ≠ request then return -1
  let phase ← load (·.phase)
  let completed ← load (·.completed)
  if phase = phaseValue generation .idle ∧ completed = generation then return 0
  if phase ≠ phaseValue generation .pending then return -1
  let valid ← descriptorValid c generation
  if valid = false then
    cpuTlbPoison cpu generation
    return -1
  else
    let acked ← allAcked generation (List.range c.count)
    if acked = false then return 1
    let done ← casPhase phase (phaseValue generation .idle) [.complete generation.toNat]
    if done = false then return -1
    storeCompleted generation
    return 0

end Calls

/-! ### The system -/

/-- The boot processor's thread, and the interrupt side of each processor. -/
inductive Runner
  | boot
  | irq (cpu : Nat)
  deriving DecidableEq, Repr

inductive Job
  | begin (index : Nat)
  | dispatch (generation : U64)
  | poison (generation : U64)
  | finish (generation : U64)
  | ipi
  | enroll
  deriving DecidableEq, Repr

inductive Ret
  | begun (generation : Option U64)
  | status (r : Int)
  | unit
  deriving DecidableEq, Repr

def body (c : Config) : Runner → Job → Code Ret
  | .boot, .begin index => return .begun (← cpuTlbBegin c 0 index)
  | .boot, .dispatch generation => return .status (← cpuTlbDispatch c 0 generation)
  | .boot, .poison generation => do cpuTlbPoison 0 generation; return .unit
  | .boot, .finish generation => return .status (← cpuTlbFinish c 0 generation)
  | .irq cpu, .ipi => do cpuTlbIpi c cpu; return .unit
  | .irq cpu, .enroll => return .status (← cpuTlbEnroll c cpu)
  | _, _ => return .unit

/-- A processor walks to the aperture's leaf and caches the translation. -/
structure Walk where
  cpu : Nat
  write : Bool
  deriving DecidableEq, Repr

def walk (w : Walk) (s : Tlb) : Tlb :=
  if s.leaf &&& PT_P = 0 then s
  else
    { s with
      leaf := s.leaf ||| if w.write then 0x60 else 0x20
      cached := update s.cached w.cpu (frameOf s.leaf :: s.cached w.cpu) }

abbrev State := Pool Runner Job Tlb Answer Ret
abbrev Event := Pool.Event Runner Job Answer Walk

def step (c : Config) : State → Event → State := Pool.step (body c) walk

structure Start (s : State) : Prop where
  thread : ∀ i, s.thread i = none
  generation : s.mem.generation = 0
  request : s.mem.request = 0
  completed : s.mem.completed = 0
  phase : s.mem.phase = 0
  ack : ∀ cpu, s.mem.ack cpu = 0
  log : s.mem.log = []

end Win98Modern.CpuTlb
