import Win98Modern.Supervisor.Domain
import Win98Modern.Supervisor.Ept

/-!
# The memory of the domains

The handoff of the loader (`shz_info.h`), the check of the framebuffer grant (`display_grant.c`), the
creation of the domains and of the channels between them (`kdom.c`, `dos.c`, `win98.c`), and the
pointers that hypercalls get (`dom_gpa_ptr`).

A function that copies memory faults where the Supervisor maps nothing, and then does not return; here
it fails.  The loader is taken to grant Win98 no device of its own: the remaps of a granted VGA
(`l1_vga.c`) are left out.
-/

namespace Win98Modern.Supervisor.DomainMemory

abbrev U32 := BitVec 32
abbrev U64 := BitVec 64

def SHZ_MAX_BLOBS : Nat := 8
def SHZ_LOADER_NATIVE_WIN98 : U32 := 1
def SHZ_LOADER_K64_DISPLAY : U32 := 2
def SHZ_REGION_BASE : Nat := 0x04000000
def SHZ_REGION_SIZE : Nat := 0x01000000
def MAX_GIB : Nat := 64
def SHZ_DOM_DOS16 : Nat := 2
def SHZ_DOM_KERNEL32 : Nat := 3
def SHZ_DOM_KERNEL64 : Nat := 4
def SHZ_DOM_WIN98 : Nat := 5
def SHZ_IPC_GPA_BASE : Nat := 0xe0000000
def SHZ_IPC_REGION_SIZE : Nat := 0x100000
def SHZ_BOOTINFO_GPA : Nat := 0x7000
def SHZ_FB_GRANT_GPA_LIMIT : Nat := 0x1000000000
def SHZ_FB_GRANT_MAX_DIM : Nat := 8192
def SHZ_FB_RGBX8888 : Nat := 1
def SHZ_FB_BGRX8888 : Nat := 2
def KERNEL_GPA : Nat := 0x100000
def INITRD_GPA : Nat := 0x02000000
def SHZ_K64_KERNEL_FILE_MAX : Nat := 0x300000
def SHZ_K64_HEAP_GPA : Nat := 0x400000
def W98_RAM_MIB : Nat := 128
def W98_ROM_BYTES : Nat := 0x40000
def W98_DISK_BYTES : Nat := 0x80000000
def W98_ABSENT_LAPIC_GPA : Nat := 0xfee00000
def UINT64_MAX : Nat := 0xffffffffffffffff

/-- `shz_blob_t` -/
structure Blob where
  name : String
  base : U64
  size : U64
  deriving DecidableEq, Repr

/-- What the loader hands over (`shz_info_t`). -/
structure Info where
  fbBase : U64
  fbSize : U64
  fbWidth : U32
  fbHeight : U32
  fbPitchPixels : U32
  fbFormat : U32
  tscHz : U64
  guestRamBase : U64
  guestRamSize : U64
  diskBase : U64
  diskSize : U64
  memmapBase : U64
  memmapBytes : U64
  regionBase : U64
  regionSize : U64
  loaderFlags : U32
  k32RamBase : U64
  k32RamSize : U64
  k64RamBase : U64
  k64RamSize : U64
  ipcBase : U64
  ipcSize : U64
  blobs : List Blob

/-- The handoff, and the pool, which is part of the Supervisor's image. -/
structure Machine where
  info : Info
  poolMem : Nat
  placed : SHZ_REGION_BASE ≤ poolMem ∧ poolMem + POOL_PAGES * 0x1000 ≤ SHZ_REGION_BASE + SHZ_REGION_SIZE

/-! ### The framebuffer grant -/

def overlaps (a an b bn : Nat) : Bool := an ≠ 0 ∧ bn ≠ 0 ∧ a < (b + bn) % 2 ^ 64 ∧ b < (a + an) % 2 ^ 64

def wraps (base size : Nat) : Bool := base > UINT64_MAX - size

/-- `(n + 0xfff) & ~0xfff` -/
def roundUp (n : Nat) : Nat := (n + 0xfff) % 2 ^ 64 / 0x1000 * 0x1000

/-- `shz_fb_grant_t` -/
structure FbGrant where
  base : Nat
  size : Nat
  mapBytes : Nat
  width : Nat
  height : Nat
  pitch : Nat
  format : Nat
  deriving DecidableEq, Repr

section Grant

variable (info : Info)

def visibleBytes : Nat := info.fbPitchPixels.toNat * 4 * info.fbHeight.toNat

/-- The spans that the framebuffer is compared with. -/
def hostSpans : List (Nat × Nat) :=
  [(info.regionBase.toNat, info.regionSize.toNat), (info.guestRamBase.toNat, info.guestRamSize.toNat),
    (info.k32RamBase.toNat, info.k32RamSize.toNat), (info.k64RamBase.toNat, info.k64RamSize.toNat),
    (info.ipcBase.toNat, info.ipcSize.toNat), (info.diskBase.toNat, info.diskSize.toNat),
    (SHZ_REGION_BASE, SHZ_REGION_SIZE)]

/-- The loop over the spans: the first complaint. -/
def spansRefused (base mapBytes : Nat) : List (Nat × Nat) → Option String
  | [] => none
  | (b, n) :: spans =>
    if n ≠ 0 ∧ wraps b n then some "loader memory span wraps"
    else if overlaps base mapBytes b n then some "framebuffer aliases Supervisor/domain/disk memory"
    else spansRefused base mapBytes spans

/-- `shz_fb_grant_check`, for pointers that are not NULL -/
def fbGrantCheck (domRamSize : Nat) : Except String FbGrant :=
  let base := info.fbBase.toNat
  let size := info.fbSize.toNat
  let visible := visibleBytes info
  let mapBytes := roundUp visible
  if info.loaderFlags &&& SHZ_LOADER_NATIVE_WIN98 ≠ 0 then
    .error "installed-Win98 profile owns the display (native VGA/GOP epoch)"
  else if base = 0 ∨ size = 0 ∨ info.fbWidth.toNat = 0 ∨ info.fbHeight.toNat = 0 then
    .error "the loader recorded no GOP linear framebuffer"
  else if info.fbFormat.toNat > 1 then
    .error "GOP pixel format is not 32-bit RGBX/BGRX (bitmask or BLT-only mode)"
  else if info.fbWidth.toNat > SHZ_FB_GRANT_MAX_DIM ∨ info.fbHeight.toNat > SHZ_FB_GRANT_MAX_DIM then
    .error "GOP mode larger than 8192x8192"
  else if info.fbPitchPixels.toNat < info.fbWidth.toNat ∨ info.fbPitchPixels.toNat > 0xffffffff / 4 then
    .error "GOP pitch smaller than the visible width"
  else if base % 0x1000 ≠ 0 then .error "framebuffer base is not 4 KiB aligned (EPT granularity)"
  else if visible > size then .error "pitch * height exceeds the GOP framebuffer size"
  else if wraps base mapBytes ∨ wraps base size then
    .error "framebuffer range wraps the physical address space"
  else if (base + mapBytes) % 2 ^ 64 > roundUp (base + size) then
    .error "4 KiB-rounded mapping would leave the GOP framebuffer"
  else if (base + mapBytes) % 2 ^ 64 > SHZ_FB_GRANT_GPA_LIMIT then
    .error "framebuffer ends above 64 GiB (Kernel64 graphics arena)"
  else if overlaps base mapBytes 0 domRamSize then
    .error "framebuffer overlaps the Kernel64 domain's guest RAM"
  else if overlaps base mapBytes SHZ_IPC_GPA_BASE (SHZ_MAX_CHANNELS * SHZ_IPC_REGION_SIZE) ∨
      overlaps base mapBytes SHZ_BOOTINFO_GPA 0x1000 then
    .error "framebuffer overlaps the IPC/bootinfo guest windows"
  else
    match spansRefused base mapBytes (hostSpans info) with
    | some why => .error why
    | none => .ok
      { base, size := visible, mapBytes, width := info.fbWidth.toNat, height := info.fbHeight.toNat,
        pitch := info.fbPitchPixels.toNat * 4,
        format := if info.fbFormat.toNat = 0 then SHZ_FB_RGBX8888 else SHZ_FB_BGRX8888 }

end Grant

/-! ### Domains -/

inductive Policy
  | invalid | dos | display | native
  deriving DecidableEq, Repr

def loaderFlagPolicy (flags : U32) : Policy :=
  if flags &&& ~~~(SHZ_LOADER_NATIVE_WIN98 ||| SHZ_LOADER_K64_DISPLAY) ≠ 0 then .invalid
  else if flags &&& SHZ_LOADER_NATIVE_WIN98 ≠ 0 then
    if flags &&& SHZ_LOADER_K64_DISPLAY ≠ 0 then .invalid else .native
  else if flags &&& SHZ_LOADER_K64_DISPLAY ≠ 0 then .display
  else .dos

/-- `find_blob`; `find_rom` is the same search -/
def findBlob (info : Info) (name : String) : Option Blob :=
  (info.blobs.take SHZ_MAX_BLOBS).find? fun b => b.name = name ∧ b.size ≠ 0

structure Chan where
  hpa : Nat
  peer : Nat
  mapped : Bool
  deriving DecidableEq, Repr

/-- `domain_t` -/
structure Domain where
  id : Nat
  kind : DomKind
  state : DomState
  ramBase : Nat
  ramSize : Nat
  ept : Ept
  chan : Nat → Chan

/-- After `memset(d, 0, sizeof *d)`. -/
def zeroDomain : Domain := ⟨0, .dos16, .unused, 0, 0, emptyEpt, fun _ => ⟨0, 0, false⟩⟩

/-- `g_dom` and the pool. -/
structure State where
  dom : Nat → Domain
  used : Nat

def State.setDom (s : State) (id : Nat) (d : Domain) : State := { s with dom := Function.update s.dom id d }

/-- The Supervisor maps all of the range. -/
def hostMapped (base size : Nat) : Bool := base + size ≤ MAX_GIB * 2 ^ 30

/-- Pages of the pool, one after the other. -/
def allocPages : Nat → Nat → Nat × Bool
  | 0, used => (used, true)
  | n + 1, used =>
    if used < POOL_PAGES then allocPages n (used + 1)
    else ((allocPages n used).1, false)

/-- What a creation returns: 0, 1 for a domain that is not configured, or -1 with an error. -/
inductive Created
  | done | absent | refused (why : String)
  deriving DecidableEq, Repr

/-- The domain of an identifier, before its tables are built. -/
def newDomain (id : Nat) (kind : DomKind) (base size : Nat) : Domain :=
  { zeroDomain with id, kind, ramBase := base, ramSize := size }

section Create

variable (m : Machine)

/-- The pages of the VMX structures, and the start of the vCPU; `vmx` is the result of `vmx_vcpu_init`
and of what else the domain needs. -/
def finish (s : State) (d : Domain) (vmx : Bool) : State × Created :=
  let (used, ok) := allocPages 4 s.used
  let s := { s with used }
  if ok = false then (s.setDom d.id d, .refused "Supervisor pool exhausted")
  else if vmx = false then (s.setDom d.id d, .refused "vmcs")
  else (s.setDom d.id { d with state := .runnable }, .done)

def dosDomainCreate (s : State) (vmx : Bool) : State × Created :=
  let base := m.info.guestRamBase.toNat
  let size := m.info.guestRamSize.toNat
  let d := newDomain SHZ_DOM_DOS16 .dos16 base size
  if size < 0x200000 ∨ size % 0x1000 ≠ 0 ∨ base % 0x1000 ≠ 0 ∨ size > 0x8000000 then
    (s.setDom d.id d, .refused "invalid DOS guest RAM or vBIOS size")
  else if hostMapped base size = false then (s.setDom d.id d, .refused "fault")
  else
    match eptInit s.used with
    | none => (s.setDom d.id d, .refused "EPT construction failed for the DOS16 domain")
    | some (ept, used) =>
      let (ept, used, ok) := eptMap ept used 0 base size (EPT_RWX + EPT_WB) true
      let s := { s with used }
      let d := { d with ept }
      if ok = false then (s.setDom d.id d, .refused "EPT construction failed for the DOS16 domain")
      else finish s d vmx

/-- The RAM of Win98, its ROM below 4 GiB, and the page of the local APIC that it does not have. -/
def win98Maps (base size : Nat) (rom : Blob) (lapic : Nat) (ept : Ept) (used : Nat) : Ept × Nat × Bool :=
  match eptMap ept used 0 base size (EPT_RWX + EPT_WB) true with
  | (ept, used, false) => (ept, used, false)
  | (ept, used, true) =>
    match eptMap ept used (0x100000000 - rom.size.toNat) rom.base.toNat rom.size.toNat
      (EPT_R + EPT_X + EPT_WB) true with
    | (ept, used, false) => (ept, used, false)
    | (ept, used, true) => eptMap ept used W98_ABSENT_LAPIC_GPA lapic 0x1000 (EPT_R + EPT_UC) true

/-- `win98_domain_create`; the page of the absent local APIC is a page of the pool. -/
def win98DomainCreate (s : State) (vmx : Bool) : State × Created :=
  let base := m.info.guestRamBase.toNat
  let size := m.info.guestRamSize.toNat
  let d := newDomain SHZ_DOM_WIN98 .win98 base size
  match findBlob m.info "SEABIOS.BIN" with
  | none => (s, .refused "invalid explicit Win98 RAM/disk/SeaBIOS geometry")
  | some rom =>
    if m.info.loaderFlags &&& SHZ_LOADER_NATIVE_WIN98 = 0 ∨ rom.size.toNat ≠ W98_ROM_BYTES ∨
        rom.base.toNat % 0x1000 ≠ 0 ∨ base = 0 ∨ base % 0x1000 ≠ 0 ∨ size ≠ W98_RAM_MIB * 2 ^ 20 ∨
        m.info.diskBase.toNat = 0 ∨ m.info.diskSize.toNat ≠ W98_DISK_BYTES ∨ m.info.tscHz.toNat < 1000000 then
      (s, .refused "invalid explicit Win98 RAM/disk/SeaBIOS geometry")
    else if hostMapped base size = false ∨ hostMapped rom.base.toNat rom.size.toNat = false then
      (s.setDom d.id d, .refused "fault")
    else if POOL_PAGES ≤ s.used then (s.setDom d.id d, .refused "Win98 absent-device page allocation failed")
    else
      let lapic := m.poolMem + s.used * 0x1000
      match eptInit (s.used + 1) with
      | none => ({ s with used := s.used + 1 }.setDom d.id d, .refused "Win98 EPT RAM/real-ROM construction failed")
      | some (ept, used) =>
        let (ept, used, ok) := win98Maps base size rom lapic ept used
        let s := { s with used }
        let d := { d with ept }
        if ok = false then (s.setDom d.id d, .refused "Win98 EPT RAM/real-ROM construction failed")
        else finish s d vmx

def kernelDomain (lm : Bool) : Domain :=
  if lm then newDomain SHZ_DOM_KERNEL64 .kernel64 m.info.k64RamBase.toNat m.info.k64RamSize.toNat
  else newDomain SHZ_DOM_KERNEL32 .kernel32 m.info.k32RamBase.toNat m.info.k32RamSize.toNat

def kernelBlob (info : Info) (lm : Bool) : Option Blob :=
  findBlob info (if lm then "KERNEL64.BIN" else "KERNEL32.BIN")

/-- Only Kernel64 has an initial RAM disk. -/
def initrdBlob (info : Info) (lm : Bool) : Option Blob := if lm then findBlob info "WIN64.IMG" else none

/-- The framebuffer is mapped, when the loader asks for it and the check admits it. -/
def displayGrant (lm : Bool) (size : Nat) (ept : Ept) (used : Nat) : Ept × Nat × Bool :=
  if lm ∧ loaderFlagPolicy m.info.loaderFlags = .display then
    match fbGrantCheck m.info size with
    | .error _ => (ept, used, true)
    | .ok g => eptMap ept used g.base g.base g.mapBytes (EPT_R + EPT_W + EPT_WC) false
  else (ept, used, true)

/-- `kernel_domain_create`; `lm` is `kind == DK_KERNEL64` -/
def kernelDomainCreate (s : State) (lm vmx : Bool) : State × Created :=
  let d := kernelDomain m lm
  let size := d.ramSize
  let initrd := initrdBlob m.info lm
  if loaderFlagPolicy m.info.loaderFlags = .invalid then (s, .refused "loader flags refused")
  else
    match kernelBlob m.info lm with
    | none => (s, .absent)
    | some kernel =>
      if size = 0 then (s, .absent)
      else if d.ramBase % 0x200000 ≠ 0 ∨ size % 0x200000 ≠ 0 ∨ size < 0x1000000 ∨
          kernel.size.toNat > (size - KERNEL_GPA) / 2 ∨
          (∃ i ∈ initrd, (INITRD_GPA + i.size.toNat) % 2 ^ 64 > size) then
        (s.setDom d.id d, .refused "RAM/kernel/initrd geometry invalid")
      else if lm ∧ (kernel.size.toNat = 0 ∨ kernel.size.toNat > SHZ_K64_KERNEL_FILE_MAX ∨ size < SHZ_K64_HEAP_GPA) then
        (s.setDom d.id d, .refused "kernel file bytes outside the [1 MiB, 4 MiB) image window")
      else if hostMapped d.ramBase size = false ∨ hostMapped kernel.base.toNat kernel.size.toNat = false ∨
          (∃ i ∈ initrd, hostMapped i.base.toNat i.size.toNat = false) then
        (s.setDom d.id d, .refused "fault")
      else
        match eptInit s.used with
        | none => (s.setDom d.id d, .refused "EPT construction failed")
        | some (ept, used) =>
          let (ept, used, ok) := eptMap ept used 0 d.ramBase size (EPT_RWX + EPT_WB) false
          if ok = false then
            ({ s with used }.setDom d.id { d with ept }, .refused "EPT construction failed")
          else
            let (ept, used, ok) := displayGrant m lm size ept used
            let s := { s with used }
            let d := { d with ept }
            if ok = false then (s.setDom d.id d, .refused "EPT display grant mapping failed")
            else finish s d vmx

/-! ### Channels -/

def channelPlan : Nat → Nat × Nat
  | 0 => (SHZ_DOM_KERNEL32, SHZ_DOM_KERNEL64)
  | 1 => (SHZ_DOM_KERNEL32, SHZ_DOM_DOS16)
  | 2 => (SHZ_DOM_KERNEL64, SHZ_DOM_WIN98)
  | _ => (0, 0)

def alive (s : State) (id : Nat) : Bool := id < SHZ_MAX_DOMAINS ∧ (s.dom id).state ≠ .unused ∧ (s.dom id).id = id

def channelGpa (c : Nat) : Nat := SHZ_IPC_GPA_BASE + c * SHZ_IPC_REGION_SIZE

def channelHpa (c : Nat) : Nat := (m.info.ipcBase.toNat + c * SHZ_IPC_REGION_SIZE) % 2 ^ 64

/-- `shz_channel_init` succeeds: its header and its rings are cleared. -/
def channelInit (hpa : Nat) : Bool :=
  hpa ≠ 0 ∧ hpa % 64 = 0 ∧ SHZ_IPC_REGION_SIZE - 1 ≤ UINT64_MAX - hpa ∧ hostMapped hpa 128

/-- The tables of a peer after `ept_map`, and its channel if that succeeded. -/
def openPeer (s : State) (c id peer : Nat) (r : Ept × Nat × Bool) : State × Bool :=
  let d := s.dom id
  let s := { s with used := r.2.1 }
  if r.2.2 then
    (s.setDom id { d with ept := r.1, chan := Function.update d.chan c ⟨channelHpa m c, peer, true⟩ }, true)
  else (s.setDom id { d with ept := r.1 }, false)

/-- The region of a channel is mapped for one peer. -/
def mapPeer (s : State) (c id peer : Nat) : State × Bool :=
  if id = SHZ_DOM_DOS16 then (s, true)
  else openPeer m s c id peer (eptMap (s.dom id).ept s.used (channelGpa c) (channelHpa m c) SHZ_IPC_REGION_SIZE
    (EPT_R + EPT_W + EPT_WB) true)

/-- One channel of `ipc_channels_create`. -/
def createChannel (s : State) (c : Nat) : State × Bool :=
  let plan := channelPlan c
  if plan.1 = 0 ∨ alive s plan.1 = false ∨ alive s plan.2 = false then (s, true)
  else if channelInit (channelHpa m c) then
    let r := mapPeer m s c plan.1 plan.2
    if r.2 then mapPeer m r.1 c plan.2 plan.1 else r
  else (s, false)

def createChannels (s : State) : List Nat → State × Bool
  | [] => (s, true)
  | c :: cs =>
    let r := createChannel m s c
    if r.2 then createChannels r.1 cs else r

def ipcConfigured : Bool := m.info.ipcBase ≠ 0 ∧ SHZ_MAX_CHANNELS * SHZ_IPC_REGION_SIZE ≤ m.info.ipcSize.toNat

/-- `ipc_channels_create`, but for the policy that it publishes at the end -/
def ipcChannelsCreate (s : State) : State × Bool :=
  if ipcConfigured m = false then
    (s, loaderFlagPolicy m.info.loaderFlags = .dos ∨ loaderFlagPolicy m.info.loaderFlags = .display)
  else createChannels m s (List.range SHZ_MAX_CHANNELS)

end Create

/-- `dom_gpa_ptr`: `none` for NULL -/
def domGpaPtr (d : Domain) (gpa len : Nat) : Option Nat :=
  if gpa ≤ d.ramSize ∧ len ≤ d.ramSize - gpa then some ((d.ramBase + gpa) % 2 ^ 64)
  else
    ((List.range SHZ_MAX_CHANNELS).find? fun c => (d.chan c).mapped ∧ channelGpa c ≤ gpa ∧
      gpa - channelGpa c ≤ SHZ_IPC_REGION_SIZE ∧ len ≤ SHZ_IPC_REGION_SIZE - (gpa - channelGpa c)).map
        fun c => ((d.chan c).hpa + (gpa - channelGpa c)) % 2 ^ 64

/-! ### The system -/

inductive Event
  | guest (vmx : Bool)
  | kernel (lm vmx : Bool)
  | channels
  deriving DecidableEq, Repr

/-- The Supervisor makes one guest domain: Win98 when the loader asks for it, else DOS. -/
def guestDomainCreate (m : Machine) (s : State) (vmx : Bool) : State × Created :=
  if m.info.loaderFlags &&& SHZ_LOADER_NATIVE_WIN98 ≠ 0 then win98DomainCreate m s vmx else dosDomainCreate m s vmx

def step (m : Machine) (s : State) : Event → State
  | .guest vmx => (guestDomainCreate m s vmx).1
  | .kernel lm vmx => (kernelDomainCreate m s lm vmx).1
  | .channels => (ipcChannelsCreate m s).1

/-- Before any domain is created. -/
structure Start (s : State) : Prop where
  dom : ∀ id, (s.dom id).state = .unused

end Win98Modern.Supervisor.DomainMemory
