import Win98Modern.Win64.PeWalk
import Mathlib.Algebra.Group.Int.Defs

/-!
# What the loader does with an image

`mapModule` is the layout `map_module` of ldr.c gives an image, as ranges of addresses of the image;
`applyRelocs` is `pe_apply_relocs` with its two cached pages, `importCb` the call back that fills the table
of imported addresses and `applyLoadConfig` the code that sets the security cookie and the pointers of
Control Flow Guard from what `loadConfig`, `pe_load_config`, read.
-/

namespace Win98Modern.Pe

open Reading

/-! ### The layout -/

/-- Addresses of the image, `stop` not among them. -/
structure Extent where
  start : Nat
  stop : Nat
  deriving DecidableEq

def Extent.Disjoint (a b : Extent) : Prop := a.stop ≤ b.start ∨ b.stop ≤ a.start

/-- `(n + 4095) & ~4095`. -/
def pages (n : Nat) : Nat := (n + 4095) / 4096 * 4096

/-- The size `map_module` gives a section: the virtual size, or that of its data when it has none. -/
def mappedSize (s : Section) : Nat := pages (if s.vsize ≠ 0 then s.vsize else s.rawSize)

/-- The extents of the sections from the `i`-th on, of which there are `n`. -/
def sectionExtents (f : Bytes) (o : Info) : Nat → Nat → Result (List Extent)
  | 0, _ => pure []
  | n + 1, i => do
    let s ← getSection f o i
    let rest ← sectionExtents f o n (i + 1)
    pure (if mappedSize s = 0 then rest else ⟨s.rva, s.rva + mappedSize s⟩ :: rest)

/-- The extent of the headers, or of the flat view of the file, and those of the sections. -/
def mapModule (f : Bytes) (o : Info) : Result (Extent × List Extent) :=
  if o.lowAlignment then pure (⟨0, pages o.sizeOfImage⟩, [])
  else do
    let es ← sectionExtents f o o.nsections 0
    pure (⟨0, pages o.sizeOfHeaders⟩, es)

/-! ### pe_apply_relocs -/

/-- `struct apply_ctx`: the mapped bytes, the two pages looked up last with their addresses, and what has
been stored to. -/
structure ApplyCtx where
  mem : Nat → UInt8
  curRva : Nat
  nextRva : Nat
  cur : Option Nat
  next : Option Nat
  applied : Nat
  failed : Bool
  stores : List Nat

namespace ApplyCtx

def pageOf (rva : Nat) : Nat := rva - rva % 4096

variable (page : Nat → Option Nat)

/-- `fix_byte`: the address of the byte at `rva`, in the current page or the one after it. -/
def fixByte (a : ApplyCtx) (rva : Nat) : ApplyCtx × Option Nat :=
  match if pageOf rva = a.curRva then a.cur else none with
  | some p => (a, some (p + rva % 4096))
  | none =>
    match if a.nextRva = pageOf rva then a.next else none with
    | some p => (a, some (p + rva % 4096))
    | none =>
      ({ a with next := page (pageOf rva), nextRva := pageOf rva },
        (page (pageOf rva)).map (· + rva % 4096))

/-- The addresses of `width` bytes from `rva` on, if every one of them is mapped. -/
def fixBytes (a : ApplyCtx) (rva : Nat) : Nat → ApplyCtx × Option (List Nat)
  | 0 => (a, some [])
  | width + 1 =>
    match fixByte page a rva with
    | (a, none) => (a, none)
    | (a, some p) =>
      match fixBytes a (u32 (rva + 1)) width with
      | (a, none) => (a, none)
      | (a, some ps) => (a, some (p :: ps))

/-- The value of the bytes at `ps`, the lowest first. -/
def load (a : ApplyCtx) : List Nat → Nat
  | [] => 0
  | p :: ps => (a.mem p).toNat + 256 * a.load ps

def store (a : ApplyCtx) : List Nat → Nat → ApplyCtx
  | [], _ => a
  | p :: ps, v =>
    store { a with mem := Function.update a.mem p (UInt8.ofNat v), stores := p :: a.stores } ps (v / 256)

/-- The two's complement reading of the low `w` bits. -/
def signed (w n : Nat) : Int := if n % 2 ^ w < 2 ^ (w - 1) then (n % 2 ^ w : Nat) else (n % 2 ^ w : Nat) - 2 ^ w

/-- The value a fixup leaves where `v` was. -/
def fixed (delta : Nat) (x : Fixup) (v : Nat) : Nat :=
  match x.type with
  | 10 => (v + delta) % 2 ^ 64
  | 3 => u32 (v + delta)
  | 1 => (v + delta / 2 ^ 16) % 2 ^ 16
  | 2 => (v + delta) % 2 ^ 16
  | _ => ((signed 16 v * 65536 + signed 16 x.low + signed 32 delta + 0x8000) / 65536 % 2 ^ 16).toNat

/-- The page of the block, looked up when a fixup is the first one in it. -/
def turnTo (a : ApplyCtx) (rva : Nat) : ApplyCtx :=
  if pageOf rva = a.curRva then a else { a with curRva := pageOf rva, cur := page (pageOf rva) }

def applyOne (delta : Nat) (a : ApplyCtx) (x : Fixup) : ApplyCtx × Int :=
  let a' := turnTo page a x.rva
  if pageOf x.rva ≠ a.curRva ∧ a'.cur = none then ({ a' with failed := true }, PE_E_RELOC)
  else match fixBytes page a' x.rva (relocWidth x.type) with
    | (a', none) => ({ a' with failed := true }, PE_E_RELOC)
    | (a', some ps) =>
      if relocWidth x.type = 0 then (a', PE_E_RELOC)
      else
        let a' := a'.store ps (fixed delta x (a'.load ps))
        ({ a' with applied := a'.applied + 1 }, 0)

def start (mem : Nat → UInt8) : ApplyCtx :=
  { mem, curRva := 2 ^ 32 - 1, nextRva := 2 ^ 32 - 1, cur := none, next := none, applied := 0, failed := false,
    stores := [] }

end ApplyCtx

/-- `pe_apply_relocs`, for a load at `image_base + delta`; `page` is where the pages of the image are mapped. -/
def applyRelocs (f : Bytes) (o : Info) (delta : Nat) (page : Nat → Option Nat) (mem : Nat → UInt8) :
    ApplyCtx × Except (Fault Int) Unit :=
  match walkRelocs f o (ApplyCtx.applyOne page delta) (ApplyCtx.start mem) with
  | (a, r) => (a, do
    recode PE_E_RELOC r
    refuse (a.failed = true) PE_E_RELOC)

/-- A store of the loader: where it is in the process and how many bytes it has. -/
structure Store where
  va : Nat
  len : Nat

/-- `import_cb`, in whatever state the rest of the loader is: `resolve` finds the import and `poke` says
whether the whole slot could be stored to. -/
def importCb {ω : Type} (resolve : ω → Import → ω × Option Nat) (poke : ω → Nat → Nat → ω × Bool) (base : Nat)
    (s : ω × List Store) (x : Import) : (ω × List Store) × Int :=
  match resolve s.1 x with
  | (w, none) => ((w, s.2), -1)
  | (w, some va) =>
    match poke w (base + x.slot) va with
    | (w, false) => ((w, ⟨base + x.slot, 8⟩ :: s.2), -1)
    | (w, true) => ((w, ⟨base + x.slot, 8⟩ :: s.2), 0)

/-! ### The load configuration -/

/-- `pe_load_config_t`. -/
structure LoadConfig where
  size : Nat
  dependentLoadFlags : Nat
  securityCookie : Nat
  seHandlerTable : Nat
  seHandlerCount : Nat
  guardCfCheckFptr : Nat
  guardCfDispatchFptr : Nat
  guardCfFunctionTable : Nat
  guardCfFunctionCount : Nat
  guardFlags : Nat
  guardIatTable : Nat
  guardIatCount : Nat
  guardLongjumpTable : Nat
  guardLongjumpCount : Nat
  dynamicValueRelocTable : Nat
  guardRfFailureFptr : Nat
  dynamicValueRelocOffset : Nat
  dynamicValueRelocSection : Nat
  guardRfVerifySpFptr : Nat
  guardEhcontTable : Nat
  guardEhcontCount : Nat
  guardXfgCheckFptr : Nat
  guardXfgDispatchFptr : Nat
  guardXfgTableDispatchFptr : Nat
  guardMemcpyFptr : Nat

namespace LoadConfig

/-- The pointers the loader may write through. -/
def slots (c : LoadConfig) : List Nat :=
  [c.securityCookie, c.guardCfCheckFptr, c.guardCfDispatchFptr, c.guardXfgCheckFptr, c.guardXfgDispatchFptr,
    c.guardXfgTableDispatchFptr, c.guardRfFailureFptr, c.guardRfVerifySpFptr, c.guardMemcpyFptr]

def tables (c : LoadConfig) : List (Nat × Nat) :=
  [(c.guardCfFunctionTable, c.guardCfFunctionCount), (c.guardIatTable, c.guardIatCount),
    (c.guardLongjumpTable, c.guardLongjumpCount), (c.guardEhcontTable, c.guardEhcontCount)]

/-- The size of a table's entries. -/
def stride (c : LoadConfig) : Nat := 4 + c.guardFlags / 2 ^ 28

end LoadConfig

/-- The field `i` bytes into a configuration of `n` bytes at `p`, zero when it is past its end. -/
def configField (f : Bytes) (p n width i : Nat) : Result Nat :=
  if i + width ≤ n then f.rd width (p + i) else pure 0

/-- A pointer the loader may write through: zero or an aligned slot of eight bytes inside the image. -/
def slotOutside (o : Info) (slot : Nat) : Prop :=
  slot ≠ 0 ∧ (slot < o.imageBase ∨ o.imageBase + o.sizeOfImage - 8 < slot ∨ slot % 8 ≠ 0)

instance (o : Info) (slot : Nat) : Decidable (slotOutside o slot) := inferInstanceAs (Decidable (_ ∧ _))

/-- A table of `count` entries that is not inside the image. -/
def tableOutside (o : Info) (stride : Nat) (t : Nat × Nat) : Prop :=
  ¬(t.1 = 0 ∧ t.2 = 0) ∧
    (t.1 = 0 ∨ t.1 < o.imageBase ∨ o.imageBase + o.sizeOfImage ≤ t.1 ∨ 2 ^ 32 < t.2 ∨
      o.imageBase + o.sizeOfImage - t.1 < t.2 * stride)

instance (o : Info) (stride : Nat) (t : Nat × Nat) : Decidable (tableOutside o stride t) :=
  inferInstanceAs (Decidable (_ ∧ _))

/-- The fields of the configuration of `size` bytes at `p`. -/
def readConfig (f : Bytes) (p size : Nat) : Result LoadConfig := do
  let field := configField f p size
  let dependentLoadFlags ← field 2 0x4e
  let securityCookie ← field 8 0x58
  let seHandlerTable ← field 8 0x60
  let seHandlerCount ← field 8 0x68
  let guardCfCheckFptr ← field 8 0x70
  let guardCfDispatchFptr ← field 8 0x78
  let guardCfFunctionTable ← field 8 0x80
  let guardCfFunctionCount ← field 8 0x88
  let guardFlags ← field 4 0x90
  let guardIatTable ← field 8 0xa0
  let guardIatCount ← field 8 0xa8
  let guardLongjumpTable ← field 8 0xb0
  let guardLongjumpCount ← field 8 0xb8
  let dynamicValueRelocTable ← field 8 0xc0
  let guardRfFailureFptr ← field 8 0xd8
  let dynamicValueRelocOffset ← field 4 0xe0
  let dynamicValueRelocSection ← field 2 0xe4
  let guardRfVerifySpFptr ← field 8 0xe8
  let guardEhcontTable ← field 8 0x108
  let guardEhcontCount ← field 8 0x110
  let guardXfgCheckFptr ← field 8 0x118
  let guardXfgDispatchFptr ← field 8 0x120
  let guardXfgTableDispatchFptr ← field 8 0x128
  let guardMemcpyFptr ← field 8 0x138
  pure { size, dependentLoadFlags, securityCookie, seHandlerTable, seHandlerCount, guardCfCheckFptr,
         guardCfDispatchFptr, guardCfFunctionTable, guardCfFunctionCount, guardFlags, guardIatTable,
         guardIatCount, guardLongjumpTable, guardLongjumpCount, dynamicValueRelocTable, guardRfFailureFptr,
         dynamicValueRelocOffset, dynamicValueRelocSection, guardRfVerifySpFptr, guardEhcontTable,
         guardEhcontCount, guardXfgCheckFptr, guardXfgDispatchFptr, guardXfgTableDispatchFptr, guardMemcpyFptr }

/-- `pe_load_config`; nothing for an image without a configuration. -/
def loadConfig (f : Bytes) (o : Info) : Result (Option LoadConfig) :=
  if o.dirRva 10 = 0 then pure none
  else do
    let sp ← recode PE_E_LOADCFG (rvaToOffset f o (o.dirRva 10))
    refuse (sp.avail < 4) PE_E_LOADCFG
    let size ← f.rd 4 sp.off
    refuse (size < 4 ∨ sp.avail < size ∨ 0x10000 < size) PE_E_LOADCFG
    let c ← readConfig f sp.off size
    refuse (∃ slot ∈ c.slots, slotOutside o slot) PE_E_LOADCFG
    refuse (∃ t ∈ c.tables, tableOutside o c.stride t) PE_E_LOADCFG
    pure (some c)

/-- What `apply_load_config` finds: the eight bytes at an address, whether all eight at an address can be
stored to, whether there is a random value, and the functions ntdll exports for the checks. -/
structure ConfigEnv where
  peek : Nat → Option Nat
  poke : Nat → Bool
  random : Bool
  check : Nat
  dispatch : Nat

def defaultCookie : Nat := 0x00002B992DDFA232

def STATUS_INVALID_IMAGE_FORMAT : Int := -0x3fffff85

/-- The stores at the slots of `w` that are not zero and have a function to hold, up to the first that fails,
of which a part may have been made. -/
def pokeSlots (env : ConfigEnv) (base pref : Nat) : List (Nat × Nat) → List Store × Int
  | [] => ([], 0)
  | (slot, fn) :: w =>
    if slot ≠ 0 ∧ fn ≠ 0 then
      if env.poke (base + (slot - pref)) then
        match pokeSlots env base pref w with
        | (ws, st) => (⟨base + (slot - pref), 8⟩ :: ws, st)
      else ([⟨base + (slot - pref), 8⟩], STATUS_INVALID_IMAGE_FORMAT)
    else pokeSlots env base pref w

/-- The store of the security cookie: it is made where the default is found. -/
def cookieStore (env : ConfigEnv) (va : Nat) : List Store × Int :=
  match env.peek va with
  | none => ([], STATUS_INVALID_IMAGE_FORMAT)
  | some v => (if v = defaultCookie ∧ env.random then [⟨va, 8⟩] else [], 0)

/-- The pointers of Control Flow Guard and what they are set to. -/
def guardSlots (env : ConfigEnv) (c : LoadConfig) : List (Nat × Nat) :=
  [(c.guardCfCheckFptr, env.check), (c.guardCfDispatchFptr, env.dispatch), (c.guardXfgCheckFptr, env.check),
    (c.guardXfgDispatchFptr, env.dispatch), (c.guardXfgTableDispatchFptr, env.dispatch)]

/-- `apply_load_config`: the stores it makes and the status it returns. -/
def applyLoadConfig (env : ConfigEnv) (o : Info) (base : Nat) (c : LoadConfig) : List Store × Int :=
  match if c.securityCookie ≠ 0 ∧ c.guardFlags / 0x800 % 2 = 0 then
      cookieStore env (base + (c.securityCookie - o.imageBase)) else ([], 0) with
  | (ws, st) =>
    if st ≠ 0 then (ws, st)
    else if c.guardFlags / 0x100 % 2 ≠ 0 then
      match pokeSlots env base o.imageBase (guardSlots env c) with
      | (ws', st) => (ws ++ ws', st)
    else (ws, 0)

end Win98Modern.Pe
