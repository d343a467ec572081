import Mathlib.Data.Finset.Sort
import Win98Modern.Lib.Failing
import Win98Modern.Lib.Marking

/-!
# The loader and the lifetime of modules

The module records of a process (`ldr.c`), their references and edges (`ldr_lifetime.h`), the loading
of an image with all that it imports, its rollback, and the two calls that retire modules.  What the
files hold, what fails for want of memory, and what user memory answers are parameters.  A record is
named by a number that is never used twice.
-/

namespace Win98Modern.Loader

open Failing (fail ensure)

inductive Status
  | dllNotFound
  | noMemory
  | invalidParameter
  | entrypointNotFound
  | ordinalNotFound
  | invalidImageFormat
  | conflictingAddresses
  | accessDenied
  | accessViolation
  | notSupported
  | bufferTooSmall
  | unableToFreeVm
deriving DecidableEq, Repr

/-! ### Images -/

inductive Symbol
  | name (s : String)
  | ordinal (n : Nat)
deriving DecidableEq, Repr

/-- What `pe_find_export` finds.  The function of a forwarder may be malformed. -/
inductive Export
  | notFound
  | malformed
  | code
  | forward (dll : String) (fn : Option Symbol)
deriving DecidableEq, Repr

/-- One call of `import_cb`; `iatMapped` is whether the slot can be written. -/
structure Import where
  dll : String
  symbol : Symbol
  iatMapped : Bool

/-- How far `map_module` gets: no base, a base and nothing mapped, a part mapped, or all. -/
inductive Mapping
  | noBase
  | unmapped
  | part
  | whole
deriving DecidableEq, Repr

/-- The TLS directory; with `unwritable` the index cannot be written. -/
inductive Tls
  | absent
  | malformed
  | unwritable
  | present
deriving DecidableEq, Repr

/-- What `load_module_file` finds in a file; `lazy` for a file of a disk, `base` the base selected. -/
structure ImageFile where
  accessible : Bool
  parses : Bool
  lazy : Bool
  mapping : Mapping
  base : Nat
  loadConfig : Bool
  delayImports : Bool
  imports : List Import
  importsEnd : Bool
  tls : Tls
  exports : Symbol → Export

/-- One request: the names of modules, the API-set contracts, the files, and the allocations. -/
structure Env where
  baseName : String → String
  apiset : String → Option (String × Bool)
  locateFile : String → Bool → Option ImageFile
  edgeAlloc : Nat → Nat → Bool

/-! ### The process -/

inductive ModuleState
  | loading
  | linked
  | prepared
deriving DecidableEq, Repr

/-- `module_t` and its `shz_ldr_life_t`.  `completion` is what `init_counter` came to, counted without
end. -/
structure Module where
  id : Nat
  name : String
  base : Nat
  lazy : Bool
  exports : Symbol → Export
  edges : List Nat
  refs : Nat
  root : Bool
  pinned : Bool
  retiring : Bool
  state : ModuleState
  hasTls : Bool
  completion : Nat

/-- The number of the initialization, of 32 bits. -/
def Module.initSeq (m : Module) : Nat := m.completion % 2 ^ 32

/-- `shz_ldr_image_life_t`. -/
structure ImageLife where
  refs : Nat
  retired : Bool
deriving DecidableEq, Repr

/-- `ldr_retirement_t`; `nodes` are those not yet released. -/
structure Retirement where
  token : Nat
  ownerTid : Nat
  nodes : List Nat
deriving DecidableEq, Repr

/-- The loader's part of `process_t`.  `mapped` are the bases of the mapped images, and `image` the life
of the image map of each lazily mapped module.  For the proofs only: `pageIns` are the page-ins under
way, `freed` the records freed, `freedLazy` those of them that were mapped lazily, `imagesFreed` the image
maps freed, and `linked` the edges made, each the latest first. -/
structure Process where
  modules : List Module
  mapped : Finset Nat
  tlsSlots : Nat
  retirement : Option Retirement
  retireSequence : Nat
  initCounter : Nat
  nextId : Nat
  image : Nat → ImageLife
  pageIns : List Nat
  freed : List Nat
  freedLazy : List Nat
  imagesFreed : List Nat
  linked : List (Nat × Nat)

def Process.ids (p : Process) : List Nat := p.modules.map Module.id

def Process.update (p : Process) (id : Nat) (f : Module → Module) : Process :=
  { p with modules := p.modules.map fun m => if m.id = id then f m else m }

/-- A computation of the loader; what it did stays also when it fails. -/
abbrev Load : Type → Type := Failing Process Status

/-! ### Loading -/

def findModule (p : Process) (name : String) : Option Module := p.modules.find? fun m => m.name = name

def hasEdge (p : Process) (source target : Nat) : Bool :=
  p.modules.any fun m => m.id = source ∧ target ∈ m.edges

def isRetiring (p : Process) (id : Nat) : Bool := p.modules.any fun m => m.id = id ∧ m.retiring

def addEdge (source target : Nat) (p : Process) : Process :=
  { p.update source (fun m => { m with edges := target :: m.edges }) with
    linked := (source, target) :: p.linked }

def moduleEdge (env : Env) (source target : Nat) : Load Unit := fun p =>
  if isRetiring p target then (p, .error .dllNotFound)
  else if source = target ∨ hasEdge p source target then (p, .ok ())
  else if env.edgeAlloc source target then (addEdge source target p, .ok ())
  else (p, .error .noMemory)

/-- `resolve_dll_name`: the DLL to load, and whether a contract named it. -/
def resolveDllName (env : Env) (name : String) : Load (String × Bool) :=
  match env.apiset name with
  | some r => pure r
  | none => fail .dllNotFound

def notExported : Symbol → Status
  | .name _ => .entrypointNotFound
  | .ordinal _ => .ordinalNotFound

/-- `resolve_export`, with `hops` forwarders to go; `load` is `load_dll`. -/
def resolveExport (env : Env) (load : Nat → String → Bool → Load Module) :
    Nat → Module → Symbol → Load Unit
  | 0, _, _ => fail .entrypointNotFound
  | hops + 1, m, sym =>
    match m.exports sym with
    | .notFound => fail (notExported sym)
    | .malformed => fail .invalidImageFormat
    | .code => pure ()
    | .forward dll fn => do
      let (host, api) ← resolveDllName env (env.baseName dll)
      let target ← load (9 - hops) host api
      match fn with
      | none => fail .invalidImageFormat
      | some fn => do
        resolveExport env load hops target fn
        moduleEdge env m.id target.id

def importCb (env : Env) (load : Nat → String → Bool → Load Module) (depth : Nat) (m : Module)
    (i : Import) : Load Unit := do
  let (host, api) ← resolveDllName env (env.baseName i.dll)
  let target ← load (depth + 1) host api
  resolveExport env load 9 target i.symbol
  moduleEdge env m.id target.id
  ensure i.iatMapped .accessViolation

def walkImports (env : Env) (load : Nat → String → Bool → Load Module) (depth : Nat) (m : Module) :
    List Import → Load Unit
  | [] => pure ()
  | i :: rest => do
    importCb env load depth m i
    walkImports env load depth m rest

/-- The TLS slot of `link_module`. -/
def takeTlsSlot (id : Nat) (p : Process) : Process :=
  { p.update id (fun m => { m with hasTls := true }) with tlsSlots := p.tlsSlots + 1 }

def linkModule (env : Env) (load : Nat → String → Bool → Load Module) (depth : Nat) (m : Module)
    (file : ImageFile) : Load Unit := do
  ensure file.loadConfig .invalidImageFormat
  ensure file.delayImports .invalidImageFormat
  walkImports env load depth m file.imports
  ensure file.importsEnd .invalidImageFormat
  match file.tls with
  | .absent => pure ()
  | .malformed => fail .invalidImageFormat
  | .unwritable => do
    Failing.modify (takeTlsSlot m.id)
    fail .accessViolation
  | .present => Failing.modify (takeTlsSlot m.id)

def mapImage (id base : Nat) (p : Process) : Process :=
  { p.update id (fun m => { m with base := base }) with mapped := insert base p.mapped }

/-- `map_module`; each way to select a base takes only a free one. -/
def mapModule (m : Module) (file : ImageFile) : Load Unit := fun p =>
  if file.mapping = .noBase ∨ file.base = 0 ∨ file.base ∈ p.mapped then (p, .error .conflictingAddresses)
  else
    match file.mapping with
    | .noBase => (p, .error .conflictingAddresses)
    | .unmapped => (p.update m.id fun m => { m with base := file.base }, .error .noMemory)
    | .part => (mapImage m.id file.base p, .error .noMemory)
    | .whole => (mapImage m.id file.base p, .ok ())

def Process.fresh (p : Process) (name : String) (file : ImageFile) : Module :=
  ⟨p.nextId, name, 0, file.lazy, file.exports, [], 0, false, false, false, .loading, false, 0⟩

def Process.push (p : Process) (m : Module) : Process :=
  { p with
    modules := m :: p.modules
    nextId := p.nextId + 1
    image := Function.update p.image m.id ⟨if m.lazy then 1 else 0, false⟩ }

/-- The end of `load_module_file`. -/
def complete (id : Nat) (p : Process) : Process :=
  { p.update id (fun m => { m with state := .linked, completion := p.initCounter + 1 }) with
    initCounter := p.initCounter + 1 }

def loadModuleFile (env : Env) (load : Nat → String → Bool → Load Module) (depth : Nat) (name : String)
    (file : ImageFile) : Load Module := fun p =>
  if ¬file.accessible then (p, .error .accessDenied)
  else if ¬file.parses then (p, .error .invalidImageFormat)
  else
    let m := p.fresh name file
    let body : Load Module := do
      mapModule m file
      linkModule env load depth m file
      Failing.modify (complete m.id)
      pure m
    body (p.push m)

/-- `load_dll`.  After `nest` nested loads no record can be allocated. -/
def loadDll (env : Env) : Nat → Nat → String → Bool → Load Module
  | nest, depth, name, systemOnly => fun p =>
    match findModule p (env.baseName name) with
    | some m => if m.retiring then (p, .error .dllNotFound) else (p, .ok m)
    | none =>
      if 24 < depth then (p, .error .dllNotFound)
      else
        match env.locateFile name systemOnly with
        | none => (p, .error .dllNotFound)
        | some file =>
          match nest with
          | 0 => (p, .error .noMemory)
          | nest + 1 => loadModuleFile env (loadDll env nest) depth (env.baseName name) file p

/-! ### Releasing -/

def incomingRemove (id : Nat) (p : Process) : Process :=
  { p with modules := p.modules.map fun m => { m with edges := m.edges.filter (· ≠ id) } }

/-- `shz_ldr_image_retire` and, for the last reference, `image_metadata_free`. -/
def ownerRetire (m : Module) (p : Process) : Process :=
  if ¬m.lazy ∨ (p.image m.id).retired then p
  else
    let refs := (p.image m.id).refs
    { p with
      image := Function.update p.image m.id ⟨refs - 1, true⟩
      imagesFreed := if refs = 1 then m.id :: p.imagesFreed else p.imagesFreed }

/-- What `rollback` and the commit do to a record, once it is out of the list. -/
def release (m : Module) (p : Process) : Process :=
  let p := ownerRetire m (incomingRemove m.id p)
  { p with freed := m.id :: p.freed, freedLazy := if m.lazy then m.id :: p.freedLazy else p.freedLazy }

/-- `rollback`: the records above `mark` go. -/
def rollbackLoop (mark : Option Nat) : Nat → Process → Process
  | 0, p => p
  | fuel + 1, p =>
    match p.modules with
    | [] => p
    | m :: rest =>
      if some m.id = mark then p
      else
        rollbackLoop mark fuel
          (release m { p with modules := rest, mapped := if m.base = 0 then p.mapped else p.mapped.erase m.base })

def rollback (mark : Option Nat) (tlsMark : Nat) (p : Process) : Process :=
  { rollbackLoop mark p.modules.length p with tlsSlots := tlsMark }

/-- `ldr_load_module_runtime`; `publish` is whether the records can be published. -/
def loadRuntime (env : Env) (nest : Nat) (name : String) (publish : Bool) (p : Process) :
    Process × Except Status Nat :=
  let mark := p.modules.head?.map Module.id
  let body : Load Module := do
    let (host, api) ← resolveDllName env (env.baseName name)
    loadDll env nest 0 (if api then host else name) api
  match body p with
  | (q, .error st) => (rollback mark p.tlsSlots q, .error st)
  | (q, .ok m) =>
    match q.modules.find? fun x => x.id = m.id with
    | none => (rollback mark p.tlsSlots q, .error .noMemory)
    | some m =>
      if 0xfffe ≤ m.refs ∨ m.retiring then (rollback mark p.tlsSlots q, .error .noMemory)
      else if publish then (q.update m.id fun x => { x with refs := x.refs + 1 }, .ok m.base)
      else (rollback mark p.tlsSlots q, .error .accessViolation)

/-- A process without modules. -/
def Process.empty (initCounter : Nat) : Process :=
  ⟨[], ∅, 0, none, 0, initCounter, 0, fun _ => ⟨0, false⟩, [], [], [], [], []⟩

/-- The loads of `ldr_create_process_ex`; on success all modules are roots. -/
def createProcess (env : Env) (nest : Nat) (name : String) (file : ImageFile) (initCounter : Nat) :
    Option Process :=
  let body : Load Module := do
    let _ ← loadDll env nest 0 "ntdll.dll" true
    loadModuleFile env (loadDll env nest) 0 name file
  match body (.empty initCounter) with
  | (_, .error _) => none
  | (p, .ok _) => some { p with modules := p.modules.map fun m => { m with root := true } }

/-! ### The lifetime calls -/

/-- `SHZ_LDR_ADDREF` and `SHZ_LDR_PIN`; `written` is whether the load count can be written. -/
def addref (base : Nat) (pin written : Bool) (p : Process) : Process × Except Status Unit :=
  match p.modules.reverse.find? fun m => m.base = base with
  | none => (p, .error .dllNotFound)
  | some m =>
    if m.state ≠ .linked ∨ m.retiring then (p, .error .dllNotFound)
    else if ¬pin ∧ 0xfffe ≤ m.refs then (p, .error .noMemory)
    else if ¬written then (p, .error .accessViolation)
    else if pin then (p.update m.id fun x => { x with pinned := true }, .ok ())
    else (p.update m.id fun x => { x with refs := x.refs + 1 }, .ok ())

/-- The first marks of `shz_ldr_life_mark`. -/
def roots (p : Process) : Finset Nat :=
  ((p.modules.filter fun m => ¬m.retiring ∧ (m.root ∨ m.pinned ∨ m.refs ≠ 0)).map Module.id).toFinset

def liveEdges (p : Process) (id : Nat) : List Nat :=
  (p.modules.filter fun m => m.id = id).flatMap fun m => m.edges.filter fun e => ¬isRetiring p e

/-- `shz_ldr_life_mark`. -/
def reachable (p : Process) : Finset Nat :=
  mark (liveEdges p) p.ids (p.modules.length + 1) (roots p)

/-- What user memory and the allocator answer in one call of PREPARE. -/
structure PrepareIo where
  allocated : Bool
  listsValid : Nat → Bool
  flagsRead : Nat → Bool
  callbackActive : Nat → Bool
  copied : Bool
  counted : Bool
  tid : Nat

def retireCheck (io : PrepareIo) (m : Module) : Option Status :=
  if m.hasTls then some .notSupported
  else if ¬io.listsValid m.id then some .accessViolation
  else if ¬io.flagsRead m.id then some .accessViolation
  else if io.callbackActive m.id then some .notSupported
  else none

def unreachable (p : Process) : List Module :=
  p.modules.filter fun m => m.id ∉ reachable p ∧ m.state = .linked

/-- One turn of the exchange sort: the latest of the records, and the others. -/
def exchange (a : Module) : List Module → Module × List Module
  | [] => (a, [])
  | x :: xs =>
    if a.initSeq < x.initSeq then
      let (top, rest) := exchange x xs
      (top, a :: rest)
    else
      let (top, rest) := exchange a xs
      (top, x :: rest)

/-- The exchange sort; there are at most as many turns as records. -/
def latestFirst : Nat → List Module → List Module
  | _, [] => []
  | 0, l => l
  | fuel + 1, a :: xs => (exchange a xs).1 :: latestFirst fuel (exchange a xs).2

/-- The records to retire, in their order. -/
def selected (p : Process) : List Nat := (latestFirst (unreachable p).length (unreachable p)).map Module.id

/-- One reference of the module is gone, if it has one. -/
def dropRef (id : Nat) (p : Process) : Process := p.update id fun m => { m with refs := m.refs - 1 }

def setRetiring (nodes : List Nat) (p : Process) : Process :=
  { p with modules := p.modules.map fun m =>
      if m.id ∈ nodes then { m with retiring := true, state := .prepared } else m }

/-- `SHZ_LDR_PREPARE`: the records selected, in their order. -/
def prepare (base capacity : Nat) (io : PrepareIo) (p : Process) : Process × Except Status (List Nat) :=
  if 1024 < capacity then (p, .error .invalidParameter)
  else
    match p.modules.reverse.find? fun m => m.base = base with
    | none => (p, .error .dllNotFound)
    | some root =>
      if root.state ≠ .linked ∨ root.retiring then (p, .error .dllNotFound)
      else if p.retirement ≠ none then (p, .error .notSupported)
      else if root.refs = 0 ∧ ¬root.root ∧ ¬root.pinned then (p, .error .invalidParameter)
      else if 1024 < p.modules.length ∨ p.retireSequence = 2 ^ 64 - 1 then (p, .error .notSupported)
      else if ¬io.allocated then (p, .error .noMemory)
      else
        let q := dropRef root.id p
        match (unreachable q).findSome? (retireCheck io) with
        | some st => (p, .error st)
        | none =>
          if capacity < (unreachable q).length then (p, .error .bufferTooSmall)
          else if ¬io.copied ∨ ¬io.counted then (p, .error .accessViolation)
          else if selected q = [] then (q, .ok (selected q))
          else
            ({ setRetiring (selected q) q with
              retireSequence := p.retireSequence + 1
              retirement := some ⟨p.retireSequence + 1, io.tid, selected q⟩ }, .ok (selected q))

/-- What user memory answers in one call of COMMIT. -/
structure CommitIo where
  listsValid : Nat → Bool
  unlinked : Nat → Bool
  unmapped : Nat → Bool

/-- The loop of the commit: the records left, and how it ended. -/
def commitLoop (io : CommitIo) : List Nat → Process → Process × List Nat × Except Status Unit
  | [], p => (p, [], .ok ())
  | id :: rest, p =>
    match p.modules.find? fun m => m.id = id with
    | none => (p, id :: rest, .error .accessViolation)
    | some m =>
      if ¬io.unlinked id then (p, id :: rest, .error .accessViolation)
      else if ¬io.unmapped id then (p, id :: rest, .error .unableToFreeVm)
      else
        commitLoop io rest (release m
          { p with modules := p.modules.filter fun x => x.id ≠ id, mapped := p.mapped.erase m.base })

def commit (token tid : Nat) (io : CommitIo) (p : Process) : Process × Except Status Unit :=
  match p.retirement with
  | none => (p, .error .invalidParameter)
  | some tx =>
    if token = 0 ∨ token ≠ tx.token ∨ tx.ownerTid ≠ tid then (p, .error .invalidParameter)
    else if tx.nodes.any fun id => ¬io.listsValid id then (p, .error .accessViolation)
    else
      match commitLoop io tx.nodes p with
      | (q, _, .ok ()) => ({ q with retirement := none }, .ok ())
      | (q, left, .error st) => ({ q with retirement := some { tx with nodes := left } }, .error st)

/-- The begin of `ldr_image_fault` in a mapped image: `shz_ldr_image_acquire`. -/
def pageIn (id : Nat) (p : Process) : Process :=
  if (p.modules.any fun m => m.id = id ∧ m.lazy ∧ m.base ∈ p.mapped) ∧ ¬(p.image id).retired ∧
      (p.image id).refs ≠ 0 ∧ (p.image id).refs ≠ 2 ^ 32 - 1 then
    { p with
      image := Function.update p.image id ⟨(p.image id).refs + 1, false⟩
      pageIns := id :: p.pageIns }
  else p

/-- The end of `ldr_image_fault`: `shz_ldr_image_release`. -/
def pageOut (id : Nat) (p : Process) : Process :=
  if id ∈ p.pageIns then
    { p with
      image := Function.update p.image id ⟨(p.image id).refs - 1, (p.image id).retired⟩
      pageIns := p.pageIns.erase id
      imagesFreed := if (p.image id).refs = 1 then id :: p.imagesFreed else p.imagesFreed }
  else p

/-- The calls and page-ins of a process; `others` are loads in other processes. -/
inductive Act
  | load (env : Env) (nest : Nat) (name : String) (publish : Bool)
  | addref (base : Nat) (pin written : Bool)
  | prepare (base capacity : Nat) (io : PrepareIo)
  | commit (token tid : Nat) (io : CommitIo)
  | pageIn (id : Nat)
  | pageOut (id : Nat)
  | others (loads : Nat)

def step (p : Process) : Act → Process
  | .load env nest name publish => (loadRuntime env nest name publish p).1
  | .addref base pin written => (addref base pin written p).1
  | .prepare base capacity io => (prepare base capacity io p).1
  | .commit token tid io => (commit token tid io p).1
  | .pageIn id => pageIn id p
  | .pageOut id => pageOut id p
  | .others loads => { p with initCounter := p.initCounter + loads }

end Win98Modern.Loader
