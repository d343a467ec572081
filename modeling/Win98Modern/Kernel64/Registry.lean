import Win98Modern.Lib.OrderedBy
import Mathlib.Algebra.Group.Nat.Defs

/-!
# The registry

The tree of keys and values of `registry.c`, with its quota, its change notifications and its
account policy.  Every function here runs with the registry lock held.

A key is named by its address; address 0 is no key.  The address of an object is the number of the
`kzalloc` call that made it, so no address is used twice.  The `sibling` chain of the children
of a key and the `next` chain of its values are lists.
-/

namespace Win98Modern.Registry

abbrev KeyId := Nat
abbrev ValId := Nat
abbrev ObjId := Nat
abbrev ProcId := Nat
abbrev Name := List UInt16

inductive Status
  | success | keyDeleted | objectNameInvalid | invalidParameter | objectNameNotFound
  | accessDenied | childMustBeVolatile | noMemory | cannotDelete | insufficientResources
  | notifyCleanup
  deriving DecidableEq, Repr

/-- `regval_t`. -/
structure Val where
  id : ValId
  type : UInt32
  data : List UInt8
  name : Name
  allocSize : Nat
  deriving DecidableEq, Repr

/-- `regkey_t`; the bits of `flags` are `deleted`, `volatile` and `fixed`. -/
structure Key where
  name : Name
  cls : Name
  parent : KeyId
  child : List KeyId
  values : List Val
  valuesTail : ValId
  lastWrite : Nat
  nsubkeys : Nat
  nvalues : Nat
  refs : Nat
  deleted : Bool
  volatile : Bool
  fixed : Bool
  allocSize : Nat
  accountUid : UInt32
  accountRealm : Nat
  deriving DecidableEq, Repr

/-- What `kzalloc` leaves in a key. -/
def Key.zero : Key where
  name := []
  cls := []
  parent := 0
  child := []
  values := []
  valuesTail := 0
  lastWrite := 0
  nsubkeys := 0
  nvalues := 0
  refs := 0
  deleted := false
  volatile := false
  fixed := false
  allocSize := 0
  accountUid := 0
  accountRealm := 0

/-- `regnotify_t`; `ident` stands for the object, the number and the birth of the process. -/
structure Notify where
  id : Nat
  key : KeyId
  keyObj : ObjId
  event : Nat
  proc : ProcId
  ident : Nat
  iosb : Nat
  filter : UInt32
  subtree : Bool
  deriving DecidableEq, Repr

/-- A completed registration: the status, and whether it was stored in the `IO_STATUS_BLOCK`.
The event, when there is one, is signalled and released. -/
structure Completion where
  reg : Notify
  status : Status
  stored : Bool
  deriving DecidableEq, Repr

/-- A key object, or a key handle of the driver side (`driver`). -/
structure Handle where
  id : ObjId
  key : KeyId
  driver : Bool
  deriving DecidableEq, Repr

/-- The registry; `done` and `registered` record the registrations that have completed and those
that were made. -/
structure St where
  keys : KeyId → Option Key
  root : KeyId
  machine : KeyId
  user : KeyId
  bytes : Nat
  seeded : Bool
  notify : List Notify
  notifyCount : Nat
  done : List Completion
  registered : List Nat
  objects : List Handle
  next : Nat

def St.empty : St where
  keys := fun _ => none
  root := 0
  machine := 0
  user := 0
  bytes := 0
  seeded := false
  notify := []
  notifyCount := 0
  done := []
  registered := []
  objects := []
  next := 1

/-- The fields of `shz_subject` that the registry reads. -/
structure Subject where
  uid : UInt32
  integrity : UInt32
  roles : UInt32
  deriving DecidableEq, Repr

/-- What a call reads beside the registry: which `kzalloc` calls succeed, the clock, the answers of
`shz_auth_registry_subject` with its `active`, and which process a process slot holds. -/
structure Env where
  mem : Nat → Bool
  now : Nat
  subject : ProcId → Option (Subject × Bool)
  ident : ProcId → Option Nat

/-- The key at an address. -/
def St.key (s : St) (k : KeyId) : Key := (s.keys k).getD Key.zero

def St.put (s : St) (k : KeyId) (x : Key) : St :=
  { s with keys := Function.update s.keys k (some x) }

def St.drop (s : St) (k : KeyId) : St := { s with keys := Function.update s.keys k none }

/-! ### Names -/

def regMaxKeyName : Nat := 255
def regMaxValueName : Nat := 16383
def regMaxDepth : Nat := 512
def regMaxValueBytes : Nat := 256 * 1024
def regQuotaBytes : Nat := 1024 * 1024
def regNotifyMaxRegistrations : Nat := 512
def sizeofRegkey : Nat := 88
def sizeofRegval : Nat := 24

def regUpcaseChar (u : UInt16) : Nat :=
  let c := u.toNat
  if c < 0x80 then if 97 ≤ c ∧ c ≤ 122 then c - 32 else c
  else if 0xe0 ≤ c ∧ c ≤ 0xfe ∧ c ≠ 0xf7 then c - 32
  else if c = 0xff then 0x178
  else if 0x3b1 ≤ c ∧ c ≤ 0x3c9 ∧ c ≠ 0x3c2 then c - 32
  else if 0x430 ≤ c ∧ c ≤ 0x44f then c - 32
  else if 0x450 ≤ c ∧ c ≤ 0x45f then c - 80
  else c

/-- `name_cmp`: the common part first, the lengths after it. -/
def nameCmp : Name → Name → Ordering
  | [], [] => .eq
  | [], _ :: _ => .lt
  | _ :: _, [] => .gt
  | a :: as, b :: bs =>
    if regUpcaseChar a = regUpcaseChar b then nameCmp as bs
    else if regUpcaseChar a < regUpcaseChar b then .lt else .gt

def ascii (s : String) : Name := s.toList.map fun c => c.toNat.toUInt16

def backslash : UInt16 := 92

/-- The path without one trailing separator. -/
def trimmed (path : Name) : Name :=
  if path.getLast? = some backslash then path.dropLast else path

/-- The components of a path that the loops over `i` go through; `acc` is the component read so far.
With each comes whether it reaches the end of the path (`i >= chars`). -/
def componentsFrom (acc : Name) : Name → List (Name × Bool)
  | [] => if acc = [] then [] else [(acc, true)]
  | c :: cs =>
    if c = backslash then (acc, false) :: componentsFrom [] cs else componentsFrom (acc ++ [c]) cs

def components (path : Name) : List (Name × Bool) := componentsFrom [] (trimmed path)

/-! ### Allocation with quota -/

def regAlloc (e : Env) (s : St) (size credit : Nat) : Option Nat × St :=
  if s.seeded = true ∧ regQuotaBytes < (s.bytes + 2 ^ 64 - credit + size) % 2 ^ 64 then (none, s)
  else if e.mem s.next then (some s.next, { s with bytes := s.bytes + size, next := s.next + 1 })
  else (none, { s with next := s.next + 1 })

/-- A key as `key_alloc` fills it in. -/
def newKey (e : Env) (name cls : Name) (volatile fixed : Bool) : Key :=
  { Key.zero with
    name := name
    cls := cls
    volatile := volatile
    fixed := fixed
    allocSize := (sizeofRegkey + (name.length + cls.length) * 2) % 2 ^ 32
    lastWrite := e.now }

def keyAlloc (e : Env) (s : St) (name cls : Name) (volatile fixed : Bool) : Option KeyId × St :=
  let x := newKey e name cls volatile fixed
  match regAlloc e s x.allocSize 0 with
  | (none, s) => (none, s)
  | (some k, s) => (some k, s.put k x)

/-! ### Account policy -/

def regWriteRights : UInt32 := 0x010d0026
def keyNotify : UInt32 := 0x10
def keyCreateSubKey : UInt32 := 4

/-- `key->parent`, `key->parent->parent` and so on up to the root; `fuel` bounds the climb. -/
def St.ancestorsFrom (s : St) : Nat → KeyId → List KeyId
  | 0, _ => []
  | fuel + 1, k =>
    if (s.key k).parent = 0 then []
    else (s.key k).parent :: s.ancestorsFrom fuel (s.key k).parent

/-- A key is made after its parent, so its address bounds the climb. -/
def St.ancestors (s : St) (k : KeyId) : List KeyId := s.ancestorsFrom k k

def keyDepth (s : St) (k : KeyId) : Nat := (s.ancestors k).length

def registryAdmin (sub : Subject) : Bool := sub.roles == 1 && 0x3000 ≤ sub.integrity

/-- `for(top=k;top->parent&&top->parent!=g_root;top=top->parent){}`. -/
def topOf (s : St) (k : KeyId) : KeyId :=
  ((k :: s.ancestors k).find? fun a => (s.key a).parent == 0 || (s.key a).parent == s.root).getD k

/-- `reg_access_node` on a key. -/
def regAccessNode (e : Env) (s : St) (p : ProcId) (k : KeyId) (access : UInt32) : Status :=
  match e.subject p with
  | none => .accessDenied
  | some (_, false) => .success
  | some (sub, true) =>
    if (s.key k).accountRealm = 1 then .accessDenied
    else if (s.key k).accountRealm = 2 then
      if registryAdmin sub ∨ (s.key k).accountUid = sub.uid ∧ 0x2000 ≤ sub.integrity then .success
      else .accessDenied
    else if registryAdmin sub then .success
    else if topOf s k = s.machine ∧ access &&& regWriteRights = 0 then .success
    else .accessDenied

/-! ### Change notification -/

def changeName : UInt32 := 1
def changeLastSet : UInt32 := 4

def notifyComplete (e : Env) (s : St) (n : Notify) (status : Status) : St :=
  let same := e.ident n.proc = some n.ident
  let status :=
    if ¬same ∨ regAccessNode e s n.proc n.key keyNotify ≠ .success then .accessDenied else status
  { s with
    done := s.done ++ [{ reg := n, status := status, stored := n.iosb ≠ 0 ∧ same }]
    notifyCount := s.notifyCount - 1 }

/-- The walk over `g_notify` that unlinks and completes the entries of `hit`. -/
def notifyWalk (e : Env) (hit : Notify → Bool) (status : Status) (s : St) :
    List Notify → List Notify × St
  | [] => ([], s)
  | n :: rest =>
    if hit n then notifyWalk e hit status (notifyComplete e s n status) rest
    else
      let (kept, s) := notifyWalk e hit status s rest
      (n :: kept, s)

def notifySweep (e : Env) (s : St) (hit : Notify → Bool) (status : Status) : St :=
  let (kept, s) := notifyWalk e hit status s s.notify
  { s with notify := kept }

def notifyFire (e : Env) (s : St) (changed : KeyId) (what : UInt32) : St :=
  notifySweep e s (fun n => n.filter &&& what ≠ 0 &&
    (n.key == changed || (n.subtree && (s.ancestors changed).contains n.key))) .success

/-- `notify_drop(k, 0, status)`. -/
def notifyDropKey (e : Env) (s : St) (k : KeyId) (status : Status) : St :=
  notifySweep e s (fun n => n.key == k) status

/-- `notify_drop(0, obj, status)`. -/
def notifyDropObj (e : Env) (s : St) (o : ObjId) (status : Status) : St :=
  notifySweep e s (fun n => n.keyObj == o) status

/-- `reg_notify_add` on the key object `o`. -/
def regNotifyAdd (e : Env) (s : St) (k : KeyId) (o : ObjId) (event : Nat) (p : ProcId) (ident : Nat)
    (iosb : Nat) (filter : UInt32) (subtree : Bool) : Status × St :=
  if regAccessNode e s p k keyNotify ≠ .success then (.accessDenied, s)
  else if (s.key k).deleted then (.keyDeleted, s)
  else if regNotifyMaxRegistrations ≤ s.notifyCount then (.noMemory, s)
  else if e.mem s.next then
    (.success, { s with
      notify := { id := s.next, key := k, keyObj := o, event := event, proc := p, ident := ident,
                  iosb := iosb, filter := filter, subtree := subtree } :: s.notify
      notifyCount := s.notifyCount + 1
      registered := s.registered ++ [s.next]
      next := s.next + 1 })
  else (.noMemory, { s with next := s.next + 1 })

/-! ### The tree -/

/-- The loop of `find_child` over the rest of the children. -/
def findChildFrom (s : St) (name : Name) : List KeyId → Option KeyId
  | [] => none
  | c :: cs =>
    match nameCmp (s.key c).name name with
    | .eq => some c
    | .gt => none
    | .lt => findChildFrom s name cs

def findChild (s : St) (k : KeyId) (name : Name) : Option KeyId :=
  findChildFrom s name (s.key k).child

/-- The chain of children with `c` linked in before the first one whose name is not below its own. -/
def linkInto (s : St) (c : KeyId) : List KeyId → List KeyId
  | [] => [c]
  | d :: ds =>
    if nameCmp (s.key d).name (s.key c).name = .lt then d :: linkInto s c ds else c :: d :: ds

/-- `link_child` before the notification. -/
def hang (e : Env) (s : St) (parent c : KeyId) : St :=
  let s := s.put parent { s.key parent with
    child := linkInto s c (s.key parent).child
    nsubkeys := (s.key parent).nsubkeys + 1
    lastWrite := e.now }
  s.put c { s.key c with
    parent := parent
    accountUid := (s.key parent).accountUid
    accountRealm := if parent = s.user then 1 else (s.key parent).accountRealm }

def linkChild (e : Env) (s : St) (parent c : KeyId) : St :=
  let s := hang e s parent c
  if s.seeded then notifyFire e s parent changeName else s

/-- The first loop of `reg_resolve`. -/
def checkComponents : List (Name × Bool) → Option Status
  | [] => none
  | (name, _) :: rest =>
    if name = [] then some .objectNameInvalid
    else if regMaxKeyName < name.length then some .invalidParameter
    else checkComponents rest

/-- What `reg_resolve` is asked for. -/
structure Request where
  create : Bool
  isVolatile : Bool
  startCanCreate : Bool
  cls : Name
  deriving DecidableEq, Repr

/-- The second loop of `reg_resolve`: the key found or made, and whether one was made. -/
def resolveFrom (e : Env) (start : KeyId) (r : Request) (s : St) (k : KeyId) (depth : Nat)
    (made : Bool) : List (Name × Bool) → Except Status (KeyId × Bool) × St
  | [] => (.ok (k, made), s)
  | (name, last) :: rest =>
    match findChild s k name with
    | some child => resolveFrom e start r s child (depth + 1) made rest
    | none =>
      if ¬r.create then (.error .objectNameNotFound, s)
      else if k = s.root ∧ s.seeded then (.error .accessDenied, s)
      else if k = start ∧ ¬r.startCanCreate then (.error .accessDenied, s)
      else if (s.key k).volatile ∧ ¬r.isVolatile then (.error .childMustBeVolatile, s)
      else if regMaxDepth < depth + 1 then (.error .invalidParameter, s)
      else
        match keyAlloc e s name (if last then r.cls else []) r.isVolatile false with
        | (none, s) => (.error .noMemory, s)
        | (some child, s) => resolveFrom e start r (linkChild e s k child) child (depth + 1) true rest

def regResolve (e : Env) (s : St) (start : KeyId) (path : Name) (r : Request) :
    Except Status (KeyId × Bool) × St :=
  if (s.key start).deleted then (.error .keyDeleted, s)
  else
    match checkComponents (components path) with
    | some st => (.error st, s)
    | none => resolveFrom e start r s start (keyDepth s start) false (components path)

/-- The sum of `reg_free` over the values of a key. -/
def freeValues (s : St) (k : KeyId) : St :=
  { s.put k { s.key k with values := [], valuesTail := 0, nvalues := 0 } with
    bytes := (s.key k).values.foldl (fun b v => b - v.allocSize) s.bytes }

def keyFreeNow (s : St) (k : KeyId) : St :=
  let s := freeValues s k
  { s.drop k with bytes := s.bytes - (s.key k).allocSize }

/-- `free_values(k); if (k->refs == 0) key_free_now(k);`. -/
def bury (s : St) (k : KeyId) : St :=
  let s := freeValues s k
  if (s.key k).refs = 0 then keyFreeNow s k else s

/-- `reg_delete_key` after the notifications: the key taken out of the chain of its parent `p`. -/
def unhang (e : Env) (s : St) (p k : KeyId) : St :=
  let s := s.put p { s.key p with
    child := (s.key p).child.erase k
    nsubkeys := (s.key p).nsubkeys - 1
    lastWrite := e.now }
  s.put k { s.key k with parent := 0, deleted := true }

def regDeleteKey (e : Env) (s : St) (k : KeyId) : Status × St :=
  if (s.key k).deleted then (.keyDeleted, s)
  else if (s.key k).fixed ∨ (s.key k).child ≠ [] then (.cannotDelete, s)
  else
    let p := (s.key k).parent
    let s := notifyFire e s p changeName
    let s := notifyDropKey e s k .success
    (.success, bury (unhang e s p k) k)

/-- `--k->refs` for a handle that goes, and the end of a deleted key whose last one that was. -/
def dropRef (s : St) (h : Handle) : St :=
  let k := h.key
  let s := { s with objects := s.objects.filter fun o => o.id ≠ h.id }
  let s := s.put k { s.key k with refs := (s.key k).refs - 1 }
  if (s.key k).refs = 0 ∧ (s.key k).deleted then keyFreeNow s k else s

/-- `reg_key_release` of a driver's handle. -/
def regKeyRelease (s : St) (h : Handle) : St := dropRef s h

def regKeyObjectFree (e : Env) (s : St) (h : Handle) : St :=
  dropRef (notifyDropObj e s h.id .notifyCleanup) h

/-- `new_key_handle`; without a free slot in the handle table the object goes at once. -/
def newKeyHandle (e : Env) (s : St) (node : KeyId) (slotFree : Bool) : Status × St :=
  if e.mem s.next then
    let h : Handle := { id := s.next, key := node, driver := false }
    let s := { s with objects := s.objects ++ [h], next := s.next + 1 }
    let s := s.put node { s.key node with refs := (s.key node).refs + 1 }
    if slotFree then (.success, s) else (.noMemory, regKeyObjectFree e s h)
  else (.noMemory, { s with next := s.next + 1 })

/-- `++node->refs` on the driver side, undone when there is no kernel handle to give. -/
def driverKeyHandle (s : St) (node : KeyId) (slotFree : Bool) : Status × St :=
  let h : Handle := { id := s.next, key := node, driver := true }
  let s := { s with objects := s.objects ++ [h], next := s.next + 1 }
  let s := s.put node { s.key node with refs := (s.key node).refs + 1 }
  if slotFree then (.success, s) else (.insufficientResources, regKeyRelease s h)

/-! ### Account hives -/

/-- The `do ... while` of `account_sid` that collects the digits, the last one first. -/
def sidDigits : Nat → Nat → List UInt16
  | 0, _ => []
  | fuel + 1, uid =>
    (48 + uid % 10).toUInt16 :: if uid / 10 = 0 then [] else sidDigits fuel (uid / 10)

def accountSid (uid : UInt32) : Name :=
  ascii "S-1-5-21-2210311251-3305482031-1094512843-" ++ (sidDigits 10 uid.toNat).reverse

/-- `retire_legacy` after its children. -/
def retireNode (e : Env) (s : St) (k : KeyId) : St :=
  let s := notifyDropKey e s k .accessDenied
  bury (s.put k { s.key k with child := [], parent := 0, nsubkeys := 0, deleted := true }) k

/-- `retire_legacy`; `fuel` bounds the recursion, which goes to younger keys. -/
def retireLegacy (e : Env) : Nat → St → KeyId → St
  | 0, s, _ => s
  | fuel + 1, s, k =>
    retireNode e ((s.key k).child.foldl (fun s c => retireLegacy e fuel s c) s) k

/-- The old key `k` of the account taken out of the chain of `USER`. -/
def unlinkOld (s : St) (k : KeyId) : St :=
  s.put s.user { s.key s.user with
    child := (s.key s.user).child.erase k
    nsubkeys := (s.key s.user).nsubkeys - 1 }

/-- The part of `provision_user` after the three allocations. -/
def publish (e : Env) (s : St) (uid : UInt32) (old : Option KeyId)
    (fresh env software : KeyId) : St :=
  let s :=
    match old with
    | none => s
    | some k => retireLegacy e s.next (unlinkOld s k) k
  let s := linkChild e s s.user fresh
  let s := s.put fresh { s.key fresh with accountUid := uid, accountRealm := 2 }
  linkChild e (linkChild e s fresh env) fresh software

def provisionUser (e : Env) (s : St) (uid : UInt32) : Status × St :=
  let old := findChild s s.user (accountSid uid)
  if ∃ k ∈ old, (s.key k).accountRealm = 2 ∧ (s.key k).accountUid = uid then (.success, s)
  else
    match keyAlloc e s (accountSid uid) [] false true with
    | (none, s) => (.noMemory, s)
    | (some fresh, s) =>
      match keyAlloc e s (ascii "Environment") [] false false with
      | (none, s) => (.noMemory, keyFreeNow s fresh)
      | (some env, s) =>
        match keyAlloc e s (ascii "Software") [] false false with
        | (none, s) => (.noMemory, keyFreeNow (keyFreeNow s env) fresh)
        | (some software, s) => (.success, publish e s uid old fresh env software)

/-- The loop of `reg_authorize_path` over the components. -/
def checkAuthorized (depth : Nat) : List (Name × Bool) → Option Status
  | [] => none
  | (name, _) :: rest =>
    if 0 ∈ name then some .objectNameInvalid
    else if name = [] then some .objectNameInvalid
    else if regMaxKeyName < name.length then some .invalidParameter
    else if regMaxDepth < depth + 1 then some .invalidParameter
    else checkAuthorized (depth + 1) rest

/-- The end of `reg_authorize_path`, at the key `at` with the components `rest` to go. -/
def authorizeAt (e : Env) (s : St) (p : ProcId) (sub : Subject) (at_ : KeyId)
    (rest : List (Name × Bool)) (access : UInt32) : Status × St :=
  match rest with
  | (name, _) :: _ =>
    if at_ = s.user then
      if nameCmp name (accountSid sub.uid) = .eq then
        if ¬registryAdmin sub ∧ sub.integrity < 0x2000 then (.accessDenied, s)
        else provisionUser e s sub.uid
      else
        match findChild s s.user name with
        | none => (.accessDenied, s)
        | some k =>
          if (s.key k).accountRealm ≠ 2 then (.accessDenied, s)
          else (regAccessNode e s p k access, s)
    else (regAccessNode e s p at_ access, s)
  | [] => (regAccessNode e s p at_ access, s)

def regAuthorizePath (e : Env) (s : St) (p : ProcId) (start : KeyId) (path : Name) (access : UInt32)
    (create : Bool) : Status × St :=
  match e.subject p with
  | none => (.accessDenied, s)
  | some (_, false) => (.success, s)
  | some (sub, true) =>
    let access := access ||| if create then keyCreateSubKey else 0
    if (trimmed path).getLast? = some backslash then (.objectNameInvalid, s)
    else
      match checkAuthorized (keyDepth s start) (components path) with
      | some st => (st, s)
      | none =>
        match components path with
        | (name, _) :: rest =>
          if start = s.root then
            match findChild s s.root name with
            | none => (.accessDenied, s)
            | some at_ => authorizeAt e s p sub at_ rest access
          else authorizeAt e s p sub start (components path) access
        | [] => authorizeAt e s p sub start [] access

/-! ### Values -/

def regFindValue (s : St) (k : KeyId) (name : Name) : Option Val :=
  (s.key k).values.find? fun v => nameCmp v.name name == .eq

/-- The value `v` of a key replaced where it stands. -/
def replaceVal (v w : Val) (values : List Val) : List Val :=
  values.map fun u => if u.id = v.id then w else u

def regSetValue (e : Env) (s : St) (k : KeyId) (name : Name) (type : UInt32) (data : List UInt8) :
    Status × St :=
  if (s.key k).deleted then (.keyDeleted, s)
  else if regMaxValueName < name.length then (.invalidParameter, s)
  else if regMaxValueBytes < data.length then (.insufficientResources, s)
  else
    let old := regFindValue s k name
    match old.filter fun v => v.data.length = data.length with
    | some v =>
      let s := s.put k { s.key k with
        values := replaceVal v { v with type := type, data := data } (s.key k).values
        lastWrite := e.now }
      (.success, notifyFire e s k changeLastSet)
    | none =>
      let name := (old.map Val.name).getD name
      let credit := (old.map Val.allocSize).getD 0
      let size := (sizeofRegval + (name.length * 2 + 7) / 8 * 8 + data.length) % 2 ^ 32
      match regAlloc e s size credit with
      | (none, s) => (.noMemory, s)
      | (some id, s) =>
        let nv : Val := { id := id, type := type, data := data, name := name, allocSize := size }
        let s :=
          match old with
          | some v =>
            let s := s.put k { s.key k with
              values := replaceVal v nv (s.key k).values
              valuesTail := if (s.key k).valuesTail = v.id then id else (s.key k).valuesTail
              lastWrite := e.now }
            { s with bytes := s.bytes - v.allocSize }
          | none =>
            s.put k { s.key k with
              values := (s.key k).values ++ [nv]
              valuesTail := id
              nvalues := (s.key k).nvalues + 1
              lastWrite := e.now }
        (.success, notifyFire e s k changeLastSet)

/-- The value in front of the first one with the name, or 0. -/
def prevOf (name : Name) (values : List Val) : ValId :=
  ((values.takeWhile fun v => nameCmp v.name name != .eq).getLast?.map Val.id).getD 0

def regDeleteValue (e : Env) (s : St) (k : KeyId) (name : Name) : Status × St :=
  if (s.key k).deleted then (.keyDeleted, s)
  else
    match regFindValue s k name with
    | none => (.objectNameNotFound, s)
    | some v =>
      let s := s.put k { s.key k with
        values := (s.key k).values.eraseP fun v => nameCmp v.name name == .eq
        valuesTail :=
          if (s.key k).valuesTail = v.id then prevOf name (s.key k).values else (s.key k).valuesTail
        nvalues := (s.key k).nvalues - 1
        lastWrite := e.now }
      let s := { s with bytes := s.bytes - v.allocSize }
      (.success, notifyFire e s k changeLastSet)

/-! ### The default tree -/

/-- `seed_key`; a failure stops the kernel. -/
def seedKey (e : Env) (s : St) (parent : KeyId) (path : String) : Option (KeyId × St) :=
  match regResolve e s parent (ascii path)
      { create := true, isVolatile := false, startCanCreate := true, cls := [] } with
  | (.ok (k, _), s) => some (k, s)
  | (.error _, _) => none

def seedValue (e : Env) (s : St) (k : KeyId) (name : String) (type : UInt32) (data : List UInt8) :
    Option St :=
  match regSetValue e s k (ascii name) type data with
  | (.success, s) => some s
  | (_, _) => none

/-- The bytes of a NUL-terminated UTF-16 string. -/
def wide (value : String) : List UInt8 :=
  (ascii value ++ [0]).flatMap fun (u : UInt16) => [u.toUInt8, (u >>> 8).toUInt8]

def seedSz (e : Env) (s : St) (k : KeyId) (name value : String) : Option St :=
  seedValue e s k name 1 (wide value)

def seedDword (e : Env) (s : St) (k : KeyId) (name : String) (v : UInt32) : Option St :=
  seedValue e s k name 4 [v.toUInt8, (v >>> 8).toUInt8, (v >>> 16).toUInt8, (v >>> 24).toUInt8]

def currentVersion : String := "SOFTWARE\\Microsoft\\Windows NT\\CurrentVersion"
def controlName : String := "SYSTEM\\CurrentControlSet\\Control\\ComputerName\\"

/-- `seed_defaults` up to `g_machine=machine;g_user=user;` and the two `RK_FIXED`. -/
def seedRoots (e : Env) (s : St) : Option St := do
  let (root, s) ← match keyAlloc e s (ascii "REGISTRY") [] false true with
    | (some root, s) => some (root, { s with root := root })
    | (none, _) => none
  let (machine, s) ← seedKey e s root "MACHINE"
  let (user, s) ← seedKey e s root "USER"
  let s := { s with machine := machine, user := user }
  let s := s.put machine { s.key machine with fixed := true }
  return s.put user { s.key user with fixed := true }

/-- The keys and values of `MACHINE`. -/
def seedMachine (e : Env) (s : St) : Option St := do
  let machine := s.machine
  let (k, s) ← seedKey e s machine currentVersion
  let s ← seedDword e s k "CurrentMajorVersionNumber" 10
  let s ← seedDword e s k "CurrentMinorVersionNumber" 0
  let s ← seedSz e s k "CurrentBuild" "22631"
  let s ← seedSz e s k "CurrentBuildNumber" "22631"
  let s ← seedSz e s k "ProductName" "Shizuku Kernel64 (Windows 10.0 profile)"
  let s ← seedSz e s k "SystemRoot" "C:\\SHZ"
  let s ← seedSz e s k "ShzProfile"
    "win11-amd64 profile value (10.0 build 22631); not a verified Windows build"
  let (_, s) ← seedKey e s machine "SOFTWARE\\Classes"
  let (k, s) ← seedKey e s machine (controlName ++ "ActiveComputerName")
  let s ← seedSz e s k "ComputerName" "SHZ-K64"
  let (k, s) ← seedKey e s machine (controlName ++ "ComputerName")
  let s ← seedSz e s k "ComputerName" "SHZ-K64"
  let (_, s) ← seedKey e s machine "SYSTEM\\CurrentControlSet\\Hardware Profiles\\Current"
  return s

def seedUser (e : Env) (s : St) : Option St := do
  let user := s.user
  let (_, s) ← seedKey e s user ".DEFAULT"
  let (k, s) ← seedKey e s user "S-1-5-21-2210311251-3305482031-1094512843-1001"
  let (_, s) ← seedKey e s k "Environment"
  let (_, s) ← seedKey e s k "Software"
  return s

def seedDefaults (e : Env) : Option St := do
  let s ← seedRoots e St.empty
  let s ← seedMachine e s
  let s ← seedUser e s
  return { s with seeded := true }

end Win98Modern.Registry
