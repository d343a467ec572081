import Win98Modern.Kernel64.RegistryHives

/-!
# Runs of the registry

A run starts from the default tree and makes calls, each in an environment of its own: which
allocations succeed, the clock, the accounts and the processes.  Every state that is reached is
sound (`Reach.sound`).
-/

namespace Win98Modern.Registry

open List Option

/-- The calls made with the registry lock held. -/
inductive Op
  | resolve (start : KeyId) (path : Name) (r : Request)
  | authorize (p : ProcId) (start : KeyId) (path : Name) (access : UInt32) (create : Bool)
  | provision (uid : UInt32)
  | setValue (k : KeyId) (name : Name) (type : UInt32) (data : List UInt8)
  | deleteValue (k : KeyId) (name : Name)
  | deleteKey (k : KeyId)
  | openKey (k : KeyId) (slotFree : Bool)
  | openDriver (k : KeyId) (slotFree : Bool)
  | closeKey (h : Handle)
  | closeDriver (h : Handle)
  | notify (h : Handle) (event : Nat) (p : ProcId) (ident iosb : Nat) (filter : UInt32)
      (subtree : Bool)

/-- The callers name keys by a live address and handles that are open. -/
def Op.Valid (s : St) : Op → Prop
  | .resolve start _ _ => s.Live start
  | .authorize _ start _ _ _ => s.Live start
  | .provision _ => True
  | .setValue k _ _ _ => s.Live k
  | .deleteValue k _ => s.Live k
  | .deleteKey k => s.Live k
  | .openKey k _ => s.Live k
  | .openDriver k _ => s.Live k
  | .closeKey h => h ∈ s.objects ∧ h.driver = false
  | .closeDriver h => h ∈ s.objects ∧ h.driver = true
  | .notify h _ _ _ _ _ _ => h ∈ s.objects ∧ h.driver = false

/-- The status of a call of `reg_resolve`. -/
def outcome : Except Status (KeyId × Bool) → Status
  | .ok _ => .success
  | .error st => st

def Op.call (e : Env) (s : St) : Op → Status × St
  | .resolve start path r =>
    (outcome (regResolve e s start path r).1, (regResolve e s start path r).2)
  | .authorize p start path access create => regAuthorizePath e s p start path access create
  | .provision uid => provisionUser e s uid
  | .setValue k name type data => regSetValue e s k name type data
  | .deleteValue k name => regDeleteValue e s k name
  | .deleteKey k => regDeleteKey e s k
  | .openKey k slotFree => newKeyHandle e s k slotFree
  | .openDriver k slotFree => driverKeyHandle s k slotFree
  | .closeKey h => (.success, regKeyObjectFree e s h)
  | .closeDriver h => (.success, regKeyRelease s h)
  | .notify h event p ident iosb filter subtree =>
    regNotifyAdd e s h.key h.id event p ident iosb filter subtree

/-- The states that calls lead to from the default tree. -/
inductive Reach : St → Prop
  | boot {s : St} (e : Env) (h : seedDefaults e = some s) : Reach s
  | call {s : St} (e : Env) (op : Op) (h : Reach s) (hv : op.Valid s) : Reach (op.call e s).2

/-! ### One call -/

section Call

variable {e : Env} {s s' : St} {k : KeyId}

theorem Core.newKeyHandle (h : Core s []) (hk : s.Live k) (slotFree : Bool) :
    Core (newKeyHandle e s k slotFree).2 [] ∧ Steady s (Registry.newKeyHandle e s k slotFree).2 := by
  rw [Registry.newKeyHandle]
  split
  case isFalse => exact ⟨h.idle (.inr rfl), Idle.steady (.inr rfl)⟩
  case isTrue =>
  have ho := h.openHandle hk false
  have hso : Steady s (({ s with
      objects := s.objects ++ [{ id := s.next, key := k, driver := false }]
      next := s.next + 1 } : St).put k { s.key k with refs := (s.key k).refs + 1 }) :=
    Rewrites.steady (k := k) ⟨rfl, rfl, rfl, ⟨rfl, rfl, rfl, rfl⟩⟩
  split
  case isTrue => exact ⟨ho, hso⟩
  case isFalse =>
    -- no slot: the object is freed at once
    have hd := ho.sweep (e := e) (fun n => n.keyObj == s.next) .notifyCleanup
    refine ⟨hd.close ?_ notifyDropObj_quiet,
      (hso.trans (Steady.of_keys sweep_anchored notifySweep_rest.1)).trans (hd.steady_close _)⟩
    rw [notifySweep_rest.2.2.2.2.2.2.2.1]
    exact mem_append_right _ (mem_singleton_self _)

theorem Core.driverKeyHandle (h : Core s []) (hk : s.Live k) (slotFree : Bool) :
    Core (driverKeyHandle s k slotFree).2 [] ∧ Steady s (Registry.driverKeyHandle s k slotFree).2 := by
  rw [Registry.driverKeyHandle]
  have ho := h.openHandle hk true
  have hso : Steady s (({ s with
      objects := s.objects ++ [{ id := s.next, key := k, driver := true }]
      next := s.next + 1 } : St).put k { s.key k with refs := (s.key k).refs + 1 }) :=
    Rewrites.steady (k := k) ⟨rfl, rfl, rfl, ⟨rfl, rfl, rfl, rfl⟩⟩
  have hm : ({ id := s.next, key := k, driver := true } : Handle) ∈
      s.objects ++ [{ id := s.next, key := k, driver := true }] :=
    mem_append_right _ (mem_singleton_self _)
  split
  case isTrue => exact ⟨ho, hso⟩
  case isFalse =>
    exact ⟨ho.close hm (ho.ledger.driver_quiet hm rfl), hso.trans (ho.steady_close _)⟩

variable {o : Handle}

theorem Core.regKeyObjectFree (h : Core s []) (ho : o ∈ s.objects) :
    Core (regKeyObjectFree e s o) [] ∧ Steady s (Registry.regKeyObjectFree e s o) := by
  have hd := h.sweep (e := e) (fun n => n.keyObj == o.id) .notifyCleanup
  refine ⟨hd.close ?_ notifyDropObj_quiet,
    (Steady.of_keys sweep_anchored notifySweep_rest.1).trans (hd.steady_close _)⟩
  rw [notifySweep_rest.2.2.2.2.2.2.2.1]
  exact ho

theorem Core.regNotifyAdd (h : Core s []) (ho : o ∈ s.objects) (hsys : o.driver = false)
    (event : Nat) (p : ProcId) (ident iosb : Nat) (filter : UInt32) (subtree : Bool) :
    Core (regNotifyAdd e s o.key o.id event p ident iosb filter subtree).2 [] ∧
      Steady s (Registry.regNotifyAdd e s o.key o.id event p ident iosb filter subtree).2 := by
  rw [Registry.regNotifyAdd]
  split
  case isTrue => exact ⟨h, Steady.refl s⟩
  case isFalse =>
  split
  case isTrue => exact ⟨h, Steady.refl s⟩
  case isFalse hd =>
  split
  case isTrue => exact ⟨h, Steady.refl s⟩
  case isFalse =>
  split
  case isFalse => exact ⟨h.idle (.inr rfl), Idle.steady (.inr rfl)⟩
  case isTrue =>
    refine ⟨h.of_keys rfl ⟨rfl, rfl, rfl, rfl⟩ (h.ledger.register ho _ rfl rfl rfl hsys ?_),
      Steady.of_keys ⟨rfl, rfl, rfl, rfl⟩ rfl⟩
    simpa using hd

/-- The authorization returns the old state, or provisions a hive. -/
theorem authorizeAt_cases (p : ProcId) (sub : Subject) (at_ : KeyId) (rest : List (Name × Bool))
    (access : UInt32) : (authorizeAt e s p sub at_ rest access).2 = s ∨
      authorizeAt e s p sub at_ rest access = provisionUser e s sub.uid := by
  cases rest with
  | nil => exact .inl rfl
  | cons c rest =>
    rw [authorizeAt]
    split
    · split
      · split
        · exact .inl rfl
        · exact .inr rfl
      · split
        · exact .inl rfl
        · split <;> exact .inl rfl
    · exact .inl rfl

theorem regAuthorizePath_cases (p : ProcId) (start : KeyId) (path : Name) (access : UInt32)
    (create : Bool) : (regAuthorizePath e s p start path access create).2 = s ∨
      ∃ sub, e.subject p = some (sub, true) ∧
        regAuthorizePath e s p start path access create = provisionUser e s sub.uid := by
  rw [regAuthorizePath]
  split
  · exact .inl rfl
  · exact .inl rfl
  case h_3 sub hsub =>
    have hat : ∀ at_ rest acc, (authorizeAt e s p sub at_ rest acc).2 = s ∨
        ∃ sub', e.subject p = some (sub', true) ∧
          authorizeAt e s p sub at_ rest acc = provisionUser e s sub'.uid :=
      fun at_ rest acc => (authorizeAt_cases p sub at_ rest acc).imp id fun h => ⟨sub, hsub, h⟩
    simp only
    split
    · exact .inl rfl
    · split
      · exact .inl rfl
      · split
        · split
          · split
            · exact .inl rfl
            · exact hat _ _ _
          · exact hat _ _ _
        · exact hat _ _ _

theorem Core.regAuthorizePath (h : Core s []) (hH : Hives s) (p : ProcId) (start : KeyId)
    (path : Name) (access : UInt32) (create : Bool) :
    Core (regAuthorizePath e s p start path access create).2 [] ∧
      Steady s (Registry.regAuthorizePath e s p start path access create).2 := by
  rcases regAuthorizePath_cases (e := e) (s := s) p start path access create with hs | ⟨sub, -, hs⟩
  · rw [hs]
    exact ⟨h, Steady.refl s⟩
  · rw [hs]
    exact h.provisionUser hH _

/-- **A call keeps the books.** -/
theorem Core.call (h : Core s []) (hH : Hives s) (op : Op) (hv : op.Valid s) :
    Core (op.call e s).2 [] ∧ Steady s (op.call e s).2 := by
  cases op with
  | resolve start path r =>
    exact h.regResolve (e := e) hv path r
  | authorize p start path access create => exact h.regAuthorizePath hH p start path access create
  | provision uid => exact h.provisionUser hH uid
  | setValue k name type data =>
    obtain ⟨hl, hcase⟩ := regSetValue_spec (e := e) h.ledger hv name type data
    rcases hcase with ⟨-, hk, ha⟩ | ⟨-, -, x, hr, -⟩
    · exact ⟨h.of_keys hk ha hl, Steady.of_keys ha hk⟩
    · exact ⟨h.rewrites hv hr hl, hr.steady⟩
  | deleteValue k name =>
    obtain ⟨hl, hcase⟩ := regDeleteValue_spec (e := e) h.ledger hv name
    rcases hcase with ⟨-, hs, -⟩ | ⟨-, -, -, x, hr, -⟩
    · exact hs.symm ▸ ⟨h, Steady.refl s⟩
    · exact ⟨h.rewrites hv hr hl, hr.steady⟩
  | deleteKey k =>
    rcases regDeleteKey_spec (e := e) h hv hH.root with ⟨-, hs, -⟩ | ⟨-, -, -, -, hc, hs⟩
    · exact hs.symm ▸ ⟨h, Steady.refl s⟩
    · exact ⟨hc, hs⟩
  | openKey k slotFree => exact h.newKeyHandle hv slotFree
  | openDriver k slotFree => exact h.driverKeyHandle hv slotFree
  | closeKey o => exact h.regKeyObjectFree hv.1
  | closeDriver o =>
    exact ⟨h.close hv.1 (h.ledger.driver_quiet hv.1 hv.2), h.steady_close o⟩
  | notify o event p ident iosb filter subtree =>
    exact h.regNotifyAdd hv.1 hv.2 event p ident iosb filter subtree

end Call

/-! ### The default tree -/

section Boot

variable {e : Env} {s s' : St} {k k' m u : KeyId} {n : Nat}

/-- While the default tree is made: the books agree and the bytes are bounded. -/
structure Booting (s : St) (m u : KeyId) (n : Nat) : Prop where
  core : Core s []
  hives : Hives s
  machine : s.machine = m
  user : s.user = u
  bytes : s.bytes ≤ n

/-- What the keys of a path may cost. -/
def keyCost (cs : List (Name × Bool)) : Nat :=
  (cs.map fun c => sizeofRegkey + c.1.length * 2).sum

def valueCost (name : Name) (data : List UInt8) : Nat :=
  sizeofRegval + (name.length * 2 + 7) / 8 * 8 + data.length

theorem regAlloc_bytes (size credit : Nat) : (regAlloc e s size credit).2.bytes ≤ s.bytes + size := by
  rw [regAlloc]
  split
  · exact Nat.le_add_right _ _
  · split
    · exact Nat.le_refl _
    · exact Nat.le_add_right _ _

theorem keyAlloc_bytes (name : Name) (vol fix : Bool) :
    (keyAlloc e s name [] vol fix).2.bytes ≤ s.bytes + (sizeofRegkey + name.length * 2) := by
  have hb := regAlloc_bytes (e := e) (s := s) (newKey e name [] vol fix).allocSize 0
  have hsize : (newKey e name [] vol fix).allocSize ≤ sizeofRegkey + name.length * 2 :=
    Nat.mod_le _ _
  rw [keyAlloc]
  cases ha : regAlloc e s (newKey e name [] vol fix).allocSize 0 with
  | mk o t =>
    rw [ha] at hb
    have hle := Nat.le_trans hb (Nat.add_le_add_left hsize _)
    cases o with
    | none => exact hle
    | some i => exact hle

theorem linkChild_bytes {p c : KeyId} : (linkChild e s p c).bytes = s.bytes := by
  rw [linkChild]
  split
  · exact notifySweep_rest.2.2.2.2.1
  · rfl

variable {r : Request}

/-- What a walk may allocate is the cost of its components. -/
theorem resolveFrom_bytes {start : KeyId} (hcls : r.cls = []) (cs : List (Name × Bool)) :
    ∀ {s k depth made},
      (resolveFrom e start r s k depth made cs).2.bytes ≤ s.bytes + keyCost cs := by
  induction cs with
  | nil => exact Nat.le_refl _
  | cons c rest ih =>
    obtain ⟨name, last⟩ := c
    intro s k depth made
    have hcost : keyCost ((name, last) :: rest) =
        sizeofRegkey + name.length * 2 + keyCost rest := rfl
    rw [resolveFrom, hcost]
    cases findChild s k name with
    | some c => exact Nat.le_trans ih (by omega)
    | none =>
      simp only
      repeat' first
        | exact Nat.le_add_right _ _
        | split
      all_goals
        rename_i heq
        have hb := keyAlloc_bytes (e := e) (s := s) name r.isVolatile false
        have hc : (if last = true then r.cls else []) = [] := by
          rw [hcls]
          exact ite_self _
        rw [hc] at heq
        rw [heq] at hb
      · exact Nat.le_trans hb (by omega)
      · refine Nat.le_trans ih ?_
        rw [linkChild_bytes]
        simp only at hb
        omega

theorem regResolve_bytes (e : Env) (s : St) (start : KeyId) (hcls : r.cls = []) (path : Name) :
    (regResolve e s start path r).2.bytes ≤ s.bytes + keyCost (components path) := by
  rw [regResolve]
  split
  · exact Nat.le_add_right _ _
  · split
    · exact Nat.le_add_right _ _
    · exact resolveFrom_bytes hcls _

theorem fold_length {a b : Name} (h : fold a = fold b) : a.length = b.length := by
  have hl : (a.map regUpcaseChar).length = (b.map regUpcaseChar).length := congrArg List.length h
  rwa [length_map, length_map] at hl

theorem regSetValue_bytes (name : Name) (type : UInt32) (data : List UInt8) :
    (regSetValue e s k name type data).2.bytes ≤ s.bytes + valueCost name data := by
  rw [regSetValue]
  have hname : ((regFindValue s k name).map Val.name |>.getD name).length = name.length := by
    cases hf : regFindValue s k name with
    | none => rfl
    | some v =>
      rw [regFindValue_eq] at hf
      have hv := List.find?_some hf
      exact fold_length (by simpa using hv)
  split
  · exact Nat.le_add_right _ _
  split
  · exact Nat.le_add_right _ _
  split
  · exact Nat.le_add_right _ _
  simp only
  split
  · have hb : ∀ t : St, ∀ w, (notifyFire e t k w).bytes = t.bytes := fun t w =>
      notifySweep_rest.2.2.2.2.1
    rw [hb]
    exact Nat.le_add_right _ _
  · have hb : ∀ t : St, ∀ w, (notifyFire e t k w).bytes = t.bytes := fun t w =>
      notifySweep_rest.2.2.2.2.1
    have ha := regAlloc_bytes (e := e) (s := s)
      ((sizeofRegval + (((regFindValue s k name).map Val.name |>.getD name).length * 2 + 7) / 8 * 8 +
        data.length) % 2 ^ 32) ((regFindValue s k name).map Val.allocSize |>.getD 0)
    have hle := Nat.mod_le (sizeofRegval + (name.length * 2 + 7) / 8 * 8 + data.length) (2 ^ 32)
    rw [hname] at ha
    split
    case h_1 heq =>
      rw [hname] at heq
      rw [heq] at ha
      exact Nat.le_trans ha (Nat.add_le_add_left hle _)
    case h_2 heq =>
      rw [hname] at heq
      rw [heq] at ha
      have ha := Nat.le_trans ha (Nat.add_le_add_left hle _)
      rw [hb]
      split
      · exact Nat.le_trans (Nat.sub_le _ _) ha
      · exact ha

theorem Booting.seedKey (h : Booting s m u n) (hk : s.Open k) {path : String}
    (heq : seedKey e s k path = some (k', s')) :
    Booting s' m u (n + keyCost (components (ascii path))) ∧ s'.Open k' ∧ s'.Open k := by
  have hb := regResolve_bytes e s k
    (r := { create := true, isVolatile := false, startCanCreate := true, cls := [] }) rfl (ascii path)
  rw [Registry.seedKey] at heq
  rcases regResolve_grow (e := e) h.core hk.1 (ascii path)
    { create := true, isVolatile := false, startCanCreate := true, cls := [] } with
    ⟨k₁, made, s₁, hr, ho, hg⟩ | ⟨st, s₁, hr, -⟩
  · rw [hr] at heq hb
    obtain ⟨rfl, rfl⟩ := Prod.mk.inj (some.inj heq)
    obtain ⟨hc, hopen, hs⟩ := h.core.grow ho hg
    exact ⟨⟨hc, h.hives.steady hs, hs.machine.trans h.machine, hs.user.trans h.user,
      Nat.le_trans hb (Nat.add_le_add_right h.bytes _)⟩, hopen, hg.open_of_open h.core ho ho⟩
  · rw [hr] at heq
    exact absurd heq nofun

theorem Booting.seedValue (h : Booting s m u n) (hk : s.Open k) {name : String} {type : UInt32}
    {data : List UInt8} (heq : seedValue e s k name type data = some s') :
    Booting s' m u (n + valueCost (ascii name) data) ∧ s'.Open k := by
  have hb := regSetValue_bytes (e := e) (s := s) (k := k) (ascii name) type data
  obtain ⟨hl, hcase⟩ := regSetValue_spec (e := e) h.core.ledger hk.1 (ascii name) type data
  rw [Registry.seedValue] at heq
  rcases hcase with ⟨hne, -, -⟩ | ⟨hst, -, x, hr, -⟩
  · cases hp : regSetValue e s k (ascii name) type data with
    | mk st t =>
      rw [hp] at heq hne
      cases st <;> first | exact absurd rfl hne | exact absurd heq nofun
  · cases hp : regSetValue e s k (ascii name) type data with
    | mk st t =>
      rw [hp] at heq hb hl hr hst
      obtain rfl : st = .success := hst
      obtain rfl := some.inj heq
      refine ⟨⟨h.core.rewrites hk.1 hr hl, h.hives.steady hr.steady,
        hr.anchored.machine.trans h.machine, hr.anchored.user.trans h.user,
        Nat.le_trans hb (Nat.add_le_add_right h.bytes _)⟩, (hr.live hk.1).mpr hk.1, ?_⟩
      rw [skel_deleted (hr.skel_eq k)]
      exact hk.2

theorem Booting.open_machine (h : Booting s m u n) : s.Open m :=
  h.machine ▸ (h.hives.machine_open h.core.tree).1

theorem Booting.open_user (h : Booting s m u n) : s.Open u :=
  h.user ▸ (h.hives.user_open h.core.tree).1

theorem Booting.mono {n' : Nat} (h : Booting s m u n) (hn : n ≤ n') : Booting s m u n' :=
  { h with bytes := Nat.le_trans h.bytes hn }

end Boot

/-! ### The roots -/

section Roots

variable {e : Env} {s s' : St} {k k' : KeyId} {name : Name}

theorem ledger_empty : Ledger St.empty where
  record := fun _ => RecOk.zero _
  addr := fun hl => absurd hl nofun
  refs := fun _ => rfl
  held := fun hd => absurd hd nofun
  handle := nodup_nil
  young := fun _ ho => absurd ho not_mem_nil
  bytes := rfl
  quota := fun hs => absurd hs nofun
  watched := fun _ hn => absurd hn not_mem_nil
  count := rfl
  once := List.Perm.refl _
  fresh := ⟨nodup_nil, fun _ hi => absurd hi not_mem_nil⟩
  first := Nat.one_pos

/-- The registry with nothing but the root. -/
def rooted (e : Env) : St := { fresh e St.empty (ascii "REGISTRY") [] false true with root := 1 }

theorem rooted_key_self : (rooted e).key 1 = newKey e (ascii "REGISTRY") [] false true :=
  fresh_key_self (s := St.empty)

theorem rooted_key_ne (hk : k ≠ 1) : (rooted e).key k = Key.zero :=
  fresh_key_ne (s := St.empty) hk

theorem core_rooted : Core (rooted e) [] := by
  have hchild : ∀ a, ((rooted e).key a).child = [] := by
    intro a
    by_cases ha : a = 1
    · rw [ha, rooted_key_self]; rfl
    · rw [rooted_key_ne ha]; rfl
  have hparent : ∀ a, ((rooted e).key a).parent = 0 := by
    intro a
    by_cases ha : a = 1
    · rw [ha, rooted_key_self]; rfl
    · rw [rooted_key_ne ha]; rfl
  have hlive : ∀ {a}, (rooted e).Live a ↔ a = 1 := by
    intro a
    have hl : (rooted e).Live a ↔ a = 1 ∨ St.empty.Live a := live_put
    exact hl.trans ⟨fun h => h.resolve_right nofun, .inl⟩
  have hnone : ∀ {a c : KeyId} {p : Prop}, c ∈ ((rooted e).key a).child → p := by
    intro a c p hc
    rw [hchild] at hc
    exact absurd hc not_mem_nil
  constructor
  case tree =>
    constructor
    case kid => exact fun hc => hnone hc
    case home => exact fun hp => absurd (hparent _) hp
    case dead => exact fun _ => ⟨hparent _, hchild _⟩
    case top => exact fun hl _ _ => .inl (hlive.mp hl)
    case root =>
      exact ⟨hlive.mpr rfl, rfl, rfl, not_mem_nil⟩
    case loose => exact fun hc => absurd hc not_mem_nil
    case order =>
      intro a
      rw [hchild]
      exact orderedBy_nil
    case addr => exact fun h0 => absurd (hlive.mp h0) nofun
  case labels =>
    constructor
    case hive => exact fun hc => hnone hc
    case inherit => exact fun hc _ => hnone hc
    case base =>
      rfl
  case ledger =>
    have h := ledger_empty.alloc (x := newKey e (ascii "REGISTRY") [] false true)
      { RecOk.zero 1 with } rfl rfl rfl (fun hs => absurd hs nofun)
    exact { h with }

theorem Grow.single {create : Bool} (hg : Grow e create s k [name] s' k')
    (hnone : findChild s k name = none) :
    ∃ cls vol, s' = plant e s k name cls vol ∧ k' = s.next := by
  cases hg with
  | found hfind => exact absurd (hnone.symm.trans hfind) nofun
  | made cls vol _ _ _ _ rest =>
    cases rest
    exact ⟨cls, vol, rfl, rfl⟩

variable {path : String} {cls : Name} {vol : Bool} {i j m u : KeyId}

theorem seedKey_bytes (heq : seedKey e s k path = some (k', s')) :
    s'.bytes ≤ s.bytes + keyCost (components (ascii path)) := by
  have hb := regResolve_bytes e s k
    (r := { create := true, isVolatile := false, startCanCreate := true, cls := [] }) rfl (ascii path)
  rw [seedKey] at heq
  cases hr : regResolve e s k (ascii path)
    { create := true, isVolatile := false, startCanCreate := true, cls := [] } with
  | mk o t =>
    rw [hr] at heq hb
    cases o with
    | error st => exact absurd heq nofun
    | ok c =>
      obtain ⟨-, rfl⟩ := Prod.mk.inj (some.inj heq)
      exact hb

theorem seedKey_plant (h : Core s []) (hk : s.Open k)
    (hpath : components (ascii path) = [(ascii path, true)])
    (hnone : findChild s k (ascii path) = none) (heq : seedKey e s k path = some (k', s')) :
    k' = s.next ∧ Core s' [] ∧ Steady s s' ∧
      ∃ cls vol, s' = plant e s k (ascii path) cls vol := by
  rw [seedKey] at heq
  rcases regResolve_grow (e := e) h hk.1 (ascii path)
    { create := true, isVolatile := false, startCanCreate := true, cls := [] } with
    ⟨k₁, made, s₁, hr, ho, hg⟩ | ⟨st, s₁, hr, -⟩
  · rw [hr] at heq
    obtain ⟨rfl, rfl⟩ := Prod.mk.inj (some.inj heq)
    obtain ⟨hc, -, hs⟩ := h.grow ho hg
    rw [hpath] at hg
    obtain ⟨cls, vol, heq', rfl⟩ := hg.single hnone
    exact ⟨rfl, hc, hs, cls, vol, heq'⟩
  · rw [hr] at heq
    exact absurd heq nofun

theorem plant_key_self (e : Env) (name cls : Name) (vol : Bool) (hne : k ≠ s.next) :
    ((plant e s k name cls vol).key s.next).parent = k ∧
      ((plant e s k name cls vol).key s.next).name = name ∧
      ((plant e s k name cls vol).key s.next).child = [] ∧
      ((plant e s k name cls vol).key s.next).values = [] := by
  rw [plant, linkChild_key, hang_key_child hne.symm, fresh_key_self]
  exact ⟨rfl, rfl, rfl, rfl⟩

theorem mem_plant_child {a b : KeyId} (hne : k ≠ s.next) :
    b ∈ ((plant e s k name cls vol).key a).child ↔
      b ∈ ((fresh e s name cls vol false).key a).child ∨ b = s.next ∧ a = k := by
  rw [plant, linkChild_key, mem_hang_child hne.symm]

theorem plant_next : (plant e s k name cls vol).next = s.next + 1 := by
  rw [plant, linkChild]
  split
  · exact notifySweep_rest.2.2.2.2.2.2.2.2
  · rfl

/-- `key->flags|=RK_FIXED`. -/
def fixKey (s : St) (k : KeyId) : St := s.put k { s.key k with fixed := true }

theorem fixKey_skel : ((fixKey s i).key j).skel = (s.key j).skel := put_skel rfl

theorem fixKey_fixed (h : j = i ∨ (s.key j).fixed = true) : ((fixKey s i).key j).fixed = true := by
  rw [fixKey, key_put]
  split
  case isTrue hj => rfl
  case isFalse hj => exact h.resolve_left hj

/-- The two hives under their fields, and fixed. -/
def crowned (s : St) (m u : KeyId) : St := fixKey (fixKey { s with machine := m, user := u } m) u

theorem crowned_skel (j : KeyId) : ((crowned s m u).key j).skel = (s.key j).skel :=
  fixKey_skel.trans fixKey_skel

theorem crowned_fixed (hj : j = m ∨ j = u ∨ (s.key j).fixed = true) :
    ((crowned s m u).key j).fixed = true := by
  rcases hj with hm | hu | hf
  · exact fixKey_fixed (.inr (fixKey_fixed (.inl hm)))
  · exact fixKey_fixed (.inl hu)
  · exact fixKey_fixed (.inr (fixKey_fixed (.inr hf)))

/-- The two roots become fixed keys. -/
theorem Core.crowned (h : Core s []) (h0 : ¬s.Live s.user) (hm : s.Live m) (hu : s.Live u)
    (hleaf : (s.key u).child = []) : Core (crowned s m u) [] := by
  have hlive : ∀ j, (Registry.crowned s m u).Live j ↔ s.Live j := fun j =>
    (live_put_of_live (live_put.mpr (.inr hu))).trans (live_put_of_live (s := { s with
      machine := m, user := u }) hm)
  refine ⟨h.tree.congr crowned_skel hlive rfl, ⟨?_, ?_, ?_⟩, ?_⟩
  · intro c hc
    have hc : c ∈ ((Registry.crowned s m u).key u).child := hc
    rw [skel_child (crowned_skel u), hleaf] at hc
    exact absurd hc not_mem_nil
  · intro k c hc hk
    rw [skel_child (crowned_skel k)] at hc
    rw [skel_accountUid (crowned_skel c), skel_accountUid (crowned_skel k),
      skel_accountRealm (crowned_skel c), skel_accountRealm (crowned_skel k)]
    exact h.labels.inherit hc fun hku => h0 (hku ▸ live_of_child hc)
  · exact (skel_accountRealm (crowned_skel s.root)).trans h.labels.base
  · have h0 : Ledger { s with machine := m, user := u } := { h.ledger with }
    have h1 := h0.put hm (x := { s.key m with fixed := true }) { h.ledger.record m with } rfl rfl rfl
    exact h1.put (live_put.mpr (.inr hu)) { h1.record u with } rfl rfl rfl

theorem seedRoots_steps (heq : seedRoots e St.empty = some s') :
    ∃ m s₁ u s₂, seedKey e (rooted e) 1 "MACHINE" = some (m, s₁) ∧
      seedKey e s₁ 1 "USER" = some (u, s₂) ∧ crowned s₂ m u = s' := by
  rw [seedRoots] at heq
  rcases keyAlloc_cases e (s := St.empty) (ascii "REGISTRY") [] false true
    (fun hs => absurd hs nofun) with ha | ha | ⟨ha, -⟩
  · rw [ha] at heq
    exact absurd heq nofun
  · rw [ha] at heq
    exact absurd heq nofun
  rw [ha] at heq
  simp only [bind_eq_bind, bind_some, bind_eq_some_iff] at heq
  obtain ⟨⟨m, s₁⟩, h1, ⟨u, s₂⟩, h2, heq⟩ := heq
  exact ⟨m, s₁, u, s₂, h1, h2, some.inj heq⟩

theorem rooted_bytes : (rooted e).bytes ≤ sizeofRegkey + 16 :=
  Nat.le_of_eq (Nat.zero_add _) |>.trans (Nat.mod_le _ _)

/-- The roots are there, and little of the quota is used. -/
theorem seedRoots_booting (heq : seedRoots e St.empty = some s') :
    Booting s' s'.machine s'.user (sizeofRegkey + 16 + keyCost [(ascii "MACHINE", true)] +
      keyCost [(ascii "USER", true)]) ∧ s'.seeded = false := by
  obtain ⟨m, s₁, u, s₂, h1, h2, rfl⟩ := seedRoots_steps heq
  have hC0 : Core (rooted e) [] := core_rooted
  have hopen0 : (rooted e).Open 1 := ⟨hC0.tree.root.1, hC0.tree.root.2.1⟩
  -- `MACHINE` is the first child of the root
  have hnone0 : findChild (rooted e) 1 (ascii "MACHINE") = none := by
    rfl
  have hb1 := seedKey_bytes h1
  obtain ⟨rfl, hC1, ha1, cls1, vol1, rfl⟩ := seedKey_plant hC0 hopen0 (by decide) hnone0 h1
  have hne1 : (1 : KeyId) ≠ (rooted e).next := show 1 ≠ 2 by decide
  have hmach := plant_key_self e (ascii "MACHINE") cls1 vol1 hne1
  -- `USER` is the second
  have hopen1 : (plant e (rooted e) 1 (ascii "MACHINE") cls1 vol1).Open 1 :=
    ⟨(plant_live hopen0.1).mpr (.inr hopen0.1), by
      have hr := hC1.tree.root.2.1
      rwa [ha1.root] at hr⟩
  have hnone1 : findChild (plant e (rooted e) 1 (ascii "MACHINE") cls1 vol1) 1 (ascii "USER") =
      none := by
    rw [findChild_eq, hC1.tree.lookup_eq_none]
    intro d hd
    rw [mem_plant_child hne1, fresh_key_ne hne1, rooted_key_self] at hd
    obtain ⟨rfl, -⟩ := hd.resolve_left not_mem_nil
    exact fold_user_ne_machine.symm
  have hb2 := seedKey_bytes h2
  obtain ⟨rfl, hC2, ha2, cls2, vol2, rfl⟩ := seedKey_plant hC1 hopen1 (by decide) hnone1 h2
  have hnext : (plant e (rooted e) 1 (ascii "MACHINE") cls1 vol1).next = 3 := plant_next
  have hne2 : (1 : KeyId) ≠ (plant e (rooted e) 1 (ascii "MACHINE") cls1 vol1).next := by
    rw [hnext]
    decide
  have husr := plant_key_self e (ascii "USER") cls2 vol2 hne2
  set s₁ := plant e (rooted e) 1 (ascii "MACHINE") cls1 vol1
  set s₂ := plant e s₁ 1 (ascii "USER") cls2 vol2
  have hroot2 : s₂.root = 1 := (ha1.trans ha2).root
  have hm2 : s₂.Live (rooted e).next := (plant_live hopen1.1).mpr
    (.inr ((plant_live hopen0.1).mpr (.inl rfl)))
  have hu2 : s₂.Live s₁.next := (plant_live hopen1.1).mpr (.inl rfl)
  have h0 : ¬s₂.Live s₂.user := by
    exact hC2.tree.addr
  have hC := hC2.crowned h0 hm2 hu2 husr.2.2.1
  refine ⟨⟨hC, ⟨?_, ?_, ?_⟩, rfl, rfl, ?_⟩, (ha1.trans ha2).seeded⟩
  · refine crowned_fixed (.inr (.inr ?_))
    have hb := (ha1.trans ha2).base
    exact hb.trans (congrArg Key.fixed rooted_key_self)
  · have hsk := crowned_skel (s := s₂) (m := (rooted e).next) (u := s₁.next) (rooted e).next
    refine ⟨?_, crowned_fixed (.inl rfl), ?_⟩
    · refine (skel_parent hsk).trans ?_
      exact hmach.1.trans hroot2.symm
    · refine congrArg fold ((skel_name hsk).trans ?_)
      exact hmach.2.1
  · have hsk := crowned_skel (s := s₂) (m := (rooted e).next) (u := s₁.next) s₁.next
    exact ⟨(skel_parent hsk).trans (husr.1.trans hroot2.symm), crowned_fixed (.inr (.inl rfl)),
      congrArg fold ((skel_name hsk).trans husr.2.1)⟩
  · exact Nat.le_trans hb2 (Nat.add_le_add_right (Nat.le_trans hb1
      (Nat.add_le_add_right rooted_bytes _)) _)

end Roots

/-! ### The tree complete -/

section Defaults

variable {e : Env} {s s' : St} {k k' m u : KeyId} {n : Nat}

theorem Booting.seedSz (h : Booting s m u n) (hk : s.Open k) {name value : String}
    (heq : seedSz e s k name value = some s') :
    Booting s' m u (n + valueCost (ascii name) (wide value)) ∧ s'.Open k :=
  h.seedValue hk heq

theorem Booting.seedDword (h : Booting s m u n) (hk : s.Open k) {name : String} {v : UInt32}
    (heq : seedDword e s k name v = some s') :
    Booting s' m u (n + valueCost (ascii name) [0, 0, 0, 0]) ∧ s'.Open k := by
  obtain ⟨hb, ho⟩ := h.seedValue hk heq
  exact ⟨hb, ho⟩

/-- What the keys and values of `MACHINE` may cost. -/
def machineCost : Nat :=
  keyCost (components (ascii currentVersion)) +
  valueCost (ascii "CurrentMajorVersionNumber") [0, 0, 0, 0] +
  valueCost (ascii "CurrentMinorVersionNumber") [0, 0, 0, 0] +
  valueCost (ascii "CurrentBuild") (wide "22631") +
  valueCost (ascii "CurrentBuildNumber") (wide "22631") +
  valueCost (ascii "ProductName") (wide "Shizuku Kernel64 (Windows 10.0 profile)") +
  valueCost (ascii "SystemRoot") (wide "C:\\SHZ") +
  valueCost (ascii "ShzProfile")
    (wide "win11-amd64 profile value (10.0 build 22631); not a verified Windows build") +
  keyCost (components (ascii "SOFTWARE\\Classes")) +
  keyCost (components (ascii (controlName ++ "ActiveComputerName"))) +
  valueCost (ascii "ComputerName") (wide "SHZ-K64") +
  keyCost (components (ascii (controlName ++ "ComputerName"))) +
  valueCost (ascii "ComputerName") (wide "SHZ-K64") +
  keyCost (components (ascii "SYSTEM\\CurrentControlSet\\Hardware Profiles\\Current"))

/-- What the keys of `USER` may cost. -/
def userCost : Nat :=
  keyCost (components (ascii ".DEFAULT")) +
  keyCost (components (ascii "S-1-5-21-2210311251-3305482031-1094512843-1001")) +
  keyCost (components (ascii "Environment")) + keyCost (components (ascii "Software"))

theorem Booting.seedMachine (h : Booting s m u n) (heq : seedMachine e s = some s') :
    Booting s' m u (n + machineCost) := by
  simp only [Registry.seedMachine, bind_eq_bind, bind_eq_some_iff] at heq
  rw [h.machine] at heq
  obtain ⟨⟨k₁, s₁⟩, h1, s₂, h2, s₃, h3, s₄, h4, s₅, h5, s₆, h6, s₇, h7, s₈, h8, ⟨k₉, s₉⟩, h9,
    ⟨k₁₀, s₁₀⟩, h10, s₁₁, h11, ⟨k₁₂, s₁₂⟩, h12, s₁₃, h13, ⟨k₁₄, s₁₄⟩, h14, heq⟩ := heq
  obtain rfl : s₁₄ = s' := some.inj heq
  obtain ⟨b, o, -⟩ := h.seedKey h.open_machine h1
  obtain ⟨b, o⟩ := b.seedDword o h2
  obtain ⟨b, o⟩ := b.seedDword o h3
  obtain ⟨b, o⟩ := b.seedSz o h4
  obtain ⟨b, o⟩ := b.seedSz o h5
  obtain ⟨b, o⟩ := b.seedSz o h6
  obtain ⟨b, o⟩ := b.seedSz o h7
  obtain ⟨b, o⟩ := b.seedSz o h8
  obtain ⟨b, -⟩ := b.seedKey b.open_machine h9
  obtain ⟨b, o, -⟩ := b.seedKey b.open_machine h10
  obtain ⟨b, -⟩ := b.seedSz o h11
  obtain ⟨b, o, -⟩ := b.seedKey b.open_machine h12
  obtain ⟨b, -⟩ := b.seedSz o h13
  obtain ⟨b, -⟩ := b.seedKey b.open_machine h14
  refine b.mono (Nat.le_of_eq ?_)
  rw [machineCost]
  simp only [Nat.add_assoc]

theorem Booting.seedUser (h : Booting s m u n) (heq : seedUser e s = some s') :
    Booting s' m u (n + userCost) := by
  simp only [Registry.seedUser, bind_eq_bind, bind_eq_some_iff] at heq
  rw [h.user] at heq
  obtain ⟨⟨k₁, s₁⟩, h1, ⟨k₂, s₂⟩, h2, ⟨k₃, s₃⟩, h3, ⟨k₄, s₄⟩, h4, heq⟩ := heq
  obtain rfl : s₄ = s' := some.inj heq
  obtain ⟨b, -⟩ := h.seedKey h.open_user h1
  obtain ⟨b, o, -⟩ := b.seedKey b.open_user h2
  obtain ⟨b, -, o⟩ := b.seedKey o h3
  obtain ⟨b, -⟩ := b.seedKey o h4
  refine b.mono (Nat.le_of_eq ?_)
  simp only [userCost, Nat.add_assoc]

theorem defaults_cost : sizeofRegkey + 16 + keyCost [(ascii "MACHINE", true)] +
    keyCost [(ascii "USER", true)] + machineCost + userCost ≤ regQuotaBytes := by
  decide +kernel

/-- The registry that the boot seeds has its books in order. -/
theorem seedDefaults_core (heq : seedDefaults e = some s') :
    Core s' [] ∧ Hives s' ∧ s'.seeded = true := by
  simp only [seedDefaults, bind_eq_bind, bind_eq_some_iff] at heq
  obtain ⟨s₁, h1, s₂, h2, s₃, h3, heq⟩ := heq
  obtain rfl := some.inj heq
  obtain ⟨b, -⟩ := seedRoots_booting h1
  have b := (b.seedMachine h2).seedUser h3
  have hq : s₃.bytes ≤ regQuotaBytes := Nat.le_trans b.bytes defaults_cost
  exact ⟨⟨b.core.tree.of_keys rfl rfl, b.core.labels.of_keys rfl rfl rfl,
    { b.core.ledger with quota := fun _ => hq }⟩, { b.hives with }, rfl⟩

/-- **Every registry that is reached has its books in order.** -/
theorem Reach.core (h : Reach s) : Core s [] ∧ Hives s ∧ s.seeded = true := by
  induction h with
  | boot e h => exact seedDefaults_core h
  | call e op _ hv ih =>
    obtain ⟨hc, hs⟩ := ih.1.call ih.2.1 (e := e) op hv
    exact ⟨hc, ih.2.1.steady hs, hs.seeded.trans ih.2.2⟩

end Defaults

end Win98Modern.Registry
