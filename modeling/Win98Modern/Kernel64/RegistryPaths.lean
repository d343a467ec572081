import Win98Modern.Kernel64.RegistryAccess

/-!
# Paths that fail halfway

`reg_resolve` checks the components of a path before it touches the tree, but the depth and the memory
only when it makes a key.  `resolve_whole_iff`: an error leaves the registry as it was unless the first
missing key could be made and a later one could not.
-/

namespace Win98Modern.Registry

variable {e : Env} {s s' : St} {start k : KeyId} {r : Request}

/-- The registry is as before, but for the number of `kzalloc` calls. -/
def Unchanged (s s' : St) : Prop := s' = { s with next := s'.next }

theorem Core.not_unchanged (h : Core s []) (hl : s'.Live s.next) : ¬Unchanged s s' := by
  intro hu
  rw [hu] at hl
  exact h.not_live_next hl

/-- Where the keys that exist along a path end: the last of them, its depth, and what is missing. -/
def existing (s : St) : KeyId → Nat → List (Name × Bool) → KeyId × Nat × List (Name × Bool)
  | k, depth, [] => (k, depth, [])
  | k, depth, (name, last) :: rest =>
    match findChild s k name with
    | some c => existing s c (depth + 1) rest
    | none => (k, depth, (name, last) :: rest)

/-- `key_alloc` gets the memory for a key of this size. -/
def affords (e : Env) (seeded : Bool) (bytes next size : Nat) : Bool :=
  !(seeded && decide (regQuotaBytes < (bytes + 2 ^ 64 + size) % 2 ^ 64)) && e.mem next

/-- There is depth and memory for all the keys. -/
def fits (e : Env) (r : Request) (seeded : Bool) : Nat → Nat → Nat → List (Name × Bool) → Bool
  | _, _, _, [] => true
  | depth, bytes, next, (name, last) :: rest =>
    let size := (newKey e name (if last then r.cls else []) r.isVolatile false).allocSize
    decide (depth + 1 ≤ regMaxDepth) && affords e seeded bytes next size &&
      fits e r seeded (depth + 1) (bytes + size) (next + 1) rest

/-- A key may be made below `k`. -/
def admits (s : St) (start k : KeyId) (r : Request) : Bool :=
  r.create && !(decide (k = s.root) && s.seeded) && !(decide (k = start) && !r.startCanCreate) &&
    !((s.key k).volatile && !r.isVolatile)

/-- The path is refused before the first key is made, or there is depth and memory for all of the missing
keys, or not even for the first. -/
def Whole (e : Env) (s : St) (start : KeyId) (path : Name) (r : Request) : Prop :=
  let cs := components path
  let (k, depth, missing) := existing s start (keyDepth s start) cs
  (s.key start).deleted = true ∨ checkComponents cs ≠ none ∨ admits s start k r = false ∨
    fits e r s.seeded depth s.bytes s.next missing = true ∨
      fits e r s.seeded depth s.bytes s.next (missing.take 1) = false

/-! ### The keys that exist -/

theorem resolveFrom_existing (cs : List (Name × Bool)) : ∀ (k : KeyId) (depth : Nat) (made : Bool),
    resolveFrom e start r s k depth made cs = resolveFrom e start r s (existing s k depth cs).1
      (existing s k depth cs).2.1 made (existing s k depth cs).2.2 := by
  induction cs with
  | nil => exact fun _ _ _ => rfl
  | cons c rest ih =>
    obtain ⟨name, last⟩ := c
    intro k depth made
    rw [existing]
    cases hfind : findChild s k name with
    | none => rfl
    | some c =>
      rw [resolveFrom, hfind]
      exact ih c (depth + 1) made

variable {name : Name} {last : Bool} {rest : List (Name × Bool)} {depth : Nat}

theorem existing_missing (cs : List (Name × Bool)) :
    ∀ {k : KeyId} {depth : Nat}, (existing s k depth cs).2.2 = (name, last) :: rest →
      findChild s (existing s k depth cs).1 name = none := by
  induction cs with
  | nil => exact fun h => nomatch h
  | cons c cs ih =>
    obtain ⟨n, l⟩ := c
    intro k depth h
    rw [existing] at h ⊢
    cases hfind : findChild s k n with
    | none =>
      rw [hfind] at h
      obtain ⟨rfl, -⟩ := Prod.mk.inj (List.cons.inj h).1
      exact hfind
    | some c =>
      rw [hfind] at h
      exact ih h

theorem open_existing (h : Core s []) (cs : List (Name × Bool)) : ∀ {k : KeyId} (depth : Nat), s.Open k →
    s.Open (existing s k depth cs).1 := by
  induction cs with
  | nil => exact fun _ hk => hk
  | cons c cs ih =>
    obtain ⟨n, l⟩ := c
    intro k depth hk
    rw [existing]
    cases hfind : findChild s k n with
    | none => exact hk
    | some c => exact ih (depth + 1) (h.open_of_find hfind)

theorem keyAlloc_affords (name cls : Name) (vol : Bool) :
    affords e s.seeded s.bytes s.next (newKey e name cls vol false).allocSize = true ∧
        keyAlloc e s name cls vol false = (some s.next, fresh e s name cls vol false) ∨
      affords e s.seeded s.bytes s.next (newKey e name cls vol false).allocSize = false ∧
        ∃ t, keyAlloc e s name cls vol false = (none, t) ∧ Unchanged s t := by
  unfold affords keyAlloc regAlloc
  rw [Nat.sub_zero]
  dsimp only
  by_cases hq : s.seeded = true ∧
      regQuotaBytes < (s.bytes + 2 ^ 64 + (newKey e name cls vol false).allocSize) % 2 ^ 64
  · right
    rw [if_pos hq, hq.1, decide_eq_true hq.2]
    exact ⟨rfl, s, rfl, rfl⟩
  · have hquota : (s.seeded && decide (regQuotaBytes <
        (s.bytes + 2 ^ 64 + (newKey e name cls vol false).allocSize) % 2 ^ 64)) = false := by
      rw [Bool.and_eq_false_iff, decide_eq_false_iff_not]
      by_cases hs : s.seeded = true
      · exact .inr fun hlt => hq ⟨hs, hlt⟩
      · exact .inl (Bool.not_eq_true _ ▸ hs)
    rw [if_neg hq, hquota]
    cases hm : e.mem s.next with
    | true => exact .inl ⟨rfl, rfl⟩
    | false => exact .inr ⟨rfl, _, rfl, rfl⟩

theorem resolveFrom_admitted (last : Bool) (rest : List (Name × Bool)) (depth : Nat) (made : Bool)
    (hfind : findChild s k name = none) (ha : admits s start k r = true) :
    fits e r s.seeded depth s.bytes s.next [(name, last)] = true ∧
        resolveFrom e start r s k depth made ((name, last) :: rest) =
          resolveFrom e start r (plant e s k name (if last then r.cls else []) r.isVolatile) s.next (depth + 1)
            true rest ∨
      fits e r s.seeded depth s.bytes s.next [(name, last)] = false ∧
        ∃ st t, resolveFrom e start r s k depth made ((name, last) :: rest) = (.error st, t) ∧ Unchanged s t := by
  unfold admits at ha
  obtain ⟨⟨⟨hcreate, hroot⟩, hstart⟩, hvol⟩ : ((r.create = true ∧ ¬(k = s.root ∧ s.seeded = true)) ∧
      ¬(k = start ∧ ¬r.startCanCreate = true)) ∧ ¬((s.key k).volatile = true ∧ ¬r.isVolatile = true) := by
    simpa [imp_iff_not_or] using ha
  rw [resolveFrom, hfind]
  rw [if_neg (not_not.2 hcreate), if_neg hroot, if_neg hstart, if_neg hvol]
  unfold fits fits
  rw [Bool.and_true]
  by_cases hd : regMaxDepth < depth + 1
  · right
    rw [if_pos hd, decide_eq_false (by omega)]
    exact ⟨rfl, _, s, rfl, rfl⟩
  · rw [if_neg hd, decide_eq_true (by omega), Bool.true_and]
    rcases keyAlloc_affords (e := e) (s := s) name (if last then r.cls else []) r.isVolatile with
      ⟨haff, hk⟩ | ⟨haff, t, hk, ht⟩
    · rw [haff, hk]
      exact .inl ⟨rfl, rfl⟩
    · rw [haff, hk]
      exact .inr ⟨rfl, _, t, rfl, ht⟩

/-! ### Making the rest -/

theorem plant_rest (e : Env) (s : St) (k : KeyId) (name cls : Name) (vol : Bool) :
    (plant e s k name cls vol).seeded = s.seeded ∧ (plant e s k name cls vol).root = s.root ∧
      (plant e s k name cls vol).bytes = s.bytes + (newKey e name cls vol false).allocSize ∧
        (plant e s k name cls vol).next = s.next + 1 := by
  refine ⟨linkChild_anchored.seeded, linkChild_anchored.root, linkChild_bytes, plant_next⟩

theorem quota_of_fits (h : Core s [])
    (hf : fits e r s.seeded depth s.bytes s.next [(name, last)] = true) : s.seeded = true →
      s.bytes + (newKey e name (if last then r.cls else []) r.isVolatile false).allocSize ≤ regQuotaBytes := by
  intro hs
  have hb := h.ledger.quota hs
  have hlt : (newKey e name (if last then r.cls else []) r.isVolatile false).allocSize < 2 ^ 32 :=
    newKey_allocSize_lt
  simp only [fits, affords, hs, Bool.and_eq_true, Bool.not_eq_true', Bool.true_and, decide_eq_false_iff_not,
    Bool.and_true] at hf
  have hf := hf.2.1
  generalize (newKey e name (if last then r.cls else []) r.isVolatile false).allocSize = size at hf hlt ⊢
  have hle : ¬regQuotaBytes < (s.bytes + 2 ^ 64 + size) % 2 ^ 64 := hf
  unfold regQuotaBytes at hle hb ⊢
  omega

theorem fits_cons {c : Name × Bool} {seeded : Bool} {bytes next : Nat} :
    fits e r seeded depth bytes next (c :: rest) = (fits e r seeded depth bytes next [c] &&
      fits e r seeded (depth + 1)
        (bytes + (newKey e c.1 (if c.2 then r.cls else []) r.isVolatile false).allocSize) (next + 1) rest) := by
  simp only [fits, Bool.and_true]

/-- A key without children that was made for this path. -/
structure Made (s : St) (start k : KeyId) (r : Request) : Prop where
  child : (s.key k).child = []
  admits : admits s start k r = true

theorem made_plant {cls : Name} (h : Core s []) (hs : s.Live start) (hk : s.Open k)
    (hcreate : r.create = true) : Made (plant e s k name cls r.isVolatile) start s.next r := by
  have hne : k ≠ s.next := Nat.ne_of_lt (h.ledger.addr hk.1).2
  have hroot : s.next ≠ s.root := Nat.ne_of_gt (h.ledger.addr h.tree.root.1).2
  have hstart : s.next ≠ start := Nat.ne_of_gt (h.ledger.addr hs).2
  have hvol : ((plant e s k name cls r.isVolatile).key s.next).volatile = r.isVolatile := by
    rw [plant, linkChild_key, hang_key_child hne.symm, fresh_key_self]
    rfl
  constructor
  · exact (plant_key_self e name cls r.isVolatile hne).2.2.1
  · unfold admits
    rw [hvol, (plant_rest e s k name cls r.isVolatile).2.1, hcreate, decide_eq_false hroot, decide_eq_false hstart]
    cases r.isVolatile <;> rfl

theorem create_of_admits (ha : admits s start k r = true) : r.create = true := by
  unfold admits at ha
  simp only [Bool.and_eq_true] at ha
  exact ha.1.1.1

/-- **All keys are made if and only if there is depth and memory for all of them.** -/
theorem resolveFrom_made (cs : List (Name × Bool)) : ∀ {s : St} {k : KeyId} (depth : Nat) (made : Bool), Core s [] →
    s.Live start → s.Open k → Made s start k r →
      ((∃ x, (resolveFrom e start r s k depth made cs).1 = .ok x) ↔
        fits e r s.seeded depth s.bytes s.next cs = true) := by
  induction cs with
  | nil => exact fun _ _ _ _ _ _ => iff_of_true ⟨_, rfl⟩ rfl
  | cons c rest ih =>
    obtain ⟨name, last⟩ := c
    intro s k depth made h hs hk hm
    have hfind : findChild s k name = none := by
      unfold findChild
      rw [hm.child]
      rfl
    rcases resolveFrom_admitted (e := e) last rest depth made hfind hm.admits with ⟨hfit, heq⟩ | ⟨hfit, st, t, heq, -⟩
    · have hq := quota_of_fits h hfit
      have hcreate := create_of_admits hm.admits
      have hne : k ≠ s.next := Nat.ne_of_lt (h.ledger.addr hk.1).2
      have hplant := h.plant (e := e) hk hfind hq
      obtain ⟨hseed, -, hbytes, hnext⟩ := plant_rest e s k name (if last then r.cls else []) r.isVolatile
      rw [heq, ih _ _ hplant ((plant_live hk.1).2 (.inr hs)) (plant_open_self hne) (made_plant h hs hk hcreate),
        hseed, hbytes, hnext, fits_cons, hfit, Bool.true_and]
    · rw [heq, fits_cons, hfit]
      exact iff_of_false (fun ⟨_, h⟩ => nomatch h) nofun

theorem resolveFrom_open {c : KeyId} (start : KeyId) (r : Request) (depth : Nat) (made : Bool) (cs : List (Name × Bool)) (h : Core s [])
    (hk : s.Open k) (hc : s.Open c) : (resolveFrom e start r s k depth made cs).2.Live c := by
  rcases resolveFrom_grow (e := e) start r cs s k depth made h hk with
    ⟨k', m, s', heq, hg⟩ | ⟨st, s₁, s', k', ms, heq, -, hg, hi, -⟩
  · rw [heq]
    exact (hg.open_of_open h hk hc).1
  · rw [heq]
    exact (live_congr hi.keys).2 (hg.open_of_open h hk hc).1

/-! ### All or nothing -/

theorem resolveFrom_refused (last : Bool) (rest : List (Name × Bool)) (depth : Nat) (made : Bool)
    (hfind : findChild s k name = none) (ha : admits s start k r = false) :
    ∃ st, resolveFrom e start r s k depth made ((name, last) :: rest) = (.error st, s) := by
  rw [resolveFrom, hfind]
  by_cases h₁ : r.create = true
  · rw [if_neg (not_not.2 h₁)]
    by_cases h₂ : k = s.root ∧ s.seeded = true
    · exact ⟨_, if_pos h₂⟩
    · rw [if_neg h₂]
      by_cases h₃ : k = start ∧ ¬r.startCanCreate = true
      · exact ⟨_, if_pos h₃⟩
      · rw [if_neg h₃]
        refine ⟨_, if_pos ?_⟩
        unfold admits at ha
        simp only [Bool.and_eq_false_iff, Bool.not_eq_false', Bool.and_eq_true, decide_eq_true_eq,
          Bool.not_eq_true'] at ha
        rcases ha with ((ha | ha) | ha) | ha
        · exact Bool.noConfusion (ha.symm.trans h₁)
        · exact absurd ha h₂
        · exact absurd ⟨ha.1, by rw [ha.2]; exact Bool.false_ne_true⟩ h₃
        · exact ⟨ha.1, by rw [ha.2]; exact Bool.false_ne_true⟩
  · exact ⟨_, if_pos h₁⟩

theorem resolveFrom_whole_iff {made : Bool} (h : Core s []) (hs : s.Live start) (hk : s.Open k)
    (hfind : findChild s k name = none) (ha : admits s start k r = true) :
    (∀ st, (resolveFrom e start r s k depth made ((name, last) :: rest)).1 = .error st →
        Unchanged s (resolveFrom e start r s k depth made ((name, last) :: rest)).2) ↔
      fits e r s.seeded depth s.bytes s.next ((name, last) :: rest) = true ∨
        fits e r s.seeded depth s.bytes s.next [(name, last)] = false := by
  rcases resolveFrom_admitted (e := e) last rest depth made hfind ha with ⟨hfit, heq⟩ | ⟨hfit, st, t, heq, ht⟩
  · have hne : k ≠ s.next := Nat.ne_of_lt (h.ledger.addr hk.1).2
    have hplant := h.plant (e := e) hk hfind (quota_of_fits h hfit)
    have hnew : (plant e s k name (if last then r.cls else []) r.isVolatile).Open s.next := plant_open_self hne
    have hmade := resolveFrom_made (e := e) rest (depth + 1) true hplant ((plant_live hk.1).2 (.inr hs)) hnew
      (made_plant h hs hk (create_of_admits ha))
    have hlive := resolveFrom_open (e := e) start r (depth + 1) true rest hplant hnew hnew
    obtain ⟨hseed, -, hbytes, hnext⟩ := plant_rest e s k name (if last then r.cls else []) r.isVolatile
    rw [hseed, hbytes, hnext] at hmade
    rw [heq, fits_cons, hfit, Bool.true_and, ← hmade]
    generalize resolveFrom e start r (plant e s k name (if last then r.cls else []) r.isVolatile) s.next (depth + 1)
      true rest = res at hlive ⊢
    obtain ⟨o, t⟩ := res
    cases o with
    | ok x => exact iff_of_true (fun _ he => nomatch he) (.inl ⟨x, rfl⟩)
    | error st =>
      -- the key that was made is in the tree
      exact iff_of_false (fun hall => h.not_unchanged hlive (hall st rfl))
        fun hor => hor.elim (fun ⟨_, hx⟩ => nomatch hx) nofun
  · rw [heq]
    exact iff_of_true (fun _ _ => ht) (.inr hfit)

/-- **When path creation is all or nothing**: an error of `reg_resolve` leaves the registry as it was if
and only if the missing keys can all be made, or not even the first. -/
theorem resolve_whole_iff (h : Reach s) (hs : s.Live start) (path : Name) :
    (∀ st, (regResolve e s start path r).1 = .error st → Unchanged s (regResolve e s start path r).2) ↔
      Whole e s start path r := by
  have hcore := h.core.1
  unfold Whole regResolve
  dsimp only
  by_cases hd : (s.key start).deleted = true
  · rw [if_pos hd]
    exact iff_of_true (fun _ _ => rfl) (.inl hd)
  rw [if_neg hd, or_iff_right hd]
  cases hcheck : checkComponents (components path) with
  | some st => exact iff_of_true (fun _ _ => rfl) (.inl nofun)
  | none =>
    have ho : s.Open start := ⟨hs, Bool.not_eq_true _ ▸ hd⟩
    have hk := open_existing hcore (components path) (keyDepth s start) ho
    have hmiss : ∀ name last rest, (existing s start (keyDepth s start) (components path)).2.2 =
        (name, last) :: rest → findChild s (existing s start (keyDepth s start) (components path)).1 name = none :=
      fun _ _ _ hm => existing_missing _ hm
    rw [resolveFrom_existing, or_iff_right (not_not.2 rfl)]
    generalize existing s start (keyDepth s start) (components path) = m at hk hmiss ⊢
    obtain ⟨k, depth, missing⟩ := m
    cases missing with
    | nil => exact iff_of_true (fun _ he => nomatch he) (.inr (.inl rfl))
    | cons c rest =>
      obtain ⟨name, last⟩ := c
      have hfind := hmiss name last rest rfl
      cases ha : admits s start k r with
      | false =>
        obtain ⟨st, heq⟩ := resolveFrom_refused (e := e) last rest depth false hfind ha
        rw [heq]
        exact iff_of_true (fun _ _ => rfl) (.inl rfl)
      | true =>
        exact (resolveFrom_whole_iff hcore hs hk hfind ha).trans (or_iff_right (b := _ ∨ _) Bool.noConfusion).symm

/-! ### A heap with room for one key -/

def oneKey : Env := { oneAccount with mem := fun i => i ≤ booted.next }

def twoNames : Name := ascii "A\\B"

def makeBoth : Request := { create := true, isVolatile := false, startCanCreate := true, cls := [] }

theorem machine_live : booted.Live booted.machine := booted_spec.2.2

theorem resolve_whole_iff_sample :
    (∀ st, (regResolve oneKey booted booted.machine twoNames makeBoth).1 = .error st →
        Unchanged booted (regResolve oneKey booted booted.machine twoNames makeBoth).2) ↔
      Whole oneKey booted booted.machine twoNames makeBoth :=
  resolve_whole_iff (Reach.boot oneAccount seedDefaults_booted) machine_live twoNames

theorem half_made : (regResolve oneKey booted booted.machine twoNames makeBoth).1 = .error .noMemory ∧
    ((regResolve oneKey booted booted.machine twoNames makeBoth).2.keys booted.next).isSome = true := by
  decide +kernel

/-- The first of two keys is made, and stays when there is no memory for the second. -/
theorem resolve_leaves_half : Reach booted ∧ booted.Live booted.machine ∧
    (regResolve oneKey booted booted.machine twoNames makeBoth).1 = .error .noMemory ∧
      ¬Unchanged booted (regResolve oneKey booted booted.machine twoNames makeBoth).2 := by
  refine ⟨Reach.boot oneAccount seedDefaults_booted, machine_live, half_made.1,
    (Reach.boot oneAccount seedDefaults_booted).core.1.not_unchanged ?_⟩
  exact half_made.2

end Win98Modern.Registry
