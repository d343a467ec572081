import Win98Modern.Kernel64.LoaderGrow

/-!
# What a load looks up

Which modules a load asks for, and which files it may load for them, follows from the files and from the
modules loaded before it (`Asks`, `Finds`).  An edge that it makes between two of these is one of a
forwarder that it asks for (`Forwards`), and each module that it has linked has the edges of its imports
and of the forwarders on the way to them (`Imported`).  `loadDll_spec` says so of a load at any depth.
-/

namespace Win98Modern.Loader

open Function List

open Failing

variable {p q q' : Process} {env : Env} {id source target : Nat} {f : Module → Module} {m : Module}

/-! ### Names and files -/

/-- A module of the name that is not retiring. -/
def Named (p : Process) (name : String) (id : Nat) (exports : Symbol → Export) : Prop :=
  ∃ m ∈ p.modules, m.id = id ∧ m.name = name ∧ m.exports = exports ∧ m.retiring = false

mutual

/-- `load_dll` may be called with the name, and then the symbol looked up in the module. -/
inductive Asks (env : Env) (p : Process) (name : String) : String → Bool → Option Symbol → Prop
  | load {host : String} {api : Bool} (h : env.apiset (env.baseName name) = some (host, api)) :
      Asks env p name (if api then host else name) api none
  | imported {key host : String} {api : Bool} {file : ImageFile} {i : Import}
      (hfile : Finds env p name key file) (hi : i ∈ file.imports)
      (h : env.apiset (env.baseName i.dll) = some (host, api)) : Asks env p name host api (some i.symbol)
  | forwarded {n dll host : String} {api api' : Bool} {sym : Symbol} {fn : Option Symbol} {id : Nat}
      {exports : Symbol → Export} (hask : Asks env p name n api (some sym))
      (hm : Named p (env.baseName n) id exports) (hfwd : exports sym = .forward dll fn)
      (h : env.apiset (env.baseName dll) = some (host, api')) : Asks env p name host api' fn
  | forwardedNew {n dll host : String} {api api' : Bool} {sym : Symbol} {fn : Option Symbol}
      {file : ImageFile} (hask : Asks env p name n api (some sym))
      (hfile : Finds env p name (env.baseName n) file) (hfwd : file.exports sym = .forward dll fn)
      (h : env.apiset (env.baseName dll) = some (host, api')) : Asks env p name host api' fn

/-- The file may be loaded for a module of the name. -/
inductive Finds (env : Env) (p : Process) (name : String) : String → ImageFile → Prop
  | found {n : String} {api : Bool} {sym : Option Symbol} {file : ImageFile}
      (hask : Asks env p name n api sym) (hno : findModule p (env.baseName n) = none)
      (h : env.locateFile n api = some file) : Finds env p name (env.baseName n) file

end

/-- A forwarder looked up in a loaded module leads to a loaded module. -/
def Forwards (env : Env) (p : Process) (asks : String → Bool → Option Symbol → Prop) (i j : Nat) : Prop :=
  ∃ n api sym exports dll fn host api' exports', asks n api (some sym) ∧ Named p (env.baseName n) i exports ∧
    exports sym = .forward dll (some fn) ∧ env.apiset (env.baseName dll) = some (host, api') ∧
    Named p (env.baseName host) j exports'

/-! ### The edges of a module -/

def Edge (p : Process) (i j : Nat) : Prop := ∃ m ∈ p.modules, m.id = i ∧ j ∈ m.edges

def Joined (p : Process) (i j : Nat) : Prop := i = j ∨ Edge p i j

/-- The symbol is found in the module, and each forwarder on the way has its edge. -/
inductive Resolved (env : Env) (p : Process) : Nat → (Symbol → Export) → Symbol → Prop
  | code {i : Nat} {exports : Symbol → Export} {sym : Symbol} (h : exports sym = .code) :
      Resolved env p i exports sym
  | forward {i j : Nat} {exports exports' : Symbol → Export} {sym fn : Symbol} {dll host : String}
      {api : Bool} (hfwd : exports sym = .forward dll (some fn))
      (h : env.apiset (env.baseName dll) = some (host, api)) (hm : Named p (env.baseName host) j exports')
      (hjoin : Joined p i j) (hrest : Resolved env p j exports' fn) : Resolved env p i exports sym

/-- The module has the edge of its import. -/
def Imported (env : Env) (p : Process) (id : Nat) (i : Import) : Prop :=
  ∃ host api j exports, env.apiset (env.baseName i.dll) = some (host, api) ∧
    Named p (env.baseName host) j exports ∧ Joined p id j ∧ Resolved env p j exports i.symbol

/-- What stays as a load goes on. -/
structure Later (q q' : Process) : Prop where
  named : ∀ {key i exports}, Named q key i exports → Named q' key i exports
  edge : ∀ {i j}, Edge q i j → Edge q' i j

theorem Later.joined (h : Later q q') {i j : Nat} (hj : Joined q i j) : Joined q' i j := hj.imp id h.edge

theorem Later.resolved (h : Later q q') {i : Nat} {exports : Symbol → Export} {sym : Symbol}
    (hr : Resolved env q i exports sym) : Resolved env q' i exports sym := by
  induction hr with
  | code hcode => exact .code hcode
  | forward hfwd hset hm hjoin _ ih => exact .forward hfwd hset (h.named hm) (h.joined hjoin) ih

theorem Later.imported (h : Later q q') {i : Import} (hi : Imported env q id i) : Imported env q' id i := by
  obtain ⟨host, api, j, exports, hset, hm, hjoin, hr⟩ := hi
  exact ⟨host, api, j, exports, hset, h.named hm, h.joined hjoin, h.resolved hr⟩

/-- The record is the same but for its progress and for more edges. -/
structure SameName (m m' : Module) : Prop where
  id : m'.id = m.id
  name : m'.name = m.name
  exports : m'.exports = m.exports
  retiring : m'.retiring = m.retiring
  edges : ∀ e ∈ m.edges, e ∈ m'.edges

theorem Matched.later (h : Matched SameName q q') : Later q q' := by
  constructor
  · rintro key i exports ⟨m, hm, rfl, rfl, rfl, hret⟩
    obtain ⟨m', hm', hs⟩ := h.forth m hm
    exact ⟨m', hm', hs.id, hs.name, hs.exports, hs.retiring.trans hret⟩
  · rintro i j ⟨m, hm, rfl, hj⟩
    obtain ⟨m', hm', hs⟩ := h.forth m hm
    exact ⟨m', hm', hs.id, hs.edges j hj⟩

theorem later_push (q : Process) (m : Module) : Later q (q.push m) := by
  constructor
  · rintro key i exports ⟨x, hx, hrest⟩
    exact ⟨x, mem_cons_of_mem m hx, hrest⟩
  · rintro i j ⟨x, hx, hrest⟩
    exact ⟨x, mem_cons_of_mem m hx, hrest⟩

/-- A statement about a load that holds as long as it goes on. -/
def Lasting (K : Process → Prop) : Prop := ∀ q q', Later q q' → K q → K q'

/-! ### What a load keeps of names and edges -/

/-- All that a load may ask for, and the files that it may load. -/
structure Search where
  asks : String → Bool → Option Symbol → Prop
  finds : String → ImageFile → Prop

variable {S : Search} {name : String} {file : ImageFile}

structure Search.Closed (S : Search) (env : Env) (p : Process) : Prop where
  found : ∀ {n api sym file}, S.asks n api sym → findModule p (env.baseName n) = none →
    env.locateFile n api = some file → S.finds (env.baseName n) file
  imported : ∀ {key host api} {file : ImageFile} {i : Import}, S.finds key file → i ∈ file.imports →
    env.apiset (env.baseName i.dll) = some (host, api) → S.asks host api (some i.symbol)
  forwarded : ∀ {n api sym id exports dll fn host api'}, S.asks n api (some sym) →
    Named p (env.baseName n) id exports → exports sym = .forward dll fn →
    env.apiset (env.baseName dll) = some (host, api') → S.asks host api' fn
  forwardedNew : ∀ {n api sym} {file : ImageFile} {dll fn host api'}, S.asks n api (some sym) →
    S.finds (env.baseName n) file → file.exports sym = .forward dll fn →
    env.apiset (env.baseName dll) = some (host, api') → S.asks host api' fn

/-- What the load of a module asks for and finds. -/
def search (env : Env) (p : Process) (name : String) : Search := ⟨Asks env p name, Finds env p name⟩

theorem closed_search (env : Env) (p : Process) (name : String) : (search env p name).Closed env p :=
  ⟨.found, .imported, .forwarded, .forwardedNew⟩

/-- A search that leaves nothing out. -/
def Search.all : Search := ⟨fun _ _ _ => True, fun _ _ => True⟩

theorem closed_all (env : Env) (p : Process) : Search.all.Closed env p :=
  ⟨fun _ _ _ => trivial, fun _ _ _ => trivial, fun _ _ _ _ => trivial, fun _ _ _ _ => trivial⟩

/-- The file is loaded for the module, and when that is linked its imports have their edges. -/
structure Loaded (env : Env) (S : Search) (q : Process) (m : Module) (file : ImageFile) : Prop where
  finds : S.finds m.name file
  exports : m.exports = file.exports
  imports : m.state = .linked → ∀ i ∈ file.imports, Imported env q m.id i

structure Trail (env : Env) (p : Process) (S : Search) (q : Process) : Prop where
  records : ∀ m ∈ q.modules, (∃ m₀ ∈ p.modules, SameName m₀ m) ∨
    p.nextId ≤ m.id ∧ ∃ file, Loaded env S q m file
  links : ∀ e ∈ newLinks p q, e.1 ∈ p.ids → e.2 ∈ p.ids → e.1 ≠ e.2 ∧ Forwards env p S.asks e.1 e.2

theorem trail_refl (env : Env) (p : Process) (S : Search) : Trail env p S p := by
  refine ⟨fun m hm => .inl ⟨m, hm, rfl, rfl, rfl, rfl, fun _ he => he⟩, fun e he => ?_⟩
  rw [newLinks_append (l := []) rfl] at he
  cases he

theorem later_update (hf : ∀ m, SameName m (f m))
    (hm : q'.modules = q.modules.map fun m => if m.id = id then f m else m) : Later q q' :=
  Matched.later (matched_update (fun m _ => hf m) (fun _ _ => ⟨rfl, rfl, rfl, rfl, fun _ he => he⟩) hm)

theorem Trail.update (h : Trail env p S q) (hf : ∀ m, SameName m (f m))
    (hm : q'.modules = q.modules.map fun m => if m.id = id then f m else m)
    (hdone : ∀ m ∈ q.modules, m.id = id → (f m).state = .linked → m.state = .linked ∨
      ∃ file, S.finds m.name file ∧ m.exports = file.exports ∧ ∀ i ∈ file.imports, Imported env q m.id i)
    (hlinks : ∀ e ∈ newLinks p q', e ∈ newLinks p q ∨
      (e.1 ∈ p.ids → e.2 ∈ p.ids → e.1 ≠ e.2 ∧ Forwards env p S.asks e.1 e.2)) :
    Trail env p S q' := by
  have hlater : Later q q' := later_update hf hm
  refine ⟨fun m' hm' => ?_, fun e he => (hlinks e he).elim (h.links e) fun he' => he'⟩
  rw [hm] at hm'
  obtain ⟨m, hmem, hid, rfl⟩ | ⟨hmem, -⟩ := mem_map_update.1 hm'
  · have hs := hf m
    obtain ⟨m₀, hm₀, hs₀⟩ | ⟨hnew, file, hl⟩ := h.records m hmem
    · exact .inl ⟨m₀, hm₀, hs.id.trans hs₀.id, hs.name.trans hs₀.name, hs.exports.trans hs₀.exports,
        hs.retiring.trans hs₀.retiring, fun e he => hs.edges e (hs₀.edges e he)⟩
    · refine .inr ⟨hs.id ▸ hnew, ?_⟩
      by_cases hlinked : (f m).state = .linked
      · obtain hold | ⟨file', hfinds, hexports, himports⟩ := hdone m hmem hid hlinked
        · refine ⟨file, hs.name ▸ hl.finds, hs.exports.trans hl.exports, fun _ i hi => ?_⟩
          rw [hs.id]
          exact hlater.imported (hl.imports hold i hi)
        · refine ⟨file', hs.name ▸ hfinds, hs.exports.trans hexports, fun _ i hi => ?_⟩
          rw [hs.id]
          exact hlater.imported (himports i hi)
      · exact ⟨file, hs.name ▸ hl.finds, hs.exports.trans hl.exports, fun hc => absurd hc hlinked⟩
  · obtain hold | ⟨hnew, file, hl⟩ := h.records m' hmem
    · exact .inl hold
    · exact .inr ⟨hnew, file, hl.finds, hl.exports, fun hs i hi => hlater.imported (hl.imports hs i hi)⟩

theorem trail_push (hg : Grow p q) (h : Trail env p S q) (hfile : S.finds name file) :
    Trail env p S (q.push (q.fresh name file)) := by
  refine ⟨fun m hm => ?_, h.links⟩
  obtain rfl | hm := mem_cons.1 hm
  · exact .inr ⟨hg.next, file, hfile, rfl, nofun⟩
  · obtain hold | ⟨hnew, file', hl⟩ := h.records m hm
    · exact .inl hold
    · exact .inr ⟨hnew, file', hl.finds, hl.exports,
        fun hs i hi => (later_push q _).imported (hl.imports hs i hi)⟩

/-- A base, a TLS slot: no matter for names and edges. -/
theorem Trail.progress (h : Trail env p S q) (hf : ∀ m, SameName m (f m)) (hst : ∀ m, (f m).state = m.state)
    (hm : q'.modules = q.modules.map fun m => if m.id = id then f m else m)
    (hlinked : q'.linked = q.linked) : Trail env p S q' := by
  refine h.update hf hm (fun m _ _ hs => .inl (hst m ▸ hs)) fun e he => .inl ?_
  unfold newLinks at he ⊢
  rwa [hlinked] at he

/-- A record that is not retiring is of a module that was loaded, or of a file that was found. -/
theorem Trail.named (h : Trail env p S q) {key : String} {exports : Symbol → Export}
    (hm : Named q key id exports) :
    Named p key id exports ∨ ∃ file, S.finds key file ∧ file.exports = exports := by
  obtain ⟨m, hm, rfl, rfl, rfl, hret⟩ := hm
  obtain ⟨m₀, hm₀, hs⟩ | ⟨-, file, hl⟩ := h.records m hm
  · exact .inl ⟨m₀, hm₀, hs.id.symm, hs.name.symm, hs.exports.symm, hs.retiring.symm.trans hret⟩
  · exact .inr ⟨file, hl.finds, hl.exports.symm⟩

/-! ### The loader -/

/-- A load that goes on, with what it knows. -/
structure At (env : Env) (p : Process) (S : Search) (stack : List Nat) (K : Process → Prop)
    (q : Process) : Prop where
  going : Going p stack q
  trail : Trail env p S q
  known : K q

/-- What is left of a load that has failed. -/
structure Left (env : Env) (p : Process) (S : Search) (q : Process) : Prop where
  failed : Failed p q
  trail : Trail env p S q

variable {stack : List Nat} {K : Process → Prop} {load : Nat → String → Bool → Load Module}

theorem At.left (h : At env p S stack K q) : Left env p S q := ⟨h.going.failed, h.trail⟩

theorem At.mono {K' : Process → Prop} (h : At env p S stack K q) (hK : K q → K' q) : At env p S stack K' q :=
  ⟨h.going, h.trail, hK h.known⟩

/-- `load` finds or loads a module of the name. -/
def LoadOk (env : Env) (p : Process) (S : Search) (stack : List Nat)
    (load : Nat → String → Bool → Load Module) : Prop :=
  ∀ (K : Process → Prop), Lasting K → ∀ (depth : Nat) {n : String} {api : Bool} {sym : Option Symbol},
    S.asks n api sym → Spec (At env p S stack K) (load depth n api)
      (fun m => At env p S stack fun q => K q ∧ Named q (env.baseName n) m.id m.exports) (Left env p S)

theorem LoadOk.plain (h : LoadOk env p S stack load) (depth : Nat) {n : String} {api : Bool}
    {sym : Option Symbol} (hask : S.asks n api sym) : Spec (At env p S stack fun _ => True) (load depth n api)
      (fun _ => At env p S stack fun _ => True) (Left env p S) :=
  Spec.mono (h _ (fun _ _ _ _ => trivial) depth hask) (fun _ h => h) fun _ _ h => h.mono fun _ => trivial

/-- Edges from a named module to a named module. -/
theorem moduleEdge_spec (hp : Tidy p) (hK : Lasting K) {key key' : String} {e e' : Symbol → Export}
    (hsource : ∀ q, K q → Named q key source e) (htarget : ∀ q, K q → Named q key' target e')
    (hlink : source ∈ p.ids → target ∈ p.ids → ∀ q, Trail env p S q → K q →
      Forwards env p S.asks source target) :
    Spec (At env p S stack K) (moduleEdge env source target)
      (fun _ => At env p S stack fun q => K q ∧ Joined q source target) (Left env p S) := by
  intro q hq
  unfold moduleEdge
  by_cases hret : isRetiring q target
  · rw [if_pos hret]
    exact run_error hq.left
  rw [if_neg hret]
  by_cases hdone : source = target ∨ hasEdge q source target
  · rw [if_pos hdone]
    refine run_ok (hq.mono fun hk => ⟨hk, hdone.imp_right fun hedge => ?_⟩)
    obtain ⟨m, hm, hc⟩ := any_eq_true.1 hedge
    exact ⟨m, hm, of_decide_eq_true hc⟩
  rw [if_neg hdone]
  by_cases halloc : env.edgeAlloc source target
  · rw [if_pos halloc]
    obtain ⟨hne, hno⟩ := not_or.1 hdone
    obtain ⟨m, hm, hid, -, -, -⟩ := hsource q hq.known
    obtain ⟨t, ht, htid, -, -, htret⟩ := htarget q hq.known
    have hname : ∀ m : Module, SameName m { m with edges := target :: m.edges } := fun m =>
      ⟨rfl, rfl, rfl, rfl, fun _ he => mem_cons_of_mem _ he⟩
    have hlater : Later q (addEdge source target q) := later_update hname rfl
    refine run_ok ⟨?_, ?_, hK _ _ hlater hq.known, .inr ?_⟩
    · exact going_addEdge hp hq.going (hid ▸ mem_map_of_mem hm) ⟨t, ht, htid, htret⟩
        (Bool.eq_false_iff.2 hno)
    · refine hq.trail.update hname rfl (fun _ _ _ hs => .inl hs) fun e he => ?_
      rw [hq.going.grow.newLinks_addEdge] at he
      obtain rfl | he := mem_cons.1 he
      · exact .inr fun hs ht => ⟨hne, hlink hs ht q hq.trail hq.known⟩
      · exact .inl he
    · exact ⟨_, mem_map_update.2 (.inl ⟨m, hm, hid, rfl⟩), hid, mem_cons_self⟩
  · rw [if_neg halloc]
    exact run_error hq.left

theorem resolveDllName_bind {α : Type} {P : Process → Prop} {Q : α → Process → Prop} {E : Process → Prop}
    {g : String × Bool → Load α} (name : String) (hE : ∀ q, P q → E q)
    (hg : ∀ host api, env.apiset name = some (host, api) → Spec P (g (host, api)) Q E) :
    Spec P (resolveDllName env name >>= g) Q E := by
  unfold resolveDllName
  cases hset : env.apiset name with
  | none => exact spec_fail hE
  | some r => exact hg r.1 r.2 hset

/-- The symbol is resolved in the module that it was looked up in. -/
theorem resolveExport_spec (hp : Tidy p) (hS : S.Closed env p) (hload : LoadOk env p S stack load)
    (hops : Nat) : ∀ {K : Process → Prop} {m : Module} {n : String} {api : Bool} {sym : Symbol},
      Lasting K → S.asks n api (some sym) → (∀ q, K q → Named q (env.baseName n) m.id m.exports) →
      Spec (At env p S stack K) (resolveExport env load hops m sym)
        (fun _ => At env p S stack fun q => K q ∧ Resolved env q m.id m.exports sym) (Left env p S) := by
  induction hops with
  | zero => exact fun _ _ _ => spec_fail fun _ h => h.left
  | succ hops ih =>
    intro K m n api sym hK hask hm
    unfold resolveExport
    cases hexp : m.exports sym with
    | notFound => exact spec_fail fun _ h => h.left
    | malformed => exact spec_fail fun _ h => h.left
    | code => exact spec_pure fun _ h => h.mono fun hk => ⟨hk, .code hexp⟩
    | forward dll fn =>
      refine resolveDllName_bind _ (fun _ h => h.left) fun host api' hset => ?_
      have hnext : ∀ q, At env p S stack K q → S.asks host api' fn := by
        intro q hq
        obtain hold | ⟨file, hfinds, hfile⟩ := hq.trail.named (hm q hq.known)
        · exact hS.forwarded hask hold hexp hset
        · exact hS.forwardedNew hask hfinds (hfile ▸ hexp) hset
      refine spec_of_pre hnext fun hask' => (hload K hK _ hask').bind fun target => ?_
      cases fn with
      | none => exact spec_fail fun _ h => h.left
      | some fn =>
        have hK₁ : Lasting fun q => K q ∧ Named q (env.baseName host) target.id target.exports :=
          fun q q' hl h => ⟨hK q q' hl h.1, hl.named h.2⟩
        have hK₂ : Lasting fun q => (K q ∧ Named q (env.baseName host) target.id target.exports) ∧
            Resolved env q target.id target.exports fn :=
          fun q q' hl h => ⟨hK₁ q q' hl h.1, hl.resolved h.2⟩
        refine (ih hK₁ hask' fun _ h => h.2).bind fun _ => ?_
        refine Spec.mono (moduleEdge_spec hp hK₂ (fun q h => hm q h.1.1) (fun _ h => h.1.2) ?_)
          (fun _ h => h) fun _ _ h => h.mono fun hk =>
            ⟨hk.1.1.1, .forward hexp hset hk.1.1.2 hk.2 hk.1.2⟩
        -- both were loaded before: the forwarder is one of the old module
        intro hs ht q hq hk
        have hold : ∀ {key i e}, Named q key i e → i ∈ p.ids → Named p key i e := by
          rintro key i e ⟨m, hm, rfl, rfl, rfl, hret⟩ hi
          obtain ⟨m₀, hm₀, hs₀⟩ | ⟨hnew, -⟩ := hq.records m hm
          · exact ⟨m₀, hm₀, hs₀.id.symm, hs₀.name.symm, hs₀.exports.symm, hs₀.retiring.symm.trans hret⟩
          · obtain ⟨m₀, hm₀, hid⟩ := mem_ids.1 hi
            have := hp.lt m₀ hm₀
            omega
        exact ⟨n, api, sym, _, dll, fn, host, api', _, hask, hold (hm q hk.1.1) hs, hexp, hset,
          hold hk.1.2 ht⟩

theorem importCb_spec (hp : Tidy p) (hS : S.Closed env p) (hload : LoadOk env p S stack load) (hK : Lasting K)
    (depth : Nat) {key : String} {i : Import} (hm : ∀ q, K q → Named q key m.id m.exports)
    (hnew : p.nextId ≤ m.id) (hfinds : S.finds key file) (hi : i ∈ file.imports) :
    Spec (At env p S stack K) (importCb env load depth m i)
      (fun _ => At env p S stack fun q => K q ∧ Imported env q m.id i) (Left env p S) := by
  refine resolveDllName_bind _ (fun _ h => h.left) fun host api hset => ?_
  have hask := hS.imported hfinds hi hset
  refine (hload K hK _ hask).bind fun target => ?_
  have hK₁ : Lasting fun q => K q ∧ Named q (env.baseName host) target.id target.exports :=
    fun q q' hl h => ⟨hK q q' hl h.1, hl.named h.2⟩
  have hK₂ : Lasting fun q => (K q ∧ Named q (env.baseName host) target.id target.exports) ∧
      Resolved env q target.id target.exports i.symbol :=
    fun q q' hl h => ⟨hK₁ q q' hl h.1, hl.resolved h.2⟩
  refine (resolveExport_spec hp hS hload 9 hK₁ hask fun _ h => h.2).bind fun _ => ?_
  refine (moduleEdge_spec hp hK₂ (fun q h => hm q h.1.1) (fun _ h => h.1.2) fun hs => ?_).bind fun _ => ?_
  · obtain ⟨m₀, hm₀, hid⟩ := mem_ids.1 hs
    have := hp.lt m₀ hm₀
    omega
  · exact Spec.mono (spec_ensure fun _ h => h.left) (fun _ h => h) fun _ _ h => h.mono fun hk =>
      ⟨hk.1.1.1, host, api, _, _, hset, hk.1.1.2, hk.2, hk.1.2⟩

theorem walkImports_spec (hp : Tidy p) (hS : S.Closed env p) (hload : LoadOk env p S stack load)
    (depth : Nat) {key : String} (hnew : p.nextId ≤ m.id) (hfinds : S.finds key file)
    (imports : List Import) : ∀ {K : Process → Prop}, Lasting K →
      (∀ q, K q → Named q key m.id m.exports) → (∀ i ∈ imports, i ∈ file.imports) →
      Spec (At env p S stack K) (walkImports env load depth m imports)
        (fun _ => At env p S stack fun q => K q ∧ ∀ i ∈ imports, Imported env q m.id i) (Left env p S) := by
  induction imports with
  | nil => exact fun _ _ _ => spec_pure fun _ h => h.mono fun hk => ⟨hk, nofun⟩
  | cons i rest ih =>
    intro K hK hm hin
    refine (importCb_spec hp hS hload hK depth hm hnew hfinds (hin i mem_cons_self)).bind fun _ => ?_
    have hK' : Lasting fun q => K q ∧ Imported env q m.id i :=
      fun q q' hl h => ⟨hK q q' hl h.1, hl.imported h.2⟩
    refine Spec.mono (ih hK' (fun q h => hm q h.1) fun j hj => hin j (mem_cons_of_mem i hj))
      (fun _ h => h) fun _ _ h => h.mono fun hk => ⟨hk.1.1, fun j hj => ?_⟩
    obtain rfl | hj := mem_cons.1 hj
    · exact hk.1.2
    · exact hk.2 j hj

theorem linkModule_spec (hp : Tidy p) (hS : S.Closed env p) (hload : LoadOk env p S stack load)
    (hK : Lasting K) (depth : Nat) {key : String} (hm : ∀ q, K q → Named q key m.id m.exports)
    (hnew : p.nextId ≤ m.id) (hfinds : S.finds key file) :
    Spec (At env p S stack K) (linkModule env load depth m file)
      (fun _ => At env p S stack fun q => K q ∧ ∀ i ∈ file.imports, Imported env q m.id i)
      (Left env p S) := by
  have hK' : Lasting fun q => K q ∧ ∀ i ∈ file.imports, Imported env q m.id i :=
    fun q q' hl h => ⟨hK q q' hl h.1, fun i hi => hl.imported (h.2 i hi)⟩
  have hslot : Spec (At env p S stack fun q => K q ∧ ∀ i ∈ file.imports, Imported env q m.id i)
      (modify (takeTlsSlot m.id) : Load Unit)
      (fun _ => At env p S stack fun q => K q ∧ ∀ i ∈ file.imports, Imported env q m.id i)
      (Left env p S) := by
    have hname : ∀ m : Module, SameName m { m with hasTls := true } := fun m =>
      ⟨rfl, rfl, rfl, rfl, fun _ he => he⟩
    exact spec_modify fun q h => ⟨going_takeTlsSlot h.going hnew,
      h.trail.progress hname (fun _ => rfl) rfl rfl, hK' _ _ (later_update hname rfl) h.known⟩
  refine (spec_ensure fun _ h => h.left).bind fun _ => ?_
  refine (spec_ensure fun _ h => h.left).bind fun _ => ?_
  refine (walkImports_spec hp hS hload depth hnew hfinds _ hK hm fun _ hi => hi).bind fun _ => ?_
  refine (spec_ensure fun _ h => h.left).bind fun _ => ?_
  cases file.tls with
  | absent => exact spec_pure fun _ h => h
  | malformed => exact spec_fail fun _ h => h.left
  | unwritable => exact hslot.bind fun _ => spec_fail fun _ h => h.left
  | present => exact hslot

theorem mapModule_spec (h : At env p S stack K q) (hK : Lasting K) (hfinds : S.finds name file) :
    Spec (fun r => r = q.push (q.fresh name file)) (mapModule (q.fresh name file) file)
      (fun _ => At env p S (q.nextId :: stack) fun r => K r ∧ Named r name q.nextId file.exports)
      (Left env p S) := by
  rintro _ rfl
  have htrail := trail_push h.going.grow h.trail hfinds
  have hname : ∀ m : Module, SameName m { m with base := file.base } := fun m =>
    ⟨rfl, rfl, rfl, rfl, fun _ he => he⟩
  have hbase : ∀ {r}, r.modules = ((q.push (q.fresh name file)).update q.nextId
        fun m => { m with base := file.base }).modules →
      r.linked = q.linked → Trail env p S r ∧ Later (q.push (q.fresh name file)) r := fun hm hlinked =>
    ⟨htrail.progress hname (fun _ => rfl) hm hlinked, later_update hname hm⟩
  unfold mapModule
  by_cases hno : file.mapping = .noBase ∨ file.base = 0 ∨ file.base ∈ (q.push (q.fresh name file)).mapped
  · rw [if_pos hno]
    exact run_error ⟨⟨grow_push h.going.grow name file, bases_push h.going.bases⟩, htrail⟩
  · rw [if_neg hno]
    obtain ⟨hsome, hzero, hfree⟩ := not_or.1 hno |>.imp id not_or.1
    have hmapped := hbase (r := mapImage q.nextId file.base (q.push (q.fresh name file))) rfl rfl
    cases hmap : file.mapping with
    | noBase => exact absurd hmap hsome
    | unmapped =>
      refine run_error ⟨⟨grow_setBase h.going.grow rfl (Nat.le_refl _) rfl, ?_⟩, (hbase rfl rfl).1⟩
      exact bases_setBase h.going.grow h.going.bases hfree rfl (.inl rfl)
    | part => exact run_error ⟨(going_mapImage h.going hfree hzero).failed, hmapped.1⟩
    | whole =>
      refine run_ok ⟨going_mapImage h.going hfree hzero, hmapped.1, ?_, hmapped.2.named ?_⟩
      · exact hK _ _ hmapped.2 (hK _ _ (later_push q _) h.known)
      · exact ⟨_, mem_cons_self, rfl, rfl, rfl, rfl⟩

theorem loadModuleFile_spec (hp : Tidy p) (hS : S.Closed env p) (hload : ∀ stack, LoadOk env p S stack load)
    (hK : Lasting K) (depth : Nat) (hfinds : S.finds name file) :
    Spec (At env p S stack K) (loadModuleFile env load depth name file)
      (fun m => At env p S stack fun q => K q ∧ Named q name m.id m.exports) (Left env p S) := by
  intro q hq
  unfold loadModuleFile
  by_cases hacc : ¬file.accessible
  · rw [if_pos hacc]
    exact run_error hq.left
  rw [if_neg hacc]
  by_cases hparse : ¬file.parses
  · rw [if_pos hparse]
    exact run_error hq.left
  rw [if_neg hparse]
  have hnew : p.nextId ≤ (q.fresh name file).id := hq.going.grow.next
  have hK₁ : Lasting fun r => K r ∧ Named r name (q.fresh name file).id (q.fresh name file).exports :=
    fun q q' hl h => ⟨hK q q' hl h.1, hl.named h.2⟩
  have hbody : Spec (fun r => r = q.push (q.fresh name file))
      (do
        mapModule (q.fresh name file) file
        linkModule env load depth (q.fresh name file) file
        modify (complete (q.fresh name file).id)
        pure (q.fresh name file) : Load Module)
      (fun m => At env p S stack fun q => K q ∧ Named q name m.id m.exports) (Left env p S) := by
    refine (mapModule_spec hq hK hfinds).bind fun _ => ?_
    refine (linkModule_spec hp hS (hload _) hK₁ depth (fun _ h => h.2) hnew hfinds).bind fun _ => ?_
    refine Spec.bind (Q := fun _ => At env p S stack fun r => K r ∧
      Named r name (q.fresh name file).id (q.fresh name file).exports) ?_ fun _ => spec_pure fun _ h => h
    refine spec_modify fun r h => ?_
    have hname : ∀ m : Module, SameName m { m with state := .linked, completion := r.initCounter + 1 } :=
      fun m => ⟨rfl, rfl, rfl, rfl, fun _ he => he⟩
    refine ⟨going_complete h.going hnew, ?_, hK₁ _ _ (later_update hname rfl) h.known.1⟩
    refine h.trail.update hname rfl (fun m hm hid _ => .inr ⟨file, ?_⟩) fun e he => .inl he
    obtain ⟨m', hm', hid', hn, hexports, -⟩ := h.known.1.2
    obtain rfl := h.going.grow.tidy.unique hm hm' (hid.trans hid'.symm)
    exact ⟨hn ▸ hfinds, hexports, fun i hi => hid ▸ h.known.2 i hi⟩
  exact hbody _ rfl

theorem loadDll_spec (hp : Tidy p) (hS : S.Closed env p) (nest : Nat) :
    ∀ stack, LoadOk env p S stack (loadDll env nest) := by
  have hstep : ∀ nest, (∀ n, nest = n + 1 → ∀ stack, LoadOk env p S stack (loadDll env n)) →
      ∀ stack, LoadOk env p S stack (loadDll env nest) := by
    intro nest ih stack K hK depth n api sym hask q hq
    unfold loadDll
    cases hm : findModule q (env.baseName n) with
    | some m =>
      simp only
      by_cases hret : m.retiring
      · rw [if_pos hret]
        exact run_error hq.left
      · rw [if_neg hret]
        refine run_ok (hq.mono fun hk => ⟨hk, m, mem_of_find?_eq_some hm, rfl, ?_, rfl, ?_⟩)
        · exact of_decide_eq_true (find?_some hm :)
        · exact Bool.eq_false_iff.2 hret
    | none =>
      have hno : findModule p (env.baseName n) = none := by
        refine find?_eq_none.2 fun m₀ hm₀ hname => ?_
        obtain ⟨extra, hkept, -⟩ := hq.going.grow.keeps hp hm₀
        exact find?_eq_none.1 hm _ hkept hname
      by_cases hdepth : 24 < depth
      · rw [if_pos hdepth]
        exact run_error hq.left
      rw [if_neg hdepth]
      cases hfile : env.locateFile n api with
      | none => exact run_error hq.left
      | some file =>
        cases nest with
        | zero => exact run_error hq.left
        | succ k => exact loadModuleFile_spec hp hS (ih k rfl) hK depth (hS.found hask hno hfile) q hq
  induction nest with
  | zero => exact hstep 0 fun n h => by cases h
  | succ nest ih => exact hstep (nest + 1) fun n h => by cases h; exact ih

end Win98Modern.Loader
