import Win98Modern.Kernel64.RegistryBase

/-!
# The tree of keys

The keys form a tree below the root, with the children of each key in strict name order
(`Tree`).  Keys that were allocated and are not linked yet are the loose ones.  Linking a loose key
(`Tree.hang`) and cutting off a key with all that is below it (`Tree.cut`) keep the tree.
-/

namespace Win98Modern.Registry

open Function List

/-- The part of a key that places it in the tree. -/
structure Skel where
  name : Name
  parent : KeyId
  child : List KeyId
  deleted : Bool
  accountUid : UInt32
  accountRealm : Nat

def Key.skel (x : Key) : Skel where
  name := x.name
  parent := x.parent
  child := x.child
  deleted := x.deleted
  accountUid := x.accountUid
  accountRealm := x.accountRealm

/-- The keys form a tree below the root, apart from the loose ones in `L`. -/
structure Tree (s : St) (L : List KeyId) : Prop where
  kid : ∀ {k c}, c ∈ (s.key k).child →
    s.Live c ∧ (s.key c).parent = k ∧ (s.key c).deleted = false ∧ k < c
  home : ∀ {c}, (s.key c).parent ≠ 0 → c ∈ (s.key (s.key c).parent).child
  dead : ∀ {c}, (s.key c).deleted = true → (s.key c).parent = 0 ∧ (s.key c).child = []
  top : ∀ {c}, s.Live c → (s.key c).deleted = false → (s.key c).parent = 0 → c = s.root ∨ c ∈ L
  root : s.Live s.root ∧ (s.key s.root).deleted = false ∧ (s.key s.root).parent = 0 ∧ s.root ∉ L
  loose : ∀ {c}, c ∈ L →
    s.Live c ∧ (s.key c).parent = 0 ∧ (s.key c).child = [] ∧ (s.key c).deleted = false
  order : ∀ k, OrderedBy s.fname (s.key k).child
  addr : ¬s.Live 0

/-- Below an account hive every key carries its labels; the children of `USER` are keys of the
initial realm or account hives, which bear the identifier of their account. -/
structure Labels (s : St) : Prop where
  hive : ∀ {c}, c ∈ (s.key s.user).child → (s.key c).accountRealm = 1 ∨
    (s.key c).accountRealm = 2 ∧ (s.key c).name = accountSid (s.key c).accountUid
  inherit : ∀ {k c}, c ∈ (s.key k).child → k ≠ s.user →
    (s.key c).accountUid = (s.key k).accountUid ∧ (s.key c).accountRealm = (s.key k).accountRealm
  base : (s.key s.root).accountRealm = 0

section Skel

variable {s s' : St} {L : List KeyId} {j k c p : KeyId}

theorem skel_name (h : (s'.key k).skel = (s.key k).skel) : (s'.key k).name = (s.key k).name :=
  congrArg Skel.name h

theorem skel_parent (h : (s'.key k).skel = (s.key k).skel) : (s'.key k).parent = (s.key k).parent :=
  congrArg Skel.parent h

theorem skel_child (h : (s'.key k).skel = (s.key k).skel) : (s'.key k).child = (s.key k).child :=
  congrArg Skel.child h

theorem skel_deleted (h : (s'.key k).skel = (s.key k).skel) :
    (s'.key k).deleted = (s.key k).deleted :=
  congrArg Skel.deleted h

theorem skel_accountUid (h : (s'.key k).skel = (s.key k).skel) :
    (s'.key k).accountUid = (s.key k).accountUid :=
  congrArg Skel.accountUid h

theorem skel_accountRealm (h : (s'.key k).skel = (s.key k).skel) :
    (s'.key k).accountRealm = (s.key k).accountRealm :=
  congrArg Skel.accountRealm h

/-- The tree is a matter of names, pointers and flags. -/
theorem Tree.of_place (h : Tree s L) (hn : ∀ j, (s'.key j).name = (s.key j).name)
    (hp : ∀ j, (s'.key j).parent = (s.key j).parent) (hc : ∀ j, (s'.key j).child = (s.key j).child)
    (hd : ∀ j, (s'.key j).deleted = (s.key j).deleted) (hl : ∀ j, s'.Live j ↔ s.Live j)
    (hr : s'.root = s.root) : Tree s' L where
  kid := by
    intro k c hm
    rw [hc k] at hm
    rw [hl, hp c, hd c]
    exact h.kid hm
  home := by
    intro c hm
    rw [hp c] at hm ⊢
    rw [hc _]
    exact h.home hm
  dead := by
    intro c hm
    rw [hd c] at hm
    rw [hp c, hc c]
    exact h.dead hm
  top := by
    intro c hlive hdc hpc
    rw [hl] at hlive
    rw [hd c] at hdc
    rw [hp c] at hpc
    rw [hr]
    exact h.top hlive hdc hpc
  root := by
    rw [hr, hl, hd _, hp _]
    exact h.root
  loose := by
    intro c hm
    rw [hl, hp c, hc c, hd c]
    exact h.loose hm
  order := by
    intro k
    have hf : s'.fname = s.fname := funext fun c => congrArg fold (hn c)
    rw [hf, hc k]
    exact h.order k
  addr := fun h0 => h.addr ((hl 0).mp h0)

theorem Tree.congr (h : Tree s L) (hk : ∀ j, (s'.key j).skel = (s.key j).skel)
    (hl : ∀ j, s'.Live j ↔ s.Live j) (hr : s'.root = s.root) : Tree s' L :=
  h.of_place (fun j => skel_name (hk j)) (fun j => skel_parent (hk j)) (fun j => skel_child (hk j))
    (fun j => skel_deleted (hk j)) hl hr

theorem Tree.of_keys (h : Tree s L) (hk : s'.keys = s.keys) (hr : s'.root = s.root) : Tree s' L :=
  h.congr (fun j => by rw [key_congr hk]) (fun _ => live_congr hk) hr

theorem Tree.of_mem {L' : List KeyId} (h : Tree s L) (hL : ∀ c, c ∈ L' ↔ c ∈ L) : Tree s L' :=
  { h with
    top := fun hl hd hp => (h.top hl hd hp).imp id (hL _).mpr
    root := ⟨h.root.1, h.root.2.1, h.root.2.2.1, fun hm => h.root.2.2.2 ((hL _).mp hm)⟩
    loose := fun hm => h.loose ((hL _).mp hm) }

theorem Labels.congr (h : Labels s) (hk : ∀ j, (s'.key j).skel = (s.key j).skel)
    (hr : s'.root = s.root) (hu : s'.user = s.user) : Labels s' where
  hive := by
    intro c hc
    rw [hu, skel_child (hk _)] at hc
    rw [skel_accountRealm (hk c), skel_accountUid (hk c), skel_name (hk c)]
    exact h.hive hc
  inherit := by
    intro k c hc hne
    rw [skel_child (hk k)] at hc
    rw [hu] at hne
    rw [skel_accountUid (hk c), skel_accountUid (hk k), skel_accountRealm (hk c),
      skel_accountRealm (hk k)]
    exact h.inherit hc hne
  base := by
    rw [hr, skel_accountRealm (hk _)]
    exact h.base

theorem Labels.of_keys (h : Labels s) (hk : s'.keys = s.keys) (hr : s'.root = s.root)
    (hu : s'.user = s.user) : Labels s' :=
  h.congr (fun j => by rw [key_congr hk]) hr hu

variable {x : Key} {n : FName}

theorem put_skel (hx : x.skel = (s.key k).skel) : ((s.put k x).key j).skel = (s.key j).skel := by
  rw [key_put]
  split
  case isTrue h => rw [hx, h]
  case isFalse _ => rfl

theorem live_put_of_live (hk : s.Live k) : (s.put k x).Live j ↔ s.Live j := by
  rw [live_put]
  constructor
  · rintro (rfl | h)
    · exact hk
    · exact h
  · exact .inr

theorem Tree.put (h : Tree s L) (hl : s.Live k) (hx : x.skel = (s.key k).skel) :
    Tree (s.put k x) L :=
  h.congr (fun _ => put_skel hx) (fun _ => live_put_of_live hl) rfl

theorem Labels.put (h : Labels s) (hx : x.skel = (s.key k).skel) : Labels (s.put k x) :=
  h.congr (fun _ => put_skel hx) rfl rfl

theorem live_of_child (hc : c ∈ (s.key k).child) : s.Live k := by
  by_contra hl
  rw [St.key_of_not_live hl] at hc
  exact absurd hc not_mem_nil

theorem live_of_deleted (h : (s.key k).deleted = true) : s.Live k := by
  by_contra hl
  rw [St.key_of_not_live hl] at h
  exact absurd h nofun

theorem live_of_parent (h : (s.key k).parent ≠ 0) : s.Live k := by
  by_contra hl
  rw [St.key_of_not_live hl] at h
  exact absurd rfl h

theorem Tree.root_ne_zero (h : Tree s L) : s.root ≠ 0 := fun h0 => h.addr (h0 ▸ h.root.1)

theorem Tree.live_ne_zero (h : Tree s L) (hk : s.Live k) : k ≠ 0 := fun h0 => h.addr (h0 ▸ hk)

theorem Tree.kid_parent_ne (h : Tree s L) (hc : c ∈ (s.key k).child) : (s.key c).parent ≠ 0 := by
  rw [(h.kid hc).2.1]
  exact h.live_ne_zero (live_of_child hc)

theorem Tree.placed (h : Tree s L) (hk : s.Live k) (hd : (s.key k).deleted = false) (hL : k ∉ L) :
    k = s.root ∨ k ∈ (s.key (s.key k).parent).child := by
  by_cases hp : (s.key k).parent = 0
  · exact .inl ((h.top hk hd hp).resolve_right hL)
  · exact .inr (h.home hp)

/-- **The scan finds a child exactly when it is there.** -/
theorem Tree.lookup_eq_some (h : Tree s L) :
    s.lookup k n = some c ↔ c ∈ (s.key k).child ∧ s.fname c = n :=
  seek_eq_some (h.order k)

theorem Tree.lookup_eq_none (h : Tree s L) :
    s.lookup k n = none ↔ ∀ c ∈ (s.key k).child, s.fname c ≠ n :=
  seek_eq_none (h.order k)

theorem Tree.lookup_self (h : Tree s L) (hc : c ∈ (s.key k).child) : s.lookup k (s.fname c) = some c :=
  h.lookup_eq_some.mpr ⟨hc, rfl⟩

end Skel

/-! ### New keys -/

section New

variable {s : St} {L : List KeyId} {j k c : KeyId} {x : Key}

theorem Tree.alloc (h : Tree s L) (hk : ¬s.Live k) (hk0 : k ≠ 0) (hp : x.parent = 0)
    (hc : x.child = []) (hd : x.deleted = false) : Tree (s.put k x) (k :: L) where
  kid := by
    intro a b hb
    have hak : a ≠ k := by
      rintro rfl
      rw [key_put_self, hc] at hb
      exact absurd hb not_mem_nil
    rw [key_put_ne hak] at hb
    have hbk : b ≠ k := fun hbk => hk (hbk ▸ (h.kid hb).1)
    rw [live_put, key_put_ne hbk]
    exact ⟨.inr (h.kid hb).1, (h.kid hb).2⟩
  home := by
    intro a ha
    have hak : a ≠ k := by
      rintro rfl
      rw [key_put_self] at ha
      exact ha hp
    rw [key_put_ne hak] at ha ⊢
    have hpk : (s.key a).parent ≠ k := fun hpk => hk (hpk ▸ live_of_child (h.home ha))
    rw [key_put_ne hpk]
    exact h.home ha
  dead := by
    intro a ha
    have hak : a ≠ k := by
      rintro rfl
      rw [key_put_self, hd] at ha
      exact absurd ha nofun
    rw [key_put_ne hak] at ha ⊢
    exact h.dead ha
  top := by
    intro a hl hda hpa
    by_cases hak : a = k
    · exact .inr (hak ▸ mem_cons_self)
    · rw [key_put_ne hak] at hda hpa
      exact (h.top ((live_put.mp hl).resolve_left hak) hda hpa).imp id (mem_cons_of_mem k)
  root := by
    have hrk : s.root ≠ k := fun hrk => hk (hrk ▸ h.root.1)
    have hr := h.root
    refine ⟨live_put.mpr (.inr hr.1), ?_, ?_, ?_⟩
    · exact (congrArg Key.deleted (key_put_ne hrk)).trans hr.2.1
    · exact (congrArg Key.parent (key_put_ne hrk)).trans hr.2.2.1
    · exact fun hm => (mem_cons.mp hm).elim hrk hr.2.2.2
  loose := by
    intro a ha
    by_cases hak : a = k
    · rw [hak, key_put_self, live_put]
      exact ⟨.inl rfl, hp, hc, hd⟩
    · rw [live_put, key_put_ne hak]
      have ha' := h.loose ((mem_cons.mp ha).resolve_left hak)
      exact ⟨.inr ha'.1, ha'.2⟩
  order := by
    intro a
    by_cases hak : a = k
    · rw [hak, key_put_self, hc]
      exact orderedBy_nil
    · rw [key_put_ne hak]
      refine (h.order a).imp_of_mem fun {b d} hb hd hlt => ?_
      have hbk : b ≠ k := fun hbk => hk (hbk ▸ (h.kid hb).1)
      have hdk : d ≠ k := fun hdk => hk (hdk ▸ (h.kid hd).1)
      rwa [St.fname, St.fname, key_put_ne hbk, key_put_ne hdk]
  addr := fun h0 => (live_put.mp h0).elim (fun h0 => hk0 h0.symm) h.addr

theorem Tree.free (h : Tree s (k :: L)) (hkL : k ∉ L) : Tree (s.drop k) L := by
  have hk := h.loose mem_cons_self
  have hkid : ∀ {a b}, b ∈ (s.key a).child → b ≠ k := by
    rintro a b hb rfl
    exact h.kid_parent_ne hb hk.2.1
  have hup : ∀ {a}, (s.key a).parent ≠ 0 → (s.key a).parent ≠ k := by
    intro a ha hpk
    have hm := h.home ha
    rw [hpk, hk.2.2.1] at hm
    exact absurd hm not_mem_nil
  constructor
  case kid =>
    intro a b hb
    by_cases hak : a = k
    · rw [hak, key_drop_self] at hb
      exact absurd hb not_mem_nil
    · rw [key_drop_ne hak] at hb
      rw [live_drop, key_drop_ne (hkid hb)]
      exact ⟨⟨hkid hb, (h.kid hb).1⟩, (h.kid hb).2⟩
  case home =>
    intro a ha
    by_cases hak : a = k
    · rw [hak, key_drop_self] at ha
      exact absurd rfl ha
    · rw [key_drop_ne hak] at ha ⊢
      rw [key_drop_ne (hup ha)]
      exact h.home ha
  case dead =>
    intro a ha
    by_cases hak : a = k
    · rw [hak, key_drop_self] at ha
      exact absurd ha nofun
    · rw [key_drop_ne hak] at ha ⊢
      exact h.dead ha
  case top =>
    intro a hl hda hpa
    obtain ⟨hak, hl⟩ := live_drop.mp hl
    rw [key_drop_ne hak] at hda hpa
    exact (h.top hl hda hpa).imp id fun hm => (mem_cons.mp hm).resolve_left hak
  case root =>
    have hr := h.root
    have hrk : s.root ≠ k := fun hrk => hr.2.2.2 (hrk ▸ mem_cons_self)
    refine ⟨live_drop.mpr ⟨hrk, hr.1⟩, ?_, ?_, fun hm => hr.2.2.2 (mem_cons_of_mem k hm)⟩
    · exact (congrArg Key.deleted (key_drop_ne hrk)).trans hr.2.1
    · exact (congrArg Key.parent (key_drop_ne hrk)).trans hr.2.2.1
  case loose =>
    intro a ha
    have hak : a ≠ k := fun hak => hkL (hak ▸ ha)
    rw [live_drop, key_drop_ne hak]
    have ha' := h.loose (mem_cons_of_mem k ha)
    exact ⟨⟨hak, ha'.1⟩, ha'.2⟩
  case order =>
    intro a
    by_cases hak : a = k
    · rw [hak, key_drop_self]
      exact orderedBy_nil
    · rw [key_drop_ne hak]
      refine (h.order a).imp_of_mem fun {b d} hb hd hlt => ?_
      rwa [St.fname, St.fname, key_drop_ne (hkid hb), key_drop_ne (hkid hd)]
  case addr => exact fun h0 => h.addr (live_drop.mp h0).2

theorem Labels.alloc (h : Labels s) (hT : Tree s L) (hk : ¬s.Live k) (hc : x.child = []) :
    Labels (s.put k x) := by
  have hsame : ∀ {a b}, b ∈ ((s.put k x).key a).child →
      a ≠ k ∧ b ≠ k ∧ b ∈ (s.key a).child := by
    intro a b hb
    have hak : a ≠ k := by
      rintro rfl
      rw [key_put_self, hc] at hb
      exact absurd hb not_mem_nil
    rw [key_put_ne hak] at hb
    exact ⟨hak, fun hbk => hk (hbk ▸ (hT.kid hb).1), hb⟩
  constructor
  case hive =>
    intro c hc
    obtain ⟨-, hck, hc⟩ := hsame hc
    rw [key_put_ne hck]
    exact h.hive hc
  case inherit =>
    intro a b hb hne
    obtain ⟨hak, hbk, hb⟩ := hsame hb
    rw [key_put_ne hak, key_put_ne hbk]
    exact h.inherit hb hne
  case base =>
    have hrk : s.root ≠ k := fun hrk => hk (hrk ▸ hT.root.1)
    exact (congrArg Key.accountRealm (key_put_ne hrk)).trans h.base

theorem Labels.free (h : Labels s) (hT : Tree s (k :: L)) : Labels (s.drop k) := by
  have hk := hT.loose mem_cons_self
  have hsame : ∀ {a b}, b ∈ ((s.drop k).key a).child →
      a ≠ k ∧ b ≠ k ∧ b ∈ (s.key a).child := by
    intro a b hb
    have hak : a ≠ k := by
      rintro rfl
      rw [key_drop_self] at hb
      exact absurd hb not_mem_nil
    rw [key_drop_ne hak] at hb
    exact ⟨hak, fun hbk => hT.kid_parent_ne hb (hbk ▸ hk.2.1), hb⟩
  constructor
  case hive =>
    intro c hc
    obtain ⟨-, hck, hc⟩ := hsame hc
    rw [key_drop_ne hck]
    exact h.hive hc
  case inherit =>
    intro a b hb hne
    obtain ⟨hak, hbk, hb⟩ := hsame hb
    rw [key_drop_ne hak, key_drop_ne hbk]
    exact h.inherit hb hne
  case base =>
    have hrk : s.root ≠ k := fun hrk => hT.root.2.2.2 (hrk ▸ mem_cons_self)
    exact (congrArg Key.accountRealm (key_drop_ne hrk)).trans h.base

end New

/-! ### Linking -/

section Hang

variable {e : Env} {s : St} {L : List KeyId} {j p c : KeyId}

theorem hang_key_child (hne : c ≠ p) : (hang e s p c).key c = { s.key c with
    parent := p
    accountUid := (s.key p).accountUid
    accountRealm := if p = s.user then 1 else (s.key p).accountRealm } := by
  simp only [hang, key_put_self, key_put_ne hne, put_rest]

theorem hang_key_parent (hne : c ≠ p) : (hang e s p c).key p = { s.key p with
    child := insertOrd s.fname c (s.key p).child
    nsubkeys := (s.key p).nsubkeys + 1
    lastWrite := e.now } := by
  simp only [hang, key_put_ne hne.symm, key_put_self, linkInto_eq]

theorem hang_key_ne (hc : j ≠ c) (hp : j ≠ p) : (hang e s p c).key j = s.key j := by
  simp only [hang, key_put_ne hc, key_put_ne hp]

theorem hang_live : (hang e s p c).Live j ↔ j = c ∨ j = p ∨ s.Live j := by
  simp only [hang, live_put]

theorem hang_name (hne : c ≠ p) (j : KeyId) : ((hang e s p c).key j).name = (s.key j).name := by
  by_cases hjc : j = c
  · rw [hjc, hang_key_child hne]
  · by_cases hjp : j = p
    · rw [hjp, hang_key_parent hne]
    · rw [hang_key_ne hjc hjp]

theorem hang_deleted (hne : c ≠ p) (j : KeyId) :
    ((hang e s p c).key j).deleted = (s.key j).deleted := by
  by_cases hjc : j = c
  · rw [hjc, hang_key_child hne]
  · by_cases hjp : j = p
    · rw [hjp, hang_key_parent hne]
    · rw [hang_key_ne hjc hjp]

theorem hang_parent_ne (hne : c ≠ p) (hjc : j ≠ c) :
    ((hang e s p c).key j).parent = (s.key j).parent := by
  by_cases hjp : j = p
  · rw [hjp, hang_key_parent hne]
  · rw [hang_key_ne hjc hjp]

theorem hang_child_ne (hne : c ≠ p) (hjp : j ≠ p) :
    ((hang e s p c).key j).child = (s.key j).child := by
  by_cases hjc : j = c
  · rw [hjc, hang_key_child hne]
  · rw [hang_key_ne hjc hjp]

theorem hang_fname (hne : c ≠ p) : (hang e s p c).fname = s.fname :=
  funext fun j => congrArg fold (hang_name hne j)

variable {a b : KeyId}

theorem mem_hang_child (hne : c ≠ p) :
    b ∈ ((hang e s p c).key a).child ↔ b ∈ (s.key a).child ∨ b = c ∧ a = p := by
  by_cases hap : a = p
  · subst hap
    rw [hang_key_parent hne, mem_insertOrd]
    exact ⟨fun h => h.symm.imp id fun h => ⟨h, rfl⟩, fun h => h.symm.imp And.left id⟩
  · rw [hang_child_ne hne hap]
    exact ⟨.inl, fun h => h.resolve_right fun h => hap h.2⟩

theorem Tree.loose_free (h : Tree s L) (hc : c ∈ L) (hb : b ∈ (s.key a).child) : b ≠ c ∧ a ≠ c := by
  constructor
  · rintro rfl
    exact h.kid_parent_ne hb (h.loose hc).2.1
  · rintro rfl
    rw [(h.loose hc).2.2.1] at hb
    exact absurd hb not_mem_nil

theorem Tree.hang (h : Tree s (c :: L)) (hcL : c ∉ L) (hp : s.Live p)
    (hpd : (s.key p).deleted = false) (hpL : p ∉ L) (hpc : p < c)
    (hnew : ∀ d ∈ (s.key p).child, s.fname d ≠ s.fname c) : Tree (hang e s p c) L := by
  have hne : c ≠ p := Nat.ne_of_gt hpc
  have hc := h.loose mem_cons_self
  have hp0 : p ≠ 0 := h.live_ne_zero hp
  constructor
  case kid =>
    intro a b hb
    rcases (mem_hang_child hne).mp hb with hb | ⟨rfl, rfl⟩
    · have hbc := (h.loose_free mem_cons_self hb).1
      rw [hang_live, hang_parent_ne hne hbc, hang_deleted hne]
      exact ⟨.inr (.inr (h.kid hb).1), (h.kid hb).2⟩
    · rw [hang_live, hang_deleted hne, hang_key_child hne]
      exact ⟨.inl rfl, rfl, hc.2.2.2, hpc⟩
  case home =>
    intro a ha
    by_cases hac : a = c
    · rw [hac, hang_key_child hne]
      exact (mem_hang_child hne).mpr (.inr ⟨rfl, rfl⟩)
    · rw [hang_parent_ne hne hac] at ha ⊢
      exact (mem_hang_child hne).mpr (.inl (h.home ha))
  case dead =>
    intro a ha
    rw [hang_deleted hne] at ha
    have hac : a ≠ c := by
      rintro rfl
      rw [hc.2.2.2] at ha
      exact absurd ha nofun
    have hap : a ≠ p := by
      rintro rfl
      rw [hpd] at ha
      exact absurd ha nofun
    rw [hang_key_ne hac hap]
    exact h.dead ha
  case top =>
    intro a hl hda hpa
    rw [hang_deleted hne] at hda
    have hac : a ≠ c := by
      rintro rfl
      rw [hang_key_child hne] at hpa
      exact hp0 hpa
    rw [hang_parent_ne hne hac] at hpa
    have hl : s.Live a := by
      rcases hang_live.mp hl with hl | rfl | hl
      · exact absurd hl hac
      · exact hp
      · exact hl
    exact (h.top hl hda hpa).imp id fun hm => (mem_cons.mp hm).resolve_left hac
  case root =>
    have hr := h.root
    have hrc : s.root ≠ c := fun hrc => hr.2.2.2 (hrc ▸ mem_cons_self)
    refine ⟨hang_live.mpr (.inr (.inr hr.1)), (hang_deleted hne _).trans hr.2.1, ?_, ?_⟩
    · exact (hang_parent_ne hne hrc).trans hr.2.2.1
    · exact fun hm => hr.2.2.2 (mem_cons_of_mem c hm)
  case loose =>
    intro a ha
    have hac : a ≠ c := fun hac => hcL (hac ▸ ha)
    have hap : a ≠ p := fun hap => hpL (hap ▸ ha)
    rw [hang_live, hang_key_ne hac hap]
    have ha' := h.loose (mem_cons_of_mem c ha)
    exact ⟨.inr (.inr ha'.1), ha'.2⟩
  case order =>
    intro a
    rw [hang_fname hne]
    by_cases hap : a = p
    · rw [hap, hang_key_parent hne]
      exact (h.order p).insert hnew
    · rw [hang_child_ne hne hap]
      exact h.order a
  case addr =>
    intro h0
    rcases hang_live.mp h0 with h0 | h0 | h0
    · exact h.live_ne_zero hc.1 h0.symm
    · exact hp0 h0.symm
    · exact h.addr h0

theorem Labels.hang (hB : Labels s) (h : Tree s (c :: L)) (hpc : p < c) : Labels (hang e s p c) := by
  have hne : c ≠ p := Nat.ne_of_gt hpc
  have huid : ∀ {a}, a ≠ c → ((Registry.hang e s p c).key a).accountUid = (s.key a).accountUid ∧
      ((Registry.hang e s p c).key a).accountRealm = (s.key a).accountRealm := by
    intro a hac
    by_cases hap : a = p
    · rw [hap, hang_key_parent hne]
      exact ⟨rfl, rfl⟩
    · rw [hang_key_ne hac hap]
      exact ⟨rfl, rfl⟩
  constructor
  case hive =>
    intro a ha
    rcases (mem_hang_child hne).mp ha with ha | ⟨rfl, hu⟩
    · have hac := (h.loose_free mem_cons_self ha).1
      rw [hang_name hne, (huid hac).1, (huid hac).2]
      exact hB.hive ha
    · rw [hang_key_child hne]
      exact .inl (if_pos hu.symm)
  case inherit =>
    intro a b hb hau
    rcases (mem_hang_child hne).mp hb with hb | ⟨rfl, rfl⟩
    · obtain ⟨hbc, hac⟩ := h.loose_free mem_cons_self hb
      rw [(huid hbc).1, (huid hbc).2, (huid hac).1, (huid hac).2]
      exact hB.inherit hb hau
    · rw [hang_key_child hne, (huid hne.symm).1, (huid hne.symm).2]
      exact ⟨rfl, if_neg hau⟩
  case base =>
    have hrc : s.root ≠ c := fun hrc => h.root.2.2.2 (hrc ▸ mem_cons_self)
    exact (huid hrc).2.trans hB.base

end Hang

/-! ### Cutting off -/

/-- `j` is `k` or below it. -/
def Below (s : St) (k j : KeyId) : Prop :=
  Relation.ReflTransGen (fun a b => b ∈ (s.key a).child) k j

/-- `s'` is `s` with the child `k` of `p` cut off: the keys of `S` that are left are deleted ones. -/
structure CutOff (s s' : St) (p k : KeyId) (S : KeyId → Prop) : Prop where
  part : k ∈ (s.key p).child
  self : S k
  down : ∀ {a b}, S a → b ∈ (s.key a).child → S b
  into : ∀ {a b}, ¬S a → b ∈ (s.key a).child → S b → b = k
  stay : ¬S p
  root : ¬S s.root
  live : ∀ {j}, s'.Live j → s.Live j
  keep : ∀ {j}, ¬S j → s.Live j → s'.Live j
  same : ∀ {j}, ¬S j → j ≠ p → (s'.key j).skel = (s.key j).skel
  chain : (s'.key p).skel = { (s.key p).skel with child := (s.key p).child.erase k }
  gone : ∀ {j}, S j → s'.Live j →
    (s'.key j).parent = 0 ∧ (s'.key j).child = [] ∧ (s'.key j).deleted = true
  fixed : ∀ {j}, ¬S j → (s'.key j).fixed = (s.key j).fixed
  rootEq : s'.root = s.root

section Cut

variable {s s' : St} {L : List KeyId} {S : KeyId → Prop} {j p k a b c : KeyId}

namespace CutOff

theorem name (h : CutOff s s' p k S) (hj : ¬S j) : (s'.key j).name = (s.key j).name := by
  by_cases hjp : j = p
  · rw [hjp]
    exact congrArg Skel.name h.chain
  · exact skel_name (h.same hj hjp)

theorem parent (h : CutOff s s' p k S) (hj : ¬S j) : (s'.key j).parent = (s.key j).parent := by
  by_cases hjp : j = p
  · rw [hjp]
    exact congrArg Skel.parent h.chain
  · exact skel_parent (h.same hj hjp)

theorem deleted (h : CutOff s s' p k S) (hj : ¬S j) : (s'.key j).deleted = (s.key j).deleted := by
  by_cases hjp : j = p
  · rw [hjp]
    exact congrArg Skel.deleted h.chain
  · exact skel_deleted (h.same hj hjp)

theorem accountUid (h : CutOff s s' p k S) (hj : ¬S j) :
    (s'.key j).accountUid = (s.key j).accountUid := by
  by_cases hjp : j = p
  · rw [hjp]
    exact congrArg Skel.accountUid h.chain
  · exact skel_accountUid (h.same hj hjp)

theorem accountRealm (h : CutOff s s' p k S) (hj : ¬S j) :
    (s'.key j).accountRealm = (s.key j).accountRealm := by
  by_cases hjp : j = p
  · rw [hjp]
    exact congrArg Skel.accountRealm h.chain
  · exact skel_accountRealm (h.same hj hjp)

theorem mem_child (h : CutOff s s' p k S) (hT : Tree s L) :
    b ∈ (s'.key a).child ↔ ¬S a ∧ b ∈ (s.key a).child ∧ b ≠ k := by
  by_cases ha : S a
  · constructor
    · intro hb
      by_cases hl : s'.Live a
      · rw [(h.gone ha hl).2.1] at hb
        exact absurd hb not_mem_nil
      · rw [St.key_of_not_live hl] at hb
        exact absurd hb not_mem_nil
    · exact fun hb => absurd ha hb.1
  · by_cases hap : a = p
    · subst hap
      have hc : (s'.key a).child = (s.key a).child.erase k := congrArg Skel.child h.chain
      rw [hc, (hT.order a).nodup.mem_erase_iff]
      exact ⟨fun hb => ⟨ha, hb.2, hb.1⟩, fun hb => ⟨hb.2.2, hb.2.1⟩⟩
    · rw [skel_child (h.same ha hap)]
      refine ⟨fun hb => ⟨ha, hb, ?_⟩, fun hb => hb.2.1⟩
      rintro rfl
      exact hap ((hT.kid hb).2.1.symm.trans (hT.kid h.part).2.1)

theorem child_out (h : CutOff s s' p k S) (hT : Tree s L) (hb : b ∈ (s'.key a).child) : ¬S b := by
  obtain ⟨ha, hb, hbk⟩ := (h.mem_child hT).mp hb
  exact fun hSb => hbk (h.into ha hb hSb)

end CutOff

theorem CutOff.not_loose (h : CutOff s s' p k S) (hT : Tree s L) (hS : ∀ {j}, S j → Below s k j)
    (hj : S j) : j ∉ L := by
  intro hm
  rcases (hS hj).cases_tail with rfl | ⟨a, -, ha⟩
  · exact (hT.loose_free hm h.part).1 rfl
  · exact (hT.loose_free hm ha).1 rfl

theorem Tree.cut (hT : Tree s L) (h : CutOff s s' p k S) (hS : ∀ {j}, S j → Below s k j) :
    Tree s' L := by
  constructor
  case kid =>
    intro a b hb
    have hSb := h.child_out hT hb
    obtain ⟨ha, hb, hbk⟩ := (h.mem_child hT).mp hb
    rw [h.parent hSb, h.deleted hSb]
    exact ⟨h.keep hSb (hT.kid hb).1, (hT.kid hb).2⟩
  case home =>
    intro c hc
    have hSc : ¬S c := by
      intro hSc
      by_cases hl : s'.Live c
      · exact hc (h.gone hSc hl).1
      · exact hl (live_of_parent hc)
    rw [h.parent hSc] at hc ⊢
    have hm := hT.home hc
    refine (h.mem_child hT).mpr ⟨fun hp => hSc (h.down hp hm), hm, ?_⟩
    rintro rfl
    exact hSc h.self
  case dead =>
    intro c hc
    by_cases hSc : S c
    · exact ⟨(h.gone hSc (live_of_deleted hc)).1, (h.gone hSc (live_of_deleted hc)).2.1⟩
    · rw [h.deleted hSc] at hc
      rw [h.parent hSc]
      refine ⟨(hT.dead hc).1, ?_⟩
      have hcp : c ≠ p := by
        rintro rfl
        have hm := h.part
        rw [(hT.dead hc).2] at hm
        exact absurd hm not_mem_nil
      rw [skel_child (h.same hSc hcp)]
      exact (hT.dead hc).2
  case top =>
    intro c hl hd hp
    have hSc : ¬S c := by
      intro hSc
      rw [(h.gone hSc hl).2.2] at hd
      exact absurd hd nofun
    rw [h.deleted hSc] at hd
    rw [h.parent hSc] at hp
    rw [h.rootEq]
    exact hT.top (h.live hl) hd hp
  case root =>
    have hr := hT.root
    rw [h.rootEq, h.deleted h.root, h.parent h.root]
    exact ⟨h.keep h.root hr.1, hr.2⟩
  case loose =>
    intro c hc
    have hSc : ¬S c := fun hSc => h.not_loose hT hS hSc hc
    have hcp : c ≠ p := fun hcp => (hT.loose_free hc h.part).2 hcp.symm
    rw [h.parent hSc, h.deleted hSc, skel_child (h.same hSc hcp)]
    exact ⟨h.keep hSc (hT.loose hc).1, (hT.loose hc).2⟩
  case order =>
    intro a
    have hout : ∀ b ∈ (s'.key a).child, s'.fname b = s.fname b := fun b hb =>
      congrArg fold (h.name (h.child_out hT hb))
    have hord : OrderedBy s.fname (s'.key a).child := by
      by_cases ha : S a
      · by_cases hl : s'.Live a
        · rw [(h.gone ha hl).2.1]
          exact orderedBy_nil
        · rw [St.key_of_not_live hl]
          exact orderedBy_nil
      · by_cases hap : a = p
        · have hc : (s'.key p).child = (s.key p).child.erase k := congrArg Skel.child h.chain
          rw [hap, hc]
          exact (hT.order p).sublist erase_sublist
        · rw [skel_child (h.same ha hap)]
          exact hT.order a
    refine hord.imp_of_mem fun {b d} hb hd hlt => ?_
    rwa [hout b hb, hout d hd]
  case addr => exact fun h0 => hT.addr (h.live h0)

theorem Labels.cut (hB : Labels s) (hT : Tree s L) (h : CutOff s s' p k S)
    (hu : s'.user = s.user) : Labels s' := by
  constructor
  case hive =>
    intro c hc
    have hSc := h.child_out hT hc
    rw [hu] at hc
    rw [h.name hSc, h.accountUid hSc, h.accountRealm hSc]
    exact hB.hive ((h.mem_child hT).mp hc).2.1
  case inherit =>
    intro a c hc hne
    have hSc := h.child_out hT hc
    obtain ⟨hSa, hc, -⟩ := (h.mem_child hT).mp hc
    rw [hu] at hne
    rw [h.accountUid hSc, h.accountRealm hSc, h.accountUid hSa, h.accountRealm hSa]
    exact hB.inherit hc hne
  case base =>
    rw [h.rootEq, h.accountRealm h.root]
    exact hB.base

end Cut

/-! ### Retirement -/

section Retire

variable {e : Env} {s s' : St} {j k a c d : KeyId}

theorem bury_keys : (bury s k).keys =
    update s.keys k (if (s.key k).refs = 0 then none else some (s.key k).emptied) := by
  rw [bury_eq]
  split <;> rfl

theorem bury_key_ne (h : j ≠ k) : (bury s k).key j = s.key j := by
  rw [St.key, bury_keys, update_of_ne h, St.key]

theorem bury_live_ne (h : j ≠ k) : (bury s k).Live j ↔ s.Live j := by
  rw [St.Live, bury_keys, update_of_ne h, St.Live]

@[simp] theorem bury_rest : (bury s k).root = s.root ∧ (bury s k).machine = s.machine ∧
    (bury s k).user = s.user ∧ (bury s k).seeded = s.seeded ∧ (bury s k).notify = s.notify ∧
    (bury s k).notifyCount = s.notifyCount ∧ (bury s k).done = s.done ∧
    (bury s k).registered = s.registered ∧ (bury s k).objects = s.objects ∧
    (bury s k).next = s.next := by
  rw [bury_eq]
  split <;> exact ⟨rfl, rfl, rfl, rfl, rfl, rfl, rfl, rfl, rfl, rfl⟩

/-- What retirement makes of a key. -/
def Key.retired (x : Key) : Key :=
  { x.emptied with child := [], parent := 0, nsubkeys := 0, deleted := true }

def retired (o : Option Key) : Option Key := (o.filter fun x => x.refs ≠ 0).map Key.retired

theorem retireNode_keys (hk : s.Live k) :
    (retireNode e s k).keys = update s.keys k (retired (s.keys k)) := by
  have hr : retired (s.keys k) =
      if (s.key k).refs = 0 then none else some (s.key k).retired := by
    rw [hk.keys, retired]
    split
    case isTrue h => rw [Option.filter_some_neg (by simpa using h)]; rfl
    case isFalse h => rw [Option.filter_some_pos (by simpa using h)]; rfl
  rw [retireNode, bury_keys, key_put_self, keys_put, update_idem, hr]
  simp only [notifyDropKey, notifySweep_rest, notifySweep_key]
  rfl

@[simp] theorem retireNode_rest : (retireNode e s k).root = s.root ∧
    (retireNode e s k).machine = s.machine ∧ (retireNode e s k).user = s.user ∧
    (retireNode e s k).seeded = s.seeded ∧ (retireNode e s k).registered = s.registered ∧
    (retireNode e s k).objects = s.objects ∧ (retireNode e s k).next = s.next := by
  simp [retireNode, notifyDropKey]

/-- Below `k` the chains have no repetitions and agree with the parent pointers, and children are
younger than their parents. -/
def Grown (s : St) (k : KeyId) : Prop :=
  ∀ a, Below s k a → (s.key a).child.Nodup ∧
    ∀ c ∈ (s.key a).child, s.Live c ∧ (s.key c).parent = a ∧ a < c

theorem Below.trans (h : Below s k a) (h' : Below s a j) : Below s k j :=
  Relation.ReflTransGen.trans h h'

theorem Below.child (h : Below s k a) (hc : c ∈ (s.key a).child) : Below s k c :=
  Relation.ReflTransGen.tail h hc

theorem below_child (hc : c ∈ (s.key k).child) : Below s k c := Relation.ReflTransGen.single hc

theorem Grown.of_child (h : Grown s k) (hc : c ∈ (s.key k).child) : Grown s c :=
  fun a ha => h a ((below_child hc).trans ha)

theorem Grown.le (h : Grown s k) (hj : Below s k j) : k ≤ j := by
  induction hj with
  | refl => exact Nat.le_refl k
  | tail ha hc ih => exact Nat.le_trans ih (Nat.le_of_lt ((h _ ha).2 _ hc).2.2)

theorem Below.congr (h : ∀ a, Below s k a → (s'.key a).child = (s.key a).child) :
    Below s' k j ↔ Below s k j := by
  constructor
  · intro hj
    induction hj with
    | refl => exact Relation.ReflTransGen.refl
    | tail _ hc ih =>
      rw [h _ ih] at hc
      exact ih.child hc
  · intro hj
    induction hj with
    | refl => exact Relation.ReflTransGen.refl
    | tail ha hc ih =>
      rw [← h _ ha] at hc
      exact Below.child ih hc

theorem Grown.congr (h : Grown s k) (hk : ∀ a, Below s k a → s'.keys a = s.keys a) :
    Grown s' k := by
  have hkey : ∀ a, Below s k a → s'.key a = s.key a := fun a ha => by rw [St.key, hk a ha, St.key]
  have hb : ∀ a, Below s' k a ↔ Below s k a := fun a =>
    Below.congr fun b hb => congrArg Key.child (hkey b hb)
  intro a ha
  rw [hb] at ha
  rw [hkey a ha]
  refine ⟨(h a ha).1, fun c hc => ?_⟩
  have hbc := ha.child hc
  rw [St.Live, hk c hbc, hkey c hbc]
  exact (h a ha).2 c hc

theorem Grown.disjoint (h : Grown s k) (hc : c ∈ (s.key k).child) (hd : d ∈ (s.key k).child)
    (hcj : Below s c j) (hdj : Below s d j) : c = d := by
  have hk := h k Relation.ReflTransGen.refl
  have hkc := hk.2 c hc
  have hkd := hk.2 d hd
  induction hcj with
  | refl =>
    rcases hdj.cases_tail with hcd | ⟨a, ha, hca⟩
    · exact hcd
    · have hak : a = k := ((h a ((below_child hd).trans ha)).2 c hca).2.1.symm.trans hkc.2.1
      have hle := (h.of_child hd).le ha
      exact absurd (hak ▸ hle) (Nat.not_le.mpr hkd.2.2)
  | @tail a b ha hb ih =>
    rcases hdj.cases_tail with rfl | ⟨a', ha', hb'⟩
    · have hak : a = k := ((h a ((below_child hc).trans ha)).2 _ hb).2.1.symm.trans hkd.2.1
      have hle := (h.of_child hc).le ha
      exact absurd (hak ▸ hle) (Nat.not_le.mpr hkc.2.2)
    · have haa : a = a' := ((h a ((below_child hc).trans ha)).2 _ hb).2.1.symm.trans
        ((h a' ((below_child hd).trans ha')).2 _ hb').2.1
      exact ih (haa ▸ ha')

/-- What retiring the keys of `S` comes to, with a property `P` that each step keeps. -/
structure Retires (P : St → Prop) (s s' : St) (S : KeyId → Prop) : Prop where
  within : ∀ {j}, S j → s'.keys j = retired (s.keys j)
  outside : ∀ {j}, ¬S j → s'.keys j = s.keys j
  next : s'.next = s.next
  keeps : P s → P s'

variable {P : St → Prop}

theorem Retires.live {S : KeyId → Prop} (h : Retires P s s' S) (hj : s'.Live j) : s.Live j := by
  by_cases hS : S j
  · rw [St.Live, h.within hS] at hj
    by_contra hl
    rw [Option.not_isSome_iff_eq_none.mp hl] at hj
    cases hj
  · rwa [St.Live, h.outside hS] at hj

theorem Retires.children {fuel : Nat}
    (ih : ∀ s k, Grown s k → s.Live k → (∀ j, s.Live j → j < s.next) → s.next ≤ k + fuel →
      Retires P s (retireLegacy e fuel s k) (Below s k)) (h : Grown s k)
    (hlt : ∀ j, s.Live j → j < s.next) (hf : s.next ≤ k + (fuel + 1)) :
    ∀ ds : List KeyId, ds.Nodup → (∀ d ∈ ds, d ∈ (s.key k).child) →
      Retires P s (ds.foldl (fun s c => retireLegacy e fuel s c) s)
        fun j => ∃ d ∈ ds, Below s d j := by
  intro ds
  have hk := h k Relation.ReflTransGen.refl
  induction ds using List.reverseRecOn with
  | nil =>
    intro _ _
    constructor
    case within => exact fun h => absurd h.choose_spec.1 not_mem_nil
    case outside => exact fun _ => rfl
    case next => rfl
    case keeps => exact id
  | append_singleton ds d ihd =>
    intro hnd hsub
    rw [← concat_eq_append, nodup_concat] at hnd
    obtain ⟨hdnot, hnd⟩ := hnd
    have hd : d ∈ (s.key k).child := hsub d (mem_append_right ds mem_cons_self)
    have hsub : ∀ d ∈ ds, d ∈ (s.key k).child := fun d hd => hsub d (mem_append_left _ hd)
    have hold := ihd hnd hsub
    -- the part below `d` is untouched so far
    have hsame : ∀ j, Below s d j →
        (ds.foldl (fun s c => retireLegacy e fuel s c) s).keys j = s.keys j := by
      intro j hj
      refine hold.outside ?_
      rintro ⟨d', hd', hj'⟩
      exact hdnot (h.disjoint hd (hsub d' hd') hj hj' ▸ hd')
    have hkey : ∀ j, Below s d j →
        ((ds.foldl (fun s c => retireLegacy e fuel s c) s).key j).child = (s.key j).child :=
      fun j hj => by rw [St.key, hsame j hj, St.key]
    have hbelow : ∀ j, Below (ds.foldl (fun s c => retireLegacy e fuel s c) s) d j ↔
        Below s d j := fun j => Below.congr hkey
    have hstep := ih (ds.foldl (fun s c => retireLegacy e fuel s c) s) d
      ((h.of_child hd).congr hsame)
      (by rw [St.Live, hsame d Relation.ReflTransGen.refl]; exact (hk.2 d hd).1)
      (fun j hj => hold.next ▸ hlt j (hold.live hj))
      (by
        have hkd : @LT.lt Nat _ k d := (hk.2 d hd).2.2
        rw [hold.next]
        omega)
    rw [foldl_append]
    constructor
    case within =>
      rintro j ⟨d', hd', hj⟩
      rcases mem_append.mp hd' with hd' | hd'
      · have hnot : ¬Below s d j := fun hj' => hdnot (h.disjoint hd (hsub d' hd') hj' hj ▸ hd')
        exact (hstep.outside fun hj' => hnot ((hbelow j).mp hj')).trans (hold.within ⟨d', hd', hj⟩)
      · obtain rfl := mem_singleton.mp hd'
        rw [← hsame j hj]
        exact hstep.within ((hbelow j).mpr hj)
    case outside =>
      intro j hj
      have hnot : ¬Below s d j := fun hj' =>
        hj ⟨d, mem_append_right ds mem_cons_self, hj'⟩
      refine (hstep.outside fun hj' => hnot ((hbelow j).mp hj')).trans (hold.outside ?_)
      rintro ⟨d', hd', hj'⟩
      exact hj ⟨d', mem_append_left _ hd', hj'⟩
    case next => exact hstep.next.trans hold.next
    case keeps => exact fun hP => hstep.keeps (hold.keeps hP)

theorem retireLegacy_retires (hP : ∀ s k, s.Live k → P s → P (retireNode e s k)) (fuel : Nat) :
    ∀ s k, Grown s k → s.Live k → (∀ j, s.Live j → j < s.next) → s.next ≤ k + fuel →
      Retires P s (retireLegacy e fuel s k) (Below s k) := by
  induction fuel with
  | zero => exact fun s k _ hl hlt hf => absurd (hlt k hl) (Nat.not_lt.mpr hf)
  | succ fuel ih =>
    intro s k h hl hlt hf
    have hk := h k Relation.ReflTransGen.refl
    have hall := Retires.children ih h hlt hf (s.key k).child hk.1 fun d hd => hd
    rw [retireLegacy]
    -- the key itself is below none of its children
    have hself : ¬∃ d ∈ (s.key k).child, Below s d k := by
      rintro ⟨d, hd, hkd⟩
      exact absurd ((h.of_child hd).le hkd) (Nat.not_le.mpr (hk.2 d hd).2.2)
    have hkeep := hall.outside hself
    have hlive : ((s.key k).child.foldl (fun s c => retireLegacy e fuel s c) s).Live k := by
      rw [St.Live, hkeep]
      exact hl
    constructor
    case within =>
      intro j hj
      rw [retireNode_keys hlive]
      by_cases hjk : j = k
      · rw [hjk, update_self, hkeep]
      · rw [update_of_ne hjk]
        refine hall.within ?_
        rcases Relation.ReflTransGen.cases_head hj with rfl | ⟨d, hd, hdj⟩
        · exact absurd rfl hjk
        · exact ⟨d, hd, hdj⟩
    case outside =>
      intro j hj
      rw [retireNode_keys hlive]
      have hjk : j ≠ k := by
        rintro rfl
        exact hj Relation.ReflTransGen.refl
      rw [update_of_ne hjk]
      refine hall.outside ?_
      rintro ⟨d, hd, hdj⟩
      exact hj ((below_child hd).trans hdj)
    case next => exact retireNode_rest.2.2.2.2.2.2.trans hall.next
    case keeps => exact fun hs => hP _ k hlive (hall.keeps hs)

end Retire

end Win98Modern.Registry
