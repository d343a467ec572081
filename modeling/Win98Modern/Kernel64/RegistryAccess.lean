import Win98Modern.Kernel64.RegistryView

/-!
# The isolation of accounts

A path that `reg_authorize_path` lets an ordinary account through leads into the hive of the
account, or to a key of `MACHINE` that is only read, and nothing outside the hive is touched but for
the chain of `USER` when the hive is made (`authorize_isolates`).
-/

namespace Win98Modern.Registry

open List Option

/-- A key of the account hive of `uid`. -/
def InHive (s : St) (uid : UInt32) (k : KeyId) : Prop :=
  ∃ c, findChild s s.user (accountSid uid) = some c ∧ (s.key c).accountRealm = 2 ∧
    (s.key c).accountUid = uid ∧ Below s c k

/-- A key at the name of the account, whatever its realm, or below it. -/
def AtSid (s : St) (uid : UInt32) (k : KeyId) : Prop :=
  ∃ c, findChild s s.user (accountSid uid) = some c ∧ Below s c k

/-- A key with another chain of children. -/
def Relists (x y : Key) : Prop :=
  y = { x with child := y.child, nsubkeys := y.nsubkeys, lastWrite := y.lastWrite }

/-- Nothing but the name of the account below `USER` is touched. -/
structure Confined (s s' : St) (uid : UInt32) : Prop where
  same : ∀ j, s.Live j → j ≠ s.user → ¬AtSid s uid j → s'.keys j = s.keys j
  user : Relists (s.key s.user) (s'.key s.user)
  others : ∀ name, nameCmp name (accountSid uid) ≠ .eq →
    findChild s' s.user name = findChild s s.user name
  made : ∀ j, s'.Live j → ¬s.Live j → InHive s' uid j
  again : (∃ c, findChild s s.user (accountSid uid) = some c ∧ (s.key c).accountRealm = 2 ∧
    (s.key c).accountUid = uid) → s'.keys s.user = s.keys s.user

theorem Relists.refl (x : Key) : Relists x x := rfl

theorem Relists.trans {x y z : Key} (h : Relists x y) (h' : Relists y z) : Relists x z := by
  rw [Relists] at h h' ⊢
  rw [h', h]

theorem Relists.name {x y : Key} (h : Relists x y) : y.name = x.name := by
  rw [h]

theorem Relists.accountUid {x y : Key} (h : Relists x y) : y.accountUid = x.accountUid := by
  rw [h]

theorem Relists.accountRealm {x y : Key} (h : Relists x y) : y.accountRealm = x.accountRealm := by
  rw [h]

/-! ### What a walk changes -/

section Walks

variable {e : Env} {s s' : St} {L : List KeyId} {k k' c j a b : KeyId} {name cls : Name} {vol : Bool}
  {ns : List Name} {create : Bool}

theorem Grow.tail (hg : Grow e create s k (name :: ns) s' k') (hfind : findChild s k name = some c) :
    Grow e create s c ns s' k' := by
  cases hg with
  | found hfind' rest => exact some.inj (hfind.symm.trans hfind') ▸ rest
  | made _ _ _ hnone => exact absurd (hfind.symm.trans hnone) nofun

theorem plant_keys_ne (hj : j ≠ s.next) (hjk : j ≠ k) :
    (plant e s k name cls vol).keys j = s.keys j := by
  rw [plant, linkChild_keys, hang, keys_put, Function.update_of_ne hj, keys_put,
    Function.update_of_ne hjk, fresh_keys, Function.update_of_ne hj]

theorem plant_relists (hk : k ≠ s.next) (hj : j ≠ s.next) :
    Relists (s.key j) ((plant e s k name cls vol).key j) := by
  by_cases hjk : j = k
  · subst hjk
    rw [plant, linkChild_key, hang_key_parent hk.symm, fresh_key_ne hk]
    rfl
  · rw [plant_key_ne hj hjk]
    exact Relists.refl _

theorem Below.mono (h : ∀ {a b}, b ∈ (s.key a).child → b ∈ (s'.key a).child) (hb : Below s a b) :
    Below s' a b :=
  Relation.ReflTransGen.mono (fun _ _ hc => h hc) _ _ hb

theorem plant_below (hk : k ≠ s.next) (hn : ¬s.Live s.next) (hb : Below s a b) :
    Below (plant e s k name cls vol) a b := by
  refine hb.mono fun {c d} hd => ?_
  rw [mem_plant_child hk]
  have hc : c ≠ s.next := fun hc => hn (hc ▸ live_of_child hd)
  rw [fresh_key_ne hc]
  exact .inl hd

/-- What resolving leaves alone: all keys but those from `k` down, and of these all but the chains. -/
structure Walked (s s' : St) (k k' : KeyId) : Prop where
  same : ∀ {j}, s.Live j → ¬Below s k j → s'.keys j = s.keys j
  relists : ∀ {j}, s.Live j → s'.Live j ∧ Relists (s.key j) (s'.key j)
  made : ∀ {j}, s'.Live j → s.Live j ∨ Below s' k j
  below : ∀ {a b}, Below s a b → Below s' a b
  goal : Below s' k k'

theorem Core.walked (h : Core s []) (hk : s.Open k) (hg : Grow e create s k ns s' k') :
    Walked s s' k k' := by
  induction hg with
  | nil s k =>
    exact ⟨fun _ _ => rfl, fun hj => ⟨hj, Relists.refl _⟩, .inl, id, Relation.ReflTransGen.refl⟩
  | found hfind _ ih =>
    have w := ih h (h.open_of_find hfind)
    rw [findChild_eq] at hfind
    have hc := below_child (h.tree.lookup_eq_some.mp hfind).1
    exact ⟨fun hj hb => w.same hj fun hcj => hb (hc.trans hcj), w.relists,
      fun hj => (w.made hj).imp id fun hb => (w.below hc).trans hb, w.below, (w.below hc).trans w.goal⟩
  | @made s s' k k' name ns cls vol _ hfind _ hq _ ih =>
    have hne : k ≠ s.next := Nat.ne_of_lt (h.ledger.addr hk.1).2
    have hplant := h.plant (e := e) hk hfind hq
    have w := ih hplant (plant_open_self hne)
    have hold : ∀ {j}, s.Live j → j ≠ s.next := fun hj hjn => h.not_live_next (hjn ▸ hj)
    have hkeep : ∀ {a b}, Below s a b → Below (Registry.plant e s k name cls vol) a b :=
      plant_below hne h.not_live_next
    have hnext : Below (Registry.plant e s k name cls vol) k s.next :=
      below_child ((mem_plant_child hne).mpr (.inr ⟨rfl, rfl⟩))
    have hlive : ∀ {j}, s.Live j → (Registry.plant e s k name cls vol).Live j := fun hj =>
      (plant_live hk.1).mpr (.inr hj)
    constructor
    case same =>
      intro j hj hb
      have hjk : j ≠ k := fun hjk => hb (hjk ▸ Relation.ReflTransGen.refl)
      rw [w.same (hlive hj) fun hbn => ?_, plant_keys_ne (hold hj) hjk]
      exact absurd (h.ledger.addr hj).2 (Nat.not_lt.mpr (hplant.tree.below_le hbn))
    case relists =>
      intro j hj
      obtain ⟨hl, hr⟩ := w.relists (hlive hj)
      exact ⟨hl, (plant_relists hne (hold hj)).trans hr⟩
    case made =>
      intro j hj
      rcases w.made hj with hj | hj
      · rcases (plant_live hk.1).mp hj with rfl | hj
        · exact .inr (w.below hnext)
        · exact .inl hj
      · exact .inr ((w.below hnext).trans hj)
    case below => exact fun hb => w.below (hkeep hb)
    case goal => exact (w.below hnext).trans w.goal

end Walks

/-! ### What provisioning changes -/

section Provision

variable {e : Env} {s s' t : St} {L : List KeyId} {k c j f en sw : KeyId} {name : Name}
  {uid : UInt32}

theorem Confined.refl (s : St) : Confined s s uid :=
  ⟨fun _ _ _ _ => rfl, Relists.refl _, fun _ _ => rfl, fun _ hj hn => absurd hj hn, fun _ => rfl⟩

theorem Retired.old (h : Core s []) (hret : Retired (drafted e s uid) t k)
    (hk : k ∈ (s.key s.user).child) (hj : s.Live j) (hju : j ≠ s.user) (hb : ¬Below s k j) :
    t.keys j = s.keys j := by
  have hsame : Below (drafted e s uid) k j ↔ Below s k j := by
    refine Below.congr fun a ha => ?_
    have hal := h.tree.below_live (h.tree.kid hk).1 ha
    rw [St.key, h.old_key hal, ← St.key]
  rw [hret.outside (fun hd => hb (hsame.mp hd)) hju, h.old_key hj]

/-- The chain of `USER` after a provisioning: the new hive, and what has another name. -/
theorem Loose.mem_user (h : Loose s uid f en sw) : j ∈ ((settle e s uid f en sw).key s.user).child ↔
    j = f ∨ j ∈ (s.key s.user).child := by
  rw [h.settle_user]
  exact mem_insertOrd

theorem Loose.relists_user (h : Loose s uid f en sw) :
    Relists (s.key s.user) ((settle e s uid f en sw).key s.user) := by
  rw [h.settle_user]
  rfl

theorem Core.old_user (h : Core s []) (hH : Hives s) :
    (drafted e s uid).key s.user = s.key s.user := by
  rw [St.key, h.old_key (hH.user_open h.tree).1.1, ← St.key]

/-- The keys before the new hive comes: the old hive of the account, if any, is off its chain. -/
structure Cleared (e : Env) (s t : St) (uid : UInt32) : Prop where
  keys : ∀ {j}, s.Live j → j ≠ s.user → ¬AtSid s uid j → t.keys j = s.keys j
  relists : Relists (s.key s.user) (t.key s.user)
  child : ∀ {d}, d ∈ (t.key s.user).child ↔
    d ∈ (s.key s.user).child ∧ s.fname d ≠ fold (accountSid uid)
  live : ∀ {j}, t.Live j → (drafted e s uid).Live j

theorem cleared_none (h : Core s []) (hH : Hives s)
    (hfind : findChild s s.user (accountSid uid) = none) : Cleared e s (drafted e s uid) uid := by
  rw [findChild_eq] at hfind
  refine ⟨fun hj _ _ => h.old_key hj, ?_, fun {d} => ?_, id⟩
  · rw [h.old_user hH]
    exact Relists.refl _
  · rw [h.old_user hH]
    exact ⟨fun hd => ⟨hd, h.tree.lookup_eq_none.mp hfind d hd⟩, And.left⟩

theorem cleared_retired (h : Core s []) (hH : Hives s) (hd : Core (drafted e s uid) L)
    (hfind : findChild s s.user (accountSid uid) = some k) (hret : Retired (drafted e s uid) t k) :
    Cleared e s t uid := by
  have hk := hfind
  rw [findChild_eq] at hk
  obtain ⟨hmem, hname⟩ := h.tree.lookup_eq_some.mp hk
  have hu := hret.user
  rw [drafted_anchored.user, h.old_user hH] at hu
  refine ⟨fun hj hju hb => hret.old h hmem hj hju fun hkj => hb ⟨k, hfind, hkj⟩, ?_, fun {d} => ?_,
    fun hj => (hret.cutOff hd.tree ?_).live hj⟩
  · rw [hu]
    rfl
  · rw [hu]
    show d ∈ (s.key s.user).child.erase k ↔ _
    rw [(h.tree.order _).nodup.mem_erase_iff]
    exact ⟨fun hd => ⟨hd.2, fun hn => hd.1 ((h.tree.order _).inj hd.2 hmem (hn.trans hname.symm))⟩,
      fun hd => ⟨fun hdk => hd.2 (hdk ▸ hname), hd.1⟩⟩
  · rw [drafted_anchored.user, h.old_user hH]
    exact hmem

/-- A sibling is not at the name of the account. -/
theorem Core.not_atSid (h : Core s []) (hj : j ∈ (s.key s.user).child)
    (hne : s.fname j ≠ fold (accountSid uid)) : ¬AtSid s uid j := by
  rintro ⟨k, hk, hb⟩
  rw [findChild_eq] at hk
  obtain ⟨hk, hkn⟩ := h.tree.lookup_eq_some.mp hk
  by_cases hjk : j = k
  · exact hne (hjk ▸ hkn)
  · have hp := h.tree.below_parent hb hjk
    rw [(h.tree.kid hj).2.1] at hp
    exact absurd (h.tree.below_le hp) (Nat.not_le.mpr (h.tree.kid hk).2.2.2)

theorem Cleared.kept (hc : Cleared e s t uid) (h : Core s []) (htu : t.user = s.user) (hj : s.Live j)
    (hju : j ≠ s.user) (hb : ¬AtSid s uid j) :
    (settle e t uid s.next (s.next + 1) (s.next + 2)).keys j = s.keys j := by
  obtain ⟨h0, h1, h2⟩ := h.old_ne hj
  rw [settle_keys_ne (htu ▸ hju) h0 h1 h2, hc.keys hj hju hb]

theorem Cleared.others (hc : Cleared e s t uid) (h : Core s []) (htu : t.user = s.user)
    (hL : Loose t uid s.next (s.next + 1) (s.next + 2)) (hne : fold name ≠ fold (accountSid uid)) :
    findChild (settle e t uid s.next (s.next + 1) (s.next + 2)) s.user name =
      findChild s s.user name := by
  have hsname : ∀ {d}, d ∈ (s.key s.user).child → s.fname d ≠ fold (accountSid uid) →
      (settle e t uid s.next (s.next + 1) (s.next + 2)).fname d = s.fname d := by
    intro d hd hdn
    have hdu : d ≠ s.user := Nat.ne_of_gt (h.tree.kid hd).2.2.2
    rw [St.fname, St.key, hc.kept h htu (h.tree.kid hd).1 hdu (h.not_atSid hd hdn), ← St.key,
      ← St.fname]
  rw [findChild_eq, findChild_eq]
  refine Option.ext fun x => ?_
  rw [hL.core_settle.tree.lookup_eq_some, h.tree.lookup_eq_some, ← htu, hL.mem_user, htu, hc.child]
  constructor
  · rintro ⟨rfl | ⟨hx, hxn⟩, hn⟩
    · rw [St.fname, hL.settle_f] at hn
      exact absurd (hn.symm.trans (congrArg fold hL.fname)) hne
    · exact ⟨hx, (hsname hx hxn).symm.trans hn⟩
  · rintro ⟨hx, hn⟩
    have hxn : s.fname x ≠ fold (accountSid uid) := fun hxn => hne (hn.symm.trans hxn)
    exact ⟨.inr ⟨hx, hxn⟩, (hsname hx hxn).trans hn⟩

theorem Loose.found (hL : Loose t uid s.next (s.next + 1) (s.next + 2)) :
    findChild (settle e t uid s.next (s.next + 1) (s.next + 2)) t.user (accountSid uid) =
      some s.next := by
  rw [findChild_eq, hL.core_settle.tree.lookup_eq_some]
  refine ⟨hL.mem_user.mpr (.inl rfl), ?_⟩
  rw [St.fname, hL.settle_f]
  exact congrArg fold hL.fname

theorem Cleared.made (hc : Cleared e s t uid) (hus : s.Live s.user) (htu : t.user = s.user)
    (hL : Loose t uid s.next (s.next + 1) (s.next + 2))
    (hj : (settle e t uid s.next (s.next + 1) (s.next + 2)).Live j) (hjs : ¬s.Live j) :
    InHive (settle e t uid s.next (s.next + 1) (s.next + 2)) uid j := by
  have hsu := hL.settle_f (e := e)
  have hnew : j = s.next ∨ j ∈ [s.next + 1, s.next + 2] := by
    by_contra hnot
    simp only [mem_cons, not_mem_nil, or_false, not_or] at hnot
    obtain ⟨h0, h1, h2⟩ := hnot
    have hju : j ≠ s.user := fun hju => hjs (hju ▸ hus)
    rw [St.Live, settle_keys_ne (htu ▸ hju) h0 h1 h2] at hj
    have hjd := hc.live hj
    rw [St.Live, drafted_key_ne h0 h1 h2] at hjd
    exact hjs hjd
  refine ⟨s.next, hL.steady_settle.user.symm ▸ hL.found, by rw [hsu], by rw [hsu], ?_⟩
  rcases hnew with rfl | hx
  · exact Relation.ReflTransGen.refl
  · refine below_child ?_
    rw [hsu]
    exact hx

theorem provisionUser_confined (h : Core s []) (hH : Hives s)
    (hst : (provisionUser e s uid).1 = .success) :
    Confined s (provisionUser e s uid).2 uid ∧
      ∃ c, findChild (provisionUser e s uid).2 s.user (accountSid uid) = some c ∧
        ((provisionUser e s uid).2.key c).accountRealm = 2 ∧
        ((provisionUser e s uid).2.key c).accountUid = uid ∧
        ((provisionUser e s uid).2 = s ∨ s.next ≤ c) := by
  rcases provisionUser_cases (e := e) h hH uid with
    ⟨k, hfind, hr, hu, heq⟩ | ⟨s', heq, -⟩ | ⟨t, ht, hL, hd, hs, heq⟩
  · rw [heq]
    exact ⟨Confined.refl s, k, hfind, hr, hu, .inl rfl⟩
  · rw [heq] at hst
    cases hst
  have htu : t.user = s.user := hs.user
  have hsu := hL.settle_f (e := e)
  have hc : Cleared e s t uid := by
    rcases ht with ⟨hnone, rfl⟩ | ⟨k, hfind, hret⟩
    · exact cleared_none h hH hnone
    · exact cleared_retired h hH hd hfind hret
  have hagain : (∃ c, findChild s s.user (accountSid uid) = some c ∧ (s.key c).accountRealm = 2 ∧
      (s.key c).accountUid = uid) → provisionUser e s uid = (.success, s) := fun hex => if_pos hex
  rw [heq] at hagain ⊢
  refine ⟨⟨fun j hj hju hb => hc.kept h htu hj hju hb, hc.relists.trans (htu ▸ hL.relists_user),
    fun name hname => hc.others h htu hL fun hn => hname (nameCmp_eq_eq.mpr hn),
    fun j hj hjs => hc.made (hH.user_open h.tree).1.1 htu hL hj hjs, fun hex => ?_⟩,
    s.next, htu ▸ hL.found, by rw [hsu], by rw [hsu], .inr (Nat.le_refl _)⟩
  exact congrArg (fun x => St.keys x s.user) (Prod.mk.inj (hagain hex)).2

end Provision

/-! ### What an authorization says -/

section Authorize

variable {e : Env} {s s' : St} {p : ProcId} {sub : Subject} {k c a start : KeyId} {name path : Name}
  {access : UInt32} {create : Bool}

theorem Core.below_user (h : Core s []) (hk : s.Open k) (hr : (s.key k).accountRealm ≠ 0) :
    ∃ c ∈ (s.key s.user).child, Below s c k := by
  induction k using Nat.strongRecOn with
  | ind k ih =>
    rcases h.tree.placed hk.1 hk.2 not_mem_nil with rfl | hm
    · exact absurd h.labels.base hr
    · by_cases hpu : (s.key k).parent = s.user
      · exact ⟨k, hpu ▸ hm, Relation.ReflTransGen.refl⟩
      · have hpo : s.Open (s.key k).parent := by
          refine ⟨live_of_child hm, ?_⟩
          by_contra hd
          rw [(h.tree.dead (by simpa using hd)).2] at hm
          exact absurd hm not_mem_nil
        have hpr := (h.labels.inherit hm hpu).2
        obtain ⟨c, hc, hb⟩ := ih _ (h.tree.kid hm).2.2.2 hpo (hpr ▸ hr)
        exact ⟨c, hc, hb.child hm⟩

theorem Tree.below_ancestorsFrom (hT : Tree s []) (fuel : Nat) {k : KeyId}
    (ha : a ∈ s.ancestorsFrom fuel k) : Below s a k := by
  induction fuel generalizing k with
  | zero => exact absurd ha not_mem_nil
  | succ fuel ih =>
    rw [St.ancestorsFrom] at ha
    split at ha
    case isTrue => exact absurd ha not_mem_nil
    case isFalse hp =>
      have hm := hT.home hp
      rcases mem_cons.mp ha with rfl | ha
      · exact below_child hm
      · exact (ih ha).child hm

theorem Tree.below_topOf (hT : Tree s []) : Below s (topOf s k) k := by
  rw [topOf]
  cases hf : (k :: s.ancestors k).find?
      (fun a => (s.key a).parent == 0 || (s.key a).parent == s.root) with
  | none => exact Relation.ReflTransGen.refl
  | some a =>
    rcases mem_cons.mp (mem_of_find?_eq_some hf) with rfl | ha
    · exact Relation.ReflTransGen.refl
    · exact hT.below_ancestorsFrom k ha

/-- What the policy lets an ordinary account do. -/
theorem regAccessNode_success (hsub : e.subject p = some (sub, true))
    (hna : registryAdmin sub = false) (h : regAccessNode e s p k access = .success) :
    (s.key k).accountRealm = 2 ∧ (s.key k).accountUid = sub.uid ∧ 0x2000 ≤ sub.integrity ∨
      (s.key k).accountRealm ≠ 2 ∧ topOf s k = s.machine ∧ access &&& regWriteRights = 0 := by
  rw [regAccessNode, hsub] at h
  simp only [hna, Bool.false_eq_true, false_or, if_false] at h
  split at h
  case isTrue => cases h
  split at h
  case isTrue hr =>
    split at h
    case isTrue hu => exact .inl ⟨hr, hu⟩
    case isFalse => cases h
  case isFalse hr =>
    split at h
    case isTrue ht => exact .inr ⟨hr, ht⟩
    case isFalse => cases h

theorem no_write (h : (access ||| if create then keyCreateSubKey else 0) &&& regWriteRights = 0) :
    access &&& regWriteRights = 0 ∧ create = false := by
  have hdist : ∀ x y : UInt32, (x ||| y) &&& regWriteRights =
      (x &&& regWriteRights) ||| (y &&& regWriteRights) := by
    intro x y
    rw [← UInt32.toBitVec_inj]
    ext i
    simp [Bool.and_or_distrib_right]
  rw [hdist, UInt32.or_eq_zero_iff] at h
  refine ⟨h.1, ?_⟩
  cases create with
  | false => rfl
  | true => exact absurd h.2 (by decide)

theorem checkAuthorized_ne_success (cs : List (Name × Bool)) :
    ∀ depth, checkAuthorized depth cs ≠ some .success := by
  induction cs with
  | nil => exact fun _ => nofun
  | cons c rest ih =>
    intro depth
    rw [checkAuthorized]
    split
    · exact nofun
    split
    · exact nofun
    split
    · exact nofun
    split
    · exact nofun
    · exact ih _

/-- Below `USER` only the name of the account lets it pass; elsewhere the access decides. -/
theorem authorizeAt_success (h : Core s []) (hsub : e.subject p = some (sub, true))
    (hna : registryAdmin sub = false) {a : KeyId} {cs : List (Name × Bool)} {acc : UInt32}
    (hst : (authorizeAt e s p sub a cs acc).1 = .success) :
    (∃ name last rest, cs = (name, last) :: rest ∧ a = s.user ∧
      authorizeAt e s p sub a cs acc = provisionUser e s sub.uid ∧ 0x2000 ≤ sub.integrity ∧
      nameCmp name (accountSid sub.uid) = .eq) ∨
    (authorizeAt e s p sub a cs acc).2 = s ∧ regAccessNode e s p a acc = .success := by
  cases cs with
  | nil => exact .inr ⟨rfl, hst⟩
  | cons c rest =>
    obtain ⟨name, last⟩ := c
    by_cases hau : a = s.user
    case neg =>
      rw [authorizeAt, if_neg hau] at hst ⊢
      exact .inr ⟨rfl, hst⟩
    rw [authorizeAt, if_pos hau] at hst ⊢
    by_cases hown : nameCmp name (accountSid sub.uid) = .eq
    case pos =>
      rw [if_pos hown] at hst ⊢
      by_cases hint : ¬registryAdmin sub = true ∧ sub.integrity < 0x2000
      case pos =>
        rw [if_pos hint] at hst
        cases hst
      rw [if_neg hint]
      have hint : 0x2000 ≤ sub.integrity := by simpa [hna] using hint
      exact .inl ⟨name, last, rest, rfl, hau, rfl, hint, hown⟩
    rw [if_neg hown] at hst
    cases hfind : findChild s s.user name with
    | none =>
      rw [hfind] at hst
      cases hst
    | some c =>
      rw [hfind] at hst
      by_cases hr : (s.key c).accountRealm = 2
      case neg =>
        simp only [ne_eq, hr, not_false_eq_true, if_true] at hst
        cases hst
      -- a hive of the account has its name
      exfalso
      simp only [ne_eq, hr, not_true_eq_false, if_false] at hst
      rw [findChild_eq] at hfind
      obtain ⟨hc, hn⟩ := h.tree.lookup_eq_some.mp hfind
      rcases h.labels.hive hc with h1 | ⟨-, hname⟩
      · exact absurd (hr.symm.trans h1) (by decide)
      rcases regAccessNode_success hsub hna hst with ⟨-, hu, -⟩ | ⟨hr', -⟩
      · refine hown (nameCmp_eq_eq.mpr ?_)
        rw [← hn, St.fname, hname, hu]
      · exact hr' hr

/-- **What it takes to be authorized**: the way leads to the name of the account below `USER`, and
its hive is there or made; or the access to a key on the way is granted, and nothing happens. -/
theorem regAuthorizePath_success (h : Core s []) (hsub : e.subject p = some (sub, true))
    (hna : registryAdmin sub = false)
    (hauth : (regAuthorizePath e s p start path access create).1 = .success) :
    (∃ name rest, regAuthorizePath e s p start path access create = provisionUser e s sub.uid ∧
      0x2000 ≤ sub.integrity ∧ nameCmp name (accountSid sub.uid) = .eq ∧
      (start = s.user ∧ (components path).map Prod.fst = name :: rest ∨
        start = s.root ∧ ∃ u, findChild s s.root u = some s.user ∧
          (components path).map Prod.fst = u :: name :: rest)) ∨
    (regAuthorizePath e s p start path access create).2 = s ∧
      ∃ a, regAccessNode e s p a (access ||| if create then keyCreateSubKey else 0) = .success ∧
        (start = a ∨ start = s.root ∧ ∃ name rest, findChild s s.root name = some a ∧
          (components path).map Prod.fst = name :: rest) := by
  rw [regAuthorizePath, hsub] at hauth ⊢
  simp only at hauth ⊢
  by_cases htr : (trimmed path).getLast? = some backslash
  · rw [if_pos htr] at hauth
    cases hauth
  rw [if_neg htr] at hauth ⊢
  cases hck : checkAuthorized (keyDepth s start) (components path) with
  | some st =>
    rw [hck] at hauth
    obtain rfl : st = .success := hauth
    exact absurd hck (checkAuthorized_ne_success _ _)
  | none =>
    rw [hck] at hauth
    cases hcs : components path with
    | nil =>
      rw [hcs] at hauth
      rcases authorizeAt_success h hsub hna hauth with ⟨name, last, rest, heq, -⟩ | ⟨hs, hacc⟩
      · cases heq
      · exact .inr ⟨hs, start, hacc, .inl rfl⟩
    | cons c rest =>
      obtain ⟨u, last⟩ := c
      rw [hcs] at hauth
      simp only at hauth ⊢
      by_cases hroot : start = s.root
      case neg =>
        rw [if_neg hroot] at hauth ⊢
        rcases authorizeAt_success h hsub hna hauth with ⟨name, last', rest', heq, hu, hpr, hint, hown⟩ | ⟨hs, hacc⟩
        · obtain ⟨hc, rfl⟩ := List.cons.inj heq
          refine .inl ⟨name, rest.map Prod.fst, hpr, hint, hown, .inl ⟨hu, ?_⟩⟩
          rw [hc, map_cons]
        · exact .inr ⟨hs, start, hacc, .inl rfl⟩
      case pos =>
        rw [if_pos hroot] at hauth ⊢
        cases hfind : findChild s s.root u with
        | none =>
          rw [hfind] at hauth
          cases hauth
        | some a =>
          rw [hfind] at hauth
          rcases authorizeAt_success h hsub hna hauth with ⟨name, last', rest', rfl, hu, hpr, hint, hown⟩ | ⟨hs, hacc⟩
          · refine .inl ⟨name, rest'.map Prod.fst, hpr, hint, hown,
              .inr ⟨hroot, u, hu ▸ hfind, rfl⟩⟩
          · exact .inr ⟨hs, a, hacc, .inr ⟨hroot, u, _, hfind, rfl⟩⟩

end Authorize

/-! ### Isolation -/

section Isolation

variable {e e' : Env} {s s₁ s' : St} {p : ProcId} {sub : Subject} {k c a start : KeyId} {path : Name}
  {access : UInt32} {create made : Bool} {uid : UInt32} {r : Request}

theorem Walked.in_hive (h : Core s []) (w : Walked s s' a k) (hu : s'.user = s.user)
    (hfind : findChild s s.user (accountSid uid) = some c) (hr : (s.key c).accountRealm = 2)
    (hacc : (s.key c).accountUid = uid) (ha : Below s c a) :
    (∀ j, Below s' c j → InHive s' uid j) ∧ Confined s s' uid := by
  have hl := hfind
  rw [findChild_eq] at hl
  obtain ⟨hc, hn⟩ := h.tree.lookup_eq_some.mp hl
  have hkid := h.tree.kid hc
  have hua : ¬Below s a s.user := fun hb =>
    absurd (h.tree.below_le (ha.trans hb)) (Nat.not_le.mpr hkid.2.2.2)
  have huser : s'.keys s.user = s.keys s.user := w.same (live_of_child hc) hua
  have hchild : (s'.key s.user).child = (s.key s.user).child := by
    rw [St.key, huser, ← St.key]
  have hsame : ∀ name, findChild s' s.user name = findChild s s.user name := by
    intro name
    rw [findChild_eq, findChild_eq, St.lookup, St.lookup, hchild]
    exact seek_congr fun d hd => congrArg fold (w.relists (h.tree.kid hd).1).2.name
  have hin : ∀ j, Below s' c j → InHive s' uid j := by
    intro j hj
    have hrel := (w.relists hkid.1).2
    refine ⟨c, ?_, hrel.accountRealm.trans hr, hrel.accountUid.trans hacc, hj⟩
    rw [hu, hsame, hfind]
  refine ⟨hin, ?_, ?_, fun name _ => hsame name, ?_, fun _ => huser⟩
  · exact fun j hj _ hat => w.same hj fun hb => hat ⟨c, hfind, ha.trans hb⟩
  · rw [St.key, St.key, huser]
    exact Relists.refl _
  · exact fun j hj hjs => hin j ((w.below ha).trans ((w.made hj).resolve_left hjs))

theorem Confined.trans (h : Core s []) (h₁ : Core s₁ []) (hs : Confined s s₁ uid)
    (hs' : Confined s₁ s' uid) (hu : s₁.user = s.user)
    (hfind : findChild s₁ s.user (accountSid uid) = some c) (hnew : s₁ = s ∨ s.next ≤ c)
    (hin : ∀ j, InHive s₁ uid j → InHive s' uid j) (huser : s'.keys s.user = s₁.keys s.user) :
    Confined s s' uid := by
  rcases hnew with rfl | hnew
  · exact hs'
  constructor
  case same =>
    intro j hj hju hat
    have hk := hs.same j hj hju hat
    rw [hs'.same j (by rwa [St.Live, hk]) (hu ▸ hju), hk]
    rintro ⟨d, hd, hb⟩
    rw [hu, hfind] at hd
    obtain rfl := some.inj hd
    exact absurd (Nat.le_trans hnew (h₁.tree.below_le hb)) (Nat.not_le.mpr (h.ledger.addr hj).2)
  case user => exact hs.user.trans (hu ▸ hs'.user)
  case others => exact fun name hn => (hu ▸ hs'.others name hn).trans (hs.others name hn)
  case made =>
    intro j hj hjs
    by_cases hj₁ : s₁.Live j
    · exact hin j (hs.made j hj₁ hjs)
    · exact hs'.made j hj hj₁
  case again => exact fun hex => huser.trans (hs.again hex)

theorem regResolve_ok (h : Core s []) (hstart : s.Live start)
    (hres : regResolve e s start path r = (.ok (k, made), s')) :
    s.Open start ∧ Grow e r.create s start ((components path).map Prod.fst) s' k := by
  rcases regResolve_grow (e := e) h hstart path r with
    ⟨k', m, t, heq, ho, hg⟩ | ⟨st, t, heq, -⟩
  · obtain ⟨hk, rfl⟩ := Prod.mk.inj (heq.symm.trans hres)
    obtain ⟨rfl, -⟩ := Prod.mk.inj (Except.ok.inj hk)
    exact ⟨ho, hg⟩
  · exact absurd (Prod.mk.inj (heq.symm.trans hres)).1 nofun

/-- The own hive, made or found, and the way below it. -/
theorem isolates_own (h : Core s []) (hH : Hives s) {name : Name} {rest : List Name}
    (hst : (provisionUser e s uid).1 = .success) (hname : nameCmp name (accountSid uid) = .eq)
    (hway : start = s.user ∧ (components path).map Prod.fst = name :: rest ∨
      start = s.root ∧ ∃ u, findChild s s.root u = some s.user ∧
        (components path).map Prod.fst = u :: name :: rest)
    (hres : regResolve e' (provisionUser e s uid).2 start path r = (.ok (k, made), s')) :
    InHive s' uid k ∧ Confined s s' uid := by
  obtain ⟨hconf, c, hfind, hr, hu, hnew⟩ := provisionUser_confined h hH hst
  obtain ⟨hC₁, hsteady⟩ := h.provisionUser (e := e) hH uid
  have hH₁ := hH.steady hsteady
  set s₁ := (provisionUser e s uid).2 with hs₁
  have hopen : s₁.Open s.user := hsteady.user ▸ (hH₁.user_open hC₁.tree).1
  have hfind' : findChild s₁ s.user name = some c := by
    rw [← hfind, findChild_eq, findChild_eq, nameCmp_eq_eq.mp hname]
  have hg : Grow e' r.create s₁ c rest s' k := by
    rcases hway with ⟨rfl, hcs⟩ | ⟨rfl, u, hroot, hcs⟩
    · have hg := (regResolve_ok hC₁ hopen.1 hres).2
      rw [hcs] at hg
      exact hg.tail hfind'
    · have hroot₁ : findChild s₁ s.root u = some s.user := by
        rw [findChild_eq] at hroot
        have hl := hC₁.tree.lookup_self (hH₁.user_open hC₁.tree).2
        rw [hsteady.root, hsteady.user] at hl
        rw [findChild_eq, ← hl]
        have hn := hH₁.user.2.2
        rw [hsteady.user] at hn
        rw [hn, ← hH.user.2.2, (h.tree.lookup_eq_some.mp hroot).2]
      have hlive : s₁.Live s.root := hsteady.root ▸ hC₁.tree.root.1
      have hg := (regResolve_ok hC₁ hlive hres).2
      rw [hcs] at hg
      exact (hg.tail hroot₁).tail hfind'
  have hc : s₁.Open c := hC₁.open_of_find hfind
  have w := hC₁.walked hc hg
  obtain ⟨-, -, hsteady'⟩ := hC₁.grow hc hg
  have hfind₁ : findChild s₁ s₁.user (accountSid uid) = some c := hsteady.user.symm ▸ hfind
  obtain ⟨hin, hconf'⟩ := w.in_hive hC₁ hsteady'.user hfind₁ hr hu Relation.ReflTransGen.refl
  refine ⟨hin k w.goal, hconf.trans h hC₁ hconf' hsteady.user hfind hnew ?_ ?_⟩
  · rintro j ⟨d, hd, -, -, hb⟩
    obtain rfl := some.inj (hfind₁.symm.trans hd)
    exact hin j (w.below hb)
  · have := hconf'.again ⟨c, hfind₁, hr, hu⟩
    rwa [hsteady.user] at this

/-- A key that the policy grants, and the way below it. -/
theorem isolates_granted (h : Core s []) (hH : Hives s) (hsub : e.subject p = some (sub, true))
    (hna : registryAdmin sub = false)
    (hacc : regAccessNode e s p a (access ||| if create then keyCreateSubKey else 0) = .success)
    (hr : r.create = true → create = true) {ns : List Name} (ha : s.Open a)
    (hg : Grow e' r.create s a ns s' k) :
    (InHive s' sub.uid k ∧ 0x2000 ≤ sub.integrity ∨
      Below s' s'.machine k ∧ create = false ∧ access &&& regWriteRights = 0) ∧
      Confined s s' sub.uid := by
  have w := h.walked ha hg
  obtain ⟨-, -, hsteady⟩ := h.grow ha hg
  rcases regAccessNode_success hsub hna hacc with ⟨hrealm, hu, hint⟩ | ⟨-, htop, hno⟩
  · obtain ⟨c, hc, hb⟩ := h.below_user ha (by rw [hrealm]; decide)
    obtain ⟨hcu, hcr⟩ := h.labels.below h.tree hc hb
    have hcu : (s.key c).accountUid = sub.uid := hcu.symm.trans hu
    have hcr : (s.key c).accountRealm = 2 := hcr.symm.trans hrealm
    have hfind : findChild s s.user (accountSid sub.uid) = some c := by
      rcases h.labels.hive hc with h1 | ⟨-, hname⟩
      · exact absurd (hcr.symm.trans h1) (by decide)
      · rw [findChild_eq, h.tree.lookup_eq_some]
        exact ⟨hc, by rw [St.fname, hname, hcu]⟩
    obtain ⟨hin, hconf⟩ := w.in_hive h hsteady.user hfind hcr hcu hb
    exact ⟨.inl ⟨hin k ((w.below hb).trans w.goal), hint⟩, hconf⟩
  · obtain ⟨hno, hcreate⟩ := no_write hno
    have hrc : r.create = false := by
      cases hrc : r.create with
      | false => rfl
      | true => exact Bool.noConfusion (hcreate.symm.trans (hr hrc))
    rw [hrc] at hg
    obtain rfl := hg.same
    have htop : Below s' s'.machine a := htop ▸ h.tree.below_topOf
    exact ⟨.inr ⟨htop.trans w.goal, hcreate, hno⟩, Confined.refl s'⟩

/-- **Isolation of accounts**: what an ordinary account is authorized to resolve lies in its own hive,
or is a key of `MACHINE` that is only read; and outside the hive nothing is touched but the place
of the hive in the chain of `USER`, when it is made. -/
theorem authorize_isolates (h : Reach s) (hsub : e.subject p = some (sub, true))
    (hna : registryAdmin sub = false) (hstart : s.Live start)
    (hauth : (regAuthorizePath e s p start path access create).1 = .success)
    (hr : r.create = true → create = true)
    (hres : regResolve e' (regAuthorizePath e s p start path access create).2 start path r =
      (.ok (k, made), s')) :
    (InHive s' sub.uid k ∧ 0x2000 ≤ sub.integrity ∨
      Below s' s'.machine k ∧ create = false ∧ access &&& regWriteRights = 0) ∧
      Confined s s' sub.uid := by
  obtain ⟨hC, hH, -⟩ := h.core
  rcases regAuthorizePath_success hC hsub hna hauth with
    ⟨name, rest, hpr, hint, hname, hway⟩ | ⟨hs, a, hacc, hway⟩
  · rw [hpr] at hres hauth
    obtain ⟨hin, hconf⟩ := isolates_own hC hH hauth hname hway hres
    exact ⟨.inl ⟨hin, hint⟩, hconf⟩
  · rw [hs] at hres
    obtain ⟨ho, hg⟩ := regResolve_ok hC hstart hres
    rcases hway with rfl | ⟨rfl, name, rest, hfind, hcs⟩
    · exact isolates_granted hC hH hsub hna hacc hr ho hg
    · rw [hcs] at hg
      exact isolates_granted hC hH hsub hna hacc hr (hC.open_of_find hfind) (hg.tail hfind)

/-- The first key of account 1001, as it is opened by its own path. -/
def ownPath : Name := ascii "USER\\" ++ accountSid 1001

def onlyOpen : Request := { create := false, isVolatile := false, startCanCreate := true, cls := [] }

theorem onlyOpen_create : onlyOpen.create = true → false = true := id

def opened : Except Status (KeyId × Bool) × St :=
  regResolve oneAccount (regAuthorizePath oneAccount booted 0 booted.root ownPath 0 false).2
    booted.root ownPath onlyOpen

theorem opened_spec : (regAuthorizePath oneAccount booted 0 booted.root ownPath 0 false).1 = .success ∧
    opened.1.toOption = some (30, false) ∧
      (opened.2.key opened.2.user).child ≠ (booted.key opened.2.user).child := by
  decide +kernel

theorem ok_of_toOption {ε α β : Type} {x : Except ε α × β} {a : α}
    (h : x.1.toOption = some a) : x = (.ok a, x.2) := by
  obtain ⟨o, b⟩ := x
  cases o with
  | error st => exact absurd h (by simp [Except.toOption])
  | ok x =>
    obtain rfl : x = a := some.inj h
    rfl

theorem opened_ok : opened = (.ok (30, false), opened.2) :=
  ok_of_toOption opened_spec.2.1

def ordinary : Subject := { uid := 1001, integrity := 0x2000, roles := 0 }

theorem oneAccount_subject : oneAccount.subject 0 = some (ordinary, true) := rfl

theorem authorize_isolates_opened :
    (InHive opened.2 ordinary.uid 30 ∧ 0x2000 ≤ ordinary.integrity ∨
      Below opened.2 opened.2.machine 30 ∧ false = false ∧ 0 &&& regWriteRights = 0) ∧
      Confined booted opened.2 ordinary.uid :=
  authorize_isolates (Reach.boot oneAccount seedDefaults_booted) oneAccount_subject (by decide)
    (Reach.boot oneAccount seedDefaults_booted).core.1.tree.root.1 opened_spec.1
    onlyOpen_create opened_ok

theorem not_inHive_user (h : Core s []) : ¬InHive s uid s.user := by
  rintro ⟨c, hfind, -, -, hb⟩
  rw [findChild_eq] at hfind
  have hlt := (h.tree.kid (h.tree.lookup_eq_some.mp hfind).1).2.2.2
  exact absurd (h.tree.below_le hb) (Nat.not_le.mpr hlt)

theorem Reach.open_from_root (h : Reach s) (p : ProcId) (path : Name) (access : UInt32)
    (create : Bool) (r : Request) :
    Reach (regResolve e' (regAuthorizePath e s p s.root path access create).2 s.root path r).2 := by
  have hroot := h.core.1.tree.root.1
  have hs := (h.core.1.call (e := e) h.core.2.1 (.authorize p s.root path access create) hroot).2
  have h₁ := h.call e (.authorize p s.root path access create) hroot
  have hlive := h₁.core.1.tree.root.1
  rw [hs.root] at hlive
  exact h₁.call e' (.resolve s.root path r) hlive

/-- The first use of an account touches more than its hive: `USER` gets another chain. -/
theorem first_use_touches_user :
    ¬∀ (e e' : Env) (s s' : St) (p : ProcId) (sub : Subject) (start k : KeyId) (path : Name)
      (access : UInt32) (create made : Bool) (r : Request), Reach s →
      e.subject p = some (sub, true) → registryAdmin sub = false → s.Live start →
      (regAuthorizePath e s p start path access create).1 = .success →
      (r.create = true → create = true) →
      regResolve e' (regAuthorizePath e s p start path access create).2 start path r =
        (.ok (k, made), s') →
      (InHive s' sub.uid k ∧ 0x2000 ≤ sub.integrity ∨
        Below s' s'.machine k ∧ create = false ∧ access &&& regWriteRights = 0) ∧
      ∀ j, ¬InHive s' sub.uid j → s'.keys j = s.keys j := by
  intro hall
  have hreach : Reach booted := Reach.boot oneAccount seedDefaults_booted
  have hroot := hreach.core.1.tree.root.1
  have h := (hall oneAccount oneAccount booted opened.2 0 ordinary booted.root 30 ownPath 0 false
    false onlyOpen hreach oneAccount_subject (by decide) hroot opened_spec.1 onlyOpen_create
    opened_ok).2
  have hopened : Reach opened.2 := hreach.open_from_root 0 ownPath 0 false onlyOpen
  have hkeys := h opened.2.user (not_inHive_user hopened.core.1)
  exact opened_spec.2.2 (by rw [St.key, hkeys, ← St.key])

end Isolation

end Win98Modern.Registry
