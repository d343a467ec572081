import Win98Modern.Kernel64.RegistrySteps

/-!
# The provisioning of account hives

`provision_user` allocates the whole default hive first, then retires what stood at the name of
the account, and links the new hive (`provisionUser_cases`).
-/

namespace Win98Modern.Registry

open Function List

/-! ### Retiring the old key -/

section Retire

variable {e : Env} {s : St} {L : List KeyId} {k j : KeyId}

theorem Tree.below_le (hT : Tree s L) (hj : Below s k j) : k ≤ j := by
  induction hj with
  | refl => exact Nat.le_refl k
  | tail _ hc ih => exact Nat.le_trans ih (Nat.le_of_lt (hT.kid hc).2.2.2)

theorem Tree.below_live (hT : Tree s L) (hk : s.Live k) (hj : Below s k j) : s.Live j := by
  rcases hj.cases_tail with rfl | ⟨a, -, hc⟩
  · exact hk
  · exact (hT.kid hc).1

theorem Tree.below_parent (hT : Tree s L) (hj : Below s k j) (hne : j ≠ k) :
    Below s k (s.key j).parent := by
  rcases hj.cases_tail with rfl | ⟨a, ha, hc⟩
  · exact absurd rfl hne
  · rw [(hT.kid hc).2.1]
    exact ha

theorem Ledger.retireNode (h : Ledger s) (hk : s.Live k) : Ledger (retireNode e s k) := by
  have hd : Ledger (notifyDropKey e s k .accessDenied) := h.sweep _ _
  refine hd.bury (notifySweep_live.mpr hk) (x := { (notifyDropKey e s k .accessDenied).key k with
    child := []
    parent := 0
    nsubkeys := 0
    deleted := true }) ?_ rfl rfl rfl notifyDropKey_quiet
  exact { hd.record k with nsubkeys := rfl }

theorem unlinkOld_key_self : (unlinkOld s k).key s.user = { s.key s.user with
    child := (s.key s.user).child.erase k
    nsubkeys := (s.key s.user).nsubkeys - 1 } := key_put_self

theorem unlinkOld_key_ne (hj : j ≠ s.user) : (unlinkOld s k).key j = s.key j := key_put_ne hj

theorem Ledger.unlinkOld (h : Ledger s) (hk : k ∈ (s.key s.user).child) :
    Ledger (unlinkOld s k) := by
  have hr := h.record s.user
  refine h.put (live_of_child hk) { hr with nsubkeys := ?_ } rfl rfl rfl
  rw [hr.nsubkeys, length_erase_of_mem hk]

/-- What `retire_legacy` leaves of the key, once it is out of the chain of `USER`. -/
structure Retired (s s' : St) (k : KeyId) : Prop where
  within : ∀ {j}, Below s k j → s'.keys j = retired (s.keys j)
  outside : ∀ {j}, ¬Below s k j → j ≠ s.user → s'.keys j = s.keys j
  user : s'.key s.user = { s.key s.user with
    child := (s.key s.user).child.erase k
    nsubkeys := (s.key s.user).nsubkeys - 1 }
  live : s'.Live s.user
  ledger : Ledger s'
  anchored : Anchored s s'
  next : s'.next = s.next

theorem retireLegacy_retired (h : Core s L) (hk : k ∈ (s.key s.user).child) :
    Retired s (retireLegacy e s.next (unlinkOld s k) k) k := by
  have hkid := h.tree.kid hk
  have huk : s.user < k := hkid.2.2.2
  have hbelow : ∀ {a}, Below s k a → a ≠ s.user := fun ha hau =>
    absurd (h.tree.below_le ha) (Nat.not_le.mpr (hau ▸ huk))
  have hkeys : ∀ {a}, a ≠ s.user → (unlinkOld s k).keys a = s.keys a := fun ha => by
    rw [unlinkOld, keys_put, update_of_ne ha]
  have hsame : ∀ a, Below (unlinkOld s k) k a ↔ Below s k a := fun a =>
    Below.congr fun b hb => by rw [unlinkOld_key_ne (hbelow hb)]
  have hgrown : Grown (unlinkOld s k) k := by
    intro a ha
    rw [hsame] at ha
    rw [unlinkOld_key_ne (hbelow ha)]
    refine ⟨(h.tree.order a).nodup, fun c hc => ?_⟩
    have hcu := hbelow (ha.child hc)
    rw [St.Live, hkeys hcu, unlinkOld_key_ne hcu]
    exact ⟨(h.tree.kid hc).1, (h.tree.kid hc).2.1, (h.tree.kid hc).2.2.2⟩
  have hlu : ∀ {j}, (unlinkOld s k).Live j ↔ s.Live j := live_put_of_live (live_of_child hk)
  have hr := retireLegacy_retires (e := e)
    (P := fun t => Ledger t ∧ Anchored (unlinkOld s k) t) (fun t j hj hP =>
      ⟨hP.1.retireNode hj, hP.2.trans ⟨retireNode_rest.1, retireNode_rest.2.1,
        retireNode_rest.2.2.1, retireNode_rest.2.2.2.1⟩⟩)
    s.next (unlinkOld s k) k hgrown (hlu.mpr hkid.1)
    (fun j hj => (h.ledger.addr (hlu.mp hj)).2) (Nat.le_add_left _ _)
  have huser : ¬Below (unlinkOld s k) k s.user := fun hb => hbelow ((hsame _).mp hb) rfl
  obtain ⟨hl, ha⟩ := hr.keeps ⟨h.ledger.unlinkOld hk, Anchored.refl _⟩
  constructor
  case within =>
    intro j hj
    rw [hr.within ((hsame j).mpr hj), hkeys (hbelow hj)]
  case outside =>
    intro j hj hju
    rw [hr.outside fun hb => hj ((hsame j).mp hb), hkeys hju]
  case user =>
    rw [St.key, hr.outside huser, ← St.key, unlinkOld_key_self]
  case live =>
    rw [St.Live, hr.outside huser]
    exact hlu.mpr (live_of_child hk)
  case ledger => exact hl
  case anchored =>
    have hu : Anchored s (unlinkOld s k) := ⟨rfl, rfl, rfl, rfl⟩
    exact hu.trans ha
  case next => exact hr.next

namespace Retired

variable {s' : St}

theorem key_outside (h : Retired s s' k) (hj : ¬Below s k j) (hju : j ≠ s.user) :
    s'.key j = s.key j := by
  rw [St.key, h.outside hj hju, St.key]

theorem cutOff (h : Retired s s' k) (hT : Tree s L) (hk : k ∈ (s.key s.user).child) :
    CutOff s s' s.user k (Below s k) := by
  have hkid := hT.kid hk
  have hnot : ¬Below s k s.user := fun hb =>
    absurd (hT.below_le hb) (Nat.not_le.mpr hkid.2.2.2)
  constructor
  case part => exact hk
  case self => exact Relation.ReflTransGen.refl
  case down => exact fun ha hb => ha.child hb
  case into =>
    intro a b ha hb hSb
    by_contra hne
    have hp := hT.below_parent hSb hne
    rw [(hT.kid hb).2.1] at hp
    exact ha hp
  case stay => exact hnot
  case root =>
    intro hr
    have hne : s.root ≠ k := fun hrk => hT.kid_parent_ne hk (hrk ▸ hT.root.2.2.1)
    have hp := hT.below_parent hr hne
    rw [hT.root.2.2.1] at hp
    exact hT.addr (hT.below_live hkid.1 hp)
  case live =>
    intro j hj
    by_cases hb : Below s k j
    · exact hT.below_live hkid.1 hb
    · by_cases hju : j = s.user
      · exact hju ▸ live_of_child hk
      · rwa [St.Live, h.outside hb hju] at hj
  case keep =>
    intro j hb hj
    by_cases hju : j = s.user
    · exact hju ▸ h.live
    · rwa [St.Live, h.outside hb hju]
  case same => exact fun hb hju => by rw [h.key_outside hb hju]
  case chain =>
    rw [h.user]
    rfl
  case gone =>
    intro j hb hl
    have hw := h.within hb
    rw [(hT.below_live hkid.1 hb).keys, retired] at hw
    rw [St.Live, hw] at hl
    rw [St.key, hw]
    cases hf : (some (s.key j)).filter fun x => decide (x.refs ≠ 0) with
    | none =>
      rw [hf] at hl
      cases hl
    | some x => exact ⟨rfl, rfl, rfl⟩
  case fixed =>
    intro j hb
    by_cases hju : j = s.user
    · rw [hju, h.user]
    · rw [h.key_outside hb hju]
  case rootEq => exact h.anchored.root

theorem core (h : Retired s s' k) (hC : Core s L) (hk : k ∈ (s.key s.user).child) : Core s' L :=
  ⟨hC.tree.cut (h.cutOff hC.tree hk) id, hC.labels.cut hC.tree (h.cutOff hC.tree hk) h.anchored.user,
    h.ledger⟩

end Retired

end Retire

/-! ### The new hive -/

section Publish

variable {e : Env} {s s' : St} {L : List KeyId} {k f : KeyId} {uid : UInt32}

def labelled (s : St) (f : KeyId) (uid : UInt32) : St :=
  s.put f { s.key f with accountUid := uid, accountRealm := 2 }

theorem labelled_key_ne {j : KeyId} (hj : j ≠ f) : (labelled s f uid).key j = s.key j :=
  key_put_ne hj

theorem labelled_key_self : (labelled s f uid).key f =
    { s.key f with accountUid := uid, accountRealm := 2 } := key_put_self

theorem Core.labelled (h : Core s L) (hf : f ∈ (s.key s.user).child)
    (hname : (s.key f).name = accountSid uid) (hleaf : (s.key f).child = []) : Core (labelled s f uid) L := by
  have hl := (h.tree.kid hf).1
  have hfr : s.root ≠ f := fun hr => h.tree.kid_parent_ne hf (hr ▸ h.tree.root.2.2.1)
  have hplace : ∀ {β : Type} (g : Key → β),
      (∀ x : Key, g { x with accountUid := uid, accountRealm := 2 } = g x) →
      ∀ j, g ((Registry.labelled s f uid).key j) = g (s.key j) := by
    intro β g hg j
    by_cases hj : j = f
    · rw [hj, labelled_key_self, hg]
    · rw [labelled_key_ne hj]
  refine ⟨h.tree.of_place (hplace Key.name fun _ => rfl) (hplace Key.parent fun _ => rfl)
    (hplace Key.child fun _ => rfl) (hplace Key.deleted fun _ => rfl)
    (fun _ => live_put_of_live hl) rfl, ?_, ?_⟩
  · constructor
    case hive =>
      intro c hc
      have hc : c ∈ (s.key s.user).child := by
        rw [← hplace Key.child (fun _ => rfl) s.user]
        exact hc
      by_cases hcf : c = f
      · rw [hcf, labelled_key_self]
        exact .inr ⟨rfl, hname⟩
      · rw [labelled_key_ne hcf]
        exact h.labels.hive hc
    case inherit =>
      intro a c hc hne
      rw [hplace Key.child (fun _ => rfl) a] at hc
      have hcf : c ≠ f := by
        rintro rfl
        exact hne ((h.tree.kid hc).2.1.symm.trans (h.tree.kid hf).2.1)
      have haf : a ≠ f := by
        rintro rfl
        rw [hleaf] at hc
        exact absurd hc not_mem_nil
      rw [labelled_key_ne hcf, labelled_key_ne haf]
      exact h.labels.inherit hc hne
    case base => exact (congrArg Key.accountRealm (labelled_key_ne hfr)).trans h.labels.base
  · exact h.ledger.put hl { h.ledger.record f with } rfl rfl rfl

theorem steady_labelled : Steady s (labelled s f uid) := by
  have hsame : ∀ j, ((labelled s f uid).key j).parent = (s.key j).parent ∧
      ((labelled s f uid).key j).fixed = (s.key j).fixed ∧
      ((labelled s f uid).key j).name = (s.key j).name := by
    intro j
    by_cases hj : j = f
    · rw [hj, labelled_key_self]
      exact ⟨rfl, rfl, rfl⟩
    · rw [labelled_key_ne hj]
      exact ⟨rfl, rfl, rfl⟩
  exact { root := rfl, machine := rfl, user := rfl, seeded := rfl, base := (hsame _).2.1
          keep := fun {j} hp hf => ⟨(hsame j).1.trans hp, (hsame j).2.1.trans hf, (hsame j).2.2⟩ }

end Publish

/-! ### Provisioning -/

section Provision

variable {e : Env} {s s' t : St} {L : List KeyId} {k f en sw j : KeyId} {uid : UInt32}

/-- The links of `provision_user`. -/
def settle (e : Env) (s : St) (uid : UInt32) (f en sw : KeyId) : St :=
  linkChild e (linkChild e (labelled (linkChild e s s.user f) f uid) f en) f sw

/-- The three keys of a default hive, allocated and loose. -/
structure Loose (s : St) (uid : UInt32) (f en sw : KeyId) : Prop where
  core : Core s [sw, en, f]
  hives : Hives s
  lt : s.user < f ∧ f < en ∧ en < sw
  fname : (s.key f).name = accountSid uid
  ename : (s.key en).name = ascii "Environment"
  sname : (s.key sw).name = ascii "Software"
  empty : (s.key f).values = [] ∧ (s.key en).values = [] ∧ (s.key sw).values = []
  free : ∀ d ∈ (s.key s.user).child, s.fname d ≠ fold (accountSid uid)

theorem Hives.user_open (h : Hives s) (hT : Tree s L) : s.Open s.user ∧
    s.user ∈ (s.key s.root).child := by
  have hp : (s.key s.user).parent ≠ 0 := h.user.1 ▸ hT.root_ne_zero
  have hm := hT.home hp
  rw [h.user.1] at hm
  exact ⟨⟨(hT.kid hm).1, (hT.kid hm).2.2.1⟩, hm⟩

theorem Hives.machine_open (h : Hives s) (hT : Tree s L) : s.Open s.machine ∧
    s.machine ∈ (s.key s.root).child := by
  have hp : (s.key s.machine).parent ≠ 0 := h.machine.1 ▸ hT.root_ne_zero
  have hm := hT.home hp
  rw [h.machine.1] at hm
  exact ⟨⟨(hT.kid hm).1, (hT.kid hm).2.2.1⟩, hm⟩

theorem fold_user_ne_machine : fold (ascii "USER") ≠ fold (ascii "MACHINE") := by decide

theorem Hives.user_ne_root (h : Hives s) (hT : Tree s L) : s.user ≠ s.root := by
  intro heq
  have hp := h.user.1
  rw [heq, hT.root.2.2.1] at hp
  exact hT.root_ne_zero hp.symm

theorem first_ne (hf : j ≠ f) (hu : j ≠ s.user) :
    (linkChild e s s.user f).key j = s.key j := by
  rw [linkChild_key, hang_key_ne hf hu]

theorem third_ne (hf : j ≠ f) (hu : j ≠ s.user) (he : j ≠ en) :
    (linkChild e (labelled (linkChild e s s.user f) f uid) f en).key j = s.key j := by
  rw [linkChild_key, hang_key_ne he hf, labelled_key_ne hf, first_ne hf hu]

/-- So do the three together. -/
theorem settle_keys_ne (hu : j ≠ s.user) (hf : j ≠ f) (he : j ≠ en) (hs : j ≠ sw) :
    (settle e s uid f en sw).keys j = s.keys j := by
  have hhang : ∀ {t : St} {p c : KeyId}, j ≠ c → j ≠ p →
      (linkChild e t p c).keys j = t.keys j := by
    intro t p c hc hp
    rw [linkChild_keys, hang, keys_put, update_of_ne hc, keys_put,
      update_of_ne hp]
  rw [settle, hhang hs hf, hhang he hf, labelled, keys_put, update_of_ne hf, hhang hf hu]

section Settle

variable (h : Loose s uid f en sw)
include h

theorem Loose.user_ne : s.user ≠ f ∧ s.user ≠ en ∧ s.user ≠ sw ∧ f ≠ en ∧ f ≠ sw ∧ en ≠ sw := by
  obtain ⟨h1, h2, h3⟩ := h.lt
  exact ⟨Nat.ne_of_lt h1, Nat.ne_of_lt (h1.trans h2), Nat.ne_of_lt ((h1.trans h2).trans h3),
    Nat.ne_of_lt h2, Nat.ne_of_lt (h2.trans h3), Nat.ne_of_lt h3⟩

theorem Loose.core_first : Core (linkChild e s s.user f) [sw, en] := by
  obtain ⟨huf, hue, hus, hfe, hfs, hes⟩ := h.user_ne
  have hu := h.hives.user_open h.core.tree
  have hcore : Core s [f, sw, en] :=
    ⟨h.core.tree.of_mem fun c => by simp only [mem_cons, not_mem_nil]; tauto,
      h.core.labels, h.core.ledger⟩
  refine hcore.linkChild ?_ hu.1.1 hu.1.2 ?_ h.lt.1 ?_
  · simp [hfs, hfe]
  · simp [hus, hue]
  · intro d hd
    rw [St.fname, St.fname, h.fname]
    exact h.free d hd

theorem Loose.first_f : (linkChild e s s.user f).key f = { s.key f with
    parent := s.user
    accountUid := (s.key s.user).accountUid
    accountRealm := 1 } := by
  rw [linkChild_key, hang_key_child h.user_ne.1.symm, if_pos rfl]

theorem Loose.first_user : (linkChild e s s.user f).key s.user = { s.key s.user with
    child := insertOrd s.fname f (s.key s.user).child
    nsubkeys := (s.key s.user).nsubkeys + 1
    lastWrite := e.now } := by
  rw [linkChild_key, hang_key_parent h.user_ne.1.symm]

theorem Loose.leaf : (s.key f).child = [] ∧ (s.key en).child = [] ∧ (s.key sw).child = [] :=
  ⟨(h.core.tree.loose (by simp)).2.2.1, (h.core.tree.loose (by simp)).2.2.1,
    (h.core.tree.loose (by simp)).2.2.1⟩

theorem Loose.core_second : Core (labelled (linkChild e s s.user f) f uid) [sw, en] := by
  refine h.core_first.labelled ?_ ?_ ?_
  · rw [linkChild_anchored.user, h.first_user]
    exact mem_insertOrd.mpr (.inl rfl)
  · rw [h.first_f]
    exact h.fname
  · rw [h.first_f]
    exact h.leaf.1

theorem Loose.second_f : (labelled (linkChild e s s.user f) f uid).key f = { s.key f with
    parent := s.user
    accountUid := uid
    accountRealm := 2 } := by
  rw [labelled_key_self, h.first_f]

theorem Loose.core_third :
    Core (linkChild e (labelled (linkChild e s s.user f) f uid) f en) [sw] := by
  obtain ⟨huf, hue, hus, hfe, hfs, hes⟩ := h.user_ne
  have hcore := h.core_second (e := e)
  have hcore : Core (labelled (linkChild e s s.user f) f uid) [en, sw] :=
    ⟨hcore.tree.of_mem fun c => by simp only [mem_cons, not_mem_nil]; tauto,
      hcore.labels, hcore.ledger⟩
  have hf := h.core.tree.loose (c := f) (by simp)
  refine hcore.linkChild ?_ ?_ ?_ ?_ h.lt.2.1 ?_
  · simp [hes]
  · exact live_put.mpr (.inl rfl)
  · rw [h.second_f]
    exact hf.2.2.2
  · simp [hfs]
  · intro d hd
    rw [h.second_f, h.leaf.1] at hd
    exact absurd hd not_mem_nil

theorem Loose.third_f :
    (linkChild e (labelled (linkChild e s s.user f) f uid) f en).key f = { s.key f with
      parent := s.user
      accountUid := uid
      accountRealm := 2
      child := [en]
      nsubkeys := (s.key f).nsubkeys + 1
      lastWrite := e.now } := by
  obtain ⟨huf, hue, hus, hfe, hfs, hes⟩ := h.user_ne
  rw [linkChild_key, hang_key_parent hfe.symm, h.second_f, h.leaf.1]
  rfl

theorem Loose.third_en :
    (linkChild e (labelled (linkChild e s s.user f) f uid) f en).key en = { s.key en with
      parent := f
      accountUid := uid
      accountRealm := 2 } := by
  obtain ⟨huf, hue, hus, hfe, hfs, hes⟩ := h.user_ne
  have hlab : (labelled (linkChild e s s.user f) f uid).user = s.user := linkChild_anchored.user
  rw [linkChild_key, hang_key_child hfe.symm, h.second_f, labelled_key_ne hfe.symm,
    first_ne hfe.symm hue.symm, hlab, if_neg huf.symm]

/-- **The hive of an account**, complete. -/
theorem Loose.core_settle : Core (settle e s uid f en sw) [] := by
  obtain ⟨huf, hue, hus, hfe, hfs, hes⟩ := h.user_ne
  have hf := h.core.tree.loose (c := f) (by simp)
  have hlive : (linkChild e (labelled (linkChild e s s.user f) f uid) f en).Live f := by
    rw [live_congr linkChild_keys, hang_live]
    exact .inr (.inl rfl)
  refine (h.core_third (e := e)).linkChild not_mem_nil hlive ?_ not_mem_nil
    (h.lt.2.1.trans h.lt.2.2) ?_
  · rw [h.third_f]
    exact hf.2.2.2
  · intro d hd
    rw [h.third_f] at hd
    obtain rfl := mem_singleton.mp hd
    rw [St.fname, St.fname, h.third_en, third_ne hfs.symm hus.symm hes.symm, h.sname]
    show fold (s.key d).name ≠ _
    rw [h.ename]
    decide

theorem Loose.settle_f : (settle e s uid f en sw).key f = { s.key f with
    parent := s.user
    accountUid := uid
    accountRealm := 2
    child := [en, sw]
    nsubkeys := (s.key f).nsubkeys + 1 + 1
    lastWrite := e.now } := by
  obtain ⟨huf, hue, hus, hfe, hfs, hes⟩ := h.user_ne
  have hen : (linkChild e (labelled (linkChild e s s.user f) f uid) f en).fname en =
      fold (ascii "Environment") := by
    rw [St.fname, h.third_en]
    exact congrArg fold h.ename
  have hsw : (linkChild e (labelled (linkChild e s s.user f) f uid) f en).fname sw =
      fold (ascii "Software") := by
    rw [St.fname, third_ne hfs.symm hus.symm hes.symm, h.sname]
  rw [settle, linkChild_key, hang_key_parent hfs.symm, h.third_f]
  simp only [insertOrd, hen, hsw]
  rw [if_pos (by decide)]

theorem Loose.settle_user : (settle e s uid f en sw).key s.user = { s.key s.user with
    child := insertOrd s.fname f (s.key s.user).child
    nsubkeys := (s.key s.user).nsubkeys + 1
    lastWrite := e.now } := by
  obtain ⟨huf, hue, hus, hfe, hfs, hes⟩ := h.user_ne
  rw [settle, linkChild_key, hang_key_ne hus huf, linkChild_key, hang_key_ne hue huf,
    labelled_key_ne huf, h.first_user]

theorem Loose.steady_settle : Steady s (settle e s uid f en sw) := by
  obtain ⟨huf, hue, hus, hfe, hfs, hes⟩ := h.user_ne
  have h1 : Core s [f, sw, en] :=
    ⟨h.core.tree.of_mem fun c => by simp only [mem_cons, not_mem_nil]; tauto,
      h.core.labels, h.core.ledger⟩
  have h2 := h.core_second (e := e)
  have h2 : Core (labelled (linkChild e s s.user f) f uid) [en, sw] :=
    ⟨h2.tree.of_mem fun c => by simp only [mem_cons, not_mem_nil]; tauto,
      h2.labels, h2.ledger⟩
  exact (((h1.steady_linkChild huf.symm).trans steady_labelled).trans
    (h2.steady_linkChild hfe.symm)).trans (h.core_third.steady_linkChild hfs.symm)

end Settle

end Provision

/-! ### The outcomes of `provision_user` -/

section Outcome

variable {e : Env} {s s' t : St} {L : List KeyId} {k j : KeyId} {uid : UInt32}

theorem keyFreeNow_keys : (keyFreeNow s k).keys = update s.keys k none := by
  rw [keyFreeNow_eq]
  rfl

theorem keyFreeNow_anchored : Anchored s (keyFreeNow s k) := by
  exact ⟨rfl, rfl, rfl, rfl⟩

theorem fresh_anchored {name cls : Name} {vol fix : Bool} :
    Anchored s (fresh e s name cls vol fix) := ⟨rfl, rfl, rfl, rfl⟩

theorem Core.keyAlloc (h : Core s L) (name cls : Name) (vol fix : Bool) :
    (∃ t, keyAlloc e s name cls vol fix = (none, t) ∧ Idle s t) ∨
    (keyAlloc e s name cls vol fix = (some s.next, Registry.fresh e s name cls vol fix) ∧
      Core (Registry.fresh e s name cls vol fix) (s.next :: L)) := by
  rcases keyAlloc_cases e name cls vol fix h.ledger.quota with ha | ha | ⟨ha, hq⟩
  · exact .inl ⟨_, ha, .inl rfl⟩
  · exact .inl ⟨_, ha, .inr rfl⟩
  · exact .inr ⟨ha, h.fresh hq⟩

theorem fresh_freed {name cls : Name} {vol fix : Bool} (h : Core s L)
    (ht : t.keys = (fresh e s name cls vol fix).keys) :
    (keyFreeNow t s.next).keys = s.keys := by
  have hnone : s.keys s.next = none := Option.not_isSome_iff_eq_none.mp h.not_live_next
  rw [keyFreeNow_keys, ht, fresh_keys, update_idem, ← hnone, update_eq_self]

/-- The three keys of the default hive, in the state after their allocation. -/
def drafted (e : Env) (s : St) (uid : UInt32) : St :=
  fresh e (fresh e (fresh e s (accountSid uid) [] false true) (ascii "Environment") [] false false)
    (ascii "Software") [] false false

theorem drafted_key_ne (h0 : j ≠ s.next) (h1 : j ≠ s.next + 1) (h2 : j ≠ s.next + 2) :
    (drafted e s uid).keys j = s.keys j := by
  exact (update_of_ne h2 _ _).trans
    ((update_of_ne h1 _ _).trans (update_of_ne h0 _ _))

theorem drafted_key_f : (drafted e s uid).key s.next = newKey e (accountSid uid) [] false true := by
  have h2 : s.next ≠ s.next + 2 := by omega
  have h1 : s.next ≠ s.next + 1 := by omega
  exact (fresh_key_ne h2).trans ((fresh_key_ne h1).trans fresh_key_self)

theorem drafted_key_en :
    (drafted e s uid).key (s.next + 1) = newKey e (ascii "Environment") [] false false := by
  have h2 : s.next + 1 ≠ s.next + 2 := by omega
  exact (fresh_key_ne h2).trans fresh_key_self

theorem drafted_key_sw :
    (drafted e s uid).key (s.next + 2) = newKey e (ascii "Software") [] false false := by
  exact fresh_key_self

theorem drafted_anchored : Anchored s (drafted e s uid) := ⟨rfl, rfl, rfl, rfl⟩

/-- The new keys are none of the old. -/
theorem Core.old_ne (h : Core s []) (hj : s.Live j) :
    j ≠ s.next ∧ j ≠ s.next + 1 ∧ j ≠ s.next + 2 := by
  have hlt : j < s.next := (h.ledger.addr hj).2
  exact ⟨Nat.ne_of_lt hlt, Nat.ne_of_lt (Nat.lt_succ_of_lt hlt),
    Nat.ne_of_lt (Nat.lt_succ_of_lt (Nat.lt_succ_of_lt hlt))⟩

theorem Core.old_key (h : Core s []) (hj : s.Live j) : (drafted e s uid).keys j = s.keys j :=
  have hne := h.old_ne hj
  drafted_key_ne hne.1 hne.2.1 hne.2.2

section Drafted

variable (h : Core s []) (hH : Hives s) (hT : Core (drafted e s uid) [s.next + 2, s.next + 1, s.next])
  (hst : Steady s (drafted e s uid))

include h hH

theorem user_lt_next : s.user < s.next := (h.ledger.addr (hH.user_open h.tree).1.1).2

theorem drafted_child : ((drafted e s uid).key s.user).child = (s.key s.user).child := by
  rw [St.key, h.old_key (hH.user_open h.tree).1.1, ← St.key]

omit hH in
theorem drafted_fname {d : KeyId} (hd : s.Live d) : (drafted e s uid).fname d = s.fname d := by
  rw [St.fname, St.key, h.old_key hd, ← St.key, ← St.fname]

include hT hst

/-- No key of `USER` has the name: the new hive can be linked. -/
theorem drafted_loose (hfind : findChild s s.user (accountSid uid) = none) :
    Loose (drafted e s uid) uid s.next (s.next + 1) (s.next + 2) := by
  refine ⟨hT, hH.steady hst, ⟨user_lt_next h hH, Nat.lt_succ_self _, Nat.lt_succ_self _⟩, ?_, ?_, ?_, ?_, ?_⟩
  · rw [drafted_key_f]; rfl
  · rw [drafted_key_en]; rfl
  · rw [drafted_key_sw]; rfl
  · rw [drafted_key_f, drafted_key_en, drafted_key_sw]
    exact ⟨rfl, rfl, rfl⟩
  · intro d hd
    have hd : d ∈ (s.key s.user).child := drafted_child h hH ▸ hd
    rw [drafted_fname h (h.tree.kid hd).1]
    rw [findChild_eq] at hfind
    exact h.tree.lookup_eq_none.mp hfind d hd

/-- The old key is retired: the new hive can be linked in its place. -/
theorem retired_loose (hfind : findChild s s.user (accountSid uid) = some k) :
    ∃ t, t = retireLegacy e (drafted e s uid).next (unlinkOld (drafted e s uid) k) k ∧
      Retired (drafted e s uid) t k ∧ Loose t uid s.next (s.next + 1) (s.next + 2) ∧ Steady s t := by
  rw [findChild_eq] at hfind
  obtain ⟨hmem, hname⟩ := h.tree.lookup_eq_some.mp hfind
  have hH3 : Hives (drafted e s uid) := hH.steady hst
  have hchild : ((drafted e s uid).key s.user).child = (s.key s.user).child := drafted_child h hH
  have hmem3 : k ∈ ((drafted e s uid).key (drafted e s uid).user).child := hchild ▸ hmem
  have hret := retireLegacy_retired (e := e) hT hmem3
  have hcut := hret.cutOff hT.tree hmem3
  have hstt := hT.steady_cut hcut id hret.anchored fun hur => absurd hur (hH3.user_ne_root hT.tree)
  refine ⟨_, rfl, hret, ?_, hst.trans hstt⟩
  -- the three new keys are not below the old one
  have hkeep : ∀ {j}, j ∈ [s.next + 2, s.next + 1, s.next] →
      (retireLegacy e (drafted e s uid).next (unlinkOld (drafted e s uid) k) k).key j =
        (drafted e s uid).key j := by
    intro j hj
    refine hret.key_outside (fun hb => hcut.not_loose hT.tree id hb hj) fun (hju : j = s.user) => ?_
    have hlt : @LT.lt Nat _ s.user s.next := user_lt_next h hH
    simp only [mem_cons, not_mem_nil, or_false] at hj
    omega
  have husr : (retireLegacy e (drafted e s uid).next (unlinkOld (drafted e s uid) k) k).user =
      s.user := hret.anchored.user
  refine ⟨hret.core hT hmem3, hH3.steady hstt,
    ⟨husr ▸ user_lt_next h hH, Nat.lt_succ_self _, Nat.lt_succ_self _⟩, ?_, ?_, ?_, ?_, ?_⟩
  · rw [hkeep (by simp), drafted_key_f]; rfl
  · rw [hkeep (by simp), drafted_key_en]; rfl
  · rw [hkeep (by simp), drafted_key_sw]; rfl
  · rw [hkeep (by simp), hkeep (by simp), hkeep (by simp), drafted_key_f, drafted_key_en,
      drafted_key_sw]
    exact ⟨rfl, rfl, rfl⟩
  · intro d hd hdn
    rw [husr] at hd
    obtain ⟨-, hd3, hdk⟩ := (hcut.mem_child hT.tree).mp hd
    have hds : d ∈ (s.key s.user).child := hchild ▸ hd3
    have hdname : s.fname d = fold (accountSid uid) := by
      rw [← drafted_fname h (h.tree.kid hds).1, ← hdn]
      exact (congrArg fold (hcut.name (hcut.child_out hT.tree hd))).symm
    exact hdk ((h.tree.order _).inj hds hmem (hdname.trans hname.symm))

end Drafted

/-- **`provision_user`**: the hive is there; or the memory did not suffice and all keys are as
before; or the old key, if any, is retired and a new hive stands in its place. -/
theorem provisionUser_cases (h : Core s []) (hH : Hives s) (uid : UInt32) :
    (∃ k, findChild s s.user (accountSid uid) = some k ∧ (s.key k).accountRealm = 2 ∧
      (s.key k).accountUid = uid ∧ provisionUser e s uid = (.success, s)) ∨
    (∃ s', provisionUser e s uid = (.noMemory, s') ∧ s'.keys = s.keys ∧ Core s' [] ∧
      Anchored s s') ∨
    ∃ t, (findChild s s.user (accountSid uid) = none ∧ t = drafted e s uid ∨
        ∃ k, findChild s s.user (accountSid uid) = some k ∧ Retired (drafted e s uid) t k) ∧
      Loose t uid s.next (s.next + 1) (s.next + 2) ∧
      Core (drafted e s uid) [s.next + 2, s.next + 1, s.next] ∧ Steady s t ∧
      provisionUser e s uid =
        (.success, settle e t uid s.next (s.next + 1) (s.next + 2)) := by
  rw [provisionUser]
  split
  case isTrue hold =>
    obtain ⟨k, hk, hr, hu⟩ := hold
    exact .inl ⟨k, hk, hr, hu, rfl⟩
  case isFalse =>
  refine .inr ?_
  rcases h.keyAlloc (e := e) (accountSid uid) [] false true with ⟨t, ha, hi⟩ | ⟨ha, h1⟩
  · rw [ha]
    exact .inl ⟨t, rfl, hi.keys, h.idle hi, hi.anchored⟩
  rw [ha]
  simp only
  rcases h1.keyAlloc (e := e) (ascii "Environment") [] false false with ⟨t, ha, hi⟩ | ⟨ha, h2⟩
  · rw [ha]
    refine .inl ⟨_, rfl, fresh_freed h hi.keys, (h1.idle hi).free not_mem_nil ?_,
      (fresh_anchored.trans hi.anchored).trans keyFreeNow_anchored⟩
    rw [key_congr hi.keys, fresh_key_self]
    rfl
  rw [ha]
  simp only
  rcases h2.keyAlloc (e := e) (ascii "Software") [] false false with ⟨t, ha, hi⟩ | ⟨ha, h3⟩
  · rw [ha]
    have hne : s.next + 1 ∉ [s.next] := by simp
    have hfree := (h2.idle hi).free hne (by
      rw [key_congr hi.keys]
      exact congrArg Key.refs fresh_key_self)
    have hkeys : (keyFreeNow t (s.next + 1)).keys = (fresh e s (accountSid uid) [] false true).keys :=
      fresh_freed h1 hi.keys
    refine .inl ⟨_, rfl, fresh_freed h hkeys, hfree.free not_mem_nil ?_,
      (((fresh_anchored.trans fresh_anchored).trans hi.anchored).trans
        keyFreeNow_anchored).trans keyFreeNow_anchored⟩
    refine (congrArg Key.refs (congrFun (key_congr hkeys) s.next)).trans ?_
    rw [fresh_key_self]
    rfl
  rw [ha]
  refine .inr ?_
  -- all three are there: the old key goes, the new hive comes
  have hT3 : Core (drafted e s uid) [s.next + 2, s.next + 1, s.next] := h3
  have hst : Steady s (drafted e s uid) :=
    (h.steady_fresh.trans h1.steady_fresh).trans h2.steady_fresh
  cases hfind : findChild s s.user (accountSid uid) with
  | none => exact ⟨_, .inl ⟨rfl, rfl⟩, drafted_loose h hH hT3 hst hfind, hT3, hst, rfl⟩
  | some k =>
    obtain ⟨_, rfl, hret, hloose, hstt⟩ := retired_loose h hH hT3 hst hfind
    exact ⟨_, .inr ⟨k, rfl, hret⟩, hloose, hT3, hstt, rfl⟩

theorem Core.provisionUser (h : Core s []) (hH : Hives s) (uid : UInt32) :
    Core (provisionUser e s uid).2 [] ∧ Steady s (Registry.provisionUser e s uid).2 := by
  rcases provisionUser_cases (e := e) h hH uid with
    ⟨k, -, -, -, heq⟩ | ⟨s', heq, hk, hC, ha⟩ | ⟨t, -, hL, -, hst, heq⟩
  · rw [heq]
    exact ⟨h, Steady.refl s⟩
  · rw [heq]
    exact ⟨hC, Steady.of_keys ha hk⟩
  · rw [heq]
    exact ⟨hL.core_settle, hst.trans hL.steady_settle⟩

end Outcome

end Win98Modern.Registry
