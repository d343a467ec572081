import Win98Modern.Kernel64.RegistryRun
import Win98Modern.Lib.Walk

/-!
# The registry as a map of maps

What the registry is for: it maps the path of a key to a map from names to values, where paths and
names are taken up to folding (`St.view`).  Every call of a run refines one update of that map
(`Reach.refines`).
-/

namespace Win98Modern.Registry

open Function List

/-- The values of a key by name. -/
abbrev Contents := FName → Option (UInt32 × List UInt8)

/-- The contents of the keys by path. -/
abbrev Maps := List FName → Option Contents

namespace Maps

/-- The key at `p`, empty when it is new. -/
def touch (m : Maps) (p : List FName) : Maps :=
  update m p (some ((m p).getD fun _ => none))

/-- The keys from `p` down along the names. -/
def ensure : Maps → List FName → List FName → Maps
  | m, _, [] => m
  | m, p, n :: ns => ensure (m.touch (p ++ [n])) (p ++ [n]) ns

/-- The value `n` of the key at `p`. -/
def assign (m : Maps) (p : List FName) (n : FName) (v : Option (UInt32 × List UInt8)) : Maps :=
  update m p ((m p).map fun c => update c n v)

/-- Without the key at `p` and the keys below it. -/
def prune (m : Maps) (p : List FName) : Maps := fun q => if p <+: q then none else m q

/-- A default hive at `p` in place of what was there. -/
def install (m : Maps) (p : List FName) : Maps :=
  (((m.prune p).touch p).touch (p ++ [fold (ascii "Environment")])).touch
    (p ++ [fold (ascii "Software")])

theorem touch_of_some {m : Maps} {p : List FName} {c : Contents} (h : m p = some c) :
    m.touch p = m := by
  rw [touch, h, Option.getD_some, ← h, update_eq_self]

theorem touch_of_none {m : Maps} {p : List FName} (h : m p = none) :
    m.touch p = update m p (some fun _ => none) := by
  rw [touch, h, Option.getD_none]

end Maps

/-- The names lead from the root to the key. -/
def St.At (s : St) (p : List FName) (k : KeyId) : Prop := walk s.lookup s.root p = some k

def St.view (s : St) : Maps := fun p =>
  (walk s.lookup s.root p).map fun k => valueMap (s.key k).values

/-! ### Paths -/

section Paths

variable {s s' : St} {L : List KeyId} {p q : List FName} {k c j : KeyId} {n : FName}

theorem Tree.branching (hT : Tree s L) : Branching s.lookup s.root where
  inj := by
    intro a b c n m ha hb
    obtain ⟨hca, hn⟩ := hT.lookup_eq_some.mp ha
    obtain ⟨hcb, hm⟩ := hT.lookup_eq_some.mp hb
    exact ⟨(hT.kid hca).2.1.symm.trans (hT.kid hcb).2.1, hn.symm.trans hm⟩
  top := by
    intro a n ha
    exact hT.kid_parent_ne (hT.lookup_eq_some.mp ha).1 hT.root.2.2.1

theorem Tree.open_root (hT : Tree s L) : s.Open s.root := ⟨hT.root.1, hT.root.2.1⟩

theorem Tree.open_lookup (hT : Tree s L) (h : s.lookup k n = some c) : s.Open c := by
  obtain ⟨hc, -⟩ := hT.lookup_eq_some.mp h
  exact ⟨(hT.kid hc).1, (hT.kid hc).2.2.1⟩

theorem Tree.open_at (hT : Tree s L) (h : s.At p k) : s.Open k :=
  walk_mem (fun _ hn => hT.open_lookup hn) hT.open_root h

theorem Tree.at_inj (hT : Tree s L) (h : s.At p k) (h' : s.At q k) : p = q :=
  walk_inj hT.branching h h'

theorem St.At.unique (h : s.At p k) (h' : s.At p j) : k = j := Option.some.inj (h.symm.trans h')

theorem St.At.snoc (h : s.At p k) (hn : s.lookup k n = some c) : s.At (p ++ [n]) c :=
  walk_concat_eq_some.mpr ⟨k, h, hn⟩

/-- **Every key that is not deleted is reachable.** -/
theorem Tree.exists_at (hT : Tree s []) (hk : s.Open k) : ∃ p, s.At p k := by
  induction k using Nat.strongRecOn with
  | ind k ih =>
    rcases hT.placed hk.1 hk.2 not_mem_nil with rfl | hm
    · exact ⟨[], rfl⟩
    · have hkid := hT.kid hm
      have hpo : s.Open (s.key k).parent := by
        refine ⟨live_of_child hm, ?_⟩
        by_contra hd
        rw [(hT.dead (by simpa using hd)).2] at hm
        exact absurd hm not_mem_nil
      obtain ⟨p, hp⟩ := ih _ hkid.2.2.2 hpo
      exact ⟨_, hp.snoc (hT.lookup_self hm)⟩

theorem St.At.view (h : s.At p k) : s.view p = some (valueMap (s.key k).values) := by
  rw [St.view, h, Option.map_some]

theorem view_eq_none : s.view p = none ↔ ∀ k, ¬s.At p k := by
  rw [St.view, Option.map_eq_none_iff, Option.eq_none_iff_forall_ne_some]
  exact Iff.rfl

theorem Tree.same_view (hT : Tree s L) (hroot : s'.root = s.root)
    (hname : ∀ {j}, s.Open j → (s'.key j).name = (s.key j).name)
    (hchild : ∀ {j}, s.Open j → (s'.key j).child = (s.key j).child)
    (hvalues : ∀ {j}, s.Open j → (s'.key j).values = (s.key j).values) :
    s'.view = s.view ∧ ∀ p k, s'.At p k ↔ s.At p k := by
  have hlook : ∀ {b m}, s.Open b → s'.lookup b m = s.lookup b m := by
    intro b m hb
    rw [St.lookup, St.lookup, hchild hb]
    exact seek_congr fun c hc =>
      congrArg fold (hname ⟨(hT.kid hc).1, (hT.kid hc).2.2.1⟩)
  have hwalk : ∀ p, walk s'.lookup s'.root p = walk s.lookup s.root p := by
    intro p
    rw [hroot]
    exact walk_congr hlook (fun _ hn => hT.open_lookup hn) hT.open_root
  refine ⟨funext fun p => ?_, fun p k => by rw [St.At, St.At, hwalk]⟩
  rw [St.view, St.view, hwalk]
  cases hp : walk s.lookup s.root p with
  | none => rfl
  | some k => rw [Option.map_some, Option.map_some, hvalues (hT.open_at hp)]

theorem Tree.same_of_keys (hT : Tree s L) (hroot : s'.root = s.root) (hk : s'.keys = s.keys) :
    s'.view = s.view ∧ ∀ p k, s'.At p k ↔ s.At p k := by
  have hkey := key_congr hk
  exact hT.same_view hroot (fun _ => by rw [hkey]) (fun _ => by rw [hkey]) (fun _ => by rw [hkey])

end Paths

section Values

variable {s s' : St} {L : List KeyId} {p : List FName} {k : KeyId} {n : FName} {x : Key}
  {v : Option (UInt32 × List UInt8)}

theorem Rewrites.view (h : Rewrites s s' k x) (hT : Tree s L) (hk : s.At p k)
    (hx : valueMap x.values = update (valueMap (s.key k).values) n v) :
    s'.view = s.view.assign p n v := by
  have hlook : s'.lookup = s.lookup := by
    have hname : s'.fname = s.fname := funext fun j => congrArg fold (skel_name (h.skel_eq j))
    funext b m
    rw [St.lookup, St.lookup, hname, skel_child (h.skel_eq b)]
  funext q
  rw [St.view, hlook, h.anchored.root, Maps.assign, hk.view, Option.map_some]
  by_cases hq : q = p
  · subst hq
    rw [update_self, show walk s.lookup s.root q = some k from hk, Option.map_some,
      h.key_self, hx]
  · rw [update_of_ne hq, St.view]
    cases hw : walk s.lookup s.root q with
    | none => rfl
    | some j =>
      have hjk : j ≠ k := by
        rintro rfl
        exact hq (hT.at_inj hw hk)
      rw [Option.map_some, Option.map_some, h.key_ne hjk]

end Values

/-! ### New keys -/

section New

variable {e : Env} {s s' : St} {L : List KeyId} {p q : List FName} {k k' c j : KeyId} {name : Name}

theorem hang_values (hne : c ≠ k) : ((hang e s k c).key j).values = (s.key j).values := by
  by_cases hjc : j = c
  · rw [hjc, hang_key_child hne]
  · by_cases hjk : j = k
    · rw [hjk, hang_key_parent hne]
    · rw [hang_key_ne hjc hjk]

theorem link_planted (h : Core s (c :: L)) (h' : Core (linkChild e s k c) L) (hkc : k < c)
    (hnew : ∀ d ∈ (s.key k).child, s.fname d ≠ s.fname c) :
    Planted s.lookup (linkChild e s k c).lookup k (s.fname c) c := by
  have hne : c ≠ k := Nat.ne_of_gt hkc
  have hname : (linkChild e s k c).fname = s.fname := by
    funext j
    rw [St.fname, linkChild_key]
    exact congrArg fold (hang_name hne j)
  have hchild : ∀ {a b}, b ∈ ((linkChild e s k c).key a).child ↔
      b ∈ (s.key a).child ∨ b = c ∧ a = k := by
    intro a b
    rw [linkChild_key, mem_hang_child hne]
  constructor
  case edge =>
    rw [h'.tree.lookup_eq_some, hchild, hname]
    exact ⟨.inr ⟨rfl, rfl⟩, rfl⟩
  case same =>
    intro b m hbm
    refine Option.ext fun x => ?_
    rw [h'.tree.lookup_eq_some, h.tree.lookup_eq_some, hchild, hname]
    constructor
    · rintro ⟨hx | ⟨rfl, hb⟩, hn⟩
      · exact ⟨hx, hn⟩
      · exact absurd ⟨hb, hn.symm⟩ hbm
    · exact fun hx => ⟨.inl hx.1, hx.2⟩
  case free => exact h.tree.lookup_eq_none.mpr hnew
  case leaf =>
    intro m
    refine h.tree.lookup_eq_none.mpr fun d hd => ?_
    rw [(h.tree.loose mem_cons_self).2.2.1] at hd
    exact absurd hd not_mem_nil
  case new =>
    intro b m hb
    exact (h.tree.loose_free mem_cons_self (h.tree.lookup_eq_some.mp hb).1).1 rfl
  case ne => exact hne

/-- **Linking an empty key** adds an empty map at its path. -/
theorem link_view (h : Core s (c :: L)) (h' : Core (linkChild e s k c) L) (hkc : k < c)
    (hnew : ∀ d ∈ (s.key k).child, s.fname d ≠ s.fname c) (hempty : (s.key c).values = [])
    (hk : s.At p k) :
    (linkChild e s k c).view = s.view.touch (p ++ [s.fname c]) ∧
      (linkChild e s k c).At (p ++ [s.fname c]) c ∧
      ∀ q j, s.At q j → (linkChild e s k c).At q j := by
  have hne : c ≠ k := Nat.ne_of_gt hkc
  have hp := link_planted (e := e) h h' hkc hnew
  have hcr : c ≠ s.root := by
    rintro rfl
    exact h.tree.root.2.2.2 mem_cons_self
  have hwalk : ∀ {q x}, (linkChild e s k c).At q x ↔
      s.At q x ∨ x = c ∧ q = p ++ [s.fname c] := by
    intro q x
    rw [St.At, linkChild_anchored.root, walk_plant hp hcr]
    refine or_congr Iff.rfl (and_congr_right fun _ => ⟨?_, ?_⟩)
    · rintro ⟨q', rfl, hq'⟩
      rw [h.tree.at_inj hq' hk]
    · rintro rfl
      exact ⟨p, rfl, hk⟩
  have hfree : s.view (p ++ [s.fname c]) = none := by
    refine view_eq_none.mpr fun x hx => ?_
    obtain ⟨b, hb, hbx⟩ := walk_concat_eq_some.mp hx
    obtain rfl := St.At.unique hb hk
    rw [hp.free] at hbx
    exact absurd hbx nofun
  refine ⟨funext fun q => ?_, hwalk.mpr (.inr ⟨rfl, rfl⟩), fun q j hq => hwalk.mpr (.inl hq)⟩
  rw [Maps.touch_of_none hfree]
  by_cases hq : q = p ++ [s.fname c]
  · rw [hq, update_self, (hwalk.mpr (.inr ⟨rfl, rfl⟩)).view, linkChild_key,
      hang_values hne, hempty]
    rfl
  · rw [update_of_ne hq]
    cases hw : s.view q with
    | none =>
      refine view_eq_none.mpr fun x hx => ?_
      rcases hwalk.mp hx with hx | hx
      · exact view_eq_none.mp hw x hx
      · exact hq hx.2
    | some v =>
      obtain ⟨x, hx, hv⟩ := Option.map_eq_some_iff.mp hw
      rw [(hwalk.mpr (.inl hx)).view, linkChild_key, hang_values hne, hv]

theorem fresh_view (h : Core s L) (name cls : Name) (vol fix : Bool) :
    (fresh e s name cls vol fix).view = s.view ∧
      ∀ q j, (fresh e s name cls vol fix).At q j ↔ s.At q j := by
  have hkey : ∀ {j}, s.Open j → (fresh e s name cls vol fix).key j = s.key j := fun hj =>
    fresh_key_ne fun hjn => h.not_live_next (hjn ▸ hj.1)
  exact h.tree.same_view rfl (fun hj => by rw [hkey hj]) (fun hj => by rw [hkey hj])
    (fun hj => by rw [hkey hj])

theorem grow_view {ns : List Name} {create : Bool} (h : Core s []) (hk : s.At p k)
    (hg : Grow e create s k ns s' k') :
    s'.view = s.view.ensure p (ns.map fold) ∧ s'.At (p ++ ns.map fold) k' ∧
      ∀ q j, s.At q j → s'.At q j := by
  induction hg generalizing p with
  | nil s k =>
    rw [map_nil, append_nil]
    exact ⟨rfl, hk, fun _ _ hq => hq⟩
  | @found s s' k c k' name ns hfind _ ih =>
    have hc : s.At (p ++ [fold name]) c := hk.snoc ((findChild_eq s k name).symm.trans hfind)
    obtain ⟨hv, hat, hkeep⟩ := ih h hc
    rw [map_cons, Maps.ensure, Maps.touch_of_some hc.view]
    rw [append_assoc] at hat
    exact ⟨hv, hat, hkeep⟩
  | @made s s' k k' name ns cls vol _ hfind _ hq _ ih =>
    have ho := h.tree.open_at hk
    have hlt : k < s.next := (h.ledger.addr ho.1).2
    have hne : k ≠ s.next := Nat.ne_of_lt hlt
    have hplant := h.plant (e := e) ho hfind hq
    have hfresh := fresh_view (e := e) h name cls vol false
    have hfname : (fresh e s name cls vol false).fname s.next = fold name := by
      rw [St.fname, fresh_key_self]
      rfl
    have hnone := h.tree.lookup_eq_none.mp (findChild_eq s k name ▸ hfind)
    have hnew : ∀ d ∈ ((fresh e s name cls vol false).key k).child,
        (fresh e s name cls vol false).fname d ≠ (fresh e s name cls vol false).fname s.next := by
      intro d hd
      rw [fresh_key_ne hne] at hd
      have hdne : d ≠ s.next := fun hd' => h.not_live_next (hd' ▸ (h.tree.kid hd).1)
      rw [hfname, St.fname, fresh_key_ne hdne]
      exact hnone d hd
    have hempty : ((fresh e s name cls vol false).key s.next).values = [] := by
      rw [fresh_key_self]
      rfl
    obtain ⟨hv, hat, hkeep⟩ := link_view (h.fresh hq) hplant hlt hnew hempty ((hfresh.2 p k).mpr hk)
    rw [hfname, hfresh.1] at hv
    rw [hfname] at hat
    obtain ⟨hv', hat', hkeep'⟩ := ih hplant hat
    rw [map_cons, Maps.ensure, ← hv]
    rw [append_assoc] at hat'
    exact ⟨hv', hat', fun q j hq => hkeep' q j (hkeep q j ((hfresh.2 q j).mpr hq))⟩

theorem labelled_view (h : Core s L) (c : KeyId) (uid : UInt32) :
    (labelled s c uid).view = s.view ∧ ∀ q j, (labelled s c uid).At q j ↔ s.At q j := by
  have hsame : ∀ {β : Type} (g : Key → β),
      (∀ x : Key, g { x with accountUid := uid, accountRealm := 2 } = g x) →
      ∀ j, g ((labelled s c uid).key j) = g (s.key j) := by
    intro β g hg j
    by_cases hj : j = c
    · rw [hj, labelled_key_self, hg]
    · rw [labelled_key_ne hj]
  exact h.tree.same_view rfl (fun _ => hsame Key.name (fun _ => rfl) _)
    (fun _ => hsame Key.child (fun _ => rfl) _) (fun _ => hsame Key.values (fun _ => rfl) _)

end New

/-! ### Keys that go -/

section Gone

variable {e : Env} {s s' : St} {L : List KeyId} {S : KeyId → Prop} {p q : List FName}
  {k j x : KeyId}

theorem CutOff.pruned (hT : Tree s L) (hT' : Tree s' L) (h : CutOff s s' j k S) :
    Pruned s.lookup s'.lookup S j (s.fname k) where
  cut := by
    rw [hT'.lookup_eq_none]
    intro d hd hn
    obtain ⟨-, hdj, hdk⟩ := (h.mem_child hT).mp hd
    have hname : s'.fname d = s.fname d := congrArg fold (h.name (h.child_out hT hd))
    exact hdk ((hT.order j).inj hdj h.part (hname.symm.trans hn))
  same := by
    intro b m hb hbm
    refine Option.ext fun x => ?_
    rw [hT'.lookup_eq_some, hT.lookup_eq_some, h.mem_child hT]
    constructor
    · rintro ⟨⟨-, hx, hxk⟩, hn⟩
      have hx' : x ∈ (s'.key b).child := (h.mem_child hT).mpr ⟨hb, hx, hxk⟩
      have hname : s'.fname x = s.fname x := congrArg fold (h.name (h.child_out hT hx'))
      exact ⟨hx, hname.symm.trans hn⟩
    · rintro ⟨hx, hn⟩
      have hxk : x ≠ k := by
        rintro rfl
        exact hbm ⟨(hT.kid hx).2.1.symm.trans (hT.kid h.part).2.1, hn.symm⟩
      have hx' : x ∈ (s'.key b).child := (h.mem_child hT).mpr ⟨hb, hx, hxk⟩
      have hname : s'.fname x = s.fname x := congrArg fold (h.name (h.child_out hT hx'))
      exact ⟨⟨hb, hx, hxk⟩, hname.trans hn⟩
  below := by
    intro c hc
    rw [hT.lookup_self h.part] at hc
    exact Option.some.inj hc ▸ h.self
  down := fun hb hd => h.down hb (hT.lookup_eq_some.mp hd).1
  into := by
    intro b m d hb hd hSd
    obtain ⟨hdb, hn⟩ := hT.lookup_eq_some.mp hd
    obtain rfl := h.into hb hdb hSd
    exact ⟨(hT.kid hdb).2.1.symm.trans (hT.kid h.part).2.1, hn.symm⟩

theorem Tree.below_at (hT : Tree s L) (hk : s.At p k) (hx : s.At q x) :
    Below s k x ↔ p <+: q := by
  constructor
  · intro hb
    induction hb generalizing q with
    | refl => exact hT.at_inj hk hx ▸ prefix_refl p
    | @tail b c hb hc ih =>
      obtain ⟨r, hr⟩ : ∃ r, s.At r b := by
        rcases eq_nil_or_concat' q with rfl | ⟨q, n, rfl⟩
        · obtain rfl := Option.some.inj hx
          exact absurd hT.root.2.2.1 (hT.kid_parent_ne hc)
        · obtain ⟨a, ha, hac⟩ := walk_concat_eq_some.mp hx
          have hab : a = b := (hT.kid (hT.lookup_eq_some.mp hac).1).2.1.symm.trans (hT.kid hc).2.1
          exact ⟨q, hab ▸ ha⟩
      have hrq := hT.at_inj (hr.snoc (hT.lookup_self hc)) hx
      exact (ih hr).trans (hrq ▸ prefix_append r _)
  · rintro ⟨r, rfl⟩
    induction r using List.reverseRecOn generalizing x with
    | nil =>
      rw [append_nil] at hx
      exact St.At.unique hk hx ▸ Relation.ReflTransGen.refl
    | append_singleton r n ih =>
      rw [← append_assoc] at hx
      obtain ⟨b, hb, hbx⟩ := walk_concat_eq_some.mp hx
      exact (ih hb).child (hT.lookup_eq_some.mp hbx).1

theorem CutOff.view (hT : Tree s L) (hT' : Tree s' L) (h : CutOff s s' j k S)
    (hS : ∀ {q x}, s.At q x → (S x ↔ p <+: q))
    (hvalues : ∀ {x}, ¬S x → (s'.key x).values = (s.key x).values) :
    s'.view = s.view.prune p ∧ ∀ q x, s'.At q x ↔ s.At q x ∧ ¬p <+: q := by
  have hat : ∀ q x, s'.At q x ↔ s.At q x ∧ ¬S x := by
    intro q x
    rw [St.At, h.rootEq]
    exact walk_prune (h.pruned hT hT') h.root
  refine ⟨funext fun q => ?_, fun q x => (hat q x).trans (and_congr_right fun hq => not_congr (hS hq))⟩
  rw [Maps.prune]
  split
  case isTrue hp => exact view_eq_none.mpr fun x hx => ((hat q x).mp hx).2 ((hS ((hat q x).mp hx).1).mpr hp)
  case isFalse hp =>
    cases hw : s.view q with
    | none => exact view_eq_none.mpr fun x hx => view_eq_none.mp hw x ((hat q x).mp hx).1
    | some v =>
      obtain ⟨x, hx, hv⟩ := Option.map_eq_some_iff.mp hw
      have hSx : ¬S x := fun hSx => hp ((hS hx).mp hSx)
      rw [((hat q x).mpr ⟨hx, hSx⟩).view, hvalues hSx, hv]

end Gone

/-! ### Provisioning -/

section Provision

variable {e : Env} {s s' t : St} {L : List KeyId} {p q : List FName} {k f en sw j : KeyId}
  {uid : UInt32}

theorem Hives.at_user (h : Hives s) (hT : Tree s L) : s.At [fold (ascii "USER")] s.user := by
  have hroot : s.At [] s.root := rfl
  have hl := hT.lookup_self (h.user_open hT).2
  rw [h.user.2.2] at hl
  exact hroot.snoc hl

def hivePath (uid : UInt32) : List FName := [fold (ascii "USER"), fold (accountSid uid)]

theorem Hives.at_child (h : Hives s) (hT : Tree s L)
    (hfind : findChild s s.user (accountSid uid) = some k) : s.At (hivePath uid) k :=
  (h.at_user hT).snoc ((findChild_eq s s.user (accountSid uid)).symm.trans hfind)

theorem Loose.settle_view (h : Loose s uid f en sw) :
    (settle e s uid f en sw).view =
        ((s.view.touch (hivePath uid)).touch (hivePath uid ++ [fold (ascii "Environment")])).touch
          (hivePath uid ++ [fold (ascii "Software")]) ∧
      (settle e s uid f en sw).At (hivePath uid) f ∧
      ∀ q j, s.At q j → (settle e s uid f en sw).At q j := by
  obtain ⟨huf, hue, hus, hfe, hfs, hes⟩ := h.user_ne
  have hff : s.fname f = fold (accountSid uid) := congrArg fold h.fname
  have h0 : Core s [f, sw, en] :=
    ⟨h.core.tree.of_mem fun c => by simp only [mem_cons, not_mem_nil]; tauto,
      h.core.labels, h.core.ledger⟩
  have h1 := h.core_second (e := e)
  have h1 : Core (labelled (linkChild e s s.user f) f uid) [en, sw] :=
    ⟨h1.tree.of_mem fun c => by simp only [mem_cons, not_mem_nil]; tauto,
      h1.labels, h1.ledger⟩
  -- the hive
  obtain ⟨v1, a1, k1⟩ := link_view (e := e) h0 h.core_first h.lt.1
    (fun d hd => hff ▸ h.free d hd) h.empty.1 (h.hives.at_user h.core.tree)
  rw [hff] at v1 a1
  obtain ⟨v2, a2⟩ := labelled_view (h.core_first (e := e)) f uid
  -- `Environment`
  have hen : (labelled (linkChild e s s.user f) f uid).key en = s.key en := by
    rw [labelled_key_ne hfe.symm, first_ne hfe.symm hue.symm]
  have hfen : (labelled (linkChild e s s.user f) f uid).fname en = fold (ascii "Environment") := by
    rw [St.fname, hen, h.ename]
  obtain ⟨v3, a3, k3⟩ := link_view (e := e) h1 h.core_third h.lt.2.1
    (fun d hd => by
      rw [h.second_f] at hd
      exact absurd (h.leaf.1 ▸ hd) not_mem_nil)
    (by rw [hen]; exact h.empty.2.1) ((a2 _ _).mpr a1)
  rw [hfen] at v3
  -- `Software`
  have hsw : (linkChild e (labelled (linkChild e s s.user f) f uid) f en).key sw = s.key sw :=
    third_ne hfs.symm hus.symm hes.symm
  have hfsw : (linkChild e (labelled (linkChild e s s.user f) f uid) f en).fname sw =
      fold (ascii "Software") := by
    rw [St.fname, hsw, h.sname]
  have hfen3 : (linkChild e (labelled (linkChild e s s.user f) f uid) f en).fname en =
      fold (ascii "Environment") := by
    rw [St.fname, h.third_en]
    exact congrArg fold h.ename
  have hat3 := k3 _ _ ((a2 _ _).mpr a1)
  obtain ⟨v4, -, k4⟩ := link_view (e := e) h.core_third h.core_settle (h.lt.2.1.trans h.lt.2.2)
    (fun d hd => by
      rw [h.third_f] at hd
      obtain rfl := mem_singleton.mp hd
      rw [hfen3, hfsw]
      decide)
    (by rw [hsw]; exact h.empty.2.2) hat3
  rw [hfsw, v3, v2, v1] at v4
  exact ⟨v4, k4 _ _ hat3, fun q j hq => k4 _ _ (k3 _ _ ((a2 _ _).mpr (k1 _ _ hq)))⟩

theorem drafted_view (h : Core s []) (uid : UInt32) :
    (drafted e s uid).view = s.view ∧ ∀ q j, (drafted e s uid).At q j ↔ s.At q j := by
  have hkey : ∀ {j}, s.Open j → (drafted e s uid).key j = s.key j := by
    intro j hj
    rw [St.key, h.old_key hj.1, ← St.key]
  exact h.tree.same_view rfl (fun hj => by rw [hkey hj]) (fun hj => by rw [hkey hj])
    (fun hj => by rw [hkey hj])

theorem Retired.view (h : Retired s s' k) (hC : Core s L) (hk : k ∈ (s.key s.user).child)
    (hp : s.At p k) :
    s'.view = s.view.prune p ∧ ∀ q x, s'.At q x ↔ s.At q x ∧ ¬p <+: q := by
  refine (h.cutOff hC.tree hk).view hC.tree (h.core hC hk).tree (fun hq => hC.tree.below_at hp hq) ?_
  intro x hx
  by_cases hxu : x = s.user
  · rw [hxu, h.user]
  · rw [h.key_outside hx hxu]

/-- Nothing is below a path where nothing is. -/
theorem prune_view (hp : s.view p = none) : s.view.prune p = s.view := by
  funext q
  rw [Maps.prune]
  split
  case isFalse => rfl
  case isTrue hq =>
    obtain ⟨r, rfl⟩ := hq
    have hw : walk s.lookup s.root p = none := Option.map_eq_none_iff.mp hp
    rw [St.view, walk_append, hw]
    rfl

theorem provisionUser_view (h : Core s []) (hH : Hives s) (uid : UInt32) :
    (provisionUser e s uid).2.view = s.view ∨
      (provisionUser e s uid).1 = .success ∧
        (provisionUser e s uid).2.view = s.view.install (hivePath uid) := by
  rcases provisionUser_cases (e := e) h hH uid with
    ⟨k, -, -, -, heq⟩ | ⟨s', heq, hk, -, ha⟩ | ⟨t, ht, hL, hd, -, heq⟩
  · rw [heq]
    exact .inl rfl
  · rw [heq]
    exact .inl (h.tree.same_of_keys ha.root hk).1
  · rw [heq]
    refine .inr ⟨rfl, ?_⟩
    have hdv := drafted_view (e := e) h uid
    have hview : t.view = s.view.prune (hivePath uid) := by
      rcases ht with ⟨hnone, rfl⟩ | ⟨k, hfind, hret⟩
      · have hno : s.view (hivePath uid) = none := by
          refine view_eq_none.mpr fun x hx => ?_
          obtain ⟨b, hb, hbx⟩ := walk_concat_eq_some (p := [fold (ascii "USER")]).mp hx
          obtain rfl := St.At.unique hb (hH.at_user h.tree)
          rw [findChild_eq, hbx] at hnone
          exact absurd hnone nofun
        rw [hdv.1, prune_view hno]
      · have hat := hH.at_child h.tree hfind
        rw [findChild_eq] at hfind
        have huser := (hH.user_open h.tree).1
        have hmem : k ∈ ((drafted e s uid).key (drafted e s uid).user).child := by
          have hold : (drafted e s uid).key s.user = s.key s.user := by
            rw [St.key, h.old_key huser.1, ← St.key]
          rw [drafted_anchored.user, hold]
          exact (h.tree.lookup_eq_some.mp hfind).1
        rw [(hret.view hd hmem ((hdv.2 _ _).mpr hat)).1, hdv.1]
    rw [hL.settle_view.1, hview, Maps.install]

end Provision

/-! ### The other calls -/

section Calls

variable {e : Env} {s s' : St} {p q : List FName} {k j : KeyId} {h : Handle}

theorem regDeleteKey_values (hj : j ≠ k) :
    ((regDeleteKey e s k).2.key j).values = (s.key j).values := by
  rw [regDeleteKey]
  split
  case isTrue => rfl
  case isFalse =>
  split
  case isTrue => rfl
  case isFalse =>
  have hkey : (notifyDropKey e (notifyFire e s (s.key k).parent changeName) k .success).key =
      s.key := notifyDropKey_key.trans notifyFire_key
  show ((bury (unhang e (notifyDropKey e (notifyFire e s (s.key k).parent changeName) k .success)
    (s.key k).parent k) k).key j).values = _
  rw [bury_key_ne hj, unhang, key_put_ne hj, key_put, hkey]
  split
  case isTrue hjp => rw [hjp]
  case isFalse => rfl

/-- **Deleting a key** removes its path, and nothing was below it. -/
theorem regDeleteKey_view (hC : Core s []) (hH : Hives s) (hk : s.Live k) :
    (regDeleteKey e s k).1 ≠ .success ∧ (regDeleteKey e s k).2 = s ∨
      (regDeleteKey e s k).1 = .success ∧ ∃ p, s.At p k ∧ p ≠ [] ∧
        (∀ q, p <+: q → q ≠ p → s.view q = none) ∧
        (regDeleteKey e s k).2.view = s.view.prune p := by
  rcases regDeleteKey_spec (e := e) hC hk hH.root with
    ⟨hst, hs, -⟩ | ⟨hst, hd, hleaf, hcut, hC', -⟩
  · exact .inl ⟨hst, hs⟩
  · obtain ⟨p, hp⟩ := hC.tree.exists_at ⟨hk, hd⟩
    have hbelow : ∀ {x}, Below s k x → x = k := by
      intro x hx
      rcases hx.cases_head with hx | ⟨a, ha, -⟩
      · exact hx.symm
      · rw [hleaf] at ha
        exact absurd ha not_mem_nil
    have hS : ∀ {q x}, s.At q x → (x = k ↔ p <+: q) := fun {q x} hq =>
      ⟨fun hx => hC.tree.at_inj hp (hx ▸ hq) ▸ prefix_refl p,
        fun hpq => hbelow ((hC.tree.below_at hp hq).mpr hpq)⟩
    refine .inr ⟨hst, p, hp, ?_, ?_, (hcut.view hC.tree hC'.tree hS
      fun hx => regDeleteKey_values hx).1⟩
    · rintro rfl
      obtain rfl := Option.some.inj hp
      exact hcut.root rfl
    · intro q hpq hne
      refine view_eq_none.mpr fun x hx => hne ?_
      exact hC.tree.at_inj ((hS hx).mpr hpq ▸ hx) hp

theorem Tree.refs_view {L : List KeyId} (hT : Tree s L) (hroot : s'.root = s.root)
    (h : ∀ {j}, s.Open j → ∃ n, s'.key j = { s.key j with refs := n }) : s'.view = s.view := by
  have hsame : ∀ {β : Type} (g : Key → β), (∀ x n, g { x with refs := n } = g x) →
      ∀ {j}, s.Open j → g (s'.key j) = g (s.key j) := by
    intro β g hg j hj
    obtain ⟨n, hn⟩ := h hj
    rw [hn, hg]
  exact (hT.same_view hroot (hsame Key.name fun _ _ => rfl) (hsame Key.child fun _ _ => rfl)
    (hsame Key.values fun _ _ => rfl)).1

theorem dropRef_view (hC : Core s []) (h : Handle) : (dropRef s h).view = s.view := by
  refine hC.tree.refs_view (dropRef_anchored s h).root fun {j} hj => ?_
  by_cases hjk : j = h.key
  · subst hjk
    have hd : ¬((s.key h.key).refs - 1 = 0 ∧ (s.key h.key).deleted = true) := fun hd =>
      absurd (hj.2.symm.trans hd.2) nofun
    refine ⟨(s.key h.key).refs - 1, ?_⟩
    rw [St.key, dropRef_keys, update_self, if_neg hd, Option.getD_some]
  · exact ⟨(s.key j).refs, by rw [dropRef_key_ne hjk]⟩

theorem regKeyObjectFree_view (hC : Core s []) (h : Handle) :
    (regKeyObjectFree e s h).view = s.view := by
  have hd := hC.sweep (e := e) (fun n => n.keyObj == h.id) .notifyCleanup
  refine (dropRef_view hd h).trans ?_
  exact (hC.tree.same_of_keys sweep_anchored.root notifySweep_rest.1).1

theorem openHandle_view (hC : Core s []) (os : List Handle) (i : ObjId) :
    (({ s with objects := os, next := i } : St).put k
      { s.key k with refs := (s.key k).refs + 1 }).view = s.view := by
  refine hC.tree.refs_view rfl fun {j} _ => ?_
  by_cases hjk : j = k
  · exact ⟨(s.key k).refs + 1, by rw [hjk, key_put_self]⟩
  · exact ⟨(s.key j).refs, by rw [key_put_ne hjk]; rfl⟩

theorem newKeyHandle_view (hC : Core s []) (hk : s.Live k) (slotFree : Bool) :
    (newKeyHandle e s k slotFree).2.view = s.view := by
  rw [newKeyHandle]
  split
  case isFalse => exact (hC.tree.same_of_keys rfl rfl).1
  case isTrue =>
    split
    case isTrue => exact openHandle_view hC _ _
    case isFalse =>
      exact (regKeyObjectFree_view (hC.openHandle hk false) _).trans (openHandle_view hC _ _)

theorem driverKeyHandle_view (hC : Core s []) (hk : s.Live k) (slotFree : Bool) :
    (driverKeyHandle s k slotFree).2.view = s.view := by
  rw [driverKeyHandle]
  split
  case isTrue => exact openHandle_view hC _ _
  case isFalse => exact (dropRef_view (hC.openHandle hk true) _).trans (openHandle_view hC _ _)

theorem regNotifyAdd_view (hC : Core s []) (o : ObjId) (event : Nat) (p : ProcId) (ident iosb : Nat)
    (filter : UInt32) (subtree : Bool) :
    (regNotifyAdd e s k o event p ident iosb filter subtree).2.view = s.view := by
  rw [regNotifyAdd]
  split
  · rfl
  split
  · rfl
  split
  · rfl
  split
  · exact (hC.tree.same_of_keys rfl rfl).1
  · exact (hC.tree.same_of_keys rfl rfl).1

end Calls

/-! ### Reachable states -/

section Reach

variable {e : Env} {s : St} {p q : List FName} {k j c : KeyId} {op : Op}

/-- The tree, the counters, the handles, the quota, the labels and the registrations of a state. -/
structure Sound (s : St) : Prop where
  /-- The children of a key are strictly sorted. -/
  sorted : ∀ k, (s.key k).child.Pairwise fun a b => nameCmp (s.key a).name (s.key b).name = .lt
  found : ∀ k name c, findChild s k name = some c ↔
    c ∈ (s.key k).child ∧ nameCmp (s.key c).name name = .eq
  /-- No two values of a key have one name. -/
  names : ∀ k, (s.key k).values.Pairwise fun v w => nameCmp v.name w.name ≠ .eq
  nsubkeys : ∀ k, (s.key k).nsubkeys = (s.key k).child.length
  nvalues : ∀ k, (s.key k).nvalues = (s.key k).values.length
  tail : ∀ k, (s.key k).valuesTail = ((s.key k).values.getLast?.map Val.id).getD 0
  refs : ∀ k, (s.key k).refs = (handlesOn s.objects k).length
  /-- A key is there for the tree, or deleted and there for its handles alone. -/
  kept : ∀ k, s.Live k → (s.key k).deleted = false ∧ (∃ p, s.At p k) ∨
    (s.key k).deleted = true ∧ (∀ p, ¬s.At p k) ∧ ∃ h ∈ s.objects, h.key = k
  handles : ∀ h ∈ s.objects, s.Live h.key
  /-- The bytes are the sum over the keys and values that exist. -/
  bytes : s.bytes = charge s.keys s.next
  all : ∀ k, s.Live k → k < s.next
  quota : s.bytes ≤ regQuotaBytes
  /-- Below a child of `USER` every key carries its labels, and an account hive bears its name. -/
  labels : ∀ c ∈ (s.key s.user).child, ∀ k, Below s c k →
    (s.key k).accountUid = (s.key c).accountUid ∧ (s.key k).accountRealm = (s.key c).accountRealm
  hives : ∀ c ∈ (s.key s.user).child, (s.key c).accountRealm = 1 ∨
    (s.key c).accountRealm = 2 ∧ (s.key c).name = accountSid (s.key c).accountUid
  /-- A pending registration names a key of the tree, by an open key object. -/
  watched : ∀ n ∈ s.notify, s.Live n.key ∧ (s.key n.key).deleted = false ∧
    ∃ h ∈ s.objects, h.id = n.keyObj ∧ h.key = n.key ∧ h.driver = false
  count : s.notifyCount = s.notify.length
  /-- Every registration is pending, or has completed once. -/
  once : (s.notify.map Notify.id ++ s.done.map fun c => c.reg.id).Perm s.registered ∧
    s.registered.Nodup

/-- What a call does to the map of maps. -/
def Refines (e : Env) (s : St) (op : Op) : Prop :=
  let st := (op.call e s).1
  let m := s.view
  let s' := (op.call e s).2
  match op with
  | .resolve start path r =>
    let ns := (components path).map fun c => fold c.1
    match (regResolve e s start path r).1 with
    | .ok (k, _) => ∃ p, s.At p start ∧ s'.view = m.ensure p ns ∧ s'.At (p ++ ns) k ∧
        (r.create = false → s' = s)
    | .error _ => (s'.view = m ∨ ∃ p ms, s.At p start ∧ ms <+: ns ∧ s'.view = m.ensure p ms) ∧
        (r.create = false → s'.view = m ∧ ∀ p, s.At p start →
          checkComponents (components path) = none → m (p ++ ns) = none)
  | .authorize p _ _ _ _ => s'.view = m ∨ st = .success ∧
      ∃ sub, e.subject p = some (sub, true) ∧ s'.view = m.install (hivePath sub.uid)
  | .provision uid => s'.view = m ∨ st = .success ∧ s'.view = m.install (hivePath uid)
  | .setValue k name type data => st ≠ .success ∧ s'.view = m ∨ st = .success ∧
      ∃ p, s.At p k ∧ s'.view = m.assign p (fold name) (some (type, data))
  | .deleteValue k name =>
      st ≠ .success ∧ s'.view = m ∧ (∀ p c, s.At p k → m p = some c → c (fold name) = none) ∨
      st = .success ∧ ∃ p c, s.At p k ∧ m p = some c ∧ c (fold name) ≠ none ∧
        s'.view = m.assign p (fold name) none
  | .deleteKey k => st ≠ .success ∧ s'.view = m ∨ st = .success ∧
      ∃ p, s.At p k ∧ p ≠ [] ∧ (∀ q, p <+: q → q ≠ p → m q = none) ∧ s'.view = m.prune p
  | .openKey _ _ | .openDriver _ _ | .closeKey _ | .closeDriver _ | .notify _ _ _ _ _ _ _ =>
      s'.view = m

theorem Labels.below (h : Labels s) (hT : Tree s []) (hc : c ∈ (s.key s.user).child)
    (hk : Below s c k) : (s.key k).accountUid = (s.key c).accountUid ∧
      (s.key k).accountRealm = (s.key c).accountRealm := by
  induction hk with
  | refl => exact ⟨rfl, rfl⟩
  | @tail a b ha hb ih =>
    have hau : a ≠ s.user := by
      rintro rfl
      exact absurd (hT.below_le ha) (Nat.not_le.mpr (hT.kid hc).2.2.2)
    obtain ⟨hu, hr⟩ := h.inherit hb hau
    exact ⟨hu.trans ih.1, hr.trans ih.2⟩

theorem Reach.sound (h : Reach s) : Sound s := by
  obtain ⟨⟨hT, hB, hL⟩, -, hseed⟩ := h.core
  constructor
  case sorted => exact fun k => (hT.order k).imp fun hlt => nameCmp_eq_lt.mpr hlt
  case found =>
    intro k name c
    rw [findChild_eq, hT.lookup_eq_some, nameCmp_eq_eq]
    exact Iff.rfl
  case names => exact fun k => (hL.record k).names.imp fun hne => fun heq => hne (nameCmp_eq_eq.mp heq)
  case nsubkeys => exact fun k => (hL.record k).nsubkeys
  case nvalues => exact fun k => (hL.record k).nvalues
  case tail => exact fun k => (hL.record k).tail
  case refs => exact hL.refs
  case kept =>
    intro k hk
    cases hd : (s.key k).deleted with
    | false => exact .inl ⟨rfl, hT.exists_at ⟨hk, hd⟩⟩
    | true =>
      refine .inr ⟨rfl, fun p hp => ?_, ?_⟩
      · exact absurd (hd.symm.trans (hT.open_at hp).2) nofun
      · have hne := hL.held hd
        rw [hL.refs] at hne
        obtain ⟨o, ho⟩ := exists_mem_of_length_pos (Nat.pos_of_ne_zero hne)
        obtain ⟨ho, hkey⟩ := mem_filter.mp ho
        exact ⟨o, ho, by simpa using hkey⟩
  case handles => exact fun o ho => hL.live_handle ho
  case bytes => exact hL.bytes
  case all => exact fun k hk => (hL.addr hk).2
  case quota => exact hL.quota hseed
  case labels => exact fun c hc k hk => hB.below hT hc hk
  case hives => exact fun c hc => hB.hive hc
  case watched => exact fun n hn => ⟨hL.live_watched hn, hL.watched n hn⟩
  case count => exact hL.count
  case once => exact ⟨hL.once, hL.fresh.1⟩

theorem regResolve_refines (hC : Core s []) {start : KeyId} (hs : s.Live start) (path : Name)
    (r : Request) : Refines e s (.resolve start path r) := by
  have hns : (components path).map (fun c => fold c.1) = ((components path).map Prod.fst).map fold :=
    (map_map ..).symm
  rcases regResolve_grow (e := e) hC hs path r with
    ⟨k', m, s', heq, ho, hg⟩ | ⟨st, s', heq, ⟨rfl, hbad⟩ | ⟨ho, s₁, k', ms, hpre, hg, hi, hn⟩⟩
  · simp only [Refines, Op.call, heq]
    obtain ⟨p, hp⟩ := hC.tree.exists_at ho
    obtain ⟨hv, hat, -⟩ := grow_view hC hp hg
    rw [hns]
    refine ⟨p, hp, hv, hat, fun hcreate => ?_⟩
    rw [hcreate] at hg
    exact hg.same
  · simp only [Refines, Op.call, heq]
    refine ⟨.inl trivial, fun _ => ⟨trivial, fun p hp hok => ?_⟩⟩
    rcases hbad with hd | hbad
    · exact Bool.noConfusion (hd.symm.trans (hC.tree.open_at hp).2)
    · exact absurd hok hbad
  · simp only [Refines, Op.call, heq]
    obtain ⟨p, hp⟩ := hC.tree.exists_at ho
    obtain ⟨hv, hat, -⟩ := grow_view hC hp hg
    have hidle : s'.view = s₁.view :=
      ((hC.grow ho hg).1.tree.same_of_keys hi.anchored.root hi.keys).1
    refine ⟨.inr ⟨p, ms.map fold, hp, ?_, hidle.trans hv⟩, fun hcreate => ?_⟩
    · rw [hns]
      exact hpre.map fold
    · rw [hcreate] at hg
      obtain rfl := hg.same
      obtain ⟨-, n, hpn, hnone⟩ := hn hcreate
      refine ⟨hidle, fun p' hp' _ => ?_⟩
      obtain rfl := hC.tree.at_inj hp hp'
      obtain ⟨r, hr⟩ := hpn
      have hw : walk s₁.lookup s₁.root (p ++ (ms ++ [n]).map fold) = none := by
        rw [map_append, ← append_assoc]
        refine walk_concat.trans ?_
        rw [show walk s₁.lookup s₁.root (p ++ ms.map fold) = some k' from hat, Option.bind_some,
          ← findChild_eq]
        exact hnone
      rw [hns, ← hr, map_append, ← append_assoc, St.view, walk_append, hw]
      rfl

/-- **Every call on a reachable state refines its update of the map.** -/
theorem Reach.refines (h : Reach s) (hv : op.Valid s) : Refines e s op := by
  obtain ⟨hC, hH, -⟩ := h.core
  cases op with
  | resolve start path r => exact regResolve_refines hC hv path r
  | authorize p start path access create =>
    rcases regAuthorizePath_cases (e := e) (s := s) p start path access create with
      hs | ⟨sub, hsub, hs⟩
    · exact .inl (congrArg St.view hs)
    · rcases provisionUser_view (e := e) hC hH sub.uid with hw | ⟨hst, hw⟩
      · exact .inl (show (regAuthorizePath ..).2.view = _ from hs ▸ hw)
      · exact .inr ⟨show (regAuthorizePath ..).1 = _ from hs ▸ hst, sub, hsub,
          show (regAuthorizePath ..).2.view = _ from hs ▸ hw⟩
  | provision uid => exact provisionUser_view hC hH uid
  | setValue k name type data =>
    obtain ⟨-, hcase⟩ := regSetValue_spec (e := e) hC.ledger hv name type data
    rcases hcase with ⟨hst, hk, ha⟩ | ⟨hst, hd, x, hr, hx⟩
    · exact .inl ⟨hst, (hC.tree.same_of_keys ha.root hk).1⟩
    · obtain ⟨p, hp⟩ := hC.tree.exists_at ⟨hv, hd⟩
      exact .inr ⟨hst, p, hp, hr.view hC.tree hp hx⟩
  | deleteValue k name =>
    obtain ⟨-, hcase⟩ := regDeleteValue_spec (e := e) hC.ledger hv name
    rcases hcase with ⟨hst, hs, hno⟩ | ⟨hst, hd, hsome, x, hr, hx⟩
    · refine .inl ⟨hst, congrArg St.view hs, fun p c hp hc => ?_⟩
      rw [hp.view] at hc
      exact Option.some.inj hc ▸ hno (hC.tree.open_at hp).2
    · obtain ⟨p, hp⟩ := hC.tree.exists_at ⟨hv, hd⟩
      exact .inr ⟨hst, p, _, hp, hp.view, hsome, hr.view hC.tree hp hx⟩
  | deleteKey k =>
    rcases regDeleteKey_view (e := e) hC hH hv with ⟨hst, hs⟩ | hdel
    · exact .inl ⟨hst, congrArg St.view hs⟩
    · exact .inr hdel
  | openKey k slotFree => exact newKeyHandle_view hC hv slotFree
  | openDriver k slotFree => exact driverKeyHandle_view hC hv slotFree
  | closeKey o => exact regKeyObjectFree_view hC o
  | closeDriver o => exact dropRef_view hC o
  | notify o event p ident iosb filter subtree =>
    exact regNotifyAdd_view hC o.id event p ident iosb filter subtree

/-- **The registry refines a map of maps and keeps its books**, from the default tree on through
any calls, whichever allocations fail. -/
theorem registry_refines_maps (h : Reach s) :
    Sound s ∧ ∀ (e : Env) (op : Op), op.Valid s → Refines e s op :=
  ⟨h.sound, fun _ _ hv => h.refines hv⟩

/-- Memory enough, and one account. -/
def oneAccount : Env where
  mem := fun _ => true
  now := 1
  subject := fun _ => some ({ uid := 1001, integrity := 0x2000, roles := 0 }, true)
  ident := fun _ => some 1

/-- The registry as the kernel starts with it. -/
def booted : St := (seedDefaults oneAccount).getD St.empty

theorem booted_spec : (seedDefaults oneAccount).isSome = true ∧ (booted.keys 2).isSome = true ∧
    (booted.keys booted.machine).isSome = true := by
  decide +kernel

theorem seedDefaults_booted : seedDefaults oneAccount = some booted := by
  obtain ⟨s, hs⟩ := Option.isSome_iff_exists.mp booted_spec.1
  rw [booted, hs, Option.getD_some]

theorem registry_refines_maps_booted : Sound booted ∧
    Refines oneAccount booted (.setValue 2 (ascii "Path") 1 (wide "C:\\SHZ")) := by
  have hv : (Op.setValue 2 (ascii "Path") 1 (wide "C:\\SHZ")).Valid booted := booted_spec.2.1
  have h := registry_refines_maps (Reach.boot oneAccount seedDefaults_booted)
  exact ⟨h.1, h.2 oneAccount _ hv⟩

end Reach

end Win98Modern.Registry
