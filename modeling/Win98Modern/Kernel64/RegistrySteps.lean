import Win98Modern.Kernel64.RegistryValues

/-!
# The calls on the registry

What each call comes to: the keys it changes and how (`regSetValue_spec`, `regDeleteKey_spec`,
`Grow`), and that the books still agree.
-/

namespace Win98Modern.Registry

open Function List Option

/-- The roots of the tree are where they were. -/
structure Anchored (s s' : St) : Prop where
  root : s'.root = s.root
  machine : s'.machine = s.machine
  user : s'.user = s.user
  seeded : s'.seeded = s.seeded

theorem Anchored.refl (s : St) : Anchored s s := ⟨rfl, rfl, rfl, rfl⟩

theorem Anchored.trans {s t u : St} (h : Anchored s t) (h' : Anchored t u) : Anchored s u :=
  ⟨h'.root.trans h.root, h'.machine.trans h.machine, h'.user.trans h.user,
    h'.seeded.trans h.seeded⟩

/-- `s'` is `s` with another key at `k`, at the same place of the tree. -/
structure Rewrites (s s' : St) (k : KeyId) (x : Key) : Prop where
  keys : s'.keys = update s.keys k (some x)
  skel : x.skel = (s.key k).skel
  fixed : x.fixed = (s.key k).fixed
  anchored : Anchored s s'

section Basics

variable {e : Env} {s s' : St} {k j : KeyId} {x : Key}

variable {status : Status} {what : UInt32}

theorem sweep_anchored {hit : Notify → Bool} : Anchored s (notifySweep e s hit status) := by
  rw [notifySweep_eq]
  exact ⟨rfl, rfl, rfl, rfl⟩

theorem notifyFire_keys : (notifyFire e s k what).keys = s.keys :=
  notifySweep_rest.1

theorem notifyFire_key : (notifyFire e s k what).key = s.key := notifySweep_key

theorem notifyFire_anchored : Anchored s (notifyFire e s k what) := sweep_anchored

theorem Ledger.fire (h : Ledger s) : Ledger (notifyFire e s k what) := h.sweep _ _

theorem notifyDropKey_keys : (notifyDropKey e s k status).keys = s.keys :=
  notifySweep_rest.1

theorem notifyDropKey_key : (notifyDropKey e s k status).key = s.key :=
  notifySweep_key

theorem notifyDropKey_quiet : ∀ n ∈ (notifyDropKey e s k status).notify, n.key ≠ k := by
  intro n hn
  simpa using (mem_notifySweep.mp hn).2

theorem notifyDropObj_quiet {o : ObjId} :
    ∀ n ∈ (notifyDropObj e s o status).notify, n.keyObj ≠ o := by
  intro n hn
  simpa using (mem_notifySweep.mp hn).2

theorem Rewrites.key_self (h : Rewrites s s' k x) : s'.key k = x := by
  rw [St.key, h.keys, update_self, getD_some]

theorem Rewrites.key_ne (h : Rewrites s s' k x) (hj : j ≠ k) : s'.key j = s.key j := by
  rw [St.key, h.keys, update_of_ne hj, St.key]

theorem Rewrites.skel_eq (h : Rewrites s s' k x) (j : KeyId) :
    (s'.key j).skel = (s.key j).skel := by
  by_cases hj : j = k
  · rw [hj, h.key_self, h.skel]
  · rw [h.key_ne hj]

theorem Rewrites.live (h : Rewrites s s' k x) (hk : s.Live k) : s'.Live j ↔ s.Live j := by
  rw [St.Live, h.keys, update_apply]
  split
  case isTrue hj => exact ⟨fun _ => hj ▸ hk, fun _ => rfl⟩
  case isFalse => rfl

theorem Rewrites.fire (h : Rewrites s s' k x) : Rewrites s (notifyFire e s' j what) k x where
  keys := notifyFire_keys.trans h.keys
  skel := h.skel
  fixed := h.fixed
  anchored := h.anchored.trans notifyFire_anchored

end Basics

section Values

variable {e : Env} {s : St} {k : KeyId}

/-- What the old value gives back is paid for. -/
theorem credit_le (h : Ledger s) (hk : s.Live k) (name : Name) :
    ((regFindValue s k name).map Val.allocSize).getD 0 ≤ s.bytes := by
  cases hold : regFindValue s k name with
  | none => exact Nat.zero_le _
  | some v =>
    have hrec := h.record k
    have hmem := ((regFindValue_some hrec).mp hold).1
    have hsum := valueBytes_replace (w := { v with allocSize := 0 }) hrec.ids hmem
    have hle' : v.allocSize ≤ (s.key k).valueBytes :=
      (Nat.le_add_left _ _).trans (Nat.le_of_eq (hsum.trans (Nat.add_zero _)))
    exact Nat.le_trans hle' (Nat.le_trans (Nat.le_add_left _ _) (h.weight_le hk))

theorem fresh_value (h : Ledger s) : ∀ u ∈ (s.key k).values, u.id ≠ s.next :=
  fun u hu => Nat.ne_of_lt ((h.record k).young u hu).2

/-- A value of a new name goes behind the others. -/
theorem append_ledger (h : Ledger s) (hk : s.Live k) {w : Val} (hw : w.id = s.next)
    (hnew : ∀ u ∈ (s.key k).values, fold u.name ≠ fold w.name) (now : Nat)
    (hq : s.seeded = true → s.bytes + w.allocSize ≤ regQuotaBytes) :
    Ledger (({ s with next := s.next + 1 } : St).patch k (some { s.key k with
      values := (s.key k).values ++ [w], valuesTail := w.id, nvalues := (s.key k).nvalues + 1
      lastWrite := now }) (s.bytes + w.allocSize)) := by
  have hx := ((h.record k).mono (Nat.le_succ s.next)).append hnew (hw ▸ fresh_value h)
    (by rw [hw]; exact ⟨h.first, Nat.lt_succ_self _⟩)
  refine h.bump.rewrite hk { hx with } rfl rfl ?_ hq
  have hbytes : (((s.key k).values ++ [w]).map Val.allocSize).sum = (s.key k).valueBytes + w.allocSize := by
    rw [map_append, sum_append]
    rfl
  simp only [Key.valueBytes, St.key] at hbytes ⊢
  omega

/-- A value takes the place of the one that has its name. -/
theorem replace_ledger (h : Ledger s) (hk : s.Live k) {v w : Val} (hv : v ∈ (s.key k).values) (hw : w.id = s.next)
    (hname : fold w.name = fold v.name) (now : Nat) (hle : v.allocSize ≤ s.bytes)
    (hq : s.seeded = true → s.bytes - v.allocSize + w.allocSize ≤ regQuotaBytes) :
    Ledger (({ s with next := s.next + 1 } : St).patch k (some { s.key k with
      values := replaceVal v w (s.key k).values
      valuesTail := if (s.key k).valuesTail = v.id then w.id else (s.key k).valuesTail
      lastWrite := now }) (s.bytes + w.allocSize - v.allocSize)) := by
  have hx := ((h.record k).mono (Nat.le_succ s.next)).replace hv hname (.inr (hw ▸ fresh_value h))
    (by rw [hw]; exact ⟨h.first, Nat.lt_succ_self _⟩)
  refine h.bump.rewrite hk { hx with } rfl rfl ?_ fun hs => Nat.le_trans (by omega) (hq hs)
  have hbytes := valueBytes_replace (w := w) (h.record k).ids hv
  simp only [Key.valueBytes, St.key] at hbytes ⊢
  omega

theorem regSetValue_spec (h : Ledger s) (hk : s.Live k) (name : Name) (type : UInt32)
    (data : List UInt8) :
    Ledger (regSetValue e s k name type data).2 ∧
    ((regSetValue e s k name type data).1 ≠ .success ∧
        (regSetValue e s k name type data).2.keys = s.keys ∧
        Anchored s (regSetValue e s k name type data).2 ∨
      (regSetValue e s k name type data).1 = .success ∧ (s.key k).deleted = false ∧
        ∃ x, Rewrites s (regSetValue e s k name type data).2 k x ∧
          valueMap x.values =
            update (valueMap (s.key k).values) (fold name) (some (type, data))) := by
  have hrec := h.record k
  rw [regSetValue]
  split
  case isTrue => exact ⟨h, .inl ⟨nofun, rfl, Anchored.refl s⟩⟩
  case isFalse hdel =>
  have hdel : (s.key k).deleted = false := by simpa using hdel
  split
  case isTrue => exact ⟨h, .inl ⟨nofun, rfl, Anchored.refl s⟩⟩
  case isFalse hname =>
  split
  case isTrue => exact ⟨h, .inl ⟨nofun, rfl, Anchored.refl s⟩⟩
  case isFalse hdata =>
  simp only
  split
  case h_1 v hv =>
    -- the size is the old one: overwritten in place
    obtain ⟨hold, -⟩ := filter_eq_some_iff.mp hv
    obtain ⟨hmem, hnm⟩ := (regFindValue_some hrec).mp hold
    have hx := hrec.replace (w := { v with type := type, data := data }) hmem rfl (.inl rfl)
      (hrec.young v hmem)
    have htail : (if (s.key k).valuesTail = v.id then v.id else (s.key k).valuesTail) =
        (s.key k).valuesTail := by
      split
      case isTrue heq => exact heq.symm
      case isFalse => rfl
    rw [htail] at hx
    have hbytes := valueBytes_replace (w := { v with type := type, data := data }) hrec.ids hmem
    refine ⟨Ledger.fire (h.put hk { hx with } rfl rfl ?_), .inr ⟨rfl, hdel, _,
      Rewrites.fire ⟨rfl, rfl, rfl, ⟨rfl, rfl, rfl, rfl⟩⟩, ?_⟩⟩
    · exact congrArg ((s.key k).allocSize + ·) (Nat.add_right_cancel hbytes)
    · rw [← hnm]
      exact valueMap_replace hrec hmem rfl
  case h_2 hnone =>
    have hcredit := credit_le h hk name
    set nm := ((regFindValue s k name).map Val.name).getD name with hnm
    set size := (sizeofRegval + (nm.length * 2 + 7) / 8 * 8 + data.length) % 2 ^ 32 with hsize
    have hlt : size < 2 ^ 32 := Nat.mod_lt _ (by decide)
    rcases regAlloc_cases e hcredit hlt h.quota with ha | ha | ⟨ha, hq⟩
    · rw [ha]
      exact ⟨h, .inl ⟨nofun, rfl, Anchored.refl s⟩⟩
    · rw [ha]
      exact ⟨h.bump, .inl ⟨nofun, rfl, ⟨rfl, rfl, rfl, rfl⟩⟩⟩
    · rw [ha]
      cases hold : regFindValue s k name with
      | none =>
        rw [hold] at hnm hq
        have hnm : nm = name := hnm
        have hnew : ∀ u ∈ (s.key k).values, fold u.name ≠ fold nm := by
          rw [hnm]
          exact regFindValue_none.mp hold
        refine ⟨Ledger.fire (append_ledger (w := ⟨s.next, type, data, nm, size⟩) h hk rfl hnew e.now hq),
          .inr ⟨rfl, hdel, _, Rewrites.fire ⟨rfl, rfl, rfl, ⟨rfl, rfl, rfl, rfl⟩⟩, ?_⟩⟩
        rw [← hnm]
        exact valueMap_append hnew
      | some v =>
        rw [hold] at hnm hq hcredit
        have hnm : fold nm = fold v.name := congrArg fold hnm
        obtain ⟨hmem, hfold⟩ := (regFindValue_some hrec).mp hold
        refine ⟨Ledger.fire (replace_ledger (w := ⟨s.next, type, data, nm, size⟩) h hk hmem rfl hnm e.now
            hcredit hq),
          .inr ⟨rfl, hdel, _, Rewrites.fire ⟨rfl, rfl, rfl, ⟨rfl, rfl, rfl, rfl⟩⟩, ?_⟩⟩
        rw [← hfold]
        exact valueMap_replace (w := Val.mk s.next type data nm size) hrec hmem hnm

theorem regDeleteValue_spec (h : Ledger s) (hk : s.Live k) (name : Name) :
    Ledger (regDeleteValue e s k name).2 ∧
    ((regDeleteValue e s k name).1 ≠ .success ∧ (regDeleteValue e s k name).2 = s ∧
        ((s.key k).deleted = false → valueMap (s.key k).values (fold name) = none) ∨
      (regDeleteValue e s k name).1 = .success ∧ (s.key k).deleted = false ∧
        valueMap (s.key k).values (fold name) ≠ none ∧
        ∃ x, Rewrites s (regDeleteValue e s k name).2 k x ∧
          valueMap x.values = update (valueMap (s.key k).values) (fold name) none) := by
  have hrec := h.record k
  rw [regDeleteValue]
  split
  case isTrue hdel =>
    exact ⟨h, .inl ⟨Status.noConfusion, rfl, fun hd => Bool.noConfusion (hdel.symm.trans hd)⟩⟩
  case isFalse hdel =>
  have hdel : (s.key k).deleted = false := by simpa using hdel
  have hfind : valueMap (s.key k).values (fold name) =
      (regFindValue s k name).map fun v => (v.type, v.data) := by rw [regFindValue_eq, valueMap]
  cases hold : regFindValue s k name with
  | none => exact ⟨h, .inl ⟨Status.noConfusion, rfl, fun _ => by rw [hfind, hold, map_none]⟩⟩
  | some v =>
    obtain ⟨as, bs, heq, hv, has⟩ := find_split hold
    have hfold : fold v.name = fold name := nameCmp_eq_eq.mp hv
    have hx := hrec.erase heq
    have herase : (s.key k).values.eraseP (fun v => nameCmp v.name name == .eq) = as ++ bs := by
      rw [heq, eraseP_split hv has]
    have hprev : prevOf name (s.key k).values = (as.getLast?.map Val.id).getD 0 := by
      rw [heq, prevOf_split hv has]
    have hle := h.weight_le hk
    have hsum : (s.key k).valueBytes =
        v.allocSize + ((as ++ bs).map Val.allocSize).sum := by
      rw [Key.valueBytes, heq, map_append, map_cons, map_append, sum_append,
        sum_cons, sum_append]
      omega
    simp only [herase, hprev]
    refine ⟨Ledger.fire (h.rewrite (b := s.bytes - v.allocSize) hk { hx with } rfl rfl ?_
        fun hs => Nat.le_trans (Nat.sub_le _ _) (h.quota hs)),
      .inr ⟨trivial, hdel, ?_, _, Rewrites.fire ⟨rfl, rfl, rfl, ⟨rfl, rfl, rfl, rfl⟩⟩, ?_⟩⟩
    · rw [hsum, Key.valueBytes]
      simp only
      omega
    · rw [hfind, hold]
      exact some_ne_none _
    · have hnames := hrec.names
      rw [heq] at hnames ⊢
      rw [valueMap_erase hnames, hfold]

end Values

/-! ### The books together -/

structure Core (s : St) (L : List KeyId) : Prop where
  tree : Tree s L
  labels : Labels s
  ledger : Ledger s

/-- The roots are fixed keys with their names. -/
structure Hives (s : St) : Prop where
  root : (s.key s.root).fixed = true
  machine : (s.key s.machine).parent = s.root ∧ (s.key s.machine).fixed = true ∧
    s.fname s.machine = fold (ascii "MACHINE")
  user : (s.key s.user).parent = s.root ∧ (s.key s.user).fixed = true ∧
    s.fname s.user = fold (ascii "USER")

/-- What no call changes: the roots, and the fixed keys below the root. -/
structure Steady (s s' : St) : Prop extends Anchored s s' where
  base : (s'.key s.root).fixed = (s.key s.root).fixed
  keep : ∀ {j}, (s.key j).parent = s.root → (s.key j).fixed = true →
    (s'.key j).parent = s.root ∧ (s'.key j).fixed = true ∧ (s'.key j).name = (s.key j).name

section Steady

variable {s s' t : St} {L : List KeyId} {k c p j : KeyId} {x : Key} {b : Nat}

theorem Steady.refl (s : St) : Steady s s :=
  { Anchored.refl s with base := rfl, keep := fun hp hf => ⟨hp, hf, rfl⟩ }

theorem Steady.trans (h : Steady s t) (h' : Steady t s') : Steady s s' where
  toAnchored := h.toAnchored.trans h'.toAnchored
  base := by
    have hb := h'.base
    rw [h.root] at hb
    exact hb.trans h.base
  keep := by
    intro j hp hf
    obtain ⟨hp', hf', hn'⟩ := h.keep hp hf
    obtain ⟨hp'', hf'', hn''⟩ := h'.keep (hp'.trans h.root.symm) hf'
    exact ⟨hp''.trans h.root, hf'', hn''.trans hn'⟩

theorem Steady.of_keys (ha : Anchored s s') (hk : s'.keys = s.keys) : Steady s s' :=
  { ha with
    base := by rw [key_congr hk]
    keep := fun hp hf => by rw [key_congr hk]; exact ⟨hp, hf, rfl⟩ }

theorem Hives.steady (h : Hives s) (hs : Steady s s') : Hives s' where
  root := by
    rw [hs.root, hs.base]
    exact h.root
  machine := by
    obtain ⟨hp, hf, hn⟩ := hs.keep h.machine.1 h.machine.2.1
    rw [hs.machine, hs.root]
    exact ⟨hp, hf, (congrArg fold hn).trans h.machine.2.2⟩
  user := by
    obtain ⟨hp, hf, hn⟩ := hs.keep h.user.1 h.user.2.1
    rw [hs.user, hs.root]
    exact ⟨hp, hf, (congrArg fold hn).trans h.user.2.2⟩

theorem Rewrites.steady (h : Rewrites s s' k x) : Steady s s' := by
  have hfixed : ∀ j, (s'.key j).fixed = (s.key j).fixed := by
    intro j
    by_cases hj : j = k
    · rw [hj, h.key_self, h.fixed]
    · rw [h.key_ne hj]
  exact { h.anchored with
    base := hfixed _
    keep := fun {j} hp hf => ⟨(skel_parent (h.skel_eq j)).trans hp, (hfixed j).trans hf,
      skel_name (h.skel_eq j)⟩ }

theorem Core.rewrites (h : Core s L) (hk : s.Live k) (hr : Rewrites s s' k x)
    (hl : Ledger s') : Core s' L where
  tree := h.tree.congr hr.skel_eq (fun _ => hr.live hk) hr.anchored.root
  labels := h.labels.congr hr.skel_eq hr.anchored.root hr.anchored.user
  ledger := hl

theorem Core.of_keys (h : Core s L) (hk : s'.keys = s.keys) (ha : Anchored s s')
    (hl : Ledger s') : Core s' L :=
  ⟨h.tree.of_keys hk ha.root, h.labels.of_keys hk ha.root ha.user, hl⟩

variable {e : Env} {name cls : Name} {vol fix : Bool}

theorem Core.sweep (h : Core s L) (hit : Notify → Bool) (status : Status) :
    Core (notifySweep e s hit status) L :=
  h.of_keys notifySweep_rest.1 sweep_anchored (h.ledger.sweep hit status)

theorem Core.not_live_next (h : Core s L) : ¬s.Live s.next :=
  fun hl => Nat.lt_irrefl _ (h.ledger.addr hl).2

/-- A key allocated and not linked yet. -/
def fresh (e : Env) (s : St) (name cls : Name) (volatile fixed : Bool) : St :=
  let x := newKey e name cls volatile fixed
  ({ s with bytes := s.bytes + x.allocSize, next := s.next + 1 } : St).put s.next x

theorem fresh_keys : (fresh e s name cls vol fix).keys =
      update s.keys s.next (some (newKey e name cls vol fix)) := rfl

theorem fresh_key_self :
    (fresh e s name cls vol fix).key s.next = newKey e name cls vol fix := key_put_self

theorem fresh_key_ne (hj : j ≠ s.next) :
    (fresh e s name cls vol fix).key j = s.key j := key_put_ne hj

theorem Core.fresh (h : Core s L) (hq : s.seeded = true →
      s.bytes + (newKey e name cls vol fix).allocSize ≤ regQuotaBytes) :
    Core (fresh e s name cls vol fix) (s.next :: L) where
  tree := (h.tree.alloc h.not_live_next (Nat.ne_of_gt h.ledger.first) rfl rfl rfl).of_keys rfl rfl
  labels := (h.labels.alloc h.tree h.not_live_next rfl).of_keys rfl rfl rfl
  ledger := h.ledger.alloc { RecOk.zero s.next with } rfl rfl rfl hq

theorem Core.steady_fresh (h : Core s L) : Steady s (Registry.fresh e s name cls vol fix) := by
  have hne : ∀ {j}, s.Live j → j ≠ s.next := fun hl hj => h.not_live_next (hj ▸ hl)
  refine { root := rfl, machine := rfl, user := rfl, seeded := rfl, base := ?_, keep := ?_ }
  · rw [fresh_key_ne (hne h.tree.root.1)]
  · intro j hp hf
    have hl : s.Live j := live_of_parent (hp ▸ h.tree.root_ne_zero)
    rw [fresh_key_ne (hne hl)]
    exact ⟨hp, hf, rfl⟩

theorem Core.free (h : Core s (k :: L)) (hkL : k ∉ L) (hr : (s.key k).refs = 0) :
    Core (keyFreeNow s k) L := by
  have hk := h.tree.loose mem_cons_self
  have hkeys : (keyFreeNow s k).keys = (s.drop k).keys := by rw [keyFreeNow_eq]; rfl
  have hroot : (keyFreeNow s k).root = (s.drop k).root := by rw [keyFreeNow_eq]; rfl
  have huser : (keyFreeNow s k).user = (s.drop k).user := by rw [keyFreeNow_eq]; rfl
  refine ⟨(h.tree.free hkL).of_keys hkeys hroot, (h.labels.free h.tree).of_keys hkeys hroot huser, ?_⟩
  have hle := h.ledger.weight_le hk.1
  rw [keyFreeNow_eq]
  refine h.ledger.write hk.1 nofun hr.symm nofun ?_ ?_ ?_
  · rintro n hn rfl
    obtain ⟨-, o, ho, -, hkey, -⟩ := h.ledger.watched n hn
    have hpos := h.ledger.refs_pos ho
    rw [hkey, hr] at hpos
    exact absurd hpos (Nat.lt_irrefl 0)
  · rw [hk.1.keys, weight, weight]
    omega
  · exact fun hs => Nat.le_trans (by omega) (h.ledger.quota hs)

theorem Ledger.hang (h : Ledger s) (hp : s.Live p) (hc : s.Live c) : Ledger (hang e s p c) := by
  have hpr := h.record p
  have h1 : Ledger (s.put p { s.key p with
      child := linkInto s c (s.key p).child
      nsubkeys := (s.key p).nsubkeys + 1
      lastWrite := e.now }) := by
    refine h.put hp { hpr with nsubkeys := ?_ } rfl rfl rfl
    simp only [linkInto_eq, length_insertOrd, hpr.nsubkeys]
  exact h1.put (live_put.mpr (.inr hc)) { h1.record c with } rfl rfl rfl

theorem linkChild_keys : (linkChild e s p c).keys = (hang e s p c).keys := by
  rw [linkChild]
  split
  · exact notifyFire_keys
  · rfl

theorem linkChild_key : (linkChild e s p c).key = (hang e s p c).key :=
  key_congr linkChild_keys

theorem linkChild_anchored : Anchored s (linkChild e s p c) := by
  have hh : Anchored s (hang e s p c) := ⟨rfl, rfl, rfl, rfl⟩
  rw [linkChild]
  split
  · exact hh.trans notifyFire_anchored
  · exact hh

theorem Core.linkChild (h : Core s (c :: L)) (hcL : c ∉ L) (hp : s.Live p)
    (hpd : (s.key p).deleted = false) (hpL : p ∉ L) (hpc : p < c)
    (hnew : ∀ d ∈ (s.key p).child, s.fname d ≠ s.fname c) : Core (linkChild e s p c) L := by
  have hc := (h.tree.loose mem_cons_self).1
  have hh : Core (hang e s p c) L :=
    ⟨h.tree.hang hcL hp hpd hpL hpc hnew, h.labels.hang h.tree hpc, h.ledger.hang hp hc⟩
  rw [Registry.linkChild]
  split
  · exact hh.sweep _ _
  · exact hh

theorem Core.steady_linkChild (h : Core s (c :: L)) (hne : c ≠ p) :
    Steady s (Registry.linkChild e s p c) := by
  have hc := h.tree.loose mem_cons_self
  have hfixed : ∀ j, ((hang e s p c).key j).fixed = (s.key j).fixed := by
    intro j
    by_cases hjc : j = c
    · rw [hjc, hang_key_child hne]
    · by_cases hjp : j = p
      · rw [hjp, hang_key_parent hne]
      · rw [hang_key_ne hjc hjp]
  refine { linkChild_anchored with base := ?_, keep := ?_ }
  · rw [linkChild_key, hfixed]
  · intro j hp hf
    have hjc : j ≠ c := by
      rintro rfl
      exact h.tree.root_ne_zero (hp.symm.trans hc.2.1)
    rw [linkChild_key, hfixed, hang_name hne, hang_parent_ne hne hjc]
    exact ⟨hp, hf, rfl⟩

theorem Core.steady_cut {S : KeyId → Prop} (h : Core s L) (hc : CutOff s s' p k S)
    (hS : ∀ {j}, S j → Below s k j) (ha : Anchored s s')
    (hk : p = s.root → (s.key k).fixed = false) : Steady s s' := by
  have hkp := h.tree.kid hc.part
  refine { ha with base := hc.fixed hc.root, keep := ?_ }
  intro j hp hf
  have hSj : ¬S j := by
    intro hSj
    rcases (hS hSj).cases_tail with rfl | ⟨a, ha, hja⟩
    · rw [hk (hkp.2.1.symm.trans hp)] at hf
      exact absurd hf nofun
    · have har : a = s.root := (h.tree.kid hja).2.1.symm.trans hp
      subst har
      rcases ha.cases_tail with heq | ⟨d, -, hd⟩
      · exact h.tree.kid_parent_ne hc.part (heq ▸ h.tree.root.2.2.1)
      · exact h.tree.kid_parent_ne hd h.tree.root.2.2.1
  rw [hc.parent hSj, hc.fixed hSj, hc.name hSj]
  exact ⟨hp, hf, rfl⟩

end Steady

/-! ### Resolving a path -/

section Resolve

variable {e : Env} {s s' s₁ : St} {k k' c : KeyId} {name cls : Name} {vol : Bool}
  {ns : List Name} {create : Bool}

/-- A key made and linked below `k`. -/
def plant (e : Env) (s : St) (k : KeyId) (name cls : Name) (vol : Bool) : St :=
  linkChild e (fresh e s name cls vol false) k s.next

/-- The names `ns` lead from the key `k` of `s` to the key `k'` of `s'`, where the missing keys have
been made on the way if `create` says so. -/
inductive Grow (e : Env) (create : Bool) : St → KeyId → List Name → St → KeyId → Prop
  | nil (s : St) (k : KeyId) : Grow e create s k [] s k
  | found {s s' : St} {k c k' : KeyId} {name : Name} {ns : List Name}
      (hfind : findChild s k name = some c) (rest : Grow e create s c ns s' k') :
      Grow e create s k (name :: ns) s' k'
  | made {s s' : St} {k k' : KeyId} {name : Name} {ns : List Name} (cls : Name) (vol : Bool)
      (hcreate : create = true) (hfind : findChild s k name = none)
      (hroot : k = s.root → s.seeded = false)
      (hq : s.seeded = true →
        s.bytes + (newKey e name cls vol false).allocSize ≤ regQuotaBytes)
      (rest : Grow e create (plant e s k name cls vol) s.next ns s' k') :
      Grow e create s k (name :: ns) s' k'

def St.Open (s : St) (k : KeyId) : Prop := s.Live k ∧ (s.key k).deleted = false

theorem Core.plant (h : Core s []) (hk : s.Open k) (hfind : findChild s k name = none)
    (hq : s.seeded = true → s.bytes + (newKey e name cls vol false).allocSize ≤ regQuotaBytes) :
    Core (plant e s k name cls vol) [] := by
  have hlt : k < s.next := (h.ledger.addr hk.1).2
  have hne : k ≠ s.next := Nat.ne_of_lt hlt
  have hnone := h.tree.lookup_eq_none.mp (findChild_eq s k name ▸ hfind)
  refine (h.fresh hq).linkChild not_mem_nil (live_put.mpr (.inr hk.1)) ?_ not_mem_nil
    hlt ?_
  · rw [fresh_key_ne hne]
    exact hk.2
  · intro d hd
    rw [fresh_key_ne hne] at hd
    have hdne : d ≠ s.next := fun hd' => h.not_live_next (hd' ▸ (h.tree.kid hd).1)
    rw [St.fname, St.fname, fresh_key_ne hdne, fresh_key_self]
    exact hnone d hd

theorem Core.steady_plant (h : Core s []) (hk : s.Open k)
    (hq : s.seeded = true → s.bytes + (newKey e name cls vol false).allocSize ≤ regQuotaBytes) :
    Steady s (Registry.plant e s k name cls vol) :=
  h.steady_fresh.trans ((h.fresh hq).steady_linkChild (Nat.ne_of_gt (h.ledger.addr hk.1).2))

theorem plant_key_ne (hj : c ≠ s.next) (hjk : c ≠ k) :
    (plant e s k name cls vol).key c = s.key c := by
  rw [plant, linkChild_key, hang_key_ne hj hjk, fresh_key_ne hj]

theorem plant_live (hk : s.Live k) : (plant e s k name cls vol).Live c ↔ c = s.next ∨ s.Live c := by
  rw [plant, live_congr linkChild_keys, hang_live]
  constructor
  · rintro (h | rfl | h)
    · exact .inl h
    · exact .inr hk
    · exact live_put.mp h
  · rintro (h | h)
    · exact .inl h
    · exact .inr (.inr (live_put.mpr (.inr h)))

theorem plant_open_self (hk : k ≠ s.next) : (plant e s k name cls vol).Open s.next := by
  constructor
  · rw [plant, live_congr linkChild_keys, hang_live]
    exact .inl rfl
  · rw [plant, linkChild_key, hang_deleted hk.symm, fresh_key_self]
    rfl

theorem Core.open_of_find (h : Core s []) (hfind : findChild s k name = some c) : s.Open c := by
  rw [findChild_eq] at hfind
  have hc := h.tree.kid (h.tree.lookup_eq_some.mp hfind).1
  exact ⟨hc.1, hc.2.2.1⟩

/-- **Resolving keeps the books**, however far it comes. -/
theorem Core.grow (h : Core s []) (hk : s.Open k) (hg : Grow e create s k ns s' k') :
    Core s' [] ∧ s'.Open k' ∧ Steady s s' := by
  induction hg with
  | nil s k => exact ⟨h, hk, Steady.refl s⟩
  | found hfind _ ih => exact ih h (h.open_of_find hfind)
  | @made s s' k k' name ns cls vol _ hfind _ hq _ ih =>
    have hne : k ≠ s.next := Nat.ne_of_lt (h.ledger.addr hk.1).2
    obtain ⟨hc, ho, hs⟩ := ih (h.plant hk hfind hq) (plant_open_self hne)
    exact ⟨hc, ho, (h.steady_plant hk hq).trans hs⟩

theorem Grow.same (hg : Grow e false s k ns s' k') : s' = s := by
  induction hg with
  | nil => rfl
  | found _ _ ih => exact ih
  | made _ _ hcreate => exact absurd hcreate nofun

theorem plant_open (hk : s.Open k) (hne : k ≠ s.next) (hc : s.Open c) (hcn : c ≠ s.next) :
    (plant e s k name cls vol).Open c := by
  refine ⟨(plant_live hk.1).mpr (.inr hc.1), ?_⟩
  rw [plant, linkChild_key, hang_deleted hne.symm, fresh_key_ne hcn]
  exact hc.2

theorem Grow.open_of_open (h : Core s []) (hk : s.Open k) (hg : Grow e create s k ns s' k')
    (hc : s.Open c) : s'.Open c := by
  induction hg with
  | nil s k => exact hc
  | found hfind _ ih => exact ih h (h.open_of_find hfind) hc
  | @made s s' k k' name ns cls vol _ hfind _ hq _ ih =>
    have hne : k ≠ s.next := Nat.ne_of_lt (h.ledger.addr hk.1).2
    have hcn : c ≠ s.next := Nat.ne_of_lt (h.ledger.addr hc.1).2
    exact ih (h.plant hk hfind hq) (plant_open_self hne) (plant_open hk hne hc hcn)

/-- What an allocation in vain leaves. -/
def Idle (s s' : St) : Prop := s' = s ∨ s' = { s with next := s.next + 1 }

theorem Idle.keys (h : Idle s s') : s'.keys = s.keys := by
  rcases h with rfl | rfl <;> rfl

theorem Idle.anchored (h : Idle s s') : Anchored s s' := by
  rcases h with rfl | rfl <;> exact ⟨rfl, rfl, rfl, rfl⟩

theorem Idle.steady (h : Idle s s') : Steady s s' := Steady.of_keys h.anchored h.keys

theorem Core.idle {L : List KeyId} (h : Core s L) (hi : Idle s s') : Core s' L := by
  rcases hi with rfl | rfl
  · exact h
  · exact h.of_keys rfl ⟨rfl, rfl, rfl, rfl⟩ h.ledger.bump

theorem resolveFrom_grow (start : KeyId) (r : Request) (cs : List (Name × Bool)) :
    ∀ s k depth made, Core s [] → s.Open k →
      (∃ k' m s', resolveFrom e start r s k depth made cs = (.ok (k', m), s') ∧
        Grow e r.create s k (cs.map Prod.fst) s' k') ∨
      ∃ st s₁ s' k' ms, resolveFrom e start r s k depth made cs = (.error st, s') ∧
        ms <+: cs.map Prod.fst ∧ Grow e r.create s k ms s₁ k' ∧ Idle s₁ s' ∧
        (r.create = false → st = .objectNameNotFound ∧
          ∃ n, ms ++ [n] <+: cs.map Prod.fst ∧ findChild s₁ k' n = none) := by
  induction cs with
  | nil => exact fun _ _ _ _ _ _ => .inl ⟨_, _, _, rfl, Grow.nil _ _⟩
  | cons cn rest ih =>
    obtain ⟨name, last⟩ := cn
    intro s k depth made h hk
    rw [resolveFrom]
    cases hfind : findChild s k name with
    | some c =>
      rcases ih s c (depth + 1) made h (h.open_of_find hfind) with
        ⟨k', m, s', heq, hg⟩ | ⟨st, s₁, s', k', ms, heq, hpre, hg, hi, hn⟩
      · exact .inl ⟨k', m, s', heq, Grow.found hfind hg⟩
      · refine .inr ⟨st, s₁, s', k', name :: ms, heq, prefix_cons_inj name |>.mpr hpre,
          Grow.found hfind hg, hi, fun hc => ?_⟩
        obtain ⟨hst, n, hp, hnone⟩ := hn hc
        exact ⟨hst, n, prefix_cons_inj name |>.mpr hp, hnone⟩
    | none =>
      have hstop : ∀ {st s'}, Idle s s' → (r.create = false → st = Status.objectNameNotFound) →
          ∃ st' s₁ s'' k' ms, ((.error st, s') : Except Status (KeyId × Bool) × St) =
            (.error st', s'') ∧ ms <+: ((name, last) :: rest).map Prod.fst ∧
            Grow e r.create s k ms s₁ k' ∧ Idle s₁ s'' ∧ (r.create = false →
              st' = .objectNameNotFound ∧ ∃ n, ms ++ [n] <+: ((name, last) :: rest).map Prod.fst ∧
                findChild s₁ k' n = none) := fun hi hst =>
        ⟨_, _, _, _, [], rfl, nil_prefix, Grow.nil s k, hi, fun hc =>
          ⟨hst hc, name, prefix_cons_inj name |>.mpr nil_prefix, hfind⟩⟩
      simp only
      split
      case isTrue => exact .inr (hstop (.inl rfl) fun _ => rfl)
      case isFalse hcreate =>
      have hcreate : r.create = true := by simpa using hcreate
      have hoff : r.create = false → ∀ {p : Prop}, p := fun hc => absurd (hcreate.symm.trans hc) nofun
      split
      case isTrue => exact .inr (hstop (.inl rfl) fun hc => hoff hc)
      case isFalse hroot =>
      split
      case isTrue => exact .inr (hstop (.inl rfl) fun hc => hoff hc)
      case isFalse =>
      split
      case isTrue => exact .inr (hstop (.inl rfl) fun hc => hoff hc)
      case isFalse =>
      split
      case isTrue => exact .inr (hstop (.inl rfl) fun hc => hoff hc)
      case isFalse =>
      have hroot : k = s.root → s.seeded = false := fun hkr => by
        simpa using fun hs => hroot ⟨hkr, hs⟩
      rcases keyAlloc_cases e name (if last then r.cls else []) r.isVolatile false
        h.ledger.quota with ha | ha | ⟨ha, hq⟩
      · rw [ha]
        exact .inr (hstop (.inl rfl) fun hc => hoff hc)
      · rw [ha]
        exact .inr (hstop (.inr rfl) fun hc => hoff hc)
      · rw [ha]
        have hne : k ≠ s.next := Nat.ne_of_lt (h.ledger.addr hk.1).2
        have hplant := h.plant (e := e) hk hfind hq
        rcases ih _ _ (depth + 1) true hplant (plant_open_self hne) with
          ⟨k', m, s', heq, hg⟩ | ⟨st, s₁, s', k', ms, heq, hpre, hg, hi, hn⟩
        · exact .inl ⟨k', m, s', heq, Grow.made _ _ hcreate hfind hroot hq hg⟩
        · exact .inr ⟨st, s₁, s', k', name :: ms, heq, prefix_cons_inj name |>.mpr hpre,
            Grow.made _ _ hcreate hfind hroot hq hg, hi, fun hc => hoff hc⟩

variable {start : KeyId}

theorem regResolve_grow (h : Core s []) (hstart : s.Live start) (path : Name) (r : Request) :
    (∃ k' m s', regResolve e s start path r = (.ok (k', m), s') ∧ s.Open start ∧
      Grow e r.create s start ((components path).map Prod.fst) s' k') ∨
    ∃ st s', regResolve e s start path r = (.error st, s') ∧
      (s' = s ∧ ((s.key start).deleted = true ∨ checkComponents (components path) ≠ none) ∨
        s.Open start ∧ ∃ s₁ k' ms, ms <+: (components path).map Prod.fst ∧
          Grow e r.create s start ms s₁ k' ∧ Idle s₁ s' ∧
          (r.create = false → st = .objectNameNotFound ∧
            ∃ n, ms ++ [n] <+: (components path).map Prod.fst ∧ findChild s₁ k' n = none)) := by
  rw [regResolve]
  split
  case isTrue hd => exact .inr ⟨_, _, rfl, .inl ⟨rfl, .inl hd⟩⟩
  case isFalse hd =>
  have ho : s.Open start := ⟨hstart, by simpa using hd⟩
  cases hcheck : checkComponents (components path) with
  | some st => exact .inr ⟨_, _, rfl, .inl ⟨rfl, .inr nofun⟩⟩
  | none =>
    rcases resolveFrom_grow (e := e) start r (components path) s start (keyDepth s start) false
      h ho with
      ⟨k', m, s', heq, hg⟩ | ⟨st, s₁, s', k', ms, heq, hpre, hg, hi, hn⟩
    · exact .inl ⟨k', m, s', heq, ho, hg⟩
    · exact .inr ⟨st, s', heq, .inr ⟨ho, s₁, k', ms, hpre, hg, hi, hn⟩⟩

theorem Core.regResolve (h : Core s []) (hstart : s.Live start) (path : Name) (r : Request) :
    Core (regResolve e s start path r).2 [] ∧
      Steady s (Registry.regResolve e s start path r).2 := by
  rcases regResolve_grow (e := e) h hstart path r with
    ⟨k', m, s', heq, ho, hg⟩ | ⟨st, s', heq, ⟨rfl, -⟩ | ⟨ho, s₁, k', ms, -, hg, hi, -⟩⟩
  · rw [heq]
    obtain ⟨hc, -, hs⟩ := h.grow ho hg
    exact ⟨hc, hs⟩
  · rw [heq]
    exact ⟨h, Steady.refl _⟩
  · rw [heq]
    obtain ⟨hc, -, hs⟩ := h.grow ho hg
    exact ⟨hc.idle hi, hs.trans hi.steady⟩

end Resolve

/-! ### Deleting a key -/

section Delete

variable {e : Env} {s s' t : St} {L : List KeyId} {k p j : KeyId}

theorem bury_key_self : (bury s k).key k =
    if (s.key k).refs = 0 then Key.zero else (s.key k).emptied := by
  rw [St.key, bury_keys, update_self]
  split <;> rfl

theorem cutOff_unhang (hT : Tree s L) (hkeys : t.keys = s.keys) (hroot : t.root = s.root)
    (hk : k ∈ (s.key p).child) (hleaf : (s.key k).child = []) :
    CutOff s (bury (unhang e t p k) k) p k (· = k) := by
  have hkid := hT.kid hk
  have hpk : p ≠ k := Nat.ne_of_lt hkid.2.2.2
  have hkey : t.key = s.key := key_congr hkeys
  have hother : ∀ {j}, j ≠ k → (bury (unhang e t p k) k).key j =
      if j = p then { s.key p with
        child := (s.key p).child.erase k
        nsubkeys := (s.key p).nsubkeys - 1
        lastWrite := e.now } else s.key j := by
    intro j hj
    rw [bury_key_ne hj, unhang, key_put_ne hj, key_put, hkey]
  have hlive : ∀ {j}, j ≠ k → ((bury (unhang e t p k) k).Live j ↔ s.Live j) := by
    intro j hj
    rw [bury_live_ne hj, unhang, live_put, live_put, live_congr hkeys]
    constructor
    · rintro (h | rfl | h)
      · exact absurd h hj
      · exact live_of_child hk
      · exact h
    · exact fun h => .inr (.inr h)
  constructor
  case part => exact hk
  case self => rfl
  case down =>
    rintro a b rfl hb
    rw [hleaf] at hb
    exact absurd hb not_mem_nil
  case into => exact fun _ _ hb => hb
  case stay => exact hpk
  case root =>
    intro hr
    exact hT.kid_parent_ne hk (hr ▸ hT.root.2.2.1)
  case live =>
    intro j hj
    by_cases hjk : j = k
    · exact hjk ▸ hkid.1
    · exact (hlive hjk).mp hj
  case keep => exact fun hjk hj => (hlive hjk).mpr hj
  case same =>
    intro j hjk hjp
    rw [hother hjk, if_neg hjp]
  case chain =>
    rw [hother hpk, if_pos rfl]
    rfl
  case gone =>
    rintro j rfl hl
    have hun : (unhang e t p j).key j = { s.key j with parent := 0, deleted := true } := by
      rw [unhang, key_put_self, key_put_ne hpk.symm, hkey]
    rw [bury_key_self, hun]
    by_cases hr : (s.key j).refs = 0
    · rw [St.Live, bury_keys, update_self, hun] at hl
      rw [if_pos hr] at hl
      cases hl
    · rw [if_neg hr]
      exact ⟨rfl, hleaf, rfl⟩
  case fixed =>
    intro j hjk
    rw [hother hjk]
    split
    case isTrue hjp => rw [hjp]
    case isFalse => rfl
  case rootEq => exact bury_rest.1.trans hroot

theorem Ledger.unhang (h : Ledger s) (hT : Tree s L) (hk : k ∈ (s.key p).child)
    (hquiet : ∀ n ∈ s.notify, n.key ≠ k) :
    Ledger (Registry.bury (Registry.unhang e s p k) k) := by
  have hkid := hT.kid hk
  have hpr := h.record p
  have h1 : Ledger (s.put p { s.key p with
      child := (s.key p).child.erase k
      nsubkeys := (s.key p).nsubkeys - 1
      lastWrite := e.now }) := by
    refine h.put (live_of_child hk) { hpr with nsubkeys := ?_ } rfl rfl rfl
    rw [hpr.nsubkeys, length_erase_of_mem hk]
  refine h1.bury (live_put.mpr (.inr hkid.1)) (x := { (St.put s p _).key k with
    parent := 0
    deleted := true }) ?_ rfl rfl rfl hquiet
  exact { h1.record k with }

theorem regDeleteKey_spec (h : Core s []) (hk : s.Live k) (hroot : (s.key s.root).fixed = true) :
    (regDeleteKey e s k).1 ≠ .success ∧ (regDeleteKey e s k).2 = s ∧
        ((s.key k).deleted = true ∨ (s.key k).fixed = true ∨ (s.key k).child ≠ []) ∨
      (regDeleteKey e s k).1 = .success ∧ (s.key k).deleted = false ∧ (s.key k).child = [] ∧
        CutOff s (regDeleteKey e s k).2 (s.key k).parent k (· = k) ∧
        Core (regDeleteKey e s k).2 [] ∧ Steady s (regDeleteKey e s k).2 := by
  rw [regDeleteKey]
  split
  case isTrue hd => exact .inl ⟨nofun, rfl, .inl hd⟩
  case isFalse hd =>
  split
  case isTrue hc => exact .inl ⟨nofun, rfl, .inr hc⟩
  case isFalse hc =>
  obtain ⟨hfix, hleaf⟩ := not_or.mp hc
  have hd : (s.key k).deleted = false := by simpa using hd
  have hleaf : (s.key k).child = [] := by simpa using hleaf
  have hmem : k ∈ (s.key (s.key k).parent).child := by
    refine (h.tree.placed hk hd not_mem_nil).resolve_left ?_
    rintro rfl
    exact hfix hroot
  set t := notifyDropKey e (notifyFire e s (s.key k).parent changeName) k .success with ht
  have hkeys : t.keys = s.keys := notifyDropKey_keys.trans notifyFire_keys
  have hta : Anchored s t := notifyFire_anchored.trans sweep_anchored
  have hcut := cutOff_unhang (e := e) h.tree hkeys hta.root hmem hleaf
  have hS : ∀ {j}, j = k → Below s k j := fun hj => hj ▸ Relation.ReflTransGen.refl
  have htl : Ledger t := h.ledger.fire.sweep _ _
  have htT : Tree t [] := h.tree.of_keys hkeys hta.root
  have ha : Anchored s (bury (Registry.unhang e t (s.key k).parent k) k) := by
    refine hta.trans ⟨?_, ?_, ?_, ?_⟩
    · exact bury_rest.1
    · exact bury_rest.2.1
    · exact bury_rest.2.2.1
    · exact bury_rest.2.2.2.1
  have hmem' : k ∈ (t.key (s.key k).parent).child := by
    rw [key_congr hkeys]
    exact hmem
  refine .inr ⟨rfl, hd, hleaf, hcut, ⟨h.tree.cut hcut hS, h.labels.cut h.tree hcut ha.user,
    htl.unhang htT hmem' notifyDropKey_quiet⟩, h.steady_cut hcut hS ha fun _ => ?_⟩
  simpa using hfix

end Delete

/-! ### Handles and registrations -/

section Handles

variable {e : Env} {s s' : St} {k : KeyId} {h : Handle}

theorem Core.openHandle (hC : Core s []) (hk : s.Live k) (driver : Bool) :
    Core (({ s with
      objects := s.objects ++ [{ id := s.next, key := k, driver := driver }]
      next := s.next + 1 } : St).put k { s.key k with refs := (s.key k).refs + 1 }) [] where
  tree := (hC.tree.put hk (x := { s.key k with refs := (s.key k).refs + 1 }) rfl).of_keys rfl rfl
  labels := (hC.labels.put (x := { s.key k with refs := (s.key k).refs + 1 }) rfl).of_keys
    rfl rfl rfl
  ledger := hC.ledger.openHandle hk driver

theorem dropRef_keys (s : St) (h : Handle) : (dropRef s h).keys = update s.keys h.key
    (if (s.key h.key).refs - 1 = 0 ∧ (s.key h.key).deleted then none
      else some { s.key h.key with refs := (s.key h.key).refs - 1 }) := by
  rw [Ledger.dropRef_eq]
  rfl

theorem dropRef_anchored (s : St) (h : Handle) : Anchored s (dropRef s h) := by
  rw [Ledger.dropRef_eq]
  exact ⟨rfl, rfl, rfl, rfl⟩

theorem dropRef_key_ne {j : KeyId} (hj : j ≠ h.key) : (dropRef s h).key j = s.key j := by
  rw [St.key, dropRef_keys, update_of_ne hj, St.key]

variable {L : List KeyId}

theorem Tree.drop_dead (hT : Tree s L) (hd : (s.key k).deleted = true) : Tree (s.drop k) L := by
  have hdead := hT.dead hd
  have hkid : ∀ {a b}, b ∈ (s.key a).child → b ≠ k := by
    rintro a b hb rfl
    exact hT.kid_parent_ne hb hdead.1
  constructor
  case kid =>
    intro a b hb
    have hak : a ≠ k := by
      rintro rfl
      rw [key_drop_self] at hb
      exact absurd hb not_mem_nil
    rw [key_drop_ne hak] at hb
    rw [live_drop, key_drop_ne (hkid hb)]
    exact ⟨⟨hkid hb, (hT.kid hb).1⟩, (hT.kid hb).2⟩
  case home =>
    intro a ha
    have hak : a ≠ k := by
      rintro rfl
      rw [key_drop_self] at ha
      exact absurd rfl ha
    rw [key_drop_ne hak] at ha ⊢
    have hpk : (s.key a).parent ≠ k := by
      intro hpk
      have hm := hT.home ha
      rw [hpk, hdead.2] at hm
      exact absurd hm not_mem_nil
    rw [key_drop_ne hpk]
    exact hT.home ha
  case dead =>
    intro a ha
    have hak : a ≠ k := by
      rintro rfl
      rw [key_drop_self] at ha
      exact absurd ha nofun
    rw [key_drop_ne hak] at ha ⊢
    exact hT.dead ha
  case top =>
    intro a hl hda hpa
    obtain ⟨hak, hl⟩ := live_drop.mp hl
    rw [key_drop_ne hak] at hda hpa
    exact hT.top hl hda hpa
  case root =>
    have hr := hT.root
    have hrk : s.root ≠ k := by
      intro hrk
      rw [hrk, hd] at hr
      exact absurd hr.2.1 nofun
    refine ⟨live_drop.mpr ⟨hrk, hr.1⟩, ?_, ?_, hr.2.2.2⟩
    · exact (congrArg Key.deleted (key_drop_ne hrk)).trans hr.2.1
    · exact (congrArg Key.parent (key_drop_ne hrk)).trans hr.2.2.1
  case loose =>
    intro a ha
    have hl := hT.loose ha
    have hak : a ≠ k := by
      rintro rfl
      rw [hl.2.2.2] at hd
      exact absurd hd nofun
    rw [live_drop, key_drop_ne hak]
    exact ⟨⟨hak, hl.1⟩, hl.2⟩
  case order =>
    intro a
    by_cases hak : a = k
    · rw [hak, key_drop_self]
      exact orderedBy_nil
    · rw [key_drop_ne hak]
      refine (hT.order a).imp_of_mem fun {b d} hb hd hlt => ?_
      rwa [St.fname, St.fname, key_drop_ne (hkid hb), key_drop_ne (hkid hd)]
  case addr => exact fun h0 => hT.addr (live_drop.mp h0).2

theorem Labels.drop_dead (hB : Labels s) (hT : Tree s L) (hd : (s.key k).deleted = true) :
    Labels (s.drop k) := by
  have hdead := hT.dead hd
  have hsame : ∀ {a b}, b ∈ ((s.drop k).key a).child → a ≠ k ∧ b ≠ k ∧ b ∈ (s.key a).child := by
    intro a b hb
    have hak : a ≠ k := by
      rintro rfl
      rw [key_drop_self] at hb
      exact absurd hb not_mem_nil
    rw [key_drop_ne hak] at hb
    exact ⟨hak, fun hbk => hT.kid_parent_ne hb (hbk ▸ hdead.1), hb⟩
  constructor
  case hive =>
    intro c hc
    obtain ⟨-, hck, hc⟩ := hsame hc
    rw [key_drop_ne hck]
    exact hB.hive hc
  case inherit =>
    intro a b hb hne
    obtain ⟨hak, hbk, hb⟩ := hsame hb
    rw [key_drop_ne hak, key_drop_ne hbk]
    exact hB.inherit hb hne
  case base =>
    have hrk : s.root ≠ k := by
      intro hrk
      have hr := hT.root.2.1
      rw [hrk, hd] at hr
      exact absurd hr nofun
    exact (congrArg Key.accountRealm (key_drop_ne hrk)).trans hB.base

theorem Core.close (hC : Core s []) (hh : h ∈ s.objects)
    (hquiet : ∀ n ∈ s.notify, n.keyObj ≠ h.id) : Core (dropRef s h) [] := by
  have ha := dropRef_anchored s h
  have hk := hC.ledger.live_handle hh
  refine ⟨?_, ?_, hC.ledger.close hh hquiet⟩
  · by_cases hd : (s.key h.key).refs - 1 = 0 ∧ (s.key h.key).deleted = true
    · refine (hC.tree.drop_dead hd.2).of_keys ?_ ha.root
      rw [dropRef_keys, if_pos hd]
      rfl
    · refine (hC.tree.put hk (x := { s.key h.key with refs := (s.key h.key).refs - 1 })
        rfl).of_keys ?_ ha.root
      rw [dropRef_keys, if_neg hd]
      rfl
  · by_cases hd : (s.key h.key).refs - 1 = 0 ∧ (s.key h.key).deleted = true
    · refine (hC.labels.drop_dead hC.tree hd.2).of_keys ?_ ha.root ha.user
      rw [dropRef_keys, if_pos hd]
      rfl
    · refine (hC.labels.put (x := { s.key h.key with refs := (s.key h.key).refs - 1 })
        rfl).of_keys ?_ ha.root ha.user
      rw [dropRef_keys, if_neg hd]
      rfl

theorem Core.steady_close (hC : Core s []) (h : Handle) : Steady s (dropRef s h) := by
  have hkey : ∀ j, (s.key j).parent ≠ 0 ∨ j = s.root → ((dropRef s h).key j).parent =
      (s.key j).parent ∧ ((dropRef s h).key j).fixed = (s.key j).fixed ∧
        ((dropRef s h).key j).name = (s.key j).name := by
    intro j hj
    by_cases hjk : j = h.key
    · have hd : ¬(s.key h.key).deleted = true := by
        intro hd
        rcases hj with hj | hj
        · exact hj (hjk ▸ (hC.tree.dead hd).1)
        · have hr := hC.tree.root.2.1
          rw [← hj, hjk, hd] at hr
          exact absurd hr nofun
      rw [hjk, St.key, dropRef_keys, update_self, if_neg fun hc => hd hc.2,
        getD_some]
      exact ⟨rfl, rfl, rfl⟩
    · rw [dropRef_key_ne hjk]
      exact ⟨rfl, rfl, rfl⟩
  refine { dropRef_anchored s h with base := (hkey _ (.inr rfl)).2.1, keep := ?_ }
  intro j hp hf
  obtain ⟨h1, h2, h3⟩ := hkey j (.inl (hp ▸ hC.tree.root_ne_zero))
  exact ⟨h1.trans hp, h2.trans hf, h3⟩

end Handles

end Win98Modern.Registry
