import Win98Modern.Kernel64.Registry
import Mathlib.Algebra.BigOperators.Group.Finset.Basic
import Mathlib.Algebra.GroupWithZero.Nat

/-!
# The operations of the registry

What each operation changes: the names as an ordered set (`nameCmp_eq`, `findChild_eq`), the
notification walk as a filter (`notifySweep_eq`), and the keys and bytes after an operation.
-/

namespace Win98Modern.Registry

open Function List Option St

/-! ### Names -/

/-- A name up to case; the order is that of `name_cmp`. -/
def FName : Type := List Nat

instance : LinearOrder FName := inferInstanceAs (LinearOrder (List Nat))

def fold (name : Name) : FName := name.map regUpcaseChar

theorem nil_lt_fold (b : UInt16) (bs : Name) : fold [] < fold (b :: bs) := nil_lt_cons _ _

variable {as bs : Name}

theorem fold_cons_lt {a b : UInt16} : fold (a :: as) < fold (b :: bs) ↔
      regUpcaseChar a < regUpcaseChar b ∨ regUpcaseChar a = regUpcaseChar b ∧ fold as < fold bs :=
  cons_lt_cons_iff

theorem fold_cons_eq {a b : UInt16} :
    fold (a :: as) = fold (b :: bs) ↔ regUpcaseChar a = regUpcaseChar b ∧ fold as = fold bs :=
  cons_eq_cons

theorem nameCmp_compares (a b : Name) : (nameCmp a b).Compares (fold a) (fold b) := by
  induction a generalizing b with
  | nil =>
    cases b with
    | nil => rfl
    | cons b bs => exact nil_lt_fold b bs
  | cons a as ih =>
    cases b with
    | nil => exact nil_lt_fold a as
    | cons b bs =>
      rw [nameCmp]
      split
      case isTrue heq =>
        have h := ih bs
        cases hc : nameCmp as bs with
        | lt => exact fold_cons_lt.mpr (.inr ⟨heq, (hc ▸ h : Ordering.lt.Compares _ _)⟩)
        | eq => exact fold_cons_eq.mpr ⟨heq, (hc ▸ h : Ordering.eq.Compares _ _)⟩
        | gt => exact fold_cons_lt.mpr (.inr ⟨heq.symm, (hc ▸ h : Ordering.gt.Compares _ _)⟩)
      case isFalse hne =>
        split
        case isTrue h => exact fold_cons_lt.mpr (.inl h)
        case isFalse h =>
          exact fold_cons_lt.mpr (.inl (lt_of_le_of_ne (not_lt.mp h) (Ne.symm hne)))

theorem nameCmp_eq (a b : Name) : nameCmp a b = cmp (fold a) (fold b) :=
  ((cmp_compares _ _).inj (nameCmp_compares a b)).symm

theorem nameCmp_eq_eq {a b : Name} : nameCmp a b = .eq ↔ fold a = fold b := by
  rw [nameCmp_eq, cmp_eq_eq_iff]

theorem nameCmp_eq_lt {a b : Name} : nameCmp a b = .lt ↔ fold a < fold b := by
  rw [nameCmp_eq, cmp_eq_lt_iff]

def St.fname (s : St) (k : KeyId) : FName := fold (s.key k).name

/-- The child of `k` with a folded name, as the scan of the chain finds it. -/
def St.lookup (s : St) (k : KeyId) (n : FName) : Option KeyId := seek s.fname (s.key k).child n

theorem findChildFrom_eq (s : St) (name : Name) (cs : List KeyId) :
    findChildFrom s name cs = seek s.fname cs (fold name) := by
  induction cs with
  | nil => rfl
  | cons c cs ih =>
    rw [findChildFrom]
    have hcmp : nameCmp (s.key c).name name = cmp (s.fname c) (fold name) := nameCmp_eq _ _
    cases hc : nameCmp (s.key c).name name with
    | lt => exact ih.trans (seek_lt (hcmp.symm.trans hc)).symm
    | eq => exact (seek_eq (hcmp.symm.trans hc)).symm
    | gt => exact (seek_gt (hcmp.symm.trans hc)).symm

theorem findChild_eq (s : St) (k : KeyId) (name : Name) :
    findChild s k name = s.lookup k (fold name) :=
  findChildFrom_eq s name _

theorem linkInto_eq (s : St) (c : KeyId) (cs : List KeyId) :
    linkInto s c cs = insertOrd s.fname c cs := by
  induction cs with
  | nil => rfl
  | cons d ds ih =>
    rw [linkInto, insertOrd, ih]
    exact if_congr nameCmp_eq_lt rfl rfl

/-! ### The heap -/

def St.Live (s : St) (k : KeyId) : Prop := (s.keys k).isSome = true

section Heap

variable {s s' : St} {k j : KeyId} {x : Key}

theorem St.Live.keys (h : s.Live k) : s.keys k = some (s.key k) := by
  obtain ⟨x, hx⟩ := isSome_iff_exists.mp h
  rw [hx, key, hx, getD_some]

theorem St.key_of_not_live (h : ¬s.Live k) : s.key k = Key.zero := by
  rw [key, not_isSome_iff_eq_none.mp h, getD_none]

@[simp] theorem keys_put : (s.put k x).keys = update s.keys k (some x) := rfl

@[simp] theorem keys_drop : (s.drop k).keys = update s.keys k none := rfl

@[simp] theorem put_rest : (s.put k x).root = s.root ∧ (s.put k x).machine = s.machine ∧
    (s.put k x).user = s.user ∧ (s.put k x).bytes = s.bytes ∧ (s.put k x).seeded = s.seeded ∧
    (s.put k x).notify = s.notify ∧ (s.put k x).notifyCount = s.notifyCount ∧
    (s.put k x).done = s.done ∧ (s.put k x).registered = s.registered ∧
    (s.put k x).objects = s.objects ∧ (s.put k x).next = s.next :=
  ⟨rfl, rfl, rfl, rfl, rfl, rfl, rfl, rfl, rfl, rfl, rfl⟩

@[simp] theorem key_put_self : (s.put k x).key k = x := by
  rw [key, keys_put, update_self, getD_some]

theorem key_put_ne (h : j ≠ k) : (s.put k x).key j = s.key j := by
  rw [key, keys_put, update_of_ne h, key]

theorem key_put : (s.put k x).key j = if j = k then x else s.key j := by
  split
  case isTrue h => rw [h, key_put_self]
  case isFalse h => exact key_put_ne h

@[simp] theorem live_put : (s.put k x).Live j ↔ j = k ∨ s.Live j := by
  rw [St.Live, keys_put, update_apply]
  split
  case isTrue h => exact ⟨fun _ => .inl h, fun _ => rfl⟩
  case isFalse h => exact ⟨.inr, fun h' => h'.resolve_left h⟩

@[simp] theorem key_drop_self : (s.drop k).key k = Key.zero := by
  rw [key, keys_drop, update_self, getD_none]

theorem key_drop_ne (h : j ≠ k) : (s.drop k).key j = s.key j := by
  rw [key, keys_drop, update_of_ne h, key]

@[simp] theorem live_drop : (s.drop k).Live j ↔ j ≠ k ∧ s.Live j := by
  rw [St.Live, keys_drop, update_apply]
  split
  case isTrue h => exact ⟨fun h' => absurd h' nofun, fun h' => absurd h h'.1⟩
  case isFalse h => exact ⟨fun h' => ⟨h, h'⟩, And.right⟩

/-- A key written or freed, with the bytes of the registry. -/
def St.patch (s : St) (k : KeyId) (o : Option Key) (b : Nat) : St :=
  { s with keys := update s.keys k o, bytes := b }

theorem put_eq_patch : s.put k x = s.patch k (some x) s.bytes := rfl

variable {o : Option Key} {b : Nat}

theorem keys_patch : (s.patch k o b).keys = update s.keys k o := rfl

theorem patch_patch {o' : Option Key} {b' : Nat} :
    (s.patch k o b).patch k o' b' = s.patch k o' b' := by
  rw [patch, patch, patch, update_idem]

@[simp] theorem patch_rest : (s.patch k o b).bytes = b ∧
    (s.patch k o b).root = s.root ∧ (s.patch k o b).machine = s.machine ∧
    (s.patch k o b).user = s.user ∧ (s.patch k o b).seeded = s.seeded ∧
    (s.patch k o b).notify = s.notify ∧ (s.patch k o b).notifyCount = s.notifyCount ∧
    (s.patch k o b).done = s.done ∧ (s.patch k o b).registered = s.registered ∧
    (s.patch k o b).objects = s.objects ∧ (s.patch k o b).next = s.next :=
  ⟨rfl, rfl, rfl, rfl, rfl, rfl, rfl, rfl, rfl, rfl, rfl⟩

@[simp] theorem key_patch_self : (s.patch k o b).key k = o.getD Key.zero := by
  rw [key, keys_patch, update_self]

theorem key_patch_ne (h : j ≠ k) : (s.patch k o b).key j = s.key j := by
  rw [key, keys_patch, update_of_ne h, key]

theorem live_patch_ne (h : j ≠ k) : (s.patch k o b).Live j ↔ s.Live j := by
  rw [St.Live, keys_patch, update_of_ne h, St.Live]

theorem key_congr (h : s'.keys = s.keys) : s'.key = s.key := by
  funext k
  rw [key, h, key]

theorem live_congr (h : s'.keys = s.keys) : s'.Live k ↔ s.Live k := by
  rw [St.Live, h, St.Live]

theorem ancestors_congr (h : ∀ k, (s'.key k).parent = (s.key k).parent) :
    s'.ancestors k = s.ancestors k := by
  have hfuel : ∀ fuel k, s'.ancestorsFrom fuel k = s.ancestorsFrom fuel k := by
    intro fuel
    induction fuel with
    | zero => exact fun _ => rfl
    | succ fuel ih =>
      intro k
      rw [ancestorsFrom, ancestorsFrom, h, ih]
  exact hfuel k k

theorem regAccessNode_congr {e : Env} {p : ProcId} {access : UInt32} (h : s'.key = s.key)
    (hr : s'.root = s.root) (hm : s'.machine = s.machine) :
    regAccessNode e s' p k access = regAccessNode e s p k access := by
  have ha : s'.ancestors k = s.ancestors k := ancestors_congr fun k => by rw [h]
  have ht : topOf s' k = topOf s k := by rw [topOf, topOf, ha, h, hr]
  rw [regAccessNode, regAccessNode, h, ht, hm]

end Heap

/-! ### The notification walk -/

section Notify

variable {e : Env} {s : St} {hit : Notify → Bool} {status : Status}

/-- What completing a registration records. -/
def completion (e : Env) (s : St) (status : Status) (n : Notify) : Completion where
  reg := n
  status :=
    if ¬e.ident n.proc = some n.ident ∨ regAccessNode e s n.proc n.key keyNotify ≠ .success then
      .accessDenied
    else status
  stored := n.iosb ≠ 0 ∧ e.ident n.proc = some n.ident

theorem notifyWalk_eq (l : List Notify) :
    notifyWalk e hit status s l = (l.filter fun n => !hit n,
      { s with
        done := s.done ++ (l.filter hit).map (completion e s status)
        notifyCount := s.notifyCount - (l.filter hit).length }) := by
  induction l generalizing s with
  | nil => simp [notifyWalk]
  | cons n l ih =>
    rw [notifyWalk]
    split
    case isTrue hn =>
      have hc : completion e (notifyComplete e s n status) status = completion e s status := by
        funext m
        have ha : regAccessNode e (notifyComplete e s n status) m.proc m.key keyNotify =
            regAccessNode e s m.proc m.key keyNotify := regAccessNode_congr rfl rfl rfl
        rw [completion, completion, ha]
      rw [ih, hc, filter_cons_of_pos hn, filter_cons_of_neg (by simp [hn]),
        map_cons, length_cons]
      simp [notifyComplete, completion, Nat.sub_sub, Nat.add_comm]
    case isFalse hn =>
      have hf : hit n = false := by simpa using hn
      rw [ih]
      simp [hf]

/-- **The walk is a filter**: the entries of `hit` complete, in order, and the others stay. -/
theorem notifySweep_eq : notifySweep e s hit status = { s with
    notify := s.notify.filter fun n => !hit n
    done := s.done ++ (s.notify.filter hit).map (completion e s status)
    notifyCount := s.notifyCount - (s.notify.filter hit).length } := by
  rw [notifySweep, notifyWalk_eq]

/-- The walk touches the list, its count and the record of completions only. -/
@[simp] theorem notifySweep_rest : (notifySweep e s hit status).keys = s.keys ∧
    (notifySweep e s hit status).root = s.root ∧ (notifySweep e s hit status).machine = s.machine ∧
    (notifySweep e s hit status).user = s.user ∧ (notifySweep e s hit status).bytes = s.bytes ∧
    (notifySweep e s hit status).seeded = s.seeded ∧
    (notifySweep e s hit status).registered = s.registered ∧
    (notifySweep e s hit status).objects = s.objects ∧
    (notifySweep e s hit status).next = s.next := by
  rw [notifySweep_eq]
  exact ⟨rfl, rfl, rfl, rfl, rfl, rfl, rfl, rfl, rfl⟩

@[simp] theorem notifySweep_key : (notifySweep e s hit status).key = s.key :=
  key_congr notifySweep_rest.1

@[simp] theorem notifySweep_live {k : KeyId} : (notifySweep e s hit status).Live k ↔ s.Live k :=
  live_congr notifySweep_rest.1

theorem mem_notifySweep {n : Notify} :
    n ∈ (notifySweep e s hit status).notify ↔ n ∈ s.notify ∧ hit n = false := by
  rw [notifySweep_eq]
  simp

end Notify

/-! ### Allocation and release -/

section Alloc

variable {e : Env} {s : St} {size credit : Nat} {k : KeyId}

theorem regAlloc_cases (e : Env) (hc : credit ≤ s.bytes) (hsize : size < 2 ^ 32)
    (hq : s.seeded = true → s.bytes ≤ regQuotaBytes) :
    regAlloc e s size credit = (none, s) ∨
    regAlloc e s size credit = (none, { s with next := s.next + 1 }) ∨
    regAlloc e s size credit =
        (some s.next, { s with bytes := s.bytes + size, next := s.next + 1 }) ∧
      (s.seeded = true → s.bytes - credit + size ≤ regQuotaBytes) := by
  rw [regAlloc]
  split
  case isTrue h => exact .inl rfl
  case isFalse h =>
    split
    case isTrue hm =>
      refine .inr (.inr ⟨rfl, fun hseed => ?_⟩)
      have hq := hq hseed
      have hle : ¬regQuotaBytes < (s.bytes + 2 ^ 64 - credit + size) % 2 ^ 64 :=
        fun hlt => h ⟨hseed, hlt⟩
      have heq : (s.bytes + 2 ^ 64 - credit + size) % 2 ^ 64 = s.bytes - credit + size := by
        rw [regQuotaBytes] at hq
        omega
      rw [heq] at hle
      exact not_lt.mp hle
    case isFalse hm => exact .inr (.inl rfl)

theorem newKey_allocSize_lt {name cls : Name} {volatile fixed : Bool} :
    (newKey e name cls volatile fixed).allocSize < 2 ^ 32 :=
  Nat.mod_lt _ (by decide)

theorem keyAlloc_cases (e : Env) (name cls : Name) (volatile fixed : Bool)
    (hq : s.seeded = true → s.bytes ≤ regQuotaBytes) :
    let x := newKey e name cls volatile fixed
    keyAlloc e s name cls volatile fixed = (none, s) ∨
    keyAlloc e s name cls volatile fixed = (none, { s with next := s.next + 1 }) ∨
    keyAlloc e s name cls volatile fixed = (some s.next,
        ({ s with bytes := s.bytes + x.allocSize, next := s.next + 1 }).put s.next x) ∧
      (s.seeded = true → s.bytes + x.allocSize ≤ regQuotaBytes) := by
  intro x
  rw [keyAlloc]
  have hlt : x.allocSize < 2 ^ 32 := newKey_allocSize_lt
  rcases regAlloc_cases e (Nat.zero_le s.bytes) hlt hq with h | h | ⟨h, hle⟩
  · exact .inl (by rw [h])
  · exact .inr (.inl (by rw [h]))
  · exact .inr (.inr ⟨by rw [h], hle⟩)

/-- What the values of a key are charged. -/
def Key.valueBytes (x : Key) : Nat := (x.values.map Val.allocSize).sum

theorem foldl_sub (vs : List Val) (b : Nat) :
    vs.foldl (fun b v => b - v.allocSize) b = b - (vs.map Val.allocSize).sum := by
  induction vs generalizing b with
  | nil => rfl
  | cons v vs ih =>
    rw [foldl_cons, ih, map_cons, sum_cons, Nat.sub_sub]

def Key.emptied (x : Key) : Key := { x with values := [], valuesTail := 0, nvalues := 0 }

theorem freeValues_eq : freeValues s k =
    { s.put k (s.key k).emptied with bytes := s.bytes - (s.key k).valueBytes } := by
  rw [freeValues, foldl_sub]
  rfl

theorem key_bytes (b : Nat) : key { s with bytes := b } = s.key := rfl

theorem keyFreeNow_eq : keyFreeNow s k =
    s.patch k none (s.bytes - (s.key k).valueBytes - (s.key k).allocSize) := by
  have hk : ((s.put k (s.key k).emptied).key k).allocSize = (s.key k).allocSize := by
    rw [key_put_self]
    rfl
  rw [keyFreeNow, freeValues_eq]
  simp only [key_bytes, hk]
  exact patch_patch

theorem bury_eq : bury s k =
    if (s.key k).refs = 0 then
      s.patch k none (s.bytes - (s.key k).valueBytes - (s.key k).allocSize)
    else s.patch k (some (s.key k).emptied) (s.bytes - (s.key k).valueBytes) := by
  have hr : ((s.put k (s.key k).emptied).key k).refs = (s.key k).refs := by
    rw [key_put_self]
    rfl
  rw [bury, freeValues_eq]
  simp only [key_bytes, hr]
  refine if_congr Iff.rfl ?_ rfl
  rw [keyFreeNow_eq]
  simp only [key_bytes, key_put_self]
  exact patch_patch

end Alloc

end Win98Modern.Registry
