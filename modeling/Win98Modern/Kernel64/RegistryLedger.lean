import Win98Modern.Kernel64.RegistryTree

/-!
# The accounting of the registry

The counters of every key agree with its lists, its reference count with the handles that are open,
and the bytes of the registry with the keys and values that exist (`Ledger`).  A registration for
changes names a key that is not deleted through an open key object, and is pending or complete
but not both.
-/

namespace Win98Modern.Registry

open Function List Nat

structure RecOk (next : Nat) (x : Key) : Prop where
  nsubkeys : x.nsubkeys = x.child.length
  nvalues : x.nvalues = x.values.length
  tail : x.valuesTail = (x.values.getLast?.map Val.id).getD 0
  names : x.values.Pairwise fun v w => fold v.name ≠ fold w.name
  ids : (x.values.map Val.id).Nodup
  young : ∀ v ∈ x.values, 0 < v.id ∧ v.id < next

/-- What a key and its values are charged. -/
def weight : Option Key → Nat
  | none => 0
  | some x => x.allocSize + x.valueBytes

/-- The sum over the keys that exist. -/
def charge (keys : KeyId → Option Key) (next : Nat) : Nat :=
  ∑ k ∈ Finset.range next, weight (keys k)

def handlesOn (os : List Handle) (k : KeyId) : List Handle := os.filter fun h => h.key == k

structure Ledger (s : St) : Prop where
  record : ∀ k, RecOk s.next (s.key k)
  addr : ∀ {k}, s.Live k → 0 < k ∧ k < s.next
  refs : ∀ k, (s.key k).refs = (handlesOn s.objects k).length
  held : ∀ {k}, (s.key k).deleted = true → (s.key k).refs ≠ 0
  handle : (s.objects.map Handle.id).Nodup
  young : ∀ h ∈ s.objects, h.id < s.next
  bytes : s.bytes = charge s.keys s.next
  quota : s.seeded = true → s.bytes ≤ regQuotaBytes
  watched : ∀ n ∈ s.notify, (s.key n.key).deleted = false ∧
    ∃ h ∈ s.objects, h.id = n.keyObj ∧ h.key = n.key ∧ h.driver = false
  count : s.notifyCount = s.notify.length
  once : (s.notify.map Notify.id ++ s.done.map fun c => c.reg.id).Perm s.registered
  fresh : s.registered.Nodup ∧ ∀ i ∈ s.registered, i < s.next
  first : 0 < s.next

section Charge

variable {keys : KeyId → Option Key} {next k : Nat} {o : Option Key}

theorem charge_update (keys : KeyId → Option Key) (o : Option Key) (hk : k < next) :
    charge (update keys k o) next + weight (keys k) = charge keys next + weight o := by
  have hm : k ∈ Finset.range next := Finset.mem_range.mpr hk
  rw [charge, charge, ← Finset.add_sum_erase _ _ hm, ← Finset.add_sum_erase (Finset.range next)
    (fun j => weight (keys j)) hm, update_self]
  have hrest : ∑ j ∈ (Finset.range next).erase k, weight (update keys k o j) =
      ∑ j ∈ (Finset.range next).erase k, weight (keys j) :=
    Finset.sum_congr rfl fun j hj => by rw [update_of_ne (Finset.ne_of_mem_erase hj)]
  omega

theorem weight_le_charge (hk : k < next) : weight (keys k) ≤ charge keys next := by
  have h := charge_update keys none hk
  rw [weight] at h
  omega

theorem charge_succ : charge keys (next + 1) = charge keys next + weight (keys next) :=
  Finset.sum_range_succ _ _

end Charge

theorem RecOk.zero (next : Nat) : RecOk next Key.zero where
  nsubkeys := rfl
  nvalues := rfl
  tail := rfl
  names := List.Pairwise.nil
  ids := nodup_nil
  young := fun _ hv => absurd hv not_mem_nil

theorem RecOk.mono {m n : Nat} {x : Key} (h : RecOk m x) (hmn : m ≤ n) : RecOk n x :=
  { h with young := fun v hv => ⟨(h.young v hv).1, lt_of_lt_of_le (h.young v hv).2 hmn⟩ }

theorem RecOk.emptied {n : Nat} {x : Key} (h : RecOk n x) : RecOk n x.emptied where
  nsubkeys := h.nsubkeys
  nvalues := rfl
  tail := rfl
  names := List.Pairwise.nil
  ids := nodup_nil
  young := fun _ hv => absurd hv not_mem_nil

namespace Ledger

variable {e : Env} {s : St} {k : KeyId} {o : Option Key} {b : Nat}

theorem weight_le (h : Ledger s) (hk : s.Live k) :
    (s.key k).allocSize + (s.key k).valueBytes ≤ s.bytes := by
  have hw : weight (s.keys k) ≤ charge s.keys s.next := weight_le_charge (h.addr hk).2
  rw [hk.keys] at hw
  exact h.bytes ▸ hw

theorem live_handle (h : Ledger s) {o : Handle} (ho : o ∈ s.objects) : s.Live o.key := by
  by_contra hl
  have hr := h.refs o.key
  rw [St.key_of_not_live hl] at hr
  have hm : o ∈ handlesOn s.objects o.key := mem_filter.mpr ⟨ho, by simp⟩
  rw [length_eq_zero_iff.mp hr.symm] at hm
  exact absurd hm not_mem_nil

theorem live_watched (h : Ledger s) {n : Notify} (hn : n ∈ s.notify) : s.Live n.key := by
  obtain ⟨-, o, ho, -, hk, -⟩ := h.watched n hn
  exact hk ▸ h.live_handle ho

theorem refs_pos (h : Ledger s) {o : Handle} (ho : o ∈ s.objects) : (s.key o.key).refs > 0 := by
  rw [h.refs]
  exact length_pos_of_mem (mem_filter.mpr ⟨ho, by simp⟩)

theorem sweep (h : Ledger s) (hit : Notify → Bool) (status : Status) :
    Ledger (notifySweep e s hit status) := by
  rw [notifySweep_eq]
  refine { h with watched := ?_, count := ?_, once := ?_ }
  · exact fun n hn => h.watched n (mem_filter.mp hn).1
  · have hlen := length_eq_length_filter_add (l := s.notify) hit
    have hc := h.count
    simp only
    omega
  · have hp : (s.notify.filter (fun n => !hit n) ++ s.notify.filter hit).Perm s.notify :=
      perm_append_comm.trans (filter_append_perm hit s.notify)
    have hmap : ((s.notify.filter hit).map (completion e s status)).map (fun c => c.reg.id) =
        (s.notify.filter hit).map Notify.id := by
      rw [map_map]
      rfl
    refine List.Perm.trans ?_ h.once
    rw [map_append, hmap, ← append_assoc]
    have hswap : ((s.notify.filter fun n => !hit n).map Notify.id ++
        s.done.map fun c => c.reg.id) ++ (s.notify.filter hit).map Notify.id |>.Perm
        (((s.notify.filter fun n => !hit n).map Notify.id ++
          (s.notify.filter hit).map Notify.id) ++ s.done.map fun c => c.reg.id) := by
      rw [append_assoc, append_assoc]
      exact perm_append_comm.append_left _
    refine hswap.trans ?_
    rw [← map_append]
    exact (hp.map _).append_right _

theorem bump (h : Ledger s) : Ledger { s with next := s.next + 1 } := by
  have hnext : s.keys s.next = none := by
    by_contra hne
    exact absurd (h.addr (k := s.next) (Option.isSome_iff_ne_none.mpr hne)).2 (lt_irrefl _)
  refine { h with record := ?_, addr := ?_, young := ?_, bytes := ?_, fresh := ?_, first := ?_ }
  · exact fun k => (h.record k).mono (le_succ _)
  · exact fun hk => ⟨(h.addr hk).1, lt_succ_of_lt (h.addr hk).2⟩
  · exact fun o ho => lt_succ_of_lt (h.young o ho)
  · exact h.bytes.trans (by rw [charge_succ, hnext, weight, add_zero])
  · exact ⟨h.fresh.1, fun i hi => lt_succ_of_lt (h.fresh.2 i hi)⟩
  · exact succ_pos _

theorem revise (h : Ledger s) (hk : 0 < k ∧ k < s.next) {os : List Handle}
    (hids : (os.map Handle.id).Nodup) (hyoung : ∀ o ∈ os, o.id < s.next)
    (hrec : ∀ x, o = some x → RecOk s.next x)
    (hrefs : (o.map Key.refs).getD 0 = (handlesOn os k).length)
    (hothers : ∀ j, j ≠ k → handlesOn os j = handlesOn s.objects j)
    (hheld : ∀ x, o = some x → x.deleted = true → x.refs ≠ 0)
    (hwatch : ∀ n ∈ s.notify, n.key = k → ∃ x, o = some x ∧ x.deleted = false)
    (hkeep : ∀ n ∈ s.notify, ∃ h ∈ os, h.id = n.keyObj ∧ h.key = n.key ∧ h.driver = false)
    (hb : b + weight (s.keys k) = s.bytes + weight o)
    (hq : s.seeded = true → b ≤ regQuotaBytes) :
    Ledger (({ s with objects := os } : St).patch k o b) := by
  have hkey : ∀ {j}, j ≠ k → (({ s with objects := os } : St).patch k o b).key j = s.key j :=
    fun hj => key_patch_ne hj
  refine { h with
    record := ?_, addr := ?_, refs := ?_, held := ?_, handle := hids, young := hyoung
    bytes := ?_, quota := hq, watched := ?_ }
  · intro j
    by_cases hj : j = k
    · rw [hj, key_patch_self]
      cases o with
      | none => exact RecOk.zero _
      | some x => exact hrec x rfl
    · rw [hkey hj]
      exact h.record j
  · intro j hj
    by_cases hjk : j = k
    · rw [hjk]
      exact hk
    · exact h.addr ((live_patch_ne (s := { s with objects := os }) (o := o) (b := b) hjk).mp hj)
  · intro j
    by_cases hj : j = k
    · rw [hj, key_patch_self]
      refine Eq.trans ?_ hrefs
      cases o <;> rfl
    · rw [hkey hj]
      exact (h.refs j).trans (by rw [← hothers j hj]; rfl)
  · intro j hd
    by_cases hj : j = k
    · rw [hj, key_patch_self] at hd ⊢
      cases o with
      | none => exact absurd hd nofun
      | some x => exact hheld x rfl hd
    · rw [hkey hj] at hd ⊢
      exact h.held hd
  · have hc := charge_update s.keys o hk.2
    have hs := h.bytes
    exact add_right_cancel ((hb.trans (by rw [hs])).trans hc.symm)
  · intro n hn
    refine ⟨?_, hkeep n hn⟩
    by_cases hj : n.key = k
    · obtain ⟨x, hx, hd⟩ := hwatch n hn hj
      rw [hj, key_patch_self, hx]
      exact hd
    · rw [hkey hj]
      exact (h.watched n hn).1

theorem write (h : Ledger s) (hk : s.Live k) (hrec : ∀ x, o = some x → RecOk s.next x)
    (hrefs : (o.map Key.refs).getD 0 = (s.key k).refs)
    (hheld : ∀ x, o = some x → x.deleted = true → x.refs ≠ 0)
    (hwatch : ∀ n ∈ s.notify, n.key = k → ∃ x, o = some x ∧ x.deleted = false)
    (hb : b + weight (s.keys k) = s.bytes + weight o)
    (hq : s.seeded = true → b ≤ regQuotaBytes) :
    Ledger (s.patch k o b) :=
  h.revise (h.addr hk) h.handle h.young hrec (hrefs.trans (h.refs k)) (fun _ _ => rfl) hheld hwatch
    (fun n hn => (h.watched n hn).2) hb hq

/-- The record at a live key is another one, and the books pay for its values. -/
theorem rewrite (h : Ledger s) (hk : s.Live k) {x : Key} (hrec : RecOk s.next x)
    (hrefs : x.refs = (s.key k).refs) (hdel : x.deleted = (s.key k).deleted)
    (hb : b + ((s.key k).allocSize + (s.key k).valueBytes) = s.bytes + (x.allocSize + x.valueBytes))
    (hq : s.seeded = true → b ≤ regQuotaBytes) : Ledger (s.patch k (some x) b) := by
  refine h.write hk ?_ hrefs ?_ ?_ ?_ hq
  · intro y hy
    obtain rfl := Option.some.inj hy
    exact hrec
  · intro y hy hd
    obtain rfl := Option.some.inj hy
    rw [hdel] at hd
    rw [hrefs]
    exact h.held hd
  · rintro n hn rfl
    exact ⟨x, rfl, hdel.trans (h.watched n hn).1⟩
  · rw [hk.keys]
    exact hb

theorem put (h : Ledger s) (hk : s.Live k) {x : Key} (hrec : RecOk s.next x)
    (hrefs : x.refs = (s.key k).refs) (hdel : x.deleted = (s.key k).deleted)
    (hw : x.allocSize + x.valueBytes = (s.key k).allocSize + (s.key k).valueBytes) :
    Ledger (s.put k x) :=
  h.rewrite hk hrec hrefs hdel (congrArg (s.bytes + ·) hw.symm) h.quota

theorem bury (h : Ledger s) (hk : s.Live k) {x : Key} (hrec : RecOk s.next x)
    (hrefs : x.refs = (s.key k).refs) (hsize : x.allocSize = (s.key k).allocSize)
    (hvals : x.valueBytes = (s.key k).valueBytes) (hquiet : ∀ n ∈ s.notify, n.key ≠ k) :
    Ledger (Registry.bury (s.put k x) k) := by
  have hle := h.weight_le hk
  rw [bury_eq, key_put_self]
  split
  case isTrue hr =>
    rw [put_eq_patch, patch_patch, patch_rest.1]
    refine h.write hk nofun (hr.symm.trans hrefs) nofun ?_ ?_ ?_
    · exact fun n hn hkey => absurd hkey (hquiet n hn)
    · rw [hk.keys, weight, weight, hvals, hsize]
      omega
    · exact fun hs => le_trans (by omega) (h.quota hs)
  case isFalse hr =>
    have hempty : x.emptied.valueBytes = 0 := rfl
    rw [put_eq_patch, patch_patch, patch_rest.1]
    refine h.write hk ?_ hrefs ?_ ?_ ?_ ?_
    · intro y hy
      obtain rfl := Option.some.inj hy
      exact hrec.emptied
    · intro y hy _
      obtain rfl := Option.some.inj hy
      exact hr
    · exact fun n hn hkey => absurd hkey (hquiet n hn)
    · have hsz : x.emptied.allocSize = (s.key k).allocSize := hsize
      rw [hk.keys, weight, weight, hempty, hsz, hvals]
      omega
    · exact fun hs => le_trans (by omega) (h.quota hs)

theorem alloc (h : Ledger s) {x : Key} (hrec : RecOk s.next x) (hrefs : x.refs = 0)
    (hd : x.deleted = false) (hv : x.valueBytes = 0)
    (hq : s.seeded = true → s.bytes + x.allocSize ≤ regQuotaBytes) :
    Ledger (({ s with bytes := s.bytes + x.allocSize, next := s.next + 1 } : St).put s.next x) := by
  have hnew : s.keys s.next = none := by
    by_contra hne
    exact absurd (h.addr (k := s.next) (Option.isSome_iff_ne_none.mpr hne)).2 (lt_irrefl _)
  have hempty : handlesOn s.objects s.next = [] := by
    have hr := h.refs s.next
    rw [St.key, hnew] at hr
    exact length_eq_zero_iff.mp hr.symm
  refine h.bump.revise (o := some x) ⟨h.first, lt_succ_self _⟩ h.handle
    (fun o ho => lt_succ_of_lt (h.young o ho)) ?_ ?_ (fun _ _ => rfl) ?_ ?_
    (fun n hn => (h.watched n hn).2) ?_ hq
  · intro y hy
    obtain rfl := Option.some.inj hy
    exact hrec.mono (le_succ _)
  · rw [hempty]
    exact hrefs
  · intro y hy hyd
    obtain rfl := Option.some.inj hy
    rw [hd] at hyd
    cases hyd
  · exact fun _ _ _ => ⟨x, rfl, hd⟩
  · rw [hnew, weight, weight, hv]
    rfl

theorem openHandle (h : Ledger s) (hk : s.Live k) (driver : Bool) :
    Ledger (({ s with
      objects := s.objects ++ [{ id := s.next, key := k, driver := driver }]
      next := s.next + 1 } : St).put k { s.key k with refs := (s.key k).refs + 1 }) := by
  have hlast : handlesOn (s.objects ++ [{ id := s.next, key := k, driver := driver }]) k =
      handlesOn s.objects k ++ [{ id := s.next, key := k, driver := driver }] := by
    simp [handlesOn]
  refine h.bump.revise (o := some { s.key k with refs := (s.key k).refs + 1 }) (b := s.bytes)
    ⟨(h.addr hk).1, lt_succ_of_lt (h.addr hk).2⟩ ?_ ?_ ?_ ?_ ?_ ?_ ?_ ?_ ?_ h.quota
  · rw [map_append, map_singleton, ← concat_eq_append, nodup_concat]
    refine ⟨fun hm => ?_, h.handle⟩
    obtain ⟨o, ho, hid⟩ := mem_map.mp hm
    exact absurd (hid ▸ h.young o ho) (lt_irrefl _)
  · intro o ho
    rcases mem_append.mp ho with ho | ho
    · exact lt_succ_of_lt (h.young o ho)
    · obtain rfl := mem_singleton.mp ho
      exact lt_succ_self _
  · intro y hy
    obtain rfl := Option.some.inj hy
    have hr := (h.record k).mono (le_succ s.next)
    exact { hr with }
  · rw [hlast, length_append, ← h.refs k]
    rfl
  · intro j hj
    have hjk : (k == j) = false := by simpa using Ne.symm hj
    simp [handlesOn, hjk]
  · intro y hy _
    obtain rfl := Option.some.inj hy
    exact succ_ne_zero _
  · rintro n hn rfl
    exact ⟨_, rfl, (h.watched n hn).1⟩
  · intro n hn
    obtain ⟨o, ho, hid⟩ := (h.watched n hn).2
    exact ⟨o, mem_append_left _ ho, hid⟩
  · rw [hk.keys, weight, weight]
    rfl

theorem dropRef_eq (h : Handle) : dropRef s h =
    ({ s with objects := s.objects.filter fun o => o.id ≠ h.id } : St).patch h.key
      (if (s.key h.key).refs - 1 = 0 ∧ (s.key h.key).deleted then none
        else some { s.key h.key with refs := (s.key h.key).refs - 1 })
      (if (s.key h.key).refs - 1 = 0 ∧ (s.key h.key).deleted then
        s.bytes - (s.key h.key).valueBytes - (s.key h.key).allocSize else s.bytes) := by
  have hk : ∀ {t : St}, ({ t with objects := t.objects.filter fun o => o.id ≠ h.id } : St).key =
    t.key := rfl
  rw [dropRef]
  simp only [key_put_self, hk]
  split
  case isTrue hr =>
    rw [keyFreeNow_eq, key_put_self, put_eq_patch, patch_patch, patch_rest.1]
    rfl
  case isFalse hr => rfl

theorem close (h : Ledger s) {o : Handle} (ho : o ∈ s.objects)
    (hquiet : ∀ n ∈ s.notify, n.keyObj ≠ o.id) : Ledger (dropRef s o) := by
  have hk := h.live_handle ho
  have hle := h.weight_le hk
  have hcount : (handlesOn (s.objects.filter fun o' => o'.id ≠ o.id) o.key).length =
      (s.key o.key).refs - 1 := by
    have hnd : (handlesOn s.objects o.key).Nodup :=
      (List.Nodup.of_map _ h.handle).filter _
    have hmem : o ∈ handlesOn s.objects o.key := mem_filter.mpr ⟨ho, by simp⟩
    have hswap : handlesOn (s.objects.filter fun o' => o'.id ≠ o.id) o.key =
        (handlesOn s.objects o.key).erase o := by
      rw [hnd.erase_eq_filter, handlesOn, handlesOn, filter_filter, filter_filter]
      refine filter_congr fun o' ho' => ?_
      have hid : o'.id = o.id ↔ o' = o :=
        ⟨fun hid => inj_on_of_nodup_map h.handle ho' ho hid, fun heq => heq ▸ rfl⟩
      by_cases heq : o' = o <;> simp [hid, heq, Bool.and_comm]
    rw [hswap, length_erase_of_mem hmem, ← h.refs]
  rw [dropRef_eq]
  refine h.revise (h.addr hk) ?_ ?_ ?_ ?_ ?_ ?_ ?_ ?_ ?_ ?_
  · exact (h.handle.sublist (filter_sublist.map _))
  · exact fun o' ho' => h.young o' (mem_filter.mp ho').1
  · intro y hy
    split at hy
    · exact absurd hy nofun
    · obtain rfl := Option.some.inj hy
      exact { h.record o.key with }
  · rw [hcount]
    split
    case isTrue hr => exact hr.1.symm
    case isFalse hr => rfl
  · intro j hj
    rw [handlesOn, handlesOn, filter_filter]
    refine filter_congr fun o' ho' => ?_
    by_cases hid : o'.id = o.id
    · have heq := inj_on_of_nodup_map h.handle ho' ho hid
      have hne : (o.key == j) = false := by simpa using Ne.symm hj
      simp [heq, hne]
    · simp [hid]
  · intro y hy hd
    split at hy
    case isTrue => exact absurd hy nofun
    case isFalse hr =>
      obtain rfl := Option.some.inj hy
      exact fun h0 => hr ⟨h0, hd⟩
  · intro n hn hkey
    have hd := (h.watched n hn).1
    rw [hkey] at hd
    rw [if_neg (by simp [hd])]
    exact ⟨_, rfl, hd⟩
  · intro n hn
    obtain ⟨o', ho', hid⟩ := (h.watched n hn).2
    refine ⟨o', mem_filter.mpr ⟨ho', ?_⟩, hid⟩
    simpa using fun heq => hquiet n hn (hid.1.symm.trans heq)
  · rw [hk.keys]
    split
    · rw [weight, weight]
      omega
    · rfl
  · intro hs
    have hq := h.quota hs
    split
    · omega
    · exact hq

theorem driver_quiet (h : Ledger s) {o : Handle} (ho : o ∈ s.objects) (hd : o.driver = true) :
    ∀ n ∈ s.notify, n.keyObj ≠ o.id := by
  intro n hn heq
  obtain ⟨-, o', ho', hid, -, hd'⟩ := h.watched n hn
  rw [inj_on_of_nodup_map h.handle ho' ho (hid.trans heq), hd] at hd'
  exact absurd hd' nofun

theorem register (h : Ledger s) {o : Handle} (ho : o ∈ s.objects) (n : Notify)
    (hid : n.id = s.next) (hkey : n.key = o.key) (hobj : n.keyObj = o.id)
    (hsys : o.driver = false) (hd : (s.key o.key).deleted = false) :
    Ledger { s with
      notify := n :: s.notify
      notifyCount := s.notifyCount + 1
      registered := s.registered ++ [s.next]
      next := s.next + 1 } := by
  refine { h.bump with watched := ?_, count := ?_, once := ?_, fresh := ?_ }
  · intro m hm
    rcases mem_cons.mp hm with rfl | hm
    · exact ⟨hkey ▸ hd, o, ho, hobj.symm, hkey.symm, hsys⟩
    · exact h.watched m hm
  · exact congrArg (· + 1) h.count
  · rw [map_cons, cons_append, hid]
    exact (h.once.cons _).trans (perm_append_singleton _ _).symm
  · refine ⟨?_, ?_⟩
    · rw [← concat_eq_append, nodup_concat]
      exact ⟨fun hm => absurd (h.fresh.2 _ hm) (lt_irrefl _), h.fresh.1⟩
    · intro i hi
      rcases mem_append.mp hi with hi | hi
      · exact lt_succ_of_lt (h.fresh.2 i hi)
      · rw [mem_singleton.mp hi]
        exact lt_succ_self _

end Ledger

end Win98Modern.Registry
