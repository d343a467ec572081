import Win98Modern.Kernel64.RegistryLedger

/-!
# The values of a key

Setting a value overwrites it, replaces it where it stands, or appends it; deleting one takes it out.
Each keeps the counters of the key (`RecOk`) and changes what the key maps names to at that name
only (`valueMap`).
-/

namespace Win98Modern.Registry

open Function List

def valueMap (values : List Val) (n : FName) : Option (UInt32 × List UInt8) :=
  (values.find? fun v => decide (fold v.name = n)).map fun v => (v.type, v.data)

section Find

variable {s : St} {k : KeyId} {name : Name} {v w u : Val} {l : List Val} {n : Nat} {x : Key}

theorem regFindValue_eq :
    regFindValue s k name = (s.key k).values.find? fun v => decide (fold v.name = fold name) := by
  refine congrArg (fun p => List.find? p _) (funext fun v => ?_)
  exact decide_eq_decide.mpr nameCmp_eq_eq

variable {f : FName} {as bs : List Val}

theorem find_name_eq_some (h : l.Pairwise fun v w => fold v.name ≠ fold w.name) :
    (l.find? fun v => decide (fold v.name = f)) = some v ↔ v ∈ l ∧ fold v.name = f := by
  induction l with
  | nil => exact ⟨fun h => absurd h nofun, fun h => absurd h.1 not_mem_nil⟩
  | cons u l ih =>
    obtain ⟨hu, hl⟩ := pairwise_cons.mp h
    by_cases huf : fold u.name = f
    · rw [List.find?_cons_of_pos (by simpa using huf)]
      constructor
      · intro h
        obtain rfl := Option.some.inj h
        exact ⟨mem_cons_self, huf⟩
      · rintro ⟨hm, hf⟩
        rcases mem_cons.mp hm with rfl | hm
        · rfl
        · exact absurd (huf.trans hf.symm) (hu v hm)
    · rw [List.find?_cons_of_neg (by simpa using huf), ih hl]
      refine ⟨fun h => ⟨mem_cons_of_mem u h.1, h.2⟩, fun h => ⟨?_, h.2⟩⟩
      rcases mem_cons.mp h.1 with rfl | hm
      · exact absurd h.2 huf
      · exact hm

theorem find_name_eq_none :
    (l.find? fun v => decide (fold v.name = f)) = none ↔ ∀ v ∈ l, fold v.name ≠ f := by
  simp

/-- The value found is the one of the name, but for case. -/
theorem regFindValue_some (h : RecOk n (s.key k)) :
    regFindValue s k name = some v ↔ v ∈ (s.key k).values ∧ fold v.name = fold name := by
  rw [regFindValue_eq, find_name_eq_some h.names]

theorem regFindValue_none :
    regFindValue s k name = none ↔ ∀ v ∈ (s.key k).values, fold v.name ≠ fold name := by
  rw [regFindValue_eq, find_name_eq_none]

/-! ### Replacing -/

theorem RecOk.id_inj (h : RecOk n x) (hv : v ∈ x.values) (hu : u ∈ x.values) (hid : u.id = v.id) :
    u = v :=
  inj_on_of_nodup_map h.ids hu hv hid

theorem mem_replaceVal (hu : u ∈ replaceVal v w l) : u = w ∨ u ∈ l := by
  obtain ⟨t, ht, rfl⟩ := mem_map.mp hu
  split
  · exact .inl rfl
  · exact .inr ht

/-- A value takes the place of another of its name. -/
theorem RecOk.replace (h : RecOk n x) (hv : v ∈ x.values) (hname : fold w.name = fold v.name)
    (hid : w.id = v.id ∨ ∀ u ∈ x.values, u.id ≠ w.id) (hw : 0 < w.id ∧ w.id < n) :
    RecOk n { x with
      values := replaceVal v w x.values
      valuesTail := if x.valuesTail = v.id then w.id else x.valuesTail } where
  nsubkeys := h.nsubkeys
  nvalues := h.nvalues.trans (length_map _).symm
  tail := by
    have ht := h.tail
    simp only [replaceVal, List.getLast?_map]
    rcases hl : x.values.getLast? with _ | u
    · rw [List.getLast?_eq_none_iff.mp hl] at hv
      exact absurd hv not_mem_nil
    · rw [hl] at ht
      rw [ht, Option.map_some, Option.map_some, Option.getD_some]
      split <;> rfl
  names := by
    have hnames : ∀ u ∈ x.values, fold (if u.id = v.id then w else u).name = fold u.name := by
      intro u hu
      split
      case isTrue huv => rw [h.id_inj hv hu huv, hname]
      case isFalse => rfl
    refine pairwise_map.mpr (h.names.imp_of_mem fun {u t} hu ht hne => ?_)
    rw [hnames u hu, hnames t ht]
    exact hne
  ids := by
    simp only [replaceVal, List.Nodup, map_map, pairwise_map]
    have hids : x.values.Pairwise fun u t => u.id ≠ t.id := pairwise_map.mp h.ids
    refine hids.imp_of_mem fun {u t} hu ht hne => ?_
    simp only [Function.comp_apply]
    split
    case isTrue huv =>
      rw [if_neg fun htv => hne (huv.trans htv.symm)]
      rcases hid with hid | hid
      · exact fun heq => hne (huv.trans (hid.symm.trans heq))
      · exact fun heq => hid t ht heq.symm
    case isFalse huv =>
      split
      case isTrue htv =>
        rcases hid with hid | hid
        · exact fun heq => huv (heq.trans hid)
        · exact fun heq => hid u hu heq
      case isFalse => exact hne
  young := by
    intro u hu
    rcases mem_replaceVal hu with rfl | hu
    · exact hw
    · exact h.young u hu

theorem replaceVal_self (hv : ∀ u ∈ l, u.id ≠ v.id) : replaceVal v w l = l := by
  refine (map_congr_left fun u hu => ?_).trans (map_id l)
  rw [if_neg (hv u hu), id]

theorem valueBytes_replace (hids : (l.map Val.id).Nodup) (hv : v ∈ l) :
    ((replaceVal v w l).map Val.allocSize).sum + v.allocSize =
      (l.map Val.allocSize).sum + w.allocSize := by
  induction l with
  | nil => exact absurd hv not_mem_nil
  | cons u l ih =>
    obtain ⟨hu, hl⟩ := nodup_cons.mp hids
    have hstep : replaceVal v w (u :: l) =
        (if u.id = v.id then w else u) :: replaceVal v w l := rfl
    rw [hstep, map_cons, sum_cons, map_cons, sum_cons]
    rcases mem_cons.mp hv with rfl | hv
    · have hrest : replaceVal v w l = l := replaceVal_self fun t ht heq =>
        hu (mem_map.mpr ⟨t, ht, heq⟩)
      rw [if_pos rfl, hrest]
      omega
    · have huv : u.id ≠ v.id := fun heq => hu (mem_map.mpr ⟨v, hv, heq.symm⟩)
      have := ih hl hv
      rw [if_neg huv]
      omega

theorem valueMap_replace (h : RecOk n x) (hv : v ∈ x.values) (hname : fold w.name = fold v.name) :
    valueMap (replaceVal v w x.values) =
      update (valueMap x.values) (fold v.name) (some (w.type, w.data)) := by
  have hids := h.ids
  have hnames := h.names
  revert hv hids hnames
  induction x.values with
  | nil => exact fun hv => absurd hv not_mem_nil
  | cons u l ih =>
    intro hv hids hnames
    obtain ⟨hu, hl⟩ := nodup_cons.mp hids
    obtain ⟨hun, hln⟩ := pairwise_cons.mp hnames
    have hstep : replaceVal v w (u :: l) =
        (if u.id = v.id then w else u) :: replaceVal v w l := rfl
    funext f
    rcases mem_cons.mp hv with rfl | hv
    · have hrest : replaceVal v w l = l := replaceVal_self fun t ht heq =>
        hu (mem_map.mpr ⟨t, ht, heq⟩)
      rw [hstep, if_pos rfl, hrest, update_apply]
      by_cases hf : f = fold v.name
      · simp [valueMap, hf, hname]
      · have hf' : fold v.name ≠ f := Ne.symm hf
        simp [valueMap, hf, hf', hname]
    · have huv : u.id ≠ v.id := fun heq => hu (mem_map.mpr ⟨v, hv, heq.symm⟩)
      have hih := congrFun (ih hv hl hln) f
      rw [hstep, if_neg huv]
      by_cases hf : fold u.name = f
      · have hfv : f ≠ fold v.name := fun heq => hun v hv (hf.trans heq)
        simp [valueMap, hf, update_of_ne hfv]
      · have hcons : ∀ l', valueMap (u :: l') f = valueMap l' f := fun l' => by
          simp [valueMap, hf]
        rw [hcons, hih, update_apply, update_apply, hcons]

/-- A value of a new name goes to the end. -/
theorem RecOk.append (h : RecOk n x) (hnew : ∀ u ∈ x.values, fold u.name ≠ fold w.name)
    (hid : ∀ u ∈ x.values, u.id ≠ w.id) (hw : 0 < w.id ∧ w.id < n) :
    RecOk n { x with
      values := x.values ++ [w]
      valuesTail := w.id
      nvalues := x.nvalues + 1 } where
  nsubkeys := h.nsubkeys
  nvalues := by
    rw [length_append, h.nvalues]
    rfl
  tail := by simp
  names := by
    refine pairwise_append.mpr ⟨h.names, pairwise_singleton _ _, fun u hu t ht => ?_⟩
    rw [mem_singleton.mp ht]
    exact hnew u hu
  ids := by
    rw [map_append, map_singleton, ← concat_eq_append, nodup_concat]
    refine ⟨fun hm => ?_, h.ids⟩
    obtain ⟨u, hu, heq⟩ := mem_map.mp hm
    exact hid u hu heq
  young := by
    intro u hu
    rcases mem_append.mp hu with hu | hu
    · exact h.young u hu
    · rw [mem_singleton.mp hu]
      exact hw

theorem valueMap_append (hnew : ∀ u ∈ l, fold u.name ≠ fold w.name) :
    valueMap (l ++ [w]) =
      update (valueMap l) (fold w.name) (some (w.type, w.data)) := by
  funext f
  rw [update_apply, valueMap, List.find?_append]
  by_cases hf : f = fold w.name
  · have hnone : (l.find? fun v => decide (fold v.name = f)) = none :=
      find_name_eq_none.mpr fun u hu => hf ▸ hnew u hu
    rw [hnone, if_pos hf]
    simp [hf]
  · have hf' : fold w.name ≠ f := Ne.symm hf
    rw [if_neg hf]
    simp [valueMap, hf']

/-! ### Deleting -/

theorem find_split (h : regFindValue s k name = some v) :
    ∃ as bs, (s.key k).values = as ++ v :: bs ∧ nameCmp v.name name = .eq ∧
      ∀ u ∈ as, nameCmp u.name name ≠ .eq := by
  obtain ⟨hv, as, bs, heq, has⟩ := List.find?_eq_some_iff_append.mp h
  refine ⟨as, bs, heq, by simpa using hv, fun u hu => ?_⟩
  simpa using has u hu

theorem eraseP_split (hv : nameCmp v.name name = .eq) (has : ∀ u ∈ as, nameCmp u.name name ≠ .eq) :
    ((as ++ v :: bs).eraseP fun v => nameCmp v.name name == .eq) = as ++ bs := by
  rw [eraseP_append_right _ (by simpa using has), eraseP_cons_of_pos (by simp [hv])]

theorem prevOf_split (hv : nameCmp v.name name = .eq) (has : ∀ u ∈ as, nameCmp u.name name ≠ .eq) :
    prevOf name (as ++ v :: bs) = (as.getLast?.map Val.id).getD 0 := by
  rw [prevOf, takeWhile_append_of_pos (by simpa using has),
    takeWhile_cons_of_neg (by simp [hv]), append_nil]

/-- A value is taken out. -/
theorem RecOk.erase (h : RecOk n x) (hx : x.values = as ++ v :: bs) : RecOk n { x with
      values := as ++ bs
      valuesTail := if x.valuesTail = v.id then (as.getLast?.map Val.id).getD 0 else x.valuesTail
      nvalues := x.nvalues - 1 } := by
  have hsub : (as ++ bs).Sublist x.values := by
    rw [hx]
    exact (List.Sublist.refl as).append (sublist_cons_self v bs)
  have hids := h.ids
  constructor
  case nsubkeys => exact h.nsubkeys
  case nvalues =>
    rw [h.nvalues, hx]
    simp
  case tail =>
    have ht := h.tail
    rcases eq_nil_or_concat bs with rfl | ⟨cs, u, rfl⟩
    · have htv : x.valuesTail = v.id := by rw [ht, hx]; simp
      rw [if_pos htv, append_nil]
    · rw [concat_eq_append] at *
      have htu : x.valuesTail = u.id := by
        have hlast : as ++ v :: (cs ++ [u]) = (as ++ v :: cs) ++ [u] := by simp
        rw [ht, hx, hlast, List.getLast?_concat]
        rfl
      have hne : u.id ≠ v.id := by
        intro heq
        rw [hx, map_append, map_cons] at hids
        have hnot := (nodup_cons.mp (nodup_append.mp hids).2.1).1
        exact hnot (mem_map.mpr ⟨u, by simp, heq⟩)
      rw [htu, if_neg hne]
      simp [List.getLast?_append]
  case names => exact h.names.sublist hsub
  case ids => exact hids.sublist (hsub.map _)
  case young => exact fun u hu => h.young u (hsub.subset hu)

theorem valueMap_erase (h : (as ++ v :: bs).Pairwise fun v w => fold v.name ≠ fold w.name) :
    valueMap (as ++ bs) = update (valueMap (as ++ v :: bs)) (fold v.name) none := by
  obtain ⟨-, hvbs, has⟩ := pairwise_append.mp h
  obtain ⟨hv, -⟩ := pairwise_cons.mp hvbs
  funext f
  rw [update_apply]
  by_cases hf : f = fold v.name
  · rw [if_pos hf, valueMap, find_name_eq_none.mpr, Option.map_none]
    intro u hu
    rw [hf]
    rcases mem_append.mp hu with hu | hu
    · exact has u hu v mem_cons_self
    · exact (hv u hu).symm
  · have hf' : fold v.name ≠ f := Ne.symm hf
    rw [if_neg hf, valueMap, valueMap, List.find?_append, List.find?_append,
      List.find?_cons_of_neg (by simpa using hf')]

end Find

end Win98Modern.Registry
