import Win98Modern.Kernel64.VadShape

/-!
# The descriptor calls as edits

Each call of `vad.c`, between its argument checks, is a sequence of the edits
`Reshape`, at most one installation and at most one removal of an allocation.
The lemmas here say so for the functions the calls are made of; none of them
looks at a protection, a state or a page-table entry.
-/

namespace Win98Modern.Kernel64

open List

/-! ### Splitting and coalescing -/

variable {p q : Process} {idx i : Nat} {n v w : Vad} {kz : Bool} {body : Process → Nat → Process}

theorem vadInsertAt_vads (h : vadInsertAt p idx n kz = some q) :
    q.vads = p.vads.take idx ++ n :: p.vads.drop idx := by
  unfold vadInsertAt at h
  split at h
  · split at h
    · simp only [Option.some.injEq] at h; rw [← h]
    · simp at h
  · simp only [Option.some.injEq] at h; rw [← h]

theorem vadInsertAt_hint (h : vadInsertAt p idx n kz = some q) : q.mmapHint = p.mmapHint := by
  unfold vadInsertAt at h
  split at h
  · split at h
    · simp only [Option.some.injEq] at h; rw [← h]
    · simp at h
  · simp only [Option.some.injEq] at h; rw [← h]

theorem vadSplit_reshapes (p : Process) {addr : Nat} (hp : PAGE_SIZE ∣ addr) (kz : Bool) :
    Reshapes p.vads (vadSplit p addr kz).2.vads := by
  unfold vadSplit
  simp only
  split
  · exact .refl
  · rename_i v hv
    split
    · exact .refl
    · rename_i hin
      have h1 : v.start < addr := by omega
      have h2 : addr < v.stop := by omega
      obtain ⟨l, r, hlr, hlen⟩ := split_of_getElem? hv
      rw [← hlen, hlr, set_around]
      split
      · rename_i q hq
        rw [vadInsertAt_vads hq]
        rw [show l.length + 1 = (l ++ [{ v with stop := addr }]).length by simp,
          show l ++ { v with stop := addr } :: r = (l ++ [{ v with stop := addr }]) ++ r by simp,
          take_left, drop_left, append_assoc]
        exact .single (.split l v r addr h1 h2 hp)
      · exact .single (.cut l v r addr h1 h2 hp)

@[simp] theorem vadSplit_hint (p : Process) (addr : Nat) (kz : Bool) :
    (vadSplit p addr kz).2.mmapHint = p.mmapHint := by
  unfold vadSplit
  simp only
  split
  · rfl
  · split
    · rfl
    · split
      · rename_i q hq; rw [vadInsertAt_hint hq]
      · rfl

theorem coalesceFrom_reshapes : ∀ (r : List Vad) (a : Vad) (l : List Vad),
    Reshapes (l ++ a :: r) (l ++ coalesceFrom a r) := by
  intro r
  induction r with
  | nil => intro a l; exact .refl
  | cons b r ih =>
    intro a l
    rw [coalesceFrom]
    split
    · rename_i hm
      simp only [mergeable, decide_eq_true_eq] at hm
      exact .head (.join l a b r hm.1 hm.2.2.2.2.1) (ih _ l)
    · have := ih b (l ++ [a])
      rwa [append_assoc, append_assoc] at this

theorem vadCoalesce_reshapes (p : Process) : Reshapes p.vads (vadCoalesce p).vads := by
  unfold vadCoalesce
  split
  · exact .refl
  · rename_i a r h
    rw [h]
    exact coalesceFrom_reshapes r a []

@[simp] theorem vadCoalesce_hint (p : Process) : (vadCoalesce p).mmapHint = p.mmapHint := by
  unfold vadCoalesce
  split <;> rfl

/-! ### Changing one descriptor -/

theorem set_reshapes {vads : List Vad} (hv : vads[i]? = some v) (hs : w.start = v.start)
    (he : w.stop = v.stop) (hb : w.allocBase = v.allocBase) (hk : w.kind = .view ↔ v.kind = .view) :
    Reshapes vads (vads.set i w) := by
  obtain ⟨l, r, rfl, rfl⟩ := split_of_getElem? hv
  rw [set_around]
  exact .single (.update l v w r hs he hb hk)

theorem foldl_hint {f : Process → Nat → Process} (hf : ∀ p va, (f p va).mmapHint = p.mmapHint) :
    ∀ (l : List Nat) (p : Process), (l.foldl f p).mmapHint = p.mmapHint := by
  intro l
  induction l with
  | nil => intro p; rfl
  | cons va l ih => intro p; rw [foldl_cons, ih, hf]

theorem unmapPages_hint (p : Process) (start stop : Nat) :
    (unmapPages p start stop).mmapHint = p.mmapHint := by
  refine foldl_hint (fun p va => ?_) _ p
  unfold unmapPage vmUnmap pmmFree
  cases p.pml4 (va / PAGE_SIZE) <;> rfl

theorem applyProtPage_vads (w : Vad) (newProt : Nat) (p : Process) (va : Nat) :
    (applyProtPage w newProt p va).vads = p.vads := by
  unfold applyProtPage vmUnmap vmMap
  cases p.pml4 (va / PAGE_SIZE) with
  | none => simp
  | some e => simp only; split_ifs <;> rfl

theorem applyProtPage_hint (w : Vad) (newProt : Nat) (p : Process) (va : Nat) :
    (applyProtPage w newProt p va).mmapHint = p.mmapHint := by
  unfold applyProtPage vmUnmap vmMap
  cases p.pml4 (va / PAGE_SIZE) with
  | none => simp
  | some e => simp only; split_ifs <;> rfl

theorem vadApplyProt_vads (hw : p.vads[i]? = some w) (newProt : Nat) :
    (vadApplyProt p i newProt).vads = p.vads.set i { w with prot := newProt } := by
  unfold vadApplyProt
  rw [hw]
  exact foldl_vads (applyProtPage_vads w newProt) _ _

theorem vadApplyProt_reshapes (p : Process) (i newProt : Nat) :
    Reshapes p.vads (vadApplyProt p i newProt).vads := by
  cases hw : p.vads[i]? with
  | none => unfold vadApplyProt; rw [hw]
  | some w =>
    rw [vadApplyProt_vads hw]
    exact set_reshapes hw rfl rfl rfl Iff.rfl

@[simp] theorem vadApplyProt_hint (p : Process) (i newProt : Nat) :
    (vadApplyProt p i newProt).mmapHint = p.mmapHint := by
  unfold vadApplyProt
  split
  · rfl
  · exact foldl_hint (applyProtPage_hint _ newProt) _ _

theorem commitOne_reshapes (prot : Nat) (p : Process) (i : Nat) :
    Reshapes p.vads (commitOne prot p i).vads := by
  unfold commitOne
  cases hv : p.vads[i]? with
  | none => exact .refl
  | some v =>
    have hfirst : Reshapes p.vads (p.vads.set i { v with state := .committed }) :=
      set_reshapes hv rfl rfl rfl Iff.rfl
    simp only
    split
    · exact hfirst.trans
        (vadApplyProt_reshapes { p with vads := p.vads.set i { v with state := .committed } } i prot)
    · rw [set_set]
      exact set_reshapes hv rfl rfl rfl Iff.rfl

theorem commitOne_hint (prot : Nat) (p : Process) (i : Nat) :
    (commitOne prot p i).mmapHint = p.mmapHint := by
  unfold commitOne
  split
  · rfl
  · simp only
    split
    · rw [vadApplyProt_hint]
    · rfl

theorem decommitOne_reshapes (p : Process) (i : Nat) :
    Reshapes p.vads (decommitOne p i).vads := by
  unfold decommitOne
  cases hw : p.vads[i]? with
  | none => exact .refl
  | some w =>
    have hvads : (if w.state = .committed then unmapPages p w.start w.stop else p).vads = p.vads := by
      split <;> simp
    simp only [hvads]
    exact set_reshapes hw rfl rfl rfl Iff.rfl

theorem decommitOne_hint (p : Process) (i : Nat) : (decommitOne p i).mmapHint = p.mmapHint := by
  unfold decommitOne
  split
  · rfl
  · simp only
    split
    · exact unmapPages_hint ..
    · rfl

/-! ### Walks -/

theorem walk_eq {a stop : Nat} (hlt : a < stop) (h : vadFind p.vads a = some (i, v)) :
    walk body p a stop = match vadFind (body p i).vads a with
      | none => body p i
      | some (_, w) => walk body (body p i) w.stop stop := by
  rw [walk, if_pos hlt, h]
  simp only
  split <;> rename_i hn <;> rw [hn]

/-- What each visit keeps, the walk keeps. -/
theorem walk_rel {R : Process → Process → Prop} (hrefl : ∀ p, R p p)
    (htrans : ∀ p q r, R p q → R q r → R p r) (hbody : ∀ p i, R p (body p i)) (p : Process)
    (a stop : Nat) : R p (walk body p a stop) := by
  induction p, a using walk.induct body stop with
  | case1 p a hlt hnone =>
    rw [walk, if_pos hlt, hnone]
    exact hrefl p
  | case2 p a hlt i v hsome hnone =>
    rw [walk_eq hlt hsome, hnone]
    exact hbody p i
  | case3 p a hlt i v hsome j w hnext ih =>
    rw [walk_eq hlt hsome, hnext]
    exact htrans _ _ _ (hbody p i) ih
  | case4 p a hge =>
    rw [walk, if_neg hge]
    exact hrefl p

theorem walk_reshapes (hbody : ∀ p i, Reshapes p.vads (body p i).vads) (p : Process) (a stop : Nat) :
    Reshapes p.vads (walk body p a stop).vads :=
  walk_rel (R := fun p q => Reshapes p.vads q.vads) (fun _ => .refl) (fun _ _ _ => .trans) hbody p a stop

theorem walk_hint (hbody : ∀ p i, (body p i).mmapHint = p.mmapHint) (p : Process) (a stop : Nat) :
    (walk body p a stop).mmapHint = p.mmapHint :=
  walk_rel (R := fun p q => q.mmapHint = p.mmapHint) (fun _ => rfl) (fun _ _ _ h h' => h'.trans h) hbody p a stop

/-! ### Removal loops -/

theorem removeAt_append {l r : List Vad} (h : p.vads = l ++ v :: r) :
    (vadRemoveAt p l.length).vads = l ++ r := by
  simp [vadRemoveAt, h]

section Loops

variable {base i stop : Nat} {found : Bool}

theorem releaseLoop_none (h : p.vads[i]? = none) : releaseLoop base i p stop = (p, stop) := by
  rw [releaseLoop]
  split
  · rfl
  · simp_all

theorem releaseLoop_some (h : p.vads[i]? = some v) : releaseLoop base i p stop =
    if v.allocBase = base then releaseLoop base i (vadRemoveAt (unmapPages p v.start v.stop) i) v.stop
    else (p, stop) := by
  rw [releaseLoop]
  split
  · simp_all
  · rename_i w hw
    obtain rfl := Option.some.inj (hw.symm.trans h)
    rfl

theorem removeViewLoop_none (h : p.vads[i]? = none) : removeViewLoop base i p found = (p, found) := by
  rw [removeViewLoop]
  split
  · rfl
  · simp_all

theorem removeViewLoop_some (h : p.vads[i]? = some v) : removeViewLoop base i p found =
    if v.allocBase = base ∧ v.kind = .view then removeViewLoop base i (vadRemoveAt p i) true
    else (p, found) := by
  rw [removeViewLoop]
  split
  · simp_all
  · rename_i w hw
    obtain rfl := Option.some.inj (hw.symm.trans h)
    rfl

end Loops

/-- A release takes the descriptors of the allocation from `l` on. -/
theorem releaseLoop_vads (base : Nat) : ∀ (r l : List Vad) (p : Process) (stop : Nat),
    p.vads = l ++ r →
      (releaseLoop base l.length p stop).1.vads = l ++ r.dropWhile (fun v => v.allocBase = base) := by
  intro r
  induction r with
  | nil =>
    intro l p stop h
    rw [releaseLoop_none (by simp [h])]
    simpa using h
  | cons v r ih =>
    intro l p stop h
    rw [releaseLoop_some (v := v) (by simp [h])]
    split
    · rename_i hb
      rw [dropWhile_cons_of_pos (by simp [hb])]
      exact ih l _ _ (removeAt_append (by simpa using h))
    · rename_i hb
      rw [dropWhile_cons_of_neg (by simp [hb])]
      exact h

theorem releaseLoop_hint (base i : Nat) (p : Process) (stop : Nat) :
    (releaseLoop base i p stop).1.mmapHint = p.mmapHint := by
  induction p, stop using releaseLoop.induct base i with
  | case1 p stop hnone => rw [releaseLoop_none hnone]
  | case2 p stop v hsome hb ih =>
    rw [releaseLoop_some hsome, if_pos hb, ih]
    exact unmapPages_hint ..
  | case3 p stop v hsome hb => rw [releaseLoop_some hsome, if_neg hb]

theorem removeViewLoop_vads (base : Nat) : ∀ (r l : List Vad) (p : Process) (found : Bool),
    p.vads = l ++ r → (removeViewLoop base l.length p found).1.vads =
      l ++ r.dropWhile (fun v => v.allocBase = base ∧ v.kind = .view) := by
  intro r
  induction r with
  | nil =>
    intro l p found h
    rw [removeViewLoop_none (by simp [h])]
    simpa using h
  | cons v r ih =>
    intro l p found h
    rw [removeViewLoop_some (v := v) (by simp [h])]
    split
    · rename_i hb
      rw [dropWhile_cons_of_pos (by simp [hb])]
      exact ih l _ _ (removeAt_append h)
    · rename_i hb
      rw [dropWhile_cons_of_neg (by simpa using hb)]
      exact h

theorem removeViewLoop_hint (base i : Nat) (p : Process) (found : Bool) :
    (removeViewLoop base i p found).1.mmapHint = p.mmapHint := by
  induction p, found using removeViewLoop.induct base i with
  | case1 p found hnone => rw [removeViewLoop_none hnone]
  | case2 p found v hsome hb ih =>
    rw [removeViewLoop_some hsome, if_pos hb, ih]
    rfl
  | case3 p found v hsome hb => rw [removeViewLoop_some hsome, if_neg hb]

end Win98Modern.Kernel64
