import Mathlib.Data.List.Basic

/-!
# What becomes of the elements of a queue

A queue seen as the history of all that was ever put in, each element with its fate: it waits, it
was taken at the front, or it was purged.  `waiting` is the queue and `taken` what has come out of
it, both in the order of the history.
-/

namespace Win98Modern

open List

inductive Fate
  | waiting | taken | purged
  deriving DecidableEq, Repr

/-- The elements put into a queue, oldest first. -/
abbrev History (α : Type*) := List (α × Fate)

inductive QueueOp (α : Type*)
  | put (as : List α)
  | take
  | purge (p : α → Bool)

def QueueOp.added {α : Type*} : QueueOp α → List α
  | .put as => as
  | .take => []
  | .purge _ => []

namespace History

variable {α : Type*} {p : α → Bool} {H H' H'' : History α}

def fated (f : Fate) (H : History α) : List α := (H.filter (·.2 = f)).map Prod.fst

abbrev waiting (H : History α) : List α := H.fated .waiting

abbrev taken (H : History α) : List α := H.fated .taken

def take : History α → History α
  | [] => []
  | (a, f) :: H => if f = .waiting then (a, .taken) :: H else (a, f) :: take H

def apply (H : History α) : QueueOp α → History α
  | .put as => H ++ as.map (·, .waiting)
  | .take => H.take
  | .purge p => H.map fun x => if x.2 = .waiting ∧ p x.1 then (x.1, .purged) else x

theorem fated_cons (f : Fate) (a : α) (g : Fate) (H : History α) :
    fated f ((a, g) :: H) = if g = f then a :: fated f H else fated f H := by
  by_cases h : g = f <;> simp [fated, h]

theorem fated_append (f : Fate) (H H' : History α) : fated f (H ++ H') = fated f H ++ fated f H' := by
  simp [fated]

theorem fated_map_waiting (f : Fate) (as : List α) :
    fated f (as.map (·, Fate.waiting)) = if f = .waiting then as else [] := by
  induction as with
  | nil => simp [fated]
  | cons a as ih =>
    rw [map_cons, fated_cons, ih]
    cases f <;> simp

theorem waiting_put (as : List α) : (H.apply (.put as)).waiting = H.waiting ++ as := by
  rw [apply, waiting, fated_append, fated_map_waiting, if_pos rfl]

theorem taken_put (as : List α) : (H.apply (.put as)).taken = H.taken := by
  rw [apply, taken, fated_append, fated_map_waiting, if_neg (by decide), append_nil]

theorem waiting_take (H : History α) : (H.apply .take).waiting = H.waiting.tail := by
  show H.take.waiting = _
  induction H with
  | nil => rfl
  | cons x H ih =>
    obtain ⟨a, f⟩ := x
    rw [take]
    by_cases hf : f = .waiting
    · subst hf
      simp [fated_cons]
    · rw [if_neg hf, waiting, waiting, fated_cons, fated_cons, if_neg hf, if_neg hf]
      exact ih

theorem waiting_purge (H : History α) (p : α → Bool) :
    (H.apply (.purge p)).waiting = H.waiting.filter (!p ·) := by
  show fated _ (H.map _) = (fated _ H).filter _
  induction H with
  | nil => rfl
  | cons x H ih =>
    obtain ⟨a, f⟩ := x
    rw [map_cons, fated_cons, fated_cons]
    by_cases hf : f = .waiting
    · subst hf
      cases hp : p a <;> simp [hp, ih]
    · rw [if_neg fun h : f = .waiting ∧ _ => hf h.1, if_neg hf, if_neg hf, ih]

theorem taken_purge (H : History α) (p : α → Bool) : (H.apply (.purge p)).taken = H.taken := by
  show fated _ (H.map _) = fated _ H
  induction H with
  | nil => rfl
  | cons x H ih =>
    obtain ⟨a, f⟩ := x
    rw [map_cons, fated_cons, fated_cons]
    by_cases hf : f = .waiting ∧ p a
    · obtain rfl : f = .waiting := hf.1
      rw [if_pos hf]
      exact ih
    · rw [if_neg hf, ih]

theorem map_fst_take (H : History α) : H.take.map Prod.fst = H.map Prod.fst := by
  induction H with
  | nil => rfl
  | cons x H ih =>
    obtain ⟨a, f⟩ := x
    rw [take]
    by_cases hf : f = .waiting
    · rw [if_pos hf]
      rfl
    · rw [if_neg hf, map_cons, map_cons, ih]

theorem map_fst_apply (H : History α) (op : QueueOp α) :
    (H.apply op).map Prod.fst = H.map Prod.fst ++ op.added := by
  cases op with
  | put as =>
    rw [apply, map_append, map_map, QueueOp.added]
    exact congrArg _ (map_id as)
  | take => rw [apply, map_fst_take, QueueOp.added, append_nil]
  | purge p =>
    rw [apply, map_map, QueueOp.added, append_nil]
    refine map_congr_left fun x _ => ?_
    simp only [Function.comp]
    split_ifs <;> rfl

/-- Nothing is taken before an element that waits. -/
def InOrder (H : History α) : Prop := H.Pairwise fun x y => x.2 = .waiting → y.2 ≠ .taken

theorem InOrder.nil : InOrder ([] : History α) := List.Pairwise.nil

theorem InOrder.put (h : InOrder H) (as : List α) : InOrder (H.apply (.put as)) := by
  refine pairwise_append.2 ⟨h, ?_, ?_⟩
  · rw [pairwise_map]
    exact pairwise_of_forall fun _ _ _ => nofun
  · intro x _ y hy _
    obtain ⟨a, _, rfl⟩ := mem_map.1 hy
    nofun

theorem InOrder.purge (h : InOrder H) (p : α → Bool) : InOrder (H.apply (.purge p)) := by
  refine pairwise_map.2 (h.imp fun {x y} hxy => ?_)
  split_ifs with hx hy hy
  · nofun
  · nofun
  · nofun
  · exact hxy

/-- Behind an element that waits nothing was taken. -/
theorem InOrder.taken_eq_nil {a : α} (h : InOrder ((a, .waiting) :: H)) : H.taken = [] := by
  unfold taken fated
  rw [map_eq_nil_iff, filter_eq_nil_iff]
  intro y hy
  simpa using (pairwise_cons.1 h).1 y hy rfl

theorem InOrder.take (h : InOrder H) : InOrder (H.apply .take) := by
  show InOrder H.take
  induction H with
  | nil => exact h
  | cons x H ih =>
    obtain ⟨a, f⟩ := x
    rw [History.take]
    obtain ⟨hx, hH⟩ := pairwise_cons.1 h
    by_cases hf : f = .waiting
    · rw [if_pos hf]
      exact pairwise_cons.2 ⟨fun _ _ hw => absurd hw (by simp), hH⟩
    · rw [if_neg hf]
      exact pairwise_cons.2 ⟨fun _ _ hw => absurd hw hf, ih hH⟩

/-- **What comes out is what waited first.** -/
theorem InOrder.taken_take (h : InOrder H) :
    (H.apply .take).taken = H.taken ++ H.waiting.head?.toList := by
  show H.take.taken = _
  induction H with
  | nil => rfl
  | cons x H ih =>
    obtain ⟨a, f⟩ := x
    rw [History.take]
    by_cases hf : f = .waiting
    · subst hf
      simp [fated_cons, h.taken_eq_nil]
    · have hrest : fated .taken (History.take H) = _ := ih (pairwise_cons.1 h).2
      rw [if_neg hf, taken, taken, waiting, fated_cons, fated_cons, fated_cons, if_neg hf, hrest]
      split_ifs <;> rfl

/-! ### How a history grows -/

/-- `H'` continues `H`: each element keeps its place, and its fate once that is settled. -/
def Grows (H H' : History α) : Prop :=
  ∀ (i : Nat) (x : α × Fate), H[i]? = some x → ∃ y, H'[i]? = some y ∧ y.1 = x.1 ∧ (x.2 ≠ .waiting → y.2 = x.2)

theorem Grows.refl (H : History α) : Grows H H := fun _ x h => ⟨x, h, rfl, fun _ => rfl⟩

theorem Grows.trans (h : Grows H H') (h' : Grows H' H'') : Grows H H'' := by
  intro i x hx
  obtain ⟨y, hy, hyx, hfy⟩ := h i x hx
  obtain ⟨z, hz, hzy, hfz⟩ := h' i y hy
  refine ⟨z, hz, hzy.trans hyx, fun hw => ?_⟩
  rw [hfz (by rwa [hfy hw]), hfy hw]

theorem Grows.take (H : History α) : Grows H H.take := by
  induction H with
  | nil => exact Grows.refl _
  | cons a H ih =>
    obtain ⟨a, f⟩ := a
    intro i x hx
    rw [History.take]
    cases i with
    | zero =>
      obtain rfl : (a, f) = x := by simpa using hx
      by_cases hf : f = .waiting
      · exact ⟨(a, .taken), by rw [if_pos hf]; rfl, rfl, fun hw => absurd hf hw⟩
      · exact ⟨(a, f), by rw [if_neg hf]; rfl, rfl, fun _ => rfl⟩
    | succ i =>
      by_cases hf : f = .waiting
      · exact ⟨x, by rw [if_pos hf]; exact hx, rfl, fun _ => rfl⟩
      · rw [if_neg hf]
        exact ih i x hx

theorem Grows.apply (H : History α) (op : QueueOp α) : Grows H (H.apply op) := by
  cases op with
  | put as =>
    intro i x hx
    refine ⟨x, ?_, rfl, fun _ => rfl⟩
    rw [History.apply, List.getElem?_append_left (List.getElem?_eq_some_iff.1 hx).1, hx]
  | take => exact Grows.take H
  | purge p =>
    intro i x hx
    rw [History.apply, List.getElem?_map, hx]
    refine ⟨if x.2 = .waiting ∧ p x.1 then (x.1, .purged) else x, rfl, ?_, fun hw => ?_⟩
    · split_ifs <;> rfl
    · rw [if_neg fun h => hw h.1]

/-- Between `H` and `H'` nothing was taken. -/
def Untaken (H H' : History α) : Prop :=
  ∀ (i : Nat) (y : α × Fate), H'[i]? = some y → y.2 = .taken → ∃ x, H[i]? = some x ∧ x.2 = .taken

theorem Untaken.refl (H : History α) : Untaken H H := fun _ y hy ht => ⟨y, hy, ht⟩

theorem Untaken.trans (h : Untaken H H') (h' : Untaken H' H'') : Untaken H H'' := by
  intro i z hz ht
  obtain ⟨y, hy, hty⟩ := h' i z hz ht
  exact h i y hy hty

theorem Untaken.put (H : History α) (as : List α) : Untaken H (H.apply (.put as)) := by
  intro i y hy ht
  rw [apply, List.getElem?_append] at hy
  split_ifs at hy with hi
  · exact ⟨y, hy, ht⟩
  · rw [List.getElem?_map, Option.map_eq_some_iff] at hy
    obtain ⟨a, _, rfl⟩ := hy
    cases ht

theorem Untaken.purge (H : History α) (p : α → Bool) : Untaken H (H.apply (.purge p)) := by
  intro i y hy ht
  rw [apply, List.getElem?_map, Option.map_eq_some_iff] at hy
  obtain ⟨x, hx, rfl⟩ := hy
  refine ⟨x, hx, ?_⟩
  split_ifs at ht
  exact ht

def front (H : History α) : Nat := H.findIdx (·.2 = .waiting)

theorem front_of_waiting {n : Nat} {x : α × Fate} (hx : H[n]? = some x) (hw : x.2 = .waiting)
    (h : ∀ i < n, ∀ y, H[i]? = some y → y.2 ≠ .waiting) : H.front = n := by
  obtain ⟨hn, rfl⟩ := List.getElem?_eq_some_iff.1 hx
  refine (findIdx_eq hn).2 ⟨by simpa using hw, fun i hi => ?_⟩
  simpa using h i hi _ (List.getElem?_eq_getElem (Nat.lt_trans hi hn))

theorem head?_waiting (H : History α) : H.waiting.head? = (H[H.front]?).map Prod.fst := by
  induction H with
  | nil => rfl
  | cons x H ih =>
    obtain ⟨a, f⟩ := x
    rw [waiting, fated_cons, front, findIdx_cons]
    by_cases hf : f = .waiting
    · simp [hf]
    · simp only [hf, decide_false, cond_false, if_false, List.getElem?_cons_succ]
      exact ih

theorem getElem?_take_front {x : α × Fate} (hx : H[H.front]? = some x) :
    H.take[H.front]? = some (x.1, .taken) := by
  induction H with
  | nil => simp at hx
  | cons y H ih =>
    obtain ⟨a, f⟩ := y
    rw [front, findIdx_cons] at hx ⊢
    rw [History.take]
    by_cases hf : f = .waiting
    · simp only [hf, decide_true, cond_true, List.getElem?_cons_zero, Option.some.injEq] at hx ⊢
      rw [← hx]
      rfl
    · simp only [hf, decide_false, cond_false, List.getElem?_cons_succ, if_false] at hx ⊢
      exact ih hx

theorem ne_waiting_of_lt_front {i : Nat} (hi : i < H.front) {y : α × Fate} (hy : H[i]? = some y) :
    y.2 ≠ .waiting := by
  obtain ⟨hlt, rfl⟩ := List.getElem?_eq_some_iff.1 hy
  simpa using not_of_lt_findIdx hi

theorem Grows.front (h : Grows H H') {y : α × Fate} (hy : H'[H.front]? = some y)
    (hw : y.2 = .waiting) : H'.front = H.front := by
  refine front_of_waiting hy hw fun i hi z hz => ?_
  have hlen : H.front ≤ H.length := findIdx_le_length
  have hx : H[i]? = some H[i] := List.getElem?_eq_getElem (by omega)
  obtain ⟨z', hz', _, hfz⟩ := h i _ hx
  obtain rfl := Option.some.inj (hz.symm.trans hz')
  have hne := ne_waiting_of_lt_front hi hx
  rw [hfz hne]
  exact hne

end History

end Win98Modern
