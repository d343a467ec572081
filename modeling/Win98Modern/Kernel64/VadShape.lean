import Mathlib.Order.Nat
import Win98Modern.Kernel64.Vad

/-!
# The shape of a descriptor array

`Shape vads` is what every caller of `vad_find` relies on: page-aligned
descriptors inside the user range, in address order and disjoint, with the
descriptors of one allocation next to each other.  Two facts about allocations
carry the proof: the descriptor that begins at an allocation's base is present
as long as any descriptor of the allocation is (`head`), and either all
descriptors of an allocation are view descriptors or none is (`view`).

`Reshape` is what the calls do between their searches, one constructor for each
kind of edit: a descriptor is split, loses its tail, is joined to its neighbour,
or gets a new state, protection or image.  `Reshape.shape` says that none of
these changes the shape; insertion and removal of a whole allocation are the
remaining two (`Shape.insert`, `Shape.remove_alloc`).
-/

namespace Win98Modern.Kernel64

open List

structure Vad.Ok (v : Vad) : Prop where
  min_le : USER_MIN ≤ v.start
  start_lt : v.start < v.stop
  le_top : v.stop ≤ USER_TOP
  start_page : PAGE_SIZE ∣ v.start
  stop_page : PAGE_SIZE ∣ v.stop

structure Shape (vads : List Vad) : Prop where
  ok : ∀ v ∈ vads, v.Ok
  ordered : Ordered Vad.start Vad.stop vads
  runs : ∀ a ∈ vads, ∀ b ∈ vads, ∀ c ∈ vads, a.start ≤ b.start → b.start ≤ c.start →
    a.allocBase = c.allocBase → b.allocBase = a.allocBase
  head : ∀ v ∈ vads, ∃ h ∈ vads, h.start = v.allocBase ∧ h.allocBase = v.allocBase
  base_le : ∀ v ∈ vads, v.allocBase ≤ v.start
  view : ∀ a ∈ vads, ∀ b ∈ vads, a.allocBase = b.allocBase → (a.kind = .view ↔ b.kind = .view)

theorem shape_nil : Shape [] where
  ok := by simp
  ordered := ordered_nil
  runs := by simp
  head := by simp
  base_le := by simp
  view := by simp

variable {vads l r ys : List Vad} {addr i : Nat} {v : Vad}

theorem Shape.pos (h : Shape vads) : ∀ v ∈ vads, v.start < v.stop :=
  fun v hv => (h.ok v hv).start_lt

/-! ### Searching an ordered array -/

theorem vadLower_append (hl : ∀ v ∈ l, v.stop ≤ addr) (hr : ∀ v ∈ r, addr < v.stop) :
    vadLower (l ++ r) addr = l.length := by
  have htest : ∀ i, i < (l ++ r).length →
      (((l ++ r)[i]?).any (fun v => decide (v.stop ≤ addr)) = true ↔ i < l.length) := by
    intro i hi
    by_cases hil : i < l.length
    · rw [List.getElem?_append_left hil, List.getElem?_eq_getElem hil]
      simp [hl _ (getElem_mem hil), hil]
    · rw [length_append] at hi
      have hir : i - l.length < r.length := by omega
      rw [List.getElem?_append_right (by omega), List.getElem?_eq_getElem hir]
      have := hr _ (getElem_mem hir)
      simp only [Option.any_some, decide_eq_true_eq]
      omega
  have hspec := lowerBound_spec
    (fun mid => ((l ++ r)[mid]?).any (fun v => decide (v.stop ≤ addr))) (l ++ r).length
    (fun i j hij hj ht => (htest i (by omega)).2 (by have := (htest j hj).1 ht; omega))
    (l ++ r).length 0 (l ++ r).length (by omega) (by omega) (by omega)
    (fun i hi => absurd hi (by omega)) (fun i h h' => absurd h (by omega))
  have hle := (lowerBound_le
    (fun mid => ((l ++ r)[mid]?).any (fun v => decide (v.stop ≤ addr)))
    (l ++ r).length 0 (l ++ r).length (by omega)).2
  rw [← vadLower] at hspec hle
  rcases Nat.lt_trichotomy (vadLower (l ++ r) addr) l.length with hlt | heq | hgt
  · have hlen : vadLower (l ++ r) addr < (l ++ r).length := by rw [length_append]; omega
    have := hspec.2 _ le_rfl hlen
    rw [(htest _ hlen).2 hlt] at this
    simp at this
  · exact heq
  · have hlen : l.length < (l ++ r).length := by omega
    have := (htest _ hlen).1 (hspec.1 _ hgt)
    omega

/-- `vad_lower` cuts an array of the right shape into the descriptors that end
at or below the address and the others. -/
theorem Shape.lower (h : Shape vads) (addr : Nat) :
    ∃ l r, vads = l ++ r ∧ vadLower vads addr = l.length ∧ (∀ v ∈ l, v.stop ≤ addr) ∧
      ∀ v ∈ r, addr < v.stop := by
  obtain ⟨l, r, rfl, hl, hr⟩ := h.ordered.split_at h.pos addr
  exact ⟨l, r, rfl, vadLower_append hl hr, hl, hr⟩

theorem split_of_getElem? {α : Type*} {xs : List α} {x : α} (h : xs[i]? = some x) :
    ∃ l r, xs = l ++ x :: r ∧ l.length = i := by
  obtain ⟨hi, rfl⟩ := List.getElem?_eq_some_iff.1 h
  exact ⟨xs.take i, xs.drop (i + 1), by rw [← drop_eq_getElem_cons hi, take_append_drop],
    by simp; omega⟩

theorem set_around {α : Type*} (l r : List α) (x y : α) :
    (l ++ x :: r).set l.length y = l ++ y :: r := by simp

theorem vadFind_some (h : vadFind vads addr = some (i, v)) :
    vads[i]? = some v ∧ v.start ≤ addr ∧ addr < v.stop := by
  have hstop := vadFind_stop h
  simp only [vadFind] at h
  split at h
  · rename_i w hw
    split at h
    · simp only [Option.some.injEq, Prod.mk.injEq] at h
      obtain ⟨rfl, rfl⟩ := h
      exact ⟨hw, by assumption, hstop⟩
    · simp at h
  · simp at h

theorem vadFind_mem (h : vadFind vads addr = some (i, v)) : v ∈ vads :=
  mem_of_getElem? (vadFind_some h).1

/-- **`vad_find` is exact**: it returns the one descriptor that contains the
address, and nothing when there is none. -/
theorem Shape.find_iff (h : Shape vads) (addr : Nat) (v : Vad) :
    (∃ i, vadFind vads addr = some (i, v)) ↔ v ∈ vads ∧ v.start ≤ addr ∧ addr < v.stop := by
  constructor
  · rintro ⟨i, hi⟩
    exact ⟨vadFind_mem hi, (vadFind_some hi).2⟩
  · rintro ⟨hv, hlo, hhi⟩
    obtain ⟨l, r, rfl, hlen, hl, hr⟩ := h.lower addr
    have hvr : v ∈ r := by
      rcases mem_append.1 hv with hv | hv
      · have := hl v hv; omega
      · exact hv
    cases r with
    | nil => simp at hvr
    | cons w r =>
      have hw : w = v := by
        rcases mem_cons.1 hvr with rfl | hvr
        · rfl
        · have hwv := (ordered_cons.1 (ordered_append.1 h.ordered).2.1).1 v hvr
          have := hr w mem_cons_self
          omega
      subst hw
      exact ⟨l.length, by simp [vadFind, hlen, hlo]⟩

/-! ### Edits that keep the shape -/

/-- Every descriptor of `ys` begins inside one of `xs` of the same allocation,
and the allocations keep their first descriptor. -/
def Refines (xs ys : List Vad) : Prop :=
  (∀ y ∈ ys, ∃ x ∈ xs, x.allocBase = y.allocBase ∧ (x.kind = .view ↔ y.kind = .view) ∧
    x.start ≤ y.start ∧ y.start < x.stop) ∧
  ∀ h ∈ xs, h.start = h.allocBase → ∃ h' ∈ ys, h'.start = h.start ∧ h'.allocBase = h.allocBase

theorem Shape.refine {xs : List Vad} (h : Shape xs) (hr : Refines xs ys) (hok : ∀ y ∈ ys, y.Ok)
    (hord : Ordered Vad.start Vad.stop ys) : Shape ys where
  ok := hok
  ordered := hord
  runs := by
    have hle : ∀ x ∈ xs, ∀ x' ∈ xs, ∀ y y' : Nat, x.start ≤ y → y < x.stop → x'.start ≤ y' →
        y' < x'.stop → y ≤ y' → x.start ≤ x'.start := by
      intro x hx x' hx' y y' h1 h2 h3 h4 h5
      by_contra hc
      have hne : x'.stop ≤ x.start := by
        obtain ⟨l, r, rfl⟩ := append_of_mem hx'
        have hord := ordered_around.1 h.ordered
        rcases mem_append.1 hx with hm | hm
        · have := hord.2.1 x hm; omega
        · rcases mem_cons.1 hm with rfl | hm
          · omega
          · exact hord.2.2 x hm
      omega
    intro a ha b hb c hc hab hbc he
    obtain ⟨a', ha', hea, -, ha1, ha2⟩ := hr.1 a ha
    obtain ⟨b', hb', heb, -, hb1, hb2⟩ := hr.1 b hb
    obtain ⟨c', hc', hec, -, hc1, hc2⟩ := hr.1 c hc
    rw [← heb, ← hea]
    exact h.runs a' ha' b' hb' c' hc' (hle a' ha' b' hb' _ _ ha1 ha2 hb1 hb2 hab)
      (hle b' hb' c' hc' _ _ hb1 hb2 hc1 hc2 hbc) (by rw [hea, hec, he])
  head := by
    intro y hy
    obtain ⟨x, hx, he, -⟩ := hr.1 y hy
    obtain ⟨h0, hh0, hs, hb⟩ := h.head x hx
    obtain ⟨h1, hh1, hs1, hb1⟩ := hr.2 h0 hh0 (by rw [hs, hb])
    exact ⟨h1, hh1, by rw [hs1, hs, he], by rw [hb1, hb, he]⟩
  base_le := by
    intro y hy
    obtain ⟨x, hx, he, -, hxy, -⟩ := hr.1 y hy
    rw [← he]
    exact le_trans (h.base_le x hx) hxy
  view := by
    intro a ha b hb he
    obtain ⟨a', ha', hea, hva, -⟩ := hr.1 a ha
    obtain ⟨b', hb', heb, hvb, -⟩ := hr.1 b hb
    rw [← hva, ← hvb]
    exact h.view a' ha' b' hb' (by rw [hea, heb, he])

/-- One edit of the array. -/
inductive Reshape : List Vad → List Vad → Prop
  | split (l : List Vad) (v : Vad) (r : List Vad) (addr : Nat) : v.start < addr → addr < v.stop →
      PAGE_SIZE ∣ addr → Reshape (l ++ v :: r)
        (l ++ { v with stop := addr } :: { v with start := addr } :: r)
  | cut (l : List Vad) (v : Vad) (r : List Vad) (addr : Nat) : v.start < addr → addr < v.stop →
      PAGE_SIZE ∣ addr → Reshape (l ++ v :: r) (l ++ { v with stop := addr } :: r)
  | join (l : List Vad) (a b : Vad) (r : List Vad) : a.stop = b.start →
      a.allocBase = b.allocBase → Reshape (l ++ a :: b :: r) (l ++ { a with stop := b.stop } :: r)
  | update (l : List Vad) (v w : Vad) (r : List Vad) : w.start = v.start → w.stop = v.stop →
      w.allocBase = v.allocBase → (w.kind = .view ↔ v.kind = .view) →
      Reshape (l ++ v :: r) (l ++ w :: r)

theorem refines_around (xs ys : List Vad)
    (h1 : ∀ y ∈ ys, ∃ x ∈ xs, x.allocBase = y.allocBase ∧ (x.kind = .view ↔ y.kind = .view) ∧
      x.start ≤ y.start ∧ y.start < x.stop) (h2 : ∀ h ∈ xs, h.start = h.allocBase →
      ∃ h' ∈ ys, h'.start = h.start ∧ h'.allocBase = h.allocBase)
    (hl : ∀ v ∈ l ++ r, v.start < v.stop) : Refines (l ++ xs ++ r) (l ++ ys ++ r) := by
  constructor
  · intro y hy
    rw [mem_append, mem_append] at hy
    rcases hy with (hy | hy) | hy
    · exact ⟨y, by simp [hy], rfl, Iff.rfl, le_rfl, hl y (by simp [hy])⟩
    · obtain ⟨x, hx, hrest⟩ := h1 y hy
      exact ⟨x, by simp [hx], hrest⟩
    · exact ⟨y, by simp [hy], rfl, Iff.rfl, le_rfl, hl y (by simp [hy])⟩
  · intro h hh hb
    rw [mem_append, mem_append] at hh
    rcases hh with (hh | hh) | hh
    · exact ⟨h, by simp [hh], rfl, rfl⟩
    · obtain ⟨h', hh', hrest⟩ := h2 h hh hb
      exact ⟨h', by simp [hh'], hrest⟩
    · exact ⟨h, by simp [hh], rfl, rfl⟩

theorem Reshape.shape {xs : List Vad} (hr : Reshape xs ys) (h : Shape xs) : Shape ys := by
  cases hr with
  | split l v r addr h1 h2 hp =>
    have hv := h.ok v (by simp)
    have hpos : ∀ w ∈ l ++ r, w.start < w.stop := fun w hw =>
      h.pos w (by rcases mem_append.1 hw with hw | hw <;> simp [hw])
    have href := refines_around (l := l) (r := r) [v]
      [{ v with stop := addr }, { v with start := addr }] (by simp [hv.start_lt]; omega)
      (by simp) hpos
    have hord := ordered_around.1 h.ordered
    refine h.refine (by simpa using href) (fun y hy => ?_) ?_
    · rw [mem_append, mem_cons, mem_cons] at hy
      rcases hy with hy | rfl | rfl | hy
      · exact h.ok y (by simp [hy])
      · exact ⟨hv.min_le, h1, le_trans h2.le hv.le_top, hv.start_page, hp⟩
      · exact ⟨le_trans hv.min_le h1.le, h2, hv.le_top, hp, hv.stop_page⟩
      · exact h.ok y (by simp [hy])
    · refine ordered_around.2 ⟨ordered_around.2 ⟨hord.1, fun a ha => ?_, hord.2.2⟩, hord.2.1, ?_⟩
      · exact le_trans (hord.2.1 a ha) h1.le
      · intro b hb
        rcases mem_cons.1 hb with rfl | hb
        · exact le_rfl
        · exact le_trans h2.le (hord.2.2 b hb)
  | cut l v r addr h1 h2 hp =>
    have hv := h.ok v (by simp)
    have hpos : ∀ w ∈ l ++ r, w.start < w.stop := fun w hw =>
      h.pos w (by rcases mem_append.1 hw with hw | hw <;> simp [hw])
    have href := refines_around (l := l) (r := r) [v] [{ v with stop := addr }]
      (by simp [hv.start_lt]) (by simp) hpos
    have hord := ordered_around.1 h.ordered
    refine h.refine (by simpa using href) (fun y hy => ?_) ?_
    · rw [mem_append, mem_cons] at hy
      rcases hy with hy | rfl | hy
      · exact h.ok y (by simp [hy])
      · exact ⟨hv.min_le, h1, le_trans h2.le hv.le_top, hv.start_page, hp⟩
      · exact h.ok y (by simp [hy])
    · exact ordered_around.2 ⟨hord.1, hord.2.1, fun b hb => le_trans h2.le (hord.2.2 b hb)⟩
  | join l a b r hab hbase =>
    have ha := h.ok a (by simp)
    have hb := h.ok b (by simp)
    have hpos : ∀ w ∈ l ++ r, w.start < w.stop := fun w hw =>
      h.pos w (by rcases mem_append.1 hw with hw | hw <;> simp [hw])
    have hble := h.base_le a (by simp)
    have hlt := ha.start_lt
    have href := refines_around (l := l) (r := r) [a, b] [{ a with stop := b.stop }]
      (by simp [hlt]) (by simp; omega) hpos
    have hord := ordered_around.1 h.ordered
    have hord' := ordered_around.1 hord.1
    refine h.refine (by simpa using href) (fun y hy => ?_) ?_
    · rw [mem_append, mem_cons] at hy
      rcases hy with hy | rfl | hy
      · exact h.ok y (by simp [hy])
      · exact ⟨ha.min_le, lt_trans hlt (by rw [hab]; exact hb.start_lt), hb.le_top, ha.start_page,
          hb.stop_page⟩
      · exact h.ok y (by simp [hy])
    · exact ordered_around.2 ⟨hord'.1, hord.2.1, hord'.2.2⟩
  | update l v w r hs he hb hk =>
    have hv := h.ok v (by simp)
    have hpos : ∀ w ∈ l ++ r, w.start < w.stop := fun w hw =>
      h.pos w (by rcases mem_append.1 hw with hw | hw <;> simp [hw])
    have href := refines_around (l := l) (r := r) [v] [w]
      (by simp [hs, hb, hk, hv.start_lt]) (by simp [hs, hb]) hpos
    have hord := ordered_around.1 h.ordered
    refine h.refine (by simpa using href) (fun y hy => ?_) ?_
    · rw [mem_append, mem_cons] at hy
      rcases hy with hy | rfl | hy
      · exact h.ok y (by simp [hy])
      · exact ⟨hs ▸ hv.min_le, hs ▸ he ▸ hv.start_lt, he ▸ hv.le_top, hs ▸ hv.start_page,
          he ▸ hv.stop_page⟩
      · exact h.ok y (by simp [hy])
    · exact ordered_around.2 ⟨hord.1, fun a ha => hs ▸ hord.2.1 a ha, fun b hb => he ▸ hord.2.2 b hb⟩

abbrev Reshapes : List Vad → List Vad → Prop := Relation.ReflTransGen Reshape

theorem Reshapes.shape {xs : List Vad} (hr : Reshapes xs ys) (h : Shape xs) : Shape ys := by
  induction hr with
  | refl => exact h
  | tail _ hstep ih => exact hstep.shape ih

/-- The places a new descriptor of allocation base `n.allocBase` may take without
tearing an allocation apart: no other allocation lies on both sides of it, and
its own allocation, if it has one already, has it at its edge. -/
structure Fits (vads : List Vad) (n : Vad) : Prop where
  ok : n.Ok
  free : ∀ v ∈ vads, v.stop ≤ n.start ∨ n.stop ≤ v.start
  base_le : n.allocBase ≤ n.start
  head : n.allocBase = n.start ∨ ∃ h ∈ vads, h.start = n.allocBase ∧ h.allocBase = n.allocBase
  view : ∀ v ∈ vads, v.allocBase = n.allocBase → (v.kind = .view ↔ n.kind = .view)
  outside : ∀ a ∈ vads, ∀ c ∈ vads, a.start ≤ n.start → n.start ≤ c.start →
    a.allocBase = c.allocBase → n.allocBase = a.allocBase
  edge : ∀ a ∈ vads, a.allocBase = n.allocBase → ∀ b ∈ vads,
    (a.start ≤ b.start ∧ b.start ≤ n.start ∨ n.start ≤ b.start ∧ b.start ≤ a.start) →
      b.allocBase = n.allocBase

theorem Shape.insert (h : Shape vads) {n : Vad} (hf : Fits vads n) :
    Shape (vads.take (vadLower vads n.start) ++ n :: vads.drop (vadLower vads n.start)) := by
  obtain ⟨l, r, rfl, hlen, hl, hr⟩ := h.lower n.start
  rw [hlen, take_left, drop_left]
  have hmem : ∀ y, y ∈ l ++ n :: r ↔ y = n ∨ y ∈ l ++ r := by
    intro y; simp only [mem_append, mem_cons]; tauto
  refine ⟨?_, ?_, ?_, ?_, ?_, ?_⟩
  · intro y hy
    rcases (hmem y).1 hy with rfl | hy
    · exact hf.ok
    · exact h.ok y hy
  · refine h.ordered.insert_between hl (fun b hb => ?_)
    have := hr b hb
    have := hf.free b (by simp [hb])
    omega
  · intro a ha b hb c hc hab hbc he
    rcases (hmem b).1 hb with eb | hb'
    · rcases (hmem a).1 ha with ea | ha'
      · rw [ea, eb]
      · rcases (hmem c).1 hc with ec | hc'
        · rw [eb, he, ec]
        · rw [eb] at hab hbc ⊢
          exact hf.outside a ha' c hc' hab hbc he
    · rcases (hmem a).1 ha with ea | ha' <;> rcases (hmem c).1 hc with ec | hc'
      · have := hf.free b hb'
        have := h.pos b hb'
        have := hf.ok.start_lt
        rw [ea] at hab
        rw [ec] at hbc
        omega
      · rw [ea] at hab he ⊢
        exact hf.edge c hc' he.symm b hb' (.inr ⟨hab, hbc⟩)
      · rw [ec] at hbc he
        rw [he]
        exact hf.edge a ha' he b hb' (.inl ⟨hab, hbc⟩)
      · exact h.runs a ha' b hb' c hc' hab hbc he
  · intro y hy
    rcases (hmem y).1 hy with rfl | hy
    · rcases hf.head with hb | ⟨h0, hh0, hs, hb⟩
      · exact ⟨y, hy, hb.symm, rfl⟩
      · exact ⟨h0, (hmem h0).2 (.inr hh0), hs, hb⟩
    · obtain ⟨h0, hh0, hs, hb⟩ := h.head y hy
      exact ⟨h0, (hmem h0).2 (.inr hh0), hs, hb⟩
  · intro y hy
    rcases (hmem y).1 hy with rfl | hy
    · exact hf.base_le
    · exact h.base_le y hy
  · intro a ha b hb he
    rcases (hmem a).1 ha with ea | ha' <;> rcases (hmem b).1 hb with eb | hb'
    · rw [ea, eb]
    · rw [ea] at he ⊢
      exact (hf.view b hb' he.symm).symm
    · rw [eb] at he ⊢
      exact hf.view a ha' he
    · exact h.view a ha' b hb' he

theorem Shape.remove_alloc (h : Shape vads) (base : Nat) :
    Shape (vads.filter (fun v => v.allocBase ≠ base)) := by
  have hmem : ∀ v, v ∈ vads.filter (fun v => decide (v.allocBase ≠ base)) ↔
      v ∈ vads ∧ v.allocBase ≠ base := by
    intro v; rw [mem_filter, decide_eq_true_eq]
  refine ⟨fun v hv => h.ok v ((hmem v).1 hv).1, h.ordered.sublist filter_sublist, ?_, ?_,
    fun v hv => h.base_le v ((hmem v).1 hv).1, ?_⟩
  · intro a ha b hb c hc
    exact h.runs a ((hmem a).1 ha).1 b ((hmem b).1 hb).1 c ((hmem c).1 hc).1
  · intro v hv
    obtain ⟨hv, hne⟩ := (hmem v).1 hv
    obtain ⟨h0, hh0, hs, hb⟩ := h.head v hv
    exact ⟨h0, (hmem h0).2 ⟨hh0, by rw [hb]; exact hne⟩, hs, hb⟩
  · intro a ha b hb
    exact h.view a ((hmem a).1 ha).1 b ((hmem b).1 hb).1

theorem Shape.alloc_prefix {base : Nat} (h : Shape (l ++ v :: r)) (hs : v.start = base)
    (hb : v.allocBase = base) : (l ++ v :: r).filter (fun w => w.allocBase ≠ base) =
      l ++ (v :: r).dropWhile (fun w => w.allocBase = base) := by
  have hord := ordered_around.1 h.ordered
  rw [filter_append]
  congr 1
  · refine filter_eq_self.2 (fun w hw => ?_)
    have := hord.2.1 w hw
    have := h.base_le w (by simp [hw])
    have := h.pos w (by simp [hw])
    have hne : w.allocBase ≠ base := by omega
    simpa using hne
  · have key : ∀ s : List Vad, (∀ w ∈ s, w ∈ l ++ v :: r ∧ v.start ≤ w.start) →
        Ordered Vad.start Vad.stop s →
        s.filter (fun w => w.allocBase ≠ base) = s.dropWhile (fun w => w.allocBase = base) := by
      intro s
      induction s with
      | nil => intro _ _; rfl
      | cons w s ih =>
        intro hmem hs'
        rw [ordered_cons] at hs'
        by_cases hw : w.allocBase = base
        · rw [filter_cons_of_neg (by simp [hw]), dropWhile_cons_of_pos (by simp [hw])]
          exact ih (fun x hx => hmem x (mem_cons_of_mem _ hx)) hs'.2
        · rw [dropWhile_cons_of_neg (by simp [hw])]
          refine filter_eq_self.2 (fun x hx => ?_)
          rcases mem_cons.1 hx with rfl | hx'
          · simpa using hw
          · have hxm := hmem x hx
            have hwm := hmem w mem_cons_self
            have hwx := hs'.1 x hx'
            have hwpos := h.pos w hwm.1
            -- a later descriptor of the allocation would put `w` inside it
            have hne : x.allocBase ≠ base := fun he => hw (by
              have := h.runs v (by simp) w hwm.1 x hxm.1 hwm.2 (by omega) (by rw [hb, he])
              rw [this, hb])
            simpa using hne
    refine key (v :: r) (fun w hw => ⟨mem_append_right _ hw, ?_⟩) (ordered_append.1 h.ordered).2.1
    rcases mem_cons.1 hw with rfl | hw
    · exact le_rfl
    · have := hord.2.2 w hw
      have := h.pos v (by simp)
      omega

end Win98Modern.Kernel64
