import Win98Modern.Kernel64.IpFragment

/-!
# Reassembly

What one fragment does to an entry (`Reasm.Ok`, `Reasm.Ok.write`) and to the table (`Table.Ok`), and
when it delivers a datagram (`delivered_iff`).
-/

namespace Win98Modern.Net

open Function List

open Piece

/-! ### An entry -/

/-- A fragment that is not ignored. -/
structure Accepted (f : Piece Byte) : Prop where
  aligned : 8 ∣ f.off
  data_ne : f.data ≠ []
  whole : f.last = false → 8 ∣ f.fin

theorem accepted_of_not_refused {p : List Byte} {hlen total : Nat}
    (h : ¬Refused (fragmentOf p hlen total)) : Accepted (fragmentOf p hlen total) := by
  obtain ⟨hpart, hne, -⟩ := not_or.1 h |>.imp id not_or.1
  have haligned : 8 ∣ (fragmentOf p hlen total).off := Nat.dvd_mul_left _ _
  refine ⟨haligned, fun h0 => hne (by rw [h0]; rfl), fun hlast => Nat.dvd_add haligned ?_⟩
  exact Nat.dvd_of_mod_eq_zero (not_not.1 fun hm => hpart ⟨hlast, hm⟩)

/-- The entry holds what its pieces say. -/
structure Reasm.Ok (r : Reasm) : Prop where
  accepted : ∀ p ∈ r.pieces, Accepted p
  buf : ∀ i b, image r.pieces i = some b → r.buf i = b
  bitmap : ∀ u, r.bitmap u = true ↔ u ∈ units 8 r.pieces
  count : r.gotUnits = (units 8 r.pieces).card
  total : r.total = extent r.pieces

variable {r : Reasm}

theorem Reasm.Ok.done_iff (h : r.Ok) : r.Done ↔ Complete 8 r.pieces := by
  unfold Reasm.Done Complete
  rw [h.total, h.count]

/-- The loop over the units counts those that were not yet there. -/
theorem foldl_mark (l : List Nat) (b : (Nat → Bool) × Nat) (S : Finset Nat)
    (hb : (∀ u, b.1 u = true ↔ u ∈ S) ∧ b.2 = S.card) :
    (∀ u, (l.foldl mark b).1 u = true ↔ u ∈ l.toFinset ∪ S) ∧
      (l.foldl mark b).2 = (l.toFinset ∪ S).card := by
  induction l generalizing b S with
  | nil => simpa using hb
  | cons v l ih =>
    rw [foldl_cons, toFinset_cons, Finset.insert_union, ← Finset.union_insert]
    apply ih
    unfold mark
    by_cases hv : b.1 v = true
    · rw [if_pos hv, Finset.insert_eq_of_mem ((hb.1 v).1 hv)]
      exact hb
    · rw [if_neg hv, Finset.card_insert_of_notMem fun h => hv ((hb.1 v).2 h), hb.2]
      refine ⟨fun u => ?_, rfl⟩
      rw [Finset.mem_insert]
      show update b.1 v true u = true ↔ _
      by_cases huv : u = v
      · rw [huv, update_self]
        exact iff_of_true rfl (.inl rfl)
      · rw [update_of_ne huv, hb.1 u]
        exact ⟨.inr, fun h => h.resolve_left huv⟩

theorem Reasm.Ok.write (h : r.Ok) {f : Piece Byte} (hf : Accepted f) : (r.write f).Ok := by
  have hmark := foldl_mark (List.range' (f.off / 8) ((f.fin + 7) / 8 - f.off / 8))
    (r.bitmap, r.gotUnits) (units 8 r.pieces) ⟨h.bitmap, h.count⟩
  have hspan : (List.range' (f.off / 8) ((f.fin + 7) / 8 - f.off / 8)).toFinset = span 8 f := by
    ext u
    rw [mem_toFinset, mem_range'_1, mem_span]
    omega
  rw [hspan] at hmark
  constructor
  · intro p hp
    obtain rfl | hp := mem_cons.1 hp
    · exact hf
    · exact h.accepted p hp
  · intro i b hb
    have hcons : image (f :: r.pieces) i = some b := hb
    unfold image at hcons
    rw [List.findSome?_cons] at hcons
    show (if f.off ≤ i ∧ i < f.fin then f.data.getD (i - f.off) 0 else r.buf i) = b
    by_cases hin : f.off ≤ i ∧ i < f.fin
    · rw [if_pos hin]
      obtain ⟨c, hc⟩ := Option.isSome_iff_exists.1 (isSome_get?.2 hin)
      rw [hc] at hcons
      unfold get? at hc
      rw [if_pos hin.1] at hc
      rw [getD_eq_getElem?_getD, hc]
      exact Option.some.inj hcons
    · have hnone : f.get? i = none :=
        Option.not_isSome_iff_eq_none.1 fun hs => hin (isSome_get?.1 hs)
      rw [hnone] at hcons
      rw [if_neg hin]
      exact h.buf i b hcons
  · exact hmark.1
  · exact hmark.2
  · have hext : extent (f :: r.pieces) = if f.last then f.fin else extent r.pieces := by
      unfold extent
      rw [List.find?_cons]
      cases f.last <;> rfl
    show (if f.last then f.fin else r.total) = extent (f :: r.pieces)
    rw [hext, h.total]

theorem fresh_ok (flow : Flow) (deadline : Nat) (junk : Nat → Byte) :
    Reasm.Ok ⟨flow, deadline, junk, 0, 0, fun _ => false, []⟩ :=
  ⟨nofun, nofun, fun u => iff_of_false nofun (Finset.notMem_empty u), rfl, rfl⟩

/-! ### The table -/

/-- The entries hold what their pieces say, are not finished, and are for different datagrams. -/
structure Table.Ok (t : Table) : Prop where
  entry : ∀ i r, t i = some r → r.Ok ∧ ¬Complete 8 r.pieces
  distinct : ∀ i j r r', t i = some r → t j = some r' → r.flow = r'.flow → i = j

theorem empty_ok : Table.Ok fun _ => none := ⟨nofun, nofun⟩

section Table

variable {t : Table} {flow : Flow} {kmalloc : Option (Nat → Byte)} {now : Nat}

variable {i : Fin REASM_N} {r : Reasm} {p : List Byte} {hlen total : Nat}

theorem find_eq_some (h : t.find flow = some i) : ∃ r, t i = some r ∧ r.flow = flow := by
  have hany := List.find?_some h
  simp only [Option.any_eq_true, decide_eq_true_eq] at hany
  obtain ⟨r, hr, hflow⟩ := hany
  exact ⟨r, hr, hflow⟩

theorem find_eq_none (h : t.find flow = none) (hr : t i = some r) : r.flow ≠ flow := by
  intro hflow
  have := List.find?_eq_none.1 h i (mem_finRange i)
  rw [hr] at this
  exact this (decide_eq_true hflow)

theorem pick_free (h : ∃ i, t i = none) : t t.pick = none := by
  obtain ⟨i, hi⟩ := h
  unfold Table.pick
  cases hf : (List.finRange REASM_N).find? fun i => (t i).isNone with
  | some j =>
    have := List.find?_some hf
    simpa using this
  | none =>
    have := List.find?_eq_none.1 hf i (mem_finRange i)
    rw [hi] at this
    exact absurd rfl this

/-- The entry for a fragment is the one of its datagram, or a fresh one where there is none. -/
theorem entryFor_cases (t : Table) (flow : Flow) (kmalloc : Option (Nat → Byte)) (now : Nat) :
    (∃ i r, t i = some r ∧ r.flow = flow ∧ t.entryFor flow kmalloc now = (i, some r)) ∨
      ((∀ i r, t i = some r → r.flow ≠ flow) ∧
        t.entryFor flow kmalloc now = (t.pick, kmalloc.map fun junk =>
          ⟨flow, now + REASM_MS, junk, 0, 0, fun _ => false, []⟩)) := by
  unfold Table.entryFor
  cases hf : t.find flow with
  | some i =>
    obtain ⟨r, hr, hflow⟩ := find_eq_some hf
    exact .inl ⟨i, r, hr, hflow, by simp only [hr]⟩
  | none => exact .inr ⟨fun i r hr => find_eq_none hf hr, rfl⟩

/-- What a fragment does: nothing; its entry cannot be opened, which may evict another; or it is
written to an entry for its datagram, which is then finished or stays in the table. -/
theorem ipFragmentIn_cases (t : Table) (p : List Byte) (hlen total : Nat)
    (kmalloc : Option (Nat → Byte)) (now : Nat) :
    (t.written p hlen total kmalloc now = none ∧
      ((Refused (fragmentOf p hlen total) ∧ t.ipFragmentIn p hlen total kmalloc now = (t, none)) ∨
        ((∀ i r, t i = some r → r.flow ≠ flowOf p) ∧ kmalloc = none ∧
          t.ipFragmentIn p hlen total kmalloc now = (update t t.pick none, none)))) ∨
    ∃ i r, t.entryFor (flowOf p) kmalloc now = (i, some r) ∧ Accepted (fragmentOf p hlen total) ∧
      t.written p hlen total kmalloc now = some (r.write (fragmentOf p hlen total)) ∧
      t.ipFragmentIn p hlen total kmalloc now =
        if (r.write (fragmentOf p hlen total)).Done then
          (update t i none, some (r.write (fragmentOf p hlen total)).datagram)
        else (update t i (some (r.write (fragmentOf p hlen total))), none) := by
  unfold Table.ipFragmentIn Table.written
  by_cases href : Refused (fragmentOf p hlen total)
  · left
    rw [if_pos href, if_pos href]
    exact ⟨rfl, .inl ⟨href, rfl⟩⟩
  · rw [if_neg href, if_neg href]
    obtain ⟨i, r, -, -, he⟩ | ⟨habsent, he⟩ := entryFor_cases t (flowOf p) kmalloc now
    · rw [he]
      exact .inr ⟨i, r, rfl, accepted_of_not_refused href, rfl, rfl⟩
    · rw [he]
      cases kmalloc with
      | none => exact .inl ⟨rfl, .inr ⟨habsent, rfl, rfl⟩⟩
      | some junk => exact .inr ⟨_, _, rfl, accepted_of_not_refused href, rfl, rfl⟩

theorem entryFor_ok (h : t.Ok) (he : t.entryFor flow kmalloc now = (i, some r)) :
    r.Ok ∧ r.flow = flow ∧ ∀ j r', t j = some r' → r'.flow = flow → j = i := by
  obtain ⟨j, r', hr', hflow, he'⟩ | ⟨hnone, he'⟩ := entryFor_cases t flow kmalloc now
  · rw [he'] at he
    obtain ⟨rfl, hrr⟩ := Prod.mk.inj he
    obtain rfl := Option.some.inj hrr
    exact ⟨(h.entry _ _ hr').1, hflow,
      fun k r'' hk hf => h.distinct _ _ _ _ hk hr' (hf.trans hflow.symm)⟩
  · rw [he'] at he
    obtain ⟨rfl, hrr⟩ := Prod.mk.inj he
    obtain ⟨junk, -, rfl⟩ := Option.map_eq_some_iff.1 hrr
    exact ⟨fresh_ok _ _ _, rfl, fun k r'' hk hf => absurd hf (hnone k r'' hk)⟩

theorem Table.Ok.clear (h : t.Ok) (i : Fin REASM_N) : Table.Ok (update t i none) := by
  have hold : ∀ j r, update t i none j = some r → t j = some r := by
    intro j r hj
    by_cases hji : j = i
    · rw [hji, update_self] at hj
      cases hj
    · rwa [update_of_ne hji] at hj
  exact ⟨fun j r hj => h.entry j r (hold j r hj),
    fun j k r r' hj hk => h.distinct j k r r' (hold j r hj) (hold k r' hk)⟩

theorem Table.Ok.put (h : t.Ok) (hr : r.Ok) (hopen : ¬Complete 8 r.pieces)
    (hi : ∀ j r', t j = some r' → r'.flow = r.flow → j = i) :
    Table.Ok (update t i (some r)) := by
  constructor
  · intro j r' hj
    by_cases hji : j = i
    · rw [hji, update_self] at hj
      obtain rfl := Option.some.inj hj
      exact ⟨hr, hopen⟩
    · rw [update_of_ne hji] at hj
      exact h.entry j r' hj
  · intro j k r' r'' hj hk hflow
    by_cases hji : j = i <;> by_cases hki : k = i
    · rw [hji, hki]
    · rw [hji, update_self] at hj
      rw [update_of_ne hki] at hk
      obtain rfl := Option.some.inj hj
      rw [hji, hi k r'' hk hflow.symm]
    · rw [hki, update_self] at hk
      rw [update_of_ne hji] at hj
      obtain rfl := Option.some.inj hk
      rw [hki, hi j r' hj hflow]
    · rw [update_of_ne hji] at hj
      rw [update_of_ne hki] at hk
      exact h.distinct j k r' r'' hj hk hflow

theorem Table.Ok.timers (h : t.Ok) (now : Nat) : (t.timers now).Ok := by
  have hold : ∀ j r, t.timers now j = some r → t j = some r := by
    intro j r hj
    exact (Option.filter_eq_some_iff.1 hj).1
  exact ⟨fun j r hj => h.entry j r (hold j r hj),
    fun j k r r' hj hk => h.distinct j k r r' (hold j r hj) (hold k r' hk)⟩

theorem written_ok (h : t.Ok) (hw : t.written p hlen total kmalloc now = some r) : r.Ok := by
  obtain ⟨hnone, -⟩ | ⟨i, r', he, hacc, hw', -⟩ := ipFragmentIn_cases t p hlen total kmalloc now
  · rw [hnone] at hw
    cases hw
  · rw [hw'] at hw
    obtain rfl := Option.some.inj hw
    exact (entryFor_ok h he).1.write hacc

theorem Table.Ok.fragment (h : t.Ok) (p : List Byte) (hlen total : Nat) :
    (t.ipFragmentIn p hlen total kmalloc now).1.Ok := by
  obtain ⟨-, ⟨-, he⟩ | ⟨-, -, he⟩⟩ | ⟨i, r, he, hacc, -, hin⟩ :=
    ipFragmentIn_cases t p hlen total kmalloc now
  · rw [he]
    exact h
  · rw [he]
    exact h.clear _
  · obtain ⟨hr, hflow, huniq⟩ := entryFor_ok h he
    have hw := hr.write hacc
    rw [hin]
    by_cases hd : (r.write (fragmentOf p hlen total)).Done
    · rw [if_pos hd]
      exact h.clear i
    · rw [if_neg hd]
      refine h.put hw (fun hc => hd (hw.done_iff.2 hc)) fun j r' hj hf => huniq j r' hj ?_
      exact hf.trans hflow

theorem delivered_iff (d : Datagram) : (t.ipFragmentIn p hlen total kmalloc now).2 = some d ↔
      ∃ r, t.written p hlen total kmalloc now = some r ∧ r.Done ∧ r.datagram = d := by
  obtain ⟨hnone, ⟨-, he⟩ | ⟨-, -, he⟩⟩ | ⟨i, r, -, -, hw, hin⟩ :=
    ipFragmentIn_cases t p hlen total kmalloc now
  · rw [hnone, he]
    exact iff_of_false nofun nofun
  · rw [hnone, he]
    exact iff_of_false nofun nofun
  · rw [hin, hw]
    by_cases hd : (r.write (fragmentOf p hlen total)).Done
    · rw [if_pos hd]
      constructor
      · intro h
        exact ⟨_, rfl, hd, Option.some.inj h⟩
      · rintro ⟨r', hr', -, rfl⟩
        rw [← Option.some.inj hr']
    · rw [if_neg hd]
      refine iff_of_false nofun ?_
      rintro ⟨r', hr', hd', -⟩
      exact hd (Option.some.inj hr' ▸ hd')

end Table

end Win98Modern.Net
