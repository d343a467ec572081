import Win98Modern.Trident.DomRange

/-!
# What stands between the cuts

The walk from the start of a range meets the node before which it stops, because the boundaries
are in order (`walk_spec`), and its texts are those of the line between the cuts.  A range within
one comment is the exception: the walk starts behind the node at which it should stop
(`rangeText_iff`).
-/

namespace Win98Modern.Dom

open List Option Range

/-- The nodes of a tree are at different addresses. -/
def Distinct (t : Node) : Prop := (t.tokens.filterMap Tok.addr).Nodup

instance (t : Node) : Decidable (Distinct t) := inferInstanceAs (Decidable (List.Nodup _))

section Walk

variable {t : Node} {p q : Place} {e : Place} {n stop : Option Place} {x y z l : List Tok}

theorem not_ahead (hd : Distinct t) (hp : p.root = t) {a : Tok} (ha : a ∈ p.inner 0) :
    a.addr ≠ some p.node.addr := by
  intro h
  rw [Distinct, ← hp, tokens_root, filterMap_append, rest_some,
    filterMap_cons_some (addr_head p)] at hd
  exact (nodup_cons.mp (nodup_append.mp hd).2.1).1 (mem_filterMap.mpr ⟨a, ha, h⟩)

theorem ahead_nil (hd : Distinct t) (hp : p.root = t) (ha : p.node.addr = q.node.addr)
    (h : rest (some p) = y ++ rest (some q)) : y = [] := by
  cases y with
  | nil => rfl
  | cons a y =>
    rw [rest_some, rest_some, cons_append] at h
    refine absurd ?_ (not_ahead hd hp (a := q.head) ?_)
    · rw [addr_head, ha]
    · rw [(List.cons.inj h).2]
      exact mem_append_right _ mem_cons_self

theorem same_place (hd : Distinct t) (hp : p.root = t) (hq : q.root = t) (ha : p.node.addr = q.node.addr) :
    before p.up = before q.up ∧ rest (some p) = rest (some q) := by
  have h : before p.up ++ rest (some p) = before q.up ++ rest (some q) := by
    rw [← tokens_root, ← tokens_root, hp, hq]
  rcases append_eq_append_iff.mp h with ⟨c, hb, hr⟩ | ⟨c, hb, hr⟩
  · obtain rfl := ahead_nil hd hp ha hr
    exact ⟨by simpa using hb.symm, hr⟩
  · obtain rfl := ahead_nil hd hq ha.symm hr
    exact ⟨by simpa using hb, hr.symm⟩

/-- Where one comes without an opening is not behind a later place. -/
theorem skip_ahead (hx : ∀ t ∈ x, t.addr = none) (h : x ++ rest n = y ++ rest stop) :
    ∃ z, rest n = z ++ rest stop := by
  cases stop with
  | none => exact ⟨rest n, (append_nil _).symm⟩
  | some w =>
    rcases append_eq_append_iff.mp h with ⟨c, -, hc⟩ | ⟨c, hb, hc⟩
    · exact ⟨c, hc⟩
    · cases c with
      | nil => exact ⟨[], hc.symm⟩
      | cons a c =>
        rw [rest_some] at hc
        obtain ⟨rfl, -⟩ := List.cons.inj hc
        have := hx w.head (by rw [hb]; simp)
        simp at this

theorem text_inner (p : Place) (i : Nat) :
    text (p.inner i) = p.own i ++ text (rest ((p.childAt i).or (nextSkip p.node p.up))) := by
  obtain ⟨x, hx, htext⟩ := inner_leads p i
  rw [hx.eq, text_append, htext]

theorem text_rest (p : Place) : text (rest (some p)) = text (p.inner 0) := by
  rw [rest_some]
  obtain ⟨n, up⟩ := p
  cases n <;> rfl

theorem walk_spec (hd : Distinct t) (hn : ∀ m, n = some m → m.root = t)
    (hbreak : ∀ m : Place, m.root = t → m.node.addr = e.node.addr → m.node.isText = true →
      ∃ w, stop = some w ∧ w.node.addr = m.node.addr)
    (hy : rest n = y ++ rest stop) : walk stop e n ++ text (rest stop) = text (rest n) := by
  induction n using walk.induct stop e generalizing y with
  | case1 =>
    have h := (append_eq_nil_iff.mp hy.symm).2
    rw [walk, h]
    rfl
  | case2 m hmet =>
    rw [walk, if_pos hmet]
    cases hs : stop with
    | none =>
      rw [hs] at hmet
      cases hmet
    | some w =>
      rw [hs] at hmet hy
      have ha : w.node.addr = m.node.addr := by simpa using hmet
      rw [ahead_nil hd (hn m rfl) ha.symm hy] at hy
      rw [hy]
      rfl
  | case3 m hmet hend =>
    obtain ⟨w, hw, ha⟩ := hbreak m (hn m rfl) hend.1 hend.2
    exact absurd (by simp [hw, ha]) hmet
  | case4 m hmet hend ih =>
    obtain ⟨x, hx, -⟩ := inner_leads m 0
    have hstep : ∃ z, rest m.next = z ++ rest stop := by
      cases y with
      | nil =>
        exfalso
        cases hs : stop with
        | none =>
          rw [hs, rest_some] at hy
          cases hy
        | some w =>
          rw [hs] at hy hmet
          have hhead := congrArg List.head? hy
          rw [nil_append, rest_some, rest_some, List.head?_cons, List.head?_cons] at hhead
          have ha := congrArg Tok.addr (some.inj hhead)
          rw [addr_head, addr_head] at ha
          exact hmet (by simpa using (some.inj ha).symm)
      | cons a y =>
        rw [rest_some, hx.eq, cons_append] at hy
        exact skip_ahead hx.skips (List.cons.inj hy).2
    obtain ⟨z, hz⟩ := hstep
    rw [walk, if_neg hmet, if_neg hend, append_assoc, ih (fun k hk => ?_) hz, text_rest, text_inner]
    · rfl
    · exact (hx.root k hk).trans (hn m rfl)

theorem walk_unmet (hn : ∀ tok ∈ rest n, tok.addr ≠ some e.node.addr) :
    walk (some e) e n = text (rest n) := by
  induction n using walk.induct (some e) e with
  | case1 => simp [walk, rest, text]
  | case2 m hmet =>
    have ha : e.node.addr = m.node.addr := by simpa using hmet
    refine absurd ?_ (hn m.head (by simp [rest_some]))
    rw [addr_head, ha]
  | case3 m hmet hend => exact absurd (by simp [hend.1]) hmet
  | case4 m hmet hend ih =>
    obtain ⟨x, hx, -⟩ := inner_leads m 0
    rw [walk, if_neg hmet, if_neg hend, ih (fun k hk => hn k ?_), text_rest, text_inner]
    · rfl
    · rw [rest_some, hx.eq]
      exact mem_cons_of_mem _ (mem_append_right _ hk)

end Walk

section Order

variable {t : Node} {p q : Place}

theorem same_node (hd : Distinct t) (hp : p.root = t) (hq : q.root = t) (ha : p.node.addr = q.node.addr) :
    p.node.isChardata = q.node.isChardata ∧ (p.node.isChardata = true → p.node = q.node ∧ after p.up = after q.up) := by
  have h := (same_place hd hp hq ha).2
  have hhead : p.head = q.head := by
    rw [rest_some, rest_some] at h
    exact (List.cons.inj h).1
  obtain ⟨n, up⟩ := p
  obtain ⟨n', up'⟩ := q
  cases n <;> cases n' <;> simp_all [Place.head, Node.isChardata, rest]

theorem exists_chardata {n : Node} (h : n.isChardata = true) : ∃ a k d, n = .chardata a k d := by
  cases n with
  | chardata a k d => exact ⟨a, k, d, rfl⟩
  | branch a ks => cases h

/-- The openings and closings of a piece of the line. -/
def marks (l : List Tok) : List (Option Nat) := l.filterMap fun
  | .opn a _ => some (some a)
  | .close => some none
  | .char _ _ => none

theorem marks_append (a b : List Tok) : marks (a ++ b) = marks a ++ marks b := filterMap_append ..

theorem marks_head (p : Place) (l : List Tok) : marks (p.head :: l) = some p.node.addr :: marks l := by
  obtain ⟨n, up⟩ := p
  cases n <;> rfl

theorem line_last (ks : List Node) : ks = [] ∨ ∃ l, line ks = l ++ [.close] := by
  induction ks with
  | nil => exact .inl rfl
  | cons k ks ih =>
    refine .inr ?_
    rcases ih with rfl | ⟨l, hl⟩
    · cases k with
      | chardata a k d => exact ⟨.opn a (some (k, d)) :: d.map (.char k.isText), by simp [line, Node.tokens]⟩
      | branch a ks => exact ⟨.opn a none :: line ks, by simp [line, Node.tokens]⟩
    · exact ⟨k.tokens ++ l, by rw [line, hl, append_assoc]⟩

theorem take_tokens (p : Place) (i : Nat) : p.root.tokens.take ((before p.up).length + 1 + i) =
    before p.up ++ p.head :: (p.inner 0).take i := by
  rw [tokens_root, rest_some, Nat.add_assoc, take_length_add_append, Nat.add_comm 1, take_succ_cons]

theorem last_mark (hc : p.node.isChardata = true) {i : Nat} (hi : i ≤ p.node.length) :
    (marks (p.root.tokens.take ((before p.up).length + 1 + i))).getLast? = some (some p.node.addr) := by
  rw [take_tokens, marks_append, marks_head]
  obtain ⟨n, up⟩ := p
  cases n with
  | branch a ks => cases hc
  | chardata a k d =>
    have hchars : marks ((d.map (.char k.isText)).take i) = [] := by
      rw [marks, filterMap_eq_nil_iff]
      intro tok htok
      obtain ⟨c, -, rfl⟩ := mem_map.mp (mem_of_mem_take htok)
      rfl
    have hle : i ≤ (d.map (Tok.char k.isText)).length := by simpa [Node.length] using hi
    simp [Place.inner, take_append_of_le_length hle, hchars]

theorem cut_mark (p : Place) {i : Nat} (hi : i ≤ p.node.length) :
    (marks (p.root.tokens.take (p.cut i))).getLast? = some (some p.node.addr) ∨
      (marks (p.root.tokens.take (p.cut i))).getLast? = some none := by
  cases hc : p.node.isChardata with
  | true =>
    refine .inl ?_
    have h := last_mark hc hi
    obtain ⟨n, up⟩ := p
    cases n with
    | branch a ks => cases hc
    | chardata a k d => exact h
  | false =>
    obtain ⟨n, up⟩ := p
    cases n with
    | chardata a k d => cases hc
    | branch a ks =>
      have htake : (line ks).take (line (ks.take i)).length = line (ks.take i) := by
        rw [← take_append_drop i ks, line_append, take_append_drop, take_left']
        rfl
      have hle : (line (ks.take i)).length ≤ (line ks).length := by
        rw [← htake]
        simp
      have hcut : (Place.inner ⟨.branch a ks, up⟩ 0).take (line (ks.take i)).length = line (ks.take i) := by
        simp only [Place.inner, drop_zero]
        rw [take_append_of_le_length hle, htake]
      rw [Place.cut, take_tokens, marks_append, marks_head, hcut]
      rcases line_last (ks.take i) with h | ⟨l, hl⟩
      · rw [h]
        exact .inl (by simp [line, marks])
      · rw [hl, marks_append]
        refine .inr ?_
        rw [← cons_append, ← append_assoc]
        exact List.getLast?_concat

end Order

section Range

variable {t : Node} {r : Range t}

theorem childAt_none {p : Place} {i : Nat} (hi : ¬i < p.node.kids.length) : p.childAt i = none := by
  rw [Place.childAt, List.getElem?_eq_none (Nat.not_lt.mp hi), map_none]

theorem childAt_or {p : Place} (i : Nat) : (p.childAt i).or (nextSkip p.node p.up) =
    if i < p.node.kids.length then p.childAt i else nextSkip p.node p.up := by
  split
  case isTrue hi => simp [Place.childAt, hi]
  case isFalse hi => rw [childAt_none hi, none_or]

theorem first_eq : r.first = (r.start.childAt r.startOff).or (nextSkip r.start.node r.start.up) := by
  rw [childAt_or, first]
  split
  case isTrue h =>
    have hkids : r.start.node.kids = [] := by
      rcases h with h | h
      · cases hn : r.start.node with
        | chardata a k d => rfl
        | branch a ks =>
          rw [hn] at h
          cases h
      · exact h
    rw [hkids]
    rfl
  case isFalse => rfl

theorem drop_start (r : Range t) : t.tokens.drop (r.start.cut r.startOff) = r.start.inner r.startOff := by
  have h := drop_cut r.start r.start_le
  rwa [r.start_root] at h

theorem drop_stop (r : Range t) : t.tokens.drop (r.stop.cut r.stopOff) = r.stop.inner r.stopOff := by
  have h := drop_cut r.stop r.stop_le
  rwa [r.stop_root] at h

/-- What the two cuts leave differs by the selected text. -/
theorem selected_append (r : Range t) :
    r.selected ++ text (r.stop.inner r.stopOff) = text (r.start.inner r.startOff) := by
  have hle := r.order
  rw [selected, ← text_append, ← drop_start, ← drop_stop]
  conv_rhs => rw [← take_append_drop (r.stop.cut r.stopOff) t.tokens]
  rw [drop_append, length_take]
  by_cases hlen : r.stop.cut r.stopOff ≤ t.tokens.length
  · rw [Nat.min_eq_left hlen, Nat.sub_eq_zero_of_le hle, drop_zero]
  · rw [drop_eq_nil_of_le (Nat.le_of_not_le hlen), drop_nil]

theorem end_ahead (hc : r.stop.node.isChardata = true) (hne : r.start.node.addr ≠ r.stop.node.addr) :
    ∃ u, r.start.inner r.startOff = u ++ rest (some r.stop) := by
  have hcut : r.stop.cut r.stopOff = (before r.stop.up).length + 1 + r.stopOff := by
    obtain ⟨a, k, d, hn⟩ := exists_chardata hc
    rw [Place.cut, hn]
  have horder := r.order
  by_cases hle : r.start.cut r.startOff ≤ (before r.stop.up).length
  · refine ⟨(before r.stop.up).drop (r.start.cut r.startOff), ?_⟩
    have he := tokens_root r.stop
    rw [r.stop_root] at he
    rw [← drop_start, he, drop_append_of_le_length hle]
  · -- otherwise the start would lie among the characters of the end
    exfalso
    obtain ⟨i, hi⟩ := Nat.exists_eq_add_of_lt (Nat.not_le.mp hle)
    have hi : r.start.cut r.startOff = (before r.stop.up).length + 1 + i := by omega
    have hend := last_mark hc (i := i) (by have := r.stop_le; omega)
    have hstart := cut_mark r.start r.start_le
    rw [r.start_root, hi] at hstart
    rw [r.stop_root] at hend
    rw [hend] at hstart
    rcases hstart with h | h
    · exact hne (some.inj (some.inj h)).symm
    · cases h

theorem text_chardata {p : Place} {a : Nat} {k : CharKind} {d : List UInt16} (h : p.node = .chardata a k d)
    (i : Nat) : text (p.inner i) = (if k.isText then d.drop i else []) ++ text (after p.up) := by
  obtain ⟨n, up⟩ := p
  obtain rfl : n = _ := h
  rw [Place.inner, text_append, text_chars]
  rfl

theorem chardata_of_text {n : Node} (h : n.isText = true) : n.isChardata = true := by
  cases n with
  | chardata a k d => rfl
  | branch a ks => cases h

theorem rangeText_apart (hd : Distinct t) (r : Range t)
    (hne : r.stop.node.isChardata = true → r.start.node.addr ≠ r.stop.node.addr) :
    r.shzRangeText = r.selected := by
  have htest : ¬(r.start.node.addr = r.stop.node.addr ∧ r.start.node.isText = true) := by
    rintro ⟨ha, ht⟩
    refine hne ?_ ha
    rw [← (same_node hd r.start_root r.stop_root ha).1]
    exact chardata_of_text ht
  obtain ⟨x, hx, -⟩ := inner_leads r.start r.startOff
  rw [← first_eq] at hx
  have hfirst : ∀ m, r.first = some m → m.root = t := fun m hm => (hx.root m hm).trans r.start_root
  refine append_cancel_right (Eq.trans ?_ (selected_append r).symm)
  rw [text_inner r.start, ← first_eq, shzRangeText, if_neg htest]
  cases hc : r.stop.node.isChardata with
  | true =>
    obtain ⟨u, hu⟩ := end_ahead hc (hne hc)
    have hsplit : x ++ rest r.first = u ++ rest (some r.stop) := hx.eq.symm.trans hu
    obtain ⟨z, hz⟩ := skip_ahead hx.skips hsplit
    have hlimit : r.limit = some r.stop := by rw [limit, if_pos hc]
    have hwalk := walk_spec (e := r.stop) hd hfirst (fun m _ ha _ => ⟨r.stop, rfl, ha.symm⟩) hz
    have hend : text (rest (some r.stop)) =
        (if r.stop.node.isText ∧ r.stop.node.addr ≠ r.start.node.addr then r.stop.node.data.take r.stopOff
          else []) ++ text (r.stop.inner r.stopOff) := by
      obtain ⟨a, k, d, hn⟩ := exists_chardata hc
      have hadd : r.stop.node.addr ≠ r.start.node.addr := (hne hc).symm
      rw [text_rest, text_chardata hn, text_chardata hn, ← append_assoc]
      have htext : r.stop.node.isText = k.isText := by rw [hn]; rfl
      have hdata : r.stop.node.data = d := by rw [hn]; rfl
      cases ht : k.isText <;> simp [htext, hdata, ht, hadd]
    rw [hend] at hwalk
    rw [hlimit, append_assoc, append_assoc, hwalk]
    rfl
  | false =>
    have hlimit : r.limit = (r.stop.childAt r.stopOff).or (nextSkip r.stop.node r.stop.up) := by
      rw [limit, childAt_or, hc]
      rfl
    have htext : r.stop.node.isText = false := by
      cases ht : r.stop.node.isText with
      | false => rfl
      | true => exact absurd (chardata_of_text ht) (by rw [hc]; exact Bool.false_ne_true)
    obtain ⟨y, hy, -⟩ := inner_leads r.stop r.stopOff
    rw [← hlimit] at hy
    have hahead : ∃ u, r.start.inner r.startOff = u ++ r.stop.inner r.stopOff := by
      refine ⟨(t.tokens.drop (r.start.cut r.startOff)).take (r.stop.cut r.stopOff - r.start.cut r.startOff), ?_⟩
      conv_lhs => rw [← drop_start, ← take_append_drop (r.stop.cut r.stopOff - r.start.cut r.startOff)
        (t.tokens.drop (r.start.cut r.startOff))]
      rw [drop_drop, Nat.add_sub_of_le r.order, drop_stop]
    obtain ⟨u, hu⟩ := hahead
    rw [hx.eq, hy.eq, ← append_assoc] at hu
    obtain ⟨z, hz⟩ := skip_ahead hx.skips hu
    have hbreak : ∀ m : Place, m.root = t → m.node.addr = r.stop.node.addr → m.node.isText = true →
        ∃ w, r.limit = some w ∧ w.node.addr = m.node.addr := by
      intro m hm ha ht
      have hmc := chardata_of_text ht
      rw [(same_node hd hm r.stop_root ha).1, hc] at hmc
      cases hmc
    have hwalk := walk_spec (e := r.stop) hd hfirst hbreak hz
    have hown : r.stop.own r.stopOff = [] := by rw [Place.own, if_neg (by rw [htext]; exact Bool.false_ne_true)]
    have hlast : ¬(r.stop.node.isText = true ∧ r.stop.node.addr ≠ r.start.node.addr) := by
      rw [htext]
      exact fun h => Bool.false_ne_true h.1
    rw [text_inner r.stop, ← hlimit, hown, if_neg hlast, append_nil, nil_append,
      append_assoc, hwalk]
    rfl

/-- **The text of a range is what stands between its boundaries**, unless both lie in one comment
or processing instruction and a text follows in the tree: then the code returns all that follows. -/
theorem rangeText_iff (hd : Distinct t) (r : Range t) : r.shzRangeText = r.selected ↔
    ¬(r.start.node.addr = r.stop.node.addr ∧ r.start.node.isChardata = true ∧
      r.start.node.isText = false ∧ text (after r.start.up) ≠ []) := by
  by_cases hin : r.start.node.addr = r.stop.node.addr ∧ r.start.node.isChardata = true
  case neg =>
    refine iff_of_true (rangeText_apart hd r fun hc ha => hin ⟨ha, ?_⟩) fun h => hin ⟨h.1, h.2.1⟩
    rw [(same_node hd r.start_root r.stop_root ha).1]
    exact hc
  obtain ⟨ha, hc⟩ := hin
  obtain ⟨hnode, hafter⟩ := (same_node hd r.start_root r.stop_root ha).2 hc
  have hbefore := (same_place hd r.start_root r.stop_root ha).1
  obtain ⟨a, k, d, hn⟩ := exists_chardata hc
  have hsel := selected_append r
  rw [text_chardata hn, text_chardata (hnode.symm.trans hn), ← hafter, ← append_assoc] at hsel
  have hsel := append_cancel_right hsel
  have horder : r.startOff ≤ r.stopOff := by
    have h := r.order
    rw [Place.cut, Place.cut, ← hnode, hn, hbefore] at h
    exact Nat.le_of_add_le_add_left h
  have htext : r.start.node.isText = k.isText := by rw [hn]; rfl
  have hdata : r.start.node.data = d := by rw [hn]; rfl
  cases ht : k.isText with
  | true =>
    rw [ht] at htext hsel
    refine iff_of_true ?_ fun h => Bool.false_ne_true (h.2.2.1.symm.trans htext)
    refine append_cancel_right (Eq.trans ?_ hsel.symm)
    rw [shzRangeText, if_pos ⟨ha, htext⟩, hdata, if_pos rfl, if_pos rfl]
    split
    case isTrue hlt =>
      conv_rhs => rw [← take_append_drop (r.stopOff - r.startOff) (d.drop r.startOff)]
      rw [drop_drop, Nat.add_sub_of_le horder]
    case isFalse hge => rw [Nat.le_antisymm horder (Nat.not_lt.mp hge), nil_append]
  | false =>
    rw [ht] at htext hsel
    have hnil : r.selected = [] := by simpa using hsel
    have hfirst : r.first = r.start.next := by
      have hkids : ∀ i, r.start.childAt i = none := fun i => childAt_none (by rw [hn]; exact Nat.not_lt_zero i)
      rw [first_eq, Place.next, hkids, hkids]
    obtain ⟨x, hx, -⟩ := inner_leads r.start 0
    have hwalk : walk (some r.stop) r.stop r.first = text (rest r.first) := by
      refine walk_unmet fun tok htok => ?_
      rw [← ha]
      rw [hfirst] at htok
      exact not_ahead hd r.start_root (hx.eq ▸ mem_append_right x htok)
    have hrest : text (rest r.first) = text (after r.start.up) := by
      have h := (text_inner r.start 0).symm.trans (text_chardata hn 0)
      rw [Place.own, htext, ht] at h
      rw [hfirst]
      exact h
    have htest : ∀ P : Prop, ¬(P ∧ r.start.node.isText = true) := by
      rw [htext]
      exact fun P h => Bool.false_ne_true h.2
    have hcode : r.shzRangeText = text (after r.start.up) := by
      rw [shzRangeText, if_neg (htest _), limit, ← hnode, if_pos hc, hwalk, hrest, htext]
      simp
    rw [hcode, hnil]
    simp [ha, hc, htext]

def commentDoc : Node := .branch 0 [.chardata 1 .comment [], .chardata 2 .text [120]]

/-- The empty range within the comment. -/
def inComment : Range commentDoc where
  start := ⟨.chardata 1 .comment [], [⟨0, [], [.chardata 2 .text [120]]⟩]⟩
  startOff := 0
  stop := ⟨.chardata 1 .comment [], [⟨0, [], [.chardata 2 .text [120]]⟩]⟩
  stopOff := 0
  start_root := rfl
  stop_root := rfl
  start_le := Nat.le_refl 0
  stop_le := Nat.le_refl 0
  order := Nat.le_refl _

theorem inComment_overruns : Distinct commentDoc ∧ inComment.shzRangeText ≠ inComment.selected := by
  refine ⟨by decide, ?_⟩
  have hcode : inComment.shzRangeText = [120] := by
    simp [shzRangeText, first, limit, inComment, walk, nextSkip, Place.next, Place.childAt,
      Node.isChardata, Node.isText, Node.addr, Node.kids, Node.data, CharKind.isText]
  rw [hcode]
  decide

/-- From within the comment to the end of the text. -/
def behindComment : Range commentDoc where
  start := inComment.start
  startOff := 0
  stop := ⟨.chardata 2 .text [120], [⟨0, [.chardata 1 .comment []], []⟩]⟩
  stopOff := 1
  start_root := rfl
  stop_root := rfl
  start_le := Nat.le_refl 0
  stop_le := Nat.le_refl 1
  order := by decide

theorem rangeText_iff_sample : behindComment.shzRangeText = behindComment.selected ∧ behindComment.selected = [120] :=
  ⟨(rangeText_iff (by decide) behindComment).2 fun h => absurd h.1 (by decide), by decide⟩

end Range

end Win98Modern.Dom
