import Win98Modern.Kernel64.IpReassembly
import Win98Modern.Kernel64.IpPackets
import Win98Modern.Lib.Runs

/-!
# Datagrams through fragmentation and reassembly

Fragments of at most `REASM_N` datagrams, in any order, repeated and lost, give the payloads back
(`Carries`).  A run of arbitrary fragments delivers whole datagrams exactly if no finished reassembly
has a fragment that contradicts its length (`reassembly`).
-/

namespace Win98Modern.Net

open Function List Option

open Piece

/-! ### Fragments of given datagrams -/

theorem pieceOf_pieceAt {s : List Byte} {o n : Nat} (hn : 0 < n) (hle : o + n ≤ s.length) :
    PieceOf s (pieceAt s o n) := by
  have hlen : ((s.drop o).take n).length = n := by
    rw [length_take, length_drop]
    omega
  refine ⟨fun h0 => ?_, ?_, ?_, ?_⟩
  · have h0' : (s.drop o).take n = [] := h0
    rw [h0'] at hlen
    exact absurd hlen (Nat.ne_of_lt hn)
  · show (s.drop o).take n = (s.drop o).take ((s.drop o).take n).length
    rw [hlen]
  · show o + ((s.drop o).take n).length ≤ s.length
    rwa [hlen]
  · show decide (o + n = s.length) = true ↔ o + ((s.drop o).take n).length = s.length
    rw [hlen, decide_eq_true_eq]

/-- The packet is a packet of `d`, as `ip_input` passes it on. -/
def Arrival.Of (d : Sending) (a : Arrival) : Prop :=
  ∃ q ∈ d.output.packets, ∃ pad, a.packet = q ++ pad ∧ a.hlen = ihl a.packet ∧
    a.total = totalLength a.packet

/-- The fragment that `act` brings, with its datagram, if a buffer can be had for it. -/
def NetAct.brings : NetAct → Option (Flow × Piece Byte)
  | .fragment a (some _) _ => some (flowOf a.packet, fragmentOf a.packet a.hlen a.total)
  | _ => none

/-- The acts of the run are fragments of the datagrams `d`, and timers. -/
def OnlyFrom {n : Nat} (d : Fin n → Sending) : NetAct → Prop
  | .fragment a _ _ => ∃ k, a.Of (d k)
  | .timers _ => True

/-- The act is less than `REASM_MS` after `t0`. -/
def InTime (t0 : Nat) : NetAct → Prop
  | .fragment _ _ now => t0 ≤ now
  | .timers now => now < t0 + REASM_MS

theorem Arrival.Of.piece {d : Sending} (hd : d.Valid) {a : Arrival} (ha : a.Of d) :
    flowOf a.packet = d.flow ∧ PieceOf d.payload (fragmentOf a.packet a.hlen a.total) ∧
      ¬Refused (fragmentOf a.packet a.hlen a.total) := by
  obtain ⟨q, hq, pad, hp, hhlen, htotal⟩ := ha
  obtain ⟨o, n, hread⟩ := (Sending.reads hd).1 q hq
  have hpiece : fragmentOf a.packet a.hlen a.total = pieceAt d.payload o n := by
    rw [hhlen, htotal, hp]
    exact hread.piece pad
  have hlen : ((d.payload.drop o).take n).length = n := by
    rw [length_take, length_drop]
    have := hread.le
    omega
  rw [hpiece]
  refine ⟨by rw [hp]; exact hread.flow pad, pieceOf_pieceAt hread.pos hread.le, ?_⟩
  rintro (⟨hlast, hpart⟩ | hempty | hfar)
  · have hmore : ¬o + n = d.payload.length := of_decide_eq_false hlast
    have hdvd := hread.part (by have := hread.le; omega)
    have hpart' : ((d.payload.drop o).take n).length % 8 ≠ 0 := hpart
    rw [hlen] at hpart'
    exact hpart' (Nat.mod_eq_zero_of_dvd hdvd)
  · have hempty' : ((d.payload.drop o).take n).length = 0 := hempty
    exact absurd hread.pos (by omega)
  · have hfar' : o + ((d.payload.drop o).take n).length > 65528 := hfar
    have hle := hread.le
    have hmax : d.payload.length + 20 ≤ 65535 := hd.le
    omega

section Carries

variable {n : Nat} {d : Fin n → Sending} {s : Stack} {past : List NetAct} {t0 : Nat}

/-- The entries are for the datagrams `d` and hold parts of their payloads; only these datagrams were
delivered. -/
structure Carries (d : Fin n → Sending) (s : Stack) : Prop where
  ok : s.reasm.Ok
  parts : ∀ i r, s.reasm i = some r →
    ∃ k, r.flow = (d k).flow ∧ ∀ p ∈ r.pieces, PieceOf (d k).payload p
  sound : ∀ x ∈ s.delivered, ∃ k, x = (d k).datagram

/-- Until a datagram is delivered, its entry has all its fragments that arrived. -/
structure Gathers (d : Fin n → Sending) (t0 : Nat) (past : List NetAct) (s : Stack) : Prop where
  kept : ∀ k, (d k).datagram ∈ s.delivered ∨
    ∀ act ∈ past, ∀ f, act.brings = some ((d k).flow, f) →
      ∃ i r, s.reasm i = some r ∧ r.flow = (d k).flow ∧ f ∈ r.pieces
  late : ∀ i r, s.reasm i = some r → t0 + REASM_MS ≤ r.deadline

theorem free_of_absent (h : Carries d s) (hn : n ≤ REASM_N) {k : Fin n}
    (habsent : ∀ i r, s.reasm i = some r → r.flow ≠ (d k).flow) : ∃ i, s.reasm i = none := by
  by_contra hfull
  have hused : ∀ i, ∃ m r, s.reasm i = some r ∧ r.flow = (d m).flow := by
    intro i
    obtain ⟨r, hr⟩ := ne_none_iff_exists'.1 fun h0 => hfull ⟨i, h0⟩
    obtain ⟨m, hm, -⟩ := h.parts i r hr
    exact ⟨m, r, hr, hm⟩
  choose φ hφ using hused
  have hinj : Function.Injective φ := by
    intro i j hij
    obtain ⟨r, hr, hflow⟩ := hφ i
    obtain ⟨r', hr', hflow'⟩ := hφ j
    exact h.ok.distinct i j r r' hr hr' (by rw [hflow, hflow', hij])
  have hcard : Fintype.card (Fin REASM_N) = Fintype.card (Fin n) := by
    apply Nat.le_antisymm (Fintype.card_le_of_injective φ hinj)
    rwa [Fintype.card_fin, Fintype.card_fin]
  obtain ⟨i, hi⟩ := ((Fintype.bijective_iff_injective_and_card φ).2 ⟨hinj, hcard⟩).2 k
  obtain ⟨r, hr, hflow⟩ := hφ i
  exact habsent i r hr (by rw [hflow, hi])

theorem entryFor_own (h : Carries d s) (hn : n ≤ REASM_N) {k : Fin n} {kmalloc : Option (Nat → Byte)}
    {now : Nat} {i : Fin REASM_N} {r : Reasm}
    (he : s.reasm.entryFor (d k).flow kmalloc now = (i, some r)) :
    (s.reasm i = some r ∨ s.reasm i = none ∧ r.pieces = [] ∧ r.deadline = now + REASM_MS) ∧
      r.flow = (d k).flow := by
  obtain ⟨j, r', hr', hflow, he'⟩ | ⟨habsent, he'⟩ := entryFor_cases s.reasm (d k).flow kmalloc now
  · rw [he'] at he
    obtain ⟨rfl, hrr⟩ := Prod.mk.inj he
    obtain rfl := some.inj hrr
    exact ⟨.inl hr', hflow⟩
  · rw [he'] at he
    obtain ⟨rfl, hrr⟩ := Prod.mk.inj he
    obtain ⟨junk, -, rfl⟩ := map_eq_some_iff.1 hrr
    exact ⟨.inr ⟨pick_free (free_of_absent h hn habsent), rfl, rfl⟩, rfl⟩

/-- A finished entry is the datagram it is for. -/
theorem datagram_eq {r : Reasm} {k : Fin n} (hr : r.Ok) (hflow : r.flow = (d k).flow)
    (hparts : ∀ p ∈ r.pieces, PieceOf (d k).payload p) (hdone : r.Done) :
    r.datagram = (d k).datagram := by
  obtain ⟨hext, himage⟩ := PieceOf.image_eq (by decide : 0 < 8) hparts
    (fun p hp => (hr.accepted p hp).aligned) (fun p hp => (hr.accepted p hp).whole)
    (hr.done_iff.1 hdone)
  have hbytes : (List.range r.total).map r.buf = (d k).payload := by
    rw [hr.total, hext]
    apply ext_getElem
    · rw [length_map, length_range]
    · intro i hi hi'
      rw [getElem_map, getElem_range]
      exact hr.buf i _ ((himage i hi').trans (List.getElem?_eq_getElem hi'))
  unfold Reasm.datagram
  rw [hflow, hbytes]
  rfl

end Carries
section Run

variable {n : Nat} {d : Fin n → Sending} {s : Stack} {past : List NetAct} {t0 : Nat}

theorem written_parts (h : Carries d s) (hinj : Function.Injective fun k => (d k).flow) {k : Fin n}
    {a : Arrival} (hd : (d k).Valid) (ha : a.Of (d k)) {kmalloc : Option (Nat → Byte)} {now : Nat}
    {i : Fin REASM_N} {r : Reasm} (he : s.reasm.entryFor (flowOf a.packet) kmalloc now = (i, some r)) :
    r.flow = (d k).flow ∧ ∀ p ∈ (r.write (fragmentOf a.packet a.hlen a.total)).pieces,
      PieceOf (d k).payload p := by
  obtain ⟨hflow, hpiece, -⟩ := ha.piece hd
  have hr : r.flow = (d k).flow ∧ ∀ p ∈ r.pieces, PieceOf (d k).payload p := by
    obtain ⟨j, r', hr', hflow', he'⟩ | ⟨-, he'⟩ :=
      entryFor_cases s.reasm (flowOf a.packet) kmalloc now
    · rw [he'] at he
      obtain ⟨rfl, hrr⟩ := Prod.mk.inj he
      obtain rfl := some.inj hrr
      obtain ⟨m, hm, hparts⟩ := h.parts _ _ hr'
      have hmk : m = k := hinj (hm.symm.trans (hflow'.trans hflow))
      rw [hmk] at hm hparts
      exact ⟨hm, hparts⟩
    · rw [he'] at he
      obtain ⟨rfl, hrr⟩ := Prod.mk.inj he
      obtain ⟨junk, -, rfl⟩ := map_eq_some_iff.1 hrr
      exact ⟨hflow, nofun⟩
  refine ⟨hr.1, fun p hp => ?_⟩
  obtain rfl | hp := mem_cons.1 hp
  · exact hpiece
  · exact hr.2 p hp

theorem Carries.clear (h : Carries d s) (i : Fin REASM_N) {xs : List Datagram}
    (hxs : ∀ x ∈ xs, ∃ k, x = (d k).datagram) : Carries d ⟨update s.reasm i none, xs⟩ := by
  refine ⟨h.ok.clear i, fun j r hj => ?_, hxs⟩
  by_cases hji : j = i
  · have hj' : update s.reasm i none j = some r := hj
    rw [hji, update_self] at hj'
    cases hj'
  · exact h.parts j r ((update_of_ne hji none s.reasm).symm.trans hj)

/-- One step keeps the entries parts of the datagrams, and what it delivers is one of them. -/
theorem carries_step (hinj : Function.Injective fun k => (d k).flow) (hd : ∀ k, (d k).Valid)
    (h : Carries d s) {act : NetAct} (hact : OnlyFrom d act) : Carries d (step s act) := by
  cases act with
  | timers now =>
    exact ⟨h.ok.timers now, fun i r hr => h.parts i r (filter_eq_some_iff.1 hr).1, h.sound⟩
  | fragment a kmalloc now =>
    obtain ⟨k, ha⟩ := hact
    have hstep : step s (.fragment a kmalloc now) =
        ⟨(s.reasm.ipFragmentIn a.packet a.hlen a.total kmalloc now).1,
          (s.reasm.ipFragmentIn a.packet a.hlen a.total kmalloc now).2.toList ++ s.delivered⟩ := rfl
    have hok : (s.reasm.ipFragmentIn a.packet a.hlen a.total kmalloc now).1.Ok :=
      h.ok.fragment a.packet a.hlen a.total
    rw [hstep]
    obtain ⟨-, ⟨-, he⟩ | ⟨-, -, he⟩⟩ | ⟨i, r, he, hacc, -, hin⟩ :=
      ipFragmentIn_cases s.reasm a.packet a.hlen a.total kmalloc now
    · rw [he]
      exact h
    · rw [he]
      exact h.clear _ h.sound
    · obtain ⟨hflow, hparts⟩ := written_parts h hinj (hd k) ha he
      have hw := (entryFor_ok h.ok he).1.write hacc
      rw [hin] at hok ⊢
      by_cases hdone : (r.write (fragmentOf a.packet a.hlen a.total)).Done
      · rw [if_pos hdone]
        refine h.clear i fun x hx => ?_
        obtain rfl | hx := mem_cons.1 hx
        · exact ⟨k, datagram_eq hw hflow hparts hdone⟩
        · exact h.sound x hx
      · rw [if_neg hdone] at hok ⊢
        refine ⟨hok, fun j r' hj => ?_, h.sound⟩
        by_cases hji : j = i
        · have hj' : update s.reasm i _ j = some r' := hj
          rw [hji, update_self] at hj'
          obtain rfl := some.inj hj'
          exact ⟨k, hflow, hparts⟩
        · exact h.parts j r' ((update_of_ne hji _ s.reasm).symm.trans hj)

theorem Gathers.quiet (hg : Gathers d t0 past s) {act : NetAct} (hb : act.brings = none) :
    Gathers d t0 (past ++ [act]) s := by
  refine ⟨fun k => (hg.kept k).imp id fun hkept b hm f hf => ?_, hg.late⟩
  obtain hm | hm := mem_append.1 hm
  · exact hkept b hm f hf
  · rw [mem_singleton.1 hm, hb] at hf
    cases hf

/-- The entry of `k` is another one, and those of the other datagrams are where they were. -/
theorem Gathers.put (hg : Gathers d t0 past s) {k : Fin n} {act : NetAct}
    (hact : ∀ m ≠ k, ∀ f, act.brings ≠ some ((d m).flow, f)) {i : Fin REASM_N}
    (hothers : ∀ m ≠ k, ∀ j r, s.reasm j = some r → r.flow = (d m).flow → j ≠ i) {o : Option Reasm}
    (hlate : ∀ r, o = some r → t0 + REASM_MS ≤ r.deadline) {xs : List Datagram} (hxs : s.delivered ⊆ xs)
    (hown : (d k).datagram ∈ xs ∨ ∀ b ∈ past ++ [act], ∀ f, b.brings = some ((d k).flow, f) →
      ∃ r, o = some r ∧ r.flow = (d k).flow ∧ f ∈ r.pieces) :
    Gathers d t0 (past ++ [act]) ⟨update s.reasm i o, xs⟩ := by
  refine ⟨fun m => ?_, fun j r hj => ?_⟩
  · by_cases hmk : m = k
    · rw [hmk]
      refine hown.imp id fun hkept b hm f hf => ?_
      obtain ⟨r, hr, hrest⟩ := hkept b hm f hf
      exact ⟨i, r, (update_self ..).trans hr, hrest⟩
    · refine (hg.kept m).imp (hxs ·) fun hkept b hm f hf => ?_
      obtain hm | hm := mem_append.1 hm
      · obtain ⟨j, r, hj, hf', hmem⟩ := hkept b hm f hf
        exact ⟨j, r, (update_of_ne (hothers m hmk j r hj hf') _ _).trans hj, hf', hmem⟩
      · rw [mem_singleton.1 hm] at hf
        exact absurd hf (hact m hmk f)
  · by_cases hji : j = i
    · subst hji
      exact hlate r ((update_self j o s.reasm).symm.trans hj)
    · exact hg.late j r ((update_of_ne hji o s.reasm).symm.trans hj)

/-- Within the time no entry has expired. -/
theorem timers_keep (hlate : ∀ i r, s.reasm i = some r → t0 + REASM_MS ≤ r.deadline) {now : Nat}
    (hnow : now < t0 + REASM_MS) : step s (.timers now) = s := by
  have hsame : s.reasm.timers now = s.reasm := by
    funext i
    show (s.reasm i).filter _ = _
    cases hr : s.reasm i with
    | none => rfl
    | some r => exact filter_some_pos (decide_eq_true (hnow.trans_le (hlate i r hr)))
  show Stack.mk (s.reasm.timers now) s.delivered = s
  rw [hsame]

/-- A step keeps the fragments that arrived, and adds its own, until the datagram is delivered. -/
theorem gathers_step (hinj : Function.Injective fun k => (d k).flow) (hd : ∀ k, (d k).Valid)
    (hn : n ≤ REASM_N) (h : Carries d s) (hg : Gathers d t0 past s) {act : NetAct}
    (hact : OnlyFrom d act) (htime : InTime t0 act) : Gathers d t0 (past ++ [act]) (step s act) := by
  cases act with
  | timers now =>
    rw [timers_keep hg.late htime]
    exact hg.quiet rfl
  | fragment a kmalloc now =>
    have hnow : t0 ≤ now := htime
    obtain ⟨k, ha⟩ := hact
    obtain ⟨hflow, hpiece, href⟩ := ha.piece (hd k)
    have hstep : step s (.fragment a kmalloc now) =
        ⟨(s.reasm.ipFragmentIn a.packet a.hlen a.total kmalloc now).1,
          (s.reasm.ipFragmentIn a.packet a.hlen a.total kmalloc now).2.toList ++ s.delivered⟩ := rfl
    rw [hstep]
    obtain ⟨-, ⟨hrefused, -⟩ | ⟨habsent, hnone, he⟩⟩ | ⟨i, r, he, hacc, -, hin⟩ :=
      ipFragmentIn_cases s.reasm a.packet a.hlen a.total kmalloc now
    · exact absurd hrefused href
    · rw [he]
      rw [hflow] at habsent
      have hfree := pick_free (free_of_absent h hn habsent)
      have hsame : update s.reasm s.reasm.pick none = s.reasm := by
        rw [← hfree, update_eq_self]
      rw [hsame]
      exact hg.quiet (by rw [hnone]; rfl)
    · obtain ⟨hrflow, hparts⟩ := written_parts h hinj (hd k) ha he
      have hw := (entryFor_ok h.ok he).1.write hacc
      rw [hflow] at he
      obtain ⟨hown, -⟩ := entryFor_own h hn he
      have hothers : ∀ m ≠ k, ∀ j r', s.reasm j = some r' → r'.flow = (d m).flow → j ≠ i := by
        rintro m hmk j r' hj hf rfl
        obtain hi | ⟨hi, -⟩ := hown
        · rw [hi] at hj
          rw [← some.inj hj] at hf
          exact hmk (hinj (hf.symm.trans hrflow))
        · rw [hi] at hj
          cases hj
      have hbrings : ∀ m f, (NetAct.fragment a kmalloc now).brings = some ((d m).flow, f) →
          m = k ∧ f = fragmentOf a.packet a.hlen a.total := by
        intro m f hf
        cases kmalloc with
        | none => cases hf
        | some junk =>
          obtain ⟨hfl, hff⟩ := Prod.mk.inj (some.inj hf)
          exact ⟨hinj (hfl.symm.trans hflow), hff.symm⟩
      rw [hin]
      by_cases hdone : (r.write (fragmentOf a.packet a.hlen a.total)).Done
      · rw [if_pos hdone]
        refine hg.put (o := none) (fun m hmk f hf => hmk (hbrings m f hf).1) hothers nofun
          (subset_cons_self _ _) (.inl ?_)
        rw [← datagram_eq hw hrflow hparts hdone]
        exact mem_cons_self
      · rw [if_neg hdone]
        refine hg.put (fun m hmk f hf => hmk (hbrings m f hf).1) hothers ?_ (Subset.refl _)
          ((hg.kept k).imp id fun hkept b hm f hf => ⟨_, rfl, hrflow, ?_⟩)
        · intro r' hr'
          obtain rfl := some.inj hr'
          show t0 + REASM_MS ≤ r.deadline
          obtain hi | ⟨-, -, hdl⟩ := hown
          · exact hg.late i r hi
          · rw [hdl]
            omega
        · obtain hm | hm := mem_append.1 hm
          · obtain ⟨j, r', hj, hf', hmem⟩ := hkept b hm f hf
            rw [(entryFor_ok h.ok he).2.2 j r' hj hf'] at hj
            obtain hi | ⟨hi, -⟩ := hown
            · rw [hi] at hj
              exact mem_cons_of_mem _ (some.inj hj ▸ hmem)
            · rw [hi] at hj
              cases hj
          · rw [mem_singleton.1 hm] at hf
            rw [(hbrings k f hf).2]
            exact mem_cons_self

theorem carries_run (hinj : Function.Injective fun k => (d k).flow) (hd : ∀ k, (d k).Valid)
    (acts : List NetAct) (hacts : ∀ act ∈ acts, OnlyFrom d act) :
    Carries d (acts.foldl step Stack.empty) := by
  induction acts using List.reverseRecOn with
  | nil => exact ⟨empty_ok, nofun, nofun⟩
  | append_singleton acts act ih =>
    rw [foldl_append, foldl_cons, foldl_nil]
    exact carries_step hinj hd (ih fun b hb => hacts b (mem_append_left _ hb))
      (hacts act (mem_append_right _ (mem_singleton_self _)))

theorem gathers_run (hinj : Function.Injective fun k => (d k).flow) (hd : ∀ k, (d k).Valid)
    (hn : n ≤ REASM_N) (acts : List NetAct) (hacts : ∀ act ∈ acts, OnlyFrom d act ∧ InTime t0 act) :
    Gathers d t0 acts (acts.foldl step Stack.empty) := by
  induction acts using List.reverseRecOn with
  | nil => exact ⟨fun _ => .inr nofun, nofun⟩
  | append_singleton acts act ih =>
    have hlast := hacts act (mem_append_right _ (mem_singleton_self _))
    rw [foldl_append, foldl_cons, foldl_nil]
    refine gathers_step hinj hd hn (carries_run hinj hd acts fun b hb => ?_)
      (ih fun b hb => hacts b (mem_append_left _ hb)) hlast.1 hlast.2
    exact (hacts b (mem_append_left _ hb)).1

end Run


/-- The fragment that `q` carries arrived, and a buffer could be had for it. -/
def Arrived (acts : List NetAct) (q : List Byte) : Prop :=
  ∃ a junk now, NetAct.fragment a (some junk) now ∈ acts ∧ ∃ pad, a.packet = q ++ pad ∧
    a.hlen = ihl a.packet ∧ a.total = totalLength a.packet

theorem delivered_of_arrived {n : Nat} {d : Fin n → Sending} {s : Stack} {acts : List NetAct}
    {t0 : Nat} {k : Fin n} (hinj : Function.Injective fun k => (d k).flow) (hd : (d k).Valid)
    (h : Carries d s) (hg : Gathers d t0 acts s)
    (hsent : (d k).output.status = none) (hall : ∀ q ∈ (d k).output.packets, Arrived acts q) :
    (d k).datagram ∈ s.delivered := by
  refine (hg.kept k).resolve_right fun hkept => ?_
  -- each byte of the payload is in a fragment that the entry has
  have hbyte : ∀ j < (d k).payload.length, ∃ i r, s.reasm i = some r ∧ r.flow = (d k).flow ∧
      ∃ p ∈ r.pieces, p.off ≤ j ∧ j < p.fin := by
    intro j hj
    obtain ⟨q, hq, o, m, hread, hlo, hhi⟩ := (Sending.reads hd).2 hsent j hj
    obtain ⟨a, junk, now, hact, pad, hp, hhlen, htotal⟩ := hall q hq
    have hflow : flowOf a.packet = (d k).flow := by
      rw [hp]
      exact hread.flow pad
    have hpiece : fragmentOf a.packet a.hlen a.total = pieceAt (d k).payload o m := by
      rw [hhlen, htotal, hp]
      exact hread.piece pad
    obtain ⟨i, r, hr, hrflow, hmem⟩ := hkept _ hact (fragmentOf a.packet a.hlen a.total)
      (congrArg (fun f => some (f, fragmentOf a.packet a.hlen a.total)) hflow)
    have hfin : (pieceAt (d k).payload o m).fin = o + m := by
      show o + (((d k).payload.drop o).take m).length = o + m
      rw [length_take, length_drop]
      have := hread.le
      omega
    rw [hpiece] at hmem
    exact ⟨i, r, hr, hrflow, _, hmem, hlo, hfin ▸ hhi⟩
  obtain ⟨i, r, hr, hflow, -⟩ := hbyte 0 hd.pos
  have hparts : ∀ p ∈ r.pieces, PieceOf (d k).payload p := by
    obtain ⟨m, hm, hparts⟩ := h.parts i r hr
    have hmk : m = k := hinj (hm.symm.trans hflow)
    rwa [hmk] at hparts
  refine (h.ok.entry i r hr).2 (complete_of_all (by decide) hparts ?_ fun j hj => ?_)
  · exact ne_nil_of_length_pos hd.pos
  · obtain ⟨i', r', hr', hflow', hcover⟩ := hbyte j hj
    obtain rfl := h.ok.distinct i i' r r' hr hr' (hflow.trans hflow'.symm)
    obtain rfl := some.inj (hr.symm.trans hr')
    exact isSome_image.2 hcover

/-! ### Arbitrary fragments -/

/-- A datagram that the step delivers has only bytes that its fragments brought. -/
def WholeStep (s : Stack) : NetAct → Prop
  | .fragment a kmalloc now =>
    ∀ x, (s.reasm.ipFragmentIn a.packet a.hlen a.total kmalloc now).2 = some x →
      ∃ r, s.reasm.written a.packet a.hlen a.total kmalloc now = some r ∧
        ∀ i < x.payload.length, ∃ b, image r.pieces i = some b ∧ x.payload[i]? = some b
  | .timers _ => True

/-- If the fragments of the datagram, with the one that arrives, touch as many units as the latest
last fragment says it has, then none of them lies beyond that length, and where one ends inside a
unit before it, others have the rest of the unit. -/
def FitsStep (s : Stack) : NetAct → Prop
  | .fragment a kmalloc now =>
    ∀ r, s.reasm.written a.packet a.hlen a.total kmalloc now = some r → Complete 8 r.pieces →
      Fits 8 r.pieces
  | .timers _ => True

theorem wholeStep_iff {s : Stack} (h : s.reasm.Ok) (act : NetAct) :
    WholeStep s act ↔ FitsStep s act := by
  cases act with
  | timers now => exact Iff.rfl
  | fragment a kmalloc now =>
    have hwhole : ∀ r, s.reasm.written a.packet a.hlen a.total kmalloc now = some r →
        Complete 8 r.pieces → (Whole r.pieces ↔ Fits 8 r.pieces) := fun r hw hc =>
      whole_iff (by decide) (fun p hp => ((written_ok h hw).accepted p hp).aligned)
        (fun p hp => ((written_ok h hw).accepted p hp).data_ne) hc
    have hlen : ∀ r : Reasm, r.datagram.payload.length = r.total := fun r => by
      show ((List.range r.total).map r.buf).length = r.total
      rw [length_map, length_range]
    constructor
    · intro hstep r hw hc
      have hok := written_ok h hw
      obtain ⟨r', hw', hbytes⟩ := hstep r.datagram
        ((delivered_iff _).2 ⟨r, hw, hok.done_iff.2 hc, rfl⟩)
      obtain rfl := some.inj (hw.symm.trans hw')
      refine (hwhole r hw hc).1 fun i hi => ?_
      rw [hlen, hok.total] at hbytes
      obtain ⟨b, hb, -⟩ := hbytes i hi
      rw [hb]
      rfl
    · intro hfits x hx
      obtain ⟨r, hw, hdone, rfl⟩ := (delivered_iff x).1 hx
      have hok := written_ok h hw
      have hc := hok.done_iff.1 hdone
      refine ⟨r, hw, fun i hi => ?_⟩
      rw [hlen] at hi
      obtain ⟨b, hb⟩ := isSome_iff_exists.1
        ((hwhole r hw hc).2 (hfits r hw hc) i (hok.total ▸ hi))
      refine ⟨b, hb, ?_⟩
      show ((List.range r.total).map r.buf)[i]? = some b
      rw [List.getElem?_map, List.getElem?_range hi, map_some, hok.buf i b hb]

theorem step_ok {s : Stack} (h : s.reasm.Ok) (act : NetAct) : (step s act).reasm.Ok := by
  cases act with
  | timers now => exact h.timers now
  | fragment a kmalloc now => exact h.fragment a.packet a.hlen a.total

theorem along_whole_iff (acts : List NetAct) {s : Stack} (h : s.reasm.Ok) :
    Steps step WholeStep s acts ↔ Steps step FitsStep s acts := by
  constructor
  · exact along_of_inv acts (fun _ _ => trivial)
      (fun s act hok _ hq => ⟨(wholeStep_iff hok act).1 hq, step_ok hok act⟩) h
  · exact along_of_inv acts (fun _ _ => trivial)
      (fun s act hok _ hq => ⟨(wholeStep_iff hok act).2 hq, step_ok hok act⟩) h

/-- **Fragmentation and reassembly.**  Fragments of at most `REASM_N` datagrams of different flows,
in any order, repeated and lost: only their payloads are delivered, and the payload of each that was
sent whole and all of whose fragments arrived in time.  A run of arbitrary fragments delivers no byte
that was not received, exactly if at each step `FitsStep` holds. -/
theorem reassembly (acts : List NetAct) :
    (∀ (n : Nat) (d : Fin n → Sending), n ≤ REASM_N → (∀ k, (d k).Valid) →
      (Function.Injective fun k => (d k).flow) → (∀ act ∈ acts, OnlyFrom d act) →
        (∀ x ∈ (acts.foldl step Stack.empty).delivered, ∃ k, x = (d k).datagram) ∧
        ∀ t0, (∀ act ∈ acts, InTime t0 act) → ∀ k, (d k).output.status = none →
          (∀ q ∈ (d k).output.packets, Arrived acts q) →
            (d k).datagram ∈ (acts.foldl step Stack.empty).delivered) ∧
    (Steps step WholeStep Stack.empty acts ↔ Steps step FitsStep Stack.empty acts) := by
  refine ⟨fun n d hn hd hinj hacts => ?_, along_whole_iff acts empty_ok⟩
  have hcarries := carries_run hinj hd acts hacts
  refine ⟨hcarries.sound, fun t0 htime k hsent hall => ?_⟩
  have hgathers := gathers_run hinj hd hn acts fun act hm => ⟨hacts act hm, htime act hm⟩
  exact delivered_of_arrived hinj (hd k) hcarries hgathers hsent hall

/-- A payload of 24 bytes, sent with 16 bytes in a packet. -/
def twoPackets : Sending :=
  ⟨⟨false, false, 0x0a000202, 0x0a00020f, 36⟩, 0, fun _ => none, 17, 0, 0x0a000202,
    (List.range 24).map (BitVec.ofNat 8), false⟩

/-- The last packet, the first one, and the last one again. -/
def twoPacketsActs : List NetAct :=
  let arrival (i hlen total : Nat)
      (h : hlen ≤ total ∧ total ≤ (twoPackets.output.packets.getD i []).length) : NetAct :=
    .fragment ⟨twoPackets.output.packets.getD i [], hlen, total, h.1, h.2⟩ (some fun _ => 0xcc) 5
  [arrival 1 20 28 (by decide), arrival 0 20 36 (by decide), arrival 1 20 28 (by decide)]

theorem reassembly_twoPackets :
    twoPackets.datagram ∈ (twoPacketsActs.foldl step Stack.empty).delivered := by
  have hpackets : twoPackets.output.packets =
    [twoPackets.output.packets.getD 0 [], twoPackets.output.packets.getD 1 []] := by decide
  have hfirst : twoPackets.output.packets.getD 0 [] ∈ twoPackets.output.packets := by decide
  have hlast : twoPackets.output.packets.getD 1 [] ∈ twoPackets.output.packets := by decide
  refine ((reassembly twoPacketsActs).1 1 (fun _ => twoPackets) (by decide)
    (fun _ => ⟨by decide, by decide, by decide⟩) (Function.injective_of_subsingleton _) ?_).2 0 ?_ 0
    rfl ?_
  · intro act hact
    simp only [twoPacketsActs, mem_cons, not_mem_nil, or_false] at hact
    obtain rfl | rfl | rfl := hact
    · exact ⟨0, _, hlast, [], (append_nil _).symm, by decide, by decide⟩
    · exact ⟨0, _, hfirst, [], (append_nil _).symm, by decide, by decide⟩
    · exact ⟨0, _, hlast, [], (append_nil _).symm, by decide, by decide⟩
  · intro act hact
    simp only [twoPacketsActs, mem_cons, not_mem_nil, or_false] at hact
    obtain rfl | rfl | rfl := hact <;> exact Nat.zero_le 5
  · intro q hq
    rw [hpackets] at hq
    simp only [mem_cons, not_mem_nil, or_false] at hq
    obtain rfl | rfl := hq
    · exact ⟨_, _, _, mem_cons_of_mem _ mem_cons_self, [], (append_nil _).symm,
        by decide, by decide⟩
    · exact ⟨_, _, _, mem_cons_self, [], (append_nil _).symm, by decide, by decide⟩

def forgedPacket (frag : BitVec 16) : List Byte :=
  buildIpHeader 17 0x0a000202 0x0a00020f 28 1 frag ++ List.replicate 8 0x41

/-- The fragments at 24 and at 8, the second marked as the last one: two units are touched, and a
datagram of 16 bytes is delivered, the first eight of them as the buffer had them. -/
def forged : List NetAct :=
  [.fragment ⟨forgedPacket 0x2003, 20, 28, by decide, by decide⟩ (some fun _ => 0xcc) 0,
    .fragment ⟨forgedPacket 1, 20, 28, by decide, by decide⟩ none 0]

theorem forged_hole :
    (forged.foldl step Stack.empty).delivered =
        [⟨17, 0x0a000202, 0x0a00020f, List.replicate 8 0xcc ++ List.replicate 8 0x41⟩] ∧
      ¬Steps step WholeStep Stack.empty forged := by
  refine ⟨by decide, fun h => ?_⟩
  obtain ⟨r, hr, hbytes⟩ := h.2.2.2.1 _ rfl
  obtain ⟨b, hb, -⟩ := hbytes 0 (by decide)
  have hnone : some none = some (image r.pieces 0) :=
    congrArg (Option.map fun r : Reasm => image r.pieces 0) hr
  rw [← some.inj hnone] at hb
  cases hb

end Win98Modern.Net
