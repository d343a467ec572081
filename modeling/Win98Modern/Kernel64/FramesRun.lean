import Win98Modern.Kernel64.Frames
import Win98Modern.Kernel64.VadMap

/-!
# Who frees which frame

`Owned m`: every mapped frame is the process's own, mapped at one page only, or
belongs to a view and is mapped in a view descriptor; nobody holds a frame twice.
Faults keep that (`Owned.fault`), and so do the descriptor calls that lose no
mapped page of a view from the array (`Steady`).

`vad_free` then frees frames of the process only, each once, and leaves none of
them mapped (`Owned.freesOk`), unless a decommitted range runs from a private
descriptor into a mapped view: only the descriptor at the base is tested for
being a view, so the frames of the section are freed as well.
-/

namespace Win98Modern.Kernel64

open Function List Option

def kindAt (vads : List Vad) (n : Nat) : Option VadKind := look Vad.kind vads n

/-! ### Changes that keep frames where they are -/

/-- `q` maps nothing that `p` does not, and has lost no mapped page of a view. -/
structure Steady (p q : Process) : Prop where
  maps : ∀ n e', q.pml4 n = some e' → ∃ e, p.pml4 n = some e ∧ e.pa = e'.pa
  views : ∀ n, (q.pml4 n).isSome → kindAt p.vads n = some .view → kindAt q.vads n = some .view

theorem Steady.refl (p : Process) : Steady p p := ⟨fun _ e' h => ⟨e', h, rfl⟩, fun _ _ h => h⟩

variable {p q : Process} {i idx addr start base size type prot pa : Nat} {w : Vad}
  {kz kz' write : Bool} {S T : Nat → Prop} {L : List Nat} {m m' : Machine} {fr : Option Nat}
  {new : Owner} {s : Supply}

theorem Steady.trans {r : Process} (h : Steady p q) (h' : Steady q r) : Steady p r where
  maps := by
    intro n e'' he''
    obtain ⟨e', he', hpa'⟩ := h'.maps n e'' he''
    obtain ⟨e, he, hpa⟩ := h.maps n e' he'
    exact ⟨e, he, hpa.trans hpa'⟩
  views := by
    intro n hr hk
    obtain ⟨e'', he''⟩ := isSome_iff_exists.1 hr
    obtain ⟨e', he', -⟩ := h'.maps n e'' he''
    exact h'.views n hr (h.views n (by rw [he']; rfl) hk)

theorem Steady.of_look (hm : q.pml4 = p.pml4) (hk : look Vad.kind q.vads = look Vad.kind p.vads) :
    Steady p q where
  maps := fun n e' h => ⟨e', hm ▸ h, rfl⟩
  views := fun n _ h => by rw [kindAt, hk]; exact h

theorem look_set {β : Type*} {f : Vad → β} {vads : List Vad} {v : Vad} (hv : vads[i]? = some v)
    (hs : w.start = v.start) (he : w.stop = v.stop) (hf : f w = f v) :
    look f (vads.set i w) = look f vads := by
  obtain ⟨l, r, rfl, rfl⟩ := split_of_getElem? hv
  have hmid := look_mid (f := f) [w] [v] (fun a => ?_) l r
  · simpa using hmid
  · rw [spanAt_cons, spanAt_cons, hs, he]
    split
    · exact congrArg some hf
    · rfl

theorem steady_set {v : Vad} (hv : p.vads[i]? = some v) (hs : w.start = v.start)
    (he : w.stop = v.stop) (hk : w.kind = v.kind) : Steady p { p with vads := p.vads.set i w } :=
  .of_look rfl (look_set hv hs he hk)

theorem steady_foldl {f : Process → Nat → Process} (hf : ∀ p va, Steady p (f p va)) :
    ∀ (l : List Nat) (p : Process), Steady p (l.foldl f p) := by
  intro l
  induction l with
  | nil => intro p; exact .refl p
  | cons va l ih =>
    intro p
    exact (hf p va).trans (ih _)

theorem walk_steady {body : Process → Nat → Process} (hbody : ∀ p i, Steady p (body p i))
    (p : Process) (a stop : Nat) : Steady p (walk body p a stop) :=
  walk_rel Steady.refl (fun _ _ _ => .trans) hbody p a stop

/-! ### Pages -/

/-- Unmapping a page, or mapping its frame again with other flags. -/
theorem steady_update {n : Nat} {o : Option Pte}
    (ho : ∀ e', o = some e' → ∃ e, p.pml4 n = some e ∧ e.pa = e'.pa) :
    Steady p { p with pml4 := update p.pml4 n o } where
  maps := by
    intro k e' he'
    by_cases hk : k = n
    · subst hk
      exact ho e' (by simpa using he')
    · exact ⟨e', by simpa [update_of_ne hk] using he', rfl⟩
  views := fun _ _ h => h

theorem unmapPage_steady (p : Process) (va : Nat) : Steady p (unmapPage p va) := by
  unfold unmapPage vmUnmap
  cases p.pml4 (va / PAGE_SIZE) with
  | none => exact .refl p
  | some e =>
    have h : Steady p { p with pml4 := update p.pml4 (va / PAGE_SIZE) none } :=
      steady_update (by simp)
    exact ⟨h.maps, h.views⟩

theorem applyProtPage_steady (w : Vad) (newProt : Nat) (p : Process) (va : Nat) :
    Steady p (applyProtPage w newProt p va) := by
  unfold applyProtPage vmUnmap vmMap
  cases he : p.pml4 (va / PAGE_SIZE) with
  | none => split <;> exact .refl p
  | some e =>
    have hpa : ∀ prot, (protToPtflags prot e.pa).pa = e.pa := by
      intro prot
      unfold protToPtflags
      simp only
      split <;> rfl
    split
    · exact steady_update (by simp)
    · simp only
      split
      · exact steady_update (fun e' h => ⟨e, he, by rw [← some.inj h]⟩)
      · exact steady_update (fun e' h => ⟨e, he, by rw [← some.inj h, hpa]⟩)

theorem vadApplyProt_steady (p : Process) (i newProt : Nat) :
    Steady p (vadApplyProt p i newProt) := by
  unfold vadApplyProt
  split
  · exact .refl p
  · rename_i w hw
    have hfirst : Steady p { p with vads := p.vads.set i { w with prot := newProt } } :=
      steady_set hw rfl rfl rfl
    exact hfirst.trans (steady_foldl (applyProtPage_steady w newProt) _ _)

theorem commitOne_steady (prot : Nat) (p : Process) (i : Nat) : Steady p (commitOne prot p i) := by
  unfold commitOne
  cases hv : p.vads[i]? with
  | none => exact .refl p
  | some v =>
    simp only
    split
    · have hfirst : Steady p { p with vads := p.vads.set i { v with state := .committed } } :=
        steady_set hv rfl rfl rfl
      exact hfirst.trans (vadApplyProt_steady _ i prot)
    · rw [set_set]
      exact steady_set hv rfl rfl rfl

theorem unmapPages_steady (p : Process) (start stop : Nat) :
    Steady p (unmapPages p start stop) := steady_foldl unmapPage_steady _ p

theorem decommitOne_steady (p : Process) (i : Nat) : Steady p (decommitOne p i) := by
  unfold decommitOne
  cases hv : p.vads[i]? with
  | none => exact .refl p
  | some v =>
    simp only
    split
    · refine (unmapPages_steady p v.start v.stop).trans (steady_set (v := v) ?_ rfl rfl rfl)
      rw [unmapPages_vads, hv]
    · exact steady_set hv rfl rfl rfl

/-! ### The array -/

theorem vadInsertAt_pages {n : Vad} (h : vadInsertAt p idx n kz = some q) :
    q.pml4 = p.pml4 ∧ q.freed = p.freed := by
  unfold vadInsertAt at h
  split at h
  · split at h
    · simp only [some.injEq] at h; rw [← h]; exact ⟨rfl, rfl⟩
    · simp at h
  · simp only [some.injEq] at h; rw [← h]; exact ⟨rfl, rfl⟩

theorem vadSplit_pages (p : Process) (addr : Nat) (kz : Bool) :
    (vadSplit p addr kz).2.pml4 = p.pml4 ∧ (vadSplit p addr kz).2.freed = p.freed := by
  unfold vadSplit
  simp only
  split
  · exact ⟨rfl, rfl⟩
  · split
    · exact ⟨rfl, rfl⟩
    · split
      · rename_i q hq
        have hpages := vadInsertAt_pages hq
        exact ⟨hpages.1, hpages.2⟩
      · exact ⟨rfl, rfl⟩

theorem vadCoalesce_pages (p : Process) :
    (vadCoalesce p).pml4 = p.pml4 ∧ (vadCoalesce p).freed = p.freed := by
  unfold vadCoalesce
  split <;> exact ⟨rfl, rfl⟩

theorem Shape.coalesce_steady (h : Shape p.vads) : Steady p (vadCoalesce p) :=
  .of_look (vadCoalesce_pages p).1 (look_coalesce blind_kind (fun v hv => (h.pos v hv).le))

theorem Shape.split_steady (h : Shape p.vads) (hq : vadSplit p addr kz = (true, q)) :
    Steady p q := by
  have hpages := (vadSplit_pages p addr kz).1
  rw [hq] at hpages
  exact .of_look hpages (h.look_split blind_kind hq)

theorem Shape.cut_steady (h : Shape p.vads) (hp : PAGE_SIZE ∣ addr)
    (hq : vadSplit p addr kz = (false, q))
    (hview : ∀ v ∈ p.vads, v.kind = .view → v.start < addr → addr < v.stop →
      ∀ n, Within v.start v.stop n → p.pml4 n = none) : Steady p q := by
  have hpages := (vadSplit_pages p addr kz).1
  have hshape := (vadSplit_reshapes p hp kz).shape h
  rw [hq] at hpages hshape
  refine ⟨fun n e' he' => ⟨e', hpages ▸ he', rfl⟩, fun n hn hk => ?_⟩
  rcases h.split_cases addr kz with ⟨-, he⟩ | ⟨l, v, r, hlr, h1, h2, he⟩
  · rw [he] at hq
    simp at hq
  · rw [he] at hq
    split at hq
    · simp at hq
    · obtain rfl : _ = q := by simpa using hq
      obtain ⟨w, hw, hin, hwk⟩ := look_mem hk
      by_cases hwv : w = v
      · subst hwv
        have hmem : w ∈ p.vads := by rw [hlr]; simp
        have hnone := hview w hmem hwk h1 h2 n hin
        rw [hnone] at hn
        cases hn
      · have hmem : w ∈ l ++ { v with stop := addr } :: r := by
          rw [hlr] at hw
          simp only [mem_append, mem_cons] at hw ⊢
          tauto
        show look Vad.kind _ n = _
        rw [hshape.look_eq hmem hin, hwk]

/-- Neither split of a range fails on a view descriptor with mapped pages. -/
def ViewsUncut (p : Process) (start stop : Nat) (kz kz' : Bool) : Prop :=
  SplitsOk p start stop kz kz' ∨
    ∀ v ∈ p.vads, v.kind = .view →
      (v.start < start ∧ start < v.stop ∨ v.start < stop ∧ stop < v.stop) →
      ∀ n, Within v.start v.stop n → p.pml4 n = none

/-- The descriptors of the array after a split lie in those before. -/
theorem Shape.split_within (h : Shape p.vads) (hq : vadSplit p addr kz = (true, q))
    (hw : w ∈ q.vads) : ∃ v ∈ p.vads, v.kind = w.kind ∧ v.start ≤ w.start ∧ w.stop ≤ v.stop := by
  rcases h.split_cases addr kz with ⟨-, he⟩ | ⟨l, v, r, hlr, h1, h2, he⟩
  · rw [he] at hq
    obtain rfl : p = q := by simpa using hq
    exact ⟨w, hw, rfl, le_rfl, le_rfl⟩
  · rw [he] at hq
    split at hq
    · rename_i q' hq'
      obtain rfl : q' = q := by simpa using hq
      rw [split_vads hq', mem_append, mem_cons, mem_cons] at hw
      rw [hlr]
      rcases hw with hw | rfl | rfl | hw
      · exact ⟨w, by simp [hw], rfl, le_rfl, le_rfl⟩
      · exact ⟨v, by simp, rfl, le_rfl, h2.le⟩
      · exact ⟨v, by simp, rfl, h1.le, le_rfl⟩
      · exact ⟨w, by simp [hw], rfl, le_rfl, le_rfl⟩
    · simp at hq

/-- What the two splits of a range lead to. -/
theorem Shape.splits_steady (h : Shape p.vads) {stop : Nat} (hlt : start < stop)
    (hs : PAGE_SIZE ∣ start) (he : PAGE_SIZE ∣ stop) (hv : ViewsUncut p start stop kz kz') :
    (∃ q, vadSplit p start kz = (false, q) ∧ Steady p q) ∨
    (∃ q q', vadSplit p start kz = (true, q) ∧ vadSplit q stop kz' = (false, q') ∧ Steady p q') ∨
    ∃ q q', vadSplit p start kz = (true, q) ∧ vadSplit q stop kz' = (true, q') ∧ Steady p q' ∧
      Shape q'.vads ∧ pageMap q'.vads = pageMap p.vads ∧
      look Vad.kind q'.vads = look Vad.kind p.vads ∧ q'.pml4 = p.pml4 ∧ q'.freed = p.freed ∧
      ¬Straddles q'.vads start ∧ ¬Straddles q'.vads stop := by
  rcases h.splits_cases hlt hs he kz kz' with
    ⟨-, q, q', hq, hq', hshape, hmap, hns, hne⟩ | ⟨hno, ⟨q, hq, -⟩ | ⟨q, q', hq, hq', -⟩⟩
  · refine .inr (.inr ⟨q, q', hq, hq', ?_⟩)
    have hshape' : Shape q.vads := by
      have := (vadSplit_reshapes p hs kz).shape h
      rwa [hq] at this
    have hp := vadSplit_pages p start kz
    have hp' := vadSplit_pages q stop kz'
    rw [hq] at hp
    rw [hq'] at hp'
    exact ⟨(h.split_steady hq).trans (hshape'.split_steady hq'), hshape, hmap,
      (hshape'.look_split blind_kind hq').trans (h.look_split blind_kind hq), hp'.1.trans hp.1,
      hp'.2.trans hp.2, hns, hne⟩
  · left
    refine ⟨q, hq, h.cut_steady hs hq (fun v hvm hk h1 h2 => ?_)⟩
    exact (hv.resolve_left hno) v hvm hk (.inl ⟨h1, h2⟩)
  · right; left
    have hshape' : Shape q.vads := by
      have := (vadSplit_reshapes p hs kz).shape h
      rwa [hq] at this
    have hp := vadSplit_pages p start kz
    rw [hq] at hp
    refine ⟨q, q', hq, hq', (h.split_steady hq).trans (hshape'.cut_steady he hq' ?_)⟩
    intro w hw hk h1 h2 n hn
    obtain ⟨v, hvm, hvk, hlo, hhi⟩ := h.split_within hq hw
    rw [hp.1]
    exact (hv.resolve_left hno) v hvm (hvk.trans hk) (.inr ⟨by omega, by omega⟩) n
      ⟨le_trans hlo hn.1, lt_of_lt_of_le hn.2 hhi⟩

/-! ### Allocation and protection -/

theorem Shape.insert_steady (h : Shape p.vads) {v : Vad} (hlt : v.start < v.stop)
    (hfree : Free p.vads v.start (v.stop - v.start))
    (hq : vadInsertAt p (vadLower p.vads v.start) v kz = some q) : Steady p q := by
  have hpages := (vadInsertAt_pages hq).1
  refine ⟨fun n e' he' => ⟨e', hpages ▸ he', rfl⟩, fun n _ hk => ?_⟩
  obtain ⟨w, hw, hin, hwk⟩ := look_mem hk
  have hord : Ordered Vad.start Vad.stop q.vads := by
    obtain ⟨l, r, hlr, hlen, hl, hr⟩ := h.lower v.start
    rw [vadInsertAt_vads hq, hlen, hlr, take_left, drop_left]
    refine Ordered.insert_between (hlr ▸ h.ordered) hl (fun b hb => ?_)
    have := hr b hb
    have := hfree b (by rw [hlr]; simp [hb])
    omega
  have hmem : w ∈ q.vads := by
    rw [vadInsertAt_vads hq]
    rw [← take_append_drop (vadLower p.vads v.start) p.vads] at hw
    simp only [mem_append, mem_cons] at hw ⊢
    tauto
  rw [kindAt, look, (spanAt_iff hord).2 ⟨hmem, hin⟩, map_some, hwk]

/-- What `vad_alloc` needs in order to lose no view page: a commitment that would
be made does not fail half-way inside a mapped view. -/
def AllocKeeps (p : Process) (base size type prot : Nat) (kz kz' : Bool) : Prop :=
  AllocArgs base size type prot → base ≠ 0 → ¬type / MEM_RESERVE % 2 = 1 →
    InUser (pageFloor base) (allocLen base size) →
    (∀ n, Within (pageFloor base) (pageFloor base + allocLen base size) n →
      (pageMap p.vads n).Described) →
    ViewsUncut p (pageFloor base) (pageFloor base + allocLen base size) kz kz'

theorem alloc_steady (h : Sound p) {kind : VadKind}
    (ha : Admitted p (.alloc base size type prot kind kz kz'))
    (hk : AllocKeeps p base size type prot kz kz') :
    Steady p (vadAlloc p base size type prot kind kz kz').proc := by
  by_cases hargs : AllocArgs base size type prot
  case neg => rw [vadAlloc_args hargs]; exact .refl p
  have hl0 : 0 < allocLen base size := Nat.pos_of_ne_zero hargs.2.2.2.2.1
  have htop : allocLen base size ≤ USER_TOP := hargs.2.2.2.2.2
  have hadm := ha hargs
  -- a fresh range is installed, and the array coalesced
  have hfresh : ∀ {start : Nat} {q q' : Process}, PAGE_SIZE ∣ start →
      InUser start (allocLen base size) → Free p.vads start (allocLen base size) →
      ¬InHole p.vads start (allocLen base size) →
      vadInsertAt p (vadLower p.vads start) (newVad start (start + allocLen base size)
        (decide (type / MEM_COMMIT % 2 = 1)) prot kind) kz = some q →
      q'.vads = q.vads → q'.pml4 = q.pml4 → Steady p (vadCoalesce q') := by
    intro start q q' hpage hin hfree hhole hq hvads hpml4
    have hins : Steady p q := h.shape.insert_steady (v := newVad start _ _ prot kind)
      (Nat.lt_add_of_pos_right hl0) (by simpa [newVad] using hfree) hq
    have hshape := (h.reserve hl0 hin.1 hin.2 hpage (up_dvd _) hfree hhole hq).shape
    have hsame : Steady q q' := .of_look hpml4 (by rw [hvads])
    exact (hins.trans hsame).trans (hvads ▸ hshape : Shape q'.vads).coalesce_steady
  by_cases hb : base = 0
  · subst hb
    rw [vadAlloc_anywhere hargs]
    simp only
    split
    · exact .refl p
    · rename_i c hc
      have hfit := h.shape.chooseBase htop (Shape.first_candidate htop h.hint hadm.1) hc
      have hhole := hadm.2 c hfit
      obtain ⟨hd, hmin, hctop, hfree, -⟩ := hfit
      rw [add64_eq (by unfold USER_TOP at hctop; omega)]
      split
      · exact .refl p
      · rename_i q hq
        refine hfresh (page_dvd_of_64K hd) ⟨hmin, hctop⟩ hfree hhole hq ?_ ?_ <;>
          split <;> rfl
  · rw [if_neg hb] at hadm
    rw [vadAlloc_base hargs hb]
    simp only
    generalize hres : decide (type / MEM_RESERVE % 2 = 1) = reserve
    have hstart := allocStart_dvd reserve base
    split
    · exact .refl p
    rename_i hrange
    simp only [not_or, Nat.not_lt] at hrange
    have hstop := add64_of_le hrange.2.2 (by unfold USER_TOP at htop; omega)
    rw [hstop] at hrange ⊢
    split
    · rename_i hr
      subst hr
      split
      · exact .refl p
      · rename_i hf
        split
        · exact .refl p
        · rename_i q hq
          exact hfresh hstart ⟨hrange.1, hrange.2.1⟩ ((h.shape.rangeFree_eq hl0).1 (by simpa using hf))
            (hadm (by simpa using hres)) hq rfl rfl
    · rename_i hr
      obtain rfl : reserve = false := by simpa using hr
      simp only [allocStart, Bool.false_eq_true, if_false] at hrange hstop hstart ⊢
      split
      · exact .refl p
      · rename_i hcov
        have hall := (h.shape.covered_described _ (pageFloor_dvd base)).1 (by simpa using hcov)
        have huncut := hk hargs hb (by simpa using hres) ⟨hrange.1, hrange.2.1⟩ hall
        have hdvd : PAGE_SIZE ∣ pageFloor base + allocLen base size :=
          Nat.dvd_add (pageFloor_dvd base) (up_dvd _)
        rcases h.shape.splits_steady (Nat.lt_add_of_pos_right hl0) (pageFloor_dvd base) hdvd
          huncut with ⟨q, hq, hst⟩ | ⟨q, q', hq, hq', hst⟩ | ⟨q, q', hq, hq', hst, hshape, -⟩
        · simpa only [hq] using hst
        · simpa only [hq, hq'] using hst
        · simp only [hq, hq']
          have hw := (walk_reshapes (commitOne_reshapes prot) q' (pageFloor base)
            (pageFloor base + allocLen base size)).shape hshape
          exact (hst.trans (walk_steady (commitOne_steady prot) q' _ _)).trans hw.coalesce_steady

/-- What `vad_protect` needs in order to lose no view page. -/
def ProtectKeeps (p : Process) (base size newProt : Nat) (kz kz' : Bool) : Prop :=
  protValid newProt → size ≠ 0 → pageFloor base < up (add64 base size) →
    (∀ n, Within (pageFloor base) (up (add64 base size)) n → (pageMap p.vads n).Committed) →
    ViewsUncut p (pageFloor base) (up (add64 base size)) kz kz'

theorem protect_steady (h : Sound p) {newProt : Nat} (hk : ProtectKeeps p base size newProt kz kz') :
    Steady p (vadProtect p base size newProt kz kz').2.2 := by
  unfold vadProtect
  simp only
  split
  · exact .refl p
  · rename_i hargs
    simp only [not_or, not_not, Nat.not_le] at hargs
    obtain ⟨hs, hpos, hvalid⟩ := hargs
    split
    · exact .refl p
    · rename_i hcov
      have hall := (h.shape.covered_committed _ (pageFloor_dvd base)).1 (by simpa using hcov)
      rcases h.shape.splits_steady hpos (pageFloor_dvd base) (up_dvd _)
        (hk hvalid hs hpos hall) with
        ⟨q, hq, hst⟩ | ⟨q, q', hq, hq', hst⟩ | ⟨q, q', hq, hq', hst, hshape, -⟩
      · simpa only [hq] using hst
      · simpa only [hq, hq'] using hst
      · simp only [hq, hq']
        have hw := (walk_reshapes (fun q i => vadApplyProt_reshapes q i newProt) q' (pageFloor base)
          (up (add64 base size))).shape hshape
        exact (hst.trans (walk_steady (fun q i => vadApplyProt_steady q i newProt) q' _ _)).trans
          hw.coalesce_steady

/-! ### Frees -/

/-- From `p` to `q` the pages of `S` are unmapped and their frames freed, `L` in order. -/
structure Freed (S : Nat → Prop) (p q : Process) (L : List Nat) : Prop where
  gone : ∀ n, S n → q.pml4 n = none
  rest : ∀ n, ¬S n → q.pml4 n = p.pml4 n
  log : q.freed = p.freed ++ L
  mapped : ∀ pa ∈ L, ∃ n e, S n ∧ p.pml4 n = some e ∧ e.pa = pa
  all : ∀ n e, S n → p.pml4 n = some e → e.pa ∈ L
  once : (∀ n n' e e', S n → S n' → p.pml4 n = some e → p.pml4 n' = some e' → e.pa = e'.pa →
    n = n') → L.Nodup

theorem Freed.nothing (hm : q.pml4 = p.pml4) (hf : q.freed = p.freed) :
    Freed (fun _ => False) p q [] where
  gone := fun _ h => h.elim
  rest := fun _ _ => by rw [hm]
  log := by rw [hf, append_nil]
  mapped := fun _ h => by cases h
  all := fun _ _ h => h.elim
  once := fun _ => nodup_nil

theorem Freed.congr (h : Freed S p q L) (hst : ∀ n, S n ↔ T n) : Freed T p q L := by
  have : S = T := funext fun n => propext (hst n)
  exact this ▸ h

theorem Freed.trans {r : Process} {M : List Nat} (h : Freed S p q L) (h' : Freed T q r M) :
    Freed (fun n => S n ∨ T n) p r (L ++ M) where
  gone := by
    intro n hn
    by_cases ht : T n
    · exact h'.gone n ht
    · rw [h'.rest n ht]
      exact h.gone n (hn.resolve_right ht)
  rest := by
    intro n hn
    rw [not_or] at hn
    rw [h'.rest n hn.2, h.rest n hn.1]
  log := by rw [h'.log, h.log, append_assoc]
  mapped := by
    intro pa hpa
    rcases mem_append.1 hpa with hpa | hpa
    · obtain ⟨n, e, hn, he⟩ := h.mapped pa hpa
      exact ⟨n, e, .inl hn, he⟩
    · obtain ⟨n, e, hn, he, hep⟩ := h'.mapped pa hpa
      by_cases hs : S n
      · rw [h.gone n hs] at he
        cases he
      · exact ⟨n, e, .inr hn, h.rest n hs ▸ he, hep⟩
  all := by
    intro n e hn he
    by_cases hs : S n
    · exact mem_append_left _ (h.all n e hs he)
    · exact mem_append_right _ (h'.all n e (hn.resolve_left hs) (by rw [h.rest n hs, he]))
  once := by
    intro hinj
    refine nodup_append.2
      ⟨h.once fun n n' e e' hn hn' => hinj n n' e e' (.inl hn) (.inl hn'),
        h'.once fun n n' e e' hn hn' he he' => ?_, ?_⟩
    · have hs : ¬S n := fun hs => by rw [h.gone n hs] at he; cases he
      have hs' : ¬S n' := fun hs => by rw [h.gone n' hs] at he'; cases he'
      exact hinj n n' e e' (.inr hn) (.inr hn') (h.rest n hs ▸ he) (h.rest n' hs' ▸ he')
    · -- a frame freed twice would have been mapped at two pages
      rintro pa hL _ hM rfl
      obtain ⟨n, e, hn, he, hpa⟩ := h.mapped pa hL
      obtain ⟨n', e', hn', he', hpa'⟩ := h'.mapped pa hM
      have hs' : ¬S n' := fun hs => by rw [h.gone n' hs] at he'; cases he'
      have := hinj n n' e e' (.inl hn) (.inr hn') he (h.rest n' hs' ▸ he') (hpa.trans hpa'.symm)
      exact hs' (this ▸ hn)

theorem Freed.page (p : Process) (va : Nat) :
    ∃ L, Freed (fun n => n = va / PAGE_SIZE) p (unmapPage p va) L := by
  unfold unmapPage vmUnmap
  cases he : p.pml4 (va / PAGE_SIZE) with
  | none =>
    refine ⟨[], ?_⟩
    exact
      { gone := fun n hn => by rw [hn, he]
        rest := fun _ _ => rfl
        log := by simp
        mapped := fun _ h => by cases h
        all := fun n e hn h => by rw [hn, he] at h; cases h
        once := fun _ => nodup_nil }
  | some e =>
    refine ⟨[e.pa], ?_⟩
    exact
      { gone := fun n hn => by simp [pmmFree, hn]
        rest := fun n hn => by simp [pmmFree, update_of_ne hn]
        log := rfl
        mapped := fun pa h => ⟨_, e, rfl, he, (mem_singleton.1 h).symm⟩
        all := fun n e' hn h => by rw [hn, he] at h; cases h; simp
        once := fun _ => by simp }

theorem Freed.pages : ∀ (l : List Nat) (p : Process),
    ∃ L, Freed (fun n => ∃ va ∈ l, n = va / PAGE_SIZE) p (l.foldl unmapPage p) L := by
  intro l
  induction l with
  | nil => intro p; exact ⟨[], (Freed.nothing rfl rfl).congr (by simp)⟩
  | cons va l ih =>
    intro p
    obtain ⟨L, hL⟩ := Freed.page p va
    obtain ⟨M, hM⟩ := ih (unmapPage p va)
    refine ⟨L ++ M, (hL.trans hM).congr (fun n => ?_)⟩
    simp only [mem_cons, exists_eq_or_imp]

theorem Freed.range (p : Process) (stop : Nat) (hs : PAGE_SIZE ∣ start) :
    ∃ L, Freed (Within start stop) p (unmapPages p start stop) L := by
  obtain ⟨L, hL⟩ := Freed.pages (pagesOf start stop) p
  refine ⟨L, hL.congr (fun n => ?_)⟩
  obtain ⟨k, rfl⟩ := hs
  simp only [pagesOf, List.mem_map, List.mem_range]
  unfold Within PAGE_SIZE
  constructor
  · rintro ⟨va, ⟨i, hi, rfl⟩, rfl⟩
    omega
  · rintro ⟨h1, h2⟩
    exact ⟨n * 4096, ⟨n - k, by omega, by omega⟩, by omega⟩

theorem decommitOne_freed (h : Shape p.vads) {v : Vad} (hv : p.vads[i]? = some v) :
    ∃ L, Freed (fun n => v.state = .committed ∧ Within v.start v.stop n) p (decommitOne p i) L := by
  unfold decommitOne
  rw [hv]
  simp only
  by_cases hst : v.state = .committed
  · rw [if_pos hst]
    obtain ⟨L, hL⟩ := Freed.range p v.stop (h.ok v (mem_of_getElem? hv)).start_page
    have hL' := hL.congr (T := fun n => v.state = .committed ∧ Within v.start v.stop n)
      (fun n => by simp [hst])
    exact ⟨L, hL'.gone, hL'.rest, hL'.log, hL'.mapped, hL'.all, hL'.once⟩
  · rw [if_neg hst]
    refine ⟨[], Freed.congr (S := fun _ => False) (Freed.nothing rfl rfl) (fun n => ?_)⟩
    simp [hst]

theorem walk_freed (q₀ : Process) (stop : Nat) {a : Nat} (h : Shape p.vads) (hle : start ≤ a)
    (hold : ∀ w ∈ p.vads, w.state = .committed → w ∈ q₀.vads) :
    ∃ S L, Freed S p (walk decommitOne p a stop) L ∧ ∀ n, S n →
      ∃ w ∈ q₀.vads, w.state = .committed ∧ Within w.start w.stop n ∧ w.start < stop ∧
        start < w.stop := by
  induction p, a using walk.induct decommitOne stop with
  | case1 p a hlt hnone =>
    rw [walk, if_pos hlt, hnone]
    exact ⟨_, [], Freed.nothing rfl rfl, fun n hn => hn.elim⟩
  | case2 p a hlt i v hsome hnone =>
    rw [walk_eq hlt hsome, hnone]
    obtain ⟨L, hL⟩ := decommitOne_freed h (vadFind_some hsome).1
    refine ⟨_, L, hL, fun n hn => ⟨v, hold v (vadFind_mem hsome) hn.1, hn.1, hn.2, ?_⟩⟩
    have := (vadFind_some hsome).2
    omega
  | case3 p a hlt i v hsome j w hnext ih =>
    obtain ⟨hget, hin⟩ := vadFind_some hsome
    rw [walk_eq hlt hsome, hnext]
    obtain ⟨L, hL⟩ := decommitOne_freed h hget
    have hshape := (decommitOne_reshapes p i).shape h
    have hset : (decommitOne p i).vads = p.vads.set i { v with state := .reserved } :=
      decommitOne_visits.vads p i v hget
    obtain ⟨S, M, hM, hS⟩ := ih hshape (by have := vadFind_stop hnext; omega) (by
      intro x hx hst
      rw [hset] at hx
      rcases mem_or_eq_of_mem_set hx with hx | rfl
      · exact hold x hx hst
      · cases hst)
    refine ⟨_, L ++ M, hL.trans hM, fun n hn => ?_⟩
    rcases hn with hn | hn
    · exact ⟨v, hold v (vadFind_mem hsome) hn.1, hn.1, hn.2, by omega, by omega⟩
    · exact hS n hn
  | case4 p a hge =>
    rw [walk, if_neg hge]
    exact ⟨_, [], Freed.nothing rfl rfl, fun n hn => hn.elim⟩

theorem releaseLoop_freed (base i : Nat) (p : Process) (stop : Nat)
    (hdvd : ∀ v ∈ p.vads, PAGE_SIZE ∣ v.start) :
    ∃ S L, Freed S p (releaseLoop base i p stop).1 L ∧ ∀ n, S n →
      ∃ v ∈ p.vads, v.allocBase = base ∧ Within v.start v.stop n := by
  induction p, stop using releaseLoop.induct base i with
  | case1 p stop hnone =>
    rw [releaseLoop_none hnone]
    exact ⟨_, [], Freed.nothing rfl rfl, fun n hn => hn.elim⟩
  | case2 p stop v hsome hb ih =>
    have hmem := mem_of_getElem? hsome
    have hsub : ∀ x ∈ (vadRemoveAt (unmapPages p v.start v.stop) i).vads, x ∈ p.vads := by
      intro x hx
      simp only [vadRemoveAt, unmapPages_vads, mem_append] at hx
      exact hx.elim mem_of_mem_take mem_of_mem_drop
    obtain ⟨S, M, hM, hS⟩ := ih (fun x hx => hdvd x (hsub x hx))
    obtain ⟨L, hL⟩ := Freed.range p v.stop (hdvd v hmem)
    have hL' : Freed (Within v.start v.stop) p (vadRemoveAt (unmapPages p v.start v.stop) i) L :=
      ⟨hL.gone, hL.rest, hL.log, hL.mapped, hL.all, hL.once⟩
    rw [releaseLoop_some hsome, if_pos hb]
    refine ⟨_, L ++ M, hL'.trans hM, fun n hn => ?_⟩
    rcases hn with hn | hn
    · exact ⟨v, hmem, hb, hn⟩
    · obtain ⟨x, hx, hrest⟩ := hS n hn
      exact ⟨x, hsub x hx, hrest⟩
  | case3 p stop v hsome hb =>
    rw [releaseLoop_some hsome, if_neg hb]
    exact ⟨_, [], Freed.nothing rfl rfl, fun n hn => hn.elim⟩

/-- The pages that a free gives back, and what it leaves behind. -/
structure FreesOwn (p q : Process) : Prop where
  steady : Steady p q
  freed : ∃ S L, Freed S p q L ∧
    ∀ n, S n → (p.pml4 n).isSome → ∃ k, k ≠ .view ∧ kindAt p.vads n = some k

theorem FreesOwn.nothing (p : Process) : FreesOwn p p :=
  ⟨.refl p, _, [], Freed.nothing rfl rfl, fun _ h => h.elim⟩

/-- What a decommit needs: it loses no mapped page of a view, and its range meets
no mapped page of a committed view. -/
def FreeKeeps (p : Process) (base size type : Nat) (kz kz' : Bool) : Prop :=
  let start := pageFloor base
  let stop := up (add64 base size)
  base ≠ 0 → type = MEM_DECOMMIT →
    (∀ v ∈ p.vads, v.start ≤ base → base < v.stop → v.kind ≠ .view) → size ≠ 0 → start < stop →
    (∀ n, Within start stop n → (pageMap p.vads n).Described) →
    ViewsUncut p start stop kz kz' ∧
      ∀ n, Within start stop n → (p.pml4 n).isSome → (pageMap p.vads n).Committed →
        kindAt p.vads n ≠ some .view

/-- A release unmaps descriptors of one allocation, which is no view. -/
theorem release_frees (h : Sound p) {v : Vad} (hv : vadFind p.vads base = some (i, v))
    (hb : v.allocBase = base) (hnv : v.kind ≠ .view) :
    FreesOwn p (releaseLoop base (vadLower p.vads v.start) p v.start).1 := by
  have hrel := h.release hv hb
  obtain ⟨S, L, hL, hS⟩ := releaseLoop_freed base (vadLower p.vads v.start) p v.start
    (fun x hx => (h.shape.ok x hx).start_page)
  have hkind : ∀ x ∈ p.vads, x.allocBase = base → x.kind ≠ .view := by
    intro x hx hxb hxk
    exact hnv ((h.shape.view x hx v (vadFind_mem hv) (hxb.trans hb.symm)).1 hxk)
  refine ⟨⟨fun n e' he' => ?_, fun n _ hn => ?_⟩, S, L, hL, fun n hn _ => ?_⟩
  · by_cases hs : S n
    · rw [hL.gone n hs] at he'
      cases he'
    · exact ⟨e', hL.rest n hs ▸ he', rfl⟩
  · obtain ⟨x, hx, hin, hxk⟩ := look_mem hn
    rw [kindAt, look, hrel, spanAt_filter h.shape.ordered,
      (spanAt_iff h.shape.ordered).2 ⟨hx, hin⟩]
    have hne : x.allocBase ≠ base := fun hxb => hkind x hx hxb hxk
    simp [Option.filter, hne, hxk]
  · obtain ⟨x, hx, hxb, hin⟩ := hS n hn
    exact ⟨x.kind, hkind x hx hxb, h.shape.look_eq hx hin⟩

/-- A decommit of a range whose ends are boundaries. -/
theorem decommit_frees {stop : Nat} (hst : Steady p q) (hshape : Shape q.vads) (hmap : pageMap q.vads = pageMap p.vads)
    (hlook : look Vad.kind q.vads = look Vad.kind p.vads) (hpml4 : q.pml4 = p.pml4)
    (hfreed : q.freed = p.freed) (hns : ¬Straddles q.vads start) (hne : ¬Straddles q.vads stop)
    (hclean : ∀ n, Within start stop n → (p.pml4 n).isSome → (pageMap p.vads n).Committed →
      kindAt p.vads n ≠ some .view) :
    FreesOwn p (vadCoalesce (walk decommitOne q start stop)) := by
  have hw := (walk_reshapes decommitOne_reshapes q start stop).shape hshape
  obtain ⟨S, L, hL, hS⟩ := walk_freed q stop hshape (le_refl start) (fun w hw _ => hw)
  have hc := vadCoalesce_pages (walk decommitOne q start stop)
  refine ⟨(hst.trans (walk_steady decommitOne_steady q _ _)).trans hw.coalesce_steady,
    S, L, ⟨fun n hn => ?_, fun n hn => ?_, ?_, hpml4 ▸ hL.mapped, hpml4 ▸ hL.all, hpml4 ▸ hL.once⟩,
    fun n hn hsome => ?_⟩
  · rw [hc.1]
    exact hL.gone n hn
  · rw [hc.1, hL.rest n hn, hpml4]
  · rw [hc.2, hL.log, hfreed]
  · obtain ⟨w, hw, hwst, hin, hlo, hhi⟩ := hS n hn
    have hkw : kindAt p.vads n = some w.kind := by
      rw [kindAt, ← hlook]
      exact hshape.look_eq hw hin
    -- the ends of the range are boundaries, so the descriptor lies inside it
    have hstart : start ≤ w.start := by
      by_contra hc
      exact hns ⟨w, hw, by omega, hhi⟩
    have hstop : w.stop ≤ stop := by
      by_contra hc
      exact hne ⟨w, hw, hlo, by omega⟩
    refine ⟨w.kind, fun hwk => ?_, hkw⟩
    refine hclean n ⟨le_trans hstart hin.1, lt_of_lt_of_le hin.2 hstop⟩ hsome ?_ (hwk ▸ hkw)
    rw [← hmap, hshape.pageMap_eq hw hin, Vad.page, if_pos hwst]
    exact ⟨_, _, rfl⟩

theorem free_frees (h : Sound p) (hk : FreeKeeps p base size type kz kz') :
    FreesOwn p (vadFree p base size type kz kz').proc := by
  unfold vadFree
  simp only
  split
  · exact .nothing p
  rename_i h0
  split
  · exact .nothing p
  rename_i hview
  split
  · split
    · exact .nothing p
    · rename_i i v hv
      split
      · exact .nothing p
      rename_i hb
      split
      · exact .nothing p
      · refine release_frees h hv (by simpa using hb) ?_
        rw [hv] at hview
        simpa using hview
  split
  · rename_i htype
    split
    · exact .nothing p
    rename_i hargs
    rw [not_or, Nat.not_le] at hargs
    split
    · exact .nothing p
    rename_i hcov
    have hall := (h.shape.covered_described _ (pageFloor_dvd base)).1 (by simpa using hcov)
    have hnoview : ∀ v ∈ p.vads, v.start ≤ base → base < v.stop → v.kind ≠ .view := by
      intro v hv hlo hhi hkv
      obtain ⟨i, hi⟩ := (h.shape.find_iff base v).2 ⟨hv, hlo, hhi⟩
      rw [hi] at hview
      simp [hkv] at hview
    obtain ⟨huncut, hclean⟩ := hk h0 htype hnoview hargs.1 hargs.2 hall
    have hpages : ∀ q b, vadSplit p (pageFloor base) kz = (b, q) →
        q.pml4 = p.pml4 ∧ q.freed = p.freed := by
      intro q b hq
      have := vadSplit_pages p (pageFloor base) kz
      rwa [hq] at this
    rcases h.shape.splits_steady hargs.2 (pageFloor_dvd base) (up_dvd _) huncut with
      ⟨q, hq, hst⟩ | ⟨q, q', hq, hq', hst⟩ |
      ⟨q, q', hq, hq', hst, hshape, hmap, hlook, hpml4, hfreed, hns, hne⟩
    · simp only [hq]
      obtain ⟨hm, hf⟩ := hpages q _ hq
      exact ⟨hst, _, [], Freed.nothing hm hf, fun _ hn => hn.elim⟩
    · simp only [hq, hq']
      obtain ⟨hm, hf⟩ := hpages q _ hq
      have hp' := vadSplit_pages q (up (add64 base size)) kz'
      rw [hq'] at hp'
      exact ⟨hst, _, [], Freed.nothing (hp'.1.trans hm) (hp'.2.trans hf), fun _ hn => hn.elim⟩
    · simp only [hq, hq']
      exact decommit_frees hst hshape hmap hlook hpml4 hfreed hns hne hclean
  · exact .nothing p

/-! ### The invariant -/

/-- Who holds the mapped frames. -/
structure Owned (m : Machine) : Prop where
  sound : Sound m.proc
  maps : ∀ n e, m.proc.pml4 n = some e →
    m.owner e.pa = .own ∨ (m.owner e.pa = .view ∧ kindAt m.proc.vads n = some .view)
  once : ∀ n n' e e', m.proc.pml4 n = some e → m.proc.pml4 n' = some e' → e.pa = e'.pa →
    m.owner e.pa = .own → n = n'
  reading : ∀ r ∈ m.reading, m.owner r.pa = .own ∧ ∀ n e, m.proc.pml4 n = some e → e.pa ≠ r.pa
  readings : (m.reading.map Reading.pa).Nodup
  sections : ∀ sec idx pa, m.section_page sec idx = some pa → m.owner pa = .view
  cow : ∀ v ∈ m.views, ∀ c ∈ v.cow, m.owner c.2 = .view

theorem Owned.ne_free (h : Owned m) {n : Nat} {e : Pte} (he : m.proc.pml4 n = some e) :
    m.owner e.pa ≠ .free := by
  rcases h.maps n e he with ho | ⟨ho, -⟩ <;> rw [ho] <;> decide

theorem Owned.steady (h : Owned m) (hq : Sound q) (hst : Steady m.proc q) :
    Owned { m with proc := q } where
  sound := hq
  maps := by
    intro n e' he'
    obtain ⟨e, he, hpa⟩ := hst.maps n e' he'
    show m.owner e'.pa = .own ∨ _
    rw [← hpa]
    refine (h.maps n e he).imp id (fun ho => ⟨ho.1, hst.views n ?_ ho.2⟩)
    show (q.pml4 n).isSome
    rw [show q.pml4 n = some e' from he']
    rfl
  once := by
    intro n n' e₁ e₁' he₁ he₁' hpa ho
    obtain ⟨e, he, hep⟩ := hst.maps n e₁ he₁
    obtain ⟨e', he', hep'⟩ := hst.maps n' e₁' he₁'
    exact h.once n n' e e' he he' (by rw [hep, hep', hpa]) (by rw [hep]; exact ho)
  reading := by
    intro r hr
    refine ⟨(h.reading r hr).1, fun n e' he' => ?_⟩
    obtain ⟨e, he, hpa⟩ := hst.maps n e' he'
    rw [← hpa]
    exact (h.reading r hr).2 n e he
  readings := h.readings
  sections := h.sections
  cow := h.cow

@[simp] theorem hold_owner_self (m : Machine) (pa : Nat) (o : Owner) :
    (m.hold pa o).owner pa = o := by
  simp [Machine.hold]

theorem Owned.reown (h : Owned m) {o : Nat → Owner}
    (hsame : ∀ pa, o pa ≠ m.owner pa → (∀ n e, m.proc.pml4 n = some e → e.pa ≠ pa) ∧
      (∀ r ∈ m.reading, r.pa ≠ pa) ∧ m.owner pa ≠ .view) : Owned { m with owner := o } where
  sound := h.sound
  maps := by
    intro n e he
    have heq : o e.pa = m.owner e.pa := by
      by_contra hne
      exact (hsame _ hne).1 n e he rfl
    show o e.pa = .own ∨ (o e.pa = .view ∧ _)
    rw [heq]
    exact h.maps n e he
  once := by
    intro n n' e e' he he' hpa ho
    have heq : o e.pa = m.owner e.pa := by
      by_contra hne
      exact (hsame _ hne).1 n e he rfl
    exact h.once n n' e e' he he' hpa (heq.symm.trans ho)
  reading := by
    intro r hr
    have heq : o r.pa = m.owner r.pa := by
      by_contra hne
      exact (hsame _ hne).2.1 r hr rfl
    exact ⟨heq.trans (h.reading r hr).1, (h.reading r hr).2⟩
  readings := h.readings
  sections := by
    intro sec idx pa hs
    have ho := h.sections sec idx pa hs
    by_contra hne
    exact (hsame pa (fun heq => hne (heq.trans ho))).2.2 ho
  cow := by
    intro v hv c hc
    have ho := h.cow v hv c hc
    by_contra hne
    exact (hsame c.2 (fun heq => hne (heq.trans ho))).2.2 ho

theorem Owned.hold (h : Owned m) (hmap : ∀ n e, m.proc.pml4 n = some e → e.pa ≠ pa)
    (hread : ∀ r ∈ m.reading, r.pa ≠ pa) (hview : m.owner pa ≠ .view) (o : Owner) :
    Owned (m.hold pa o) := by
  refine h.reown (fun pa' hne => ?_)
  have heq : pa' = pa := by
    by_contra hpa
    exact hne (update_of_ne hpa o m.owner)
  rw [heq]
  exact ⟨hmap, hread, hview⟩

theorem Owned.unused (h : Owned m) (hpa : m.owner pa = .free) :
    (∀ n e, m.proc.pml4 n = some e → e.pa ≠ pa) ∧ ∀ r ∈ m.reading, r.pa ≠ pa := by
  constructor
  · intro n e he heq
    exact h.ne_free he (heq ▸ hpa)
  · intro r hr heq
    have ho := (h.reading r hr).1
    rw [heq, hpa] at ho
    cases ho

theorem Owned.map (h : Owned m) {va : Nat} {e : Pte}
    (he : (m.owner e.pa = .own ∧ (∀ n e', m.proc.pml4 n = some e' → e'.pa ≠ e.pa) ∧
        ∀ r ∈ m.reading, r.pa ≠ e.pa) ∨
      (m.owner e.pa = .view ∧ kindAt m.proc.vads (va / PAGE_SIZE) = some .view)) :
    Owned (m.map va e) := by
  have hcases : ∀ {n e'}, (m.map va e).proc.pml4 n = some e' →
      (n = va / PAGE_SIZE ∧ e' = e) ∨ (n ≠ va / PAGE_SIZE ∧ m.proc.pml4 n = some e') := by
    intro n e' he'
    by_cases hn : n = va / PAGE_SIZE
    · subst hn
      left
      simpa [Machine.map, vmMap, eq_comm] using he'
    · right
      exact ⟨hn, by simpa [Machine.map, vmMap, update_of_ne hn] using he'⟩
  refine ⟨⟨h.sound.shape, h.sound.hint⟩, ?_, ?_, ?_, h.readings, h.sections, h.cow⟩
  · intro n e' he'
    rcases hcases he' with ⟨rfl, rfl⟩ | ⟨-, hold⟩
    · exact he.imp And.left id
    · exact h.maps n e' hold
  · intro n n' e₁ e₂ h₁ h₂ hpa ho
    rcases hcases h₁ with ⟨rfl, rfl⟩ | ⟨hn, hold⟩ <;> rcases hcases h₂ with ⟨rfl, rfl⟩ | ⟨hn', hold'⟩
    · rfl
    · rcases he with ⟨-, hne, -⟩ | ⟨hv, -⟩
      · exact absurd hpa.symm (hne n' e₂ hold')
      · rw [show (m.map va e₁).owner e₁.pa = m.owner e₁.pa from rfl, hv] at ho
        cases ho
    · rcases he with ⟨-, hne, -⟩ | ⟨hv, -⟩
      · exact absurd hpa (hne n e₁ hold)
      · rw [hpa, show (m.map va e₂).owner e₂.pa = m.owner e₂.pa from rfl, hv] at ho
        cases ho
    · exact h.once n n' e₁ e₂ hold hold' hpa ho
  · intro r hr
    refine ⟨(h.reading r hr).1, fun n e' he' => ?_⟩
    rcases hcases he' with ⟨rfl, rfl⟩ | ⟨-, hold⟩
    · rcases he with ⟨-, -, hne⟩ | ⟨hv, -⟩
      · exact fun heq => hne r hr heq.symm
      · intro heq
        have ho := (h.reading r hr).1
        rw [← heq, hv] at ho
        cases ho
    · exact (h.reading r hr).2 n e' hold

theorem Owned.setProt (h : Owned m) {v : Vad} (hv : m.proc.vads[i]? = some v) (prot : Nat) :
    Owned (m.setProt i v prot) :=
  h.steady (h.sound.edit (set_reshapes hv rfl rfl rfl Iff.rfl) rfl) (steady_set hv rfl rfl rfl)

theorem pmmAlloc_some (h : pmmAlloc m fr new = some (pa, m')) :
    m.owner pa = .free ∧ m' = m.hold pa new := by
  unfold pmmAlloc at h
  cases fr with
  | none => cases h
  | some pa' =>
    simp only at h
    split at h
    · rename_i hfree
      obtain ⟨rfl, rfl⟩ := h
      exact ⟨hfree, rfl⟩
    · cases h

theorem Owned.alloc (h : Owned m) (hm : pmmAlloc m fr new = some (pa, m')) :
    Owned m' ∧ m'.owner pa = new ∧ m'.proc = m.proc ∧ m'.views = m.views ∧
      m'.reading = m.reading ∧ (∀ n e, m.proc.pml4 n = some e → e.pa ≠ pa) ∧
      ∀ r ∈ m.reading, r.pa ≠ pa := by
  obtain ⟨hfree, rfl⟩ := pmmAlloc_some hm
  obtain ⟨hmap, hread⟩ := h.unused hfree
  exact ⟨h.hold hmap hread (by rw [hfree]; decide) new, hold_owner_self m pa new, rfl, rfl, rfl,
    hmap, hread⟩

/-! ### Faults -/

theorem Owned.sectionPage (h : Owned m) {sec : Nat} {leaf : Bool}
    (hm : sectionPage m sec idx leaf fr = some (pa, m')) :
    Owned m' ∧ m'.owner pa = .view ∧ m'.proc = m.proc ∧ m'.views = m.views := by
  unfold Kernel64.sectionPage at hm
  split at hm
  · cases hm
  · split at hm
    · rename_i pa' hs
      simp only [some.injEq, Prod.mk.injEq] at hm
      obtain ⟨rfl, rfl⟩ := hm
      exact ⟨h, h.sections sec idx pa' hs, rfl, rfl⟩
    · split at hm
      · cases hm
      · split at hm
        · cases hm
        · rename_i pa' m₁ ha
          obtain ⟨rfl, rfl⟩ := hm
          obtain ⟨ho, hown, hproc, hviews, -⟩ := h.alloc ha
          refine ⟨⟨ho.sound, ho.maps, ho.once, ho.reading, ho.readings, ?_, ho.cow⟩, hown, hproc,
            hviews⟩
          intro s i p' hs
          by_cases hsec : s = sec
          · subst hsec
            simp only [update_self] at hs
            by_cases hi : i = idx
            · subst hi
              simp only [update_self, some.injEq] at hs
              exact hs ▸ hown
            · rw [update_of_ne hi] at hs
              exact ho.sections s i p' hs
          · simp only [update_of_ne hsec] at hs
            exact ho.sections s i p' hs

theorem cowLookup_mem {v : View} (h : cowLookup v idx = some pa) : ∃ c ∈ v.cow, c.2 = pa := by
  unfold cowLookup at h
  rw [map_eq_some_iff] at h
  obtain ⟨c, hc, rfl⟩ := h
  exact ⟨c, mem_of_find?_eq_some hc, rfl⟩

theorem Owned.viewPage (h : Owned m) {v : View} {r : Except FaultStatus Nat} (hv : v ∈ m.views)
    (hm : viewPage m i v idx prot write s = (r, m')) :
    Owned m' ∧ m'.proc = m.proc ∧ ∀ pa, r = .ok pa → m'.owner pa = .view := by
  unfold Kernel64.viewPage at hm
  split at hm
  · rename_i pa hpa
    obtain ⟨rfl, rfl⟩ := hm
    refine ⟨h, rfl, fun pa' he => ?_⟩
    obtain ⟨c, hc, rfl⟩ := cowLookup_mem hpa
    cases he
    exact h.cow v hv c hc
  · split at hm
    · simp only [Prod.mk.injEq] at hm
      obtain ⟨rfl, rfl⟩ := hm
      exact ⟨h, rfl, fun _ he => by cases he⟩
    · rename_i spa m₁ hs
      obtain ⟨ho, hown, hproc, hviews⟩ := h.sectionPage hs
      split at hm
      · split at hm
        · simp only [Prod.mk.injEq] at hm
          obtain ⟨rfl, rfl⟩ := hm
          exact ⟨ho, hproc, fun _ he => by cases he⟩
        · split at hm
          · simp only [Prod.mk.injEq] at hm
            obtain ⟨rfl, rfl⟩ := hm
            exact ⟨ho, hproc, fun _ he => by cases he⟩
          · rename_i pa m₂ ha
            obtain ⟨rfl, rfl⟩ := hm
            obtain ⟨ho', hown', hproc', hviews', -⟩ := ho.alloc ha
            refine ⟨⟨ho'.sound, ho'.maps, ho'.once, ho'.reading, ho'.readings, ho'.sections, ?_⟩,
              hproc'.trans hproc, fun pa' he => by cases he; exact hown'⟩
            intro w hw c hc
            rcases mem_or_eq_of_mem_set hw with hw | rfl
            · exact ho'.cow w hw c hc
            · rcases mem_cons.1 hc with rfl | hc
              · exact hown'
              · exact ho'.cow v (by rw [hviews', hviews]; exact hv) c hc
      · simp only [Prod.mk.injEq] at hm
        obtain ⟨rfl, rfl⟩ := hm
        exact ⟨ho, hproc, fun pa' he => by cases he; exact hown⟩

theorem protToPtflags_pa (prot pa : Nat) : (protToPtflags prot pa).pa = pa := by
  unfold protToPtflags
  simp only
  split <;> rfl

theorem Owned.viewFault (h : Owned m) {di : Nat} {d : Vad} {exec : Bool}
    (hd : m.proc.vads[di]? = some d) (hk : d.kind = .view)
    (hin : d.start ≤ pageFloor addr ∧ pageFloor addr < d.stop) :
    Owned (viewFault m di d addr write exec s).2 := by
  unfold Kernel64.viewFault
  split
  · exact h
  rename_i i v hv
  have hvm : v ∈ m.views := by
    unfold viewAt at hv
    simp only [map_eq_some_iff, Prod.mk.injEq] at hv
    obtain ⟨w, hw, -, rfl⟩ := hv
    exact mem_of_getElem? hw
  simp only
  split
  · exact h
  split
  · exact h.setProt hd _
  split
  · exact h
  split
  · exact h
  split
  · exact h
  split
  · rename_i st m₁ hm
    exact (h.viewPage hvm hm).1
  · rename_i pa m₁ hm
    obtain ⟨ho, hproc, hown⟩ := h.viewPage hvm hm
    -- the old entry goes
    have hcleared : Owned { m₁ with proc := { m₁.proc with
        pml4 := update m₁.proc.pml4 (pageFloor addr / PAGE_SIZE) none } } :=
      ho.steady (ho.sound.edit .refl rfl) (steady_update (by simp))
    split
    · refine hcleared.map (.inr ⟨?_, ?_⟩)
      · split
        · simp only [protToPtflags_pa]
          exact hown pa rfl
        · rw [protToPtflags_pa]
          exact hown pa rfl
      · show kindAt m₁.proc.vads (pageFloor addr / PAGE_SIZE) = some .view
        rw [hproc, ← hk]
        exact h.sound.shape.look_eq (mem_of_getElem? hd)
          (within_of_dvd (pageFloor_dvd addr) hin.1 hin.2)
    · exact hcleared

theorem Owned.ldrImageFault (h : Owned m) {v : Vad} : Owned (ldrImageFault m v addr s).2 := by
  unfold Kernel64.ldrImageFault
  simp only
  split
  · exact h
  split
  · exact h
  split
  · exact h
  · rename_i pa m₁ ha
    obtain ⟨ho, hown, hproc, -, hread, hmap, hnew⟩ := h.alloc ha
    refine ⟨ho.sound, ho.maps, ho.once, ?_, ?_, ho.sections, ho.cow⟩
    · intro r hr
      rcases mem_cons.1 hr with rfl | hr
      · exact ⟨hown, fun n e he => hmap n e (hproc ▸ he)⟩
      · exact ho.reading r hr
    · rw [map_cons, nodup_cons]
      refine ⟨fun hmem => ?_, ho.readings⟩
      obtain ⟨r, hr, hpa⟩ := mem_map.1 hmem
      exact hnew r (hread ▸ hr) hpa

/-- The frame of a reading that has ended is held by nobody else. -/
theorem Owned.dropReading (h : Owned m) {k : Nat} {r : Reading} (hr : m.reading[k]? = some r) :
    Owned { m with reading := m.reading.eraseIdx k } ∧
      m.owner r.pa = .own ∧ (∀ n e, m.proc.pml4 n = some e → e.pa ≠ r.pa) ∧
      ∀ r' ∈ m.reading.eraseIdx k, r'.pa ≠ r.pa := by
  obtain ⟨l, l', hlr, rfl⟩ := split_of_getElem? hr
  have herase : m.reading.eraseIdx l.length = l ++ l' := by
    rw [hlr, eraseIdx_append_of_length_le le_rfl, Nat.sub_self, eraseIdx_cons_zero]
  have hmem := h.reading r (mem_of_getElem? hr)
  have hnd := h.readings
  rw [hlr, map_append, map_cons, perm_middle.nodup_iff, nodup_cons] at hnd
  rw [herase]
  refine ⟨⟨h.sound, h.maps, h.once, fun r' hr' => ?_, ?_, h.sections, h.cow⟩, hmem.1, hmem.2,
    fun r' hr' heq => hnd.1 ?_⟩
  · refine h.reading r' ?_
    rw [hlr]
    simp only [mem_append, mem_cons] at hr' ⊢
    tauto
  · rw [map_append]
    exact hnd.2
  · rw [← map_append]
    exact mem_map.2 ⟨r', hr', heq⟩

theorem Owned.ldrImageRead (h : Owned m) (k : Nat) (ok retired mapped : Bool) :
    Owned (ldrImageRead m k ok retired mapped).2 := by
  unfold Kernel64.ldrImageRead
  split
  · exact h
  rename_i r hr
  obtain ⟨ho, hown, hmap, hread⟩ := h.dropReading hr
  have hback : Owned (({ m with reading := m.reading.eraseIdx k } : Machine).release r.pa) :=
    ho.hold hmap hread (by rw [show ({ m with reading := m.reading.eraseIdx k } : Machine).owner
      r.pa = m.owner r.pa from rfl, hown]; decide) .free
  simp only
  split
  · exact hback
  split
  · exact hback
  split
  · exact hback
  split
  · exact hback
  split
  · exact hback
  · refine ho.map (.inl ?_)
    rw [protToPtflags_pa]
    exact ⟨hown, hmap, hread⟩

theorem Owned.fault (h : Owned m) (addr : Nat) (write exec : Bool) (s : Supply) :
    Owned (userFaultIn m addr write exec s).2 := by
  unfold userFaultIn
  split
  · exact h
  split
  · exact h
  split
  · exact h
  rename_i i v hv
  obtain ⟨hget, hin⟩ := vadFind_some hv
  simp only
  split
  · exact h
  split
  · rename_i hk
    exact h.viewFault hget hk hin
  split
  · exact h
  split
  · exact h.setProt hget _
  split
  · exact h
  split
  · exact h
  split
  · rename_i e he
    split
    · exact h.steady (h.sound.edit .refl rfl)
        (steady_update (fun e' h' => ⟨e, he, by rw [← some.inj h', protToPtflags_pa]⟩))
    · exact h
  · rename_i hnone
    split
    · exact h.ldrImageFault
    · split
      · exact h
      · rename_i pa m₁ ha
        obtain ⟨ho, hown, hproc, -, hread, hmap, hnew⟩ := h.alloc ha
        split
        · refine ho.map (.inl ?_)
          rw [protToPtflags_pa]
          exact ⟨hown, fun n e he => hmap n e (hproc ▸ he), hread ▸ hnew⟩
        · exact ho.hold (fun n e he => hmap n e (hproc ▸ he)) (hread ▸ hnew)
            (by rw [hown]; decide) .free

/-! ### Runs -/

/-- No mapped frame is free. -/
def NoStale (m : Machine) : Prop := ∀ n e, m.proc.pml4 n = some e → m.owner e.pa ≠ .free

/-- The frames that a `vad_free` call frees were mapped in descriptors that are no
views, belong to no section and no view, and were held; none is freed twice, and
none is still mapped afterwards. -/
structure FreesOk (m : Machine) (base size type : Nat) (kz kz' : Bool) : Prop where
  mapped : ∀ pa ∈ freedBy m.proc base size type kz kz', ∃ n e, m.proc.pml4 n = some e ∧
    e.pa = pa ∧ ∃ k, k ≠ .view ∧ kindAt m.proc.vads n = some k
  held : ∀ pa ∈ freedBy m.proc base size type kz kz', m.owner pa = .own
  section_free : ∀ pa ∈ freedBy m.proc base size type kz kz', ∀ sec idx,
    m.section_page sec idx ≠ some pa
  cow_free : ∀ pa ∈ freedBy m.proc base size type kz kz', ∀ v ∈ m.views, ∀ c ∈ v.cow, c.2 ≠ pa
  once : (freedBy m.proc base size type kz kz').Nodup
  unmapped : ∀ n e, (vadFree m.proc base size type kz kz').proc.pml4 n = some e →
    e.pa ∉ freedBy m.proc base size type kz kz'

/-- What a step needs of the state it is made in. -/
def Meets (m : Machine) : Event → Prop
  | .alloc base size type prot kind kz kz' =>
    Admitted m.proc (.alloc base size type prot kind kz kz') ∧
      AllocKeeps m.proc base size type prot kz kz'
  | .free base size type kz kz' => FreeKeeps m.proc base size type kz kz'
  | .protect base size newProt kz kz' => ProtectKeeps m.proc base size newProt kz kz'
  | .fault .. => True
  | .imageRead .. => True
  | .other _ => True

def Machine.run (m : Machine) (evs : List Event) : Machine := evs.foldl Machine.step m

/-- Each step of the run meets its condition where it is made. -/
def RunMeets : Machine → List Event → Prop
  | _, [] => True
  | m, e :: evs => Meets m e ∧ RunMeets (m.step e) evs

theorem Owned.freesOk (h : Owned m) (hk : FreeKeeps m.proc base size type kz kz') :
    FreesOk m base size type kz kz' := by
  obtain ⟨-, S, L, hL, hS⟩ := free_frees h.sound hk
  have hfreed : freedBy m.proc base size type kz kz' = L := by
    rw [freedBy, hL.log, drop_left]
  -- a page freed is not a view's page, so its frame is the process's own
  have hown : ∀ n e, S n → m.proc.pml4 n = some e → m.owner e.pa = .own := by
    intro n e hn he
    obtain ⟨k, hk, hkind⟩ := hS n hn (by rw [he]; rfl)
    rcases h.maps n e he with ho | ⟨-, hv⟩
    · exact ho
    · rw [hkind] at hv
      exact absurd (some.inj hv) hk
  have hheld : ∀ pa ∈ L, m.owner pa = .own := by
    intro pa hpa
    obtain ⟨n, e, hn, he, rfl⟩ := hL.mapped pa hpa
    exact hown n e hn he
  refine ⟨?_, ?_, ?_, ?_, ?_, ?_⟩ <;> rw [hfreed]
  · intro pa hpa
    obtain ⟨n, e, hn, he, hep⟩ := hL.mapped pa hpa
    exact ⟨n, e, he, hep, hS n hn (by rw [he]; rfl)⟩
  · exact hheld
  · intro pa hpa sec idx hs
    have ho := h.sections sec idx pa hs
    rw [hheld pa hpa] at ho
    cases ho
  · intro pa hpa v hv c hc heq
    have ho := h.cow v hv c hc
    rw [heq, hheld pa hpa] at ho
    cases ho
  · exact hL.once (fun n n' e e' hn _ he he' hpa => h.once n n' e e' he he' hpa (hown n e hn he))
  · intro n e he hmem
    obtain ⟨n', e', hn', he', hpa⟩ := hL.mapped e.pa hmem
    by_cases hn : S n
    · rw [hL.gone n hn] at he
      cases he
    · rw [hL.rest n hn] at he
      have := h.once n' n e' e he' he hpa (hown n' e' hn' he')
      exact hn (this ▸ hn')

theorem Owned.step {m : Machine} (h : Owned m) {e : Event} (he : Meets m e) : Owned (m.step e) := by
  cases e with
  | fault addr write exec s => exact h.fault addr write exec s
  | imageRead k ok retired mapped => exact h.ldrImageRead k ok retired mapped
  | alloc base size type prot kind kz kz' =>
    exact h.steady (h.sound.vadAlloc he.1) (alloc_steady h.sound he.1 he.2)
  | protect base size newProt kz kz' =>
    exact h.steady (h.sound.vadProtect ..) (protect_steady h.sound he)
  | free base size type kz kz' =>
    have hok := h.freesOk he
    have hq := h.steady (h.sound.vadFree base size type kz kz') (free_frees h.sound he).steady
    refine hq.reown (fun pa hne => ?_)
    have hmem : pa ∈ freedBy m.proc base size type kz kz' := by
      by_contra hno
      rw [if_neg hno] at hne
      exact hne rfl
    refine ⟨fun n e he heq => hok.unmapped n e he (heq ▸ hmem), fun r hr heq => ?_, ?_⟩
    · obtain ⟨n, e, hm, hpa, -⟩ := hok.mapped pa hmem
      exact (h.reading r hr).2 n e hm (hpa.trans heq.symm)
    · rw [show ({ m with proc := (Kernel64.vadFree m.proc base size type kz kz').proc } :
        Machine).owner pa = m.owner pa from rfl, hok.held pa hmem]
      decide
  | other pa =>
    show Owned (m.hold pa (takeOther (m.owner pa)))
    cases ho : m.owner pa with
    | free =>
      obtain ⟨hmap, hread⟩ := h.unused ho
      exact h.hold hmap hread (by rw [ho]; decide) _
    | other =>
      refine h.hold (fun n e he heq => ?_) (fun r hr heq => ?_) (by rw [ho]; decide) _
      · rcases h.maps n e he with hx | ⟨hx, -⟩ <;> rw [heq, ho] at hx <;> cases hx
      · have hx := (h.reading r hr).1
        rw [heq, ho] at hx
        cases hx
    | own =>
      refine h.reown (fun pa' hne => absurd ?_ hne)
      by_cases hpa : pa' = pa
      · rw [hpa, ho]
        simp [takeOther]
      · exact update_of_ne hpa _ _
    | view =>
      refine h.reown (fun pa' hne => absurd ?_ hne)
      by_cases hpa : pa' = pa
      · rw [hpa, ho]
        simp [takeOther]
      · exact update_of_ne hpa _ _

theorem Owned.run : ∀ {evs : List Event} {m : Machine}, Owned m → RunMeets m evs →
    Owned (m.run evs) := by
  intro evs
  induction evs with
  | nil => intro m h _; exact h
  | cons e evs ih => intro m h hr; exact ih (h.step hr.1) hr.2

theorem runMeets_append {pre post : List Event} : ∀ {m : Machine}, RunMeets m (pre ++ post) →
    RunMeets m pre ∧ RunMeets (m.run pre) post := by
  induction pre with
  | nil => intro m h; exact ⟨trivial, h⟩
  | cons e pre ih => intro m h; exact ⟨⟨h.1, (ih h.2).1⟩, (ih h.2).2⟩

/-- **Frames over runs**: in every state of the run no mapped frame is free, and
every `vad_free` of it frees as it should. -/
theorem run_frames {m : Machine} (h : Owned m) (evs : List Event) (hr : RunMeets m evs) :
    (∀ pre post, evs = pre ++ post → NoStale (m.run pre)) ∧
    ∀ pre post base size type kz kz', evs = pre ++ .free base size type kz kz' :: post →
      FreesOk (m.run pre) base size type kz kz' := by
  constructor
  · rintro pre post rfl n e he
    exact (h.run (runMeets_append hr).1).ne_free he
  · rintro pre post base size type kz kz' rfl
    obtain ⟨hpre, hpost⟩ := runMeets_append hr
    exact (h.run hpre).freesOk hpost.1

/-! ### A private range next to a view -/

def rwPage (pa : Nat) : Pte := ⟨pa, true, true, true, false⟩

/-- Sixteen private pages, the first one present, and behind them a view of
sixteen pages, the first one mapped. -/
def neighbours : Machine where
  proc :=
    { vads := [⟨0x10000, 0x20000, .committed, PAGE_READWRITE, .private, PAGE_READWRITE, 0x10000, 0⟩,
        ⟨0x20000, 0x30000, .committed, PAGE_READWRITE, .view, PAGE_READWRITE, 0x20000, 0⟩]
      cap := 64
      mmapHint := 0x10000000
      pml4 := fun n => if n = 0x10 then some (rwPage 1) else if n = 0x20 then some (rwPage 2) else none
      freed := [] }
  teardown := false
  views := [⟨0x20000, 0x10000, 0, 0, []⟩]
  npages := fun _ => 16
  section_page := fun sec idx => if sec = 0 ∧ idx = 0 then some 2 else none
  images := fun _ => (0, 0)
  reading := []
  owner := fun pa => if pa = 1 then .own else if pa = 2 then .view else .free

theorem neighbours_shape : Shape neighbours.proc.vads where
  ok := by
    intro v hv
    simp only [neighbours, mem_cons, not_mem_nil, or_false] at hv
    rcases hv with rfl | rfl <;> constructor <;> decide
  ordered := by simp [neighbours, Ordered]
  runs := by simp [neighbours]
  head := by simp [neighbours]
  base_le := by simp [neighbours]
  view := by simp [neighbours]

theorem neighbours_maps {n : Nat} {e : Pte} (h : neighbours.proc.pml4 n = some e) :
    (n = 0x10 ∧ e = rwPage 1) ∨ (n = 0x20 ∧ e = rwPage 2) := by
  simp only [neighbours] at h
  split at h
  · rename_i hn
    exact .inl ⟨hn, (some.inj h).symm⟩
  · split at h
    · rename_i hn
      exact .inr ⟨hn, (some.inj h).symm⟩
    · cases h

theorem neighbours_owned : Owned neighbours where
  sound := ⟨neighbours_shape, by decide⟩
  maps := by
    intro n e h
    rcases neighbours_maps h with ⟨rfl, rfl⟩ | ⟨rfl, rfl⟩
    · exact .inl rfl
    · exact .inr ⟨rfl, by decide⟩
  once := by
    intro n n' e e' h h' hpa ho
    rcases neighbours_maps h with ⟨rfl, rfl⟩ | ⟨rfl, rfl⟩ <;>
      rcases neighbours_maps h' with ⟨rfl, rfl⟩ | ⟨rfl, rfl⟩
    · rfl
    · cases hpa
    · cases hpa
    · rfl
  reading := by simp [neighbours]
  readings := nodup_nil
  sections := by
    intro sec idx pa h
    simp only [neighbours, ite_none_right_eq_some, some.injEq] at h
    obtain ⟨-, rfl⟩ := h
    rfl
  cow := by simp [neighbours]

/-- A second page of the private range is touched, and both are decommitted. -/
theorem run_frames_private : FreesOk
    (neighbours.run [.fault 0x11000 true false ⟨some 3, none, true, true, true, true⟩])
    0x10000 0x2000 MEM_DECOMMIT true true := by
  refine (run_frames neighbours_owned [
    .fault 0x11000 true false ⟨some 3, none, true, true, true, true⟩,
    .free 0x10000 0x2000 MEM_DECOMMIT true true] ⟨trivial, ?_, trivial⟩).2
      [.fault 0x11000 true false ⟨some 3, none, true, true, true, true⟩] [] _ _ _ _ _ rfl
  intro _ _ _ _ _ _
  refine ⟨.inl (by decide), fun n hn _ _ => ?_⟩
  have hstop : up (add64 0x10000 0x2000) = 0x12000 := by decide
  have hlo := hn.1
  have hhi := hn.2
  unfold pageFloor PAGE_SIZE at *
  obtain rfl | rfl : n = 0x10 ∨ n = 0x11 := by omega
  · decide
  · decide

/-- **A decommit that runs into a view** frees the frame of the section: the
private range is decommitted together with the page behind it. -/
theorem decommit_frees_view :
    ¬∀ m, Owned m → ∀ base size type kz kz', FreesOk m base size type kz kz' := by
  intro h
  have hmem : 2 ∈ freedBy neighbours.proc 0x10000 0x11000 MEM_DECOMMIT true true := by
    decide +kernel
  exact (h neighbours neighbours_owned _ _ _ _ _).section_free 2 hmem 0 0 rfl

end Win98Modern.Kernel64
