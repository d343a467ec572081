import Win98Modern.KernelEx.ThreadPoolSteps
import Mathlib.Data.List.Perm.Subperm
import Win98Modern.Lib.Runs

/-!
# Thread-pool accounting

`accounts_kept`: along every run, the queue holds the objects with pending submissions, there is a permit
or a woken worker for each of them, references are the open handle and the submissions not finished, and
an object is destroyed once, when nothing refers to it any more.
-/

namespace Win98Modern.ThreadPool

open List ThreadPool.System

variable {p : Pool} {s s' : System} {w u i : Nat} {q q' : List Nat} {o o' : Work}

namespace Pool

/-! ### Room -/

theorem length_le_live (hn : q.Nodup) (hq : ∀ w ∈ q, w < p.made ∧ (p.works w).isSome = true) : q.length ≤ p.live := by
  have hsub : q ⊆ (List.range p.made).filter fun w => (p.works w).isSome := fun w hw =>
    mem_filter.2 ⟨mem_range.2 (hq w hw).1, (hq w hw).2⟩
  rw [live, countP_eq_length_filter]
  exact (subperm_of_subset hn hsub).length_le

theorem live_le {p' : Pool} (hmade : p'.made = p.made)
    (hsome : ∀ w, (p'.works w).isSome = true → (p.works w).isSome = true) : p'.live ≤ p.live := by
  rw [live, live, hmade]
  exact countP_mono_left fun w _ => hsome w

theorem live_create (f : Bool) : (p.create f).live ≤ p.live + 1 := by
  have hold : (List.range p.made).countP (fun w => ((p.create f).works w).isSome) = p.live :=
    countP_congr fun w hw => by
      have hne : w ≠ p.made := Nat.ne_of_lt (mem_range.1 hw)
      simp [create, Function.update_of_ne hne]
  show (List.range (p.made + 1)).countP _ ≤ _
  rw [range_succ, countP_append, hold]
  exact Nat.add_le_add_left countP_le_length _

theorem le_release {n k : Nat} (hmax : n + 1 ≤ maxCount) (hn : n ≤ p.semaphore + k) :
    n + 1 ≤ p.release.semaphore + k := by
  unfold release
  split
  case isTrue =>
    show n + 1 ≤ p.semaphore + 1 + k
    omega
  case isFalse => omega

/-! ### Workers -/

theorem active_setWorker {k : Worker} (h : p.workers[i]? = some k) (k' : Worker) (w : Nat) :
    (p.setWorker i k').active w + (k.runs w).toNat = p.active w + (k'.runs w).toNat := countP_set k' h

theorem associated_setWorker {k : Worker} (h : p.workers[i]? = some k) (k' : Worker) (w : Nat) :
    (p.setWorker i k').associated w + (k.runsAssociated w).toNat = p.associated w + (k'.runsAssociated w).toNat :=
  countP_set k' h

theorem woken_setWorker {k : Worker} (h : p.workers[i]? = some k) (k' : Worker) :
    (p.setWorker i k').woken + k.isWoken.toNat = p.woken + k'.isWoken.toNat := countP_set k' h

theorem associated_le (w : Nat) : p.associated w ≤ p.active w :=
  countP_mono_left fun k _ hk => by
    cases k with
    | running a => exact (Bool.and_eq_true_iff.1 hk).1
    | waiting => exact nomatch hk
    | woken => exact nomatch hk

end Pool

/-! ### The invariant -/

structure Inv (s : System) (q : List Nat) : Prop where
  good : ∀ w, Good (decide (w < s.pool.made)) (s.view w)
  queue : Pool.Queue s.pool q
  queued : ∀ w, w ∈ q ↔ ∃ o, s.pool.works w = some o ∧ o.queued = true
  permits : q.length ≤ s.pool.semaphore + s.pool.woken
  room : s.pool.live * workSize ≤ addressSpace
  touched : s.pool.touched = false

theorem good_some (h : Good (decide (w < s.pool.made)) (s.view w)) (hw : s.pool.works w = some o) :
    w < s.pool.made ∧ Live (s.view w) o := by
  have hview : (s.view w).work = some o := hw
  rw [Good, hview] at h
  exact ⟨of_decide_eq_true h.1, h.2⟩

theorem good_none (h : Good (decide (w < s.pool.made)) (s.view w)) (hw : s.pool.works w = none) :
    Gone (s.view w) (decide (w < s.pool.made)) := by
  have hview : (s.view w).work = none := hw
  rwa [Good, hview] at h

theorem good_of_live (hw : s.pool.works w = some o) (hm : w < s.pool.made) (hl : Live (s.view w) o) :
    Good (decide (w < s.pool.made)) (s.view w) := by
  have hview : (s.view w).work = some o := hw
  rw [Good, hview]
  exact ⟨decide_eq_true hm, hl⟩

theorem good_of_gone (hw : s.pool.works w = none) (hg : Gone (s.view w) (decide (w < s.pool.made))) :
    Good (decide (w < s.pool.made)) (s.view w) := by
  have hview : (s.view w).work = none := hw
  rwa [Good, hview]

/-- A step that changes the accounts of one object. -/
theorem Inv.update (h : Inv s q) (hw : s.pool.works w = some o)
    (hworks : s'.pool.works = Function.update s.pool.works w (some o')) (hmade : s'.pool.made = s.pool.made)
    (htouched : s'.pool.touched = s.pool.touched) (hviews : ∀ u ≠ w, s'.view u = s.view u)
    (hlive : Live (s'.view w) o') (hqueue : Pool.Queue s'.pool q')
    (hqueued : ∀ u, u ∈ q' ↔ if u = w then o'.queued = true else u ∈ q)
    (hpermits : q'.length ≤ maxCount → q'.length ≤ s'.pool.semaphore + s'.pool.woken) : Inv s' q' := by
  have hself : s'.pool.works w = some o' := by rw [hworks, Function.update_self]
  have hother : ∀ u ≠ w, s'.pool.works u = s.pool.works u := fun u hu => by rw [hworks, Function.update_of_ne hu]
  have hgood : ∀ u, Good (decide (u < s'.pool.made)) (s'.view u) := by
    intro u
    by_cases hu : u = w
    · subst hu
      exact good_of_live hself (hmade ▸ (good_some (h.good u) hw).1) hlive
    · rw [hviews u hu, hmade]
      exact h.good u
  have hmem : ∀ u, u ∈ q' ↔ ∃ o, s'.pool.works u = some o ∧ o.queued = true := by
    intro u
    rw [hqueued u]
    by_cases hu : u = w
    · subst hu
      rw [if_pos rfl, hself]
      exact ⟨fun hq => ⟨o', rfl, hq⟩, fun ⟨o, ho, hq⟩ => Option.some.inj ho ▸ hq⟩
    · rw [if_neg hu, hother u hu]
      exact h.queued u
  have hroom : s'.pool.live ≤ s.pool.live := Pool.live_le hmade fun u hu => by
    by_cases he : u = w
    · rw [he, hw]
      rfl
    · rwa [hother u he] at hu
  have hlen : q'.length ≤ maxCount := by
    have hle : q'.length ≤ s'.pool.live := Pool.length_le_live hqueue.nodup fun u hu => by
      obtain ⟨o, ho, -⟩ := (hmem u).1 hu
      exact ⟨(good_some (hgood u) ho).1, by rw [ho]; rfl⟩
    have hr := h.room
    simp only [workSize, addressSpace] at hr
    simp only [maxCount]
    omega
  exact ⟨hgood, hqueue, hmem, hpermits hlen, Nat.le_trans (Nat.mul_le_mul_right _ hroom) h.room, htouched.trans h.touched⟩

theorem Inv.same (h : Inv s q) (hworks : s'.pool.works = s.pool.works) (hmade : s'.pool.made = s.pool.made)
    (htouched : s'.pool.touched = s.pool.touched) (hlinks : s'.pool.links = s.pool.links)
    (hlast : s'.pool.last = s.pool.last) (hviews : ∀ u, s'.view u = s.view u)
    (hpermits : q.length ≤ s'.pool.semaphore + s'.pool.woken) : Inv s' q where
  good u := by
    rw [hviews u, hmade]
    exact h.good u
  queue := h.queue.congr hlinks hlast
  queued u := by
    rw [hworks]
    exact h.queued u
  permits := hpermits
  room := by
    have hle : s'.pool.live ≤ s.pool.live := Pool.live_le hmade fun u hu => by rwa [hworks] at hu
    exact Nat.le_trans (Nat.mul_le_mul_right _ hle) h.room
  touched := htouched.trans h.touched

variable {k k' : Worker} {c : Option Nat} {a : Instance} {f : Ledger → Ledger} {p' : Pool}
  {x : Option Work}

theorem runs_of_calls (h : k.calls w = true) : k.runs w = true := by
  cases k with
  | running a => exact (Bool.and_eq_true_iff.1 h).1
  | waiting => exact nomatch h
  | woken => exact nomatch h

theorem Inv.may_use (h : Inv s q) (hm : s.MayUse c w) : ∃ o, s.pool.works w = some o ∧
    ((s.view w).ledger.opened = true ∨ 0 < (s.view w).active) := by
  have huse : (s.view w).ledger.opened = true ∨ 0 < (s.view w).active := by
    rcases hm with hopen | hown
    · exact .inl hopen
    · obtain ⟨k, hk, hcalls⟩ := Option.any_eq_true _ _ |>.1 hown
      obtain ⟨i, -, hi⟩ := Option.bind_eq_some_iff.1 hk
      exact .inr (countP_pos_of_getElem hi (runs_of_calls hcalls))
  cases hw : s.pool.works w with
  | some o => exact ⟨o, rfl, huse⟩
  | none =>
    have hgone := good_none (h.good w) hw
    rcases huse with hopen | hactive
    · exact nomatch hgone.opened.symm.trans hopen
    · exact absurd hgone.active (Nat.ne_of_gt hactive)

theorem Inv.running (h : Inv s q) (hi : s.pool.workers[i]? = some (.running a)) :
    ∃ o, s.pool.works a.work = some o ∧ 0 < (s.view a.work).active := by
  have hactive : 0 < (s.view a.work).active := countP_pos_of_getElem hi (beq_self_eq_true _)
  cases hw : s.pool.works a.work with
  | some o => exact ⟨o, rfl, hactive⟩
  | none => exact absurd (good_none (h.good a.work) hw).active (Nat.ne_of_gt hactive)

theorem Inv.mem_iff (h : Inv s q) (hw : s.pool.works w = some o) : w ∈ q ↔ o.queued = true := by
  rw [h.queued w, hw]
  exact ⟨fun ⟨o', ho, hq⟩ => Option.some.inj ho ▸ hq, fun hq => ⟨o, rfl, hq⟩⟩

/-! ### The views of a step -/

theorem view_other (hworks : s'.pool.works u = s.pool.works u) (hledger : s'.ledger u = s.ledger u)
    (hactive : s'.pool.active u = s.pool.active u) (hassociated : s'.pool.associated u = s.pool.associated u)
    (hdying : s'.pool.dying.count u = s.pool.dying.count u) : s'.view u = s.view u := by
  simp only [view, hworks, hledger, hactive, hassociated, hdying]

theorem note_self (f : Ledger → Ledger) : s.note w f w = f (s.ledger w) := Function.update_self ..

theorem note_other (f : Ledger → Ledger) (hu : u ≠ w) : s.note w f u = s.ledger u := Function.update_of_ne hu _ _

theorem note_id (hf : f (s.ledger w) = s.ledger w) : s.note w f = s.ledger := by
  rw [note, hf, Function.update_eq_self]

theorem view_call (hworks : p'.works = Function.update s.pool.works w x)
    (hworkers : p'.workers = s.pool.workers) : (view ⟨p', s.note w f⟩ w =
      ⟨x, f (s.ledger w), s.pool.active w, s.pool.associated w, p'.dying.count w⟩) ∧
      ∀ u ≠ w, p'.dying.count u = s.pool.dying.count u → view ⟨p', s.note w f⟩ u = s.view u := by
  constructor
  · simp only [view, hworks, Function.update_self, note_self, Pool.active, Pool.associated, hworkers]
  · intro u hu hdying
    simp only [view, hworks, Function.update_of_ne hu, note_other f hu, Pool.active, Pool.associated, hworkers,
      hdying]

/-! ### Calls -/

namespace Pool

theorem release_eq (p : Pool) : p.release = { p with semaphore := p.release.semaphore } := by
  rw [release]
  split <;> rfl

theorem modify_works (hw : p.works w = some o) (f : Work → Work) :
    (p.modify w f).works = Function.update p.works w (some (f o)) := by
  rw [modify, hw, Option.map_some]

theorem push_modify (hw : p.works w = some o) (f : Work → Work) (hq : Queue p q) (hn : w ∉ q) :
    Queue ((p.modify w f).push w) (q ++ [w]) ∧
      ((p.modify w f).push w).works = Function.update p.works w (some { f o with queued := true }) := by
  have hself : (p.modify w f).works w = some (f o) := by rw [modify_works hw, Function.update_self]
  have hmod : Queue (p.modify w f) q := hq.congr rfl rfl
  refine ⟨push_queue hmod hn, ?_⟩
  show ((p.modify w f).modify w _).works = _
  rw [modify_works hself, modify_works hw, Function.update_idem]

theorem submit_refused (hw : p.works w = some o) (hr : o.closed = true ∨ o.pending = 0xffffffff) :
    p.submit w = (p, false) := by
  simp only [submit, hw]
  exact if_pos hr

theorem submit_spec (hw : p.works w = some o) (hq : Queue p q) (hmem : w ∈ q ↔ o.queued = true)
    (hopen : o.closed = false) (hfull : o.pending ≠ 0xffffffff) :
    (p.submit w).2 = true ∧ (p.submit w).1.works = Function.update p.works w (some o.submit) ∧
      (p.submit w).1.workers = p.workers ∧ (p.submit w).1.dying = p.dying ∧ (p.submit w).1.made = p.made ∧
        (p.submit w).1.touched = p.touched ∧
          ∃ q', Queue (p.submit w).1 q' ∧ (∀ u, u ∈ q' ↔ if u = w then True else u ∈ q) ∧
            ∀ k, q'.length ≤ maxCount → q.length ≤ p.semaphore + k → q'.length ≤ (p.submit w).1.semaphore + k := by
  have hrefused : ¬(o.closed = true ∨ o.pending = 0xffffffff) := by simp [hopen, hfull]
  rw [submit, hw]
  dsimp only
  rw [if_neg hrefused]
  by_cases hqueued : o.queued = true
  · rw [if_pos hqueued]
    refine ⟨rfl, ?_, rfl, rfl, rfl, rfl, q, hq.congr rfl rfl, fun u => ?_, fun k _ hk => hk⟩
    · rw [modify_works hw]
      simp only [Work.submit, ← hqueued]
    · by_cases hu : u = w
      · rw [if_pos hu, hu]
        exact iff_of_true (hmem.2 hqueued) trivial
      · rw [if_neg hu]
  · rw [if_neg hqueued, release_eq]
    have hw' : w ∉ q := fun hin => hqueued (hmem.1 hin)
    obtain ⟨hpush, hworks⟩ := push_modify hw (fun o =>
      { o with
        idle := if o.pending = 0 ∧ o.running = 0 then false else o.idle
        pending := o.pending + 1
        references := o.references + 1 }) hq hw'
    refine ⟨rfl, hworks, rfl, rfl, rfl, rfl, q ++ [w], hpush.congr rfl rfl, fun u => ?_, fun k hmax hk => ?_⟩
    · by_cases hu : u = w
      · rw [if_pos hu, hu]
        exact iff_of_true (mem_append_right _ (mem_singleton.2 rfl)) trivial
      · rw [if_neg hu, mem_append, mem_singleton, or_iff_left hu]
    · rw [length_append, length_singleton] at hmax ⊢
      exact le_release hmax hk

end Pool

theorem Inv.submit (h : Inv s q) (hm : s.MayUse c w) : ∃ q', Inv (s.step (.submit c w)) q' := by
  obtain ⟨o, hw, -⟩ := h.may_use hm
  have hlive := (good_some (h.good w) hw).2
  by_cases hr : o.closed = true ∨ o.pending = 0xffffffff
  · have hid : s.step (.submit c w) = s := by
      rw [step, Pool.submit_refused hw hr, note_id (by simp)]
    rw [hid]
    exact ⟨q, h⟩
  · rw [not_or, Bool.not_eq_true] at hr
    obtain ⟨hok, hworks, hworkers, hdying, hmade, htouched, q', hqueue, hmem, hpermits⟩ :=
      Pool.submit_spec hw h.queue (h.mem_iff hw) hr.1 hr.2
    obtain ⟨hself, hother⟩ := view_call (f := fun l => { l with submitted := l.submitted + (s.pool.submit w).2.toNat })
      hworks hworkers
    refine ⟨q', h.update hw hworks hmade htouched (fun u hu => hother u hu (by rw [hdying])) ?_ hqueue ?_ ?_⟩
    · show Live (view ⟨_, s.note w _⟩ w) _
      rw [hself, hok, hdying]
      exact hlive.submit hr.1 hr.2
    · intro u
      rw [hmem u]
      by_cases hu : u = w
      · rw [if_pos hu, if_pos hu]
        exact iff_of_true trivial rfl
      · rw [if_neg hu, if_neg hu]
    · intro hmax
      refine hpermits _ hmax ?_
      show q.length ≤ s.pool.semaphore + List.countP _ (s.pool.submit w).1.workers
      rw [hworkers]
      exact h.permits

namespace Pool

theorem cancel_spec (hw : p.works w = some o) (hq : Queue p q) (hmem : w ∈ q ↔ o.queued = true)
    (hlen : q.length ≤ p.made) :
    (p.cancel w).2 = o.pending ∧ (p.cancel w).1.works = Function.update p.works w (some o.cancel) ∧
      (p.cancel w).1.workers = p.workers ∧ (p.cancel w).1.dying = p.dying ∧ (p.cancel w).1.made = p.made ∧
        (p.cancel w).1.touched = p.touched ∧ (p.cancel w).1.semaphore = p.semaphore ∧
          Queue (p.cancel w).1 (q.erase w) := by
  rw [cancel, hw]
  dsimp only
  by_cases hqueued : o.queued = true
  · obtain ⟨hremove, hworks, hworkers, hdying, hmade, hsem, htouched, -⟩ := remove_spec hq (hmem.2 hqueued) hlen
    rw [if_pos hqueued]
    refine ⟨rfl, ?_, hworkers, hdying, hmade, htouched, hsem, hremove.congr rfl rfl⟩
    rw [hw, Option.map_some] at hworks
    have hself : (p.remove w).works w = some { o with queued := false } := by rw [hworks, Function.update_self]
    rw [modify_works hself, hworks, Function.update_idem]
    rfl
  · have hn : w ∉ q := fun hin => hqueued (hmem.1 hin)
    rw [if_neg hqueued, erase_of_not_mem hn]
    refine ⟨rfl, ?_, rfl, rfl, rfl, rfl, rfl, hq.congr rfl rfl⟩
    rw [modify_works hw]
    simp only [Work.cancel, Bool.not_eq_true _ ▸ hqueued]

theorem close_closed (hw : p.works w = some o) (hc : o.closed = true) : p.close w = (p, false) := by
  simp only [close, hw]
  exact if_pos hc

theorem close_spec (hw : p.works w = some o) (hopen : o.closed = false) :
    (p.close w).2 = true ∧ (p.close w).1.works = Function.update p.works w (some o.close) ∧
      (p.close w).1.workers = p.workers ∧
        (p.close w).1.dying = (if o.references - 1 = 0 then w :: p.dying else p.dying) ∧
          (p.close w).1.made = p.made ∧ (p.close w).1.touched = p.touched ∧
            (p.close w).1.semaphore = p.semaphore ∧ (p.close w).1.links = p.links ∧ (p.close w).1.last = p.last := by
  have hc : ¬o.closed = true := by simp [hopen]
  rw [close, hw]
  dsimp only
  rw [if_neg hc]
  have hworks := modify_works hw fun o => { o with closed := true, references := o.references - 1 }
  by_cases hzero : o.references - 1 = 0
  · rw [if_pos hzero, if_pos hzero]
    exact ⟨rfl, hworks, rfl, rfl, rfl, rfl, rfl, rfl, rfl⟩
  · rw [if_neg hzero, if_neg hzero]
    exact ⟨rfl, hworks, rfl, rfl, rfl, rfl, rfl, rfl, rfl⟩

end Pool

theorem Pool.destroy_spec (hw : p.works w = some o) :
    (p.destroy w).works = Function.update p.works w none ∧ (p.destroy w).workers = p.workers ∧
      (p.destroy w).dying = p.dying.erase w ∧ (p.destroy w).made = p.made ∧ (p.destroy w).touched = p.touched ∧
        (p.destroy w).semaphore = p.semaphore ∧ (p.destroy w).links = p.links ∧ (p.destroy w).last = p.last := by
  rw [destroy, hw]
  exact ⟨rfl, rfl, rfl, rfl, rfl, rfl, rfl, rfl⟩

theorem Inv.length_made (h : Inv s q) : q.length ≤ s.pool.made := by
  have hsub : q ⊆ List.range s.pool.made := fun w hw => by
    obtain ⟨o, ho, -⟩ := (h.queued w).1 hw
    exact mem_range.2 (good_some (h.good w) ho).1
  have hlen := (subperm_of_subset h.queue.nodup hsub).length_le
  rwa [length_range] at hlen

theorem Inv.cancel (h : Inv s q) (hm : s.MayUse c w) : ∃ q', Inv (s.step (.cancel c w)) q' := by
  obtain ⟨o, hw, huse⟩ := h.may_use hm
  have hlive := (good_some (h.good w) hw).2
  obtain ⟨hres, hworks, hworkers, hdying, hmade, htouched, hsem, hqueue⟩ :=
    Pool.cancel_spec hw h.queue (h.mem_iff hw) h.length_made
  obtain ⟨hself, hother⟩ := view_call (f := fun l => { l with cancelled := l.cancelled + (s.pool.cancel w).2 })
    hworks hworkers
  refine ⟨q.erase w, h.update hw hworks hmade htouched (fun u hu => hother u hu (by rw [hdying])) ?_ hqueue ?_ ?_⟩
  · show Live (view ⟨_, s.note w _⟩ w) _
    rw [hself, hres, hdying]
    exact hlive.cancel huse
  · intro u
    by_cases hu : u = w
    · rw [if_pos hu, hu]
      exact iff_of_false h.queue.nodup.not_mem_erase nofun
    · rw [if_neg hu, mem_erase_of_ne hu]
  · intro _
    show (q.erase w).length ≤ (s.pool.cancel w).1.semaphore + List.countP _ (s.pool.cancel w).1.workers
    rw [hworkers, hsem]
    exact Nat.le_trans length_erase_le h.permits

theorem Inv.wait (h : Inv s q) (hm : s.MayUse c w) : s.step (.wait c w) = s := by
  obtain ⟨o, hw, -⟩ := h.may_use hm
  simp only [step, Pool.wait, hw]

theorem Inv.close (h : Inv s q) (hm : s.MayUse c w) : ∃ q', Inv (s.step (.close c w)) q' := by
  obtain ⟨o, hw, -⟩ := h.may_use hm
  have hlive := (good_some (h.good w) hw).2
  cases hc : o.closed with
  | true =>
    have hid : s.step (.close c w) = s := by
      rw [step, Pool.close_closed hw hc, note_id (by simp)]
    rw [hid]
    exact ⟨q, h⟩
  | false =>
    obtain ⟨hres, hworks, hworkers, hdying, hmade, htouched, hsem, hlinks, hlast⟩ := Pool.close_spec hw hc
    obtain ⟨hself, hother⟩ := view_call (f := fun l => { l with opened := l.opened && !(s.pool.close w).2 })
      hworks hworkers
    refine ⟨q, h.update hw hworks hmade htouched (fun u hu => hother u hu ?_) ?_ (h.queue.congr hlinks hlast) ?_ ?_⟩
    · rw [hdying]
      split
      case isTrue => exact count_cons_of_ne fun he => hu he.symm
      case isFalse => rfl
    · have hcount : (s.pool.close w).1.dying.count w = s.pool.dying.count w + if o.references - 1 = 0 then 1 else 0 := by
        rw [hdying]
        split
        case isTrue => exact count_cons_self
        case isFalse => rfl
      show Live (view ⟨_, s.note w _⟩ w) _
      rw [hself, hres, hcount, Bool.not_true, Bool.and_false]
      exact hlive.close hc
    · intro u
      by_cases hu : u = w
      · rw [if_pos hu, hu]
        show w ∈ q ↔ o.queued = true
        exact h.mem_iff hw
      · rw [if_neg hu]
    · intro _
      show q.length ≤ (s.pool.close w).1.semaphore + List.countP _ (s.pool.close w).1.workers
      rw [hworkers, hsem]
      exact h.permits

theorem Inv.destroy (h : Inv s q) (hd : w ∈ s.pool.dying) : ∃ q', Inv (s.step (.destroy w)) q' := by
  have hcount : 0 < s.pool.dying.count w := count_pos_iff.2 hd
  cases hw : s.pool.works w with
  | none =>
    have hzero : s.pool.dying.count w = 0 := (good_none (h.good w) hw).dying
    omega
  | some o =>
    obtain ⟨hmade, hlive⟩ := good_some (h.good w) hw
    have hgone := hlive.destroy (Pool.associated_le w) hcount
    have hw' : w ∉ q := fun hin => by
      have hpos := hlive.queued.1 ((h.mem_iff hw).1 hin)
      have hrefs := hlive.references
      have hdying : s.pool.dying.count w = _ := hlive.dying
      rw [hdying] at hcount
      split at hcount <;> omega
    obtain ⟨hworks, hworkers, hdying, hmade', htouched, hsem, hlinks, hlast⟩ := Pool.destroy_spec hw
    obtain ⟨hself, hother⟩ := view_call (f := fun l => { l with destroyed := l.destroyed + 1 }) hworks hworkers
    have hnone : (s.pool.destroy w).works w = none := by rw [hworks, Function.update_self]
    have hkept : ∀ u ≠ w, (s.pool.destroy w).works u = s.pool.works u := fun u hu => by
      rw [hworks, Function.update_of_ne hu]
    refine ⟨q, ⟨fun u => ?_, h.queue.congr hlinks hlast, fun u => ?_, ?_, ?_, htouched.trans h.touched⟩⟩
    · by_cases hu : u = w
      · subst hu
        refine good_of_gone hnone ?_
        show Gone (view ⟨_, s.note u _⟩ u) (decide (u < (s.pool.destroy u).made))
        rw [hself, hdying, count_erase_self, hmade', decide_eq_true hmade]
        exact hgone
      · show Good (decide (u < (s.pool.destroy w).made)) (view ⟨_, s.note w _⟩ u)
        rw [hother u hu (by rw [hdying, count_erase_of_ne hu]), hmade']
        exact h.good u
    · show u ∈ q ↔ ∃ o, (s.pool.destroy w).works u = some o ∧ o.queued = true
      by_cases hu : u = w
      · rw [hu, hnone]
        exact iff_of_false hw' nofun
      · rw [hkept u hu]
        exact h.queued u
    · show q.length ≤ (s.pool.destroy w).semaphore + List.countP _ (s.pool.destroy w).workers
      rw [hworkers, hsem]
      exact h.permits
    · have hle : (s.pool.destroy w).live ≤ s.pool.live := Pool.live_le hmade' fun u hu => by
        by_cases he : u = w
        · rw [he, hw]
          rfl
        · rwa [hkept u he] at hu
      exact Nat.le_trans (Nat.mul_le_mul_right _ hle) h.room

theorem Inv.create (h : Inv s q) (f : Bool) (hroom : (s.pool.live + 1) * workSize ≤ addressSpace) :
    Inv (s.step (.create f)) q := by
  have hfresh : s.pool.works s.pool.made = none := by
    cases hw : s.pool.works s.pool.made with
    | none => rfl
    | some o => exact absurd (good_some (h.good _) hw).1 (Nat.lt_irrefl _)
  have hgone := good_none (h.good s.pool.made) hfresh
  rw [decide_eq_false (Nat.lt_irrefl _)] at hgone
  have hworks : (s.pool.create f).works =
      Function.update s.pool.works s.pool.made (some ⟨0, 0, 1, false, false, true, f⟩) := rfl
  obtain ⟨hself, hother⟩ := view_call (f := fun l => { l with opened := true }) hworks rfl
  have hsome : (s.pool.create f).works s.pool.made = some ⟨0, 0, 1, false, false, true, f⟩ := Function.update_self ..
  have hkept : ∀ u ≠ s.pool.made, (s.pool.create f).works u = s.pool.works u := fun u hu => Function.update_of_ne hu _ _
  refine ⟨fun u => ?_, h.queue.congr rfl rfl, fun u => ?_, h.permits, ?_, h.touched⟩
  · by_cases hu : u = s.pool.made
    · rw [hu]
      refine good_of_live hsome (Nat.lt_succ_self _) ?_
      show Live (view ⟨_, s.note _ _⟩ s.pool.made) _
      rw [hself]
      exact hgone.create f
    · have hgood := h.good u
      have hiff : decide (u < s.pool.made + 1) = decide (u < s.pool.made) := decide_eq_decide.2 (by omega)
      show Good (decide (u < s.pool.made + 1)) (view ⟨_, s.note _ _⟩ u)
      rwa [hother u hu rfl, hiff]
  · show u ∈ q ↔ ∃ o, (s.pool.create f).works u = some o ∧ o.queued = true
    by_cases hu : u = s.pool.made
    · rw [hu, hsome, h.queued, hfresh]
      exact iff_of_false nofun fun ⟨o, ho, hq⟩ => by
        rw [← Option.some.inj ho] at hq
        exact nomatch hq
    · rw [hkept u hu]
      exact h.queued u
  · exact Nat.le_trans (Nat.mul_le_mul_right _ (Pool.live_create f)) hroom

/-! ### Workers -/

theorem Inv.spawn (h : Inv s q) : Inv (s.step .spawn) q := by
  have hcount : ∀ f : Worker → Bool, f .waiting = false →
      (s.pool.workers ++ [Worker.waiting]).countP f = s.pool.workers.countP f := fun f hf => by
    rw [countP_append, countP_singleton, hf, if_neg nofun, Nat.add_zero]
  refine h.same rfl rfl rfl rfl rfl (fun u => ?_) ?_
  · exact view_other rfl rfl (hcount _ rfl) (hcount _ rfl) rfl
  · show q.length ≤ s.pool.semaphore + (s.pool.workers ++ [Worker.waiting]).countP _
    rw [hcount _ rfl]
    exact h.permits

theorem Inv.setWorker (h : Inv s q) (hi : s.pool.workers[i]? = some k)
    (hruns : ∀ u, k'.runs u = k.runs u)
    (hassociated : ∀ u, k'.runsAssociated u = k.runsAssociated u) (hworks : p'.works = s.pool.works)
    (hworkers : p'.workers = s.pool.workers) (hmade : p'.made = s.pool.made)
    (htouched : p'.touched = s.pool.touched) (hdying : p'.dying = s.pool.dying)
    (hlinks : p'.links = s.pool.links) (hlast : p'.last = s.pool.last)
    (hpermits : q.length + k.isWoken.toNat ≤ p'.semaphore + (s.pool.woken + k'.isWoken.toNat)) :
    Inv ⟨p'.setWorker i k', s.ledger⟩ q := by
  have hi' : p'.workers[i]? = some k := hworkers ▸ hi
  refine h.same hworks hmade htouched hlinks hlast (fun u => ?_) ?_
  · have hactive := Pool.active_setWorker hi' k' u
    have hassoc := Pool.associated_setWorker hi' k' u
    rw [hruns u] at hactive
    rw [hassociated u] at hassoc
    refine view_other (congrFun hworks u) rfl ?_ ?_ (congrArg _ hdying)
    · rw [Nat.add_right_cancel hactive, Pool.active, hworkers, Pool.active]
    · rw [Nat.add_right_cancel hassoc, Pool.associated, hworkers, Pool.associated]
  · have hwoken := Pool.woken_setWorker hi' k'
    have hsame : p'.woken = s.pool.woken := by rw [Pool.woken, hworkers, Pool.woken]
    show q.length ≤ p'.semaphore + (p'.setWorker i k').woken
    omega

theorem Inv.wake (h : Inv s q) : Inv (s.step (.wake i)) q := by
  rw [step, Pool.wake]
  split
  case isFalse => exact h
  case isTrue hw =>
    refine h.setWorker hw.1 (fun _ => rfl) (fun _ => rfl) rfl rfl rfl rfl rfl rfl rfl ?_
    have hpermits := h.permits
    show q.length + 0 ≤ s.pool.semaphore - 1 + (s.pool.woken + 1)
    omega

theorem Inv.stage (h : Inv s q) (hi : s.pool.workers[i]? = some (.running a)) (stage : Stage) :
    Inv ⟨s.pool.setWorker i (.running { a with stage := stage }), s.ledger⟩ q :=
  h.setWorker hi (fun _ => rfl) (fun _ => rfl) rfl rfl rfl rfl rfl rfl rfl h.permits

theorem Inv.advance (h : Inv s q) : Inv (s.step (.advance i)) q := by
  rw [step, Pool.advance]
  cases hi : s.pool.workers[i]? with
  | none => exact h
  | some k =>
    cases k with
    | waiting => exact h
    | woken => exact h
    | running a =>
      obtain ⟨o, hw, -⟩ := h.running hi
      dsimp only
      rw [hw]
      cases hstage : a.stage with
      | starting => exact h.stage hi _
      | callback => exact h.stage hi _
      | finalization => exact h.stage hi _
      | cleanup => exact h.stage hi _
      | returned => exact h

/-! ### Callbacks -/

theorem moved (hi : s.pool.workers[i]? = some k) (hworkers : p'.workers = s.pool.workers.set i k')
    (w : Nat) : p'.active w + (k.runs w).toNat = s.pool.active w + (k'.runs w).toNat ∧
      p'.associated w + (k.runsAssociated w).toNat = s.pool.associated w + (k'.runsAssociated w).toNat ∧
        p'.woken + k.isWoken.toNat = s.pool.woken + k'.isWoken.toNat := by
  rw [Pool.active, Pool.associated, Pool.woken, hworkers]
  exact ⟨countP_set k' hi, countP_set k' hi, countP_set k' hi⟩

theorem view_moved {l : Nat → Ledger} (hi : s.pool.workers[i]? = some k)
    (hworkers : p'.workers = s.pool.workers.set i k')
    (hworks : p'.works = Function.update s.pool.works w x) (hledger : l u = s.ledger u) (hu : u ≠ w)
    (hruns : k'.runs u = k.runs u) (hassociated : k'.runsAssociated u = k.runsAssociated u)
    (hdying : p'.dying.count u = s.pool.dying.count u) : view ⟨p', l⟩ u = s.view u := by
  obtain ⟨hactive, hassoc, -⟩ := moved hi hworkers u
  rw [hruns] at hactive
  rw [hassociated] at hassoc
  have hworks' : p'.works u = s.pool.works u := by rw [hworks, Function.update_of_ne hu]
  exact view_other hworks' hledger (Nat.add_right_cancel hactive) (Nat.add_right_cancel hassoc) hdying

namespace Pool

theorem start_spec (hi : p.workers[i]? = some .woken) (hw : p.works w = some o) (hq : Queue p (w :: q)) :
    (p.start i).2 = some w ∧ (p.start i).1.works = Function.update p.works w (some o.start) ∧
      (p.start i).1.workers = p.workers.set i (.running ⟨w, true, .starting⟩) ∧ (p.start i).1.dying = p.dying ∧
        (p.start i).1.made = p.made ∧ (p.start i).1.touched = p.touched ∧
          ∃ q', Queue (p.start i).1 q' ∧ (∀ u, u ∈ q' ↔ if u = w then o.start.queued = true else u ∈ w :: q) ∧
            ∀ k, q'.length ≤ maxCount → q.length ≤ p.semaphore + k → q'.length ≤ (p.start i).1.semaphore + k := by
  obtain ⟨hres, hqueue, hworks, hworkers, hdying, hmade, hbusy, hsem, htouched⟩ := pop_some hq
  have hn : w ∉ q := (nodup_cons.1 hq.nodup).1
  rw [start, hi]
  generalize p.pop = r at hres hqueue hworks hworkers hdying hmade hbusy hsem htouched ⊢
  obtain ⟨t, x⟩ := r
  subst hres
  rw [hw, Option.map_some] at hworks
  have hself : t.works w = some { o with queued := false } := by rw [hworks, Function.update_self]
  have hother : ∀ u ≠ w, u ∈ w :: q ↔ u ∈ q := fun u hu => by rw [mem_cons, or_iff_right hu]
  dsimp only
  rw [hself]
  dsimp only
  by_cases hmore : o.pending - 1 ≠ 0
  · rw [if_pos hmore, release_eq]
    obtain ⟨hpush, hpushed⟩ := push_modify hself (fun o => { o with pending := o.pending - 1, running := o.running + 1 })
      hqueue hn
    refine ⟨rfl, ?_, ?_, hdying, hmade, htouched, q ++ [w], hpush.congr rfl rfl, fun u => ?_, fun k hmax hk => ?_⟩
    · refine hpushed.trans ?_
      rw [hworks, Function.update_idem]
      simp only [Work.start, decide_eq_true hmore]
    · exact congrArg (List.set · i _) hworkers
    · by_cases hu : u = w
      · rw [if_pos hu, hu]
        exact iff_of_true (mem_append_right _ (mem_singleton.2 rfl)) (decide_eq_true hmore)
      · rw [if_neg hu, hother u hu, mem_append, mem_singleton, or_iff_left hu]
    · rw [length_append, length_singleton] at hmax ⊢
      rw [← hsem] at hk
      exact le_release hmax hk
  · rw [if_neg hmore]
    refine ⟨rfl, ?_, ?_, hdying, hmade, htouched, q, hqueue.congr rfl rfl, fun u => ?_, fun k _ hk => ?_⟩
    · refine (modify_works hself _).trans ?_
      rw [hworks, Function.update_idem]
      simp only [Work.start, decide_eq_false hmore]
    · exact congrArg (List.set · i _) hworkers
    · by_cases hu : u = w
      · rw [if_pos hu, hu]
        exact iff_of_false hn (by simp [Work.start, not_not.1 hmore])
      · rw [if_neg hu, hother u hu]
    · rwa [← hsem] at hk

end Pool

theorem Inv.start (h : Inv s q) : ∃ q', Inv (s.step (.start i)) q' := by
  by_cases hi : s.pool.workers[i]? = some .woken
  · cases q with
    | nil =>
      have hstep : s.step (.start i) = ⟨s.pool.setWorker i .waiting, s.ledger⟩ := by
        simp only [step, Pool.start, hi, Pool.pop_none h.queue]
        rfl
      rw [hstep]
      have hwoken : 0 < s.pool.woken := countP_pos_of_getElem hi rfl
      exact ⟨[], h.setWorker hi (fun _ => rfl) (fun _ => rfl) rfl rfl rfl rfl rfl rfl rfl
        (Nat.le_trans hwoken (Nat.le_add_left _ _))⟩
    | cons w q =>
      obtain ⟨o, hw, hqueued⟩ := (h.queued w).1 mem_cons_self
      have hlive := (good_some (h.good w) hw).2
      obtain ⟨hres, hworks, hworkers, hdying, hmade, htouched, q', hqueue, hmem, hpermits⟩ :=
        Pool.start_spec hi hw h.queue
      obtain ⟨hactive, hassociated, hwoken⟩ := moved hi hworkers w
      have hrun : (Worker.running ⟨w, true, .starting⟩).runs w = true := beq_self_eq_true w
      have hrun' : (Worker.running ⟨w, true, .starting⟩).runsAssociated w = true := by simp [Worker.runsAssociated]
      rw [hrun, Bool.toNat_true] at hactive
      rw [hrun', Bool.toNat_true] at hassociated
      have hstep : s.step (.start i) = ⟨(s.pool.start i).1, s.note w fun l => { l with started := l.started + 1 }⟩ := by
        rw [step, hres]
        rfl
      rw [hstep]
      refine ⟨q', h.update hw hworks hmade htouched (fun u hu => ?_) ?_ hqueue hmem fun hmax => ?_⟩
      · have hne : (w == u) = false := beq_false_of_ne fun he => hu he.symm
        refine view_moved hi hworkers hworks (note_other _ hu) hu hne ?_ (congrArg _ hdying)
        show (w == u && true) = false
        rw [hne, Bool.false_and]
      · have hview : view ⟨(s.pool.start i).1, s.note w fun l => { l with started := l.started + 1 }⟩ w =
            ⟨some o.start, { s.ledger w with started := (s.ledger w).started + 1 }, s.pool.active w + 1,
              s.pool.associated w + 1, s.pool.dying.count w⟩ := by
          have hactive' : (s.pool.start i).1.active w = s.pool.active w + 1 := hactive
          have hassociated' : (s.pool.start i).1.associated w = s.pool.associated w + 1 := hassociated
          simp only [view, hworks, Function.update_self, note_self, hactive', hassociated', hdying]
        rw [hview]
        exact hlive.start hqueued
      · have hper := h.permits
        have hwoken' : (s.pool.start i).1.woken + 1 = s.pool.woken := hwoken
        rw [length_cons] at hper
        refine hpermits _ hmax ?_
        show q.length ≤ s.pool.semaphore + (s.pool.start i).1.woken
        omega
  · have hstep : s.step (.start i) = s := by
      rw [step, Pool.start]
      cases hk : s.pool.workers[i]? with
      | none => rfl
      | some k =>
        cases k with
        | waiting => rfl
        | woken => exact absurd hk hi
        | running a => rfl
    rw [hstep]
    exact ⟨q, h⟩

namespace Pool

variable {a : Instance}

theorem disassociate_spec (hi : p.workers[i]? = some (.running a)) (ha : a.associated = true)
    (hc : a.stage.calls = true) (hw : p.works a.work = some o) :
    (p.disassociate i).works = Function.update p.works a.work (some o.disassociate) ∧
      (p.disassociate i).workers = p.workers.set i (.running { a with associated := false }) ∧
        (p.disassociate i).dying = p.dying ∧ (p.disassociate i).made = p.made ∧
          (p.disassociate i).touched = p.touched ∧ (p.disassociate i).semaphore = p.semaphore ∧
            (p.disassociate i).links = p.links ∧ (p.disassociate i).last = p.last := by
  rw [disassociate, hi]
  dsimp only
  rw [if_pos ⟨ha, hc⟩, hw]
  exact ⟨modify_works hw _, rfl, rfl, rfl, rfl, rfl, rfl, rfl⟩

theorem finish_spec (hi : p.workers[i]? = some (.running a)) (hs : a.stage = .returned)
    (hw : p.works a.work = some o) : (p.finish i).2 = some a.work ∧
      (p.finish i).1.works = Function.update p.works a.work (some (o.finish a.associated)) ∧
        (p.finish i).1.workers = p.workers.set i .waiting ∧
          (p.finish i).1.dying =
            (if o.closed = true ∧ o.references - 1 = 0 then a.work :: p.dying else p.dying) ∧
            (p.finish i).1.made = p.made ∧ (p.finish i).1.touched = p.touched ∧
              (p.finish i).1.semaphore = p.semaphore ∧ (p.finish i).1.links = p.links ∧
                (p.finish i).1.last = p.last := by
  have hrunning : (if a.associated = true then o.running - 1 else o.running) = o.running - a.associated.toNat := by
    cases a.associated <;> rfl
  rw [finish, hi]
  dsimp only
  rw [if_pos hs, hw]
  dsimp only
  rw [hrunning]
  by_cases hzero : o.closed = true ∧ o.references - 1 = 0
  · rw [if_pos hzero, if_pos hzero]
    exact ⟨rfl, modify_works hw _, rfl, rfl, rfl, rfl, rfl, rfl, rfl⟩
  · rw [if_neg hzero, if_neg hzero]
    exact ⟨rfl, modify_works hw _, rfl, rfl, rfl, rfl, rfl, rfl, rfl⟩

end Pool

theorem Inv.disassociate (h : Inv s q) : Inv (s.step (.disassociate i)) q := by
  cases hi : s.pool.workers[i]? with
  | none => simpa only [step, Pool.disassociate, hi] using h
  | some k =>
    cases k with
    | waiting => simpa only [step, Pool.disassociate, hi] using h
    | woken => simpa only [step, Pool.disassociate, hi] using h
    | running a =>
      obtain ⟨o, hw, -⟩ := h.running hi
      by_cases hc : a.associated = true ∧ a.stage.calls = true
      · have hlive := (good_some (h.good a.work) hw).2
        obtain ⟨hworks, hworkers, hdying, hmade, htouched, hsem, hlinks, hlast⟩ :=
          Pool.disassociate_spec hi hc.1 hc.2 hw
        obtain ⟨hactive, hassociated, hwoken⟩ := moved hi hworkers a.work
        have hruns : (Worker.running a).runsAssociated a.work = true := by
          simp only [Worker.runsAssociated, beq_self_eq_true, hc.1, Bool.true_and]
        have hruns' : (Worker.running { a with associated := false }).runsAssociated a.work = false :=
          Bool.and_false _
        have hpos : 0 < s.pool.associated a.work := countP_pos_of_getElem hi hruns
        rw [hruns, hruns', Bool.toNat_true, Bool.toNat_false] at hassociated
        have hactive' : (s.pool.disassociate i).active a.work = s.pool.active a.work :=
          Nat.add_right_cancel hactive
        have hassociated' : (s.pool.disassociate i).associated a.work = s.pool.associated a.work - 1 := by omega
        refine h.update hw hworks hmade htouched (fun u hu => ?_) ?_ (h.queue.congr hlinks hlast) (fun u => ?_) fun _ => ?_
        · have hne : (a.work == u) = false := beq_false_of_ne fun he => hu he.symm
          refine view_moved hi hworkers hworks rfl hu rfl ?_ (congrArg _ hdying)
          simp only [Worker.runsAssociated, hne, Bool.false_and]
        · have hview : view ⟨s.pool.disassociate i, s.ledger⟩ a.work =
              ⟨some o.disassociate, s.ledger a.work, s.pool.active a.work, s.pool.associated a.work - 1,
                s.pool.dying.count a.work⟩ := by
            simp only [view, hworks, Function.update_self, hactive', hassociated', hdying]
          show Live (view ⟨s.pool.disassociate i, s.ledger⟩ a.work) _
          rw [hview]
          exact hlive.disassociate hpos
        · by_cases hu : u = a.work
          · rw [if_pos hu, hu]
            show a.work ∈ q ↔ o.queued = true
            exact h.mem_iff hw
          · rw [if_neg hu]
        · show q.length ≤ (s.pool.disassociate i).semaphore + (s.pool.disassociate i).woken
          rw [hsem, Nat.add_right_cancel hwoken]
          exact h.permits
      · have hid : s.pool.disassociate i = s.pool := by
          simp only [Pool.disassociate, hi]
          exact if_neg hc
        rw [step, hid]
        exact h

theorem Inv.finish (h : Inv s q) : Inv (s.step (.finish i)) q := by
  cases hi : s.pool.workers[i]? with
  | none => simpa only [step, Pool.finish, hi, noteOn, Option.elim] using h
  | some k =>
    cases k with
    | waiting => simpa only [step, Pool.finish, hi, noteOn, Option.elim] using h
    | woken => simpa only [step, Pool.finish, hi, noteOn, Option.elim] using h
    | running a =>
      obtain ⟨o, hw, hpos⟩ := h.running hi
      by_cases hs : a.stage = .returned
      · have hlive := (good_some (h.good a.work) hw).2
        obtain ⟨hres, hworks, hworkers, hdying, hmade, htouched, hsem, hlinks, hlast⟩ := Pool.finish_spec hi hs hw
        obtain ⟨hactive, hassociated, hwoken⟩ := moved hi hworkers a.work
        have hruns : (Worker.running a).runs a.work = true := beq_self_eq_true _
        have hruns' : (Worker.running a).runsAssociated a.work = a.associated := by
          simp only [Worker.runsAssociated, beq_self_eq_true, Bool.true_and]
        have hle : a.associated.toNat ≤ s.pool.associated a.work := by
          cases ha : a.associated with
          | false => exact Nat.zero_le _
          | true => exact countP_pos_of_getElem hi (hruns'.trans ha)
        rw [hruns, Bool.toNat_true] at hactive
        rw [hruns'] at hassociated
        have hactive' : (s.pool.finish i).1.active a.work = s.pool.active a.work - 1 := Nat.eq_sub_of_add_eq hactive
        have hassociated' : (s.pool.finish i).1.associated a.work = s.pool.associated a.work - a.associated.toNat :=
          Nat.eq_sub_of_add_eq hassociated
        have hcount : (s.pool.finish i).1.dying.count a.work =
            s.pool.dying.count a.work + if o.closed = true ∧ o.references - 1 = 0 then 1 else 0 := by
          rw [hdying]
          split
          case isTrue => exact count_cons_self
          case isFalse => rfl
        have hstep : s.step (.finish i) =
            ⟨(s.pool.finish i).1, s.note a.work fun l => { l with finished := l.finished + 1 }⟩ := by
          rw [step, hres]
          rfl
        rw [hstep]
        refine h.update hw hworks hmade htouched (fun u hu => ?_) ?_ (h.queue.congr hlinks hlast) (fun u => ?_) fun _ => ?_
        · have hne : (a.work == u) = false := beq_false_of_ne fun he => hu he.symm
          refine view_moved hi hworkers hworks (note_other _ hu) hu hne.symm ?_ ?_
          · simp only [Worker.runsAssociated, hne, Bool.false_and]
          · rw [hdying]
            split
            case isTrue => exact count_cons_of_ne fun he => hu he.symm
            case isFalse => rfl
        · have hview : view ⟨(s.pool.finish i).1, s.note a.work fun l => { l with finished := l.finished + 1 }⟩
              a.work = ⟨some (o.finish a.associated), { s.ledger a.work with finished := (s.ledger a.work).finished + 1 },
                s.pool.active a.work - 1, s.pool.associated a.work - a.associated.toNat,
                s.pool.dying.count a.work + if o.closed = true ∧ o.references - 1 = 0 then 1 else 0⟩ := by
            simp only [view, hworks, Function.update_self, note_self, hactive', hassociated', hcount]
          rw [hview]
          exact hlive.finish hpos a.associated hle
        · by_cases hu : u = a.work
          · rw [if_pos hu, hu]
            show a.work ∈ q ↔ o.queued = true
            exact h.mem_iff hw
          · rw [if_neg hu]
        · show q.length ≤ (s.pool.finish i).1.semaphore + (s.pool.finish i).1.woken
          rw [hsem, Nat.add_right_cancel hwoken]
          exact h.permits
      · have hid : s.pool.finish i = (s.pool, none) := by
          simp only [Pool.finish, hi]
          exact if_neg hs
        rw [step, hid]
        exact h

/-! ### Runs -/

theorem Inv.step (h : Inv s q) (e : Event) (ha : s.Allowed e) : ∃ q', Inv (s.step e) q' := by
  cases e with
  | spawn => exact ⟨q, h.spawn⟩
  | create f => exact ⟨q, h.create f ha⟩
  | submit c w => exact h.submit ha
  | cancel c w => exact h.cancel ha
  | wait c w => exact ⟨q, (h.wait ha).symm ▸ h⟩
  | close c w => exact h.close ha
  | destroy w => exact h.destroy ha
  | wake i => exact ⟨q, h.wake⟩
  | start i => exact h.start
  | advance i => exact ⟨q, h.advance⟩
  | disassociate i => exact ⟨q, h.disassociate⟩
  | finish i => exact ⟨q, h.finish⟩

theorem inv_init : Inv init [] where
  good w := by
    have hgone : Gone (init.view w) false := ⟨rfl, rfl, rfl, rfl, rfl, rfl, rfl⟩
    exact hgone
  queue := ⟨rfl, rfl, nodup_nil⟩
  queued w := iff_of_false not_mem_nil nofun
  permits := Nat.zero_le _
  room := Nat.zero_le _
  touched := rfl

/-- The submissions of an object that no callback has taken. -/
def Pool.waiting (p : Pool) (w : Nat) : Nat := (p.works w).elim 0 Work.pending

/-- The accounts of an object in a state. -/
structure Accounts (s : System) (w : Nat) : Prop where
  /-- A submission is waiting, cancelled, or taken by one callback, which goes on or has ended. -/
  once : (s.ledger w).submitted = s.pool.waiting w + (s.ledger w).cancelled + (s.ledger w).started
  taken : (s.ledger w).started = s.pool.active w + (s.ledger w).finished
  idle : ∀ o, s.pool.works w = some o → (o.idle = true ↔ o.pending = 0 ∧ s.pool.associated w = 0)
  references : ∀ o, s.pool.works w = some o →
    o.references + (s.ledger w).cancelled + (s.ledger w).finished = (s.ledger w).opened.toNat + (s.ledger w).submitted
  /-- The end is decided once, as soon as the handle is closed and every submission is done. -/
  destroyed : s.pool.dying.count w + (s.ledger w).destroyed =
    if w < s.pool.made ∧ (s.ledger w).opened = false ∧
      (s.ledger w).submitted = (s.ledger w).cancelled + (s.ledger w).finished then 1 else 0
  gone : w < s.pool.made → (s.pool.works w = none ↔ (s.ledger w).destroyed = 1)

/-- What holds in every state. -/
structure Accounted (s : System) : Prop where
  accounts : ∀ w, Accounts s w
  /-- The queue holds the objects with submissions that wait, each once, and wakes enough workers. -/
  queue : ∃ q, Pool.Queue s.pool q ∧ (∀ w, w ∈ q ↔ 0 < s.pool.waiting w) ∧
    q.length ≤ s.pool.semaphore + s.pool.woken
  untouched : s.pool.touched = false

theorem Inv.accounts (h : Inv s q) (w : Nat) : Accounts s w := by
  cases hw : s.pool.works w with
  | none =>
    have hgone := good_none (h.good w) hw
    have hwaiting : s.pool.waiting w = 0 := by rw [Pool.waiting, hw]; rfl
    have hopened : (s.ledger w).opened = false := hgone.opened
    have hactive : s.pool.active w = 0 := hgone.active
    have hdying : s.pool.dying.count w = 0 := hgone.dying
    have hsubmitted : (s.ledger w).submitted = _ := hgone.submitted
    have hstarted : (s.ledger w).started = (s.ledger w).finished := hgone.started
    have hdestroyed : (s.ledger w).destroyed = _ := hgone.destroyed
    refine ⟨?_, by omega, fun o ho => (nomatch hw.symm.trans ho), fun o ho => (nomatch hw.symm.trans ho), ?_, fun hm => ?_⟩
    · rw [hwaiting, hsubmitted]
      show (s.ledger w).started + (s.ledger w).cancelled = _
      omega
    · have hdone : (s.ledger w).submitted = (s.ledger w).cancelled + (s.ledger w).finished := by
        rw [hsubmitted]
        show (s.ledger w).started + (s.ledger w).cancelled = _
        omega
      rw [hdying, hdestroyed]
      by_cases hm : w < s.pool.made
      · rw [if_pos ⟨hm, hopened, hdone⟩, decide_eq_true hm]
        rfl
      · rw [if_neg fun hn => hm hn.1, decide_eq_false hm]
        rfl
    · rw [hdestroyed, decide_eq_true hm]
      exact iff_of_true hw rfl
  | some o =>
    obtain ⟨hm, hlive⟩ := good_some (h.good w) hw
    have hwaiting : s.pool.waiting w = o.pending := by rw [Pool.waiting, hw]; rfl
    have hrefs : o.references = (s.ledger w).opened.toNat + o.pending + s.pool.active w := hlive.references
    have hsubmitted : (s.ledger w).submitted = (s.ledger w).started + (s.ledger w).cancelled + o.pending :=
      hlive.submitted
    have hstarted : (s.ledger w).started = (s.ledger w).finished + s.pool.active w := hlive.started
    have hdestroyed : (s.ledger w).destroyed = 0 := hlive.destroyed
    have hdying : s.pool.dying.count w = if o.references = 0 then 1 else 0 := hlive.dying
    refine ⟨by omega, by omega, fun o' ho => ?_, fun o' ho => ?_, ?_, fun _ => ?_⟩
    · obtain rfl := Option.some.inj (hw.symm.trans ho)
      have hrunning : o.running = s.pool.associated w := hlive.running
      rw [← hrunning]
      exact hlive.idle
    · obtain rfl := Option.some.inj (hw.symm.trans ho)
      omega
    · rw [hdestroyed, hdying, Nat.add_zero]
      refine if_congr ?_ rfl rfl
      cases hopen : (s.ledger w).opened with
      | true =>
        rw [hopen, Bool.toNat_true] at hrefs
        exact iff_of_false (by omega) nofun
      | false =>
        rw [hopen, Bool.toNat_false] at hrefs
        exact ⟨fun hz => ⟨hm, rfl, by omega⟩, fun hz => by omega⟩
    · rw [hw, hdestroyed]
      exact iff_of_false nofun nofun

theorem Inv.accounted (h : Inv s q) : Accounted s where
  accounts := h.accounts
  queue := by
    refine ⟨q, h.queue, fun w => ?_, h.permits⟩
    rw [h.queued w, Pool.waiting]
    cases hw : s.pool.works w with
    | none => exact iff_of_false nofun (Nat.lt_irrefl 0)
    | some o =>
      refine Iff.trans ⟨fun ⟨o', ho, hq⟩ => ?_, fun hq => ⟨o, rfl, hq⟩⟩ (good_some (h.good w) hw).2.queued
      rw [Option.some.inj ho]
      exact hq
  untouched := h.touched

end Win98Modern.ThreadPool
