import Mathlib.Data.List.Induction
import Win98Modern.Kernel64.Clipboard

/-!
# The clipboard stays consistent

The store is consistent (`Inv`) whatever the calls; the sequence number advances with each EMPTY
and SET that is carried out, and a call that is refused leaves the store as it was.
-/

namespace Win98Modern.Clipboard

open List

/-- The runs that the store holds. -/
def held (fmts : List Fmt) : List Nat := fmts.filterMap fun f => f.data.map Pages.run

/-- The store with a run that the call under way holds: each run that was handed out is held once,
or was freed once. -/
structure Inv (s : Clip) (p : Option Pages) : Prop where
  distinct : (s.fmts.map Fmt.format).Nodup
  count : s.fmts.length ≤ GCLIP_MAX_FORMATS
  total : s.total = (s.fmts.map Fmt.size).sum
  bound : s.total ≤ GCLIP_MAX_BYTES
  runs : ((p.map Pages.run).toList ++ (held s.fmts ++ s.freed)).Perm (List.range s.nextRun)

structure Idle (s t : Clip) : Prop where
  fmts : t.fmts = s.fmts
  owner : t.owner = s.owner
  seq : t.seq = s.seq
  changed : t.changed = true → s.changed = true

/-- A refused call leaves all as it was, but for an entry of the format if the data are too big. -/
structure Refused (s : Clip) (big : Prop) (format : Nat) (t : Clip) : Prop where
  owner : t.owner = s.owner
  seq : t.seq = s.seq
  changed : t.changed = s.changed
  others : ∀ f, f.format ≠ format → (f ∈ t.fmts ↔ f ∈ s.fmts)
  fmts : ¬big → t.fmts = s.fmts

def Carries (c : Request) : Prop := c.op = .empty ∨ c.op = .set

/-- What a call does to a store: who may change it, and when it counts as changed. -/
structure Serves (s : Clip) (auth big : Prop) (c : Request) (r : Status × Reply × Clip) : Prop where
  inv : Inv r.2.2 none
  authority : ¬auth → r.2.2.fmts = s.fmts
  others : c.op = .set → ∀ f, f.format ≠ c.format → (f ∈ r.2.2.fmts ↔ f ∈ s.fmts)
  carried : r.1 = .success → Carries c → r.2.2.seq = s.seq + 1 ∧ r.2.2.changed = true
  idle : r.1 = .success → ¬Carries c → Idle s r.2.2
  refused : r.1 ≠ .success → Refused s big c.format r.2.2

section Store

variable {s t : Clip} {p : Option Pages} {auth big : Prop} {c : Request} {format : Nat} {st : Status}
  {r : Reply}

theorem held_split (as bs : List Fmt) (f : Fmt) :
    held (as ++ f :: bs) = held as ++ ((f.data.map Pages.run).toList ++ held bs) := by
  cases hf : f.data <;> simp [held, hf]

theorem Idle.refl : Idle s s := ⟨rfl, rfl, rfl, id⟩

theorem Idle.of_take {n : Nat} (h : Idle { s with nextRun := n } t) : Idle s t :=
  ⟨h.fmts, h.owner, h.seq, h.changed⟩

theorem Refused.of_take {n : Nat} (h : Refused { s with nextRun := n } big format t) : Refused s big format t :=
  ⟨h.owner, h.seq, h.changed, h.others, h.fmts⟩

theorem Idle.refused (h : Idle s t) (hc : t.changed = s.changed) : Refused s big format t :=
  ⟨h.owner, h.seq, hc, fun _ _ => by rw [h.fmts], fun _ => h.fmts⟩

theorem Inv.free (h : Inv s p) : Inv (s.free p) none := by
  refine ⟨h.distinct, h.count, h.total, h.bound, List.Perm.trans ?_ h.runs⟩
  show (held s.fmts ++ ((p.map Pages.run).toList ++ s.freed)).Perm _
  rw [← append_assoc, ← append_assoc]
  exact perm_append_comm.append_right _

theorem Inv.same (h : Inv s p) (hf : t.fmts = s.fmts) (ht : t.total = s.total) (hn : t.nextRun = s.nextRun)
    (hr : t.freed = s.freed) : Inv t p :=
  ⟨hf ▸ h.distinct, hf ▸ h.count, by rw [hf, ht, h.total], ht ▸ h.bound, by rw [hf, hn, hr]; exact h.runs⟩

theorem Serves.refuse (h : Inv s p) (hst : st ≠ .success) : Serves s auth big c (st, r, s.free p) :=
  ⟨h.free, fun _ => rfl, fun _ _ _ => Iff.rfl, fun h => absurd h hst, fun h => absurd h hst,
    fun _ => Idle.refused ⟨rfl, rfl, rfl, id⟩ rfl⟩

theorem Serves.rest (h : Inv t none) (hi : Idle s t) (hc : ¬Carries c) (hst : st ≠ .success → t.changed = s.changed) :
    Serves s auth big c (st, r, t) :=
  ⟨h, fun _ => hi.fmts, fun hop => absurd (.inr hop) hc, fun _ h => absurd h hc, fun _ _ => hi,
    fun h => hi.refused (hst h)⟩

theorem shut_fields (w : Windows) (s : Clip) : (shut w s).total = s.total ∧ (shut w s).nextRun = s.nextRun ∧
    (shut w s).freed = s.freed ∧ Idle s (shut w s) := by
  unfold shut
  split <;> exact ⟨rfl, rfl, rfl, rfl, rfl, rfl, by simp⟩

theorem Inv.shut (h : Inv s p) (w : Windows) : Inv (shut w s) p := by
  obtain ⟨ht, hn, hr, hi⟩ := shut_fields w s
  exact h.same hi.fmts ht hn hr

theorem Inv.clearAll (h : Inv s none) : Inv (clearAll s) none := by
  refine ⟨nodup_nil, Nat.zero_le _, ?_, ?_, h.runs⟩
  · show s.total - (s.fmts.map Fmt.size).sum = 0
    rw [h.total, Nat.sub_self]
  · exact (Nat.sub_le _ _).trans h.bound

theorem entry_others (f : Fmt) (hf : f.format ≠ format) : f ∈ (entry format s).2.fmts ↔ f ∈ s.fmts := by
  unfold Clipboard.entry
  cases s.fmts.find? (·.format = format) with
  | some g => rfl
  | none =>
    rw [mem_append, mem_singleton]
    exact or_iff_left fun he => hf (he ▸ rfl)

theorem entry_format : (entry format s).1.format = format := by
  unfold Clipboard.entry
  cases h : s.fmts.find? (·.format = format) with
  | some g => simpa using List.find?_some h
  | none => rfl

theorem store_others {f g : Fmt} (hf : f.format ≠ g.format) : f ∈ (store g p s).fmts ↔ f ∈ s.fmts := by
  unfold Clipboard.store
  rw [mem_map]
  constructor
  · rintro ⟨x, hx, rfl⟩
    split at hf
    · exact absurd rfl hf
    · rwa [if_neg ‹_›]
  · exact fun hm => ⟨f, hm, if_neg hf⟩

theorem Inv.entry (h : Inv s p)
    (hroom : ¬(s.fmts.find? (·.format = format) = none ∧ GCLIP_MAX_FORMATS ≤ s.fmts.length)) :
    Inv (entry format s).2 p ∧ (entry format s).1 ∈ (entry format s).2.fmts ∧
      (entry format s).2.seq = s.seq ∧ (entry format s).2.owner = s.owner ∧
      (entry format s).2.changed = s.changed ∧ (entry format s).2.total = s.total ∧
      (s.fmts.find? (·.format = format) ≠ none → (entry format s).2 = s) ∧
      (s.fmts.find? (·.format = format) = none → (entry format s).1.size = 0) := by
  unfold Clipboard.entry
  cases hfind : s.fmts.find? (·.format = format) with
  | some f =>
    exact ⟨h, mem_of_find?_eq_some hfind, rfl, rfl, rfl, rfl, fun _ => rfl, fun hn => by cases hn⟩
  | none =>
    have hnew : format ∉ s.fmts.map Fmt.format := by
      simpa using List.find?_eq_none.mp hfind
    have hlen : s.fmts.length < GCLIP_MAX_FORMATS := Nat.lt_of_not_le fun hle => hroom ⟨hfind, hle⟩
    refine ⟨⟨?_, ?_, ?_, h.bound, ?_⟩, by simp, rfl, rfl, rfl, rfl, fun hn => absurd rfl hn, fun _ => rfl⟩
    · simpa [nodup_append] using ⟨h.distinct, by simpa using hnew⟩
    · rw [length_append]
      exact hlen
    · simpa [Fmt.size] using h.total
    · simpa [held] using h.runs

theorem Inv.store (h : Inv s p) {f : Fmt} (hf : f ∈ s.fmts)
    (hfit : ¬(p.any fun p => s.total - f.size + p.bytes.length > GCLIP_MAX_BYTES) = true) :
    Inv (store f p s) none := by
  obtain ⟨as, bs, heq⟩ := append_of_mem hf
  have hd := h.distinct
  have htot := h.total
  have hruns := h.runs
  rw [heq] at hd htot hruns
  simp only [map_append, map_cons, nodup_append, nodup_cons, mem_cons] at hd
  have has : ∀ g ∈ as, g.format ≠ f.format := fun g hg =>
    hd.2.2 _ (mem_map_of_mem hg) _ (.inl rfl)
  have hbs : ∀ g ∈ bs, g.format ≠ f.format := fun g hg he =>
    hd.2.1.1 (he ▸ mem_map_of_mem hg)
  have hmap : ∀ (g : Fmt), s.fmts.map (fun h => if h.format = f.format then g else h) = as ++ g :: bs := by
    intro g
    rw [heq, map_append, map_cons, if_pos rfl, map_congr_left fun x hx => if_neg (has x hx),
      map_congr_left fun x hx => if_neg (hbs x hx), map_id', map_id']
  have hsum : s.total = (as.map Fmt.size).sum + (f.size + (bs.map Fmt.size).sum) := by
    rw [htot, map_append, map_cons, sum_append, sum_cons]
  have hsize : (⟨f.format, p, p.isNone⟩ : Fmt).size = p.elim 0 fun p => p.bytes.length := rfl
  refine ⟨?_, ?_, ?_, ?_, ?_⟩
  · rw [Clipboard.store, hmap]
    have := h.distinct
    rw [heq] at this
    simpa using this
  · simpa [Clipboard.store] using h.count
  · rw [Clipboard.store, hmap, map_append, map_cons, sum_append, sum_cons, hsum]
    simp only
    omega
  · rw [Clipboard.store]
    simp only [hsize]
    have := h.bound
    cases p with
    | none => exact (Nat.sub_le _ _).trans this
    | some p => simpa using hfit
  · rw [Clipboard.store, hmap]
    refine List.Perm.trans ?_ hruns
    refine perm_iff_count.mpr fun a => ?_
    simp only [held_split, Option.map_none, Option.toList_none, nil_append, count_append]
    omega

/-- The call may change what is stored: its thread has the clipboard open, or it is a SET that renders. -/
def Authorised (e : Call) (c : Request) (s : Clip) : Prop :=
  ∃ tid ∈ e.queue, s.openTid = tid ∨
    c.op = .set ∧ ∃ p, renders e.windows e.pid c.format (some p) s = true

/-- The data of a new format exceed the limit. -/
def Exceeds (c : Request) (s : Clip) : Prop :=
  c.op = .set ∧ c.buf = true ∧ s.fmts.find? (·.format = c.format) = none ∧ GCLIP_MAX_BYTES < s.total + c.size

variable {e : Call} {tid : Nat}

theorem cbSet_serves (h : Inv s p) (hq : e.queue = some tid) (hop : c.op = .set)
    (hp : ∀ q, p = some q → c.buf = true ∧ q.bytes.length = c.size) :
    Serves s (Authorised e c s) (Exceeds c s) c (cbSet e.windows e.pid c.format tid p s) := by
  unfold cbSet
  split
  case isTrue => exact Serves.refuse h (by decide)
  split
  case isTrue => exact Serves.refuse h (by decide)
  rename_i hauth
  have hauth : Authorised e c s := by
    refine ⟨tid, hq, ?_⟩
    by_cases ht : s.openTid = tid
    · exact .inl ht
    · have hr : renders e.windows e.pid c.format p s = true := by simpa [ht] using hauth
      cases p with
      | none => simp [renders] at hr
      | some q => exact .inr ⟨hop, q, hr⟩
  split
  case isTrue => exact Serves.refuse h (by decide)
  rename_i hroom
  obtain ⟨hi, hmem, hseq, howner, hchanged, htotal, hold, hnew⟩ := h.entry hroom
  dsimp only
  split
  case isTrue hbig =>
    refine ⟨hi.free, fun ha => absurd hauth ha, fun _ => entry_others, Status.noConfusion, Status.noConfusion,
      fun _ => ⟨howner, hseq, hchanged, entry_others, fun hover => ?_⟩⟩
    show (entry c.format s).2.fmts = s.fmts
    rw [hold fun hnone => hover ?_]
    cases p with
    | none => cases hbig
    | some q =>
      obtain ⟨hbuf, hlen⟩ := hp q rfl
      refine ⟨hop, hbuf, hnone, ?_⟩
      simpa [htotal, hnew hnone, hlen] using hbig
  case isFalse hfit =>
    refine ⟨hi.store hmem hfit, fun ha => absurd hauth ha, fun _ f hf => ?_, fun _ _ => ⟨?_, rfl⟩,
      fun _ hc => absurd (.inr hop) hc, fun h => absurd rfl h⟩
    · rw [store_others (by rwa [entry_format]), entry_others f hf]
    · rw [← hseq]
      rfl

theorem locked_serves (h : Inv s p) (hp : ∀ q, p = some q → c.op = .set ∧ c.buf = true ∧ q.bytes.length = c.size) :
    Serves s (Authorised e c s) (Exceeds c s) c (locked e c p s) := by
  unfold locked
  cases hq : e.queue with
  | none => exact Serves.refuse h (by decide)
  | some tid =>
    have hnone : c.op ≠ .set → p = none := by
      intro hop
      cases p with
      | none => rfl
      | some q => exact absurd (hp q rfl).1 hop
    cases hop : c.op with
    | set => exact cbSet_serves h hq hop fun q hq => (hp q hq).2
    | empty =>
      obtain rfl := hnone (by simp [hop])
      simp only [cbEmpty]
      split
      case isTrue => exact Serves.refuse h (by decide)
      case isFalse ht =>
        have hauth : Authorised e c s := ⟨tid, hq, .inl (not_not.mp ht)⟩
        exact ⟨h.clearAll.same rfl rfl rfl rfl, fun ha => absurd hauth ha,
          fun hs => (by rw [hop] at hs; cases hs), fun _ _ => ⟨rfl, rfl⟩, fun _ hc => absurd (.inl hop) hc, fun h => absurd rfl h⟩
    | close =>
      obtain rfl := hnone (by simp [hop])
      have hc : ¬Carries c := by simp [Carries, hop]
      simp only [cbClose]
      split
      case isTrue => exact Serves.refuse h (by decide)
      case isFalse => exact Serves.rest (h.shut e.windows) (shut_fields e.windows s).2.2.2 hc fun h => absurd rfl h
    | _ =>
      obtain rfl := hnone (by simp [hop])
      have hc : ¬Carries c := by simp [Carries, hop]
      have hsame : ∀ st r l t u, Serves s (Authorised e c s) (Exceeds c s) c
          (st, r, { s with listen := l, openTid := t, openHwnd := u }) := fun _ _ _ _ _ =>
        Serves.rest (h.same rfl rfl rfl rfl) ⟨rfl, rfl, rfl, id⟩ hc fun _ => rfl
      simp only [cbOpen, cbGet, cbListen]
      repeat' split
      all_goals first | exact hrest _ _ | exact hsame _ _ _ _ _

/-- What a call does before its reply is copied out. -/
theorem serve_serves (h : Inv s none) (hc : e.request = some c) :
    Serves s (Authorised e c s) (Exceeds c s) c (serve e s) := by
  have htake : Inv { s with nextRun := s.nextRun + 1 } (some ⟨s.nextRun, []⟩) := by
    refine ⟨h.distinct, h.count, h.total, h.bound, ?_⟩
    rw [range_succ]
    show ([s.nextRun] ++ (held s.fmts ++ s.freed)).Perm _
    exact perm_append_comm.trans (h.runs.append_right _)
  unfold serve
  rw [hc]
  dsimp only
  split
  case isFalse => exact locked_serves h fun _ hq => by cases hq
  rename_i hset
  split
  case isTrue => exact Serves.refuse h (by decide)
  split
  case isTrue => exact Serves.refuse h (by decide)
  cases e.bytes with
  | none =>
    exact ⟨htake.free, fun _ => rfl, fun _ _ _ => Iff.rfl, Status.noConfusion, Status.noConfusion,
      fun _ => Idle.refused ⟨rfl, rfl, rfl, id⟩ rfl⟩
  | some bytes =>
    have hi : Inv { s with nextRun := s.nextRun + 1 } (some ⟨s.nextRun, (List.range c.size).map bytes⟩) :=
      ⟨htake.distinct, htake.count, htake.total, htake.bound, htake.runs⟩
    have hr := locked_serves (e := e) hi fun q hq => by
      obtain rfl := Option.some.inj hq
      exact ⟨hset.1, hset.2, by simp⟩
    exact ⟨hr.inv, hr.authority, hr.others, hr.carried, fun hs hn => (hr.idle hs hn).of_take,
      fun hs => (hr.refused hs).of_take⟩

theorem step_inv (h : Inv s none) (ev : Event) : Inv (step s ev) none := by
  cases ev with
  | call e =>
    show Inv (serve e s).2.2 none
    cases hc : e.request with
    | none => simpa [serve, hc] using h
    | some c => exact (serve_serves h hc).inv
  | windowGone hwnd => exact h.same rfl rfl rfl rfl
  | queueGone w tid =>
    simp only [step, queueGone]
    split
    case isTrue => exact h.shut w
    case isFalse => exact h

/-- **The clipboard stays consistent**: after every run of calls and of windows and queues that go,
and with it every call does what it may. -/
theorem clipboard_consistent (es : List Event) :
    Inv (es.foldl step boot) none ∧
      (∀ e c, e.request = some c → Serves (es.foldl step boot) (Authorised e c (es.foldl step boot))
        (Exceeds c (es.foldl step boot)) c (serve e (es.foldl step boot))) ∧
      (∀ hwnd, (windowGone hwnd (es.foldl step boot)).fmts = (es.foldl step boot).fmts ∧
        (windowGone hwnd (es.foldl step boot)).seq = (es.foldl step boot).seq ∧
        (windowGone hwnd (es.foldl step boot)).changed = (es.foldl step boot).changed) ∧
      ∀ w tid, Idle (es.foldl step boot) (queueGone w tid (es.foldl step boot)) := by
  have h : Inv (es.foldl step boot) none := by
    induction es using List.reverseRecOn with
    | nil => exact ⟨nodup_nil, Nat.zero_le _, rfl, Nat.zero_le _, List.Perm.refl _⟩
    | append_singleton es ev ih =>
      rw [foldl_append]
      exact step_inv ih ev
  refine ⟨h, fun e c hc => serve_serves h hc, fun _ => ⟨rfl, rfl, rfl⟩, fun w tid => ?_⟩
  unfold queueGone
  split
  case isTrue => exact (shut_fields w _).2.2.2
  case isFalse => exact Idle.refl

end Store

/-- EMPTY of an empty clipboard. -/
def emptying (op : Op) : Event :=
  .call { request := some { op := op }, pid := 1, queue := some 1, windows := fun _ => none }

theorem empty_advances : ([emptying .open, emptying .empty].foldl step boot).fmts = boot.fmts ∧
    ([emptying .open, emptying .empty].foldl step boot).seq ≠ ([emptying .open].foldl step boot).seq := by
  refine ⟨rfl, by decide⟩

end Win98Modern.Clipboard
