import Win98Modern.Kernel64.Port

/-!
# Packets are neither lost nor duplicated

`Holds q l w`: the pointers of the port hold the packets `l` and the waiters `w`.  `Inv` says
where each packet is: queued, in the hands of one waiter, or returned once.
**`port_delivers`**: in every run the packets leave in posting order, each goes to one call,
and no thread is blocked while a packet is queued.
-/

namespace Win98Modern.Iocp

open Function List Sys Slot

variable {q q' : Port} {s : Sys} {l : List PacketId} {w : List Tid} {t u : Tid} {pk : PacketId}

theorem next_injective : Function.Injective next := fun _ _ h => next.inj h

theorem slots_nodup_of {l : List Nat} (h : l.Nodup) : (slots next .first l).Nodup :=
  slots_nodup next_injective (fun _ => nofun) h

theorem next_not_mem {l : List Nat} {n : Nat} (h : n ∉ l) : next n ∉ slots next .first l := by
  simp [slots, h]

structure Queue (q : Port) (l : List PacketId) : Prop where
  chain : Chain next q.queue .first l
  nodup : l.Nodup
  tail : q.tail = l.getLast?
  count : q.count = l.length

structure Waiters (q : Port) (w : List Tid) : Prop where
  chain : Chain next q.waiters .first w
  nodup : w.Nodup

/-- The operations on the queue leave the rest of the port alone. -/
structure SameRest (q q' : Port) : Prop where
  waiters : q'.waiters = q.waiters
  got : q'.got = q.got
  closed : q'.closed = q.closed

/-! ### The queue -/

theorem portTake_nil (h : Queue q []) : q.portTake = (none, q) := by
  unfold Port.portTake
  rw [show q.queue .first = none from h.chain]

theorem portTake_cons (h : Queue q (pk :: l)) :
    ∃ q', q.portTake = (some pk, q') ∧ Queue q' l ∧ SameRest q q' := by
  have hnd := nodup_cons.1 h.nodup
  have hpop := h.chain.pop (slots_nodup_of h.nodup)
  have hchain : Chain next (update (update q.queue .first
      (q.queue (.next pk))) (.next pk) none) .first l := by
    refine hpop.congr fun p hp => update_of_ne ?_ ..
    rintro rfl
    exact next_not_mem hnd.1 hp
  unfold Port.portTake
  rw [show q.queue .first = some pk from h.chain.1]
  refine ⟨_, rfl, ⟨hchain, hnd.2, ?_, ?_⟩, rfl, rfl, rfl⟩
  · show (if update q.queue .first (q.queue (.next pk)) .first = none then none
      else q.tail) = _
    rw [hpop.head, h.tail]
    cases l with
    | nil => rfl
    | cons b l => simp
  · show q.count - 1 = _
    rw [h.count]
    simp

theorem takeMore_spec (k : Nat) (h : Queue q l) :
    ∃ q', q.takeMore k = (l.take k, q') ∧ Queue q' (l.drop k) ∧ SameRest q q' := by
  induction k generalizing q l with
  | zero => exact ⟨q, rfl, h, rfl, rfl, rfl⟩
  | succ k ih =>
    cases l with
    | nil =>
      refine ⟨q, ?_, h, rfl, rfl, rfl⟩
      simp only [Port.takeMore, portTake_nil h, take_nil]
    | cons pk l =>
      obtain ⟨q₁, h₁, hq₁, hs₁⟩ := portTake_cons h
      obtain ⟨q₂, h₂, hq₂, hs₂⟩ := ih hq₁
      refine ⟨q₂, ?_, hq₂, hs₂.waiters.trans hs₁.waiters, hs₂.got.trans hs₁.got,
        hs₂.closed.trans hs₁.closed⟩
      simp only [Port.takeMore, h₁, h₂, take_succ_cons]

/-! ### Where the packets are -/

/-- The packet that a waiter has been handed. -/
def Sys.held (s : Sys) (t : Tid) : Option PacketId :=
  match s.phase t with
  | .outside => none
  | .waiting _ => s.port.got t

def Sys.out (s : Sys) : List PacketId := s.returned.flatMap fun r => r.2.1

/-- `l` is queued; of the packets that have left, each is returned once or held by one thread. -/
structure Ledger (posted left out : List PacketId) (held : Tid → Option PacketId)
    (l : List PacketId) : Prop where
  order : posted = left ++ l
  numbered : posted = List.range posted.length
  once : out.Nodup
  sub : ∀ pk ∈ out, pk ∈ left
  inHand : ∀ t pk, held t = some pk → pk ∈ left ∧ pk ∉ out
  apart : ∀ t u pk, held t = some pk → held u = some pk → t = u
  gone : ∀ pk ∈ left, pk ∈ out ∨ ∃ t, held t = some pk

section Ledger

variable {posted left out : List PacketId} {held : Tid → Option PacketId}

theorem Ledger.nodup (h : Ledger posted left out held l) : (left ++ l).Nodup := by
  rw [← h.order, h.numbered]
  exact nodup_range

theorem Ledger.fresh (h : Ledger posted left out held l) : posted.length ∉ left ++ l := by
  rw [← h.order]
  intro hm
  rw [h.numbered, mem_range, length_range] at hm
  exact Nat.lt_irrefl _ hm

theorem Ledger.numbered_snoc (h : Ledger posted left out held l) :
    posted ++ [posted.length] = List.range (posted ++ [posted.length]).length := by
  rw [length_append, length_singleton, range_succ, ← h.numbered]

theorem Ledger.push (h : Ledger posted left out held l) :
    Ledger (posted ++ [posted.length]) left out held (l ++ [posted.length]) :=
  ⟨by rw [h.order, append_assoc, ← h.order], h.numbered_snoc, h.once, h.sub, h.inHand, h.apart,
    h.gone⟩

theorem Ledger.hand (h : Ledger posted left out held []) (ht : held t = none) :
    Ledger (posted ++ [posted.length]) (left ++ [posted.length]) out
      (update held t (some posted.length)) [] := by
  have hfresh : posted.length ∉ left := by
    have hf := h.fresh
    rwa [append_nil] at hf
  have hother : ∀ u pk, update held t (some posted.length) u = some pk →
      (u = t ∧ pk = posted.length) ∨ (u ≠ t ∧ held u = some pk) := by
    intro u pk hu
    by_cases hut : u = t
    · rw [hut, update_self] at hu
      exact .inl ⟨hut, (Option.some.inj hu).symm⟩
    · rw [update_of_ne hut] at hu
      exact .inr ⟨hut, hu⟩
  refine ⟨?_, h.numbered_snoc, h.once, fun pk hp => mem_append_left _ (h.sub pk hp),
    fun u pk hu => ?_, fun u v pk hu hv => ?_, fun pk hp => ?_⟩
  · rw [append_nil, h.order, append_nil]
  · obtain ⟨-, rfl⟩ | ⟨-, hu⟩ := hother u pk hu
    · exact ⟨by simp, fun hp => hfresh (h.sub _ hp)⟩
    · exact ⟨mem_append_left _ (h.inHand u pk hu).1, (h.inHand u pk hu).2⟩
  · obtain ⟨rfl, rfl⟩ | ⟨-, hu⟩ := hother u pk hu
    · obtain ⟨rfl, -⟩ | ⟨-, hv⟩ := hother v _ hv
      · rfl
      · exact absurd (h.inHand v _ hv).1 hfresh
    · obtain ⟨-, rfl⟩ | ⟨-, hv⟩ := hother v pk hv
      · exact absurd (h.inHand u _ hu).1 hfresh
      · exact h.apart u v pk hu hv
  · obtain hp | hp := mem_append.1 hp
    · obtain hp | ⟨u, hu⟩ := h.gone pk hp
      · exact .inl hp
      · refine .inr ⟨u, ?_⟩
        rw [update_of_ne, hu]
        rintro rfl
        rw [ht] at hu
        cases hu
    · rw [mem_singleton.1 hp]
      exact .inr ⟨t, update_self ..⟩

theorem Ledger.take {pks : List PacketId} (h : Ledger posted left out held (pks ++ l)) :
    Ledger posted (left ++ pks) (out ++ pks) held l := by
  have hnd := h.nodup
  rw [← append_assoc, nodup_append] at hnd
  have hapart := (nodup_append.1 hnd.1)
  have hleft : ∀ pk ∈ left, pk ∉ pks := fun pk hl hp => hapart.2.2 pk hl pk hp rfl
  refine ⟨by rw [h.order, append_assoc], h.numbered, ?_, fun pk hp => ?_, fun t pk ht => ?_,
    h.apart, fun pk hp => ?_⟩
  · refine nodup_append.2 ⟨h.once, hapart.2.1, ?_⟩
    rintro pk ho _ hp rfl
    exact hleft pk (h.sub pk ho) hp
  · obtain hp | hp := mem_append.1 hp
    · exact mem_append_left _ (h.sub pk hp)
    · exact mem_append_right _ hp
  · obtain ⟨hl, ho⟩ := h.inHand t pk ht
    refine ⟨mem_append_left _ hl, fun hp => ?_⟩
    obtain hp | hp := mem_append.1 hp
    · exact ho hp
    · exact hleft pk hl hp
  · obtain hp | hp := mem_append.1 hp
    · obtain ho | ht := h.gone pk hp
      · exact .inl (mem_append_left _ ho)
      · exact .inr ht
    · exact .inl (mem_append_right _ hp)

theorem Ledger.give (h : Ledger posted left out held l) (ht : held t = some pk) :
    Ledger posted left (out ++ [pk]) (update held t none) l := by
  obtain ⟨hl, ho⟩ := h.inHand t pk ht
  have hother : ∀ u pk', update held t none u = some pk' → u ≠ t ∧ held u = some pk' := by
    intro u pk' hu
    by_cases hut : u = t
    · rw [hut, update_self] at hu
      cases hu
    · rw [update_of_ne hut] at hu
      exact ⟨hut, hu⟩
  refine ⟨h.order, h.numbered, ?_, fun pk' hp => ?_, fun u pk' hu => ?_, fun u v pk' hu hv => ?_,
    fun pk' hp => ?_⟩
  · refine nodup_append.2 ⟨h.once, nodup_singleton pk, ?_⟩
    rintro pk' ho' _ hp rfl
    rw [mem_singleton.1 hp] at ho'
    exact ho ho'
  · obtain hp | hp := mem_append.1 hp
    · exact h.sub pk' hp
    · rw [mem_singleton.1 hp]
      exact hl
  · obtain ⟨hut, hu⟩ := hother u pk' hu
    obtain ⟨hl', ho'⟩ := h.inHand u pk' hu
    refine ⟨hl', fun hp => ?_⟩
    obtain hp | hp := mem_append.1 hp
    · exact ho' hp
    · rw [mem_singleton.1 hp] at hu
      exact hut (h.apart u t pk hu ht)
  · exact h.apart u v pk' (hother u pk' hu).2 (hother v pk' hv).2
  · obtain hp | ⟨u, hu⟩ := h.gone pk' hp
    · exact .inl (mem_append_left _ hp)
    · by_cases hut : u = t
      · rw [hut, ht] at hu
        exact .inl (by simp [Option.some.inj hu])
      · exact .inr ⟨u, by rw [update_of_ne hut, hu]⟩

end Ledger

/-! ### The invariant -/

/-- The port between two sections: it holds the packets `l` and the waiters `w`. -/
structure Inv (s : Sys) (l : List PacketId) (w : List Tid) : Prop where
  queue : Queue s.port l
  waiters : Waiters s.port w
  mem : ∀ t, t ∈ w ↔ s.phase t ≠ .outside ∧ s.held t = none
  room : w.length ≤ s.calls
  awake : ∀ t pk, s.held t = some pk → s.blocked t = false
  empty : w ≠ [] → l = []
  ledger : Ledger s.posted s.left s.out s.held l

theorem held_of_outside (h : s.phase t = .outside) : s.held t = none := by
  unfold held
  rw [h]

theorem init_inv : Inv init [] [] where
  queue := ⟨rfl, nodup_nil, rfl, rfl⟩
  waiters := ⟨rfl, nodup_nil⟩
  mem t := by simp [init]
  room := Nat.le_refl 0
  awake t pk h := by cases h
  empty h := absurd rfl h
  ledger := ⟨rfl, rfl, nodup_nil, nofun, nofun, nofun, nofun⟩

theorem Inv.waiters_head (h : Inv s l w) : s.port.waiters .first = w.head? := h.waiters.chain.head

/-! ### Waking -/

theorem wakeAll_eq (n : Nat) (p : Slot) (s : Sys) :
    ∃ b, wakeAll n p s = { s with blocked := b } ∧ ∀ t, b t = true → s.blocked t = true := by
  induction n generalizing p s with
  | zero => exact ⟨s.blocked, rfl, fun _ => id⟩
  | succ n ih =>
    unfold wakeAll
    cases hw : s.port.waiters p with
    | none => exact ⟨s.blocked, rfl, fun _ => id⟩
    | some w =>
      by_cases hb : s.blocked w = true
      · obtain ⟨b, hb', hsub⟩ := ih (.next w) (s.threadWake w)
        simp only [hb, if_true]
        refine ⟨b, hb', fun t ht => ?_⟩
        have ht := hsub t ht
        unfold threadWake at ht
        by_cases htw : t = w
        · rw [htw, hb]
        · simpa [htw] using ht
      · obtain ⟨b, hb', hsub⟩ := ih (.next w) s
        simp only [hb, if_false, Bool.false_eq_true]
        exact ⟨b, hb', hsub⟩

theorem Inv.wake {b : Tid → Bool} (h : Inv s l w) (hb : ∀ t, b t = true → s.blocked t = true)
    (closed : Bool) :
    Inv { s with blocked := b, port := { s.port with closed := closed } } l w :=
  ⟨⟨h.queue.chain, h.queue.nodup, h.queue.tail, h.queue.count⟩,
    ⟨h.waiters.chain, h.waiters.nodup⟩, h.mem, h.room, fun t pk ht => by
      have hs := h.awake t pk ht
      cases hbt : b t with
      | false => exact hbt
      | true => exact absurd (hb t hbt) (by simp [hs]), h.empty, h.ledger⟩

theorem threadWake_inv (h : Inv s l w) (t : Tid) : Inv (s.threadWake t) l w := by
  refine h.wake (fun u hu => ?_) s.port.closed
  by_cases hut : u = t
  · rw [hut, update_self] at hu
    cases hu
  · rwa [update_of_ne hut] at hu

theorem iocpHandleClosed_inv (h : Inv s l w) : Inv s.iocpHandleClosed l w := by
  obtain ⟨b, hb, hsub⟩ := wakeAll_eq s.calls .first { s with port := { s.port with closed := true } }
  unfold iocpHandleClosed
  rw [hb]
  exact h.wake hsub true

/-! ### Posting -/

theorem Queue.push (h : Queue q l) (hpk : pk ∉ l) (packet : PacketId → Packet) :
    Queue { q with
      packet := packet
      queue := update (update q.queue (.next pk) none)
        (match q.tail with | some last => next last | none => first) (some pk)
      tail := some pk
      count := q.count + 1 } (l ++ [pk]) := by
  have hslot : (match q.tail with | some last => next last | none => first) =
      lastSlot next .first l := by
    rw [lastSlot_eq, h.tail]
    cases l.getLast? with
    | none => rfl
    | some last => rfl
  have hclear : Chain next (update q.queue (.next pk) none) .first l := by
    refine h.chain.congr fun p hp => update_of_ne ?_ ..
    rintro rfl
    exact next_not_mem hpk hp
  rw [hslot]
  refine ⟨hclear.push (slots_nodup_of h.nodup) (update_self ..) (next_not_mem hpk), ?_, ?_, ?_⟩
  · refine nodup_append.2 ⟨h.nodup, nodup_singleton pk, ?_⟩
    rintro a ha _ hb rfl
    rw [mem_singleton.1 hb] at ha
    exact hpk ha
  · simp
  · show q.count + 1 = _
    rw [h.count, length_append, length_singleton]

theorem post_queue (h : Inv s l []) (p : Packet) :
    Inv { s with
      posted := s.posted ++ [s.posted.length]
      port := { s.port with
        packet := update s.port.packet s.posted.length p
        queue := update (update s.port.queue (.next s.posted.length) none)
          (match s.port.tail with | some last => next last | none => first)
          (some s.posted.length)
        tail := some s.posted.length
        count := s.port.count + 1 } } (l ++ [s.posted.length]) [] := by
  have hfresh : s.posted.length ∉ l := fun hm => h.ledger.fresh (mem_append_right _ hm)
  exact ⟨h.queue.push hfresh _, ⟨h.waiters.chain, h.waiters.nodup⟩, h.mem, h.room, h.awake,
    fun hw => absurd rfl hw, h.ledger.push⟩

theorem post_hand {a : Tid} {s' : Sys} (h : Inv s l (a :: w)) (p : Packet)
    (hs' : s' = { s with
      posted := s.posted ++ [s.posted.length]
      left := s.left ++ [s.posted.length]
      blocked := update s.blocked a false
      port := { s.port with
        packet := update s.port.packet s.posted.length p
        queue := update s.port.queue (.next s.posted.length) none
        waiters := update s.port.waiters .first (s.port.waiters (.next a))
        got := update s.port.got a (some s.posted.length) } }) : Inv s' [] w := by
  obtain rfl := h.empty nofun
  obtain ⟨hphase, hheld⟩ := (h.mem a).1 mem_cons_self
  have hnd := nodup_cons.1 h.waiters.nodup
  obtain ⟨args, hargs⟩ : ∃ args, s.phase a = .waiting args := by
    cases hp : s.phase a with
    | outside => exact absurd hp hphase
    | waiting args => exact ⟨args, rfl⟩
  have hnew : s'.held = update s.held a (some s.posted.length) := by
    funext t
    rw [hs']
    unfold held
    by_cases hta : t = a
    · simp [hta, hargs]
    · simp [hta]
  subst hs'
  refine ⟨⟨?_, nodup_nil, h.queue.tail, h.queue.count⟩,
    ⟨h.waiters.chain.pop (slots_nodup_of h.waiters.nodup), hnd.2⟩, fun t => ?_, ?_, fun t pk ht => ?_,
    fun _ => rfl, ?_⟩
  · have hne : first ≠ .next s.posted.length := nofun
    show update s.port.queue (.next s.posted.length) none .first = none
    exact h.queue.chain
  · rw [hnew]
    by_cases hta : t = a
    · rw [hta, update_self]
      exact iff_of_false hnd.1 fun hx => Option.some_ne_none _ hx.2
    · rw [update_of_ne hta]
      have hmem := h.mem t
      rw [mem_cons, or_iff_right hta] at hmem
      exact hmem
  · have hroom := h.room
    exact Nat.le_of_succ_le hroom
  · rw [hnew] at ht
    by_cases hta : t = a
    · rw [hta]
      exact update_self ..
    · rw [update_of_ne hta] at ht
      exact (update_of_ne hta ..).trans (h.awake t pk ht)
  · rw [hnew]
    exact h.ledger.hand hheld

theorem iocpPost_inv (h : Inv s l w) (p : Packet) (alloc : Bool) :
    ∃ l' w', Inv (s.iocpPost p alloc).1 l' w' := by
  unfold iocpPost
  cases alloc with
  | false => exact ⟨l, w, h⟩
  | true =>
    simp only [Bool.not_true, Bool.false_eq_true, if_false, h.waiters_head]
    cases w with
    | nil => exact ⟨_, _, post_queue h p⟩
    | cons a w =>
      refine ⟨[], w, ?_⟩
      have hand := post_hand h p rfl
      cases hb : s.blocked a with
      | true => simpa [threadWake, hb] using hand
      | false =>
        have hsame : update s.blocked a false = s.blocked := by
          rw [← hb, update_eq_self]
        rw [hsame] at hand
        simpa [hb] using hand

/-! ### Removing -/

/-- The thread has left the call, whatever it held. -/
def Sys.gone (s : Sys) (t : Tid) : Sys := { s with phase := update s.phase t .outside }

theorem gone_held (s : Sys) (t : Tid) : (s.gone t).held = update s.held t none := by
  funext u
  unfold held gone
  by_cases hut : u = t
  · simp [hut]
  · simp [hut]

/-- A round of the loop does not look at where its own thread is. -/
theorem portLoop_gone (s : Sys) (t : Tid) (a : Args) (env : Env) :
    (s.gone t).portLoop t a env = s.portLoop t a env := by
  unfold portLoop ret gone
  simp only [update_idem]

theorem ret_inv {pks : List PacketId} (h : Inv s (pks ++ l) w) (ho : s.phase t = .outside)
    (hq : Queue q l) (hs : SameRest s.port q) (st : Status) :
    Inv (ret { s with port := q, left := s.left ++ pks } t pks st) l w := by
  have hphase : update s.phase t .outside = s.phase := by rw [← ho, update_eq_self]
  have hout : (ret { s with port := q, left := s.left ++ pks } t pks st).out = s.out ++ pks := by
    simp [ret, out]
  have hheld : (ret { s with port := q, left := s.left ++ pks } t pks st).held = s.held := by
    unfold held ret
    simp only [hphase, hs.got]
  refine ⟨hq, ⟨?_, h.waiters.nodup⟩, fun u => ?_, h.room, fun u pk hu => ?_, fun hw => ?_, ?_⟩
  · show Chain next q.waiters .first w
    rw [hs.waiters]
    exact h.waiters.chain
  · rw [hheld]
    show u ∈ w ↔ update s.phase t .outside u ≠ _ ∧ _
    rw [hphase]
    exact h.mem u
  · rw [hheld] at hu
    exact h.awake u pk hu
  · exact (append_eq_nil_iff.1 (h.empty hw)).2
  · rw [hout, hheld]
    exact h.ledger.take

/-- A call that finds nothing becomes the first waiter. -/
theorem block_inv {s' : Sys} (h : Inv s [] w) (ho : s.phase t = .outside)
    (hroom : w.length < s.calls) (a : Args)
    (hs' : s' = { s with
      port := { s.port with
        got := update s.port.got t none
        waiters := update (update s.port.waiters (.next t)
          (s.port.waiters .first)) .first (some t) }
      phase := update s.phase t (.waiting a)
      blocked := update s.blocked t true }) : Inv s' [] (t :: w) := by
  have htw : t ∉ w := fun hm => ((h.mem t).1 hm).1 ho
  have hheld : s'.held = s.held := by
    funext u
    rw [hs']
    unfold held
    by_cases hut : u = t
    · simp [hut, ho]
    · simp [hut]
  subst hs'
  refine ⟨⟨h.queue.chain, h.queue.nodup, h.queue.tail, h.queue.count⟩,
    ⟨h.waiters.chain.link (slots_nodup_of h.waiters.nodup) (next_not_mem htw),
      nodup_cons.2 ⟨htw, h.waiters.nodup⟩⟩, fun u => ?_, hroom, fun u pk hu => ?_,
    fun _ => rfl, ?_⟩
  · rw [hheld]
    show u ∈ t :: w ↔ update s.phase t (.waiting a) u ≠ _ ∧ _
    by_cases hut : u = t
    · rw [hut, update_self]
      exact iff_of_true mem_cons_self ⟨nofun, held_of_outside ho⟩
    · rw [update_of_ne hut, mem_cons, or_iff_right hut]
      exact h.mem u
  · rw [hheld] at hu
    have hut : u ≠ t := by
      rintro rfl
      rw [held_of_outside ho] at hu
      cases hu
    exact (update_of_ne hut ..).trans (h.awake u pk hu)
  · rw [hheld]
    exact h.ledger

theorem portLoop_inv (h : Inv s l w) (ho : s.phase t = .outside) (hroom : w.length < s.calls)
    (a : Args) (env : Env) : ∃ l' w', Inv (s.portLoop t a env) l' w' := by
  have hret : ∀ st, Inv (s.ret t [] st) l w := by
    intro st
    have h' := ret_inv (show Inv s ([] ++ l) w from h) ho h.queue ⟨rfl, rfl, rfl⟩ st
    rwa [append_nil] at h'
  unfold portLoop
  split
  · exact ⟨l, w, hret .userApc⟩
  cases l with
  | cons pk l =>
    obtain ⟨q₁, h₁, hq₁, hs₁⟩ := portTake_cons h.queue
    obtain ⟨q₂, h₂, hq₂, hs₂⟩ := takeMore_spec (a.max - 1) hq₁
    simp only [h₁, h₂]
    refine ⟨l.drop (a.max - 1), w, ?_⟩
    refine ret_inv ?_ ho hq₂ ⟨hs₂.waiters.trans hs₁.waiters, hs₂.got.trans hs₁.got,
      hs₂.closed.trans hs₁.closed⟩ .success
    rw [cons_append, take_append_drop]
    exact h
  | nil =>
    simp only [portTake_nil h.queue]
    split
    · exact ⟨[], w, hret .abandonedWait0⟩
    split
    · exact ⟨[], w, hret .timeout⟩
    split
    · exact ⟨[], w, hret .threadIsTerminating⟩
    exact ⟨[], t :: w, block_inv h ho hroom a rfl⟩

theorem portRemove_inv (h : Inv s l w) (ho : s.phase t = .outside) (max : Nat)
    (timeout : Option Int) (alertable alloc : Bool) (env : Env) :
    ∃ l' w', Inv (s.portRemove t max timeout alertable alloc env) l' w' := by
  have hcall : Inv { s with calls := s.calls + 1 } l w :=
    ⟨h.queue, h.waiters, h.mem, Nat.le_succ_of_le h.room, h.awake, h.empty, h.ledger⟩
  cases alloc with
  | false =>
    have h' := ret_inv (show Inv { s with calls := s.calls + 1 } ([] ++ l) w from hcall) ho h.queue
      ⟨rfl, rfl, rfl⟩ .noMemory
    rw [append_nil] at h'
    exact ⟨l, w, h'⟩
  | true => exact portLoop_inv hcall ho (Nat.lt_succ_of_le h.room) _ env

/-- A waiter that has been handed a packet returns it, whatever woke it. -/
theorem portResume_handed (h : Inv s l w) {a : Args} (hp : s.phase t = .waiting a)
    (hg : s.port.got t = some pk) (env : Env) :
    (∃ l' w', Inv (s.portResume t a env) l' w') ∧
      (s.portResume t a env).returned =
        s.returned ++ [(t, pk :: l.take (a.max - 1), .success)] := by
  obtain ⟨q', htake, hq', hs⟩ := takeMore_spec (a.max - 1) h.queue
  have hheld : s.held t = some pk := by
    unfold held
    rw [hp]
    exact hg
  unfold portResume
  simp only [hg, htake]
  refine ⟨⟨l.drop (a.max - 1), w, ?_⟩, rfl⟩
  generalize hs' : ret { s with port := q', left := s.left ++ l.take (a.max - 1) } t
    (pk :: l.take (a.max - 1)) .success = s'
  have hgone : s'.held = update s.held t none := by
    rw [← gone_held]
    subst hs'
    unfold held ret gone
    simp only [hs.got]
  have hout : s'.out = (s.out ++ [pk]) ++ l.take (a.max - 1) := by
    subst hs'
    simp [ret, out]
  subst hs'
  refine ⟨hq', ⟨?_, h.waiters.nodup⟩, fun u => ?_, h.room, fun u pk' hu => ?_, fun hw => ?_, ?_⟩
  · show Chain next q'.waiters .first w
    rw [hs.waiters]
    exact h.waiters.chain
  · rw [hgone]
    show u ∈ w ↔ update s.phase t .outside u ≠ _ ∧ _
    by_cases hut : u = t
    · rw [hut, update_self]
      refine iff_of_false (fun hm => ?_) fun hx => hx.1 rfl
      have hnone := ((h.mem t).1 hm).2
      rw [hheld] at hnone
      cases hnone
    · rw [update_of_ne hut, update_of_ne hut]
      exact h.mem u
  · rw [hgone] at hu
    have hut : u ≠ t := by
      rintro rfl
      rw [update_self] at hu
      cases hu
    rw [update_of_ne hut] at hu
    exact h.awake u pk' hu
  · rw [h.empty hw, drop_nil]
  · rw [hgone, hout]
    refine (Ledger.take ?_ : Ledger _ _ _ _ (l.drop (a.max - 1)))
    rw [take_append_drop]
    exact h.ledger.give hheld

/-- A waiter without a packet leaves the list and goes round the loop again. -/
theorem portResume_empty (h : Inv s l w) {a : Args} (hp : s.phase t = .waiting a)
    (hg : s.port.got t = none) (env : Env) : ∃ l' w', Inv (s.portResume t a env) l' w' := by
  have hheld : s.held t = none := by
    unfold held
    rw [hp]
    exact hg
  have htw : t ∈ w := (h.mem t).2 ⟨by rw [hp]; nofun, hheld⟩
  obtain ⟨pre, post, rfl⟩ := append_of_mem htw
  have hnd := h.waiters.nodup
  have hapart := nodup_append.1 hnd
  have hroom := h.room
  rw [length_append, length_cons] at hroom
  have hpre : t ∉ pre := fun hm => hapart.2.2 t hm t mem_cons_self rfl
  have hpost : t ∉ post := (nodup_cons.1 hapart.2.1).1
  have hunlink : unlink next t s.calls .first s.port.waiters =
      update s.port.waiters (lastSlot next .first pre) (s.port.waiters (.next t)) :=
    unlink_of_mem h.waiters.chain hpre (by omega)
  have hcut := h.waiters.chain.cut (slots_nodup_of hnd)
  unfold portResume
  simp only [hg]
  rw [← portLoop_gone]
  have hgone : (gone { s with port := s.port.waiterRemove s.calls t } t).held = s.held := by
    rw [gone_held]
    funext u
    by_cases hut : u = t
    · rw [hut, update_self, hheld]
    · rw [update_of_ne hut]
      rfl
  refine portLoop_inv (w := pre ++ post) (l := l) ?_ (update_self ..) ?_ a env
  · refine ⟨⟨h.queue.chain, h.queue.nodup, h.queue.tail, h.queue.count⟩, ⟨?_, ?_⟩, fun u => ?_, ?_,
      fun u pk hu => ?_, fun hw => h.empty (by simp), ?_⟩
    · show Chain next (unlink next t s.calls .first s.port.waiters) .first (pre ++ post)
      rw [hunlink]
      exact hcut
    · exact hnd.sublist (List.Sublist.append_left (sublist_cons_self t post) pre)
    · rw [hgone]
      show u ∈ pre ++ post ↔ update s.phase t .outside u ≠ _ ∧ _
      by_cases hut : u = t
      · rw [hut, update_self]
        refine iff_of_false (fun hm => ?_) fun hx => hx.1 rfl
        obtain hm | hm := mem_append.1 hm
        · exact hpre hm
        · exact hpost hm
      · rw [update_of_ne hut, ← h.mem u]
        simp [hut]
    · show (pre ++ post).length ≤ s.calls
      rw [length_append]
      omega
    · rw [hgone] at hu
      exact h.awake u pk hu
    · rw [hgone]
      exact h.ledger
  · show (pre ++ post).length < s.calls
    rw [length_append]
    omega

theorem step_inv (h : Inv s l w) (step : Step) : ∃ l' w', Inv (s.step step) l' w' := by
  cases step with
  | post p alloc => exact iocpPost_inv h p alloc
  | close => exact ⟨l, w, iocpHandleClosed_inv h⟩
  | wake t => exact ⟨l, w, threadWake_inv h t⟩
  | remove t max timeout alertable alloc env =>
    cases hp : s.phase t with
    | outside =>
      simp only [step, hp]
      exact portRemove_inv h hp max timeout alertable alloc env
    | waiting a =>
      simp only [step, hp]
      exact ⟨l, w, h⟩
  | resume t env =>
    cases hp : s.phase t with
    | outside =>
      simp only [step, hp]
      exact ⟨l, w, h⟩
    | waiting a =>
      simp only [step, hp]
      split
      · exact ⟨l, w, h⟩
      · cases hg : s.port.got t with
        | none => exact portResume_empty h hp hg env
        | some pk => exact (portResume_handed h hp hg env).1

theorem run_inv (h : Inv s l w) (steps : List Step) : ∃ l' w', Inv (s.run steps) l' w' := by
  induction steps generalizing s l w with
  | nil => exact ⟨l, w, h⟩
  | cons step steps ih =>
    obtain ⟨l', w', h'⟩ := step_inv h step
    exact ih h'

/-! ### What a section leaves alone -/

/-- What a call on `t` leaves alone: the packets, and what the other threads hold. -/
structure Elsewhere (s s' : Sys) (t : Tid) : Prop where
  posted : s'.posted = s.posted
  packet : s'.port.packet = s.port.packet
  held : ∀ u, u ≠ t → s'.held u = s.held u

theorem portTake_packet (q : Port) : q.portTake.2.packet = q.packet ∧ q.portTake.2.got = q.got := by
  unfold Port.portTake
  split
  · exact ⟨rfl, rfl⟩
  · exact ⟨rfl, rfl⟩

theorem takeMore_packet (k : Nat) (q : Port) :
    (q.takeMore k).2.packet = q.packet ∧ (q.takeMore k).2.got = q.got := by
  induction k generalizing q with
  | zero => exact ⟨rfl, rfl⟩
  | succ k ih =>
    have htake := portTake_packet q
    unfold Port.takeMore
    cases hq : q.portTake with
    | mk pk q' =>
      rw [hq] at htake
      cases pk with
      | none => exact htake
      | some pk => exact ⟨(ih q').1.trans htake.1, (ih q').2.trans htake.2⟩

theorem ret_elsewhere (s : Sys) (q : Port) (left : List PacketId) (t : Tid) (pks : List PacketId)
    (st : Status) (hq : q.packet = s.port.packet ∧ q.got = s.port.got) :
    Elsewhere s (ret { s with port := q, left := left } t pks st) t := by
  refine ⟨rfl, hq.1, fun u hu => ?_⟩
  unfold held ret
  simp only [update_of_ne hu, hq.2]

theorem portLoop_elsewhere (s : Sys) (t : Tid) (a : Args) (env : Env) :
    Elsewhere s (s.portLoop t a env) t := by
  have hret : ∀ st, Elsewhere s (s.ret t [] st) t := fun st =>
    ret_elsewhere s s.port s.left t [] st ⟨rfl, rfl⟩
  unfold portLoop
  split
  · exact hret .userApc
  have htake := portTake_packet s.port
  cases hq : s.port.portTake with
  | mk pk q =>
    rw [hq] at htake
    cases pk with
    | some pk =>
      have hmore := takeMore_packet (a.max - 1) q
      exact ret_elsewhere s _ _ t _ .success ⟨hmore.1.trans htake.1, hmore.2.trans htake.2⟩
    | none =>
      simp only
      split
      · exact hret .abandonedWait0
      split
      · exact hret .timeout
      split
      · exact hret .threadIsTerminating
      refine ⟨rfl, htake.1, fun u hu => ?_⟩
      have hgot : q.got = s.port.got := htake.2
      unfold held
      simp only [update_of_ne hu, hgot]

theorem portRemove_elsewhere (s : Sys) (t : Tid) (max : Nat) (timeout : Option Int)
    (alertable alloc : Bool) (env : Env) :
    Elsewhere s (s.portRemove t max timeout alertable alloc env) t := by
  cases alloc with
  | false =>
    have hret := ret_elsewhere { s with calls := s.calls + 1 } s.port s.left t [] .noMemory ⟨rfl, rfl⟩
    exact ⟨hret.posted, hret.packet, hret.held⟩
  | true =>
    have hloop := portLoop_elsewhere { s with calls := s.calls + 1 } t
      { max, timeout, alertable, deadline := deadlineOf timeout env.ticks } env
    exact ⟨hloop.posted, hloop.packet, hloop.held⟩

theorem portResume_elsewhere (s : Sys) (t : Tid) (a : Args) (env : Env) :
    Elsewhere s (s.portResume t a env) t := by
  unfold portResume
  cases s.port.got t with
  | none =>
    have hloop := portLoop_elsewhere { s with port := s.port.waiterRemove s.calls t } t a env
    exact ⟨hloop.posted, hloop.packet, hloop.held⟩
  | some pk => exact ret_elsewhere s _ _ t _ .success (takeMore_packet (a.max - 1) s.port)

def posts (steps : List Step) : List Packet :=
  steps.filterMap fun
    | .post p true => some p
    | _ => none

theorem iocpPost_spec (h : Inv s l w) (p : Packet) :
    (s.iocpPost p true).1.posted = s.posted ++ [s.posted.length] ∧
      (s.iocpPost p true).1.port.packet = update s.port.packet s.posted.length p ∧
      ∀ t pk, s.held t = some pk → (s.iocpPost p true).1.held t = some pk := by
  unfold iocpPost
  simp only [Bool.not_true, Bool.false_eq_true, if_false, h.waiters_head]
  cases w with
  | nil => exact ⟨rfl, rfl, fun _ _ ht => ht⟩
  | cons a w =>
    have hnone := ((h.mem a).1 mem_cons_self).2
    have hheld : ∀ s' : Sys, s'.phase = s.phase →
        s'.port.got = update s.port.got a (some s.posted.length) →
        ∀ t pk, s.held t = some pk → s'.held t = some pk := by
      intro s' hp hg t pk ht
      have hta : t ≠ a := by
        rintro rfl
        rw [hnone] at ht
        cases ht
      unfold held at ht ⊢
      rw [hp, hg, update_of_ne hta]
      exact ht
    simp only [List.head?_cons]
    split
    · exact ⟨rfl, rfl, hheld _ rfl rfl⟩
    · exact ⟨rfl, rfl, hheld _ rfl rfl⟩

theorem held_step (h : Inv s l w) (step : Step) (ht : s.held t = some pk)
    (hne : ∀ env, step ≠ .resume t env) : (s.step step).held t = some pk := by
  cases step with
  | post p alloc =>
    cases alloc with
    | false => exact ht
    | true => exact (iocpPost_spec h p).2.2 t pk ht
  | close =>
    obtain ⟨b, hb, -⟩ := wakeAll_eq s.calls .first { s with port := { s.port with closed := true } }
    show (wakeAll s.calls .first { s with port := { s.port with closed := true } }).held t = _
    rw [hb]
    exact ht
  | wake u => exact ht
  | remove u max timeout alertable alloc env =>
    cases hp : s.phase u with
    | outside =>
      have hut : t ≠ u := by
        rintro rfl
        rw [held_of_outside hp] at ht
        cases ht
      simp only [step, hp]
      rw [(portRemove_elsewhere s u max timeout alertable alloc env).held t hut, ht]
    | waiting a =>
      simp only [step, hp]
      exact ht
  | resume u env =>
    have hut : t ≠ u := by
      rintro rfl
      exact hne env rfl
    cases hp : s.phase u with
    | outside =>
      simp only [step, hp]
      exact ht
    | waiting a =>
      simp only [step, hp]
      split
      · exact ht
      · rw [(portResume_elsewhere s u a env).held t hut, ht]

theorem held_run (h : Inv s l w) (steps : List Step) (ht : s.held t = some pk)
    (hne : ∀ step ∈ steps, ∀ env, step ≠ .resume t env) : (s.run steps).held t = some pk := by
  induction steps generalizing s l w with
  | nil => exact ht
  | cons step steps ih =>
    obtain ⟨l', w', h'⟩ := step_inv h step
    exact ih h' (held_step h step ht (hne step mem_cons_self)) fun step' hs =>
      hne step' (mem_cons_of_mem step hs)

theorem packets_step (h : Inv s l w) (step : Step) :
    (s.step step).posted.map (s.step step).port.packet =
      s.posted.map s.port.packet ++ posts [step] := by
  have hsame : ∀ s' : Sys, s'.posted = s.posted → s'.port.packet = s.port.packet →
      s'.posted.map s'.port.packet = s.posted.map s.port.packet ++ [] := by
    intro s' hp hk
    rw [hp, hk, append_nil]
  cases step with
  | post p alloc =>
    cases alloc with
    | false => exact hsame _ rfl rfl
    | true =>
      obtain ⟨hp, hk, -⟩ := iocpPost_spec h p
      show (s.iocpPost p true).1.posted.map (s.iocpPost p true).1.port.packet = _ ++ [p]
      have hfresh : s.posted.length ∉ s.posted := by
        have hf := h.ledger.fresh
        rwa [← h.ledger.order] at hf
      rw [hp, hk, map_append, map_singleton, update_self]
      congr 1
      refine map_congr_left fun pk hpk => update_of_ne ?_ ..
      rintro rfl
      exact hfresh hpk
  | close =>
    obtain ⟨b, hb, -⟩ := wakeAll_eq s.calls .first { s with port := { s.port with closed := true } }
    refine hsame _ ?_ ?_
    · show (wakeAll s.calls .first { s with port := { s.port with closed := true } }).posted = _
      rw [hb]
    · show (wakeAll s.calls .first { s with port := { s.port with closed := true } }).port.packet = _
      rw [hb]
  | wake u => exact hsame _ rfl rfl
  | remove u max timeout alertable alloc env =>
    cases hp : s.phase u with
    | outside =>
      have he := portRemove_elsewhere s u max timeout alertable alloc env
      simp only [step, hp]
      exact hsame _ he.posted he.packet
    | waiting a =>
      simp only [step, hp]
      exact hsame _ rfl rfl
  | resume u env =>
    cases hp : s.phase u with
    | outside =>
      simp only [step, hp]
      exact hsame _ rfl rfl
    | waiting a =>
      have he := portResume_elsewhere s u a env
      simp only [step, hp]
      split
      · exact hsame _ rfl rfl
      · exact hsame _ he.posted he.packet

theorem packets_run (h : Inv s l w) (steps : List Step) :
    (s.run steps).posted.map (s.run steps).port.packet =
      s.posted.map s.port.packet ++ posts steps := by
  induction steps generalizing s l w with
  | nil => exact (append_nil _).symm
  | cons step steps ih =>
    obtain ⟨l', w', h'⟩ := step_inv h step
    have hrest := ih h'
    rw [packets_step h step, append_assoc] at hrest
    have hposts : posts ([step] ++ steps) = posts [step] ++ posts steps := filterMap_append
    rw [singleton_append] at hposts
    rw [hposts]
    exact hrest

theorem held_returned (h : Inv s l w) (ht : s.held t = some pk) (env : Env) :
    ∃ pks, (s.step (.resume t env)).returned = s.returned ++ [(t, pk :: pks, .success)] := by
  cases hp : s.phase t with
  | outside =>
    rw [held_of_outside hp] at ht
    cases ht
  | waiting a =>
    have hb := h.awake t pk ht
    have hg : s.port.got t = some pk := by
      unfold held at ht
      rwa [hp] at ht
    simp only [step, hp, hb]
    exact ⟨_, (portResume_handed h hp hg env).2⟩

/-- **Completion ports neither lose nor duplicate packets.**  After every run of sections: the
queue holds `l` and the waiters are `w`; what was posted is what has left, in that order, and then
the queue; a packet that has left is either returned by one call or in the hands of one thread
inside `port_remove`, which returns it when it runs, whatever happens before; and no thread is
blocked while a packet is queued. -/
theorem port_delivers (steps : List Step) :
    let s := init.run steps
    ∃ l w, Queue s.port l ∧ Waiters s.port w ∧
      s.posted.map s.port.packet = posts steps ∧
      s.posted = s.left ++ l ∧ s.posted.Nodup ∧
      s.out.Nodup ∧ (∀ pk ∈ s.out, pk ∈ s.left) ∧
      (∀ pk ∈ s.left, (pk ∈ s.out ∧ ∀ t, s.held t ≠ some pk) ∨
        (pk ∉ s.out ∧ ∃ t, s.held t = some pk ∧ ∀ u, s.held u = some pk → u = t)) ∧
      (∀ t ∈ w, s.phase t ≠ .outside) ∧
      (l ≠ [] → ∀ t, s.phase t ≠ .outside → s.blocked t = false) ∧
      ∀ t pk, s.held t = some pk → ∀ later, (∀ step ∈ later, ∀ env, step ≠ .resume t env) →
        ∀ env, ∃ pks, ((s.run later).step (.resume t env)).returned =
          (s.run later).returned ++ [(t, pk :: pks, .success)] := by
  intro s
  obtain ⟨l, w, h⟩ := run_inv init_inv steps
  have hnd : s.posted.Nodup := by
    rw [h.ledger.numbered]
    exact nodup_range
  refine ⟨l, w, h.queue, h.waiters, packets_run init_inv steps, h.ledger.order, hnd, h.ledger.once,
    h.ledger.sub, fun pk hpk => ?_, fun t ht => ((h.mem t).1 ht).1, fun hl t hp => ?_,
    fun t pk ht later hne env => ?_⟩
  · obtain ho | ⟨t, ht⟩ := h.ledger.gone pk hpk
    · exact .inl ⟨ho, fun t ht => (h.ledger.inHand t pk ht).2 ho⟩
    · exact .inr ⟨(h.ledger.inHand t pk ht).2, t, ht, fun u hu => h.ledger.apart u t pk hu ht⟩
  · cases hheld : s.held t with
    | some pk => exact h.awake t pk hheld
    | none => exact absurd (h.empty (ne_nil_of_mem ((h.mem t).2 ⟨hp, hheld⟩))) hl
  · obtain ⟨l', w', h'⟩ := run_inv h later
    exact held_returned h' (held_run h later ht hne) env

end Win98Modern.Iocp
