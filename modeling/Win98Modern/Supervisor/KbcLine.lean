import Win98Modern.Supervisor.Kbc
import Mathlib.Data.List.Induction

/-!
# The FIFO as a queue

`Line.history` replays the trace of the FIFO on the queue with fates.  `Line.Ok` says that the ring
of 16 slots holds what waits there, and that the guest has read what was taken.  `Feeds` is what the
producers and the purges do: they keep `Line.Ok` and take nothing.
-/

namespace Win98Modern.I8042

open List History

/-- All bytes ever queued, with what became of them. -/
def Line.history (l : Line) : History Queued := (l.trace.map Act.op).foldl apply []

/-- The packets that were put into the FIFO. -/
def Line.packets (l : Line) : List Packet :=
  l.trace.filterMap fun
    | .put p => some p
    | _ => none

/-- The key sequences that were put into the FIFO. -/
def Line.delivered (l : Line) : List (List Byte) :=
  l.packets.filterMap fun
    | .key set2 _ => some set2
    | _ => none

/-- A key sequence is all its encoded bytes, a pointer packet has three. -/
def Packet.Whole : Packet → Prop
  | .reply _ => True
  | .pointer bytes host => host = true → bytes.length = 3
  | .key set2 bytes => bytes ≠ [] ∧ ∃ s, keyboardEncode s set2 = some bytes

/-- The FIFO holds what waits; the guest has read what was taken; replies that are not in the
history were counted. -/
structure Line.Ok (l : Line) : Prop where
  count_le : l.fifo.count ≤ fifoSize
  contents : l.fifo.toList = l.history.waiting
  inOrder : l.history.InOrder
  reads : l.reads = l.history.taken.map Queued.byte
  replyDropped : l.replyDropped = min (l.trace.count .drop) UINT32_MAX
  whole : ∀ p ∈ l.packets, p.Whole

variable {l l' l'' : Line} {p : Packet}

theorem history_append (l : Line) (a : Act) (f : RingBuffer Queued fifoSize) (n : Nat) (r : List Byte) :
    Line.history ⟨f, n, l.trace ++ [a], r⟩ = l.history.apply a.op := by
  simp [Line.history]

theorem packets_append (l : Line) (a : Act) (f : RingBuffer Queued fifoSize) (n : Nat) (r : List Byte) :
    Line.packets ⟨f, n, l.trace ++ [a], r⟩ = l.packets ++ (match a with | .put p => [p] | _ => []) := by
  unfold Line.packets
  rw [filterMap_append]
  cases a <;> rfl

/-- **The bytes in the history are those of the packets, each in one piece.** -/
theorem history_fst (l : Line) : l.history.map Prod.fst = l.packets.flatMap Packet.queued := by
  obtain ⟨f, n, trace, r⟩ := l
  induction trace using List.reverseRecOn with
  | nil => rfl
  | append_singleton as a ih =>
    have hh := history_append ⟨f, n, as, r⟩ a f n r
    have hp := packets_append ⟨f, n, as, r⟩ a f n r
    rw [hh, hp, map_fst_apply, ih, flatMap_append]
    cases a <;> simp [Act.op, QueueOp.added]

theorem count_enqueue_foldl (qs : List Queued) (r : RingBuffer Queued fifoSize)
    (h : r.count + qs.length < 256) : (qs.foldl enqueue r).count = r.count + qs.length := by
  induction qs generalizing r with
  | nil => rfl
  | cons q qs ih =>
    simp only [length_cons] at h
    have hc : (enqueue r q).count = r.count + 1 := Nat.mod_eq_of_lt (by omega)
    rw [foldl_cons, ih _ (by omega), hc, length_cons]
    omega

theorem toList_enqueue_foldl (qs : List Queued) (r : RingBuffer Queued fifoSize)
    (h : r.count + qs.length ≤ fifoSize) : (qs.foldl enqueue r).toList = r.toList ++ qs := by
  induction qs generalizing r with
  | nil => simp
  | cons q qs ih =>
    simp only [length_cons] at h
    have hsize : fifoSize = 16 := rfl
    have hpush : enqueue r q = r.push q := by
      unfold enqueue
      rw [Nat.mod_eq_of_lt (by omega)]
      rfl
    rw [foldl_cons, hpush, ih _ (by rw [RingBuffer.count_push]; omega),
      RingBuffer.toList_push q (by omega), append_assoc, singleton_append]

/-! ### What is done to the line -/

theorem Line.Ok.put (h : l.Ok) (hfit : l.fifo.count + p.queued.length ≤ fifoSize) (hp : p.Whole) :
    (l.put p).Ok where
  count_le := by
    show (p.queued.foldl enqueue l.fifo).count ≤ _
    rw [count_enqueue_foldl _ _ (hfit.trans_lt (by decide))]
    exact hfit
  contents := by
    rw [Line.put, history_append, Act.op, waiting_put, ← h.contents]
    exact toList_enqueue_foldl _ _ hfit
  inOrder := by
    rw [Line.put, history_append]
    exact h.inOrder.put _
  reads := by
    rw [Line.put, history_append, Act.op, taken_put]
    exact h.reads
  replyDropped := by
    show l.replyDropped = min ((l.trace ++ [Act.put p]).count Act.drop) _
    rw [count_append, h.replyDropped]
    simp
  whole := by
    rw [Line.put, packets_append]
    intro q hq
    rcases mem_append.1 hq with hq | hq
    · exact h.whole q hq
    · exact mem_singleton.1 hq ▸ hp

theorem saturate (c m : Nat) : (if min c m ≠ m then min c m + 1 else min c m) = min (c + 1) m := by
  split_ifs <;> omega

theorem Line.Ok.drop (h : l.Ok) : l.drop.Ok where
  count_le := h.count_le
  contents := by
    rw [Line.drop, history_append, Act.op, waiting_put, append_nil]
    exact h.contents
  inOrder := by
    rw [Line.drop, history_append]
    exact h.inOrder.put _
  reads := by
    rw [Line.drop, history_append, Act.op, taken_put]
    exact h.reads
  replyDropped := by
    show (if _ then _ else _) = min ((l.trace ++ [Act.drop]).count Act.drop) _
    rw [count_append, count_singleton_self, h.replyDropped]
    exact saturate _ _
  whole := by
    rw [Line.drop, packets_append, append_nil]
    exact h.whole

theorem Line.Ok.purge (h : l.Ok) (mask value : Byte) : (l.purge mask value).Ok where
  count_le := by
    show RingBuffer.count (if _ then _ else _) ≤ _
    split_ifs
    · exact h.count_le
    · refine (length_filter_le _ _).trans ?_
      rw [RingBuffer.length_toList]
      exact h.count_le
  contents := by
    rw [Line.purge, history_append, Act.op, waiting_purge, ← h.contents]
    show RingBuffer.toList (if _ then _ else _) = _
    split_ifs with hall
    · rw [← RingBuffer.length_toList] at hall
      exact (filter_eq_self.2 (length_filter_eq_length_iff.1 hall)).symm
    · refine RingBuffer.toList_ofList _ ((length_filter_le _ _).trans ?_)
      rw [RingBuffer.length_toList]
      exact h.count_le
  inOrder := by
    rw [Line.purge, history_append]
    exact h.inOrder.purge _
  reads := by
    rw [Line.purge, history_append, Act.op, taken_purge]
    exact h.reads
  replyDropped := by
    show l.replyDropped = min ((l.trace ++ [Act.purge mask value]).count Act.drop) _
    rw [count_append, h.replyDropped]
    simp
  whole := by
    rw [Line.purge, packets_append, append_nil]
    exact h.whole

theorem Line.Ok.head? (h : l.Ok) (hc : 0 < l.fifo.count) :
    l.history.waiting.head? = some (l.fifo.slots (l.fifo.head % fifoSize)) := by
  rw [← h.contents, RingBuffer.toList_pop hc, List.head?_cons]

theorem Line.Ok.take (h : l.Ok) (hc : 0 < l.fifo.count) : l.take.Ok where
  count_le := (Nat.sub_le _ _).trans h.count_le
  contents := by
    rw [Line.take, history_append, Act.op, waiting_take, ← h.contents,
      RingBuffer.toList_pop hc, tail_cons]
  inOrder := by
    rw [Line.take, history_append]
    exact h.inOrder.take
  reads := by
    rw [Line.take, history_append, Act.op, h.inOrder.taken_take, h.head? hc, map_append, ← h.reads]
    rfl
  replyDropped := by
    show l.replyDropped = min ((l.trace ++ [Act.take]).count Act.drop) _
    rw [count_append, h.replyDropped]
    simp
  whole := by
    rw [Line.take, packets_append, append_nil]
    exact h.whole

/-! ### Feeding the line -/

/-- What the producers other than the keyboard, and the purges, do to the line. -/
structure Feeds (l l' : Line) : Prop where
  ok : l.Ok → l'.Ok
  grows : l.history.Grows l'.history
  untaken : l.history.Untaken l'.history
  delivered : l'.delivered = l.delivered

theorem Feeds.refl (l : Line) : Feeds l l := ⟨id, .refl _, .refl _, rfl⟩

theorem Feeds.trans (h : Feeds l l') (h' : Feeds l' l'') : Feeds l l'' :=
  ⟨h'.ok ∘ h.ok, h.grows.trans h'.grows, h.untaken.trans h'.untaken, h'.delivered.trans h.delivered⟩

theorem feeds_drop (l : Line) : Feeds l l.drop where
  ok := Line.Ok.drop
  grows := by
    rw [Line.drop, history_append]
    exact .apply _ _
  untaken := by
    rw [Line.drop, history_append]
    exact .put _ _
  delivered := by
    rw [Line.delivered, Line.drop, packets_append, append_nil]
    rfl

theorem feeds_purge (l : Line) (mask value : Byte) : Feeds l (l.purge mask value) where
  ok h := h.purge mask value
  grows := by
    rw [Line.purge, history_append]
    exact .apply _ _
  untaken := by
    rw [Line.purge, history_append]
    exact .purge _ _
  delivered := by
    rw [Line.delivered, Line.purge, packets_append, append_nil]
    rfl

theorem delivered_put (l : Line) (p : Packet) :
    (l.put p).delivered = l.delivered ++ (match p with | .key set2 _ => [set2] | _ => []) := by
  rw [Line.delivered, Line.put, packets_append, filterMap_append]
  cases p <;> rfl

theorem grows_put (l : Line) (p : Packet) :
    l.history.Grows (l.put p).history ∧ l.history.Untaken (l.put p).history := by
  rw [Line.put, history_append]
  exact ⟨.apply _ _, .put _ _⟩

theorem feeds_reply (l : Line) (v : Byte) : Feeds l (l.kbcReply v) := by
  unfold Line.kbcReply
  split_ifs with hfull
  · exact feeds_drop l
  · have hput := grows_put l (.reply v)
    refine ⟨fun h => h.put ?_ trivial, hput.1, hput.2, ?_⟩
    · have := h.count_le
      show _ + 1 ≤ _
      omega
    · rw [delivered_put, append_nil]

theorem room_eq (h : l.fifo.count ≤ fifoSize) : l.room = fifoSize - l.fifo.count := by
  have hsize : fifoSize = 16 := rfl
  unfold Line.room
  omega

theorem feeds_pointer (l : Line) (bytes : List Byte) (host : Bool) (hroom : ¬ l.room < bytes.length)
    (hw : host = true → bytes.length = 3) : Feeds l (l.put (.pointer bytes host)) := by
  have hput := grows_put l (.pointer bytes host)
  refine ⟨fun h => h.put ?_ hw, hput.1, hput.2, ?_⟩
  · rw [room_eq h.count_le] at hroom
    have := h.count_le
    show _ + (bytes.map _).length ≤ _
    rw [length_map]
    omega
  · rw [delivered_put, append_nil]

end Win98Modern.I8042
