import Win98Modern.Kernel64.Virtq
import Win98Modern.Lib.Window
import Mathlib.Algebra.GroupWithZero.Nat
import Mathlib.Algebra.Order.BigOperators.Group.List
import Mathlib.Algebra.Order.Group.Nat

/-!
# Descriptors and entries of a virtqueue over whole runs

`Partition q`: the free list and the chains in flight hold every descriptor of the table once.  Every call
keeps it whatever the device reports (`partition_publish`, `partition_splice`), and with it the ledger of the
chains (`Inv`).  The two rings are windows of the sequences written into them (`Rings`), as long as no entry
is written over one that is still to be read.
-/

namespace Win98Modern.Virtq

open Function List Option Queue

open scoped List

/-- What holds of the descriptors: they are counted, and the free list has none of a chain in flight. -/
structure Accounted (q : Queue) : Prop where
  sum : q.numFree + ((List.range q.size).map q.chainLen).sum = q.size
  free_nodup : (trail q.next q.freeHead q.numFree).Nodup
  free_lt : ∀ d ∈ trail q.next q.freeHead q.numFree, d < q.size
  apart : ∀ h < q.size, ∀ d ∈ trail q.next h (q.chainLen h), d ∉ trail q.next q.freeHead q.numFree

/-- What holds of the cookies: none came back twice, each as it was given, and those that did not are of chains
in flight. -/
structure Returned (s : System) : Prop where
  nodup : (s.returned.map Prod.fst).Nodup
  cookie : ∀ p ∈ s.returned, ∃ c, s.added[p.1]? = some c ∧ p.2 = c.cookie
  complete : ∀ k < s.added.length, (k ∈ s.returned.map Prod.fst ↔ ∀ h < s.queue.size, s.inFlight h ≠ some k)

def Ledger (s : System) : Prop := Accounted s.queue ∧ Returned s

/-- What the device has read, and that it has read all there is when it sees nothing new. -/
structure Faithful (s : System) : Prop where
  read : s.consumed <+: s.added.map Chain.head
  all : s.devIdx = s.queue.availIdx → s.queue.availPending = 0 → s.consumed = s.added.map Chain.head

/-- The chain in flight whose completion an element reports. -/
def reported (s : System) (e : UsedElem) : Option Nat := if e.id < s.queue.size then s.inFlight e.id else none

/-- `virtq_get_used` takes the first report that it has not taken, and gives back the cookie of the chain whose
completion it is; for any other report, and without one, it gives back nothing.  A kick publishes every entry
that was added. -/
def Completes (s : System) : Event → Prop
  | .getUsed =>
    match s.reports[s.taken]? with
    | none => s.queue.getUsed.2 = (0, 0) ∧ s.getUsed = s
    | some e => s.getUsed.taken = s.taken + 1 ∧
      match reported s e with
      | none => s.queue.getUsed.2 = (0, 0) ∧ s.getUsed.returned = s.returned
      | some k => ∃ c, s.added[k]? = some c ∧ s.queue.getUsed.2 = (c.cookie, e.len) ∧
          s.getUsed.returned = (k, c.cookie) :: s.returned
  | .kick => s.queue.kickPrepare.1.availPending = 0 ∧
      s.queue.kickPrepare.1.availIdx = s.added.length % 2 ^ 16
  | _ => True

/-- The slot of the `k`-th entry of a ring. -/
def slot (size k : Nat) : Nat := k % 2 ^ 16 % size

/-- No entry is written over one that is still to be read, and no element names, but for its high half, a chain
in flight. -/
def Apart (s : System) : Event → Prop
  | .add nOut nIn _ _ _ => (nOut + nIn) % 2 ^ 32 ≠ 0 → (nOut + nIn) % 2 ^ 32 ≤ min s.queue.size s.queue.numFree →
      ∀ k, s.consumed.length ≤ k → k < s.added.length → slot s.queue.size k ≠ slot s.queue.size s.added.length
  | .report _ => ∀ k, s.taken ≤ k → k < s.reports.length → slot s.queue.size k ≠ slot s.queue.size s.reports.length
  | .getUsed => ∀ e, s.nextUsed = some e → e.id < 2 ^ 16 ∨ s.accepts e = none
  | _ => True

/-! ### Descriptors -/

def Partition (q : Queue) : Prop :=
  (trail q.next q.freeHead q.numFree ++ (List.range q.size).flatMap fun h => trail q.next h (q.chainLen h)).Perm
    (List.range q.size)

variable {q : Queue} {s : System}

theorem describeAll_eq (total nOut : Nat) (out inn : Nat → Sg) (k : Nat) (q : Queue) (prev cur : Nat) :
    ∃ addr len flags, describeAll total nOut out inn k q prev cur =
      ({ q with addr := addr, len := len, flags := flags }, if k = 0 then prev else q.next^[k - 1] cur,
        q.next^[k] cur) := by
  induction k generalizing q prev cur with
  | zero => exact ⟨q.addr, q.len, q.flags, rfl⟩
  | succ k ih =>
    obtain ⟨addr, len, flags, h⟩ :=
      ih (q.describe cur (total - (k + 1)) total nOut out inn) cur (q.next cur)
    refine ⟨addr, len, flags, ?_⟩
    rw [describeAll, h]
    cases k with
    | zero => rfl
    | succ k => rfl

theorem add_cases (nOut nIn : Nat) (out inn : Nat → Sg) (cookie : Nat) :
    q.add nOut nIn out inn cookie = (q, none) ∨
      ∃ addr len flags n, (nOut + nIn) % 2 ^ 32 = n + 1 ∧ n < min q.size q.numFree ∧ q.add nOut nIn out inn cookie =
        ({ q with addr := addr, len := len, flags := flags }.publish q.freeHead (q.next^[n] q.freeHead)
          (q.next^[n + 1] q.freeHead) (n + 1) cookie, some q.freeHead) := by
  by_cases hbad : (nOut + nIn) % 2 ^ 32 = 0 ∨ q.size < (nOut + nIn) % 2 ^ 32 ∨ q.numFree < (nOut + nIn) % 2 ^ 32
  · exact .inl (by rw [add, if_pos hbad])
  · obtain ⟨n, hn⟩ := Nat.exists_eq_succ_of_ne_zero (fun h => hbad (.inl h))
    obtain ⟨addr, len, flags, h⟩ := describeAll_eq (n + 1) nOut out inn (n + 1) q 0 q.freeHead
    refine .inr ⟨addr, len, flags, n, hn, ?_, ?_⟩
    · rw [hn] at hbad
      omega
    · rw [add, if_neg hbad, hn]
      simp only [Nat.succ_eq_add_one] at hn ⊢
      rw [h]
      rfl

variable {n a b k size : Nat} {e : UsedElem}

theorem flatMap_update {f g : Nat → List Nat} {h : Nat} (hh : h < n)
    (hg : ∀ i < n, i ≠ h → g i = f i) :
    (List.range n).flatMap g ++ f h ~ (List.range n).flatMap f ++ g h := by
  induction n with
  | zero => omega
  | succ n ih =>
    rw [range_succ, flatMap_append, flatMap_append, flatMap_singleton, flatMap_singleton]
    rcases Nat.lt_succ_iff_lt_or_eq.1 hh with hlt | rfl
    · have hn : g n = f n := hg n (by omega) (by omega)
      have hrest := ih hlt fun i hi => hg i (by omega)
      rw [hn]
      calc (List.range n).flatMap g ++ f n ++ f h ~ (List.range n).flatMap g ++ f h ++ f n := by
            rw [append_assoc, append_assoc]
            exact List.Perm.append_left _ perm_append_comm
        _ ~ (List.range n).flatMap f ++ g h ++ f n := hrest.append_right _
        _ ~ (List.range n).flatMap f ++ f n ++ g h := by
            rw [append_assoc, append_assoc]
            exact List.Perm.append_left _ perm_append_comm
    · have hsame : (List.range h).flatMap g = (List.range h).flatMap f := by
        refine flatMap_congr fun i hi => ?_
        have := mem_range.1 hi
        exact hg i (by omega) (by omega)
      rw [hsame, append_assoc, append_assoc]
      exact List.Perm.append_left _ perm_append_comm

theorem Partition.nodup (h : Partition q) :
    (trail q.next q.freeHead q.numFree ++ (List.range q.size).flatMap fun h => trail q.next h (q.chainLen h)).Nodup :=
  h.nodup_iff.2 nodup_range

theorem Partition.accounted (h : Partition q) : Accounted q where
  sum := by
    have hlen := h.length_eq
    rw [length_append, length_trail, length_range, length_flatMap] at hlen
    simp only [length_trail] at hlen
    exact hlen
  free_nodup := h.nodup.of_append_left
  free_lt d hd := mem_range.1 (h.mem_iff.1 (mem_append_left _ hd))
  apart hd hlt d hmem hfree :=
    disjoint_of_nodup_append h.nodup hfree (mem_flatMap.2 ⟨hd, mem_range.2 hlt, hmem⟩)

theorem Partition.free_head (h : Partition q) (hpos : 0 < q.numFree) :
    q.freeHead < q.size ∧ q.chainLen q.freeHead = 0 := by
  have hmem : q.freeHead ∈ trail q.next q.freeHead q.numFree := head_mem_trail hpos
  have hlt := h.accounted.free_lt _ hmem
  refine ⟨hlt, Nat.eq_zero_of_not_pos fun hc => ?_⟩
  exact h.accounted.apart _ hlt _ (head_mem_trail hc) hmem

theorem Partition.disjoint (h : Partition q) {d : Nat} (ha : a < q.size) (hb : b < q.size)
    (hne : a ≠ b) (hda : d ∈ trail q.next a (q.chainLen a)) :
    d ∉ trail q.next b (q.chainLen b) := by
  intro hdb
  have hnd := (nodup_flatMap.1 h.nodup.of_append_right).2
  rcases Nat.lt_or_gt_of_ne hne with hlt | hlt
  · have := pairwise_iff_getElem.1 hnd a b (by simpa using ha) (by simpa using hb) hlt
    simp only [getElem_range] at this
    exact this hda hdb
  · have := pairwise_iff_getElem.1 hnd b a (by simpa using hb) (by simpa using ha) hlt
    simp only [getElem_range] at this
    exact this hdb hda

theorem partition_publish (h : Partition q) (hn : n < q.numFree) (cookie : Nat) :
    Partition (q.publish q.freeHead (q.next^[n] q.freeHead) (q.next^[n + 1] q.freeHead) (n + 1) cookie) := by
  obtain ⟨hlt, hzero⟩ := h.free_head (by omega)
  have hfree : trail q.next q.freeHead q.numFree =
      trail q.next q.freeHead (n + 1) ++ trail q.next (q.next^[n + 1] q.freeHead) (q.numFree - (n + 1)) := by
    rw [← trail_add]
    exact congrArg _ (by omega)
  have hnd := h.accounted.free_nodup
  have hlast : q.next^[n] q.freeHead ∈ trail q.next q.freeHead (n + 1) := mem_trail_iff.2 ⟨n, by omega, rfl⟩
  have hmem : q.next^[n] q.freeHead ∈ trail q.next q.freeHead q.numFree := mem_trail_iff.2 ⟨n, hn, rfl⟩
  rw [hfree] at hnd
  have hrest : trail (update q.next (q.next^[n] q.freeHead) 0) (q.next^[n + 1] q.freeHead)
      (q.numFree - (n + 1)) = trail q.next (q.next^[n + 1] q.freeHead) (q.numFree - (n + 1)) :=
    trail_update (fun hm => disjoint_of_nodup_append hnd hlast hm) 0
  have hchain := (trail_update_last hnd.of_append_left 0).1
  have hold : ∀ i < q.size, i ≠ q.freeHead → trail (update q.next (q.next^[n] q.freeHead) 0) i
      (update q.chainLen q.freeHead (n + 1) i) = trail q.next i (q.chainLen i) := by
    intro i hi hne
    rw [update_of_ne hne]
    exact trail_update (fun hm => h.accounted.apart i hi _ hm hmem) 0
  have hflat := flatMap_update hlt hold
  rw [hzero, trail_zero, append_nil, update_self, hchain] at hflat
  have hall := h
  rw [Partition, hfree] at hall
  simp only [Partition, publish, hrest]
  generalize trail q.next (q.next^[n + 1] q.freeHead) (q.numFree - (n + 1)) = rest at *
  calc rest ++ _ ~ rest ++ (_ ++ trail q.next q.freeHead (n + 1)) := hflat.append_left _
    _ ~ rest ++ (trail q.next q.freeHead (n + 1) ++ _) := List.Perm.append_left _ perm_append_comm
    _ ~ (trail q.next q.freeHead (n + 1) ++ rest) ++ _ := by
        rw [← append_assoc]
        exact perm_append_comm.append_right _
    _ ~ List.range q.size := hall

theorem partition_splice (h : Partition q) (hsize : q.size ≤ VIRTQ_MAX_SIZE) {head : Nat} (hlt : head < q.size)
    (hlen : q.chainLen head ≠ 0) : Partition (q.splice head (q.chainLen head)) := by
  obtain ⟨n, hn⟩ := Nat.exists_eq_succ_of_ne_zero hlen
  have hchain : trail q.next head (q.chainLen head) = trail q.next head (n + 1) := by rw [hn]
  have hlast : q.next^[n] head ∈ trail q.next head (q.chainLen head) := by
    exact mem_trail_iff.2 ⟨n, by omega, rfl⟩
  have hold : ∀ i < q.size, i ≠ head → trail (update q.next (q.next^[n] head) q.freeHead) i
      (update q.chainLen head 0 i) = trail q.next i (q.chainLen i) := by
    intro i hi hne
    rw [update_of_ne hne]
    exact trail_update (fun hm => h.disjoint hlt hi (Ne.symm hne) hlast hm) q.freeHead
  have hflat := flatMap_update hlt hold
  rw [update_self, trail_zero, append_nil] at hflat
  have hle : q.numFree + (n + 1) ≤ q.size := by
    have hsum := h.accounted.sum
    have hone := single_le_sum (fun _ _ => Nat.zero_le _) _
      (mem_map_of_mem (f := q.chainLen) (mem_range.2 hlt))
    omega
  have hnum : (q.numFree + (n + 1)) % 2 ^ 16 = n + 1 + q.numFree := by
    rw [VIRTQ_MAX_SIZE] at hsize
    omega
  have hnd : (trail q.next head (n + 1) ++ trail q.next q.freeHead q.numFree).Nodup := by
    rw [← hchain]
    refine nodup_append.2 ⟨(nodup_flatMap.1 h.nodup.of_append_right).1 head (mem_range.2 hlt),
      h.accounted.free_nodup, fun d hd e he hde => h.accounted.apart head hlt d hd (hde ▸ he)⟩
  simp only [Partition, splice, hn, Nat.succ_eq_add_one, Nat.add_sub_cancel, hnum, trail_join hnd]
  rw [hchain] at hflat
  calc trail q.next head (n + 1) ++ trail q.next q.freeHead q.numFree ++ _
      ~ trail q.next q.freeHead q.numFree ++ (_ ++ trail q.next head (n + 1)) := by
        rw [← append_assoc]
        refine List.Perm.trans ?_ perm_append_comm
        rw [append_assoc]
    _ ~ trail q.next q.freeHead q.numFree ++ _ := hflat.append_left _
    _ ~ List.range q.size := h

/-! ### The ledger of the chains -/

structure Inv (s : System) : Prop where
  size : s.queue.size ≤ VIRTQ_MAX_SIZE
  partition : Partition s.queue
  flight : ∀ h < s.queue.size, (s.queue.chainLen h = 0 ↔ s.inFlight h = none)
  chain : ∀ h k, s.inFlight h = some k → h < s.queue.size ∧
    ∃ c, s.added[k]? = some c ∧ c.head = h ∧ s.queue.cookie h = c.cookie
  returned : Returned s

theorem Inv.ledger (h : Inv s) : Ledger s := ⟨h.partition.accounted, h.returned⟩

theorem Inv.flight_inj (h : Inv s) (ha : s.inFlight a = some k) (hb : s.inFlight b = some k) :
    a = b := by
  obtain ⟨-, c, hc, rfl, -⟩ := h.chain a k ha
  obtain ⟨-, d, hd, rfl, -⟩ := h.chain b k hb
  rw [hc] at hd
  rw [some.inj hd]

theorem Inv.length_lt (h : Inv s) (ha : s.inFlight a = some k) : k < s.added.length := by
  obtain ⟨-, c, hc, -⟩ := h.chain a k ha
  exact (List.getElem?_eq_some_iff.1 hc).1

/-- A step that leaves the table and the ledger alone. -/
theorem Inv.congr (h : Inv s) {s' : System} (hq : s'.queue.size = s.queue.size) (hn : s'.queue.next = s.queue.next)
    (hf : s'.queue.freeHead = s.queue.freeHead) (hk : s'.queue.numFree = s.queue.numFree)
    (hc : s'.queue.cookie = s.queue.cookie) (hl : s'.queue.chainLen = s.queue.chainLen)
    (ha : s'.added = s.added) (hi : s'.inFlight = s.inFlight) (hr : s'.returned = s.returned) : Inv s' where
  size := hq ▸ h.size
  partition := by
    rw [Partition, hn, hf, hk, hq, hl]
    exact h.partition
  flight := by
    rw [hq, hl, hi]
    exact h.flight
  chain := by
    rw [hi, hq, ha, hc]
    exact h.chain
  returned := by
    refine ⟨hr ▸ h.returned.nodup, ?_, ?_⟩
    · rw [hr, ha]
      exact h.returned.cookie
    · rw [ha, hr, hq, hi]
      exact h.returned.complete

theorem inv_add (h : Inv s) (nOut nIn : Nat) (out inn : Nat → Sg) (cookie : Nat) :
    Inv (s.add nOut nIn out inn cookie) := by
  rw [System.add]
  rcases add_cases (q := s.queue) nOut nIn out inn cookie with hadd | ⟨addr, len, flags, n, -, hn, hadd⟩
  · rw [hadd]
    exact h
  rw [hadd]
  obtain ⟨hlt, hzero⟩ := h.partition.free_head (by omega)
  have hnone := (h.flight _ hlt).1 hzero
  have hpart : Partition { s.queue with addr := addr, len := len, flags := flags } := h.partition
  refine ⟨h.size, partition_publish hpart (Nat.lt_min.1 hn).2 cookie, fun i hi => ?_, fun i k hk => ?_, h.returned.nodup,
    fun p hp => ?_, fun k hk => ?_⟩
  · by_cases hne : i = s.queue.freeHead
    · subst hne
      simp [publish]
    · simpa [publish, update_of_ne hne] using h.flight i hi
  · by_cases hne : i = s.queue.freeHead
    · subst hne
      dsimp only at hk
      rw [update_self] at hk
      obtain rfl := some.inj hk
      exact ⟨hlt, _, List.getElem?_concat_length, rfl, by simp [publish]⟩
    · simp only [update_of_ne hne] at hk
      obtain ⟨hi, c, hc, hhead, hcookie⟩ := h.chain i k hk
      refine ⟨hi, c, ?_, hhead, by simpa [publish, update_of_ne hne] using hcookie⟩
      rw [List.getElem?_append_left (h.length_lt hk), hc]
  · obtain ⟨c, hc, hp⟩ := h.returned.cookie p hp
    exact ⟨c, by rw [List.getElem?_append_left (List.getElem?_eq_some_iff.1 hc).1, hc], hp⟩
  · simp only [length_append, length_singleton] at hk
    rcases Nat.lt_succ_iff_lt_or_eq.1 hk with hk | rfl
    · rw [h.returned.complete k hk]
      refine forall_congr' fun i => imp_congr_right fun _ => not_congr ?_
      dsimp only
      by_cases hne : i = s.queue.freeHead
      · subst hne
        rw [update_self, hnone]
        exact ⟨nofun, fun he => absurd (some.inj he) (by omega)⟩
      · rw [update_of_ne hne]
    · constructor
      · intro hm
        obtain ⟨p, hp, hpk⟩ := mem_map.1 hm
        obtain ⟨c, hc, -⟩ := h.returned.cookie p hp
        rw [hpk] at hc
        exact absurd (List.getElem?_eq_some_iff.1 hc).1 (Nat.lt_irrefl _)
      · exact fun hall => absurd (update_self ..) (hall _ hlt)

/-! ### What `virtq_get_used` does -/

theorem getUsed_none (h : s.nextUsed = none) : s.queue.getUsed = (s.queue, 0, 0) := by
  rw [System.nextUsed] at h
  rw [getUsed, if_pos]
  by_contra hne
  rw [if_neg hne] at h
  cases h

theorem getUsed_some (h : s.nextUsed = some e) :
    s.queue.lastUsedIdx ≠ s.queue.usedIdx ∧ e = s.queue.usedRing (s.queue.lastUsedIdx % s.queue.size) := by
  rw [System.nextUsed] at h
  split at h
  · cases h
  · rename_i hne
    exact ⟨hne, (some.inj h).symm⟩

/-- The queue once the element is taken. -/
def passed (q : Queue) : Queue := { q with lastUsedIdx := (q.lastUsedIdx + 1) % 2 ^ 16 }

theorem getUsed_reject (hinv : Inv s) (h : s.nextUsed = some e) (hacc : s.accepts e = none) :
    s.queue.getUsed = (passed s.queue, 0, 0) := by
  obtain ⟨hne, rfl⟩ := getUsed_some h
  rw [System.accepts] at hacc
  rw [getUsed, if_neg hne]
  rw [if_pos]
  · rfl
  · by_contra hbad
    obtain ⟨hlt, hlen⟩ := not_or.1 hbad
    rw [if_neg hlt] at hacc
    exact hlen ((hinv.flight _ (Nat.lt_of_not_le hlt)).2 hacc)

theorem getUsed_accept (hinv : Inv s) (h : s.nextUsed = some e) (hacc : s.accepts e = some k) :
    e.id % 2 ^ 16 < s.queue.size ∧ s.inFlight (e.id % 2 ^ 16) = some k ∧
      s.queue.chainLen (e.id % 2 ^ 16) ≠ 0 ∧ s.queue.getUsed =
        ((passed s.queue).splice (e.id % 2 ^ 16) (s.queue.chainLen (e.id % 2 ^ 16)), s.queue.cookie (e.id % 2 ^ 16),
          e.len) := by
  obtain ⟨hne, rfl⟩ := getUsed_some h
  rw [System.accepts] at hacc
  split at hacc
  · cases hacc
  rename_i hlt
  have hlen : s.queue.chainLen ((s.queue.usedRing (s.queue.lastUsedIdx % s.queue.size)).id % 2 ^ 16) ≠ 0 := by
    intro hz
    rw [(hinv.flight _ (Nat.lt_of_not_le hlt)).1 hz] at hacc
    cases hacc
  refine ⟨Nat.lt_of_not_le hlt, hacc, hlen, ?_⟩
  rw [getUsed, if_neg hne]
  rw [if_neg (not_or.2 ⟨hlt, hlen⟩)]
  rfl

theorem inv_getUsed (h : Inv s) : Inv s.getUsed := by
  rw [System.getUsed]
  rcases hnext : s.nextUsed with _ | e
  · simp only [getUsed_none hnext]
    exact h
  rcases hacc : s.accepts e with _ | k
  · simp only [hacc, getUsed_reject h hnext hacc]
    exact h.congr rfl rfl rfl rfl rfl rfl rfl rfl rfl
  obtain ⟨hlt, hin, hlen, hget⟩ := getUsed_accept h hnext hacc
  obtain ⟨-, c, hc, hhead, hcookie⟩ := h.chain _ k hin
  simp only [hacc, hget]
  generalize e.id % 2 ^ 16 = head at *
  have hpart : Partition (passed s.queue) := h.partition
  have hk : k ∉ s.returned.map Prod.fst := fun hm =>
    (h.returned.complete k (h.length_lt hin)).1 hm head hlt hin
  refine ⟨h.size, partition_splice hpart h.size hlt hlen, fun i hi => ?_, fun i j hj => ?_, ?_, fun p hp => ?_,
    fun j hj => ?_⟩
  · by_cases hne : i = head
    · subst hne
      simp [splice]
    · simpa [splice, passed, update_of_ne hne] using h.flight i hi
  · dsimp only at hj
    have hne : i ≠ head := fun he => by
      rw [he, update_self] at hj
      cases hj
    simp only [update_of_ne hne] at hj
    obtain ⟨hi, d, hd, hdh, hdc⟩ := h.chain i j hj
    exact ⟨hi, d, hd, hdh, by simpa [splice, passed, update_of_ne hne] using hdc⟩
  · exact nodup_cons.2 ⟨hk, h.returned.nodup⟩
  · rcases mem_cons.1 hp with rfl | hp
    · exact ⟨c, hc, hcookie⟩
    · exact h.returned.cookie p hp
  · rw [map_cons, mem_cons]
    constructor
    · rintro (rfl | hm) i hi hij <;> dsimp only at hij
      · by_cases hne : i = head
        · rw [hne, update_self] at hij
          cases hij
        · rw [update_of_ne hne] at hij
          exact hne (h.flight_inj hij hin)
      · by_cases hne : i = head
        · rw [hne, update_self] at hij
          cases hij
        · rw [update_of_ne hne] at hij
          exact (h.returned.complete j hj).1 hm i hi hij
    · intro hall
      by_cases hjk : j = k
      · exact .inl hjk
      · refine .inr ((h.returned.complete j hj).2 fun i hi hij => ?_)
        have hne : i ≠ head := fun he => hjk (by
          rw [he, hin] at hij
          exact (some.inj hij).symm)
        exact hall i hi ((update_of_ne hne _ _).trans hij)

theorem inv_step (h : Inv s) (ev : Event) : Inv (s.step ev) := by
  cases ev with
  | add nOut nIn out inn cookie => exact inv_add h nOut nIn out inn cookie
  | kick =>
    simp only [System.step, kickPrepare]
    split
    · exact h
    · exact h.congr rfl rfl rfl rfl rfl rfl rfl rfl rfl
  | getUsed => exact inv_getUsed h
  | consume =>
    simp only [System.step, System.consume]
    split
    · exact h
    · exact h.congr rfl rfl rfl rfl rfl rfl rfl rfl rfl
  | report e => exact h.congr rfl rfl rfl rfl rfl rfl rfl rfl rfl
  | notify flags => exact h.congr rfl rfl rfl rfl rfl rfl rfl rfl rfl

/-! ### The rings -/

/-- The two rings hold what is still to be read of them, and the indices count. -/
structure Rings (s : System) : Prop where
  pos : 0 < s.queue.size
  avail : Window (slot s.queue.size) s.queue.availRing s.consumed.length (s.added.map Chain.head)
  read : s.consumed <+: s.added.map Chain.head
  pending : s.consumed.length + s.queue.availPending ≤ s.added.length
  availIdx : s.queue.availIdx = (s.added.length - s.queue.availPending) % 2 ^ 16
  devIdx : s.devIdx = s.consumed.length % 2 ^ 16
  used : Window (slot s.queue.size) s.queue.usedRing s.taken s.reports
  usedIdx : s.queue.usedIdx = s.reports.length % 2 ^ 16
  lastUsedIdx : s.queue.lastUsedIdx = s.taken % 2 ^ 16

theorem Rings.added_le (h : Rings s) (hinv : Inv s) : s.added.length ≤ s.consumed.length + VIRTQ_MAX_SIZE := by
  have := h.avail.length_le (n := s.queue.size) fun k => Nat.mod_lt _ h.pos
  have := hinv.size
  rw [length_map] at *
  omega

theorem Rings.devIdx_eq_iff (h : Rings s) (hinv : Inv s) :
    s.devIdx = s.queue.availIdx ↔ s.consumed.length + s.queue.availPending = s.added.length := by
  have hle := h.added_le hinv
  have := h.pending
  rw [h.devIdx, h.availIdx]
  rw [VIRTQ_MAX_SIZE] at hle
  omega

theorem Rings.faithful (h : Rings s) (hinv : Inv s) : Faithful s where
  read := h.read
  all hdev hp := by
    have := (h.devIdx_eq_iff hinv).1 hdev
    refine h.read.eq_of_length ?_
    rw [length_map]
    omega

/-- The driver sees a new element if there is a report that it has not taken. -/
theorem Rings.nextUsed (h : Rings s) (hinv : Inv s) : s.nextUsed = s.reports[s.taken]? := by
  have hle := h.used.length_le (n := s.queue.size) fun k => Nat.mod_lt _ h.pos
  have hge := h.used.le
  have := hinv.size
  rw [System.nextUsed, h.lastUsedIdx, h.usedIdx]
  rw [VIRTQ_MAX_SIZE] at this
  rcases Nat.lt_or_eq_of_le hge with hlt | heq
  · rw [if_neg (by omega), h.used.front hlt, slot]
  · rw [if_pos (by rw [heq]), heq, List.getElem?_eq_none (Nat.le_refl _)]

theorem rings_add (h : Rings s) (nOut nIn : Nat) (out inn : Nat → Sg) (cookie : Nat)
    (hap : Apart s (.add nOut nIn out inn cookie)) : Rings (s.add nOut nIn out inn cookie) := by
  rw [System.add]
  rw [Apart] at hap
  rcases add_cases (q := s.queue) nOut nIn out inn cookie with hadd | ⟨addr, len, flags, n, htotal, hn, hadd⟩
  · rw [hadd]
    exact h
  rw [hadd]
  have hap := hap (by omega) (by omega)
  have hpend := h.pending
  have hidx : (s.queue.availIdx + s.queue.availPending) % 2 ^ 16 = s.added.length % 2 ^ 16 := by
    rw [h.availIdx]
    omega
  have hwin := h.avail.push (fun k hk hlt => by
    rw [length_map] at hlt ⊢
    exact hap k hk hlt) s.queue.freeHead
  rw [length_map] at hwin
  refine ⟨h.pos, ?_, ?_, ?_, ?_, h.devIdx, h.used, h.usedIdx, h.lastUsedIdx⟩
  · simp only [publish, hidx, map_append, map_cons, map_nil]
    exact hwin
  · rw [map_append]
    exact h.read.trans (prefix_append _ _)
  · simp only [publish, length_append, length_singleton]
    omega
  · simp only [publish, length_append, length_singleton]
    rw [h.availIdx]
    omega

theorem rings_kick (h : Rings s) : Completes s .kick ∧ Rings (s.step .kick) := by
  simp only [Completes, System.step, kickPrepare]
  have hidx := h.availIdx
  split
  · rename_i hp
    exact ⟨⟨hp, by rwa [hp, Nat.sub_zero] at hidx⟩, h⟩
  · have := h.pending
    refine ⟨⟨rfl, by dsimp only; omega⟩, h.pos, h.avail, h.read, ?_, ?_, h.devIdx, h.used, h.usedIdx, h.lastUsedIdx⟩
    · dsimp only
      omega
    · dsimp only
      rw [h.availIdx]
      omega

theorem rings_consume (h : Rings s) (hinv : Inv s) : Rings s.consume := by
  rw [System.consume]
  split
  · exact h
  rename_i hne
  have hpend := h.pending
  have hlt : s.consumed.length + s.queue.availPending < s.added.length :=
    Nat.lt_of_le_of_ne hpend fun he => hne ((h.devIdx_eq_iff hinv).2 he)
  have hlen : s.consumed.length < (s.added.map Chain.head).length := by
    rw [length_map]
    omega
  have hfront := h.avail.front hlen
  have hring : s.queue.availRing (s.devIdx % s.queue.size) = s.queue.availRing (slot s.queue.size s.consumed.length) := by
    rw [h.devIdx, slot]
  refine ⟨h.pos, ?_, ?_, ?_, h.availIdx, ?_, h.used, h.usedIdx, h.lastUsedIdx⟩
  · simp only [length_append, length_singleton]
    exact h.avail.advance hlen
  · obtain ⟨rest, hrest⟩ := h.read
    rw [hring, ← hrest]
    rw [← hrest, List.getElem?_append_right (Nat.le_refl _), Nat.sub_self] at hfront
    obtain ⟨x, xs, rfl⟩ : ∃ x xs, rest = x :: xs := by
      cases rest with
      | nil => simp at hfront
      | cons x xs => exact ⟨x, xs, rfl⟩
    obtain rfl : x = _ := some.inj hfront
    exact ⟨xs, by rw [append_assoc, singleton_append]⟩
  · simp only [length_append, length_singleton]
    omega
  · simp only [length_append, length_singleton]
    rw [h.devIdx]
    omega

theorem rings_report (h : Rings s) (e : UsedElem) (hap : Apart s (.report e)) : Rings (s.report e) := by
  have hwin := h.used.push hap e
  refine ⟨h.pos, h.avail, h.read, h.pending, h.availIdx, h.devIdx, ?_, ?_, h.lastUsedIdx⟩
  · simp only [System.report, h.usedIdx]
    exact hwin
  · simp only [System.report, length_append, length_singleton]
    rw [h.usedIdx]
    omega

theorem rings_getUsed (h : Rings s) (hinv : Inv s) : Rings s.getUsed := by
  have hnext := h.nextUsed hinv
  rw [System.getUsed]
  rcases hn : s.nextUsed with _ | e
  · simp only [getUsed_none hn]
    exact h
  have hlt : s.taken < s.reports.length := (List.getElem?_eq_some_iff.1 (hnext.symm.trans hn)).1
  have hidx : (s.queue.lastUsedIdx + 1) % 2 ^ 16 = (s.taken + 1) % 2 ^ 16 := by
    rw [h.lastUsedIdx]
    omega
  rcases hacc : s.accepts e with _ | k
  · simp only [hacc, getUsed_reject hinv hn hacc]
    exact ⟨h.pos, h.avail, h.read, h.pending, h.availIdx, h.devIdx, h.used.advance hlt, h.usedIdx, hidx⟩
  · simp only [hacc, (getUsed_accept hinv hn hacc).2.2.2]
    exact ⟨h.pos, h.avail, h.read, h.pending, h.availIdx, h.devIdx, h.used.advance hlt, h.usedIdx, hidx⟩

/-- With no element that only looks like one of a chain in flight, the driver takes what was reported. -/
theorem completes_getUsed (h : Rings s) (hinv : Inv s) (hap : Apart s .getUsed) : Completes s .getUsed := by
  have hnext := h.nextUsed hinv
  rw [Completes]
  rw [← hnext]
  rcases hn : s.nextUsed with _ | e
  · dsimp only
    refine ⟨by rw [getUsed_none hn], ?_⟩
    rw [System.getUsed, hn]
    rw [getUsed_none hn]
  dsimp only
  have hsize := hinv.size
  rw [VIRTQ_MAX_SIZE] at hsize
  have hid := hap e hn
  rcases hacc : s.accepts e with _ | k
  · have hrep : reported s e = none := by
      rw [reported]
      split
      · rename_i hlt
        rw [System.accepts, Nat.mod_eq_of_lt (by omega), if_neg (by omega)] at hacc
        exact hacc
      · rfl
    rw [hrep, System.getUsed, hn]
    dsimp only
    rw [hacc, getUsed_reject hinv hn hacc]
    exact ⟨rfl, rfl, rfl⟩
  · obtain ⟨hlt, hin, hlen, hget⟩ := getUsed_accept hinv hn hacc
    have hsmall : e.id < 2 ^ 16 := hid.resolve_right (by rw [hacc]; nofun)
    rw [Nat.mod_eq_of_lt hsmall] at hlt hin hget
    obtain ⟨-, c, hc, -, hcookie⟩ := hinv.chain _ k hin
    have hrep : reported s e = some k := by rw [reported, if_pos hlt, hin]
    rw [hrep, System.getUsed, hn]
    dsimp only
    rw [hacc, hget, hcookie]
    exact ⟨rfl, c, hc, rfl, rfl⟩

theorem rings_step (h : Rings s) (hinv : Inv s) (ev : Event) (hap : Apart s ev) :
    Completes s ev ∧ Rings (s.step ev) := by
  cases ev with
  | add nOut nIn out inn cookie => exact ⟨trivial, rings_add h nOut nIn out inn cookie hap⟩
  | kick => exact rings_kick h
  | getUsed => exact ⟨completes_getUsed h hinv hap, rings_getUsed h hinv⟩
  | consume => exact ⟨trivial, rings_consume h hinv⟩
  | report e => exact ⟨trivial, rings_report h e hap⟩
  | notify flags =>
    exact ⟨trivial, h.pos, h.avail, h.read, h.pending, h.availIdx, h.devIdx, h.used, h.usedIdx, h.lastUsedIdx⟩

/-! ### Whole runs -/

theorem init_some (h : init size = some q) : 0 < size ∧ size ≤ VIRTQ_MAX_SIZE ∧ q.size = size ∧
    q.next = (fun i => if i < size then i + 1 else 0) ∧ q.freeHead = 0 ∧ q.numFree = size ∧ q.lastUsedIdx = 0 ∧
      q.availPending = 0 ∧ q.availIdx = 0 ∧ q.usedIdx = 0 ∧ q.chainLen = fun _ => 0 := by
  rw [init] at h
  split at h
  · cases h
  · rename_i hbad
    obtain rfl := some.inj h
    obtain ⟨hzero, hmax⟩ := not_or.1 hbad
    exact ⟨Nat.pos_of_ne_zero hzero, Nat.le_of_not_lt hmax, rfl, rfl, rfl, rfl, rfl, rfl, rfl, rfl, rfl⟩

theorem trail_init (n : Nat) (h : a + n ≤ size) :
    trail (fun i => if i < size then i + 1 else 0) a n = List.range' a n := by
  induction n generalizing a with
  | zero => rfl
  | succ n ih =>
    rw [trail_succ, List.range'_succ, if_pos (by omega)]
    exact congrArg _ (ih (by omega))

theorem inv_start (h : init size = some q) : Inv (.start q) := by
  obtain ⟨-, hmax, hsize, hnext, hhead, hnum, -, -, -, -, hlen⟩ := init_some h
  refine ⟨hsize ▸ hmax, ?_, fun i _ => ?_, nofun, nodup_nil, nofun, nofun⟩
  · have hflat : (List.range size).flatMap (fun h => trail (fun i => if i < size then i + 1 else 0) h 0) = [] :=
      flatMap_eq_nil_iff.2 fun _ _ => rfl
    rw [Partition]
    simp only [System.start, hnext, hhead, hnum, hlen, hsize]
    rw [trail_init size (by omega), hflat, append_nil, range_eq_range']
  · simp [System.start, hlen]

theorem rings_start (h : init size = some q) : Rings (.start q) := by
  obtain ⟨hpos, -, hsize, -, -, -, hlast, hpend, havail, hused, -⟩ := init_some h
  exact ⟨hsize ▸ hpos, .nil, nil_prefix, by simp [System.start, hpend], by simp [System.start, havail], rfl, .nil,
    by simp [System.start, hused], by simp [System.start, hlast]⟩

/-- **Virtqueue conservation.**  In every run, with a device that reports what it likes, the descriptors are
accounted for and every cookie comes back at most once.  If no entry is written over one that is still to be
read, and no element has the low half of a chain in flight under a high half that is not zero, the device also
reads the heads in order, and each completion that it reports brings back its cookie. -/
theorem virtq_run {size : Nat} (h : init size = some q) (evs : List Event) :
    Along System.step Ledger (fun _ _ => True) (.start q) evs ∧
      (Steps System.step Apart (.start q) evs → Along System.step Faithful Completes (.start q) evs) := by
  constructor
  · exact along_of_inv evs (fun s => Inv.ledger) (fun s ev hs _ _ => ⟨trivial, inv_step hs ev⟩) (inv_start h)
      (along_true _ evs)
  · intro hrun
    refine along_of_inv (I := fun s => Inv s ∧ Rings s) evs (fun s hs => hs.2.faithful hs.1) ?_
      ⟨inv_start h, rings_start h⟩ hrun
    intro s ev hs _ hap
    obtain ⟨hc, hr⟩ := rings_step hs.2 hs.1 ev hap
    exact ⟨hc, inv_step hs.1 ev, hr⟩

theorem virtq_run_four : ∃ q, init 4 = some q ∧ Along System.step Faithful Completes (.start q)
    [.add 1 1 (fun _ => ⟨0, 8⟩) (fun _ => ⟨8, 8⟩) 7, .kick, .consume, .report ⟨0, 8⟩, .getUsed] := by
  refine ⟨_, rfl, (virtq_run (show init 4 = some _ from rfl) _).2 ?_⟩
  refine ⟨trivial, fun _ _ k _ hk => absurd hk (Nat.not_lt_zero k), trivial, trivial, trivial, trivial, trivial,
    fun k _ hk => absurd hk (Nat.not_lt_zero k), trivial, fun e he => .inl ?_, trivial⟩
  obtain rfl : (⟨0, 8⟩ : UsedElem) = e := some.inj he
  decide

/-! ### A queue of three descriptors at the end of the indices -/

def addOne : Event := .add 1 0 (fun _ => ⟨0, 0⟩) (fun _ => ⟨0, 0⟩) 1

/-- A chain of one descriptor is added, read, completed and taken. -/
def roundTrip : List Event := [addOne, .kick, .consume, .report ⟨0, 0⟩, .getUsed]

/-- The entries 65535 and 65536 go into one slot of three. -/
def crossing : List Event :=
  (List.replicate 65535 roundTrip).flatten ++ [addOne, addOne, .kick, .consume, .consume]

/-- A queue of three descriptors that is at rest after `k` round trips. -/
structure Idle (k : Nat) (s : System) : Prop where
  size : s.queue.size = 3
  freeHead : s.queue.freeHead = 0
  next_zero : s.queue.next 0 = 1
  numFree : s.queue.numFree = 3
  chainLen : ∀ i, s.queue.chainLen i = 0
  availPending : s.queue.availPending = 0
  availIdx : s.queue.availIdx = k % 2 ^ 16
  devIdx : s.devIdx = k % 2 ^ 16
  used : s.queue.lastUsedIdx = s.queue.usedIdx
  lt : s.queue.usedIdx < 2 ^ 16
  added : s.added.length = k
  consumed : s.consumed.length = k

theorem idle_roundTrip (h : Idle k s) : Idle (k + 1) (roundTrip.foldl System.step s) := by
  obtain ⟨⟨size, addr, len, flags, next, availIdx, availRing, usedFlags, usedIdx, usedRing, freeHead, numFree,
    lastUsedIdx, availPending, cookie, chainLen⟩, devIdx, added, consumed, reports, taken, inFlight, returned⟩ := s
  obtain ⟨hsize, hhead, hnext, hnum, hlen, hpend, havail, hdev, hused, hlt, hadded, hconsumed⟩ := h
  dsimp only at *
  subst hsize hhead hnum hpend havail hdev hused
  have hne : ¬k % 65536 = (k + 1) % 65536 := by omega
  have hne' : ¬lastUsedIdx = (lastUsedIdx + 1) % 65536 := by omega
  simp only [roundTrip, addOne, foldl_cons, foldl_nil]
  simp [System.step, System.add, add, describeAll, describe, publish,
    kickPrepare, System.consume, System.report, System.getUsed, System.nextUsed, System.accepts, getUsed,
    splice, hne, hne', hnext]
  refine ⟨rfl, rfl, by simp, rfl, fun i => ?_, rfl, rfl, rfl, rfl, by dsimp only; omega, by simp [hadded],
    by simp [hconsumed]⟩
  by_cases hi : i = 0
  · simp [hi]
  · simp [hi, hlen]

theorem idle_roundTrips (n : Nat) (h : Idle k s) :
    Idle (k + n) ((List.replicate n roundTrip).flatten.foldl System.step s) := by
  induction n generalizing k s with
  | zero => exact h
  | succ n ih =>
    rw [replicate_succ, flatten_cons, foldl_append, Nat.add_comm n 1, ← Nat.add_assoc]
    exact ih (idle_roundTrip h)

/-- The second of the entries is written over the first, and the device reads its head twice. -/
theorem idle_crossing (h : Idle 65535 s) :
    ¬Faithful ([addOne, addOne, .kick, .consume, .consume].foldl System.step s) := by
  obtain ⟨⟨size, addr, len, flags, next, availIdx, availRing, usedFlags, usedIdx, usedRing, freeHead, numFree,
    lastUsedIdx, availPending, cookie, chainLen⟩, devIdx, added, consumed, reports, taken, inFlight, returned⟩ := s
  obtain ⟨hsize, hhead, hnext, hnum, hlen, hpend, havail, hdev, hused, hlt, hadded, hconsumed⟩ := h
  dsimp only at *
  subst hsize hhead hnum hpend havail hdev hused
  simp only [addOne, foldl_cons, foldl_nil]
  simp [System.step, System.add, add, describeAll, describe, publish, kickPrepare,
    System.consume, hnext]
  intro hfaith
  obtain ⟨rest, hrest⟩ := hfaith.read
  simp only [map_append, map_cons, map_nil, append_assoc] at hrest
  have hpre := append_inj_right hrest (by rw [length_map, hadded, hconsumed])
  simp at hpre

theorem virtq_slots_collide : ∃ q, init 3 = some q ∧
    ¬Along System.step (fun s => Ledger s ∧ Faithful s) Completes (.start q) crossing := by
  refine ⟨_, rfl, fun hrun => ?_⟩
  have hlast := (Along.last crossing hrun).2
  rw [crossing, foldl_append] at hlast
  refine idle_crossing (idle_roundTrips 65535 (k := 0) ?_) hlast
  exact ⟨rfl, rfl, rfl, rfl, fun _ => rfl, rfl, rfl, rfl, rfl, Nat.two_pow_pos 16, rfl, rfl⟩

end Win98Modern.Virtq
