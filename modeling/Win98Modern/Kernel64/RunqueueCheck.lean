import Win98Modern.Kernel64.RunqueueShape

/-!
# What the check accepts

`rqValidate` walks the queues through the pointers.  **`rqValidate_iff`**: it returns 0
exactly when there are lists that the pointers, bits and counts hold (`Shape`) and every
queued thread may be where it is (`QueuedRight`).
-/

namespace Win98Modern.Sched

open Function List Runqueues

variable {r : Runqueues} {Q : Queues} {t : Tid} {c : CpuId} {p fuel n n' : Nat}
  {prev cur last : Option Tid} {l seen seen' : List Tid}

/-- A queued thread is ready, on no CPU, and allowed where it is queued. -/
structure Eligible (r : Runqueues) (t : Tid) : Prop where
  state : (r.table t).state = .ready
  onCpu : (r.table t).onCpu = K64_CPU_NONE
  online : r.online (r.table t).readyCpu = true
  allowed : (r.table t).cpuMask.getLsbD (r.table t).readyCpu = true
  inside : r.outside (r.table t).cpuMask = false

def QueuedRight (r : Runqueues) : Prop :=
  ∀ t < r.count, (r.table t).readyQueued = true → Eligible r t

theorem queuedRight_iff : r.queuedRight c p prev t = true ↔
    (r.table t).readyQueued = true ∧ (r.table t).readyCpu = c ∧ (r.table t).schedPriority = p ∧
      (r.table t).readyPrev = prev ∧ Eligible r t := by
  unfold queuedRight
  simp only [Bool.and_eq_true, beq_iff_eq, Bool.not_eq_true']
  constructor
  · rintro ⟨⟨⟨⟨⟨⟨⟨⟨h₁, h₂⟩, rfl⟩, h₄⟩, h₅⟩, h₆⟩, h₇⟩, h₈⟩, h₉⟩
    exact ⟨h₂, rfl, h₅, h₆, h₁, h₄, h₇, h₈, h₉⟩
  · rintro ⟨h₂, rfl, h₅, h₆, h⟩
    exact ⟨⟨⟨⟨⟨⟨⟨⟨h.state, h₂⟩, rfl⟩, h.onCpu⟩, h₅⟩, h₆⟩, h.online⟩, h.allowed⟩, h.inside⟩

/-! ### One queue -/

/-- The pointers lead from `cur` through `l`, and every thread on the way passes. -/
def Walk (r : Runqueues) (c : CpuId) (p : Nat) : Option Tid → Option Tid → List Tid → Prop
  | _, cur, [] => cur = none
  | prev, cur, t :: l => cur = some t ∧ t < r.count ∧ r.queuedRight c p prev t = true ∧
      Walk r c p (some t) (r.table t).readyNext l

theorem validateQueue_complete (hw : Walk r c p prev cur l) (hnd : l.Nodup)
    (hfresh : ∀ t ∈ l, t ∉ seen) (hn : l ≠ [] → n + l.length ≤ r.count) (hf : l.length < fuel) :
    r.validateQueue c p fuel prev cur n seen =
      some (l.getLast?.or prev, n + l.length, l.reverse ++ seen) := by
  induction l generalizing fuel prev cur n seen with
  | nil =>
    obtain ⟨fuel, rfl⟩ := Nat.exists_eq_succ_of_ne_zero (Nat.ne_of_gt hf)
    obtain rfl : cur = none := hw
    rfl
  | cons t l ih =>
    obtain ⟨fuel, rfl⟩ := Nat.exists_eq_succ_of_ne_zero (Nat.ne_of_gt (Nat.zero_lt_of_lt hf))
    obtain ⟨rfl, ht, hq, hrest⟩ := hw
    have hcons := nodup_cons.1 hnd
    have hle := hn (by simp)
    rw [length_cons] at hle hf
    rw [validateQueue, if_neg, if_neg]
    · rw [ih hrest hcons.2 (fun u hu hs => ?_) (fun _ => by omega) (by omega)]
      · cases hl : l.getLast? with
        | none => simp [getLast?_eq_none_iff.1 hl]
        | some u =>
          have hne : l ≠ [] := by
            rintro rfl
            cases hl
          simp [getLast?_cons_of_ne_nil hne, hl, Nat.add_assoc, Nat.add_comm 1]
      · obtain rfl | hs := mem_cons.1 hs
        · exact hcons.1 hu
        · exact hfresh u (mem_cons_of_mem t hu) hs
    · rintro (hs | hs)
      · exact hfresh t mem_cons_self hs
      · simp [hq] at hs
    · rintro (hs | hs)
      · omega
      · simp [valid, ht] at hs

theorem validateQueue_sound
    (h : r.validateQueue c p fuel prev cur n seen = some (last, n', seen')) :
    ∃ l, Walk r c p prev cur l ∧ l.Nodup ∧ (∀ t ∈ l, t ∉ seen) ∧ last = l.getLast?.or prev ∧
      n' = n + l.length ∧ seen' = l.reverse ++ seen := by
  induction fuel generalizing prev cur n seen with
  | zero => cases h
  | succ fuel ih =>
    cases cur with
    | none =>
      obtain ⟨rfl, rfl, rfl⟩ : prev = last ∧ n = n' ∧ seen = seen' := by
        simpa [validateQueue] using h
      exact ⟨[], rfl, nodup_nil, nofun, rfl, rfl, rfl⟩
    | some t =>
      rw [validateQueue] at h
      split at h
      · cases h
      · rename_i hv
        split at h
        · cases h
        · rename_i hq
          simp only [not_or, valid, Bool.not_eq_true', decide_eq_false_iff_not,
            Decidable.not_not, Bool.not_eq_false] at hv hq
          obtain ⟨l, hw, hnd, hfresh, rfl, rfl, rfl⟩ := ih h
          refine ⟨t :: l, ⟨rfl, hv.2, hq.2, hw⟩, ?_, ?_, ?_, ?_, ?_⟩
          · exact nodup_cons.2 ⟨fun hm => hfresh t hm mem_cons_self, hnd⟩
          · intro u hu hs
            obtain rfl | hu := mem_cons.1 hu
            · exact hq.1 hs
            · exact hfresh u hu (mem_cons_of_mem t hs)
          · cases hl : l.getLast? with
            | none => simp [getLast?_eq_none_iff.1 hl]
            | some u =>
              have hne : l ≠ [] := by
                rintro rfl
                cases hl
              simp [getLast?_cons_of_ne_nil hne, hl]
          · rw [length_cons]
            omega
          · simp

theorem Walk.mem (h : Walk r c p prev cur l) (ht : t ∈ l) :
    t < r.count ∧ (r.table t).readyQueued = true ∧ (r.table t).readyCpu = c ∧
      (r.table t).schedPriority = p ∧ Eligible r t := by
  induction l generalizing prev cur with
  | nil => cases ht
  | cons u l ih =>
    obtain ⟨-, hu, hq, hrest⟩ := h
    obtain rfl | ht := mem_cons.1 ht
    · obtain ⟨h₁, h₂, h₃, -, h₅⟩ := queuedRight_iff.1 hq
      exact ⟨hu, h₁, h₂, h₃, h₅⟩
    · exact ih hrest ht

theorem Walk.links (h : Walk r c p prev cur l) : cur = l.head? ∧ ∀ a x b, l = a ++ x :: b →
    (r.table x).readyPrev = a.getLast?.or prev ∧ (r.table x).readyNext = b.head? := by
  induction l generalizing prev cur with
  | nil =>
    refine ⟨h, fun a x b hl => ?_⟩
    simp at hl
  | cons t l ih =>
    obtain ⟨rfl, -, hq, hrest⟩ := h
    obtain ⟨hnext, hlinks⟩ := ih hrest
    refine ⟨rfl, fun a x b hl => ?_⟩
    cases a with
    | nil =>
      obtain ⟨rfl, rfl⟩ := cons.inj hl
      exact ⟨(queuedRight_iff.1 hq).2.2.2.1, hnext⟩
    | cons y a =>
      obtain ⟨rfl, rfl⟩ := cons.inj hl
      obtain ⟨hp, hn⟩ := hlinks a x b rfl
      refine ⟨?_, hn⟩
      rw [hp]
      cases ha : a.getLast? with
      | none => simp [getLast?_eq_none_iff.1 ha]
      | some u =>
        have hne : a ≠ [] := by
          rintro rfl
          cases ha
        simp [getLast?_cons_of_ne_nil hne, ha]

theorem walk_of_links (hcur : cur = l.head?) (hlinks : ∀ a x b, l = a ++ x :: b →
      (r.table x).readyPrev = a.getLast?.or prev ∧ (r.table x).readyNext = b.head?)
    (hmem : ∀ t ∈ l, t < r.count ∧ (r.table t).readyQueued = true ∧ (r.table t).readyCpu = c ∧
      (r.table t).schedPriority = p ∧ Eligible r t) : Walk r c p prev cur l := by
  induction l generalizing prev cur with
  | nil => exact hcur
  | cons t l ih =>
    obtain ⟨ht, hq, hc, hp, he⟩ := hmem t mem_cons_self
    have hfirst := hlinks [] t l rfl
    refine ⟨hcur, ht, queuedRight_iff.2 ⟨hq, hc, hp, hfirst.1, he⟩, ih hfirst.2 ?_ fun u hu =>
      hmem u (mem_cons_of_mem t hu)⟩
    intro a x b hl
    obtain ⟨hpx, hnx⟩ := hlinks (t :: a) x b (by rw [hl]; rfl)
    refine ⟨?_, hnx⟩
    rw [hpx]
    cases ha : a.getLast? with
    | none => simp [getLast?_eq_none_iff.1 ha]
    | some u =>
      have hne : a ≠ [] := by
        rintro rfl
        cases ha
      simp [getLast?_cons_of_ne_nil hne, ha]

/-! ### One CPU -/

/-- The queue `p` of `c` holds `l`, as far as the check can see. -/
def QueueRight (r : Runqueues) (c : CpuId) (p : Nat) (l : List Tid) : Prop :=
  Walk r c p none ((r.cpu c).head p) l ∧ (r.cpu c).tail p = l.getLast?

def levelBits (r : Runqueues) (c : CpuId) (ps : List Nat) (mask : BitVec 32) : BitVec 32 :=
  ps.foldl (fun mask p => if ((r.cpu c).head p).isSome then mask ||| levelBit p else mask) mask

theorem validateLevels_complete {L : Nat → List Tid} (ps : List Nat) (mask : BitVec 32)
    (hq : ∀ p ∈ ps, QueueRight r c p (L p)) (hnd : (ps.flatMap L).Nodup)
    (hfresh : ∀ t ∈ ps.flatMap L, t ∉ seen) (hn : n + (ps.flatMap L).length ≤ r.count) :
    r.validateLevels c ps n mask seen =
      some (n + (ps.flatMap L).length, levelBits r c ps mask, (ps.flatMap L).reverse ++ seen) := by
  induction ps generalizing n mask seen with
  | nil => rfl
  | cons p ps ih =>
    rw [flatMap_cons] at hnd hfresh hn
    rw [length_append] at hn
    obtain ⟨hwalk, htail⟩ := hq p mem_cons_self
    have hapart := nodup_append.1 hnd
    have hone : r.validateQueue c p (r.count + 2) none ((r.cpu c).head p) n seen =
        some ((L p).getLast?.or none, n + (L p).length, (L p).reverse ++ seen) :=
      validateQueue_complete hwalk hapart.1 (fun t ht => hfresh t (mem_append_left _ ht))
        (fun _ => by omega) (by omega)
    rw [Option.or_none] at hone
    simp only [validateLevels, hone]
    rw [if_neg (not_not.2 htail.symm), ih]
    · simp [flatMap_cons, Nat.add_assoc, levelBits]
    · exact fun q hq' => hq q (mem_cons_of_mem p hq')
    · exact hapart.2.1
    · intro t ht hs
      obtain hs | hs := mem_append.1 hs
      · exact hapart.2.2 t (mem_reverse.1 hs) t ht rfl
      · exact hfresh t (mem_append_right _ ht) hs
    · omega

theorem validateLevels_sound (ps : List Nat) (hnd : ps.Nodup) {mask mask' : BitVec 32}
    (h : r.validateLevels c ps n mask seen = some (n', mask', seen')) :
    ∃ L : Nat → List Tid, (∀ p ∈ ps, QueueRight r c p (L p)) ∧ (ps.flatMap L).Nodup ∧
      (∀ t ∈ ps.flatMap L, t ∉ seen) ∧ n' = n + (ps.flatMap L).length ∧
      mask' = levelBits r c ps mask ∧ seen' = (ps.flatMap L).reverse ++ seen := by
  induction ps generalizing n mask seen with
  | nil =>
    obtain ⟨rfl, rfl, rfl⟩ : n = n' ∧ mask = mask' ∧ seen = seen' := by
      simpa [validateLevels] using h
    exact ⟨fun _ => [], nofun, nodup_nil, nofun, rfl, rfl, rfl⟩
  | cons p ps ih =>
    simp only [validateLevels] at h
    split at h
    · cases h
    · rename_i last m seen₁ hq
      split at h
      · cases h
      · rename_i htail
        obtain ⟨l, hw, hndl, hfl, hlast, rfl, rfl⟩ := validateQueue_sound hq
        rw [Option.or_none] at hlast
        have hcons := nodup_cons.1 hnd
        obtain ⟨L, hL, hndL, hfL, rfl, rfl, rfl⟩ := ih hcons.2 h
        have hsame : ps.flatMap (update L p l) = ps.flatMap L := by
          refine flatMap_congr fun q hm => update_of_ne ?_ ..
          exact fun e => hcons.1 (e ▸ hm)
        refine ⟨update L p l, fun q hq => ?_, ?_, ?_, ?_, ?_, ?_⟩
        · by_cases hqp : q = p
          · rw [hqp, update_self]
            exact ⟨hw, (not_not.1 htail).symm.trans hlast⟩
          · rw [update_of_ne hqp]
            exact hL q ((mem_cons.1 hq).resolve_left hqp)
        · rw [flatMap_cons, update_self, hsame, nodup_append]
          refine ⟨hndl, hndL, fun t ht u hu e => ?_⟩
          exact hfL u hu (mem_append_left _ (mem_reverse.2 (e ▸ ht)))
        · rw [flatMap_cons, update_self, hsame]
          intro t ht
          obtain ht | ht := mem_append.1 ht
          · exact hfl t ht
          · exact fun hs => hfL t ht (mem_append_right _ hs)
        · rw [flatMap_cons, update_self, hsame, length_append]
          omega
        · rfl
        · rw [flatMap_cons, update_self, hsame]
          simp

theorem levelBits_getLsbD (r : Runqueues) (c : CpuId) (ps : List Nat) (mask : BitVec 32) (q : Nat)
    (hps : ∀ p ∈ ps, p < SCHED_PRIORITY_LEVELS) :
    (levelBits r c ps mask).getLsbD q = true ↔
      mask.getLsbD q = true ∨ q ∈ ps ∧ ((r.cpu c).head q).isSome = true := by
  induction ps generalizing mask with
  | nil => simp [levelBits]
  | cons p ps ih =>
    have hp := hps p mem_cons_self
    have hrest := ih (if ((r.cpu c).head p).isSome then mask ||| levelBit p else mask)
      fun q hq => hps q (mem_cons_of_mem p hq)
    refine hrest.trans ?_
    by_cases hs : ((r.cpu c).head p).isSome = true
    · rw [if_pos hs, BitVec.getLsbD_or, levelBit_getLsbD hp]
      by_cases hqp : q = p
      · simp [hqp, hs]
      · simp [hqp]
    · rw [if_neg hs]
      by_cases hqp : q = p
      · simp [hqp, hs]
      · simp [hqp]

structure CpuRight (r : Runqueues) (c : CpuId) (L : Nat → List Tid) : Prop where
  queues : ∀ p < SCHED_PRIORITY_LEVELS, QueueRight r c p (L p)
  count : (r.cpu c).readyCount = ((range SCHED_PRIORITY_LEVELS).flatMap L).length
  mask : ∀ p < SCHED_PRIORITY_LEVELS, ((r.cpu c).readyMask.getLsbD p = true ↔ L p ≠ [])

theorem levelBits_eq_mask {L : Nat → List Tid}
    (hq : ∀ p < SCHED_PRIORITY_LEVELS, QueueRight r c p (L p)) :
    levelBits r c (range SCHED_PRIORITY_LEVELS) 0 = (r.cpu c).readyMask ↔
      ∀ p < SCHED_PRIORITY_LEVELS, ((r.cpu c).readyMask.getLsbD p = true ↔ L p ≠ []) := by
  have hbits : ∀ p < SCHED_PRIORITY_LEVELS,
      ((levelBits r c (range SCHED_PRIORITY_LEVELS) 0).getLsbD p = true ↔ L p ≠ []) := by
    intro p hp
    rw [levelBits_getLsbD r c _ 0 p fun q hq => mem_range.1 hq, (hq p hp).1.links.1,
      mem_range]
    simp [hp]
  constructor
  · intro h p hp
    rw [← h]
    exact hbits p hp
  · intro h
    apply BitVec.eq_of_getLsbD_eq
    intro p hp
    rw [Bool.eq_iff_iff, hbits p hp, h p hp]

theorem validateCpus_complete {L : CpuId → Nat → List Tid} (cs : List CpuId)
    (hc : ∀ c ∈ cs, CpuRight r c (L c)) (hnd : (cs.flatMap (Queues.all L)).Nodup)
    (hfresh : ∀ t ∈ cs.flatMap (Queues.all L), t ∉ seen)
    (hn : (cs.flatMap (Queues.all L)).length ≤ r.count) :
    r.validateCpus cs seen = some ((cs.flatMap (Queues.all L)).reverse ++ seen) := by
  induction cs generalizing seen with
  | nil => rfl
  | cons c cs ih =>
    rw [flatMap_cons] at hnd hfresh hn
    rw [length_append] at hn
    have hright := hc c mem_cons_self
    have hapart := nodup_append.1 hnd
    have hone := validateLevels_complete (n := 0) (range SCHED_PRIORITY_LEVELS) 0
      (fun p hp => hright.queues p (mem_range.1 hp)) hapart.1
      (fun t ht => hfresh t (mem_append_left _ ht))
      (by rw [Nat.zero_add]; exact Nat.le_trans (Nat.le_add_right ..) hn)
    simp only [validateCpus, hone]
    rw [if_neg, ih]
    · simp [flatMap_cons, Queues.all]
    · exact fun d hd => hc d (mem_cons_of_mem c hd)
    · exact hapart.2.1
    · intro t ht hs
      obtain hs | hs := mem_append.1 hs
      · exact hapart.2.2 t (mem_reverse.1 hs) t ht rfl
      · exact hfresh t (mem_append_right _ ht) hs
    · omega
    · rw [not_or, not_not, not_not, Nat.zero_add]
      exact ⟨hright.count.symm, (levelBits_eq_mask hright.queues).2 hright.mask⟩

theorem validateCpus_sound (cs : List CpuId) (hcs : cs.Nodup)
    (h : r.validateCpus cs seen = some seen') :
    ∃ L : CpuId → Nat → List Tid, (∀ c ∈ cs, CpuRight r c (L c)) ∧
      (cs.flatMap (Queues.all L)).Nodup ∧ (∀ t ∈ cs.flatMap (Queues.all L), t ∉ seen) ∧
      seen' = (cs.flatMap (Queues.all L)).reverse ++ seen := by
  induction cs generalizing seen with
  | nil =>
    obtain rfl : seen = seen' := by simpa [validateCpus] using h
    exact ⟨fun _ _ => [], nofun, nodup_nil, nofun, rfl⟩
  | cons c cs ih =>
    simp only [validateCpus] at h
    split at h
    · cases h
    · rename_i n mask seen₁ hl
      split at h
      · cases h
      · rename_i hends
        obtain ⟨hcount, hmask⟩ := not_or.1 hends
        obtain ⟨l, hq, hndl, hfl, rfl, rfl, rfl⟩ := validateLevels_sound _ nodup_range hl
        rw [not_not, Nat.zero_add] at hcount
        have hcons := nodup_cons.1 hcs
        obtain ⟨L, hL, hndL, hfL, rfl⟩ := ih hcons.2 h
        have hsame : cs.flatMap (Queues.all (update L c l)) =
            cs.flatMap (Queues.all L) := by
          refine flatMap_congr fun d hm => ?_
          have hdc : d ≠ c := fun e => hcons.1 (e ▸ hm)
          rw [Queues.all, Queues.all, update_of_ne hdc]
        have hself : Queues.all (update L c l) c =
            (range SCHED_PRIORITY_LEVELS).flatMap l := by
          rw [Queues.all, update_self]
        have hqueues : ∀ p < SCHED_PRIORITY_LEVELS, QueueRight r c p (l p) :=
          fun p hp => hq p (mem_range.2 hp)
        refine ⟨update L c l, fun d hd => ?_, ?_, ?_, ?_⟩
        · by_cases hdc : d = c
          · rw [hdc, update_self]
            exact ⟨hqueues, hcount.symm, (levelBits_eq_mask hqueues).1 (not_not.1 hmask)⟩
          · rw [update_of_ne hdc]
            exact hL d ((mem_cons.1 hd).resolve_left hdc)
        · rw [flatMap_cons, hself, hsame, nodup_append]
          refine ⟨hndl, hndL, fun t ht u hu e => ?_⟩
          exact hfL u hu (mem_append_left _ (mem_reverse.2 (e ▸ ht)))
        · rw [flatMap_cons, hself, hsame]
          intro t ht
          obtain ht | ht := mem_append.1 ht
          · exact hfl t ht
          · exact fun hs => hfL t ht (mem_append_right _ hs)
        · rw [flatMap_cons, hself, hsame]
          simp

/-! ### The whole table -/

/-- No thread is on two of the queues. -/
theorem Shape.nodup (h : Shape r Q) (cs : List CpuId) (hcs : cs.Nodup)
    (hlt : ∀ c ∈ cs, c < K64_CPU_MAX) : (cs.flatMap Q.all).Nodup := by
  refine nodup_flatMap.2 ⟨fun c hc => ?_, ?_⟩
  · refine nodup_flatMap.2 ⟨fun p hp => ?_, ?_⟩
    · exact (h.linked c (hlt c hc) p (mem_range.1 hp)).nodup
    · refine List.Pairwise.imp (fun hne t ht hu => ?_) nodup_range
      exact hne (h.unique ht hu).2.symm
  · refine List.Pairwise.imp (fun hne t ht hu => ?_) hcs
    obtain ⟨p, ht⟩ := h.mem_all.1 ht
    obtain ⟨q, hu⟩ := h.mem_all.1 hu
    exact hne (h.unique ht hu).1.symm

theorem Shape.lt_count (h : Shape r Q) (cs : List CpuId) (ht : t ∈ cs.flatMap Q.all) :
    t < r.count := by
  obtain ⟨c, -, ht⟩ := mem_flatMap.1 ht
  obtain ⟨p, ht⟩ := h.mem_all.1 ht
  exact ((h.mem c p t).1 ht).1

/-- Distinct threads of the table are at most as many as the table. -/
theorem length_le_of_nodup (hnd : l.Nodup) (hlt : ∀ t ∈ l, t < n) : l.length ≤ n := by
  have hsub : l ⊆ range n := fun t ht => mem_range.2 (hlt t ht)
  have hlen := (subperm_of_subset hnd hsub).length_le
  rwa [length_range] at hlen

theorem Shape.cpuRight (h : Shape r Q) (hq : QueuedRight r) (hc : c < K64_CPU_MAX) :
    CpuRight r c (Q c) := by
  refine ⟨fun p hp => ?_, h.count c hc, h.mask c hc⟩
  have hlink := h.linked c hc p hp
  refine ⟨walk_of_links hlink.head (fun a x b hl => ?_) fun t ht => ?_, hlink.tail⟩
  · rw [Option.or_none]
    exact hlink.links a x b hl
  · obtain ⟨hlt, hqd, hcpu, hpr⟩ := (h.mem c p t).1 ht
    exact ⟨hlt, hqd, hcpu, hpr, hq t hlt hqd⟩

theorem shape_of_right {L : Queues} (hL : ∀ c < K64_CPU_MAX, CpuRight r c (L c))
    (hnd : ((range K64_CPU_MAX).flatMap L.all).Nodup)
    (hin : ∀ t < r.count, (r.table t).readyQueued = true →
      ∃ c < K64_CPU_MAX, ∃ p < SCHED_PRIORITY_LEVELS, t ∈ L c p)
    (hout : ∀ t < r.count, (r.table t).readyQueued = false →
      (r.table t).readyPrev = none ∧ (r.table t).readyNext = none) :
    (∃ Q, Shape r Q) ∧ QueuedRight r := by
  have hwalk : ∀ c p t, c < K64_CPU_MAX → p < SCHED_PRIORITY_LEVELS → t ∈ L c p →
      t < r.count ∧ (r.table t).readyQueued = true ∧ (r.table t).readyCpu = c ∧
        (r.table t).schedPriority = p ∧ Eligible r t :=
    fun c p t hc hp ht => ((hL c hc).queues p hp).1.mem ht
  refine ⟨⟨fun c p => if c < K64_CPU_MAX ∧ p < SCHED_PRIORITY_LEVELS then L c p else [], ?_⟩, ?_⟩
  · refine ⟨fun c hc p hp => ?_, fun c p t => ?_, fun c p t ht => ?_, fun c hc => ?_,
      fun c hc p hp => ?_, hout⟩
    · rw [if_pos ⟨hc, hp⟩]
      obtain ⟨hw, htail⟩ := (hL c hc).queues p hp
      obtain ⟨hhead, hlinks⟩ := hw.links
      refine ⟨hhead, htail, ?_, fun a x b hl => ?_⟩
      · have hcpu := (nodup_flatMap.1 hnd).1 c (mem_range.2 hc)
        exact (nodup_flatMap.1 hcpu).1 p (mem_range.2 hp)
      · have hx := hlinks a x b hl
        rwa [Option.or_none] at hx
    · split
      · rename_i hcp
        refine ⟨fun ht => ?_, ?_⟩
        · obtain ⟨h₁, h₂, h₃, h₄, -⟩ := hwalk c p t hcp.1 hcp.2 ht
          exact ⟨h₁, h₂, h₃, h₄⟩
        · rintro ⟨ht, hq, rfl, rfl⟩
          obtain ⟨c, hc, p, hp, hm⟩ := hin t ht hq
          obtain ⟨-, -, rfl, rfl, -⟩ := hwalk c p t hc hp hm
          exact hm
      · rename_i hcp
        refine iff_of_false not_mem_nil ?_
        rintro ⟨ht, hq, rfl, rfl⟩
        obtain ⟨c, hc, p, hp, hm⟩ := hin t ht hq
        obtain ⟨-, -, rfl, rfl, -⟩ := hwalk c p t hc hp hm
        exact hcp ⟨hc, hp⟩
    · by_contra hcp
      rw [if_neg hcp] at ht
      cases ht
    · rw [(hL c hc).count]
      refine congrArg length (flatMap_congr fun p hp => ?_)
      exact (if_pos ⟨hc, mem_range.1 hp⟩).symm
    · rw [if_pos ⟨hc, hp⟩]
      exact (hL c hc).mask p hp
  · intro t ht hq
    obtain ⟨c, hc, p, hp, hm⟩ := hin t ht hq
    exact (hwalk c p t hc hp hm).2.2.2.2

/-- **The check accepts exactly the tables whose pointers, bits and counts are those of some
queues, with every queued thread where it may be.** -/
theorem rqValidate_iff (r : Runqueues) :
    r.rqValidate = true ↔ (∃ Q, Shape r Q) ∧ QueuedRight r := by
  constructor
  · intro h
    unfold rqValidate at h
    split at h
    · cases h
    · rename_i seen hs
      obtain ⟨L, hL, hnd, -, rfl⟩ := validateCpus_sound _ nodup_range hs
      rw [append_nil] at h
      simp only [all_eq_true, mem_range, mem_reverse, Bool.and_eq_true,
        Bool.or_eq_true, beq_iff_eq, decide_eq_true_eq] at h
      refine shape_of_right (fun c hc => hL c (mem_range.2 hc)) hnd (fun t ht hq => ?_)
        fun t ht hq => ?_
      · rw [(h t ht).1, decide_eq_true_eq, mem_flatMap] at hq
        obtain ⟨c, hc, hq⟩ := hq
        obtain ⟨p, hp, hq⟩ := mem_flatMap.1 hq
        exact ⟨c, mem_range.1 hc, p, mem_range.1 hp, hq⟩
      · rw [(h t ht).1, decide_eq_false_iff_not] at hq
        exact (h t ht).2.resolve_left hq
  · rintro ⟨⟨Q, h⟩, hq⟩
    have hrange : ∀ c ∈ range K64_CPU_MAX, c < K64_CPU_MAX := fun c => mem_range.1
    have hnd := h.nodup _ nodup_range hrange
    have hlt := fun t => h.lt_count (t := t) (range K64_CPU_MAX)
    have hseen : r.validateCpus (range K64_CPU_MAX) [] =
        some (((range K64_CPU_MAX).flatMap Q.all).reverse ++ []) :=
      validateCpus_complete _ (fun c hc => h.cpuRight hq (hrange c hc)) hnd
        (fun t _ => not_mem_nil) (length_le_of_nodup hnd hlt)
    unfold rqValidate
    rw [hseen, append_nil]
    simp only [all_eq_true, mem_range, mem_reverse, Bool.and_eq_true,
      Bool.or_eq_true, beq_iff_eq, decide_eq_true_eq]
    intro t ht
    have hin : (r.table t).readyQueued = true ↔ t ∈ (range K64_CPU_MAX).flatMap Q.all := by
      rw [mem_flatMap]
      constructor
      · intro hqd
        have hm := (h.mem _ _ t).2 ⟨ht, hqd, rfl, rfl⟩
        exact ⟨_, mem_range.2 (h.level _ _ t hm).1, h.mem_all.2 ⟨_, hm⟩⟩
      · rintro ⟨c, -, hm⟩
        obtain ⟨p, hm⟩ := h.mem_all.1 hm
        exact ((h.mem c p t).1 hm).2.1
    refine ⟨?_, ?_⟩
    · rw [Bool.eq_iff_iff, hin, decide_eq_true_eq]
    · rw [← hin]
      cases hqd : (r.table t).readyQueued with
      | true => exact .inl rfl
      | false => exact .inr (h.idle t ht hqd)

end Win98Modern.Sched
