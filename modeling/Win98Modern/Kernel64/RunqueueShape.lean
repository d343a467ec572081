import Mathlib.Data.List.Flatten
import Win98Modern.Lib.Deque
import Win98Modern.Kernel64.Runqueue

/-!
# The lists behind the run queues

`Shape r Q`: the pointers, the ready bits and the counts of `r` are those of the lists `Q`,
one for each CPU and level.  Enqueue and remove are described once by what they change
(`Enqueued`, `Removed`), and change one of the lists.
-/

namespace Win98Modern.Sched

open Function List Runqueues

abbrev Queues := CpuId → Nat → List Tid

variable {r r' : Runqueues} {Q : Queues} {t u : Tid} {c d : CpuId} {p q : Nat}

/-- The threads queued on one CPU. -/
def Queues.all (Q : Queues) (c : CpuId) : List Tid :=
  (List.range SCHED_PRIORITY_LEVELS).flatMap (Q c)

structure Shape (r : Runqueues) (Q : Queues) : Prop where
  linked : ∀ c < K64_CPU_MAX, ∀ p < SCHED_PRIORITY_LEVELS,
    Linked (fun t => (r.table t).readyPrev) (fun t => (r.table t).readyNext)
      ((r.cpu c).head p) ((r.cpu c).tail p) (Q c p)
  mem : ∀ c p t, t ∈ Q c p ↔ t < r.count ∧ (r.table t).readyQueued = true ∧
    (r.table t).readyCpu = c ∧ (r.table t).schedPriority = p
  level : ∀ c p t, t ∈ Q c p → c < K64_CPU_MAX ∧ p < SCHED_PRIORITY_LEVELS
  count : ∀ c < K64_CPU_MAX, (r.cpu c).readyCount = (Q.all c).length
  mask : ∀ c < K64_CPU_MAX, ∀ p < SCHED_PRIORITY_LEVELS,
    ((r.cpu c).readyMask.getLsbD p = true ↔ Q c p ≠ [])
  idle : ∀ t < r.count, (r.table t).readyQueued = false →
    (r.table t).readyPrev = none ∧ (r.table t).readyNext = none

/-! ### Bits -/

theorem getLsbD_one_shiftLeft {w c : Nat} (hc : c < w) (d : Nat) :
    (1#w <<< c).getLsbD d = decide (d = c) := by
  rw [BitVec.getLsbD_shiftLeft, BitVec.getLsbD_one, Bool.eq_iff_iff]
  simp only [Bool.and_eq_true, Bool.not_eq_true', decide_eq_true_eq, decide_eq_false_iff_not]
  omega

theorem cpuBit_getLsbD (hc : c < K64_CPU_MAX) (d : CpuId) :
    (cpuBit c).getLsbD d = decide (d = c) :=
  getLsbD_one_shiftLeft (Nat.lt_trans hc (by decide)) d

theorem levelBit_getLsbD (hp : p < SCHED_PRIORITY_LEVELS) (q : Nat) :
    (levelBit p).getLsbD q = decide (q = p) := getLsbD_one_shiftLeft hp q

theorem outside_eq_false {mask : BitVec 64} :
    r.outside mask = false ↔ ∀ c, mask.getLsbD c = true → r.onlineMask.getLsbD c = true := by
  unfold outside
  rw [bne_eq_false_iff_eq]
  constructor
  · intro h c hc
    have hb := congrArg (fun b => b.getLsbD c) h
    have hlt := BitVec.lt_of_getLsbD hc
    simpa [hc, hlt] using hb
  · intro h
    apply BitVec.eq_of_getLsbD_eq
    intro c hlt
    cases hm : mask.getLsbD c with
    | false => simp [hm]
    | true => simp [hm, h c hm]

/-! ### What enqueue and remove change -/

theorem setNextOf_table (r : Runqueues) (prev next : Option Tid) (c : CpuId) (p : Nat) (u : Tid) :
    (r.setNextOf prev c p next).table u = { r.table u with
      readyNext := if prev = some u then next else (r.table u).readyNext } := by
  cases prev with
  | none => simp [setNextOf, setCpu]
  | some v =>
    by_cases hv : u = v
    · simp [setNextOf, setThread, hv]
    · have hvu : v ≠ u := fun e => hv e.symm
      simp [setNextOf, setThread, hv, hvu]

theorem setPrevOf_table (r : Runqueues) (prev next : Option Tid) (c : CpuId) (p : Nat) (u : Tid) :
    (r.setPrevOf next c p prev).table u = { r.table u with
      readyPrev := if next = some u then prev else (r.table u).readyPrev } := by
  cases next with
  | none => simp [setPrevOf, setCpu]
  | some v =>
    by_cases hv : u = v
    · simp [setPrevOf, setThread, hv]
    · have hvu : v ≠ u := fun e => hv e.symm
      simp [setPrevOf, setThread, hv, hvu]

theorem setNextOf_cpu (r : Runqueues) (prev next : Option Tid) (c : CpuId) (p : Nat) :
    (r.setNextOf prev c p next).cpu c = { r.cpu c with
      head := if prev = none then update (r.cpu c).head p next else (r.cpu c).head } := by
  cases prev with
  | none => simp [setNextOf, setCpu]
  | some v => simp [setNextOf, setThread]

theorem setPrevOf_cpu (r : Runqueues) (prev next : Option Tid) (c : CpuId) (p : Nat) :
    (r.setPrevOf next c p prev).cpu c = { r.cpu c with
      tail := if next = none then update (r.cpu c).tail p prev else (r.cpu c).tail } := by
  cases next with
  | none => simp [setPrevOf, setCpu]
  | some v => simp [setPrevOf, setThread]

theorem setNextOf_cpu_of_ne (prev next : Option Tid) (hd : d ≠ c) :
    (r.setNextOf prev c p next).cpu d = r.cpu d := by
  cases prev with
  | none => simp [setNextOf, setCpu, hd]
  | some v => rfl

theorem setPrevOf_cpu_of_ne (prev next : Option Tid) (hd : d ≠ c) :
    (r.setPrevOf next c p prev).cpu d = r.cpu d := by
  cases next with
  | none => simp [setPrevOf, setCpu, hd]
  | some v => rfl

theorem setNextOf_rest (r : Runqueues) (prev next : Option Tid) (c : CpuId) (p : Nat) :
    (r.setNextOf prev c p next).count = r.count ∧
      (r.setNextOf prev c p next).onlineMask = r.onlineMask := by
  cases prev with
  | none => exact ⟨rfl, rfl⟩
  | some v => exact ⟨rfl, rfl⟩

theorem setPrevOf_rest (r : Runqueues) (prev next : Option Tid) (c : CpuId) (p : Nat) :
    (r.setPrevOf next c p prev).count = r.count ∧
      (r.setPrevOf next c p prev).onlineMask = r.onlineMask := by
  cases next with
  | none => exact ⟨rfl, rfl⟩
  | some v => exact ⟨rfl, rfl⟩

/-- The thread may be put on a queue of the CPU. -/
structure CanEnqueue (r : Runqueues) (t : Tid) (c : CpuId) : Prop where
  valid : t < r.count
  online : r.online c = true
  state : (r.table t).state = .ready
  queued : (r.table t).readyQueued = false
  onCpu : (r.table t).onCpu = K64_CPU_NONE
  level : (r.table t).schedPriority < SCHED_PRIORITY_LEVELS
  mask : (r.table t).cpuMask ≠ 0
  inside : r.outside (r.table t).cpuMask = false
  allowed : (r.table t).cpuMask.getLsbD c = true
  idle : (r.cpu c).idle ≠ some t
  room : (r.cpu c).readyCount < r.count

structure Enqueued (r r' : Runqueues) (t : Tid) (c : CpuId) (since order : Nat) : Prop where
  self : r'.table t = { r.table t with
    readyPrev := (r.cpu c).tail (r.table t).schedPriority
    readyNext := none
    readySince := since
    readyOrder := order
    readyQueued := true
    readyCpu := c
    agingServiceLeft := 0 }
  other : ∀ u, u ≠ t → r'.table u = { r.table u with
    readyNext := if (r.cpu c).tail (r.table t).schedPriority = some u then some t
      else (r.table u).readyNext }
  cpu : r'.cpu c = { r.cpu c with
    head := if (r.cpu c).tail (r.table t).schedPriority = none
      then update (r.cpu c).head (r.table t).schedPriority (some t) else (r.cpu c).head
    tail := update (r.cpu c).tail (r.table t).schedPriority (some t)
    readyMask := (r.cpu c).readyMask ||| levelBit (r.table t).schedPriority
    readyCount := (r.cpu c).readyCount + 1 }
  cpus : ∀ d, d ≠ c → r'.cpu d = r.cpu d
  count : r'.count = r.count
  online : r'.onlineMask = r.onlineMask

theorem rqEnqueue_cases (r : Runqueues) (t : Tid) (c : CpuId) (since order : Nat) :
    (¬CanEnqueue r t c ∧ r.rqEnqueue t c since order = r.fail) ∨
    (CanEnqueue r t c ∧ ∃ r', r.rqEnqueue t c since order = { rc := 0, rq := r' } ∧
      ((r.cpu c).tail (r.table t).schedPriority ≠ some t → Enqueued r r' t c since order)) := by
  unfold rqEnqueue
  simp only
  split
  · rename_i hg
    left
    refine ⟨fun h => ?_, rfl⟩
    obtain hg | hg | hg | hg | hg | hg | hg | hg | hg | hg | hg := hg
    · simp [valid, h.valid] at hg
    · simp [h.online] at hg
    · exact hg h.state
    · simp [h.queued] at hg
    · exact hg h.onCpu
    · exact Nat.not_le.2 h.level hg
    · exact h.mask hg
    · simp [h.inside] at hg
    · rw [h.allowed] at hg
      cases hg
    · exact h.idle hg
    · exact Nat.not_le.2 h.room hg
  · rename_i hg
    right
    simp only [not_or, valid, Bool.not_eq_true', Bool.not_eq_true, decide_eq_false_iff_not,
      Decidable.not_not, Bool.not_eq_false, Nat.not_le] at hg
    obtain ⟨h₁, h₂, h₃, h₄, h₅, h₆, h₇, h₈, h₉, h₁₀, h₁₁⟩ := hg
    refine ⟨⟨h₁, h₂, h₃, h₄, h₅, h₆, h₇, h₈, h₉, h₁₀, h₁₁⟩, _, rfl, fun htail => ?_⟩
    constructor
    · simp [setThread, setCpu, setNextOf_table, htail]
    · intro u hu
      simp [setThread, setCpu, setNextOf_table, hu]
    · simp [setThread, setCpu, setNextOf_cpu]
    · intro d hd
      simp [setThread, setCpu, hd, setNextOf_cpu_of_ne]
    · exact (setNextOf_rest ..).1
    · exact (setNextOf_rest ..).2

/-- The thread is on a queue that it may be taken from. -/
structure CanRemove (r : Runqueues) (t : Tid) : Prop where
  valid : t < r.count
  queued : (r.table t).readyQueued = true
  online : r.online (r.table t).readyCpu = true
  level : (r.table t).schedPriority < SCHED_PRIORITY_LEVELS

/-- `t` is taken from the queue `p` of the CPU `c`. -/
structure Removed (r r' : Runqueues) (t : Tid) (c : CpuId) (p : Nat) : Prop where
  self : r'.table t = { r.table t with
    readyPrev := none, readyNext := none, readyQueued := false, readyCpu := K64_CPU_NONE }
  other : ∀ u, u ≠ t → r'.table u = { r.table u with
    readyPrev := if (r.table t).readyNext = some u then (r.table t).readyPrev
      else (r.table u).readyPrev
    readyNext := if (r.table t).readyPrev = some u then (r.table t).readyNext
      else (r.table u).readyNext }
  cpu : ∃ head tail, r'.cpu c = { r.cpu c with
      head := head
      tail := tail
      readyMask := if (head p).isNone then (r.cpu c).readyMask &&& ~~~levelBit p
        else (r.cpu c).readyMask
      readyCount := (r.cpu c).readyCount - 1 } ∧
    head = (if (r.table t).readyPrev = none
      then update (r.cpu c).head p (r.table t).readyNext else (r.cpu c).head) ∧
    tail = (if (r.table t).readyNext = none
      then update (r.cpu c).tail p (r.table t).readyPrev else (r.cpu c).tail)
  cpus : ∀ d, d ≠ c → r'.cpu d = r.cpu d
  count : r'.count = r.count
  online : r'.onlineMask = r.onlineMask

theorem Shape.neighbours (h : Shape r Q) (ht : t < r.count)
    (hq : (r.table t).readyQueued = true) :
    ∃ a b, Q (r.table t).readyCpu (r.table t).schedPriority = a ++ t :: b ∧
      (∀ u, (r.table t).readyPrev = some u →
        u ∈ a ∧ u < r.count ∧ u ≠ t ∧ (r.table u).readyNext = some t) ∧
      (∀ u, (r.table t).readyNext = some u →
        u ∈ b ∧ u < r.count ∧ u ≠ t ∧ (r.table u).readyPrev = some t) ∧
      ((r.table t).readyPrev = none →
        (r.cpu (r.table t).readyCpu).head (r.table t).schedPriority = some t) ∧
      ((r.table t).readyNext = none →
        (r.cpu (r.table t).readyCpu).tail (r.table t).schedPriority = some t) := by
  have hm := (h.mem (r.table t).readyCpu (r.table t).schedPriority t).2 ⟨ht, hq, rfl, rfl⟩
  obtain ⟨a, b, hl⟩ := append_of_mem hm
  have hin := h.level _ _ t hm
  have hlink := h.linked _ hin.1 _ hin.2
  have hmem : ∀ u ∈ a ++ t :: b, u < r.count := by
    intro u hu
    exact ((h.mem _ _ u).1 (hl ▸ hu)).1
  have hnd := hlink.nodup
  rw [hl] at hlink hnd
  rw [nodup_append] at hnd
  refine ⟨a, b, hl, fun u hu => ?_, fun u hu => ?_, fun hn => ?_, fun hn => ?_⟩
  · have hua := hlink.mem_of_prev hu
    refine ⟨hua, hmem u (mem_append_left _ hua), ?_, ?_⟩
    · exact fun e => hnd.2.2 u hua t mem_cons_self e
    · have hlast : a.getLast? = some u := (hlink.links a t b rfl).1.symm.trans hu
      obtain ⟨a', rfl⟩ := List.getLast?_eq_some_iff.1 hlast
      exact (hlink.links a' u (t :: b) (by simp)).2
  · have hub := hlink.mem_of_next hu
    refine ⟨hub, hmem u (mem_append_right _ (mem_cons_of_mem t hub)), ?_, ?_⟩
    · exact fun e => (nodup_cons.1 hnd.2.1).1 (e ▸ hub)
    · have hhead : b.head? = some u := (hlink.links a t b rfl).2.symm.trans hu
      obtain ⟨b', rfl⟩ : ∃ b', b = u :: b' := ⟨b.tail, by
        cases b with
        | nil => cases hhead
        | cons v b => rw [Option.some.inj hhead]; rfl⟩
      have hlinks := hlink.links (a ++ [t]) u b' (by simp)
      simpa using hlinks.1
  · have ha : a = [] := by
      have hlast := (hlink.links a t b rfl).1
      exact List.getLast?_eq_none_iff.1 (hlast.symm.trans hn)
    rw [hlink.head, ha]
    rfl
  · have hb : b = [] := by
      have hhead := (hlink.links a t b rfl).2
      exact List.head?_eq_none_iff.1 (hhead.symm.trans hn)
    rw [hlink.tail, hb]
    simp

theorem Shape.mem_all (h : Shape r Q) : t ∈ Q.all c ↔ ∃ p, t ∈ Q c p := by
  rw [Queues.all, mem_flatMap]
  constructor
  · rintro ⟨p, -, ht⟩
    exact ⟨p, ht⟩
  · rintro ⟨p, ht⟩
    exact ⟨p, mem_range.2 (h.level c p t ht).2, ht⟩

theorem Shape.readyCount_pos (h : Shape r Q) (ht : t ∈ Q c p) : 0 < (r.cpu c).readyCount := by
  rw [h.count c (h.level c p t ht).1]
  exact length_pos_of_mem (h.mem_all.2 ⟨p, ht⟩)

theorem removed_of_writes (r : Runqueues) (t : Tid) (c : CpuId) (p : Nat) :
    let m := (r.setNextOf (r.table t).readyPrev c p (r.table t).readyNext).setPrevOf
      (r.table t).readyNext c p (r.table t).readyPrev
    let m := m.setThread t { m.table t with
      readyPrev := none, readyNext := none, readyQueued := false, readyCpu := K64_CPU_NONE }
    Removed r (m.setCpu c { m.cpu c with
      readyMask := if ((m.cpu c).head p).isNone then (m.cpu c).readyMask &&& ~~~levelBit p
        else (m.cpu c).readyMask
      readyCount := (m.cpu c).readyCount - 1 }) t c p := by
  constructor
  · simp [setThread, setCpu, setPrevOf_table, setNextOf_table]
  · intro u hu
    simp [setThread, setCpu, setPrevOf_table, setNextOf_table, hu]
  · refine ⟨_, _, ?_, rfl, rfl⟩
    simp [setThread, setCpu, setPrevOf_cpu, setNextOf_cpu]
  · intro d hd
    simp [setThread, setCpu, hd, setPrevOf_cpu_of_ne, setNextOf_cpu_of_ne]
  · simp [setThread, setCpu, setPrevOf_rest, setNextOf_rest]
  · simp [setThread, setCpu, setPrevOf_rest, setNextOf_rest]

theorem rqRemove_cases (h : Shape r Q) (t : Tid) :
    (¬CanRemove r t ∧ r.rqRemove t = r.fail) ∨
    (CanRemove r t ∧ ∃ r', r.rqRemove t = { rc := 0, rq := r' } ∧
      Removed r r' t (r.table t).readyCpu (r.table t).schedPriority) := by
  unfold rqRemove
  simp only
  split
  · rename_i hg
    left
    refine ⟨fun hc => ?_, rfl⟩
    obtain hg | hg | hg | hg := hg
    · simp [valid, hc.valid] at hg
    · simp [hc.queued] at hg
    · simp [hc.online] at hg
    · exact Nat.not_le.2 hc.level hg
  · rename_i hg
    right
    simp only [not_or, valid, Bool.not_eq_true', decide_eq_false_iff_not,
      Decidable.not_not, Bool.not_eq_false, Nat.not_le] at hg
    obtain ⟨ht, hq, hon, hlev⟩ := hg
    refine ⟨⟨ht, hq, hon, hlev⟩, ?_⟩
    obtain ⟨a, b, hl, hprev, hnext, hhead, htail⟩ := h.neighbours ht hq
    have hm : t ∈ Q (r.table t).readyCpu (r.table t).schedPriority := by simp [hl]
    rw [if_neg, if_neg]
    · refine ⟨_, rfl, ?_⟩
      exact removed_of_writes r t _ _
    · have hpos := h.readyCount_pos hm
      rintro (hz | ⟨hn, hne⟩ | ⟨hn, hne⟩)
      · omega
      · exact hne (hhead hn)
      · exact hne (htail hn)
    · rintro (hz | hz)
      · obtain ⟨u, hu, hbad⟩ := (Option.any_eq_true ..).1 hz
        obtain ⟨-, hlt, -, hback⟩ := hprev u hu
        simp [valid, hlt, hback] at hbad
      · obtain ⟨u, hu, hbad⟩ := (Option.any_eq_true ..).1 hz
        obtain ⟨-, hlt, -, hback⟩ := hnext u hu
        simp [valid, hlt, hback] at hbad

/-! ### One list changes -/

def Queues.set (Q : Queues) (c : CpuId) (p : Nat) (l : List Tid) : Queues :=
  fun d q => if d = c ∧ q = p then l else Q d q

@[simp] theorem Queues.set_self (Q : Queues) (c : CpuId) (p : Nat) (l : List Tid) :
    Q.set c p l c p = l := if_pos ⟨rfl, rfl⟩

theorem Queues.set_of_ne (l : List Tid) (h : ¬(d = c ∧ q = p)) : Q.set c p l d q = Q d q :=
  if_neg h

theorem Queues.all_set_of_ne (l : List Tid) (h : d ≠ c) : (Q.set c p l).all d = Q.all d := by
  refine congrArg (fun f => (List.range SCHED_PRIORITY_LEVELS).flatMap f) (funext fun q => ?_)
  exact Queues.set_of_ne l fun hc => h hc.1

theorem Queues.all_set (Q : Queues) (l : List Tid) (hp : p < SCHED_PRIORITY_LEVELS) :
    ((Q.set c p l).all c).length + (Q c p).length = (Q.all c).length + l.length := by
  obtain ⟨a, b, hab⟩ := append_of_mem (mem_range.2 hp)
  have hnd : (a ++ p :: b).Nodup := hab ▸ nodup_range
  rw [nodup_append] at hnd
  have hother : ∀ q ∈ a ++ b, Q.set c p l c q = Q c q := by
    intro q hq
    refine Queues.set_of_ne l ?_
    rintro ⟨-, rfl⟩
    obtain hq | hq := mem_append.1 hq
    · exact hnd.2.2 q hq q mem_cons_self rfl
    · exact (nodup_cons.1 hnd.2.1).1 hq
  have ha : a.flatMap (Q.set c p l c) = a.flatMap (Q c) :=
    flatMap_congr fun q hq => hother q (mem_append_left _ hq)
  have hb : b.flatMap (Q.set c p l c) = b.flatMap (Q c) :=
    flatMap_congr fun q hq => hother q (mem_append_right _ hq)
  unfold Queues.all
  rw [hab]
  simp only [flatMap_append, flatMap_cons, length_append, ha, hb, Queues.set_self]
  omega

theorem Shape.not_mem (h : Shape r Q) (ht : (r.table t).readyQueued = false) : t ∉ Q c p := by
  intro hm
  have hq := ((h.mem c p t).1 hm).2.1
  rw [ht] at hq
  cases hq

theorem Shape.tail_mem (h : Shape r Q) (hc : c < K64_CPU_MAX) (hp : p < SCHED_PRIORITY_LEVELS)
    (ht : (r.cpu c).tail p = some t) : t ∈ Q c p :=
  mem_of_getLast? ((h.linked c hc p hp).tail.symm.trans ht)

theorem online_lt (h : r.online c = true) : c < K64_CPU_MAX := by
  unfold online at h
  simp only [Bool.and_eq_true, decide_eq_true_eq] at h
  exact h.1

theorem Shape.unique (h : Shape r Q) (ht : t ∈ Q c p) (ht' : t ∈ Q d q) : d = c ∧ q = p := by
  obtain ⟨-, -, rfl, rfl⟩ := (h.mem c p t).1 ht
  obtain ⟨-, -, rfl, rfl⟩ := (h.mem d q t).1 ht'
  exact ⟨rfl, rfl⟩

/-- The queue of `c` at the level `p` becomes `l`, and only `t` comes or goes. -/
structure Relisted (r r' : Runqueues) (Q : Queues) (t : Tid) (c : CpuId) (p : Nat) (l : List Tid) :
    Prop where
  linked : Linked (fun u => (r'.table u).readyPrev) (fun u => (r'.table u).readyNext)
    ((r'.cpu c).head p) ((r'.cpu c).tail p) l
  links : ∀ d q, ¬(d = c ∧ q = p) → ∀ u ∈ Q d q,
    (r'.table u).readyPrev = (r.table u).readyPrev ∧ (r'.table u).readyNext = (r.table u).readyNext
  ends : ∀ q, q ≠ p →
    (r'.cpu c).head q = (r.cpu c).head q ∧ (r'.cpu c).tail q = (r.cpu c).tail q
  cpus : ∀ d, d ≠ c → r'.cpu d = r.cpu d
  size : r'.count = r.count
  other : ∀ u, u ≠ t → (r'.table u).readyQueued = (r.table u).readyQueued ∧
    (r'.table u).readyCpu = (r.table u).readyCpu ∧
    (r'.table u).schedPriority = (r.table u).schedPriority
  kept : ∀ u, u ≠ t → (u ∈ l ↔ u ∈ Q c p)
  apart : ∀ d q, ¬(d = c ∧ q = p) → t ∉ Q d q
  self : ∀ d q, (t < r.count ∧ (r'.table t).readyQueued = true ∧ (r'.table t).readyCpu = d ∧
    (r'.table t).schedPriority = q) ↔ (d = c ∧ q = p) ∧ t ∈ l
  count : (r'.cpu c).readyCount + (Q c p).length = (r.cpu c).readyCount + l.length
  mask : ∀ q < SCHED_PRIORITY_LEVELS, ((r'.cpu c).readyMask.getLsbD q = true ↔
    if q = p then l ≠ [] else (r.cpu c).readyMask.getLsbD q = true)
  idle : ∀ u < r.count, (r'.table u).readyQueued = false →
    (r'.table u).readyPrev = none ∧ (r'.table u).readyNext = none

theorem Relisted.shape {l : List Tid} (he : Relisted r r' Q t c p l) (h : Shape r Q)
    (hlt : c < K64_CPU_MAX) (hlev : p < SCHED_PRIORITY_LEVELS) : Shape r' (Q.set c p l) := by
  refine ⟨fun d hdlt q hqlt => ?_, fun d q u => ?_, fun d q u hu => ?_, fun d hdlt => ?_,
    fun d hdlt q hq => ?_, fun u hu hz => he.idle u (he.size ▸ hu) hz⟩
  · by_cases hdq : d = c ∧ q = p
    · rw [hdq.1, hdq.2, Queues.set_self]
      exact he.linked
    · rw [Queues.set_of_ne _ hdq]
      have hends : (r'.cpu d).head q = (r.cpu d).head q ∧ (r'.cpu d).tail q = (r.cpu d).tail q := by
        by_cases hd : d = c
        · rw [hd]
          exact he.ends q fun e => hdq ⟨hd, e⟩
        · rw [he.cpus d hd]
          exact ⟨rfl, rfl⟩
      rw [hends.1, hends.2]
      exact (h.linked d hdlt q hqlt).congr (fun u hu => (he.links d q hdq u hu).1)
        fun u hu => (he.links d q hdq u hu).2
  · rw [he.size]
    by_cases hu : u = t
    · rw [hu, he.self]
      by_cases hdq : d = c ∧ q = p
      · rw [hdq.1, hdq.2, Queues.set_self]
        simp
      · rw [Queues.set_of_ne _ hdq]
        exact iff_of_false (he.apart d q hdq) fun hm => hdq hm.1
    · obtain ⟨hqueued, hcpu, hlevel⟩ := he.other u hu
      rw [hqueued, hcpu, hlevel, ← h.mem d q u]
      by_cases hdq : d = c ∧ q = p
      · rw [hdq.1, hdq.2, Queues.set_self, he.kept u hu]
      · rw [Queues.set_of_ne _ hdq]
  · by_cases hdq : d = c ∧ q = p
    · rw [hdq.2]
      exact ⟨hdq.1 ▸ hlt, hlev⟩
    · rw [Queues.set_of_ne _ hdq] at hu
      exact h.level d q u hu
  · by_cases hd : d = c
    · have hall := Queues.all_set (c := c) Q l hlev
      have hcount := he.count
      have hold := h.count c hlt
      rw [hd]
      omega
    · rw [he.cpus d hd, Queues.all_set_of_ne _ hd]
      exact h.count d hdlt
  · by_cases hd : d = c
    · rw [hd, he.mask q hq]
      by_cases hqp : q = p
      · rw [if_pos hqp, hqp, Queues.set_self]
      · rw [if_neg hqp, Queues.set_of_ne _ fun hdq => hqp hdq.2]
        exact h.mask c hlt q hq
    · rw [he.cpus d hd, Queues.set_of_ne _ fun hdq => hd hdq.1]
      exact h.mask d hdlt q hq

theorem Shape.enqueue {since order : Nat} (h : Shape r Q) (hc : CanEnqueue r t c)
    (he : Enqueued r r' t c since order) :
    Shape r' (Q.set c (r.table t).schedPriority (Q c (r.table t).schedPriority ++ [t])) := by
  have hnot : ∀ d q, t ∉ Q d q := fun d q => h.not_mem hc.queued
  have hself := he.self
  have hother := he.other
  have hcpu := he.cpu
  have hlev := hc.level
  have hlt := online_lt hc.online
  generalize hp : (r.table t).schedPriority = p at hself hother hcpu hlev ⊢
  refine Relisted.shape ⟨?_, fun d q hdq u hu => ?_, fun q hq => ?_, he.cpus, he.count,
    fun u hu => ?_, fun u hu => ?_, fun d q _ => hnot d q, fun d q => ?_, ?_, fun q _ => ?_,
    fun u hu hz => ?_⟩ h hlt hlev
  · have hpush : Linked (fun u => (r'.table u).readyPrev) (fun u => (r'.table u).readyNext)
        (if (r.cpu c).tail p = none then some t else (r.cpu c).head p) (some t)
        (Q c p ++ [t]) := by
      refine (h.linked c hlt p hlev).push (hnot c p) (fun u hu => ?_) ?_ (fun u hu => ?_) ?_
      · rw [hother u fun e => hnot c p (e ▸ hu)]
      · rw [hself]
      · rw [hother u fun e => hnot c p (e ▸ hu)]
      · rw [hself]
    rw [hcpu]
    by_cases hn : (r.cpu c).tail p = none
    · simpa [hn] using hpush
    · simpa [hn] using hpush
  · rw [hother u fun e => hnot d q (e ▸ hu)]
    exact ⟨rfl, if_neg fun htail => hdq (h.unique (h.tail_mem hlt hlev htail) hu)⟩
  · rw [hcpu]
    by_cases hn : (r.cpu c).tail p = none
    · simp [hn, hq]
    · simp [hn, hq]
  · rw [hother u hu]
    exact ⟨rfl, rfl, rfl⟩
  · rw [mem_append, mem_singleton, or_iff_left hu]
  · rw [hself]
    simp [hc.valid, hp, eq_comm]
  · rw [hcpu, length_append, length_singleton]
    show (r.cpu c).readyCount + 1 + _ = _
    omega
  · rw [hcpu]
    show ((r.cpu c).readyMask ||| levelBit p).getLsbD q = true ↔ _
    rw [BitVec.getLsbD_or, levelBit_getLsbD hlev, Bool.or_eq_true, decide_eq_true_eq]
    by_cases hqp : q = p
    · simp [hqp]
    · simp [hqp]
  · have hut : u ≠ t := by
      rintro rfl
      rw [hself] at hz
      cases hz
    rw [hother u hut] at hz ⊢
    obtain ⟨hpu, hnu⟩ := h.idle u hu hz
    refine ⟨hpu, ?_⟩
    show (if (r.cpu c).tail p = some u then some t else (r.table u).readyNext) = none
    rw [if_neg, hnu]
    exact fun htail => h.not_mem hz (h.tail_mem hlt hlev htail)

/-- The bit of a level goes with the last thread there. -/
theorem cleared_getLsbD {mask : BitVec 32} {p q : Nat} (hp : p < SCHED_PRIORITY_LEVELS)
    (hq : q < SCHED_PRIORITY_LEVELS) (hset : mask.getLsbD p = true) (gone : Bool) :
    (if gone = true then mask &&& ~~~levelBit p else mask).getLsbD q = true ↔
      if q = p then gone = false else mask.getLsbD q = true := by
  cases gone with
  | false =>
    rw [if_neg (by decide)]
    split
    · rename_i hqp
      rw [hqp]
      exact iff_of_true hset rfl
    · rfl
  | true =>
    have hlt : q < 32 := hq
    rw [if_pos rfl, BitVec.getLsbD_and, BitVec.getLsbD_not, levelBit_getLsbD hp, decide_eq_true hlt]
    by_cases hqp : q = p
    · simp [hqp]
    · simp [hqp]

theorem Shape.remove (h : Shape r Q) (hc : CanRemove r t)
    (he : Removed r r' t (r.table t).readyCpu (r.table t).schedPriority) :
    ∃ a b, Q (r.table t).readyCpu (r.table t).schedPriority = a ++ t :: b ∧
      Shape r' (Q.set (r.table t).readyCpu (r.table t).schedPriority (a ++ b)) := by
  obtain ⟨a, b, hl, hprev, hnext, -, -⟩ := h.neighbours hc.valid hc.queued
  refine ⟨a, b, hl, ?_⟩
  have hself := he.self
  have hother := he.other
  have hlev := hc.level
  have hlt := online_lt hc.online
  generalize hpp : (r.table t).schedPriority = p at *
  generalize hcc : (r.table t).readyCpu = c at *
  obtain ⟨head, tail, hcpu, hhead, htail⟩ := he.cpu
  have hnd := (h.linked c hlt p hlev).nodup
  have hlink := h.linked c hlt p hlev
  rw [hl] at hnd hlink
  have ht : t ∉ a ++ b := by
    intro hm
    rw [nodup_append] at hnd
    obtain hm | hm := mem_append.1 hm
    · exact hnd.2.2 t hm t mem_cons_self rfl
    · exact (nodup_cons.1 hnd.2.1).1 hm
  -- a thread outside the queue is neither `t` nor one of its neighbours
  have hout : ∀ u, u ∉ Q c p → (r.table t).readyPrev ≠ some u ∧ (r.table t).readyNext ≠ some u := by
    intro u hu
    rw [hl] at hu
    exact ⟨fun e => hu (mem_append_left _ (hprev u e).1),
      fun e => hu (mem_append_right _ (mem_cons_of_mem t (hnext u e).1))⟩
  have hrest : ∀ d q, ¬(d = c ∧ q = p) → ∀ u ∈ Q d q, u ∉ Q c p ∧ u ≠ t := by
    intro d q hdq u hu
    have hin : u ∉ Q c p := fun hm => hdq (h.unique hm hu)
    refine ⟨hin, ?_⟩
    rintro rfl
    exact hin (by simp [hl])
  have hlinked : Linked (fun u => (r'.table u).readyPrev) (fun u => (r'.table u).readyNext)
      (head p) (tail p) (a ++ b) := by
    have hend : ∀ (f : Nat → Option Tid) (x y : Option Tid),
        (if x = none then update f p y else f) p = if x = none then y else f p := by
      intro f x y
      split
      · exact update_self ..
      · rfl
    rw [hhead, htail, hend, hend]
    refine hlink.remove (fun u hu => ?_) fun u hu => ?_
    · rw [hother u fun e => ht (e ▸ hu)]
    · rw [hother u fun e => ht (e ▸ hu)]
  refine Relisted.shape ⟨by rw [hcpu]; exact hlinked, fun d q hdq u hu => ?_, fun q hq => ?_, he.cpus,
    he.count, fun u hu => ?_, fun u hu => by rw [hl]; simp [hu],
    fun d q hdq hm => (hrest d q hdq t hm).2 rfl, fun d q => ?_, ?_, fun q hq => ?_,
    fun u hu hz => ?_⟩ h hlt hlev
  · obtain ⟨hin, hut⟩ := hrest d q hdq u hu
    rw [hother u hut]
    exact ⟨if_neg (hout u hin).2, if_neg (hout u hin).1⟩
  · rw [hcpu]
    simp only [hhead, htail]
    constructor
    · split
      · exact update_of_ne hq ..
      · rfl
    · split
      · exact update_of_ne hq ..
      · rfl
  · rw [hother u hu]
    exact ⟨rfl, rfl, rfl⟩
  · rw [hself]
    exact iff_of_false (by simp) fun hm => ht hm.2
  · have hall := Queues.all_set (c := c) Q (a ++ b) hlev
    rw [hl, length_append, length_append, length_cons] at hall
    rw [hcpu, hl, length_append, length_append, length_cons]
    show (r.cpu c).readyCount - 1 + _ = _
    rw [h.count c hlt]
    omega
  · rw [hcpu]
    show (if (head p).isNone = true then (r.cpu c).readyMask &&& ~~~levelBit p
      else (r.cpu c).readyMask).getLsbD q = true ↔ _
    have hempty : (head p).isNone = false ↔ a ++ b ≠ [] := by
      rw [hlinked.head, Ne, ← List.head?_eq_none_iff, ← Option.isNone_iff_eq_none, Bool.not_eq_true]
    rw [cleared_getLsbD hlev hq ((h.mask c hlt p hlev).2 (by simp [hl])), hempty]
  · by_cases hut : u = t
    · rw [hut, hself]
      exact ⟨rfl, rfl⟩
    · rw [hother u hut] at hz ⊢
      obtain ⟨hpn, hnn⟩ := hout u (h.not_mem hz)
      obtain ⟨hpu, hnu⟩ := h.idle u hu hz
      exact ⟨(if_neg hnn).trans hpu, (if_neg hpn).trans hnu⟩

end Win98Modern.Sched
