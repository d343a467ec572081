import Win98Modern.Kernel64.ByteQueueReads
import Win98Modern.Lib.Runs

/-!
# A queue is a FIFO

Beside the queue a run keeps the list of the bytes that were reported as accepted and are not dropped
(`fifo`).  `byte_queue_refines_fifo`: every answer is the one that the list gives.
-/

namespace Win98Modern.ByteQueue

variable {q : Bq} {xs : List Byte}

/-- A call; `pages` are the answers of `pmm_alloc` and `u` is the memory of the process. -/
inductive Call
  | write (src : List Byte) (pages : List (Option Addr))
  | writeUser (u : User) (uva : BitVec 64) (n : Nat) (pages : List (Option Addr))
  | peek (off n : Nat)
  | readUser (u : User) (uva : BitVec 64) (n : Nat) (consume : Bool)
  | drop (n : Nat)
  | free

inductive Answer
  | written (done : Nat)
  | stored (done : Nat) (status : Status)
  | bytes (bs : List Byte)
  | copied (u : User) (ok : Bool)
  | done

def call (q : Bq) : Call → Option (Bq × Answer)
  | .write src pages => let r := bqWrite q src pages; some (r.1, .written r.2)
  | .writeUser u uva n pages => let r := bqWriteUser q u uva.toNat n pages; some (r.1, .stored r.2.1 r.2.2)
  | .peek off n => (bqPeek q off n).map fun bs => (q, .bytes bs)
  | .readUser u uva n consume => (bqReadUser q u uva.toNat n consume).map fun r => (r.1, .copied r.2.1 r.2.2)
  | .drop n => some (bqDrop q n, .done)
  | .free => some (bqFree q, .done)

/-- The list after a call: what was reported as accepted comes behind, what was consumed or dropped goes. -/
def fifo (xs : List Byte) : Call → Answer → List Byte
  | .write src _, .written done => xs ++ src.take done
  | .writeUser u uva _ _, .stored done _ => xs ++ u.bytes uva.toNat done
  | .readUser _ _ n consume, .copied _ ok => if consume && ok then xs.drop n else xs
  | .drop n, _ => xs.drop n
  | .free, _ => []
  | _, _ => xs

/-- The answers that a list of at most `limit` bytes gives. -/
def Right (xs : List Byte) (limit : Nat) : Call → Answer → Prop
  | .write src pages, .written done =>
    done ≤ min src.length (limit - xs.length) ∧
      (Enough pages src.length → done = min src.length (limit - xs.length))
  | .writeUser u uva n pages, .stored done status =>
    done ≤ min n (limit - xs.length) ∧ u.Readable uva.toNat done ∧
      (status = .success ↔ done ≠ 0 ∨ min n (limit - xs.length) = 0) ∧
        (Enough pages n → u.Readable uva.toNat n → done = min n (limit - xs.length))
  | .peek off n, .bytes bs => bs = (xs.drop off).take n
  | .readUser u uva n _, .copied u' ok =>
    (ok = true ↔ u.Writable uva.toNat n) ∧ (ok = true → u' = u.storeAll uva.toNat (xs.take n))
  | .drop _, .done => True
  | .free, .done => True
  | _, _ => False

/-! ### Runs -/

structure State where
  q : Bq
  fifo : List Byte

def step (s : State) (c : Call) : State :=
  match call s.q c with
  | none => s
  | some (q, a) => ⟨q, fifo s.fifo c a⟩

/-- What the callers see to: `pmm_alloc` returns pages that are free, and no more than the bytes of the
queue are read or dropped. -/
def Allowed (s : State) : Call → Prop
  | .write _ pages => Fresh s.q.held pages
  | .writeUser _ _ _ pages => Fresh s.q.held pages
  | .peek off n => off + n ≤ s.q.len
  | .readUser _ _ n _ => n ≤ s.q.len
  | .drop n => n ≤ s.q.len
  | .free => True

instance (s : State) : DecidablePred (Allowed s)
  | .write _ _ => inferInstanceAs (Decidable (Fresh _ _))
  | .writeUser _ _ _ _ => inferInstanceAs (Decidable (Fresh _ _))
  | .peek _ _ => inferInstanceAs (Decidable (_ ≤ _))
  | .readUser _ _ _ _ => inferInstanceAs (Decidable (_ ≤ _))
  | .drop _ => inferInstanceAs (Decidable (_ ≤ _))
  | .free => isTrue trivial

/-- The call returns, with the answer of the list. -/
def Answered (s : State) (c : Call) : Prop := ∃ q a, call s.q c = some (q, a) ∧ Right s.fifo s.q.limit c a

/-- The length, and the pages held: one for each 4080 bytes that the queue spans, at most two more. -/
structure Sound (limit : Nat) (s : State) : Prop where
  len : s.q.len = s.fifo.length
  same : s.q.limit = limit
  le : s.q.len ≤ limit
  held : s.q.held.length * BQ_DATA < s.q.len + 2 * BQ_DATA

theorem call_spec {l : List Addr} {c : Call} (h : Holds q l xs) (hlim : q.limit + BQ_DATA ≤ 2 ^ 32)
    (hc : Allowed ⟨q, xs⟩ c) : ∃ q' a, call q c = some (q', a) ∧ Right xs q.limit c a ∧ q'.limit = q.limit ∧
      ∃ l', Holds q' l' (fifo xs c a) := by
  cases c with
  | write src pages =>
    obtain ⟨k, hk, hdone, ⟨hw, hlimit⟩, hall⟩ := bqWrite_spec h src hc
    subst hdone
    exact ⟨_, _, rfl, ⟨hk, hall⟩, hlimit, hw⟩
  | writeUser u uva n pages =>
    obtain ⟨k, hk, hdone, ⟨hw, hlimit⟩, hread, hst, hall⟩ := bqWriteUser_spec (u := u) h hc uva.isLt n
    subst hdone
    exact ⟨_, _, rfl, ⟨hk, hread, hst, hall⟩, hlimit, hw⟩
  | peek off n =>
    refine ⟨q, .bytes ((xs.drop off).take n), ?_, rfl, rfl, l, h⟩
    unfold call
    dsimp only
    rw [bqPeek_spec h hc hlim]
    rfl
  | readUser u uva n consume =>
    obtain ⟨q', u', ok, hr, hok, hmem, hlimit, hl⟩ := bqReadUser_spec h hc uva.isLt u consume
    refine ⟨q', .copied u' ok, ?_, ⟨hok, hmem⟩, hlimit, hl⟩
    unfold call
    dsimp only
    rw [hr]
    rfl
  | drop n =>
    obtain ⟨hl, hlimit⟩ := bqDrop_spec h hc
    exact ⟨_, _, rfl, trivial, hlimit, hl⟩
  | free =>
    obtain ⟨hl, hlimit⟩ := bqFree_spec h
    exact ⟨_, _, rfl, trivial, hlimit, [], hl⟩

theorem Holds.sound {l : List Addr} (h : Holds q l xs) : Sound q.limit ⟨q, xs⟩ where
  len := h.len
  same := rfl
  le := h.limit
  held := by
    have hhoff := h.hoff
    have hlen := h.held.length_eq
    show q.held.length * BQ_DATA < q.len + 2 * BQ_DATA
    rw [hlen]
    by_cases hl : l = []
    · rw [hl, List.length_nil, Nat.zero_mul]
      omega
    · have := h.place hl
      omega

/-- **Socket byte queues refine a FIFO.**  From an empty queue, every call returns what the list of the
bytes accepted and not dropped gives, and the length of the queue is that of the list, within the limit. -/
theorem byte_queue_refines_fifo (data : Addr → Nat → Byte) (limit : Nat) (hlim : limit + BQ_DATA ≤ 2 ^ 32)
    (calls : List Call) (hrun : Steps step Allowed ⟨empty data limit, []⟩ calls) :
    Along step (Sound limit) Answered ⟨empty data limit, []⟩ calls := by
  refine along_of_inv (I := fun s => s.q.limit = limit ∧ ∃ l, Holds s.q l s.fifo) calls ?_ ?_
    ⟨rfl, [], holds_empty data limit⟩ hrun
  · rintro s ⟨rfl, l, h⟩
    exact h.sound
  · rintro s c ⟨rfl, l, h⟩ _ hc
    obtain ⟨q', a, hcall, hright, hlimit, hl⟩ := call_spec h hlim hc
    refine ⟨⟨q', a, hcall, hright⟩, ?_⟩
    unfold step
    rw [hcall]
    exact ⟨hlimit, hl⟩

/-- Writes, a read that faults and one that consumes. -/
def sampleCalls : List Call :=
  [.write [1, 2, 3] [some 7], .writeUser ⟨fun a => a < 2, fun _ => true, fun a => UInt8.ofNat a⟩ 0 4 [],
    .readUser ⟨fun _ => true, fun _ => false, fun _ => 0⟩ 16 2 true,
    .readUser ⟨fun _ => true, fun _ => true, fun _ => 0⟩ 16 2 true, .peek 0 1, .drop 1]

theorem byte_queue_refines_fifo_sample :
    Along step (Sound 65536) Answered ⟨empty (fun _ _ => 0) 65536, []⟩ sampleCalls :=
  byte_queue_refines_fifo (fun _ _ => 0) 65536 (by decide) sampleCalls
    ⟨trivial, by decide +kernel, trivial, by decide +kernel, trivial, by decide +kernel, trivial, by decide +kernel,
      trivial, by decide +kernel, trivial, by decide +kernel, trivial⟩

end Win98Modern.ByteQueue
