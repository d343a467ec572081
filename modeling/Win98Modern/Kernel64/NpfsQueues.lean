import Win98Modern.Kernel64.Npfs
import Mathlib.Algebra.BigOperators.Group.List.Basic
import Mathlib.Algebra.GroupWithZero.Nat

/-!
# What the calls do to a data queue

`q.Ok`: the bytes are those unread in the blocks, and no read is pending while there is a block.  `q.Flows`: a
write is pending only while the queue is over its quota.  Taking, linking and serving readers keep the queue,
and only taking can stop the flow.
-/

namespace Win98Modern.Npfs

open List

def unread (bs : List Blk) : Nat := (bs.map Blk.avail).sum

@[simp] theorem unread_nil : unread [] = 0 := rfl

@[simp] theorem unread_cons (b : Blk) (bs : List Blk) : unread (b :: bs) = b.avail + unread bs := rfl

theorem unread_append (as bs : List Blk) : unread (as ++ bs) = unread as + unread bs := by
  simp [unread]

structure DataQ.Ok (q : DataQ) : Prop where
  bytes : q.bytes = unread q.blocks
  quota : 0 < q.quota
  readers : q.readers ≠ [] → q.blocks = []

/-- Pending writes wait for quota. -/
def DataQ.Flows (q : DataQ) : Prop := q.writers ≠ [] → q.quota ≤ q.bytes

instance (q : DataQ) : Decidable q.Flows := inferInstanceAs (Decidable (_ → _))

section Queues

variable {q q' : DataQ} {m : Memory} {mm : Bool} {proc dst len : Nat}

theorem DataQ.Ok.bytes_zero (h : q.Ok) (hb : q.blocks = []) : q.bytes = 0 := by rw [h.bytes, hb, unread_nil]

/-- A queue that has blocks, or one with a pending write that flows, has no pending read. -/
theorem DataQ.Ok.writers_nil (h : q.Ok) (hf : q.Flows) (hr : q.readers ≠ []) : q.writers = [] := by
  by_contra hw
  have hle := hf hw
  rw [h.bytes_zero (h.readers hr)] at hle
  exact absurd h.quota (by omega)

/-! ### Building and taking -/

theorem mapM_length {α β : Type*} {f : α → Option β} : ∀ {as : List α} {bs : List β}, as.mapM f = some bs →
    bs.length = as.length
  | [], bs, h => by
    rw [mapM_nil] at h
    exact (Option.some.inj h) ▸ rfl
  | a :: as, bs, h => by
    rw [mapM_cons] at h
    cases ha : f a with
    | none => simp [ha] at h
    | some b =>
      cases has : as.mapM f with
      | none => simp [ha, has] at h
      | some bs' =>
        simp only [ha, has, Option.bind_eq_bind, Option.bind_some, Option.pure_def, Option.some.injEq] at h
        rw [← h, length_cons, length_cons, mapM_length has]

theorem copyFromUser_length {addr n : Nat} {data : List UInt8} (h : m.copyFromUser proc addr n = some data) :
    data.length = n := by
  rw [mapM_length h, length_range]

variable {message mp : Bool} {bs : List Blk} {dead : Option Status}

theorem unread_blocksBuild {src : Nat} {pages done : Nat} (hle : done ≤ len)
    (h : blocksBuild m proc src len message pages done = .ok bs) : unread bs = len - done := by
  induction pages generalizing done bs with
  | zero => cases h
  | succ pages ih =>
    simp only [blocksBuild] at h
    split at h
    · cases h
    · rename_i data hdata
      have hlen := copyFromUser_length hdata
      split at h
      · rename_i hlt
        split at h
        · rename_i bs' hbs
          obtain rfl := Except.ok.inj h
          rw [unread_cons, ih (by omega) hbs]
          simp only [Blk.avail, hlen]
          omega
        · cases h
      · obtain rfl := Except.ok.inj h
        simp only [unread_cons, Blk.avail, hlen, unread_nil]
        omega

theorem unread_build {irp : Irp} (h : irp.build m message = .ok bs) : unread bs = irp.len :=
  unread_blocksBuild (Nat.zero_le _) h

theorem qTakeLoop_frame (m : Memory) (mm : Bool) (proc dst len : Nat) (q : DataQ) (bs : List Blk) (done : List UInt8) :
    (qTakeLoop m mm proc dst len q bs done).q.readers = q.readers ∧
      (qTakeLoop m mm proc dst len q bs done).q.writers = q.writers ∧
        (qTakeLoop m mm proc dst len q bs done).q.quota = q.quota := by
  induction bs generalizing q done with
  | nil => exact ⟨rfl, rfl, rfl⟩
  | cons b bs ih =>
    simp only [qTakeLoop]
    split
    · exact ⟨rfl, rfl, rfl⟩
    split
    · exact ⟨rfl, rfl, rfl⟩
    split
    · split
      · split
        · exact ⟨rfl, rfl, rfl⟩
        · exact ih _ _
      · exact ih _ _
    · exact ⟨rfl, rfl, rfl⟩

theorem qTakeLoop_bytes (done : List UInt8) (h : q.bytes = unread bs) :
    (qTakeLoop m mm proc dst len q bs done).q.bytes = unread (qTakeLoop m mm proc dst len q bs done).q.blocks ∧
      (qTakeLoop m mm proc dst len q bs done).q.bytes ≤ q.bytes := by
  induction bs generalizing q done with
  | nil => exact ⟨h, Nat.le_refl _⟩
  | cons b bs ih =>
    rw [unread_cons] at h
    simp only [qTakeLoop]
    split
    · exact ⟨h, Nat.le_refl _⟩
    split
    · exact ⟨h, Nat.le_refl _⟩
    split
    · rename_i hend
      -- the block is used up
      have hn : q.bytes - min b.avail (len - done.length) = unread bs := by
        unfold Blk.avail at h hend ⊢
        omega
      split
      · split
        · exact ⟨hn, Nat.sub_le _ _⟩
        · obtain ⟨h₁, h₂⟩ := ih (q := { q with
            bytes := q.bytes - min b.avail (len - done.length), messages := q.messages - 1 }) _ hn
          exact ⟨h₁, Nat.le_trans h₂ (Nat.sub_le _ _)⟩
      · obtain ⟨h₁, h₂⟩ := ih (q := { q with bytes := q.bytes - min b.avail (len - done.length) }) _ hn
        exact ⟨h₁, Nat.le_trans h₂ (Nat.sub_le _ _)⟩
    · refine ⟨?_, Nat.sub_le _ _⟩
      rw [unread_cons]
      simp only [Blk.avail] at h ⊢
      omega

theorem qTakeLoop_message (done : List UInt8) :
    q.bytes ≤ (qTakeLoop m true proc dst len q bs done).q.bytes + min (len - done.length) (qFirstMessage bs) := by
  induction bs generalizing q done with
  | nil => exact Nat.le_add_right _ _
  | cons b bs ih =>
    simp only [qTakeLoop]
    split
    · exact Nat.le_add_right _ _
    split
    · exact Nat.le_add_right _ _
    split
    · split
      · rename_i hend
        simp only [if_true, qFirstMessage, if_pos hend]
        omega
      · rename_i hend
        have hrec := ih (q := { q with bytes := q.bytes - min b.avail (len - done.length) })
          (done ++ (b.data.drop b.off).take (min b.avail (len - done.length)))
        have hlen : (done ++ (b.data.drop b.off).take (min b.avail (len - done.length))).length =
            done.length + min b.avail (len - done.length) := by
          rw [length_append, length_take, length_drop]
          omega
        simp only [qFirstMessage, if_neg hend]
        dsimp only at hrec
        omega
    · have : min b.avail (len - done.length) ≤ qFirstMessage (b :: bs) := by
        simp only [qFirstMessage]
        split <;> omega
      dsimp only
      omega

theorem DataQ.Ok.qTake (h : q.Ok) (m : Memory) (mm : Bool) (proc dst len : Nat) (hb : q.blocks ≠ []) : (qTake m mm proc dst len q).q.Ok := by
  have hr : q.readers = [] := by
    by_contra hr
    exact hb (h.readers hr)
  obtain ⟨hreaders, -, hquota⟩ := qTakeLoop_frame m mm proc dst len q q.blocks []
  refine ⟨(qTakeLoop_bytes [] h.bytes).1, ?_, fun hne => ?_⟩
  · rw [Npfs.qTake, hquota]
    exact h.quota
  · rw [Npfs.qTake, hreaders] at hne
    exact absurd hr hne

/-- The flow goes on when enough is left behind the message. -/
theorem qTake_flows (m : Memory) (proc dst len : Nat)
    (h : q.writers ≠ [] → q.quota + min len (qFirstMessage q.blocks) ≤ q.bytes) :
    (qTake m true proc dst len q).q.Flows := by
  obtain ⟨-, hwriters, hquota⟩ := qTakeLoop_frame m true proc dst len q q.blocks []
  have hle : q.bytes ≤ (qTake m true proc dst len q).q.bytes + min (len - 0) (qFirstMessage q.blocks) :=
    qTakeLoop_message []
  intro hw
  have hw' : q.writers ≠ [] := hwriters ▸ hw
  have hroom := h hw'
  have hq : (qTake m true proc dst len q).q.quota = q.quota := hquota
  omega

/-! ### Serving readers -/

theorem serveReadersLoop_spec (m : Memory) (mp : Bool) (dead : Option Status) (irps : List Irp) (h : q.bytes = unread q.blocks) :
    (serveReadersLoop m mp dead irps q).1.bytes = unread (serveReadersLoop m mp dead irps q).1.blocks ∧
      (serveReadersLoop m mp dead irps q).1.writers = q.writers ∧
        (serveReadersLoop m mp dead irps q).1.quota = q.quota ∧
          ((serveReadersLoop m mp dead irps q).1.readers ≠ [] →
            (serveReadersLoop m mp dead irps q).1.blocks = [] ∧ dead = none) := by
  induction irps generalizing q with
  | nil => exact ⟨h, rfl, rfl, fun hne => absurd rfl hne⟩
  | cons irp rest ih =>
    simp only [serveReadersLoop]
    split
    · rename_i hb
      cases dead with
      | none => exact ⟨h, rfl, rfl, fun _ => ⟨hb, rfl⟩⟩
      | some st => exact ih h
    · obtain ⟨-, hw, hquota⟩ := qTakeLoop_frame m (mp && irp.messageMode) irp.proc irp.buf irp.len q q.blocks []
      obtain ⟨h₁, h₂, h₃, h₄⟩ := ih (q := (qTake m (mp && irp.messageMode) irp.proc irp.buf irp.len q).q)
        (qTakeLoop_bytes [] h).1
      exact ⟨h₁, h₂.trans hw, h₃.trans hquota, h₄⟩

theorem serveReaders_ok (h : q.bytes = unread q.blocks) (hquota : 0 < q.quota) :
    (serveReaders m mp dead q).1.Ok := by
  obtain ⟨h₁, -, h₃, h₄⟩ := serveReadersLoop_spec m mp dead q.readers h
  exact ⟨h₁, by rw [serveReaders, h₃]; exact hquota, fun hr => (h₄ hr).1⟩

theorem serveReaders_writers (h : q.bytes = unread q.blocks) :
    (serveReaders m mp dead q).1.writers = q.writers :=
  (serveReadersLoop_spec m mp dead q.readers h).2.1

theorem DataQ.Ok.link (h : q.Ok) (m : Memory) (mp message : Bool) {first : List Blk} (hf : unread first = len) :
    (serveReaders m mp none (qLink q first len message)).1.Ok ∧
      (q.Flows → (serveReaders m mp none (qLink q first len message)).1.Flows) := by
  have hb : (qLink q first len message).bytes = unread (qLink q first len message).blocks := by
    simp only [qLink]
    rw [unread_append, ← h.bytes, hf]
  refine ⟨serveReaders_ok hb h.quota, fun hflow hw => ?_⟩
  rw [serveReaders_writers hb] at hw
  by_cases hr : q.readers = []
  · have hserve : serveReaders m mp none (qLink q first len message) = ({ qLink q first len message with readers := [] }, []) := by
      rw [serveReaders, show (qLink q first len message).readers = [] from hr]
      rfl
    rw [hserve]
    exact Nat.le_trans (hflow hw) (Nat.le_add_right _ _)
  · exact absurd (h.writers_nil hflow hr) hw

/-! ### Requests that leave or join the lists -/

theorem DataQ.Ok.unlink (h : q.Ok) (id : Nat) : (q.unlink id).Ok := by
  refine ⟨h.bytes, h.quota, fun hr => h.readers fun he => hr ?_⟩
  rw [DataQ.unlink, he]
  rfl

theorem DataQ.Flows.unlink (h : q.Flows) (id : Nat) : (q.unlink id).Flows := by
  intro hw
  refine h fun he => hw ?_
  rw [DataQ.unlink, he]
  rfl

theorem DataQ.Ok.setWriters (h : q.Ok) (ws : List Irp) : ({ q with writers := ws } : DataQ).Ok := ⟨h.bytes, h.quota, h.readers⟩

theorem DataQ.Ok.noReaders (h : q.Ok) : ({ q with readers := [] } : DataQ).Ok := ⟨h.bytes, h.quota, fun hr => absurd rfl hr⟩

theorem DataQ.Ok.qFree (h : q.Ok) : (qFree q).Ok := ⟨rfl, h.quota, fun _ => rfl⟩

theorem DataQ.Ok.pendReader (h : q.Ok) (irp : Irp) (hb : q.blocks = []) :
    ({ q with readers := q.readers ++ [irp] } : DataQ).Ok := ⟨h.bytes, h.quota, fun _ => hb⟩

end Queues

end Win98Modern.Npfs
