import Win98Modern.Abi.Ring
import Win98Modern.Lib.Runs
import Mathlib.Algebra.Group.Nat.Defs

/-!
# Rings over runs

`Inv`: slot `i mod slot_count` holds message `i` for every message between the numbers of pops and
of pushes, and the free-running counters show these numbers.  **`ring_faithful`**: without forged
stores the pops take the messages in the order of the pushes, and whatever a hostile producer
stores, a pop copies no more than fits and stays inside the ring.
-/

namespace Win98Modern.Shz

open Function

/-! ### Slot numbers -/

theorem countOk_spec {n : BitVec 32} (h : countOk n) : ∃ k, 1 ≤ k ∧ k ≤ 31 ∧ n.toNat = 2 ^ k := by
  unfold countOk at h
  simp only [Bool.and_eq_true, decide_eq_true_eq] at h
  obtain ⟨h2, hand⟩ := h
  have h2 : 2 ≤ n.toNat := h2
  have hsub : (n - 1).toNat = n.toNat - 1 := BitVec.toNat_sub_of_le (by
    exact Nat.le_of_succ_le h2)
  have hand := congrArg BitVec.toNat hand
  rw [BitVec.toNat_and, hsub] at hand
  obtain ⟨k, hk⟩ := (Nat.and_sub_one_eq_zero_iff_isPowerOfTwo (by omega)).1 hand
  refine ⟨k, ?_, ?_, hk⟩
  · by_contra h0
    obtain rfl : k = 0 := by omega
    omega
  · by_contra h32
    have hle : 2 ^ 32 ≤ 2 ^ k := Nat.pow_le_pow_right (by decide) (by omega)
    omega

variable {r : Ring} {k : Nat}

theorem index_eq (hk : r.slotCount.toNat = 2 ^ k) (i : BitVec 32) :
    r.index i = i.toNat % 2 ^ k := by
  have hsub : (r.slotCount - 1).toNat = 2 ^ k - 1 := by
    rw [← hk]
    apply BitVec.toNat_sub_of_le
    rw [BitVec.le_def, hk]
    exact Nat.one_le_two_pow
  unfold Ring.index
  rw [BitVec.toNat_and, hsub, Nat.and_two_pow_sub_one_eq_mod]

theorem index_ofNat (hk : r.slotCount.toNat = 2 ^ k) (hle : k ≤ 32) (n : Nat) :
    r.index (BitVec.ofNat 32 n) = n % 2 ^ k := by
  rw [index_eq hk, BitVec.toNat_ofNat]
  exact Nat.mod_mod_of_dvd n (Nat.pow_dvd_pow 2 hle)

/-- The counters differ by the number of messages in flight. -/
theorem ofNat_sub {p c : Nat} (hle : c ≤ p) (hlt : p < c + 2 ^ 32) :
    (BitVec.ofNat 32 p - BitVec.ofNat 32 c).toNat = p - c := by
  rw [BitVec.toNat_sub, BitVec.toNat_ofNat, BitVec.toNat_ofNat]
  omega

theorem mod_ne {n a b : Nat} (hab : a < b) (hlt : b < a + n) : a % n ≠ b % n := by
  intro he
  have h0 := Nat.sub_mod_eq_zero_of_mod_eq he.symm
  rw [Nat.mod_eq_of_lt (by omega)] at h0
  omega

/-! ### One message -/

section Message

variable {h : MsgHdr} {payload : Nat → BitVec 8}

theorem messageSize_stamp (h : MsgHdr) :
    h.stamp.messageSize.toNat = hdrSize + h.payloadLength.toNat := by
  unfold MsgHdr.stamp
  have h64 : hdrSize = 64 := rfl
  rw [BitVec.toNat_add, BitVec.toNat_ofNat, BitVec.toNat_setWidth]
  omega

theorem cleared_filledSlot : (filledSlot h payload).cleared = unsignedSlot h payload := rfl

theorem checksum_unsignedSlot (hlen : h.payloadLength.toNat ≤ SHZ_MSG_MAX_INLINE) :
    (unsignedSlot h payload).checksum =
      crc32 ((unsignedSlot h payload).bytes.take h.stamp.messageSize.toNat) := by
  have hms := messageSize_stamp h
  have h64 : hdrSize = 64 := rfl
  have h192 : SHZ_MSG_MAX_INLINE = 192 := rfl
  have h256 : SHZ_MSG_SLOT_SIZE = 256 := rfl
  change crc32 (List.take (if h.stamp.messageSize.toNat ≤ _ then h.stamp.messageSize.toNat else _)
    (h.stamp.bytes ++ if _ < h.stamp.messageSize.toNat ∧ h.stamp.messageSize.toNat ≤ _ then _
      else _)) = crc32 (List.take _ (h.stamp.bytes ++ _))
  rw [if_pos (by omega), List.take_append, List.take_append, h.stamp.bytes_length]
  congr 2
  by_cases h0 : h.payloadLength.toNat = 0
  · rw [if_neg (by omega), hms, h0]
    simp
  · rw [if_pos (by omega), List.take_take]
    exact congrArg (fun n => List.take n _) (Nat.min_self _)

theorem malformed_filledSlot (hlen : h.payloadLength.toNat ≤ SHZ_MSG_MAX_INLINE) :
    (filledSlot h payload).malformed = .none := by
  have hms : (filledSlot h payload).hdr.messageSize.toNat = hdrSize + h.payloadLength.toNat :=
    messageSize_stamp h
  have h64 : hdrSize = 64 := rfl
  have h192 : SHZ_MSG_MAX_INLINE = 192 := rfl
  have h256 : SHZ_MSG_SLOT_SIZE = 256 := rfl
  have hmagic : (filledSlot h payload).hdr.magic = SHZ_MSG_MAGIC := rfl
  have hmajor : (filledSlot h payload).hdr.abiMajor = SHZ_ABI_MAJOR := rfl
  have hsize : (filledSlot h payload).hdr.headerSize = BitVec.ofNat 16 hdrSize := rfl
  unfold Slot.malformed
  rw [hmagic, hmajor, hsize, if_neg (absurd rfl), if_neg (absurd rfl), if_neg (absurd rfl), if_neg,
    if_neg]
  · rw [hms]
    rintro (hlong | ⟨hne, hoff⟩ | hrange)
    · exact absurd hlen (by rw [not_le]; exact hlong)
    · apply hoff
      show (if h.payloadLength ≠ 0 then _ else _) = _
      exact if_pos hne
    · rw [Bool.not_eq_true', ← Bool.not_eq_true, rangeOk_iff] at hrange
      apply hrange
      show (if h.payloadLength ≠ 0 then BitVec.ofNat 16 hdrSize else 0).toNat +
        h.payloadLength.toNat ≤ _
      split
      · exact le_rfl
      · rename_i hz
        rw [not_not.1 hz]
        exact Nat.zero_le _
  · rw [hms]
    rintro (hs | hs | hs)
    · omega
    · omega
    · exact hs rfl

theorem payload_unsignedSlot (hlen : h.payloadLength.toNat ≤ SHZ_MSG_MAX_INLINE) :
    ((unsignedSlot h payload).bytes.drop h.stamp.payloadOffset.toNat).take h.payloadLength.toNat =
      (List.range h.payloadLength.toNat).map payload := by
  by_cases h0 : h.payloadLength = 0
  · rw [h0]
    rfl
  · have hoff : h.stamp.payloadOffset.toNat = hdrSize := by
      show (if h.payloadLength ≠ 0 then BitVec.ofNat 16 hdrSize else 0).toNat = _
      rw [if_pos h0]
      rfl
    unfold Slot.bytes
    rw [hoff, List.drop_left' (MsgHdr.bytes_length _)]
    apply List.ext_getElem
    · rw [List.length_take, List.length_ofFn, List.length_map, List.length_range]
      omega
    · intro i hi _
      have hi : i < h.payloadLength.toNat := Nat.lt_of_lt_of_le hi (by simp)
      rw [List.getElem_take, List.getElem_ofFn, List.getElem_map, List.getElem_range]
      exact if_pos hi

/-- The pop returns the message, or refuses it because the caller's buffer is too small. -/
def Delivered (m : Message) (t : Taken) : Prop :=
  t = if m.payload = [] ∨ t.cap.any (m.payload.length ≤ ·) then ⟨t.cap, .ok, .none, m.hdr, m.payload⟩
    else ⟨t.cap, .proto, .payloadRange, m.hdr, []⟩

theorem delivered_filledSlot (hlen : h.payloadLength.toNat ≤ SHZ_MSG_MAX_INLINE)
    (cap : Option Nat) : Delivered (sent h payload) ((filledSlot h payload).read cap) := by
  have hplen : (sent h payload).payload.length = h.payloadLength.toNat := by
    show (List.map _ _).length = _
    rw [List.length_map, List.length_range]
  have hnil : (sent h payload).payload = [] ↔ h.payloadLength = 0 := by
    rw [← List.length_eq_zero_iff, hplen]
    exact ⟨fun he => BitVec.eq_of_toNat_eq he, fun he => congrArg BitVec.toNat he⟩
  have hread : (filledSlot h payload).read cap =
      if (filledSlot h payload).fits cap then
        ⟨cap, .ok, .none, (filledSlot h payload).hdr, (List.range h.payloadLength.toNat).map payload⟩
      else ⟨cap, .proto, .payloadRange, (filledSlot h payload).hdr, []⟩ := by
    unfold Slot.read
    rw [malformed_filledSlot hlen, cleared_filledSlot]
    simp only
    rw [if_neg, ← payload_unsignedSlot hlen]
    · rfl
    · rw [not_not]
      exact (checksum_unsignedSlot hlen).symm
  have hcap : ((filledSlot h payload).read cap).cap = cap := by
    rw [hread]
    split <;> rfl
  have hfits : (filledSlot h payload).fits cap ↔
      (sent h payload).payload = [] ∨ cap.any ((sent h payload).payload.length ≤ ·) := by
    unfold Slot.fits
    rw [hnil, hplen, Bool.or_eq_true, decide_eq_true_eq]
    rfl
  unfold Delivered
  rw [hcap]
  by_cases hf : (filledSlot h payload).fits cap
  · rw [if_pos (hfits.1 hf), hread, if_pos hf]
    rfl
  · rw [if_neg fun hor => hf (hfits.2 hor), hread, if_neg hf]
    rfl

end Message

/-! ### What the two sides know -/

namespace Link

variable {l : Link} {k : Nat}

/-- The slot that the consumer has claimed and not given back. -/
def reading (l : Link) : Option (BitVec 32) :=
  match l.consumer with
  | .copy _ tail | .store _ tail _ => some tail
  | _ => none

/-- The pops that took a slot gave back the messages in order; no more messages are in flight than
there are slots. -/
structure StateOk (l : Link) : Prop where
  le : l.taken.length ≤ l.pushed.length
  room : l.pushed.length ≤ l.taken.length + l.ring.slotCount.toNat
  fifo : ∀ (i : Nat) t, l.taken[i]? = some t → ∃ m, l.pushed[i]? = some m ∧ Delivered m t

/-- The producer does not fill the slot that the consumer reads. -/
def StepOk (l : Link) : LinkAct → Prop
  | .producer => ∀ h payload head tail, l.producer = .fill h payload head →
      l.reading = some tail → l.ring.index head ≠ l.ring.index tail
  | _ => True

/-- No forged store. -/
def Honest (_ : Link) : LinkAct → Prop
  | .forge _ _ => False
  | _ => True

def ProducerOk (k : Nat) (l : Link) : Producer → Prop
  | .idle => True
  | .head h _ => h.payloadLength.toNat ≤ SHZ_MSG_MAX_INLINE
  | .tail h _ head =>
    h.payloadLength.toNat ≤ SHZ_MSG_MAX_INLINE ∧ head = BitVec.ofNat 32 l.pushed.length
  | .fill h _ head =>
    h.payloadLength.toNat ≤ SHZ_MSG_MAX_INLINE ∧ head = BitVec.ofNat 32 l.pushed.length ∧
      l.pushed.length < l.taken.length + 2 ^ k
  | .publish h payload head =>
    h.payloadLength.toNat ≤ SHZ_MSG_MAX_INLINE ∧ head = BitVec.ofNat 32 l.pushed.length ∧
      l.pushed.length < l.taken.length + 2 ^ k ∧
      l.ring.slots (l.pushed.length % 2 ^ k) = filledSlot h payload

/-- Message `i` is as the slot `s` has it. -/
def Holds (l : Link) (i : Nat) (s : Slot) : Prop :=
  ∃ h payload, h.payloadLength.toNat ≤ SHZ_MSG_MAX_INLINE ∧
    l.pushed[i]? = some (sent h payload) ∧ s = filledSlot h payload

def ConsumerOk (l : Link) : Consumer → Prop
  | .idle | .tail _ => True
  | .head _ tail => tail = BitVec.ofNat 32 l.taken.length
  | .copy _ tail => tail = BitVec.ofNat 32 l.taken.length ∧ l.taken.length < l.pushed.length
  | .store _ tail snapshot =>
    tail = BitVec.ofNat 32 l.taken.length ∧ l.Holds l.taken.length snapshot

structure Inv (k : Nat) (l : Link) : Prop where
  count : l.ring.slotCount.toNat = 2 ^ k
  pow : k ≤ 31
  head : l.ring.head = BitVec.ofNat 32 l.pushed.length
  tail : l.ring.tail = BitVec.ofNat 32 l.taken.length
  le : l.taken.length ≤ l.pushed.length
  room : l.pushed.length ≤ l.taken.length + 2 ^ k
  slots : ∀ i, l.taken.length ≤ i → i < l.pushed.length → l.Holds i (l.ring.slots (i % 2 ^ k))
  fifo : ∀ (i : Nat) t, l.taken[i]? = some t → ∃ m, l.pushed[i]? = some m ∧ Delivered m t
  producer : l.ProducerOk k l.producer
  consumer : l.ConsumerOk l.consumer

theorem Holds.lt {i : Nat} {s : Slot} (h : l.Holds i s) : i < l.pushed.length := by
  obtain ⟨_, _, -, hm, -⟩ := h
  exact (List.getElem?_eq_some_iff.1 hm).1

theorem Inv.stateOk (h : Inv k l) : l.StateOk := ⟨h.le, h.count ▸ h.room, h.fifo⟩

theorem Inv.pow_lt (h : Inv k l) : 2 ^ k ≤ 2 ^ 31 := Nat.pow_le_pow_right (by decide) h.pow

theorem Inv.reading (h : Inv k l) {tail : BitVec 32} (hr : l.reading = some tail) :
    tail = BitVec.ofNat 32 l.taken.length ∧ l.taken.length < l.pushed.length := by
  have hc := h.consumer
  unfold Link.reading at hr
  cases hp : l.consumer with
  | copy cap t =>
    rw [hp] at hr hc
    obtain rfl := Option.some.inj hr
    exact hc
  | store cap t s =>
    rw [hp] at hr hc
    obtain rfl := Option.some.inj hr
    exact ⟨hc.1, hc.2.lt⟩
  | _ =>
    rw [hp] at hr
    cases hr

theorem Inv.stepOk (h : Inv k l) (a : LinkAct) : l.StepOk a := by
  cases a with
  | producer =>
    intro m payload head tail hp hr
    obtain ⟨htail, hlt⟩ := h.reading hr
    have hpc := h.producer
    rw [hp] at hpc
    obtain ⟨-, hhead, hroom⟩ := hpc
    rw [htail, hhead, index_ofNat h.count (by have := h.pow; omega),
      index_ofNat h.count (by have := h.pow; omega)]
    exact (mod_ne hlt hroom).symm
  | _ => trivial

/-! ### Steps -/

theorem Inv.setProducer (h : Inv k l) {p : Producer} (hp : l.ProducerOk k p) (ret : Option Status) :
    Inv k { l with producer := p, pushRet := ret } :=
  ⟨h.count, h.pow, h.head, h.tail, h.le, h.room, h.slots, h.fifo, hp, h.consumer⟩

theorem Inv.setConsumer (h : Inv k l) {c : Consumer} (hc : l.ConsumerOk c)
    (ret : Option (Status × ProtoReason)) : Inv k { l with consumer := c, popRet := ret } :=
  ⟨h.count, h.pow, h.head, h.tail, h.le, h.room, h.slots, h.fifo, h.producer, hc⟩

theorem inv_produce (h : Inv k l) : Inv k l.produce := by
  have hpc := h.producer
  have hpow := h.pow_lt
  unfold produce
  cases hp : l.producer with
  | idle => exact h
  | head m payload =>
    rw [hp] at hpc
    exact h.setProducer (p := .tail m payload l.ring.head) ⟨hpc, h.head⟩ _
  | tail m payload head =>
    rw [hp] at hpc
    show Inv k (if _ then _ else _)
    split
    · exact h.setProducer (p := .idle) trivial _
    · rename_i hroom
      refine h.setProducer (p := .fill m payload head) ⟨hpc.1, hpc.2, ?_⟩ _
      have hroom' := h.room
      rw [hpc.2, h.tail, BitVec.le_def, h.count, ofNat_sub h.le (by omega)] at hroom
      omega
  | fill m payload head =>
    rw [hp] at hpc
    obtain ⟨hlen, hhead, hroom⟩ := hpc
    have hidx : l.ring.index head = l.pushed.length % 2 ^ k := by
      rw [hhead, index_ofNat h.count (by have := h.pow; omega)]
    refine ⟨h.count, h.pow, h.head, h.tail, h.le, h.room, ?_, h.fifo, ?_, h.consumer⟩
    · intro i hi hlt
      change l.taken.length ≤ i at hi
      show Holds _ i (update l.ring.slots (l.ring.index head) _ (i % 2 ^ k))
      rw [update_of_ne]
      · exact h.slots i hi hlt
      · rw [hidx]
        exact mod_ne hlt (by omega)
    · refine ⟨hlen, hhead, hroom, ?_⟩
      show update l.ring.slots (l.ring.index head) _ (l.pushed.length % 2 ^ k) = _
      rw [hidx]
      exact update_self ..
  | publish m payload head =>
    rw [hp] at hpc
    obtain ⟨hlen, hhead, hroom, hslot⟩ := hpc
    have hlength : (l.pushed ++ [sent m payload]).length = l.pushed.length + 1 :=
      List.length_append
    have hnew : (l.pushed ++ [sent m payload])[l.pushed.length]? = some (sent m payload) := by simp
    have hold : ∀ (i : Nat) m', l.pushed[i]? = some m' → (l.pushed ++ [sent m payload])[i]? = some m' := by
      intro i m' hm'
      rwa [List.getElem?_append_left (List.getElem?_eq_some_iff.1 hm').1]
    refine ⟨h.count, h.pow, ?_, h.tail, ?_, ?_, ?_, ?_, trivial, ?_⟩
    · show head + 1 = BitVec.ofNat 32 (l.pushed ++ [sent m payload]).length
      rw [hlength, hhead, BitVec.ofNat_add]
      rfl
    · show l.taken.length ≤ (l.pushed ++ [sent m payload]).length
      have := h.le
      omega
    · show (l.pushed ++ [sent m payload]).length ≤ l.taken.length + 2 ^ k
      omega
    · intro i hi hlt
      change i < (l.pushed ++ [sent m payload]).length at hlt
      by_cases he : i = l.pushed.length
      · rw [he]
        exact ⟨m, payload, hlen, hnew, hslot⟩
      · obtain ⟨m', payload', hlen', hm', hs'⟩ := h.slots i hi (by omega)
        exact ⟨m', payload', hlen', hold i _ hm', hs'⟩
    · intro i t ht
      obtain ⟨m', hm', hd⟩ := h.fifo i t ht
      exact ⟨m', hold i m' hm', hd⟩
    · show ConsumerOk _ l.consumer
      have hc := h.consumer
      cases hcp : l.consumer with
      | copy cap tail =>
        rw [hcp] at hc
        refine ⟨hc.1, ?_⟩
        show l.taken.length < (l.pushed ++ [sent m payload]).length
        have := hc.2
        omega
      | store cap tail s =>
        rw [hcp] at hc
        obtain ⟨htail, m', payload', hlen', hm', hs'⟩ := hc
        exact ⟨htail, m', payload', hlen', hold _ _ hm', hs'⟩
      | _ =>
        rw [hcp] at hc
        exact hc

theorem inv_consume (h : Inv k l) : Inv k l.consume := by
  have hcc := h.consumer
  unfold consume
  cases hc : l.consumer with
  | idle => exact h
  | tail cap => exact h.setConsumer (c := .head cap l.ring.tail) h.tail _
  | head cap tail =>
    rw [hc] at hcc
    show Inv k (if _ then _ else if _ then _ else _)
    split
    · exact h.setConsumer (c := .idle) trivial _
    · rename_i hne
      split
      · exact h.setConsumer (c := .idle) trivial _
      · refine h.setConsumer (c := .copy cap tail) ⟨hcc, ?_⟩ _
        have hle := h.le
        by_contra hnlt
        apply hne
        rw [h.head, show tail = _ from hcc]
        congr 1
        omega
  | copy cap tail =>
    rw [hc] at hcc
    refine h.setConsumer (c := .store cap tail _) ⟨hcc.1, ?_⟩ _
    rw [hcc.1, index_ofNat h.count (by have := h.pow; omega)]
    exact h.slots _ le_rfl hcc.2
  | store cap tail snapshot =>
    rw [hc] at hcc
    obtain ⟨htail, hholds⟩ := hcc
    have hlt := hholds.lt
    have hlength : (l.taken ++ [snapshot.read cap]).length = l.taken.length + 1 :=
      List.length_append
    refine ⟨h.count, h.pow, h.head, ?_, ?_, ?_, ?_, ?_, ?_, trivial⟩
    · show tail + 1 = BitVec.ofNat 32 (l.taken ++ [snapshot.read cap]).length
      rw [hlength, htail, BitVec.ofNat_add]
      rfl
    · show (l.taken ++ [snapshot.read cap]).length ≤ l.pushed.length
      omega
    · show l.pushed.length ≤ (l.taken ++ [snapshot.read cap]).length + 2 ^ k
      have := h.room
      omega
    · intro i hi hi'
      change (l.taken ++ [snapshot.read cap]).length ≤ i at hi
      exact h.slots i (by omega) hi'
    · intro i t ht
      change (l.taken ++ [snapshot.read cap])[i]? = some t at ht
      by_cases hi : i < l.taken.length
      · rw [List.getElem?_append_left hi] at ht
        exact h.fifo i t ht
      · obtain ⟨hi', ht⟩ := List.getElem?_eq_some_iff.1 ht
        obtain rfl : i = l.taken.length := by omega
        rw [List.getElem_concat_length rfl] at ht
        obtain ⟨m, payload, hlen, hm, hs⟩ := hholds
        refine ⟨_, hm, ?_⟩
        rw [← ht, hs]
        exact delivered_filledSlot hlen cap
    · show ProducerOk k _ l.producer
      have hp := h.producer
      have hmono : ∀ {n}, n < l.taken.length + 2 ^ k →
          n < (l.taken ++ [snapshot.read cap]).length + 2 ^ k := by
        intro n hn
        omega
      cases hpp : l.producer with
      | fill m payload head =>
        rw [hpp] at hp
        exact ⟨hp.1, hp.2.1, hmono hp.2.2⟩
      | publish m payload head =>
        rw [hpp] at hp
        exact ⟨hp.1, hp.2.1, hmono hp.2.2.1, hp.2.2.2⟩
      | _ =>
        rw [hpp] at hp
        exact hp

theorem inv_step (sizeMax base : Nat) (h : Inv k l) (a : LinkAct) (ha : l.Honest a) :
    Inv k (l.step sizeMax base a) := by
  cases a with
  | push m payload =>
    unfold step
    cases hp : l.producer with
    | idle =>
      show Inv k (if _ then _ else if _ then _ else _)
      split
      · exact h.setProducer (p := .idle) trivial _
      split
      · exact h.setProducer (p := .idle) trivial _
      · rename_i hlen
        have hlen := Nat.le_of_not_lt hlen
        cases payload with
        | some bytes => exact h.setProducer (p := .head m bytes) hlen _
        | none =>
          show Inv k (if _ then _ else _)
          split
          · exact h.setProducer (p := .idle) trivial _
          · exact h.setProducer (p := .head m fun _ => 0) hlen _
    | _ => exact h
  | pop cap =>
    unfold step
    cases hc : l.consumer with
    | idle =>
      show Inv k (if _ then _ else _)
      split
      · exact h.setConsumer (c := .idle) trivial _
      · exact h.setConsumer (c := .tail cap) trivial _
    | _ => exact h
  | producer => exact inv_produce h
  | consumer => exact inv_consume h
  | forge head slots => exact ha.elim

end Link

/-! ### A hostile producer -/

namespace Slot

variable {s : Slot} {cap : Option Nat}

theorem payload_of_read : ((s.read cap).payload = []) ∨
    (s.malformed = .none ∧ s.fits cap ∧ (s.read cap).payload =
      (s.cleared.bytes.drop s.hdr.payloadOffset.toNat).take s.hdr.payloadLength.toNat) := by
  unfold read
  cases hm : s.malformed with
  | none =>
    simp only
    split
    · exact .inl rfl
    · split
      · rename_i hf
        exact .inr ⟨trivial, hf, rfl⟩
      · exact .inl rfl
  | _ => exact .inl rfl

theorem bounds_of_malformed (h : s.malformed = .none) :
    s.hdr.payloadLength.toNat ≤ SHZ_MSG_MAX_INLINE ∧
      s.hdr.payloadOffset.toNat + s.hdr.payloadLength.toNat ≤ SHZ_MSG_SLOT_SIZE := by
  unfold malformed at h
  split at h
  · cases h
  split at h
  · cases h
  split at h
  · cases h
  split at h
  · cases h
  rename_i hsize
  split at h
  · cases h
  rename_i hpay
  rw [not_or, not_or] at hsize hpay
  obtain ⟨hlen, -, hrange⟩ := hpay
  rw [Bool.not_eq_true', Bool.not_eq_false, rangeOk_iff] at hrange
  exact ⟨Nat.le_of_not_lt hlen, hrange.trans (Nat.le_of_not_lt hsize.2.1)⟩

end Slot

namespace Link

variable {l : Link} {k : Nat} {sizeMax base : Nat}

def Consumer.loaded : Consumer → Option (BitVec 32)
  | .head _ tail | .copy _ tail | .store _ tail _ => some tail
  | _ => none

/-- A pop that finds 1 to `slot_count` messages goes on to copy the slot, which stays inside the
ring, and to take it: that moves `tail` by one and copies no more than `SHZ_MSG_MAX_INLINE` bytes,
no more than the caller's buffer holds and nothing from outside the slot.  Nothing else moves
`tail`. -/
def StepSafe (sizeMax base : Nat) (l : Link) : LinkAct → Prop
  | .pop cap => (l.step sizeMax base (.pop cap)).ring.tail = l.ring.tail ∧
      (l.consumer = .idle → l.ring.valid sizeMax base →
        (l.step sizeMax base (.pop cap)).consumer = .tail cap)
  | .consumer =>
    match l.consumer with
    | .idle => l.consume.ring.tail = l.ring.tail
    | .tail cap => l.consume.ring.tail = l.ring.tail ∧ l.consume.consumer = .head cap l.ring.tail
    | .head cap tail => l.consume.ring.tail = l.ring.tail ∧
        (l.ring.head ≠ tail → l.ring.head - tail ≤ l.ring.slotCount →
          l.consume.consumer = .copy cap tail)
    | .copy cap tail => l.consume.ring.tail = l.ring.tail ∧
        ringHdrSize + l.ring.index tail * SHZ_MSG_SLOT_SIZE + SHZ_MSG_SLOT_SIZE ≤
          ringBytes sizeMax l.ring.slotCount ∧
        l.consume.consumer = .store cap tail (l.ring.slots (l.ring.index tail))
    | .store cap _ s => l.consume.ring.tail = l.ring.tail + 1 ∧
        l.consume.taken = l.taken ++ [s.read cap] ∧
        l.consume.popRet = some ((s.read cap).status, (s.read cap).reason) ∧
        (s.read cap).payload.length ≤ SHZ_MSG_MAX_INLINE ∧
        ((s.read cap).payload ≠ [] → cap.any ((s.read cap).payload.length ≤ ·) ∧
          s.hdr.payloadOffset.toNat + (s.read cap).payload.length ≤ SHZ_MSG_SLOT_SIZE)
  | a => (l.step sizeMax base a).ring.tail = l.ring.tail

/-- What no store into `head` or a slot changes. -/
structure Geometry (sizeMax k : Nat) (l : Link) : Prop where
  count : l.ring.slotCount.toNat = 2 ^ k
  bytes : ringBytes sizeMax l.ring.slotCount = ringHdrSize + 2 ^ k * SHZ_MSG_SLOT_SIZE
  loaded : ∀ tail, Consumer.loaded l.consumer = some tail → l.ring.tail = tail

/-- Who does not move `tail`. -/
structure Frame (l l' : Link) : Prop where
  count : l'.ring.slotCount = l.ring.slotCount
  tail : l'.ring.tail = l.ring.tail
  loaded : ∀ tail, Consumer.loaded l'.consumer = some tail → Consumer.loaded l.consumer = some tail

theorem frame_push (m : MsgHdr) (payload : Option (Nat → BitVec 8)) :
    Frame l (l.step sizeMax base (.push m payload)) := by
  simp only [step]
  split
  · split
    · exact ⟨rfl, rfl, fun _ => id⟩
    split
    · exact ⟨rfl, rfl, fun _ => id⟩
    split
    · exact ⟨rfl, rfl, fun _ => id⟩
    split <;> exact ⟨rfl, rfl, fun _ => id⟩
  · exact ⟨rfl, rfl, fun _ => id⟩

theorem frame_pop (cap : Option Nat) : Frame l (l.step sizeMax base (.pop cap)) := by
  simp only [step]
  split
  · split <;> exact ⟨rfl, rfl, nofun⟩
  · exact ⟨rfl, rfl, fun _ => id⟩

theorem frame_produce : Frame l l.produce := by
  unfold produce
  split
  case h_3 =>
    split <;> exact ⟨rfl, rfl, fun _ => id⟩
  all_goals exact ⟨rfl, rfl, fun _ => id⟩

theorem Geometry.of_frame {l' : Link} (h : Geometry sizeMax k l) (hf : Frame l l') :
    Geometry sizeMax k l' where
  count := hf.count ▸ h.count
  bytes := hf.count ▸ h.bytes
  loaded tail ht := hf.tail.trans (h.loaded tail (hf.loaded tail ht))

variable {cap : Option Nat} {tail slotCount : BitVec 32}

theorem consume_tail (hc : l.consumer = .tail cap) :
    l.consume = { l with consumer := .head cap l.ring.tail } := by
  unfold consume
  rw [hc]

theorem consume_copy (hc : l.consumer = .copy cap tail) :
    l.consume = { l with consumer := .store cap tail (l.ring.slots (l.ring.index tail)) } := by
  unfold consume
  rw [hc]

theorem consume_store {s : Slot} (hc : l.consumer = .store cap tail s) :
    l.consume = { l with
      ring := { l.ring with tail := tail + 1 }
      taken := l.taken ++ [s.read cap] }.popEnd (s.read cap).status (s.read cap).reason := by
  unfold consume
  rw [hc]

theorem consume_head (hc : l.consumer = .head cap tail) :
    l.consume = if l.ring.head = tail then l.popEnd .noent .none
      else if l.ring.slotCount < l.ring.head - tail then l.popEnd .proto .headCorrupt
      else { l with consumer := .copy cap tail } := by
  unfold consume
  rw [hc]

theorem Geometry.stepSafe (h : Geometry sizeMax k l) (a : LinkAct) : l.StepSafe sizeMax base a := by
  cases a with
  | push m payload => exact (frame_push m payload).tail
  | pop cap =>
    refine ⟨(frame_pop cap).tail, fun hidle hvalid => ?_⟩
    simp only [step, hidle]
    rw [if_neg (by rw [hvalid]; decide)]
  | producer => exact frame_produce.tail
  | forge head slots => rfl
  | consumer =>
    simp only [StepSafe]
    cases hc : l.consumer with
    | idle =>
      unfold consume
      rw [hc]
    | tail cap =>
      rw [consume_tail hc]
      exact ⟨rfl, rfl⟩
    | head cap tail =>
      rw [consume_head hc]
      refine ⟨?_, fun hne hle => ?_⟩
      · split
        · rfl
        split <;> rfl
      · rw [if_neg hne, if_neg (BitVec.not_lt.2 hle)]
    | copy cap tail =>
      rw [consume_copy hc]
      refine ⟨rfl, ?_, rfl⟩
      rw [h.bytes, index_eq h.count]
      have hlt := Nat.mod_lt tail.toNat (Nat.two_pow_pos k)
      have hmul := Nat.mul_le_mul_right SHZ_MSG_SLOT_SIZE (Nat.succ_le_of_lt hlt)
      rw [Nat.succ_mul] at hmul
      omega
    | store cap tail s =>
      rw [consume_store hc]
      refine ⟨?_, rfl, rfl, ?_⟩
      · rw [h.loaded tail (by rw [hc]; rfl)]
        rfl
      · obtain hnil | ⟨hm, hf, hp⟩ := s.payload_of_read
        · rw [hnil]
          exact ⟨Nat.zero_le _, fun hne => absurd rfl hne⟩
        · obtain ⟨hlen, hoff⟩ := Slot.bounds_of_malformed hm
          have hle : (s.read cap).payload.length ≤ s.hdr.payloadLength.toNat := by
            rw [hp, List.length_take]
            exact Nat.min_le_left _ _
          refine ⟨hle.trans hlen, fun hne => ⟨?_, by omega⟩⟩
          unfold Slot.fits at hf
          rw [Bool.or_eq_true, decide_eq_true_eq] at hf
          obtain h0 | hany := hf
          · rw [h0] at hp
            exact absurd hp hne
          · cases cap with
            | none => cases hany
            | some n => exact decide_eq_true (hle.trans (of_decide_eq_true hany))

theorem Geometry.step (h : Geometry sizeMax k l) (a : LinkAct) :
    Geometry sizeMax k (l.step sizeMax base a) := by
  cases a with
  | push m payload => exact h.of_frame (frame_push m payload)
  | pop cap => exact h.of_frame (frame_pop cap)
  | producer => exact h.of_frame frame_produce
  | forge head slots => exact ⟨h.count, h.bytes, h.loaded⟩
  | consumer =>
    show Geometry sizeMax k l.consume
    have hl := h.loaded
    cases hc : l.consumer with
    | head cap tail =>
      rw [hc] at hl
      rw [consume_head hc]
      split
      · exact ⟨h.count, h.bytes, nofun⟩
      split
      · exact ⟨h.count, h.bytes, nofun⟩
      · exact ⟨h.count, h.bytes, hl⟩
    | store cap tail s =>
      rw [consume_store hc]
      exact ⟨h.count, h.bytes, nofun⟩
    | idle =>
      unfold consume
      rw [hc]
      exact h
    | tail cap =>
      rw [consume_tail hc]
      exact ⟨h.count, h.bytes, fun tail ht => Option.some.inj ht⟩
    | copy cap tail =>
      rw [hc] at hl
      rw [consume_copy hc]
      exact ⟨h.count, h.bytes, hl⟩

/-! ### Every run -/

theorem ringInit_spec {bytes : Nat} {r : Ring} (h : ringInit sizeMax base bytes slotCount = some r) :
    r.slotCount = slotCount ∧ r.head = 0 ∧ r.tail = 0 ∧ countOk slotCount ∧
      ringBytes sizeMax slotCount ≠ 0 := by
  unfold ringInit at h
  simp only at h
  split at h
  · cases h
  · rename_i hn
    rw [not_or, not_or, not_or, not_or, Bool.not_eq_true', Bool.not_eq_false] at hn
    obtain rfl := Option.some.inj h
    exact ⟨rfl, rfl, rfl, hn.2.2.1, hn.2.2.2.1⟩

theorem ringBytes_eq (h : ringBytes sizeMax slotCount ≠ 0) :
    ringBytes sizeMax slotCount = ringHdrSize + slotCount.toNat * SHZ_MSG_SLOT_SIZE := by
  unfold ringBytes at h ⊢
  simp only at h ⊢
  split at h
  · rename_i hle
    exact if_pos hle
  · exact absurd rfl h

/-- **The ring is a bounded FIFO, and a pop stays inside it.**  On every ring that
`shz_ring_init` accepts: in every run without forged stores, the pops that take a slot give back
the pushed messages in order, each once and unchanged (or refuse the one whose payload the caller's
buffer does not hold), at most `slot_count` messages are in flight, and the producer fills no slot
that the consumer may still read.  In every run, whatever is stored in `head` and in the slots, the
steps of the pops are safe (`StepSafe`). -/
theorem ring_faithful (sizeMax base bytes : Nat) (slotCount : BitVec 32) (r : Ring)
    (hr : ringInit sizeMax base bytes slotCount = some r) (acts : List LinkAct) :
    (Steps (step sizeMax base) Honest (start r) acts →
      Along (step sizeMax base) StateOk StepOk (start r) acts) ∧
    Steps (step sizeMax base) (StepSafe sizeMax base) (start r) acts := by
  obtain ⟨hcount, hhead, htail, hok, hbytes⟩ := ringInit_spec hr
  obtain ⟨k, -, hk, hpow⟩ := countOk_spec hok
  have hpow' : r.slotCount.toNat = 2 ^ k := by rw [hcount, hpow]
  have hgeo : Geometry sizeMax k (start r) := by
    refine ⟨hpow', ?_, nofun⟩
    show ringBytes sizeMax r.slotCount = _
    rw [hcount, ringBytes_eq hbytes, hpow]
  have hinv : Inv k (start r) :=
    ⟨hpow', hk, hhead, htail, le_rfl, Nat.zero_le _, fun i _ hi => absurd hi (Nat.not_lt_zero i),
      fun i t ht => (by cases ht), trivial, trivial⟩
  constructor
  · intro hh
    exact along_of_inv acts (fun _ => Inv.stateOk)
      (fun _ a h _ ha => ⟨h.stepOk a, inv_step sizeMax base h a ha⟩) hinv hh
  · exact along_of_inv acts (fun _ _ => trivial) (fun _ a h _ _ => ⟨h.stepSafe a, h.step a⟩) hgeo
      (along_true _ acts)

/-- An eight-slot ring at the address 4096. -/
def ring8 : Ring :=
  ⟨SHZ_RING_MAGIC, 8, BitVec.ofNat 32 SHZ_MSG_SLOT_SIZE, 0, 0, fun _ => ⟨.zero, fun _ => 0⟩⟩

theorem ring8_init : ringInit (2 ^ 64 - 1) 4096 4096 8 = some ring8 := rfl

def wholePush (h : MsgHdr) (payload : Option (Nat → BitVec 8)) : List LinkAct :=
  [.push h payload, .producer, .producer, .producer, .producer]

def wholePop (cap : Option Nat) : List LinkAct :=
  [.pop cap, .consumer, .consumer, .consumer, .consumer]

/-- A message of one byte, pushed while the pop before it is under way, and taken. -/
def oneByte : List LinkAct :=
  .pop (some 1) :: wholePush { MsgHdr.zero with opcode := 1, payloadLength := 1 } (some fun _ => 7) ++
    [.consumer, .consumer, .consumer, .consumer]

theorem ring_faithful_ring8 :
    Along (step (2 ^ 64 - 1) 4096) StateOk StepOk (start ring8) oneByte ∧
      Steps (step (2 ^ 64 - 1) 4096) (StepSafe (2 ^ 64 - 1) 4096) (start ring8) oneByte ∧
      (let l := oneByte.foldl (step (2 ^ 64 - 1) 4096) (start ring8)
       l.pushed.length = 1 ∧ l.taken.map (fun t => (t.status, t.payload)) = [(.ok, [7])]) := by
  obtain ⟨hfaithful, hsafe⟩ := ring_faithful (2 ^ 64 - 1) 4096 4096 8 ring8 ring8_init oneByte
  refine ⟨hfaithful ?_, hsafe, by decide +kernel⟩
  repeat first | exact trivial | refine ⟨trivial, trivial, ?_⟩

/-- Two pushes, the first with one payload byte, and two pops without a buffer. -/
def smallBuffer : List LinkAct :=
  wholePush { MsgHdr.zero with opcode := 1, payloadLength := 1 } (some fun _ => 7) ++
    wholePush { MsgHdr.zero with opcode := 2 } none ++ wholePop none ++ wholePop none

/-- A forged `head` and two pops. -/
def corruptHead : List LinkAct :=
  .forge 1000 (fun _ => ⟨.zero, fun _ => 0⟩) :: (wholePop none ++ wholePop none)

/-- The pop without a buffer drops the first message, so the messages returned with `SHZ_OK` are no
prefix of those pushed; and no pop takes a slot from a ring with a forged `head`. -/
theorem pop_drops_and_wedges :
    (let l := smallBuffer.foldl (step (2 ^ 64 - 1) 4096) (start ring8)
     l.pushed.map (·.hdr.opcode) = [1, 2] ∧
      (l.taken.filter (·.status = .ok)).map (·.hdr.opcode) = [2]) ∧
    (let l := corruptHead.foldl (step (2 ^ 64 - 1) 4096) (start ring8)
     l.ring.head ≠ l.ring.tail ∧ l.popRet = some (.proto, .headCorrupt) ∧ l.ring.tail = 0 ∧
      l.taken = []) := by
  decide +kernel

end Link

end Win98Modern.Shz
