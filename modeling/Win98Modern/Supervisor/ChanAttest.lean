import Win98Modern.Supervisor.Domain

/-!
# Channel attestation

The decisions of `chan_attest.h` over the Supervisor's record of a channel, `chan_attest_set` and
`chan_attest_get` of `domain.c`, which feed them with the caller's registers and the domain table,
and the authorization that Kernel64 makes of one answer (`shz_chan_auth_state`).

`Later` says how a record moves: its generation grows, or the record stays as it is.
-/

namespace Win98Modern.Supervisor

def SHZ_CHAN_ATTEST_W64_DERIVED_OWNER : BitVec 64 := 1
def SHZ_CHAN_ATTEST_KNOWN : BitVec 64 := 1

/-- The codes of `enum shz_status` that the two hypercalls return. -/
inductive HcStatus
  | ok | invalid | noent | busy | stale | denied
  deriving DecidableEq, Repr

/-- `shz_chan_attest_rec_t`. -/
structure ChanAttestRec where
  bits : BitVec 64
  generation : BitVec 32
  attester : Nat
  attesterGen : BitVec 32
  deriving DecidableEq, Repr

/-- The record of a channel that was never attested. -/
def ChanAttestRec.zero : ChanAttestRec := ⟨0, 0, 0, 0⟩

/-- `shz_chan_attest_decide`: the status, the bits for the caller and the record afterwards. -/
def chanAttestDecide (r : ChanAttestRec) (mapped callerOk peerOk : Bool) (gen : BitVec 64)
    (headerGen : BitVec 32) (bits : BitVec 64) (self : Nat) (selfGen : BitVec 32) :
    HcStatus × BitVec 64 × ChanAttestRec :=
  if !mapped then (.noent, 0, r)
  else if !callerOk || !peerOk then (.denied, 0, r)
  else if bits = 0 ∨ bits &&& ~~~SHZ_CHAN_ATTEST_KNOWN ≠ 0 then (.invalid, 0, r)
  else if gen = 0 ∨ 0xffffffff < gen ∨ gen ≠ headerGen.setWidth 64 ∨ gen < r.generation.setWidth 64 then
    (.stale, 0, r)
  else if r.generation.setWidth 64 = gen ∧ r.attester = self ∧ r.attesterGen = selfGen then
    (if r.bits = bits then .ok else .busy, r.bits, r)
  else if r.generation.setWidth 64 = gen then (.busy, 0, r)
  else (.ok, bits, ⟨bits, gen.setWidth 32, self, selfGen⟩)

def chanAttesterAlive (r : ChanAttestRec) (slotExists : Bool) (domGen : BitVec 32)
    (domState : DomState) : Bool :=
  r.generation ≠ 0 && slotExists && domGen == r.attesterGen && domState ≠ .unused &&
    domState ≠ .exited && domState ≠ .failed

/-- `shz_chan_attest_lookup`: the status, the bits and the generation. -/
def chanAttestLookup (r : ChanAttestRec) (mapped attesterAlive : Bool) :
    HcStatus × BitVec 64 × BitVec 64 :=
  if !mapped || r.generation == 0 || !attesterAlive then (.noent, 0, 0)
  else (.ok, r.bits, r.generation.setWidth 64)

def chanAttestedFor (status : HcStatus) (bits attestedGen : BitVec 64) (channelGen : BitVec 32)
    (need : BitVec 64) : Bool :=
  status == .ok && need ≠ 0 && bits &&& need == need && channelGen ≠ 0 &&
    attestedGen == channelGen.setWidth 64

/-- The answers of `shz_chan_auth_state`. -/
inductive ChanAuth
  | legacy | attested | revoked
  deriving DecidableEq, Repr

/-- `shz_chan_auth_state`: the answer and the latch afterwards. -/
def chanAuthState (status : HcStatus) (bits attestedGen : BitVec 64) (channelGen : BitVec 32)
    (need : BitVec 64) (ever : Bool) : ChanAuth × Bool :=
  if chanAttestedFor status bits attestedGen channelGen need then (.attested, true)
  else (if ever then .revoked else .legacy, ever)

/-! ### What the decisions can do -/

/-- `r'` holds a later generation than `r`, or is `r`. -/
def Later (r r' : ChanAttestRec) : Prop :=
  r.generation ≤ r'.generation ∧ (r.generation = r'.generation → r' = r)

theorem Later.refl (r : ChanAttestRec) : Later r r := ⟨BitVec.le_refl _, fun _ => rfl⟩

variable {r : ChanAttestRec} {bits : BitVec 64} {mapped alive : Bool}

theorem Later.trans {r' r'' : ChanAttestRec} (h : Later r r') (h' : Later r' r'') :
    Later r r'' := by
  refine ⟨BitVec.le_trans h.1 h'.1, fun he => ?_⟩
  have hmid : r.generation = r'.generation := BitVec.le_antisymm h.1 (he ▸ h'.1)
  rw [h'.2 (hmid ▸ he), h.2 hmid]

/-- The bits a record may hold. -/
def Known (bits : BitVec 64) : Prop := bits ≠ 0 ∧ bits &&& ~~~SHZ_CHAN_ATTEST_KNOWN = 0

theorem Known.eq_one (h : Known bits) : bits = 1 := by
  obtain ⟨hne, hk⟩ := h
  have hbit : ∀ i, 0 < i → i < 64 → bits.getLsbD i = false := by
    intro i hi hlt
    have := congrArg (fun b : BitVec 64 => b.getLsbD i) hk
    simpa only [SHZ_CHAN_ATTEST_KNOWN, BitVec.getLsbD_and, BitVec.getLsbD_not, BitVec.getLsbD_one,
      hlt, Nat.ne_of_gt hi, decide_true, decide_false, Bool.and_false, Bool.not_false,
      Bool.true_and, Bool.and_true, BitVec.ofNat_eq_ofNat, BitVec.getLsbD_zero] using this
  have hzero : bits.getLsbD 0 = true := by
    by_contra h0
    refine hne (BitVec.eq_of_getLsbD_eq fun i hi => ?_)
    rcases Nat.eq_zero_or_pos i with rfl | hpos
    · simpa using h0
    · simpa using hbit i hpos hi
  refine BitVec.eq_of_getLsbD_eq fun i hi => ?_
  rcases Nat.eq_zero_or_pos i with rfl | hpos
  · simpa using hzero
  · rw [hbit i hpos hi]
    simp [Nat.ne_of_gt hpos]

/-- **The decision writes a record once.**  It leaves the record alone, or a caller and a peer that
were accepted bind a generation beyond the recorded one, the header's, to known bits. -/
theorem chanAttestDecide_cases (r : ChanAttestRec) (mapped callerOk peerOk : Bool) (gen : BitVec 64)
    (headerGen : BitVec 32) (bits : BitVec 64) (self : Nat) (selfGen : BitVec 32) :
    (chanAttestDecide r mapped callerOk peerOk gen headerGen bits self selfGen).2.2 = r ∨
      callerOk = true ∧ peerOk = true ∧ Known bits ∧ gen = headerGen.setWidth 64 ∧
        r.generation < headerGen ∧
        chanAttestDecide r mapped callerOk peerOk gen headerGen bits self selfGen =
          (.ok, bits, ⟨bits, headerGen, self, selfGen⟩) := by
  unfold chanAttestDecide
  split_ifs with hm hc hb hg hs hs' he
  · exact .inl rfl
  · exact .inl rfl
  · exact .inl rfl
  · exact .inl rfl
  · exact .inl rfl
  · exact .inl rfl
  · exact .inl rfl
  · right
    rw [not_or] at hb
    simp only [not_or, not_not] at hg
    obtain ⟨_, _, rfl, hle⟩ := hg
    refine ⟨by grind, by grind, ⟨hb.1, not_not.1 hb.2⟩, rfl, ?_, ?_⟩
    · bv_omega
    · simp

/-- **A granted attestation is on record** as it was asked for, at the header's generation. -/
theorem chanAttestDecide_ok {callerOk peerOk : Bool} {gen : BitVec 64} {headerGen : BitVec 32}
    {self : Nat} {selfGen : BitVec 32}
    (h : (chanAttestDecide r mapped callerOk peerOk gen headerGen bits self selfGen).1 = .ok) :
    headerGen ≠ 0 ∧ (chanAttestDecide r mapped callerOk peerOk gen headerGen bits self selfGen).2.2 =
      ⟨bits, headerGen, self, selfGen⟩ := by
  revert h
  unfold chanAttestDecide
  split_ifs with hm hc hb hg hs hbits he
  · nofun
  · nofun
  · nofun
  · nofun
  · intro _
    simp only [not_or, not_not] at hg
    obtain ⟨hz, _, rfl, _⟩ := hg
    obtain ⟨hgen, rfl, rfl⟩ := hs
    refine ⟨by rintro rfl; exact hz rfl, ?_⟩
    have : r.generation = headerGen := by bv_omega
    rw [← hbits, ← this]
  · nofun
  · nofun
  · intro _
    simp only [not_or, not_not] at hg
    obtain ⟨hz, _, rfl, _⟩ := hg
    exact ⟨by rintro rfl; exact hz rfl, by simp⟩

theorem chanAttestLookup_ok (h : (chanAttestLookup r mapped alive).1 = .ok) :
    mapped = true ∧ r.generation ≠ 0 ∧ alive = true ∧
      chanAttestLookup r mapped alive = (.ok, r.bits, r.generation.setWidth 64) := by
  revert h
  unfold chanAttestLookup
  split_ifs with hc
  · nofun
  · intro _
    simp only [Bool.or_eq_true, Bool.not_eq_true', beq_iff_eq, not_or, Bool.not_eq_false] at hc
    exact ⟨hc.1.1, hc.1.2, hc.2, rfl⟩

/-- **The authorization of one answer.**  It is `ATTESTED` exactly on a granted answer for the
generation of the channel, and `LEGACY` only while the latch is unset. -/
theorem chanAuthState_lookup {ever : Bool} {live : BitVec 32} (hr : r.generation ≠ 0 → Known r.bits) :
    (chanAuthState (chanAttestLookup r mapped alive).1 (chanAttestLookup r mapped alive).2.1
        (chanAttestLookup r mapped alive).2.2 live SHZ_CHAN_ATTEST_W64_DERIVED_OWNER ever).1 =
      if mapped = true ∧ alive = true ∧ r.generation ≠ 0 ∧ live = r.generation then .attested
      else if ever then .revoked else .legacy := by
  by_cases hok : mapped = true ∧ alive = true ∧ r.generation ≠ 0
  · obtain ⟨rfl, rfl, hg⟩ := hok
    have hlook : chanAttestLookup r true true = (.ok, 1, r.generation.setWidth 64) := by
      rw [← (hr hg).eq_one]
      exact if_neg (by simpa using hg)
    rw [hlook]
    by_cases hl : live = r.generation
    · rw [if_pos ⟨rfl, rfl, hg, hl⟩, hl]
      exact congrArg Prod.fst
        (if_pos (by simpa [chanAttestedFor, SHZ_CHAN_ATTEST_W64_DERIVED_OWNER] using hg))
    · have hne : r.generation.setWidth 64 ≠ live.setWidth 64 := by bv_omega
      rw [if_neg (fun hp => hl hp.2.2.2)]
      exact congrArg Prod.fst (if_neg (by simp [chanAttestedFor, hne]))
  · have hlook : chanAttestLookup r mapped alive = (.noent, 0, 0) := if_pos (by grind)
    rw [hlook, if_neg (fun hp => hok ⟨hp.1, hp.2.1, hp.2.2.1⟩)]
    exact congrArg Prod.fst (if_neg (by simp [chanAttestedFor]))

end Win98Modern.Supervisor
