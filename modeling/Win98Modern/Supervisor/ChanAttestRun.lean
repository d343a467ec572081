import Mathlib.Data.List.Induction
import Win98Modern.Supervisor.ChanAttest
import Win98Modern.Lib.Runs

/-!
# Attestation and authorization over runs

The Supervisor's domain table and records, the headers in the shared pages, and the memory of each
domain's `subsys64.c`: the channel it is bound to, the latch `attest_ever`, and the calls of
`chan_auth` between their first reads and their query.  `step` makes one hypercall, one write of a
header, one change of a domain or one half of `chan_auth`.

The restart of a domain is not in the source.  It puts a new instance into the slot; `Fresh` asks
that its generation is none that an earlier instance of the slot had.
-/

namespace Win98Modern.Supervisor

open Function List Option

/-- A `chan[]` entry of a domain. -/
structure ChanMap where
  mapped : Bool
  peer : Nat
  deriving DecidableEq, Repr

/-- The fields of `shz_channel_hdr_t` that an authorization reads. -/
structure ChannelHdr where
  channelId : BitVec 32
  generation : BitVec 32
  deriving DecidableEq, Repr

/-- The locals of one call of `chan_auth` before its query. -/
structure AuthCall where
  live : BitVec 32
  channelId : BitVec 32
  ever : Bool
  deriving DecidableEq, Repr

/-- `chan` and `attest_ever` of `subsys64.c`, and its calls of `chan_auth` by thread. -/
structure Subsys64 where
  chan : Option (Fin SHZ_MAX_CHANNELS)
  attestEver : Bool
  calls : Nat → Option AuthCall

/-- The memory of a kernel that has just bound its channel. -/
def Subsys64.boot (chan : Option (Fin SHZ_MAX_CHANNELS)) : Subsys64 := ⟨chan, false, fun _ => none⟩

/-- `domain_t`, with the memory of its subsystem. -/
structure Domain where
  kind : DomKind
  state : DomState
  generation : BitVec 32
  chan : Fin SHZ_MAX_CHANNELS → ChanMap
  sub : Subsys64

/-- The registers of the caller that the Supervisor reads from the VMCS. -/
structure Vmcs where
  ssAr : BitVec 64
  rflags : BitVec 64
  cr0 : BitVec 64
  deriving DecidableEq, Repr

/-- The system.  `born` lists the generations of a slot's earlier instances. -/
structure System where
  dom : Fin SHZ_MAX_DOMAINS → Domain
  record : Fin SHZ_MAX_CHANNELS → ChanAttestRec
  hdr : Fin SHZ_MAX_CHANNELS → ChannelHdr
  born : Fin SHZ_MAX_DOMAINS → List (BitVec 32)

inductive Event
  | attest (d : Fin SHZ_MAX_DOMAINS) (v : Vmcs) (c gen bits : BitVec 64)
  | attested (d : Fin SHZ_MAX_DOMAINS) (c : BitVec 64)
  | setGeneration (c : Fin SHZ_MAX_CHANNELS) (gen : BitVec 32)
  | wait (d : Fin SHZ_MAX_DOMAINS)
  | wake (d : Fin SHZ_MAX_DOMAINS)
  | exit (d : Fin SHZ_MAX_DOMAINS)
  | fail (d : Fin SHZ_MAX_DOMAINS)
  | restart (d : Fin SHZ_MAX_DOMAINS) (kind : DomKind) (generation : BitVec 32)
      (chan : Fin SHZ_MAX_CHANNELS → ChanMap) (bound : Option (Fin SHZ_MAX_CHANNELS))
  | authBegin (d : Fin SHZ_MAX_DOMAINS) (thread : Nat)
  | authEnd (d : Fin SHZ_MAX_DOMAINS) (thread : Nat)

/-- The arguments of a Win98 domain are 32 bits wide. -/
def m32 (kind : DomKind) : BitVec 64 := if kind = .win98 then 0xffffffff else BitVec.allOnes 64

/-- `c < SHZ_MAX_CHANNELS && d->chan[c].mapped`. -/
def mappedChannel (d : Domain) (c : BitVec 64) : Option (Fin SHZ_MAX_CHANNELS) :=
  if h : c.toNat < SHZ_MAX_CHANNELS then
    if (d.chan ⟨c.toNat, h⟩).mapped then some ⟨c.toNat, h⟩ else none
  else none

/-- `caller_ok`: the Win98 domain in protected mode, at privilege level 0 and not in V86 mode. -/
def callerOk (d : Domain) (v : Vmcs) : Bool :=
  d.kind = .win98 && v.cr0 &&& 1 ≠ 0 && (v.ssAr >>> 5) &&& 3 = 0 && v.rflags &&& (1 <<< 17) = 0

/-- `peer_ok`: the peer of the channel is Kernel64. -/
def peerOk (s : System) (peer : Nat) : Bool :=
  if h : peer < SHZ_MAX_DOMAINS then (s.dom ⟨peer, h⟩).kind = .kernel64 else false

/-- `chan_attest_set`, its arguments masked as `hcall_vmcall` does. -/
def chanAttestSet (s : System) (d : Fin SHZ_MAX_DOMAINS) (v : Vmcs) (c gen bits : BitVec 64) :
    HcStatus × BitVec 64 × System :=
  match mappedChannel (s.dom d) (c &&& m32 (s.dom d).kind) with
  | none => (.noent, 0, s)
  | some i =>
    let r := chanAttestDecide (s.record i) true (callerOk (s.dom d) v)
      (peerOk s ((s.dom d).chan i).peer) (gen &&& m32 (s.dom d).kind) (s.hdr i).generation
      (bits &&& m32 (s.dom d).kind) d (s.dom d).generation
    (r.1, r.2.1, { s with record := update s.record i r.2.2 })

/-- The recorded attester still runs, as `chan_attest_get` finds it in the domain table. -/
def attesterAlive (s : System) (r : ChanAttestRec) : Bool :=
  if h : r.generation ≠ 0 ∧ r.attester < SHZ_MAX_DOMAINS then
    chanAttesterAlive r true (s.dom ⟨r.attester, h.2⟩).generation (s.dom ⟨r.attester, h.2⟩).state
  else false

/-- `chan_attest_get`, its argument masked as `hcall_vmcall` does. -/
def chanAttestGet (s : System) (d : Fin SHZ_MAX_DOMAINS) (c : BitVec 64) :
    HcStatus × BitVec 64 × BitVec 64 :=
  match mappedChannel (s.dom d) (c &&& m32 (s.dom d).kind) with
  | none => (.noent, 0, 0)
  | some i => chanAttestLookup (s.record i) true (attesterAlive s (s.record i))

def System.setDom (s : System) (d : Fin SHZ_MAX_DOMAINS) (n : Domain) : System :=
  { s with dom := update s.dom d n }

def System.setState (s : System) (d : Fin SHZ_MAX_DOMAINS) (state : DomState) : System :=
  s.setDom d { s.dom d with state := state }

def System.setSub (s : System) (d : Fin SHZ_MAX_DOMAINS) (sub : Subsys64) : System :=
  s.setDom d { s.dom d with sub := sub }

/-- The first reads of `chan_auth`: the latch, and the generation and the index in the header. -/
def chanAuthBegin (s : System) (d : Fin SHZ_MAX_DOMAINS) (thread : Nat) : System :=
  match (s.dom d).sub.chan with
  | none => s
  | some c => s.setSub d { (s.dom d).sub with
      calls := update (s.dom d).sub.calls thread
        (some ⟨(s.hdr c).generation, (s.hdr c).channelId, (s.dom d).sub.attestEver⟩) }

/-- The query of `chan_auth` and its evaluation: the answer and the latch of the call. -/
def chanAuth (s : System) (d : Fin SHZ_MAX_DOMAINS) (call : AuthCall) : ChanAuth × Bool :=
  let q := chanAttestGet s d (call.channelId.setWidth 64)
  chanAuthState q.1 q.2.1 q.2.2 call.live SHZ_CHAN_ATTEST_W64_DERIVED_OWNER call.ever

/-- The rest of `chan_auth`: the latch is stored when the call has it. -/
def chanAuthEnd (s : System) (d : Fin SHZ_MAX_DOMAINS) (thread : Nat) : System :=
  match (s.dom d).sub.calls thread with
  | none => s
  | some call => s.setSub d { (s.dom d).sub with
      attestEver := (s.dom d).sub.attestEver || (chanAuth s d call).2
      calls := update (s.dom d).sub.calls thread none }

def step (s : System) : Event → System
  | .attest d v c gen bits => (chanAttestSet s d v c gen bits).2.2
  | .attested _ _ => s
  | .setGeneration c gen =>
    { s with hdr := update s.hdr c { s.hdr c with generation := gen } }
  | .wait d => if (s.dom d).state = .runnable then s.setState d .waiting else s
  | .wake d => if (s.dom d).state = .waiting then s.setState d .runnable else s
  | .exit d => s.setState d .exited
  | .fail d => s.setState d .failed
  | .restart d kind generation chan bound =>
    { s with
      dom := update s.dom d ⟨kind, .runnable, generation, chan, .boot bound⟩
      born := update s.born d ((s.dom d).generation :: s.born d) }
  | .authBegin d thread => chanAuthBegin s d thread
  | .authEnd d thread => chanAuthEnd s d thread

structure Boot (s : System) : Prop where
  record : ∀ c, s.record c = .zero
  channelId : ∀ c : Fin SHZ_MAX_CHANNELS, (s.hdr c).channelId = c
  born : ∀ d, s.born d = []
  sub : ∀ d, (s.dom d).sub = .boot (s.dom d).sub.chan

/-- A restart gives the slot a generation that it never had. -/
def Fresh (s : System) : Event → Prop
  | .restart d _ generation _ _ => generation ≠ (s.dom d).generation ∧ generation ∉ s.born d
  | _ => True

/-- The slot holds the instance that it held in `s`. -/
def SameInstance (s s' : System) (d : Fin SHZ_MAX_DOMAINS) : Prop :=
  (s'.born d).length = (s.born d).length

/-! ### The laws -/

/-- The record of channel `c` was supplied in the run: a caller at ring 0 of protected mode in the
Win98 domain, the peer of its channel Kernel64, was granted these bits on the header's generation. -/
def Supplied (s₀ : System) (as : List Event) (c : Fin SHZ_MAX_CHANNELS) (r : ChanAttestRec)
    (maker : Fin SHZ_MAX_DOMAINS) (then_ : System) : Prop :=
  ∃ xs ys v arg gen bits, as = xs ++ .attest maker v arg gen bits :: ys ∧ then_ = xs.foldl step s₀ ∧
    mappedChannel (then_.dom maker) (arg &&& m32 .win98) = some c ∧
    callerOk (then_.dom maker) v = true ∧ peerOk then_ ((then_.dom maker).chan c).peer = true ∧
    gen &&& m32 .win98 = (then_.hdr c).generation.setWidth 64 ∧
    (chanAttestSet then_ maker v arg gen bits).1 = .ok ∧
    r = ⟨bits &&& m32 .win98, (then_.hdr c).generation, maker, (then_.dom maker).generation⟩

/-- An authorization that answers `ATTESTED` was asked on the recorded generation. -/
def OnAttestedGeneration (s : System) : Event → Prop
  | .authEnd d thread => ∀ call ∈ (s.dom d).sub.calls thread, ∀ c ∈ (s.dom d).sub.chan,
      (chanAuth s d call).1 = .attested →
        call.live ≠ 0 ∧ call.live = (s.record c).generation ∧ attesterAlive s (s.record c) = true
  | _ => True

/-- An authorization on a channel that was attested is `ATTESTED` or `REVOKED`. -/
def FailsClosed (s : System) : Event → Prop
  | .authEnd d thread => ∀ call ∈ (s.dom d).sub.calls thread, ∀ c ∈ (s.dom d).sub.chan,
      (s.record c).generation ≠ 0 → (chanAuth s d call).1 ≠ .legacy
  | _ => True

/-- The authorization began with the latch set, or it is asked by a domain that maps the channel,
on the recorded generation, while the recorded attester still runs. -/
def LatchedOrLive (s : System) : Event → Prop
  | .authEnd d thread => ∀ call ∈ (s.dom d).sub.calls thread, ∀ c ∈ (s.dom d).sub.chan,
      (s.record c).generation ≠ 0 → call.ever = true ∨
        ((s.dom d).chan c).mapped = true ∧ attesterAlive s (s.record c) = true ∧
          call.live = (s.record c).generation
  | _ => True

/-! ### What one step can do -/

section Steps

variable {s : System} {e : Event} {d : Fin SHZ_MAX_DOMAINS} {c : Fin SHZ_MAX_CHANNELS}

theorem step_record_same (h : ∀ d v arg gen bits, e ≠ .attest d v arg gen bits) :
    (step s e).record = s.record := by
  cases e with
  | attest d v arg gen bits => exact absurd rfl (h d v arg gen bits)
  | attested d arg => rfl
  | setGeneration c gen => rfl
  | wait d => simp only [step]; split_ifs <;> rfl
  | wake d => simp only [step]; split_ifs <;> rfl
  | exit d => rfl
  | fail d => rfl
  | restart d kind generation chan bound => rfl
  | authBegin d thread => simp only [step, chanAuthBegin]; split <;> rfl
  | authEnd d thread => simp only [step, chanAuthEnd]; split <;> rfl

/-- An attestation changes the record of the channel it names, and nothing else. -/
theorem chanAttestSet_cases (v : Vmcs) (arg gen bits : BitVec 64) :
    (chanAttestSet s d v arg gen bits).2.2 = s ∧ (chanAttestSet s d v arg gen bits).1 = .noent ∨
      ∃ i, mappedChannel (s.dom d) (arg &&& m32 (s.dom d).kind) = some i ∧
        chanAttestSet s d v arg gen bits =
          let r := chanAttestDecide (s.record i) true (callerOk (s.dom d) v)
            (peerOk s ((s.dom d).chan i).peer) (gen &&& m32 (s.dom d).kind) (s.hdr i).generation
            (bits &&& m32 (s.dom d).kind) d (s.dom d).generation
          (r.1, r.2.1, { s with record := update s.record i r.2.2 }) := by
  unfold chanAttestSet
  cases hm : mappedChannel (s.dom d) (arg &&& m32 (s.dom d).kind) with
  | none => exact .inl ⟨rfl, rfl⟩
  | some i => exact .inr ⟨i, rfl, rfl⟩

theorem kind_of_callerOk {n : Domain} {v : Vmcs} (h : callerOk n v = true) : n.kind = .win98 := by
  unfold callerOk at h
  grind

/-- **A record changes by an accepted attestation only.** -/
theorem step_record (s : System) (e : Event) (c : Fin SHZ_MAX_CHANNELS) :
    (step s e).record c = s.record c ∨ ∃ d v arg gen bits, e = .attest d v arg gen bits ∧
      mappedChannel (s.dom d) (arg &&& m32 .win98) = some c ∧ callerOk (s.dom d) v = true ∧
      peerOk s ((s.dom d).chan c).peer = true ∧ Known (bits &&& m32 .win98) ∧
      gen &&& m32 .win98 = (s.hdr c).generation.setWidth 64 ∧
      (s.record c).generation < (s.hdr c).generation ∧ (chanAttestSet s d v arg gen bits).1 = .ok ∧
      (step s e).record c =
        ⟨bits &&& m32 .win98, (s.hdr c).generation, d, (s.dom d).generation⟩ := by
  by_cases hatt : ∃ d v arg gen bits, e = .attest d v arg gen bits
  · obtain ⟨d, v, arg, gen, bits, rfl⟩ := hatt
    rcases chanAttestSet_cases (s := s) (d := d) v arg gen bits with ⟨h, _⟩ | ⟨i, hi, h⟩
    · exact .inl (by rw [step, h])
    · by_cases hci : c = i
      · subst hci
        have hrec : (step s (.attest d v arg gen bits)).record c = (chanAttestDecide (s.record c) true
            (callerOk (s.dom d) v) (peerOk s ((s.dom d).chan c).peer) (gen &&& m32 (s.dom d).kind)
            (s.hdr c).generation (bits &&& m32 (s.dom d).kind) d (s.dom d).generation).2.2 := by
          rw [step, h]
          exact update_self ..
        rcases chanAttestDecide_cases (s.record c) true (callerOk (s.dom d) v)
            (peerOk s ((s.dom d).chan c).peer) (gen &&& m32 (s.dom d).kind) (s.hdr c).generation
            (bits &&& m32 (s.dom d).kind) d (s.dom d).generation with
          hsame | ⟨hcaller, hpeer, hknown, hgen, hlt, hnew⟩
        · exact .inl (hrec.trans hsame)
        · rw [kind_of_callerOk hcaller] at hi hknown hgen hnew hrec
          refine .inr ⟨d, v, arg, gen, bits, rfl, hi, hcaller, hpeer, hknown, hgen, hlt, ?_, ?_⟩
          · rw [h, kind_of_callerOk hcaller, hnew]
          · rw [hrec, hnew]
      · refine .inl ?_
        rw [step, h]
        exact update_of_ne hci ..
  · refine .inl (congrFun (step_record_same ?_) c)
    rintro d v arg gen bits rfl
    exact hatt ⟨d, v, arg, gen, bits, rfl⟩

theorem step_later (s : System) (e : Event) (c : Fin SHZ_MAX_CHANNELS) :
    Later (s.record c) ((step s e).record c) := by
  rcases step_record s e c with h | ⟨d, v, arg, gen, bits, _, _, _, _, _, _, hlt, _, h⟩
  · rw [h]
    exact Later.refl _
  · rw [h]
    exact ⟨BitVec.le_of_lt hlt, fun he => absurd he (BitVec.ne_of_lt hlt)⟩

theorem step_channelId (s : System) (e : Event) (c : Fin SHZ_MAX_CHANNELS) :
    ((step s e).hdr c).channelId = (s.hdr c).channelId := by
  cases e with
  | attest d v arg gen bits =>
    rcases chanAttestSet_cases (s := s) (d := d) v arg gen bits with ⟨h, _⟩ | ⟨i, _, h⟩ <;>
      rw [step, h]
  | attested d arg => rfl
  | setGeneration i gen =>
    by_cases hci : c = i
    · subst hci
      simp [step]
    · simp [step, update_of_ne hci]
  | wait d => simp only [step]; split_ifs <;> rfl
  | wake d => simp only [step]; split_ifs <;> rfl
  | exit d => rfl
  | fail d => rfl
  | restart d kind generation chan bound => rfl
  | authBegin d thread => simp only [step, chanAuthBegin]; split <;> rfl
  | authEnd d thread => simp only [step, chanAuthEnd]; split <;> rfl

/-- What a step leaves of the instance in a slot: its generation, the channel it is bound to, and
each of its calls, or the reads of a header by a new one. -/
structure Kept (s s' : System) (d : Fin SHZ_MAX_DOMAINS) : Prop where
  generation : (s'.dom d).generation = (s.dom d).generation
  born : s'.born d = s.born d
  chan : (s'.dom d).sub.chan = (s.dom d).sub.chan
  calls : ∀ thread, ∀ call ∈ (s'.dom d).sub.calls thread, call ∈ (s.dom d).sub.calls thread ∨
    ∃ c ∈ (s.dom d).sub.chan, call.channelId = (s.hdr c).channelId

theorem Kept.refl (s : System) (d : Fin SHZ_MAX_DOMAINS) : Kept s s d :=
  ⟨rfl, rfl, rfl, fun _ _ h => .inl h⟩

theorem kept_of_dom {s' : System} (hdom : s'.dom = s.dom) (hborn : s'.born = s.born) : Kept s s' d := by
  refine ⟨by rw [hdom], by rw [hborn], by rw [hdom], ?_⟩
  rw [hdom]
  exact fun _ _ h => .inl h

theorem kept_setState (i : Fin SHZ_MAX_DOMAINS) (state : DomState) : Kept s (s.setState i state) d := by
  by_cases hd : d = i
  · subst hd
    have : (s.setState d state).dom d = { s.dom d with state := state } := update_self ..
    exact ⟨by rw [this], rfl, by rw [this], fun _ _ h => .inl (by rwa [this] at h)⟩
  · have : (s.setState i state).dom d = s.dom d := update_of_ne hd ..
    exact ⟨by rw [this], rfl, by rw [this], fun _ _ h => .inl (this ▸ h)⟩

theorem kept_setSub (i : Fin SHZ_MAX_DOMAINS) (sub : Subsys64) (hchan : sub.chan = (s.dom i).sub.chan)
    (hcalls : ∀ thread, ∀ call ∈ sub.calls thread, call ∈ (s.dom i).sub.calls thread ∨
      ∃ c ∈ (s.dom i).sub.chan, call.channelId = (s.hdr c).channelId) : Kept s (s.setSub i sub) d := by
  by_cases hd : d = i
  · subst hd
    have : (s.setSub d sub).dom d = { s.dom d with sub := sub } := update_self ..
    exact ⟨by rw [this], rfl, by rw [this]; exact hchan, by rw [this]; exact hcalls⟩
  · have : (s.setSub i sub).dom d = s.dom d := update_of_ne hd ..
    exact ⟨by rw [this], rfl, by rw [this], fun _ _ h => .inl (this ▸ h)⟩

theorem step_dom (s : System) (e : Event) (d : Fin SHZ_MAX_DOMAINS) :
    Kept s (step s e) d ∨ ∃ kind generation chan bound, e = .restart d kind generation chan bound ∧
      (step s e).dom d = ⟨kind, .runnable, generation, chan, .boot bound⟩ ∧
      (step s e).born d = (s.dom d).generation :: s.born d := by
  cases e with
  | attest i v arg gen bits =>
    left
    rcases chanAttestSet_cases (s := s) (d := i) v arg gen bits with ⟨h, _⟩ | ⟨j, _, h⟩ <;>
      exact kept_of_dom (by rw [step, h]) (by rw [step, h])
  | attested i arg => exact .inl (Kept.refl s d)
  | setGeneration c gen => exact .inl (kept_of_dom rfl rfl)
  | wait i =>
    left
    simp only [step]
    split_ifs
    · exact kept_setState i .waiting
    · exact Kept.refl s d
  | wake i =>
    left
    simp only [step]
    split_ifs
    · exact kept_setState i .runnable
    · exact Kept.refl s d
  | exit i => exact .inl (kept_setState i .exited)
  | fail i => exact .inl (kept_setState i .failed)
  | restart i kind generation chan bound =>
    by_cases hd : d = i
    · subst hd
      exact .inr ⟨kind, generation, chan, bound, rfl, update_self .., update_self ..⟩
    · left
      have hdom : (step s (.restart i kind generation chan bound)).dom d = s.dom d :=
        update_of_ne hd ..
      exact ⟨by rw [hdom], update_of_ne hd .., by rw [hdom], fun _ _ h => .inl (hdom ▸ h)⟩
  | authBegin i thread =>
    left
    simp only [step, chanAuthBegin]
    cases hc : (s.dom i).sub.chan with
    | none => exact Kept.refl s d
    | some c =>
      refine kept_setSub i _ hc.symm fun t call hcall => ?_
      simp only [update_apply] at hcall
      split_ifs at hcall
      · obtain rfl := mem_some.1 hcall
        exact .inr ⟨c, hc, rfl⟩
      · exact .inl hcall
  | authEnd i thread =>
    left
    simp only [step, chanAuthEnd]
    cases hc : (s.dom i).sub.calls thread with
    | none => exact Kept.refl s d
    | some call =>
      refine kept_setSub i _ rfl fun t call hcall => ?_
      simp only [update_apply] at hcall
      split_ifs at hcall
      · simp at hcall
      · exact .inl hcall

end Steps

/-! ### The invariant -/

/-- Each call will query the channel its domain is bound to; the recorded bits are known ones; no
domain has a generation that its slot had before. -/
structure Inv (s : System) : Prop where
  channelId : ∀ c : Fin SHZ_MAX_CHANNELS, (s.hdr c).channelId = c
  calls : ∀ d thread, ∀ call ∈ (s.dom d).sub.calls thread,
    ∃ c ∈ (s.dom d).sub.chan, call.channelId = c
  known : ∀ c, (s.record c).generation ≠ 0 → Known (s.record c).bits
  current : ∀ d, (s.dom d).generation ∉ s.born d

variable {s s₀ : System} {d : Fin SHZ_MAX_DOMAINS} {arg : BitVec 64} {as : List Event}

theorem Boot.inv (h : Boot s) : Inv s where
  channelId := h.channelId
  calls d thread call hcall := by
    rw [h.sub d] at hcall
    exact absurd hcall (not_mem_none call)
  known c hc := absurd (by rw [h.record c]; rfl) hc
  current d := by
    rw [h.born d]
    exact not_mem_nil

theorem step_inv {e : Event} (h : Inv s) (hf : Fresh s e) : Inv (step s e) where
  channelId c := by rw [step_channelId, h.channelId]
  calls d thread call hcall := by
    rcases step_dom s e d with hk | ⟨kind, generation, chan, bound, rfl, hdom, _⟩
    · rw [hk.chan]
      rcases hk.calls thread call hcall with hold | ⟨c, hc, hid⟩
      · exact h.calls d thread call hold
      · exact ⟨c, hc, hid.trans (h.channelId c)⟩
    · rw [hdom] at hcall
      exact absurd hcall (not_mem_none call)
  known c := by
    rcases step_record s e c with hr | ⟨d, v, arg, gen, bits, _, _, _, _, hknown, _, _, _, hr⟩
    · rw [hr]
      exact h.known c
    · rw [hr]
      exact fun _ => hknown
  current d := by
    rcases step_dom s e d with hk | ⟨kind, generation, chan, bound, rfl, hdom, hborn⟩
    · rw [hk.generation, hk.born]
      exact h.current d
    · rw [hdom, hborn, mem_cons, not_or]
      exact hf

/-- The index in the header passes the mask and the bound of the hypercall. -/
theorem toNat_channelId (kind : DomKind) (c : Fin SHZ_MAX_CHANNELS) :
    (((c : BitVec 32).setWidth 64) &&& m32 kind).toNat = c := by
  revert c
  cases kind <;> decide

section Auth

variable {s : System} {d : Fin SHZ_MAX_DOMAINS} {call : AuthCall} {c : Fin SHZ_MAX_CHANNELS}

theorem chanAttestGet_channelId (hid : call.channelId = c) :
    chanAttestGet s d (call.channelId.setWidth 64) =
      chanAttestLookup (s.record c) ((s.dom d).chan c).mapped (attesterAlive s (s.record c)) := by
  have hnat := toNat_channelId (s.dom d).kind c
  have hm : mappedChannel (s.dom d) (call.channelId.setWidth 64 &&& m32 (s.dom d).kind) =
      if ((s.dom d).chan c).mapped then some c else none := by
    unfold mappedChannel
    rw [hid, dif_pos (by rw [hnat]; exact c.2)]
    simp only [hnat]
  unfold chanAttestGet
  rw [hm]
  cases ((s.dom d).chan c).mapped <;> rfl

/-- **The answer to an authorization**, by the record of the channel the domain is bound to. -/
theorem chanAuth_eq (h : Inv s) (hid : call.channelId = c) :
    (chanAuth s d call).1 =
      if ((s.dom d).chan c).mapped = true ∧ attesterAlive s (s.record c) = true ∧
          (s.record c).generation ≠ 0 ∧ call.live = (s.record c).generation then .attested
      else if call.ever then .revoked else .legacy := by
  unfold chanAuth
  rw [chanAttestGet_channelId hid]
  exact chanAuthState_lookup (h.known c)

theorem Inv.channelId_of_chan (h : Inv s) {thread : Nat} (hcall : call ∈ (s.dom d).sub.calls thread)
    (hc : c ∈ (s.dom d).sub.chan) : call.channelId = c := by
  obtain ⟨c', hc', hid⟩ := h.calls d thread call hcall
  rw [hid, mem_unique hc' hc]

theorem onAttestedGeneration (h : Inv s) (e : Event) : OnAttestedGeneration s e := by
  cases e with
  | authEnd d thread =>
    intro call hcall c hc hans
    rw [chanAuth_eq h (h.channelId_of_chan hcall hc)] at hans
    split_ifs at hans with hif
    exact ⟨hif.2.2.2 ▸ hif.2.2.1, hif.2.2.2, hif.2.1⟩
  | _ => trivial

theorem failsClosed_iff (h : Inv s) (e : Event) : FailsClosed s e ↔ LatchedOrLive s e := by
  cases e with
  | authEnd d thread =>
    refine forall₄_congr fun call hcall c hc => imp_congr_right fun hgen => ?_
    rw [chanAuth_eq h (h.channelId_of_chan hcall hc)]
    by_cases hlive : ((s.dom d).chan c).mapped = true ∧ attesterAlive s (s.record c) = true ∧
        call.live = (s.record c).generation
    · rw [if_pos ⟨hlive.1, hlive.2.1, hgen, hlive.2.2⟩]
      exact ⟨fun _ => .inr hlive, fun _ => by decide⟩
    · rw [if_neg fun hp => hlive ⟨hp.1, hp.2.1, hp.2.2.2⟩]
      cases call.ever <;> simp [hlive]
  | _ => exact Iff.rfl

end Auth

/-! ### Over a run -/

section Run

variable {s₀ : System} {as : List Event}

theorem inv_along (boot : Boot s₀) (fresh : Steps step Fresh s₀ as) : Along step Inv Fresh s₀ as :=
  along_of_inv as (fun _ h => h) (fun _ _ h _ hf => ⟨hf, step_inv h hf⟩) boot.inv fresh

theorem run_later (s : System) (as : List Event) (c : Fin SHZ_MAX_CHANNELS) :
    Later (s.record c) ((as.foldl step s).record c) := by
  induction as generalizing s with
  | nil => exact Later.refl _
  | cons e as ih => exact (step_later s e c).trans (ih (step s e))

/-- A slot has kept its instance, or the generation of that instance is a former one. -/
def Succeeds (s s' : System) (d : Fin SHZ_MAX_DOMAINS) : Prop :=
  (s'.dom d).generation = (s.dom d).generation ∧ s'.born d = s.born d ∨
    (s.dom d).generation ∈ s'.born d

variable {s s' : System} {d : Fin SHZ_MAX_DOMAINS}

theorem step_succeeds (e : Event) (h : Succeeds s s' d) : Succeeds s (step s' e) d := by
  rcases step_dom s' e d with hk | ⟨kind, generation, chan, bound, _, _, hborn⟩
  · unfold Succeeds
    rwa [hk.generation, hk.born]
  · right
    rw [hborn]
    rcases h with ⟨hgen, _⟩ | hmem
    · exact mem_cons.2 (.inl hgen.symm)
    · exact mem_cons_of_mem _ hmem

/-- In a state with the invariant, the generation of an instance identifies it. -/
theorem Succeeds.sameInstance (h : Succeeds s s' d) (hinv : Inv s')
    (hgen : (s'.dom d).generation = (s.dom d).generation) : SameInstance s s' d := by
  rcases h with ⟨_, hborn⟩ | hmem
  · exact congrArg List.length hborn
  · exact absurd (hgen ▸ hmem) (hinv.current d)

/-- **Every record was supplied.**  The last attestation that changed it is in the run. -/
theorem run_supplied (boot : Boot s₀) (as : List Event) (c : Fin SHZ_MAX_CHANNELS)
    (hc : ((as.foldl step s₀).record c).generation ≠ 0) :
    ∃ maker then_, Supplied s₀ as c ((as.foldl step s₀).record c) maker then_ ∧
      Succeeds then_ (as.foldl step s₀) maker := by
  induction as using List.reverseRecOn with
  | nil => exact absurd (by rw [foldl_nil, boot.record c]; rfl) hc
  | append_singleton as e ih =>
    rw [foldl_append, foldl_cons, foldl_nil] at hc ⊢
    rcases step_record (as.foldl step s₀) e c with
      hsame | ⟨d, v, arg, gen, bits, rfl, hmap, hcaller, hpeer, _, hgen, _, hok, hnew⟩
    · rw [hsame] at hc ⊢
      obtain ⟨maker, then_, ⟨xs, ys, v, arg, gen, bits, rfl, hrest⟩, hsucc⟩ := ih hc
      refine ⟨maker, then_, ⟨xs, ys ++ [e], v, arg, gen, bits, ?_, hrest⟩, step_succeeds e hsucc⟩
      rw [append_assoc, cons_append]
    · exact ⟨d, as.foldl step s₀, ⟨as, [], v, arg, gen, bits, rfl, rfl, hmap, hcaller, hpeer, hgen, hok, hnew⟩,
        step_succeeds _ (.inl ⟨rfl, rfl⟩)⟩

end Run

theorem granted_generation {v : Vmcs} {gen bits : BitVec 64} {c : Fin SHZ_MAX_CHANNELS}
    (hc : mappedChannel (s.dom d) (arg &&& m32 (s.dom d).kind) = some c)
    (hok : (chanAttestSet s d v arg gen bits).1 = .ok) :
    ((step s (.attest d v arg gen bits)).record c).generation ≠ 0 := by
  rcases chanAttestSet_cases (s := s) (d := d) v arg gen bits with ⟨_, h⟩ | ⟨i, hi, h⟩
  · rw [h] at hok
    exact absurd hok (by decide)
  · obtain rfl := some.inj (hc.symm.trans hi)
    rw [h] at hok
    obtain ⟨hne, hrec⟩ := chanAttestDecide_ok hok
    rw [step, h]
    show (update s.record c _ c).generation ≠ 0
    rw [update_self, hrec]
    exact hne

/-- Some attestation of channel `c` was granted in the run. -/
def Attested (s₀ : System) (as : List Event) (c : Fin SHZ_MAX_CHANNELS) : Prop :=
  ∃ xs d v arg gen bits ys, as = xs ++ .attest d v arg gen bits :: ys ∧
    mappedChannel ((xs.foldl step s₀).dom d) (arg &&& m32 ((xs.foldl step s₀).dom d).kind) = some c ∧
    (chanAttestSet (xs.foldl step s₀) d v arg gen bits).1 = .ok

theorem attested_iff (boot : Boot s₀) (as : List Event) (c : Fin SHZ_MAX_CHANNELS) :
    Attested s₀ as c ↔ ((as.foldl step s₀).record c).generation ≠ 0 := by
  constructor
  · rintro ⟨xs, d, v, arg, gen, bits, ys, rfl, hc, hok⟩
    have hthen := granted_generation hc hok
    have hle := (run_later (step (xs.foldl step s₀) (.attest d v arg gen bits)) ys c).1
    rw [foldl_append, foldl_cons]
    intro hzero
    rw [hzero] at hle
    exact hthen (BitVec.le_zero_iff.1 hle)
  · intro hc
    obtain ⟨maker, _, ⟨xs, ys, v, arg, gen, bits, rfl, rfl, hmap, hcaller, _, _, hok, _⟩, _⟩ :=
      run_supplied boot as c hc
    exact ⟨xs, maker, v, arg, gen, bits, ys, rfl, by rwa [kind_of_callerOk hcaller], hok⟩

theorem chanAttestGet_ok (hok : (chanAttestGet s d arg).1 = .ok) :
    ∃ c, mappedChannel (s.dom d) (arg &&& m32 (s.dom d).kind) = some c ∧
      (s.record c).generation ≠ 0 ∧ attesterAlive s (s.record c) = true ∧
      chanAttestGet s d arg = (.ok, (s.record c).bits, (s.record c).generation.setWidth 64) := by
  unfold chanAttestGet at hok ⊢
  cases hm : mappedChannel (s.dom d) (arg &&& m32 (s.dom d).kind) with
  | none =>
    rw [hm] at hok
    cases hok
  | some c =>
    rw [hm] at hok
    obtain ⟨_, hgen, halive, hres⟩ := chanAttestLookup_ok hok
    exact ⟨c, rfl, hgen, halive, hres⟩

theorem attesterAlive_maker {r : ChanAttestRec} {maker : Fin SHZ_MAX_DOMAINS}
    (hr : r.attester = maker) (h : attesterAlive s r = true) :
    (s.dom maker).generation = r.attesterGen ∧ (s.dom maker).state ≠ .unused ∧
      (s.dom maker).state ≠ .exited ∧ (s.dom maker).state ≠ .failed := by
  unfold attesterAlive at h
  split_ifs at h with hlt
  unfold chanAttesterAlive at h
  grind

/-- What a domain is told is what the instance that attested the channel supplied, and that instance
runs in its slot. -/
def ReportedByLive (s₀ : System) (as : List Event) : Prop :=
  ∀ d arg, (chanAttestGet (as.foldl step s₀) d arg).1 = .ok →
    ∃ c maker then_, Supplied s₀ as c ((as.foldl step s₀).record c) maker then_ ∧
      chanAttestGet (as.foldl step s₀) d arg =
        (.ok, ((as.foldl step s₀).record c).bits,
          ((as.foldl step s₀).record c).generation.setWidth 64) ∧
      SameInstance then_ (as.foldl step s₀) maker ∧
      ((as.foldl step s₀).dom maker).state ≠ .unused ∧
      ((as.foldl step s₀).dom maker).state ≠ .exited ∧ ((as.foldl step s₀).dom maker).state ≠ .failed

theorem reportedByLive (boot : Boot s₀) (fresh : Steps step Fresh s₀ as) :
    ReportedByLive s₀ as := by
  intro d arg hok
  obtain ⟨c, _, hgen, halive, hres⟩ := chanAttestGet_ok hok
  obtain ⟨maker, then_, hsup, hsucc⟩ := run_supplied boot as c hgen
  obtain ⟨xs, ys, v, arg', gen, bits, _, _, _, _, _, _, _, hrec⟩ := id hsup
  obtain ⟨hcur, hstate⟩ := attesterAlive_maker (by rw [hrec]) halive
  have hinv : Inv (as.foldl step s₀) := (inv_along boot fresh).last
  refine ⟨c, maker, then_, hsup, hres, hsucc.sameInstance hinv ?_, hstate⟩
  rw [hcur, hrec]

/-- In a run from boot, a law of a step may be replaced by one that the invariant derives from it. -/
theorem steps_of_inv {P Q : System → Event → Prop} (boot : Boot s₀) (fresh : Steps step Fresh s₀ as)
    (hPQ : ∀ s e, Inv s → P s e → Q s e) (h : Steps step P s₀ as) : Steps step Q s₀ as :=
  along_of_inv (A := fun _ => True ∧ True) (G := fun s e => Fresh s e ∧ P s e) as (fun _ _ => trivial)
    (fun s e hi _ hg => ⟨hPQ s e hi hg.2, step_inv hi hg.1⟩) boot.inv (fresh.and as h)

/-- **Channel attestation over a run.**  Records only move to later generations; each was supplied
by an accepted caller, and is reported only while that instance runs; `ATTESTED` is answered on the
recorded generation only.  An authorization fails closed on each channel that was attested, exactly
when it began with the latch set or finds the attestation alive. -/
theorem channel_attestation (s₀ : System) (boot : Boot s₀) (as : List Event)
    (fresh : Steps step Fresh s₀ as) :
    (∀ xs ys c, as = xs ++ ys → Later ((xs.foldl step s₀).record c) ((as.foldl step s₀).record c)) ∧
    (∀ c, Attested s₀ as c ↔ ((as.foldl step s₀).record c).generation ≠ 0) ∧
    (∀ c, Attested s₀ as c → ∃ maker then_, Supplied s₀ as c ((as.foldl step s₀).record c) maker then_) ∧
    ReportedByLive s₀ as ∧
    Steps step OnAttestedGeneration s₀ as ∧
    (Steps step FailsClosed s₀ as ↔ Steps step LatchedOrLive s₀ as) := by
  refine ⟨?_, attested_iff boot as, ?_, reportedByLive boot fresh, ?_, ?_, ?_⟩
  · rintro xs ys c rfl
    rw [foldl_append]
    exact run_later _ ys c
  · intro c hc
    obtain ⟨maker, then_, hsup, _⟩ := run_supplied boot as c ((attested_iff boot as c).1 hc)
    exact ⟨maker, then_, hsup⟩
  · exact steps_of_inv boot fresh (fun s e h _ => onAttestedGeneration h e) fresh
  · exact steps_of_inv boot fresh fun s e h => (failsClosed_iff h e).1
  · exact steps_of_inv boot fresh fun s e h => (failsClosed_iff h e).2

/-! ### Revocation before the first query -/

/-- Kernel64 in slot 4 and Win98 in slot 5 share channel 0, on which generation 1 is bound. -/
def sharedChannel : System where
  dom d :=
    { kind := if d = 4 then .kernel64 else if d = 5 then .win98 else .dos16
      state := if d = 4 ∨ d = 5 then .runnable else .unused
      generation := 1
      chan := fun c => ⟨c = 0 ∧ (d = 4 ∨ d = 5), if d = 4 then 5 else 4⟩
      sub := .boot (if d = 4 then some 0 else none) }
  record _ := .zero
  hdr c := ⟨c, 1⟩
  born _ := []

theorem sharedChannel_boot : Boot sharedChannel := ⟨fun _ => rfl, fun _ => rfl, fun _ => rfl, fun _ => rfl⟩

/-- The VxD attests generation 1 and its domain fails; then Kernel64 authorizes a request. -/
def failedBeforeQuery : List Event :=
  [.attest 5 ⟨0, 0, 1⟩ 0 1 1, .fail 5, .authBegin 4 0, .authEnd 4 0]

/-- **The latch misses an attestation that was revoked before the first query**: the channel was
attested, and the authorization falls back to `LEGACY`. -/
theorem falls_back_to_legacy : ¬ ∀ s₀, Boot s₀ → ∀ as, Steps step Fresh s₀ as →
    Steps step FailsClosed s₀ as := by
  intro h
  obtain ⟨_, _, _, _, _, _, _, hend, _⟩ := h sharedChannel sharedChannel_boot failedBeforeQuery
    ⟨trivial, trivial, trivial, trivial, trivial, trivial, trivial, trivial, trivial⟩
  exact hend ⟨1, 0, false⟩ rfl 0 rfl (by decide +kernel) (by decide +kernel)

/-- A run in which the domain is still alive at the first query and fails before the second. -/
theorem channel_attestation_sample :
    Steps step FailsClosed sharedChannel
      [.attest 5 ⟨0, 0, 1⟩ 0 1 1, .authBegin 4 0, .authEnd 4 0, .fail 5, .authBegin 4 0, .authEnd 4 0] := by
  refine (channel_attestation sharedChannel sharedChannel_boot _ ?_).2.2.2.2.2.2 ?_
  · exact ⟨trivial, trivial, trivial, trivial, trivial, trivial, trivial, trivial, trivial, trivial,
      trivial, trivial, trivial⟩
  · refine ⟨trivial, trivial, trivial, trivial, trivial, ?_, trivial, trivial, trivial, trivial, trivial,
      ?_, trivial⟩
    · rintro call hcall c hc -
      obtain rfl := mem_some.1 hc
      obtain rfl := mem_some.1 hcall
      exact .inr (by decide +kernel)
    · rintro call hcall c hc -
      obtain rfl := mem_some.1 hcall
      exact .inl (by decide +kernel)

end Win98Modern.Supervisor
