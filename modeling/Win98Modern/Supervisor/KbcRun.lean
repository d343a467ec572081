import Win98Modern.Supervisor.KbcLine
import Win98Modern.Lib.Runs

/-!
# The 8042 over runs

`step` is one access of the guest to a port, one call of a source, or one half of `dev_poll`: the
keyboard's, with the calls that its source makes meanwhile, or the pointer's.  The validations of
the sources are answered by the event.
-/

namespace Win98Modern.I8042

open List Option

/-- A call of an input source. -/
inductive Source
  | keyInput (context : Nat) (set2 : List Byte) (valid : Bool)
  | keyAttach (context : Nat) (valid : Bool)
  | keyDetach (context : Nat)
  | pointerInput (context : Nat) (x y : Int) (buttons : Byte) (valid : Bool)
  | pointerAttach (context : Nat) (valid : Bool)
  | pointerDetach (context : Nat)

def sourceCall (tsc : Nat) (s : Kbc) : Source → Kbc
  | .keyInput context set2 valid => (keyboardInput s context set2 valid).2
  | .keyAttach context valid => (keyboardAttach s context valid).2
  | .keyDetach context => (keyboardDetach s context).2
  | .pointerInput context x y buttons valid => (pointerInput s context x y buttons valid tsc).2
  | .pointerAttach context valid => (pointerAttach s context valid tsc).2
  | .pointerDetach context => (pointerDetach s context tsc).2

inductive Event
  | read (port : Port) (pointerOk keyboardOk : Bool) (tsc : Nat)
  | write (port : Port) (value : Byte) (pointerOk : Bool) (tsc : Nat)
  | source (call : Source) (tsc : Nat)
  | pollKeyboard (valid : Bool) (calls : List Source) (tsc : Nat)
  | pollPointer (valid : Bool) (calls : List Source) (flushValid : Bool) (now tsc : Nat)

/-- The state in which `dev_poll` flushes the keyboard: the source was polled if it is valid. -/
def polledKeyboard (s : Kbc) (valid : Bool) (calls : List Source) (tsc : Nat) : Kbc :=
  let v := keyboardValid s valid
  if v.1 then calls.foldl (sourceCall tsc) v.2 else v.2

/-- `keyboard_flush` from start to end. -/
def flushAll (s : Kbc) : Kbc := keyboardFlush s.keyboard.ring.count s

def step (hz : Nat) (s : Kbc) : Event → Kbc
  | .read port pointerOk keyboardOk tsc => (kbcRead s port pointerOk keyboardOk tsc).2
  | .write port value pointerOk tsc => nativeKbcWrite s port value pointerOk tsc
  | .source call tsc => sourceCall tsc s call
  | .pollKeyboard valid calls tsc => flushAll (polledKeyboard s valid calls tsc)
  | .pollPointer valid calls flushValid now tsc =>
    let v := pointerValid s valid tsc
    if v.1 then pointerFlush (calls.foldl (sourceCall tsc) v.2) flushValid hz now tsc else v.2

/-- The controller as `dev_native_win98_enable` leaves it. -/
def enabled (tsc : Nat) : Kbc where
  line := ⟨.ofList [], 0, [], []⟩
  keyboard := ⟨0, false, ⟨fun _ => [], 0, 0⟩, 0, 2, true, 0, 0x2b, []⟩
  pointer := Pointer.defaults ⟨0, false, 0, false, false, false, false, 0, 0, 0, 0, [], 0, 0, 0, 0, 0⟩ tsc
  config := 0x45
  cmd := 0
  cmdPending := false
  a20Gate := true
  keyDelivered := 0
  keyDropped := 0

/-! ### The functions that do not deliver keys -/

/-- The line is fed, and the ring of key sequences is left alone or cleared. -/
structure Serves (s s' : Kbc) : Prop where
  line : Feeds s.line s'.line
  accepted : s'.keyboard.accepted = s.keyboard.accepted
  ring : s'.keyboard.ring = s.keyboard.ring ∨ s'.keyboard.ring.count = 0

section Serves

variable {s s' s'' : Kbc}

theorem Serves.refl (s : Kbc) : Serves s s := ⟨.refl _, rfl, .inl rfl⟩

theorem Serves.trans (h : Serves s s') (h' : Serves s' s'') : Serves s s'' := by
  refine ⟨h.line.trans h'.line, h'.accepted.trans h.accepted, ?_⟩
  rcases h'.ring with hr | hr
  · rw [hr]
    exact h.ring
  · exact .inr hr

theorem serves_of_line (hl : Feeds s.line s'.line) (hk : s'.keyboard = s.keyboard) : Serves s s' :=
  ⟨hl, by rw [hk], .inl (by rw [hk])⟩

theorem serves_keyboardValid (s : Kbc) (valid : Bool) : Serves s (keyboardValid s valid).2 := by
  unfold keyboardValid
  split_ifs
  · exact .refl s
  · exact .refl s
  · exact ⟨feeds_purge _ _ _, rfl, .inr rfl⟩

theorem serves_keyboardAttach (s : Kbc) (context : Nat) (valid : Bool) :
    Serves s (keyboardAttach s context valid).2 := by
  unfold keyboardAttach
  split_ifs
  · exact .refl s
  · exact .refl s
  · exact .refl s
  · exact ⟨feeds_purge _ _ _, rfl, .inr rfl⟩

theorem serves_keyboardDetach (s : Kbc) (context : Nat) : Serves s (keyboardDetach s context).2 := by
  unfold keyboardDetach
  split_ifs
  · exact .refl s
  · exact ⟨feeds_purge _ _ _, rfl, .inr rfl⟩

theorem serves_pointerValid (s : Kbc) (valid : Bool) (tsc : Nat) :
    Serves s (pointerValid s valid tsc).2 := by
  unfold pointerValid
  split_ifs
  · exact .refl s
  · exact .refl s
  · exact serves_of_line (feeds_purge _ _ _) rfl

theorem serves_pointerAttach (s : Kbc) (context : Nat) (valid : Bool) (tsc : Nat) :
    Serves s (pointerAttach s context valid tsc).2 := by
  unfold pointerAttach
  split_ifs <;> exact serves_of_line (.refl _) rfl

theorem serves_pointerDetach (s : Kbc) (context : Nat) (tsc : Nat) :
    Serves s (pointerDetach s context tsc).2 := by
  unfold pointerDetach
  split_ifs
  · exact .refl s
  · exact serves_of_line (feeds_purge _ _ _) rfl

theorem Serves.ite {c : Prop} [Decidable c] {a b : Kbc} (ha : c → Serves s a) (hb : ¬ c → Serves s b) :
    Serves s (if c then a else b) := by
  by_cases hc : c
  · rw [if_pos hc]
    exact ha hc
  · rw [if_neg hc]
    exact hb hc

theorem Serves.ite_snd {c : Prop} [Decidable c] {a b : DriverStatus × Kbc} (ha : c → Serves s a.2)
    (hb : ¬ c → Serves s b.2) : Serves s (if c then a else b).2 := by
  rw [apply_ite Prod.snd]
  exact .ite ha hb

theorem serves_pointerReply (s : Kbc) (bytes : List Byte) (remember host : Bool)
    (hw : host = true → bytes.length = 3) : Serves s (pointerReply s bytes remember host).2 := by
  refine .ite_snd (fun _ => ?_) fun hroom => ?_
  · exact serves_of_line (feeds_drop _) rfl
  · exact serves_of_line (feeds_pointer _ _ _ hroom hw) rfl

theorem serves_pointerReply_guest (s : Kbc) (bytes : List Byte) (remember : Bool) :
    Serves s (pointerReply s bytes remember false).2 :=
  serves_pointerReply s bytes remember false nofun

theorem serves_setPointer (s : Kbc) (p : Pointer) : Serves s { s with pointer := p } :=
  serves_of_line (.refl _) rfl

theorem serves_pointerPacket (s : Kbc) (ack : Bool) (tsc : Nat) :
    Serves s (pointerPacket s ack tsc).2 := by
  have hreply (p : List Byte) (hp : p.length = 3) :
      Serves s (pointerReply s (if ack then 0xfa :: p else p) true !ack).2 := by
    refine serves_pointerReply s _ true _ fun hack => ?_
    rw [if_neg (by simpa using hack)]
    exact hp
  unfold pointerPacket
  extract_lets _ _ _ _ _ _ packet r
  have hr : Serves s r.2 := hreply packet rfl
  exact .ite_snd (fun _ => hr) fun _ => hr.trans (serves_setPointer _ _)

theorem serves_pointerFlush (s : Kbc) (valid : Bool) (hz now tsc : Nat) :
    Serves s (pointerFlush s valid hz now tsc) := by
  have hv := serves_pointerValid s valid tsc
  unfold pointerFlush
  extract_lets v p
  refine .ite (fun _ => hv) fun _ => .ite (fun _ => hv) fun _ => .ite (fun _ => hv) fun _ => ?_
  exact hv.trans (serves_pointerPacket _ _ _)

theorem serves_pointerInput (s : Kbc) (context : Nat) (x y : Int) (buttons : Byte) (valid : Bool)
    (tsc : Nat) : Serves s (pointerInput s context x y buttons valid tsc).2 := by
  have hv := serves_pointerValid s valid tsc
  unfold pointerInput
  extract_lets v p coarse divisor factor dx dy rx ry
  refine .ite_snd (fun _ => .refl s) fun _ => .ite_snd (fun _ => hv) fun _ =>
    .ite_snd (fun _ => hv) fun _ => .ite_snd (fun _ => hv) fun _ => ?_
  exact hv.trans (serves_setPointer _ _)

theorem serves_nativePointerCommand (s : Kbc) (value : Byte) (valid : Bool) (tsc : Nat) :
    Serves s (nativePointerCommand s value valid tsc) := by
  have hv := serves_pointerValid s valid tsc
  unfold nativePointerCommand
  extract_lets v t p accepted r q q'
  have hguest (bytes : List Byte) (remember : Bool) : Serves s (pointerReply t bytes remember false).2 :=
    hv.trans (serves_pointerReply_guest t bytes remember)
  refine .ite (fun _ => hv) fun _ => .ite (fun _ => hguest _ _) fun _ =>
    .ite (fun _ => hguest _ _) fun _ => .ite (fun _ => ?_) fun _ => .ite (fun _ => ?_) fun _ => ?_
  · refine .ite (fun _ => hguest _ _) fun _ => .ite (fun _ => hguest _ _) fun _ => ?_
    exact (hguest _ _).trans (serves_setPointer _ _)
  · exact hv.trans (serves_pointerPacket _ _ _)
  · cases pointerCommandReply p value with
    | none => exact hguest _ _
    | some data => exact .ite (fun _ => hguest _ _) fun _ => (hguest _ _).trans (serves_setPointer _ _)

theorem serves_reply (s : Kbc) (v : Byte) : Serves s (s.reply v) := serves_of_line (feeds_reply _ _) rfl

theorem serves_setKeyboard (s : Kbc) (k : Keyboard) (ha : k.accepted = s.keyboard.accepted)
    (hr : k.ring = s.keyboard.ring ∨ k.ring.count = 0) : Serves s { s with keyboard := k } :=
  ⟨.refl _, ha, hr⟩

theorem serves_nativeKeyboardCommand (s : Kbc) (value : Byte) :
    Serves s (nativeKeyboardCommand s value) := by
  unfold nativeKeyboardCommand
  extract_lets k t
  have ht : Serves s t := serves_setKeyboard _ _ rfl (.inl rfl)
  have hkept (k' : Keyboard) (v : Byte) (ha : k'.accepted = k.accepted)
      (hr : k'.ring = k.ring ∨ k'.ring.count = 0) : Serves s (Kbc.reply { s with keyboard := k' } v) :=
    (serves_setKeyboard _ _ ha hr).trans (serves_reply _ _)
  refine .ite (fun _ => ?_) fun _ => ?_
  · -- the argument of the pending command
    refine .ite (fun _ => .ite (fun _ => ?_) fun _ => .ite (fun _ => ?_) fun _ => ?_) fun _ =>
      .ite (fun _ => .ite (fun _ => ?_) fun _ => ?_) fun _ =>
      .ite (fun _ => .ite (fun _ => ?_) fun _ => ?_) fun _ => ht
    · exact (ht.trans (serves_reply _ _)).trans (serves_reply _ _)
    · exact hkept _ _ rfl (.inr rfl)
    · exact ht.trans (serves_reply _ _)
    · exact hkept _ _ rfl (.inl rfl)
    · exact ht.trans (serves_reply _ _)
    · exact hkept _ _ rfl (.inl rfl)
    · exact ht.trans (serves_reply _ _)
  · refine .ite (fun _ => ?_) fun _ => .ite (fun _ => ?_) fun _ => .ite (fun _ => ?_) fun _ =>
      .ite (fun _ => ?_) fun _ => .ite (fun _ => ?_) fun _ => .ite (fun _ => ?_) fun _ => ?_
    · exact (hkept { k with scanset := 2, scanning := true, leds := 0, typematic := 0x2b }.clear 0xfa rfl
        (.inr rfl)).trans (serves_reply _ _)
    · exact ((serves_reply _ _).trans (serves_reply _ _)).trans (serves_reply _ _)
    · exact serves_reply _ _
    · exact hkept _ _ rfl (.inl rfl)
    · exact hkept _ _ rfl (.inl rfl)
    · exact hkept _ _ rfl (.inr rfl)
    · exact serves_reply _ _

theorem serves_nativeKbcWrite (s : Kbc) (port : Port) (value : Byte) (valid : Bool) (tsc : Nat) :
    Serves s (nativeKbcWrite s port value valid tsc) := by
  have hset (s' : Kbc) (hl : s'.line = s.line) (hk : s'.keyboard = s.keyboard) : Serves s s' :=
    serves_of_line (hl ▸ .refl _) hk
  cases port with
  | status =>
    have ht : Serves s { s with cmdPending := false } := hset _ rfl rfl
    have hreply (v : Byte) : Serves s (Kbc.reply { s with cmdPending := false } v) :=
      ht.trans (serves_reply _ _)
    refine .ite (fun _ => hreply _) fun _ => .ite (fun _ => hset _ rfl rfl) fun _ =>
      .ite (fun _ => hreply _) fun _ => .ite (fun _ => hreply _) fun _ => .ite (fun _ => ?_) fun _ =>
      .ite (fun _ => hset _ rfl rfl) fun _ => .ite (fun _ => hset _ rfl rfl) fun _ =>
      .ite (fun _ => hset _ rfl rfl) fun _ => .ite (fun _ => hset _ rfl rfl) fun _ =>
      .ite (fun _ => hreply _) fun _ => .ite (fun _ => hset _ rfl rfl) fun _ =>
      .ite (fun _ => hset _ rfl rfl) fun _ => ht
    exact (ht.trans (serves_pointerValid _ _ _)).trans (serves_reply _ _)
  | data =>
    have ht : Serves s { s with cmdPending := false } := hset _ rfl rfl
    refine .ite (fun _ => ?_) fun _ => serves_nativeKeyboardCommand _ _
    exact .ite (fun _ => hset _ rfl rfl) fun _ => .ite (fun _ => hset _ rfl rfl) fun _ =>
      .ite (fun _ => ht.trans (serves_nativePointerCommand _ _ _ _)) fun _ => ht

end Serves

/-! ### Key sequences -/

/-- The line is in order, and what was delivered and what waits in the ring are, in order, among
the key sequences that were accepted. -/
structure Kbc.Ok (s : Kbc) : Prop where
  line : s.line.Ok
  ring : s.keyboard.ring.count ≤ 16
  short : ∀ set2 ∈ s.keyboard.ring.toList, set2.length ≤ 8
  delivered : (s.line.delivered ++ s.keyboard.ring.toList).Sublist s.keyboard.accepted

section Keys

variable {s s' : Kbc}

theorem Serves.toList (h : Serves s s') :
    s'.keyboard.ring.toList = s.keyboard.ring.toList ∨ s'.keyboard.ring.toList = [] :=
  h.ring.imp (congrArg _) RingBuffer.toList_eq_nil_iff.2

theorem Serves.ok (h : Serves s s') (hs : s.Ok) : s'.Ok where
  line := h.line.ok hs.line
  ring := by
    rcases h.ring with hr | hr
    · rw [hr]
      exact hs.ring
    · omega
  short := by
    rcases h.toList with hr | hr
    · rw [hr]
      exact hs.short
    · rw [hr]
      exact fun _ hm => absurd hm not_mem_nil
  delivered := by
    rw [h.line.delivered, h.accepted]
    rcases h.toList with hr | hr
    · rw [hr]
      exact hs.delivered
    · rw [hr, append_nil]
      exact (sublist_append_left _ _).trans hs.delivered

/-- What a step does to the line: nothing is taken, and the state stays in order. -/
structure Quiet (s s' : Kbc) : Prop where
  ok : s.Ok → s'.Ok
  grows : s.line.history.Grows s'.line.history
  untaken : s.line.history.Untaken s'.line.history

theorem Quiet.refl (s : Kbc) : Quiet s s := ⟨id, .refl _, .refl _⟩

theorem Quiet.trans {s'' : Kbc} (h : Quiet s s') (h' : Quiet s' s'') : Quiet s s'' :=
  ⟨h'.ok ∘ h.ok, h.grows.trans h'.grows, h.untaken.trans h'.untaken⟩

theorem Serves.quiet (h : Serves s s') : Quiet s s' := ⟨h.ok, h.line.grows, h.line.untaken⟩

theorem quiet_accept (s : Kbc) {set2 : List Byte} (hlen : set2.length ≤ 8)
    (hroom : s.keyboard.ring.count ≠ 16) :
    Quiet s { s with keyboard := { s.keyboard with
      ring := s.keyboard.ring.push set2
      accepted := s.keyboard.accepted ++ [set2] } } := by
  refine ⟨fun hs => ?_, .refl _, .refl _⟩
  have hlt : s.keyboard.ring.count < 16 := lt_of_le_of_ne hs.ring hroom
  have hlist : (s.keyboard.ring.push set2).toList = s.keyboard.ring.toList ++ [set2] :=
    RingBuffer.toList_push set2 hlt
  refine ⟨hs.line, hlt, ?_, ?_⟩
  · show ∀ q ∈ (s.keyboard.ring.push set2).toList, _
    rw [hlist]
    intro q hq
    rcases mem_append.1 hq with hq | hq
    · exact hs.short q hq
    · exact mem_singleton.1 hq ▸ hlen
  · show (s.line.delivered ++ (s.keyboard.ring.push set2).toList).Sublist (_ ++ [set2])
    rw [hlist, ← append_assoc]
    exact hs.delivered.append_right _

theorem quiet_keyboardInput (s : Kbc) (context : Nat) (set2 : List Byte) (valid : Bool) :
    Quiet s (keyboardInput s context set2 valid).2 := by
  have hv := (serves_keyboardValid s valid).quiet
  have hdrop (n : Nat) : Quiet s { (keyboardValid s valid).2 with keyDropped := n } :=
    hv.trans (Serves.quiet (serves_of_line (.refl _) rfl))
  unfold keyboardInput
  extract_lets v
  by_cases hown : context = 0 ∨ !s.keyboard.bound ∨ s.keyboard.context ≠ context
  · rw [if_pos hown]
    exact .refl s
  rw [if_neg hown]
  by_cases hvalid : !v.1
  · rw [if_pos hvalid]
    exact hv
  rw [if_neg hvalid]
  by_cases hlen : set2 = [] ∨ 8 < set2.length
  · rw [if_pos hlen]
    exact hv
  rw [if_neg hlen]
  by_cases hscan : !v.2.keyboard.scanning
  · rw [if_pos hscan]
    exact hdrop _
  rw [if_neg hscan]
  by_cases hfull : v.2.keyboard.ring.count = 16
  · rw [if_pos hfull]
    exact hdrop _
  rw [if_neg hfull]
  exact hv.trans (quiet_accept v.2 (by omega) hfull)

theorem quiet_sourceCall (tsc : Nat) (s : Kbc) (call : Source) : Quiet s (sourceCall tsc s call) := by
  cases call with
  | keyInput context set2 valid => exact quiet_keyboardInput s context set2 valid
  | keyAttach context valid => exact (serves_keyboardAttach s context valid).quiet
  | keyDetach context => exact (serves_keyboardDetach s context).quiet
  | pointerInput context x y buttons valid =>
    exact (serves_pointerInput s context x y buttons valid tsc).quiet
  | pointerAttach context valid => exact (serves_pointerAttach s context valid tsc).quiet
  | pointerDetach context => exact (serves_pointerDetach s context tsc).quiet

theorem quiet_calls (tsc : Nat) (calls : List Source) (s : Kbc) :
    Quiet s (calls.foldl (sourceCall tsc) s) := by
  induction calls generalizing s with
  | nil => exact .refl s
  | cons call calls ih => exact (quiet_sourceCall tsc s call).trans (ih _)

theorem quiet_polledKeyboard (s : Kbc) (valid : Bool) (calls : List Source) (tsc : Nat) :
    Quiet s (polledKeyboard s valid calls tsc) := by
  have hv := (serves_keyboardValid s valid).quiet
  unfold polledKeyboard
  extract_lets v
  cases v.1
  · exact hv
  · exact hv.trans (quiet_calls tsc calls v.2)

end Keys

/-! ### The flush -/

def Keyboard.first (k : Keyboard) : List Byte := k.ring.slots (k.ring.head % 16)

/-- When a turn of the flush finds a sequence behind more bytes than the reserve leaves room for,
the sequence fits into the FIFO all the same. -/
def TurnFits (s : Kbc) : Prop :=
  s.keyboard.bound → 0 < s.keyboard.ring.count → s.config &&& 0x10 = 0 →
    fifoSize - KBC_REPLY_RESERVE < s.line.fifo.count →
    ∀ bytes ∈ keyboardEncode s s.keyboard.first, s.line.fifo.count + bytes.length ≤ fifoSize

def FlushFits : Nat → Kbc → Prop
  | 0, _ => True
  | turns + 1, s => TurnFits s ∧ ∀ s' ∈ keyboardFlushTurn s, FlushFits turns s'

section Flush

variable {s s' : Kbc}

theorem length_translateFold (bs : List Byte) (release : Byte) :
    (kbcTranslateFold release bs).length ≤ bs.length := by
  induction bs generalizing release with
  | nil => exact Nat.le_refl _
  | cons b bs ih =>
    rw [kbcTranslateFold]
    split_ifs
    · exact (ih _).trans (Nat.le_succ _)
    · exact Nat.succ_le_succ (ih _)

theorem length_encode {set2 bytes : List Byte} (h : bytes ∈ keyboardEncode s set2) :
    bytes.length ≤ set2.length := by
  unfold keyboardEncode at h
  have hfold := length_translateFold set2 0
  have hfold2 := length_translateFold (kbcTranslateFold 0 set2) 0
  simp only [mem_def] at h
  split_ifs at h
  · exact some.inj h ▸ hfold
  · exact some.inj h ▸ Nat.le_refl _
  · exact some.inj h ▸ hfold2.trans hfold
  · exact some.inj h ▸ hfold

/-- What a turn can do: the first sequence is dropped, or goes to the FIFO whole. -/
theorem keyboardFlushTurn_cases (h : s' ∈ keyboardFlushTurn s) :
    s.keyboard.bound ∧ 0 < s.keyboard.ring.count ∧ s.config &&& 0x10 = 0 ∧
      s'.keyboard = s.keyboard.next ∧ (s'.line = s.line ∨
        ∃ bytes ∈ keyboardEncode s s.keyboard.first, bytes ≠ [] ∧
          ¬ s.line.keyRoom < bytes.length ∧ s'.line = s.line.put (.key s.keyboard.first bytes)) := by
  unfold keyboardFlushTurn at h
  by_cases hg : s.keyboard.bound ∧ 0 < s.keyboard.ring.count ∧ s.config &&& 0x10 = 0
  · rw [if_pos hg] at h
    refine ⟨hg.1, hg.2.1, hg.2.2, ?_⟩
    cases henc : keyboardEncode s (s.keyboard.ring.slots (s.keyboard.ring.head % 16)) with
    | none =>
      simp only [henc] at h
      obtain rfl := some.inj h
      exact ⟨rfl, .inl rfl⟩
    | some bytes =>
      simp only [henc] at h
      by_cases hnil : bytes = []
      · rw [if_pos hnil] at h
        obtain rfl := some.inj h
        exact ⟨rfl, .inl rfl⟩
      · rw [if_neg hnil] at h
        obtain ⟨hroom, h⟩ := ite_none_left_eq_some.1 h
        obtain rfl := some.inj h
        exact ⟨rfl, .inr ⟨bytes, henc, hnil, hroom, rfl⟩⟩
  · rw [if_neg hg] at h
    cases h

theorem first_mem (h : 0 < s.keyboard.ring.count) : s.keyboard.ring.toList =
    s.keyboard.first :: s.keyboard.next.ring.toList := RingBuffer.toList_pop h

/-- The room is what the reserve leaves, or more than any sequence needs. -/
theorem fits_of_keyRoom {bytes : List Byte} (hs : s.line.fifo.count ≤ fifoSize)
    (hroom : ¬ s.line.keyRoom < bytes.length)
    (hfit : fifoSize - KBC_REPLY_RESERVE < s.line.fifo.count →
      s.line.fifo.count + bytes.length ≤ fifoSize) :
    s.line.fifo.count + bytes.length ≤ fifoSize := by
  by_cases hc : fifoSize - KBC_REPLY_RESERVE < s.line.fifo.count
  · exact hfit hc
  · have hsize : fifoSize = 16 := rfl
    unfold Line.keyRoom at hroom
    omega

theorem quiet_turn (hfit : TurnFits s) (h : s' ∈ keyboardFlushTurn s) : Quiet s s' := by
  obtain ⟨hb, hc, hcfg, hk, hline⟩ := keyboardFlushTurn_cases h
  have hlist := first_mem hc
  have hring : s'.keyboard.ring.count = s.keyboard.ring.count - 1 := by
    rw [hk]
    rfl
  have hshort (hs : s.Ok) : ∀ set2 ∈ s'.keyboard.ring.toList, set2.length ≤ 8 := by
    rw [hk]
    exact fun set2 hm => hs.short set2 (hlist ▸ mem_cons_of_mem _ hm)
  rcases hline with hline | ⟨bytes, henc, hnil, hroom, hline⟩
  · refine ⟨fun hs => ⟨hline ▸ hs.line, by have := hs.ring; omega, hshort hs, ?_⟩, ?_, ?_⟩
    · rw [hline, hk]
      have hdel := hs.delivered
      rw [hlist] at hdel
      exact ((sublist_cons_self _ _).append_left _).trans hdel
    · rw [hline]
      exact .refl _
    · rw [hline]
      exact .refl _
  · have hput := grows_put s.line (.key s.keyboard.first bytes)
    refine ⟨fun hs => ⟨?_, by have := hs.ring; omega, hshort hs, ?_⟩, hline ▸ hput.1, hline ▸ hput.2⟩
    · rw [hline]
      refine hs.line.put ?_ ⟨hnil, s, henc⟩
      rw [Packet.queued, length_map]
      exact fits_of_keyRoom hs.line.count_le hroom fun hlt => hfit hb hc hcfg hlt bytes henc
    · rw [hline, hk, delivered_put, append_assoc, singleton_append, ← hlist]
      exact hs.delivered

theorem quiet_flush (turns : Nat) (s : Kbc) (hfit : FlushFits turns s) :
    Quiet s (keyboardFlush turns s) := by
  induction turns generalizing s with
  | zero => exact .refl s
  | succ turns ih =>
    rw [keyboardFlush]
    cases hturn : keyboardFlushTurn s with
    | none => exact .refl s
    | some s' => exact (quiet_turn hfit.1 hturn).trans (ih s' (hfit.2 s' hturn))

end Flush

/-! ### An overrun stays -/

section Overrun

variable {s s' : Kbc}

/-- What is in the FIFO and what the ring can still add, by sequences of at most 8 bytes. -/
structure Bounded (turns : Nat) (s : Kbc) : Prop where
  count : s.line.fifo.count + 8 * turns < 256
  short : ∀ set2 ∈ s.keyboard.ring.toList, set2.length ≤ 8

/-- A turn that puts no more than the rest of the ring allows keeps the bound. -/
theorem Bounded.turn {turns : Nat} (h : Bounded (turns + 1) s) (hturn : s' ∈ keyboardFlushTurn s) :
    Bounded turns s' ∧ s.line.fifo.count ≤ s'.line.fifo.count := by
  obtain ⟨_, hc, _, hk, hline⟩ := keyboardFlushTurn_cases hturn
  have hlist := first_mem hc
  have hcount := h.count
  have hshort : ∀ set2 ∈ s'.keyboard.ring.toList, set2.length ≤ 8 := by
    rw [hk]
    exact fun set2 hm => h.short set2 (hlist ▸ mem_cons_of_mem _ hm)
  rcases hline with hline | ⟨bytes, henc, _, _, hline⟩
  · rw [hline]
    exact ⟨⟨by rw [hline]; omega, hshort⟩, Nat.le_refl _⟩
  · have hlen := (length_encode henc).trans (h.short _ (hlist ▸ mem_cons_self))
    have hput : (s.line.put (.key s.keyboard.first bytes)).fifo.count =
        s.line.fifo.count + bytes.length := by
      refine (count_enqueue_foldl _ _ ?_).trans ?_ <;> rw [Packet.queued, length_map]
      omega
    rw [hline, hput]
    exact ⟨⟨by rw [hline, hput]; omega, hshort⟩, Nat.le_add_right _ _⟩

theorem overrun_stays (turns : Nat) (s : Kbc) (h : Bounded turns s) :
    s.line.fifo.count ≤ (keyboardFlush turns s).line.fifo.count := by
  induction turns generalizing s with
  | zero => exact Nat.le_refl _
  | succ turns ih =>
    rw [keyboardFlush]
    cases hturn : keyboardFlushTurn s with
    | none => exact Nat.le_refl _
    | some s' =>
      obtain ⟨hb, hle⟩ := h.turn hturn
      exact hle.trans (ih s' hb)

theorem overrun_turn (hs : s.Ok) (hfit : ¬ TurnFits s) :
    ∃ s' ∈ keyboardFlushTurn s, fifoSize < s'.line.fifo.count := by
  unfold TurnFits at hfit
  push Not at hfit
  obtain ⟨hb, hc, hcfg, hres, bytes, henc, hover⟩ := hfit
  have hsize : fifoSize = 16 := rfl
  have hcount := hs.line.count_le
  have hnil : bytes ≠ [] := by
    rintro rfl
    simp only [length_nil] at hover
    omega
  have hlen := (length_encode henc).trans (hs.short _ (first_mem hc ▸ mem_cons_self))
  have hroom : ¬ s.line.keyRoom < bytes.length := by
    unfold Line.keyRoom
    omega
  refine ⟨{ s with
    keyboard := s.keyboard.next
    line := s.line.put (.key s.keyboard.first bytes)
    keyDelivered := bumpU32 s.keyDelivered }, ?_, ?_⟩
  · have henc' : keyboardEncode s (s.keyboard.ring.slots (s.keyboard.ring.head % 16)) = some bytes := henc
    unfold keyboardFlushTurn
    rw [if_pos ⟨hb, hc, hcfg⟩]
    simp only [henc', if_neg hnil, if_neg hroom]
    rfl
  · show fifoSize < (s.line.put (.key s.keyboard.first bytes)).fifo.count
    have hput : (s.line.put (.key s.keyboard.first bytes)).fifo.count =
        s.line.fifo.count + bytes.length := by
      refine (count_enqueue_foldl _ _ ?_).trans ?_ <;> rw [Packet.queued, length_map]
      omega
    rw [hput]
    exact hover

/-- **The flush overruns the FIFO unless every sequence fits.** -/
theorem overrun_flush (turns : Nat) (s : Kbc) (hs : s.Ok) (hturns : turns ≤ 16)
    (hfit : ¬ FlushFits turns s) : fifoSize < (keyboardFlush turns s).line.fifo.count := by
  induction turns generalizing s with
  | zero => exact absurd trivial hfit
  | succ turns ih =>
    have hsize : fifoSize = 16 := rfl
    have hbound : Bounded (turns + 1) s :=
      ⟨by have := hs.line.count_le; omega, hs.short⟩
    rw [keyboardFlush]
    by_cases hturn : TurnFits s
    · rw [FlushFits, not_and, not_forall] at hfit
      obtain ⟨s', hs'⟩ := hfit hturn
      rw [Classical.not_imp] at hs'
      rw [mem_def.1 hs'.1]
      exact ih s' ((quiet_turn hturn hs'.1).ok hs) (by omega) hs'.2
    · obtain ⟨s', hmem, hover⟩ := overrun_turn hs hturn
      rw [mem_def.1 hmem]
      exact hover.trans_le (overrun_stays turns s' (hbound.turn hmem).1)

end Overrun

/-! ### Reading -/

section Read

variable {s : Kbc} {hz : Nat}

/-- The state after the two validations of `kbc_read`. -/
def validated (s : Kbc) (pointerOk keyboardOk : Bool) (tsc : Nat) : Kbc :=
  (keyboardValid (pointerValid s pointerOk tsc).2 keyboardOk).2

theorem quiet_validated (s : Kbc) (pointerOk keyboardOk : Bool) (tsc : Nat) :
    Quiet s (validated s pointerOk keyboardOk tsc) :=
  (serves_pointerValid s pointerOk tsc).quiet.trans (serves_keyboardValid _ keyboardOk).quiet

theorem ok_take (hs : s.Ok) (hc : 0 < s.line.fifo.count) : Kbc.Ok { s with line := s.line.take } where
  line := hs.line.take hc
  ring := hs.ring
  short := hs.short
  delivered := by
    have : s.line.take.delivered = s.line.delivered := by
      rw [Line.delivered, Line.take, packets_append, append_nil]
      rfl
    rw [this]
    exact hs.delivered

theorem grows_take (l : Line) : l.history.Grows l.take.history := by
  rw [Line.take, history_append]
  exact .apply _ _

theorem kbcRead_data (s : Kbc) (pointerOk keyboardOk : Bool) (tsc : Nat) :
    kbcRead s .data pointerOk keyboardOk tsc =
      let v := validated s pointerOk keyboardOk tsc
      if v.line.fifo.count = 0 then (0, v)
      else ((v.line.fifo.slots (v.line.fifo.head % fifoSize)).byte, { v with line := v.line.take }) := rfl

theorem front_getElem? (hs : s.Ok) (hc : 0 < s.line.fifo.count) :
    s.line.history[s.line.history.front]? =
      some (s.line.fifo.slots (s.line.fifo.head % fifoSize), .waiting) := by
  have hhead := hs.line.head? hc
  rw [History.head?_waiting, map_eq_some_iff] at hhead
  obtain ⟨⟨q, f⟩, hx, rfl⟩ := hhead
  have hfront : s.line.history.findIdx (·.2 = .waiting) < s.line.history.length :=
    (List.getElem?_eq_some_iff.1 hx).1
  have hf := findIdx_getElem (w := hfront)
  have hx' := (List.getElem?_eq_some_iff.1 hx).2
  rw [hx]
  simp only [History.front] at hx'
  rw [hx'] at hf
  simp only [decide_eq_true_eq] at hf
  rw [hf]

end Read

/-! ### Steps -/

/-- The condition under which a step keeps the FIFO in order: the flush of the keyboard does not
meet a sequence that is too long behind the reserve. -/
def Meets (s : Kbc) : Event → Prop
  | .pollKeyboard valid calls tsc =>
    let s' := polledKeyboard s valid calls tsc
    FlushFits s'.keyboard.ring.count s'
  | _ => True

def Event.readsData : Event → Prop
  | .read .data _ _ _ => True
  | _ => False

section Step

variable {s : Kbc} {hz : Nat} {e : Event}

theorem quiet_step (hz : Nat) (hm : Meets s e) (he : ¬ e.readsData) : Quiet s (step hz s e) := by
  cases e with
  | read port pointerOk keyboardOk tsc =>
    cases port with
    | data => exact absurd trivial he
    | status => exact quiet_validated s pointerOk keyboardOk tsc
  | write port value pointerOk tsc => exact (serves_nativeKbcWrite s port value pointerOk tsc).quiet
  | source call tsc => exact quiet_sourceCall tsc s call
  | pollKeyboard valid calls tsc => exact (quiet_polledKeyboard s valid calls tsc).trans (quiet_flush _ _ hm)
  | pollPointer valid calls flushValid now tsc =>
    have hv := (serves_pointerValid s valid tsc).quiet
    simp only [step]
    cases (pointerValid s valid tsc).1
    · exact hv
    · exact (hv.trans (quiet_calls tsc calls _)).trans (serves_pointerFlush _ _ _ _ _).quiet

theorem step_ok (hz : Nat) (hs : s.Ok) (hm : Meets s e) :
    (step hz s e).Ok ∧ s.line.history.Grows (step hz s e).line.history := by
  by_cases he : e.readsData
  · cases e with
    | read port pointerOk keyboardOk tsc =>
      cases port with
      | status => cases he
      | data =>
        have hv := quiet_validated s pointerOk keyboardOk tsc
        rw [step, kbcRead_data]
        extract_lets v
        by_cases hc : v.line.fifo.count = 0
        · rw [if_pos hc]
          exact ⟨hv.ok hs, hv.grows⟩
        · rw [if_neg hc]
          exact ⟨ok_take (hv.ok hs) (Nat.pos_of_ne_zero hc), hv.grows.trans (grows_take _)⟩
    | _ => cases he
  · have hq := quiet_step hz hm he
    exact ⟨hq.ok hs, hq.grows⟩

/-- The FIFO stays within its 16 bytes exactly when the condition holds. -/
theorem count_step_iff (hz : Nat) (hs : s.Ok) :
    (step hz s e).line.fifo.count ≤ fifoSize ↔ Meets s e := by
  refine ⟨fun hle => ?_, fun hm => (step_ok hz hs hm).1.line.count_le⟩
  cases e with
  | pollKeyboard valid calls tsc =>
    by_contra hm
    have hp := (quiet_polledKeyboard s valid calls tsc).ok hs
    exact absurd hle (Nat.not_le.2 (overrun_flush _ _ hp hp.ring hm))
  | _ => trivial

end Step

theorem enabled_ok (tsc : Nat) : (enabled tsc).Ok where
  line := ⟨Nat.zero_le _, rfl, .nil, rfl, rfl, fun _ h => absurd h not_mem_nil⟩
  ring := Nat.zero_le _
  short := fun _ h => absurd h not_mem_nil
  delivered := List.Sublist.refl _

/-! ### The auxiliary flag -/

/-- Between a read of the status port that shows a byte and the next read of the data port, that
byte is purged or it is the one that is read, and the flag was its own. -/
def AuxBelongs (hz : Nat) (s₀ : Kbc) (as : List Event) : Prop :=
  ∀ xs pointerOk keyboardOk tsc ys pointerOk' keyboardOk' tsc' zs,
    as = xs ++ .read .status pointerOk keyboardOk tsc ::
      (ys ++ .read .data pointerOk' keyboardOk' tsc' :: zs) →
    (∀ e ∈ ys, ¬ e.readsData) →
    let s := xs.foldl (step hz) s₀
    let flags := (kbcRead s .status pointerOk keyboardOk tsc).1
    let s₁ := step hz s (.read .status pointerOk keyboardOk tsc)
    let t := ys.foldl (step hz) s₁
    let read := kbcRead t .data pointerOk' keyboardOk' tsc'
    (flags &&& 1 = 0 → flags &&& 0x20 = 0) ∧
    (flags &&& 1 ≠ 0 → ∃ (i : Nat) (q : Queued), s₁.line.history[i]? = some (q, Fate.waiting) ∧
      (flags &&& 0x20 ≠ 0 ↔ q.flag &&& FIFO_AUX ≠ 0) ∧
      (read.2.line.history[i]? = some (q, Fate.purged) ∨
        read.1 = q.byte ∧ read.2.line.history[i]? = some (q, Fate.taken)))

section Aux

variable {s : Kbc} {hz : Nat}

theorem status_bits (full aux : Prop) [Decidable full] [Decidable aux] :
    let flags : Byte := 0x14 ||| (if full then 1 else 0) ||| (if full ∧ aux then 0x20 else 0)
    (flags &&& 1 ≠ 0 ↔ full) ∧ (flags &&& 0x20 ≠ 0 ↔ full ∧ aux) := by
  by_cases hf : full <;> by_cases ha : aux <;> simp [hf, ha]

theorem kbcRead_status (s : Kbc) (pointerOk keyboardOk : Bool) (tsc : Nat) :
    let v := validated s pointerOk keyboardOk tsc
    let flags := (kbcRead s .status pointerOk keyboardOk tsc).1
    (flags &&& 1 ≠ 0 ↔ v.line.fifo.count ≠ 0) ∧
    (flags &&& 0x20 ≠ 0 ↔ v.line.fifo.count ≠ 0 ∧
      (v.line.fifo.slots (v.line.fifo.head % fifoSize)).flag &&& FIFO_AUX ≠ 0) := by
  exact status_bits _ _

theorem quiet_run (hz : Nat) (ys : List Event) (s : Kbc) (hm : Steps (step hz) Meets s ys)
    (hy : ∀ e ∈ ys, ¬ e.readsData) : Quiet s (ys.foldl (step hz) s) := by
  induction ys generalizing s with
  | nil => exact .refl s
  | cons e ys ih =>
    have hstep := quiet_step hz hm.2.1 (hy e mem_cons_self)
    exact hstep.trans (ih _ hm.2.2 fun e he => hy e (mem_cons_of_mem _ he))

theorem read_front (ht : s.Ok) {H : History Queued} {q : Queued} (hq : H[H.front]? = some (q, .waiting))
    (hgrows : H.Grows s.line.history) (huntaken : H.Untaken s.line.history)
    (pointerOk keyboardOk : Bool) (tsc : Nat) :
    (kbcRead s .data pointerOk keyboardOk tsc).2.line.history[H.front]? = some (q, .purged) ∨
      (kbcRead s .data pointerOk keyboardOk tsc).1 = q.byte ∧
        (kbcRead s .data pointerOk keyboardOk tsc).2.line.history[H.front]? = some (q, .taken) := by
  have hv := quiet_validated s pointerOk keyboardOk tsc
  have hvok := hv.ok ht
  have hread := kbcRead_data s pointerOk keyboardOk tsc
  extract_lets v at hread
  have hg : H.Grows v.line.history := hgrows.trans hv.grows
  obtain ⟨⟨q', f⟩, hx, rfl, -⟩ := hg _ _ hq
  cases f with
  | taken =>
    obtain ⟨x, hx', ht'⟩ := (huntaken.trans hv.untaken) _ _ hx rfl
    obtain rfl := some.inj (hq.symm.trans hx')
    cases ht'
  | purged =>
    left
    by_cases hc : v.line.fifo.count = 0
    · rw [hread, if_pos hc]
      exact hx
    · rw [hread, if_neg hc]
      obtain ⟨y, hy, hyx, hfy⟩ := grows_take v.line _ _ hx
      rw [hy]
      exact congrArg some (Prod.ext hyx (hfy (by simp)))
  | waiting =>
    right
    have hfront : v.line.history.front = H.front := hg.front hx rfl
    have hc : v.line.fifo.count ≠ 0 := by
      intro h0
      have hnil : v.line.history.waiting = [] := by
        rw [← hvok.line.contents, RingBuffer.toList_eq_nil_iff, h0]
      have hhead := History.head?_waiting v.line.history
      rw [hnil, hfront, hx] at hhead
      cases hhead
    rw [hread, if_neg hc]
    have hq' := front_getElem? hvok (Nat.pos_of_ne_zero hc)
    rw [hfront, hx] at hq'
    refine ⟨(congrArg Queued.byte (congrArg Prod.fst (some.inj hq'))).symm, ?_⟩
    show v.line.take.history[_]? = _
    rw [Line.take, history_append, Act.op, ← hfront]
    exact History.getElem?_take_front (by rw [hfront, hx])

end Aux

section Run

variable {hz tsc : Nat} {as : List Event}

theorem ok_along (hm : Steps (step hz) Meets (enabled tsc) as) :
    Along (step hz) Kbc.Ok Meets (enabled tsc) as :=
  along_of_inv as (fun _ h => h) (fun _ _ h _ hg => ⟨hg, (step_ok hz h hg).1⟩) (enabled_ok tsc) hm

theorem auxBelongs (hm : Steps (step hz) Meets (enabled tsc) as) : AuxBelongs hz (enabled tsc) as := by
  intro xs pointerOk keyboardOk tsc₁ ys pointerOk' keyboardOk' tsc₂ zs has hy
  subst has
  obtain ⟨hxs, hrest⟩ := steps_append xs _ hm
  obtain ⟨hys, _⟩ := steps_append ys _ hrest.2.2
  intro s flags s₁ t read
  have hs : s.Ok := (ok_along hxs).last
  obtain ⟨hobf, haux⟩ := kbcRead_status s pointerOk keyboardOk tsc₁
  have hs₁ : s₁.Ok := (quiet_validated s pointerOk keyboardOk tsc₁).ok hs
  refine ⟨fun h0 => ?_, fun h1 => ?_⟩
  · by_contra hne
    exact hobf.2 (haux.1 hne).1 h0
  · have hc := hobf.1 h1
    have hq := front_getElem? hs₁ (Nat.pos_of_ne_zero hc)
    have ht := quiet_run hz ys s₁ hys hy
    refine ⟨_, _, hq, haux.trans (and_iff_right hc), ?_⟩
    exact read_front (ht.ok hs₁) hq ht.grows ht.untaken pointerOk' keyboardOk' tsc₂

/-- Each reply to the guest is in the FIFO's history, or was counted as dropped. -/
theorem reply_counted (l : Line) (v : Byte) : (l.kbcReply v).packets = l.packets ++ [.reply v] ∨
    (l.kbcReply v).trace.count .drop = l.trace.count .drop + 1 := by
  unfold Line.kbcReply
  split_ifs
  · right
    simp [Line.drop]
  · left
    rw [Line.put, packets_append]

theorem pointerReply_counted (s : Kbc) (bytes : List Byte) (remember host : Bool) :
    (pointerReply s bytes remember host).2.line.packets = s.line.packets ++ [.pointer bytes host] ∨
      (pointerReply s bytes remember host).2.line.trace.count .drop = s.line.trace.count .drop + 1 := by
  unfold pointerReply
  by_cases hroom : s.line.room < bytes.length
  · rw [if_pos hroom]
    right
    simp [Line.drop]
  · rw [if_neg hroom]
    left
    show (s.line.put (.pointer bytes host)).packets = _
    rw [Line.put, packets_append]

/-- A packet has three bytes, four with an acknowledgement. -/
theorem pointerPacket_whole (s : Kbc) (ack : Bool) (tsc : Nat) :
    (∃ bytes, bytes.length = 3 + ack.toNat ∧
      (pointerPacket s ack tsc).2.line.packets = s.line.packets ++ [.pointer bytes !ack]) ∨
        (pointerPacket s ack tsc).2.line.trace.count .drop = s.line.trace.count .drop + 1 := by
  obtain ⟨bytes, hlen, hline⟩ : ∃ bytes, bytes.length = 3 + ack.toNat ∧
      (pointerPacket s ack tsc).2.line = (pointerReply s bytes true !ack).2.line := by
    refine ⟨_, ?_, (apply_ite (fun r : DriverStatus × Kbc => r.2.line) _ _ _).trans (ite_self _)⟩
    cases ack <;> rfl
  rw [hline]
  exact (pointerReply_counted s bytes true !ack).imp_left fun h => ⟨bytes, hlen, h⟩

/-- **The output stream of the 8042.**  The FIFO stays within its 16 bytes exactly in the runs whose
flushes meet the condition.  In these the guest reads what was queued, in order and without what was
purged; what was queued is packets in one piece; no key sequence is delivered twice or out of order;
the flag in the status port is that of the byte read next.  A reply or pointer packet is queued whole
or counted as dropped. -/
theorem output_stream (hz tsc : Nat) (as : List Event) :
    (Along (step hz) (fun s => s.line.fifo.count ≤ fifoSize) (fun _ _ => True) (enabled tsc) as ↔
      Steps (step hz) Meets (enabled tsc) as) ∧
    (Steps (step hz) Meets (enabled tsc) as →
      let s := as.foldl (step hz) (enabled tsc)
      s.line.reads = s.line.history.taken.map Queued.byte ∧ s.line.fifo.toList = s.line.history.waiting ∧
      s.line.history.map Prod.fst = s.line.packets.flatMap Packet.queued ∧
      (∀ p ∈ s.line.packets, p.Whole) ∧ s.line.delivered.Sublist s.keyboard.accepted ∧
      s.line.replyDropped = min (s.line.trace.count .drop) UINT32_MAX ∧
      AuxBelongs hz (enabled tsc) as) ∧
    (∀ l v, (Line.kbcReply l v).packets = l.packets ++ [.reply v] ∨
      (l.kbcReply v).trace.count .drop = l.trace.count .drop + 1) ∧
    (∀ s bytes remember host,
      (pointerReply s bytes remember host).2.line.packets = s.line.packets ++ [.pointer bytes host] ∨
        (pointerReply s bytes remember host).2.line.trace.count .drop = s.line.trace.count .drop + 1) ∧
    ∀ s ack tsc, (∃ bytes, bytes.length = 3 + ack.toNat ∧
      (pointerPacket s ack tsc).2.line.packets = s.line.packets ++ [.pointer bytes !ack]) ∨
        (pointerPacket s ack tsc).2.line.trace.count .drop = s.line.trace.count .drop + 1 := by
  refine ⟨⟨fun h => ?_, fun h => ?_⟩, fun hm => ?_, reply_counted, pointerReply_counted, pointerPacket_whole⟩
  · have hok := enabled_ok tsc
    generalize enabled tsc = s at h hok
    induction as generalizing s with
    | nil => trivial
    | cons e as ih =>
      have hm : Meets s e := (count_step_iff hz hok).1 h.2.2.head
      exact ⟨trivial, hm, ih _ h.2.2 (step_ok hz hok hm).1⟩
  · exact (ok_along h).mono as (fun _ hs => hs.line.count_le) fun _ _ _ => trivial
  · intro s
    have hs : s.Ok := (ok_along hm).last
    exact ⟨hs.line.reads, hs.line.contents, history_fst _, hs.line.whole,
      (sublist_append_left _ _).trans hs.delivered, hs.line.replyDropped, auxBelongs hm⟩

end Run

/-! ### An overrun -/

def unreadReplies : List Event :=
  .source (.keyAttach 1 true) 0 ::
    (List.replicate 16 (.write .data 0xee false 0) ++ [.pollKeyboard true [.keyInput 1 [0x1c] true] 0])

/-- **The free space of `keyboard_flush` wraps**: behind more than 12 bytes a key sequence is written
into a FIFO without room for it. -/
theorem flush_overruns : ¬ ∀ hz tsc as, Along (step hz) (fun s => s.line.fifo.count ≤ fifoSize)
    (fun _ _ => True) (enabled tsc) as :=
  fun h => absurd (h 0 0 unreadReplies).last (by decide +kernel)

/-- A run with replies, a key and reads in between. -/
theorem output_stream_sample : Steps (step 0) Meets (enabled 0)
    [.source (.keyAttach 1 true) 0, .write .data 0xf2 false 0,
      .pollKeyboard true [.keyInput 1 [0xf0, 0x1c] true] 0, .read .status false true 0,
      .read .data false true 0, .read .data false true 0, .read .data false true 0,
      .read .data false true 0] :=
  (output_stream 0 0 _).1.1 (by decide +kernel)

end Win98Modern.I8042
