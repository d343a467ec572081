import Win98Modern.Abi.Create

/-!
# Round trips of CREATE_PROCESS messages

What `shz_w64_create_pack` makes of strings whose lengths do not wrap comes back from `shz_w64_create_check`, and
nothing behind the block is written.  The sum of the lengths is checked in 32 bits after it was doubled, so that from
`2 ^ 31` units on it may look small, and from `2 ^ 32` on it may look smaller than the block.
-/

namespace Win98Modern.Shz.Create

open Function

open Memory

namespace Args

variable (x : Args)

/-- The number of units, without a bound. -/
def units : Nat := x.pathChars.toNat + x.cmdlineChars.toNat + x.cwdChars.toNat

/-- The concatenation of the strings. -/
def text (i : Nat) : BitVec 16 :=
  if i < x.pathChars.toNat then x.path.units i
  else if i < x.pathChars.toNat + x.cmdlineChars.toNat then x.cmdline.units (i - x.pathChars.toNat)
  else x.cwd.units (i - (x.pathChars.toNat + x.cmdlineChars.toNat))

/-- The documented limits, over the integers. -/
structure Fits : Prop where
  path : 1 ≤ x.pathChars.toNat ∧ x.pathChars.toNat ≤ SHZ_W64_MAX_PATH_CHARS
  cwd : x.cwdChars.toNat ≤ SHZ_W64_MAX_PATH_CHARS
  bytes : x.units * 2 ≤ SHZ_W64_MAX_ARGS_BYTES
  cap : x.units ≤ x.blockCap.toNat

end Args

def Brings (p : Packed) (payload : Memory) : Prop := p.header = some (Header.read payload)

/-- The units of a block, in bytes. -/
def Holds (m : Memory) (off n : Nat) (block : Nat → BitVec 16) : Prop := ∀ i < n, load 2 m (off + 2 * i) = (block i).toNat

/-- What the receiver has to find. -/
def Found (x : Args) (c : Checked) : Prop :=
  c.status = .ok ∧ c.header.pathChars = x.pathChars.toNat ∧ c.header.cmdlineChars = x.cmdlineChars.toNat ∧
    c.header.cwdChars = x.cwdChars.toNat ∧ Holds c.block.1 c.block.2 x.units x.text

/-- What a pack that returns a size promises: the strings fit and are without NULs, exactly their units are written,
and the message comes back, inline or through a buffer of the pool that is the sender's. -/
structure RoundTrip (x : Args) : Prop where
  fits : x.Fits
  noNul : ∀ i < x.units, x.text i ≠ 0
  written : ∀ i, x.pack.block i = if i < x.units then x.text i else x.blockOut.units i
  inline : x.pack.needsPool = false → ∀ (m : MsgHdr) payload region see, Brings x.pack payload →
    Holds payload createSize x.units x.pack.block → m.flags.toNat / SHZ_MSGF_BUFFER % 2 = 0 → m.bufferLength = 0 →
      m.payloadLength.toNat = createSize + x.pack.ret → Found x (check m payload region see)
  pooled : x.pack.needsPool = true → ∀ (m : MsgHdr) payload r see, Brings x.pack payload →
    Holds r m.bufferOffset.toNat x.units x.pack.block → m.flags.toNat / SHZ_MSGF_BUFFER % 2 = 1 →
      m.bufferLength.toNat = x.pack.ret → m.payloadLength.toNat = createSize →
        (Region.poolCheck r m.bufferOffset.toNat m.bufferLength.toNat m.srcDomain.toNat see).2 = .ok →
          Found x (check m payload (some r) see)

/-- An accepted message has lengths in range, whose sum is what its block has: the rest of the payload, or a buffer in
the pool that is the sender's. -/
def Sound (m : MsgHdr) (region : Option Memory) (see : Nat → BitVec 8) (c : Checked) : Prop :=
  let bytes := (c.header.pathChars + c.header.cmdlineChars + c.header.cwdChars) * 2
  1 ≤ c.header.pathChars ∧ c.header.pathChars ≤ SHZ_W64_MAX_PATH_CHARS ∧ c.header.cwdChars ≤ SHZ_W64_MAX_PATH_CHARS ∧
    bytes ≤ SHZ_W64_MAX_ARGS_BYTES ∧
      if m.flags.toNat / SHZ_MSGF_BUFFER % 2 = 1 then
        bytes = m.bufferLength.toNat ∧ ∃ r, region = some r ∧
          (Region.poolCheck r m.bufferOffset.toNat m.bufferLength.toNat m.srcDomain.toNat see).2 = .ok
      else createSize + bytes = m.payloadLength.toNat

/-- Whatever the block held, its units from the capacity on are as they were. -/
def Contained (x : Args) : Prop :=
  x.blockOut.isSome → ∀ (old : Nat → BitVec 16) (i : Nat), x.blockCap.toNat ≤ i →
    { x with blockOut := some old }.pack.block i = old i

abbrev NoNul (x : Args) : Prop := ∀ i < x.units, x.text i ≠ 0

/-- The lengths are so large that in 32 bits they look small. -/
def Wraps (x : Args) : Prop := 2 ^ 31 ≤ x.units ∧ x.units % 2 ^ 31 ≠ 0 ∧ ¬x.refused ∧ NoNul x

/-- The strings are longer than the block, and no NUL stops the copy before its end. -/
def Overruns (x : Args) : Prop :=
  x.blockCap.toNat < x.units ∧ ¬x.refused ∧ ∀ i ≤ x.blockCap.toNat, x.text i ≠ 0

/-! ### Copying -/

variable {s : Nat → BitVec 16} {k i n : Nat} {out : Nat → BitVec 16}

theorem copy_snd (hn : n < 2 ^ 32) : (copy s k i n out).2 =
    if ∀ j < k, s (i + j) ≠ 0 then some ((n + k) % 2 ^ 32) else none := by
  induction k generalizing i n out with
  | zero => rw [copy, if_pos (fun j hj => absurd hj (Nat.not_lt_zero j)), Nat.add_zero, Nat.mod_eq_of_lt hn]
  | succ k ih =>
    rw [copy]
    split
    · rename_i hz
      rw [if_neg fun h => h 0 (Nat.succ_pos k) hz]
    · rename_i hz
      rw [ih (Nat.mod_lt _ (Nat.two_pow_pos 32))]
      have hiff : (∀ j < k, s (i + 1 + j) ≠ 0) ↔ ∀ j < k + 1, s (i + j) ≠ 0 := by
        constructor
        · intro h j hj
          cases j with
          | zero => exact hz
          | succ j =>
            have := h j (by omega)
            rwa [Nat.add_assoc, Nat.add_comm 1 j] at this
        · intro h j hj
          rw [Nat.add_assoc, Nat.add_comm 1 j]
          exact h (j + 1) (by omega)
      have hmod : ((n + 1) % 2 ^ 32 + k) % 2 ^ 32 = (n + (k + 1)) % 2 ^ 32 := by omega
      rw [hmod]
      exact if_congr hiff rfl rfl

theorem copy_fst (hn : n + k ≤ 2 ^ 32) (h : ∀ j < k, s (i + j) ≠ 0) (p : Nat) :
    (copy s k i n out).1 p = if n ≤ p ∧ p < n + k then s (i + (p - n)) else out p := by
  induction k generalizing i n out with
  | zero => rw [copy, if_neg (by omega)]
  | succ k ih =>
    have hz : s i ≠ 0 := h 0 (Nat.succ_pos k)
    rw [copy, if_neg hz]
    cases k with
    | zero =>
      rw [copy]
      dsimp only
      by_cases hp : p = n
      · subst hp
        rw [if_pos (by omega), update_self, Nat.sub_self]
        rfl
      · rw [if_neg (by omega), update_of_ne hp]
    | succ k =>
      rw [Nat.mod_eq_of_lt (by omega), ih (by omega) fun j hj => by
        have := h (j + 1) (by omega)
        rwa [Nat.add_assoc, Nat.add_comm 1 j]]
      by_cases hp : n + 1 ≤ p ∧ p < n + 1 + (k + 1)
      · rw [if_pos hp, if_pos (by omega)]
        exact congrArg s (by omega)
      · rw [if_neg hp]
        by_cases hpn : p = n
        · subst hpn
          rw [if_pos (by omega), update_self, Nat.sub_self]
          rfl
        · rw [if_neg (by omega), update_of_ne hpn]

theorem copy_append {m : Nat} : copy s (k + m) i n out = match copy s k i n out with
    | (out, none) => (out, none)
    | (out, some n) => copy s m (i + k) n out := by
  induction k generalizing i n out with
  | zero => rw [Nat.zero_add, copy, Nat.add_zero]
  | succ k ih =>
    rw [Nat.succ_add, copy, copy]
    split
    · rfl
    · rw [ih, Nat.add_right_comm, Nat.add_assoc i k 1]

theorem copy_congr {s' : Nat → BitVec 16} {i' : Nat} (h : ∀ j < k, s (i + j) = s' (i' + j)) :
    copy s k i n out = copy s' k i' n out := by
  induction k generalizing i i' n out with
  | zero => rfl
  | succ k ih =>
    have h0 : s i = s' i' := h 0 (Nat.succ_pos k)
    rw [copy, copy, h0, ih fun j hj => ?_]
    have := h (j + 1) (by omega)
    rwa [Nat.add_assoc, Nat.add_assoc, Nat.add_comm 1 j]

theorem copy_frame {p : Nat} (hn : n < 2 ^ 32)
    (h : ∀ j < k, (∀ l ≤ j, s (i + l) ≠ 0) → (n + j) % 2 ^ 32 ≠ p) : (copy s k i n out).1 p = out p := by
  induction k generalizing i n out with
  | zero => rfl
  | succ k ih =>
    rw [copy]
    split
    · rfl
    · rename_i hz
      have hne : n ≠ p := by
        have := h 0 (Nat.succ_pos k) fun l hl => by rwa [Nat.le_zero.1 hl]
        rwa [Nat.add_zero, Nat.mod_eq_of_lt hn] at this
      rw [ih (Nat.mod_lt _ (Nat.two_pow_pos 32)), update_of_ne hne.symm]
      intro j hj hnul
      rw [Nat.mod_add_mod, Nat.add_assoc, Nat.add_comm 1 j]
      refine h (j + 1) (by omega) fun l hl => ?_
      cases l with
      | zero => exact hz
      | succ l =>
        have := hnul l (by omega)
        rwa [Nat.add_assoc, Nat.add_comm 1 l] at this

theorem copy_nonzero {p : Nat} (h : out p ≠ 0) : (copy s k i n out).1 p ≠ 0 := by
  induction k generalizing i n out with
  | zero => exact h
  | succ k ih =>
    rw [copy]
    split
    · exact h
    · rename_i hz
      apply ih
      by_cases hp : p = n
      · rwa [hp, update_self]
      · rwa [update_of_ne hp]

/-- A unit that the copy reaches is written. -/
theorem copy_hits {j : Nat} (hn : n < 2 ^ 32) (hj : j < k) (h : ∀ l ≤ j, s (i + l) ≠ 0) :
    (copy s k i n out).1 ((n + j) % 2 ^ 32) ≠ 0 := by
  induction j generalizing k i n out with
  | zero =>
    cases k with
    | zero => exact absurd hj (Nat.not_lt_zero 0)
    | succ k =>
      have hz : s i ≠ 0 := h 0 le_rfl
      rw [copy, if_neg hz, Nat.add_zero n, Nat.mod_eq_of_lt hn]
      apply copy_nonzero
      rwa [update_self]
  | succ j ih =>
    cases k with
    | zero => exact absurd hj (Nat.not_lt_zero _)
    | succ k =>
      have hz : s i ≠ 0 := h 0 (Nat.zero_le _)
      rw [copy, if_neg hz, Nat.add_comm j, ← Nat.add_assoc, ← Nat.mod_add_mod (n + 1)]
      refine ih (Nat.mod_lt _ (Nat.two_pow_pos 32)) (Nat.lt_of_succ_lt_succ hj) fun l hl => ?_
      rw [Nat.add_assoc, Nat.add_comm 1 l]
      exact h (l + 1) (by omega)

/-! ### Packing -/

variable {x : Args}

/-- The three copies are one of the concatenation. -/
theorem pack_eq : x.pack =
    if x.refused then ⟨x.blockOut.units, none⟩
    else ⟨(copy x.text x.units 0 0 x.blockOut.units).1,
      (copy x.text x.units 0 0 x.blockOut.units).2.map fun _ => x.header⟩ := by
  have hpath : ∀ j < x.pathChars.toNat, x.text (0 + j) = x.path.units (0 + j) := by
    intro j hj
    rw [Args.text, if_pos (by omega)]
  have hcmd : ∀ j < x.cmdlineChars.toNat,
      x.text (0 + x.pathChars.toNat + j) = x.cmdline.units (0 + j) := by
    intro j hj
    rw [Args.text, if_neg (by omega), if_pos (by omega)]
    exact congrArg _ (by omega)
  have hcwd : ∀ j < x.cwdChars.toNat,
      x.text (0 + (x.pathChars.toNat + x.cmdlineChars.toNat) + j) = x.cwd.units (0 + j) := by
    intro j hj
    rw [Args.text, if_neg (by omega), if_neg (by omega)]
    exact congrArg _ (by omega)
  rw [Args.pack, Args.units, copy_append, copy_append, copy_congr hpath]
  split
  · rfl
  rcases copy x.path.units x.pathChars.toNat 0 0 x.blockOut.units with ⟨out, _ | n⟩
  · rfl
  dsimp only
  rw [copy_congr hcmd]
  rcases copy x.cmdline.units x.cmdlineChars.toNat 0 n out with ⟨out, _ | n⟩
  · rfl
  dsimp only
  rw [copy_congr hcwd]
  rcases copy x.cwd.units x.cwdChars.toNat 0 n out with ⟨out, _ | n⟩ <;> rfl

theorem refused_block (old : Nat → BitVec 16) (h : x.blockOut.isSome) :
    { x with blockOut := some old }.refused ↔ x.refused := by
  obtain ⟨b, hb⟩ := Option.isSome_iff_exists.1 h
  unfold Args.refused
  rw [hb]
  exact Iff.rfl

theorem copy_text_snd (out : Nat → BitVec 16) : (copy x.text x.units 0 0 out).2 =
    if NoNul x then some (x.units % 2 ^ 32) else none := by
  rw [copy_snd (Nat.two_pow_pos 32)]
  simp only [Nat.zero_add]

theorem pack_some {h : Header} (hp : x.pack.header = some h) : ¬x.refused ∧ NoNul x ∧ h = x.header := by
  rw [pack_eq] at hp
  split at hp
  · cases hp
  · rename_i href
    rw [copy_text_snd] at hp
    split at hp
    · exact ⟨href, ‹_›, (Option.some.inj hp).symm⟩
    · cases hp

theorem pack_of_noNul (href : ¬x.refused) (hn : NoNul x) : x.pack.header = some x.header ∧
    (x.units ≤ 2 ^ 32 → ∀ i, x.pack.block i = if i < x.units then x.text i else x.blockOut.units i) := by
  rw [pack_eq, if_neg href]
  constructor
  · rw [copy_text_snd, if_pos hn]
    rfl
  · intro hle i
    dsimp only
    rw [copy_fst (by omega) fun j hj => by rw [Nat.zero_add]; exact hn j hj, Nat.zero_add, Nat.zero_add,
      Nat.sub_zero]
    exact if_congr ⟨And.right, And.intro (Nat.zero_le i)⟩ rfl rfl

/-- A copy that a NUL or the end of the strings stops before the capacity stays in the block. -/
theorem contained_of (h : ¬Overruns x) : Contained x := by
  intro hsome old i hi
  rw [pack_eq]
  split
  · rfl
  · rename_i href
    apply copy_frame (Nat.two_pow_pos 32)
    intro j hj hnul
    by_contra hhit
    have hle : x.blockCap.toNat ≤ j := by
      by_contra hlt
      have := x.blockCap.isLt
      rw [Nat.zero_add, Nat.mod_eq_of_lt (by omega)] at hhit
      omega
    refine h ⟨Nat.lt_of_le_of_lt hle hj, fun hr => href ((refused_block old hsome).2 hr), fun l hl => ?_⟩
    have := hnul l (hl.trans hle)
    rwa [Nat.zero_add] at this

/-- Over a block of zeros a unit written behind the capacity is seen. -/
theorem not_contained_of (h : Overruns x) : ¬Contained x := by
  obtain ⟨hlt, href, hnul⟩ := h
  intro hc
  have hsome : x.blockOut.isSome := by
    rw [← Option.not_isNone, Bool.not_eq_true', ← Bool.not_eq_true]
    intro hnone
    exact href (.inr (.inr (.inr (.inr (.inr (.inr (.inr (.inl hnone))))))))
  have hzero := hc hsome (fun _ => 0) x.blockCap.toNat le_rfl
  rw [pack_eq, if_neg fun hr => href ((refused_block _ hsome).1 hr)] at hzero
  refine absurd hzero ?_
  have hunits : ∀ l ≤ x.blockCap.toNat, x.text (0 + l) ≠ 0 := fun l hl => by
    rw [Nat.zero_add]
    exact hnul l hl
  have hhit : (copy x.text _ 0 0 fun _ => 0).1 _ ≠ 0 := copy_hits (Nat.two_pow_pos 32) hlt hunits
  rwa [Nat.zero_add, Nat.mod_eq_of_lt x.blockCap.isLt] at hhit

/-- What a size that is returned means. -/
theorem ret_ne_zero (h : x.pack.ret ≠ 0) : ¬x.refused ∧ NoNul x ∧ x.pack.header = some x.header ∧
    x.pack.ret = x.total * 2 % 2 ^ 32 ∧ x.units % 2 ^ 31 ≠ 0 := by
  rw [Packed.ret] at h
  rcases hh : x.pack.header with _ | hdr
  · rw [hh] at h
    exact absurd rfl h
  rw [hh] at h
  obtain ⟨href, hn, rfl⟩ := pack_some hh
  have hret : x.pack.ret = x.total * 2 % 2 ^ 32 := by rw [Packed.ret, hh, Args.header]
  refine ⟨href, hn, rfl, hret, ?_⟩
  dsimp only [Args.header] at h
  rw [Args.total] at h
  rw [Args.units]
  omega

/-! ### Checking -/

theorem unitsOk_of_holds {m : Memory} {off n : Nat} (h : Holds m off n x.text) (hn : ∀ i < n, x.text i ≠ 0) :
    unitsOk m off n = true := by
  rw [unitsOk, List.all_eq_true]
  intro i hi
  have hlt := List.mem_range.1 hi
  rw [decide_eq_true_eq, h i hlt]
  exact fun hz => hn i hlt (BitVec.eq_of_toNat_eq hz)

/-- The limits in the terms of the receiver. -/
theorem Args.Fits.header (h : x.Fits) : x.header = ⟨0, x.pathChars.toNat, x.cmdlineChars.toNat, x.cwdChars.toNat, 0,
    x.units * 2⟩ := by
  obtain ⟨⟨-, hpath⟩, hcwd, hbytes, -⟩ := h
  rw [Args.units] at hbytes ⊢
  rw [Args.header, Args.total]
  simp only [SHZ_W64_MAX_PATH_CHARS, SHZ_W64_MAX_ARGS_BYTES] at hpath hcwd hbytes
  rw [Nat.mod_eq_of_lt (by omega : x.pathChars.toNat < 2 ^ 16), Nat.mod_eq_of_lt (by omega : x.cmdlineChars.toNat < 2 ^ 16),
    Nat.mod_eq_of_lt (by omega : x.cwdChars.toNat < 2 ^ 16),
    Nat.mod_eq_of_lt (by omega : x.pathChars.toNat + x.cmdlineChars.toNat + x.cwdChars.toNat < 2 ^ 32),
    Nat.mod_eq_of_lt (by omega : (x.pathChars.toNat + x.cmdlineChars.toNat + x.cwdChars.toNat) * 2 < 2 ^ 32)]

theorem check_of_fits (hfit : x.Fits) {payload : Memory} (hread : Header.read payload = x.header) (m : MsgHdr)
    (region : Option Memory) (see : Nat → BitVec 8) (hlen : createSize ≤ m.payloadLength.toNat) :
    check m payload region see =
      if m.flags.toNat / SHZ_MSGF_BUFFER % 2 = 1 then
        match region with
        | none => ⟨.invalid, x.header, (payload, createSize)⟩
        | some r =>
          if m.bufferLength.toNat ≠ x.units * 2 ∨ m.payloadLength.toNat ≠ createSize then
            ⟨.invalid, x.header, (payload, createSize)⟩
          else if (Region.poolCheck r m.bufferOffset.toNat m.bufferLength.toNat m.srcDomain.toNat see).2 ≠ .ok then
            ⟨.denied, x.header, (payload, createSize)⟩
          else if unitsOk r m.bufferOffset.toNat x.units then ⟨.ok, x.header, (r, m.bufferOffset.toNat)⟩
          else ⟨.invalid, x.header, (payload, createSize)⟩
      else if m.bufferLength ≠ 0 ∨ m.payloadLength.toNat ≠ createSize + x.units * 2 then
        ⟨.invalid, x.header, (payload, createSize)⟩
      else if unitsOk payload createSize x.units then ⟨.ok, x.header, (payload, createSize)⟩
      else ⟨.invalid, x.header, (payload, createSize)⟩ := by
  have hhead := hfit.header
  obtain ⟨⟨hpos, hpath⟩, hcwd, hbytes, -⟩ := hfit
  rw [check.eq_def, hread, hhead]
  dsimp only
  rw [if_neg (by omega), if_neg, if_neg (by omega)]
  · rfl
  · rw [Args.units]
    rintro (h | h | h | h | h | h)
    · exact h rfl
    · exact h rfl
    · omega
    · omega
    · omega
    · exact h rfl

theorem roundTrip_of_ret (h : x.pack.ret ≠ 0) (hw : ¬Wraps x) : RoundTrip x := by
  obtain ⟨href, hn, hhead, hret, hmod⟩ := ret_ne_zero h
  have hlt : x.units < 2 ^ 31 := Nat.lt_of_not_le fun hle => hw ⟨hle, hmod, href, hn⟩
  have htotal : x.total = x.units := by
    rw [Args.total, ← Args.units, Nat.mod_eq_of_lt (by omega)]
  have hfit : x.Fits := by
    rw [Args.refused, htotal, Nat.mod_eq_of_lt (by omega : x.units * 2 < 2 ^ 32)] at href
    simp only [not_or, Nat.not_lt] at href
    obtain ⟨-, hpos, hpath, hcwd, -, -, hbytes, -, hcap⟩ := href
    have hne : x.pathChars.toNat ≠ 0 := fun hz => hpos (BitVec.eq_of_toNat_eq hz)
    exact ⟨⟨by omega, hpath⟩, hcwd, hbytes, hcap⟩
  have hblock := (pack_of_noNul href hn).2 (by omega)
  have htext : ∀ m off, Holds m off x.units x.pack.block → Holds m off x.units x.text := by
    intro m off hm i hi
    rw [hm i hi, hblock i, if_pos hi]
  have hheader := hfit.header
  refine ⟨hfit, hn, hblock, fun hpool m payload region see hb hunits hflag hbuf hlen => ?_,
    fun hpool m payload r see hb hunits hflag hbuf hlen hown => ?_⟩
  · rw [Brings, hhead] at hb
    have hheld := htext _ _ hunits
    rw [check_of_fits hfit (Option.some.inj hb).symm m region see (by omega), if_neg (by omega), if_neg,
      if_pos (unitsOk_of_holds hheld hn), hheader]
    · exact ⟨rfl, rfl, rfl, rfl, hheld⟩
    · rintro (hb | hl)
      · exact hb hbuf
      · omega
  · rw [Brings, hhead] at hb
    have hheld := htext _ _ hunits
    rw [check_of_fits hfit (Option.some.inj hb).symm m (some r) see (by omega), if_pos hflag]
    dsimp only
    rw [if_neg, if_neg (not_not.2 hown), if_pos (unitsOk_of_holds hheld hn), hheader]
    · exact ⟨rfl, rfl, rfl, rfl, hheld⟩
    · rintro (hb | hl)
      · omega
      · exact hl hlen

theorem sound_of_check {m : MsgHdr} {payload : Memory} {region : Option Memory} {see : Nat → BitVec 8}
    (h : (check m payload region see).status = .ok) : Sound m region see (check m payload region see) := by
  have hhead : (check m payload region see).header = Header.read payload := by
    rw [check.eq_def]
    dsimp only
    repeat' split
    all_goals rfl
  rw [Sound, hhead]
  rw [check.eq_def] at h
  dsimp only at h
  split at h
  · cases h
  split at h
  · cases h
  rename_i hfields
  split at h
  · cases h
  simp only [not_or, not_not, Nat.not_lt] at hfields
  obtain ⟨-, -, hpos, hpath, hcwd, hblock⟩ := hfields
  refine ⟨Nat.pos_of_ne_zero hpos, hpath, hcwd, by omega, ?_⟩
  split at h
  · rename_i hflag
    rw [if_pos hflag]
    split at h
    · cases h
    rename_i r
    split at h
    · cases h
    split at h
    · cases h
    rename_i hown
    exact ⟨by omega, r, rfl, not_not.1 hown⟩
  · rename_i hflag
    rw [if_neg hflag]
    split at h
    · cases h
    omega

/-- Lengths that wrap are packed, although they are over the limit. -/
theorem wraps_packed (hw : Wraps x) : x.pack.ret ≠ 0 ∧ ¬RoundTrip x := by
  obtain ⟨hle, hmod, href, hn⟩ := hw
  refine ⟨?_, fun h => ?_⟩
  · rw [Packed.ret, (pack_of_noNul href hn).1]
    dsimp only [Args.header]
    rw [Args.total]
    rw [Args.units] at hmod
    omega
  · have := h.fits.bytes
    rw [SHZ_W64_MAX_ARGS_BYTES] at this
    omega

/-- **CREATE_PROCESS round trips.**  A pack keeps its promise and stays in the block exactly if its lengths do not
wrap and its copy does not overrun the block; and an accepted message is sound. -/
theorem create_round_trips (x : Args) (m : MsgHdr) (payload : Memory) (region : Option Memory) (see : Nat → BitVec 8) :
    ((x.pack.ret ≠ 0 → RoundTrip x) ∧ Contained x ↔ ¬Wraps x ∧ ¬Overruns x) ∧
      ((check m payload region see).status = .ok → Sound m region see (check m payload region see)) := by
  refine ⟨⟨fun ⟨hround, hin⟩ => ⟨fun hw => ?_, fun ho => not_contained_of ho hin⟩, fun ⟨hw, ho⟩ => ?_⟩,
    sound_of_check⟩
  · exact (wraps_packed hw).2 (hround (wraps_packed hw).1)
  · exact ⟨fun h => roundTrip_of_ret h hw, contained_of ho⟩

/-- A path of one unit with a command line of `2 ^ 31`, all of them the letter A. -/
def longCommand : Args :=
  ⟨some fun _ => 65, 1, some fun _ => 65, 0x80000000, none, 0, some fun _ => 0, 0x80000001⟩

/-- `2 ^ 32 + 1` units with a NUL at the seventh, and a block of three. -/
def shortBlock : Args :=
  ⟨some fun _ => 65, 1, some fun i => if i = 5 then 0 else 65, 0xffffffff, some fun _ => 65, 1, some fun _ => 0, 3⟩

/-- The long command is packed, and the other one is refused after three units behind the block were written. -/
theorem long_command_packs : (longCommand.pack.ret ≠ 0 ∧ ¬RoundTrip longCommand) ∧
    shortBlock.pack.ret = 0 ∧ ¬Contained shortBlock := by
  refine ⟨wraps_packed ⟨by decide, by decide, by decide, fun i _ => ?_⟩, ?_, not_contained_of ⟨by decide, by decide, ?_⟩⟩
  · rw [Args.text]
    split
    · exact (by decide : (65 : BitVec 16) ≠ 0)
    · rename_i hi
      rw [if_pos]
      · exact (by decide : (65 : BitVec 16) ≠ 0)
      · assumption
  · rw [Packed.ret, pack_eq, if_neg (by decide), copy_snd (Nat.two_pow_pos 32), if_neg]
    · rfl
    · exact fun h => h 6 (by decide) rfl
  · decide

end Win98Modern.Shz.Create
