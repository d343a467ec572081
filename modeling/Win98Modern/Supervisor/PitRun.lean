import Mathlib.Data.Nat.GCD.Basic
import Win98Modern.Supervisor.Pit

/-!
# The timer is exact for the first hours

Every scaling of the time stamp counter is one floor over the integers (`scale`).  The counters
outside the native mode 0 multiply first: they are right for every count to load exactly while
the product fits 64 bits (`exact_iff`).
-/

namespace Win98Modern.Pit

section Scale

variable {hz elapsed : U64} {rate : Nat}

theorem pos_of_le (hlo : PIT_HZ ≤ hz) : 0 < hz.toNat := by
  have h := BitVec.le_def.mp hlo
  rw [toNat_pit_hz] at h
  omega

theorem toNat_le (hhi : hz ≤ 0x400000000) : hz.toNat ≤ 0x400000000 := by
  simpa using BitVec.le_def.mp hhi

theorem le_scale {hz e t : Nat} (hhz : 0 < hz) : t ≤ scale hz e rate ↔ t * hz ≤ e * rate :=
  Nat.le_div_iff_mul_le hhz

/-- Whole multiples of the frequency come out whole. -/
theorem scale_split (hz e : Nat) (hhz : 0 < hz) :
    scale hz e rate = e / hz * rate + scale hz (e % hz) rate := by
  have hmul : e * rate = e % hz * rate + hz * (e / hz * rate) := by
    conv_lhs => rw [← Nat.mod_add_div e hz]
    rw [Nat.add_mul, Nat.mul_assoc]
  rw [scale, hmul, Nat.add_mul_div_left _ _ hhz, Nat.add_comm]
  rfl

theorem scale_lt {hz e : Nat} (he : e < hz) (hr : 0 < rate) : scale hz e rate < rate :=
  (Nat.div_lt_iff_lt_mul (Nat.zero_lt_of_lt he)).mpr
    (by rw [Nat.mul_comm rate]; exact Nat.mul_lt_mul_of_pos_right he hr)

end Scale

section Native

variable {hz elapsed now : U64} {c : PitCh}

/-- `native_pit_ticks_tsc` rounds up: it does not overflow, and it is below `x` exactly where
the ticks are below the floor. -/
theorem nativePitTicksTsc_le (hhi : hz ≤ 0x400000000) {t : Nat} (ht : t ≤ 2 ^ 21) (x : U64) :
    nativePitTicksTsc hz t ≤ x ↔ t * hz.toNat ≤ x.toNat * 1193182 := by
  have hh := toNat_le hhi
  have hsplit : t * hz.toNat = t * (hz.toNat / 1193182) * 1193182 + t * (hz.toNat % 1193182) := by
    conv_lhs => rw [← Nat.div_add_mod hz.toNat 1193182]
    rw [Nat.mul_add, Nat.mul_comm 1193182, Nat.mul_assoc]
  have hwhole : t * (hz.toNat / 1193182) ≤ 2 ^ 21 * 0x400000000 :=
    Nat.mul_le_mul ht ((Nat.div_le_self _ _).trans hh)
  have hrest : t * (hz.toNat % 1193182) ≤ 2 ^ 21 * 1193182 :=
    Nat.mul_le_mul ht (Nat.mod_lt _ (by decide)).le
  have hticks : (BitVec.ofNat 64 t).toNat = t := by
    rw [BitVec.toNat_ofNat, Nat.mod_eq_of_lt (by omega)]
  have hone : (1 : U64).toNat = 1 := by decide
  rw [BitVec.le_def, hsplit, nativePitTicksTsc, BitVec.toNat_add, BitVec.toNat_mul, BitVec.toNat_udiv,
    BitVec.toNat_udiv, BitVec.toNat_sub, BitVec.toNat_add, BitVec.toNat_mul, BitVec.toNat_umod, hticks,
    hone, toNat_pit_hz]
  omega

/-- The search finds the ticks of the last, incomplete second. -/
theorem nativePitTicksMod_eq (hlo : PIT_HZ ≤ hz) (hhi : hz ≤ 0x400000000) (elapsed : U64) :
    nativePitTicksMod hz elapsed = .ofNat 16 (scale hz.toNat elapsed.toNat 1193182) := by
  have hhz := pos_of_le hlo
  have hrem := Nat.mod_lt elapsed.toNat hhz
  have hlt : scale hz.toNat (elapsed.toNat % hz.toNat) 1193182 < 1193182 := scale_lt hrem (by decide)
  have hsearch : bisect (fun mid => nativePitTicksTsc hz mid ≤ elapsed % hz) 0 1193181 =
      scale hz.toNat (elapsed.toNat % hz.toNat) 1193182 := by
    refine bisect_eq (fun m hm => ?_) (Nat.zero_le _) (by omega)
    rw [decide_eq_true_eq, nativePitTicksTsc_le hhi (by omega), le_scale hhz, BitVec.toNat_umod]
  have hmod : (PIT_HZ % 65536).toNat = 13534 := by decide
  have hfull : (65536 : U64).toNat = 65536 := by decide
  apply BitVec.eq_of_toNat_eq
  rw [scale_split _ _ hhz, nativePitTicksMod, hsearch, BitVec.toNat_setWidth, BitVec.toNat_add, BitVec.toNat_mul,
    BitVec.toNat_umod, BitVec.toNat_udiv, BitVec.toNat_ofNat, BitVec.toNat_ofNat, hmod, hfull]
  omega

/-- A channel in mode 0 counts at `t`: what it has counted before fits. -/
structure Counts (c : PitCh) (t : U64) : Prop where
  mode : c.mode = 0
  running : c.running = true
  used : c.mode0ElapsedTsc ≤ c.startTsc
  start : c.startTsc ≤ t

/-- The sum of the elapsed time does not saturate. -/
theorem Counts.toNat_elapsed {t : U64} (h : Counts c t) : (nativePitElapsed c t).toNat =
    c.mode0ElapsedTsc.toNat + if c.gate then t.toNat - c.startTsc.toNat else 0 := by
  obtain ⟨-, hrun, hused, hstart⟩ := h
  cases hg : c.gate with
  | false => simp [nativePitElapsed, hrun, hg]
  | true =>
    have hfit : ¬t - c.startTsc > UINT64_MAX - c.mode0ElapsedTsc := by
      have := toNat_uint64_max
      bv_omega
    simp only [nativePitElapsed, hrun, hg, Bool.not_true, if_neg hfit, Bool.false_eq_true, if_false, if_true]
    bv_omega

theorem Counts.gate {t t' : U64} (h : Counts c t) (ht : t ≤ t') (g : Bool) :
    Counts (nativePitGate true c g t') t' ∧ (nativePitGate true c g t').gate = g ∧
      (nativePitElapsed (nativePitGate true c g t') t').toNat =
        (nativePitElapsed c t).toNat + if c.gate then t'.toNat - t.toNat else 0 := by
  have hstart := h.start
  have hused := h.used
  have h' : Counts c t' := ⟨h.mode, h.running, hused, BitVec.le_trans hstart ht⟩
  have hmore : (nativePitElapsed c t').toNat =
      (nativePitElapsed c t).toNat + if c.gate then t'.toNat - t.toNat else 0 := by
    rw [h'.toNat_elapsed, h.toNat_elapsed]
    split <;> bv_omega
  unfold nativePitGate
  by_cases hg : g = c.gate
  · rw [if_neg (by simp [hg]), ← hmore]
    subst hg
    exact ⟨h', rfl, rfl⟩
  · rw [if_pos ⟨rfl, h.mode, hg⟩, ← hmore]
    have hle : nativePitElapsed c t' ≤ t' := by
      rw [BitVec.le_def, h'.toNat_elapsed]
      split <;> bv_omega
    have hnew : Counts { c with mode0ElapsedTsc := nativePitElapsed c t', startTsc := t', gate := g } t' :=
      ⟨h.mode, h.running, hle, BitVec.le_refl _⟩
    refine ⟨hnew, rfl, ?_⟩
    rw [hnew.toNat_elapsed]
    simp

theorem Counts.gates {t : U64} (h : Counts c t) {es : List (U64 × Bool)}
    (hes : (t :: (es.map Prod.fst ++ [now])).Pairwise (· ≤ ·)) :
    Counts (gates c es) now ∧ (nativePitElapsed (Pit.gates c es) now).toNat =
        (nativePitElapsed c t).toNat + highTime c.gate t es now := by
  induction es generalizing c t with
  | nil =>
    have ht : t ≤ now := by simpa using hes
    have hn : Counts c now := ⟨h.mode, h.running, h.used, BitVec.le_trans h.start ht⟩
    refine ⟨hn, ?_⟩
    have hstart := h.start
    show (nativePitElapsed c now).toNat = _
    rw [hn.toNat_elapsed, h.toNat_elapsed, highTime]
    split <;> bv_omega
  | cons e es ih =>
    obtain ⟨hle, hes⟩ := List.pairwise_cons.mp hes
    obtain ⟨hc, hgate, helapsed⟩ := h.gate (hle e.1 (by simp)) e.2
    obtain ⟨hn, hsum⟩ := ih hc hes
    refine ⟨hn, ?_⟩
    show (nativePitElapsed (Pit.gates _ es) now).toNat = _
    rw [hsum, helapsed, hgate, highTime, Nat.add_assoc]

theorem ofNat_sub_ofNat (a b : Nat) : BitVec.ofNat 16 a - .ofNat 16 b = .ofInt 16 (a - b) := by
  rw [Int.sub_eq_add_neg, BitVec.ofInt_add, BitVec.ofInt_neg, BitVec.ofInt_natCast, BitVec.ofInt_natCast,
    BitVec.sub_eq_add_neg]

theorem Counts.exact (hlo : PIT_HZ ≤ hz) (hhi : hz ≤ 0x400000000) (h : Counts c now) :
    pitCounter hz true 2 c now =
        .ofInt 16 (c.reload - (scale hz.toNat (nativePitElapsed c now).toNat 1193182 : Nat)) ∧
      (nativeOut hz c now = true ↔ c.reload ≤ scale hz.toNat (nativePitElapsed c now).toNat 1193182) := by
  have hle := c.reload_le
  constructor
  · simp only [pitCounter, nativeMode0, h.mode, h.running, nativePitTicksMod_eq hlo hhi,
      beq_self_eq_true, Bool.and_true, if_true, Bool.not_true, Bool.false_eq_true, if_false]
    exact ofNat_sub_ofNat _ _
  · rw [nativeOut, h.running, Bool.true_and, decide_eq_true_eq,
      nativePitTicksTsc_le hhi (by omega), le_scale (pos_of_le hlo)]

end Native

section Exact

variable {hz elapsed now : U64} {c : PitCh}

theorem clock_exact (hlo : PIT_HZ ≤ hz) (hhi : hz ≤ 0x400000000) (elapsed : U64) :
    shzClockTicksNs elapsed hz true =
      if scale hz.toNat elapsed.toNat 1000000000 ≤ INT64_MAX.toNat then
        .ok (.ofNat 64 (scale hz.toNat elapsed.toNat 1000000000))
      else .error .range := by
  have hhz := pos_of_le hlo
  have hh := toNat_le hhi
  have hrem := Nat.mod_lt elapsed.toNat hhz
  have hf : (elapsed % hz * SHZ_CLOCK_FREQUENCY / hz).toNat =
      scale hz.toNat (elapsed.toNat % hz.toNat) 1000000000 := by
    rw [scale, BitVec.toNat_udiv, BitVec.toNat_mul, BitVec.toNat_umod, toNat_frequency,
      Nat.mod_eq_of_lt (by omega)]
  have hsec : (elapsed / hz).toNat = elapsed.toNat / hz.toNat := BitVec.toNat_udiv
  have hne : ¬((!true) = true ∨ hz = 0) := by
    rintro (h | rfl)
    · cases h
    · exact absurd hhz (Nat.lt_irrefl 0)
  have hfreq : ¬hz > UINT64_MAX / SHZ_CLOCK_FREQUENCY := by
    rw [gt_iff_lt, BitVec.lt_def, BitVec.toNat_udiv, toNat_uint64_max, toNat_frequency]
    omega
  rw [scale_split _ _ hhz, ← hsec, ← hf]
  unfold shzClockTicksNs
  rw [if_neg hne, if_neg hfreq]
  generalize elapsed % hz * SHZ_CLOCK_FREQUENCY / hz = f at *
  generalize elapsed / hz = s at *
  have hmax := toNat_int64_max
  by_cases hs : s > INT64_MAX / SHZ_CLOCK_FREQUENCY
  · rw [if_pos hs, if_neg]
    rw [gt_iff_lt, BitVec.lt_def, BitVec.toNat_udiv, hmax, toNat_frequency] at hs
    omega
  · rw [if_neg hs]
    rw [gt_iff_lt, BitVec.lt_def, BitVec.toNat_udiv, hmax, toNat_frequency] at hs
    have hns : (s * SHZ_CLOCK_FREQUENCY).toNat = s.toNat * 1000000000 := by
      rw [BitVec.toNat_mul, toNat_frequency]
      omega
    by_cases hbig : f > INT64_MAX - s * SHZ_CLOCK_FREQUENCY
    · rw [if_pos hbig, if_neg]
      bv_omega
    · rw [if_neg hbig, if_pos]
      · congr 1
        apply BitVec.eq_of_toNat_eq
        rw [BitVec.toNat_add, hns, BitVec.toNat_ofNat]
      · bv_omega

/-- The ticks as `pit_counter` computes them outside the native mode 0. -/
def wrapped (hz elapsed : Nat) : Nat := elapsed * 1193182 % 2 ^ 64 / hz

theorem pitCounter_eq (hlo : PIT_HZ ≤ hz) {nativeWin98 : Bool} {n : Fin 3}
    (hmode : nativeMode0 nativeWin98 n c = false) (hrun : c.running = true) (he : now - c.startTsc = elapsed) :
    pitCounter hz nativeWin98 n c now = .ofNat 16 (c.reload -
      wrapped hz.toNat elapsed.toNat * (if c.mode = 3 then 2 else 1) % c.reload) := by
  have hticks : (elapsed * PIT_HZ / hz).toNat = wrapped hz.toNat elapsed.toNat := by
    rw [BitVec.toNat_udiv, BitVec.toNat_mul, toNat_pit_hz, wrapped]
  have hlt : wrapped hz.toNat elapsed.toNat < 2 ^ 63 := by
    have hz2 : 2 ≤ hz.toNat := by
      have h := BitVec.le_def.mp hlo
      rw [toNat_pit_hz] at h
      omega
    have hmod : elapsed.toNat * 1193182 % 2 ^ 64 < 2 ^ 64 := Nat.mod_lt _ (by decide)
    exact Nat.div_lt_of_lt_mul (Nat.lt_of_lt_of_le hmod (Nat.mul_le_mul_right (2 ^ 63) hz2))
  have htwice : (elapsed * PIT_HZ / hz * 2).toNat = wrapped hz.toNat elapsed.toNat * 2 := by
    rw [BitVec.toNat_mul, hticks, show (2 : U64).toNat = 2 from rfl]
    exact Nat.mod_eq_of_lt (by omega)
  simp only [pitCounter, hmode, hrun, he, Bool.false_eq_true, if_false, Bool.not_true, hticks, htwice]
  split <;> simp

theorem ofInt_sub_mod {r : Nat} (hr : 0 < r) (x : Nat) :
    BitVec.ofInt 16 (r - (x % r : Nat)) = .ofNat 16 (r - x % r) := by
  rw [← Int.ofNat_sub (Nat.mod_lt x hr).le, BitVec.ofInt_natCast]

/-- A counter that counts `reload` down from `reload` tells the ticks apart. -/
theorem mod_eq_of_counter {r a b : Nat} (hr : 0 < r) (hle : r ≤ 65536)
    (h : BitVec.ofNat 16 (r - a % r) = .ofNat 16 (r - b % r)) : a % r = b % r := by
  have ha := Nat.mod_lt a hr
  have hb := Nat.mod_lt b hr
  have h' := congrArg BitVec.toNat h
  rw [BitVec.toNat_ofNat, BitVec.toNat_ofNat] at h'
  omega

theorem eq_of_mods {a b : Nat} (hab : b ≤ a) (ha : a < 2 ^ 64)
    (h : ∀ r, 0 < r → r ≤ 65536 → a % r = b % r) : a = b := by
  have hdvd : ∀ r, 0 < r → r ≤ 65536 → r ∣ a - b := fun r hpos hle =>
    Nat.dvd_of_mod_eq_zero (Nat.sub_mod_eq_zero_of_mod_eq (h r hpos hle))
  have h₂ : 65536 * 65535 ∣ a - b :=
    Nat.Coprime.mul_dvd_of_dvd_of_dvd (by decide) (hdvd _ (by decide) (by decide)) (hdvd _ (by decide) (by decide))
  have h₃ : 65536 * 65535 * 65533 ∣ a - b :=
    Nat.Coprime.mul_dvd_of_dvd_of_dvd (by decide) h₂ (hdvd _ (by decide) (by decide))
  have h₄ : 65536 * 65535 * 65533 * 65531 ∣ a - b :=
    Nat.Coprime.mul_dvd_of_dvd_of_dvd (by decide) h₃ (hdvd _ (by decide) (by decide))
  have h₅ : 65536 * 65535 * 65533 * 65531 * 65521 ∣ a - b :=
    Nat.Coprime.mul_dvd_of_dvd_of_dvd (by decide) h₄ (hdvd _ (by decide) (by decide))
  omega

theorem exactScaled (hlo : PIT_HZ ≤ hz) (hhi : hz ≤ 0x400000000) : ExactScaled hz elapsed := by
  refine ⟨?_, clock_exact hlo hhi elapsed⟩
  intro c value t₀ es now hmode hes he
  have hload : Counts (pitLoad hz true 2 c value t₀) t₀ := ⟨hmode, rfl, Nat.zero_le _, BitVec.le_refl _⟩
  obtain ⟨hn, hsum⟩ := hload.gates hes
  have h0 : (nativePitElapsed (pitLoad hz true 2 c value t₀) t₀).toNat = 0 := by
    rw [hload.toNat_elapsed]
    simp [pitLoad]
  rw [h0, Nat.zero_add] at hsum
  rw [← he, ← show _ = highTime c.gate t₀ es now from hsum]
  exact hn.exact hlo hhi

/-- **The timer is exact as long as the product fits**, and no longer: one of the counts to load
shows the wrong counter from then on.  The native mode 0 and the clock stay exact. -/
theorem exact_iff (hlo : PIT_HZ ≤ hz) (hhi : hz ≤ 0x400000000) :
    ExactScaled hz elapsed ∧ (Exact hz elapsed ↔ elapsed.toNat * 1193182 < 2 ^ 64) := by
  have hhz := pos_of_le hlo
  refine ⟨exactScaled hlo hhi, ?_, ?_⟩
  · intro h
    by_contra hover
    have hsame : ∀ r (hpos : 0 < r) (hle : r ≤ 65536),
        scale hz.toNat elapsed.toNat 1193182 % r = wrapped hz.toNat elapsed.toNat % r := by
      intro r hpos hle
      have hc := h.counter false 0 (startedAt r hpos hle) elapsed rfl rfl (BitVec.sub_zero _)
      rw [pitCounter_eq hlo rfl rfl (BitVec.sub_zero _), ofInt_sub_mod (startedAt r hpos hle).reload_pos] at hc
      exact (mod_eq_of_counter hpos hle (by simpa [startedAt] using hc)).symm
    have hlt : wrapped hz.toNat elapsed.toNat < scale hz.toNat elapsed.toNat 1193182 := by
      rw [Nat.lt_iff_add_one_le, wrapped, ← Nat.add_div_right _ hhz]
      exact Nat.div_le_div_right (by omega)
    have hbig : scale hz.toNat elapsed.toNat 1193182 < 2 ^ 64 := by
      have hle := BitVec.le_def.mp hlo
      refine Nat.div_lt_of_lt_mul ((Nat.mul_le_mul_left elapsed.toNat hle).trans_lt ?_)
      rw [Nat.mul_comm]
      exact Nat.mul_lt_mul_of_pos_left elapsed.isLt hhz
    exact hlt.ne' (eq_of_mods hlt.le hbig hsame)
  · intro hfit
    refine ⟨exactScaled hlo hhi, fun nativeWin98 n c now hmode hrun he => ?_⟩
    rw [pitCounter_eq hlo hmode hrun he, wrapped, Nat.mod_eq_of_lt hfit, ofInt_sub_mod c.reload_pos]
    rfl

/-- At 3 GHz the channel 0 as the BIOS leaves it is wrong after 100 minutes. -/
theorem hour_inexact : PIT_HZ ≤ 3000000000 ∧ (3000000000 : U64) ≤ 0x400000000 ∧
    ¬Exact 3000000000 18000000000000 := by
  refine ⟨by decide, by decide, fun h => ?_⟩
  have hc := h.counter false 0 (startedAt 65536 (by decide) (by decide)) 18000000000000 rfl rfl
    (by decide)
  revert hc
  decide +kernel

/-- Half an hour at 3 GHz. -/
theorem exact_iff_sample : Exact 3000000000 5400000000000 :=
  (exact_iff (by decide) (by decide)).2.2 (by decide)

end Exact

end Win98Modern.Pit
