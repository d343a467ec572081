import Win98Modern.Lib.Bits

/-!
# Bitmaps by words

The helpers of `libsfs/sfs_alloc.c` that search a bitmap and write ranges of it, a word or a byte
at a time, with the arithmetic of `uint32_t`.  `count_word` says that `bitmap_popcount64` counts,
`loop_spec` carries what a range has become through the loops, and `bitmap_helpers` puts the
helpers beside their bitwise definitions.
-/

namespace Win98Modern.Libsfs.Bitmap

open Function

abbrev Map := Nat → BitVec 8

def testBit (map : Map) (i : Nat) : Bool := (map (i / 8)).getLsbD (i % 8)

def setBit (map : Map) (i : Nat) : Map :=
  update map (i / 8) (map (i / 8) ||| 1#8 <<< (i % 8))

def clearBit (map : Map) (i : Nat) : Map :=
  update map (i / 8) (map (i / 8) &&& ~~~(1#8 <<< (i % 8)))

def memset (map : Map) (p : Nat) (v : BitVec 8) (k : Nat) : Map :=
  fun i => if p ≤ i ∧ i < p + k then v else map i

/-- The value of `k` bytes from `p` on. -/
def load (map : Map) (p : Nat) : Nat → Nat
  | 0 => 0
  | k + 1 => (map p).toNat + 256 * load map (p + 1) k

/-- `memcpy(&w, map + p, 8)`. -/
def word (map : Map) (p : Nat) : BitVec 64 := BitVec.ofNat 64 (load map p 8)

def bitmapPopcount64 (w : BitVec 64) : Nat :=
  let w := w - (w >>> 1 &&& 0x5555555555555555)
  let w := (w &&& 0x3333333333333333) + (w >>> 2 &&& 0x3333333333333333)
  let w := (w + w >>> 4) &&& 0x0F0F0F0F0F0F0F0F
  ((w * 0x0101010101010101) >>> 56).toNat

/-! ### Searching -/

/-- The loop over words, in `uint32_t`; without fuel it is still running. -/
def findWord (b : Bool) (map : Map) (limit : Nat) : Nat → Nat → Option Nat
  | 0, _ => none
  | fuel + 1, i =>
    if (i + 64) % 2 ^ 32 ≤ limit then
      if word map (i / 8) = (if b then 0 else BitVec.allOnes 64) then
        findWord b map limit fuel ((i + 64) % 2 ^ 32)
      else some i
    else some i

def find (b : Bool) (map : Map) (start limit fuel : Nat) : Option Nat :=
  -- the first loop ends at the start of a word or at a bit
  let i := findFrom (fun i => i % 64 = 0 || testBit map i = b) limit limit start
  if i < limit ∧ i % 64 ≠ 0 then some i
  else (findWord b map limit fuel i).map (findFrom (fun i => testBit map i = b) limit limit)

def findZero : Map → Nat → Nat → Nat → Option Nat := find false
def findOne : Map → Nat → Nat → Nat → Option Nat := find true

/-! ### Writing -/

/-- The variables of a loop over a range; `bad` is only of `clear_bits`. -/
structure Walk where
  map : Map
  start : Nat
  n : Nat
  bad : Nat

def loop (c : Walk → Bool) (f : Walk → Walk) : Nat → Walk → Walk
  | 0, w => w
  | fuel + 1, w => if c w then loop c f fuel (f w) else w

def setOne (w : Walk) : Walk :=
  { w with map := setBit w.map w.start, start := (w.start + 1) % 2 ^ 32, n := w.n - 1 }

def clearOne (w : Walk) : Walk where
  map := clearBit w.map w.start
  start := (w.start + 1) % 2 ^ 32
  n := w.n - 1
  bad := if testBit w.map w.start then w.bad else w.bad + 1

def clearWord (w : Walk) : Walk where
  map := memset w.map (w.start / 8) 0 8
  start := (w.start + 64) % 2 ^ 32
  n := w.n - 64
  bad := w.bad + (64 - bitmapPopcount64 (word w.map (w.start / 8)))

def clearByte (w : Walk) : Walk where
  map := memset w.map (w.start / 8) 0 1
  start := (w.start + 8) % 2 ^ 32
  n := w.n - 8
  bad := w.bad + (8 - bitmapPopcount64 ((w.map (w.start / 8)).setWidth 64))

/-- `memset(map + (from >> 3), 0xFF, n >> 3)` and what follows it. -/
def setBytes (w : Walk) : Walk :=
  { w with
    map := memset w.map (w.start / 8) 0xFF (w.n / 8)
    start := (w.start + w.n / 8 * 8) % 2 ^ 32
    n := w.n % 8 }

/-- The bits before a byte boundary. -/
def Walk.ragged (w : Walk) : Bool := w.n ≠ 0 ∧ w.start % 8 ≠ 0

def setBits (map : Map) (start n : Nat) : Map :=
  let w := loop Walk.ragged setOne n ⟨map, start, n, 0⟩
  let w := if 8 ≤ w.n then setBytes w else w
  (loop (·.n ≠ 0) setOne w.n w).map

def clearBits (map : Map) (start n : Nat) : Map × Nat :=
  let w : Walk := ⟨map, start, n, 0⟩
  let w := if n < 16 then w else
    let w := loop Walk.ragged clearOne w.n w
    let w := loop (64 ≤ ·.n) clearWord w.n w
    loop (8 ≤ ·.n) clearByte w.n w
  let w := loop (·.n ≠ 0) clearOne w.n w
  (w.map, w.bad)

/-! ### The count of a word -/

/-- `k` bytes `b`. -/
def rep (b : Nat) : Nat → Nat
  | 0 => 0
  | k + 1 => b + 256 * rep b k

/-- Counts in fields of two, four and eight bits. -/
def twos (k v : Nat) : Nat := v - (v >>> 1 &&& rep 0x55 k)
def fours (k v : Nat) : Nat := (twos k v &&& rep 0x33 k) + (twos k v >>> 2 &&& rep 0x33 k)
def eights (k v : Nat) : Nat := (fours k v + fours k v >>> 4) &&& rep 0x0F k

variable {e m s v M k b : Nat}

theorem rep_one : rep b 1 = b := rfl

theorem byte_stages : ∀ e < 256, twos 1 e < 256 ∧ fours 1 e ≤ 68 ∧ fours 1 e % 16 ≤ 4 ∧
    eights 1 e ≤ 8 := by decide +kernel

/-- A mask that loses the shifted-in bits works on each byte by itself. -/
theorem shift_mask (he : e < 256) (hs : s ≤ 8) (hm : m < 2 ^ (8 - s)) :
    (e + 256 * v) >>> s &&& (m + 256 * M) = (e >>> s &&& m) + 256 * (v >>> s &&& M) := by
  have hp : 2 ^ (8 - s) * 2 ^ s = 256 := by rw [← pow_add, Nat.sub_add_cancel hs]; rfl
  have hm' : m < 2 ^ 8 := hm.trans_le (Nat.pow_le_pow_right (by decide) (by omega))
  have hr : (e >>> s &&& m) < 2 ^ 8 := Nat.and_lt_two_pow _ hm'
  refine Nat.eq_of_testBit_eq fun i => ?_
  rw [show (256 : Nat) = 2 ^ 8 from rfl, Nat.add_comm e, Nat.add_comm m, Nat.add_comm (e >>> s &&& m),
    Nat.testBit_and, Nat.testBit_shiftRight, Nat.testBit_two_pow_mul_add _ he,
    Nat.testBit_two_pow_mul_add _ hm', Nat.testBit_two_pow_mul_add _ hr]
  by_cases hi : i < 8
  · rw [if_pos hi, if_pos hi, Nat.testBit_and, Nat.testBit_shiftRight]
    by_cases hsi : s + i < 8
    · rw [if_pos hsi]
    · rw [Nat.testBit_lt_two_pow (hm.trans_le (Nat.pow_le_pow_right (by decide) (by omega))),
        Bool.and_false, Bool.and_false]
  · rw [if_neg hi, if_neg hi, if_neg (by omega), Nat.testBit_and, Nat.testBit_shiftRight,
      show s + i - 8 = s + (i - 8) by omega]

theorem twos_succ (he : e < 256) : twos (k + 1) (e + 256 * v) = twos 1 e + 256 * twos k v := by
  have h := shift_mask (m := 0x55) (s := 1) (M := rep 0x55 k) (v := v) he (by decide) (by decide)
  have h1 : e >>> 1 &&& rep 0x55 1 ≤ e := Nat.and_le_left.trans (Nat.shiftRight_le e 1)
  have h2 : v >>> 1 &&& rep 0x55 k ≤ v := Nat.and_le_left.trans (Nat.shiftRight_le v 1)
  unfold twos
  rw [rep, h, rep_one]
  rw [rep_one] at h1
  omega

theorem fours_succ (he : e < 256) : fours (k + 1) (e + 256 * v) = fours 1 e + 256 * fours k v := by
  have h (s) := shift_mask (m := 0x33) (s := s) (M := rep 0x33 k) (v := twos k v)
    (byte_stages e he).1
  have h0 := h 0 (by decide) (by decide)
  have h2 := h 2 (by decide) (by decide)
  unfold fours
  rw [twos_succ he, rep]
  rw [Nat.shiftRight_zero, Nat.shiftRight_zero, Nat.shiftRight_zero] at h0
  rw [h0, h2, rep_one]
  omega

theorem fours_low (k v : Nat) : fours k v % 16 ≤ 4 := by
  cases k with
  | zero => simp [fours, rep]
  | succ k =>
    have h := byte_stages (v % 256) (Nat.mod_lt _ (by decide))
    rw [← Nat.mod_add_div v 256, fours_succ (Nat.mod_lt _ (by decide))]
    omega

theorem eights_succ (he : e < 256) :
    eights (k + 1) (e + 256 * v) = eights 1 e + 256 * eights k v := by
  obtain ⟨-, hb, -⟩ := byte_stages e he
  have hv := fours_low k v
  have hsum : fours 1 e + 256 * fours k v + (fours 1 e + 256 * fours k v) >>> 4 =
      fours 1 e + fours 1 e >>> 4 + 16 * (fours k v % 16) +
        256 * (fours k v + fours k v >>> 4) := by
    simp only [Nat.shiftRight_eq_div_pow]
    omega
  have h := shift_mask (e := fours 1 e + fours 1 e >>> 4 + 16 * (fours k v % 16)) (s := 0)
    (m := 0x0F) (v := fours k v + fours k v >>> 4) (M := rep 0x0F k)
    (by rw [Nat.shiftRight_eq_div_pow]; omega) (by decide) (by decide)
  have hlow (x : Nat) : x &&& 0x0F = x % 16 := Nat.and_two_pow_sub_one_eq_mod x 4
  rw [Nat.shiftRight_zero, Nat.shiftRight_zero, Nat.shiftRight_zero, hlow] at h
  unfold eights
  rw [fours_succ he, rep, hsum, h, rep_one, hlow]
  omega

theorem load_lt (map : Map) (p : Nat) : load map p k < 256 ^ k := by
  induction k generalizing p with
  | zero => exact Nat.one_pos
  | succ k ih =>
    have h := ih (p + 1)
    have hb := (map p).isLt
    rw [load, pow_succ]
    omega

theorem popcount_eights (w : BitVec 64) :
    bitmapPopcount64 w = eights 8 w.toNat * 0x0101010101010101 % 2 ^ 64 / 2 ^ 56 := by
  have hle {x m : Nat} : x &&& m ≤ m := Nat.and_le_right
  have ha : (w - (w >>> 1 &&& 0x5555555555555555)).toNat = twos 8 w.toNat := by
    refine (BitVec.toNat_sub_of_le ?_).trans rfl
    exact (Nat.and_le_left.trans (Nat.shiftRight_le _ 1) : _ ≤ w.toNat)
  have hb (a : BitVec 64) : ((a &&& 0x3333333333333333) + (a >>> 2 &&& 0x3333333333333333)).toNat =
      (a.toNat &&& rep 0x33 8) + (a.toNat >>> 2 &&& rep 0x33 8) :=
    Nat.mod_eq_of_lt ((Nat.add_le_add hle hle).trans_lt (by decide))
  have hc (b : BitVec 64) (h : b.toNat ≤ 2 * rep 0x33 8) :
      ((b + b >>> 4) &&& 0x0F0F0F0F0F0F0F0F).toNat =
        (b.toNat + b.toNat >>> 4) &&& rep 0x0F 8 := by
    have hlt : b.toNat + b.toNat >>> 4 < 2 ^ 64 := by
      have h2 : 2 * rep 0x33 8 < 2 ^ 63 := by decide
      rw [Nat.shiftRight_eq_div_pow]
      omega
    rw [BitVec.toNat_and, BitVec.toNat_add, BitVec.toNat_ushiftRight, Nat.mod_eq_of_lt hlt]
    rfl
  unfold bitmapPopcount64
  rw [BitVec.toNat_ushiftRight, BitVec.toNat_mul, hc _ ?_, hb, ha, Nat.shiftRight_eq_div_pow]
  · rfl
  · rw [hb]
    exact (Nat.add_le_add hle hle).trans_eq (by decide)

theorem popcount_byte : ∀ b : BitVec 8, bitmapPopcount64 (b.setWidth 64) = eights 1 b.toNat ∧
    8 - bitmapPopcount64 (b.setWidth 64) = Nat.count (fun k => b.getLsbD k = false) 8 := by
  decide +kernel

theorem sum_bytes {a b c d e f g h : Nat} (ha : a ≤ 8) (hb : b ≤ 8) (hc : c ≤ 8) (hd : d ≤ 8)
    (he : e ≤ 8) (hf : f ≤ 8) (hg : g ≤ 8) (hh : h ≤ 8) :
    (a + 256 * (b + 256 * (c + 256 * (d + 256 * (e + 256 * (f + 256 * (g + 256 * h))))))) *
      0x0101010101010101 % 2 ^ 64 / 2 ^ 56 = a + b + c + d + e + f + g + h := by
  have heq : (a + 256 * (b + 256 * (c + 256 * (d + 256 * (e + 256 * (f + 256 * (g + 256 * h))))))) *
      0x0101010101010101 =
      a * 0x01010101010101 + b * 0x010101010101 * 256 + c * 0x0101010101 * 256 ^ 2 +
        d * 0x01010101 * 256 ^ 3 + e * 0x010101 * 256 ^ 4 + f * 0x0101 * 256 ^ 5 + g * 256 ^ 6 +
        2 ^ 56 * (a + b + c + d + e + f + g + h) +
      2 ^ 64 * (b + c * 0x0101 + d * 0x010101 + e * 0x01010101 + f * 0x0101010101 +
        g * 0x010101010101 + h * 0x01010101010101) := by
    omega
  rw [heq, Nat.add_mul_mod_self_left, Nat.mod_eq_of_lt (by omega), Nat.add_mul_div_left _ _ (by decide),
    Nat.div_eq_of_lt (by omega), Nat.zero_add]

/-- **The bits of eight bytes that are zero**, counted at once. -/
theorem count_word (map : Map) (p : Nat) :
    64 - bitmapPopcount64 (word map p) = Nat.count (fun i => testBit map (8 * p + i) = false) 64 := by
  have hz (p k) : Nat.count (fun i => testBit map (8 * p + i) = false) (8 * (k + 1)) =
      8 - eights 1 (map p).toNat +
        Nat.count (fun i => testBit map (8 * (p + 1) + i) = false) (8 * k) := by
    rw [← (popcount_byte _).1, (popcount_byte _).2, Nat.mul_succ, Nat.add_comm, Nat.count_add]
    congr 1
    · simp [Nat.count_succ, testBit, Nat.mul_add_div]
    · simp only [Nat.mul_succ, Nat.add_assoc]
  have he (p k) : eights (k + 1) (load map p (k + 1)) =
      eights 1 (map p).toNat + 256 * eights k (load map (p + 1) k) := eights_succ (map p).isLt
  have hle (p) : eights 1 (map p).toNat ≤ 8 := (byte_stages _ (map p).isLt).2.2.2
  have hw : (word map p).toNat = load map p 8 := Nat.mod_eq_of_lt (load_lt map p)
  have h0 (v : Nat) : eights 0 v = 0 := Nat.and_zero _
  refine Eq.trans ?_ (hz p 7).symm
  rw [popcount_eights, hw]
  simp only [hz, he, h0, Nat.mul_zero, Nat.count_zero, Nat.add_zero]
  rw [sum_bytes (hle _) (hle _) (hle _) (hle _) (hle _) (hle _) (hle _) (hle _)]
  grind

/-! ### Ranges -/

variable {map : Map} {i p n start limit fuel : Nat} {c : Walk → Bool} {f : Walk → Walk} {w w' : Walk}

theorem testBit_setBit : testBit (setBit map i) = setRange (testBit map) true i 1 := by
  funext j
  unfold testBit setBit setRange update
  split_ifs <;> grind

theorem testBit_clearBit : testBit (clearBit map i) = setRange (testBit map) false i 1 := by
  funext j
  unfold testBit clearBit setRange update
  split_ifs <;> grind

theorem testBit_memset {v : BitVec 8} {b : Bool} (hv : ∀ i < 8, v.getLsbD i = b)
    (h : start % 8 = 0) :
    testBit (memset map (start / 8) v n) = setRange (testBit map) b start (8 * n) := by
  funext j
  have := hv (j % 8) (Nat.mod_lt _ (by decide))
  unfold testBit memset setRange
  split_ifs <;> first | assumption | rfl | omega

theorem setRange_setRange {g : Nat → Bool} {b : Bool} :
    setRange (setRange g b start n) b (start + n) k = setRange g b start (n + k) := by
  funext j
  unfold setRange
  split_ifs <;> first | rfl | omega

/-- A loop keeps what its body keeps, and ends when the body takes bits off `n`. -/
theorem loop_spec {I : Walk → Prop} (hf : ∀ w, I w → c w = true → I (f w) ∧ (f w).n < w.n)
    (hw : I w) (h : w.n ≤ fuel) : I (loop c f fuel w) ∧ c (loop c f fuel w) = false := by
  induction fuel generalizing w with
  | zero =>
    refine ⟨hw, Bool.eq_false_iff.mpr fun hc => ?_⟩
    have := (hf w hw hc).2
    omega
  | succ fuel ih =>
    rw [loop]
    split
    · rename_i hc
      obtain ⟨hi, hn⟩ := hf w hw hc
      exact ih hi (by omega)
    · rename_i hc
      exact ⟨hw, Bool.eq_false_iff.mpr hc⟩

/-- The first `n - w.n` bits from `start` on have been written. -/
structure Written (b : Bool) (map : Map) (start n : Nat) (w : Walk) : Prop where
  le : w.n ≤ n
  next : w.start = (start + (n - w.n)) % 2 ^ 32
  bits : testBit w.map = setRange (testBit map) b start (n - w.n)

/-- They have been cleared, and those that were clear already have been counted. -/
structure Cleared (map : Map) (start n : Nat) (w : Walk) : Prop extends
    Written false map start n w where
  bad : w.bad = Nat.count (fun i => testBit map (start + i) = false) (n - w.n)

theorem Written.advance {b : Bool} (h : Written b map start n w) (hr : start + n ≤ 2 ^ 32)
    (hk : 0 < k) (hn : w'.n + k = w.n) (hs : w'.start = (w.start + k) % 2 ^ 32)
    (hb : testBit w'.map = setRange (testBit w.map) b w.start k) : Written b map start n w' := by
  have hle := h.le
  have hstart : w.start = start + (n - w.n) := by
    rw [h.next]
    exact Nat.mod_eq_of_lt (by omega)
  have hsub : n - w'.n = n - w.n + k := by omega
  refine ⟨by omega, by rw [hs, hstart, hsub, Nat.add_assoc], ?_⟩
  rw [hb, h.bits, hstart, hsub, setRange_setRange]

theorem Cleared.advance (h : Cleared map start n w) (hr : start + n ≤ 2 ^ 32)
    (hk : 0 < k) (hn : w'.n + k = w.n) (hs : w'.start = (w.start + k) % 2 ^ 32)
    (hb : testBit w'.map = setRange (testBit w.map) false w.start k)
    (hbad : w'.bad = w.bad + Nat.count (fun i => testBit w.map (w.start + i) = false) k) :
    Cleared map start n w' := by
  refine ⟨h.toWritten.advance hr hk hn hs hb, ?_⟩
  have hle := h.le
  have hstart : w.start = start + (n - w.n) := by
    rw [h.next]
    exact Nat.mod_eq_of_lt (by omega)
  rw [hbad, h.bad, show n - w'.n = n - w.n + k by omega, Nat.count_add, h.bits, hstart]
  congr 2
  funext i
  rw [setRange_not_mem (by omega), Nat.add_assoc]

/-! ### The calls -/

theorem Written.setOne (h : Written true map start n w) (hr : start + n ≤ 2 ^ 32)
    (hn : w.n ≠ 0) : Written true map start n (setOne w) :=
  h.advance hr Nat.one_pos (Nat.sub_add_cancel (by omega)) rfl testBit_setBit

theorem Cleared.clearOne (h : Cleared map start n w) (hr : start + n ≤ 2 ^ 32) (hn : w.n ≠ 0) :
    Cleared map start n (clearOne w) := by
  refine h.advance hr Nat.one_pos (Nat.sub_add_cancel (by omega)) rfl testBit_clearBit ?_
  cases hb : testBit w.map w.start <;> simp [Bitmap.clearOne, hb, Nat.count_succ]

theorem Cleared.clearWord (h : Cleared map start n w) (hr : start + n ≤ 2 ^ 32) (hn : 64 ≤ w.n)
    (ha : w.start % 8 = 0) : Cleared map start n (clearWord w) := by
  refine h.advance hr (by decide) (Nat.sub_add_cancel hn) rfl
    (testBit_memset (n := 8) (fun _ _ => BitVec.getLsbD_zero) ha) ?_
  rw [Bitmap.clearWord, count_word, Nat.mul_div_cancel' (Nat.dvd_of_mod_eq_zero ha)]

theorem Cleared.clearByte (h : Cleared map start n w) (hr : start + n ≤ 2 ^ 32) (hn : 8 ≤ w.n)
    (ha : w.start % 8 = 0) : Cleared map start n (clearByte w) := by
  refine h.advance hr (by decide) (Nat.sub_add_cancel hn) rfl
    (testBit_memset (n := 1) (fun _ _ => BitVec.getLsbD_zero) ha) ?_
  rw [Bitmap.clearByte, (popcount_byte _).2]
  obtain ⟨p, hp⟩ := Nat.dvd_of_mod_eq_zero ha
  rw [hp]
  simp [Nat.count_succ, testBit, Nat.mul_add_div]

theorem Written.done {b : Bool} (h : Written b map start n w) (hn : w.n = 0) :
    testBit w.map = setRange (testBit map) b start n := by rw [h.bits, hn, Nat.sub_zero]

theorem Written.init {b : Bool} (hr : start < 2 ^ 32) : Written b map start n ⟨map, start, n, 0⟩ :=
  ⟨le_rfl, by simpa using (Nat.mod_eq_of_lt hr).symm, by funext i; simp [setRange]⟩

theorem Walk.ragged_ne (h : w.ragged = true) : w.n ≠ 0 := (of_decide_eq_true h).1

theorem Walk.aligned (h : w.ragged = false) (hn : w.n ≠ 0) : w.start % 8 = 0 :=
  by_contra fun ha => of_decide_eq_false h ⟨hn, ha⟩

theorem loop_bits {I : Walk → Prop} (hn : ∀ w, (f w).n = w.n - 1)
    (hc : ∀ w, c w = true → w.n ≠ 0) (hf : ∀ w, I w → w.n ≠ 0 → I (f w)) (h : I w) :
    I (loop c f w.n w) ∧ c (loop c f w.n w) = false := by
  refine loop_spec (fun w h hw => ⟨hf w h (hc w hw), ?_⟩) h le_rfl
  have := hc w hw
  rw [hn]
  omega

theorem loop_bytes (hk : 0 < k) (hn : ∀ w, (f w).n = w.n - k)
    (hs : ∀ w, w.start % 8 = 0 → (f w).start % 8 = 0)
    (hf : ∀ w, Cleared map start n w → k ≤ w.n → w.start % 8 = 0 → Cleared map start n (f w))
    (h : Cleared map start n w ∧ (w.n ≠ 0 → w.start % 8 = 0)) :
    Cleared map start n (loop (k ≤ ·.n) f w.n w) ∧
      ((loop (k ≤ ·.n) f w.n w).n ≠ 0 → (loop (k ≤ ·.n) f w.n w).start % 8 = 0) := by
  refine (loop_spec (I := fun w => Cleared map start n w ∧ (w.n ≠ 0 → w.start % 8 = 0))
    (fun w h hw => ?_) h le_rfl).1
  have hkn : k ≤ w.n := of_decide_eq_true hw
  have hw8 := h.2 (by omega)
  exact ⟨⟨hf w h.1 hkn hw8, fun _ => hs w hw8⟩, by rw [hn]; omega⟩

theorem setBits_spec (hs : start < 2 ^ 32) (hr : start + n ≤ 2 ^ 32) :
    testBit (setBits map start n) = setRange (testBit map) true start n := by
  have hone (w) (h : Written true map start n w) := h.setOne hr
  obtain ⟨h, ha⟩ := loop_bits (fun _ => rfl) (fun _ => Walk.ragged_ne) hone (.init hs)
  unfold setBits
  simp only at h ha ⊢
  generalize loop Walk.ragged setOne n ⟨map, start, n, 0⟩ = w at h ha
  have hbytes : Written true map start n (if 8 ≤ w.n then setBytes w else w) := by
    split
    · rename_i h8
      exact h.advance (k := 8 * (w.n / 8)) hr (by omega) (Nat.mod_add_div w.n 8)
        (by rw [setBytes, Nat.mul_comm])
        (testBit_memset (by decide) (Walk.aligned ha (by omega)))
    · exact h
  obtain ⟨h, hn⟩ := loop_bits (c := (·.n ≠ 0)) (fun _ => rfl) (fun w hw => of_decide_eq_true hw) hone hbytes
  exact h.done (of_not_not (of_decide_eq_false hn))

theorem clearBits_spec (hs : start < 2 ^ 32) (hr : start + n ≤ 2 ^ 32) :
    testBit (clearBits map start n).1 = setRange (testBit map) false start n ∧
      (clearBits map start n).2 = Nat.count (fun i => testBit map (start + i) = false) n := by
  have hone (w) (h : Cleared map start n w) := h.clearOne hr
  have hinit : Cleared map start n ⟨map, start, n, 0⟩ := ⟨.init hs, by simp⟩
  have hmany : Cleared map start n
      (let w := loop Walk.ragged clearOne n ⟨map, start, n, 0⟩
      let w := loop (64 ≤ ·.n) clearWord w.n w
      loop (8 ≤ ·.n) clearByte w.n w) := by
    obtain ⟨h, ha⟩ := loop_bits (fun _ => rfl) (fun _ => Walk.ragged_ne) hone hinit
    have h64 := loop_bytes (f := clearWord) (by decide) (fun _ => rfl)
      (fun w h8 => show (w.start + 64) % 2 ^ 32 % 8 = 0 by omega) (fun w h => h.clearWord hr) ⟨h, Walk.aligned ha⟩
    exact (loop_bytes (f := clearByte) (by decide) (fun _ => rfl)
      (fun w h8 => show (w.start + 8) % 2 ^ 32 % 8 = 0 by omega) (fun w h => h.clearByte hr) h64).1
  have hall (v : Walk) (hv : Cleared map start n v) :
      Cleared map start n (if n < 16 then ⟨map, start, n, 0⟩ else v) := by
    split
    · exact hinit
    · exact hv
  obtain ⟨h, hn⟩ := loop_bits (c := (·.n ≠ 0)) (fun _ => rfl) (fun w hw => of_decide_eq_true hw) hone
    (hall _ hmany)
  have hn0 := of_not_not (of_decide_eq_false hn)
  have hbad := h.bad
  rw [hn0, Nat.sub_zero] at hbad
  exact ⟨h.done hn0, hbad⟩

/-! ### The searches -/

theorem testBit_load (map : Map) (hi : i < k) {r : Nat} (hr : r < 8) :
    (load map p k).testBit (8 * i + r) = testBit map (8 * (p + i) + r) := by
  induction k generalizing p i with
  | zero => exact absurd hi (Nat.not_lt_zero i)
  | succ k ih =>
    rw [load, Nat.add_comm (map p).toNat, show 256 = 2 ^ 8 from rfl,
      Nat.testBit_two_pow_mul_add _ (map p).isLt]
    cases i with
    | zero =>
      rw [if_pos (by omega)]
      simp [testBit, BitVec.getLsbD, Nat.mul_add_div, Nat.mod_eq_of_lt hr, Nat.div_eq_of_lt hr]
    | succ i =>
      rw [if_neg (by omega), show 8 * (i + 1) + r - 8 = 8 * i + r by omega,
        ih (Nat.lt_of_succ_lt_succ hi), show p + 1 + i = p + (i + 1) by omega]

theorem word_skip {b : Bool} (hp : i % 64 = 0)
    (h : word map (i / 8) = if b then 0 else BitVec.allOnes 64) (hk : k < 64) :
    testBit map (i + k) ≠ b := by
  have hbit := congrArg (·.getLsbD (8 * (k / 8) + k % 8)) h
  have hload := testBit_load map (p := i / 8) (show k / 8 < 8 by omega)
    (Nat.mod_lt k (show 0 < 8 by decide))
  rw [show 8 * (i / 8 + k / 8) + k % 8 = i + k by omega] at hload
  rw [Nat.div_add_mod] at hload hbit
  have hskip : (if b then 0 else BitVec.allOnes 64 : BitVec 64).getLsbD k = !b := by
    cases b
    · exact BitVec.getLsbD_allOnes.trans (decide_eq_true hk)
    · exact BitVec.getLsbD_zero
  simp only [word, BitVec.getLsbD_ofNat, hload, hskip, hk, decide_true, Bool.true_and] at hbit
  rw [hbit]
  exact Bool.not_ne_self b

theorem findWord_spec (map : Map) {b : Bool} (hl : limit + 64 < 2 ^ 32) (hi : i ≤ limit)
    (ha : i < limit → i % 64 = 0) (hf : limit < i + fuel) :
    ∃ j, findWord b map limit fuel i = some j ∧ i ≤ j ∧ j ≤ limit ∧
      ∀ k, i ≤ k → k < j → testBit map k ≠ b := by
  induction fuel generalizing i with
  | zero => omega
  | succ fuel ih =>
    have hstop (k) (h1 : i ≤ k) (h2 : k < i) : testBit map k ≠ b := absurd h2 (Nat.not_lt.mpr h1)
    rw [findWord, Nat.mod_eq_of_lt (show i + 64 < 2 ^ 32 by omega)]
    by_cases hlim : i + 64 ≤ limit
    · rw [if_pos hlim]
      by_cases hw : word map (i / 8) = if b then 0 else BitVec.allOnes 64
      · rw [if_pos hw]
        have hi0 := ha (by omega)
        obtain ⟨j, hj, h1, h2, h3⟩ := ih (i := i + 64) hlim (fun _ => by omega) (by omega)
        refine ⟨j, hj, by omega, h2, fun k hk hkj => ?_⟩
        by_cases hlt : k < i + 64
        · have := word_skip hi0 hw (show k - i < 64 by omega)
          rwa [Nat.add_sub_cancel' hk] at this
        · exact h3 k (by omega) hkj
      · exact ⟨i, if_neg hw, le_rfl, hi, hstop⟩
    · exact ⟨i, if_neg hlim, le_rfl, hi, hstop⟩

/-- The least index from `start` on, below `limit`, that holds `b`, or `limit`. -/
structure Least (b : Bool) (map : Map) (start limit r : Nat) : Prop where
  ge : start ≤ r
  le : r ≤ limit
  before : ∀ k, start ≤ k → k < r → testBit map k ≠ b
  hit : r < limit → testBit map r = b

theorem find_spec {b : Bool} (h : start ≤ limit) (hl : limit + 64 < 2 ^ 32) (hf : limit < fuel) :
    ∃ r, find b map start limit fuel = some r ∧ Least b map start limit r := by
  obtain ⟨h1, h2, h3, h4⟩ := findFrom_spec (fun i => i % 64 = 0 || testBit map i = b)
    (show limit ≤ start + limit by omega) h
  unfold find
  simp only
  generalize findFrom (fun i => i % 64 = 0 || testBit map i = b) limit limit start = i at h1 h2 h3 h4
  have hhead (k) (hk : start ≤ k) (hki : k < i) : testBit map k ≠ b := by
    have := h3 k hk hki
    simp_all
  by_cases hc : i < limit ∧ i % 64 ≠ 0
  · refine ⟨i, if_pos hc, h1, h2, hhead, fun _ => ?_⟩
    simpa [hc.2] using h4 hc.1
  · rw [if_neg hc]
    obtain ⟨j, hj, k1, k2, k3⟩ := findWord_spec map (b := b) hl h2 (by omega)
      (show limit < i + fuel by omega)
    obtain ⟨l1, l2, l3, l4⟩ := findFrom_spec (fun i => testBit map i = b)
      (show limit ≤ j + limit by omega) k2
    rw [hj]
    refine ⟨_, rfl, by omega, l2, fun k hk hkr => ?_, fun hr => of_decide_eq_true (l4 hr)⟩
    by_cases hki : k < i
    · exact hhead k hk hki
    · by_cases hkj : k < j
      · exact k3 k (by omega) hkj
      · exact of_decide_eq_false (l3 k (by omega) hkr)

/-- **The helpers do what their bitwise definitions do**: on a map of fewer than `2 ^ 32 - 64` bits
the searches return the least index, and a range of any map is set or cleared and counted. -/
theorem bitmap_helpers (map : Map) (start : Nat) :
    (∀ limit fuel, start ≤ limit → limit + 64 < 2 ^ 32 → limit < fuel →
      (∃ r, findZero map start limit fuel = some r ∧ Least false map start limit r) ∧
      ∃ r, findOne map start limit fuel = some r ∧ Least true map start limit r) ∧
    ∀ n, start < 2 ^ 32 → start + n ≤ 2 ^ 32 →
      testBit (setBits map start n) = setRange (testBit map) true start n ∧
      testBit (clearBits map start n).1 = setRange (testBit map) false start n ∧
      (clearBits map start n).2 = Nat.count (fun i => testBit map (start + i) = false) n :=
  ⟨fun _ _ h hl hf => ⟨find_spec h hl hf, find_spec h hl hf⟩,
    fun _ hs hr => ⟨setBits_spec hs hr, clearBits_spec hs hr⟩⟩

theorem bitmap_helpers_full :
    (∃ r, findZero (fun _ => 0xFF) 3 70 71 = some r ∧ Least false (fun _ => 0xFF) 3 70 r) ∧
      (clearBits (fun _ => 0xFF) 3 70).2 = Nat.count (fun i => testBit (fun _ => 0xFF) (3 + i) = false) 70 :=
  ⟨((bitmap_helpers _ 3).1 70 71 (by decide) (by decide) (by decide)).1,
    ((bitmap_helpers _ 3).2 70 (by decide) (by decide)).2.2⟩

/-- Every bit but the first. -/
def rest : Map := fun p => if p = 0 then 0xFE else 0xFF

theorem findFrom_hit {test : Nat → Bool} (hi : i < limit) (ht : test i = true) :
    findFrom test limit limit i = i := by
  obtain ⟨n, rfl⟩ : ∃ n, limit = n + 1 := ⟨limit - 1, by omega⟩
  rw [findFrom, if_pos hi, if_pos ht]

/-- The last word of a map of `2 ^ 32 - 1` bits: `i + 64` wraps, and the search goes on below `from`. -/
theorem find_wraps : ¬∃ fuel r, findZero rest (2 ^ 32 - 64) (2 ^ 32 - 1) fuel = some r ∧
    Least false rest (2 ^ 32 - 64) (2 ^ 32 - 1) r := by
  rintro ⟨fuel, r, hr, h⟩
  have hw : word rest ((2 ^ 32 - 64) / 8) = if false then 0 else BitVec.allOnes 64 := by
    decide +kernel
  unfold findZero find at hr
  simp only at hr
  rw [findFrom_hit (by decide) (by decide), if_neg (by decide)] at hr
  match fuel with
  | 0 => cases hr
  | 1 =>
    rw [findWord, if_pos (by decide), if_pos hw] at hr
    cases hr
  | fuel + 2 =>
    rw [findWord, if_pos (by decide), if_pos hw, findWord, if_pos (by decide),
      if_neg (show ¬word rest _ = if false then 0 else BitVec.allOnes 64 by decide +kernel),
      Option.map_some, findFrom_hit (by decide) (by decide)] at hr
    have := h.ge
    cases hr
    omega

end Win98Modern.Libsfs.Bitmap
