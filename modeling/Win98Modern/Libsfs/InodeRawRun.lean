import Win98Modern.Libsfs.InodeRaw

/-!
# Decoding what was encoded

The fields that `encode` writes lie apart (`record_apart`), so each reads back; `decode_encode` says what
`decode` makes of them.  Only the block count can differ: `roundTrips_iff`.
-/

namespace Win98Modern.Libsfs.Raw

open Memory

/-! ### Fields -/

variable {raw raw' : Memory} {off v lo : Nat} {x : Int} {t : Stamp} {i : Inode} {flags : UInt32}

theorem rd16_writeAll {fs : List Field} (hap : Field.Apart fs) (h : wr16 off v ∈ fs) :
    rd16 (raw.writeAll fs) off = v % 2 ^ 16 := load_writeAll_num hap h

theorem rd32_writeAll {fs : List Field} (hap : Field.Apart fs) (h : wr32 off v ∈ fs) :
    rd32 (raw.writeAll fs) off = v % 2 ^ 32 := load_writeAll_num hap h

theorem covers_wr16 {k : Nat} (h : (wr16 off v).Covers k) : k = off ∨ k = off + 1 := by
  obtain ⟨h1, h2⟩ := h
  simp only [wr16, Field.num] at h1 h2
  omega

theorem halves (a : Nat) {h : Nat} (hh : h = v >>> a) : v % 2 ^ a ||| h <<< a = v := by
  have hlt : v % 2 ^ a < 2 ^ a := Nat.mod_lt _ (Nat.two_pow_pos a)
  rw [hh, Nat.or_comm, ← Nat.shiftLeft_add_eq_or_of_lt hlt, Nat.shiftLeft_eq, Nat.shiftRight_eq_div_pow]
  exact Nat.div_add_mod' v (2 ^ a)

/-! ### The checksum -/

theorem bytes_congr {a n : Nat} (h : ∀ k, a ≤ k → k < a + n → raw' k = raw k) :
    bytes raw' a n = bytes raw a n :=
  List.map_congr_left fun i hi => h _ (by omega) (by have := List.mem_range.1 hi; omega)

/-- The checksum does not look at its own bytes. -/
theorem inodeCsum_congr (fs : Vol) (ino : UInt32)
    (h : ∀ k, k ≠ 0x7C → k ≠ 0x7D → ((inodeCsum fs ino raw).2 = true → k ≠ 0x82 ∧ k ≠ 0x83) → raw' k = raw k) :
    inodeCsum fs ino raw' = inodeCsum fs ino raw := by
  have hlow : ∀ k, k < 0x82 → k ≠ 0x7C → k ≠ 0x7D → raw' k = raw k :=
    fun k hk h1 h2 => h k h1 h2 fun _ => by omega
  have hbytes : ∀ a n, (a + n ≤ 0x7C ∨ (0x7E ≤ a ∧ a + n ≤ 0x82)) → bytes raw' a n = bytes raw a n :=
    fun a n hclear => bytes_congr fun k hk hlt => hlow k (by omega) (by omega) (by omega)
  have hload : ∀ a n, (a + n ≤ 0x7C ∨ (0x7E ≤ a ∧ a + n ≤ 0x82)) → load n raw' a = load n raw a :=
    fun a n hclear => load_congr fun k hk hlt => hlow k (by omega) (by omega) (by omega)
  have hgen : rd32 raw' IN_generation = rd32 raw IN_generation := hload _ _ (by decide)
  have hextra : rd16 raw' IN_extra_isize = rd16 raw IN_extra_isize := hload _ _ (by decide)
  have h1 : bytes raw' 0 IN_checksum_lo = bytes raw 0 IN_checksum_lo := hbytes _ _ (by decide)
  have h2 : bytes raw' (IN_checksum_lo + 2) (128 - IN_checksum_lo - 2) =
      bytes raw (IN_checksum_lo + 2) (128 - IN_checksum_lo - 2) := hbytes _ _ (by decide)
  have h3 : bytes raw' 128 (IN_checksum_hi - 128) = bytes raw 128 (IN_checksum_hi - 128) := hbytes _ _ (by decide)
  have hplace : IN_checksum_hi = 0x82 := rfl
  simp only [inodeCsum, hgen, hextra, h1, h2, h3] at h ⊢
  by_cases hbig : 128 < fs.isize
  · simp only [hbig, if_true] at h ⊢
    by_cases hhi : IN_checksum_hi + 2 ≤ 128 + rd16 raw IN_extra_isize
    · simp only [hhi, if_true] at h ⊢
      rw [bytes_congr fun k hk hlt => h k (by omega) (by omega) fun _ => by omega]
    · simp only [hhi, if_false] at h ⊢
      rw [bytes_congr fun k hk hlt => h k (by omega) (by omega) nofun]
  · simp only [hbig, if_false]

theorem csumFields_spans (fs : Vol) (ino : UInt32) (raw : Memory) :
    ((csumFields fs ino raw).map Field.span).Sublist [(IN_checksum_lo, 2), (IN_checksum_hi, 2)] := by
  by_cases hcs : fs.csum = true
  · rw [csumFields, if_pos hcs]
    refine List.Sublist.cons_cons _ ?_
    split_ifs
    · exact List.Sublist.refl _
    · exact List.nil_sublist _
  · rw [csumFields, if_neg hcs]
    exact List.nil_sublist _

theorem csumFields_apart (fs : Vol) (ino : UInt32) (raw : Memory) : Field.Apart (csumFields fs ino raw) :=
  Field.Apart.sublist (csumFields_spans fs ino raw) (by decide)

theorem csumOk_csumSet (fs : Vol) (ino : UInt32) (raw : Memory) :
    sfsInodeCsumOk fs ino (sfsInodeCsumSet fs ino raw) = true := by
  by_cases hcs : fs.csum = true
  · have hsame : inodeCsum fs ino (sfsInodeCsumSet fs ino raw) = inodeCsum fs ino raw := by
      refine inodeCsum_congr fs ino fun k h1 h2 h3 => writeAll_apply_of_notMem fun f hf => ?_
      rw [csumFields, if_pos hcs] at hf
      rcases List.mem_cons.1 hf with rfl | hf
      · exact fun hk => (covers_wr16 hk).elim h1 h2
      · split_ifs at hf with hhi
        · rw [List.mem_singleton.1 hf]
          exact fun hk => (covers_wr16 hk).elim (h3 hhi).1 (h3 hhi).2
        · cases hf
    have hap := csumFields_apart fs ino raw
    have hlo : rd16 (sfsInodeCsumSet fs ino raw) IN_checksum_lo = (inodeCsum fs ino raw).1.toNat % 2 ^ 16 :=
      rd16_writeAll hap (by rw [csumFields, if_pos hcs]; exact List.mem_cons_self)
    have hc := (inodeCsum fs ino raw).1.toNat_lt
    rw [sfsInodeCsumOk, if_pos hcs, hsame]
    dsimp only
    cases hhi : (inodeCsum fs ino raw).2 with
    | true =>
      have hhigh : rd16 (sfsInodeCsumSet fs ino raw) IN_checksum_hi =
          (inodeCsum fs ino raw).1.toNat >>> 16 % 2 ^ 16 :=
        rd16_writeAll hap (by rw [csumFields, if_pos hcs]; simp [hhi])
      rw [if_pos rfl, if_pos rfl, hlo, hhigh, halves 16 (Nat.mod_eq_of_lt ?_)]
      · simp
      · rw [Nat.shiftRight_eq_div_pow]
        omega
    | false =>
      have hand : (inodeCsum fs ino raw).1.toNat &&& 0xFFFF = (inodeCsum fs ino raw).1.toNat % 2 ^ 16 :=
        Nat.and_two_pow_sub_one_eq_mod _ 16
      rw [if_neg Bool.false_ne_true, if_neg Bool.false_ne_true, hlo, hand]
      simp
  · rw [sfsInodeCsumOk, if_neg hcs]

/-! ### Timestamps -/

/-- What the two epoch bits and the nanoseconds can hold. -/
structure Stamp.Holdable (t : Stamp) : Prop where
  sec : -2 ^ 31 ≤ t.sec ∧ t.sec < 2 ^ 34 - 2 ^ 31
  ns : t.ns.toNat < 10 ^ 9

/-- A stamp that needs no extra field. -/
structure Stamp.Plain (t : Stamp) : Prop where
  sec : t.sec < 2 ^ 31
  ns : t.ns = 0

theorem int32_uint32 : int32 (uint32 x % 2 ^ 32) = (x + 2 ^ 31) % 2 ^ 32 - 2 ^ 31 := by
  rw [int32, uint32]
  split_ifs <;> omega

theorem epochOf_eq : epochOf x = ((x + 2 ^ 31) / 2 ^ 32 % 4).toNat := by
  have hmod : uint32 x % 2 ^ 32 = uint32 x := by
    rw [uint32]
    omega
  rw [epochOf, ← hmod, int32_uint32]
  omega

theorem Stamp.Holdable.sec_eq (h : t.Holdable) :
    int32 (uint32 t.sec % 2 ^ 32) + (epochOf t.sec <<< 32 : Nat) = t.sec := by
  have := h.sec
  rw [int32_uint32, epochOf_eq, Nat.shiftLeft_eq]
  omega

theorem Stamp.Plain.sec_eq (h : t.Plain) (hh : t.Holdable) :
    int32 (uint32 t.sec % 2 ^ 32) = t.sec := by
  have h1 := h.sec
  have h2 := hh.sec
  rw [int32_uint32]
  omega

theorem Stamp.Holdable.extra_eq (h : t.Holdable) :
    (epochOf t.sec ||| t.ns.toNat <<< 2) % 2 ^ 32 = t.ns.toNat * 4 + epochOf t.sec ∧ epochOf t.sec < 4 := by
  have hlt : epochOf t.sec < 2 ^ 2 := by
    rw [epochOf_eq]
    omega
  have hns := h.ns
  rw [Nat.or_comm, ← Nat.shiftLeft_add_eq_or_of_lt hlt, Nat.shiftLeft_eq]
  omega

theorem timeDecode_encode {fs : List Field} (hap : Field.Apart fs) {extra : UInt16} {xoff : Nat}
    (hsub : timeEncode extra off xoff t ⊆ fs) (hx : xoff ≠ 0) (ht : t.Holdable)
    (hfit : Fits extra xoff 4 ∨ t.Plain) : timeDecode (raw.writeAll fs) extra off xoff = t := by
  have hsec : rd32 (raw.writeAll fs) off = uint32 t.sec % 2 ^ 32 := rd32_writeAll hap (hsub List.mem_cons_self)
  rw [timeDecode]
  by_cases hf : Fits extra xoff 4
  · have hextra : rd32 (raw.writeAll fs) xoff = t.ns.toNat * 4 + epochOf t.sec := by
      rw [rd32_writeAll hap (hsub (List.mem_cons_of_mem _ ?_)), ht.extra_eq.1]
      rw [if_pos ⟨hx, hf⟩]
      exact List.mem_singleton_self _
    have hlt := ht.extra_eq.2
    have hand : (t.ns.toNat * 4 + epochOf t.sec) &&& 3 = epochOf t.sec := by
      rw [show (3 : Nat) = 2 ^ 2 - 1 from rfl, Nat.and_two_pow_sub_one_eq_mod]
      omega
    have hshift : (t.ns.toNat * 4 + epochOf t.sec) >>> 2 = t.ns.toNat := by
      omega
    have hns := ht.ns
    rw [if_pos ⟨hx, hf⟩, hsec, hextra]
    dsimp only
    rw [hand, hshift, ht.sec_eq, if_neg (by omega), UInt32.ofNat_toNat]
  · have hplain := hfit.resolve_left hf
    rw [if_neg fun h => hf h.2, hsec, hplain.sec_eq ht, ← hplain.ns]

/-! ### The block count -/

/-- `sfs_add_blocks` has left this count and returned 0. -/
def Accepted (fs : Vol) (n : UInt64) : Prop := ∃ n₀ delta, sfsAddBlocks fs n₀ delta = (n, none)

theorem Accepted.sectors {fs : Vol} {n : UInt64} (h : Accepted fs n) (hh : fs.hugeFile = false) :
    n.toNat <<< (fs.bsBits - 9) % 2 ^ 64 ≤ 0xFFFFFFFF := by
  obtain ⟨n₀, delta, hadd⟩ := h
  simp only [sfsAddBlocks, Prod.mk.injEq] at hadd
  obtain ⟨hn, hrc⟩ := hadd
  rw [hn] at hrc
  by_contra hlt
  rw [if_pos ⟨hh, by omega⟩] at hrc
  cases hrc

theorem huge_clear (f : UInt32) : f &&& ~~~IFL_HUGE_FILE &&& IFL_HUGE_FILE = 0 := by
  rw [UInt32.and_assoc, UInt32.not_and_self, UInt32.and_zero]

theorem huge_set (f : UInt32) : (f ||| IFL_HUGE_FILE) &&& IFL_HUGE_FILE = IFL_HUGE_FILE := by
  apply UInt32.toBitVec_inj.1
  ext k hk
  simp only [UInt32.toBitVec_and, UInt32.toBitVec_or, BitVec.getElem_and, BitVec.getElem_or]
  cases f.toBitVec[k] <;> simp

theorem except_huge_clear (f : UInt32) : f &&& ~~~IFL_HUGE_FILE &&& ~~~IFL_HUGE_FILE = f &&& ~~~IFL_HUGE_FILE := by
  rw [UInt32.and_assoc, UInt32.and_self]

theorem except_huge_set (f : UInt32) : (f ||| IFL_HUGE_FILE) &&& ~~~IFL_HUGE_FILE = f &&& ~~~IFL_HUGE_FILE := by
  apply UInt32.toBitVec_inj.1
  ext k hk
  simp only [UInt32.toBitVec_and, UInt32.toBitVec_or, UInt32.toBitVec_not, BitVec.getElem_and, BitVec.getElem_or,
    BitVec.getElem_not]
  cases f.toBitVec[k] <;> simp

/-- A count whose sectors fit in 48 bits, read back from them. -/
theorem decode_sectors {s : Nat} (hs : 1 ≤ s ∧ s ≤ 3) {n : UInt64} (hlt : n.toNat <<< s % 2 ^ 64 ≤ 0xFFFFFFFFFFFF) :
    UInt64.ofNat ((n.toNat <<< s % 2 ^ 64) >>> s) = n ↔ n.toNat < 2 ^ 48 := by
  have hback : (n.toNat <<< s % 2 ^ 64) >>> s < 2 ^ 48 ∧
      (n.toNat < 2 ^ 48 → (n.toNat <<< s % 2 ^ 64) >>> s = n.toNat) := by
    obtain rfl | rfl | rfl : s = 1 ∨ s = 2 ∨ s = 3 := by omega
    all_goals omega
  constructor
  · intro h
    rw [← h, UInt64.toNat_ofNat_of_lt' (by rw [UInt64.size]; omega)]
    exact hback.1
  · intro h
    rw [hback.2 h, UInt64.ofNat_toNat]

/-- How the block count is stored, and what is read back. -/
theorem encodeBlocks_ok {fs : Vol} (h : Accepted fs i.nblocks) :
    ∃ lo hi flags, encodeBlocks fs i = .ok (lo, hi, flags) ∧
      flags &&& ~~~IFL_HUGE_FILE = i.flags &&& ~~~IFL_HUGE_FILE ∧
      ∀ raw, rd32 raw IN_blocks_lo = lo % 2 ^ 32 → rd16 raw IN_blocks_high = hi % 2 ^ 16 →
        (decodeBlocks fs flags raw = i.nblocks ↔ i.nblocks.toNat < 2 ^ 48) := by
  have hs : 1 ≤ fs.bsBits - 9 ∧ fs.bsBits - 9 ≤ 3 := by
    have := fs.bsBits_range
    omega
  have hsectors := h.sectors
  have hback := decode_sectors (s := fs.bsBits - 9) (n := i.nblocks) hs
  simp only [encodeBlocks]
  generalize i.nblocks.toNat <<< (fs.bsBits - 9) % 2 ^ 64 = q at hsectors hback ⊢
  by_cases h32 : q ≤ 0xFFFFFFFF
  · refine ⟨q, 0, i.flags &&& ~~~IFL_HUGE_FILE, by rw [if_pos h32], except_huge_clear _, fun raw hlo hhi => ?_⟩
    have hd : decodeBlocks fs (i.flags &&& ~~~IFL_HUGE_FILE) raw = UInt64.ofNat (q >>> (fs.bsBits - 9)) := by
      have hmod : q % 2 ^ 32 = q := by omega
      rw [decodeBlocks, hlo, hhi, huge_clear, hmod]
      simp
    rw [hd]
    exact hback (by omega)
  · have hhuge : fs.hugeFile = true := by
      by_contra hno
      exact h32 (hsectors (by simpa using hno))
    by_cases h48 : q ≤ 0xFFFFFFFFFFFF
    · refine ⟨q, q >>> 32, i.flags &&& ~~~IFL_HUGE_FILE, by rw [if_neg h32, if_neg (by simp [hhuge]), if_pos h48],
        except_huge_clear _, fun raw hlo hhi => ?_⟩
      have hd : decodeBlocks fs (i.flags &&& ~~~IFL_HUGE_FILE) raw = UInt64.ofNat (q >>> (fs.bsBits - 9)) := by
        rw [decodeBlocks, hlo, hhi, huge_clear, if_pos hhuge]
        rw [if_neg (by simp), halves 32 (Nat.mod_eq_of_lt ?_)]
        omega
      rw [hd]
      exact hback h48
    · refine ⟨i.nblocks.toNat, i.nblocks.toNat >>> 32, i.flags ||| IFL_HUGE_FILE,
        by rw [if_neg h32, if_neg (by simp [hhuge]), if_neg h48], except_huge_set _, fun raw hlo hhi => ?_⟩
      have hhigh : i.nblocks.toNat >>> 32 % 2 ^ 16 = (i.nblocks.toNat % 2 ^ 48) >>> 32 := by
        omega
      have hlow : i.nblocks.toNat % 2 ^ 32 = i.nblocks.toNat % 2 ^ 48 % 2 ^ 32 := by omega
      have hd : decodeBlocks fs (i.flags ||| IFL_HUGE_FILE) raw = UInt64.ofNat (i.nblocks.toNat % 2 ^ 48) := by
        rw [decodeBlocks, hlo, hhi, huge_set, if_pos hhuge]
        rw [if_pos (by decide), hlow, halves 32 hhigh]
      rw [hd]
      constructor
      · intro heq
        rw [← heq, UInt64.toNat_ofNat_of_lt' (by rw [UInt64.size]; omega)]
        exact Nat.mod_lt _ (by decide)
      · intro hlt
        rw [Nat.mod_eq_of_lt hlt, UInt64.ofNat_toNat]

/-! ### The record -/

/-- Where `encode` writes; the fields from `extra_isize` on depend on the inode. -/
def layout : List (Nat × Nat) :=
  [(IN_mode, 2), (IN_uid, 2), (IN_uid_high, 2), (IN_gid, 2), (IN_gid_high, 2), (IN_size_lo, 4), (IN_size_high, 4),
    (IN_links_count, 2), (IN_dtime, 4), (IN_blocks_lo, 4), (IN_blocks_high, 2), (IN_flags, 4), (IN_generation, 4),
    (IN_file_acl_lo, 4), (IN_file_acl_high, 2), (IN_block, IN_BLOCK_BYTES)] ++
  [(IN_extra_isize, 2)] ++ [(IN_atime, 4), (IN_atime_extra, 4)] ++ [(IN_mtime, 4), (IN_mtime_extra, 4)] ++
  [(IN_ctime, 4), (IN_ctime_extra, 4)] ++ [(IN_crtime, 4), (IN_crtime_extra, 4)] ++
  [(IN_checksum_lo, 2), (IN_checksum_hi, 2)]

theorem timeEncode_spans (extra : UInt16) (off xoff : Nat) (t : Stamp) :
    ((timeEncode extra off xoff t).map Field.span).Sublist [(off, 4), (xoff, 4)] := by
  refine List.Sublist.cons_cons _ ?_
  split_ifs
  · exact List.Sublist.refl _
  · exact List.nil_sublist _

/-- All that `encode` writes, `raw` being what the checksum is taken of. -/
def record (fs : Vol) (i : Inode) (lo hi : Nat) (flags : UInt32) (raw : Memory) : List Field :=
  encodeHead i ++ encodeTail fs i lo hi flags ++ csumFields fs i.ino raw

theorem record_apart (fs : Vol) (i : Inode) (lo hi : Nat) (flags : UInt32) (raw : Memory) :
    Field.Apart (record fs i lo hi flags raw) := by
  refine Field.Apart.sublist (?_ : List.Sublist _ layout) (by decide)
  have hextra : ((if 128 < fs.isize then [wr16 IN_extra_isize i.extraIsize.toNat] else []).map Field.span).Sublist
      [(IN_extra_isize, 2)] := by
    split_ifs
    · exact List.Sublist.refl _
    · exact List.nil_sublist _
  have hcrtime : ((if Fits i.extraIsize IN_crtime 4 then timeEncode i.extraIsize IN_crtime IN_crtime_extra i.crtime
      else []).map Field.span).Sublist [(IN_crtime, 4), (IN_crtime_extra, 4)] := by
    split_ifs
    · exact timeEncode_spans _ _ _ _
    · exact List.nil_sublist _
  simp only [record, encodeTail, List.map_append, ← List.append_assoc]
  exact (((((List.Sublist.refl _).append hextra).append (timeEncode_spans _ _ _ _)).append
    (timeEncode_spans _ _ _ _)).append (timeEncode_spans _ _ _ _)).append hcrtime |>.append (csumFields_spans _ _ _)

theorem encode_eq {fs : Vol} {hi : Nat} (h : encodeBlocks fs i = .ok (lo, hi, flags)) (raw : Memory) :
    ∃ raw₀, encode fs i raw =
      (none, { i with flags }, raw.writeAll (record fs i lo hi flags raw₀)) ∧
      raw.writeAll (record fs i lo hi flags raw₀) = sfsInodeCsumSet fs i.ino raw₀ := by
  refine ⟨raw.writeAll (encodeHead i ++ encodeTail fs i lo hi flags), ?_, ?_⟩
  · simp only [encode, h, record, sfsInodeCsumSet, writeAll_append]
  · simp only [record, sfsInodeCsumSet, writeAll_append]

/-! ### Reading a record -/

section
variable {raw : Memory} {fl : List Field} (hap : Field.Apart fl)
include hap

variable {off : Nat}

theorem read16 {v : UInt16} (h : wr16 off v.toNat ∈ fl) :
    UInt16.ofNat (rd16 (raw.writeAll fl) off) = v := by
  rw [rd16_writeAll hap h, Nat.mod_eq_of_lt v.toNat_lt, UInt16.ofNat_toNat]

theorem read32 {v : UInt32} (h : wr32 off v.toNat ∈ fl) :
    UInt32.ofNat (rd32 (raw.writeAll fl) off) = v := by
  rw [rd32_writeAll hap h, Nat.mod_eq_of_lt v.toNat_lt, UInt32.ofNat_toNat]

theorem read_ids {lo hi : Nat} {v : UInt32} (hlo : wr16 lo v.toNat ∈ fl) (hhi : wr16 hi (v.toNat >>> 16) ∈ fl) :
    UInt32.ofNat (rd16 (raw.writeAll fl) lo ||| rd16 (raw.writeAll fl) hi <<< 16) = v := by
  have hlt := v.toNat_lt
  rw [rd16_writeAll hap hlo, rd16_writeAll hap hhi, halves 16 (Nat.mod_eq_of_lt ?_), UInt32.ofNat_toNat]
  omega

theorem read_acl {v : UInt64} (hv : v.toNat < 2 ^ 48) (hlo : wr32 IN_file_acl_lo v.toNat ∈ fl)
    (hhi : wr16 IN_file_acl_high (v.toNat >>> 32) ∈ fl) :
    UInt64.ofNat (rd32 (raw.writeAll fl) IN_file_acl_lo ||| rd16 (raw.writeAll fl) IN_file_acl_high <<< 32) = v := by
  rw [rd32_writeAll hap hlo, rd16_writeAll hap hhi, halves 32 (Nat.mod_eq_of_lt ?_), UInt64.ofNat_toNat]
  omega

theorem read_size {fs : Vol} {mode : UInt16} {v : UInt64} (hv : WideSize fs mode ∨ v.toNat < 2 ^ 32)
    (hlo : wr32 IN_size_lo v.toNat ∈ fl) (hhi : wr32 IN_size_high (v.toNat >>> 32) ∈ fl) :
    UInt64.ofNat (if WideSize fs mode then
      rd32 (raw.writeAll fl) IN_size_lo ||| rd32 (raw.writeAll fl) IN_size_high <<< 32
      else rd32 (raw.writeAll fl) IN_size_lo) = v := by
  have hlt := v.toNat_lt
  by_cases hw : WideSize fs mode
  · rw [if_pos hw, rd32_writeAll hap hlo, rd32_writeAll hap hhi, halves 32 (Nat.mod_eq_of_lt ?_), UInt64.ofNat_toNat]
    omega
  · rw [if_neg hw, rd32_writeAll hap hlo, Nat.mod_eq_of_lt (hv.resolve_left hw), UInt64.ofNat_toNat]

theorem read_iblock {b : Vector (BitVec 8) IN_BLOCK_BYTES}
    (h : (⟨IN_block, IN_BLOCK_BYTES, fun k => b.toList.getD k 0⟩ : Field) ∈ fl) :
    (Vector.ofFn fun k => raw.writeAll fl (IN_block + k) : Vector (BitVec 8) IN_BLOCK_BYTES) = b := by
  apply Vector.ext
  intro k hk
  rw [Vector.getElem_ofFn]
  refine (writeAll_apply_of_mem hap h hk).trans ?_
  simp [hk]

end

/-! ### The whole inode -/

/-- The fields have values that the code can hold, and the stamps have the extra fields that they need. -/
structure Holdable (fs : Vol) (i : Inode) : Prop where
  size : WideSize fs i.mode ∨ i.size.toNat < 2 ^ 32
  fileAcl : i.fileAcl.toNat < 2 ^ 48
  extra_four : i.extraIsize.toNat % 4 = 0
  extra_fits : 128 + i.extraIsize.toNat ≤ fs.isize
  atime : i.atime.Holdable
  mtime : i.mtime.Holdable
  ctime : i.ctime.Holdable
  crtime : i.crtime.Holdable
  atime_extra : Fits i.extraIsize IN_atime_extra 4 ∨ i.atime.Plain
  mtime_extra : Fits i.extraIsize IN_mtime_extra 4 ∨ i.mtime.Plain
  ctime_extra : Fits i.extraIsize IN_ctime_extra 4 ∨ i.ctime.Plain
  crtime_extra : Fits i.extraIsize IN_crtime_extra 4 ∨ i.crtime.Plain
  crtime_fits : Fits i.extraIsize IN_crtime 4 ∨ i.crtime = ⟨0, 0⟩

/-- What is kept on disk, but for the flags and the block count. -/
structure SameFields (i j : Inode) : Prop where
  ino : j.ino = i.ino
  mode : j.mode = i.mode
  links : j.links = i.links
  uid : j.uid = i.uid
  gid : j.gid = i.gid
  size : j.size = i.size
  generation : j.generation = i.generation
  fileAcl : j.fileAcl = i.fileAcl
  dtime : j.dtime = i.dtime
  atime : j.atime = i.atime
  mtime : j.mtime = i.mtime
  ctime : j.ctime = i.ctime
  crtime : j.crtime = i.crtime
  extraIsize : j.extraIsize = i.extraIsize
  iblock : j.iblock = i.iblock

theorem decode_record {fs : Vol} (hi : Holdable fs i) {hi' : Nat} (raw : Memory) {fl : List Field}
    (hap : Field.Apart fl) (hhead : encodeHead i ⊆ fl) (htail : encodeTail fs i lo hi' flags ⊆ fl) :
    ∃ j, decode fs i.ino (raw.writeAll fl) = .ok j ∧ SameFields i j ∧ j.flags = flags ∧
      j.nblocks = decodeBlocks fs flags (raw.writeAll fl) := by
  simp only [encodeHead, List.cons_subset, List.nil_subset, and_true] at hhead
  obtain ⟨hmode, huid, huidHigh, hgid, hgidHigh, hsize, hsizeHigh, hlinks, hdtime⟩ := hhead
  simp only [encodeTail, List.append_subset, List.cons_subset, List.nil_subset, and_true] at htail
  obtain ⟨⟨⟨⟨⟨⟨-, -, hflags, hgen, hacl, haclHigh, hblock⟩, hextra⟩, hatime⟩, hmtime⟩, hctime⟩, hcrtime⟩ := htail
  have hextra' : (if 128 < fs.isize then UInt16.ofNat (rd16 (raw.writeAll fl) IN_extra_isize) else 0) =
      i.extraIsize := by
    by_cases hbig : 128 < fs.isize
    · rw [if_pos hbig] at hextra ⊢
      exact read16 hap (hextra List.mem_cons_self)
    · have hzero := hi.extra_fits
      rw [if_neg hbig]
      exact UInt16.toNat_inj.1 (by show 0 = _; omega)
  have hmode' : UInt16.ofNat (rd16 (raw.writeAll fl) IN_mode) = i.mode := read16 hap hmode
  have hflags' : UInt32.ofNat (rd32 (raw.writeAll fl) IN_flags) = flags := read32 hap hflags
  have hgood : ¬(128 < fs.isize ∧ (i.extraIsize &&& 3 ≠ 0 ∨ fs.isize < 128 + i.extraIsize.toNat)) := by
    rintro ⟨-, h | h⟩
    · refine h (UInt16.toNat_inj.1 ?_)
      exact (Nat.and_two_pow_sub_one_eq_mod _ 2).trans hi.extra_four
    · have := hi.extra_fits
      omega
  simp only [decode, hextra', hmode', hflags', if_neg hgood]
  refine ⟨_, rfl, ⟨rfl, rfl, read16 hap hlinks, read_ids hap huid huidHigh, read_ids hap hgid hgidHigh,
    read_size hap hi.size hsize hsizeHigh, read32 hap hgen, read_acl hap hi.fileAcl hacl haclHigh, read32 hap hdtime,
    timeDecode_encode hap hatime (by decide) hi.atime hi.atime_extra,
    timeDecode_encode hap hmtime (by decide) hi.mtime hi.mtime_extra,
    timeDecode_encode hap hctime (by decide) hi.ctime hi.ctime_extra, ?_, rfl, read_iblock hap hblock⟩, rfl, rfl⟩
  by_cases hfit : Fits i.extraIsize IN_crtime 4
  · rw [if_pos hfit] at hcrtime
    rw [if_pos hfit]
    exact timeDecode_encode hap hcrtime (by decide) hi.crtime hi.crtime_extra
  · dsimp only
    rw [if_neg hfit]
    exact (hi.crtime_fits.resolve_left hfit).symm

/-- Decoding what was encoded gives the inode back, and the checksum verifies. -/
def RoundTrips (fs : Vol) (i : Inode) (raw : Memory) : Prop :=
  ∃ i' raw' j, encode fs i raw = (none, i', raw') ∧ decode fs i.ino raw' = .ok j ∧ SameFields i j ∧
    j.flags &&& ~~~IFL_HUGE_FILE = i.flags &&& ~~~IFL_HUGE_FILE ∧ j.nblocks = i.nblocks ∧
    sfsInodeCsumOk fs i.ino raw' = true

/-- What an accepted inode reads back as; only the block count depends on its value. -/
theorem decode_encode {fs : Vol} (hi : Holdable fs i) (ha : Accepted fs i.nblocks) (raw : Memory) :
    ∃ i' raw' j, encode fs i raw = (none, i', raw') ∧ decode fs i.ino raw' = .ok j ∧ SameFields i j ∧
      j.flags &&& ~~~IFL_HUGE_FILE = i.flags &&& ~~~IFL_HUGE_FILE ∧
      (j.nblocks = i.nblocks ↔ i.nblocks.toNat < 2 ^ 48) ∧ sfsInodeCsumOk fs i.ino raw' = true := by
  obtain ⟨lo, hi', flags, henc, hflags, hblocks⟩ := encodeBlocks_ok ha
  obtain ⟨raw₀, hraw, hset⟩ := encode_eq henc raw
  have hap := record_apart fs i lo hi' flags raw₀
  have hhead : encodeHead i ⊆ record fs i lo hi' flags raw₀ := fun f hf =>
    List.mem_append_left _ (List.mem_append_left _ hf)
  have htail : encodeTail fs i lo hi' flags ⊆ record fs i lo hi' flags raw₀ := fun f hf =>
    List.mem_append_left _ (List.mem_append_right _ hf)
  obtain ⟨j, hdec, hsame, hjf, hjn⟩ := decode_record hi raw hap hhead htail
  refine ⟨_, _, j, hraw, hdec, hsame, by rw [hjf, hflags], ?_, hset ▸ csumOk_csumSet fs i.ino raw₀⟩
  rw [hjn]
  refine hblocks _ (rd32_writeAll hap (htail ?_)) (rd16_writeAll hap (htail ?_))
  · simp [encodeTail]
  · simp [encodeTail]

/-- A volume with blocks of 1 KiB and the feature huge_file. -/
def sampleVol : Vol where
  bsBits := 10
  isize := 256
  csum := true
  csumSeed := 0x1234
  hugeFile := true
  largedir := false
  bsBits_range := by decide
  isize_range := by decide
  isize_pow := ⟨8, rfl⟩

/-- A regular file with 65 blocks. -/
def sampleInode : Inode where
  ino := 12
  mode := 0x81A4
  links := 1
  uid := 1000
  gid := 1000
  size := 0x10000
  nblocks := 65
  flags := 0x80000
  generation := 7
  fileAcl := 0
  dtime := 0
  atime := ⟨2 ^ 32, 5⟩
  mtime := ⟨-1, 0⟩
  ctime := ⟨0, 999999999⟩
  crtime := ⟨3, 0⟩
  extraIsize := 32
  csumSeed := 0
  iblock := Vector.replicate 60 0

theorem Holdable.nblocks {fs : Vol} (h : Holdable fs i) (n : UInt64) :
    Holdable fs { i with nblocks := n } :=
  ⟨h.size, h.fileAcl, h.extra_four, h.extra_fits, h.atime, h.mtime, h.ctime, h.crtime, h.atime_extra, h.mtime_extra,
    h.ctime_extra, h.crtime_extra, h.crtime_fits⟩

theorem sampleInode_holdable : Holdable sampleVol sampleInode where
  size := Or.inl (by decide)
  fileAcl := by decide
  extra_four := by decide
  extra_fits := by decide
  atime := ⟨by decide, by decide⟩
  mtime := ⟨by decide, by decide⟩
  ctime := ⟨by decide, by decide⟩
  crtime := ⟨by decide, by decide⟩
  atime_extra := Or.inl (by decide)
  mtime_extra := Or.inl (by decide)
  ctime_extra := Or.inl (by decide)
  crtime_extra := Or.inl (by decide)
  crtime_fits := Or.inl (by decide)

/-- An inode that the code can hold round-trips if and only if its block count fits in 48 bits. -/
theorem roundTrips_iff {fs : Vol} {i : Inode} (hi : Holdable fs i) (ha : Accepted fs i.nblocks) (raw : Memory) :
    RoundTrips fs i raw ↔ i.nblocks.toNat < 2 ^ 48 := by
  obtain ⟨i', raw', j, henc, hdec, hsame, hflags, hblocks, hok⟩ := decode_encode hi ha raw
  constructor
  · rintro ⟨i₁, raw₁, j₁, henc₁, hdec₁, -, -, hn, -⟩
    rw [henc, Prod.mk.injEq, Prod.mk.injEq] at henc₁
    obtain ⟨-, rfl, rfl⟩ := henc₁
    rw [hdec, Except.ok.injEq] at hdec₁
    exact hblocks.1 (hdec₁ ▸ hn)
  · exact fun hlt => ⟨i', raw', j, henc, hdec, hsame, hflags, hblocks.2 hlt, hok⟩

theorem roundTrips_sample :
    RoundTrips sampleVol sampleInode (fun _ => 0xFF) ↔ sampleInode.nblocks.toNat < 2 ^ 48 :=
  roundTrips_iff sampleInode_holdable ⟨64, 1, by decide⟩ _

/-- One block more than 48 bits count is accepted, and the stored count is 0. -/
theorem huge_count_lost :
    ¬∀ fs i raw, Holdable fs i → Accepted fs i.nblocks → RoundTrips fs i raw := by
  intro h
  have hi := sampleInode_holdable.nblocks (2 ^ 48)
  have hacc : Accepted sampleVol (2 ^ 48) := ⟨2 ^ 48 - 1, 1, by decide⟩
  obtain ⟨i', raw', j, henc, hdec, -, -, hblocks, -⟩ := decode_encode hi hacc fun _ => 0
  obtain ⟨i₁, raw₁, j₁, henc₁, hdec₁, -, -, hn, -⟩ := h _ _ (fun _ => 0) hi hacc
  rw [henc, Prod.mk.injEq, Prod.mk.injEq] at henc₁
  obtain ⟨-, rfl, rfl⟩ := henc₁
  rw [hdec, Except.ok.injEq] at hdec₁
  exact absurd (hblocks.1 (hdec₁ ▸ hn)) (by decide)

end Win98Modern.Libsfs.Raw
