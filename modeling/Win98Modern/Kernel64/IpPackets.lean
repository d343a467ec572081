import Win98Modern.Kernel64.IpFragment
import Mathlib.Data.Nat.Bitwise

/-!
# The packets of `ip_output`

They carry parts of the payload, each with the offset and the flag that are read back from its
header, and all of the payload if `ip_output` returns no error (`Sending.reads`).
-/

namespace Win98Modern.Net

open List

/-! ### The packets of a datagram -/

/-- A call of `ip_output`, behind its `route_lookup`. -/
structure Sending where
  rt : Route
  ident : BitVec 16
  send : Nat → Option NetErr
  proto : Byte
  src : BitVec 32
  dst : BitVec 32
  payload : List Byte
  df : Bool

namespace Sending

def output (d : Sending) : Output :=
  d.rt.ipOutput d.ident d.send d.proto d.src d.dst d.payload d.df

def source (d : Sending) : BitVec 32 := if d.src = 0 then d.rt.src else d.src

def flow (d : Sending) : Flow := ⟨d.source, d.dst, d.ident + 1, d.proto⟩

def datagram (d : Sending) : Datagram := ⟨d.proto, d.source, d.dst, d.payload⟩

/-- A payload that is not empty and fits in a datagram; eight bytes of payload fit in a packet. -/
structure Valid (d : Sending) : Prop where
  mtu_ge : IP_HLEN + 8 ≤ d.rt.mtu
  pos : 0 < d.payload.length
  le : d.payload.length + IP_HLEN ≤ 65535

end Sending

/-- The length of the header and of the packet, as `ip_input` reads them. -/
def ihl (p : List Byte) : Nat := (p.getD 0 0 &&& 15).toNat * 4

def totalLength (p : List Byte) : Nat := (rd16 p 2).toNat

/-- The part of `s` at `o`, with `n` bytes. -/
def pieceAt (s : List Byte) (o n : Nat) : Piece Byte := ⟨o, (s.drop o).take n, o + n = s.length⟩

/-- `q` carries the `n` bytes at `o` of the payload of `d`; bytes behind the packet are padding. -/
structure Reads (d : Sending) (q : List Byte) (o n : Nat) : Prop where
  aligned : 8 ∣ o
  pos : 0 < n
  le : o + n ≤ d.payload.length
  part : o + n < d.payload.length → 8 ∣ n
  flow : ∀ pad, flowOf (q ++ pad) = d.flow
  piece : ∀ pad, fragmentOf (q ++ pad) (ihl (q ++ pad)) (totalLength (q ++ pad)) =
    pieceAt d.payload o n

theorem wr16_append (v : BitVec 16) : v.extractLsb' 8 8 ++ v.extractLsb' 0 8 = v := by
  ext i hi
  simp only [BitVec.getElem_append, BitVec.getElem_extractLsb']
  split
  · exact congrArg v.getLsbD (show 0 + i = i by omega)
  · exact congrArg v.getLsbD (show 8 + (i - 8) = i by omega)

theorem wr32_append (v : BitVec 32) :
    v.extractLsb' 24 8 ++ v.extractLsb' 16 8 ++ v.extractLsb' 8 8 ++ v.extractLsb' 0 8 = v := by
  ext i hi
  simp only [BitVec.getElem_append, BitVec.getElem_extractLsb']
  split
  · exact congrArg v.getLsbD (show 0 + i = i by omega)
  · split
    · exact congrArg v.getLsbD (show 8 + (i - 8) = i by omega)
    · split
      · exact congrArg v.getLsbD (show 16 + (i - 8 - 8) = i by omega)
      · exact congrArg v.getLsbD (show 24 + (i - 8 - 8 - 8) = i by omega)

section Header

variable {proto : Byte} {src dst : BitVec 32} {total : Nat} {id frag : BitVec 16} {rest : List Byte}

theorem flowOf_header :
    flowOf (buildIpHeader proto src dst total id frag ++ rest) = ⟨src, dst, id, proto⟩ := by
  have hsrc : rd32 (buildIpHeader proto src dst total id frag ++ rest) 12 = src := wr32_append src
  have hdst : rd32 (buildIpHeader proto src dst total id frag ++ rest) 16 = dst := wr32_append dst
  have hid : rd16 (buildIpHeader proto src dst total id frag ++ rest) 4 = id := wr16_append id
  have hproto : (buildIpHeader proto src dst total id frag ++ rest).getD 9 0 = proto := rfl
  unfold flowOf
  rw [hsrc, hdst, hid, hproto]

theorem ihl_header : ihl (buildIpHeader proto src dst total id frag ++ rest) = IP_HLEN := by
  show ((0x45 : Byte) &&& 15).toNat * 4 = IP_HLEN
  decide

theorem totalLength_header (h : total < 65536) :
    totalLength (buildIpHeader proto src dst total id frag ++ rest) = total := by
  have hrd : rd16 (buildIpHeader proto src dst total id frag ++ rest) 2 = BitVec.ofNat 16 total :=
    wr16_append _
  unfold totalLength
  rw [hrd, BitVec.toNat_ofNat, Nat.mod_eq_of_lt h]

theorem fragmentOf_header (chunk pad : List Byte) :
    fragmentOf (buildIpHeader proto src dst total id frag ++ chunk ++ pad) IP_HLEN
        (IP_HLEN + chunk.length) =
      ⟨(frag &&& 0x1fff).toNat * 8, chunk, frag &&& 0x2000 = 0⟩ := by
  have hrd : rd16 (buildIpHeader proto src dst total id frag ++ chunk ++ pad) 6 = frag := by
    exact wr16_append frag
  have hdata : ((buildIpHeader proto src dst total id frag ++ chunk ++ pad).drop IP_HLEN).take
      (IP_HLEN + chunk.length - IP_HLEN) = chunk := by
    rw [Nat.add_sub_cancel_left, append_assoc]
    exact take_left
  unfold fragmentOf
  rw [hrd, hdata]

end Header

/-- The offset of a fragment and its flag, as they are read. -/
theorem frag_field {x : Nat} (hx : x < 0x2000) (more : Bool) :
    let frag := BitVec.ofNat 16 (x ||| if more then 0x2000 else 0)
    (frag &&& 0x1fff).toNat = x ∧ (frag &&& 0x2000 = 0 ↔ more = false) := by
  have hlt : (x ||| if more then 0x2000 else 0) < 2 ^ 16 :=
    Nat.or_lt_two_pow (by omega) (by split <;> decide)
  have hoff : (x ||| if more then 0x2000 else 0) &&& (2 ^ 13 - 1) = x := by
    rw [Nat.and_two_pow_sub_one_eq_mod, Nat.or_mod_two_pow, Nat.mod_eq_of_lt (by omega : x < 2 ^ 13)]
    cases more <;> exact Nat.or_zero x
  have hflag : (x ||| if more then 0x2000 else 0).testBit 13 = more := by
    rw [Nat.testBit_or, Nat.testBit_lt_two_pow (by omega : x < 2 ^ 13)]
    cases more <;> rfl
  refine ⟨?_, ?_⟩
  · rw [BitVec.toNat_and, BitVec.toNat_ofNat, Nat.mod_eq_of_lt hlt]
    exact hoff
  · rw [BitVec.toNat_eq, BitVec.toNat_and, BitVec.toNat_ofNat, Nat.mod_eq_of_lt hlt]
    show (x ||| if more then 0x2000 else 0) &&& 2 ^ 13 = 0 ↔ _
    rw [Nat.and_two_pow, hflag]
    cases more <;> decide

theorem reads_of_header {d : Sending} (hd : d.Valid) {o n : Nat} (frag : BitVec 16) (haligned : 8 ∣ o)
    (hpos : 0 < n) (hle : o + n ≤ d.payload.length) (hpart : o + n < d.payload.length → 8 ∣ n)
    (hoff : (frag &&& 0x1fff).toNat * 8 = o)
    (hlast : frag &&& 0x2000 = 0 ↔ o + n = d.payload.length) :
    Reads d (buildIpHeader d.proto d.source d.dst (IP_HLEN + n) (d.ident + 1) frag ++
      (d.payload.drop o).take n) o n := by
  have hlen : ((d.payload.drop o).take n).length = n := by
    rw [length_take, length_drop]
    omega
  refine ⟨haligned, hpos, hle, hpart, ?_, ?_⟩ <;> intro pad
  · rw [append_assoc]
    exact flowOf_header
  · have htotal : IP_HLEN + n < 65536 := by have := hd.le; omega
    rw [append_assoc, ihl_header, totalLength_header htotal, ← append_assoc]
    have hfrag : fragmentOf (buildIpHeader d.proto d.source d.dst (IP_HLEN + n) (d.ident + 1) frag ++
        (d.payload.drop o).take n ++ pad) IP_HLEN (IP_HLEN + ((d.payload.drop o).take n).length) = _ :=
      fragmentOf_header _ pad
    rw [hlen] at hfrag
    rw [hfrag]
    unfold pieceAt
    rw [hoff, decide_eq_decide.2 hlast]

theorem fragmentLoop_reads {d : Sending} (hd : d.Valid) {per : Nat} (hper : 0 < per)
    (halign : 8 ∣ per) (fuel : Nat) : ∀ off i : Nat, 8 ∣ off →
    let sent := fragmentLoop
      (fun total frag => buildIpHeader d.proto d.source d.dst total (d.ident + 1) frag) d.payload per
      d.send fuel off i
    (∀ q ∈ sent.2, ∃ o n, Reads d q o n) ∧
      (sent.1 = none → d.payload.length ≤ off + fuel → ∀ j, off ≤ j → j < d.payload.length →
        ∃ q ∈ sent.2, ∃ o n, Reads d q o n ∧ o ≤ j ∧ j < o + n) := by
  induction fuel with
  | zero =>
    intro off i _
    exact ⟨nofun, fun _ hle j hlo hhi => absurd (Nat.lt_of_lt_of_le hhi hle) (Nat.not_lt.2 hlo)⟩
  | succ fuel ih =>
    intro off i hoff
    unfold fragmentLoop
    by_cases hlt : off < d.payload.length
    · simp only [if_pos hlt]
      generalize hn : (if d.payload.length - off > per then per else d.payload.length - off) = n
      have hcut : 0 < n ∧ off + n ≤ d.payload.length ∧
          (off + n < d.payload.length → n = per) := by
        split at hn <;> omega
      obtain ⟨hpos, hle, hmore⟩ := hcut
      have hpart : off + n < d.payload.length → 8 ∣ n := fun h => hmore h ▸ halign
      have hfield := frag_field (x := off / 8) (by have := hd.le; omega)
        (decide (off + n < d.payload.length))
      simp only [decide_eq_true_eq] at hfield
      have hread := reads_of_header hd
        (BitVec.ofNat 16 (off / 8 ||| if off + n < d.payload.length then 0x2000 else 0))
        hoff hpos hle hpart (by rw [hfield.1, Nat.div_mul_cancel hoff])
        (hfield.2.trans (by rw [decide_eq_false_iff_not]; omega))
      cases hs : d.send i with
      | some st =>
        refine ⟨fun q hq => ?_, nofun⟩
        obtain rfl := mem_singleton.1 hq
        exact ⟨off, n, hread⟩
      | none =>
        by_cases hend : off + n < d.payload.length
        · have hnext := ih (off + n) (i + 1) (Nat.dvd_add hoff (hpart hend))
          constructor
          · intro q hq
            obtain rfl | hq := mem_cons.1 hq
            · exact ⟨off, n, hread⟩
            · exact hnext.1 q hq
          · intro hnone hfuel j hlo hhi
            obtain hj | hj := Nat.lt_or_ge j (off + n)
            · exact ⟨_, mem_cons_self, off, n, hread, hlo, hj⟩
            · obtain ⟨q, hq, hcover⟩ := hnext.2 hnone (by omega) j hj hhi
              exact ⟨q, mem_cons_of_mem _ hq, hcover⟩
        · have hrest : fragmentLoop (fun total frag => buildIpHeader d.proto d.source d.dst total
              (d.ident + 1) frag) d.payload per d.send fuel (off + n) (i + 1) = (none, []) := by
            cases fuel with
            | zero => rfl
            | succ fuel =>
              exact if_neg hend
          constructor
          · intro q hq
            rw [hrest] at hq
            obtain rfl := mem_singleton.1 hq
            exact ⟨off, n, hread⟩
          · intro _ _ j hlo hhi
            exact ⟨_, mem_cons_self, off, n, hread, hlo, by omega⟩
    · rw [if_neg hlt]
      exact ⟨nofun, fun _ _ j hlo hhi => absurd (Nat.lt_of_le_of_lt hlo hhi) hlt⟩

theorem Sending.reads {d : Sending} (hd : d.Valid) :
    (∀ q ∈ d.output.packets, ∃ o n, Reads d q o n) ∧
      (d.output.status = none → ∀ j < d.payload.length,
        ∃ q ∈ d.output.packets, ∃ o n, Reads d q o n ∧ o ≤ j ∧ j < o + n) := by
  have hper : 8 ≤ (d.rt.mtu - IP_HLEN) / 8 * 8 := by have := hd.mtu_ge; omega
  unfold Sending.output Route.ipOutput
  by_cases hfit : d.payload.length + IP_HLEN ≤ d.rt.mtu
  · simp only [if_pos hfit]
    have hread := reads_of_header (o := 0) (n := d.payload.length) hd
      (if d.df then 0x4000 else 0) (Nat.dvd_zero 8) hd.pos (by omega) (by omega)
      (by cases d.df <;> rfl) (by cases d.df <;> simp)
    rw [drop_zero, take_length] at hread
    constructor
    · intro q hq
      obtain rfl := mem_singleton.1 hq
      exact ⟨_, _, hread⟩
    · intro _ j hj
      exact ⟨_, mem_singleton_self _, _, _, hread, by omega, by omega⟩
  · by_cases hbig : d.df = true ∨ d.payload.length + IP_HLEN > 65535
    · simp only [if_neg hfit, if_pos hbig]
      exact ⟨nofun, nofun⟩
    · simp only [if_neg hfit, if_neg hbig]
      have hloop := fragmentLoop_reads hd (Nat.lt_of_lt_of_le (by decide) hper)
        (Nat.dvd_mul_left 8 _) d.payload.length 0 0 (Nat.dvd_zero 8)
      exact ⟨hloop.1, fun hnone j hj => hloop.2 hnone (by omega) j (by omega) hj⟩

end Win98Modern.Net
