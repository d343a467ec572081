import Win98Modern.Libsfs.Basic
import Mathlib.Data.List.Basic
import Mathlib.Tactic.Ring

/-!
# The log blocks of a commit

`sfs_journal_commit` (`libsfs/sfs_jbd2.c`) with `write_revokes` and `jmap`: the blocks that it puts into
the log in a run in which the device writes go through, and `need`, the number of blocks that it makes
room for.  Checksums, sequence numbers and the UUID behind the first tag are left out, the buffers are
those of the sorted transaction, and the runs of revoked blocks are one list.  A position behind the
mapped blocks of the journal file ends the commit with `ECORRUPT`; what it wrote before that is not said.

`need` counts bytes of revoke records, and `write_revokes` fills whole records.  Where the two differ
is said by `RevokesFill`.
-/

namespace Win98Modern.Libsfs.Jbd2

open List

def JH_SIZE : Nat := 12
def JR_HDR : Nat := 16
def JBD2_FLAG_ESCAPE : Nat := 1
def JBD2_FLAG_SAME_UUID : Nat := 2
def JBD2_FLAG_LAST_TAG : Nat := 8

/-- The fields of `sfs_journal`, with what `sfs_journal_load` checks of them. -/
structure Journal where
  bs : Nat
  csumV2 : Bool
  csumV3 : Bool
  has64 : Bool
  first : Nat
  maxlen : Nat
  head : Nat
  /-- The blocks that the map of the journal file covers. -/
  mapped : Nat
  bs_mem : bs = 1024 ∨ bs = 2048 ∨ bs = 4096
  first_lt : first < maxlen
  maxlen_lt : maxlen < 2 ^ 32
  maxlen_le : maxlen ≤ mapped
  head_ge : first ≤ head
  head_lt : head < 2 ^ 32

/-- A metadata block; `magic` says that its first word is the magic number of the journal. -/
structure Buf where
  blk : Nat
  magic : Bool

/-- A transaction, with both counts in 32 bits. -/
structure Txn where
  bufs : List Buf
  revokes : List Nat
  nbufs_lt : bufs.length < 2 ^ 32
  nrevokes_lt : revokes.length < 2 ^ 32

/-- A log block: revoked blocks, tags with flags, an escaped copy or not, the commit block. -/
inductive LogBlock
  | revoke (blocks : List Nat)
  | descriptor (tags : List (Nat × Nat))
  | data (blk : Nat) (escaped : Bool)
  | commit

variable (j : Journal) (t : Txn)

def Journal.tail : Nat := if j.csumV2 || j.csumV3 then 4 else 0

def Journal.tagBytes : Nat :=
  if j.csumV3 then 16 else 8 + (if j.csumV2 then 2 else 0) + if j.has64 then 4 else 0

/-- The size of a revoke record. -/
def Journal.rs : Nat := if j.has64 then 8 else 4

/-- The bytes of a block for revoke records. -/
def Journal.room : Nat := j.bs - JR_HDR - j.tail

def Journal.capacity : Nat := if j.maxlen > j.first then j.maxlen - j.first else 0

def Journal.tagsPerDesc : Nat := 1 + (j.bs - JH_SIZE - j.tail - j.tagBytes - 16) / j.tagBytes

/-- `jwrap`: where recovery goes on at the end of the log. -/
def Journal.wrap (b : Nat) : Nat := if b ≥ j.maxlen then b - j.maxlen + j.first else b

/-- `write_revokes`, with `off` bytes of the block filled by the records `cur`. -/
def Journal.writeRevokes : List Nat → Nat → List Nat → List LogBlock
  | [], off, cur => if off > JR_HDR then [.revoke cur] else []
  | blk :: rest, off, cur =>
    if off + j.rs > j.bs - j.tail then
      .revoke cur :: writeRevokes rest (JR_HDR + j.rs) [blk]
    else writeRevokes rest (off + j.rs) (cur ++ [blk])

/-- The tags of one descriptor. -/
def tags (group : List Buf) : List (Nat × Nat) :=
  group.mapIdx fun i b => (b.blk, (if i = 0 then 0 else JBD2_FLAG_SAME_UUID) +
    (if b.magic then JBD2_FLAG_ESCAPE else 0) +
    if i + 1 = group.length then JBD2_FLAG_LAST_TAG else 0)

/-- The descriptor groups; the fuel is the number of buffers. -/
def Journal.groups : Nat → List Buf → List LogBlock
  | fuel + 1, b :: bufs =>
    let group := (b :: bufs).take j.tagsPerDesc
    .descriptor (tags group) :: group.map (fun b => .data b.blk b.magic) ++
      groups fuel ((b :: bufs).drop j.tagsPerDesc)
  | _, _ => []

/-- What the commit lays out from `pos` on. -/
def layout : List LogBlock :=
  j.writeRevokes t.revokes JR_HDR [] ++ j.groups t.bufs.length t.bufs ++ [.commit]

/-- `need`, in `uint32_t`. -/
def need : Nat :=
  let ndesc := (t.bufs.length + j.tagsPerDesc - 1) % 2 ^ 32 / j.tagsPerDesc
  let nrev := (t.revokes.length * j.rs + j.room - 1) / j.room % 2 ^ 32
  (t.bufs.length + ndesc + nrev + 1) % 2 ^ 32

/-- `j->head` after the wrap decision. -/
def start : Nat := if (j.head + need j t) % 2 ^ 32 > j.maxlen then j.first else j.head

/-- The blocks with their positions in the log. -/
def written : List (Nat × LogBlock) := (layout j t).mapIdx fun i b => ((start j t + i) % 2 ^ 32, b)

/-- `sfs_journal_commit`. -/
def commit : Except Err (List (Nat × LogBlock)) :=
  if t.bufs = [] ∧ t.revokes = [] then .ok []
  else if need j t > j.capacity then .error .noSpc
  else if ¬j.has64 ∧ ∃ b ∈ t.bufs, b.blk > 0xFFFFFFFF then .error .notSup
  -- `jmap` finds no block of the file
  else if ∃ x ∈ written j t, j.mapped ≤ x.1 then .error .corrupt
  else .ok (written j t)

/-! ### Accounting -/

structure InLog (w : List (Nat × LogBlock)) : Prop where
  range : ∀ x ∈ w, j.first ≤ x.1 ∧ x.1 < j.maxlen
  read : ∀ (i : Nat) (h : i < w.length), w[i].1 = j.wrap (start j t + i)

/-- The commit does not fail for lack of log, writes no more than it made room for, and stays in the
log. -/
def Accounted : Prop :=
  match commit j t with
  | .ok w => w.length ≤ need j t ∧ InLog j t w
  | .error e => e ≠ .corrupt

/-- The call goes on to write. -/
structure Writes : Prop where
  some : ¬(t.bufs = [] ∧ t.revokes = [])
  cap : need j t ≤ j.capacity
  has64 : ¬(¬j.has64 ∧ ∃ b ∈ t.bufs, b.blk > 0xFFFFFFFF)

/-- The blocks of `n` revoke records counted by bytes are enough: always, but with records of eight
bytes in front of a checksum tail only when the full blocks before the last one number less than twice
the records of the last. -/
def RevokesFill (n : Nat) : Prop :=
  j.has64 = true → j.tail = 4 → (n - 1) / (j.room / 8) < 2 * ((n - 1) % (j.room / 8) + 1)

instance (n : Nat) : Decidable (RevokesFill j n) := inferInstanceAs (Decidable (_ → _ → _))

/-- The blocks of the transaction, by unbounded numbers. -/
def total : Nat :=
  t.bufs.length + (t.bufs.length + j.tagsPerDesc - 1) / j.tagsPerDesc +
    (t.revokes.length * j.rs + j.room - 1) / j.room + 1

/-! ### Counting -/

variable {j t}

theorem writeRevokes_length {k : Nat} (hk : 0 < k)
    (hfit : ∀ c, JR_HDR + j.rs * (c + 1) > j.bs - j.tail ↔ k < c + 1)
    (l : List Nat) {c : Nat} (hc : c ≤ k) (cur : List Nat) :
    (j.writeRevokes l (JR_HDR + j.rs * c) cur).length = (c + l.length + k - 1) / k := by
  have hrs : 0 < j.rs := by unfold Journal.rs; split <;> decide
  induction l generalizing c cur with
  | nil =>
    rw [Journal.writeRevokes]
    cases c with
    | zero => rw [if_neg (by omega)]; exact (Nat.div_eq_of_lt (by simp; omega)).symm
    | succ c =>
      rw [if_pos (by rw [Nat.mul_succ]; omega), length_singleton, length_nil]
      exact (Nat.div_eq_of_lt_le (by omega) (by omega)).symm
  | cons b l ih =>
    rw [Journal.writeRevokes, Nat.add_assoc JR_HDR, ← Nat.mul_succ, length_cons]
    by_cases h : k < c + 1
    · obtain rfl : c = k := by omega
      rw [if_pos ((hfit _).mpr h), length_cons]
      have := ih (c := 1) hk [b]
      rw [Nat.mul_one] at this
      rw [this, ← Nat.add_div_right _ hk]
      congr 1
      omega
    · rw [if_neg fun hf => h ((hfit _).mp hf), ih (by omega)]
      congr 1
      omega

theorem groups_length (fuel : Nat) {l : List Buf} (hl : l.length ≤ fuel) :
    (j.groups fuel l).length = l.length + (l.length + j.tagsPerDesc - 1) / j.tagsPerDesc := by
  have htpd : 1 ≤ j.tagsPerDesc := Nat.le_add_right ..
  have hnil : 0 = (0 + j.tagsPerDesc - 1) / j.tagsPerDesc := (Nat.div_eq_of_lt (by omega)).symm
  induction fuel generalizing l with
  | zero =>
    obtain rfl := length_eq_zero_iff.mp (Nat.le_zero.mp hl)
    exact hnil.trans (Nat.zero_add _).symm
  | succ fuel ih =>
    cases l with
    | nil => exact hnil.trans (Nat.zero_add _).symm
    | cons b l =>
      have hdrop : ((b :: l).drop j.tagsPerDesc).length ≤ fuel := by
        rw [length_drop]
        omega
      rw [Journal.groups, length_append, length_cons, length_map, ih hdrop,
        length_take, length_drop]
      obtain ⟨n, hn⟩ : ∃ n, (b :: l).length = n + 1 := ⟨_, rfl⟩
      rw [hn]
      by_cases hle : n + 1 ≤ j.tagsPerDesc
      · rw [Nat.min_eq_right hle, Nat.sub_eq_zero_of_le hle, ← hnil, show n + 1 + j.tagsPerDesc - 1 =
          n + j.tagsPerDesc by omega, Nat.add_div_right _ htpd, Nat.div_eq_of_lt hle]
      · rw [Nat.min_eq_left (by omega), show n + 1 + j.tagsPerDesc - 1 =
          n + 1 - j.tagsPerDesc + j.tagsPerDesc - 1 + j.tagsPerDesc by omega, Nat.add_div_right _ htpd]
        omega

/-- Records of eight bytes in blocks that have room for `k` of them and four bytes more. -/
theorem fill_iff {k : Nat} (hk : 0 < k) (n : Nat) :
    (n + k - 1) / k ≤ (n * 8 + (8 * k + 4) - 1) / (8 * k + 4) ↔
      (n - 1) / k < 2 * ((n - 1) % k + 1) := by
  cases n with
  | zero => rw [Nat.zero_add, Nat.div_eq_of_lt (by omega)]; simp
  | succ n =>
    have hn := Nat.div_add_mod n k
    have hmul : (n / k + 1) * (8 * k + 4) = 8 * (k * (n / k)) + 4 * (n / k) + 8 * k + 4 := by ring
    rw [show n + 1 + k - 1 = n + k by omega, Nat.add_div_right _ hk,
      Nat.le_div_iff_mul_le (by omega), hmul, Nat.add_sub_cancel]
    omega

/-- Counted by bytes the blocks are never too many, and enough when the records fill them. -/
theorem revokes_fill (j : Journal) (n : Nat) :
    (n * j.rs + j.room - 1) / j.room ≤ (n + j.room / j.rs - 1) / (j.room / j.rs) ∧
      ((n + j.room / j.rs - 1) / (j.room / j.rs) ≤ (n * j.rs + j.room - 1) / j.room ↔
        RevokesFill j n) := by
  have h1 := fill_iff (show 0 < 125 by decide) n
  have h2 := fill_iff (show 0 < 253 by decide) n
  have h3 := fill_iff (show 0 < 509 by decide) n
  unfold RevokesFill Journal.room Journal.rs Journal.tail JR_HDR
  cases j.has64 <;> cases j.csumV2 || j.csumV3 <;> rcases j.bs_mem with h | h | h <;>
    simp only [h] <;> norm_num at h1 h2 h3 ⊢ <;> omega

theorem layout_length (j : Journal) (t : Txn) : (layout j t).length = t.bufs.length +
    (t.bufs.length + j.tagsPerDesc - 1) / j.tagsPerDesc +
      (t.revokes.length + j.room / j.rs - 1) / (j.room / j.rs) + 1 := by
  have hk : 0 < j.room / j.rs ∧ ∀ c, JR_HDR + j.rs * (c + 1) > j.bs - j.tail ↔ j.room / j.rs < c + 1 := by
    unfold Journal.room Journal.rs Journal.tail JR_HDR
    cases j.has64 <;> cases j.csumV2 || j.csumV3 <;> rcases j.bs_mem with h | h | h <;>
      simp only [h] <;> refine ⟨by decide, fun c => ?_⟩ <;> norm_num <;> omega
  have hw := writeRevokes_length hk.1 hk.2 t.revokes (Nat.zero_le _) []
  rw [Nat.mul_zero, Nat.zero_add, Nat.add_zero] at hw
  rw [layout, length_append, length_append, hw, groups_length _ le_rfl]
  simp only [length_singleton]
  omega

theorem tagsPerDesc_le (j : Journal) : j.tagsPerDesc ≤ 512 := by
  have hbs : j.bs ≤ 4096 := by rcases j.bs_mem with h | h | h <;> omega
  have htag : 8 ≤ j.tagBytes := by
    unfold Journal.tagBytes
    split <;> omega
  have := Nat.div_le_div (show j.bs - JH_SIZE - j.tail - j.tagBytes - 16 ≤ 4096 - 12 by
    unfold JH_SIZE
    omega) htag (by decide)
  unfold Journal.tagsPerDesc
  omega

/-- Where 32 bits do not cut it, `need` is the number itself. -/
theorem need_eq (h : total j t < 2 ^ 32) : need j t = total j t := by
  have htpd : 1 ≤ j.tagsPerDesc := Nat.le_add_right ..
  have hle := tagsPerDesc_le j
  unfold total at *
  unfold need
  generalize (t.revokes.length * j.rs + j.room - 1) / j.room = nrev at *
  have hsum : t.bufs.length + j.tagsPerDesc - 1 < 2 ^ 32 := by
    by_contra hn
    have : 512 ≤ (t.bufs.length + j.tagsPerDesc - 1) / j.tagsPerDesc := by
      rw [Nat.le_div_iff_mul_le htpd]
      omega
    omega
  simp only [Nat.mod_eq_of_lt hsum]
  generalize (t.bufs.length + j.tagsPerDesc - 1) / j.tagsPerDesc = ndesc at *
  rw [Nat.mod_eq_of_lt (a := nrev) (by omega), Nat.mod_eq_of_lt h]

theorem commit_of_writes (h : Writes j t) : commit j t =
    if ∃ x ∈ written j t, j.mapped ≤ x.1 then .error .corrupt else .ok (written j t) := by
  rw [commit, if_neg h.some, if_neg (Nat.not_lt.mpr h.cap), if_neg h.has64]

theorem inLog_nil : InLog j t [] := ⟨nofun, fun i hi => absurd hi (Nat.not_lt_zero i)⟩

theorem accounted_of_not_writes (h : ¬Writes j t) : Accounted j t := by
  unfold Accounted commit
  by_cases h0 : t.bufs = [] ∧ t.revokes = []
  · rw [if_pos h0]
    exact ⟨Nat.zero_le _, inLog_nil⟩
  rw [if_neg h0]
  by_cases hcap : need j t > j.capacity
  · rw [if_pos hcap]
    exact nofun
  rw [if_neg hcap]
  by_cases h64 : ¬j.has64 ∧ ∃ b ∈ t.bufs, b.blk > 0xFFFFFFFF
  · rw [if_pos h64]
    exact nofun
  · exact absurd ⟨h0, Nat.not_lt.mp hcap, h64⟩ h

/-- The reservation suffices exactly when the revoke records fill their blocks and 32 bits cut
neither the number of blocks nor the wrap decision. -/
theorem written_in_log (hw : Writes j t) :
    (written j t).length ≤ need j t ∧ InLog j t (written j t) ↔
      RevokesFill j t.revokes.length ∧ total j t < 2 ^ 32 ∧
        (j.maxlen < j.head + total j t → j.maxlen < (j.head + total j t) % 2 ^ 32) := by
  have hcap := hw.cap
  rw [Journal.capacity, if_pos j.first_lt] at hcap
  have hlen : (written j t).length = (layout j t).length := length_mapIdx
  have hpos (i : Nat) (h : i < (written j t).length) :
      (written j t)[i].1 = (start j t + i) % 2 ^ 32 := by
    simp only [written, getElem_mapIdx]
  generalize written j t = w at *
  rw [layout_length] at hlen
  obtain ⟨hmin, hfill⟩ := revokes_fill j t.revokes.length
  have h1 := j.first_lt; have h2 := j.maxlen_lt; have h3 := j.head_ge; have h4 := j.head_lt
  constructor
  · rintro ⟨hle, hin⟩
    have hneed : need j t < 2 ^ 32 := Nat.mod_lt _ (by decide)
    have htotal : total j t < 2 ^ 32 := by
      unfold total
      omega
    rw [need_eq htotal] at hle
    refine ⟨hfill.mp (by unfold total at hle; omega), htotal, fun hover => ?_⟩
    by_contra hmod
    -- the log does not wrap, and the block at `2 ^ 32 - 1` is beyond its end
    have hstart : start j t = j.head := by rw [start, need_eq htotal, if_neg hmod]
    have hlt : 2 ^ 32 - 1 - j.head < w.length := by
      unfold total at hover hmod
      omega
    have := (hin.range _ (getElem_mem hlt)).2
    rw [hpos, hstart] at this
    omega
  · rintro ⟨hf, htotal, hwrap⟩
    have hle : w.length = total j t := by
      have := hfill.mpr hf
      unfold total
      omega
    rw [need_eq htotal] at hcap ⊢
    have hin (i : Nat) (h : i < w.length) : j.first ≤ start j t + i ∧ start j t + i < j.maxlen := by
      rw [start, need_eq htotal]
      split
      · omega
      · rename_i hmod
        have := mt hwrap hmod
        omega
    refine ⟨hle.le, ?_, fun i h => ?_⟩
    · intro x hx
      obtain ⟨i, h, rfl⟩ := getElem_of_mem hx
      have := hin i h
      rw [hpos, Nat.mod_eq_of_lt (by omega)]
      exact this
    · have := hin i h
      rw [hpos, Nat.mod_eq_of_lt (by omega), Journal.wrap, if_neg (by omega)]

/-- **The accounting is exact when the revoke records fill their blocks** and 32 bits cut neither the
number of blocks nor the wrap decision. -/
theorem commit_in_log (j : Journal) (t : Txn) : Accounted j t ↔ (Writes j t →
    RevokesFill j t.revokes.length ∧ total j t < 2 ^ 32 ∧
      (j.maxlen < j.head + total j t → j.maxlen < (j.head + total j t) % 2 ^ 32)) := by
  by_cases hw : Writes j t
  swap
  · exact ⟨fun _ h => absurd h hw, fun _ => accounted_of_not_writes hw⟩
  rw [imp_iff_right hw, ← written_in_log hw]
  unfold Accounted
  rw [commit_of_writes hw]
  constructor
  · intro h
    split at h
    · rename_i heq
      split_ifs at heq
      obtain rfl := Except.ok.inj heq
      exact h
    · rename_i heq
      split_ifs at heq
      exact absurd (Except.error.inj heq).symm h
  · intro h
    rw [if_neg]
    · exact h
    · rintro ⟨x, hx, hle⟩
      have hlt := (h.2.range x hx).2
      have hmaxlen := j.maxlen_le
      omega

/-- A log at its end, in a file of `m` blocks. -/
def full (m : Nat) (hm : 1024 ≤ m) : Journal where
  bs := 1024
  csumV2 := false
  csumV3 := true
  has64 := true
  first := 1
  maxlen := 1024
  head := 1017
  mapped := m
  bs_mem := by decide
  first_lt := by decide
  maxlen_lt := by decide
  maxlen_le := hm
  head_ge := by decide
  head_lt := by decide

/-- Three buffers, and 251 revoked blocks. -/
def revoking : Txn where
  bufs := [⟨2, false⟩, ⟨3, false⟩, ⟨40, false⟩]
  revokes := List.replicate 251 600
  nbufs_lt := by decide
  nrevokes_lt := by
    rw [length_replicate]
    decide

theorem full_sizes {m : Nat} (hm : 1024 ≤ m) : (full m hm).tagsPerDesc = 62 ∧
    (full m hm).rs = 8 ∧ (full m hm).room = 1004 := by
  refine ⟨?_, rfl, rfl⟩
  unfold Journal.tagsPerDesc
  exact (by decide : 1 + (1024 - JH_SIZE - 4 - 16 - 16) / 16 = 62)

theorem need_revoking {m : Nat} (hm : 1024 ≤ m) : need (full m hm) revoking = 7 := by
  obtain ⟨htpd, hrs, hroom⟩ := full_sizes hm
  rw [need, show revoking.revokes.length = 251 from length_replicate, htpd, hrs, hroom]
  rfl

theorem writes_revoking {m : Nat} (hm : 1024 ≤ m) : Writes (full m hm) revoking where
  some h := by cases h.1
  cap := by
    rw [need_revoking]
    exact (by decide : 7 ≤ 1023)
  has64 h := h.1 rfl

/-- The eighth block goes to `maxlen`. -/
theorem written_revoking {m : Nat} (hm : 1024 ≤ m) :
    (written (full m hm) revoking).length = 8 ∧ ∃ b, (1024, b) ∈ written (full m hm) revoking := by
  have hlen : (layout (full m hm) revoking).length = 8 := by
    obtain ⟨htpd, hrs, hroom⟩ := full_sizes hm
    rw [layout_length, show revoking.revokes.length = 251 from length_replicate, htpd, hrs, hroom]
    rfl
  have hstart : start (full m hm) revoking = 1017 := by
    rw [start, need_revoking]
    rfl
  refine ⟨length_mapIdx.trans hlen, (layout (full m hm) revoking)[7], ?_⟩
  refine mem_iff_getElem.mpr ⟨7, by rw [written, length_mapIdx, hlen]; decide, ?_⟩
  simp only [written, getElem_mapIdx, hstart]
  rfl

/-- Three buffers and 251 records: `need` is 7.  In a file that goes on the eighth block lies beyond
the log, and in one that ends with the log the commit fails. -/
theorem commit_overruns : (∃ w, commit (full 2048 (by decide)) revoking = .ok w ∧
      ¬w.length ≤ need (full 2048 (by decide)) revoking ∧
        ∃ b, ((full 2048 (by decide)).maxlen, b) ∈ w) ∧
    commit (full 1024 (by decide)) revoking = .error .corrupt := by
  constructor
  · obtain ⟨hlen, hmem⟩ := written_revoking (m := 2048) (by decide)
    refine ⟨_, ?_, by rw [hlen, need_revoking]; decide, hmem⟩
    rw [commit_of_writes (writes_revoking _), if_neg]
    rintro ⟨x, hx, hle⟩
    obtain ⟨i, hi, rfl⟩ := mem_iff_getElem.mp hx
    have hle : 2048 ≤ _ := hle
    have hstart : start (full 2048 (by decide)) revoking = 1017 := by
      rw [start, need_revoking]
      rfl
    simp only [written, getElem_mapIdx, hstart] at hle
    omega
  · obtain ⟨-, b, hmem⟩ := written_revoking (m := 1024) (by decide)
    rw [commit_of_writes (writes_revoking _), if_pos ⟨_, hmem, le_rfl⟩]

end Win98Modern.Libsfs.Jbd2
