import Win98Modern.Kernel64.ByteQueue
import Mathlib.Data.List.GetD
import Mathlib.Data.List.ReduceOption

/-!
# What the calls do to the bytes

`Holds q l xs`: the chunks of the queue are `l` and its bytes `xs`.  The position of a byte is counted
from the first cell of the first chunk; all chunks but the last are full, so that the position says
which chunk it is in.
-/

namespace Win98Modern.ByteQueue

open Function List

variable {q q' : Bq} {l : List Addr} {xs bs : List Byte} {c : Addr} {u : User} {n uva : Nat}
  {pages rest : List (Option Addr)}

def cell (data : Addr → Nat → Byte) (l : List Addr) (pos : Nat) : Byte :=
  data (l.getD (pos / BQ_DATA) 0) (pos % BQ_DATA)

structure Holds (q : Bq) (l : List Addr) (xs : List Byte) : Prop where
  chain : Chain Slot.next q.slot .head l
  nodup : l.Nodup
  held : q.held.Perm l
  tail : q.tail = l.getLast?
  len : q.len = xs.length
  limit : q.len ≤ q.limit
  vacant : l = [] → q.hoff = 0 ∧ q.toff = 0 ∧ q.len = 0
  place : l ≠ [] → q.hoff + q.len + BQ_DATA = l.length * BQ_DATA + q.toff
  hoff : q.hoff < BQ_DATA
  toff : q.toff ≤ BQ_DATA
  bytes : ∀ i < q.len, xs[i]? = some (cell q.data l (q.hoff + i))

theorem holds_nil (hs : q.slot .head = none) (ht : q.tail = none) (hh : q.held = [])
    (hz : q.hoff = 0 ∧ q.toff = 0 ∧ q.len = 0) : Holds q [] [] where
  chain := hs
  nodup := nodup_nil
  held := .of_eq hh
  tail := ht
  len := hz.2.2
  limit := Nat.le_trans (Nat.le_of_eq hz.2.2) (Nat.zero_le _)
  vacant _ := hz
  place h := absurd rfl h
  hoff := Nat.lt_of_le_of_lt (Nat.le_of_eq hz.1) (Nat.zero_lt_succ _)
  toff := Nat.le_trans (Nat.le_of_eq hz.2.1) (Nat.zero_le _)
  bytes i hi := absurd (hz.2.2 ▸ hi) (Nat.not_lt_zero i)

theorem holds_empty (data : Addr → Nat → Byte) (limit : Nat) : Holds (empty data limit) [] [] :=
  holds_nil rfl rfl rfl ⟨rfl, rfl, rfl⟩

theorem slots_fresh (hc : c ∉ l) : Slot.next c ∉ slots Slot.next Slot.head l := by
  intro h
  rcases mem_cons.1 h with h | h
  · exact nomatch h
  · obtain ⟨a, ha, he⟩ := mem_map.1 h
    injection he with he
    exact hc (he ▸ ha)

theorem chain_slots_nodup (hl : l.Nodup) : (slots Slot.next Slot.head l).Nodup :=
  slots_nodup (fun _ _ h => Slot.next.inj h) (fun _ => nofun) hl

/-! ### A new chunk -/

theorem Holds.tail_none (h : Holds q l xs) (ht : q.tail = none) : l = [] :=
  List.getLast?_eq_none_iff.1 (h.tail ▸ ht)

theorem link_slot (h : Holds q l xs) (c : Addr) : (q.link c).slot =
    update (update q.slot (.next c) none) (lastSlot Slot.next .head l) (some c) := by
  rw [lastSlot_eq]
  unfold Bq.link
  cases ht : q.tail with
  | none =>
    rw [h.tail_none ht]
    rfl
  | some t => rw [← h.tail, ht]; rfl

theorem link_same (q : Bq) (c : Addr) : (q.link c).tail = some c ∧ (q.link c).toff = 0 ∧
    (q.link c).held = c :: q.held ∧ (q.link c).data = q.data ∧ (q.link c).len = q.len ∧
      (q.link c).limit = q.limit := by
  unfold Bq.link
  cases q.tail <;> exact ⟨rfl, rfl, rfl, rfl, rfl, rfl⟩

theorem link_hoff (h : Holds q l xs) (c : Addr) : (q.link c).hoff = q.hoff := by
  unfold Bq.link
  cases ht : q.tail with
  | none => exact ((h.vacant (h.tail_none ht)).1).symm
  | some t => rfl

variable {data : Addr → Nat → Byte} {pos off i : Nat}

theorem cell_append (hp : pos < l.length * BQ_DATA) (m : List Addr) :
    cell data (l ++ m) pos = cell data l pos := by
  have hlt : pos / BQ_DATA < l.length := Nat.div_lt_of_lt_mul (by rwa [Nat.mul_comm])
  unfold cell
  rw [getD_append _ _ _ _ hlt]

/-- A new chunk behind a full one, or the first one. -/
theorem Holds.link (h : Holds q l xs) (hfull : q.tail = none ∨ q.toff = BQ_DATA) (hc : c ∉ l) :
    Holds (q.link c) (l ++ [c]) xs := by
  obtain ⟨htail, htoff, hheld, hdata, hlen, hlimit⟩ := link_same q c
  have hplace : q.hoff + q.len = l.length * BQ_DATA := by
    rcases hfull with ht | ht
    · have hl := h.tail_none ht
      obtain ⟨h₁, _, h₃⟩ := h.vacant hl
      rw [h₁, h₃, hl]
      rfl
    · by_cases hl : l = []
      · exact absurd (ht.symm.trans (h.vacant hl).2.1) (by decide)
      · have := h.place hl
        omega
  have hfresh : Slot.next c ∉ slots Slot.next Slot.head l := slots_fresh hc
  constructor
  case chain =>
    rw [link_slot h c]
    refine Chain.push (h.chain.congr fun p hp => ?_) (chain_slots_nodup h.nodup) (update_self ..) hfresh
    exact update_of_ne (fun e : p = .next c => hfresh (e ▸ hp)) ..
  case nodup => exact nodup_append.2 ⟨h.nodup, nodup_singleton c, fun a ha b hb => by
    rw [mem_singleton.1 hb]
    exact fun e => hc (e ▸ ha)⟩
  case held =>
    rw [hheld]
    exact (h.held.cons c).trans (perm_append_singleton c l).symm
  case tail => rw [htail, List.getLast?_concat]
  case len => rw [hlen, h.len]
  case limit => rw [hlen, hlimit]; exact h.limit
  case vacant => exact fun hn => absurd hn (by simp)
  case place =>
    intro _
    rw [link_hoff h, hlen, htoff, length_append, hplace, Nat.add_mul, length_singleton, Nat.one_mul]
    omega
  case hoff => rw [link_hoff h]; exact h.hoff
  case toff => rw [htoff]; exact Nat.zero_le _
  case bytes =>
    intro i hi
    rw [hlen] at hi
    rw [hdata, link_hoff h, h.bytes i hi, cell_append (by omega)]

/-- No answer of `pmm_alloc` is a page in use, and no two are the same. -/
def Fresh (held : List Addr) (pages : List (Option Addr)) : Prop :=
  pages.reduceOption.Nodup ∧ ∀ c ∈ pages.reduceOption, c ∉ held

instance (held : List Addr) (pages : List (Option Addr)) : Decidable (Fresh held pages) :=
  inferInstanceAs (Decidable (_ ∧ _))

theorem Fresh.head {held : List Addr} (h : Fresh held (some c :: pages)) :
    c ∉ held ∧ Fresh (c :: held) pages := by
  obtain ⟨hn, hout⟩ := h
  obtain ⟨hc, hn⟩ := nodup_cons.1 hn
  refine ⟨hout c mem_cons_self, hn, fun a ha => ?_⟩
  rw [mem_cons, not_or]
  exact ⟨fun e => hc (e ▸ ha), hout a (mem_cons_of_mem _ ha)⟩

/-- There is a page for each of `n` bytes. -/
def Enough (pages : List (Option Addr)) (n : Nat) : Prop := none ∉ pages ∧ n ≤ pages.length

instance (pages : List (Option Addr)) (n : Nat) : Decidable (Enough pages n) :=
  inferInstanceAs (Decidable (_ ∧ _))

theorem Enough.mono {m : Nat} (h : Enough pages n) (hm : m ≤ n) : Enough pages m := ⟨h.1, Nat.le_trans hm h.2⟩

theorem bqRoom_some (h : Holds q l xs) (hp : Fresh q.held pages) (hr : bqRoom q pages = (some c, q', rest)) :
    (∃ l', Holds q' (l' ++ [c]) xs) ∧ q'.toff < BQ_DATA ∧ Fresh q'.held rest ∧ q'.limit = q.limit ∧
      (Enough pages n → Enough rest (n - 1)) := by
  unfold bqRoom at hr
  split at hr
  case isTrue hfull =>
    cases pages with
    | nil => exact nomatch hr
    | cons page pages =>
      cases page with
      | none => exact nomatch hr
      | some a =>
        injection hr with hc hr
        injection hr with hq hrest
        injection hc with hc
        subst hc hq hrest
        obtain ⟨hout, hfresh⟩ := hp.head
        obtain ⟨_, htoff, hheld, _, _, hlimit⟩ := link_same q a
        refine ⟨⟨l, h.link hfull fun hin => hout (h.held.mem_iff.2 hin)⟩, ?_, ?_, hlimit, fun he => ?_⟩
        · rw [htoff]; decide
        · rw [hheld]; exact hfresh
        · exact ⟨fun hn => he.1 (mem_cons_of_mem _ hn), Nat.sub_le_of_le_add he.2⟩
  case isFalse hroom =>
    injection hr with hc hr
    injection hr with hq hrest
    subst hq hrest
    have hne := (not_or.1 hroom).2
    have hlast : l.getLast? = some c := h.tail ▸ hc
    obtain ⟨l', rfl⟩ := List.getLast?_eq_some_iff.1 hlast
    exact ⟨⟨l', h⟩, Nat.lt_of_le_of_ne h.toff hne, hp, rfl, fun he => ⟨he.1, Nat.le_trans (Nat.sub_le n 1) he.2⟩⟩

theorem bqRoom_none (hr : bqRoom q pages = (none, q', rest)) : q' = q ∧ (Enough pages n → n = 0) := by
  unfold bqRoom at hr
  split at hr
  case isTrue hfull =>
    cases pages with
    | nil => exact ⟨(congrArg (·.2.1) hr).symm, fun he => Nat.le_zero.1 he.2⟩
    | cons page pages =>
      cases page with
      | none => exact ⟨(congrArg (·.2.1) hr).symm, fun he => absurd mem_cons_self he.1⟩
      | some a => exact nomatch hr
  case isFalse hroom => exact absurd (congrArg Prod.fst hr) (not_or.1 hroom).1

/-! ### Bytes behind the last one -/

theorem put_of_ne {a : Addr} (ha : a ≠ c) : (q.put c off bs).data a i = q.data a i := by
  unfold Bq.put
  dsimp only
  rw [update_of_ne ha]

theorem put_of_lt (hi : i < off) : (q.put c off bs).data c i = q.data c i := by
  unfold Bq.put
  dsimp only
  rw [update_self, if_neg (by omega)]

theorem put_at (hi : i < bs.length) : (q.put c off bs).data c (off + i) = bs[i] := by
  unfold Bq.put
  dsimp only
  rw [update_self, if_pos (Nat.le_add_right off i), Nat.add_sub_cancel_left, getD_eq_getElem _ _ hi]

theorem cell_put {toff : Nat} (hn : (l ++ [c]).Nodup) (hp : pos < l.length * BQ_DATA + toff)
    (ht : toff ≤ BQ_DATA) :
    cell (q.put c toff bs).data (l ++ [c]) pos = cell q.data (l ++ [c]) pos := by
  by_cases hlt : pos < l.length * BQ_DATA
  · rw [cell_append hlt, cell_append hlt]
    have hdiv : pos / BQ_DATA < l.length := Nat.div_lt_of_lt_mul (by rwa [Nat.mul_comm])
    have hne : l[pos / BQ_DATA] ≠ c := by
      intro e
      exact (nodup_append.1 hn).2.2 _ (getElem_mem hdiv) c (mem_singleton_self c) e
    unfold cell
    rw [getD_eq_getElem _ _ hdiv, put_of_ne hne]
  · have hin : pos - l.length * BQ_DATA < BQ_DATA := by omega
    have hdiv : pos / BQ_DATA = l.length := by
      unfold BQ_DATA at hlt hin ⊢
      omega
    have hmod : pos % BQ_DATA = pos - l.length * BQ_DATA := by
      unfold BQ_DATA at hlt hin ⊢
      omega
    unfold cell
    rw [hdiv, hmod, getD_append_right _ _ _ _ (Nat.le_refl _), Nat.sub_self]
    exact put_of_lt (by omega)

theorem cell_last (ho : off < BQ_DATA) :
    cell data (l ++ [c]) (l.length * BQ_DATA + off) = data c off := by
  have hdiv : (l.length * BQ_DATA + off) / BQ_DATA = l.length := by
    rw [Nat.mul_comm, Nat.mul_add_div (by decide), Nat.div_eq_of_lt ho]
    rfl
  unfold cell
  rw [hdiv, Nat.mul_comm, Nat.mul_add_mod, Nat.mod_eq_of_lt ho, getD_append_right _ _ _ _ (Nat.le_refl _), Nat.sub_self]
  rfl

theorem Holds.put (h : Holds q (l ++ [c]) xs) (bs : List Byte) :
    Holds (q.put c q.toff bs) (l ++ [c]) xs where
  chain := h.chain
  nodup := h.nodup
  held := h.held
  tail := h.tail
  len := h.len
  limit := h.limit
  vacant := h.vacant
  place := h.place
  hoff := h.hoff
  toff := h.toff
  bytes i hi := by
    have hplace := h.place (by simp)
    rw [length_append, length_singleton, Nat.add_mul, Nat.one_mul] at hplace
    change i < q.len at hi
    show xs[i]? = some (cell (q.put c q.toff bs).data (l ++ [c]) (q.hoff + i))
    rw [cell_put h.nodup (by omega) h.toff]
    exact h.bytes i hi

/-- **Bytes stored in the last chunk** and counted are behind the others. -/
theorem Holds.append (h : Holds q (l ++ [c]) xs) (bs : List Byte) (hroom : q.toff + bs.length ≤ BQ_DATA)
    (hspace : q.len + bs.length ≤ q.limit) :
    Holds ((q.put c q.toff bs).advance bs.length) (l ++ [c]) (xs ++ bs) where
  chain := h.chain
  nodup := h.nodup
  held := h.held
  tail := h.tail
  len := by
    show q.len + bs.length = (xs ++ bs).length
    rw [length_append, h.len]
  limit := hspace
  vacant hn := absurd hn (by simp)
  place hn := by
    have hplace := h.place hn
    show q.hoff + (q.len + bs.length) + BQ_DATA = (l ++ [c]).length * BQ_DATA + (q.toff + bs.length)
    omega
  hoff := h.hoff
  toff := hroom
  bytes i hi := by
    have hplace := h.place (by simp)
    rw [length_append, length_singleton, Nat.add_mul, Nat.one_mul] at hplace
    change i < q.len + bs.length at hi
    show (xs ++ bs)[i]? = some (cell (q.put c q.toff bs).data (l ++ [c]) (q.hoff + i))
    by_cases hold : i < q.len
    · rw [List.getElem?_append_left (h.len ▸ hold), cell_put h.nodup (by omega) h.toff]
      exact h.bytes i hold
    · have hlt : i - q.len < bs.length := by omega
      rw [List.getElem?_append_right (by rw [← h.len]; omega), ← h.len, List.getElem?_eq_getElem hlt,
        show q.hoff + i = l.length * BQ_DATA + (q.toff + (i - q.len)) by omega, cell_last (by omega), put_at hlt]

/-! ### Writing -/

/-- What a loop of writes leaves: more bytes, and the limit as it was. -/
structure Wrote (q q' : Bq) (xs bs : List Byte) : Prop where
  holds : ∃ l, Holds q' l (xs ++ bs)
  limit : q'.limit = q.limit

theorem Holds.wrote (h : Holds q l xs) : Wrote q q xs [] := ⟨⟨l, by rwa [append_nil]⟩, rfl⟩

theorem writeLoop_spec (fuel : Nat) : ∀ {q : Bq} {l : List Addr} {xs : List Byte} (s : List Byte)
    {pages : List (Option Addr)} (done : Nat), Holds q l xs → Fresh q.held pages →
      q.len + s.length ≤ q.limit → s.length ≤ fuel →
        ∃ k ≤ s.length, (writeLoop fuel q s pages done).2 = done + k ∧
          Wrote q (writeLoop fuel q s pages done).1 xs (s.take k) ∧ (Enough pages s.length → k = s.length) := by
  induction fuel with
  | zero =>
    intro q l xs s pages done h _ _ hf
    obtain rfl : s = [] := length_eq_zero_iff.1 (Nat.le_zero.1 hf)
    exact ⟨0, Nat.le_refl _, rfl, h.wrote, fun _ => rfl⟩
  | succ fuel ih =>
    intro q l xs s pages done h hp hspace hf
    rw [writeLoop]
    split
    case isTrue hs =>
      subst hs
      exact ⟨0, Nat.le_refl _, rfl, h.wrote, fun _ => rfl⟩
    case isFalse hs =>
      split
      case h_1 q' rest hr =>
        obtain ⟨rfl, hpage⟩ := bqRoom_none hr
        exact ⟨0, Nat.zero_le _, rfl, h.wrote, fun he => (hpage he).symm⟩
      case h_2 c q' rest hr =>
        obtain ⟨⟨l', h'⟩, hroom, hp', hlimit, hpage⟩ := bqRoom_some h hp hr
        have hlen : q'.len = q.len := h'.len.trans h.len.symm
        generalize hk : min (BQ_DATA - q'.toff) s.length = k
        have hbs : (s.take k).length = k := by
          rw [length_take]
          omega
        have happ := h'.append (s.take k) (by omega) (by omega)
        rw [hbs] at happ
        have hrest : (s.drop k).length = s.length - k := length_drop
        have hspace' : q'.len + k + (s.drop k).length ≤ q'.limit := by omega
        obtain ⟨k', hk', hdone, ⟨⟨l'', h''⟩, hlimit'⟩, hall⟩ :=
          ih (s.drop k) (done + k) happ hp' hspace' (by omega)
        refine ⟨k + k', by omega, by rw [hdone]; omega, ⟨⟨l'', ?_⟩, hlimit'.trans hlimit⟩, fun he => ?_⟩
        · rw [take_add, ← append_assoc]
          exact h''
        · have := hall ((hpage he).mono (by omega))
          omega

theorem bqSpace_le (h : Holds q l xs) : q.len + bqSpace q ≤ q.limit := by
  have hlimit := h.limit
  unfold bqSpace
  split <;> omega

theorem bqSpace_eq (h : Holds q l xs) : bqSpace q = q.limit - xs.length := by
  rw [← h.len]
  unfold bqSpace
  split <;> omega

theorem bqWrite_spec (h : Holds q l xs) (src : List Byte) (hp : Fresh q.held pages) :
    ∃ k ≤ min src.length (q.limit - xs.length), (bqWrite q src pages).2 = k ∧
      Wrote q (bqWrite q src pages).1 xs (src.take k) ∧
        (Enough pages src.length → k = min src.length (q.limit - xs.length)) := by
  have hspace := bqSpace_le h
  unfold bqWrite
  rw [bqSpace_eq h] at hspace ⊢
  generalize hn : min src.length (q.limit - xs.length) = n
  have hlen : (src.take n).length = n := by
    rw [length_take]
    omega
  obtain ⟨k, hk, hdone, hw, hall⟩ := writeLoop_spec n (src.take n) 0 h hp (by omega) (by omega)
  rw [hlen] at hk hall
  refine ⟨k, hk, by rw [hdone, Nat.zero_add], ?_, fun he => hall (he.mono (by omega))⟩
  rwa [take_take, Nat.min_eq_left hk] at hw

/-! ### Writing from the memory of a process -/

/-- The `n` bytes at an address. -/
def User.bytes (u : User) (uva n : Nat) : List Byte := (List.range n).map fun i => u.mem (uva + i)

/-- They can be read. -/
def User.Readable (u : User) (uva n : Nat) : Prop := uva + n < 2 ^ 64 ∧ ∀ i < n, u.readable (uva + i) = true

@[simp] theorem length_bytes : (u.bytes uva n).length = n := by
  unfold User.bytes
  rw [length_map, length_range]

theorem bytes_add (k : Nat) : u.bytes uva (k + n) = u.bytes uva k ++ u.bytes (uva + k) n := by
  unfold User.bytes
  rw [range_add, map_append, map_map]
  congr 1
  exact map_congr_left fun i _ => congrArg u.mem (Nat.add_assoc uva k i).symm

theorem fetch_ok (u : User) : ∀ uva n, ((fetch u uva n).2 = true ↔ ∀ i < n, u.readable (uva + i) = true) ∧
    ((fetch u uva n).2 = true → (fetch u uva n).1 = u.bytes uva n)
  | uva, 0 => ⟨⟨fun _ i hi => absurd hi (Nat.not_lt_zero i), fun _ => rfl⟩, fun _ => rfl⟩
  | uva, n + 1 => by
    obtain ⟨hiff, heq⟩ := fetch_ok u (uva + 1) n
    rw [fetch]
    cases hr : u.readable uva with
    | false =>
      refine ⟨⟨nofun, fun h => ?_⟩, nofun⟩
      exact absurd (hr.symm.trans (h 0 (Nat.succ_pos n))) nofun
    | true =>
      rw [if_pos rfl]
      dsimp only
      refine ⟨hiff.trans ⟨fun h i hi => ?_, fun h i hi => ?_⟩, fun h => ?_⟩
      · cases i with
        | zero => exact hr
        | succ i =>
          rw [show uva + (i + 1) = uva + 1 + i by omega]
          exact h i (by omega)
      · rw [show uva + 1 + i = uva + (i + 1) by omega]
        exact h (i + 1) (by omega)
      · rw [heq h, Nat.add_comm n 1, bytes_add]
        rfl

theorem copyFromUser_ok (u : User) (uva n : Nat) : (copyFromUser u uva n).2 = true ↔ u.Readable uva n := by
  unfold copyFromUser User.Readable
  split
  case isTrue h => exact iff_of_false nofun fun hr => absurd hr.1 (by omega)
  case isFalse h => rw [(fetch_ok u uva n).1, and_iff_right (by omega)]

theorem copyFromUser_bytes (u : User) (uva n : Nat) (h : (copyFromUser u uva n).2 = true) : (copyFromUser u uva n).1 = u.bytes uva n := by
  unfold copyFromUser at h ⊢
  split at h
  case isTrue => exact nomatch h
  case isFalse hlt =>
    rw [if_neg hlt]
    exact (fetch_ok u uva n).2 h

/-- **The loop of `bq_write_user`** appends the bytes of the process that it counts.  A fault leaves the
bytes before it in the chunk, beyond the end of the queue. -/
theorem writeUserLoop_spec (u : User) (uva : Nat) (fuel : Nat) : ∀ {q : Bq} {l : List Addr} {xs : List Byte}
    (n : Nat) {pages : List (Option Addr)} (done : Nat), Holds q l xs → Fresh q.held pages →
      q.len + n ≤ q.limit → n ≤ fuel → uva + done < 2 ^ 64 →
        ∃ k ≤ n, (writeUserLoop u uva fuel q n pages done).2.1 = done + k ∧
          Wrote q (writeUserLoop u uva fuel q n pages done).1 xs (u.bytes (uva + done) k) ∧
            u.Readable (uva + done) k ∧
              ((writeUserLoop u uva fuel q n pages done).2.2 = .success ↔ k = n) ∧
                (Enough pages n → u.Readable (uva + done) n → k = n) := by
  have hnone : ∀ {d}, uva + d < 2 ^ 64 → u.Readable (uva + d) 0 := fun hd =>
    ⟨hd, fun i hi => absurd hi (Nat.not_lt_zero i)⟩
  induction fuel with
  | zero =>
    intro q l xs n pages done h _ _ hf hu
    obtain rfl : n = 0 := Nat.le_zero.1 hf
    exact ⟨0, Nat.le_refl _, rfl, h.wrote, hnone hu, iff_of_true rfl rfl, fun _ _ => rfl⟩
  | succ fuel ih =>
    intro q l xs n pages done h hp hspace hf hu
    rw [writeUserLoop]
    split
    case isTrue hn =>
      subst hn
      exact ⟨0, Nat.le_refl _, rfl, h.wrote, hnone hu, iff_of_true rfl rfl, fun _ _ => rfl⟩
    case isFalse hn =>
      split
      case h_1 q' rest hr =>
        obtain ⟨rfl, hpage⟩ := bqRoom_none hr
        exact ⟨0, Nat.zero_le _, rfl, h.wrote, hnone hu, iff_of_false nofun (Ne.symm hn), fun he _ => (hpage he).symm⟩
      case h_2 c q' rest hr =>
        obtain ⟨⟨l', h'⟩, hroom, hp', hlimit, hpage⟩ := bqRoom_some h hp hr
        have hlen : q'.len = q.len := h'.len.trans h.len.symm
        dsimp only
        generalize hk : min (BQ_DATA - q'.toff) n = k
        rw [Nat.mod_eq_of_lt hu]
        have hok := copyFromUser_ok u (uva + done) k
        have hbytes := copyFromUser_bytes u (uva + done) k
        rcases hcopy : copyFromUser u (uva + done) k with ⟨bs, ok⟩
        rw [hcopy] at hok hbytes
        cases ok with
        | false =>
          have hw : Wrote q (q'.put c q'.toff bs) xs [] :=
            ⟨⟨_, by rw [append_nil]; exact h'.put bs⟩, hlimit⟩
          refine ⟨0, Nat.zero_le _, rfl, hw, hnone hu, iff_of_false nofun (Ne.symm hn), fun _ hr => ?_⟩
          have hr : u.Readable (uva + done) k := ⟨by have := hr.1; omega, fun i hi => hr.2 i (by omega)⟩
          exact absurd (hok.2 hr) nofun
        | true =>
          have hread := hok.1 rfl
          obtain rfl := hbytes rfl
          have hbs : (u.bytes (uva + done) k).length = k := length_bytes
          have happ := h'.append (u.bytes (uva + done) k) (by omega) (by omega)
          rw [hbs] at happ
          have hspace' : q'.len + k + (n - k) ≤ q'.limit := by omega
          have hu' : uva + (done + k) < 2 ^ 64 := by have := hread.1; omega
          obtain ⟨k', hk', hdone, ⟨⟨l'', h''⟩, hlimit'⟩, hread', hst, hall⟩ :=
            ih (n - k) (done + k) happ hp' hspace' (by omega) hu'
          rw [← Nat.add_assoc] at h'' hread' hall
          refine ⟨k + k', by omega, by rw [hdone]; omega, ⟨⟨l'', ?_⟩, hlimit'.trans hlimit⟩, ?_, ?_, fun he hr => ?_⟩
          · rw [bytes_add, ← append_assoc]
            exact h''
          · refine ⟨by have := hread'.1; omega, fun i hi => ?_⟩
            by_cases hlt : i < k
            · exact hread.2 i hlt
            · rw [show uva + done + i = uva + done + k + (i - k) by omega]
              exact hread'.2 (i - k) (by omega)
          · exact hst.trans ⟨fun h => by omega, fun h => by omega⟩
          · have hr' : u.Readable (uva + done + k) (n - k) :=
              ⟨by have := hr.1; omega, fun i hi => by
                rw [Nat.add_assoc]
                exact hr.2 (k + i) (by omega)⟩
            have := hall ((hpage he).mono (by omega)) hr'
            omega

theorem bqWriteUser_spec (h : Holds q l xs) (hp : Fresh q.held pages) (hu : uva < 2 ^ 64) (n : Nat) :
    ∃ k ≤ min n (q.limit - xs.length), (bqWriteUser q u uva n pages).2.1 = k ∧
      Wrote q (bqWriteUser q u uva n pages).1 xs (u.bytes uva k) ∧ u.Readable uva k ∧
        ((bqWriteUser q u uva n pages).2.2 = .success ↔ k ≠ 0 ∨ min n (q.limit - xs.length) = 0) ∧
          (Enough pages n → u.Readable uva n → k = min n (q.limit - xs.length)) := by
  have hspace := bqSpace_le h
  unfold bqWriteUser
  dsimp only
  rw [bqSpace_eq h] at hspace ⊢
  generalize hm : min n (q.limit - xs.length) = m
  obtain ⟨k, hk, hdone, hw, hread, hst, hall⟩ := writeUserLoop_spec u uva m m 0 h hp (by omega) (by omega) hu
  rw [Nat.zero_add] at hdone
  refine ⟨k, hk, hdone, hw, hread, ?_, fun he hr => ?_⟩
  · rw [hdone]
    split
    case isTrue hne => exact iff_of_true rfl (.inl hne)
    case isFalse hz =>
      rw [hst]
      omega
  · exact hall (he.mono (by omega)) ⟨by have := hr.1; omega, fun i hi => hr.2 i (by omega)⟩

end Win98Modern.ByteQueue
