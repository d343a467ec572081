import Win98Modern.Kernel64.ByteQueueSteps

/-!
# Reading and dropping

The loops of `bq_peek` and `bq_read_user` go from chunk to chunk and read the bytes in order; `bq_drop`
takes the first ones off and gives the chunks back that they filled.
-/

namespace Win98Modern.ByteQueue

open Function List

variable {q q' : Bq} {l : List Addr} {xs bs : List Byte} {c : Addr} {u : User} {n uva : Nat}

/-! ### Reading -/

def readAt (data : Addr → Nat → Byte) (l : List Addr) (pos n : Nat) : List Byte :=
  (List.range n).map fun i => cell data l (pos + i)

variable {data : Addr → Nat → Byte} {a : Addr} {pos : Nat}

theorem cell_cons_lt (hp : pos < BQ_DATA) : cell data (a :: l) pos = data a pos := by
  unfold cell
  rw [Nat.div_eq_of_lt hp, Nat.mod_eq_of_lt hp]
  rfl

theorem cell_cons_add (pos : Nat) : cell data (a :: l) (BQ_DATA + pos) = cell data l pos := by
  unfold cell
  rw [Nat.add_div_left _ (by decide), Nat.add_mod_left]
  rfl

theorem readAt_cons (hp : pos < BQ_DATA) (n : Nat) :
    readAt q.data (a :: l) pos n = q.get a pos (min (BQ_DATA - pos) n) ++
      readAt q.data l 0 (n - min (BQ_DATA - pos) n) := by
  have hsplit : n = min (BQ_DATA - pos) n + (n - min (BQ_DATA - pos) n) := by omega
  unfold readAt Bq.get
  conv_lhs => rw [hsplit, range_add, map_append, map_map]
  congr 1
  · refine map_congr_left fun i hi => cell_cons_lt ?_
    have := mem_range.1 hi
    omega
  · refine map_congr_left fun i hi => ?_
    have := mem_range.1 hi
    show cell q.data (a :: l) (pos + (min (BQ_DATA - pos) n + i)) = _
    rw [show pos + (min (BQ_DATA - pos) n + i) = BQ_DATA + (0 + i) by omega, cell_cons_add]

theorem Holds.read (h : Holds q l xs) (off n : Nat) (hn : off + n ≤ q.len) :
    readAt q.data l (q.hoff + off) n = (xs.drop off).take n := by
  refine ext_getElem? fun i => ?_
  by_cases hi : i < n
  · rw [List.getElem?_take_of_lt hi, List.getElem?_drop, h.bytes (off + i) (by omega)]
    unfold readAt
    rw [List.getElem?_map, List.getElem?_range hi]
    exact congrArg (fun pos => some (cell q.data l pos)) (Nat.add_assoc ..)
  · unfold readAt
    rw [List.getElem?_eq_none (by rw [length_map, length_range]; omega),
      List.getElem?_eq_none (by rw [length_take]; omega)]

theorem Holds.reach (h : Holds q l xs) (off n : Nat) (hn : off + n ≤ q.len) :
    q.hoff + off + n ≤ l.length * BQ_DATA := by
  have htoff := h.toff
  by_cases hl : l = []
  · have := h.vacant hl
    omega
  · have := h.place hl
    omega

theorem skip_spec (fuel : Nat) : ∀ {l : List Addr} {p : Slot} (pos : Nat), Chain Slot.next q.slot p l →
    pos ≤ l.length * BQ_DATA → pos < (fuel + 1) * BQ_DATA →
      ∃ l' p', skip q fuel (q.slot p) pos = some (q.slot p', pos % BQ_DATA) ∧ Chain Slot.next q.slot p' l' ∧
        l.length * BQ_DATA = l'.length * BQ_DATA + pos / BQ_DATA * BQ_DATA ∧
          ∀ i, cell q.data l (pos + i) = cell q.data l' (pos % BQ_DATA + i) := by
  induction fuel with
  | zero =>
    intro l p pos hc hpos hlt
    rw [Nat.zero_add, Nat.one_mul] at hlt
    refine ⟨l, p, ?_, hc, ?_, fun i => ?_⟩
    · rw [skip, Nat.mod_eq_of_lt hlt]
    · rw [Nat.div_eq_of_lt hlt]
      omega
    · rw [Nat.mod_eq_of_lt hlt]
  | succ fuel ih =>
    intro l p pos hc hpos hfuel
    unfold skip
    split
    case isTrue hlt =>
      refine ⟨l, p, ?_, hc, ?_, fun i => ?_⟩
      · rw [Nat.mod_eq_of_lt hlt]
      · rw [Nat.div_eq_of_lt hlt]
        omega
      · rw [Nat.mod_eq_of_lt hlt]
    case isFalse hge =>
      have hpos' : pos = BQ_DATA + (pos - BQ_DATA) := by omega
      cases l with
      | nil =>
        rw [length_nil, Nat.zero_mul] at hpos
        unfold BQ_DATA at hge
        omega
      | cons a l =>
        rw [length_cons, Nat.add_mul, Nat.one_mul] at hpos
        rw [Nat.add_mul (fuel + 1), Nat.one_mul] at hfuel
        obtain ⟨l', p', hs, hc', hlen, hcell⟩ := ih (pos - BQ_DATA) hc.2 (by omega) (by omega)
        have hmod : (pos - BQ_DATA) % BQ_DATA = pos % BQ_DATA := by
          conv_rhs => rw [hpos', Nat.add_mod_left]
        have hdiv : pos / BQ_DATA = (pos - BQ_DATA) / BQ_DATA + 1 := by
          conv_lhs => rw [hpos', Nat.add_div_left _ (by decide)]
        rw [hmod] at hs hcell
        refine ⟨l', p', ?_, hc', ?_, fun i => ?_⟩
        · rw [hc.1]
          exact hs
        · rw [length_cons, hdiv, Nat.add_mul, Nat.add_mul, hlen]
          omega
        · rw [← hcell i, show pos + i = BQ_DATA + (pos - BQ_DATA + i) by omega, cell_cons_add]

/-- The loop copies what the chain holds from `pos` on. -/
theorem peekLoop_spec (fuel : Nat) : ∀ {l : List Addr} {p : Slot} {pos n : Nat}, Chain Slot.next q.slot p l →
    pos < BQ_DATA → pos + n ≤ l.length * BQ_DATA → n ≤ fuel →
      peekLoop q fuel (q.slot p) pos n = some (readAt q.data l pos n) := by
  induction fuel with
  | zero =>
    intro l p pos n _ _ _ hf
    obtain rfl : n = 0 := Nat.le_zero.1 hf
    rfl
  | succ fuel ih =>
    intro l p pos n hc hpos hlen hf
    unfold peekLoop
    split
    case isTrue hn =>
      subst hn
      rfl
    case isFalse hn =>
      cases l with
      | nil =>
        rw [length_nil, Nat.zero_mul] at hlen
        omega
      | cons a l =>
        rw [length_cons, Nat.add_mul, Nat.one_mul] at hlen
        rw [hc.1, readAt_cons hpos]
        dsimp only
        rw [ih hc.2 (by decide) (by omega) (by omega)]
        rfl

/-- A peek shows the bytes of the queue. -/
theorem bqPeek_spec {off : Nat} (h : Holds q l xs) (hn : off + n ≤ q.len) (hlim : q.limit + BQ_DATA ≤ 2 ^ 32) :
    bqPeek q off n = some ((xs.drop off).take n) := by
  have hreach := h.reach off n hn
  have hlimit := h.limit
  have hhoff := h.hoff
  unfold bqPeek
  rw [Nat.mod_eq_of_lt (by omega)]
  dsimp only
  have hfuel : q.hoff + off < ((q.hoff + off) / BQ_DATA + 1) * BQ_DATA :=
    Nat.lt_mul_of_div_lt (Nat.lt_succ_self _) (by decide)
  obtain ⟨l', p', hs, hc, hlen, hcell⟩ := skip_spec _ _ h.chain (by omega) hfuel
  rw [hs]
  dsimp only
  have hsum := Nat.div_add_mod' (q.hoff + off) BQ_DATA
  rw [peekLoop_spec n hc (Nat.mod_lt _ (by decide)) (by omega) (Nat.le_refl n), ← h.read off n hn]
  exact congrArg some (map_congr_left fun i _ => (hcell i).symm)

/-- The memory with the bytes at an address. -/
def User.storeAll (u : User) : Nat → List Byte → User
  | _, [] => u
  | uva, b :: bs => (u.store uva b).storeAll (uva + 1) bs

def User.Writable (u : User) (uva n : Nat) : Prop := uva + n < 2 ^ 64 ∧ ∀ i < n, u.writable (uva + i) = true

theorem storeAll_append (bs bs' : List Byte) : ∀ (u : User) (uva : Nat),
    u.storeAll uva (bs ++ bs') = (u.storeAll uva bs).storeAll (uva + bs.length) bs' := by
  induction bs with
  | nil => exact fun _ _ => rfl
  | cons b bs ih =>
    intro u uva
    show (u.store uva b).storeAll (uva + 1) (bs ++ bs') = _
    rw [ih, length_cons, show uva + 1 + bs.length = uva + (bs.length + 1) by omega]
    rfl

theorem storeAll_writable (bs : List Byte) : ∀ (u : User) (uva : Nat), (u.storeAll uva bs).writable = u.writable := by
  induction bs with
  | nil => exact fun _ _ => rfl
  | cons b bs ih => exact fun u uva => ih (u.store uva b) (uva + 1)

theorem deliver_ok (bs : List Byte) : ∀ (u : User) (uva : Nat),
    ((deliver u uva bs).2 = true ↔ ∀ i < bs.length, u.writable (uva + i) = true) ∧
      ((deliver u uva bs).2 = true → (deliver u uva bs).1 = u.storeAll uva bs) := by
  induction bs with
  | nil => exact fun u uva => ⟨⟨fun _ i hi => absurd hi (Nat.not_lt_zero i), fun _ => rfl⟩, fun _ => rfl⟩
  | cons b bs ih =>
    intro u uva
    obtain ⟨hiff, heq⟩ := ih (u.store uva b) (uva + 1)
    rw [deliver]
    cases hw : u.writable uva with
    | false =>
      refine ⟨⟨nofun, fun h => ?_⟩, nofun⟩
      exact absurd (hw.symm.trans (h 0 (Nat.succ_pos _))) nofun
    | true =>
      refine ⟨hiff.trans ⟨fun h i hi => ?_, fun h i hi => ?_⟩, heq⟩
      · cases i with
        | zero => exact hw
        | succ i =>
          rw [show uva + (i + 1) = uva + 1 + i by omega]
          exact h i (Nat.lt_of_succ_lt_succ hi)
      · rw [show uva + 1 + i = uva + (i + 1) by omega]
        exact h (i + 1) (Nat.succ_lt_succ hi)

theorem copyToUser_ok (u : User) (uva : Nat) (bs : List Byte) :
    ((copyToUser u uva bs).2 = true ↔ u.Writable uva bs.length) ∧
      ((copyToUser u uva bs).2 = true → (copyToUser u uva bs).1 = u.storeAll uva bs) := by
  unfold copyToUser User.Writable
  split
  case isTrue h => exact ⟨iff_of_false nofun fun hw => absurd hw.1 (by omega), nofun⟩
  case isFalse h =>
    obtain ⟨hiff, heq⟩ := deliver_ok bs u uva
    exact ⟨hiff.trans (and_iff_right (by omega)).symm, heq⟩

/-- The loop stores the bytes where all of them can be written. -/
theorem readUserLoop_spec (uva : Nat) (fuel : Nat) : ∀ {l : List Addr} {p : Slot} (pos n : Nat) (u : User) (done : Nat),
    Chain Slot.next q.slot p l → pos < BQ_DATA → pos + n ≤ l.length * BQ_DATA → n ≤ fuel → uva + done < 2 ^ 64 →
      ∃ u' ok, readUserLoop q uva fuel u (q.slot p) pos n done = some (u', ok) ∧
        (ok = true ↔ u.Writable (uva + done) n) ∧
          (ok = true → u' = u.storeAll (uva + done) (readAt q.data l pos n)) := by
  have hnone : ∀ {u : User} {d}, uva + d < 2 ^ 64 → u.Writable (uva + d) 0 := fun hd =>
    ⟨hd, fun i hi => absurd hi (Nat.not_lt_zero i)⟩
  induction fuel with
  | zero =>
    intro l p pos n u done _ _ _ hf hu
    obtain rfl : n = 0 := Nat.le_zero.1 hf
    exact ⟨u, true, rfl, iff_of_true rfl (hnone hu), fun _ => rfl⟩
  | succ fuel ih =>
    intro l p pos n u done hc hpos hlen hf hu
    unfold readUserLoop
    split
    case isTrue hn =>
      subst hn
      exact ⟨u, true, rfl, iff_of_true rfl (hnone hu), fun _ => rfl⟩
    case isFalse hn =>
      cases l with
      | nil =>
        rw [length_nil, Nat.zero_mul] at hlen
        omega
      | cons a l =>
        rw [length_cons, Nat.add_mul, Nat.one_mul] at hlen
        rw [hc.1, readAt_cons hpos]
        dsimp only
        generalize hk : min (BQ_DATA - pos) n = k
        have hget : (q.get a pos k).length = k := by
          unfold Bq.get
          rw [length_map, length_range]
        rw [Nat.mod_eq_of_lt hu]
        obtain ⟨hok, heq⟩ := copyToUser_ok u (uva + done) (q.get a pos k)
        rw [hget] at hok
        rcases hcopy : copyToUser u (uva + done) (q.get a pos k) with ⟨u₁, ok⟩
        rw [hcopy] at hok heq
        cases ok with
        | false =>
          refine ⟨u₁, false, rfl, iff_of_false nofun fun hw => ?_, nofun⟩
          have hw' : u.Writable (uva + done) k := ⟨by have := hw.1; omega, fun i hi => hw.2 i (by omega)⟩
          exact absurd (hok.2 hw') nofun
        | true =>
          have hw₁ := hok.1 rfl
          obtain rfl := heq rfl
          have hu' : uva + (done + k) < 2 ^ 64 := by have := hw₁.1; omega
          obtain ⟨u₂, ok, hloop, hiff, hres⟩ :=
            ih 0 (n - k) (u.storeAll (uva + done) (q.get a pos k)) (done + k) hc.2 (by decide)
              (by omega) (by omega) hu'
          rw [← Nat.add_assoc] at hiff hres
          refine ⟨u₂, ok, hloop, hiff.trans ?_, fun h => ?_⟩
          · unfold User.Writable
            rw [storeAll_writable]
            constructor
            · rintro ⟨hlt, hw⟩
              refine ⟨by omega, fun i hi => ?_⟩
              by_cases hik : i < k
              · exact hw₁.2 i hik
              · rw [show uva + done + i = uva + done + k + (i - k) by omega]
                exact hw (i - k) (by omega)
            · rintro ⟨hlt, hw⟩
              refine ⟨by omega, fun i hi => ?_⟩
              rw [Nat.add_assoc]
              exact hw (k + i) (by omega)
          · rw [storeAll_append, hget]
            exact hres h

/-! ### Dropping -/

/-- `hoff` and `len` after `take` bytes. -/
def Bq.skipped (q : Bq) (take : Nat) : Bq := { q with hoff := q.hoff + take, len := q.len - take }

theorem Holds.skipped (h : Holds q l xs) (take : Nat) (hl : l ≠ []) (hle : take ≤ q.len)
    (hlt : q.hoff + take < BQ_DATA) : Holds (q.skipped take) l (xs.drop take) where
  chain := h.chain
  nodup := h.nodup
  held := h.held
  tail := h.tail
  len := by
    show q.len - take = (xs.drop take).length
    rw [length_drop, h.len]
  limit := Nat.le_trans (Nat.sub_le ..) h.limit
  vacant hn := absurd hn hl
  place hn := by
    have := h.place hn
    show q.hoff + take + (q.len - take) + BQ_DATA = l.length * BQ_DATA + q.toff
    omega
  hoff := hlt
  toff := h.toff
  bytes i hi := by
    have hi : i < q.len - take := hi
    rw [List.getElem?_drop, h.bytes (take + i) (by omega)]
    exact congrArg (fun pos => some (cell q.data l pos)) (Nat.add_assoc ..).symm

theorem tail_eq_head (h : Holds q (a :: l) xs) : q.slot .head = q.tail ↔ l = [] := by
  rw [h.chain.1, h.tail]
  cases l with
  | nil => exact iff_of_true rfl rfl
  | cons b l =>
    refine iff_of_false (fun he => ?_) nofun
    exact (nodup_cons.1 h.nodup).1 (mem_of_getLast? he.symm)

theorem perm_erase {held : List Addr} (h : held.Perm (a :: l)) : (held.erase a).Perm l := by
  have := h.erase a
  rwa [erase_cons_head] at this

theorem Holds.unlinked (h : Holds q (a :: l) xs) (take : Nat) (hle : take ≤ q.len)
    (hend : q.hoff + take = if q.slot .head = q.tail then q.toff else BQ_DATA) :
    Holds ((q.skipped take).unlink a) l (xs.drop take) := by
  have hplace := h.place nofun
  have hhead := tail_eq_head h
  have hpop := h.chain.pop (chain_slots_nodup h.nodup)
  rw [length_cons, Nat.add_mul, Nat.one_mul] at hplace
  by_cases hl : l = []
  · subst hl
    rw [if_pos (hhead.2 rfl)] at hend
    rw [length_nil, Nat.zero_mul] at hplace
    have hall : take = q.len := by omega
    have hu : (q.skipped take).unlink a = { q with
        slot := update q.slot .head none, tail := none, hoff := 0, toff := 0, len := q.len - take,
        held := q.held.erase a } := if_pos (hhead.2 rfl)
    rw [hu, hall, h.len, drop_length, Nat.sub_self]
    have hempty : update q.slot .head none .head = none := update_self ..
    exact holds_nil hempty rfl (perm_erase h.held).eq_nil ⟨rfl, rfl, rfl⟩
  · have hne := fun he => hl (hhead.1 he)
    rw [if_neg hne] at hend
    have hu : (q.skipped take).unlink a = { q with
        slot := update q.slot .head (q.slot (.next a)), hoff := 0, len := q.len - take,
        held := q.held.erase a } := if_neg hne
    rw [hu]
    constructor
    case chain => exact hpop
    case nodup => exact (nodup_cons.1 h.nodup).2
    case held => exact perm_erase h.held
    case tail =>
      show q.tail = l.getLast?
      rw [h.tail, List.getLast?_cons_of_ne_nil hl]
    case len =>
      show q.len - take = (xs.drop take).length
      rw [length_drop, h.len]
    case limit => exact Nat.le_trans (Nat.sub_le ..) h.limit
    case vacant => exact fun hn => absurd hn hl
    case place =>
      intro _
      show 0 + (q.len - take) + BQ_DATA = l.length * BQ_DATA + q.toff
      omega
    case hoff => exact Nat.zero_lt_succ _
    case toff => exact h.toff
    case bytes =>
      intro i hi
      have hi : i < q.len - take := hi
      rw [List.getElem?_drop, h.bytes (take + i) (by omega),
        show q.hoff + (take + i) = BQ_DATA + (0 + i) by omega, cell_cons_add]

theorem unlink_limit (a : Addr) : (q.unlink a).limit = q.limit := by
  unfold Bq.unlink
  split <;> rfl

theorem dropLoop_spec (fuel : Nat) : ∀ {q : Bq} {l : List Addr} {xs : List Byte} (n : Nat), Holds q l xs → n ≤ q.len →
    n + l.length ≤ fuel → (∃ l', Holds (dropLoop fuel q n) l' (xs.drop n)) ∧ (dropLoop fuel q n).limit = q.limit := by
  induction fuel with
  | zero =>
    intro q l xs n h _ hf
    obtain rfl : n = 0 := by omega
    exact ⟨⟨l, h⟩, rfl⟩
  | succ fuel ih =>
    intro q l xs n h hle hf
    rw [dropLoop]
    split
    case isTrue hn =>
      subst hn
      exact ⟨⟨l, h⟩, rfl⟩
    case isFalse hn =>
      cases l with
      | nil =>
        have := (h.vacant rfl).2.2
        omega
      | cons a l =>
        rw [length_cons] at hf
        have hhead : q.slot .head = some a := h.chain.1
        have hplace := h.place nofun
        have hhoff := h.hoff
        have htail := tail_eq_head h
        rw [length_cons, Nat.add_mul, Nat.one_mul] at hplace
        split
        case h_1 hnone => exact nomatch hnone.symm.trans hhead
        case h_2 b hb =>
          obtain rfl : a = b := Option.some.inj (hhead.symm.trans hb)
          dsimp only
          generalize hfin : (if q.slot .head = q.tail then q.toff else BQ_DATA) = fin
          have hfin' : q.hoff ≤ fin ∧ (fin = BQ_DATA ∨ q.len ≤ fin - q.hoff) := by
            rw [← hfin]
            split
            case isTrue he =>
              rw [htail.1 he, length_nil, Nat.zero_mul] at hplace
              omega
            case isFalse => exact ⟨by omega, .inl rfl⟩
          generalize htake : min (fin - q.hoff) n = take
          have hsum : xs.drop n = (xs.drop take).drop (n - take) := by
            rw [drop_drop, Nat.add_sub_cancel' (by omega)]
          rw [hsum]
          by_cases hend : q.hoff + take = fin
          · rw [if_pos hend]
            have hu := h.unlinked take (by omega) (hend.trans hfin.symm)
            have hlen : ((q.skipped take).unlink a).len = q.len - take := by
              rw [hu.len, length_drop, h.len]
            obtain ⟨hi, hlim⟩ := ih (n - take) hu (by omega) (by omega)
            exact ⟨hi, hlim.trans (unlink_limit a)⟩
          · rw [if_neg hend]
            have hfit : q.hoff + take < BQ_DATA := by
              have htoff := h.toff
              have : fin ≤ BQ_DATA := by
                rw [← hfin]
                split
                · exact htoff
                · exact Nat.le_refl _
              omega
            have hs := h.skipped take nofun (by omega) hfit
            have hzero : n - take = 0 := by omega
            have hdone : ∀ (q : Bq), dropLoop fuel q 0 = q := fun q => by cases fuel <;> rfl
            rw [hzero, hdone]
            exact ⟨⟨_, hs⟩, rfl⟩

/-- A drop takes the first `n` bytes off. -/
theorem bqDrop_spec (h : Holds q l xs) (hn : n ≤ q.len) :
    (∃ l', Holds (bqDrop q n) l' (xs.drop n)) ∧ (bqDrop q n).limit = q.limit :=
  dropLoop_spec _ n h hn (Nat.add_le_add_left (Nat.le_of_eq h.held.length_eq.symm) n)

theorem bqReadUser_spec (h : Holds q l xs) (hn : n ≤ q.len) (hu : uva < 2 ^ 64) (u : User) (consume : Bool) :
    ∃ q' u' ok, bqReadUser q u uva n consume = some (q', u', ok) ∧ (ok = true ↔ u.Writable uva n) ∧
      (ok = true → u' = u.storeAll uva (xs.take n)) ∧ q'.limit = q.limit ∧
        ∃ l', Holds q' l' (if consume && ok then xs.drop n else xs) := by
  have hreach := h.reach 0 n (by omega)
  obtain ⟨u', ok, hloop, hiff, hres⟩ :=
    readUserLoop_spec (q := q) uva n q.hoff n u 0 h.chain h.hoff (by omega) (Nat.le_refl n) hu
  have hread := h.read 0 n (by omega)
  rw [drop_zero] at hread
  rw [← hread]
  unfold bqReadUser
  rw [hloop]
  cases ok with
  | false =>
    refine ⟨q, u', false, rfl, hiff, nofun, rfl, l, ?_⟩
    rwa [Bool.and_false, if_neg nofun]
  | true =>
    cases consume with
    | false => exact ⟨q, u', true, rfl, hiff, hres, rfl, l, h⟩
    | true =>
      obtain ⟨hdrop, hlimit⟩ := bqDrop_spec h hn
      exact ⟨_, u', true, rfl, hiff, hres, hlimit, hdrop⟩

theorem freeLoop_spec (fuel : Nat) : ∀ {q : Bq} {l : List Addr} {p : Slot}, Chain Slot.next q.slot p l →
    q.held.Perm l → l.length ≤ fuel → freeLoop fuel q (q.slot p) = { q with held := [] } := by
  induction fuel with
  | zero =>
    intro q l p _ hp hf
    obtain rfl : l = [] := length_eq_zero_iff.1 (Nat.le_zero.1 hf)
    show q = _
    rw [← hp.eq_nil]
  | succ fuel ih =>
    intro q l p hc hp hf
    cases l with
    | nil =>
      rw [show q.slot p = none from hc]
      show q = _
      rw [← hp.eq_nil]
    | cons a l =>
      rw [hc.1]
      exact ih (q := { q with held := q.held.erase a }) hc.2 (perm_erase hp) (Nat.le_of_succ_le_succ hf)

theorem bqFree_spec (h : Holds q l xs) : Holds (bqFree q) [] [] ∧ (bqFree q).limit = q.limit := by
  unfold bqFree
  rw [freeLoop_spec _ h.chain h.held (Nat.le_of_eq h.held.length_eq.symm)]
  have hempty : update q.slot .head none .head = none := update_self ..
  exact ⟨holds_nil hempty rfl rfl ⟨rfl, rfl, rfl⟩, rfl⟩

end Win98Modern.ByteQueue
