import Win98Modern.Kernel64.TcpSends
import Win98Modern.Lib.ChainFamily
import Mathlib.Data.List.Perm.Subperm

/-!
# The accept queues

`Wf n Q`: the accept queue of `l` has the connections `Q l`, which are the children of `l` that are marked as
queued, and these are the ones with the handshake behind them.  Each change of the lists keeps it: a child
that completes is the last of its queue, a dequeue takes the first, and a connection that is freed is taken
out of its queue and of `g_tcbs` first.
-/

namespace Win98Modern.Tcp

open Function List Option Slot

/-! ### Children -/

/-- A connection with a parent is not owned yet; it is queued once the handshake is over, and before that it
is half open or has ended. -/
structure ChildOk (t : Tcb) : Prop where
  sock : t.sock = none
  queued : t.queued = t.wasEst
  waiting : t.queued → t.state ≠ .synSent ∧ t.state ≠ .synRcvd
  opening : t.queued = false → t.state = .synRcvd ∨ t.state = .closed

section Children

variable {t t' : Tcb}

variable {s s' : Tcps}

theorem Later.opened (h : Later s s') (hs : s ≠ .synSent ∧ s ≠ .synRcvd) :
    s' ≠ .synSent ∧ s' ≠ .synRcvd := by
  obtain rfl | ⟨-, h1, h2, -⟩ := h
  · exact hs
  · exact ⟨h1, h2⟩

theorem Later.opening (h : Later s s') (hs : s = .synRcvd ∨ s = .closed) :
    s' = .synRcvd ∨ s' = .closed := by
  obtain rfl | ⟨h1, -, -, h2⟩ := h
  · exact hs
  · exact .inr (h2 (hs.resolve_right h1))

theorem Later.of_half (h : Later s s') (hs : s' = .synRcvd) : s = .synRcvd := by
  obtain e | ⟨-, -, h1, -⟩ := h
  · rw [← e, hs]
  · exact absurd hs h1

theorem ChildOk.kept (h : ChildOk t) (hk : t.Kept t') : ChildOk t' where
  sock := hk.sock.trans h.sock
  queued := by rw [hk.queued, hk.wasEst, h.queued]
  waiting := fun hq => hk.later.opened (h.waiting (hk.queued ▸ hq))
  opening := fun hq => hk.later.opening (h.opening (hk.queued ▸ hq))

end Children

/-! ### The lists -/

theorem head_injective : Function.Injective head := fun _ _ e => head.inj e

theorem next_injective : Function.Injective next := fun _ _ e => next.inj e

theorem head_ne_next (l : SockId) (t : Id) : head l ≠ next t := nofun

/-- The accept queues have the connections `Q`, and all of them are on `g_tcbs`. -/
structure Wf (n : Net) (Q : SockId → List Id) : Prop where
  nodup : n.tcbs.Nodup
  heap : n.heap = n.tcbs
  family : ChainFamily head next n.acc Q
  tail : ∀ l, (n.sock l).accTail = (Q l).getLast?
  count : ∀ l, (n.sock l).accCount = (Q l).length
  mem : ∀ l t, t ∈ Q l ↔ t ∈ n.tcbs ∧ (n.tcb t).parent = some l ∧ (n.tcb t).queued
  child : ∀ t ∈ n.tcbs, ∀ l, (n.tcb t).parent = some l → ChildOk (n.tcb t)

/-- Only sockets in `S` have children. -/
def Children (n : Net) (S : SockId → Prop) : Prop := ∀ t ∈ n.tcbs, ∀ l, (n.tcb t).parent = some l → S l

/-- The queued and the half-open children of `l`. -/
def pending (n : Net) (l : SockId) : Nat := (n.sock l).accCount + halfOpen n l

section Lists

variable {n n' : Net} {Q : SockId → List Id} {S : SockId → Prop} {i : Id} {l s : SockId} {t : Tcb}

theorem Wf.length_le (h : Wf n Q) (l : SockId) : (Q l).length ≤ n.tcbs.length :=
  (subperm_of_subset (h.family.nodup l) fun _ ht => ((h.mem l _).1 ht).1).length_le

/-! ### Changes that leave the lists -/

/-- A connection changes and stays in its queue, or outside. -/
theorem Wf.setTcb (h : Wf n Q) (hm : ∀ l, t.parent = some l ∧ t.queued ↔
      (n.tcb i).parent = some l ∧ (n.tcb i).queued)
    (hc : i ∈ n.tcbs → ∀ l, t.parent = some l → ChildOk t) : Wf (n.setTcb i t) Q where
  nodup := h.nodup
  heap := h.heap
  family := h.family
  tail := h.tail
  count := h.count
  mem := by
    intro l j
    rw [h.mem]
    by_cases hj : j = i
    · subst hj
      rw [setTcb_self, hm]
      exact Iff.rfl
    · rw [setTcb_of_ne n t hj]
      exact Iff.rfl
  child := by
    intro j hj l hp
    by_cases he : j = i
    · subst he
      rw [setTcb_self] at hp ⊢
      exact hc hj l hp
    · rw [setTcb_of_ne n t he] at hp ⊢
      exact h.child j hj l hp

/-- What the lists rest on is the same. -/
structure Same (n n' : Net) : Prop where
  tcbs : n'.tcbs = n.tcbs
  heap : n'.heap = n.heap
  acc : n'.acc = n.acc
  accTail : ∀ l, (n'.sock l).accTail = (n.sock l).accTail
  accCount : ∀ l, (n'.sock l).accCount = (n.sock l).accCount
  kept : ∀ j, (n.tcb j).Kept (n'.tcb j)

theorem Touches.same (h : Touches Tcb.Kept i n n') : Same n n' where
  tcbs := h.tcbs
  heap := h.heap
  acc := h.acc
  accTail := fun l => by rw [h.sock]
  accCount := fun l => by rw [h.sock]
  kept := by
    intro j
    by_cases hj : j = i
    · subst hj
      exact h.self
    · rw [h.other j hj]
      exact Tcb.Kept.refl _

/-- Nothing that the queues rest on has changed. -/
theorem Wf.same (h : Wf n Q) (hs : Same n n') : Wf n' Q where
  nodup := hs.tcbs ▸ h.nodup
  heap := by rw [hs.heap, hs.tcbs, h.heap]
  family := hs.acc ▸ h.family
  tail := fun l => (hs.accTail l).trans (h.tail l)
  count := fun l => (hs.accCount l).trans (h.count l)
  mem := by
    intro l t
    rw [h.mem, hs.tcbs, (hs.kept t).parent, (hs.kept t).queued]
  child := by
    intro t ht l hp
    rw [hs.tcbs] at ht
    rw [(hs.kept t).parent] at hp
    exact (h.child t ht l hp).kept (hs.kept t)

theorem Children.same (h : Children n S) (hs : Same n n') : Children n' S := by
  intro t ht l hp
  rw [hs.tcbs] at ht
  rw [(hs.kept t).parent] at hp
  exact h t ht l hp

theorem Children.mono {S' : SockId → Prop} (h : Children n S) (hS : ∀ l, S l → S' l) : Children n S' :=
  fun t ht l hp => hS l (h t ht l hp)

/-- What is half open was half open before. -/
theorem halfOpen_le (htcbs : n'.tcbs.Sublist n.tcbs)
    (hhalf : ∀ t ∈ n'.tcbs, (n'.tcb t).parent = some l → (n'.tcb t).state = .synRcvd →
      (n.tcb t).parent = some l ∧ (n.tcb t).state = .synRcvd) : halfOpen n' l ≤ halfOpen n l := by
  refine Nat.le_trans (countP_mono_left fun t ht hp => ?_) htcbs.countP_le
  simp only [Bool.and_eq_true, beq_iff_eq] at hp ⊢
  exact hhalf t ht hp.1 hp.2

theorem pending_le (hacc : (n'.sock l).accCount ≤ (n.sock l).accCount) (htcbs : n'.tcbs.Sublist n.tcbs)
    (hhalf : ∀ t ∈ n'.tcbs, (n'.tcb t).parent = some l → (n'.tcb t).state = .synRcvd →
      (n.tcb t).parent = some l ∧ (n.tcb t).state = .synRcvd) : pending n' l ≤ pending n l :=
  Nat.add_le_add hacc (halfOpen_le htcbs hhalf)

theorem Same.pending_le (hs : Same n n') (l : SockId) : pending n' l ≤ pending n l := by
  refine Tcp.pending_le (Nat.le_of_eq (hs.accCount l)) (hs.tcbs ▸ List.Sublist.refl _) ?_
  intro t _ hp hst
  rw [(hs.kept t).parent] at hp
  exact ⟨hp, (hs.kept t).later.of_half hst⟩

theorem Wf.unlink (h : Wf n Q) (hi : (n.tcb i).parent = none ∨ (n.tcb i).queued = false) :
    Wf ((tcbUnlink n i).kfree i) Q where
  nodup := h.nodup.erase i
  heap := by
    show n.heap.erase i = n.tcbs.erase i
    rw [h.heap]
  family := h.family
  tail := h.tail
  count := h.count
  mem := by
    intro l t
    rw [h.mem]
    constructor
    · rintro ⟨ht, hp, hq⟩
      refine ⟨(mem_erase_of_ne ?_).2 ht, hp, hq⟩
      rintro rfl
      obtain e | e := hi
      · rw [e] at hp
        cases hp
      · rw [e] at hq
        cases hq
    · rintro ⟨ht, hp, hq⟩
      exact ⟨mem_of_mem_erase ht, hp, hq⟩
  child := fun t ht l hp => h.child t (mem_of_mem_erase ht) l hp

/-! ### The walk of `acceptq_remove` -/

def slotOf (l : SockId) : Option Id → Slot
  | some q => .next q
  | none => .head l

/-- `i`, behind `prev`, is taken out of the queue of `l`. -/
def unlinked (n : Net) (l : SockId) (i : Id) (prev : Option Id) : Net :=
  (n.setAcc (slotOf l prev) (n.acc (.next i))).setSock l fun s =>
    { s with accTail := if s.accTail = some i then prev else s.accTail, accCount := s.accCount - 1 }

variable {pre post : List Id}

/-- The loop finds `i` and links around it. -/
theorem acceptqUnlink_eq {fuel : Nat} {prev : Option Id}
    (h : Chain next n.acc (slotOf l prev) (pre ++ i :: post)) (hi : i ∉ pre)
    (hf : pre.length < fuel) :
    acceptqUnlink l i fuel prev (n.acc (slotOf l prev)) n = unlinked n l i (pre.getLast? <|> prev) := by
  induction pre generalizing fuel prev with
  | nil =>
    obtain _ | fuel := fuel
    · cases hf
    · rw [h.head, nil_append, List.head?_cons]
      simp only [acceptqUnlink, if_true]
      cases prev <;> rfl
  | cons a pre ih =>
    obtain _ | fuel := fuel
    · cases hf
    · rw [mem_cons, not_or] at hi
      rw [h.head, cons_append, List.head?_cons]
      simp only [acceptqUnlink, if_neg (Ne.symm hi.1)]
      have hnext : Chain next n.acc (slotOf l (some a)) (pre ++ i :: post) := h.2
      rw [show n.acc (.next a) = n.acc (slotOf l (some a)) from rfl, ih hnext hi.2 (Nat.lt_of_succ_lt_succ hf)]
      congr 1
      rw [List.getLast?_cons]
      cases pre.getLast? <;> rfl

theorem slotOf_getLast? (l : SockId) (pre : List Id) :
    lastSlot next (.head l) pre = slotOf l pre.getLast? := by
  rw [Win98Modern.lastSlot_eq]
  cases pre.getLast? <;> rfl

@[simp] theorem setSock_self (n : Net) (s : SockId) (f : Sock → Sock) : (n.setSock s f).sock s = f (n.sock s) :=
  update_self ..

theorem setSock_of_ne (n : Net) (f : Sock → Sock) (h : l ≠ s) : (n.setSock s f).sock l = n.sock l :=
  update_of_ne h ..

@[simp] theorem modTcb_sock (n : Net) (i : Id) (f : Tcb → Tcb) : (n.modTcb i f).sock = n.sock := rfl

@[simp] theorem setTcb_sock (n : Net) (i : Id) (t : Tcb) : (n.setTcb i t).sock = n.sock := rfl

/-- A child that is not on a queue any more. -/
def Tcb.dropped (t : Tcb) : Tcb := { t with queued := false, parent := none }

theorem not_mem_of_apart (h : Wf n Q) (hQ : Q l = pre ++ i :: post) (k : SockId) :
    i ∉ update Q l (pre ++ post) k := by
  by_cases hk : k = l
  · subst hk
    rw [update_self]
    exact (nodup_cons.1 (nodup_middle.1 (hQ ▸ h.family.nodup k))).1
  · rw [update_of_ne hk]
    intro hi
    exact hk (h.family.apart k l i hi (hQ ▸ mem_append_right _ mem_cons_self))

theorem mem_update_of_ne (hQ : Q l = pre ++ i :: post) (k : SockId) {j : Id} (hj : j ≠ i) :
    j ∈ update Q l (pre ++ post) k ↔ j ∈ Q k := by
  by_cases hk : k = l
  · subst hk
    rw [update_self, hQ, mem_append, mem_append, mem_cons, or_iff_right hj]
  · rw [update_of_ne hk]

/-- The queue without `i`. -/
theorem Wf.lose (h : Wf n Q) (hQ : Q l = pre ++ i :: post) (htcbs : n'.tcbs = n.tcbs)
    (hheap : n'.heap = n.heap)
    (hfamily : ChainFamily head next n'.acc (update Q l (pre ++ post)))
    (htail : (n'.sock l).accTail = (pre ++ post).getLast?)
    (hcount : (n'.sock l).accCount = (n.sock l).accCount - 1)
    (hother : ∀ k, k ≠ l → n'.sock k = n.sock k) (hself : n'.tcb i = (n.tcb i).dropped)
    (htcb : ∀ j, j ≠ i → n'.tcb j = n.tcb j) : Wf n' (update Q l (pre ++ post)) where
  nodup := htcbs ▸ h.nodup
  heap := by rw [hheap, htcbs, h.heap]
  family := hfamily
  tail := by
    intro k
    by_cases hk : k = l
    · subst hk
      rw [update_self, htail]
    · rw [update_of_ne hk, hother k hk, h.tail]
  count := by
    intro k
    by_cases hk : k = l
    · subst hk
      rw [update_self, hcount, h.count, hQ, length_append, length_append, length_cons]
      omega
    · rw [update_of_ne hk, hother k hk, h.count]
  mem := by
    intro k j
    by_cases hj : j = i
    · subst hj
      rw [hself]
      exact iff_of_false (not_mem_of_apart h hQ k) fun hm => nomatch hm.2.1
    · rw [mem_update_of_ne hQ k hj, h.mem, htcbs, htcb j hj]
  child := by
    intro j hj k hp
    by_cases he : j = i
    · subst he
      rw [hself] at hp
      cases hp
    · rw [htcb j he] at hp ⊢
      exact h.child j (htcbs ▸ hj) k hp

/-! ### Leaving a queue -/

theorem Wf.split (h : Wf n Q) (hi : i ∈ n.tcbs) (hp : (n.tcb i).parent = some l) (hq : (n.tcb i).queued) :
    ∃ pre post, Q l = pre ++ i :: post ∧ i ∉ pre :=
  append_of_mem ((h.mem l i).2 ⟨hi, hp, hq⟩) |>.elim fun pre hpre => hpre.elim fun post hQ =>
    ⟨pre, post, hQ, fun hm =>
      (nodup_cons.1 (nodup_middle.1 (hQ ▸ h.family.nodup l))).1 (mem_append_left _ hm)⟩

theorem getLast?_lose (hnd : (pre ++ i :: post).Nodup) :
    (if (pre ++ i :: post).getLast? = some i then pre.getLast? else (pre ++ i :: post).getLast?) =
      (pre ++ post).getLast? := by
  obtain rfl | ⟨post, b, rfl⟩ := post.eq_nil_or_concat
  · rw [List.getLast?_concat, if_pos rfl, append_nil]
  · rw [concat_eq_append] at hnd ⊢
    have hlast : (pre ++ i :: (post ++ [b])).getLast? = some b := by
      rw [← cons_append, ← append_assoc, List.getLast?_concat]
    have hne : b ≠ i := by
      rintro rfl
      exact (nodup_cons.1 (nodup_middle.1 hnd)).1
        (mem_append_right _ (mem_append_right _ mem_cons_self))
    rw [hlast, if_neg fun e => hne (some.inj e), ← append_assoc, List.getLast?_concat]

theorem acceptqRemove_eq (h : Wf n Q) (hi : i ∈ n.tcbs) (hp : (n.tcb i).parent = some l) :
    ((n.tcb i).queued = false ∧ acceptqRemove n i = n.modTcb i Tcb.dropped) ∨
      ∃ pre post, Q l = pre ++ i :: post ∧
        acceptqRemove n i = (unlinked n l i pre.getLast?).modTcb i Tcb.dropped := by
  cases hq : (n.tcb i).queued with
  | false =>
    refine .inl ⟨rfl, ?_⟩
    simp only [acceptqRemove, hp, hq]
    rfl
  | true =>
    obtain ⟨pre, post, hQ, hpre⟩ := h.split hi hp hq
    refine .inr ⟨pre, post, hQ, ?_⟩
    have hchain : Chain next n.acc (slotOf l none) (pre ++ i :: post) := hQ ▸ h.family.chain l
    have hlen : pre.length < n.tcbs.length + 1 := by
      have hle := h.length_le l
      rw [hQ, length_append, length_cons] at hle
      omega
    have hwalk := acceptqUnlink_eq hchain hpre hlen
    have hnone : (pre.getLast? <|> none) = pre.getLast? := by cases pre.getLast? <;> rfl
    rw [hnone] at hwalk
    simp only [acceptqRemove, hp, hq, if_true]
    rw [show n.acc (.head l) = n.acc (slotOf l none) from rfl, hwalk]
    rfl

/-- A removal keeps the queues well formed. -/
theorem Wf.acceptqRemove (h : Wf n Q) (hi : i ∈ n.tcbs) : ∃ Q', Wf (acceptqRemove n i) Q' := by
  cases hp : (n.tcb i).parent with
  | none =>
    refine ⟨Q, ?_⟩
    simp only [Tcp.acceptqRemove, hp]
    exact h
  | some l =>
    obtain ⟨hq, e⟩ | ⟨pre, post, hQ, e⟩ := acceptqRemove_eq h hi hp
    · rw [e]
      refine ⟨Q, h.setTcb (fun k => ?_) fun _ k hk => nomatch hk⟩
      rw [hq]
      exact iff_of_false (fun hm => nomatch hm.1) fun hm => nomatch hm.2
    · rw [e]
      refine ⟨_, h.lose hQ rfl rfl ?_ ?_ ?_ ?_ ?_ ?_⟩
      · show ChainFamily head next (update n.acc (slotOf l pre.getLast?) (n.acc (.next i))) _
        rw [← slotOf_getLast?]
        exact h.family.detach head_injective next_injective head_ne_next hQ
      · show ((unlinked n l i pre.getLast?).sock l).accTail = _
        rw [unlinked, setSock_self]
        show (if (n.sock l).accTail = some i then pre.getLast? else (n.sock l).accTail) = _
        rw [h.tail, hQ, getLast?_lose (hQ ▸ h.family.nodup l)]
      · show ((unlinked n l i pre.getLast?).sock l).accCount = _
        rw [unlinked, setSock_self]
        rfl
      · intro k hk
        show (unlinked n l i pre.getLast?).sock k = _
        rw [unlinked, setSock_of_ne _ _ hk]
        rfl
      · exact setTcb_self ..
      · exact fun j hj => setTcb_of_ne _ _ hj

/-! ### Freeing a connection -/

/-- What the walk leaves. -/
structure Unlinks (n n' : Net) : Prop where
  tcbs : n'.tcbs = n.tcbs
  heap : n'.heap = n.heap
  tcb : n'.tcb = n.tcb
  socks : n'.socks = n.socks
  listening : ∀ k, (n'.sock k).listening = (n.sock k).listening
  accCount : ∀ k, (n'.sock k).accCount ≤ (n.sock k).accCount

theorem acceptqUnlink_unlinks (l : SockId) (t : Id) (fuel : Nat) (prev p : Option Id) (n : Net) :
    Unlinks n (acceptqUnlink l t fuel prev p n) := by
  induction fuel generalizing prev p with
  | zero => exact ⟨rfl, rfl, rfl, rfl, fun _ => rfl, fun _ => Nat.le_refl _⟩
  | succ fuel ih =>
    cases p with
    | none => exact ⟨rfl, rfl, rfl, rfl, fun _ => rfl, fun _ => Nat.le_refl _⟩
    | some p =>
      simp only [acceptqUnlink]
      split
      · refine ⟨rfl, rfl, rfl, rfl, fun k => ?_, fun k => ?_⟩
        · by_cases hk : k = l
          · subst hk
            rw [setSock_self]
            rfl
          · rw [setSock_of_ne _ _ hk]
            rfl
        · by_cases hk : k = l
          · subst hk
            rw [setSock_self]
            exact Nat.sub_le ..
          · rw [setSock_of_ne _ _ hk]
            exact Nat.le_refl _
      · exact ih ..

/-- What a connection that is freed leaves. -/
structure Frees (i : Id) (n n' : Net) : Prop where
  tcbs : n'.tcbs = n.tcbs.erase i
  other : ∀ j, j ≠ i → n'.tcb j = n.tcb j
  socks : n'.socks = n.socks
  listening : ∀ k, (n'.sock k).listening = (n.sock k).listening
  accCount : ∀ k, (n'.sock k).accCount ≤ (n.sock k).accCount

theorem acceptqRemove_other (n : Net) (i : Id) :
    (acceptqRemove n i).tcbs = n.tcbs ∧ (acceptqRemove n i).heap = n.heap ∧
      (∀ j, j ≠ i → (acceptqRemove n i).tcb j = n.tcb j) ∧ (acceptqRemove n i).socks = n.socks ∧
      (∀ k, ((acceptqRemove n i).sock k).listening = (n.sock k).listening) ∧
      ∀ k, ((acceptqRemove n i).sock k).accCount ≤ (n.sock k).accCount := by
  cases hp : (n.tcb i).parent with
  | none =>
    have e : acceptqRemove n i = n := by simp only [acceptqRemove, hp]
    rw [e]
    exact ⟨rfl, rfl, fun _ _ => rfl, rfl, fun _ => rfl, fun _ => Nat.le_refl _⟩
  | some l =>
    have hwalk := acceptqUnlink_unlinks l i (n.tcbs.length + 1) none (n.acc (.head l)) n
    simp only [acceptqRemove, hp]
    split
    · exact ⟨hwalk.tcbs, hwalk.heap, fun j hj => (setTcb_of_ne _ _ hj).trans (by rw [hwalk.tcb]), hwalk.socks,
        hwalk.listening, hwalk.accCount⟩
    · exact ⟨rfl, rfl, fun j hj => setTcb_of_ne _ _ hj, rfl, fun _ => rfl, fun _ => Nat.le_refl _⟩

theorem setSock_tcb (n : Net) (s k : SockId) :
    ((n.setSock s fun s => { s with tcb := none }).sock k).listening = (n.sock k).listening ∧
      ((n.setSock s fun s => { s with tcb := none }).sock k).accCount = (n.sock k).accCount ∧
      ((n.setSock s fun s => { s with tcb := none }).sock k).accTail = (n.sock k).accTail := by
  by_cases hk : k = s
  · subst hk
    rw [setSock_self]
    exact ⟨rfl, rfl, rfl⟩
  · rw [setSock_of_ne _ _ hk]
    exact ⟨rfl, rfl, rfl⟩

theorem frees_tcbFree (n : Net) (i : Id) : Frees i n (tcbFree n i) := by
  obtain ⟨h1, -, h3, h4, h5, h6⟩ := acceptqRemove_other n i
  have htcbs : (tcbUnlink (acceptqRemove n i) i).tcbs = n.tcbs.erase i := by rw [tcbUnlink, h1]
  simp only [tcbFree]
  split
  · rename_i s _
    exact ⟨htcbs, h3, h4, fun k => (setSock_tcb _ s k).1.trans (h5 k),
      fun k => Nat.le_trans (Nat.le_of_eq (setSock_tcb _ s k).2.1) (h6 k)⟩
  · exact ⟨htcbs, h3, h4, h5, h6⟩

theorem Frees.pending_le (hf : Frees i n n') (hnd : n.tcbs.Nodup) (l : SockId) : pending n' l ≤ pending n l := by
  refine Tcp.pending_le (hf.accCount l) (hf.tcbs ▸ erase_sublist) fun t ht hp hs => ?_
  rw [hf.tcbs, hnd.mem_erase_iff] at ht
  rw [hf.other t ht.1] at hp hs
  exact ⟨hp, hs⟩

theorem acceptqRemove_parent (h : Wf n Q) (hi : i ∈ n.tcbs) : ((acceptqRemove n i).tcb i).parent = none := by
  cases hp : (n.tcb i).parent with
  | none =>
    simp only [acceptqRemove, hp]
  | some l =>
    obtain ⟨-, e⟩ | ⟨pre, post, -, e⟩ := acceptqRemove_eq h hi hp
    · rw [e, Net.modTcb, setTcb_self]
      rfl
    · rw [e, Net.modTcb, setTcb_self]
      rfl

theorem Wf.setSock (h : Wf n Q) {f : Sock → Sock} (htail : (f (n.sock s)).accTail = (n.sock s).accTail)
    (hcount : (f (n.sock s)).accCount = (n.sock s).accCount) : Wf (n.setSock s f) Q := by
  refine h.same ⟨rfl, rfl, rfl, fun l => ?_, fun l => ?_, fun j => Tcb.Kept.refl _⟩
  · by_cases hl : l = s
    · subst hl
      rw [setSock_self, htail]
    · rw [setSock_of_ne _ _ hl]
  · by_cases hl : l = s
    · subst hl
      rw [setSock_self, hcount]
    · rw [setSock_of_ne _ _ hl]

/-- So does a connection that is freed. -/
theorem Wf.tcbFree (h : Wf n Q) (hi : i ∈ n.tcbs) : ∃ Q', Wf (tcbFree n i) Q' := by
  obtain ⟨Q', hQ⟩ := h.acceptqRemove hi
  have hfree := hQ.unlink (.inl (acceptqRemove_parent h hi))
  refine ⟨Q', ?_⟩
  simp only [Tcp.tcbFree]
  split
  · exact hfree.setSock (f := fun s => { s with tcb := none }) rfl rfl
  · exact hfree

/-! ### Completing and taking a connection -/

theorem acceptqAppend_eq (n : Net) (l : SockId) (i : Id) :
    acceptqAppend n l i =
      (((n.setAcc (.next i) none).setAcc (slotOf l (n.sock l).accTail) (some i)).setSock l fun s =>
        { s with accTail := some i, accCount := s.accCount + 1 }).modTcb i fun c => { c with queued := true } := by
  have hs : ((n.setAcc (.next i) none).sock l).accTail = (n.sock l).accTail := rfl
  simp only [acceptqAppend]
  rw [hs]
  cases (n.sock l).accTail <;> rfl

/-- What a queue that gets a connection leaves. -/
structure Appends (l : SockId) (i : Id) (n n' : Net) : Prop where
  tcbs : n'.tcbs = n.tcbs
  heap : n'.heap = n.heap
  acc : n'.acc = update (update n.acc (.next i) none) (slotOf l (n.sock l).accTail) (some i)
  self : n'.tcb i = { n.tcb i with queued := true }
  other : ∀ j, j ≠ i → n'.tcb j = n.tcb j
  sock : n'.sock l = { n.sock l with accTail := some i, accCount := (n.sock l).accCount + 1 }
  sockOther : ∀ k, k ≠ l → n'.sock k = n.sock k
  socks : n'.socks = n.socks

theorem acceptqAppend_appends (n : Net) (l : SockId) (i : Id) : Appends l i n (acceptqAppend n l i) := by
  rw [acceptqAppend_eq]
  refine ⟨rfl, rfl, rfl, setTcb_self .., fun j hj => setTcb_of_ne _ _ hj, ?_, fun k hk => ?_, rfl⟩
  · rw [modTcb_sock, setSock_self]
    rfl
  · rw [modTcb_sock, setSock_of_ne _ _ hk]
    rfl

/-- A connection joins the end of the queue of its parent. -/
theorem Wf.append (h : Wf n Q) (hi : i ∈ n.tcbs) (hp : (n.tcb i).parent = some l)
    (hq : (n.tcb i).queued = false) (hpt : t.parent = some l) (hst : t.sock = none) (hwt : t.wasEst = true)
    (hstate : t.state = .established) (ha : Appends l i (n.setTcb i t) n') :
    Wf n' (update Q l (Q l ++ [i])) := by
  have hnot : ∀ k, i ∉ Q k := fun k hk => by
    rw [h.mem, hq] at hk
    exact Bool.noConfusion hk.2.2
  have hself : n'.tcb i = { t with queued := true } :=
    ha.self.trans (congrArg (fun c : Tcb => { c with queued := true }) (setTcb_self n i t))
  have hother : ∀ j, j ≠ i → n'.tcb j = n.tcb j := fun j hj => (ha.other j hj).trans (setTcb_of_ne n t hj)
  have hacc : n'.acc = appendNode next (Q l).length (.head l) i n.acc := by
    have hchain := (h.family.clear next_injective head_ne_next hnot).chain l
    rw [ha.acc, appendNode, hchain.tailSlot (Nat.le_refl _), slotOf_getLast?, ← h.tail]
    rfl
  have htcbs : n'.tcbs = n.tcbs := ha.tcbs
  refine ⟨htcbs ▸ h.nodup, ?_, ?_, fun k => ?_, fun k => ?_, fun k j => ?_, fun j hj k hk => ?_⟩
  · rw [htcbs]
    exact ha.heap.trans h.heap
  · rw [hacc]
    exact h.family.append head_injective next_injective head_ne_next hnot (Nat.le_refl _)
  · by_cases hk : k = l
    · subst hk
      rw [update_self, ha.sock, List.getLast?_concat]
    · rw [update_of_ne hk, ha.sockOther k hk]
      exact h.tail k
  · by_cases hk : k = l
    · subst hk
      rw [update_self, ha.sock, length_append, ← h.count]
      rfl
    · rw [update_of_ne hk, ha.sockOther k hk]
      exact h.count k
  · rw [htcbs]
    by_cases hj : j = i
    · subst hj
      rw [hself]
      by_cases hk : k = l
      · subst hk
        rw [update_self]
        exact iff_of_true (mem_append_right _ (mem_singleton_self j)) ⟨hi, hpt, rfl⟩
      · rw [update_of_ne hk]
        exact iff_of_false (hnot k) fun hm => hk (some.inj (hm.2.1.symm.trans hpt))
    · rw [hother j hj, ← h.mem]
      by_cases hk : k = l
      · subst hk
        rw [update_self, mem_append, mem_singleton, or_iff_left hj]
      · rw [update_of_ne hk]
  · by_cases he : j = i
    · subst he
      rw [hself]
      exact ⟨hst, hwt.symm, fun _ => by simp [hstate], fun hn => Bool.noConfusion hn⟩
    · rw [hother j he] at hk ⊢
      exact h.child j (htcbs ▸ hj) k hk

theorem halfOpen_lt (hi : i ∈ n.tcbs) (hp : (n.tcb i).parent = some l) (hs : (n.tcb i).state = .synRcvd)
    (htcbs : n'.tcbs = n.tcbs) (hself : (n'.tcb i).state ≠ .synRcvd)
    (hother : ∀ j, j ≠ i → n'.tcb j = n.tcb j) : halfOpen n' l + 1 ≤ halfOpen n l := by
  obtain ⟨pre, post, e⟩ := append_of_mem hi
  have hle : ∀ js : List Id, (js.countP fun c => (n'.tcb c).parent == some l && (n'.tcb c).state == .synRcvd) ≤
      js.countP fun c => (n.tcb c).parent == some l && (n.tcb c).state == .synRcvd := by
    refine fun js => countP_mono_left fun j _ hj => ?_
    by_cases he : j = i
    · subst he
      simp only [Bool.and_eq_true, beq_iff_eq] at hj
      exact absurd hj.2 hself
    · rwa [hother j he] at hj
  have hpre := hle pre
  have hpost := hle post
  rw [halfOpen, halfOpen, htcbs, e, countP_append, countP_append, countP_cons, countP_cons,
    if_neg (by simp [hself]), if_pos (by simp [hp, hs])]
  omega

/-- An accept takes the first of the queue. -/
theorem Wf.dequeue (h : Wf n Q) (hd : tcpAcceptDequeue n l = some (i, n')) :
    (∃ Q', Wf n' Q') ∧ i ∈ n.tcbs ∧ (n.tcb i).sock = none ∧ n'.tcb i = (n.tcb i).dropped ∧
      (∀ j, j ≠ i → n'.tcb j = n.tcb j) ∧ n'.tcbs = n.tcbs ∧ n'.socks = n.socks ∧
      (∀ k, (n'.sock k).listening = (n.sock k).listening) ∧
      ∀ k, (n'.sock k).accCount ≤ (n.sock k).accCount := by
  simp only [tcpAcceptDequeue] at hd
  cases hhead : n.acc (.head l) with
  | none =>
    rw [hhead] at hd
    cases hd
  | some a =>
    rw [hhead] at hd
    obtain ⟨rfl, rfl⟩ := Prod.mk.inj (some.inj hd)
    have hfirst := (h.family.head l).symm.trans hhead
    obtain ⟨rest, hQ⟩ : ∃ rest, Q l = [] ++ a :: rest := by
      cases hL : Q l with
      | nil =>
        rw [hL] at hfirst
        cases hfirst
      | cons b rest =>
        rw [hL, List.head?_cons] at hfirst
        exact ⟨rest, by rw [some.inj hfirst, nil_append]⟩
    have hmem : a ∈ Q l := hQ ▸ mem_cons_self
    obtain ⟨ha, hpa, -⟩ := (h.mem l a).1 hmem
    have hnext : n.acc (.next a) = rest.head? := by
      have hchain := h.family.chain l
      rw [hQ] at hchain
      exact hchain.2.head
    refine ⟨⟨_, h.lose hQ rfl rfl ?_ ?_ ?_ ?_ ?_ ?_⟩, ha, (h.child a ha l hpa).sock, ?_, ?_, rfl, rfl, ?_, ?_⟩
    · exact h.family.pop head_injective next_injective head_ne_next hQ
    · rw [modTcb_sock, setSock_self]
      show (if n.acc (.next a) = none then none else (n.sock l).accTail) = _
      rw [hnext, h.tail, hQ]
      cases rest with
      | nil => rfl
      | cons b rest => exact List.getLast?_cons_cons ..
    · rw [modTcb_sock, setSock_self]
      rfl
    · intro k hk
      rw [modTcb_sock, setSock_of_ne _ _ hk]
      rfl
    · exact setTcb_self ..
    · exact fun j hj => setTcb_of_ne _ _ hj
    · exact setTcb_self ..
    · exact fun j hj => setTcb_of_ne _ _ hj
    · intro k
      by_cases hk : k = l
      · subst hk
        rw [modTcb_sock, setSock_self]
        rfl
      · rw [modTcb_sock, setSock_of_ne _ _ hk]
        rfl
    · intro k
      by_cases hk : k = l
      · subst hk
        rw [modTcb_sock, setSock_self]
        exact Nat.sub_le ..
      · rw [modTcb_sock, setSock_of_ne _ _ hk]
        exact Nat.le_refl _

theorem Wf.tcbAlloc (h : Wf n Q) {sndlim rcvlim : Nat} (ha : tcbAlloc n sndlim rcvlim = some (i, n')) :
    Wf n' Q ∧ i ∉ n.tcbs ∧ n'.tcbs = i :: n.tcbs ∧ (n'.tcb i).parent = none ∧ (n'.tcb i).queued = false ∧
      (n'.tcb i).wasEst = false ∧ (n'.tcb i).sock = none ∧ (∀ j, j ≠ i → n'.tcb j = n.tcb j) ∧
      n'.socks = n.socks ∧ n'.sock = n.sock := by
  simp only [Tcp.tcbAlloc] at ha
  split at ha
  · cases ha
  · rename_i a _
    split at ha
    · cases ha
    · rename_i hnew
      obtain ⟨rfl, rfl⟩ := Prod.mk.inj (some.inj ha)
      rw [h.heap] at hnew
      have hnot : ∀ k, a ∉ Q k := fun k hk => hnew ((h.mem k a).1 hk).1
      have hself : ∀ t : Tcb, (n.setTcb a t).tcb a = t := fun t => setTcb_self n a t
      refine ⟨⟨nodup_cons.2 ⟨hnew, h.nodup⟩, congrArg (a :: ·) h.heap, ?_, h.tail, h.count, fun k j => ?_,
        fun j hj k hk => ?_⟩, hnew, rfl, congrArg Tcb.parent (hself _), congrArg Tcb.queued (hself _),
        congrArg Tcb.wasEst (hself _), congrArg Tcb.sock (hself _), fun j hj => setTcb_of_ne n _ hj, rfl, rfl⟩
      · exact h.family.clear next_injective head_ne_next hnot
      · by_cases he : j = a
        · subst he
          refine iff_of_false (hnot k) fun hm => ?_
          have hp := (congrArg Tcb.parent (hself _)).symm.trans hm.2.1
          cases hp
        · rw [h.mem]
          refine and_congr (mem_cons.trans (or_iff_right he)).symm ?_
          have hj := setTcb_of_ne n { sndq := { limit := sndlim }, rcvq := { limit := rcvlim }, rto := RTO_INIT } he
          exact ⟨fun hm => by rwa [← hj] at hm, fun hm => by rwa [← hj]⟩
      · by_cases he : j = a
        · subst he
          have hp := (congrArg Tcb.parent (hself _)).symm.trans hk
          cases hp
        · have hj' := setTcb_of_ne n { sndq := { limit := sndlim }, rcvq := { limit := rcvlim }, rto := RTO_INIT } he
          have hmem : j ∈ n.tcbs := (mem_cons.1 hj).resolve_left he
          have hk' : (n.tcb j).parent = some k := hj' ▸ hk
          exact hj'.symm ▸ h.child j hmem k hk'

end Lists

end Win98Modern.Tcp
