import Win98Modern.Kernel64.TcpLists

/-!
# Calls and the accept queues

`Fine n n'`: a change keeps the accept queues, and no listener has more queued and half-open children after
it.  Everything a segment, a timer or a request does is fine; a SYN for a listener is the exception, and it
is admitted within the backlog only (`passiveOpen_admitting`).
-/

namespace Win98Modern.Tcp

/-- The accept queues are right, and who has children listens. -/
structure Inv (n : Net) : Prop where
  queues : ∃ Q, Wf n Q
  children : Children n fun l => l ∈ n.socks ∧ (n.sock l).listening

/-- The accept queues stay right and no listener has more children pending. -/
structure Fine (n n' : Net) : Prop where
  keeps : Inv n → Inv n' ∧ ∀ l, pending n' l ≤ pending n l

section Fine

variable {n n' n'' : Net} {i : Id} {t : Tcb}

theorem Fine.refl (n : Net) : Fine n n := ⟨fun h => ⟨h, fun _ => Nat.le_refl _⟩⟩

theorem Fine.trans (h : Fine n n') (h' : Fine n' n'') : Fine n n'' where
  keeps := fun hn =>
    have ⟨h1, h2⟩ := h.keeps hn
    have ⟨h3, h4⟩ := h'.keeps h1
    ⟨h3, fun l => Nat.le_trans (h4 l) (h2 l)⟩

theorem fine_ite {c : Prop} [Decidable c] (h : Fine n n') (h' : Fine n n'') : Fine n (if c then n' else n'') := by
  split
  · exact h
  · exact h'

theorem Fine.foldl {α : Type} {f : Net → α → Net} (h : ∀ n a, Fine n (f n a)) (as : List α) (n : Net) :
    Fine n (as.foldl f n) := by
  induction as generalizing n with
  | nil => exact Fine.refl n
  | cons a as ih => exact (h n a).trans (ih (f n a))

/-- The lists and the listeners are the same. -/
structure Quiet (n n' : Net) : Prop extends Same n n' where
  socks : n'.socks = n.socks
  listening : ∀ l, (n'.sock l).listening = (n.sock l).listening

/-- A step that touches no queue is fine. -/
theorem Quiet.fine (h : Quiet n n') : Fine n n' where
  keeps := by
    intro hn
    obtain ⟨Q, hQ⟩ := hn.queues
    refine ⟨⟨⟨Q, hQ.same h.toSame⟩, (hn.children.same h.toSame).mono fun l hl => ?_⟩, h.toSame.pending_le⟩
    rwa [h.socks, h.listening]

theorem Touches.fine (h : Touches Tcb.Kept i n n') : Fine n n' :=
  Quiet.fine ⟨h.same, h.socks, fun l => by rw [h.sock]⟩

theorem Touches.fine_of_sends (h : Sends i n n') : Fine n n' := (h.mono Tcb.Sends.toKept).fine

theorem fine_setTcb (h : (n.tcb i).Kept t) : Fine n (n.setTcb i t) := (touches_setTcb h).fine

theorem fine_modTcb {f : Tcb → Tcb} (h : (n.tcb i).Kept (f (n.tcb i))) : Fine n (n.modTcb i f) := fine_setTcb h

theorem fine_setSock {s : SockId} {f : Sock → Sock} (htail : (f (n.sock s)).accTail = (n.sock s).accTail)
    (hcount : (f (n.sock s)).accCount = (n.sock s).accCount)
    (hlistening : (f (n.sock s)).listening = (n.sock s).listening) : Fine n (n.setSock s f) := by
  refine Quiet.fine ⟨⟨rfl, rfl, rfl, fun l => ?_, fun l => ?_, fun _ => Tcb.Kept.refl _⟩, rfl, fun l => ?_⟩
  all_goals
    by_cases hl : l = s
    · subst hl
      rw [setSock_self]
      assumption
    · rw [setSock_of_ne _ _ hl]

theorem fine_rest {ackDirty : Bool} {env : Env} : Fine n { n with ackDirty := ackDirty, env := env } :=
  Quiet.fine ⟨⟨rfl, rfl, rfl, fun _ => rfl, fun _ => rfl, fun _ => Tcb.Kept.refl _⟩, rfl, fun _ => rfl⟩

theorem fine_tcbFree (hi : i ∈ n.tcbs) : Fine n (tcbFree n i) := by
  refine ⟨fun h => ?_⟩
  obtain ⟨Q, hQ⟩ := h.queues
  have hf := frees_tcbFree n i
  refine ⟨⟨hQ.tcbFree hi, fun t ht l hp => ?_⟩, fun l => hf.pending_le hQ.nodup l⟩
  rw [hf.tcbs, hQ.nodup.mem_erase_iff] at ht
  rw [hf.other t ht.1] at hp
  rw [hf.socks, hf.listening]
  exact h.children t ht.2 l hp

theorem fine_unlink (hi : (n.tcb i).parent = none ∨ (n.tcb i).queued = false) : Fine n ((tcbUnlink n i).kfree i) := by
  refine ⟨fun h => ?_⟩
  obtain ⟨Q, hQ⟩ := h.queues
  refine ⟨⟨⟨Q, hQ.unlink hi⟩, fun t ht l hp => h.children t (List.mem_of_mem_erase ht) l hp⟩, fun l => ?_⟩
  exact pending_le (Nat.le_refl _) List.erase_sublist fun _ _ hp hs => ⟨hp, hs⟩

theorem fine_setTcb_of_parent (hp : (n.tcb i).parent = none) (hp' : t.parent = none) : Fine n (n.setTcb i t) := by
  refine ⟨fun h => ?_⟩
  obtain ⟨Q, hQ⟩ := h.queues
  refine ⟨⟨⟨Q, hQ.setTcb (fun l => ?_) fun _ l hl => ?_⟩, fun j hj l hl => ?_⟩, fun l => ?_⟩
  · rw [hp, hp']
    exact iff_of_false (fun hm => nomatch hm.1) fun hm => nomatch hm.1
  · rw [hp'] at hl
    cases hl
  · by_cases he : j = i
    · subst he
      rw [setTcb_self, hp'] at hl
      cases hl
    · rw [setTcb_of_ne n t he] at hl
      exact h.children j hj l hl
  · refine pending_le (Nat.le_refl _) (List.Sublist.refl _) fun j _ hj hs => ?_
    by_cases he : j = i
    · subst he
      rw [setTcb_self, hp'] at hj
      cases hj
    · rw [setTcb_of_ne n t he] at hj hs
      exact ⟨hj, hs⟩

theorem fine_disown (n : Net) (i : Id) : Fine n (n.modTcb i fun t => { t with sock := none }) := by
  refine ⟨fun h => ?_⟩
  obtain ⟨Q, hQ⟩ := h.queues
  refine ⟨⟨⟨Q, hQ.setTcb (fun l => Iff.rfl) fun hi l hl => ?_⟩, fun j hj l hl => ?_⟩, fun l => ?_⟩
  · have hc := hQ.child i hi l hl
    exact ⟨rfl, hc.queued, hc.waiting, hc.opening⟩
  · by_cases he : j = i
    · subst he
      rw [Net.modTcb, setTcb_self] at hl
      exact h.children j hj l hl
    · rw [Net.modTcb, setTcb_of_ne _ _ he] at hl
      exact h.children j hj l hl
  · refine pending_le (Nat.le_refl _) (List.Sublist.refl _) fun j _ hj hs => ?_
    by_cases he : j = i
    · subst he
      rw [Net.modTcb, setTcb_self] at hj hs
      exact ⟨hj, hs⟩
    · rw [Net.modTcb, setTcb_of_ne _ _ he] at hj hs
      exact ⟨hj, hs⟩

theorem Inv.parent_of_synSent (h : Inv n) (hi : i ∈ n.tcbs) (hs : (n.tcb i).state = .synSent) :
    (n.tcb i).parent = none := by
  obtain ⟨Q, hQ⟩ := h.queues
  cases hp : (n.tcb i).parent with
  | none => rfl
  | some l =>
    have hc := hQ.child i hi l hp
    cases hq : (n.tcb i).queued with
    | true => exact absurd hs (hc.waiting hq).1
    | false =>
      have ho := hc.opening hq
      rw [hs] at ho
      exact ho.elim nofun nofun

/-- A half-open connection is in no queue. -/
theorem Inv.queued_of_synRcvd (h : Inv n) (hi : i ∈ n.tcbs) (hs : (n.tcb i).state = .synRcvd) {l : SockId}
    (hp : (n.tcb i).parent = some l) : (n.tcb i).queued = false := by
  obtain ⟨Q, hQ⟩ := h.queues
  cases hq : (n.tcb i).queued with
  | false => rfl
  | true => exact absurd hs ((hQ.child i hi l hp).waiting hq).2

end Fine

/-! ### Ends of connections -/

section Ends

variable {notify : Net → Net} (hn : ∀ n, Fine n (notify n)) (n : Net) (i : Id)

include hn

theorem fine_tcbNotify : Fine n (tcbNotify notify n i) := by
  simp only [tcbNotify]
  split
  · exact hn n
  · exact Fine.refl n

theorem fine_tcbDie (err : NetErr) : Fine n (tcbDie notify n i err) := by
  refine Fine.trans ?_ (fine_tcbNotify hn _ i)
  exact fine_modTcb ⟨rfl, rfl, rfl, rfl, later_closed _⟩

theorem fine_tcbClosed : Fine n (tcbClosed notify n i) := by
  refine Fine.trans ?_ (fine_tcbNotify hn _ i)
  exact fine_modTcb ⟨rfl, rfl, rfl, rfl, later_closed _⟩

theorem fine_enterTimeWait (hl : Later (n.tcb i).state .timeWait) : Fine n (enterTimeWait notify n i) := by
  refine Fine.trans ?_ (fine_tcbNotify hn _ i)
  exact fine_modTcb ⟨rfl, rfl, rfl, rfl, hl⟩

theorem fine_tcpAbort (sendRst : Bool) : Fine n (tcpAbort notify n i sendRst) := by
  simp only [tcpAbort]
  split
  · exact (sends_sendRstConn n i).fine_of_sends.trans (fine_tcbDie hn _ i _)
  · exact fine_tcbDie hn n i _

theorem fine_tcbOrphaned (lingerReset : Bool) : Fine n (tcbOrphaned notify n i lingerReset) := by
  simp only [tcbOrphaned]
  split
  · refine Fine.trans ?_ (fine_modTcb ⟨rfl, rfl, rfl, rfl, Later.refl _⟩)
    split
    · exact Fine.refl n
    · exact fine_tcbClosed hn n i
  · split
    · exact (sends_sendRstConn n i).fine_of_sends.trans (fine_tcbDie hn _ i _)
    · have hmod : Fine n (n.modTcb i fun t => { t with rcvq := { t.rcvq with limit := 0 } }) :=
        fine_modTcb ⟨rfl, rfl, rfl, rfl, Later.refl _⟩
      have hshut := hmod.trans (sends_tcpShutdownWrite _ i).fine_of_sends
      split <;> split
      · exact hshut.trans (fine_modTcb ⟨rfl, rfl, rfl, rfl, Later.refl _⟩)
      · exact hshut
      · exact hmod.trans (fine_modTcb ⟨rfl, rfl, rfl, rfl, Later.refl _⟩)
      · exact hmod

theorem fine_tcpHostUnreachable (unreachable : Ip → Bool) : Fine n (tcpHostUnreachable notify n unreachable) := by
  refine Fine.foldl (fun n i => ?_) _ n
  split
  · exact fine_tcbDie hn n i _
  · exact Fine.refl n

end Ends

end Win98Modern.Tcp
