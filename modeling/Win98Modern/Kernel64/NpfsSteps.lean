import Win98Modern.Kernel64.NpfsQueues

/-!
# The sections of the calls on a pipe

`Inv σ`: the queues are in order, and a write is pending under the quota only while a thread is in
`serve_writers` of the end that reads the queue (`Serves`), so that it will be accepted.  Every section of a
call keeps it, but two: `serve_writers` returns when it cannot copy a write, and `FSCTL_PIPE_TRANSCEIVE` takes a
reply without serving writers.  `Strands` and `Drains` say when these leave a write behind.
-/

namespace Win98Modern.Npfs

open Option

/-! ### What the edits leave alone -/

section Frames

variable {σ : State} {i : Nat} {d : Bool}

@[simp] theorem setInst_self (v : Inst) : (σ.setInst i v).inst i = v := Function.update_self ..

@[simp] theorem setTask_self (t : Nat) (v : Task) : (σ.setTask t v).task t = v := Function.update_self ..

theorem setTask_ne {t u : Nat} (v : Task) (h : u ≠ t) : (σ.setTask t v).task u = σ.task u := Function.update_of_ne h ..

theorem complete_same (σ : State) (x : Done) : (σ.complete x).inst = σ.inst ∧ (σ.complete x).ends = σ.ends ∧
    (σ.complete x).task = σ.task ∧ (σ.complete x).nextEnd = σ.nextEnd := by
  unfold State.complete
  split <;> exact ⟨rfl, rfl, rfl, rfl⟩

theorem completeAll_same (σ : State) (ds : List Done) : (σ.completeAll ds).inst = σ.inst ∧
    (σ.completeAll ds).ends = σ.ends ∧ (σ.completeAll ds).task = σ.task ∧ (σ.completeAll ds).nextEnd = σ.nextEnd := by
  induction ds generalizing σ with
  | nil => exact ⟨rfl, rfl, rfl, rfl⟩
  | cons x ds ih =>
    obtain ⟨h₁, h₂, h₃, h₄⟩ := ih (σ.complete x)
    obtain ⟨g₁, g₂, g₃, g₄⟩ := complete_same σ x
    exact ⟨h₁.trans g₁, h₂.trans g₂, h₃.trans g₃, h₄.trans g₄⟩

@[simp] theorem complete_inst (x : Done) : (σ.complete x).inst = σ.inst := (complete_same σ x).1

@[simp] theorem complete_ends (x : Done) : (σ.complete x).ends = σ.ends := (complete_same σ x).2.1

@[simp] theorem complete_task (x : Done) : (σ.complete x).task = σ.task := (complete_same σ x).2.2.1

@[simp] theorem complete_nextEnd (x : Done) : (σ.complete x).nextEnd = σ.nextEnd := (complete_same σ x).2.2.2

@[simp] theorem completeAll_inst (ds : List Done) : (σ.completeAll ds).inst = σ.inst := (completeAll_same σ ds).1

@[simp] theorem completeAll_ends (ds : List Done) : (σ.completeAll ds).ends = σ.ends := (completeAll_same σ ds).2.1

@[simp] theorem completeAll_task (ds : List Done) : (σ.completeAll ds).task = σ.task := (completeAll_same σ ds).2.2.1

@[simp] theorem completeAll_nextEnd (ds : List Done) : (σ.completeAll ds).nextEnd = σ.nextEnd :=
  (completeAll_same σ ds).2.2.2

/-- Nothing changes but the instance `i`. -/
structure Local (i : Nat) (σ σ' : State) : Prop where
  inst : ∀ j, j ≠ i → σ'.inst j = σ.inst j
  ends : σ'.ends = σ.ends
  task : σ'.task = σ.task
  nextEnd : σ'.nextEnd = σ.nextEnd
  client : (σ'.inst i).client = (σ.inst i).client
  pipe : (σ'.inst i).pipe = (σ.inst i).pipe

theorem Local.trans {σ₁ σ₂ : State} (h : Local i σ σ₁) (h' : Local i σ₁ σ₂) : Local i σ σ₂ where
  inst j hj := (h'.inst j hj).trans (h.inst j hj)
  ends := h'.ends.trans h.ends
  task := h'.task.trans h.task
  nextEnd := h'.nextEnd.trans h.nextEnd
  client := h'.client.trans h.client
  pipe := h'.pipe.trans h.pipe

theorem local_setInst {v : Inst} (hv : v.client = (σ.inst i).client) (hp : v.pipe = (σ.inst i).pipe) :
    Local i σ (σ.setInst i v) where
  inst j hj := Function.update_of_ne hj ..
  ends := rfl
  task := rfl
  nextEnd := rfl
  client := by rw [setInst_self, hv]
  pipe := by rw [setInst_self, hp]

theorem local_completeAll (ds : List Done) : Local i σ (σ.completeAll ds) :=
  ⟨fun _ _ => by simp, by simp, by simp, by simp, by simp, by simp⟩

theorem local_setQueue (q : DataQ) : Local i σ (σ.setQueue i d q) := local_setInst rfl rfl

theorem local_failListeners (st : Status) : Local i σ (σ.failListeners i st) := by
  refine (local_setInst ?_ ?_).trans (local_completeAll _) <;> rfl

theorem local_failReaders (st : Status) : Local i σ (σ.failReaders i d st) :=
  (local_setQueue _).trans (local_completeAll _)

theorem local_failWriters (st : Status) : Local i σ (σ.failWriters i d st) :=
  (local_setQueue _).trans (local_completeAll _)

theorem local_serveReaders (m : Memory) (mp : Bool) (dead : Option Status) : Local i σ (σ.serveReaders m i d mp dead) :=
  (local_setQueue _).trans (local_completeAll _)

theorem setQueue_queue (q : DataQ) : ((σ.setQueue i d q).inst i).queue = Function.update (σ.inst i).queue d q := by
  rw [State.setQueue, setInst_self]

theorem failListeners_queue (st : Status) : ((σ.failListeners i st).inst i).queue = (σ.inst i).queue := by
  simp [State.failListeners, State.failAll, State.setInst]

theorem failReaders_queue (st : Status) : ((σ.failReaders i d st).inst i).queue =
    Function.update (σ.inst i).queue d { (σ.inst i).queue d with readers := [] } := by
  simp [State.failReaders, State.failAll, setQueue_queue]

theorem failWriters_queue (st : Status) : ((σ.failWriters i d st).inst i).queue =
    Function.update (σ.inst i).queue d { (σ.inst i).queue d with writers := [] } := by
  simp [State.failWriters, State.failAll, setQueue_queue]

theorem serveReaders_queue (m : Memory) (mp : Bool) (dead : Option Status) :
    ((σ.serveReaders m i d mp dead).inst i).queue =
      Function.update (σ.inst i).queue d (serveReaders m mp dead ((σ.inst i).queue d)).1 := by
  simp [State.serveReaders, setQueue_queue]

theorem link_queue (m : Memory) (first : List Blk) (len : Nat) (message : Bool) :
    ((σ.link m i d first len message).inst i).queue = Function.update (σ.inst i).queue d
      (serveReaders m message none (qLink ((σ.inst i).queue d) first len message)).1 := by
  rw [State.link, serveReaders_queue, setQueue_queue, Function.update_self, Function.update_idem]

theorem local_link (m : Memory) (first : List Blk) (len : Nat) (message : Bool) :
    Local i σ (σ.link m i d first len message) :=
  (local_setQueue _).trans (local_serveReaders m _ _)

theorem orphan_same (σ : State) (c : Option Nat) : (σ.orphan c).inst = σ.inst ∧ (σ.orphan c).task = σ.task ∧
    (σ.orphan c).nextEnd = σ.nextEnd ∧ ∀ e, c ≠ some e → (σ.orphan c).ends e = σ.ends e := by
  cases c with
  | none => exact ⟨rfl, rfl, rfl, fun _ _ => rfl⟩
  | some c => exact ⟨rfl, rfl, rfl, fun e he => Function.update_of_ne (fun h => he (congrArg some h.symm)) ..⟩

variable {σ' : State}

theorem local_setTask (h : Local i σ σ') (x : Done) (t : Nat) (v : Task) :
    Local i (σ.setTask t v) ((σ'.complete x).setTask t v) where
  inst j hj := (congrFun (complete_inst x) j).trans (h.inst j hj)
  ends := (complete_ends x).trans h.ends
  task := by rw [State.setTask, State.setTask, complete_task, h.task]
  nextEnd := (complete_nextEnd x).trans h.nextEnd
  client := (congrArg Inst.client (congrFun (complete_inst x) i)).trans h.client
  pipe := (congrArg Inst.pipe (congrFun (complete_inst x) i)).trans h.pipe

theorem setTask_queue (x : Done) (t : Nat) (v : Task) :
    (((σ'.complete x).setTask t v).inst i).queue = (σ'.inst i).queue :=
  congrArg Inst.queue (congrFun (complete_inst x) i)

end Frames

/-! ### The invariant -/

/-- The thread is in `serve_writers` for the end that reads the queue. -/
def Serves (σ : State) (t i : Nat) (d : Bool) : Prop :=
  ∃ e, (σ.ends e).inst = some i ∧ (σ.ends e).server = d ∧
    (σ.task t = .serve e ∨ ∃ irp, σ.task t = .accept e i irp)

/-- The blocks that were built have the bytes of the request. -/
def Task.Ok : Task → Prop
  | .writeLink _ _ _ irp (.ok first) => unread first = irp.len
  | .exchange _ _ _ src (.ok first) => unread first = src.len
  | _ => True

structure Inv (σ : State) : Prop where
  ok : ∀ i d, ((σ.inst i).queue d).Ok
  flows : ∀ i d, ((σ.inst i).queue d).Flows ∨ ∃ t, Serves σ t i d
  client : ∀ i c, (σ.inst i).client = some c → (σ.ends c).inst = some i ∧ (σ.ends c).server = false
  fresh : ∀ e, σ.nextEnd ≤ e → (σ.ends e).inst = none
  task : ∀ t, (σ.task t).Ok
  pipe : ∀ i, 0 < (σ.inst i).pipe.inQuota ∧ 0 < (σ.inst i).pipe.outQuota

section Steps

variable {σ σ' : State} {t e i : Nat} {d : Bool} {irp : Irp} {m : Memory}

theorem Serves.congr {u : Nat} (h : Serves σ u i d) (hends : σ'.ends = σ.ends) (htask : σ'.task u = σ.task u) :
    Serves σ' u i d := by
  obtain ⟨e, he, hd, ht⟩ := h
  exact ⟨e, by rw [hends, he], by rw [hends, hd], by rwa [htask]⟩

/-- Only what is no part of the invariant changes. -/
theorem Inv.same (h : Inv σ) (hinst : σ'.inst = σ.inst) (hends : σ'.ends = σ.ends) (htask : σ'.task = σ.task)
    (hnext : σ'.nextEnd = σ.nextEnd) : Inv σ' where
  ok := by rw [hinst]; exact h.ok
  flows i d := by
    rw [hinst]
    obtain hf | ⟨t, ht⟩ := h.flows i d
    · exact .inl hf
    · exact .inr ⟨t, ht.congr hends (by rw [htask])⟩
  client := by rw [hinst, hends]; exact h.client
  fresh := by rw [hnext, hends]; exact h.fresh
  task := by rw [htask]; exact h.task
  pipe := by rw [hinst]; exact h.pipe

theorem Inv.complete (h : Inv σ) (x : Done) : Inv (σ.complete x) := h.same (by simp) (by simp) (by simp) (by simp)

variable {q : DataQ} {built : Except Status (List Blk)} {src : Irp}

theorem Inv.update (h : Inv σ) (hinst : ∀ j, j ≠ i → σ'.inst j = σ.inst j)
    (hends : σ'.ends = σ.ends) (hnext : σ'.nextEnd = σ.nextEnd)
    (hclient : (σ'.inst i).client = (σ.inst i).client) (hpipe : (σ'.inst i).pipe = (σ.inst i).pipe)
    (hqueue : (σ'.inst i).queue = Function.update (σ.inst i).queue d q) (hq : q.Ok)
    (hflow : q.Flows ∨ ∃ u, Serves σ' u i d) (htask : ∀ u, (σ'.task u).Ok)
    (hserves : ∀ u i' d', (i' = i → d' ≠ d) → Serves σ u i' d' → Serves σ' u i' d') : Inv σ' := by
  have hothers : ∀ i' d', (i' = i → d' ≠ d) → ((σ.inst i').queue d').Flows ∨ ∃ u, Serves σ' u i' d' := by
    intro i' d' hne
    obtain hf | ⟨u, hu⟩ := h.flows i' d'
    · exact .inl hf
    · exact .inr ⟨u, hserves u i' d' hne hu⟩
  constructor
  · intro j d'
    by_cases hj : j = i
    · subst hj
      rw [hqueue]
      by_cases hd : d' = d
      · subst hd
        rwa [Function.update_self]
      · rw [Function.update_of_ne hd]
        exact h.ok j d'
    · rw [hinst j hj]
      exact h.ok j d'
  · intro j d'
    by_cases hj : j = i
    · subst hj
      rw [hqueue]
      by_cases hd : d' = d
      · subst hd
        rwa [Function.update_self]
      · rw [Function.update_of_ne hd]
        exact hothers j d' fun _ => hd
    · rw [hinst j hj]
      exact hothers j d' fun e => absurd e hj
  · intro j c hc
    rw [hends]
    refine h.client j c ?_
    by_cases hj : j = i
    · subst hj
      rwa [hclient] at hc
    · rwa [hinst j hj] at hc
  · rw [hnext, hends]
    exact h.fresh
  · exact htask
  · intro j
    by_cases hj : j = i
    · rw [hj, hpipe]
      exact h.pipe i
    · rw [hinst j hj]
      exact h.pipe j

theorem Inv.turn (h : Inv σ) {v : Task} (hl : Local i (σ.setTask t v) σ')
    (hqueue : (σ'.inst i).queue = Function.update (σ.inst i).queue d q) (hq : q.Ok) (hv : v.Ok)
    (hflow : q.Flows ∨ ∃ u, Serves σ' u i d) (hmine : ∀ i' d', Serves σ t i' d' → i' = i ∧ d' = d) :
    Inv σ' := by
  have htask : ∀ u, u ≠ t → σ'.task u = σ.task u := fun u hu => by rw [hl.task, setTask_ne v hu]
  refine h.update hl.inst hl.ends hl.nextEnd hl.client hl.pipe hqueue hq hflow (fun u => ?_) fun u i' d' hne hu => ?_
  · by_cases hu : u = t
    · subst hu
      rw [hl.task, setTask_self]
      exact hv
    · rw [htask u hu]
      exact h.task u
  · refine hu.congr hl.ends (htask u ?_)
    rintro rfl
    obtain ⟨hi, hd⟩ := hmine i' d' hu
    exact hne hi hd

theorem Inv.queue (h : Inv σ) (hl : Local i σ σ')
    (hqueue : (σ'.inst i).queue = Function.update (σ.inst i).queue d q) (hq : q.Ok)
    (hflow : q.Flows ∨ ∃ u, Serves σ u i d) : Inv σ' := by
  have htask : ∀ u, σ'.task u = σ.task u := fun u => by rw [hl.task]
  refine h.update hl.inst hl.ends hl.nextEnd hl.client hl.pipe hqueue hq ?_ (fun u => htask u ▸ h.task u)
    fun u _ _ _ hu => hu.congr hl.ends (htask u)
  exact hflow.imp_right fun ⟨u, hu⟩ => ⟨u, hu.congr hl.ends (htask u)⟩

theorem Inv.setTask (h : Inv σ) {v : Task} (hv : v.Ok)
    (hmine : ∀ i d, Serves σ t i d → ((σ.inst i).queue d).Flows ∨ ∃ u ≠ t, Serves σ u i d) : Inv (σ.setTask t v) where
  ok := h.ok
  flows i d := by
    obtain hf | ⟨u, hu⟩ := h.flows i d
    · exact .inl hf
    by_cases hut : u = t
    · subst hut
      obtain hf | ⟨u', hne, hu'⟩ := hmine i d hu
      · exact .inl hf
      · exact .inr ⟨u', hu'.congr rfl (setTask_ne v hne)⟩
    · exact .inr ⟨u, hu.congr rfl (setTask_ne v hut)⟩
  client := h.client
  fresh := h.fresh
  task u := by
    by_cases hut : u = t
    · subst hut
      rw [setTask_self]
      exact hv
    · rw [setTask_ne v hut]
      exact h.task u
  pipe := h.pipe

theorem not_serves_of (ht : ∀ e, σ.task t ≠ .serve e) (ht' : ∀ e i irp, σ.task t ≠ .accept e i irp) (i : Nat) (d : Bool) :
    ¬Serves σ t i d := by
  rintro ⟨e, -, -, h | ⟨irp, h⟩⟩
  · exact ht e h
  · exact ht' e i irp h

theorem State.Idle.eq (h : σ.Idle t) : σ.task t = .idle := by
  unfold State.Idle at h
  cases ht : σ.task t with
  | idle => rfl
  | _ => rw [ht] at h; exact absurd h Bool.noConfusion

/-! ### Writes -/

theorem Inv.write (h : Inv σ) (ht : σ.Idle t) (e : Nat) (irp : Irp) : Inv (σ.write t e irp) := by
  unfold State.write
  split
  · rename_i i hi hdead
    dsimp only
    split
    · rename_i hover
      split
      · exact h.complete _
      · have hok := h.ok i (σ.wq e)
        refine h.queue (i := i) (d := σ.wq e) ?_ (setQueue_queue _) (hok.setWriters _) ?_
        · exact ⟨(local_setQueue _).inst, rfl, rfl, rfl, (local_setQueue _).client, (local_setQueue _).pipe⟩
        · obtain hle | hne := hover
          · exact .inl fun _ => hle
          · exact (h.flows i (σ.wq e)).imp_left fun hf _ => hf hne
    · refine h.setTask trivial fun i d hs => absurd hs (not_serves_of ?_ ?_ i d)
      · rw [ht.eq]; exact fun _ => Task.noConfusion
      · rw [ht.eq]; exact fun _ _ _ => Task.noConfusion
  · exact h.complete _
  · exact h

theorem Inv.writeBuild (h : Inv σ) (ht : σ.task t = .write e i irp) :
    Inv (σ.writeBuild t m e i irp) := by
  have hmine : ∀ j d, ¬Serves σ t j d :=
    not_serves_of (by rw [ht]; exact fun _ => Task.noConfusion) (by rw [ht]; exact fun _ _ _ => Task.noConfusion)
  unfold State.writeBuild
  split
  · refine (h.complete _).setTask trivial fun j d hs => absurd (hs.congr ?_ ?_) (hmine j d)
    · simp
    · simp
  · refine h.setTask ?_ fun j d hs => absurd hs (hmine j d)
    cases hb : irp.build m _ with
    | error st => trivial
    | ok first => exact unread_build hb

theorem Inv.writeLink (h : Inv σ) {j : Nat} (ht : σ.task t = .writeLink e i j irp built) :
    Inv (σ.writeLink t m e i j irp built) := by
  have hmine : ∀ j d, ¬Serves σ t j d :=
    not_serves_of (by rw [ht]; exact fun _ => Task.noConfusion) (by rw [ht]; exact fun _ _ _ => Task.noConfusion)
  have hidle : Inv (σ.setTask t .idle) := h.setTask trivial fun j d hs => absurd hs (hmine j d)
  have hbuilt := h.task t
  rw [ht] at hbuilt
  unfold State.writeLink
  cases built with
  | error st => exact hidle.complete _
  | ok first =>
    dsimp only
    split
    · exact hidle.complete _
    · obtain ⟨hok, hflow⟩ := (hidle.ok i (σ.wq e)).link m (σ.inst j).pipe.message (σ.inst j).pipe.message hbuilt
      exact (hidle.queue (local_link m _ _ _) (link_queue m _ _ _) hok ((hidle.flows i (σ.wq e)).imp_left hflow)).complete _

theorem Inv.read (h : Inv σ) (ht : σ.Idle t) (e : Nat) (irp : Irp) : Inv (σ.read t m e irp) := by
  have hmine : ∀ j d, ¬Serves σ t j d :=
    not_serves_of (by rw [ht.eq]; exact fun _ => Task.noConfusion) (by rw [ht.eq]; exact fun _ _ _ => Task.noConfusion)
  unfold State.read
  split
  · split
    · exact h.complete _
    · exact h
  · rename_i i hi
    dsimp only
    split
    · rename_i hq
      have hok := (h.ok i (σ.rq e)).qTake m ((σ.inst i).pipe.message && (σ.ends e).messageMode) irp.proc irp.buf
        irp.len hq.1
      generalize qTake m ((σ.inst i).pipe.message && (σ.ends e).messageMode) irp.proc irp.buf irp.len
        ((σ.inst i).queue (σ.rq e)) = taken at hok ⊢
      refine h.turn (local_setTask (local_setQueue taken.q) _ t _) ((setTask_queue ..).trans (setQueue_queue _)) hok trivial
        (.inr ⟨t, e, ?_, ?_, .inl (setTask_self ..)⟩) fun j d hs => absurd hs (hmine j d)
      · exact (congrArg End.inst (congrFun (complete_ends _) e)).trans hi
      · exact congrArg End.server (congrFun (complete_ends _) e)
    · rename_i hq
      split
      · exact h.complete _
      · split
        · exact h.complete _
        · have hok := h.ok i (σ.rq e)
          refine h.queue (i := i) (d := σ.rq e) ?_ (setQueue_queue _) (hok.pendReader irp ?_) (h.flows i (σ.rq e))
          · exact ⟨(local_setQueue _).inst, rfl, rfl, rfl, (local_setQueue _).client, (local_setQueue _).pipe⟩
          · by_contra hb
            exact hq ⟨hb, by_contra fun hr => hb (hok.readers hr)⟩

/-! ### `serve_writers` -/

theorem serves_iff (ht : σ.task t = .serve e) : Serves σ t i d ↔ (σ.ends e).inst = some i ∧ (σ.ends e).server = d := by
  constructor
  · rintro ⟨e', hi, hd, h | ⟨irp, h⟩⟩
    · rw [ht] at h
      obtain rfl := Task.serve.inj h
      exact ⟨hi, hd⟩
    · rw [ht] at h
      exact Task.noConfusion h
  · rintro ⟨hi, hd⟩
    exact ⟨e, hi, hd, .inl ht⟩

theorem serves_iff' {j : Nat} (ht : σ.task t = .accept e j irp) :
    Serves σ t i d ↔ j = i ∧ (σ.ends e).inst = some i ∧ (σ.ends e).server = d := by
  constructor
  · rintro ⟨e', hi, hd, h | ⟨irp', h⟩⟩
    · rw [ht] at h
      exact Task.noConfusion h
    · rw [ht] at h
      obtain ⟨rfl, rfl, -⟩ := Task.accept.inj h
      exact ⟨rfl, hi, hd⟩
  · rintro ⟨rfl, hi, hd⟩
    exact ⟨e, hi, hd, .inr ⟨irp, ht⟩⟩

/-- The loop ends when no write is pending or the queue is over its quota. -/
theorem Inv.serve (h : Inv σ) (ht : σ.task t = .serve e) : Inv (σ.serve t e) := by
  have hend : ∀ i, (σ.ends e).inst = some i → ((σ.inst i).queue (σ.rq e)).Flows → Inv (σ.setTask t .idle) := by
    intro i hi hf
    refine h.setTask trivial fun j d hs => .inl ?_
    obtain ⟨hj, rfl⟩ := (serves_iff ht).1 hs
    obtain rfl : i = j := some.inj (hi.symm.trans hj)
    exact hf
  unfold State.serve
  split
  · rename_i hnone
    refine h.setTask trivial fun j d hs => ?_
    rw [serves_iff ht, hnone] at hs
    exact absurd hs.1 nofun
  · rename_i i hi
    dsimp only
    split
    · rename_i hw
      exact hend i hi fun hne => absurd hw hne
    · rename_i irp rest hw
      split
      · rename_i hle
        exact hend i hi fun _ => hle
      · have hok := (h.ok i (σ.rq e)).setWriters rest
        refine h.turn (t := t) (i := i) (d := σ.rq e) (v := .accept e i irp) ?_ ?_ hok trivial ?_ fun j d hs => ?_
        · exact ⟨(local_setQueue _).inst, rfl, rfl, rfl, (local_setQueue _).client, (local_setQueue _).pipe⟩
        · exact setQueue_queue _
        · exact .inr ⟨t, e, hi, rfl, .inr ⟨irp, setTask_self ..⟩⟩
        · obtain ⟨hj, rfl⟩ := (serves_iff ht).1 hs
          exact ⟨some.inj (hj.symm.trans hi), rfl⟩

/-- The write that was taken cannot be copied, and others are left behind it. -/
def Strands (σ : State) (t : Nat) (m : Memory) (e i : Nat) (irp : Irp) : Prop :=
  (σ.ends e).inst = some i ∧ (∀ first, irp.build m (σ.inst i).pipe.message ≠ .ok first) ∧
    ¬((σ.inst i).queue (σ.rq e)).Flows ∧ ∀ u ≠ t, ¬Serves σ u i (σ.rq e)

theorem Inv.accept (h : Inv σ) (ht : σ.task t = .accept e i irp) (hs : ¬Strands σ t m e i irp) :
    Inv (σ.accept t m e i irp) := by
  unfold State.accept
  split
  · rename_i st hb
    refine (h.complete _).setTask trivial fun j d hserves => ?_
    have hserves : Serves σ t j d := hserves.congr (complete_ends _).symm (by rw [complete_task])
    obtain ⟨rfl, hi, rfl⟩ := (serves_iff' ht).1 hserves
    rw [complete_inst]
    by_contra hcon
    rw [not_or] at hcon
    refine hs ⟨hi, fun first hf => ?_, hcon.1, fun u hu hu' => hcon.2 ⟨u, hu, hu'.congr (complete_ends _) ?_⟩⟩
    · rw [hb] at hf
      cases hf
    · rw [complete_task]
  · rename_i first hb
    split
    · rename_i hne
      refine (h.complete _).setTask trivial fun j d hserves => ?_
      have hserves : Serves σ t j d := hserves.congr (complete_ends _).symm (by rw [complete_task])
      obtain ⟨rfl, hi, -⟩ := (serves_iff' ht).1 hserves
      exact absurd hi hne
    · rename_i hi
      rw [not_not] at hi
      obtain ⟨hok, -⟩ := (h.ok i (σ.rq e)).link m (σ.inst i).pipe.message (σ.inst i).pipe.message (unread_build hb)
      have hl := local_link (σ := σ) (i := i) (d := σ.rq e) m first irp.len (σ.inst i).pipe.message
      refine h.turn (local_setTask hl _ t _) ((setTask_queue ..).trans (link_queue m _ _ _)) hok trivial
        (.inr ⟨t, e, ?_, ?_, .inl (setTask_self ..)⟩) fun j d hserves => ?_
      · exact (congrArg End.inst (congrFun ((complete_ends _).trans hl.ends) e)).trans hi
      · exact congrArg End.server (congrFun ((complete_ends _).trans hl.ends) e)
      · obtain ⟨rfl, -, rfl⟩ := (serves_iff' ht).1 hserves
        exact ⟨rfl, rfl⟩

/-! ### `FSCTL_PIPE_TRANSCEIVE` -/

theorem Inv.transceive (h : Inv σ) (ht : σ.Idle t) (e : Nat) (irp src : Irp) : Inv (σ.transceive t e irp src) := by
  have hmine : ∀ j d, ¬Serves σ t j d :=
    not_serves_of (by rw [ht.eq]; exact fun _ => Task.noConfusion) (by rw [ht.eq]; exact fun _ _ _ => Task.noConfusion)
  unfold State.transceive
  split
  · exact h
  · split
    · exact h
    · split
      · exact h.complete _
      · split
        · exact h.complete _
        · exact h.setTask trivial fun j d hs => absurd hs (hmine j d)

theorem Inv.transceiveBuild (h : Inv σ) (ht : σ.task t = .transceive e irp src) :
    Inv (σ.transceiveBuild t m e irp src) := by
  refine h.setTask ?_ fun j d hs => absurd hs (not_serves_of ?_ ?_ j d)
  · cases hb : src.build m true with
    | error st => trivial
    | ok first => exact unread_build hb
  · rw [ht]; exact fun _ => Task.noConfusion
  · rw [ht]; exact fun _ _ _ => Task.noConfusion

/-- The reply that is taken leaves writes under the quota. -/
def Drains (σ : State) (e i : Nat) (irp : Irp) : Prop :=
  let q := (σ.inst i).queue (σ.rq e)
  q.blocks ≠ [] ∧ (q.writers ≠ [] ∧ q.bytes < q.quota + min irp.len (qFirstMessage q.blocks)) ∧
    ∀ u, ¬Serves σ u i (σ.rq e)

theorem Inv.reply (h : Inv σ) (hi : ¬Drains σ e i irp) : Inv (σ.reply m e i irp) := by
  unfold State.reply
  dsimp only
  split
  · rename_i hb
    have hok := (h.ok i (σ.rq e)).qTake m true irp.proc irp.buf irp.len hb
    have hflow : (qTake m true irp.proc irp.buf irp.len ((σ.inst i).queue (σ.rq e))).q.Flows ∨ ∃ u, Serves σ u i (σ.rq e) := by
      by_contra hcon
      rw [not_or, not_exists] at hcon
      refine hi ⟨hb, ?_, hcon.2⟩
      by_contra hroom
      refine hcon.1 (qTake_flows m irp.proc irp.buf irp.len fun hw => ?_)
      by_contra hlt
      exact hroom ⟨hw, by omega⟩
    exact (h.queue (local_setQueue _) (setQueue_queue _) hok hflow).complete _
  · rename_i hb
    rw [not_not] at hb
    split
    · exact h.complete _
    · refine h.queue (i := i) (d := σ.rq e) ?_ (setQueue_queue _) ((h.ok i _).pendReader irp hb) (h.flows i (σ.rq e))
      exact ⟨(local_setQueue _).inst, rfl, rfl, rfl, (local_setQueue _).client, (local_setQueue _).pipe⟩

theorem Inv.exchange (h : Inv σ) {j : Option Nat} (ht : σ.task t = .exchange e j irp src built)
    (hd : ∀ first i, built = .ok first → (σ.ends e).inst = some i → j = some i → σ.writeDeadStatus e = none →
      ¬Drains σ e i irp) : Inv (σ.exchange t m e j irp src built) := by
  have hmine : ∀ j d, ¬Serves σ t j d :=
    not_serves_of (by rw [ht]; exact fun _ => Task.noConfusion) (by rw [ht]; exact fun _ _ _ => Task.noConfusion)
  have hidle : Inv (σ.setTask t .idle) := h.setTask trivial fun j d hs => absurd hs (hmine j d)
  have hbuilt := h.task t
  rw [ht] at hbuilt
  unfold State.exchange
  cases built with
  | error st => exact hidle.complete _
  | ok first =>
    dsimp only
    split
    · exact hidle.complete _
    · rename_i hj
      rw [not_not] at hj
      split
      · rename_i i hi hdead
        obtain ⟨hok, hflow⟩ := (hidle.ok i (σ.wq e)).link m true true hbuilt
        have hl := local_link (σ := σ.setTask t .idle) (i := i) (d := σ.wq e) m first src.len true
        have hq := link_queue (σ := σ.setTask t .idle) (i := i) (d := σ.wq e) m first src.len true
        have hlink := hidle.queue hl hq hok ((hidle.flows i (σ.wq e)).imp_left hflow)
        refine hlink.reply ?_
        have hends : (((σ.setTask t .idle).link m i (σ.wq e) first src.len true)).rq e = σ.rq e :=
          congrArg End.server (congrFun hl.ends e)
        have hsame : (((σ.setTask t .idle).link m i (σ.wq e) first src.len true).inst i).queue (σ.rq e) =
            (σ.inst i).queue (σ.rq e) := by
          rw [hq, Function.update_of_ne]
          · rfl
          · simp [State.rq, State.wq]
        rintro ⟨hb, hw, hserves⟩
        rw [hends] at hserves
        rw [hends, hsame] at hb hw
        refine hd first i rfl hi (hj.symm.trans hi) hdead ⟨hb, hw, fun u hu => hserves u (hu.congr hl.ends ?_)⟩
        rw [hl.task, setTask_ne]
        rintro rfl
        exact hmine i _ hu
      · exact hidle.complete _
      · exact hidle

/-! ### Connections -/

theorem Inv.local_same (h : Inv σ) (hl : Local i σ σ') (hq : (σ'.inst i).queue = (σ.inst i).queue) : Inv σ' :=
  h.queue hl (hq.trans (Function.update_eq_self true _).symm) (h.ok i true) (h.flows i true)

theorem Inv.drain (h : Inv σ) (hinst : ∀ j, j ≠ i → σ'.inst j = σ.inst j)
    (hqueue : ∀ d, ((σ'.inst i).queue d).Ok ∧ ((σ'.inst i).queue d).writers = [])
    (hpipe : (σ'.inst i).pipe = (σ.inst i).pipe) (hends : ∀ e, (σ.ends e).inst ≠ some i → σ'.ends e = σ.ends e)
    (hclient : ∀ c, (σ'.inst i).client = some c → (σ'.ends c).inst = some i ∧ (σ'.ends c).server = false)
    (htask : σ'.task = σ.task) (hnext : σ'.nextEnd = σ.nextEnd) : Inv σ' := by
  constructor
  · intro j d
    by_cases hj : j = i
    · exact hj ▸ (hqueue d).1
    · rw [hinst j hj]
      exact h.ok j d
  · intro j d
    by_cases hj : j = i
    · exact .inl fun hw => absurd (hj ▸ (hqueue d).2) hw
    · rw [hinst j hj]
      refine (h.flows j d).imp_right ?_
      rintro ⟨u, e, he, hd, ht⟩
      have hsame := hends e fun hi => hj (some.inj (he.symm.trans hi))
      exact ⟨u, e, by rw [hsame, he], by rw [hsame, hd], by rwa [htask]⟩
  · intro j c hc
    by_cases hj : j = i
    · subst hj
      exact hclient c hc
    · rw [hinst j hj] at hc
      obtain ⟨he, hs⟩ := h.client j c hc
      rw [hends c fun hi => hj (some.inj (he.symm.trans hi))]
      exact ⟨he, hs⟩
  · intro e he
    rw [hnext] at he
    have hnone := h.fresh e he
    rw [hends e (by rw [hnone]; exact nofun), hnone]
  · rw [htask]
    exact h.task
  · intro j
    by_cases hj : j = i
    · rw [hj, hpipe]
      exact h.pipe i
    · rw [hinst j hj]
      exact h.pipe j

theorem Inv.open (h : Inv σ) {v : Inst} {w : End} (hinst : σ'.inst = Function.update σ.inst i v)
    (hends : σ'.ends = Function.update σ.ends σ.nextEnd w) (htask : σ'.task = σ.task)
    (hnext : σ'.nextEnd = σ.nextEnd + 1)
    (hqueue : v.queue = (σ.inst i).queue ∨ ∀ d, (v.queue d).Ok ∧ (v.queue d).writers = [])
    (hclient : ∀ c, v.client = some c → c = σ.nextEnd ∧ w.inst = some i ∧ w.server = false)
    (hpipe : 0 < v.pipe.inQuota ∧ 0 < v.pipe.outQuota) : Inv σ' := by
  have hold : ∀ e j, (σ.ends e).inst = some j → σ'.ends e = σ.ends e := by
    intro e j he
    rw [hends, Function.update_of_ne]
    rintro rfl
    rw [h.fresh _ (Nat.le_refl _)] at he
    exact absurd he nofun
  have hserves : ∀ j d, (∃ u, Serves σ u j d) → ∃ u, Serves σ' u j d := by
    rintro j d ⟨u, e, he, hd, ht⟩
    exact ⟨u, e, by rw [hold e j he, he], by rw [hold e j he, hd], by rwa [htask]⟩
  constructor
  · intro j d
    rw [hinst]
    by_cases hj : j = i
    · subst hj
      rw [Function.update_self]
      obtain hq | hq := hqueue
      · rw [hq]
        exact h.ok j d
      · exact (hq d).1
    · rw [Function.update_of_ne hj]
      exact h.ok j d
  · intro j d
    rw [hinst]
    by_cases hj : j = i
    · subst hj
      rw [Function.update_self]
      obtain hq | hq := hqueue
      · rw [hq]
        exact (h.flows j d).imp_right (hserves j d)
      · exact .inl fun hw => absurd (hq d).2 hw
    · rw [Function.update_of_ne hj]
      exact (h.flows j d).imp_right (hserves j d)
  · intro j c hc
    rw [hinst] at hc
    by_cases hj : j = i
    · subst hj
      rw [Function.update_self] at hc
      obtain ⟨rfl, hi, hs⟩ := hclient c hc
      rw [hends, Function.update_self]
      exact ⟨hi, hs⟩
    · rw [Function.update_of_ne hj] at hc
      obtain ⟨he, hs⟩ := h.client j c hc
      rw [hold c j he]
      exact ⟨he, hs⟩
  · intro e he
    rw [hends, Function.update_of_ne (by omega)]
    exact h.fresh e (by omega)
  · rw [htask]
    exact h.task
  · intro j
    rw [hinst]
    by_cases hj : j = i
    · subst hj
      rwa [Function.update_self]
    · rw [Function.update_of_ne hj]
      exact h.pipe j

theorem qEmpty_ok {quota : Nat} (h : 0 < quota) : (qEmpty quota).Ok := ⟨rfl, h, fun hr => absurd rfl hr⟩

theorem Inv.create (h : Inv σ) {pipe : Pipe} (hp : 0 < pipe.inQuota ∧ 0 < pipe.outQuota) (mode nowait : Bool) :
    Inv (σ.create pipe mode nowait) := by
  refine h.open rfl rfl rfl rfl (.inr fun d => ⟨qEmpty_ok ?_, rfl⟩) (fun c hc => absurd hc nofun) hp
  cases d
  · exact hp.2
  · exact hp.1

theorem newPipe_quota (message : Bool) (inQuota outQuota : Nat) :
    0 < (newPipe message inQuota outQuota).inQuota ∧ 0 < (newPipe message inQuota outQuota).outQuota := by
  unfold newPipe DEFAULT_QUOTA
  constructor <;> dsimp only <;> split <;> omega

theorem Inv.openClient (h : Inv σ) (i : Nat) : Inv (σ.openClient i) := by
  unfold State.openClient
  split
  · dsimp only
    refine h.open ((completeAll_inst _).trans rfl) ((completeAll_ends _).trans rfl) ((completeAll_task _).trans rfl)
      ((completeAll_nextEnd _).trans rfl) (.inl rfl) (fun c hc => ⟨(some.inj hc).symm, rfl, rfl⟩) (h.pipe i)
  · exact h

theorem Inv.listen (h : Inv σ) (e : Nat) (irp : Irp) : Inv (σ.listen e irp) := by
  have hset : ∀ i v, v.client = (σ.inst i).client → v.pipe = (σ.inst i).pipe → v.queue = (σ.inst i).queue →
      Inv (σ.setInst i v) := by
    intro i v hc hp hq
    exact h.local_same (local_setInst hc hp) (by rw [setInst_self, hq])
  unfold State.listen
  split
  · exact h.complete _
  · rename_i i hi
    split
    · exact h.complete _
    · exact h.complete _
    · dsimp only
      have h' := hset i { σ.inst i with state := .listening } rfl rfl rfl
      split
      · exact h'.complete _
      · refine h'.local_same (i := i) ⟨fun j hj => Function.update_of_ne hj .., rfl, rfl, rfl, ?_, ?_⟩ ?_
        · rw [setInst_self]
        · rw [setInst_self]
        · rw [setInst_self]

theorem Inv.setInfo (h : Inv σ) (e : Nat) (mode nowait : Bool) : Inv (σ.setInfo e mode nowait) := by
  have hsame : ∀ v : End, v.inst = (σ.ends e).inst → v.server = (σ.ends e).server → ∀ c,
      ((σ.setEnd e v).ends c).inst = (σ.ends c).inst ∧ ((σ.setEnd e v).ends c).server = (σ.ends c).server := by
    intro v hv hs c
    by_cases hc : c = e
    · subst hc
      simp [State.setEnd, hv, hs]
    · simp [State.setEnd, hc]
  have hs := hsame { σ.ends e with messageMode := mode, nowait := nowait } rfl rfl
  have hset : Inv (σ.setEnd e { σ.ends e with messageMode := mode, nowait := nowait }) := by
    refine ⟨h.ok, fun i d => (h.flows i d).imp_right ?_, fun i c hc => ?_, fun c hc => ?_, h.task, h.pipe⟩
    · rintro ⟨u, c, hc, hd, ht⟩
      exact ⟨u, c, (hs c).1.trans hc, (hs c).2.trans hd, ht⟩
    · rw [(hs c).1, (hs c).2]
      exact h.client i c hc
    · rw [(hs c).1]
      exact h.fresh c hc
  unfold State.setInfo
  extract_lets message
  split
  · exact h
  · exact hset

theorem Inv.cancel (h : Inv σ) (id : Nat) : Inv (σ.cancel id) := by
  unfold State.cancel
  split
  · have hun : Inv { σ with inst := fun i => { σ.inst i with
        queue := fun d => ((σ.inst i).queue d).unlink id
        listeners := (σ.inst i).listeners.filter (·.id ≠ id) } } :=
      ⟨fun i d => (h.ok i d).unlink id, fun i d => (h.flows i d).imp (fun hf => hf.unlink id) fun hs => hs, h.client,
        h.fresh, h.task, h.pipe⟩
    exact hun.complete _
  · exact h

/-- The writers of a list complete, and the queue is emptied or its readers are told that the peer is gone. -/
theorem noWriters_ok (hq : q.Ok) (hw : q.writers = []) (m : Memory) (mp : Bool)
    (dead : Option Status) :
    (serveReaders m mp dead q).1.Ok ∧ (serveReaders m mp dead q).1.writers = [] :=
  ⟨serveReaders_ok hq.bytes hq.quota, (serveReaders_writers hq.bytes).trans hw⟩

theorem Inv.disconnect (h : Inv σ) (e : Nat) : Inv (σ.disconnect m e) := by
  unfold State.disconnect
  split
  · exact h
  · rename_i i hi
    split
    · exact h
    · extract_lets σ₁ σ₂ σ₃ σ₄ σ₅ c v₅ σ₆ σ₇ σ₈
      have h₅ : Local i σ σ₅ := ((((local_failListeners _).trans (local_failWriters _)).trans (local_failWriters _)).trans
        (local_setQueue _)).trans (local_setQueue _)
      have hqueue : ∀ d, (σ₅.inst i).queue d = qFree { (σ.inst i).queue d with writers := [] } := by
        intro d
        simp only [σ₅, σ₄, σ₃, σ₂, σ₁, setQueue_queue, failWriters_queue, failListeners_queue]
        cases d <;> simp
      have hok : ∀ d, ((σ₅.inst i).queue d).Ok ∧ ((σ₅.inst i).queue d).writers = [] := by
        intro d
        rw [hqueue]
        exact ⟨((h.ok i d).setWriters []).qFree, rfl⟩
      obtain ⟨hinst, htask, hnext, hother⟩ := orphan_same σ₆ c
      have hv : σ₇.inst i = { σ₅.inst i with client := none, state := .disconnected } :=
        (congrFun hinst i).trans (setInst_self ..)
      have hends : ∀ e', (σ.ends e').inst ≠ some i → σ₇.ends e' = σ.ends e' := by
        intro e' he'
        rw [← h₅.ends]
        refine hother e' fun hc => he' (h.client i e' (h₅.client.symm.trans hc)).1
      have h₈ : Local i σ₇ (σ₈.serveReaders m i true false (some .pipeDisconnected)) :=
        (local_serveReaders _ _ _).trans (local_serveReaders _ _ _)
      refine h.drain (i := i) (fun j hj => ?_) (fun d => ?_) ?_ (fun e' he' => ?_) (fun c' hc' => ?_) ?_ ?_
      · rw [h₈.inst j hj, show σ₇.inst = σ₆.inst from hinst]
        exact (Function.update_of_ne hj ..).trans (h₅.inst j hj)
      · have hfinal : ((σ₈.serveReaders m i true false (some .pipeDisconnected)).inst i).queue d =
            (serveReaders m false (some .pipeDisconnected) ((σ₅.inst i).queue d)).1 := by
          simp only [σ₈, serveReaders_queue, hv]
          cases d <;> simp
        rw [hfinal]
        exact noWriters_ok (hok d).1 (hok d).2 m _ _
      · rw [h₈.pipe, hv]
        exact h₅.pipe
      · rw [h₈.ends]
        exact hends e' he'
      · rw [h₈.client, hv] at hc'
        exact absurd hc' nofun
      · exact h₈.task.trans (htask.trans h₅.task)
      · exact h₈.nextEnd.trans (hnext.trans h₅.nextEnd)

def Drained (σ : State) (i : Nat) : Prop := ∀ d, ((σ.inst i).queue d).Ok ∧ ((σ.inst i).queue d).writers = []

theorem Drained.serveReaders (h : Drained σ i) (m : Memory) (d mp : Bool) (dead : Option Status) :
    Drained (σ.serveReaders m i d mp dead) i := by
  intro d'
  rw [serveReaders_queue]
  by_cases hd : d' = d
  · subst hd
    rw [Function.update_self]
    exact noWriters_ok (h d').1 (h d').2 m _ _
  · rw [Function.update_of_ne hd]
    exact h d'

theorem Drained.destroy (h : Drained σ i) : Drained (σ.destroy i) i := by
  intro d
  rw [State.destroy, setInst_self]
  exact ⟨(h d).1.qFree, (h d).2⟩

theorem local_destroy : Local i σ (σ.destroy i) := local_setInst rfl rfl

theorem drained_failWriters (hok : ∀ d, ((σ.inst i).queue d).Ok) (hw : ((σ.inst i).queue !d).writers = [])
    (st : Status) : Drained (σ.failWriters i d st) i := by
  intro d'
  rw [failWriters_queue]
  by_cases hd : d' = d
  · subst hd
    rw [Function.update_self]
    exact ⟨(hok d').setWriters [], rfl⟩
  · rw [Function.update_of_ne hd]
    obtain rfl : d' = !d := by cases d <;> cases d' <;> simp_all
    exact ⟨hok _, hw⟩

theorem closeServer_local (hok : ∀ d, ((σ.inst i).queue d).Ok) (hw : ((σ.inst i).queue false).writers = []) :
    Local i σ (σ.closeServer m i) ∧ Drained (σ.closeServer m i) i := by
  unfold State.closeServer
  extract_lets v σ₁ σ₂ σ₃
  have h₂ : Local i σ σ₂ := by
    refine Local.trans (local_setInst ?_ ?_) (local_failListeners _) <;> rfl
  have hq : (σ₂.inst i).queue = (σ.inst i).queue := by
    simp only [σ₂, failListeners_queue, σ₁, setInst_self, v]
  have h₃ : Local i σ σ₃ := h₂.trans (local_failWriters _)
  have hdrained : Drained σ₃ i := drained_failWriters (by rwa [hq]) (by rwa [hq]) _
  split
  · exact ⟨h₃.trans (local_serveReaders _ _ _), hdrained.serveReaders _ _ _ _⟩
  · exact ⟨h₃.trans local_destroy, hdrained.destroy⟩

theorem closeClient_drained (hok : ∀ d, ((σ.inst i).queue d).Ok) (hw : ((σ.inst i).queue true).writers = []) :
    (∀ j, j ≠ i → (σ.closeClient m i).inst j = σ.inst j) ∧ (σ.closeClient m i).ends = σ.ends ∧
      (σ.closeClient m i).task = σ.task ∧ (σ.closeClient m i).nextEnd = σ.nextEnd ∧
        ((σ.closeClient m i).inst i).client = none ∧ ((σ.closeClient m i).inst i).pipe = (σ.inst i).pipe ∧
          Drained (σ.closeClient m i) i := by
  unfold State.closeClient
  extract_lets v σ₁ σ₂
  have hv : σ₁.inst i = { σ.inst i with
      client := none
      state := if (σ.inst i).state = .connected then .closing else (σ.inst i).state } := setInst_self ..
  have h₂ : Local i σ₁ σ₂ := local_failWriters _
  have hdrained : Drained σ₂ i := drained_failWriters (by rw [hv]; exact hok) (by rw [hv]; exact hw) _
  have hother : ∀ j, j ≠ i → σ₁.inst j = σ.inst j := fun j hj => Function.update_of_ne hj ..
  have hall : ∀ {σ' : State}, Local i σ₁ σ' → Drained σ' i → (∀ j, j ≠ i → σ'.inst j = σ.inst j) ∧ σ'.ends = σ.ends ∧
      σ'.task = σ.task ∧ σ'.nextEnd = σ.nextEnd ∧ (σ'.inst i).client = none ∧ (σ'.inst i).pipe = (σ.inst i).pipe ∧
        Drained σ' i := by
    intro σ' hl hd
    exact ⟨fun j hj => (hl.inst j hj).trans (hother j hj), hl.ends, hl.task, hl.nextEnd, by rw [hl.client, hv],
      by rw [hl.pipe, hv], hd⟩
  split
  · exact hall (h₂.trans (local_serveReaders _ _ _)) (hdrained.serveReaders _ _ _ _)
  · split
    · exact hall (h₂.trans local_destroy) hdrained.destroy
    · exact hall h₂ hdrained

theorem Inv.close (h : Inv σ) (e : Nat) : Inv (σ.close m e) := by
  unfold State.close
  split
  · exact h
  · rename_i i hi
    extract_lets σ₁ σ₂ v σ₃
    have h₂ : Local i σ σ₂ := (local_failReaders _).trans (local_failWriters _)
    have hrq : ∀ d, (σ₁.inst i).queue d =
        if d = σ.rq e then { (σ.inst i).queue d with readers := [] } else (σ.inst i).queue d := by
      intro d
      simp only [σ₁, failReaders_queue]
      by_cases hd : d = σ.rq e
      · rw [hd, Function.update_self, if_pos rfl]
      · rw [Function.update_of_ne hd, if_neg hd]
    have hok₁ : ∀ d, ((σ₁.inst i).queue d).Ok := by
      intro d
      rw [hrq]
      split
      · exact (h.ok i d).noReaders
      · exact h.ok i d
    have hok : ∀ d, ((σ₃.inst i).queue d).Ok := by
      intro d
      change ((σ₂.inst i).queue d).Ok
      simp only [σ₂, failWriters_queue]
      by_cases hd : d = σ₁.wq e
      · subst hd
        rw [Function.update_self]
        exact (hok₁ _).setWriters []
      · rw [Function.update_of_ne hd]
        exact hok₁ d
    have hwq : σ₁.wq e = !(σ.ends e).server := by
      rw [State.wq, (local_failReaders (σ := σ) (i := i) (d := σ.rq e) .pipeBroken).ends]
    have hw : ((σ₃.inst i).queue !(σ.ends e).server).writers = [] := by
      change ((σ₂.inst i).queue !(σ.ends e).server).writers = []
      simp only [σ₂, failWriters_queue, hwq, Function.update_self]
    have hends : ∀ e', e' ≠ e → σ₃.ends e' = σ.ends e' := fun e' he' =>
      (Function.update_of_ne he' ..).trans (congrFun h₂.ends e')
    have hends' : ∀ e', (σ.ends e').inst ≠ some i → σ₃.ends e' = σ.ends e' := by
      refine fun e' he' => hends e' ?_
      rintro rfl
      exact he' hi
    have hserver : (σ₃.ends e).server = (σ.ends e).server := by
      simp [σ₃, State.setEnd, v, h₂.ends]
    split
    · rename_i hs
      rw [hserver] at hs
      rw [hs] at hw
      obtain ⟨hl, hdrained⟩ := closeServer_local (m := m) hok hw
      refine h.drain (i := i) (fun j hj => (hl.inst j hj).trans (h₂.inst j hj)) hdrained (hl.pipe.trans h₂.pipe)
        (fun e' he' => (congrFun hl.ends e').trans (hends' e' he')) (fun c hc => ?_) (hl.task.trans h₂.task)
        (hl.nextEnd.trans h₂.nextEnd)
      rw [hl.client] at hc
      have hc' := h.client i c (h₂.client ▸ hc)
      have hce : c ≠ e := by
        rintro rfl
        rw [hs] at hc'
        exact Bool.noConfusion hc'.2
      rw [hl.ends, hends c hce]
      exact hc'
    · rename_i hs
      rw [hserver, Bool.not_eq_true] at hs
      rw [hs] at hw
      obtain ⟨hinst, hends₄, htask, hnext, hclient, hpipe, hdrained⟩ := closeClient_drained (m := m) hok hw
      refine h.drain (i := i) (fun j hj => (hinst j hj).trans (h₂.inst j hj)) hdrained (hpipe.trans h₂.pipe)
        (fun e' he' => (congrFun hends₄ e').trans (hends' e' he')) (fun c hc => ?_) (htask.trans h₂.task)
        (hnext.trans h₂.nextEnd)
      rw [hclient] at hc
      exact absurd hc nofun

end Steps

end Win98Modern.Npfs
