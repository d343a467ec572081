import Win98Modern.Kernel64.NpfsSteps
import Win98Modern.Lib.Runs

/-!
# Named pipes over whole runs

While no thread is in a call, `Inv` says that no direction stalls (`Flowing`).  A section changes the task of its
own thread only (`step_task`).
-/

namespace Win98Modern.Npfs

section Runs

variable {σ : State} {t : Nat} {m : Memory}

/-- No write is left behind. -/
def Kept (σ : State) : Event → Prop
  | .resume t m =>
    match σ.task t with
    | .accept e i irp => ¬Strands σ t m e i irp
    | .exchange e j irp _ built => ∀ first i, built = .ok first → (σ.ends e).inst = some i → j = some i →
        σ.writeDeadStatus e = none → ¬Drains σ e i irp
    | _ => True
  | _ => True

theorem Inv.resume (h : Inv σ) (hk : Kept σ (.resume t m)) : Inv (σ.resume t m) := by
  unfold State.resume
  unfold Kept at hk
  dsimp only at hk
  split
  · exact h
  · exact h.writeBuild ‹_›
  · exact h.writeLink ‹_›
  · exact h.serve ‹_›
  · rename_i e i irp ht
    rw [ht] at hk
    exact h.accept ht hk
  · exact h.transceiveBuild ‹_›
  · rename_i e j irp src built ht
    rw [ht] at hk
    exact h.exchange ht hk

theorem Inv.step (h : Inv σ) (ev : Event) (hk : Kept σ ev) : Inv (σ.step ev) := by
  cases ev with
  | create message inQuota outQuota mode nowait =>
    simp only [State.step]
    split
    · exact h
    · exact h.create (newPipe_quota ..) mode nowait
  | createInstance i mode nowait =>
    simp only [State.step]
    split
    · exact h
    · exact h.create (h.pipe i) mode nowait
  | openClient i => exact h.openClient i
  | listen e id =>
    simp only [State.step]
    split
    · exact h.listen e _
    · exact h
  | disconnect m e =>
    simp only [State.step]
    split
    · exact h.disconnect e
    · exact h
  | close m e => exact h.close e
  | setInfo e mode nowait => exact h.setInfo e mode nowait
  | cancel id => exact h.cancel id
  | write t e id proc buf len =>
    simp only [State.step]
    split
    · exact h.write ‹_› e _
    · exact h
  | read t m e id proc buf len =>
    simp only [State.step]
    split
    · exact h.read ‹_› e _
    · exact h
  | transceive t e id proc inBuf inLen outBuf outLen =>
    simp only [State.step]
    split
    · exact h.transceive ‹_› e _ _
    · exact h
  | resume t m => exact h.resume hk

end Runs

theorem inv_init : Inv .init where
  ok _ _ := qEmpty_ok (by decide)
  flows _ _ := .inl fun hw => absurd rfl hw
  client _ _ h := absurd h nofun
  fresh _ _ := rfl
  task _ := trivial
  pipe _ := newPipe_quota ..

/-- No thread is in a call; one that waits for its pended request is not. -/
def Calm (σ : State) : Prop := ∀ t, σ.Idle t

/-- No direction stalls. -/
structure Flowing (σ : State) : Prop where
  readers : ∀ i d, ((σ.inst i).queue d).readers ≠ [] →
    ((σ.inst i).queue d).blocks = [] ∧ ((σ.inst i).queue d).writers = []
  writers : ∀ i d, ((σ.inst i).queue d).Flows

theorem Inv.flowing {σ : State} (h : Inv σ) (hc : Calm σ) : Flowing σ := by
  have hflow : ∀ i d, ((σ.inst i).queue d).Flows := by
    intro i d
    refine (h.flows i d).resolve_right ?_
    rintro ⟨t, ht⟩
    refine not_serves_of ?_ ?_ i d ht
    · rw [(hc t).eq]; exact fun _ => Task.noConfusion
    · rw [(hc t).eq]; exact fun _ _ _ => Task.noConfusion
  exact ⟨fun i d hr => ⟨(h.ok i d).readers hr, (h.ok i d).writers_nil (hflow i d) hr⟩, hflow⟩

/-- **Pipes never stall** in a run whose sections leave no write behind. -/
theorem pipes_never_stall (evs : List Event) (h : Steps State.step Kept .init evs) :
    Along State.step (fun σ => Calm σ → Flowing σ) (fun _ _ => True) .init evs :=
  along_of_inv evs (fun _ => Inv.flowing) (fun _ ev hi _ hk => ⟨trivial, hi.step ev hk⟩) inv_init h

/-! ### Threads in calls -/

section Threads

variable {σ : State} {t u e i : Nat} {m : Memory}

theorem serveReaders_task (d mp : Bool) (dead : Option Status) : (σ.serveReaders m i d mp dead).task = σ.task :=
  (local_serveReaders m mp dead).task

theorem disconnect_task : (σ.disconnect m e).task = σ.task := by
  unfold State.disconnect
  split
  · rfl
  · split
    · rfl
    · extract_lets σ₁ σ₂ σ₃ σ₄ σ₅ c v₅ σ₆ σ₇ σ₈
      have h₅ : Local _ σ σ₅ := ((((local_failListeners _).trans (local_failWriters _)).trans (local_failWriters _)).trans
        (local_setQueue _)).trans (local_setQueue _)
      exact (serveReaders_task ..).trans ((serveReaders_task ..).trans ((orphan_same σ₆ c).2.1.trans h₅.task))

theorem close_task : (σ.close m e).task = σ.task := by
  unfold State.close
  split
  · rfl
  · rename_i i hi
    extract_lets σ₁ σ₂ v σ₃
    have h₃ : σ₃.task = σ.task := ((local_failReaders _).trans (local_failWriters _)).task
    split
    · unfold State.closeServer
      extract_lets v σ₄ σ₅ σ₆
      have h₆ : σ₆.task = σ₃.task := ((local_failListeners _).trans (local_failWriters _)).task
      split
      · exact (serveReaders_task ..).trans (h₆.trans h₃)
      · exact h₆.trans h₃
    · unfold State.closeClient
      extract_lets v σ₄ σ₅
      have h₅ : σ₅.task = σ₃.task := (local_failWriters _).task
      split
      · exact (serveReaders_task ..).trans (h₅.trans h₃)
      · split
        · exact h₅.trans h₃
        · exact h₅.trans h₃

theorem openClient_task : (σ.openClient i).task = σ.task := by
  unfold State.openClient
  split
  · exact completeAll_task _
  · rfl

theorem listen_task (irp : Irp) : (σ.listen e irp).task = σ.task := by
  unfold State.listen
  split
  · exact complete_task _
  · split
    · exact complete_task _
    · exact complete_task _
    · dsimp only
      split
      · exact complete_task _
      · rfl

theorem reply_task (irp : Irp) : (σ.reply m e i irp).task = σ.task := by
  unfold State.reply
  dsimp only
  split
  · exact complete_task _
  · split
    · exact complete_task _
    · rfl

/-- A thread that goes on in its call leaves the others where they are. -/
theorem resume_task (hu : u ≠ t) : (σ.resume t m).task u = σ.task u := by
  have hset : ∀ σ' : State, σ'.task = σ.task → ∀ v, (σ'.setTask t v).task u = σ.task u := fun σ' h v => by
    rw [setTask_ne v hu, h]
  unfold State.resume
  split
  · rfl
  · unfold State.writeBuild
    split
    · exact hset _ (complete_task _) _
    · exact hset _ rfl _
  · unfold State.writeLink
    extract_lets σ'
    have h' : σ'.task u = σ.task u := hset _ rfl _
    split
    · rw [complete_task, h']
    · split
      · rw [complete_task, h']
      · rw [complete_task, (local_link m _ _ _).task, h']
  · unfold State.serve
    split
    · exact hset _ rfl _
    · dsimp only
      split
      · exact hset _ rfl _
      · split
        · exact hset _ rfl _
        · exact hset _ rfl _
  · unfold State.accept
    split
    · exact hset _ (complete_task _) _
    · split
      · exact hset _ (complete_task _) _
      · exact hset _ ((complete_task _).trans (local_link m _ _ _).task) _
  · exact hset _ rfl _
  · unfold State.exchange
    extract_lets σ'
    have h' : σ'.task u = σ.task u := hset _ rfl _
    split
    · rw [complete_task, h']
    · split
      · rw [complete_task, h']
      · split
        · rw [reply_task, (local_link m _ _ _).task, h']
        · rw [complete_task, h']
        · exact h'

/-- **A call is a matter of its thread**: a section leaves the other threads where they are. -/
theorem step_task (ev : Event) (hu : ev.thread ≠ some u) : (σ.step ev).task u = σ.task u := by
  have hne : ∀ {t}, Event.thread ev = some t → u ≠ t := by
    rintro t ht rfl
    exact hu ht
  have hset : ∀ {σ' : State} {t}, Event.thread ev = some t → σ'.task = σ.task → ∀ v, (σ'.setTask t v).task u = σ.task u :=
    fun ht h v => by rw [setTask_ne v (hne ht), h]
  cases ev with
  | create message inQuota outQuota mode nowait =>
    simp only [State.step]
    split <;> rfl
  | createInstance i mode nowait =>
    simp only [State.step]
    split <;> rfl
  | openClient i => exact congrFun openClient_task u
  | listen e id =>
    simp only [State.step]
    split
    · exact congrFun (listen_task _) u
    · rfl
  | disconnect m e =>
    simp only [State.step]
    split
    · exact congrFun disconnect_task u
    · rfl
  | close m e => exact congrFun close_task u
  | setInfo e mode nowait =>
    simp only [State.step, State.setInfo]
    split <;> split <;> rfl
  | cancel id =>
    simp only [State.step, State.cancel]
    split
    · exact congrFun (complete_task _) u
    · rfl
  | write t e id proc buf len =>
    simp only [State.step]
    split
    · unfold State.write
      split
      · dsimp only
        split
        · split
          · exact congrFun (complete_task _) u
          · rfl
        · exact hset rfl rfl _
      · exact congrFun (complete_task _) u
      · rfl
    · rfl
  | read t m e id proc buf len =>
    simp only [State.step]
    split
    · unfold State.read
      split
      · split
        · exact congrFun (complete_task _) u
        · rfl
      · dsimp only
        split
        · rw [setTask_ne _ (hne rfl)]
          exact congrFun (complete_task _) u
        · split
          · exact congrFun (complete_task _) u
          · split
            · exact congrFun (complete_task _) u
            · rfl
    · rfl
  | transceive t e id proc inBuf inLen outBuf outLen =>
    simp only [State.step]
    split
    · unfold State.transceive
      split
      · rfl
      · split
        · rfl
        · split
          · exact congrFun (complete_task _) u
          · split
            · exact congrFun (complete_task _) u
            · exact hset rfl rfl _
    · rfl
  | resume t m => exact resume_task (hne rfl)

theorem run_task (evs : List Event) (hu : ∀ ev ∈ evs, ev.thread ≠ some u) : (evs.foldl State.step σ).task u = σ.task u := by
  induction evs generalizing σ with
  | nil => rfl
  | cons ev evs ih =>
    exact (ih fun ev' hev => hu ev' (List.mem_cons_of_mem _ hev)).trans (step_task ev (hu ev List.mem_cons_self))

end Threads

/-! ### A server that writes twice over the quota -/

/-- A section that does not fail on a pending write, and takes no reply. -/
def Event.plain (σ : State) : Event → Bool
  | .resume t m =>
    match σ.task t with
    | .accept _ i irp => (irp.build m (σ.inst i).pipe.message).isOk
    | .exchange .. => false
    | _ => true
  | _ => true

theorem kept_of_plain {σ : State} {ev : Event} (h : ev.plain σ = true) : Kept σ ev := by
  cases ev with
  | resume t m =>
    unfold Event.plain at h
    unfold Kept
    dsimp only at h ⊢
    split
    · rename_i e i irp ht
      rw [ht] at h
      rintro ⟨-, hb, -⟩
      cases hbuild : irp.build m (σ.inst i).pipe.message with
      | ok first => exact hb first hbuild
      | error st => simp [hbuild, Except.isOk, Except.toBool] at h
    · rename_i ht
      rw [ht] at h
      exact absurd h Bool.noConfusion
    · trivial
  | _ => trivial

/-- User memory that can be read and written. -/
def mapped : Memory := ⟨fun _ _ => some 0, fun _ _ => true, 4⟩

/-- User memory that is gone. -/
def unmapped : Memory := ⟨fun _ _ => none, fun _ _ => false, 4⟩

/-- The server end 0 writes a byte, which fills the queue, and two writes pend.  The client end 1 reads the
byte, and takes the first of them. -/
def overQuota (m : Memory) : List Event :=
  [.create false 1 1 false false, .openClient 0, .write 0 0 100 7 0 1, .resume 0 mapped, .resume 0 mapped,
    .write 0 0 101 7 0 1, .write 0 0 102 7 0 1, .read 0 mapped 1 103 8 0 1, .resume 0 mapped, .resume 0 m]

theorem pipes_never_stall_mapped :
    Along State.step (fun σ => Calm σ → Flowing σ) (fun _ _ => True) .init (overQuota mapped) := by
  have hplain : Along State.step (fun _ => True) (fun σ ev => ev.plain σ = true) .init (overQuota mapped) := by
    decide +kernel
  exact pipes_never_stall _ (hplain.mono _ (fun _ h => h) fun _ _ => kept_of_plain)

/-- The first of the pending writes cannot be copied, and the second waits although the queue is empty. -/
theorem faulting_write_strands : ¬Along State.step (fun σ => Calm σ → Flowing σ) (fun _ _ => True) .init
    (overQuota unmapped) := by
  intro h
  have hcalm : Calm ((overQuota unmapped).foldl State.step .init) := by
    intro t
    by_cases ht : t = 0
    · subst ht
      decide +kernel
    · unfold State.Idle
      rw [run_task]
      · rfl
      · simp [overQuota, Event.thread, Ne.symm ht]
  have hstall : ¬((((overQuota unmapped).foldl State.step .init).inst 0).queue false).Flows := by decide +kernel
  exact hstall ((h.last _ hcalm).writers 0 false)

end Win98Modern.Npfs
