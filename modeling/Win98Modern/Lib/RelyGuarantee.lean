import Win98Modern.Lib.Runs

/-!
# Threads over a shared memory

The code of a thread is a sequence of atomic actions (`Prog`); the actions of the threads of a
`Pool` interleave in any order, with steps of the environment between them.  `Safe I C Q p s` is the
triple of rely and guarantee: run from `s`, among steps of the others that satisfy `C.rely`, each
action of `p` keeps `I` and satisfies `C.guar`, and `p` returns with `Q`.  When the guarantee of each
thread is within the rely of each other, the triples hold in every run (`pool_sound`).
-/

namespace Win98Modern

open Function

/-- The code of a thread.  What an action writes, and how the code goes on, may depend on an answer
`e` of the environment. -/
inductive Prog (σ ε α : Type) where
  | ret (a : α)
  | act (write : ε → σ → σ) (next : ε → σ → Prog σ ε α)

namespace Prog

variable {σ ε α β : Type}

def bind : Prog σ ε α → (α → Prog σ ε β) → Prog σ ε β
  | ret a, k => k a
  | act w n, k => act w fun e s => (n e s).bind k

instance : Monad (Prog σ ε) where
  pure := ret
  bind := bind

/-- One action, which returns a value. -/
def atomic (f : ε → σ → σ × α) : Prog σ ε α := act (fun e s => (f e s).1) fun e s => ret (f e s).2

def load (f : σ → α) : Prog σ ε α := atomic fun _ s => (s, f s)
def store (f : σ → σ) : Prog σ ε Unit := atomic fun _ s => (f s, ())

/-- An answer of the environment. -/
def ask (f : ε → α) : Prog σ ε α := atomic fun e s => (s, f e)

end Prog

/-- What a thread may rely on, and what it guarantees of each of its actions. -/
structure Contract (σ : Type) where
  rely : σ → σ → Prop
  guar : σ → σ → Prop
  rely_refl : ∀ s, rely s s
  rely_trans : ∀ {s t u}, rely s t → rely t u → rely s u
  guar_refl : ∀ s, guar s s

section Safe

open Prog

variable {σ ε α β : Type} {I : σ → Prop} {C : Contract σ} {Q Q' : α → σ → Prop} {s s' : σ}

def Safe (I : σ → Prop) (C : Contract σ) (Q : α → σ → Prop) : Prog σ ε α → σ → Prop
  | ret a, s => ∀ s', I s' → C.rely s s' → Q a s'
  | act w n, s => ∀ s', I s' → C.rely s s' →
      ∀ e, I (w e s') ∧ C.guar s' (w e s') ∧ Safe I C Q (n e s') (w e s')

/-- `P` survives the steps of the others. -/
def Stable (I : σ → Prop) (C : Contract σ) (P : σ → Prop) : Prop :=
  ∀ s s', I s → I s' → C.rely s s' → P s → P s'

theorem Safe.rely {p : Prog σ ε α} (h : Safe I C Q p s) (hs : C.rely s s') : Safe I C Q p s' := by
  cases p with
  | ret a => exact fun t ht hr => h t ht (C.rely_trans hs hr)
  | act w n => exact fun t ht hr => h t ht (C.rely_trans hs hr)

/-- A triple that holds wherever the others may go holds here. -/
theorem Safe.of_rely {p : Prog σ ε α} (h : ∀ s', I s' → C.rely s s' → Safe I C Q p s') :
    Safe I C Q p s := by
  cases p with
  | ret a => exact fun t ht hr => h t ht hr t ht (C.rely_refl t)
  | act w n => exact fun t ht hr => h t ht hr t ht (C.rely_refl t)

theorem Safe.mono {p : Prog σ ε α} (h : Safe I C Q p s) (hQ : ∀ a s, I s → Q a s → Q' a s) :
    Safe I C Q' p s := by
  induction p generalizing s with
  | ret a => exact fun t ht hr => hQ a t ht (h t ht hr)
  | act w n ih =>
    intro t ht hr e
    obtain ⟨hi, hg, hn⟩ := h t ht hr e
    exact ⟨hi, hg, ih e t hn⟩

theorem Safe.bind {p : Prog σ ε α} {k : α → Prog σ ε β} {Q : β → σ → Prop}
    (h : Safe I C (fun a s => Safe I C Q (k a) s) p s) : Safe I C Q (p >>= k) s := by
  induction p generalizing s with
  | ret a => exact Safe.of_rely h
  | act w n ih =>
    intro t ht hr e
    obtain ⟨hi, hg, hn⟩ := h t ht hr e
    exact ⟨hi, hg, ih e t hn⟩

/-- The rule of an action: it starts from a state to which `P` has survived. -/
theorem Safe.atomic {f : ε → σ → σ × α} {k : α → Prog σ ε β} {Q : β → σ → Prop} {P : σ → Prop}
    (hP : Stable I C P) (hi : I s) (hs : P s)
    (h : ∀ s e, I s → P s → I (f e s).1 ∧ C.guar s (f e s).1 ∧
      Safe I C Q (k (f e s).2) (f e s).1) : Safe I C Q (Prog.atomic f >>= k) s := by
  intro t ht hr e
  exact h t e ht (hP s t hi ht hr hs)

theorem Safe.load {f : σ → α} {k : α → Prog σ ε β} {Q : β → σ → Prop} {P : σ → Prop}
    (hP : Stable I C P) (hi : I s) (hs : P s) (h : ∀ s, I s → P s → Safe I C Q (k (f s)) s) :
    Safe I C Q (Prog.load f >>= k) s :=
  Safe.atomic hP hi hs fun s _ hi hs => ⟨hi, C.guar_refl s, h s hi hs⟩

theorem Safe.ask {f : ε → α} {k : α → Prog σ ε β} {Q : β → σ → Prop} {P : σ → Prop}
    (hP : Stable I C P) (hi : I s) (hs : P s) (h : ∀ s a, I s → P s → Safe I C Q (k a) s) :
    Safe I C Q (Prog.ask f >>= k) s :=
  Safe.atomic hP hi hs fun s e hi hs => ⟨hi, C.guar_refl s, h s (f e) hi hs⟩

theorem Safe.store {f : σ → σ} {k : Unit → Prog σ ε β} {Q : β → σ → Prop} {P : σ → Prop}
    (hP : Stable I C P) (hi : I s) (hs : P s)
    (h : ∀ s, I s → P s → I (f s) ∧ C.guar s (f s) ∧ Safe I C Q (k ()) (f s)) :
    Safe I C Q (Prog.store f >>= k) s :=
  Safe.atomic hP hi hs fun s _ hi hs => h s hi hs

theorem Safe.store_last {f : σ → σ} {Q : Unit → σ → Prop} {P : σ → Prop} (hP : Stable I C P)
    (hi : I s) (hs : P s)
    (h : ∀ s, I s → P s → I (f s) ∧ C.guar s (f s) ∧ ∀ s', I s' → C.rely (f s) s' → Q () s') :
    Safe I C Q (Prog.store f : Prog σ ε Unit) s :=
  fun t ht hr _ => h t ht (hP s t hi ht hr hs)

theorem Safe.ret {a : α} {P : σ → Prop} (hP : Stable I C P) (hi : I s) (hs : P s)
    (h : ∀ s, I s → P s → Q a s) : Safe I C Q (pure a : Prog σ ε α) s :=
  fun t ht hr => h t ht (hP s t hi ht hr hs)

theorem Safe.ite {c : Prop} [Decidable c] {p q : Prog σ ε α} (hp : c → Safe I C Q p s)
    (hq : ¬ c → Safe I C Q q s) : Safe I C Q (if c then p else q) s := by
  split
  case isTrue h => exact hp h
  case isFalse h => exact hq h

theorem Stable.and {P P' : σ → Prop} (h : Stable I C P) (h' : Stable I C P') :
    Stable I C fun s => P s ∧ P' s :=
  fun s t hs ht hr hp => ⟨h s t hs ht hr hp.1, h' s t hs ht hr hp.2⟩

theorem stable_true : Stable I C fun _ => True := fun _ _ _ _ _ _ => trivial

/-- Where nothing is asked of the end, a branch that returns needs nothing. -/
theorem Safe.guard {c : Prop} [Decidable c] {a : α} {q : Prog σ ε α} (hi : I s)
    (hq : ¬ c → Safe I C (fun _ _ => True) q s) :
    Safe I C (fun _ _ => True) (if c then pure a else q) s :=
  Safe.ite (fun _ => .ret stable_true hi trivial fun _ _ _ => trivial) hq

end Safe

/-! ### Pools -/

/-- A thread that does a job, and the memory it found when it began. -/
structure Thread (κ σ ε α : Type) where
  job : κ
  entry : σ
  code : Prog σ ε α

structure Pool (ι κ σ ε α : Type) where
  mem : σ
  thread : ι → Option (Thread κ σ ε α)

namespace Pool

inductive Event (ι κ ε δ : Type) where
  | start (i : ι) (k : κ)
  | run (i : ι) (e : ε)
  | env (d : δ)

variable {ι κ σ ε δ α : Type}

/-- The thread has no job, or has returned from it. -/
def Idle (p : Pool ι κ σ ε α) (i : ι) : Bool :=
  match p.thread i with
  | none => true
  | some ⟨_, _, .ret _⟩ => true
  | some ⟨_, _, .act _ _⟩ => false

/-- One step: an idle thread begins a job, a thread makes its next action, or the environment
changes the memory. -/
def step [DecidableEq ι] (body : ι → κ → Prog σ ε α) (env : δ → σ → σ) (p : Pool ι κ σ ε α) :
    Event ι κ ε δ → Pool ι κ σ ε α
  | .start i k =>
    if p.Idle i then { p with thread := update p.thread i (some ⟨k, p.mem, body i k⟩) } else p
  | .run i e =>
    match p.thread i with
    | some ⟨k, entry, .act w n⟩ =>
      { mem := w e p.mem, thread := update p.thread i (some ⟨k, entry, n e p.mem⟩) }
    | _ => p
  | .env d => { p with mem := env d p.mem }

variable {body : ι → κ → Prog σ ε α} {env : δ → σ → σ} {I : σ → Prop} {C : ι → κ → Contract σ}
  {post : ι → κ → σ → α → σ → Prop} {p : Pool ι κ σ ε α}

/-- The invariant holds, and each thread is safe where it stands. -/
structure Sound (I : σ → Prop) (C : ι → κ → Contract σ) (post : ι → κ → σ → α → σ → Prop)
    (p : Pool ι κ σ ε α) : Prop where
  inv : I p.mem
  safe : ∀ i t, p.thread i = some t → Safe I (C i t.job) (post i t.job t.entry) t.code p.mem

theorem Sound.returned (h : Sound I C post p) {i : ι} {t : Thread κ σ ε α} {a : α}
    (ht : p.thread i = some t) (ha : t.code = .ret a) : post i t.job t.entry a p.mem := by
  have hs := h.safe i t ht
  rw [ha] at hs
  exact hs p.mem h.inv ((C i t.job).rely_refl _)

/-- An action of a thread is within the guarantee of its job. -/
def Guaranteed [DecidableEq ι] (body : ι → κ → Prog σ ε α) (env : δ → σ → σ) (C : ι → κ → Contract σ)
    (p : Pool ι κ σ ε α) : Event ι κ ε δ → Prop
  | .run i e => ∀ t, p.thread i = some t →
      (C i t.job).guar p.mem (step body env p (.run i e)).mem
  | .start .. | .env _ => True

/-- What has to be proved of a system: each body is safe, the guarantees are within the relies, and
the environment keeps the invariant and is within the relies. -/
structure Verified (body : ι → κ → Prog σ ε α) (env : δ → σ → σ) (I : σ → Prop)
    (C : ι → κ → Contract σ) (post : ι → κ → σ → α → σ → Prop) : Prop where
  body : ∀ i k s, I s → Safe I (C i k) (post i k s) (body i k) s
  compat : ∀ i j, i ≠ j → ∀ k l s s', I s → I s' → (C i k).guar s s' → (C j l).rely s s'
  env : ∀ d s, I s → I (env d s) ∧ ∀ j l, (C j l).rely s (env d s)

theorem some_of_update {τ : Type} [DecidableEq ι] {f : ι → Option τ} {i j : ι} {u t : τ}
    (h : update f i (some u) j = some t) : (j = i ∧ u = t) ∨ (j ≠ i ∧ f j = some t) := by
  by_cases hij : j = i
  · rw [hij, update_self] at h
    exact .inl ⟨hij, Option.some.inj h⟩
  · rw [update_of_ne hij] at h
    exact .inr ⟨hij, h⟩

theorem sound_step [DecidableEq ι] (hv : Verified body env I C post) (h : Sound I C post p)
    (a : Event ι κ ε δ) : Guaranteed body env C p a ∧ Sound I C post (step body env p a) := by
  cases a with
  | start i k =>
    refine ⟨trivial, ?_⟩
    simp only [step]
    split
    case isFalse => exact h
    case isTrue hi =>
      refine ⟨h.inv, fun j t hj => ?_⟩
      rcases some_of_update hj with ⟨rfl, rfl⟩ | ⟨_, hj⟩
      · exact hv.body j k p.mem h.inv
      · exact h.safe j t hj
  | run i e =>
    simp only [Guaranteed, step]
    split
    case h_2 hi => exact ⟨fun t _ => (C i t.job).guar_refl _, h⟩
    case h_1 k entry w n hi =>
      obtain ⟨hinv, hg, hn⟩ := h.safe i _ hi p.mem h.inv ((C i k).rely_refl _) e
      refine ⟨fun t ht => ?_, hinv, fun j t hj => ?_⟩
      · obtain rfl := Option.some.inj (hi.symm.trans ht)
        exact hg
      · rcases some_of_update hj with ⟨rfl, rfl⟩ | ⟨hij, hj⟩
        · exact hn
        · exact (h.safe j t hj).rely (hv.compat i j (Ne.symm hij) _ _ _ _ h.inv hinv hg)
  | env d =>
    obtain ⟨hi, hr⟩ := hv.env d p.mem h.inv
    exact ⟨trivial, hi, fun j t hj => (h.safe j t hj).rely (hr j _)⟩

/-- **Soundness.**  In every run of a verified system the invariant holds, each thread is safe where
it stands, and each action is within the guarantee of its job. -/
theorem pool_sound [DecidableEq ι] (hv : Verified body env I C post) (h : Sound I C post p)
    (as : List (Event ι κ ε δ)) :
    Along (step body env) (Sound I C post) (Guaranteed body env C) p as :=
  along_of_inv as (fun _ h => h) (fun _ a h _ _ => sound_step hv h a) h (along_true p as)

theorem sound_start (hs : I p.mem) (h : ∀ i, p.thread i = none) : Sound I C post p :=
  ⟨hs, fun i _ ht => nomatch (h i).symm.trans ht⟩

end Pool

end Win98Modern
