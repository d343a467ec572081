import Win98Modern.Lib.Failing

/-!
# Reading bytes that nobody has checked

A parser of untrusted bytes reads at offsets it computed from the bytes themselves.  A read past the end
is a fault of its own, told from the errors the parser reports, and so is running out of the rounds a
loop was given; `Clean` says that a computation ends in neither.  A walk reads and calls back; `Keeps P`
says that it ends in neither fault and that every state it leaves, also on the error paths, satisfies `P`.
-/

namespace Win98Modern

structure Bytes where
  size : Nat
  byte : Nat → UInt8

inductive Fault (ε : Type)
  | outside
  | stuck
  | code (e : ε)
  deriving DecidableEq

abbrev Reading (ε α : Type) := Except (Fault ε) α

namespace Reading

variable {ε α β : Type}

/-- Gives up with `e` if the condition holds. -/
def refuse (c : Prop) [Decidable c] (e : ε) : Reading ε Unit := if c then .error (.code e) else .ok ()

/-- Reports `e` in place of whatever error `x` reports. -/
def recode (e : ε) : Reading ε α → Reading ε α
  | .error (.code _) => .error (.code e)
  | x => x

/-- A reading succeeds when both its parts do. -/
theorem bind_eq_ok {x : Reading ε α} {f : α → Reading ε β} {b : β} :
    (x >>= f) = .ok b ↔ ∃ a, x = .ok a ∧ f a = .ok b := by
  rcases x with e | a
  · exact ⟨nofun, nofun⟩
  · exact ⟨fun h => ⟨a, rfl, h⟩, fun ⟨_, he, h⟩ => by cases he; exact h⟩

variable {c : Prop}

theorem refuse_eq_ok [Decidable c] {e : ε} {u : Unit} : refuse c e = .ok u ↔ ¬ c := by
  by_cases h : c <;> simp [refuse, h]

theorem recode_eq_ok {e : ε} {x : Reading ε α} {a : α} : recode e x = .ok a ↔ x = .ok a := by
  rcases x with (_ | _ | _) | _ <;> simp [recode]

theorem forM_eq_ok {l : List β} {f : β → Reading ε PUnit} {u : PUnit} :
    l.forM f = .ok u ↔ ∀ b ∈ l, f b = .ok ⟨⟩ := by
  induction l with
  | nil => exact ⟨nofun, fun _ => rfl⟩
  | cons b l ih =>
    have hcons : (b :: l).forM f = (f b >>= fun _ => l.forM f) := rfl
    rw [hcons, bind_eq_ok]
    simp only [List.forall_mem_cons]
    exact ⟨fun ⟨_, hb, hl⟩ => ⟨hb, ih.1 hl⟩, fun ⟨hb, hl⟩ => ⟨⟨⟩, hb, ih.2 hl⟩⟩

/-- Ends with a result or an error of its own. -/
def Clean (x : Reading ε α) : Prop := ∀ e, x = .error e → ∃ c, e = .code c

theorem clean_ok (a : α) : Clean (.ok a : Reading ε α) := nofun

theorem clean_pure (a : α) : Clean (pure a : Reading ε α) := nofun

theorem clean_code (c : ε) : Clean (.error (.code c) : Reading ε α) := by
  intro e he
  cases he
  exact ⟨c, rfl⟩

theorem clean_refuse [Decidable c] {e : ε} : Clean (refuse c e) := by
  rw [refuse]
  split
  · exact clean_code e
  · exact clean_ok ()

/-- A reading is clean when its parts are, the second on what the first has read. -/
theorem Clean.bind {x : Reading ε α} {f : α → Reading ε β} (hx : Clean x) (hf : ∀ a, x = .ok a → Clean (f a)) :
    Clean (x >>= f) := by
  rcases x with e | a
  · intro e' he
    cases he
    exact hx e rfl
  · exact hf a rfl

theorem Clean.recode {x : Reading ε α} (hx : Clean x) (e : ε) : Clean (recode e x) := by
  rcases x with (_ | _ | _) | a
  · obtain ⟨c, hc⟩ := hx _ rfl
    cases hc
  · obtain ⟨c, hc⟩ := hx _ rfl
    cases hc
  · exact clean_code e
  · exact clean_ok a

theorem Clean.ite [Decidable c] {x y : Reading ε α} (hx : c → Clean x) (hy : ¬ c → Clean y) :
    Clean (if c then x else y) := by
  by_cases hc : c
  · rw [if_pos hc]
    exact hx hc
  · rw [if_neg hc]
    exact hy hc

end Reading

namespace Bytes

variable {ε : Type}

/-- The `n` bytes from `p` on, the lowest first. -/
def le (f : Bytes) (p : Nat) : Nat → Nat
  | 0 => 0
  | n + 1 => (f.byte p).toNat + 256 * le f (p + 1) n

def rd (f : Bytes) (n p : Nat) : Reading ε Nat := if p + n ≤ f.size then .ok (f.le p n) else .error .outside

def rd8 (f : Bytes) (p : Nat) : Reading ε UInt8 := if p < f.size then .ok (f.byte p) else .error .outside

variable {f : Bytes} {n p : Nat}

theorem rd_of_le (h : p + n ≤ f.size) : (f.rd n p : Reading ε Nat) = .ok (f.le p n) :=
  if_pos h

theorem clean_rd (h : p + n ≤ f.size) : Reading.Clean (f.rd n p : Reading ε Nat) := by
  rw [rd_of_le h]
  exact Reading.clean_ok _

theorem rd8_of_lt (h : p < f.size) : (f.rd8 p : Reading ε UInt8) = .ok (f.byte p) :=
  if_pos h

theorem clean_rd8 (h : p < f.size) : Reading.Clean (f.rd8 p : Reading ε UInt8) := by
  rw [rd8_of_lt h]
  exact Reading.clean_ok _

end Bytes

namespace Failing

variable {σ ε α β : Type}

/-- A reading, which leaves the state as it is. -/
def read (x : Except ε α) : Failing σ ε α := fun s => (s, x)

/-- A call back on `c`; a nonzero result ends the walk. -/
def call {γ : Type} (fn : σ → γ → σ × Int) (c : γ) : Failing σ (Fault Int) Unit := fun s =>
  ((fn s c).1, Reading.refuse ((fn s c).2 ≠ 0) (fn s c).2)

def Keeps (P : σ → Prop) (x : Failing σ (Fault ε) α) : Prop := ∀ s, P s → P (x s).1 ∧ Reading.Clean (x s).2

variable {P : σ → Prop}

theorem keeps_pure (a : α) : Keeps P (pure a : Failing σ (Fault ε) α) :=
  fun _ hs => ⟨hs, Reading.clean_ok a⟩

theorem keeps_fail (c : ε) : Keeps P (fail (.code c) : Failing σ (Fault ε) α) :=
  fun _ hs => ⟨hs, Reading.clean_code c⟩

theorem Keeps.bind {x : Failing σ (Fault ε) α} {f : α → Failing σ (Fault ε) β} (hx : Keeps P x)
    (hf : ∀ a, Keeps P (f a)) : Keeps P (x >>= f) := by
  intro s hs
  obtain ⟨hP, hclean⟩ := hx s hs
  have hbind := bind_run (x := x) (f := f) s
  rcases hrun : x s with ⟨s', e | a⟩ <;> rw [hrun] at hbind hP hclean <;> rw [hbind]
  · refine ⟨hP, fun e' he => ?_⟩
    cases he
    exact hclean e rfl
  · exact hf a s' hP

theorem Keeps.read {x : Reading ε α} {f : α → Failing σ (Fault ε) β} (hx : x.Clean)
    (hf : ∀ a, x = .ok a → Keeps P (f a)) : Keeps P (Failing.read x >>= f) := by
  intro s hs
  rcases x with e | a
  · refine ⟨hs, fun e' he => ?_⟩
    cases he
    exact hx e rfl
  · exact hf a rfl s hs

theorem keeps_call {γ : Type} {fn : σ → γ → σ × Int} {c : γ} (h : ∀ s, P s → P (fn s c).1) :
    Keeps P (call fn c) :=
  fun s hs => ⟨h s hs, Reading.clean_refuse⟩

end Failing

end Win98Modern
