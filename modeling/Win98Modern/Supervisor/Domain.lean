import Mathlib.Algebra.GroupWithZero.Nat
import Mathlib.Tactic.Common

/-!
# Domains

The sizes of the Supervisor's tables, the kinds of domains and their states.
-/

namespace Win98Modern.Supervisor

abbrev SHZ_MAX_DOMAINS : Nat := 8
abbrev SHZ_MAX_CHANNELS : Nat := 4

instance : NeZero SHZ_MAX_DOMAINS := ⟨by decide⟩

/-- `dom_kind_t`. -/
inductive DomKind
  | dos16 | kernel32 | kernel64 | win98
  deriving DecidableEq, Repr

/-- `enum shz_domain_state`. -/
inductive DomState
  | unused | runnable | waiting | exited | failed
  deriving DecidableEq, Repr

end Win98Modern.Supervisor
