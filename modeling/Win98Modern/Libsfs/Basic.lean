import Mathlib.Tactic.Common

/-!
# Error codes of libsfs

The codes of `sfs.h` that the update operations return, and the three of them
that `sfs_op_end` takes as a sign that an update stopped half-way.
-/

namespace Win98Modern.Libsfs

/-- The `SFS_E...` codes; a function that returns 0 in the source returns `none`. -/
inductive Err
  | io | noEnt | exist | notDir | isDir | notEmpty | noSpc | noMem | inval | roFs | corrupt | notSup
  | nameTooLong | fBig | busy | range
  deriving DecidableEq, Repr

/-- The codes on which `sfs_op_end` aborts the running transaction. -/
def Err.aborts : Err → Bool
  | .io | .corrupt | .noMem => true
  | _ => false

end Win98Modern.Libsfs
