import Mathlib.Algebra.Order.BigOperators.Group.List
import Mathlib.Algebra.Order.Group.Nat
import Libparc.Exec
import Mathlib.Algebra.GroupWithZero.Nat

/-! # Traps, pointers and allocation

What the library takes from its run-time support: LongBow's assertions and
traps, which stop the program with a text, and `parcMemory`, which hands out
addresses that are not in use. -/
namespace Libparc

/-- How a program is stopped: the kind of LongBow macro that fired, with its
text, or an access outside the memory the program owns. -/
inductive Trap where
  | assertion (text : String)
  | outOfBounds (text : String)
  | illegalValue (text : String)
  | unexpectedState (text : String)
  | cannotObtainLock (text : String)
  | notImplemented (text : String)
  | outOfMemory (text : String)
  | memoryFault
  deriving DecidableEq, Repr

/-- A C function's body. -/
abbrev Prog (α : Type) := Exec Trap α

/-- LongBow's `assertTrue`. -/
def assertTrue (condition : Bool) (text : String) : Prog Unit :=
  if condition then pure () else throw (.assertion text)

@[simp] theorem assertTrue_true (text : String) : assertTrue true text = pure () := rfl

variable {text : String}

theorem assertTrue_of {cond} (h : cond = true) :
    assertTrue cond text = pure () := by rw [h, assertTrue_true]

theorem of_assertTrue {cond u} (h : assertTrue cond text = pure u) : cond = true := by
  unfold assertTrue at h
  split at h
  · assumption
  · exact absurd h Exec.throw_ne_pure

/-- LongBow's `assertNotNull`, for an argument that may be NULL (`none`). -/
def assertNotNull {α : Type} (p : Option α) (text : String) : Prog α :=
  match p with
  | some a => pure a
  | none => throw (.assertion text)

@[simp] theorem assertNotNull_some {α : Type} (a : α) (text : String) :
    assertNotNull (some a) text = pure a := rfl

/-- An assertion under an `if`. -/
def assertIf (guard : Prop) [Decidable guard] (condition : Bool) (text : String) : Prog Unit :=
  if guard then assertTrue condition text else pure ()

theorem assertIf_of {guard : Prop} [Decidable guard] {cond}
    (h : guard → cond = true) : assertIf guard cond text = pure () := by
  unfold assertIf
  split
  · exact assertTrue_of (h ‹_›)
  · rfl

/-- LongBow's `trapOutOfBoundsIf`. -/
def trapOutOfBoundsIf (condition : Prop) [Decidable condition] (text : String) : Prog Unit :=
  if condition then throw (.outOfBounds text) else pure ()

theorem trapOutOfBoundsIf_of_not {cond : Prop} [Decidable cond] (h : ¬ cond) :
    trapOutOfBoundsIf cond text = pure () := if_neg h

theorem not_of_trapOutOfBoundsIf {condition : Prop} [Decidable condition] {u}
    (h : trapOutOfBoundsIf condition text = pure u) : ¬ condition := by
  unfold trapOutOfBoundsIf at h
  split at h
  · exact absurd h Exec.throw_ne_pure
  · assumption

/-- LongBow's `trapOutOfMemoryIf`. -/
def trapOutOfMemoryIf (condition : Prop) [Decidable condition] (text : String) : Prog Unit :=
  if condition then throw (.outOfMemory text) else pure ()

/-! ## Arrays that are reallocated -/

/-- `_parcStdlibMemory_rplRealloc` of an array: as many elements as the new block has are
copied out of the old one, and behind its end the copy reads `beyond`. -/
def rplRealloc {α : Type} (beyond : α) (oldAlloc : List α) (newSize : Nat) : List α :=
  oldAlloc.take newSize ++ List.replicate (newSize - oldAlloc.length) beyond

/-- The copy of `rplRealloc` is an access outside the old block if the new one is longer. -/
def copyInside {α : Type} (oldAlloc : List α) (newSize : Nat) : Prog Unit :=
  if newSize ≤ oldAlloc.length then pure () else throw .memoryFault

abbrev Ptr := Nat

def NULL : Ptr := 0

/-- `PARCTimeout`, without the length of a time. -/
inductive PARCTimeout where
  | immediate
  | never
  | after
  deriving DecidableEq

/-- The memory allocator: given the addresses in use, an address that is not.
It may hand out an address again once it was given back. -/
structure Allocator where
  fresh : List Ptr → Ptr
  fresh_not_mem : ∀ live, fresh live ∉ live
  fresh_ne_null : ∀ live, fresh live ≠ NULL

/-- An allocator that goes past every address in use. -/
def Allocator.bump : Allocator where
  fresh live := live.sum + 1
  fresh_not_mem live h := Nat.not_succ_le_self _ (List.le_sum_of_mem h)
  fresh_ne_null live := by simp [NULL]

end Libparc
