import Mathlib.Data.Multiset.Count
import Libparc.Store

/-! # Reference counts

Objects that are shared by counting the references to them. The references that are
held are a multiset of addresses: an object is allocated as long as it is in there, and
its count says how often. A reference is taken through one that is held, and each is
given back once. -/
namespace Libparc.References
open Multiset

/-- An object with its reference count. -/
structure Counted (β : Type) where
  references : Nat
  value : β

variable {β : Type} {os : Store (Counted β)} {v : Ptr → β} {held : Multiset Ptr}
variable {p q : Ptr}

/-- The objects that are allocated are those that references are held to. -/
def Accounts (objects : Store (Counted β)) (value : Ptr → β) (held : Multiset Ptr) : Prop :=
  ∀ p, objects.cell p = if p ∈ held then some ⟨held.count p, value p⟩ else none

theorem Accounts.cell (h : Accounts os v held) (hp : p ∈ held) :
    os.cell p = some ⟨held.count p, v p⟩ := (h p).trans (if_pos hp)

theorem Accounts.mem_iff (h : Accounts os v held) : p ∈ held ↔ (os.cell p).isSome = true := by
  rw [h p]
  split <;> simp [*]

theorem counted_cons (v : Ptr → β) (held : Multiset Ptr) (hq : q ≠ p) :
    (if q ∈ p ::ₘ held then some (⟨(p ::ₘ held).count q, v q⟩ : Counted β) else none) =
      if q ∈ held then some ⟨held.count q, v q⟩ else none := by
  rw [count_cons_of_ne hq]
  simp only [mem_cons, hq, false_or]

theorem Accounts.raise (h : Accounts os v held) (hp : p ∈ held) :
    Accounts (os.modify p fun o => { o with references := o.references + 1 }) v
      (p ::ₘ held) := by
  intro q
  rw [Store.cell_modify]
  split
  · rename_i hq
    rw [hq, h.cell hp, if_pos (mem_cons_self p held), count_cons_self]
    rfl
  · rename_i hq
    rw [h q, counted_cons v held hq]

theorem Accounts.lower (h : Accounts os v (p ::ₘ held)) (hp : p ∈ held) :
    Accounts (os.modify p fun o => { o with references := o.references - 1 }) v held := by
  intro q
  rw [Store.cell_modify]
  split
  · rename_i hq
    rw [hq, h.cell (mem_cons_self p held), if_pos hp, count_cons_self]
    rfl
  · rename_i hq
    rw [h q, counted_cons v held hq]

theorem Accounts.last (h : Accounts os v (p ::ₘ held)) (hp : p ∉ held)
    (f : Counted β → Counted β) : Accounts ((os.modify p f).deallocate p) v held := by
  intro q
  rw [Store.cell_deallocate]
  split
  · rename_i hq
    rw [hq, if_neg hp]
  · rename_i hq
    rw [Store.cell_modify, if_neg hq, h q, counted_cons v held hq]

end Libparc.References
