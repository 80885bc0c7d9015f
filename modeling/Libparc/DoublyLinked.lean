import Mathlib.Data.List.Basic
import Mathlib.Data.List.Nodup

/-! # Doubly linked nodes

A run of nodes, with the address and the content of each one, stands between
two addresses, which may be those of other nodes or of none. `Linked` says that
the links of the nodes make up that run, in both directions; `splice` is the one
change that inserting and deleting nodes are cases of. -/
namespace Libparc.DoublyLinked
open List

variable {π α : Type}

structure Node (π α : Type) where
  object : α
  previous : π
  next : π
  deriving DecidableEq, Repr

/-- The first address of a run, or the one after it. -/
def first (after : π) : List (π × α) → π
  | [] => after
  | (p, _) :: _ => p

/-- The last address of a run, or the one before it. -/
def last (before : π) : List (π × α) → π
  | [] => before
  | (p, _) :: xs => last p xs

def Linked (cell : π → Option (Node π α)) : π → List (π × α) → π → Prop
  | _, [], _ => True
  | before, (p, a) :: xs, after =>
    cell p = some ⟨a, before, first after xs⟩ ∧ Linked cell p xs after

/-- The addresses of a run. -/
def addresses (xs : List (π × α)) : List π := xs.map Prod.fst

variable {cell cell' : π → Option (Node π α)} {pre suf pre' suf' p : π} {a : α}
  {xs ys zs : List (π × α)}

@[simp] theorem first_nil : first suf ([] : List (π × α)) = suf := rfl

@[simp] theorem first_cons : first suf ((p, a) :: xs) = p := rfl

@[simp] theorem last_nil : last pre ([] : List (π × α)) = pre := rfl

@[simp] theorem last_cons : last pre ((p, a) :: xs) = last p xs := rfl

theorem first_append (suf : π) (xs ys : List (π × α)) :
    first suf (xs ++ ys) = first (first suf ys) xs := by
  cases xs <;> rfl

theorem last_append (pre : π) (xs ys : List (π × α)) :
    last pre (xs ++ ys) = last (last pre xs) ys := by
  induction xs generalizing pre with
  | nil => rfl
  | cons x xs ih => exact ih x.1

@[simp] theorem addresses_append (xs ys : List (π × α)) :
    addresses (xs ++ ys) = addresses xs ++ addresses ys := map_append

@[simp] theorem addresses_cons : addresses ((p, a) :: xs) = p :: addresses xs := rfl

theorem addresses_take (xs : List (π × α)) (n : Nat) :
    addresses (xs.take n) = (addresses xs).take n := map_take

theorem last_eq (pre : π) (xs : List (π × α)) : last pre xs = (addresses xs).getLastD pre := by
  induction xs generalizing pre with
  | nil => rfl
  | cons x xs ih => exact (ih x.1).trans getLastD_cons.symm

theorem last_mem (pre : π) (h : xs ≠ []) : last pre xs ∈ addresses xs := by
  induction xs generalizing pre with
  | nil => exact absurd rfl h
  | cons x xs ih =>
    cases xs with
    | nil => exact mem_singleton.mpr rfl
    | cons y xs => exact .tail _ (ih x.1 (cons_ne_nil _ _))

theorem linked_append : Linked cell pre (xs ++ ys) suf ↔
    Linked cell pre xs (first suf ys) ∧ Linked cell (last pre xs) ys suf := by
  induction xs generalizing pre with
  | nil => simp [Linked]
  | cons x xs ih =>
    obtain ⟨p, a⟩ := x
    simp only [cons_append, Linked, last_cons, ih, first_append, and_assoc]

theorem Linked.congr (h : Linked cell pre xs suf)
    (heq : ∀ p ∈ addresses xs, cell' p = cell p) : Linked cell' pre xs suf := by
  induction xs generalizing pre with
  | nil => trivial
  | cons x xs ih =>
    obtain ⟨p, a⟩ := x
    exact ⟨(heq p (.head _)).trans h.1, ih h.2 fun q hq => heq q (.tail _ hq)⟩

theorem Linked.isSome (h : Linked cell pre xs suf) (hp : p ∈ addresses xs) :
    ∃ node, cell p = some node := by
  induction xs generalizing pre with
  | nil => cases hp
  | cons x xs ih =>
    rcases mem_cons.mp hp with rfl | hp
    · exact ⟨_, h.1⟩
    · exact ih h.2 hp

variable [DecidableEq π]

section
variable (h : Linked cell pre xs suf) (hn : (addresses xs).Nodup)
include h hn

theorem Linked.set_next
    (heq : ∀ p ∈ addresses xs, cell' p = (cell p).map fun node =>
      { node with next := if p = last pre xs then suf' else node.next }) :
    Linked cell' pre xs suf' := by
  induction xs generalizing pre with
  | nil => trivial
  | cons x xs ih =>
    obtain ⟨p, a⟩ := x
    obtain ⟨hp, hr⟩ := h
    obtain ⟨hno, hn⟩ := nodup_cons.mp hn
    refine ⟨?_, ih hr hn fun q hq => heq q (.tail _ hq)⟩
    rw [heq p mem_cons_self, hp, Option.map_some]
    cases xs with
    | nil => simp
    | cons y xs =>
      have hne : p ≠ last p (y :: xs) := fun heq =>
        hno (heq ▸ last_mem p (cons_ne_nil y xs))
      rw [last_cons, if_neg hne]
      rfl

theorem Linked.set_previous
    (ha : suf ∉ addresses xs) (heq : ∀ p ∈ addresses xs, cell' p = (cell p).map fun node =>
      { node with previous := if p = first suf xs then pre' else node.previous }) :
    Linked cell' pre' xs suf := by
  cases xs with
  | nil => trivial
  | cons x xs =>
    obtain ⟨p, a⟩ := x
    obtain ⟨hp, hr⟩ := h
    obtain ⟨hno, hn⟩ := nodup_cons.mp hn
    refine ⟨?_, hr.congr fun q hq => ?_⟩
    · rw [heq p mem_cons_self, hp]
      simp
    · have hne : q ≠ p := fun heq => hno (heq ▸ hq)
      obtain ⟨node, hnd⟩ := hr.isSome hq
      rw [heq q (.tail _ hq), hnd]
      simp [hne]

end

/-- **Other nodes in the middle of a run**: the node before them gets another
next node, the node after them another previous one. -/
theorem Linked.splice (h : Linked cell pre (xs ++ ys ++ zs) suf)
    (hn : (addresses (xs ++ zs)).Nodup) (hb : pre ∉ addresses zs)
    (ha : suf ∉ addresses (xs ++ zs)) {ys'} (hm : Linked cell' (last pre xs) ys' (first suf zs))
    (heq : ∀ p ∈ addresses (xs ++ zs), cell' p = (cell p).map fun node =>
      { node with
        previous := if p = first suf zs then last (last pre xs) ys' else node.previous
        next := if p = last pre xs then first (first suf zs) ys' else node.next }) :
    Linked cell' pre (xs ++ ys' ++ zs) suf := by
  rw [append_assoc, linked_append, linked_append] at h
  obtain ⟨hxs, -, hzs⟩ := h
  rw [addresses_append] at hn ha heq
  obtain ⟨hno, hnd, hd⟩ := nodup_append.mp hn
  rw [append_assoc, linked_append, linked_append, first_append]
  refine ⟨?_, hm, ?_⟩
  · -- the first node after the run is not in it
    refine hxs.set_next hno fun p hp => ?_
    rw [heq p (mem_append_left _ hp)]
    have hne : p ≠ first suf zs := by
      intro hpz
      cases zs with
      | nil =>
        have hpa : p = suf := hpz
        exact ha (mem_append_left _ (hpa ▸ hp))
      | cons z zs => exact hd p hp z.1 (.head _) hpz
    simp only [if_neg hne]
  · refine hzs.set_previous hnd (fun hme => ha (mem_append_right _ hme)) fun p hp => ?_
    rw [heq p (mem_append_right _ hp)]
    have hne : p ≠ last pre xs := by
      intro hpx
      by_cases hni : xs = []
      · subst hni
        have hpb : p = pre := hpx
        exact hb (hpb ▸ hp)
      · exact hd _ (last_mem pre hni) p hp hpx.symm
    simp only [if_neg hne]

end Libparc.DoublyLinked
