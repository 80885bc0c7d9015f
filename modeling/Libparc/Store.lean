import Mathlib.Data.List.Basic
import Libparc.Runtime

/-! # Memory for cells

A store has the cells that are allocated, by their addresses. An access through
NULL or through the address of a cell that was given back stops the program. -/
namespace Libparc

/-- The allocated cells; `live` has their addresses. -/
structure Store (β : Type) where
  cell : Ptr → Option β
  live : List Ptr
  mem_live : ∀ p, p ∈ live ↔ (cell p).isSome = true
  null : cell NULL = none

namespace Store
variable {β : Type} {b : β} {p q : Ptr} {f : β → β}

def empty : Store β := ⟨fun _ => none, [], fun _ => by simp, rfl⟩

/-- A new cell. -/
def allocate (A : Allocator) (s : Store β) (b : β) : Store β × Ptr :=
  (⟨fun p => if p = A.fresh s.live then some b else s.cell p, A.fresh s.live :: s.live,
    fun p => by
      by_cases h : p = A.fresh s.live
      · simp [h]
      · simp [h, s.mem_live],
    by simp [(A.fresh_ne_null s.live).symm, s.null]⟩, A.fresh s.live)

/-- Change a cell, if there is one. -/
def modify (s : Store β) (p : Ptr) (f : β → β) : Store β :=
  ⟨fun q => if q = p then (s.cell q).map f else s.cell q, s.live,
    fun q => by
      by_cases h : q = p
      · simp [h, s.mem_live]
      · simp [h, s.mem_live],
    by simp [s.null]⟩

def deallocate (s : Store β) (p : Ptr) : Store β :=
  ⟨fun q => if q = p then none else s.cell q, s.live.filter (· ≠ p),
    fun q => by
      by_cases h : q = p
      · simp [h]
      · simp [h, s.mem_live],
    by simp [s.null]⟩

/-- A load through a pointer. -/
def read (s : Store β) (p : Ptr) : Prog β :=
  match s.cell p with
  | some b => pure b
  | none => throw .memoryFault

/-- A store through a pointer. -/
def write (s : Store β) (p : Ptr) (f : β → β) : Prog (Store β) := do
  let _ ← s.read p
  pure (s.modify p f)

/-- Change the cell at an address by a computation. -/
def update (s : Store β) (p : Ptr) (f : β → Prog β) : Prog (Store β) := do
  let b ← f (← s.read p)
  s.write p fun _ => b

variable {s : Store β}

theorem ne_null (h : s.cell p = some b) : p ≠ NULL := by
  rintro rfl
  rw [s.null] at h
  cases h

theorem read_of (h : s.cell p = some b) : s.read p = pure b := by
  unfold read
  rw [h]

theorem read_null (s : Store β) : s.read NULL = throw .memoryFault := by
  unfold read
  rw [s.null]

theorem modify_null (s : Store β) (f : β → β) : s.modify NULL f = s := by
  obtain ⟨cell, live, hl, hn⟩ := s
  have hc : (fun q => if q = NULL then (cell q).map f else cell q) = cell := by
    funext q
    split
    · rename_i hq
      rw [hq, hn]
      rfl
    · rfl
  simp only [modify, hc]

theorem write_of (h : s.cell p = some b) (f : β → β) : s.write p f = pure (s.modify p f) := by
  rw [write, read_of h, pure_bind]

@[simp] theorem cell_modify (s : Store β) (p q : Ptr) (f : β → β) :
    (s.modify p f).cell q = if q = p then (s.cell q).map f else s.cell q := rfl

theorem update_of {f c} (h : s.cell p = some b) (hf : f b = pure c) :
    ∃ s', s.update p f = pure s' ∧ s'.cell p = some c ∧ ∀ q ≠ p, s'.cell q = s.cell q := by
  refine ⟨s.modify p fun _ => c, ?_, ?_, fun q hq => ?_⟩
  · rw [update, read_of h, pure_bind, hf, pure_bind, write_of h]
  · rw [cell_modify, if_pos rfl, h, Option.map_some]
  · rw [cell_modify, if_neg hq]

@[simp] theorem cell_deallocate (s : Store β) (p q : Ptr) :
    (s.deallocate p).cell q = if q = p then none else s.cell q := rfl

section
variable {A : Allocator} {s' : Store β} {c : β}

variable (h : s.allocate A b = (s', q))
include h

theorem cell_allocate (p : Ptr) : s'.cell p = if p = q then some b else s.cell p := by
  cases h
  rfl

theorem cell_new : s'.cell q = some b :=
  (cell_allocate h q).trans (if_pos rfl)

theorem cell_fresh : s.cell q = none := by
  cases h
  rw [← Option.not_isSome_iff_eq_none, ← s.mem_live]
  exact A.fresh_not_mem s.live

theorem ne_new (hp : s.cell p = some c) : p ≠ q := by
  rintro rfl
  rw [cell_fresh h] at hp
  cases hp

theorem cell_old (hp : s.cell p = some c) : s'.cell p = some c :=
  (cell_allocate h p).trans ((if_neg (ne_new h hp)).trans hp)

end

end Store

end Libparc
