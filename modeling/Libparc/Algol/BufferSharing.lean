import Libparc.Algol.BufferCursor

/-! # Buffers that share their arrays

A slice or a duplicate has the array of its original, and `parcBuffer_Resize`
leaves the old array to the other buffers. A pool has all buffers of a program
and the arrays they refer to. -/
namespace Libparc.Buffer
open Exec List Option

/-- `struct parc_buffer`, with its array by reference. -/
structure View where
  array : Nat
  capacity : Nat
  arrayOffset : Nat
  position : Nat
  limit : Nat
  mark : Option Nat
  deriving DecidableEq, Repr

structure Pool where
  arrays : List (List UInt8)
  views : List View
  deriving DecidableEq, Repr

/-- The buffer that a view is of. -/
def View.buffer (v : View) (arrays : List (List UInt8)) : PARCBuffer :=
  ⟨arrays.getD v.array [], v.capacity, v.arrayOffset, v.position, v.limit, v.mark⟩

def PARCBuffer.view (buffer : PARCBuffer) (array : Nat) : View :=
  ⟨array, buffer.capacity, buffer.arrayOffset, buffer.position, buffer.limit, buffer.mark⟩

inductive Call where
  | allocate (capacity : UInt64)
  | inPlace (i : Nat) (op : Op)
  | putBuffer (i source : Nat)
  | resize (i : Nat) (newCapacity : UInt64)
  | slice (i : Nat)
  | duplicate (i : Nat)

/-- The view of a buffer that exists. -/
def Pool.view (pool : Pool) (i : Nat) : Prog View :=
  match pool.views[i]? with
  | some v => pure v
  | none => throw .memoryFault

/-- An operation in place, on the view `v` with number `i`. -/
def Pool.inPlace (pool : Pool) (i : Nat) (v : View) (op : Op) : Prog Pool := do
  let buffer ← op.run (v.buffer pool.arrays)
  pure ⟨pool.arrays.set v.array buffer.array, pool.views.set i (buffer.view v.array)⟩

def Call.run (pool : Pool) : Call → Prog Pool
  | .allocate capacity =>
    let buffer := parcBufferAllocate capacity.toNat
    pure ⟨pool.arrays ++ [buffer.array], pool.views ++ [buffer.view pool.arrays.length]⟩
  | .inPlace i op => do pool.inPlace i (← pool.view i) op
  | .putBuffer i source => do
    let v ← pool.view i
    let w ← pool.view source
    pool.inPlace i v (.putBuffer (w.buffer pool.arrays))
  | .resize i newCapacity => do
    let v ← pool.view i
    let buffer ← parcBufferResize (v.buffer pool.arrays) newCapacity.toNat
    pure ⟨pool.arrays ++ [buffer.array], pool.views.set i (buffer.view pool.arrays.length)⟩
  | .slice i => do
    let v ← pool.view i
    let buffer := parcBufferSlice (v.buffer pool.arrays)
    pure { pool with views := pool.views ++ [buffer.view v.array] }
  | .duplicate i => do
    let v ← pool.view i
    let buffer := parcBufferDuplicate (v.buffer pool.arrays)
    pure { pool with views := pool.views ++ [buffer.view v.array] }

/-- Every buffer is within its bounds: `mark ≤ position ≤ limit ≤ capacity`, and
its window is within its array. -/
structure Pool.Valid (pool : Pool) : Prop where
  length_lt : ∀ array ∈ pool.arrays, array.length < 2 ^ 64
  array_lt : ∀ v ∈ pool.views, v.array < pool.arrays.length
  valid : ∀ v ∈ pool.views, (v.buffer pool.arrays).Valid

def Call.Safe (pool : Pool) : Call → Prop
  | .inPlace i op => ∀ v, pool.views[i]? = some v → op.Safe (v.buffer pool.arrays)
  | _ => True

/-! ## One call -/

section
variable {pool pool' : Pool} {v : View} {i : Nat}

theorem view_eq_pure : pool.view i = pure v ↔ pool.views[i]? = some v := by
  unfold Pool.view
  split
  · rename_i w hw
    rw [hw, pure_inj, some.injEq]
  · rename_i hn
    rw [hn]
    exact ⟨fun h => absurd h throw_ne_pure, fun h => by cases h⟩

theorem valid_congr {arrays arrays'}
    (hl : (arrays'.getD v.array []).length = (arrays.getD v.array []).length)
    (h : (v.buffer arrays).Valid) : (v.buffer arrays').Valid :=
  ⟨h.mark_le, h.position_le, h.limit_le, h.capacity_le.trans_eq hl.symm⟩

section
variable (h : pool.Valid)
include h

theorem Pool.Valid.buffer_length (hv : v ∈ pool.views) :
    (v.buffer pool.arrays).array.length < 2 ^ 64 := by
  refine h.length_lt _ ?_
  rw [View.buffer, getD_eq_getElem _ _ (h.array_lt v hv)]
  exact getElem_mem _

theorem Pool.Valid.add_view {b : PARCBuffer} {a}
    (ha : a < pool.arrays.length) (hb : b.array = pool.arrays.getD a [])
    (hva : b.Valid) : Pool.Valid { pool with views := pool.views ++ [b.view a] } := by
  refine ⟨h.length_lt, fun v hv => ?_, fun v hv => ?_⟩
  · rcases mem_append.mp hv with hv | hv
    · exact h.array_lt v hv
    · rw [mem_singleton.mp hv]
      exact ha
  · rcases mem_append.mp hv with hv | hv
    · exact h.valid v hv
    · rw [mem_singleton.mp hv]
      exact ⟨hva.mark_le, hva.position_le, hva.limit_le,
        hva.capacity_le.trans_eq (congrArg length hb)⟩

theorem Pool.Valid.add_array (arr : List UInt8) (hl : arr.length < 2 ^ 64) :
    Pool.Valid { pool with arrays := pool.arrays ++ [arr] } := by
  refine ⟨fun a ha => ?_, fun v hv => ?_, fun v hv => ?_⟩
  · rcases mem_append.mp ha with ha | ha
    · exact h.length_lt a ha
    · rw [mem_singleton.mp ha]
      exact hl
  · rw [length_append]
    exact Nat.lt_add_right _ (h.array_lt v hv)
  · refine valid_congr ?_ (h.valid v hv)
    rw [getD_append _ _ _ _ (h.array_lt v hv)]

theorem Pool.Valid.set_view {w} (ha : w.array < pool.arrays.length)
    (hw : (w.buffer pool.arrays).Valid) (i : Nat) :
    Pool.Valid { pool with views := pool.views.set i w } := by
  refine ⟨h.length_lt, fun v hv => ?_, fun v hv => ?_⟩
  · rcases mem_or_eq_of_mem_set hv with hv | rfl
    · exact h.array_lt v hv
    · exact ha
  · rcases mem_or_eq_of_mem_set hv with hv | rfl
    · exact h.valid v hv
    · exact hw

theorem Pool.Valid.set_array {k arr}
    (hl : arr.length = (pool.arrays.getD k []).length) :
    Pool.Valid { pool with arrays := pool.arrays.set k arr } := by
  have hs : ∀ j, ((pool.arrays.set k arr).getD j []).length = (pool.arrays.getD j []).length := by
    intro j
    rw [getD_eq_getElem?_getD, getElem?_set, getD_eq_getElem?_getD]
    by_cases hjk : k = j
    · subst hjk
      rw [if_pos rfl]
      split
      · rw [getD_some, hl, getD_eq_getElem?_getD]
      · rw [getElem?_eq_none (Nat.le_of_not_lt ‹_›)]
    · rw [if_neg hjk]
  refine ⟨fun a ha => ?_, fun v hv => ?_, fun v hv => ?_⟩
  · obtain ⟨j, hj, rfl⟩ := mem_iff_getElem.mp ha
    have hj' : j < pool.arrays.length := by rwa [length_set] at hj
    have := hs j
    rw [getD_eq_getElem _ _ hj, getD_eq_getElem _ _ hj'] at this
    rw [this]
    exact h.length_lt _ (getElem_mem _)
  · rw [length_set]
    exact h.array_lt v hv
  · exact valid_congr (hs v.array) (h.valid v hv)

end

theorem buffer_view {arrays : List (List UInt8)} {k} (hk : k < arrays.length)
    (buffer : PARCBuffer) : (buffer.view k).buffer (arrays.set k buffer.array) = buffer := by
  have ha : (arrays.set k buffer.array).getD k [] = buffer.array := by
    rw [getD_eq_getElem?_getD, getElem?_set_self hk, getD_some]
  unfold PARCBuffer.view View.buffer
  rw [ha]

theorem inPlace_valid (h : pool.Valid) (hv : pool.views[i]? = some v) {op : Op}
    (hr : pool.inPlace i v op = pure pool') : pool'.Valid ↔ op.Safe (v.buffer pool.arrays) := by
  obtain ⟨b, hop, heq⟩ := bind_eq_pure.mp hr
  have hm := mem_of_getElem? hv
  have hk := h.array_lt v hm
  obtain ⟨hl, hva⟩ := op.run_valid (h.valid v hm) (h.buffer_length hm) hop
  have hvi := buffer_view hk b
  rw [← hva, ← pure_inj.mp heq]
  constructor
  · intro h'
    have hin : b.view v.array ∈ pool.views.set i (b.view v.array) :=
      List.mem_set (List.getElem?_eq_some_iff.mp hv).1 _
    exact hvi ▸ h'.valid _ hin
  · intro hb
    refine (h.set_array hl).set_view ?_ ?_ i
    · rwa [length_set]
    · rwa [hvi]

/-- **The bounds of all buffers are kept, exactly by the safe calls.** -/
theorem Call.run_valid (h : pool.Valid) (call : Call) (hr : call.run pool = pure pool') :
    pool'.Valid ↔ call.Safe pool := by
  cases call with
  | allocate cap =>
    rw [← pure_inj.mp hr]
    have ha := h.add_array (parcBufferAllocate cap.toNat).array (by
      simpa [parcBufferAllocate] using cap.toNat_lt)
    refine ⟨fun _ => trivial, fun _ => ha.add_view ?_ ?_ (valid_allocate _)⟩
    · simp
    · simp
  | inPlace i op =>
    obtain ⟨v, hvi, hop⟩ := bind_eq_pure.mp hr
    have hv := view_eq_pure.mp hvi
    rw [inPlace_valid h hv hop]
    refine ⟨fun hs w hw => ?_, fun hs => hs v hv⟩
    rwa [← some.inj (hv.symm.trans hw)]
  | putBuffer i src =>
    obtain ⟨v, hvi, hre⟩ := bind_eq_pure.mp hr
    obtain ⟨w, -, hop⟩ := bind_eq_pure.mp hre
    exact inPlace_valid h (view_eq_pure.mp hvi) hop
  | resize i n =>
    obtain ⟨v, hvi, hre⟩ := bind_eq_pure.mp hr
    obtain ⟨b, hrs, heq⟩ := bind_eq_pure.mp hre
    have hm := mem_of_getElem? (view_eq_pure.mp hvi)
    obtain ⟨hva, hl⟩ := resize_valid (h.valid v hm) hrs
    rw [← pure_inj.mp heq]
    have ha := h.add_array b.array (by rw [hl]; exact n.toNat_lt)
    refine ⟨fun _ => trivial, fun _ => ha.set_view ?_ ?_ i⟩
    · simp [PARCBuffer.view]
    · refine ⟨hva.mark_le, hva.position_le, hva.limit_le, ?_⟩
      refine hva.capacity_le.trans_eq ?_
      simp [View.buffer, PARCBuffer.view]
  | slice i =>
    obtain ⟨v, hvi, heq⟩ := bind_eq_pure.mp hr
    have hm := mem_of_getElem? (view_eq_pure.mp hvi)
    rw [← pure_inj.mp heq]
    exact ⟨fun _ => trivial, fun _ => h.add_view (h.array_lt v hm) rfl
      (slice_keeps (h.valid v hm)).1⟩
  | duplicate i =>
    obtain ⟨v, hvi, heq⟩ := bind_eq_pure.mp hr
    have hm := mem_of_getElem? (view_eq_pure.mp hvi)
    rw [← pure_inj.mp heq]
    exact ⟨fun _ => trivial, fun _ => h.add_view (h.array_lt v hm) rfl
      (duplicate_keeps (h.valid v hm)).1⟩

end

/-! ## Whole runs -/

/-- Every pool that the calls lead to is valid. -/
def AlwaysValid : Pool → List Call → Prop
  | _, [] => True
  | pool, call :: calls => ∀ pool', call.run pool = pure pool' →
    pool'.Valid ∧ AlwaysValid pool' calls

/-- Every call that returns is a safe one. -/
def SafeCalls : Pool → List Call → Prop
  | _, [] => True
  | pool, call :: calls => ∀ pool', call.run pool = pure pool' →
    call.Safe pool ∧ SafeCalls pool' calls

/-- **The bounds hold in every state of a run, exactly if its calls are safe**:
no buffer with a mark after its start is flipped, and no limit is set before the
position of a buffer without a mark. -/
theorem alwaysValid_iff {pool : Pool} (h : pool.Valid) (calls : List Call) :
    AlwaysValid pool calls ↔ SafeCalls pool calls := by
  induction calls generalizing pool with
  | nil => exact Iff.rfl
  | cons call calls ih =>
    constructor
    · intro ha pool' hr
      obtain ⟨hv, hre⟩ := ha pool' hr
      exact ⟨(call.run_valid h hr).mp hv, (ih hv).mp hre⟩
    · intro hs pool' hr
      obtain ⟨hs, hre⟩ := hs pool' hr
      have hv := (call.run_valid h hr).mpr hs
      exact ⟨hv, (ih hv).mpr hre⟩

theorem valid_empty : (⟨[], []⟩ : Pool).Valid :=
  ⟨fun _ ha => absurd ha not_mem_nil, fun _ hv => absurd hv not_mem_nil,
    fun _ hv => absurd hv not_mem_nil⟩

theorem SafeCalls.cons {pool pool' call cs}
    (hr : call.run pool = pure pool') (hs : call.Safe pool) (hre : SafeCalls pool' cs) :
    SafeCalls pool (call :: cs) := by
  intro pool1 hr1
  rw [← pure_inj.mp (hr.symm.trans hr1)]
  exact ⟨hs, hre⟩

theorem alwaysValid_flip : AlwaysValid ⟨[], []⟩
    [.allocate 4, .inPlace 0 (.putUint16 7), .inPlace 0 .flip] :=
  (alwaysValid_iff valid_empty _).mpr (.cons rfl trivial (.cons rfl (fun _ _ => trivial)
    (.cons rfl (fun v hv => by cases hv; exact fun m hm => nomatch hm) trivial)))

/-- A limit set before the position of a buffer without a mark leaves the
position behind, and a flip leaves a mark behind. -/
theorem setLimit_and_flip_break_bounds :
    [Call.allocate 8, .inPlace 0 (.setPosition 5), .inPlace 0 (.setLimit 3)].foldlM Call.run
      ⟨[], []⟩ = pure ⟨[List.replicate 8 0], [⟨0, 8, 0, 5, 3, none⟩]⟩ ∧
    [Call.allocate 8, .inPlace 0 (.setPosition 5), .inPlace 0 .mark, .inPlace 0 .flip].foldlM
      Call.run ⟨[], []⟩ = pure ⟨[List.replicate 8 0], [⟨0, 8, 0, 0, 5, some 5⟩]⟩ := ⟨rfl, rfl⟩

end Libparc.Buffer
