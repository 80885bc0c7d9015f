import Libparc.Runtime
import Libparc.Transition

/-! # parc_StdlibMemory

Memory from the C library, and a count of the blocks that are handed out. Each
function updates the count by itself: most of them once the library has returned a
block, `parcStdlibMemory_StringDuplicate` before it asks for one and
`parcStdlibMemory_Reallocate` whether it got one or not. HAVE_REALLOC is not defined by the
build, so a block is reallocated by `_parcStdlibMemory_rplRealloc`, which copies its new size
out of it. Of the blocks only the sizes are kept, not the contents. -/
namespace Libparc.StdlibMemory
open Transition List

/-- `_parcStdlibMemory_OutstandingAllocations`, a `uint32_t`. -/
abbrev Counter := BitVec 32

inductive Errno where
  | EINVAL
  | ENOMEM
  deriving DecidableEq, Repr

def parcStdlibMemoryAllocate (malloc : Nat → Ptr) (outstanding : Counter) (size : Nat) :
    Ptr × Counter :=
  if size = 0 then (NULL, outstanding)
  else
    let result := malloc size
    (result, if result ≠ NULL then outstanding + 1 else outstanding)

def parcStdlibMemoryAllocateAndClear (malloc : Nat → Ptr) (outstanding : Counter) (size : Nat) :
    Ptr × Counter :=
  parcStdlibMemoryAllocate malloc outstanding size

def parcStdlibMemoryMemAlign (posixMemalign : Nat → Nat → Except Errno Ptr)
    (outstanding : Counter) (alignment size : Nat) : Except Errno Ptr × Counter :=
  if size = 0 then (.error .EINVAL, outstanding)
  else
    match posixMemalign alignment size with
    | .error failure => (.error failure, outstanding)
    | .ok pointer =>
      if pointer = NULL then (.error .ENOMEM, outstanding) else (.ok pointer, outstanding + 1)

def parcStdlibMemoryDeallocate (outstanding : Counter) : Prog Counter :=
  if outstanding = 0 then throw (.illegalValue
    "parcStdlibMemory_Deallocate invoked with nothing left to free (double free somewhere?)\n")
  else pure (outstanding - 1)

/-- The old block has `oldSize` bytes. -/
def parcStdlibMemoryRplRealloc (malloc : Nat → Ptr) (oldAlloc : Ptr) (oldSize newSize : Nat) :
    Prog Ptr :=
  let newSize := if newSize = 0 then 1 else newSize
  let newAlloc := malloc newSize
  -- the copy writes through NULL, or it reads behind the end of the old block
  if oldAlloc ≠ NULL ∧ (newAlloc = NULL ∨ oldSize < newSize) then throw .memoryFault
  else pure newAlloc

def parcStdlibMemoryReallocate (malloc : Nat → Ptr) (outstanding : Counter) (pointer : Ptr)
    (oldSize newSize : Nat) : Prog (Ptr × Counter) := do
  let result ← parcStdlibMemoryRplRealloc malloc pointer oldSize newSize
  pure (result, if pointer = NULL then outstanding + 1 else outstanding)

def parcStdlibMemoryStringDuplicate (strndup : String → Nat → Ptr) (outstanding : Counter)
    (string : String) (length : Nat) : Ptr × Counter :=
  let outstanding := outstanding + 1
  (strndup string length, outstanding)

def parcStdlibMemoryOutstanding (outstanding : Counter) : Nat := outstanding.toNat

/-! ## Runs -/

/-- The blocks that are handed out and not yet deallocated, their sizes, and the count. -/
structure State where
  live : List Ptr
  size : Ptr → Nat
  outstanding : Counter

def State.init : State := ⟨[], fun _ => 0, 0⟩

/-- The calls, with the answer of the C library: whether it returns a block. -/
inductive Call where
  | allocate (size : Nat) (granted : Bool)
  | allocateAndClear (size : Nat) (granted : Bool)
  | memAlign (alignment size : Nat) (answer : Except Errno Bool)
  | deallocate (pointer : Ptr)
  | reallocate (pointer : Ptr) (newSize : Nat) (granted : Bool)
  | stringDuplicate (string : String) (length : Nat) (granted : Bool)

section
variable (A : Allocator) (s : State)

/-- A new block or NULL. -/
def block (live : List Ptr) (granted : Bool) : Ptr := if granted then A.fresh live else NULL

/-- The blocks with one that was handed out, if it was, and the count. -/
def handOut (pointer : Ptr) (size : Nat) (outstanding : Counter) : State :=
  if pointer = NULL then { s with outstanding }
  else ⟨pointer :: s.live, Function.update s.size pointer size, outstanding⟩

/-- A call. Only live blocks are deallocated, and only they or NULL are reallocated. -/
def Call.run : Call → Prog State
  | .allocate size granted =>
    let (p, o) := parcStdlibMemoryAllocate (fun _ => block A s.live granted) s.outstanding size
    pure (handOut s p size o)
  | .allocateAndClear size granted =>
    let (p, o) :=
      parcStdlibMemoryAllocateAndClear (fun _ => block A s.live granted) s.outstanding size
    pure (handOut s p size o)
  | .memAlign alignment size answer =>
    let (p, o) := parcStdlibMemoryMemAlign (fun _ _ => answer.map (block A s.live)) s.outstanding
      alignment size
    pure (handOut s (p.toOption.getD NULL) size o)
  | .deallocate pointer =>
    if pointer ∈ s.live then do
      let outstanding ← parcStdlibMemoryDeallocate s.outstanding
      pure { s with live := s.live.erase pointer, outstanding }
    else pure s
  | .reallocate pointer newSize granted =>
    if pointer = NULL ∨ pointer ∈ s.live then do
      let (p, o) ← parcStdlibMemoryReallocate (fun _ => block A s.live granted) s.outstanding
        pointer (s.size pointer) newSize
      let live := if pointer = NULL then s.live else s.live.erase pointer
      pure (handOut { s with live } p (max newSize 1) o)
    else pure s
  | .stringDuplicate string length granted =>
    let (p, o) := parcStdlibMemoryStringDuplicate (fun _ _ => block A s.live granted)
      s.outstanding string length
    pure (handOut s p (min string.utf8ByteSize length + 1) o)

/-- The state after a call that returns. -/
def step (call : Call) : State :=
  match call.run A s with
  | some (.ok s') => s'
  | _ => s

/-- The count is the number of blocks. -/
def Counted : Prop := parcStdlibMemoryOutstanding s.outstanding = s.live.length

/-- The call returns, and the count is right after it. -/
def Counts (call : Call) : Prop := ∃ s', call.run A s = pure s' ∧ Counted s'

/-- The library returns a block where the count goes up without looking and where a block is
copied to the new one, which is not the longer one, and the number of blocks fits in the
count. -/
def Safe : Call → Prop
  | .allocate size granted | .allocateAndClear size granted =>
    size ≠ 0 → granted = true → s.live.length + 1 < 2 ^ 32
  | .memAlign _ size answer => size ≠ 0 → answer = .ok true → s.live.length + 1 < 2 ^ 32
  | .deallocate _ => True
  | .reallocate pointer newSize granted =>
    if pointer = NULL then granted = true ∧ s.live.length + 1 < 2 ^ 32
    else pointer ∈ s.live → granted = true ∧ max newSize 1 ≤ s.size pointer
  | .stringDuplicate _ _ granted => granted = true ∧ s.live.length + 1 < 2 ^ 32

end

/-! ## The count -/

section
variable {A : Allocator} {s : State} {l : List Ptr} {p : Ptr} {f : Ptr → Nat}

theorem counted_more (h : Counted s) (hl : l.length = s.live.length + 1) :
    Counted ⟨l, f, s.outstanding + 1⟩ ↔ s.live.length + 1 < 2 ^ 32 := by
  unfold Counted parcStdlibMemoryOutstanding at h ⊢
  rw [BitVec.toNat_add, hl, h]
  show (_ + 1) % _ = _ ↔ _
  omega

theorem not_counted_more (h : Counted s) :
    ¬ Counted { s with outstanding := s.outstanding + 1 } := by
  unfold Counted parcStdlibMemoryOutstanding at h ⊢
  rw [BitVec.toNat_add, h]
  show ¬ (s.live.length + 1) % 2 ^ 32 = s.live.length
  have := s.outstanding.isLt
  omega

theorem counted_less (h : Counted s) (hp : p ∈ s.live) :
    ∃ o, parcStdlibMemoryDeallocate s.outstanding = pure o ∧
      Counted { s with live := s.live.erase p, outstanding := o } := by
  have hpos := length_pos_of_mem hp
  have hne : s.outstanding ≠ 0 := by
    rintro h0
    unfold Counted parcStdlibMemoryOutstanding at h
    rw [h0] at h
    exact absurd h.symm (Nat.ne_of_gt hpos)
  refine ⟨_, if_neg hne, ?_⟩
  unfold Counted parcStdlibMemoryOutstanding at h ⊢
  rw [length_erase_of_mem hp, BitVec.toNat_sub, h]
  have := s.outstanding.isLt
  show (2 ^ 32 - 1 + _) % _ = _
  omega

theorem counts_iff {call : Call} {s'} (hr : call.run A s = pure s') :
    Counts A s call ↔ Counted s' := by
  constructor
  · rintro ⟨s'', hr', hc⟩
    rw [hr, Exec.pure_inj] at hr'
    rwa [hr']
  · exact fun hc => ⟨s', hr, hc⟩

/-- A block is handed out and counted. -/
def grant (A : Allocator) (s : State) (size : Nat) : State :=
  ⟨A.fresh s.live :: s.live, Function.update s.size (A.fresh s.live) size, s.outstanding + 1⟩

theorem allocate_run (A : Allocator) (s : State) (size : Nat) (granted : Bool) :
    (Call.allocate size granted).run A s =
      pure (if size ≠ 0 ∧ granted = true then grant A s size else s) := by
  by_cases hs : size = 0
  · simp [Call.run, parcStdlibMemoryAllocate, handOut, hs]
  · cases granted <;>
      simp [Call.run, parcStdlibMemoryAllocate, handOut, block, grant, hs, A.fresh_ne_null]

theorem memAlign_run (A : Allocator) (s : State) (alignment size : Nat)
    (answer : Except Errno Bool) : (Call.memAlign alignment size answer).run A s =
      pure (if size ≠ 0 ∧ answer = .ok true then grant A s size else s) := by
  by_cases hs : size = 0
  · simp [Call.run, parcStdlibMemoryMemAlign, handOut, hs, Except.toOption]
  · rcases answer with e | _ | _ <;>
      simp [Call.run, parcStdlibMemoryMemAlign, handOut, block, grant, hs, A.fresh_ne_null,
        Except.map, Except.toOption]

theorem counted_grant (h : Counted s) {c : Prop} [Decidable c] (n : Nat) :
    Counted (if c then grant A s n else s) ↔ (c → s.live.length + 1 < 2 ^ 32) := by
  split
  · rw [grant, counted_more h rfl, imp_iff_right ‹_›]
  · exact iff_of_true h fun hc => absurd hc ‹_›

/-- A block that is not freed is asked for by NULL, or it is copied to one of its size at
most. -/
theorem reallocate_counts (h : Counted s) (newSize : Nat) (granted : Bool) :
    Counts A s (.reallocate p newSize granted) ↔ Safe s (.reallocate p newSize granted) := by
  by_cases hp : p = NULL
  · subst hp
    have hr : (Call.reallocate NULL newSize granted).run A s = pure (handOut s
        (block A s.live granted) (max newSize 1) (s.outstanding + 1)) := by
      simp [Call.run, parcStdlibMemoryReallocate, parcStdlibMemoryRplRealloc]
    rw [counts_iff hr, Safe, if_pos rfl]
    cases granted with
    | true =>
      rw [handOut, block, if_pos rfl, if_neg (A.fresh_ne_null _), counted_more h rfl]
      simp
    | false => exact iff_of_false (not_counted_more h) nofun
  · rw [Safe, if_neg hp]
    by_cases hl : p ∈ s.live
    · have hn : (if newSize = 0 then 1 else newSize) = max newSize 1 := by split <;> omega
      by_cases hs : granted = true ∧ max newSize 1 ≤ s.size p
      · obtain ⟨rfl, hle⟩ := id hs
        have hr : (Call.reallocate p newSize true).run A s = pure (handOut
            { s with live := s.live.erase p } (A.fresh s.live) (max newSize 1) s.outstanding) := by
          simp [Call.run, parcStdlibMemoryReallocate, parcStdlibMemoryRplRealloc, hp, hl, hn,
            block, A.fresh_ne_null, Nat.not_lt.mpr hle]
        rw [counts_iff hr, handOut, if_neg (A.fresh_ne_null _)]
        refine iff_of_true (h.trans ?_) fun _ => hs
        rw [length_cons, length_erase_of_mem hl]
        have := length_pos_of_mem hl
        omega
      · refine iff_of_false ?_ fun hsa => hs (hsa hl)
        rintro ⟨s', hr, -⟩
        have hf : block A s.live granted = NULL ∨ s.size p < max newSize 1 := by
          rw [not_and, Nat.not_le] at hs
          cases granted with
          | true => exact .inr (hs rfl)
          | false => exact .inl rfl
        rw [Call.run, if_pos (.inr hl), parcStdlibMemoryReallocate, parcStdlibMemoryRplRealloc,
          hn, if_pos ⟨hp, hf⟩] at hr
        exact Exec.throw_ne_pure hr
    · have hr : (Call.reallocate p newSize granted).run A s = pure s := by
        rw [Call.run, if_neg (not_or.mpr ⟨hp, hl⟩)]
      exact iff_of_true ((counts_iff hr).mpr h) fun hm => absurd hm hl

/-- **One call** returns with the right count exactly if it is safe. -/
theorem counts_iff_safe (h : Counted s) (call : Call) : Counts A s call ↔ Safe s call := by
  cases call with
  | allocate size granted =>
    rw [counts_iff (allocate_run ..), counted_grant h, and_imp]
    rfl
  | allocateAndClear size granted =>
    show Counts A s (.allocate size granted) ↔ _
    rw [counts_iff (allocate_run ..), counted_grant h, and_imp]
    rfl
  | memAlign alignment size answer =>
    rw [counts_iff (memAlign_run ..), counted_grant h, and_imp]
    rfl
  | deallocate p =>
    refine iff_of_true ?_ trivial
    by_cases hp : p ∈ s.live
    · obtain ⟨o, ho, hc⟩ := counted_less h hp
      refine ⟨_, ?_, hc⟩
      rw [Call.run, if_pos hp, ho, pure_bind]
    · exact ⟨s, by rw [Call.run, if_neg hp], h⟩
  | reallocate p newSize granted => exact reallocate_counts h newSize granted
  | stringDuplicate string length granted =>
    rw [counts_iff rfl]
    cases granted with
    | true =>
      simp only [handOut, block, if_true, A.fresh_ne_null, if_false, Safe, true_and]
      exact counted_more h rfl
    | false => exact iff_of_false (not_counted_more h) nofun

end

/-- **The count over a run**: every call returns, and after it the count is the number of the
blocks that are handed out, exactly if every call of the run is safe. -/
theorem outstanding_counted_iff (A : Allocator) (calls : List Call) :
    AllSteps (step A) (Counts A) .init calls ↔ AllSteps (step A) Safe .init calls := by
  refine allSteps_iff Counted ?_ ?_ (show Counted .init from rfl) calls
  · exact fun s call h => counts_iff_safe h call
  · intro s call h hs
    obtain ⟨s', hr, hc⟩ := (counts_iff_safe (A := A) h call).mpr hs
    rw [step, hr]
    exact hc

/-- `strndup` returns NULL: nothing is handed out, and one block is counted. -/
theorem stringDuplicate_refused :
    (step Allocator.bump .init (.stringDuplicate "a" 1 false)).live = [] ∧
      parcStdlibMemoryOutstanding
        (step Allocator.bump .init (.stringDuplicate "a" 1 false)).outstanding = 1 :=
  ⟨rfl, rfl⟩

end Libparc.StdlibMemory
