import Mathlib.Data.Multiset.AddSub
import Libparc.Heap
import Libparc.Runtime

/-! # parc_PriorityQueue

A binary min-heap in an array. The elements in use are a list, whose length is
the queue's `size`; what lies between `size` and `capacity` is never read.

A queue is a bag of elements from which the minimal one is taken
(`runCalls_heap`), for as long as `_trickleDown` ends: its loop has no exit for
an element that has a child and stays where it is, so it only ends when the
element sinks to the bottom (`poll_returns_iff`). -/
namespace Libparc.PriorityQueue
open Heap Exec
open Multiset (add_cons coe_eq_coe cons_add cons_coe mem_coe ofList)
open List hiding swap getElem?_eq_some_iff

variable {E : Type}

/-- `struct parc_priority_queue`. -/
structure PARCPriorityQueue (E : Type) where
  array : List E
  capacity : Nat
  deriving DecidableEq, Repr

def PARCPriorityQueue.size (queue : PARCPriorityQueue E) : Nat := queue.array.length

def leftChildIndex (elementIndex : Nat) : Nat := 2 * elementIndex + 1

def rightChildIndex (elementIndex : Nat) : Nat := 2 * elementIndex + 2

/-- Only used below the root, where the subtraction does not wrap. -/
def parentIndex (elementIndex : Nat) : Nat := (elementIndex - 1) / 2

section
variable (compare : E → E → Int) (queue : PARCPriorityQueue E) (array : List E)

def trickleRightChild (elementIndex leftChildIndex rightChildIndex : Nat) : List E × Nat :=
  if less compare array rightChildIndex elementIndex then
    if less compare array rightChildIndex leftChildIndex then
      (swap array rightChildIndex elementIndex, rightChildIndex)
    else (swap array leftChildIndex elementIndex, leftChildIndex)
  else (array, elementIndex)

def trickleLeftChild (elementIndex leftChildIndex : Nat) : List E × Nat :=
  if less compare array leftChildIndex elementIndex then
    (swap array leftChildIndex elementIndex, leftChildIndex)
  else (array, elementIndex)

/-- A turn of `_trickleDown`. -/
def trickleDownBody : List E × Nat → Prog (List E × Nat ⊕ List E)
  | (array, elementIndex) =>
    if rightChildIndex elementIndex < array.length then
      pure (.inl (trickleRightChild compare array elementIndex (leftChildIndex elementIndex)
        (rightChildIndex elementIndex)))
    else if leftChildIndex elementIndex < array.length then
      pure (.inl (trickleLeftChild compare array elementIndex (leftChildIndex elementIndex)))
    else pure (.inr array)

def trickleDown (elementIndex : Nat) : Prog (List E) :=
  Exec.loop (trickleDownBody compare) (array, elementIndex)

/-- A turn of `_bubbleUp`. -/
def bubbleUpBody : List E × Nat → Prog (List E × Nat ⊕ List E)
  | (array, elementIndex) =>
    if elementIndex > 0 ∧ less compare array elementIndex (parentIndex elementIndex) then
      pure (.inl (swap array elementIndex (parentIndex elementIndex), parentIndex elementIndex))
    else pure (.inr array)

def bubbleUp (elementIndex : Nat) : Prog (List E) :=
  Exec.loop (bubbleUpBody compare) (array, elementIndex)

def parcPriorityQueueCreate : PARCPriorityQueue E := ⟨[], 128⟩

def parcPriorityQueueAdd (data : Option E) : Prog (PARCPriorityQueue E × Bool) := do
  let data ← assertNotNull data "Parameter data must be non-null"
  -- `_expand` doubles the capacity
  let capacity := if queue.size + 1 > queue.capacity then queue.capacity * 2 else queue.capacity
  let array ← bubbleUp compare (queue.array ++ [data]) queue.size
  pure (⟨array, capacity⟩, true)

def parcPriorityQueuePeek : Option E := queue.array[0]?

def parcPriorityQueuePoll : Prog (PARCPriorityQueue E × Option E) :=
  let size := queue.size - 1
  match queue.array[0]?, queue.array[size]? with
  | some data, some last => do
    let array ← trickleDown compare ((queue.array.take size).set 0 last) 0
    pure ({ queue with array }, some data)
  | _, _ => pure (queue, none)

/-! ## Runs, and the bag they refine -/

inductive Call (E : Type) where
  | add (data : E)
  | poll
  | peek

/-- What a call returns. -/
inductive Result (E : Type) where
  | added (success : Bool)
  | element (data : Option E)
  deriving DecidableEq, Repr

def Call.run : Call E → Prog (PARCPriorityQueue E × Result E)
  | .add data => do
    let (queue, success) ← parcPriorityQueueAdd compare queue (some data)
    pure (queue, .added success)
  | .poll => do
    let (queue, data) ← parcPriorityQueuePoll compare queue
    pure (queue, .element data)
  | .peek => pure (queue, .element (parcPriorityQueuePeek queue))

end

def runCalls (compare : E → E → Int) : PARCPriorityQueue E → List (Call E) →
    Prog (PARCPriorityQueue E × List (Result E))
  | queue, [] => pure (queue, [])
  | queue, call :: calls => do
    let (queue, result) ← call.run compare queue
    let (queue, results) ← runCalls compare queue calls
    pure (queue, result :: results)

/-- What a call may do to a bag of elements, and return. -/
inductive Call.Spec (compare : E → E → Int) :
    Multiset E → Call E → Result E → Multiset E → Prop where
  | add (held : Multiset E) (x : E) : Spec compare held (.add x) (.added true) (x ::ₘ held)
  | pollEmpty : Spec compare 0 .poll (.element none) 0
  | poll (held : Multiset E) (x : E) (minimal : ∀ y ∈ x ::ₘ held, compare x y ≤ 0) :
      Spec compare (x ::ₘ held) .poll (.element (some x)) held
  | peekEmpty : Spec compare 0 .peek (.element none) 0
  | peek (held : Multiset E) (x : E) (mem : x ∈ held) (minimal : ∀ y ∈ held, compare x y ≤ 0) :
      Spec compare held .peek (.element (some x)) held

inductive SpecCalls (compare : E → E → Int) :
    Multiset E → List (Call E) → List (Result E) → Multiset E → Prop where
  | nil (held : Multiset E) : SpecCalls compare held [] [] held
  | cons {held held1 held2 : Multiset E} {call : Call E} {result : Result E}
      {calls : List (Call E)} {results : List (Result E)}
      (head : call.Spec compare held result held1)
      (tail : SpecCalls compare held1 calls results held2) :
      SpecCalls compare held (call :: calls) (result :: results) held2

/-- The elements that the calls add. -/
def addedBy : List (Call E) → Multiset E
  | [] => 0
  | .add x :: calls => x ::ₘ addedBy calls
  | _ :: calls => addedBy calls

/-- The elements that the calls poll, from what they return. -/
def polledBy : List (Call E) → List (Result E) → Multiset E
  | .poll :: calls, .element (some x) :: results => x ::ₘ polledBy calls results
  | _ :: calls, _ :: results => polledBy calls results
  | _, _ => 0

theorem SpecCalls.balance {compare held held' cs} {results : List (Result E)}
    (h : SpecCalls compare held cs results held') :
    held + addedBy cs = held' + polledBy cs results := by
  induction h with
  | nil held => rfl
  | cons head _ ih =>
    cases head with
    | add held x =>
      simp only [addedBy, polledBy]
      rw [add_cons, ← cons_add, ih]
    | pollEmpty | peekEmpty | peek held x _ _ => exact ih
    | poll held x _ =>
      simp only [addedBy, polledBy]
      rw [cons_add, ih, add_cons]

section
variable {compare : E → E → Int} (hcmp : TotalCompare compare)
variable {array : List E} {queue q' : PARCPriorityQueue E}
include hcmp

/-! ## Bubbling up and trickling down -/

variable {k : Nat}

theorem bubbleUp_spec (h : Rising compare k array) :
    ∃ a', bubbleUp compare array k = pure a' ∧ IsHeap compare a' ∧ a'.Perm array := by
  refine loop_variant (fun m s => s.2 = m ∧ Rising compare s.2 s.1 ∧ s.1.Perm array)
    (fun a' => IsHeap compare a' ∧ a'.Perm array) ?_ ⟨rfl, h, .refl _⟩
  rintro m ⟨l, i⟩ ⟨rfl, hr, hp⟩
  by_cases hup : i > 0 ∧ less compare l i (parentIndex i) = true
  · refine .inr ⟨_, parent i, if_pos hup, ⟨rfl, hr.step hcmp hup.1 hup.2, ?_⟩, parent_lt hup.1⟩
    exact swap_perm.trans hp
  · exact .inl ⟨l, if_neg hup, hr.isHeap hcmp hup, hp⟩

theorem trickleRightChild_sinking (h : Sinking compare k array)
    (hr : rightChildIndex k < array.length) :
    Sinking compare (trickleRightChild compare array k (leftChildIndex k) (rightChildIndex k)).2
      (trickleRightChild compare array k (leftChildIndex k) (rightChildIndex k)).1 := by
  have hc : ∀ i, 0 < i → parent i = k → i = leftChildIndex k ∨ i = rightChildIndex k :=
    fun i hi hp => (parent_eq_iff hi).mp hp
  unfold trickleRightChild
  split
  · rename_i hl
    split
    · rename_i hrl
      refine h.step (Nat.succ_pos _) ((parent_eq_iff (Nat.succ_pos _)).mpr (.inr rfl)) hl ?_
      intro i hi hp
      rcases hc i hi hp with rfl | rfl
      · exact le_of_less hrl
      · exact .refl hcmp
    · rename_i hrl
      have hle : Le compare array (leftChildIndex k) (rightChildIndex k) :=
        le_of_not_less hcmp (Bool.eq_false_iff.mpr hrl)
      have hlt : leftChildIndex k < array.length := Nat.lt_of_succ_lt hr
      refine h.step (Nat.succ_pos _) ((parent_eq_iff (Nat.succ_pos _)).mpr (.inl rfl))
        (less_of_le_of_less hcmp hlt hle hl) ?_
      intro i hi hp
      rcases hc i hi hp with rfl | rfl
      · exact .refl hcmp
      · exact hle
  · exact h

theorem trickleLeftChild_sinking (h : Sinking compare k array)
    (hr : array.length ≤ rightChildIndex k) :
    Sinking compare (trickleLeftChild compare array k (leftChildIndex k)).2
      (trickleLeftChild compare array k (leftChildIndex k)).1 := by
  unfold trickleLeftChild
  split
  · rename_i hl
    refine h.step (Nat.succ_pos _) ((parent_eq_iff (Nat.succ_pos _)).mpr (.inl rfl)) hl ?_
    intro i hi hp
    rcases (parent_eq_iff hi).mp hp with rfl | rfl
    · exact .refl hcmp
    · intro a b _ hb
      exact absurd (List.getElem?_eq_some_iff.mp hb).1 (Nat.not_lt_of_le hr)
  · exact h

omit hcmp in
theorem trickleRightChild_perm (k l r : Nat) :
    (trickleRightChild compare array k l r).1.Perm array := by
  unfold trickleRightChild
  split
  · split
    all_goals exact swap_perm
  · exact .refl _

omit hcmp in
theorem trickleLeftChild_perm (k l : Nat) : (trickleLeftChild compare array k l).1.Perm array := by
  unfold trickleLeftChild
  split
  · exact swap_perm
  · exact .refl _

omit hcmp in
theorem trickleDownBody_right (h : rightChildIndex k < array.length) :
    trickleDownBody compare (array, k) = pure (.inl
      (trickleRightChild compare array k (leftChildIndex k) (rightChildIndex k))) := if_pos h

omit hcmp in
theorem trickleDownBody_left (hr : ¬ rightChildIndex k < array.length)
    (hl : leftChildIndex k < array.length) : trickleDownBody compare (array, k) =
      pure (.inl (trickleLeftChild compare array k (leftChildIndex k))) :=
  (if_neg hr).trans (if_pos hl)

omit hcmp in
theorem trickleDownBody_leaf (hl : ¬ leftChildIndex k < array.length) :
    trickleDownBody compare (array, k) = pure (.inr array) :=
  (if_neg fun hr => hl (Nat.lt_of_succ_lt hr)).trans (if_neg hl)

/-- **When `_trickleDown` ends**, it leaves a heap of the same elements. -/
theorem trickleDown_spec {a'} (h : Sinking compare 0 array)
    (hru : trickleDown compare array 0 = pure a') : IsHeap compare a' ∧ a'.Perm array := by
  refine loop_invariant (fun s : List E × Nat => Sinking compare s.2 s.1 ∧ s.1.Perm array)
    (fun a' => IsHeap compare a' ∧ a'.Perm array) ?_ ⟨h, .refl _⟩ hru
  rintro ⟨l, k⟩ x ⟨hs, hp⟩ hst
  by_cases hr : rightChildIndex k < l.length
  · rw [trickleDownBody_right hr, pure_inj] at hst
    subst hst
    exact ⟨trickleRightChild_sinking hcmp hs hr, (trickleRightChild_perm _ _ _).trans hp⟩
  by_cases hl : leftChildIndex k < l.length
  · rw [trickleDownBody_left hr hl, pure_inj] at hst
    subst hst
    exact ⟨trickleLeftChild_sinking hcmp hs (Nat.le_of_not_lt hr),
      (trickleLeftChild_perm _ _).trans hp⟩
  · rw [trickleDownBody_leaf hl, pure_inj] at hst
    subst hst
    exact ⟨hs.isHeap (Nat.le_of_not_lt hl), hp⟩

/-! ## One call -/

omit hcmp in
theorem perm_move_last {x last} (hx : array[0]? = some x)
    (hl : array[array.length - 1]? = some last) :
    array.Perm (x :: (array.take (array.length - 1)).set 0 last) := by
  cases array with
  | nil => cases hx
  | cons y ys =>
    cases hx
    rcases eq_nil_or_concat ys with rfl | ⟨zs, z, rfl⟩
    · exact .refl _
    · simp only [concat_eq_append] at hl ⊢
      have hz : z = last := by simpa using hl
      subst hz
      have ht : (x :: (zs ++ [z])).take ((x :: (zs ++ [z])).length - 1) = x :: zs := by
        rw [length_cons, length_append, length_singleton, Nat.add_sub_cancel,
          take_succ_cons, take_left]
      rw [ht, set_cons_zero, perm_cons]
      exact perm_append_singleton z zs

omit hcmp in
theorem poll_eq {x last} (hx : queue.array[0]? = some x)
    (hl : queue.array[queue.array.length - 1]? = some last) :
    parcPriorityQueuePoll compare queue = (do
      let array ← trickleDown compare ((queue.array.take (queue.array.length - 1)).set 0 last) 0
      pure ({ queue with array }, some x)) := by
  simp only [parcPriorityQueuePoll, PARCPriorityQueue.size, hx, hl]

omit hcmp in
theorem poll_nil (hn : queue.array = []) :
    parcPriorityQueuePoll compare queue = pure (queue, none) := by
  simp only [parcPriorityQueuePoll, hn, getElem?_nil]

omit hcmp in
theorem nil_or_ends (array : List E) : array = [] ∨
    ∃ x last, array[0]? = some x ∧ array[array.length - 1]? = some last := by
  cases array with
  | nil => exact .inl rfl
  | cons x xs => exact .inr ⟨x, _, rfl, getElem?_eq_getElem (by simp)⟩

/-- The elements fit in the array, as a heap. -/
structure QueueInv (compare : E → E → Int) (queue : PARCPriorityQueue E) : Prop where
  isHeap : IsHeap compare queue.array
  size_le : queue.size ≤ queue.capacity
  capacity_pos : 0 < queue.capacity

omit hcmp in
theorem QueueInv.room (h : QueueInv compare queue) : queue.size + 1 ≤
    (if queue.size + 1 > queue.capacity then queue.capacity * 2 else queue.capacity) := by
  have := h.size_le
  have := h.capacity_pos
  split <;> omega

theorem add_spec (h : QueueInv compare queue) (x : E) :
    ∃ q', parcPriorityQueueAdd compare queue (some x) = pure (q', true) ∧
      QueueInv compare q' ∧ q'.array.Perm (x :: queue.array) := by
  obtain ⟨a', hr, hh, hp⟩ := bubbleUp_spec hcmp (h.isHeap.rising_append x)
  refine ⟨⟨a', if queue.size + 1 > queue.capacity then queue.capacity * 2
    else queue.capacity⟩, ?_, ⟨hh, ?_, ?_⟩, hp.trans (perm_append_singleton _ _)⟩
  · simp only [parcPriorityQueueAdd, assertNotNull_some, pure_bind, PARCPriorityQueue.size, hr]
  · refine Nat.le_trans (Nat.le_of_eq ?_) h.room
    rw [PARCPriorityQueue.size, hp.length_eq, length_append]
    rfl
  · exact Nat.lt_of_lt_of_le (Nat.succ_pos _) h.room

theorem Call.run_spec {call : Call E} {r} (h : QueueInv compare queue)
    (hr : call.run compare queue = pure (q', r)) :
    QueueInv compare q' ∧ call.Spec compare ↑queue.array r ↑q'.array := by
  cases call with
  | add x =>
    obtain ⟨q1, ha, hi, hp⟩ := add_spec hcmp h x
    simp only [Call.run, ha, pure_bind, pure_inj] at hr
    cases hr
    refine ⟨hi, ?_⟩
    rw [coe_eq_coe.mpr hp, ← cons_coe]
    exact .add _ x
  | poll =>
    rcases nil_or_ends queue.array with hn | ⟨x, last, hx, hl⟩
    · simp only [Call.run, poll_nil hn, pure_bind, pure_inj] at hr
      cases hr
      rw [hn]
      exact ⟨h, .pollEmpty⟩
    · simp only [Call.run, poll_eq hx hl, bind_assoc, pure_bind] at hr
      obtain ⟨a', ht, heq⟩ := bind_eq_pure.mp hr
      cases heq
      obtain ⟨hh, hp⟩ := trickleDown_spec hcmp ((h.isHeap.take _).sinking_set last) ht
      have hal : queue.array.Perm (x :: a') := (perm_move_last hx hl).trans (hp.symm.cons x)
      refine ⟨⟨hh, ?_, h.capacity_pos⟩, ?_⟩
      · have hle := hal.length_eq
        have := h.size_le
        simp only [PARCPriorityQueue.size, length_cons] at *
        omega
      · rw [coe_eq_coe.mpr hal, ← cons_coe]
        refine .poll _ x fun y hy => h.isHeap.minimal hcmp hx ?_
        exact hal.mem_iff.mpr hy
  | peek =>
    simp only [Call.run, parcPriorityQueuePeek, pure_inj] at hr
    cases hr
    refine ⟨h, ?_⟩
    rcases nil_or_ends queue.array with hn | ⟨x, last, hx, _⟩
    · rw [hn]
      exact .peekEmpty
    · rw [hx]
      exact .peek _ x (mem_coe.mpr (mem_of_getElem? hx))
        fun y hy => h.isHeap.minimal hcmp hx (mem_coe.mp hy)

theorem runCalls_spec : ∀ (cs : List (Call E)) {queue : PARCPriorityQueue E}
    {rs}, QueueInv compare queue → runCalls compare queue cs = pure (q', rs) →
    QueueInv compare q' ∧ SpecCalls compare ↑queue.array cs rs ↑q'.array
  | [], queue, rs, h, hr => by
    cases hr
    exact ⟨h, .nil _⟩
  | call :: cs, queue, rs, h, hr => by
    obtain ⟨⟨q1, r⟩, hc, hr⟩ := bind_eq_pure.mp hr
    obtain ⟨⟨q2, rs2⟩, hca, heq⟩ := bind_eq_pure.mp hr
    cases heq
    obtain ⟨h1, hs⟩ := call.run_spec hcmp h hc
    obtain ⟨h2, hsp⟩ := runCalls_spec cs h1 hca
    exact ⟨h2, .cons hs hsp⟩

omit hcmp in
theorem queueInv_create : QueueInv compare (parcPriorityQueueCreate : PARCPriorityQueue E) := by
  refine ⟨fun i _ a b ha => ?_, Nat.zero_le _, show 0 < 128 by decide⟩
  cases ha

/-- **A priority queue is a bag from which the minimal element is taken**: a
run of calls that return leaves a heap that holds what was added and not
polled, and every `Poll` and `Peek` returned a minimal element of those held at
the time, or NULL when there was none. -/
theorem runCalls_heap (calls : List (Call E)) {results : List (Result E)}
    (hrun : runCalls compare parcPriorityQueueCreate calls = pure (queue, results)) :
    IsHeap compare queue.array ∧ addedBy calls = ↑queue.array + polledBy calls results ∧
      SpecCalls compare 0 calls results ↑queue.array ∧ queue.size ≤ queue.capacity := by
  obtain ⟨hi, hs⟩ := runCalls_spec hcmp calls queueInv_create hrun
  refine ⟨hi.isHeap, ?_, hs, hi.size_le⟩
  rw [← hs.balance]
  exact (Multiset.zero_add _).symm

end

/-- Two numbers, of which the smaller is polled and the other one seen. -/
theorem runCalls_heap_two : IsHeap (fun a b : Int => a - b) [3] ∧
    addedBy [.add (3 : Int), .add 1, .poll, .peek] = ofList [3] +
      polledBy [.add 3, .add 1, .poll, .peek]
        [.added true, .added true, .element (some 1), .element (some 3)] := by
  have h1 : bubbleUp (fun a b : Int => a - b) [3] 0 = pure [3] := loop_done rfl
  have h2 : bubbleUp (fun a b : Int => a - b) [3, 1] 1 = pure [1, 3] :=
    (loop_next rfl).trans (loop_done rfl)
  have h3 : trickleDown (fun a b : Int => a - b) [3] 0 = pure [3] := loop_done rfl
  have hr : runCalls (fun a b : Int => a - b) parcPriorityQueueCreate
      [.add 3, .add 1, .poll, .peek] = pure (⟨[3], 128⟩,
        [.added true, .added true, .element (some 1), .element (some 3)]) := by
    simp [runCalls, Call.run, parcPriorityQueueCreate, parcPriorityQueueAdd,
      PARCPriorityQueue.size, parcPriorityQueuePoll, parcPriorityQueuePeek, h1, h2, h3]
  exact ⟨(runCalls_heap totalCompare_sub _ hr).1, (runCalls_heap totalCompare_sub _ hr).2.1⟩

/-! ## When a `Poll` ends -/

/-- An element `x` that trickles down from `k` reaches the bottom of the tree:
it goes to the smaller child, and on its way every right child, or left child
that has no sibling, is below `x`. -/
inductive SinksFrom (compare : E → E → Int) (array : List E) (x : E) : Nat → Prop where
  | leaf {k : Nat} (h : array.length ≤ leftChildIndex k) : SinksFrom compare array x k
  | left {k : Nat} {l : E} (hr : array.length ≤ rightChildIndex k)
      (hl : array[leftChildIndex k]? = some l) (hx : compare l x < 0)
      (next : SinksFrom compare array x (leftChildIndex k)) : SinksFrom compare array x k
  | right {k : Nat} {l r : E} (hl : array[leftChildIndex k]? = some l)
      (hr : array[rightChildIndex k]? = some r) (hx : compare r x < 0)
      (next : SinksFrom compare array x
        (if compare r l < 0 then rightChildIndex k else leftChildIndex k)) :
      SinksFrom compare array x k

section
variable {cmp : E → E → Int} {arr l : List E} {x : E} {k c : Nat}

theorem lt_leftChildIndex (k : Nat) : k < leftChildIndex k := by
  unfold leftChildIndex
  omega

theorem lt_rightChildIndex (k : Nat) : k < rightChildIndex k :=
  Nat.lt_succ_of_lt (lt_leftChildIndex k)

theorem lt_child {p : Prop} [Decidable p] (k : Nat) :
    k < if p then rightChildIndex k else leftChildIndex k := by
  split
  · exact lt_rightChildIndex k
  · exact lt_leftChildIndex k

/-- The element `x` has come down to `k`, and nothing below has changed. -/
structure Trickling (array : List E) (x : E) (l : List E) (k : Nat) : Prop where
  length : l.length = array.length
  here : k < array.length → l[k]? = some x
  below : ∀ i, k < i → l[i]? = array[i]?

theorem Trickling.swap (h : Trickling arr x l k) (hk : k < c) (hc : c < arr.length) :
    Trickling arr x (swap l c k) c := by
  have hg : ∀ i, (Heap.swap l c k)[i]? =
      if i = k then l[c]? else if i = c then l[k]? else l[i]? :=
    fun i => getElem?_swap (by rw [h.length]; exact hc) (by rw [h.length]; omega)
  refine ⟨length_swap.trans h.length, fun _ => ?_, fun i hi => ?_⟩
  · rw [hg, if_neg (by omega), if_pos rfl]
    exact h.here (by omega)
  · rw [hg, if_neg (by omega), if_neg (by omega)]
    exact h.below i (by omega)

variable {a : E}

section
variable (h : Trickling arr x l k)
include h

theorem Trickling.less_iff (hk : k < arr.length) (hc : k < c)
    (ha : arr[c]? = some a) : less cmp l c k = true ↔ cmp a x < 0 := by
  rw [less, h.here hk, h.below c hc, ha, decide_eq_true_eq]

theorem Trickling.less_below {i j b} (hi : k < i)
    (hj : k < j) (ha : arr[i]? = some a) (hb : arr[j]? = some b) :
    less cmp l i j = decide (cmp a b < 0) := by
  rw [less, h.below i hi, h.below j hj, ha, hb]

theorem Trickling.rightChild {b}
    (ha : arr[leftChildIndex k]? = some a) (hb : arr[rightChildIndex k]? = some b) :
    trickleRightChild cmp l k (leftChildIndex k) (rightChildIndex k) = if cmp b x < 0 then
        (Heap.swap l (if cmp b a < 0 then rightChildIndex k else leftChildIndex k) k,
          if cmp b a < 0 then rightChildIndex k else leftChildIndex k) else (l, k) := by
  have hlt := lt_rightChildIndex k
  have hl := (List.getElem?_eq_some_iff.mp hb).1
  simp only [trickleRightChild, h.less_iff (by omega) hlt hb,
    h.less_below hlt (lt_leftChildIndex k) hb ha, decide_eq_true_eq]
  split_ifs <;> rfl

theorem Trickling.leftChild (ha : arr[leftChildIndex k]? = some a) :
    trickleLeftChild cmp l k (leftChildIndex k) =
      if cmp a x < 0 then (Heap.swap l (leftChildIndex k) k, leftChildIndex k) else (l, k) := by
  have hlt := lt_leftChildIndex k
  have hl := (List.getElem?_eq_some_iff.mp ha).1
  simp only [trickleLeftChild, h.less_iff (by omega) hlt ha]

end

theorem trickleDown_returns (hs : SinksFrom cmp arr x k) :
    ∀ {l}, Trickling arr x l k → (trickleDown cmp l k).Returns := by
  induction hs with
  | leaf hl =>
    intro l h
    refine ⟨l, loop_done (trickleDownBody_leaf ?_)⟩
    rw [h.length]
    exact Nat.not_lt_of_le hl
  | @left k a hr ha hx _ ih =>
    intro l h
    have hle := (List.getElem?_eq_some_iff.mp ha).1
    have hbo : trickleDownBody cmp (l, k) =
        pure (.inl (Heap.swap l (leftChildIndex k) k, leftChildIndex k)) := by
      rw [trickleDownBody_left (by rw [h.length]; omega) (by rw [h.length]; exact hle),
        h.leftChild ha, if_pos hx]
    obtain ⟨l', hl'⟩ := ih (h.swap (lt_leftChildIndex k) hle)
    exact ⟨l', (loop_next hbo).trans hl'⟩
  | @right k a b ha hb hx _ ih =>
    intro l h
    have hla := (List.getElem?_eq_some_iff.mp ha).1
    have hlb := (List.getElem?_eq_some_iff.mp hb).1
    have hbo : trickleDownBody cmp (l, k) = _ := trickleDownBody_right (by rw [h.length]; exact hlb)
    rw [h.rightChild ha hb, if_pos hx] at hbo
    obtain ⟨l', hl'⟩ := ih (h.swap (lt_child k) (by split <;> assumption))
    exact ⟨l', (loop_next hbo).trans hl'⟩

theorem trickleDown_diverges (hs : ¬ SinksFrom cmp arr x k) (h : Trickling arr x l k) :
    ¬ (trickleDown cmp l k).Returns := by
  refine loop_diverges
    (fun s : List E × Nat => Trickling arr x s.1 s.2 ∧ ¬ SinksFrom cmp arr x s.2) ?_ ⟨h, hs⟩
  rintro ⟨l, k⟩ ⟨h, hs⟩
  by_cases hle : arr.length ≤ leftChildIndex k
  · exact absurd (.leaf hle) hs
  have hl := Nat.lt_of_not_le hle
  have ha := getElem?_eq_getElem hl
  by_cases hr : rightChildIndex k < arr.length
  · have hb := getElem?_eq_getElem hr
    refine ⟨_, trickleDownBody_right (by rw [h.length]; exact hr), ?_⟩
    rw [h.rightChild ha hb]
    split
    · rename_i hx
      refine ⟨h.swap (lt_child k) ?_, fun hn => hs (.right ha hb hx hn)⟩
      split
      · exact hr
      · exact hl
    · exact ⟨h, hs⟩
  · refine ⟨_, trickleDownBody_left (by rw [h.length]; exact hr) (by rw [h.length]; exact hl), ?_⟩
    rw [h.leftChild ha]
    split
    · rename_i hx
      exact ⟨h.swap (lt_leftChildIndex k) hl, fun hn => hs (.left (Nat.le_of_not_lt hr) ha hx hn)⟩
    · exact ⟨h, hs⟩

theorem trickling_start {x} (arr : List E) : Trickling arr x (arr.set 0 x) 0 := by
  refine ⟨length_set, fun h => ?_, fun i hi => ?_⟩
  · rw [getElem?_set, if_pos rfl, if_pos h]
  · rw [getElem?_set, if_neg (by omega)]

end

/-- **When a `Poll` returns**: the queue is empty, or its last element sinks
from the root to the bottom of the tree of the others. -/
theorem poll_returns_iff (compare : E → E → Int) (queue : PARCPriorityQueue E) :
    (parcPriorityQueuePoll compare queue).Returns ↔
      ∀ last, queue.array[queue.array.length - 1]? = some last →
        SinksFrom compare (queue.array.take (queue.array.length - 1)) last 0 := by
  rcases nil_or_ends queue.array with hn | ⟨x, last, hx, hl⟩
  · refine ⟨fun _ last hl => ?_, fun _ => ⟨_, poll_nil hn⟩⟩
    rw [hn] at hl
    cases hl
  · rw [poll_eq hx hl, hl]
    constructor
    · rintro ⟨r, hr⟩ _ ⟨⟩
      obtain ⟨array, ha, _⟩ := bind_eq_pure.mp hr
      by_contra hs
      exact trickleDown_diverges hs (trickling_start _) ⟨array, ha⟩
    · intro h
      obtain ⟨array, ha⟩ := trickleDown_returns (h last rfl) (trickling_start _)
      exact ⟨_, bind_eq_pure.mpr ⟨array, ha, rfl⟩⟩

/-- Three equal elements: the last one cannot move below the second. -/
theorem poll_of_equal_diverges : TotalCompare (fun a b : Int => a - b) ∧
    ∃ queue results, runCalls (fun a b : Int => a - b) parcPriorityQueueCreate
        [.add 1, .add 1, .add 1] = pure (queue, results) ∧
      ¬ (parcPriorityQueuePoll (fun a b : Int => a - b) queue).Returns := by
  have h1 : bubbleUp (fun a b : Int => a - b) [1] 0 = pure [1] := loop_done rfl
  have h2 : bubbleUp (fun a b : Int => a - b) [1, 1] 1 = pure [1, 1] := loop_done rfl
  have h3 : bubbleUp (fun a b : Int => a - b) [1, 1, 1] 2 = pure [1, 1, 1] := loop_done rfl
  refine ⟨totalCompare_sub, ⟨[1, 1, 1], 128⟩, [.added true, .added true, .added true], ?_, ?_⟩
  · simp [runCalls, Call.run, parcPriorityQueueCreate, parcPriorityQueueAdd,
      PARCPriorityQueue.size, h1, h2, h3]
  · rintro ⟨r, hr⟩
    obtain ⟨array, ha, _⟩ := bind_eq_pure.mp hr
    exact loop_diverges (fun s => s = ([1, 1], 0))
      (fun s hs => ⟨([1, 1], 0), by rw [hs]; rfl, rfl⟩) rfl ⟨array, ha⟩

end Libparc.PriorityQueue
