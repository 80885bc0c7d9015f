import Mathlib.Data.Nat.Log
import Libparc.Algol.LinkedListCalls
import Libparc.Compare
import Libparc.Metered

/-! # parc_SortedList

A sorted list is a linked list and a comparison; `parcSortedList_Add` finds the
place of a new element by bisection. What the bisection returns is stated twice:
for a sorted list under a comparison that orders its arguments, and for a
comparison that never tells two elements apart. -/
namespace Libparc.SortedList
open LinkedList List Exec Prod

variable {α : Type}

/-- `struct PARCSortedList`. -/
structure PARCSortedList (α : Type) where
  list : PARCLinkedList α
  compare : α → α → Int

def parcSortedListCreateCompare (compare : α → α → Int) : PARCSortedList α :=
  ⟨parcLinkedListCreate, compare⟩

section
variable (list : PARCSortedList α)

def parcSortedListSize : Nat := parcLinkedListSize list.list

def parcSortedListGetFirst : Prog (Option α) :=
  parcLinkedListGetAtIndex list.list 0

def parcSortedListRemoveFirst : Prog (Option α × PARCSortedList α) := do
  let (result, l) ← parcLinkedListRemoveFirst list.list
  pure (result, { list with list := l })

def parcSortedListRemoveLast : Prog (Option α × PARCSortedList α) := do
  let (result, l) ← parcLinkedListRemoveLast list.list
  pure (result, { list with list := l })

/-- A turn of the loop of `parcSortedList_Remove`; the state is the iterator's. -/
def removeBody (equals : α → α → Bool) (list : PARCLinkedList α) (object : α) (node : Ptr) :
    Prog (Ptr ⊕ (Bool × PARCLinkedList α)) := do
  if ← iteratorHasNext list node then
    let (node, o) ← iteratorNext list node
    if equals object o then
      let (_, list) ← iteratorRemove list node
      pure (.inr (true, list))
    else pure (.inl node)
  else pure (.inr (false, list))

def parcSortedListRemove (equals : α → α → Bool) (list : PARCSortedList α) (object : α) :
    Prog (Bool × PARCSortedList α) := do
  let (result, l) ← Exec.loop (removeBody equals list.list object) NULL
  pure (result, { list with list := l })

/-- A turn of the loop of `_parcSortedList_GetInsertionIndex`, with `low` and
`high`. -/
def getInsertionIndexBody (element : α) (s : Nat × Nat) : Prog ((Nat × Nat) ⊕ Nat) := do
  let low := s.1
  let high := s.2
  let midpoint := low + (high - low) / 2
  match ← parcLinkedListGetAtIndex list.list midpoint with
  | none => throw .memoryFault
  | some e =>
    let signum := list.compare element e
    if high = low then
      pure (.inr (if signum < 0 then high else if signum > 0 then low + 1 else low))
    else if signum < 0 then pure (.inl (low, midpoint))
    else if signum > 0 then pure (.inl (midpoint + 1, high))
    else pure (.inr midpoint)

/-- `_parcSortedList_GetInsertionIndex`. -/
def getInsertionIndex (element : α) : Prog Nat :=
  if parcLinkedListSize list.list = 0 then pure 0
  else Exec.loop (getInsertionIndexBody list element) (0, parcLinkedListSize list.list - 1)

end

def parcSortedListAdd (A : Allocator) (list : PARCSortedList α) (element : α) :
    Prog (PARCSortedList α) := do
  let insertionPoint ← getInsertionIndex list element
  let size := parcLinkedListSize list.list
  assertTrue (insertionPoint ≤ size)
    s!"{insertionPoint} is bad insertion point.  Must be >=0 and <= {size}"
  let l ← parcLinkedListInsertAtIndex A list.list insertionPoint element
  pure { list with list := l }

/-! ## The bisection -/

variable {ls : PARCSortedList α} {xs : List (Ptr × α)}

theorem getInsertionIndexBody_eq (h : Threaded ls.list xs) (element : α) {low high mid}
    (hm : low + (high - low) / 2 = mid) (hlt : mid < xs.length) :
    getInsertionIndexBody ls element (low, high) =
      (let signum := ls.compare element xs[mid].2
       if high = low then
         pure (.inr (if signum < 0 then high else if signum > 0 then low + 1 else low))
       else if signum < 0 then pure (.inl (low, mid))
       else if signum > 0 then pure (.inl (mid + 1, high))
       else pure (.inr mid)) := by
  rw [getInsertionIndexBody]
  rw [hm, getAtIndex_eq h hlt, pure_bind]

theorem getInsertionIndex_of_zero (h : Threaded ls.list xs)
    (hz : ∀ a b, ls.compare a b = 0) (element : α) :
    getInsertionIndex ls element = pure ((xs.length - 1) / 2) := by
  unfold getInsertionIndex parcLinkedListSize
  rw [h.size]
  split
  · rename_i hn
    rw [hn]
  · have hm : 0 + (xs.length - 1 - 0) / 2 = (xs.length - 1) / 2 := Nat.zero_add _
    have hlt : (xs.length - 1) / 2 < xs.length := by omega
    refine loop_done ((getInsertionIndexBody_eq h element hm hlt).trans ?_)
    rw [hz]
    split
    · rename_i heq
      rw [heq]
      rfl
    · rfl

/-- The index is where the element belongs. -/
structure Placed (compare : α → α → Int) (xs : List (Ptr × α)) (element : α) (index : Nat) :
    Prop where
  le : index ≤ xs.length
  before : ∀ j (hj : j < xs.length), j < index → compare xs[j].2 element ≤ 0
  after : ∀ j (hj : j < xs.length), index ≤ j → compare element xs[j].2 ≤ 0

/-- The elements are in order. -/
def Sorted (compare : α → α → Int) (elements : List α) : Prop :=
  elements.Pairwise fun a b => compare a b ≤ 0

section
variable {cmp : α → α → Int} {e : α} {i j : Nat}

section
variable (hc : TotalCompare cmp) (h : Sorted cmp (xs.map Prod.snd)) (hij : i ≤ j)
  (hj : j < xs.length)
include hc h hij hj

theorem Sorted.getElem : cmp xs[i].2 xs[j].2 ≤ 0 := by
  rcases Nat.lt_or_eq_of_le hij with hlt | rfl
  · have := pairwise_iff_getElem.mp h i j (by rw [length_map]; omega)
      (by rwa [length_map]) hlt
    rwa [getElem_map, getElem_map] at this
  · exact Int.le_of_eq (hc.self _)

theorem Sorted.greater (hi : cmp e xs[i].2 < 0) : cmp e xs[j].2 < 0 :=
  hc.lt_of_lt_of_le hi (h.getElem hc hij hj)

theorem Sorted.smaller (he : 0 < cmp e xs[j].2) : cmp xs[i].2 e < 0 :=
  hc.lt_of_le_of_lt (h.getElem hc hij hj) ((hc.neg_iff_swap _ _).mpr he)

end

theorem Sorted.placed (hc : TotalCompare cmp) (h : Sorted cmp (xs.map snd))
    (hi : i < xs.length) (hz : cmp e xs[i].2 = 0) : Placed cmp xs e i := by
  refine ⟨Nat.le_of_lt hi, fun j hj hji => ?_, fun j hj hij => ?_⟩
  · exact hc.le_trans _ _ _ (h.getElem hc (Nat.le_of_lt hji) hi)
      (Int.le_of_eq ((hc.eq_zero_swap _ _).mp hz))
  · exact hc.le_trans _ _ _ (Int.le_of_eq hz) (h.getElem hc hij hj)

/-- The elements before `low` are smaller, those after `high` are greater. -/
structure Bisecting (compare : α → α → Int) (xs : List (Ptr × α)) (element : α)
    (low high : Nat) : Prop where
  le : low ≤ high
  lt : high < xs.length
  below : ∀ j (hj : j < xs.length), j < low → compare xs[j].2 element < 0
  above : ∀ j (hj : j < xs.length), high < j → compare element xs[j].2 < 0

namespace Bisecting
variable {low high mid : Nat}

variable (hc : TotalCompare cmp) (h : Sorted cmp (xs.map Prod.snd))
include hc h

theorem last (hb : Bisecting cmp xs e low low) (hlt : low < xs.length) :
    Placed cmp xs e (if cmp e xs[low].2 < 0 then low
      else if cmp e xs[low].2 > 0 then low + 1 else low) := by
  split
  · rename_i hn
    refine ⟨Nat.le_of_lt hlt, fun j hj hlt => ?_, fun j hj hle => ?_⟩
    · exact Int.le_of_lt (hb.below j hj hlt)
    · exact Int.le_of_lt (h.greater hc hle hj hn)
  · split
    · rename_i hp
      refine ⟨hlt, fun j hj hle => ?_, fun j hj hlt => ?_⟩
      · exact Int.le_of_lt (h.smaller hc (Nat.le_of_lt_succ hle) hlt hp)
      · exact Int.le_of_lt (hb.above j hj hlt)
    · exact h.placed hc hlt (by omega)

theorem lower (hb : Bisecting cmp xs e low high) (hm : low ≤ mid) (hlt : mid < xs.length)
    (hn : cmp e xs[mid].2 < 0) : Bisecting cmp xs e low mid :=
  ⟨hm, hlt, hb.below, fun _ hj hlt => h.greater hc (Nat.le_of_lt hlt) hj hn⟩

theorem upper (hb : Bisecting cmp xs e low high) (hm : mid < high) (hlt : mid < xs.length)
    (hp : cmp e xs[mid].2 > 0) : Bisecting cmp xs e (mid + 1) high :=
  ⟨hm, hb.lt, fun _ _ hlt' => h.smaller hc (Nat.le_of_lt_succ hlt') hlt hp, hb.above⟩

end Bisecting

end

theorem Bisecting.turn (hc : TotalCompare ls.compare) (h : Threaded ls.list xs)
    (hs : Sorted ls.compare (xs.map snd)) {e low high}
    (hb : Bisecting ls.compare xs e low high) :
    (∃ i, getInsertionIndexBody ls e (low, high) = pure (.inr i) ∧ Placed ls.compare xs e i) ∨
      ∃ low' high', getInsertionIndexBody ls e (low, high) = pure (.inl (low', high')) ∧
        Bisecting ls.compare xs e low' high' ∧ low < high ∧ high' - low' ≤ (high - low) / 2 := by
  have hle := hb.le
  have hlt := hb.lt
  obtain ⟨mid, hm⟩ : ∃ mid, low + (high - low) / 2 = mid := ⟨_, rfl⟩
  have hmi : mid < xs.length := by omega
  rw [getInsertionIndexBody_eq h e hm hmi]
  by_cases heq : high = low
  · subst heq
    have hse : mid = high := by omega
    subst hse
    rw [if_pos rfl]
    exact .inl ⟨_, rfl, hb.last hc hs hmi⟩
  · rw [if_neg heq]
    split
    · rename_i hng
      exact .inr ⟨_, _, rfl, hb.lower hc hs (by omega) hmi hng, by omega, by omega⟩
    · split
      · rename_i hp
        exact .inr ⟨_, _, rfl, hb.upper hc hs (by omega) hmi hp, by omega, by omega⟩
      · exact .inl ⟨_, rfl, hs.placed hc hmi (by omega)⟩

theorem Bisecting.all {cmp} (hn : xs.length ≠ 0) (e : α) :
    Bisecting cmp xs e 0 (xs.length - 1) := by
  refine ⟨Nat.zero_le _, by omega, fun j _ hj => absurd hj (Nat.not_lt_zero j), ?_⟩
  intro j hj hlt
  omega

/-- **The bisection** finds the place of the element in a sorted list. -/
theorem getInsertionIndex_sorted (hc : TotalCompare ls.compare) (h : Threaded ls.list xs)
    (hs : Sorted ls.compare (xs.map snd)) (element : α) :
    ∃ index, getInsertionIndex ls element = pure index ∧ Placed ls.compare xs element index := by
  unfold getInsertionIndex parcLinkedListSize
  rw [h.size]
  split
  · exact ⟨0, rfl, Nat.zero_le _, fun j _ hj => absurd hj (Nat.not_lt_zero j),
      fun j hj => absurd hj (by omega)⟩
  · refine loop_variant (fun m s => s.2 - s.1 = m ∧ Bisecting ls.compare xs element s.1 s.2)
      (Placed ls.compare xs element) ?_ ⟨rfl, .all ‹_› element⟩
    rintro m ⟨low, high⟩ ⟨rfl, hb⟩
    rcases hb.turn hc h hs with hr | ⟨low', high', ht, hb', hlt, hle⟩
    · exact .inl hr
    · exact .inr ⟨_, _, ht, ⟨rfl, hb'⟩, by dsimp only; omega⟩

/-! ## Its probes -/

/-- A turn of the bisection that notes which element it reads. -/
def probedBody (list : PARCSortedList α) (element : α) (s : Nat × Nat) :
    Exec.Metered (List Nat) Trap ((Nat × Nat) ⊕ Nat) := do
  modify ((s.1 + (s.2 - s.1) / 2) :: ·)
  liftM (getInsertionIndexBody list element s)

def probedIndex (list : PARCSortedList α) (element : α) : Exec.Metered (List Nat) Trap Nat :=
  if parcLinkedListSize list.list = 0 then pure 0
  else Exec.meteredLoop (probedBody list element) (0, parcLinkedListSize list.list - 1)

theorem probedIndex_erases (list : PARCSortedList α) (element : α) :
    Exec.Erases (probedIndex list element) (getInsertionIndex list element) := by
  unfold probedIndex getInsertionIndex
  split
  · exact .pure 0
  · exact .loop (fun s => .tick _ (.lift _)) _

/-- The probes that are noted, and those that the elements which are left allow. -/
structure Probed (xs : List (Ptr × α)) (probes : List Nat) (left : Nat) : Prop where
  length : probes.length + left ≤ Nat.clog 2 xs.length + 1
  inside : ∀ p ∈ probes, p < xs.length

theorem Probed.turn {probes low high e cmp} (hb : Bisecting cmp xs e low high)
    (hp : Probed xs probes (Nat.clog 2 (high - low + 1) + 1)) {left}
    (hl : left ≤ Nat.clog 2 (high - low + 1)) :
    Probed xs ((low + (high - low) / 2) :: probes) left := by
  have hle := hb.le
  have hlt := hb.lt
  refine ⟨?_, forall_mem_cons.mpr ⟨by omega, hp.inside⟩⟩
  have := hp.length
  rw [length_cons]
  omega

theorem probedIndex_probed (hc : TotalCompare ls.compare) (h : Threaded ls.list xs)
    (hs : Sorted ls.compare (xs.map snd)) {e i probes}
    (hr : probedIndex ls e [] = pure (i, probes)) : Probed xs probes 0 := by
  unfold probedIndex parcLinkedListSize at hr
  rw [h.size] at hr
  split at hr
  · obtain ⟨-, rfl⟩ := metered_pure_eq_pure.mp hr
    exact ⟨Nat.zero_le _, fun _ hp => by cases hp⟩
  · rename_i hn
    refine meteredLoop_invariant
      (fun s m => Bisecting ls.compare xs e s.1 s.2 ∧ Probed xs m (Nat.clog 2 (s.2 - s.1 + 1) + 1))
      (fun _ m => Probed xs m 0) ?_ ⟨.all hn e, ?_, fun _ hp => by cases hp⟩ hr
    · rintro ⟨low, high⟩ m ⟨hb, hp⟩
      rcases hb.turn hc h hs with ⟨r, ht, -⟩ | ⟨low', high', ht, hb', hlt, hle⟩
      · exact .inl ⟨r, _, metered_lift_eq_pure.mpr ⟨ht, rfl⟩, hp.turn hb (Nat.zero_le _)⟩
      · refine .inr ⟨_, _, metered_lift_eq_pure.mpr ⟨ht, rfl⟩, hb', hp.turn hb ?_⟩
        -- half of the elements need one probe less
        rw [Nat.clog_of_two_le (Nat.le_refl 2) (show 2 ≤ high - low + 1 by omega)]
        exact Nat.succ_le_succ (Nat.clog_mono_right 2 (by dsimp only; omega))
    · dsimp only
      rw [Nat.sub_zero, Nat.sub_add_cancel (Nat.one_le_iff_ne_zero.mpr hn), length_nil,
        Nat.zero_add]

theorem Placed.sorted {cmp e i} (hp : Placed cmp xs e i) (h : Sorted cmp (xs.map snd)) (q : Ptr) :
    Sorted cmp ((xs.take i ++ (q, e) :: xs.drop i).map snd) := by
  have hs := h
  rw [← take_append_drop i xs, map_append] at hs
  obtain ⟨ht, hdrop, hc⟩ := pairwise_append.mp hs
  have hbe : ∀ a ∈ (xs.take i).map snd, cmp a e ≤ 0 := by
    intro a ha
    obtain ⟨x, hx, rfl⟩ := mem_map.mp ha
    obtain ⟨j, hj, rfl⟩ := mem_take_iff_getElem.mp hx
    exact hp.before j (by omega) (by omega)
  have haf : ∀ a ∈ (xs.drop i).map snd, cmp e a ≤ 0 := by
    intro a ha
    obtain ⟨x, hx, rfl⟩ := mem_map.mp ha
    obtain ⟨j, hj, rfl⟩ := mem_drop_iff_getElem.mp hx
    exact hp.after (i + j) (by omega) (Nat.le_add_right _ _)
  rw [map_append, map_cons]
  refine pairwise_append.mpr ⟨ht, pairwise_cons.mpr ⟨haf, hdrop⟩, fun a ha b hb => ?_⟩
  rcases mem_cons.mp hb with rfl | hb
  · exact hbe a ha
  · exact hc a ha b hb

/-- **The search**: it returns an index between 0 and the size after at most
`⌈log₂ size⌉ + 1` probes, all of them inside the list, and the list with the element
at that index is sorted. -/
theorem getInsertionIndex_probes (hc : TotalCompare ls.compare) (h : Threaded ls.list xs)
    (hs : Sorted ls.compare (xs.map Prod.snd)) (element : α) :
    ∃ index probes, getInsertionIndex ls element = pure index ∧
      probedIndex ls element [] = pure (index, probes) ∧
      probes.length ≤ Nat.clog 2 xs.length + 1 ∧ (∀ p ∈ probes, p < xs.length) ∧
      index ≤ xs.length ∧ Sorted ls.compare ((xs.map Prod.snd).take index ++
        element :: (xs.map Prod.snd).drop index) := by
  obtain ⟨i, hi, hp⟩ := getInsertionIndex_sorted hc h hs element
  obtain ⟨probes, hm⟩ := (probedIndex_erases ls element).run hi []
  have hpr := probedIndex_probed hc h hs hm
  refine ⟨i, probes, hi, hm, hpr.length, hpr.inside, hp.le, ?_⟩
  have := hp.sorted hs NULL
  rwa [List.map_append, List.map_cons, List.map_take, List.map_drop] at this

/-- The place of 4 after 2 and 3. -/
theorem getInsertionIndex_probes_two : ∃ (ls : PARCSortedList Int) (xs : List (Ptr × Int)),
    xs.map Prod.snd = [2, 3] ∧ ∃ index probes, getInsertionIndex ls 4 = pure index ∧
      probedIndex ls 4 [] = pure (index, probes) ∧ probes.length ≤ Nat.clog 2 xs.length + 1 := by
  obtain ⟨l, q, -, h, -⟩ := insertAtIndex_zero (A := Allocator.bump) Threaded.create (3 : Int)
  obtain ⟨l', q', -, h', -⟩ := insertAtIndex_zero (A := Allocator.bump) h 2
  have hs : Sorted (fun a b : Int => a - b) [2, 3] := by
    unfold Sorted
    decide
  have ht : Threaded (⟨l', fun a b => a - b⟩ : PARCSortedList Int).list [(q', 2), (q, 3)] := h'
  obtain ⟨i, probes, hi, hp, hle, -⟩ := getInsertionIndex_probes totalCompare_sub ht hs 4
  exact ⟨_, _, rfl, i, probes, hi, hp, hle⟩

theorem add_eq (A : Allocator) {element n} (h : Threaded ls.list xs)
    (hi : getInsertionIndex ls element = pure n) (hle : n ≤ xs.length) :
    parcSortedListAdd A ls element = (do
      let l ← parcLinkedListInsertAtIndex A ls.list n element
      pure { ls with list := l }) := by
  have hassert : decide (n ≤ parcLinkedListSize ls.list) = true := by
    rw [parcLinkedListSize, h.size]
    exact decide_eq_true hle
  rw [parcSortedListAdd, hi, pure_bind]
  dsimp only
  rw [assertTrue_of hassert, pure_bind]

end Libparc.SortedList
