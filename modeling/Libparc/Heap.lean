import Libparc.Compare

/-! # Binary heaps in a list

The children of position `i` are `2 * i + 1` and `2 * i + 2`. A list is a heap
when no element is below its parent; the element at the root is then minimal.
While one element moves up or down, the edges at its position are the only
ones out of order (`Rising`, `Sinking`), and a swap with the parent, or with the
smaller child, moves the defect along. -/
namespace Libparc.Heap
open List

variable {α : Type} {cmp : α → α → Int} {l : List α} {i j k c : Nat} (compare : α → α → Int)

def parent (i : Nat) : Nat := (i - 1) / 2

theorem parent_lt (h : 0 < i) : parent i < i := by
  unfold parent
  omega

theorem parent_eq_iff (h : 0 < i) : parent i = k ↔ i = 2 * k + 1 ∨ i = 2 * k + 2 := by
  unfold parent
  omega

/-- Exchange the elements at two positions. -/
def swap (l : List α) (i j : Nat) : List α :=
  match l[i]?, l[j]? with
  | some a, some b => (l.set i b).set j a
  | _, _ => l

@[simp] theorem length_swap : (swap l i j).length = l.length := by
  unfold swap
  split <;> simp

theorem swap_perm : (swap l i j).Perm l := by
  unfold swap
  split
  · rename_i a b ha hb
    obtain ⟨hi, rfl⟩ := List.getElem?_eq_some_iff.mp ha
    obtain ⟨hj, rfl⟩ := List.getElem?_eq_some_iff.mp hb
    exact List.set_set_perm hi hj
  · exact .refl _

theorem getElem?_swap (hi : i < l.length) (hj : j < l.length) :
    (swap l i j)[k]? = if k = j then l[i]? else if k = i then l[j]? else l[k]? := by
  unfold swap
  rw [getElem?_eq_getElem hi, getElem?_eq_getElem hj]
  rw [getElem?_set, length_set, getElem?_set, if_pos hj, if_pos hi]
  simp only [eq_comm]

/-- The element at `i` is not above the one at `j`, where both exist. -/
def Le (l : List α) (i j : Nat) : Prop :=
  ∀ a b, l[i]? = some a → l[j]? = some b → compare a b ≤ 0

/-- The element at `i` is below the one at `j`. -/
def less (l : List α) (i j : Nat) : Bool :=
  match l[i]?, l[j]? with
  | some a, some b => compare a b < 0
  | _, _ => false

theorem Le.congr {l' i' j'} (h : Le cmp l i j) (hi : l'[i']? = l[i]?)
    (hj : l'[j']? = l[j]?) : Le cmp l' i' j' := by
  intro a b ha hb
  exact h a b (hi ▸ ha) (hj ▸ hb)

theorem Le.trans (hc : TotalCompare cmp) (hj : j < l.length) (h : Le cmp l i j)
    (h' : Le cmp l j k) : Le cmp l i k := by
  intro a b ha hb
  have hjg := getElem?_eq_getElem hj
  exact hc.le_trans _ _ _ (h a _ ha hjg) (h' _ b hjg hb)

theorem Le.refl (hc : TotalCompare cmp) : Le cmp l i i := by
  intro a b ha hb
  rw [ha] at hb
  cases hb
  exact Int.le_of_eq (hc.self a)

theorem le_of_less (h : less cmp l i j = true) : Le cmp l i j := by
  intro a b ha hb
  simp only [less, ha, hb, decide_eq_true_eq] at h
  exact Int.le_of_lt h

theorem le_of_not_less (hc : TotalCompare cmp) (h : less cmp l i j = false) : Le cmp l j i := by
  intro a b ha hb
  simp only [less, ha, hb, decide_eq_false_iff_not] at h
  have := hc.neg_iff_swap b a
  omega

theorem less_of_le_of_less (hcm : TotalCompare cmp) (hi : i < l.length)
    (h : Le cmp l i j) (h' : less cmp l j k = true) : less cmp l i k = true := by
  unfold less at h' ⊢
  split at h'
  · rename_i b c hb hc
    rw [getElem?_eq_getElem hi, hc]
    rw [decide_eq_true_eq] at h' ⊢
    exact hcm.lt_of_le_of_lt (h _ b (getElem?_eq_getElem hi) hb) h'
  · cases h'

theorem lt_length_of_less (h : less cmp l i j = true) : i < l.length ∧ j < l.length := by
  unfold less at h
  split at h
  · rename_i a b ha hb
    exact ⟨(List.getElem?_eq_some_iff.mp ha).1, (List.getElem?_eq_some_iff.mp hb).1⟩
  · cases h

/-- No element is below its parent. -/
def IsHeap (l : List α) : Prop :=
  ∀ i, 0 < i → Le compare l (parent i) i

/-- Only the edge into `k` may be out of order, and the children of `k` are not
below its parent. -/
structure Rising (compare : α → α → Int) (k : Nat) (l : List α) : Prop where
  edges : ∀ i, 0 < i → i ≠ k → Le compare l (parent i) i
  across : 0 < k → ∀ i, 0 < i → parent i = k → Le compare l (parent k) i

/-- Only the edges out of `k` may be out of order, and the children of `k` are
not below its parent. -/
structure Sinking (compare : α → α → Int) (k : Nat) (l : List α) : Prop where
  edges : ∀ i, 0 < i → parent i ≠ k → Le compare l (parent i) i
  across : 0 < k → ∀ i, 0 < i → parent i = k → Le compare l (parent k) i

theorem IsHeap.root_le (hc : TotalCompare cmp) (h : IsHeap cmp l) (hi : i < l.length) :
    Le cmp l 0 i := by
  induction i using Nat.strongRecOn with
  | ind i ih =>
    rcases Nat.eq_zero_or_pos i with rfl | hp
    · exact .refl hc
    · have hlt := parent_lt hp
      exact (ih (parent i) hlt (by omega)).trans hc (by omega) (h i hp)

theorem IsHeap.minimal (hc : TotalCompare cmp) (h : IsHeap cmp l) {a b}
    (ha : l[0]? = some a) (hb : b ∈ l) : cmp a b ≤ 0 := by
  obtain ⟨i, hi⟩ := mem_iff_getElem?.mp hb
  exact h.root_le hc (List.getElem?_eq_some_iff.mp hi).1 a b ha hi

theorem IsHeap.take (h : IsHeap cmp l) (n : Nat) : IsHeap cmp (l.take n) := by
  intro i hi a b ha hb
  rw [getElem?_take] at ha hb
  split at ha <;> split at hb
  · exact h i hi a b ha hb
  · cases hb
  · cases ha
  · cases ha

theorem IsHeap.rising_append (h : IsHeap cmp l) (x : α) : Rising cmp l.length (l ++ [x]) := by
  refine ⟨fun i hi hne => ?_, fun _ i hi hp => ?_⟩
  · intro a b ha hb
    have hl : i < l.length := by
      have := (List.getElem?_eq_some_iff.mp hb).1
      rw [length_append, length_singleton] at this
      omega
    have hlt := parent_lt hi
    rw [getElem?_append_left (by omega)] at ha
    rw [getElem?_append_left hl] at hb
    exact h i hi a b ha hb
  · intro a b _ hb
    have hlt := parent_lt hi
    have := (List.getElem?_eq_some_iff.mp hb).1
    rw [length_append, length_singleton] at this
    omega

theorem IsHeap.sinking_set (h : IsHeap cmp l) (x : α) : Sinking cmp 0 (l.set 0 x) := by
  refine ⟨fun i hi hp => ?_, fun h0 => absurd h0 (Nat.lt_irrefl 0)⟩
  refine (h i hi).congr ?_ ?_
  · rw [getElem?_set, if_neg (Ne.symm hp)]
  · rw [getElem?_set, if_neg (by omega)]

theorem Rising.isHeap (hc : TotalCompare cmp) (h : Rising cmp k l)
    (hk : ¬ (0 < k ∧ less cmp l k (parent k) = true)) : IsHeap cmp l := by
  intro i hi
  rcases eq_or_ne i k with rfl | hne
  · refine le_of_not_less hc ?_
    rw [← Bool.not_eq_true]
    exact fun hlt => hk ⟨hi, hlt⟩
  · exact h.edges i hi hne

theorem Sinking.isHeap (h : Sinking cmp k l) (hk : l.length ≤ 2 * k + 1) : IsHeap cmp l := by
  intro i hi
  by_cases hp : parent i = k
  · intro a b _ hb
    have := (List.getElem?_eq_some_iff.mp hb).1
    have := (parent_eq_iff hi).mp hp
    omega
  · exact h.edges i hi hp

theorem Rising.step (hc : TotalCompare cmp) (h : Rising cmp k l) (hk : 0 < k)
    (hl : less cmp l k (parent k) = true) : Rising cmp (parent k) (swap l k (parent k)) := by
  obtain ⟨hkl, hpl⟩ := lt_length_of_less hl
  have hpk := parent_lt hk
  have hg : ∀ j, (swap l k (parent k))[j]? =
      if j = parent k then l[k]? else if j = k then l[parent k]? else l[j]? :=
    fun j => getElem?_swap hkl hpl
  have hd := le_of_less hl
  constructor
  · intro i hi hne
    have hi' : (swap l k (parent k))[i]? = if i = k then l[parent k]? else l[i]? := by
      rw [hg, if_neg hne]
    by_cases hik : i = k
    · subst hik
      exact hd.congr ((hg _).trans (if_pos rfl)) (hi'.trans (if_pos rfl))
    rw [if_neg hik] at hi'
    by_cases hpi : parent i = k
    · exact (h.across hk i hi hpi).congr (by rw [hg, if_neg (by omega), if_pos hpi]) hi'
    by_cases hs : parent i = parent k
    · -- the sibling has the new parent above it
      have hold : Le cmp l (parent k) i := hs ▸ h.edges i hi hik
      exact (hd.trans hc hpl hold).congr (by rw [hg, if_pos hs]) hi'
    · exact (h.edges i hi hik).congr (by rw [hg, if_neg hs, if_neg hpi]) hi'
  · intro hp i hi hpi
    have hpp := parent_lt hp
    have hlt := parent_lt hi
    have hup := h.edges (parent k) hp (by omega)
    have hr : (swap l k (parent k))[parent (parent k)]? = l[parent (parent k)]? := by
      rw [hg, if_neg (by omega), if_neg (by omega)]
    have hi' : (swap l k (parent k))[i]? = if i = k then l[parent k]? else l[i]? := by
      rw [hg, if_neg (by omega)]
    by_cases hik : i = k
    · exact hup.congr hr (hi'.trans (if_pos hik))
    · have hold : Le cmp l (parent k) i := hpi ▸ h.edges i hi hik
      exact (hup.trans hc hpl hold).congr hr (hi'.trans (if_neg hik))

theorem Sinking.step (h : Sinking cmp k l) (hc : 0 < c) (hpc : parent c = k)
    (hl : less cmp l c k = true) (hs : ∀ i, 0 < i → parent i = k → Le cmp l c i) :
    Sinking cmp c (swap l c k) := by
  obtain ⟨hcl, hkl⟩ := lt_length_of_less hl
  have hkc : k < c := hpc ▸ parent_lt hc
  have hg : ∀ j, (swap l c k)[j]? =
      if j = k then l[c]? else if j = c then l[k]? else l[j]? :=
    fun j => getElem?_swap hcl hkl
  constructor
  · intro i hi hne
    have hlt := parent_lt hi
    by_cases hik : i = k
    · -- the edge into the place that the child moved to
      subst hik
      exact (h.across hi c hc hpc).congr
        (by rw [hg, if_neg (by omega), if_neg (by omega)]) (by rw [hg, if_pos rfl])
    by_cases hpi : parent i = k
    · have ht : (swap l c k)[parent i]? = l[c]? := by rw [hg, if_pos hpi]
      by_cases hic : i = c
      · exact (le_of_less hl).congr ht (by rw [hg, if_neg hik, if_pos hic])
      · exact (hs i hi hpi).congr ht (by rw [hg, if_neg hik, if_neg hic])
    · have hic : i ≠ c := fun hic => hpi (hic ▸ hpc)
      exact (h.edges i hi hpi).congr (by rw [hg, if_neg hpi, if_neg hne])
        (by rw [hg, if_neg hik, if_neg hic])
  · intro _ i hi hpi
    have hlt := parent_lt hi
    have hold : Le cmp l c i := hpi ▸ h.edges i hi (by omega)
    exact hold.congr (by rw [hg, if_pos hpc]) (by rw [hg, if_neg (by omega), if_neg (by omega)])

end Libparc.Heap
