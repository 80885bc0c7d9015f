import Mathlib.Algebra.BigOperators.Group.List.Basic
import Mathlib.Data.List.Induction
import Mathlib.Order.Bounds.Basic
import Mathlib.Tactic.LinearCombination
import Mathlib.Tactic.Ring

/-! # parc_BasicStats

Running statistics of a sequence of samples. The numbers are of a type with the
operations that the code uses, so that what is compared holds for any of them; the
mean and the variance are those of the samples where the arithmetic is exact. The
count is an integer without a bound. -/
namespace Libparc.BasicStats
open List

/-- `struct PARCBasicStats`. -/
structure PARCBasicStats (D : Type) where
  count : Int
  maximum : D
  minimum : D
  mean : D
  variance : D
  deriving DecidableEq, Repr

section
variable {D : Type} [Zero D]

/-- The samples and the number the extremes start with. -/
def seeded (xs : List D) : Set D := insert 0 {x | x ∈ xs}

theorem seeded_concat (xs : List D) (x : D) : seeded (xs ++ [x]) = insert x (seeded xs) := by
  ext y
  show y = 0 ∨ y ∈ xs ++ [x] ↔ y = x ∨ y = 0 ∨ y ∈ xs
  rw [mem_append, mem_singleton, or_comm (a := y ∈ xs), or_left_comm]

variable [LinearOrder D] [Add D] [Sub D] [Mul D] [Div D] [IntCast D] (stats : PARCBasicStats D)

def parcBasicStatsCreate : PARCBasicStats D := ⟨0, 0, 0, 0, 0⟩

def parcBasicStatsUpdate (value : D) : PARCBasicStats D :=
  let count := stats.count + 1
  let xMinusOldMean := value - stats.mean
  let mean := stats.mean + xMinusOldMean / (count : D)
  let xMinusCurrentMean := value - mean
  { count
    maximum := if value > stats.maximum then value else stats.maximum
    minimum := if value < stats.minimum then value else stats.minimum
    mean
    variance := (stats.variance * ((count - 1 : Int) : D) + xMinusOldMean * xMinusCurrentMean) /
      (count : D) }

def parcBasicStatsMaximum : D := stats.maximum

def parcBasicStatsMinimum : D := stats.minimum

def parcBasicStatsRange : D := stats.maximum - stats.minimum

/-- The samples, one by one. -/
def updates (samples : List D) : PARCBasicStats D :=
  samples.foldl parcBasicStatsUpdate parcBasicStatsCreate

theorem updates_concat (xs : List D) (x : D) :
    updates (xs ++ [x]) = parcBasicStatsUpdate (updates xs) x := by
  unfold updates
  rw [foldl_append]
  rfl

/-! ## The extremes -/

theorem maximum_updates (xs : List D) : IsGreatest (seeded xs) (updates xs).maximum := by
  induction xs using reverseRecOn with
  | nil => exact ⟨.inl rfl, fun y hy => hy.elim Eq.le nofun⟩
  | append_singleton xs x ih =>
    rw [seeded_concat, updates_concat]
    have := ih.insert x
    rwa [max_comm, max_def_lt] at this

theorem minimum_updates (xs : List D) : IsLeast (seeded xs) (updates xs).minimum := by
  induction xs using reverseRecOn with
  | nil => exact ⟨.inl rfl, fun y hy => hy.elim Eq.ge nofun⟩
  | append_singleton xs x ih =>
    rw [seeded_concat, updates_concat]
    have := ih.insert x
    rwa [min_def_lt] at this

/-- The extremes are samples, none is beyond them, and the range is their
difference. -/
structure Extremes (xs : List D) (stats : PARCBasicStats D) : Prop where
  maximum : IsGreatest {x | x ∈ xs} (parcBasicStatsMaximum stats)
  minimum : IsLeast {x | x ∈ xs} (parcBasicStatsMinimum stats)
  range : ∀ greatest least, IsGreatest {x | x ∈ xs} greatest → IsLeast {x | x ∈ xs} least →
    parcBasicStatsRange stats = greatest - least

theorem isGreatest_of_insert {α : Type} [PartialOrder α] {S : Set α} {a m g : α}
    (h : IsGreatest (insert a S) m) (hg : g ∈ S) (ha : a ≤ g) : IsGreatest S m := by
  refine ⟨h.1.elim (fun hm => ?_) id, fun x hx => h.2 (.inr hx)⟩
  have he : g = m := le_antisymm (h.2 (.inr hg)) (hm ▸ ha)
  rwa [← he]

/-- **The extremes start at zero**, so they are those of the samples exactly if the
samples are not all on one side of it. -/
theorem extremes_iff (xs : List D) :
    Extremes xs (updates xs) ↔ (∃ x ∈ xs, x ≤ 0) ∧ ∃ x ∈ xs, 0 ≤ x := by
  have hmax := maximum_updates xs
  have hmin := minimum_updates xs
  constructor
  · intro h
    exact ⟨⟨_, h.minimum.1, hmin.2 (.inl rfl)⟩, ⟨_, h.maximum.1, hmax.2 (.inl rfl)⟩⟩
  · rintro ⟨⟨l, hl, hl0⟩, g, hg, hg0⟩
    have hu : IsGreatest {x | x ∈ xs} (updates xs).maximum := isGreatest_of_insert hmax hg hg0
    have hd : IsLeast {x | x ∈ xs} (updates xs).minimum :=
      @isGreatest_of_insert Dᵒᵈ _ _ _ _ _ hmin hl hl0
    refine ⟨hu, hd, fun greatest least hgr hle => ?_⟩
    rw [hgr.unique hu, hle.unique hd]
    rfl

end

/-- The smallest of one positive sample is said to be zero. -/
theorem minimum_of_positive : parcBasicStatsMinimum (updates [(5 : ℚ)]) = 0 ∧
    parcBasicStatsRange (updates [(5 : ℚ)]) = 5 ∧ ¬ Extremes [(5 : ℚ)] (updates [5]) := by
  refine ⟨by decide, sub_zero 5, fun h => ?_⟩
  exact absurd (List.mem_singleton.mp h.minimum.1) (by decide)

/-! ## The mean and the variance -/

def arithmeticMean (xs : List ℚ) : ℚ := xs.sum / xs.length

def populationVariance (xs : List ℚ) : ℚ :=
  (xs.map fun x => (x - arithmeticMean xs) ^ 2).sum / xs.length

/-- The recurrence, in the sums of the samples and of their squares. -/
structure Summed (xs : List ℚ) (stats : PARCBasicStats ℚ) : Prop where
  count : stats.count = xs.length
  mean : stats.mean * xs.length = xs.sum
  variance : stats.variance * xs.length = (xs.map (· ^ 2)).sum - stats.mean * xs.sum

theorem Summed.update {xs stats} (h : Summed xs stats) (x : ℚ) :
    Summed (xs ++ [x]) (parcBasicStatsUpdate stats x) := by
  have hn : (xs.length : ℚ) + 1 ≠ 0 := Nat.cast_add_one_ne_zero _
  obtain ⟨hc, hm, hv⟩ := h
  have hl : ((xs ++ [x]).length : ℚ) = xs.length + 1 := by
    rw [length_append, length_singleton, Nat.cast_add, Nat.cast_one]
  have hmean : (parcBasicStatsUpdate stats x).mean =
      stats.mean + (x - stats.mean) / (xs.length + 1) := by
    simp only [parcBasicStatsUpdate, hc]
    push_cast
    rfl
  have hvar : (parcBasicStatsUpdate stats x).variance = (stats.variance * xs.length +
      (x - stats.mean) * (x - (parcBasicStatsUpdate stats x).mean)) / (xs.length + 1) := by
    simp only [parcBasicStatsUpdate, hc, add_sub_cancel_right]
    push_cast
    rfl
  have hm' : (parcBasicStatsUpdate stats x).mean * (xs.length + 1) = xs.sum + x := by
    rw [hmean, add_mul, div_mul_cancel₀ _ hn]
    linear_combination hm
  refine ⟨?_, ?_, ?_⟩
  · simp [parcBasicStatsUpdate, hc]
  · rw [hl, hm', sum_append, sum_singleton]
  · rw [hl, hvar, div_mul_cancel₀ _ hn, map_append, sum_append, sum_append]
    simp only [map_cons, map_nil, sum_singleton]
    linear_combination hv + stats.mean * hm' - (parcBasicStatsUpdate stats x).mean * hm

theorem summed_updates (xs : List ℚ) : Summed xs (updates xs) := by
  induction xs using reverseRecOn with
  | nil => exact ⟨rfl, by simp, by simp [updates, parcBasicStatsCreate]⟩
  | append_singleton xs x ih =>
    rw [updates_concat]
    exact ih.update x

theorem sum_sq_sub (xs : List ℚ) (m : ℚ) : (xs.map fun x => (x - m) ^ 2).sum =
    (xs.map (· ^ 2)).sum - 2 * m * xs.sum + m ^ 2 * xs.length := by
  induction xs with
  | nil => simp
  | cons x xs ih =>
    simp only [map_cons, sum_cons, length_cons, ih]
    push_cast
    ring

theorem Summed.right {xs stats} (h : Summed xs stats) (hne : xs ≠ []) :
    stats.mean = arithmeticMean xs ∧ stats.variance = populationVariance xs := by
  have hn : (xs.length : ℚ) ≠ 0 := Nat.cast_ne_zero.mpr (mt length_eq_zero_iff.mp hne)
  have hm : stats.mean = arithmeticMean xs := eq_div_of_mul_eq hn h.mean
  refine ⟨hm, eq_div_of_mul_eq hn ?_⟩
  rw [h.variance, sum_sq_sub, ← hm]
  linear_combination -stats.mean * h.mean

theorem arithmeticMean_perm {xs ys} (h : xs.Perm ys) : arithmeticMean xs = arithmeticMean ys := by
  rw [arithmeticMean, h.sum_eq, h.length_eq]
  rfl

theorem populationVariance_perm {xs ys} (h : xs.Perm ys) :
    populationVariance xs = populationVariance ys := by
  rw [populationVariance, arithmeticMean_perm h, (h.map _).sum_eq, h.length_eq]
  rfl

/-- **In exact arithmetic** the fields are the mean and the population variance of the
samples, in whatever order they come. -/
theorem updates_mean_variance (xs : List ℚ) (hne : xs ≠ []) :
    (updates xs).mean = arithmeticMean xs ∧ (updates xs).variance = populationVariance xs ∧
      ∀ ys, xs.Perm ys → (updates ys).mean = (updates xs).mean ∧
        (updates ys).variance = (updates xs).variance := by
  obtain ⟨hm, hv⟩ := (summed_updates xs).right hne
  refine ⟨hm, hv, fun ys hp => ?_⟩
  obtain ⟨hm', hv'⟩ := (summed_updates ys).right fun he => hne (List.perm_nil.mp (he ▸ hp))
  exact ⟨by rw [hm, hm', arithmeticMean_perm hp], by rw [hv, hv', populationVariance_perm hp]⟩

theorem updates_mean_variance_two :
    (updates [1, 3]).mean = arithmeticMean [1, 3] ∧
      (updates [3, 1]).variance = (updates [(1 : ℚ), 3]).variance := by
  obtain ⟨hm, -, hp⟩ := updates_mean_variance [1, 3] (List.cons_ne_nil _ _)
  exact ⟨hm, (hp [3, 1] (.swap _ _ _)).2⟩

end Libparc.BasicStats
