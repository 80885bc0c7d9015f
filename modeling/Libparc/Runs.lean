import Mathlib.Data.List.Basic

/-! # Runs between separators

`runs sep l` are the maximal runs of `l` without the separator, in their order: what stands
between two separators, as far as it is not empty. A reader that skips separators and then takes
all up to the next one finds them one by one (`runs_skip`, `runs_take`), and a list of runs is
found again in its elements with one separator between any two (`runs_intercalate`). -/
namespace Libparc.Runs
open List

variable {α : Type} [DecidableEq α] {sep : α}

def runs (sep : α) (l : List α) : List (List α) := (l.splitOn sep).filter (· ≠ [])

@[simp] theorem runs_nil : runs sep [] = [] := rfl

theorem runs_append_sep (l m : List α) : runs sep (l ++ sep :: m) = runs sep l ++ runs sep m := by
  rw [runs, splitOn_append_cons_self, filter_append]
  rfl

@[simp] theorem runs_sep (l : List α) : runs sep (sep :: l) = runs sep l := runs_append_sep [] l

theorem runs_self {run} (hne : run ≠ []) (hs : sep ∉ run) : runs sep run = [run] := by
  rw [runs, splitOn_eq_singleton hs, filter_cons_of_pos (by simpa using hne)]
  rfl

theorem eq_of_mem_runs {l run} (hs : sep ∉ l) (h : run ∈ runs sep l) : run = l ∧ l ≠ [] := by
  have hne : l ≠ [] := by
    intro hl
    rw [hl] at h
    exact absurd h not_mem_nil
  rw [runs_self hne hs] at h
  exact ⟨mem_singleton.mp h, hne⟩

theorem runs_skip {l} (m : List α) (h : ∀ a ∈ l, a = sep) : runs sep (l ++ m) = runs sep m := by
  induction l with
  | nil => rfl
  | cons a l ih =>
    cases h a (.head _)
    rw [cons_append, runs_sep, ih fun b hb => h b (.tail _ hb)]

theorem runs_take {run m} (hne : run ≠ []) (hs : sep ∉ run)
    (hm : m = [] ∨ m.head? = some sep) : runs sep (run ++ m) = run :: runs sep m := by
  rcases hm with rfl | hm
  · rw [append_nil, runs_self hne hs, runs_nil]
  · obtain ⟨m, rfl⟩ := head?_eq_some_iff.mp hm
    rw [runs_append_sep, runs_self hne hs, runs_sep, singleton_append]

theorem runs_intercalate {l} (hne : ∀ run ∈ l, run ≠ [])
    (hs : ∀ run ∈ l, sep ∉ run) : runs sep ([sep].intercalate l) = l := by
  by_cases hl : l = []
  · rw [hl]
    rfl
  · rw [runs, splitOn_intercalate sep hs hl, filter_eq_self]
    exact fun run hr => decide_eq_true (hne run hr)

theorem exists_split (sep : α) (l : List α) :
    ∃ run m, l = run ++ m ∧ sep ∉ run ∧ (m = [] ∨ m.head? = some sep) := by
  induction l with
  | nil => exact ⟨[], [], rfl, not_mem_nil, .inl rfl⟩
  | cons a l ih =>
    by_cases ha : a = sep
    · exact ⟨[], a :: l, rfl, not_mem_nil, .inr (by rw [ha]; rfl)⟩
    · obtain ⟨run, m, rfl, hs, hm⟩ := ih
      refine ⟨a :: run, m, rfl, ?_, hm⟩
      rw [mem_cons, not_or]
      exact ⟨fun heq => ha heq.symm, hs⟩

/-- **The runs are the parts without a separator that cannot be made longer.** -/
theorem mem_runs_iff {l run} : run ∈ runs sep l ↔ run ≠ [] ∧ sep ∉ run ∧
    ∃ u v, l = u ++ run ++ v ∧ (u = [] ∨ u.getLast? = some sep) ∧
      (v = [] ∨ v.head? = some sep) := by
  constructor
  · intro hr
    -- the part in front of the first separator is a run, or the run is behind that separator
    induction hle : l.length using Nat.strongRecOn generalizing l with
    | ind n ih =>
      obtain ⟨part, m, rfl, hs, hm⟩ := exists_split sep l
      rcases hm with rfl | hm
      · rw [append_nil] at hr
        obtain ⟨rfl, hne⟩ := eq_of_mem_runs hs hr
        exact ⟨hne, hs, [], [], by simp, .inl rfl, .inl rfl⟩
      · obtain ⟨m, rfl⟩ := head?_eq_some_iff.mp hm
        rw [runs_append_sep, mem_append] at hr
        rcases hr with hr | hr
        · obtain ⟨rfl, hne⟩ := eq_of_mem_runs hs hr
          exact ⟨hne, hs, [], sep :: m, by simp, .inl rfl, .inr rfl⟩
        · obtain ⟨hne, hs', u, v, rfl, hu, hv⟩ := ih m.length (by simp [← hle]; omega) hr rfl
          refine ⟨hne, hs', part ++ sep :: u, v, by simp, .inr ?_, hv⟩
          rcases hu with rfl | hu
          · simp
          · obtain ⟨u, rfl⟩ := getLast?_eq_some_iff.mp hu
            rw [← cons_append, ← append_assoc, getLast?_concat]
  · intro ⟨hne, hs, u, v, hl, hu, hv⟩
    have hr : run ∈ runs sep (run ++ v) := by
      rw [runs_take hne hs hv]
      exact (.head _)
    rcases hu with rfl | hu
    · rwa [hl, nil_append]
    · obtain ⟨u, rfl⟩ := getLast?_eq_some_iff.mp hu
      rw [hl, append_assoc, append_assoc, singleton_append, runs_append_sep]
      exact mem_append_right _ hr

end Libparc.Runs
