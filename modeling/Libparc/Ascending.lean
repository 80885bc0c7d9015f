import Mathlib.Data.List.Forall2
import Mathlib.Data.Option.Defs
import Libparc.Compare

/-! # Association lists in ascending key order

Lists of entries whose keys increase strictly under a comparison, with the
operations of an ordered map on them. What a lookup finds after an operation
is stated for every key (`find_insert`, `find_remove`), so two maps that start
alike and see the same operations stay alike. -/
namespace Libparc.Ascending
open List

variable {ε κ : Type} (key : ε → κ) (compare : κ → κ → Int)

/-- The keys increase strictly. -/
def Sorted (l : List ε) : Prop := l.Pairwise fun a b => compare (key a) (key b) < 0

/-- The entry with an equal key. -/
def find (k : κ) (l : List ε) : Option ε := l.find? fun a => compare (key a) k == 0

/-- Put an entry where its key belongs, in place of one with an equal key. -/
def insert (e : ε) : List ε → List ε
  | [] => [e]
  | a :: l =>
    if compare (key a) (key e) < 0 then a :: insert e l
    else if compare (key a) (key e) = 0 then e :: l
    else e :: a :: l

/-- Take out the entry with an equal key. -/
def remove (k : κ) (l : List ε) : List ε := l.filter fun a => compare (key a) k != 0

/-- The first entry with a greater key. -/
def next (k : κ) (l : List ε) : Option ε := l.find? fun a => compare k (key a) < 0

variable {key compare} {e : ε} {k : κ} {l l1 l2 : List ε}

theorem insert_between (h1 : ∀ a ∈ l1, compare (key a) (key e) < 0)
    (h2 : ∀ a ∈ l2, compare (key a) (key e) > 0) :
    insert key compare e (l1 ++ l2) = l1 ++ e :: l2 := by
  induction l1 with
  | nil =>
    cases l2 with
    | nil => rfl
    | cons a l2 =>
      have := h2 a (by simp)
      rw [nil_append, insert, if_neg (by omega), if_neg (by omega)]
      rfl
  | cons a l1 ih =>
    rw [cons_append, insert, if_pos (h1 a (by simp)), ih fun b hb => h1 b (by simp [hb])]
    rfl

variable {a : ε}

section
variable (h : TotalCompare compare) (hs : Sorted key compare (l1 ++ a :: l2))
include h hs

theorem Sorted.less_of_eq (ha : compare (key a) k = 0) :
    (∀ b ∈ l1, compare (key b) k < 0) ∧ ∀ b ∈ l2, compare (key b) k > 0 := by
  unfold Sorted at hs
  rw [pairwise_append, pairwise_cons] at hs
  obtain ⟨_, ⟨ha2, _⟩, ha1⟩ := hs
  refine ⟨fun b hb => ?_, fun b hb => ?_⟩
  · exact (h.neg_congr_right ha _).mp (ha1 b hb a (by simp))
  · have hka := (h.eq_zero_swap _ _).mp ha
    have hlt := h.lt_of_le_of_lt (Int.le_of_eq hka) (ha2 b hb)
    exact (h.pos_iff_swap _ _).mpr hlt

theorem insert_equal
    (ha : compare (key a) (key e) = 0) : insert key compare e (l1 ++ a :: l2) = l1 ++ e :: l2 := by
  have hl := (hs.less_of_eq h ha).1
  clear hs
  induction l1 with
  | nil => rw [nil_append, insert, if_neg (by omega), if_pos ha]; rfl
  | cons b l1 ih =>
    rw [cons_append, insert, if_pos (hl b (by simp)), ih fun c hc => hl c (by simp [hc])]
    rfl

theorem remove_equal
    (ha : compare (key a) k = 0) : remove key compare k (l1 ++ a :: l2) = l1 ++ l2 := by
  obtain ⟨h1, h2⟩ := hs.less_of_eq h ha
  have hk : ∀ {m : List ε}, (∀ b ∈ m, compare (key b) k ≠ 0) →
      m.filter (fun a => compare (key a) k != 0) = m := by
    intro m hm
    exact filter_eq_self.mpr fun b hb => by simpa using hm b hb
  have hdrop : (compare (key a) k != 0) = false := by simpa using ha
  rw [remove, filter_append, filter_cons, hdrop,
    hk fun b hb => Int.ne_of_lt (h1 b hb), hk fun b hb => (Int.ne_of_lt (h2 b hb)).symm]
  rfl

end

theorem remove_absent (hn : ∀ a ∈ l, compare (key a) k ≠ 0) : remove key compare k l = l :=
  filter_eq_self.mpr fun a ha => by simpa using hn a ha

theorem find_equal (h : TotalCompare compare) (hs : Sorted key compare (l1 ++ a :: l2))
    (ha : compare (key a) k = 0) : find key compare k (l1 ++ a :: l2) = some a := by
  obtain ⟨h1, _⟩ := hs.less_of_eq h ha
  unfold find
  rw [find?_append, find?_eq_none.mpr fun b hb => ?_]
  · simp [ha]
  · have := h1 b hb
    simp only [beq_iff_eq]
    omega

theorem find_self (h : TotalCompare compare) (hs : Sorted key compare l) (he : e ∈ l) :
    find key compare (key e) l = some e := by
  obtain ⟨l1, l2, rfl⟩ := append_of_mem he
  exact find_equal h hs (h.self _)

theorem find_isSome : (find key compare k l).isSome ↔ ∃ a ∈ l, compare (key a) k = 0 := by
  simp [find, find?_isSome]

theorem find_absent (hn : ∀ a ∈ l, compare (key a) k ≠ 0) : find key compare k l = none :=
  find?_eq_none.mpr fun a ha => by simpa using hn a ha

theorem next_equal (h : TotalCompare compare) (hs : Sorted key compare (l1 ++ a :: l2))
    (ha : compare (key a) k = 0) : next key compare k (l1 ++ a :: l2) = l2.head? := by
  obtain ⟨hl, hg⟩ := hs.less_of_eq h ha
  have hka := (h.eq_zero_swap _ _).mp ha
  have hn : l1.find? (fun b => decide (compare k (key b) < 0)) = none := by
    refine find?_eq_none.mpr fun b hb hlt => ?_
    have := (h.neg_iff_swap _ _).mp (hl b hb)
    have := of_decide_eq_true hlt
    omega
  have hse : ¬ compare k (key a) < 0 := by omega
  rw [next, find?_append, hn, Option.none_or, find?_cons, decide_eq_false hse]
  cases l2 with
  | nil => rfl
  | cons b l2 =>
    have hb := (h.pos_iff_swap _ _).mp (hg b (.head _))
    exact find?_cons_of_pos (decide_eq_true hb)

theorem next_eq_some (hs : Sorted key compare l) (hn : next key compare k l = some e) :
    e ∈ l ∧ compare k (key e) < 0 ∧
      ∀ a ∈ l, compare k (key a) < 0 → a = e ∨ compare (key e) (key a) < 0 := by
  obtain ⟨hlt, l1, l2, rfl, hb⟩ := find?_eq_some_iff_append.mp hn
  refine ⟨by simp, of_decide_eq_true hlt, fun a ha hka => ?_⟩
  obtain ha | ha := mem_append.mp ha
  · have hna := hb a ha
    rw [decide_eq_true hka] at hna
    cases hna
  · obtain rfl | ha := mem_cons.mp ha
    · exact .inl rfl
    · exact .inr ((pairwise_cons.mp (pairwise_append.mp hs).2.1).1 a ha)

theorem next_eq_none (hn : next key compare k l = none) : ∀ a ∈ l, ¬ compare k (key a) < 0 := by
  intro a ha hlt
  exact find?_eq_none.mp hn a ha (decide_eq_true hlt)

theorem Sorted.reverse (hs : Sorted key compare l) :
    Sorted key (fun a b => compare b a) l.reverse := pairwise_reverse.mpr hs

theorem find_cons (a : ε) (l : List ε) (k : κ) : find key compare k (a :: l) =
    if compare (key a) k = 0 then some a else find key compare k l := by
  unfold find
  by_cases h : compare (key a) k = 0
  · simp [h]
  · simp [h, beq_eq_false_iff_ne.mpr h]

/-- **A lookup after an insertion.** -/
theorem find_insert (h : TotalCompare compare) (e : ε) (k : κ) :
    ∀ l : List ε, find key compare k (insert key compare e l) =
      if compare (key e) k = 0 then some e else find key compare k l
  | [] => find_cons e [] k
  | a :: l => by
    rw [insert]
    split_ifs with h1 h2 h3 h4
    · have hak : compare (key a) k ≠ 0 := fun ha => by
        have := (h.zero_congr_right h2 (key a)).mpr ha
        omega
      rw [find_cons, if_neg hak, find_insert h e k l, if_pos h2]
    · rw [find_cons, find_cons, find_insert h e k l, if_neg h2]
    · rw [find_cons, if_pos h4]
    · rw [find_cons, if_neg h4, find_cons, if_neg fun ha => h4 ((h.zero_congr_left h3 k).mp ha)]
    · rw [find_cons, if_pos ‹_›]
    · rw [find_cons, if_neg ‹_›]

/-- **A lookup after a removal.** -/
theorem find_remove (h : TotalCompare compare) (k0 k : κ) :
    ∀ l : List ε, find key compare k (remove key compare k0 l) =
      if compare k0 k = 0 then none else find key compare k l
  | [] => by simp [find, remove]
  | a :: l => by
    have ih := find_remove h k0 k l
    unfold remove at ih ⊢
    by_cases ha : compare (key a) k0 = 0
    · rw [filter_cons_of_neg (by simpa using ha), ih, find_cons]
      by_cases hk : compare k0 k = 0
      · rw [if_pos hk, if_pos hk]
      · rw [if_neg hk, if_neg hk, if_neg fun hak => hk ((h.zero_congr_left ha k).mp hak)]
    · rw [filter_cons_of_pos (by simpa using ha), find_cons, find_cons, ih]
      by_cases hk : compare k0 k = 0
      · rw [if_pos hk, if_neg fun hak => ha ((h.zero_congr_right hk _).mpr hak), if_pos hk]
      · rw [if_neg hk, if_neg hk]

/-! ## Two lists with the same lookups -/

variable {R : ε → ε → Prop} {a b : ε}

section
variable (h : TotalCompare compare) (hs : Sorted key compare (a :: l))
include h hs

theorem Sorted.find_tail (hk : compare (key a) k = 0) : find key compare k l = none := by
  refine find_absent fun b hb heq => ?_
  have hs' : Sorted key compare ([] ++ a :: l) := hs
  have hgt := (hs'.less_of_eq h hk).2 b hb
  omega

theorem Sorted.head_le (hk : (find key compare k (a :: l)).isSome) : compare (key a) k ≤ 0 := by
  obtain ⟨c, hc, heq⟩ := find_isSome.mp hk
  obtain rfl | hc := mem_cons.mp hc
  · exact Int.le_of_eq heq
  · have hlt := (pairwise_cons.mp hs).1 c hc
    exact Int.le_of_lt ((h.neg_congr_right heq _).mp hlt)

end

theorem isSome_of_rel {x y} (h : Option.Rel R x y) : x.isSome = y.isSome := by
  cases h <;> rfl

section
variable (h : TotalCompare compare) (hs1 : Sorted key compare (a :: l1))
  (hs2 : Sorted key compare (b :: l2))
include h hs1 hs2

theorem compare_heads
    (hf : ∀ k, Option.Rel R (find key compare k (a :: l1)) (find key compare k (b :: l2))) :
    compare (key a) (key b) = 0 := by
  have hab := hs1.head_le (k := key b) h
    (by rw [isSome_of_rel (hf _), find_self h hs2 mem_cons_self]; rfl)
  have hba := hs2.head_le (k := key a) h
    (by rw [← isSome_of_rel (hf _), find_self h hs1 mem_cons_self]; rfl)
  have := h.neg_iff_swap (key a) (key b)
  omega

theorem find_rel_cons (hab : compare (key a) (key b) = 0) :
    (∀ k, Option.Rel R (find key compare k (a :: l1)) (find key compare k (b :: l2))) ↔
      R a b ∧ ∀ k, Option.Rel R (find key compare k l1) (find key compare k l2) := by
  constructor
  · intro hf
    refine ⟨?_, fun k => ?_⟩
    · have hb := hf (key b)
      rw [find_cons, if_pos hab, find_cons, if_pos (h.self _)] at hb
      cases hb
      assumption
    · by_cases hk : compare (key a) k = 0
      · rw [hs1.find_tail h hk, hs2.find_tail h ((h.zero_congr_left hab k).mp hk)]
        exact .none
      · have hr := hf k
        rwa [find_cons, if_neg hk, find_cons,
          if_neg fun hb => hk ((h.zero_congr_left hab k).mpr hb)] at hr
  · intro ⟨hR, hf⟩ k
    rw [find_cons, find_cons]
    by_cases hk : compare (key a) k = 0
    · rw [if_pos hk, if_pos ((h.zero_congr_left hab k).mp hk)]
      exact .some hR
    · rw [if_neg hk, if_neg fun hb => hk ((h.zero_congr_left hab k).mpr hb)]
      exact hf k

end

/-- **Two lists in order are alike entry by entry** exactly if every lookup finds alike
entries in both, or none in both. -/
theorem forall₂_iff_find (h : TotalCompare compare) (hs1 : Sorted key compare l1)
    (hs2 : Sorted key compare l2) :
    List.Forall₂ (fun a b => compare (key a) (key b) = 0 ∧ R a b) l1 l2 ↔
      ∀ k, Option.Rel R (find key compare k l1) (find key compare k l2) := by
  induction l1 generalizing l2 with
  | nil =>
    cases l2 with
    | nil => exact ⟨fun _ _ => .none, fun _ => .nil⟩
    | cons b l2 =>
      refine ⟨nofun, fun hf => ?_⟩
      have hb := isSome_of_rel (hf (key b))
      rw [find_self h hs2 mem_cons_self] at hb
      cases hb
  | cons a l1 ih =>
    cases l2 with
    | nil =>
      refine ⟨nofun, fun hf => ?_⟩
      have ha := isSome_of_rel (hf (key a))
      rw [find_self h hs1 mem_cons_self] at ha
      cases ha
    | cons b l2 =>
      rw [forall₂_cons, ih (pairwise_cons.mp hs1).2 (pairwise_cons.mp hs2).2]
      constructor
      · intro ⟨⟨hab, hR⟩, ht⟩
        exact (find_rel_cons h hs1 hs2 hab).mpr ⟨hR, ht⟩
      · intro hf
        have hab := compare_heads h hs1 hs2 hf
        obtain ⟨hR, ht⟩ := (find_rel_cons h hs1 hs2 hab).mp hf
        exact ⟨⟨hab, hR⟩, ht⟩

end Libparc.Ascending
