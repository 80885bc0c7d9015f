import Libparc.Algol.URIPath

/-! # The order of paths

Paths are compared by their number of segments, and segments by their length, before what they
hold is compared. A NULL segment comes first. -/
namespace Libparc.URI
open Buffer ArrayList List

/-- The length of a segment, whose buffer is rewound. -/
def parcURISegmentLength (segment : PARCURISegment) : Nat × PARCURISegment :=
  let buffer := parcBufferRewind segment.buffer
  (parcBufferRemaining buffer, ⟨buffer⟩)

/-- Either may be NULL. -/
def parcURISegmentCompare : Option PARCURISegment → Option PARCURISegment → Prog Int
  | none, none => pure 0
  | none, some _ => pure (-1)
  | some _, none => pure 1
  | some a, some b =>
    let (lengthA, a) := parcURISegmentLength a
    let (lengthB, b) := parcURISegmentLength b
    if lengthA < lengthB then pure (-1)
    else if lengthA > lengthB then pure 1
    else parcBufferCompare a.buffer b.buffer

def parcURIPathCount (path : PARCURIPath) : Nat := parcArrayListSize path.segments

def parcURIPathStartsWith (base pre : PARCURIPath) : Prog Bool :=
  if parcURIPathCount base < parcURIPathCount pre then pure false
  else (List.range (parcURIPathCount pre)).allM fun i => do
    let baseSegment ← parcURIPathGet base i
    let prefixSegment ← parcURIPathGet pre i
    pure ((← parcURISegmentCompare baseSegment prefixSegment) == 0)

/-- The loop of `parcURIPath_Compare`, from a segment on. -/
def compareSegments (pathA pathB : PARCURIPath) (i : Nat) : Nat → Prog Int
  | 0 => pure 0
  | n + 1 => do
    let segmentA ← parcURIPathGet pathA i
    let segmentB ← parcURIPathGet pathB i
    let comparison ← parcURISegmentCompare segmentA segmentB
    if comparison ≠ 0 then pure comparison else compareSegments pathA pathB (i + 1) n

/-- Either may be NULL. -/
def parcURIPathCompare : Option PARCURIPath → Option PARCURIPath → Prog Int
  | none, none => pure 0
  | none, some _ => pure (-1)
  | some _, none => pure 1
  | some pathA, some pathB =>
    let countDifference : Int := parcURIPathCount pathA - parcURIPathCount pathB
    if countDifference ≠ 0 then
      pure (if countDifference > 0 then 1 else if countDifference < 0 then -1 else 0)
    else compareSegments pathA pathB 0 (parcURIPathCount pathA)

/-! ## The order -/

/-- NULL is compared as a list without an element. -/
def segmentOrder (a b : Option (List UInt8)) : Int :=
  lexCompare (shortlex byteCompare) a.toList b.toList

def pathOrder : List (Option (List UInt8)) → List (Option (List UInt8)) → Int :=
  shortlex segmentOrder

theorem totalCompare_segmentOrder : TotalCompare segmentOrder where
  neg_iff_swap a b := totalCompare_byteCompare.shortlex.lex.neg_iff_swap a.toList b.toList
  le_trans a b c := totalCompare_byteCompare.shortlex.lex.le_trans a.toList b.toList c.toList

theorem segmentOrder_eq_zero_iff (a b : Option (List UInt8)) : segmentOrder a b = 0 ↔ a = b := by
  rw [segmentOrder, lexCompare_eq_zero_iff (shortlex_eq_zero_iff byteCompare_eq_zero_iff)]
  cases a <;> cases b <;> simp

section
variable {pathA pathB pathC : PARCURIPath} {a b c : List (Option (List UInt8))}

theorem SegmentOf.rewound {s bytes} (h : SegmentOf s bytes) :
    (parcBufferRewind s.buffer).Valid ∧ (parcBufferRewind s.buffer).remainingBytes = bytes := by
  refine ⟨⟨fun _ hm => (by cases hm), Nat.zero_le _, h.valid.limit_le, h.valid.capacity_le⟩, ?_⟩
  rw [← h.bytes_eq, PARCBuffer.remainingBytes, PARCBuffer.remainingBytes, h.position]
  rfl

theorem segmentCompare_spec {segmentA segmentB bytesA bytesB} (hA : ShowsSegment segmentA bytesA)
    (hB : ShowsSegment segmentB bytesB) :
    parcURISegmentCompare segmentA segmentB = pure (segmentOrder bytesA bytesB) := by
  cases segmentA <;> cases bytesA <;> cases segmentB <;> cases bytesB <;>
    simp only [ShowsSegment] at hA hB
  · rfl
  · rfl
  · rfl
  · rename_i segmentA bytesA segmentB bytesB
    obtain ⟨hva, hba⟩ := hA.rewound
    obtain ⟨hvb, hbb⟩ := hB.rewound
    have ho : segmentOrder (some bytesA) (some bytesB) = shortlex byteCompare bytesA bytesB := by
      simp only [segmentOrder, Option.toList_some, lexCompare]
      split
      · exact (by assumption : _ = (0 : Int)).symm
      · rfl
    simp only [parcURISegmentCompare, parcURISegmentLength, ← length_remainingBytes hva,
      ← length_remainingBytes hvb, compare_eq hva hvb, hba, hbb, ho, shortlex]
    split_ifs <;> rfl

section
variable (hA : PathOf pathA a) (hB : PathOf pathB b)
include hA hB

theorem compareSegments_spec {n} :
    ∀ {i}, i + n = a.length → i + n = b.length →
      compareSegments pathA pathB i n = pure (lexCompare segmentOrder (a.drop i) (b.drop i)) := by
  induction n with
  | zero =>
    intro i ha hb
    rw [drop_of_length_le (by omega), drop_of_length_le (by omega)]
    rfl
  | succ n ih =>
    intro i ha hb
    have hia : i < a.length := by omega
    have hib : i < b.length := by omega
    obtain ⟨segmentA, hga, hsa⟩ := hA.get hia
    obtain ⟨segmentB, hgb, hsb⟩ := hB.get hib
    rw [drop_eq_getElem_cons hia, drop_eq_getElem_cons hib, lexCompare, compareSegments,
      parcURIPathGet, hga, pure_bind, parcURIPathGet, hgb, pure_bind,
      segmentCompare_spec hsa hsb, pure_bind, ih (by omega) (by omega)]
    split_ifs <;> simp_all

theorem pathCompare_spec : parcURIPathCompare (some pathA) (some pathB) = pure (pathOrder a b) := by
  have hs := compareSegments_spec hA hB (n := a.length) (Nat.zero_add _)
  simp only [parcURIPathCompare, parcURIPathCount, hA.size, hB.size, pathOrder, shortlex]
  rcases Nat.lt_trichotomy a.length b.length with hlt | heq | hgt
  · rw [if_pos (by omega), if_neg (by omega), if_pos (by omega), if_pos hlt]
  · rw [if_neg (by omega), if_neg (by omega), if_neg (by omega), hs (by omega)]
    rfl
  · rw [if_pos (by omega), if_pos (by omega), if_neg (by omega), if_pos hgt]

theorem startsWith_spec : parcURIPathStartsWith pathA pathB = pure (decide (b <+: a)) := by
  rw [parcURIPathStartsWith, parcURIPathCount, parcURIPathCount, hA.size, hB.size]
  split_ifs with hlt
  · rw [decide_eq_false fun h => Nat.not_le_of_lt hlt h.length_le]
  · have ht : ∀ i ∈ range b.length, (do
        let baseSegment ← parcURIPathGet pathA i
        let prefixSegment ← parcURIPathGet pathB i
        pure ((← parcURISegmentCompare baseSegment prefixSegment) == 0)) =
          (pure (decide (a[i]? = b[i]?)) : Prog Bool) := by
      intro i hi
      have hib := mem_range.mp hi
      have hia : i < a.length := by omega
      obtain ⟨segmentA, hga, hsa⟩ := hA.get hia
      obtain ⟨segmentB, hgb, hsb⟩ := hB.get hib
      rw [parcURIPathGet, hga, pure_bind, parcURIPathGet, hgb, pure_bind,
        segmentCompare_spec hsa hsb, pure_bind, getElem?_eq_getElem hia, getElem?_eq_getElem hib]
      congr 1
      rw [Bool.eq_iff_iff, beq_iff_eq, segmentOrder_eq_zero_iff, decide_eq_true_iff,
        Option.some.injEq]
    rw [allM_eq ht]
    congr 1
    rw [Bool.eq_iff_iff, all_eq_true, decide_eq_true_iff, prefix_iff_getElem?]
    refine forall_congr' fun i => ?_
    rw [mem_range, decide_eq_true_iff]
    exact forall_congr' fun hi => by rw [getElem?_eq_getElem hi]

end

/-- **Paths are ordered**, equal ones are those that compare as zero, and `StartsWith` is the
order of prefixes. -/
theorem path_ordered (hA : PathOf pathA a) (hB : PathOf pathB b) (hC : PathOf pathC c) :
    ∃ ab ba bc ac : Int, parcURIPathCompare (some pathA) (some pathB) = pure ab ∧
      parcURIPathCompare (some pathB) (some pathA) = pure ba ∧
      parcURIPathCompare (some pathB) (some pathC) = pure bc ∧
      parcURIPathCompare (some pathA) (some pathC) = pure ac ∧
      (ab < 0 ↔ 0 < ba) ∧ (ab ≤ 0 → bc ≤ 0 → ac ≤ 0) ∧
      parcURIPathEquals (some pathA) (some pathB) = pure (decide (ab = 0)) ∧ (ab = 0 ↔ a = b) ∧
      parcURIPathStartsWith pathA pathB = pure (decide (b <+: a)) ∧
      parcURIPathStartsWith pathA pathA = pure true ∧
      (parcURIPathStartsWith pathA pathB = pure true →
        parcURIPathStartsWith pathB pathA = pure true → ab = 0) ∧
      (parcURIPathStartsWith pathA pathB = pure true →
        parcURIPathStartsWith pathB pathC = pure true →
        parcURIPathStartsWith pathA pathC = pure true) := by
  have ht : TotalCompare pathOrder := totalCompare_segmentOrder.shortlex
  have hz := shortlex_eq_zero_iff segmentOrder_eq_zero_iff a b
  refine ⟨_, _, _, _, pathCompare_spec hA hB, pathCompare_spec hB hA, pathCompare_spec hB hC,
    pathCompare_spec hA hC, ht.neg_iff_swap a b, ht.le_trans a b c, ?_, hz, ?_⟩
  · rw [pathEquals_spec hA hB]
    exact congrArg pure (decide_eq_decide.mpr hz.symm)
  · simp only [startsWith_spec hA hB, startsWith_spec hA hA, startsWith_spec hB hA,
      startsWith_spec hB hC, startsWith_spec hA hC, Exec.pure_inj, decide_eq_true_eq]
    refine ⟨trivial, List.prefix_refl a, fun hba hab => ?_, fun hba hcb => hcb.trans hba⟩
    exact hz.mpr (hab.eq_of_length_le hba.length_le)

end

/-- A path starts with the one of its first segment, and is not equal to it. -/
theorem path_ordered_two : ∃ one two, PathOf one [some [47, 0, 255]] ∧
    PathOf two [some [47, 0, 255], some []] ∧ ∃ c : Int,
    parcURIPathCompare (some two) (some one) = pure c ∧ c ≠ 0 ∧
    parcURIPathEquals (some two) (some one) = pure false ∧
    parcURIPathStartsWith two one = pure true ∧ parcURIPathStartsWith two two = pure true := by
  obtain ⟨one, two, h1, h2⟩ := exists_pathOf_two
  obtain ⟨c, _, _, _, hc, -, -, -, -, -, he, hz, hst, hss, -⟩ := path_ordered h2 h1 h1
  have hne : c ≠ 0 := fun h0 => absurd (hz.mp h0) (by decide)
  rw [decide_eq_false hne] at he
  exact ⟨one, two, h1, h2, c, hc, hne, he, hst.trans (congrArg pure (by decide)), hss⟩

end Libparc.URI
