import Libparc.Algol.URI

/-! # Paths that cannot be decoded

`parcURI_Parse` has no error for a path. A segment with an escape that cannot be decoded is
appended as NULL, and the path is read on from the second character of that segment; a segment
that would start with a slash is refused by an assertion. -/
namespace Libparc.URI
open Exec List

/-- The escapes up to the end of the path can be decoded. The path goes on behind a `?` or `#`
that a slash follows. -/
def WellEscaped : List UInt8 → Prop
  | [] => True
  | c :: p => c = 0 ∨ ((c = questionMark ∨ c = numberSign) ∧ charAt p ≠ slash) ∨
    (c = percentSign → (parsePercentEncoded p).isSome) ∧ WellEscaped p

section
variable {c : UInt8} {p p' : List UInt8}

/-- A character that the reading of a path does not stop at. -/
def Ordinary (c : UInt8) : Prop := c ≠ 0 ∧ c ≠ questionMark ∧ c ≠ numberSign

theorem wellEscaped_cons (hc : Ordinary c) : WellEscaped (c :: p) ↔
    (c = percentSign → (parsePercentEncoded p).isSome) ∧ WellEscaped p := by
  simp [WellEscaped, hc.1, hc.2.1, hc.2.2]

theorem wellEscaped_plain (hc : Ordinary c) (hp : c ≠ percentSign) :
    WellEscaped (c :: p) ↔ WellEscaped p := by
  simp [wellEscaped_cons hc, hp]

theorem PathEnd.wellEscaped (h : PathEnd p) : WellEscaped p := by
  cases p with
  | nil => trivial
  | cons c p =>
    rcases h.char with hc | hc
    · exact .inl hc
    · exact .inr (.inl ⟨hc, h.next (by rcases hc with hc | hc <;> rw [hc] <;> decide)⟩)

theorem wellEscaped_digit (hc : ¬ fromHexDigit c > 15) : WellEscaped (c :: p) ↔ WellEscaped p := by
  refine wellEscaped_plain ⟨?_, ?_, ?_⟩ ?_ <;> rintro rfl <;> exact hc (by decide)

theorem parsePercentEncoded_inv {v} (h : parsePercentEncoded p = some (v, p')) :
    (WellEscaped p ↔ WellEscaped p') ∧ p'.length ≤ p.length := by
  match p with
  | [] | [_] => simp [parsePercentEncoded] at h
  | hi :: lo :: p =>
    simp only [parsePercentEncoded] at h
    split_ifs at h with _ hhi _ hlo
    cases h
    exact ⟨(wellEscaped_digit hhi).trans (wellEscaped_digit hlo), Nat.le_add_right _ 2⟩

/-! ## Segments -/

theorem parseLoop_wellEscaped (p seg : List UInt8) :
    ∃ r, loop parseBody (p, seg) = pure r ∧ ((r = none ∧ ¬ WellEscaped p) ∨
      ∃ p' bs, r = some (p', bs) ∧ (WellEscaped p' ↔ WellEscaped p) ∧ SegmentEnd p' ∧
        p'.length ≤ p.length) := by
  refine loop_variant (fun m s => s.1.length = m ∧ (WellEscaped s.1 ↔ WellEscaped p) ∧
    s.1.length ≤ p.length) _ ?_ ⟨rfl, Iff.rfl, Nat.le_refl _⟩
  rintro m ⟨q, seg⟩ ⟨hm, hi, hl⟩
  by_cases hmo : charAt q ≠ 0 ∧ charAt q ≠ slash ∧ charAt q ≠ questionMark ∧ charAt q ≠ numberSign
  · cases q with
    | nil => exact absurd rfl hmo.1
    | cons c q =>
      have hc : Ordinary c := ⟨hmo.1, hmo.2.2⟩
      rw [length_cons] at hm hl
      rw [parseBody, if_pos hmo, charAt_cons, tail_cons]
      by_cases hp : c = percentSign
      · rw [if_pos hp]
        cases hpa : parsePercentEncoded q with
        | none =>
          refine .inl ⟨none, rfl, .inl ⟨rfl, fun h => ?_⟩⟩
          have hs := ((wellEscaped_cons hc).mp (hi.mpr h)).1 hp
          rw [hpa] at hs
          cases hs
        | some v =>
          obtain ⟨ht, hle⟩ := parsePercentEncoded_inv hpa
          refine .inr ⟨_, v.2.length, rfl, ⟨rfl, ?_, Nat.le_trans hle (by omega)⟩, by omega⟩
          rw [← hi, wellEscaped_cons hc, hpa, ht]
          simp
      · rw [if_neg hp]
        exact .inr ⟨_, q.length, rfl, ⟨rfl, (wellEscaped_plain hc hp).symm.trans hi,
          Nat.le_of_succ_le hl⟩, by omega⟩
  · refine .inl ⟨_, by rw [parseBody, if_neg hmo], .inr ⟨q, seg, rfl, hi, ?_, hl⟩⟩
    tauto

theorem wellEscaped_absorb (he : SegmentEnd p) (hp : charAt p ≠ 0) :
    (WellEscaped (absorbSlashes p) ↔ WellEscaped p) ∧ SegmentEnd (absorbSlashes p) ∧
      (absorbSlashes p).length ≤ p.length := by
  induction p with
  | nil => exact absurd rfl hp
  | cons c p ih =>
    rw [absorbSlashes]
    split_ifs with hs
    · have hp' : charAt p ≠ 0 := by rw [hs]; decide
      obtain ⟨hi, he', hle⟩ := ih (.inr (.inl hs)) hp'
      refine ⟨hi.trans ?_, he', Nat.le_succ_of_le hle⟩
      have hc : c ≠ percentSign := by
        rcases he with hc | hc | hc | hc <;> rw [show c = _ from hc] <;> decide
      simp [WellEscaped, show c ≠ 0 from hp, hc, hs]
    · exact ⟨Iff.rfl, he, Nat.le_refl _⟩

theorem segmentParse_wellEscaped (hp : charAt p ≠ slash) :
    ∃ r, parcURISegmentParse p = pure r ∧ ((r = none ∧ ¬ WellEscaped p) ∨
      ∃ s p' bs, r = some (s, p') ∧ SegmentOf s bs ∧
        (WellEscaped p' ↔ WellEscaped p) ∧ SegmentEnd p' ∧ p'.length ≤ p.length) := by
  obtain ⟨r, hl, hr⟩ := parseLoop_wellEscaped p []
  rw [parcURISegmentParse, assertTrue_of (decide_eq_true hp), pure_bind, hl, pure_bind]
  rcases hr with ⟨rfl, hn⟩ | ⟨p', bs, rfl, hi, he, hle⟩
  · exact ⟨none, rfl, .inl ⟨rfl, hn⟩⟩
  · obtain ⟨s, hc, hs⟩ := create_spec bs
    simp only [hc, pure_bind]
    refine ⟨_, rfl, .inr ⟨s, _, bs, rfl, hs, ?_⟩⟩
    split_ifs with hz
    · obtain ⟨ha, he', hle'⟩ := wellEscaped_absorb he hz
      exact ⟨ha.trans hi, he', hle'.trans hle⟩
    · exact ⟨hi, he, hle⟩

/-! ## Paths -/

/-- A path is read, and none of its segments is NULL. -/
def Clean (m : Prog (List UInt8 × PARCURIPath)) : Prop :=
  ∃ p path segments, m = pure (p, path) ∧ PathOf path segments ∧ none ∉ segments

theorem not_clean_of_null {path segments}
    (h : PathOf path segments) (hn : none ∈ segments) : ¬ Clean (loop parsePathBody (p, path)) := by
  rintro ⟨p', path', ss', hl, hp, hc⟩
  obtain ⟨ss'', hp', hn'⟩ : ∃ segments, PathOf path' segments ∧ none ∈ segments := by
    let Null (s : List UInt8 × PARCURIPath) := ∃ segments, PathOf s.2 segments ∧ none ∈ segments
    refine loop_invariant Null Null ?_ ⟨segments, h, hn⟩ hl
    rintro ⟨p, path⟩ x ⟨segments, h, hn⟩ ht
    obtain ⟨_, _, _, rfl, h', -⟩ | ⟨rfl, -⟩ := parsePathBody_inv h ht
    · exact ⟨_, h', mem_append_left _ hn⟩
    · exact ⟨segments, h, hn⟩
  exact hc (hp.unique hp' ▸ hn')

theorem parsePathLoop_clean_iff {path ss} (h : PathOf path ss) (hc : none ∉ ss) (he : SegmentEnd p)
    (hne : charAt p ≠ 0 → charAt p.tail ≠ slash) :
    Clean (loop parsePathBody (p, path)) ↔ WellEscaped p := by
  induction hn : p.length using Nat.strongRecOn generalizing p path ss with
  | ind n ih =>
    by_cases hs : charAt p = slash
    · have hm : charAt p ≠ 0 ∧ charAt p ≠ questionMark ∧ charAt p ≠ numberSign := by
        rw [hs]
        decide
      obtain ⟨c, q, rfl⟩ : ∃ c q, p = c :: q := by
        cases p with
        | nil => exact absurd rfl hm.1
        | cons c q => exact ⟨c, q, rfl⟩
      have hp : WellEscaped (c :: q) ↔ WellEscaped q :=
        wellEscaped_plain hm (by rw [show c = slash from hs]; decide)
      obtain ⟨r, hpa, hr⟩ := segmentParse_wellEscaped (hne hm.1)
      rw [tail_cons] at hpa hr
      rcases hr with ⟨rfl, hno⟩ | ⟨s, p', bs, rfl, hse, hi, he', hle⟩
      · obtain ⟨path', ha, h'⟩ := append_pathOf h (show ShowsSegment none none from trivial)
        have ht : parsePathBody (c :: q, path) = pure (.inl (q, path')) := by
          rw [parsePathBody, if_pos hm]
          simp only [tail_cons, hpa, pure_bind, ha]
        rw [loop_next ht]
        exact iff_of_false (not_clean_of_null h' (by simp)) (hp.not.mpr hno)
      · obtain ⟨path', ha, h'⟩ := append_pathOf h (show ShowsSegment (some s) (some bs) from hse)
        have ht : parsePathBody (c :: q, path) = pure (.inl (p', path')) := by
          rw [parsePathBody, if_pos hm]
          simp only [tail_cons, hpa, pure_bind, ha]
        rw [loop_next ht, hp, ← hi]
        exact ih p'.length (by rw [← hn, length_cons]; omega) h' (by simpa using hc) he'
          (segmentParse_inv hpa).2 rfl
    · have hp : PathEnd p := ⟨he.imp_right fun h => h.resolve_left hs, hne⟩
      rw [loop_done (parsePathBody_end hp path)]
      exact iff_of_true ⟨p, path, ss, rfl, h, hc⟩ hp.wellEscaped

end

/-- A path is read as NULL or without a NULL segment. -/
def PathClean (m : Prog (Option PARCURIPath × List UInt8)) : Prop :=
  ∃ r, m = pure r ∧ ∀ path segments, r.1 = some path → PathOf path segments → none ∉ segments

theorem pathParse_clean_iff (p : List UInt8) : PathClean (parcURIPathParse p p) ↔
    (charAt p = slash → charAt p.tail ≠ slash ∧ WellEscaped p) := by
  by_cases hs : charAt p = slash
  · by_cases ht : charAt p.tail = slash
    · obtain ⟨rest, rfl⟩ : ∃ rest, p = slash :: slash :: rest := by
        match p with
        | [] | [_] => cases ht
        | c :: d :: rest => exact ⟨rest, by rw [show c = slash from hs, show d = slash from ht]⟩
      rw [pathParse_doubled]
      exact iff_of_false (fun ⟨_, h, _⟩ => throw_ne_pure h) fun h => (h hs).1 ht
    · have hru : parcURIPathParse p p =
          loop parsePathBody (p, emptyPath) >>= fun r => pure (some r.2, r.1) := by
        rw [parcURIPathParse, if_pos (by rw [hs]; decide), if_neg (not_not.mpr hs)]
      rw [forall_prop_of_true hs, and_iff_right ht, ← parsePathLoop_clean_iff pathOf_empty
        not_mem_nil (.inr (.inl hs)) fun _ => ht]
      constructor
      · rintro ⟨r, hp, hc⟩
        obtain ⟨⟨p', path⟩, hl, hr⟩ := bind_eq_pure.mp (hru ▸ hp)
        cases hr
        obtain ⟨ss, hpa, -⟩ := pathParse_inv hp
        exact ⟨p', path, ss, hl, hpa, hc path ss rfl hpa⟩
      · rintro ⟨p', path, ss, hl, hpa, hc⟩
        refine ⟨(some path, p'), by rw [hru, hl, pure_bind], fun _ ss' heq hp' => ?_⟩
        cases heq
        exact hpa.unique hp' ▸ hc
  · refine iff_of_true ?_ fun h => absurd h hs
    unfold parcURIPathParse
    split_ifs
    · exact ⟨_, rfl, fun _ _ h => (by cases h)⟩
    · refine ⟨_, rfl, fun path ss h hpa => ?_⟩
      cases h
      exact pathOf_empty.unique hpa ▸ not_mem_nil

/-- A string is read as no URI or as one without a NULL segment. -/
def ParsesClean (string : List UInt8) : Prop :=
  ∃ result, parcURIParse string = pure result ∧ ∀ uri path segments, result = some uri →
    uri.path = some path → PathOf path segments → none ∉ segments

/-- **When parsing neither traps nor leaves a NULL segment**: behind scheme and authority there is
no path, or one that does not start with two slashes and can be decoded. -/
theorem parsesClean_iff (string : List UInt8) : ParsesClean string ↔
    ∀ scheme pointer, parseScheme string = some (scheme, pointer) →
      charAt (parseAuthority pointer).2 = slash →
        charAt (parseAuthority pointer).2.tail ≠ slash ∧
          WellEscaped (parseAuthority pointer).2 := by
  unfold ParsesClean parcURIParse
  cases hs : parseScheme string with
  | none => exact iff_of_true ⟨none, rfl, fun _ _ _ h => (by cases h)⟩ fun _ _ h => (by cases h)
  | some parsed =>
    obtain ⟨scheme, pointer⟩ := parsed
    refine Iff.trans ?_ ((pathParse_clean_iff (parseAuthority pointer).2).trans
      ⟨fun h _ _ heq => by cases heq; exact h, fun h => h scheme pointer rfl⟩)
    constructor
    · rintro ⟨_, hr, hc⟩
      obtain ⟨⟨path, pointer⟩, hp, hr⟩ := bind_eq_pure.mp hr
      cases hr
      exact ⟨_, hp, fun path ss => hc _ path ss rfl⟩
    · rintro ⟨⟨path, pointer⟩, hp, hc⟩
      refine ⟨_, bind_eq_pure.mpr ⟨_, hp, rfl⟩, fun uri path ss heq => ?_⟩
      cases heq
      exact hc path ss

/-- An empty authority, and a path that starts with two slashes. -/
theorem parse_slashes : parcURIParse (literal "lci:////a") = throw
    (.assertion "Input parameter '/a' must NOT point to an initial '/' character.") := by
  show (parcURIPathParse (slash :: slash :: literal "a") _ >>= _) = _
  rw [pathParse_doubled]
  rfl

end Libparc.URI
