import Libparc.Algol.URI

/-! # The components of a URI

Scheme, authority, path, query and fragment are put together and read again. The
segment parser absorbs the slashes behind a slash; it does the same behind the `?` or
`#` at which the last segment ends, and the path goes on with what begins with a
slash there (`recovered_iff`). -/
namespace Libparc.URI

/-- Components without the characters that end them; the path is the texts of its
segments. -/
structure Components where
  scheme : List UInt8
  authority : Option (List UInt8)
  path : List (List UInt8)
  query : Option (List UInt8)
  fragment : Option (List UInt8)
  scheme_chars : ∀ c ∈ scheme, notIn [colon] c = true
  authority_chars : ∀ text, authority = some text → ∀ c ∈ text, notIn [slash] c = true
  query_chars : ∀ text, query = some text → ∀ c ∈ text, notIn [numberSign] c = true
  fragment_chars : ∀ text, fragment = some text → ∀ c ∈ text, notIn [] c = true

namespace Components

/-- The URI of the components, with this path. -/
def uri (parts : Components) (path : Option PARCURIPath) : PARCURI :=
  ⟨some parts.scheme, parts.authority, path, parts.query, parts.fragment⟩

/-- `scheme:[//authority]/path[?query][#fragment]`. -/
def assembled (parts : Components) : List UInt8 :=
  written parts.scheme (parts.uri none) parts.path

/-- What is read from the assembled text is these components. -/
def Recovered (parts : Components) : Prop :=
  ∃ path, parcURIParse parts.assembled = pure (some (parts.uri (some path))) ∧
    PathOf path (parts.path.map some)

/-- There is a scheme, and a path in which no segment but the last is empty; what is
behind the path does not begin with a slash. -/
structure Recoverable (parts : Components) : Prop where
  scheme : parts.scheme ≠ []
  path : parts.path ≠ [] ∧ ∀ text ∈ parts.path.dropLast, text ≠ []
  query : ∀ text, parts.query = some text → text.head? ≠ some slash
  fragment : parts.query = none → ∀ text, parts.fragment = some text → text.head? ≠ some slash

variable {parts : Components}

theorem readable (h : parts.scheme ≠ []) (path : Option PARCURIPath) :
    Readable (parts.uri path) parts.scheme :=
  ⟨rfl, h, parts.scheme_chars, parts.authority_chars, parts.query_chars, parts.fragment_chars⟩

theorem pathEnd_cons {mark text rest}
    (hm : mark = questionMark ∨ mark = numberSign) (hr : charAt rest ≠ slash) :
    PathEnd (mark :: (text ++ rest)) ↔ text.head? ≠ some slash := by
  have hne : mark ≠ 0 := by rcases hm with rfl | rfl <;> decide
  have hh : charAt (text ++ rest) = slash ↔ text.head? = some slash := by
    cases text with
    | nil => simpa using hr
    | cons c text => simp
  constructor
  · intro h hs
    exact h.next hne (hh.mpr hs)
  · intro h
    exact ⟨.inr hm, fun _ hs => h (hh.mp hs)⟩

theorem pathEnd_iff : PathEnd (afterPath (parts.uri none)) ↔
    (∀ text, parts.query = some text → text.head? ≠ some slash) ∧
      (parts.query = none → ∀ text, parts.fragment = some text → text.head? ≠ some slash) := by
  have hfr : charAt (marked [numberSign] parts.fragment) ≠ slash := by
    rcases charAt_marked numberSign parts.fragment with hc | hc <;> rw [hc] <;> decide
  cases hq : parts.query with
  | some query =>
    have ha : afterPath (parts.uri none) =
        questionMark :: (query ++ marked [numberSign] parts.fragment) := by
      simp [afterPath, uri, hq, marked]
    rw [ha, pathEnd_cons (.inl rfl) hfr]
    simp
  | none =>
    cases hf : parts.fragment with
    | none =>
      have ha : afterPath (parts.uri none) = [] := by simp [afterPath, uri, hq, hf, marked]
      rw [ha]
      simp [pathEnd_nil]
    | some fragment =>
      have ha : afterPath (parts.uri none) = numberSign :: (fragment ++ []) := by
        simp [afterPath, uri, hq, hf, marked]
      rw [ha, pathEnd_cons (.inr rfl) (by decide)]
      simp

theorem Recovered.recoverable (h : parts.Recovered) : parts.Recoverable := by
  obtain ⟨path, hp, hpa⟩ := h
  obtain ⟨sch, hr, hpt⟩ := parse_inv hp
  cases hr.scheme_eq
  obtain ⟨ss, hs, hn, he⟩ := hpt path rfl
  cases hs.unique hpa
  have ha : PathEnd (afterPath (parts.uri none)) := by
    by_cases hem : parts.path.map some = []
    · rw [show afterPath (parts.uri none) = [] from hn hem]
      exact pathEnd_nil
    · exact he hem (by simp)
  -- the text is what the URI that was read is written as
  have heq := @uriEquals_spec (parts.uri (some path)) path path _ _ rfl hpa hpa
  rw [decide_eq_true rfl] at heq
  have ht : RoundTrips 64 (parts.uri (some path)) := ⟨_, _, uriToString_eq 64 rfl rfl hpa, hp, heq⟩
  obtain ⟨hq, hf⟩ := pathEnd_iff.mp ha
  exact ⟨hr.scheme_ne, (roundTrips_iff 64 hr rfl hpa ha).mp ht, hq, hf⟩

/-- **Components are recovered from their text exactly if they are recoverable.** -/
theorem recovered_iff (parts : Components) : parts.Recovered ↔ parts.Recoverable := by
  refine ⟨Recovered.recoverable, fun h => ?_⟩
  obtain ⟨hne, hf⟩ := h.path
  obtain ⟨text, ts, hp⟩ := List.exists_cons_of_ne_nil hne
  have ht : text ≠ [] ∨ ts = [] := by
    rw [hp] at hf
    cases ts with
    | nil => exact .inr rfl
    | cons next ts => exact .inl (hf text (.head _))
  obtain ⟨path, hpa, hpo⟩ := parse_written (readable h.scheme none)
    (pathEnd_iff.mpr ⟨h.query, h.fragment⟩) ht
  rw [← hp] at hpa hpo
  rw [compact_eq_iff.mpr hf] at hpo
  exact ⟨path, hpa, hpo⟩

end Components

/-- `lci:/a?/b`. -/
def slashQuery : Components where
  scheme := literal "lci"
  authority := none
  path := [literal "a"]
  query := some (literal "/b")
  fragment := none
  scheme_chars := by decide +kernel
  authority_chars := nofun
  query_chars := fun text htext => by cases htext; decide +kernel
  fragment_chars := nofun

/-- A query that begins with a slash is read as a part of the path. -/
theorem query_taken_for_path : ¬ slashQuery.Recovered := by
  intro h
  exact h.recoverable.query _ rfl rfl

end Libparc.URI
