import Libparc.Algol.URIPath

/-! # parc_URI

The component parsers hand a pointer on to each other. A URI that was read is written with a
slash in front of its path whatever the path is; it is read back as itself exactly if it has a
path of at least one segment, none of them NULL and none but the last one empty
(`uri_roundTrip_iff`). -/
namespace Libparc.URI
open Buffer BufferComposer List Prod

structure PARCURI where
  scheme : Option (List UInt8)
  authority : Option (List UInt8)
  path : Option PARCURIPath
  query : Option (List UInt8)
  fragment : Option (List UInt8)

/-- The characters a component is read up to end it; the NUL always does. -/
def notIn (stops : List UInt8) (c : UInt8) : Bool := c != 0 && !stops.contains c

/-- The scheme and the pointer behind its colon, or NULL. -/
def parseScheme (uri : List UInt8) : Option (List UInt8 × List UInt8) :=
  let scheme := uri.takeWhile (notIn [colon])
  if charAt (uri.drop scheme.length) = 0 then none
  else if scheme.length = 0 then none
  else some (scheme, uri.drop (scheme.length + 1))

def parseAuthority (string : List UInt8) : Option (List UInt8) × List UInt8 :=
  if charAt string = slash ∧ charAt string.tail = slash then
    let authority := string.tail.tail.takeWhile (notIn [slash])
    (some authority, string.tail.tail.drop authority.length)
  else (none, string)

/-- `_parseQuery` and `_parseFragment`: what is behind the mark, if the pointer is at one, up to
one of the stops. -/
def parseMarked (mark : UInt8) (stops : List UInt8) (string pointer : List UInt8) :
    Option (List UInt8) × List UInt8 :=
  if charAt string ≠ mark then (none, pointer)
  else
    let text := string.tail.takeWhile (notIn stops)
    (some text, string.tail.drop text.length)

def parseQuery (string pointer : List UInt8) : Option (List UInt8) × List UInt8 :=
  parseMarked questionMark [numberSign] string pointer

def parseFragment (string pointer : List UInt8) : Option (List UInt8) × List UInt8 :=
  parseMarked numberSign [] string pointer

def parcURIParse (string : List UInt8) : Prog (Option PARCURI) :=
  match parseScheme string with
  | none => pure none
  | some (scheme, pointer) => do
    let (authority, pointer) := parseAuthority pointer
    let (path, pointer) ← parcURIPathParse pointer pointer
    let (query, pointer) := parseQuery pointer pointer
    let (fragment, _) := parseFragment pointer pointer
    pure (some ⟨some scheme, authority, path, query, fragment⟩)

/-- `_parcURI_SchemeEquals` and its like: two strings by `strcmp`, either of which may be
NULL. -/
def stringEquals (a b : Option (List UInt8)) : Bool :=
  match a, b with
  | none, none => true
  | some a, some b => a.takeWhile (· ≠ 0) == b.takeWhile (· ≠ 0)
  | _, _ => false

def parcURIEquals (uriA uriB : PARCURI) : Prog Bool :=
  if stringEquals uriA.scheme uriB.scheme ∧ stringEquals uriA.authority uriB.authority then do
    let pathEquals ← parcURIPathEquals uriA.path uriB.path
    pure (pathEquals && stringEquals uriA.query uriB.query &&
      stringEquals uriA.fragment uriB.fragment)
  else pure false

def buildStringAuthority (composer : PARCBufferComposer) (authority : Option (List UInt8)) :
    Prog PARCBufferComposer :=
  match authority with
  | some authority => do
    let composer ← parcBufferComposerPutString composer (literal "//")
    parcBufferComposerPutString composer authority
  | none => pure composer

/-- The query or the fragment with its mark in front, if it is not NULL. -/
def buildStringOptional (composer : PARCBufferComposer) (mark : String)
    (text : Option (List UInt8)) : Prog PARCBufferComposer :=
  match text with
  | some text => parcBufferComposerPutStrings composer [some (literal mark), some text, none]
  | none => pure composer

def parcURIBuildString (uri : PARCURI) (composer : PARCBufferComposer) :
    Prog PARCBufferComposer := do
  let composer ← parcBufferComposerPutStrings composer [uri.scheme, some (literal ":"), none]
  let composer ← buildStringAuthority composer uri.authority
  let composer ← parcBufferComposerPutString composer (literal "/")
  let composer ← parcURIPathBuildString uri.path composer
  let composer ← buildStringOptional composer "?" uri.query
  buildStringOptional composer "#" uri.fragment

/-- `lineSize` is the `LEVEL1_DCACHE_LINESIZE` of the build. -/
def parcURIToString (lineSize : Nat) (uri : PARCURI) : Prog (List UInt8) := do
  let composer ← parcURIBuildString uri (parcBufferComposerCreate lineSize)
  parcBufferToString (parcBufferComposerProduceBuffer composer)

/-! ## What a URI is written as -/

def marked (mark : List UInt8) : Option (List UInt8) → List UInt8
  | some text => mark ++ text
  | none => []

/-- The text behind the path. -/
def afterPath (uri : PARCURI) : List UInt8 :=
  marked [questionMark] uri.query ++ marked [numberSign] uri.fragment

def written (scheme : List UInt8) (uri : PARCURI) (texts : List (List UInt8)) : List UInt8 :=
  scheme ++ colon :: (marked [slash, slash] uri.authority ++
    slash :: (joined texts ++ afterPath uri))

theorem buildStringOptional_composes (mark : String) (text : Option (List UInt8)) :
    Appends (buildStringOptional · mark text) (marked (literal mark) text) := by
  cases text with
  | none => exact .nil
  | some text => simpa [buildStringOptional, marked] using putStrings_composes [literal mark, text]

theorem buildStringAuthority_composes (auth : Option (List UInt8)) :
    Appends (buildStringAuthority · auth) (marked [slash, slash] auth) := by
  cases auth with
  | none => exact .nil
  | some auth => exact (putString_composes (literal "//")).bind (putString_composes auth)

theorem uriToString_eq (size : Nat) {uri scheme path texts} (hs : uri.scheme = some scheme)
    (hp : uri.path = some path) (h : PathOf path (texts.map some)) :
    parcURIToString size uri = pure (written scheme uri texts) := by
  obtain ⟨c1, h1, hc1⟩ := putStrings_composes [scheme, literal ":"]
    (composes_allocate size (parcMemoryRoundUpToCacheLine size size))
  obtain ⟨c2, h2, hc2⟩ := buildStringAuthority_composes uri.authority hc1
  obtain ⟨c3, h3, hc3⟩ := putString_composes (literal "/") hc2
  obtain ⟨c4, h4, hc4⟩ := pathBuildString_composes h hc3
  obtain ⟨c5, h5, hc5⟩ := buildStringOptional_composes "?" uri.query hc4
  obtain ⟨c6, h6, hc6⟩ := buildStringOptional_composes "#" uri.fragment hc5
  obtain ⟨hv, hb⟩ := produceBuffer_spec hc6
  have h1' : parcBufferComposerPutStrings (parcBufferComposerCreate size)
      [uri.scheme, some (literal ":"), none] = pure c1 := by
    rw [hs]
    exact h1
  have ht : [] ++ [scheme, literal ":"].flatten ++ marked [slash, slash] uri.authority ++
      literal "/" ++ joined texts ++ marked (literal "?") uri.query ++
      marked (literal "#") uri.fragment = written scheme uri texts := by
    rw [show literal ":" = [colon] from rfl, show literal "/" = [slash] from rfl,
      show literal "?" = [questionMark] from rfl, show literal "#" = [numberSign] from rfl]
    simp [written, afterPath]
  simp only [parcURIToString, parcURIBuildString, h1', h2, h3, hp, h4, h5, h6, pure_bind,
    toString_spec hv, hb, ht]

theorem uriToString_fault (size : Nat) {uri scheme}
    (hs : uri.scheme = some scheme) (hpa : ∀ path, uri.path = some path →
      ∃ ss, PathOf path ss ∧ none ∈ ss) : parcURIToString size uri = throw .memoryFault := by
  obtain ⟨c1, h1, hc1⟩ := putStrings_composes [scheme, literal ":"]
    (composes_allocate size (parcMemoryRoundUpToCacheLine size size))
  obtain ⟨c2, h2, hc2⟩ := buildStringAuthority_composes uri.authority hc1
  obtain ⟨c3, h3, hc3⟩ := putString_composes (literal "/") hc2
  have h1' : parcBufferComposerPutStrings (parcBufferComposerCreate size)
      [uri.scheme, some (literal ":"), none] = pure c1 := by
    rw [hs]
    exact h1
  have h4 : parcURIPathBuildString uri.path c3 = throw .memoryFault := by
    cases hp : uri.path with
    | none => rfl
    | some path =>
      obtain ⟨ss, h, hn⟩ := hpa path hp
      exact pathBuildString_null h hn hc3
  simp only [parcURIToString, parcURIBuildString, h1', h2, h3, h4, pure_bind]
  rfl

/-! ## Reading it back -/

/-- The components that were read have none of the characters that end them. -/
structure Readable (uri : PARCURI) (scheme : List UInt8) : Prop where
  scheme_eq : uri.scheme = some scheme
  scheme_ne : scheme ≠ []
  scheme_chars : ∀ c ∈ scheme, notIn [colon] c = true
  authority_chars : ∀ text, uri.authority = some text → ∀ c ∈ text, notIn [slash] c = true
  query_chars : ∀ text, uri.query = some text → ∀ c ∈ text, notIn [numberSign] c = true
  fragment_chars : ∀ text, uri.fragment = some text → ∀ c ∈ text, notIn [] c = true

variable {stops text rest scheme s : List UInt8} {uri : PARCURI} {texts : List (List UInt8)}
  {path : PARCURIPath}

theorem notIn_eq_false {c} (h : c ∈ stops ∨ c = 0) : notIn stops c = false := by
  rcases h with h | rfl
  · simp [notIn, h]
  · rfl

theorem charAt_marked (mark : UInt8) (text : Option (List UInt8)) :
    charAt (marked [mark] text) = mark ∨ charAt (marked [mark] text) = 0 := by
  cases text with
  | none => exact .inr rfl
  | some text => exact .inl rfl

theorem takeWhile_notIn (ht : ∀ c ∈ text, notIn stops c = true)
    (hr : notIn stops (charAt rest) = false) : (text ++ rest).takeWhile (notIn stops) = text := by
  rw [takeWhile_append_of_pos ht]
  cases rest with
  | nil => simp
  | cons c rest => rw [takeWhile_cons_of_neg (by simpa using hr), append_nil]

theorem parseScheme_append (hne : scheme ≠ []) (hs : ∀ c ∈ scheme, notIn [colon] c = true)
    (rest : List UInt8) : parseScheme (scheme ++ colon :: rest) = some (scheme, rest) := by
  have hl : scheme.length ≠ 0 := fun h => hne (length_eq_zero_iff.mp h)
  have hc : ¬ charAt ((scheme ++ colon :: rest).drop scheme.length) = 0 := by
    rw [drop_left]
    exact (by decide : colon ≠ 0)
  have hdrop : (scheme ++ colon :: rest).drop (scheme.length + 1) = rest := by
    rw [← drop_drop, drop_left]
    rfl
  have hr : (scheme ++ colon :: rest).takeWhile (notIn [colon]) = scheme :=
    takeWhile_notIn hs (notIn_eq_false (.inl (.head _)))
  simp only [parseScheme, hr, if_neg hc, if_neg hl, hdrop]

theorem parseAuthority_some {authority} (ha : ∀ c ∈ authority, notIn [slash] c = true) :
    parseAuthority (slash :: slash :: (authority ++ slash :: rest)) =
      (some authority, slash :: rest) := by
  have hr : (authority ++ slash :: rest).takeWhile (notIn [slash]) = authority :=
    takeWhile_notIn ha (notIn_eq_false (.inl (.head _)))
  simp only [parseAuthority, charAt_cons, tail_cons, and_self, if_true, hr, drop_left]

theorem parseMarked_append {mark} (ht : ∀ c ∈ text, notIn stops c = true)
    (hr : notIn stops (charAt rest) = false) (ptr : List UInt8) :
    parseMarked mark stops (mark :: (text ++ rest)) ptr = (some text, rest) := by
  simp [parseMarked, takeWhile_notIn ht hr]

section
variable (h : Readable uri scheme)
include h

theorem parse_afterPath :
    ∃ p, parseQuery (afterPath uri) (afterPath uri) = (uri.query, p) ∧
      (parseFragment p p).1 = uri.fragment := by
  have hfr : ∀ p, (parseFragment (marked [numberSign] uri.fragment) p).1 = uri.fragment := by
    intro p
    cases hf : uri.fragment with
    | none => rfl
    | some text =>
      have hr : parseMarked numberSign [] (numberSign :: (text ++ [])) p = (some text, []) :=
        parseMarked_append (h.fragment_chars text hf) rfl p
      rw [append_nil] at hr
      simp only [marked, singleton_append, parseFragment, hr]
  refine ⟨marked [numberSign] uri.fragment, ?_, hfr _⟩
  have hc := charAt_marked numberSign uri.fragment
  have hs : notIn [numberSign] (charAt (marked [numberSign] uri.fragment)) = false :=
    notIn_eq_false (hc.imp_left mem_singleton.mpr)
  cases hq : uri.query with
  | some text =>
    simp only [afterPath, hq, marked, singleton_append, parseQuery]
    exact parseMarked_append (h.query_chars text hq) hs _
  | none =>
    have hm : charAt (marked [numberSign] uri.fragment) ≠ questionMark := by
      rcases hc with hc | hc <;> rw [hc] <;> decide
    simp only [afterPath, hq, marked, nil_append, parseQuery, parseMarked]
    exact if_pos hm

theorem parse_written (he : PathEnd (afterPath uri))
    (ht : text ≠ [] ∨ texts = []) :
    ∃ path, parcURIParse (written scheme uri (text :: texts)) =
        pure (some { uri with path := some path }) ∧
      PathOf path ((compact (text :: texts)).map some) := by
  have hs := parseScheme_append h.scheme_ne h.scheme_chars
    (marked [slash, slash] uri.authority ++ slash :: (joined (text :: texts) ++ afterPath uri))
  have hau : parseAuthority (marked [slash, slash] uri.authority ++
      slash :: (joined (text :: texts) ++ afterPath uri)) =
        (uri.authority, slashed (text :: texts) ++ afterPath uri) := by
    cases ha : uri.authority with
    | some auth => exact parseAuthority_some (h.authority_chars auth ha)
    | none =>
      have hn : charAt (joined (text :: texts) ++ afterPath uri) ≠ slash := by
        have hta : joined (text :: texts) ++ afterPath uri =
            encode text ++ (slashed texts ++ afterPath uri) := by
          simp [joined, slashed]
        rw [hta]
        refine charAt_encode_ne (ht.imp_right fun hni => ?_)
        rw [hni]
        exact he.ne_slash
      exact if_neg fun hsl => hn hsl.2
  obtain ⟨path, hp, hpo⟩ := parse_slashed he ht (slashed (text :: texts) ++ afterPath uri)
  obtain ⟨p, hq, hf⟩ := parse_afterPath h
  refine ⟨path, ?_, hpo⟩
  simp only [parcURIParse, written, hs, hau, hp, pure_bind, hq, hf, h.scheme_eq]

theorem parse_written_doubled {uri'}
    (hp : parcURIParse (written scheme uri ([] :: text :: texts)) = pure (some uri')) :
    stringEquals uri'.authority uri.authority = false := by
  have hs := parseScheme_append h.scheme_ne h.scheme_chars
    (marked [slash, slash] uri.authority ++
      slash :: (joined ([] :: text :: texts) ++ afterPath uri))
  obtain ⟨rest, hr⟩ : ∃ rest, joined ([] :: text :: texts) ++ afterPath uri = slash :: rest :=
    ⟨_, rfl⟩
  rw [hr] at hs
  simp only [parcURIParse, written, hr, hs] at hp
  cases ha : uri.authority with
  | none =>
    simp only [ha, marked, nil_append, parseAuthority, charAt_cons, tail_cons, and_self,
      if_true] at hp
    obtain ⟨⟨path, ptr⟩, _, hp⟩ := Exec.bind_eq_pure.mp hp
    cases hp
    rfl
  | some auth =>
    have hau : parseAuthority (slash :: slash :: (auth ++ slash :: slash :: rest)) = _ :=
      parseAuthority_some (h.authority_chars auth ha)
    simp only [ha, marked, cons_append, nil_append, hau, pathParse_doubled] at hp
    cases hp

end

/-! ## What any text is read as -/

theorem of_mem_takeWhile : ∀ c ∈ s.takeWhile (notIn stops), notIn stops c = true :=
  all_eq_true.mp all_takeWhile

variable {p : List UInt8}

theorem parseScheme_inv (h : parseScheme s = some (scheme, p)) :
    scheme ≠ [] ∧ ∀ c ∈ scheme, notIn [colon] c = true := by
  simp only [parseScheme] at h
  split_ifs at h with he hem
  cases h
  exact ⟨fun hn => hem (by rw [hn]; rfl), of_mem_takeWhile⟩

theorem parseAuthority_inv (h : parseAuthority s = (some text, p)) :
    ∀ c ∈ text, notIn [slash] c = true := by
  unfold parseAuthority at h
  split at h
  · cases h
    exact of_mem_takeWhile
  · cases h

theorem parseMarked_chars {mark ptr}
    (h : parseMarked mark stops s ptr = (some text, p)) : ∀ c ∈ text, notIn stops c = true := by
  unfold parseMarked at h
  split at h
  · cases h
  · cases h
    exact of_mem_takeWhile

theorem pathEnd_marked {mark} (hp : PathEnd p) (hm : charAt p = mark) (hne : mark ≠ 0)
    (hr : charAt rest ≠ slash) : PathEnd (mark :: (p.tail.takeWhile (notIn stops) ++ rest)) := by
  refine ⟨?_, fun _ => ?_⟩
  · rw [← hm]
    exact hp.char
  · have hn := hp.next (hm.trans_ne hne)
    cases ht : p.tail with
    | nil => exact hr
    | cons c q =>
      rw [ht] at hn
      rw [takeWhile_cons]
      split
      · exact hn
      · exact hr

theorem afterPath_inv {p' p''} (hq : parseQuery p p = (uri.query, p'))
    (hf : parseFragment p' p' = (uri.fragment, p'')) :
    (charAt p = 0 → afterPath uri = []) ∧ (PathEnd p → PathEnd (afterPath uri)) := by
  unfold parseQuery parseMarked at hq
  split at hq
  · -- no query, so the fragment is read from the same place
    obtain ⟨hn, rfl⟩ := mk.inj hq
    unfold parseFragment parseMarked at hf
    split at hf
    · have he : afterPath uri = [] := by
        rw [afterPath, ← hn, ← (mk.inj hf).1]
        rfl
      rw [he]
      exact ⟨fun _ => rfl, fun _ => pathEnd_nil⟩
    · rename_i hm'
      have hs := not_not.mp hm'
      have ht : afterPath uri = numberSign :: (p.tail.takeWhile (notIn []) ++ []) := by
        rw [afterPath, ← hn, ← (mk.inj hf).1, append_nil]
        rfl
      rw [ht]
      refine ⟨fun hz => ?_, fun hp => pathEnd_marked hp hs (by decide) (by decide)⟩
      rw [hz] at hs
      exact absurd hs (by decide)
  · rename_i hm
    have hs := not_not.mp hm
    have ht : afterPath uri = questionMark ::
        (p.tail.takeWhile (notIn [numberSign]) ++ marked [numberSign] uri.fragment) := by
      rw [afterPath, ← (mk.inj hq).1]
      rfl
    rw [ht]
    refine ⟨fun hz => ?_, fun hp => pathEnd_marked hp hs (by decide) ?_⟩
    · rw [hz] at hs
      exact absurd hs (by decide)
    · rcases charAt_marked numberSign uri.fragment with hc | hc <;> rw [hc] <;> decide

theorem parse_inv (h : parcURIParse s = pure (some uri)) :
    ∃ scheme, Readable uri scheme ∧ ∀ path, uri.path = some path →
      ∃ ss, PathOf path ss ∧ (ss = [] → afterPath uri = []) ∧
        (ss ≠ [] → none ∉ ss → PathEnd (afterPath uri)) := by
  unfold parcURIParse at h
  split at h
  · cases h
  · rename_i scheme p0 hs
    obtain ⟨⟨path, p2⟩, hp, h⟩ := Exec.bind_eq_pure.mp h
    cases h
    obtain ⟨hne, hc⟩ := parseScheme_inv hs
    refine ⟨scheme, ⟨rfl, hne, hc, ?_, ?_, ?_⟩, ?_⟩
    · intro text ht
      exact parseAuthority_inv (Prod.ext ht rfl)
    · intro text ht
      exact parseMarked_chars (Prod.ext ht rfl)
    · intro text ht
      exact parseMarked_chars (Prod.ext ht rfl)
    · intro path' hp'
      cases hp'
      obtain ⟨ss, hse, hn, he⟩ := pathParse_inv hp
      have ha := @afterPath_inv ⟨some scheme, (parseAuthority p0).1, some path',
        (parseQuery p2 p2).1, (parseFragment (parseQuery p2 p2).2 (parseQuery p2 p2).2).1⟩
        p2 _ _ rfl rfl
      refine ⟨ss, hse, fun h0 => ha.1 ?_, fun h1 h2 => ha.2 (he h1 h2)⟩
      obtain ⟨hz, hpo⟩ := hn h0
      rw [hpo]
      exact hz

/-! ## The round trip -/

theorem stringEquals_self (a : Option (List UInt8)) : stringEquals a a = true := by
  cases a with
  | none => rfl
  | some a => exact beq_self_eq_true _

theorem uriEquals_spec {path' ss ss'}
    (hp : uri.path = some path) (h : PathOf path ss) (h' : PathOf path' ss') :
    parcURIEquals { uri with path := some path' } uri = pure (decide (ss' = ss)) := by
  simp only [parcURIEquals, stringEquals_self, and_self, if_true, hp, pathEquals_spec h' h,
    pure_bind, Bool.and_true]

/-- The URI can be written, and what it is written as is read as an equal one. -/
def RoundTrips (lineSize : Nat) (uri : PARCURI) : Prop :=
  ∃ text uri', parcURIToString lineSize uri = pure text ∧
    parcURIParse text = pure (some uri') ∧ parcURIEquals uri' uri = pure true

/-- The URI has a path of at least one segment; none of its segments is NULL, and none but the
last is empty. -/
def HasFullPath (uri : PARCURI) : Prop :=
  ∃ path texts, uri.path = some path ∧ PathOf path (texts.map some) ∧ texts ≠ [] ∧
    ∀ text ∈ texts.dropLast, text ≠ []

theorem hasFullPath_iff (hp : uri.path = some path) (h : PathOf path (texts.map some)) :
    HasFullPath uri ↔ texts ≠ [] ∧ ∀ text ∈ texts.dropLast, text ≠ [] := by
  constructor
  · intro ⟨path', ts', hp', h', hne, hf⟩
    cases hp.symm.trans hp'
    cases map_injective_iff.mpr (fun _ _ => Option.some.inj) (h'.unique h)
    exact ⟨hne, hf⟩
  · intro ⟨hne, hf⟩
    exact ⟨path, texts, hp, h, hne, hf⟩

theorem roundTrips_iff (size : Nat) (hr : Readable uri scheme) (hp : uri.path = some path)
    (h : PathOf path (texts.map some)) (he : PathEnd (afterPath uri)) :
    RoundTrips size uri ↔ texts ≠ [] ∧ ∀ text ∈ texts.dropLast, text ≠ [] := by
  have hw := uriToString_eq size hr.scheme_eq hp h
  -- What is read back has these texts, unless the path starts with an empty one of several.
  have hb : ∀ text rest, (text ≠ [] ∨ rest = []) →
      written scheme uri (text :: rest) = written scheme uri texts →
      (RoundTrips size uri ↔ compact (text :: rest) = texts) := by
    intro text rest ht hs
    obtain ⟨path', hpa, h'⟩ := parse_written hr he ht
    have hel := uriEquals_spec hp h h'
    have hi : (compact (text :: rest)).map some = texts.map some ↔ compact (text :: rest) = texts :=
      (map_injective_iff.mpr fun _ _ => Option.some.inj).eq_iff
    constructor
    · rintro ⟨text', uri', hto, hf, heq⟩
      cases hw.symm.trans hto
      rw [← hs, hpa] at hf
      cases hf
      rw [hel] at heq
      exact hi.mp (of_decide_eq_true (Exec.pure_inj.mp heq))
    · intro heq
      refine ⟨_, _, hw, hs ▸ hpa, ?_⟩
      rw [hel, decide_eq_true (hi.mpr heq)]
  cases texts with
  | nil =>
    rw [hb [] [] (.inr rfl) rfl]
    simp [compact]
  | cons text rest =>
    by_cases ht : text ≠ [] ∨ rest = []
    · rw [hb text rest ht rfl, compact_eq_iff]
      simp
    · obtain ⟨hn, hre⟩ := not_or.mp ht
      cases not_not.mp hn
      obtain ⟨next, rest, rfl⟩ := exists_cons_of_ne_nil hre
      constructor
      · rintro ⟨text', uri', hto, hf, heq⟩
        cases hw.symm.trans hto
        have ha := parse_written_doubled hr hf
        simp only [parcURIEquals, ha, Bool.false_eq_true, and_false, if_false] at heq
        cases heq
      · rintro ⟨-, hfu⟩
        exact absurd rfl (hfu [] (by simp))

/-- **A URI that was read is read back from its text exactly if it has a full path.** -/
theorem uri_roundTrip_iff (lineSize : Nat) (string : List UInt8) (uri : PARCURI)
    (hparse : parcURIParse string = pure (some uri)) :
    RoundTrips lineSize uri ↔ HasFullPath uri := by
  obtain ⟨scheme, hr, hp⟩ := parse_inv hparse
  have hf : (∀ path, uri.path = some path → ∃ ss, PathOf path ss ∧
      none ∈ ss) → (RoundTrips lineSize uri ↔ HasFullPath uri) := by
    intro hn
    constructor
    · intro ⟨text, _, hto, _⟩
      rw [uriToString_fault lineSize hr.scheme_eq hn] at hto
      cases hto
    · intro ⟨path, texts, hpa, h, _⟩
      obtain ⟨ss, h', hm⟩ := hn path hpa
      rw [h'.unique h] at hm
      simp at hm
  cases hpa : uri.path with
  | none =>
    refine hf fun path hs => ?_
    rw [hpa] at hs
    cases hs
  | some path =>
    obtain ⟨ss, h, hni, he⟩ := hp path hpa
    by_cases hn : none ∈ ss
    · refine hf fun path' hs => ?_
      cases hpa.symm.trans hs
      exact ⟨ss, h, hn⟩
    · obtain ⟨texts, rfl⟩ := exists_texts hn
      have ha : PathEnd (afterPath uri) := by
        by_cases hem : texts.map some = []
        · rw [hni hem]
          exact pathEnd_nil
        · exact he hem hn
      rw [hasFullPath_iff hpa h, roundTrips_iff lineSize hr hpa h ha]

/-- A URI with a path of one segment and a query. -/
theorem uri_roundTrip_lci :
    ∃ uri, parcURIParse (literal "lci:/a?b") = pure (some uri) ∧ RoundTrips 64 uri := by
  have hr : Readable ⟨some (literal "lci"), none, none, some (literal "b"), none⟩
      (literal "lci") := by
    refine ⟨rfl, by decide +kernel, by decide +kernel, nofun, fun text ht => ?_, nofun⟩
    cases ht
    decide +kernel
  have he : PathEnd (literal "?b") := ⟨.inr (.inl rfl), fun _ => by decide⟩
  have ht : literal "a" ≠ [] ∨ ([] : List (List UInt8)) = [] := .inr rfl
  obtain ⟨path, hp, hpa⟩ := parse_written hr he ht
  exact ⟨_, hp, (uri_roundTrip_iff 64 (literal "lci:/a?b") _ hp).mpr
    ⟨path, [literal "a"], rfl, hpa, by simp, by simp⟩⟩

/-- A text without a slash behind the scheme is read as a URI without a path, which cannot be
written; a text that is a scheme only has no segments, and is read back with an empty one. -/
theorem uri_roundTrip_fails :
    (∃ uri, parcURIParse (literal "lci:foo") = pure (some uri) ∧
      parcURIToString 64 uri = throw .memoryFault) ∧
    ∃ uri, parcURIParse (literal "lci:") = pure (some uri) ∧
      parcURIToString 64 uri = pure (literal "lci:/") ∧ ¬ RoundTrips 64 uri := by
  have hr : Readable ⟨some (literal "lci"), none, some emptyPath, none, none⟩
      (literal "lci") := ⟨rfl, by decide +kernel, by decide +kernel, nofun, nofun, nofun⟩
  have hp : PathOf emptyPath (([] : List (List UInt8)).map some) := pathOf_empty
  have hto := uriToString_eq 64 hr.scheme_eq rfl hp
  refine ⟨⟨_, rfl, uriToString_fault 64 rfl nofun⟩,
    ⟨some (literal "lci"), none, some emptyPath, none, none⟩, rfl, hto, ?_⟩
  rw [roundTrips_iff 64 hr rfl hp pathEnd_nil]
  simp

end Libparc.URI
