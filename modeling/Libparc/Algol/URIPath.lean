import Libparc.Algol.ArrayList
import Libparc.Algol.URISegment

/-! # parc_URIPath

A path is an array list of segments, of which one may be NULL: a segment that cannot be decoded
is appended as NULL and the rest of it is read again from its second character on. What a path
of segments is written as is read back with those of its empty segments left out that are not
the last one (`parse_slashed`), since the slashes around them are absorbed. -/
namespace Libparc.URI
open Buffer BufferComposer ArrayList Exec List

structure PARCURIPath where
  segments : PARCArrayList (Option PARCURISegment)

/-- A path without segments; `parcURISegment_Release` leaves NULL in a slot. -/
def emptyPath : PARCURIPath := ⟨parcArrayListCreate (some fun _ => none)⟩

def parcURIPathAppend (path : PARCURIPath) (segment : Option PARCURISegment) :
    Prog PARCURIPath := do
  pure ⟨← parcArrayListAdd path.segments segment⟩

def parcURIPathGet (path : PARCURIPath) (index : Nat) : Prog (Option PARCURISegment) :=
  parcArrayListGet path.segments index

/-- A turn of the loop of `parcURIPath_Parse`. -/
def parsePathBody : List UInt8 × PARCURIPath →
    Prog ((List UInt8 × PARCURIPath) ⊕ (List UInt8 × PARCURIPath))
  | (p, path) =>
    if charAt p ≠ 0 ∧ charAt p ≠ questionMark ∧ charAt p ≠ numberSign then do
      let p := p.tail
      match ← parcURISegmentParse p with
      | none => pure (.inl (p, ← parcURIPathAppend path none))
      | some (segment, p) => pure (.inl (p, ← parcURIPathAppend path (some segment)))
    else pure (.inr (p, path))

/-- The path, or NULL, and the pointer behind it: the caller's pointer, if it was not moved. -/
def parcURIPathParse (string pointer : List UInt8) :
    Prog (Option PARCURIPath × List UInt8) :=
  if charAt string ≠ 0 then
    if charAt string ≠ slash then pure (none, pointer)
    else do
      let (pointer, result) ← Exec.loop parsePathBody (string, emptyPath)
      pure (some result, pointer)
  else pure (some emptyPath, pointer)

/-- Either may be NULL. -/
def parcURIPathEquals (pathA pathB : Option PARCURIPath) : Prog Bool :=
  match pathA, pathB with
  | none, none => pure true
  | some pathA, some pathB =>
    if parcArrayListSize pathA.segments = parcArrayListSize pathB.segments then
      (List.range (parcArrayListSize pathA.segments)).allM fun i => do
        let segmentA ← parcArrayListGet pathA.segments i
        let segmentB ← parcArrayListGet pathB.segments i
        parcURISegmentEquals segmentA segmentB
    else pure false
  | _, _ => pure false

/-- A NULL is not followed. -/
def pointee {α : Type} (p : Option α) : Prog α :=
  match p with
  | some a => pure a
  | none => throw .memoryFault

/-- A turn of the loop of `parcURIPath_BuildString`. -/
def buildStringSegment (path : PARCURIPath) (nSegments : Nat) (composer : PARCBufferComposer)
    (i : Nat) : Prog PARCBufferComposer := do
  let segment ← pointee (← parcURIPathGet path i)
  let composer ← parcURISegmentBuildString segment composer
  if i < nSegments - 1 then parcBufferComposerPutChar composer slash else pure composer

def parcURIPathBuildString (path : Option PARCURIPath) (composer : PARCBufferComposer) :
    Prog PARCBufferComposer := do
  let path ← pointee path
  let nSegments := parcArrayListSize path.segments
  (List.range nSegments).foldlM (buildStringSegment path nSegments) composer

/-- `lineSize` is the `LEVEL1_DCACHE_LINESIZE` of the build. -/
def parcURIPathToString (lineSize : Nat) (path : Option PARCURIPath) : Prog (List UInt8) := do
  let composer ← parcURIPathBuildString path (parcBufferComposerCreate lineSize)
  parcBufferToString (parcBufferComposerProduceBuffer composer)

/-! ## The segments of a path -/

/-- A segment, or NULL. -/
def ShowsSegment : Option PARCURISegment → Option (List UInt8) → Prop
  | none, none => True
  | some segment, some bytes => SegmentOf segment bytes
  | _, _ => False

/-- The path's segments are these, some of which may be NULL. -/
def PathOf (path : PARCURIPath) (segments : List (Option (List UInt8))) : Prop :=
  ∃ list, Holds path.segments list ∧ List.Forall₂ ShowsSegment list segments

theorem pathOf_empty : PathOf emptyPath [] := ⟨[], .create _, .nil⟩

section
variable {path : PARCURIPath} {ss : List (Option (List UInt8))}

theorem append_pathOf (h : PathOf path ss) {s bs} (hs : ShowsSegment s bs) :
    ∃ path', parcURIPathAppend path s = pure path' ∧ PathOf path' (ss ++ [bs]) := by
  obtain ⟨l, hl, ha⟩ := h
  obtain ⟨l', had, hl', -⟩ := add_holds hl s
  refine ⟨⟨l'⟩, by rw [parcURIPathAppend, had, pure_bind], l ++ [s], hl', ?_⟩
  exact rel_append ha (.cons hs .nil)

theorem PathOf.size (h : PathOf path ss) : parcArrayListSize path.segments = ss.length := by
  obtain ⟨l, hl, ha⟩ := h
  rw [parcArrayListSize, hl.size, ha.length_eq]

theorem PathOf.get (h : PathOf path ss) {i} (hi : i < ss.length) :
    ∃ s, parcArrayListGet path.segments i = pure s ∧ ShowsSegment s ss[i] := by
  obtain ⟨l, hl, ha⟩ := h
  have hle := ha.length_eq
  refine ⟨l[i], get_holds hl (by omega), ?_⟩
  exact (forall₂_iff_get.mp ha).2 i (by omega) hi

theorem ShowsSegment.unique {s bs bytes'}
    (h : ShowsSegment s bs) (h' : ShowsSegment s bytes') : bs = bytes' := by
  cases s <;> cases bs <;> cases bytes' <;> simp only [ShowsSegment] at h h'
  · rfl
  · rw [← h.bytes_eq, ← h'.bytes_eq]

theorem PathOf.unique {segments'} (h : PathOf path ss)
    (h' : PathOf path segments') : ss = segments' := by
  have hl : ss.length = segments'.length := h.size.symm.trans h'.size
  refine ext_getElem hl fun i hi hi' => ?_
  obtain ⟨s, hg, hs⟩ := h.get hi
  obtain ⟨s', hg', hs'⟩ := h'.get hi'
  rw [hg] at hg'
  cases hg'
  exact hs.unique hs'

theorem segmentEquals_shows {segmentA segmentB bytesA bytesB} (hA : ShowsSegment segmentA bytesA)
    (hB : ShowsSegment segmentB bytesB) :
    parcURISegmentEquals segmentA segmentB = pure (decide (bytesA = bytesB)) := by
  cases segmentA <;> cases bytesA <;> cases segmentB <;> cases bytesB <;>
    simp only [ShowsSegment] at hA hB
  · rfl
  · rfl
  · rfl
  · rw [segmentEquals_spec hA hB]
    simp

theorem allM_eq {ι : Type} {f : ι → Prog Bool} {p} {l : List ι}
    (h : ∀ i ∈ l, f i = pure (p i)) : l.allM f = pure (l.all p) := by
  induction l with
  | nil => rfl
  | cons i l ih =>
    rw [allM, h i mem_cons_self, pure_bind, all_cons]
    cases p i with
    | false => rfl
    | true => exact ih fun j hj => h j (.tail _ hj)

theorem pathEquals_spec {pathA pathB : PARCURIPath} {segmentsA segmentsB}
    (hA : PathOf pathA segmentsA) (hB : PathOf pathB segmentsB) :
    parcURIPathEquals (some pathA) (some pathB) = pure (decide (segmentsA = segmentsB)) := by
  rw [parcURIPathEquals, hA.size, hB.size]
  split
  · rename_i hl
    have ht : ∀ i ∈ range segmentsA.length, (do
        let segmentA ← parcArrayListGet pathA.segments i
        let segmentB ← parcArrayListGet pathB.segments i
        parcURISegmentEquals segmentA segmentB) =
          pure (decide (segmentsA[i]? = segmentsB[i]?)) := by
      intro i hi
      have hi := mem_range.mp hi
      obtain ⟨a, ha, hsa⟩ := hA.get hi
      obtain ⟨b, hb, hsb⟩ := hB.get (hl ▸ hi)
      rw [ha, pure_bind, hb, pure_bind, segmentEquals_shows hsa hsb, getElem?_eq_getElem hi,
        getElem?_eq_getElem (hl ▸ hi)]
      simp
    rw [allM_eq ht]
    congr 1
    rw [Bool.eq_iff_iff, all_eq_true, decide_eq_true_iff]
    constructor
    · intro hal
      refine ext_getElem? fun i => ?_
      by_cases hi : i < segmentsA.length
      · exact of_decide_eq_true (hal i (mem_range.mpr hi))
      · rw [getElem?_eq_none (by omega), getElem?_eq_none (by omega)]
    · rintro rfl i _
      exact decide_eq_true rfl
  · rename_i hl
    have hne : segmentsA ≠ segmentsB := fun heq => hl (by rw [heq])
    rw [decide_eq_false hne]

/-! ## What a path is written as -/

/-- Each of the segments, with a slash in front of it. -/
def slashed (segments : List (List UInt8)) : List UInt8 :=
  segments.flatMap fun bytes => slash :: encode bytes

/-- The segments with slashes in between. -/
def joined (segments : List (List UInt8)) : List UInt8 := (slashed segments).tail

theorem slash_cons_joined {ss} (h : ss ≠ []) : slash :: joined ss = slashed ss := by
  cases ss with
  | nil => exact absurd rfl h
  | cons bs ss => rfl

/-- What is written once the first `texts` are, with the slash in front of the next one. -/
def writtenOf (texts : List (List UInt8)) (nSegments : Nat) : List UInt8 :=
  (slashed texts ++ if texts.length < nSegments then [slash] else []).tail

theorem writtenOf_concat (texts : List (List UInt8)) (text : List UInt8) {nSegments}
    (h : texts.length < nSegments) :
    writtenOf texts nSegments ++ encode text ++
        (if texts.length < nSegments - 1 then [slash] else []) =
      writtenOf (texts ++ [text]) nSegments := by
  have hi : texts.length < nSegments - 1 ↔ (texts ++ [text]).length < nSegments := by
    rw [length_append, length_singleton]
    omega
  simp only [writtenOf, if_pos h, hi, slashed, flatMap_append, flatMap_singleton]
  cases hs : (texts.flatMap fun bs => slash :: encode bs) with
  | nil => simp
  | cons c rest => simp

variable {c : PARCBufferComposer} {out : List UInt8}

theorem buildStringSegment_composes (h : PathOf path ss) {i text}
    (hi : ss[i]? = some (some text)) (nSegments : Nat) :
    Appends (buildStringSegment path nSegments · i)
      (encode text ++ if i < nSegments - 1 then [slash] else []) := by
  obtain ⟨hlt, ht⟩ := List.getElem?_eq_some_iff.mp hi
  obtain ⟨s, hg, hs⟩ := h.get hlt
  rw [ht] at hs
  cases s with
  | none => cases hs
  | some s =>
    simp only [buildStringSegment, parcURIPathGet, hg, pointee, pure_bind]
    exact (buildString_composes hs).bind (.ite (putUint8_composes slash) .nil)

theorem buildString_turns (h : PathOf path ss) (texts : List (List UInt8)) {rest}
    (hs : ss = texts.map some ++ rest) :
    Appends ((range texts.length).foldlM (buildStringSegment path ss.length))
      (writtenOf texts ss.length) := by
  induction texts using reverseRecOn generalizing rest with
  | nil =>
    have hn : writtenOf [] ss.length = [] := by
      unfold writtenOf
      split <;> rfl
    rw [hn]
    exact .nil
  | append_singleton texts text ih =>
    have hs' : ss = texts.map some ++ some text :: rest := by
      rw [hs]
      simp
    have hi : ss[texts.length]? = some (some text) := by
      rw [hs']
      simp
    have hb := (ih hs').bind (buildStringSegment_composes h hi ss.length)
    simp only [length_append, length_singleton, range_succ, foldlM_append, foldlM_cons, foldlM_nil,
      bind_pure]
    rwa [← writtenOf_concat texts text (List.getElem?_eq_some_iff.mp hi).1, append_assoc]

theorem pathBuildString_composes {texts} (h : PathOf path (texts.map some)) :
    Appends (parcURIPathBuildString (some path)) (joined texts) := by
  intro c out hc
  obtain ⟨c', ht, h'⟩ := buildString_turns h texts (append_nil _).symm hc
  refine ⟨c', ?_, ?_⟩
  · simp only [parcURIPathBuildString, pointee, pure_bind, h.size]
    rw [length_map] at ht ⊢
    exact ht
  · simpa [writtenOf, joined] using h'

theorem exists_texts (hn : none ∉ ss) : ∃ texts : List (List UInt8), ss = texts.map some := by
  induction ss with
  | nil => exact ⟨[], rfl⟩
  | cons s ss ih =>
    obtain ⟨hh, ht⟩ := not_or.mp (mt mem_cons.mpr hn)
    obtain ⟨texts, rfl⟩ := ih ht
    cases s with
    | none => exact absurd rfl hh
    | some text => exact ⟨text :: texts, rfl⟩

theorem exists_first_null (hn : none ∈ ss) :
    ∃ (texts : List (List UInt8)) (rest : List (Option (List UInt8))),
      ss = texts.map some ++ none :: rest := by
  induction ss with
  | nil => cases hn
  | cons s ss ih =>
    cases s with
    | none => exact ⟨[], ss, rfl⟩
    | some text =>
      obtain ⟨texts, rest, rfl⟩ := ih (by simpa using hn)
      exact ⟨text :: texts, rest, rfl⟩

theorem pathBuildString_null (h : PathOf path ss) (hn : none ∈ ss) (hc : Composes c out) :
    parcURIPathBuildString (some path) c = throw .memoryFault := by
  obtain ⟨texts, rest, hs⟩ := exists_first_null hn
  obtain ⟨c', ht, _⟩ := buildString_turns h texts hs hc
  have hi : ss[texts.length]? = some none := by
    rw [hs]
    simp
  obtain ⟨hlt, hno⟩ := List.getElem?_eq_some_iff.mp hi
  obtain ⟨s, hg, hsh⟩ := h.get hlt
  rw [hno] at hsh
  cases s with
  | some s => cases hsh
  | none =>
    have hr : range ss.length = range texts.length ++
        (texts.length :: (range rest.length).map fun i => texts.length + (i + 1)) := by
      rw [hs, length_append, length_map, length_cons, range_add,
        range_succ_eq_map]
      simp
    simp only [parcURIPathBuildString, pointee, pure_bind, h.size]
    simp only [hr, foldlM_append, ht, pure_bind, foldlM_cons, buildStringSegment,
      parcURIPathGet, hg]
    rfl

theorem pathToString_eq (size : Nat) {texts} (h : PathOf path (texts.map some)) :
    parcURIPathToString size (some path) = pure (joined texts) := by
  obtain ⟨c, hb, hc⟩ := pathBuildString_composes h (composes_allocate size _)
  obtain ⟨hv, hby⟩ := produceBuffer_spec hc
  rw [parcURIPathToString, parcBufferComposerCreate, hb, pure_bind, toString_spec hv,
    hby, nil_append]

end

/-! ## Reading it back -/

/-- The pointer is where a path ends: no slash follows a `?` or `#`, which would be absorbed. -/
structure PathEnd (p : List UInt8) : Prop where
  char : charAt p = 0 ∨ charAt p = questionMark ∨ charAt p = numberSign
  next : charAt p ≠ 0 → charAt p.tail ≠ slash

theorem pathEnd_nil : PathEnd [] := ⟨.inl rfl, fun h => absurd rfl h⟩

variable {p text : List UInt8} {texts : List (List UInt8)}

theorem PathEnd.ne_slash (h : PathEnd p) : charAt p ≠ slash := by
  intro hp
  rcases h.char with hc | hc | hc <;> rw [hp] at hc <;> exact absurd hc (by decide)

theorem PathEnd.segmentEnd (h : PathEnd p) : SegmentEnd p := by
  rcases h.char with hc | hc
  · exact .inl hc
  · exact .inr (.inr hc)

theorem absorbSlashes_of_ne (h : charAt p.tail ≠ slash) : absorbSlashes p = p := by
  cases p with
  | nil => rfl
  | cons c p => exact if_neg h

theorem PathEnd.absorb (h : PathEnd p) : (if charAt p ≠ 0 then absorbSlashes p else p) = p := by
  split
  · rename_i hp
    exact absorbSlashes_of_ne (h.next hp)
  · rfl

/-- Without the empty texts in front, of which the last text is none. -/
def dropEmpty : List (List UInt8) → List (List UInt8)
  | text :: text' :: texts =>
    if text = [] then dropEmpty (text' :: texts) else text :: text' :: texts
  | texts => texts

/-- Without the empty texts, of which the last text is none. -/
def compact : List (List UInt8) → List (List UInt8)
  | text :: text' :: texts =>
    if text = [] then compact (text' :: texts) else text :: compact (text' :: texts)
  | texts => texts

theorem compact_dropEmpty (texts : List (List UInt8)) :
    compact (dropEmpty texts) = compact texts := by
  induction texts using dropEmpty.induct with
  | case1 text' texts ih => simp [dropEmpty, compact, ih]
  | case2 text text' texts hne => simp [dropEmpty, hne]
  | case3 texts hne => rw [dropEmpty]; exact hne

theorem slashed_cons (text : List UInt8) (texts : List (List UInt8)) (p : List UInt8) :
    slashed (text :: texts) ++ p = slash :: (encode text ++ (slashed texts ++ p)) := by
  simp [slashed]

theorem absorb_slashed (hp : PathEnd p) (ht : texts ≠ []) :
    absorbSlashes (slashed texts ++ p) = slashed (dropEmpty texts) ++ p ∧ dropEmpty texts ≠ [] ∧
      (dropEmpty texts).length ≤ texts.length ∧
      ∀ text rest, dropEmpty texts = text :: rest → text ≠ [] ∨ rest = [] := by
  induction texts using dropEmpty.induct with
  | case1 text' texts ih =>
    obtain ⟨ha, hne, hl, hh⟩ := ih nofun
    simp only [dropEmpty, if_true]
    refine ⟨?_, hne, Nat.le_succ_of_le hl, hh⟩
    rw [slashed_cons, absorbSlashes, if_pos, ← ha]
    · rfl
    · rfl
  | case2 text text' texts hne =>
    simp only [dropEmpty, if_neg hne]
    refine ⟨absorbSlashes_of_ne ?_, nofun, Nat.le_refl _, fun _ _ heq => ?_⟩
    · rw [slashed_cons]
      exact charAt_encode_ne (.inl hne)
    · cases heq
      exact .inl hne
  | case3 texts hm =>
    obtain ⟨text, rfl⟩ : ∃ text, texts = [text] := by
      cases texts with
      | nil => exact absurd rfl ht
      | cons text texts =>
        cases texts with
        | nil => exact ⟨text, rfl⟩
        | cons text' texts => exact absurd rfl (hm text text' texts)
    refine ⟨absorbSlashes_of_ne ?_, nofun, Nat.le_refl _, fun _ _ heq => ?_⟩
    · rw [slashed_cons]
      exact charAt_encode_ne (.inr hp.ne_slash)
    · cases heq
      exact .inr rfl

theorem parsePathBody_text {path segments}
    (h : PathOf path segments) (ht : text ≠ [] ∨ charAt p ≠ slash) (hp : SegmentEnd p) :
    ∃ path', parsePathBody (slash :: (encode text ++ p), path) =
        pure (.inl (if charAt p ≠ 0 then absorbSlashes p else p, path')) ∧
      PathOf path' (segments ++ [some text]) := by
  obtain ⟨s, hpa, hs⟩ := parse_encode ht hp
  obtain ⟨path', ha, h'⟩ := append_pathOf h (show ShowsSegment (some s) (some text) from hs)
  refine ⟨path', ?_, h'⟩
  have hsl : slash ≠ 0 ∧ slash ≠ questionMark ∧ slash ≠ numberSign := by decide
  simp only [parsePathBody, charAt_cons, if_pos hsl, tail_cons, hpa, pure_bind, ha]

theorem parsePathBody_end (hp : PathEnd p) (path : PARCURIPath) :
    parsePathBody (p, path) = pure (.inr (p, path)) := by
  have hs : ¬ (charAt p ≠ 0 ∧ charAt p ≠ questionMark ∧ charAt p ≠ numberSign) := by
    intro ⟨h0, h1, h2⟩
    rcases hp.char with hc | hc | hc <;> contradiction
  exact if_neg hs

theorem parsePathLoop_slashed (hp : PathEnd p) {path segments} (h : PathOf path segments)
    (ht : text ≠ [] ∨ texts = []) :
    ∃ path', Exec.loop parsePathBody (slashed (text :: texts) ++ p, path) = pure (p, path') ∧
      PathOf path' (segments ++ (compact (text :: texts)).map some) := by
  induction hn : texts.length using Nat.strongRecOn generalizing text texts path segments with
  | ind n ih =>
    cases texts with
    | nil =>
      obtain ⟨path', htu, h'⟩ := parsePathBody_text h (.inr hp.ne_slash) hp.segmentEnd
      rw [hp.absorb] at htu
      refine ⟨path', ?_, h'⟩
      rw [slashed_cons]
      exact (loop_next htu).trans (loop_done (parsePathBody_end hp path'))
    | cons next texts =>
      have hne : text ≠ [] := ht.resolve_right nofun
      have hs : charAt (slashed (next :: texts) ++ p) = slash := by
        rfl
      obtain ⟨path1, htu, h1⟩ := parsePathBody_text h (.inl hne) (.inr (.inl hs))
      obtain ⟨ha, hr, hl, hh⟩ := absorb_slashed hp (cons_ne_nil next texts)
      have hm : charAt (slashed (next :: texts) ++ p) ≠ 0 := by
        rw [hs]
        decide
      rw [if_pos hm, ha] at htu
      obtain ⟨text', ts', hdrop⟩ := exists_cons_of_ne_nil hr
      rw [hdrop] at htu hl
      -- What is left is shorter, and it starts with a text that is not empty, or is one text.
      obtain ⟨path', hlo, h'⟩ := ih ts'.length (by simp at hl hn; omega) h1 (hh text' ts' hdrop) rfl
      refine ⟨path', ?_, ?_⟩
      · rw [slashed_cons, loop_next htu, hlo]
      · rw [← hdrop, compact_dropEmpty] at h'
        simpa [compact, hne] using h'

theorem parse_slashed (hp : PathEnd p) (ht : text ≠ [] ∨ texts = []) (ptr : List UInt8) :
    ∃ path, parcURIPathParse (slashed (text :: texts) ++ p) ptr = pure (some path, p) ∧
      PathOf path ((compact (text :: texts)).map some) := by
  obtain ⟨path, hl, h⟩ := parsePathLoop_slashed hp pathOf_empty ht
  refine ⟨path, ?_, h⟩
  have hs : charAt (slashed (text :: texts) ++ p) = slash := by
    rfl
  have hne : slash ≠ 0 := by decide
  rw [parcURIPathParse, hs, if_pos hne, if_neg (not_not_intro rfl), hl, pure_bind]

theorem pathParse_doubled (rest ptr : List UInt8) :
    parcURIPathParse (slash :: slash :: rest) ptr = throw (.assertion
      s!"Input parameter '{shown (slash :: rest)}' must NOT point to an initial '/' character.") := by
  have hs : slash ≠ 0 ∧ slash ≠ questionMark ∧ slash ≠ numberSign := by decide
  have ht : parsePathBody (slash :: slash :: rest, emptyPath) = throw _ := rfl
  rw [parcURIPathParse, charAt_cons, if_pos hs.1, if_neg (not_not_intro rfl), loop_error ht]
  rfl

theorem compact_length_le (texts : List (List UInt8)) : (compact texts).length ≤ texts.length := by
  induction texts using compact.induct with
  | case1 text' texts ih =>
    exact Nat.le_succ_of_le ih
  | case2 text text' texts hne ih =>
    simp only [compact, if_neg hne]
    exact Nat.succ_le_succ ih
  | case3 texts hm => rw [compact]; exact hm

theorem compact_eq_iff : compact texts = texts ↔ ∀ text ∈ texts.dropLast, text ≠ [] := by
  induction texts using compact.induct with
  | case1 text' texts ih =>
    have hl := compact_length_le (text' :: texts)
    simp only [compact, if_true]
    refine ⟨fun heq => ?_, fun h => absurd rfl (h [] (by simp))⟩
    rw [heq] at hl
    exact absurd hl (Nat.not_succ_le_self _)
  | case2 text text' texts hne ih =>
    simp only [compact, if_neg hne, cons_inj_right, ih, dropLast_cons_cons, forall_mem_cons]
    exact ⟨fun h => ⟨hne, h⟩, And.right⟩
  | case3 texts hm =>
    rw [compact]
    · refine ⟨fun _ text hme => ?_, fun _ => rfl⟩
      cases texts with
      | nil => cases hme
      | cons text1 texts =>
        cases texts with
        | nil => cases hme
        | cons text2 texts => exact absurd rfl (hm text1 text2 texts)
    · exact hm

/-! ## What any text is read as -/

/-- What holds between the turns of the loop. -/
def ParsingPath (state : List UInt8 × PARCURIPath) : Prop :=
  ∃ segments, PathOf state.2 segments ∧ (segments = [] → charAt state.1 = slash) ∧
    (segments ≠ [] → none ∉ segments → charAt state.1 ≠ 0 → charAt state.1.tail ≠ slash)

theorem parsePathBody_inv {path segments x} (h : PathOf path segments)
    (ht : parsePathBody (p, path) = pure x) :
    (∃ p' path' bs, x = .inl (p', path') ∧ PathOf path' (segments ++ [bs]) ∧
      (bs ≠ none → charAt p' ≠ 0 → charAt p'.tail ≠ slash)) ∨
    x = .inr (p, path) ∧ (charAt p = 0 ∨ charAt p = questionMark ∨ charAt p = numberSign) := by
  rw [parsePathBody] at ht
  split_ifs at ht with hm
  · obtain ⟨res, hp, ht⟩ := bind_eq_pure.mp ht
    cases res with
    | none =>
      obtain ⟨path', ha, hp'⟩ := append_pathOf h (show ShowsSegment none none from trivial)
      simp only [ha, pure_bind] at ht
      cases ht
      exact .inl ⟨_, path', none, rfl, hp', fun hne => absurd rfl hne⟩
    | some res =>
      obtain ⟨s, p'⟩ := res
      obtain ⟨⟨bs, hs⟩, hn⟩ := segmentParse_inv hp
      obtain ⟨path', ha, hp'⟩ := append_pathOf h (show ShowsSegment (some s) (some bs) from hs)
      simp only [ha, pure_bind] at ht
      cases ht
      exact .inl ⟨p', path', some bs, rfl, hp', fun _ => hn⟩
  · cases ht
    refine .inr ⟨rfl, ?_⟩
    by_contra hc
    simp only [not_or] at hc
    exact hm hc

theorem pathParse_inv {s ptr path} (h : parcURIPathParse s ptr = pure (some path, p)) :
    ∃ segments, PathOf path segments ∧ (segments = [] → charAt s = 0 ∧ p = ptr) ∧
      (segments ≠ [] → none ∉ segments → PathEnd p) := by
  unfold parcURIPathParse at h
  split_ifs at h with hz hs
  · cases h
  · obtain ⟨⟨p', path'⟩, hl, h⟩ := bind_eq_pure.mp h
    cases h
    have hst : ParsingPath (s, emptyPath) :=
      ⟨[], pathOf_empty, fun _ => not_not.mp hs, fun hne => absurd rfl hne⟩
    refine loop_invariant ParsingPath
      (fun r => ∃ segments, PathOf r.2 segments ∧ (segments = [] → charAt s = 0 ∧
        r.1 = ptr) ∧ (segments ≠ [] → none ∉ segments → PathEnd r.1)) ?_ hst hl
    rintro ⟨q, path''⟩ x ⟨segments, hp, hf, hn⟩ ht
    obtain ⟨_, _, bytes, rfl, hp', hn'⟩ | ⟨rfl, hc⟩ := parsePathBody_inv hp ht
    · refine ⟨_, hp', by simp, fun _ hno => hn' ?_⟩
      rintro rfl
      exact hno (by simp)
    · refine ⟨segments, hp, fun hni => ?_, fun hne hno => ⟨hc, hn hne hno⟩⟩
      rw [hf hni] at hc
      exact absurd hc (by decide)
  · cases h
    exact ⟨[], pathOf_empty, fun _ => ⟨not_not.mp hz, rfl⟩, fun hne => absurd rfl hne⟩

/-! ## The round trip -/

/-- **A path is read back from its text.** Every segment but the last has some bytes; the bytes
are arbitrary. -/
theorem uriPath_roundTrip (lineSize : Nat) (path : PARCURIPath) (segments : List (List UInt8))
    (hpath : PathOf path (segments.map some)) (hne : segments ≠ [])
    (hsegments : ∀ segment ∈ segments.dropLast, segment ≠ []) (pointer : List UInt8) :
    ∃ text path', parcURIPathToString lineSize (some path) = pure text ∧
      parcURIPathParse (slash :: text) pointer = pure (some path', []) ∧
      parcURIPathEquals (some path') (some path) = pure true := by
  obtain ⟨segment, rest, rfl⟩ := List.exists_cons_of_ne_nil hne
  have hf : segment ≠ [] ∨ rest = [] := by
    cases rest with
    | nil => exact .inr rfl
    | cons next rest => exact .inl (hsegments segment (by simp))
  obtain ⟨path', hp, h'⟩ := parse_slashed pathEnd_nil hf pointer
  refine ⟨_, path', pathToString_eq lineSize hpath, ?_, ?_⟩
  · rw [slash_cons_joined hne, ← hp, List.append_nil]
  · rw [pathEquals_spec h' hpath, compact_eq_iff.mpr hsegments]
    simp

/-- A segment with a slash, a NUL and a byte that is not ASCII in it, and an empty one behind it. -/
theorem exists_pathOf_two : ∃ one two, PathOf one [some [47, 0, 255]] ∧
    PathOf two [some [47, 0, 255], some []] := by
  obtain ⟨s, _, hs⟩ := create_spec [47, 0, 255]
  obtain ⟨s', _, hs'⟩ := create_spec []
  obtain ⟨one, _, h⟩ :=
    append_pathOf pathOf_empty (show ShowsSegment (some s) (some [47, 0, 255]) from hs)
  obtain ⟨two, _, h'⟩ := append_pathOf h (show ShowsSegment (some s') (some []) from hs')
  exact ⟨one, two, h, h'⟩

theorem uriPath_roundTrip_two :
    ∃ path, PathOf path [some [47, 0, 255], some []] ∧ ∃ text path',
      parcURIPathToString 64 (some path) = pure text ∧
      parcURIPathParse (slash :: text) [] = pure (some path', []) ∧
      parcURIPathEquals (some path') (some path) = pure true := by
  obtain ⟨_, path, _, h⟩ := exists_pathOf_two
  exact ⟨path, h, uriPath_roundTrip 64 path [[47, 0, 255], []] h (by simp) (by simp) []⟩

end Libparc.URI
