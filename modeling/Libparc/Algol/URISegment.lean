import Libparc.Algol.BufferComposer

/-! # parc_URISegment

A pointer into a C string is the list of the bytes from it on; at the end of the list it points
to the NUL byte (`charAt`). The bytes of a segment are read up to a `/`, `?` or `#`, with the
percent-encoded ones decoded; behind the segment any extra slashes are skipped, also behind a
`?` or `#`. What the segment is written as (`encode`) is read back as its bytes
(`parse_encode`). -/
namespace Libparc.URI
open Buffer BufferComposer Exec List

/-! ## Characters -/

def slash : UInt8 := 47
def questionMark : UInt8 := 63
def numberSign : UInt8 := 35
def percentSign : UInt8 := 37
def colon : UInt8 := 58

/-- The bytes of a C string literal. -/
def literal (string : String) : List UInt8 := string.toList.map Char.toUInt8

/-- A C string as `%s` shows it. -/
def shown (string : List UInt8) : String :=
  .ofList ((string.takeWhile (· ≠ 0)).map Char.ofUInt8)

/-- `*p`. -/
def charAt (p : List UInt8) : UInt8 := p.headD 0

@[simp] theorem charAt_nil : charAt [] = 0 := rfl

@[simp] theorem charAt_cons (c : UInt8) (p : List UInt8) : charAt (c :: p) = c := rfl

def hexDigitsUpper : List UInt8 := literal "0123456789ABCDEF"
def hexDigitsLower : List UInt8 := literal "0123456789abcdef"

/-- The low nibble as a hex character. -/
def toHexDigit (value : UInt8) : UInt8 := hexDigitsUpper.getD (value &&& 0xF).toNat 0

/-- The value of a hex character, or `-1` as an `unsigned char`. -/
def fromHexDigit (hexDigit : UInt8) : UInt8 :=
  match (List.range 16).find? fun i =>
      hexDigit == hexDigitsLower.getD i 0 || hexDigit == hexDigitsUpper.getD i 0 with
  | some i => UInt8.ofNat i
  | none => 255

/-- The value and the pointer behind it, or NULL. -/
def parsePercentEncoded (string : List UInt8) : Option (UInt8 × List UInt8) :=
  if charAt string ≠ 0 then
    let hi := fromHexDigit (charAt string)
    if hi > 15 then none
    else if charAt string.tail ≠ 0 then
      let lo := fromHexDigit (charAt string.tail)
      if lo > 15 then none else some (hi <<< 4 ||| lo, string.tail.tail)
    else none
  else none

def plainSegmentChars : List UInt8 :=
  literal "abcdefghijklmnopqrstuvwxyzABCDEFGHIJKLMNOPQRSTUVWXYZ0123456789-._~"

/-- `uriPlainSegmentChar`. -/
def uriPlainSegmentChar (c : UInt8) : Bool := c != 0 && plainSegmentChars.contains c

/-! ## Segments -/

structure PARCURISegment where
  buffer : PARCBuffer

def parcURISegmentCreate (segment : List UInt8) : Prog PARCURISegment := do
  let buffer ← parcBufferPutArray (parcBufferAllocate segment.length) segment
  pure ⟨parcBufferFlip buffer⟩

/-- What is put for one byte. -/
def buildStringByte (composer : PARCBufferComposer) (c : UInt8) : Prog PARCBufferComposer :=
  if uriPlainSegmentChar c then parcBufferComposerPutChar composer c
  else do
    let composer ← parcBufferComposerPutChar composer percentSign
    let composer ← parcBufferComposerPutChar composer (toHexDigit (c >>> 4))
    parcBufferComposerPutChar composer (toHexDigit c)

def parcURISegmentBuildString (segment : PARCURISegment) (composer : PARCBufferComposer) :
    Prog PARCBufferComposer :=
  (List.range segment.buffer.limit).foldlM (fun composer i => do
    let c ← parcBufferGetAtIndex segment.buffer i
    buildStringByte composer c) composer

/-- A turn of the loop of `parcURISegment_Parse`, which ends with the pointer and the bytes, or
with NULL. -/
def parseBody : List UInt8 × List UInt8 →
    Prog ((List UInt8 × List UInt8) ⊕ Option (List UInt8 × List UInt8))
  | (p, segment) =>
    if charAt p ≠ 0 ∧ charAt p ≠ slash ∧ charAt p ≠ questionMark ∧ charAt p ≠ numberSign then
      if charAt p = percentSign then
        match parsePercentEncoded p.tail with
        | none => pure (.inr none)
        | some (value, p) => pure (.inl (p, segment ++ [value]))
      else pure (.inl (p.tail, segment ++ [charAt p]))
    else pure (.inr (some (p, segment)))

/-- `while (p[1] == '/') p++`. -/
def absorbSlashes : List UInt8 → List UInt8
  | [] => []
  | c :: p => if charAt p = slash then absorbSlashes p else c :: p

/-- The segment and the pointer behind it. If the result is NULL, the caller's pointer is as it
was. -/
def parcURISegmentParse (string : List UInt8) : Prog (Option (PARCURISegment × List UInt8)) := do
  assertTrue (charAt string ≠ slash)
    s!"Input parameter '{shown string}' must NOT point to an initial '/' character."
  match ← Exec.loop parseBody (string, []) with
  | none => pure none
  | some (p, segment) =>
    let p := if charAt p ≠ 0 then absorbSlashes p else p
    let result ← parcURISegmentCreate segment
    pure (some (result, p))

/-- Either may be NULL. -/
def parcURISegmentEquals (segmentA segmentB : Option PARCURISegment) : Prog Bool :=
  match segmentA, segmentB with
  | none, none => pure true
  | some segmentA, some segmentB => parcBufferEquals segmentA.buffer segmentB.buffer
  | _, _ => pure false

/-! ## The bytes of a segment -/

/-- The segment's buffer is at its beginning and has these bytes. -/
structure SegmentOf (segment : PARCURISegment) (bytes : List UInt8) : Prop where
  valid : segment.buffer.Valid
  position : segment.buffer.position = 0
  bytes_eq : segment.buffer.remainingBytes = bytes

theorem create_spec (bytes : List UInt8) :
    ∃ segment, parcURISegmentCreate bytes = pure segment ∧ SegmentOf segment bytes := by
  obtain ⟨b, hp, hw⟩ := putArray_spec (valid_allocate bytes.length)
    (show bytes.length ≤ parcBufferRemaining (parcBufferAllocate bytes.length) from Nat.le_refl _)
  refine ⟨⟨parcBufferFlip b⟩, ?_, hw.valid.flip (hw.mark rfl), rfl, ?_⟩
  · rw [parcURISegmentCreate, hp, pure_bind]
  · rw [remainingBytes_flip, hw.written]
    rfl

theorem segmentEquals_spec {segmentA segmentB bytesA bytesB}
    (hA : SegmentOf segmentA bytesA) (hB : SegmentOf segmentB bytesB) :
    parcURISegmentEquals (some segmentA) (some segmentB) = pure (decide (bytesA = bytesB)) := by
  rw [parcURISegmentEquals, equals_spec hA.valid hB.valid, hA.bytes_eq, hB.bytes_eq]

/-! ## What a segment is written as -/

def encodeByte (c : UInt8) : List UInt8 :=
  if uriPlainSegmentChar c then [c] else [percentSign, toHexDigit (c >>> 4), toHexDigit c]

def encode (bytes : List UInt8) : List UInt8 := bytes.flatMap encodeByte

section
theorem buildStringByte_composes (c : UInt8) : Appends (buildStringByte · c) (encodeByte c) :=
  .ite (putUint8_composes c) ((putUint8_composes percentSign).bind
    ((putUint8_composes (toHexDigit (c >>> 4))).bind (putUint8_composes (toHexDigit c))))

variable {bs : List UInt8} {s : PARCURISegment}

theorem SegmentOf.limit_eq (h : SegmentOf s bs) : s.buffer.limit = bs.length := by
  rw [← h.bytes_eq, length_remainingBytes h.valid, h.valid.remaining, h.position, Nat.sub_zero]

theorem SegmentOf.getAtIndex (h : SegmentOf s bs) {i} (hi : i < bs.length) :
    parcBufferGetAtIndex s.buffer i = pure bs[i] := by
  have hl := h.limit_eq
  have hb : s.buffer.array[effectiveIndex s.buffer i]? = some bs[i] := by
    have hby := h.bytes_eq
    rw [PARCBuffer.remainingBytes, h.position, Nat.add_zero] at hby
    have hg : bs[i]? = some bs[i] := getElem?_eq_getElem hi
    nth_rw 1 [← hby] at hg
    rwa [getElem?_drop, getElem?_take_of_lt (by omega)] at hg
  rw [parcBufferGetAtIndex, trapIfIndexExceedsLimit, trapOutOfBoundsIf_of_not (by omega),
    pure_bind, parcByteArrayGetByte, hb]

theorem buildString_composes (hs : SegmentOf s bs) :
    Appends (parcURISegmentBuildString s) (encode bs) := by
  -- After `k` turns the first `k` bytes are written.
  have ht : ∀ k ≤ bs.length, Appends ((range k).foldlM fun cc i => do
      let c ← parcBufferGetAtIndex s.buffer i
      buildStringByte cc c) (encode (bs.take k)) := by
    intro k hk
    induction k with
    | zero => exact .nil
    | succ k ih =>
      have hb := (ih (Nat.le_of_succ_le hk)).bind (buildStringByte_composes bs[k])
      have hta : bs.take (k + 1) = bs.take k ++ [bs[k]] := take_succ_eq_append_getElem hk
      simp only [range_succ, foldlM_append, foldlM_cons, foldlM_nil, hs.getAtIndex hk, pure_bind,
        bind_pure]
      rwa [hta, encode, flatMap_append, flatMap_singleton]
  have h' := ht bs.length (Nat.le_refl _)
  rwa [take_length, ← hs.limit_eq] at h'

end

/-! ## Reading it back -/

/-- The pointer is where a segment ends. -/
def SegmentEnd (p : List UInt8) : Prop :=
  charAt p = 0 ∨ charAt p = slash ∨ charAt p = questionMark ∨ charAt p = numberSign

theorem plain_ne {c} (h : uriPlainSegmentChar c = true) :
    c ≠ 0 ∧ c ≠ slash ∧ c ≠ questionMark ∧ c ≠ numberSign ∧ c ≠ percentSign := by
  have ha : ∀ d ∈ plainSegmentChars, d ≠ 0 ∧ d ≠ slash ∧ d ≠ questionMark ∧ d ≠ numberSign ∧
      d ≠ percentSign := by decide +kernel
  refine ha c ?_
  simpa [uriPlainSegmentChar, contains_iff_mem] using (Bool.and_eq_true_iff.mp h).2

theorem toHexDigit_spec : ∀ i < 16, toHexDigit (UInt8.ofNat i) ≠ 0 ∧
    fromHexDigit (toHexDigit (UInt8.ofNat i)) = UInt8.ofNat i := by decide

theorem fromHexDigit_toHexDigit (c : UInt8) :
    toHexDigit c ≠ 0 ∧ fromHexDigit (toHexDigit c) = c &&& 0xF := by
  have hlt : (c &&& 0xF).toNat < 16 := by
    exact Nat.lt_succ_of_le Nat.and_le_right
  have hd : toHexDigit c = toHexDigit (UInt8.ofNat (c &&& 0xF).toNat) := by
    simp [toHexDigit, UInt8.and_assoc]
  have hs := toHexDigit_spec _ hlt
  rw [← hd, UInt8.ofNat_toNat] at hs
  exact hs

theorem nibbles (c : UInt8) : ((c >>> 4) &&& 0xF) <<< 4 ||| (c &&& 0xF) = c := by
  have hb : ∀ b : BitVec 8, ((b >>> 4) &&& 0xF) <<< 4 ||| (b &&& 0xF) = b := by decide
  exact UInt8.toBitVec_inj.mp (hb c.toBitVec)

theorem parsePercentEncoded_hex (c : UInt8) (p : List UInt8) :
    parsePercentEncoded (toHexDigit (c >>> 4) :: toHexDigit c :: p) = some (c, p) := by
  obtain ⟨hhi, hhi'⟩ := fromHexDigit_toHexDigit (c >>> 4)
  obtain ⟨hlo, hlo'⟩ := fromHexDigit_toHexDigit c
  have hle : ∀ d : UInt8, ¬ d &&& 0xF > 15 := by
    intro d
    rw [gt_iff_lt, UInt8.lt_iff_toNat_lt, UInt8.toNat_and, Nat.not_lt]
    exact Nat.and_le_right
  simp only [parsePercentEncoded, charAt_cons, tail_cons, hhi', hlo', nibbles, if_pos hhi,
    if_pos hlo, if_neg (hle _)]

theorem parseBody_byte (c : UInt8) (p segment : List UInt8) :
    parseBody (encodeByte c ++ p, segment) = pure (.inl (p, segment ++ [c])) := by
  unfold encodeByte
  split
  · rename_i hp
    obtain ⟨h0, h1, h2, h3, h4⟩ := plain_ne hp
    simp [parseBody, h0, h1, h2, h3, h4]
  · have hpe : percentSign ≠ 0 ∧ percentSign ≠ slash ∧ percentSign ≠ questionMark ∧
        percentSign ≠ numberSign := by decide
    simp only [parseBody, cons_append, nil_append, charAt_cons, if_pos hpe,
      if_true, tail_cons, parsePercentEncoded_hex]

variable {p : List UInt8}

theorem parseLoop_encode (bytes : List UInt8) (hp : SegmentEnd p) (segment : List UInt8) :
    Exec.loop parseBody (encode bytes ++ p, segment) = pure (some (p, segment ++ bytes)) := by
  induction bytes generalizing segment with
  | nil =>
    refine loop_done ?_
    have hs : ¬ (charAt p ≠ 0 ∧ charAt p ≠ slash ∧ charAt p ≠ questionMark ∧
        charAt p ≠ numberSign) := by
      rintro ⟨h0, h1, h2, h3⟩
      rcases hp with hp | hp | hp | hp <;> contradiction
    simp only [encode, flatMap_nil, nil_append, append_nil, parseBody, if_neg hs]
  | cons c bytes ih =>
    rw [encode, flatMap_cons, append_assoc, loop_next (parseBody_byte _ _ _)]
    exact (ih _).trans (by rw [← append_cons])

theorem charAt_encode_ne {bytes} (h : bytes ≠ [] ∨ charAt p ≠ slash) :
    charAt (encode bytes ++ p) ≠ slash := by
  cases bytes with
  | nil => exact h.resolve_left (fun hne => hne rfl)
  | cons c bytes =>
    rw [encode, flatMap_cons, encodeByte]
    split
    · rename_i hp
      exact (plain_ne hp).2.1
    · show percentSign ≠ slash
      decide

/-- **What a segment is written as is read back.** -/
theorem parse_encode {bytes} (h : bytes ≠ [] ∨ charAt p ≠ slash) (hp : SegmentEnd p) :
    ∃ segment, parcURISegmentParse (encode bytes ++ p) =
        pure (some (segment, if charAt p ≠ 0 then absorbSlashes p else p)) ∧
      SegmentOf segment bytes := by
  obtain ⟨segment, hc, hs⟩ := create_spec bytes
  refine ⟨segment, ?_, hs⟩
  have hassert : decide (charAt (encode bytes ++ p) ≠ slash) = true :=
    decide_eq_true (charAt_encode_ne h)
  rw [parcURISegmentParse, assertTrue_of hassert, pure_bind, parseLoop_encode bytes hp, pure_bind]
  simp only [nil_append, hc, pure_bind]

/-! ## What any text is read as -/

theorem absorbSlashes_tail (p : List UInt8) : charAt (absorbSlashes p).tail ≠ slash := by
  induction p with
  | nil => decide
  | cons c p ih =>
    unfold absorbSlashes
    split
    · exact ih
    · assumption

theorem segmentParse_inv {s segment} (h : parcURISegmentParse s = pure (some (segment, p))) :
    (∃ bytes, SegmentOf segment bytes) ∧ (charAt p ≠ 0 → charAt p.tail ≠ slash) := by
  obtain ⟨_, _, h⟩ := bind_eq_pure.mp h
  obtain ⟨res, _, h⟩ := bind_eq_pure.mp h
  cases res with
  | none => cases h
  | some res =>
    obtain ⟨p0, bytes⟩ := res
    obtain ⟨s', hc, hs⟩ := create_spec bytes
    simp only [hc, pure_bind] at h
    cases h
    refine ⟨⟨bytes, hs⟩, ?_⟩
    split
    · intro _
      exact absorbSlashes_tail p0
    · intro hne
      contradiction

end Libparc.URI
