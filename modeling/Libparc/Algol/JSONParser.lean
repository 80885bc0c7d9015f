import Libparc.Algol.BufferComposer

/-! # parc_JSONParser

The tokenizer under the JSON parsers: it reads bytes from a buffer and skips
blanks, tabs and line feeds in front of a token. Where it stands is said by
what follows there, up to what it would skip (`Reads`).

`lineSize` is the cache line size of the build, which the composers of the
strings read are created with. -/
namespace Libparc.JSON
open Buffer BufferComposer List

/-! ## Characters -/

def quotationMark : UInt8 := 34
def reverseSolidus : UInt8 := 92
def solidus : UInt8 := 47
def beginArray : UInt8 := 91
def endArray : UInt8 := 93
def beginObject : UInt8 := 123
def endObject : UInt8 := 125
def nameSeparator : UInt8 := 58
def valueSeparator : UInt8 := 44
def backspace : UInt8 := 8
def tab : UInt8 := 9
def lineFeed : UInt8 := 10
def formFeed : UInt8 := 12
def carriageReturn : UInt8 := 13
def space : UInt8 := 32

/-- The bytes of a C string literal. -/
def ascii (string : String) : List UInt8 := string.toList.map fun character => character.toUInt8

/-- In the C locale. -/
def iscntrl (c : UInt8) : Prop := c < 32 ∨ c = 127

def isdigit (c : UInt8) : Prop := 48 ≤ c ∧ c ≤ 57

instance : DecidablePred iscntrl := fun c => inferInstanceAs (Decidable (c < 32 ∨ c = 127))

instance : DecidablePred isdigit := fun c => inferInstanceAs (Decidable (48 ≤ c ∧ c ≤ 57))

/-! ## The parser's functions -/

/-- `struct parc_buffer_parser`. -/
structure PARCJSONParser where
  ignore : List UInt8
  buffer : PARCBuffer
  deriving DecidableEq, Repr

/-- A result, which may be NULL or missing, with the parser behind it. -/
abbrev Parsed (α : Type) := Option α × PARCJSONParser

def parcJSONParserCreate (buffer : PARCBuffer) : PARCJSONParser := ⟨[space, tab, lineFeed], buffer⟩

section
variable (parser : PARCJSONParser)

def parcJSONParserSkipIgnored : Prog PARCJSONParser := do
  let (buffer, _) ← parcBufferSkipOver parser.buffer parser.ignore
  pure { parser with buffer }

def parcJSONParserRemaining : Nat := parcBufferRemaining parser.buffer

/-- `parcBuffer_GetUint8` on the parser's buffer. -/
def getUint8 : Prog (UInt8 × PARCJSONParser) := do
  let (c, buffer) ← parcBufferGetUint8 parser.buffer
  pure (c, { parser with buffer })

def parcJSONParserNextChar : Prog (UInt8 × PARCJSONParser) := do
  let parser ← parcJSONParserSkipIgnored parser
  getUint8 parser

/-- The character, or nothing when the function returns false. -/
def parcJSONParserNext : Prog (Parsed UInt8) := do
  let parser ← parcJSONParserSkipIgnored parser
  if parcJSONParserRemaining parser > 0 then do
    let (value, parser) ← getUint8 parser
    pure (some value, parser)
  else pure (none, parser)

def parcJSONParserPeekNextChar : Prog (UInt8 × PARCJSONParser) := do
  let parser ← parcJSONParserSkipIgnored parser
  let c ← parcBufferPeekByte parser.buffer
  pure (c, parser)

/-- The sum is one of `size_t`, so that it wraps below zero. -/
def parcJSONParserAdvance (bytes : Int) : Prog PARCJSONParser := do
  let sum := (parser.buffer.position : Int) + bytes
  let position := if sum < 0 then sum + 2 ^ 64 else sum
  pure { parser with buffer := ← parcBufferSetPosition parser.buffer position.toNat }

def parcJSONParserRequireString (parser : PARCJSONParser) :
    List UInt8 → Prog (Bool × PARCJSONParser)
  | [] => pure (true, parser)
  | requiredCharacter :: string => do
    let (actualCharacter, parser) ← getUint8 parser
    if actualCharacter ≠ requiredCharacter then pure (false, parser)
    else parcJSONParserRequireString parser string

/-- The character after a reverse solidus. -/
def unescape (c : UInt8) : Prog UInt8 :=
  if c = quotationMark then pure c
  else if c = reverseSolidus then pure c
  else if c = solidus then pure c
  else if c = 'b'.toUInt8 then pure backspace
  else if c = 'f'.toUInt8 then pure formFeed
  else if c = 'n'.toUInt8 then pure lineFeed
  else if c = 'r'.toUInt8 then pure carriageReturn
  else if c = 't'.toUInt8 then pure tab
  else if c = 'u'.toUInt8 then throw (.notImplemented "Unicode is not supported.")
  else pure c

/-- A turn of the loop of `parcJSONParser_ParseString`. -/
def parseStringBody : PARCBufferComposer × PARCJSONParser →
    Prog (PARCBufferComposer × PARCJSONParser ⊕ Option PARCBuffer × PARCJSONParser)
  | (composer, parser) =>
    if parcJSONParserRemaining parser > 0 then do
      let (c, parser) ← getUint8 parser
      if c = quotationMark then
        pure (.inr (some (parcBufferComposerProduceBuffer composer), parser))
      else if c = reverseSolidus then do
        let (c, parser) ← getUint8 parser
        let c ← unescape c
        pure (.inl (← parcBufferComposerPutChar composer c, parser))
      else if iscntrl c then pure (.inr (none, parser))
      else pure (.inl (← parcBufferComposerPutChar composer c, parser))
    else pure (.inr (none, parser))

/-- The string's buffer, or nothing for NULL. -/
def parcJSONParserParseString (lineSize : Nat) (parser : PARCJSONParser) :
    Prog (Parsed PARCBuffer) := do
  let (c, parser) ← getUint8 parser
  if c = quotationMark then
    Exec.loop parseStringBody (parcBufferComposerCreate lineSize, parser)
  else pure (none, parser)

/-! ## Where a parser stands -/

/-- What is skipped in front of a token. -/
def Ignored (c : UInt8) : Prop := c ∈ [space, tab, lineFeed]

instance : DecidablePred Ignored :=
  fun c => inferInstanceAs (Decidable (c ∈ [space, tab, lineFeed]))

/-- The text from the next token on. -/
def skipped (text : List UInt8) : List UInt8 := text.dropWhile (Ignored ·)

/-- The parser is in front of `text`. -/
structure At (parser : PARCJSONParser) (text : List UInt8) : Prop where
  ignore : parser.ignore = [space, tab, lineFeed]
  valid : parser.buffer.Valid
  remaining : parser.buffer.remainingBytes = text

/-- The parser is in front of `text`, up to what it skips. -/
def Reads (text : List UInt8) : Prop :=
  ∃ here, At parser here ∧ skipped here = skipped text

/-- The parser one byte further. -/
def PARCJSONParser.advance : PARCJSONParser :=
  { parser with buffer := parser.buffer.advance 1 }

/-- The parser some bytes further. -/
def PARCJSONParser.forward (n : Nat) : PARCJSONParser :=
  { parser with buffer := parser.buffer.advance n }

end

section
variable {ps : PARCJSONParser} {c : UInt8} {text rest : List UInt8}

theorem at_create {b} (h : b.Valid) : At (parcJSONParserCreate b) b.remainingBytes := ⟨rfl, h, rfl⟩

theorem At.reads (h : At ps text) : Reads ps text := ⟨text, h, rfl⟩

theorem At.advance (h : At ps (c :: text)) : At ps.advance text :=
  ⟨h.ignore, h.valid.advance (by simp [h.remaining]), by
    show (ps.buffer.advance 1).remainingBytes = text
    rw [remainingBytes_advance, h.remaining]
    rfl⟩

theorem Reads.congr (h : Reads ps text) (heq : skipped text = skipped rest) : Reads ps rest := by
  obtain ⟨here, hat, hs⟩ := h
  exact ⟨here, hat, hs.trans heq⟩

theorem skipped_cons (h : ¬ Ignored c) : skipped (c :: text) = c :: text := by
  rw [skipped, dropWhile_cons, if_neg (by simpa using h)]

theorem At.remaining_pos (h : At ps (c :: text)) : parcJSONParserRemaining ps > 0 := by
  rw [parcJSONParserRemaining, ← length_remainingBytes h.valid, h.remaining]
  exact Nat.succ_pos _

theorem Reads.remaining_pos (h : Reads ps text) (hs : skipped text = c :: rest) :
    parcJSONParserRemaining ps > 0 := by
  obtain ⟨here, hat, hsk⟩ := h
  cases here with
  | nil => rw [hs] at hsk; cases hsk
  | cons d here => exact hat.remaining_pos

/-! ## What the functions read -/

theorem forward_forward (m n : Nat) : (ps.forward m).forward n = ps.forward (m + n) := by
  simp only [PARCJSONParser.forward, advance_advance]

theorem skipIgnored_at (h : At ps text) :
    ∃ n, parcJSONParserSkipIgnored ps = pure (ps.forward n) ∧ At (ps.forward n) (skipped text) := by
  have hs := skipOver_spec ps.ignore text h.valid h.remaining
  rw [h.ignore] at hs
  refine ⟨(text.takeWhile (· ∈ [space, tab, lineFeed])).length, ?_, h.ignore, ?_, ?_⟩
  · rw [parcJSONParserSkipIgnored, h.ignore, hs, pure_bind, ← h.ignore]
    rfl
  · exact h.valid.advance (by rw [h.remaining]; exact (takeWhile_sublist _).length_le)
  · have hsp := takeWhile_append_dropWhile (p := (· ∈ [space, tab, lineFeed])) (l := text)
    show (ps.buffer.advance _).remainingBytes = _
    rw [remainingBytes_advance, h.remaining]
    exact (congrArg (drop _) hsp).symm.trans drop_left

theorem getUint8_at (h : At ps (c :: text)) : getUint8 ps = pure (c, ps.advance) := by
  rw [getUint8, getUint8_spec h.valid h.remaining, pure_bind]
  rfl

theorem advance_back (h : At ps (c :: text)) : parcJSONParserAdvance ps.advance (-1) = pure ps := by
  have hs : ((ps.advance.buffer.position : Int) + -1) = ps.buffer.position := by
    show ((ps.buffer.position + 1 : Nat) : Int) + -1 = _
    omega
  have hb : parcBufferSetPosition ps.advance.buffer ps.buffer.position =
      pure ps.buffer := setPosition_back h.valid 1
  simp only [parcJSONParserAdvance, hs, if_neg (Int.not_lt.mpr (Int.natCast_nonneg _)),
    Int.toNat_natCast, hb, pure_bind]
  rfl

theorem nextChar_at (h : At ps text) (hs : skipped text = c :: rest) :
    ∃ n, parcJSONParserNextChar ps = pure (c, (ps.forward n).advance) ∧
      At (ps.forward n) (c :: rest) := by
  obtain ⟨n, hsk, hat⟩ := skipIgnored_at h
  rw [hs] at hat
  exact ⟨n, by rw [parcJSONParserNextChar, hsk, pure_bind, getUint8_at hat], hat⟩

theorem next_at (h : At ps text) (hs : skipped text = c :: rest) :
    ∃ n, parcJSONParserNext ps = pure (some c, (ps.forward n).advance) ∧
      At (ps.forward n) (c :: rest) := by
  obtain ⟨n, hsk, hat⟩ := skipIgnored_at h
  rw [hs] at hat
  refine ⟨n, ?_, hat⟩
  rw [parcJSONParserNext, hsk, pure_bind, if_pos hat.remaining_pos, getUint8_at hat, pure_bind]

theorem At.remaining_nil (h : At ps []) : parcJSONParserRemaining ps = 0 := by
  rw [parcJSONParserRemaining, ← length_remainingBytes h.valid, h.remaining, length_nil]

theorem next_end (h : At ps text) (hs : skipped text = []) :
    ∃ n, parcJSONParserNext ps = pure (none, ps.forward n) ∧ At (ps.forward n) [] := by
  obtain ⟨n, hsk, hat⟩ := skipIgnored_at h
  rw [hs] at hat
  refine ⟨n, ?_, hat⟩
  rw [parcJSONParserNext, hsk, pure_bind, hat.remaining_nil]
  rfl

theorem peekNextChar_at (h : At ps text) (hs : skipped text = c :: rest) :
    ∃ n, parcJSONParserPeekNextChar ps = pure (c, ps.forward n) ∧
      At (ps.forward n) (c :: rest) := by
  obtain ⟨n, hsk, hat⟩ := skipIgnored_at h
  rw [hs] at hat
  refine ⟨n, ?_, hat⟩
  rw [parcJSONParserPeekNextChar, hsk, pure_bind, peekByte_spec hat.valid hat.remaining, pure_bind]

section
variable (h : Reads ps text) (hs : skipped text = c :: rest)
include h hs

theorem nextChar_spec :
    ∃ p', parcJSONParserNextChar ps = pure (c, p'.advance) ∧ At p' (c :: rest) := by
  obtain ⟨here, hat, hsk⟩ := h
  obtain ⟨n, hn, hat'⟩ := nextChar_at hat (hsk.trans hs)
  exact ⟨_, hn, hat'⟩

theorem next_spec :
    ∃ p', parcJSONParserNext ps = pure (some c, p'.advance) ∧ At p' (c :: rest) := by
  obtain ⟨here, hat, hsk⟩ := h
  obtain ⟨n, hn, hat'⟩ := next_at hat (hsk.trans hs)
  exact ⟨_, hn, hat'⟩

theorem peekNextChar_spec :
    ∃ p', parcJSONParserPeekNextChar ps = pure (c, p') ∧ At p' (c :: rest) := by
  obtain ⟨here, hat, hsk⟩ := h
  obtain ⟨n, hp, hat'⟩ := peekNextChar_at hat (hsk.trans hs)
  exact ⟨_, hp, hat'⟩

end

theorem requireString_spec (s : List UInt8) {ps} (h : At ps (s ++ text)) :
    ∃ p', parcJSONParserRequireString ps s = pure (true, p') ∧ At p' text := by
  induction s generalizing ps with
  | nil => exact ⟨ps, rfl, h⟩
  | cons c s ih =>
    obtain ⟨p', hr, hat⟩ := ih h.advance
    refine ⟨p', ?_, hat⟩
    rw [parcJSONParserRequireString, getUint8_at h, pure_bind]
    simp only [ne_eq, not_true_eq_false, if_false, hr]

end

/-! ## Strings -/

/-- Between quotation marks, `piece` is read as `c`. -/
inductive StandsFor (c : UInt8) : List UInt8 → Prop
  | plain : c ≠ quotationMark → c ≠ reverseSolidus → ¬ iscntrl c → StandsFor c [c]
  | escaped {e : UInt8} : unescape e = pure c → StandsFor c [reverseSolidus, e]

theorem parseString_step {k parser c out piece text} (hc : Composes k out) (hp : StandsFor c piece)
    (h : At parser (piece ++ text)) :
    ∃ composer' p', parseStringBody (k, parser) = pure (.inl (composer', p')) ∧
      Composes composer' (out ++ [c]) ∧ At p' text := by
  obtain ⟨composer', hpu, hc'⟩ := putUint8_composes c hc
  have hp' : parcBufferComposerPutChar k c = pure composer' := hpu
  cases hp with
  | plain hq hs hct =>
    refine ⟨composer', parser.advance, ?_, hc', h.advance⟩
    simp only [parseStringBody, if_pos h.remaining_pos, getUint8_at h, pure_bind, if_neg hq,
      if_neg hs, if_neg hct, hp']
  | escaped hun =>
    refine ⟨composer', parser.advance.advance, ?_, hc', h.advance.advance⟩
    have hq : reverseSolidus ≠ quotationMark := by decide
    simp only [parseStringBody, if_pos h.remaining_pos, getUint8_at h, pure_bind, if_neg hq,
      if_true, getUint8_at h.advance, hun, hp']

/-- From the beginning of the text on, up to the quotation mark in front of the
rest, stand pieces for the bytes. -/
inductive Spells : List UInt8 → List UInt8 → List UInt8 → Prop
  | close {rest : List UInt8} : Spells [] (quotationMark :: rest) rest
  | piece {c : UInt8} {piece bytes text rest : List UInt8} : StandsFor c piece →
      Spells bytes text rest → Spells (c :: bytes) (piece ++ text) rest

theorem spells_flatMap {piece rest} :
    ∀ {bs}, (∀ c ∈ bs, StandsFor c (piece c)) →
      Spells bs (bs.flatMap piece ++ quotationMark :: rest) rest
  | [], _ => .close
  | c :: bs, h => by
    rw [flatMap_cons, append_assoc]
    exact .piece (h c (.head _)) (spells_flatMap fun d hd => h d (.tail _ hd))

theorem parseString_loop {bs text rest} (hs : Spells bs text rest) :
    ∀ {k parser out}, Composes k out → At parser text →
      ∃ b p', Exec.loop parseStringBody (k, parser) = pure (some b, p') ∧
        b.Valid ∧ b.remainingBytes = out ++ bs ∧ At p' rest := by
  induction hs with
  | close =>
    intro k parser out hc h
    obtain ⟨hv, hb⟩ := produceBuffer_spec hc
    refine ⟨_, parser.advance, Exec.loop_done ?_, hv, by rw [hb, append_nil], h.advance⟩
    simp only [parseStringBody, if_pos h.remaining_pos, getUint8_at h, pure_bind, if_true]
  | piece hp _ ih =>
    intro k parser out hc h
    obtain ⟨c1, p1, hst, hc1, h1⟩ := parseString_step hc hp h
    obtain ⟨b, p', hl, hv, hb, hat⟩ := ih hc1 h1
    refine ⟨b, p', (Exec.loop_next hst).trans hl, hv, ?_, hat⟩
    rw [hb, append_assoc, singleton_append]

/-- **A string is read back** from its pieces between quotation marks. -/
theorem parseString_spec (size : Nat) {bs text rest parser} (hs : Spells bs text rest)
    (h : At parser (quotationMark :: text)) :
    ∃ b p', parcJSONParserParseString size parser = pure (some b, p') ∧
      b.Valid ∧ b.remainingBytes = bs ∧ At p' rest := by
  obtain ⟨b, p', hl, hv, hb, hat⟩ := parseString_loop hs
    (composes_allocate size (parcMemoryRoundUpToCacheLine size size)) h.advance
  refine ⟨b, p', ?_, hv, hb, hat⟩
  rw [parcJSONParserParseString, getUint8_at h, pure_bind]
  exact hl

end Libparc.JSON
