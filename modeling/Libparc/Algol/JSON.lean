import Libparc.Decimal
import Libparc.Algol.JSONParser

/-! # parc_JSON, parc_JSONArray, parc_JSONPair and parc_JSONValue

A JSON value is a tree: two places of it never share an object, and an object
is never compared with itself. Rendering a value reads its strings and names
and rewinds them, so it gives the tree back as it then is. What the parsers
return as NULL is `none`. -/
namespace Libparc.JSON
open Buffer BufferComposer HashCode

/-! ## Values -/

/-- `long double`: a finite one is `mantissa * 2 ^ exponent`. -/
inductive LongDouble where
  | finite (negative : Bool) (mantissa : Nat) (exponent : Int)
  | infinity (negative : Bool)
  | nan (negative : Bool)
  deriving DecidableEq, Repr

/-- The member `number` of the union. -/
structure Number where
  internalDoubleRepresentation : Bool
  internalDoubleValue : LongDouble
  sign : Int
  whole : Int
  fraction : Int
  fractionLog10 : Int
  exponent : Int
  deriving DecidableEq, Repr

/-- `struct parc_json_value`, with its arrays and objects as the lists of their
elements and members. -/
inductive PARCJSONValue where
  | boolean (boolean : Bool)
  | string (string : PARCBuffer)
  | number (number : Number)
  | array (array : List PARCJSONValue)
  | object (members : List (PARCBuffer × PARCJSONValue))
  | null
  deriving Repr

abbrev PARCJSONArray := List PARCJSONValue

/-- A name and a value. -/
abbrev PARCJSONPair := PARCBuffer × PARCJSONValue

abbrev PARCJSON := List PARCJSONPair

/-- `value->type`. -/
def PARCJSONValue.type : PARCJSONValue → Nat
  | .boolean _ => 0
  | .string _ => 1
  | .number _ => 2
  | .array _ => 3
  | .object _ => 4
  | .null => 5

/-- An `int64_t` that has wrapped round. -/
def int64 (value : Int) : Int := value.bmod (2 ^ 64)

def int32 (value : Int) : Int := value.bmod (2 ^ 32)

def createNumber (sign whole fraction fractionLog10 exponent : Int) : Number :=
  ⟨false, .finite false 0 0, sign, whole, fraction, fractionLog10, exponent⟩

def parcJSONValueCreateFromInteger (value : Int) : PARCJSONValue :=
  .number (createNumber 1 value 0 0 0)

def parcJSONValueGetJSON : Option PARCJSONValue → Prog PARCJSON
  | some (.object members) => pure members
  | some value =>
    let type := value.type
    throw (.unexpectedState s!"Expected type to be string, actual type {type}")
  | none => throw .memoryFault

/-! ## Equality -/

def LongDouble.equals : LongDouble → LongDouble → Bool
  | .finite negative mantissa exponent, .finite negative' mantissa' exponent' =>
    let least := min exponent exponent'
    let value := (if negative then -1 else 1) * (mantissa : Int) * 2 ^ (exponent - least).toNat
    let value' := (if negative' then -1 else 1) * (mantissa' : Int) * 2 ^ (exponent' - least).toNat
    value == value'
  | .infinity negative, .infinity negative' => negative == negative'
  | _, _ => false

def equalsNumber (valueA valueB : Number) : Bool :=
  if valueA.internalDoubleRepresentation then
    valueB.internalDoubleRepresentation &&
      valueA.internalDoubleValue.equals valueB.internalDoubleValue
  else
    valueA.sign == valueB.sign && valueA.whole == valueB.whole &&
      valueA.fraction == valueB.fraction && valueA.exponent == valueB.exponent

mutual

def parcJSONValueEquals : PARCJSONValue → PARCJSONValue → Prog Bool
  | .boolean objA, .boolean objB => pure (objA == objB)
  | .string objA, .string objB => parcBufferEquals objA objB
  | .number objA, .number objB => pure (equalsNumber objA objB)
  | .array objA, .array objB =>
    if objA.length = objB.length then elementsEqual objA objB else pure false
  | .object objA, .object objB =>
    if objA.length = objB.length then memberListEquals objA objB else pure false
  | .null, .null => pure true
  | _, _ => pure false

/-- The loop of `parcDeque_Equals`. -/
def elementsEqual : PARCJSONArray → PARCJSONArray → Prog Bool
  | [], _ => pure true
  | x :: xs, y :: ys => do
    if ← parcJSONValueEquals x y then elementsEqual xs ys else pure false
  | _ :: _, [] => throw .memoryFault

/-- The loop of `_memberListEquals`, with `parcJSONPair_Equals`. -/
def memberListEquals : PARCJSON → PARCJSON → Prog Bool
  | [], _ => pure true
  | (nameA, valueA) :: x, (nameB, valueB) :: y => do
    if ← parcBufferEquals nameA nameB then
      if ← parcJSONValueEquals valueA valueB then memberListEquals x y else pure false
    else pure false
  | _ :: _, [] => throw .memoryFault

end

def parcJSONEquals (x y : PARCJSON) : Prog Bool := parcJSONValueEquals (.object x) (.object y)

/-! ## Rendering -/

/-- `"%" PRIu64`. -/
def formatNat (value : Nat) : List UInt8 := (Decimal.digits value).map fun d => 48 + d.toUInt8

def formatSign (negative : Bool) : List UInt8 := if negative then ascii "-" else []

/-- `"%" PRId64`. -/
def formatInt (value : Int) : List UInt8 := formatSign (value < 0) ++ formatNat value.natAbs

/-- `"%0*" PRId64`; a negative width asks for blanks on the right. -/
def formatPadded (width value : Int) : List UInt8 :=
  if width < 0 then
    formatInt value ++ List.replicate (width.natAbs - (formatInt value).length) space
  else formatSign (value < 0) ++ List.replicate (width.toNat - (formatInt value).length) 48 ++
    formatNat value.natAbs

/-- The quotient to the nearest whole number, a half to the even one. -/
def roundedQuotient (dividend divisor : Nat) : Nat :=
  let quotient := dividend / divisor
  let twice := 2 * (dividend % divisor)
  if twice < divisor ∨ (twice = divisor ∧ quotient % 2 = 0) then quotient else quotient + 1

/-- `"%Lf"`. -/
def formatLongDouble : LongDouble → List UInt8
  | .finite negative mantissa exponent =>
    let millionths := if 0 ≤ exponent then mantissa * 2 ^ exponent.toNat * 10 ^ 6
      else roundedQuotient (mantissa * 10 ^ 6) (2 ^ exponent.natAbs)
    formatSign negative ++ formatNat (millionths / 10 ^ 6) ++ ascii "." ++
      formatPadded 6 (millionths % 10 ^ 6 : Nat)
  | .infinity negative => formatSign negative ++ ascii "inf"
  | .nan negative => formatSign negative ++ ascii "nan"

def buildStringNumber (number : Number) (string : PARCBufferComposer) :
    Prog PARCBufferComposer :=
  if number.internalDoubleRepresentation then
    parcBufferComposerFormat string (formatLongDouble number.internalDoubleValue)
  else do
    let string ← parcBufferComposerFormat string
      ((if number.sign = -1 then ascii "-" else []) ++ formatInt number.whole)
    let string ← (if number.fraction > 0 then
        parcBufferComposerFormat string
          (ascii "." ++ formatPadded (int32 number.fractionLog10) number.fraction)
      else pure string)
    if number.exponent ≠ 0 then
      parcBufferComposerFormat string (ascii "e" ++ formatInt number.exponent)
    else pure string

/-- What is put for a character of a string. -/
def escape (compact : Bool) (c : UInt8) : List UInt8 :=
  if c = quotationMark then [reverseSolidus, quotationMark]
  else if c = backspace then [reverseSolidus, 'b'.toUInt8]
  else if c = formFeed then [reverseSolidus, 'f'.toUInt8]
  else if c = lineFeed then [reverseSolidus, 'n'.toUInt8]
  else if c = carriageReturn then [reverseSolidus, 'r'.toUInt8]
  else if c = tab then [reverseSolidus, 't'.toUInt8]
  else if c = solidus ∧ !compact then [reverseSolidus, solidus]
  else if c = reverseSolidus then [reverseSolidus, reverseSolidus]
  else [c]

/-- `parcBufferComposer_PutString`, or `PutChar` for a character that stands for
itself. -/
def putEscaped (composer : PARCBufferComposer) (compact : Bool) (c : UInt8) :
    Prog PARCBufferComposer :=
  if escape compact c = [c] then parcBufferComposerPutChar composer c
  else parcBufferComposerPutString composer (escape compact c)

def buildStringBody (compact : Bool) :
    PARCBuffer × PARCBufferComposer →
      Prog (PARCBuffer × PARCBufferComposer ⊕ PARCBuffer × PARCBufferComposer)
  | (string, composer) =>
    if parcBufferRemaining string > 0 then do
      let (c, string) ← parcBufferGetUint8 string
      pure (.inl (string, ← putEscaped composer compact c))
    else pure (.inr (string, composer))

def buildStringString (string : PARCBuffer) (composer : PARCBufferComposer) (compact : Bool) :
    Prog (PARCBufferComposer × PARCBuffer) := do
  let composer ← parcBufferComposerPutChar composer quotationMark
  let (string, composer) ← Exec.loop (buildStringBody compact) (string, composer)
  let composer ← parcBufferComposerPutChar composer quotationMark
  pure (composer, parcBufferRewind string)

/-- The brackets and blanks that `parcJSON_BuildString` and
`parcJSONArray_BuildString` put around their loops. -/
def buildStringAround {α : Type} (compact : Bool) (first last : UInt8)
    (loop : PARCBufferComposer → Prog (PARCBufferComposer × α)) (composer : PARCBufferComposer) :
    Prog (PARCBufferComposer × α) := do
  let composer ← parcBufferComposerPutChar composer first
  let composer ← (if compact then pure composer else parcBufferComposerPutChar composer space)
  let (composer, result) ← loop composer
  let composer ← (if compact then pure composer else parcBufferComposerPutChar composer space)
  let composer ← parcBufferComposerPutChar composer last
  pure (composer, result)

/-- The separator from the second turn on. -/
def separator (compact : Bool) : List UInt8 := if compact then ascii "," else ascii ", "

/-- What stands between a name and its value. -/
def afterName (compact : Bool) : List UInt8 :=
  quotationMark :: if compact then ascii ":" else ascii " : "

mutual

def parcJSONValueBuildString (compact : Bool) : PARCJSONValue → PARCBufferComposer →
    Prog (PARCBufferComposer × PARCJSONValue)
  | .boolean boolean, composer => do
    let composer ← parcBufferComposerPutString composer
      (if boolean then ascii "true" else ascii "false")
    pure (composer, .boolean boolean)
  | .string string, composer => do
    let (composer, string) ← buildStringString string composer compact
    pure (composer, .string string)
  | .number number, composer => do
    pure (← buildStringNumber number composer, .number number)
  | .array array, composer => do
    let (composer, array) ← buildStringAround compact beginArray endArray
      (buildStringElements compact [] array) composer
    pure (composer, .array array)
  | .object members, composer => do
    let (composer, members) ← buildStringAround compact beginObject endObject
      (buildStringMembers compact [] members) composer
    pure (composer, .object members)
  | .null, composer => do
    pure (← parcBufferComposerPutString composer (ascii "null"), .null)

/-- The loop of `parcJSONArray_BuildString`, with the separator to put next. -/
def buildStringElements (compact : Bool) (next : List UInt8) :
    PARCJSONArray → PARCBufferComposer → Prog (PARCBufferComposer × PARCJSONArray)
  | [], composer => pure (composer, [])
  | value :: array, composer => do
    let composer ← parcBufferComposerPutString composer next
    let (composer, value) ← parcJSONValueBuildString compact value composer
    let (composer, array) ← buildStringElements compact (separator compact) array composer
    pure (composer, value :: array)

/-- The loop of `parcJSON_BuildString`, with `parcJSONPair_BuildString`. -/
def buildStringMembers (compact : Bool) (next : List UInt8) :
    PARCJSON → PARCBufferComposer → Prog (PARCBufferComposer × PARCJSON)
  | [], composer => pure (composer, [])
  | (name, value) :: members, composer => do
    let composer ← parcBufferComposerPutString composer next
    let composer ← parcBufferComposerPutUint8 composer quotationMark
    let composer ← parcBufferComposerPutBuffer composer name
    let composer ← parcBufferComposerPutString composer (afterName compact)
    let (composer, value) ← parcJSONValueBuildString compact value composer
    let (composer, members) ← buildStringMembers compact (separator compact) members composer
    pure (composer, (parcBufferRewind name, value) :: members)

end

/-- The composer, and the object with its strings and names rewound. -/
def parcJSONBuildString (json : PARCJSON) (composer : PARCBufferComposer) (compact : Bool) :
    Prog (PARCBufferComposer × PARCJSON) :=
  buildStringAround compact beginObject endObject (buildStringMembers compact [] json) composer

/-! ## Parsing numbers

The functions with out-parameters return what they store there, and `none` when
they return false. -/

def minus : UInt8 := 45
def plus : UInt8 := 43
def period : UInt8 := 46
def zero : UInt8 := 48

/-- A `char` is signed. -/
def digittoint (digit : UInt8) : Int := digit.toInt8.toInt - 48

section
variable (parser : PARCJSONParser)

def parseSign : Prog (Parsed Int) :=
  if parcJSONParserRemaining parser > 0 then do
    let (c, parser) ← parcJSONParserNextChar parser
    if c = minus then pure (some (-1), parser)
    else if ¬ isdigit c then pure (none, parser)
    else pure (some 1, ← parcJSONParserAdvance parser (-1))
  else pure (some 1, parser)

/-- A turn of the loops of `_parseWholeNumber`, which does not count, and of
`_parseFractionNumber`. -/
def parseDigitsBody : Int × Int × PARCJSONParser →
    Prog (Int × Int × PARCJSONParser ⊕ Int × Int × PARCJSONParser)
  | (value, log10, parser) => do
    let (nextCharacter, parser) ← parcJSONParserNext parser
    match nextCharacter with
    | none => pure (.inr (value, log10, parser))
    | some c =>
      if ¬ isdigit c then pure (.inr (value, log10, ← parcJSONParserAdvance parser (-1)))
      else pure (.inl (int64 (value * 10 + digittoint c), int32 (log10 + 1), parser))

def parseWholeNumber : Prog (Parsed Int) := do
  let (nextCharacter, parser) ← parcJSONParserNext parser
  match nextCharacter with
  | none => pure (none, parser)
  | some c =>
    if c = zero then pure (some 0, parser)
    else if isdigit c then do
      let (value, _, parser) ← Exec.loop parseDigitsBody (digittoint c, 0, parser)
      pure (some value, parser)
    else pure (none, parser)

def parseFractionNumber : Prog (Parsed (Int × Int)) :=
  if parcJSONParserRemaining parser > 0 then do
    let (value, log10, parser) ← Exec.loop parseDigitsBody (0, 0, parser)
    pure (some (value, log10), parser)
  else pure (none, parser)

def parseOptionalFraction : Prog (Parsed (Int × Int)) := do
  let (nextCharacter, parser) ← parcJSONParserNext parser
  match nextCharacter with
  | none => pure (some (0, 0), parser)
  | some c =>
    if c = period then parseFractionNumber parser
    else if c = 'e'.toUInt8 ∨ c = valueSeparator ∨ c = endArray ∨ c = endObject then
      pure (some (0, 0), ← parcJSONParserAdvance parser (-1))
    else pure (none, ← parcJSONParserAdvance parser (-1))

/-- A turn of `_parseDigits09`, which takes every character. -/
def parseDigits09Body : Int × Bool × PARCJSONParser →
    Prog (Int × Bool × PARCJSONParser ⊕ Option Int × PARCJSONParser)
  | (value, result, parser) => do
    let (nextDigit, parser) ← parcJSONParserNext parser
    match nextDigit with
    | none => pure (.inr (if result then some value else none, parser))
    | some c => pure (.inl (int64 (value * 10 + digittoint c), true, parser))

def parseDigits09 : Prog (Parsed Int) :=
  Exec.loop parseDigits09Body (0, false, parser)

def parseExponentNumber : Prog (Parsed Int) := do
  let (nextCharacter, parser) ← parcJSONParserNext parser
  match nextCharacter with
  | none => pure (none, parser)
  | some c =>
    if c = minus then do
      let (value, parser) ← parseDigits09 parser
      pure (value.map (int64 <| · * -1), parser)
    else if c = plus then parseDigits09 parser
    else if isdigit c then do parseDigits09 (← parcJSONParserAdvance parser (-1))
    else pure (none, parser)

def parseOptionalExponent : Prog (Parsed Int) := do
  let (nextCharacter, parser) ← parcJSONParserNext parser
  match nextCharacter with
  | none => pure (some 0, parser)
  | some c =>
    if c = 'e'.toUInt8 ∨ c = 'E'.toUInt8 then parseExponentNumber parser
    else if c = valueSeparator ∨ c = endArray ∨ c = endObject then
      pure (some 0, ← parcJSONParserAdvance parser (-1))
    else pure (none, ← parcJSONParserAdvance parser (-1))

/-- `if (scanner(parser, &result)) { ... }`, with NULL otherwise. -/
def ifParsed {α β : Type} (scanned : Prog (Parsed α))
    (next : α → PARCJSONParser → Prog (Parsed β)) : Prog (Parsed β) := do
  let (result, parser) ← scanned
  match result with
  | some result => next result parser
  | none => pure (none, parser)

def parcJSONValueNumberParser : Prog (Parsed PARCJSONValue) :=
  ifParsed (parseSign parser) fun sign parser =>
  ifParsed (parseWholeNumber parser) fun whole parser =>
  ifParsed (parseOptionalFraction parser) fun (fraction, fractionLog10) parser =>
  ifParsed (parseOptionalExponent parser) fun exponent parser =>
    pure (some (.number (createNumber sign whole fraction fractionLog10 exponent)), parser)

end

/-! ## Parsing values -/

/-- `_parcJSONValue_NullParser`, `_parcJSONValue_TrueParser` and
`_parcJSONValue_FalseParser`: the value for a required text. -/
def literalParser (string : List UInt8) (value : PARCJSONValue) (parser : PARCJSONParser) :
    Prog (Parsed PARCJSONValue) := do
  let (result, parser) ← parcJSONParserRequireString parser string
  pure (if result then some value else none, parser)

def parcJSONValueNullParser := literalParser (ascii "null") .null
def parcJSONValueTrueParser := literalParser (ascii "true") (.boolean true)
def parcJSONValueFalseParser := literalParser (ascii "false") (.boolean false)

def parcJSONValueStringParser (lineSize : Nat) (parser : PARCJSONParser) :
    Prog (Parsed PARCJSONValue) := do
  let (string, parser) ← parcJSONParserParseString lineSize parser
  pure (string.map .string, parser)

/-- `parcBuffer_Acquire` and `parcBuffer_Release` access the object. -/
def dereference (buffer : Option PARCBuffer) : Prog PARCBuffer :=
  match buffer with
  | some buffer => pure buffer
  | none => throw .memoryFault

mutual

/-- The value that begins with `peek`: the cases that `parcJSONValue_Parser` and
`_parcJSONValue_ArrayParser` have in common. -/
def PARCJSONParser.valueParserAt (lineSize : Nat) (peek : UInt8) (parser : PARCJSONParser) :
    Prog (Parsed PARCJSONValue) :=
  if peek = 'n'.toUInt8 then parcJSONValueNullParser parser
  else if peek = 't'.toUInt8 then parcJSONValueTrueParser parser
  else if peek = 'f'.toUInt8 then parcJSONValueFalseParser parser
  else if peek = quotationMark then parcJSONValueStringParser lineSize parser
  else if peek = beginObject then parser |>.parcJSONValueObjectParser lineSize
  else if peek = beginArray then parser |>.parcJSONValueArrayParser lineSize
  else parcJSONValueNumberParser parser
partial_fixpoint

def PARCJSONParser.parcJSONValueArrayParser (lineSize : Nat) (parser : PARCJSONParser) :
    Prog (Parsed PARCJSONValue) := do
  let (c, parser) ← parcJSONParserNextChar parser
  if c = beginArray then parser |>.arrayLoop lineSize []
  else pure (none, parser)
partial_fixpoint

def PARCJSONParser.arrayLoop (lineSize : Nat) (array : PARCJSONArray) (parser : PARCJSONParser) :
    Prog (Parsed PARCJSONValue) := do
  if parcJSONParserRemaining parser > 0 then do
    let (peek, parser) ← parcJSONParserPeekNextChar parser
    if peek = valueSeparator then do
      let (_, parser) ← parcJSONParserNextChar parser
      parser |>.arrayLoop lineSize array
    else if peek = endArray then do
      let (_, parser) ← parcJSONParserNextChar parser
      pure (some (.array array), parser)
    else do
      let (value, parser) ← parser |>.valueParserAt lineSize peek
      match value with
      | some value => parser |>.arrayLoop lineSize (array ++ [value])
      | none => pure (none, parser)
  else pure (none, parser)
partial_fixpoint

def PARCJSONParser.parcJSONValueObjectParser (lineSize : Nat) (parser : PARCJSONParser) :
    Prog (Parsed PARCJSONValue) := do
  let (c, parser) ← parcJSONParserNextChar parser
  if c = beginObject then parser |>.objectLoop lineSize []
  else pure (none, parser)
partial_fixpoint

def PARCJSONParser.objectLoop (lineSize : Nat) (json : PARCJSON) (parser : PARCJSONParser) :
    Prog (Parsed PARCJSONValue) := do
  if parcJSONParserRemaining parser > 0 then do
    let (c, parser) ← parcJSONParserPeekNextChar parser
    if c = endObject then do
      let (_, parser) ← parcJSONParserNextChar parser
      pure (some (.object json), parser)
    else if c = valueSeparator then do
      let (_, parser) ← parcJSONParserNextChar parser
      parser |>.objectLoop lineSize json
    else if c = quotationMark then do
      let (pair, parser) ← parser |>.parcJSONPairParser lineSize
      match pair with
      | some pair => parser |>.objectLoop lineSize (json ++ [pair])
      | none => pure (none, parser)
    else pure (none, parser)
  else pure (none, parser)
partial_fixpoint

def PARCJSONParser.parcJSONPairParser (lineSize : Nat) (parser : PARCJSONParser) :
    Prog (Parsed PARCJSONPair) := do
  let (name, parser) ← parcJSONParserParseString lineSize parser
  let (c, parser) ← parcJSONParserNextChar parser
  if c = nameSeparator then do
    let (value, parser) ← parser |>.parcJSONValueParser lineSize
    let name ← dereference name
    pure (value.map fun value => (name, value), parser)
  else do
    let _ ← dereference name
    pure (none, parser)
partial_fixpoint

def PARCJSONParser.parcJSONValueParser (lineSize : Nat) (parser : PARCJSONParser) :
    Prog (Parsed PARCJSONValue) := do
  let (nextCharacter, parser) ← parcJSONParserPeekNextChar parser
  if nextCharacter = valueSeparator ∨ nextCharacter = endArray then pure (none, parser)
  else parser |>.valueParserAt lineSize nextCharacter
partial_fixpoint

end

export PARCJSONParser (valueParserAt parcJSONValueArrayParser arrayLoop parcJSONValueObjectParser
  objectLoop parcJSONPairParser parcJSONValueParser)

/-- The object, and the buffer after it. -/
def parcJSONParseBuffer (lineSize : Nat) (buffer : PARCBuffer) :
    Prog (Option PARCJSON × PARCBuffer) := do
  let (firstCharacter, parser) ← parcJSONParserPeekNextChar (parcJSONParserCreate buffer)
  if firstCharacter = beginObject then do
    let (value, parser) ← parcJSONValueObjectParser lineSize parser
    pure (some (← parcJSONValueGetJSON value), parser.buffer)
  else pure (none, parser.buffer)

def parcJSONParseString (lineSize : Nat) (string : List UInt8) : Prog (Option PARCJSON) := do
  let buffer ← dereference (parcBufferWrapCString string)
  let (result, _) ← parcJSONParseBuffer lineSize buffer
  pure result

/-! ## Copies and hash codes -/

/-- The text, and the object with its strings and names rewound. -/
def toCreatedBuffer (lineSize : Nat) (json : PARCJSON) (compact : Bool) :
    Prog (PARCBuffer × PARCJSON) := do
  let (composer, json) ← parcJSONBuildString json (parcBufferComposerCreate lineSize) compact
  pure (parcBufferComposerProduceBuffer composer, json)

/-- The copy, and the original as rendering leaves it. -/
def parcJSONCopy (lineSize : Nat) (src : PARCJSON) : Prog (Option PARCJSON × PARCJSON) := do
  let (temp, src) ← toCreatedBuffer lineSize src true
  let (result, _) ← parcJSONParseBuffer lineSize temp
  pure (result, src)

def parcJSONHashCode (lineSize : Nat) (json : PARCJSON) : Prog (PARCHashCode × PARCJSON) := do
  let (temp, json) ← toCreatedBuffer lineSize json true
  pure (← parcBufferHashCode temp, json)

end Libparc.JSON
