import Libparc.Algol.JSONNumber

/-! # Values rendered and parsed back

The parsers read the text of a value, whatever follows it, and return a value
that agrees with it: one lemma for each turn of a parser's loop, then one
induction over the value, its elements and its members together. -/
namespace Libparc.JSON
open Buffer BufferComposer List

/-! ## The values that are read back -/

/-- A string at its start, with no control characters but those that have an
escape. -/
structure PlainString (string : PARCBuffer) : Prop where
  valid : string.Valid
  position : string.position = 0
  bytes : ∀ c ∈ string.remainingBytes, iscntrl c →
    c ∈ [backspace, formFeed, lineFeed, carriageReturn, tab]

/-- A name at its start, with nothing that a string would have to escape. -/
structure PlainName (name : PARCBuffer) : Prop where
  valid : name.Valid
  position : name.position = 0
  bytes : ∀ c ∈ name.remainingBytes, c ≠ quotationMark ∧ c ≠ reverseSolidus ∧ ¬ iscntrl c

def plain : Leaves := ⟨PlainString, PlainName, PlainNumber⟩

theorem plain_validBuffers : plain.Implies plain validBuffers :=
  ⟨fun _ h _ => h.valid, fun _ h _ => h.valid, fun _ _ _ => trivial⟩

theorem plain_atStart : plain.Implies plain atStart :=
  ⟨fun _ h _ => h.position, fun _ h _ => h.position, fun _ _ _ => trivial⟩

theorem escape_standsFor (compact : Bool) {c}
    (h : iscntrl c → c ∈ [backspace, formFeed, lineFeed, carriageReturn, tab]) :
    StandsFor c (escape compact c) := by
  unfold escape
  split_ifs with h1 h2 h3 h4 h5 h6 h7 h8
  · subst h1; exact .escaped rfl
  · subst h2; exact .escaped rfl
  · subst h3; exact .escaped rfl
  · subst h4; exact .escaped rfl
  · subst h5; exact .escaped rfl
  · subst h6; exact .escaped rfl
  · rw [h7.1]; exact .escaped rfl
  · subst h8; exact .escaped rfl
  · refine .plain h1 h8 fun hc => ?_
    simpa [h2, h3, h4, h5, h6] using h hc

theorem ifParsed_some {α β : Type} (a : α) (parser : PARCJSONParser)
    (next : α → PARCJSONParser → Prog (Option β × PARCJSONParser)) :
    ifParsed (pure (some a, parser)) next = next a parser := rfl

theorem bind_eq_ifParsed {α β : Type} {scanned next}
    {f : Option α × PARCJSONParser → Prog (Option β × PARCJSONParser)}
    (hs : ∀ a parser, f (some a, parser) = next a parser)
    (hn : ∀ parser, f (none, parser) = pure (none, parser)) :
    (scanned >>= f) = ifParsed scanned next := by
  refine congrArg (scanned >>= ·) (funext fun r => ?_)
  obtain ⟨_ | a, parser⟩ := r
  · exact hn parser
  · exact hs a parser

section
variable {p : PARCJSONParser} {text rest : List UInt8} {c : UInt8} (size : Nat)
  {cp : Bool}

theorem skipped_self (hs : skipped text = rest) : skipped rest = rest := by
  rw [← hs, skipped_skipped]

theorem skipped_blank : skipped (blank cp ++ text) = skipped text := by
  cases cp <;> rfl

theorem skipped_blank_cons (h : ¬ Ignored c) : skipped (blank cp ++ c :: text) = c :: text := by
  rw [skipped_blank, skipped_cons h]

theorem separator_eq : separator cp = valueSeparator :: blank cp := by
  cases cp <;> rfl

theorem skipped_separator : skipped (separator cp ++ text) =
    valueSeparator :: (blank cp ++ text) := by
  rw [separator_eq]
  exact skipped_cons (by decide)

/-! ## The first character of a value -/

theorem isdigit_ne {c d} (hc : isdigit c) (hd : ¬ isdigit d) : c ≠ d := fun h => hd (h ▸ hc)

theorem not_ignored_of_isdigit (hc : isdigit c) : ¬ Ignored c := by
  intro h
  rcases mem_cons.mp h with rfl | h
  · exact absurd hc (by decide)
  · rcases mem_pair.mp h with rfl | rfl
    all_goals exact absurd hc (by decide)

/-- The text of a number begins with a minus sign or a digit. -/
def Numeric (number : Number) : Prop :=
  ∃ c rest, numberText number = c :: rest ∧ (c = minus ∨ isdigit c)

theorem formatNat_head (n : Nat) : ∃ c rest, formatNat n = c :: rest ∧ isdigit c := by
  obtain ⟨d, ds, hdi⟩ := Decimal.digits_eq_cons n
  have hd : d < 10 := Decimal.digit_lt (hdi ▸ mem_cons_self)
  exact ⟨digitByte d, ds.map digitByte, by rw [formatNat_eq, hdi, map_cons],
    (digitByte_spec ⟨d, hd⟩).1⟩

theorem PlainNumber.numeric {number} (hn : PlainNumber number) : Numeric number := by
  obtain ⟨whole, hw⟩ := Int.eq_ofNat_of_zero_le hn.whole_nonneg
  obtain ⟨c, rest, hf, hc⟩ := formatNat_head whole
  simp only [Numeric, numberText, hn.exact, hw, formatInt_of_nonneg, hf,
    Bool.false_eq_true, if_false]
  by_cases hs : number.sign = -1
  · rw [if_pos hs]
    exact ⟨minus, _, rfl, .inl rfl⟩
  · rw [if_neg hs]
    exact ⟨c, _, rfl, .inr hc⟩

theorem valueText_head (cp : Bool) {p} (hp : ∀ number, p.number number →
    Numeric number) {v} (hv : Everywhere p v) :
    ∃ c rest, valueText cp v = c :: rest ∧ ¬ Ignored c ∧ c ≠ valueSeparator ∧ c ≠ endArray := by
  cases v with
  | boolean boolean =>
    cases boolean
    · exact ⟨'f'.toUInt8, _, rfl, by decide⟩
    · exact ⟨'t'.toUInt8, _, rfl, by decide⟩
  | string string => exact ⟨quotationMark, _, rfl, by decide⟩
  | number number =>
    obtain ⟨c, rest, ht, hc⟩ := hp number hv
    refine ⟨c, rest, ht, ?_⟩
    rcases hc with rfl | hc
    · decide
    · exact ⟨not_ignored_of_isdigit hc, isdigit_ne hc (by decide), isdigit_ne hc (by decide)⟩
  | array array => exact ⟨beginArray, _, rfl, by decide⟩
  | object ms => exact ⟨beginObject, _, rfl, by decide⟩
  | null => exact ⟨'n'.toUInt8, _, rfl, by decide⟩

theorem plain_numeric (number : Number) (hn : plain.number number) : Numeric number :=
  PlainNumber.numeric hn

/-! ## The turns of the array parser -/

theorem peek_next (h : At p text) (hs : skipped text = c :: rest) :
    ∃ n m, parcJSONParserPeekNextChar p = pure (c, p.forward n) ∧ At (p.forward n) (c :: rest) ∧
      parcJSONParserNextChar (p.forward n) = pure (c, p.forward m) ∧ At (p.forward m) rest := by
  obtain ⟨n, hp, h1⟩ := peekNextChar_at h hs
  obtain ⟨m, hn, h2⟩ := nextChar_at h1 (skipped_self hs)
  have hf : ((p.forward n).forward m).advance = p.forward (n + m + 1) := by
    rw [← forward_forward, ← forward_forward]
    rfl
  rw [hf] at hn
  exact ⟨n, n + m + 1, hp, h1, hn, hf ▸ h2.advance⟩

variable (a : PARCJSONArray) (json : PARCJSON)

theorem arrayLoop_end (h : At p text) (hs : skipped text = endArray :: rest) :
    ∃ n, arrayLoop size a p = pure (some (.array a), p.forward n) ∧ At (p.forward n) rest := by
  obtain ⟨n, m, hp, -, hn, h2⟩ := peek_next h hs
  refine ⟨m, ?_, h2⟩
  have hne : endArray ≠ valueSeparator := by decide
  rw [arrayLoop]
  simp only [if_pos (h.reads.remaining_pos hs), hp, pure_bind, if_neg hne, if_true, hn]

theorem arrayLoop_separator (h : At p text) (hs : skipped text = valueSeparator :: rest) :
    ∃ n, arrayLoop size a p = arrayLoop size a (p.forward n) ∧ At (p.forward n) rest := by
  obtain ⟨n, m, hp, -, hn, h2⟩ := peek_next h hs
  refine ⟨m, ?_, h2⟩
  rw [arrayLoop]
  simp only [if_pos (h.reads.remaining_pos hs), hp, pure_bind, if_true, hn]

theorem arrayLoop_value (h : At p text) (hs : skipped text = c :: rest)
    (hc : c ≠ valueSeparator) (hc' : c ≠ endArray) :
    ∃ n, At (p.forward n) (c :: rest) ∧ arrayLoop size a p =
      ifParsed (valueParserAt size c (p.forward n)) fun v p => arrayLoop size (a ++ [v]) p := by
  obtain ⟨n, m, hp, h1, -⟩ := peek_next h hs
  refine ⟨n, h1, ?_⟩
  rw [arrayLoop]
  simp only [if_pos (h.reads.remaining_pos hs), hp, pure_bind, if_neg hc, if_neg hc']
  exact bind_eq_ifParsed (fun _ _ => rfl) fun _ => rfl

/-! ## The turns of the object parser -/

theorem objectLoop_end (h : At p text) (hs : skipped text = endObject :: rest) :
    ∃ n, objectLoop size json p = pure (some (.object json), p.forward n) ∧
      At (p.forward n) rest := by
  obtain ⟨n, m, hp, -, hn, h2⟩ := peek_next h hs
  refine ⟨m, ?_, h2⟩
  rw [objectLoop]
  simp only [if_pos (h.reads.remaining_pos hs), hp, pure_bind, if_true, hn]

theorem objectLoop_separator (h : At p text) (hs : skipped text = valueSeparator :: rest) :
    ∃ n, objectLoop size json p = objectLoop size json (p.forward n) ∧ At (p.forward n) rest := by
  obtain ⟨n, m, hp, -, hn, h2⟩ := peek_next h hs
  refine ⟨m, ?_, h2⟩
  have hne : valueSeparator ≠ endObject := by decide
  rw [objectLoop]
  simp only [if_pos (h.reads.remaining_pos hs), hp, pure_bind, if_neg hne, if_true, hn]

theorem objectLoop_pair (h : At p text) (hs : skipped text = quotationMark :: rest) :
    ∃ n, At (p.forward n) (quotationMark :: rest) ∧ objectLoop size json p =
      ifParsed (parcJSONPairParser size (p.forward n)) fun pair p =>
        objectLoop size (json ++ [pair]) p := by
  obtain ⟨n, m, hp, h1, -⟩ := peek_next h hs
  refine ⟨n, h1, ?_⟩
  have hne : quotationMark ≠ endObject := by decide
  have hne' : quotationMark ≠ valueSeparator := by decide
  rw [objectLoop]
  simp only [if_pos (h.reads.remaining_pos hs), hp, pure_bind, if_neg hne, if_neg hne', if_true]
  exact bind_eq_ifParsed (fun _ _ => rfl) fun _ => rfl

/-- What a loop that goes on behind a separator does in front of the next item. -/
theorem loop_item (loop : PARCJSONParser → Prog (Parsed PARCJSONValue))
    (hl : ∀ {p text rest}, At p text → skipped text = valueSeparator :: rest →
      ∃ n, loop p = loop (p.forward n) ∧ At (p.forward n) rest)
    {next} (hn : next = [] ∨ next = separator cp) (h : Reads p (next ++ text)) :
    ∃ n here, loop p = loop (p.forward n) ∧ At (p.forward n) here ∧
      skipped here = skipped text := by
  obtain ⟨here, hat, hs⟩ := h
  rcases hn with rfl | rfl
  · exact ⟨0, here, rfl, hat, hs⟩
  · obtain ⟨n, hl, h'⟩ := hl hat (hs.trans skipped_separator)
    exact ⟨n, _, hl, h', skipped_blank⟩

theorem afterName_eq : afterName cp = quotationMark :: (blank cp ++ nameSeparator :: blank cp) := by
  cases cp <;> rfl

theorem valueParser_at (h : At p text) (hs : skipped text = c :: rest)
    (hc : c ≠ valueSeparator) (hc' : c ≠ endArray) :
    ∃ n, parcJSONValueParser size p = valueParserAt size c (p.forward n) ∧
      At (p.forward n) (c :: rest) := by
  obtain ⟨n, hp, h1⟩ := peekNextChar_at h hs
  refine ⟨n, ?_, h1⟩
  rw [parcJSONValueParser, hp, pure_bind]
  exact if_neg (not_or.mpr ⟨hc, hc'⟩)

end

/-! ## Parsing what was rendered -/

/-- In front of the text of the value and something that may follow, the parser
reads a value that agrees with it. -/
def ParsesBack (lineSize : Nat) (compact : Bool) (value : PARCJSONValue) : Prop :=
  ∀ {parser : PARCJSONParser} {text rest : List UInt8} {c : UInt8},
    valueText compact value = c :: rest → At parser (valueText compact value ++ text) →
    Follows text →
    ∃ value' parser', valueParserAt lineSize c parser = pure (some value', parser') ∧
      Agrees value value' ∧ Reads parser' text

section
variable {ps : PARCJSONParser} {text : List UInt8} (sz : Nat) {cp : Bool}

theorem pairParser_spec {name v} (hn : PlainName name)
    (hv : Everywhere plain v) (hb : ParsesBack sz cp v)
    (hf : Follows text) (h : At ps (quotationMark :: (name.remainingBytes ++
      (afterName cp ++ (valueText cp v ++ text))))) :
    ∃ name' v' p', parcJSONPairParser sz ps = pure (some (name', v'), p') ∧
      SameBytes name name' ∧ Agrees v v' ∧ Reads p' text := by
  obtain ⟨c, rest, ht, hc, hc1, hc2⟩ := valueText_head cp plain_numeric hv
  rw [afterName_eq, cons_append, append_assoc, cons_append,
    ← flatMap_singleton' name.remainingBytes] at h
  obtain ⟨name', p1, hna, hv', hby, h1⟩ := parseString_spec sz (spells_flatMap fun c hc =>
      .plain (hn.bytes c hc).1 (hn.bytes c hc).2.1 (hn.bytes c hc).2.2) h
  obtain ⟨p2, hco, h2⟩ := nextChar_spec h1.reads
    (skipped_blank_cons (show ¬ Ignored nameSeparator by decide))
  have hs : skipped (blank cp ++ (valueText cp v ++ text)) = c :: (rest ++ text) := by
    rw [ht]
    exact skipped_blank_cons hc
  obtain ⟨n, hp, h3⟩ := valueParser_at sz h2.advance hs hc1 hc2
  obtain ⟨v', p', hva, ha, hr⟩ := hb ht (by rw [ht]; exact h3) hf
  refine ⟨name', v', p', ?_, ⟨hn.valid, hv', hby.symm⟩, ha, hr⟩
  rw [parcJSONPairParser]
  simp only [hna, pure_bind, hco, if_true, hp, hva, dereference, Option.map_some]

theorem follows_of_skipped {c rest} (hs : skipped text = c :: rest)
    (hc : Delimiter c) : Follows text := ⟨c, rest, hs, hc⟩

theorem follows_elements (array : PARCJSONArray) :
    Follows (elementsText cp (separator cp) array ++ (blank cp ++ endArray :: text)) := by
  cases array with
  | nil => exact follows_of_skipped (skipped_blank_cons (by decide)) (.inr (.inl rfl))
  | cons v array =>
    rw [elementsText, append_assoc]
    exact follows_of_skipped skipped_separator (.inl rfl)

theorem follows_members (ms : PARCJSON) :
    Follows (membersText cp (separator cp) ms ++ (blank cp ++ endObject :: text)) := by
  cases ms with
  | nil => exact follows_of_skipped (skipped_blank_cons (by decide)) (.inr (.inr rfl))
  | cons member ms =>
    rw [membersText, append_assoc]
    exact follows_of_skipped skipped_separator (.inl rfl)

theorem valueParserAt_number {c} (hc : c = minus ∨ isdigit c) :
    valueParserAt sz c ps = parcJSONValueNumberParser ps := by
  have hne : ∀ d : UInt8, d ≠ minus → ¬ isdigit d → c ≠ d := by
    intro d hd hd'
    rcases hc with rfl | hc
    · exact hd.symm
    · exact isdigit_ne hc hd'
  rw [valueParserAt, if_neg (hne _ (by decide) (by decide)), if_neg (hne _ (by decide) (by decide)),
    if_neg (hne _ (by decide) (by decide)), if_neg (hne _ (by decide) (by decide)),
    if_neg (hne _ (by decide) (by decide)), if_neg (hne _ (by decide) (by decide))]

theorem valueParserAt_null : valueParserAt sz 'n'.toUInt8 ps = parcJSONValueNullParser ps := by
  rw [valueParserAt]
  rfl

theorem valueParserAt_true : valueParserAt sz 't'.toUInt8 ps = parcJSONValueTrueParser ps := by
  rw [valueParserAt]
  rfl

theorem valueParserAt_false : valueParserAt sz 'f'.toUInt8 ps = parcJSONValueFalseParser ps := by
  rw [valueParserAt]
  rfl

theorem valueParserAt_string :
    valueParserAt sz quotationMark ps = parcJSONValueStringParser sz ps := by
  rw [valueParserAt]
  rfl

theorem valueParserAt_object :
    valueParserAt sz beginObject ps = parcJSONValueObjectParser sz ps := by
  rw [valueParserAt]
  rfl

theorem valueParserAt_array : valueParserAt sz beginArray ps = parcJSONValueArrayParser sz ps := by
  rw [valueParserAt]
  rfl

theorem aroundText_append (first last : UInt8) (inner : List UInt8) :
    aroundText cp first last inner ++ text =
      first :: (blank cp ++ (inner ++ (blank cp ++ last :: text))) := by
  simp only [aroundText, cons_append, append_assoc, nil_append]

theorem objectParser_of_loop {inner} {P : PARCJSON → Prop}
    (hl : ∀ {ps}, Reads ps (inner ++ (blank cp ++ endObject :: text)) →
      ∃ ms p', objectLoop sz [] ps = pure (some (.object ([] ++ ms)), p') ∧ P ms ∧ At p' text)
    (h : At ps (beginObject :: (blank cp ++ (inner ++ (blank cp ++ endObject :: text))))) :
    ∃ ms p', parcJSONValueObjectParser sz ps =
        pure (some (.object ms), p') ∧ P ms ∧ At p' text := by
  obtain ⟨p1, hn, h1⟩ := nextChar_spec h.reads (skipped_cons (by decide))
  obtain ⟨ms, p', hr, hP, h'⟩ := hl (h1.advance.reads.congr skipped_blank)
  refine ⟨ms, p', ?_, hP, h'⟩
  rw [parcJSONValueObjectParser, hn, pure_bind]
  exact (if_pos rfl).trans hr

theorem literalParser_spec {s} (v : PARCJSONValue) (h : At ps (s ++ text)) :
    ∃ p', literalParser s v ps = pure (some v, p') ∧ At p' text := by
  obtain ⟨p', hr, h'⟩ := requireString_spec s h
  refine ⟨p', ?_, h'⟩
  rw [literalParser, hr, pure_bind]
  rfl

theorem stringParser_spec {s} (hs : PlainString s)
    (h : At ps (stringText cp s.remainingBytes ++ text)) :
    ∃ s' p', parcJSONValueStringParser sz ps = pure (some (.string s'), p') ∧
      SameBytes s s' ∧ At p' text := by
  rw [stringText, cons_append, append_assoc, singleton_append] at h
  obtain ⟨s', p', hp, hv, hb, h'⟩ := parseString_spec sz
    (spells_flatMap fun c hc => escape_standsFor cp (hs.bytes c hc)) h
  refine ⟨s', p', ?_, ⟨hs.valid, hv, hb.symm⟩, h'⟩
  rw [parcJSONValueStringParser, hp, pure_bind]
  rfl

end

mutual

/-- **What was rendered is parsed back**, value by value. -/
theorem parsesBack (lineSize : Nat) (compact : Bool) : ∀ v, Everywhere plain v →
    ParsesBack lineSize compact v
  | .boolean true, _, parser, text, rest, c, hc, h, hf => by
    obtain rfl : 't'.toUInt8 = c := (cons.inj hc).1
    obtain ⟨p', hp, h'⟩ := literalParser_spec (.boolean true) h
    exact ⟨.boolean true, p', (valueParserAt_true lineSize).trans hp, .boolean true, h'.reads⟩
  | .boolean false, _, parser, text, rest, c, hc, h, hf => by
    obtain rfl : 'f'.toUInt8 = c := (cons.inj hc).1
    obtain ⟨p', hp, h'⟩ := literalParser_spec (.boolean false) h
    exact ⟨.boolean false, p', (valueParserAt_false lineSize).trans hp, .boolean false, h'.reads⟩
  | .string string, hv, parser, text, rest, c, hc, h, hf => by
    obtain rfl : quotationMark = c := (cons.inj hc).1
    obtain ⟨s', p', hp, hs, h'⟩ := stringParser_spec lineSize hv h
    exact ⟨.string s', p', (valueParserAt_string lineSize).trans hp, .string hs, h'.reads⟩
  | .number number, hv, parser, text, rest, c, hc, h, hf => by
    obtain ⟨num', p', hp, hs, h'⟩ := numberParser_spec hv hf h.reads
    refine ⟨.number num', p', ?_, .number hs, h'⟩
    obtain ⟨d, tail, ht, hd⟩ := plain_numeric number hv
    obtain rfl : d = c := (cons.inj (ht.symm.trans hc)).1
    rw [valueParserAt_number lineSize hd, hp]
  | .array array, hv, parser, text, rest, c, hc, h, hf => by
    obtain rfl : beginArray = c := (cons.inj hc).1
    rw [valueText, aroundText_append] at h
    obtain ⟨p1, hn, h1⟩ := nextChar_spec h.reads (skipped_cons (by decide))
    obtain ⟨a', p', hl, ha, h'⟩ := arrayLoop_spec lineSize compact array hv []
      (.inl rfl) (h1.advance.reads.congr skipped_blank)
    refine ⟨.array a', p', ?_, .array ha, h'.reads⟩
    rw [valueParserAt_array, parcJSONValueArrayParser, hn, pure_bind]
    exact (if_pos rfl).trans hl
  | .object members, hv, parser, text, rest, c, hc, h, hf => by
    obtain rfl : beginObject = c := (cons.inj hc).1
    rw [valueText, aroundText_append] at h
    obtain ⟨ms', p', hp, ha, h'⟩ := objectParser_of_loop lineSize
      (fun h => objectLoop_spec lineSize compact members hv [] (.inl rfl) h) h
    exact ⟨.object ms', p', (valueParserAt_object lineSize).trans hp, .object ha, h'.reads⟩
  | .null, _, parser, text, rest, c, hc, h, hf => by
    obtain rfl : 'n'.toUInt8 = c := (cons.inj hc).1
    obtain ⟨p', hp, h'⟩ := literalParser_spec .null h
    exact ⟨.null, p', (valueParserAt_null lineSize).trans hp, .null, h'.reads⟩

theorem arrayLoop_spec (lineSize : Nat) (compact : Bool) : ∀ (array : PARCJSONArray),
    EveryElement plain array → ∀ (before : PARCJSONArray) {next text parser},
    (next = [] ∨ next = separator compact) →
    Reads parser (elementsText compact next array ++ (blank compact ++ endArray :: text)) →
    ∃ a' p', arrayLoop lineSize before parser = pure (some (.array (before ++ a')), p') ∧
      AgreeElements array a' ∧ At p' text
  | [], _, before, next, text, parser, _, ⟨here, hat, hs⟩ => by
    obtain ⟨n, hl, h'⟩ := arrayLoop_end lineSize before hat
      (hs.trans (skipped_blank_cons (by decide)))
    exact ⟨[], _, by rwa [append_nil], .nil, h'⟩
  | value :: array, hv, before, next, text, parser, hn, h => by
    obtain ⟨c, rest, ht, hc, hc1, hc2⟩ := valueText_head compact plain_numeric hv.1
    rw [elementsText, append_assoc, append_assoc] at h
    obtain ⟨n, here, hl1, h1, hh⟩ := loop_item (arrayLoop lineSize before)
      (arrayLoop_separator lineSize before) hn h
    have hs : skipped (valueText compact value ++
        (elementsText compact (separator compact) array ++ (blank compact ++ endArray :: text))) =
        c :: (rest ++ (elementsText compact (separator compact) array ++
          (blank compact ++ endArray :: text))) := by
      rw [ht]
      exact skipped_cons hc
    obtain ⟨m, h2, hl2⟩ := arrayLoop_value lineSize before h1 (hh.trans hs) hc1 hc2
    obtain ⟨v', p3, hva, ha, h3⟩ := parsesBack lineSize compact value hv.1 ht (by rw [ht]; exact h2)
        (follows_elements array)
    obtain ⟨a', p', hl3, hag, h'⟩ :=
      arrayLoop_spec lineSize compact array hv.2 (before ++ [v']) (.inr rfl) h3
    refine ⟨v' :: a', p', ?_, .cons ha hag, h'⟩
    rw [hl1, hl2, hva, ifParsed_some, hl3, append_assoc, singleton_append]

theorem objectLoop_spec (lineSize : Nat) (compact : Bool) : ∀ (ms : PARCJSON),
    EveryMember plain ms → ∀ (before : PARCJSON) {next text parser},
    (next = [] ∨ next = separator compact) →
    Reads parser (membersText compact next ms ++ (blank compact ++ endObject :: text)) →
    ∃ ms' p', objectLoop lineSize before parser = pure (some (.object (before ++ ms')), p') ∧
      AgreeMembers ms ms' ∧ At p' text
  | [], _, before, next, text, parser, _, ⟨here, hat, hs⟩ => by
    obtain ⟨n, hl, h'⟩ := objectLoop_end lineSize before hat
      (hs.trans (skipped_blank_cons (by decide)))
    exact ⟨[], _, by rwa [append_nil], .nil, h'⟩
  | (name, value) :: ms, hv, before, next, text, parser, hn, h => by
    rw [membersText, append_assoc] at h
    obtain ⟨n, here, hl1, h1, hh⟩ := loop_item (objectLoop lineSize before)
      (objectLoop_separator lineSize before) hn h
    obtain ⟨m, h2, hl2⟩ := objectLoop_pair lineSize before h1 (hh.trans (skipped_cons (by decide)))
    rw [append_eq, append_assoc, append_assoc, append_assoc] at h2
    obtain ⟨name', v', p3, hp, hna, ha, h3⟩ := pairParser_spec lineSize hv.1
      hv.2.1 (parsesBack lineSize compact value hv.2.1) (follows_members ms) h2
    obtain ⟨ms', p', hl3, hag, h'⟩ :=
      objectLoop_spec lineSize compact ms hv.2.2 (before ++ [(name', v')]) (.inr rfl) h3
    refine ⟨(name', v') :: ms', p', ?_, .cons hna ha hag, h'⟩
    rw [hl1, hl2, hp, ifParsed_some, hl3, append_assoc, singleton_append]

end

theorem parseBuffer_text (lineSize : Nat) (compact : Bool) {json} {b : PARCBuffer}
    (hj : EveryMember plain json) (hv : b.Valid) (hb : b.remainingBytes = jsonText compact json) :
    ∃ parsed b', parcJSONParseBuffer lineSize b = pure (some parsed, b') ∧
      AgreeMembers json parsed := by
  have h := at_create hv
  rw [hb, ← append_nil (jsonText _ _), jsonText, aroundText_append] at h
  obtain ⟨p1, hp, h1⟩ := peekNextChar_spec h.reads (skipped_cons (by decide))
  obtain ⟨parsed, p', hpa, ha, -⟩ := objectParser_of_loop lineSize
    (fun h => objectLoop_spec lineSize compact json hj [] (.inl rfl) h) h1
  refine ⟨parsed, p'.buffer, ?_, ha⟩
  rw [parcJSONParseBuffer, hp, pure_bind]
  simp only [if_true, hpa, pure_bind, parcJSONValueGetJSON]

/-- Rendering an object whose leaves are plain and parsing the text that was
produced gives an object that is equal to it: to the object as it was, and to
the object as rendering leaves it. -/
theorem parseBuffer_buildString (lineSize : Nat) (compact : Bool) (json : PARCJSON)
    (hjson : EveryMember plain json) {composer : PARCBufferComposer} (hc : Composes composer []) :
    ∃ composer' json' parsed buffer,
      parcJSONBuildString json composer compact = pure (composer', json') ∧
      parcJSONParseBuffer lineSize (parcBufferComposerProduceBuffer composer') =
        pure (some parsed, buffer) ∧ ∀ original ∈ [json, json'],
        parcJSONEquals original parsed = pure true ∧
        parcJSONEquals parsed original = pure true := by
  obtain ⟨composer', hb, hc'⟩ := buildStringAround_spec beginObject endObject
    (buildStringMembers_spec compact [] json
      (EveryMember.imp plain_validBuffers json hjson hjson)) hc
  obtain ⟨hv, hby⟩ := produceBuffer_spec hc'
  obtain ⟨parsed, buffer, hp, ha⟩ := parseBuffer_text lineSize compact hjson hv hby
  refine ⟨composer', rewoundMembers json, parsed, buffer, hb, hp, ?_⟩
  have ha' := ha.rewound (EveryMember.imp plain_atStart json hjson hjson)
  intro original ho
  rcases List.mem_pair.mp ho with rfl | rfl
  · exact ⟨(Agrees.object ha).equals, (Agrees.object ha.symm).equals⟩
  · exact ⟨(Agrees.object ha').equals, (Agrees.object ha'.symm).equals⟩

/-- A name with an array of a number with a fraction, a string with escapes and
an empty object. -/
def sample : PARCJSON :=
  [(⟨[97, 98], 2, 0, 0, 2, none⟩,
    .array [.number (createNumber 1 12 5 3 0), .string ⟨[34, 10, 47, 92], 4, 0, 0, 4, some 0⟩,
      .object [], .null])]

theorem parseBuffer_buildString_sample :
    ∃ composer' json' parsed buffer,
      parcJSONBuildString sample (parcBufferComposerCreate 64) false = pure (composer', json') ∧
      parcJSONParseBuffer 64 (parcBufferComposerProduceBuffer composer') =
        pure (some parsed, buffer) ∧ ∀ original ∈ [sample, json'],
        parcJSONEquals original parsed = pure true ∧ parcJSONEquals parsed original = pure true :=
  parseBuffer_buildString 64 false sample
    ⟨⟨⟨by simp, by decide, by decide, by decide⟩, rfl, by decide +kernel⟩,
      ⟨⟨rfl, by decide, by decide, by decide, by decide, by decide, by decide, by decide, by decide,
          rfl⟩,
        ⟨⟨by simp, by decide, by decide, by decide⟩, rfl, by decide +kernel⟩, trivial, trivial,
        trivial⟩, trivial⟩
    (composes_allocate 64 _)

end Libparc.JSON
