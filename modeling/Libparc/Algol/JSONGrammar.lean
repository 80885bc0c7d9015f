import Libparc.Algol.JSONRoundTrip

/-! # The texts the parsers take

`Derives` is a grammar of the texts that the parsers return a value for: it says
what a text begins with and what is left of it. Commas are as good as blanks
between the elements and members. Blanks may stand anywhere in a number, and a
number ends in front of a delimiter; one with an exponent takes the rest of the
text for its digits, so that nothing is left to close the object it is in.

Whatever the grammar derives is parsed (`Derives.parses`). -/
namespace Libparc.JSON
open List Exec

/-! ## The grammar -/

/-- What is left behind digits and the blanks between them. -/
def pastDigits (text : List UInt8) : List UInt8 := text.dropWhile fun c => Ignored c ∨ isdigit c

/-- A zero, or digits that begin with another one. -/
inductive Whole : List UInt8 → List UInt8 → Prop
  | zero {text rest : List UInt8} : skipped text = zero :: rest → Whole text rest
  | digits {text next : List UInt8} {c : UInt8} : skipped text = c :: next → c ≠ zero →
      isdigit c → Whole text (pastDigits next)

/-- Nothing, or a period and digits, in front of a delimiter. -/
inductive Fraction : List UInt8 → List UInt8 → Prop
  | none {text : List UInt8} : Follows text → Fraction text (skipped text)
  | digits {text next : List UInt8} : skipped text = period :: next →
      Follows (pastDigits next) → Fraction text (pastDigits next)

inductive NumberText : List UInt8 → List UInt8 → Prop
  | unsigned {text next rest : List UInt8} : Whole text next → Fraction next rest →
      NumberText text rest
  | negative {text signed next rest : List UInt8} : skipped text = minus :: signed →
      Whole signed next → Fraction next rest → NumberText text rest

def StringText (text rest : List UInt8) : Prop :=
  ∃ bytes body, text = quotationMark :: body ∧ Spells bytes body rest

/-- A value, and what stands in an array or an object, with the bracket that
closes it. -/
inductive Symbol where
  | value
  | elements
  | members

/-- The text begins with what the symbol stands for, and the rest follows. -/
inductive Derives : Symbol → List UInt8 → List UInt8 → Prop
  | literal {string rest : List UInt8} :
      string ∈ [ascii "null", ascii "true", ascii "false"] → Derives .value (string ++ rest) rest
  | string {text rest : List UInt8} : StringText text rest → Derives .value text rest
  | number {text rest : List UInt8} : skipped text = text → NumberText text rest →
      Derives .value text rest
  | array {text rest : List UInt8} : Derives .elements text rest →
      Derives .value (beginArray :: text) rest
  | object {text rest : List UInt8} : Derives .members text rest →
      Derives .value (beginObject :: text) rest
  | elementsEnd {text rest : List UInt8} : skipped text = endArray :: rest →
      Derives .elements text rest
  | elementsSeparator {text next rest : List UInt8} : skipped text = valueSeparator :: next →
      Derives .elements next rest → Derives .elements text rest
  | element {text next rest : List UInt8} : Derives .value (skipped text) next →
      Derives .elements next rest → Derives .elements text rest
  | membersEnd {text rest : List UInt8} : skipped text = endObject :: rest →
      Derives .members text rest
  | membersSeparator {text next rest : List UInt8} : skipped text = valueSeparator :: next →
      Derives .members next rest → Derives .members text rest
  | member {text named value next rest : List UInt8} : StringText (skipped text) named →
      skipped named = nameSeparator :: value → Derives .value (skipped value) next →
      Derives .members next rest → Derives .members text rest

/-! ## What a symbol takes -/

section
variable {text rest next : List UInt8} {c : UInt8}

theorem pastDigits_cons_of (hc : Ignored c ∨ isdigit c) :
    pastDigits (c :: text) = pastDigits text := by
  rw [pastDigits, dropWhile_cons, if_pos (by simpa using hc)]
  rfl

theorem pastDigits_cons_of_not (hc : ¬ (Ignored c ∨ isdigit c)) :
    pastDigits (c :: text) = c :: text := by
  rw [pastDigits, dropWhile_cons, if_neg (by simpa using hc)]

theorem skipped_cons_of (hc : Ignored c) : skipped (c :: text) = skipped text := by
  rw [skipped, dropWhile_cons, if_pos (by simpa using hc)]
  rfl

theorem not_ignored_of_skipped (hs : skipped text = c :: rest) : ¬ Ignored c := by
  intro hc
  have hse := skipped_self hs
  rw [skipped_cons_of hc] at hse
  have hle : (skipped rest).length ≤ rest.length := (dropWhile_sublist _).length_le
  rw [hse, length_cons] at hle
  exact Nat.not_succ_le_self _ hle

theorem pastDigits_skipped : pastDigits (skipped text) = pastDigits text := by
  induction text with
  | nil => rfl
  | cons d text ih =>
    by_cases hd : Ignored d
    · rw [skipped_cons_of hd, ih, pastDigits_cons_of (.inl hd)]
    · rw [skipped_cons hd]

theorem pastDigits_of_digit (hs : skipped text = c :: rest) (hc : isdigit c) :
    pastDigits text = pastDigits rest := by
  rw [← pastDigits_skipped, hs, pastDigits_cons_of (.inr hc)]

theorem pastDigits_of_not_digit (hs : skipped text = c :: rest) (hc : ¬ isdigit c) :
    pastDigits text = c :: rest := by
  rw [← pastDigits_skipped, hs, pastDigits_cons_of_not (not_or.mpr ⟨not_ignored_of_skipped hs, hc⟩)]

theorem skipped_pastDigits : skipped (pastDigits text) = pastDigits text := by
  induction text with
  | nil => rfl
  | cons d text ih =>
    by_cases hd : Ignored d ∨ isdigit d
    · rw [pastDigits_cons_of hd, ih]
    · rw [pastDigits_cons_of_not hd, skipped_cons (not_or.mp hd).1]

theorem Fraction.skipped_eq (h : Fraction text rest) : skipped rest = rest := by
  cases h with
  | none _ => exact skipped_skipped
  | digits _ _ => exact skipped_pastDigits

theorem Fraction.follows (h : Fraction text rest) : Follows rest := by
  cases h with
  | none hf =>
    obtain ⟨c, next, hs, hc⟩ := hf
    exact ⟨c, next, skipped_skipped.trans hs, hc⟩
  | digits _ hf => exact hf

theorem Whole.head (h : Whole text rest) : ∃ c tail, skipped text = c :: tail ∧ isdigit c := by
  cases h with
  | zero hs => exact ⟨_, _, hs, by decide⟩
  | digits hs _ hc => exact ⟨_, _, hs, hc⟩

theorem whole_skipped : Whole (skipped text) rest ↔ Whole text rest := by
  constructor
  · rintro (hs | ⟨hs, hne, hc⟩)
    · exact .zero (skipped_skipped.symm.trans hs)
    · exact .digits (skipped_skipped.symm.trans hs) hne hc
  · rintro (hs | ⟨hs, hne, hc⟩)
    · exact .zero (skipped_skipped.trans hs)
    · exact .digits (skipped_skipped.trans hs) hne hc

theorem NumberText.head (h : NumberText text rest) :
    ∃ c tail, skipped text = c :: tail ∧ (c = minus ∨ isdigit c) := by
  cases h with
  | unsigned hw _ =>
    obtain ⟨c, tail, hs, hc⟩ := hw.head
    exact ⟨c, tail, hs, .inr hc⟩
  | negative hm _ _ => exact ⟨_, _, hm, .inl rfl⟩

theorem Derives.value_head (h : Derives .value text rest) :
    ∃ c tail, text = c :: tail ∧ c ≠ valueSeparator ∧ c ≠ endArray := by
  cases h with
  | literal hs =>
    simp only [mem_cons, not_mem_nil, or_false] at hs
    rcases hs with rfl | rfl | rfl
    all_goals exact ⟨_, _, rfl, by decide, by decide⟩
  | string hs =>
    obtain ⟨_, _, rfl, -⟩ := hs
    exact ⟨_, _, rfl, by decide, by decide⟩
  | number hs hn =>
    obtain ⟨c, tail, ht, hc⟩ := hn.head
    refine ⟨c, tail, hs.symm.trans ht, ?_⟩
    rcases hc with rfl | hc
    · decide
    · exact ⟨isdigit_ne hc (by decide), isdigit_ne hc (by decide)⟩
  | array _ | object _ => exact ⟨_, _, rfl, by decide, by decide⟩

/-! ## A symbol takes something -/

theorem length_skipped_le : (skipped text).length ≤ text.length := (dropWhile_sublist _).length_le

theorem length_lt_of_skipped (hs : skipped text = c :: rest) : rest.length < text.length := by
  have hle : (skipped text).length ≤ text.length := length_skipped_le
  rw [hs, length_cons] at hle
  exact hle

theorem length_pastDigits_le : (pastDigits text).length ≤ text.length :=
  (dropWhile_sublist _).length_le

theorem Whole.length_lt (h : Whole text rest) : rest.length < text.length := by
  cases h with
  | zero hs => exact length_lt_of_skipped hs
  | digits hs _ _ => exact length_pastDigits_le.trans_lt (length_lt_of_skipped hs)

theorem Fraction.length_le (h : Fraction text rest) : rest.length ≤ text.length := by
  cases h with
  | none _ => exact length_skipped_le
  | digits hs _ => exact (length_pastDigits_le.trans_lt (length_lt_of_skipped hs)).le

theorem NumberText.length_lt (h : NumberText text rest) : rest.length < text.length := by
  cases h with
  | unsigned hw hf => exact hf.length_le.trans_lt hw.length_lt
  | negative hs hw hf =>
    exact (hf.length_le.trans_lt hw.length_lt).trans (length_lt_of_skipped hs)

theorem Spells.length_lt {bs} (h : Spells bs text rest) : rest.length < text.length := by
  induction h with
  | close => exact Nat.lt_succ_self _
  | piece _ _ ih =>
    rw [length_append]
    exact Nat.lt_add_left _ ih

theorem StringText.length_lt (h : StringText text rest) : rest.length < text.length := by
  obtain ⟨bs, body, rfl, hs⟩ := h
  exact hs.length_lt.trans (Nat.lt_succ_self _)

theorem Derives.length_lt {sym} (h : Derives sym text rest) : rest.length < text.length := by
  induction h with
  | literal hs =>
    simp only [mem_cons, not_mem_nil, or_false] at hs
    rw [length_append]
    rcases hs with rfl | rfl | rfl <;> exact Nat.lt_add_of_pos_left (by decide)
  | string hs => exact hs.length_lt
  | number _ hn => exact hn.length_lt
  | array _ ih | object _ ih => exact ih.trans (Nat.lt_succ_self _)
  | elementsEnd hs | membersEnd hs => exact length_lt_of_skipped hs
  | elementsSeparator hs _ ih | membersSeparator hs _ ih => exact ih.trans (length_lt_of_skipped hs)
  | element _ _ ihv ih => exact ih.trans (ihv.trans_le length_skipped_le)
  | member hn hs _ _ ihv ih =>
    calc _ < _ := ih
      _ < _ := ihv.trans_le length_skipped_le
      _ < _ := length_lt_of_skipped hs
      _ < _ := hn.length_lt.trans_le length_skipped_le

end

/-! ## Numbers are parsed -/

section
variable {p : PARCJSONParser} {text rest : List UInt8}

theorem parseDigits_past (v log10 : Int) (h : At p text) :
    ∃ v' log10' n, loop parseDigitsBody (v, log10, p) = pure (v', log10', p.forward n) ∧
      At (p.forward n) (pastDigits text) := by
  induction hl : text.length using Nat.strongRecOn generalizing text p v log10 with
  | ind length ih =>
    cases hs : skipped text with
    | nil =>
      obtain ⟨n, hn, hat⟩ := next_end h hs
      refine ⟨v, log10, n, loop_done ?_, ?_⟩
      · simp only [parseDigitsBody, hn, pure_bind]
      · rwa [← pastDigits_skipped, hs]
    | cons c rest =>
      obtain ⟨n, hn, hat⟩ := next_at h hs
      by_cases hc : isdigit c
      · have hsh : rest.length < length := hl ▸ length_lt_of_skipped hs
        obtain ⟨v', log10', m, hlo, hat'⟩ := ih rest.length hsh
          (int64 (v * 10 + digittoint c)) (int32 (log10 + 1)) hat.advance rfl
        have hf : (p.forward n).advance.forward m = p.forward (n + 1 + m) := by
          rw [← forward_forward, ← forward_forward]
          rfl
        rw [hf] at hlo hat'
        refine ⟨v', log10', n + 1 + m, (loop_next ?_).trans hlo, ?_⟩
        · simp only [parseDigitsBody, hn, pure_bind, not_not.mpr hc, if_false]
        · rwa [pastDigits_of_digit hs hc]
      · refine ⟨v, log10, n, loop_done ?_, ?_⟩
        · simp only [parseDigitsBody, hn, pure_bind, if_pos hc, advance_back hat]
        · rwa [pastDigits_of_not_digit hs hc]

theorem Whole.parses (hw : Whole text rest) (h : At p text) :
    ∃ v p', parseWholeNumber p = pure (some v, p') ∧ At p' rest := by
  cases hw with
  | zero hs =>
    obtain ⟨n, hn, hat⟩ := next_at h hs
    refine ⟨0, _, ?_, hat.advance⟩
    simp only [parseWholeNumber, hn, pure_bind, if_true]
  | @digits next c hs hz hc =>
    obtain ⟨n, hn, hat⟩ := next_at h hs
    obtain ⟨v, log10, m, hl, hat'⟩ := parseDigits_past (digittoint c) 0 hat.advance
    refine ⟨v, _, ?_, hat'⟩
    simp only [parseWholeNumber, hn, pure_bind, if_neg hz, if_pos hc, hl]

theorem Fraction.parses (hf : Fraction text rest) (h : At p text) :
    ∃ v p', parseOptionalFraction p = pure (some v, p') ∧ Reads p' rest := by
  cases hf with
  | none hf =>
    obtain ⟨p', hp, hr⟩ :=
      parseOptionalFraction_none hf.ends h.reads
    exact ⟨_, p', hp, hr.congr skipped_skipped.symm⟩
  | @digits next hs hf =>
    obtain ⟨n, hn, hat⟩ := next_at h hs
    obtain ⟨v, log10, m, hl, hat'⟩ := parseDigits_past 0 0 hat.advance
    refine ⟨(v, log10), _, ?_, hat'.reads⟩
    have hm : parcJSONParserRemaining (p.forward n).advance > 0 := by
      cases next with
      | nil => obtain ⟨c, rest, hc, -⟩ := hf; cases hc
      | cons d next => exact hat.advance.remaining_pos
    simp only [parseOptionalFraction, hn, pure_bind, if_true, parseFractionNumber, if_pos hm, hl]

theorem NumberText.parses (hn : NumberText text rest) (h : At p text) :
    ∃ num p', parcJSONValueNumberParser p = pure (some (.number num), p') ∧
      (num.sign = -1 ↔ ∃ tail, skipped text = minus :: tail) ∧ At p' rest := by
  -- the sign first, then the three other parts
  obtain ⟨sign, signed, next, p1, hsi, hsi', hw, hf, h1⟩ :
      ∃ sign signed next p1, parseSign p = pure (some sign, p1) ∧
        (sign = -1 ↔ ∃ tail, skipped text = minus :: tail) ∧ Whole signed next ∧
        Fraction next rest ∧ At p1 signed := by
    cases hn with
    | unsigned hw hf =>
      obtain ⟨c, tail, hs, hc⟩ := hw.head
      obtain ⟨n, hnx, hat⟩ := nextChar_at h hs
      have hne := isdigit_ne hc (show ¬ isdigit minus by decide)
      have hu : ¬ ∃ tail, skipped text = minus :: tail :=
        fun ⟨tail', hs'⟩ => hne (cons.inj (hs.symm.trans hs')).1
      refine ⟨1, c :: tail, _, _, ?_, iff_of_false (by decide) hu,
        hs ▸ whole_skipped.mpr hw, hf, hat⟩
      simp only [parseSign, if_pos (h.reads.remaining_pos hs), hnx, pure_bind,
        if_neg hne, not_not.mpr hc, if_false, advance_back hat]
    | negative hm hw hf =>
      obtain ⟨n, hnx, hat⟩ := nextChar_at h hm
      refine ⟨-1, _, _, _, ?_, iff_of_true rfl ⟨_, hm⟩, hw, hf, hat.advance⟩
      simp only [parseSign, if_pos (h.reads.remaining_pos hm), hnx, pure_bind, if_true]
  obtain ⟨whole, p2, hwh, h2⟩ := hw.parses h1
  obtain ⟨⟨f, log10⟩, parser3, hfr, h3⟩ := hf.parses h2
  obtain ⟨p4, hexponent, h4⟩ := parseOptionalExponent_none hf.follows.ends h3
  rw [hf.skipped_eq] at h4
  refine ⟨createNumber sign whole f log10 0, p4, ?_, hsi', h4⟩
  simp only [parcJSONValueNumberParser, ifParsed, hsi, hwh, hfr, hexponent, pure_bind]

end

/-! ## Values are parsed -/

/-- The parser of the symbol returns a value for the text, and stands in front
of the rest. -/
def Parses (lineSize : Nat) : Symbol → List UInt8 → List UInt8 → Prop
  | .value, text, rest => ∀ ⦃parser : PARCJSONParser⦄ ⦃c : UInt8⦄ ⦃tail : List UInt8⦄,
      text = c :: tail → At parser text →
      ∃ value parser', valueParserAt lineSize c parser = pure (some value, parser') ∧
        At parser' rest
  | .elements, text, rest => ∀ ⦃parser : PARCJSONParser⦄ (array : PARCJSONArray),
      At parser text →
      ∃ value parser', arrayLoop lineSize array parser = pure (some value, parser') ∧
        At parser' rest
  | .members, text, rest => ∀ ⦃parser : PARCJSONParser⦄ (json : PARCJSON), At parser text →
      ∃ members parser', objectLoop lineSize json parser =
          pure (some (.object members), parser') ∧
        At parser' rest

variable {ps : PARCJSONParser} {text rest : List UInt8} (size : Nat)

theorem StringText.parses (hs : StringText text rest) (h : At ps text) :
    ∃ b p', parcJSONParserParseString size ps = pure (some b, p') ∧ At p' rest := by
  obtain ⟨bs, body, rfl, hsp⟩ := hs
  obtain ⟨b, p', hp, -, -, h'⟩ := parseString_spec size hsp h
  exact ⟨b, p', hp, h'⟩

theorem parses_pair {named v} (hn : StringText text named)
    (hs : skipped named = nameSeparator :: v) (hd : Derives .value (skipped v) rest)
    (hv : Parses size .value (skipped v) rest) (h : At ps text) :
    ∃ pair p', parcJSONPairParser size ps = pure (some pair, p') ∧ At p' rest := by
  obtain ⟨name, p1, hna, h1⟩ := hn.parses size h
  obtain ⟨p2, hco, h2⟩ := nextChar_spec h1.reads hs
  obtain ⟨c, tail, ht, hc, hc'⟩ := hd.value_head
  obtain ⟨n, hp, h3⟩ := valueParser_at size h2.advance ht hc hc'
  obtain ⟨v', p', hva, h'⟩ := hv ht (ht ▸ h3)
  refine ⟨(name, v'), p', ?_, h'⟩
  rw [parcJSONPairParser]
  simp only [hna, pure_bind, hco, if_true, hp, hva, dereference, Option.map_some]

/-- **What the grammar derives is parsed.** -/
theorem Derives.parses {sym} (h : Derives sym text rest) : Parses size sym text rest := by
  induction h with
  | literal hs =>
    intro ps c tail ht h
    simp only [mem_cons, not_mem_nil, or_false] at hs
    rcases hs with rfl | rfl | rfl
    · obtain ⟨p', hp, h'⟩ := literalParser_spec .null h
      obtain rfl : 'n'.toUInt8 = c := (cons.inj ht).1
      exact ⟨_, p', (valueParserAt_null size).trans hp, h'⟩
    · obtain ⟨p', hp, h'⟩ := literalParser_spec (.boolean true) h
      obtain rfl : 't'.toUInt8 = c := (cons.inj ht).1
      exact ⟨_, p', (valueParserAt_true size).trans hp, h'⟩
    · obtain ⟨p', hp, h'⟩ := literalParser_spec (.boolean false) h
      obtain rfl : 'f'.toUInt8 = c := (cons.inj ht).1
      exact ⟨_, p', (valueParserAt_false size).trans hp, h'⟩
  | string hs =>
    intro ps c tail ht h
    obtain ⟨string, p', hp, h'⟩ := hs.parses size h
    obtain ⟨_, _, rfl, -⟩ := hs
    obtain rfl : quotationMark = c := (cons.inj ht).1
    refine ⟨.string string, p', (valueParserAt_string size).trans ?_, h'⟩
    rw [parcJSONValueStringParser, hp, pure_bind]
    rfl
  | number hs hn =>
    intro ps c tail ht h
    obtain ⟨number, p', hp, -, h'⟩ := hn.parses h
    obtain ⟨d, tail', hs', hd⟩ := hn.head
    obtain rfl : d = c := (cons.inj (hs'.symm.trans (hs.trans ht))).1
    exact ⟨_, p', (valueParserAt_number size hd).trans hp, h'⟩
  | array _ ih =>
    intro ps c tail ht h
    obtain rfl : beginArray = c := (cons.inj ht).1
    obtain ⟨n, hne, h1⟩ := nextChar_at h (skipped_cons (by decide))
    obtain ⟨v, p', hl, h'⟩ := ih [] h1.advance
    refine ⟨v, p', (valueParserAt_array size).trans ?_, h'⟩
    rw [parcJSONValueArrayParser, hne, pure_bind]
    exact (if_pos rfl).trans hl
  | object _ ih =>
    intro ps c tail ht h
    obtain rfl : beginObject = c := (cons.inj ht).1
    obtain ⟨n, hne, h1⟩ := nextChar_at h (skipped_cons (by decide))
    obtain ⟨ms, p', hl, h'⟩ := ih [] h1.advance
    refine ⟨.object ms, p', (valueParserAt_object size).trans ?_, h'⟩
    rw [parcJSONValueObjectParser, hne, pure_bind]
    exact (if_pos rfl).trans hl
  | elementsEnd hs =>
    intro ps array h
    obtain ⟨n, hl, h'⟩ := arrayLoop_end size array h hs
    exact ⟨_, _, hl, h'⟩
  | elementsSeparator hs _ ih =>
    intro ps array h
    obtain ⟨n, hl, h1⟩ := arrayLoop_separator size array h hs
    obtain ⟨v, p', hr, h'⟩ := ih array h1
    exact ⟨v, p', hl.trans hr, h'⟩
  | element hd _ ihv ih =>
    intro ps array h
    obtain ⟨c, tail, ht, hc, hc'⟩ := hd.value_head
    obtain ⟨n, h1, hl⟩ := arrayLoop_value size array h ht hc hc'
    obtain ⟨v, p2, hv, h2⟩ := ihv ht (ht ▸ h1)
    obtain ⟨r, p', hr, h'⟩ := ih (array ++ [v]) h2
    refine ⟨r, p', ?_, h'⟩
    rw [hl, hv, ifParsed_some, hr]
  | membersEnd hs =>
    intro ps json h
    obtain ⟨n, hl, h'⟩ := objectLoop_end size json h hs
    exact ⟨_, _, hl, h'⟩
  | membersSeparator hs _ ih =>
    intro ps json h
    obtain ⟨n, hl, h1⟩ := objectLoop_separator size json h hs
    obtain ⟨ms, p', hr, h'⟩ := ih json h1
    exact ⟨ms, p', hl.trans hr, h'⟩
  | member hn hs hd _ ihv ih =>
    intro ps json h
    obtain ⟨bs, body, ht, -⟩ := id hn
    obtain ⟨n, h1, hl⟩ := objectLoop_pair size json h ht
    obtain ⟨pair, p2, hpa, h2⟩ := parses_pair size hn hs hd ihv (ht ▸ h1)
    obtain ⟨ms, p', hr, h'⟩ := ih (json ++ [pair]) h2
    refine ⟨ms, p', ?_, h'⟩
    rw [hl, hpa, ifParsed_some, hr]

end Libparc.JSON
