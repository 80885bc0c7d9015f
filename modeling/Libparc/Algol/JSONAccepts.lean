import Libparc.Algol.JSONGrammar

/-! # What the parsers return a value for

The other half of the grammar: a parser that returns a value has read what the
grammar derives (`sound`). So `parcJSON_ParseBuffer` returns exactly when the text
begins with something else than an object, or with one of the grammar
(`parse_returns_iff`). In all other cases it stops: the scanners trap behind the
end of the text, and the NULL that the object parser returns for an object it
does not understand is accessed. -/
namespace Libparc.JSON
open Buffer BufferComposer Exec List

/-! ## At the end of the text -/

/-- The parser is in front of `text`, and no sum wraps round before the end of its
buffer or of its array. -/
structure Within (parser : PARCJSONParser) (text : List UInt8) : Prop extends At parser text where
  size : parser.buffer.limit + 1 < 2 ^ 64 ∨ parser.buffer.array.length < 2 ^ 64

section
variable {p p' : PARCJSONParser} {text rest : List UInt8} {c : UInt8}

theorem Within.forward (h : Within p text) {n} (hat : At (p.forward n) rest) :
    Within (p.forward n) rest := ⟨hat, h.size⟩

theorem Within.advance (h : Within p (c :: text)) : Within p.advance text :=
  ⟨h.toAt.advance, h.size⟩

theorem At.position_eq (h : At p []) : p.buffer.position = p.buffer.limit := by
  have hl := length_remainingBytes h.valid
  rw [h.remaining, length_nil, h.valid.remaining] at hl
  have hle := h.valid.position_le
  omega

theorem getByte_lt {a i byte} (h : parcByteArrayGetByte a i = pure byte) : a[i]? = some byte := by
  unfold parcByteArrayGetByte at h
  split at h
  · rename_i hg
    rw [hg, pure_inj.mp h]
  · exact absurd h throw_ne_pure

theorem getUint8_end (h : Within p []) {r} : getUint8 p ≠ pure r := by
  intro hr
  obtain ⟨_, hg, -⟩ := bind_eq_pure.mp hr
  obtain ⟨_, ht, hre⟩ := bind_eq_pure.mp hg
  obtain ⟨byte, hb, -⟩ := bind_eq_pure.mp hre
  have hl := not_of_trapOutOfBoundsIf ht
  obtain ⟨hlt, -⟩ := List.getElem?_eq_some_iff.mp (getByte_lt hb)
  have hp := h.position_eq
  have hs := h.size
  -- only a sum that wraps round gets past the trap, and then the array ends here
  rw [effectivePosition] at hlt
  omega

section
variable (h : Within p text)
include h

theorem getUint8_inv (hr : getUint8 p = pure (c, p')) :
    ∃ rest, text = c :: rest ∧ Within p' rest := by
  cases text with
  | nil => exact absurd hr (getUint8_end h)
  | cons d rest =>
    rw [getUint8_at h.toAt] at hr
    cases hr
    exact ⟨rest, rfl, h.advance⟩

theorem nextChar_inv (hr : parcJSONParserNextChar p = pure (c, p')) :
    ∃ rest, skipped text = c :: rest ∧ Within p' rest := by
  obtain ⟨n, hs, hat⟩ := skipIgnored_at h.toAt
  rw [parcJSONParserNextChar, hs, pure_bind] at hr
  exact getUint8_inv (h.forward hat) hr

theorem peekNextChar_inv (hr : parcJSONParserPeekNextChar p = pure (c, p')) :
    Within p' (skipped text) ∧ ∀ d rest, skipped text = d :: rest → d = c := by
  obtain ⟨n, hsk, hat⟩ := skipIgnored_at h.toAt
  rw [parcJSONParserPeekNextChar, hsk, pure_bind] at hr
  obtain ⟨byte, hp, hre⟩ := bind_eq_pure.mp hr
  cases hre
  refine ⟨h.forward hat, fun d rest hs => ?_⟩
  rw [hs] at hat
  rw [peekByte_spec hat.valid hat.remaining] at hp
  exact pure_inj.mp hp

theorem next_inv {α : Type} {next} {a : α} (hr : (parcJSONParserNext p >>= next) = pure a) :
    (skipped text = [] ∧ ∃ p', next (none, p') = pure a ∧ Within p' []) ∨
    ∃ c rest p', skipped text = c :: rest ∧ next (some c, p'.advance) = pure a ∧
      Within p' (c :: rest) := by
  cases hs : skipped text with
  | nil =>
    obtain ⟨n, hn, hat⟩ := next_end h.toAt hs
    rw [hn, pure_bind] at hr
    exact .inl ⟨rfl, _, hr, h.forward hat⟩
  | cons c rest =>
    obtain ⟨n, hn, hat⟩ := next_at h.toAt hs
    rw [hn, pure_bind] at hr
    exact .inr ⟨c, rest, _, rfl, hr, h.forward hat⟩

end

theorem requireString_inv (string : List UInt8) {p text}
    (h : Within p text) (hr : parcJSONParserRequireString p string = pure (true, p')) :
    ∃ rest, text = string ++ rest ∧ Within p' rest := by
  induction string generalizing p text with
  | nil =>
    cases hr
    exact ⟨text, rfl, h⟩
  | cons required string ih =>
    obtain ⟨⟨actual, parser1⟩, hg, hre⟩ := bind_eq_pure.mp hr
    obtain ⟨next, rfl, h1⟩ := getUint8_inv h hg
    dsimp only at hre
    split at hre
    · cases hre
    · rename_i hne
      obtain ⟨rest, rfl, h'⟩ := ih h1 hre
      exact ⟨rest, by rw [not_not.mp hne, cons_append], h'⟩

theorem literalParser_inv {string value v'} (h : Within p text)
    (hr : literalParser string value p = pure (some v', p')) :
    ∃ rest, text = string ++ rest ∧ Within p' rest ∧ v' = value := by
  obtain ⟨⟨r, parser1⟩, hre, hrs⟩ := bind_eq_pure.mp hr
  cases r with
  | false => cases hrs
  | true =>
    cases hrs
    obtain ⟨rest, ht, h'⟩ := requireString_inv string h hre
    exact ⟨rest, ht, h', rfl⟩

end

/-! ## Strings -/

section
variable {ps ps' : PARCJSONParser} {text rest : List UInt8} {c : UInt8} (size : Nat)

theorem parseString_turn {k out r}
    (hc : Composes k out) (h : Within ps text) (hr : parseStringBody (k, ps) = pure r) :
    (∃ c piece rest c' ps', r = .inl (c', ps') ∧ StandsFor c piece ∧
      text = piece ++ rest ∧ Composes c' (out ++ [c]) ∧ Within ps' rest) ∨
    (∃ rest ps', r = .inr (some (parcBufferComposerProduceBuffer k), ps') ∧
      text = quotationMark :: rest ∧ Within ps' rest) ∨ ∃ ps', r = .inr (none, ps') := by
  rw [parseStringBody] at hr
  split at hr
  · obtain ⟨⟨c, parser1⟩, hg, hr⟩ := bind_eq_pure.mp hr
    obtain ⟨rest, rfl, h1⟩ := getUint8_inv h hg
    dsimp only at hr
    split at hr
    · rename_i hq
      cases hr
      exact .inr (.inl ⟨rest, parser1, rfl, by rw [hq], h1⟩)
    · rename_i hq
      split at hr
      · rename_i hs
        obtain ⟨⟨e, p2⟩, hg2, hr⟩ := bind_eq_pure.mp hr
        obtain ⟨rest, rfl, h2⟩ := getUint8_inv h1 hg2
        obtain ⟨d, hun, hr⟩ := bind_eq_pure.mp hr
        obtain ⟨c', hp, hr⟩ := bind_eq_pure.mp hr
        obtain ⟨c1, hp1, hc1⟩ := putUint8_composes d hc
        cases hp1.symm.trans hp
        cases hr
        exact .inl ⟨d, [reverseSolidus, e], rest, _, _, rfl, .escaped hun, by rw [hs]; rfl, hc1, h2⟩
      · rename_i hs
        split at hr
        · cases hr
          exact .inr (.inr ⟨_, rfl⟩)
        · rename_i hct
          obtain ⟨c', hp, hr⟩ := bind_eq_pure.mp hr
          obtain ⟨c1, hp1, hc1⟩ := putUint8_composes c hc
          cases hp1.symm.trans hp
          cases hr
          exact .inl ⟨c, [c], rest, _, _, rfl, .plain hq hs hct, rfl, hc1, h1⟩
  · cases hr
    exact .inr (.inr ⟨_, rfl⟩)

theorem parseString_inv {string} (h : Within ps text)
    (hr : parcJSONParserParseString size ps = pure (some string, ps')) :
    ∃ body rest, text = quotationMark :: body ∧ Spells string.remainingBytes body rest ∧
      string.Valid ∧ Within ps' rest := by
  obtain ⟨⟨c, parser1⟩, hg, hr⟩ := bind_eq_pure.mp hr
  obtain ⟨body, rfl, h1⟩ := getUint8_inv h hg
  dsimp only at hr
  split at hr
  case isFalse => cases hr
  case isTrue hq =>
    subst hq
    -- what the rest of the body spells, put behind what was read, is what the body spells
    let Inv : PARCBufferComposer × PARCJSONParser → Prop := fun s =>
      ∃ out here, Composes s.1 out ∧ Within s.2 here ∧
        ∀ bs rest, Spells bs here rest → Spells (out ++ bs) body rest
    let Post : Option PARCBuffer × PARCJSONParser → Prop := fun r =>
      ∀ string, r.1 = some string → ∃ rest, Spells string.remainingBytes body rest ∧
        string.Valid ∧ Within r.2 rest
    have hpo : Post (some string, ps') := by
      refine loop_invariant Inv Post ?_ ⟨[], body, composes_allocate size _, h1, fun _ _ => id⟩ hr
      rintro ⟨composer, ps⟩ x ⟨out, here, hc, hw, hsp⟩ hst
      rcases parseString_turn hc hw hst with
        ⟨c, piece, rest, c', ps', rfl, hp, rfl, hc', hw'⟩ |
        ⟨rest, ps', rfl, rfl, hw'⟩ | ⟨ps', rfl⟩
      · refine ⟨out ++ [c], rest, hc', hw', fun bs rest' hs => ?_⟩
        rw [append_assoc, singleton_append]
        exact hsp _ _ (.piece hp hs)
      · rintro string ⟨⟩
        obtain ⟨hv, hb⟩ := produceBuffer_spec hc
        refine ⟨rest, ?_, hv, hw'⟩
        rw [hb, ← append_nil out]
        exact hsp _ _ .close
      · nofun
    obtain ⟨rest, hsp, hv, hw⟩ := hpo string rfl
    exact ⟨body, rest, rfl, hsp, hv, hw⟩

end

/-! ## Numbers -/

section
variable {q q' : PARCJSONParser} {text rest : List UInt8}

section
variable (h : Within q text)
include h

theorem parseSign_inv {sign} (hr : parseSign q = pure (some sign, q')) :
    (∃ rest, skipped text = minus :: rest ∧ Within q' rest) ∨ Within q' (skipped text) := by
  rw [parseSign] at hr
  split at hr
  · obtain ⟨⟨c, parser1⟩, hn, hr⟩ := bind_eq_pure.mp hr
    obtain ⟨rest, hs, h1⟩ := nextChar_inv h hn
    obtain ⟨n, hn', hat⟩ := nextChar_at h.toAt hs
    cases hn'.symm.trans hn
    dsimp only at hr
    split at hr
    · rename_i hc
      cases hr
      exact .inl ⟨rest, by rw [hs, hc], h1⟩
    · split at hr
      · cases hr
      · rw [advance_back hat, pure_bind] at hr
        cases hr
        rw [hs]
        exact .inr (h.forward hat)
  · rename_i hm
    cases hr
    cases text with
    | nil => exact .inr h
    | cons c text => exact absurd h.toAt.remaining_pos hm

theorem parseWholeNumber_inv {value : Int} (hr : parseWholeNumber q = pure (some value, q')) :
    ∃ rest, Whole text rest ∧ Within q' rest := by
  rcases next_inv h hr with ⟨-, parser1, hr, -⟩ | ⟨c, rest, parser1, hs, hr, h1⟩
  · cases hr
  · dsimp only at hr
    split at hr
    · rename_i hc
      cases hr
      exact ⟨rest, .zero (by rw [hs, hc]), h1.advance⟩
    · rename_i hz
      split at hr
      · rename_i hc
        obtain ⟨v', log10, n, hl, hat⟩ := parseDigits_past (digittoint c) 0 h1.advance.toAt
        rw [hl, pure_bind] at hr
        cases hr
        exact ⟨_, .digits hs hz hc, h1.advance.forward hat⟩
      · cases hr

theorem parseOptionalFraction_inv {value : Int × Int}
    (hr : parseOptionalFraction q = pure (some value, q')) :
    ∃ rest, Within q' rest ∧ (Follows rest → Fraction text rest) := by
  rcases next_inv h hr with ⟨-, parser1, hr, h1⟩ | ⟨c, next, parser1, hs, hr, h1⟩
  · cases hr
    refine ⟨[], h1, fun hf => ?_⟩
    obtain ⟨_, _, hs, -⟩ := hf
    cases hs
  · dsimp only at hr
    split at hr
    · rename_i hc
      rw [parseFractionNumber] at hr
      split at hr
      · obtain ⟨v', log10, n, hl, hat⟩ := parseDigits_past 0 0 h1.advance.toAt
        rw [hl, pure_bind] at hr
        cases hr
        exact ⟨_, h1.advance.forward hat, .digits (by rw [hs, hc])⟩
      · cases hr
    · rw [advance_back h1.toAt] at hr
      split at hr
      · cases hr
        refine ⟨c :: next, h1, fun hf => ?_⟩
        obtain ⟨d, rest, hs', hd⟩ := hf
        rw [← hs]
        exact .none ⟨d, rest, by rw [← hs', ← hs, skipped_skipped], hd⟩
      · cases hr

theorem parseDigits09_inv {value : Int}
    (hr : parseDigits09 q = pure (some value, q')) : Within q' [] := by
  refine loop_invariant (fun s => ∃ here, Within s.2.2 here) (fun r => Within r.2 []) ?_
    ⟨text, h⟩ hr
  rintro ⟨value, result, q⟩ x ⟨here, hw⟩ hs
  rcases next_inv hw hs with ⟨-, parser1, hs, h1⟩ | ⟨c, rest, parser1, -, hs, h1⟩
  · cases hs
    exact h1
  · cases hs
    exact ⟨rest, h1.advance⟩

theorem parseExponentNumber_inv {value : Int}
    (hr : parseExponentNumber q = pure (some value, q')) : Within q' [] := by
  rcases next_inv h hr with ⟨-, parser1, hr, -⟩ | ⟨c, rest, parser1, -, hr, h1⟩
  · cases hr
  · dsimp only at hr
    split at hr
    · obtain ⟨⟨ds, p2⟩, hd, hr⟩ := bind_eq_pure.mp hr
      cases ds with
      | none => cases hr
      | some ds =>
        cases hr
        exact parseDigits09_inv h1.advance hd
    · split at hr
      · exact parseDigits09_inv h1.advance hr
      · split at hr
        · rw [advance_back h1.toAt, pure_bind] at hr
          exact parseDigits09_inv h1 hr
        · cases hr

theorem parseOptionalExponent_inv {value : Int}
    (hr : parseOptionalExponent q = pure (some value, q')) :
    Within q' [] ∨ (Follows text ∧ Within q' (skipped text)) := by
  rcases next_inv h hr with ⟨-, parser1, hr, h1⟩ | ⟨c, rest, parser1, hs, hr, h1⟩
  · cases hr
    exact .inl h1
  · dsimp only at hr
    split at hr
    · exact .inl (parseExponentNumber_inv h1.advance hr)
    · rw [advance_back h1.toAt] at hr
      split at hr
      · rename_i hc
        cases hr
        exact .inr ⟨⟨c, rest, hs, hc⟩, hs ▸ h1⟩
      · cases hr

end

theorem of_ifParsed {α β : Type} {scanned}
    {next : α → PARCJSONParser → Prog (Parsed β)} {b}
    (h : ifParsed scanned next = pure (some b, q')) :
    ∃ a q, scanned = pure (some a, q) ∧ next a q = pure (some b, q') := by
  obtain ⟨⟨r, q⟩, hs, hn⟩ := bind_eq_pure.mp h
  cases r with
  | none => cases hn
  | some a => exact ⟨a, q, hs, hn⟩

theorem numberParser_inv {value} (h : Within q text)
    (hr : parcJSONValueNumberParser q = pure (some value, q')) :
    (∃ num, value = .number num) ∧ skipped text ≠ [] ∧
      (Within q' [] ∨ ∃ rest, NumberText text rest ∧ Within q' rest) := by
  obtain ⟨sign, parser1, hsi, hr⟩ := of_ifParsed hr
  obtain ⟨whole, p2, hwh, hr⟩ := of_ifParsed hr
  obtain ⟨⟨f, log10⟩, parser3, hfr, hr⟩ := of_ifParsed hr
  obtain ⟨exponent, p4, hexponent, hr⟩ := of_ifParsed hr
  cases hr
  obtain ⟨signed, h1, hsg⟩ : ∃ signed, Within parser1 signed ∧ ∀ next, Whole signed next →
      skipped text ≠ [] ∧ ∀ rest, Fraction next rest → NumberText text rest := by
    rcases parseSign_inv h hsi with ⟨rest, hs, h1⟩ | h1
    · exact ⟨rest, h1, fun _ hw => ⟨by rw [hs]; exact cons_ne_nil _ _,
        fun _ hf => .negative hs hw hf⟩⟩
    · refine ⟨_, h1, fun _ hw => ?_⟩
      have hw' := whole_skipped.mp hw
      obtain ⟨c, tail, hs, -⟩ := hw'.head
      exact ⟨by rw [hs]; exact cons_ne_nil _ _, fun _ hf => .unsigned hw' hf⟩
  obtain ⟨next, hw, h2⟩ := parseWholeNumber_inv h1 hwh
  obtain ⟨hne, hn⟩ := hsg next hw
  refine ⟨⟨_, rfl⟩, hne, ?_⟩
  obtain ⟨rest, h3, hf⟩ := parseOptionalFraction_inv h2 hfr
  rcases parseOptionalExponent_inv h3 hexponent with h4 | ⟨hfo, h4⟩
  · exact .inl h4
  · have hfr := hf hfo
    rw [hfr.skipped_eq] at h4
    exact .inr ⟨rest, hn rest hfr, h4⟩

end

/-! ## Values -/

/-- Where the parser of the symbol returns a value, the value is valid, and the
symbol derives what was read; what a loop had collected stays in front. A number
may also have been read to the end. -/
def Sound (lineSize : Nat) : Symbol → List UInt8 → Prop
  | .value, text => ∀ ⦃parser parser' : PARCJSONParser⦄ ⦃c : UInt8⦄ ⦃value : PARCJSONValue⦄,
      Within parser text → skipped text = text → (∀ d tail, text = d :: tail → d = c) →
      valueParserAt lineSize c parser = pure (some value, parser') →
      Everywhere validBuffers value ∧ text ≠ [] ∧
        (Within parser' [] ∨ ∃ rest, Derives .value text rest ∧ Within parser' rest)
  | .elements, text => ∀ ⦃parser parser' : PARCJSONParser⦄ ⦃array : PARCJSONArray⦄
      ⦃value : PARCJSONValue⦄, Within parser text → EveryElement validBuffers array →
      arrayLoop lineSize array parser = pure (some value, parser') →
      Everywhere validBuffers value ∧ (∃ more, value = .array (array ++ more)) ∧
        ∃ rest, Derives .elements text rest ∧ Within parser' rest
  | .members, text => ∀ ⦃parser parser' : PARCJSONParser⦄ ⦃json : PARCJSON⦄
      ⦃value : PARCJSONValue⦄, Within parser text → EveryMember validBuffers json →
      objectLoop lineSize json parser = pure (some value, parser') →
      Everywhere validBuffers value ∧ (∃ more, value = .object (json ++ more)) ∧
        ∃ rest, Derives .members text rest ∧ Within parser' rest

theorem everyElement_append {p value} (hv : Everywhere p value) :
    ∀ {a}, EveryElement p a → EveryElement p (a ++ [value])
  | [], _ => ⟨hv, trivial⟩
  | _ :: _, h => ⟨h.1, everyElement_append hv h.2⟩

theorem everyMember_append {p name value} (hn : p.name name) (hv : Everywhere p value) :
    ∀ {json}, EveryMember p json → EveryMember p (json ++ [(name, value)])
  | [], _ => ⟨hn, hv, trivial⟩
  | _ :: _, h => ⟨h.1, h.2.1, everyMember_append hn hv h.2.2⟩

section
variable {parser p1 parser' : PARCJSONParser} {text : List UInt8} {c : UInt8} {sz : Nat}

theorem peek_nextChar_inv {α : Type} {next} {a : α}
    (h : Within parser text) (hp : parcJSONParserPeekNextChar parser = pure (c, p1))
    (hr : (parcJSONParserNextChar p1 >>= next) = pure a) :
    ∃ d rest p2, skipped text = c :: rest ∧ Within p2 rest ∧ next (d, p2) = pure a := by
  obtain ⟨⟨d, p2⟩, hn, hr⟩ := bind_eq_pure.mp hr
  obtain ⟨h1, hc⟩ := peekNextChar_inv h hp
  obtain ⟨rest, hs, h2⟩ := nextChar_inv h1 hn
  rw [skipped_skipped] at hs
  exact ⟨d, rest, p2, by rw [hs, hc d rest hs], h2, hr⟩

theorem arrayLoop_of_end (h : At parser []) (a : PARCJSONArray) :
    arrayLoop sz a parser = pure (none, parser) := by
  rw [arrayLoop, h.remaining_nil]
  rfl

theorem objectLoop_of_end (h : At parser []) (json : PARCJSON) :
    objectLoop sz json parser = pure (none, parser) := by
  rw [objectLoop, h.remaining_nil]
  rfl

variable {v : PARCJSONValue}

theorem opening_inv {bracket}
    {loop : PARCJSONParser → Prog (Parsed PARCJSONValue)} (h : Within parser text)
    (hr : (do
      let (c, parser) ← parcJSONParserNextChar parser
      if c = bracket then loop parser else pure (none, parser)) = pure (some v, parser')) :
    ∃ tail p1, skipped text = bracket :: tail ∧ Within p1 tail ∧
      loop p1 = pure (some v, parser') := by
  obtain ⟨⟨d, p1⟩, hn, hl⟩ := bind_eq_pure.mp hr
  obtain ⟨tail, hs, h1⟩ := nextChar_inv h hn
  dsimp only at hl
  split_ifs at hl with hd
  · exact ⟨tail, p1, hd ▸ hs, h1, hl⟩
  · cases hl

theorem objectParser_inv (hm : ∀ tail, skipped text = beginObject :: tail → Sound sz .members tail)
    (h : Within parser text) (hr : parcJSONValueObjectParser sz parser = pure (some v, parser')) :
    Everywhere validBuffers v ∧ ∃ tail rest, skipped text = beginObject :: tail ∧
      Derives .members tail rest ∧ Within parser' rest := by
  rw [parcJSONValueObjectParser] at hr
  obtain ⟨tail, p1, hs, h1, hr⟩ := opening_inv h hr
  obtain ⟨hv, -, rest, hd, h'⟩ := hm tail hs h1 (show EveryMember validBuffers [] from trivial) hr
  exact ⟨hv, tail, rest, hs, hd, h'⟩

theorem sound_value (ih : ∀ sym t, t.length < text.length → Sound sz sym t) :
    Sound sz .value text := by
  intro parser parser' c v h hs hc hr
  rw [valueParserAt] at hr
  split_ifs at hr with h1 h2 h3 h4 h5 h6
  · obtain ⟨rest, rfl, h', rfl⟩ := literalParser_inv h hr
    exact ⟨trivial, cons_ne_nil _ _, .inr ⟨rest, .literal (by decide), h'⟩⟩
  · obtain ⟨rest, rfl, h', rfl⟩ := literalParser_inv h hr
    exact ⟨trivial, cons_ne_nil _ _, .inr ⟨rest, .literal (by decide), h'⟩⟩
  · obtain ⟨rest, rfl, h', rfl⟩ := literalParser_inv h hr
    exact ⟨trivial, cons_ne_nil _ _, .inr ⟨rest, .literal (by decide), h'⟩⟩
  · obtain ⟨⟨string, p1⟩, hp, hr⟩ := bind_eq_pure.mp hr
    cases string with
    | none => cases hr
    | some string =>
      cases hr
      obtain ⟨body, rest, rfl, hsp, hv, h'⟩ := parseString_inv sz h hp
      exact ⟨hv, cons_ne_nil _ _, .inr ⟨rest, .string ⟨_, body, rfl, hsp⟩, h'⟩⟩
  · obtain ⟨hv, tail, rest, hs', hd, h'⟩ := objectParser_inv
      (fun tail hs' => ih .members tail (length_lt_of_skipped hs')) h hr
    obtain rfl := hs.symm.trans hs'
    exact ⟨hv, cons_ne_nil _ _, .inr ⟨rest, .object hd, h'⟩⟩
  · rw [parcJSONValueArrayParser] at hr
    obtain ⟨tail, p1, hs', h1, hr⟩ := opening_inv h hr
    obtain ⟨hv, -, rest, hd, h'⟩ := ih .elements tail (length_lt_of_skipped hs') h1
      (show EveryElement validBuffers [] from trivial) hr
    obtain rfl := hs.symm.trans hs'
    exact ⟨hv, cons_ne_nil _ _, .inr ⟨rest, .array hd, h'⟩⟩
  · obtain ⟨⟨num, rfl⟩, hne, hre⟩ := numberParser_inv h hr
    rw [hs] at hne
    refine ⟨trivial, hne, hre.imp_right ?_⟩
    rintro ⟨rest, hn, h'⟩
    exact ⟨rest, .number hs hn, h'⟩

theorem sound_elements (hv : Sound sz .value (skipped text))
    (ih : ∀ sym t, t.length < text.length → Sound sz sym t) : Sound sz .elements text := by
  intro parser parser' a v h ha hr
  rw [arrayLoop] at hr
  split_ifs at hr with hm
  · obtain ⟨⟨c, p1⟩, hp, hr⟩ := bind_eq_pure.mp hr
    obtain ⟨h1, hc⟩ := peekNextChar_inv h hp
    dsimp only at hr
    split_ifs at hr with hse he
    · obtain ⟨d, next, p2, hs, h2, hr⟩ := peek_nextChar_inv h hp hr
      obtain ⟨hva, hm, rest, hd, h'⟩ := ih .elements next (length_lt_of_skipped hs) h2 ha hr
      exact ⟨hva, hm, rest, .elementsSeparator (hse ▸ hs) hd, h'⟩
    · obtain ⟨d, rest, p2, hs, h2, hr⟩ := peek_nextChar_inv h hp hr
      cases hr
      exact ⟨ha, ⟨[], by rw [append_nil]⟩, rest, .elementsEnd (he ▸ hs), h2⟩
    · obtain ⟨⟨e, p2⟩, hel, hr⟩ := bind_eq_pure.mp hr
      cases e with
      | none => cases hr
      | some e =>
        obtain ⟨hva, -, hre⟩ := hv h1 skipped_skipped hc hel
        rcases hre with h2 | ⟨next, hd, h2⟩
        · cases (arrayLoop_of_end h2.toAt _).symm.trans hr
        · have hlt := hd.length_lt.trans_le length_skipped_le
          obtain ⟨hv', ⟨more, rfl⟩, rest, hd', h'⟩ := ih .elements next hlt h2
            (everyElement_append hva ha) hr
          exact ⟨hv', ⟨e :: more, by rw [append_assoc, singleton_append]⟩,
            rest, .element hd hd', h'⟩
  · cases hr

theorem valueParser_inv (hv : Sound sz .value (skipped text)) (h : Within parser text)
    (hr : parcJSONValueParser sz parser = pure (some v, parser')) :
    Everywhere validBuffers v ∧
      (Within parser' [] ∨ ∃ rest, Derives .value (skipped text) rest ∧ Within parser' rest) := by
  rw [parcJSONValueParser] at hr
  obtain ⟨⟨c, p1⟩, hp, hr⟩ := bind_eq_pure.mp hr
  obtain ⟨h1, hc⟩ := peekNextChar_inv h hp
  dsimp only at hr
  split_ifs at hr
  · cases hr
  · obtain ⟨hva, -, hre⟩ := hv h1 skipped_skipped hc hr
    exact ⟨hva, hre⟩

theorem pairParser_parts {pair} (hr : parcJSONPairParser sz parser = pure (some pair, parser')) :
    ∃ p1 p2, parcJSONParserParseString sz parser = pure (some pair.1, p1) ∧
      parcJSONParserNextChar p1 = pure (nameSeparator, p2) ∧
      parcJSONValueParser sz p2 = pure (some pair.2, parser') := by
  rw [parcJSONPairParser] at hr
  obtain ⟨⟨name, p1⟩, hn, hr⟩ := bind_eq_pure.mp hr
  obtain ⟨⟨c, p2⟩, hco, hr⟩ := bind_eq_pure.mp hr
  dsimp only at hr
  split_ifs at hr with hc
  · obtain ⟨⟨v, p3⟩, hv, hr⟩ := bind_eq_pure.mp hr
    obtain ⟨name', hd, hr⟩ := bind_eq_pure.mp hr
    cases name with
    | none => exact absurd hd throw_ne_pure
    | some name =>
      cases hd
      cases v with
      | none => cases hr
      | some v =>
        cases hr
        exact ⟨p1, p2, hn, hc ▸ hco, hv⟩
  · obtain ⟨_, -, hr⟩ := bind_eq_pure.mp hr
    cases hr

variable (ih : ∀ sym t, t.length < text.length → Sound sz sym t)
include ih

theorem pairParser_inv {pair} (h : Within parser text)
    (hr : parcJSONPairParser sz parser = pure (some pair, parser')) :
    (pair.1.Valid ∧ Everywhere validBuffers pair.2) ∧
      (Within parser' [] ∨ ∃ named v rest, StringText text named ∧
        skipped named = nameSeparator :: v ∧ Derives .value (skipped v) rest ∧
        Within parser' rest) := by
  obtain ⟨p1, p2, hn, hc, hva⟩ := pairParser_parts hr
  obtain ⟨body, named, ht, hsp, hvl, h1⟩ := parseString_inv sz h hn
  have hst : StringText text named := ⟨_, body, ht, hsp⟩
  obtain ⟨tail, hs, h2⟩ := nextChar_inv h1 hc
  have hlt := (length_lt_of_skipped hs).trans hst.length_lt
  obtain ⟨hv, hre⟩ := valueParser_inv (ih .value _ (length_skipped_le.trans_lt hlt)) h2 hva
  refine ⟨⟨hvl, hv⟩, hre.imp_right ?_⟩
  rintro ⟨rest, hd, h'⟩
  exact ⟨named, tail, rest, hst, hs, hd, h'⟩

theorem sound_members : Sound sz .members text := by
  intro parser parser' json v h hj hr
  rw [objectLoop] at hr
  split_ifs at hr with hm
  · obtain ⟨⟨c, p1⟩, hp, hr⟩ := bind_eq_pure.mp hr
    obtain ⟨h1, -⟩ := peekNextChar_inv h hp
    dsimp only at hr
    split_ifs at hr with he hse hna
    · obtain ⟨d, rest, p2, hs, h2, hr⟩ := peek_nextChar_inv h hp hr
      cases hr
      exact ⟨hj, ⟨[], by rw [append_nil]⟩, rest, .membersEnd (he ▸ hs), h2⟩
    · obtain ⟨d, next, p2, hs, h2, hr⟩ := peek_nextChar_inv h hp hr
      obtain ⟨hva, hm, rest, hd, h'⟩ := ih .members next (length_lt_of_skipped hs) h2 hj hr
      exact ⟨hva, hm, rest, .membersSeparator (hse ▸ hs) hd, h'⟩
    · obtain ⟨⟨pair, p2⟩, hpa, hr⟩ := bind_eq_pure.mp hr
      cases pair with
      | none => cases hr
      | some pair =>
        obtain ⟨⟨hn, hv⟩, hre⟩ := pairParser_inv
          (fun sym t ht => ih sym t (ht.trans_le length_skipped_le)) h1 hpa
        rcases hre with h2 | ⟨named, tail, next, hst, hs, hd, h2⟩
        · cases (objectLoop_of_end h2.toAt _).symm.trans hr
        · have hlt : next.length < text.length :=
            calc next.length < _ := hd.length_lt.trans_le length_skipped_le
              _ < _ := length_lt_of_skipped hs
              _ < _ := hst.length_lt.trans_le length_skipped_le
          obtain ⟨hva, ⟨more, rfl⟩, rest, hd', h'⟩ := ih .members next hlt h2
            (everyMember_append hn hv hj) hr
          exact ⟨hva, ⟨pair :: more, by rw [append_assoc, singleton_append]⟩,
            rest, .member hst hs hd hd', h'⟩
    · cases hr
  · cases hr

end

/-- **What is parsed is derived by the grammar**, by induction on the length of
the text. -/
theorem sound (lineSize : Nat) (sym : Symbol) (text : List UInt8) : Sound lineSize sym text := by
  induction hl : text.length using Nat.strongRecOn generalizing sym text with
  | ind length ih =>
    subst hl
    have ih' : ∀ sym t, t.length < text.length → Sound lineSize sym t :=
      fun sym t ht => ih t.length ht sym t rfl
    cases sym with
    | value => exact sound_value ih'
    | elements =>
      exact sound_elements
        (sound_value fun sym t ht => ih' sym t (ht.trans_le length_skipped_le)) ih'
    | members => exact sound_members ih'

/-! ## The whole text -/

/-- The texts that `parcJSON_ParseBuffer` comes back from: they begin with no
object, or with one of the grammar. In front of an empty text it looks at the
byte behind the limit. -/
def Parsable (buffer : PARCBuffer) : Prop :=
  match skipped buffer.remainingBytes with
  | [] => ∃ c, buffer.array[buffer.arrayOffset + buffer.limit]? = some c ∧ c ≠ beginObject
  | c :: text => c = beginObject → ∃ rest, Derives .members text rest

theorem peekNextChar_end {parser text} (h : At parser text) (hs : skipped text = []) :
    ∃ n, At (parser.forward n) [] ∧ parcJSONParserPeekNextChar parser = (do
      let c ← parcByteArrayGetByte parser.buffer.array
        (parser.buffer.arrayOffset + parser.buffer.limit)
      pure (c, parser.forward n)) := by
  obtain ⟨n, hsk, hat⟩ := skipIgnored_at h
  rw [hs] at hat
  have hp : (parser.forward n).buffer.position = parser.buffer.limit := hat.position_eq
  have hl : (parser.forward n).buffer.limit = parser.buffer.limit := rfl
  refine ⟨n, hat, ?_⟩
  rw [parcJSONParserPeekNextChar, hsk, pure_bind, parcBufferPeekByte, parcBufferGetAtIndex,
    trapIfIndexExceedsLimit, trapOutOfBoundsIf_of_not (by omega), pure_bind, effectiveIndex, hp]
  rfl

theorem of_getJSON {value json}
    (h : parcJSONValueGetJSON value = pure json) : value = some (.object json) := by
  cases value with
  | none => exact absurd h throw_ne_pure
  | some value =>
    cases value with
    | object ms => rw [pure_inj.mp h]
    | _ => exact absurd h throw_ne_pure

section
variable {b : PARCBuffer} (lineSize : Nat)

theorem parseBuffer_inv {r} (h : b.Valid)
    (hsi : b.array.length < 2 ^ 64) (hr : parcJSONParseBuffer lineSize b = pure r) :
    Parsable b ∧ ∀ json ∈ r.1, EveryMember validBuffers json := by
  have hat : Within (parcJSONParserCreate b) b.remainingBytes := ⟨at_create h, .inr hsi⟩
  obtain ⟨⟨c, parser⟩, hp, hr⟩ := bind_eq_pure.mp hr
  obtain ⟨h1, hc⟩ := peekNextChar_inv hat hp
  dsimp only at hr
  split_ifs at hr with hb
  · obtain ⟨⟨value, parser'⟩, ho, hr⟩ := bind_eq_pure.mp hr
    obtain ⟨json, hj, hr⟩ := bind_eq_pure.mp hr
    cases hr
    obtain rfl := of_getJSON hj
    obtain ⟨hv, tail, rest, hs, hd, -⟩ := objectParser_inv
      (fun tail _ => sound lineSize .members tail) h1 ho
    rw [skipped_skipped] at hs
    refine ⟨?_, ?_⟩
    · simp only [Parsable, hs]
      exact fun _ => ⟨rest, hd⟩
    · intro json' hm
      cases Option.some.inj (Option.mem_def.mp hm)
      exact hv
  · cases hr
    refine ⟨?_, fun json hm => by cases hm⟩
    cases hs : skipped b.remainingBytes with
    | nil =>
      obtain ⟨n, -, he⟩ := peekNextChar_end hat.toAt hs
      rw [he] at hp
      obtain ⟨c', hg, hpu⟩ := bind_eq_pure.mp hp
      cases hpu
      simp only [Parsable, hs]
      exact ⟨c, getByte_lt hg, hb⟩
    | cons d tail =>
      simp only [Parsable, hs]
      exact fun hd => absurd (hc d tail hs ▸ hd) hb

theorem parseBuffer_of_parsable (h : b.Valid) (hp : Parsable b) :
    ∃ result, parcJSONParseBuffer lineSize b = pure result := by
  have hat := at_create h
  cases hs : skipped b.remainingBytes with
  | nil =>
    simp only [Parsable, hs] at hp
    obtain ⟨c, hg, hc⟩ := hp
    obtain ⟨n, -, hpe⟩ := peekNextChar_end hat hs
    have hb : parcByteArrayGetByte b.array (b.arrayOffset + b.limit) = pure c := by
      rw [parcByteArrayGetByte, hg]
    refine ⟨(none, ((parcJSONParserCreate b).forward n).buffer), ?_⟩
    rw [parcJSONParseBuffer, hpe, show (parcJSONParserCreate b).buffer = b from rfl,
      hb, pure_bind, pure_bind]
    exact if_neg hc
  | cons c tail =>
    simp only [Parsable, hs] at hp
    obtain ⟨n, hpe, h1⟩ := peekNextChar_at hat hs
    by_cases hc : c = beginObject
    · subst hc
      obtain ⟨rest, hd⟩ := hp rfl
      obtain ⟨m, hn, h2⟩ := nextChar_at h1 (skipped_self hs)
      obtain ⟨ms, parser', hl, -⟩ := hd.parses lineSize [] h2.advance
      have ho : parcJSONValueObjectParser lineSize
          ((parcJSONParserCreate b).forward n) = pure (some (.object ms), parser') := by
        rw [parcJSONValueObjectParser, hn, pure_bind]
        exact (if_pos rfl).trans hl
      refine ⟨(some ms, parser'.buffer), ?_⟩
      simp only [parcJSONParseBuffer, hpe, pure_bind, if_true, ho, parcJSONValueGetJSON]
    · refine ⟨(none, ((parcJSONParserCreate b).forward n).buffer), ?_⟩
      rw [parcJSONParseBuffer, hpe, pure_bind]
      exact if_neg hc

end

/-- The buffer on the characters of a C string ends where its array ends. -/
def cString (string : List UInt8) : PARCBuffer :=
  ⟨string.take (strlen string), strlen string, 0, 0, strlen string, none⟩

section
variable (s : List UInt8)

theorem length_take_strlen : (s.take (strlen s)).length = strlen s :=
  length_take_of_le (takeWhile_sublist _).length_le

theorem wrapCString_eq : parcBufferWrapCString s = some (cString s) := by
  rw [parcBufferWrapCString, parcBufferWrap, length_take_strlen, if_neg (Nat.lt_irrefl _), cString]

theorem valid_cString : (cString s).Valid := by
  refine ⟨fun m hm => ?_, Nat.zero_le _, Nat.le_refl _, ?_⟩
  · cases hm
  · rw [cString, length_take_strlen, Nat.zero_add]

theorem remainingBytes_cString : (cString s).remainingBytes = s.take (strlen s) := by
  simp only [PARCBuffer.remainingBytes, cString, Nat.zero_add, take_take, Nat.min_self, drop_zero]

theorem parsable_cString : Parsable (cString s) ↔
    ∃ c text, skipped (s.take (strlen s)) = c :: text ∧
      (c = beginObject → ∃ rest, Derives .members text rest) := by
  have he : (cString s).array[(cString s).arrayOffset + (cString s).limit]? =
      none := getElem?_eq_none (by simp only [cString, length_take_strlen, Nat.zero_add,
        Nat.le_refl])
  rw [Parsable, remainingBytes_cString, he]
  cases skipped (s.take (strlen s)) with
  | nil => simp
  | cons c text => simp

theorem parseString_eq (lineSize : Nat) : parcJSONParseString lineSize s = (do
    let (result, _) ← parcJSONParseBuffer lineSize (cString s)
    pure result) := by
  rw [parcJSONParseString, wrapCString_eq, dereference, pure_bind]

end

theorem parse_returns_iff (lineSize : Nat) :
    (∀ buffer : PARCBuffer, buffer.Valid → buffer.array.length < 2 ^ 64 →
      ((∃ result buffer', parcJSONParseBuffer lineSize buffer = pure (result, buffer') ∧
        ∀ json ∈ result, EveryMember validBuffers json) ↔ Parsable buffer)) ∧
    ∀ string : List UInt8, strlen string < 2 ^ 64 →
      ((∃ result, parcJSONParseString lineSize string = pure result ∧
        ∀ json ∈ result, EveryMember validBuffers json) ↔
      ∃ c text, skipped (string.take (strlen string)) = c :: text ∧
        (c = beginObject → ∃ rest, Derives .members text rest)) := by
  refine ⟨fun buffer hv hs => ⟨?_, fun hp => ?_⟩, fun string hs => ?_⟩
  · rintro ⟨result, buffer', hr, -⟩
    exact (parseBuffer_inv lineSize hv hs hr).1
  · obtain ⟨⟨result, buffer'⟩, hr⟩ := parseBuffer_of_parsable lineSize hv hp
    exact ⟨result, buffer', hr, (parseBuffer_inv lineSize hv hs hr).2⟩
  · have hv := valid_cString string
    have hl : (cString string).array.length < 2 ^ 64 := by
      rw [cString, length_take_strlen]
      exact hs
    rw [← parsable_cString, parseString_eq]
    constructor
    · rintro ⟨result, hr, -⟩
      obtain ⟨_, hpa, -⟩ := bind_eq_pure.mp hr
      exact (parseBuffer_inv lineSize hv hl hpa).1
    · intro hp
      obtain ⟨⟨result, buffer'⟩, hr⟩ := parseBuffer_of_parsable lineSize hv hp
      refine ⟨result, by rw [hr, pure_bind], (parseBuffer_inv lineSize hv hl hr).2⟩

/-- Two brackets, as a buffer and as a string. -/
theorem parse_returns_brackets :
    (∃ result buffer', parcJSONParseBuffer 64 ⟨[beginObject, endObject], 2, 0, 0, 2, none⟩ =
        pure (result, buffer') ∧ ∀ json ∈ result, EveryMember validBuffers json) ∧
      ∃ result, parcJSONParseString 64 [beginObject, endObject, 0] = pure result ∧
        ∀ json ∈ result, EveryMember validBuffers json :=
  ⟨((parse_returns_iff 64).1 _ ⟨by simp, by decide, by decide, by decide⟩ (by decide)).mpr
      fun _ => ⟨[], .membersEnd rfl⟩,
    ((parse_returns_iff 64).2 _ (by decide)).mpr
      ⟨beginObject, [endObject], by decide, fun _ => ⟨[], .membersEnd rfl⟩⟩⟩

/-- A text that ends behind the first bracket: the object parser returns NULL,
which is accessed. -/
theorem parseString_unclosed_faults :
    parcJSONParseString 64 [beginObject, 0] = throw .memoryFault := by
  have hat := at_create (valid_cString [beginObject, 0])
  have hs : skipped (cString [beginObject, 0]).remainingBytes = [beginObject] := rfl
  obtain ⟨parser1, hp, h1⟩ := peekNextChar_spec hat.reads hs
  obtain ⟨p2, hn, h2⟩ := nextChar_spec h1.reads (skipped_self hs)
  have ho : parcJSONValueObjectParser 64 parser1 = pure (none, p2.advance) := by
    rw [parcJSONValueObjectParser, hn, pure_bind]
    exact (if_pos rfl).trans (objectLoop_of_end h2.advance [])
  rw [parseString_eq, parcJSONParseBuffer, hp, pure_bind]
  simp only [if_true, ho, pure_bind, parcJSONValueGetJSON]
  rfl

end Libparc.JSON
