import Libparc.Algol.JSONText

/-! # Numbers written and read back

The number parser reads sign, whole part, fraction and exponent one after the
other, and each of these scanners goes one character too far and gives it back;
only the one for the digits of an exponent does not, and takes the rest of the
text for digits. In front of a delimiter the parser reads a number that was
rendered in whole and fraction form (`numberParser_spec`). -/
namespace Libparc.JSON
open Exec Decimal List Int

/-- What may come after a value. -/
def Delimiter (c : UInt8) : Prop := c = valueSeparator ∨ c = endArray ∨ c = endObject

/-- The next token of the text is a delimiter. -/
def Follows (text : List UInt8) : Prop := ∃ c rest, skipped text = c :: rest ∧ Delimiter c

/-- The next token, if there is one, is not a digit. -/
def Stops (text : List UInt8) : Prop := ∀ c rest, skipped text = c :: rest → ¬ isdigit c

/-- The next token, if there is one, is a delimiter. -/
def Ends (text : List UInt8) : Prop := ∀ c rest, skipped text = c :: rest → Delimiter c

/-- A number in whole and fraction form: its digits fit in 64 bits, and those of
the fraction in the length of the fraction, which is an `int` of the parser. -/
structure PlainNumber (number : Number) : Prop where
  exact : number.internalDoubleRepresentation = false
  sign : number.sign = 1 ∨ number.sign = -1
  whole_nonneg : 0 ≤ number.whole
  whole_lt : number.whole < 2 ^ 63
  fraction_nonneg : 0 ≤ number.fraction
  fraction_lt : number.fraction < 2 ^ 63
  fractionLog10_nonneg : 0 ≤ number.fractionLog10
  fractionLog10_lt : number.fractionLog10 < 2 ^ 31
  fraction_fits : number.fraction < 10 ^ number.fractionLog10.toNat
  exponent : number.exponent = 0

def digitByte (d : Nat) : UInt8 := 48 + d.toUInt8

/-- The digits of a fraction behind the period, or nothing. -/
def fractionText (ds : List Nat) : List UInt8 :=
  if ds = [] then [] else period :: ds.map digitByte

theorem int64_of_lt {n : Nat} (h : n < 2 ^ 63) : int64 n = n := by
  apply bmod_eq_of_le <;> omega

theorem int32_of_lt {n : Nat} (h : n < 2 ^ 31) : int32 n = n := by
  apply bmod_eq_of_le <;> omega

variable {p : PARCJSONParser} {text rest : List UInt8} {c : UInt8}

theorem skipped_skipped : skipped (skipped text) = skipped text := by
  induction text with
  | nil => rfl
  | cons d text ih =>
    by_cases hd : Ignored d
    · have hs : skipped (d :: text) = skipped text := by
        rw [skipped, dropWhile_cons, if_pos (by simpa using hd)]
        rfl
      rw [hs, ih]
    · rw [skipped_cons hd, skipped_cons hd]

theorem At.reads_of_skipped (h : At p rest) (hs : skipped text = rest) : Reads p text := by
  subst hs
  exact h.reads.congr skipped_skipped

theorem Delimiter.not_digit (h : Delimiter c) : ¬ isdigit c := by
  rcases h with rfl | rfl | rfl <;> decide

theorem Follows.ends (h : Follows text) : Ends text := by
  obtain ⟨c, rest, hs, hc⟩ := h
  intro c' rest' hs'
  cases hs.symm.trans hs'
  exact hc

theorem Ends.stops (h : Ends text) : Stops text := fun c rest hs => (h c rest hs).not_digit

theorem stops_cons (hi : ¬ Ignored c) (hc : ¬ isdigit c) : Stops (c :: text) := by
  intro d rest hs
  cases hs.symm.trans (skipped_cons hi)
  exact hc

theorem Reads.next (h : Reads p text) :
    (skipped text = [] ∧ ∃ p', parcJSONParserNext p = pure (none, p') ∧ At p' []) ∨
    ∃ c rest p', skipped text = c :: rest ∧
      parcJSONParserNext p = pure (some c, p'.advance) ∧ At p' (c :: rest) := by
  cases hs : skipped text with
  | nil =>
    obtain ⟨here, hat, hsk⟩ := h
    obtain ⟨n, hn, hat'⟩ := next_end hat (hsk.trans hs)
    exact .inl ⟨rfl, _, hn, hat'⟩
  | cons c rest =>
    obtain ⟨p', hn, hat⟩ := next_spec h hs
    exact .inr ⟨c, rest, p', rfl, hn, hat⟩

/-! ## Digits -/

theorem digitByte_spec : ∀ d : Fin 10, isdigit (digitByte d) ∧ ¬ Ignored (digitByte d) ∧
    digittoint (digitByte d) = (d : Nat) ∧ (digitByte d = zero → (d : Nat) = 0) ∧
    digitByte d ≠ minus ∧ digitByte d ≠ plus := by
  decide

theorem skipped_digit {d} (hd : d < 10) : skipped (digitByte d :: text) = digitByte d :: text :=
  skipped_cons (digitByte_spec ⟨d, hd⟩).2.1

theorem int64_digit {v d : Nat} (hd : d < 10) (ds : List Nat) (hv : read (v * 10 + d) ds < 2 ^ 63) :
    int64 ((v : Int) * 10 + digittoint (digitByte d)) = ((v * 10 + d : Nat) : Int) := by
  obtain ⟨-, -, hi, -⟩ := digitByte_spec ⟨d, hd⟩
  rw [← int64_of_lt (Nat.lt_of_le_of_lt (le_read (v * 10 + d) ds) hv)]
  simp only [hi, Nat.cast_add, Nat.cast_mul, Nat.cast_ofNat]

theorem parseDigits_loop (hst : Stops text) (ds : List Nat) :
    ∀ (v log10 : Nat) {p}, (∀ d ∈ ds, d < 10) →
      read v ds < 2 ^ 63 → Reads p (ds.map digitByte ++ text) →
      ∃ p', loop parseDigitsBody ((v : Int), int32 log10, p) =
          pure ((read v ds : Int), int32 (log10 + ds.length : Nat), p') ∧ At p' (skipped text) := by
  induction ds with
  | nil =>
    intro v log10 p _ _ h
    rcases h.next with ⟨hs, p', hn, hat⟩ | ⟨c, rest, p', hs, hn, hat⟩
    · refine ⟨p', loop_done ?_, hs ▸ hat⟩
      simp only [parseDigitsBody, hn, pure_bind]
      rfl
    · refine ⟨p', loop_done ?_, hs ▸ hat⟩
      simp only [parseDigitsBody, hn, pure_bind, if_pos (hst c rest hs), advance_back hat]
      rfl
  | cons d ds ih =>
    intro v log10 p hds hv h
    have hd := hds d (.head _)
    obtain ⟨p1, hn, hat⟩ := next_spec h (skipped_digit hd)
    have hl : int32 (int32 log10 + 1) = int32 ((log10 + 1 : Nat) : Int) := bmod_add_bmod
    obtain ⟨p', hlo, hat'⟩ := ih (v * 10 + d) (log10 + 1)
      (fun e he => hds e (.tail _ he)) hv hat.advance.reads
    refine ⟨p', (loop_next ?_).trans (hlo.trans ?_), hat'⟩
    · simp only [parseDigitsBody, hn, pure_bind, not_not.mpr (digitByte_spec ⟨d, hd⟩).1, if_false,
        int64_digit hd ds hv, hl]
    · rw [read_cons, length_cons, Nat.add_assoc, Nat.add_comm 1]

/-! ## The parts of a number -/

theorem formatNat_eq (n : Nat) : formatNat n = (digits n).map digitByte := rfl

theorem parseWholeNumber_spec {n} (hn : n < 2 ^ 63) (hs : Stops text)
    (h : Reads p (formatNat n ++ text)) :
    ∃ p', parseWholeNumber p = pure (some (n : Int), p') ∧ Reads p' text := by
  rw [formatNat_eq] at h
  cases n with
  | zero =>
    obtain ⟨p1, hnx, hat⟩ := next_spec h (skipped_digit (d := 0) (by decide))
    refine ⟨p1.advance, ?_, hat.advance.reads⟩
    simp only [parseWholeNumber, hnx, pure_bind]
    rfl
  | succ n =>
    obtain ⟨d, ds, hd, hp⟩ := digits_of_pos (Nat.succ_pos n)
    have hlt : ∀ e ∈ d :: ds, e < 10 := fun e he => digit_lt (hd ▸ he)
    have hr := read_digits (n + 1)
    rw [hd, read_cons, Nat.zero_mul, Nat.zero_add] at hr
    rw [hd] at h
    obtain ⟨hdi, -, hi, hz, -⟩ := digitByte_spec ⟨d, hlt d (.head _)⟩
    obtain ⟨p1, hnx, hat⟩ := next_spec h (skipped_digit (hlt d (.head _)))
    obtain ⟨p', hl, hat'⟩ := parseDigits_loop hs ds d 0
      (fun e he => hlt e (.tail _ he)) (by rwa [hr]) hat.advance.reads
    refine ⟨p', ?_, hat'.reads_of_skipped rfl⟩
    have hne : digitByte d ≠ zero := fun he => Nat.ne_of_gt hp (hz he)
    rw [hr] at hl
    have hl' : loop parseDigitsBody (digittoint (digitByte d), 0, p1.advance) =
        pure (((n + 1 : Nat) : Int), int32 (0 + ds.length : Nat), p') := by
      rw [hi]
      exact hl
    simp only [parseWholeNumber, hnx, pure_bind, if_neg hne, if_pos hdi, hl']

theorem parseOptionalFraction_none (he : Ends text) (h : Reads p text) :
    ∃ p', parseOptionalFraction p = pure (some (0, 0), p') ∧ Reads p' text := by
  rcases h.next with ⟨hs, p', hn, hat⟩ | ⟨c, rest, p', hs, hn, hat⟩
  · refine ⟨p', ?_, hat.reads_of_skipped hs⟩
    simp only [parseOptionalFraction, hn, pure_bind]
  · refine ⟨p', ?_, hat.reads_of_skipped hs⟩
    have hc := he c rest hs
    have hne : c ≠ period := by rcases hc with rfl | rfl | rfl <;> decide
    simp only [parseOptionalFraction, hn, pure_bind, if_neg hne, advance_back hat]
    exact if_pos (.inr hc)

theorem parseOptionalFraction_digits {ds} (hne : ds ≠ []) (hds : ∀ d ∈ ds, d < 10)
    (hv : read 0 ds < 2 ^ 63) (hs : Stops text)
    (h : Reads p (period :: (ds.map digitByte ++ text))) :
    ∃ p', parseOptionalFraction p = pure (some ((read 0 ds : Int), int32 ds.length), p') ∧
      Reads p' text := by
  obtain ⟨p1, hn, hat⟩ := next_spec h (skipped_cons (show ¬ Ignored period by decide))
  obtain ⟨p', hl, hat'⟩ := parseDigits_loop hs ds 0 0 hds hv hat.advance.reads
  refine ⟨p', ?_, hat'.reads_of_skipped rfl⟩
  have hm : parcJSONParserRemaining p1.advance > 0 := by
    cases ds with
    | nil => exact absurd rfl hne
    | cons d ds => exact hat.advance.remaining_pos
  rw [Nat.zero_add] at hl
  simp only [parseOptionalFraction, hn, pure_bind, if_true, parseFractionNumber, if_pos hm]
  rw [show loop parseDigitsBody (0, 0, p1.advance) = _ from hl, pure_bind]

theorem parseOptionalFraction_spec {ds} (hds : ∀ d ∈ ds, d < 10) (hv : read 0 ds < 2 ^ 63)
    (he : Ends text) (h : Reads p (fractionText ds ++ text)) :
    ∃ p', parseOptionalFraction p = pure (some ((read 0 ds : Int), int32 ds.length), p') ∧
      Reads p' text := by
  by_cases hn : ds = []
  · subst hn
    exact parseOptionalFraction_none he h
  · rw [fractionText, if_neg hn] at h
    exact parseOptionalFraction_digits hn hds hv he.stops h

theorem stops_fraction {ds} (he : Ends text) : Stops (fractionText ds ++ text) := by
  unfold fractionText
  split
  · exact he.stops
  · exact stops_cons (by decide) (by decide)

theorem parseOptionalExponent_none (he : Ends text) (h : Reads p text) :
    ∃ p', parseOptionalExponent p = pure (some 0, p') ∧ At p' (skipped text) := by
  rcases h.next with ⟨hs, p', hn, hat⟩ | ⟨c, rest, p', hs, hn, hat⟩
  · refine ⟨p', ?_, hs ▸ hat⟩
    simp only [parseOptionalExponent, hn, pure_bind]
  · refine ⟨p', ?_, hs ▸ hat⟩
    have hc := he c rest hs
    have hne : ¬ (c = 'e'.toUInt8 ∨ c = 'E'.toUInt8) := by
      rcases hc with rfl | rfl | rfl <;> decide
    simp only [parseOptionalExponent, hn, pure_bind, if_neg hne, advance_back hat]
    exact if_pos hc

theorem parseSign_minus (h : Reads p (minus :: text)) :
    ∃ p', parseSign p = pure (some (-1), p') ∧ Reads p' text := by
  have hs : skipped (minus :: text) = minus :: text := skipped_cons (by decide)
  obtain ⟨p1, hn, hat⟩ := nextChar_spec h hs
  refine ⟨p1.advance, ?_, hat.advance.reads⟩
  simp only [parseSign, if_pos (h.remaining_pos hs), hn, pure_bind, if_true]

theorem parseSign_digit {d} (hd : d < 10) (h : Reads p (digitByte d :: text)) :
    ∃ p', parseSign p = pure (some 1, p') ∧ Reads p' (digitByte d :: text) := by
  obtain ⟨hdi, -, -, -, hne, -⟩ := digitByte_spec ⟨d, hd⟩
  obtain ⟨p1, hn, hat⟩ := nextChar_spec h (skipped_digit hd)
  refine ⟨p1, ?_, hat.reads⟩
  simp only [parseSign, if_pos (h.remaining_pos (skipped_digit hd)), hn, pure_bind, if_neg hne,
    not_not.mpr hdi, if_false, advance_back hat]

theorem parseSign_spec (negative : Prop) [Decidable negative] (n : Nat)
    (h : Reads p ((if negative then [minus] else []) ++ (formatNat n ++ text))) :
    ∃ p', parseSign p = pure (some (if negative then -1 else 1), p') ∧
      Reads p' (formatNat n ++ text) := by
  by_cases hn : negative
  · rw [if_pos hn] at h ⊢
    exact parseSign_minus h
  · obtain ⟨d, ds, hdi⟩ := digits_eq_cons n
    have hd : d < 10 := digit_lt (hdi ▸ mem_cons_self)
    rw [if_neg hn, formatNat_eq, hdi] at h
    rw [if_neg hn, formatNat_eq, hdi]
    exact parseSign_digit hd h

/-! ## The whole number -/

theorem formatInt_of_nonneg (n : Nat) : formatInt n = formatNat n := by
  simp [formatInt, formatSign]

theorem formatPadded_eq {width n : Nat} :
    formatPadded width n = (replicate (width - (digits n).length) 0 ++ digits n).map digitByte := by
  have hl : (formatInt n).length = (digits n).length := by
    rw [formatInt_of_nonneg, formatNat_eq, length_map]
  rw [formatPadded, if_neg (by omega), hl, map_append, map_replicate]
  simp [formatSign, formatNat_eq, digitByte]

theorem exists_fractionText {fraction log10 : Nat} (hl : log10 < 2 ^ 31)
    (hf : fraction < 10 ^ log10) :
    ∃ ds, (if (fraction : Int) > 0 then ascii "." ++ formatPadded (int32 log10) fraction else []) =
      fractionText ds ∧ (∀ d ∈ ds, d < 10) ∧ read 0 ds = fraction := by
  cases fraction with
  | zero => exact ⟨[], rfl, nofun, rfl⟩
  | succ fraction =>
    refine ⟨replicate (log10 - (digits (fraction + 1)).length) 0 ++ digits (fraction + 1),
      ?_, fun d hd => ?_, by rw [read_zeros, read_digits]⟩
    · obtain ⟨d, more, hdi⟩ := digits_eq_cons (fraction + 1)
      rw [if_pos (by omega), int32_of_lt hl, formatPadded_eq, fractionText, if_neg (by simp [hdi])]
      rfl
    · rcases mem_append.mp hd with hd | hd
      · rw [eq_of_mem_replicate hd]
        decide
      · exact digit_lt hd

/-- **A number is read back** in front of a delimiter. -/
theorem numberParser_spec {num : Number} (hn : PlainNumber num) (hf : Follows text)
    (h : Reads p (numberText num ++ text)) :
    ∃ num' p', parcJSONValueNumberParser p = pure (some (.number num'), p') ∧
      SameNumber num num' ∧ Reads p' text := by
  obtain ⟨hexact, hs, hw0, hw, hf0, hfl, hl0, hl, hfi, hexp⟩ := hn
  obtain ⟨whole, hwh⟩ := eq_ofNat_of_zero_le hw0
  obtain ⟨f, hfr⟩ := eq_ofNat_of_zero_le hf0
  obtain ⟨log10, hl10⟩ := eq_ofNat_of_zero_le hl0
  rw [hwh] at hw
  rw [hfr] at hfl hfi
  rw [hl10] at hl hfi
  obtain ⟨ds, ht, hds, hv⟩ :=
    @exists_fractionText f log10 (by exact_mod_cast hl) (by exact_mod_cast hfi)
  have hnt : numberText num =
      (if num.sign = -1 then [minus] else []) ++ (formatNat whole ++ fractionText ds) := by
    simp only [numberText, hexact, hexp, hwh, hfr, hl10, ht, formatInt_of_nonneg,
      Bool.false_eq_true, if_false, ne_eq, not_true_eq_false, append_nil, append_assoc]
    rfl
  rw [hnt, append_assoc, append_assoc] at h
  obtain ⟨p1, hsi, h1⟩ := parseSign_spec (num.sign = -1) whole h
  obtain ⟨p2, hwp, h2⟩ := parseWholeNumber_spec (by exact_mod_cast hw) (stops_fraction hf.ends) h1
  obtain ⟨p3, hfp, h3⟩ :=
    parseOptionalFraction_spec hds (by rw [hv]; exact_mod_cast hfl) hf.ends h2
  obtain ⟨p4, hep, h4⟩ := parseOptionalExponent_none hf.ends h3
  refine ⟨createNumber (if num.sign = -1 then -1 else 1) whole (read 0 ds) (int32 ds.length) 0, p4,
    ?_, ⟨hexact, rfl, ?_, hwh, ?_, hexp⟩, h4.reads_of_skipped rfl⟩
  · simp only [parcJSONValueNumberParser, ifParsed, hsi, hwp, hfp, hep, pure_bind]
  · rcases hs with hs | hs <;> simp [createNumber, hs]
  · rw [hfr, ← hv]
    rfl

end Libparc.JSON
