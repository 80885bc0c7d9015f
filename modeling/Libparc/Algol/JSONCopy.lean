import Libparc.Algol.JSONAccepts

/-! # Copies of objects with integers

`parcJSON_Copy` renders an object and parses the text. An integer is created with
sign 1; a negative one is rendered with a minus sign and comes back with sign -1
and a whole part without it, which `parcJSON_Equals` tells apart. A name is
rendered as it is, so one that needs escapes does not come back either. These are
the only differences (`copy_equal_iff`): the copy is followed along the text of
the original, and where it is equal so far the parser stands where the text of
the next value begins. -/
namespace Libparc.JSON
open Buffer BufferComposer Exec List Int

/-! ## The leaves -/

def Printable (c : UInt8) : Prop := 32 ≤ c ∧ c < 127

/-- Strings and names at their start, the strings printable, and 64-bit integers
as `parcJSONValue_CreateFromInteger` makes them. -/
def created : Leaves where
  string string := string.Valid ∧ string.position = 0 ∧ ∀ c ∈ string.remainingBytes, Printable c
  name name := name.Valid ∧ name.position = 0
  number number := ∃ value : Int, -2 ^ 63 ≤ value ∧ value < 2 ^ 63 ∧
    PARCJSONValue.number number = parcJSONValueCreateFromInteger value

/-- What comes back: names without escapes, and integers that are not negative. -/
def copied : Leaves where
  string _ := True
  name name := ∀ c ∈ name.remainingBytes, c ≠ quotationMark ∧ c ≠ reverseSolidus ∧ ¬ iscntrl c
  number number := 0 ≤ number.whole

theorem Printable.not_iscntrl {c} (h : Printable c) : ¬ iscntrl c := by
  rintro (hc | rfl)
  · exact absurd h.1 (UInt8.not_le.mpr hc)
  · exact absurd h.2 (by decide)

theorem plainString_of_created {string} (h : created.string string) : PlainString string :=
  ⟨h.1, h.2.1, fun c hc hct => absurd hct (h.2.2 c hc).not_iscntrl⟩

theorem plainName_of_copied {name} (h : created.name name) (h' : copied.name name) :
    PlainName name := ⟨h.1, h.2, h'⟩

theorem plainNumber_of_copied {number} (h : created.number number)
    (h' : copied.number number) : PlainNumber number := by
  obtain ⟨value, -, hlt, hn⟩ := h
  cases hn
  exact ⟨rfl, .inl rfl, h', hlt, le_refl _, (show (0 : Int) < 2 ^ 63 by decide),
    le_refl _, (show (0 : Int) < 2 ^ 31 by decide), (show (0 : Int) < 10 ^ 0 by decide), rfl⟩

variable {v : PARCJSONValue}

theorem plain_of_copied (h : Everywhere created v) (h' : Everywhere copied v) :
    Everywhere plain v :=
  Everywhere.imp (r := plain) ⟨fun _ hs _ => plainString_of_created hs,
    fun _ hn hn' => plainName_of_copied hn hn', fun _ hm hm' => plainNumber_of_copied hm hm'⟩
    v h h'

/-! ## Names -/

section
variable {bs text rest : List UInt8} {c : UInt8}

theorem Spells.of_cons (h : Spells (c :: bs) text rest) :
    (∃ next, text = c :: next ∧ (c ≠ quotationMark ∧ c ≠ reverseSolidus ∧ ¬ iscntrl c) ∧
      Spells bs next rest) ∨ ∃ e next, text = reverseSolidus :: e :: next ∧ unescape e = pure c ∧
      Spells bs next rest := by
  cases h with
  | piece hp hs =>
    cases hp with
    | plain hq hr hc => exact .inl ⟨_, rfl, ⟨hq, hr, hc⟩, hs⟩
    | escaped he => exact .inr ⟨_, _, rfl, he, hs⟩

theorem unescape_reverseSolidus {e} (h : unescape e = pure reverseSolidus) :
    e = reverseSolidus := by
  simp only [unescape, ite_eq_iff, pure_inj] at h
  rcases h with ⟨-, h⟩ | ⟨-, ⟨-, h⟩ | ⟨-, ⟨-, h⟩ | ⟨-, h⟩⟩⟩
  · exact h
  · exact h
  · exact h
  rcases h with ⟨-, h⟩ | ⟨-, ⟨-, h⟩ | ⟨-, ⟨-, h⟩ | ⟨-, ⟨-, h⟩ | ⟨-, ⟨-, h⟩ | ⟨-, h⟩⟩⟩⟩⟩
  · exact absurd h (by decide)
  · exact absurd h (by decide)
  · exact absurd h (by decide)
  · exact absurd h (by decide)
  · exact absurd h (by decide)
  rcases h with ⟨-, h⟩ | ⟨-, h⟩
  · exact absurd h throw_ne_pure
  · exact h

theorem not_spells_ahead (text : List UInt8) : ∀ (n : Nat) {tail rest},
    ¬ Spells (replicate (n + 1) reverseSolidus ++ text) (text ++ quotationMark :: tail) rest := by
  induction hl : text.length using Nat.strongRecOn generalizing text with
  | ind length ih =>
    intro n tail rest h
    rcases h.of_cons with ⟨next, -, ⟨-, hne, -⟩, -⟩ | ⟨e, next, ht, he, hs⟩
    · exact hne rfl
    · obtain rfl := unescape_reverseSolidus he
      cases text with
      | nil => exact absurd (cons.inj ht).1 (by decide)
      | cons a text =>
        obtain ⟨rfl, hr⟩ := cons.inj ht
        cases text with
        | nil => exact absurd (cons.inj hr).1 (by decide)
        | cons b text =>
          obtain ⟨rfl, rfl⟩ := cons.inj hr
          have hsh : text.length < length := by
            rw [← hl, length_cons, length_cons]
            omega
          refine @ih text.length hsh text rfl (n + 1) tail rest ?_
          rw [replicate_succ', append_assoc, replicate_succ', append_assoc]
          exact hs

theorem plain_of_spells : ∀ {name tail rest}, Spells name (name ++ quotationMark :: tail) rest →
    (∀ c ∈ name, c ≠ quotationMark ∧ c ≠ reverseSolidus ∧ ¬ iscntrl c) ∧ rest = tail
  | [], _, _, .close => ⟨fun _ hd => absurd hd not_mem_nil, rfl⟩
  | c :: name, tail, rest, h => by
    rcases h.of_cons with ⟨next, ht, hc, hs⟩ | ⟨e, next, ht, he, hs⟩
    · obtain ⟨-, rfl⟩ := cons.inj ht
      obtain ⟨hn, hr⟩ := plain_of_spells hs
      exact ⟨forall_mem_cons.mpr ⟨hc, hn⟩, hr⟩
    · obtain ⟨rfl, hta⟩ := cons.inj ht
      obtain rfl := unescape_reverseSolidus he
      cases name with
      | nil => exact absurd (cons.inj hta).1 (by decide)
      | cons b name =>
        obtain ⟨rfl, rfl⟩ := cons.inj hta
        exact absurd hs (not_spells_ahead name 0)

end

/-! ## Integers -/

section
variable {text : List UInt8}

theorem pastDigits_digits (ds : List Nat) (hds : ∀ d ∈ ds, d < 10) :
    pastDigits (ds.map digitByte ++ text) = pastDigits text := by
  induction ds with
  | nil => rfl
  | cons d ds ih =>
    rw [map_cons, cons_append, pastDigits_cons_of (.inr (digitByte_spec ⟨d, hds d (.head _)⟩).1)]
    exact ih fun e he => hds e (.tail _ he)

theorem pastDigits_of_follows (hf : Follows text) : pastDigits text = skipped text := by
  obtain ⟨c, rest, hs, hc⟩ := hf
  rw [pastDigits_of_not_digit hs hc.not_digit, hs]

theorem whole_formatNat {n} (hn : 0 < n) (hf : Follows text) :
    Whole (formatNat n ++ text) (skipped text) := by
  obtain ⟨d, ds, hd, hp⟩ := Decimal.digits_of_pos hn
  have hlt : ∀ e ∈ d :: ds, e < 10 := fun e he => Decimal.digit_lt (hd ▸ he)
  obtain ⟨hdi, -, -, hz, -⟩ := digitByte_spec ⟨d, hlt d (.head _)⟩
  rw [formatNat_eq, hd, map_cons, cons_append, ← pastDigits_of_follows hf,
    ← pastDigits_digits ds fun e he => hlt e (.tail _ he)]
  exact .digits (skipped_digit (hlt d (.head _))) (fun he => Nat.ne_of_gt hp (hz he)) hdi

theorem valueText_integer (cp : Bool) (v : Int) :
    valueText cp (parcJSONValueCreateFromInteger v) = formatInt v := by
  simp [valueText, parcJSONValueCreateFromInteger, numberText, createNumber]

theorem formatInt_of_neg {v} (h : v < 0) : formatInt v = minus :: formatNat v.natAbs := by
  rw [formatInt, formatSign, decide_eq_true h]
  rfl

theorem created_numeric (number : Number) (h : created.number number) : Numeric number := by
  obtain ⟨v, -, -, hn⟩ := h
  cases hn
  have ht : numberText (createNumber 1 v 0 0 0) = formatInt v := valueText_integer true v
  rw [Numeric, ht]
  by_cases hne : v < 0
  · exact ⟨_, _, formatInt_of_neg hne, .inl rfl⟩
  · obtain ⟨n, rfl⟩ := eq_ofNat_of_zero_le (not_lt.mp hne)
    obtain ⟨c, rest, hf, hc⟩ := formatNat_head n
    exact ⟨c, rest, (formatInt_of_nonneg n).trans hf, .inr hc⟩

theorem numberParser_negative {parser v} (hne : v < 0)
    (hf : Follows text) (h : At parser (formatInt v ++ text)) :
    ∃ num parser', parcJSONValueNumberParser parser = pure (some (.number num), parser') ∧
      num.sign = -1 := by
  rw [formatInt_of_neg hne, cons_append] at h
  have hs : skipped (minus :: (formatNat v.natAbs ++ text)) =
      minus :: (formatNat v.natAbs ++ text) := skipped_cons (by decide)
  have hfo : Follows (skipped text) := by
    obtain ⟨c, rest, hs, hc⟩ := hf
    exact ⟨c, rest, skipped_skipped.trans hs, hc⟩
  have hn : NumberText (minus :: (formatNat v.natAbs ++ text)) (skipped (skipped text)) :=
    .negative hs (whole_formatNat (natAbs_pos.mpr (ne_of_lt hne)) hf) (.none hfo)
  obtain ⟨num, parser', hp, hsi, -⟩ := hn.parses h
  exact ⟨num, parser', hp, hsi.mpr ⟨_, hs⟩⟩

end

/-! ## What equality says -/

theorem of_valueEquals_array {x : PARCJSONArray}
    (h : parcJSONValueEquals (.array x) v = pure true) :
    ∃ y, v = .array y ∧ elementsEqual x y = pure true := by
  cases v with
  | array y =>
    rw [parcJSONValueEquals] at h
    split_ifs at h
    · exact ⟨y, rfl, h⟩
    · cases h
  | _ => cases h

theorem of_valueEquals_object {x : PARCJSON} (h : parcJSONValueEquals (.object x) v = pure true) :
    ∃ y, v = .object y ∧ memberListEquals x y = pure true := by
  cases v with
  | object y =>
    rw [parcJSONValueEquals] at h
    split_ifs at h
    · exact ⟨y, rfl, h⟩
    · cases h
  | _ => cases h

theorem of_elementsEqual_cons {v w} {x y : PARCJSONArray}
    (h : elementsEqual (v :: x) (w :: y) = pure true) :
    parcJSONValueEquals v w = pure true ∧ elementsEqual x y = pure true := by
  obtain ⟨equal, he, h⟩ := bind_eq_pure.mp h
  cases equal with
  | false => cases h
  | true => exact ⟨he, h⟩

theorem of_memberListEquals_cons {m n v w} {x y : PARCJSON}
    (h : memberListEquals ((m, v) :: x) ((n, w) :: y) = pure true) :
    parcBufferEquals m n = pure true ∧ parcJSONValueEquals v w = pure true ∧
      memberListEquals x y = pure true := by
  obtain ⟨equal, hn, h⟩ := bind_eq_pure.mp h
  cases equal with
  | false => cases h
  | true =>
    obtain ⟨equal, hv, h⟩ := bind_eq_pure.mp h
    cases equal with
    | false => cases h
    | true => exact ⟨hn, hv, h⟩

theorem equals_of_sign_ne (v : Int) {num} (h : num.sign ≠ 1) :
    parcJSONValueEquals (parcJSONValueCreateFromInteger v) (.number num) = pure false := by
  have hne : ((1 : Int) == num.sign) = false := beq_false_of_ne h.symm
  rw [parcJSONValueCreateFromInteger, parcJSONValueEquals]
  simp only [equalsNumber, createNumber, Bool.false_eq_true, if_false, hne, Bool.false_and]

theorem bytes_of_equals {name name'} (hn : created.name name) (hn' : name'.Valid)
    (h : parcBufferEquals (parcBufferRewind name) name' = pure true) :
    name'.remainingBytes = name.remainingBytes := by
  have hs := (show SameBytes name name from ⟨hn.1, hn.1, rfl⟩).rewind hn.2
  rw [equals_spec hs.valid hn', pure_inj, decide_eq_true_iff] at h
  rw [← h, hs.bytes]

/-! ## Following the copy -/

/-- In front of the text of the value, a parser that reads something equal to
it shows that nothing in it is changed by copying. -/
def Recovers (lineSize : Nat) (value : PARCJSONValue) : Prop :=
  ∀ ⦃parser parser' : PARCJSONParser⦄ ⦃text rest : List UInt8⦄ ⦃c : UInt8⦄
    ⦃value' : PARCJSONValue⦄, valueText true value = c :: rest →
    Within parser (valueText true value ++ text) →
    (∀ number, value = .number number → Follows text) →
    valueParserAt lineSize c parser = pure (some value', parser') →
    parcJSONValueEquals (rewound value) value' = pure true → Everywhere copied value

section
variable {p p' : PARCJSONParser} {text : List UInt8} (sz : Nat)

theorem within_of_copied {v' rest c} (hv : Everywhere created v) (hv' : Everywhere copied v)
    (ht : valueText true v = c :: rest) (h : Within p (valueText true v ++ text))
    (hf : Follows text) (hr : valueParserAt sz c p = pure (some v', p'))
    (hs : ∃ here, Within p' here) : ∃ here, Within p' here ∧ skipped here = skipped text := by
  obtain ⟨v1, p1, hp, -, hre⟩ := parsesBack sz true v (plain_of_copied hv hv') ht h.toAt hf
  cases hr.symm.trans hp
  obtain ⟨here, hat, hsk⟩ := hre
  obtain ⟨_, hw⟩ := hs
  exact ⟨here, ⟨hat, hw.size⟩, hsk⟩

theorem valueParserAt_within {c rest} (h : Within p (c :: rest))
    (hc : ¬ Ignored c) (hr : valueParserAt sz c p = pure (some v, p')) :
    Everywhere validBuffers v ∧ ∃ here, Within p' here := by
  obtain ⟨hv, -, hre⟩ := sound sz .value (c :: rest) h (skipped_cons hc)
    (fun d tail heq => (cons.inj heq).1.symm) hr
  refine ⟨hv, ?_⟩
  rcases hre with h' | ⟨rest', -, h'⟩
  all_goals exact ⟨_, h'⟩

end

mutual

theorem recovers (lineSize : Nat) : ∀ v, Everywhere created v → Recovers lineSize v
  | .boolean _, _ | .string _, _ | .null, _ => fun _ _ _ _ _ _ _ _ _ _ _ => trivial
  | .number number, hv => by
    intro parser parser' text rest c v' ht h hf hr he
    obtain ⟨v, -, -, hn⟩ := id hv
    by_contra hne
    obtain ⟨d, tail, hnu, hd⟩ := created_numeric number hv
    obtain rfl : d = c := (cons.inj (hnu.symm.trans ht)).1
    rw [valueParserAt_number lineSize hd] at hr
    rw [hn] at ht h he
    cases hn
    rw [valueText_integer] at h
    obtain ⟨num', p1, hp, hsi⟩ := numberParser_negative (not_le.mp hne) (hf _ rfl) h.toAt
    cases hr.symm.trans hp
    have hdi := equals_of_sign_ne v (show num'.sign ≠ 1 by
      rw [hsi]; decide)
    cases hdi.symm.trans he
  | .array array, hv => by
    intro parser parser' text rest c v' ht h hf hr he
    obtain rfl : beginArray = c := (cons.inj ht).1
    rw [valueText, aroundText_append] at h
    obtain ⟨y, rfl, heq⟩ := of_valueEquals_array he
    rw [valueParserAt_array, parcJSONValueArrayParser] at hr
    obtain ⟨tail, p1, hs, h1, hr⟩ := opening_inv h hr
    obtain ⟨-, rfl⟩ := cons.inj (hs.symm.trans (skipped_cons (by decide)))
    exact @recoversElements lineSize array hv [] _ _ _ _ _ _ trivial (.inl rfl) h1 rfl hr heq
  | .object members, hv => by
    intro parser parser' text rest c v' ht h hf hr he
    obtain rfl : beginObject = c := (cons.inj ht).1
    rw [valueText, aroundText_append] at h
    obtain ⟨y, rfl, heq⟩ := of_valueEquals_object he
    rw [valueParserAt_object, parcJSONValueObjectParser] at hr
    obtain ⟨tail, p1, hs, h1, hr⟩ := opening_inv h hr
    obtain ⟨-, rfl⟩ := cons.inj (hs.symm.trans (skipped_cons (by decide)))
    exact @recoversMembers lineSize members hv [] _ _ _ _ _ _ trivial (.inl rfl) h1 rfl hr heq

theorem recoversElements (lineSize : Nat) : ∀ (a : PARCJSONArray),
    EveryElement created a → ∀ {before more : PARCJSONArray} {next text here parser parser'},
    EveryElement validBuffers before → (next = [] ∨ next = separator true) → Within parser here →
    skipped here = skipped (elementsText true next a ++ endArray :: text) →
    arrayLoop lineSize before parser = pure (some (.array (before ++ more)), parser') →
    elementsEqual (rewoundElements a) more = pure true → EveryElement copied a
  | [], _, _, _, _, _, _, _, _, _, _, _, _, _, _ => trivial
  | v :: a, hv, before, more, next, text, here, parser, parser', hb, hn, h, hs,
      hr, he => by
    obtain ⟨c, rest, ht, hc, hc1, hc2⟩ := valueText_head true created_numeric hv.1
    have hf : Follows (elementsText true (separator true) a ++ endArray :: text) :=
      follows_elements a
    rw [elementsText, append_assoc, append_assoc] at hs
    obtain ⟨n, here1, hl1, h1, hh⟩ := loop_item (arrayLoop lineSize before)
      (arrayLoop_separator lineSize before) hn ⟨here, h.toAt, hs⟩
    rw [ht, cons_append, skipped_cons hc] at hh
    obtain ⟨m, h2, hl2⟩ := arrayLoop_value lineSize before h1 hh hc1 hc2
    rw [hl1, hl2] at hr
    obtain ⟨v', p3, hva, hr⟩ := of_ifParsed hr
    have hw := (h.forward h1).forward h2
    obtain ⟨hvl, here3, h3⟩ := valueParserAt_within lineSize hw hc hva
    -- what the loop collects stays in front, so the element is the one compared
    obtain ⟨-, ⟨more', hm⟩, -⟩ := sound lineSize .elements here3 h3 (everyElement_append hvl hb) hr
    rw [PARCJSONValue.array.injEq, append_assoc, append_cancel_left_eq] at hm
    subst hm
    obtain ⟨heq, he⟩ := of_elementsEqual_cons he
    rw [← cons_append, ← ht] at hw
    have hco := recovers lineSize v hv.1 ht hw (fun _ _ => hf) hva heq
    obtain ⟨here4, h4, hs4⟩ := within_of_copied lineSize hv.1 hco ht hw hf hva ⟨here3, h3⟩
    rw [← append_assoc] at hr
    exact ⟨hco, recoversElements lineSize a hv.2 (everyElement_append hvl hb)
      (.inr rfl) h4 hs4 hr he⟩

theorem recoversMembers (lineSize : Nat) : ∀ (ms : PARCJSON),
    EveryMember created ms → ∀ {before more : PARCJSON} {next text here parser parser'},
    EveryMember validBuffers before → (next = [] ∨ next = separator true) → Within parser here →
    skipped here = skipped (membersText true next ms ++ endObject :: text) →
    objectLoop lineSize before parser = pure (some (.object (before ++ more)), parser') →
    memberListEquals (rewoundMembers ms) more = pure true → EveryMember copied ms
  | [], _, _, _, _, _, _, _, _, _, _, _, _, _, _ => trivial
  | (name, v) :: ms, hv, before, more, next, text, here, parser, parser', hb, hn,
      h, hsk, hr, he => by
    obtain ⟨c, rest, ht, hc, hc1, hc2⟩ := valueText_head true created_numeric hv.2.1
    have hf : Follows (membersText true (separator true) ms ++ endObject :: text) :=
      follows_members ms
    rw [membersText, append_assoc] at hsk
    obtain ⟨n, here1, hl1, h1, hh⟩ := loop_item (objectLoop lineSize before)
      (objectLoop_separator lineSize before) hn ⟨here, h.toAt, hsk⟩
    obtain ⟨m, h2, hl2⟩ := objectLoop_pair lineSize before h1 (hh.trans (skipped_cons (by decide)))
    rw [hl1, hl2] at hr
    obtain ⟨⟨name', v'⟩, parser3, hp, hr⟩ := of_ifParsed hr
    have hw := (h.forward h1).forward h2
    rw [append_eq, append_assoc, append_assoc, append_assoc, afterName_eq, cons_append] at hw
    obtain ⟨p4, p5, hna, hco, hva⟩ := pairParser_parts hp
    obtain ⟨body, named, hbo, hsp, hvl, h4⟩ := parseString_inv lineSize hw hna
    obtain ⟨-, rfl⟩ := cons.inj hbo
    obtain ⟨⟨-, hv'⟩, hre⟩ := pairParser_inv (fun sym t _ => sound lineSize sym t) hw hp
    obtain ⟨here3, h3⟩ : ∃ here, Within parser3 here := by
      rcases hre with h' | ⟨_, _, rest', -, -, -, h'⟩
      all_goals exact ⟨_, h'⟩
    have hb' := everyMember_append (p := validBuffers) hvl hv' hb
    obtain ⟨-, ⟨more', hm⟩, -⟩ := sound lineSize .members here3 h3 hb' hr
    rw [PARCJSONValue.object.injEq, append_assoc, append_cancel_left_eq] at hm
    subst hm
    obtain ⟨hen, heq, he⟩ := of_memberListEquals_cons he
    rw [bytes_of_equals hv.1 hvl hen] at hsp
    -- the name is read to its end, and the value from its own text
    obtain ⟨hpl, rfl⟩ := plain_of_spells hsp
    obtain ⟨tail, hs, h5⟩ := nextChar_inv h4 hco
    obtain ⟨-, rfl⟩ := cons.inj (hs.symm.trans (skipped_cons (by decide)))
    obtain ⟨k, hpa, h6⟩ := valueParser_at lineSize h5.toAt
      (by rw [ht]; exact skipped_cons hc) hc1 hc2
    rw [hpa] at hva
    have hw' := h5.forward h6
    rw [append_eq, ← cons_append, ← ht] at hw'
    have hcp := recovers lineSize v hv.2.1 ht hw' (fun _ _ => hf) hva heq
    obtain ⟨here4, h7, hs4⟩ := within_of_copied lineSize hv.2.1 hcp ht hw' hf hva ⟨here3, h3⟩
    rw [← append_assoc] at hr
    exact ⟨hpl, hcp, recoversMembers lineSize ms hv.2.2 hb' (.inr rfl) h7 hs4 hr he⟩

end

/-! ## Texts that are the same -/

theorem SameNumber.text_eq {x y} (h : SameNumber x y) (hf : x.fraction = 0) :
    numberText x = numberText y := by
  simp only [numberText, h.exact, h.exact', h.sign, h.whole, ← h.fraction, hf, h.exponent,
    Bool.false_eq_true, if_false, gt_iff_lt, lt_irrefl]

theorem remainingBytes_rewind {b} (h : b.position = 0) :
    (parcBufferRewind b).remainingBytes = b.remainingBytes := by
  simp only [PARCBuffer.remainingBytes, parcBufferRewind, h]

mutual

theorem Agrees.text_eq (cp : Bool) : ∀ {v w}, Agrees v w →
    Everywhere created v → valueText cp (rewound v) = valueText cp w
  | _, _, .boolean _, _ => rfl
  | _, _, .string h, hv => by
    rw [rewound, valueText, valueText, remainingBytes_rewind hv.2.1, h.bytes]
  | _, _, .number h, ⟨_, _, _, hn⟩ => by
    cases hn
    exact h.text_eq rfl
  | _, _, .array h, hv => by rw [rewound, valueText, valueText, AgreeElements.text_eq cp [] h hv]
  | _, _, .object h, hv => by rw [rewound, valueText, valueText, AgreeMembers.text_eq cp [] h hv]
  | _, _, .null, _ => rfl

theorem AgreeElements.text_eq (cp : Bool) : ∀ (next : List UInt8) {x y}, AgreeElements x y →
    EveryElement created x → elementsText cp next (rewoundElements x) = elementsText cp next y
  | _, _, _, .nil, _ => rfl
  | _, _, _, .cons hv h, hx => by
    rw [rewoundElements, elementsText, elementsText, Agrees.text_eq cp hv hx.1,
      AgreeElements.text_eq cp _ h hx.2]

theorem AgreeMembers.text_eq (cp : Bool) : ∀ (next : List UInt8) {x y}, AgreeMembers x y →
    EveryMember created x → membersText cp next (rewoundMembers x) = membersText cp next y
  | _, _, _, .nil, _ => rfl
  | _, _, _, .cons hn hv h, hx => by
    rw [rewoundMembers, membersText, membersText, remainingBytes_rewind hx.1.2, hn.bytes,
      Agrees.text_eq cp hv hx.2.1, AgreeMembers.text_eq cp _ h hx.2.2]

end

mutual

theorem Agrees.valid : ∀ {v w}, Agrees v w → Everywhere validBuffers v
  | _, _, .boolean _ | _, _, .number _ | _, _, .null => trivial
  | _, _, .string h => h.valid
  | _, _, .array h => AgreeElements.valid h
  | _, _, .object h => AgreeMembers.valid h

theorem AgreeElements.valid : ∀ {x y}, AgreeElements x y → EveryElement validBuffers x
  | _, _, .nil => trivial
  | _, _, .cons hv h => ⟨Agrees.valid hv, AgreeElements.valid h⟩

theorem AgreeMembers.valid : ∀ {x y}, AgreeMembers x y → EveryMember validBuffers x
  | _, _, .nil => trivial
  | _, _, .cons hn hv h => ⟨hn.valid, Agrees.valid hv, AgreeMembers.valid h⟩

end

/-! ## The copy -/

section
variable {json : PARCJSON} (size : Nat)

theorem toCreatedBuffer_spec (cp : Bool) (h : EveryMember validBuffers json) :
    ∃ temp, toCreatedBuffer size json cp = pure (temp, rewoundMembers json) ∧
      temp.Valid ∧ temp.remainingBytes = jsonText cp json ∧
      temp.limit = (jsonText cp json).length := by
  obtain ⟨k, hb, hc⟩ := buildStringAround_spec beginObject endObject
    (buildStringMembers_spec cp [] json h)
    (composes_allocate size (parcMemoryRoundUpToCacheLine size size))
  obtain ⟨hv, hby⟩ := produceBuffer_spec hc
  refine ⟨_, ?_, hv, hby, ?_⟩
  · have hb' : parcJSONBuildString json (parcBufferComposerCreate size) cp =
        pure (k, rewoundMembers json) := hb
    rw [toCreatedBuffer, hb', pure_bind]
  · have hl := length_written hc.valid
    rw [hc.written] at hl
    exact hl.symm

theorem hashCode_eq (h : EveryMember validBuffers json) :
    parcJSONHashCode size json = pure (hashOfBytes (jsonText true json), rewoundMembers json) := by
  obtain ⟨temp, ht, hv, hb, -⟩ := toCreatedBuffer_spec size true h
  rw [parcJSONHashCode, ht, pure_bind]
  simp only [hashCode_spec hv, hb, pure_bind]

theorem created_validBuffers : created.Implies created validBuffers :=
  ⟨fun _ h _ => h.1, fun _ h _ => h.1, fun _ _ _ => trivial⟩

theorem created_atStart : created.Implies created atStart :=
  ⟨fun _ h _ => h.2.1, fun _ h _ => h.2, fun _ _ _ => trivial⟩

theorem copy_of_text {plainJson} (hj : EveryMember validBuffers json)
    (hp : EveryMember plain plainJson) (ht : jsonText true json = jsonText true plainJson) :
    ∃ copy, parcJSONCopy size json = pure (some copy, rewoundMembers json) ∧
      AgreeMembers plainJson copy := by
  obtain ⟨temp, hte, hv, hb, -⟩ := toCreatedBuffer_spec size true hj
  obtain ⟨copy, b, hpa, ha⟩ := parseBuffer_text size true hp hv (hb.trans ht)
  refine ⟨copy, ?_, ha⟩
  simp only [parcJSONCopy, hte, pure_bind, hpa]

theorem copy_of_copied (hj : EveryMember created json) (hc : EveryMember copied json) :
    ∃ copy, parcJSONCopy size json = pure (some copy, rewoundMembers json) ∧
      AgreeMembers (rewoundMembers json) copy ∧
      jsonText true (rewoundMembers json) = jsonText true copy := by
  obtain ⟨copy, hco, ha⟩ := copy_of_text size (EveryMember.imp created_validBuffers json hj hj)
    (@plain_of_copied (.object json) hj hc) rfl
  refine ⟨copy, hco, ha.rewound (EveryMember.imp created_atStart json hj hj), ?_⟩
  rw [jsonText, jsonText, AgreeMembers.text_eq true [] ha hj]

theorem copied_of_copy {copy o} (hj : EveryMember created json)
    (hsi : (jsonText true json).length + 1 < 2 ^ 64)
    (hco : parcJSONCopy size json = pure (some copy, o))
    (he : parcJSONEquals o copy = pure true) : EveryMember copied json := by
  obtain ⟨temp, ht, hv, hb, hl⟩ := toCreatedBuffer_spec size true
    (EveryMember.imp created_validBuffers json hj hj)
  rw [parcJSONCopy, ht, pure_bind] at hco
  obtain ⟨⟨r, b⟩, hp, hco⟩ := bind_eq_pure.mp hco
  cases hco
  have h : Within (parcJSONParserCreate temp) (jsonText true json) :=
    ⟨hb ▸ at_create hv, .inl (by rw [parcJSONParserCreate, hl]; exact hsi)⟩
  have hs : skipped (jsonText true json) = jsonText true json := skipped_cons (by decide)
  obtain ⟨⟨c, parser⟩, hpe, hp⟩ := bind_eq_pure.mp hp
  obtain ⟨h1, hc⟩ := peekNextChar_inv h hpe
  obtain rfl : beginObject = c := hc _ _ hs
  obtain ⟨⟨v, parser'⟩, ho, hp⟩ := bind_eq_pure.mp ((if_pos rfl).symm.trans hp)
  obtain ⟨_, hg, hp⟩ := bind_eq_pure.mp hp
  cases hp
  obtain rfl := of_getJSON hg
  refine @recovers size (.object json) hj _ _ [] _ _ _ rfl ?_ (fun _ heq => by cases heq)
    ((valueParserAt_object size).trans ho) he
  rw [hs, ← append_nil (jsonText true json)] at h1
  exact h1

end

/-- For an object with integers, the copy is equal to the original and has its
hash code exactly if no integer is negative and no name needs an escape. -/
theorem copy_equal_iff (lineSize : Nat) (json : PARCJSON) (hjson : EveryMember created json)
    (hsize : (jsonText true json).length + 1 < 2 ^ 64) :
    (∃ copy original, parcJSONCopy lineSize json = pure (some copy, original) ∧
      (parcJSONEquals original copy = pure true ∧ parcJSONEquals copy original = pure true) ∧
      ∃ hash original' copy', parcJSONHashCode lineSize original = pure (hash, original') ∧
        parcJSONHashCode lineSize copy = pure (hash, copy')) ↔ EveryMember copied json := by
  constructor
  · rintro ⟨copy, original, hc, ⟨he, -⟩, -⟩
    exact copied_of_copy lineSize hjson hsize hc he
  · intro hco
    obtain ⟨copy, hc, ha, ht⟩ := copy_of_copied lineSize hjson hco
    have hh := hashCode_eq lineSize ha.valid
    have hh' := hashCode_eq lineSize ha.symm.valid
    rw [← ht] at hh'
    exact ⟨copy, _, hc, ⟨(Agrees.object ha).equals, (Agrees.object ha.symm).equals⟩,
      _, _, _, hh, hh'⟩

/-- A name, and one integer. -/
def member (value : Int) : PARCJSON :=
  [(⟨[97], 1, 0, 0, 1, none⟩, parcJSONValueCreateFromInteger value)]

theorem created_member {v} (h : -2 ^ 63 ≤ v) (h' : v < 2 ^ 63) : EveryMember created (member v) :=
  ⟨⟨⟨by simp, by decide, by decide, by decide⟩, rfl⟩, ⟨v, h, h', rfl⟩, trivial⟩

theorem copy_equal_seven :
    ∃ copy original, parcJSONCopy 64 (member 7) = pure (some copy, original) ∧
      (parcJSONEquals original copy = pure true ∧ parcJSONEquals copy original = pure true) ∧
      ∃ hash original' copy', parcJSONHashCode 64 original = pure (hash, original') ∧
        parcJSONHashCode 64 copy = pure (hash, copy') := by
  have ht : membersText true [] (member 7) =
      [quotationMark, 97, quotationMark, nameSeparator] ++ formatInt 7 := by
    rfl
  have hl : (formatInt 7).length ≤ 1 := by
    rw [show formatInt 7 = formatNat 7 from formatInt_of_nonneg 7, formatNat_eq, List.length_map]
    exact Decimal.length_digits_le (by decide) (by decide)
  refine (copy_equal_iff 64 (member 7) (created_member (by decide) (by decide)) ?_).mpr
    ⟨(show ∀ c ∈ [97], c ≠ quotationMark ∧ c ≠ reverseSolidus ∧ ¬ iscntrl c by
        decide +kernel), (show (0 : Int) ≤ 7 by decide), trivial⟩
  rw [jsonText, aroundText, ht]
  simp only [blank, if_true, List.length_cons, List.length_append, List.length_nil]
  omega

/-- The copy of -1 has sign -1 and the whole part 1, the original has sign 1. -/
theorem copy_of_negative_differs :
    ∃ copy original, parcJSONCopy 64 (member (-1)) = pure (some copy, original) ∧
      parcJSONEquals original copy = pure false := by
  have hp : EveryMember plain [(⟨[97], 1, 0, 0, 1, none⟩, .number (createNumber (-1) 1 0 0 0))] :=
    ⟨⟨⟨by simp, by decide, by decide, by decide⟩, rfl, by decide +kernel⟩,
      ⟨rfl, by decide, by decide, by decide, by decide, by decide, by decide, by decide,
        by decide, rfl⟩, trivial⟩
  have hm : EveryMember created (member (-1)) := created_member (by decide) (by decide)
  obtain ⟨copy, hc, ha⟩ := copy_of_text 64
    (EveryMember.imp created_validBuffers (member (-1)) hm hm) hp (by
      rfl)
  cases ha with
  | cons hn hv h =>
    cases hv with
    | number hm =>
      cases h
      refine ⟨_, _, hc, ?_⟩
      have hd := equals_of_sign_ne (-1) (show _ ≠ (1 : Int) by
        rw [← hm.sign]; decide)
      rw [parcJSONEquals, member, rewoundMembers, rewoundMembers, parcJSONValueEquals]
      refine (if_pos rfl).trans ?_
      rw [memberListEquals, (hn.rewind rfl).equals, pure_bind, if_pos rfl]
      exact congrArg (· >>= _) hd

end Libparc.JSON
