import Libparc.Algol.Base64Decoding

/-! # The texts parcBase64_DecodeArray accepts

Without its line feeds and carriage returns an accepted text is a sequence of
quanta, each of four characters of the alphabet or padding (`Quanta`). The
decoder looks at the characters of a quantum one by one: it takes padding in any
of the four places of any quantum, and drops the bits that padding leaves unused
without a look at them. So an accepted text is what the encoder writes for the
decoded bytes only if its padding is where the encoder puts it and those bits are
zero (`Canonical`). -/
namespace Libparc.Base64
open BufferComposer List Option

/-- The text without CR and LF. -/
def stripped (text : List UInt8) : List UInt8 := text.filter fun c => c ≠ 13 ∧ c ≠ 10

/-- The bits of the last character that stand for nothing: two in front of one
padding character, four in front of two. -/
def unusedBits (data : List UInt8) (padding : Nat) : UInt8 :=
  decodeTable.getD (data.getLastD 0).toNat 0 &&&
    (if padding = 1 then 0x03 else if padding = 2 then 0x0F else 0)

/-- Padding is the last one or two characters or none, and the unused bits are
zero. -/
def Canonical (text : List UInt8) : Prop :=
  ∃ data padding, text = data ++ List.replicate padding pad ∧ padding ≤ 2 ∧ pad ∉ data ∧
    unusedBits data padding = 0

/-- A text of RFC 4648. -/
structure WellFormed (text : List UInt8) : Prop where
  length : text.length % 4 = 0
  alphabet : ∀ c ∈ text, Accepted c
  canonical : Canonical text

/-- A text in quanta, with the bytes they stand for. -/
inductive Quanta : List UInt8 → List UInt8 → Prop
  | nil : Quanta [] []
  | cons {quantum bytes text more : List UInt8} : quantum.length = 4 →
      (∀ c ∈ quantum, Accepted c) → decodeQuantum quantum = some bytes → Quanta text more →
      Quanta (quantum ++ text) (bytes ++ more)

/-! ## Accepted texts are in quanta -/

variable {c : UInt8} {bytes text : List UInt8} {q : Nat → UInt8} {pl : Nat}

theorem decodeTable_skip (h : decodeTable.getD c.toNat 0 = skip) : c = 13 ∨ c = 10 := by
  have ha := decodeTable_all
    (P := fun e index => e != skip || (index == 13 || index == 10)) (by decide +kernel) c
  rw [h, bne_self_eq_false, Bool.false_or, Bool.or_eq_true, beq_iff_eq, beq_iff_eq] at ha
  rwa [← UInt8.toNat_inj, ← UInt8.toNat_inj]

theorem stripped_taken (h : Accepted c) (text : List UInt8) :
    stripped (c :: text) = c :: stripped text := by
  have hne : c ≠ 13 ∧ c ≠ 10 := by
    constructor
    all_goals
      rintro rfl
      exact absurd h (by decide +kernel)
  exact filter_cons_of_pos (by simpa using hne)

theorem stripped_skipped (h : decodeTable.getD c.toNat 0 = skip) (text : List UInt8) :
    stripped (c :: text) = stripped text := by
  refine filter_cons_of_neg ?_
  rcases decodeTable_skip h with rfl | rfl <;> simp

theorem fillQuantum_stripped (quantum text : List UInt8) :
    (fillQuantum quantum text).1 ++ stripped (fillQuantum quantum text).2 =
      quantum ++ stripped text := by
  induction text generalizing quantum with
  | nil => rfl
  | cons c text ih =>
    unfold fillQuantum
    split_ifs with hr ht hs
    · rw [ih, stripped_taken ht, append_assoc, singleton_append]
    · rw [ih, stripped_skipped hs]
    · rfl
    · rfl

theorem fillQuantum_accepted {quantum} (text : List UInt8)
    (h : ∀ c ∈ quantum, Accepted c) : ∀ c ∈ (fillQuantum quantum text).1, Accepted c := by
  induction text generalizing quantum with
  | nil => exact h
  | cons c text ih =>
    unfold fillQuantum
    split_ifs with hr ht hs
    · refine ih fun d hd => ?_
      rcases mem_append.mp hd with hd | hd
      · exact h d hd
      · exact mem_singleton.mp hd ▸ ht
    · exact ih h
    · exact h
    · exact h

theorem quanta_of_decoded (text : List UInt8) (h : (decoded text).2 = true) :
    Quanta (stripped text) (decoded text).1 := by
  induction text using text_induction with
  | nil =>
    rw [decoded_nil]
    exact .nil
  | quantum text bytes hne hf hq ih =>
    rw [decoded_quantum hne hf hq] at h ⊢
    have hs := fillQuantum_stripped [] text
    rw [nil_append] at hs
    rw [← hs]
    exact .cons hf (fillQuantum_accepted text (by simp)) hq (ih h)
  | bad text hne hf hq =>
    rw [decoded_bad hne hf hq] at h
    cases h
  | short text hne hsh =>
    rw [decoded_short hne hsh] at h
    cases h

theorem Quanta.length (h : Quanta text bytes) : text.length % 4 = 0 := by
  induction h with
  | nil => rfl
  | cons hl _ _ _ ih =>
    rw [length_append]
    omega

theorem Quanta.alphabet (h : Quanta text bytes) : ∀ c ∈ text, Accepted c := by
  induction h with
  | nil => simp
  | cons _ hq _ _ ih =>
    intro c hc
    rcases mem_append.mp hc with hc | hc
    · exact hq c hc
    · exact ih c hc

/-! ## A quantum that is written as the encoder would -/

/-- The six bits of a character. -/
def value (c : UInt8) : UInt8 := decodeTable.getD c.toNat 0

theorem base64code_value (h : value c < 64) : base64code.getD (value c).toNat 0 = c := by
  have ha := decodeTable_all (P := fun e i => e ≥ 64 || (base64code.getD e.toNat 0).toNat == i)
    (by decide +kernel) c
  rw [Bool.or_eq_true, decide_eq_true_iff, beq_iff_eq, UInt8.toNat_inj] at ha
  exact ha.resolve_left (UInt8.not_le.mpr h)

/-- A character of the alphabet. -/
def Digit (c : UInt8) : Prop := value c < 64 ∧ c ≠ pad

theorem Accepted.digit (h : Accepted c) (hne : c ≠ pad) : Digit c := ⟨h.resolve_right hne, hne⟩

theorem decodeChar_digit (h : Digit c) (st : Decoding) (i : Nat) :
    decodeChar st c i = some (place st i (value c)) := by
  have hv : decodeTable.getD c.toNat 0 ≠ invalid := by
    intro hi
    have hlt := h.1
    rw [value, hi] at hlt
    exact absurd hlt (by decide)
  simp only [decodeChar, if_pos h.2, if_neg hv, value]

/-- The three bytes that `_decode` puts together. -/
def joined (v0 v1 v2 v3 : UInt8) : Nat → UInt8
  | 0 => (0 : UInt8) ||| v0 <<< 2 ||| (v1 &&& 0x30) >>> 4
  | 1 => (0 : UInt8) ||| (v1 &&& 0x0F) <<< 4 ||| v2 >>> 2
  | _ => (0 : UInt8) ||| (v2 &&& 0x03) <<< 6 ||| v3

section Bits
variable {v v0 v1 v2 v3 : UInt8}

theorem and_mask (h : v < 64) : v &&& 0x3F = v := by
  apply UInt8.toNat_inj.mp
  exact Nat.and_two_pow_sub_one_of_lt_two_pow (show v.toNat < 2 ^ 6 from UInt8.lt_iff_toNat_lt.mp h)

theorem sixbit_joined (h0 : v0 < 64) (h1 : v1 < 64) (h2 : v2 < 64) (h3 : v3 < 64) :
    sixbit (joined v0 v1 v2 v3) 0 = v0 ∧ sixbit (joined v0 v1 v2 v3) 1 = v1 ∧
      sixbit (joined v0 v1 v2 v3) 2 = v2 ∧ sixbit (joined v0 v1 v2 v3) 3 = v3 := by
  rw [← and_mask h0, ← and_mask h1, ← and_mask h2, ← and_mask h3]
  refine ⟨?_, ?_, ?_, ?_⟩
  all_goals
    apply UInt8.toBitVec_inj.mp
    ext i hi
    simp [sixbit, joined]
    interval_cases i <;> simp

end Bits

theorem sixbit_congr {p} (h : ∀ i < 3, p i = q i) (index : Nat) :
    sixbit p index = sixbit q index := by
  unfold sixbit
  rw [h 0 (by omega), h 1 (by omega), h 2 (by omega)]

theorem encodedChar_digit {j} (hi : j + pl < 4) (h : Digit c)
    (hb : ∀ i < 3, paddedQuantum bytes pl i = q i) (hs : sixbit q j = value c) :
    encodedChar bytes pl j = c := by
  rw [encodedChar, if_pos hi, sixbit_congr hb, hs, base64code_value h.1]

section Quantum
variable {c0 c₁ c2 c3 : UInt8} (h0 : Digit c0) (h1 : Digit c₁)
include h0 h1

theorem decode_three (h2 : Digit c2) (h3 : Digit c3) :
    ∃ bytes, decodeQuantum [c0, c₁, c2, c3] = some bytes ∧ bytes.length = 3 ∧
      encodedQuantum bytes 0 = [c0, c₁, c2, c3] := by
  let bytes := joined (value c0) (value c₁) (value c2) (value c3)
  have hb : ∀ i < 3, paddedQuantum [bytes 0, bytes 1, bytes 2] 0 i = bytes i := by
    intro i hi
    interval_cases i <;> rfl
  obtain ⟨s0, s1, s2, s3⟩ := sixbit_joined h0.1 h1.1 h2.1 h3.1
  refine ⟨[bytes 0, bytes 1, bytes 2], ?_, rfl, ?_⟩
  · simp only [decodeQuantum_four, decodeChar_digit h0, decodeChar_digit h1, decodeChar_digit h2,
      decodeChar_digit h3, bind_eq_bind, bind_some, place]
    rfl
  · rw [encodedQuantum_eq, encodedChar_digit (by omega) h0 hb s0,
      encodedChar_digit (by omega) h1 hb s1, encodedChar_digit (by omega) h2 hb s2,
      encodedChar_digit (by omega) h3 hb s3]

theorem decode_two (h2 : Digit c2) (hu : value c2 &&& 0x03 = 0) :
    ∃ bytes, decodeQuantum [c0, c₁, c2, pad] = some bytes ∧ bytes.length = 2 ∧
      encodedQuantum bytes 1 = [c0, c₁, c2, pad] := by
  let bytes := joined (value c0) (value c₁) (value c2) 0
  have hb : ∀ i < 3, paddedQuantum [bytes 0, bytes 1] 1 i = bytes i := by
    intro i hi
    interval_cases i
    · rfl
    · rfl
    · simp only [bytes, joined, hu]
      rfl
  obtain ⟨s0, s1, s2, -⟩ := sixbit_joined h0.1 h1.1 h2.1 (show 0 < 64 by decide)
  refine ⟨[bytes 0, bytes 1], ?_, rfl, ?_⟩
  · simp only [decodeQuantum_four, decodeChar_digit h0, decodeChar_digit h1, decodeChar_digit h2,
      decodeChar_pad, bind_eq_bind, bind_some, place]
    rfl
  · rw [encodedQuantum_eq, encodedChar_digit (by omega) h0 hb s0,
      encodedChar_digit (by omega) h1 hb s1, encodedChar_digit (by omega) h2 hb s2,
      encodedChar_of_le (by omega)]

theorem decode_one (hu : value c₁ &&& 0x0F = 0) :
    ∃ bytes, decodeQuantum [c0, c₁, pad, pad] = some bytes ∧ bytes.length = 1 ∧
      encodedQuantum bytes 2 = [c0, c₁, pad, pad] := by
  let bytes := joined (value c0) (value c₁) 0 0
  have hb : ∀ i < 3, paddedQuantum [bytes 0] 2 i = bytes i := by
    intro i hi
    interval_cases i
    · rfl
    · simp only [bytes, joined, hu]
      rfl
    · rfl
  have hz : (0 : UInt8) < 64 := by decide
  obtain ⟨s0, s1, -⟩ := sixbit_joined h0.1 h1.1 hz hz
  refine ⟨[bytes 0], ?_, rfl, ?_⟩
  · simp only [decodeQuantum_four, decodeChar_digit h0, decodeChar_digit h1, decodeChar_pad,
      bind_eq_bind, bind_some, place]
    rfl
  · rw [encodedQuantum_eq, encodedChar_digit (by omega) h0 hb s0,
      encodedChar_digit (by omega) h1 hb s1, encodedChar_of_le (by omega),
      encodedChar_of_le (by omega)]

end Quantum

theorem decode_canonical {data padding} (hp : padding ≤ 2)
    (hl : data.length + padding = 4) (hd : ∀ c ∈ data, Digit c) (hu : unusedBits data padding = 0) :
    ∃ bytes, decodeQuantum (data ++ replicate padding pad) = some bytes ∧
      bytes.length = 3 - padding ∧
      encodedQuantum bytes padding = data ++ replicate padding pad := by
  interval_cases padding
  · obtain ⟨c0, c₁, c2, c3, rfl⟩ := length_eq_four.mp hl
    obtain ⟨h0, h1, h2, h3⟩ : Digit c0 ∧ Digit c₁ ∧ Digit c2 ∧ Digit c3 := by simpa using hd
    exact decode_three h0 h1 h2 h3
  · obtain ⟨c0, c₁, c2, rfl⟩ := length_eq_three.mp (Nat.add_right_cancel hl)
    obtain ⟨h0, h1, h2⟩ : Digit c0 ∧ Digit c₁ ∧ Digit c2 := by simpa using hd
    exact decode_two h0 h1 h2 hu
  · obtain ⟨c0, c₁, rfl⟩ := length_eq_two.mp (Nat.add_right_cancel hl)
    obtain ⟨h0, h1⟩ : Digit c0 ∧ Digit c₁ := by simpa using hd
    exact decode_one h0 h1 hu

/-! ## Canonical texts are the encoder's -/

theorem encodedQuantum_congr {bs'} (h : bytes.take (3 - pl) = bs'.take (3 - pl)) :
    encodedQuantum bytes pl = encodedQuantum bs' pl := by
  have hp : paddedQuantum bytes pl = paddedQuantum bs' pl := by
    funext index
    rw [paddedQuantum, paddedQuantum, h]
  simp only [encodedQuantum_eq, encodedChar, hp]

theorem unusedBits_append (quantum : List UInt8) {data} (hne : data ≠ [])
    (padding : Nat) : unusedBits (quantum ++ data) padding = unusedBits data padding := by
  simp only [unusedBits, getLastD_eq_getLast?, getLast?_append_of_ne_nil quantum hne]

theorem Canonical.tail {quantum} (hne : text ≠ []) (hl : text.length % 4 = 0)
    (h : Canonical (quantum ++ text)) : pad ∉ quantum ∧ Canonical text := by
  obtain ⟨data, padding, ha, hp, hpa, hu⟩ := h
  have hpo := length_pos_iff.mpr hne
  rcases append_eq_append_iff.mp ha with ⟨rest, rfl, ht⟩ | ⟨rest, -, hr⟩
  · have hre : rest ≠ [] := by
      rintro rfl
      rw [ht, nil_append, length_replicate] at hl hpo
      omega
    rw [unusedBits_append quantum hre] at hu
    rw [mem_append, not_or] at hpa
    exact ⟨hpa.1, rest, padding, ht, hp, hpa.2, hu⟩
  · have hle := congrArg length hr
    rw [length_replicate, length_append] at hle
    omega

theorem encoded_nil : encoded [] = [] := by
  rw [encoded, if_pos rfl]

theorem Quanta.of_nil (h : Quanta [] bytes) : bytes = [] := by
  generalize hn : ([] : List UInt8) = text at h
  cases h with
  | nil => rfl
  | cons hl _ _ _ =>
    have hle := congrArg List.length hn
    rw [length_append, length_nil] at hle
    omega

theorem encoded_append (hl : bytes.length = 3) (more : List UInt8) :
    encoded (bytes ++ more) = encodedQuantum bytes 0 ++ encoded more := by
  have hp : bytes ++ more ≠ [] := ne_nil_of_length_pos (by
    rw [length_append]
    omega)
  have hf : 3 - min 3 (bytes ++ more).length = 0 := by
    rw [length_append]
    omega
  have ht : (bytes ++ more).take (3 - 0) = bytes.take (3 - 0) := take_append_of_le_length (by omega)
  rw [encoded_of_ne_nil hp, hf, encodedQuantum_congr ht, ← hl, drop_left]

theorem encoded_last (hne : bytes ≠ []) (hl : bytes.length ≤ 3) :
    encoded bytes = encodedQuantum bytes (3 - bytes.length) := by
  rw [encoded_of_ne_nil hne, drop_of_length_le hl, encoded_nil, append_nil, Nat.min_eq_right hl]

theorem Quanta.encoded_eq (h : Quanta text bytes) (hca : Canonical text) :
    encoded bytes = text := by
  induction h with
  | nil => exact encoded_nil
  | @cons quantum bytes text more hl ha hd hr ih =>
    by_cases hne : text = []
    · subst hne
      rw [hr.of_nil, append_nil, append_nil] at *
      obtain ⟨data, pad, rfl, hp, hpa, hu⟩ := hca
      rw [length_append, length_replicate] at hl
      have hdi : ∀ c ∈ data, Digit c := fun c hc =>
        (ha c (mem_append_left _ hc)).digit fun heq => hpa (heq ▸ hc)
      obtain ⟨bs', hd', hle, he⟩ := decode_canonical hp hl hdi hu
      cases hd.symm.trans hd'
      rw [encoded_last (ne_nil_of_length_pos (by omega)) (by omega), hle,
        show 3 - (3 - pad) = pad by omega, he]
    · obtain ⟨hpa, ht⟩ := hca.tail hne hr.length
      have hdi : ∀ c ∈ quantum, Digit c := fun c hc =>
        (ha c hc).digit fun heq => hpa (heq ▸ hc)
      obtain ⟨bs', hd', hle, he⟩ := decode_canonical (Nat.zero_le 2) hl hdi UInt8.and_zero
      rw [replicate_zero, append_nil] at hd' he
      cases hd.symm.trans hd'
      rw [encoded_append hle, he, ih ht]

/-! ## The encoder's texts are canonical -/

theorem encodedChar_ne_pad {index} (h : index + pl < 4) : pad ≠ encodedChar bytes pl index :=
  (encodedChar_value bytes h).1.symm

theorem sixbit_two_unused (h : q 2 = 0) : sixbit q 2 &&& 0x03 = 0 := by
  rw [sixbit, h]
  apply UInt8.toBitVec_inj.mp
  ext i hi
  interval_cases i <;> simp

theorem sixbit_one_unused (h : q 1 = 0) : sixbit q 1 &&& 0x0F = 0 := by
  rw [sixbit, h]
  apply UInt8.toBitVec_inj.mp
  ext i hi
  interval_cases i <;> simp

theorem paddedQuantum_of_le (bytes : List UInt8) {i} (h : 3 - pl ≤ i) :
    paddedQuantum bytes pl i = 0 :=
  getD_eq_default _ _ (by rw [length_take]; omega)

theorem canonical_encodedQuantum (bytes : List UInt8) (h : pl ≤ 2) :
    Canonical (encodedQuantum bytes pl) := by
  refine ⟨(range (4 - pl)).map (encodedChar bytes pl), pl, ?_, h, ?_, ?_⟩
  · interval_cases pl
    · rfl
    · rfl
    · rfl
  · intro hp
    obtain ⟨i, hi, heq⟩ := mem_map.mp hp
    rw [mem_range] at hi
    exact encodedChar_ne_pad (by omega) heq.symm
  · interval_cases pl
    · exact UInt8.and_zero
    · have hv := (encodedChar_value bytes (show 2 + 1 < 4 by omega)).2
      show decodeTable.getD (encodedChar bytes 1 2).toNat 0 &&& 0x03 = 0
      rw [hv, sixbit_two_unused (paddedQuantum_of_le bytes (Nat.le_refl 2))]
    · have hv := (encodedChar_value bytes (show 1 + 2 < 4 by omega)).2
      show decodeTable.getD (encodedChar bytes 2 1).toNat 0 &&& 0x0F = 0
      rw [hv, sixbit_one_unused (paddedQuantum_of_le bytes (Nat.le_refl 1))]

theorem Canonical.cons {quantum} (hp : pad ∉ quantum) (hl : 2 < text.length)
    (h : Canonical text) : Canonical (quantum ++ text) := by
  obtain ⟨data, padding, rfl, hpa, hd, hu⟩ := h
  have hne : data ≠ [] := by
    rintro rfl
    rw [nil_append, length_replicate] at hl
    omega
  refine ⟨quantum ++ data, padding, (append_assoc ..).symm, hpa, ?_, ?_⟩
  · rw [mem_append, not_or]
    exact ⟨hp, hd⟩
  · rw [unusedBits_append quantum hne, hu]

theorem canonical_encoded (bytes : List UInt8) : Canonical (encoded bytes) := by
  induction bytes using quantum_induction with
  | nil =>
    rw [encoded_nil]
    exact ⟨[], 0, rfl, Nat.zero_le 2, not_mem_nil, UInt8.and_zero⟩
  | quantum bytes hne ih =>
    by_cases hl : bytes.length ≤ 3
    · rw [encoded_last hne hl]
      have := length_pos_iff.mpr hne
      exact canonical_encodedQuantum bytes (by omega)
    · have hq : (bytes.take 3).length = 3 := by
        rw [length_take]
        omega
      have hr : bytes.drop 3 ≠ [] := by
        rw [Ne, drop_eq_nil_iff]
        exact hl
      have hlo : 2 < (encoded (bytes.drop 3)).length := by
        rw [encoded_of_ne_nil hr, length_append, length_encodedQuantum]
        omega
      rw [← take_append_drop 3 bytes, encoded_append hq]
      refine Canonical.cons ?_ hlo ih
      intro hp
      obtain ⟨i, hi, heq⟩ := mem_map.mp hp
      exact encodedChar_ne_pad (mem_range.mp hi) heq.symm

/-- What the encoder appends for the bytes is the text. -/
def Encodes (bytes text : List UInt8) : Prop :=
  ∀ output before, Composes output before →
    ∃ output', parcBase64EncodeArray output bytes = pure output' ∧
      Composes output' (before ++ text)

theorem encodes_iff : Encodes bytes text ↔ encoded bytes = text := by
  constructor
  · intro h
    obtain ⟨output, he, hc⟩ := h _ _ (composes_allocate 64 0)
    obtain ⟨output', he', hc'⟩ := encodeArray_spec bytes (composes_allocate 64 0)
    cases he.symm.trans he'
    exact hc'.written.symm.trans hc.written
  · rintro rfl output before h
    exact encodeArray_spec bytes h

/-- **An accepted text is in quanta of the alphabet and padding; it is well formed
and written again by the encoder exactly if it is canonical.** -/
theorem accepted_wellFormed_iff {composer composer' : PARCBufferComposer}
    {content text : List UInt8} (h : Composes composer content)
    (haccept : parcBase64DecodeArray composer text = pure (composer', true)) :
    ∃ bytes, Composes composer' (content ++ bytes) ∧
      (stripped text).length % 4 = 0 ∧ (∀ c ∈ stripped text, Accepted c) ∧
      (WellFormed (stripped text) ∧ Encodes bytes (stripped text) ↔ Canonical (stripped text)) ∧
      (Encodes bytes (stripped text) ↔ Canonical (stripped text)) := by
  have hok := (accepts_iff h text).mp ⟨composer', haccept⟩
  obtain ⟨c1, ha1, hc⟩ := decodeArray_accepts h hok
  rw [haccept, Exec.pure_inj, Prod.mk.injEq] at ha1
  obtain ⟨rfl, -⟩ := ha1
  have hq := quanta_of_decoded text hok
  have hi : Encodes (decoded text).1 (stripped text) ↔ Canonical (stripped text) := by
    rw [encodes_iff]
    constructor
    · intro he
      exact he ▸ canonical_encoded _
    · exact hq.encoded_eq
  refine ⟨(decoded text).1, hc, hq.length, hq.alphabet, ?_, hi⟩
  rw [hi]
  constructor
  · rintro ⟨-, hca⟩
    exact hca
  · intro hca
    exact ⟨⟨hq.length, hq.alphabet, hca⟩, hca⟩

/-- A quantum of padding, which is accepted and stands for nothing. -/
def allPadding : List UInt8 := [61, 61, 61, 61]

theorem decoded_allPadding : decoded allPadding = ([], true) := by
  have hf : fillQuantum [] allPadding = (allPadding, []) := by decide +kernel
  have hq : decodeQuantum allPadding = some [] := by decide +kernel
  rw [decoded_quantum (by simp [allPadding]) (by rw [hf]; rfl) (by rw [hf]; exact hq),
    hf, decoded_nil]
  rfl

theorem allPadding_accepted :
    (∃ composer', parcBase64DecodeArray (parcBufferComposerAllocate 64 0) allPadding =
      pure (composer', true) ∧ Composes composer' []) ∧
    stripped allPadding = allPadding ∧ ¬ Canonical allPadding ∧ ¬ Encodes [] allPadding := by
  have hok : (decoded allPadding).2 = true := by rw [decoded_allPadding]
  have hs : stripped allPadding = allPadding := rfl
  have hq := quanta_of_decoded allPadding hok
  obtain ⟨composer', ha, hc⟩ := decodeArray_accepts (composes_allocate 64 0) hok
  rw [decoded_allPadding, hs] at hq
  rw [decoded_allPadding] at hc
  have hn : encoded [] ≠ allPadding := by
    rw [encoded_nil]
    exact fun h => List.cons_ne_nil _ _ h.symm
  refine ⟨⟨composer', ha, hc⟩, hs, fun h => hn (hq.encoded_eq h), ?_⟩
  rwa [encodes_iff]

/-- A text with a line feed in its quantum. -/
def brokenLine : List UInt8 := [81, 10, 81, 61, 61]

theorem decoded_brokenLine : decoded brokenLine = ([65], true) := by
  have hf : fillQuantum [] brokenLine = ([81, 81, 61, 61], []) := by decide +kernel
  have hq : decodeQuantum [81, 81, 61, 61] = some [65] := by decide +kernel
  rw [decoded_quantum (by simp [brokenLine]) (by rw [hf]; rfl) (by rw [hf]; exact hq),
    hf, decoded_nil]
  rfl

theorem brokenLine_wellFormed :
    ∃ composer' bytes, parcBase64DecodeArray (parcBufferComposerAllocate 64 0) brokenLine =
        pure (composer', true) ∧ Composes composer' bytes ∧
      WellFormed (stripped brokenLine) ∧ Encodes bytes (stripped brokenLine) := by
  obtain ⟨composer', ha, -⟩ := decodeArray_accepts (composes_allocate 64 0)
    (show (decoded brokenLine).2 = true by rw [decoded_brokenLine])
  obtain ⟨bytes, hc, -, -, hi, -⟩ := accepted_wellFormed_iff (composes_allocate 64 0) ha
  have hca : Canonical (stripped brokenLine) :=
    ⟨[81, 81], 2, rfl, Nat.le_refl 2, by decide, by decide +kernel⟩
  obtain ⟨hwf, he⟩ := hi.mpr hca
  exact ⟨composer', bytes, ha, hc, hwf, he⟩

end Libparc.Base64
