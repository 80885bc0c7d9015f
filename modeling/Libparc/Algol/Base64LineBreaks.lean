import Libparc.Algol.Base64Accepts

/-! # Line breaks in a base64 text

The inner loop of `parcBase64_DecodeArray` skips CR and LF while it fills a
quantum. After the last quantum there is none to fill: a line break there starts
another one, which stays empty, and the text is rejected. -/
namespace Libparc.Base64
open BufferComposer List

/-- The second text is the first with CR and LF inserted. -/
inductive Inserted : List UInt8 → List UInt8 → Prop
  | nil : Inserted [] []
  | keep {text text' : List UInt8} (c : UInt8) : Inserted text text' →
      Inserted (c :: text) (c :: text')
  | insert {text text' : List UInt8} {c : UInt8} : c = 13 ∨ c = 10 → Inserted text text' →
      Inserted text (c :: text')

def EndsInLineBreak (text : List UInt8) : Prop :=
  text.getLast? = some 13 ∨ text.getLast? = some 10

variable {q text text' bytes : List UInt8}

theorem Inserted.stripped_eq (h : Inserted text text') : stripped text' = stripped text := by
  induction h with
  | nil => rfl
  | keep c _ ih =>
    simp only [stripped, filter_cons] at ih ⊢
    rw [ih]
  | insert hc _ ih =>
    rw [← ih]
    exact filter_cons_of_neg (by rcases hc with rfl | rfl <;> simp)

theorem endsInLineBreak_append {rest} (before : List UInt8) (hne : rest ≠ []) :
    EndsInLineBreak (before ++ rest) ↔ EndsInLineBreak rest := by
  rw [EndsInLineBreak, getLast?_append_of_ne_nil before hne, EndsInLineBreak]

theorem fillQuantum_split (text : List UInt8) {q} (hr : q.length < 4)
    (hf : (fillQuantum q text).1.length = 4) :
    ∃ before c, text = before ++ c :: (fillQuantum q text).2 ∧ Accepted c := by
  induction text generalizing q with
  | nil => exact absurd hf (Nat.ne_of_lt hr)
  | cons c text ih =>
    unfold fillQuantum at hf ⊢
    split_ifs at hf ⊢ with ht hs
    · by_cases hr' : (q ++ [c]).length < 4
      · obtain ⟨before, d, heq, hd⟩ := ih hr' hf
        exact ⟨c :: before, d, congrArg (c :: ·) heq, hd⟩
      · have hre : (fillQuantum (q ++ [c]) text).2 = text := by
          cases text with
          | nil => rfl
          | cons => rw [fillQuantum, if_neg hr']
        exact ⟨[], c, by rw [hre]; rfl, ht⟩
    · obtain ⟨before, d, heq, hd⟩ := ih hr hf
      exact ⟨c :: before, d, congrArg (c :: ·) heq, hd⟩
    · exact absurd hf (Nat.ne_of_lt hr)

theorem endsInLineBreak_fill (hf : (fillQuantum [] text).1.length = 4) :
    EndsInLineBreak text ↔ EndsInLineBreak (fillQuantum [] text).2 := by
  obtain ⟨before, c, heq, hc⟩ := fillQuantum_split text (by decide) hf
  generalize (fillQuantum [] text).2 = rest at heq
  subst heq
  rw [endsInLineBreak_append before (cons_ne_nil c rest)]
  cases rest with
  | nil =>
    refine iff_of_false ?_ (by simp [EndsInLineBreak])
    rintro (h | h)
    all_goals
      cases h
      exact absurd hc (by decide +kernel)
  | cons d rest => exact endsInLineBreak_append [c] (cons_ne_nil d rest)

theorem fillQuantum_full (text : List UInt8) {q} (hle : q.length ≤ 4)
    (ha : ∀ c ∈ stripped text, Accepted c) (he : 4 ≤ q.length + (stripped text).length) :
    (fillQuantum q text).1.length = 4 := by
  induction text generalizing q with
  | nil => exact Nat.le_antisymm hle he
  | cons c text ih =>
    unfold fillQuantum
    split_ifs with hr ht hs
    · rw [stripped_taken ht] at ha he
      refine ih ?_ (fun d hd => ha d (.tail _ hd)) ?_
      · rw [length_append]
        exact hr
      · simp only [length_append, length_cons, length_nil] at he ⊢
        omega
    · rw [stripped_skipped hs] at ha he
      exact ih hle ha he
    · by_cases hb : c = 13 ∨ c = 10
      · exact absurd (by rcases hb with rfl | rfl <;> decide +kernel) hs
      · refine absurd (ha c ?_) ht
        exact mem_filter.mpr ⟨.head _, decide_eq_true (not_or.mp hb)⟩
    · exact Nat.le_antisymm hle (Nat.le_of_not_lt hr)

theorem Quanta.decoded_eq {out} (h : Quanta out bytes)
    (ht : stripped text = out) (he : ¬ EndsInLineBreak text) : decoded text = (bytes, true) := by
  induction h generalizing text with
  | nil =>
    cases text using reverseRecOn with
    | nil => exact decoded_nil
    | append_singleton text c =>
      have hc := filter_eq_nil_iff.mp ht c (by simp)
      refine absurd ?_ he
      simp only [EndsInLineBreak, getLast?_concat, Option.some.injEq]
      rwa [decide_eq_true_iff, ← not_or, not_not] at hc
  | @cons q bytes out more hl ha hd hr ih =>
    have hf := @fillQuantum_full text [] (by decide) (by rw [ht]; exact (hr.cons hl ha hd).alphabet)
      (by rw [ht, length_append, hl, length_nil]; omega)
    have hs := fillQuantum_stripped [] text
    rw [ht, nil_append] at hs
    obtain ⟨hq, hle⟩ := append_inj hs (hf.trans hl.symm)
    have hne : text ≠ [] := by
      rintro rfl
      cases hf
    rw [decoded_quantum hne hf (by rw [hq]; exact hd), ih hle (mt (endsInLineBreak_fill hf).mpr he)]

theorem not_endsInLineBreak (text : List UInt8) (h : (decoded text).2 = true) :
    ¬ EndsInLineBreak text := by
  induction text using text_induction with
  | nil => simp [EndsInLineBreak]
  | quantum text bytes hne hf hq ih =>
    rw [decoded_quantum hne hf hq] at h
    exact mt (endsInLineBreak_fill hf).mp (ih h)
  | bad text hne hf hq =>
    rw [decoded_bad hne hf hq] at h
    cases h
  | short text hne hs =>
    rw [decoded_short hne hs] at h
    cases h

/-- **With line breaks inserted, an accepted text is accepted with the same output
exactly if it does not end in a line break.** -/
theorem inserted_accepted_iff {composer composer' : PARCBufferComposer} {content : List UInt8}
    (h : Composes composer content)
    (haccept : parcBase64DecodeArray composer text = pure (composer', true))
    (hinserted : Inserted text text') :
    ∃ bytes, Composes composer' (content ++ bytes) ∧
      ((∃ output, parcBase64DecodeArray composer text' = pure (output, true) ∧
          Composes output (content ++ bytes)) ↔ ¬ EndsInLineBreak text') := by
  have hok := (accepts_iff h text).mp ⟨composer', haccept⟩
  obtain ⟨c1, ha1, hc⟩ := decodeArray_accepts h hok
  cases haccept.symm.trans ha1
  refine ⟨(decoded text).1, hc, fun ⟨output, ha', _⟩ => ?_, fun he => ?_⟩
  · exact not_endsInLineBreak text' ((accepts_iff h text').mp ⟨output, ha'⟩)
  · have hd := (quanta_of_decoded text hok).decoded_eq hinserted.stripped_eq he
    have ha' := decodeArray_accepts h (show (decoded text').2 = true by rw [hd])
    rwa [hd] at ha'

/-- A line feed before the text. -/
theorem inserted_accepted_front : ∃ output,
    parcBase64DecodeArray (parcBufferComposerAllocate 64 0) (10 :: brokenLine) =
      pure (output, true) := by
  obtain ⟨c', ha, -⟩ := decodeArray_accepts (composes_allocate 64 0)
    (show (decoded brokenLine).2 = true by rw [decoded_brokenLine])
  have hs : Inserted brokenLine brokenLine := .keep _ (.keep _ (.keep _ (.keep _ (.keep _ .nil))))
  obtain ⟨bytes, -, hi⟩ := inserted_accepted_iff (composes_allocate 64 0) ha (.insert (.inr rfl) hs)
  obtain ⟨output, ha', -⟩ := hi.mpr (by simp [EndsInLineBreak, brokenLine])
  exact ⟨output, ha'⟩

/-- A line feed after the text. -/
theorem inserted_rejected_end :
    ¬ ∃ output, parcBase64DecodeArray (parcBufferComposerAllocate 64 0) (brokenLine ++ [10]) =
      pure (output, true) := by
  rw [accepts_iff (composes_allocate 64 0)]
  exact fun h => not_endsInLineBreak _ h (.inr rfl)

end Libparc.Base64
