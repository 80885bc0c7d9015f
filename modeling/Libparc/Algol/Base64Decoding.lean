import Libparc.Algol.Base64

/-! # What parcBase64_DecodeArray does with a text

The decoder reads quantum after quantum, over line feeds and carriage returns,
until the text ends or a quantum cannot be filled. What it has appended by then,
and whether it succeeded, is a function of the text (`decoded`). Only where it
appends to is up to the composer: a composer without room for what was decoded
has another buffer afterwards, and the rollback is made in the old one. -/
namespace Libparc.Base64
open Buffer BufferComposer Exec List

instance (c : UInt8) : Decidable (Accepted c) := inferInstanceAs (Decidable (_ ∨ _))

/-- The inner loop, on the text that is left: the quantum, and what follows it. -/
def fillQuantum : List UInt8 → List UInt8 → List UInt8 × List UInt8
  | quantum, [] => (quantum, [])
  | quantum, c :: text =>
    if quantum.length < 4 then
      if Accepted c then fillQuantum (quantum ++ [c]) text
      else if decodeTable.getD c.toNat 0 = skip then fillQuantum quantum text
      else (quantum, c :: text)
    else (quantum, c :: text)

theorem fillQuantum_length (q text : List UInt8) :
    (fillQuantum q text).1.length + (fillQuantum q text).2.length ≤ q.length + text.length := by
  induction text generalizing q with
  | nil => simp [fillQuantum]
  | cons c text ih =>
    unfold fillQuantum
    split_ifs
    · have := ih (q ++ [c])
      simp only [length_append, length_cons, length_nil] at this ⊢
      omega
    · have := ih q
      simp only [length_cons]
      omega
    · simp
    · simp

/-- The bytes of the quanta that are decoded, and whether the text ends with the
last of them. -/
def decoded (text : List UInt8) : List UInt8 × Bool :=
  if text = [] then ([], true)
  else if _h : (fillQuantum [] text).1.length = 4 then
    match decodeQuantum (fillQuantum [] text).1 with
    | none => ([], false)
    | some bytes =>
      (bytes ++ (decoded (fillQuantum [] text).2).1, (decoded (fillQuantum [] text).2).2)
  else ([], false)
termination_by text.length
decreasing_by
  all_goals
    have := fillQuantum_length [] text
    rw [List.length_nil] at this
    omega

theorem decoded_nil : decoded [] = ([], true) := by
  rw [decoded, if_pos rfl]

variable {text : List UInt8}

section
variable (hne : text ≠ []) (hf : (fillQuantum [] text).1.length = 4)
include hne hf

theorem decoded_quantum {bs} (hq : decodeQuantum (fillQuantum [] text).1 = some bs) :
    decoded text =
      (bs ++ (decoded (fillQuantum [] text).2).1, (decoded (fillQuantum [] text).2).2) := by
  rw [decoded, if_neg hne, dif_pos hf, hq]

theorem decoded_bad
    (hq : decodeQuantum (fillQuantum [] text).1 = none) : decoded text = ([], false) := by
  rw [decoded, if_neg hne, dif_pos hf, hq]

end

theorem decoded_short (hne : text ≠ []) (hs : (fillQuantum [] text).1.length ≠ 4) :
    decoded text = ([], false) := by
  rw [decoded, if_neg hne, dif_neg hs]

theorem text_induction {motive : List UInt8 → Prop} (nil : motive [])
    (quantum : ∀ text bs, text ≠ [] → (fillQuantum [] text).1.length = 4 →
      decodeQuantum (fillQuantum [] text).1 = some bs → motive (fillQuantum [] text).2 →
      motive text) (bad : ∀ text, text ≠ [] → (fillQuantum [] text).1.length = 4 →
      decodeQuantum (fillQuantum [] text).1 = none → motive text)
    (short : ∀ text, text ≠ [] → (fillQuantum [] text).1.length ≠ 4 → motive text)
    (text : List UInt8) : motive text := by
  induction hn : text.length using Nat.strongRecOn generalizing text with
  | ind n ih =>
    by_cases hne : text = []
    · exact hne ▸ nil
    · by_cases hf : (fillQuantum [] text).1.length = 4
      · cases hq : decodeQuantum (fillQuantum [] text).1 with
        | none => exact bad text hne hf hq
        | some bs =>
          have hl := fillQuantum_length [] text
          rw [length_nil] at hl
          exact quantum text bs hne hf hq (ih _ (by omega) _ rfl)
      · exact short text hne hf

/-! ## The loops -/

theorem decodeTable_cases (c : UInt8) : decodeTable.getD c.toNat 0 < 64 ∨
    decodeTable.getD c.toNat 0 = skip ∨ decodeTable.getD c.toNat 0 = invalid := by
  simpa using decodeTable_all
    (P := fun entry _ => entry < 64 || (entry == skip || entry == invalid)) (by decide +kernel) c

theorem lt_of_drop {a : List UInt8} {off} (hdrop : a.drop off = text)
    (hne : text ≠ []) : off < a.length := by
  rw [← Nat.not_le, ← drop_eq_nil_iff, hdrop]
  exact hne

theorem fillQuantumBody_eq {a q : List UInt8} {off c}
    (hdrop : a.drop off = c :: text) (hr : q.length < 4) :
    fillQuantumBody a (q, off) = if Accepted c then pure (.inl (q ++ [c], off + 1))
      else if decodeTable.getD c.toNat 0 = skip then pure (.inl (q, off + 1))
      else pure (.inr (q, off)) := by
  have hg : a.getD off 0 = c := by
    rw [getD_eq_getElem?_getD, ← head?_drop, hdrop]
    rfl
  have hlt := lt_of_drop hdrop (cons_ne_nil _ _)
  simp only [fillQuantumBody, hg, if_pos (And.intro hr hlt)]
  by_cases ht : Accepted c
  · rw [if_pos ht]
    exact if_pos ht
  · refine (if_neg ht).trans ?_
    split_ifs with hs hi
    · rfl
    · rfl
    · rcases decodeTable_cases c with h | h | h
      · exact absurd (.inl h) ht
      · exact absurd h hs
      · exact absurd h hi

theorem fillQuantum_loop (a : List UInt8) (text : List UInt8) :
    ∀ (q : List UInt8) (off : Nat), a.drop off = text →
      ∃ off', loop (fillQuantumBody a) (q, off) = pure ((fillQuantum q text).1, off') ∧
        a.drop off' = (fillQuantum q text).2 := by
  induction text with
  | nil =>
    intro q off hdrop
    refine ⟨off, loop_done (if_neg ?_), hdrop⟩
    exact fun h => Nat.not_lt_of_le (drop_eq_nil_iff.mp hdrop) h.2
  | cons c text ih =>
    intro q off hdrop
    have hn : a.drop (off + 1) = text := by
      rw [← drop_drop, hdrop]
      rfl
    unfold fillQuantum
    by_cases hr : q.length < 4
    · have hb := fillQuantumBody_eq hdrop hr
      split_ifs at hb ⊢
      · rw [loop_next hb]
        exact ih (q ++ [c]) (off + 1) hn
      · rw [loop_next hb]
        exact ih q (off + 1) hn
      · exact ⟨off, loop_done hb, hdrop⟩
    · rw [if_neg hr]
      exact ⟨off, loop_done (if_neg fun h => hr h.1), hdrop⟩

section
variable {composer : PARCBufferComposer} {content : List UInt8}

/-- The composer with what was appended: the buffer it had, or another one for
want of room. -/
structure Appended (composer : PARCBufferComposer) (content bytes : List UInt8)
    (composer' : PARCBufferComposer) : Prop where
  composes : Composes composer' (content ++ bytes)
  room : bytes.length ≤ composer.room ∧ composer'.handle = composer.handle ∧
      composer'.room + bytes.length = composer.room ∨
    composer.room < bytes.length ∧ composer.handle < composer'.handle

theorem appended_nil (h : Composes composer content) : Appended composer content [] composer :=
  ⟨by rwa [append_nil], .inl ⟨Nat.zero_le _, rfl, rfl⟩⟩

theorem Appended.trans {bs more c1 composer'}
    (h1 : Appended composer content bs c1) (h2 : Appended c1 (content ++ bs) more composer') :
    Appended composer content (bs ++ more) composer' := by
  refine ⟨by rw [← append_assoc]; exact h2.composes, ?_⟩
  have hr1 := h1.room
  have hr2 := h2.room
  rw [length_append]
  omega

theorem decode_spec (h : Composes composer content) {q bs} (hq : decodeQuantum q = some bs) :
    ∃ composer', decode composer q = pure (composer', true) ∧
      Appended composer content bs composer' := by
  obtain ⟨composer', hp, h'⟩ := putArray_composes bs h
  refine ⟨composer', ?_, h', putArray_room h hp⟩
  simp only [decode, hq, hp, pure_bind]

theorem decodeArray_fails {a off} (off' : Nat)
    (hb : decodeArrayBody a (composer, off, true) = pure (.inl (composer, off', false))) :
    loop (decodeArrayBody a) (composer, off, true) = pure (composer, false) := by
  rw [loop_next hb]
  exact loop_done (if_neg fun h => Bool.false_ne_true h.2)

/-- **The outer loop appends what is decoded, and succeeds or fails with it.** -/
theorem decodeArray_run (a : List UInt8) (text : List UInt8) :
    ∀ {composer content} (off : Nat), a.drop off = text → Composes composer content →
      ∃ composer', loop (decodeArrayBody a) (composer, off, true) =
          pure (composer', (decoded text).2) ∧
        Appended composer content (decoded text).1 composer' := by
  induction text using text_induction with
  | nil =>
    intro composer content off hdrop h
    rw [decoded_nil]
    refine ⟨composer, loop_done (if_neg fun hlt => ?_), appended_nil h⟩
    exact Nat.not_lt_of_le (drop_eq_nil_iff.mp hdrop) hlt.1
  | quantum text bs hne hf hq ih =>
    intro composer content off hdrop h
    obtain ⟨off', hfi, hr⟩ := fillQuantum_loop a text [] off hdrop
    obtain ⟨c1, hd, ha1⟩ := decode_spec h hq
    obtain ⟨composer', hl, ha⟩ := ih off' hr ha1.composes
    rw [decoded_quantum hne hf hq]
    refine ⟨composer', (loop_next ?_).trans hl, ha1.trans ha⟩
    simp only [decodeArrayBody, lt_of_drop hdrop hne, and_self, if_true, hfi, pure_bind, hf, hd]
  | bad text hne hf hq =>
    intro composer content off hdrop h
    obtain ⟨off', hfi, -⟩ := fillQuantum_loop a text [] off hdrop
    rw [decoded_bad hne hf hq]
    refine ⟨composer, decodeArray_fails off' ?_, appended_nil h⟩
    simp only [decodeArrayBody, lt_of_drop hdrop hne, and_self, if_true, hfi, pure_bind, hf,
      decode, hq]
  | short text hne hs =>
    intro composer content off hdrop h
    obtain ⟨off', hfi, -⟩ := fillQuantum_loop a text [] off hdrop
    rw [decoded_short hne hs]
    refine ⟨composer, decodeArray_fails off' ?_, appended_nil h⟩
    simp only [decodeArrayBody, lt_of_drop hdrop hne, and_self, if_true, hfi, pure_bind, hs,
      if_false]

/-! ## The rollback -/

theorem decodeArray_accepts (h : Composes composer content) (hok : (decoded text).2 = true) :
    ∃ c', parcBase64DecodeArray composer text = pure (c', true) ∧
      Composes c' (content ++ (decoded text).1) := by
  obtain ⟨c', hl, ha⟩ := decodeArray_run text text 0 rfl h
  refine ⟨c', ?_, ha.composes⟩
  simp only [parcBase64DecodeArray, hl, hok, pure_bind, if_true]

/-- The composer has what it had before. -/
structure RolledBack (composer : PARCBufferComposer) (content : List UInt8)
    (composer' : PARCBufferComposer) : Prop where
  composes : Composes composer' content
  position : composer'.buffer.position = composer.buffer.position
  handle : composer'.handle = composer.handle

theorem decodeArray_rejects (h : Composes composer content) (hb : (decoded text).2 = false) :
    if (decoded text).1.length ≤ composer.room then
      ∃ c', parcBase64DecodeArray composer text = pure (c', false) ∧ RolledBack composer content c'
    else parcBase64DecodeArray composer text = throw .memoryFault := by
  obtain ⟨c', hl, ha⟩ := decodeArray_run text text 0 rfl h
  simp only [parcBase64DecodeArray, hl, hb, pure_bind, Bool.false_eq_true, if_false]
  have hr := ha.room
  split
  · have hh : c'.handle = composer.handle := by omega
    have hp : composer.buffer.position = content.length := by
      rw [← h.written, length_written h.valid]
    obtain ⟨b, hs, hc, hba⟩ := ha.composes.rollback
    refine ⟨{ c' with buffer := b }, ?_, hc, hba.trans hp.symm, hh⟩
    rw [if_pos hh, hp, hs, pure_bind]
  · exact if_neg (by omega)

theorem accepts_iff (h : Composes composer content) (text : List UInt8) :
    (∃ c', parcBase64DecodeArray composer text = pure (c', true)) ↔ (decoded text).2 = true := by
  constructor
  · rintro ⟨c', ha⟩
    by_contra hb
    have hs := decodeArray_rejects h (Bool.eq_false_of_not_eq_true hb)
    rw [ha] at hs
    split at hs
    · obtain ⟨_, hp, -⟩ := hs
      cases hp
    · exact pure_ne_throw hs
  · intro hok
    obtain ⟨c', ha, -⟩ := decodeArray_accepts h hok
    exact ⟨c', ha⟩

/-- **A rejected text leaves the composer as it was exactly if the composer had room
for the quanta that were decoded before the failure.** -/
theorem rejected_rolledBack_iff (h : Composes composer content) {text : List UInt8}
    (hreject : ∀ composer', parcBase64DecodeArray composer text ≠ pure (composer', true)) :
    (∃ composer', parcBase64DecodeArray composer text = pure (composer', false) ∧
      RolledBack composer content composer') ↔ (decoded text).1.length ≤ composer.room := by
  have hb : (decoded text).2 = false := by
    rw [← Bool.not_eq_true, ← accepts_iff h]
    exact not_exists.mpr hreject
  have hs := decodeArray_rejects h hb
  constructor
  · rintro ⟨composer', hr, -⟩
    by_contra hro
    rw [if_neg hro, hr] at hs
    exact pure_ne_throw hs
  · intro hro
    rwa [if_pos hro] at hs

end

/-- "QUFB!": one quantum, and then no character of the alphabet. -/
def quantumThenInvalid : List UInt8 := [81, 85, 70, 66, 33]

theorem decoded_quantumThenInvalid : decoded quantumThenInvalid = ([65, 65, 65], false) := by
  have hf : fillQuantum [] quantumThenInvalid = ([81, 85, 70, 66], [33]) := by decide +kernel
  have hq : decodeQuantum [81, 85, 70, 66] = some [65, 65, 65] := by decide +kernel
  have hs : decoded [33] = ([], false) := decoded_short (by simp) (by decide +kernel)
  rw [decoded_quantum (by simp [quantumThenInvalid]) (by rw [hf]; rfl)
    (by rw [hf]; exact hq), hf, hs]
  rfl

/-- With two bytes of room the three bytes of the quantum need another buffer. -/
theorem rollback_in_freed_buffer :
    parcBase64DecodeArray (parcBufferComposerAllocate 64 2) quantumThenInvalid =
      throw .memoryFault := by
  have hs := decodeArray_rejects (composes_allocate 64 2)
    (show (decoded quantumThenInvalid).2 = false by rw [decoded_quantumThenInvalid])
  rwa [decoded_quantumThenInvalid, if_neg (by simp [PARCBufferComposer.room,
    parcBufferComposerAllocate, parcBufferAllocate])] at hs

theorem rejected_rolledBack_three :
    ∃ composer', parcBase64DecodeArray (parcBufferComposerAllocate 64 3) quantumThenInvalid =
        pure (composer', false) ∧ RolledBack (parcBufferComposerAllocate 64 3) [] composer' := by
  have hr : ¬ ∃ composer', parcBase64DecodeArray (parcBufferComposerAllocate 64 3)
      quantumThenInvalid = pure (composer', true) := by
    rw [accepts_iff (composes_allocate 64 3), decoded_quantumThenInvalid]
    exact Bool.false_ne_true
  refine (rejected_rolledBack_iff (composes_allocate 64 3) (not_exists.mp hr)).mpr ?_
  rw [decoded_quantumThenInvalid]
  exact Nat.le_refl 3

end Libparc.Base64
