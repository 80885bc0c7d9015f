import Mathlib.Tactic.IntervalCases
import Libparc.Algol.BufferComposer

/-! # parc_Base64

Encoding takes a quantum of three bytes to four characters, decoding a quantum
of four characters to at most three bytes. The encoder pads the last quantum;
the decoder skips line feeds and carriage returns and goes back to where it
began when it meets anything else.

What the encoder appends is `encoded`, and the decoder takes it back
(`decodeQuantum_encodedQuantum` for one quantum). -/
namespace Libparc.Base64
open Buffer BufferComposer Exec List

def base64code : List UInt8 :=
  "ABCDEFGHIJKLMNOPQRSTUVWXYZabcdefghijklmnopqrstuvwxyz0123456789+/".toList.map
    fun character => character.toNat.toUInt8

/-- `'='`. -/
def pad : UInt8 := 61

/-- `'~'`. -/
def invalid : UInt8 := 126

/-- `'_'`. -/
def skip : UInt8 := 95

def decodeTable : List UInt8 :=
  [
   126, 126, 126, 126, 126, 126, 126, 126, 126, 126, 95, 126, 126, 95, 126, 126,
   126, 126, 126, 126, 126, 126, 126, 126, 126, 126, 126, 126, 126, 126, 126, 126,
   126, 126, 126, 126, 126, 126, 126, 126, 126, 126, 126, 62, 126, 126, 126, 63,
   52, 53, 54, 55, 56, 57, 58, 59, 60, 61, 126, 126, 126, 126, 126, 126,
   126, 0, 1, 2, 3, 4, 5, 6, 7, 8, 9, 10, 11, 12, 13, 14,
   15, 16, 17, 18, 19, 20, 21, 22, 23, 24, 25, 126, 126, 126, 126, 126,
   126, 26, 27, 28, 29, 30, 31, 32, 33, 34, 35, 36, 37, 38, 39, 40,
   41, 42, 43, 44, 45, 46, 47, 48, 49, 50, 51, 126, 126, 126, 126, 126,
   126, 126, 126, 126, 126, 126, 126, 126, 126, 126, 126, 126, 126, 126, 126, 126,
   126, 126, 126, 126, 126, 126, 126, 126, 126, 126, 126, 126, 126, 126, 126, 126,
   126, 126, 126, 126, 126, 126, 126, 126, 126, 126, 126, 126, 126, 126, 126, 126,
   126, 126, 126, 126, 126, 126, 126, 126, 126, 126, 126, 126, 126, 126, 126, 126,
   126, 126, 126, 126, 126, 126, 126, 126, 126, 126, 126, 126, 126, 126, 126, 126,
   126, 126, 126, 126, 126, 126, 126, 126, 126, 126, 126, 126, 126, 126, 126, 126,
   126, 126, 126, 126, 126, 126, 126, 126, 126, 126, 126, 126, 126, 126, 126, 126,
   126, 126, 126, 126, 126, 126, 126, 126, 126, 126, 126, 126, 126, 126, 126, 126
  ]

theorem length_decodeTable : decodeTable.length = 256 := by decide +kernel

theorem decodeTable_all {P : UInt8 → Nat → Bool}
    (h : decodeTable.zipIdx.all (fun e => P e.1 e.2) = true) (c : UInt8) :
    P (decodeTable.getD c.toNat 0) c.toNat = true := by
  have hlt : c.toNat < decodeTable.length := length_decodeTable ▸ c.toNat_lt
  rw [getD_eq_getElem _ _ hlt]
  exact all_eq_true.mp h (decodeTable[c.toNat], c.toNat)
    (mk_mem_zipIdx_iff_getElem?.mpr (getElem?_eq_getElem hlt))

/-! ## Encoding -/

/-- The three bytes of a quantum, zero where the array has ended. -/
def paddedQuantum (quantum : List UInt8) (padLength index : Nat) : UInt8 :=
  (quantum.take (3 - padLength)).getD index 0

/-- The six bits for the character at `index`: `aaaaaabb | bbbbcccc | ccdddddd`. -/
def sixbit (quantum : Nat → UInt8) : Nat → UInt8
  | 0 => quantum 0 >>> 2
  | 1 => ((quantum 0 &&& 0x03) <<< 4) ||| (quantum 1 >>> 4)
  | 2 => ((quantum 1 &&& 0x0F) <<< 2) ||| (quantum 2 >>> 6)
  | _ => quantum 2 &&& 0x3F

def encodedChar (quantum : List UInt8) (padLength index : Nat) : UInt8 :=
  if index + padLength < 4 then
    base64code.getD (sixbit (paddedQuantum quantum padLength) index).toNat 0
  else pad

section
variable (output : PARCBufferComposer) (array : List UInt8) (quantum : List UInt8)

def encodeWithPad (padLength : Nat) : Prog PARCBufferComposer := do
  assertTrue (padLength < 3) "Degenerate case -- should never pad all 3 bytes!"
  (List.range 4).foldlM (fun output index =>
    parcBufferComposerPutUint8 output (encodedChar quantum padLength index)) output

def encodeArrayBody :
    PARCBufferComposer × Nat → Prog (PARCBufferComposer × Nat ⊕ PARCBufferComposer)
  | (output, offset) =>
    if offset < array.length then do
      let padLength := 3 - min 3 (array.length - offset)
      let output ← encodeWithPad output (array.drop offset) padLength
      pure (.inl (output, offset + 3))
    else pure (.inr output)

def parcBase64EncodeArray : Prog PARCBufferComposer :=
  Exec.loop (encodeArrayBody array) (output, 0)

/-! ## Decoding -/

/-- The local variables of `_decode`. -/
structure Decoding where
  threebytes : UInt8 × UInt8 × UInt8
  lengthToAppend : Nat
  deriving DecidableEq, Repr

/-- Where the six bits of a character go. -/
def place : Decoding → Nat → UInt8 → Decoding
  | ⟨(b0, b1, b2), n⟩, 0, value => ⟨(b0 ||| value <<< 2, b1, b2), n⟩
  | ⟨(b0, b1, b2), _⟩, 1, value =>
    ⟨(b0 ||| (value &&& 0x30) >>> 4, b1 ||| (value &&& 0x0F) <<< 4, b2), 1⟩
  | ⟨(b0, b1, b2), _⟩, 2, value => ⟨(b0, b1 ||| value >>> 2, b2 ||| (value &&& 0x03) <<< 6), 2⟩
  | ⟨(b0, b1, b2), _⟩, _, value => ⟨(b0, b1, b2 ||| value), 3⟩

/-- One turn of the loop of `_decode`; `none` when it returns false. -/
def decodeChar (st : Decoding) (c : UInt8) (index : Nat) : Option Decoding :=
  if c ≠ pad then
    let value := decodeTable.getD c.toNat 0
    if value = invalid then none else some (place st index value)
  else some st

/-- The bytes a quantum of four characters stands for. -/
def decodeQuantum : Option (List UInt8) := do
  let ⟨(b0, b1, b2), lengthToAppend⟩ ←
    quantum.zipIdx.foldlM (fun st (c, index) => decodeChar st c index) ⟨(0, 0, 0), 0⟩
  pure ([b0, b1, b2].take lengthToAppend)

def decode : Prog (PARCBufferComposer × Bool) :=
  match decodeQuantum quantum with
  | none => pure (output, false)
  | some bytes => do pure (← parcBufferComposerPutArray output bytes, true)

/-- The inner loop of `parcBase64_DecodeArray`, with the characters in
`quantum` so far. -/
def fillQuantumBody : List UInt8 × Nat → Prog (List UInt8 × Nat ⊕ List UInt8 × Nat)
  | (quantum, offset) =>
    if quantum.length < 4 ∧ offset < array.length then
      let c := array.getD offset 0
      let decoded := decodeTable.getD c.toNat 0
      if decoded < 64 ∨ c = pad then pure (.inl (quantum ++ [c], offset + 1))
      else if decoded = skip then pure (.inl (quantum, offset + 1))
      else if decoded = invalid then pure (.inr (quantum, offset))
      else pure (.inl (quantum, offset))
    else pure (.inr (quantum, offset))

def decodeArrayBody : PARCBufferComposer × Nat × Bool →
      Prog (PARCBufferComposer × Nat × Bool ⊕ PARCBufferComposer × Bool)
  | (output, offset, success) =>
    if offset < array.length ∧ success then do
      let (quantum, offset) ← Exec.loop (fillQuantumBody array) ([], offset)
      if quantum.length = 4 then do
        let (output, success) ← decode output quantum
        pure (.inl (output, offset, success))
      else pure (.inl (output, offset, false))
    else pure (.inr (output, success))

/-- The composer afterwards, and whether the function returns it or NULL. The
position is set back in the buffer the composer had at the start, which is gone
if the composer has another one by then. -/
def parcBase64DecodeArray : Prog (PARCBufferComposer × Bool) := do
  let (result, success) ← Exec.loop (decodeArrayBody array) (output, 0, true)
  if success then pure (result, true)
  else if result.handle = output.handle then do
    let outputBuffer ← parcBufferSetPosition result.buffer output.buffer.position
    pure ({ result with buffer := outputBuffer }, false)
  else throw .memoryFault

end

/-! ## The characters of a quantum -/

theorem decodeTable_base64code : ∀ v : Fin 64,
    decodeTable.getD (base64code.getD v 0).toNat 0 = UInt8.ofNat v ∧ base64code.getD v 0 ≠ pad := by
  decide +kernel

theorem sixbit_lt (quantum : Nat → UInt8) (index : Nat) : (sixbit quantum index).toNat < 64 := by
  have hm : sixbit quantum index &&& 0x3F = sixbit quantum index := by
    apply UInt8.toBitVec_inj.mp
    ext i hi
    unfold sixbit
    split <;> simp <;> interval_cases i <;> simp
  rw [← hm, UInt8.toNat_and]
  exact Nat.and_lt_two_pow _ (show (0x3F : UInt8).toNat < 2 ^ 6 by decide)

variable {pl : Nat} {qu : List UInt8}

theorem encodedChar_value (qu : List UInt8) {index} (h : index + pl < 4) :
    encodedChar qu pl index ≠ pad ∧ decodeTable.getD (encodedChar qu pl index).toNat 0 =
        sixbit (paddedQuantum qu pl) index := by
  have hv := sixbit_lt (paddedQuantum qu pl) index
  obtain ⟨hva, hp⟩ := decodeTable_base64code ⟨_, hv⟩
  simp only [encodedChar, if_pos h]
  exact ⟨hp, hva.trans (UInt8.ofNat_toNat)⟩

theorem sixbit_ne_invalid (qu : Nat → UInt8) (i : Nat) : sixbit qu i ≠ invalid := by
  intro h
  have hlt := sixbit_lt qu i
  rw [h] at hlt
  exact absurd hlt (by decide)

theorem decodeChar_encodedChar {i} (h : i + pl < 4) (st : Decoding) :
    decodeChar st (encodedChar qu pl i) i = some (place st i (sixbit (paddedQuantum qu pl) i)) := by
  obtain ⟨hp, hv⟩ := encodedChar_value qu h
  simp only [decodeChar, if_pos hp, hv, if_neg (sixbit_ne_invalid _ _)]

theorem decodeChar_pad (st : Decoding) (i : Nat) : decodeChar st pad i = some st :=
  if_neg (not_not_intro rfl)

theorem encodedChar_of_le {i} (h : 4 ≤ i + pl) : encodedChar qu pl i = pad :=
  if_neg (Nat.not_lt_of_le h)

/-! ### The bits of the three bytes -/

section Bits

variable (q : Nat → UInt8)

theorem first_byte : (0 : UInt8) ||| sixbit q 0 <<< 2 ||| (sixbit q 1 &&& 0x30) >>> 4 = q 0 := by
  apply UInt8.toBitVec_inj.mp
  ext i hi
  simp [sixbit]
  interval_cases i <;> simp

theorem second_byte : (0 : UInt8) ||| (sixbit q 1 &&& 0x0F) <<< 4 ||| sixbit q 2 >>> 2 = q 1 := by
  apply UInt8.toBitVec_inj.mp
  ext i hi
  simp [sixbit]
  interval_cases i <;> simp

theorem third_byte : (0 : UInt8) ||| (sixbit q 2 &&& 0x03) <<< 6 ||| sixbit q 3 = q 2 := by
  apply UInt8.toBitVec_inj.mp
  ext i hi
  simp [sixbit]
  interval_cases i <;> simp

end Bits

/-! ### A quantum taken back -/

/-- The four characters for the first `3 - padLength` bytes. -/
def encodedQuantum (quantum : List UInt8) (padLength : Nat) : List UInt8 :=
  (List.range 4).map (encodedChar quantum padLength)

theorem encodedQuantum_eq (qu : List UInt8) (pl : Nat) :
    encodedQuantum qu pl = [encodedChar qu pl 0, encodedChar qu pl 1, encodedChar qu pl 2,
      encodedChar qu pl 3] := rfl

theorem length_encodedQuantum (qu : List UInt8) (pl : Nat) : (encodedQuantum qu pl).length = 4 := by
  rw [encodedQuantum, length_map, length_range]

theorem decodeQuantum_four (c0 c₁ c2 c3 : UInt8) :
    decodeQuantum [c0, c₁, c2, c3] = (do
      let st ← decodeChar ⟨(0, 0, 0), 0⟩ c0 0
      let st ← decodeChar st c₁ 1
      let st ← decodeChar st c2 2
      let ⟨(b0, b1, b2), lengthToAppend⟩ ← decodeChar st c3 3
      pure ([b0, b1, b2].take lengthToAppend)) := by
  simp only [decodeQuantum, zipIdx_cons, zipIdx_nil, foldlM_cons, foldlM_nil, bind_assoc]
  rfl

theorem take_eq_paddedQuantum (hl : 3 - pl ≤ qu.length) :
    qu.take (3 - pl) = ((range 3).map (paddedQuantum qu pl)).take (3 - pl) := by
  apply ext_getElem
  · simp only [length_take, length_map, length_range]
    omega
  · intro i h1 _
    simp only [getElem_take, getElem_map, getElem_range, paddedQuantum,
      getD_eq_getElem?_getD, getElem?_eq_getElem h1, Option.getD_some]

/-- **`_decode` takes back what `_encodeWithPad` made of a quantum**, padded or
not. -/
theorem decodeQuantum_encodedQuantum (hp : pl < 3) (hl : 3 - pl ≤ qu.length) :
    decodeQuantum (encodedQuantum qu pl) = some (qu.take (3 - pl)) := by
  have h0 := first_byte (paddedQuantum qu pl)
  have h1 := second_byte (paddedQuantum qu pl)
  have h2 := third_byte (paddedQuantum qu pl)
  -- the first two characters are never padding
  rw [take_eq_paddedQuantum hl, encodedQuantum_eq, decodeQuantum_four,
    decodeChar_encodedChar (by omega), Option.bind_eq_bind, Option.bind_some,
    decodeChar_encodedChar (by omega), Option.bind_some]
  interval_cases pl
  · rw [decodeChar_encodedChar (by omega), Option.bind_some, decodeChar_encodedChar (by omega),
      Option.bind_some]
    simp only [place, h0, h1, h2]
    rfl
  · rw [decodeChar_encodedChar (by omega), Option.bind_some, encodedChar_of_le (by omega),
      decodeChar_pad, Option.bind_some]
    simp only [place, h0, h1]
    rfl
  · simp only [place, h0]
    rfl

/-! ## Whole arrays -/

/-- The text for an array: quantum after quantum, the last one padded. -/
def encoded (bytes : List UInt8) : List UInt8 :=
  if bytes = [] then []
  else encodedQuantum bytes (3 - min 3 bytes.length) ++ encoded (bytes.drop 3)
termination_by bytes.length
decreasing_by
  have := List.length_pos_iff.mpr ‹_›
  rw [List.length_drop]
  omega

theorem encoded_of_ne_nil {bs} (h : bs ≠ []) :
    encoded bs = encodedQuantum bs (3 - min 3 bs.length) ++ encoded (bs.drop 3) := by
  rw [encoded, if_neg h]

theorem quantum_induction {motive : List UInt8 → Prop} (nil : motive [])
    (quantum : ∀ bytes, bytes ≠ [] → motive (bytes.drop 3) → motive bytes) (bytes : List UInt8) :
    motive bytes := by
  induction hn : bytes.length using Nat.strongRecOn generalizing bytes with
  | ind n ih =>
    by_cases h : bytes = []
    · exact h ▸ nil
    · have := length_pos_iff.mpr h
      exact quantum bytes h (ih _ (by rw [length_drop]; omega) _ rfl)

section Runs

variable {c : PARCBufferComposer} {out : List UInt8} (a : List UInt8)

theorem encodeWithPad_spec (qu : List UInt8) (hp : pl < 3) :
    Appends (encodeWithPad · qu pl) (encodedQuantum qu pl) := by
  have ha := putUint8s_composes (encodedQuantum qu pl)
  simp only [encodedQuantum, foldlM_map] at ha
  simp only [encodeWithPad, assertTrue_of (decide_eq_true hp), pure_bind]
  exact ha

theorem encodeArray_loop (bs : List UInt8) :
    ∀ {c out} (off : Nat), a.drop off = bs → Composes c out →
      ∃ c', loop (encodeArrayBody a) (c, off) = pure c' ∧ Composes c' (out ++ encoded bs) := by
  induction bs using quantum_induction with
  | nil =>
    intro c out off hdrop h
    refine ⟨c, loop_done ?_, by rwa [encoded, if_pos rfl, append_nil]⟩
    exact if_neg (Nat.not_lt_of_le (drop_eq_nil_iff.mp hdrop))
  | quantum bs hne ih =>
    intro c out off hdrop h
    have hl := congrArg length hdrop
    rw [length_drop] at hl
    have hp := length_pos_iff.mpr hne
    obtain ⟨c1, hpu, h1⟩ := encodeWithPad_spec bs (show 3 - min 3 bs.length < 3 by omega) h
    obtain ⟨c', hlo, h'⟩ := ih (off + 3) (by rw [← hdrop, drop_drop]) h1
    refine ⟨c', (loop_next ?_).trans hlo, ?_⟩
    · simp only [encodeArrayBody, if_pos (show off < a.length by omega), hl, hdrop, hpu, pure_bind]
    · rwa [encoded_of_ne_nil hne, ← append_assoc]

theorem encodeArray_spec : Appends (parcBase64EncodeArray · a) (encoded a) :=
  fun _ _ h => encodeArray_loop a a 0 rfl h

theorem decode_encodedQuantum (h : Composes c out) (hp : pl < 3) (hl : 3 - pl ≤ qu.length) :
    ∃ c', decode c (encodedQuantum qu pl) = pure (c', true) ∧
      Composes c' (out ++ qu.take (3 - pl)) := by
  obtain ⟨c', hpu, h'⟩ := putArray_composes (qu.take (3 - pl)) h
  refine ⟨c', ?_, h'⟩
  simp only [decode, decodeQuantum_encodedQuantum hp hl, hpu, pure_bind]

/-- A character the decoder takes into its quantum. -/
def Accepted (c : UInt8) : Prop := decodeTable.getD c.toNat 0 < 64 ∨ c = pad

theorem accepted_encodedQuantum (qu : List UInt8) (pl : Nat) :
    ∀ c ∈ encodedQuantum qu pl, Accepted c := by
  intro c hc
  obtain ⟨i, -, rfl⟩ := mem_map.mp hc
  by_cases h : i + pl < 4
  · left
    rw [(encodedChar_value qu h).2]
    exact sixbit_lt _ _
  · exact .inr (encodedChar_of_le (Nat.le_of_not_lt h))

theorem fillQuantum_spec (chars : List UInt8) : ∀ (qu : List UInt8) (off : Nat) (rest : List UInt8),
      a.drop off = chars ++ rest → (∀ c ∈ chars, Accepted c) → qu.length + chars.length = 4 →
      loop (fillQuantumBody a) (qu, off) = pure (qu ++ chars, off + chars.length) := by
  induction chars with
  | nil =>
    intro qu off rest _ _ hl
    rw [append_nil]
    exact loop_done (if_neg (by simp at hl; omega))
  | cons c chars ih =>
    intro qu off rest hdrop ha hl
    have hg : a.getD off 0 = c := by
      rw [getD_eq_getElem?_getD, ← head?_drop, hdrop]
      rfl
    have hlt : off < a.length := by
      have := congrArg length hdrop
      simp only [length_drop, length_append, length_cons] at this
      omega
    rw [length_cons] at hl
    have hb : fillQuantumBody a (qu, off) = pure (.inl (qu ++ [c], off + 1)) := by
      have hc : decodeTable.getD c.toNat 0 < 64 ∨ c = pad := ha c (.head _)
      have hr : qu.length < 4 ∧ off < a.length := ⟨by omega, hlt⟩
      simp only [fillQuantumBody, hg, if_pos hc, if_pos hr]
    rw [loop_next hb, ih (qu ++ [c]) (off + 1) rest (by rw [← drop_drop, hdrop]; rfl)
      (fun d hd => ha d (.tail _ hd)) (by rw [length_append, length_singleton]; omega)]
    rw [append_assoc, singleton_append, length_cons]
    congr 2
    omega

theorem decodeArray_loop (bs : List UInt8) :
    ∀ {c out} (off : Nat), a.drop off = encoded bs → Composes c out →
      ∃ c', loop (decodeArrayBody a) (c, off, true) = pure (c', true) ∧
        Composes c' (out ++ bs) := by
  induction bs using quantum_induction with
  | nil =>
    intro c out off hdrop h
    rw [encoded, if_pos rfl] at hdrop
    refine ⟨c, loop_done ?_, by rwa [append_nil]⟩
    exact if_neg fun hlt => Nat.not_lt_of_le (drop_eq_nil_iff.mp hdrop) hlt.1
  | quantum bs hne ih =>
    intro c out off hdrop h
    rw [encoded_of_ne_nil hne] at hdrop
    have hp := length_pos_iff.mpr hne
    have hlt : off < a.length := by
      have := congrArg length hdrop
      rw [length_drop, length_append, length_encodedQuantum] at this
      omega
    obtain ⟨c1, hd, h1⟩ := decode_encodedQuantum h (show 3 - min 3 bs.length < 3 by omega)
      (show 3 - (3 - min 3 bs.length) ≤ bs.length by omega)
    have hf := fillQuantum_spec a (encodedQuantum bs (3 - min 3 bs.length)) [] off
      _ hdrop (accepted_encodedQuantum _ _) (by rw [length_encodedQuantum]; rfl)
    rw [nil_append, length_encodedQuantum] at hf
    obtain ⟨c', hl, h'⟩ := ih (off + 4) (by
      rw [← drop_drop, hdrop, ← length_encodedQuantum bs (3 - min 3 bs.length), drop_left]) h1
    refine ⟨c', (loop_next ?_).trans hl, ?_⟩
    · simp only [decodeArrayBody, hlt, and_self, if_true, hf, pure_bind, length_encodedQuantum, hd]
    · have ht : bs.take (3 - (3 - min 3 bs.length)) = bs.take 3 := take_eq_take_iff.mpr (by omega)
      rwa [ht, append_assoc, take_append_drop] at h'

end Runs

/-- Decoding the text that encoding appended for `x`, to whatever was there,
appends `x` to what its own composer holds. -/
theorem decodeArray_encodeArray {output composer : PARCBufferComposer}
    {before content : List UInt8} (hout : Composes output before)
    (h : Composes composer content) (x : List UInt8) :
    ∃ output' text composer',
      parcBase64EncodeArray output x = pure output' ∧ Composes output' (before ++ text) ∧
      parcBase64DecodeArray composer text = pure (composer', true) ∧
      Composes composer' (content ++ x) := by
  obtain ⟨output', he, ho'⟩ := encodeArray_spec x hout
  obtain ⟨composer', hl, h'⟩ := decodeArray_loop (encoded x) x 0 rfl h
  refine ⟨output', encoded x, composer', he, ho', ?_, h'⟩
  rw [parcBase64DecodeArray, hl, pure_bind]
  rfl

/-- Four bytes, appended to a buffer that has to grow for them. -/
theorem decodeArray_encodeArray_four :
    ∃ output' text composer',
      parcBase64EncodeArray (parcBufferComposerAllocate 64 0) [77, 97, 110, 0] = pure output' ∧
      Composes output' ([] ++ text) ∧
      parcBase64DecodeArray ⟨2, ⟨[1, 2, 3, 0], 4, 0, 3, 4, none⟩, 0⟩ text = pure (composer', true) ∧
      Composes composer' ([1, 2, 3] ++ [77, 97, 110, 0]) :=
  decodeArray_encodeArray (composes_allocate 64 0)
    ⟨⟨by simp, by decide, by decide, by decide⟩, rfl, rfl, rfl⟩ [77, 97, 110, 0]

end Libparc.Base64
