import Libparc.Algol.URISegment
import Mathlib.Data.List.TakeWhile

/-! # Hexadecimal text and numbers

`parcBuffer_ToHexString` gets the bytes by their index, from zero up to as many
as remain, whatever the position is. `parcBuffer_ParseHexString` looks at the
length of the text only: a character that is no digit counts as `-1`. -/
namespace Libparc.Buffer
open Exec URI List UInt64

/-- The same function as that of parc_URISegment.c. -/
abbrev toHexDigit (value : UInt8) : UInt8 := URI.toHexDigit value

/-- The same function as that of parc_URISegment.c. -/
abbrev fromHexDigit (hexDigit : UInt8) : UInt8 := URI.fromHexDigit hexDigit

def toHexString (bytes : List UInt8) : List UInt8 :=
  bytes.flatMap fun byte : UInt8 => [toHexDigit (byte >>> 4), toHexDigit byte]

def parcBufferToHexString : Option PARCBuffer → Prog (List UInt8)
  | none => pure (literal "null")
  | some buffer => do
    let length := parcBufferRemaining buffer
    let bytes ← (List.range length).mapM (parcBufferGetAtIndex buffer)
    pure (toHexString bytes)

def hexByte (high low : UInt8) : UInt8 := fromHexDigit high <<< 4 ||| fromHexDigit low

/-- The loop of `parcBuffer_ParseHexString`, over two characters at a time. -/
def putHexBytes : List UInt8 → PARCBuffer → Prog PARCBuffer
  | high :: low :: rest, result => do
    let result ← parcBufferPutUint8 result (hexByte high low)
    putHexBytes rest result
  | _, result => pure result

def parcBufferParseHexString (hexString : List UInt8) : Prog (Option PARCBuffer) :=
  let length := strlen hexString
  if length > 0 ∧ length % 2 = 1 then pure none
  else do
    let result ← putHexBytes (hexString.take length) (parcBufferAllocate length)
    pure (some result)

/-! ## Round trip -/

section
variable {b : PARCBuffer}

/-- The first bytes of the view. -/
def PARCBuffer.first (buffer : PARCBuffer) (n : Nat) : List UInt8 :=
  (buffer.array.drop buffer.arrayOffset).take n

theorem mapM_getAtIndex (h : b.Valid) {n} (hn : n ≤ b.limit) :
    (range n).mapM (parcBufferGetAtIndex b) = pure (b.first n) := by
  have := h.limit_le
  have := h.capacity_le
  induction n with
  | zero => rfl
  | succ n ih =>
    obtain ⟨c, hg⟩ : ∃ c, b.array[b.arrayOffset + n]? = some c :=
      ⟨_, getElem?_eq_getElem (by omega)⟩
    have hb : parcBufferGetAtIndex b n = pure c := by
      rw [parcBufferGetAtIndex, trapIfIndexExceedsLimit, trapOutOfBoundsIf_of_not (by omega),
        pure_bind, parcByteArrayGetByte, effectiveIndex, hg]
    rw [range_succ, mapM_append, ih (by omega)]
    simp [hb, PARCBuffer.first, take_add_one, hg]

theorem hexByte_toHexDigit (byte : UInt8) :
    hexByte (toHexDigit (byte >>> 4)) (toHexDigit byte) = byte := by
  simp only [hexByte, (fromHexDigit_toHexDigit _).2, nibbles]

theorem putHexBytes_toHexString (bs : List UInt8) {b} (h : b.Valid)
    (hr : bs.length ≤ parcBufferRemaining b) :
    ∃ b', putHexBytes (toHexString bs) b = pure b' ∧ Wrote b bs b' := by
  induction bs generalizing b with
  | nil => exact ⟨b, rfl, Wrote.refl h⟩
  | cons byte bs ih =>
    rw [length_cons] at hr
    obtain ⟨b1, hp, hw⟩ := putUint8_spec h (by omega) byte
    have hr1 := hw.remaining
    obtain ⟨b', hpu, hw'⟩ := ih hw.valid (by rw [hr1]; exact Nat.le_sub_of_add_le hr)
    refine ⟨b', ?_, hw.trans hw'⟩
    rwa [toHexString, flatMap_cons, cons_append, cons_append, putHexBytes,
      hexByte_toHexDigit, hp, pure_bind]

theorem strlen_toHexString (bs : List UInt8) : strlen (toHexString bs) = 2 * bs.length := by
  have hch : ∀ c ∈ toHexString bs, c ≠ 0 := by
    intro c hc
    obtain ⟨byte, -, hb⟩ := mem_flatMap.mp hc
    rcases mem_pair.mp hb with rfl | rfl
    · exact (fromHexDigit_toHexDigit _).1
    · exact (fromHexDigit_toHexDigit _).1
  rw [strlen, takeWhile_eq_self_iff.mpr (by simpa using hch), toHexString, length_flatMap]
  simp [Nat.mul_comm]

theorem parseHexString_toHexString (bytes : List UInt8) :
    ∃ parsed, parcBufferParseHexString (toHexString bytes) = pure (some parsed) ∧
      (parcBufferFlip parsed).Valid ∧ (parcBufferFlip parsed).remainingBytes = bytes := by
  have hl := strlen_toHexString bytes
  obtain ⟨parsed, hp, hw⟩ := putHexBytes_toHexString bytes
    (valid_allocate (2 * bytes.length)) (show _ ≤ 2 * bytes.length - 0 by omega)
  refine ⟨parsed, ?_, hw.valid.flip (hw.mark rfl), ?_⟩
  · have ht : (toHexString bytes).take (2 * bytes.length) = toHexString bytes := by
      rw [← hl]
      exact take_of_length_le (by rw [hl]; simp [toHexString, Nat.mul_comm])
    simp only [parcBufferParseHexString, hl, ht]
    rw [if_neg (by omega), hp, pure_bind]
  · rw [remainingBytes_flip, hw.written]
    rfl

theorem parseHexString_eq_none_iff (text : List UInt8) :
    parcBufferParseHexString text = pure none ↔ strlen text % 2 = 1 := by
  unfold parcBufferParseHexString
  simp only
  split_ifs with ho
  · exact iff_of_true rfl ho.2
  · refine iff_of_false (fun h => ?_) (by omega)
    obtain ⟨_, -, h'⟩ := bind_eq_pure.mp h
    cases pure_inj.mp h'

end

section
variable (buffer : PARCBuffer)

def RoundTrips : Prop :=
  ∃ text parsed, parcBufferToHexString (some buffer) = pure text ∧
    parcBufferParseHexString text = pure (some parsed) ∧
    parcBufferEquals buffer (parcBufferFlip parsed) = pure true

/-- Text of digits, two for each byte. -/
def WellFormedHex (text : List UInt8) : Prop :=
  strlen text % 2 = 0 ∧ ∀ c ∈ text.take (strlen text), fromHexDigit c < 16

/-- **Where hexadecimal text is right**: the text of a buffer is parsed to an
equal one if the bytes that remain are those at the beginning of its view, and
text is rejected as it should be if its length is odd or if it is of digits. -/
theorem hexString_iff {b : PARCBuffer} (h : b.Valid) (text : List UInt8) :
    (RoundTrips b ↔ b.first (parcBufferRemaining b) = b.remainingBytes) ∧
      ((¬ WellFormedHex text → parcBufferParseHexString text = pure none) ↔
        strlen text % 2 = 1 ∨ WellFormedHex text) := by
  constructor
  · obtain ⟨parsed, hp, hv, hb⟩ := parseHexString_toHexString (b.first (parcBufferRemaining b))
    have hpr : parcBufferToHexString (some b) =
        pure (toHexString (b.first (parcBufferRemaining b))) := by
      rw [parcBufferToHexString, mapM_getAtIndex h (h.remaining ▸ Nat.sub_le _ _), pure_bind]
    have he := equals_spec h hv
    rw [hb] at he
    constructor
    · rintro ⟨text, parsed', ht, hp', htr⟩
      cases pure_inj.mp (hpr.symm.trans ht)
      cases pure_inj.mp (hp.symm.trans hp')
      exact (of_decide_eq_true (pure_inj.mp (he.symm.trans htr))).symm
    · intro hf
      exact ⟨_, parsed, hpr, hp, by rw [he, hf, decide_eq_true rfl]⟩
  · rw [parseHexString_eq_none_iff]
    tauto

theorem hexString_iff_wrapped : PARCBuffer.Valid ⟨[10, 11], 2, 0, 1, 2, none⟩ ∧
    (RoundTrips ⟨[10, 11], 2, 0, 1, 2, none⟩ ↔
      PARCBuffer.first ⟨[10, 11], 2, 0, 1, 2, none⟩ 1 = [11]) :=
  have h : PARCBuffer.Valid ⟨[10, 11], 2, 0, 1, 2, none⟩ :=
    ⟨fun _ hm => (by cases hm), by decide, by decide, by decide⟩
  ⟨h, (hexString_iff h []).1⟩

/-- The second of two bytes remains, and the first one is printed. -/
theorem toHexString_positioned :
    parcBufferToHexString (some ⟨[10, 11], 2, 0, 1, 2, none⟩) = pure (literal "0A") ∧
      PARCBuffer.remainingBytes ⟨[10, 11], 2, 0, 1, 2, none⟩ = [11] ∧
      parcBufferParseHexString (literal "zz") = pure (some ⟨[255, 0], 2, 0, 1, 2, none⟩) := by
  refine ⟨rfl, rfl, rfl⟩

/-! ## Numbers -/

def isdigit (c : UInt8) : Bool := 48 ≤ c && c ≤ 57

def isxdigit (c : UInt8) : Bool := isdigit c || 65 ≤ c && c ≤ 70 || 97 ≤ c && c ≤ 102

def digittoint (digit : UInt8) : Int :=
  if digit - 48 < 10 then (digit - 48).toNat
  else if digit - 97 < 6 then (digit - 97).toNat + 10
  else if digit - 65 < 6 then (digit - 65).toNat + 10
  else -1

/-- An `int` after `i++`, as it is compared with a `size_t`. -/
def nextInt (i : Nat) : Nat := if i + 1 < 2 ^ 31 then i + 1 else 2 ^ 64 - 2 ^ 31

/-- `bytes[i]`, which is a fault at the limit and beyond. -/
def byteAt (bytes : List UInt8) (i : Nat) : Prog UInt8 :=
  if i < parcBufferRemaining buffer then pure (bytes.getD i 0) else throw .memoryFault

/-- A turn of the loops over `i`, with the count of the digits and their value. -/
def digitsBody (base : UInt64) (isDigit : UInt8 → Bool) (buffer : PARCBuffer) (bytes : List UInt8) :
    Nat × Nat × UInt64 → Prog (Nat × Nat × UInt64 ⊕ Nat × UInt64)
  | (i, count, result) =>
    if i < parcBufferRemaining buffer then do
      let c ← byteAt buffer bytes i
      if isDigit c then
        pure (.inl (nextInt i, (count + 1) % 2 ^ 32, result * base + ofInt (digittoint c)))
      else pure (.inr (count, result))
    else pure (.inr (count, result))

def startsWith0x (bytes : List UInt8) : Prog Bool :=
  if parcBufferRemaining buffer > 2 then do
    if (← byteAt buffer bytes 0) = '0'.toUInt8 then
      pure ((← byteAt buffer bytes 1) = 'x'.toUInt8)
    else pure false
  else pure false

def parcBufferParseHexNumber : Prog (UInt64 × PARCBuffer) := do
  let (bytes, buffer) ← parcBufferOverlay buffer 0
  let start := if ← startsWith0x buffer bytes then 2 else 0
  let (count, result) ← loop (digitsBody 16 isxdigit buffer bytes) (start, 0, 0)
  let buffer ← parcBufferSetPosition buffer (buffer.position + start + count)
  pure (result, buffer)

def parcBufferParseDecimalNumber : Prog (UInt64 × PARCBuffer) := do
  let (bytes, buffer) ← parcBufferOverlay buffer 0
  let (count, result) ← loop (digitsBody 10 isdigit buffer bytes) (0, 0, 0)
  let buffer ← parcBufferSetPosition buffer (buffer.position + count)
  pure (result, buffer)

def parcBufferParseNumeric : Prog (UInt64 × PARCBuffer) := do
  let (bytes, buffer) ← parcBufferOverlay buffer 0
  if ← startsWith0x buffer bytes then parcBufferParseHexNumber buffer
  else parcBufferParseDecimalNumber buffer

end

/-- The value of digits in a base, after `value`. -/
def numeral (base value : Nat) (digits : List UInt8) : Nat :=
  digits.foldl (fun value c => value * base + (fromHexDigit c).toNat) value

section
variable {b : PARCBuffer} {s : List UInt8} {c : UInt8} {i : Nat}

theorem digittoint_eq (c : UInt8) (hc : isxdigit c) : digittoint c = (fromHexDigit c).toNat := by
  have ha : ∀ i : Fin 256, isxdigit (UInt8.ofNat i) →
      digittoint (UInt8.ofNat i) = (fromHexDigit (UInt8.ofNat i)).toNat := by decide +kernel
  have hb := ha ⟨c.toNat, c.toNat_lt⟩
  rw [UInt8.ofNat_toNat] at hb
  exact hb hc

section
variable (h : b.Valid)
include h

theorem byteAt_spec (hs : b.remainingBytes.drop i = c :: s) :
    i < parcBufferRemaining b ∧ byteAt b (b.array.drop (effectivePosition b)) i = pure c := by
  have hg : b.remainingBytes[i]? = some c := by
    rw [← head?_drop, hs, head?_cons]
  have hlt : i < parcBufferRemaining b := by
    rw [← length_remainingBytes h]
    exact (List.getElem?_eq_some_iff.mp hg).1
  rw [← take_drop_eq_remainingBytes h, getElem?_take_of_lt hlt] at hg
  rw [byteAt, if_pos hlt, getD, hg]
  exact ⟨hlt, rfl⟩

theorem startsWith0x_spec :
    startsWith0x b (b.array.drop (effectivePosition b)) =
      pure (decide (2 < b.remainingBytes.length ∧ b.remainingBytes.take 2 = literal "0x")) := by
  have hl := length_remainingBytes h
  unfold startsWith0x
  split_ifs with hm
  · match hs : b.remainingBytes with
    | c :: d :: s =>
      obtain ⟨-, hc⟩ := byteAt_spec h (i := 0) hs
      obtain ⟨-, hd⟩ := byteAt_spec h (i := 1) (congrArg (drop 1) hs)
      rw [hs, length_cons, length_cons] at hl
      have hma : 2 < s.length + 1 + 1 := by omega
      by_cases h0 : c = '0'.toUInt8
      · simp [hc, hd, literal, hma, h0]
      · simp [hc, literal, h0]
    | [_] | [] =>
      rw [hs] at hl
      simp at hl
      omega
  · rw [decide_eq_false (by omega)]

theorem digits_loop (hl : parcBufferRemaining b < 2 ^ 31) {isDigit}
    (hd : ∀ c, isDigit c → isxdigit c) (base v : Nat) {n} (hco : n ≤ i)
    (hs : b.remainingBytes.drop i = s) :
    loop (digitsBody (ofNat base) isDigit b (b.array.drop (effectivePosition b)))
        (i, n, ofNat v) = pure (n + (s.takeWhile isDigit).length,
        ofNat (numeral base v (s.takeWhile isDigit))) := by
  induction s generalizing i n v with
  | nil =>
    have hi : ¬ i < parcBufferRemaining b := by
      rw [← length_remainingBytes h]
      exact Nat.not_lt_of_le (drop_eq_nil_iff.mp hs)
    exact loop_done (by rw [digitsBody, if_neg hi]; rfl)
  | cons c s ih =>
    obtain ⟨hi, hb⟩ := byteAt_spec h hs
    cases hc : isDigit c with
    | false =>
      rw [takeWhile_cons_of_neg (by rw [hc]; decide)]
      refine loop_done ?_
      simp only [digitsBody, if_pos hi, hb, pure_bind, hc]
      rfl
    | true =>
      have hv : ofInt (fromHexDigit c).toNat = ofNat (fromHexDigit c).toNat := by
        have := (fromHexDigit c).toNat_lt
        exact congrArg ofNat (by omega)
      have ht : digitsBody (ofNat base) isDigit b (b.array.drop (effectivePosition b))
          (i, n, ofNat v) = pure (.inl (i + 1, n + 1,
            ofNat (v * base + (fromHexDigit c).toNat))) := by
        simp only [digitsBody, if_pos hi, hb, pure_bind, hc, if_true, nextInt,
          digittoint_eq c (hd c hc)]
        rw [if_pos (by omega), Nat.mod_eq_of_lt (by omega), ofNat_add, ofNat_mul, hv]
      have hr : b.remainingBytes.drop (i + 1) = s := by
        rw [← drop_drop, hs, drop_one, tail_cons]
      rw [loop_next ht, ih _ (Nat.succ_le_succ hco) hr, takeWhile_cons_of_pos hc,
        length_cons, ← Nat.succ_add_eq_add_succ]
      rfl

theorem setPosition_advance {n} (hn : n ≤ b.remainingBytes.length) :
    parcBufferSetPosition b (b.position + n) = pure (b.advance n) := by
  have hm : b.mark.filter (· ≤ b.position + n) = b.mark := filter_mark (h.advance hn)
  have hle : b.position + n ≤ b.limit := (h.advance hn).position_le
  rw [setPosition_of_le hle, hm, PARCBuffer.advance]

theorem parse_digits (hl : parcBufferRemaining b < 2 ^ 31)
    {isDigit} (hd : ∀ c, isDigit c → isxdigit c) (base start : Nat)
    (hs : start ≤ b.remainingBytes.length) :
    (do let (count, result) ← loop (digitsBody (ofNat base) isDigit b
          (b.array.drop (effectivePosition b))) (start, 0, 0)
        let buffer ← parcBufferSetPosition b (b.position + start + count)
        pure (result, buffer)) =
      (let digits := (b.remainingBytes.drop start).takeWhile isDigit
      pure (ofNat (numeral base 0 digits), b.advance (start + digits.length))) := by
  have hlo := digits_loop h hl hd base 0 (Nat.zero_le start) rfl
  have hdi := (takeWhile_sublist isDigit (l := b.remainingBytes.drop start)).length_le
  rw [length_drop] at hdi
  have hle : start + ((b.remainingBytes.drop start).takeWhile isDigit).length ≤
      b.remainingBytes.length := by omega
  rw [show (0 : UInt64) = ofNat 0 from rfl, hlo, pure_bind]
  simp only [Nat.zero_add, Nat.add_assoc, setPosition_advance h hle, pure_bind]

end

/-- **Numbers are read to their end**: the digits after `0x` are hexadecimal if
any byte follows these two, and otherwise the digits are decimal. -/
theorem parseNumeric_spec (h : b.Valid) (hpos : 0 < parcBufferRemaining b)
    (hlen : parcBufferRemaining b < 2 ^ 31) :
    parcBufferParseNumeric b =
      if 2 < b.remainingBytes.length ∧ b.remainingBytes.take 2 = literal "0x" then
        let digits := (b.remainingBytes.drop 2).takeWhile isxdigit
        pure (ofNat (numeral 16 0 digits), b.advance (2 + digits.length))
      else
        let digits := b.remainingBytes.takeWhile isdigit
        pure (ofNat (numeral 10 0 digits), b.advance digits.length) := by
  have hs := startsWith0x_spec h
  rw [parcBufferParseNumeric, overlay_zero h hpos, pure_bind]
  simp only [hs, pure_bind, decide_eq_true_eq]
  split_ifs with hx
  · rw [parcBufferParseHexNumber, overlay_zero h hpos, pure_bind]
    simp only [hs, pure_bind, decide_eq_true hx]
    exact parse_digits h hlen (fun _ => id) 16 2 hx.1.le
  · rw [parcBufferParseDecimalNumber, overlay_zero h hpos, pure_bind]
    have hd : ∀ c, isdigit c → isxdigit c := fun c hc => by simp [isxdigit, hc]
    have hp := parse_digits h hlen hd 10 0 (Nat.zero_le _)
    simp only [Nat.zero_add, Nat.add_zero, List.drop_zero] at hp
    exact hp

end

theorem parseNumeric_hex : PARCBuffer.Valid ⟨literal "0x1F,", 5, 0, 0, 5, none⟩ ∧
    parcBufferParseNumeric ⟨literal "0x1F,", 5, 0, 0, 5, none⟩ =
      pure (31, ⟨literal "0x1F,", 5, 0, 4, 5, none⟩) :=
  have h : PARCBuffer.Valid ⟨literal "0x1F,", 5, 0, 0, 5, none⟩ :=
    ⟨fun _ hm => (by cases hm), by decide, by decide, by decide⟩
  ⟨h, (parseNumeric_spec h (by decide) (by decide)).trans rfl⟩

end Libparc.Buffer
