import Libparc.Algol.Buffer
import Libparc.BigEndian

/-! # Words and byte arrays in a buffer

`parcBuffer_PutUint16`, `32` and `64` write the bytes of a word, the most
significant first, and the `Get` functions read them back. -/
namespace Libparc.Buffer
open BigEndian List

/-- What is available is a difference of `size_t`, and the copy is a `memcpy`. -/
def parcByteArrayGetBytes (array : List UInt8) (offset length : Nat) : Prog (List UInt8) := do
  let available := if offset ≤ array.length then array.length - offset
    else array.length + 2 ^ 64 - offset
  trapOutOfBoundsIf (length > available)
    s!"parcByteArray_CopyOut {available} available bytes, {length} required"
  if offset + length ≤ array.length then pure ((array.drop offset).take length)
  else throw .memoryFault

section
variable (buffer : PARCBuffer)

def parcBufferGetBytes (length : Nat) : Prog (List UInt8 × PARCBuffer) := do
  trapIfBufferUnderflow buffer length
  let array ← parcByteArrayGetBytes buffer.array (effectivePosition buffer) length
  pure (array, { buffer with position := buffer.position + length })

def parcBufferGetUint16 : Prog (UInt16 × PARCBuffer) := do
  let (high, buffer) ← parcBufferGetUint8 buffer
  let (low, buffer) ← parcBufferGetUint8 buffer
  pure (high.toUInt16 <<< 8 ||| low.toUInt16, buffer)

/-- The loop of `parcBuffer_GetUint32` and `64`: as many bytes, each taken into
the result by `shift`. -/
def getLoop {α : Type} (shift : α → UInt8 → α) : Nat → α → PARCBuffer → Prog (α × PARCBuffer)
  | 0, result, buffer => pure (result, buffer)
  | size + 1, result, buffer => do
    let (byte, buffer) ← parcBufferGetUint8 buffer
    getLoop shift size (shift result byte) buffer

def parcBufferGetUint32 : Prog (UInt32 × PARCBuffer) :=
  getLoop (fun result byte => result <<< 8 ||| byte.toUInt32) 4 0 buffer

def parcBufferGetUint64 : Prog (UInt64 × PARCBuffer) :=
  getLoop (fun result byte => result <<< 8 ||| byte.toUInt64) 8 0 buffer

def parcBufferPutUint16 (value : UInt16) : Prog PARCBuffer := do
  assertTrue (parcBufferRemaining buffer ≥ 2) "Buffer overflow"
  let buffer ← parcBufferPutUint8 buffer ((value >>> 8) &&& 0xFF).toUInt8
  parcBufferPutUint8 buffer (value &&& 0xFF).toUInt8

/-- The loop of `parcBuffer_PutUint32` and `64`: the bytes `i` to 1 of a word. -/
def putLoop (byteAt : Nat → UInt8) : Nat → PARCBuffer → Prog PARCBuffer
  | 0, buffer => pure buffer
  | i + 1, buffer => do
    let buffer ← parcBufferPutUint8 buffer (byteAt (i + 1))
    putLoop byteAt i buffer

/-- A word of `size` bytes, whose last byte is not put by the loop. -/
def putWord (size : Nat) (byteAt : Nat → UInt8) (last : UInt8) (buffer : PARCBuffer) :
    Prog PARCBuffer := do
  assertTrue (parcBufferRemaining buffer ≥ size) "Buffer overflow"
  let buffer ← putLoop byteAt (size - 1) buffer
  parcBufferPutUint8 buffer last

def parcBufferPutUint32 (value : UInt32) : Prog PARCBuffer :=
  putWord 4 (fun i => (value >>> UInt32.ofNat (i * 8) &&& 0xFF).toUInt8) (value &&& 0xFF).toUInt8
    buffer

def parcBufferPutUint64 (value : UInt64) : Prog PARCBuffer :=
  putWord 8 (fun i => (value >>> UInt64.ofNat (i * 8) &&& 0xFF).toUInt8) (value &&& 0xFF).toUInt8
    buffer

end

/-! ## Reading -/

section
variable {b : PARCBuffer} {bs rest : List UInt8}

theorem remainingBytes_advance_append (hs : b.remainingBytes = bs ++ rest) :
    (b.advance bs.length).remainingBytes = rest := by
  rw [remainingBytes_advance, hs, drop_left]

section
variable (h : b.Valid) (hs : b.remainingBytes = bs ++ rest)
include h hs

theorem PARCBuffer.Valid.advance_append : (b.advance bs.length).Valid :=
  h.advance (by rw [hs, length_append]; exact Nat.le_add_right _ _)

theorem getBytes_spec : parcBufferGetBytes b bs.length = pure (bs, b.advance bs.length) := by
  have hl := length_remainingBytes h
  rw [hs, length_append] at hl
  have hr := hl
  rw [h.remaining] at hr
  have := h.position_le
  have := h.limit_le
  have := h.capacity_le
  have hb : effectivePosition b + bs.length ≤ b.array.length := by
    rw [effectivePosition]
    omega
  have ht : (b.array.drop (effectivePosition b)).take bs.length = bs := by
    rw [take_array h (by omega), hs, take_left]
  rw [parcBufferGetBytes, trapIfBufferUnderflow, trapIfIndexExceedsLimit,
    trapOutOfBoundsIf_of_not (by omega), pure_bind, parcByteArrayGetBytes]
  simp only [if_pos (Nat.le_of_add_right_le hb)]
  rw [trapOutOfBoundsIf_of_not (by omega)]
  simp only [pure_bind, if_pos hb, ht, PARCBuffer.advance]

end

theorem getLoop_spec {α : Type} (shift : α → UInt8 → α) (bs : List UInt8) (r : α)
    {b} (h : b.Valid) (hs : b.remainingBytes = bs ++ rest) :
    getLoop shift bs.length r b = pure (bs.foldl shift r, b.advance bs.length) := by
  induction bs generalizing b r with
  | nil => rfl
  | cons byte bs ih =>
    have hs1 : (b.advance 1).remainingBytes = bs ++ rest := by
      rw [remainingBytes_advance, hs]
      rfl
    have hr := ih (shift r byte) (h.advance (by rw [hs, cons_append, length_cons]; omega)) hs1
    rw [length_cons, getLoop, getUint8_spec h hs, pure_bind]
    simp only [hr, advance_advance, Nat.add_comm 1, foldl_cons]

theorem getUint16_spec {value} (h : b.Valid) (hs : b.remainingBytes = split 2 value.toNat ++ rest) :
    parcBufferGetUint16 b = pure (value, b.advance 2) := by
  have hg := getUint8_spec h (show b.remainingBytes = UInt8.ofNat (value.toNat / 256 ^ 1) ::
    UInt8.ofNat (value.toNat / 256 ^ 0) :: rest from hs)
  have hg1 := getUint8_spec (h.advance (by rw [hs]; simp [split]))
    (show (b.advance 1).remainingBytes = UInt8.ofNat (value.toNat / 256 ^ 0) :: rest by
      rw [remainingBytes_advance, hs]; rfl)
  simp only [parcBufferGetUint16, hg, hg1, pure_bind, advance_advance]
  congr 2
  -- the two bytes are read as by the loop of the longer words
  have hl : (split 2 value.toNat).foldl
      (fun (r : UInt16) byte => r <<< 8 ||| byte.toUInt16) 0 = value := by
    rw [← UInt16.toNat_inj]
    refine toNat_foldl_split (w := 16) UInt16.toNat _ (fun v byte => ?_) rfl rfl value.toNat_lt
    rw [← shiftLeft_or (by decide) byte.toNat_lt]
    simp
  have hz : ∀ x : UInt16, (0 : UInt16) <<< 8 ||| x = x := by simp
  simpa only [split, foldl_cons, foldl_nil, hz] using hl

theorem getUint32_spec {x} (h : b.Valid) (hs : b.remainingBytes = split 4 x.toNat ++ rest) :
    parcBufferGetUint32 b = pure (x, b.advance 4) := by
  have hg := getLoop_spec (fun (r : UInt32) byte => r <<< 8 ||| byte.toUInt32)
    _ 0 h hs
  rw [length_split] at hg
  rw [parcBufferGetUint32, hg]
  congr 2
  rw [← UInt32.toNat_inj]
  refine toNat_foldl_split (w := 32) UInt32.toNat _ (fun v byte => ?_) rfl rfl x.toNat_lt
  rw [← shiftLeft_or (by decide) byte.toNat_lt]
  simp

theorem getUint64_spec {x} (h : b.Valid) (hs : b.remainingBytes = split 8 x.toNat ++ rest) :
    parcBufferGetUint64 b = pure (x, b.advance 8) := by
  have hg := getLoop_spec (fun (r : UInt64) byte => r <<< 8 ||| byte.toUInt64)
    _ 0 h hs
  rw [length_split] at hg
  rw [parcBufferGetUint64, hg]
  congr 2
  rw [← UInt64.toNat_inj]
  refine toNat_foldl_split (w := 64) UInt64.toNat _ (fun v byte => ?_) rfl rfl x.toNat_lt
  rw [← shiftLeft_or (by decide) byte.toNat_lt]
  simp

end

/-! ## Writing -/

variable {b : PARCBuffer}

theorem Wrote.refl (h : b.Valid) : Wrote b [] b := ⟨h, (append_nil _).symm, rfl, rfl, rfl, id⟩

theorem Wrote.trans {b1 b2 bytes bs'} (h : Wrote b bytes b1)
    (h' : Wrote b1 bs' b2) : Wrote b (bytes ++ bs') b2 :=
  ⟨h'.valid, by rw [h'.written, h.written, append_assoc], h'.limit.trans h.limit,
    h'.capacity.trans h.capacity,
    by rw [h'.position, h.position, length_append, Nat.add_assoc], fun hm => h'.mark (h.mark hm)⟩

theorem Wrote.remaining {b1 bytes} (h : Wrote b bytes b1) :
    parcBufferRemaining b1 = parcBufferRemaining b - bytes.length := by
  have hp := h.valid.position_le
  rw [h.limit, h.position] at hp
  rw [h.valid.remaining, parcBufferRemaining, if_pos (Nat.le_of_add_right_le hp), h.limit,
    h.position, Nat.sub_add_eq]

theorem putLoop_spec (byteAt : Nat → UInt8) (i : Nat) {b} (h : b.Valid)
    (hr : i ≤ parcBufferRemaining b) :
    ∃ b', putLoop byteAt i b = pure b' ∧
      Wrote b ((range i).reverse.map fun j => byteAt (j + 1)) b' := by
  induction i generalizing b with
  | zero => exact ⟨b, rfl, .refl h⟩
  | succ i ih =>
    obtain ⟨b1, hp, h1⟩ := putUint8_spec h (by omega) (byteAt (i + 1))
    obtain ⟨b', hl, h'⟩ := ih h1.valid (by rw [h1.remaining]; simp; omega)
    refine ⟨b', ?_, ?_⟩
    · rw [putLoop, hp, pure_bind, hl]
    · rw [range_succ, reverse_append]
      exact h1.trans h'

theorem putWord_spec {size} (byteAt : Nat → UInt8) (last : UInt8) (h : b.Valid)
    (hs : 0 < size) (hr : size ≤ parcBufferRemaining b) :
    ∃ b', putWord size byteAt last b = pure b' ∧
      Wrote b (((range (size - 1)).reverse.map fun j => byteAt (j + 1)) ++ [last]) b' := by
  obtain ⟨b1, hl, h1⟩ := putLoop_spec byteAt (size - 1) h (by omega)
  obtain ⟨b', hp, h'⟩ := putUint8_spec h1.valid (by rw [h1.remaining]; simp; omega) last
  refine ⟨b', ?_, h1.trans h'⟩
  rw [putWord, assertTrue_of (decide_eq_true hr), pure_bind, hl, pure_bind, hp]

theorem byteAt_uint16 (v : UInt16) {i} (hi : i < 2) :
    (v >>> UInt16.ofNat (i * 8) &&& 0xFF).toUInt8 = UInt8.ofNat (v.toNat / 256 ^ i) := by
  have hm : i * 8 % 2 ^ 16 % 16 = i * 8 := by omega
  rw [← UInt8.toNat_inj, UInt8.toNat_ofNat', ← shiftRight_and]
  simp only [UInt16.toNat_toUInt8, UInt16.toNat_and, UInt16.toNat_shiftRight, UInt16.toNat_ofNat',
    hm]
  rfl

theorem byteAt_uint32 (v : UInt32) {i} (hi : i < 4) :
    (v >>> UInt32.ofNat (i * 8) &&& 0xFF).toUInt8 = UInt8.ofNat (v.toNat / 256 ^ i) := by
  have hm : i * 8 % 2 ^ 32 % 32 = i * 8 := by omega
  rw [← UInt8.toNat_inj, UInt8.toNat_ofNat', ← shiftRight_and]
  simp only [UInt32.toNat_toUInt8, UInt32.toNat_and, UInt32.toNat_shiftRight, UInt32.toNat_ofNat',
    hm]
  rfl

theorem byteAt_uint64 (v : UInt64) {i} (hi : i < 8) :
    (v >>> UInt64.ofNat (i * 8) &&& 0xFF).toUInt8 = UInt8.ofNat (v.toNat / 256 ^ i) := by
  have hm : i * 8 % 2 ^ 64 % 64 = i * 8 := by omega
  rw [← UInt8.toNat_inj, UInt8.toNat_ofNat', ← shiftRight_and]
  simp only [UInt64.toNat_toUInt8, UInt64.toNat_and, UInt64.toNat_shiftRight, UInt64.toNat_ofNat',
    hm]
  rfl

theorem bytes_eq_split {byteAt : Nat → UInt8} {last v} (n : Nat)
    (hb : ∀ i ≤ n, byteAt i = UInt8.ofNat (v / 256 ^ i)) (hl : last = byteAt 0) :
    ((range n).reverse.map fun j => byteAt (j + 1)) ++ [last] = split (n + 1) v := by
  induction n with
  | zero => rw [hl, hb 0 (Nat.le_refl _)]; rfl
  | succ n ih =>
    rw [split, ← ih fun i hi => hb i (Nat.le_succ_of_le hi), ← hb (n + 1) (Nat.le_refl _),
      range_succ, reverse_append]
    rfl

theorem putUint16_spec (h : b.Valid) (hr : 2 ≤ parcBufferRemaining b) (v : UInt16) :
    ∃ b', parcBufferPutUint16 b v = pure b' ∧ Wrote b (split 2 v.toNat) b' := by
  obtain ⟨b1, hp1, h1⟩ := putUint8_spec h (by omega) ((v >>> 8) &&& 0xFF).toUInt8
  obtain ⟨b', hp, h'⟩ := putUint8_spec h1.valid (by rw [h1.remaining]; simp; omega)
    (v &&& 0xFF).toUInt8
  refine ⟨b', ?_, ?_⟩
  · rw [parcBufferPutUint16, assertTrue_of (decide_eq_true hr), pure_bind, hp1, pure_bind, hp]
  · have hh := byteAt_uint16 v (show 1 < 2 by decide)
    have hl : (v &&& 0xFF).toUInt8 = UInt8.ofNat (v.toNat / 256 ^ 0) := by
      rw [← byteAt_uint16 v (show 0 < 2 by decide)]
      simp
    rw [split, split, split, ← hh, ← hl]
    exact h1.trans h'

theorem putUint32_spec (h : b.Valid) (hr : 4 ≤ parcBufferRemaining b) (v : UInt32) :
    ∃ b', parcBufferPutUint32 b v = pure b' ∧ Wrote b (split 4 v.toNat) b' := by
  obtain ⟨b', hp, h'⟩ := putWord_spec
    (fun i => (v >>> UInt32.ofNat (i * 8) &&& 0xFF).toUInt8) (v &&& 0xFF).toUInt8 h (by decide) hr
  refine ⟨b', hp, ?_⟩
  have hl : (v &&& 0xFF).toUInt8 = (v >>> UInt32.ofNat (0 * 8) &&& 0xFF).toUInt8 := by
    simp
  rw [← bytes_eq_split 3 (fun i hi => byteAt_uint32 v (by omega)) hl]
  exact h'

theorem putUint64_spec (h : b.Valid) (hr : 8 ≤ parcBufferRemaining b) (v : UInt64) :
    ∃ b', parcBufferPutUint64 b v = pure b' ∧ Wrote b (split 8 v.toNat) b' := by
  obtain ⟨b', hp, h'⟩ := putWord_spec
    (fun i => (v >>> UInt64.ofNat (i * 8) &&& 0xFF).toUInt8) (v &&& 0xFF).toUInt8 h (by decide) hr
  refine ⟨b', hp, ?_⟩
  have hl : (v &&& 0xFF).toUInt8 = (v >>> UInt64.ofNat (0 * 8) &&& 0xFF).toUInt8 := by
    simp
  rw [← bytes_eq_split 7 (fun i hi => byteAt_uint64 v (by omega)) hl]
  exact h'

end Libparc.Buffer
