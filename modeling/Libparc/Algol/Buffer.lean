import Libparc.Compare
import Libparc.Runtime
import Libparc.Algol.HashCode

/-! # parc_ByteArray and parc_Buffer

A buffer is a window of `capacity` bytes, from `arrayOffset` on, in a byte
array; its position and limit are indices in the window. A buffer is a value
here, so two buffers never share their array. The optional validity assertions
are compiled out; allocation is taken to succeed.

What is before the position is what was written (`written`), what lies between
the position and the limit is still to be read (`remainingBytes`): the
operations are specified by these two. -/
namespace Libparc.Buffer
open HashCode List

/-! ## Byte arrays -/

def parcByteArrayGetByte (array : List UInt8) (index : Nat) : Prog UInt8 :=
  let length := array.length
  match array[index]? with
  | some byte => pure byte
  | none => throw (.outOfBounds s!"parcByteArray index {index} exceeds the length {length}")

def parcByteArrayPutByte (array : List UInt8) (index : Nat) (byte : UInt8) :
    Prog (List UInt8) := do
  let length := array.length
  trapOutOfBoundsIf (index ≥ length)
    s!"parcByteArray index {index} exceeds the length {length}"
  pure (array.set index byte)

/-- The array after a `memcpy` to `offset`. -/
def overwrite (array : List UInt8) (offset : Nat) (source : List UInt8) : List UInt8 :=
  array.take offset ++ source ++ array.drop (offset + source.length)

def parcByteArrayPutBytes (array : List UInt8) (offset : Nat) (source : List UInt8) :
    Prog (List UInt8) := do
  let length := array.length
  trapOutOfBoundsIf (offset > length)
    s!"The offset ({offset}) exeeds the length ({length}) of the PARCByteArray."
  let available := length - offset
  let required := source.length
  trapOutOfBoundsIf (required > available) s!"{available} available bytes, {required} required."
  pure (overwrite array offset source)

/-- `parcByteArray_ArrayCopy` checks no bounds. -/
def parcByteArrayArrayCopy (destination : List UInt8) (destOffset : Nat) (source : List UInt8)
    (srcOffset length : Nat) : Prog (List UInt8) :=
  if destOffset + length ≤ destination.length ∧ srcOffset + length ≤ source.length then
    pure (overwrite destination destOffset ((source.drop srcOffset).take length))
  else throw .memoryFault

/-! ## Buffers -/

/-- `struct parc_buffer`; a discarded mark is `none`. -/
structure PARCBuffer where
  array : List UInt8
  capacity : Nat
  arrayOffset : Nat
  position : Nat
  limit : Nat
  mark : Option Nat
  deriving DecidableEq, Repr

section
variable (buffer : PARCBuffer)

def trapIfIndexExceedsLimit (index : Nat) : Prog Unit :=
  let limit := buffer.limit
  trapOutOfBoundsIf (index > limit)
    s!"PARCBuffer limit at {limit}, attempted to access at {index}"

/-- The sum is one of `size_t`. -/
def trapIfBufferUnderflow (requiredRemaining : Nat) : Prog Unit :=
  trapIfIndexExceedsLimit buffer ((buffer.position + requiredRemaining) % 2 ^ 64)

def effectiveIndex (index : Nat) : Nat := buffer.arrayOffset + index

def effectivePosition : Nat := buffer.arrayOffset + buffer.position

/-- The difference is one of `size_t`. -/
def parcBufferRemaining : Nat :=
  if buffer.position ≤ buffer.limit then buffer.limit - buffer.position
  else buffer.limit + 2 ^ 64 - buffer.position

def parcBufferAllocate (capacity : Nat) : PARCBuffer :=
  ⟨List.replicate capacity 0, capacity, 0, 0, capacity, none⟩

def parcBufferWrap (array : List UInt8) (position limit : Nat) : Option PARCBuffer :=
  if limit > array.length then none else some ⟨array, array.length, 0, position, limit, none⟩

/-- The number of characters in front of the NUL byte. -/
def strlen (string : List UInt8) : Nat := (string.takeWhile (· ≠ 0)).length

def parcBufferWrapCString (string : List UInt8) : Option PARCBuffer :=
  let length := strlen string
  parcBufferWrap (string.take length) 0 length

def parcBufferSetPosition (newPosition : Nat) : Prog PARCBuffer := do
  assertTrue (¬ newPosition > buffer.limit) "new position cannot be greater the buffer's limit"
  pure { buffer with position := newPosition, mark := buffer.mark.filter (· ≤ newPosition) }

def parcBufferRewind : PARCBuffer :=
  { buffer with position := 0, mark := none }

def parcBufferFlip : PARCBuffer :=
  { buffer with position := 0, limit := buffer.position }

def parcBufferGetAtIndex (index : Nat) : Prog UInt8 := do
  trapIfIndexExceedsLimit buffer index
  parcByteArrayGetByte buffer.array (effectiveIndex buffer index)

def parcBufferPeekByte : Prog UInt8 :=
  parcBufferGetAtIndex buffer buffer.position

def parcBufferGetUint8 : Prog (UInt8 × PARCBuffer) := do
  trapIfBufferUnderflow buffer 1
  let result ← parcByteArrayGetByte buffer.array (effectivePosition buffer)
  pure (result, { buffer with position := buffer.position + 1 })

def parcBufferPutUint8 (value : UInt8) : Prog PARCBuffer := do
  assertTrue (parcBufferRemaining buffer ≥ 1) "Buffer overflow"
  let array ← parcByteArrayPutByte buffer.array (effectivePosition buffer) value
  pure { buffer with array, position := buffer.position + 1 }

def parcBufferPutArray (array : List UInt8) : Prog PARCBuffer := do
  assertTrue (parcBufferRemaining buffer ≥ array.length) "Buffer overflow"
  let bytes ← parcByteArrayPutBytes buffer.array (effectivePosition buffer) array
  parcBufferSetPosition { buffer with array := bytes } (buffer.position + array.length)

def parcBufferPutBuffer (result buffer : PARCBuffer) : Prog PARCBuffer := do
  let remaining := parcBufferRemaining result
  let length := parcBufferRemaining buffer
  assertTrue (remaining ≥ length)
    s!"Buffer overflow. {remaining} bytes remaining, {length} required."
  let bytes ← parcByteArrayArrayCopy result.array (effectivePosition result) buffer.array
    (effectivePosition buffer) length
  parcBufferSetPosition { result with array := bytes } (result.position + length)

/-- The string, with the NUL byte after the limit. -/
def parcBufferAllocateCString (string : List UInt8) : Prog PARCBuffer := do
  let buffer ← parcBufferPutArray (parcBufferAllocate (string.length + 1)) string
  let buffer ← parcBufferPutUint8 buffer 0
  let buffer ← parcBufferSetPosition buffer (buffer.position - 1)
  pure (parcBufferFlip buffer)

/-- A turn of `parcBuffer_SkipOver`. -/
def skipOverBody (bytesToSkipOver : List UInt8) (buffer : PARCBuffer) :
    Prog (PARCBuffer ⊕ PARCBuffer × Bool) :=
  if parcBufferRemaining buffer > 0 then do
    let (character, buffer) ← parcBufferGetUint8 buffer
    if character ∈ bytesToSkipOver then pure (.inl buffer)
    else do
      let buffer ← parcBufferSetPosition buffer (buffer.position - 1)
      pure (.inr (buffer, true))
  else pure (.inr (buffer, false))

def parcBufferSkipOver (bytesToSkipOver : List UInt8) : Prog (PARCBuffer × Bool) :=
  Exec.loop (skipOverBody bytesToSkipOver) buffer

/-- The bytes that `parcBuffer_Overlay` gives access to, and the buffer after it. -/
def parcBufferOverlay (length : Nat) : Prog (List UInt8 × PARCBuffer) := do
  trapIfBufferUnderflow buffer length
  let _ ← parcByteArrayGetByte buffer.array (effectivePosition buffer)
  pure (buffer.array.drop (effectivePosition buffer),
    { buffer with position := buffer.position + length })

/-- The bytes in front of the NUL that `parcBuffer_ToString` puts behind them. -/
def parcBufferToString : Prog (List UInt8) :=
  let remaining := parcBufferRemaining buffer
  if remaining > 0 then do
    let (bytes, _) ← parcBufferOverlay buffer 0
    pure (bytes.take remaining)
  else pure []

def parcBufferHashCode : Prog PARCHashCode :=
  if parcBufferRemaining buffer > 0 then do
    let (memory, buffer) ← parcBufferOverlay buffer 0
    pure (parcHashCodeHash memory (parcBufferRemaining buffer))
  else pure 0

/-- The sign of `memcmp` on the first `count` bytes. -/
def memcmp : List UInt8 → List UInt8 → Nat → Int
  | x :: xs, y :: ys, count + 1 => if x < y then -1 else if y < x then 1 else memcmp xs ys count
  | _, _, _ => 0

def parcBufferCompare (x y : PARCBuffer) : Prog Int := do
  let remainingX := parcBufferRemaining x
  let remainingY := parcBufferRemaining y
  let count := min remainingX remainingY
  let result ← (if count > 0 then do
      let (xs, _) ← parcBufferOverlay x 0
      let (ys, _) ← parcBufferOverlay y 0
      pure (memcmp xs ys count)
    else pure 0 : Prog Int)
  pure (if result = 0 then
    if remainingX > remainingY then 1 else if remainingX < remainingY then -1 else 0
    else result)

def parcBufferEquals (x y : PARCBuffer) : Prog Bool := do
  pure ((← parcBufferCompare x y) == 0)

/-! ## What was written and what is to be read -/

/-- `0 ≤ mark ≤ position ≤ limit ≤ capacity`, in an array that is long enough. -/
structure PARCBuffer.Valid (buffer : PARCBuffer) : Prop where
  mark_le : ∀ m, buffer.mark = some m → m ≤ buffer.position
  position_le : buffer.position ≤ buffer.limit
  limit_le : buffer.limit ≤ buffer.capacity
  capacity_le : buffer.arrayOffset + buffer.capacity ≤ buffer.array.length

/-- The bytes before the position. -/
def PARCBuffer.written : List UInt8 :=
  (buffer.array.take (buffer.arrayOffset + buffer.position)).drop buffer.arrayOffset

/-- The bytes between the position and the limit. -/
def PARCBuffer.remainingBytes : List UInt8 :=
  (buffer.array.take (buffer.arrayOffset + buffer.limit)).drop
    (buffer.arrayOffset + buffer.position)

/-- The buffer read `n` bytes further. -/
def PARCBuffer.advance (n : Nat) : PARCBuffer :=
  { buffer with position := buffer.position + n }

end

variable {b : PARCBuffer} {c : UInt8} {s : List UInt8}

theorem PARCBuffer.Valid.remaining (h : b.Valid) : parcBufferRemaining b = b.limit - b.position :=
  if_pos h.position_le

theorem length_remainingBytes (h : b.Valid) : b.remainingBytes.length = parcBufferRemaining b := by
  have := h.limit_le
  have := h.capacity_le
  simp only [PARCBuffer.remainingBytes, h.remaining, length_drop, length_take]
  omega

theorem length_written (h : b.Valid) : b.written.length = b.position := by
  have := h.position_le
  have := h.limit_le
  have := h.capacity_le
  simp only [PARCBuffer.written, length_drop, length_take]
  omega

theorem remainingBytes_advance (n : Nat) :
    (b.advance n).remainingBytes = b.remainingBytes.drop n := by
  simp only [PARCBuffer.remainingBytes, PARCBuffer.advance, drop_drop]
  rw [Nat.add_assoc]

theorem PARCBuffer.Valid.advance (h : b.Valid) {n} (hn : n ≤ b.remainingBytes.length) :
    (b.advance n).Valid := by
  rw [length_remainingBytes h, h.remaining] at hn
  have := h.position_le
  refine ⟨fun m hm => Nat.le_add_right_of_le (h.mark_le m hm), ?_, h.limit_le, h.capacity_le⟩
  show b.position + n ≤ b.limit
  omega

theorem advance_advance (m n : Nat) : (b.advance m).advance n = b.advance (m + n) := by
  simp only [PARCBuffer.advance, Nat.add_assoc]

@[simp] theorem advance_zero : b.advance 0 = b := rfl

/-! ## Reading -/

section
variable (h : b.Valid) (hs : b.remainingBytes = c :: s)
include h hs

theorem lt_limit_of_cons :
    b.position < b.limit ∧ b.array[b.arrayOffset + b.position]? = some c := by
  have hl := length_remainingBytes h
  rw [hs, length_cons, h.remaining] at hl
  have hlt : b.position < b.limit := by omega
  refine ⟨hlt, ?_⟩
  have hh : b.remainingBytes[0]? = some c := by rw [hs]; rfl
  rw [PARCBuffer.remainingBytes, getElem?_drop, getElem?_take] at hh
  rwa [if_pos (by omega)] at hh

theorem getUint8_spec : parcBufferGetUint8 b = pure (c, b.advance 1) := by
  obtain ⟨hlt, hg⟩ := lt_limit_of_cons h hs
  rw [parcBufferGetUint8, trapIfBufferUnderflow, trapIfIndexExceedsLimit,
    trapOutOfBoundsIf_of_not (by omega), pure_bind, parcByteArrayGetByte, effectivePosition, hg]
  rfl

theorem peekByte_spec : parcBufferPeekByte b = pure c := by
  obtain ⟨hlt, hg⟩ := lt_limit_of_cons h hs
  rw [parcBufferPeekByte, parcBufferGetAtIndex, trapIfIndexExceedsLimit,
    trapOutOfBoundsIf_of_not (by omega), pure_bind, parcByteArrayGetByte, effectiveIndex, hg]

end

theorem setPosition_of_le {newPosition} (h : newPosition ≤ b.limit) :
    parcBufferSetPosition b newPosition = pure
      { b with position := newPosition, mark := b.mark.filter (· ≤ newPosition) } := by
  rw [parcBufferSetPosition, assertTrue_of (decide_eq_true (Nat.not_lt_of_le h)), pure_bind]

theorem filter_mark (h : b.Valid) : b.mark.filter (· ≤ b.position) = b.mark := by
  cases hm : b.mark with
  | none => rfl
  | some m => simp [Option.filter, h.mark_le m hm]

theorem setPosition_back (h : b.Valid) (n : Nat) :
    parcBufferSetPosition (b.advance n) b.position = pure b := by
  refine (setPosition_of_le h.position_le).trans ?_
  simp only [filter_mark h]

theorem skipOver_spec (bs : List UInt8) : ∀ (s : List UInt8) {b}, b.Valid →
    b.remainingBytes = s → parcBufferSkipOver b bs = pure (b.advance (s.takeWhile (· ∈ bs)).length,
      !(s.dropWhile (· ∈ bs)).isEmpty)
  | [], b, h, hs => by
    have hl := length_remainingBytes h
    rw [hs, length_nil] at hl
    exact Exec.loop_done (by simp [skipOverBody, ← hl])
  | c :: s, b, h, hs => by
    have hl := length_remainingBytes h
    rw [hs, length_cons] at hl
    have hb : skipOverBody bs b = if c ∈ bs then pure (.inl (b.advance 1))
        else pure (.inr (b, true)) := by
      have hba : parcBufferSetPosition (b.advance 1) ((b.advance 1).position - 1) = pure b :=
        setPosition_back h 1
      rw [skipOverBody, if_pos (by omega), getUint8_spec h hs, pure_bind]
      simp only [hba, pure_bind]
    by_cases hc : c ∈ bs
    · rw [if_pos hc] at hb
      have hr : (b.advance 1).remainingBytes = s := by
        rw [remainingBytes_advance, hs]
        rfl
      refine (Exec.loop_next hb).trans ?_
      refine (skipOver_spec bs s (h.advance (by simp [hs])) hr).trans ?_
      simp [hc, advance_advance, Nat.add_comm]
    · rw [if_neg hc] at hb
      refine (Exec.loop_done hb).trans ?_
      simp [hc]

/-! ## Writing -/

theorem length_overwrite {a src off} (h : off + src.length ≤ a.length) :
    (overwrite a off src).length = a.length := by
  simp only [overwrite, length_append, length_take, length_drop]
  omega

theorem take_overwrite {a source off} (h : off + source.length ≤ a.length) :
    (overwrite a off source).take (off + source.length) = a.take off ++ source := by
  have hl : (a.take off ++ source).length = off + source.length := by
    rw [length_append, length_take]
    omega
  rw [overwrite, take_append_of_le_length (Nat.le_of_eq hl.symm), ← hl, take_length]

/-- `b'` is `b` with the bytes written to it. -/
structure Wrote (b : PARCBuffer) (bytes : List UInt8) (b' : PARCBuffer) : Prop where
  valid : b'.Valid
  written : b'.written = b.written ++ bytes
  limit : b'.limit = b.limit
  capacity : b'.capacity = b.capacity
  position : b'.position = b.position + bytes.length
  mark : b.mark = none → b'.mark = none

section
variable (h : b.Valid)
include h

theorem wrote_overwrite {bs} (hr : bs.length ≤ parcBufferRemaining b) {mark}
    (hm : ∀ m, mark = some m → m ≤ b.position + bs.length) (hn : b.mark = none → mark = none) :
    Wrote b bs { b with
      array := overwrite b.array (effectivePosition b) bs
      position := b.position + bs.length
      mark } := by
  have := h.position_le
  have := h.limit_le
  have hc := h.capacity_le
  rw [h.remaining] at hr
  have hf : b.arrayOffset + b.position + bs.length ≤ b.array.length := by omega
  refine ⟨⟨hm, ?_, h.limit_le, ?_⟩, ?_, rfl, rfl, rfl, hn⟩
  · show b.position + bs.length ≤ b.limit
    omega
  · show _ ≤ (overwrite b.array (b.arrayOffset + b.position) bs).length
    rw [length_overwrite hf]
    exact hc
  · show ((overwrite b.array (b.arrayOffset + b.position) bs).take
      (b.arrayOffset + (b.position + bs.length))).drop b.arrayOffset = _
    rw [← Nat.add_assoc, take_overwrite hf, drop_append_of_le_length]
    · rfl
    · rw [length_take]
      omega

theorem putUint8_spec (hro : 1 ≤ parcBufferRemaining b) (v : UInt8) :
    ∃ b', parcBufferPutUint8 b v = pure b' ∧ Wrote b [v] b' := by
  have := h.limit_le
  have hc := h.capacity_le
  have hr := hro
  rw [h.remaining] at hr
  refine ⟨_, ?_, wrote_overwrite h (show [v].length ≤ _ from hro)
    (fun m hm => Nat.le_add_right_of_le (h.mark_le m hm)) id⟩
  rw [parcBufferPutUint8, assertTrue_of (decide_eq_true hro), pure_bind, parcByteArrayPutByte,
    trapOutOfBoundsIf_of_not (by rw [effectivePosition]; omega), pure_bind, pure_bind,
    set_eq_take_append_cons_drop, if_pos (by rw [effectivePosition]; omega)]
  simp [overwrite]

theorem setPosition_wrote {bs} (hro : bs.length ≤ parcBufferRemaining b) :
    ∃ b', parcBufferSetPosition { b with array := overwrite b.array (effectivePosition b) bs }
        (b.position + bs.length) = pure b' ∧ Wrote b bs b' := by
  have := h.position_le
  have hr := hro
  rw [h.remaining] at hr
  refine ⟨_, setPosition_of_le (show b.position + bs.length ≤ b.limit by omega),
    wrote_overwrite h hro (fun m hm => ?_) (fun hn => by simp [hn])⟩
  obtain ⟨hm, _⟩ := Option.filter_eq_some_iff.mp hm
  exact Nat.le_add_right_of_le (h.mark_le m hm)

theorem putArray_spec {bs} (hro : bs.length ≤ parcBufferRemaining b) :
    ∃ b', parcBufferPutArray b bs = pure b' ∧ Wrote b bs b' := by
  have := h.position_le
  have := h.limit_le
  have := h.capacity_le
  have hr := hro
  rw [h.remaining] at hr
  obtain ⟨b', hs, hw⟩ := setPosition_wrote h hro
  refine ⟨b', ?_, hw⟩
  rw [parcBufferPutArray, assertTrue_of (decide_eq_true hro), pure_bind, parcByteArrayPutBytes]
  simp only [trapOutOfBoundsIf_of_not (show ¬ effectivePosition b > b.array.length by
      rw [effectivePosition]; omega), trapOutOfBoundsIf_of_not (show
      ¬ bs.length > b.array.length - effectivePosition b by rw [effectivePosition]; omega),
    pure_bind, hs]

theorem take_drop_eq_remainingBytes :
    (b.array.drop (effectivePosition b)).take (parcBufferRemaining b) = b.remainingBytes := by
  have := h.position_le
  rw [PARCBuffer.remainingBytes, take_drop, effectivePosition, h.remaining]
  congr 2
  omega

theorem putBuffer_spec {src} (hs : src.Valid)
    (hro : src.remainingBytes.length ≤ parcBufferRemaining b) :
    ∃ b', parcBufferPutBuffer b src = pure b' ∧ Wrote b src.remainingBytes b' := by
  have hl := length_remainingBytes hs
  have := h.position_le
  have := h.limit_le
  have := h.capacity_le
  have := hs.position_le
  have := hs.limit_le
  have := hs.capacity_le
  obtain ⟨b', hse, hw⟩ := setPosition_wrote h hro
  refine ⟨b', ?_, hw⟩
  rw [hl] at hro hse
  have hr := hro
  have hb : effectivePosition b + parcBufferRemaining src ≤ b.array.length ∧
      effectivePosition src + parcBufferRemaining src ≤ src.array.length := by
    simp only [effectivePosition, h.remaining, hs.remaining] at *
    omega
  simp only [parcBufferPutBuffer, assertTrue_of (decide_eq_true hr), pure_bind,
    parcByteArrayArrayCopy, if_pos hb, take_drop_eq_remainingBytes hs, hse]

end

theorem valid_allocate (cap : Nat) : (parcBufferAllocate cap).Valid :=
  ⟨fun _ hm => (by cases hm), Nat.zero_le _, Nat.le_refl _, by simp [parcBufferAllocate]⟩

theorem PARCBuffer.Valid.flip (h : b.Valid) (hma : b.mark = none) : (parcBufferFlip b).Valid := by
  have := h.position_le
  have := h.limit_le
  refine ⟨fun m hm => ?_, Nat.zero_le _, ?_, h.capacity_le⟩
  · rw [show (parcBufferFlip b).mark = b.mark from rfl, hma] at hm
    cases hm
  · show b.position ≤ b.capacity
    omega

theorem remainingBytes_flip (b : PARCBuffer) : (parcBufferFlip b).remainingBytes = b.written := rfl

theorem written_eq (b : PARCBuffer) : b.written = (b.array.drop b.arrayOffset).take b.position := by
  rw [PARCBuffer.written, drop_take, Nat.add_sub_cancel_left]

theorem allocateCString_spec (string : List UInt8) :
    ∃ b, parcBufferAllocateCString string = pure b ∧ b.Valid ∧ b.remainingBytes = string := by
  have h0 := valid_allocate (string.length + 1)
  obtain ⟨b1, hp1, h1⟩ := putArray_spec h0 (show string.length ≤ string.length + 1 - 0 by omega)
  have hpo1 : b1.position = string.length := h1.position.trans (Nat.zero_add _)
  have hl1 : b1.limit = string.length + 1 := h1.limit
  obtain ⟨b2, hp2, h2⟩ := putUint8_spec h1.valid (by rw [h1.valid.remaining]; omega) 0
  have hpo2 : b2.position = string.length + 1 := by rw [h2.position, hpo1]; rfl
  have hma : b2.mark = none := h2.mark (h1.mark rfl)
  have hw : b2.written = string ++ [0] := by
    rw [h2.written, h1.written]
    rfl
  have := h2.valid.position_le
  have hs : parcBufferSetPosition b2 (b2.position - 1) =
      pure { b2 with position := string.length } := by
    rw [hpo2, Nat.add_sub_cancel, setPosition_of_le (by omega), hma]
    rfl
  refine ⟨_, ?_, PARCBuffer.Valid.flip (b := { b2 with position := string.length }) ?_ hma, ?_⟩
  · simp only [parcBufferAllocateCString, hp1, hp2, hs, pure_bind]
  · refine ⟨fun m hm => ?_, ?_, h2.valid.limit_le, h2.valid.capacity_le⟩
    · rw [show _ = b2.mark from rfl, hma] at hm
      cases hm
    · show string.length ≤ b2.limit
      omega
  · rw [remainingBytes_flip, written_eq]
    rw [written_eq, hpo2] at hw
    have := congrArg (take string.length) hw
    rwa [take_take, Nat.min_eq_left (Nat.le_succ _), take_left] at this

/-! ## Comparing -/

theorem overlay_of {n} (hn : b.position + n ≤ b.limit) (hb : effectivePosition b < b.array.length) :
    parcBufferOverlay b n = pure (b.array.drop (effectivePosition b), b.advance n) := by
  rw [parcBufferOverlay, trapIfBufferUnderflow, trapIfIndexExceedsLimit,
    trapOutOfBoundsIf_of_not (by omega), pure_bind, parcByteArrayGetByte, getElem?_eq_getElem hb]
  rfl

theorem overlay_zero (h : b.Valid) (hp : 0 < parcBufferRemaining b) :
    parcBufferOverlay b 0 = pure (b.array.drop (effectivePosition b), b) := by
  have := h.limit_le
  have := h.capacity_le
  rw [h.remaining] at hp
  exact overlay_of h.position_le (by rw [effectivePosition]; omega)

theorem toString_spec (h : b.Valid) : parcBufferToString b = pure b.remainingBytes := by
  unfold parcBufferToString
  simp only
  split
  · rename_i hp
    rw [overlay_zero h hp, pure_bind]
    exact congrArg pure (take_drop_eq_remainingBytes h)
  · have hl : b.remainingBytes.length = 0 := by
      rw [length_remainingBytes h]
      omega
    rw [length_eq_zero_iff.mp hl]

theorem take_array (h : b.Valid) {n} (hn : n ≤ parcBufferRemaining b) :
    (b.array.drop (effectivePosition b)).take n = b.remainingBytes.take n := by
  rw [← take_drop_eq_remainingBytes h, take_take, Nat.min_eq_left hn]

/-- The hash code of a buffer is one of the bytes that remain. -/
def hashOfBytes (bytes : List UInt8) : PARCHashCode :=
  if bytes = [] then 0 else parcHashCodeHash bytes bytes.length

theorem hashCode_spec (h : b.Valid) :
    parcBufferHashCode b = pure (hashOfBytes b.remainingBytes) := by
  have hl := length_remainingBytes h
  unfold parcBufferHashCode hashOfBytes
  split
  · rename_i hp
    have hne : b.remainingBytes ≠ [] := ne_nil_of_length_pos (by omega)
    have ht := take_array h (Nat.le_refl _)
    rw [overlay_zero h hp, pure_bind, if_neg hne]
    simp only [parcHashCodeHash, parcHashCodeHashImpl, ht, hl]
  · have hn : b.remainingBytes = [] := eq_nil_of_length_eq_zero (by omega)
    rw [if_pos hn]

/-- Bytes are compared without a sign. -/
def byteCompare (x y : UInt8) : Int := if x < y then -1 else if y < x then 1 else 0

theorem byteCompare_neg_iff (x y : UInt8) : byteCompare x y < 0 ↔ x < y := by
  unfold byteCompare
  split_ifs <;> simp_all

theorem byteCompare_pos_iff (x y : UInt8) : 0 < byteCompare x y ↔ y < x := by
  unfold byteCompare
  split_ifs with hlt
  · simpa using UInt8.le_of_lt hlt
  · simpa
  · rename_i hge
    simpa using hge

theorem byteCompare_eq_zero_iff (x y : UInt8) : byteCompare x y = 0 ↔ x = y := by
  have hn := byteCompare_neg_iff x y
  have hp := byteCompare_pos_iff x y
  constructor
  · intro h
    rw [h] at hn hp
    exact UInt8.le_antisymm (UInt8.not_lt.mp (hp.not.mp (lt_irrefl 0)))
      (UInt8.not_lt.mp (hn.not.mp (lt_irrefl 0)))
  · rintro rfl
    simp [byteCompare]

theorem totalCompare_byteCompare : TotalCompare byteCompare where
  neg_iff_swap x y := (byteCompare_neg_iff x y).trans (byteCompare_pos_iff y x).symm
  le_trans x y z hxy hyz := by
    rw [← Int.not_lt, byteCompare_pos_iff, UInt8.not_lt] at hxy hyz ⊢
    exact UInt8.le_trans hxy hyz

theorem memcmp_cons (x y : UInt8) (xs ys : List UInt8) (n : Nat) :
    memcmp (x :: xs) (y :: ys) (n + 1) =
      if byteCompare x y = 0 then memcmp xs ys n else byteCompare x y := by
  rw [memcmp, byteCompare]
  split_ifs <;> simp_all

theorem memcmp_congr : ∀ {count xs ys xs' ys'},
    xs.take count = xs'.take count → ys.take count = ys'.take count →
    memcmp xs ys count = memcmp xs' ys' count
  | 0, _, _, _, _, _, _ | count + 1, [], _, [], _, _, _
  | count + 1, x :: xs, [], x' :: xs', [], _, _ => by simp [memcmp]
  | count + 1, x :: xs, y :: ys, x' :: xs', y' :: ys', hx, hy => by
    rw [take_succ_cons, take_succ_cons, cons.injEq] at hx hy
    rw [memcmp_cons, memcmp_cons, hx.1, hy.1, memcmp_congr hx.2 hy.2]

theorem lexCompare_eq_memcmp (xs ys : List UInt8) :
    lexCompare byteCompare xs ys = if memcmp xs ys (min xs.length ys.length) = 0 then
        if xs.length > ys.length then 1 else if xs.length < ys.length then -1 else 0
      else memcmp xs ys (min xs.length ys.length) := by
  induction xs generalizing ys with
  | nil => cases ys <;> simp [lexCompare, memcmp]
  | cons x xs ih =>
    cases ys with
    | nil => simp [lexCompare, memcmp]
    | cons y ys =>
      rw [lexCompare, length_cons, length_cons, Nat.add_min_add_right, memcmp_cons]
      split
      · rw [ih]
        simp
      · rfl

theorem memcmp_overlay {x y} (hx : x.Valid) (hy : y.Valid) {count}
    (hc : count ≤ min (parcBufferRemaining x) (parcBufferRemaining y)) :
    memcmp (x.array.drop (effectivePosition x)) (y.array.drop (effectivePosition y)) count =
      memcmp x.remainingBytes y.remainingBytes count :=
  memcmp_congr (take_array hx (Nat.le_trans hc (Nat.min_le_left ..)))
    (take_array hy (Nat.le_trans hc (Nat.min_le_right ..)))

theorem compare_eq {x y} (hx : x.Valid) (hy : y.Valid) :
    parcBufferCompare x y = pure (lexCompare byteCompare x.remainingBytes y.remainingBytes) := by
  rw [lexCompare_eq_memcmp, length_remainingBytes hx, length_remainingBytes hy]
  simp only [parcBufferCompare]
  split
  · rw [overlay_zero hx (by omega), overlay_zero hy (by omega), pure_bind, pure_bind, pure_bind,
      memcmp_overlay hx hy (Nat.le_refl _)]
  · have hz : min (parcBufferRemaining x) (parcBufferRemaining y) = 0 := by omega
    simp [hz, memcmp]

theorem equals_spec {x y} (hx : x.Valid) (hy : y.Valid) :
    parcBufferEquals x y = pure (decide (x.remainingBytes = y.remainingBytes)) := by
  rw [parcBufferEquals, compare_eq hx hy, pure_bind]
  congr 1
  rw [Bool.eq_iff_iff, beq_iff_eq, decide_eq_true_eq]
  exact lexCompare_eq_zero_iff byteCompare_eq_zero_iff ..

end Libparc.Buffer
