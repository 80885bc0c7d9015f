import Libparc.Algol.BufferWords

/-! # The position, the limit and the mark of a buffer

Every operation on a buffer checks its own arguments, and most of them leave
`mark ≤ position ≤ limit ≤ capacity` as it was. Two do not: `parcBuffer_Flip`
keeps a mark that is then after the position, and `parcBuffer_SetLimit` looks at
the position only if there is a mark. `Op.Safe` says when these two do no harm. -/
namespace Libparc.Buffer
open Exec List

section
variable (buffer : PARCBuffer)

def parcBufferMark : PARCBuffer := { buffer with mark := some buffer.position }

def parcBufferReset : Prog PARCBuffer :=
  match buffer.mark with
  | some mark => pure { buffer with position := mark }
  | none => throw (.assertion "The mark has not been set")

def parcBufferSetLimit (newLimit : Nat) : Prog PARCBuffer := do
  assertTrue (newLimit ≤ buffer.capacity) "new limit cannot be larger than the capacity"
  match buffer.mark with
  | none => pure { buffer with limit := newLimit }
  | some mark => pure { buffer with
      position := if newLimit < buffer.position then newLimit else buffer.position
      mark := if newLimit < mark then none else some mark
      limit := newLimit }

def parcBufferClear : Prog PARCBuffer := do
  let buffer ← parcBufferSetPosition buffer 0
  let buffer ← parcBufferSetLimit buffer buffer.capacity
  pure { buffer with mark := none }

def computeNewLimit (oldCapacity oldLimit newCapacity : Nat) : Nat :=
  if newCapacity > oldCapacity then
    if oldLimit = oldCapacity then newCapacity else oldLimit
  else
    if oldLimit = oldCapacity then newCapacity
    else if oldLimit < newCapacity then oldLimit else newCapacity

def computeNewMark (oldMark : Option Nat) (newLimit newCapacity : Nat) : Option Nat :=
  match oldMark with
  | none => none
  | some mark => if mark > newCapacity then none else if mark > newLimit then none else some mark

/-- The bytes are copied to a new array by their address, without a check of the
old one. -/
def parcBufferResize (newCapacity : Nat) : Prog PARCBuffer := do
  let numberOfBytesToCopy :=
    if buffer.capacity > newCapacity then newCapacity else buffer.capacity
  if buffer.arrayOffset + numberOfBytesToCopy ≤ buffer.array.length then do
    let array ← parcByteArrayPutBytes (List.replicate newCapacity 0) 0
      ((buffer.array.drop buffer.arrayOffset).take numberOfBytesToCopy)
    let limit := computeNewLimit buffer.capacity buffer.limit newCapacity
    pure ⟨array, newCapacity, 0, if buffer.position < limit then buffer.position else limit, limit,
      computeNewMark buffer.mark limit newCapacity⟩
  else throw .memoryFault

def parcBufferDuplicate (original : PARCBuffer) : PARCBuffer := { original with mark := none }

def parcBufferSlice (original : PARCBuffer) : PARCBuffer :=
  ⟨original.array, original.limit - original.position, original.arrayOffset + original.position, 0,
    original.limit - original.position, none⟩

/-- The string is put with its NUL byte. -/
def parcBufferPutCString (string : List UInt8) : Prog PARCBuffer :=
  parcBufferPutArray buffer (string ++ [0])

/-! ## Operations in place -/

inductive Op where
  | mark
  | reset
  | setPosition (newPosition : Nat)
  | setLimit (newLimit : Nat)
  | flip
  | rewind
  | clear
  | getUint8
  | getUint16
  | getUint32
  | getUint64
  | getBytes (length : Nat)
  | putUint8 (value : UInt8)
  | putUint16 (value : UInt16)
  | putUint32 (value : UInt32)
  | putUint64 (value : UInt64)
  | putArray (bytes : List UInt8)
  | putCString (string : List UInt8)
  | putBuffer (source : PARCBuffer)

/-- The buffer after the operation. -/
def Op.run : Op → Prog PARCBuffer
  | .mark => pure (parcBufferMark buffer)
  | .reset => parcBufferReset buffer
  | .setPosition newPosition => parcBufferSetPosition buffer newPosition
  | .setLimit newLimit => parcBufferSetLimit buffer newLimit
  | .flip => pure (parcBufferFlip buffer)
  | .rewind => pure (parcBufferRewind buffer)
  | .clear => parcBufferClear buffer
  | .getUint8 => Prod.snd <$> parcBufferGetUint8 buffer
  | .getUint16 => Prod.snd <$> parcBufferGetUint16 buffer
  | .getUint32 => Prod.snd <$> parcBufferGetUint32 buffer
  | .getUint64 => Prod.snd <$> parcBufferGetUint64 buffer
  | .getBytes length => Prod.snd <$> parcBufferGetBytes buffer length
  | .putUint8 value => parcBufferPutUint8 buffer value
  | .putUint16 value => parcBufferPutUint16 buffer value
  | .putUint32 value => parcBufferPutUint32 buffer value
  | .putUint64 value => parcBufferPutUint64 buffer value
  | .putArray bytes => parcBufferPutArray buffer bytes
  | .putCString string => parcBufferPutCString buffer string
  | .putBuffer source => parcBufferPutBuffer buffer source

/-- A flip has no mark to keep but one at the start, and a limit is not set
before the position unless there is a mark. -/
def Op.Safe : Op → Prop
  | .flip => ∀ m, buffer.mark = some m → m = 0
  | .setLimit newLimit => buffer.mark = none → buffer.position ≤ newLimit
  | _ => True

end

/-! ## What an operation that returns has done -/

/-- The bounds are kept, and the array has its length. -/
def Keeps (b b' : PARCBuffer) : Prop := b'.Valid ∧ b'.array.length = b.array.length

variable {b b' : PARCBuffer}

theorem Keeps.trans {b1} (h : Keeps b b1) (h' : Keeps b1 b') : Keeps b b' := ⟨h'.1, h'.2.trans h.2⟩

section
variable (h : b.Valid)
include h

theorem Keeps.refl : Keeps b b := ⟨h, rfl⟩

theorem advance_keeps {n} (hn : b.position + n ≤ b.limit) : Keeps b (b.advance n) :=
  ⟨⟨fun m hm => Nat.le_add_right_of_le (h.mark_le m hm), hn, h.limit_le, h.capacity_le⟩, rfl⟩

variable (hl : b.array.length < 2 ^ 64)
include hl

theorem advance_of_trap {n u}
    (ht : trapIfBufferUnderflow b n = pure u) (hin : effectivePosition b + n ≤ b.array.length) :
    Keeps b (b.advance n) := by
  have hle := not_of_trapOutOfBoundsIf ht
  rw [effectivePosition] at hin
  exact advance_keeps h (by omega)

theorem getUint8_keeps {c} (hg : parcBufferGetUint8 b = pure (c, b')) : Keeps b b' := by
  obtain ⟨_, ht, hr⟩ := bind_eq_pure.mp hg
  obtain ⟨byte, hb, heq⟩ := bind_eq_pure.mp hr
  cases heq
  have hin : effectivePosition b < b.array.length := by
    by_contra ho
    rw [parcByteArrayGetByte, getElem?_eq_none (Nat.le_of_not_lt ho)] at hb
    exact throw_ne_pure hb
  exact advance_of_trap h hl ht hin

theorem getBytes_keeps {n bs} (hg : parcBufferGetBytes b n = pure (bs, b')) : Keeps b b' := by
  obtain ⟨_, ht, hr⟩ := bind_eq_pure.mp hg
  obtain ⟨a, ha, heq⟩ := bind_eq_pure.mp hr
  cases heq
  obtain ⟨_, -, hc⟩ := bind_eq_pure.mp ha
  split at hc
  · exact advance_of_trap h hl ht ‹_›
  · exact absurd hc throw_ne_pure

end

theorem getLoop_keeps {α : Type} {shift} (size : Nat) {res r : α}
    {b} (h : b.Valid) (hl : b.array.length < 2 ^ 64)
    (hg : getLoop shift size res b = pure (r, b')) : Keeps b b' := by
  induction size generalizing b res with
  | zero =>
    cases hg
    exact .refl h
  | succ size ih =>
    obtain ⟨⟨byte, b1⟩, hb, hr⟩ := bind_eq_pure.mp hg
    have h1 := getUint8_keeps h hl hb
    exact h1.trans (ih h1.1 (h1.2.trans_lt hl) hr)

theorem getUint16_keeps (h : b.Valid) (hl : b.array.length < 2 ^ 64) {v}
    (hg : parcBufferGetUint16 b = pure (v, b')) : Keeps b b' := by
  obtain ⟨⟨high, b1⟩, hh, hr⟩ := bind_eq_pure.mp hg
  obtain ⟨⟨low, b2⟩, hlo, heq⟩ := bind_eq_pure.mp hr
  cases heq
  have h1 := getUint8_keeps h hl hh
  exact h1.trans (getUint8_keeps h1.1 (h1.2.trans_lt hl) hlo)

theorem setPosition_keeps (h : b.Valid) {newPosition}
    (hs : parcBufferSetPosition b newPosition = pure b') : Keeps b b' := by
  obtain ⟨_, hassert, heq⟩ := bind_eq_pure.mp hs
  have hle := of_decide_eq_true (of_assertTrue hassert)
  rw [← pure_inj.mp heq]
  refine ⟨⟨fun m hm => ?_, Nat.le_of_not_lt hle, h.limit_le, h.capacity_le⟩, rfl⟩
  exact of_decide_eq_true (Option.filter_eq_some_iff.mp hm).2

theorem array_keeps (h : b.Valid) {array} (hl : array.length = b.array.length) :
    Keeps b { b with array } :=
  ⟨⟨h.mark_le, h.position_le, h.limit_le, hl ▸ h.capacity_le⟩, hl⟩

theorem putUint8_keeps (h : b.Valid) {v} (hp : parcBufferPutUint8 b v = pure b') : Keeps b b' := by
  obtain ⟨_, hassert, hr⟩ := bind_eq_pure.mp hp
  have hro := of_decide_eq_true (of_assertTrue hassert)
  obtain ⟨a, ha, heq⟩ := bind_eq_pure.mp hr
  obtain ⟨_, -, hs⟩ := bind_eq_pure.mp ha
  rw [← pure_inj.mp heq]
  rw [h.remaining] at hro
  have hl : a.length = b.array.length := by
    rw [← pure_inj.mp hs, length_set]
  exact (array_keeps h hl).trans (advance_keeps (array_keeps h hl).1
    (show b.position + 1 ≤ b.limit by omega))

theorem putLoop_keeps {byteAt} (i : Nat) {b} (h : b.Valid)
    (hp : putLoop byteAt i b = pure b') : Keeps b b' := by
  induction i generalizing b with
  | zero =>
    rw [← pure_inj.mp hp]
    exact .refl h
  | succ i ih =>
    obtain ⟨b1, hb, hr⟩ := bind_eq_pure.mp hp
    have h1 := putUint8_keeps h hb
    exact h1.trans (ih h1.1 hr)

section
variable (h : b.Valid)
include h

theorem putWord_keeps {size byteAt last}
    (hp : putWord size byteAt last b = pure b') : Keeps b b' := by
  obtain ⟨_, -, hr⟩ := bind_eq_pure.mp hp
  obtain ⟨b1, hl, hla⟩ := bind_eq_pure.mp hr
  have h1 := putLoop_keeps _ h hl
  exact h1.trans (putUint8_keeps h1.1 hla)

theorem putUint16_keeps {v} (hp : parcBufferPutUint16 b v = pure b') : Keeps b b' := by
  obtain ⟨_, -, hr⟩ := bind_eq_pure.mp hp
  obtain ⟨b1, hh, hl⟩ := bind_eq_pure.mp hr
  have h1 := putUint8_keeps h hh
  exact h1.trans (putUint8_keeps h1.1 hl)

theorem putArray_keeps {bs} (hp : parcBufferPutArray b bs = pure b') : Keeps b b' := by
  obtain ⟨_, -, hr⟩ := bind_eq_pure.mp hp
  obtain ⟨a, ha, hs⟩ := bind_eq_pure.mp hr
  have hl : a.length = b.array.length := by
    obtain ⟨_, ho, hr⟩ := bind_eq_pure.mp ha
    obtain ⟨_, hre, heq⟩ := bind_eq_pure.mp hr
    have := not_of_trapOutOfBoundsIf ho
    have := not_of_trapOutOfBoundsIf hre
    rw [← pure_inj.mp heq]
    exact length_overwrite (by omega)
  exact (array_keeps h hl).trans (setPosition_keeps (array_keeps h hl).1 hs)

theorem putBuffer_keeps {src} (hp : parcBufferPutBuffer b src = pure b') : Keeps b b' := by
  obtain ⟨_, -, hr⟩ := bind_eq_pure.mp hp
  obtain ⟨a, ha, hs⟩ := bind_eq_pure.mp hr
  have hl : a.length = b.array.length := by
    unfold parcByteArrayArrayCopy at ha
    split at ha
    · rw [← pure_inj.mp ha]
      refine length_overwrite ?_
      rw [length_take, length_drop]
      omega
    · exact absurd ha throw_ne_pure
  exact (array_keeps h hl).trans (setPosition_keeps (array_keeps h hl).1 hs)

theorem setLimit_keeps {newLimit} (hs : parcBufferSetLimit b newLimit = pure b') :
    b'.array.length = b.array.length ∧ (b'.Valid ↔ (Op.setLimit newLimit).Safe b) := by
  obtain ⟨_, hassert, heq⟩ := bind_eq_pure.mp hs
  have hle : newLimit ≤ b.capacity := of_decide_eq_true (of_assertTrue hassert)
  cases hma : b.mark with
  | none =>
    rw [hma] at heq
    rw [← pure_inj.mp heq]
    refine ⟨rfl, fun h' _ => h'.position_le, fun hsa => ?_⟩
    exact ⟨fun m hm => (by cases hm), hsa hma, hle, h.capacity_le⟩
  | some mark =>
    rw [hma] at heq
    have hm := h.mark_le mark hma
    rw [← pure_inj.mp heq]
    refine ⟨rfl, fun _ hn => ?_, fun _ => ⟨fun m hm' => ?_, ?_, hle, h.capacity_le⟩⟩
    · rw [hma] at hn
      cases hn
    · simp only at hm' ⊢
      split at hm'
      · cases hm'
      · cases hm'
        split <;> omega
    · simp only
      split <;> omega

theorem clear_keeps (hc : parcBufferClear b = pure b') : Keeps b b' := by
  obtain ⟨b1, hp, hr⟩ := bind_eq_pure.mp hc
  obtain ⟨b2, hl, heq⟩ := bind_eq_pure.mp hr
  have h1 := setPosition_keeps h hp
  have hz : b1.position = 0 := by
    obtain ⟨_, -, heq1⟩ := bind_eq_pure.mp hp
    rw [← pure_inj.mp heq1]
  obtain ⟨hle, hv⟩ := setLimit_keeps h1.1 hl
  have h2 : b2.Valid := hv.mpr fun _ => by rw [hz]; exact Nat.zero_le _
  rw [← pure_inj.mp heq]
  exact ⟨⟨fun m hm => (by cases hm), h2.position_le, h2.limit_le, h2.capacity_le⟩, hle.trans h1.2⟩

theorem reset_keeps (hr : parcBufferReset b = pure b') : Keeps b b' := by
  unfold parcBufferReset at hr
  split at hr
  · rename_i mark hma
    have := h.mark_le mark hma
    have := h.position_le
    rw [← pure_inj.mp hr]
    refine ⟨⟨fun m hm => ?_, (by show mark ≤ b.limit; omega), h.limit_le, h.capacity_le⟩, rfl⟩
    rw [show b.mark = some m from hm] at hma
    exact Nat.le_of_eq (Option.some.inj hma)
  · exact absurd hr throw_ne_pure

theorem mark_keeps : Keeps b (parcBufferMark b) := by
  refine ⟨⟨fun m hm => ?_, h.position_le, h.limit_le, h.capacity_le⟩, rfl⟩
  exact Nat.le_of_eq (Option.some.inj hm).symm

theorem rewind_keeps : Keeps b (parcBufferRewind b) :=
  ⟨⟨fun m hm => (by cases hm), Nat.zero_le _, h.limit_le, h.capacity_le⟩, rfl⟩

theorem valid_flip : (parcBufferFlip b).Valid ↔ Op.flip.Safe b := by
  constructor
  · exact fun h' m hm => Nat.le_zero.mp (h'.mark_le m hm)
  · intro hs
    refine ⟨fun m hm => Nat.le_of_eq (hs m hm), Nat.zero_le _, ?_, h.capacity_le⟩
    exact Nat.le_trans h.position_le h.limit_le

theorem duplicate_keeps : Keeps b (parcBufferDuplicate b) :=
  ⟨⟨fun m hm => (by cases hm), h.position_le, h.limit_le, h.capacity_le⟩, rfl⟩

theorem slice_keeps : Keeps b (parcBufferSlice b) := by
  have := h.position_le
  have := h.limit_le
  have := h.capacity_le
  refine ⟨⟨fun m hm => (by cases hm), Nat.zero_le _, Nat.le_refl _, ?_⟩, rfl⟩
  show b.arrayOffset + b.position + (b.limit - b.position) ≤ b.array.length
  omega

end

theorem computeNewLimit_le {oldCapacity oldLimit newCapacity} (h : oldLimit ≤ oldCapacity) :
    computeNewLimit oldCapacity oldLimit newCapacity ≤ newCapacity := by
  unfold computeNewLimit
  split_ifs <;> omega

theorem computeNewMark_eq_some {oldMark newLimit n m}
    (h : computeNewMark oldMark newLimit n = some m) : oldMark = some m ∧ m ≤ newLimit := by
  cases oldMark with
  | none => cases h
  | some mark =>
    simp only [computeNewMark] at h
    split_ifs at h
    cases h
    exact ⟨rfl, by omega⟩

theorem resize_valid (h : b.Valid) {newCapacity}
    (hr : parcBufferResize b newCapacity = pure b') : b'.Valid ∧ b'.array.length = newCapacity := by
  unfold parcBufferResize at hr
  simp only at hr
  generalize hc : (if b.capacity > newCapacity then newCapacity else b.capacity) = n at hr
  have hn : n ≤ newCapacity := by
    rw [← hc]
    split <;> omega
  split at hr
  · obtain ⟨a, hp, heq⟩ := bind_eq_pure.mp hr
    obtain ⟨_, -, hre⟩ := bind_eq_pure.mp hp
    obtain ⟨_, -, ha⟩ := bind_eq_pure.mp hre
    have hl : a.length = newCapacity := by
      rw [← pure_inj.mp ha, length_overwrite, length_replicate]
      rw [length_take, length_drop, length_replicate]
      omega
    rw [← pure_inj.mp heq]
    refine ⟨⟨fun m hm => ?_, ?_, computeNewLimit_le h.limit_le, ?_⟩, hl⟩
    · obtain ⟨hma, hle⟩ := computeNewMark_eq_some (show computeNewMark b.mark _ _ = some m from hm)
      have := h.mark_le m hma
      split <;> omega
    · dsimp only
      split <;> omega
    · show 0 + newCapacity ≤ a.length
      omega
  · exact absurd hr throw_ne_pure

theorem of_map_snd {α : Type} {x : Prog (α × PARCBuffer)} (h : Prod.snd <$> x = pure b') :
    ∃ a, x = pure (a, b') := by
  obtain ⟨⟨a, b1⟩, hx, heq⟩ := bind_eq_pure.mp h
  exact ⟨a, by rw [hx, ← pure_inj.mp heq]⟩

/-- **The bounds are kept, exactly by the safe operations.** -/
theorem Op.run_valid (h : b.Valid) (hl : b.array.length < 2 ^ 64) (op : Op)
    (hr : op.run b = pure b') : b'.array.length = b.array.length ∧ (b'.Valid ↔ op.Safe b) := by
  have of_keeps : ∀ {P : Prop}, P → Keeps b b' →
      b'.array.length = b.array.length ∧ (b'.Valid ↔ P) :=
    fun hs hk => ⟨hk.2, fun _ => hs, fun _ => hk.1⟩
  cases op with
  | mark => exact of_keeps trivial (pure_inj.mp hr ▸ mark_keeps h)
  | reset => exact of_keeps trivial (reset_keeps h hr)
  | setPosition newPosition => exact of_keeps trivial (setPosition_keeps h hr)
  | setLimit newLimit => exact setLimit_keeps h hr
  | flip => exact pure_inj.mp hr ▸ ⟨rfl, valid_flip h⟩
  | rewind => exact of_keeps trivial (pure_inj.mp hr ▸ rewind_keeps h)
  | clear => exact of_keeps trivial (clear_keeps h hr)
  | getUint8 =>
    obtain ⟨c, hg⟩ := of_map_snd hr
    exact of_keeps trivial (getUint8_keeps h hl hg)
  | getUint16 =>
    obtain ⟨v, hg⟩ := of_map_snd hr
    exact of_keeps trivial (getUint16_keeps h hl hg)
  | getUint32 =>
    obtain ⟨v, hg⟩ := of_map_snd hr
    exact of_keeps trivial (getLoop_keeps 4 h hl hg)
  | getUint64 =>
    obtain ⟨v, hg⟩ := of_map_snd hr
    exact of_keeps trivial (getLoop_keeps 8 h hl hg)
  | getBytes length =>
    obtain ⟨bs, hg⟩ := of_map_snd hr
    exact of_keeps trivial (getBytes_keeps h hl hg)
  | putUint8 v => exact of_keeps trivial (putUint8_keeps h hr)
  | putUint16 v => exact of_keeps trivial (putUint16_keeps h hr)
  | putUint32 v | putUint64 v => exact of_keeps trivial (putWord_keeps h hr)
  | putArray bs | putCString s => exact of_keeps trivial (putArray_keeps h hr)
  | putBuffer src => exact of_keeps trivial (putBuffer_keeps h hr)

end Libparc.Buffer
