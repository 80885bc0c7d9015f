import Libparc.Algol.BufferComposer

/-! # Reading what was composed

The buffer that a composer produces holds the encodings of everything that was
put into it, and the `Get` functions return it again, in the same order. -/
namespace Libparc.BufferComposer
open Buffer BigEndian List

/-- A buffer that can be put into another one: its mark does not matter. -/
structure Source where
  buffer : PARCBuffer
  position_le : buffer.position ≤ buffer.limit
  limit_le : buffer.limit ≤ buffer.capacity
  capacity_le : buffer.arrayOffset + buffer.capacity ≤ buffer.array.length

inductive Write where
  | uint8 (value : UInt8)
  | uint16 (value : UInt16)
  | uint32 (value : UInt32)
  | uint64 (value : UInt64)
  | array (bytes : List UInt8)
  | buffer (source : Source)
  | string (text : List UInt8)

/-- What a `Get` function returns. -/
inductive Value where
  | uint8 (value : UInt8)
  | uint16 (value : UInt16)
  | uint32 (value : UInt32)
  | uint64 (value : UInt64)
  | bytes (bytes : List UInt8)
  deriving DecidableEq, Repr

def Write.run (composer : PARCBufferComposer) : Write → Prog PARCBufferComposer
  | .uint8 value => parcBufferComposerPutUint8 composer value
  | .uint16 value => parcBufferComposerPutUint16 composer value
  | .uint32 value => parcBufferComposerPutUint32 composer value
  | .uint64 value => parcBufferComposerPutUint64 composer value
  | .array bytes => parcBufferComposerPutArray composer bytes
  | .buffer source => parcBufferComposerPutBuffer composer source.buffer
  | .string text => parcBufferComposerPutString composer text

/-- The bytes that stand for what was written. -/
def Write.encoding : Write → List UInt8
  | .uint8 value => [value]
  | .uint16 value => split 2 value.toNat
  | .uint32 value => split 4 value.toNat
  | .uint64 value => split 8 value.toNat
  | .array bytes => bytes
  | .buffer source => source.buffer.remainingBytes
  | .string text => text

def Write.value : Write → Value
  | .uint8 value => .uint8 value
  | .uint16 value => .uint16 value
  | .uint32 value => .uint32 value
  | .uint64 value => .uint64 value
  | .array bytes => .bytes bytes
  | .buffer source => .bytes source.buffer.remainingBytes
  | .string text => .bytes text

/-- The `Get` function for what was written; bytes are read by their number. -/
def Write.read (buffer : PARCBuffer) : Write → Prog (Value × PARCBuffer)
  | .uint8 _ => do
    let (value, buffer) ← parcBufferGetUint8 buffer
    pure (.uint8 value, buffer)
  | .uint16 _ => do
    let (value, buffer) ← parcBufferGetUint16 buffer
    pure (.uint16 value, buffer)
  | .uint32 _ => do
    let (value, buffer) ← parcBufferGetUint32 buffer
    pure (.uint32 value, buffer)
  | .uint64 _ => do
    let (value, buffer) ← parcBufferGetUint64 buffer
    pure (.uint64 value, buffer)
  | .array bytes => readBytes bytes.length
  | .buffer source => readBytes (parcBufferRemaining source.buffer)
  | .string text => readBytes text.length
where
  readBytes (length : Nat) : Prog (Value × PARCBuffer) := do
    let (bytes, buffer) ← parcBufferGetBytes buffer length
    pure (.bytes bytes, buffer)

def reads : PARCBuffer → List Write → Prog (List Value × PARCBuffer)
  | buffer, [] => pure ([], buffer)
  | buffer, write :: writes => do
    let (value, buffer) ← write.read buffer
    let (values, buffer) ← reads buffer writes
    pure (value :: values, buffer)

/-! ## One write and one read -/

/-- The source without its mark, which is read in the same way. -/
def Source.unmarked (source : Source) : PARCBuffer := { source.buffer with mark := none }

theorem Source.valid (src : Source) : src.unmarked.Valid :=
  ⟨fun m hm => (by cases hm), src.position_le, src.limit_le, src.capacity_le⟩

theorem Write.run_composes (write : Write) : Appends (Write.run · write) write.encoding := by
  cases write with
  | uint8 v => exact putUint8_composes v
  | uint16 v => exact putUint16_composes v
  | uint32 v => exact putUint32_composes v
  | uint64 v => exact putUint64_composes v
  | array bs => exact putArray_composes bs
  | buffer src =>
    show Appends (parcBufferComposerPutBuffer · src.unmarked) _
    exact putBuffer_composes src.valid
  | string text => exact putString_composes text

variable {b : PARCBuffer} {rest : List UInt8}

theorem readBytes_spec (h : b.Valid) {bs} (hs : b.remainingBytes = bs ++ rest) :
    Write.read.readBytes b bs.length = pure (.bytes bs, b.advance bs.length) := by
  simp only [Write.read.readBytes, getBytes_spec h hs, pure_bind]

theorem Write.read_spec (h : b.Valid) (write : Write)
    (hs : b.remainingBytes = write.encoding ++ rest) :
    write.read b = pure (write.value, b.advance write.encoding.length) := by
  cases write with
  | uint8 v =>
    simp only [Write.read, getUint8_spec h hs, pure_bind]
    rfl
  | uint16 v =>
    simp only [Write.read, getUint16_spec h hs, pure_bind]
    rfl
  | uint32 v =>
    simp only [Write.read, getUint32_spec h hs, pure_bind]
    rfl
  | uint64 v =>
    simp only [Write.read, getUint64_spec h hs, pure_bind]
    rfl
  | array bs | string text => exact readBytes_spec h hs
  | buffer src =>
    have hl := length_remainingBytes src.valid
    rw [Write.read, show parcBufferRemaining src.buffer = src.buffer.remainingBytes.length
      from hl.symm]
    exact readBytes_spec h hs

/-! ## All of them -/

theorem runWrites_composes (ws : List Write) :
    Appends (ws.foldlM Write.run) (ws.flatMap Write.encoding) := .foldlM Write.run_composes ws

theorem reads_spec (h : b.Valid) (ws : List Write)
    (hs : b.remainingBytes = ws.flatMap Write.encoding ++ rest) :
    ∃ b', reads b ws = pure (ws.map Write.value, b') ∧ b'.Valid ∧ b'.remainingBytes = rest := by
  induction ws generalizing b with
  | nil => exact ⟨b, rfl, h, hs⟩
  | cons write ws ih =>
    rw [flatMap_cons, append_assoc] at hs
    have hr := write.read_spec h hs
    obtain ⟨b', hre, h', hs'⟩ := ih (h.advance_append hs) (remainingBytes_advance_append hs)
    refine ⟨b', ?_, h', hs'⟩
    simp only [reads, hr, hre, pure_bind, map_cons]

/-- **What is written can be read back**: after any writes into a composer of
any size the buffer it produces holds their encodings, and reading them in the
same order returns the values and leaves nothing. -/
theorem reads_produceBuffer (lineSize size : Nat) (writes : List Write) :
    ∃ composer, writes.foldlM Write.run (parcBufferComposerAllocate lineSize size) = pure composer ∧
      (parcBufferComposerProduceBuffer composer).remainingBytes = writes.flatMap Write.encoding ∧
      ∃ buffer, reads (parcBufferComposerProduceBuffer composer) writes =
          pure (writes.map Write.value, buffer) ∧ parcBufferRemaining buffer = 0 := by
  obtain ⟨composer, hr, h⟩ := runWrites_composes writes (composes_allocate lineSize size)
  obtain ⟨hv, hb⟩ := produceBuffer_spec h
  obtain ⟨buffer, hre, h', hn⟩ := reads_spec hv writes (hb.trans (List.append_nil _).symm)
  refine ⟨composer, hr, hb, buffer, hre, ?_⟩
  rw [← length_remainingBytes h', hn, List.length_nil]

/-- The slice of the second one of two bytes. -/
def secondByte : Source := ⟨⟨[1, 2], 1, 1, 0, 1, none⟩, by decide, by decide, by decide⟩

example : [Write.uint16 258, .buffer secondByte].flatMap Write.encoding = [1, 2, 2] := by decide

end Libparc.BufferComposer
