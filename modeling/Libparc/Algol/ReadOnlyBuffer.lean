import Libparc.Algol.BufferComposerReads
import Libparc.Algol.BufferCursor

/-! # Read-only buffers

`parcReadOnlyBuffer_Create` wraps the array of a buffer again, from the position
of the buffer to its limit. Both count from the offset of the buffer in the
array, and the offset is not carried over. -/
namespace Libparc.ReadOnlyBuffer
open Buffer BufferComposer Exec

structure PARCReadOnlyBuffer where
  buffer : Option PARCBuffer

def parcBufferWrapByteArray (array : List UInt8) (position limit : Nat) : Option PARCBuffer :=
  parcBufferWrap array position limit

def parcReadOnlyBufferCreate : Option PARCBuffer → Option PARCReadOnlyBuffer
  | none => none
  | some buffer => some ⟨parcBufferWrapByteArray buffer.array buffer.position buffer.limit⟩

def parcReadOnlyBufferRemaining (buffer : PARCReadOnlyBuffer) : Prog Nat :=
  match buffer.buffer with
  | none => throw .memoryFault
  | some inner => pure (parcBufferRemaining inner)

/-- `parcReadOnlyBuffer_GetUint8`, `16`, `32`, `64` and `GetArray`: each one calls
the function of the buffer inside. -/
def parcReadOnlyBufferGet (buffer : PARCReadOnlyBuffer) (write : Write) :
    Prog (Value × PARCReadOnlyBuffer) :=
  match buffer.buffer with
  | none => throw .memoryFault
  | some inner => do
    let (value, inner) ← write.read inner
    pure (value, ⟨some inner⟩)

def gets : PARCReadOnlyBuffer → List Write → Prog (List Value × PARCReadOnlyBuffer)
  | buffer, [] => pure ([], buffer)
  | buffer, write :: writes => do
    let (value, buffer) ← parcReadOnlyBufferGet buffer write
    let (values, buffer) ← gets buffer writes
    pure (value :: values, buffer)

/-- As many bytes remain, and however they are read as words and arrays, the
values are those that the bytes encode. -/
structure Yields (buffer : PARCReadOnlyBuffer) (bytes : List UInt8) : Prop where
  remaining : parcReadOnlyBufferRemaining buffer = pure bytes.length
  values : ∀ writes : List Write, writes.flatMap Write.encoding = bytes →
    ∃ buffer', gets buffer writes = pure (writes.map Write.value, buffer')

theorem gets_some (inner : PARCBuffer) (writes : List Write) :
    gets ⟨some inner⟩ writes = (fun r => (r.1, ⟨some r.2⟩)) <$> reads inner writes := by
  induction writes generalizing inner with
  | nil => rfl
  | cons write writes ih =>
    simp only [gets, reads, parcReadOnlyBufferGet, map_eq_pure_bind, bind_assoc, pure_bind, ih]

theorem yields_iff {inner} (h : inner.Valid) (bytes : List UInt8) :
    Yields ⟨some inner⟩ bytes ↔ inner.remainingBytes = bytes := by
  have hr : ∀ ws : List Write, ws.flatMap Write.encoding = inner.remainingBytes →
      ∃ inner', gets ⟨some inner⟩ ws = pure (ws.map Write.value, ⟨some inner'⟩) := by
    intro ws hw
    obtain ⟨inner', hr, -⟩ := reads_spec h ws (hw.symm.trans (List.append_nil _).symm)
    exact ⟨inner', by rw [gets_some, hr, map_pure]⟩
  constructor
  · intro hy
    have hl : inner.remainingBytes.length = bytes.length :=
      (length_remainingBytes h).trans (pure_inj.mp hy.remaining)
    obtain ⟨_, hg⟩ := hy.values [.array bytes] (List.flatMap_singleton _ _)
    obtain ⟨_, hre⟩ := hr [.array inner.remainingBytes] (List.flatMap_singleton _ _)
    -- the number of bytes is all that the two readings take from the lists
    simp only [gets, parcReadOnlyBufferGet, Write.read, ← hl] at hg hre
    cases pure_inj.mp (hre.symm.trans hg)
    rfl
  · rintro rfl
    refine ⟨by rw [length_remainingBytes h]; rfl, fun ws hw => ?_⟩
    obtain ⟨inner', hg⟩ := hr ws hw
    exact ⟨⟨some inner'⟩, hg⟩

/-- **When a read-only buffer reads as its source does**: what the array holds
from the position to the limit is what it holds there behind the offset. -/
theorem create_yields_iff (source : Source) :
    (∃ buffer, parcReadOnlyBufferCreate (some source.buffer) = some buffer ∧
      Yields buffer source.buffer.remainingBytes) ↔
    (source.buffer.array.take source.buffer.limit).drop source.buffer.position =
      source.buffer.remainingBytes := by
  obtain ⟨b, hp, hl, hc⟩ := source
  have hle : b.limit ≤ b.array.length := by omega
  have hcr : parcReadOnlyBufferCreate (some b) =
      some ⟨some ⟨b.array, b.array.length, 0, b.position, b.limit, none⟩⟩ := by
    rw [parcReadOnlyBufferCreate, parcBufferWrapByteArray, parcBufferWrap, if_neg (by omega)]
  simp only [hcr, Option.some.injEq, exists_eq_left']
  have hv : PARCBuffer.Valid ⟨b.array, b.array.length, 0, b.position, b.limit, none⟩ :=
    ⟨fun _ hm => (by cases hm), hp, hle, (Nat.zero_add _).le⟩
  rw [yields_iff hv]
  simp only [PARCBuffer.remainingBytes, Nat.zero_add]

/-- The second byte of two is sliced off, and the first one is read. -/
theorem create_slice : parcBufferSlice ⟨[1, 2], 2, 0, 1, 2, none⟩ = secondByte.buffer ∧
    parcReadOnlyBufferCreate (some secondByte.buffer) =
      some ⟨some ⟨[1, 2], 2, 0, 0, 1, none⟩⟩ ∧
    secondByte.buffer.remainingBytes = [2] ∧ ¬ Yields ⟨some ⟨[1, 2], 2, 0, 0, 1, none⟩⟩ [2] := by
  refine ⟨rfl, rfl, rfl, fun h => ?_⟩
  obtain ⟨_, hg⟩ := h.values [.uint8 2] rfl
  cases hg

end Libparc.ReadOnlyBuffer
