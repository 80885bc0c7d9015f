import Libparc.Algol.Chunker

/-! # parc_FileChunker

The iterators of a file chunker share the file handle, but each call moves it to the iterator's
own position first. A `size_t` sum or difference is taken modulo `2 ^ 64`, which matters for
calls past the end only. Reading gives the bytes of the file from the position of the handle
on; allocation succeeds. -/
namespace Libparc.FileChunker
open Buffer Chunker Iteration List

/-- A file; its size is an `off_t`. -/
structure PARCFile where
  contents : List UInt8
  fits : contents.length < 2 ^ 63

def parcFileGetFileSize (file : PARCFile) : Nat := file.contents.length

structure PARCRandomAccessFile where
  file : PARCFile
  offset : Nat

def parcRandomAccessFileOpen (file : PARCFile) : PARCRandomAccessFile := ⟨file, 0⟩

/-- `parcRandomAccessFile_Seek` from the start of the file. -/
def parcRandomAccessFileSeek (fileHandle : PARCRandomAccessFile) (offset : Nat) :
    PARCRandomAccessFile :=
  { fileHandle with offset }

/-- The bytes go to where the buffer's position was. -/
def parcRandomAccessFileRead (fileHandle : PARCRandomAccessFile) (buffer : PARCBuffer) :
    Prog (PARCBuffer × PARCRandomAccessFile) := do
  let length := parcBufferRemaining buffer
  let (_, after) ← parcBufferOverlay buffer length
  let bytes := (fileHandle.file.contents.drop fileHandle.offset).take length
  pure ({ after with array := overwrite after.array (effectivePosition buffer) bytes },
    { fileHandle with offset := fileHandle.offset + bytes.length })

structure FileChunkerState extends ChunkerState where
  totalSize : Nat

structure PARCFileChunker where
  chunkSize : Nat
  file : PARCFile
  fhandle : PARCRandomAccessFile
  currentElement : Option PARCBuffer

def parcFileChunkerCreate (file : PARCFile) (chunkSize : Nat) : PARCFileChunker :=
  ⟨chunkSize, file, parcRandomAccessFileOpen file, none⟩

/-- `_InitForward` and `_InitReverse`. -/
def init (direction : Direction) (chunker : PARCFileChunker) : FileChunkerState :=
  let totalSize := parcFileGetFileSize chunker.file
  { Chunker.init chunker.chunkSize totalSize direction with totalSize }

def advanceState (chunker : PARCFileChunker) (state : FileChunkerState) : FileChunkerState :=
  let position := (state.position + state.nextChunkSize) % 2 ^ 64
  let remaining := (state.totalSize + 2 ^ 64 - position) % 2 ^ 64
  { Chunker.advanceState chunker.chunkSize position remaining state.toChunkerState with
    totalSize := state.totalSize }

/-- `_parcChunker_NextFromBuffer`. -/
def nextFromBuffer (chunker : PARCFileChunker) (state : FileChunkerState) :
    Prog (PARCBuffer × PARCFileChunker × FileChunkerState) := do
  let fhandle := parcRandomAccessFileSeek chunker.fhandle state.position
  let slice := parcBufferAllocate state.nextChunkSize
  let (slice, fhandle) ← parcRandomAccessFileRead fhandle slice
  let chunker := { chunker with fhandle }
  pure (parcBufferFlip slice, chunker, advanceState chunker state)

/-- `_parcChunker_Next`. -/
def next (chunker : PARCFileChunker) (state : FileChunkerState) :
    Prog (PARCFileChunker × FileChunkerState) := do
  let (buffer, chunker, state) ← nextFromBuffer chunker state
  pure ({ chunker with currentElement := some buffer }, state)

/-- What the chunker's two calls that open an iterator give to `parcIterator_Create`. -/
def iterators : Interface Trap PARCFileChunker Direction FileChunkerState (Option PARCBuffer) where
  init := init
  hasNext state := !state.atEnd
  next := next
  element := PARCFileChunker.currentElement

abbrev FileIterator :=
  Iterator PARCFileChunker Direction FileChunkerState (Option PARCBuffer)

/-- A chunker that no iterator was opened on yet. -/
def newSession (file : PARCFile) (chunkSize : Nat) :
    Session PARCFileChunker Direction FileChunkerState (Option PARCBuffer) :=
  ⟨parcFileChunkerCreate file chunkSize, []⟩

def chunks (it : FileIterator) : List (List UInt8) := it.elements.map chunkOf

/-! ## A call -/

section
variable {file : PARCFile} {size : Nat}

theorem read_allocate (fileHandle : PARCRandomAccessFile) {length} (h : 0 < length) :
    ∃ slice offset, parcRandomAccessFileRead fileHandle (parcBufferAllocate length) =
        pure (slice, { fileHandle with offset }) ∧
      (fileHandle.offset + length ≤ fileHandle.file.contents.length →
        (parcBufferFlip slice).remainingBytes =
          (fileHandle.file.contents.drop fileHandle.offset).take length) := by
  have hr : parcBufferRemaining (parcBufferAllocate length) = length := rfl
  have ho : parcBufferOverlay (parcBufferAllocate length) length = pure _ :=
    overlay_of (by simp [parcBufferAllocate])
      (by simpa [parcBufferAllocate, effectivePosition] using h)
  let bytes := (fileHandle.file.contents.drop fileHandle.offset).take length
  refine ⟨{ parcBufferAllocate length with
    array := overwrite (replicate length 0) 0 bytes
    position := length }, fileHandle.offset + bytes.length, ?_, fun hb => ?_⟩
  · simp only [parcRandomAccessFileRead, hr, ho, pure_bind]
    simp [PARCBuffer.advance, parcBufferAllocate, effectivePosition, bytes]
  · have hl : bytes.length = length := by
      simp only [bytes, length_take, length_drop]
      omega
    rw [remainingBytes_flip, written_eq]
    simp only [parcBufferAllocate, drop_zero, overwrite, take_zero, nil_append]
    rw [take_append_of_le_length hl.ge, take_of_length_le hl.le]

/-- The chunker of a file, whatever its handle's position is. -/
structure ChunkerOf (file : PARCFile) (chunkSize : Nat) (chunker : PARCFileChunker) : Prop where
  size_eq : chunker.chunkSize = chunkSize
  file_eq : chunker.file = file
  handle_eq : chunker.fhandle.file = file

variable {c : PARCFileChunker}

theorem next_eq {st} (h : ChunkerOf file size c) (hp : 0 < st.nextChunkSize) :
    ∃ c', next c st = pure (c', advanceState c' st) ∧ ChunkerOf file size c' ∧
      (st.position + st.nextChunkSize ≤ file.contents.length →
        chunkOf c'.currentElement = nextChunk file.contents st.toChunkerState) := by
  obtain ⟨slice, offset, hr, hb⟩ :=
    read_allocate (parcRandomAccessFileSeek c.fhandle st.position) hp
  have hf : (parcRandomAccessFileSeek c.fhandle st.position).file = file := h.handle_eq
  refine ⟨⟨c.chunkSize, c.file, { parcRandomAccessFileSeek c.fhandle st.position with offset },
    some (parcBufferFlip slice)⟩, ?_, ⟨h.size_eq, h.file_eq, h.handle_eq⟩, ?_⟩
  · simp only [next, nextFromBuffer, hr, pure_bind]
    rfl
  · rw [hf] at hb
    exact hb

/-! ## An iterator by itself -/

/-- What holds of an iterator between its calls. -/
structure Good (file : PARCFile) (chunkSize : Nat) (it : FileIterator) : Prop where
  kind : it.kind = it.state.direction
  total : it.state.totalSize = file.contents.length
  pos : 0 < it.state.nextChunkSize
  progress : Progress file.contents chunkSize it.state.toChunkerState (chunks it)
  sized : Sized file.contents chunkSize it.state.toChunkerState (chunks it)

section
variable (h : ChunkerOf file size c)
include h

theorem good_opened (hf : file.contents ≠ [])
    (hc : 0 < size) (dir : Direction) : Good file size (opened iterators c dir) := by
  obtain ⟨rfl, rfl, _⟩ := h
  refine ⟨(init_direction _ _ _).symm, rfl, ?_, .init _ _ _, .init _ _ _⟩
  exact init_pos dir hc (length_pos_of_ne_nil hf)

theorem advanceState_eq {st} (ht : st.totalSize = file.contents.length)
    (hb : st.position + st.nextChunkSize ≤ file.contents.length) :
    (advanceState c st).toChunkerState = Chunker.advanceState size (st.position + st.nextChunkSize)
        (file.contents.length - (st.position + st.nextChunkSize)) st.toChunkerState := by
  have hf := file.fits
  have hp : (st.position + st.nextChunkSize) % 2 ^ 64 =
      st.position + st.nextChunkSize := Nat.mod_eq_of_lt (by omega)
  have hr : (file.contents.length + 2 ^ 64 - (st.position + st.nextChunkSize)) %
      2 ^ 64 = file.contents.length - (st.position + st.nextChunkSize) := by omega
  simp only [advanceState, hp, ht, hr, h.size_eq]

theorem Good.after {it} (hit : Good file size it) (hc : 0 < size) :
    ∃ c' st', next c it.state = pure (c', st') ∧ ChunkerOf file size c' ∧
      Good file size (it.after iterators c' st') := by
  obtain ⟨c', hn, h', hco⟩ := next_eq h hit.pos
  have hk : it.kind = (advanceState c' it.state).direction :=
    hit.kind.trans (advanceState_direction _ _ _ _).symm
  have hp : 0 < (advanceState c' it.state).nextChunkSize :=
    advanceState_pos _ _ (h'.size_eq ▸ hc) hit.pos
  suffices h1 : Progress file.contents size (advanceState c' it.state).toChunkerState
        (chunks (it.after iterators c' (advanceState c' it.state))) ∧
      Sized file.contents size (advanceState c' it.state).toChunkerState
        (chunks (it.after iterators c' (advanceState c' it.state))) from
    ⟨c', _, hn, h', hk, hit.total, hp, h1.1, h1.2⟩
  cases he : it.state.atEnd with
  | false =>
    have hb := hit.progress.bound he
    have hch : chunks (it.after iterators c' (advanceState c' it.state)) =
        chunks it ++ [nextChunk file.contents it.state.toChunkerState] := by
      simp [chunks, Iterator.after, iterators, he, hco hb]
    rw [hch, advanceState_eq h' hit.total hb]
    exact ⟨hit.progress.advance he, .advance hit.progress hit.sized he hc hit.pos⟩
  | true =>
    have hch : chunks (it.after iterators c' (advanceState c' it.state)) = chunks it := by
      simp [chunks, Iterator.after, iterators, he]
    obtain ⟨rfl, _⟩ := h'
    rw [hch]
    exact ⟨hit.progress.advance_atEnd he _ _, hit.sized.advance_atEnd he _ _⟩

end

/-! ## What the iterators deliver -/

/-- What the calls of an iterator have delivered. -/
structure Delivers (file : PARCFile) (chunkSize : Nat) (it : FileIterator) : Prop where
  whole : iterators.hasNext it.state = false → inOrder it.kind (chunks it) = file.contents
  nonempty : ∀ chunk ∈ chunks it, chunk ≠ []
  exact_size : ∀ chunk ∈ (chunks it).dropLast, chunk.length = chunkSize
  fewer : iterators.hasNext it.state = true → it.elements.length < file.contents.length

theorem Good.delivers {it} (h : Good file size it) (hc : 0 < size) : Delivers file size it := by
  have hp := h.progress
  have hs := h.sized
  unfold Sized at hs
  cases he : it.state.atEnd with
  | false =>
    rw [he] at hs
    have hn : ∀ c ∈ chunks it, c ≠ [] := by
      intro c hm
      refine ne_nil_of_length_pos ?_
      rw [hs.1 c hm]
      exact hc
    refine ⟨fun hno => ?_, hn, fun c hm => ?_, fun _ => ?_⟩
    · simp [iterators, he] at hno
    · exact hs.1 c (mem_of_mem_dropLast hm)
    · simpa [chunks] using hp.length_lt he hn h.pos
  | true =>
    rw [if_pos he] at hs
    unfold Progress at hp
    rw [if_pos he] at hp
    refine ⟨fun _ => ?_, hs.1, hs.2, fun hmo => ?_⟩
    · rw [h.kind]
      exact hp
    · simp [iterators, he] at hmo

end

/-- **The chunks of every iterator are the file.** After every history of openings and calls, in
any interleaving, each iterator has delivered chunks that are not empty and, but for the last
one, of the chunk size; those of an iterator that has no next one are the file, in the order of
the iterator's direction; and an iterator that has a next one has no more of them after at most
as many calls as the file has bytes. -/
theorem chunks_deliver_file (file : PARCFile) (hfile : file.contents ≠ []) (chunkSize : Nat)
    (hchunk : 0 < chunkSize) (history : List (Event Direction)) :
    ∃ session, run iterators (newSession file chunkSize) history = pure session ∧
      ∀ i it, session.iterators[i]? = some it → Delivers file chunkSize it ∧
        ∃ k ≤ file.contents.length, ∃ session' it',
          run iterators session (List.replicate k (.next i)) = pure session' ∧
            session'.iterators[i]? = some it' ∧ iterators.hasNext it'.state = false ∧
            inOrder it.kind (chunks it') = file.contents := by
  have hn : Holds (ChunkerOf file chunkSize) (Good file chunkSize) (newSession file chunkSize) :=
    ⟨⟨rfl, rfl, rfl⟩, by simp [newSession]⟩
  obtain ⟨session, hr, h⟩ := run_returns (I := iterators)
    (fun chunker dir h => good_opened h hfile hchunk dir)
    (fun chunker it h hit => Good.after h hit hchunk) hn history
  refine ⟨session, hr, fun i it hi => ?_⟩
  have hit := h.iterators it (List.mem_of_getElem? hi)
  refine ⟨hit.delivers hchunk, ?_⟩
  obtain ⟨k, hk, session', it', hr', hi', hki, _, he, hg⟩ :=
    exists_exhausted (I := iterators) (fun chunker it h hit hm =>
      ⟨(hit.delivers hchunk).fewer hm, Good.after h hit hchunk⟩) h.object hi hit
  refine ⟨k, hk.trans (Nat.sub_le _ _), session', it', hr', hi', he, ?_⟩
  rw [← hki]
  exact (hg.delivers hchunk).whole he

/-- A file of three bytes, read backwards by one iterator and forwards by another in between. -/
theorem chunks_deliver_three :
    ∃ session, run iterators (newSession ⟨[1, 2, 3], by simp⟩ 2)
        [.create .reverse, .create .forward, .next 0, .next 1, .next 0, .next 1] = pure session ∧
      ∀ i it, session.iterators[i]? = some it → Delivers ⟨[1, 2, 3], by simp⟩ 2 it ∧
        ∃ k ≤ 3, ∃ session' it',
          run iterators session (List.replicate k (.next i)) = pure session' ∧
            session'.iterators[i]? = some it' ∧ iterators.hasNext it'.state = false ∧
            inOrder it.kind (chunks it') = [1, 2, 3] :=
  chunks_deliver_file ⟨[1, 2, 3], by simp⟩ (by simp) 2 (by simp) _

end Libparc.FileChunker
