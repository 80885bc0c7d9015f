import Libparc.Algol.Buffer
import Libparc.Iteration

/-! # The state of a chunker's iterators

The chunkers of parc_FileChunker and parc_BufferChunker step through their data with the same
state: where the next chunk is and how long it is. Going forward, the rest of the data decides
on the length of the next chunk; going back, the chunks keep their length until the beginning
is nearer than that. `Progress` says which part of the data the chunks so far are, and the steps
keep it (`Progress.advance`). -/
namespace Libparc.Chunker
open Buffer List

inductive Direction where
  | forward
  | reverse
  deriving DecidableEq

/-- `struct _parc_chunker_state`, without the size of a file. -/
structure ChunkerState where
  chunkNumber : Nat
  direction : Direction
  atEnd : Bool
  position : Nat
  nextChunkSize : Nat

/-- `_InitForward`, on data of which `remaining` bytes are to be read. -/
def initForward (chunkSize remaining : Nat) : ChunkerState :=
  ⟨0, .forward, false, 0, if remaining < chunkSize then remaining else chunkSize⟩

/-- `_InitReverse`. -/
def initReverse (chunkSize remaining : Nat) : ChunkerState :=
  if remaining < chunkSize then ⟨0, .reverse, false, 0, remaining⟩
  else ⟨0, .reverse, false, remaining - chunkSize, chunkSize⟩

def init (chunkSize remaining : Nat) : Direction → ChunkerState
  | .forward => initForward chunkSize remaining
  | .reverse => initReverse chunkSize remaining

/-- `_advanceStateForward`, with the new position and what remains of the data behind it. -/
def advanceStateForward (chunkSize position remaining : Nat) (state : ChunkerState) :
    ChunkerState :=
  if remaining = 0 then { state with position, atEnd := true }
  else if remaining > chunkSize then
    { state with position, nextChunkSize := chunkSize }
  else { state with position, nextChunkSize := remaining }

def advanceStateBackward (chunkSize : Nat) (state : ChunkerState) : ChunkerState :=
  if state.nextChunkSize ≠ chunkSize ∨ state.position = 0 then { state with atEnd := true }
  else if state.position < state.nextChunkSize then
    { state with nextChunkSize := state.position, position := 0 }
  else { state with position := state.position - state.nextChunkSize }

def advanceState (chunkSize position remaining : Nat) (state : ChunkerState) : ChunkerState :=
  let state := { state with chunkNumber := state.chunkNumber + 1 }
  match state.direction with
  | .forward => advanceStateForward chunkSize position remaining state
  | .reverse => advanceStateBackward chunkSize state

/-- The bytes of the buffer that a call of an iterator returns; a NULL has none. -/
def chunkOf (element : Option PARCBuffer) : List UInt8 := element.elim [] PARCBuffer.remainingBytes

/-- The chunks put together in the order of the data. -/
def inOrder : Direction → List (List UInt8) → List UInt8
  | .forward, chunks => chunks.flatten
  | .reverse, chunks => chunks.reverse.flatten

/-- The part of the data that the state says is next. -/
def nextChunk (data : List UInt8) (state : ChunkerState) : List UInt8 :=
  (data.drop state.position).take state.nextChunkSize

/-! ## Which part of the data the chunks are -/

/-- The chunks are what is before the next one, or behind it for an iterator that goes back; at
the end they are the whole data. -/
def Progress (data : List UInt8) (chunkSize : Nat) (state : ChunkerState)
    (chunks : List (List UInt8)) : Prop :=
  if state.atEnd then inOrder state.direction chunks = data
  else state.position + state.nextChunkSize ≤ data.length ∧
    match state.direction with
    | .forward => chunks.flatten = data.take state.position
    | .reverse => chunks.reverse.flatten = data.drop (state.position + state.nextChunkSize) ∧
        (state.nextChunkSize = chunkSize ∨ state.position = 0)

section
variable {data : List UInt8} {size : Nat} {st : ChunkerState} {cs : List (List UInt8)}
variable (dir : Direction)

theorem take_append_nextChunk (data : List UInt8) (st : ChunkerState) :
    data.take st.position ++ nextChunk data st =
      data.take (st.position + st.nextChunkSize) := take_add.symm

theorem nextChunk_append_drop (data : List UInt8) (st : ChunkerState) :
    nextChunk data st ++ data.drop (st.position + st.nextChunkSize) = data.drop st.position := by
  rw [nextChunk, ← drop_drop, take_append_drop]

theorem Progress.bound (h : Progress data size st cs) (hl : st.atEnd = false) :
    st.position + st.nextChunkSize ≤ data.length := by
  unfold Progress at h
  rw [hl] at h
  exact h.1

theorem nextChunk_length (h : st.position + st.nextChunkSize ≤ data.length) :
    (nextChunk data st).length = st.nextChunkSize := by
  rw [nextChunk, length_take, length_drop]
  omega

theorem Progress.initForward {rem} (h : rem ≤ data.length) :
    Progress data size (initForward size rem) [] := by
  simp only [Chunker.initForward, Progress, Bool.false_eq_true, if_false]
  refine ⟨?_, rfl⟩
  split <;> omega

theorem Progress.initReverse (data : List UInt8) (size : Nat) :
    Progress data size (initReverse size data.length) [] := by
  simp only [Chunker.initReverse]
  split
  · simp [Progress]
  · simp only [Progress, Bool.false_eq_true, if_false]
    refine ⟨by omega, ?_, .inl trivial⟩
    rw [Nat.sub_add_cancel (by omega), drop_length]
    rfl

theorem Progress.init (data : List UInt8) (size : Nat) :
    Progress data size (init size data.length dir) [] := by
  cases dir with
  | forward => exact .initForward (Nat.le_refl _)
  | reverse => exact .initReverse data size

theorem init_direction (direction : Direction) (size rem : Nat) :
    (init size rem direction).direction = direction := by
  cases direction with
  | forward => rfl
  | reverse =>
    simp only [init, initReverse]
    split <;> rfl

theorem init_pos {rem} (hc : 0 < size) (hr : 0 < rem) : 0 < (init size rem dir).nextChunkSize := by
  cases dir with
  | forward =>
    simp only [init, initForward]
    split <;> assumption
  | reverse =>
    simp only [init, initReverse]
    split <;> assumption

theorem init_le (size remaining : Nat) :
    (init size remaining dir).position + (init size remaining dir).nextChunkSize ≤ remaining := by
  cases dir with
  | forward =>
    simp only [init, initForward]
    split <;> omega
  | reverse =>
    simp only [init, initReverse]
    split <;> simp only <;> omega

theorem Progress.advance (h : Progress data size st cs) (hl : st.atEnd = false) :
    Progress data size (advanceState size (st.position + st.nextChunkSize)
        (data.length - (st.position + st.nextChunkSize)) st) (cs ++ [nextChunk data st]) := by
  obtain ⟨num, dir, atEnd, position, next⟩ := st
  cases hl
  obtain ⟨hb, h⟩ := h
  cases dir with
  | forward =>
    have hf : (cs ++ [nextChunk data ⟨num, .forward, false, position, next⟩]).flatten =
        data.take (position + next) := by
      rw [flatten_concat, h]
      exact take_append_nextChunk data _
    simp only [advanceState, advanceStateForward]
    split
    · simp only [Progress, if_true, inOrder, hf]
      rw [take_of_length_le (by omega)]
    split <;> simp only [Progress, Bool.false_eq_true, if_false, hf, and_true] <;>
      simp only at hb <;> omega
  | reverse =>
    obtain ⟨h, hs⟩ := h
    have hf : (cs ++ [nextChunk data ⟨num, .reverse, false, position, next⟩]).reverse.flatten =
          data.drop position := by
      rw [reverse_concat, flatten_cons, h]
      exact nextChunk_append_drop data _
    simp only [advanceState, advanceStateBackward]
    simp only at hb hs
    split
    · have hz : position = 0 := by omega
      simp only [Progress, if_true, inOrder]
      rw [hf, hz, drop_zero]
    split
    · simp only [Progress, Bool.false_eq_true, if_false, hf, Nat.zero_add]
      exact ⟨by omega, trivial, .inr trivial⟩
    · simp only [Progress, Bool.false_eq_true, if_false, hf]
      refine ⟨by omega, ?_, by omega⟩
      rw [Nat.sub_add_cancel (by omega)]

/-! ## How long the chunks are -/

/-- All chunks so far have the chunk size, and at the end all but the last one. -/
def Sized (data : List UInt8) (chunkSize : Nat) (state : ChunkerState)
    (chunks : List (List UInt8)) : Prop :=
  if state.atEnd then
    (∀ chunk ∈ chunks, chunk ≠ []) ∧ ∀ chunk ∈ chunks.dropLast, chunk.length = chunkSize
  else (∀ chunk ∈ chunks, chunk.length = chunkSize) ∧
    match state.direction with
    | .forward => state.nextChunkSize = chunkSize ∨
        state.position + state.nextChunkSize = data.length
    | .reverse => True

theorem Sized.init (data : List UInt8) (size : Nat) :
    Sized data size (init size data.length dir) [] := by
  cases dir with
  | forward =>
    simp only [Chunker.init, initForward, Sized, Bool.false_eq_true, if_false]
    refine ⟨by simp, ?_⟩
    split <;> simp
  | reverse =>
    simp only [Chunker.init, initReverse]
    split <;> simp [Sized]

theorem sized_last {last} (hc : 0 < size) (h : ∀ c ∈ cs, c.length = size) (hl : 0 < last.length) :
    (∀ c ∈ cs ++ [last], c ≠ []) ∧ ∀ c ∈ (cs ++ [last]).dropLast, c.length = size := by
  rw [dropLast_concat]
  refine ⟨fun c hm => ne_nil_of_length_pos ?_, h⟩
  rcases mem_append.mp hm with hm | hm
  · rw [h c hm]
    exact hc
  · rw [mem_singleton.mp hm]
    exact hl

theorem sized_snoc {next} (h : ∀ c ∈ cs, c.length = size)
    (hn : next.length = size) : ∀ c ∈ cs ++ [next], c.length = size := by
  intro c hm
  rcases mem_append.mp hm with hm | hm
  · exact h c hm
  · rw [mem_singleton.mp hm]
    exact hn

theorem Sized.advance (hp : Progress data size st cs)
    (h : Sized data size st cs) (hl : st.atEnd = false) (hc : 0 < size)
    (hpo : 0 < st.nextChunkSize) :
    Sized data size (advanceState size (st.position + st.nextChunkSize)
        (data.length - (st.position + st.nextChunkSize)) st) (cs ++ [nextChunk data st]) := by
  obtain ⟨num, dir, atEnd, pos, next⟩ := st
  cases hl
  obtain ⟨hb, hp⟩ := hp
  obtain ⟨ha, h⟩ := h
  have hle := nextChunk_length hb
  have hla := sized_last hc ha (hle.symm ▸ hpo)
  simp only at hb hle
  cases dir with
  | forward =>
    simp only [advanceState, advanceStateForward]
    simp only at h
    split
    · simpa only [Sized, if_true] using hla
    · have ha' := sized_snoc ha (hle.trans (by omega))
      split
      · simpa [Sized] using ha'
      · simp only [Sized, Bool.false_eq_true, if_false]
        exact ⟨ha', .inr (by omega)⟩
  | reverse =>
    simp only [advanceState, advanceStateBackward]
    split
    · simpa only [Sized, if_true] using hla
    · have ha' := sized_snoc ha (hle.trans (by omega))
      split <;> simpa [Sized] using ha'

theorem length_le_flatten (h : ∀ c ∈ cs, c ≠ []) : cs.length ≤ cs.flatten.length := by
  rw [length_flatten, ← length_map (f := length)]
  refine length_le_sum_of_one_le _ fun n hn => ?_
  obtain ⟨c, hm, rfl⟩ := mem_map.mp hn
  exact length_pos_of_ne_nil (h c hm)

theorem Progress.length_lt (h : Progress data size st cs)
    (hl : st.atEnd = false) (hc : ∀ c ∈ cs, c ≠ [])
    (hp : 0 < st.nextChunkSize) : cs.length < data.length := by
  obtain ⟨num, dir, atEnd, pos, next⟩ := st
  cases hl
  obtain ⟨hb, h⟩ := h
  have hle := length_le_flatten hc
  cases dir with
  | forward =>
    rw [h, length_take] at hle
    omega
  | reverse =>
    have hf : cs.flatten.length = cs.reverse.flatten.length := by simp
    rw [hf, h.1, length_drop] at hle
    omega

end

theorem advanceState_direction (chunkSize pos rem : Nat) (state : ChunkerState) :
    (advanceState chunkSize pos rem state).direction = state.direction := by
  obtain ⟨num, direction, atEnd, start, next⟩ := state
  cases direction with
  | forward =>
    simp only [advanceState, advanceStateForward]
    split_ifs <;> rfl
  | reverse =>
    simp only [advanceState, advanceStateBackward]
    split_ifs <;> rfl

variable {state : ChunkerState} {size : Nat}

theorem advanceState_reverse (h : state.direction = .reverse) (pos rem pos' rem' : Nat) :
    advanceState size pos rem state = advanceState size pos' rem' state := by
  simp only [advanceState, h]

theorem advanceState_atEnd (size pos rem : Nat) (he : state.atEnd = true) :
    (advanceState size pos rem state).atEnd = true := by
  obtain ⟨num, dir, atEnd, start, next⟩ := state
  cases dir with
  | forward =>
    simp only [advanceState, advanceStateForward]
    split_ifs
    · rfl
    all_goals exact he
  | reverse =>
    simp only [advanceState, advanceStateBackward]
    split_ifs
    · rfl
    all_goals exact he

theorem Progress.advance_atEnd {data chunks}
    (h : Progress data size state chunks) (he : state.atEnd = true) (pos rem : Nat) :
    Progress data size (advanceState size pos rem state) chunks := by
  unfold Progress at h ⊢
  rw [if_pos he] at h
  rw [if_pos (advanceState_atEnd _ _ _ he), advanceState_direction]
  exact h

theorem Sized.advance_atEnd {data chunks}
    (h : Sized data size state chunks) (he : state.atEnd = true) (pos rem : Nat) :
    Sized data size (advanceState size pos rem state) chunks := by
  unfold Sized at h ⊢
  rw [if_pos he] at h
  rw [if_pos (advanceState_atEnd _ _ _ he)]
  exact h

theorem advanceState_pos (pos rem : Nat) (hc : 0 < size) (hp : 0 < state.nextChunkSize) :
    0 < (advanceState size pos rem state).nextChunkSize := by
  obtain ⟨num, dir, atEnd, start, next⟩ := state
  cases dir with
  | forward =>
    simp only [advanceState, advanceStateForward]
    split_ifs with hz
    · exact hp
    · exact hc
    · exact Nat.pos_of_ne_zero hz
  | reverse =>
    simp only [advanceState, advanceStateBackward]
    split_ifs with he
    · exact hp
    · exact Nat.pos_of_ne_zero (not_or.mp he).2
    · exact hp

end Libparc.Chunker
