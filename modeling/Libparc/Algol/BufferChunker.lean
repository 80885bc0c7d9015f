import Libparc.Algol.Chunker

/-! # parc_BufferChunker

The iterators of a buffer chunker share the data buffer: each call sets its position first and
leaves it behind the chunk. Going forward, what then remains of the buffer is what the iterator
has still to deliver, whatever the others have done. But a new iterator takes what remains of
the buffer at that moment for the size of the data: one that goes forward has another first
chunk then and delivers everything all the same; one that goes back starts that much too early
and never delivers the rest (`chunks_whole_iff`). -/
namespace Libparc.BufferChunker
open Buffer Chunker Iteration Exec List

/-- `parcBuffer_CreateFromArray`, from an address at which these bytes are. -/
def parcBufferCreateFromArray (bytes : List UInt8) (length : Nat) : Prog PARCBuffer :=
  if length ≤ bytes.length then parcBufferPutArray (parcBufferAllocate length) (bytes.take length)
  else throw .memoryFault

structure PARCBufferChunker where
  chunkSize : Nat
  data : PARCBuffer
  currentElement : Option PARCBuffer

def parcBufferChunkerCreate (data : PARCBuffer) (chunkSize : Nat) : PARCBufferChunker :=
  ⟨chunkSize, data, none⟩

/-- `_InitForward` and `_InitReverse`. -/
def init (direction : Direction) (chunker : PARCBufferChunker) : ChunkerState :=
  Chunker.init chunker.chunkSize (parcBufferRemaining chunker.data) direction

def advanceState (chunker : PARCBufferChunker) (state : ChunkerState) : ChunkerState :=
  Chunker.advanceState chunker.chunkSize (state.position + state.nextChunkSize)
    (parcBufferRemaining chunker.data) state

/-- `_ccnxChunker_NextFromBuffer`. -/
def nextFromBuffer (chunker : PARCBufferChunker) (state : ChunkerState) :
    Prog (PARCBuffer × PARCBufferChunker × ChunkerState) := do
  let chunkSize := state.nextChunkSize
  let data ← parcBufferSetPosition chunker.data state.position
  let (bytes, data) ← parcBufferOverlay data chunkSize
  let slice ← parcBufferCreateFromArray bytes chunkSize
  let chunker := { chunker with data }
  pure (parcBufferFlip slice, chunker, advanceState chunker state)

/-- `_ccnxChunker_Next`. -/
def next (chunker : PARCBufferChunker) (state : ChunkerState) :
    Prog (PARCBufferChunker × ChunkerState) := do
  let (buffer, chunker, state) ← nextFromBuffer chunker state
  pure ({ chunker with currentElement := some buffer }, state)

/-- What the chunker's two calls that open an iterator give to `parcIterator_Create`. -/
def iterators : Interface Trap PARCBufferChunker Direction ChunkerState (Option PARCBuffer) where
  init := init
  hasNext state := !state.atEnd
  next := next
  element := PARCBufferChunker.currentElement

abbrev BufferIterator := Iterator PARCBufferChunker Direction ChunkerState (Option PARCBuffer)

/-- A chunker that no iterator was opened on yet. -/
def newSession (data : PARCBuffer) (chunkSize : Nat) :
    Session PARCBufferChunker Direction ChunkerState (Option PARCBuffer) :=
  ⟨parcBufferChunkerCreate data chunkSize, []⟩

def chunks (it : BufferIterator) : List (List UInt8) := it.elements.map chunkOf

/-! ## A call -/

/-- The chunker of these bytes, whatever the position of its buffer is. -/
structure ChunkerOf (bytes : List UInt8) (chunkSize : Nat) (chunker : PARCBufferChunker) :
    Prop where
  size_eq : chunker.chunkSize = chunkSize
  valid : chunker.data.Valid
  bytes_eq : { chunker.data with position := 0 }.remainingBytes = bytes
  fits : chunker.data.array.length < 2 ^ 63

section
variable {bs : List UInt8} {size : Nat} {c c' : PARCBufferChunker}
  {st st' : ChunkerState}

section
variable (h : ChunkerOf bs size c)
include h

theorem ChunkerOf.limit_eq : c.data.limit = bs.length := by
  have hv : { c.data with position := 0, mark := none }.Valid :=
    ⟨nofun, Nat.zero_le _, h.valid.limit_le, h.valid.capacity_le⟩
  rw [← h.bytes_eq]
  exact (length_remainingBytes hv).symm

theorem ChunkerOf.remainingBytes_eq : c.data.remainingBytes = bs.drop c.data.position := by
  rw [← h.bytes_eq, ← remainingBytes_advance]
  simp [PARCBuffer.remainingBytes, PARCBuffer.advance]

theorem ChunkerOf.setPosition {pos} (hp : pos ≤ bs.length) :
    ∃ data, parcBufferSetPosition c.data pos = pure data ∧ data.position = pos ∧
      ChunkerOf bs size { c with data } := by
  have hle : pos ≤ c.data.limit := h.limit_eq.symm ▸ hp
  refine ⟨_, setPosition_of_le hle, rfl, h.size_eq, ⟨fun m hm => ?_, hle, ?_, ?_⟩, h.bytes_eq,
    h.fits⟩
  · simpa using (Option.filter_eq_some_iff.mp hm).2
  · exact h.valid.limit_le
  · exact h.valid.capacity_le

end

theorem createFromArray_flip (src : List UInt8) {length} (h : length ≤ src.length) :
    ∃ slice, parcBufferCreateFromArray src length = pure slice ∧
      (parcBufferFlip slice).remainingBytes = src.take length := by
  have hl := length_take_of_le h
  obtain ⟨slice, hp, hw⟩ :=
    putArray_spec (valid_allocate length) (show (src.take length).length ≤ _ from hl.le)
  refine ⟨slice, by rw [parcBufferCreateFromArray, if_pos h, hp], ?_⟩
  rw [remainingBytes_flip, hw.written]
  rfl

theorem next_eq (h : ChunkerOf bs size c) (hb : st.position + st.nextChunkSize ≤ bs.length)
    (hp : st.position < bs.length) :
    ∃ c', next c st = pure (c', advanceState c' st) ∧ ChunkerOf bs size c' ∧
      parcBufferRemaining c'.data = bs.length - (st.position + st.nextChunkSize) ∧
      chunkOf c'.currentElement = nextChunk bs st := by
  obtain ⟨data, hs, hd, h'⟩ := h.setPosition hp.le
  have hl : data.limit = bs.length := h'.limit_eq
  have hle : data.limit ≤ data.capacity := h'.valid.limit_le
  have hc : data.arrayOffset + data.capacity ≤ data.array.length := h'.valid.capacity_le
  have hr : data.remainingBytes = bs.drop data.position := h'.remainingBytes_eq
  have hro : st.nextChunkSize ≤ parcBufferRemaining data := by
    rw [show _ = data.limit - data.position from h'.valid.remaining]
    omega
  have hso : st.nextChunkSize ≤ (data.array.drop (effectivePosition data)).length := by
    rw [length_drop, effectivePosition]
    omega
  have hre : st.nextChunkSize ≤ data.remainingBytes.length := by
    rw [hr, length_drop]
    omega
  obtain ⟨slice, hcr, hsl⟩ := createFromArray_flip _ hso
  refine ⟨⟨c.chunkSize, data.advance st.nextChunkSize, some (parcBufferFlip slice)⟩,
    ?_, ⟨h.size_eq, ?_, h'.bytes_eq, h'.fits⟩, ?_, ?_⟩
  · have ho := overlay_of (b := data) (n := st.nextChunkSize) (by omega)
      (by rw [effectivePosition]; omega)
    simp only [next, nextFromBuffer, hs, ho, hcr, pure_bind]
    rfl
  · exact h'.valid.advance hre
  · refine (h'.valid.advance hre).remaining.trans ?_
    show data.limit - (data.position + st.nextChunkSize) = _
    rw [hl, hd]
  · show (parcBufferFlip slice).remainingBytes = _
    rw [hsl, take_array h'.valid hro, hr, hd]
    rfl

theorem next_ne_pure (h : ChunkerOf bs size c) (hs : st.nextChunkSize ≤ bs.length)
    (hb : bs.length < st.position + st.nextChunkSize) {r} : next c st ≠ pure r := by
  have hl := h.limit_eq
  have hle := h.valid.limit_le
  have hc := h.valid.capacity_le
  have hf := h.fits
  intro hn
  obtain ⟨_, hn, _⟩ := bind_eq_pure.mp hn
  obtain ⟨data, hse, hn⟩ := bind_eq_pure.mp hn
  obtain ⟨_, ho, _⟩ := bind_eq_pure.mp hn
  obtain ⟨_, hassert, hd⟩ := bind_eq_pure.mp hse
  obtain ⟨_, ht, _⟩ := bind_eq_pure.mp ho
  cases hd
  have hp := of_decide_eq_true (of_assertTrue hassert)
  have hi : ¬ (st.position + st.nextChunkSize) % 2 ^ 64 > c.data.limit :=
    not_of_trapOutOfBoundsIf ht
  omega

/-! ## An iterator by itself -/

/-- The part of the data that the iterator delivers: what it takes for the data when it is
opened, and everything if it goes forward. -/
def covered (bytes : List UInt8) (it : BufferIterator) : List UInt8 :=
  match it.kind with
  | .forward => bytes
  | .reverse => bytes.take (parcBufferRemaining it.openedOn.data)

/-- Only the first chunk may be empty, so the chunks are not more than the bytes. -/
def Counted (total : Nat) (state : ChunkerState) (chunks : List (List UInt8)) : Prop :=
  (chunks.length = 0 ∨ 0 < state.nextChunkSize) ∧
    match state.direction with
    | .forward => chunks.length ≤ state.position + 1
    | .reverse => chunks.length + (state.position + state.nextChunkSize) ≤ total

theorem Counted.initForward (total size rem : Nat) :
    Counted total (initForward size rem) [] := ⟨.inl rfl, Nat.zero_le _⟩

theorem Counted.initReverse (size rem : Nat) : Counted rem (initReverse size rem) [] := by
  have hle := init_le .reverse size rem
  refine ⟨.inl rfl, ?_⟩
  have hd := init_direction .reverse size rem
  simp only [Chunker.init] at hle hd
  rw [hd]
  simpa using hle

theorem Counted.advance {cs total pos rem} (h : Counted total st cs) (hc : 0 < size)
    (hp : pos = st.position + st.nextChunkSize) (c : List UInt8)
    (hl : (Chunker.advanceState size pos rem st).atEnd = false) :
    Counted total (Chunker.advanceState size pos rem st) (cs ++ [c]) := by
  obtain ⟨num, dir, atEnd, start, next⟩ := st
  obtain ⟨hn, h⟩ := h
  cases dir with
  | forward =>
    simp only [Chunker.advanceState, advanceStateForward] at hl ⊢
    have hco : (cs ++ [c]).length ≤ pos + 1 := by
      rw [length_append, length_singleton]
      omega
    split_ifs at hl ⊢
    · exact ⟨.inr hc, hco⟩
    · exact ⟨.inr (by simp only; omega), hco⟩
  | reverse =>
    simp only [Chunker.advanceState, advanceStateBackward] at hl ⊢
    simp only at h hn
    split_ifs at hl ⊢
    all_goals
      refine ⟨.inr (by simp only; omega), ?_⟩
      simp only [length_append, length_singleton]
      omega

/-- What holds of an iterator between its calls. -/
structure Good (bytes : List UInt8) (chunkSize : Nat) (it : BufferIterator) : Prop where
  kind : it.kind = it.state.direction
  openedOn : ChunkerOf bytes chunkSize it.openedOn
  size_le : it.state.nextChunkSize ≤ bytes.length
  inside : it.state.position < bytes.length ∨ 0 < it.state.nextChunkSize
  progress : Progress (covered bytes it) chunkSize it.state (chunks it)
  counted : it.state.atEnd = false → Counted (covered bytes it).length it.state (chunks it)

theorem good_opened (h : ChunkerOf bs size c) (hb : 0 < bs.length)
    (hc : 0 < size) (dir : Direction) : Good bs size (opened iterators c dir) := by
  have hr : parcBufferRemaining c.data ≤ bs.length := by
    rw [h.valid.remaining, h.limit_eq]
    exact Nat.sub_le _ _
  have hle : (init dir c).position + (init dir c).nextChunkSize ≤
      parcBufferRemaining c.data := init_le _ _ _
  have hp : 0 < parcBufferRemaining c.data → 0 < (init dir c).nextChunkSize :=
    init_pos dir (h.size_eq ▸ hc)
  have hs : Progress (covered bs (opened iterators c dir)) size (init dir c) [] ∧
      Counted (covered bs (opened iterators c dir)).length (init dir c) [] := by
    rw [← h.size_eq]
    cases dir with
    | forward => exact ⟨.initForward hr, .initForward _ _ _⟩
    | reverse =>
      have hl : (bs.take (parcBufferRemaining c.data)).length =
          parcBufferRemaining c.data := length_take_of_le hr
      show Progress (bs.take _) _ (initReverse _ _) [] ∧
        Counted (bs.take _).length (initReverse _ _) []
      rw [← hl]
      exact ⟨.initReverse _ _, .initReverse _ _⟩
  exact ⟨(init_direction _ _ _).symm, h, show (init dir c).nextChunkSize ≤ _ by omega,
    show (init dir c).position < _ ∨ 0 < (init dir c).nextChunkSize by
      omega, hs.1, fun _ => hs.2⟩

variable {it : BufferIterator}

theorem Good.advanceState_eq (hit : Good bs size it) (h : ChunkerOf bs size c)
    (hr : parcBufferRemaining c.data = bs.length - (it.state.position + it.state.nextChunkSize)) :
    advanceState c it.state = Chunker.advanceState size (it.state.position + it.state.nextChunkSize)
        ((covered bs it).length - (it.state.position + it.state.nextChunkSize)) it.state := by
  have hk := hit.kind
  unfold advanceState
  rw [h.size_eq]
  unfold covered
  split
  · rw [hr]
  · rename_i heq
    exact advanceState_reverse (hk.symm.trans heq) _ _ _ _

theorem Good.nextChunk_eq (hit : Good bs size it) (hl : it.state.atEnd = false) :
    nextChunk bs it.state = nextChunk (covered bs it) it.state := by
  have hb := hit.progress.bound hl
  unfold covered at hb ⊢
  split
  · rfl
  · rename_i heq
    simp only [heq, length_take] at hb
    rw [nextChunk, nextChunk, drop_take, take_take, Nat.min_eq_left (by omega)]

theorem advanceState_inside (hs : st.nextChunkSize ≤ bs.length) (hp : st.position < bs.length)
    (hb : st.position + st.nextChunkSize ≤ bs.length) :
    let st' := Chunker.advanceState size (st.position + st.nextChunkSize)
      (bs.length - (st.position + st.nextChunkSize)) st
    st'.nextChunkSize ≤ bs.length ∧ (st'.position < bs.length ∨ 0 < st'.nextChunkSize) := by
  obtain ⟨num, dir, atEnd, start, next⟩ := st
  simp only at hs hp hb
  cases dir with
  | forward =>
    simp only [Chunker.advanceState, advanceStateForward]
    split_ifs <;> simp only <;> omega
  | reverse =>
    simp only [Chunker.advanceState, advanceStateBackward]
    split_ifs <;> simp only <;> omega

theorem Good.after (h : ChunkerOf bs size c) (hit : Good bs size it)
    (hc : 0 < size) (hb : it.state.position + it.state.nextChunkSize ≤ bs.length) :
    ∃ c' st', next c it.state = pure (c', st') ∧ ChunkerOf bs size c' ∧
      Good bs size (it.after iterators c' st') := by
  have hp : it.state.position < bs.length := by
    rcases hit.inside with hi | hi <;> omega
  obtain ⟨c', hn, h', hr, hco⟩ := next_eq h hb hp
  refine ⟨c', _, hn, h', ?_⟩
  have hd : (advanceState c' it.state).direction = it.state.direction :=
    advanceState_direction _ _ _ _
  obtain ⟨hs, hi⟩ : (advanceState c' it.state).nextChunkSize ≤ bs.length ∧
      ((advanceState c' it.state).position < bs.length ∨
        0 < (advanceState c' it.state).nextChunkSize) := by
    unfold advanceState
    rw [hr]
    exact advanceState_inside hit.size_le hp hb
  have hst := hit.advanceState_eq h' hr
  -- The data that the iterator covers were fixed when it was opened.
  suffices h1 : Progress (covered bs it) size (advanceState c' it.state)
        (chunks (it.after iterators c' (advanceState c' it.state))) ∧
      ((advanceState c' it.state).atEnd = false →
        Counted (covered bs it).length (advanceState c' it.state)
          (chunks (it.after iterators c' (advanceState c' it.state)))) from
    ⟨hit.kind.trans hd.symm, hit.openedOn, hs, hi, h1.1, h1.2⟩
  cases he : it.state.atEnd with
  | false =>
    have hch : chunks (it.after iterators c' (advanceState c' it.state)) =
        chunks it ++ [nextChunk (covered bs it) it.state] := by
      rw [← hit.nextChunk_eq he, ← hco]
      simp [chunks, Iterator.after, iterators, he]
    rw [hch, hst]
    exact ⟨hit.progress.advance he, (hit.counted he).advance hc rfl _⟩
  | true =>
    have hch : chunks (it.after iterators c' (advanceState c' it.state)) = chunks it := by
      simp [chunks, Iterator.after, iterators, he]
    rw [hch, hst]
    refine ⟨hit.progress.advance_atEnd he _ _, fun hl => ?_⟩
    rw [advanceState_atEnd _ _ _ he] at hl
    cases hl

theorem Good.of_next {c c' st'} (hit : Good bs size it) (h : ChunkerOf bs size c) (hc : 0 < size)
    (hca : next c it.state = pure (c', st')) :
    ChunkerOf bs size c' ∧ Good bs size (it.after iterators c' st') := by
  by_cases hb : it.state.position + it.state.nextChunkSize ≤ bs.length
  · obtain ⟨_, _, hc', h'⟩ := hit.after h hc hb
    rw [hca] at hc'
    cases hc'
    exact h'
  · exact absurd hca (next_ne_pure h hit.size_le (Nat.lt_of_not_le hb))

theorem covered_length_le (bs : List UInt8) (it : BufferIterator) :
    (covered bs it).length ≤ bs.length := by
  unfold covered
  split
  · exact Nat.le_refl _
  · rw [length_take]
    exact Nat.min_le_right _ _

theorem covered_congr {it'} (hk : it'.kind = it.kind)
    (hopened : it'.openedOn = it.openedOn) : covered bs it' = covered bs it := by
  unfold covered
  rw [hk, hopened]

theorem Good.length_le (hit : Good bs size it) (hl : it.state.atEnd = false) :
    it.elements.length ≤ bs.length := by
  have hb := hit.progress.bound hl
  have hc := hit.counted hl
  have hle : it.elements.length = (chunks it).length := by simp [chunks]
  have hco := covered_length_le bs it
  obtain ⟨hn, hcn⟩ := hc
  cases hd : it.state.direction with
  | forward | reverse =>
    simp only [hd] at hcn
    omega

theorem Good.inOrder_eq (hit : Good bs size it) (he : iterators.hasNext it.state = false) :
    inOrder it.kind (chunks it) = covered bs it := by
  have hae : it.state.atEnd = true := by simpa [iterators] using he
  have hp := hit.progress
  unfold Progress at hp
  rw [if_pos hae, ← hit.kind] at hp
  exact hp

theorem Good.covered_eq_iff (hit : Good bs size it) :
    covered bs it = bs ↔ (it.kind = .reverse → it.openedOn.data.position = 0) := by
  have hl := hit.openedOn.limit_eq
  have hp := hit.openedOn.valid.position_le
  unfold covered
  split
  · rename_i heq
    simp [heq]
  · rename_i heq
    rw [take_eq_self_iff, hit.openedOn.valid.remaining]
    simp only [heq, forall_const]
    omega

end

abbrev BufferSession := Session PARCBufferChunker Direction ChunkerState (Option PARCBuffer)

/-- Whatever is called from now on, once the iterator is at its end its chunks are the bytes. -/
def DeliversWhole (bytes : List UInt8) (session : BufferSession) (i : Nat) : Prop :=
  ∀ history session' it, run iterators session history = pure session' →
    session'.iterators[i]? = some it → iterators.hasNext it.state = false →
    inOrder it.kind (chunks it) = bytes

/-- At most so many calls of the iterator bring it to its end. -/
def EndsWithin (bound : Nat) (session : BufferSession) (i : Nat) : Prop :=
  ∃ k ≤ bound, ∃ session' it,
    run iterators session (List.replicate k (.next i)) = pure session' ∧
      session'.iterators[i]? = some it ∧ iterators.hasNext it.state = false

/-- **The chunks of an iterator are the data, in every continuation of every history, exactly if
the iterator goes forward or was opened while the buffer was at its beginning.** Every iterator
comes to its end, after at most as many calls as the data has bytes and one more. -/
theorem chunks_whole_iff (data : PARCBuffer) (hvalid : data.Valid) (hposition : data.position = 0)
    (hdata : data.remainingBytes ≠ []) (hfits : data.array.length < 2 ^ 63) (chunkSize : Nat)
    (hchunk : 0 < chunkSize) (history : List (Event Direction)) (session : BufferSession)
    (hrun : run iterators (newSession data chunkSize) history = pure session) (i : Nat)
    (it : BufferIterator) (hi : session.iterators[i]? = some it) :
    (DeliversWhole data.remainingBytes session i ↔
      (it.kind = .reverse → it.openedOn.data.position = 0)) ∧
    (iterators.hasNext it.state = true → it.elements.length ≤ data.remainingBytes.length) ∧
    EndsWithin (data.remainingBytes.length + 1) session i := by
  have hb : 0 < data.remainingBytes.length := List.length_pos_of_ne_nil hdata
  have hn : Holds (ChunkerOf data.remainingBytes chunkSize) (Good data.remainingBytes chunkSize)
      (newSession data chunkSize) := by
    refine ⟨⟨rfl, hvalid, ?_, hfits⟩, by simp [newSession]⟩
    simp [newSession, parcBufferChunkerCreate, PARCBuffer.remainingBytes, hposition]
  have hne := fun chunker (it : BufferIterator) chunker' state'
      (h : ChunkerOf data.remainingBytes chunkSize chunker)
      (hit : Good data.remainingBytes chunkSize it)
      (hc : next chunker it.state = pure (chunker', state')) => hit.of_next h hchunk hc
  have hopen := fun chunker direction (h : ChunkerOf data.remainingBytes chunkSize chunker) =>
    good_opened h hb hchunk direction
  have hs := run_invariant (I := iterators) hopen hne hn hrun
  have hit := hs.iterators it (List.mem_of_getElem? hi)
  obtain ⟨k, hk, session1, it1, hr1, hi1, hki, hopened, he, hg⟩ :=
    exists_exhausted (I := iterators) (fun chunker it h hit hm =>
        have hl : it.state.atEnd = false := by simpa [iterators] using hm
        ⟨Nat.lt_succ_of_le (hit.length_le hl),
          hit.after h hchunk ((hit.progress.bound hl).trans (covered_length_le _ it))⟩)
      hs.object hi hit
  refine ⟨?_, fun hm => hit.length_le (by simpa [iterators] using hm),
    k, hk.trans (Nat.sub_le _ _), session1, it1, hr1, hi1, he⟩
  rw [← hit.covered_eq_iff]
  constructor
  · intro ha
    rw [← covered_congr hki hopened, ← hg.inOrder_eq he]
    exact ha _ session1 it1 hr1 hi1 he
  · intro hco hist' session' it' hr' hi' he'
    obtain ⟨it2, hi2, hk', hopened'⟩ := run_keeps hi hr'
    cases hi'.symm.trans hi2
    have hs' := run_invariant (I := iterators) hopen hne hs hr'
    have hg' := hs'.iterators it' (List.mem_of_getElem? hi')
    rw [hg'.inOrder_eq he', covered_congr hk' hopened', hco]

/-- An iterator that goes back, opened before anything was read. -/
theorem chunks_whole_first :
    DeliversWhole [1, 2] ⟨parcBufferChunkerCreate ⟨[1, 2], 2, 0, 0, 2, none⟩ 1,
      [opened iterators (parcBufferChunkerCreate ⟨[1, 2], 2, 0, 0, 2, none⟩ 1) .reverse]⟩ 0 :=
  (chunks_whole_iff ⟨[1, 2], 2, 0, 0, 2, none⟩ ⟨nofun, by simp, by simp, by simp⟩ rfl nofun
    (by simp) 1 (by simp) [.create .reverse] _ rfl 0 _ rfl).1.mpr fun _ => rfl

/-- A buffer of two bytes that was read forwards: an iterator that goes back then delivers an
empty chunk and is at its end. -/
theorem reverse_after_forward_is_empty :
    (do
      let session ← run iterators (newSession ⟨[1, 2], 2, 0, 0, 2, none⟩ 1)
        [.create .forward, .next 0, .next 0, .create .reverse, .next 1]
      pure (session.iterators.map fun it => (it.kind, chunks it, iterators.hasNext it.state))) =
    (pure [(.forward, [[1], [2]], false), (.reverse, [[]], false)] :
      Prog (List (Direction × List (List UInt8) × Bool))) := rfl

end Libparc.BufferChunker
