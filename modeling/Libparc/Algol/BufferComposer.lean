import Libparc.Algol.BufferWords

/-! # parc_BufferComposer

A composer appends to a buffer that it replaces by a larger one when there is
no room. `handle` says which of these buffers it has now, so that a pointer to
an earlier one can be told from a pointer to the present one.

From its creation on and under every `Put`, a composer holds what was put into
it so far (`Composes`). -/
namespace Libparc.BufferComposer
open Buffer Exec List

/-- `struct parc_buffer_composer`. -/
structure PARCBufferComposer where
  incrementHeuristic : Nat
  buffer : PARCBuffer
  handle : Nat
  deriving DecidableEq, Repr

def parcMemoryRoundUpToMultiple (size multiple : Nat) : Nat :=
  if size = 0 then multiple
  else if multiple = 0 then size
  else if size % multiple = 0 then size
  else size + multiple - size % multiple

/-- `lineSize` is the `LEVEL1_DCACHE_LINESIZE` of the build. -/
def parcMemoryRoundUpToCacheLine (lineSize size : Nat) : Nat :=
  parcMemoryRoundUpToMultiple size lineSize

def parcBufferComposerAllocate (lineSize size : Nat) : PARCBufferComposer :=
  ⟨parcMemoryRoundUpToCacheLine lineSize size, parcBufferAllocate size, 0⟩

def parcBufferComposerCreate (lineSize : Nat) : PARCBufferComposer :=
  parcBufferComposerAllocate lineSize (parcMemoryRoundUpToCacheLine lineSize lineSize)

section
variable (composer : PARCBufferComposer)

def ensureRemaining (required : Nat) : Prog PARCBufferComposer :=
  let remainingCapacity := composer.buffer.capacity - composer.buffer.position
  if remainingCapacity < required then do
    let incrementAmount :=
      if required < composer.incrementHeuristic then composer.incrementHeuristic else required
    let newBuffer ← parcBufferPutBuffer
      (parcBufferAllocate (composer.buffer.capacity + incrementAmount))
      (parcBufferFlip composer.buffer)
    pure { composer with buffer := newBuffer, handle := composer.handle + 1 }
  else pure composer

def parcBufferComposerPutArray (bytes : List UInt8) : Prog PARCBufferComposer :=
  if bytes.length > 0 then do
    let composer ← ensureRemaining composer bytes.length
    pure { composer with buffer := ← parcBufferPutArray composer.buffer bytes }
  else pure composer

def parcBufferComposerPutUint8 (byte : UInt8) : Prog PARCBufferComposer := do
  let composer ← ensureRemaining composer 1
  pure { composer with buffer := ← parcBufferPutUint8 composer.buffer byte }

def parcBufferComposerPutChar (val : UInt8) :
    Prog PARCBufferComposer := parcBufferComposerPutUint8 composer val

def parcBufferComposerPutUint16 (value : UInt16) : Prog PARCBufferComposer := do
  let composer ← ensureRemaining composer 2
  pure { composer with buffer := ← parcBufferPutUint16 composer.buffer value }

def parcBufferComposerPutUint32 (value : UInt32) : Prog PARCBufferComposer := do
  let composer ← ensureRemaining composer 4
  pure { composer with buffer := ← parcBufferPutUint32 composer.buffer value }

def parcBufferComposerPutUint64 (value : UInt64) : Prog PARCBufferComposer := do
  let composer ← ensureRemaining composer 8
  pure { composer with buffer := ← parcBufferPutUint64 composer.buffer value }

def parcBufferComposerPutBuffer (source : PARCBuffer) : Prog PARCBufferComposer := do
  let composer ← ensureRemaining composer (parcBufferRemaining source)
  pure { composer with buffer := ← parcBufferPutBuffer composer.buffer source }

def parcBufferComposerPutString (string : List UInt8) : Prog PARCBufferComposer := do
  parcBufferComposerPutBuffer composer (← parcBufferAllocateCString string)

/-- `parcBufferComposer_PutStrings`: the strings up to a NULL. -/
def parcBufferComposerPutStrings (composer : PARCBufferComposer) :
    List (Option (List UInt8)) → Prog PARCBufferComposer
  | some string :: strings => do
    parcBufferComposerPutStrings (← parcBufferComposerPutString composer string) strings
  | _ => pure composer

/-- `cString` is what `vasprintf` makes of the format and its arguments. -/
def parcBufferComposerFormat (cString : List UInt8) :
    Prog PARCBufferComposer := parcBufferComposerPutString composer cString

def parcBufferComposerProduceBuffer : PARCBuffer :=
  parcBufferFlip composer.buffer

end

/-! ## What a composer holds -/

/-- The composer holds `content`, and appends to it. -/
structure Composes (composer : PARCBufferComposer) (content : List UInt8) : Prop where
  valid : composer.buffer.Valid
  mark : composer.buffer.mark = none
  limit : composer.buffer.limit = composer.buffer.capacity
  written : composer.buffer.written = content

variable {k : PARCBufferComposer} {out : List UInt8}

theorem composes_allocate (lineSize size : Nat) :
    Composes (parcBufferComposerAllocate lineSize size) [] :=
  ⟨valid_allocate size, rfl, rfl, rfl⟩

section
variable (h : Composes k out)
include h

theorem Composes.of_wrote {bs b} (hw : Wrote k.buffer bs b) :
    Composes { k with buffer := b } (out ++ bs) :=
  ⟨hw.valid, hw.mark h.mark, hw.limit.trans (h.limit.trans hw.capacity.symm),
    hw.written.trans (congrArg (· ++ bs) h.written)⟩

theorem ensureRemaining_spec (required : Nat) :
    ∃ c', ensureRemaining k required = pure c' ∧
      Composes c' out ∧ required ≤ parcBufferRemaining c'.buffer := by
  have hpo := h.valid.position_le
  have hl := h.limit
  by_cases hr : k.buffer.capacity - k.buffer.position < required
  · -- the content is copied to a larger buffer
    have hf := h.valid.flip h.mark
    have hby : (parcBufferFlip k.buffer).remainingBytes = out := h.written
    have hln : out.length = k.buffer.position := by
      rw [← h.written, length_written h.valid]
    generalize ha : (if required < k.incrementHeuristic then
      k.incrementHeuristic else required) = amount
    have hle : required ≤ amount := by
      rw [← ha]
      split <;> omega
    obtain ⟨b, hpu, hw⟩ := putBuffer_spec (valid_allocate (k.buffer.capacity + amount)) hf (by
        rw [hby, hln]
        show _ ≤ k.buffer.capacity + amount - 0
        omega)
    rw [hby] at hw
    refine ⟨{ k with buffer := b, handle := k.handle + 1 }, ?_,
      ⟨hw.valid, hw.mark rfl, hw.limit.trans hw.capacity.symm, hw.written⟩, ?_⟩
    · simp only [ensureRemaining, if_pos hr, ha, hpu, pure_bind]
    · have hb : b.limit = k.buffer.capacity + amount := hw.limit
      have hp : b.position = 0 + out.length := hw.position
      show required ≤ parcBufferRemaining b
      rw [hw.valid.remaining]
      omega
  · refine ⟨k, if_neg hr, h, ?_⟩
    rw [h.valid.remaining, hl]
    omega

end

/-- The call appends these bytes, to whatever a composer holds. -/
def Appends (put : PARCBufferComposer → Prog PARCBufferComposer) (bytes : List UInt8) : Prop :=
  ∀ ⦃k out⦄, Composes k out → ∃ k', put k = pure k' ∧ Composes k' (out ++ bytes)

section
variable {f g : PARCBufferComposer → Prog PARCBufferComposer} {s s' : List UInt8}

theorem Appends.nil : Appends pure [] := fun k out h => ⟨k, rfl, by rwa [append_nil]⟩

theorem Appends.bind (hf : Appends f s) (hg : Appends g s') :
    Appends (fun k => f k >>= g) (s ++ s') := by
  intro k out h
  obtain ⟨c1, hp1, h1⟩ := hf h
  obtain ⟨c2, hp2, h2⟩ := hg h1
  refine ⟨c2, ?_, by rwa [append_assoc] at h2⟩
  dsimp only
  rw [hp1, pure_bind, hp2]

theorem Appends.ite (hf : Appends f s) (hg : Appends g s') {p : Prop} [Decidable p] :
    Appends (fun k => if p then f k else g k) (if p then s else s') := by
  split
  · exact hf
  · exact hg

theorem Appends.foldlM {α : Type} {put : PARCBufferComposer → α → Prog PARCBufferComposer}
    {text : α → List UInt8} (h : ∀ a, Appends (put · a) (text a)) (l : List α) :
    Appends (l.foldlM put) (l.flatMap text) := by
  induction l with
  | nil => exact .nil
  | cons a l ih =>
    have hb := (h a).bind ih
    simpa only [foldlM_cons, flatMap_cons] using hb

end

theorem Appends.put {required bs} {put : PARCBuffer → Prog PARCBuffer} (hp : ∀ {b}, b.Valid →
      required ≤ parcBufferRemaining b → ∃ b', put b = pure b' ∧ Wrote b bs b') :
    Appends (fun k => do
      let k ← ensureRemaining k required
      pure { k with buffer := ← put k.buffer }) bs := by
  intro k out h
  obtain ⟨c1, he, h1, hr⟩ := ensureRemaining_spec h required
  obtain ⟨b, hb, hw⟩ := hp h1.valid hr
  refine ⟨_, ?_, h1.of_wrote hw⟩
  simp only [he, hb, pure_bind]

theorem putArray_composes (bs : List UInt8) : Appends (parcBufferComposerPutArray · bs) bs := by
  unfold parcBufferComposerPutArray
  by_cases hl : bs.length > 0
  · simp only [if_pos hl]
    exact .put fun hb hr => putArray_spec hb hr
  · simp only [length_eq_zero_iff.mp (Nat.eq_zero_of_not_pos hl)]
    exact .nil

/-- The bytes the present buffer still has space for. -/
def PARCBufferComposer.room (composer : PARCBufferComposer) : Nat :=
  composer.buffer.capacity - composer.buffer.position

theorem putArray_room (h : Composes k out) {bs c'}
    (hp : parcBufferComposerPutArray k bs = pure c') :
    bs.length ≤ k.room ∧ c'.handle = k.handle ∧ c'.room + bs.length = k.room ∨
    k.room < bs.length ∧ k.handle < c'.handle := by
  unfold PARCBufferComposer.room
  by_cases hl : bs.length > 0
  · rw [parcBufferComposerPutArray, if_pos hl] at hp
    obtain ⟨c1, he, hp⟩ := bind_eq_pure.mp hp
    obtain ⟨b, hb, hp⟩ := bind_eq_pure.mp hp
    rw [pure_inj] at hp
    subst hp
    unfold ensureRemaining at he
    dsimp only at he
    split at he
    · rename_i hr
      obtain ⟨newBuffer, -, he⟩ := bind_eq_pure.mp he
      rw [pure_inj] at he
      subst he
      exact .inr ⟨hr, Nat.lt_succ_self _⟩
    · rw [pure_inj] at he
      subst he
      have hli := h.limit
      obtain ⟨b', hb', hw⟩ := putArray_spec h.valid (show bs.length ≤ _ by
        rw [h.valid.remaining]
        omega)
      rw [hb', pure_inj] at hb
      subst hb
      refine .inl ⟨by omega, rfl, ?_⟩
      rw [hw.capacity, hw.position]
      omega
  · rw [parcBufferComposerPutArray, if_neg hl, pure_inj] at hp
    subst hp
    exact .inl ⟨by omega, rfl, by omega⟩

theorem Composes.rollback {bs} (h : Composes k (out ++ bs)) :
    ∃ b, parcBufferSetPosition k.buffer out.length = pure b ∧
      Composes { k with buffer := b } out ∧ b.position = out.length := by
  have hp := h.valid.position_le
  have hl := length_written h.valid
  rw [h.written, length_append] at hl
  have hma : k.buffer.mark.filter (· ≤ out.length) = none := by
    rw [h.mark]
    rfl
  refine ⟨_, setPosition_of_le (by omega), ⟨⟨?_, ?_, h.valid.limit_le, h.valid.capacity_le⟩, hma,
    h.limit, ?_⟩, rfl⟩
  · intro m hm
    rw [hma] at hm
    cases hm
  · show out.length ≤ k.buffer.limit
    omega
  · have hw := congrArg (take out.length) h.written
    rw [written_eq, take_take, Nat.min_eq_left (by omega), take_left] at hw
    rw [written_eq]
    exact hw

theorem putUint8_composes (byte : UInt8) : Appends (parcBufferComposerPutUint8 · byte) [byte] :=
  .put fun hb hr => putUint8_spec hb hr byte

theorem putUint16_composes (v : UInt16) :
    Appends (parcBufferComposerPutUint16 · v) (BigEndian.split 2 v.toNat) :=
  .put fun hb hr => putUint16_spec hb hr v

theorem putUint32_composes (v : UInt32) :
    Appends (parcBufferComposerPutUint32 · v) (BigEndian.split 4 v.toNat) :=
  .put fun hb hr => putUint32_spec hb hr v

theorem putUint64_composes (v : UInt64) :
    Appends (parcBufferComposerPutUint64 · v) (BigEndian.split 8 v.toNat) :=
  .put fun hb hr => putUint64_spec hb hr v

theorem putUint8s_composes (bs : List UInt8) :
    Appends (bs.foldlM parcBufferComposerPutUint8) bs := by
  simpa using Appends.foldlM putUint8_composes bs

theorem putBuffer_composes {src : PARCBuffer} (hs : src.Valid) :
    Appends (parcBufferComposerPutBuffer · src) src.remainingBytes :=
  .put fun hb hr => putBuffer_spec hb hs (by rwa [length_remainingBytes hs])

theorem putString_composes (s : List UInt8) : Appends (parcBufferComposerPutString · s) s := by
  obtain ⟨b, ha, hb, hby⟩ := allocateCString_spec s
  simp only [parcBufferComposerPutString, ha, pure_bind]
  exact hby ▸ putBuffer_composes hb

theorem putStrings_composes (strings : List (List UInt8)) :
    Appends (parcBufferComposerPutStrings · (strings.map some ++ [none])) strings.flatten := by
  induction strings with
  | nil => exact .nil
  | cons s strings ih => exact (putString_composes s).bind ih

theorem produceBuffer_spec (h : Composes k out) :
    (parcBufferComposerProduceBuffer k).Valid ∧
      (parcBufferComposerProduceBuffer k).remainingBytes = out :=
  ⟨h.valid.flip h.mark, h.written⟩

end Libparc.BufferComposer
