import Libparc.Algol.BufferCursor

/-! # Which accesses a buffer lets through

An absolute access is for the indices below the limit, a relative one for as
many bytes as remain, and both stay in the window of the buffer. The checks are
not quite those: `parcBuffer_GetAtIndex` lets the limit itself through,
`parcBuffer_PutAtIndex` compares an index of the array with the limit of the
window, and `parcBuffer_Overlay` compares a sum that can wrap and takes the
address of a byte even where none is asked for. `Access.Exact` says where this
makes no difference. -/
namespace Libparc.Buffer
open Exec

/-- The sum of `_effectiveIndex` is one of `size_t`. -/
def parcBufferPutAtIndex (buffer : PARCBuffer) (index : Nat) (value : UInt8) : Prog PARCBuffer := do
  let place := effectiveIndex buffer index % 2 ^ 64
  assertTrue (place < buffer.limit) "Buffer overflow"
  let array ← parcByteArrayPutByte buffer.array place value
  pure { buffer with array }

inductive Access where
  | getAtIndex (index : UInt64)
  | putAtIndex (index : UInt64) (value : UInt8)
  | overlay (length : UInt64)
  | getBytes (length : UInt64)
  | putArray (array : List UInt8)

section
variable (b : PARCBuffer)

def Access.run : Access → Prog Unit
  | .getAtIndex index => do let _ ← parcBufferGetAtIndex b index.toNat
  | .putAtIndex index value => do let _ ← parcBufferPutAtIndex b index.toNat value
  | .overlay length => do let _ ← parcBufferOverlay b length.toNat
  | .getBytes length => do let _ ← parcBufferGetBytes b length.toNat
  | .putArray array => do let _ ← parcBufferPutArray b array

/-- The accesses that a buffer is for. -/
def Access.InBounds : Access → Prop
  | .getAtIndex index | .putAtIndex index _ => index.toNat < b.limit
  | .overlay length | .getBytes length => length.toNat ≤ parcBufferRemaining b
  | .putArray array => array.length ≤ parcBufferRemaining b

/-- The indices of the array that are read or written, or that the caller was
given the address of. -/
def Access.touched : Access → Set Nat
  | .getAtIndex index => {effectiveIndex b index.toNat}
  | .putAtIndex index _ => {effectiveIndex b index.toNat % 2 ^ 64}
  | .overlay length | .getBytes length =>
    Set.Ico (effectivePosition b) (effectivePosition b + length.toNat)
  | .putArray array => Set.Ico (effectivePosition b) (effectivePosition b + array.length)

/-- The indices of the array that belong to the buffer. -/
def PARCBuffer.window : Set Nat := Set.Ico b.arrayOffset (b.arrayOffset + b.capacity)

/-- What the checks let through. -/
def Access.Checked : Access → Prop
  | .getAtIndex index =>
    index.toNat ≤ b.limit ∧ effectiveIndex b index.toNat < b.array.length
  | .putAtIndex index _ => effectiveIndex b index.toNat % 2 ^ 64 < b.limit
  | .overlay length =>
    (b.position + length.toNat) % 2 ^ 64 ≤ b.limit ∧ effectivePosition b < b.array.length
  | .getBytes length => (b.position + length.toNat) % 2 ^ 64 ≤ b.limit ∧
      length.toNat ≤ b.array.length - effectivePosition b
  | .putArray array => array.length ≤ parcBufferRemaining b

/-- **Where the checks are those of the bounds.** An index at the limit is the
end of the array; an index of the array is below the limit if the one of the
window is, and a wrapped one is not; zero bytes are not overlaid at the end of
the array, and so many that the sum wraps only there or beyond the limit. -/
def Access.Exact : Access → Prop
  | .getAtIndex index => index.toNat = b.limit → b.array.length ≤ b.arrayOffset + b.limit
  | .putAtIndex index _ => (index.toNat < b.limit → b.arrayOffset + index.toNat < b.limit) ∧
      (2 ^ 64 ≤ b.arrayOffset + index.toNat → b.limit ≤ b.arrayOffset + index.toNat - 2 ^ 64)
  | .overlay length =>
    (length.toNat ≤ parcBufferRemaining b → effectivePosition b < b.array.length) ∧
      (2 ^ 64 ≤ b.position + length.toNat → b.limit < b.position + length.toNat - 2 ^ 64 ∨
        b.array.length ≤ effectivePosition b)
  | .getBytes _ | .putArray _ => True

end

/-! ## Programs that return under a condition and trap otherwise -/

/-- A failed assertion, or an index that is out of bounds. -/
def Traps {α : Type} (p : Prog α) : Prop :=
  ∃ text, p = throw (.assertion text) ∨ p = throw (.outOfBounds text)

def Settles {α : Type} (p : Prog α) (c : Prop) : Prop := (c → Returns p) ∧ (¬ c → Traps p)

section
variable {α β : Type} {p : Prog α} {c d : Prop} {text : String}

theorem not_returns_of_traps (h : Traps p) : ¬ Returns p := by
  rintro ⟨a, ha⟩
  obtain ⟨text, h | h⟩ := h
  · exact throw_ne_pure (h.symm.trans ha)
  · exact throw_ne_pure (h.symm.trans ha)

theorem Settles.returns_iff (h : Settles p c) : Returns p ↔ c :=
  ⟨fun hr => by_contra fun hc => not_returns_of_traps (h.2 hc) hr, h.1⟩

theorem Settles.congr (h : Settles p c) (hc : c ↔ d) : Settles p d := by rwa [← hc]

theorem settles_pure (a : α) : Settles (pure a : Prog α) True :=
  ⟨fun _ => ⟨a, rfl⟩, fun h => absurd trivial h⟩

theorem settles_assertTrue [Decidable c] : Settles (assertTrue c text) c :=
  ⟨fun h => ⟨(), assertTrue_of (decide_eq_true h)⟩, fun h => ⟨text, .inl (by simp [assertTrue, h])⟩⟩

theorem settles_trapOutOfBoundsIf [Decidable c] : Settles (trapOutOfBoundsIf c text) (¬ c) :=
  ⟨fun h => ⟨(), trapOutOfBoundsIf_of_not h⟩, fun h => ⟨text, .inr (if_pos (not_not.mp h))⟩⟩

theorem Settles.bind {f : α → Prog β} (h : Settles p c) (hf : c → ∀ a, Settles (f a) d) :
    Settles (p >>= f) (c ∧ d) := by
  constructor
  · rintro ⟨hc, hd⟩
    obtain ⟨a, rfl⟩ := h.1 hc
    exact (hf hc a).1 hd
  · intro hcd
    by_cases hc : c
    · obtain ⟨a, rfl⟩ := h.1 hc
      exact (hf hc a).2 fun hd => hcd ⟨hc, hd⟩
    · obtain ⟨text, rfl | rfl⟩ := h.2 hc
      · exact ⟨text, .inl rfl⟩
      · exact ⟨text, .inr rfl⟩

end

/-! ## The checks -/

section
variable {b : PARCBuffer} {n : Nat}

theorem settles_underflow :
    Settles (trapIfBufferUnderflow b n) ((b.position + n) % 2 ^ 64 ≤ b.limit) :=
  settles_trapOutOfBoundsIf.congr Nat.not_lt

theorem settles_getByte {array} : Settles (parcByteArrayGetByte array n) (n < array.length) := by
  constructor
  · intro h
    rw [parcByteArrayGetByte, List.getElem?_eq_getElem h]
    exact ⟨_, rfl⟩
  · intro h
    rw [parcByteArrayGetByte, List.getElem?_eq_none (Nat.le_of_not_lt h)]
    exact ⟨_, .inr rfl⟩

theorem settles_getBytes (h : b.Valid) : Settles (parcBufferGetBytes b n)
    ((b.position + n) % 2 ^ 64 ≤ b.limit ∧ n ≤ b.array.length - effectivePosition b) := by
  have hle : effectivePosition b ≤ b.array.length := by
    have := h.position_le
    have := h.limit_le
    have := h.capacity_le
    rw [effectivePosition]
    omega
  refine settles_underflow.bind fun _ _ => ?_
  simp only [parcByteArrayGetBytes, if_pos hle]
  refine (((settles_trapOutOfBoundsIf.congr Nat.not_lt).bind fun hn _ => ?_).bind
    fun _ _ => settles_pure _).congr (by rw [and_assoc, and_true, and_true])
  rw [if_pos (by omega)]
  exact settles_pure _

theorem settles_putArray (h : b.Valid) (array : List UInt8) :
    Settles (parcBufferPutArray b array) (array.length ≤ parcBufferRemaining b) := by
  have := h.position_le
  have := h.limit_le
  have := h.capacity_le
  refine (settles_assertTrue.bind (d := True) fun hn _ => ?_).congr (and_true _).to_iff
  simp only [h.remaining, ge_iff_le] at hn
  have hp : effectivePosition b + array.length ≤ b.array.length := by
    rw [effectivePosition]
    omega
  rw [parcByteArrayPutBytes]
  simp only [trapOutOfBoundsIf_of_not (show ¬ effectivePosition b > b.array.length by omega),
    trapOutOfBoundsIf_of_not (show ¬ array.length > b.array.length - effectivePosition b by omega),
    pure_bind]
  refine (settles_assertTrue.bind fun _ _ => settles_pure _).congr ?_
  simp only [and_true, iff_true]
  omega

theorem Access.settles (h : b.Valid) (a : Access) : Settles (a.run b) (a.Checked b) := by
  have discard {α : Type} {p : Prog α} {c : Prop} (h : Settles p c) : Settles (do let _ ← p) c :=
    (h.bind fun _ _ => settles_pure _).congr (and_true _).to_iff
  cases a with
  | getAtIndex i =>
    exact discard ((settles_trapOutOfBoundsIf.congr Nat.not_lt).bind fun _ _ => settles_getByte)
  | putAtIndex i v =>
    refine discard ((settles_assertTrue.bind (d := True) fun hlt _ => ?_).congr (and_true _).to_iff)
    have := h.limit_le
    have := h.capacity_le
    refine ((settles_trapOutOfBoundsIf.bind fun _ _ => settles_pure _).bind
      fun _ _ => settles_pure _).congr ?_
    simp only [and_true, iff_true]
    omega
  | overlay length =>
    exact discard (settles_underflow.bind fun _ _ =>
      (settles_getByte.bind fun _ _ => settles_pure _).congr (and_true _).to_iff)
  | getBytes length => exact discard (settles_getBytes h)
  | putArray array => exact discard (settles_putArray h array)

/-! ## The accesses that are in bounds -/

/-- An access in bounds returns, and any other one traps; what is touched is in
the window. -/
structure Access.Right (b : PARCBuffer) (a : Access) : Prop where
  returns : a.InBounds b → Returns (a.run b)
  traps : ¬ a.InBounds b → Traps (a.run b)
  inside : Returns (a.run b) → a.touched b ⊆ b.window

section
variable (h : b.Valid) (hlen : b.array.length < 2 ^ 64) (a : Access)
include h hlen

theorem Access.touched_subset (hin : a.InBounds b) : a.touched b ⊆ b.window := by
  have := h.limit_le
  have := h.capacity_le
  intro i hi
  cases a
  all_goals
    simp only [InBounds, h.remaining, touched, PARCBuffer.window, effectiveIndex,
      effectivePosition, Set.mem_singleton_iff, Set.mem_Ico] at *
    omega

theorem Access.inBounds_iff_checked : (a.InBounds b ↔ a.Checked b) ↔ a.Exact b := by
  have := h.position_le
  have := h.limit_le
  have := h.capacity_le
  cases a with
  | getAtIndex i | putAtIndex i =>
    have := i.toNat_lt
    simp only [InBounds, Checked, Exact, effectiveIndex]
    omega
  | overlay length | getBytes length =>
    have := length.toNat_lt
    simp only [InBounds, Checked, Exact, h.remaining, effectivePosition, iff_true]
    omega
  | putArray array => simp only [InBounds, Checked, Exact]

/-- **The accesses that are right, over every buffer and every argument.** -/
theorem Access.right_iff : a.Right b ↔ a.Exact b := by
  have hs := a.settles h
  rw [← a.inBounds_iff_checked h hlen]
  constructor
  · intro hr
    refine ⟨fun hin => hs.returns_iff.mp (hr.returns hin), fun hc => ?_⟩
    by_contra ho
    exact not_returns_of_traps (hr.traps ho) (hs.1 hc)
  · intro hi
    refine ⟨fun hin => hs.1 (hi.mp hin), fun ho => hs.2 (mt hi.mpr ho), ?_⟩
    exact fun hre => a.touched_subset h hlen (hi.mpr (hs.returns_iff.mp hre))

end
end

/-- A slice of the last two bytes of an array of four. -/
def lastTwo : PARCBuffer := ⟨[10, 11, 12, 13], 2, 2, 0, 2, none⟩

theorem lastTwo_valid : lastTwo.Valid := ⟨fun _ h => (by cases h), by decide, by decide, by decide⟩

theorem Access.right_iff_lastTwo : lastTwo.Valid ∧ lastTwo.array.length < 2 ^ 64 ∧
    ((getAtIndex 1).Right lastTwo ↔ (getAtIndex 1).Exact lastTwo) :=
  ⟨lastTwo_valid, by decide, (getAtIndex 1).right_iff lastTwo_valid (by decide)⟩

/-- A byte of the slice is not written: its index in the array is compared with
the limit of the slice. -/
theorem putAtIndex_slice : ¬ (Access.putAtIndex 0 7).Right lastTwo := by
  rintro ⟨returns, -, -⟩
  obtain ⟨_, h⟩ := returns (by show 0 < 2; decide)
  cases h

end Libparc.Buffer
