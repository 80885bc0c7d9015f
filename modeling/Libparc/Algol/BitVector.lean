import Libparc.BitArray
import Libparc.Runtime

/-! # parc_BitVector

A bit vector is an array of bytes with two cached facts about it: how many bits
are set and which is the first. An `unsigned` is a natural number below 2 ^ 32 and
-1 as an `unsigned` is `allOnes`. Every access to the array is checked against the
bytes that are allocated. Where a function asserts that its argument is not NULL,
it has one here; allocation is taken to succeed. -/
namespace Libparc.BitVector
open BitArray List Finset Option

def bitsPerByte : Nat := 8
def defaultBitarraySize : Nat := 1
def maxBitVectorIndex : Nat := 8192

/-- `(unsigned) -1`. -/
def allOnes : Nat := 2 ^ 32 - 1

/-- An `unsigned` as an `int`. -/
def toInt (u : Nat) : Int := if u < 2 ^ 31 then u else u - 2 ^ 32

/-- An `int` as an `unsigned`. -/
def toUnsigned (i : Int) : Nat := (i % 2 ^ 32).toNat

/-- `struct PARCBitVector`. -/
structure PARCBitVector where
  bitLength : Nat
  numberOfBitsSet : Nat
  firstBitSet : Nat
  bitArray : List (BitVec 8)
  fillValue : Int
  deriving DecidableEq

/-! ## Memory -/

/-- A load from an array. -/
def load (array : List (BitVec 8)) (byte : Nat) : Prog (BitVec 8) :=
  match array[byte]? with
  | some b => pure b
  | none => throw .memoryFault

/-- A byte behind the end of an array has no value that a program may rely on: here all its
bits are set. -/
def indeterminate : BitVec 8 := 0xff#8

/-- An array that grows gets what was read behind its end. Runs check that nothing is read
there (`Call.run`). -/
def parcMemoryReallocate (array : List (BitVec 8)) (newSize : Nat) : List (BitVec 8) :=
  rplRealloc indeterminate array newSize

/-- `memset(&array[offset], value, count)`. -/
def memset (array : List (BitVec 8)) (offset : Nat) (value : Int) (count : Nat) :
    Prog (List (BitVec 8)) :=
  if offset + count ≤ array.length then
    pure (array.take offset ++ List.replicate count (BitVec.ofInt 8 value) ++
      array.drop (offset + count))
  else throw .memoryFault

/-! ## Functions of one vector -/

def parcBitVectorCreate : PARCBitVector where
  bitLength := defaultBitarraySize * bitsPerByte
  numberOfBitsSet := 0
  firstBitSet := allOnes
  bitArray := List.replicate defaultBitarraySize 0
  fillValue := 0

/-- The bytes that a number of bits takes. -/
def byteSize (bits : Nat) : Nat :=
  bits / bitsPerByte + if bits % bitsPerByte ≠ 0 then 1 else 0

section
variable (parcBitVector : PARCBitVector)

/-- `_parc_bit_vector_resize`. -/
def parcBitVectorResize (bit : Nat) : Prog PARCBitVector := do
  assertTrue (bit < maxBitVectorIndex)
    "_parc_bit_vector_resize passed a bit index that's too large"
  let neededBits := bit + 1
  if neededBits > parcBitVector.bitLength then do
    let newSize := byteSize neededBits
    let oldSize := byteSize parcBitVector.bitLength
    let newArray ← memset (parcMemoryReallocate parcBitVector.bitArray newSize) oldSize
      parcBitVector.fillValue (newSize - oldSize)
    pure { parcBitVector with bitArray := newArray, bitLength := newSize * bitsPerByte }
  else pure parcBitVector

/-- The condition under which Set and Clear resize is not the same. -/
def resizeIf (condition : Prop) [Decidable condition] (parcBitVector : PARCBitVector) (bit : Nat) :
    Prog PARCBitVector :=
  if condition then parcBitVectorResize parcBitVector bit else pure parcBitVector

/-- The vector is NULL where there is none. -/
def parcBitVectorGet (parcBitVector : Option PARCBitVector) (bit : Nat) : Prog Int := do
  assertTrue (bit < maxBitVectorIndex) "parcBitVector_Set passed a bit index that's too large"
  match parcBitVector with
  | none => pure (-1)
  | some parcBitVector =>
    if bit ≥ parcBitVector.bitLength then pure (-1)
    else do
      let b ← load parcBitVector.bitArray (bit / bitsPerByte)
      if b &&& (1#8 <<< (bit % bitsPerByte)) ≠ 0#8 then pure 1 else pure 0

/-- The part of Set that changes the array. -/
def setInArray (vector : PARCBitVector) (bit : Nat) : Prog PARCBitVector := do
  let byte := bit / bitsPerByte
  let bitInByte := bit % bitsPerByte
  let b ← load vector.bitArray byte
  if b &&& (1#8 <<< bitInByte) = 0#8 then
    pure { vector with
      bitArray := vector.bitArray.set byte (b ||| (1#8 <<< bitInByte))
      numberOfBitsSet := (vector.numberOfBitsSet + 1) % 2 ^ 32 }
  else pure vector

def parcBitVectorSet (bit : Nat) : Prog PARCBitVector := do
  assertTrue (bit < maxBitVectorIndex) "parcBitVector_Set passed a bit index that's too huge"
  let vector ← resizeIf (bit ≥ parcBitVector.bitLength) parcBitVector bit
  let vector ← setInArray vector bit
  if vector.firstBitSet = allOnes ∨ bit < vector.firstBitSet then
    pure { vector with firstBitSet := bit }
  else pure vector

def parcBitVectorReset : Prog PARCBitVector := do
  let bitArray ← memset parcBitVector.bitArray 0 0 (parcBitVector.bitLength / bitsPerByte)
  pure { parcBitVector with
    numberOfBitsSet := 0, firstBitSet := allOnes, fillValue := 0, bitArray }

/-- The inner loop of the search for a one bit: the bits of a byte from
`bitInByte` on. -/
def bitSetInByte (b : BitVec 8) (bitInByte : Nat) : Option Nat :=
  (List.range' bitInByte (bitsPerByte - bitInByte)).find? fun k => b &&& (1#8 <<< k) ≠ 0#8

/-- A turn of the outer loop, at a byte and a bit of it. -/
def nextBitSetTurn (position : Nat × Nat) : Prog ((Nat × Nat) ⊕ Nat) :=
  let (byte, bitInByte) := position
  if byte < parcBitVector.bitLength / bitsPerByte then do
    let b ← load parcBitVector.bitArray byte
    if b ≠ 0#8 then
      match bitSetInByte b bitInByte with
      | some k => pure (.inr (byte * bitsPerByte + k))
      | none => pure (.inl (byte + 1, 0))
    else pure (.inl (byte + 1, 0))
  else pure (.inr allOnes)

def parcBitVectorNextBitSet (startFrom : Nat) : Prog Nat :=
  if startFrom ≥ parcBitVector.bitLength then pure allOnes
  else if startFrom ≤ parcBitVector.firstBitSet then pure parcBitVector.firstBitSet
  else Exec.loop (nextBitSetTurn parcBitVector)
    (startFrom / bitsPerByte, startFrom % bitsPerByte)

end

/-- The part of Clear that changes the array. -/
def clearInArray (vector : PARCBitVector) (bit : Nat) : Prog PARCBitVector := do
  let byte := bit / bitsPerByte
  let bitInByte := bit % bitsPerByte
  let b ← load vector.bitArray byte
  if b &&& (1#8 <<< bitInByte) ≠ 0#8 then
    pure { vector with
      bitArray := vector.bitArray.set byte (b &&& ~~~(1#8 <<< bitInByte))
      numberOfBitsSet := (vector.numberOfBitsSet + (2 ^ 32 - 1)) % 2 ^ 32 }
  else pure vector

-- Unlike Set, this does not resize a vector of exactly `bit` bits.
def parcBitVectorClear (parcBitVector : PARCBitVector) (bit : Nat) : Prog PARCBitVector := do
  assertTrue (bit < maxBitVectorIndex) "parcBitVector_Clear passed a bit index that's too huge"
  let vector ← resizeIf (bit > parcBitVector.bitLength) parcBitVector bit
  let vector ← clearInArray vector bit
  if bit = vector.firstBitSet then do
    pure { vector with firstBitSet := ← parcBitVectorNextBitSet vector (bit + 1) }
  else pure vector

/-! ## Vectors with right caches -/

/-- The indices of the bits that are set. -/
def PARCBitVector.indices (v : PARCBitVector) : Finset Nat := BitArray.indices v.bitArray

/-- The lowest index from `i` on, as NextBitSet returns it. -/
def nextOrOnes (S : Finset Nat) (i : Nat) : Nat := (next S i).getD allOnes

/-- The length is that of the array, within the limit of the library, and new
bytes are zero. -/
structure Sized (v : PARCBitVector) : Prop where
  length : v.bitLength = 8 * v.bitArray.length
  limit : v.bitLength ≤ maxBitVectorIndex
  fill : v.fillValue = 0

/-- The cached count is the number of one bits and the cached first bit is the
lowest one, or all ones if there is none. -/
structure Right (v : PARCBitVector) : Prop extends Sized v where
  count : v.numberOfBitsSet = v.indices.card
  first : v.firstBitSet = nextOrOnes v.indices 0

variable {v : PARCBitVector} {bit i k n r : Nat} {b : BitVec 8} {S : Finset Nat}

section
variable (h : Sized v)
include h

theorem Sized.lt_bitLength (hi : i ∈ v.indices) : i < v.bitLength :=
  h.length ▸ lt_of_mem hi

theorem Sized.lt_limit (hi : i ∈ v.indices) : i < 8192 :=
  Nat.lt_of_lt_of_le (h.lt_bitLength hi) h.limit

theorem Sized.card_le : v.indices.card ≤ 8192 :=
  calc v.indices.card ≤ (Finset.range 8192).card :=
        Finset.card_le_card fun _ hi => Finset.mem_range.mpr (h.lt_limit hi)
    _ = 8192 := Finset.card_range 8192

theorem Sized.size : v.bitLength / bitsPerByte = v.bitArray.length := by
  rw [h.length, bitsPerByte, Nat.mul_div_cancel_left _ (by decide)]

theorem Sized.load_eq (hb : bit < v.bitLength) :
    ∃ b, v.bitArray[bit / 8]? = some b ∧ load v.bitArray (bit / bitsPerByte) = pure b := by
  have hlt : bit / 8 < v.bitArray.length := by
    have := h.length
    omega
  have hg := getElem?_eq_getElem hlt
  refine ⟨_, hg, ?_⟩
  unfold load
  rw [bitsPerByte, hg]

end

theorem load_beyond {a byte} (h : a.length ≤ byte) : load a byte = throw .memoryFault := by
  unfold load
  rw [getElem?_eq_none h]

theorem nextOrOnes_of_some (h : next S i = some r) : nextOrOnes S i = r := by
  rw [nextOrOnes, h, getD_some]

theorem nextOrOnes_of_none (h : next S i = none) : nextOrOnes S i = allOnes := by
  rw [nextOrOnes, h, getD_none]

/-! ## The search for the next bit -/

theorem bitSetInByte_eq_some (hk : bitSetInByte b i = some k) :
    i ≤ k ∧ k < 8 ∧ b.getLsbD k = true ∧ ∀ j, i ≤ j → j < k → b.getLsbD j = false := by
  obtain ⟨hb, hm, hbe⟩ := find?_range'_eq_some.mp hk
  rw [mem_range'_1, bitsPerByte] at hm
  have hlt : k < 8 := by omega
  refine ⟨hm.1, hlt, ?_, fun j hij hjk => ?_⟩
  · rw [decide_eq_true_iff, Ne, and_mask_eq_zero hlt, Bool.not_eq_false] at hb
    exact hb
  · have := hbe j hij hjk
    rw [Bool.not_eq_true', decide_eq_false_iff_not, not_not, and_mask_eq_zero (by omega)] at this
    exact this

theorem bitSetInByte_eq_none (hk : bitSetInByte b i = none) :
    ∀ j, i ≤ j → j < 8 → b.getLsbD j = false := by
  intro j hij hj
  have := find?_eq_none.mp hk j (mem_range'_1.mpr (by rw [bitsPerByte]; omega))
  rw [decide_eq_true_iff, not_not, and_mask_eq_zero hj] at this
  exact this

theorem next_of_byte {n} (hb : v.bitArray[n]? = some b) (hk : k ≤ 8)
    (hz : ∀ j, k ≤ j → j < 8 → b.getLsbD j = false) :
    next v.indices (8 * n + k) = next v.indices (8 * (n + 1) + 0) := by
  refine next_skip (by omega) fun i hi hle => ?_
  by_contra hlt
  obtain ⟨j, rfl⟩ : ∃ j, i = 8 * n + j := ⟨i - 8 * n, by omega⟩
  have hj : j < 8 := by omega
  rw [PARCBitVector.indices, mem_indices, bit_byte hj, getD_eq_getElem?_getD, hb,
    getD_some, hz j (by omega) hj] at hi
  cases hi

theorem next_in_byte {n j} (hb : v.bitArray[n]? = some b) (hj : j < 8) (hkj : k ≤ j)
    (hs : b.getLsbD j = true) (hbe : ∀ i, k ≤ i → i < j → b.getLsbD i = false) :
    next v.indices (8 * n + k) = some (8 * n + j) := by
  have hbi (i : Nat) (hi : i < 8) : 8 * n + i ∈ v.indices ↔ b.getLsbD i = true := by
    rw [PARCBitVector.indices, mem_indices, bit_byte hi, getD_eq_getElem?_getD, hb,
      getD_some]
  refine next_eq_some.mpr ⟨(hbi j hj).mpr hs, by omega, fun i hi hle => ?_⟩
  by_contra hlt
  obtain ⟨i, rfl⟩ : ∃ i', i = 8 * n + i' := ⟨i - 8 * n, by omega⟩
  rw [hbi i (by omega), hbe i (by omega) (by omega)] at hi
  cases hi

theorem nextBitSetTurn_spec (h : Sized v) {n} (hk : k ≤ 8) :
    nextBitSetTurn v (n, k) = pure (.inr (nextOrOnes v.indices (8 * n + k))) ∨
      n < v.bitArray.length ∧ nextBitSetTurn v (n, k) = pure (.inl (n + 1, 0)) ∧
        next v.indices (8 * (n + 1) + 0) = next v.indices (8 * n + k) := by
  unfold nextBitSetTurn
  simp only [h.size]
  by_cases hn : n < v.bitArray.length
  · have hb := getElem?_eq_getElem hn
    have hl : load v.bitArray n = pure v.bitArray[n] := by
      unfold load
      rw [hb]
    rw [if_pos hn, hl, pure_bind]
    by_cases hz : v.bitArray[n] = 0#8
    · rw [if_neg (not_not.mpr hz)]
      refine .inr ⟨hn, rfl, (next_of_byte hb hk fun j _ _ => ?_).symm⟩
      rw [hz, BitVec.getLsbD_zero]
    · rw [if_pos hz]
      cases hf : bitSetInByte v.bitArray[n] k with
      | none => exact .inr ⟨hn, rfl, (next_of_byte hb hk (bitSetInByte_eq_none hf)).symm⟩
      | some j =>
        obtain ⟨hkj, hj, hs, hbe⟩ := bitSetInByte_eq_some hf
        rw [nextOrOnes_of_some (next_in_byte hb hj hkj hs hbe), Nat.mul_comm 8 n]
        exact .inl rfl
  · rw [if_neg hn, nextOrOnes_of_none]
    · exact .inl rfl
    · refine next_none_of fun i hi => ?_
      have := lt_of_mem hi
      omega

/-- The next bit from a position on is the one that is looked for; `left` bytes
follow. -/
structure Seeks (v : PARCBitVector) (found : Option Nat) (left : Nat) (position : Nat × Nat) :
    Prop where
  left_eq : left = v.bitArray.length - position.1
  bit_le : position.2 ≤ 8
  next_eq : next v.indices (8 * position.1 + position.2) = found

/-- **The search** finds the next one bit. -/
theorem nextBitSetTurns_spec (h : Sized v) {byte bitInByte} (hb : bitInByte ≤ 8) :
    Exec.loop (nextBitSetTurn v) (byte, bitInByte) =
      pure (nextOrOnes v.indices (8 * byte + bitInByte)) := by
  have hl : ∃ r, Exec.loop (nextBitSetTurn v) (byte, bitInByte) = pure r ∧
      r = nextOrOnes v.indices (8 * byte + bitInByte) := by
    refine Exec.loop_variant (Seeks v (next v.indices (8 * byte + bitInByte))) _ ?_ ⟨rfl, hb, rfl⟩
    rintro left ⟨n, k⟩ ⟨rfl, hk, hne⟩
    rcases nextBitSetTurn_spec h hk with hd | ⟨hn, hgo, hs⟩
    · exact .inl ⟨_, hd, congrArg (·.getD allOnes) hne⟩
    · refine .inr ⟨_, _, hgo, ⟨rfl, Nat.zero_le 8, hs.trans hne⟩, ?_⟩
      omega
  obtain ⟨r, hr, hf⟩ := hl
  rw [hr, hf]

theorem nextBitSet_of_sized (h : Sized v)
    (hf : i ≤ v.firstBitSet → v.firstBitSet = nextOrOnes v.indices i) :
    parcBitVectorNextBitSet v i = pure (nextOrOnes v.indices i) := by
  unfold parcBitVectorNextBitSet
  split
  · rename_i hge
    rw [nextOrOnes_of_none (next_none_of fun j hj => ?_)]
    exact Nat.lt_of_lt_of_le (h.lt_bitLength hj) hge
  · split
    · rename_i hle
      rw [← hf hle]
    · rw [nextBitSetTurns_spec h (by rw [bitsPerByte]; omega), bitsPerByte, Nat.div_add_mod]

theorem Right.first_eq (h : Right v) (hle : i ≤ v.firstBitSet) :
    v.firstBitSet = nextOrOnes v.indices i := by
  rw [h.first]
  cases hn : next v.indices 0 with
  | none =>
    rw [nextOrOnes_of_none hn, nextOrOnes_of_none]
    rw [next_eq_none, above_zero] at hn
    rw [hn, next_empty]
  | some r =>
    rw [h.first, nextOrOnes_of_some hn] at hle
    exact congrArg (·.getD allOnes) (next_skip (Nat.zero_le i) fun j hj _ =>
      Nat.le_trans hle (next_le hn hj (Nat.zero_le j)))

theorem Right.nextBitSet (h : Right v) (i : Nat) :
    parcBitVectorNextBitSet v i = pure (nextOrOnes v.indices i) :=
  nextBitSet_of_sized h.toSized h.first_eq

/-! ## Create, Reset and Get -/

theorem right_of_zero (hz : v.bitArray = replicate n 0#8) (hl : v.bitLength = 8 * n)
    (hli : v.bitLength ≤ maxBitVectorIndex) (hf : v.fillValue = 0)
    (hc : v.numberOfBitsSet = 0) (hfi : v.firstBitSet = allOnes) : Right v ∧ v.indices = ∅ := by
  have he : v.indices = ∅ := by rw [PARCBitVector.indices, hz, indices_replicate_zero]
  refine ⟨⟨⟨?_, hli, hf⟩, ?_, ?_⟩, he⟩
  · rw [hz, length_replicate, hl]
  · rw [he, card_empty, hc]
  · rw [he, nextOrOnes_of_none (next_empty 0), hfi]

theorem create_right : Right parcBitVectorCreate ∧ parcBitVectorCreate.indices = ∅ :=
  right_of_zero (n := 1) rfl rfl (by decide) rfl rfl rfl

theorem Sized.reset (h : Sized v) :
    ∃ v', parcBitVectorReset v = pure v' ∧ (Right v' ∧ v'.indices = ∅) ∧
      v'.bitLength = v.bitLength := by
  have hs : memset v.bitArray 0 0 v.bitArray.length = pure (replicate v.bitArray.length 0#8) := by
    unfold memset
    rw [if_pos (by omega), take_zero, nil_append, Nat.zero_add, drop_length, append_nil]
    rfl
  unfold parcBitVectorReset
  rw [h.size, hs, pure_bind]
  exact ⟨_, rfl, right_of_zero rfl h.length h.limit rfl rfl rfl, rfl⟩

theorem Sized.get (h : Sized v) (hbi : bit < maxBitVectorIndex) :
    ∃ w, parcBitVectorGet (some v) bit = pure w ∧ (w = 1 ↔ bit ∈ v.indices) := by
  unfold parcBitVectorGet
  rw [assertTrue_of (decide_eq_true hbi), pure_bind]
  simp only
  split
  · rename_i hge
    refine ⟨-1, rfl, iff_of_false (by decide) fun hm => ?_⟩
    exact absurd (h.lt_bitLength hm) (Nat.not_lt_of_le hge)
  · rename_i hlt
    obtain ⟨b, hb, hl⟩ := h.load_eq (Nat.lt_of_not_le hlt)
    rw [hl, pure_bind, bitsPerByte, ite_not]
    split
    · rename_i hz
      exact ⟨0, rfl, iff_of_false (by decide) ((and_mask_eq_zero_iff hb).mp hz)⟩
    · rename_i ho
      exact ⟨1, rfl, iff_of_true rfl (not_not.mp (mt (and_mask_eq_zero_iff hb).mpr ho))⟩

/-! ## Room for a bit -/

theorem byteSize_succ (bit : Nat) : byteSize (bit + 1) = bit / 8 + 1 := by
  unfold byteSize bitsPerByte
  split <;> omega

theorem byteSize_bytes (n : Nat) : byteSize (8 * n) = n := by
  unfold byteSize bitsPerByte
  rw [Nat.mul_mod_right, if_neg (by decide)]
  omega

theorem memset_reallocate (a : List (BitVec 8)) (n : Nat) :
    memset (parcMemoryReallocate a (a.length + n)) a.length 0 n = pure (a ++ replicate n 0#8) := by
  have hn : parcMemoryReallocate a (a.length + n) = a ++ replicate n indeterminate := by
    rw [parcMemoryReallocate, rplRealloc, take_of_length_le (by omega), Nat.add_sub_cancel_left]
  have hl : (a ++ replicate n indeterminate).length = a.length + n := by
    rw [length_append, length_replicate]
  rw [hn, memset, if_pos (by omega), take_left, drop_of_length_le (by omega), append_nil]
  rfl

/-- **A resize** makes room for the bit and changes nothing else. -/
theorem Right.resize (h : Right v) (hb : bit < maxBitVectorIndex) (hge : v.bitLength ≤ bit) :
    ∃ v', parcBitVectorResize v bit = pure v' ∧ Right v' ∧ v'.indices = v.indices ∧
      bit < v'.bitLength := by
  have hl := h.length
  have hli : bit < 8192 := hb
  obtain ⟨n, hn⟩ : ∃ n, bit / 8 + 1 = v.bitArray.length + n :=
    ⟨bit / 8 + 1 - v.bitArray.length, by omega⟩
  have hi : BitArray.indices (v.bitArray ++ replicate n 0#8) = v.indices := indices_append_zero n
  refine ⟨{ v with bitArray := v.bitArray ++ replicate n 0#8,
                   bitLength := (v.bitArray.length + n) * bitsPerByte }, ?_,
    ⟨⟨?_, ?_, h.fill⟩, ?_, ?_⟩, hi, ?_⟩
  · unfold parcBitVectorResize
    rw [assertTrue_of (decide_eq_true hb), pure_bind, if_pos (by omega)]
    simp only [byteSize_succ, hl, byteSize_bytes, hn, h.fill, Nat.add_sub_cancel_left,
      memset_reallocate, pure_bind]
  · rw [length_append, length_replicate, bitsPerByte, Nat.mul_comm]
  · simp only [bitsPerByte, maxBitVectorIndex]
    omega
  · rw [PARCBitVector.indices, hi]
    exact h.count
  · rw [PARCBitVector.indices, hi]
    exact h.first
  · simp only [bitsPerByte]
    omega

/-- There is room for the bit in the second vector, and no more than in the first if there was
room already. -/
def Room (bit : Nat) (v v' : PARCBitVector) : Prop :=
  bit < v'.bitLength ∧ (bit < v.bitLength → v'.bitLength = v.bitLength)

theorem Right.resizeIf {c : Prop} [Decidable c] (h : Right v)
    (hb : bit < maxBitVectorIndex) (hge : c → v.bitLength ≤ bit) (hlt : ¬ c → bit < v.bitLength) :
    ∃ v', BitVector.resizeIf c v bit = pure v' ∧ Right v' ∧ v'.indices = v.indices ∧
      Room bit v v' := by
  unfold BitVector.resizeIf
  split
  · obtain ⟨v', hr, h', hi, hlt'⟩ := h.resize hb (hge ‹_›)
    exact ⟨v', hr, h', hi, hlt', fun hl => absurd (hge ‹_›) (Nat.not_le.mpr hl)⟩
  · exact ⟨v, rfl, h, rfl, hlt ‹_›, fun _ => rfl⟩

/-! ## Set -/

theorem nextOrOnes_insert (bit : Nat) (hS : ∀ j ∈ S, j < allOnes) :
    nextOrOnes (insert bit S) 0 =
      if nextOrOnes S 0 = allOnes ∨ bit < nextOrOnes S 0 then bit else nextOrOnes S 0 := by
  cases hn : next S 0 with
  | none =>
    rw [nextOrOnes_of_none hn, if_pos (.inl rfl), nextOrOnes_of_some]
    rw [next_eq_none, above_zero] at hn
    subst hn
    exact next_eq_some.mpr (by simp)
  | some r =>
    have hr := hS r (next_mem hn)
    rw [nextOrOnes_of_some hn]
    split
    · refine nextOrOnes_of_some (next_eq_some.mpr ⟨mem_insert_self _ _, Nat.zero_le _, ?_⟩)
      rw [forall_mem_insert]
      refine ⟨fun _ => Nat.le_refl _, fun j hj _ => ?_⟩
      have := next_le hn hj (Nat.zero_le j)
      omega
    · refine nextOrOnes_of_some (next_eq_some.mpr
        ⟨mem_insert_of_mem (next_mem hn), Nat.zero_le _, ?_⟩)
      rw [forall_mem_insert]
      exact ⟨fun _ => by omega, fun j hj => next_le hn hj⟩

theorem Sized.lt_allOnes (h : Sized v) : ∀ j ∈ v.indices, j < allOnes := fun j hj => by
  have := h.lt_limit hj
  rw [allOnes]
  omega

theorem Right.setInArray (h : Right v) (hlt : bit < v.bitLength) :
    ∃ w, BitVector.setInArray v bit = pure w ∧ Sized w ∧ w.numberOfBitsSet = w.indices.card ∧
      w.indices = insert bit v.indices ∧ w.firstBitSet = nextOrOnes v.indices 0 ∧
      w.bitLength = v.bitLength := by
  obtain ⟨b, hb, hl⟩ := h.load_eq hlt
  unfold BitVector.setInArray
  simp only [hl, pure_bind]
  split
  · rename_i hz
    have hm : bit ∉ v.indices := (and_mask_eq_zero_iff hb).mp hz
    have hs : BitArray.indices (v.bitArray.set (bit / 8) (b ||| (1#8 <<< (bit % 8)))) =
        insert bit v.indices := indices_set_or hb
    refine ⟨_, rfl, ⟨?_, h.limit, h.fill⟩, ?_, hs, h.first, rfl⟩
    · rw [length_set]
      exact h.length
    · have hle := h.card_le
      show (v.numberOfBitsSet + 1) % 2 ^ 32 = (BitArray.indices _).card
      rw [bitsPerByte, hs, Finset.card_insert_of_notMem hm, h.count]
      exact Nat.mod_eq_of_lt (by omega)
  · rename_i ho
    have hm : bit ∈ v.indices := not_not.mp (mt (and_mask_eq_zero_iff hb).mpr ho)
    exact ⟨v, rfl, h.toSized, h.count, (Finset.insert_eq_of_mem hm).symm, h.first, rfl⟩

/-- **Set** adds the bit. -/
theorem Right.set (h : Right v) (hb : bit < maxBitVectorIndex) :
    ∃ v', parcBitVectorSet v bit = pure v' ∧ Right v' ∧ v'.indices = insert bit v.indices ∧
      Room bit v v' := by
  obtain ⟨u, hr, hu, hi, hro⟩ := h.resizeIf (c := bit ≥ v.bitLength) hb id Nat.lt_of_not_le
  obtain ⟨w, hs, hw, hc, hin, hf, hl⟩ := hu.setInArray hro.1
  rw [Room, ← hl] at hro
  unfold parcBitVectorSet
  rw [assertTrue_of (decide_eq_true hb), pure_bind, hr, pure_bind, hs, pure_bind]
  rw [← hi, ← hin]
  have hn := nextOrOnes_insert bit hu.lt_allOnes
  rw [← hf, ← hin] at hn
  split
  · rename_i hif
    rw [if_pos hif] at hn
    exact ⟨_, rfl, ⟨⟨hw.length, hw.limit, hw.fill⟩, hc, hn.symm⟩, rfl, hro⟩
  · rename_i hif
    rw [if_neg hif] at hn
    exact ⟨_, rfl, ⟨hw, hc, hn.symm⟩, rfl, hro⟩

/-! ## Clear -/

theorem Right.clearInArray (h : Right v) (hlt : bit < v.bitLength) :
    ∃ w, BitVector.clearInArray v bit = pure w ∧ Sized w ∧ w.numberOfBitsSet = w.indices.card ∧
      w.indices = v.indices.erase bit ∧ w.firstBitSet = nextOrOnes v.indices 0 ∧
      w.bitLength = v.bitLength := by
  obtain ⟨b, hb, hl⟩ := h.load_eq hlt
  unfold BitVector.clearInArray
  simp only [hl, pure_bind, ite_not]
  split
  · rename_i hz
    have hm := (and_mask_eq_zero_iff hb).mp hz
    exact ⟨v, rfl, h.toSized, h.count, (Finset.erase_eq_of_notMem hm).symm, h.first, rfl⟩
  · rename_i ho
    have hm : bit ∈ v.indices := not_not.mp (mt (and_mask_eq_zero_iff hb).mpr ho)
    have hs : BitArray.indices (v.bitArray.set (bit / 8) (b &&& ~~~(1#8 <<< (bit % 8)))) =
        v.indices.erase bit := indices_set_and_not hb
    refine ⟨_, rfl, ⟨?_, h.limit, h.fill⟩, ?_, hs, h.first, rfl⟩
    · rw [length_set]
      exact h.length
    · have hle := h.card_le
      have hp := Finset.card_pos.mpr ⟨bit, hm⟩
      show (v.numberOfBitsSet + (2 ^ 32 - 1)) % 2 ^ 32 = (BitArray.indices _).card
      rw [bitsPerByte, hs, Finset.card_erase_of_mem hm, h.count]
      omega

theorem nextOrOnes_erase (hne : bit ≠ nextOrOnes S 0) :
    nextOrOnes (S.erase bit) 0 = nextOrOnes S 0 := by
  cases hn : next S 0 with
  | none =>
    rw [next_eq_none, above_zero] at hn
    rw [hn, erase_empty]
  | some r =>
    rw [nextOrOnes_of_some hn] at hne
    rw [nextOrOnes_of_some hn, nextOrOnes_of_some]
    exact next_eq_some.mpr ⟨mem_erase.mpr ⟨Ne.symm hne, next_mem hn⟩, Nat.zero_le r,
      fun j hj => next_le hn (mem_of_mem_erase hj)⟩

theorem nextOrOnes_erase_first (hb : bit < allOnes) (heq : bit = nextOrOnes S 0) :
    nextOrOnes (S.erase bit) 0 = nextOrOnes (S.erase bit) (bit + 1) := by
  cases hn : next S 0 with
  | none =>
    rw [heq, nextOrOnes_of_none hn] at hb
    exact absurd hb (Nat.lt_irrefl _)
  | some r =>
    rw [nextOrOnes_of_some hn] at heq
    refine congrArg (·.getD allOnes) (next_skip (Nat.zero_le _) fun j hj _ => ?_)
    have hle := next_le hn (mem_of_mem_erase hj) (Nat.zero_le j)
    have hne := ne_of_mem_erase hj
    omega

/-- **Clear** takes the bit away, if it is not the first one beyond the vector. -/
theorem Right.clear (h : Right v) (hb : bit < maxBitVectorIndex) (hne : bit ≠ v.bitLength) :
    ∃ v', parcBitVectorClear v bit = pure v' ∧ Right v' ∧ v'.indices = v.indices.erase bit ∧
      Room bit v v' := by
  obtain ⟨u, hr, hu, hi, hro⟩ := h.resizeIf (c := bit > v.bitLength) hb
    Nat.le_of_lt fun hle => Nat.lt_of_le_of_ne (Nat.le_of_not_lt hle) hne
  obtain ⟨w, hc, hw, hco, he, hf, hl⟩ := hu.clearInArray hro.1
  rw [Room, ← hl] at hro
  unfold parcBitVectorClear
  rw [assertTrue_of (decide_eq_true hb), pure_bind, hr, pure_bind, hc, pure_bind]
  rw [← hi, ← he]
  split
  · rename_i heq
    have ho : bit < allOnes := Nat.lt_trans hb (by decide)
    have hn := nextOrOnes_erase_first ho (heq.trans hf)
    rw [← he] at hn
    -- the cached first bit is the old one, before the start of the search
    rw [nextBitSet_of_sized hw (fun hle => absurd hle (by omega)), pure_bind]
    exact ⟨_, rfl, ⟨⟨hw.length, hw.limit, hw.fill⟩, hco, hn.symm⟩, rfl, hro⟩
  · rename_i hot
    rw [hf] at hot
    refine ⟨_, rfl, ⟨hw, hco, ?_⟩, rfl, hro⟩
    rw [hf, he, nextOrOnes_erase hot]

theorem Sized.clear_faults (h : Sized v) (hb : v.bitLength < maxBitVectorIndex) :
    parcBitVectorClear v v.bitLength = throw .memoryFault := by
  unfold parcBitVectorClear clearInArray
  rw [assertTrue_of (decide_eq_true hb), pure_bind, resizeIf, if_neg (Nat.lt_irrefl _), pure_bind]
  simp only [h.size, load_beyond (Nat.le_refl _)]
  rfl

end Libparc.BitVector
