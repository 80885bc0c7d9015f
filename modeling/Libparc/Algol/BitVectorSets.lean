import Libparc.Store
import Libparc.Algol.BitVector

/-! # Functions of two bit vectors

The vectors are cells of a store, so that two arguments may be the same vector.
Copy, Or and And make a new one. The loops of the source go from one bit of a
vector to the next in two ways: until NextBitSet returns -1 (`forEachBit`), or
as often as the cached count says (`forCountedBits`). With right caches both go
through the set of the bits in order. -/
namespace Libparc.BitVector
open BitArray Store Finset Allocator

abbrev Vectors := Store PARCBitVector

variable {σ ρ : Type}

/-! ## Loops over the bits of a vector -/

section
variable (vector : σ → Prog PARCBitVector)

/-- A turn of `for (int bit = 0; (bit = NextBitSet(vector, bit)) >= 0; bit++)`. -/
def forEachBitTurn (body : σ → Int → Prog σ) (state : σ × Int) : Prog (σ × Int ⊕ σ) := do
  let v ← vector state.1
  let found ← parcBitVectorNextBitSet v (toUnsigned state.2)
  let bit := toInt found
  if bit ≥ 0 then do
    let s ← body state.1 bit
    pure (.inl (s, bit + 1))
  else pure (.inr state.1)

def forEachBit (body : σ → Int → Prog σ) (s : σ) : Prog σ :=
  Exec.loop (forEachBitTurn vector body) (s, 0)

/-- A turn of `for (int i = 0; i < vector->numberOfBitsSet; i++)` with
`bit = NextBitSet(vector, bit)` at its start and `bit++` at its end. The body may
leave the loop. -/
def forCountedBitsTurn (body : σ → Int → Prog (σ ⊕ ρ))
    (after : σ → ρ) (state : σ × Nat × Int) : Prog (σ × Nat × Int ⊕ ρ) := do
  let v ← vector state.1
  if state.2.1 < v.numberOfBitsSet then do
    let found ← parcBitVectorNextBitSet v (toUnsigned state.2.2)
    let bit := toInt found
    match ← body state.1 bit with
    | .inl s => pure (.inl (s, state.2.1 + 1, bit + 1))
    | .inr r => pure (.inr r)
  else pure (.inr (after state.1))

def forCountedBits (body : σ → Int → Prog (σ ⊕ ρ)) (after : σ → ρ) (s : σ) : Prog ρ :=
  Exec.loop (forCountedBitsTurn vector body after) (s, 0, 0)

end

/-! ## The functions -/

/-- `memcpy` of the first bytes of an array to a new one of their size. -/
def memcpy (array : List (BitVec 8)) (count : Nat) : Prog (List (BitVec 8)) :=
  if count ≤ array.length then pure (array.take count) else throw .memoryFault

/-- `memcmp(a, b, count) == 0`. -/
def sameBytes (a b : List (BitVec 8)) (count : Nat) : Prog Bool :=
  if count ≤ a.length ∧ count ≤ b.length then pure (a.take count == b.take count)
  else throw .memoryFault

def parcBitVectorEquals (a b : PARCBitVector) : Prog Bool :=
  if a.numberOfBitsSet = b.numberOfBitsSet ∧ a.firstBitSet = b.firstBitSet then
    sameBytes a.bitArray b.bitArray
      (if a.bitLength ≠ b.bitLength ∧ b.bitLength < a.bitLength then b.bitLength / bitsPerByte
       else a.bitLength / bitsPerByte)
  else pure false

/-- A turn of the loop of Contains, which leaves it with false. -/
def containsBit (parcBitVector : PARCBitVector) (testBit : Int) : Prog (Unit ⊕ Bool) := do
  let value ← parcBitVectorGet (some parcBitVector) (toUnsigned testBit)
  if value ≠ 1 then pure (.inr false) else pure (.inl ())

def parcBitVectorContains (parcBitVector testVector : PARCBitVector) : Prog Bool :=
  forCountedBits (fun _ => pure testVector) (fun _ testBit => containsBit parcBitVector testBit)
    (fun _ => true) ()

def setBit (parcBitVector : Ptr) (s : Vectors) (bit : Int) : Prog Vectors :=
  s.update parcBitVector fun v => parcBitVectorSet v (toUnsigned bit)

def parcBitVectorSetVector (s : Vectors) (parcBitVector bitsToSet : Ptr) : Prog Vectors :=
  forCountedBits (·.read bitsToSet)
    (fun s settingBit => do
      assertTrue (settingBit ≠ -1) "Number of bits claimed set inconsistent with bits found"
      let s ← setBit parcBitVector s settingBit
      pure (.inl s))
    id s

/-- A turn of the loop of ClearVector, which only clears up to the end of the
vector. The comparison is one of `unsigned` numbers. -/
def clearBit (parcBitVector : Ptr) (s : Vectors) (clearingBit : Int) :
    Prog (Vectors ⊕ Vectors) := do
  let v ← s.read parcBitVector
  if toUnsigned clearingBit ≥ v.bitLength then pure (.inr s)
  else if clearingBit ≠ -1 then do
    let s ← s.update parcBitVector fun v => parcBitVectorClear v (toUnsigned clearingBit)
    pure (.inl s)
  else pure (.inl s)

def parcBitVectorClearVector (s : Vectors) (parcBitVector bitsToClear : Ptr) : Prog Vectors :=
  if parcBitVector = bitsToClear then s.update parcBitVector parcBitVectorReset
  else forCountedBits (·.read bitsToClear) (clearBit parcBitVector) id s

section
variable (A : Allocator)

def parcBitVectorCopy (s : Vectors) (source : Ptr) : Prog (Vectors × Ptr) := do
  let v ← s.read source
  let bitArray ← memcpy v.bitArray (v.bitLength / bitsPerByte)
  pure (s.allocate A { v with bitArray })

def parcBitVectorOr (s : Vectors) (first second : Ptr) : Prog (Vectors × Ptr) :=
  if first ≠ NULL then do
    let (s, result) ← parcBitVectorCopy A s first
    if second ≠ NULL then do
      let s ← forEachBit (·.read second) (setBit result) s
      pure (s, result)
    else pure (s, result)
  else if second ≠ NULL then parcBitVectorCopy A s second
  else pure (s.allocate A parcBitVectorCreate)

/-- The argument of Get at an address. -/
def vectorAt (s : Vectors) (p : Ptr) : Prog (Option PARCBitVector) :=
  if p = NULL then pure none else do
    let v ← s.read p
    pure (some v)

/-- The body of the loop of And. -/
def setIfIn (second result : Ptr) (s : Vectors) (bit : Int) : Prog Vectors := do
  let v ← vectorAt s second
  let value ← parcBitVectorGet v (toUnsigned bit)
  if value = 1 then setBit result s bit else pure s

def parcBitVectorAnd (s : Vectors) (first second : Ptr) : Prog (Vectors × Ptr) :=
  let (s, result) := s.allocate A parcBitVectorCreate
  if second = NULL ∧ first ≠ NULL then pure (s, result)
  else if first ≠ NULL then do
    let s ← forEachBit (·.read first) (setIfIn second result) s
    pure (s, result)
  else pure (s, result)

end

/-! ## The loops go through the set -/

variable {vector : σ → Prog PARCBitVector} {v w : PARCBitVector} {i n r : Nat}

theorem toInt_of_lt (h : n < 8192) : toInt n = n := if_pos (by omega)

theorem toUnsigned_natCast (h : n ≤ 8192) : toUnsigned n = n := by
  unfold toUnsigned
  omega

theorem Right.found (h : Right v) (hr : next v.indices i = some r) :
    r < 8192 ∧ parcBitVectorNextBitSet v i = pure r ∧ toInt r = r := by
  have hlt := h.lt_limit (next_mem hr)
  exact ⟨hlt, by rw [h.nextBitSet, nextOrOnes_of_some hr], toInt_of_lt hlt⟩

theorem forEachBit_spec {body} (T : Finset Nat) (Inv : Nat → σ → Prop)
    (hve : ∀ i s, Inv i s → ∃ v, vector s = pure v ∧ Right v ∧ above v.indices i = above T i)
    (hb : ∀ i s r, Inv i s → next T i = some r → ∃ s', body s r = pure s' ∧ Inv (r + 1) s')
    {s} (hs : Inv 0 s) :
    ∃ s', forEachBit vector body s = pure s' ∧ ∃ i, Inv i s' ∧ above T i = ∅ := by
  refine loop_ascending T (fun i (st : σ × Int) => st.2 = i ∧ i ≤ 8192 ∧ Inv i st.1) _ ?_ ?_
    ⟨rfl, Nat.zero_le _, hs⟩
  · rintro i ⟨s, bit⟩ r ⟨rfl, hle, hs⟩ hn
    obtain ⟨v, hv, hr, ha⟩ := hve i s hs
    obtain ⟨hlt, hf, hi⟩ := hr.found ((next_congr ha).trans hn)
    obtain ⟨s', hru, hs'⟩ := hb i s r hs hn
    refine .inr ⟨(s', (r : Int) + 1), ?_, rfl, hlt, hs'⟩
    unfold forEachBitTurn
    rw [hv, pure_bind, toUnsigned_natCast hle, hf, pure_bind, hi]
    rw [if_pos (Int.natCast_nonneg r), hru, pure_bind]
  · rintro i ⟨s, bit⟩ ⟨rfl, hle, hs⟩ he
    obtain ⟨v, hv, hr, ha⟩ := hve i s hs
    refine ⟨s, ?_, i, hs, he⟩
    unfold forEachBitTurn
    rw [hv, pure_bind, toUnsigned_natCast hle, hr.nextBitSet, pure_bind,
      nextOrOnes_of_none (next_eq_none.mpr (ha.trans he))]
    rfl

theorem forCountedBits_spec {body after} (T : Finset Nat) (Inv : Nat → σ → Prop) (Post : ρ → Prop)
    (hve : ∀ i s, Inv i s → ∃ v, vector s = pure v ∧ Right v ∧ v.indices = T)
    (hb : ∀ i s r, Inv i s → next T i = some r → (∃ out, body s r = pure (.inr out) ∧ Post out) ∨
      ∃ s', body s r = pure (.inl s') ∧ Inv (r + 1) s')
    (ha : ∀ i s, Inv i s → above T i = ∅ → Post (after s)) {s} (hs : Inv 0 s) :
    ∃ out, forCountedBits vector body after s = pure out ∧ Post out := by
  refine loop_ascending T (fun i (st : σ × Nat × Int) => st.2.2 = i ∧ i ≤ 8192 ∧
    st.2.1 + (above T i).card = T.card ∧ Inv i st.1) Post ?_ ?_
    ⟨rfl, Nat.zero_le _, by rw [above_zero, Nat.zero_add], hs⟩
  · rintro i ⟨s, n, bit⟩ r ⟨rfl, hle, hc, hs⟩ hn
    obtain ⟨v, hv, hr, rfl⟩ := hve i s hs
    obtain ⟨hlt, hf, hi⟩ := hr.found hn
    have hca := card_above hn
    have ht : forCountedBitsTurn vector body after (s, n, (i : Int)) =
        body s r >>= fun out => match out with
          | .inl s => pure (.inl (s, n + 1, (r : Int) + 1))
          | .inr r => pure (.inr r) := by
      unfold forCountedBitsTurn
      rw [hv, pure_bind, if_pos (by rw [hr.count]; simp only at hc ⊢; omega),
        toUnsigned_natCast hle, hf, pure_bind, hi]
    rw [ht]
    rcases hb i s r hs hn with ⟨out, hru, hp⟩ | ⟨s', hru, hs'⟩
    · exact .inl ⟨out, by rw [hru, pure_bind], hp⟩
    · refine .inr ⟨(s', n + 1, (r : Int) + 1), by rw [hru, pure_bind], rfl, hlt, ?_, hs'⟩
      simp only at hc ⊢
      omega
  · rintro i ⟨s, n, bit⟩ ⟨rfl, hle, hc, hs⟩ he
    obtain ⟨v, hv, hr, rfl⟩ := hve i s hs
    refine ⟨after s, ?_, ha i s hs he⟩
    rw [he, card_empty] at hc
    unfold forCountedBitsTurn
    rw [hv, pure_bind, if_neg (by rw [hr.count]; simp only at hc ⊢; omega)]

/-! ## Equals and Contains -/

/-- **Equals** decides whether the sets are the same. -/
theorem Right.equals (hv : Right v) (hw : Right w) :
    parcBitVectorEquals v w = pure (decide (v.indices = w.indices)) := by
  unfold parcBitVectorEquals
  split
  · rename_i hc
    have hs : (if v.bitLength ≠ w.bitLength ∧ w.bitLength < v.bitLength
        then w.bitLength / bitsPerByte else v.bitLength / bitsPerByte) =
        min v.bitArray.length w.bitArray.length := by
      have := hv.length
      have := hw.length
      rw [hv.size, hw.size]
      split <;> omega
    rw [hs, sameBytes, if_pos ⟨Nat.min_le_left _ _, Nat.min_le_right _ _⟩, Exec.pure_inj,
      Bool.eq_iff_iff, beq_iff_eq, decide_eq_true_iff]
    have hca : v.indices.card = w.indices.card := by rw [← hv.count, ← hw.count, hc.1]
    constructor
    · intro ht
      have hsa := congrArg BitArray.indices ht
      rw [indices_take, indices_take] at hsa
      -- the shorter vector has all its bits in the bytes that are compared
      rcases Nat.le_total v.bitArray.length w.bitArray.length with hle | hle
      · rw [Nat.min_eq_left hle, filter_true_of_mem fun _ => lt_of_mem] at hsa
        exact eq_of_subset_of_card_le (hsa.subset.trans (filter_subset _ _)) hca.ge
      · rw [Nat.min_eq_right hle, filter_true_of_mem (s := BitArray.indices w.bitArray)
          fun _ => lt_of_mem] at hsa
        exact (eq_of_subset_of_card_le (hsa.symm.subset.trans (filter_subset _ _)) hca.le).symm
    · intro heq
      refine eq_of_indices ?_ ?_
      · rw [List.length_take, List.length_take]
        omega
      · rw [indices_take, indices_take]
        exact congrArg _ heq
  · rename_i hc
    rw [decide_eq_false fun heq => hc ⟨?_, ?_⟩]
    · rw [hv.count, hw.count, heq]
    · rw [hv.first, hw.first, heq]

/-- **Contains** decides whether one set has all of the other. -/
theorem Right.contains (hv : Right v) (hw : Right w) :
    parcBitVectorContains v w = pure (decide (w.indices ⊆ v.indices)) := by
  have hl : ∃ out, parcBitVectorContains v w = pure out ∧ out = decide (w.indices ⊆ v.indices) := by
    refine forCountedBits_spec w.indices (fun i _ => below w.indices i ⊆ v.indices) _
      (fun _ _ _ => ⟨w, rfl, hw, rfl⟩) (fun i _ r hb hn => ?_) (fun i _ hb he => ?_)
      (by rw [below_zero]; exact empty_subset _)
    · have hlt : r < 8192 := hw.lt_limit (next_mem hn)
      obtain ⟨x, hg, hva⟩ := hv.get hlt
      unfold containsBit
      rw [toUnsigned_natCast (Nat.le_of_lt hlt), hg, pure_bind]
      by_cases hm : r ∈ v.indices
      · rw [if_neg (not_not.mpr (hva.mpr hm))]
        refine .inr ⟨(), rfl, ?_⟩
        rw [below_next hn]
        exact insert_subset hm hb
      · rw [if_pos (mt hva.mp hm)]
        exact .inl ⟨false, rfl, (decide_eq_false fun hs => hm (hs (next_mem hn))).symm⟩
    · rw [below_of_above he] at hb
      exact (decide_eq_true hb).symm
  obtain ⟨out, hr, ho⟩ := hl
  rw [hr, ho]

/-! ## Changes of vectors -/

variable {A : Allocator} {s s' : Vectors} {p q : Ptr} {S T : Finset Nat}

/-- There is a vector at the address, its caches are right and its bits are the
set. -/
def Holds (s : Vectors) (p : Ptr) (S : Finset Nat) : Prop :=
  ∃ v, s.cell p = some v ∧ Right v ∧ v.indices = S

/-- The call returns, the vector has the set, and the other vectors are as they
were. -/
def Changes (call : Prog Vectors) (s : Vectors) (p : Ptr) (S : Finset Nat) : Prop :=
  ∃ s', call = pure s' ∧ Holds s' p S ∧ ∀ q ≠ p, s'.cell q = s.cell q

/-- The call returns a new vector with the set, and the other vectors are as they
were. -/
def Creates (call : Prog (Vectors × Ptr)) (s : Vectors) (S : Finset Nat) : Prop :=
  ∃ s' p, call = pure (s', p) ∧ Holds s' p S ∧ s.cell p = none ∧ ∀ q ≠ p, s'.cell q = s.cell q

/-- The length of the vector at the address is one of `L`, besides. -/
def HoldsIn (L : Nat → Prop) (s : Vectors) (p : Ptr) (S : Finset Nat) : Prop :=
  ∃ v, s.cell p = some v ∧ Right v ∧ v.indices = S ∧ L v.bitLength

def ChangesIn (L : Nat → Prop) (call : Prog Vectors) (s : Vectors) (p : Ptr) (S : Finset Nat) :
    Prop :=
  ∃ s', call = pure s' ∧ HoldsIn L s' p S ∧ ∀ q ≠ p, s'.cell q = s.cell q

/-- Room for the bit leaves a length of `L`. -/
def HasRoom (L : Nat → Prop) (bit : Nat) : Prop :=
  ∀ v v', L v.bitLength → Room bit v v' → L v'.bitLength

variable {L : Nat → Prop}

theorem HoldsIn.holds (h : HoldsIn L s p S) : Holds s p S := by
  obtain ⟨v, hc, hr, hi, -⟩ := h
  exact ⟨v, hc, hr, hi⟩

theorem ChangesIn.changes {call} (h : ChangesIn L call s p S) : Changes call s p S := by
  obtain ⟨s', hr, hh, hs⟩ := h
  exact ⟨s', hr, hh.holds, hs⟩

theorem Holds.any (h : Holds s p S) : HoldsIn (fun _ => True) s p S := by
  obtain ⟨v, hc, hr, hi⟩ := h
  exact ⟨v, hc, hr, hi, trivial⟩

section
variable (h : Holds s p S)
include h

theorem Holds.read : ∃ v, s.read p = pure v ∧ Right v ∧ v.indices = S := by
  obtain ⟨v, hc, hv⟩ := h
  exact ⟨v, read_of hc, hv⟩

theorem Holds.of_same (hs : s'.cell p = s.cell p) : Holds s' p S := by
  obtain ⟨v, hc, hv⟩ := h
  exact ⟨v, hs.trans hc, hv⟩

theorem Holds.ne_null : p ≠ NULL := by
  obtain ⟨v, hc, -⟩ := h
  exact Store.ne_null hc

theorem Holds.ne_fresh (hf : s.cell q = none) : q ≠ p := by
  rintro rfl
  obtain ⟨v, hc, -⟩ := h
  rw [hf] at hc
  cases hc

theorem Holds.lt_limit (hr : r ∈ S) : r < 8192 := by
  obtain ⟨v, -, hv, rfl⟩ := h
  exact hv.lt_limit hr

end

theorem HoldsIn.update (h : HoldsIn L s p S) {f} {L' : Nat → Prop}
    (hf : ∀ v, Right v → v.indices = S → L v.bitLength →
      ∃ v', f v = pure v' ∧ Right v' ∧ v'.indices = T ∧ L' v'.bitLength) :
    ChangesIn L' (s.update p f) s p T := by
  obtain ⟨v, hc, hr, hi, hl⟩ := h
  obtain ⟨v', hru, hv'⟩ := hf v hr hi hl
  obtain ⟨s', hu, hn, hs⟩ := update_of hc hru
  exact ⟨s', hu, ⟨v', hn, hv'⟩, hs⟩

theorem HoldsIn.setBit (h : HoldsIn L s p S) (hr : r < 8192) (hL : HasRoom L r) :
    ChangesIn L (BitVector.setBit p s r) s p (insert r S) := by
  unfold BitVector.setBit
  rw [toUnsigned_natCast (Nat.le_of_lt hr)]
  refine h.update fun v hv hi hl => ?_
  obtain ⟨v', hs, hr', hi', hro⟩ := hv.set hr
  exact ⟨v', hs, hr', hi ▸ hi', hL v v' hl hro⟩

theorem HoldsIn.reset (h : HoldsIn L s p S) :
    ChangesIn L (s.update p parcBitVectorReset) s p ∅ := by
  refine h.update fun v hv _ hl => ?_
  obtain ⟨v', hr, ⟨hr', hi⟩, hl'⟩ := hv.reset
  exact ⟨v', hr, hr', hi, hl' ▸ hl⟩

/-- What a loop that changes one vector keeps. -/
def Keeps (L : Nat → Prop) (s : Vectors) (p : Ptr) (S : Nat → Finset Nat) (i : Nat)
    (s' : Vectors) : Prop :=
  HoldsIn L s' p (S i) ∧ ∀ q ≠ p, s'.cell q = s.cell q

variable {F : Nat → Finset Nat}

theorem Keeps.start (h : HoldsIn L s p S) (hF : F 0 = S) : Keeps L s p F 0 s :=
  ⟨hF ▸ h, fun _ _ => rfl⟩

theorem Keeps.step {call} (h : Keeps L s p F i s') (hc : ChangesIn L call s' p (F (r + 1))) :
    ∃ s'', call = pure s'' ∧ Keeps L s p F (r + 1) s'' := by
  obtain ⟨s'', hr, hh, hs⟩ := hc
  exact ⟨s'', hr, hh, fun q hq => (hs q hq).trans (h.2 q hq)⟩

theorem Keeps.done (h : Keeps L s p F i s') (hF : F i = S) :
    HoldsIn L s' p S ∧ ∀ q ≠ p, s'.cell q = s.cell q := ⟨hF ▸ h.1, h.2⟩

theorem Keeps.read (h : Keeps L s p F i s') (hq : Holds s q T) (hpq : p ≠ q) :
    ∃ v, s'.read q = pure v ∧ Right v ∧ v.indices = T :=
  (hq.of_same (h.2 q hpq.symm)).read

/-- **SetVector** adds the bits of the other vector, or of the vector itself. -/
theorem HoldsIn.setVector (hp : HoldsIn L s p S) (hq : Holds s q T)
    (hL : ∀ r ∈ T, HasRoom L r) : ChangesIn L (parcBitVectorSetVector s p q) s p (S ∪ T) := by
  have hr (i : Nat) (s' : Vectors) (h : Keeps L s p (fun i => S ∪ below T i) i s') :
      ∃ v, s'.read q = pure v ∧ Right v ∧ v.indices = T := by
    by_cases hpq : p = q
    · subst hpq
      obtain ⟨v, hc, -, rfl, -⟩ := hp
      obtain ⟨w, hc', -, rfl⟩ := hq
      cases hc.symm.trans hc'
      obtain ⟨u, hu, hri, hi⟩ := h.1.holds.read
      exact ⟨u, hu, hri, hi.trans (union_eq_left.mpr (filter_subset _ _))⟩
    · exact h.read hq hpq
  refine forCountedBits_spec T (Keeps L s p fun i => S ∪ below T i) _ hr ?_ ?_ ?_
  · intro i s' r hs' hn
    have hch := hs'.1.setBit (hq.lt_limit (next_mem hn)) (hL r (next_mem hn))
    rw [← union_insert, ← below_next hn] at hch
    obtain ⟨s'', hru, hk⟩ := hs'.step hch
    refine .inr ⟨s'', ?_, hk⟩
    rw [assertTrue_of (decide_eq_true (by omega)), pure_bind, hru, pure_bind]
  · intro i s' hs' he
    exact hs'.done (by rw [below_of_above he])
  · exact .start hp (by rw [below_zero, union_empty])

/-- **ClearVector** takes away the bits of the other vector, or all. -/
theorem HoldsIn.clearVector (hp : HoldsIn L s p S) (hq : Holds s q T) :
    ChangesIn L (parcBitVectorClearVector s p q) s p (S \ T) := by
  unfold parcBitVectorClearVector
  by_cases hpq : p = q
  · subst hpq
    obtain ⟨v, hc, -, rfl, -⟩ := id hp
    obtain ⟨w, hc', -, rfl⟩ := hq
    cases hc.symm.trans hc'
    rw [if_pos rfl, sdiff_self]
    exact hp.reset
  rw [if_neg hpq]
  refine forCountedBits_spec T (Keeps L s p fun i => S \ below T i) _
    (fun i s' h => h.read hq hpq) ?_ ?_ ?_
  · intro i s' r hs' hn
    have hlt := hq.lt_limit (next_mem hn)
    obtain ⟨⟨v, hc, hr, hi, hl⟩, hs⟩ := id hs'
    unfold clearBit
    rw [read_of hc, pure_bind, toUnsigned_natCast (Nat.le_of_lt hlt)]
    by_cases hb : r ≥ v.bitLength
    · -- the bits to come are not in the vector
      rw [if_pos hb]
      refine .inl ⟨s', rfl, ⟨v, hc, hr, ?_, hl⟩, hs⟩
      rw [hi]
      ext j
      rw [mem_sdiff, mem_sdiff, mem_below]
      refine and_congr_right fun hj => not_congr ⟨And.left, fun hT => ⟨hT, ?_⟩⟩
      by_contra hle
      have hjr := next_le hn hT (Nat.le_of_not_lt hle)
      have hjv : j ∈ v.indices := by
        rw [hi, mem_sdiff, mem_below]
        exact ⟨hj, fun h => hle h.2⟩
      have := hr.lt_bitLength hjv
      omega
    · rw [if_neg hb, if_pos (by omega)]
      have hch : ChangesIn L (s'.update p fun v => parcBitVectorClear v r) s' p
          (S \ below T (r + 1)) := by
        obtain ⟨v', hru, hr', hi', -, hro⟩ := hr.clear hlt (by omega)
        obtain ⟨s'', hu, hne, hsa'⟩ := update_of (f := fun v => parcBitVectorClear v r) hc hru
        rw [hi, ← sdiff_insert, ← below_next hn] at hi'
        exact ⟨s'', hu, ⟨v', hne, hr', hi', hro (Nat.lt_of_not_le hb) ▸ hl⟩, hsa'⟩
      obtain ⟨s'', hru, hk⟩ := hs'.step hch
      exact .inr ⟨s'', by rw [hru, pure_bind], hk⟩
  · intro i s' hs' he
    exact hs'.done (by rw [below_of_above he])
  · exact .start hp (by rw [below_zero, sdiff_empty])

/-! ## New vectors -/

theorem creates_of_right (hr : Right v) : Creates (pure (s.allocate A v)) s v.indices := by
  rcases hn : s.allocate A v with ⟨s', p⟩
  exact ⟨s', p, rfl, ⟨v, cell_new hn, hr, rfl⟩, cell_fresh hn, fun q hq =>
    (cell_allocate hn q).trans (if_neg hq)⟩

/-- **Copy** makes a vector with the same bits. -/
theorem Holds.copy (h : Holds s p S) : Creates (parcBitVectorCopy A s p) s S := by
  obtain ⟨v, hc, hr, rfl⟩ := h
  have hco : parcBitVectorCopy A s p = pure (s.allocate A v) := by
    unfold parcBitVectorCopy
    rw [read_of hc, pure_bind, hr.size, memcpy, if_pos (Nat.le_refl _), pure_bind, List.take_length]
  rw [hco]
  exact creates_of_right hr

theorem Creates.then {call} {f : Ptr → Vectors → Prog Vectors} (h : Creates call s S)
    (hf : ∀ s' p, Holds s' p S → s.cell p = none → (∀ q ≠ p, s'.cell q = s.cell q) →
      Changes (f p s') s' p T) :
    Creates (call >>= fun out => f out.2 out.1 >>= fun s' => pure (s', out.2)) s T := by
  obtain ⟨s1, p, hc, hh, hfr, hs⟩ := h
  obtain ⟨s2, hr, hh', hs'⟩ := hf s1 p hh hfr hs
  refine ⟨s2, p, ?_, hh', hfr, fun q hq => (hs' q hq).trans (hs q hq)⟩
  rw [hc, pure_bind, hr, pure_bind]

/-- **Or** makes the union. -/
theorem Holds.or (hp : Holds s p S) (hq : Holds s q T) :
    Creates (parcBitVectorOr A s p q) s (S ∪ T) := by
  unfold parcBitVectorOr
  rw [if_pos hp.ne_null]
  simp only [if_pos hq.ne_null]
  refine Creates.then (f := fun res => forEachBit (·.read q) (BitVector.setBit res)) hp.copy ?_
  intro s1 res hr hf hs
  have hne := hq.ne_fresh hf
  have hq1 := hq.of_same (hs q hne.symm)
  obtain ⟨s2, hru, i, hk, he⟩ := forEachBit_spec T
    (Keeps (fun _ => True) s1 res fun i => S ∪ below T i)
    (fun i s' h => by
      obtain ⟨v, hv, hri, hi⟩ := h.read hq1 hne
      exact ⟨v, hv, hri, by rw [hi]⟩)
    (fun i s' r hs' hn => by
      have hc := hs'.1.setBit (hq.lt_limit (next_mem hn)) fun _ _ _ _ => trivial
      rw [← union_insert, ← below_next hn] at hc
      exact hs'.step hc)
    (.start hr.any (by rw [below_zero, union_empty]))
  exact ⟨s2, hru, (hk.done (by rw [below_of_above he])).imp_left HoldsIn.holds⟩

theorem Keeps.setIfIn {res} (hs' : Keeps (fun _ => True) s res (fun i => below S i ∩ T) i s')
    (hq : Holds s q T) (hne : res ≠ q) (hr : r < 8192) (hn : next S i = some r) :
    ∃ s'', BitVector.setIfIn q res s' r = pure s'' ∧
      Keeps (fun _ => True) s res (fun i => below S i ∩ T) (r + 1) s'' := by
  obtain ⟨w, hre, hri, rfl⟩ := hs'.read hq hne
  obtain ⟨x, hg, hv⟩ := hri.get hr
  unfold BitVector.setIfIn vectorAt
  rw [if_neg hq.ne_null, hre, pure_bind, pure_bind, toUnsigned_natCast (Nat.le_of_lt hr), hg,
    pure_bind]
  by_cases hm : r ∈ w.indices
  · rw [if_pos (hv.mpr hm)]
    have hc := hs'.1.setBit hr fun _ _ _ _ => trivial
    rw [← insert_inter_of_mem hm, ← below_next hn] at hc
    exact hs'.step hc
  · rw [if_neg (mt hv.mp hm)]
    refine ⟨s', rfl, hs'.done ?_⟩
    show below S i ∩ w.indices = below S (r + 1) ∩ w.indices
    rw [below_next hn, insert_inter_of_notMem hm]

/-- **And** makes the intersection. -/
theorem Holds.and (hp : Holds s p S) (hq : Holds s q T) :
    Creates (parcBitVectorAnd A s p q) s (S ∩ T) := by
  obtain ⟨hr, he⟩ := create_right
  have hn := creates_of_right (A := A) (s := s) hr
  rw [he] at hn
  have hc := Creates.then (T := S ∩ T)
    (f := fun res => forEachBit (·.read p) (BitVector.setIfIn q res)) hn ?_
  · unfold parcBitVectorAnd
    simp only [hp.ne_null, hq.ne_null, ne_eq, not_false_eq_true, and_true, if_true, if_false]
    exact hc
  intro s1 res hre hf hs
  have hp1 := hp.of_same (hs p (hp.ne_fresh hf).symm)
  have hq1 := hq.of_same (hs q (hq.ne_fresh hf).symm)
  obtain ⟨s2, hru, i, hk, he⟩ := forEachBit_spec S
    (Keeps (fun _ => True) s1 res fun i => below S i ∩ T)
    (fun i s' h => by
      obtain ⟨v, hv, hr, hi⟩ := h.read hp1 (hp.ne_fresh hf)
      exact ⟨v, hv, hr, by rw [hi]⟩)
    (fun i s' r hs' hne => hs'.setIfIn hq1 (hq.ne_fresh hf) (hp.lt_limit (next_mem hne)) hne)
    (.start hre.any (by rw [below_zero, empty_inter]))
  exact ⟨s2, hru, (hk.done (by rw [below_of_above he])).imp_left HoldsIn.holds⟩

/-- **The functions of two vectors are the operations on sets**, whatever the
lengths of the two vectors, and also if they are the same vector; the vectors that
a function does not write are as they were. -/
theorem vectors_are_sets {a b : PARCBitVector} (hp : s.cell p = some a) (hq : s.cell q = some b)
    (ha : Right a) (hb : Right b) :
    Creates (parcBitVectorOr A s p q) s (a.indices ∪ b.indices) ∧
      Creates (parcBitVectorAnd A s p q) s (a.indices ∩ b.indices) ∧
      Changes (parcBitVectorSetVector s p q) s p (a.indices ∪ b.indices) ∧
      Changes (parcBitVectorClearVector s p q) s p (a.indices \ b.indices) ∧
      parcBitVectorContains a b = pure (decide (b.indices ⊆ a.indices)) ∧
      parcBitVectorEquals a b = pure (decide (a.indices = b.indices)) := by
  have hp' : Holds s p a.indices := ⟨a, hp, ha, rfl⟩
  have hq' : Holds s q b.indices := ⟨b, hq, hb, rfl⟩
  exact ⟨hp'.or hq', hp'.and hq', (hp'.any.setVector hq' fun _ _ _ _ _ _ => trivial).changes,
    (hp'.any.clearVector hq').changes, ha.contains hb, ha.equals hb⟩

/-- Vectors of one and two bytes. -/
theorem vectors_are_sets_lengths :
    ∃ (s : Vectors) (a b : PARCBitVector), a.bitLength = 8 ∧ b.bitLength = 16 ∧
      s.cell 1 = some a ∧ s.cell 2 = some b ∧
      Creates (parcBitVectorOr bump s 1 2) s {3, 8} ∧
      Creates (parcBitVectorAnd bump s 1 2) s {3} ∧
      Changes (parcBitVectorSetVector s 1 2) s 1 {3, 8} ∧
      Changes (parcBitVectorClearVector s 1 2) s 1 ∅ ∧
      parcBitVectorContains a b = pure false ∧ parcBitVectorEquals a b = pure false := by
  let a : PARCBitVector := ⟨8, 1, 3, [8], 0⟩
  let b : PARCBitVector := ⟨16, 2, 3, [8, 1], 0⟩
  have ha : a.indices = {3} := by decide
  have hb : b.indices = {3, 8} := by decide
  have hs := vectors_are_sets (A := bump) (p := 1) (q := 2)
    (s := ((empty.allocate bump a).1.allocate bump b).1) rfl rfl
    ⟨⟨rfl, by decide, rfl⟩, by decide, by decide⟩ ⟨⟨rfl, by decide, rfl⟩, by decide, by decide⟩
  rw [ha, hb] at hs
  exact ⟨_, a, b, rfl, rfl, rfl, rfl, hs⟩

end Libparc.BitVector
