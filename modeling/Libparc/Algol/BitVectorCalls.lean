import Libparc.Algol.BitVectorSets

/-! # Runs of calls on bit vectors

A shift to the left moves the bits down one by one while it goes through them.
A run is a sequence of calls on the vectors of a store. A call keeps the caches of
all vectors right, with two exceptions: Clear of the first bit beyond a vector does
not make room for it, and reads beyond the array. A vector that gets longer is copied by
`_parcStdlibMemory_rplRealloc`, which reads beyond the old array. -/
namespace Libparc.BitVector
open BitArray Exec Finset Store

/-! ## Shifts to the left -/

/-- The body of the loop of `_parcBitVector_LeftShiftOnce`. -/
def moveDown (v : PARCBitVector) (bit : Int) : Prog PARCBitVector :=
  if bit > 0 then do
    let v ← parcBitVectorSet v (toUnsigned (bit - 1))
    parcBitVectorClear v (toUnsigned bit)
  else parcBitVectorClear v (toUnsigned bit)

def parcBitVectorLeftShiftOnce (s : Vectors) (parcBitVector : Ptr) : Prog Vectors :=
  if parcBitVector ≠ NULL then s.update parcBitVector (forEachBit pure moveDown) else pure s

/-- A turn of `for (int i = 0; i < count; i++) once(vector)`: the `int` is compared with a
`size_t`. -/
def shiftTurn (once : Vectors → Prog Vectors) (count : BitVec 64) (state : Vectors × BitVec 32) :
    Prog (Vectors × BitVec 32 ⊕ Vectors) :=
  if state.2.signExtend 64 < count then do
    let s ← once state.1
    pure (.inl (s, state.2 + 1))
  else pure (.inr state.1)

def parcBitVectorLeftShift (s : Vectors) (parcBitVector : Ptr) (count : BitVec 64) :
    Prog Vectors :=
  Exec.loop (shiftTurn (parcBitVectorLeftShiftOnce · parcBitVector) count) (s, 0)

variable {A : Allocator} {v w : PARCBitVector} {i r : Nat} {S T : Finset Nat} {s : Vectors}
  {p : Ptr} {L : Nat → Prop} {m : Nat}

/-- The bits below `i` are moved down, those from `i` on are not, in a vector of `m` bits. -/
structure MovedBelow (m : Nat) (S : Finset Nat) (i : Nat) (v : PARCBitVector) : Prop where
  right : Right v
  mem : ∀ x, x ∈ v.indices ↔ (x + 1 ∈ S ∧ x + 1 < i) ∨ (x ∈ S ∧ i ≤ x)
  length : v.bitLength = m

theorem MovedBelow.above_eq (h : MovedBelow m S i v) : above v.indices i = above S i := by
  ext x
  rw [mem_above, mem_above, h.mem]
  grind

theorem MovedBelow.moveDown (h : MovedBelow m S i v) (hn : next S i = some r) :
    ∃ v', BitVector.moveDown v r = pure v' ∧ MovedBelow m S (r + 1) v' := by
  have hle := le_next hn
  have hr : r ∈ v.indices := (h.mem r).mpr (.inr ⟨next_mem hn, hle⟩)
  have hlt := h.right.lt_limit hr
  have hlv := h.right.lt_bitLength hr
  have hm := next_mem hn
  unfold BitVector.moveDown
  rw [toUnsigned_natCast (Nat.le_of_lt hlt)]
  cases r with
  | zero =>
    obtain ⟨v', hc, hri, hin, -, hl⟩ := h.right.clear hlt (Nat.ne_of_lt hlv)
    refine ⟨v', hc, hri, fun x => ?_, (hl hlv).trans h.length⟩
    rw [hin, mem_erase, h.mem]
    grind
  | succ r =>
    obtain ⟨w, hs, hw, his, -, hlw⟩ := h.right.set (Nat.lt_of_succ_lt hlt : r < 8192)
    have hwv := hlw (Nat.lt_of_succ_lt hlv)
    obtain ⟨v', hc, hri, hin, -, hl⟩ := hw.clear hlt (by omega)
    refine ⟨v', ?_, hri, fun x => ?_, (hl (by omega)).trans (hwv.trans h.length)⟩
    · rw [if_pos (by omega), show ((r + 1 : Nat) : Int) - 1 = (r : Nat) by omega,
        toUnsigned_natCast (by omega), hs, pure_bind, hc]
    · rw [hin, mem_erase, his, mem_insert, h.mem]
      have hb := fun hS hi => next_le (j := x) hn hS hi
      have hb' := fun hS hi => next_le (j := x + 1) hn hS hi
      grind

/-- **One shift** moves every bit down by one; the bit 0 falls off. -/
theorem Right.leftShiftOnce (h : Right v) :
    ∃ v', forEachBit pure BitVector.moveDown v = pure v' ∧ Right v' ∧
      (∀ x, x ∈ v'.indices ↔ x + 1 ∈ v.indices) ∧ v'.bitLength = v.bitLength := by
  obtain ⟨v', hr, i, hm, he⟩ := forEachBit_spec v.indices (MovedBelow v.bitLength v.indices)
    (fun i w hw => ⟨w, rfl, hw.right, hw.above_eq⟩) (fun i w r hw hn => hw.moveDown hn)
    (s := v) ⟨h, fun x => by simp, rfl⟩
  refine ⟨v', hr, hm.right, fun x => (hm.mem x).trans ⟨?_, fun hx => .inl ⟨hx, ?_⟩⟩, hm.length⟩
  · rintro (⟨hx, -⟩ | hx)
    · exact hx
    · exact absurd (mem_above.mpr hx) (he ▸ notMem_empty x)
  · by_contra hle
    exact absurd (mem_above.mpr ⟨hx, Nat.le_of_not_lt hle⟩) (he ▸ notMem_empty _)

/-- The set after `n` shifts to the left. -/
def lowered (S : Finset Nat) (n : Nat) : Finset Nat := (S.filter (n ≤ ·)).image (· - n)

theorem mem_lowered {x n} : x ∈ lowered S n ↔ x + n ∈ S := by
  simp only [lowered, mem_image, mem_filter]
  constructor
  · rintro ⟨y, ⟨hy, hle⟩, rfl⟩
    rwa [Nat.sub_add_cancel hle]
  · exact fun hx => ⟨x + n, ⟨hx, Nat.le_add_left n x⟩, Nat.add_sub_cancel x n⟩

theorem HoldsIn.leftShiftOnce {n} (h : HoldsIn L s p (lowered S n)) :
    ChangesIn L (parcBitVectorLeftShiftOnce s p) s p (lowered S (n + 1)) := by
  unfold parcBitVectorLeftShiftOnce
  rw [if_pos h.holds.ne_null]
  refine h.update fun v hr hi hl => ?_
  obtain ⟨v', hru, hr', hm, hl'⟩ := hr.leftShiftOnce
  refine ⟨v', hru, hr', ?_, hl' ▸ hl⟩
  ext x
  rw [hm, hi, mem_lowered, mem_lowered, Nat.add_right_comm, Nat.add_assoc]

/-! ### As often as the count says -/

theorem toNat_lt_of_signExtend {i : BitVec 32} {n} (h : i.signExtend 64 < n) :
    i.toNat + 1 < 2 ^ 32 := by
  by_contra hge
  have hi : i = BitVec.allOnes 32 := by
    exact BitVec.eq_of_toNat_eq (by rw [BitVec.toNat_allOnes]; omega)
  have ho : (BitVec.allOnes 32).signExtend 64 = BitVec.allOnes 64 := by decide
  rw [hi, ho, BitVec.lt_def, BitVec.toNat_allOnes] at h
  omega

theorem signExtend_lt_iff {i : BitVec 32} {n} (hi : i.toNat < 2 ^ 31) :
    i.signExtend 64 < n ↔ i.toNat < n.toNat := by
  have hm : i.msb = false := by
    rw [BitVec.msb_eq_decide, decide_eq_false_iff_not]
    omega
  rw [BitVec.signExtend_eq_setWidth_of_msb_false hm, BitVec.lt_def, BitVec.toNat_setWidth,
    Nat.mod_eq_of_lt (by omega)]

theorem shift_returns (once : Vectors → Prog Vectors) (n : BitVec 64)
    (P : Nat → Vectors → Prop) (hst : ∀ k s, P k s → (n.toNat < 2 ^ 31 → k < n.toNat) →
      ∃ s', once s = pure s' ∧ P (k + 1) s') (hs : P 0 s) :
    ∃ s', Exec.loop (shiftTurn once n) (s, 0) = pure s' ∧
      ∃ k, P k s' ∧ (n.toNat < 2 ^ 31 → k = n.toNat) := by
  refine loop_variant (fun m (st : Vectors × BitVec 32) => m = 2 ^ 32 - st.2.toNat ∧
    P st.2.toNat st.1 ∧ (n.toNat < 2 ^ 31 → st.2.toNat ≤ n.toNat)) _ ?_
    ⟨rfl, hs, fun _ => Nat.zero_le _⟩
  rintro m ⟨s1, i⟩ ⟨rfl, hP, hle⟩
  unfold shiftTurn
  split
  · rename_i hlt
    have hc (hsm : n.toNat < 2 ^ 31) : i.toNat < n.toNat :=
      (signExtend_lt_iff (Nat.lt_of_le_of_lt (hle hsm) hsm)).mp hlt
    have hsu : (i + 1).toNat = i.toNat + 1 := Nat.mod_eq_of_lt (toNat_lt_of_signExtend hlt)
    obtain ⟨s2, hr, hP'⟩ := hst _ _ hP hc
    refine .inr ⟨(s2, i + 1), _, by rw [hr, pure_bind], ⟨rfl, ?_⟩, ?_⟩
    · rw [hsu]
      exact ⟨hP', hc⟩
    · show 2 ^ 32 - (i + 1).toNat < 2 ^ 32 - i.toNat
      omega
  · rename_i hge
    refine .inl ⟨s1, rfl, i.toNat, hP, fun hsm => Nat.le_antisymm (hle hsm) ?_⟩
    exact Nat.le_of_not_lt (mt (signExtend_lt_iff (Nat.lt_of_le_of_lt (hle hsm) hsm)).mpr hge)

/-- **A shift** by any count returns, and the caches are right. -/
theorem HoldsIn.leftShift (h : HoldsIn L s p S) (n : BitVec 64) :
    ∃ k, ChangesIn L (parcBitVectorLeftShift s p n) s p (lowered S k) ∧
      (n.toNat < 2 ^ 31 → k = n.toNat) := by
  have hz : lowered S 0 = S := by ext; rw [mem_lowered, Nat.add_zero]
  obtain ⟨s', hr, k, hP, hk⟩ := shift_returns (parcBitVectorLeftShiftOnce · p) n
    (fun k s' => HoldsIn L s' p (lowered S k) ∧ ∀ q ≠ p, s'.cell q = s.cell q)
    (fun k s1 ⟨hh, hs⟩ _ => by
      obtain ⟨s2, hr, hh', hs'⟩ := hh.leftShiftOnce
      exact ⟨s2, hr, hh', fun q hq => (hs' q hq).trans (hs q hq)⟩)
    ⟨by rwa [hz], fun _ _ => rfl⟩
  exact ⟨k, ⟨s', hr, hP⟩, hk⟩

/-- **LeftShift moves every bit down by the count**, for every count that is an
`int`; the bits below the count fall off. -/
theorem leftShift_moves (h : Holds s p S) {n : Nat} (hn : n < 2 ^ 31) :
    Changes (parcBitVectorLeftShift s p (.ofNat 64 n)) s p ((S.filter (n ≤ ·)).image (· - n)) := by
  obtain ⟨k, hc, hk⟩ := h.any.leftShift (.ofNat 64 n)
  have hco : (BitVec.ofNat 64 n).toNat = n := Nat.mod_eq_of_lt (by omega)
  rw [hco] at hk
  rw [hk hn] at hc
  exact hc.changes

/-- The bits 3 and 8, two places down. -/
theorem leftShift_moves_two : ∃ s : Vectors, Holds s 1 {3, 8} ∧
    Changes (parcBitVectorLeftShift s 1 2#64) s 1 {1, 6} := by
  have h : Holds (empty.allocate Allocator.bump ⟨16, 2, 3, [8, 1], 0⟩).1 1 {3, 8} :=
    ⟨_, rfl, ⟨⟨rfl, by decide, rfl⟩, by decide, by decide⟩, by decide⟩
  exact ⟨_, h, leftShift_moves h (n := 2) (by decide)⟩

/-! ## Calls -/

inductive Call where
  | create
  | copy (source : Ptr)
  | set (parcBitVector : Ptr) (bit : Nat)
  | clear (parcBitVector : Ptr) (bit : Nat)
  | reset (parcBitVector : Ptr)
  | setVector (parcBitVector bitsToSet : Ptr)
  | clearVector (parcBitVector bitsToClear : Ptr)
  | leftShift (parcBitVector : Ptr) (count : BitVec 64)

/-- The vectors after a call that writes one of them, with the copy of a reallocation
checked. -/
def checked (s : Vectors) (p : Ptr) (call : Prog Vectors) : Prog Vectors := do
  let v ← s.read p
  let s' ← call
  let v' ← s'.read p
  copyInside v.bitArray v'.bitArray.length
  pure s'

/-- The vectors after a call. -/
def Call.run (A : Allocator) (s : Vectors) : Call → Prog Vectors
  | .create => pure (s.allocate A parcBitVectorCreate).1
  | .copy source => do
    let (s, _) ← parcBitVectorCopy A s source
    pure s
  | .set p bit => checked s p (s.update p fun v => parcBitVectorSet v bit)
  | .clear p bit => checked s p (s.update p fun v => parcBitVectorClear v bit)
  | .reset p => checked s p (s.update p parcBitVectorReset)
  | .setVector p bitsToSet => checked s p (parcBitVectorSetVector s p bitsToSet)
  | .clearVector p bitsToClear => checked s p (parcBitVectorClearVector s p bitsToClear)
  | .leftShift p count => checked s p (parcBitVectorLeftShift s p count)

/-- The arguments of a call are vectors, and a bit index is below the limit. -/
def Call.InRange (s : Vectors) : Call → Prop
  | .create => True
  | .copy p | .reset p | .leftShift p _ => p ∈ s.live
  | .set p bit | .clear p bit => p ∈ s.live ∧ bit < maxBitVectorIndex
  | .setVector p q | .clearVector p q => p ∈ s.live ∧ q ∈ s.live

/-- The bits that a call sets or clears are bits of the vector. -/
def Call.Safe (s : Vectors) : Call → Prop
  | .set p bit | .clear p bit => ∀ v, s.cell p = some v → bit < v.bitLength
  | .setVector p q => ∀ v w, s.cell p = some v → s.cell q = some w →
    ∀ bit ∈ w.indices, bit < v.bitLength
  | _ => True

/-- The caches of all vectors are right. -/
def AllRight (s : Vectors) : Prop := ∀ p v, s.cell p = some v → Right v

section
variable (h : AllRight s)
include h

theorem AllRight.of_same {s'} (hp : Holds s' p S)
    (hs : ∀ q ≠ p, s'.cell q = s.cell q) : AllRight s' := by
  intro q v hq
  by_cases hpq : q = p
  · subst hpq
    obtain ⟨w, hc, hr, -⟩ := hp
    rw [hc] at hq
    cases hq
    exact hr
  · exact h q v ((hs q hpq).symm.trans hq)

theorem AllRight.creates {call}
    (hc : Creates call s S) : ∃ s' p, call = pure (s', p) ∧ AllRight s' := by
  obtain ⟨s', p, hr, hh, -, hs⟩ := hc
  exact ⟨s', p, hr, h.of_same hh hs⟩

section
variable (hv : s.cell p = some v) {call : Prog Vectors}
include hv

theorem AllRight.within : HoldsIn (· = v.bitLength) s p v.indices := ⟨v, hv, h p v hv, rfl, rfl⟩

/-- A call that leaves the vector as long as it was. -/
theorem AllRight.changes (hc : ChangesIn (· = v.bitLength) call s p S) :
    ∃ s', checked s p call = pure s' ∧ AllRight s' := by
  obtain ⟨s', hr, ⟨v', hv', hri, hi, hl⟩, hs⟩ := hc
  refine ⟨s', ?_, h.of_same ⟨v', hv', hri, hi⟩ hs⟩
  have hle : v'.bitArray.length ≤ v.bitArray.length := by
    have := hri.length
    have := (h p v hv).length
    omega
  rw [checked, read_of hv, pure_bind, hr, pure_bind, read_of hv', pure_bind,
    copyInside, if_pos hle, pure_bind]

/-- A call that makes it longer reads beyond the array. -/
theorem AllRight.grows (hc : ChangesIn (v.bitLength < ·) call s p S) :
    checked s p call = throw .memoryFault := by
  obtain ⟨s', hr, ⟨v', hv', hri, hi, hl⟩, hs⟩ := hc
  have hlen := hri.length
  have hlen' := (h p v hv).length
  rw [checked, read_of hv, pure_bind, hr, pure_bind, read_of hv', pure_bind,
    copyInside, if_neg (by omega)]
  rfl

end

theorem AllRight.cell (hp : p ∈ s.live) : ∃ v, s.cell p = some v ∧ Right v := by
  obtain ⟨v, hc⟩ := Option.isSome_iff_exists.mp ((s.mem_live p).mp hp)
  exact ⟨v, hc, h p v hc⟩

/-- **A safe call** returns and keeps the caches right. -/
theorem Call.run_right (call : Call) (hr : call.InRange s)
    (hs : call.Safe s) : ∃ s', call.run A s = pure s' ∧ AllRight s' := by
  have hroom {n bit} (hlt : bit < n) : HasRoom (· = n) bit := fun v v' hl hro =>
    (hro.2 (hl ▸ hlt)).trans hl
  cases call with
  | create =>
    obtain ⟨s', p, hru, hri⟩ := h.creates (creates_of_right (A := A) create_right.1)
    refine ⟨s', ?_, hri⟩
    rw [Call.run, pure_inj.mp hru]
  | copy p =>
    obtain ⟨v, hv, hri⟩ := h.cell hr
    have hp : Holds s p v.indices := ⟨v, hv, hri, rfl⟩
    obtain ⟨s', q, hru, hri⟩ := h.creates (hp.copy (A := A))
    exact ⟨s', by rw [Call.run, hru, pure_bind], hri⟩
  | set p bit =>
    obtain ⟨v, hv, -⟩ := h.cell hr.1
    refine h.changes hv ((h.within hv).update (T := insert bit v.indices) fun w hw hi hl => ?_)
    obtain ⟨w', hse, hw', hi', hro⟩ := hw.set hr.2
    exact ⟨w', hse, hw', hi ▸ hi', hroom (hs v hv) w w' hl hro⟩
  | clear p bit =>
    obtain ⟨v, hv, -⟩ := h.cell hr.1
    have hlt := hs v hv
    refine h.changes hv ((h.within hv).update (T := v.indices.erase bit) fun w hw hi hl => ?_)
    obtain ⟨w', hc, hw', hi', hro⟩ := hw.clear hr.2 (by omega)
    exact ⟨w', hc, hw', hi ▸ hi', hroom hlt w w' hl hro⟩
  | reset p =>
    obtain ⟨v, hv, -⟩ := h.cell hr
    exact h.changes hv (h.within hv).reset
  | setVector p q =>
    obtain ⟨v, hv, -⟩ := h.cell hr.1
    obtain ⟨w, hw, hri⟩ := h.cell hr.2
    exact h.changes hv ((h.within hv).setVector ⟨w, hw, hri, rfl⟩ fun bit hb =>
      hroom (hs v w hv hw bit hb))
  | clearVector p q =>
    obtain ⟨v, hv, -⟩ := h.cell hr.1
    obtain ⟨w, hw, hri⟩ := h.cell hr.2
    exact h.changes hv ((h.within hv).clearVector ⟨w, hw, hri, rfl⟩)
  | leftShift p n =>
    obtain ⟨v, hv, -⟩ := h.cell hr
    obtain ⟨_, hch, -⟩ := (h.within hv).leftShift n
    exact h.changes hv hch

theorem Call.run_faults (call : Call) (hr : call.InRange s)
    (hs : ¬ call.Safe s) : call.run A s = throw .memoryFault := by
  cases call with
  | set p bit =>
    simp only [Call.Safe, not_forall, Nat.not_lt] at hs
    obtain ⟨v, hv, hle⟩ := hs
    refine h.grows hv ((h.within hv).update (T := insert bit v.indices) fun w hw hi _ => ?_)
    obtain ⟨w', hse, hw', hi', hro⟩ := hw.set hr.2
    exact ⟨w', hse, hw', hi ▸ hi', Nat.lt_of_le_of_lt hle hro.1⟩
  | clear p bit =>
    simp only [Call.Safe, not_forall, Nat.not_lt] at hs
    obtain ⟨v, hv, hle⟩ := hs
    obtain heq | hlt := Nat.eq_or_lt_of_le hle
    · subst heq
      rw [Call.run, checked, read_of hv, pure_bind, update, read_of hv,
        pure_bind, (h p v hv).clear_faults hr.2]
      rfl
    · refine h.grows hv ((h.within hv).update (T := v.indices.erase bit) fun w hw hi hl => ?_)
      obtain ⟨w', hc, hw', hi', hro⟩ := hw.clear hr.2 (by omega)
      exact ⟨w', hc, hw', hi ▸ hi', Nat.lt_of_le_of_lt hle hro.1⟩
  | setVector p q =>
    simp only [Call.Safe, not_forall, Nat.not_lt] at hs
    obtain ⟨v, w, hv, hw, bit, hb, hle⟩ := hs
    have hp : Holds s p v.indices := ⟨v, hv, h p v hv, rfl⟩
    obtain ⟨s', hru, ⟨v', hv', hr', hi, -⟩, hsa⟩ :=
      hp.any.setVector ⟨w, hw, h q w hw, rfl⟩ fun _ _ _ _ _ _ => trivial
    have hm : bit ∈ v'.indices := hi ▸ mem_union_right _ hb
    refine h.grows hv ⟨s', hru, ⟨v', hv', hr', hi, ?_⟩, hsa⟩
    exact Nat.lt_of_le_of_lt hle (hr'.lt_bitLength hm)
  | _ => exact absurd trivial hs

end

/-! ## Runs -/

/-- Every call of a run returns without an access outside an array, and leaves
right caches; as long as the arguments are in range. -/
def AlwaysRight (A : Allocator) : Vectors → List Call → Prop
  | _, [] => True
  | s, call :: calls => call.InRange s →
    ∃ s', call.run A s = pure s' ∧ AllRight s' ∧ AlwaysRight A s' calls

/-- Every call of the run is safe, as long as the arguments are in range. -/
def SafeCalls (A : Allocator) : Vectors → List Call → Prop
  | _, [] => True
  | s, call :: calls => call.InRange s →
    call.Safe s ∧ ∀ s', call.run A s = pure s' → SafeCalls A s' calls

theorem AllRight.always_iff (h : AllRight s) (calls : List Call) :
    AlwaysRight A s calls ↔ SafeCalls A s calls := by
  induction calls generalizing s with
  | nil => exact Iff.rfl
  | cons call calls ih =>
    refine imp_congr_right fun hr => ⟨?_, ?_⟩
    · rintro ⟨s', hru, hri, hc⟩
      refine ⟨?_, fun s'' hr' => ?_⟩
      · by_contra hu
        rw [Call.run_faults h call hr hu] at hru
        exact throw_ne_pure hru
      · rw [hru, pure_inj] at hr'
        subst hr'
        exact (ih hri).mp hc
    · rintro ⟨hs, hc⟩
      obtain ⟨s', hru, hri⟩ := Call.run_right (A := A) h call hr hs
      exact ⟨s', hru, hri, (ih hri).mpr (hc s' hru)⟩

/-- **The caches are right and all accesses are inside the arrays**, after every
call of a run from no vectors, exactly if no call sets or clears a bit beyond the end of
its vector. -/
theorem calls_right_iff (A : Allocator) (calls : List Call) :
    AlwaysRight A empty calls ↔ SafeCalls A empty calls :=
  AllRight.always_iff (fun _ _ hc => by cases hc) calls

/-- A new vector has one byte: Clear of bit 8 reads the second, and so does the reallocation
that Set of bit 8 makes. -/
theorem clear_after_create_faults :
    parcBitVectorClear parcBitVectorCreate 8 = throw .memoryFault ∧
      ¬ AlwaysRight Allocator.bump empty [.create, .clear 1 8] ∧
      ¬ AlwaysRight Allocator.bump empty [.create, .set 1 8] := by
  refine ⟨rfl, fun hr => ?_, fun hr => ?_⟩
  all_goals
    obtain ⟨s, hru, -, hc⟩ := hr trivial
    cases hru
    obtain ⟨s', hr', -⟩ := hc ⟨by decide, by decide⟩
    exact throw_ne_pure hr'

end Libparc.BitVector
