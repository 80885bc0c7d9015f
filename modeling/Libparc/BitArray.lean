import Mathlib.Data.Finset.Max
import Mathlib.Data.List.GetD
import Libparc.Exec

/-! # Sets of indices in an array of bytes

An array of bytes stands for the set of the indices of its one bits: bit `i` is
bit `i % 8` of byte `i / 8`. Beyond the array there are no one bits, so an array
that grows by zero bytes stands for the same set.

A program goes through such a set from one index to the next (`next`); the rule
`loop_ascending` is the induction for its loops. -/
namespace Libparc.BitArray
open List Finset Option

variable {bs : List (BitVec 8)} {b : BitVec 8} {i j k n r : Nat}

/-! ## The bits of an array -/

def bit (bytes : List (BitVec 8)) (i : Nat) : Bool := (bytes.getD (i / 8) 0).getLsbD (i % 8)

/-- The indices of the one bits. -/
def indices (bytes : List (BitVec 8)) : Finset Nat :=
  (Finset.range (8 * bytes.length)).filter (bit bytes · = true)

theorem bit_of_le (h : 8 * bs.length ≤ i) : bit bs i = false := by
  unfold bit
  rw [getD_eq_default _ _ (by omega)]
  exact BitVec.getLsbD_zero

theorem mem_indices : i ∈ indices bs ↔ bit bs i = true := by
  unfold indices
  rw [Finset.mem_filter, Finset.mem_range, and_iff_right_iff_imp]
  intro h
  by_contra hle
  rw [bit_of_le (Nat.le_of_not_lt hle)] at h
  cases h

theorem lt_of_mem (h : i ∈ indices bs) : i < 8 * bs.length :=
  Finset.mem_range.mp (Finset.mem_filter.mp h).1

theorem bit_byte (hk : k < 8) : bit bs (8 * n + k) = (bs.getD n 0).getLsbD k := by
  unfold bit
  rw [show (8 * n + k) / 8 = n by omega, show (8 * n + k) % 8 = k by omega]

theorem getLsbD_mask (hk : k < 8) : (1#8 <<< k).getLsbD j = decide (j = k) := by
  rw [BitVec.getLsbD_shiftLeft, BitVec.getLsbD_one, Bool.eq_iff_iff]
  simp only [Bool.and_eq_true, Bool.not_eq_true', decide_eq_true_eq, decide_eq_false_iff_not]
  omega

theorem and_mask_eq_zero (hk : k < 8) : b &&& (1#8 <<< k) = 0#8 ↔ b.getLsbD k = false := by
  constructor
  · intro h
    have hb := congrArg (·.getLsbD k) h
    simpa only [BitVec.getLsbD_and, getLsbD_mask hk, decide_true, Bool.and_true,
      BitVec.getLsbD_zero] using hb
  · intro h
    refine BitVec.eq_of_getLsbD_eq fun j _ => ?_
    rw [BitVec.getLsbD_and, getLsbD_mask hk, BitVec.getLsbD_zero]
    by_cases hj : j = k
    · rw [hj, h, Bool.false_and]
    · rw [decide_eq_false hj, Bool.and_false]

theorem and_mask_eq_zero_iff (h : bs[i / 8]? = some b) :
    b &&& (1#8 <<< (i % 8)) = 0#8 ↔ i ∉ indices bs := by
  rw [and_mask_eq_zero (Nat.mod_lt i (by decide)), mem_indices, Bool.not_eq_true, bit,
    getD_eq_getElem?_getD, h, getD_some]

theorem bit_set (hi : i / 8 < bs.length) :
    bit (bs.set (i / 8) b) j = if j / 8 = i / 8 then b.getLsbD (j % 8) else bit bs j := by
  unfold bit
  rw [getD_eq_getElem?_getD, getElem?_set, getD_eq_getElem?_getD]
  by_cases hj : j / 8 = i / 8
  · rw [if_pos hj, if_pos hj.symm, if_pos (hj ▸ hi), getD_some]
  · rw [if_neg hj, if_neg (Ne.symm hj)]

section
variable (h : bs[i / 8]? = some b)
include h

theorem bit_of_getElem? (hj : j / 8 = i / 8) : bit bs j = b.getLsbD (j % 8) := by
  unfold bit
  rw [hj, getD_eq_getElem?_getD, h, getD_some]

theorem indices_set_or :
    indices (bs.set (i / 8) (b ||| (1#8 <<< (i % 8)))) = insert i (indices bs) := by
  ext j
  rw [mem_insert, mem_indices, mem_indices, bit_set (List.getElem?_eq_some_iff.mp h).1]
  split
  · rename_i hj
    rw [BitVec.getLsbD_or, getLsbD_mask (Nat.mod_lt i (by decide)), bit_of_getElem? h hj,
      Bool.or_eq_true, decide_eq_true_iff, or_comm]
    exact or_congr_left ⟨fun h => by omega, fun h => by rw [h]⟩
  · rename_i hj
    rw [or_iff_right]
    rintro rfl
    exact hj rfl

theorem indices_set_and_not :
    indices (bs.set (i / 8) (b &&& ~~~(1#8 <<< (i % 8)))) = (indices bs).erase i := by
  ext j
  rw [mem_erase, mem_indices, mem_indices, bit_set (List.getElem?_eq_some_iff.mp h).1]
  split
  · rename_i hj
    have hlt : j % 8 < 8 := Nat.mod_lt j (by decide)
    rw [BitVec.getLsbD_and, BitVec.getLsbD_not, getLsbD_mask (Nat.mod_lt i (by decide)),
      bit_of_getElem? h hj, Bool.and_eq_true, decide_eq_true hlt, Bool.true_and, Bool.not_eq_true',
      decide_eq_false_iff_not, and_comm]
    exact and_congr_left' (not_congr ⟨fun h => by omega, fun h => by rw [h]⟩)
  · rename_i hj
    rw [and_iff_right]
    rintro rfl
    exact hj rfl

end

theorem bit_append_zero (n : Nat) : bit (bs ++ replicate n 0#8) i = bit bs i := by
  by_cases hi : i / 8 < bs.length
  · unfold bit
    rw [getD_append _ _ _ _ hi]
  · have hz : (replicate n 0#8).getD (i / 8 - bs.length) 0 = 0#8 := by
      rw [getD_eq_getElem?_getD, getElem?_replicate]
      split <;> rfl
    rw [bit, getD_append_right _ _ _ _ (by omega), hz, BitVec.getLsbD_zero]
    exact (bit_of_le (by omega)).symm

theorem indices_append_zero (n : Nat) : indices (bs ++ replicate n 0#8) = indices bs := by
  ext i
  rw [mem_indices, mem_indices, bit_append_zero]

theorem indices_replicate_zero (n : Nat) : indices (replicate n 0#8) = ∅ := by
  have ha := @indices_append_zero [] n
  exact ha.trans (filter_empty _)

theorem indices_take (n : Nat) : indices (bs.take n) = (indices bs).filter (· < 8 * n) := by
  ext i
  rw [Finset.mem_filter, mem_indices, mem_indices]
  by_cases hi : i < 8 * n
  · rw [and_iff_left hi]
    unfold bit
    rw [getD_eq_getElem?_getD, getElem?_take_of_lt (by omega), ← getD_eq_getElem?_getD]
  · rw [bit_of_le (by rw [length_take]; omega)]
    exact iff_of_false Bool.false_ne_true fun h => hi h.2

theorem eq_of_indices {bytes'} (hl : bs.length = bytes'.length)
    (h : indices bs = indices bytes') : bs = bytes' := by
  refine ext_getElem hl fun n hn hn' => BitVec.eq_of_getLsbD_eq fun k hk => ?_
  have hb : bit bs (8 * n + k) = bit bytes' (8 * n + k) := by
    rw [Bool.eq_iff_iff, ← mem_indices, ← mem_indices, h]
  rw [bit_byte hk, bit_byte hk] at hb
  rwa [getD_eq_getElem _ _ hn, getD_eq_getElem _ _ hn'] at hb

/-! ## From one index to the next -/

variable {S : Finset Nat}

/-- The indices from `i` on. -/
def above (S : Finset Nat) (i : Nat) : Finset Nat := S.filter (i ≤ ·)

theorem mem_above : j ∈ above S i ↔ j ∈ S ∧ i ≤ j := mem_filter

@[simp] theorem above_zero (S : Finset Nat) : above S 0 = S :=
  filter_true_of_mem fun _ _ => Nat.zero_le _

/-- The lowest index from `i` on. -/
def next (S : Finset Nat) (i : Nat) : Option Nat :=
  if h : (above S i).Nonempty then some ((above S i).min' h) else none

theorem next_eq_none : next S i = none ↔ above S i = ∅ := by
  unfold next
  split
  · rename_i h
    exact iff_of_false nofun h.ne_empty
  · rename_i h
    exact iff_of_true rfl (not_nonempty_iff_eq_empty.mp h)

theorem next_eq_some : next S i = some r ↔ r ∈ S ∧ i ≤ r ∧ ∀ j ∈ S, i ≤ j → r ≤ j := by
  unfold next
  split
  · rw [some_inj, min'_eq_iff, mem_above, and_assoc]
    exact and_congr_right' (and_congr_right' ⟨fun h j hj hi => h j (mem_above.mpr ⟨hj, hi⟩),
      fun h j hj => h j (mem_above.mp hj).1 (mem_above.mp hj).2⟩)
  · rename_i h
    refine iff_of_false nofun fun ⟨hr, hi, _⟩ => h ⟨r, mem_above.mpr ⟨hr, hi⟩⟩

theorem next_mem (h : next S i = some r) : r ∈ S := (next_eq_some.mp h).1

theorem le_next (h : next S i = some r) : i ≤ r := (next_eq_some.mp h).2.1

theorem next_le (h : next S i = some r) (hj : j ∈ S) (hi : i ≤ j) : r ≤ j :=
  (next_eq_some.mp h).2.2 j hj hi

theorem next_none_of (h : ∀ j ∈ S, j < i) : next S i = none :=
  next_eq_none.mpr (filter_false_of_mem fun j hj => Nat.not_le_of_lt (h j hj))

theorem next_empty (i : Nat) : next ∅ i = none := next_none_of fun _ h => absurd h (by simp)

theorem next_congr {T} (h : above S i = above T j) : next S i = next T j := by
  unfold next
  simp only [h]

theorem next_skip (hle : i ≤ j) (h : ∀ k ∈ S, i ≤ k → j ≤ k) : next S i = next S j :=
  next_congr (filter_congr fun k hk => ⟨h k hk, Nat.le_trans hle⟩)

theorem above_next (h : next S i = some r) : above S i = insert r (above S (r + 1)) := by
  ext j
  rw [mem_insert, mem_above, mem_above]
  constructor
  · rintro ⟨hj, hi⟩
    have := next_le h hj hi
    by_cases hjr : j = r
    · exact .inl hjr
    · exact .inr ⟨hj, by omega⟩
  · have := le_next h
    rintro (rfl | ⟨hj, hi⟩)
    · exact ⟨next_mem h, this⟩
    · exact ⟨hj, by omega⟩

theorem card_above (h : next S i = some r) : (above S i).card = (above S (r + 1)).card + 1 := by
  rw [above_next h, card_insert_of_notMem]
  rw [mem_above]
  omega

/-- The indices up to `i`. -/
def below (S : Finset Nat) (i : Nat) : Finset Nat := S.filter (· < i)

theorem mem_below : j ∈ below S i ↔ j ∈ S ∧ j < i := mem_filter

@[simp] theorem below_zero (S : Finset Nat) : below S 0 = ∅ :=
  filter_false_of_mem fun _ _ => Nat.not_lt_zero _

theorem below_next (h : next S i = some r) : below S (r + 1) = insert r (below S i) := by
  ext j
  rw [mem_insert, mem_below, mem_below]
  have hle := le_next h
  constructor
  · rintro ⟨hj, hjr⟩
    by_cases hi : i ≤ j
    · have := next_le h hj hi
      exact .inl (by omega)
    · exact .inr ⟨hj, by omega⟩
  · rintro (rfl | ⟨hj, hi⟩)
    · exact ⟨next_mem h, by omega⟩
    · exact ⟨hj, by omega⟩

theorem below_of_above (h : above S i = ∅) : below S i = S := filter_true_of_mem fun j hj => by
    by_contra hle
    exact notMem_empty j (h ▸ mem_above.mpr ⟨hj, Nat.le_of_not_lt hle⟩)

/-- **A loop that goes through a set in order** returns: what its body keeps from
one index to the next holds when it has found none, or has left before. -/
theorem loop_ascending {ε σ ρ : Type} {step : σ → Exec ε (σ ⊕ ρ)} (S : Finset Nat)
    (Inv : Nat → σ → Prop) (Post : ρ → Prop)
    (found : ∀ i s r, Inv i s → next S i = some r → (∃ out, step s = pure (.inr out) ∧ Post out) ∨
        ∃ s', step s = pure (.inl s') ∧ Inv (r + 1) s')
    (finished : ∀ i s, Inv i s → above S i = ∅ → ∃ out, step s = pure (.inr out) ∧ Post out)
    {i s} (hs : Inv i s) : ∃ out, Exec.loop step s = pure out ∧ Post out := by
  refine Exec.loop_variant (fun m s => ∃ i, m = (above S i).card ∧ Inv i s) Post ?_ ⟨i, rfl, hs⟩
  rintro m s ⟨i, rfl, hs⟩
  cases hn : next S i with
  | none => exact .inl (finished i s hs (next_eq_none.mp hn))
  | some r =>
    refine (found i s r hs hn).imp_right fun ⟨s', hst, hs'⟩ => ?_
    exact ⟨s', _, hst, ⟨r + 1, rfl, hs'⟩, by rw [card_above hn]; omega⟩

end Libparc.BitArray
