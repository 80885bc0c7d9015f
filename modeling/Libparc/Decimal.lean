import Mathlib.Data.Nat.Digits.Lemmas

/-! # Decimal digits, written and read from the left

`digits` is how a number is written, `read` how a loop reads it back: one digit
after the other, the value so far times ten plus the digit. Zeros in front do
not matter, and no value on the way is above the last one. -/
namespace Libparc.Decimal
open List

/-- The digits of a number, the first one not zero unless it is the only one. -/
def digits (n : Nat) : List Nat := if n = 0 then [0] else (Nat.digits 10 n).reverse

/-- The value of some digits after `value`. -/
def read (value : Nat) (ds : List Nat) : Nat := ds.foldl (fun value d => value * 10 + d) value

@[simp] theorem read_nil (value : Nat) : read value [] = value := rfl

@[simp] theorem read_cons (v d : Nat) (ds : List Nat) :
    read v (d :: ds) = read (v * 10 + d) ds := rfl

theorem read_append (v : Nat) (ds es : List Nat) :
    read v (ds ++ es) = read (read v ds) es := foldl_append

theorem le_read (v : Nat) (ds : List Nat) : v ≤ read v ds := by
  induction ds generalizing v with
  | nil => exact Nat.le_refl _
  | cons d ds ih => exact Nat.le_trans (by omega) (ih (v * 10 + d))

theorem read_reverse (ds : List Nat) : read 0 ds.reverse = Nat.ofDigits 10 ds := by
  induction ds with
  | nil => rfl
  | cons d ds ih =>
    rw [reverse_cons, read_append, ih, Nat.ofDigits_cons]
    simp only [read_cons, read_nil]
    omega

theorem read_digits (n : Nat) : read 0 (digits n) = n := by
  unfold digits
  split
  · simp [*]
  · rw [read_reverse, Nat.ofDigits_digits]

theorem read_zeros (k : Nat) (ds : List Nat) : read 0 (replicate k 0 ++ ds) = read 0 ds := by
  induction k with
  | zero => rfl
  | succ k ih => rwa [replicate_succ, cons_append, read_cons]

theorem digit_lt {n d} (h : d ∈ digits n) : d < 10 := by
  unfold digits at h
  split at h
  · rw [mem_singleton] at h
    omega
  · exact Nat.digits_lt_base (by decide) (mem_reverse.mp h)

theorem digits_zero : digits 0 = [0] := if_pos rfl

theorem digits_of_pos {n} (h : 0 < n) : ∃ d ds, digits n = d :: ds ∧ 0 < d := by
  have hne : Nat.digits 10 n ≠ [] := Nat.digits_ne_nil_iff_ne_zero.mpr (by omega)
  refine ⟨(Nat.digits 10 n).getLast hne, (Nat.digits 10 n).dropLast.reverse, ?_, ?_⟩
  · rw [digits, if_neg (by omega)]
    conv_lhs => rw [← dropLast_append_getLast hne]
    rw [reverse_append, reverse_singleton, singleton_append]
  · exact Nat.pos_of_ne_zero (Nat.getLast_digit_ne_zero 10 (by omega))

theorem digits_eq_cons (n : Nat) : ∃ d ds, digits n = d :: ds := by
  rcases Nat.eq_zero_or_pos n with rfl | h
  · exact ⟨0, [], digits_zero⟩
  · obtain ⟨d, ds, hd, -⟩ := digits_of_pos h
    exact ⟨d, ds, hd⟩

theorem length_digits_le {n k} (hk : 0 < k) (h : n < 10 ^ k) : (digits n).length ≤ k := by
  unfold digits
  split
  · exact hk
  · rw [length_reverse]
    exact (Nat.digits_length_le_iff (by decide) n).mpr h

end Libparc.Decimal
