import Mathlib.Tactic.Common
import Mathlib.Algebra.Group.Nat.Defs

/-! # Powers of two as masks

The bit test for powers of two, the mask that takes a remainder, and indices
that count up and are used modulo the size of a window. -/
namespace Libparc.PowerOfTwo
open BitVec

theorem exists_of_and_pred {x} (hx : x ≠ 0) (h : x &&& (x - 1) = 0) : ∃ k, x = 2 ^ k := by
  induction x using Nat.strongRecOn with
  | ind x ih =>
    by_cases ho : x % 2 = 1
    · have hh : x / 2 = 0 := by
        have h2 : (x &&& (x - 1)) / 2 = 0 := by rw [h]
        rw [Nat.and_div_two, show (x - 1) / 2 = x / 2 by omega, Nat.and_self] at h2
        exact h2
      exact ⟨0, by omega⟩
    · have ha : x / 2 &&& (x / 2 - 1) = 0 := by
        have h2 : (x &&& (x - 1)) / 2 = 0 := by rw [h]
        rwa [Nat.and_div_two, show (x - 1) / 2 = x / 2 - 1 by omega] at h2
      obtain ⟨k, hk⟩ := ih (x / 2) (by omega) (by omega) ha
      exact ⟨k + 1, by rw [Nat.pow_succ]; omega⟩

theorem exists_of_and_neg {w x} (hx : x ≠ 0#w) (h : x &&& (~~~x + 1#w) = x) :
    ∃ k < w, x = twoPow w k := by
  have hp : x &&& (x - 1#w) = 0#w := by
    rw [← not_sub_one_eq_not_add_one] at h
    rw [← h, BitVec.and_assoc, h, BitVec.not_and_self]
    exact and_zero
  have hpo : x.toNat ≠ 0 := fun hz => hx (eq_of_toNat_eq hz)
  have hn : x.toNat &&& (x.toNat - 1) = 0 := by
    have hle : 1#w ≤ x := by
      have := Nat.mod_le 1 (2 ^ w)
      rw [le_def, toNat_ofNat]
      omega
    have ho : (1#w).toNat = 1 := by
      rw [toNat_ofNat, Nat.mod_eq_of_lt (by omega)]
    have htn := congrArg BitVec.toNat hp
    rwa [toNat_and, toNat_sub_of_le hle, ho] at htn
  obtain ⟨k, hk⟩ := exists_of_and_pred hpo hn
  have hlt : k < w := (Nat.pow_lt_pow_iff_right (by decide)).mp (hk ▸ x.isLt)
  refine ⟨k, hlt, eq_of_toNat_eq ?_⟩
  rw [hk, toNat_twoPow_of_lt hlt]

theorem toNat_and_mask {w k} (x mask : BitVec w) (h : mask.toNat = 2 ^ k - 1) :
    (x &&& mask).toNat = x.toNat % 2 ^ k := by
  rw [toNat_and, h, Nat.and_two_pow_sub_one_eq_mod]

theorem toNat_and_not_mask {w k} (x mask : BitVec w) (h : mask.toNat = 2 ^ k - 1) :
    (x &&& ~~~mask).toNat = x.toNat - x.toNat % 2 ^ k := by
  have hd : (x &&& ~~~mask) &&& (x &&& mask) = 0#w := by
    rw [BitVec.and_comm x mask, BitVec.and_assoc, ← BitVec.and_assoc (~~~mask), BitVec.not_and_self]
    simp
  have hs : (x &&& ~~~mask) + (x &&& mask) = x := by
    rw [add_eq_or_of_and_eq_zero _ _ hd, ← and_or_distrib_left,
      not_or_self, and_allOnes]
  have hn := toNat_add_of_and_eq_zero hd
  rw [hs, toNat_and_mask x mask h] at hn
  omega

theorem toNat_succ_and_mask {w k} (hk : k ≤ w) (x mask : BitVec w)
    (h : mask.toNat = 2 ^ k - 1) : ((x + 1) &&& mask).toNat = (x.toNat + 1) % 2 ^ k := by
  rw [toNat_and_mask _ _ h, toNat_add, Nat.mod_mod_of_dvd _ (Nat.pow_dvd_pow 2 hk)]
  cases w with
  | zero =>
    have : k = 0 := by omega
    subst this
    simp [Nat.mod_one]
  | succ w => simp

theorem eq_of_mod_eq {n a b : Nat} (hab : a ≤ b) (hb : b < a + n) (h : a % n = b % n) : a = b := by
  have hd : n ∣ b - a := Nat.dvd_of_mod_eq_zero (Nat.sub_mod_eq_zero_of_mod_eq h.symm)
  have hz := Nat.eq_zero_of_dvd_of_lt hd (by omega)
  omega

theorem sub_mod_eq {n m a b} (hm : n ∣ m) (hp : 0 < m) (hab : a ≤ b) (hb : b < a + n) :
    (m - a % n + b % n) % n = b - a := by
  obtain ⟨q, rfl⟩ := hm
  have hn : 0 < n := by omega
  have hlt := Nat.mod_lt a hn
  have hq : n ≤ n * q := Nat.le_mul_of_pos_right n (Nat.pos_of_mul_pos_left hp)
  have ha := Nat.div_add_mod a n
  rw [Nat.add_mod_mod, show n * q - a % n + b = b - a + n * (q + a / n) by
    rw [Nat.mul_add]; omega, Nat.add_mul_mod_self_left, Nat.mod_eq_of_lt (by omega)]

end Libparc.PowerOfTwo
