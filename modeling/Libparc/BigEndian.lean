import Mathlib.Data.Nat.Bitwise

/-! # Numbers as bytes, the most significant first

A number is split into a fixed count of bytes, and read by shifting a result
to the left for each byte. The words of a machine do that modulo their size. -/
namespace Libparc.BigEndian

/-- The last `n` bytes of a number. -/
def split : Nat → Nat → List UInt8
  | 0, _ => []
  | n + 1, v => UInt8.ofNat (v / 256 ^ n) :: split n v

/-- Bytes read after `v`. -/
def combine (v : Nat) (bytes : List UInt8) : Nat :=
  bytes.foldl (fun v byte => v * 256 + byte.toNat) v

theorem length_split (n v : Nat) : (split n v).length = n := by
  induction n with
  | zero => rfl
  | succ n ih => rw [split, List.length_cons, ih]

theorem combine_split (n v u : Nat) : combine u (split n v) = u * 256 ^ n + v % 256 ^ n := by
  induction n generalizing u with
  | zero => simp [split, combine, Nat.mod_one]
  | succ n ih =>
    have hb : (UInt8.ofNat (v / 256 ^ n)).toNat = v / 256 ^ n % 256 := UInt8.toNat_ofNat'
    show combine (u * 256 + _) (split n v) = _
    rw [ih, hb, Nat.add_mul, Nat.pow_succ, Nat.mod_mul, Nat.mul_assoc, Nat.mul_comm 256,
      Nat.add_assoc, Nat.mul_comm (256 ^ n) (_ % 256), Nat.add_comm (v % 256 ^ n)]

theorem shiftLeft_or {w v b} (hw : 8 ≤ w) (hb : b < 256) :
    (v <<< 8) % 2 ^ w ||| b = (v * 256 + b) % 2 ^ w := by
  have hp : 2 ^ w = 2 ^ 8 * 2 ^ (w - 8) := by rw [← Nat.pow_add, Nat.add_sub_cancel' hw]
  have hm : (v <<< 8) % 2 ^ w = (v % 2 ^ (w - 8)) <<< 8 := by
    rw [Nat.shiftLeft_eq, Nat.shiftLeft_eq, hp, Nat.mul_comm, Nat.mul_mod_mul_left, Nat.mul_comm]
  rw [hm, ← Nat.shiftLeft_add_eq_or_of_lt (i := 8) hb, Nat.shiftLeft_eq, hp, Nat.mod_mul]
  have h256 : (2 : Nat) ^ 8 = 256 := rfl
  rw [h256]
  have hl : (v * 256 + b) % 256 = b := by omega
  have hh : (v * 256 + b) / 256 = v := by omega
  rw [hl, hh, Nat.mul_comm, Nat.add_comm]

theorem shiftRight_and (v i : Nat) : (v >>> (i * 8) &&& 255) % 256 = v / 256 ^ i % 256 := by
  rw [show 255 = 2 ^ 8 - 1 from rfl, Nat.and_two_pow_sub_one_eq_mod, Nat.shiftRight_eq_div_pow,
    Nat.mul_comm i, Nat.pow_mul, Nat.mod_mod]

variable {α : Type} (toNat : α → Nat) (shift : α → UInt8 → α) {w : Nat}
variable (hs : ∀ v byte, toNat (shift v byte) = (toNat v * 256 + byte.toNat) % 2 ^ w)
include hs

theorem toNat_foldl (bs : List UInt8) {v u} (h : toNat v = u % 2 ^ w) :
    toNat (bs.foldl shift v) = combine u bs % 2 ^ w := by
  induction bs generalizing v u with
  | nil => exact h
  | cons byte bs ih =>
    refine ih (?_ : _ = (u * 256 + byte.toNat) % 2 ^ w)
    rw [hs, h, Nat.add_mod, Nat.mul_mod, Nat.mod_mod, ← Nat.mul_mod, ← Nat.add_mod]

theorem toNat_foldl_split {zero} (hz : toNat zero = 0) {n v} (hw : w = 8 * n)
    (hv : v < 2 ^ w) : toNat ((split n v).foldl shift zero) = v := by
  have hp : 256 ^ n = 2 ^ w := by rw [hw, Nat.pow_mul]
  rw [toNat_foldl toNat shift hs _ (hz.trans (Nat.zero_mod _).symm), combine_split, hp,
    Nat.zero_mul, Nat.zero_add, Nat.mod_mod, Nat.mod_eq_of_lt hv]

end Libparc.BigEndian
