import Mathlib.Data.List.Induction
import Mathlib.Data.List.TakeWhile
import Mathlib.Algebra.Group.Int.Defs
import Mathlib.Algebra.Group.Nat.Defs

/-! # strtol

A string is the characters in front of its NUL. Blanks, a sign and, in base 16,
`0x` may come before the digits; without digits nothing is read. The result is
the value, which stays at the ends of a `long`, and where reading stopped. -/
namespace Libparc.Strtol
open List

def isspace (c : UInt8) : Bool := c == 32 || 9 ≤ c && c ≤ 13

/-- The value of a character as a digit; 36 is none. -/
def digit (c : UInt8) : Nat :=
  if 48 ≤ c ∧ c ≤ 57 then c.toNat - 48
  else if 97 ≤ c ∧ c ≤ 122 then c.toNat - 87
  else if 65 ≤ c ∧ c ≤ 90 then c.toNat - 55
  else 36

def isDigit (base : Nat) (c : UInt8) : Bool := digit c < base

def value (base : Nat) (digits : List UInt8) : Nat :=
  digits.foldl (fun value c => value * base + digit c) 0

def skipSign : List UInt8 → Bool × List UInt8
  | 45 :: s => (true, s)
  | 43 :: s => (false, s)
  | s => (false, s)

def skip0x (base : Nat) : List UInt8 → List UInt8
  | 48 :: x :: d :: s =>
    if base = 16 ∧ (x = 120 ∨ x = 88) ∧ isDigit 16 d then d :: s else 48 :: x :: d :: s
  | s => s

def strtol (base : Nat) (string : List UInt8) : Int × List UInt8 :=
  let (negative, s) := skipSign (string.dropWhile isspace)
  let s := skip0x base s
  let digits := s.takeWhile (isDigit base)
  if digits = [] then (0, string)
  else
    let number : Int := if negative then -value base digits else value base digits
    (max (-2 ^ 63) (min number (2 ^ 63 - 1)), s.dropWhile (isDigit base))

variable {base : Nat} {c : UInt8} {ds rest : List UInt8}

theorem le_of_isDigit (hb : base ≤ 36) (hc : isDigit base c) : 48 ≤ c := by
  have hlt := of_decide_eq_true hc
  unfold digit at hlt
  split_ifs at hlt with h h h
  · exact h.1
  · exact UInt8.le_trans (by decide) h.1
  · exact UInt8.le_trans (by decide) h.1
  · omega

theorem skipSign_digit (hc : 48 ≤ c) : skipSign (c :: rest) = (false, c :: rest) := by
  unfold skipSign
  split
  · rename_i heq
    cases heq
    exact absurd hc (by decide)
  · rename_i heq
    cases heq
    exact absurd hc (by decide)
  · rfl

theorem skip0x_eq_self (hx : base = 16 → ∀ x ∈ rest[1]?, x ≠ 120 ∧ x ≠ 88) :
    skip0x base rest = rest := by
  unfold skip0x
  split
  · rename_i x d s
    refine if_neg fun ⟨hb, hx', _⟩ => ?_
    obtain ⟨h, h'⟩ := hx hb x rfl
    exact hx'.elim h h'
  · rfl

theorem strtol_digits (hb : base ≤ 36) (hne : ds ≠ []) (hd : ∀ c ∈ ds, isDigit base c)
    (hr : ∀ c ∈ rest.head?, ¬ isDigit base c)
    (hx : base = 16 → ∀ x ∈ (ds ++ rest)[1]?, x ≠ 120 ∧ x ≠ 88) (hv : value base ds < 2 ^ 63) :
    strtol base (ds ++ rest) = ((value base ds : Int), rest) := by
  have ht : rest.takeWhile (isDigit base) = [] ∧ rest.dropWhile (isDigit base) = rest := by
    cases rest with
    | nil => exact ⟨rfl, rfl⟩
    | cons c rest =>
      have hc := hr c rfl
      exact ⟨takeWhile_cons_of_neg hc, dropWhile_cons_of_neg hc⟩
  have hs : skipSign ((ds ++ rest).dropWhile isspace) = (false, ds ++ rest) := by
    obtain ⟨c, ds, rfl⟩ := exists_cons_of_ne_nil hne
    have hc := le_of_isDigit hb (hd c mem_cons_self)
    have hsp : ¬ isspace c := by
      rw [isspace]
      simp only [Bool.or_eq_true, beq_iff_eq, Bool.and_eq_true, decide_eq_true_eq]
      rintro (rfl | ⟨-, hle⟩)
      · exact absurd hc (by decide)
      · exact absurd (UInt8.le_trans hc hle) (by decide)
    rw [cons_append, dropWhile_cons_of_neg hsp]
    exact skipSign_digit hc
  simp only [strtol, hs, skip0x_eq_self hx, takeWhile_append_of_pos hd, ht,
    dropWhile_append_of_pos hd, append_nil, if_neg hne]
  congr 1
  simp only [Bool.false_eq_true, if_false]
  omega

end Libparc.Strtol
