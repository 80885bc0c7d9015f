import Mathlib.Tactic.Common
import Mathlib.Data.List.Basic

/-! # Comparison functions

A three-way comparison returns a negative, zero or positive integer. It is
*total* when it orders its arguments: swapping them swaps the sign, and "not
greater" is transitive. Arguments that compare as zero need not be equal. -/
namespace Libparc

structure TotalCompare {κ : Type} (compare : κ → κ → Int) : Prop where
  neg_iff_swap : ∀ a b, compare a b < 0 ↔ 0 < compare b a
  le_trans : ∀ a b c, compare a b ≤ 0 → compare b c ≤ 0 → compare a c ≤ 0

namespace TotalCompare

variable {κ : Type} {cmp : κ → κ → Int} (h : TotalCompare cmp)
include h

theorem pos_iff_swap (a b : κ) : 0 < cmp a b ↔ cmp b a < 0 := (h.neg_iff_swap b a).symm

theorem self (a : κ) : cmp a a = 0 := by
  have := h.neg_iff_swap a a
  omega

theorem eq_zero_swap (a b : κ) : cmp a b = 0 ↔ cmp b a = 0 := by
  have := h.neg_iff_swap a b
  have := h.neg_iff_swap b a
  omega

theorem le_total (a b : κ) : cmp a b ≤ 0 ∨ cmp b a ≤ 0 := by
  have := h.neg_iff_swap a b
  omega

variable {a b : κ}

theorem lt_of_lt_of_le {c} (hab : cmp a b < 0) (hbc : cmp b c ≤ 0) : cmp a c < 0 := by
  by_contra hn
  have hca : cmp c a ≤ 0 := by
    have := h.neg_iff_swap a c
    omega
  have hba := h.le_trans b c a hbc hca
  have := h.neg_iff_swap a b
  omega

theorem lt_of_le_of_lt {c} (hab : cmp a b ≤ 0) (hbc : cmp b c < 0) : cmp a c < 0 := by
  by_contra hn
  have hca : cmp c a ≤ 0 := by
    have := h.neg_iff_swap a c
    omega
  have hcb := h.le_trans c a b hca hab
  have := h.neg_iff_swap b c
  omega

theorem lt_trans {c} (hab : cmp a b < 0) (hbc : cmp b c < 0) :
    cmp a c < 0 := h.lt_of_lt_of_le hab (Int.le_of_lt hbc)

section
variable (hab : cmp a b = 0) (c : κ)
include hab

theorem neg_congr_left : cmp a c < 0 ↔ cmp b c < 0 := by
  have hba := (h.eq_zero_swap a b).mp hab
  exact ⟨h.lt_of_le_of_lt (by omega), h.lt_of_le_of_lt (by omega)⟩

theorem neg_congr_right : cmp c a < 0 ↔ cmp c b < 0 := by
  have hba := (h.eq_zero_swap a b).mp hab
  exact ⟨fun hc => h.lt_of_lt_of_le hc (by omega), fun hc => h.lt_of_lt_of_le hc (by omega)⟩

theorem zero_congr_left : cmp a c = 0 ↔ cmp b c = 0 := by
  have h1 := h.neg_congr_left hab c
  have h2 := h.neg_congr_right hab c
  have h3 := h.neg_iff_swap c a
  have h4 := h.neg_iff_swap c b
  omega

theorem zero_congr_right : cmp c a = 0 ↔ cmp c b = 0 := by
  rw [h.eq_zero_swap c a, h.eq_zero_swap c b]
  exact h.zero_congr_left hab c

end

theorem swap : TotalCompare fun a b => cmp b a where
  neg_iff_swap a b := h.neg_iff_swap b a
  le_trans a b c hab hbc := h.le_trans c b a hbc hab

end TotalCompare

/-! ## Lists -/

/-- Lists are compared element by element, and a proper prefix comes first. -/
def lexCompare {κ : Type} (compare : κ → κ → Int) : List κ → List κ → Int
  | [], [] => 0
  | [], _ :: _ => -1
  | _ :: _, [] => 1
  | x :: xs, y :: ys => if compare x y = 0 then lexCompare compare xs ys else compare x y

section
variable {κ : Type} {cm : κ → κ → Int}

theorem TotalCompare.lexCompare_neg_iff_swap (h : TotalCompare cm) (xs ys : List κ) :
    lexCompare cm xs ys < 0 ↔ 0 < lexCompare cm ys xs := by
  induction xs generalizing ys with
  | nil => cases ys <;> simp [lexCompare]
  | cons x xs ih =>
    cases ys with
    | nil => simp [lexCompare]
    | cons y ys =>
      unfold lexCompare
      by_cases hxy : cm x y = 0
      · rw [if_pos hxy, if_pos ((h.eq_zero_swap x y).mp hxy)]
        exact ih ys
      · rw [if_neg hxy, if_neg fun hyx => hxy ((h.eq_zero_swap x y).mpr hyx)]
        exact h.neg_iff_swap x y

theorem TotalCompare.lexCompare_trans (h : TotalCompare cm) {xs ys zs}
    (hxy : lexCompare cm xs ys ≤ 0) (hyz : lexCompare cm ys zs ≤ 0) : lexCompare cm xs zs ≤ 0 := by
  induction xs generalizing ys zs with
  | nil => cases zs <;> simp [lexCompare]
  | cons x xs ih =>
    cases ys with
    | nil => simp [lexCompare] at hxy
    | cons y ys =>
      cases zs with
      | nil => simp [lexCompare] at hyz
      | cons z zs =>
        unfold lexCompare at hxy hyz ⊢
        -- The first elements are equal on the way, or one of the two steps is strict.
        split at hxy
        · rename_i hx
          have hz := h.zero_congr_left hx z
          split at hyz
          · rename_i hy
            rw [if_pos (hz.mpr hy)]
            exact ih hxy hyz
          · rename_i hy
            rw [if_neg fun hxz => hy (hz.mp hxz)]
            exact h.le_trans x y z (Int.le_of_eq hx) hyz
        · rename_i hx
          have hyz' : cm y z ≤ 0 := by
            split at hyz
            · rename_i hy
              exact Int.le_of_eq hy
            · exact hyz
          have hlt := h.lt_of_lt_of_le (Int.lt_iff_le_and_ne.mpr ⟨hxy, hx⟩) hyz'
          rw [if_neg (Int.ne_of_lt hlt)]
          exact Int.le_of_lt hlt

theorem TotalCompare.lex (h : TotalCompare cm) : TotalCompare (lexCompare cm) where
  neg_iff_swap := h.lexCompare_neg_iff_swap
  le_trans _ _ _ := h.lexCompare_trans

theorem lexCompare_of_append {xs} (hs : ∀ x, cm x x = 0) (y : κ) (ys : List κ) :
    lexCompare cm xs (xs ++ y :: ys) < 0 := by
  induction xs with
  | nil => exact Int.negSucc_lt_zero 0
  | cons x xs ih =>
    rw [List.cons_append, lexCompare, if_pos (hs x)]
    exact ih

theorem lexCompare_eq_zero_iff (hz : ∀ x y, cm x y = 0 ↔ x = y) (xs ys : List κ) :
    lexCompare cm xs ys = 0 ↔ xs = ys := by
  induction xs generalizing ys with
  | nil => cases ys <;> simp [lexCompare]
  | cons x xs ih =>
    cases ys with
    | nil => simp [lexCompare]
    | cons y ys =>
      rw [lexCompare, List.cons.injEq, ← hz, ← ih]
      split <;> simp_all

/-- A shorter list comes first. -/
def shortlex (compare : κ → κ → Int) (xs ys : List κ) : Int :=
  if xs.length < ys.length then -1
  else if xs.length > ys.length then 1
  else lexCompare compare xs ys

theorem TotalCompare.shortlex (h : TotalCompare cm) : TotalCompare (shortlex cm) where
  neg_iff_swap xs ys := by
    have := h.lex.neg_iff_swap xs ys
    unfold Libparc.shortlex
    split_ifs <;> omega
  le_trans xs ys zs hxy hyz := by
    have := h.lex.le_trans xs ys zs
    unfold Libparc.shortlex at *
    split_ifs at * <;> omega

theorem shortlex_eq_zero_iff (hz : ∀ x y, cm x y = 0 ↔ x = y) (xs ys : List κ) :
    shortlex cm xs ys = 0 ↔ xs = ys := by
  have hle := lexCompare_eq_zero_iff hz xs ys
  unfold shortlex
  split_ifs <;> grind

end

theorem totalCompare_sub : TotalCompare (fun a b : Int => a - b) where
  neg_iff_swap a b := by constructor <;> intro h <;> omega
  le_trans a b c hab hbc := by omega

end Libparc
