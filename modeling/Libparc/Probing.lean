import Libparc.PowerOfTwo

/-! # Linear probing

A table of `limit` slots keeps an item near its home slot, the remainder of
its hash: a probe looks at the home slot and at the ones after it, and goes on
at slot 0 after the last. `probe` counts the steps to the first slot that
passes a test; a loop that walks on from slot to slot finds the same one, also
when it goes round a small table more than once. -/
namespace Libparc.Probing
open List

variable {lim hash n d : Nat} {p : Nat → Bool}

/-- The slot `d` steps after the home slot. -/
def slot (limit hash d : Nat) : Nat := (hash + d) % limit

/-- The slot after `i`. -/
def next (limit i : Nat) : Nat := if i + 1 = limit then 0 else i + 1

theorem slot_lt (h : 0 < lim) : slot lim hash d < lim := Nat.mod_lt _ h

theorem next_slot (h : 0 < lim) : next lim (slot lim hash d) = slot lim hash (d + 1) := by
  have hlt : slot lim hash d < lim := slot_lt h
  have hs : slot lim hash (d + 1) = (slot lim hash d + 1) % lim := by
    unfold slot
    rw [← Nat.add_assoc, Nat.mod_add_mod]
  unfold next
  split
  · rename_i heq
    rw [hs, heq, Nat.mod_self]
  · rw [hs, Nat.mod_eq_of_lt (by omega)]

theorem slot_mod : slot lim hash (d % lim) = slot lim hash d := Nat.add_mod_mod _ _ _

theorem slot_inj {d'} (hd : d < lim) (hd' : d' < lim)
    (h : slot lim hash d = slot lim hash d') : d = d' := by
  rcases Nat.le_total d d' with hle | hle
  · have := PowerOfTwo.eq_of_mod_eq (by omega) (by omega) h
    omega
  · have := PowerOfTwo.eq_of_mod_eq (by omega) (by omega) h.symm
    omega

theorem slot_eq_home_iff (h0 : 0 < d) (hd : d ≤ lim) :
    slot lim hash d = slot lim hash 0 ↔ d = lim := by
  constructor
  · intro h
    by_contra hne
    have := slot_inj (by omega) (by omega) h
    omega
  · rintro rfl
    unfold slot
    rw [Nat.add_mod_right, Nat.add_zero]

/-- The steps to the first slot that passes the test, of at most `n` slots. -/
def probe (limit n hash : Nat) (p : Nat → Bool) : Option Nat :=
  (List.range (min n limit)).find? fun d => p (slot limit hash d)

theorem probe_eq_some : probe lim n hash p = some d ↔
    p (slot lim hash d) = true ∧ d < min n lim ∧ ∀ d' < d, p (slot lim hash d') = false := by
  simp [probe, find?_range_eq_some]

theorem probe_eq_none : probe lim n hash p = none ↔
    ∀ d < min n lim, p (slot lim hash d) = false := by
  simp [probe]

theorem find?_range (h : 0 < lim) :
    ((range n).find? fun d => p (slot lim hash d)) = probe lim n hash p := by
  rcases hp : probe lim n hash p with _ | d
  · rw [probe_eq_none] at hp
    rw [find?_eq_none]
    intro d hd
    have hd := mem_range.mp hd
    have hm := Nat.mod_le d lim
    rw [← slot_mod, hp (d % lim) (by have := Nat.mod_lt d h; omega)]
    exact Bool.false_ne_true
  · rw [probe_eq_some] at hp
    rw [find?_range_eq_some]
    refine ⟨hp.1, mem_range.mpr (by omega), fun d' hd' => ?_⟩
    rw [hp.2.2 d' hd']
    rfl

end Libparc.Probing
