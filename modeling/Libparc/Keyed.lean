import Mathlib.Data.List.Perm.Basic

/-! # Lists of entries with keys

Keys are compared by a Boolean equivalence. As long as no two entries of a list
have equal keys, what is found under a key does not depend on the order of the
entries. -/
namespace Libparc.Keyed
open List

variable {κ ε : Type} {eq : κ → κ → Bool} {key : ε → κ} {k k' : κ} {a b : ε} {l l' : List ε}

/-- The comparison of keys is an equivalence. -/
structure Equality (equals : κ → κ → Bool) : Prop where
  refl : ∀ k, equals k k = true
  symm : ∀ k k', equals k k' = true → equals k' k = true
  trans : ∀ k k' k'', equals k k' = true → equals k' k'' = true → equals k k'' = true

theorem Equality.comm (h : Equality eq) (k k' : κ) : eq k k' = eq k' k :=
  Bool.eq_iff_iff.mpr ⟨h.symm k k', h.symm k' k⟩

theorem Equality.congr_left (h : Equality eq) (heq : eq k k' = true) (k'' : κ) :
    eq k k'' = eq k' k'' :=
  Bool.eq_iff_iff.mpr ⟨h.trans k' k k'' (h.symm k k' heq), h.trans k k' k'' heq⟩

theorem equality_beq (α : Type) [BEq α] [LawfulBEq α] : Equality (fun a b : α => a == b) where
  refl a := beq_self_eq_true a
  symm a b h := by rw [eq_of_beq h]; exact beq_self_eq_true b
  trans a b c h h' := by rw [eq_of_beq h]; exact h'

/-- No two entries have equal keys. -/
def Distinct (equals : κ → κ → Bool) (key : ε → κ) (l : List ε) : Prop :=
  l.Pairwise fun a b => equals (key a) (key b) = false

def find (equals : κ → κ → Bool) (key : ε → κ) (k : κ) (l : List ε) : Option ε :=
  l.find? fun a => equals k (key a)

theorem find_cons (k : κ) (a : ε) (l : List ε) :
    find eq key k (a :: l) = if eq k (key a) then some a else find eq key k l := by
  unfold find
  rw [find?_cons]
  cases eq k (key a) <;> rfl

theorem find_eq_none : find eq key k l = none ↔ ∀ a ∈ l, eq k (key a) = false := by
  simp [find]

theorem mem_of_find (h : find eq key k l = some a) : a ∈ l ∧ eq k (key a) = true :=
  ⟨mem_of_find?_eq_some h, find?_some (p := fun a => eq k (key a)) h⟩

variable (he : Equality eq)
include he

theorem Distinct.perm (hd : Distinct eq key l) (h : l.Perm l') : Distinct eq key l' :=
  (h.pairwise_iff fun hab => (he.comm _ _).trans hab).mp hd

theorem Distinct.find_eq_some (hd : Distinct eq key l) :
    find eq key k l = some a ↔ a ∈ l ∧ eq k (key a) = true := by
  refine ⟨mem_of_find, ?_⟩
  induction l with
  | nil => exact fun ⟨ha, _⟩ => absurd ha not_mem_nil
  | cons b l ih =>
    rintro ⟨ha, hka⟩
    obtain ⟨hb, hd⟩ := pairwise_cons.mp hd
    rw [find_cons]
    rcases mem_cons.mp ha with rfl | ha
    · rw [if_pos hka]
    · have hkb : ¬ eq k (key b) = true := by
        intro hkb
        rw [he.congr_left hkb, hb a ha] at hka
        cases hka
      rw [if_neg hkb, ih hd ⟨ha, hka⟩]

theorem Distinct.find_perm (hd : Distinct eq key l) (h : l.Perm l') (k : κ) :
    find eq key k l' = find eq key k l := by
  refine Option.ext fun a => ?_
  rw [(hd.perm he h).find_eq_some he, hd.find_eq_some he, h.mem_iff]

theorem Distinct.find_tail (hd : Distinct eq key (a :: l)) (hk : eq k (key a) = true) :
    find eq key k l = none := by
  rw [find_eq_none]
  intro b hb
  rw [he.congr_left hk]
  exact (pairwise_cons.mp hd).1 b hb

theorem Distinct.map_perm {β : Type} (hd : Distinct eq key l) (hd' : Distinct eq key l')
    (hs : ∀ k, (find eq key k l).isSome = (find eq key k l').isSome) {f : κ → β}
    (hf : ∀ k k', eq k k' = true → f k = f k') :
    (l.map fun a => f (key a)).Perm (l'.map fun a => f (key a)) := by
  induction l generalizing l' with
  | nil =>
    cases l' with
    | nil => exact .refl _
    | cons b l' =>
      have hb := hs (key b)
      rw [find_cons, if_pos (he.refl _)] at hb
      cases hb
  | cons a l ih =>
    have ha := hs (key a)
    rw [find_cons, if_pos (he.refl _), Option.isSome_some] at ha
    obtain ⟨b, hb⟩ := Option.isSome_iff_exists.mp ha.symm
    obtain ⟨hm, hab⟩ := mem_of_find hb
    obtain ⟨s, t, hsp⟩ := append_of_mem hm
    have hp : l'.Perm (b :: (s ++ t)) := hsp ▸ perm_middle
    have hd'' := hd'.perm he hp
    have hr : ∀ k, (find eq key k l).isSome = (find eq key k (s ++ t)).isSome := by
      intro k
      by_cases hk : eq k (key a) = true
      · rw [hd.find_tail he hk, hd''.find_tail he (he.trans _ _ _ hk hab)]
      · have hkb : ¬ eq k (key b) = true := fun hkb => hk (he.trans _ _ _ hkb (he.symm _ _ hab))
        have hfo := hs k
        rwa [find_cons, if_neg hk, ← hd'.find_perm he hp, find_cons, if_neg hkb] at hfo
    have hc := ih (pairwise_cons.mp hd).2 (pairwise_cons.mp hd'').2 hr
    rw [map_cons, hf _ _ hab]
    exact (hc.cons _).trans (hp.map fun a => f (key a)).symm

end Libparc.Keyed
