import Mathlib.Data.List.Basic
import Mathlib.Tactic.Common
import Mathlib.Algebra.Group.Nat.Defs

/-! # Coloured binary trees and their repairs

Red-black trees as trees, with no memory under them: the balance invariant,
the context a subtree stands in, and the local repairs that insertion and
deletion make. Everything mirrored is stated once, over a `Side`.

* `Balanced t c n`: `t` has root colour `c`, no red node has a red child and
  every path down has `n` black nodes.
* `Fits ctx c n`: the context `ctx` becomes a balanced tree with a black root
  when a balanced tree of root colour `c` and black height `n` is put into it.
* `Short t n`: what a deletion leaves, a tree one black node short. -/
namespace Libparc.RedBlack
open List hiding nil

inductive Side where
  | left
  | right
  deriving DecidableEq, Repr

def Side.other : Side → Side
  | .left => .right
  | .right => .left

@[simp] theorem Side.other_ne (s : Side) : s.other ≠ s := by cases s <;> decide

theorem Side.eq_or_eq_other (s s' : Side) : s = s' ∨ s = s'.other := by
  cases s <;> cases s' <;> decide

inductive Color where
  | red
  | black
  deriving DecidableEq, Repr

inductive ColorTree (α : Type) where
  | nil
  | node (color : Color) (left : ColorTree α) (label : α) (right : ColorTree α)
  deriving DecidableEq, Repr

variable {α : Type}

namespace ColorTree

/-- The labels, in order. -/
def toList : ColorTree α → List α
  | nil => []
  | node _ l x r => l.toList ++ x :: r.toList

/-- A missing tree is black. -/
def rootColor : ColorTree α → Color
  | nil => .black
  | node c _ _ _ => c

def setRootColor (c : Color) : ColorTree α → ColorTree α
  | nil => nil
  | node _ l x r => node c l x r

/-- A node with `a` on the given side and `b` on the other. -/
def join (s : Side) (c : Color) (a : ColorTree α) (x : α) (b : ColorTree α) : ColorTree α :=
  match s with
  | .left => node c a x b
  | .right => node c b x a

section
variable (s : Side) (c : Color) (a : ColorTree α) (x : α) (b : ColorTree α)

theorem join_other : join s.other c a x b = join s c b x a := by cases s <;> rfl

@[simp] theorem join_ne_nil : join s c a x b ≠ nil := by cases s <;> simp [join]

@[simp] theorem rootColor_join : (join s c a x b).rootColor = c := by cases s <;> rfl

end

@[simp] theorem setRootColor_join (s : Side) (c c' : Color) (a : ColorTree α) (x : α)
    (b : ColorTree α) :
    (join s c a x b).setRootColor c' = join s c' a x b := by cases s <;> rfl

theorem node_eq_join (s : Side) (c : Color) (l : ColorTree α) (x : α) (r : ColorTree α) :
    ∃ a b, node c l x r = join s c a x b := by
  cases s
  · exact ⟨l, r, rfl⟩
  · exact ⟨r, l, rfl⟩

theorem toList_rotate (s : Side) (c d c' d' : Color) (a b e : ColorTree α) (x y : α) :
    (join s d (join s c a x b) y e).toList = (join s c' a x (join s d' b y e)).toList := by
  cases s <;> simp [join, toList]

theorem toList_join_congr {s c c' a a' b b'} {x : α}
    (ha : a.toList = a'.toList) (hb : b.toList = b'.toList) :
    (join s c a x b).toList = (join s c' a' x b').toList := by
  cases s <;> simp [join, toList, ha, hb]

@[simp] theorem toList_setRootColor (c : Color) (t : ColorTree α) :
    (t.setRootColor c).toList = t.toList := by cases t <;> rfl

theorem mem_toList_join {s c a b} {x y : α} :
    y ∈ (join s c a x b).toList ↔ y ∈ a.toList ∨ y = x ∨ y ∈ b.toList := by
  cases s <;> simp [join, toList]; tauto

theorem length_lt_join (s : Side) (c : Color) (a : ColorTree α) (x : α) (b : ColorTree α) :
    a.toList.length < (join s c a x b).toList.length := by
  cases s
  · simp [join, toList]
  · simp only [join, toList, length_append, length_cons]
    omega

theorem nodup_join {s c a b} {x : α} :
    (join s c a x b).toList.Nodup ↔ a.toList.Nodup ∧ b.toList.Nodup ∧ x ∉ a.toList ∧
      x ∉ b.toList ∧ ∀ y ∈ a.toList, y ∉ b.toList := by
  cases s <;> simp only [join, toList, nodup_append, nodup_cons, mem_cons] <;> grind

end ColorTree

/-! ## Contexts -/

/-- One ancestor of a subtree: the side the subtree is on, and the rest. -/
structure Frame (α : Type) where
  side : Side
  color : Color
  label : α
  sibling : ColorTree α

open ColorTree

def Frame.plug (f : Frame α) (t : ColorTree α) : ColorTree α :=
  join f.side f.color t f.label f.sibling

/-- Put a tree under its ancestors, the nearest first. -/
def plug : List (Frame α) → ColorTree α → ColorTree α
  | [], t => t
  | f :: ctx, t => plug ctx (f.plug t)

@[simp] theorem plug_nil (t : ColorTree α) : plug [] t = t := rfl

@[simp] theorem plug_cons (f : Frame α) (ctx : List (Frame α)) (t : ColorTree α) :
    plug (f :: ctx) t = plug ctx (f.plug t) := rfl

theorem plug_append (ctx ctx' : List (Frame α)) (t : ColorTree α) :
    plug (ctx ++ ctx') t = plug ctx' (plug ctx t) := by
  induction ctx generalizing t with
  | nil => rfl
  | cons f ctx ih => simp [ih]

variable {t u : ColorTree α} {ctx : List (Frame α)} {s : Side} {y x : α} {f : Frame α} {n : Nat}
  {c : Color}

theorem plug_ne_nil (ht : t ≠ nil) (ctx : List (Frame α)) : plug ctx t ≠ nil := by
  induction ctx generalizing t with
  | nil => exact ht
  | cons f ctx ih => exact ih (join_ne_nil _ _ _ _ _)

/-- The labels in front of the hole. -/
def before : List (Frame α) → List α
  | [] => []
  | f :: ctx => match f.side with
    | .left => before ctx
    | .right => before ctx ++ f.sibling.toList ++ [f.label]

/-- The labels behind the hole. -/
def after : List (Frame α) → List α
  | [] => []
  | f :: ctx => match f.side with
    | .left => f.label :: f.sibling.toList ++ after ctx
    | .right => after ctx

theorem toList_plug (ctx : List (Frame α)) (t : ColorTree α) :
    (plug ctx t).toList = before ctx ++ t.toList ++ after ctx := by
  induction ctx generalizing t with
  | nil => simp [before, after]
  | cons f ctx ih =>
    obtain ⟨s, c, x, u⟩ := f
    cases s <;> simp [ih, Frame.plug, join, toList, before, after]

theorem toList_plug_congr {t'} (ctx : List (Frame α)) (h : t.toList = t'.toList) :
    (plug ctx t).toList = (plug ctx t').toList := by
  rw [toList_plug, toList_plug, h]

theorem before_eq_nil (h : ∀ f ∈ ctx, f.side = .left) : before ctx = [] := by
  induction ctx with
  | nil => rfl
  | cons f ctx ih =>
    rw [before, h f (by simp)]
    exact ih fun g hg => h g (by simp [hg])

theorem after_eq_nil (h : ∀ f ∈ ctx, f.side = .right) : after ctx = [] := by
  induction ctx with
  | nil => rfl
  | cons f ctx ih =>
    rw [after, h f (by simp)]
    exact ih fun g hg => h g (by simp [hg])

/-- The labels on the way to a side. -/
def ColorTree.toward (s : Side) (t : ColorTree α) : List α :=
  match s with
  | .left => t.toList.reverse
  | .right => t.toList

/-- The labels that are beyond the hole on the way to a side. -/
def beyond (s : Side) (ctx : List (Frame α)) : List α :=
  match s with
  | .left => (before ctx).reverse
  | .right => after ctx

theorem mem_toward : y ∈ t.toward s ↔ y ∈ t.toList := by
  cases s
  · exact mem_reverse
  · exact Iff.rfl

theorem toward_join (s : Side) (c : Color) (a : ColorTree α) (x : α) (b : ColorTree α) :
    (join s c a x b).toward s = b.toward s ++ x :: a.toward s := by
  cases s <;> simp [join, toward, toList]

theorem toward_plug (s : Side) (ctx : List (Frame α)) (t : ColorTree α) :
    (plug ctx t).toward s = (beyond s.other ctx).reverse ++ t.toward s ++ beyond s ctx := by
  cases s <;> simp [toward, beyond, Side.other, toList_plug]

theorem beyond_cons_same (hf : f.side = s) (ctx : List (Frame α)) :
    beyond s (f :: ctx) = beyond s ctx := by
  subst hf
  obtain ⟨s, c, x, u⟩ := f
  cases s <;> rfl

theorem beyond_cons_other (hf : f.side = s.other) (ctx : List (Frame α)) :
    beyond s (f :: ctx) = f.label :: (f.sibling.toward s ++ beyond s ctx) := by
  obtain ⟨s', c, x, u⟩ := f
  cases s <;> cases hf <;> simp [beyond, toward, before, after]

theorem beyond_eq_nil (h : ∀ f ∈ ctx, f.side = s) : beyond s ctx = [] := by
  induction ctx with
  | nil => cases s <;> rfl
  | cons f ctx ih =>
    rw [beyond_cons_same (h f (.head _))]
    exact ih fun g hg => h g (.tail _ hg)

/-- The labels of the context, in no particular order. -/
def ctxLabels (ctx : List (Frame α)) : List α := before ctx ++ after ctx

theorem mem_ctxLabels_cons :
    y ∈ ctxLabels (f :: ctx) ↔ y = f.label ∨ y ∈ f.sibling.toList ∨ y ∈ ctxLabels ctx := by
  obtain ⟨s, c, x, u⟩ := f
  cases s <;> simp [ctxLabels, before, after] <;> tauto

theorem mem_plug : y ∈ (plug ctx t).toList ↔ y ∈ ctxLabels ctx ∨ y ∈ t.toList := by
  rw [toList_plug, ctxLabels, mem_append, mem_append, mem_append, or_right_comm]

theorem nodup_plug :
    (plug ctx t).toList.Nodup ↔
      t.toList.Nodup ∧ (ctxLabels ctx).Nodup ∧ ∀ y ∈ t.toList, y ∉ ctxLabels ctx := by
  rw [toList_plug, ctxLabels]
  rw [append_assoc, perm_append_comm.nodup_iff, append_assoc,
    (List.Perm.append_left _ perm_append_comm).nodup_iff, nodup_append]
  constructor
  · rintro ⟨ht, hc, hd⟩
    exact ⟨ht, hc, fun y hy hm => hd y hy y hm rfl⟩
  · rintro ⟨ht, hc, hd⟩
    exact ⟨ht, hc, fun y hy z hz hyz => hd y hy (hyz ▸ hz)⟩

theorem nodup_ctxLabels_cons :
    (ctxLabels (f :: ctx)).Nodup ↔ f.sibling.toList.Nodup ∧ f.label ∉ f.sibling.toList ∧
      (ctxLabels ctx).Nodup ∧ f.label ∉ ctxLabels ctx ∧
      ∀ y ∈ f.sibling.toList, y ∉ ctxLabels ctx := by
  have hp : ctxLabels (f :: ctx) = (plug ctx (f.plug nil)).toList := by
    rw [← plug_cons, toList_plug]
    simp [ctxLabels, toList]
  rw [hp, nodup_plug, Frame.plug, nodup_join]
  simp only [mem_toList_join, toList, nodup_nil, not_mem_nil, true_and, false_or,
    not_false_eq_true, false_implies, implies_true, and_true, forall_eq_or_imp]
  tauto

theorem exists_plug_of_mem {x} : ∀ {t : ColorTree α}, x ∈ t.toList →
    ∃ ctx c l r, t = plug ctx (.node c l x r)
  | .node c l y r, h => by
    simp only [toList, mem_append, mem_cons] at h
    rcases h with h | rfl | h
    · obtain ⟨ctx, d, l', r', rfl⟩ := exists_plug_of_mem h
      refine ⟨ctx ++ [⟨.left, c, y, r⟩], d, l', r', ?_⟩
      rw [plug_append]
      rfl
    · exact ⟨[], c, l, r, rfl⟩
    · obtain ⟨ctx, d, l', r', rfl⟩ := exists_plug_of_mem h
      refine ⟨ctx ++ [⟨.right, c, y, l⟩], d, l', r', ?_⟩
      rw [plug_append]
      rfl

/-! ## Balance -/

inductive Balanced : ColorTree α → Color → Nat → Prop
  | nil : Balanced .nil .black 0
  | red {l r : ColorTree α} {x : α} {n : Nat} : Balanced l .black n → Balanced r .black n →
      Balanced (.node .red l x r) .red n
  | black {l r : ColorTree α} {x : α} {c c' : Color} {n : Nat} : Balanced l c n → Balanced r c' n →
      Balanced (.node .black l x r) .black (n + 1)

theorem Balanced.rootColor (h : Balanced t c n) : t.rootColor = c := by cases h <;> rfl

theorem Balanced.setRootColor_eq (h : Balanced t c n) : t.setRootColor c = t := by cases h <;> rfl

theorem Balanced.join_red {a b} (ha : Balanced a .black n) (hb : Balanced b .black n) :
    Balanced (join s .red a x b) .red n := by
  cases s
  · exact .red ha hb
  · exact .red hb ha

theorem Balanced.join_black {a b c'} (ha : Balanced a c n)
    (hb : Balanced b c' n) : Balanced (join s .black a x b) .black (n + 1) := by
  cases s
  · exact .black ha hb
  · exact .black hb ha

theorem Balanced.of_red {a b} (h : Balanced (join s .red a x b) c n) :
    c = .red ∧ Balanced a .black n ∧ Balanced b .black n := by
  cases s <;> cases h
  all_goals exact ⟨rfl, ‹_›, ‹_›⟩

theorem Balanced.of_black {a b} (h : Balanced (join s .black a x b) c (n + 1)) :
    c = .black ∧ (∃ ca, Balanced a ca n) ∧ ∃ cb, Balanced b cb n := by
  cases s <;> cases h
  all_goals exact ⟨rfl, ⟨_, ‹_›⟩, _, ‹_›⟩

theorem Balanced.blacken (h : Balanced t .red n) :
    Balanced (t.setRootColor .black) .black (n + 1) := by
  cases h with
  | red hl hr => exact .black hl hr

theorem Balanced.exists_red (s : Side) (h : Balanced t .red n) :
    ∃ a x b, t = join s .red a x b ∧ Balanced a .black n ∧ Balanced b .black n := by
  cases h with
  | @red l r x _ hl hr =>
    obtain ⟨a, b, he⟩ := node_eq_join s .red l x r
    obtain ⟨_, ha, hb⟩ := Balanced.of_red (he ▸ Balanced.red hl hr)
    exact ⟨a, x, b, he, ha, hb⟩

theorem Balanced.exists_black (s : Side) (h : Balanced t .black (n + 1)) :
    ∃ a x b ca cb, t = join s .black a x b ∧ Balanced a ca n ∧ Balanced b cb n := by
  cases h with
  | @black l r x c c' _ hl hr =>
    obtain ⟨a, b, he⟩ := node_eq_join s .black l x r
    obtain ⟨_, ⟨ca, ha⟩, cb, hb⟩ := Balanced.of_black (he ▸ Balanced.black hl hr)
    exact ⟨a, x, b, ca, cb, he, ha, hb⟩

/-- The context takes a balanced tree of root colour `c` and black height
`n`, and the whole has a black root. -/
inductive Fits : List (Frame α) → Color → Nat → Prop
  | nil {n : Nat} : Fits [] .black n
  | red {s : Side} {x : α} {u : ColorTree α} {ctx : List (Frame α)} {n : Nat} :
      Balanced u .black n → Fits ctx .red n → Fits (⟨s, .red, x, u⟩ :: ctx) .black n
  | black {s : Side} {x : α} {u : ColorTree α} {c c' : Color} {ctx : List (Frame α)} {n : Nat} :
      Balanced u c' n → Fits ctx .black (n + 1) → Fits (⟨s, .black, x, u⟩ :: ctx) c n

theorem Fits.plug {ctx c n} (h : Fits ctx c n) :
    ∀ {t : ColorTree α}, Balanced t c n → ∃ m, Balanced (plug ctx t) .black m := by
  induction h with
  | nil => exact fun ht => ⟨_, ht⟩
  | red hu _ ih => exact fun ht => ih (.join_red ht hu)
  | black hu _ ih => exact fun ht => ih (.join_black ht hu)

theorem Fits.of_plug {m} : ∀ {ctx} {t : ColorTree α},
    Balanced (RedBlack.plug ctx t) .black m → ∃ c n, Balanced t c n ∧ Fits ctx c n
  | [], _, h => ⟨_, _, h, .nil⟩
  | ⟨s, .red, x, u⟩ :: ctx, t, h => by
    obtain ⟨c, n, ht, hf⟩ := @Fits.of_plug m ctx _ h
    obtain ⟨rfl, ht, hu⟩ := Balanced.of_red ht
    exact ⟨_, _, ht, .red hu hf⟩
  | ⟨s, .black, x, u⟩ :: ctx, t, h => by
    obtain ⟨c, n, ht, hf⟩ := @Fits.of_plug m ctx _ h
    cases n with
    | zero => cases s <;> cases ht
    | succ n =>
      obtain ⟨rfl, ⟨ct, ht⟩, cu, hu⟩ := Balanced.of_black ht
      exact ⟨_, _, ht, .black hu hf⟩

theorem Fits.toBlack (h : Fits ctx c n) : Fits ctx .black n := by
  cases h with
  | nil => exact .nil
  | red hu hf => exact .red hu hf
  | black hu hf => exact .black hu hf

theorem Fits.length_pos (h : Fits ctx .red n) : 0 < ctx.length := by
  cases h
  simp

theorem Fits.relabel {c'} :
    ∀ {pre n}, Fits (pre ++ ⟨s, c, x, u⟩ :: ctx) c' n → Fits (pre ++ ⟨s, c, y, u⟩ :: ctx) c' n
  | [], _, h => by
    cases h with
    | red hu hf => exact .red hu hf
    | black hu hf => exact .black hu hf
  | f :: pre, _, h => by
    cases h with
    | red hu hf => exact .red hu hf.relabel
    | black hu hf => exact .black hu hf.relabel

/-! ## What the invariants say -/

/-- No red node has a red child. -/
def NoRedRed : ColorTree α → Prop
  | .nil => True
  | .node c l _ r =>
    (c = .red → l.rootColor = .black ∧ r.rootColor = .black) ∧ NoRedRed l ∧ NoRedRed r

/-- The number of black nodes on each path from the root to a missing tree. -/
def blackCounts : ColorTree α → List Nat
  | .nil => [0]
  | .node c l _ r => (blackCounts l ++ blackCounts r).map (· + if c = .black then 1 else 0)

theorem Balanced.noRedRed (h : Balanced t c n) : NoRedRed t := by
  induction h with
  | nil => trivial
  | red hl hr ihl ihr => exact ⟨fun _ => ⟨hl.rootColor, hr.rootColor⟩, ihl, ihr⟩
  | black _ _ ihl ihr => exact ⟨nofun, ihl, ihr⟩

theorem Balanced.blackCounts (h : Balanced t c n) : ∀ m ∈ RedBlack.blackCounts t, m = n := by
  induction h with
  | nil => simp [RedBlack.blackCounts]
  | red _ _ ihl ihr | black _ _ ihl ihr =>
    intro m hm
    simp only [RedBlack.blackCounts, mem_map, mem_append] at hm
    obtain ⟨k, hk | hk, rfl⟩ := hm
    · simp [ihl k hk]
    · simp [ihr k hk]

/-! ## Height -/

/-- The number of levels. -/
def ColorTree.height : ColorTree α → Nat
  | .nil => 0
  | .node _ l _ r => max l.height r.height + 1

theorem ColorTree.height_join (s : Side) (c : Color) (a : ColorTree α) (x : α) (b : ColorTree α) :
    (join s c a x b).height = max a.height b.height + 1 := by
  cases s
  · rfl
  · exact congrArg (· + 1) (Nat.max_comm _ _)

theorem length_add_height_le (t : ColorTree α) (ctx : List (Frame α)) :
    ctx.length + t.height ≤ (plug ctx t).height := by
  induction ctx generalizing t with
  | nil => exact Nat.le_of_eq (Nat.zero_add _)
  | cons f ctx ih =>
    have hf := ih (f.plug t)
    rw [Frame.plug, ColorTree.height_join] at hf
    rw [plug_cons, length_cons, Frame.plug]
    omega

theorem Balanced.two_pow_le (h : Balanced t c n) : 2 ^ n ≤ t.toList.length + 1 := by
  induction h with
  | nil => exact Nat.le_refl 1
  | red _ _ ihl ihr =>
    simp only [ColorTree.toList, length_append, length_cons]
    omega
  | black _ _ ihl ihr =>
    simp only [ColorTree.toList, length_append, length_cons, Nat.pow_succ]
    omega

theorem Balanced.height_le (h : Balanced t c n) : t.height ≤ 2 * n + if c = .red then 1 else 0 := by
  induction h with
  | nil => exact Nat.le_refl 0
  | red _ _ ihl ihr =>
    simp only [ColorTree.height, reduceCtorEq, if_false, if_true] at ihl ihr ⊢
    omega
  | @black _ _ _ c c' _ _ _ ihl ihr =>
    simp only [ColorTree.height, reduceCtorEq, if_false]
    split at ihl <;> split at ihr <;> omega

/-- **A red-black tree is at most twice as high as a full tree.** -/
theorem Balanced.height_le_log (h : Balanced t .black n) :
    t.height ≤ 2 * (t.toList.length + 1).log2 := by
  have hn : n ≤ (t.toList.length + 1).log2 := (Nat.le_log2 (Nat.succ_ne_zero _)).mpr h.two_pow_le
  have hh := h.height_le
  rw [if_neg (by simp)] at hh
  omega

/-! ## Repair after an insertion

The focus is red and its parent may be red too: the context fits only a
black tree of the focus's height. -/

theorem Fits.grandparent (h : Fits (⟨s, .red, x, u⟩ :: ctx) .black n) :
    Balanced u .black n ∧ ∃ s' g w cw ctx', ctx = ⟨s', .black, g, w⟩ :: ctx' ∧
      Balanced w cw n ∧ Fits ctx' .black (n + 1) := by
  cases h with
  | red hu hf =>
    cases hf with
    | black hw hf => exact ⟨hu, _, _, _, _, _, rfl, hw, hf⟩

theorem Fits.uncle {s' g w} (h : Fits (⟨s, .red, x, u⟩ :: ⟨s', .black, g, w⟩ :: ctx) .black n) :
    Balanced u .black n ∧ Balanced w w.rootColor n ∧ Fits ctx .black (n + 1) := by
  obtain ⟨hu, _, _, _, cw, _, heq, hw, hf⟩ := h.grandparent
  cases heq
  exact ⟨hu, hw.rootColor.symm ▸ hw, hf⟩

theorem insert_recolor {s' w g} (ht : Balanced t .red n)
    (hu : Balanced u .black n) (hw : Balanced w .red n) :
    Balanced (join s' .red (join s .black t x u) g (w.setRootColor .black)) .red (n + 1) :=
  .join_red (.join_black ht hu) hw.blacken

/-! ## Repair after a deletion -/

/-- A tree one black node short of what its context fits. It is black, or
red, and then blackening it repairs it. -/
inductive Short : ColorTree α → Nat → Prop
  | black {t : ColorTree α} {n : Nat} : Balanced t .black n → Short t n
  | red {l r : ColorTree α} {x : α} {c c' : Color} {n : Nat} : Balanced l c n → Balanced r c' n →
      Short (.node .red l x r) n

theorem Balanced.short (h : Balanced t c n) : Short t n := by
  cases h with
  | nil => exact .black .nil
  | red hl hr => exact .red hl hr
  | black hl hr => exact .black (.black hl hr)

theorem Short.join_red {a b c'} (ha : Balanced a c n) (hb : Balanced b c' n) :
    Short (join s .red a x b) n := by
  cases s
  · exact .red ha hb
  · exact .red hb ha

theorem Short.blacken_red (h : Short t n) (hc : t.rootColor = .red) :
    Balanced (t.setRootColor .black) .black (n + 1) := by
  cases h with
  | black hb => rw [hb.rootColor] at hc; cases hc
  | red hl hr => exact .black hl hr

theorem Short.of_black (h : Short t n) (hc : t.rootColor = .black) : Balanced t .black n := by
  cases h with
  | black hb => exact hb
  | red hl hr => cases hc

theorem Short.blacken (h : Short t n) : ∃ m, Balanced (t.setRootColor .black) .black m := by
  cases h with
  | black hb =>
    refine ⟨n, ?_⟩
    cases hb with
    | nil => exact .nil
    | black hl hr => exact .black hl hr
  | red hl hr => exact ⟨_, .black hl hr⟩

theorem delete_node {c' q} (hb : Balanced (join s c nil y q) c' n) (hf : Fits ctx c' n) :
    (c = .red → ∃ m, Balanced (plug ctx q) .black m) ∧
      (c = .black → ∃ k, Short q k ∧ Fits ctx .black (k + 1)) := by
  cases c with
  | red =>
    obtain ⟨rfl, _, hq⟩ := Balanced.of_red hb
    exact ⟨fun _ => hf.toBlack.plug hq, nofun⟩
  | black =>
    refine ⟨nofun, fun _ => ?_⟩
    cases n with
    | zero => cases s <;> cases hb
    | succ n =>
      obtain ⟨rfl, _, cq, hq⟩ := Balanced.of_black hb
      exact ⟨n, hq.short, hf⟩

theorem Fits.parent (h : Fits (⟨s, c, x, u⟩ :: ctx) .black n) :
    ∃ cu, Balanced u cu n ∧ (c = .red → cu = .black) ∧
      Fits ctx c (n + if c = .black then 1 else 0) := by
  cases h with
  | red hu hf => exact ⟨_, hu, fun _ => rfl, hf⟩
  | black hu hf => exact ⟨_, hu, nofun, hf⟩

theorem delete_blackSibling {a b w} (ht : Balanced t .black n)
    (ha : Balanced a .black n) (hb : Balanced b .black n) :
    Short (join s c t x (join s .red a w b)) (n + if c = .black then 1 else 0) := by
  cases c with
  | red => exact .join_red ht (Balanced.join_red ha hb)
  | black => exact .black (.join_black ht (Balanced.join_red ha hb))

theorem delete_farRed {ca a b w} (ht : Balanced t .black n)
    (ha : Balanced a ca n) (hb : Balanced b .red n) :
    ∃ m, Balanced (join s c (join s .black t x a) w (b.setRootColor .black)) c m ∧
      m = n + 1 + if c = .black then 1 else 0 := by
  cases c with
  | red => exact ⟨_, .join_red (.join_black ht ha) hb.blacken, rfl⟩
  | black => exact ⟨_, .join_black (.join_black ht ha) hb.blacken, rfl⟩

end Libparc.RedBlack
