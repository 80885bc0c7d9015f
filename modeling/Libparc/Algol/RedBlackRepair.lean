import Libparc.Algol.RedBlackWalk

/-! # The repair loops end in a balanced tree

`_rbNodeFix` starts from a red node whose parent may be red,
`_rbNodeFixDelete` from a subtree that is one black node short. Each turn of
a loop either ends it or moves the defect up; the order of the nodes and what
they carry stay as they are (`Laid`). -/
namespace Libparc.RedBlackNodes
open Libparc.RedBlack ColorTree RbTree

variable {E K : Type} {t0 t : RbTree E}

/-- The nodes of `t0` are linked as `T` in `t`, and carry what they carried. -/
structure Laid (t0 t : RbTree E) (T : ColorTree Ptr) : Prop where
  represents : Represents t T
  data : t.data = t0.data
  nil : t.nil = t0.nil
  nilBlack : t.color t.nil = .black

namespace RbTree

variable (t : RbTree E) (s : Side) (x : Ptr)

@[simp] theorem color_rotate : (t.rotate s x).color = t.color := by simp [rotate]

@[simp] theorem nil_rotate : (t.rotate s x).nil = t.nil := by simp [rotate]

@[simp] theorem data_rotate : (t.rotate s x).data = t.data := by simp [rotate]

end RbTree

variable {e a b : ColorTree Ptr} {y x : Ptr} {s : Side} {c : Color}

theorem Laid.rotate {ctx d} (h : Laid t0 t (plug ctx (.join s c a x (.join s d b y e)))) :
    Laid t0 (t.rotate s x) (plug ctx (.join s d (.join s c a x b) y e)) :=
  ⟨h.represents.rotate, by simpa using h.data, by simpa using h.nil, by simpa using h.nilBlack⟩

theorem Laid.rotate_other {ctx d} (h : Laid t0 t (plug ctx (.join s c (.join s d e y b) x a))) :
    Laid t0 (t.rotate s.other x) (plug ctx (.join s d e y (.join s c b x a))) := by
  simp only [← join_other s] at h ⊢
  exact h.rotate

theorem Laid.setColor (ctx : List (Frame Ptr)) {d}
    (h : Laid t0 t (plug ctx (.join s d a x b))) (c : Color) :
    Laid t0 (t.setColor x c) (plug ctx (.join s c a x b)) := by
  obtain ⟨_, hr, _⟩ := represents_plug.mp h.represents
  have hx : x ≠ t.nil := (rep_join.mp hr).1
  exact ⟨h.represents.setColor_join c, h.data, h.nil,
    (color_setColor_of_ne t (Ne.symm hx)).trans h.nilBlack⟩

theorem Laid.blacken (ctx : List (Frame Ptr)) {T} (h : Laid t0 t (plug ctx T)) :
    Laid t0 (t.setColor (ptr t.nil T) .black) (plug ctx (T.setRootColor .black)) := by
  refine ⟨h.represents.setColor .black, h.data, h.nil, ?_⟩
  have hn := h.nilBlack
  simp only [nil_setColor, color_setColor, hn, ite_self]

theorem Rep.color_ptr {T par} (h : Rep t T par)
    (hn : t.color t.nil = .black) : t.color (ptr t.nil T) = T.rootColor := by
  cases T with
  | nil => exact hn
  | node c l x r => exact h.2.1

theorem Laid.read {p u T ctx} (h : Laid t0 t (plug (⟨s, c, p, u⟩ :: ctx) T)) :
    t.color p = c ∧ t.parent p = parentPtr t.nil ctx ∧ t.child s p = ptr t.nil T ∧
      t.child s.other p = ptr t.nil u ∧ t.color (ptr t.nil u) = u.rootColor ∧
      t.color (ptr t.nil T) = T.rootColor ∧ (T ≠ .nil → t.parent (ptr t.nil T) = p) ∧
      (T ≠ .nil → ptr t.nil u ≠ ptr t.nil T) := by
  obtain ⟨⟨_, hc, hp, hs, ho, hu, _⟩, hT, hn⟩ := represents_plug.mp h.represents
  refine ⟨hc, hp, hs, ho, hu.color_ptr h.nilBlack, hT.color_ptr h.nilBlack, ?_, ?_⟩
  · intro hne
    cases T with
    | nil => exact absurd rfl hne
    | node d l x r => exact hT.2.2.1
  · intro hne he
    cases T with
    | nil => exact absurd rfl hne
    | node d l x r =>
      have hx : x ∉ ctxLabels (⟨s, c, p, u⟩ :: ctx) := (nodup_plug.mp hn).2.2 x (by simp [toList])
      refine ne_ptr hT.1 (fun hm => hx ?_) he.symm
      exact mem_ctxLabels_cons.mpr (.inr (.inl hm))

/-! ## After an insertion -/

/-- The loop of `_rbNodeFix`, `m` ancestors below the root: the focus is red
and everything but its parent's colour is as it should be. -/
def FixInv (t0 : RbTree E) (L : List Ptr) (m : Nat) (s : RbTree E × Ptr) : Prop :=
  ∃ ctx T n, ctx.length = m ∧ Laid t0 s.1 (plug ctx T) ∧ s.2 = ptr s.1.nil T ∧
    Balanced T .red n ∧ Fits ctx .black n ∧ (plug ctx T).toList = L

/-- What both repairs end with. -/
def Repaired (t0 : RbTree E) (L : List Ptr) (t : RbTree E) : Prop :=
  ∃ T n, Laid t0 t T ∧ Balanced T .black n ∧ T.toList = L

theorem sideOf_eq {p q} (hs : t.child s p = q) (ho : t.child s.other p ≠ q) :
    (if t.leftChild p = q then Side.left else Side.right) = s := by
  cases s
  · exact if_pos hs
  · exact if_neg ho

theorem rbNodeFixBody_done {node} (h : t.color (t.parent node) = .black) :
    rbNodeFixBody (t, node) = pure (.inr (t.setColor t.root .black)) := by
  simp [rbNodeFixBody, h]

section
variable {s s' : Side} {p g node : Ptr} {u w T : ColorTree Ptr} {ctx : List (Frame Ptr)}

theorem rbNodeFixBody_recolor
    (h : Laid t0 t (plug (⟨s, .red, p, u⟩ :: ⟨s', .black, g, w⟩ :: ctx) T)) (hT : T ≠ .nil)
    (hw : w.rootColor = .red) :
    rbNodeFixBody (t, ptr t.nil T) = pure (.inl
      (((t.setColor p .black).setColor (ptr t.nil w) .black).setColor g .red, g)) := by
  obtain ⟨hcp, hpp, _, _, _, _, hp, _⟩ := h.read
  obtain ⟨_, _, hs', ho', hcw, _, _, hne⟩ := Laid.read (T := .join s .red T p u) h
  rw [ptr_join] at hs' hne
  have hs := sideOf_eq hs' (by rw [ho']; exact hne (by simp))
  simp only [rbNodeFixBody, hp hT, hcp, hpp, parentPtr, hs, ho', hcw, hw, parent_setColor, if_true]

theorem rbNodeFixBody_outer
    (h : Laid t0 t (plug (⟨s, .red, p, u⟩ :: ⟨s, .black, g, w⟩ :: ctx) T)) (hT : T ≠ .nil)
    (hw : w.rootColor = .black) :
    rbNodeFixBody (t, ptr t.nil T) = pure (.inl
      (((t.setColor p .black).setColor g .red).rotate s.other g, ptr t.nil T)) := by
  obtain ⟨hcp, hpp, _, ho, _, _, hp, hnu⟩ := h.read
  obtain ⟨_, _, hs', ho', hcw, _, _, hne⟩ := Laid.read (T := .join s .red T p u) h
  rw [ptr_join] at hs' hne
  have hs := sideOf_eq hs' (by rw [ho']; exact hne (by simp))
  have hi : t.child s.other p ≠ ptr t.nil T := by rw [ho]; exact hnu hT
  simp only [rbNodeFixBody, hp hT, hcp, hpp, parentPtr, hs, ho', hcw, hw,
    parent_setColor, if_true, if_neg hi, reduceCtorEq, if_false]

theorem Laid.rotate_inner (h : Laid t0 t (plug (⟨s.other, c, p, u⟩ :: ctx) (.join s .red a x b))) :
    Laid t0 (t.rotate s p) (plug (⟨s, .red, x, b⟩ :: ctx) (.join s c u p a)) := by
  rw [plug_cons, Frame.plug, join_other] at h
  exact h.rotate

theorem rbNodeFixBody_inner
    (h : Laid t0 t (plug (⟨s.other, .red, p, u⟩ :: ⟨s, .black, g, w⟩ :: ctx) (.join s .red a x b)))
    (hw : w.rootColor = .black) :
    rbNodeFixBody (t, x) = pure (.inl
      ((((t.rotate s p).setColor x .black).setColor g .red).rotate s.other g, p)) := by
  obtain ⟨hcp, hpp, hs, _, _, _, hp, _⟩ := h.read
  obtain ⟨_, _, hs', ho', hcw, _, _, hne⟩ :=
    Laid.read (T := .join s.other .red (.join s .red a x b) p u) h
  have hr := h.rotate_inner
  obtain ⟨_, hpx', _, _, _, _, hp', _⟩ := hr.read
  simp only [ptr_join, ne_eq, join_ne_nil, not_false_eq_true, forall_const, parentPtr]
    at hs hp hs' hne hpp hpx' hp'
  have hsi := sideOf_eq hs' (by rw [ho']; exact hne)
  simp only [rbNodeFixBody, hp, hcp, hpp, hsi, ho', hcw, hw, hs, hp', hpx',
    parent_setColor, if_true, reduceCtorEq, if_false]

theorem Laid.fix_recolor (h : Laid t0 t (plug (⟨s, .red, p, u⟩ :: ⟨s', .black, g, w⟩ :: ctx) T)) :
    Laid t0 (((t.setColor p .black).setColor (ptr t.nil w) .black).setColor g .red)
      (plug ctx (.join s' .red (.join s .black T p u) g (w.setRootColor .black))) := by
  have h1 := Laid.setColor (⟨s', .black, g, w⟩ :: ctx) h .black
  rw [plug_cons, Frame.plug, plug_sibling] at h1
  have h2 := h1.blacken _
  rw [← plug_sibling] at h2
  exact h2.setColor _ .red

theorem Laid.fix_outer (h : Laid t0 t (plug (⟨s, .red, p, u⟩ :: ⟨s, .black, g, w⟩ :: ctx) T)) :
    Laid t0 (((t.setColor p .black).setColor g .red).rotate s.other g)
      (plug (⟨s, .black, p, .join s .red u g w⟩ :: ctx) T) := by
  have h1 := Laid.setColor (⟨s, .black, g, w⟩ :: ctx) h .black
  have h2 := Laid.setColor ctx h1 .red
  exact h2.rotate_other

theorem toList_fix_outer (s : Side) (p g : Ptr) (u w T : ColorTree Ptr) (ctx : List (Frame Ptr)) :
    (plug (⟨s, .black, p, .join s .red u g w⟩ :: ctx) T).toList =
      (plug (⟨s, .red, p, u⟩ :: ⟨s, .black, g, w⟩ :: ctx) T).toList :=
  toList_plug_congr ctx (toList_rotate s _ _ _ _ T u w p g).symm

theorem toList_rotate_inner (s : Side) (p x : Ptr) (u a b : ColorTree Ptr)
    (ctx : List (Frame Ptr)) :
    (plug (⟨s, .red, x, b⟩ :: ctx) (.join s .red u p a)).toList =
      (plug (⟨s.other, .red, p, u⟩ :: ctx) (.join s .red a x b)).toList := by
  refine toList_plug_congr ctx ?_
  simp only [Frame.plug, join_other]
  exact toList_rotate s _ _ _ _ u a b p x

theorem fix_outer_inv {n cw} (h : Laid t0 t (plug (⟨s, .red, p, u⟩ :: ⟨s, .black, g, w⟩ :: ctx) T))
    (hT : Balanced T .red n) (hu : Balanced u .black n) (hw : Balanced w cw n)
    (hcw : cw = .black) (hf : Fits ctx .black (n + 1)) :
    FixInv t0 (plug (⟨s, .red, p, u⟩ :: ⟨s, .black, g, w⟩ :: ctx) T).toList (ctx.length + 1)
      (((t.setColor p .black).setColor g .red).rotate s.other g, ptr t.nil T) := by
  subst hcw
  exact ⟨⟨s, .black, p, .join s .red u g w⟩ :: ctx, T, n, rfl, h.fix_outer,
    by simp, hT, .black (.join_red hu hw) hf, toList_fix_outer s p g u w T ctx⟩

variable {L : List Ptr}

theorem Repaired.of_blacken {W n} (h : Laid t0 t W)
    (hb : Balanced (W.setRootColor .black) .black n) (hL : W.toList = L) :
    Repaired t0 L (t.setColor t.root .black) := by
  refine ⟨W.setRootColor .black, n, ?_, hb, (toList_setRootColor _ _).trans hL⟩
  rw [h.represents.root]
  exact Laid.blacken [] h

/-- What a turn of `_rbNodeFix` does with the red node `T` below its context. -/
inductive FixTurn (t : RbTree E) : List (Frame Ptr) → ColorTree Ptr →
    (RbTree E × Ptr) ⊕ RbTree E → Prop
  | root {T : ColorTree Ptr} : FixTurn t [] T (.inr (t.setColor t.root .black))
  | blackParent {s : Side} {p : Ptr} {u T : ColorTree Ptr} {ctx : List (Frame Ptr)} :
    FixTurn t (⟨s, .black, p, u⟩ :: ctx) T (.inr (t.setColor t.root .black))
  | recolor {s s' : Side} {p g : Ptr} {u w T : ColorTree Ptr} {ctx : List (Frame Ptr)}
    (hw : w.rootColor = .red) :
    FixTurn t (⟨s, .red, p, u⟩ :: ⟨s', .black, g, w⟩ :: ctx) T
      (.inl (((t.setColor p .black).setColor (ptr t.nil w) .black).setColor g .red, g))
  | outer {s : Side} {p g : Ptr} {u w T : ColorTree Ptr} {ctx : List (Frame Ptr)}
    (hw : w.rootColor = .black) :
    FixTurn t (⟨s, .red, p, u⟩ :: ⟨s, .black, g, w⟩ :: ctx) T
      (.inl (((t.setColor p .black).setColor g .red).rotate s.other g, ptr t.nil T))
  | inner {s : Side} {p g x : Ptr} {u w a b : ColorTree Ptr} {ctx : List (Frame Ptr)}
    (hw : w.rootColor = .black) :
    FixTurn t (⟨s.other, .red, p, u⟩ :: ⟨s, .black, g, w⟩ :: ctx) (.join s .red a x b)
      (.inl ((((t.rotate s p).setColor x .black).setColor g .red).rotate s.other g, p))

theorem rbNodeFixBody_turn {n} (hl : Laid t0 t (plug ctx T)) (hT : Balanced T .red n)
    (hfi : Fits ctx .black n) :
    ∃ r, rbNodeFixBody (t, ptr t.nil T) = pure r ∧ FixTurn t ctx T r := by
  have hne : T ≠ .nil := by rintro rfl; cases hT
  cases ctx with
  | nil =>
    obtain ⟨_, hr, _⟩ := represents_plug.mp hl.represents
    have hp : t.parent (ptr t.nil T) = t.nil := by
      cases T with
      | nil => exact absurd rfl hne
      | node c l x r => exact hr.2.2.1
    exact ⟨_, rbNodeFixBody_done (by rw [hp]; exact hl.nilBlack), .root⟩
  | cons f ctx =>
    obtain ⟨s, c, p, u⟩ := f
    cases c with
    | black =>
      obtain ⟨hcp, _, _, _, _, _, hp, _⟩ := hl.read
      exact ⟨_, rbNodeFixBody_done (by rw [hp hne]; exact hcp), .blackParent⟩
    | red =>
      obtain ⟨hu, s', g, w, cw, ctx, rfl, hw, hf⟩ := hfi.grandparent
      have hwr := hw.rootColor
      cases cw with
      | red => exact ⟨_, rbNodeFixBody_recolor hl hne hwr, .recolor hwr⟩
      | black =>
        rcases s.eq_or_eq_other s' with rfl | rfl
        · exact ⟨_, rbNodeFixBody_outer hl hne hwr, .outer hwr⟩
        · obtain ⟨a, x, b, rfl, ha, hb⟩ := hT.exists_red s'
          rw [ptr_join]
          exact ⟨_, rbNodeFixBody_inner hl hwr, .inner hwr⟩

/-- **One turn of `_rbNodeFix`**: it ends with a balanced tree, or the defect
has moved towards the root. -/
theorem rbNodeFixBody_spec {m st} (h : FixInv t0 L m st) :
    (∃ r, rbNodeFixBody st = pure (.inr r) ∧ Repaired t0 L r) ∨
      ∃ st' m', rbNodeFixBody st = pure (.inl st') ∧ FixInv t0 L m' st' ∧ m' < m := by
  obtain ⟨t, node⟩ := st
  obtain ⟨ctx, T, n, rfl, hl, hn, hT, hfi, rfl⟩ := h
  dsimp only at hl hn
  subst hn
  obtain ⟨r, hbo, ht⟩ := rbNodeFixBody_turn hl hT hfi
  cases ht with
  | root => exact .inl ⟨_, hbo, .of_blacken hl hT.blacken rfl⟩
  | @blackParent s p u T ctx =>
    refine .inl ⟨_, hbo, ?_⟩
    cases hfi with
    | black hu hf =>
      obtain ⟨m, hm⟩ := hf.plug (Balanced.join_black hT hu)
      refine .of_blacken hl (n := m) ?_ rfl
      rwa [show (plug (⟨s, .black, p, u⟩ :: ctx) T).setRootColor .black =
        plug (⟨s, .black, p, u⟩ :: ctx) T from hm.setRootColor_eq]
  | @recolor _ _ _ _ _ _ _ ctx hwr =>
    obtain ⟨hu, hw, hf⟩ := hfi.uncle
    rw [hwr] at hw
    refine .inr ⟨_, ctx.length, hbo, ?_, by grind⟩
    refine ⟨ctx, _, n + 1, rfl, hl.fix_recolor, by simp, insert_recolor hT hu hw, hf, ?_⟩
    refine toList_plug_congr ctx (toList_join_congr ?_ (toList_setRootColor _ _))
    exact toList_join_congr rfl rfl
  | @outer _ _ _ _ _ _ ctx hwr =>
    obtain ⟨hu, hw, hf⟩ := hfi.uncle
    exact .inr ⟨_, ctx.length + 1, hbo, fix_outer_inv hl hT hu hw hwr hf, by simp⟩
  | @inner _ _ _ _ _ _ _ _ ctx hwr =>
    obtain ⟨hu, hw, hf⟩ := hfi.uncle
    obtain ⟨-, ha, hb⟩ := hT.of_red
    have hr := hl.rotate_inner
    have hi := fix_outer_inv hr (.join_red hu ha) hb hw hwr hf
    rw [ptr_join] at hi
    rw [toList_rotate_inner] at hi
    exact .inr ⟨_, ctx.length + 1, hbo, hi, by simp⟩

/-- **`_rbNodeFix` ends**, with a balanced tree of the same nodes in order. -/
theorem rbNodeFix_spec {m node} (h : FixInv t0 L m (t, node)) :
    ∃ t', t.rbNodeFix node = pure t' ∧ Repaired t0 L t' :=
  Exec.loop_variant (FixInv t0 L) (Repaired t0 L) (fun _ _ => rbNodeFixBody_spec) h

end

/-! ## After a deletion -/

/-- The repair looks at the subtree `T`; its parent link is right even where
`T` is missing and the link is that of `nil`. -/
structure Focused (t0 t : RbTree E) (ctx : List (Frame Ptr)) (T : ColorTree Ptr) : Prop where
  laid : Laid t0 t (plug ctx T)
  parent : t.parent (ptr t.nil T) = parentPtr t.nil ctx

variable {s : Side} {c d : Color} {x w : Ptr} {a b u T : ColorTree Ptr} {ctx : List (Frame Ptr)}

theorem Focused.of_laid (h : Laid t0 t (plug (⟨s, c, x, u⟩ :: ctx) T))
    (hn : T = .nil → t.parent t.nil = x) : Focused t0 t (⟨s, c, x, u⟩ :: ctx) T := by
  refine ⟨h, ?_⟩
  by_cases hT : T = .nil
  · subst hT
    exact hn rfl
  · obtain ⟨_, _, _, _, _, _, hp, _⟩ := h.read
    exact hp hT

theorem Laid.rotate_parent_nil (h : Laid t0 t (plug ctx (.join s c a x (.join s d b y e)))) :
    (t.rotate s x).parent t.nil = t.parent t.nil := by
  obtain ⟨_, hr, hn⟩ := represents_plug.mp h.represents
  simp only [rep_join, ptr_join] at hr
  obtain ⟨hx, _, _, _, hrx, _, hy, _, _, hly, _, _, _⟩ := hr
  have hF := (nodup_plug.mp hn).1
  simp only [nodup_join, mem_toList_join, not_or] at hF
  exact Libparc.RedBlackNodes.rotate_parent_nil hrx hly (ne_ptr hx hF.2.2.2.1.1) hx hy

theorem Laid.rotate_other_parent_nil (h : Laid t0 t (plug ctx (.join s c (.join s d e y b) x a))) :
    (t.rotate s.other x).parent t.nil = t.parent t.nil := by
  simp only [← join_other s] at h
  exact h.rotate_parent_nil

theorem Laid.setColor_sibling (ctx : List (Frame Ptr))
    (h : Laid t0 t (plug ctx (.join s c T x (.join s d a w b))))
    (d' : Color) : Laid t0 (t.setColor w d') (plug ctx (.join s c T x (.join s d' a w b))) := by
  rw [plug_sibling] at h ⊢
  exact h.setColor _ d'

theorem Focused.read (h : Focused t0 t (⟨s, c, x, .join s d a w b⟩ :: ctx) T) :
    t.parent (ptr t.nil T) = x ∧ t.color x = c ∧ t.child s.other x = w ∧ t.color w = d ∧
      t.child s w = ptr t.nil a ∧ t.child s.other w = ptr t.nil b ∧
      t.color (ptr t.nil a) = a.rootColor ∧ t.color (ptr t.nil b) = b.rootColor := by
  obtain ⟨hc, _, _, ho, _, _, _, _⟩ := h.laid.read
  obtain ⟨⟨_, _, _, _, _, hu, _⟩, _, _⟩ := represents_plug.mp h.laid.represents
  obtain ⟨_, hd, _, ha, hb, hA, hB⟩ := rep_join.mp hu
  exact ⟨h.parent, hc, by simpa using ho, hd, ha, hb, hA.color_ptr h.laid.nilBlack,
    hB.color_ptr h.laid.nilBlack⟩

/-- The red sibling `w` is turned up above the parent `x`. -/
def redTurned (t : RbTree E) (s : Side) (x w : Ptr) : RbTree E :=
  ((t.setColor w .black).setColor x .red).rotate s x

section
variable (h : Focused t0 t (⟨s, .black, x, .join s .red a w b⟩ :: ctx) T)
include h

theorem redTurned_focused :
    Focused t0 (redTurned t s x w) (⟨s, .red, x, a⟩ :: ⟨s, .black, w, b⟩ :: ctx) T := by
  obtain ⟨hp, _, _, hd, _, _, _, _⟩ := h.read
  have h2 := Laid.setColor ctx (Laid.setColor_sibling ctx h.laid .black) .red
  refine .of_laid h2.rotate fun hT => ?_
  subst hT
  simpa [redTurned] using h2.rotate_parent_nil.trans hp

theorem fixRedSibling_eq :
    t.fixRedSibling s (ptr t.nil T) w = (redTurned t s x w, ptr t.nil a) := by
  obtain ⟨hp, _, _, hd, _, _, _, _⟩ := h.read
  have hf := redTurned_focused h
  have hpa := hf.parent
  obtain ⟨_, _, _, ho, _, _, _, _⟩ := hf.laid.read
  simp only [redTurned, nil_rotate, nil_setColor, parentPtr] at hpa ho
  simp only [fixRedSibling, redTurned, hd, hp, parent_setColor, hpa, ho, if_true]

end

section
variable (h : Focused t0 t (⟨s, c, x, .join s .black a w b⟩ :: ctx) T)
include h

theorem fixRedSibling_black : t.fixRedSibling s (ptr t.nil T) w = (t, w) := by
  obtain ⟨_, _, _, hd, _⟩ := h.read
  simp [fixRedSibling, hd]

theorem fixNearChild_far (hb : b.rootColor = .red) : t.fixNearChild s (ptr t.nil T) w = (t, w) := by
  obtain ⟨_, _, _, _, _, ho, _, hcb⟩ := h.read
  simp [fixNearChild, ho, hcb, hb]

end

/-- The red child `y` of the sibling `w` on the near side is turned up above it. -/
def nearTurned (t : RbTree E) (s : Side) (w y : Ptr) : RbTree E :=
  ((t.setColor y .black).setColor w .red).rotate s.other w

theorem nearTurned_laid
    (h : Laid t0 t (plug (⟨s, c, x, .join s .black (.join s .red a y e) w b⟩ :: ctx) T)) :
    Laid t0 ((t.setColor y .black).setColor w .red)
      (plug (⟨s.other, c, x, T⟩ :: ctx) (.join s .red (.join s .black a y e) w b)) := by
  rw [plug_cons, Frame.plug, plug_sibling] at h
  have h1 := Laid.setColor (⟨s, .black, w, b⟩ :: ⟨s.other, c, x, T⟩ :: ctx) h .black
  exact Laid.setColor (⟨s.other, c, x, T⟩ :: ctx) h1 .red

section
variable (h : Focused t0 t (⟨s, c, x, .join s .black (.join s .red a y e) w b⟩ :: ctx) T)
include h

theorem nearTurned_focused :
    Focused t0 (nearTurned t s w y)
      (⟨s, c, x, .join s .black a y (.join s .red e w b)⟩ :: ctx) T := by
  obtain ⟨hp, _, _, _, _, _, _, _⟩ := h.read
  have h2 := nearTurned_laid h.laid
  refine .of_laid ?_ fun hT => ?_
  · rw [plug_cons, Frame.plug, plug_sibling]
    exact h2.rotate_other
  · subst hT
    simpa [nearTurned] using h2.rotate_other_parent_nil.trans hp

theorem fixNearChild_eq
    (hb : b.rootColor = .black) : t.fixNearChild s (ptr t.nil T) w = (nearTurned t s w y, y) := by
  obtain ⟨hp, _, _, _, hs, ho, _, hcb⟩ := h.read
  rw [ptr_join] at hs
  have hf := nearTurned_focused h
  have hpa := hf.parent
  obtain ⟨_, _, ho', _, _, _, _, _⟩ := hf.read
  simp only [nearTurned, nil_rotate, nil_setColor, parentPtr] at hpa ho'
  simp only [fixNearChild, nearTurned, hs, ho, hcb, hb, hpa, ho', if_true]

end

theorem Laid.blacken_far (h : Laid t0 t (plug ctx (.join s c T x (.join s d a w b)))) :
    Laid t0 (t.setColor (ptr t.nil b) .black)
      (plug ctx (.join s c T x (.join s d a w (b.setRootColor .black)))) := by
  rw [plug_sibling, plug_sibling] at h ⊢
  exact h.blacken _

theorem fixFarChild_laid (h : Focused t0 t (⟨s, c, x, .join s .black a w b⟩ :: ctx) T) :
    Laid t0 (t.fixFarChild s (ptr t.nil T) w)
      (plug ctx (.join s c (.join s .black T x a) w (b.setRootColor .black))) := by
  obtain ⟨hp, hc, _, _, _, ho, _, _⟩ := h.read
  have h1 := Laid.setColor_sibling ctx h.laid c
  have h2 := Laid.setColor ctx h1 .black
  have h3 := Laid.blacken_far h2
  simp only [fixFarChild, hp, hc, parent_setColor, child_setColor, ho]
  exact h3.rotate

/-- The loop of `_rbNodeFixDelete`: the focus is one black node short. The
bound counts its ancestors, and one turn more for a black focus. -/
def FixDeleteInv (t0 : RbTree E) (L : List Ptr) (m : Nat) (st : RbTree E × Ptr) : Prop :=
  ∃ ctx T n, m = 2 * ctx.length + (if T.rootColor = .black then 1 else 0) ∧
    Focused t0 st.1 ctx T ∧ st.2 = ptr st.1.nil T ∧ Short T n ∧ Fits ctx .black (n + 1) ∧
    (plug ctx T).toList = L

variable {n : Nat} {ops : KeyOps E K}

theorem FixDeleteInv.of_balanced {W} (h : Laid t0 t W) (hb : Balanced W .black n)
    (hW : W ≠ .nil) : FixDeleteInv t0 W.toList 1 (t, t.root) := by
  refine ⟨[], W, n, by simp [hb.rootColor], ⟨h, ?_⟩, h.represents.root, hb.short, .nil, rfl⟩
  cases W with
  | nil => exact absurd rfl hW
  | node c l x r => exact h.represents.rep.2.2.1

theorem toList_fixFar (s : Side) (c c' d d' : Color) (x w : Ptr) (T a b : ColorTree Ptr)
    (ctx : List (Frame Ptr)) :
    (plug ctx (.join s c (.join s d T x a) w (b.setRootColor .black))).toList =
      (plug (⟨s, c', x, .join s d' a w b⟩ :: ctx) T).toList := by
  refine toList_plug_congr ctx ?_
  rw [toList_rotate s d c c' d' T a _ x w]
  exact toList_join_congr rfl (toList_join_congr rfl (toList_setRootColor _ _))

theorem toList_fixNear (s : Side) (c : Color) (x y w : Ptr) (T a e b : ColorTree Ptr)
    (ctx : List (Frame Ptr)) :
    (plug (⟨s, c, x, .join s .black a y (.join s .red e w b)⟩ :: ctx) T).toList =
      (plug (⟨s, c, x, .join s .black (.join s .red a y e) w b⟩ :: ctx) T).toList :=
  toList_plug_congr ctx (toList_join_congr rfl (toList_rotate s _ _ _ _ a e b y w).symm)

theorem toList_redSibling (s : Side) (x w : Ptr) (T a b : ColorTree Ptr) (ctx : List (Frame Ptr)) :
    (plug (⟨s, .red, x, a⟩ :: ⟨s, .black, w, b⟩ :: ctx) T).toList =
      (plug (⟨s, .black, x, .join s .red a w b⟩ :: ctx) T).toList :=
  toList_plug_congr ctx (toList_rotate s _ _ _ _ T a b x w)

theorem fixFarChild_inv {ca} (h : Focused t0 t (⟨s, c, x, .join s .black a w b⟩ :: ctx) T)
    (hT : Balanced T .black n) (ha : Balanced a ca n) (hb : Balanced b .red n)
    (hf : Fits ctx c (n + 1 + if c = .black then 1 else 0)) :
    FixDeleteInv t0 (plug (⟨s, c, x, .join s .black a w b⟩ :: ctx) T).toList 1
      (t.fixFarChild s (ptr t.nil T) w, (t.fixFarChild s (ptr t.nil T) w).root) := by
  obtain ⟨m, hm, rfl⟩ := delete_farRed (s := s) (c := c) (x := x) (w := w) hT ha hb
  obtain ⟨k, hk⟩ := hf.plug hm
  have hi := FixDeleteInv.of_balanced (fixFarChild_laid h) hk
    (plug_ne_nil (join_ne_nil _ _ _ _ _) _)
  rwa [toList_fixFar s c c .black .black] at hi

/-- What a turn of `_rbNodeFixDelete` does when the sibling of its node `T` is black: `x` is
the parent, `w` the sibling, `a` and `b` its near and its far child. -/
inductive SiblingTurn (t : RbTree E) (s : Side) (T : ColorTree Ptr) (x w : Ptr) :
    ColorTree Ptr → ColorTree Ptr → RbTree E × Ptr → Prop
  | recolor {a b : ColorTree Ptr} (ha : a.rootColor = .black) (hb : b.rootColor = .black) :
    SiblingTurn t s T x w a b (t.setColor w .red, x)
  | far {a b : ColorTree Ptr} (hb : b.rootColor = .red) :
    SiblingTurn t s T x w a b
      (t.fixFarChild s (ptr t.nil T) w, (t.fixFarChild s (ptr t.nil T) w).root)
  | near {a e b : ColorTree Ptr} {y : Ptr} (hb : b.rootColor = .black) :
    SiblingTurn t s T x w (.join s .red a y e) b
      ((nearTurned t s w y).fixFarChild s (ptr t.nil T) y,
        ((nearTurned t s w y).fixFarChild s (ptr t.nil T) y).root)

theorem fixBlackSibling_turn {ca cb}
    (h : Focused t0 t (⟨s, c, x, .join s .black a w b⟩ :: ctx) T) (ha : Balanced a ca n)
    (hb : Balanced b cb n) : SiblingTurn t s T x w a b (t.fixBlackSibling s (ptr t.nil T) w) := by
  obtain ⟨hp, _, _, _, hs, ho, hca, hcb⟩ := h.read
  have hbo : (t.color (t.leftChild w) = .black ∧ t.color (t.rightChild w) = .black) ↔
      ca = .black ∧ cb = .black := by
    rw [ha.rootColor] at hca
    rw [hb.rootColor] at hcb
    rw [← hca, ← hcb, ← hs, ← ho]
    cases s
    · exact Iff.rfl
    · exact and_comm
  unfold RbTree.fixBlackSibling
  by_cases hbb : ca = .black ∧ cb = .black
  · rw [if_pos (hbo.mpr hbb), hp]
    exact .recolor (ha.rootColor.trans hbb.1) (hb.rootColor.trans hbb.2)
  · rw [if_neg fun hn => hbb (hbo.mp hn)]
    cases cb with
    | red =>
      rw [fixNearChild_far h hb.rootColor]
      exact .far hb.rootColor
    | black =>
      have hca' : ca = .red := by cases ca <;> simp_all
      subst hca'
      obtain ⟨a1, y, a2, rfl, _, _⟩ := ha.exists_red s
      rw [fixNearChild_eq h hb.rootColor]
      exact .near hb.rootColor

theorem SiblingTurn.inv {ca cb st} (ht : SiblingTurn t s T x w a b st)
    (h : Focused t0 t (⟨s, c, x, .join s .black a w b⟩ :: ctx) T) (hT : Balanced T .black n)
    (ha : Balanced a ca n) (hb : Balanced b cb n)
    (hf : Fits ctx c (n + 1 + if c = .black then 1 else 0)) :
    ∃ m, FixDeleteInv t0 (plug (⟨s, c, x, .join s .black a w b⟩ :: ctx) T).toList m st ∧
      m ≤ 2 * ctx.length + if c = .black then 1 else 0 := by
  have hlt : 1 ≤ 2 * ctx.length + if c = .black then 1 else 0 := by
    cases c with
    | black => simp
    | red =>
      have := hf.length_pos
      omega
  cases ht with
  | recolor ha' hb' =>
    rw [ha.rootColor] at ha'
    rw [hb.rootColor] at hb'
    subst ha' hb'
    have hl := Laid.setColor_sibling ctx h.laid .red
    refine ⟨2 * ctx.length + if c = .black then 1 else 0,
      ⟨ctx, .join s c T x (.join s .red a w b), _, by simp, ⟨hl, ?_⟩, by simp,
        delete_blackSibling hT ha hb, ?_, ?_⟩, Nat.le_refl _⟩
    · obtain ⟨_, hr, _⟩ := represents_plug.mp hl.represents
      rw [ptr_join]
      exact (rep_join.mp hr).2.2.1
    · rw [Nat.add_right_comm]
      exact hf.toBlack
    · exact toList_plug_congr ctx (toList_join_congr rfl (toList_join_congr rfl rfl))
  | far hb' =>
    rw [hb.rootColor] at hb'
    subst hb'
    exact ⟨1, fixFarChild_inv h hT ha hb hf, hlt⟩
  | near hb' =>
    rw [hb.rootColor] at hb'
    subst hb'
    obtain ⟨_, ha1, ha2⟩ := ha.of_red
    have hf' := nearTurned_focused h
    have hi := fixFarChild_inv hf' hT ha1 (.join_red ha2 hb) hf
    rw [hf'.laid.nil, ← h.laid.nil, toList_fixNear] at hi
    exact ⟨1, hi, hlt⟩

section
variable (h : Focused t0 t (⟨s, c, x, u⟩ :: ctx) T)
include h

theorem Focused.sibling_ne (hu : u ≠ .nil) : ptr t.nil u ≠ ptr t.nil T := by
  obtain ⟨_, _, _, _, _, _, _, hne⟩ := h.laid.read
  by_cases hn : T = .nil
  · subst hn
    obtain ⟨_, _, _, _, _, hU, _⟩ := (represents_plug.mp h.laid.represents).1
    exact (ptr_ne_nil hU).mpr hu
  · exact hne hn

theorem Focused.side_eq (hu : u ≠ .nil) :
    (if ptr t.nil T = t.leftChild (t.parent (ptr t.nil T)) then Side.left else Side.right) = s := by
  obtain ⟨_, _, hs, ho, _, _, _, _⟩ := h.laid.read
  have hp : t.parent (ptr t.nil T) = x := h.parent
  rw [hp]
  simp only [eq_comm (a := ptr t.nil T)]
  exact sideOf_eq hs (by rw [ho]; exact h.sibling_ne hu)

theorem Focused.ne_root : ptr t.nil T ≠ t.root := by
  obtain ⟨hc, _, hn⟩ := represents_plug.mp h.laid.represents
  intro he
  exact ptr_not_mem hc.nil_not_mem (nodup_plug.mp hn).2.2 (he ▸ hc.root_mem (by simp))

end

theorem rbNodeFixDeleteBody_enter (hops : ops.Lawful) (h : Focused t0 t (⟨s, c, x, u⟩ :: ctx) T)
    (hT : T.rootColor = .black) (hu : u ≠ .nil)
    (hf : Filled ops t0 (plug (⟨s, c, x, u⟩ :: ctx) T).toList) :
    rbNodeFixDeleteBody ops (t, ptr t.nil T) =
      let st := t.fixRedSibling s (ptr t.nil T) (ptr t.nil u)
      pure (.inl (st.1.fixBlackSibling s (ptr t.nil T) st.2)) := by
  obtain ⟨_, _, _, ho, _, hcT, _, _⟩ := h.laid.read
  have hp := rbNodeAssertTreeInvariants_pass hops h.laid.represents
    (hf.congr h.laid.data h.laid.nil)
  have hs := h.side_eq hu
  have hpa : t.parent (ptr t.nil T) = x := h.parent
  rw [hpa] at hs
  unfold RbTree.rbNodeFixDeleteBody
  simp only [ne_eq, h.ne_root, not_false_eq_true, hcT, hT, and_self, if_true, hp, hpa, hs, ho]
  rfl

/-- What one turn of `_rbNodeFixDelete` does, by where its node `T` stands. -/
inductive FixDeleteTurn (t : RbTree E) :
    List (Frame Ptr) → ColorTree Ptr → (RbTree E × Ptr) ⊕ RbTree E → Prop
  | root {T : ColorTree Ptr} :
    FixDeleteTurn t [] T (.inr (t.setColor (ptr t.nil T) .black))
  | red {f : Frame Ptr} {ctx : List (Frame Ptr)} {T : ColorTree Ptr} (hT : T.rootColor = .red) :
    FixDeleteTurn t (f :: ctx) T (.inr (t.setColor (ptr t.nil T) .black))
  | blackSibling {s : Side} {c : Color} {x w : Ptr} {a b T : ColorTree Ptr}
    {ctx : List (Frame Ptr)} {st : RbTree E × Ptr} (hT : T.rootColor = .black)
    (h : SiblingTurn t s T x w a b st) :
    FixDeleteTurn t (⟨s, c, x, .join s .black a w b⟩ :: ctx) T (.inl st)
  | redSibling {s : Side} {x w w' : Ptr} {a e b T : ColorTree Ptr} {ctx : List (Frame Ptr)}
    {st : RbTree E × Ptr} (hT : T.rootColor = .black)
    (h : SiblingTurn (redTurned t s x w) s T x w' a e st) :
    FixDeleteTurn t (⟨s, .black, x, .join s .red (.join s .black a w' e) w b⟩ :: ctx) T (.inl st)

theorem rbNodeFixDeleteBody_turn (hops : ops.Lawful) (h : Focused t0 t ctx T)
    (hf : Fits ctx .black (n + 1)) (hfi : Filled ops t0 (plug ctx T).toList) :
    ∃ r, rbNodeFixDeleteBody ops (t, ptr t.nil T) = pure r ∧ FixDeleteTurn t ctx T r := by
  cases ctx with
  | nil =>
    have hr : t.root = ptr t.nil T := h.laid.represents.root
    exact ⟨_, by simp [rbNodeFixDeleteBody, hr], .root⟩
  | cons f ctx =>
    obtain ⟨s, c, x, u⟩ := f
    cases hc : T.rootColor with
    | red =>
      obtain ⟨_, _, _, _, _, hcT, _, _⟩ := h.laid.read
      exact ⟨_, by simp [rbNodeFixDeleteBody, hcT, hc], .red hc⟩
    | black =>
      obtain ⟨cu, hu, hcu, _⟩ := hf.parent
      cases cu with
      | black =>
        obtain ⟨a, w, b, ca, cb, rfl, ha, hb⟩ := hu.exists_black s
        refine ⟨_, rbNodeFixDeleteBody_enter hops h hc (by simp) hfi, .blackSibling hc ?_⟩
        rw [ptr_join, fixRedSibling_black h]
        exact fixBlackSibling_turn h ha hb
      | red =>
        have hcb : c = .black := by cases c <;> simp_all
        subst hcb
        obtain ⟨a, w, b, rfl, ha, _⟩ := hu.exists_red s
        obtain ⟨a1, w', a2, ca, cb, rfl, ha1, ha2⟩ := ha.exists_black s
        have hre := redTurned_focused h
        refine ⟨_, rbNodeFixDeleteBody_enter hops h hc (by simp) hfi, .redSibling hc ?_⟩
        rw [ptr_join, fixRedSibling_eq h, ptr_join, h.laid.nil, ← hre.laid.nil]
        exact fixBlackSibling_turn hre ha1 ha2

/-- **One turn of `_rbNodeFixDelete`.** -/
theorem rbNodeFixDeleteBody_spec (hops : ops.Lawful) {L} (hfi : Filled ops t0 L)
    {m st} (h : FixDeleteInv t0 L m st) :
    (∃ r, rbNodeFixDeleteBody ops st = pure (.inr r) ∧ Repaired t0 L r) ∨
      ∃ st' m', rbNodeFixDeleteBody ops st = pure (.inl st') ∧
        FixDeleteInv t0 L m' st' ∧ m' < m := by
  obtain ⟨t, node⟩ := st
  obtain ⟨ctx, T, n, rfl, hfo, hn, hT, hft, rfl⟩ := h
  dsimp only at hfo hn
  subst hn
  obtain ⟨r, hr, ht⟩ := rbNodeFixDeleteBody_turn hops hfo hft hfi
  cases ht with
  | root =>
    obtain ⟨k, hk⟩ := hT.blacken
    exact .inl ⟨_, hr, _, k, Laid.blacken [] hfo.laid, hk, toList_setRootColor _ _⟩
  | red hc =>
    obtain ⟨k, hk⟩ := hft.plug (hT.blacken_red hc)
    exact .inl ⟨_, hr, _, k, hfo.laid.blacken _, hk, toList_plug_congr _ (toList_setRootColor _ _)⟩
  | blackSibling hc hs =>
    obtain ⟨cu, hu, _, hf⟩ := hft.parent
    obtain ⟨rfl, ⟨ca, ha⟩, cb, hb⟩ := hu.of_black
    obtain ⟨m, hi, hm⟩ := hs.inv hfo (hT.of_black hc) ha hb hf
    refine .inr ⟨_, m, hr, hi, ?_⟩
    rw [if_pos hc, List.length_cons]
    split at hm <;> omega
  | redSibling hc hs =>
    obtain ⟨cu, hu, _, hf⟩ := hft.parent
    obtain ⟨rfl, ha, hb⟩ := hu.of_red
    obtain ⟨_, ⟨ca, ha1⟩, cb, ha2⟩ := ha.of_black
    -- The red sibling is turned up: the parent is red, so the next turn is the last.
    have hre := redTurned_focused hfo
    obtain ⟨m, hi, hm⟩ := hs.inv hre (hT.of_black hc) ha1 ha2 (.black hb hf)
    rw [toList_redSibling] at hi
    refine .inr ⟨_, m, hr, hi, ?_⟩
    rw [if_pos hc]
    simp only [List.length_cons, reduceCtorEq, if_false] at hm ⊢
    omega

/-- **`_rbNodeFixDelete` ends**, with a balanced tree of the same nodes in
order. -/
theorem rbNodeFixDelete_spec (hops : ops.Lawful) {L} (hf : Filled ops t0 L) {m node}
    (h : FixDeleteInv t0 L m (t, node)) :
    ∃ t', t.rbNodeFixDelete ops node = pure t' ∧ Repaired t0 L t' :=
  Exec.loop_variant (FixDeleteInv t0 L) (Repaired t0 L)
    (fun _ _ => rbNodeFixDeleteBody_spec hops hf) h

end Libparc.RedBlackNodes
