import Libparc.Algol.RedBlackRepair

/-! # Memory outside a tree

The nodes of several trees lie in one memory. An operation on one of the trees follows
links only where they lead to its own nodes or to its own `nil`, and so it writes
nothing else: what lies outside is as before (`Outside`), and the nodes the tree has
afterwards are its own or new ones (`Apart`).

The parent link of `nil` may lead anywhere: a removal sets it, and the node it leads to
may have been freed since. It is written before it is read. -/
namespace Libparc.RedBlackNodes
open Libparc.RedBlack ColorTree RbTree

variable {E K : Type} {ops : KeyOps E K} {t0 t t' t'' : RbTree E} {N : List Ptr}

/-- The fields of all nodes but `N` are the same in both memories. -/
def Outside (N : List Ptr) (t t' : RbTree E) : Prop := ∀ z ∉ N, SameAt t t' z

theorem Outside.refl (N : List Ptr) (t : RbTree E) : Outside N t t :=
  fun _ _ => ⟨fun _ => rfl, rfl, rfl⟩

theorem Outside.trans (h : Outside N t t') (h' : Outside N t' t'') : Outside N t t'' :=
  fun z hz => (h z hz).trans (h' z hz)

section
variable {p q : Ptr}

variable (h : Outside N t t')
include h

theorem Outside.setParent (hp : p ∈ N) : Outside N t (t'.setParent p q) :=
  h.trans fun _ hz => sameAt_setParent fun heq => hz (heq ▸ hp)

theorem Outside.setChild {s} (hp : p ∈ N) : Outside N t (t'.setChild s p q) :=
  h.trans fun _ hz => sameAt_setChild fun heq => hz (heq ▸ hp)

theorem Outside.setColor {c} (hp : p ∈ N) : Outside N t (t'.setColor p c) :=
  h.trans fun _ hz => sameAt_setColor fun heq => hz (heq ▸ hp)

theorem Outside.setRoot : Outside N t (t'.setRoot p) :=
  h.trans fun _ _ => ⟨fun s => child_setRoot _ s _ _, rfl, rfl⟩

theorem Outside.adopt (hp : p ∈ N) : Outside N t (t'.adopt p q) := by
  unfold RbTree.adopt
  split
  · exact h.setParent hp
  · exact h

theorem Outside.replaceChild {par} (hp : par ∈ N) : Outside N t (t'.replaceChild par p q) := by
  unfold RbTree.replaceChild
  split
  all_goals exact h.setChild hp

theorem Outside.replaceNode {par} (hp : par ∈ N) : Outside N t (t'.replaceNode par p q) := by
  unfold RbTree.replaceNode
  split
  · exact h.setRoot
  · exact h.replaceChild hp

end

/-- The nodes of the tree `T` and `nil` are among `N`. -/
structure Among (N : List Ptr) (t : RbTree E) (T : ColorTree Ptr) : Prop where
  nil : t.nil ∈ N
  nodes : ∀ p ∈ T.toList, p ∈ N

namespace Among
variable {T U : ColorTree Ptr} {ctx : List (Frame Ptr)}

theorem ptr (h : Among N t T) : ptr t.nil T ∈ N := by
  cases T with
  | nil => exact h.nil
  | node c l x r => exact h.nodes x (by simp [toList])

theorem label (ctx : List (Frame Ptr)) {s c a b x}
    (h : Among N t (plug ctx (.join s c a x b))) : x ∈ N := by
  refine h.nodes x ?_
  rw [toList_plug]
  simp [mem_toList_join]

theorem sub (h : Among N t (plug ctx T)) : Among N t T := by
  refine ⟨h.nil, fun p hp => h.nodes p ?_⟩
  rw [toList_plug]
  simp [hp]

theorem parentPtr (h : Among N t (plug ctx T)) : parentPtr t.nil ctx ∈ N := by
  cases ctx with
  | nil => exact h.nil
  | cons f ctx =>
    exact h.label ctx

section
variable {s c a b x} (ctx : List (Frame Ptr)) (h : Among N t (plug ctx (.join s c a x b)))
include h

theorem child : Among N t a := by
  rw [plug_child] at h
  exact h.sub

theorem sibling : Among N t b := by
  rw [plug_sibling] at h
  exact h.sub

end

theorem congr (h : Among N t T) (hn : t'.nil = t.nil) (hL : U.toList = T.toList) : Among N t' U :=
  ⟨hn ▸ h.nil, fun p hp => h.nodes p (hL ▸ hp)⟩

end Among

theorem among_self (t : RbTree E) (T : ColorTree Ptr) : Among (t.nil :: T.toList) t T :=
  ⟨List.mem_cons_self, fun _ => List.mem_cons_of_mem _⟩

/-- What an operation on the tree `T` leaves alone: all that is allocated and not of this
tree. The nodes of the tree afterwards, `T'`, are nodes it had or new ones. -/
structure Apart (t t' : RbTree E) (T T' : ColorTree Ptr) : Prop where
  nil : t'.nil = t.nil
  same : ∀ z ∈ t.live, z ≠ t.nil → z ∉ T.toList →
    SameAt t t' z ∧ t'.element z = t.element z ∧ z ∈ t'.live
  nodes : ∀ p ∈ T'.toList, p ∈ T.toList ∨ p ∉ t.live

theorem Apart.refl (t : RbTree E) (T : ColorTree Ptr) : Apart t t T T :=
  ⟨rfl, fun _ hz _ _ => ⟨⟨fun _ => rfl, rfl, rfl⟩, rfl, hz⟩, fun _ => .inl⟩

/-! ## The repairs -/

section
variable {s s' : Side} {c d : Color} {x y w p g : Ptr} {a b e u T : ColorTree Ptr}
  {ctx : List (Frame Ptr)}

theorem Represents.rotate_outside (h : Represents t (plug ctx (.join s c a x (.join s d b y e))))
    (hN : Among N t (plug ctx (.join s c a x (.join s d b y e)))) : Outside N t (t.rotate s x) := by
  obtain ⟨hc, hr, hn⟩ := represents_plug.mp h
  have hF := (nodup_plug.mp hn).1
  simp only [rep_join, ptr_join] at hr
  obtain ⟨hx, _, hpx, _, hrx, _, _, _, _, hly, _, _, _⟩ := hr
  simp only [nodup_join, mem_toList_join, not_or] at hF
  have hy : Among N t (.join s d b y e) := hN.sibling ctx
  rw [rotate_eq hrx hly hpx (ne_ptr hx hF.2.2.2.1.1)]
  have h1 := ((Outside.refl N t).setChild (s := s.other) (q := ptr t.nil b) (hN.label ctx)).adopt
    (q := x) (hy.child []).ptr
  have h2 := (h1.setParent (q := parentPtr t.nil ctx) (hy.label [])).replaceNode
    (p := x) (q := y) hN.parentPtr
  exact (h2.setChild (hy.label [])).setParent (hN.label ctx)

theorem Laid.rotate_outside (h : Laid t0 t (plug ctx (.join s c a x (.join s d b y e))))
    (hN : Among N t (plug ctx (.join s c a x (.join s d b y e)))) : Outside N t (t.rotate s x) :=
  h.represents.rotate_outside hN

theorem Laid.rotate_other_outside (h : Laid t0 t (plug ctx (.join s c (.join s d e y b) x a)))
    (hN : Among N t (plug ctx (.join s c (.join s d e y b) x a))) :
    Outside N t (t.rotate s.other x) := by
  simp only [← join_other s] at h hN
  exact h.rotate_outside hN

theorem Laid.fix_outer_outside
    (h : Laid t0 t (plug (⟨s, .red, p, u⟩ :: ⟨s, .black, g, a⟩ :: ctx) T))
    (hN : Among N t (plug (⟨s, .red, p, u⟩ :: ⟨s, .black, g, a⟩ :: ctx) T)) :
    Outside N t (((t.setColor p .black).setColor g .red).rotate s.other g) := by
  have hp : p ∈ N := hN.label (⟨s, .black, g, a⟩ :: ctx) (s := s) (a := T)
  have hg : g ∈ N := hN.label ctx (s := s) (a := .join s .red T p u)
  have h2 := Laid.setColor ctx (Laid.setColor (⟨s, .black, g, a⟩ :: ctx) h .black) .red
  refine (((Outside.refl N t).setColor hp).setColor hg).trans
    (h2.rotate_other_outside (hN.congr rfl ?_))
  exact toList_plug_congr ctx (toList_join_congr (toList_join_congr rfl rfl) rfl)

theorem Laid.rotate_inner_outside
    (h : Laid t0 t (plug (⟨s.other, c, p, u⟩ :: ctx) (.join s .red a x b)))
    (hN : Among N t (plug (⟨s.other, c, p, u⟩ :: ctx) (.join s .red a x b))) :
    Outside N t (t.rotate s p) := by
  rw [plug_cons, Frame.plug, join_other] at h hN
  exact h.rotate_outside hN

theorem FixTurn.outside {r} (ht : FixTurn t ctx T r)
    (h : Laid t0 t (plug ctx T)) (hN : Among N t (plug ctx T)) :
    Outside N t (r.elim Prod.fst id) := by
  have hr := Outside.refl N t
  have hro : t.root ∈ N := by
    rw [h.represents.root]
    exact hN.ptr
  cases ht with
  | root | blackParent => exact hr.setColor hro
  | @recolor s s' p g u w T ctx hw =>
    have hp : p ∈ N := hN.label (⟨s', .black, g, w⟩ :: ctx) (s := s) (a := T)
    have hg : g ∈ N := hN.label ctx (s := s') (a := .join s .red T p u)
    have hw : Among N t w := hN.sibling ctx (s := s') (a := .join s .red T p u)
    exact ((hr.setColor hp).setColor hw.ptr).setColor hg
  | outer hw => exact h.fix_outer_outside hN
  | @inner s p g x u w a b ctx hw =>
    have hN' := hN.congr (nil_rotate t s p)
      (toList_rotate_inner s p x u a b (⟨s, .black, g, w⟩ :: ctx))
    exact (h.rotate_inner_outside hN).trans (h.rotate_inner.fix_outer_outside hN')

theorem redTurned_outside (h : Laid t0 t (plug (⟨s, .black, x, .join s .red a w b⟩ :: ctx) T))
    (hN : Among N t (plug (⟨s, .black, x, .join s .red a w b⟩ :: ctx) T)) :
    Outside N t (redTurned t s x w) := by
  have hx : x ∈ N := hN.label ctx (s := s) (a := T)
  have hw : w ∈ N := (hN.sibling ctx (s := s) (a := T)).label []
  have h2 := Laid.setColor ctx (Laid.setColor_sibling ctx h .black) .red
  refine (((Outside.refl N t).setColor hw).setColor hx).trans (h2.rotate_outside (hN.congr rfl ?_))
  exact toList_plug_congr ctx (toList_join_congr rfl (toList_join_congr rfl rfl))

theorem nearTurned_outside
    (h : Laid t0 t (plug (⟨s, c, x, .join s .black (.join s .red a y e) w b⟩ :: ctx) T))
    (hN : Among N t (plug (⟨s, c, x, .join s .black (.join s .red a y e) w b⟩ :: ctx) T)) :
    Outside N t (nearTurned t s w y) := by
  have hs := hN.sibling ctx (s := s) (a := T)
  have hw : w ∈ N := hs.label []
  have hy : y ∈ N := hs.label [⟨s, .black, w, b⟩] (s := s)
  refine (((Outside.refl N t).setColor hy).setColor hw).trans
    ((nearTurned_laid h).rotate_other_outside (hN.congr rfl ?_))
  rw [plug_cons, plug_cons, Frame.plug, Frame.plug, join_other]
  exact toList_plug_congr ctx (toList_join_congr rfl
    (toList_join_congr (toList_join_congr rfl rfl) rfl))

theorem fixFarChild_outside (h : Focused t0 t (⟨s, c, x, .join s .black a w b⟩ :: ctx) T)
    (hN : Among N t (plug (⟨s, c, x, .join s .black a w b⟩ :: ctx) T)) :
    Outside N t (t.fixFarChild s (ptr t.nil T) w) := by
  obtain ⟨hp, hc, _, _, _, ho, _, _⟩ := h.read
  have hs := hN.sibling ctx (s := s) (a := T)
  have hx : x ∈ N := hN.label ctx (s := s) (a := T)
  have h3 := Laid.blacken_far (Laid.setColor ctx (Laid.setColor_sibling ctx h.laid c) .black)
  have hou := (((Outside.refl N t).setColor (c := c) (hs.label [])).setColor (c := .black)
    hx).setColor (c := .black) (hs.sibling []).ptr
  simp only [fixFarChild, hp, hc, parent_setColor, child_setColor, ho]
  refine hou.trans (h3.rotate_outside (hN.congr rfl ?_))
  exact toList_plug_congr ctx (toList_join_congr rfl
    (toList_join_congr rfl (toList_setRootColor _ _)))

theorem SiblingTurn.outside {st} (ht : SiblingTurn t s T x w a b st)
    (h : Focused t0 t (⟨s, c, x, .join s .black a w b⟩ :: ctx) T)
    (hN : Among N t (plug (⟨s, c, x, .join s .black a w b⟩ :: ctx) T)) : Outside N t st.1 := by
  cases ht with
  | recolor => exact (Outside.refl N t).setColor ((hN.sibling ctx (s := s) (a := T)).label [])
  | far => exact fixFarChild_outside h hN
  | @near a e b y hb =>
    have hf := nearTurned_focused h
    have hn : (nearTurned t s w y).nil = t.nil := hf.laid.nil.trans h.laid.nil.symm
    have hfa := fixFarChild_outside hf (hN.congr hn (toList_fixNear s c x y w T a e b ctx))
    rw [hn] at hfa
    exact (nearTurned_outside h.laid hN).trans hfa

theorem FixDeleteTurn.outside {r} (ht : FixDeleteTurn t ctx T r)
    (h : Focused t0 t ctx T) (hN : Among N t (plug ctx T)) : Outside N t (r.elim Prod.fst id) := by
  cases ht with
  | root | red => exact (Outside.refl N t).setColor hN.sub.ptr
  | blackSibling hT hs => exact hs.outside h hN
  | @redSibling s x w w' a e b T ctx st hT hs =>
    have hf := redTurned_focused h
    have hn : (redTurned t s x w).nil = t.nil := hf.laid.nil.trans h.laid.nil.symm
    exact (redTurned_outside h.laid hN).trans
      (hs.outside hf (hN.congr hn (toList_redSibling s x w T _ b ctx)))

end

/-! ## Relinking -/

section
variable {s : Side} {c : Color} {x y : Ptr} {l r Q : ColorTree Ptr} {ctx : List (Frame Ptr)}

theorem Represents.moveUp_outside (h : Represents t (plug ctx (.join s c .nil x Q)))
    (hN : Among N t (plug ctx (.join s c .nil x Q))) : Outside N t (t.moveUp x (ptr t.nil Q)) := by
  obtain ⟨_, _, hp, _, _, _, _⟩ := rep_join.mp (represents_plug.mp h).2.1
  unfold RbTree.moveUp
  rw [hp]
  exact ((Outside.refl N t).replaceNode hN.parentPtr).setParent (hN.sibling ctx).ptr

theorem Represents.substitute_outside (h : Represents t (plug ctx (.join .left c l x r)))
    (hy : y ≠ t.nil) (hyT : y ∉ (plug ctx (.join .left c l x r)).toList)
    (hN : Among N t (plug ctx (.join .left c l x r))) (hyN : y ∈ N) :
    Outside N t (t.substitute x y) := by
  have hl : ptr t.nil l ∈ N := (hN.child ctx).ptr
  have hr : ptr t.nil r ∈ N := (hN.sibling ctx).ptr
  rw [h.substitute_eq hy hyT]
  exact ((((((Outside.refl N t).replaceNode hN.parentPtr).setParent hyN).setChild hyN).setParent
    hl).setChild hyN).setParent hr |>.setColor hyN

theorem Outside.attach {z par key} (h : Outside N t t') (hz : z ∈ N) (hp : par ∈ N) :
    Outside N t (t'.attach ops z par key) := by
  have hs : Outside N t (t'.setParent z par) := h.setParent hz
  simp only [RbTree.attach]
  split_ifs
  · exact hs.setRoot
  all_goals exact hs.setChild hp

end

/-! ## The loops -/

variable {L : List Ptr} {m : Nat} {node : Ptr}

theorem loop_outside {body : RbTree E × Ptr → Prog ((RbTree E × Ptr) ⊕ RbTree E)}
    {Post : RbTree E → Prop} (Inv : Nat → RbTree E × Ptr → Prop)
    (hs : ∀ m st, Inv m st → (∃ r, body st = pure (.inr r) ∧ Post r) ∨
      ∃ st' m', body st = pure (.inl st') ∧ Inv m' st' ∧ m' < m)
    (ht : ∀ m st r, Inv m st → body st = pure r → Outside N st.1 (r.elim Prod.fst id))
    (h : Inv m (t, node)) (hr : Exec.loop body (t, node) = pure t') : Outside N t t' := by
  refine Exec.loop_invariant (fun st => (∃ m, Inv m st) ∧ Outside N t st.1) (Outside N t) ?_
    ⟨⟨m, h⟩, Outside.refl N t⟩ hr
  intro st r ⟨⟨m, hi⟩, ho⟩ hb
  have hst := ho.trans (ht m st r hi hb)
  obtain ⟨r', hd, -⟩ | ⟨st', m', hn, hi', -⟩ := hs m st hi
  · cases hb.symm.trans hd
    exact hst
  · cases hb.symm.trans hn
    exact ⟨⟨m', hi'⟩, hst⟩

/-- **`_rbNodeFix`** writes to nodes of the tree. -/
theorem rbNodeFix_outside (h : FixInv t0 L m (t, node)) (hn : t0.nil ∈ N)
    (hL : ∀ p ∈ L, p ∈ N) (hru : t.rbNodeFix node = pure t') : Outside N t t' := by
  refine loop_outside (FixInv t0 L) (fun _ _ => rbNodeFixBody_spec) ?_ h hru
  intro m ⟨t1, node1⟩ r ⟨ctx, T, n, _, hl, hno, hT, hf, hli⟩ hb
  dsimp only at hl hno
  subst hno hli
  obtain ⟨r', hb', ht⟩ := rbNodeFixBody_turn hl hT hf
  cases hb.symm.trans hb'
  exact ht.outside hl ⟨hl.nil ▸ hn, hL⟩

/-- **`_rbNodeFixDelete`** writes to nodes of the tree and to `nil`. -/
theorem rbNodeFixDelete_outside (hops : ops.Lawful) (hf : Filled ops t0 L)
    (h : FixDeleteInv t0 L m (t, node)) (hn : t0.nil ∈ N) (hL : ∀ p ∈ L, p ∈ N)
    (hru : t.rbNodeFixDelete ops node = pure t') : Outside N t t' := by
  refine loop_outside (FixDeleteInv t0 L) (fun _ _ => rbNodeFixDeleteBody_spec hops hf) ?_ h hru
  intro m ⟨t1, node1⟩ r ⟨ctx, T, n, _, hfo, hno, hT, hfi, hl⟩ hb
  dsimp only at hfo hno
  subst hno hl
  obtain ⟨r', hb', ht⟩ := rbNodeFixDeleteBody_turn hops hfo hfi hf
  cases hb.symm.trans hb'
  exact ht.outside hfo ⟨hfo.laid.nil ▸ hn, hL⟩

end Libparc.RedBlackNodes
