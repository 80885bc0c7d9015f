import Libparc.Algol.RedBlackNodes

/-! # What a tree of nodes looks like in memory

`Represents t T` says that the nodes reachable from the root of `t` are the
coloured tree `T` of addresses: child links, parent links and colours. A tree
is taken apart into a subtree and its context (`represents_plug`), and each
pointer operation of the source is then a change of the subtree alone:
`recolor`, `rotate`, `moveUp`, `substitute` and `attach`. -/
namespace Libparc.RedBlackNodes
open Libparc.RedBlack RbTree ColorTree Function

variable {E : Type} {t : RbTree E}

namespace RbTree

variable (t) (s s' : Side) (p q r : Ptr) (c : Color)

@[simp] theorem leftChild_eq : t.leftChild p = t.child .left p := rfl
@[simp] theorem rightChild_eq : t.rightChild p = t.child .right p := rfl

theorem child_setChild :
    (t.setChild s p q).child s' r = if s' = s ∧ r = p then q else t.child s' r := by
  cases s <;> cases s' <;> simp [setChild, child, update_apply, -leftChild_eq, -rightChild_eq]

@[simp] theorem child_setChild_self : (t.setChild s p q).child s p = q := by simp [child_setChild]

@[simp] theorem child_setChild_other :
    (t.setChild s p q).child s.other r = t.child s.other r := by simp [child_setChild]

@[simp] theorem child_setChild_other' : (t.setChild s.other p q).child s r = t.child s r := by
  simp [child_setChild, Ne.symm (Side.other_ne s)]

theorem child_setChild_of_ne {p q r} (h : r ≠ p) :
    (t.setChild s p q).child s' r = t.child s' r := by simp [child_setChild, h]

@[simp] theorem child_setParent : (t.setParent p q).child s r = t.child s r := by cases s <;> rfl

@[simp] theorem child_setColor : (t.setColor p c).child s r = t.child s r := by cases s <;> rfl

@[simp] theorem child_setRoot : (t.setRoot p).child s r = t.child s r := by cases s <;> rfl

@[simp] theorem parent_setChild : (t.setChild s p q).parent = t.parent := by cases s <;> rfl

theorem parent_setParent : (t.setParent p q).parent r = if r = p then q else t.parent r := by
  simp [setParent, update_apply]

@[simp] theorem parent_setParent_self : (t.setParent p q).parent p = q := by simp [parent_setParent]

theorem parent_setParent_of_ne {p q r} (h : r ≠ p) :
    (t.setParent p q).parent r = t.parent r := by simp [parent_setParent, h]

@[simp] theorem parent_setColor : (t.setColor p c).parent = t.parent := rfl
@[simp] theorem parent_setRoot : (t.setRoot p).parent = t.parent := rfl

@[simp] theorem color_setChild : (t.setChild s p q).color = t.color := by cases s <;> rfl
@[simp] theorem color_setParent : (t.setParent p q).color = t.color := rfl
@[simp] theorem color_setRoot : (t.setRoot p).color = t.color := rfl

theorem color_setColor : (t.setColor p c).color r = if r = p then c else t.color r := by
  simp [setColor, update_apply]

@[simp] theorem color_setColor_self : (t.setColor p c).color p = c := by simp [color_setColor]

theorem color_setColor_of_ne {p r c} (h : r ≠ p) :
    (t.setColor p c).color r = t.color r := by simp [color_setColor, h]

@[simp] theorem nil_setChild : (t.setChild s p q).nil = t.nil := by cases s <;> rfl
@[simp] theorem nil_setParent : (t.setParent p q).nil = t.nil := rfl
@[simp] theorem nil_setColor : (t.setColor p c).nil = t.nil := rfl
@[simp] theorem nil_setRoot : (t.setRoot p).nil = t.nil := rfl

@[simp] theorem root_setChild : (t.setChild s p q).root = t.root := by cases s <;> rfl
@[simp] theorem root_setParent : (t.setParent p q).root = t.root := rfl
@[simp] theorem root_setColor : (t.setColor p c).root = t.root := rfl
@[simp] theorem root_setRoot : (t.setRoot p).root = p := rfl

@[simp] theorem child_adopt :
    (t.adopt p q).child s r = t.child s r := by unfold adopt; split <;> simp

@[simp] theorem color_adopt : (t.adopt p q).color = t.color := by
  unfold adopt; split <;> rfl

@[simp] theorem nil_adopt : (t.adopt p q).nil = t.nil := by
  unfold adopt; split <;> rfl

theorem parent_adopt_of_ne {p q r} (h : r ≠ p) : (t.adopt p q).parent r = t.parent r := by
  unfold adopt; split <;> simp [parent_setParent, h]

@[simp] theorem parent_adopt_nil : (t.adopt p q).parent t.nil = t.parent t.nil := by
  unfold adopt; split
  · exact parent_setParent_of_ne t (Ne.symm ‹_›)
  · rfl

/-- What no relinking or recolouring changes. -/
def data (t : RbTree E) : (Ptr → Option E) × Int × List Ptr := (t.element, t.size, t.live)

@[simp] theorem data_setChild : (t.setChild s p q).data = t.data := by cases s <;> rfl
@[simp] theorem data_setParent : (t.setParent p q).data = t.data := rfl
@[simp] theorem data_setColor : (t.setColor p c).data = t.data := rfl
@[simp] theorem data_setRoot : (t.setRoot p).data = t.data := rfl

@[simp] theorem data_adopt : (t.adopt p q).data = t.data := by
  unfold adopt; split <;> rfl

@[simp] theorem data_replaceNode (par p q : Ptr) : (t.replaceNode par p q).data = t.data := by
  unfold replaceNode replaceChild
  split_ifs <;> simp

theorem child_replaceNode_of_ne {par p q r} (h : r ≠ par) :
    (t.replaceNode par p q).child s r = t.child s r := by
  unfold replaceNode replaceChild
  split_ifs <;> simp [child_setChild_of_ne, h]

@[simp] theorem parent_replaceNode (par p q : Ptr) : (t.replaceNode par p q).parent = t.parent := by
  unfold replaceNode replaceChild
  split_ifs <;> simp

@[simp] theorem color_replaceNode (par p q : Ptr) : (t.replaceNode par p q).color = t.color := by
  unfold replaceNode replaceChild
  split_ifs <;> simp

@[simp] theorem nil_replaceNode (par p q : Ptr) : (t.replaceNode par p q).nil = t.nil := by
  unfold replaceNode replaceChild
  split_ifs <;> simp

end RbTree

/-! ## The representation -/

/-- The address of a tree's root node. -/
def ptr (nil : Ptr) : ColorTree Ptr → Ptr
  | .nil => nil
  | .node _ _ x _ => x

@[simp] theorem ptr_nil (nil : Ptr) : ptr nil .nil = nil := rfl

@[simp] theorem ptr_node (nil : Ptr) (c : Color) (l : ColorTree Ptr) (x : Ptr) (r : ColorTree Ptr) :
    ptr nil (.node c l x r) = x := rfl

@[simp] theorem ptr_join (nil : Ptr) (s : Side) (c : Color) (a : ColorTree Ptr) (x : Ptr)
    (b : ColorTree Ptr) : ptr nil (.join s c a x b) = x := by cases s <;> rfl

/-- The address of the parent of a context's hole. -/
def parentPtr (nil : Ptr) : List (Frame Ptr) → Ptr
  | [] => nil
  | f :: _ => f.label

/-- The nodes of a tree lie in memory, under the parent `par`. -/
def Rep (t : RbTree E) : ColorTree Ptr → Ptr → Prop
  | .nil, _ => True
  | .node c l x r, par => x ≠ t.nil ∧ t.color x = c ∧ t.parent x = par ∧
      t.child .left x = ptr t.nil l ∧ t.child .right x = ptr t.nil r ∧ Rep t l x ∧ Rep t r x

/-- The nodes of a context lie in memory, with the address `p` in its hole. -/
def RepCtx (t : RbTree E) : List (Frame Ptr) → Ptr → Prop
  | [], p => t.root = p
  | f :: ctx, p => f.label ≠ t.nil ∧ t.color f.label = f.color ∧
      t.parent f.label = parentPtr t.nil ctx ∧ t.child f.side f.label = p ∧
      t.child f.side.other f.label = ptr t.nil f.sibling ∧ Rep t f.sibling f.label ∧
      RepCtx t ctx f.label

structure Represents (t : RbTree E) (T : ColorTree Ptr) : Prop where
  root : t.root = ptr t.nil T
  rep : Rep t T t.nil
  nodup : T.toList.Nodup

variable {x par a p q r nil y : Ptr} {c : Color} {s : Side} {T : ColorTree Ptr}
  {ctx : List (Frame Ptr)} {f : Frame Ptr}

theorem rep_join {a b} :
    Rep t (.join s c a x b) par ↔ x ≠ t.nil ∧ t.color x = c ∧ t.parent x = par ∧
      t.child s x = ptr t.nil a ∧ t.child s.other x = ptr t.nil b ∧ Rep t a x ∧ Rep t b x := by
  cases s
  · exact Iff.rfl
  · simp only [join, Rep, Side.other]
    tauto

theorem Rep.ne_nil (h : Rep t T par) (ha : a ∈ T.toList) : a ≠ t.nil := by
  induction T generalizing par with
  | nil => cases ha
  | node c l x r ihl ihr =>
    obtain ⟨hx, _, _, _, _, hl, hr⟩ := h
    simp only [toList, List.mem_append, List.mem_cons] at ha
    rcases ha with ha | rfl | ha
    · exact ihl hl ha
    · exact hx
    · exact ihr hr ha

theorem Rep.nil_not_mem (h : Rep t T par) : t.nil ∉ T.toList := fun hm => h.ne_nil hm rfl

theorem RepCtx.ne_nil (h : RepCtx t ctx p) (ha : a ∈ ctxLabels ctx) : a ≠ t.nil := by
  induction ctx generalizing p with
  | nil => cases ha
  | cons f ctx ih =>
    obtain ⟨hx, _, _, _, _, hu, hc⟩ := h
    rcases mem_ctxLabels_cons.mp ha with rfl | ha | ha
    · exact hx
    · exact hu.ne_nil ha
    · exact ih hc ha

theorem RepCtx.nil_not_mem (h : RepCtx t ctx p) : t.nil ∉ ctxLabels ctx := fun hm => h.ne_nil hm rfl

theorem RepCtx.root_mem (h : RepCtx t ctx p) (hne : ctx ≠ []) : t.root ∈ ctxLabels ctx := by
  induction ctx generalizing p with
  | nil => exact absurd rfl hne
  | cons f ctx ih =>
    obtain ⟨_, _, _, _, _, _, hc⟩ := h
    rw [mem_ctxLabels_cons]
    by_cases hct : ctx = []
    · subst hct
      exact .inl hc
    · exact .inr (.inr (ih hc hct))

theorem represents_plug :
    Represents t (plug ctx T) ↔ RepCtx t ctx (ptr t.nil T) ∧ Rep t T (parentPtr t.nil ctx) ∧
      (plug ctx T).toList.Nodup := by
  induction ctx generalizing T with
  | nil => exact ⟨fun h => ⟨h.root, h.rep, h.nodup⟩, fun ⟨hr, h, hn⟩ => ⟨hr, h, hn⟩⟩
  | cons f ctx ih =>
    rw [plug_cons, ih]
    simp only [Frame.plug, ptr_join, rep_join, RepCtx, parentPtr]
    tauto

theorem Represents.parts (h : Represents t (plug ctx T)) :
    RepCtx t ctx (ptr t.nil T) ∧ Rep t T (parentPtr t.nil ctx) ∧ T.toList.Nodup ∧
      (ctxLabels ctx).Nodup ∧ (∀ a ∈ T.toList, a ∉ ctxLabels ctx) ∧ t.nil ∉ ctxLabels ctx ∧
      parentPtr t.nil ctx ∉ T.toList := by
  obtain ⟨hc, hr, hn⟩ := represents_plug.mp h
  obtain ⟨hT, hcn, hd⟩ := nodup_plug.mp hn
  refine ⟨hc, hr, hT, hcn, hd, hc.nil_not_mem, ?_⟩
  cases ctx with
  | nil => exact hr.nil_not_mem
  | cons f ctx => exact fun hm => hd _ hm (mem_ctxLabels_cons.mpr (.inl rfl))

/-- The fields of the node `a` are the same in both memories. -/
def SameAt (t t' : RbTree E) (a : Ptr) : Prop :=
  (∀ s, t'.child s a = t.child s a) ∧ t'.parent a = t.parent a ∧ t'.color a = t.color a

theorem Rep.frame {t'} (h : Rep t T par) (hn : t'.nil = t.nil)
    (hs : ∀ a ∈ T.toList, SameAt t t' a) : Rep t' T par := by
  induction T generalizing par with
  | nil => trivial
  | node c l x r ihl ihr =>
    obtain ⟨hx, hc, hp, hl, hr, hL, hR⟩ := h
    obtain ⟨hch, hpa, hco⟩ := hs x (by simp [toList])
    refine ⟨hn ▸ hx, hco.trans hc, hpa.trans hp, ?_, ?_, ?_, ?_⟩
    · rw [hch, hl, hn]
    · rw [hch, hr, hn]
    · exact ihl hL fun a ha => hs a (by simp [toList, ha])
    · exact ihr hR fun a ha => hs a (by simp [toList, ha])

theorem RepCtx.frame {t'} (h : RepCtx t ctx p) (hn : t'.nil = t.nil)
    (hro : t'.root = t.root) (hs : ∀ a ∈ ctxLabels ctx, SameAt t t' a) : RepCtx t' ctx p := by
  induction ctx generalizing p with
  | nil => exact hro.trans h
  | cons f ctx ih =>
    obtain ⟨hx, hc, hp, hl, hr, hu, hC⟩ := h
    obtain ⟨hch, hpa, hco⟩ := hs f.label (mem_ctxLabels_cons.mpr (.inl rfl))
    refine ⟨hn ▸ hx, hco.trans hc, ?_, (hch _).trans hl, ?_, ?_, ?_⟩
    · rw [hpa, hp, hn]
    · rw [hch, hr, hn]
    · exact hu.frame hn fun a ha => hs a (mem_ctxLabels_cons.mpr (.inr (.inl ha)))
    · exact ih hC fun a ha => hs a (mem_ctxLabels_cons.mpr (.inr (.inr ha)))

/-! ## Writes outside a tree -/

theorem sameAt_setParent (h : a ≠ p) : SameAt t (t.setParent p q) a :=
  ⟨fun s => by simp, parent_setParent_of_ne t h, rfl⟩

theorem sameAt_setChild (h : a ≠ p) : SameAt t (t.setChild s p q) a :=
  ⟨fun s' => child_setChild_of_ne t s s' h, by simp, by simp⟩

theorem sameAt_setColor (h : a ≠ p) : SameAt t (t.setColor p c) a :=
  ⟨fun s => by simp, rfl, color_setColor_of_ne t h⟩

theorem SameAt.trans {t1 t2 t3 : RbTree E} (h : SameAt t1 t2 a) (h' : SameAt t2 t3 a) :
    SameAt t1 t3 a :=
  ⟨fun s => (h'.1 s).trans (h.1 s), h'.2.1.trans h.2.1, h'.2.2.trans h.2.2⟩

theorem ne_of_mem_of_not_mem' {l : List Ptr} (ha : a ∈ l) (hx : x ∉ l) : a ≠ x :=
  fun h => hx (h ▸ ha)

section
variable (h : Rep t T par) (hp : p ∉ T.toList)
include h hp

theorem Rep.setParent : Rep (t.setParent p q) T par :=
  h.frame rfl fun _ ha => sameAt_setParent (ne_of_mem_of_not_mem' ha hp)

theorem Rep.setChild : Rep (t.setChild s p q) T par :=
  h.frame (by simp) fun _ ha => sameAt_setChild (ne_of_mem_of_not_mem' ha hp)

theorem Rep.setColor : Rep (t.setColor p c) T par :=
  h.frame rfl fun _ ha => sameAt_setColor (ne_of_mem_of_not_mem' ha hp)

end

section
variable (h : RepCtx t ctx r) (hp : p ∉ ctxLabels ctx)
include h hp

theorem RepCtx.setParent : RepCtx (t.setParent p q) ctx r :=
  h.frame rfl rfl fun _ ha => sameAt_setParent (ne_of_mem_of_not_mem' ha hp)

theorem RepCtx.setChild : RepCtx (t.setChild s p q) ctx r :=
  h.frame (by simp) (by simp) fun _ ha => sameAt_setChild (ne_of_mem_of_not_mem' ha hp)

theorem RepCtx.setColor : RepCtx (t.setColor p c) ctx r :=
  h.frame rfl rfl fun _ ha => sameAt_setColor (ne_of_mem_of_not_mem' ha hp)

end

theorem Rep.adopt (h : Rep t T par) (hp : p ∉ T.toList) : Rep (t.adopt p q) T par := by
  unfold RbTree.adopt; split
  · exact h.setParent hp
  · exact h

theorem RepCtx.adopt (h : RepCtx t ctx r) (hp : p ∉ ctxLabels ctx) :
    RepCtx (t.adopt p q) ctx r := by
  unfold RbTree.adopt; split
  · exact h.setParent hp
  · exact h

theorem Rep.replaceNode (h : Rep t T r) (hp : par ∉ T.toList) : Rep (t.replaceNode par p q) T r :=
  h.frame (by simp) fun _ ha =>
    ⟨fun s => child_replaceNode_of_ne t s (ne_of_mem_of_not_mem' ha hp), by simp, by simp⟩

section
variable (h : Rep t T par) (hn : T.toList.Nodup) (par' : Ptr)
include h hn

theorem Rep.reparent : Rep (t.setParent (ptr t.nil T) par') T par' := by
  cases T with
  | nil => trivial
  | node c l x r =>
    obtain ⟨hx, hc, _, hl, hr, hL, hR⟩ := h
    obtain ⟨_, _, hxl, hxr, _⟩ := (nodup_join (s := .left)).mp hn
    refine ⟨hx, hc, by simp, by simpa using hl, by simpa using hr, ?_, ?_⟩
    · exact hL.setParent hxl
    · exact hR.setParent hxr

theorem Rep.reparent_adopt : Rep (t.adopt (ptr t.nil T) par') T par' := by
  unfold RbTree.adopt; split
  · exact h.reparent hn _
  · cases T with
    | nil => trivial
    | node c l x r => exact absurd h.1 ‹_›

end

theorem ptr_not_mem {L : List Ptr} (hn : nil ∉ L) (hd : ∀ a ∈ T.toList, a ∉ L) : ptr nil T ∉ L := by
  cases T with
  | nil => exact hn
  | node c l x r => exact hd x (by simp [toList])

/-! ## Rotation -/

theorem RbTree.replaceChild_eq (hs : t.child s par = x) (ho : t.child s.other par ≠ x) :
    t.replaceChild par x q = t.setChild s par q := by
  cases s
  · exact if_pos hs
  · exact if_neg ho

theorem RepCtx.setChild_parent (h : RepCtx t (f :: ctx) x) (hn : (ctxLabels (f :: ctx)).Nodup) :
    RepCtx (t.setChild f.side f.label q) (f :: ctx) q := by
  obtain ⟨hf, hc, hp, hs, ho, hu, hct⟩ := h
  obtain ⟨_, hfu, _, hfc, _⟩ := nodup_ctxLabels_cons.mp hn
  refine ⟨by simpa using hf, by simpa using hc, by simpa using hp, by simp, ?_, ?_, ?_⟩
  · simpa using ho
  · exact hu.setChild hfu
  · exact hct.setChild hfc

theorem RepCtx.replaceChild (h : RepCtx t (f :: ctx) x) (hx : x ≠ t.nil)
    (hxc : x ∉ ctxLabels (f :: ctx)) (hn : (ctxLabels (f :: ctx)).Nodup) :
    RepCtx (t.replaceChild f.label x q) (f :: ctx) q := by
  have hs : t.child f.side.other f.label ≠ x := by
    obtain ⟨_, _, _, _, ho, _, _⟩ := h
    rw [ho]
    intro he
    cases hu : f.sibling with
    | nil => exact hx (by rw [← he, hu]; rfl)
    | node c l y r =>
      refine hxc (mem_ctxLabels_cons.mpr (.inr (.inl ?_)))
      rw [← he, hu]
      simp [toList]
  rw [replaceChild_eq h.2.2.2.1 hs]
  exact h.setChild_parent hn

theorem RepCtx.replaceNode (h : RepCtx t ctx x) (hx : x ≠ t.nil) (hxc : x ∉ ctxLabels ctx)
    (hn : (ctxLabels ctx).Nodup) : RepCtx (t.replaceNode (parentPtr t.nil ctx) x q) ctx q := by
  unfold RbTree.replaceNode
  cases ctx with
  | nil =>
    rw [if_pos (show t.root = x from h)]
    rfl
  | cons f ctx =>
    have hr : t.root ≠ x := fun he => hxc (he ▸ h.root_mem (by simp))
    rw [if_neg hr]
    exact h.replaceChild hx hxc hn

theorem ne_ptr (hx : x ≠ nil) (hxT : x ∉ T.toList) : x ≠ ptr nil T := by
  cases T with
  | nil => exact hx
  | node c l y r =>
    rintro rfl
    exact hxT (by simp [toList])

theorem RbTree.rotate_eq {b} (hy : t.child s.other x = y) (hb : t.child s y = b)
    (hp : t.parent x = par) (hxb : x ≠ b) :
    t.rotate s x = (((((t.setChild s.other x b).adopt b x).setParent y par).replaceNode
      par x y).setChild s y x).setParent x y := by
  simp only [rotate, hy, hb, child_setChild_self, parent_adopt_of_ne _ hxb,
    parent_setChild, hp, parent_setParent_self]

/-- **A rotation turns the subtree under its context**, and keeps the colours. -/
theorem Represents.rotate {d a b e}
    (h : Represents t (plug ctx (.join s c a x (.join s d b y e)))) :
    Represents (t.rotate s x) (plug ctx (.join s d (.join s c a x b) y e)) := by
  obtain ⟨hc, hr, hF, hcn, hd, hn, hpr⟩ := h.parts
  rw [ptr_join] at hc
  simp only [rep_join, ptr_join] at hr
  obtain ⟨hx, hcx, hpx, hlx, hrx, ha, hy, hcy, hpy, hly, hry, hb, he⟩ := hr
  simp only [nodup_join, mem_toList_join, not_or] at hF hpr hd
  obtain ⟨hna, ⟨hnb, hne, hyb, hye, hbe⟩, hxa, ⟨hxb, hxy, hxe⟩, had⟩ := hF
  obtain ⟨hpa, hpx', hpb, hpy', hpe⟩ := hpr
  have hya : y ∉ a.toList := fun hm => (had y hm).2.1 rfl
  have hxb' := ne_ptr hx hxb
  rw [represents_plug, ptr_join, rotate_eq hrx hly hpx hxb']
  refine ⟨?_, ?_, ?_⟩
  · have h3 : RepCtx (((t.setChild s.other x (ptr t.nil b)).adopt (ptr t.nil b) x).setParent y
        (parentPtr t.nil ctx)) ctx x :=
      ((hc.setChild (hd x (by simp))).adopt
        (ptr_not_mem hn fun p hp => hd p (by simp [hp]))).setParent (hd y (by simp))
    have h4 := h3.replaceNode (q := y) (by simpa using hx) (hd x (by simp)) hcn
    simp only [nil_setParent, nil_adopt, nil_setChild] at h4
    exact (h4.setChild (hd y (by simp))).setParent (hd x (by simp))
  · have hb1 : Rep (t.setChild s.other x (ptr t.nil b)) b y := hb.setChild hxb
    have hb2 := hb1.reparent_adopt hnb x
    rw [nil_setChild] at hb2
    simp only [rep_join, ptr_join]
    refine ⟨by simpa using hy, by simpa using hcy, ?_, by simp, ?_, ⟨by simpa using hx,
      by simpa using hcx, by simp, ?_, ?_, ?_, ?_⟩, ?_⟩
    · simp [parent_setParent_of_ne _ (Ne.symm hxy)]
    · simpa [child_replaceNode_of_ne _ _ (Ne.symm hpy'),
        child_setChild_of_ne _ _ _ (Ne.symm hxy)] using hry
    · simpa [child_replaceNode_of_ne _ _ (Ne.symm hpx'), child_setChild_of_ne _ _ _ hxy] using hlx
    · simp [child_replaceNode_of_ne _ _ (Ne.symm hpx'), child_setChild_of_ne _ _ _ hxy]
    · exact (((((ha.setChild hxa).adopt (ptr_not_mem ha.nil_not_mem fun p hp hpa =>
        (had p hpa).1 hp)).setParent hya).replaceNode hpa).setChild hya).setParent hxa
    · exact (((hb2.setParent hyb).replaceNode hpb).setChild hyb).setParent hxb
    · exact (((((he.setChild hxe).adopt (ptr_not_mem he.nil_not_mem hbe)).setParent
        hye).replaceNode hpe).setChild hye).setParent hxe
  · rw [toList_plug_congr ctx (toList_rotate s c d c d a b e x y)]
    exact h.nodup

theorem rotate_parent_nil {b} (hy : t.child s.other x = y) (hb : t.child s y = b)
    (hxb : x ≠ b) (hx : x ≠ t.nil) (hyn : y ≠ t.nil) :
    (t.rotate s x).parent t.nil = t.parent t.nil := by
  rw [rotate_eq hy hb rfl hxb, parent_setParent_of_ne _ (Ne.symm hx),
    parent_setChild, parent_replaceNode, parent_setParent_of_ne _ (Ne.symm hyn)]
  simpa using parent_adopt_nil (t.setChild s.other x b) b x

/-! ## Recolouring -/

section
variable (ctx : List (Frame Ptr)) (s : Side) (c : Color) (a : ColorTree Ptr) (x : Ptr)
  (b : ColorTree Ptr)

theorem plug_child : plug ctx (.join s c a x b) = plug (⟨s, c, x, b⟩ :: ctx) a := rfl

theorem plug_sibling : plug ctx (.join s c a x b) = plug (⟨s.other, c, x, a⟩ :: ctx) b := by
  rw [plug_cons, Frame.plug, join_other]

end

theorem Represents.setColor (h : Represents t (plug ctx T)) (c : Color) :
    Represents (t.setColor (ptr t.nil T) c) (plug ctx (T.setRootColor c)) := by
  obtain ⟨hc, hre, hT, _, hd, hn, _⟩ := h.parts
  have hpt : ptr t.nil (T.setRootColor c) = ptr t.nil T := by cases T <;> rfl
  rw [represents_plug]
  refine ⟨?_, ?_, ?_⟩
  · rw [nil_setColor, hpt]
    exact hc.setColor (ptr_not_mem hn hd)
  · cases T with
    | nil => trivial
    | node d l x r =>
      obtain ⟨hx, _, hp, hl, hr, hL, hR⟩ := hre
      obtain ⟨_, _, hxl, hxr, _⟩ := (nodup_join (s := .left)).mp hT
      exact ⟨hx, by simp, hp, by simpa using hl, by simpa using hr, hL.setColor hxl,
        hR.setColor hxr⟩
  · rw [toList_plug_congr ctx (toList_setRootColor c T)]
    exact h.nodup

theorem Represents.setColor_join {d a b}
    (h : Represents t (plug ctx (.join s d a x b))) (c : Color) :
    Represents (t.setColor x c) (plug ctx (.join s c a x b)) := by
  simpa using h.setColor c

/-! ## Taking a node out -/

theorem Represents.moveUp {Q : ColorTree Ptr} (h : Represents t (plug ctx (.join s c .nil x Q))) :
    Represents (t.moveUp x (ptr t.nil Q)) (plug ctx Q) ∧
      (t.moveUp x (ptr t.nil Q)).parent (ptr t.nil Q) = parentPtr t.nil ctx := by
  obtain ⟨hc, hr, hF, hcn, hd, hn, hpa⟩ := h.parts
  rw [ptr_join] at hc
  obtain ⟨hx, _, hp, _, _, _, hQ⟩ := rep_join.mp hr
  simp only [nodup_join, mem_toList_join, not_or] at hF hd hpa
  have hdQ : ∀ p ∈ Q.toList, p ∉ ctxLabels ctx := fun p hp => hd p (by simp [hp])
  unfold RbTree.moveUp
  simp only [hp, parent_replaceNode, parent_setParent_self, and_true]
  rw [represents_plug]
  refine ⟨?_, ?_, nodup_plug.mpr ⟨hF.2.1, hcn, hdQ⟩⟩
  · simp only [nil_setParent, nil_replaceNode]
    exact (hc.replaceNode hx (hd x (by simp)) hcn).setParent (ptr_not_mem hn hdQ)
  · have hQ' := (hQ.replaceNode (p := x) (q := ptr t.nil Q) hpa.2.2).reparent
      hF.2.1 (parentPtr t.nil ctx)
    simpa using hQ'

section
variable {Q} (h : Represents t (plug (f :: ctx) (.join .left c .nil y Q)))
include h

theorem Represents.unlinkSuccessor_eq : t.unlinkSuccessor y = t.moveUp y (ptr t.nil Q) := by
  obtain ⟨hc, hr, _, _, hd, _, _⟩ := h.parts
  obtain ⟨_, _, _, _, hri, _, _⟩ := rep_join.mp hr
  have hro : t.root ≠ y := by
    intro he
    refine hd y ?_ (he ▸ hc.root_mem (by simp))
    simp [mem_toList_join]
  unfold RbTree.unlinkSuccessor RbTree.moveUp RbTree.replaceNode
  simp only [if_neg hro, rightChild_eq, show t.child .right y = ptr t.nil Q from hri]

theorem Represents.unlinkSuccessor :
    Represents (t.unlinkSuccessor y) (plug (f :: ctx) Q) ∧
      (t.unlinkSuccessor y).parent (ptr t.nil Q) = f.label := by
  rw [h.unlinkSuccessor_eq]
  exact h.moveUp

end

theorem RepCtx.parent_eq_nil (h : RepCtx t ctx x) : parentPtr t.nil ctx = t.nil ↔ ctx = [] := by
  cases ctx with
  | nil => simp [parentPtr]
  | cons f ctx => simpa [parentPtr] using h.1

theorem RbTree.setRoot_self (h : t.root = y) : t.setRoot y = t := by
  subst h
  rfl

theorem RbTree.substitute_eq {l} (hp : t.parent x = par) (hl : t.child .left x = l)
    (hr : t.child .right x = r) (hc : t.color x = c) (hxy : x ≠ y) (hxp : x ≠ par) (hyl : y ≠ l)
    (hyr : y ≠ r) (hro : par = t.nil ↔ t.root = x) :
    t.substitute x y = ((((((t.replaceNode par x y).setParent y par).setChild .left y l).setParent
      l y).setChild .right y r).setParent r y).setColor y c := by
  have hf : (if par = t.nil then t.setRoot y else t.replaceChild par x y) =
      t.replaceNode par x y := by
    unfold RbTree.replaceNode
    by_cases h : par = t.nil
    · rw [if_pos h, if_pos (hro.mp h)]
    · rw [if_neg h, if_neg (fun he => h (hro.mpr he))]
  have hlx : (t.replaceNode par x y).child .left x = l := (child_replaceNode_of_ne t _ hxp).trans hl
  have hrx : (t.replaceNode par x y).child .right x = r :=
    (child_replaceNode_of_ne t _ hxp).trans hr
  unfold RbTree.substitute
  simp only [leftChild_eq, rightChild_eq, hp, hf, parent_replaceNode,
    child_setParent, hlx, child_setChild_of_ne _ _ _ hxy, hrx,
    color_setParent, color_setChild, color_replaceNode, hc,
    parent_setColor, parent_setParent_of_ne _ hyr, parent_setChild,
    parent_setParent_of_ne _ hyl, parent_setParent_self, nil_setColor,
    nil_setParent, nil_setChild, nil_replaceNode]
  split
  · -- The root was replaced at the start; the second assignment changes nothing.
    refine setRoot_self ?_
    simp only [root_setColor, root_setParent, root_setChild,
      replaceNode, if_pos (hro.mp ‹_›), root_setRoot]
  · rfl

section
variable {l r : ColorTree Ptr} (h : Represents t (plug ctx (.join .left c l x r))) (hy : y ≠ t.nil)
  (hyT : y ∉ (plug ctx (.join .left c l x r)).toList)
include h hy hyT

theorem Represents.substitute_eq :
    t.substitute x y = ((((((t.replaceNode (parentPtr t.nil ctx) x y).setParent y
      (parentPtr t.nil ctx)).setChild .left y (ptr t.nil l)).setParent (ptr t.nil l) y).setChild
      .right y (ptr t.nil r)).setParent (ptr t.nil r) y).setColor y c := by
  obtain ⟨hct, hr, _, _, hd, _, hpa⟩ := h.parts
  have hpr : parentPtr t.nil ctx = t.nil ↔ t.root = x := by
    rw [hct.parent_eq_nil]
    constructor
    · rintro rfl
      exact h.root.trans (ptr_join _ _ _ _ _ _)
    · intro hro
      by_contra hne
      exact hd x (by simp [mem_toList_join]) (hro ▸ hct.root_mem hne)
  obtain ⟨hx, hc, hp, hlx, hrx, hL, hR⟩ := rep_join.mp hr
  simp only [mem_plug, mem_toList_join, not_or] at hpa hyT
  obtain ⟨_, hyl, hyx, hyr⟩ := hyT
  exact RbTree.substitute_eq hp hlx hrx hc (Ne.symm hyx) (Ne.symm hpa.2.1) (ne_ptr hy hyl)
    (ne_ptr hy hyr) hpr

theorem Represents.substitute (hl : l ≠ .nil) :
    Represents (t.substitute x y) (plug ctx (.join .left c l y r)) ∧
      (t.substitute x y).parent t.nil = if r = .nil then y else t.parent t.nil := by
  have heq := h.substitute_eq hy hyT
  obtain ⟨hct, hre, hF, hcn, hd, hn, hpa⟩ := h.parts
  obtain ⟨hx, hc, hp, hlx, hrx, hL, hR⟩ := rep_join.mp hre
  simp only [mem_plug, nodup_join, mem_toList_join, not_or] at hF hd hpa hyT
  obtain ⟨hnl, hnr, hxl, hxr, hlr⟩ := hF
  obtain ⟨hyc, hyl, hyx, hyr⟩ := hyT
  obtain ⟨hpl, hpx, hpr⟩ := hpa
  have hdl : ∀ p ∈ l.toList, p ∉ ctxLabels ctx := fun p hm => hd p (by simp [hm])
  have hdr : ∀ p ∈ r.toList, p ∉ ctxLabels ctx := fun p hm => hd p (by simp [hm])
  have hlr' : ptr t.nil l ∉ r.toList := ptr_not_mem hR.nil_not_mem hlr
  have hrl' : ptr t.nil r ∉ l.toList := ptr_not_mem hL.nil_not_mem fun p hr hl => hlr p hl hr
  rw [heq, represents_plug, ptr_join]
  refine ⟨⟨?_, ?_, ?_⟩, ?_⟩
  · exact ((((((hct.replaceNode hx (hd x (by simp)) hcn).setParent hyc).setChild hyc).setParent
      (ptr_not_mem hn hdl)).setChild hyc).setParent (ptr_not_mem hn hdr)).setColor hyc
  · have hL1 : Rep (((t.replaceNode (parentPtr t.nil ctx) x y).setParent y
        (parentPtr t.nil ctx)).setChild .left y (ptr t.nil l)) l x :=
      ((hL.replaceNode hpl).setParent hyl).setChild hyl
    have hL2 := hL1.reparent hnl y
    have hR1 : Rep (((((t.replaceNode (parentPtr t.nil ctx) x y).setParent y
        (parentPtr t.nil ctx)).setChild .left y (ptr t.nil l)).setParent (ptr t.nil l)
        y).setChild .right y (ptr t.nil r)) r x :=
      ((((hR.replaceNode hpr).setParent hyr).setChild hyr).setParent hlr').setChild hyr
    have hR2 := hR1.reparent hnr y
    simp only [nil_setParent, nil_setChild, nil_replaceNode] at hL2 hR2
    refine ⟨by simpa using hy, by simp, ?_, ?_, by simp,
      ((hL2.setChild hyl).setParent hrl').setColor hyl, hR2.setColor hyr⟩
    · simp [parent_setParent_of_ne _ (ne_ptr hy hyr), parent_setParent_of_ne _ (ne_ptr hy hyl)]
    · simp [child_setChild]
  · rw [nodup_plug, nodup_join]
    refine ⟨⟨hnl, hnr, hyl, hyr, hlr⟩, hcn, fun p hm => ?_⟩
    rcases mem_toList_join.mp hm with hm | rfl | hm
    · exact hdl p hm
    · exact hyc
    · exact hdr p hm
  · have hln : t.nil ≠ ptr t.nil l := by
      cases l
      · exact absurd rfl hl
      · exact Ne.symm hL.1
    cases r with
    | nil => simp
    | node d r1 z r2 =>
      simp [parent_setParent_of_ne _ (Ne.symm hR.1),
        parent_setParent_of_ne _ hln, parent_setParent_of_ne _ (Ne.symm hy)]

end

/-! ## Hanging in a new node -/

theorem Represents.attach {K : Type} {ops z} {key : K}
    (h : Represents t (plug ctx .nil)) (hz : z ≠ t.nil) (hzc : z ∉ ctxLabels ctx)
    (hc : t.color z = .red) (hch : ∀ s, t.child s z = t.nil) (hs : ∀ f ctx', ctx = f :: ctx' →
      (t.rbNodeIsGreaterThan ops f.label key = true ↔ f.side = .left)) :
    Represents (t.attach ops z (parentPtr t.nil ctx) key) (plug ctx (.node .red .nil z .nil)) := by
  obtain ⟨hct, _, _, hcn, _⟩ := h.parts
  have hc1 : RepCtx (t.setParent z (parentPtr t.nil ctx)) ctx t.nil := hct.setParent hzc
  have hn : (plug ctx (.node .red .nil z .nil)).toList.Nodup := by
    rw [nodup_plug]
    simp [toList, hcn, hzc]
  rw [represents_plug]
  cases ctx with
  | nil =>
    refine ⟨?_, ?_, hn⟩
    · simp [attach, parentPtr, RepCtx]
    · simp [attach, parentPtr, Rep, hz, hc, hch]
  | cons f ctx =>
    have hf : f.label ≠ t.nil := hct.1
    have hzf : z ≠ f.label := fun he => hzc (mem_ctxLabels_cons.mpr (.inl he))
    have ha : t.attach ops z f.label key = (t.setParent z f.label).setChild f.side f.label z := by
      have hgt : (t.setParent z f.label).rbNodeIsGreaterThan ops f.label key =
        t.rbNodeIsGreaterThan ops f.label key := rfl
      unfold RbTree.attach
      simp only [nil_setParent, if_neg hf, hgt, hs f ctx rfl]
      cases f.side <;> rfl
    rw [parentPtr, ha]
    refine ⟨hc1.setChild_parent hcn, ?_, hn⟩
    simp [Rep, hz, hc, hch, child_setChild_of_ne _ _ _ hzf, parentPtr]

end Libparc.RedBlackNodes
