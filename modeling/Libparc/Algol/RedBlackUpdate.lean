import Libparc.Ascending
import Libparc.Algol.RedBlackFrame

/-! # Insertion and removal keep the tree

`TreeInv ops t T` is the invariant of a tree between calls. The operations are
stated on the entries in order: an insertion puts its element where its key
belongs, or in place of the one with an equal key, and a removal takes out the
element with an equal key and no other. -/
namespace Libparc.RedBlackNodes
open Libparc.RedBlack RbTree ColorTree Ascending Function
open List hiding attach after

variable {E K : Type} {ops : KeyOps E K} {t t' : RbTree E} {T : ColorTree Ptr}

structure TreeInv (ops : KeyOps E K) (t : RbTree E) (T : ColorTree Ptr) : Prop where
  represents : Represents t T
  balanced : ∃ n, Balanced T .black n
  nilBlack : t.color t.nil = .black
  filled : Filled ops t T.toList
  nilLive : t.nil ∈ t.live
  live : ∀ p ∈ T.toList, p ∈ t.live

theorem Represents.frame (h : Represents t T) (hn : t'.nil = t.nil) (hr : t'.root = t.root)
    (hs : ∀ a ∈ T.toList, SameAt t t' a) : Represents t' T :=
  ⟨by rw [hr, hn, h.root], hn ▸ h.rep.frame hn hs, h.nodup⟩

/-! ## Unlinking -/

namespace RbTree

variable (t : RbTree E)

@[simp] theorem data_moveUp (x q : Ptr) : (t.moveUp x q).data = t.data := by
  simp [moveUp]

@[simp] theorem nil_moveUp (x q : Ptr) : (t.moveUp x q).nil = t.nil := by
  simp [moveUp]

@[simp] theorem color_moveUp (x q : Ptr) : (t.moveUp x q).color = t.color := by
  simp [moveUp]

@[simp] theorem data_replaceChild (par p q : Ptr) : (t.replaceChild par p q).data = t.data := by
  unfold replaceChild
  split <;> simp

@[simp] theorem nil_replaceChild (par p q : Ptr) : (t.replaceChild par p q).nil = t.nil := by
  unfold replaceChild
  split <;> simp

@[simp] theorem color_replaceChild (par p q : Ptr) : (t.replaceChild par p q).color = t.color := by
  unfold replaceChild
  split <;> simp

@[simp] theorem data_unlinkSuccessor (y : Ptr) : (t.unlinkSuccessor y).data = t.data := by
  simp [unlinkSuccessor]

@[simp] theorem nil_unlinkSuccessor (y : Ptr) : (t.unlinkSuccessor y).nil = t.nil := by
  simp [unlinkSuccessor]

@[simp] theorem color_unlinkSuccessor (y : Ptr) : (t.unlinkSuccessor y).color = t.color := by
  simp [unlinkSuccessor]

@[simp] theorem data_substitute (x y : Ptr) : (t.substitute x y).data = t.data := by
  simp only [substitute]
  split_ifs <;> simp

@[simp] theorem nil_substitute (x y : Ptr) : (t.substitute x y).nil = t.nil := by
  simp only [substitute]
  split_ifs <;> simp

theorem color_substitute_of_ne {x y p} (h : p ≠ y) : (t.substitute x y).color p = t.color p := by
  simp only [substitute]
  split_ifs <;> simp [color_setColor_of_ne _ h]

end RbTree

/-- What `_rbNodeRemove` has relinked, before it repairs: the tree without the
node `x` that was at the place of `L₁ ++ x :: L₂`. -/
structure Unlinked (t0 t : RbTree E) (L₁ L₂ : List Ptr) (fixupNode : Ptr) (c : Color)
    (ctx : List (Frame Ptr)) (Q : ColorTree Ptr) : Prop where
  focused : Focused t0 t ctx Q
  fixup : fixupNode = ptr t.nil Q
  toList : (plug ctx Q).toList = L₁ ++ L₂
  red : c = .red → ∃ m, Balanced (plug ctx Q) .black m
  black : c = .black → ∃ k, Short Q k ∧ Fits ctx .black (k + 1)

variable {x a z : Ptr} {ctx : List (Frame Ptr)} {c : Color} {Q l : ColorTree Ptr} {L : List Ptr}

theorem Unlinked.moveUp {s n L₁ L₂} (h : Represents t (plug ctx (.join s c .nil x Q)))
    (hb : Balanced (plug ctx (.join s c .nil x Q)) .black n) (hn : t.color t.nil = .black)
    (hL : (plug ctx Q).toList = L₁ ++ L₂) :
    Unlinked t (t.moveUp x (ptr t.nil Q)) L₁ L₂ (ptr t.nil Q) c ctx Q := by
  obtain ⟨hr, hp⟩ := h.moveUp
  obtain ⟨cc, k, hba, hf⟩ := Fits.of_plug hb
  obtain ⟨hre, hbl⟩ := delete_node hba hf
  exact ⟨⟨⟨hr, by simp, by simp, by simpa using hn⟩, by simpa using hp⟩, by simp, hL, hre, hbl⟩

theorem plug_right (pre ctx : List (Frame Ptr)) (c : Color) (l : ColorTree Ptr) (x : Ptr)
    (Z : ColorTree Ptr) :
    plug (pre ++ ⟨.right, c, x, l⟩ :: ctx) Z = plug ctx (.node c l x (plug pre Z)) := by
  rw [plug_append]
  rfl

theorem Represents.successor_out {cy y pre}
    (h : Represents t (plug (pre ++ ⟨.right, c, x, l⟩ :: ctx) (.join .left cy .nil y Q))) :
    y ≠ t.nil ∧ y ∉ (plug ctx (.node c l x (plug pre Q))).toList ∧
      t.unlinkSuccessor y = t.moveUp y (ptr t.nil Q) ∧
      Represents (t.unlinkSuccessor y) (plug ctx (.node c l x (plug pre Q))) ∧
      (t.unlinkSuccessor y).parent (ptr t.nil Q) =
        parentPtr t.nil (pre ++ ⟨.right, c, x, l⟩ :: ctx) := by
  obtain ⟨f, rest, hf⟩ : ∃ f rest, pre ++ ⟨.right, c, x, l⟩ :: ctx = f :: rest := by
    cases pre <;> exact ⟨_, _, rfl⟩
  have hy : y ≠ t.nil := (rep_join.mp (represents_plug.mp h).2.1).1
  have hyQ := (nodup_plug.mp (represents_plug.mp h).2.2)
  have hyQ' : y ∉ (plug (pre ++ ⟨.right, c, x, l⟩ :: ctx) Q).toList := by
    rw [toList_plug, mem_append, mem_append, or_right_comm, ← mem_append,
      ← ctxLabels, not_or]
    exact ⟨hyQ.2.2 y (by simp [mem_toList_join]), (nodup_join.mp hyQ.1).2.2.2.1⟩
  rw [← plug_right]
  rw [hf] at h ⊢
  exact ⟨hy, hf ▸ hyQ', h.unlinkSuccessor_eq, h.unlinkSuccessor⟩

theorem Unlinked.successor {c cy x y l Q pre ctx n} (hl : l ≠ .nil)
    (h : Represents t (plug ctx (.node c l x (plug pre (.join .left cy .nil y Q)))))
    (hb : Balanced (plug ctx (.node c l x (plug pre (.join .left cy .nil y Q)))) .black n)
    (hp : ∀ f ∈ pre, f.side = .left) (hn : t.color t.nil = .black) :
    Unlinked t ((t.unlinkSuccessor y).substitute x y) (before ctx ++ l.toList)
      ((plug pre (.join .left cy .nil y Q)).toList ++ after ctx) (ptr t.nil Q) cy
      (pre ++ ⟨.right, c, y, l⟩ :: ctx) Q := by
  rw [← plug_right] at h hb
  obtain ⟨hy, hyQ', _, hu, hpa⟩ := h.successor_out
  obtain ⟨hs, hpr⟩ := Represents.substitute hu (by simpa using hy) hyQ' hl
  obtain ⟨cc, k, hba, hf⟩ := Fits.of_plug hb
  obtain ⟨hr, hbl⟩ := delete_node hba (hf.relabel (y := y))
  have hla : Laid t ((t.unlinkSuccessor y).substitute x y)
      (plug (pre ++ ⟨.right, c, y, l⟩ :: ctx) Q) := by
    refine ⟨?_, by simp, by simp, ?_⟩
    · rw [plug_right]
      exact hs
    · simpa [color_substitute_of_ne _ (Ne.symm hy)] using hn
  refine ⟨⟨hla, ?_⟩, by simp, ?_, hr, hbl⟩
  · rw [nil_unlinkSuccessor] at hpr
    -- Where the successor was the right child itself, `nil` gets its parent from `substitute`.
    cases pre with
    | nil =>
      refine (Focused.of_laid hla fun hQ => ?_).parent
      subst hQ
      simpa using hpr
    | cons g pre =>
      refine (Focused.of_laid hla fun hQ => ?_).parent
      subst hQ
      rw [plug_cons, Frame.plug, if_neg (plug_ne_nil (join_ne_nil _ _ _ _ _) pre)] at hpr
      simpa [parentPtr] using hpr.trans hpa
  · rw [plug_right, toList_plug, ColorTree.toList, toList_plug, toList_plug, before_eq_nil hp]
    simp [ColorTree.join, ColorTree.toList]

theorem Represents.successor_outside {cy y pre N}
    (h : Represents t (plug ctx (.node c l x (plug pre (.join .left cy .nil y Q)))))
    (hN : Among N t (plug ctx (.node c l x (plug pre (.join .left cy .nil y Q))))) :
    Outside N t ((t.unlinkSuccessor y).substitute x y) := by
  rw [← plug_right] at h hN
  obtain ⟨hy, hyQ, heq, hu, _⟩ := h.successor_out
  have ho := h.moveUp_outside hN
  rw [← heq] at ho
  have hN' : Among N (t.unlinkSuccessor y) (plug ctx (.node c l x (plug pre Q))) := by
    refine ⟨by simpa using hN.nil, fun p hp => hN.nodes p ?_⟩
    rw [← plug_right, toList_plug] at hp
    rw [toList_plug]
    simp only [mem_append, mem_toList_join] at hp ⊢
    tauto
  exact ho.trans (hu.substitute_outside (by simpa using hy) hyQ hN' (hN.label _))

/-- **The relinking of `_rbNodeRemove`** takes the node out of the order and
keeps the other nodes, and all that is not of this tree. -/
theorem rbNodeUnlink_spec {r n N} (h : Represents t (plug ctx (.node c l x r)))
    (hb : Balanced (plug ctx (.node c l x r)) .black n) (hn : t.color t.nil = .black)
    (hN : Among N t (plug ctx (.node c l x r))) :
    ∃ t' fixupNode d ctx' Q, t.rbNodeUnlink x = pure (t', fixupNode, d) ∧
      Unlinked t t' (before ctx ++ l.toList) (r.toList ++ after ctx) fixupNode d ctx' Q ∧
      Outside N t t' ∧ ctx'.length < (plug ctx (.node c l x r)).height := by
  obtain ⟨_, ⟨_, hc, _, hlx, hrx, hL, hR⟩, _⟩ := represents_plug.mp h
  have hh := length_add_height_le (.node c l x r) ctx
  rw [height] at hh
  unfold rbNodeUnlink
  simp only [leftChild_eq, rightChild_eq, hlx, hrx, hc]
  by_cases hl : l = .nil
  · subst hl
    refine ⟨t.moveUp x (ptr t.nil r), ptr t.nil r, c, ctx, r, ?_,
      .moveUp (s := .left) h hb hn (by simp [toList_plug, toList]),
      h.moveUp_outside (s := .left) hN, by omega⟩
    by_cases hr : r = .nil
    · subst hr
      simp
    · simp [(ptr_ne_nil hR).mpr hr]
  · by_cases hr : r = .nil
    · subst hr
      refine ⟨t.moveUp x (ptr t.nil l), ptr t.nil l, c, ctx, l, ?_,
        .moveUp (s := .right) h hb hn (by simp [toList_plug, toList]),
        h.moveUp_outside (s := .right) hN, by omega⟩
      simp [(ptr_ne_nil hL).mpr hl]
    · obtain ⟨y, hy, pre, cy, Q, rfl, hp⟩ := relativeNode_spec .left hR hr
      have hri := length_add_height_le (.join .left cy .nil y Q) pre
      rw [height_join] at hri
      refine ⟨_, _, _, _, Q, ?_, Unlinked.successor hl h hb hp hn, h.successor_outside hN,
        by rw [length_append, length_cons]; omega⟩
      simp only [if_neg ((ptr_ne_nil hL).mpr hl), if_neg ((ptr_ne_nil hR).mpr hr), hy]
      rw [← plug_right] at h
      obtain ⟨_, hcy, _, _, hyQ, _, _⟩ := rep_join.mp (represents_plug.mp h).2.1
      rw [pure_bind, hcy, show t.child .right y = ptr t.nil Q from hyQ]

/-! ## Removing -/

theorem sameAt_setSize (n : Int) (a : Ptr) : SameAt t (t.setSize n) a :=
  ⟨fun s => by cases s <;> rfl, rfl, rfl⟩

theorem sameAt_setElement (x : Ptr) (o : Option E) (a : Ptr) : SameAt t (t.setElement x o) a :=
  ⟨fun s => by cases s <;> rfl, rfl, rfl⟩

theorem element_setElement_of_ne {o} (h : a ≠ x) :
    (t.setElement x o).element a = t.element a := update_of_ne h _ _

theorem Represents.setSize (h : Represents t T) (n : Int) : Represents (t.setSize n) T :=
  h.frame rfl rfl fun a _ => sameAt_setSize n a

theorem Filled.erase {L₁ L₂} (h : Filled ops t (L₁ ++ x :: L₂)) :
    Filled ops (t.setSize (t.size - 1)) (L₁ ++ L₂) := by
  have hs : (L₁ ++ L₂).Sublist (L₁ ++ x :: L₂) :=
    (List.Sublist.refl L₁).append (sublist_cons_self x L₂)
  refine ⟨h.nilNonNull, fun p hp => h.nonNull p (hs.subset hp),
    fun p hp => h.full p (hs.subset hp), h.sorted.sublist hs, ?_⟩
  have hsi := h.size
  simp only [length_append, length_cons] at hsi ⊢
  show t.size - 1 = _
  omega

section
variable {t1 : RbTree E} {L₁ L₂ : List Ptr} {fixupNode x : Ptr} {d : Color}
  {ctx' : List (Frame Ptr)} {Q : ColorTree Ptr}

section
variable (hu : Unlinked t t1 L₁ L₂ fixupNode d ctx' Q)
include hu

theorem Unlinked.laid_setSize (n : Int) : Laid (t1.setSize n) (t1.setSize n) (plug ctx' Q) :=
  ⟨hu.focused.laid.represents.setSize n, rfl, rfl, hu.focused.laid.nilBlack⟩

theorem Unlinked.filled
    (hf : Filled ops t (L₁ ++ x :: L₂)) : Filled ops (t1.setSize (t1.size - 1)) (L₁ ++ L₂) :=
  (hf.congr hu.focused.laid.data hu.focused.laid.nil).erase

end

theorem Unlinked.fixDeleteInv (hu : Unlinked t t1 L₁ L₂ fixupNode .black ctx' Q) (n : Int) :
    FixDeleteInv (t1.setSize n) (L₁ ++ L₂)
      (2 * ctx'.length + if Q.rootColor = .black then 1 else 0) (t1.setSize n, fixupNode) := by
  obtain ⟨k, hs, hf⟩ := hu.black rfl
  exact ⟨ctx', Q, k, rfl, ⟨hu.laid_setSize n, hu.focused.parent⟩, hu.fixup, hs, hf, hu.toList⟩

end

theorem Repaired.treeInv {t0} (h : Repaired t0 L t) (hf : Filled ops t0 L)
    (hn : t0.nil ∈ t0.live) (hli : ∀ p ∈ L, p ∈ t0.live) : ∃ T, TreeInv ops t T ∧ T.toList = L := by
  obtain ⟨T, n, hla, hb, rfl⟩ := h
  have hl : t.live = t0.live := congrArg (·.2.2) hla.data
  exact ⟨T, ⟨hla.represents, ⟨n, hb⟩, hla.nilBlack, hf.congr hla.data hla.nil,
    by rw [hl, hla.nil]; exact hn, by rw [hl]; exact hli⟩, rfl⟩

theorem TreeInv.pass (hops : ops.Lawful) (h : TreeInv ops t T) :
    t.rbNodeAssertTreeInvariants ops = pure () :=
  rbNodeAssertTreeInvariants_pass hops h.represents h.filled

/-- **`_rbNodeRemove`** takes one node out of the tree. -/
theorem rbNodeRemove_spec (hops : ops.Lawful) (h : TreeInv ops t T) (hx : x ∈ T.toList) :
    ∃ t' T' L₁ L₂, t.rbNodeRemove ops x = pure t' ∧ TreeInv ops t' T' ∧
      T.toList = L₁ ++ x :: L₂ ∧ T'.toList = L₁ ++ L₂ ∧ t'.element = t.element ∧
      t'.nil = t.nil ∧ t'.live = t.live ∧ Outside (t.nil :: T.toList) t t' := by
  have hpa := h.pass hops
  obtain ⟨hr, ⟨n, hb⟩, hn, hf, hnl, hl⟩ := h
  obtain ⟨ctx, c, l, r, rfl⟩ := exists_plug_of_mem hx
  have hli : (plug ctx (.node c l x r)).toList =
      (before ctx ++ l.toList) ++ x :: (r.toList ++ after ctx) := by
    simp [toList_plug, toList]
  obtain ⟨t1, fixupNode, d, ctx', Q, hun, hu, ho, _⟩ := rbNodeUnlink_spec hr hb hn (among_self t _)
  obtain ⟨hla, _⟩ := hu.focused
  have he : t1.element = t.element := congrArg (·.1) hla.data
  have hlv : t1.live = t.live := congrArg (·.2.2) hla.data
  rw [hli] at hf hl ho
  have hf1 := hu.filled hf
  have hl2 := hu.laid_setSize (t1.size - 1)
  have hp2 := rbNodeAssertTreeInvariants_pass hops hl2.represents (hu.toList ▸ hf1)
  obtain ⟨t3, ht3, hre, ho3⟩ : ∃ t3,
      (if d = .black then (t1.setSize (t1.size - 1)).rbNodeFixDelete ops fixupNode
        else pure (t1.setSize (t1.size - 1))) = pure t3 ∧
      Repaired (t1.setSize (t1.size - 1)) ((before ctx ++ l.toList) ++ (r.toList ++ after ctx)) t3 ∧
      Outside (t.nil :: ((before ctx ++ l.toList) ++ x :: (r.toList ++ after ctx)))
        (t1.setSize (t1.size - 1)) t3 := by
    cases d with
    | red =>
      obtain ⟨m, hm⟩ := hu.red rfl
      exact ⟨_, rfl, ⟨_, m, hl2, hm, hu.toList⟩, Outside.refl _ _⟩
    | black =>
      have hi := hu.fixDeleteInv (t1.size - 1)
      obtain ⟨t3, ht3, hre⟩ := rbNodeFixDelete_spec hops hf1 hi
      refine ⟨t3, by rw [if_pos rfl, ht3], hre, rbNodeFixDelete_outside hops hf1 hi
        (hla.nil ▸ (.head _)) (fun p hp => .tail _ (perm_middle.mem_iff.mpr (.tail _ hp))) ht3⟩
  obtain ⟨T', hi, hT'⟩ := hre.treeInv hf1 (show t1.nil ∈ t1.live by rw [hlv, hla.nil]; exact hnl)
    (fun p hp => show p ∈ t1.live by
      rw [hlv]
      exact hl p (perm_middle.mem_iff.mpr (.tail _ hp)))
  refine ⟨t3, T', _, _, ?_, hi, hli, hT', ?_⟩
  · unfold rbNodeRemove
    rw [hpa, pure_bind, hun, pure_bind]
    simp only [hp2, pure_bind, ht3, hi.pass hops]
  · obtain ⟨W, _, hl3, _, _⟩ := hre
    refine ⟨(congrArg (·.1) hl3.data).trans he, hl3.nil.trans hla.nil,
      (congrArg (·.2.2) hl3.data).trans hlv, ?_⟩
    rw [hli]
    exact (ho.trans fun z _ => sameAt_setSize _ z).trans ho3

/-! ## Entries -/

/-- The elements of the nodes, in order. -/
def entries (t : RbTree E) (T : ColorTree Ptr) : List E := T.toList.filterMap t.element

theorem Filled.sorted_entries (h : Filled ops t L) :
    Ascending.Sorted ops.key ops.compare (L.filterMap t.element) := by
  unfold Ascending.Sorted
  rw [pairwise_filterMap]
  refine h.sorted.imp fun {p q} hlt a ha b hb => ?_
  rwa [compareNodes, ha, hb] at hlt

theorem TreeInv.sorted (h : TreeInv ops t T) :
    Ascending.Sorted ops.key ops.compare (entries t T) := h.filled.sorted_entries

theorem map_element_eq (h : ∀ p ∈ L, (t.element p).isSome) :
    L.map t.element = (L.filterMap t.element).map some := by
  induction L with
  | nil => rfl
  | cons p L ih =>
    obtain ⟨e, he⟩ := Option.isSome_iff_exists.mp (h p (by simp))
    rw [map_cons, filterMap_cons_some he, map_cons, he,
      ih fun q hq => h q (by simp [hq])]

theorem Filled.length_entries (h : Filled ops t L) : t.size = (L.filterMap t.element).length := by
  have hl := congrArg length (map_element_eq h.full)
  rw [length_map, length_map] at hl
  rw [h.size, hl]

/-- The map that entries in order stand for. -/
def lookup {V : Type} (compare : K → K → Int) (L : List (K × V)) (k : K) : Option V :=
  (find Prod.fst compare k L).map Prod.snd

theorem lookup_insert {V : Type} {cmp} (h : TotalCompare cmp) (e : K × V)
    (L : List (K × V)) : lookup cmp (insert Prod.fst cmp e L) =
      fun k => if cmp e.1 k = 0 then some e.2 else lookup cmp L k := by
  funext k
  rw [lookup, find_insert h]
  exact apply_ite _ _ _ _

theorem lookup_remove {V : Type} {cmp} (h : TotalCompare cmp) (key : K)
    (L : List (K × V)) : lookup cmp (remove Prod.fst cmp key L) =
      fun k => if cmp key k = 0 then none else lookup cmp L k := by
  funext k
  rw [lookup, find_remove h]
  exact apply_ite _ _ _ _

theorem sameAt_deallocate (h : a ≠ z) : SameAt t (t.deallocate z) a :=
  ⟨fun s => by cases s <;> exact update_of_ne h _ _, update_of_ne h _ _, rfl⟩

theorem element_deallocate (h : a ≠ z) : (t.deallocate z).element a = t.element a :=
  update_of_ne h _ _

theorem TreeInv.deallocate (h : TreeInv ops t T) (hz : z ≠ t.nil) (hzT : z ∉ T.toList) :
    TreeInv ops (t.deallocate z) T := by
  have hne : ∀ a ∈ T.toList, a ≠ z := fun a ha => ne_of_mem_of_not_mem' ha hzT
  refine ⟨h.represents.frame rfl rfl fun a ha => sameAt_deallocate (hne a ha), h.balanced,
    h.nilBlack, h.filled.frame rfl rfl fun a ha => element_deallocate (hne a ha), ?_, ?_⟩
  · exact (mem_erase_of_ne (Ne.symm hz)).mpr h.nilLive
  · exact fun a ha => (mem_erase_of_ne (hne a ha)).mpr (h.live a ha)

theorem entries_congr {t'} (h : ∀ p ∈ T.toList, t'.element p = t.element p) :
    entries t' T = entries t T :=
  filterMap_congr fun p hp => h p hp

theorem forall_filterMap {key} {P : Int → Prop} (h : ∀ p ∈ L, P (t.compareKey ops p key)) :
    ∀ e ∈ L.filterMap t.element, P (ops.compare (ops.key e) key) := by
  intro e he
  obtain ⟨p, hp, hpe⟩ := mem_filterMap.mp he
  simpa [compareKey, hpe] using h p hp

section
variable {L₁ L₂} (h : TreeInv ops t T) (hT : T.toList = L₁ ++ x :: L₂)
include h hT

theorem TreeInv.entry {key} (heq : t.compareKey ops x key = 0) :
    ∃ e, t.element x = some e ∧ ops.compare (ops.key e) key = 0 ∧
      entries t T = L₁.filterMap t.element ++ e :: L₂.filterMap t.element := by
  obtain ⟨e, he⟩ := Option.isSome_iff_exists.mp (h.filled.full x (by simp [hT]))
  refine ⟨e, he, by simpa [compareKey, he] using heq, ?_⟩
  rw [entries, hT, filterMap_append, filterMap_cons_some he]

theorem TreeInv.not_mem_rest : x ∉ L₁ ++ L₂ := by
  have hn := h.represents.nodup
  rw [hT, perm_middle.nodup_iff, nodup_cons] at hn
  exact hn.1

end

/-- **A removal takes out the entry with an equal key**, and no other. -/
theorem removeKey_spec (hops : ops.Lawful) (h : TreeInv ops t T) (key : K) :
    ∃ t' T', t.removeKey ops key = pure (t', find ops.key ops.compare key (entries t T)) ∧
      TreeInv ops t' T' ∧ entries t' T' = remove ops.key ops.compare key (entries t T) ∧
      Apart t t' T T' := by
  obtain ⟨found, hf, hs, hn⟩ := rbFindNode_spec hops h.represents h.filled key
  unfold removeKey
  rw [hf, pure_bind]
  cases found with
  | none =>
    have ha : ∀ e ∈ entries t T, ops.compare (ops.key e) key ≠ 0 :=
      forall_filterMap (P := (· ≠ 0)) (hn rfl)
    refine ⟨t, T, ?_, h, (remove_absent ha).symm, .refl t T⟩
    rw [find_absent ha]
    simp only [h.pass hops, pure_bind]
  | some x =>
    obtain ⟨hx, heq⟩ := hs x rfl
    obtain ⟨t1, T₁, L₁, L₂, hr, hi, hT, hT1, hel, hni, hl, ho⟩ := rbNodeRemove_spec hops h hx
    obtain ⟨e, he, hk, hen⟩ := h.entry hT heq
    have hso := h.sorted
    rw [hen] at hso ⊢
    have hxT1 : x ∉ T₁.toList := hT1 ▸ h.not_mem_rest hT
    have hfr := hi.deallocate (hni ▸ h.represents.rep.ne_nil hx) hxT1
    refine ⟨t1.deallocate x, T₁, ?_, hfr, ?_, hni, fun z hz hzn hzT => ?_, fun p hp => ?_⟩
    · simp only [hr, pure_bind, hfr.pass hops, hel, he, find_equal hops.total hso hk]
    · rw [remove_equal hops.total hso hk,
        entries_congr fun p hp => element_deallocate (ne_of_mem_of_not_mem' hp hxT1), entries,
        hT1, filterMap_append, hel]
    · have hzx : z ≠ x := fun he => hzT (he ▸ hx)
      refine ⟨(ho z ?_).trans (sameAt_deallocate hzx), ?_, ?_⟩
      · rw [mem_cons, not_or]
        exact ⟨hzn, hzT⟩
      · rw [element_deallocate hzx, hel]
      · exact (mem_erase_of_ne hzx).mpr (hl ▸ hz)
    · rw [hT1] at hp
      exact .inl (hT ▸ perm_middle.mem_iff.mpr (.tail _ hp))

/-! ## Inserting -/

section
variable {A : Allocator} {e : E}

theorem withNode_nil : (t.withNode A e).nil = t.nil := rfl

theorem withNode_sameAt (h : a ≠ A.fresh t.live) : SameAt t (t.withNode A e) a :=
  ⟨fun s => by cases s <;> exact update_of_ne h _ _, update_of_ne h _ _, update_of_ne h _ _⟩

theorem withNode_element (a : Ptr) : (t.withNode A e).element a =
    if a = A.fresh t.live then some e else t.element a := by
  simp [withNode, rbNodeCreate, setChild, setParent, setElement, setColor, update_apply]

theorem withNode_child (s : Side) : (t.withNode A e).child s (A.fresh t.live) = t.nil := by
  cases s <;> exact update_self _ _ _

theorem withNode_color : (t.withNode A e).color (A.fresh t.live) = .red := update_self _ _ _

theorem TreeInv.fresh_ne_nil (h : TreeInv ops t T) : A.fresh t.live ≠ t.nil :=
  fun he => A.fresh_not_mem t.live (he ▸ h.nilLive)

theorem TreeInv.fresh_not_mem (h : TreeInv ops t T) : A.fresh t.live ∉ T.toList :=
  fun hm => A.fresh_not_mem t.live (h.live _ hm)

theorem TreeInv.withNode (h : TreeInv ops t T) : TreeInv ops (t.withNode A e) T := by
  have hne : ∀ a ∈ T.toList, a ≠ A.fresh t.live :=
    fun a ha => ne_of_mem_of_not_mem' ha h.fresh_not_mem
  refine ⟨h.represents.frame rfl rfl fun a ha => withNode_sameAt (hne a ha), h.balanced, ?_,
    h.filled.frame rfl rfl fun a ha => ?_, ?_, fun a ha => ?_⟩
  · exact (withNode_sameAt h.fresh_ne_nil.symm).2.2.trans h.nilBlack
  · rw [withNode_element, if_neg (hne a ha)]
  · exact .tail _ h.nilLive
  · exact .tail _ (h.live a ha)

theorem TreeInv.setElement (hops : ops.Lawful) (h : TreeInv ops t T)
    (heq : t.compareKey ops x (ops.key e) = 0) : TreeInv ops (t.setElement x (some e)) T := by
  refine ⟨h.represents.frame rfl rfl fun a _ => sameAt_setElement x (some e) a,
    h.balanced, h.nilBlack, ?_, h.nilLive, h.live⟩
  have hco : ∀ a ∈ T.toList, ∃ b b', t.element a = some b ∧
      (t.setElement x (some e)).element a = some b' ∧
      ops.compare (ops.key b) (ops.key b') = 0 := by
    intro a ha
    obtain ⟨b, hb⟩ := Option.isSome_iff_exists.mp (h.filled.full a ha)
    by_cases hax : a = x
    · subst hax
      exact ⟨b, e, hb, by simp [setElement], by simpa [compareKey, hb] using heq⟩
    · exact ⟨b, b, hb, by simpa [RbTree.setElement, hax] using hb, hops.total.self _⟩
  refine ⟨h.filled.nilNonNull, h.filled.nonNull, fun a ha => ?_, ?_, h.filled.size⟩
  · obtain ⟨_, b', _, hb', _⟩ := hco a ha
    simp [hb']
  · refine h.filled.sorted.imp_of_mem fun {a c} ha hc hlt => ?_
    obtain ⟨b, b', hb, hb', hbb⟩ := hco a ha
    obtain ⟨d, d', hd, hd', hdd⟩ := hco c hc
    unfold compareNodes at hlt ⊢
    rw [hb, hd] at hlt
    rw [hb', hd']
    exact (hops.total.neg_congr_left hbb _).mp ((hops.total.neg_congr_right hdd _).mp hlt)

section
variable (t : RbTree E) (z par : Ptr) (key : K)

@[simp] theorem data_attach : (t.attach ops z par key).data = t.data := by
  simp only [attach]
  split_ifs <;> simp

@[simp] theorem nil_attach : (t.attach ops z par key).nil = t.nil := by
  simp only [attach]
  split_ifs <;> simp

@[simp] theorem color_attach : (t.attach ops z par key).color = t.color := by
  simp only [attach]
  split_ifs <;> simp

end

theorem Searching.labels {key} (hs : Searching ops t key T ctx .nil) :
    T.toList = before ctx ++ after ctx := by
  rw [hs.whole, toList_plug]
  simp [toList]

theorem Filled.insert (hops : ops.Lawful) (h : Filled ops t T.toList)
    (hs : Searching ops t (ops.key e) T ctx .nil) (hz : z ≠ NULL) (he : t.element z = some e)
    (n : Int) (hn : n = t.size + 1) : Filled ops (t.setSize n) (before ctx ++ z :: after ctx) := by
  rw [hs.labels] at h
  obtain ⟨hni, hnu, hf, hso, hsi⟩ := h
  refine ⟨hni, ?_, ?_, ?_, ?_⟩
  · intro p hp
    obtain rfl | hp := mem_cons.mp (perm_middle.mem_iff.mp hp)
    · exact hz
    · exact hnu p hp
  · intro p hp
    obtain rfl | hp := mem_cons.mp (perm_middle.mem_iff.mp hp)
    · exact Option.isSome_of_eq_some he
    · exact hf p hp
  · show (before ctx ++ z :: after ctx).Pairwise fun p q => t.compareNodes ops p q < 0
    rw [pairwise_append] at hso ⊢
    obtain ⟨hb, ha, hba⟩ := hso
    refine ⟨hb, pairwise_cons.mpr ⟨fun q hq => ?_, ha⟩, fun p hp q hq => ?_⟩
    · have hgt := hs.greater q hq
      rw [← compareNodes_swap hops]
      unfold compareKey at hgt
      unfold compareNodes
      cases hq' : t.element q <;> simp_all
    · rcases mem_cons.mp hq with rfl | hq
      · have hlt := hs.less p hp
        unfold compareKey at hlt
        unfold compareNodes
        cases hp' : t.element p <;> simp_all
      · exact hba p hp q hq
  · show n = _
    simp only [length_append, length_cons] at hsi ⊢
    omega

theorem filterMap_setElement {o} (h : x ∉ L) :
    L.filterMap (t.setElement x o).element = L.filterMap t.element :=
  filterMap_congr fun _ hp => element_setElement_of_ne (ne_of_mem_of_not_mem' hp h)

/-- The tree with the new node hung in, before its repair. -/
def withAttached (A : Allocator) (ops : KeyOps E K) (t : RbTree E) (e : E) (par : Ptr) :
    RbTree E :=
  let t' := (t.withNode A e).attach ops (A.fresh t.live) par (ops.key e)
  t'.setSize (t'.size + 1)

section
variable {ctx : List (Frame Ptr)}

section
variable (A : Allocator) (ops : KeyOps E K) (t : RbTree E) (e : E) (par : Ptr)

theorem data_withAttached :
    (withAttached A ops t e par).data =
      ((t.withNode A e).element, t.size + 1, A.fresh t.live :: t.live) := by
  have hd : ((t.withNode A e).attach ops (A.fresh t.live) par (ops.key e)).data =
    (t.withNode A e).data := data_attach _ _ _ _
  have hs : ((t.withNode A e).attach ops (A.fresh t.live) par (ops.key e)).size = t.size :=
    congrArg (·.2.1) hd
  exact Prod.ext (congrArg (·.1) hd) (Prod.ext (congrArg (· + 1) hs) (congrArg (·.2.2) hd))

theorem nil_withAttached : (withAttached A ops t e par).nil = t.nil :=
  nil_attach _ _ _ _

end

theorem attach_inv (h : TreeInv ops t T)
    (hs : Searching ops (t.withNode A e) (ops.key e) T ctx .nil) :
    FixInv (withAttached A ops t e (parentPtr t.nil ctx))
      (before ctx ++ A.fresh t.live :: after ctx) ctx.length
      (withAttached A ops t e (parentPtr t.nil ctx), A.fresh t.live) := by
  have hw : TreeInv ops (t.withNode A e) T := h.withNode
  have hzc : A.fresh t.live ∉ ctxLabels ctx := by
    rw [ctxLabels, ← hs.labels]
    exact h.fresh_not_mem
  have hsi : ∀ f ctx', ctx = f :: ctx' →
      ((t.withNode A e).rbNodeIsGreaterThan ops f.label (ops.key e) = true ↔ f.side = .left) := by
    rintro ⟨s, c, p, u⟩ ctx' rfl
    rw [rbNodeIsGreaterThan_iff]
    cases s with
    | left => simpa using hs.greater p (by simp [after])
    | right =>
      have := hs.less p (by simp [before])
      simp
      omega
  have hr := hw.represents
  rw [hs.whole] at hr
  have ha := hr.attach (z := A.fresh t.live) (h.fresh_ne_nil (A := A)) hzc withNode_color
    withNode_child hsi
  have hnb := hw.nilBlack
  obtain ⟨n, hb⟩ := h.balanced
  rw [hs.whole] at hb
  obtain ⟨c, k, hbn, hf⟩ := Fits.of_plug hb
  cases hbn
  refine ⟨ctx, .node .red .nil (A.fresh t.live) .nil, 0, rfl, ⟨ha.setSize _, rfl, rfl, ?_⟩,
    rfl, .red .nil .nil, hf, by simp [toList_plug, toList]⟩
  show ((t.withNode A e).attach ops (A.fresh t.live) (parentPtr t.nil ctx) (ops.key e)).color
    ((t.withNode A e).attach ops (A.fresh t.live) (parentPtr t.nil ctx) (ops.key e)).nil = .black
  rw [color_attach, nil_attach]
  exact hnb

theorem attach_spec (hops : ops.Lawful) (h : TreeInv ops t T)
    (hs : Searching ops (t.withNode A e) (ops.key e) T ctx .nil) :
    ∃ t' T', (withAttached A ops t e (parentPtr t.nil ctx)).rbNodeFix (A.fresh t.live) = pure t' ∧
      TreeInv ops t' T' ∧ T'.toList = before ctx ++ A.fresh t.live :: after ctx ∧
      t'.element = (t.withNode A e).element ∧ t'.nil = t.nil ∧ t'.live = A.fresh t.live :: t.live ∧
      Outside (t.nil :: A.fresh t.live :: T.toList) (t.withNode A e) t' := by
  have hd := data_withAttached A ops t e (parentPtr t.nil ctx)
  have hn := nil_withAttached A ops t e (parentPtr t.nil ctx)
  have hf := (h.withNode (A := A) (e := e)).filled.insert hops hs (A.fresh_ne_null t.live)
    (by rw [withNode_element, if_pos rfl]) (t.size + 1) rfl
  have hm : ∀ p, p ∈ before ctx ++ A.fresh t.live :: after ctx ↔
      p = A.fresh t.live ∨ p ∈ T.toList := by
    intro p
    rw [perm_middle.mem_iff, mem_cons, ← hs.labels]
  have hpa : parentPtr t.nil ctx ∈ t.nil :: A.fresh t.live :: T.toList := by
    have hN := among_self t T
    rw [hs.whole] at hN ⊢
    exact (List.Sublist.cons_cons _ (sublist_cons_self _ _)).subset hN.parentPtr
  have ho : Outside (t.nil :: A.fresh t.live :: T.toList) (t.withNode A e)
      (withAttached A ops t e (parentPtr t.nil ctx)) :=
    ((Outside.refl _ _).attach (by simp) hpa).trans fun z _ => sameAt_setSize _ z
  have hde := attach_inv h hs
  generalize withAttached A ops t e (parentPtr t.nil ctx) = t2 at hd hn ho hde ⊢
  have he : t2.element = (t.withNode A e).element := congrArg (·.1) hd
  have hsi : t2.size = t.size + 1 := congrArg (·.2.1) hd
  have hl : t2.live = A.fresh t.live :: t.live := congrArg (·.2.2) hd
  obtain ⟨t', hfi, hr⟩ := rbNodeFix_spec hde
  have hf2 : Filled ops t2 (before ctx ++ A.fresh t.live :: after ctx) :=
    hf.frame hn hsi fun p _ => congrFun he p
  have hll : ∀ p ∈ before ctx ++ A.fresh t.live :: after ctx, p ∈ t2.live := by
    intro p hp
    rw [hl]
    obtain rfl | hp := (hm p).mp hp
    · exact (.head _)
    · exact .tail _ (h.live p hp)
  have hnl : t2.nil ∈ t2.live := by
    rw [hn, hl]
    exact .tail _ h.nilLive
  obtain ⟨T', hi, hT'⟩ := hr.treeInv hf2 hnl hll
  have hfx := rbNodeFix_outside (N := t.nil :: A.fresh t.live :: T.toList) hde
    (hn ▸ (.head _)) (fun p hp => mem_cons_of_mem _ (mem_cons.mpr ((hm p).mp hp))) hfi
  obtain ⟨W, _, hla, _, _⟩ := hr
  exact ⟨t', T', hfi, hi, hT', (congrArg (·.1) hla.data).trans he, hla.nil.trans hn,
    (congrArg (·.2.2) hla.data).trans hl, ho.trans hfx⟩

end

/-- **An insertion puts its element where its key belongs**, or in place of
the element with an equal key. -/
theorem insert_spec (A : Allocator) (hops : ops.Lawful) (h : TreeInv ops t T) (e : E) :
    ∃ t' T', t.insert A ops e = pure t' ∧ TreeInv ops t' T' ∧
      entries t' T' = insert ops.key ops.compare e (entries t T) ∧ Apart t t' T T' := by
  have hw : TreeInv ops (t.withNode A e) T := h.withNode
  have hen : entries (t.withNode A e) T = entries t T := by
    refine entries_congr fun p hp => ?_
    rw [withNode_element, if_neg (ne_of_mem_of_not_mem' hp h.fresh_not_mem)]
  obtain ⟨found, hpo, hi, hin⟩ := insertionPoint_spec hops hw.represents hw.filled (ops.key e)
  unfold RbTree.insert
  rw [← hen]
  simp only [hpo, pure_bind]
  cases found with
  | inl x =>
    obtain ⟨hx, heq⟩ := hi x rfl
    have hse := hw.setElement hops heq
    have hu : (t.withNode A e).rbNodeUpdate x (A.fresh t.live) =
        ((t.withNode A e).setElement x (some e)).deallocate (A.fresh t.live) := by
      rw [rbNodeUpdate, withNode_element, if_pos rfl]
    refine ⟨_, T, rfl, ?_, ?_, rfl, fun z hz _ hzT => ?_, fun _ => .inl⟩
    · rw [hu]
      exact hse.deallocate h.fresh_ne_nil h.fresh_not_mem
    · obtain ⟨L₁, L₂, hL⟩ := append_of_mem hx
      obtain ⟨a, _, hk, hsp⟩ := hw.entry hL heq
      have hso := hw.sorted
      rw [hsp] at hso ⊢
      have hn := hw.not_mem_rest hL
      rw [mem_append, not_or] at hn
      rw [insert_equal hops.total hso hk, hu,
        entries_congr fun p hp => element_deallocate (ne_of_mem_of_not_mem' hp h.fresh_not_mem),
        entries, hL, filterMap_append, filterMap_setElement hn.1,
        filterMap_cons_some (b := e) (by simp [setElement]),
        filterMap_setElement hn.2]
    · have hzf : z ≠ A.fresh t.live := ne_of_mem_of_not_mem' hz (A.fresh_not_mem t.live)
      have hzx : z ≠ x := fun he => hzT (he ▸ hx)
      rw [hu]
      refine ⟨((withNode_sameAt hzf).trans (sameAt_setElement x (some e) z)).trans
        (sameAt_deallocate hzf), ?_, (mem_erase_of_ne hzf).mpr (.tail _ hz)⟩
      rw [element_deallocate hzf, element_setElement_of_ne hzx, withNode_element, if_neg hzf]
  | inr parent =>
    obtain ⟨ctx, hs, rfl⟩ := hin parent rfl
    obtain ⟨t', T', hf, hiv, hT', hel, hni, hl, ho⟩ := attach_spec hops h hs
    refine ⟨t', T', ?_, hiv, ?_, hni, fun z hz hzn hzT => ?_, fun p hp => ?_⟩
    · unfold withAttached at hf
      simp only [withNode_nil, hf, pure_bind, hiv.pass hops]
    · rw [entries, hT', hel, entries, hs.labels, filterMap_append, filterMap_append,
        filterMap_cons_some (b := e) (by rw [withNode_element, if_pos rfl])]
      exact (insert_between (forall_filterMap (P := (· < 0)) hs.less)
        (forall_filterMap (P := (· > 0)) hs.greater)).symm
    · have hzf : z ≠ A.fresh t.live := ne_of_mem_of_not_mem' hz (A.fresh_not_mem t.live)
      refine ⟨(withNode_sameAt hzf).trans (ho z ?_), ?_, ?_⟩
      · rw [mem_cons, mem_cons, not_or, not_or]
        exact ⟨hzn, hzf, hzT⟩
      · rw [hel, withNode_element, if_neg hzf]
      · rw [hl]
        exact .tail _ hz
    · rw [hT', perm_middle.mem_iff, mem_cons, ← hs.labels] at hp
      rcases hp with rfl | hp
      · exact .inr (A.fresh_not_mem t.live)
      · exact .inl hp

end

/-! ## A new tree, and what is read from a tree -/

theorem treeInv_create (A : Allocator) : TreeInv ops (create A : RbTree E) .nil :=
  ⟨⟨rfl, trivial, nodup_nil⟩, ⟨0, .nil⟩, rfl,
    ⟨A.fresh_ne_null [], nofun, nofun, List.Pairwise.nil, rfl⟩, mem_singleton_self _, nofun⟩

theorem TreeInv.size_eq (h : TreeInv ops t T) : t.size = (entries t T).length :=
  h.filled.length_entries

variable (hops : ops.Lawful) (h : TreeInv ops t T)
include hops h

theorem getKey_spec (key : K) :
    t.getKey ops key = pure (find ops.key ops.compare key (entries t T)) := by
  obtain ⟨found, hf, hs, hn⟩ := rbFindNode_spec hops h.represents h.filled key
  unfold getKey
  rw [h.pass hops, pure_bind, hf, pure_bind]
  cases found with
  | none => rw [entries, find_absent (forall_filterMap (P := (· ≠ 0)) (hn rfl))]
  | some x =>
    obtain ⟨hx, heq⟩ := hs x rfl
    obtain ⟨L₁, L₂, hL⟩ := append_of_mem hx
    obtain ⟨e, he, hk, hsp⟩ := h.entry hL heq
    have hso := h.sorted
    rw [hsp] at hso ⊢
    rw [find_equal hops.total hso hk]
    exact congrArg pure he

theorem sizeOf_spec : t.sizeOf ops = pure ((entries t T).length : Int) := by
  unfold RbTree.sizeOf
  rw [h.pass hops, pure_bind, h.size_eq]

theorem extreme_spec (s : Side) :
    t.extreme ops s = pure (match s with
      | .left => (entries t T).head?
      | .right => (entries t T).getLast?) := by
  unfold extreme
  rw [h.pass hops, pure_bind, h.size_eq]
  by_cases hT : T = .nil
  · subst hT
    cases s <;> simp [entries, toList]
  · obtain ⟨y, hy, ctx, c, Q, hp, hs⟩ := relativeNode_spec s h.represents.rep hT
    have hm : y ∈ T.toList := by
      rw [hp, toList_plug]
      simp [mem_toList_join]
    obtain ⟨e, he⟩ := Option.isSome_iff_exists.mp (h.filled.full y hm)
    have hne : ((entries t T).length : Int) ≠ 0 := by
      have hpo : 0 < (entries t T).length :=
        length_pos_of_mem (mem_filterMap.mpr ⟨y, hm, he⟩)
      omega
    rw [if_neg hne, h.represents.root, hy, pure_bind, he]
    cases s
    · rw [entries, hp, toList_plug, before_eq_nil hs]
      simp [join, toList, he]
    · rw [entries, hp, toList_plug, after_eq_nil hs]
      simp [join, toList, he]

theorem collect_spec {β : Type} (f : E → β) : t.collect ops f = pure ((entries t T).map f) := by
  have hf : ∀ (L : List Ptr) (acc : List β), (∀ p ∈ L, (t.element p).isSome) →
      L.foldlM (fun list p => (do
        let e ← assertNotNull (t.element p) "Not a valid keyValue"
        pure (list ++ [f e]) : Prog (List β))) acc =
      pure (acc ++ (L.filterMap t.element).map f) := by
    intro L
    induction L with
    | nil => intro acc _; simp
    | cons p L ih =>
      intro acc hfu
      obtain ⟨e, he⟩ := Option.isSome_iff_exists.mp (hfu p (by simp))
      rw [foldlM_cons, he, assertNotNull_some, pure_bind, pure_bind,
        ih _ fun q hq => hfu q (by simp [hq]), filterMap_cons_some he]
      simp
  unfold collect
  rw [h.pass hops, pure_bind, h.size_eq]
  by_cases hT : T = .nil
  · subst hT
    simp [entries, toList]
  · have hp : ((entries t T).length : Int) > 0 := by
      rw [← h.size_eq, h.filled.size]
      cases T with
      | nil => exact absurd rfl hT
      | node c l x r => simp [toList]; omega
    rw [if_pos hp, h.represents.root, rbNodeRecursiveRun_eq _ _ h.represents.rep hT,
      hf _ _ h.filled.full]
    rfl

end Libparc.RedBlackNodes
