import Libparc.Compare
import Libparc.Algol.RedBlackShape

/-! # Walking and searching the tree

`_rbNodeRecursiveRun` visits the nodes in order, so the checks of
`_rbNodeAssertTreeInvariants` pass on every tree whose nodes are sorted
(`Filled`). A descent by comparison ends at the node with an equal key, or in
the one hole the key belongs to. -/
namespace Libparc.RedBlackNodes
open Libparc.RedBlack Exec ColorTree RbTree
open List hiding after

variable {E K σ : Type} {ops : KeyOps E K} {t : RbTree E}

/-- Equality and order of the keys are one total order. -/
structure KeyOps.Lawful (ops : KeyOps E K) : Prop where
  total : TotalCompare ops.compare
  equals_iff : ∀ a b, ops.equals a b = true ↔ ops.compare a b = 0

/-! ## Walking -/

variable {T : ColorTree Ptr}

theorem ptr_ne_nil {par} (h : Rep t T par) : ptr t.nil T ≠ t.nil ↔ T ≠ .nil := by
  cases T with
  | nil => simp
  | node c l x r => simpa using h.1

theorem rbNodeRecursiveRun_eq (func : Ptr → σ → Prog σ) : ∀ {T par} (data : σ),
    Rep t T par → T ≠ .nil →
    t.rbNodeRecursiveRun func (ptr t.nil T) data = T.toList.foldlM (fun d p => func p d) data
  | .node c l x r, par, data, h, _ => by
    obtain ⟨_, _, _, hl, hr, hL, hR⟩ := h
    have hs : ∀ {U : ColorTree Ptr} {q : Ptr} (d : σ), Rep t U x → q = ptr t.nil U →
        (U ≠ .nil → t.rbNodeRecursiveRun func (ptr t.nil U) d =
          U.toList.foldlM (fun d p => func p d) d) →
        (if q ≠ t.nil then t.rbNodeRecursiveRun func q d else pure d) =
          U.toList.foldlM (fun d p => func p d) d := by
      intro U q d hU hq ih
      subst hq
      by_cases hne : U = .nil
      · subst hne
        simp [toList]
      · rw [if_pos ((ptr_ne_nil hU).mpr hne), ih hne]
    rw [ptr_node, rbNodeRecursiveRun]
    rw [hs (q := t.leftChild x) data hL hl fun hne => rbNodeRecursiveRun_eq func data hL hne]
    simp only [toList, foldlM_append, foldlM_cons]
    congr 1
    funext d
    congr 1
    funext d'
    exact hs d' hR hr fun hne => rbNodeRecursiveRun_eq func d' hR hne

/-- The nodes `L`, in order, are in use, carry elements with increasing keys
and are counted by `size`. -/
structure Filled (ops : KeyOps E K) (t : RbTree E) (L : List Ptr) : Prop where
  nilNonNull : t.nil ≠ NULL
  nonNull : ∀ p ∈ L, p ≠ NULL
  full : ∀ p ∈ L, (t.element p).isSome
  sorted : L.Pairwise fun p q => t.compareNodes ops p q < 0
  size : t.size = L.length

theorem Filled.frame {t0 L} (h : Filled ops t0 L) (hn : t.nil = t0.nil) (hs : t.size = t0.size)
    (he : ∀ p ∈ L, t.element p = t0.element p) : Filled ops t L := by
  refine ⟨hn ▸ h.nilNonNull, h.nonNull, fun p hp => he p hp ▸ h.full p hp, ?_, hs.trans h.size⟩
  refine h.sorted.imp_of_mem fun {p q} hp hq hlt => ?_
  unfold compareNodes at hlt ⊢
  rwa [he p hp, he q hq]

theorem Filled.congr {t0 L} (h : Filled ops t0 L)
    (hd : t.data = t0.data) (hn : t.nil = t0.nil) : Filled ops t L :=
  h.frame hn (congrArg (·.2.1) hd) fun p _ => congrFun (congrArg (·.1) hd) p

theorem compareNodes_swap (hops : ops.Lawful) (p q : Ptr) :
    t.compareNodes ops p q > 0 ↔ t.compareNodes ops q p < 0 := by
  unfold compareNodes
  cases t.element p <;> cases t.element q <;> simp [hops.total.pos_iff_swap]

theorem ptr_mem {nil} (h : T ≠ .nil) : ptr nil T ∈ T.toList := by
  cases T with
  | nil => exact absurd rfl h
  | node c l x r => simp [toList]

theorem RepCtx.parentPtr_ne {ctx x} (h : RepCtx t ctx x)
    (hx : x ≠ t.root) : parentPtr t.nil ctx ≠ t.nil := by
  intro he
  rw [h.parent_eq_nil] at he
  subst he
  exact hx (Eq.symm h)

theorem forM_assertTrue {cond} (h : cond = true) :
    ∀ texts : List String, forM texts (assertTrue cond) = pure ()
  | [] => rfl
  | text :: texts => by
    rw [List.forM_cons, assertTrue_of h, pure_bind, forM_assertTrue h texts]

theorem rbNodeAssertNodeInvariants_pass {x} (hops : ops.Lawful) (h : Represents t T)
    (hf : Filled ops t T.toList) (hx : x ∈ T.toList) :
    t.rbNodeAssertNodeInvariants ops x () = pure () := by
  obtain ⟨ctx, c, l, r, rfl⟩ := exists_plug_of_mem hx
  obtain ⟨hc, ⟨_, _, hpa, hl, hr, hL, hR⟩, _⟩ := represents_plug.mp h
  have hli : (plug ctx (.node c l x r)).toList =
      before ctx ++ (l.toList ++ x :: r.toList) ++ after ctx := toList_plug _ _
  have hm : ∀ {p : Ptr}, p = t.nil ∨ p ∈ (plug ctx (.node c l x r)).toList → p ≠ NULL := by
    rintro p (rfl | hp)
    · exact hf.nilNonNull
    · exact hf.nonNull p hp
  have hs : ∀ {U : ColorTree Ptr}, (∀ p ∈ U.toList, p ∈ (plug ctx (.node c l x r)).toList) →
      ptr t.nil U ≠ NULL := by
    intro U hU
    by_cases hne : U = .nil
    · subst hne
      exact hm (.inl rfl)
    · exact hm (.inr (hU _ (ptr_mem hne)))
  have hpr : t.parent x ≠ NULL := by
    rw [hpa]
    cases ctx with
    | nil => exact hm (.inl rfl)
    | cons f ctx =>
      refine hm (.inr ?_)
      rw [toList_plug, mem_append, mem_append, or_right_comm, ← mem_append]
      exact .inl (mem_ctxLabels_cons.mpr (.inl rfl))
  have hso := hf.sorted
  rw [hli, append_assoc, pairwise_append, append_assoc, pairwise_append] at hso
  obtain ⟨_, ⟨_, hxr, hlx⟩, _⟩ := hso
  have hle : t.leftChild x ≠ t.nil → t.compareNodes ops x (t.leftChild x) > 0 := by
    intro hne
    rw [leftChild_eq, hl] at hne ⊢
    exact (compareNodes_swap hops _ _).mpr (hlx _ (ptr_mem ((ptr_ne_nil hL).mp hne)) x (by simp))
  have hri : t.rightChild x ≠ t.nil → t.compareNodes ops x (t.rightChild x) < 0 := by
    intro hne
    rw [rightChild_eq, hr] at hne ⊢
    rw [cons_append, pairwise_cons] at hxr
    exact hxr.1 _ (by simp [ptr_mem ((ptr_ne_nil hR).mp hne)])
  have hln : t.leftChild x ≠ NULL := by
    rw [leftChild_eq, hl]
    exact hs fun p hp => by simp [hli, hp]
  have hrn : t.rightChild x ≠ NULL := by
    rw [rightChild_eq, hr]
    exact hs fun p hp => by simp [hli, hp]
  have hro : x ≠ t.root → t.parent x ≠ t.nil := fun hne => hpa ▸ hc.parentPtr_ne hne
  unfold rbNodeAssertNodeInvariants
  rw [assertTrue_of (by simpa using hpr), assertTrue_of (by simpa using hln),
    assertTrue_of (by simpa using hrn), assertIf_of (by simpa using hro),
    forM_assertTrue (hf.full x hx), assertIf_of fun hne => decide_eq_true (hle hne),
    assertIf_of fun hne => decide_eq_true (hri hne)]
  rfl

theorem foldlM_pure {f : Unit → Ptr → Prog Unit} : ∀ {L : List Ptr},
    (∀ p ∈ L, f () p = pure ()) → L.foldlM f () = pure ()
  | [], _ => rfl
  | p :: L, h => by
    rw [foldlM_cons, h p (by simp)]
    exact foldlM_pure fun q hq => h q (by simp [hq])

/-- **The invariant checks pass on every sorted tree.** -/
theorem rbNodeAssertTreeInvariants_pass (hops : ops.Lawful) (h : Represents t T)
    (hf : Filled ops t T.toList) : t.rbNodeAssertTreeInvariants ops = pure () := by
  unfold rbNodeAssertTreeInvariants
  rw [assertTrue_of (by simp [hf.size])]
  cases T with
  | nil =>
    have hs : t.size = 0 := by rw [hf.size]; rfl
    rw [if_neg (not_not.mpr hs)]
    rfl
  | node c l x r =>
    have hs : t.size ≠ 0 := by
      rw [hf.size]
      simp [toList]
      omega
    have hx : x ∈ (node c l x r).toList := by simp [toList]
    have hr : t.root = x := h.root
    have hw := rbNodeRecursiveRun_eq (t.rbNodeAssertNodeInvariants ops) () h.rep (by simp)
    rw [ptr_node] at hw
    rw [if_pos hs, hr, assertTrue_of (by simpa using h.rep.1),
      assertTrue_of (by simpa using hf.nonNull x hx), hw]
    exact foldlM_pure fun p hp => rbNodeAssertNodeInvariants_pass hops h hf hp

/-! ## Searching -/

/-- How the key of a node compares with a key. -/
def RbTree.compareKey (ops : KeyOps E K) (t : RbTree E) (p : Ptr) (key : K) : Int :=
  match t.element p with
  | none => 0
  | some e => ops.compare (ops.key e) key

variable {p q x : Ptr} {key : K} {T U l r : ColorTree Ptr} {c : Color} {ctx : List (Frame Ptr)}

theorem rbNodeIsEqual_iff (hops : ops.Lawful) (h : (t.element p).isSome) :
    t.rbNodeIsEqual ops p key = true ↔ t.compareKey ops p key = 0 := by
  obtain ⟨e, he⟩ := Option.isSome_iff_exists.mp h
  simp only [rbNodeIsEqual, compareKey, he, hops.equals_iff]

theorem rbNodeIsGreaterThan_iff :
    t.rbNodeIsGreaterThan ops p key = true ↔ t.compareKey ops p key > 0 := by
  unfold rbNodeIsGreaterThan compareKey
  cases t.element p <;> simp

section
variable (hops : ops.Lawful) (h : t.compareNodes ops p q < 0)
include hops h

theorem compareKey_pos_of_lt (hp : t.compareKey ops p key > 0) : t.compareKey ops q key > 0 := by
  unfold compareNodes at h
  unfold compareKey at hp ⊢
  cases hep : t.element p <;> cases heq : t.element q <;> simp only [hep, heq] at h hp ⊢
  any_goals omega
  rw [gt_iff_lt, hops.total.pos_iff_swap] at hp ⊢
  exact hops.total.lt_trans hp h

theorem compareKey_neg_of_lt (hq : t.compareKey ops q key < 0) : t.compareKey ops p key < 0 := by
  unfold compareNodes at h
  unfold compareKey at hq ⊢
  cases hep : t.element p <;> cases heq : t.element q <;> simp only [hep, heq] at h hq ⊢
  any_goals omega
  exact hops.total.lt_trans h hq

end

/-- The search for `key` has come down to the subtree `U` of `T`: what it left
behind on either side is smaller, and greater, than the key. -/
structure Searching (ops : KeyOps E K) (t : RbTree E) (key : K) (T : ColorTree Ptr)
    (ctx : List (Frame Ptr)) (U : ColorTree Ptr) : Prop where
  whole : T = plug ctx U
  less : ∀ p ∈ before ctx, t.compareKey ops p key < 0
  greater : ∀ p ∈ after ctx, t.compareKey ops p key > 0

theorem Searching.start : Searching ops t key T [] T := ⟨rfl, by simp [before], by simp [after]⟩

theorem Searching.mem (h : Searching ops t key T ctx U) (hp : p ∈ U.toList) : p ∈ T.toList := by
  rw [h.whole, toList_plug]
  simp [hp]

section
variable (hops : ops.Lawful) (hf : Filled ops t T.toList)
  (h : Searching ops t key T ctx (.node c l x r))
include hops hf h

theorem Searching.goLeft (hx : t.compareKey ops x key > 0) :
    Searching ops t key T (⟨.left, c, x, r⟩ :: ctx) l := by
  refine ⟨h.whole, h.less, fun p hp => ?_⟩
  have hs := hf.sorted
  rw [h.whole, toList_plug, pairwise_append, pairwise_append] at hs
  obtain ⟨⟨_, hn, _⟩, _, _⟩ := hs
  rw [toList, pairwise_append, pairwise_cons] at hn
  simp only [after, cons_append, mem_cons, mem_append] at hp
  rcases hp with rfl | hp | hp
  · exact hx
  · exact compareKey_pos_of_lt hops (hn.2.1.1 p hp) hx
  · exact h.greater p hp

theorem Searching.goRight (hx : t.compareKey ops x key < 0) :
    Searching ops t key T (⟨.right, c, x, l⟩ :: ctx) r := by
  refine ⟨h.whole, fun p hp => ?_, h.greater⟩
  have hs := hf.sorted
  rw [h.whole, toList_plug, pairwise_append, pairwise_append] at hs
  obtain ⟨⟨_, hn, _⟩, _, _⟩ := hs
  rw [toList, pairwise_append] at hn
  simp only [before, mem_append, mem_singleton] at hp
  rcases hp with (hp | hp) | rfl
  · exact h.less p hp
  · exact compareKey_neg_of_lt hops (hn.2.2 p hp x (by simp)) hx
  · exact hx

end

theorem Searching.turn (hops : ops.Lawful) (hre : Represents t T) (hf : Filled ops t T.toList)
    (h : Searching ops t key T ctx (.node c l x r)) :
    x ≠ t.nil ∧ ((t.rbNodeIsEqual ops x key = true ∧ t.compareKey ops x key = 0) ∨
      t.rbNodeIsEqual ops x key = false ∧
      ((t.rbNodeIsGreaterThan ops x key = true ∧ t.leftChild x = ptr t.nil l ∧
        Searching ops t key T (⟨.left, c, x, r⟩ :: ctx) l) ∨
       (t.rbNodeIsGreaterThan ops x key = false ∧ t.rightChild x = ptr t.nil r ∧
        Searching ops t key T (⟨.right, c, x, l⟩ :: ctx) r))) := by
  rw [h.whole] at hre
  obtain ⟨_, ⟨hx, _, _, hl, hr, _, _⟩, _⟩ := represents_plug.mp hre
  have heq : t.rbNodeIsEqual ops x key = true ↔ t.compareKey ops x key = 0 :=
    rbNodeIsEqual_iff hops (hf.full x (h.mem (by simp [toList])))
  refine ⟨hx, ?_⟩
  rcases Int.lt_trichotomy (t.compareKey ops x key) 0 with hlt | hz | hgt
  · refine .inr ⟨?_, .inr ⟨?_, hr, h.goRight hops hf hlt⟩⟩
    · rw [Bool.eq_false_iff, ne_eq, heq]
      omega
    · rw [Bool.eq_false_iff, ne_eq, rbNodeIsGreaterThan_iff]
      omega
  · exact .inl ⟨heq.mpr hz, hz⟩
  · refine .inr ⟨?_, .inl ⟨rbNodeIsGreaterThan_iff.mpr hgt, hl, h.goLeft hops hf hgt⟩⟩
    rw [Bool.eq_false_iff, ne_eq, heq]
    omega

theorem Searching.absent (h : Searching ops t key T ctx .nil) (hp : p ∈ T.toList) :
    t.compareKey ops p key ≠ 0 := by
  rw [h.whole, toList_plug] at hp
  simp only [toList, append_nil, mem_append] at hp
  rcases hp with hp | hp
  · have := h.less p hp
    omega
  · have := h.greater p hp
    omega

section
variable (hops : ops.Lawful) (hre : Represents t T) (hf : Filled ops t T.toList) (key : K)
include hops hre hf

/-- **`_rbFindNode` ends** with the node of an equal key, or with NULL when
there is none. -/
theorem rbFindNode_spec :
    ∃ found, t.rbFindNode ops t.root key = pure found ∧
      (∀ p, found = some p → p ∈ T.toList ∧ t.compareKey ops p key = 0) ∧
      (found = none → ∀ p ∈ T.toList, t.compareKey ops p key ≠ 0) := by
  refine loop_variant (fun m node => ∃ ctx U, Searching ops t key T ctx U ∧ node = ptr t.nil U ∧
      U.toList.length = m) _ ?_ ⟨[], T, .start, hre.root, rfl⟩
  rintro m node ⟨ctx, U, hs, rfl, rfl⟩
  cases U with
  | nil => exact .inl ⟨none, by simp, nofun, fun _ p hp => hs.absent hp⟩
  | node c l x r =>
    obtain ⟨hx, ⟨heq, hz⟩ | ⟨hne, ⟨hgt, hl, hs'⟩ | ⟨hle, hr, hs'⟩⟩⟩ := hs.turn hops hre hf
    · refine .inl ⟨some x, by simp [hx, heq], ?_, nofun⟩
      rintro p ⟨⟩
      exact ⟨hs.mem (by simp [toList]), hz⟩
    · refine .inr ⟨_, _, ?_, ⟨_, l, hs', hl, rfl⟩, ?_⟩
      · simp [hx, hne, hgt]
      · simp only [toList, length_append, length_cons]
        omega
    · refine .inr ⟨_, _, ?_, ⟨_, r, hs', hr, rfl⟩, ?_⟩
      · simp [hx, hne, hle]
      · simp only [toList, length_append, length_cons]
        omega

/-- **The descent of an insertion ends** at the node with an equal key, or in
the hole where the key belongs. -/
theorem insertionPoint_spec :
    ∃ found, t.insertionPoint ops key = pure found ∧
      (∀ p, found = .inl p → p ∈ T.toList ∧ t.compareKey ops p key = 0) ∧ (∀ par, found = .inr par →
        ∃ ctx, Searching ops t key T ctx .nil ∧ par = parentPtr t.nil ctx) := by
  refine loop_variant (fun m s => ∃ ctx U, Searching ops t key T ctx U ∧ s.1 = ptr t.nil U ∧
      s.2 = parentPtr t.nil ctx ∧ U.toList.length = m) _ ?_ ⟨[], T, .start, hre.root, rfl, rfl⟩
  rintro m ⟨node, parent⟩ ⟨ctx, U, hs, hn, hp, rfl⟩
  subst hn hp
  cases U with
  | nil =>
    refine .inl ⟨.inr (parentPtr t.nil ctx), by simp, nofun, ?_⟩
    rintro par ⟨⟩
    exact ⟨ctx, hs, rfl⟩
  | node c l x r =>
    obtain ⟨hx, ⟨heq, hz⟩ | ⟨hne, ⟨hgt, hl, hs'⟩ | ⟨hle, hr, hs'⟩⟩⟩ := hs.turn hops hre hf
    · refine .inl ⟨.inl x, by simp [hx, heq], ?_, nofun⟩
      rintro p ⟨⟩
      exact ⟨hs.mem (by simp [toList]), hz⟩
    · refine .inr ⟨(ptr t.nil l, x), _, ?_, ⟨_, l, hs', rfl, rfl, rfl⟩, ?_⟩
      · simpa [hx, hne, hgt, pure_inj] using hl
      · simp only [toList, length_append, length_cons]
        omega
    · refine .inr ⟨(ptr t.nil r, x), _, ?_, ⟨_, r, hs', rfl, rfl, rfl⟩, ?_⟩
      · simpa [hx, hne, hle, pure_inj] using hr
      · simp only [toList, length_append, length_cons]
        omega

end

/-- **Going down one side ends** at the node that has nothing on that side. -/
theorem relativeNode_spec (s : Side) {par} (hr : Rep t T par) (hne : T ≠ .nil) :
    ∃ y, t.relativeNode s (ptr t.nil T) = pure y ∧ ∃ ctx c Q,
      T = plug ctx (.join s c .nil y Q) ∧ ∀ f ∈ ctx, f.side = s := by
  refine loop_variant
    (fun m node => ∃ ctx U par, T = plug ctx U ∧ U ≠ .nil ∧ node = ptr t.nil U ∧ Rep t U par ∧
      (∀ f ∈ ctx, f.side = s) ∧ U.toList.length = m) _ ?_
    ⟨[], T, par, rfl, hne, rfl, hr, by simp, rfl⟩
  rintro m node ⟨ctx, U, par, rfl, hU, rfl, hr, hsi, rfl⟩
  cases U with
  | nil => exact absurd rfl hU
  | node c l x r =>
    obtain ⟨a, b, he⟩ := node_eq_join s c l x r
    rw [he] at hr ⊢
    obtain ⟨_, _, _, hs, _, ha, _⟩ := rep_join.mp hr
    by_cases hn : a = .nil
    · subst hn
      refine .inl ⟨x, ?_, ctx, c, b, rfl, hsi⟩
      simp [hs]
    · refine .inr ⟨_, _, ?_, ⟨⟨s, c, x, b⟩ :: ctx, a, x, rfl, hn, rfl, ha, ?_, rfl⟩, ?_⟩
      · simp [hs, (ptr_ne_nil ha).mpr hn]
      · simpa using hsi
      · exact length_lt_join s c a x b

end Libparc.RedBlackNodes
