import Libparc.Algol.RedBlackMetered

/-! # What the node code costs

A descent looks at one node a level. Each turn of a repair loop is one level further up than
the turn before, and a turn that rotates is the last one: so an insertion rotates at most
twice and a removal at most three times (`insert_cost`, `removeKey_cost`). -/
namespace Libparc.RedBlackNodes
open Libparc.RedBlack Exec Metered

variable {E K : Type} {ops : KeyOps E K} {t t' t0 : RbTree E} {T : ColorTree Ptr}
  {m m' m1 m2 : Meter}

/-- From `m` to `m'` no more was spent than this. -/
structure Spent (visits rotations turns : Nat) (m m' : Meter) : Prop where
  visits : m'.visits ≤ m.visits + visits
  rotations : m'.rotations ≤ m.rotations + rotations
  turns : m'.turns ≤ m.turns + turns

/-- The meter after looking at `n` more nodes. -/
def Meter.walked (m : Meter) (n : Nat) : Meter := { m with visits := m.visits + n }

theorem Spent.walked {n v} (h : n ≤ v) (r k : Nat) : Spent v r k m (m.walked n) :=
  ⟨Nat.add_le_add_left h _, Nat.le_add_right _ _, Nat.le_add_right _ _⟩

variable {k : Nat} {node fixNode : Ptr} {s : Side}

theorem Spent.after_walk {n v w r} (h : Spent v r k (m.walked n) m') (hw : n + v ≤ w) :
    Spent w r k m m' := by
  obtain ⟨hv, hr, hk⟩ := h
  refine ⟨?_, hr, hk⟩
  simp only [Meter.walked] at hv
  omega

/-- A repair under way: it has rotated at most `r` times, and not at all while it goes on. -/
structure Repairing (r : Nat) (m m' : Meter) (goesOn : Prop) : Prop where
  visits : m'.visits = m.visits
  rotations : m'.rotations ≤ m.rotations + r
  unturned : goesOn → m'.rotations = m.rotations

theorem Repairing.turn {r} {P Q : Prop} (h : Repairing r m m1 P) (hP : P)
    (hv : m2.visits = m1.visits) (hr : m2.rotations ≤ m1.rotations + r)
    (hl : m2.rotations = m1.rotations ∨ ¬ Q) : Repairing r m m2 Q := by
  have hn := h.unturned hP
  refine ⟨hv.trans h.visits, hn ▸ hr, fun hQ => ?_⟩
  rcases hl with hs | hd
  · exact hs.trans hn
  · exact absurd hQ hd

/-! ## The repair after an insertion -/

/-- The uncle that `_rbNodeFix` looks at. -/
def uncle (t : RbTree E) (node : Ptr) : Ptr :=
  let grandparent := t.parent (t.parent node)
  let s : Side := if t.leftChild grandparent = t.parent node then .left else .right
  t.child s.other grandparent

theorem rbNodeFixBody_meter {r} (h : rbNodeFixBody (t, node) m = pure (r, m')) :
    ((∃ t', r = .inr t') ∧ m' = m) ∨ (∃ st', r = .inl st') ∧ t.color (t.parent node) = .red ∧
      m'.turns = m.turns + 1 ∧ m'.visits = m.visits ∧ m'.rotations ≤ m.rotations + 2 ∧
      (t.color (uncle t node) = .red → m'.rotations = m.rotations) := by
  unfold uncle
  unfold Metered.rbNodeFixBody at h
  dsimp only at h ⊢
  by_cases hr : t.color (t.parent node) = .red
  · refine .inr ?_
    split_ifs at h <;> cases pure_inj.mp h <;> simp_all
  · rw [if_neg hr] at h
    cases h
    exact .inl ⟨⟨_, rfl⟩, rfl⟩

section
variable {s s' : Side} {c d : Color} {p g node : Ptr} {u w : ColorTree Ptr} {ctx : List (Frame Ptr)}

theorem Laid.uncle_eq (h : Laid t0 t (plug (⟨s, c, p, u⟩ :: ⟨s', d, g, w⟩ :: ctx) T))
    (hT : T ≠ .nil) : uncle t (ptr t.nil T) = ptr t.nil w := by
  obtain ⟨_, hpp, _, _, _, _, hp, _⟩ := h.read
  obtain ⟨_, _, hs', ho', _, _, _, hne⟩ := Laid.read (T := .join s c T p u) h
  rw [ptr_join] at hs' hne
  have hs := sideOf_eq hs' (by rw [ho']; exact hne (by simp))
  simp only [uncle, hp hT, hpp, parentPtr, hs, ho']

theorem FixInv.redUncle_or_last {L st st'} (h : FixInv t0 L k st)
    (hb : RbTree.rbNodeFixBody st = pure (.inl st')) :
    st.1.color (uncle st.1 st.2) = .red ∨ ¬ st'.1.color (st'.1.parent st'.2) = .red := by
  obtain ⟨t, node⟩ := st
  obtain ⟨ctx, T, n, -, hla, hn, hT, hf, -⟩ := h
  dsimp only at hla hn ⊢
  subst hn
  have hne : T ≠ .nil := by rintro rfl; cases hT
  obtain ⟨r, hr, ht⟩ := rbNodeFixBody_turn hla hT hf
  rw [hb] at hr
  cases hr
  have hls : ∀ {t' : RbTree E} {s : Side} {p : Ptr} {u T : ColorTree Ptr}
      {ctx : List (Frame Ptr)}, Laid t0 t' (plug (⟨s, .black, p, u⟩ :: ctx) T) → T ≠ .nil →
      ¬ t'.color (t'.parent (ptr t'.nil T)) = .red := by
    intro t' s p u T ctx hl hne
    obtain ⟨hc, _, _, _, _, _, hp, _⟩ := hl.read
    rw [hp hne, hc]
    nofun
  cases ht with
  | recolor hw =>
    refine .inl ?_
    obtain ⟨_, _, _, _, hcw, _, _, _⟩ := Laid.read (T := .join _ _ T _ _) hla
    rw [hla.uncle_eq hne, hcw, hw]
  | outer hw =>
    have hl := hls hla.fix_outer hne
    simp only [RbTree.nil_rotate, RbTree.nil_setColor] at hl
    exact .inr hl
  | inner hw =>
    have hl := hls hla.rotate_inner.fix_outer (by simp)
    rw [ptr_join] at hl
    exact .inr hl

/-- **The repair after an insertion** turns at most once for each ancestor of its node, and
rotates at most twice. -/
theorem rbNodeFix_cost {L} (h : FixInv t0 L k (t, node))
    (hru : rbNodeFix t node m = pure (t', m')) : Spent 0 2 k m m' := by
  refine meteredLoop_invariant
    (fun st m1 => ∃ j, FixInv t0 L j st ∧ m1.turns + j ≤ m.turns + k ∧
      Repairing 2 m m1 (st.1.color (st.1.parent st.2) = .red))
    (fun _ m1 => Spent 0 2 k m m1) ?_
    ⟨k, h, Nat.le_refl _, rfl, Nat.le_add_right _ _, fun _ => rfl⟩ hru
  intro st m1 ⟨j, hi, ht, hre⟩
  rcases rbNodeFixBody_spec hi with ⟨r, hb, _⟩ | ⟨st', j', hb, hi', hlt⟩
  · obtain ⟨m2, hs⟩ := (rbNodeFixBody_erases st).run hb m1
    refine .inl ⟨r, m2, hs, ?_⟩
    obtain ⟨_, rfl⟩ | ⟨⟨_, ⟨⟩⟩, _⟩ := rbNodeFixBody_meter hs
    exact ⟨Nat.le_of_eq hre.visits, hre.rotations, by omega⟩
  · obtain ⟨m2, hs⟩ := (rbNodeFixBody_erases st).run hb m1
    refine .inr ⟨st', m2, hs, j', hi', ?_⟩
    obtain ⟨⟨_, ⟨⟩⟩, _⟩ | ⟨_, hrd, hk, hv, hr, hu⟩ := rbNodeFixBody_meter hs
    refine ⟨by omega, hre.turn hrd hv hr ?_⟩
    exact (hi.redUncle_or_last hb).imp hu id

end

/-! ## The repair after a removal -/

/-- The loop of `_rbNodeFixDelete` goes on. -/
def Deficient (t : RbTree E) (node : Ptr) : Prop := node ≠ t.root ∧ t.color node = .black

/-- The sibling that `_rbNodeFixDelete` looks at is black and has no red child. -/
def BlackSibling (t : RbTree E) (node : Ptr) : Prop :=
  let s : Side := if node = t.leftChild (t.parent node) then .left else .right
  let fixNode := t.child s.other (t.parent node)
  t.color fixNode ≠ .red ∧ t.color (t.leftChild fixNode) = .black ∧
    t.color (t.rightChild fixNode) = .black

theorem fixRedSibling_meter {r} (h : fixRedSibling t s node fixNode m = pure (r, m')) :
    m'.turns = m.turns ∧ m'.visits = m.visits ∧ m'.rotations ≤ m.rotations + 1 ∧
      (t.color fixNode ≠ .red → m' = m ∧ r = (t, fixNode)) := by
  unfold Metered.fixRedSibling at h
  split_ifs at h <;> cases pure_inj.mp h <;> simp_all

theorem fixNearChild_meter {r} (h : fixNearChild t s node fixNode m = pure (r, m')) :
    m'.turns = m.turns ∧ m'.visits = m.visits ∧ m'.rotations ≤ m.rotations + 1 := by
  unfold Metered.fixNearChild at h
  split_ifs at h <;> cases pure_inj.mp h <;> simp_all

theorem fixFarChild_meter {t'} (h : fixFarChild t s node fixNode m = pure (t', m')) :
    m'.turns = m.turns ∧ m'.visits = m.visits ∧ m'.rotations = m.rotations + 1 := by
  cases h
  exact ⟨rfl, rfl, rfl⟩

theorem fixBlackSibling_meter {r} (h : fixBlackSibling t s node fixNode m = pure (r, m')) :
    m'.turns = m.turns ∧ m'.visits = m.visits ∧ m'.rotations ≤ m.rotations + 2 ∧
      (t.color (t.leftChild fixNode) = .black ∧ t.color (t.rightChild fixNode) = .black →
        m' = m) := by
  unfold Metered.fixBlackSibling at h
  by_cases hb : t.color (t.leftChild fixNode) = .black ∧ t.color (t.rightChild fixNode) = .black
  · rw [if_pos hb] at h
    cases h
    exact ⟨rfl, rfl, Nat.le_add_right _ _, fun _ => rfl⟩
  · rw [if_neg hb] at h
    obtain ⟨⟨t1, fix1⟩, m1, hne, h⟩ := metered_bind_eq_pure.mp h
    obtain ⟨t2, m2, hf, h⟩ := metered_bind_eq_pure.mp h
    obtain ⟨-, rfl⟩ := metered_pure_eq_pure.mp h
    obtain ⟨hk1, hv1, hr1⟩ := fixNearChild_meter hne
    obtain ⟨hk2, hv2, hr2⟩ := fixFarChild_meter hf
    exact ⟨hk2.trans hk1, hv2.trans hv1, by omega, fun hn => absurd hn hb⟩

theorem rbNodeFixDeleteBody_meter {r} (h : rbNodeFixDeleteBody ops (t, node) m = pure (r, m')) :
    ((∃ t', r = .inr t') ∧ m' = m) ∨ (∃ st', r = .inl st') ∧ Deficient t node ∧
      m'.turns = m.turns + 1 ∧ m'.visits = m.visits ∧ m'.rotations ≤ m.rotations + 3 ∧
      (BlackSibling t node → m'.rotations = m.rotations) := by
  unfold Metered.rbNodeFixDeleteBody at h
  dsimp only at h
  by_cases hgo : node ≠ t.root ∧ t.color node = .black
  · rw [if_pos hgo] at h
    obtain ⟨_, m1, ht, h⟩ := metered_bind_eq_pure.mp h
    cases ht
    obtain ⟨_, -, h⟩ := metered_lift_bind_eq_pure.mp h
    obtain ⟨⟨t1, fix1⟩, m2, hr, h⟩ := metered_bind_eq_pure.mp h
    obtain ⟨st', m3, hb, h⟩ := metered_bind_eq_pure.mp h
    obtain ⟨rfl, rfl⟩ := metered_pure_eq_pure.mp h
    obtain ⟨hk2, hv2, hr2, hs⟩ := fixRedSibling_meter hr
    obtain ⟨hk3, hv3, hr3, hn⟩ := fixBlackSibling_meter hb
    refine .inr ⟨⟨_, rfl⟩, hgo, hk3.trans hk2, hv3.trans hv2, ?_, fun hq => ?_⟩
    · dsimp only at hr2
      omega
    · obtain ⟨rfl, heq⟩ := hs hq.1
      cases heq
      rw [hn hq.2]
  · rw [if_neg hgo] at h
    obtain ⟨rfl, rfl⟩ := metered_pure_eq_pure.mp h
    exact .inl ⟨⟨_, rfl⟩, rfl⟩

section
variable {s : Side} {c : Color} {x w node : Ptr} {a b : ColorTree Ptr} {ctx : List (Frame Ptr)}
  {L : List Ptr} {k : Nat}

theorem Focused.blackSibling (h : Focused t0 t (⟨s, c, x, .join s .black a w b⟩ :: ctx) T)
    (ha : a.rootColor = .black) (hb : b.rootColor = .black) : BlackSibling t (ptr t.nil T) := by
  obtain ⟨hp, _, hw, hcw, hs, ho, hca, hcb⟩ := h.read
  have hsi := h.side_eq (by simp)
  rw [hp] at hsi
  unfold BlackSibling
  simp only [hp, hsi, hw, hcw]
  rw [ha, ← hs] at hca
  rw [hb, ← ho] at hcb
  refine ⟨by nofun, ?_⟩
  cases s with
  | left => exact ⟨hca, hcb⟩
  | right => exact ⟨hcb, hca⟩

variable {st : RbTree E × Ptr}

theorem SiblingTurn.root_or_recolored (h : SiblingTurn t s T x w a b st) :
    st.2 = st.1.root ∨
      a.rootColor = .black ∧ b.rootColor = .black ∧ st = (t.setColor w .red, x) := by
  cases h with
  | recolor ha hb => exact .inr ⟨ha, hb, rfl⟩
  | far hb | near hb => exact .inl rfl

theorem FixDeleteInv.blackSibling_or_last (hops : ops.Lawful) (hf : Filled ops t0 L)
    {st'} (h : FixDeleteInv t0 L k st) (hbo : RbTree.rbNodeFixDeleteBody ops st = pure (.inl st')) :
    BlackSibling st.1 st.2 ∨ ¬ Deficient st'.1 st'.2 := by
  obtain ⟨t, node⟩ := st
  obtain ⟨ctx, T, n, -, hfo, hn, hT, hfi, rfl⟩ := h
  dsimp only at hfo hn ⊢
  subst hn
  obtain ⟨r, hr, ht⟩ := rbNodeFixDeleteBody_turn hops hfo hfi hf
  rw [hbo] at hr
  cases hr
  cases ht with
  | blackSibling hc hs =>
    rcases hs.root_or_recolored with hro | ⟨ha, hb, -⟩
    · exact .inr fun hd => hd.1 hro
    · exact .inl (hfo.blackSibling ha hb)
  | redSibling hc hs =>
    refine .inr fun hd => ?_
    rcases hs.root_or_recolored with hro | ⟨-, -, rfl⟩
    · exact hd.1 hro
    · -- The parent is red since its red sibling was turned up.
      obtain ⟨_, hre, _⟩ := (redTurned_focused hfo).read
      have hbl := hd.2
      rw [RbTree.color_setColor, hre, ite_self] at hbl
      cases hbl

theorem FixDeleteInv.deficient (h : FixDeleteInv t0 L k st) (hd : Deficient st.1 st.2) :
    ∃ i, k = 2 * (i + 1) + 1 := by
  obtain ⟨ctx, T, n, rfl, hf, hn, hT, hfi, -⟩ := h
  obtain ⟨hr, hb⟩ := hd
  rw [hn] at hr hb
  cases ctx with
  | nil => exact absurd hf.laid.represents.root.symm hr
  | cons f ctx =>
    obtain ⟨_, _, _, _, _, hcT, _⟩ := hf.laid.read
    rw [if_pos (hcT.symm.trans hb)]
    exact ⟨ctx.length, rfl⟩

/-- The levels that a repair with the bound `k` can still go up. -/
def levelsAbove (k : Nat) : Nat := if k % 2 = 1 then k / 2 else 0

theorem levelsAbove_lt {i} (h : k < 2 * (i + 1) + 1) :
    levelsAbove k < levelsAbove (2 * (i + 1) + 1) := by
  unfold levelsAbove
  split <;> split <;> omega

/-- **The repair after a removal** turns at most once for each ancestor of its node, and
rotates at most three times. -/
theorem rbNodeFixDelete_cost (hops : ops.Lawful) (hf : Filled ops t0 L)
    (h : FixDeleteInv t0 L k (t, node)) (hru : rbNodeFixDelete ops t node m = pure (t', m')) :
    Spent 0 3 (levelsAbove k) m m' := by
  refine meteredLoop_invariant
    (fun st m1 => ∃ j, FixDeleteInv t0 L j st ∧ m1.turns + levelsAbove j ≤ m.turns + levelsAbove k ∧
      Repairing 3 m m1 (Deficient st.1 st.2))
    (fun _ m1 => Spent 0 3 (levelsAbove k) m m1) ?_
    ⟨k, h, Nat.le_refl _, rfl, Nat.le_add_right _ _, fun _ => rfl⟩ hru
  intro st m1 ⟨j, hi, ht, hre⟩
  rcases rbNodeFixDeleteBody_spec hops hf hi with ⟨r, hb, _⟩ | ⟨st', j', hb, hi', hlt⟩
  · obtain ⟨m2, hs⟩ := (rbNodeFixDeleteBody_erases ops st).run hb m1
    refine .inl ⟨r, m2, hs, ?_⟩
    obtain ⟨_, rfl⟩ | ⟨⟨_, ⟨⟩⟩, _⟩ := rbNodeFixDeleteBody_meter hs
    exact ⟨Nat.le_of_eq hre.visits, hre.rotations, by omega⟩
  · obtain ⟨m2, hs⟩ := (rbNodeFixDeleteBody_erases ops st).run hb m1
    refine .inr ⟨st', m2, hs, j', hi', ?_⟩
    obtain ⟨⟨_, ⟨⟩⟩, _⟩ | ⟨_, hd, hk, hv, hr, hsi⟩ := rbNodeFixDeleteBody_meter hs
    obtain ⟨i, rfl⟩ := hi.deficient hd
    have hl := levelsAbove_lt hlt
    refine ⟨by omega, hre.turn hd hv hr ?_⟩
    exact (hi.blackSibling_or_last hops hf hb).imp hsi id

theorem levelsAbove_le (n : Nat) (c : Color) :
    levelsAbove (2 * n + if c = .black then 1 else 0) ≤ n := by
  unfold levelsAbove
  split <;> split <;> omega

end

/-! ## The searches -/

section
variable {key : K} {ctx : List (Frame Ptr)} {c : Color} {l r : ColorTree Ptr} {x : Ptr}

theorem length_lt_height (ctx : List (Frame Ptr)) (c : Color) (l : ColorTree Ptr) (x : Ptr)
    (r : ColorTree Ptr) :
    ctx.length + 1 + max l.height r.height ≤ (plug ctx (.node c l x r)).height := by
  have h := length_add_height_le (.node c l x r) ctx
  rw [ColorTree.height] at h
  omega

/-- What a search in `T` has looked at: the node it found and those above it, or those above
the hole it came to. -/
def SearchedFor (T : ColorTree Ptr) (m : Meter) : Option Ptr → Meter → Prop
  | some x, m' => ∃ ctx c l r, T = plug ctx (.node c l x r) ∧ m' = m.walked (ctx.length + 1)
  | none, m' => ∃ n ≤ T.height, m' = m.walked n

section
variable (hops : ops.Lawful) (hre : Represents t T) (hf : Filled ops t T.toList)
include hops hre hf

theorem rbFindNode_cost {found}
    (hru : rbFindNode ops t t.root key m = pure (found, m')) : SearchedFor T m found m' := by
  refine meteredLoop_invariant
    (fun node m1 => ∃ ctx U, Searching ops t key T ctx U ∧ node = ptr t.nil U ∧
      m1 = m.walked ctx.length)
    (SearchedFor T m) ?_ ⟨[], T, .start, hre.root, rfl⟩ hru
  intro node m1 ⟨ctx, U, hs, hn, hm⟩
  subst hn hm
  cases U with
  | nil =>
    refine .inl ⟨none, m.walked ctx.length, ?_, ctx.length, ?_, rfl⟩
    · rw [ptr_nil, if_neg (not_not.mpr rfl)]
      rfl
    rw [hs.whole]
    exact length_add_height_le .nil ctx
  | node c l x r =>
    rw [ptr_node]
    obtain ⟨hx, ⟨heq, -⟩ | ⟨hne, ⟨hgt, hl, hs'⟩ | ⟨hle, hr, hs'⟩⟩⟩ := hs.turn hops hre hf
    · refine .inl ⟨some x, m.walked (ctx.length + 1), ?_, ctx, c, l, r, hs.whole, rfl⟩
      rw [if_pos hx, if_pos heq]
      rfl
    · refine .inr ⟨t.leftChild x, m.walked (ctx.length + 1), ?_, _, l, hs', hl, rfl⟩
      rw [if_pos hx, if_neg (by simp [hne]), if_pos hgt]
      rfl
    · refine .inr ⟨t.rightChild x, m.walked (ctx.length + 1), ?_, _, r, hs', hr, rfl⟩
      rw [if_pos hx, if_neg (by simp [hne]), if_neg (by simp [hle])]
      rfl

theorem insertionPoint_cost {found} (hru : insertionPoint ops t key m = pure (found, m')) :
    (∃ n ≤ T.height, m' = m.walked n) ∧ ∀ par, found = .inr par →
      ∃ ctx, Searching ops t key T ctx .nil ∧ par = parentPtr t.nil ctx := by
  refine meteredLoop_invariant
    (fun st m1 => ∃ ctx U, Searching ops t key T ctx U ∧ st = (ptr t.nil U, parentPtr t.nil ctx) ∧
      m1 = m.walked ctx.length)
    (fun found m1 => (∃ n ≤ T.height, m1 = m.walked n) ∧ ∀ par, found = .inr par →
      ∃ ctx, Searching ops t key T ctx .nil ∧ par = parentPtr t.nil ctx)
    ?_ ⟨[], T, .start, by rw [hre.root]; rfl, rfl⟩ hru
  intro st m1 ⟨ctx, U, hs, hst, hm⟩
  subst hst hm
  dsimp only
  cases U with
  | nil =>
    refine .inl ⟨.inr (parentPtr t.nil ctx), m.walked ctx.length, ?_, ⟨ctx.length, ?_, rfl⟩, ?_⟩
    · rw [ptr_nil, if_neg (not_not.mpr rfl)]
      rfl
    · rw [hs.whole]
      exact length_add_height_le .nil ctx
    · intro par hp
      cases hp
      exact ⟨ctx, hs, rfl⟩
  | node c l x r =>
    rw [ptr_node]
    obtain ⟨hx, ⟨heq, -⟩ | ⟨hne, ⟨hgt, hl, hs'⟩ | ⟨hle, hr, hs'⟩⟩⟩ := hs.turn hops hre hf
    · refine .inl ⟨.inl x, m.walked (ctx.length + 1), ?_, ⟨ctx.length + 1, ?_, rfl⟩, nofun⟩
      · rw [if_pos hx, if_pos heq]
        rfl
      · have hln := length_lt_height ctx c l x r
        rw [hs.whole]
        omega
    · refine .inr ⟨(t.leftChild x, x), m.walked (ctx.length + 1), ?_, _, l, hs',
        by rw [hl]; rfl, rfl⟩
      rw [if_pos hx, if_neg (by simp [hne]), if_pos hgt]
      rfl
    · refine .inr ⟨(t.rightChild x, x), m.walked (ctx.length + 1), ?_, _, r, hs', by rw [hr]; rfl,
        rfl⟩
      rw [if_pos hx, if_neg (by simp [hne]), if_neg (by simp [hle])]
      rfl

end

theorem relativeNode_cost {par y} (hr : Rep t T par) (hne : T ≠ .nil)
    (hru : relativeNode t s (ptr t.nil T) m = pure (y, m')) : ∃ n ≤ T.height, m' = m.walked n := by
  refine meteredLoop_invariant
    (fun node m1 => ∃ ctx U par, T = plug ctx U ∧ U ≠ .nil ∧ node = ptr t.nil U ∧ Rep t U par ∧
      m1 = m.walked ctx.length)
    (fun _ m1 => ∃ n ≤ T.height, m1 = m.walked n) ?_ ⟨[], T, par, rfl, hne, rfl, hr, rfl⟩ hru
  intro node m1 ⟨ctx, U, par, hT, hU, hno, hre, hm⟩
  subst hT hno hm
  cases U with
  | nil => exact absurd rfl hU
  | node c l x r =>
    have hl := length_lt_height ctx c l x r
    obtain ⟨a, b, he⟩ := ColorTree.node_eq_join s c l x r
    rw [he] at hre hl ⊢
    obtain ⟨_, _, _, hs, _, ha, _⟩ := rep_join.mp hre
    rw [ptr_join]
    by_cases hni : t.child s x = t.nil
    · refine .inl ⟨x, m.walked (ctx.length + 1), ?_, ctx.length + 1, by omega, rfl⟩
      simp only [hni, ne_eq, not_true, if_false]
      rfl
    · refine .inr ⟨t.child s x, m.walked (ctx.length + 1), ?_, ⟨s, c, x, b⟩ :: ctx, a, x, rfl,
        fun hn => hni (by rw [hs, hn]; rfl), hs, ha, rfl⟩
      simp only [ne_eq, hni, not_false_eq_true, if_true]
      rfl

theorem rbNodeUnlink_cost (h : Represents t (plug ctx (.node c l x r)))
    {res} (hru : rbNodeUnlink t x m = pure (res, m')) : ∃ n ≤ r.height, m' = m.walked n := by
  obtain ⟨_, ⟨_, _, _, _, hrx, _, hR⟩, _⟩ := represents_plug.mp h
  unfold Metered.rbNodeUnlink at hru
  split_ifs at hru with hl hr hr
  · obtain ⟨-, rfl⟩ := metered_pure_eq_pure.mp hru
    exact ⟨0, Nat.zero_le _, rfl⟩
  · obtain ⟨-, rfl⟩ := metered_pure_eq_pure.mp hru
    exact ⟨0, Nat.zero_le _, rfl⟩
  · obtain ⟨-, rfl⟩ := metered_pure_eq_pure.mp hru
    exact ⟨0, Nat.zero_le _, rfl⟩
  · obtain ⟨y, m1, hw, hru⟩ := metered_bind_eq_pure.mp hru
    obtain ⟨-, rfl⟩ := metered_pure_eq_pure.mp hru
    rw [RbTree.rightChild_eq, hrx] at hw hr
    exact relativeNode_cost hR ((ptr_ne_nil hR).mp hr) hw

end

/-! ## The operations -/

section
variable (hops : ops.Lawful)
include hops

/-- **A lookup** looks at no more nodes than the tree has levels. -/
theorem getKey_cost {key found} (h : TreeInv ops t T)
    (hr : getKey ops t key m = pure (found, m')) : Spent T.height 0 0 m m' := by
  obtain ⟨_, -, hr⟩ := metered_lift_bind_eq_pure.mp hr
  obtain ⟨node, m2, hf, hr⟩ := metered_bind_eq_pure.mp hr
  have hc := rbFindNode_cost hops h.represents h.filled hf
  cases node with
  | none =>
    obtain ⟨-, rfl⟩ := metered_pure_eq_pure.mp hr
    obtain ⟨n, hn, rfl⟩ := hc
    exact .walked hn 0 0
  | some x =>
    obtain ⟨-, rfl⟩ := metered_pure_eq_pure.mp hr
    obtain ⟨ctx, c, l, r, rfl, rfl⟩ := hc
    have hl := length_lt_height ctx c l x r
    exact .walked (by omega) 0 0

/-- **An insertion** looks at one node a level on its way down, turns at most once a level on
its way up and rotates at most twice. -/
theorem insert_cost {A e} (h : TreeInv ops t T)
    (hru : insert A ops t e m = pure (t', m')) : Spent T.height 2 T.height m m' := by
  have hw : TreeInv ops (t.withNode A e) T := h.withNode
  obtain ⟨found, m1, hp, hru⟩ := metered_bind_eq_pure.mp hru
  obtain ⟨⟨n, hn, rfl⟩, hpa⟩ := insertionPoint_cost hops hw.represents hw.filled hp
  cases found with
  | inl node =>
    obtain ⟨-, rfl⟩ := metered_pure_eq_pure.mp hru
    exact .walked hn 2 _
  | inr parent =>
    obtain ⟨ctx, hs, rfl⟩ := hpa parent rfl
    obtain ⟨t1, m2, hf, hru⟩ := metered_bind_eq_pure.mp hru
    obtain ⟨_, -, hru⟩ := metered_lift_bind_eq_pure.mp hru
    obtain ⟨-, rfl⟩ := metered_pure_eq_pure.mp hru
    have hc := rbNodeFix_cost (attach_inv h hs) hf
    have hl := length_add_height_le .nil ctx
    rw [← hs.whole] at hl
    obtain ⟨hv, hr, hk⟩ := hc.after_walk (w := T.height) hn
    exact ⟨hv, hr, by omega⟩

theorem rbNodeRemove_cost {ctx c l r x} (h : TreeInv ops t (plug ctx (.node c l x r)))
    (hru : rbNodeRemove ops t x m = pure (t', m')) :
    Spent r.height 3 (plug ctx (.node c l x r)).height m m' := by
  have hl : (plug ctx (.node c l x r)).toList =
      (before ctx ++ l.toList) ++ x :: (r.toList ++ after ctx) := by
    simp [toList_plug, ColorTree.toList]
  obtain ⟨n, hb⟩ := h.balanced
  obtain ⟨t1, fixupNode, d, ctx', Q, hun, hu, -, hle⟩ :=
    rbNodeUnlink_spec h.represents hb h.nilBlack (among_self t _)
  obtain ⟨_, -, hru⟩ := metered_lift_bind_eq_pure.mp hru
  obtain ⟨res, m1, hu', hru⟩ := metered_bind_eq_pure.mp hru
  have hre := (rbNodeUnlink_erases t x).of_run hu'
  rw [hun] at hre
  cases hre
  obtain ⟨j, hj, rfl⟩ := rbNodeUnlink_cost h.represents hu'
  obtain ⟨_, -, hru⟩ := metered_lift_bind_eq_pure.mp hru
  obtain ⟨t2, m2, hf, hru⟩ := metered_bind_eq_pure.mp hru
  obtain ⟨_, -, hru⟩ := metered_lift_bind_eq_pure.mp hru
  obtain ⟨-, rfl⟩ := metered_pure_eq_pure.mp hru
  cases d with
  | red =>
    obtain ⟨-, rfl⟩ := metered_pure_eq_pure.mp hf
    exact .walked hj 3 _
  | black =>
    have hfi := hu.filled (hl ▸ h.filled)
    have hc := rbNodeFixDelete_cost hops hfi (hu.fixDeleteInv (t1.size - 1)) hf
    have hlv := levelsAbove_le ctx'.length Q.rootColor
    obtain ⟨hv, hr, hk⟩ := hc.after_walk (w := r.height) hj
    exact ⟨hv, hr, by omega⟩

/-- **A removal** looks at one node a level on its way down, turns at most once a level on its
way up and rotates at most three times. -/
theorem removeKey_cost {key res}
    (h : TreeInv ops t T) (hr : removeKey ops t key m = pure (res, m')) :
    Spent T.height 3 T.height m m' := by
  obtain ⟨found, m1, hf, hr⟩ := metered_bind_eq_pure.mp hr
  have hc := rbFindNode_cost hops h.represents h.filled hf
  cases found with
  | none =>
    obtain ⟨_, -, hr⟩ := metered_lift_bind_eq_pure.mp hr
    obtain ⟨-, rfl⟩ := metered_pure_eq_pure.mp hr
    obtain ⟨n, hn, rfl⟩ := hc
    exact .walked hn 3 _
  | some x =>
    obtain ⟨ctx, c, l, r, rfl, rfl⟩ := hc
    obtain ⟨t1, m2, hre, hr⟩ := metered_bind_eq_pure.mp hr
    obtain ⟨_, -, hr⟩ := metered_lift_bind_eq_pure.mp hr
    obtain ⟨-, rfl⟩ := metered_pure_eq_pure.mp hr
    have hl := length_lt_height ctx c l x r
    exact (rbNodeRemove_cost hops h hre).after_walk (by omega)

end

theorem TreeInv.height_le (h : TreeInv ops t T) : T.height ≤ 2 * (t.size.toNat + 1).log2 := by
  obtain ⟨n, hb⟩ := h.balanced
  rw [h.filled.size]
  exact hb.height_le_log

end Libparc.RedBlackNodes
