import Libparc.Store
import Libparc.Transition

/-! # Object descriptors

Descriptors are created over a supertype, or as an extension of another descriptor:
a copy of it, with the other's supertype as its own. `parcObject_IsInstanceOf` walks
along the supertypes and has no end for a walk that does not meet the descriptor it
is asked for. Of a descriptor there are its name and its supertype, of an object the
fields of its header that are read. -/
namespace Libparc.ObjectDescriptor
open Transition Relation Exec Allocator

structure PARCObjectDescriptor where
  name : String
  super : Ptr

/-- `_PARCObjectHeader`. -/
structure ObjectHeader where
  magicGuardNumber : BitVec 32
  references : Nat
  descriptor : Ptr

/-- `_parcObjectHeader_IsValid`, for a header before its object. -/
def ObjectHeader.isValid (header : ObjectHeader) : Bool :=
  header.magicGuardNumber == 0x0ddFadda && header.references != 0

section
variable (A : Allocator) (descriptors : Store PARCObjectDescriptor)

def parcObjectDescriptorCreate (name : String) (superType : Ptr) :
    Prog (Store PARCObjectDescriptor × Ptr) := do
  assertTrue (superType ≠ NULL) "Supertype descriptor cannot be NULL."
  pure (descriptors.allocate A ⟨name, superType⟩)

def parcObjectDescriptorCreateExtension (superType : Ptr) (name : String) :
    Prog (Store PARCObjectDescriptor × Ptr) := do
  let copy ← descriptors.read superType
  pure (descriptors.allocate A { copy with name })

/-- A turn of the loop of `parcObject_IsInstanceOf`. -/
def isInstanceOfBody (descriptor d : Ptr) : Prog (Ptr ⊕ Bool) := do
  let result := d == descriptor
  let next := (← descriptors.read d).super
  if result then pure (.inr true) else pure (.inl next)

def parcObjectIsInstanceOf (object : Option ObjectHeader) (descriptor : Ptr) : Prog Bool :=
  match object with
  | none => pure false
  | some header =>
    if header.isValid then Exec.loop (isInstanceOfBody descriptors descriptor) header.descriptor
    else pure false

end

/-! ## Chains of descriptors -/

/-- The descriptors, and which of them was created over which. -/
structure State where
  descriptors : Store PARCObjectDescriptor
  parents : List (Ptr × Ptr)

inductive Creation where
  | create (name : String) (superType : Ptr)
  | extension (superType : Ptr) (name : String)

def Creation.superType : Creation → Ptr
  | .create _ superType | .extension superType _ => superType

section
variable (A : Allocator)

/-- The descriptor of `PARCObject`. -/
def State.init : State := ⟨(Store.empty.allocate A ⟨"PARCObject", NULL⟩).1, []⟩

def Creation.call (descriptors : Store PARCObjectDescriptor) :
    Creation → Prog (Store PARCObjectDescriptor × Ptr)
  | .create name superType => parcObjectDescriptorCreate A descriptors name superType
  | .extension superType name => parcObjectDescriptorCreateExtension A descriptors superType name

/-- A new descriptor over one that exists. -/
def step (s : State) (c : Creation) : State :=
  match s.descriptors.cell c.superType, c.call A s.descriptors with
  | some _, some (.ok (descriptors, d)) => ⟨descriptors, (d, c.superType) :: s.parents⟩
  | _, _ => s

end

/-- The descriptor itself, or one that it was created over, directly or not. -/
def Supertype (s : State) : Ptr → Ptr → Prop := ReflTransGen fun d e => (d, e) ∈ s.parents

/-- The answer for the object. -/
def Right (s : State) (header : ObjectHeader) (descriptor : Ptr) : Prop :=
  ∃ result, parcObjectIsInstanceOf s.descriptors (some header) descriptor = pure result ∧
    (result = true ↔ Supertype s header.descriptor descriptor)

/-- `e` is the field `super` of `d`. -/
def Super (descriptors : Store PARCObjectDescriptor) (d e : Ptr) : Prop :=
  ∃ c, descriptors.cell d = some c ∧ c.super = e

/-- The descriptor is met on the way from `d`. -/
def OnChain (descriptors : Store PARCObjectDescriptor) (d descriptor : Ptr) : Prop :=
  ReflTransGen (Super descriptors) d descriptor ∧ (descriptors.cell descriptor).isSome = true

section
variable {A : Allocator} {s : State} {ds : Store PARCObjectDescriptor} {d e x : Ptr}

theorem body_eq {c} (h : ds.cell d = some c) : isInstanceOfBody ds x d =
    if d = x then pure (.inr true) else pure (.inl c.super) := by
  rw [isInstanceOfBody, Store.read, h]
  simp only [pure_bind, beq_iff_eq]

theorem body_inv {r} (h : isInstanceOfBody ds x d = pure r) : ∃ c, ds.cell d = some c := by
  cases hc : ds.cell d with
  | none =>
    rw [isInstanceOfBody, Store.read, hc] at h
    cases h
  | some c => exact ⟨c, rfl⟩

theorem walk_of_onChain (h : OnChain ds d x) : loop (isInstanceOfBody ds x) d = pure true := by
  obtain ⟨hr, hs⟩ := h
  obtain ⟨c, hc⟩ := Option.isSome_iff_exists.mp hs
  induction hr using ReflTransGen.head_induction_on with
  | refl => exact loop_done ((body_eq hc).trans (if_pos rfl))
  | @head d e hde _ ih =>
    obtain ⟨n, hn, rfl⟩ := hde
    by_cases he : d = x
    · exact loop_done ((body_eq hn).trans (if_pos he))
    · exact (loop_next ((body_eq hn).trans (if_neg he))).trans ih

theorem onChain_of_walk {r} (h : loop (isInstanceOfBody ds x) d = pure r) :
    OnChain ds d x := by
  refine loop_invariant (ReflTransGen (Super ds) d) (fun _ => OnChain ds d x) ?_ .refl h
  intro a r ha hb
  obtain ⟨c, hc⟩ := body_inv hb
  rw [body_eq hc] at hb
  split at hb
  · rename_i he
    cases hb
    exact he ▸ ⟨ha, hc ▸ rfl⟩
  · cases hb
    exact ha.tail ⟨c, hc, rfl⟩

/-- The fields `super` lead to supertypes. -/
def Sound (s : State) : Prop :=
  ∀ d c, s.descriptors.cell d = some c → c.super = NULL ∨ Supertype s d c.super

theorem sound_init : Sound (.init A) := by
  intro d c hc
  by_cases hd : d = A.fresh []
  · cases (if_pos hd).symm.trans hc
    exact .inl rfl
  · cases (if_neg hd).symm.trans hc

theorem step_cases (A : Allocator) (s : State) (c : Creation) : step A s c = s ∨
    ∃ n new, s.descriptors.cell c.superType = some n ∧
      (new.super = c.superType ∨ new.super = n.super) ∧
      step A s c = ⟨(s.descriptors.allocate A new).1,
        (A.fresh s.descriptors.live, c.superType) :: s.parents⟩ := by
  unfold step
  cases hn : s.descriptors.cell c.superType with
  | none => exact .inl rfl
  | some n =>
    cases c with
    | create name superType =>
      have hne : superType ≠ NULL := by
        intro h0
        rw [show s.descriptors.cell _ = _ from h0 ▸ s.descriptors.null] at hn
        cases hn
      refine .inr ⟨n, ⟨name, superType⟩, rfl, .inl rfl, ?_⟩
      rw [Creation.call, parcObjectDescriptorCreate, assertTrue_of (decide_eq_true hne)]
      rfl
    | extension superType name =>
      refine .inr ⟨n, { n with name }, rfl, .inr rfl, ?_⟩
      rw [Creation.call, parcObjectDescriptorCreateExtension, Store.read,
        show s.descriptors.cell superType = some n from hn]
      rfl

theorem Sound.step (h : Sound s) (c : Creation) : Sound (step A s c) := by
  rcases step_cases A s c with he | ⟨n, new, hn, hsu, he⟩
  · rwa [he]
  rw [he]
  have hup : ∀ a b, Supertype s a b → Supertype ⟨(s.descriptors.allocate A new).1,
      (A.fresh s.descriptors.live, c.superType) :: s.parents⟩ a b :=
    fun a b => ReflTransGen.mono (fun _ _ => List.mem_cons_of_mem _) a b
  intro d m hm
  by_cases hd : d = A.fresh s.descriptors.live
  · cases (if_pos hd).symm.trans hm
    have hs : Supertype ⟨(s.descriptors.allocate A new).1,
      (A.fresh s.descriptors.live, c.superType) :: s.parents⟩ d c.superType :=
        .single (hd ▸ List.mem_cons_self)
    rcases hsu with hsu | hsu
    · exact .inr (hsu ▸ hs)
    · rw [hsu]
      exact (h _ n hn).imp_right fun hr => hs.trans (hup _ _ hr)
  · exact (h d m ((if_neg hd).symm.trans hm)).imp_right (hup _ _)

theorem Sound.supertype (h : Sound s) (hx : OnChain s.descriptors d x) : Supertype s d x := by
  obtain ⟨hr, hs⟩ := hx
  induction hr using ReflTransGen.head_induction_on with
  | refl => exact .refl
  | @head d e hde he ih =>
    obtain ⟨c, hc, rfl⟩ := hde
    rcases h d c hc with h0 | hsu
    · -- nothing comes after NULL
      rw [h0] at he
      rcases he.cases_head with rfl | ⟨_, ⟨n, hn, -⟩, -⟩
      · rw [s.descriptors.null] at hs
        cases hs
      · rw [s.descriptors.null] at hn
        cases hn
    · exact hsu.trans ih

end

/-- **The walk along the supertypes** gives the answer exactly if the descriptor lies
on the chain of the fields `super` from the object's own. -/
theorem isInstanceOf_right_iff (A : Allocator) (creations : List Creation) {header : ObjectHeader}
    (hv : header.isValid = true) (descriptor : Ptr) :
    Right (run (step A) (.init A) creations) header descriptor ↔
      OnChain (run (step A) (.init A) creations).descriptors header.descriptor descriptor := by
  have hs : Sound (run (step A) (.init A) creations) :=
    run_invariant Sound (fun s c h => h.step c) sound_init creations
  unfold Right parcObjectIsInstanceOf
  simp only [hv, if_true]
  constructor
  · rintro ⟨r, hr, -⟩
    exact onChain_of_walk hr
  · exact fun h => ⟨true, walk_of_onChain h, iff_of_true rfl (hs.supertype h)⟩

/-- An object of an extension of the descriptor `Derived` is one of `Base`, which that one was
created over. -/
theorem isInstanceOf_base :
    let s := run (step bump) (.init bump)
      [.create "Base" 1, .create "Derived" 2, .extension 4 "Pool"]
    Right s ⟨0x0ddFadda, 1, 8⟩ 2 :=
  (isInstanceOf_right_iff bump _ (by decide) 2).mpr ⟨.single ⟨_, rfl, rfl⟩, rfl⟩

/-- An object of an extension of a descriptor is asked for that one, and an object of
`PARCObject` for another descriptor: both walks end at NULL. -/
theorem isInstanceOf_faults :
    let s := run (step bump) (.init bump) [.create "Base" 1, .extension 2 "Pool"]
    Supertype s 4 2 ∧
      parcObjectIsInstanceOf s.descriptors (some ⟨0x0ddFadda, 1, 4⟩) 2 = throw .memoryFault ∧
      parcObjectIsInstanceOf s.descriptors (some ⟨0x0ddFadda, 1, 1⟩) 2 = throw .memoryFault := by
  refine ⟨.single (.head _), ?_, ?_⟩
  · exact (Exec.loop_next rfl).trans ((Exec.loop_next rfl).trans (Exec.loop_error rfl))
  · exact (Exec.loop_next rfl).trans (Exec.loop_error rfl)

end Libparc.ObjectDescriptor
