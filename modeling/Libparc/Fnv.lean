import Mathlib.Data.BitVec
import Mathlib.Data.UInt

/-! # FNV-1a

The hash of Fowler, Noll and Vo takes in one byte after the other: exclusive-or
with the byte, then a multiplication by a prime. How a byte is widened to the
hash's width is a parameter of the step; the standard fills up with zeros. As
the prime is odd a step loses nothing, so two ways of widening give the same
running hash exactly as long as they widen the bytes alike. -/
namespace Libparc.Fnv
open List
variable {w : Nat}

/-- Take in some bytes. -/
def absorb (widen : UInt8 → BitVec w) (prime hash : BitVec w) (bytes : List UInt8) : BitVec w :=
  bytes.foldl (fun hash byte => (hash ^^^ widen byte) * prime) hash

def zeroExtend (byte : UInt8) : BitVec w := byte.toBitVec.setWidth w

/-- The standard hash. -/
def fnv1a (prime offset : BitVec w) (bytes : List UInt8) : BitVec w :=
  absorb zeroExtend prime offset bytes

def prime64 : BitVec 64 := 1099511628211

def offset64 : BitVec 64 := 14695981039346656037

def prime32 : BitVec 32 := 16777619

def offset32 : BitVec 32 := 2166136261

variable {widen widen' : UInt8 → BitVec w} {prime inverse hash : BitVec w}

@[simp] theorem absorb_nil : absorb widen prime hash [] = hash := rfl

@[simp] theorem absorb_cons (byte : UInt8) (bytes : List UInt8) :
    absorb widen prime hash (byte :: bytes) =
      absorb widen prime ((hash ^^^ widen byte) * prime) bytes := rfl

theorem absorb_flatten (pieces : List (List UInt8)) :
    pieces.foldl (absorb widen prime) hash = absorb widen prime hash pieces.flatten := by
  induction pieces generalizing hash with
  | nil => rfl
  | cons piece pieces ih =>
    rw [foldl_cons, ih, flatten_cons, absorb, absorb, absorb, foldl_append]

theorem step_inj (hi : prime * inverse = 1#w) {x y} :
    (hash ^^^ x) * prime = (hash ^^^ y) * prime ↔ x = y := by
  constructor
  · intro h
    have hc := congrArg (· * inverse) h
    simp only [BitVec.mul_assoc, hi, BitVec.mul_one] at hc
    exact BitVec.xor_right_inj hash |>.mp hc
  · rintro rfl
    rfl

/-- **The running hashes agree as long as the bytes are widened alike.** -/
theorem absorb_agree_iff (hi : prime * inverse = 1#w) (hash : BitVec w) (bs : List UInt8) :
    (∀ part, part <+: bs → absorb widen prime hash part = absorb widen' prime hash part) ↔
      ∀ byte ∈ bs, widen byte = widen' byte := by
  induction bs generalizing hash with
  | nil => simp
  | cons byte bs ih =>
    have hh : (hash ^^^ widen byte) * prime = (hash ^^^ widen' byte) * prime ↔
        widen byte = widen' byte := step_inj hi
    rw [forall_mem_cons, ← hh]
    constructor
    · intro h
      have hb : (hash ^^^ widen byte) * prime = (hash ^^^ widen' byte) * prime :=
        h [byte] (prefix_append [byte] bs)
      refine ⟨hb, (ih ((hash ^^^ widen byte) * prime)).mp fun part hp => ?_⟩
      have ht := h (byte :: part) (cons_prefix_cons.mpr ⟨rfl, hp⟩)
      rwa [absorb_cons, absorb_cons, ← hb] at ht
    · rintro ⟨hb, ht⟩ part hp
      cases part with
      | nil => rfl
      | cons first part =>
        obtain ⟨rfl, hr⟩ := cons_prefix_cons.mp hp
        rw [absorb_cons, absorb_cons, ← hb]
        exact (ih _).mpr ht part hr

end Libparc.Fnv
