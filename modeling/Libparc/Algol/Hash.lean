import Libparc.Fnv
import Libparc.Algol.HashCode

/-! # parc_Hash

The 64-bit and the 32-bit hash of some data, also in pieces. The data is read
through a `const char *`, which is signed on the platform considered: a byte
from 0x80 on is a negative `int`, and its conversion to the hash's type fills
the upper bits with ones. -/
namespace Libparc.Hash
open Fnv HashCode

/-- `chardata[i]` as a value of the hash's type. -/
def signedChar {w : Nat} (byte : UInt8) : BitVec w := byte.toBitVec.signExtend w

/-- The loop that both `Data_Cumulative` functions have. -/
def dataCumulative {w : Nat} (fnv1aPrime : BitVec w) (data : List UInt8) (len : Nat)
    (lastValue : BitVec w) : BitVec w :=
  absorb signedChar fnv1aPrime lastValue (data.take len)

def parcHash64DataCumulative (data : List UInt8) (len : Nat) (lastValue : BitVec 64) : BitVec 64 :=
  dataCumulative 0x00000100000001B3 data len lastValue

def parcHash64Data (data : List UInt8) (len : Nat) : BitVec 64 :=
  parcHash64DataCumulative data len 0xCBF29CE484222325

def parcHash32DataCumulative (data : List UInt8) (len : Nat) (lastValue : BitVec 32) : BitVec 32 :=
  dataCumulative 0x01000193 data len lastValue

def parcHash32Data (data : List UInt8) (len : Nat) : BitVec 32 :=
  parcHash32DataCumulative data len 0x811C9DC5

/-- Hash a first piece, and then the others on top of it. -/
def hash64Pieces (first : List UInt8) (rest : List (List UInt8)) : BitVec 64 :=
  rest.foldl (fun hash piece => parcHash64DataCumulative piece piece.length hash)
    (parcHash64Data first first.length)

def hash32Pieces (first : List UInt8) (rest : List (List UInt8)) : BitVec 32 :=
  rest.foldl (fun hash piece => parcHash32DataCumulative piece piece.length hash)
    (parcHash32Data first first.length)

/-! ## In pieces or at once -/

theorem dataCumulative_length {w} (prime hash : BitVec w) (piece : List UInt8) :
    dataCumulative prime piece piece.length hash = absorb signedChar prime hash piece := by
  rw [dataCumulative, List.take_length]

theorem dataCumulative_pieces {w} (prime off : BitVec w) (first : List UInt8)
    (rest : List (List UInt8)) :
    rest.foldl (fun hash piece => dataCumulative prime piece piece.length hash)
      (dataCumulative prime first first.length off) =
      absorb signedChar prime off (first ++ rest.flatten) := by
  simp only [dataCumulative_length]
  exact absorb_flatten (first :: rest)

theorem hash64Pieces_eq (first : List UInt8) (rest : List (List UInt8)) :
    hash64Pieces first rest = absorb signedChar prime64 offset64 (first ++ rest.flatten) :=
  dataCumulative_pieces prime64 offset64 first rest

theorem hash32Pieces_eq (first : List UInt8) (rest : List (List UInt8)) :
    hash32Pieces first rest = absorb signedChar prime32 offset32 (first ++ rest.flatten) :=
  dataCumulative_pieces prime32 offset32 first rest

theorem hashImpl_eq (bytes : List UInt8) (hash : PARCHashCode) :
    (parcHashCodeHashImpl bytes bytes.length hash).toBitVec =
      absorb zeroExtend prime64 hash.toBitVec bytes := by
  rw [parcHashCodeHashImpl, List.take_length]
  induction bytes generalizing hash with
  | nil => rfl
  | cons byte bytes ih =>
    rw [List.foldl_cons, ih, absorb_cons]
    rfl

/-! ## Which bytes are widened as the standard says -/

theorem signedChar_eq_iff {w} (hw : 8 < w) (byte : UInt8) :
    (signedChar byte : BitVec w) = zeroExtend byte ↔ byte < 0x80 := by
  have hm : byte.toBitVec.msb = false ↔ byte < 0x80 := by
    rw [BitVec.msb_eq_false_iff_two_mul_lt, UInt8.lt_iff_toNat_lt]
    show 2 * byte.toNat < 256 ↔ byte.toNat < 128
    omega
  rw [← hm, signedChar, zeroExtend]
  constructor
  · intro h
    -- The next bit is the byte's sign on one side and a zero on the other.
    have hb : (byte.toBitVec.signExtend w).getLsbD 8 = (byte.toBitVec.setWidth w).getLsbD 8 :=
      congrArg (BitVec.getLsbD · 8) h
    rw [BitVec.getLsbD_signExtend, BitVec.getLsbD_setWidth, decide_eq_true hw, Bool.true_and,
      Bool.true_and, if_neg (by omega)] at hb
    rw [hb]
    exact BitVec.getLsbD_of_ge _ _ (Nat.le_refl 8)
  · intro h
    exact BitVec.signExtend_eq_setWidth_of_msb_false h

theorem prime64_inverse : prime64 * 14886173955864302971#64 = 1#64 := rfl

theorem prime32_inverse : prime32 * 899433627#32 = 1#32 := rfl

theorem running_hash_iff {w prime inverse} (hi : prime * inverse = 1#w)
    (hw : 8 < w) (off : BitVec w) (bs : List UInt8) :
    (∀ part, part <+: bs → absorb signedChar prime off part = fnv1a prime off part) ↔
      ∀ byte ∈ bs, byte < 0x80 := by
  simp only [fnv1a, absorb_agree_iff hi, signedChar_eq_iff hw]

/-- **The running hashes are FNV-1a exactly for bytes without the topmost bit.** -/
theorem running_hash_standard_iff (bytes : List UInt8) :
    (∀ first rest, first ++ rest.flatten <+: bytes →
      hash64Pieces first rest = fnv1a prime64 offset64 (first ++ rest.flatten) ∧
      hash64Pieces first rest = (parcHashCodeHashImpl (first ++ rest.flatten)
        (first ++ rest.flatten).length parcHashCodeInitialValue).toBitVec ∧
      hash32Pieces first rest = fnv1a prime32 offset32 (first ++ rest.flatten)) ↔
    ∀ byte ∈ bytes, byte < 0x80 := by
  simp only [hash64Pieces_eq, hash32Pieces_eq, hashImpl_eq]
  have ha64 := running_hash_iff prime64_inverse (by omega) offset64 bytes
  have ha32 := running_hash_iff prime32_inverse (by omega) offset32 bytes
  constructor
  · intro h
    refine ha64.mp fun part hp => ?_
    have hpi := (h part [] (by simpa using hp)).1
    rwa [List.flatten_nil, List.append_nil] at hpi
  · intro h first rest hp
    have hh64 := ha64.mpr h _ hp
    exact ⟨hh64, hh64, ha32.mpr h _ hp⟩

/-- The sign of one byte is enough. -/
theorem high_byte_not_standard :
    parcHash64Data [0x80] 1 ≠ fnv1a prime64 offset64 [0x80] ∧ parcHash64Data [0x80] 1 ≠
      (parcHashCodeHashImpl [0x80] 1 parcHashCodeInitialValue).toBitVec ∧
    parcHash32Data [0x80] 1 ≠ fnv1a prime32 offset32 [0x80] := by
  decide

end Libparc.Hash
