import Mathlib.Data.UInt

/-! # parc_HashCode

The FNV-1a hash of some bytes, for a build with 64-bit hash codes. -/
namespace Libparc.HashCode

abbrev PARCHashCode := UInt64

def fnv1aPrime : PARCHashCode := 0x00000100000001B3

def parcHashCodeInitialValue : PARCHashCode := 0xCBF29CE484222325

/-- The loop goes over the first `length` bytes. -/
def parcHashCodeHashImpl (memory : List UInt8) (length : Nat) (initialValue : PARCHashCode) :
    PARCHashCode :=
  (memory.take length).foldl (fun hash byte => (hash ^^^ byte.toUInt64) * fnv1aPrime) initialValue

def parcHashCodeHash (memory : List UInt8) (length : Nat) : PARCHashCode :=
  parcHashCodeHashImpl memory length parcHashCodeInitialValue

end Libparc.HashCode
