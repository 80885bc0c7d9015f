import Libparc.BigEndian
import Mathlib.Data.Set.Disjoint
import Mathlib.Data.Set.BooleanAlgebra
import Mathlib.Order.CompletePartialOrder

/-! # A memory of bytes

Addresses are words and wrap around, so that a region is given by the distance of its addresses
from the first one. Regions that lie at distances from one base are compared by these distances
(`mem_region_add`). Numbers are stored with their lowest byte first; what was stored in a region
is loaded there (`load_store`), and elsewhere a load sees what was there before
(`load_store_of_disjoint`). -/
namespace Libparc.ByteMemory
open BigEndian List

variable {w : Nat}

abbrev Memory (w : Nat) := BitVec w → UInt8

/-- The `n` addresses from `a` on. -/
def region (a : BitVec w) (n : Nat) : Set (BitVec w) := {p | (p - a).toNat < n}

def read (m : Memory w) (a : BitVec w) (n : Nat) : List UInt8 :=
  (List.range n).map fun i => m (a + BitVec.ofNat w i)

def write (m : Memory w) (a : BitVec w) (bytes : List UInt8) : Memory w :=
  fun p => bytes[(p - a).toNat]?.getD (m p)

/-- `memset`. -/
def fill (m : Memory w) (a : BitVec w) (n : Nat) (byte : UInt8) : Memory w :=
  fun p => if (p - a).toNat < n then byte else m p

/-! ## Regions -/

section
variable {a base o p : BitVec w} {n k : Nat}

theorem mem_region : p ∈ region a n ↔ (p - a).toNat < n := Iff.rfl

theorem mem_region_add (h : o.toNat + n ≤ 2 ^ w) :
    p ∈ region (base + o) n ↔ o.toNat ≤ (p - base).toNat ∧ (p - base).toNat < o.toNat + n := by
  have hs : p - (base + o) = p - base - o := by grind
  rw [mem_region, hs]
  rcases Nat.lt_or_ge (p - base).toNat o.toNat with hlt | hle
  · have hw : (p - base - o).toNat = 2 ^ w - o.toNat + (p - base).toNat := by
      rw [BitVec.toNat_sub, Nat.mod_eq_of_lt (by omega)]
    omega
  · rw [BitVec.toNat_sub_of_le hle]
    omega

theorem toNat_offset {i} (hi : i < 2 ^ w) : (a + BitVec.ofNat w i - a).toNat = i := by
  have hc : a + BitVec.ofNat w i - a = BitVec.ofNat w i := by grind
  rw [hc, BitVec.toNat_ofNat, Nat.mod_eq_of_lt hi]

theorem mem_region_offset (h : n ≤ 2 ^ w) {i} (hi : i < n) : a + BitVec.ofNat w i ∈ region a n := by
  rw [mem_region, toNat_offset (Nat.lt_of_lt_of_le hi h)]
  exact hi

theorem region_mono (h : n ≤ k) : region a n ⊆ region a k := fun _ hp => Nat.lt_of_lt_of_le hp h

end

/-! ## Reading what was written -/

section
variable {m m' : Memory w} {a : BitVec w} {n : Nat} {bs : List UInt8}

@[simp] theorem length_read : (read m a n).length = n := by simp [read]

theorem write_of_notMem {p} (h : p ∉ region a bs.length) : write m a bs p = m p := by
  rw [mem_region, Nat.not_lt] at h
  rw [write, getElem?_eq_none h, Option.getD_none]

theorem read_congr (hn : n ≤ 2 ^ w) (h : ∀ p ∈ region a n, m p = m' p) : read m a n = read m' a n :=
  map_congr_left fun _ hi => h _ (mem_region_offset hn (mem_range.mp hi))

theorem read_write_part {front part back} (h : (front ++ part ++ back).length ≤ 2 ^ w) :
    read (write m a (front ++ part ++ back)) (a + BitVec.ofNat w front.length) part.length =
      part := by
  simp only [length_append] at h
  refine ext_getElem length_read fun i hi hi' => ?_
  simp only [read, getElem_map, getElem_range, write, BitVec.add_assoc, ← BitVec.ofNat_add]
  rw [toNat_offset (by omega), append_assoc, getElem?_append_right (by omega),
    Nat.add_sub_cancel_left, getElem?_append_left hi', getElem?_eq_getElem hi', Option.getD_some]

end

/-! ## Numbers -/

/-- The bytes of a number of `k` bytes, the lowest first. -/
def bytesOf (k v : Nat) : List UInt8 := (split k v).reverse

def numberOf (bytes : List UInt8) : Nat := combine 0 bytes.reverse

@[simp] theorem length_bytesOf (k v : Nat) : (bytesOf k v).length = k := by
  rw [bytesOf, length_reverse, length_split]

theorem numberOf_bytesOf {k v} (h : v < 256 ^ k) : numberOf (bytesOf k v) = v := by
  rw [numberOf, bytesOf, reverse_reverse, combine_split, Nat.zero_mul, Nat.zero_add,
    Nat.mod_eq_of_lt h]

/-- The number of `k` bytes at an address. -/
def load (m : Memory w) (a : BitVec w) (k : Nat) : Nat := numberOf (read m a k)

/-- Numbers of `k` bytes each, one behind the other. -/
def store (m : Memory w) (a : BitVec w) (k : Nat) (vs : List Nat) : Memory w :=
  write m a (vs.flatMap (bytesOf k))

variable {m m' : Memory w} {a b : BitVec w} {k n : Nat} {vs : List Nat}

theorem length_flatMap_bytesOf (k : Nat) (vs : List Nat) :
    (vs.flatMap (bytesOf k)).length = k * vs.length := by
  induction vs with
  | nil => rfl
  | cons v vs ih =>
    rw [flatMap_cons, length_append, length_bytesOf, ih, length_cons, Nat.mul_succ, Nat.add_comm]

theorem load_congr (hk : k ≤ 2 ^ w) (h : ∀ p ∈ region a k, m p = m' p) :
    load m a k = load m' a k := congrArg numberOf (read_congr hk h)

theorem load_store (h : k * vs.length ≤ 2 ^ w) {i v} (hi : vs[i]? = some v)
    (hv : v < 256 ^ k) : load (store m a k vs) (a + BitVec.ofNat w (k * i)) k = v := by
  obtain ⟨hlt, hg⟩ := List.getElem?_eq_some_iff.mp hi
  have hs : vs = vs.take i ++ v :: vs.drop (i + 1) := by
    rw [← hg, getElem_cons_drop, take_append_drop]
  have hb : vs.flatMap (bytesOf k) = (vs.take i).flatMap (bytesOf k) ++ bytesOf k v ++
      (vs.drop (i + 1)).flatMap (bytesOf k) := by
    conv_lhs => rw [hs]
    rw [flatMap_append, flatMap_cons, append_assoc]
  have hf : ((vs.take i).flatMap (bytesOf k)).length = k * i := by
    rw [length_flatMap_bytesOf, length_take, Nat.min_eq_left (Nat.le_of_lt hlt)]
  have hl : ((vs.take i).flatMap (bytesOf k) ++ bytesOf k v ++
      (vs.drop (i + 1)).flatMap (bytesOf k)).length ≤ 2 ^ w := by
    rw [← hb, length_flatMap_bytesOf]
    exact h
  have hr := read_write_part (m := m) (a := a) hl
  rw [← hb, hf, length_bytesOf] at hr
  rw [load, store, hr, numberOf_bytesOf hv]

theorem load_store_single {v} (hk : k ≤ 2 ^ w) (hv : v < 256 ^ k) :
    load (store m a k [v]) a k = v := by
  have hl := load_store (m := m) (a := a) (k := k) (i := 0) (by simpa using hk)
    (getElem?_cons_zero (a := v) (l := [])) hv
  rwa [Nat.mul_zero, BitVec.add_zero] at hl

theorem store_of_notMem {p} (h : p ∉ region a (k * vs.length)) : store m a k vs p = m p :=
  write_of_notMem (by rwa [length_flatMap_bytesOf])

theorem load_store_of_disjoint (hk : k ≤ 2 ^ w)
    (h : Disjoint (region a k) (region b (n * vs.length))) :
    load (store m b n vs) a k = load m a k :=
  load_congr hk fun _ hp => store_of_notMem fun hp' => Set.disjoint_left.mp h hp hp'

end Libparc.ByteMemory
