import Libparc.Probing
import Libparc.Runtime

/-! # parc_HashCodeTable

An open-addressing hash table with a probe of at most 20 slots. The entries
are an array of slots, where `none` is a slot whose key is NULL. Allocation is
taken to succeed, and the destroyers of keys and data act on the caller's
objects, not on the table.

A table whose keys are distinct and lie within reach of their home slots is
the finite map that `parcHashCodeTable_Get` reads from it, and every operation
keeps it so (`WellFormed`), with one exception: `parcHashCodeTable_Add` takes
the first free slot on the probe path, so a key that is stored behind a free
slot is stored a second time. -/
namespace Libparc.HashCodeTable
open Probing

variable {K D : Type}

def minSize : Nat := 256

def expandFactor : Nat := 2

def maxProbeLength : Nat := 20

/-- `PARCHashCodeTable_AddResult`. -/
inductive AddResult where
  | ok
  | dup
  | noSpace
  deriving DecidableEq, Repr

structure HashTableEntry (K D : Type) where
  key : K
  data : D
  hashcode : Nat
  deriving DecidableEq, Repr

structure LinearAddressingHashTable (K D : Type) where
  entries : List (Option (HashTableEntry K D))
  tableSize : Nat
  expandThreshold : Nat
  deriving DecidableEq, Repr

/-- The functions a table is created with. -/
structure KeyFunctions (K : Type) where
  keyEqualsFunc : K → K → Bool
  keyHashCodeFunc : K → Nat

/-- Key equality is an equivalence, and equal keys have equal hash codes. -/
structure KeyFunctions.Consistent (keys : KeyFunctions K) : Prop where
  refl : ∀ a, keys.keyEqualsFunc a a = true
  symm : ∀ a b, keys.keyEqualsFunc a b = true → keys.keyEqualsFunc b a = true
  trans : ∀ a b c, keys.keyEqualsFunc a b = true → keys.keyEqualsFunc b c = true →
    keys.keyEqualsFunc a c = true
  hash : ∀ a b, keys.keyEqualsFunc a b = true → keys.keyHashCodeFunc a = keys.keyHashCodeFunc b

namespace LinearAddressingHashTable

section
variable (t : LinearAddressingHashTable K D)

/-- The number of slots allocated. -/
def tableLimit : Nat := t.entries.length

/-- A cleared table, to be expanded at 75% utilization. -/
def cleared (limit : Nat) : LinearAddressingHashTable K D :=
  ⟨List.replicate limit none, 0, limit - limit / 4⟩

def entry (index : Nat) : Option (HashTableEntry K D) :=
  t.entries.getD index none

/-- The slot is in use, with this hash code and an equal key. -/
def holds (keys : KeyFunctions K) (t : LinearAddressingHashTable K D) (hashcode : Nat) (key : K)
    (index : Nat) : Bool :=
  match t.entry index with
  | some e => e.hashcode == hashcode && keys.keyEqualsFunc key e.key
  | none => false

/-- The loop of `_findIndex`, with the steps that are left. -/
def findIndexFrom (keys : KeyFunctions K) (t : LinearAddressingHashTable K D) (hashcode : Nat)
    (key : K) (start : Nat) : Nat → Nat → Option Nat
  | 0, _ => none
  | left + 1, index =>
    if t.holds keys hashcode key index then some index
    else if next t.tableLimit index = start then none
    else findIndexFrom keys t hashcode key start left (next t.tableLimit index)

def findIndex (keys : KeyFunctions K) (t : LinearAddressingHashTable K D) (key : K) : Option Nat :=
  let hashcode := keys.keyHashCodeFunc key
  let start := hashcode % t.tableLimit
  t.findIndexFrom keys hashcode key start maxProbeLength start

def store (index : Nat) (e : HashTableEntry K D) : LinearAddressingHashTable K D :=
  { t with entries := t.entries.set index (some e), tableSize := t.tableSize + 1 }

def clear (index : Nat) : LinearAddressingHashTable K D :=
  { t with entries := t.entries.set index none, tableSize := t.tableSize - 1 }

end

/-- The loop of `_innerTableAdd`, with the steps that are left. -/
def innerTableAddFrom (keys : KeyFunctions K) (t : LinearAddressingHashTable K D)
    (e : HashTableEntry K D) : Nat → Nat → AddResult × LinearAddressingHashTable K D
  | 0, _ => (.noSpace, t)
  | left + 1, index =>
    if (t.entry index).isNone then (.ok, t.store index e)
    else if t.holds keys e.hashcode e.key index then (.dup, t)
    else innerTableAddFrom keys t e left (next t.tableLimit index)

def innerTableAdd (keys : KeyFunctions K) (t : LinearAddressingHashTable K D)
    (e : HashTableEntry K D) : AddResult × LinearAddressingHashTable K D :=
  t.innerTableAddFrom keys e maxProbeLength (e.hashcode % t.tableLimit)

/-- `_rehash`, over the slots of the old table. -/
def rehash (keys : KeyFunctions K) : List (Option (HashTableEntry K D)) →
    LinearAddressingHashTable K D → AddResult × LinearAddressingHashTable K D
  | [], new => (.ok, new)
  | none :: rest, new => rehash keys rest new
  | some e :: rest, new =>
    match new.innerTableAdd keys e with
    | (.ok, new) => rehash keys rest new
    | (result, new) => (result, new)

end LinearAddressingHashTable

open LinearAddressingHashTable

/-- `struct parc_hashcode_table`. -/
structure PARCHashCodeTable (K D : Type) where
  hashtable : LinearAddressingHashTable K D
  expandCount : Nat
  deriving DecidableEq, Repr

section
variable (keys : KeyFunctions K) (table : PARCHashCodeTable K D)

/-- A turn of `_expand`: it ends with the new table unless that has no space
either. The state is the factor to expand by, and how often it was tried. -/
def expandBody (old : LinearAddressingHashTable K D) :
    Nat × Nat → Prog (Nat × Nat ⊕ PARCHashCodeTable K D)
  | (expandby, expandCount) =>
    match rehash keys old.entries (cleared (old.tableLimit * expandby)) with
    | (.noSpace, _) => pure (.inl (expandby + 1, expandCount + 1))
    | (_, temp) => pure (.inr ⟨temp, expandCount + 1⟩)

def expand : Prog (PARCHashCodeTable K D) :=
  Exec.loop (expandBody keys table.hashtable) (expandFactor, table.expandCount)

def parcHashCodeTableCreateSize (minimumSize : Nat) : Prog (PARCHashCodeTable K D) := do
  assertTrue (minimumSize > 0) "minimumSize must be greater than zero"
  pure ⟨cleared minimumSize, 0⟩

def parcHashCodeTableCreate : Prog (PARCHashCodeTable K D) := parcHashCodeTableCreateSize minSize

/-- A turn of the loop of `parcHashCodeTable_Add`. -/
def addBody (e : HashTableEntry K D) (table : PARCHashCodeTable K D) :
    Prog (PARCHashCodeTable K D ⊕ PARCHashCodeTable K D × Bool) :=
  match table.hashtable.innerTableAdd keys e with
  | (.noSpace, _) => do
    let table ← expand keys table
    pure (.inl table)
  | (result, hashtable) => pure (.inr ({ table with hashtable }, result = .ok))

def parcHashCodeTableAdd (key : Option K)
    (data : Option D) : Prog (PARCHashCodeTable K D × Bool) := do
  let key ← assertNotNull key "Parameter key must be non-null"
  let data ← assertNotNull data "Parameter data must be non-null"
  let table ← (if table.hashtable.tableSize ≥ table.hashtable.expandThreshold then
    expand keys table else pure table)
  Exec.loop (addBody keys ⟨key, data, keys.keyHashCodeFunc key⟩) table

def parcHashCodeTableDel (key : Option K) : Prog (PARCHashCodeTable K D) := do
  let key ← assertNotNull key "parameter key must be non-null"
  match table.hashtable.findIndex keys key with
  | none => pure table
  | some index => do
    assertTrue (table.hashtable.tableSize > 0)
      "Illegal state: found entry in a hash table with 0 size"
    pure { table with hashtable := table.hashtable.clear index }

def parcHashCodeTableGet (key : Option K) : Prog (Option D) := do
  let key ← assertNotNull key "parameter key must be non-null"
  match table.hashtable.findIndex keys key with
  | none => pure none
  | some index => pure ((table.hashtable.entry index).map (·.data))

end

end Libparc.HashCodeTable
