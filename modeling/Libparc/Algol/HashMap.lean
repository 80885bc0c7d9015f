import Libparc.Chaining
import Libparc.Runtime

/-! # parc_HashMap

The buckets of a map hold references to entries, and `parcHashMap_Put` changes
the value of an entry where it is. The entries are one memory, `Entries`; an
entry is never given back to it, so its address is its index.

The load factors are compared as rationals, 3/4 and 1/4; the quotients of the
source are doubles, which decides the same way below 2 ^ 50 buckets.
Allocation is taken to succeed. -/
namespace Libparc.HashMap
open Chaining Exec
open List hiding length_append

/-- What a map asks of its keys: `parcObject_HashCode`, `parcObject_Equals` and
`parcObject_Copy`. -/
structure KeyObject (K : Type) where
  hashCode : K → UInt64
  equals : K → K → Bool
  copy : K → K

/-- `struct PARCHashMapEntry`. -/
structure PARCHashMapEntry (K V : Type) where
  key : K
  value : V
  deriving DecidableEq, Repr

abbrev Entries (K V : Type) := List (PARCHashMapEntry K V)

/-- `struct PARCHashMap`. A bucket is absent until an entry is put into it.
`moved` is not in the source: it counts the entries that resizing has appended
to new buckets. -/
structure PARCHashMap where
  buckets : Chains Ptr
  minCapacity : Nat
  capacity : Nat
  size : Nat
  moved : Nat
  deriving DecidableEq, Repr

def defaultCapacity : Nat := 43

def parcHashMapCreateCapacity (capacity : UInt32) : PARCHashMap :=
  let capacity := if capacity = 0 then defaultCapacity else capacity.toNat
  ⟨List.replicate capacity none, capacity, capacity, 0, 0⟩

def parcHashMapCreate : PARCHashMap := parcHashMapCreateCapacity 43

section
variable {K V : Type} (keys : KeyObject K) (entries : Entries K V) (hashMap : PARCHashMap)
variable (key : K)

/-- The remainder is a `size_t`, the bucket number an `int`. -/
def bucketIndex (capacity : Nat) : Int :=
  (((keys.hashCode key).toNat % capacity : Nat) : Int).bmod (2 ^ 32)

/-- `buckets[bucket]`. -/
def bucketAt (buckets : Chains Ptr) (bucket : Int) : Prog (Option (List Ptr)) :=
  if 0 ≤ bucket ∧ bucket < buckets.length then pure (buckets.getD bucket.toNat none)
  else throw .memoryFault

/-- `parcLinkedList_Append` to a bucket, which is created first if it is
absent. -/
def appendToBucket (buckets : Chains Ptr) (bucket : Int) (entry : Ptr) : Prog (Chains Ptr) := do
  let list ← bucketAt buckets bucket
  pure (buckets.set bucket.toNat (some (list.getD [] ++ [entry])))

def entryAt (entry : Ptr) : Prog (PARCHashMapEntry K V) :=
  match entries[entry]? with
  | some e => pure e
  | none => throw .memoryFault

/-- The loop of `_parcHashMap_GetEntry`. -/
def findEntry (key : K) : List Ptr → Prog (Option Ptr)
  | [] => pure none
  | entry :: list => do
    let e ← entryAt entries entry
    if keys.equals key e.key then pure (some entry) else findEntry key list

def getEntry : Prog (Option Ptr) := do
  match ← bucketAt hashMap.buckets (bucketIndex keys key hashMap.capacity) with
  | none => pure none
  | some list => findEntry keys entries key list

def parcHashMapGet : Prog (Option V) := do
  match ← getEntry keys entries hashMap key with
  | none => pure none
  | some entry => pure (some (← entryAt entries entry).value)

/-- Whether there is a value: a stored one is not NULL. -/
def parcHashMapContains : Prog Bool := do
  match ← getEntry keys entries hashMap key with
  | none => pure false
  | some entry => do
    let _ ← entryAt entries entry
    pure true

def parcHashMapSize : Nat := hashMap.size

/-! ## Resizing -/

def moveEntry (newCapacity : Nat) (newBuckets : Chains Ptr) (entry : Ptr) :
    Prog (Chains Ptr) := do
  let e ← entryAt entries entry
  appendToBucket newBuckets (bucketIndex keys e.key newCapacity) entry

/-- A turn of the loop over the old buckets, whose counter is an
`unsigned int`. -/
def resizeBody (newCapacity : Nat) : Nat × Chains Ptr × Nat →
    Prog (Nat × Chains Ptr × Nat ⊕ Chains Ptr × Nat)
  | (i, newBuckets, moved) =>
    if i < hashMap.capacity then do
      let list := (← bucketAt hashMap.buckets i).getD []
      let newBuckets ← list.foldlM (moveEntry keys entries newCapacity) newBuckets
      pure (.inl ((i + 1) % 2 ^ 32, newBuckets, moved + list.length))
    else pure (.inr (newBuckets, moved))

def resize (newCapacity : Nat) : Prog PARCHashMap :=
  if newCapacity < hashMap.minCapacity then pure hashMap
  else do
    let (newBuckets, moved) ← Exec.loop (resizeBody keys entries hashMap newCapacity)
      (0, List.replicate newCapacity none, hashMap.moved)
    pure { hashMap with buckets := newBuckets, capacity := newCapacity, moved }

/-! ## Changing -/

/-- The loop of `parcHashMap_Remove`: the list without the entry of the key, if
it has one. -/
def removeFromList (key : K) : List Ptr → Prog (Option (List Ptr))
  | [] => pure none
  | entry :: list => do
    let e ← entryAt entries entry
    if keys.equals key e.key then pure (some list)
    else pure ((← removeFromList key list).map (entry :: ·))

/-- `parcHashMap_Remove` up to the test of the load factor. -/
def removeEntry : Prog (PARCHashMap × Bool) := do
  let bucket := bucketIndex keys key hashMap.capacity
  match ← bucketAt hashMap.buckets bucket with
  | none => pure (hashMap, false)
  | some list =>
    match ← removeFromList keys entries key list with
    | none => pure (hashMap, false)
    | some list =>
      let buckets := hashMap.buckets.set bucket.toNat (some list)
      pure ({ hashMap with buckets, size := hashMap.size - 1 }, true)

def parcHashMapRemove : Prog (PARCHashMap × Bool) := do
  let (hashMap, result) ← removeEntry keys entries hashMap key
  let hashMap ← (if 4 * hashMap.size ≤ hashMap.capacity then
      resize keys entries hashMap (hashMap.capacity / 2)
    else pure hashMap)
  pure (hashMap, result)

/-- `parcHashMap_Put` after the test of the load factor. -/
def putEntry (value : V) : Prog (Entries K V × PARCHashMap) := do
  match ← getEntry keys entries hashMap key with
  | some entry => do
    let e ← entryAt entries entry
    pure (entries.set entry { e with value }, hashMap)
  | none => do
    let buckets ← appendToBucket hashMap.buckets (bucketIndex keys key hashMap.capacity)
      entries.length
    pure (entries ++ [⟨keys.copy key, value⟩],
      { hashMap with buckets, size := hashMap.size + 1 })

def parcHashMapPut (value : V) : Prog (Entries K V × PARCHashMap) := do
  let hashMap ← (if 4 * hashMap.size ≥ 3 * hashMap.capacity then
      resize keys entries hashMap (hashMap.capacity * 2)
    else pure hashMap)
  putEntry keys entries hashMap key value

end

/-! ## Updates -/

/-- A map and the memory its entries are in. -/
structure State (K V : Type) where
  entries : Entries K V
  map : PARCHashMap
  deriving DecidableEq, Repr

/-- A new map, and no entries. -/
def start {K V : Type} (capacity : UInt32) : State K V := ⟨[], parcHashMapCreateCapacity capacity⟩

inductive Update (K V : Type) where
  | put (key : K) (value : V)
  | remove (key : K)

/-- An update, with what `parcHashMap_Remove` returns. -/
def Update.run {K V : Type} (keys : KeyObject K) (s : State K V) :
    Update K V → Prog (State K V × Option Bool)
  | .put key value => do
    let (entries, map) ← parcHashMapPut keys s.entries s.map key value
    pure (⟨entries, map⟩, none)
  | .remove key => do
    let (map, removed) ← parcHashMapRemove keys s.entries s.map key
    pure (⟨s.entries, map⟩, some removed)

/-! ## When the parts of a call return -/

variable {K V : Type} {keys : KeyObject K} {es : Entries K V} {hashMap m' : PARCHashMap}
  {key : K} {buckets bk' : Chains Ptr} {capacity : Nat}

/-- The bucket number of the key is not negative. -/
def Fits (keys : KeyObject K) (key : K) (capacity : Nat) : Prop :=
  0 ≤ bucketIndex keys key capacity

instance (keys : KeyObject K) (key : K) (capacity : Nat) : Decidable (Fits keys key capacity) :=
  inferInstanceAs (Decidable (0 ≤ bucketIndex keys key capacity))

theorem bucketIndex_lt (keys : KeyObject K) (key : K) (hc : 0 < capacity) :
    bucketIndex keys key capacity < capacity := by
  have hm := Nat.mod_lt (keys.hashCode key).toNat hc
  unfold bucketIndex
  rw [Int.bmod_def]
  split <;> omega

theorem fits_of_le (hc : 0 < capacity) (h : capacity ≤ 2 ^ 31) : Fits keys key capacity := by
  have hm := Nat.mod_lt (keys.hashCode key).toNat hc
  unfold Fits bucketIndex
  rw [Int.bmod_eq_of_le (by omega) (by omega)]
  omega

theorem bucketAt_eq_pure {bucket l} :
    bucketAt buckets bucket = pure l ↔
      0 ≤ bucket ∧ bucket < buckets.length ∧ l = buckets.getD bucket.toNat none := by
  unfold bucketAt
  split
  · rename_i h
    rw [pure_inj]
    exact ⟨fun heq => ⟨h.1, h.2, heq.symm⟩, fun heq => heq.2.2.symm⟩
  · rename_i h
    constructor
    · exact fun heq => absurd heq throw_ne_pure
    · exact fun heq => absurd ⟨heq.1, heq.2.1⟩ h

theorem bucketAt_natCast {buckets} {i : Nat} (hi : i < buckets.length) :
    bucketAt buckets i = pure (buckets.getD i none) :=
  bucketAt_eq_pure.mpr ⟨Int.natCast_nonneg i, Int.ofNat_lt.mpr hi, rfl⟩

theorem appendToBucket_eq_pure {bucket entry} :
    appendToBucket buckets bucket entry = pure bk' ↔
      0 ≤ bucket ∧ bucket < buckets.length ∧ bk' = append buckets bucket.toNat entry := by
  unfold appendToBucket
  rw [bind_eq_pure]
  constructor
  · rintro ⟨l, hl, heq⟩
    obtain ⟨h0, hlt, rfl⟩ := bucketAt_eq_pure.mp hl
    exact ⟨h0, hlt, (pure_inj.mp heq).symm⟩
  · rintro ⟨h0, hlt, rfl⟩
    exact ⟨_, bucketAt_eq_pure.mpr ⟨h0, hlt, rfl⟩, rfl⟩

theorem entryAt_eq_pure {entry e} : entryAt es entry = pure e ↔ es[entry]? = some e := by
  unfold entryAt
  split
  · rename_i f hf
    rw [hf, pure_inj, Option.some.injEq]
  · rename_i hn
    rw [hn]
    exact ⟨fun h => absurd h throw_ne_pure, fun h => by cases h⟩

/-- The bucket of an entry. -/
def home (keys : KeyObject K) (entries : Entries K V) (capacity : Nat) (entry : Ptr) : Nat :=
  match entries[entry]? with
  | some e => (bucketIndex keys e.key capacity).toNat
  | none => 0

/-- The entry can be put into one of `capacity` buckets. -/
def Movable (keys : KeyObject K) (entries : Entries K V) (capacity : Nat) (entry : Ptr) : Prop :=
  ∃ e, entries[entry]? = some e ∧ Fits keys e.key capacity

theorem Movable.home_lt {entry} (h : Movable keys es capacity entry)
    (hc : 0 < capacity) : home keys es capacity entry < capacity := by
  obtain ⟨e, he, hf⟩ := h
  have hlt := bucketIndex_lt keys e.key hc
  simp only [home, he]
  omega

theorem moveEntries_eq_pure (hl : buckets.length = capacity) (hc : 0 < capacity) (list : List Ptr) :
    list.foldlM (moveEntry keys es capacity) buckets = pure bk' ↔
      (∀ entry ∈ list, Movable keys es capacity entry) ∧
        bk' = distribute (home keys es capacity) buckets list := by
  induction list generalizing buckets with
  | nil =>
    rw [foldlM_nil, pure_inj]
    exact ⟨fun h => ⟨by simp, h.symm⟩, fun h => h.2.symm⟩
  | cons entry list ih =>
    rw [foldlM_cons, bind_eq_pure]
    constructor
    · rintro ⟨bk1, hm, hr⟩
      obtain ⟨e, he, ha⟩ := bind_eq_pure.mp hm
      rw [entryAt_eq_pure] at he
      obtain ⟨hf, -, rfl⟩ := appendToBucket_eq_pure.mp ha
      obtain ⟨hli, rfl⟩ := (ih (by rw [length_append, hl])).mp hr
      refine ⟨forall_mem_cons.mpr ⟨⟨e, he, hf⟩, hli⟩, ?_⟩
      simp only [distribute, foldl_cons, home, he]
    · rintro ⟨hli, rfl⟩
      obtain ⟨⟨e, he, hf⟩, hli⟩ := forall_mem_cons.mp hli
      have hlt := bucketIndex_lt keys e.key hc
      refine ⟨append buckets (bucketIndex keys e.key capacity).toNat entry, ?_, ?_⟩
      · refine bind_eq_pure.mpr ⟨e, entryAt_eq_pure.mpr he, ?_⟩
        exact appendToBucket_eq_pure.mpr ⟨hf, by rwa [hl], rfl⟩
      · refine (ih (by rw [length_append, hl])).mpr ⟨hli, ?_⟩
        simp only [distribute, foldl_cons, home, he]

/-- The map with its entries in `newCapacity` new buckets. -/
def rehashed (keys : KeyObject K) (entries : Entries K V) (hashMap : PARCHashMap)
    (newCapacity : Nat) : PARCHashMap :=
  { hashMap with
    buckets := distribute (home keys entries newCapacity) (List.replicate newCapacity none)
      (elements hashMap.buckets)
    capacity := newCapacity
    moved := hashMap.moved + (elements hashMap.buckets).length }

/-- The state of the loop of `_parcHashMap_Resize` when it comes to bucket `i`. -/
def rehashedTo (keys : KeyObject K) (entries : Entries K V) (hashMap : PARCHashMap)
    (newCapacity i : Nat) : Nat × Chains Ptr × Nat :=
  (i, distribute (home keys entries newCapacity) (List.replicate newCapacity none)
      (elements (hashMap.buckets.take i)),
    hashMap.moved + (elements (hashMap.buckets.take i)).length)

section
variable {n i moved : Nat} {x : Nat × Chains Ptr × Nat ⊕ Chains Ptr × Nat}

theorem resizeBody_done (h : ¬ i < hashMap.capacity) :
    resizeBody keys es hashMap n (i, buckets, moved) = pure (.inr (buckets, moved)) := if_neg h

variable (hl : hashMap.buckets.length = hashMap.capacity)
include hl

theorem resizeBody_next
    (h : i < hashMap.capacity) :
    resizeBody keys es hashMap n (i, buckets, moved) = (do
      let newBuckets ← (chain hashMap.buckets i).foldlM (moveEntry keys es n) buckets
      pure (.inl ((i + 1) % 2 ^ 32, newBuckets, moved + (chain hashMap.buckets i).length))) := by
  simp only [resizeBody, if_pos h, bucketAt_natCast (hl.symm ▸ h), pure_bind]
  rfl

theorem resizeBody_rehashedTo
    (hc : 0 < n) (hs : hashMap.capacity < 2 ^ 32) (hi : i < hashMap.capacity) :
    resizeBody keys es hashMap n (rehashedTo keys es hashMap n i) = pure x ↔
      (∀ e ∈ chain hashMap.buckets i, Movable keys es n e) ∧
        x = .inl (rehashedTo keys es hashMap n (i + 1)) := by
  have hn : (distribute (home keys es n) (replicate n none)
      (elements (hashMap.buckets.take i))).length = n := by
    rw [length_distribute, length_replicate]
  have hne : rehashedTo keys es hashMap n (i + 1) = ((i + 1) % 2 ^ 32, distribute (home keys es n)
        (distribute (home keys es n) (replicate n none)
          (elements (hashMap.buckets.take i))) (chain hashMap.buckets i),
        hashMap.moved + (elements (hashMap.buckets.take i)).length +
          (chain hashMap.buckets i).length) := by
    rw [rehashedTo, elements_take_succ (by rwa [hl]), distribute_append, List.length_append,
      Nat.mod_eq_of_lt (by omega), Nat.add_assoc hashMap.moved]
  rw [rehashedTo, resizeBody_next hl hi, bind_eq_pure, hne]
  constructor
  · rintro ⟨buckets, hm, heq⟩
    obtain ⟨hmo, rfl⟩ := (moveEntries_eq_pure hn hc _).mp hm
    exact ⟨hmo, (pure_inj.mp heq).symm⟩
  · rintro ⟨hmo, rfl⟩
    exact ⟨_, (moveEntries_eq_pure hn hc _).mpr ⟨hmo, rfl⟩, rfl⟩

theorem resizeLoop_small {r} (h : Exec.loop (resizeBody keys es hashMap n)
      (0, replicate n none, hashMap.moved) = pure r) : hashMap.capacity < 2 ^ 32 := by
  by_contra hla
  refine loop_invariant (fun s : Nat × Chains Ptr × Nat => s.1 < 2 ^ 32) (fun _ => False)
    ?_ (show (0 : Nat) < 2 ^ 32 by decide) h
  rintro ⟨i, buckets, moved⟩ x (hi : i < 2 ^ 32) hs
  rw [resizeBody_next hl (by omega)] at hs
  obtain ⟨newBuckets, -, heq⟩ := bind_eq_pure.mp hs
  rw [← pure_inj.mp heq]
  exact Nat.mod_lt _ (by decide)

theorem resizeLoop_eq_pure (hc : 0 < n) {r} :
    Exec.loop (resizeBody keys es hashMap n) (0, replicate n none, hashMap.moved) = pure r ↔
      hashMap.capacity < 2 ^ 32 ∧ (∀ e ∈ elements hashMap.buckets, Movable keys es n e) ∧
      r = ((rehashed keys es hashMap n).buckets, (rehashed keys es hashMap n).moved) := by
  have ha : hashMap.buckets.take hashMap.capacity = hashMap.buckets := by
    rw [← hl, take_length]
  constructor
  · intro h
    have hs := resizeLoop_small hl h
    refine ⟨hs, ?_⟩
    refine loop_invariant (fun s => ∃ i ≤ hashMap.capacity, s = rehashedTo keys es hashMap n i ∧
        ∀ e ∈ elements (hashMap.buckets.take i), Movable keys es n e)
      (fun r => (∀ e ∈ elements hashMap.buckets, Movable keys es n e) ∧
        r = ((rehashed keys es hashMap n).buckets, (rehashed keys es hashMap n).moved)) ?_
      ⟨0, Nat.zero_le _, rfl, by simp [elements]⟩ h
    rintro _ x ⟨i, hi, rfl, hm⟩ hst
    rcases Nat.lt_or_eq_of_le hi with hlt | rfl
    · obtain ⟨hch, rfl⟩ := (resizeBody_rehashedTo hl hc hs hlt).mp hst
      refine ⟨i + 1, hlt, rfl, ?_⟩
      rw [elements_take_succ (by rwa [hl])]
      exact forall_mem_append.mpr ⟨hm, hch⟩
    · rw [rehashedTo, resizeBody_done (Nat.lt_irrefl _)] at hst
      rw [ha] at hm hst
      cases hst
      exact ⟨hm, rfl⟩
  · rintro ⟨hs, hm, rfl⟩
    -- every turn returns, and leaves fewer buckets to come
    have ht : ∀ m s, (∃ i ≤ hashMap.capacity,
          s = rehashedTo keys es hashMap n i ∧ m = hashMap.capacity - i) →
        (∃ r, resizeBody keys es hashMap n s = pure (.inr r) ∧
          r = ((rehashed keys es hashMap n).buckets, (rehashed keys es hashMap n).moved)) ∨
        ∃ s' m', resizeBody keys es hashMap n s = pure (.inl s') ∧
          (∃ i ≤ hashMap.capacity, s' = rehashedTo keys es hashMap n i ∧
            m' = hashMap.capacity - i) ∧ m' < m := by
      rintro _ _ ⟨i, hi, rfl, rfl⟩
      rcases Nat.lt_or_eq_of_le hi with hlt | rfl
      · right
        refine ⟨_, _, (resizeBody_rehashedTo hl hc hs hlt).mpr ⟨?_, rfl⟩,
          ⟨i + 1, hlt, rfl, rfl⟩, by omega⟩
        intro e he
        exact hm e (mem_elements.mpr ⟨i, he⟩)
      · left
        refine ⟨_, resizeBody_done (Nat.lt_irrefl _), ?_⟩
        rw [ha]
        rfl
    obtain ⟨r, hlo, rfl⟩ := loop_variant _ _ ht ⟨0, Nat.zero_le _, rfl, rfl⟩
    exact hlo

/-- **When `_parcHashMap_Resize` returns**, and what it has done then. -/
theorem resize_eq_pure (hc : 0 < n) (hm : hashMap.minCapacity ≤ n) :
    resize keys es hashMap n = pure m' ↔ hashMap.capacity < 2 ^ 32 ∧
      (∀ e ∈ elements hashMap.buckets, Movable keys es n e) ∧ m' = rehashed keys es hashMap n := by
  rw [resize, if_neg (Nat.not_lt_of_le hm), bind_eq_pure]
  constructor
  · rintro ⟨r, hlo, heq⟩
    obtain ⟨hs, hmo, rfl⟩ := (resizeLoop_eq_pure hl hc).mp hlo
    exact ⟨hs, hmo, (pure_inj.mp heq).symm⟩
  · rintro ⟨hs, hmo, rfl⟩
    exact ⟨_, (resizeLoop_eq_pure hl hc).mpr ⟨hs, hmo, rfl⟩, rfl⟩

end

end Libparc.HashMap
