import Libparc.Algol.HashMapCalls
import Libparc.Counted

/-! # The copy of a hash map

`parcHashMap_Copy` makes new buckets, but their lists refer to the entries of the
original. `parcHashMap_Put` appends a new entry for a new key, and a removal takes an
entry from a list: the other map does not see that. For a key that it finds,
`parcHashMap_Put` changes the value of the entry where it is, and the other map sees
it if it refers to the same entry. -/
namespace Libparc.HashMap
open Chaining Exec List

variable {K V : Type} {keys : KeyObject K} {entries es' : Entries K V}
  {m : PARCHashMap} {key : K} {value : V} {initial : Nat}

/-- `parcLinkedList_Copy`. -/
def copyList (list : List Ptr) : List Ptr := list.foldl (fun result entry => result ++ [entry]) []

/-- A turn of the loop of `parcHashMap_Copy`. -/
def copyBucket (original : PARCHashMap) (i : Nat) (buckets : Chains Ptr) : Prog (Chains Ptr) := do
  let list ← bucketAt original.buckets i
  pure (buckets.set i (list.map copyList))

/-- The new buckets have nothing in them before the loop sets them. -/
def parcHashMapCopy (original : PARCHashMap) : Prog PARCHashMap := do
  let buckets ← Exec.counted original.capacity (fun _ => false) (copyBucket original)
    (List.replicate original.capacity none)
  pure { original with buckets, moved := 0 }

theorem copyList_eq (list : List Ptr) : copyList list = list := by
  have hf (done : List Ptr) : list.foldl (fun r e => r ++ [e]) done = done ++ list := by
    induction list generalizing done with
    | nil => exact (append_nil done).symm
    | cons e list ih => rw [foldl_cons, ih, append_assoc, singleton_append]
  exact hf []

theorem copyBucket_eq (hl : m.buckets.length = m.capacity) {i}
    (hi : i < m.capacity) (bk : Chains Ptr) :
    copyBucket m i bk = pure (bk.set i (m.buckets.getD i none)) := by
  have hc (list : Option (List Ptr)) : list.map copyList = list := by
    rw [funext copyList_eq]
    exact Option.map_id'
  rw [copyBucket, bucketAt_natCast (hl.symm ▸ hi), pure_bind, hc]

/-- The buckets in front of the counter are copied, the others are new. -/
def copiedTo (hashMap : PARCHashMap) (i : Nat) : Chains Ptr :=
  hashMap.buckets.take i ++ List.replicate (hashMap.capacity - i) none

section
variable (hl : m.buckets.length = m.capacity)
include hl

theorem copiedTo_succ {i} (hi : i < m.capacity) :
    (copiedTo m i).set i (m.buckets.getD i none) = copiedTo m (i + 1) := by
  have ht : (m.buckets.take i).length = i := by
    rw [length_take]
    omega
  have hr : m.capacity - i = m.capacity - (i + 1) + 1 := by omega
  have hg : m.buckets.getD i none = m.buckets[i] := by
    rw [getD_eq_getElem?_getD, getElem?_eq_getElem (by omega), Option.getD_some]
  rw [copiedTo, copiedTo, set_append_right _ _ (Nat.le_of_eq ht), ht, Nat.sub_self,
    hr, replicate_succ, set_cons_zero, hg, take_succ_eq_append_getElem
    (by omega), append_assoc, singleton_append]

theorem parcHashMapCopy_eq (hc : m.capacity < 2 ^ 32) :
    parcHashMapCopy m = pure { m with moved := 0 } := by
  have hb : ∀ i < m.capacity, ∀ buckets, buckets = copiedTo m i →
      i < m.capacity → false = false → ∃ bk', copyBucket m i buckets =
        pure bk' ∧ bk' = copiedTo m (i + 1) := by
    intro i hi buckets heq _ _
    subst heq
    exact ⟨_, copyBucket_eq hl hi _, copiedTo_succ hl hi⟩
  have hs : replicate m.capacity none = copiedTo m 0 := rfl
  obtain ⟨buckets, hlo, i, hi, heq, he⟩ := counted_returns
    (fun i buckets => buckets = copiedTo m i) (Nat.le_of_lt hc) hb
    (fun _ _ => .inl (Nat.le_of_eq (Nat.mod_eq_of_lt hc).symm)) hs
  have hi' : i = m.capacity := Nat.le_antisymm hi (he.resolve_right Bool.false_ne_true)
  have ha : buckets = m.buckets := by
    rw [heq, hi', copiedTo, Nat.sub_self, ← hl, take_length]
    exact append_nil _
  rw [parcHashMapCopy, hlo, pure_bind, ha]

theorem parcHashMapCopy_diverges
    (hc : 2 ^ 32 ≤ m.capacity) {copy} : parcHashMapCopy m ≠ pure copy := by
  intro hco
  obtain ⟨bk, hlo, -⟩ := bind_eq_pure.mp hco
  refine counted_diverges (fun _ => True) hc ?_ trivial ⟨bk, hlo⟩
  intro i hi bk _
  exact ⟨rfl, _, copyBucket_eq hl (Nat.lt_of_lt_of_le hi hc) bk, trivial⟩

end

/-! ## Updates of a map -/

/-- The map refers to entries that are there. -/
def Live (entries : Entries K V) (hashMap : PARCHashMap) : Prop :=
  ∀ p ∈ elements hashMap.buckets, p < entries.length

theorem Update.run_live {s s' r} (u : Update K V)
    (h : Loaded initial s.map) (hl : Live s.entries s.map) (hr : u.run keys s = pure (s', r)) :
    Live s'.entries s'.map ∧ s.entries.length ≤ s'.entries.length := by
  cases u with
  | put key value =>
    obtain ⟨⟨es', map'⟩, hpu, heq⟩ := bind_eq_pure.mp hr
    cases heq
    obtain ⟨-, he, hpe, -⟩ | ⟨entry, e, -, -, he, hpe, -⟩ := put_effect h hpu
    · subst he
      have hle (e : PARCHashMapEntry K V) : (s.entries ++ [e]).length = s.entries.length + 1 :=
        length_append
      refine ⟨fun p hp => ?_, Nat.le.intro (hle _).symm⟩
      rw [hle]
      obtain rfl | hold := mem_cons.mp (hpe.mem_iff.mp hp)
      · exact Nat.lt_succ_self _
      · exact Nat.lt_succ_of_lt (hl p hold)
    · subst he
      have hle : (s.entries.set entry { e with value }).length = s.entries.length := length_set
      refine ⟨fun p hp => ?_, Nat.le_of_eq hle.symm⟩
      rw [hle]
      exact hl p (hpe.mem_iff.mp hp)
  | remove key =>
    obtain ⟨⟨map', removed⟩, hre, heq⟩ := bind_eq_pure.mp hr
    cases heq
    exact ⟨fun p hp => hl p ((remove_effect h hre).1 hp), Nat.le_refl _⟩

theorem runUpdates_live (keys : KeyObject K) (us : List (Update K V)) {s}
    (h : Loaded initial s.map) (hl : Live s.entries s.map) :
    Live (runUpdates keys s us).entries (runUpdates keys s us).map := by
  induction us generalizing s with
  | nil => exact hl
  | cons u us ih =>
    unfold runUpdates
    split
    · exact ih (u.run_loaded h ‹_›).1 (u.run_live h hl ‹_›).1
    · exact hl

/-! ## Maps in one memory -/

/-- Maps by their names, and the memory that all their entries are in. -/
structure Maps (ι K V : Type) where
  entries : Entries K V
  map : ι → PARCHashMap

section
variable {ι : Type}

def Maps.state (s : Maps ι K V) (i : ι) : State K V := ⟨s.entries, s.map i⟩

/-- An update through one of the maps. -/
def Maps.update [DecidableEq ι] (keys : KeyObject K) (s : Maps ι K V) (i : ι) (u : Update K V) :
    Prog (Maps ι K V) := do
  let (s', _) ← u.run keys (s.state i)
  pure ⟨s'.entries, Function.update s.map i s'.map⟩

/-- All maps are in good shape and refer to entries that are there. -/
structure Maps.Inv (s : Maps ι K V) : Prop where
  loaded : ∀ i, ∃ initial, Loaded initial (s.map i)
  live : ∀ i, Live s.entries (s.map i)

variable [DecidableEq ι] {s s' : Maps ι K V} {i j : ι} {u : Update K V}

theorem Maps.update_other (hr : s.update keys i u = pure s') (hj : j ≠ i) : s'.map j = s.map j := by
  obtain ⟨⟨t, r⟩, -, heq⟩ := bind_eq_pure.mp hr
  cases heq
  exact Function.update_of_ne hj _ _

theorem Maps.update_self (hr : s.update keys i u = pure s') :
    ∃ r, u.run keys (s.state i) = pure (s'.state i, r) := by
  obtain ⟨⟨t, r⟩, hu, heq⟩ := bind_eq_pure.mp hr
  cases heq
  refine ⟨r, hu.trans ?_⟩
  have hs : Function.update s.map i t.map i = t.map := Function.update_self _ _ _
  show _ = pure ((⟨t.entries, Function.update s.map i t.map i⟩ : State K V), r)
  rw [hs]

theorem Maps.Inv.update (h : s.Inv) (hr : s.update keys i u = pure s') : s'.Inv := by
  obtain ⟨r, hu⟩ := Maps.update_self hr
  obtain ⟨initial, hl⟩ := h.loaded i
  obtain ⟨hli, hle⟩ := u.run_live hl (h.live i) hu
  refine ⟨fun j => ?_, fun j => ?_⟩
  · by_cases hj : j = i
    · subst hj
      exact ⟨initial, (u.run_loaded hl hu).1⟩
    · rw [Maps.update_other hr hj]
      exact h.loaded j
  · by_cases hj : j = i
    · subst hj
      exact hli
    · rw [Maps.update_other hr hj]
      exact fun p hp => Nat.lt_of_lt_of_le (h.live j p hp) hle

end

/-! ## Two maps -/

inductive Side where
  | original
  | copy
  deriving DecidableEq, Repr

def Side.other : Side → Side
  | .original => .copy
  | .copy => .original

/-- What is observed through a map is as before: its entries in the order of the iterators,
its size and what is found under each key. -/
structure Unchanged (keys : KeyObject K) (s s' : Maps Side K V) (side : Side) : Prop where
  contents : contents s'.entries (s'.map side).buckets = contents s.entries (s.map side).buckets
  size : parcHashMapSize (s'.map side) = parcHashMapSize (s.map side)
  get : ∀ key, parcHashMapGet keys s'.entries (s'.map side) key =
    parcHashMapGet keys s.entries (s.map side) key

/-- No update through one of the maps changes what is observed through the other. -/
def Independent (keys : KeyObject K) : Maps Side K V → List (Side × Update K V) → Prop
  | _, [] => True
  | s, (side, u) :: updates => ∀ s', s.update keys side u = pure s' →
    Unchanged keys s s' side.other ∧ Independent keys s' updates

/-- The update sets the value of an entry that the other map refers to, to another value. -/
def Overwrites (keys : KeyObject K) (s : Maps Side K V) (side : Side) : Update K V → Prop
  | .put key value => ∃ entry e, putTarget keys s.entries (s.map side) key = pure (some entry) ∧
    entry ∈ elements (s.map side.other).buckets ∧ s.entries[entry]? = some e ∧ e.value ≠ value
  | .remove _ => False

/-- No update overwrites a value of the other map. -/
def Safe (keys : KeyObject K) : Maps Side K V → List (Side × Update K V) → Prop
  | _, [] => True
  | s, (side, u) :: updates => ¬Overwrites keys s side u ∧
    ∀ s', s.update keys side u = pure s' → Safe keys s' updates

/-! ## What is observed -/

/-- The value of the entry that was found. -/
def valueOf (entries : Entries K V) : Option Ptr → Prog (Option V)
  | none => pure none
  | some entry => do
    let e ← entryAt entries entry
    pure (some e.value)

theorem findEntry_value_congr {l} (h : ∀ p ∈ l, es'[p]? = entries[p]?) (key : K) :
    findEntry keys es' key l >>= valueOf es' =
      findEntry keys entries key l >>= valueOf entries := by
  induction l with
  | nil => rfl
  | cons entry l ih =>
    obtain ⟨he, hl⟩ := forall_mem_cons.mp h
    have hat : entryAt es' entry = entryAt entries entry := by rw [entryAt, he, entryAt]
    rw [findEntry, findEntry, bind_assoc, bind_assoc, hat]
    congr 1
    funext e
    split
    · rw [pure_bind, pure_bind, valueOf, valueOf, hat]
    · exact ih hl

theorem get_congr (h : ∀ p ∈ elements m.buckets, es'[p]? = entries[p]?) (key : K) :
    parcHashMapGet keys es' m key = parcHashMapGet keys entries m key := by
  show getEntry keys es' m key >>= valueOf es' = getEntry keys entries m key >>= valueOf entries
  rw [getEntry, getEntry, bind_assoc, bind_assoc]
  by_cases hin : 0 ≤ bucketIndex keys key m.capacity ∧
      bucketIndex keys key m.capacity < m.buckets.length
  · rw [bucketAt, if_pos hin, pure_bind, pure_bind]
    cases hl : m.buckets.getD (bucketIndex keys key m.capacity).toNat none with
    | none => rfl
    | some l =>
      refine findEntry_value_congr (fun p hp => ?_) key
      have hc : p ∈ chain m.buckets (bucketIndex keys key m.capacity).toNat := by
        rw [chain, hl]
        exact hp
      exact h p (mem_elements.mpr ⟨_, hc⟩)
  · rw [bucketAt, if_neg hin]
    rfl

theorem contents_inj {bk : Chains Ptr} (hl : es'.length = entries.length)
    (hli : ∀ p ∈ elements bk, p < entries.length) (h : contents es' bk = contents entries bk) :
    ∀ p ∈ elements bk, es'[p]? = entries[p]? := by
  unfold contents at h
  generalize elements bk = l at h hli
  induction l with
  | nil => exact fun p hp => absurd hp not_mem_nil
  | cons e l ih =>
    obtain ⟨he, hls⟩ := forall_mem_cons.mp hli
    have he' : e < es'.length := hl ▸ he
    rw [filterMap_cons_some (getElem?_eq_getElem he),
      filterMap_cons_some (getElem?_eq_getElem he')] at h
    obtain ⟨hh, ht⟩ := cons.inj h
    refine forall_mem_cons.mpr ⟨?_, ih ht hls⟩
    rw [getElem?_eq_getElem he, getElem?_eq_getElem he', hh]

section
variable {s s' : Maps Side K V} {side : Side} {u : Update K V}

theorem unchanged_of_entries (hm : s'.map side = s.map side)
    (h : ∀ p ∈ elements (s.map side).buckets, s'.entries[p]? = s.entries[p]?) :
    Unchanged keys s s' side := by
  refine ⟨?_, ?_, fun key => ?_⟩
  · rw [hm]
    exact filterMap_congr h
  · rw [hm]
  · rw [hm]
    exact get_congr h key

theorem Side.other_ne (side : Side) : side.other ≠ side := by
  cases side with
  | original | copy => exact Side.noConfusion

/-- **An update is seen through the other map** exactly if it overwrites a value. -/
theorem Maps.Inv.unchanged_iff (h : s.Inv) (hr : s.update keys side u = pure s') :
    Unchanged keys s s' side.other ↔ ¬Overwrites keys s side u := by
  have hm := Maps.update_other hr side.other_ne
  obtain ⟨⟨t, r⟩, hu, heq⟩ := bind_eq_pure.mp hr
  cases heq
  obtain ⟨initial, hl⟩ := h.loaded side
  have hli := h.live side.other
  cases u with
  | put key value =>
    obtain ⟨⟨es', map'⟩, hpu, heq⟩ := bind_eq_pure.mp hu
    cases heq
    replace hpu : parcHashMapPut keys s.entries (s.map side) key value = pure (es', map') := hpu
    obtain ⟨ht, hen, -⟩ | ⟨entry, e, ht, he, hen, -⟩ := put_effect hl hpu
    · refine ⟨fun _ => ?_, fun _ => unchanged_of_entries hm fun p hp => ?_⟩
      · intro ⟨entry, e, hs, _⟩
        cases ht.symm.trans hs
      · rw [hen]
        exact getElem?_append_left (hli p hp)
    · have hlt : entry < s.entries.length := (List.getElem?_eq_some_iff.mp he).1
      have hse : es'[entry]? = some { e with value } := by
        rw [hen]
        exact getElem?_set_self hlt
      constructor
      · intro hsa ⟨e1, e₁, hs, hme, he1, hne⟩
        cases ht.symm.trans hs
        cases he.symm.trans he1
        have hc := hsa.contents
        rw [hm] at hc
        have heq := contents_inj (by rw [hen, length_set]) hli hc entry hme
        rw [hse, he] at heq
        exact hne (congrArg PARCHashMapEntry.value (Option.some.inj heq)).symm
      · intro hsf
        refine unchanged_of_entries hm fun p hp => ?_
        by_cases hp' : p = entry
        · have hv : e.value = value := by
            by_contra hne
            exact hsf ⟨entry, e, ht, hp' ▸ hp, he, hne⟩
          rw [hp', hse, he, ← hv]
        · rw [hen]
          exact getElem?_set_ne (Ne.symm hp')
  | remove key =>
    obtain ⟨⟨map', removed⟩, -, heq⟩ := bind_eq_pure.mp hu
    cases heq
    exact ⟨fun _ => id, fun _ => unchanged_of_entries hm fun _ _ => rfl⟩

theorem Overwrites.returns (h : Overwrites keys s side u) :
    ∃ s', s.update keys side u = pure s' := by
  cases u with
  | put key value =>
    obtain ⟨entry, e, ht, -, he, -⟩ := h
    obtain ⟨m1, hg, hge⟩ := bind_eq_pure.mp ht
    have hp : parcHashMapPut keys s.entries (s.map side) key value =
        pure (s.entries.set entry { e with value }, m1) := by
      refine bind_eq_pure.mpr ⟨m1, hg, ?_⟩
      rw [putEntry, hge, pure_bind]
      exact bind_eq_pure.mpr ⟨e, entryAt_eq_pure.mpr he, rfl⟩
    refine ⟨_, bind_eq_pure.mpr ⟨_, bind_eq_pure.mpr ⟨_, hp, rfl⟩, rfl⟩⟩
  | remove key => exact h.elim

theorem Maps.Inv.independent_iff (h : s.Inv) (updates : List (Side × Update K V)) :
    Independent keys s updates ↔ Safe keys s updates := by
  induction updates generalizing s with
  | nil => exact Iff.rfl
  | cons step updates ih =>
    constructor
    · intro hi
      refine ⟨fun ho => ?_, fun s' hr => (ih (h.update hr)).mp (hi s' hr).2⟩
      obtain ⟨s', hr⟩ := ho.returns
      exact (h.unchanged_iff hr).mp (hi s' hr).1 ho
    · intro ⟨ho, hs⟩ s' hr
      exact ⟨(h.unchanged_iff hr).mpr ho, (ih (h.update hr)).mpr (hs s' hr)⟩

end

/-- A map and its copy. -/
def Maps.pair (s : State K V) (copy : PARCHashMap) : Maps Side K V where
  entries := s.entries
  map
    | .original => s.map
    | .copy => copy

/-- A map and the copy that `parcHashMap_Copy` makes of it, if it returns. -/
def Maps.copied (s : State K V) : Maps Side K V := Maps.pair s { s.map with moved := 0 }

/-- The copy is made with the contents of the original, and no update of one of them is seen
through the other. -/
def IndependentCopy (keys : KeyObject K) (s : State K V) (updates : List (Side × Update K V)) :
    Prop :=
  ∃ copy, parcHashMapCopy s.map = pure copy ∧
    contents s.entries copy.buckets = contents s.entries s.map.buckets ∧
    Independent keys (Maps.pair s copy) updates

theorem Maps.copied_inv {s : State K V} (hl : Loaded initial s.map)
    (hli : Live s.entries s.map) : (Maps.copied s).Inv := by
  have hc : Loaded initial { s.map with moved := 0 } :=
    ⟨hl.initial_pos, hl.minCapacity, hl.length, hl.power, hl.size, hl.upper, hl.lower⟩
  constructor
  · intro side
    cases side with
    | original => exact ⟨initial, hl⟩
    | copy => exact ⟨initial, hc⟩
  · intro side
    cases side with
    | original | copy => exact hli

theorem start_live (cap : UInt32) :
    Live (start cap : State K V).entries (start cap : State K V).map := by
  have he : elements (start cap : State K V).map.buckets = [] := elements_replicate _
  unfold Live
  rw [he]
  exact fun p hp => absurd hp not_mem_nil

/-- **The copy is independent** exactly in the runs that set no value of an entry which both
maps refer to, and for maps of fewer than 2 ^ 32 buckets: the copy of a larger one is never
made. -/
theorem independentCopy_iff (keys : KeyObject K) (capacity : UInt32)
    (history : List (Update K V)) (updates : List (Side × Update K V)) :
    let s := runUpdates keys (start capacity) history
    IndependentCopy keys s updates ↔
      s.map.capacity < 2 ^ 32 ∧ Safe keys (Maps.copied s) updates := by
  intro s
  have hs := start_loaded (K := K) (V := V) capacity
  have hl : Loaded (initialCapacity capacity) s.map := (runUpdates_loaded keys history hs).1
  have hi : (Maps.copied s).Inv :=
    Maps.copied_inv hl (runUpdates_live keys history hs (start_live capacity))
  constructor
  · intro ⟨copy, hc, _, hin⟩
    have hca : s.map.capacity < 2 ^ 32 := by
      by_contra hla
      exact parcHashMapCopy_diverges hl.length (Nat.le_of_not_lt hla) hc
    cases (parcHashMapCopy_eq hl.length hca).symm.trans hc
    exact ⟨hca, (hi.independent_iff updates).mp hin⟩
  · intro ⟨hca, hsa⟩
    exact ⟨_, parcHashMapCopy_eq hl.length hca, rfl, (hi.independent_iff updates).mpr hsa⟩

/-- A value that is put through the copy is found through the original. -/
theorem get_after_put_to_copy : ∃ (s : State Nat String) (copy : PARCHashMap)
    (s' : Maps Side Nat String), runUpdates numberKeys (start 2) [.put 1 "a"] = s ∧
      parcHashMapGet numberKeys s.entries s.map 1 = pure (some "a") ∧
      parcHashMapCopy s.map = pure copy ∧
      (Maps.pair s copy).update numberKeys .copy (.put 1 "b") = pure s' ∧
      parcHashMapGet numberKeys s'.entries (s'.map .original) 1 = pure (some "b") := by
  have hb : bucketIndex numberKeys 1 2 = 1 := by decide
  have hbu : runUpdates numberKeys (start 2) [.put 1 "a"] =
      ⟨[⟨1, "a"⟩], ⟨[none, some [0]], 2, 2, 1, 0⟩⟩ := by decide +kernel
  have hf (value : String) : getEntry numberKeys [⟨1, value⟩] ⟨[none, some [0]], 2, 2, 1, 0⟩ 1 =
      pure (some 0) := by
    rw [getEntry, hb]
    rfl
  have hp : parcHashMapPut numberKeys [⟨1, "a"⟩] ⟨[none, some [0]], 2, 2, 1, 0⟩ 1 "b" =
      pure ([⟨1, "b"⟩], ⟨[none, some [0]], 2, 2, 1, 0⟩) := by
    rw [parcHashMapPut, if_neg (by decide), pure_bind, putEntry, hf]
    rfl
  have hg (value : String) : parcHashMapGet numberKeys [⟨1, value⟩]
      ⟨[none, some [0]], 2, 2, 1, 0⟩ 1 = pure (some value) := by
    rw [parcHashMapGet, hf]
    rfl
  refine ⟨_, _, _, hbu, hg "a", parcHashMapCopy_eq rfl (by decide),
    bind_eq_pure.mpr ⟨_, bind_eq_pure.mpr ⟨_, hp, rfl⟩, rfl⟩, hg "b"⟩

end Libparc.HashMap
