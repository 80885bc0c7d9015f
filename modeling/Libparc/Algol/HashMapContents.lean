import Libparc.Algol.HashMapLoad
import Libparc.Keyed

/-! # The hash map as a finite map

The entries that the buckets refer to are a list of entries with distinct keys,
`contents`. Whatever a call does to the buckets, it permutes that list, puts an
entry in front of it or takes one out: what is found under a key follows. -/
namespace Libparc.HashMap
open Chaining Keyed List Option

variable {K V : Type} {keys : KeyObject K} {es : Entries K V} {m m' : PARCHashMap}
  {key : K} {value : V} {e : PARCHashMapEntry K V} {entry : Ptr}

/-- Key equality is an equivalence, equal keys have equal hash codes, and a copy
of a key is equal to it. -/
structure KeyObject.Consistent (keys : KeyObject K) : Prop where
  equality : Equality keys.equals
  hash : ∀ k k', keys.equals k k' = true → keys.hashCode k = keys.hashCode k'
  copy : ∀ k, keys.equals (keys.copy k) k = true

/-- The entries in the buckets. -/
def contents (entries : Entries K V) (buckets : Chains Ptr) : List (PARCHashMapEntry K V) :=
  (elements buckets).filterMap (entries[·]?)

/-- The finite map that a hash map is. -/
def lookup (keys : KeyObject K) (s : State K V) (k : K) : Option V :=
  (find keys.equals PARCHashMapEntry.key k (contents s.entries s.map.buckets)).map (·.value)

/-- Every entry is there, once and in the bucket of its key, and no two have
equal keys. -/
structure WellFormed (keys : KeyObject K) (entries : Entries K V) (hashMap : PARCHashMap) :
    Prop where
  minCapacity_pos : 0 < hashMap.minCapacity
  minCapacity_le : hashMap.minCapacity ≤ hashMap.capacity
  length : hashMap.buckets.length = hashMap.capacity
  movable : ∀ entry ∈ elements hashMap.buckets, Movable keys entries hashMap.capacity entry
  placed : Placed (home keys entries hashMap.capacity) hashMap.buckets
  nodup : (elements hashMap.buckets).Nodup
  distinct : Distinct keys.equals PARCHashMapEntry.key (contents entries hashMap.buckets)
  size : hashMap.size = (elements hashMap.buckets).length

/-! ## Finding an entry -/

theorem KeyObject.Consistent.bucketIndex_eq (hc : keys.Consistent) {k k'}
    (h : keys.equals k k' = true) (capacity : Nat) :
    bucketIndex keys k capacity = bucketIndex keys k' capacity :=
  congrArg (fun hash : UInt64 => ((hash.toNat % capacity : Nat) : Int).bmod (2 ^ 32))
    (hc.hash k k' h)

/-- The entry has the key. -/
def holds (keys : KeyObject K) (entries : Entries K V) (key : K) (entry : Ptr) : Bool :=
  entries[entry]?.any fun e => keys.equals key e.key

theorem holds_eq (he : es[entry]? = some e) : holds keys es key entry = keys.equals key e.key := by
  rw [holds, he]
  rfl

theorem findEntry_eq {l} (hl : ∀ entry ∈ l, ∃ e, es[entry]? = some e) :
    findEntry keys es key l = pure (l.find? (holds keys es key)) := by
  induction l with
  | nil => rfl
  | cons entry l ih =>
    obtain ⟨⟨e, he⟩, hli⟩ := forall_mem_cons.mp hl
    rw [findEntry, entryAt_eq_pure.mpr he, pure_bind, ih hli, find?_cons, holds_eq he]
    cases keys.equals key e.key <;> rfl

theorem removeFromList_eq {l} (hl : ∀ entry ∈ l, ∃ e, es[entry]? = some e) :
    removeFromList keys es key l =
      pure (if l.any (holds keys es key) then some (l.eraseP (holds keys es key)) else none) := by
  induction l with
  | nil => rfl
  | cons entry l ih =>
    obtain ⟨⟨e, he⟩, hli⟩ := forall_mem_cons.mp hl
    rw [removeFromList, entryAt_eq_pure.mpr he, pure_bind, ih hli, any_cons,
      eraseP_cons, holds_eq he]
    cases keys.equals key e.key with
    | true => rfl
    | false =>
      simp only [Bool.false_eq_true, if_false, pure_bind, Bool.false_or, cond_false]
      split <;> rfl

theorem mem_contents {bk} : e ∈ contents es bk ↔ ∃ entry ∈ elements bk, es[entry]? = some e :=
  mem_filterMap

theorem contents_perm {bk bk'} (h : (elements bk).Perm (elements bk')) :
    (contents es bk).Perm (contents es bk') := h.filterMap _

namespace WellFormed

section
variable (h : WellFormed keys es m)
include h

theorem capacity_pos : 0 < m.capacity :=
  Nat.lt_of_lt_of_le h.minCapacity_pos h.minCapacity_le

theorem live : ∀ entry ∈ elements m.buckets, ∃ e, es[entry]? = some e := by
  intro entry hen
  obtain ⟨e, he, -⟩ := h.movable entry hen
  exact ⟨e, he⟩

theorem live_chain (i : Nat) : ∀ entry ∈ chain m.buckets i, ∃ e, es[entry]? = some e :=
  fun entry he => h.live entry (mem_elements.mpr ⟨i, he⟩)

theorem bucketAt_key (hf : Fits keys key m.capacity) :
    bucketAt m.buckets (bucketIndex keys key m.capacity) =
      pure (m.buckets.getD (bucketIndex keys key m.capacity).toNat none) :=
  bucketAt_eq_pure.mpr ⟨hf, by rw [h.length]; exact bucketIndex_lt keys key h.capacity_pos, rfl⟩

theorem index_lt (hf : Fits keys key m.capacity) :
    (bucketIndex keys key m.capacity).toNat < m.buckets.length := by
  have hlt := bucketIndex_lt keys key h.capacity_pos
  rw [h.length]
  unfold Fits at hf
  omega

end

theorem mem_chain (hc : keys.Consistent) (h : WellFormed keys es m)
    (hen : entry ∈ elements m.buckets) (hh : holds keys es key entry = true) :
    entry ∈ chain m.buckets (bucketIndex keys key m.capacity).toNat := by
  obtain ⟨e, he⟩ := h.live entry hen
  rw [holds_eq he] at hh
  have hho : home keys es m.capacity entry = (bucketIndex keys key m.capacity).toNat := by
    rw [hc.bucketIndex_eq hh]
    simp only [home, he]
  rw [← hho]
  exact h.placed.mem_elements.mp hen

section
variable (h : WellFormed keys es m) (hf : Fits keys key m.capacity)
include h hf

theorem getEntry_eq :
    getEntry keys es m key = pure ((chain m.buckets (bucketIndex keys key m.capacity).toNat).find?
        (holds keys es key)) := by
  have hl := h.live_chain (bucketIndex keys key m.capacity).toNat
  rw [getEntry, h.bucketAt_key hf, pure_bind]
  unfold chain at *
  split
  · rename_i hn
    rw [hn]
    rfl
  · rename_i l hli
    rw [hli] at hl ⊢
    exact findEntry_eq hl

theorem removeEntry_eq :
    removeEntry keys es m key =
      pure (if (chain m.buckets (bucketIndex keys key m.capacity).toNat).any
          (holds keys es key) then
        ({ m with
          buckets := m.buckets.set (bucketIndex keys key m.capacity).toNat
            (some ((chain m.buckets (bucketIndex keys key m.capacity).toNat).eraseP
              (holds keys es key)))
          size := m.size - 1 }, true)
      else (m, false)) := by
  have hl := h.live_chain (bucketIndex keys key m.capacity).toNat
  rw [removeEntry, h.bucketAt_key hf, pure_bind]
  unfold chain at *
  split
  · rename_i hn
    rw [hn]
    rfl
  · rename_i l hli
    rw [hli, getD_some] at hl
    rw [removeFromList_eq hl, hli, getD_some, pure_bind]
    by_cases ha : l.any (holds keys es key) = true
    · rw [if_pos ha, if_pos ha]
    · rw [if_neg ha, if_neg ha]

end

theorem getEntry_cases (hc : keys.Consistent) (h : WellFormed keys es m)
    (hf : Fits keys key m.capacity) :
    (getEntry keys es m key = pure none ∧
      ∀ e ∈ contents es m.buckets, keys.equals key e.key = false) ∨
    ∃ entry e, getEntry keys es m key = pure (some entry) ∧
      entry ∈ elements m.buckets ∧ es[entry]? = some e ∧ keys.equals key e.key = true := by
  rw [h.getEntry_eq hf]
  cases hfi : (chain m.buckets (bucketIndex keys key m.capacity).toNat).find?
      (holds keys es key) with
  | none =>
    refine .inl ⟨rfl, fun e he => ?_⟩
    obtain ⟨entry, hen, hee⟩ := mem_contents.mp he
    rw [← Bool.not_eq_true]
    intro heq
    rw [← holds_eq hee] at heq
    exact find?_eq_none.mp hfi entry (h.mem_chain hc hen heq) heq
  | some entry =>
    have hen := mem_elements.mpr ⟨_, mem_of_find?_eq_some hfi⟩
    obtain ⟨e, he⟩ := h.live entry hen
    have hh := find?_some hfi
    rw [holds_eq he] at hh
    exact .inr ⟨entry, e, rfl, hen, he, hh⟩

end WellFormed

theorem getEntry_faults (h : ¬ Fits keys key m.capacity) :
    getEntry keys es m key = throw .memoryFault := by
  have hf : bucketAt m.buckets (bucketIndex keys key m.capacity) =
      throw .memoryFault := if_neg fun hin => h hin.1
  rw [getEntry, hf]
  rfl

/-! ## Changing the buckets and the entries -/

section
variable {es' : Entries K V} (h : es'[entry]?.map (·.key) = es[entry]?.map (·.key))
include h

theorem home_congr (cap : Nat) : home keys es' cap entry = home keys es cap entry := by
  unfold home
  cases he : es[entry]? with
  | none =>
    rw [he, map_none, map_eq_none_iff] at h
    rw [h]
  | some e =>
    rw [he, map_some] at h
    obtain ⟨e', he', heq⟩ := map_eq_some_iff.mp h
    simp only [he', heq]

theorem movable_congr {cap} (hm : Movable keys es cap entry) : Movable keys es' cap entry := by
  obtain ⟨e, he, hf⟩ := hm
  rw [he, map_some] at h
  obtain ⟨e', he', heq⟩ := map_eq_some_iff.mp h
  exact ⟨e', he', heq ▸ hf⟩

end

namespace WellFormed

variable (hc : keys.Consistent) (h : WellFormed keys es m)
include hc h

theorem rehash (newCapacity : Nat) (hm : m.minCapacity ≤ newCapacity)
    (hmo : ∀ entry ∈ elements m.buckets, Movable keys es newCapacity entry) :
    WellFormed keys es (rehashed keys es m newCapacity) ∧
      (contents es (rehashed keys es m newCapacity).buckets).Perm (contents es m.buckets) := by
  have hca : 0 < newCapacity := Nat.lt_of_lt_of_le h.minCapacity_pos hm
  have hh : ∀ entry ∈ elements m.buckets, home keys es newCapacity entry <
      (replicate newCapacity (none : Option (List Ptr))).length := by
    intro entry he
    rw [length_replicate]
    exact (hmo entry he).home_lt hca
  have hp := elements_rehashed hca hmo
  refine ⟨⟨h.minCapacity_pos, hm, length_rehashed _, ?_, ?_, ?_, ?_, ?_⟩, contents_perm hp⟩
  · exact fun entry he => hmo entry (hp.mem_iff.mp he)
  · exact (placed_replicate _ _).distribute hh
  · exact hp.nodup_iff.mpr h.nodup
  · exact h.distinct.perm hc.equality (contents_perm hp).symm
  · exact h.size.trans hp.length_eq.symm

theorem set_value
    (hen : entry ∈ elements m.buckets) (he : es[entry]? = some e) (value : V) :
    WellFormed keys (es.set entry { e with value }) m ∧
      ∃ rest, (contents es m.buckets).Perm (e :: rest) ∧
        (contents (es.set entry { e with value }) m.buckets).Perm
          ({ e with value } :: rest) := by
  have hlt : entry < es.length := (List.getElem?_eq_some_iff.mp he).1
  have hk : ∀ p : Ptr, (es.set entry { e with value })[p]?.map
      PARCHashMapEntry.key = es[p]?.map PARCHashMapEntry.key := by
    intro p
    rw [getElem?_set]
    by_cases hp : entry = p
    · subst hp
      rw [if_pos rfl, if_pos hlt, he]
      rfl
    · rw [if_neg hp]
  have hpe := perm_cons_erase hen
  have hn : entry ∉ (elements m.buckets).erase entry := h.nodup.not_mem_erase
  have hco : (contents es m.buckets).Perm
      (e :: ((elements m.buckets).erase entry).filterMap (es[·]?)) := by
    refine (hpe.filterMap _).trans ?_
    rw [filterMap_cons_some he]
  have hc' : (contents (es.set entry { e with value }) m.buckets).Perm ({ e with value } ::
        ((elements m.buckets).erase entry).filterMap (es[·]?)) := by
    refine (hpe.filterMap _).trans ?_
    rw [filterMap_cons_some (getElem?_set_self hlt)]
    refine .cons _ (.of_eq (filterMap_congr fun p hp => ?_))
    have hne : entry ≠ p := fun heq => hn (heq ▸ hp)
    exact getElem?_set_ne hne
  refine ⟨⟨h.minCapacity_pos, h.minCapacity_le, h.length, ?_, ?_, h.nodup, ?_, h.size⟩, _, hco, hc'⟩
  · exact fun p hp => movable_congr (hk p) (h.movable p hp)
  · exact h.placed.congr fun p _ => home_congr (hk p) _
  · obtain ⟨hh, ht⟩ := pairwise_cons.mp (h.distinct.perm hc.equality hco)
    refine Distinct.perm hc.equality ?_ hc'.symm
    exact pairwise_cons.mpr ⟨hh, ht⟩

theorem append_entry (value : V)
    (hf : Fits keys key m.capacity)
    (ha : ∀ e ∈ contents es m.buckets, keys.equals key e.key = false) :
    let m' := { m with
      buckets := append m.buckets (bucketIndex keys key m.capacity).toNat es.length
      size := m.size + 1 }
    WellFormed keys (es ++ [⟨keys.copy key, value⟩]) m' ∧
      (contents (es ++ [⟨keys.copy key, value⟩]) m'.buckets).Perm
        (⟨keys.copy key, value⟩ :: contents es m.buckets) := by
  have hco := hc.copy key
  have hi := hc.bucketIndex_eq hco m.capacity
  have hn : (es ++ [⟨keys.copy key, value⟩])[es.length]? =
      some ⟨keys.copy key, value⟩ := getElem?_concat_length
  have hlt : ∀ p ∈ elements m.buckets, p < es.length := by
    intro p hp
    obtain ⟨e, he⟩ := h.live p hp
    exact (List.getElem?_eq_some_iff.mp he).1
  have hold : ∀ p ∈ elements m.buckets, (es ++ [⟨keys.copy key, value⟩])[p]? = es[p]? :=
    fun p hp => getElem?_append_left (hlt p hp)
  have hh : home keys (es ++ [⟨keys.copy key, value⟩]) m.capacity es.length =
      (bucketIndex keys key m.capacity).toNat := by
    simp only [home, hn, hi]
  have hpe := elements_append (h.index_lt hf) es.length
  have hcn : (contents (es ++ [⟨keys.copy key, value⟩]) (append m.buckets
      (bucketIndex keys key m.capacity).toNat es.length)).Perm
        (⟨keys.copy key, value⟩ :: contents es m.buckets) := by
    refine (hpe.filterMap _).trans ?_
    rw [filterMap_cons_some hn]
    exact .cons _ (.of_eq (filterMap_congr hold))
  refine ⟨⟨h.minCapacity_pos, h.minCapacity_le, (length_append _ _ _).trans h.length,
    ?_, ?_, ?_, ?_, ?_⟩, hcn⟩
  · intro p hp
    rcases mem_cons.mp (hpe.mem_iff.mp hp) with rfl | hp
    · exact ⟨_, hn, by unfold Fits at *; rwa [hi]⟩
    · exact movable_congr (by rw [hold p hp]) (h.movable p hp)
  · have hpl : Placed (home keys (es ++ [⟨keys.copy key, value⟩]) m.capacity)
        m.buckets := h.placed.congr fun p hp => home_congr (by rw [hold p hp]) _
    have hap := hpl.append (a := es.length) (by rw [hh]; exact h.index_lt hf)
    rwa [hh] at hap
  · refine hpe.nodup_iff.mpr (nodup_cons.mpr ⟨fun hp => ?_, h.nodup⟩)
    exact Nat.lt_irrefl _ (hlt _ hp)
  · refine Distinct.perm hc.equality (pairwise_cons.mpr ⟨fun e he => ?_, h.distinct⟩) hcn.symm
    rw [hc.equality.congr_left hco]
    exact ha e he
  · rw [hpe.length_eq, length_cons, h.size]

theorem erase_entry
    {i} (hi : i < m.buckets.length) {before after}
    (hch : chain m.buckets i = before ++ entry :: after) (he : es[entry]? = some e) :
    let m' := { m with
      buckets := m.buckets.set i (some (before ++ after)), size := m.size - 1 }
    WellFormed keys es m' ∧ (contents es m.buckets).Perm (e :: contents es m'.buckets) := by
  have hpe := elements_set_erase hi hch
  have hco := hpe.filterMap (es[·]?)
  rw [filterMap_cons_some he] at hco
  refine ⟨⟨h.minCapacity_pos, h.minCapacity_le, length_set.trans h.length, ?_, ?_, ?_, ?_, ?_⟩, hco⟩
  · exact fun p hp => h.movable p (hpe.mem_iff.mpr (.tail _ hp))
  · refine h.placed.set hi fun p hp => h.placed i p ?_
    rw [hch]
    exact ((sublist_cons_self entry after).append_left before).subset hp
  · exact (nodup_cons.mp (hpe.nodup_iff.mp h.nodup)).2
  · exact (pairwise_cons.mp (h.distinct.perm hc.equality hco)).2
  · rw [h.size, hpe.length_eq, length_cons, Nat.add_sub_cancel]

end WellFormed

/-! ## What is found afterwards -/

variable {s s' : State K V} {rest : List (PARCHashMapEntry K V)}

theorem lookup_eq_none (ha : ∀ e ∈ contents s.entries s.map.buckets,
    keys.equals key e.key = false) : lookup keys s key = none := by
  rw [lookup, find_eq_none.mpr ha]
  rfl

variable (hc : keys.Consistent) (h : WellFormed keys s.entries s.map)
include hc h

theorem lookup_eq_some (he : e ∈ contents s.entries s.map.buckets)
    (heq : keys.equals key e.key = true) : lookup keys s key = some e.value := by
  rw [lookup, (h.distinct.find_eq_some hc.equality).mpr ⟨he, heq⟩]
  rfl

theorem lookup_perm (hp : (contents s'.entries s'.map.buckets).Perm
    (contents s.entries s.map.buckets)) : lookup keys s' = lookup keys s := by
  funext k
  rw [lookup, lookup, h.distinct.find_perm hc.equality hp.symm]

theorem lookup_cons (hp : (contents s.entries s.map.buckets).Perm (e :: rest)) (k : K) :
    lookup keys s k = if keys.equals k e.key then some e.value
      else (find keys.equals PARCHashMapEntry.key k rest).map (·.value) := by
  rw [lookup, ← h.distinct.find_perm hc.equality hp, find_cons]
  split <;> rfl

end Libparc.HashMap
