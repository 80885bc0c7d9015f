import Libparc.Algol.HashMapCopy

/-! # Equality and hash codes of hash maps

`parcHashMap_Equals` compares two maps bucket by bucket. What it compares of two
buckets is whether they are there and how long they are: the `break` of
`parcLinkedList_SetEquals` leaves the inner loop only, and nothing records that an
object was not found. So the answer depends on the capacities, the sizes and the
buckets, which maps of the same contents need not have in common.

The hash code of a map is the sum of those of its keys: the same for maps of the same
contents, however they were built. -/
namespace Libparc.HashMap
open Chaining Keyed Exec List Bool

variable {ι K V : Type} {keys : KeyObject K} {values : V → V → Bool}
  {entries es' : Entries K V} {m x y : PARCHashMap}

section
variable (keys : KeyObject K) (values : V → V → Bool) (entries : Entries K V)

/-- `parcObject_Equals` of two entries, with `_parcHashMapEntry_Equals`. -/
def entryEquals (x y : Ptr) : Prog Bool :=
  if x = y then pure true
  else do
    let a ← entryAt entries x
    let b ← entryAt entries y
    pure (keys.equals a.key b.key && values a.value b.value)

/-- The inner loop of `parcLinkedList_SetEquals`, which the `break` leaves. -/
def compareWith (xObject : Ptr) : List Ptr → Prog Unit
  | [] => pure ()
  | yObject :: y => do
    if ← entryEquals keys values entries xObject yObject then compareWith xObject y
    else pure ()

/-- The loops go through the indices of both lists, which are as long as each other. -/
def parcLinkedListSetEquals (x y : List Ptr) : Prog Bool :=
  if x.length = y.length then do
    x.forM fun xObject => compareWith keys values entries xObject y
    pure true
  else pure false

/-- A turn of the loop of `parcHashMap_Equals`. -/
def bucketEquals (x y : PARCHashMap) (i : Nat) : Prog Bool := do
  match ← bucketAt x.buckets i, ← bucketAt y.buckets i with
  | some xList, some yList => parcLinkedListSetEquals keys values entries xList yList
  | none, none => pure true
  | _, _ => pure false

/-- The maps are given by their addresses, `none` for NULL. -/
def parcHashMapEquals [DecidableEq ι] (maps : ι → PARCHashMap) (x y : Option ι) : Prog Bool :=
  if x = y then pure true
  else
    match x, y with
    | some x, some y =>
      if (maps x).capacity = (maps y).capacity then
        if (maps x).size = (maps y).size then
          Exec.counted (maps x).capacity (!·)
            (fun i _ => bucketEquals keys values entries (maps x) (maps y) i) true
        else pure false
      else pure false
    | _, _ => pure false

/-- `_parcHashMapEntry_HashCode` is that of the key. -/
def parcLinkedListHashCode (list : List Ptr) : Prog UInt64 :=
  list.foldlM (fun result entry => do
    let e ← entryAt entries entry
    pure (result + keys.hashCode e.key)) 0

def hashBucket (hashMap : PARCHashMap) (i : Nat) (result : UInt64) : Prog UInt64 := do
  match ← bucketAt hashMap.buckets i with
  | some list => do
    let hash ← parcLinkedListHashCode keys entries list
    pure (result + hash)
  | none => pure result

def parcHashMapHashCode (hashMap : PARCHashMap) : Prog UInt64 :=
  Exec.counted hashMap.capacity (fun _ => false) (hashBucket keys entries hashMap) 0

end

/-! ## What is compared -/

theorem Live.entryAt_returns (h : Live entries m) {p}
    (hp : p ∈ elements m.buckets) : ∃ e, entryAt entries p = pure e :=
  ⟨_, entryAt_eq_pure.mpr (getElem?_eq_getElem (h p hp))⟩

theorem compareWith_eq {xObject} (hx : ∃ e, entryAt entries xObject = pure e)
    {l} (hl : ∀ p ∈ l, ∃ e, entryAt entries p = pure e) :
    compareWith keys values entries xObject l = pure () := by
  induction l with
  | nil => rfl
  | cons yObject l ih =>
    obtain ⟨hy, hl⟩ := forall_mem_cons.mp hl
    obtain ⟨result, hr⟩ : ∃ result, entryEquals keys values entries xObject yObject =
        pure result := by
      unfold entryEquals
      split
      · exact ⟨true, rfl⟩
      · obtain ⟨a, ha⟩ := hx
        obtain ⟨b, hb⟩ := hy
        rw [ha, hb]
        exact ⟨_, rfl⟩
    rw [compareWith, hr, pure_bind]
    cases result with
    | true => exact ih hl
    | false => rfl

theorem parcLinkedListSetEquals_eq {xList yList} (hx : ∀ p ∈ xList, ∃ e, entryAt entries p = pure e)
    (hy : ∀ p ∈ yList, ∃ e, entryAt entries p = pure e) :
    parcLinkedListSetEquals keys values entries xList yList =
      pure (xList.length == yList.length) := by
  have hl : (xList.forM fun xObject => compareWith keys values entries xObject yList) =
      pure () := by
    induction xList with
    | nil => rfl
    | cons xObject xList ih =>
      obtain ⟨hxo, hxl⟩ := forall_mem_cons.mp hx
      rw [forM_eq_forM, forM_cons, compareWith_eq hxo hy, pure_bind]
      exact ih hxl
  unfold parcLinkedListSetEquals
  split
  · rename_i hle
    rw [hl, beq_iff_eq.mpr hle]
    rfl
  · rename_i hle
    rw [beq_eq_false_iff_ne.mpr hle]

/-- Both buckets are absent, or they are there and of one length. -/
def alike (x y : PARCHashMap) (i : Nat) : Bool :=
  match x.buckets.getD i none, y.buckets.getD i none with
  | some xList, some yList => xList.length == yList.length
  | none, none => true
  | _, _ => false

variable {i : Nat}

theorem alike_iff : alike x y i = true ↔
    (x.buckets.getD i none).isSome = (y.buckets.getD i none).isSome ∧
      (chain x.buckets i).length = (chain y.buckets i).length := by
  unfold alike chain
  cases x.buckets.getD i none with
  | none =>
    cases y.buckets.getD i none with
    | none => exact iff_of_true rfl ⟨rfl, rfl⟩
    | some yList => exact iff_of_false false_ne_true fun h => false_ne_true h.1
  | some xList =>
    cases y.buckets.getD i none with
    | none => exact iff_of_false false_ne_true fun h => false_ne_true h.1.symm
    | some yList => exact beq_iff_eq.trans ⟨fun h => ⟨rfl, h⟩, fun h => h.2⟩

theorem bucketEquals_eq (hx : Live entries x) (hy : Live entries y) (hix : i < x.buckets.length)
    (hiy : i < y.buckets.length) : bucketEquals keys values entries x y i = pure (alike x y i) := by
  have hlive {m : PARCHashMap} (h : Live entries m) {l : List Ptr}
      (hl : m.buckets.getD i none = some l) :
      ∀ p ∈ l, ∃ e, entryAt entries p = pure e := by
    intro p hp
    refine h.entryAt_returns (mem_elements.mpr ⟨i, ?_⟩)
    rw [chain, hl]
    exact hp
  rw [bucketEquals, bucketAt_natCast hix, bucketAt_natCast hiy, pure_bind, pure_bind, alike]
  cases hxl : x.buckets.getD i none with
  | none =>
    cases y.buckets.getD i none with
    | none => rfl
    | some yList => rfl
  | some xList =>
    cases hyl : y.buckets.getD i none with
    | none => rfl
    | some yList => exact parcLinkedListSetEquals_eq (hlive hx hxl) (hlive hy hyl)

/-- The capacities and the sizes are the same, and the buckets are alike. -/
def Agree (x y : PARCHashMap) : Prop :=
  x.capacity = y.capacity ∧ x.size = y.size ∧ ∀ i < x.capacity, alike x y i = true

/-- There is a difference that `parcHashMap_Equals` comes to. -/
def Differ (x y : PARCHashMap) : Prop :=
  x.capacity ≠ y.capacity ∨ x.size ≠ y.size ∨
    ∃ i < x.capacity, i < 2 ^ 32 ∧ alike x y i = false

section
variable [DecidableEq ι] {maps : ι → PARCHashMap} {a b : ι} (hne : a ≠ b)
  (hli : ∀ i, Live entries (maps i))
  (hle : ∀ i, (maps i).buckets.length = (maps i).capacity)
include hne hli hle

theorem parcHashMapEquals_true (h : Agree (maps a) (maps b)) (hca : (maps a).capacity < 2 ^ 32) :
    parcHashMapEquals keys values entries maps (some a) (some b) = pure true := by
  obtain ⟨hcp, hsi, ha⟩ := h
  have hso : some a ≠ some b := fun heq => hne (Option.some.inj heq)
  rw [parcHashMapEquals, if_neg hso]
  simp only [if_pos hcp, if_pos hsi]
  refine counted_all (fun i hi _ => ?_) hca ha
  exact bucketEquals_eq (hli a) (hli b) (by rwa [hle]) (by rwa [hle, ← hcp])

theorem parcHashMapEquals_false (h : Differ (maps a) (maps b)) :
    parcHashMapEquals keys values entries maps (some a) (some b) = pure false := by
  have hso : some a ≠ some b := fun heq => hne (Option.some.inj heq)
  rw [parcHashMapEquals, if_neg hso]
  by_cases hca : (maps a).capacity = (maps b).capacity
  · rw [if_pos hca]
    by_cases hsi : (maps a).size = (maps b).size
    · rw [if_pos hsi]
      obtain ⟨i, hi, hsm, ha⟩ := (h.resolve_left (absurd hca)).resolve_left (absurd hsi)
      refine counted_fails (fun i hi _ => ?_) hi hsm ha
      exact bucketEquals_eq (hli a) (hli b) (by rwa [hle]) (by rwa [hle, ← hca])
    · rw [if_neg hsi]
  · rw [if_neg hca]

theorem parcHashMapEquals_answer {r}
    (h : parcHashMapEquals keys values entries maps (some a) (some b) = pure r) :
    r = true ∧ Agree (maps a) (maps b) ∧ (maps a).capacity < 2 ^ 32 ∨
      r = false ∧ Differ (maps a) (maps b) := by
  by_cases hd : Differ (maps a) (maps b)
  · have hf := h.symm.trans (parcHashMapEquals_false hne hli hle hd)
    exact .inr ⟨pure_inj.mp hf, hd⟩
  have hca : (maps a).capacity = (maps b).capacity := by
    by_contra hca
    exact hd (.inl hca)
  have hsi : (maps a).size = (maps b).size := by
    by_contra hsi
    exact hd (.inr (.inl hsi))
  have ha : ∀ i < (maps a).capacity, i < 2 ^ 32 → alike (maps a) (maps b) i = true := by
    intro i hi hsm
    exact eq_true_of_ne_false fun hf => hd (.inr (.inr ⟨i, hi, hsm, hf⟩))
  by_cases hcp : (maps a).capacity < 2 ^ 32
  · have hag : Agree (maps a) (maps b) := ⟨hca, hsi, fun i hi => ha i hi (Nat.lt_trans hi hcp)⟩
    have htr := h.symm.trans (parcHashMapEquals_true hne hli hle hag hcp)
    exact .inl ⟨pure_inj.mp htr, hag, hcp⟩
  have hl := Nat.le_of_not_lt hcp
  have hso : some a ≠ some b := fun heq => hne (Option.some.inj heq)
  rw [parcHashMapEquals, if_neg hso] at h
  simp only [if_pos hca, if_pos hsi] at h
  refine absurd ⟨r, h⟩ (Exec.counted_all_diverges (fun i hi _ => ?_) hl
    fun i hi => ha i (Nat.lt_of_lt_of_le hi hl) hi)
  exact bucketEquals_eq (hli a) (hli b) (by rwa [hle]) (by rwa [hle, ← hca])

end

/-! ## Hash codes -/

def total (hashes : List UInt64) : UInt64 := hashes.foldr (· + ·) 0

theorem total_append (hashes hashes' : List UInt64) :
    total (hashes ++ hashes') = total hashes + total hashes' := by
  induction hashes with
  | nil => exact (UInt64.zero_add _).symm
  | cons hash hashes ih =>
    show hash + total (hashes ++ hashes') = hash + total hashes + total hashes'
    rw [ih, UInt64.add_assoc]

theorem total_perm {hashes hashes'} (h : hashes.Perm hashes') : total hashes = total hashes' := by
  exact h.foldr_eq 0

/-- The hash codes of the keys of some entries. -/
def hashes (keys : KeyObject K) (list : List (PARCHashMapEntry K V)) : List UInt64 :=
  list.map fun e => keys.hashCode e.key

theorem parcLinkedListHashCode_eq {l : List Ptr} (hl : ∀ p ∈ l, p < entries.length) :
    parcLinkedListHashCode keys entries l =
      pure (total (hashes keys (l.filterMap (entries[·]?)))) := by
  have hf (r : UInt64) : l.foldlM (fun r entry => do
      let e ← entryAt entries entry
      pure (r + keys.hashCode e.key)) r =
        (pure (r + total (hashes keys (l.filterMap (entries[·]?)))) : Prog UInt64) := by
    induction l generalizing r with
    | nil => rw [foldlM_nil]; exact congrArg pure (UInt64.add_zero _).symm
    | cons entry l ih =>
      obtain ⟨he, hl⟩ := forall_mem_cons.mp hl
      have hg := getElem?_eq_getElem he
      rw [foldlM_cons, entryAt_eq_pure.mpr hg, pure_bind, pure_bind, ih hl,
        filterMap_cons_some hg, UInt64.add_assoc]
      rfl
  rw [parcLinkedListHashCode, hf, UInt64.zero_add]

theorem hashBucket_eq (h : Live entries m) (hi : i < m.buckets.length) (r : UInt64) :
    hashBucket keys entries m i r =
      pure (r + total (hashes keys ((chain m.buckets i).filterMap (entries[·]?)))) := by
  have hlive : ∀ p ∈ chain m.buckets i, p < entries.length :=
    fun p hp => h p (mem_elements.mpr ⟨i, hp⟩)
  rw [hashBucket, bucketAt_natCast hi, pure_bind]
  unfold chain at *
  cases hl : m.buckets.getD i none with
  | none => exact congrArg pure (UInt64.add_zero _).symm
  | some l =>
    rw [hl] at hlive
    exact bind_eq_pure.mpr ⟨_, parcLinkedListHashCode_eq hlive, rfl⟩

section
variable (hln : m.buckets.length = m.capacity) (hlv : Live entries m)
include hln hlv

theorem parcHashMapHashCode_eq (keys : KeyObject K) (hca : m.capacity < 2 ^ 32) :
    parcHashMapHashCode keys entries m =
      pure (total (hashes keys (contents entries m.buckets))) := by
  have hl : ∃ r, parcHashMapHashCode keys entries m = pure r ∧ ∃ i ≤ m.capacity,
        r = total (hashes keys (contents entries (m.buckets.take i))) ∧
        (m.capacity ≤ i ∨ false = true) := by
    refine counted_returns
      (fun i r => r = total (hashes keys (contents entries (m.buckets.take i))))
      (Nat.le_of_lt hca) ?_ (fun _ _ => .inl (Nat.le_of_eq (Nat.mod_eq_of_lt hca).symm)) rfl
    intro i hi r hr _ _
    refine ⟨_, hashBucket_eq hlv (by rwa [hln]) r, ?_⟩
    rw [hr, contents, contents, elements_take_succ (by rwa [hln]), filterMap_append,
      hashes, hashes, hashes, map_append, total_append]
  obtain ⟨r, hlo, i, hi, hr, he⟩ := hl
  have hi' : i = m.capacity := Nat.le_antisymm hi (he.resolve_right false_ne_true)
  rw [hlo, hr, hi', ← hln, take_length]

theorem parcHashMapHashCode_small {hash}
    (h : parcHashMapHashCode keys entries m = pure hash) : m.capacity < 2 ^ 32 := by
  by_contra hl
  have hl := Nat.le_of_not_lt hl
  refine counted_diverges (fun _ => True) hl (fun i hi r _ => ?_) trivial ⟨hash, h⟩
  exact ⟨rfl, _, hashBucket_eq hlv (by rw [hln]; exact Nat.lt_of_lt_of_le hi hl) r, trivial⟩

end

/-! ## Maps of the same contents -/

/-- The maps have the same keys, with equal values. -/
def SameContents (keys : KeyObject K) (values : V → V → Bool) (s t : State K V) : Prop :=
  ∀ k, Option.Rel (fun v w => values v w = true) (lookup keys s k) (lookup keys t k)

/-- The capacities are the same, and the same buckets are there. -/
def SameShape (x y : PARCHashMap) : Prop :=
  x.capacity = y.capacity ∧
    ∀ i < x.capacity, (x.buckets.getD i none).isSome = (y.buckets.getD i none).isSome

section
variable {s t : State K V} (hc : keys.Consistent) (hs : WellFormed keys s.entries s.map)
  (ht : WellFormed keys t.entries t.map) (h : SameContents keys values s t)
include hc hs ht h

theorem SameContents.map_perm {β : Type} {f : K → β}
    (hf : ∀ k k', keys.equals k k' = true → f k = f k') :
    ((contents s.entries s.map.buckets).map fun e => f e.key).Perm
      ((contents t.entries t.map.buckets).map fun e => f e.key) := by
  refine hs.distinct.map_perm hc.equality ht.distinct (fun k => ?_) hf
  have hk := h k
  unfold lookup at hk
  cases hfo : find keys.equals PARCHashMapEntry.key k (contents s.entries s.map.buckets) with
  | none =>
    cases hf' : find keys.equals PARCHashMapEntry.key k (contents t.entries t.map.buckets) with
    | none => rfl
    | some e =>
      rw [hfo, hf'] at hk
      cases hk
  | some e =>
    cases hf' : find keys.equals PARCHashMapEntry.key k (contents t.entries t.map.buckets) with
    | none =>
      rw [hfo, hf'] at hk
      cases hk
    | some e' => rfl

/-- **Maps of the same contents have the same sum of hash codes**, whatever their buckets. -/
theorem SameContents.total_eq :
    total (hashes keys (contents s.entries s.map.buckets)) =
      total (hashes keys (contents t.entries t.map.buckets)) :=
  total_perm (h.map_perm hc hs ht hc.hash)

omit hc hs ht h in
theorem WellFormed.length_contents (hs : WellFormed keys s.entries s.map) :
    (contents s.entries s.map.buckets).length = s.map.size := by
  rw [hs.size, contents, length_filterMap_eq_countP, countP_eq_length]
  intro entry hen
  obtain ⟨e, he⟩ := hs.live entry hen
  rw [he]
  rfl

theorem SameContents.size_eq : s.map.size = t.map.size := by
  have hl := (h.map_perm hc hs ht (f := fun _ => ()) fun _ _ _ => rfl).length_eq
  rwa [length_map, length_map, hs.length_contents, ht.length_contents] at hl

omit hc hs ht h in
theorem home_eq {e p} (he : entries[p]? = some e) (capacity : Nat) :
    home keys entries capacity p = (bucketIndex keys e.key capacity).toNat := by
  simp only [home, he]

omit hc hs ht h in
theorem WellFormed.length_chain (hs : WellFormed keys s.entries s.map) (hi : i < s.map.capacity) :
    (chain s.map.buckets i).length = ((contents s.entries s.map.buckets).map fun e =>
        (bucketIndex keys e.key s.map.capacity).toNat).countP (· == i) := by
  rw [hs.placed.length_chain (by rwa [hs.length]), contents, map_filterMap, countP_filterMap]
  refine countP_congr fun p hp => ?_
  obtain ⟨e, he⟩ := hs.live p hp
  rw [he, home_eq he, Option.map_some, Option.map_some, Option.getD_some]

theorem SameContents.length_chain (hca : s.map.capacity = t.map.capacity)
    (hi : i < s.map.capacity) :
    (chain s.map.buckets i).length = (chain t.map.buckets i).length := by
  rw [hs.length_chain hi, ht.length_chain (by rwa [← hca]), ← hca]
  have hp := h.map_perm hc hs ht (f := fun k => (bucketIndex keys k s.map.capacity).toNat)
    fun k k' hk => congrArg Int.toNat (hc.bucketIndex_eq hk _)
  exact hp.countP_eq _

theorem SameContents.agree (hsh : SameShape s.map t.map) : Agree s.map t.map := by
  obtain ⟨hca, hb⟩ := hsh
  refine ⟨hca, h.size_eq hc hs ht, fun i hi => ?_⟩
  exact alike_iff.mpr ⟨hb i hi, h.length_chain hc hs ht hca hi⟩

end

theorem Agree.sameShape (h : Agree x y) : SameShape x y :=
  ⟨h.1, fun i hi => (alike_iff.mp (h.2.2 i hi)).1⟩

/-! ## Maps with entries of their own -/

theorem findEntry_mem {key list entry}
    (h : findEntry keys entries key list = pure (some entry)) : entry ∈ list := by
  induction list with
  | nil => cases h
  | cons head list ih =>
    obtain ⟨e, -, hr⟩ := bind_eq_pure.mp h
    split at hr
    · cases hr
      exact (.head _)
    · exact .tail _ (ih hr)

theorem putTarget_mem {init} (h : Loaded init m) {key e}
    (hta : putTarget keys entries m key = pure (some e)) : e ∈ elements m.buckets := by
  obtain ⟨m1, hg, hge⟩ := bind_eq_pure.mp hta
  refine (resize_keeps hg h.length h.minCapacity_pos).1.mem_iff.mp ?_
  obtain ⟨list, hb, hr⟩ := bind_eq_pure.mp hge
  obtain ⟨-, -, hl⟩ := bucketAt_eq_pure.mp hb
  cases list with
  | none => cases hr
  | some list =>
    have hch : chain m1.buckets (bucketIndex keys key m1.capacity).toNat = list := by
      rw [chain, ← hl]
      rfl
    exact mem_elements.mpr ⟨_, hch ▸ findEntry_mem hr⟩

theorem Update.run_effect {init s s' r}
    (u : Update K V) (h : Loaded init s.map) (hr : u.run keys s = pure (s', r)) :
    (∀ p < s.entries.length, p ∉ elements s.map.buckets → s'.entries[p]? = s.entries[p]?) ∧
      ∀ p ∈ elements s'.map.buckets, p < s.entries.length → p ∈ elements s.map.buckets := by
  cases u with
  | put key v =>
    obtain ⟨⟨es', map'⟩, hpu, heq⟩ := bind_eq_pure.mp hr
    cases heq
    obtain ⟨-, he, hpe, -⟩ | ⟨entry, e, hta, -, he, hpe, -⟩ := put_effect h hpu
    · subst he
      refine ⟨fun p hp _ => getElem?_append_left hp, fun p hp hlt => ?_⟩
      exact (mem_cons.mp (hpe.mem_iff.mp hp)).resolve_left (Nat.ne_of_lt hlt)
    · subst he
      refine ⟨fun p _ hp => ?_, fun p hp _ => hpe.mem_iff.mp hp⟩
      have hne : entry ≠ p := fun heq => hp (heq ▸ putTarget_mem h hta)
      exact getElem?_set_ne hne
  | remove key =>
    obtain ⟨⟨map', removed⟩, hre, heq⟩ := bind_eq_pure.mp hr
    cases heq
    exact ⟨fun _ _ _ => rfl, fun p hp _ => (remove_effect h hre).1 hp⟩

theorem Update.run_wellFormed (hc : keys.Consistent) {s s' r}
    (u : Update K V) (h : WellFormed keys s.entries s.map)
    (hr : u.run keys s = pure (s', r)) : WellFormed keys s'.entries s'.map := by
  have hca : (Call.update u).run keys s = pure (s', .updated r) := bind_eq_pure.mpr ⟨_, hr, rfl⟩
  obtain ⟨s1, r1, hr1, -, -, hwf⟩ :=
    (Call.update u).conforms hc h ((Call.update u).fits_of_run hc h hca)
  cases hca.symm.trans hr1
  exact hwf

theorem WellFormed.congr (h : WellFormed keys entries m)
    (heq : ∀ p ∈ elements m.buckets, es'[p]? = entries[p]?) :
    WellFormed keys es' m where
  minCapacity_pos := h.minCapacity_pos
  minCapacity_le := h.minCapacity_le
  length := h.length
  movable p hp := movable_congr (congrArg _ (heq p hp)) (h.movable p hp)
  placed := h.placed.congr fun p hp => home_congr (congrArg _ (heq p hp)) _
  nodup := h.nodup
  distinct := by
    have hco : contents es' m.buckets = contents entries m.buckets := filterMap_congr heq
    rw [hco]
    exact h.distinct
  size := h.size

/-- Each map is well formed, and no two refer to the same entry. -/
structure Maps.Separate (keys : KeyObject K) (s : Maps ι K V) : Prop where
  inv : s.Inv
  wellFormed : ∀ i, WellFormed keys s.entries (s.map i)
  disjoint : ∀ i j, i ≠ j → ∀ p ∈ elements (s.map i).buckets, p ∉ elements (s.map j).buckets

section
variable [DecidableEq ι] {s s' : Maps ι K V} {i : ι} {u : Update K V}

theorem Maps.Separate.update (hc : keys.Consistent) (h : s.Separate keys)
    (hr : s.update keys i u = pure s') : s'.Separate keys := by
  obtain ⟨r, hu⟩ := update_self hr
  obtain ⟨init, hl⟩ := h.inv.loaded i
  obtain ⟨hsa, hm⟩ := u.run_effect hl hu
  refine ⟨h.inv.update hr, fun j => ?_, ?_⟩
  · by_cases hj : j = i
    · subst hj
      exact u.run_wellFormed hc (h.wellFormed j) hu
    · rw [update_other hr hj]
      refine (h.wellFormed j).congr fun p hp => ?_
      exact hsa p (h.inv.live j p hp) (h.disjoint j i hj p hp)
  · -- what the changed map refers to now, no other map referred to before
    have ho : ∀ j, j ≠ i → ∀ p ∈ elements (s.map j).buckets, p ∉ elements (s'.map i).buckets :=
      fun j hj p hp hp' => h.disjoint j i hj p hp (hm p hp' (h.inv.live j p hp))
    intro j k hjk p hp hp'
    by_cases hj : j = i
    · subst hj
      rw [update_other hr (Ne.symm hjk)] at hp'
      exact ho k (Ne.symm hjk) p hp' hp
    · rw [update_other hr hj] at hp
      by_cases hk : k = i
      · subst hk
        exact ho j hj p hp hp'
      · rw [update_other hr hk] at hp'
        exact h.disjoint j k hjk p hp hp'

/-- New maps. -/
def Maps.create (capacities : ι → UInt32) : Maps ι K V :=
  ⟨[], fun i => parcHashMapCreateCapacity (capacities i)⟩

/-- The state after the updates, or after those before the first one that does
not return. -/
def Maps.runUpdates (keys : KeyObject K) : Maps ι K V → List (ι × Update K V) → Maps ι K V
  | s, [] => s
  | s, (i, u) :: updates =>
    match (s.update keys i u).run with
    | some (.ok s') => runUpdates keys s' updates
    | _ => s

omit [DecidableEq ι] in
theorem Maps.create_separate (keys : KeyObject K) (capacities : ι → UInt32) :
    (create capacities : Maps ι K V).Separate keys where
  inv := ⟨fun i => ⟨_, start_loaded (K := K) (V := V) (capacities i)⟩,
    fun i => start_live (capacities i)⟩
  wellFormed i := start_wellFormed keys (capacities i)
  disjoint i j _ p hp := by
    have he : elements ((create capacities : Maps ι K V).map i).buckets = [] := elements_replicate _
    rw [he] at hp
    exact absurd hp not_mem_nil

theorem Maps.runUpdates_separate (hc : keys.Consistent) (us : List (ι × Update K V))
    (h : s.Separate keys) : (runUpdates keys s us).Separate keys := by
  induction us generalizing s with
  | nil => exact h
  | cons step us ih =>
    unfold Maps.runUpdates
    split
    · exact ih (h.update hc ‹_›)
    · exact h

end

/-! ## The answers of `parcHashMap_Equals` -/

/-- `parcHashMap_Equals` returns true exactly if the maps have the same contents, and if it
does, their hash codes are the same. -/
def EqualsRight [DecidableEq ι] (keys : KeyObject K) (values : V → V → Bool) (s : Maps ι K V)
    (x y : ι) : Prop :=
  ∃ result, parcHashMapEquals keys values s.entries s.map (some x) (some y) = pure result ∧
    (result = true ↔ SameContents keys values (s.state x) (s.state y)) ∧
    (result = true → ∃ hash, parcHashMapHashCode keys s.entries (s.map x) = pure hash ∧
      parcHashMapHashCode keys s.entries (s.map y) = pure hash)

theorem sameContents_self (hv : Equality values) (s : State K V) :
    SameContents keys values s s := by
  intro k
  cases lookup keys s k with
  | none => exact .none
  | some v => exact .some (hv.refl v)

/-- **When `parcHashMap_Equals` is right** about two maps, built by any updates from any
capacities: if they have the same contents, they must have the same capacity, below 2 ^ 32,
and the same buckets in use; if not, they must differ in something that it compares. -/
theorem equalsRight_iff [DecidableEq ι] (hc : keys.Consistent) (hv : Equality values)
    (capacities : ι → UInt32) (history : List (ι × Update K V)) (x y : ι) :
    let s := Maps.runUpdates keys (Maps.create capacities) history
    EqualsRight keys values s x y ↔ (SameContents keys values (s.state x) (s.state y) →
        SameShape (s.map x) (s.map y) ∧ (s.map x).capacity < 2 ^ 32) ∧
      (¬SameContents keys values (s.state x) (s.state y) → Differ (s.map x) (s.map y)) := by
  intro s
  have h : s.Separate keys := Maps.runUpdates_separate hc history (Maps.create_separate _ _)
  have hlive := h.inv.live
  have hlen : ∀ i, (s.map i).buckets.length = (s.map i).capacity := fun i => (h.wellFormed i).length
  have hwx : WellFormed keys (s.state x).entries (s.state x).map := h.wellFormed x
  have hwy : WellFormed keys (s.state y).entries (s.state y).map := h.wellFormed y
  constructor
  · intro ⟨r, he, hr, hh⟩
    constructor
    · intro hsa
      obtain ⟨hash, hashx, -⟩ := hh (hr.mpr hsa)
      refine ⟨?_, parcHashMapHashCode_small (hlen x) (hlive x) hashx⟩
      by_cases hne : x = y
      · subst hne
        exact ⟨rfl, fun _ _ => rfl⟩
      · obtain ⟨-, ha, -⟩ | ⟨hf, -⟩ := parcHashMapEquals_answer hne hlive hlen he
        · exact ha.sameShape
        · exact absurd (hr.mpr hsa) (hf ▸ Bool.false_ne_true)
    · intro ho
      have hne : x ≠ y := by
        intro hxy
        subst hxy
        exact ho (sameContents_self hv _)
      obtain ⟨htr, -⟩ | ⟨-, hd⟩ := parcHashMapEquals_answer hne hlive hlen he
      · exact absurd (hr.mp htr) ho
      · exact hd
  · intro ⟨hsa, ho⟩
    by_cases hco : SameContents keys values (s.state x) (s.state y)
    · obtain ⟨hsh, hca⟩ := hsa hco
      have he : parcHashMapEquals keys values s.entries s.map (some x) (some y) = pure true := by
        by_cases hne : x = y
        · rw [parcHashMapEquals, if_pos (congrArg some hne)]
        · exact parcHashMapEquals_true hne hlive hlen (hco.agree hc hwx hwy hsh) hca
      have hashx := parcHashMapHashCode_eq (hlen x) (hlive x) keys hca
      have hashy := parcHashMapHashCode_eq (hlen y) (hlive y) keys (hsh.1 ▸ hca)
      have hto := hco.total_eq hc hwx hwy
      exact ⟨true, he, iff_of_true rfl hco,
        fun _ => ⟨_, hashx, hashy.trans (congrArg pure hto.symm)⟩⟩
    · have hne : x ≠ y := by
        intro hxy
        subst hxy
        exact hco (sameContents_self hv _)
      refine ⟨false, parcHashMapEquals_false hne hlive hlen (ho hco), ?_, ?_⟩
      · exact iff_of_false Bool.false_ne_true hco
      · exact fun hf => absurd hf Bool.false_ne_true

/-- Two maps with a value each for the key 1. -/
def twoMaps (capacities : Bool → UInt32) (a b : String) : Maps Bool Nat String :=
  Maps.runUpdates numberKeys (Maps.create capacities) [(false, .put 1 a), (true, .put 1 b)]

theorem sameContents_of_eq (hv : Equality values) {s t}
    (h : contents s.entries s.map.buckets = contents t.entries t.map.buckets) :
    SameContents keys values s t := by
  have hl : lookup keys s = lookup keys t := by
    funext k
    rw [lookup, lookup, h]
  intro k
  rw [hl]
  exact sameContents_self hv t k

theorem equalsRight_twoMaps :
    EqualsRight numberKeys (fun v w => v == w) (twoMaps (fun _ => 2) "a" "a") false true := by
  have hsa : SameContents numberKeys (fun v w => v == w)
      ((twoMaps (fun _ => 2) "a" "a").state false) ((twoMaps (fun _ => 2) "a" "a").state true) :=
    sameContents_of_eq (equality_beq String) (by decide +kernel)
  refine (equalsRight_iff numberKeys_consistent (equality_beq String) (fun _ => 2)
    [(false, .put 1 "a"), (true, .put 1 "a")] false true).mpr ⟨fun _ => ?_, absurd hsa⟩
  have hsh : SameShape ((twoMaps (fun _ => 2) "a" "a").map false)
      ((twoMaps (fun _ => 2) "a" "a").map true) := by
    exact ⟨rfl, by decide⟩
  refine ⟨hsh, ?_⟩
  decide

/-- Maps with different values compare equal, and maps with the same contents and different
capacities do not. -/
theorem equals_wrong :
    (parcHashMapEquals numberKeys (fun v w => v == w) (twoMaps (fun _ => 2) "a" "b").entries
        (twoMaps (fun _ => 2) "a" "b").map (some false) (some true) = pure true ∧
      ¬SameContents numberKeys (fun v w => v == w) ((twoMaps (fun _ => 2) "a" "b").state false)
        ((twoMaps (fun _ => 2) "a" "b").state true)) ∧
    (parcHashMapEquals numberKeys (fun v w => v == w)
        (twoMaps (fun i => if i then 4 else 2) "a" "a").entries
        (twoMaps (fun i => if i then 4 else 2) "a" "a").map (some false) (some true) = pure false ∧
      SameContents numberKeys (fun v w => v == w)
        ((twoMaps (fun i => if i then 4 else 2) "a" "a").state false)
        ((twoMaps (fun i => if i then 4 else 2) "a" "a").state true)) := by
  have hse (capacities : Bool → UInt32) (a b : String) :
      (twoMaps capacities a b).Separate numberKeys :=
    Maps.runUpdates_separate numberKeys_consistent _ (Maps.create_separate _ _)
  refine ⟨⟨?_, fun hsa => ?_⟩, ?_, ?_⟩
  · have h := hse (fun _ => 2) "a" "b"
    refine parcHashMapEquals_true Bool.false_ne_true h.inv.live (fun i => (h.wellFormed i).length)
      ?_ ?_
    · exact ⟨rfl, rfl, by decide⟩
    · decide
  · have ho := hsa 1
    cases ho with
    | some heq => exact absurd heq (by decide)
  · have h := hse (fun i => if i then 4 else 2) "a" "a"
    refine parcHashMapEquals_false Bool.false_ne_true h.inv.live
      (fun i => (h.wellFormed i).length) (.inl ?_)
    decide +kernel
  · exact sameContents_of_eq (equality_beq String) (by decide +kernel)

end Libparc.HashMap
