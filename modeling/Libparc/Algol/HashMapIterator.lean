import Mathlib.Data.List.GetD
import Libparc.Sweep
import Libparc.Algol.HashMapCopy

/-! # The iterators of a hash map

An iterator goes through the buckets with an iterator over the list of one of
them. Creating it looks for the first list, and traps if there is none, even
though the map is only empty. -/
namespace Libparc.HashMap
open Chaining Sweep Exec Prod
open List hiding length_append map map_map

variable {K V α : Type}

/-! ## The iterator of a list

A list of entries is its sequence here, and the state of its iterator the number
of elements up to the one it returned last, so that 0 is NULL. -/

def listHasNext (list : List Ptr) (cursor : Nat) : Bool := decide (cursor < list.length)

def listNext (list : List Ptr) (cursor : Nat) : Prog (Nat × Ptr) :=
  match list[cursor]? with
  | some entry => pure (cursor + 1, entry)
  | none =>
    if cursor = 0 then throw (.assertion "result is invalid")
    else throw (.outOfBounds "No more elements.")

def listRemove (list : List Ptr) : Nat → List Ptr × Nat
  | 0 => (list, 0)
  | cursor + 1 => (list.eraseIdx cursor, cursor)

/-! ## The iterator of a map -/

/-- `_PARCHashMapIterator`. The bucket number is an `int`; `listIterator` has the
bucket whose list it goes over, and its state. -/
structure PARCHashMapIterator where
  bucket : Int
  listIterator : Option (Nat × Nat)
  current : Option Ptr
  deriving DecidableEq, Repr

section
variable (map : PARCHashMap) (state : PARCHashMapIterator)

/-- The loop of `_parcHashMap_Init`: the first bucket that is not NULL. -/
def initBody (i : Nat) : Prog (Nat ⊕ Option Nat) :=
  if i < map.capacity then do
    match ← bucketAt map.buckets i with
    | some _ => pure (.inr (some i))
    | none => pure (.inl (i + 1))
  else pure (.inr none)

def iteratorInit : Prog PARCHashMapIterator := do
  let found ← Exec.loop (initBody map) 0
  trapOutOfMemoryIf (found = none) "Cannot create parcLinkedList_CreateIterator"
  pure ⟨((found.getD 0 : Nat) : Int).bmod (2 ^ 32), found.map (·, 0), none⟩

/-- The list that a list iterator goes over. -/
def listAt (index : Nat) : Prog (List Ptr) := do
  match ← bucketAt map.buckets index with
  | some list => pure list
  | none => throw .memoryFault

/-- A turn of the loop of `_parcHashMap_HasNext`. The bucket number is compared as a
`size_t`, and a negative one is then above every capacity. -/
def hasNextBody : Prog (PARCHashMapIterator ⊕ Bool × PARCHashMapIterator) :=
  let bucket := (state.bucket + 1).bmod (2 ^ 32)
  if 0 ≤ bucket ∧ bucket < map.capacity then do
    match ← bucketAt map.buckets bucket with
    | none => pure (.inl { state with bucket })
    | some list =>
      let state := { state with bucket, listIterator := some (bucket.toNat, 0) }
      if listHasNext list 0 then pure (.inr (true, state)) else pure (.inl state)
  else pure (.inr (false, { state with bucket }))

def iteratorHasNext : Prog (Bool × PARCHashMapIterator) :=
  match state.listIterator with
  | none => pure (false, state)
  | some (index, cursor) => do
    let list ← listAt map index
    if listHasNext list cursor then pure (true, state)
    else Exec.loop (hasNextBody map) state

/-- `_parcHashMap_Next`; an iterator that is NULL is read. -/
def iteratorNext : Prog (PARCHashMapIterator × Ptr) :=
  match state.listIterator with
  | none => throw .memoryFault
  | some (index, cursor) => do
    let (cursor, entry) ← listNext (← listAt map index) cursor
    pure (⟨state.bucket, some (index, cursor), some entry⟩, entry)

def iteratorRemove : Prog (PARCHashMap × PARCHashMapIterator) :=
  match state.listIterator with
  | none => pure (map, state)
  | some (index, cursor) => do
    let (list, cursor) := listRemove (← listAt map index) cursor
    pure ({ map with buckets := map.buckets.set index (some list), size := map.size - 1 },
      { state with listIterator := some (index, cursor) })

end

/-- The iterators differ in the element they return of an entry. -/
def hashMapIterator (element : PARCHashMapEntry K V → α) (entries : Entries K V) :
    Interface Trap PARCHashMap PARCHashMapIterator α where
  init := iteratorInit
  hasNext := iteratorHasNext
  next map state := do
    let (state, entry) ← iteratorNext map state
    pure (state, element (← entryAt entries entry))
  remove := iteratorRemove

def parcHashMapCreateKeyIterator (entries : Entries K V) :
    Interface Trap PARCHashMap PARCHashMapIterator K :=
  hashMapIterator PARCHashMapEntry.key entries

def parcHashMapCreateValueIterator (entries : Entries K V) :
    Interface Trap PARCHashMap PARCHashMapIterator V :=
  hashMapIterator PARCHashMapEntry.value entries

/-! ## What every map has

An iterator needs nothing of the keys: the lists are where the `int` reaches
them, and they have each entry of the map once. -/

/-- The buckets and the size of a map whose entries are in a memory of `n` entries. -/
structure Sound (n : Nat) (hashMap : PARCHashMap) : Prop where
  minCapacity_pos : 0 < hashMap.minCapacity
  minCapacity_le : hashMap.minCapacity ≤ hashMap.capacity
  length : hashMap.buckets.length = hashMap.capacity
  reached : ∀ i, hashMap.buckets.getD i none ≠ none → i < 2 ^ 31
  live : ∀ p ∈ elements hashMap.buckets, p < n
  nodup : (elements hashMap.buckets).Nodup
  size : hashMap.size = (elements hashMap.buckets).length

variable {keys : KeyObject K} {es es' : Entries K V} {m m' : PARCHashMap}
  {key : K} {v : V} {n : Nat}

theorem bucketIndex_toNat_lt (keys : KeyObject K) (key : K) (cap : Nat) :
    (bucketIndex keys key cap).toNat < 2 ^ 31 := by
  unfold bucketIndex
  have := Int.bmod_lt (x := (((keys.hashCode key).toNat % cap : Nat) : Int)) (m := 2 ^ 32)
    (by decide)
  omega

theorem home_reached (keys : KeyObject K) (es : Entries K V) (cap : Nat) (p : Ptr) :
    home keys es cap p < 2 ^ 31 := by
  unfold home
  split
  · exact bucketIndex_toNat_lt ..
  · decide

theorem Sound.resize (h : Sound n m) {cap} (hr : resize keys es m cap = pure m') : Sound n m' := by
  by_cases hle : m.minCapacity ≤ cap
  · have hc := Nat.lt_of_lt_of_le h.minCapacity_pos hle
    obtain ⟨-, hm, rfl⟩ := (resize_eq_pure h.length hc hle).mp hr
    have hpe := elements_rehashed hc hm
    refine ⟨h.minCapacity_pos, hle, length_rehashed _, ?_, ?_, ?_, ?_⟩
    · intro i hi
      obtain ⟨p, -, rfl⟩ | hn := of_distribute_ne_none hi
      · exact home_reached ..
      · exact absurd (getD_replicate_none _ i) hn
    · intro p hp
      exact h.live p (hpe.mem_iff.mp hp)
    · exact hpe.nodup_iff.mpr h.nodup
    · exact h.size.trans hpe.length_eq.symm
  · rw [HashMap.resize, if_pos (Nat.lt_of_not_le hle), pure_inj] at hr
    rwa [← hr]

theorem Sound.putEntry (h : Sound es.length m) (hpu : putEntry keys es m key v = pure (es', m')) :
    Sound es'.length m' := by
  cases putEntry_inv hpu with
  | set => rwa [length_set]
  | append _ hin =>
    have hpe := elements_append hin es.length
    rw [List.length_append, length_singleton]
    refine ⟨h.minCapacity_pos, h.minCapacity_le, ?_, ?_, ?_, ?_, ?_⟩
    · exact (length_append ..).trans h.length
    · intro i hi
      obtain heq | hold := of_set_ne_none hi
      · rw [heq]
        exact bucketIndex_toNat_lt keys key m.capacity
      · exact h.reached i hold
    · intro p hp
      obtain rfl | hp := mem_cons.mp (hpe.mem_iff.mp hp)
      · exact Nat.lt_succ_self _
      · exact Nat.lt_succ_of_lt (h.live p hp)
    · refine hpe.nodup_iff.mpr (nodup_cons.mpr ⟨fun hm => ?_, h.nodup⟩)
      exact Nat.lt_irrefl _ (h.live _ hm)
    · rw [hpe.length_eq, length_cons, h.size]

theorem Sound.removes (h : Sound n m) (hr : Removes m m') : Sound n m' := by
  cases hr with
  | nothing => exact h
  | @entry i before after entry hl =>
    have hpe := elements_removed hl
    refine ⟨h.minCapacity_pos, h.minCapacity_le, length_set.trans h.length, ?_, ?_, ?_, ?_⟩
    · intro j hj
      obtain rfl | hold := of_set_ne_none hj
      · exact h.reached j (by rw [hl]; nofun)
      · exact h.reached j hold
    · exact fun p hp => h.live p (hpe.mem_iff.mpr (.tail _ hp))
    · exact (nodup_cons.mp (hpe.nodup_iff.mp h.nodup)).2
    · rw [h.size, hpe.length_eq, length_cons, Nat.add_sub_cancel]

theorem Update.run_sound {s s' r} (u : Update K V)
    (h : Sound s.entries.length s.map) (hr : u.run keys s = pure (s', r)) :
    Sound s'.entries.length s'.map := by
  cases u with
  | put key v =>
    obtain ⟨⟨es', map'⟩, hp, heq⟩ := bind_eq_pure.mp hr
    cases heq
    obtain ⟨map1, hg, he⟩ := bind_eq_pure.mp hp
    split at hg
    · exact (h.resize hg).putEntry he
    · cases hg
      exact h.putEntry he
  | remove key =>
    obtain ⟨⟨map', removed⟩, hre, heq⟩ := bind_eq_pure.mp hr
    cases heq
    obtain ⟨⟨map1, removed1⟩, he, hrs⟩ := bind_eq_pure.mp hre
    obtain ⟨map2, hrz, heq2⟩ := bind_eq_pure.mp hrs
    cases heq2
    split at hrz
    · exact (h.removes (removeEntry_inv he)).resize hrz
    · cases hrz
      exact h.removes (removeEntry_inv he)

theorem start_sound (cap : UInt32) :
    Sound (start cap : State K V).entries.length (start cap : State K V).map := by
  have hl := start_loaded (K := K) (V := V) cap
  have hn : elements (start cap : State K V).map.buckets = [] := elements_replicate _
  refine ⟨hl.minCapacity ▸ hl.initial_pos, hl.minCapacity ▸ hl.le, hl.length, ?_, ?_, ?_, hl.size⟩
  · intro i hi
    exact absurd (getD_replicate_none _ i) hi
  · rw [hn]
    nofun
  · rw [hn]
    exact nodup_nil

/-! ## Looking for a list -/

section
variable {map map' : PARCHashMap} {st st' : PARCHashMapIterator}
  {before after : Chains Ptr} {done todo l : List Ptr} {e : Ptr}

theorem bucketAt_middle (c : Option (List Ptr)) :
    bucketAt (before ++ c :: after) before.length = pure c := by
  rw [bucketAt_natCast (by simp)]
  simp

theorem Sound.length_lt (h : Sound n map) (hb : map.buckets = before ++ some l :: after) :
    before.length < 2 ^ 31 := by
  refine h.reached before.length ?_
  rw [hb]
  simp

theorem Sound.elements_unreached (h : Sound n map) (hb : map.buckets = before ++ after)
    (hge : 2 ^ 31 ≤ before.length) : elements after = [] := by
  refine eq_nil_iff_forall_not_mem.mpr fun p hp => ?_
  obtain ⟨i, hi⟩ := mem_elements.mp hp
  have hr : before.length + i < 2 ^ 31 := by
    refine h.reached _ fun hn => ?_
    rw [hb, getD_append_right _ _ _ _ (Nat.le_add_right ..), Nat.add_sub_cancel_left] at hn
    rw [chain, hn] at hi
    cases hi
  omega

theorem bmod_reached {i : Nat} (hi : i < 2 ^ 31) : (i : Int).bmod (2 ^ 32) = i :=
  Int.bmod_eq_of_le (by omega) (by omega)

theorem initLoop_eq (hl : map.buckets.length = map.capacity) :
    ∀ after before, map.buckets = before ++ after →
      (∀ c ∈ after, c = none) ∧ loop (initBody map) before.length = pure none ∨
      ∃ gap l after', after = gap ++ some l :: after' ∧ (∀ c ∈ gap, c = none) ∧
        loop (initBody map) before.length = pure (some (before ++ gap).length) := by
  intro after
  induction after with
  | nil =>
    intro before hb
    refine .inl ⟨by simp, loop_done (if_neg ?_)⟩
    rw [← hl, hb, append_nil]
    exact Nat.lt_irrefl _
  | cons c after ih =>
    intro before hb
    have hlt : before.length < map.capacity := by
      rw [← hl, hb]
      simp
    have hbo : initBody map before.length = (do
        match ← (pure c : Prog (Option (List Ptr))) with
        | some _ => pure (.inr (some before.length))
        | none => pure (.inl (before.length + 1))) := by
      rw [initBody, if_pos hlt, hb, bucketAt_middle]
    cases c with
    | some l =>
      refine .inr ⟨[], l, after, rfl, by simp, ?_⟩
      rw [append_nil]
      exact loop_done hbo
    | none =>
      rw [loop_next hbo]
      have hn := ih (before ++ [none]) (by simp [hb])
      rw [List.length_append, length_singleton] at hn
      obtain ⟨hno, hlo⟩ | ⟨gap, l, after', rfl, hg, hlo⟩ := hn
      · exact .inl ⟨by simpa using hno, hlo⟩
      · refine .inr ⟨none :: gap, l, after', rfl, by simpa using hg, ?_⟩
        simpa using hlo

theorem hasNextBody_eq {c : Option (List Ptr)} (h : Sound n map)
    (hb : map.buckets = before ++ c :: after) (hbu : st.bucket + 1 = before.length)
    (hlt : before.length < 2 ^ 31) :
    hasNextBody map st =
      match c with
      | none => pure (.inl ⟨before.length, st.listIterator, st.current⟩)
      | some l =>
        if listHasNext l 0 then
          pure (.inr (true, ⟨before.length, some (before.length, 0), st.current⟩))
        else pure (.inl ⟨before.length, some (before.length, 0), st.current⟩) := by
  have hin : before.length < map.capacity := by
    rw [← h.length, hb]
    simp
  unfold hasNextBody
  rw [hbu, bmod_reached hlt, if_pos ⟨Int.natCast_nonneg _, Int.ofNat_lt.mpr hin⟩, hb,
    bucketAt_middle, pure_bind, Int.toNat_natCast]

theorem hasNextBody_end (map : PARCHashMap) (hb : st.bucket + 1 = before.length)
    (hle : before.length ≤ 2 ^ 31) (he : before.length < 2 ^ 31 → before.length = map.capacity) :
    ∃ st', hasNextBody map st = pure (.inr (false, st')) := by
  refine ⟨_, if_neg fun hin => ?_⟩
  rw [hb] at hin
  obtain hlt | heq := Nat.lt_or_eq_of_le hle
  · rw [bmod_reached hlt, he hlt] at hin
    exact Int.lt_irrefl _ hin.2
  · rw [heq] at hin
    exact absurd hin.1 (by decide)

theorem hasNextLoop_eq (h : Sound n map) (after : Chains Ptr) :
    ∀ (before : Chains Ptr) (st : PARCHashMapIterator), map.buckets = before ++ after →
      st.bucket + 1 = before.length → before.length ≤ 2 ^ 31 → elements after = [] ∧
        (∃ st', loop (hasNextBody map) st = pure (false, st')) ∨
      ∃ gap e l after', after = gap ++ some (e :: l) :: after' ∧ elements gap = [] ∧
        loop (hasNextBody map) st = pure (true, ⟨(before ++ gap).length,
          some ((before ++ gap).length, 0), st.current⟩) := by
  induction after with
  | nil =>
    intro before st hb hbu hle
    obtain ⟨st', he⟩ := hasNextBody_end map hbu hle fun _ => by
      rw [← h.length, hb, append_nil]
    exact .inl ⟨rfl, st', loop_done he⟩
  | cons c after ih =>
    intro before st hb hbu hle
    obtain hlt | heq := Nat.lt_or_eq_of_le hle
    · have hbo := hasNextBody_eq h hb hbu hlt
      by_cases hem : c.getD [] = []
      · -- a bucket without entries is passed over
        obtain ⟨listIterator, hn⟩ : ∃ listIterator, hasNextBody map st =
            pure (.inl ⟨before.length, listIterator, st.current⟩) := by
          match c, hem with
          | none, _ | some [], _ => exact ⟨_, hbo⟩
        have hl : ((before ++ [c]).length : Int) = before.length + 1 := by simp
        rw [loop_next hn, elements_cons, hem, nil_append]
        obtain he | ⟨gap, e, l, after', rfl, hg, hlo⟩ :=
          ih (before ++ [c]) ⟨before.length, listIterator, st.current⟩ (by simp [hb])
            hl.symm (by omega)
        · exact .inl he
        · refine .inr ⟨c :: gap, e, l, after', rfl, ?_, by simpa using hlo⟩
          rw [elements_cons, hem, hg, nil_append]
      · match c, hem with
        | some (e :: l), _ =>
          refine .inr ⟨[], e, l, after, rfl, rfl, ?_⟩
          rw [append_nil]
          exact loop_done hbo
    · obtain ⟨st', he⟩ := hasNextBody_end map hbu hle fun hlt =>
        absurd heq (Nat.ne_of_lt hlt)
      have hno := h.elements_unreached hb (Nat.le_of_eq heq.symm)
      exact .inl ⟨hno, st', loop_done he⟩

/-! ## Where an iterator is -/

theorem listAt_middle (hb : map.buckets = before ++ some l :: after) :
    listAt map before.length = pure l := by
  rw [listAt, hb, bucketAt_middle, pure_bind]

theorem listNext_middle : listNext (done ++ e :: todo) done.length = pure (done.length + 1, e) := by
  simp [listNext]

theorem listRemove_middle :
    listRemove (done ++ e :: todo) (done.length + 1) = (done ++ todo, done.length) := by
  simp [listRemove, eraseIdx_append_of_length_le]

/-- The iterator is in the list of a bucket, behind its entries `done`. -/
structure Place (map : PARCHashMap) (state : PARCHashMapIterator) (before : Chains Ptr)
    (done todo : List Ptr) (after : Chains Ptr) : Prop where
  buckets : map.buckets = before ++ some (done ++ todo) :: after
  bucket : state.bucket = before.length
  listIterator : state.listIterator = some (before.length, done.length)

/-- The iterator has gone over the entries that `kept` has of it, and `rest` are to come. -/
structure StandsAfter (entries : Entries K V) (kept rest : List (Ptr × PARCHashMapEntry K V))
    (map : PARCHashMap) (state : PARCHashMapIterator) : Prop where
  sound : Sound entries.length map
  live : ∀ x ∈ kept ++ rest, entries[x.1]? = some x.2
  place : ∃ before done todo after, Place map state before done todo after ∧
    kept.map Prod.fst = elements before ++ done ∧ rest.map Prod.fst = todo ++ elements after

theorem Place.hasNext (h : Place map st before done todo after) (hs : Sound n map) :
    elements after = [] ∧ todo = [] ∧ (∃ st', iteratorHasNext map st = pure (false, st')) ∨
    ∃ st' before' done' e todo' after', iteratorHasNext map st = pure (true, st') ∧
      Place map st' before' done' (e :: todo') after' ∧
      elements before' ++ done' = elements before ++ done ∧
      e :: todo' ++ elements after' = todo ++ elements after := by
  obtain ⟨hb, hbu, hiterator⟩ := h
  have hl := listAt_middle hb
  cases todo with
  | cons e todo =>
    refine .inr ⟨st, before, done, e, todo, after, ?_, ⟨hb, hbu, hiterator⟩, rfl, rfl⟩
    simp [iteratorHasNext, hiterator, hl, listHasNext]
  | nil =>
    have hlo : iteratorHasNext map st = loop (hasNextBody map) st := by
      simp [iteratorHasNext, hiterator, hl, listHasNext]
    rw [hlo]
    have hlt := hs.length_lt hb
    have hle : (before ++ [some done]).length = before.length + 1 := by simp
    obtain ⟨hn, he⟩ | ⟨gap, e, l, after', rfl, hg, hf⟩ :=
      hasNextLoop_eq hs after (before ++ [some done]) st (by simp [hb]) (by omega) (by omega)
    · exact .inl ⟨hn, rfl, he⟩
    · refine .inr ⟨_, before ++ [some done] ++ gap, [], e, l, after', hf, ⟨?_, rfl, rfl⟩, ?_, ?_⟩
      · simp [hb]
      all_goals simp [elements_concat, hg, elements_cons]

theorem Place.next (h : Place map st before done (e :: todo) after) :
    iteratorNext map st = pure (⟨st.bucket, some (before.length, done.length + 1), some e⟩, e) ∧
    Place map ⟨st.bucket, some (before.length, done.length + 1), some e⟩ before (done ++ [e])
      todo after := by
  obtain ⟨hb, hbu, hiterator⟩ := h
  refine ⟨?_, ⟨by simp [hb], hbu, by simp⟩⟩
  simp only [iteratorNext, hiterator, listAt_middle hb, listNext_middle, pure_bind]

theorem Place.remove (h : Place map st before (done ++ [e]) todo after) (hs : Sound n map) :
    ∃ map' st', iteratorRemove map st = pure (map', st') ∧ Sound n map' ∧
      Place map' st' before done todo after := by
  obtain ⟨hb, hbu, hiterator⟩ := h
  rw [append_assoc, singleton_append] at hb
  rw [List.length_append, length_singleton] at hiterator
  have hse : map.buckets.set before.length (some (done ++ todo)) =
      before ++ some (done ++ todo) :: after := by simp [hb]
  have hgd : map.buckets.getD before.length none = some (done ++ e :: todo) := by simp [hb]
  refine ⟨_, { st with listIterator := some (before.length, done.length) }, ?_,
    hs.removes (.entry hgd), ⟨hse, hbu, rfl⟩⟩
  simp only [iteratorRemove, hiterator, listAt_middle hb, listRemove_middle, pure_bind]

theorem hashMapIterator_lawful (element : PARCHashMapEntry K V → α) (es : Entries K V) :
    Lawful (hashMapIterator element es) (element ∘ snd) (StandsAfter es) where
  done := by
    intro kept map st h
    obtain ⟨before, done, todo, after, hp, -, hr⟩ := h.place
    obtain ⟨-, -, he⟩ | ⟨_, _, _, e, todo', after', -, -, -, hitems⟩ := hp.hasNext h.sound
    · exact he
    · rw [← hr] at hitems
      cases hitems
  step := by
    intro kept x rest map st h
    obtain ⟨before, done, todo, after, hp, hk, hr⟩ := h.place
    obtain ⟨hn, rfl, -⟩ | ⟨st1, before', done', e, todo', after', hhn, hp1, hb,
      hitems⟩ := hp.hasNext h.sound
    · rw [hn] at hr
      cases hr
    · rw [← hr, cons_append] at hitems
      obtain ⟨rfl, hr1⟩ := cons.inj hitems
      obtain ⟨hne, hp2⟩ := hp1.next
      obtain ⟨map', st3, hre, hs', hp3⟩ := hp2.remove h.sound
      have hen := h.live x (mem_append_right _ (.head _))
      refine ⟨st1, ⟨st1.bucket, some (before'.length, done'.length + 1), some x.1⟩, hhn,
        ?_, ⟨h.sound, ?_, ?_⟩, map', st3, hre, ⟨hs', ?_, ?_⟩⟩
      · simp only [hashMapIterator, hne, pure_bind, entryAt_eq_pure.mpr hen]
        rfl
      · intro y hy
        refine h.live y ?_
        rwa [append_assoc, singleton_append] at hy
      · refine ⟨before', done' ++ [x.1], todo', after', hp2, ?_, hr1.symm⟩
        rw [map_append, hk, ← hb, append_assoc]
        rfl
      · intro y hy
        exact h.live y ((sublist_cons_self x rest).append_left kept |>.subset hy)
      · exact ⟨before', done', todo', after', hp3, hk.trans hb.symm, hr1.symm⟩

/-! ## Going over a map -/

theorem iteratorInit_cases (hs : Sound n map) :
    (∀ l, some l ∉ map.buckets) ∧
      iteratorInit map = throw (.outOfMemory "Cannot create parcLinkedList_CreateIterator") ∨
    (∃ l, some l ∈ map.buckets) ∧ ∃ st before todo after, iteratorInit map = pure st ∧
      elements before = [] ∧ Place map st before [] todo after := by
  have hi := initLoop_eq hs.length map.buckets [] rfl
  simp only [length_nil, nil_append] at hi
  obtain ⟨hn, hl⟩ | ⟨before, l, after, hb, hbe, hl⟩ := hi
  · refine .inl ⟨fun l hli => ?_, ?_⟩
    · cases hn _ hli
    · rw [iteratorInit, hl]
      rfl
  · have hlt := hs.length_lt hb
    refine .inr ⟨⟨l, by simp [hb]⟩, ⟨before.length, some (before.length, 0), none⟩, before,
      l, after, ?_, ?_, ⟨hb, rfl, rfl⟩⟩
    · rw [iteratorInit, hl, pure_bind, Option.getD_some, bmod_reached hlt]
      rfl
    · exact flatMap_eq_nil_iff.mpr fun c hc => by rw [hbe c hc]; rfl

end

theorem exists_items {ps : List Ptr} (hl : ∀ p ∈ ps, p < es.length) :
    ∃ items : List (Ptr × PARCHashMapEntry K V), items.map fst = ps ∧
      ∀ x ∈ items, es[x.1]? = some x.2 := by
  induction ps with
  | nil => exact ⟨[], rfl, by simp⟩
  | cons p ps ih =>
    obtain ⟨items, hf, hitems⟩ := ih fun q hq => hl q (.tail _ hq)
    have hp := hl p (.head _)
    refine ⟨(p, es[p]) :: items, by rw [map_cons, hf], ?_⟩
    exact forall_mem_cons.mpr ⟨getElem?_eq_getElem hp, hitems⟩

theorem filterMap_items {items : List (Ptr × PARCHashMapEntry K V)}
    (h : ∀ x ∈ items, es[x.1]? = some x.2) :
    (items.map fst).filterMap (es[·]?) = items.map snd := by
  induction items with
  | nil => rfl
  | cons x items ih =>
    obtain ⟨hx, hitems⟩ := forall_mem_cons.mp h
    rw [map_cons, filterMap_cons_some hx, ih hitems, map_cons]

/-- Driven by HasNext and Next, the iterator returns the element of each entry once and then has
no next one. The entries after which Remove is called are gone, the others are left, and the size
is that of the rest. -/
def IteratesRight (iterator : Interface Trap PARCHashMap PARCHashMapIterator α)
    (element : PARCHashMapEntry K V → α) (s : State K V) : Prop :=
  (elements s.map.buckets).Nodup ∧ ∀ choose, ∃ map state,
    sweep iterator choose s.map =
      pure (map, state, (contents s.entries s.map.buckets).map element) ∧
    elements map.buckets = unchosen choose 0 (elements s.map.buckets) ∧
    contents s.entries map.buckets = unchosen choose 0 (contents s.entries s.map.buckets) ∧
    parcHashMapSize map = (contents s.entries map.buckets).length

section
variable {s : State K V}

theorem StandsAfter.elements_eq {kept rest map state} (h : StandsAfter es kept rest map state) :
    elements map.buckets = (kept ++ rest).map fst := by
  obtain ⟨before, done, todo, after, hp, hk, hr⟩ := h.place
  rw [hp.buckets, elements_concat, elements_cons, map_append, hk, hr]
  simp

theorem sweep_sound (hs : Sound s.entries.length s.map)
    (hl : ∃ list, some list ∈ s.map.buckets) (x : PARCHashMapEntry K V → α) (choose : Nat → Bool) :
    ∃ map state, sweep (hashMapIterator x s.entries) choose s.map =
        pure (map, state, (contents s.entries s.map.buckets).map x) ∧ Sound s.entries.length map ∧
      elements map.buckets = unchosen choose 0 (elements s.map.buckets) ∧
      contents s.entries map.buckets = unchosen choose 0 (contents s.entries s.map.buckets) := by
  obtain ⟨hn, -⟩ | ⟨-, state, before, todo, after, hi, hb, hp⟩ := iteratorInit_cases hs
  · obtain ⟨list, hl⟩ := hl
    exact absurd hl (hn list)
  obtain ⟨items, hf, hitems⟩ := exists_items hs.live
  have hst : StandsAfter s.entries [] items s.map state := by
    refine ⟨hs, hitems, before, [], todo, after, hp, by simp [hb], ?_⟩
    rw [hf, hp.buckets, elements_concat, elements_cons, hb]
    rfl
  obtain ⟨map, st0, state', hsw, he, -⟩ :=
    sweep_eq (hashMapIterator_lawful x s.entries) choose hi hst
  have hc : contents s.entries s.map.buckets = items.map snd := by
    rw [contents, ← hf, filterMap_items hitems]
  have hel := he.elements_eq
  have hli := he.live
  rw [append_nil] at hel hli
  refine ⟨map, state', ?_, he.sound, ?_, ?_⟩
  · rw [hc, List.map_map]
    exact hsw
  · rw [hel, map_unchosen, hf]
  · rw [contents, hel, filterMap_items hli, map_unchosen, hc]

theorem Sound.length_contents (h : Sound es.length m) :
    (contents es m.buckets).length = m.size := by
  obtain ⟨items, hf, hitems⟩ := exists_items h.live
  rw [contents, ← hf, filterMap_items hitems, h.size, ← hf, length_map, length_map]

theorem exists_list (hs : Sound s.entries.length s.map) {x : PARCHashMapEntry K V → α} {choose r}
    (hsw : sweep (hashMapIterator x s.entries) choose s.map = pure r) :
    ∃ list, some list ∈ s.map.buckets := by
  obtain ⟨-, ht⟩ | ⟨hl, -⟩ := iteratorInit_cases hs
  · obtain ⟨st0, hi, -⟩ := bind_eq_pure.mp hsw
    exact absurd (ht.symm.trans hi) throw_ne_pure
  · exact hl

theorem Sound.iteratesRight_iff (hs : Sound s.entries.length s.map) (x : PARCHashMapEntry K V → α) :
    IteratesRight (hashMapIterator x s.entries) x s ↔ ∃ list, some list ∈ s.map.buckets := by
  constructor
  · rintro ⟨-, hr⟩
    obtain ⟨map, state, hsw, -⟩ := hr fun _ => false
    exact exists_list hs hsw
  · intro hl
    refine ⟨hs.nodup, fun choose => ?_⟩
    obtain ⟨map, state, hsw, hs', he, hc⟩ := sweep_sound hs hl x choose
    exact ⟨map, state, hsw, he, hc, hs'.length_contents.symm⟩

end

/-! ## Every map -/

/-- What a program does with a map: an update, an iteration in which some entries are removed, or
it goes on with a copy of it. -/
inductive Step (K V : Type) where
  | update (u : Update K V)
  | iterateKeys (choose : Nat → Bool)
  | iterateValues (choose : Nat → Bool)
  | copy

def Step.run (keys : KeyObject K) (s : State K V) : Step K V → Prog (State K V)
  | .update u => do
    let (s, _) ← u.run keys s
    pure s
  | .iterateKeys choose => do
    let (map, _, _) ← sweep (parcHashMapCreateKeyIterator s.entries) choose s.map
    pure { s with map }
  | .iterateValues choose => do
    let (map, _, _) ← sweep (parcHashMapCreateValueIterator s.entries) choose s.map
    pure { s with map }
  | .copy => do
    pure { s with map := ← parcHashMapCopy s.map }

/-- The state after the steps, or after those before the first one that does not return. -/
def runSteps (keys : KeyObject K) : State K V → List (Step K V) → State K V
  | s, [] => s
  | s, step :: steps =>
    match (step.run keys s).run with
    | some (.ok s') => runSteps keys s' steps
    | _ => s

section
variable {s s' : State K V}

theorem sweep_returns_sound (hs : Sound s.entries.length s.map) {x choose map state} {vis : List α}
    (hsw : sweep (hashMapIterator x s.entries) choose s.map = pure (map, state, vis)) :
    Sound s.entries.length map := by
  obtain ⟨map', state', hs', hso', -⟩ := sweep_sound hs (exists_list hs hsw) x choose
  cases hsw.symm.trans hs'
  exact hso'

theorem Step.run_sound (step : Step K V) (h : Sound s.entries.length s.map)
    (hr : step.run keys s = pure s') : Sound s'.entries.length s'.map := by
  cases step with
  | update u =>
    obtain ⟨⟨s1, r⟩, hu, heq⟩ := bind_eq_pure.mp hr
    cases heq
    exact u.run_sound h hu
  | iterateKeys choose | iterateValues choose =>
    obtain ⟨⟨map, state, vis⟩, hs, heq⟩ := bind_eq_pure.mp hr
    cases heq
    exact sweep_returns_sound h hs
  | copy =>
    obtain ⟨map, hc, heq⟩ := bind_eq_pure.mp hr
    cases heq
    have hca : s.map.capacity < 2 ^ 32 := by
      by_contra hge
      exact parcHashMapCopy_diverges h.length (Nat.le_of_not_lt hge) hc
    cases hc.symm.trans (parcHashMapCopy_eq h.length hca)
    exact ⟨h.minCapacity_pos, h.minCapacity_le, h.length, h.reached, h.live, h.nodup, h.size⟩

theorem runSteps_sound (keys : KeyObject K) (steps : List (Step K V))
    (h : Sound s.entries.length s.map) :
    Sound (runSteps keys s steps).entries.length (runSteps keys s steps).map := by
  induction steps generalizing s with
  | nil => exact h
  | cons step steps ih =>
    unfold runSteps
    split
    · exact ih (step.run_sound h ‹_›)
    · exact h

end

/-- **An iterator over the keys or the values of a map visits every entry once and removes those
that are chosen, exactly if some bucket of the map is not NULL.** -/
theorem iterators_right_iff (keys : KeyObject K) (capacity : UInt32) (steps : List (Step K V)) :
    let s := runSteps keys (start capacity) steps
    (IteratesRight (parcHashMapCreateKeyIterator s.entries) PARCHashMapEntry.key s ↔
      ∃ list, some list ∈ s.map.buckets) ∧
    (IteratesRight (parcHashMapCreateValueIterator s.entries) PARCHashMapEntry.value s ↔
      ∃ list, some list ∈ s.map.buckets) := by
  have hs := runSteps_sound keys steps (start_sound (K := K) (V := V) capacity)
  exact ⟨hs.iteratesRight_iff _, hs.iteratesRight_iff _⟩

/-- A new map has no list, and its iterators cannot be created. -/
theorem new_map_traps :
    (sweep (parcHashMapCreateKeyIterator ([] : Entries Nat String)) (fun _ => false)
        parcHashMapCreate =
      throw (.outOfMemory "Cannot create parcLinkedList_CreateIterator")) ∧
    sweep (parcHashMapCreateValueIterator ([] : Entries Nat String)) (fun _ => false)
        parcHashMapCreate =
      throw (.outOfMemory "Cannot create parcLinkedList_CreateIterator") := by
  obtain ⟨-, ht⟩ | ⟨⟨list, hl⟩, -⟩ := iteratorInit_cases (start_sound (K := Nat) (V := String) 43)
  · constructor
    all_goals
      exact congrArg (· >>= _) ht
  · cases List.eq_of_mem_replicate hl

end Libparc.HashMap
