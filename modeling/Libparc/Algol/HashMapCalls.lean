import Libparc.Algol.HashMapContents

/-! # Calls of a hash map

A call returns exactly when every bucket number it computes is in range and no
resize starts from 2 ^ 32 buckets or more (`Call.Fits`). A run of calls that
return is a run of the finite map. -/
namespace Libparc.HashMap
open Chaining Keyed Exec List

variable {K V : Type} {keys : KeyObject K} {s s' : State K V} {key : K} {value : V}

inductive Call (K V : Type) where
  | update (update : Update K V)
  | get (key : K)
  | contains (key : K)
  | size

/-- What a call returns; `parcHashMap_Put` returns nothing. -/
inductive Result (V : Type) where
  | updated (removed : Option Bool)
  | object (value : Option V)
  | contains (result : Bool)
  | size (size : Nat)
  deriving DecidableEq, Repr

section
variable (keys : KeyObject K) (map : K → Option V)

def Call.run (s : State K V) : Call K V → Prog (State K V × Result V)
  | .update u => do
    let (s', removed) ← u.run keys s
    pure (s', .updated removed)
  | .get key => do
    let value ← parcHashMapGet keys s.entries s.map key
    pure (s, .object value)
  | .contains key => do
    let result ← parcHashMapContains keys s.entries s.map key
    pure (s, .contains result)
  | .size => pure (s, .size (parcHashMapSize s.map))

def runCalls (keys : KeyObject K) : State K V → List (Call K V) →
    Prog (State K V × List (Result V))
  | s, [] => pure (s, [])
  | s, call :: calls => do
    let (s, result) ← call.run keys s
    let (s, results) ← runCalls keys s calls
    pure (s, result :: results)

/-! ## The finite map -/

/-- As many different keys have a value. -/
def NumberOfKeys (n : Nat) : Prop :=
  ∃ list : List K, list.Pairwise (fun k k' => keys.equals k k' = false) ∧ list.length = n ∧
    ∀ k, (map k).isSome = true ↔ ∃ k' ∈ list, keys.equals k k' = true

def Call.apply : Call K V → K → Option V
  | .update (.put key value) => fun k => if keys.equals key k then some value else map k
  | .update (.remove key) => fun k => if keys.equals key k then none else map k
  | .get _ | .contains _ | .size => map

/-- The result is the finite map's. -/
def Call.Meets : Call K V → Result V → Prop
  | .update (.put _ _), result => result = .updated none
  | .update (.remove key), result => result = .updated (some (map key).isSome)
  | .get key, result => result = .object (map key)
  | .contains key, result => result = .contains (map key).isSome
  | .size, result => ∃ n, result = .size n ∧ NumberOfKeys keys map n

def applyCalls (calls : List (Call K V)) :
    K → Option V := calls.foldl (fun map call => call.apply keys map) map

def MeetsCalls (keys : KeyObject K) : (K → Option V) → List (Call K V) → List (Result V) → Prop
  | _, [], results => results = []
  | map, call :: calls, results => ∃ result rest, results = result :: rest ∧
      call.Meets keys map result ∧ MeetsCalls keys (call.apply keys map) calls rest

/-! ## When a call returns -/

/-- The map can be moved to other buckets. -/
def ResizeFits (entries : Entries K V) (hashMap : PARCHashMap) (newCapacity : Nat) : Prop :=
  hashMap.capacity < 2 ^ 32 ∧
    ∀ entry ∈ elements hashMap.buckets, Movable keys entries newCapacity entry

/-- Every bucket number that the call computes is not negative, and no resize
is of 2 ^ 32 buckets or more. -/
def Call.Fits (s : State K V) : Call K V → Prop
  | .update (.put key _) =>
    if 4 * s.map.size ≥ 3 * s.map.capacity then
      ResizeFits keys s.entries s.map (s.map.capacity * 2) ∧
        HashMap.Fits keys key (s.map.capacity * 2)
    else HashMap.Fits keys key s.map.capacity
  | .update (.remove key) => HashMap.Fits keys key s.map.capacity ∧
    ∀ map removed, removeEntry keys s.entries s.map key = pure (map, removed) →
      4 * map.size ≤ map.capacity → map.minCapacity ≤ map.capacity / 2 →
        ResizeFits keys s.entries map (map.capacity / 2)
  | .get key | .contains key => HashMap.Fits keys key s.map.capacity
  | .size => True

def FitsCalls (keys : KeyObject K) : State K V → List (Call K V) → Prop
  | _, [] => True
  | s, call :: calls => call.Fits keys s ∧
    ∀ s' result, call.run keys s = pure (s', result) → FitsCalls keys s' calls

/-- A call that returns what the finite map returns, and leaves that map. -/
def Call.Conforms (s : State K V) (call : Call K V) : Prop :=
  ∃ s' result, call.run keys s = pure (s', result) ∧ call.Meets keys (lookup keys s) result ∧
    lookup keys s' = call.apply keys (lookup keys s) ∧ WellFormed keys s'.entries s'.map

end

section
variable (hc : keys.Consistent) (h : WellFormed keys s.entries s.map)
include hc h

theorem get_conforms (hf : Fits keys key s.map.capacity) :
    (Call.get key : Call K V).Conforms keys s := by
  have hg : parcHashMapGet keys s.entries s.map key = pure (lookup keys s key) := by
    rcases h.getEntry_cases hc hf with ⟨hn, ha⟩ | ⟨entry, e, hs, hm, he, heq⟩
    · rw [parcHashMapGet, hn, lookup_eq_none ha]
      rfl
    · rw [parcHashMapGet, hs, lookup_eq_some hc h (mem_contents.mpr ⟨entry, hm, he⟩) heq]
      simp only [pure_bind, entryAt_eq_pure.mpr he]
  refine ⟨s, .object (lookup keys s key), ?_, rfl, rfl, h⟩
  rw [Call.run, hg]
  rfl

theorem contains_conforms (hf : Fits keys key s.map.capacity) :
    (Call.contains key : Call K V).Conforms keys s := by
  have hco : parcHashMapContains keys s.entries s.map key = pure (lookup keys s key).isSome := by
    rcases h.getEntry_cases hc hf with ⟨hn, ha⟩ | ⟨entry, e, hs, hm, he, heq⟩
    · rw [parcHashMapContains, hn, lookup_eq_none ha]
      rfl
    · rw [parcHashMapContains, hs, lookup_eq_some hc h (mem_contents.mpr ⟨entry, hm, he⟩) heq]
      simp only [pure_bind, entryAt_eq_pure.mpr he]
      rfl
  refine ⟨s, .contains (lookup keys s key).isSome, ?_, rfl, rfl, h⟩
  rw [Call.run, hco]
  rfl

omit hc in
theorem size_conforms : (Call.size : Call K V).Conforms keys s := by
  refine ⟨s, .size s.map.size, rfl, ⟨_, rfl, ?_⟩, rfl, h⟩
  refine ⟨(contents s.entries s.map.buckets).map PARCHashMapEntry.key, ?_, ?_, fun k => ?_⟩
  · exact pairwise_map.mpr h.distinct
  · -- every element of the buckets refers to an entry
    rw [length_map, h.size, contents, length_filterMap_eq_countP, countP_eq_length]
    intro entry hen
    obtain ⟨e, he⟩ := h.live entry hen
    rw [he]
    rfl
  · rw [lookup, Option.isSome_map]
    simp only [find, find?_isSome, mem_map, exists_exists_and_eq_and]

theorem putEntry_conforms (hf : Fits keys key s.map.capacity) (value : V) :
    ∃ es' map', putEntry keys s.entries s.map key value = pure (es', map') ∧
      WellFormed keys es' map' ∧ lookup keys ⟨es', map'⟩ =
        (Call.update (.put key value)).apply keys (lookup keys s) := by
  rcases h.getEntry_cases hc hf with ⟨hn, ha⟩ | ⟨entry, e, hs, hm, he, heq⟩
  · obtain ⟨hwf, hp⟩ := h.append_entry hc value hf ha
    have hap : appendToBucket s.map.buckets (bucketIndex keys key s.map.capacity)
        s.entries.length = pure _ := appendToBucket_eq_pure.mpr
      ⟨hf, by rw [h.length]; exact bucketIndex_lt keys key h.capacity_pos, rfl⟩
    refine ⟨_, _, ?_, hwf, ?_⟩
    · rw [putEntry, hn]
      simp only [pure_bind, hap]
    · funext k
      rw [lookup_cons (s := ⟨_, _⟩) hc hwf hp]
      rw [hc.equality.comm k, hc.equality.congr_left (hc.copy key)]
      rfl
  · obtain ⟨hwf, rest, hp, hp'⟩ := h.set_value hc hm he value
    refine ⟨_, _, ?_, hwf, ?_⟩
    · rw [putEntry, hs]
      simp only [pure_bind, entryAt_eq_pure.mpr he]
    · funext k
      rw [lookup_cons (s := ⟨_, _⟩) hc hwf hp']
      show _ = if keys.equals key k then some value else lookup keys s k
      rw [lookup_cons hc h hp, hc.equality.comm k, ← hc.equality.congr_left heq]
      split <;> rfl

theorem put_conforms (hf : (Call.update (.put key value)).Fits keys s) :
    (Call.update (.put key value)).Conforms keys s := by
  simp only [Call.Fits] at hf
  -- the map after the test of the load factor
  obtain ⟨map1, hg, hwf1, hl, hf1⟩ : ∃ map1, (if 4 * s.map.size ≥ 3 * s.map.capacity then
        resize keys s.entries s.map (s.map.capacity * 2) else pure s.map) = pure map1 ∧
      WellFormed keys s.entries map1 ∧ lookup keys ⟨s.entries, map1⟩ = lookup keys s ∧
      Fits keys key map1.capacity := by
    split at hf
    · have hm := h.minCapacity_le
      have hp := h.capacity_pos
      obtain ⟨hwf, hpe⟩ := h.rehash hc (s.map.capacity * 2) (by omega) hf.1.2
      rw [if_pos ‹_›]
      exact ⟨_, (resize_eq_pure h.length (by omega) (by omega)).mpr
        ⟨hf.1.1, hf.1.2, rfl⟩, hwf, lookup_perm hc h hpe, hf.2⟩
    · rw [if_neg ‹_›]
      exact ⟨s.map, rfl, h, rfl, hf⟩
  obtain ⟨es', map', hpu, hwf', hl'⟩ := putEntry_conforms (s := ⟨s.entries, map1⟩) hc hwf1 hf1 value
  refine ⟨⟨es', map'⟩, .updated none, ?_, rfl, hl ▸ hl', hwf'⟩
  simp only [Call.run, Update.run, parcHashMapPut, hg, hpu, pure_bind]

theorem removeEntry_conforms (hf : Fits keys key s.map.capacity) :
    ∃ map', removeEntry keys s.entries s.map key = pure (map', (lookup keys s key).isSome) ∧
      WellFormed keys s.entries map' ∧ lookup keys ⟨s.entries, map'⟩ =
        (Call.update (.remove key)).apply keys (lookup keys s) := by
  have hl := h.live_chain (bucketIndex keys key s.map.capacity).toNat
  have hi := h.index_lt hf
  cases ha : (chain s.map.buckets (bucketIndex keys key s.map.capacity).toNat).any
      (holds keys s.entries key) with
  | false =>
    have hab : ∀ e ∈ contents s.entries s.map.buckets, keys.equals key e.key = false := by
      intro e he
      obtain ⟨entry, hen, hee⟩ := mem_contents.mp he
      rw [← Bool.not_eq_true]
      intro heq
      rw [← holds_eq hee] at heq
      exact any_eq_false.mp ha entry (h.mem_chain hc hen heq) heq
    rw [lookup_eq_none hab]
    refine ⟨s.map, ?_, h, ?_⟩
    · rw [h.removeEntry_eq hf, ha]
      rfl
    · funext k
      show _ = if keys.equals key k then none else lookup keys s k
      split
      · rename_i heq
        exact lookup_eq_none fun e he => by rw [← hc.equality.congr_left heq, hab e he]
      · rfl
  | true =>
    obtain ⟨p, hp, hh⟩ := any_eq_true.mp ha
    obtain ⟨entry, l1, l2, -, hen, hs, her⟩ := exists_of_eraseP hp hh
    have hm : entry ∈ chain s.map.buckets (bucketIndex keys key s.map.capacity).toNat := by
      rw [hs]
      exact mem_append_right _ (.head _)
    obtain ⟨e, he⟩ := hl entry hm
    rw [holds_eq he] at hen
    obtain ⟨hwf, hpe⟩ := h.erase_entry hc hi hs he
    have hfo := lookup_eq_some hc h (mem_contents.mpr ⟨entry, mem_elements.mpr ⟨_, hm⟩, he⟩) hen
    rw [hfo]
    refine ⟨_, ?_, hwf, ?_⟩
    · rw [h.removeEntry_eq hf, ha, her]
      rfl
    · funext k
      show _ = if keys.equals key k then none else lookup keys s k
      rw [lookup_cons hc h hpe, hc.equality.comm k, ← hc.equality.congr_left hen]
      split
      · rename_i heq
        have hd := h.distinct.perm hc.equality hpe
        have hke : keys.equals k e.key = true := by
          rw [hc.equality.comm, ← hc.equality.congr_left hen, heq]
        rw [lookup, hd.find_tail hc.equality hke]
        rfl
      · rfl

theorem remove_conforms (hf : (Call.update (.remove key) : Call K V).Fits keys s) :
    (Call.update (.remove key) : Call K V).Conforms keys s := by
  obtain ⟨map1, hr, hwf1, hl1⟩ := removeEntry_conforms hc h hf.1
  -- the map after the test of the load factor
  obtain ⟨map', hs, hwf', hl'⟩ : ∃ map',
      (if 4 * map1.size ≤ map1.capacity then resize keys s.entries map1 (map1.capacity / 2)
        else pure map1) = pure map' ∧
      WellFormed keys s.entries map' ∧
      lookup keys ⟨s.entries, map'⟩ = lookup keys ⟨s.entries, map1⟩ := by
    by_cases hl : 4 * map1.size ≤ map1.capacity
    · rw [if_pos hl]
      by_cases hm : map1.minCapacity ≤ map1.capacity / 2
      · obtain ⟨hsm, hmo⟩ := hf.2 _ _ hr hl hm
        obtain ⟨hwf, hp⟩ := hwf1.rehash hc _ hm hmo
        exact ⟨_, (resize_eq_pure hwf1.length (Nat.lt_of_lt_of_le hwf1.minCapacity_pos hm)
          hm).mpr ⟨hsm, hmo, rfl⟩, hwf, lookup_perm (s := ⟨s.entries, map1⟩) hc hwf1 hp⟩
      · exact ⟨map1, if_pos (Nat.lt_of_not_le hm), hwf1, rfl⟩
    · rw [if_neg hl]
      exact ⟨map1, rfl, hwf1, rfl⟩
  refine ⟨⟨s.entries, map'⟩, .updated (some (lookup keys s key).isSome), ?_, rfl,
    hl'.trans hl1, hwf'⟩
  simp only [Call.run, Update.run, parcHashMapRemove, hr, hs, pure_bind]

theorem Call.conforms (call : Call K V) (hf : call.Fits keys s) : call.Conforms keys s := by
  cases call with
  | update u =>
    cases u with
    | put key value => exact put_conforms hc h hf
    | remove key => exact remove_conforms hc h hf
  | get key => exact get_conforms hc h hf
  | contains key => exact contains_conforms hc h hf
  | size => exact size_conforms h

/-! ## Calls that do not return -/

omit hc h in
theorem fits_of_getEntry {e}
    (hg : getEntry keys s.entries s.map key = pure e) : Fits keys key s.map.capacity := by
  by_contra hn
  rw [getEntry_faults hn] at hg
  exact throw_ne_pure hg

theorem Call.fits_of_run (call : Call K V) {res}
    (hr : call.run keys s = pure (s', res)) : call.Fits keys s := by
  cases call with
  | update u =>
    obtain ⟨⟨s1, removed⟩, hu, -⟩ := bind_eq_pure.mp hr
    cases u with
    | put key value =>
      obtain ⟨r, hp, -⟩ := bind_eq_pure.mp hu
      obtain ⟨map1, hg, he⟩ := bind_eq_pure.mp hp
      obtain ⟨e, hge, -⟩ := bind_eq_pure.mp he
      have hf := fits_of_getEntry (s := ⟨s.entries, map1⟩) hge
      have hm := h.minCapacity_le
      have hpo := h.capacity_pos
      simp only [Call.Fits]
      split
      · rw [if_pos ‹_›] at hg
        obtain ⟨hs, hmo, rfl⟩ := (resize_eq_pure h.length (by omega) (by omega)).mp hg
        exact ⟨⟨hs, hmo⟩, hf⟩
      · rw [if_neg ‹_›, pure_inj] at hg
        exact hg ▸ hf
    | remove key =>
      obtain ⟨r, hre, -⟩ := bind_eq_pure.mp hu
      obtain ⟨⟨map1, removed1⟩, he, hrs⟩ := bind_eq_pure.mp hre
      obtain ⟨map2, hsh, -⟩ := bind_eq_pure.mp hrs
      obtain ⟨l, hb, -⟩ := bind_eq_pure.mp he
      have hf : HashMap.Fits keys key s.map.capacity := (bucketAt_eq_pure.mp hb).1
      refine ⟨hf, fun map removed heq hl hm => ?_⟩
      cases he.symm.trans heq
      obtain ⟨map', hr', hwf', -⟩ := removeEntry_conforms hc h hf
      cases he.symm.trans hr'
      rw [if_pos hl] at hsh
      obtain ⟨hs, hmo, -⟩ := (resize_eq_pure hwf'.length
        (Nat.lt_of_lt_of_le hwf'.minCapacity_pos hm) hm).mp hsh
      exact ⟨hs, hmo⟩
  | get key | contains key =>
    obtain ⟨value, hge, -⟩ := bind_eq_pure.mp hr
    obtain ⟨e, he, -⟩ := bind_eq_pure.mp hge
    exact fits_of_getEntry he
  | size => trivial

/-! ## Whole runs -/

theorem fitsCalls_iff (cs : List (Call K V)) :
    FitsCalls keys s cs ↔ ∃ s' rs, runCalls keys s cs = pure (s', rs) ∧
      MeetsCalls keys (lookup keys s) cs rs ∧ lookup keys s' = applyCalls keys (lookup keys s) cs ∧
      WellFormed keys s'.entries s'.map := by
  induction cs generalizing s with
  | nil => exact ⟨fun _ => ⟨s, [], rfl, rfl, rfl, h⟩, fun _ => trivial⟩
  | cons call cs ih =>
    constructor
    · rintro ⟨hf, hr⟩
      obtain ⟨s1, res, hru, hm, hl, hwf⟩ := call.conforms hc h hf
      obtain ⟨s', rs, hrn, hm', hl', hwf'⟩ := (ih hwf).mp (hr s1 res hru)
      rw [hl] at hm' hl'
      refine ⟨s', res :: rs, ?_, ⟨res, rs, rfl, hm, hm'⟩, hl', hwf'⟩
      simp only [runCalls, hru, hrn, pure_bind]
    · rintro ⟨s', rs, hrn, hm, hl, hwf⟩
      obtain ⟨⟨s1, res⟩, hru, hr⟩ := bind_eq_pure.mp hrn
      obtain ⟨⟨s2, rs1⟩, hr1, heq⟩ := bind_eq_pure.mp hr
      obtain ⟨rfl, rfl⟩ := Prod.mk.inj (pure_inj.mp heq)
      have hf := call.fits_of_run hc h hru
      obtain ⟨s1', r', hr', hm', hl', hwf'⟩ := call.conforms hc h hf
      obtain ⟨rfl, rfl⟩ := Prod.mk.inj (pure_inj.mp (hru.symm.trans hr'))
      refine ⟨hf, fun s3 r3 hr3 => ?_⟩
      obtain ⟨rfl, rfl⟩ := Prod.mk.inj (pure_inj.mp (hru.symm.trans hr3))
      obtain ⟨r, rest, hco, -, hm1⟩ := hm
      obtain ⟨rfl, rfl⟩ := cons.inj hco
      refine (ih hwf').mpr ⟨s2, rs1, hr1, ?_, ?_, hwf⟩
      all_goals rwa [hl']

end

theorem start_wellFormed (keys : KeyObject K) (cap : UInt32) :
    WellFormed keys (start cap : State K V).entries (start cap : State K V).map := by
  have h := start_loaded (K := K) (V := V) cap
  have he : elements (start cap : State K V).map.buckets = [] := elements_replicate _
  refine ⟨h.initial_pos, Nat.le_refl _, h.length, ?_, placed_replicate _ _, ?_, ?_, h.size⟩
  · rw [he]
    exact fun e hen => absurd hen not_mem_nil
  · rw [he]
    exact nodup_nil
  · rw [contents, he]
    exact List.Pairwise.nil

/-- **A hash map is a finite map**, exactly in the runs in which every bucket
number is in range: such a run returns, its results are those of the finite map,
which can be read from the buckets afterwards, and every entry is in its bucket,
once. -/
theorem runCalls_finiteMap_iff (hc : keys.Consistent) (capacity : UInt32)
    (calls : List (Call K V)) :
    FitsCalls keys (start capacity) calls ↔
      ∃ s results, runCalls keys (start capacity) calls = pure (s, results) ∧
        MeetsCalls keys (fun _ => none) calls results ∧
        lookup keys s = applyCalls keys (fun _ => none) calls ∧
        WellFormed keys s.entries s.map := by
  have he : lookup keys (start capacity : State K V) = fun _ => none := by
    funext k
    have hel : elements (start capacity : State K V).map.buckets = [] := elements_replicate _
    rw [lookup, contents, hel]
    rfl
  have h := fitsCalls_iff hc (start_wellFormed (V := V) keys capacity) calls
  rwa [he] at h

/-! ## Runs of a moderate length

With at most 2 ^ 29 calls on a map of at most 2 ^ 31 buckets there are never
more buckets than an `int` can number. -/

section
variable {hm : PARCHashMap} {init : Nat}

theorem Update.run_size {r} (u : Update K V) (hl : Loaded init s.map)
    (h : u.run keys s = pure (s', r)) : s'.map.size ≤ s.map.size + 1 := by
  cases u with
  | put key value =>
    obtain ⟨⟨es', map'⟩, hp, heq⟩ := bind_eq_pure.mp h
    cases heq
    obtain ⟨-, -, -, hs⟩ | ⟨_, _, -, -, -, -, hs⟩ := put_effect hl hp
    · exact Nat.le_of_eq hs
    · exact Nat.le_succ_of_le (Nat.le_of_eq hs)
  | remove key =>
    obtain ⟨⟨map', removed⟩, hr, heq⟩ := bind_eq_pure.mp h
    cases heq
    exact Nat.le_succ_of_le (remove_effect hl hr).2

theorem WellFormed.resizeFits {entries : Entries K V} (h : WellFormed keys entries hm)
    (hca : hm.capacity < 2 ^ 32) {newCapacity} (hp : 0 < newCapacity)
    (hn : newCapacity ≤ 2 ^ 31) : ResizeFits keys entries hm newCapacity := by
  refine ⟨hca, fun entry hen => ?_⟩
  obtain ⟨e, he⟩ := h.live entry hen
  exact ⟨e, he, fits_of_le hp hn⟩

theorem Call.fits_of_small (hc : keys.Consistent) (h : WellFormed keys s.entries s.map)
    (hl : Loaded init s.map) (hi : init ≤ 2 ^ 31) (hs : s.map.size ≤ 2 ^ 29)
    (call : Call K V) : call.Fits keys s := by
  have hlo := hl.lower
  have hp := h.capacity_pos
  have hca : s.map.capacity ≤ 2 ^ 31 := by omega
  have hf : ∀ key, HashMap.Fits keys key s.map.capacity := fun key => fits_of_le hp hca
  cases call with
  | update u =>
    cases u with
    | put key value =>
      simp only [Call.Fits]
      split
      · exact ⟨h.resizeFits (by omega) (by omega) (by omega), fits_of_le (by omega) (by omega)⟩
      · exact hf key
    | remove key =>
      refine ⟨hf key, fun map removed heq _ hm => ?_⟩
      obtain ⟨map', hr, hwf, -⟩ := removeEntry_conforms hc h (hf key)
      cases heq.symm.trans hr
      have hsa : map.capacity = s.map.capacity := by
        cases removeEntry_inv heq with
        | nothing | entry => rfl
      exact hwf.resizeFits (by omega) (Nat.lt_of_lt_of_le hwf.minCapacity_pos hm) (by omega)
  | get key | contains key => exact hf key
  | size => trivial

theorem fitsCalls_of_small (hc : keys.Consistent) (hi : init ≤ 2 ^ 31)
    (calls : List (Call K V)) (h : WellFormed keys s.entries s.map) (hl : Loaded init s.map)
    (hs : s.map.size + calls.length ≤ 2 ^ 29) : FitsCalls keys s calls := by
  induction calls generalizing s with
  | nil => trivial
  | cons call calls ih =>
    rw [length_cons] at hs
    have hf := call.fits_of_small hc h hl hi (by omega)
    refine ⟨hf, fun s' r hr => ?_⟩
    obtain ⟨s1, r1, hr1, -, -, hwf⟩ := call.conforms hc h hf
    cases hr.symm.trans hr1
    -- only an update changes the map
    have hn : Loaded init s'.map ∧ s'.map.size ≤ s.map.size + 1 := by
      cases call with
      | update u =>
        obtain ⟨⟨s2, removed⟩, hu, heq⟩ := bind_eq_pure.mp hr
        cases heq
        exact ⟨(u.run_loaded hl hu).1, u.run_size hl hu⟩
      | get key | contains key =>
        obtain ⟨value, -, heq⟩ := bind_eq_pure.mp hr
        cases heq
        exact ⟨hl, Nat.le_succ _⟩
      | size =>
        cases hr
        exact ⟨hl, Nat.le_succ _⟩
    exact ih hwf hn.1 (by omega)

end

/-! ## Numbers as keys -/

def numberKeys : KeyObject Nat where
  hashCode n := UInt64.ofNat n
  equals m n := m == n
  copy n := n

theorem numberKeys_consistent : numberKeys.Consistent where
  equality := equality_beq Nat
  hash _ _ h := congrArg UInt64.ofNat (eq_of_beq h)
  copy k := beq_self_eq_true k

theorem runCalls_finiteMap_two : ∃ s results,
    runCalls numberKeys (start 0) [.update (.put 1 "a"), .update (.put 44 "b"),
      .update (.remove 1), .get 44, .get 1, .contains 1] = pure (s, results) ∧
    MeetsCalls numberKeys (fun _ => none) [.update (.put 1 "a"), .update (.put 44 "b"),
      .update (.remove 1), .get 44, .get 1, .contains 1] results ∧
    lookup numberKeys s = applyCalls numberKeys (fun _ => none) [.update (.put 1 "a"),
      .update (.put 44 "b"), .update (.remove 1), .get 44, .get 1, .contains 1] ∧
    WellFormed numberKeys s.entries s.map :=
  (runCalls_finiteMap_iff numberKeys_consistent 0 _).mp
    (fitsCalls_of_small numberKeys_consistent (by decide) _ (start_wellFormed _ _)
      (start_loaded 0) (by decide))

/-- The remainder 2 ^ 31 is a negative bucket number: a map of 2 ^ 32 - 1 buckets
cannot take a key with this hash code. -/
theorem put_reads_before_buckets :
    runCalls numberKeys (start 4294967295) [.update (.put 2147483648 "a"), .get 2147483648] =
      throw .memoryFault := by
  have hf : ¬ Fits numberKeys 2147483648 4294967295 := by decide
  have hs : (start 4294967295 : State Nat String).map.size = 0 := rfl
  rfl

end Libparc.HashMap
