import Libparc.Algol.HashMap

/-! # The capacity of a hash map and the cost of resizing

How full a map is and how often its entries are moved depends on nothing but
the numbers: `Loaded` is what every update that returns keeps of them, and
`potential` is what has been saved up for the next resize. -/
namespace Libparc.HashMap
open Chaining Exec List

variable {K V : Type} {keys : KeyObject K} {es es' : Entries K V}
  {m m' : PARCHashMap} {key : K} {value : V} {init : Nat}

/-- The size is that of the buckets, the capacity a power of two times the
initial one, and the load is within its bounds. -/
structure Loaded (initial : Nat) (hashMap : PARCHashMap) : Prop where
  initial_pos : 0 < initial
  minCapacity : hashMap.minCapacity = initial
  length : hashMap.buckets.length = hashMap.capacity
  power : ∃ k, hashMap.capacity = initial * 2 ^ k
  size : hashMap.size = (elements hashMap.buckets).length
  upper : 4 * hashMap.size < 3 * hashMap.capacity + 4
  lower : initial < hashMap.capacity → hashMap.capacity < 4 * hashMap.size

/-- Four times what is left for resizing: three moves for each entry above
half of the capacity, and two for each entry missing to three eighths of it
unless the map is as small as it was. -/
def potential (hashMap : PARCHashMap) : Nat :=
  (12 * hashMap.size - 6 * hashMap.capacity) +
    if hashMap.minCapacity < hashMap.capacity then 3 * hashMap.capacity - 8 * hashMap.size else 0

/-- An update moves no more entries than its share and what was saved up. -/
def Paid (share : Nat) (hashMap hashMap' : PARCHashMap) : Prop :=
  4 * hashMap'.moved + potential hashMap' ≤ 4 * hashMap.moved + potential hashMap + share

/-! ## What the parts of an update do to the numbers -/

theorem elements_rehashed {n} (hc : 0 < n) (h : ∀ e ∈ elements m.buckets, Movable keys es n e) :
    (elements (rehashed keys es m n).buckets).Perm (elements m.buckets) := by
  refine (elements_distribute fun e he => ?_).trans ?_
  · rw [length_replicate]
    exact (h e he).home_lt hc
  · rw [elements_replicate, append_nil]

theorem length_rehashed (newCapacity : Nat) :
    (rehashed keys es m newCapacity).buckets.length = newCapacity := by
  rw [rehashed, length_distribute, length_replicate]

/-- What `parcHashMap_Put` does after the test of the load factor. -/
inductive Puts (keys : KeyObject K) (entries : Entries K V) (hashMap : PARCHashMap) (key : K)
    (value : V) : Entries K V → PARCHashMap → Prop
  | set {entry : Ptr} {e : PARCHashMapEntry K V} :
    getEntry keys entries hashMap key = pure (some entry) → entries[entry]? = some e →
      Puts keys entries hashMap key value (entries.set entry { e with value }) hashMap
  | append : getEntry keys entries hashMap key = pure none →
    (bucketIndex keys key hashMap.capacity).toNat < hashMap.buckets.length →
      Puts keys entries hashMap key value (entries ++ [⟨keys.copy key, value⟩]) { hashMap with
        buckets := append hashMap.buckets (bucketIndex keys key hashMap.capacity).toNat
          entries.length
        size := hashMap.size + 1 }

theorem putEntry_inv (h : putEntry keys es m key value = pure (es', m')) :
    Puts keys es m key value es' m' := by
  obtain ⟨found, hg, hp⟩ := bind_eq_pure.mp h
  cases found with
  | some entry =>
    obtain ⟨e, he, heq⟩ := bind_eq_pure.mp hp
    cases heq
    exact .set hg (entryAt_eq_pure.mp he)
  | none =>
    obtain ⟨buckets, ha, heq⟩ := bind_eq_pure.mp hp
    obtain ⟨h0, hlt, rfl⟩ := appendToBucket_eq_pure.mp ha
    cases heq
    exact .append hg (by omega)

/-- One entry is taken out of a list, or nothing is. -/
inductive Removes (hashMap : PARCHashMap) : PARCHashMap → Prop
  | nothing : Removes hashMap hashMap
  | entry {i : Nat} {before after : List Ptr} {entry : Ptr} :
    hashMap.buckets.getD i none = some (before ++ entry :: after) →
      Removes hashMap { hashMap with
        buckets := hashMap.buckets.set i (some (before ++ after)), size := hashMap.size - 1 }

theorem removeFromList_inv {l l'} (h : removeFromList keys es key l = pure (some l')) :
    ∃ before entry after, l = before ++ entry :: after ∧ l' = before ++ after := by
  induction l generalizing l' with
  | nil => cases h
  | cons entry l ih =>
    obtain ⟨e, -, hr⟩ := bind_eq_pure.mp h
    split at hr
    · cases hr
      exact ⟨[], entry, l, rfl, rfl⟩
    · obtain ⟨found, hf, heq⟩ := bind_eq_pure.mp hr
      obtain ⟨l1, rfl, rfl⟩ := Option.map_eq_some_iff.mp (pure_inj.mp heq)
      obtain ⟨before, p, after, rfl, rfl⟩ := ih hf
      exact ⟨entry :: before, p, after, rfl, rfl⟩

theorem removeEntry_inv {removed} (h : removeEntry keys es m key = pure (m', removed)) :
    Removes m m' := by
  obtain ⟨found, hb, hr⟩ := bind_eq_pure.mp h
  obtain ⟨-, -, hf⟩ := bucketAt_eq_pure.mp hb
  cases found with
  | none =>
    cases hr
    exact .nothing
  | some l =>
    obtain ⟨kept, hk, heq⟩ := bind_eq_pure.mp hr
    cases kept with
    | none =>
      cases heq
      exact .nothing
    | some l' =>
      cases heq
      obtain ⟨before, e, after, rfl, rfl⟩ := removeFromList_inv hk
      exact .entry hf.symm

/-! ## What an update does to the load -/

section
variable (h : Loaded init m)
include h

theorem Loaded.le : init ≤ m.capacity := by
  obtain ⟨k, hk⟩ := h.power
  rw [hk]
  exact Nat.le_mul_of_pos_right _ (Nat.two_pow_pos k)

theorem Loaded.half (hle : init ≤ m.capacity / 2) : ∃ k, m.capacity = 2 * (init * 2 ^ k) := by
  obtain ⟨k, hk⟩ := h.power
  have := h.initial_pos
  cases k with
  | zero => omega
  | succ k => exact ⟨k, by rw [hk, Nat.pow_succ, Nat.mul_comm (2 ^ k), Nat.mul_left_comm]⟩

theorem Loaded.grow (hf : 4 * m.size ≥ 3 * m.capacity)
    (hr : resize keys es m (m.capacity * 2) = pure m') :
    Loaded init m' ∧ Paid 0 m m' ∧ 4 * m'.size < 3 * m'.capacity := by
  obtain ⟨hp, hm, hl, ⟨k, hk⟩, hs, hu, hlo⟩ := id h
  have hle := h.le
  obtain ⟨-, hmo, rfl⟩ := (resize_eq_pure hl (by omega) (by omega)).mp hr
  have helements := (elements_rehashed (by omega) hmo).length_eq
  refine ⟨⟨hp, hm, length_rehashed _, ⟨k + 1, ?_⟩, ?_, ?_, ?_⟩, ?_, ?_⟩
  · rw [Nat.pow_succ, ← Nat.mul_assoc, ← hk]
    rfl
  · exact hs.trans helements.symm
  · simp only [rehashed]
    omega
  · simp only [rehashed]
    omega
  · simp only [Paid, potential, rehashed, ← hs]
    split_ifs <;> omega
  · show 4 * m.size < 3 * (m.capacity * 2)
    rcases Nat.lt_or_ge m.capacity 2 with ho | ht
    · omega
    · omega

theorem Loaded.insert (hr : 4 * m.size < 3 * m.capacity)
    {i} (hi : i < m.buckets.length) (e : Ptr) :
    let m' := { m with
      buckets := append m.buckets i e, size := m.size + 1 }
    Loaded init m' ∧ Paid 12 m m' := by
  obtain ⟨hp, hm, hl, hpo, hs, hu, hlo⟩ := h
  refine ⟨⟨hp, hm, (length_append _ _ _).trans hl, hpo, ?_, ?_, ?_⟩, ?_⟩
  · rw [(elements_append hi e).length_eq, length_cons, ← hs]
  · show 4 * (m.size + 1) < 3 * m.capacity + 4
    omega
  · show init < m.capacity → m.capacity < 4 * (m.size + 1)
    omega
  · simp only [Paid, potential]
    split_ifs <;> omega

end

theorem Paid.refl (share : Nat) (m : PARCHashMap) : Paid share m m := Nat.le_add_right _ _

theorem Paid.trans {share m1} (h1 : Paid 0 m m1) (h2 : Paid share m1 m') : Paid share m m' := by
  unfold Paid at *
  omega

theorem put_loaded (h : Loaded init m) (hp : parcHashMapPut keys es m key value = pure (es', m')) :
    Loaded init m' ∧ Paid 12 m m' := by
  obtain ⟨m1, hr, he⟩ := bind_eq_pure.mp hp
  obtain ⟨h1, hpa, hro⟩ : Loaded init m1 ∧ Paid 0 m m1 ∧ 4 * m1.size < 3 * m1.capacity := by
    split at hr
    · exact h.grow ‹_› hr
    · cases hr
      exact ⟨h, Paid.refl 0 _, by omega⟩
  cases putEntry_inv he with
  | set => exact ⟨h1, hpa.trans (Paid.refl 12 _)⟩
  | append _ hi =>
    obtain ⟨h', hp'⟩ := h1.insert hro hi es.length
    exact ⟨h', hpa.trans hp'⟩

section
variable {buckets : Chains Ptr} (h : Loaded init m)
  (hb : buckets.length = m.buckets.length)
  (he : (elements m.buckets).length = (elements buckets).length + 1)
include h hb he

theorem Loaded.erase (hl : m.capacity = init ∨ m.capacity < 4 * (m.size - 1)) :
    let m' := { m with buckets, size := m.size - 1 }
    Loaded init m' ∧ Paid 12 m m' := by
  obtain ⟨hp, hm, hle, hpo, hs, hu, hlo⟩ := h
  refine ⟨⟨hp, hm, hb.trans hle, hpo, ?_, ?_, ?_⟩, ?_⟩
  · show m.size - 1 = (elements buckets).length
    omega
  · show 4 * (m.size - 1) < 3 * m.capacity + 4
    omega
  · show init < m.capacity → m.capacity < 4 * (m.size - 1)
    omega
  · simp only [Paid, potential, hm]
    split_ifs <;> omega

theorem Loaded.shrink (hl : 4 * (m.size - 1) ≤ m.capacity)
    (hr : resize keys es { m with buckets, size := m.size - 1 } (m.capacity / 2) = pure m') :
    Loaded init m' ∧ Paid 12 m m' := by
  obtain ⟨hp, hm, hle, hpo, hs, hu, hlo⟩ := id h
  have hs' : m.size - 1 = (elements buckets).length := by omega
  by_cases hh : init ≤ m.capacity / 2
  · obtain ⟨k, hk⟩ := h.half hh
    obtain ⟨-, hmo, rfl⟩ := (resize_eq_pure (hb.trans hle) (by omega) (by rw [hm]; exact hh)).mp hr
    have hc := (elements_rehashed (by omega) hmo).length_eq
    -- a capacity that can be halved twice is a multiple of four, so the size is exactly a quarter
    refine ⟨⟨hp, hm, length_rehashed _, ⟨k, ?_⟩, ?_, ?_, ?_⟩, ?_⟩
    · show m.capacity / 2 = init * 2 ^ k
      omega
    · exact hs'.trans hc.symm
    · show 4 * (m.size - 1) < 3 * (m.capacity / 2) + 4
      omega
    · show init < m.capacity / 2 → m.capacity / 2 < 4 * (m.size - 1)
      omega
    · simp only [Paid, potential, rehashed, ← hs', hm]
      split_ifs <;> omega
  · rw [resize, if_pos (by rw [hm]; omega)] at hr
    cases hr
    refine h.erase hb he (.inl ?_)
    obtain ⟨k, hk⟩ := hpo
    cases k with
    | zero => rw [hk, Nat.pow_zero, Nat.mul_one]
    | succ k =>
      have hpw : init ≤ init * 2 ^ k := Nat.le_mul_of_pos_right _ (Nat.two_pow_pos k)
      rw [Nat.pow_succ, ← Nat.mul_assoc] at hk
      omega

end

theorem elements_removed {i before after e}
    (h : m.buckets.getD i none = some (before ++ e :: after)) :
    (elements m.buckets).Perm (e :: elements (m.buckets.set i (some (before ++ after)))) :=
  elements_set_erase (chain_of_getD h).1 (chain_of_getD h).2

theorem remove_loaded {removed} (h : Loaded init m)
    (hr : parcHashMapRemove keys es m key = pure (m', removed)) :
    Loaded init m' ∧ Paid 12 m m' := by
  obtain ⟨⟨m1, removed1⟩, he, hre⟩ := bind_eq_pure.mp hr
  obtain ⟨m2, hrs, heq⟩ := bind_eq_pure.mp hre
  cases heq
  cases removeEntry_inv he with
  | nothing =>
    -- without a removal the load is too low only in a map that is as small as it was
    have hs : m' = m := by
      split at hrs
      · have hm := h.minCapacity
        have hl := h.lower
        have hp := h.initial_pos
        rw [resize, if_pos (by omega)] at hrs
        exact (pure_inj.mp hrs).symm
      · exact (pure_inj.mp hrs).symm
    rw [hs]
    exact ⟨h, Paid.refl 12 _⟩
  | entry hli =>
    have hc := (elements_removed hli).length_eq
    split at hrs
    · exact h.shrink length_set hc ‹_› hrs
    · cases hrs
      exact h.erase length_set hc (.inr (Nat.lt_of_not_le ‹_›))

/-! ## What an update does to the entries -/

theorem resize_keeps {c : Prop} [Decidable c] {n}
    (h : (if c then resize keys es m n else pure m) = pure m')
    (hl : m.buckets.length = m.capacity) (hm : 0 < m.minCapacity) :
    (elements m'.buckets).Perm (elements m.buckets) ∧ m'.size = m.size := by
  split at h
  · by_cases hle : m.minCapacity ≤ n
    · have hc := Nat.lt_of_lt_of_le hm hle
      obtain ⟨-, hmo, rfl⟩ := (resize_eq_pure hl hc hle).mp h
      exact ⟨elements_rehashed hc hmo, rfl⟩
    · rw [resize, if_pos (Nat.lt_of_not_le hle)] at h
      cases h
      exact ⟨.refl _, rfl⟩
  · cases h
    exact ⟨.refl _, rfl⟩

theorem Loaded.minCapacity_pos (h : Loaded init m) : 0 < m.minCapacity := by
  rw [h.minCapacity]
  exact h.initial_pos

/-- The test of the load factor at the beginning of `parcHashMap_Put`. -/
def grown (keys : KeyObject K) (entries : Entries K V) (hashMap : PARCHashMap) :
    Prog PARCHashMap :=
  if 4 * hashMap.size ≥ 3 * hashMap.capacity then
    resize keys entries hashMap (hashMap.capacity * 2)
  else pure hashMap

/-- The entry that `parcHashMap_Put` finds for the key. -/
def putTarget (keys : KeyObject K) (entries : Entries K V) (hashMap : PARCHashMap) (key : K) :
    Prog (Option Ptr) := do
  let hashMap ← grown keys entries hashMap
  getEntry keys entries hashMap key

theorem put_effect (h : Loaded init m) (hp : parcHashMapPut keys es m key value = pure (es', m')) :
    (putTarget keys es m key = pure none ∧ es' = es ++ [⟨keys.copy key, value⟩] ∧
      (elements m'.buckets).Perm (es.length :: elements m.buckets) ∧ m'.size = m.size + 1) ∨
    ∃ entry e, putTarget keys es m key = pure (some entry) ∧
      es[entry]? = some e ∧ es' = es.set entry { e with value } ∧
      (elements m'.buckets).Perm (elements m.buckets) ∧
      m'.size = m.size := by
  obtain ⟨m1, hg, hen⟩ := bind_eq_pure.mp hp
  obtain ⟨hpe, hs⟩ := resize_keeps hg h.length h.minCapacity_pos
  have ht (found : Option Ptr) (hge : getEntry keys es m1 key = pure found) :
      putTarget keys es m key = pure found :=
    bind_eq_pure.mpr ⟨m1, hg, hge⟩
  cases putEntry_inv hen with
  | append hge hi =>
    refine .inl ⟨ht _ hge, rfl, ?_, congrArg (· + 1) hs⟩
    exact (elements_append hi _).trans (hpe.cons _)
  | set hge he => exact .inr ⟨_, _, ht _ hge, he, rfl, hpe, hs⟩

theorem remove_effect (h : Loaded init m) {removed}
    (hr : parcHashMapRemove keys es m key = pure (m', removed)) :
    elements m'.buckets ⊆ elements m.buckets ∧ m'.size ≤ m.size := by
  obtain ⟨⟨m1, removed1⟩, he, hre⟩ := bind_eq_pure.mp hr
  obtain ⟨m2, hrs, heq⟩ := bind_eq_pure.mp hre
  cases heq
  cases removeEntry_inv he with
  | nothing =>
    obtain ⟨hpe, hs⟩ := resize_keeps hrs h.length h.minCapacity_pos
    exact ⟨hpe.subset, Nat.le_of_eq hs⟩
  | entry hl =>
    obtain ⟨hpe, hs⟩ := resize_keeps hrs (length_set.trans h.length) h.minCapacity_pos
    refine ⟨fun p hp => ?_, hs ▸ Nat.sub_le _ _⟩
    exact (elements_removed hl).mem_iff.mpr (.tail _ (hpe.subset hp))

/-! ## Whole runs -/

theorem Update.run_loaded {s s' r} (u : Update K V)
    (h : Loaded init s.map) (hr : u.run keys s = pure (s', r)) :
    Loaded init s'.map ∧ Paid 12 s.map s'.map := by
  cases u with
  | put key value =>
    obtain ⟨⟨es', map'⟩, hp, heq⟩ := bind_eq_pure.mp hr
    cases heq
    exact put_loaded h hp
  | remove key =>
    obtain ⟨⟨map', removed⟩, hre, heq⟩ := bind_eq_pure.mp hr
    cases heq
    exact remove_loaded h hre

/-- The state after the updates, or after those before the first one that does
not return. -/
def runUpdates (keys : KeyObject K) : State K V → List (Update K V) → State K V
  | s, [] => s
  | s, u :: updates =>
    match (u.run keys s).run with
    | some (.ok (s', _)) => runUpdates keys s' updates
    | _ => s

theorem runUpdates_loaded (keys : KeyObject K) (us : List (Update K V)) {s}
    (h : Loaded init s.map) :
    Loaded init (runUpdates keys s us).map ∧
      Paid (12 * us.length) s.map (runUpdates keys s us).map := by
  induction us generalizing s with
  | nil => exact ⟨h, Paid.refl _ _⟩
  | cons u us ih =>
    unfold runUpdates
    split
    · rename_i s' r hr
      obtain ⟨h1, hp1⟩ := u.run_loaded h hr
      obtain ⟨h', hp'⟩ := ih h1
      refine ⟨h', ?_⟩
      unfold Paid at *
      rw [length_cons]
      omega
    · exact ⟨h, Paid.refl _ _⟩

/-- The capacity a new map is created with. -/
def initialCapacity (capacity : UInt32) : Nat :=
  if capacity = 0 then defaultCapacity else capacity.toNat

theorem start_loaded (capacity : UInt32) :
    Loaded (initialCapacity capacity) (start capacity : State K V).map := by
  have hp : 0 < initialCapacity capacity := by
    unfold initialCapacity
    split
    · decide
    · exact Nat.pos_of_ne_zero fun h => ‹¬ _› (UInt32.toNat_inj.mp h)
  refine ⟨hp, rfl, length_replicate, ⟨0, (Nat.mul_one _).symm⟩, ?_, ?_, ?_⟩
  · exact (congrArg length (elements_replicate (α := Ptr) _)).symm
  · show 4 * 0 < _
    omega
  · exact fun hlt => absurd hlt (Nat.lt_irrefl _)

/-- After any updates of a new map, its capacity is the initial one times a
power of two, its size is below three quarters of it plus one, and above a
quarter if it has grown, and resizing has moved at most three entries for each
update. -/
theorem runUpdates_load (keys : KeyObject K) (capacity : UInt32) (updates : List (Update K V)) :
    let map := (runUpdates keys (start capacity) updates).map
    (∃ k, map.capacity = initialCapacity capacity * 2 ^ k) ∧ 4 * map.size < 3 * map.capacity + 4 ∧
      (map.capacity > initialCapacity capacity → 4 * map.size > map.capacity) ∧
      map.moved ≤ 3 * updates.length := by
  obtain ⟨h, hp⟩ := runUpdates_loaded keys updates (start_loaded (V := V) capacity)
  refine ⟨h.power, h.upper, h.lower, ?_⟩
  have hz : potential (start capacity : State K V).map = 0 := by
    simp [potential, start, parcHashMapCreateCapacity]
  have hm : (start capacity : State K V).map.moved = 0 := rfl
  unfold Paid at hp
  omega

end Libparc.HashMap
