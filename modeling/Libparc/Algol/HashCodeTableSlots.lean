import Libparc.Algol.HashCodeTable

/-! # The slots of a hash code table

What a table stores, its loops as probes, and well-formed tables. An expansion
puts every entry in the first free slot of its path and never frees one, so no
key of an expanded table lies behind a free slot. -/
namespace Libparc.HashCodeTable
open Probing LinearAddressingHashTable List Option Bool

variable {K D : Type} {keys : KeyFunctions K} {t : LinearAddressingHashTable K D}
variable {e f : HashTableEntry K D} {key : K} {i j : Nat}

/-! ## Slots -/

theorem entry_eq_some : t.entry i = some e ↔ t.entries[i]? = some (some e) := by
  unfold entry
  rw [getD_eq_getElem?_getD]
  cases t.entries[i]? <;> simp

theorem lt_of_entry (h : t.entry i = some e) : i < t.tableLimit :=
  (List.getElem?_eq_some_iff.mp (entry_eq_some.mp h)).1

theorem mem_entries : some e ∈ t.entries ↔ ∃ i, t.entry i = some e := by
  simp only [mem_iff_getElem?, entry_eq_some]

theorem getElem_eq_entry (hi : i < t.entries.length) : t.entries[i] = t.entry i := by
  unfold entry
  rw [getD_eq_getElem?_getD, getElem?_eq_getElem hi, getD_some]

@[simp] theorem tableLimit_cleared (n : Nat) :
    (cleared n : LinearAddressingHashTable K D).tableLimit = n := length_replicate

@[simp] theorem entry_cleared (n i : Nat) :
    (cleared n : LinearAddressingHashTable K D).entry i = none := by
  simp only [cleared, entry, getD_eq_getElem?_getD, getElem?_replicate]
  split <;> rfl

@[simp] theorem tableLimit_store : (t.store i e).tableLimit = t.tableLimit := length_set

@[simp] theorem tableLimit_clear : (t.clear i).tableLimit = t.tableLimit := length_set

theorem entry_store (hi : i < t.tableLimit) :
    (t.store i e).entry j = if i = j then some e else t.entry j := by
  simp only [store, entry, getD_eq_getElem?_getD, getElem?_set]
  split
  · exact congrArg (getD · none) (if_pos hi)
  · rfl

theorem entry_clear : (t.clear i).entry j = if i = j then none else t.entry j := by
  simp only [clear, entry, getD_eq_getElem?_getD, getElem?_set]
  split
  · split <;> rfl
  · rfl

theorem countP_store (hi : i < t.entries.length) (hf : t.entry i = none) :
    (t.store i e).entries.countP isSome = t.entries.countP isSome + 1 := by
  simp only [store]
  rw [countP_set hi, getElem_eq_entry hi, hf]
  rfl

theorem countP_clear (h : t.entry i = some e) :
    (t.clear i).entries.countP isSome = t.entries.countP isSome - 1 := by
  have hi : i < t.entries.length := lt_of_entry h
  simp only [clear]
  rw [countP_set hi, getElem_eq_entry hi, h]
  rfl

/-! ## The loops are probes -/

theorem findIndexFrom_eq (hp : 0 < t.tableLimit) (hashcode : Nat) (key : K) :
    ∀ left d, d < t.tableLimit →
      t.findIndexFrom keys hashcode key (slot t.tableLimit hashcode 0) left
          (slot t.tableLimit hashcode d) = ((range' d (min left (t.tableLimit - d))).find? fun d =>
          t.holds keys hashcode key (slot t.tableLimit hashcode d)).map (slot t.tableLimit hashcode)
  | 0, d, _ => by simp [findIndexFrom]
  | left + 1, d, hd => by
    have hm : min (left + 1) (t.tableLimit - d) = min left (t.tableLimit - (d + 1)) + 1 := by
      omega
    rw [findIndexFrom, hm, range'_succ, find?_cons, next_slot hp]
    cases hh : t.holds keys hashcode key (slot t.tableLimit hashcode d) with
    | true => rfl
    | false =>
      by_cases he : d + 1 = t.tableLimit
      · rw [if_pos ((slot_eq_home_iff (Nat.succ_pos d) hd).mpr he), he, Nat.sub_self, Nat.min_zero]
        rfl
      · rw [if_neg (fun h => he ((slot_eq_home_iff (Nat.succ_pos d) hd).mp h))]
        exact findIndexFrom_eq hp hashcode key left (d + 1) (by omega)

theorem findIndex_eq (hp : 0 < t.tableLimit) : t.findIndex keys key =
    (probe t.tableLimit maxProbeLength (keys.keyHashCodeFunc key)
      (t.holds keys (keys.keyHashCodeFunc key) key)).map
        (slot t.tableLimit (keys.keyHashCodeFunc key)) := by
  refine (findIndexFrom_eq hp _ key maxProbeLength 0 hp).trans ?_
  rw [Nat.sub_zero, ← range_eq_range']
  rfl

/-- Where `_innerTableAdd` stops. -/
def stops (keys : KeyFunctions K) (t : LinearAddressingHashTable K D) (e : HashTableEntry K D)
    (i : Nat) : Bool := (t.entry i).isNone || t.holds keys e.hashcode e.key i

/-- What `_innerTableAdd` does where it stops. -/
def addAt (t : LinearAddressingHashTable K D) (e : HashTableEntry K D) (i : Nat) :
    AddResult × LinearAddressingHashTable K D :=
  if (t.entry i).isNone then (.ok, t.store i e) else (.dup, t)

theorem innerTableAddFrom_eq (hp : 0 < t.tableLimit) (e : HashTableEntry K D) : ∀ left d,
    t.innerTableAddFrom keys e left (slot t.tableLimit e.hashcode d) =
      (((range' d left).find? fun d => stops keys t e (slot t.tableLimit e.hashcode d)).map
        fun d => addAt t e (slot t.tableLimit e.hashcode d)).getD (.noSpace, t)
  | 0, _ => rfl
  | left + 1, d => by
    rw [innerTableAddFrom, range'_succ, find?_cons, next_slot hp,
      innerTableAddFrom_eq hp e left (d + 1)]
    cases hn : (t.entry (slot t.tableLimit e.hashcode d)).isNone with
    | true => simp only [stops, hn, Bool.true_or, if_true, map_some, getD_some, addAt]
    | false =>
      cases hh : t.holds keys e.hashcode e.key (slot t.tableLimit e.hashcode d) with
      | true => simp only [stops, hn, hh, Bool.or_true, Bool.false_eq_true, if_false, if_true,
          map_some, getD_some, addAt]
      | false => simp only [stops, hn, hh, Bool.or_false, Bool.false_eq_true, if_false]

theorem innerTableAdd_eq (hp : 0 < t.tableLimit) (e : HashTableEntry K D) :
    t.innerTableAdd keys e = ((probe t.tableLimit maxProbeLength e.hashcode (stops keys t e)).map
        fun d => addAt t e (slot t.tableLimit e.hashcode d)).getD (.noSpace, t) := by
  rw [← find?_range hp, range_eq_range']
  exact innerTableAddFrom_eq hp e maxProbeLength 0

theorem innerTableAdd_cases (keys : KeyFunctions K) (hpo : 0 < t.tableLimit)
    (e : HashTableEntry K D) :
    (t.innerTableAdd keys e = (.noSpace, t) ∧ ∀ d < min maxProbeLength t.tableLimit,
        stops keys t e (slot t.tableLimit e.hashcode d) = false) ∨
    ∃ d < min maxProbeLength t.tableLimit,
      (∀ d' < d, stops keys t e (slot t.tableLimit e.hashcode d') = false) ∧
      (t.entry (slot t.tableLimit e.hashcode d) = none ∧
          t.innerTableAdd keys e = (.ok, t.store (slot t.tableLimit e.hashcode d) e) ∨
        t.holds keys e.hashcode e.key (slot t.tableLimit e.hashcode d) = true ∧
          t.innerTableAdd keys e = (.dup, t)) := by
  rw [innerTableAdd_eq hpo e]
  rcases hp : probe t.tableLimit maxProbeLength e.hashcode (stops keys t e) with _ | d
  · exact .inl ⟨rfl, probe_eq_none.mp hp⟩
  · obtain ⟨hs, hd, hf⟩ := probe_eq_some.mp hp
    refine .inr ⟨d, hd, hf, ?_⟩
    simp only [map_some, getD_some, addAt]
    cases he : t.entry (slot t.tableLimit e.hashcode d) with
    | none => exact .inl ⟨rfl, if_pos rfl⟩
    | some f =>
      rw [stops, he] at hs
      exact .inr ⟨hs, if_neg Bool.false_ne_true⟩

theorem isSome_of_not_stops (h : stops keys t e i = false) : (t.entry i).isSome = true := by
  rw [stops, or_eq_false_iff] at h
  rw [← not_isNone, h.1]
  rfl

/-! ## Well-formed tables -/

/-- No two slots hold equal keys, every entry has its key's hash code and lies
within reach of its home slot, and the entries are counted. Free slots may be
anywhere. -/
structure WellFormed (keys : KeyFunctions K) (t : LinearAddressingHashTable K D) : Prop where
  limit_pos : 0 < t.tableLimit
  distinct : ∀ i j e f, t.entry i = some e → t.entry j = some f →
    keys.keyEqualsFunc e.key f.key = true → i = j
  hashed : ∀ i e, t.entry i = some e → e.hashcode = keys.keyHashCodeFunc e.key
  inReach : ∀ i e, t.entry i = some e →
    ∃ d < min maxProbeLength t.tableLimit, slot t.tableLimit e.hashcode d = i
  counted : t.tableSize = t.entries.countP Option.isSome

theorem not_mem_cleared {n} (e : HashTableEntry K D) : some e ∉ (cleared n).entries := by
  intro he
  obtain ⟨i, hi⟩ := mem_entries.mp he
  rw [entry_cleared] at hi
  cases hi

theorem wellFormed_cleared {n} (h : 0 < n) :
    WellFormed keys (cleared n : LinearAddressingHashTable K D) := by
  refine ⟨by rwa [tableLimit_cleared], ?_, ?_, ?_, ?_⟩
  · intro i j e f he
    rw [entry_cleared] at he
    cases he
  · intro i e he
    rw [entry_cleared] at he
    cases he
  · intro i e he
    rw [entry_cleared] at he
    cases he
  · simp [cleared, countP_replicate]

/-- What `parcHashCodeTable_Get` reads. -/
def lookup (keys : KeyFunctions K) (t : LinearAddressingHashTable K D) (key : K) : Option D :=
  (t.findIndex keys key).bind fun i => (t.entry i).map (·.data)

section
variable (hc : keys.Consistent) (h : WellFormed keys t)
include hc h

theorem WellFormed.holds_iff : t.holds keys (keys.keyHashCodeFunc key) key i = true ↔
    ∃ e, t.entry i = some e ∧ keys.keyEqualsFunc key e.key = true := by
  unfold holds
  cases he : t.entry i with
  | none => simp
  | some e =>
    simp only [and_eq_true, beq_iff_eq, some.injEq, exists_eq_left']
    refine ⟨And.right, fun heq => ⟨?_, heq⟩⟩
    rw [h.hashed i e he, hc.hash _ _ heq]

theorem WellFormed.findIndex_eq_some : t.findIndex keys key = some i ↔
    ∃ e, t.entry i = some e ∧ keys.keyEqualsFunc key e.key = true := by
  rw [findIndex_eq h.limit_pos, map_eq_some_iff]
  constructor
  · rintro ⟨d, hd, rfl⟩
    exact (h.holds_iff hc).mp (probe_eq_some.mp hd).1
  · rintro ⟨e, he, heq⟩
    obtain ⟨d, hd, hs⟩ := h.inReach i e he
    rw [h.hashed i e he, ← hc.hash _ _ heq] at hs
    -- the probe stops at or before that slot, where the key is found
    rcases hp : probe t.tableLimit maxProbeLength (keys.keyHashCodeFunc key)
      (t.holds keys (keys.keyHashCodeFunc key) key) with _ | d'
    · have := probe_eq_none.mp hp d hd
      rw [hs, (h.holds_iff hc).mpr ⟨e, he, heq⟩] at this
      cases this
    · obtain ⟨f, hf, hfe⟩ := (h.holds_iff hc).mp (probe_eq_some.mp hp).1
      exact ⟨d', rfl, h.distinct _ _ f e hf he (hc.trans _ _ _ (hc.symm _ _ hfe) heq)⟩

theorem WellFormed.lookup_eq_some {d} : lookup keys t key = some d ↔
    ∃ e, some e ∈ t.entries ∧ keys.keyEqualsFunc key e.key = true ∧ e.data = d := by
  simp only [lookup, bind_eq_some_iff, h.findIndex_eq_some hc, map_eq_some_iff,
    mem_entries]
  constructor
  · rintro ⟨i, ⟨e, he, heq⟩, f, hf, hd⟩
    rw [he] at hf
    cases hf
    exact ⟨e, ⟨i, he⟩, heq, hd⟩
  · rintro ⟨e, ⟨i, he⟩, heq, hd⟩
    exact ⟨i, ⟨e, he, heq⟩, e, he, hd⟩

theorem WellFormed.lookup_eq_none : lookup keys t key = none ↔
    ∀ e, some e ∈ t.entries → keys.keyEqualsFunc key e.key = false := by
  rw [eq_none_iff_forall_ne_some]
  constructor
  · intro hn e he
    rw [← not_eq_true]
    exact fun heq => hn e.data ((h.lookup_eq_some hc).mpr ⟨e, he, heq, rfl⟩)
  · intro hn d hd
    obtain ⟨e, he, heq, _⟩ := (h.lookup_eq_some hc).mp hd
    rw [hn e he] at heq
    cases heq

theorem WellFormed.lookup_congr {t'} (h' : WellFormed keys t')
    (hm : ∀ e, some e ∈ t'.entries ↔ some e ∈ t.entries) (key : K) :
    lookup keys t' key = lookup keys t key := by
  apply ext
  intro d
  rw [h'.lookup_eq_some hc, h.lookup_eq_some hc]
  simp only [hm]

end

/-! ## Storing and clearing one slot -/

theorem mem_store (hi : i < t.tableLimit) (hf : t.entry i = none) :
    some f ∈ (t.store i e).entries ↔ f = e ∨ some f ∈ t.entries := by
  simp only [mem_entries, entry_store hi]
  constructor
  · rintro ⟨j, hj⟩
    split at hj
    · exact .inl (some.inj hj).symm
    · exact .inr ⟨j, hj⟩
  · rintro (rfl | ⟨j, hj⟩)
    · exact ⟨i, if_pos rfl⟩
    · refine ⟨j, (if_neg ?_).trans hj⟩
      rintro rfl
      rw [hf] at hj
      cases hj

theorem WellFormed.store (hc : keys.Consistent) (h : WellFormed keys t) {d}
    (hd : d < min maxProbeLength t.tableLimit)
    (hfr : t.entry (slot t.tableLimit e.hashcode d) = none)
    (hh : e.hashcode = keys.keyHashCodeFunc e.key)
    (ha : ∀ f, some f ∈ t.entries → keys.keyEqualsFunc e.key f.key = false) :
    WellFormed keys (t.store (slot t.tableLimit e.hashcode d) e) := by
  have hi : slot t.tableLimit e.hashcode d < t.tableLimit := slot_lt h.limit_pos
  have hne : ∀ j f, t.entry j = some f → keys.keyEqualsFunc e.key f.key = true → False := by
    intro j f hf heq
    rw [ha f (mem_entries.mpr ⟨j, hf⟩)] at heq
    cases heq
  refine ⟨by rw [tableLimit_store]; exact h.limit_pos, ?_, ?_, ?_, ?_⟩
  · intro j k f g hf hg heq
    rw [entry_store hi] at hf hg
    split at hf <;> split at hg
    · rw [← ‹_ = j›, ← ‹_ = k›]
    · cases hf
      exact (hne k g hg heq).elim
    · cases hg
      exact (hne j f hf (hc.symm _ _ heq)).elim
    · exact h.distinct j k f g hf hg heq
  · intro j f hf
    rw [entry_store hi] at hf
    split at hf
    · cases hf
      exact hh
    · exact h.hashed j f hf
  · intro j f hf
    rw [tableLimit_store]
    rw [entry_store hi] at hf
    split at hf
    · cases hf
      exact ⟨d, hd, ‹_›⟩
    · exact h.inReach j f hf
  · rw [countP_store hi hfr, ← h.counted]
    rfl

theorem WellFormed.mem_clear (hc : keys.Consistent) (h : WellFormed keys t)
    (he : t.entry i = some e) : some f ∈ (t.clear i).entries ↔
      some f ∈ t.entries ∧ keys.keyEqualsFunc e.key f.key = false := by
  simp only [mem_entries, entry_clear]
  constructor
  · rintro ⟨j, hj⟩
    split at hj
    · cases hj
    · refine ⟨⟨j, hj⟩, ?_⟩
      rw [← not_eq_true]
      exact fun heq => ‹¬ i = j› (h.distinct i j e f he hj heq)
  · rintro ⟨⟨j, hj⟩, hne⟩
    refine ⟨j, (if_neg ?_).trans hj⟩
    rintro rfl
    rw [he] at hj
    cases hj
    rw [hc.refl] at hne
    cases hne

theorem WellFormed.clear (h : WellFormed keys t) (he : t.entry i = some e) :
    WellFormed keys (t.clear i) := by
  have hs : ∀ j f, (t.clear i).entry j = some f → t.entry j = some f := by
    intro j f hf
    rw [entry_clear] at hf
    split at hf
    · cases hf
    · exact hf
  refine ⟨by rw [tableLimit_clear]; exact h.limit_pos, ?_, ?_, ?_, ?_⟩
  · exact fun j k f g hf hg => h.distinct j k f g (hs j f hf) (hs k g hg)
  · exact fun j f hf => h.hashed j f (hs j f hf)
  · rw [tableLimit_clear]
    exact fun j f hf => h.inReach j f (hs j f hf)
  · rw [countP_clear he, ← h.counted]
    rfl

/-! ## Expansion -/

/-- No free slot lies before a key on its probe path. -/
def Compact (t : LinearAddressingHashTable K D) : Prop :=
  ∀ i e, t.entry i = some e → ∃ d < min maxProbeLength t.tableLimit,
    slot t.tableLimit e.hashcode d = i ∧
      ∀ d' < d, (t.entry (slot t.tableLimit e.hashcode d')).isSome = true

theorem Compact.store (h : Compact t) {d} (hp : 0 < t.tableLimit)
    (hd : d < min maxProbeLength t.tableLimit)
    (hfu : ∀ d' < d, (t.entry (slot t.tableLimit e.hashcode d')).isSome = true) :
    Compact (t.store (slot t.tableLimit e.hashcode d) e) := by
  have hk : ∀ j, (t.entry j).isSome = true →
      ((t.store (slot t.tableLimit e.hashcode d) e).entry j).isSome = true := by
    intro j hj
    rw [entry_store (slot_lt hp)]
    split
    · rfl
    · exact hj
  intro j f hf
  rw [tableLimit_store]
  rw [entry_store (slot_lt hp)] at hf
  split at hf
  · cases hf
    exact ⟨d, hd, ‹_›, fun d' hd' => hk _ (hfu d' hd')⟩
  · obtain ⟨d1, hd1, hs, hf1⟩ := h j f hf
    exact ⟨d1, hd1, hs, fun d' hd' => hk _ (hf1 d' hd')⟩

/-- The slots do not hold equal keys. -/
def Apart (keys : KeyFunctions K) (a b : Option (HashTableEntry K D)) : Prop :=
  ∀ e f, a = some e → b = some f → keys.keyEqualsFunc e.key f.key = false

theorem WellFormed.pairwise_apart (h : WellFormed keys t) : t.entries.Pairwise (Apart keys) := by
  rw [pairwise_iff_getElem]
  intro i j hi hj hij e f he hf
  rw [getElem_eq_entry] at he hf
  rw [← not_eq_true]
  intro heq
  have := h.distinct i j e f he hf heq
  omega

/-- `t` stores the entries of `new` and those in the slots `L`. -/
structure Rehashed (keys : KeyFunctions K) (L : List (Option (HashTableEntry K D)))
    (new t : LinearAddressingHashTable K D) : Prop where
  wellFormed : WellFormed keys t
  compact : Compact t
  mem : ∀ f, some f ∈ t.entries ↔ some f ∈ new.entries ∨ some f ∈ L
  size : t.tableSize = new.tableSize + L.countP Option.isSome
  limit : t.tableLimit = new.tableLimit

/-- A rehash found no space: `t`, with some of the entries, has none for one of
them. -/
structure Stuck (keys : KeyFunctions K) (L : List (Option (HashTableEntry K D)))
    (new t : LinearAddressingHashTable K D) (e : HashTableEntry K D) : Prop where
  noSpace : (rehash keys L new).1 = .noSpace
  wellFormed : WellFormed keys t
  compact : Compact t
  mem : ∀ f, some f ∈ t.entries → some f ∈ new.entries ∨ some f ∈ L
  limit : t.tableLimit = new.tableLimit
  entry : some e ∈ L
  full : t.innerTableAdd keys e = (.noSpace, t)

/-- **A rehash that finds space moves every entry**: distinct keys are never
taken for duplicates. -/
theorem rehash_spec (hc : keys.Consistent) : ∀ (L : List (Option (HashTableEntry K D)))
    {new}, WellFormed keys new → Compact new →
    (∀ e, some e ∈ L → e.hashcode = keys.keyHashCodeFunc e.key) → L.Pairwise (Apart keys) →
    (∀ e f, some e ∈ L → some f ∈ new.entries → keys.keyEqualsFunc e.key f.key = false) →
    (∃ t e, Stuck keys L new t e) ∨ ∃ t, rehash keys L new = (.ok, t) ∧ Rehashed keys L new t
  | [], new, hwf, hco, _, _, _ =>
    .inr ⟨new, rfl, hwf, hco, fun f => by simp, rfl, rfl⟩
  | none :: L, new, hwf, hco, hh, ha, hab => by
    rcases rehash_spec hc L hwf hco (fun e he => hh e (.tail _ he))
      (pairwise_cons.mp ha).2 (fun e f he => hab e f (.tail _ he)) with
      ⟨t, e, hs⟩ | ⟨t, ht, hr⟩
    · exact .inl ⟨t, e, hs.noSpace, hs.wellFormed, hs.compact,
        fun f hf => (hs.mem f hf).imp_right (.tail _), hs.limit, .tail _ hs.entry, hs.full⟩
    · refine .inr ⟨t, ht, hr.wellFormed, hr.compact, fun f => ?_, ?_, hr.limit⟩
      · simp [hr.mem f]
      · exact hr.size
  | some e :: L, new, hwf, hco, hh, ha, hab => by
    obtain ⟨hhe, hta⟩ := pairwise_cons.mp ha
    have he : e.hashcode = keys.keyHashCodeFunc e.key := hh e (.head _)
    have hn := fun f => hab e f (.head _)
    rcases innerTableAdd_cases keys hwf.limit_pos e with
      ⟨had, _⟩ | ⟨d, hd, hfi, ⟨hfr, had⟩ | ⟨hho, _⟩⟩
    · refine .inl ⟨new, e, ?_, hwf, hco, fun f hf => .inl hf, rfl, mem_cons_self, had⟩
      rw [rehash, had]
    · -- the entry is stored; the rest is apart from it too
      have hm : ∀ f, some f ∈ (new.store (slot new.tableLimit e.hashcode d) e).entries ↔ _ :=
        fun f => mem_store (slot_lt hwf.limit_pos) hfr
      have has : ∀ g f, some g ∈ L →
          some f ∈ (new.store (slot new.tableLimit e.hashcode d) e).entries →
          keys.keyEqualsFunc g.key f.key = false := by
        intro g f hg hf
        rcases (hm f).mp hf with rfl | hf
        · rw [← not_eq_true]
          intro heq
          have := hhe _ hg f g rfl rfl
          rw [hc.symm _ _ heq] at this
          cases this
        · exact hab g f (.tail _ hg) hf
      have hst : rehash keys (some e :: L) new =
          rehash keys L (new.store (slot new.tableLimit e.hashcode d) e) := by rw [rehash, had]
      rcases rehash_spec hc L (hwf.store hc hd hfr he hn)
        (hco.store hwf.limit_pos hd fun d' hd' => isSome_of_not_stops (hfi d' hd'))
        (fun f hf => hh f (.tail _ hf)) hta has with ⟨t, e', hs⟩ | ⟨t, ht, hr⟩
      · refine .inl ⟨t, e', hst ▸ hs.noSpace, hs.wellFormed, hs.compact, fun f hf => ?_,
          hs.limit.trans tableLimit_store, .tail _ hs.entry, hs.full⟩
        rcases hs.mem f hf with hf | hf
        · rcases (hm f).mp hf with rfl | hf
          · exact .inr (.head _)
          · exact .inl hf
        · exact .inr (.tail _ hf)
      · refine .inr ⟨t, hst.trans ht, hr.wellFormed, hr.compact, fun f => ?_, ?_,
          hr.limit.trans tableLimit_store⟩
        · rw [hr.mem f, hm f]
          simp only [mem_cons, some.injEq]
          tauto
        · rw [hr.size, countP_cons_of_pos rfl]
          show new.tableSize + 1 + _ = _
          omega
    · rw [he] at hho
      obtain ⟨f, hf, heq⟩ := (hwf.holds_iff hc).mp hho
      rw [hn f (mem_entries.mpr ⟨_, hf⟩)] at heq
      cases heq

variable {tb t' : PARCHashCodeTable K D}

theorem expandBody_noSpace {old : LinearAddressingHashTable K D} {s}
    (h : (rehash keys old.entries (cleared (old.tableLimit * s.1))).1 = .noSpace) :
    expandBody keys old s = pure (.inl (s.1 + 1, s.2 + 1)) := by
  obtain ⟨expandby, expandCount⟩ := s
  generalize hr : rehash keys old.entries (cleared (old.tableLimit * expandby)) = r at h
  obtain ⟨res, temp⟩ := r
  subst h
  simp only [expandBody, hr]

theorem expandBody_ok {old s}
    (h : rehash keys old.entries (cleared (old.tableLimit * s.1)) = (.ok, t)) :
    expandBody keys old s = pure (.inr ⟨t, s.2 + 1⟩) := by
  simp only [expandBody, h]

theorem rehash_cleared (hc : keys.Consistent) (hwf : WellFormed keys t) {lim} (hl : 0 < lim) :
    (∃ t' e, Stuck keys t.entries (cleared lim) t' e) ∨
      ∃ t', rehash keys t.entries (cleared lim) = (.ok, t') ∧
        Rehashed keys t.entries (cleared lim) t' := by
  refine rehash_spec hc _ (wellFormed_cleared hl) ?_ ?_ hwf.pairwise_apart ?_
  · intro i e he
    rw [entry_cleared] at he
    cases he
  · intro e he
    obtain ⟨i, hi⟩ := mem_entries.mp he
    exact hwf.hashed i e hi
  · exact fun e f _ hf => absurd hf (not_mem_cleared f)

/-- `table'` has the entries of `table` in more slots, and no key behind a free one. -/
structure Expanded (keys : KeyFunctions K) (table table' : PARCHashCodeTable K D) : Prop where
  wellFormed : WellFormed keys table'.hashtable
  compact : Compact table'.hashtable
  mem : ∀ e, some e ∈ table'.hashtable.entries ↔ some e ∈ table.hashtable.entries
  size : table'.hashtable.tableSize = table.hashtable.tableSize
  limit : table.hashtable.tableLimit < table'.hashtable.tableLimit

/-- **An expansion that returns keeps every entry.** -/
theorem expand_spec (hc : keys.Consistent) (hwf : WellFormed keys tb.hashtable)
    (h : expand keys tb = pure t') : Expanded keys tb t' := by
  refine Exec.loop_invariant (fun s : Nat × Nat => 1 < s.1) (Expanded keys tb) ?_
    (show 1 < expandFactor by decide) h
  intro s x hs hst
  obtain ⟨_, _, hsc⟩ | ⟨t, ht, hr⟩ :=
    rehash_cleared hc hwf (Nat.mul_pos hwf.limit_pos (Nat.zero_lt_of_lt hs))
  · rw [expandBody_noSpace hsc.noSpace] at hst
    cases hst
    exact Nat.lt_succ_of_lt hs
  · rw [expandBody_ok ht] at hst
    cases hst
    refine ⟨hr.wellFormed, hr.compact, fun e => ?_, ?_, ?_⟩
    · rw [hr.mem e]
      simp [mem_entries]
    · rw [hr.size, hwf.counted]
      exact Nat.zero_add _
    · rw [hr.limit, tableLimit_cleared]
      exact (Nat.lt_mul_iff_one_lt_right hwf.limit_pos).mpr hs

end Libparc.HashCodeTable
