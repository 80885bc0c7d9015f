import Mathlib.Data.List.ReduceOption
import Libparc.Algol.HashCodeTableMap

/-! # Hash code tables without collisions

As long as no key is added whose slot has another key, every key is in its home slot.
`_innerTableAdd` looks at that slot only then, and an expansion does not run out of
space: keys with different slots have different slots in the larger table. -/
namespace Libparc.HashCodeTable
open Probing LinearAddressingHashTable List Option

variable {K D : Type} {keys : KeyFunctions K} {t : LinearAddressingHashTable K D}
variable {e f : HashTableEntry K D} {key : K} {i lim : Nat}
variable {tb t' : PARCHashCodeTable K D}

/-! ## The entries of a table -/

def LinearAddressingHashTable.contents (t : LinearAddressingHashTable K D) :
    List (HashTableEntry K D) := t.entries.reduceOption

@[simp] theorem mem_contents : e ∈ t.contents ↔ some e ∈ t.entries := reduceOption_mem_iff

theorem contents_cleared (n : Nat) : (cleared n : LinearAddressingHashTable K D).contents = [] :=
  reduceOption_replicate_none

theorem WellFormed.pairwise_contents (hwf : WellFormed keys t) :
    t.contents.Pairwise fun e f => keys.keyEqualsFunc e.key f.key = false :=
  List.Pairwise.filterMap id (fun _ _ ha e he f hf => ha e f he hf) hwf.pairwise_apart

section
variable (hc : keys.Consistent) (hwf : WellFormed keys t)
include hc hwf

theorem WellFormed.nodup_contents : t.contents.Nodup := by
  refine hwf.pairwise_contents.imp fun {e f} ha heq => ?_
  rw [heq, hc.refl] at ha
  cases ha

theorem contents_cons {t'} (hwf' : WellFormed keys t') (ha : some e ∉ t.entries)
    (hm : ∀ f, some f ∈ t'.entries ↔ f = e ∨ some f ∈ t.entries) :
    t'.contents.Perm (e :: t.contents) := by
  have hn : (e :: t.contents).Nodup :=
    nodup_cons.mpr ⟨fun h => ha (mem_contents.mp h), hwf.nodup_contents hc⟩
  rw [perm_ext_iff_of_nodup (hwf'.nodup_contents hc) hn]
  intro f
  rw [mem_contents, hm f, mem_cons, mem_contents]

theorem contents_perm {t'} (hwf' : WellFormed keys t')
    (hm : ∀ f, some f ∈ t'.entries ↔ some f ∈ t.entries) : t'.contents.Perm t.contents := by
  rw [perm_ext_iff_of_nodup (hwf'.nodup_contents hc) (hwf.nodup_contents hc)]
  intro f
  rw [mem_contents, hm f, mem_contents]

end

theorem mem_of_clear (h : some f ∈ (t.clear i).entries) : some f ∈ t.entries := by
  obtain ⟨j, hj⟩ := mem_entries.mp h
  rw [entry_clear] at hj
  split at hj
  · cases hj
  · exact mem_entries.mpr ⟨j, hj⟩

theorem mem_iff_clear (he : t.entry i = some e) :
    some f ∈ t.entries ↔ f = e ∨ some f ∈ (t.clear i).entries := by
  constructor
  · intro hf
    obtain ⟨j, hj⟩ := mem_entries.mp hf
    by_cases hij : i = j
    · subst hij
      rw [he] at hj
      exact .inl (some.inj hj).symm
    · exact .inr (mem_entries.mpr ⟨j, entry_clear.trans ((if_neg hij).trans hj)⟩)
  · rintro (rfl | hf)
    · exact mem_entries.mpr ⟨i, he⟩
    · exact mem_of_clear hf

theorem WellFormed.congr {keys'} (hwf : WellFormed keys t)
    (hel : ∀ e f, some e ∈ t.entries → some f ∈ t.entries →
      keys'.keyEqualsFunc e.key f.key = keys.keyEqualsFunc e.key f.key)
    (hh : ∀ e, some e ∈ t.entries →
      keys'.keyHashCodeFunc e.key = keys.keyHashCodeFunc e.key) : WellFormed keys' t := by
  refine ⟨hwf.limit_pos, ?_, ?_, hwf.inReach, hwf.counted⟩
  · intro i j e f he hf heq
    rw [hel e f (mem_entries.mpr ⟨i, he⟩) (mem_entries.mpr ⟨j, hf⟩)] at heq
    exact hwf.distinct i j e f he hf heq
  · intro i e he
    rw [hh e (mem_entries.mpr ⟨i, he⟩)]
    exact hwf.hashed i e he

/-! ## Keys in their home slots -/

def Homed (t : LinearAddressingHashTable K D) : Prop :=
  ∀ i e, t.entry i = some e → e.hashcode % t.tableLimit = i

theorem homed_cleared (n : Nat) : Homed (cleared n : LinearAddressingHashTable K D) := by
  intro i e he
  rw [entry_cleared] at he
  cases he

theorem Homed.store (h : Homed t) (hp : 0 < t.tableLimit) :
    Homed (t.store (e.hashcode % t.tableLimit) e) := by
  intro i f hf
  rw [tableLimit_store]
  rw [entry_store (Nat.mod_lt _ hp)] at hf
  split at hf
  · cases hf
    assumption
  · exact h i f hf

theorem Homed.clear (h : Homed t) : Homed (t.clear i) := by
  intro j f hf
  rw [tableLimit_clear]
  rw [entry_clear] at hf
  split at hf
  · cases hf
  · exact h j f hf

variable (keys) in
theorem innerTableAdd_free (hf : t.entry (e.hashcode % t.tableLimit) = none) :
    t.innerTableAdd keys e = (.ok, t.store (e.hashcode % t.tableLimit) e) := by
  show t.innerTableAddFrom keys e (19 + 1) _ = _
  rw [innerTableAddFrom, hf]
  rfl

theorem innerTableAdd_held (hh : t.holds keys e.hashcode e.key (e.hashcode % t.tableLimit) = true) :
    t.innerTableAdd keys e = (.dup, t) := by
  have hs : ¬ (t.entry (e.hashcode % t.tableLimit)).isNone = true := by
    intro hn
    rw [holds, isNone_iff_eq_none.mp hn] at hh
    cases hh
  show t.innerTableAddFrom keys e (19 + 1) _ = _
  rw [innerTableAddFrom, if_neg hs, if_pos hh]

/-! ## Expansion -/

/-- The slots do not hold keys with one home slot. -/
def HomedApart (limit : Nat) (a b : Option (HashTableEntry K D)) : Prop :=
  ∀ e f, a = some e → b = some f → e.hashcode % limit ≠ f.hashcode % limit

variable (keys) in
theorem rehash_homed (hp : 0 < lim) (L : List (Option (HashTableEntry K D)))
    {new} (hl : new.tableLimit = lim) (hh : Homed new) (ha : L.Pairwise (HomedApart lim))
    (hfr : ∀ e, some e ∈ L → new.entry (e.hashcode % lim) = none) :
    ∃ t, rehash keys L new = (.ok, t) ∧ Homed t ∧ t.tableLimit = lim ∧
      t.expandThreshold = new.expandThreshold := by
  induction L generalizing new with
  | nil => exact ⟨new, rfl, hh, hl, rfl⟩
  | cons a L ih =>
    obtain ⟨hhe, ht⟩ := pairwise_cons.mp ha
    cases a with
    | none => exact ih hl hh ht fun e he => hfr e (.tail _ he)
    | some e =>
      subst hl
      have hs := hfr e (.head _)
      have hr : ∀ f, some f ∈ L → (new.store (e.hashcode % new.tableLimit) e).entry
          (f.hashcode % new.tableLimit) = none := by
        intro f hf
        rw [entry_store (Nat.mod_lt _ hp), if_neg (hhe _ hf e f rfl rfl)]
        exact hfr f (.tail _ hf)
      rw [rehash, innerTableAdd_free keys hs]
      exact ih tableLimit_store (hh.store hp) ht hr

theorem Homed.pairwise (h : Homed t) (factor : Nat) :
    t.entries.Pairwise (HomedApart (t.tableLimit * factor)) := by
  rw [pairwise_iff_getElem]
  intro i j hi hj hij e f he hf heq
  rw [getElem_eq_entry] at he hf
  have hm := congrArg (· % t.tableLimit) heq
  simp only [Nat.mod_mul_right_mod] at hm
  rw [h i e he, h j f hf] at hm
  omega

/-- The number of slots of the table to which a key is added. -/
def roomFor (t : LinearAddressingHashTable K D) : Nat :=
  if t.tableSize ≥ t.expandThreshold then t.tableLimit * expandFactor else t.tableLimit

/-- `table'` has the entries of `table`, and is large enough for one more. -/
structure Roomy (keys : KeyFunctions K) (table table' : PARCHashCodeTable K D) : Prop where
  wellFormed : WellFormed keys table'.hashtable
  homed : Homed table'.hashtable
  mem : ∀ e, some e ∈ table'.hashtable.entries ↔ some e ∈ table.hashtable.entries
  size_lt : table'.hashtable.tableSize < table'.hashtable.expandThreshold
  limit : table'.hashtable.tableLimit = roomFor table.hashtable

theorem roomy_of_homed (hc : keys.Consistent) (hwf : WellFormed keys tb.hashtable)
    (h : Homed tb.hashtable) :
    ∃ t', (if tb.hashtable.tableSize ≥ tb.hashtable.expandThreshold then
      expand keys tb else pure tb) = pure t' ∧ Roomy keys tb t' := by
  by_cases hf : tb.hashtable.tableSize ≥ tb.hashtable.expandThreshold
  · have hp := hwf.limit_pos
    have hr : 0 < tb.hashtable.tableLimit * expandFactor := Nat.mul_pos hp (by decide)
    obtain ⟨t, ht, hh, hl, hth⟩ := rehash_homed keys hr
      tb.hashtable.entries (tableLimit_cleared _) (homed_cleared _) (h.pairwise expandFactor)
      (fun e _ => entry_cleared _ _)
    have hexpand : expand keys tb = pure ⟨t, tb.expandCount + 1⟩ :=
      Exec.loop_done (expandBody_ok (s := (expandFactor, tb.expandCount)) ht)
    obtain ⟨hwf', -, hm, hs, -⟩ := expand_spec hc hwf hexpand
    refine ⟨_, (if_pos hf).trans hexpand, hwf', hh, hm, ?_, ?_⟩
    · -- the old table has no more entries than slots, three quarters of twice as many are more
      have hle : tb.hashtable.tableSize ≤ tb.hashtable.tableLimit := by
        rw [hwf.counted]
        exact countP_le_length
      have hcl : t.expandThreshold = tb.hashtable.tableLimit * 2 -
        tb.hashtable.tableLimit * 2 / 4 := hth
      rw [hs, hcl]
      omega
    · rw [roomFor, if_pos hf]
      exact hl
  · exact ⟨tb, if_neg hf, hwf, h, fun _ => Iff.rfl, Nat.lt_of_not_ge hf, (if_neg hf).symm⟩

/-! ## Adding and deleting -/

/-- No other key has the slot of this one, in the table to which it is added. -/
def NoCollision (keys : KeyFunctions K) (t : LinearAddressingHashTable K D) (key : K) : Prop :=
  ∀ e, some e ∈ t.entries →
    e.hashcode % roomFor t = keys.keyHashCodeFunc key % roomFor t →
    keys.keyEqualsFunc key e.key = true

theorem NoCollision.mono {t'} (h : NoCollision keys t key)
    (hr : roomFor t' = roomFor t) (hm : ∀ e, some e ∈ t'.entries → some e ∈ t.entries) :
    NoCollision keys t' key := by
  intro e he hs
  rw [hr] at hs
  exact h e (hm e he) hs

theorem Roomy.roomFor_clear (h : Roomy keys tb t') :
    roomFor (t'.hashtable.clear i) = roomFor tb.hashtable := by
  have hlt := h.size_lt
  have hs : ¬ (t'.hashtable.clear i).tableSize ≥ (t'.hashtable.clear i).expandThreshold := by
    show ¬ t'.hashtable.tableSize - 1 ≥ t'.hashtable.expandThreshold
    omega
  rw [roomFor, if_neg hs, tableLimit_clear, h.limit]

variable (hc : keys.Consistent) (hwf : WellFormed keys tb.hashtable)
variable (h : Homed tb.hashtable)
include hc hwf h

theorem add_absent (hno : NoCollision keys tb.hashtable key)
    (ha : lookup keys tb.hashtable key = none) (data : D) :
    ∃ t', parcHashCodeTableAdd keys tb (some key) (some data) = pure (t', true) ∧
      WellFormed keys t'.hashtable ∧ Homed t'.hashtable ∧ ∀ f, some f ∈ t'.hashtable.entries ↔
        f = ⟨key, data, keys.keyHashCodeFunc key⟩ ∨ some f ∈ tb.hashtable.entries := by
  obtain ⟨t1, hexpand, hr⟩ := roomy_of_homed hc hwf h
  have hp := hr.wellFormed.limit_pos
  have hn := (hwf.lookup_eq_none hc).mp ha
  -- the key of its home slot would be equal
  have hfr : t1.hashtable.entry (keys.keyHashCodeFunc key % t1.hashtable.tableLimit) = none := by
    rw [eq_none_iff_forall_ne_some]
    intro e he
    have hm := (hr.mem e).mp (mem_entries.mpr ⟨_, he⟩)
    have hs := hr.homed _ e he
    rw [hr.limit] at hs
    have heq := hno e hm hs
    rw [hn e hm] at heq
    cases heq
  obtain ⟨e, he⟩ : ∃ e : HashTableEntry K D, e = ⟨key, data, keys.keyHashCodeFunc key⟩ := ⟨_, rfl⟩
  have hh : e.hashcode = keys.keyHashCodeFunc key := by rw [he]
  rw [← hh] at hfr
  have had := innerTableAdd_free keys hfr
  have hwf' : WellFormed keys (t1.hashtable.store (slot t1.hashtable.tableLimit
      e.hashcode 0) e) := by
    refine hr.wellFormed.store hc (Nat.lt_min.mpr ⟨by decide, hp⟩) hfr ?_ fun f hf => ?_
    · rw [he]
    · rw [he]
      exact hn f ((hr.mem f).mp hf)
  refine ⟨⟨_, t1.expandCount⟩, ?_, hwf', hr.homed.store hp, fun f => ?_⟩
  · simp only [parcHashCodeTableAdd, assertNotNull_some, pure_bind]
    rw [hexpand, pure_bind, ← he]
    exact Exec.loop_done (addBody_done had (by decide))
  · rw [← hr.mem f, ← he]
    exact mem_store (Nat.mod_lt _ hp) hfr

theorem add_present (hp : lookup keys tb.hashtable key ≠ none) (data : D) :
    ∃ t', parcHashCodeTableAdd keys tb (some key) (some data) = pure (t', false) ∧
      Roomy keys tb t' := by
  obtain ⟨t1, hexpand, hr⟩ := roomy_of_homed hc hwf h
  obtain ⟨d, hd⟩ := ne_none_iff_exists'.mp hp
  obtain ⟨e, hm, heq, -⟩ := (hwf.lookup_eq_some hc).mp hd
  obtain ⟨i, he⟩ := mem_entries.mp ((hr.mem e).mpr hm)
  have hs : keys.keyHashCodeFunc key % t1.hashtable.tableLimit = i := by
    rw [hc.hash _ _ heq, ← hr.wellFormed.hashed i e he]
    exact hr.homed i e he
  have hh : t1.hashtable.holds keys (keys.keyHashCodeFunc key) key
      (keys.keyHashCodeFunc key % t1.hashtable.tableLimit) = true := by
    rw [hs]
    exact (hr.wellFormed.holds_iff hc).mpr ⟨e, he, heq⟩
  have ha := innerTableAdd_held (e := ⟨key, data, keys.keyHashCodeFunc key⟩) hh
  refine ⟨t1, ?_, hr⟩
  simp only [parcHashCodeTableAdd, assertNotNull_some, pure_bind]
  rw [hexpand, pure_bind]
  exact Exec.loop_done (addBody_done ha (by decide))

end Libparc.HashCodeTable
