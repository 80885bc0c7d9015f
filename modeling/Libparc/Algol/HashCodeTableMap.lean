import Libparc.Algol.HashCodeTableSlots

/-! # The hash code table as a finite map

`parcHashCodeTable_Get` reads a finite map from a well-formed table. A call
changes that map as it should, unless it adds a key that lies behind a free
slot: `runCalls_finiteMap` follows a run for as long as no call does that, and
says what the call does that ends it. -/
namespace Libparc.HashCodeTable
open Probing LinearAddressingHashTable Exec Option Bool

variable {K D : Type} {keys : KeyFunctions K} {t : LinearAddressingHashTable K D}
variable {e f : HashTableEntry K D} {key : K} {data : D} {i j : Nat}
variable {table table' : PARCHashCodeTable K D}

/-! ## Adding, deleting and getting -/

/-- The slots before the one that holds the key are all in use. -/
def Tight (keys : KeyFunctions K) (t : LinearAddressingHashTable K D) (key : K) : Prop :=
  ∀ d < min maxProbeLength t.tableLimit,
    t.holds keys (keys.keyHashCodeFunc key) key
        (slot t.tableLimit (keys.keyHashCodeFunc key) d) = true →
      ∀ d' < d, (t.entry (slot t.tableLimit (keys.keyHashCodeFunc key) d')).isSome = true

instance (keys : KeyFunctions K) (t : LinearAddressingHashTable K D) (key : K) :
    Decidable (Tight keys t key) :=
  inferInstanceAs (Decidable (∀ d < _, _ → ∀ d' < d, _))

theorem Compact.tight (hc : keys.Consistent) (hwf : WellFormed keys t) (h : Compact t)
    (key : K) : Tight keys t key := by
  intro d hd hh d' hd'
  obtain ⟨e, he, heq⟩ := (hwf.holds_iff hc).mp hh
  obtain ⟨d1, hd1, hs, hf⟩ := h _ e he
  rw [hwf.hashed _ e he, ← hc.hash _ _ heq] at hs hf
  have : d1 = d := slot_inj (by omega) (by omega) hs
  exact hf d' (by omega)

section
variable (hc : keys.Consistent)
include hc

variable (hwf : WellFormed keys t)
include hwf

theorem WellFormed.lookup_store {d} (hd : d < min maxProbeLength t.tableLimit)
    (hfr : t.entry (slot t.tableLimit e.hashcode d) = none)
    (hh : e.hashcode = keys.keyHashCodeFunc e.key) (ha : lookup keys t e.key = none) (k : K) :
    lookup keys (t.store (slot t.tableLimit e.hashcode d) e) k =
      if keys.keyEqualsFunc e.key k then some e.data else lookup keys t k := by
  have hwf' := hwf.store hc hd hfr hh ((hwf.lookup_eq_none hc).mp ha)
  have hm : ∀ f, some f ∈ (t.store (slot t.tableLimit e.hashcode d) e).entries ↔ _ :=
    fun f => mem_store (slot_lt hwf.limit_pos) hfr
  split
  · exact (hwf'.lookup_eq_some hc).mpr ⟨e, (hm e).mpr (.inl rfl), hc.symm _ _ ‹_›, rfl⟩
  · apply ext
    intro x
    rw [hwf'.lookup_eq_some hc, hwf.lookup_eq_some hc]
    constructor
    · rintro ⟨f, hf, heq, hx⟩
      rcases (hm f).mp hf with rfl | hf
      · exact absurd (hc.symm _ _ heq) ‹_›
      · exact ⟨f, hf, heq, hx⟩
    · rintro ⟨f, hf, heq, hx⟩
      exact ⟨f, (hm f).mpr (.inr hf), heq, hx⟩

theorem WellFormed.lookup_removed {t'} (hwf' : WellFormed keys t') (hm : ∀ f, some f ∈ t'.entries ↔
      some f ∈ t.entries ∧ keys.keyEqualsFunc key f.key = false) (k : K) :
    lookup keys t' k = if keys.keyEqualsFunc key k then none else lookup keys t k := by
  split
  · rw [hwf'.lookup_eq_none hc]
    intro f hf
    rw [← not_eq_true]
    intro hkf
    have hne := ((hm f).mp hf).2
    rw [hc.trans _ _ _ ‹_› hkf] at hne
    cases hne
  · apply ext
    intro x
    rw [hwf'.lookup_eq_some hc, hwf.lookup_eq_some hc]
    constructor
    · rintro ⟨f, hf, hkf, hx⟩
      exact ⟨f, ((hm f).mp hf).1, hkf, hx⟩
    · rintro ⟨f, hf, hkf, hx⟩
      refine ⟨f, (hm f).mpr ⟨hf, ?_⟩, hkf, hx⟩
      rw [← not_eq_true]
      intro hef
      exact ‹¬ _› (hc.trans _ _ _ hef (hc.symm _ _ hkf))

theorem WellFormed.holds_of_lookup (hne : lookup keys t key ≠ none) :
    ∃ d < min maxProbeLength t.tableLimit, t.holds keys (keys.keyHashCodeFunc key) key
      (slot t.tableLimit (keys.keyHashCodeFunc key) d) = true := by
  obtain ⟨x, hx⟩ := ne_none_iff_exists'.mp hne
  obtain ⟨e, he, heq, _⟩ := (hwf.lookup_eq_some hc).mp hx
  obtain ⟨i, hi⟩ := mem_entries.mp he
  obtain ⟨d, hd, hs⟩ := hwf.inReach i e hi
  rw [hwf.hashed i e hi, ← hc.hash _ _ heq] at hs
  exact ⟨d, hd, (hwf.holds_iff hc).mpr ⟨e, hs ▸ hi, heq⟩⟩

theorem WellFormed.lookup_of_holds (hh : t.holds keys (keys.keyHashCodeFunc key) key i = true) :
    (lookup keys t key).isSome = true := by
  obtain ⟨e, he, heq⟩ := (hwf.holds_iff hc).mp hh
  rw [(hwf.lookup_eq_some hc).mpr ⟨e, mem_entries.mpr ⟨i, he⟩, heq, rfl⟩]
  rfl

theorem WellFormed.innerTableAdd_tight (ht : Tight keys t key)
    (he : e = ⟨key, data, keys.keyHashCodeFunc key⟩) :
    t.innerTableAdd keys e = (.noSpace, t) ∨
    (lookup keys t key).isSome = true ∧ t.innerTableAdd keys e = (.dup, t) ∨
    lookup keys t key = none ∧ ∃ t', t.innerTableAdd keys e = (.ok, t') ∧ WellFormed keys t' ∧
      ∀ k, lookup keys t' k = if keys.keyEqualsFunc key k then some data else lookup keys t k := by
  subst he
  rcases innerTableAdd_cases keys hwf.limit_pos ⟨key, data, keys.keyHashCodeFunc key⟩ with
    ⟨ha, _⟩ | ⟨d, hd, hf, ⟨hfr, ha⟩ | ⟨hh, ha⟩⟩
  · exact .inl ha
  · have hab : lookup keys t key = none := by
      by_contra hne
      obtain ⟨d1, hd1, hh⟩ := hwf.holds_of_lookup hc hne
      rcases Nat.lt_trichotomy d1 d with hlt | rfl | hgt
      · have := hf d1 hlt
        rw [stops, hh, Bool.or_true] at this
        cases this
      · rw [holds, hfr] at hh
        cases hh
      · have := ht d1 hd1 hh d hgt
        rw [hfr] at this
        cases this
    exact .inr (.inr ⟨hab, _, ha, hwf.store hc hd hfr rfl ((hwf.lookup_eq_none hc).mp hab),
      hwf.lookup_store hc hd hfr rfl hab⟩)
  · exact .inr (.inl ⟨hwf.lookup_of_holds hc hh, ha⟩)

end

theorem addBody_noSpace (h : table.hashtable.innerTableAdd keys e = (.noSpace, t)) :
    addBody keys e table = (do pure (.inl (← expand keys table))) := by
  simp only [addBody, h]

theorem addBody_done {r} (h : table.hashtable.innerTableAdd keys e = (r, t)) (hr : r ≠ .noSpace) :
    addBody keys e table = pure (.inr ({ table with hashtable := t }, r = .ok)) := by
  cases r with
  | noSpace => exact absurd rfl hr
  | ok | dup => simp only [addBody, h]

/-- `s` has the entries of `table`: it is an expansion, or `table` itself, which was not to be
expanded. -/
structure Ready (keys : KeyFunctions K) (table s : PARCHashCodeTable K D) : Prop where
  wellFormed : WellFormed keys s.hashtable
  mem : ∀ f, some f ∈ s.hashtable.entries ↔ some f ∈ table.hashtable.entries
  compact : s = table ∧ table.hashtable.tableSize < table.hashtable.expandThreshold ∨
    Compact s.hashtable

theorem Ready.expand (hc : keys.Consistent) {s s'}
    (h : Ready keys table s) (hexpand : expand keys s = pure s') : Ready keys table s' := by
  have hs' := expand_spec hc h.wellFormed hexpand
  exact ⟨hs'.wellFormed, fun f => (hs'.mem f).trans (h.mem f), .inr hs'.compact⟩

theorem parcHashCodeTableAdd_inv (hc : keys.Consistent) {added}
    (hwf : WellFormed keys table.hashtable)
    (h : parcHashCodeTableAdd keys table (some key) (some data) = pure (table', added)) :
    ∃ (s : PARCHashCodeTable K D) (res : AddResult), Ready keys table s ∧
      s.hashtable.innerTableAdd keys ⟨key, data, keys.keyHashCodeFunc key⟩ =
        (res, table'.hashtable) ∧ res ≠ .noSpace ∧ added = decide (res = .ok) := by
  simp only [parcHashCodeTableAdd, assertNotNull_some, pure_bind] at h
  obtain ⟨table1, hexpand, hl⟩ := bind_eq_pure.mp h
  have hst : Ready keys table table1 := by
    split at hexpand
    · have hs := expand_spec hc hwf hexpand
      exact ⟨hs.wellFormed, hs.mem, .inr hs.compact⟩
    · cases hexpand
      exact ⟨hwf, fun _ => Iff.rfl, .inl ⟨rfl, Nat.lt_of_not_ge ‹_›⟩⟩
  refine loop_invariant (Ready keys table) (fun r : PARCHashCodeTable K D × Bool =>
    ∃ (s : PARCHashCodeTable K D) (res : AddResult), Ready keys table s ∧
      s.hashtable.innerTableAdd keys ⟨key, data, keys.keyHashCodeFunc key⟩ =
        (res, r.1.hashtable) ∧ res ≠ .noSpace ∧ r.2 = decide (res = .ok)) ?_ hst hl
  intro s x hs hsp
  unfold addBody at hsp
  split at hsp
  · obtain ⟨s', hexpand, heq⟩ := bind_eq_pure.mp hsp
    cases heq
    exact hs.expand hc hexpand
  · rename_i res t hr ha
    cases hsp
    exact ⟨s, res, hs, ha, hr, rfl⟩

/-! ## Runs, and the map they refine -/

inductive Call (K D : Type) where
  | add (key : K) (data : D)
  | del (key : K)

/-- A call on the table, with what it returns. -/
def Call.run (keys : KeyFunctions K) (table : PARCHashCodeTable K D) :
    Call K D → Prog (PARCHashCodeTable K D × Option Bool)
  | .add key data => do
    let (table, added) ← parcHashCodeTableAdd keys table (some key) (some data)
    pure (table, some added)
  | .del key => do
    pure (← parcHashCodeTableDel keys table (some key), none)

def runCalls (keys : KeyFunctions K) : PARCHashCodeTable K D → List (Call K D) →
    Prog (PARCHashCodeTable K D × List (Option Bool))
  | table, [] => pure (table, [])
  | table, call :: calls => do
    let (table, result) ← call.run keys table
    let (table, results) ← runCalls keys table calls
    pure (table, result :: results)

/-- What a call does to a map, and returns. -/
def Call.spec (keys : KeyFunctions K) (M : K → Option D) :
    Call K D → (K → Option D) × Option Bool
  | .add key data =>
    if (M key).isSome then (M, some false)
    else (fun k => if keys.keyEqualsFunc key k then some data else M k, some true)
  | .del key => (fun k => if keys.keyEqualsFunc key k then none else M k, none)

def specCalls (keys : KeyFunctions K) : (K → Option D) → List (Call K D) →
    (K → Option D) × List (Option Bool)
  | M, [] => (M, [])
  | M, call :: calls =>
    let (M, result) := call.spec keys M
    let (M, results) := specCalls keys M calls
    (M, result :: results)

/-- The call does not add, to a table that is not expanded first, a key that
lies behind a free slot. -/
def Call.Safe (keys : KeyFunctions K) (table : PARCHashCodeTable K D) : Call K D → Prop
  | .add key _ => table.hashtable.tableSize < table.hashtable.expandThreshold →
      Tight keys table.hashtable key
  | .del _ => True

/-- Every call of the run is safe in the table it finds. -/
def SafeCalls (keys : KeyFunctions K) : PARCHashCodeTable K D → List (Call K D) → Prop
  | _, [] => True
  | table, call :: calls => call.Safe keys table ∧
      ∀ table' result, call.run keys table = pure (table', result) → SafeCalls keys table' calls

section
variable (hc : keys.Consistent)
include hc

variable (hwf : WellFormed keys table.hashtable)
include hwf

/-- **An `Add` that returns** adds an absent key and leaves a present one
alone. -/
theorem parcHashCodeTableAdd_spec {added} (hsa : (Call.add key data).Safe keys table)
    (h : parcHashCodeTableAdd keys table (some key) (some data) = pure (table', added)) :
    WellFormed keys table'.hashtable ∧ (lookup keys table'.hashtable, some added) =
        (Call.add key data).spec keys (lookup keys table.hashtable) := by
  obtain ⟨s, r, hs, ha, hr, rfl⟩ := parcHashCodeTableAdd_inv hc hwf h
  have hti : Tight keys s.hashtable key := by
    obtain ⟨rfl, hsi⟩ | hco := hs.compact
    · exact hsa hsi
    · exact hco.tight hc hs.wellFormed key
  rw [← funext (hwf.lookup_congr hc hs.wellFormed hs.mem)]
  obtain hf | ⟨hp, hd⟩ | ⟨hab, t', hok, hwf', hl⟩ := hs.wellFormed.innerTableAdd_tight hc hti rfl
  · exact absurd (Prod.mk.inj (hf.symm.trans ha)).1.symm hr
  · obtain ⟨rfl, ht⟩ := Prod.mk.inj (hd.symm.trans ha)
    rw [← ht, Call.spec, if_pos hp]
    exact ⟨hs.wellFormed, rfl⟩
  · obtain ⟨rfl, rfl⟩ := Prod.mk.inj (hok.symm.trans ha)
    rw [Call.spec, hab, ← funext hl]
    exact ⟨hwf', rfl⟩

theorem parcHashCodeTableDel_found
    (he : table.hashtable.entry i = some e) (heq : keys.keyEqualsFunc key e.key = true) :
    parcHashCodeTableDel keys table (some key) =
      pure { table with hashtable := table.hashtable.clear i } := by
  have hp : table.hashtable.tableSize > 0 := by
    rw [hwf.counted]
    exact List.countP_pos_iff.mpr ⟨some e, mem_entries.mpr ⟨i, he⟩, rfl⟩
  simp only [parcHashCodeTableDel, assertNotNull_some, pure_bind,
    (hwf.findIndex_eq_some hc).mpr ⟨e, he, heq⟩, assertTrue_of (decide_eq_true hp)]

/-- **A `Del` always returns**, and the entries of other keys are left. -/
theorem parcHashCodeTableDel_mem (key : K) :
    ∃ table', parcHashCodeTableDel keys table (some key) = pure table' ∧
      WellFormed keys table'.hashtable ∧ ∀ f, some f ∈ table'.hashtable.entries ↔
        some f ∈ table.hashtable.entries ∧ keys.keyEqualsFunc key f.key = false := by
  rcases hfi : table.hashtable.findIndex keys key with _ | i
  · refine ⟨table, ?_, hwf, fun f => (and_iff_left_of_imp fun hf => ?_).symm⟩
    · simp only [parcHashCodeTableDel, assertNotNull_some, pure_bind, hfi]
    · obtain ⟨j, hj⟩ := mem_entries.mp hf
      rw [← not_eq_true]
      intro hkf
      have := (hwf.findIndex_eq_some hc).mpr ⟨f, hj, hkf⟩
      rw [hfi] at this
      cases this
  · obtain ⟨e, he, heq⟩ := (hwf.findIndex_eq_some hc).mp hfi
    refine ⟨_, parcHashCodeTableDel_found hc hwf he heq, hwf.clear he, fun f => ?_⟩
    have hk : keys.keyEqualsFunc e.key f.key = keys.keyEqualsFunc key f.key := by
      rw [Bool.eq_iff_iff]
      exact ⟨hc.trans _ _ _ heq, hc.trans _ _ _ (hc.symm _ _ heq)⟩
    rw [hwf.mem_clear hc he, hk]

end

theorem parcHashCodeTableGet_eq (key : K) :
    parcHashCodeTableGet keys table (some key) = pure (lookup keys table.hashtable key) := by
  simp only [parcHashCodeTableGet, assertNotNull_some, pure_bind, lookup]
  cases table.hashtable.findIndex keys key <;> rfl

/-- **A table with free slots anywhere**: `Get` finds exactly the keys that are
stored, `Del` removes exactly the given one, and an expansion that returns has the
same entries in a table of the same kind. -/
theorem wellFormed_getDelExpand (hc : keys.Consistent)
    (hwf : WellFormed keys table.hashtable) (key : K) :
    (∃ found, parcHashCodeTableGet keys table (some key) = pure found ∧ ∀ d, found = some d ↔
      ∃ e, some e ∈ table.hashtable.entries ∧ keys.keyEqualsFunc key e.key = true ∧ e.data = d) ∧
    (∃ table', parcHashCodeTableDel keys table (some key) = pure table' ∧
      WellFormed keys table'.hashtable ∧ ∀ e, some e ∈ table'.hashtable.entries ↔
        some e ∈ table.hashtable.entries ∧ keys.keyEqualsFunc key e.key = false) ∧
    ∀ table', expand keys table = pure table' → WellFormed keys table'.hashtable ∧
      (∀ e, some e ∈ table'.hashtable.entries ↔ some e ∈ table.hashtable.entries) ∧
      table'.hashtable.tableSize = table.hashtable.tableSize := by
  refine ⟨⟨_, parcHashCodeTableGet_eq key, fun d => hwf.lookup_eq_some hc⟩,
    parcHashCodeTableDel_mem hc hwf key, fun table' h => ?_⟩
  have hx := expand_spec hc hwf h
  exact ⟨hx.wellFormed, hx.mem, hx.size⟩

theorem parcHashCodeTableAdd_direct
    (hs : table.hashtable.tableSize < table.hashtable.expandThreshold)
    (ha : table.hashtable.innerTableAdd keys ⟨key, data, keys.keyHashCodeFunc key⟩ = (.ok, t)) :
    parcHashCodeTableAdd keys table (some key) (some data) =
      pure ({ table with hashtable := t }, true) := by
  simp only [parcHashCodeTableAdd, assertNotNull_some, pure_bind, if_neg (Nat.not_le_of_lt hs)]
  exact loop_done (addBody_done ha (by decide))

/-- No key occupies more than one slot. -/
def NoDuplicates (keys : KeyFunctions K) (t : LinearAddressingHashTable K D) : Prop :=
  ∀ i j e f, t.entry i = some e → t.entry j = some f →
    keys.keyEqualsFunc e.key f.key = true → i = j

section
variable (hc : keys.Consistent)
include hc

theorem parcHashCodeTableAdd_again (hwf : WellFormed keys table.hashtable)
    (hb : ¬ (Call.add key data).Safe keys table) :
    ∃ table', parcHashCodeTableAdd keys table (some key) (some data) = pure (table', true) ∧
      (lookup keys table.hashtable key).isSome = true ∧ ¬ NoDuplicates keys table'.hashtable := by
  obtain ⟨hs, ht⟩ := Classical.not_imp.mp hb
  unfold Tight at ht
  push Not at ht
  obtain ⟨d, hd, hh, d', hd', hf'⟩ := ht
  obtain ⟨f, hf, heq⟩ := (hwf.holds_iff hc).mp hh
  have hst : stops keys table.hashtable ⟨key, data, keys.keyHashCodeFunc key⟩
      (slot table.hashtable.tableLimit (keys.keyHashCodeFunc key) d') = true := by
    rw [stops, ← not_isSome, eq_false_iff.mpr hf']
    rfl
  rcases innerTableAdd_cases keys hwf.limit_pos ⟨key, data, keys.keyHashCodeFunc key⟩ with
    ⟨_, hno⟩ | ⟨d1, hd1, hfi, ⟨hfr, ha⟩ | ⟨hh1, _⟩⟩
  · rw [hno d' (by omega)] at hst
    cases hst
  · refine ⟨_, parcHashCodeTableAdd_direct hs ha, hwf.lookup_of_holds hc hh, fun hn => ?_⟩
    -- the new copy and the old one
    have hlt : slot table.hashtable.tableLimit (keys.keyHashCodeFunc key) d1 <
      table.hashtable.tableLimit := slot_lt hwf.limit_pos
    have hne : slot table.hashtable.tableLimit (keys.keyHashCodeFunc key) d1 ≠
        slot table.hashtable.tableLimit (keys.keyHashCodeFunc key) d := by
      intro hsl
      rw [← hsl, hfr] at hf
      cases hf
    refine hne (hn _ _ ⟨key, data, keys.keyHashCodeFunc key⟩ f ?_ ?_ heq)
    · exact (entry_store hlt).trans (if_pos rfl)
    · exact (entry_store hlt).trans ((if_neg hne).trans hf)
  · obtain ⟨g, hg, hge⟩ := (hwf.holds_iff hc).mp hh1
    have hsl := hwf.distinct _ _ g f hg hf (hc.trans _ _ _ (hc.symm _ _ hge) heq)
    rw [slot_inj (by omega) (by omega) hsl] at hfi
    rw [hfi d' hd'] at hst
    cases hst

theorem Call.run_spec {call : Call K D} {r}
    (hwf : WellFormed keys table.hashtable) (hs : call.Safe keys table)
    (h : call.run keys table = pure (table', r)) :
    WellFormed keys table'.hashtable ∧
      (lookup keys table'.hashtable, r) = call.spec keys (lookup keys table.hashtable) := by
  cases call with
  | add key data =>
    obtain ⟨⟨t1, added⟩, ha, heq⟩ := bind_eq_pure.mp h
    cases heq
    exact parcHashCodeTableAdd_spec hc hwf hs ha
  | del key =>
    obtain ⟨t1, hd, hwf1, hm⟩ := parcHashCodeTableDel_mem hc hwf key
    simp only [Call.run, hd, pure_bind, pure_inj] at h
    cases h
    refine ⟨hwf1, ?_⟩
    rw [funext (hwf.lookup_removed hc hwf1 hm)]
    rfl

theorem runCalls_spec : ∀ (cs : List (Call K D)) {table : PARCHashCodeTable K D}
    {rs}, WellFormed keys table.hashtable → SafeCalls keys table cs →
    runCalls keys table cs = pure (table', rs) → WellFormed keys table'.hashtable ∧
      (lookup keys table'.hashtable, rs) = specCalls keys (lookup keys table.hashtable) cs
  | [], table, rs, hwf, _, h => by
    cases h
    exact ⟨hwf, rfl⟩
  | call :: cs, table, rs, hwf, ⟨hs, hr⟩, h => by
    obtain ⟨⟨t1, r⟩, hca, h⟩ := bind_eq_pure.mp h
    obtain ⟨⟨t2, rs2⟩, hcl, heq⟩ := bind_eq_pure.mp h
    cases heq
    obtain ⟨hwf1, hsp⟩ := call.run_spec hc hwf hs hca
    obtain ⟨hwf2, hsc⟩ := runCalls_spec cs hwf1 (hr _ _ hca) hcl
    refine ⟨hwf2, ?_⟩
    rw [specCalls, ← hsp]
    simp only [← hsc]

end

theorem create_inv {minimumSize} (hcr : parcHashCodeTableCreateSize minimumSize = pure table) :
    0 < minimumSize ∧ table = ⟨cleared minimumSize, 0⟩ := by
  obtain ⟨_, hassert, hp⟩ := bind_eq_pure.mp hcr
  exact ⟨of_decide_eq_true (of_assertTrue hassert), (pure_inj.mp hp).symm⟩

/-- **A hash code table is a finite map until a key behind a free slot is
added**: a run of safe calls on a new table returns what the map returns, and
what can be read after it is the map; the next call that is not safe adds a key
that is present. -/
theorem runCalls_finiteMap (hc : keys.Consistent) {minimumSize : Nat}
    (hcreate : parcHashCodeTableCreateSize minimumSize = pure table) (calls : List (Call K D))
    (hsafe : SafeCalls keys table calls) {results : List (Option Bool)}
    (hrun : runCalls keys table calls = pure (table', results)) :
    results = (specCalls keys (fun _ => none) calls).2 ∧
    (∀ k, parcHashCodeTableGet keys table' (some k) =
      pure ((specCalls keys (fun _ => none) calls).1 k)) ∧ NoDuplicates keys table'.hashtable ∧
    ∀ key data, ¬ (Call.add key data).Safe keys table' →
      ((specCalls keys (fun _ => none) calls).1 key).isSome = true ∧
      ∃ table'', parcHashCodeTableAdd keys table' (some key) (some data) = pure (table'', true) ∧
        ¬ NoDuplicates keys table''.hashtable := by
  obtain ⟨hp, rfl⟩ := create_inv hcreate
  have hwf : WellFormed keys (cleared minimumSize : LinearAddressingHashTable K D) :=
    wellFormed_cleared hp
  have hem : lookup keys (cleared minimumSize : LinearAddressingHashTable K D) = fun _ => none := by
    funext k
    rw [hwf.lookup_eq_none hc]
    exact fun e he => absurd he (not_mem_cleared e)
  obtain ⟨hwf', hs⟩ := runCalls_spec hc calls hwf hsafe hrun
  rw [hem] at hs
  rw [← hs]
  refine ⟨rfl, parcHashCodeTableGet_eq, hwf'.distinct, fun key data hb => ?_⟩
  obtain ⟨table'', ha, hpr, hd⟩ := parcHashCodeTableAdd_again hc hwf' hb
  exact ⟨hpr, table'', ha, hd⟩

theorem SafeCalls.cons {call cs r}
    (hr : call.run keys table = pure (table', r)) (hs : call.Safe keys table)
    (hre : SafeCalls keys table' cs) : SafeCalls keys table (call :: cs) := by
  refine ⟨hs, fun t1 r1 h => ?_⟩
  rw [hr, pure_inj] at h
  cases h
  exact hre

/-- Numbers that all have one hash code. -/
def collidingKeys : KeyFunctions Nat := ⟨fun a b => a == b, fun _ => 0⟩

theorem collidingKeys_consistent : collidingKeys.Consistent := by
  refine ⟨?_, ?_, ?_, fun _ _ _ => rfl⟩
  · intro a
    exact beq_self_eq_true a
  · intro a b h
    exact beq_iff_eq.mpr (beq_iff_eq.mp h).symm
  · intro a b c h h'
    exact beq_iff_eq.mpr ((beq_iff_eq.mp h).trans (beq_iff_eq.mp h'))

/-- A table of four slots whose keys all have slot 0 as their home. -/
def fourSlots (entries : List (Option (HashTableEntry Nat String))) (tableSize : Nat) :
    PARCHashCodeTable Nat String := ⟨⟨entries, tableSize, 3⟩, 0⟩

theorem wellFormed_fourSlots : WellFormed collidingKeys
    (fourSlots [none, some ⟨2, "b", 0⟩, none, none] 1).hashtable :=
  WellFormed.store (t := cleared 4) (e := ⟨2, "b", 0⟩) (d := 1) collidingKeys_consistent
    (wellFormed_cleared (by decide)) (by decide) rfl rfl fun f hf => absurd hf (not_mem_cleared f)

theorem get_behind_free : ∃ found,
    parcHashCodeTableGet collidingKeys (fourSlots [none, some ⟨2, "b", 0⟩, none, none] 1)
      (some 2) = pure found ∧ ∀ d, found = some d ↔
      ∃ e, some e ∈ (fourSlots [none, some ⟨2, "b", 0⟩, none, none] 1).hashtable.entries ∧
        collidingKeys.keyEqualsFunc 2 e.key = true ∧ e.data = d :=
  (wellFormed_getDelExpand collidingKeys_consistent wellFormed_fourSlots 2).1

theorem add_one : (Call.add 1 "a").run collidingKeys ⟨cleared 4, 0⟩ =
    pure (fourSlots [some ⟨1, "a", 0⟩, none, none, none] 1, some true) := by
  simp only [Call.run]
  rw [parcHashCodeTableAdd_direct (by decide) rfl]
  rfl

theorem add_two : (Call.add 2 "b").run collidingKeys
    (fourSlots [some ⟨1, "a", 0⟩, none, none, none] 1) =
      pure (fourSlots [some ⟨1, "a", 0⟩, some ⟨2, "b", 0⟩, none, none] 2, some true) := by
  simp only [Call.run]
  rw [parcHashCodeTableAdd_direct (by decide) rfl]
  rfl

theorem del_one : (Call.del 1).run collidingKeys
    (fourSlots [some ⟨1, "a", 0⟩, some ⟨2, "b", 0⟩, none, none] 2) =
      pure (fourSlots [none, some ⟨2, "b", 0⟩, none, none] 1, none) := rfl

theorem runCalls_finiteMap_three :
    parcHashCodeTableGet collidingKeys (fourSlots [none, some ⟨2, "b", 0⟩, none, none] 1)
      (some 2) = pure ((specCalls collidingKeys (fun _ => none)
        [.add 1 "a", .add 2 "b", .del 1]).1 2) :=
  (runCalls_finiteMap collidingKeys_consistent (show parcHashCodeTableCreateSize 4 = _ from rfl)
    [.add 1 "a", .add 2 "b", .del 1]
    (.cons add_one (fun _ => by decide) (.cons add_two (fun _ => by decide)
      (.cons del_one trivial trivial)))
    (by simp only [runCalls, add_one, add_two, del_one, pure_bind]; rfl)).2.1 2

/-- `Del(1)` frees the slot before key 2, and a second `Add(2)` takes it: the
key is stored twice. -/
theorem add_stores_again : ∃ table',
    (parcHashCodeTableCreateSize 4 >>= fun table => runCalls collidingKeys table
      [.add 1 "a", .add 2 "b", .del 1, .add 2 "c"]) =
      pure (table', [some true, some true, none, some true]) ∧
    parcHashCodeTableGet collidingKeys (fourSlots [none, some ⟨2, "b", 0⟩, none, none] 1)
      (some 2) = pure (some "b") ∧
    table'.hashtable.entry 0 = some ⟨2, "c", 0⟩ ∧
    table'.hashtable.entry 1 = some ⟨2, "b", 0⟩ := by
  have ha : (Call.add 2 "c").run collidingKeys
      (fourSlots [none, some ⟨2, "b", 0⟩, none, none] 1) =
        pure (fourSlots [some ⟨2, "c", 0⟩, some ⟨2, "b", 0⟩, none, none] 2, some true) := by
    simp only [Call.run]
    rw [parcHashCodeTableAdd_direct (by decide) rfl]
    rfl
  refine ⟨fourSlots [some ⟨2, "c", 0⟩, some ⟨2, "b", 0⟩, none, none] 2, ?_, rfl, rfl, rfl⟩
  rw [show (parcHashCodeTableCreateSize 4 : Prog (PARCHashCodeTable Nat String)) =
    pure ⟨cleared 4, 0⟩ from rfl, pure_bind]
  simp only [runCalls, add_one, add_two, del_one, ha, pure_bind]

end Libparc.HashCodeTable
