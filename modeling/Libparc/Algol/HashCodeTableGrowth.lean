import Libparc.Algol.HashCodeTableMap

/-! # When adding to a hash code table comes to an end

`parcHashCodeTable_Add` expands the table until the new key finds a free slot in
its probe of 20 slots. Expanding a table separates keys with different hash
codes, but never two keys with the same one. So a run of additions comes to an
end if no key can find its probe full in a table beyond all hash codes (`Sparse`),
and it does not if more than 20 keys have one hash code. -/
namespace Libparc.HashCodeTable
open Probing LinearAddressingHashTable Exec List

variable {K D : Type} {keys : KeyFunctions K} {t : LinearAddressingHashTable K D}
variable {e f : HashTableEntry K D} {key : K} {data : D}
variable {table table' : PARCHashCodeTable K D}

section
variable (keys : KeyFunctions K) (used : List K)

/-- The keys are different from each other. -/
def Different (l : List K) : Prop :=
  l.Pairwise fun a b => keys.keyEqualsFunc a b = false

/-- From any slot up to the home slot of a key to the end of its probe, there are more slots
than different other keys with hash codes for them. -/
def Sparse : Prop :=
  ∀ key ∈ used, ∀ first ≤ keys.keyHashCodeFunc key, ∀ others : List K, Different keys others →
    (∀ k ∈ others, k ∈ used ∧ keys.keyEqualsFunc key k = false ∧
      first ≤ keys.keyHashCodeFunc k ∧
      keys.keyHashCodeFunc k < keys.keyHashCodeFunc key + maxProbeLength) →
    first + others.length < keys.keyHashCodeFunc key + maxProbeLength

/-- No more than 20 different keys have one hash code. -/
def Uncrowded : Prop :=
  ∀ hashcode, ∀ crowd : List K, Different keys crowd →
    (∀ k ∈ crowd, k ∈ used ∧ keys.keyHashCodeFunc k = hashcode) → crowd.length ≤ maxProbeLength

/-- A run of additions. -/
def runAdds (table : PARCHashCodeTable K D) (adds : List (K × D)) :
    Prog (PARCHashCodeTable K D × List (Option Bool)) :=
  runCalls keys table (adds.map fun add => .add add.1 add.2)

/-! ## Space in a large table -/

/-- The keys of a table are among those that are used. -/
def Stores (t : LinearAddressingHashTable K D) : Prop :=
  ∀ f, some f ∈ t.entries → f.key ∈ used

/-- A table beyond the hash codes of the keys: no probe wraps around. -/
def Large (limit : Nat) : Prop :=
  ∀ k ∈ used, keys.keyHashCodeFunc k + maxProbeLength ≤ limit

theorem exists_large : ∃ bound, ∀ limit, bound ≤ limit → Large keys used limit := by
  induction used with
  | nil => exact ⟨0, fun _ _ _ hk => by cases hk⟩
  | cons key used ih =>
    obtain ⟨bound, hb⟩ := ih
    refine ⟨max bound (keys.keyHashCodeFunc key + maxProbeLength), fun limit hle k hk => ?_⟩
    rcases mem_cons.mp hk with rfl | hk
    · omega
    · exact hb limit (by omega) k hk

end

theorem slot_of_large {lim hash d} (hl : hash + maxProbeLength ≤ lim)
    (hd : d < maxProbeLength) : slot lim hash d = hash + d := Nat.mod_eq_of_lt (by omega)

section
variable {used : List K} (hc : keys.Consistent)
include hc

theorem WellFormed.full_probe (hwf : WellFormed keys t)
    (hh : e.hashcode = keys.keyHashCodeFunc e.key)
    (hfu : t.innerTableAdd keys e = (.noSpace, t)) {d} (hd : d < min maxProbeLength t.tableLimit) :
    ∃ f, t.entry (slot t.tableLimit e.hashcode d) = some f ∧
      keys.keyEqualsFunc e.key f.key = false := by
  rcases innerTableAdd_cases keys hwf.limit_pos e with
    ⟨-, hs⟩ | ⟨_, _, _, ⟨_, ha⟩ | ⟨_, ha⟩⟩
  · have hst := hs d hd
    obtain ⟨f, hf⟩ := Option.isSome_iff_exists.mp (isSome_of_not_stops hst)
    refine ⟨f, hf, ?_⟩
    rw [stops, Bool.or_eq_false_iff] at hst
    rw [← Bool.not_eq_true]
    intro heq
    have hho := (hwf.holds_iff hc).mpr ⟨f, hf, heq⟩
    rw [← hh, hst.2] at hho
    cases hho
  all_goals
    rw [ha] at hfu
    cases hfu

omit hc in
theorem exists_first (P : Nat → Prop) (n : Nat) :
    ∃ first ≤ n, (∀ i, first ≤ i → i < n → P i) ∧ ∀ i, i + 1 = first → ¬ P i := by
  induction n with
  | zero => exact ⟨0, Nat.le_refl 0, fun i _ hi => by omega, fun i hi => by omega⟩
  | succ n ih =>
    by_cases hp : P n
    · obtain ⟨first, hle, hin, hb⟩ := ih
      refine ⟨first, by omega, fun i hi hin' => ?_, hb⟩
      rcases Nat.lt_succ_iff_lt_or_eq.mp hin' with hlt | rfl
      · exact hin i hi hlt
      · exact hp
    · exact ⟨n + 1, Nat.le_refl _, fun i _ hi => by omega, fun i hi => by rwa [Nat.succ.inj hi]⟩

section
variable (hs : Sparse keys used) (hwf : WellFormed keys t) (hco : Compact t)
variable (hst : Stores used t) (hl : Large keys used t.tableLimit)
include hwf hco hst hl

/-- A full probe is the end of slots in use whose keys have their home slots among them: the slot
before is free, and no key lies behind a free slot. -/
theorem Compact.full_run (hh : e.hashcode = keys.keyHashCodeFunc e.key) (he : e.key ∈ used)
    (hfu : t.innerTableAdd keys e = (.noSpace, t)) :
    ∃ first ≤ e.hashcode, ∀ i, first ≤ i → i < e.hashcode + maxProbeLength →
      ∃ f, t.entry i = some f ∧ first ≤ f.hashcode ∧ f.hashcode ≤ i ∧
        keys.keyEqualsFunc e.key f.key = false := by
  have hho : e.hashcode + maxProbeLength ≤ t.tableLimit := hh ▸ hl e.key he
  have hen : ∀ d, d < maxProbeLength → ∃ f, t.entry (e.hashcode + d) = some f ∧
      keys.keyEqualsFunc e.key f.key = false := by
    intro d hd
    obtain ⟨f, hf⟩ := hwf.full_probe hc hh hfu (d := d) (by omega)
    rw [slot_of_large hho hd] at hf
    exact ⟨f, hf⟩
  obtain ⟨first, hle, hin, hb⟩ := exists_first (fun i => (t.entry i).isSome = true) e.hashcode
  refine ⟨first, hle, fun i hi hlt => ?_⟩
  obtain ⟨f, hf⟩ : ∃ f, t.entry i = some f := by
    by_cases hie : i < e.hashcode
    · exact Option.isSome_iff_exists.mp (hin i hi hie)
    · obtain ⟨f, hf, -⟩ := hen (i - e.hashcode) (by omega)
      rw [Nat.add_sub_of_le (Nat.le_of_not_lt hie)] at hf
      exact ⟨f, hf⟩
  obtain ⟨d, hd, hsl, hbe⟩ := hco i f hf
  have hhf := hwf.hashed i f hf
  have hlf : f.hashcode + maxProbeLength ≤ t.tableLimit :=
    hhf ▸ hl f.key (hst f (mem_entries.mpr ⟨i, hf⟩))
  rw [slot_of_large hlf (by omega)] at hsl
  refine ⟨f, hf, ?_, by omega, ?_⟩
  · by_contra hlt
    refine hb (first - 1) (by omega) ?_
    have hso := hbe (first - 1 - f.hashcode) (by omega)
    rwa [slot_of_large hlf (by omega), Nat.add_sub_of_le (by omega)] at hso
  · rw [← Bool.not_eq_true]
    intro heq
    have hsa : f.hashcode = e.hashcode := by rw [hhf, hh, hc.hash _ _ heq]
    obtain ⟨f', hf', hne⟩ := hen d (by omega)
    rw [← hsa, hsl, hf] at hf'
    cases hf'
    rw [heq] at hne
    cases hne

include hs in
/-- **A large table has space**: the keys in the slots of a full run would be too many. -/
theorem Sparse.hasSpace (hh : e.hashcode = keys.keyHashCodeFunc e.key) (he : e.key ∈ used) :
    t.innerTableAdd keys e ≠ (.noSpace, t) := by
  intro hfu
  obtain ⟨first, hle, hen⟩ := hco.full_run hc hwf hst hl hh he hfu
  have : Nonempty (HashTableEntry K D) := ⟨e⟩
  choose! g hg using hen
  have hlt := hs e.key he first (hh ▸ hle)
    ((range' first (e.hashcode + maxProbeLength - first)).map fun i => (g i).key) ?_ ?_
  · rw [length_map, length_range', ← hh] at hlt
    omega
  · refine pairwise_map.mpr ((pairwise_lt_range' 1).imp_of_mem fun {i j} hi hj hlt => ?_)
    rw [mem_range'_1] at hi hj
    rw [← Bool.not_eq_true]
    intro heq
    have := hwf.distinct _ _ _ _ (hg i hi.1 (by omega)).1 (hg j hj.1 (by omega)).1 heq
    omega
  · intro k hk
    obtain ⟨i, hi, rfl⟩ := mem_map.mp hk
    rw [mem_range'_1] at hi
    obtain ⟨hgi, hfi, hle', hne⟩ := hg i hi.1 (by omega)
    rw [hwf.hashed i _ hgi] at hfi hle'
    exact ⟨hst _ (mem_entries.mpr ⟨i, hgi⟩), hne, hfi, by omega⟩

end

theorem Sparse.not_stuck (hs : Sparse keys used) (hwf : WellFormed keys t) (hst : Stores used t)
    {lim} (hl : Large keys used lim)
    {t'} (hsc : Stuck keys t.entries (cleared lim) t' e) : False := by
  obtain ⟨i, hi⟩ := mem_entries.mp hsc.entry
  refine hs.hasSpace hc hsc.wellFormed hsc.compact (fun f hf => ?_) ?_ (hwf.hashed i e hi)
    (hst e hsc.entry) hsc.full
  · exact hst f ((hsc.mem f hf).resolve_left (not_mem_cleared f))
  · rwa [hsc.limit, tableLimit_cleared]

/-- **An expansion returns**: once the table is large, the rehash finds space. -/
theorem Sparse.expand_returns (hs : Sparse keys used) (hwf : WellFormed keys table.hashtable)
    (hst : Stores used table.hashtable) : Exec.Returns (expand keys table) := by
  obtain ⟨bound, hb⟩ := exists_large keys used
  refine loop_returns (fun m (s : Nat × Nat) => 0 < s.1 ∧ bound - s.1 = m) ?_
    ⟨show 0 < expandFactor by decide, rfl⟩
  rintro m s ⟨hp, rfl⟩
  rcases rehash_cleared hc hwf (Nat.mul_pos hwf.limit_pos hp) with ⟨t, e, hsc⟩ | ⟨t, ht, -⟩
  · have hsm : s.1 < bound := by
      by_contra hge
      have hle : s.1 ≤ table.hashtable.tableLimit * s.1 := Nat.le_mul_of_pos_left _ hwf.limit_pos
      exact hs.not_stuck hc hwf hst (hb _ (by omega)) hsc
    refine .inr ⟨_, _, expandBody_noSpace hsc.noSpace, ⟨Nat.succ_pos _, rfl⟩, ?_⟩
    omega
  · exact .inl ⟨_, expandBody_ok ht⟩

/-! ## One addition -/

/-- What additions keep: no free slot lies before a key on its probe path. -/
structure Grown (keys : KeyFunctions K) (table : PARCHashCodeTable K D) : Prop where
  wellFormed : WellFormed keys table.hashtable
  compact : Compact table.hashtable

omit hc in
theorem create_empty {minimumSize}
    (hcr : parcHashCodeTableCreateSize minimumSize = pure table) (f : HashTableEntry K D) :
    some f ∉ table.hashtable.entries := by
  obtain ⟨-, rfl⟩ := create_inv hcr
  exact not_mem_cleared f

omit hc in
theorem grown_create {minimumSize}
    (hcr : parcHashCodeTableCreateSize minimumSize = pure table) : Grown keys table := by
  obtain ⟨hp, rfl⟩ := create_inv hcr
  refine ⟨wellFormed_cleared hp, fun i e he => ?_⟩
  rw [entry_cleared] at he
  cases he

theorem Compact.innerTableAdd (hwf : WellFormed keys t) (h : Compact t)
    (hh : e.hashcode = keys.keyHashCodeFunc e.key) {r t'} (ha : t.innerTableAdd keys e = (r, t'))
    (hr : r ≠ .noSpace) :
    WellFormed keys t' ∧ Compact t' ∧ (∀ f, some f ∈ t.entries → some f ∈ t'.entries) ∧
      (∀ f, some f ∈ t'.entries → f = e ∨ some f ∈ t.entries) ∧
      ∃ f, some f ∈ t'.entries ∧ keys.keyEqualsFunc e.key f.key = true := by
  rcases innerTableAdd_cases keys hwf.limit_pos e with
    ⟨hfu, -⟩ | ⟨d, hd, hfi, ⟨hfr, hok⟩ | ⟨hho, hdu⟩⟩
  · exact absurd (Prod.mk.inj (hfu.symm.trans ha)).1.symm hr
  · cases hok.symm.trans ha
    have hab : lookup keys t e.key = none := by
      have he : e = ⟨e.key, e.data, keys.keyHashCodeFunc e.key⟩ := by rw [← hh]
      rcases hwf.innerTableAdd_tight hc (h.tight hc hwf e.key) he with
        hfu | ⟨-, hdu⟩ | ⟨hab, -⟩
      · cases hfu.symm.trans hok
      · cases hdu.symm.trans hok
      · exact hab
    have hm : ∀ f, some f ∈ (t.store _ e).entries ↔ _ :=
      fun f => mem_store (slot_lt hwf.limit_pos) hfr
    refine ⟨?_, ?_, fun f hf => (hm f).mpr (.inr hf), fun f hf => (hm f).mp hf, e,
      (hm e).mpr (.inl rfl), hc.refl _⟩
    · exact hwf.store hc hd hfr hh ((hwf.lookup_eq_none hc).mp hab)
    · exact h.store hwf.limit_pos hd fun d' hd' => isSome_of_not_stops (hfi d' hd')
  · cases hdu.symm.trans ha
    obtain ⟨f, hf, heq⟩ := (hwf.holds_iff hc).mp (hh ▸ hho)
    exact ⟨hwf, h, fun _ => id, fun _ => .inr, f, mem_entries.mpr ⟨_, hf⟩, heq⟩

/-- **An addition that returns** keeps the entries and has the key. -/
theorem Grown.add (h : Grown keys table) {added}
    (ha : parcHashCodeTableAdd keys table (some key) (some data) = pure (table', added)) :
    Grown keys table' ∧
      (∀ f, some f ∈ table.hashtable.entries → some f ∈ table'.hashtable.entries) ∧
      (∀ f, some f ∈ table'.hashtable.entries → f.key = key ∨ some f ∈ table.hashtable.entries) ∧
      ∃ f, some f ∈ table'.hashtable.entries ∧ keys.keyEqualsFunc key f.key = true := by
  obtain ⟨s, r, hs, ha, hr, -⟩ := parcHashCodeTableAdd_inv hc h.wellFormed ha
  have hco : Compact s.hashtable := by
    obtain ⟨rfl, -⟩ | hco := hs.compact
    · exact h.compact
    · exact hco
  obtain ⟨hwf', hc', hk, hn, hke⟩ := hco.innerTableAdd hc hs.wellFormed rfl ha hr
  refine ⟨⟨hwf', hc'⟩, fun f hf => hk f ((hs.mem f).mpr hf), fun f hf => ?_, hke⟩
  exact (hn f hf).imp (congrArg HashTableEntry.key) (hs.mem f).mp

/-- **An addition returns** if the keys are sparse: with every expansion the table
comes nearer to one that is large. -/
theorem Sparse.add_returns (hsp : Sparse keys used) (h : Grown keys table)
    (hst : Stores used table.hashtable) (hk : key ∈ used) :
    Exec.Returns (parcHashCodeTableAdd keys table (some key) (some data)) := by
  obtain ⟨bound, hb⟩ := exists_large keys used
  have hg {s : PARCHashCodeTable K D} (hs : Grown keys s)
      (hst : Stores used s.hashtable) : ∃ s', expand keys s = pure s' ∧
        Grown keys s' ∧ Stores used s'.hashtable ∧
        s.hashtable.tableLimit < s'.hashtable.tableLimit := by
    obtain ⟨s', hexpand⟩ := hsp.expand_returns hc hs.wellFormed hst
    have hs' := expand_spec hc hs.wellFormed hexpand
    exact ⟨s', hexpand, ⟨hs'.wellFormed, hs'.compact⟩, fun f hf => hst f ((hs'.mem f).mp hf),
      hs'.limit⟩
  obtain ⟨t1, hexpand, h1, hs1⟩ : ∃ t1,
      (if table.hashtable.tableSize ≥ table.hashtable.expandThreshold then
        expand keys table else pure table) = pure t1 ∧
      Grown keys t1 ∧ Stores used t1.hashtable := by
    split
    · obtain ⟨t1, hexpand, h1, hs1, -⟩ := hg h hst
      exact ⟨t1, hexpand, h1, hs1⟩
    · exact ⟨table, rfl, h, hst⟩
  have hl : Exec.Returns (Exec.loop (addBody keys ⟨key, data, keys.keyHashCodeFunc key⟩) t1) := by
    refine loop_returns (fun m s => Grown keys s ∧ Stores used s.hashtable ∧
      bound - s.hashtable.tableLimit = m) ?_ ⟨h1, hs1, rfl⟩
    rintro m s ⟨hs, hst, rfl⟩
    rcases innerTableAdd_cases keys hs.wellFormed.limit_pos
      ⟨key, data, keys.keyHashCodeFunc key⟩ with ⟨hfu, -⟩ | ⟨_, _, _, ⟨_, ha⟩ | ⟨_, ha⟩⟩
    · have hsm : s.hashtable.tableLimit < bound := by
        by_contra hge
        exact hsp.hasSpace hc hs.wellFormed hs.compact hst (hb _ (Nat.le_of_not_lt hge)) rfl hk hfu
      obtain ⟨s', hexpand, hs', hst', hli⟩ := hg hs hst
      refine .inr ⟨s', _, ?_, ⟨hs', hst', rfl⟩, by omega⟩
      rw [addBody_noSpace hfu, hexpand, pure_bind]
    all_goals exact .inl ⟨_, addBody_done ha (by decide)⟩
  obtain ⟨r, hr⟩ := hl
  refine ⟨r, ?_⟩
  simp only [parcHashCodeTableAdd, assertNotNull_some, pure_bind]
  rw [hexpand, pure_bind, hr]

/-! ## Runs of additions -/

omit hc in
theorem runAdds_cons {adds r} :
    runAdds keys table ((key, data) :: adds) = pure r ↔ ∃ table' added results,
        parcHashCodeTableAdd keys table (some key) (some data) = pure (table', added) ∧
        runAdds keys table' adds = pure (r.1, results) ∧ r.2 = some added :: results := by
  obtain ⟨t2, rs2⟩ := r
  simp only [runAdds, map_cons, runCalls, Call.run]
  constructor
  · intro h
    obtain ⟨⟨table', res⟩, hca, hr⟩ := bind_eq_pure.mp h
    obtain ⟨⟨t1, added⟩, ha, heq⟩ := bind_eq_pure.mp hca
    cases heq
    obtain ⟨⟨t3, results⟩, hru, heq⟩ := bind_eq_pure.mp hr
    cases heq
    exact ⟨_, added, results, ha, hru, rfl⟩
  · rintro ⟨table', added, results, ha, hru, rfl⟩
    rw [ha, pure_bind, pure_bind]
    rw [hru, pure_bind]

theorem Sparse.runAdds_returns (hs : Sparse keys used) {adds}
    (ha : ∀ add ∈ adds, add.1 ∈ used) (h : Grown keys table)
    (hst : Stores used table.hashtable) : Exec.Returns (runAdds keys table adds) := by
  induction adds generalizing table with
  | nil => exact ⟨_, rfl⟩
  | cons add adds ih =>
    obtain ⟨key, data⟩ := add
    have hk := ha _ (.head _)
    obtain ⟨⟨table', added⟩, had⟩ : Exec.Returns
        (parcHashCodeTableAdd keys table (some key) (some data)) :=
      hs.add_returns hc h hst hk
    obtain ⟨h', -, hn, -⟩ := h.add hc had
    have hs' : Stores used table'.hashtable := by
      intro f hf
      rcases hn f hf with heq | hf
      · rw [heq]
        exact hk
      · exact hst f hf
    obtain ⟨r, hr⟩ := ih (fun add had => ha add (.tail _ had)) h' hs'
    exact ⟨(r.1, some added :: r.2), runAdds_cons.mpr ⟨table', added, r.2, had, hr, rfl⟩⟩

theorem Grown.runAdds (h : Grown keys table) {adds rs}
    (hr : runAdds keys table adds = pure (table', rs)) :
    Grown keys table' ∧
      (∀ f, some f ∈ table.hashtable.entries → some f ∈ table'.hashtable.entries) ∧
      ∀ add ∈ adds, ∃ f, some f ∈ table'.hashtable.entries ∧
        keys.keyEqualsFunc add.1 f.key = true := by
  induction adds generalizing table rs with
  | nil =>
    cases hr
    exact ⟨h, fun _ => id, fun _ ha => by cases ha⟩
  | cons add adds ih =>
    obtain ⟨t1, added, rs1, ha, hre, -⟩ := runAdds_cons.mp hr
    obtain ⟨h1, hk1, -, f, hf, heq⟩ := h.add hc ha
    obtain ⟨h', hk, hs⟩ := ih h1 hre
    refine ⟨h', fun g hg => hk g (hk1 g hg), fun add ha => ?_⟩
    rcases mem_cons.mp ha with rfl | ha
    · exact ⟨f, hk f hf, heq⟩
    · exact hs add ha

theorem WellFormed.crowd_length (hwf : WellFormed keys t) {hashcode crowd}
    (hdi : Different keys crowd) (hh : ∀ k ∈ crowd, keys.keyHashCodeFunc k = hashcode)
    (hs : ∀ k ∈ crowd, ∃ f, some f ∈ t.entries ∧ keys.keyEqualsFunc k f.key = true) :
    crowd.length ≤ maxProbeLength := by
  have hsl : ∀ k ∈ crowd, ∃ d, d < maxProbeLength ∧ ∃ f,
      t.entry (slot t.tableLimit hashcode d) = some f ∧ keys.keyEqualsFunc k f.key = true := by
    intro k hk
    obtain ⟨f, hf, heq⟩ := hs k hk
    obtain ⟨i, hi⟩ := mem_entries.mp hf
    obtain ⟨d, hd, hsl⟩ := hwf.inReach i f hi
    rw [hwf.hashed i f hi, ← hc.hash _ _ heq, hh k hk] at hsl
    exact ⟨d, by omega, f, hsl ▸ hi, heq⟩
  choose! d hd using hsl
  have hn : (crowd.map d).Nodup := by
    refine pairwise_map.mpr (hdi.imp_of_mem fun {a b} ha hb hne heq => ?_)
    obtain ⟨-, f, hf, haf⟩ := hd a ha
    obtain ⟨-, g, hg, hbg⟩ := hd b hb
    rw [heq, hg] at hf
    cases hf
    rw [hc.trans _ _ _ haf (hc.symm _ _ hbg)] at hne
    cases hne
  have hsu : crowd.map d ⊆ range maxProbeLength := by
    intro i hi
    obtain ⟨k, hk, rfl⟩ := mem_map.mp hi
    exact mem_range.mpr (hd k hk).1
  have hle := (subperm_of_subset hn hsu).length_le
  rwa [length_map, length_range] at hle

omit hc in
theorem expand_ne_throw (trap : Trap) : expand keys table ≠ throw trap := by
  refine loop_ne_throw (fun s trap => ?_) _ _
  unfold expandBody
  dsimp only
  split <;> exact pure_ne_throw

omit hc in
theorem add_ne_throw (trap : Trap) :
    parcHashCodeTableAdd keys table (some key) (some data) ≠ throw trap := by
  simp only [parcHashCodeTableAdd, assertNotNull_some, pure_bind]
  refine bind_ne_throw ?_ fun table => loop_ne_throw (fun s trap => ?_) _ _
  · split
    · exact expand_ne_throw trap
    · exact pure_ne_throw
  · unfold addBody
    split
    · exact bind_ne_throw (expand_ne_throw trap) fun _ => pure_ne_throw
    · exact pure_ne_throw

/-- **A twenty-first key of one hash code** is never added: however often the table
is expanded, the other 20 are all in the probe. -/
theorem Grown.add_diverges (h : Grown keys table) {crowd}
    (hd : Different keys (key :: crowd)) (hl : crowd.length = maxProbeLength)
    (hcr : ∀ k ∈ crowd, keys.keyHashCodeFunc k = keys.keyHashCodeFunc key ∧
      ∃ f, some f ∈ table.hashtable.entries ∧ keys.keyEqualsFunc k f.key = true) :
    Exec.Diverges (parcHashCodeTableAdd keys table (some key) (some data)) := by
  refine Exec.diverges_of ?_ add_ne_throw
  rintro ⟨⟨table', added⟩, ha⟩
  obtain ⟨h', hke, -, f, hf, heq⟩ := h.add hc ha
  have hh : ∀ k ∈ key :: crowd, keys.keyHashCodeFunc k = keys.keyHashCodeFunc key := by
    intro k hk
    rcases mem_cons.mp hk with rfl | hk
    · rfl
    · exact (hcr k hk).1
  have hle := h'.wellFormed.crowd_length hc hd hh fun k hk => by
    rcases mem_cons.mp hk with rfl | hk
    · exact ⟨f, hf, heq⟩
    · obtain ⟨g, hg, heq⟩ := (hcr k hk).2
      exact ⟨g, hke g hg, heq⟩
  rw [length_cons, hl] at hle
  exact Nat.not_succ_le_self _ hle

theorem sparse_of_length (hl : used.length ≤ maxProbeLength) : Sparse keys used := by
  intro key hke first hle others hd ho
  have hn : (key :: others).Nodup := by
    refine nodup_cons.mpr ⟨fun hm => ?_, hd.imp fun {a b} hne heq => ?_⟩
    · have hne := (ho key hm).2.1
      rw [hc.refl] at hne
      cases hne
    · rw [heq, hc.refl] at hne
      cases hne
  have hs : key :: others ⊆ used := by
    intro k hk
    rcases mem_cons.mp hk with rfl | hk
    · exact hke
    · exact (ho k hk).1
  have hlen := (subperm_of_subset hn hs).length_le
  rw [length_cons] at hlen
  omega

end

/-- **A run of additions comes to an end** if no key can find its probe full in a
large table. It does not if more than 20 different keys have one hash code. -/
theorem runAdds_returns_of_sparse (hc : keys.Consistent) {minimumSize : Nat}
    (hcreate : parcHashCodeTableCreateSize minimumSize = pure table) (adds : List (K × D)) :
    (Sparse keys (adds.map Prod.fst) → Exec.Returns (runAdds keys table adds)) ∧
      (Exec.Returns (runAdds keys table adds) → Uncrowded keys (adds.map Prod.fst)) := by
  have hg : Grown keys table := grown_create hcreate
  constructor
  · intro hs
    refine hs.runAdds_returns hc (fun add ha => mem_map_of_mem ha) hg ?_
    intro f hf
    exact absurd hf (create_empty hcreate f)
  · rintro ⟨⟨table', rs⟩, hr⟩ hashcode crowd hd hcr
    obtain ⟨h', -, hst⟩ := hg.runAdds hc hr
    refine h'.wellFormed.crowd_length hc hd (fun k hk => (hcr k hk).2) fun k hk => ?_
    obtain ⟨add, ha, rfl⟩ := mem_map.mp (hcr k hk).1
    exact hst add ha

theorem runAdds_returns_two : Exec.Returns (runAdds collidingKeys
    (⟨cleared 256, 0⟩ : PARCHashCodeTable Nat String) [(1, "a"), (2, "b")]) :=
  (runAdds_returns_of_sparse collidingKeys_consistent
    (show parcHashCodeTableCreateSize 256 = _ from rfl) [(1, "a"), (2, "b")]).1
    (sparse_of_length collidingKeys_consistent (by decide))

/-- Twenty numbers with one hash code are added to a new table, and the next one
expands it forever. -/
theorem add_colliding_diverges :
    ∃ (table : PARCHashCodeTable Nat Unit) (results : List (Option Bool)),
      (parcHashCodeTableCreate >>= fun table => runAdds collidingKeys table
        ((range 20).map fun k => (k, ()))) = pure (table, results) ∧
      Exec.Diverges (parcHashCodeTableAdd collidingKeys table (some 20) (some ())) := by
  have hc := collidingKeys_consistent
  have hcr : parcHashCodeTableCreateSize 256 =
      (pure ⟨cleared 256, 0⟩ : Prog (PARCHashCodeTable Nat Unit)) := rfl
  have hg : Grown collidingKeys ⟨cleared 256, 0⟩ := grown_create hcr
  have hs : Sparse collidingKeys (range 20) := sparse_of_length hc (by decide)
  have hr : Exec.Returns (runAdds collidingKeys ⟨cleared 256, 0⟩
      ((range 20).map fun k => (k, ()))) := by
    refine hs.runAdds_returns hc (fun add ha => ?_) hg fun f hf => absurd hf (create_empty hcr f)
    obtain ⟨k, hk, rfl⟩ := mem_map.mp ha
    exact hk
  obtain ⟨⟨table, results⟩, hru⟩ := hr
  obtain ⟨h, -, hst⟩ := hg.runAdds hc hru
  have hd : Different collidingKeys (20 :: range 20) := by
    unfold Different
    decide
  refine ⟨table, results, hru, h.add_diverges hc hd rfl fun k hk => ?_⟩
  exact ⟨rfl, hst (k, ()) (mem_map_of_mem hk)⟩

end Libparc.HashCodeTable
