import Libparc.Algol.Buffer
import Libparc.Algol.HashCodeTableHomed
import Libparc.Algol.Object

/-! # parc_BufferDictionary

A hash code table whose keys and data are buffers. The table holds a reference to each
of them, which its destroyers release. -/
namespace Libparc.BufferDictionary
open References Object HashCodeTable LinearAddressingHashTable List Function Option Store
open Buffer (PARCBuffer hashOfBytes)

/-! ## The calls -/

/-- A dictionary, with its table, and the buffers in memory. -/
structure State where
  hashtable : PARCHashCodeTable Ptr Ptr
  objects : Store (Counted PARCBuffer)

section
variable (s : State)

abbrev State.slots : LinearAddressingHashTable Ptr Ptr := s.hashtable.hashtable

def parcBufferAcquire (p : Ptr) : Prog State := do
  let objects ← parcObjectAcquire s.objects p
  pure { s with objects }

/-- `_parcBuffer_Destructor` always lets the buffer be deallocated. -/
def parcBufferRelease : State → Ptr → Prog State :=
  parcObjectRelease State.objects (fun s objects => { s with objects }) fun s _ => pure (true, s)

def bytesAt (objects : Store (Counted PARCBuffer)) (p : Ptr) : List UInt8 :=
  match objects.cell p with
  | some object => object.value.remainingBytes
  | none => []

def bufferKeys (bytes : Ptr → List UInt8) : KeyFunctions Ptr where
  keyEqualsFunc x y := decide (bytes x = bytes y)
  keyHashCodeFunc x := (hashOfBytes (bytes x)).toNat

/-- `_parcBufferEquals` and `_parcBufferHashCode`, which read the buffers. -/
def State.keys : KeyFunctions Ptr := bufferKeys (bytesAt s.objects)

/-- A call to the table reads the key that it is given, and keys that are stored. -/
def readKeys (key : Ptr) : Prog Unit :=
  forM (key :: s.slots.contents.map (·.key)) fun p => do
    let _ ← s.objects.read p

def tableAdd (key data : Ptr) : Prog (Bool × State) := do
  readKeys s key
  let (hashtable, added) ← parcHashCodeTableAdd s.keys s.hashtable (some key) (some data)
  pure (added, { s with hashtable })

def tableGet (key : Ptr) : Prog (Option Ptr) := do
  readKeys s key
  parcHashCodeTableGet s.keys s.hashtable (some key)

/-- The destroyers of a key and its data, both `_parcBufferRelease`. -/
def destroyEntry (e : HashTableEntry Ptr Ptr) : Prog State := do
  let s ← parcBufferRelease s e.key
  parcBufferRelease s e.data

def tableDel (key : Ptr) : Prog State := do
  readKeys s key
  let hashtable ← parcHashCodeTableDel s.keys s.hashtable (some key)
  let found := (s.slots.findIndex s.keys key).bind s.slots.entry
  let s ← found.toList.foldlM destroyEntry s
  pure { s with hashtable }

def parcBufferDictionaryCreate (objects : Store (Counted PARCBuffer)) : Prog State := do
  let hashtable ← parcHashCodeTableCreate
  pure ⟨hashtable, objects⟩

/-- What `parcBufferDictionary_Put` does if the key was not added. -/
def replaceValue (key value : Ptr) : Prog (Option Ptr × State) := do
  let original ← tableGet s key
  let s ← parcBufferAcquire s (original.getD NULL)
  let s ← tableDel s key
  let (_, s) ← tableAdd s key value
  pure (original, s)

/-- The old value, NULL if the key is new. -/
def parcBufferDictionaryPut (key value : Option Ptr) : Prog (Option Ptr × State) := do
  let key ← assertNotNull key "Parameter key must be non-NULL"
  let value ← assertNotNull value "Parameter value must be non-NULL"
  let s ← parcBufferAcquire s key
  let s ← parcBufferAcquire s value
  let (added, s) ← tableAdd s key value
  if added then pure (none, s) else replaceValue s key value

def parcBufferDictionaryGet (key : Option Ptr) : Prog (Option Ptr) := do
  let key ← assertNotNull key "Parameter key must be non-NULL"
  tableGet s key

def parcBufferDictionaryRemove (key : Option Ptr) : Prog (Option Ptr × State) := do
  let key ← assertNotNull key "Parameter key must be non-NULL"
  let original ← tableGet s key
  let s ← parcBufferAcquire s (original.getD NULL)
  let s ← tableDel s key
  pure (original, s)

/-- `_destroy`, with `parcHashCodeTable_Destroy`: the buffers that are left in memory. -/
def destroy : Prog (Store (Counted PARCBuffer)) := do
  let s ← s.slots.contents.foldlM destroyEntry s
  pure s.objects

/-! ## Keys -/

theorem bufferKeys_consistent (bs : Ptr → List UInt8) : (bufferKeys bs).Consistent := by
  refine ⟨fun a => decide_eq_true rfl, ?_, ?_, ?_⟩
  · intro a b h
    exact decide_eq_true (of_decide_eq_true h).symm
  · intro a b c h h'
    exact decide_eq_true ((of_decide_eq_true h).trans (of_decide_eq_true h'))
  · intro a b h
    exact congrArg (fun bs => (hashOfBytes bs).toNat) (of_decide_eq_true h)

theorem State.keys_consistent : s.keys.Consistent := bufferKeys_consistent _

end

/-- The key functions give what `parcBuffer_Equals` and `parcBuffer_HashCode` compute. -/
theorem State.keys_eq {s : State} {x y : Ptr} {a b} (hx : s.objects.cell x = some a)
    (hy : s.objects.cell y = some b) (ha : a.value.Valid) (hb : b.value.Valid) :
    Buffer.parcBufferEquals a.value b.value = pure (s.keys.keyEqualsFunc x y) ∧
      ∃ code, Buffer.parcBufferHashCode a.value = pure code ∧
        s.keys.keyHashCodeFunc x = code.toNat := by
  simp only [keys, bufferKeys, bytesAt, hx, hy]
  exact ⟨Buffer.equals_spec ha hb, _, Buffer.hashCode_spec ha, rfl⟩

/-! ## References -/

/-- The references that a table holds for its entries. -/
def references (es : List (HashTableEntry Ptr Ptr)) : Multiset Ptr :=
  es.flatMap fun e => [e.key, e.data]

section
variable {v : Ptr → PARCBuffer} {held : Multiset Ptr} {s : State} {p : Ptr}
variable {e : HashTableEntry Ptr Ptr} {es es' : List (HashTableEntry Ptr Ptr)}

theorem references_nil : references [] = 0 := rfl

theorem references_cons : references (e :: es) = e.key ::ₘ e.data ::ₘ references es := rfl

theorem references_perm (h : es.Perm es') : references es = references es' :=
  Multiset.coe_eq_coe.mpr (h.flatMap_right _)

theorem mem_references (he : e ∈ es) (hp : p = e.key ∨ p = e.data) : p ∈ references es :=
  Multiset.mem_coe.mpr (mem_flatMap.mpr ⟨e, he, by simpa using hp⟩)

theorem release_accounts (h : Accounts s.objects v (p ::ₘ held)) :
    ∃ objects, parcBufferRelease s p = pure { s with objects } ∧
      Accounts objects v held := by
  have hc := h.cell (Multiset.mem_cons_self p held)
  rw [Multiset.count_cons_self] at hc
  rw [parcBufferRelease, parcObjectRelease, read_of hc, pure_bind, if_neg (Nat.succ_ne_zero _),
    write_of hc, pure_bind]
  by_cases hp : p ∈ held
  · have hco := Multiset.count_pos.mpr hp
    rw [if_neg (show ¬ held.count p + 1 - 1 = 0 by omega)]
    exact ⟨_, rfl, h.lower hp⟩
  · have hco := Multiset.count_eq_zero_of_notMem hp
    rw [if_pos (show held.count p + 1 - 1 = 0 by omega)]
    exact ⟨_, rfl, h.last hp _⟩

theorem destroyEntries_accounts (es : List (HashTableEntry Ptr Ptr))
    (h : Accounts s.objects v (references es + held)) :
    ∃ objects, es.foldlM destroyEntry s = pure { s with objects } ∧
      Accounts objects v held := by
  induction es generalizing s with
  | nil =>
    refine ⟨s.objects, rfl, ?_⟩
    rwa [references_nil, Multiset.zero_add] at h
  | cons e es ih =>
    rw [references_cons, Multiset.cons_add, Multiset.cons_add] at h
    obtain ⟨os1, hkey, h1⟩ := release_accounts h
    obtain ⟨os2, hd, h2⟩ := release_accounts (s := { s with objects := os1 }) h1
    obtain ⟨os3, hr, h3⟩ := ih (s := { s with objects := os2 }) h2
    refine ⟨os3, ?_, h3⟩
    rw [foldlM_cons, destroyEntry, hkey, pure_bind, hd, pure_bind, hr]

end

/-! ## Calls to the table -/

/-- The bytes of the buffers that there are in a run. -/
def bytesOf (value : Ptr → PARCBuffer) (p : Ptr) : List UInt8 := (value p).remainingBytes

def Live (s : State) (p : Ptr) : Prop := (s.objects.cell p).isSome = true

/-- The table has the map `M`, and holds a reference for each key and datum; the references
in `others` are held elsewhere. -/
structure Sound (value : Ptr → PARCBuffer) (others : Multiset Ptr)
    (M : List UInt8 → Option Ptr) (s : State) : Prop where
  wellFormed : WellFormed (bufferKeys (bytesOf value)) s.slots
  homed : Homed s.slots
  map : ∀ b d, M b = some d ↔ ∃ e, some e ∈ s.slots.entries ∧ bytesOf value e.key = b ∧ e.data = d
  accounts : Accounts s.objects value (others + references s.slots.contents)

section
variable {w : Ptr → PARCBuffer} {others : Multiset Ptr} {M : List UInt8 → Option Ptr}
variable {s : State} {t : LinearAddressingHashTable Ptr Ptr} {key data p : Ptr}
variable {e : HashTableEntry Ptr Ptr} {hashtable : PARCHashCodeTable Ptr Ptr}

theorem wellFormed_bytes {bs bs'} (hb : ∀ e, some e ∈ t.entries → bs' e.key = bs e.key)
    (hwf : WellFormed (bufferKeys bs) t) : WellFormed (bufferKeys bs') t := by
  refine hwf.congr (fun e f he hf => ?_) (fun e he => ?_)
  · simp only [bufferKeys, hb e he, hb f hf]
  · simp only [bufferKeys, hb e he]

theorem bytesAt_stored (h : Accounts s.objects w (others + references t.contents))
    (he : some e ∈ t.entries) : bytesAt s.objects e.key = bytesOf w e.key := by
  have hm := mem_references (mem_contents.mpr he) (.inl rfl)
  rw [bytesAt, h.cell (Multiset.mem_add.mpr (.inr hm))]
  rfl

namespace Sound

theorem of_table (ha : Accounts s.objects w (others + references t.contents))
    {hashtable} (heq : hashtable.hashtable = t) (hwf : WellFormed s.keys t) (hh : Homed t)
    (hm : ∀ b d, M b = some d ↔ ∃ e, some e ∈ t.entries ∧ bytesOf w e.key = b ∧ e.data = d) :
    Sound w others M { s with hashtable } := by
  subst heq
  exact ⟨wellFormed_bytes (fun _ he => (bytesAt_stored ha he).symm) hwf, hh, hm, ha⟩

variable (h : Sound w others M s)
include h

theorem live_iff : Live s p ↔ p ∈ others + references s.slots.contents := h.accounts.mem_iff.symm

theorem live (hp : p ∈ others) : Live s p := h.live_iff.mpr (Multiset.mem_add.mpr (.inl hp))

theorem live_stored (he : some e ∈ s.slots.entries) (hp : p = e.key ∨ p = e.data) : Live s p :=
  h.live_iff.mpr (Multiset.mem_add.mpr (.inr (mem_references (mem_contents.mpr he) hp)))

theorem bytesAt_eq (hp : Live s p) : bytesAt s.objects p = bytesOf w p := by
  rw [bytesAt, h.accounts.cell (h.live_iff.mp hp)]
  rfl

theorem wellFormed_keys : WellFormed s.keys s.slots :=
  wellFormed_bytes (fun _ he => bytesAt_stored h.accounts he) h.wellFormed

theorem acquire (hp : Live s p) :
    ∃ objects, parcBufferAcquire s p = pure { s with objects } ∧
      Sound w (p ::ₘ others) M { s with objects } ∧
      ∀ q, Live s q → Live { s with objects } q := by
  have hm := h.live_iff.mp hp
  have ha := h.accounts.raise hm
  rw [parcBufferAcquire, parcObjectAcquire, write_of (h.accounts.cell hm), pure_bind]
  refine ⟨_, rfl, ⟨h.wellFormed, h.homed, h.map, ?_⟩, fun q hq => ?_⟩
  · rwa [Multiset.cons_add]
  · exact ha.mem_iff.mp (Multiset.mem_cons_of_mem (h.live_iff.mp hq))

variable (hk : Live s key)
include hk

theorem readKeys_eq : readKeys s key = pure () := by
  have hr : ∀ ps : List Ptr, (∀ p ∈ ps, Live s p) →
      (forM ps fun p => do let _ ← s.objects.read p : Prog Unit) = pure () := by
    intro ps hps
    induction ps with
    | nil => rfl
    | cons p ps ih =>
      obtain ⟨hp, hps⟩ := forall_mem_cons.mp hps
      rw [forM_cons, read_of (h.accounts.cell (h.live_iff.mp hp)), pure_bind, pure_bind,
        ih hps]
  refine hr _ (forall_mem_cons.mpr ⟨hk, fun p hp => ?_⟩)
  obtain ⟨e, he, rfl⟩ := mem_map.mp hp
  exact h.live_stored (mem_contents.mp he) (.inl rfl)

theorem lookup_eq : lookup s.keys s.slots key = M (bytesOf w key) := by
  apply ext
  intro d
  rw [h.wellFormed_keys.lookup_eq_some s.keys_consistent, h.map]
  refine exists_congr fun e => and_congr_right fun he => and_congr_left fun _ => ?_
  rw [State.keys, bufferKeys, decide_eq_true_iff, h.bytesAt_eq hk,
    bytesAt_stored h.accounts he, eq_comm]

theorem get : tableGet s key = pure (M (bytesOf w key)) := by
  rw [tableGet, h.readKeys_eq hk, pure_bind, parcHashCodeTableGet_eq, h.lookup_eq hk]

theorem add_present (hp : M (bytesOf w key) ≠ none) (data : Ptr) :
    ∃ hashtable, tableAdd s key data = pure (false, { s with hashtable }) ∧
      Roomy s.keys s.hashtable hashtable ∧
      Sound w others M { s with hashtable } := by
  have hc := s.keys_consistent
  rw [← h.lookup_eq hk] at hp
  obtain ⟨hashtable, ha, hr⟩ := HashCodeTable.add_present hc h.wellFormed_keys h.homed hp data
  have hre := references_perm (contents_perm hc h.wellFormed_keys hr.wellFormed hr.mem)
  refine ⟨hashtable, ?_, hr, .of_table (hre ▸ h.accounts) rfl hr.wellFormed hr.homed fun b d => ?_⟩
  · rw [tableAdd, h.readKeys_eq hk, pure_bind]
    simp only [ha, pure_bind]
  · simp only [h.map, hr.mem]

theorem del (hp : M (bytesOf w key) ≠ none) :
    ∃ os hashtable i, tableDel s key = pure ⟨hashtable, os⟩ ∧
      hashtable.hashtable = s.slots.clear i ∧
      Sound w others (update M (bytesOf w key) none) ⟨hashtable, os⟩ := by
  have hc := s.keys_consistent
  have hwf := h.wellFormed_keys
  rw [← h.lookup_eq hk] at hp
  obtain ⟨d, hd⟩ := ne_none_iff_exists'.mp hp
  obtain ⟨e, hm, heq, -⟩ := (hwf.lookup_eq_some hc).mp hd
  obtain ⟨i, he⟩ := mem_entries.mp hm
  have hby : bytesOf w key = bytesOf w e.key := by
    rw [← h.bytesAt_eq hk, ← bytesAt_stored h.accounts hm]
    exact of_decide_eq_true heq
  have hg := fun f => h.wellFormed.mem_clear (f := f) (bufferKeys_consistent _) he
  have ha : some e ∉ (s.slots.clear i).entries := fun hin =>
    absurd rfl (of_decide_eq_false ((hg e).mp hin).2)
  have hpe := contents_cons hc (hwf.clear he) hwf ha fun f => mem_iff_clear he
  have hac := h.accounts
  rw [references_perm hpe, show references (e :: _) = references [e] + references _ from rfl,
    ← Multiset.add_assoc, Multiset.add_comm others, Multiset.add_assoc] at hac
  obtain ⟨os, hde, ha'⟩ := destroyEntries_accounts [e] hac
  refine ⟨os, ⟨s.slots.clear i, s.hashtable.expandCount⟩, i, ?_, rfl,
    h.wellFormed.clear he, h.homed.clear, fun b d => ?_, ha'⟩
  · rw [tableDel, h.readKeys_eq hk, pure_bind, parcHashCodeTableDel_found hc hwf he heq,
      pure_bind, (hwf.findIndex_eq_some hc).mpr ⟨e, he, heq⟩, bind_some, he]
    simp only [toList_some, hde, pure_bind]
  · rw [hby, update_apply]
    split
    · rename_i hb
      refine ⟨nofun, fun ⟨f, hf, hfb, _⟩ => ?_⟩
      exact absurd (hb.symm.trans hfb.symm) (of_decide_eq_false ((hg f).mp hf).2)
    · rename_i hb
      rw [h.map]
      refine exists_congr fun f => and_congr_left fun ⟨hfb, _⟩ => ?_
      rw [hg f]
      refine ⟨fun hf => ⟨hf, decide_eq_false ?_⟩, And.left⟩
      rw [hfb]
      exact Ne.symm hb

end Sound

theorem Sound.add_absent (h : Sound w (key ::ₘ data ::ₘ others) M s)
    (hno : NoCollision (bufferKeys (bytesOf w)) s.slots key) (ha : M (bytesOf w key) = none) :
    ∃ hashtable, tableAdd s key data = pure (true, { s with hashtable }) ∧
      Sound w others (update M (bytesOf w key) (some data)) { s with hashtable } := by
  have hc := s.keys_consistent
  have hwf := h.wellFormed_keys
  have hkey : Live s key := h.live (Multiset.mem_cons_self ..)
  have hno' : NoCollision s.keys s.slots key := by
    intro e he hs
    simp only [State.keys, bufferKeys, h.bytesAt_eq hkey, bytesAt_stored h.accounts he] at hs ⊢
    exact hno e he hs
  obtain ⟨hashtable, had, hwf', hh, hm⟩ :=
    HashCodeTable.add_absent hc hwf h.homed hno' ((h.lookup_eq hkey).trans ha) data
  have hn : ∀ e, some e ∈ s.slots.entries → bytesOf w e.key ≠ bytesOf w key := by
    intro e he heq
    have hso := (h.map _ _).mpr ⟨e, he, heq, rfl⟩
    rw [ha] at hso
    cases hso
  have hp := contents_cons hc hwf hwf' (fun he => hn _ he rfl) hm
  have hac := h.accounts
  rw [Multiset.cons_add, Multiset.cons_add, ← Multiset.add_cons, ← Multiset.add_cons,
    ← references_cons (e := ⟨key, data, s.keys.keyHashCodeFunc key⟩),
    ← references_perm hp] at hac
  refine ⟨hashtable, ?_, .of_table hac rfl hwf' hh fun b d => ?_⟩
  · rw [tableAdd, h.readKeys_eq hkey, pure_bind]
    simp only [had, pure_bind]
  · rw [update_apply]
    simp only [hm]
    split
    · rename_i hb
      rw [some_inj]
      constructor
      · rintro rfl
        exact ⟨_, .inl rfl, hb.symm, rfl⟩
      · rintro ⟨e, rfl | he, heb, hd⟩
        · exact hd
        · exact absurd (heb.trans hb) (hn e he)
    · rename_i hb
      rw [h.map]
      constructor
      · rintro ⟨e, he, heb, hd⟩
        exact ⟨e, .inr he, heb, hd⟩
      · rintro ⟨e, rfl | he, heb, hd⟩
        · exact absurd heb.symm hb
        · exact ⟨e, he, heb, hd⟩

/-! ## Calls to the dictionary -/

/-- The reference that a call hands out with its result. -/
def handedOut (result : Option Ptr) : Multiset Ptr := result.toList

namespace Sound

theorem replace {table keys}
    (h : Sound w (key ::ₘ data ::ₘ others) M s) (hr : Roomy keys table s.hashtable)
    (hno : NoCollision (bufferKeys (bytesOf w)) table.hashtable key)
    (hp : M (bytesOf w key) = some p) :
    ∃ s', replaceValue s key data = pure (some p, s') ∧
      Sound w (p ::ₘ others) (update M (bytesOf w key) (some data)) s' := by
  obtain ⟨e, he, -, hd⟩ := (h.map _ _).mp hp
  have hkey : Live s key := h.live (Multiset.mem_cons_self ..)
  obtain ⟨os1, ha, h1, hl⟩ := h.acquire (h.live_stored he (.inr hd.symm))
  obtain ⟨os2, t2, i, hde, hc, h2⟩ := h1.del (hl key hkey) (by rw [hp]; nofun)
  rw [Multiset.cons_swap p key, Multiset.cons_swap p data] at h2
  have hno2 : NoCollision (bufferKeys (bytesOf w)) t2.hashtable key := by
    rw [hc]
    refine hno.mono hr.roomFor_clear fun e he => (hr.mem e).mp ?_
    exact mem_of_clear he
  obtain ⟨t3, had, h3⟩ := h2.add_absent hno2 (update_self ..)
  rw [update_idem] at h3
  refine ⟨_, ?_, h3⟩
  rw [replaceValue, h.get hkey, hp, pure_bind, getD_some, ha, pure_bind, hde, pure_bind]
  simp only [had, pure_bind]

variable (h : Sound w others M s) (hke : Live s key)
include h hke

/-- **`parcBufferDictionary_Put`** returns the value that the key had. -/
theorem put (hd : Live s data) (hno : NoCollision (bufferKeys (bytesOf w)) s.slots key) :
    ∃ s', parcBufferDictionaryPut s (some key) (some data) = pure (M (bytesOf w key), s') ∧
      Sound w (handedOut (M (bytesOf w key)) + others)
        (update M (bytesOf w key) (some data)) s' := by
  obtain ⟨os1, ha1, h1, hl1⟩ := h.acquire hke
  obtain ⟨os2, ha2, h2, -⟩ := h1.acquire (hl1 data hd)
  rw [Multiset.cons_swap] at h2
  simp only [parcBufferDictionaryPut, assertNotNull_some, pure_bind, ha1, ha2]
  cases hp : M (bytesOf w key) with
  | none =>
    obtain ⟨hashtable, ha, h3⟩ := h2.add_absent hno hp
    rw [show handedOut none = 0 from rfl, Multiset.zero_add]
    refine ⟨_, ?_, h3⟩
    simp only [ha, pure_bind]
    rfl
  | some p =>
    obtain ⟨hashtable, ha, hr, h3⟩ :=
      h2.add_present (h2.live (Multiset.mem_cons_self ..)) (by rw [hp]; nofun) data
    obtain ⟨s', hre, h4⟩ := h3.replace hr hno hp
    refine ⟨s', ?_, h4⟩
    simp only [ha, pure_bind]
    exact hre

theorem dictionaryGet : parcBufferDictionaryGet s (some key) = pure (M (bytesOf w key)) := by
  rw [parcBufferDictionaryGet, assertNotNull_some, pure_bind, h.get hke]

/-- **`parcBufferDictionary_Remove`** of a key that is present returns its value. -/
theorem remove (hp : M (bytesOf w key) = some p) :
    ∃ s', parcBufferDictionaryRemove s (some key) = pure (some p, s') ∧
      Sound w (p ::ₘ others) (update M (bytesOf w key) none) s' := by
  obtain ⟨e, he, -, hd⟩ := (h.map _ _).mp hp
  obtain ⟨os1, ha, h1, hl⟩ := h.acquire (h.live_stored he (.inr hd.symm))
  obtain ⟨os2, t2, i, hde, -, h2⟩ := h1.del (hl key hke) (by rw [hp]; nofun)
  refine ⟨_, ?_, h2⟩
  rw [parcBufferDictionaryRemove, assertNotNull_some, pure_bind, h.get hke, hp, pure_bind,
    getD_some, ha, pure_bind, hde, pure_bind]

theorem remove_absent (ha : M (bytesOf w key) = none) :
    parcBufferDictionaryRemove s (some key) = throw .memoryFault := by
  rw [parcBufferDictionaryRemove, assertNotNull_some, pure_bind, h.get hke, ha, pure_bind,
    getD_none, parcBufferAcquire, parcObjectAcquire, write, read_null]
  rfl

end Sound

end

/-! ## Runs, and the map they follow -/

/-- A client calls the dictionary, or releases a reference that it holds. -/
inductive Call where
  | put (key value : Ptr)
  | get (key : Ptr)
  | remove (key : Ptr)
  | release (p : Ptr)

def Call.run (s : State) : Call → Prog (Option Ptr × State)
  | .put key value => parcBufferDictionaryPut s (some key) (some value)
  | .get key => do pure (← parcBufferDictionaryGet s (some key), s)
  | .remove key => parcBufferDictionaryRemove s (some key)
  | .release p => do pure (none, ← parcBufferRelease s p)

def runCalls : State → List Call → Prog (List (Option Ptr) × State)
  | s, [] => pure ([], s)
  | s, call :: calls => do
    let (result, s) ← call.run s
    let (results, s) ← runCalls s calls
    pure (result :: results, s)

/-- What a dictionary is for: a map from byte strings to buffers. With the references that
its clients hold. -/
structure Abstract where
  map : List UInt8 → Option Ptr
  held : Multiset Ptr

def Call.spec (bytes : Ptr → List UInt8) (a : Abstract) : Call → Option Ptr × Abstract
  | .put key value => (a.map (bytes key), ⟨Function.update a.map (bytes key) (some value),
      handedOut (a.map (bytes key)) + a.held⟩)
  | .get key => (a.map (bytes key), a)
  | .remove key => (a.map (bytes key), ⟨Function.update a.map (bytes key) none,
      handedOut (a.map (bytes key)) + a.held⟩)
  | .release p => (none, { a with held := a.held.erase p })

def specCalls (bytes : Ptr → List UInt8) : Abstract → List Call → List (Option Ptr) × Abstract
  | a, [] => ([], a)
  | a, call :: calls =>
    let (result, a) := call.spec bytes a
    let (results, a) := specCalls bytes a calls
    (result :: results, a)

/-- The arguments are buffers that there are, no other key in the table has the slot of a key
that is put, and a client releases what it holds. -/
def Call.Safe (value : Ptr → PARCBuffer) (s : State) (a : Abstract) : Call → Prop
  | .put key data => Live s key ∧ Live s data ∧
      NoCollision (bufferKeys (bytesOf value)) s.slots key
  | .get key => Live s key
  | .remove key => Live s key
  | .release p => p ∈ a.held

def SafeCalls (value : Ptr → PARCBuffer) : State → Abstract → List Call → Prop
  | _, _, [] => True
  | s, a, call :: calls => call.Safe value s a ∧ ∀ result s', call.run s = pure (result, s') →
      SafeCalls value s' (call.spec (bytesOf value) a).2 calls

/-- A key that is removed is in the dictionary. -/
def Call.Present (bytes : Ptr → List UInt8) (a : Abstract) : Call → Prop
  | .remove key => a.map (bytes key) ≠ none
  | _ => True

def RemovesPresent (bytes : Ptr → List UInt8) : Abstract → List Call → Prop
  | _, [] => True
  | a, call :: calls => call.Present bytes a ∧ RemovesPresent bytes (call.spec bytes a).2 calls

/-- The dictionary is the map: it reads as the map, and the buffers in memory have the
references that the clients hold and one for each key and each value of the map. The
dictionary releases those when it is destroyed. -/
structure Follows (value : Ptr → PARCBuffer) (a : Abstract) (s : State) : Prop where
  get : ∀ key, Live s key → parcBufferDictionaryGet s (some key) =
    pure (a.map (bytesOf value key))
  map : ∀ b d, a.map b = some d ↔ ∃ e ∈ s.slots.contents,
    bytesOf value e.key = b ∧ e.data = d
  once : (s.slots.contents.map fun e => bytesOf value e.key).Nodup
  accounts : Accounts s.objects value (a.held + references s.slots.contents)
  destroyed : ∃ objects, destroy s = pure objects ∧ Accounts objects value a.held

section
variable {x : Ptr → PARCBuffer} {a : Abstract} {s : State}

theorem Sound.follows (h : Sound x a.held a.map s) : Follows x a s := by
  have ha := h.accounts
  rw [Multiset.add_comm] at ha
  obtain ⟨os, hd, ha'⟩ := destroyEntries_accounts _ ha
  refine ⟨fun key => h.dictionaryGet, fun b d => ?_, ?_, h.accounts, os, ?_, ha'⟩
  · simp only [h.map, mem_contents]
  · rw [List.Nodup, pairwise_map]
    exact h.wellFormed.pairwise_contents.imp of_decide_eq_false
  · rw [destroy, hd, pure_bind]

section
variable (call : Call) (h : Sound x a.held a.map s) (hs : call.Safe x s a)
include h hs

theorem Call.run_sound (hpr : call.Present (bytesOf x) a) :
    ∃ s', call.run s = pure ((call.spec (bytesOf x) a).1, s') ∧
      Sound x (call.spec (bytesOf x) a).2.held (call.spec (bytesOf x) a).2.map s' := by
  cases call with
  | put key data =>
    obtain ⟨hkey, hd, hno⟩ := hs
    exact h.put hkey hd hno
  | get key =>
    refine ⟨s, ?_, h⟩
    rw [Call.run, h.dictionaryGet hs, pure_bind]
    rfl
  | remove key =>
    obtain ⟨p, hp⟩ := ne_none_iff_exists'.mp hpr
    obtain ⟨s', hr, h'⟩ := h.remove hs hp
    refine ⟨s', ?_, ?_⟩
    · rw [Call.run, hr, Call.spec, hp]
    · simp only [Call.spec, hp]
      exact h'
  | release p =>
    obtain ⟨rest, hre⟩ := Multiset.exists_cons_of_mem (show p ∈ a.held from hs)
    have ha := h.accounts
    rw [hre, Multiset.cons_add] at ha
    obtain ⟨objects, hrl, ha'⟩ := release_accounts ha
    refine ⟨{ s with objects }, ?_, h.wellFormed, h.homed, h.map, ?_⟩
    · rw [Call.run, hrl, pure_bind]
      rfl
    · simp only [Call.spec, hre, Multiset.erase_cons_head]
      exact ha'

theorem Call.run_absent (ha : ¬ call.Present (bytesOf x) a) : call.run s = throw .memoryFault := by
  cases call with
  | remove key => exact h.remove_absent hs (not_not.mp ha)
  | put _ _ | get _ | release _ => exact absurd trivial ha

end

theorem runCalls_follows_iff (calls : List Call) (h : Sound x a.held a.map s)
    (hs : SafeCalls x s a calls) :
    (∃ s', runCalls s calls = pure ((specCalls (bytesOf x) a calls).1, s') ∧
      Follows x (specCalls (bytesOf x) a calls).2 s') ↔ RemovesPresent (bytesOf x) a calls := by
  induction calls generalizing s a with
  | nil => exact ⟨fun _ => trivial, fun _ => ⟨s, rfl, h.follows⟩⟩
  | cons call calls ih =>
    obtain ⟨hc, hr⟩ := hs
    by_cases hp : call.Present (bytesOf x) a
    · obtain ⟨s1, hru, h1⟩ := call.run_sound h hc hp
      have ih1 := ih h1 (hr _ _ hru)
      rw [RemovesPresent, and_iff_right hp, ← ih1]
      refine exists_congr fun s' => and_congr_left fun _ => ?_
      simp only [runCalls, hru, pure_bind, specCalls]
      constructor
      · intro heq
        obtain ⟨⟨rs, s2⟩, hca, heq⟩ := Exec.bind_eq_pure.mp heq
        cases heq
        exact hca
      · intro hca
        rw [hca, pure_bind]
    · have hru := call.run_absent h hc hp
      refine ⟨fun ⟨s', hca, _⟩ => ?_, fun hre => absurd hre.1 hp⟩
      rw [runCalls, hru] at hca
      exact absurd hca Exec.throw_ne_pure

end

theorem create_sound {os value held} (h : Accounts os value held) {s}
    (hc : parcBufferDictionaryCreate os = pure s) : Sound value held (fun _ => none) s := by
  cases hc
  refine ⟨wellFormed_cleared (by decide), homed_cleared _, fun b d => ?_, ?_⟩
  · simp [State.slots, mem_entries]
  · rw [contents_cleared, references_nil, Multiset.add_zero]
    exact h

/-- **A dictionary is a map from byte strings to buffers, as long as no key is removed that it
does not have**: for every run of calls without collisions, on buffers that are in memory. -/
theorem dictionary_follows_iff {objects : Store (Counted PARCBuffer)} {value : Ptr → PARCBuffer}
    {held : Multiset Ptr} (haccounts : Accounts objects value held) {s : State}
    (hcreate : parcBufferDictionaryCreate objects = pure s) (calls : List Call)
    (hsafe : SafeCalls value s ⟨fun _ => none, held⟩ calls) :
    (∃ s', runCalls s calls = pure ((specCalls (bytesOf value) ⟨fun _ => none, held⟩ calls).1, s') ∧
      Follows value (specCalls (bytesOf value) ⟨fun _ => none, held⟩ calls).2 s') ↔
      RemovesPresent (bytesOf value) ⟨fun _ => none, held⟩ calls :=
  runCalls_follows_iff calls (create_sound haccounts hcreate) hsafe

/-- A buffer with the byte 1 and one with the byte 2, at the addresses 1 and 2. -/
def twoBuffers (p : Ptr) : PARCBuffer := ⟨[.ofNat p], 1, 0, 0, 1, none⟩

def twoObjects : Store (Counted PARCBuffer) :=
  ((Store.empty.allocate .bump ⟨1, twoBuffers 1⟩).1.allocate .bump ⟨1, twoBuffers 2⟩).1

theorem twoObjects_accounts : Accounts twoObjects twoBuffers {1, 2} := by
  intro p
  by_cases h1 : p = 1
  · subst h1
    rfl
  · by_cases h2 : p = 2
    · subst h2
      rfl
    · rw [if_neg (by simp [h1, h2])]
      exact (if_neg h2).trans (if_neg h1)

theorem SafeCalls.step {value a s call cs} (h : Sound value a.held a.map s)
    (hs : call.Safe value s a) (hp : call.Present (bytesOf value) a)
    (hr : ∀ s', Sound value (call.spec (bytesOf value) a).2.held
      (call.spec (bytesOf value) a).2.map s' →
      SafeCalls value s' (call.spec (bytesOf value) a).2 cs) :
    SafeCalls value s a (call :: cs) := by
  refine ⟨hs, fun r s' hru => ?_⟩
  obtain ⟨s1, hr1, h1⟩ := call.run_sound h hs hp
  cases hru.symm.trans hr1
  exact hr _ h1

theorem put_get_remove_follows : ∃ s s', parcBufferDictionaryCreate twoObjects = pure s ∧
    runCalls s [.put 1 2, .get 1, .remove 1] = pure ([none, some 2, some 2], s') ∧
    ∃ objects, destroy s' = pure objects ∧ Accounts objects twoBuffers {1, 2, 2} := by
  have hs := create_sound twoObjects_accounts rfl
  have hno : NoCollision (bufferKeys (bytesOf twoBuffers))
      (cleared minSize : LinearAddressingHashTable Ptr Ptr) 1 := by
    simp [NoCollision, mem_entries]
  have hsa : SafeCalls twoBuffers _ ⟨fun _ => none, {1, 2}⟩ [.put 1 2, .get 1, .remove 1] :=
    .step hs ⟨rfl, rfl, hno⟩ trivial fun s1 h1 =>
      .step h1 (h1.live (by simp [Call.spec])) trivial fun s2 h2 =>
        .step h2 (h2.live (by simp [Call.spec])) (by simp [Call.spec, Call.Present])
          fun _ _ => trivial
  obtain ⟨s', hr, hf⟩ := (dictionary_follows_iff twoObjects_accounts rfl _ hsa).mpr
    ⟨trivial, trivial, by simp [Call.spec, Call.Present], trivial⟩
  refine ⟨_, s', rfl, ?_, ?_⟩
  · rw [hr]
    simp [specCalls, Call.spec]
  · simpa [specCalls, Call.spec, handedOut] using hf.destroyed

/-- A key that a new dictionary does not have cannot be removed. -/
theorem remove_absent_faults : ∃ s, parcBufferDictionaryCreate twoObjects = pure s ∧
    SafeCalls twoBuffers s ⟨fun _ => none, {1, 2}⟩ [.remove 1] ∧
    (Call.remove 1).spec (bytesOf twoBuffers) ⟨fun _ => none, {1, 2}⟩ =
      (none, ⟨fun _ => none, {1, 2}⟩) ∧ runCalls s [.remove 1] = throw .memoryFault := by
  have hs := create_sound twoObjects_accounts rfl
  refine ⟨_, rfl, ⟨rfl, fun _ _ _ => trivial⟩, ?_, ?_⟩
  · rw [Call.spec, Function.update_eq_self_iff.mpr rfl]
    rfl
  · rw [runCalls, Call.run, (hs.remove_absent rfl rfl : parcBufferDictionaryRemove _ (some 1) = _)]
    rfl

end Libparc.BufferDictionary
