import Libparc.ByteMemory
import Libparc.PowerOfTwo
import Libparc.Runtime

/-! # parc_SafeMemory

A block that is allocated has a bookkeeping prefix, the bytes of the caller and a guard behind
them. `_parcSafeMemory_FormatPrefix` means the prefix to end where the caller's bytes begin, but
adds the distance to an `origin` that is a `void **`, and so eight times of it: only where the
distance is 0, for alignments of 8 and 16, is the prefix where the other functions look for it
(`memAlign_works_iff`). -/
namespace Libparc.SafeMemory
open ByteMemory PowerOfTwo Exec BitVec

/-- A `size_t`, or a pointer. -/
abbrev Word := BitVec 64

def sizeofPointer : Word := 8

def sizeofMemoryPrefix : Word := 48

def sizeofMemorySuffix : Word := 4

def suffixGuard : Nat := 0xcafecafe

def prefixMagic : Word := 0xfacefacefaceface

def prefixGuard : Word := 0xdeaddeaddeaddead

def guardAlreadyFreed : Word := 0xBADDCAFEBADDCAFE

/-- `struct memory_prefix`. -/
structure MemoryPrefix where
  magic : Word
  requestedLength : Word
  actualLength : Word
  alignment : Word
  backtrace : Word
  guard : Word
  deriving DecidableEq

def MemoryPrefix.fields (p : MemoryPrefix) : List Nat :=
  [p.magic, p.requestedLength, p.actualLength, p.alignment, p.backtrace, p.guard].map BitVec.toNat

/-- The address of a field. -/
def fieldAddress (a : Word) (i : Nat) : Word := a + .ofNat 64 (8 * i)

section
variable (m : Memory 64) (memory : Word)

def loadField (a : Word) (i : Nat) : Word := .ofNat 64 (load m (fieldAddress a i) 8)

def storeField (a : Word) (i : Nat) (v : Word) : Memory 64 :=
  store m (fieldAddress a i) 8 [v.toNat]

/-- The prefix at an address. -/
def loadPrefix (a : Word) : MemoryPrefix where
  magic := loadField m a 0
  requestedLength := loadField m a 1
  actualLength := loadField m a 2
  alignment := loadField m a 3
  backtrace := loadField m a 4
  guard := loadField m a 5

/-! ## The layout -/

def alignmentIsValid (alignment : Word) : Bool :=
  sizeofPointer ≤ alignment && (alignment &&& (~~~alignment + 1)) == alignment

def pointerAdd (base increment : Word) : Word := base + increment

def computePrefixLength (alignment : Word) : Word :=
  (sizeofMemoryPrefix + alignment - 1) &&& ~~~(alignment - 1)

def computeUsableMemoryLength (requestedLength alignment : Word) : Word :=
  (requestedLength + alignment - 1) &&& ~~~(alignment - 1)

def computeSuffixLength (_alignment : Word) : Word := sizeofMemorySuffix

def computeMemoryTotalLength (requestedLength alignment : Word) : Word :=
  computePrefixLength alignment + computeUsableMemoryLength requestedLength sizeofPointer +
    computeSuffixLength alignment

/-- The address of the prefix of these usable bytes. -/
def getPrefix (usable : Word) : Word := pointerAdd usable (-sizeofMemoryPrefix)

def getSuffix : Word :=
  pointerAdd memory (loadPrefix m (getPrefix memory)).actualLength

def getOrigin : Word :=
  pointerAdd memory (-computePrefixLength (loadPrefix m (getPrefix memory)).alignment)

/-! ## The state of a block -/

inductive PARCSafeMemoryState where
  | OK
  | MISMATCHED
  | UNDERRUN
  | OVERRUN
  | NOTHINGALLOCATED
  | ALREADYFREE
  deriving DecidableEq, Repr

/-- `_parcSafeMemory_StateToString`. -/
def stateToString : PARCSafeMemoryState → String
  | .OK => "OK"
  | .MISMATCHED => "MISMATCHED"
  | .UNDERRUN => "UNDERRUN"
  | .OVERRUN => "OVERRUN"
  | .NOTHINGALLOCATED => "NOTHINGALLOCATED"
  | .ALREADYFREE => "ALREADYFREE"

instance : ToString PARCSafeMemoryState := ⟨stateToString⟩

def getPrefixState (usable : Word) : PARCSafeMemoryState :=
  let memoryPrefix := loadPrefix m (getPrefix usable)
  if memoryPrefix.guard = guardAlreadyFreed then .ALREADYFREE
  else if memoryPrefix.guard ≠ prefixGuard then .UNDERRUN
  else if memoryPrefix.magic ≠ prefixMagic then .UNDERRUN
  else if ¬ alignmentIsValid memoryPrefix.alignment then .UNDERRUN
  else .OK

def getSuffixState : PARCSafeMemoryState :=
  if load m (getSuffix m memory) 4 ≠ suffixGuard then .OVERRUN else .OK

def getState : PARCSafeMemoryState :=
  let prefixState := getPrefixState m memory
  if prefixState ≠ .OK then prefixState else getSuffixState m memory

def parcSafeMemoryIsValid : Bool := getState m memory == .OK

/-! ## Allocating and releasing -/

/-- The memory, what the allocator beneath has given out, the count that it keeps of that in a
`uint32_t`, and the list of the allocations made here. -/
structure Heap where
  memory : Memory 64
  blocks : List Word
  outstanding : BitVec 32
  allocations : List Word

/-- Where `_parcSafeMemory_FormatPrefix` puts the prefix: `origin` is a `void **`, so that the
distance is counted in pointers. -/
def formatPrefixAddress (origin alignment : Word) : Word :=
  origin + (computePrefixLength alignment - sizeofMemoryPrefix) * sizeofPointer

/-- The prefix that it writes; `backtrace` is what `_backtraceCreate` returns. -/
def formattedPrefix (backtrace requestedLength alignment : Word) : MemoryPrefix where
  magic := prefixMagic
  requestedLength := requestedLength
  actualLength := computeUsableMemoryLength requestedLength sizeofPointer
  alignment := alignment
  backtrace := backtrace
  guard := prefixGuard

/-- NULL is returned as 0. -/
def formatPrefix (backtrace : Word) (m : Memory 64) (origin requestedLength alignment : Word) :
    Prog (Word × Memory 64) :=
  if ¬ alignmentIsValid alignment then pure (0, m)
  else do
    let m := store m (formatPrefixAddress origin alignment) 8
      (formattedPrefix backtrace requestedLength alignment).fields
    let result := pointerAdd origin (computePrefixLength alignment)
    assertTrue (result % alignment == 0)
      s!"Return value is not properly aligned to {alignment.toNat}"
    pure (result, m)

def formatSuffix : Memory 64 :=
  store m (getSuffix m memory) 4 [suffixGuard]

end

def formatMemory (backtrace : Word) (m : Memory 64) (origin length alignment : Word) :
    Prog (Word × Memory 64) := do
  let (memory, m) ← formatPrefix backtrace m origin length alignment
  if memory ≠ 0 then pure (memory, formatSuffix m memory) else pure (memory, m)

/-- The list is emptied where nothing is outstanding. -/
def addAllocation (s : Heap) (memory : Word) : Heap :=
  { s with allocations := memory :: if s.outstanding = 0 then [] else s.allocations }

inductive Errno where
  | EINVAL
  | ERANGE
  | ENOMEM
  deriving DecidableEq, Repr

/-- `answer` is the block that the allocator beneath gives, if it gives one. -/
def parcSafeMemoryMemAlign (answer : Option Word) (backtrace : Word) (s : Heap)
    (alignment requestedSize : Word) : Prog (Except Errno Word × Heap) :=
  if ¬ alignmentIsValid alignment then pure (.error .EINVAL, s)
  else if requestedSize = 0 then pure (.error .EINVAL, s)
  else if computeMemoryTotalLength requestedSize alignment < requestedSize then
    pure (.error .ERANGE, s)
  else match answer with
    | none => pure (.error .ENOMEM, s)
    | some base => do
      let s := { s with blocks := base :: s.blocks, outstanding := s.outstanding + 1 }
      let (memory, m) ← formatMemory backtrace s.memory base requestedSize alignment
      pure (.ok memory, addAllocation { s with memory := m } memory)

/-- `parcStdlibMemory_Deallocate`: what was not given out cannot be freed. -/
def parcStdlibMemoryDeallocate (s : Heap) (base : Word) : Prog Heap :=
  if s.outstanding = 0 then throw (.illegalValue
    "parcStdlibMemory_Deallocate invoked with nothing left to free (double free somewhere?)\n")
  else if base ∈ s.blocks then
    pure { s with blocks := s.blocks.erase base, outstanding := s.outstanding - 1 }
  else throw .memoryFault

/-- `_parcSafeMemory_Destroy`. -/
def parcSafeMemoryDestroy (s : Heap) (memory : Word) : Prog (PARCSafeMemoryState × Heap) :=
  if s.outstanding = 0 then pure (.NOTHINGALLOCATED, s)
  else if getState s.memory memory ≠ .OK then throw (.unexpectedState
    s!"Expected PARCSafeMemoryState_OK, actual {getState s.memory memory} (see parc_SafeMemory.h)")
  else do
    let memoryPrefix := loadPrefix s.memory (getPrefix memory)
    -- `_backtraceDestroy` leaves NULL in its field
    let m := storeField s.memory (getPrefix memory) 4 0
    let base := getOrigin m memory
    let m := fill m base
      (computeMemoryTotalLength memoryPrefix.requestedLength memoryPrefix.alignment).toNat 0
    let m := storeField m (getPrefix memory) 5 guardAlreadyFreed
    let s ← parcStdlibMemoryDeallocate
      { s with memory := m, allocations := s.allocations.erase memory } base
    pure (.OK, s)

/-! ## Lengths -/

theorem exists_twoPow {alignment} (h : alignmentIsValid alignment = true) :
    ∃ k : Fin 64, 3 ≤ k.val ∧ alignment = .twoPow 64 k := by
  have hp : ∀ k : Fin 64, alignmentIsValid (.twoPow 64 k) = true → 3 ≤ k.val := by decide
  have ha : alignment &&& (~~~alignment + 1) = alignment := by
    simpa using (Bool.and_eq_true_iff.mp h).2
  have hne : alignment ≠ 0 := by
    intro hz
    rw [hz] at h
    exact absurd h (by decide)
  obtain ⟨k, hk, rfl⟩ := exists_of_and_neg hne ha
  exact ⟨⟨k, hk⟩, hp ⟨k, hk⟩ h, rfl⟩

theorem alignment_cases {alignment} (h : alignmentIsValid alignment = true) :
    (alignment = 8 ∨ alignment = 16) ∨
      (computePrefixLength alignment - sizeofMemoryPrefix) * sizeofPointer ≠
        computePrefixLength alignment - sizeofMemoryPrefix := by
  have hp : ∀ k : Fin 64, 3 ≤ k.val → (twoPow 64 k = 8 ∨ twoPow 64 k = 16) ∨
      (computePrefixLength (.twoPow 64 k) - sizeofMemoryPrefix) * sizeofPointer ≠
        computePrefixLength (.twoPow 64 k) - sizeofMemoryPrefix := by
    decide
  obtain ⟨k, hk, rfl⟩ := exists_twoPow h
  exact hp k hk

theorem toNat_usableLength (r : Word) (h : r.toNat + 7 < 2 ^ 64) :
    (computeUsableMemoryLength r sizeofPointer).toNat = (r.toNat + 7) / 8 * 8 := by
  have hm := toNat_and_not_mask (k := 3) (r + sizeofPointer - 1) (sizeofPointer - 1) (by decide)
  have hs : (r + sizeofPointer - 1).toNat = r.toNat + 7 := by
    unfold sizeofPointer
    bv_omega
  rw [computeUsableMemoryLength, hm, hs]
  omega

/-! ## A block that is formatted -/

section
variable {m m' : Memory 64} {base : Word} {p : MemoryPrefix}

theorem loadField_store {a v : Word} {i} (hi : p.fields[i]? = some v.toNat) :
    loadField (store m a 8 p.fields) a i = v := by
  rw [loadField, fieldAddress, load_store (by simp [MemoryPrefix.fields]) hi v.isLt,
    ofNat_toNat, setWidth_eq]

theorem loadPrefix_store (m : Memory 64) (a : Word) (p : MemoryPrefix) :
    loadPrefix (store m a 8 p.fields) a = p := by
  rw [loadPrefix, loadField_store (v := p.magic) rfl, loadField_store (v := p.requestedLength) rfl,
    loadField_store (v := p.actualLength) rfl, loadField_store (v := p.alignment) rfl,
    loadField_store (v := p.backtrace) rfl, loadField_store (v := p.guard) rfl]

theorem region_fieldAddress_subset {a i} (hi : i < 6) :
    region (fieldAddress a i) 8 ⊆ region a 48 := by
  intro q hq
  have ho : (BitVec.ofNat 64 (8 * i)).toNat = 8 * i := by
    rw [toNat_ofNat, Nat.mod_eq_of_lt (by omega)]
  have hm := (mem_region_add (by omega)).mp hq
  rw [mem_region]
  omega

theorem loadPrefix_congr {a : Word} (h : ∀ q ∈ region a 48, m q = m' q) :
    loadPrefix m a = loadPrefix m' a := by
  have hf : ∀ i < 6, loadField m a i = loadField m' a i := fun i hi =>
    congrArg (BitVec.ofNat 64) (load_congr (by decide) fun q hq =>
      h q (region_fieldAddress_subset hi hq))
  rw [loadPrefix, hf 0 (by decide), hf 1 (by decide), hf 2 (by decide),
    hf 3 (by decide), hf 4 (by decide), hf 5 (by decide)]
  rfl

theorem loadField_storeField_of_ne {a v i j} (hi : i < 6) (hj : j < 6)
    (hne : i ≠ j) : loadField (storeField m a j v) a i = loadField m a i := by
  refine congrArg (BitVec.ofNat 64) (load_store_of_disjoint (by decide) ?_)
  have ho : ∀ k < 6, (BitVec.ofNat 64 (8 * k)).toNat = 8 * k := fun k hk => by
    rw [toNat_ofNat, Nat.mod_eq_of_lt (by omega)]
  have hi' := ho i hi
  have hj' := ho j hj
  rw [Set.disjoint_left]
  intro q hq hq'
  have hm := (mem_region_add (by omega)).mp hq
  have hm' := (mem_region_add (by rw [List.length_singleton]; omega)).mp hq'
  rw [List.length_singleton] at hm'
  omega

/-- The prefix is at the base, and the guard behind the bytes of the caller. -/
structure Formatted (m : Memory 64) (base : Word) (p : MemoryPrefix) : Prop where
  prefix_eq : loadPrefix m base = p
  suffix_eq : load m (base + 48 + p.actualLength) 4 = suffixGuard
  magic : p.magic = prefixMagic
  guard : p.guard = prefixGuard
  alignment : alignmentIsValid p.alignment = true

theorem getPrefix_add (base : Word) : getPrefix (base + 48) = base := by
  unfold getPrefix pointerAdd sizeofMemoryPrefix
  grind

section
variable (h : Formatted m base p)
include h

theorem Formatted.congr (hf : ∀ q ∈ region base 48, m' q = m q)
    (hs : ∀ q ∈ region (base + 48 + p.actualLength) 4, m' q = m q) : Formatted m' base p :=
  { h with
    prefix_eq := (loadPrefix_congr hf).trans h.prefix_eq
    suffix_eq := (load_congr (by decide) hs).trans h.suffix_eq }

theorem Formatted.getSuffix : SafeMemory.getSuffix m (base + 48) = base + 48 + p.actualLength := by
  rw [SafeMemory.getSuffix, getPrefix_add, h.prefix_eq, pointerAdd]

theorem Formatted.getState : SafeMemory.getState m (base + 48) = .OK := by
  have hf : getPrefixState m (base + 48) = .OK := by
    rw [getPrefixState, getPrefix_add, h.prefix_eq, h.guard, h.magic, h.alignment]
    decide
  rw [SafeMemory.getState, hf, getSuffixState, h.getSuffix, h.suffix_eq]
  decide

theorem Formatted.getOrigin (hlength : computePrefixLength p.alignment = 48) :
    SafeMemory.getOrigin m (base + 48) = base := by
  rw [SafeMemory.getOrigin, getPrefix_add, h.prefix_eq, hlength, pointerAdd]
  grind

end

theorem Formatted.destroy {s} (h : Formatted s.memory base p)
    (hlength : computePrefixLength p.alignment = 48) (hb : base ∈ s.blocks)
    (ho : s.outstanding ≠ 0) :
    ∃ s', parcSafeMemoryDestroy s (base + 48) = pure (.OK, s') ∧
      s'.blocks = s.blocks.erase base := by
  have ha : (loadPrefix (storeField s.memory base 4 0) base).alignment = p.alignment := by
    rw [← h.prefix_eq]
    exact loadField_storeField_of_ne (by decide) (by decide) (by decide)
  have hor : SafeMemory.getOrigin (storeField s.memory base 4 0) (base + 48) = base := by
    rw [SafeMemory.getOrigin, getPrefix_add, ha, hlength, pointerAdd]
    grind
  rw [parcSafeMemoryDestroy, if_neg ho, if_neg (not_not.mpr h.getState), getPrefix_add]
  simp only [hor]
  rw [parcStdlibMemoryDeallocate, if_neg ho, if_pos hb, pure_bind, h.prefix_eq]
  exact ⟨_, rfl, rfl⟩

end

/-! ## What a block must be -/

/-- What the allocator beneath promises of a block that it gives. -/
structure Granted (base alignment totalSize : Word) : Prop where
  aligned : base.toNat % alignment.toNat = 0
  fits : base.toNat + totalSize.toNat ≤ 2 ^ 64

def block (base alignment requestedSize : Word) : Set Word :=
  region base (computeMemoryTotalLength requestedSize alignment).toNat

/-- The prefix that was written, the bytes of the caller and the guard are apart and in the block,
and the prefix and the block are found again from the bytes of the caller. -/
structure Laid (m : Memory 64) (base alignment requestedSize memory : Word) : Prop where
  insidePrefix : region (formatPrefixAddress base alignment) 48 ⊆ block base alignment requestedSize
  insideUsable : region memory (computeUsableMemoryLength requestedSize sizeofPointer).toNat ⊆
    block base alignment requestedSize
  insideSuffix : region (getSuffix m memory) 4 ⊆ block base alignment requestedSize
  prefixUsable : Disjoint (region (formatPrefixAddress base alignment) 48)
    (region memory (computeUsableMemoryLength requestedSize sizeofPointer).toNat)
  prefixSuffix : Disjoint (region (formatPrefixAddress base alignment) 48)
    (region (getSuffix m memory) 4)
  usableSuffix : Disjoint
    (region memory (computeUsableMemoryLength requestedSize sizeofPointer).toNat)
    (region (getSuffix m memory) 4)
  found : getPrefix memory = formatPrefixAddress base alignment
  origin : getOrigin m memory = base

/-- A block that was allocated is laid out right, and as long as nothing of it is changed but the
bytes the caller asked for, it is valid and is released from its base. -/
def Works (s : Heap) (backtrace base alignment requestedSize : Word) : Prop :=
  ∃ memory s1, parcSafeMemoryMemAlign (some base) backtrace s alignment requestedSize =
      pure (.ok memory, s1) ∧
    Laid s1.memory base alignment requestedSize memory ∧
    ∀ s2 : Heap, (∀ p ∈ block base alignment requestedSize,
        p ∉ region memory requestedSize.toNat → s2.memory p = s1.memory p) →
      parcSafeMemoryIsValid s2.memory memory = true ∧
      (base ∈ s2.blocks → s2.outstanding ≠ 0 → ∃ s3,
        parcSafeMemoryDestroy s2 memory = pure (.OK, s3) ∧ s3.blocks = s2.blocks.erase base)

section
variable {s : Heap} {bt base alignment rs : Word}

theorem formatPrefix_inv {m m' memory} (hv : alignmentIsValid alignment = true)
    (h : formatPrefix bt m base rs alignment = pure (memory, m')) :
    memory = base + computePrefixLength alignment := by
  rw [formatPrefix, if_neg (not_not.mpr hv)] at h
  obtain ⟨_, -, h⟩ := bind_eq_pure.mp h
  cases h
  rfl

theorem memAlign_inv {memory s1} (hv : alignmentIsValid alignment = true)
    (h : parcSafeMemoryMemAlign (some base) bt s alignment rs =
      pure (.ok memory, s1)) : memory = base + computePrefixLength alignment := by
  rw [parcSafeMemoryMemAlign, if_neg (not_not.mpr hv)] at h
  split_ifs at h
  · cases h
  · cases h
  · obtain ⟨⟨mem', m⟩, hf, h⟩ := bind_eq_pure.mp h
    cases h
    obtain ⟨⟨mem', m'⟩, hfr, hs⟩ := bind_eq_pure.mp hf
    have hm := formatPrefix_inv hv hfr
    dsimp only at hs
    split_ifs at hs <;> cases pure_inj.mp hs <;> exact hm

theorem Works.alignment_small (h : Works s bt base alignment rs)
    (hv : alignmentIsValid alignment = true) : alignment = 8 ∨ alignment = 16 := by
  obtain ⟨memory, s1, hc, hl, -⟩ := h
  rcases alignment_cases hv with hs | hne
  · exact hs
  · refine absurd ?_ hne
    have hf := hl.found
    rw [memAlign_inv hv hc, getPrefix, pointerAdd, formatPrefixAddress] at hf
    grind

theorem formatPrefixAddress_eq (base : Word) (hl : computePrefixLength alignment = 48) :
    formatPrefixAddress base alignment = base := by
  rw [formatPrefixAddress, hl]
  unfold sizeofMemoryPrefix
  grind

section small
variable (hl : computePrefixLength alignment = 48)
variable (hfi : 48 + (rs.toNat + 7) / 8 * 8 + 4 < 2 ^ 64)
include hfi

theorem mem_usable {q : Word} :
    q ∈ region (base + 48) (computeUsableMemoryLength rs sizeofPointer).toNat ↔
      48 ≤ (q - base).toNat ∧ (q - base).toNat < 48 + (rs.toNat + 7) / 8 * 8 := by
  have hu := toNat_usableLength rs (by omega)
  have h48 : (48 : Word).toNat = 48 := rfl
  rw [mem_region_add (by omega), hu, h48]

theorem mem_suffix {q : Word} :
    q ∈ region (base + 48 + computeUsableMemoryLength rs sizeofPointer) 4 ↔
      48 + (rs.toNat + 7) / 8 * 8 ≤ (q - base).toNat ∧
        (q - base).toNat < 48 + (rs.toNat + 7) / 8 * 8 + 4 := by
  have hu := toNat_usableLength rs (by omega)
  have h48 : (48 : Word).toNat = 48 := rfl
  have he : (48 + computeUsableMemoryLength rs sizeofPointer).toNat =
      48 + (rs.toNat + 7) / 8 * 8 := by
    rw [toNat_add, hu, h48, Nat.mod_eq_of_lt (by omega)]
  rw [BitVec.add_assoc, mem_region_add (by omega), he]

theorem prefix_disjoint_suffix : Disjoint (region base 48)
    (region (base + 48 + computeUsableMemoryLength rs sizeofPointer) 4) := by
  refine Set.disjoint_left.mpr fun q hq hq' => ?_
  have hf := mem_region.mp hq
  have hs := (mem_suffix hfi).mp hq'
  omega

theorem formatted_of_stores (m : Memory 64) (hv : alignmentIsValid alignment = true) : Formatted
    (store (store m base 8 (formattedPrefix bt rs alignment).fields)
      (base + 48 + computeUsableMemoryLength rs sizeofPointer) 4 [suffixGuard])
    base (formattedPrefix bt rs alignment) := by
  have ha : ∀ q ∈ region base 48, q ∉
      region (base + 48 + computeUsableMemoryLength rs sizeofPointer) 4 :=
    Set.disjoint_left.mp (prefix_disjoint_suffix hfi)
  refine ⟨?_, ?_, rfl, rfl, hv⟩
  · refine (loadPrefix_congr fun q hq => ?_).trans (loadPrefix_store m base _)
    exact store_of_notMem (ha q hq)
  · exact load_store_single (by decide) (by decide)

include hl

theorem toNat_totalLength : (computeMemoryTotalLength rs alignment).toNat =
    48 + (rs.toNat + 7) / 8 * 8 + 4 := by
  have hu := toNat_usableLength rs (by omega)
  rw [computeMemoryTotalLength, hl, computeSuffixLength, sizeofMemorySuffix, toNat_add,
    toNat_add, hu]
  show ((48 + _) % 2 ^ 64 + 4) % 2 ^ 64 = _
  omega

theorem mem_block {q} : q ∈ block base alignment rs ↔
    (q - base).toNat < 48 + (rs.toNat + 7) / 8 * 8 + 4 := by
  rw [block, mem_region, toNat_totalLength hl hfi]

theorem region_subset_block {k} (hk : k ≤ (rs.toNat + 7) / 8 * 8) :
    region (base + 48) k ⊆ block base alignment rs := by
  intro q hq
  have hu := toNat_usableLength rs (by omega)
  have := (mem_usable hfi).mp (region_mono (by omega) hq)
  exact (mem_block hl hfi).mpr (by omega)

theorem formatMemory_eq (bt : Word) (m : Memory 64) (hv : alignmentIsValid alignment = true)
    (hd : 48 % alignment.toNat = 0)
    (hg : Granted base alignment (computeMemoryTotalLength rs alignment)) :
    formatMemory bt m base rs alignment = pure (base + 48,
      store (store m base 8 (formattedPrefix bt rs alignment).fields)
        (base + 48 + computeUsableMemoryLength rs sizeofPointer) 4 [suffixGuard]) := by
  have hb := hg.fits
  rw [toNat_totalLength hl hfi] at hb
  have hm : (base + 48).toNat = base.toNat + 48 := by
    rw [toNat_add, Nat.mod_eq_of_lt (by show base.toNat + 48 < _; omega)]
    rfl
  have ha : ((base + 48) % alignment == 0) = true := by
    rw [beq_iff_eq]
    apply eq_of_toNat_eq
    rw [toNat_umod, hm, Nat.add_mod, hg.aligned, hd]
    rfl
  have had := formatPrefixAddress_eq base hl
  have hne : base + 48 ≠ 0 := fun hz => by
    rw [hz] at hm
    simp at hm
  have hf : formatPrefix bt m base rs alignment = pure (base + 48,
      store m base 8 (formattedPrefix bt rs alignment).fields) := by
    simp only [formatPrefix, hv, not_true_eq_false, if_false, hl, pointerAdd, had,
      assertTrue_of ha, pure_bind]
  have hs : getSuffix (store m base 8 (formattedPrefix bt rs alignment).fields)
      (base + 48) = base + 48 + computeUsableMemoryLength rs sizeofPointer := by
    rw [getSuffix, getPrefix_add, loadPrefix_store]
    rfl
  rw [formatMemory, hf, pure_bind]
  simp only [ne_eq, hne, not_false_eq_true, if_true, formatSuffix, hs]

theorem laid_of_formatted {m} (h : Formatted m base (formattedPrefix bt rs alignment)) :
    Laid m base alignment rs (base + 48) := by
  have ha := formatPrefixAddress_eq base hl
  have hs : getSuffix m (base + 48) =
      base + 48 + computeUsableMemoryLength rs sizeofPointer := h.getSuffix
  have hf : ∀ {q}, q ∈ region base 48 → (q - base).toNat < 48 := mem_region.mp
  refine ⟨?_, ?_, ?_, ?_, ?_, ?_, ?_, h.getOrigin hl⟩
  · rw [ha]
    intro q hq
    have hq := hf hq
    rw [mem_block hl hfi]
    omega
  · rw [toNat_usableLength rs (by omega)]
    exact region_subset_block hl hfi (Nat.le_refl _)
  · rw [hs]
    intro q hq
    have hq := (mem_suffix hfi).mp hq
    rw [mem_block hl hfi]
    omega
  · rw [ha]
    refine Set.disjoint_left.mpr fun q hq hq' => ?_
    have hq := hf hq
    have hq' := (mem_usable hfi).mp hq'
    omega
  · rw [ha, hs]
    exact prefix_disjoint_suffix hfi
  · rw [hs]
    refine Set.disjoint_left.mpr fun q hq hq' => ?_
    have hq := (mem_usable hfi).mp hq
    have hq' := (mem_suffix hfi).mp hq'
    omega
  · rw [ha, getPrefix_add]

theorem memAlign_formatted (s : Heap) (bt : Word)
    (hv : alignmentIsValid alignment = true) (hd : 48 % alignment.toNat = 0) (hs : rs ≠ 0)
    (hg : Granted base alignment (computeMemoryTotalLength rs alignment)) :
    ∃ s1, parcSafeMemoryMemAlign (some base) bt s alignment rs = pure (.ok (base + 48), s1) ∧
      Formatted s1.memory base (formattedPrefix bt rs alignment) := by
  have hr : ¬ computeMemoryTotalLength rs alignment < rs := by
    rw [lt_def, toNat_totalLength hl hfi]
    omega
  have hf := formatMemory_eq hl hfi bt s.memory hv hd hg
  rw [parcSafeMemoryMemAlign, if_neg (not_not.mpr hv), if_neg hs, if_neg hr]
  simp only [hf, pure_bind]
  exact ⟨_, rfl, formatted_of_stores hfi s.memory hv⟩

theorem Formatted.agree {m m'} (h : Formatted m base (formattedPrefix bt rs alignment))
    (ha : ∀ q ∈ block base alignment rs,
      q ∉ region (base + 48) (computeUsableMemoryLength rs sizeofPointer).toNat → m' q = m q) :
    Formatted m' base (formattedPrefix bt rs alignment) := by
  refine h.congr (fun q hq => ?_) fun q hq => ?_
  · have hq := mem_region.mp hq
    refine ha q ((mem_block hl hfi).mpr (by omega)) fun hq' => ?_
    have hq' := (mem_usable hfi).mp hq'
    omega
  · have hq := (mem_suffix hfi).mp hq
    refine ha q ((mem_block hl hfi).mpr (by omega)) fun hq' => ?_
    have hq' := (mem_usable hfi).mp hq'
    omega

theorem works_of_length (hv : alignmentIsValid alignment = true)
    (hd : 48 % alignment.toNat = 0) (hs : rs ≠ 0)
    (hg : Granted base alignment (computeMemoryTotalLength rs alignment)) :
    Works s bt base alignment rs := by
  obtain ⟨s1, hc, hf⟩ := memAlign_formatted hl hfi s bt hv hd hs hg
  refine ⟨_, s1, hc, laid_of_formatted hl hfi hf, fun s2 ha => ?_⟩
  have hu := toNat_usableLength rs (by omega)
  have hf2 : Formatted s2.memory base (formattedPrefix bt rs alignment) :=
    hf.agree hl hfi fun q hq hq' => ha q hq fun h => hq' (region_mono (by omega) h)
  refine ⟨?_, fun hb ho => ?_⟩
  · rw [parcSafeMemoryIsValid, hf2.getState]
    decide
  · exact hf2.destroy hl hb ho

end small

end

/-- **A block is what it must be exactly for the alignments 8 and 16.** -/
theorem memAlign_works_iff (s : Heap) (backtrace base alignment requestedSize : Word)
    (hvalid : alignmentIsValid alignment = true) (hsize : requestedSize ≠ 0)
    (hfits : (computePrefixLength alignment).toNat + (requestedSize.toNat + 7) / 8 * 8 + 4 < 2 ^ 64)
    (hgranted : Granted base alignment (computeMemoryTotalLength requestedSize alignment)) :
    Works s backtrace base alignment requestedSize ↔ alignment = 8 ∨ alignment = 16 := by
  refine ⟨fun h => h.alignment_small hvalid, fun hs => ?_⟩
  have hlength : computePrefixLength alignment = 48 := by
    rcases hs with rfl | rfl <;> decide
  have hd : 48 % alignment.toNat = 0 := by
    rcases hs with rfl | rfl <;> decide
  rw [hlength] at hfits
  exact works_of_length hlength hfits hvalid hd hsize hgranted

/-- 8 bytes with an alignment of 16, in a block at 64. -/
theorem memAlign_works_sixteen : Works ⟨fun _ => 0, [], 0, []⟩ 0 64 16 8 :=
  (memAlign_works_iff _ 0 64 16 8 (by decide) (by decide) (by decide)
    ⟨by decide, by decide⟩).mpr (.inr rfl)

/-- With an alignment of 64 the prefix of a block at 64 is written at 192, which is behind the
block, and the block is not valid from the start: it cannot be released. -/
theorem memAlign_fails_sixtyFour : ∃ memory s,
    parcSafeMemoryMemAlign (some 64) 0 ⟨fun _ => 0, [], 0, []⟩ 64 8 = pure (.ok memory, s) ∧
    formatPrefixAddress 64 64 = 192 ∧ 192 ∉ block 64 64 8 ∧
    parcSafeMemoryIsValid s.memory memory = false ∧
    parcSafeMemoryDestroy s memory = throw (.unexpectedState
      "Expected PARCSafeMemoryState_OK, actual UNDERRUN (see parc_SafeMemory.h)") := by
  refine ⟨_, _, rfl, by decide, ?_, by decide, rfl⟩
  show ¬ (192 - 64 : Word).toNat < (computeMemoryTotalLength 8 64).toNat
  decide

end Libparc.SafeMemory
