import Libparc.Store
import Libparc.Algol.Buffer

/-! # parcBuffer_Compare, parcBuffer_Equals and parcBuffer_HashCode on buffers in memory

The three calls take pointers, which may be NULL or the same, and cast the
`const` away to take the address of the bytes that remain. The buffers are cells
of a store here, so that a call returns the memory it leaves. -/
namespace Libparc.BufferOrder
open Buffer hiding parcBufferCompare parcBufferEquals parcBufferHashCode
open HashCode

/-! ## The calls -/

section
variable (buffers : Store PARCBuffer) (x y : Ptr)

/-- `parcBuffer_Overlay` of the buffer at an address. -/
def overlayAt (buffer : Ptr) (length : Nat) : Prog (List UInt8 × Store PARCBuffer) := do
  let (bytes, after) ← parcBufferOverlay (← buffers.read buffer) length
  let buffers ← buffers.write buffer fun _ => after
  pure (bytes, buffers)

/-- The bytes that both buffers have. -/
def compareMemory (count : Nat) : Prog (Int × Store PARCBuffer) :=
  if count > 0 then do
    let (xs, buffers) ← overlayAt buffers x 0
    let (ys, buffers) ← overlayAt buffers y 0
    pure (memcmp xs ys count, buffers)
  else pure (0, buffers)

/-- One buffer may be longer than the other; the difference is a `ssize_t`. -/
def compareRemaining : Prog Int := do
  let remainingX := parcBufferRemaining (← buffers.read x)
  let remainingY := parcBufferRemaining (← buffers.read y)
  let difference := ((remainingX : Int) - remainingY).bmod (2 ^ 64)
  pure (if difference > 0 then 1 else if difference < 0 then -1 else 0)

/-- The part of `parcBuffer_Compare` after the checks of the pointers. -/
def compareBytes : Prog (Int × Store PARCBuffer) := do
  let remainingX := parcBufferRemaining (← buffers.read x)
  let remainingY := parcBufferRemaining (← buffers.read y)
  let count := if remainingX > remainingY then remainingY else remainingX
  let (result, buffers) ← compareMemory buffers x y count
  if result = 0 then do
    let result ← compareRemaining buffers x y
    pure (result, buffers)
  else pure (result, buffers)

def parcBufferCompare : Prog (Int × Store PARCBuffer) :=
  if x = y then pure (0, buffers)
  else if x = NULL then pure (-1, buffers)
  else if y = NULL then pure (1, buffers)
  else compareBytes buffers x y

def parcBufferEquals : Prog (Bool × Store PARCBuffer) :=
  if x = y then pure (true, buffers)
  else if x = NULL ∨ y = NULL then pure (false, buffers)
  else do
    let (result, buffers) ← parcBufferCompare buffers x y
    pure (result == 0, buffers)

def parcBufferHashCode (buffer : Ptr) : Prog (PARCHashCode × Store PARCBuffer) := do
  let remaining := parcBufferRemaining (← buffers.read buffer)
  if remaining > 0 then do
    let (memory, buffers) ← overlayAt buffers buffer 0
    let remaining := parcBufferRemaining (← buffers.read buffer)
    pure (parcHashCodeHash memory remaining, buffers)
  else pure (0, buffers)

end

/-! ## What they compute -/

/-- A valid buffer at an address; no object is larger than `PTRDIFF_MAX`. -/
structure Holds (buffers : Store PARCBuffer) (p : Ptr) (b : PARCBuffer) : Prop where
  cell : buffers.cell p = some b
  valid : b.Valid
  length_lt : b.array.length < 2 ^ 63

variable {buffers : Store PARCBuffer} {x y z : Ptr} {bx by' bz : PARCBuffer}

theorem modify_cell (h : buffers.cell x = some bx) : (buffers.modify x fun _ => bx) = buffers := by
  obtain ⟨cell, live, hl, hn⟩ := buffers
  have hc : (fun q => if q = x then (cell q).map fun _ => bx else cell q) = cell := by
    funext q
    split
    · rename_i hq
      rw [hq, show cell x = some bx from h, Option.map_some]
    · rfl
  simp only [Store.modify, hc]

theorem overlayAt_zero (h : Holds buffers x bx) (hp : 0 < parcBufferRemaining bx) :
    overlayAt buffers x 0 = pure (bx.array.drop (effectivePosition bx), buffers) := by
  simp only [overlayAt, Store.read_of h.cell, overlay_zero h.valid hp, pure_bind,
    Store.write_of h.cell, modify_cell h.cell]

theorem compareMemory_eq (hx : Holds buffers x bx) (hy : Holds buffers y by') {n}
    (hc : n ≤ min (parcBufferRemaining bx) (parcBufferRemaining by')) :
    compareMemory buffers x y n =
      pure (memcmp bx.remainingBytes by'.remainingBytes n, buffers) := by
  unfold compareMemory
  split
  · have hb := memcmp_overlay hx.valid hy.valid hc
    simp only [overlayAt_zero hx (show 0 < _ by omega), overlayAt_zero hy (show 0 < _ by omega),
      pure_bind, hb]
  · rw [show n = 0 by omega]
    simp [memcmp]

theorem Holds.remaining_lt (h : Holds buffers x bx) : parcBufferRemaining bx < 2 ^ 63 := by
  have hl := h.length_lt
  have := h.valid.limit_le
  have := h.valid.capacity_le
  rw [h.valid.remaining]
  omega

section
variable (hx : Holds buffers x bx) (hy : Holds buffers y by')
include hx hy

theorem compareRemaining_eq :
    compareRemaining buffers x y = pure (if parcBufferRemaining bx > parcBufferRemaining by' then 1
        else if parcBufferRemaining bx < parcBufferRemaining by' then -1 else 0) := by
  have hl := hx.remaining_lt
  have hlt := hy.remaining_lt
  have hd : ((parcBufferRemaining bx : Int) - parcBufferRemaining by').bmod (2 ^ 64) =
      parcBufferRemaining bx - parcBufferRemaining by' := Int.bmod_eq_of_le (by omega) (by omega)
  have hp : (parcBufferRemaining bx : Int) - parcBufferRemaining by' > 0 ↔
      parcBufferRemaining bx > parcBufferRemaining by' := by omega
  have hn : (parcBufferRemaining bx : Int) - parcBufferRemaining by' < 0 ↔
      parcBufferRemaining bx < parcBufferRemaining by' := by omega
  simp only [compareRemaining, Store.read_of hx.cell, Store.read_of hy.cell, pure_bind, hd, hp, hn]

theorem compareBytes_eq :
    compareBytes buffers x y =
      pure (lexCompare byteCompare bx.remainingBytes by'.remainingBytes, buffers) := by
  have hc : (if parcBufferRemaining bx > parcBufferRemaining by' then parcBufferRemaining by'
      else parcBufferRemaining bx) = min (parcBufferRemaining bx) (parcBufferRemaining by') := by
    split <;> omega
  simp only [compareBytes, Store.read_of hx.cell, Store.read_of hy.cell, pure_bind, hc,
    compareMemory_eq hx hy (Nat.le_refl _), compareRemaining_eq hx hy]
  rw [lexCompare_eq_memcmp, length_remainingBytes hx.valid, length_remainingBytes hy.valid]
  split <;> rfl

/-- **`parcBuffer_Compare` compares what remains, byte by byte.** -/
theorem compare_eq :
    parcBufferCompare buffers x y =
      pure (lexCompare byteCompare bx.remainingBytes by'.remainingBytes, buffers) := by
  unfold parcBufferCompare
  split
  · rename_i heq
    subst heq
    rw [Option.some.inj (hx.cell.symm.trans hy.cell), totalCompare_byteCompare.lex.self]
  · rw [if_neg (Store.ne_null hx.cell), if_neg (Store.ne_null hy.cell), compareBytes_eq hx hy]

theorem equals_eq :
    parcBufferEquals buffers x y =
      pure (decide (bx.remainingBytes = by'.remainingBytes), buffers) := by
  unfold parcBufferEquals
  split
  · rename_i heq
    subst heq
    rw [Option.some.inj (hx.cell.symm.trans hy.cell), decide_eq_true rfl]
  · have hn : ¬ (x = NULL ∨ y = NULL) := not_or.mpr ⟨Store.ne_null hx.cell, Store.ne_null hy.cell⟩
    rw [if_neg hn, compare_eq hx hy, pure_bind]
    have hz : (lexCompare byteCompare bx.remainingBytes by'.remainingBytes == 0) =
        decide (bx.remainingBytes = by'.remainingBytes) := by
      rw [Bool.eq_iff_iff, beq_iff_eq, decide_eq_true_eq]
      exact lexCompare_eq_zero_iff byteCompare_eq_zero_iff ..
    exact congrArg (fun same => pure (same, buffers)) hz

end

theorem hashCode_eq (hx : Holds buffers x bx) :
    parcBufferHashCode buffers x = pure (hashOfBytes bx.remainingBytes, buffers) := by
  have hl := length_remainingBytes hx.valid
  simp only [parcBufferHashCode, Store.read_of hx.cell, pure_bind]
  unfold hashOfBytes
  split
  · rename_i hp
    have hne : bx.remainingBytes ≠ [] := List.ne_nil_of_length_pos (by omega)
    have ht := take_array hx.valid (Nat.le_refl _)
    rw [if_neg hne]
    simp only [overlayAt_zero hx hp, Store.read_of hx.cell, pure_bind, parcHashCodeHash,
      parcHashCodeHashImpl, ht, hl]
  · have hn : bx.remainingBytes = [] := List.eq_nil_of_length_eq_zero (by omega)
    rw [if_pos hn]

/-! ## The order -/

theorem lexCompare_neg_iff_lt (xs ys : List UInt8) :
    lexCompare byteCompare xs ys < 0 ↔ xs < ys := by
  induction xs generalizing ys with
  | nil => cases ys <;> simp [lexCompare]
  | cons x xs ih =>
    cases ys with
    | nil => simp [lexCompare]
    | cons y ys =>
      rw [lexCompare, List.cons_lt_cons_iff, ← byteCompare_neg_iff, ← ih, ← byteCompare_eq_zero_iff]
      split
      · rename_i hz
        simp [hz]
      · rename_i hne
        simp [hne]

/-- **The comparison is a total order of what remains**: lexicographic, with a
proper prefix first; it is 0 where the bytes are the same, and so are the hash
codes then. The calls change nothing in memory. -/
theorem compare_total_order (hx : Holds buffers x bx) (hy : Holds buffers y by')
    (hz : Holds buffers z bz) :
    ∃ xx xy yx yz xz : Int, ∃ same : Bool, ∃ hashX hashY : PARCHashCode,
      parcBufferCompare buffers x x = pure (xx, buffers) ∧
      parcBufferCompare buffers x y = pure (xy, buffers) ∧
      parcBufferCompare buffers y x = pure (yx, buffers) ∧
      parcBufferCompare buffers y z = pure (yz, buffers) ∧
      parcBufferCompare buffers x z = pure (xz, buffers) ∧
      parcBufferEquals buffers x y = pure (same, buffers) ∧
      parcBufferHashCode buffers x = pure (hashX, buffers) ∧
      parcBufferHashCode buffers y = pure (hashY, buffers) ∧ xx = 0 ∧
      (xy ≤ 0 → yx ≤ 0 → bx.remainingBytes = by'.remainingBytes) ∧ (xy ≤ 0 → yz ≤ 0 → xz ≤ 0) ∧
      (xy ≤ 0 ∨ yx ≤ 0) ∧ (xy < 0 ↔ bx.remainingBytes < by'.remainingBytes) ∧
      (∀ byte rest, by'.remainingBytes = bx.remainingBytes ++ byte :: rest → xy < 0) ∧
      (same = true ↔ bx.remainingBytes = by'.remainingBytes) ∧ (same = true → hashX = hashY) := by
  have ho := totalCompare_byteCompare.lex
  refine ⟨_, _, _, _, _, _, _, _, compare_eq hx hx, compare_eq hx hy, compare_eq hy hx,
    compare_eq hy hz, compare_eq hx hz, equals_eq hx hy, hashCode_eq hx, hashCode_eq hy,
    ho.self _, ?_, ho.le_trans _ _ _, ho.le_total _ _, lexCompare_neg_iff_lt _ _,
    ?_, decide_eq_true_iff, ?_⟩
  · intro hle hge
    have hs := ho.neg_iff_swap bx.remainingBytes by'.remainingBytes
    rw [← lexCompare_eq_zero_iff byteCompare_eq_zero_iff]
    omega
  · intro byte rest ha
    rw [ha]
    exact lexCompare_of_append totalCompare_byteCompare.self byte rest
  · intro hsa
    rw [decide_eq_true_iff.mp hsa]

/-- Buffers at 1, 2 and 4: "abc", its slice from the second byte on, and that slice
read to its end. -/
def threeBuffers : Store PARCBuffer :=
  let store := (Store.empty.allocate .bump ⟨[97, 98, 99], 3, 0, 0, 3, none⟩).1
  let store := (store.allocate .bump ⟨[97, 98, 99], 2, 1, 0, 2, none⟩).1
  (store.allocate .bump ⟨[97, 98, 99], 2, 1, 2, 2, some 1⟩).1

theorem threeBuffers_ordered :
    Holds threeBuffers 1 ⟨[97, 98, 99], 3, 0, 0, 3, none⟩ ∧
    Holds threeBuffers 2 ⟨[97, 98, 99], 2, 1, 0, 2, none⟩ ∧
    Holds threeBuffers 4 ⟨[97, 98, 99], 2, 1, 2, 2, some 1⟩ ∧
    ∃ xy, parcBufferCompare threeBuffers 1 2 = pure (xy, threeBuffers) ∧ xy < 0 := by
  have hx : Holds threeBuffers 1 ⟨[97, 98, 99], 3, 0, 0, 3, none⟩ :=
    ⟨rfl, ⟨nofun, by simp, by simp, by simp⟩, by simp⟩
  have hy : Holds threeBuffers 2 ⟨[97, 98, 99], 2, 1, 0, 2, none⟩ :=
    ⟨rfl, ⟨nofun, by simp, by simp, by simp⟩, by simp⟩
  have hz : Holds threeBuffers 4 ⟨[97, 98, 99], 2, 1, 2, 2, some 1⟩ :=
    ⟨rfl, ⟨fun m hm => by cases hm; simp, by simp, by simp, by simp⟩, by simp⟩
  obtain ⟨_, xy, _, _, _, _, _, _, _, hxy, _, _, _, _, _, _, _, _, _, _, hlt, _⟩ :=
    compare_total_order hx hy hz
  exact ⟨hx, hy, hz, xy, hxy, hlt.mpr (by decide)⟩

end Libparc.BufferOrder
