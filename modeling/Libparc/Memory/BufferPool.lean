import Libparc.Algol.Buffer
import Libparc.Algol.LinkedListSteps
import Libparc.Algol.Object

/-! # parc_BufferPool

A buffer of a pool has a descriptor whose destructor belongs to the pool. It is called when the
last reference is gone, and as long as the pool has room it acquires a reference again, through
the node of its free list; else it gives the buffer the descriptor of a plain buffer and releases
it once more, which deallocates it. A buffer comes out of the free list as it went in. -/
namespace Libparc.BufferPool
open References Object Buffer LinkedList Store List Option Function Prod

/-- The descriptors a buffer may have: that of `PARCBuffer`, and the one that the pool made. -/
inductive Descriptor where
  | PARCBuffer
  | PARCBufferPool
  deriving DecidableEq, Repr

/-- A buffer with the descriptor of its object header. -/
structure Object where
  descriptor : Descriptor
  buffer : PARCBuffer

/-- `struct PARCBufferPool`. -/
structure PARCBufferPool where
  bufferSize : Nat
  limit : Nat
  largestPoolSize : Nat
  totalInstances : UInt64
  cacheHits : UInt64
  freeList : PARCLinkedList Ptr

/-- A pool, the buffers that are allocated, and how many have been allocated so far. -/
structure State where
  pool : PARCBufferPool
  objects : Store (Counted Object)
  allocated : Nat

/-! ## Objects -/

def parcObjectSetDescriptor (s : State) (p : Ptr) (descriptor : Descriptor) : Prog State := do
  let objects ← s.objects.write p fun o => { o with value.descriptor := descriptor }
  pure { s with objects }

/-- With the destructor of a descriptor. -/
def release : (State → Ptr → Prog (Bool × State)) → State → Ptr → Prog State :=
  parcObjectRelease State.objects fun s objects => { s with objects }

/-- `_parcBuffer_Destructor`; the array of the buffer goes with it. -/
def bufferDestructor (s : State) (_p : Ptr) : Prog (Bool × State) := pure (true, s)

section
variable (A : Allocator) (s : State)

/-- The buffer goes into the free list, whose node acquires a reference. -/
def shelve (p : Ptr) : Prog State := do
  let freeListSize := parcLinkedListSize s.pool.freeList + 1
  let objects ← parcObjectAcquire s.objects p
  let freeList ← parcLinkedListAppend A s.pool.freeList p
  let largestPoolSize :=
    if s.pool.largestPoolSize < freeListSize then freeListSize else s.pool.largestPoolSize
  pure { s with objects, pool := { s.pool with freeList, largestPoolSize } }

/-- The buffer becomes a plain one, whose only reference is released. -/
def discard (p : Ptr) : Prog State := do
  let s ← parcObjectSetDescriptor s p .PARCBuffer
  release bufferDestructor s p

/-- `_parcBufferPool_ObjectDestructor`. -/
def objectDestructor (p : Ptr) : Prog (Bool × State) := do
  if s.pool.limit > parcLinkedListSize s.pool.freeList then
    let s ← shelve A s p
    pure (false, s)
  else
    let objects ← parcObjectAcquire s.objects p
    let s ← discard { s with objects } p
    pure (false, s)

def destructorOf : Descriptor → State → Ptr → Prog (Bool × State)
  | .PARCBuffer => bufferDestructor
  | .PARCBufferPool => objectDestructor A

def parcBufferRelease (p : Ptr) : Prog State := do
  let object ← s.objects.read p
  release (destructorOf A object.value.descriptor) s p

/-! ## The pool -/

def parcBufferPoolCreate (limit bufferSize : Nat) : PARCBufferPool where
  bufferSize := bufferSize
  limit := limit
  largestPoolSize := 0
  totalInstances := 0
  cacheHits := 0
  freeList := parcLinkedListCreate

/-- A buffer of the free list. -/
def takeFree : Prog (Ptr × State) := do
  let (result, freeList) ← parcLinkedListRemoveFirst s.pool.freeList
  let pool := { s.pool with freeList, cacheHits := s.pool.cacheHits + 1 }
  pure (result.getD NULL, { s with pool })

/-- A new buffer. -/
def allocateNew : Prog (Ptr × State) := do
  let (objects, result) :=
    s.objects.allocate A ⟨1, .PARCBuffer, parcBufferAllocate s.pool.bufferSize⟩
  let s ← parcObjectSetDescriptor
    { s with objects, allocated := s.allocated + 1 } result .PARCBufferPool
  pure (result, s)

def takeOrAllocate : Prog (Ptr × State) :=
  if parcLinkedListSize s.pool.freeList > 0 then takeFree s else allocateNew A s

def parcBufferPoolGetInstance : Prog (Ptr × State) := do
  let (result, s) ← takeOrAllocate A s
  pure (result, { s with pool := { s.pool with totalInstances := s.pool.totalInstances + 1 } })

end

/-- A turn of the loop of `parcBufferPool_Drain`. -/
def drainTurn (s : State) : Prog State := do
  let (object, freeList) ← parcLinkedListRemoveLast s.pool.freeList
  discard { s with pool := { s.pool with freeList } } (object.getD NULL)

def parcBufferPoolDrain (s : State) : Prog (Nat × State) :=
  let freeListSize := parcLinkedListSize s.pool.freeList
  if freeListSize > s.pool.limit then do
    let turns := range' s.pool.limit (freeListSize - s.pool.limit)
    pure (freeListSize - s.pool.limit, ← turns.foldlM (fun s _ => drainTurn s) s)
  else pure (0, s)

def parcBufferPoolGetCurrentPoolSize (pool : PARCBufferPool) : Nat :=
  parcLinkedListSize pool.freeList

/-- The old limit. -/
def parcBufferPoolSetLimit (s : State) (limit : Nat) : Nat × State :=
  let largestPoolSize :=
    if limit < s.pool.limit then s.pool.limit else s.pool.largestPoolSize
  (s.pool.limit,
    { s with pool := { s.pool with limit, largestPoolSize } })

/-! ## Objects with one reference -/

section
variable {A : Allocator} {s : State} {p q : Ptr} {o : Counted Object}

section
variable (h : s.objects.cell p = some o) (hr : o.references = 1)
include h hr

theorem release_last (destructor : State → Ptr → Prog (Bool × State)) :
    release destructor s p = (do
      let (isDestroyed, s) ← destructor { s with objects := s.objects.modify p fun o =>
        { o with references := o.references - 1 } } p
      if isDestroyed then pure { s with objects := s.objects.deallocate p } else pure s) := by
  simp only [release, parcObjectRelease, read_of h, write_of h, pure_bind, hr, one_ne_zero,
    Nat.sub_self, if_false, if_true]

theorem discard_eq :
    ∃ objects, discard s p = pure { s with objects } ∧
      ∀ q, objects.cell q = if q = p then none else s.objects.cell q := by
  have hc : (s.objects.modify p fun o => { o with value.descriptor := .PARCBuffer }).cell p =
      some { o with value.descriptor := .PARCBuffer } := by
    rw [cell_modify, if_pos rfl, h, map_some]
  rw [discard, parcObjectSetDescriptor, write_of h, pure_bind, pure_bind,
    release_last (o := { o with value.descriptor := .PARCBuffer }) hc hr, bufferDestructor,
    pure_bind]
  refine ⟨_, rfl, fun q => ?_⟩
  simp only [cell_deallocate, cell_modify]
  split <;> rfl

theorem acquire_released :
    ∃ objects, parcObjectAcquire (s.objects.modify p fun o =>
        { o with references := o.references - 1 }) p = pure objects ∧
      objects.cell = s.objects.cell := by
  have hc : (s.objects.modify p fun o => { o with references := o.references - 1 }).cell p =
      some { o with references := o.references - 1 } := by
    rw [cell_modify, if_pos rfl, h, map_some]
  rw [parcObjectAcquire, write_of hc]
  refine ⟨_, rfl, funext fun q => ?_⟩
  simp only [cell_modify]
  split
  · rename_i hq
    obtain ⟨references, value⟩ := o
    cases hr
    rw [hq, h]
    rfl
  · rfl

end

variable {xs : List (Ptr × Ptr)}

/-- **Releasing the last reference to a buffer of the pool**: it goes into the free list if there
is room, and is deallocated if not. -/
theorem bufferRelease_eq (h : s.objects.cell p = some o) (hr : o.references = 1)
    (hd : o.value.descriptor = .PARCBufferPool) (hl : Shaped s.pool.freeList xs) :
    ∃ s', parcBufferRelease A s p = pure s' ∧ s'.allocated = s.allocated ∧
      s'.pool.cacheHits = s.pool.cacheHits ∧ s'.pool.totalInstances = s.pool.totalInstances ∧
      s'.pool.limit = s.pool.limit ∧ if s.pool.limit > xs.length then
        s'.objects.cell = s.objects.cell ∧ ∃ q, Shaped s'.pool.freeList (xs ++ [(q, p)])
      else s'.pool = s.pool ∧
        ∀ q, s'.objects.cell q = if q = p then none else s.objects.cell q := by
  have hs : parcLinkedListSize s.pool.freeList = xs.length := hl.size
  obtain ⟨objects, ha, hc⟩ := acquire_released h hr
  rw [parcBufferRelease, read_of h, pure_bind, hd, destructorOf,
    release_last h hr, objectDestructor]
  simp only [hs]
  by_cases hro : s.pool.limit > xs.length
  · obtain ⟨freeList, q, hap, hl'⟩ := append_eq (A := A) hl p
    simp only [if_pos hro, shelve, ha, hap, pure_bind]
    exact ⟨_, rfl, rfl, rfl, rfl, rfl, hc, q, hl'⟩
  · have ho : objects.cell p = some o := by rw [hc, h]
    obtain ⟨objects', hdi, hc'⟩ := discard_eq (s := { s with objects }) ho hr
    simp only [if_neg hro, ha, hdi, pure_bind]
    refine ⟨_, rfl, rfl, rfl, rfl, rfl, rfl, fun q => ?_⟩
    rw [hc' q]
    simp only [hc]

theorem takeFree_eq (hl : Shaped s.pool.freeList ((q, p) :: xs)) :
    ∃ freeList, parcBufferPoolGetInstance A s = pure (p, { s with pool := { s.pool with
        freeList := freeList
        cacheHits := s.pool.cacheHits + 1
        totalInstances := s.pool.totalInstances + 1 } }) ∧ Shaped freeList xs := by
  have hs : parcLinkedListSize s.pool.freeList > 0 := by
    rw [parcLinkedListSize, hl.size, length_cons]
    omega
  obtain ⟨freeList, hr, ht, hta⟩ := removeFirst_eq hl.toThreaded
  refine ⟨freeList, ?_, ht, hta hl.tail⟩
  simp only [parcBufferPoolGetInstance, takeOrAllocate, if_pos hs, takeFree, hr, pure_bind]
  rfl

theorem allocateNew_eq (hl : Shaped s.pool.freeList []) :
    ∃ p objects, parcBufferPoolGetInstance A s = pure (p, { s with
        objects := objects
        allocated := s.allocated + 1
        pool := { s.pool with totalInstances := s.pool.totalInstances + 1 } }) ∧
      s.objects.cell p = none ∧ ∀ q, objects.cell q = if q = p then
        some ⟨1, .PARCBufferPool, parcBufferAllocate s.pool.bufferSize⟩ else s.objects.cell q := by
  have hs : ¬ parcLinkedListSize s.pool.freeList > 0 := by
    rw [parcLinkedListSize, hl.size, length_nil]
    omega
  obtain ⟨⟨objects, p⟩, hn⟩ : ∃ new, s.objects.allocate A
    ⟨1, .PARCBuffer, parcBufferAllocate s.pool.bufferSize⟩ = new := ⟨_, rfl⟩
  refine ⟨p, objects.modify p fun o => { o with value.descriptor := .PARCBufferPool }, ?_,
    cell_fresh hn, fun q => ?_⟩
  · simp only [parcBufferPoolGetInstance, takeOrAllocate, if_neg hs, allocateNew, hn,
      parcObjectSetDescriptor, write_of (cell_new hn), pure_bind]
  · rw [cell_modify, cell_allocate hn]
    split <;> rfl

theorem drain_turns {ys zs} (hl : Shaped s.pool.freeList (ys ++ zs)) (hn : (zs.map snd).Nodup)
    (hli : ∀ p ∈ zs.map snd, ∃ o, s.objects.cell p = some o ∧ o.references = 1) (start : Nat) :
    ∃ freeList objects, (range' start zs.length).foldlM (fun s _ => drainTurn s) s =
        pure { s with objects, pool := { s.pool with freeList } } ∧
      Shaped freeList ys ∧
      ∀ q, objects.cell q = if q ∈ zs.map snd then none else s.objects.cell q := by
  induction zs using reverseRecOn generalizing s start with
  | nil =>
    rw [append_nil] at hl
    exact ⟨s.pool.freeList, s.objects, rfl, hl, fun q => by simp⟩
  | append_singleton zs z ih =>
    obtain ⟨o, hc, hr⟩ := hli z.2 (by simp)
    rw [map_append, map_singleton] at hn
    have hnm : z.2 ∉ zs.map snd := fun hm =>
      (nodup_append.mp hn).2.2 z.2 hm z.2 (.head _) rfl
    obtain ⟨freeList, hre, hl1⟩ := removeLast_eq hl
    rw [← append_assoc, getLast?_concat, map_some] at hre
    rw [← append_assoc, dropLast_concat] at hl1
    obtain ⟨objects, hd, ho⟩ := discard_eq (s := { s with pool := { s.pool with freeList } }) hc hr
    have hli1 : ∀ p ∈ zs.map snd, ∃ o, objects.cell p = some o ∧ o.references = 1 := by
      intro p hp
      have hm : p ∈ (zs ++ [z]).map snd := by
        rw [map_append]
        exact mem_append_left _ hp
      obtain ⟨o', hc', hr'⟩ := hli p hm
      have hne : p ≠ z.2 := fun heq => hnm (heq ▸ hp)
      exact ⟨o', (ho p).trans ((if_neg hne).trans hc'), hr'⟩
    obtain ⟨freeList', objects', ht, hl', ho'⟩ := ih
      (s := { s with objects, pool := { s.pool with freeList } }) hl1
      (nodup_append.mp hn).1 hli1 (start + 1)
    refine ⟨freeList', objects', ?_, hl', fun q => ?_⟩
    · rw [length_append, length_singleton, range'_succ, foldlM_cons, drainTurn, hre]
      simp only [pure_bind, getD_some, hd]
      exact ht
    · rw [ho' q, ho q, map_append, map_singleton]
      by_cases hm : q ∈ zs.map snd
      · rw [if_pos hm, if_pos (mem_append_left _ hm)]
      · rw [if_neg hm]
        by_cases heq : q = z.2
        · rw [if_pos heq, if_pos (by simp [heq])]
        · rw [if_neg heq, if_neg (by
            rw [mem_append, mem_singleton, not_or]
            exact ⟨hm, heq⟩)]

/-- **Draining**: the buffers behind the first `limit` ones are deallocated. -/
theorem drain_eq (hl : Shaped s.pool.freeList xs) (hn : (xs.map snd).Nodup)
    (hli : ∀ p ∈ xs.map snd, ∃ o, s.objects.cell p = some o ∧ o.references = 1) :
    ∃ freeList objects, parcBufferPoolDrain s = pure ((xs.drop s.pool.limit).length,
        { s with objects, pool := { s.pool with freeList } }) ∧
      Shaped freeList (xs.take s.pool.limit) ∧
      ∀ q, objects.cell q =
        if q ∈ (xs.drop s.pool.limit).map snd then none else s.objects.cell q := by
  have hs : parcLinkedListSize s.pool.freeList = xs.length := hl.size
  rw [parcBufferPoolDrain]
  simp only [hs]
  by_cases hm : xs.length > s.pool.limit
  · have hsp : Shaped s.pool.freeList (xs.take s.pool.limit ++ xs.drop s.pool.limit) := by
      rwa [take_append_drop]
    have hsu : ((xs.drop s.pool.limit).map snd).Sublist (xs.map snd) :=
      (drop_sublist s.pool.limit xs).map snd
    obtain ⟨freeList, objects, ht, hl', ho⟩ := drain_turns hsp
      (hn.sublist hsu) (fun p hp => hli p (hsu.mem hp)) s.pool.limit
    rw [length_drop] at ht ⊢
    rw [if_pos hm, ht, pure_bind]
    exact ⟨freeList, objects, rfl, hl', ho⟩
  · have hdrop : xs.drop s.pool.limit = [] := drop_eq_nil_of_le (by omega)
    have hta : xs.take s.pool.limit = xs := take_of_length_le (by omega)
    rw [if_neg hm, hdrop, hta]
    exact ⟨s.pool.freeList, s.objects, rfl, hl, fun q => by simp⟩

end

/-! ## Sessions

The clients of a pool, seen as one: what they do with the buffers they hold. -/

/-- With the buffers that were obtained and not released yet, and what each buffer was when it
was last released. -/
structure Session extends State where
  held : List Ptr
  released : Ptr → Option PARCBuffer

def Session.create (limit bufferSize : Nat) : Session where
  pool := parcBufferPoolCreate limit bufferSize
  objects := .empty
  allocated := 0
  held := []
  released := fun _ => none

/-- Calls to the pool, the release of one of the held buffers, and any change to one of them. -/
inductive Event where
  | getInstance
  | release (i : Nat)
  | setLimit (limit : Nat)
  | drain
  | use (i : Nat) (f : PARCBuffer → PARCBuffer)

/-- The buffer at an address. -/
def State.buffer (s : State) (p : Ptr) : Option PARCBuffer :=
  (s.objects.cell p).map (·.value.buffer)

def Session.use (s : Session) (p : Ptr) (f : PARCBuffer → PARCBuffer) : Session :=
  { s with objects := s.objects.modify p fun o => { o with value.buffer := f o.value.buffer } }

/-- There is nothing to do with a buffer that is not held. -/
def step (A : Allocator) (s : Session) : Event → Prog Session
  | .getInstance => do
    let (p, state) ← parcBufferPoolGetInstance A s.toState
    pure { s with toState := state, held := p :: s.held }
  | .release i =>
    match s.held[i]? with
    | some p => do
      let state ← parcBufferRelease A s.toState p
      pure { toState := state, held := s.held.eraseIdx i,
             released := Function.update s.released p (s.buffer p) }
    | none => pure s
  | .setLimit limit => pure { s with toState := (parcBufferPoolSetLimit s.toState limit).2 }
  | .drain => do
    let (_, state) ← parcBufferPoolDrain s.toState
    pure { s with toState := state }
  | .use i f =>
    match s.held[i]? with
    | some p => pure (s.use p f)
    | none => pure s

/-- The limit of a pool after an event, from the one before. -/
def Event.limit (limit : Nat) : Event → Nat
  | .setLimit limit => limit
  | _ => limit

def run (A : Allocator) (s : Session) (events : List Event) : Prog Session :=
  events.foldlM (step A) s

/-- The buffers that are allocated are those that are held and those of the free list, each of
them once and with one reference. -/
structure Owned (s : Session) (xs : List (Ptr × Ptr)) : Prop where
  list : Shaped s.pool.freeList xs
  nodup : (s.held ++ xs.map snd).Nodup
  live : ∀ p, (s.objects.cell p).isSome = true ↔ p ∈ s.held ++ xs.map snd
  single : ∀ p o, s.objects.cell p = some o →
    o.references = 1 ∧ o.value.descriptor = .PARCBufferPool
  counts : s.pool.cacheHits + .ofNat s.allocated = s.pool.totalInstances
  shelved : ∀ p ∈ xs.map snd, s.released p = s.buffer p

theorem Owned.create (lim bufferSize : Nat) : Owned (.create lim bufferSize) [] where
  list := Shaped.create
  nodup := .nil
  live := fun p => by simp [Session.create, empty]
  single := fun p o h => by cases h
  counts := rfl
  shelved := fun p hp => absurd hp not_mem_nil

section
variable {A : Allocator} {s : Session} {xs : List (Ptr × Ptr)} {p : Ptr}

theorem Owned.object (h : Owned s xs) (hp : p ∈ s.held ++ xs.map snd) :
    ∃ o, s.objects.cell p = some o ∧ o.references = 1 ∧
      o.value.descriptor = .PARCBufferPool := by
  obtain ⟨o, ho⟩ := isSome_iff_exists.mp ((h.live p).mpr hp)
  exact ⟨o, ho, h.single p o ho⟩

theorem Owned.notMem_free (h : Owned s xs) (hp : p ∈ s.held) : p ∉ xs.map snd :=
  fun hm => (nodup_append.mp h.nodup).2.2 p hp p hm rfl

theorem Owned.getInstance_free {q} (h : Owned s ((q, p) :: xs)) :
    ∃ s', step A s .getInstance = pure s' ∧ s'.pool.limit = s.pool.limit ∧ Owned s' xs := by
  obtain ⟨freeList, hc, hl⟩ := takeFree_eq (A := A) h.list
  have hp : ((p :: s.held) ++ xs.map snd).Perm (s.held ++ p :: xs.map snd) :=
    perm_middle.symm
  rw [step, hc, pure_bind]
  refine ⟨_, rfl, rfl, hl, ?_, fun r => ?_, h.single, ?_, ?_⟩
  · exact hp.nodup_iff.mpr h.nodup
  · rw [hp.mem_iff]
    exact h.live r
  · have hco := h.counts
    grind
  · exact fun r hr => h.shelved r (mem_cons_of_mem p hr)

theorem Owned.getInstance_new (h : Owned s []) :
    ∃ s', step A s .getInstance = pure s' ∧ s'.pool.limit = s.pool.limit ∧ Owned s' [] := by
  obtain ⟨p, objects, hc, hf, hob⟩ := allocateNew_eq (A := A) h.list
  have hnm : p ∉ s.held := fun hm => by
    obtain ⟨o, ho, -⟩ := h.object (mem_append_left _ hm)
    rw [hf] at ho
    cases ho
  rw [step, hc, pure_bind]
  refine ⟨_, rfl, rfl, h.list, ?_, fun r => ?_, fun r o ho => ?_, ?_, ?_⟩
  · have hn := h.nodup
    simp only [map_nil, append_nil] at hn ⊢
    exact nodup_cons.mpr ⟨hnm, hn⟩
  · have hl := h.live r
    rw [hob r]
    by_cases hr : r = p
    · simp [hr]
    · rw [if_neg hr, hl]
      simp [hr]
  · rw [hob r] at ho
    split at ho
    · cases ho
      exact ⟨rfl, rfl⟩
    · exact h.single r o ho
  · have hco := h.counts
    rw [← hco, UInt64.ofNat_add]
    grind
  · exact fun r hr => absurd hr not_mem_nil

theorem perm_held {i} (hi : s.held[i]? = some p) : (p :: s.held.eraseIdx i).Perm s.held := by
  obtain ⟨hlt, hg⟩ := List.getElem?_eq_some_iff.mp hi
  rw [← hg]
  exact getElem_cons_eraseIdx_perm hlt

theorem Owned.deallocate (h : Owned s xs) {gone kept : List Ptr} {objects : Store (Counted Object)}
    (hp : (gone ++ kept).Perm (s.held ++ xs.map snd))
    (hc : ∀ r, objects.cell r = if r ∈ gone then none else s.objects.cell r) :
    kept.Nodup ∧ (∀ r, (objects.cell r).isSome = true ↔ r ∈ kept) ∧
      (∀ r o, objects.cell r = some o →
        o.references = 1 ∧ o.value.descriptor = .PARCBufferPool) ∧
      ∀ r ∈ kept, objects.cell r = s.objects.cell r := by
  have hn := nodup_append.mp (hp.nodup_iff.mpr h.nodup)
  have hk : ∀ r ∈ kept, objects.cell r = s.objects.cell r := by
    intro r hr
    rw [hc r, if_neg fun hg => hn.2.2 r hg r hr rfl]
  refine ⟨hn.2.1, fun r => ?_, fun r o hr => ?_, hk⟩
  · have hl := h.live r
    rw [← hp.mem_iff, mem_append] at hl
    constructor
    · intro hs
      rw [hc r] at hs
      split at hs
      · cases hs
      · rename_i hg
        exact (hl.mp hs).resolve_left hg
    · intro hr
      rw [hk r hr]
      exact hl.mpr (.inr hr)
  · rw [hc r] at hr
    split at hr
    · cases hr
    · exact h.single r o hr

theorem Owned.release (h : Owned s xs) {i : Nat} (hi : s.held[i]? = some p) :
    ∃ s' xs', parcBufferRelease A s.toState p = pure s' ∧
      s'.pool.limit = s.pool.limit ∧
      Owned ⟨s', s.held.eraseIdx i, update s.released p (s.buffer p)⟩ xs' ∧
      (xs.length < xs'.length → xs'.length ≤ s.pool.limit) := by
  have hm : p ∈ s.held := mem_of_getElem? hi
  have hp := (perm_held hi).append_right (xs.map snd)
  obtain ⟨o, ho, hre, hd⟩ := h.object (mem_append_left _ hm)
  obtain ⟨s', hc, ha, hh, ht, hli, hca⟩ := bufferRelease_eq (A := A) ho hre hd h.list
  have hco : s'.pool.cacheHits + .ofNat s'.allocated = s'.pool.totalInstances := by
    rw [ha, hh, ht]
    exact h.counts
  have hs : ∀ r ∈ xs.map snd, update s.released p (s.buffer p) r = s.buffer r := by
    intro r hr
    have hne : r ≠ p := fun heq => h.notMem_free hm (heq ▸ hr)
    rw [update_of_ne hne]
    exact h.shelved r hr
  split at hca
  · obtain ⟨hce, q, hl⟩ := hca
    have hal : (s.held.eraseIdx i ++ (xs ++ [(q, p)]).map snd).Perm
        (s.held ++ xs.map snd) := by
      rw [map_append, ← append_assoc]
      exact perm_append_comm.trans hp
    refine ⟨s', xs ++ [(q, p)], hc, hli, ⟨hl, ?_, fun r => ?_, ?_, hco, ?_⟩, fun _ => ?_⟩
    · exact hal.nodup_iff.mpr h.nodup
    · rw [hal.mem_iff, hce]
      exact h.live r
    · rw [hce]
      exact h.single
    · intro r hr
      show _ = (s'.objects.cell r).map (·.value.buffer)
      rw [hce]
      rw [map_append, map_singleton, mem_append, mem_singleton] at hr
      rcases hr with hr | rfl
      · exact hs r hr
      · exact update_self ..
    · rw [length_append, length_singleton]
      omega
  · obtain ⟨hpo, hce⟩ := hca
    have hg : ∀ r, s'.objects.cell r = if r ∈ [p] then none else s.objects.cell r := by
      simpa only [mem_singleton] using hce
    have hle : ([p] ++ (s.held.eraseIdx i ++ xs.map snd)).Perm
        (s.held ++ xs.map snd) := hp
    obtain ⟨hn, hl, hsi, hk⟩ := h.deallocate hle hg
    refine ⟨s', xs, hc, hli, ⟨hpo ▸ h.list, hn, hl, hsi, hco, fun r hr => ?_⟩,
      fun hlt => absurd hlt (Nat.lt_irrefl _)⟩
    show _ = (s'.objects.cell r).map (·.value.buffer)
    rw [hk r (mem_append_right _ hr)]
    exact hs r hr

theorem perm_drop (s : Session) (xs : List (Ptr × Ptr)) (n : Nat) :
    ((xs.drop n).map snd ++ (s.held ++ (xs.take n).map snd)).Perm
      (s.held ++ xs.map snd) := by
  refine perm_append_comm.trans (.of_eq ?_)
  rw [append_assoc, ← map_append, take_append_drop]

variable (h : Owned s xs)
include h

theorem Owned.drain :
    ∃ s', parcBufferPoolDrain s.toState = pure ((xs.drop s.pool.limit).length, s') ∧
      s'.pool.limit = s.pool.limit ∧ Owned { s with toState := s' } (xs.take s.pool.limit) := by
  obtain ⟨freeList, objects, hc, hl, hob⟩ := drain_eq h.list
    (nodup_append.mp h.nodup).2.1 fun p hp => by
      obtain ⟨o, ho, hre, -⟩ := h.object (mem_append_right _ hp)
      exact ⟨o, ho, hre⟩
  obtain ⟨hn, hli, hs, hk⟩ := h.deallocate (perm_drop s xs s.pool.limit) hob
  refine ⟨_, hc, rfl, hl, hn, hli, hs, h.counts, fun r hr => ?_⟩
  show _ = (objects.cell r).map (·.value.buffer)
  rw [hk r (mem_append_right _ hr)]
  exact h.shelved r ((take_sublist _ _).map snd |>.mem hr)

theorem Owned.use (hp : p ∈ s.held) (f : PARCBuffer → PARCBuffer) : Owned (s.use p f) xs := by
  refine ⟨h.list, h.nodup, fun r => ?_, fun r o hr => ?_, h.counts, fun r hr => ?_⟩
  · refine Iff.trans ?_ (h.live r)
    show ((s.objects.modify p _).cell r).isSome = true ↔ _
    rw [cell_modify]
    split
    · rw [isSome_map]
    · rfl
  · have hr' : (s.objects.modify p _).cell r = some o := hr
    rw [cell_modify] at hr'
    split at hr'
    · obtain ⟨o', ho', rfl⟩ := map_eq_some_iff.mp hr'
      exact h.single r o' ho'
    · exact h.single r o hr'
  · have hne : r ≠ p := fun heq => h.notMem_free hp (heq ▸ hr)
    show _ = ((s.objects.modify p _).cell r).map (·.value.buffer)
    rw [cell_modify, if_neg hne]
    exact h.shelved r hr

/-- **Every event is carried out, and keeps the buffers owned.** -/
theorem Owned.step (event : Event) :
    ∃ s' xs', BufferPool.step A s event = pure s' ∧
      s'.pool.limit = event.limit s.pool.limit ∧ Owned s' xs' := by
  cases event with
  | getInstance =>
    cases xs with
    | nil =>
      obtain ⟨s', hs, h'⟩ := h.getInstance_new (A := A)
      exact ⟨s', [], hs, h'⟩
    | cons x xs =>
      obtain ⟨s', hs, h'⟩ := Owned.getInstance_free (A := A) h
      exact ⟨s', xs, hs, h'⟩
  | release i =>
    cases hi : s.held[i]? with
    | none => exact ⟨s, xs, by simp only [BufferPool.step, hi], rfl, h⟩
    | some p =>
      obtain ⟨s', xs', hc, hl, h', -⟩ := h.release (A := A) hi
      exact ⟨_, xs', by simp only [BufferPool.step, hi, hc, pure_bind], hl, h'⟩
  | setLimit lim =>
    exact ⟨_, xs, rfl, rfl, h.list, h.nodup, h.live, h.single, h.counts, h.shelved⟩
  | drain =>
    obtain ⟨s', hc, hl, h'⟩ := h.drain
    exact ⟨_, _, by rw [BufferPool.step, hc, pure_bind], hl, h'⟩
  | use i f =>
    cases hi : s.held[i]? with
    | none => exact ⟨s, xs, by simp only [BufferPool.step, hi], rfl, h⟩
    | some p =>
      refine ⟨s.use p f, xs, ?_, rfl, h.use (mem_of_getElem? hi) f⟩
      simp only [BufferPool.step, hi]

theorem Owned.run (evs : List Event) :
    ∃ s' xs', BufferPool.run A s evs = pure s' ∧
      s'.pool.limit = evs.foldl Event.limit s.pool.limit ∧ Owned s' xs' := by
  induction evs generalizing s xs with
  | nil => exact ⟨s, xs, rfl, rfl, h⟩
  | cons event evs ih =>
    obtain ⟨s1, xs1, hs, hl, h1⟩ := h.step (A := A) event
    obtain ⟨s', xs', hr, hl', h'⟩ := ih h1
    refine ⟨s', xs', ?_, ?_, h'⟩
    · rw [BufferPool.run, foldlM_cons, hs, pure_bind]
      exact hr
    · rw [hl', hl, foldl_cons]

end

/-! ## What holds after every run -/

def State.Live (s : State) (p : Ptr) : Prop := (s.objects.cell p).isSome = true

/-- **After every run of a pool, each buffer is held once or in the free list once**; the limit is
the one last given, a release does not make the free list longer than it, draining leaves no more
than it and returns how many buffers it deallocated, and every instance was a hit or an
allocation. -/
theorem buffers_owned (A : Allocator) (limit bufferSize : Nat) (events : List Event) :
    ∃ s xs, run A (.create limit bufferSize) events = pure s ∧ Shaped s.pool.freeList xs ∧
      s.pool.limit = events.foldl Event.limit limit ∧
      (∀ p, s.Live p ↔ p ∈ s.held ∨ p ∈ xs.map snd) ∧
      (∀ p, s.Live p → (s.held.count p = 1 ∧ (xs.map snd).count p = 0) ∨
        (s.held.count p = 0 ∧ (xs.map snd).count p = 1)) ∧
      (∀ p ∈ s.held, ∃ s', parcBufferRelease A s.toState p = pure s' ∧
        (parcBufferPoolGetCurrentPoolSize s.pool < parcBufferPoolGetCurrentPoolSize s'.pool →
          parcBufferPoolGetCurrentPoolSize s'.pool ≤ s.pool.limit)) ∧
      (∃ n s', parcBufferPoolDrain s.toState = pure (n, s') ∧
        parcBufferPoolGetCurrentPoolSize s'.pool ≤ s.pool.limit ∧
        ∃ gone : List Ptr, gone.Nodup ∧ gone.length = n ∧ (∀ p ∈ gone, s.Live p) ∧
          ∀ p, s'.Live p ↔ s.Live p ∧ p ∉ gone) ∧
      s.pool.cacheHits + .ofNat s.allocated = s.pool.totalInstances := by
  obtain ⟨s, xs, hr, hl, h⟩ := (Owned.create limit bufferSize).run (A := A) events
  have hs : parcBufferPoolGetCurrentPoolSize s.pool = xs.length := h.list.size
  refine ⟨s, xs, hr, h.list, hl, fun p => (h.live p).trans mem_append, fun p hp => ?_,
    fun p hp => ?_, ?_, h.counts⟩
  · have hc := count_eq_one_of_mem h.nodup ((h.live p).mp hp)
    rw [count_append] at hc
    omega
  · obtain ⟨i, hi⟩ := getElem?_of_mem hp
    obtain ⟨s', xs', hca, -, h', hle⟩ := h.release (A := A) hi
    have hs' : parcBufferPoolGetCurrentPoolSize s'.pool = xs'.length := h'.list.size
    refine ⟨s', hca, ?_⟩
    rw [hs, hs']
    exact hle
  · obtain ⟨s', hca, -, h'⟩ := h.drain
    have hs' : parcBufferPoolGetCurrentPoolSize s'.pool = (xs.take s.pool.limit).length :=
      h'.list.size
    have ha := perm_drop s xs s.pool.limit
    have hn := nodup_append.mp (ha.nodup_iff.mpr h.nodup)
    refine ⟨_, s', hca, ?_, (xs.drop s.pool.limit).map snd, hn.1, by simp,
      fun p hp => ?_, fun p => ?_⟩
    · rw [hs', length_take]
      exact Nat.min_le_left ..
    · rw [State.Live, h.live p, ← ha.mem_iff]
      exact mem_append_left _ hp
    · rw [State.Live, State.Live, h.live p, ← ha.mem_iff, mem_append]
      refine (h'.live p).trans ⟨fun hp => ⟨.inr hp, fun hg => hn.2.2 p hg p hp rfl⟩, ?_⟩
      exact fun ⟨hor, hp⟩ => hor.resolve_left hp

/-! ## What a client finds -/

/-- Position, limit, capacity and mark. -/
def view (b : PARCBuffer) : Nat × Nat × Nat × Option Nat :=
  (b.position, b.limit, b.capacity, b.mark)

/-- A buffer that cannot be told from a new one of this size. -/
def LooksNew (bufferSize : Nat) (b : Option PARCBuffer) : Prop :=
  b.map view = some (view (parcBufferAllocate bufferSize))

/-- Every buffer that is obtained in the run looks new. -/
def HandsOutNew (A : Allocator) : Session → List Event → Prop
  | _, [] => True
  | s, event :: events =>
    (event = .getInstance → ∃ p s', parcBufferPoolGetInstance A s.toState = pure (p, s') ∧
      LooksNew s.pool.bufferSize (s'.buffer p)) ∧
    ∃ s', step A s event = pure s' ∧ HandsOutNew A s' events

/-- Every buffer that is taken from the free list in the run looked new when it was released. -/
def ReusesNew (A : Allocator) : Session → List Event → Prop
  | _, [] => True
  | s, event :: events =>
    (event = .getInstance → ∀ p freeList,
      parcLinkedListRemoveFirst s.pool.freeList = pure (some p, freeList) →
        LooksNew s.pool.bufferSize (s.released p)) ∧
    ∃ s', step A s event = pure s' ∧ ReusesNew A s' events

theorem Owned.looksNew_iff {A s xs} (h : Owned s xs) :
    (∃ p s', parcBufferPoolGetInstance A s.toState = pure (p, s') ∧
      LooksNew s.pool.bufferSize (s'.buffer p)) ↔
    ∀ p freeList, parcLinkedListRemoveFirst s.pool.freeList = pure (some p, freeList) →
      LooksNew s.pool.bufferSize (s.released p) := by
  obtain ⟨freeList, hr, -⟩ := removeFirst_eq h.list.toThreaded
  cases xs with
  | nil =>
    obtain ⟨p, objects, hc, -, ho⟩ := allocateNew_eq (A := A) h.list
    constructor
    · intro _ p freeList' hr'
      rw [hr] at hr'
      cases hr'
    · intro _
      refine ⟨p, _, hc, ?_⟩
      rw [LooksNew, State.buffer, ho p, if_pos rfl]
      rfl
  | cons x xs =>
    obtain ⟨freeList', hc, -⟩ := takeFree_eq (A := A) h.list
    have hs := h.shelved x.2 (by simp)
    constructor
    · intro ⟨p, s', hc', hn⟩ p' freeList'' hr'
      rw [hc] at hc'
      cases hc'
      rw [hr] at hr'
      cases hr'
      rw [hs]
      exact hn
    · intro hn
      refine ⟨x.2, _, hc, ?_⟩
      have hn := hn x.2 freeList hr
      rw [hs] at hn
      exact hn

/-- **All buffers that are obtained look new exactly if those that are taken from the free list
looked new when they were released.** -/
theorem handsOutNew_iff (A : Allocator) (limit bufferSize : Nat) (events : List Event) :
    HandsOutNew A (.create limit bufferSize) events ↔
      ReusesNew A (.create limit bufferSize) events := by
  have hr : ∀ s xs, Owned s xs → (HandsOutNew A s events ↔ ReusesNew A s events) := by
    induction events with
    | nil => exact fun s xs h => Iff.rfl
    | cons event events ih =>
      intro s xs h
      obtain ⟨s', xs', hs, -, h'⟩ := h.step (A := A) event
      have hn : (∃ s', step A s event = pure s' ∧ HandsOutNew A s' events) ↔
          ∃ s', step A s event = pure s' ∧ ReusesNew A s' events := by
        simp only [hs, Exec.pure_inj, exists_eq_left', ih s' xs' h']
      rw [HandsOutNew, ReusesNew, hn, h.looksNew_iff]
  exact hr _ [] (.create limit bufferSize)

/-- A buffer that was flipped before it was released is obtained with a limit of 0. -/
theorem flipped_buffer_reused : ∃ s p b,
    run .bump (.create 1 2) [.getInstance, .use 0 parcBufferFlip, .release 0, .getInstance] =
      pure s ∧
    s.held = [p] ∧ s.buffer p = some b ∧ b.limit = 0 ∧ (parcBufferAllocate 2).limit = 2 :=
  ⟨_, _, _, rfl, rfl, rfl, rfl, rfl⟩

end Libparc.BufferPool
