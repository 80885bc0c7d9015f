import Libparc.PowerOfTwo
import Libparc.Runtime
import Libparc.Transition
import Mathlib.Data.List.ReduceOption

/-! # parc_RingBuffer_1x1

One producer and one consumer over a ring of pointers. `Put` and `Get` are cut
into their atomic steps: each index read, slot check, slot write, slot read,
slot clear and index commit is one step, in program order, and the schedule
interleaves the steps of the two sides in any way.

The logs are not part of the program. `putLog` holds the data of each `Put`
in the order of their commits; `getLog` has a place for each `Get` in the
order of their commits, filled with the value the `Get` reads. -/
namespace Libparc.RingBuffer
open Libparc.PowerOfTwo List Transition

/-- `struct parc_ringbuffer_1x1`. -/
structure Ring1x1 where
  writerHead : BitVec 32
  readerTail : BitVec 32
  elements : BitVec 32
  ringMask : BitVec 32
  buffer : List Ptr

/-- `_isPowerOfTwo`. -/
def isPowerOfTwo (x : BitVec 32) : Bool := x != 0 && x &&& (x - 1) == 0

/-- `_create`. -/
def create1x1 (elements : BitVec 32) : Ring1x1 where
  writerHead := 0
  readerTail := 0
  elements := elements
  ringMask := elements - 1
  buffer := List.replicate elements.toNat NULL

def parcRingBuffer1x1Create (elements : BitVec 32) : Prog Ring1x1 := do
  assertTrue (isPowerOfTwo elements)
    s!"Parameter elements must be a power of 2, got {elements.toNat}"
  pure (create1x1 elements)

/-- The memory both sides share, and the logs. -/
structure Shared where
  ring : Ring1x1
  putLog : List Ptr
  getLog : List (Option Ptr)

/-- Where a producer is in `parcRingBuffer1x1_Put`, with its local variables. -/
inductive PutPc where
  | idle
  | readHead (data : Ptr)
  | readTail (data : Ptr) (writerHead : BitVec 32)
  | checkSlot (data : Ptr) (writerHead writerNext : BitVec 32)
  | writeSlot (data : Ptr) (writerHead writerNext : BitVec 32)
  | commit (data : Ptr) (writerNext : BitVec 32)
  | trapped
  deriving DecidableEq

/-- Where a consumer is in `parcRingBuffer1x1_Get`. `ticket` is the place of
the call in the log. -/
inductive GetPc where
  | idle
  | readHead
  | readTail (writerHead : BitVec 32)
  | commit (readerTail readerNext : BitVec 32)
  | readSlot (readerTail : BitVec 32) (ticket : Nat)
  | clearSlot (readerTail : BitVec 32)
  | trapped
  deriving DecidableEq

/-- One atomic step of `parcRingBuffer1x1_Put`. -/
def putStep (s : Shared) : PutPc → Shared × PutPc
  | .idle => (s, .idle)
  | .readHead data => (s, .readTail data s.ring.writerHead)
  | .readTail data writerHead =>
    let writerNext := (writerHead + 1) &&& s.ring.ringMask
    -- ring is full
    if writerNext = s.ring.readerTail then (s, .idle)
    else (s, .checkSlot data writerHead writerNext)
  | .checkSlot data writerHead writerNext =>
    if s.ring.buffer[writerHead.toNat]? = some NULL then (s, .writeSlot data writerHead writerNext)
    else (s, .trapped)
  | .writeSlot data writerHead writerNext =>
    ({ s with ring := { s.ring with buffer := s.ring.buffer.set writerHead.toNat data } },
      .commit data writerNext)
  | .commit data writerNext =>
    ({ s with ring := { s.ring with writerHead := writerNext }, putLog := s.putLog ++ [data] },
      .idle)
  | .trapped => (s, .trapped)

/-- One atomic step of `parcRingBuffer1x1_Get`. -/
def getStep (s : Shared) : GetPc → Shared × GetPc
  | .idle => (s, .idle)
  | .readHead => (s, .readTail s.ring.writerHead)
  | .readTail writerHead =>
    let readerTail := s.ring.readerTail
    let readerNext := (readerTail + 1) &&& s.ring.ringMask
    -- ring is empty
    if writerHead = readerTail then (s, .idle)
    else (s, .commit readerTail readerNext)
  | .commit readerTail readerNext =>
    ({ s with ring := { s.ring with readerTail := readerNext }, getLog := s.getLog ++ [none] },
      .readSlot readerTail s.getLog.length)
  | .readSlot readerTail ticket =>
    match s.ring.buffer[readerTail.toNat]? with
    | some value => ({ s with getLog := s.getLog.set ticket (some value) }, .clearSlot readerTail)
    | none => (s, .trapped)
  | .clearSlot readerTail =>
    ({ s with ring := { s.ring with buffer := s.ring.buffer.set readerTail.toNat NULL } }, .idle)
  | .trapped => (s, .trapped)

structure OneByOne where
  shared : Shared
  producer : PutPc
  consumer : GetPc

/-- Who moves next. An idle producer starts a `Put` of `data`. -/
inductive Actor where
  | producer (data : Ptr)
  | consumer

def step (s : OneByOne) : Actor → OneByOne
  | .producer data =>
    match s.producer with
    | .idle => { s with producer := .readHead data }
    | pc =>
      let (shared, pc) := putStep s.shared pc
      { s with shared, producer := pc }
  | .consumer =>
    match s.consumer with
    | .idle => { s with consumer := .readHead }
    | pc =>
      let (shared, pc) := getStep s.shared pc
      { s with shared, consumer := pc }

def init (ring : Ring1x1) : OneByOne := ⟨⟨ring, [], []⟩, .idle, .idle⟩

/-! ## The invariant

With `H` puts and `C` gets committed, the ring holds the values numbered
`C` to `H`, and one more while a consumer has committed a `Get` it has not
cleared. -/

/-- How many slots the consumer has cleared, of `C` gets. -/
def cleared (C : Nat) : GetPc → Nat
  | .readSlot _ _ => C - 1
  | .clearSlot _ => C - 1
  | _ => C

/-- How many of `C` gets have read their value. -/
def answered (C : Nat) : GetPc → Nat
  | .readSlot _ _ => C - 1
  | _ => C

/-- One slot is written before its put is committed. -/
def written : PutPc → Nat
  | .commit _ _ => 1
  | _ => 0

/-- The local variables of the producer. Once the ring was seen not to be
full, there is room for two: the consumer only makes more. -/
def ProducerOk (n : Nat) (s : Shared) : PutPc → Prop
  | .idle => True
  | .readHead _ => True
  | .readTail _ writerHead => writerHead.toNat = s.putLog.length % n
  | .checkSlot _ writerHead writerNext => writerHead.toNat = s.putLog.length % n ∧
      writerNext.toNat = (s.putLog.length + 1) % n ∧ s.putLog.length + 2 ≤ s.getLog.length + n
  | .writeSlot _ writerHead writerNext => writerHead.toNat = s.putLog.length % n ∧
      writerNext.toNat = (s.putLog.length + 1) % n ∧ s.putLog.length + 2 ≤ s.getLog.length + n
  | .commit data writerNext => s.ring.buffer[s.putLog.length % n]? = some data ∧
      writerNext.toNat = (s.putLog.length + 1) % n ∧ s.putLog.length + 2 ≤ s.getLog.length + n
  | .trapped => False

/-- The local variables of the consumer. The head it has read may be an old
one, but not older than its own tail. -/
def ConsumerOk (n : Nat) (s : Shared) : GetPc → Prop
  | .idle => True
  | .readHead => True
  | .readTail writerHead => ∃ H, s.getLog.length ≤ H ∧ H ≤ s.putLog.length ∧
      writerHead.toNat = H % n
  | .commit readerTail readerNext => readerTail.toNat = s.getLog.length % n ∧
      readerNext.toNat = (s.getLog.length + 1) % n ∧ s.getLog.length < s.putLog.length
  | .readSlot readerTail ticket => 0 < s.getLog.length ∧ ticket = s.getLog.length - 1 ∧
      readerTail.toNat = (s.getLog.length - 1) % n ∧ s.getLog[ticket]? = some none
  | .clearSlot readerTail => 0 < s.getLog.length ∧
      readerTail.toNat = (s.getLog.length - 1) % n
  | .trapped => False

structure RingInv (k : Nat) (s : Shared) (p : PutPc) (c : GetPc) : Prop where
  bits : k ≤ 32
  mask : s.ring.ringMask.toNat = 2 ^ k - 1
  length : s.ring.buffer.length = 2 ^ k
  head : s.ring.writerHead.toNat = s.putLog.length % 2 ^ k
  tail : s.ring.readerTail.toNat = s.getLog.length % 2 ^ k
  le : s.getLog.length ≤ s.putLog.length
  room : s.putLog.length + 1 ≤ s.getLog.length + 2 ^ k
  held : ∀ i, cleared s.getLog.length c ≤ i → i < s.putLog.length →
    s.ring.buffer[i % 2 ^ k]? = s.putLog[i]?
  free : ∀ i, s.putLog.length + written p ≤ i → i < cleared s.getLog.length c + 2 ^ k →
    s.ring.buffer[i % 2 ^ k]? = some NULL
  answers : ∀ i < answered s.getLog.length c, s.getLog[i]? = s.putLog[i]?.map some
  producer : ProducerOk (2 ^ k) s p
  consumer : ConsumerOk (2 ^ k) s c

variable {k : Nat} {s : Shared} {p : PutPc} {c : GetPc}

theorem cleared_ge (C : Nat) (c : GetPc) : C - 1 ≤ cleared C c := by
  cases c <;> simp [cleared]

theorem cleared_le (C : Nat) (c : GetPc) : cleared C c ≤ C := by
  cases c <;> simp [cleared]

theorem RingInv.pos (_ : RingInv k s p c) : 0 < 2 ^ k := Nat.two_pow_pos k

theorem RingInv.slot_ne (_ : RingInv k s p c) {i j} (hij : i < j) (hj : j < i + 2 ^ k) :
    i % 2 ^ k ≠ j % 2 ^ k := fun h => Nat.ne_of_lt hij (eq_of_mod_eq (Nat.le_of_lt hij) hj h)

theorem answered_le (C : Nat) (c : GetPc) : answered C c ≤ C := by
  cases c <;> simp [answered]

theorem RingInv.writeSlot {data writerHead writerNext}
    (h : RingInv k s (.writeSlot data writerHead writerNext) c) :
    RingInv k { s with ring := { s.ring with buffer := s.ring.buffer.set writerHead.toNat data } }
      (.commit data writerNext) c := by
  have hcl := cleared_ge s.getLog.length c
  have hcl' := cleared_le s.getLog.length c
  have hle := h.le
  obtain ⟨hh, hn, hr⟩ := h.producer
  have hne : ∀ i, i % 2 ^ k ≠ s.putLog.length % 2 ^ k →
      (s.ring.buffer.set writerHead.toNat data)[i % 2 ^ k]? = s.ring.buffer[i % 2 ^ k]? :=
    fun i hi => getElem?_set_ne (by rw [hh]; exact Ne.symm hi)
  refine { h with
    length := by simpa using h.length
    held := fun i hi hlt => ?_
    free := fun i hi hlt => ?_
    producer := ⟨?_, hn, hr⟩
    consumer := by cases c <;> exact h.consumer }
  · dsimp only at hi hlt ⊢
    rw [hne i (h.slot_ne hlt (by omega)), h.held i hi hlt]
  · dsimp only [written] at hi hlt ⊢
    rw [hne i (Ne.symm (h.slot_ne (i := s.putLog.length) (by omega) (by omega)))]
    exact h.free i (by dsimp only [written]; omega) hlt
  · rw [← hh, getElem?_set_self (by rw [hh, h.length]; exact Nat.mod_lt _ h.pos)]

theorem RingInv.commitPut {data writerNext} (h : RingInv k s (.commit data writerNext) c) :
    RingInv k { s with
      ring := { s.ring with writerHead := writerNext }, putLog := s.putLog ++ [data] } .idle c := by
  obtain ⟨hd, hn, hr⟩ := h.producer
  have hle := h.le
  have hl : (s.putLog ++ [data]).length = s.putLog.length + 1 := by simp
  refine { h with
    head := by rw [hl]; exact hn
    le := by dsimp only; omega
    room := by dsimp only; omega
    held := fun i hi hlt => ?_
    free := fun i hi hlt => h.free i ?_ hlt
    answers := fun i hi => ?_
    producer := trivial
    consumer := ?_ }
  · dsimp only at hi hlt ⊢
    by_cases hi' : i = s.putLog.length
    · rw [hi', hd, getElem?_concat_length]
    · rw [getElem?_append_left (by omega)]
      exact h.held i hi (by omega)
  · dsimp only [written] at hi ⊢
    omega
  · dsimp only at hi ⊢
    have := answered_le s.getLog.length c
    rw [getElem?_append_left (by omega)]
    exact h.answers i hi
  · have hc := h.consumer
    cases c with
    | readTail writerHead =>
      obtain ⟨H, h1, h2, h3⟩ := hc
      exact ⟨H, h1, by dsimp only; omega, h3⟩
    | commit readerTail readerNext =>
      obtain ⟨h1, h2, h3⟩ := hc
      exact ⟨h1, h2, by dsimp only; omega⟩
    | _ => exact hc

/-- **Every step of the producer keeps the invariant.** -/
theorem RingInv.putStep (h : RingInv k s p c) : RingInv k (putStep s p).1 (putStep s p).2 c := by
  have hcl := cleared_ge s.getLog.length c
  cases p with
  | idle => exact h
  | readHead data => exact { h with producer := h.head }
  | readTail data writerHead =>
    have hh : writerHead.toNat = s.putLog.length % 2 ^ k := h.producer
    have hn : ((writerHead + 1) &&& s.ring.ringMask).toNat = (s.putLog.length + 1) % 2 ^ k := by
      rw [toNat_succ_and_mask h.bits _ _ h.mask, hh, Nat.mod_add_mod]
    by_cases hf : (writerHead + 1) &&& s.ring.ringMask = s.ring.readerTail
    · simp only [putStep, if_pos hf]
      exact { h with producer := trivial }
    · simp only [putStep, if_neg hf]
      refine { h with producer := ⟨hh, hn, ?_⟩ }
      -- The ring is not full: the next index is not the tail's.
      by_contra hr
      have hr' := h.room
      refine hf (BitVec.eq_of_toNat_eq ?_)
      rw [hn, h.tail, show s.putLog.length + 1 = s.getLog.length + 2 ^ k by omega,
        Nat.add_mod_right]
  | checkSlot data writerHead writerNext =>
    obtain ⟨hh, hn, hr⟩ := h.producer
    have hnu : s.ring.buffer[writerHead.toNat]? = some NULL := by
      rw [hh]
      exact h.free _ (Nat.le_refl _) (by omega)
    simp only [putStep, if_pos hnu]
    exact { h with producer := ⟨hh, hn, hr⟩ }
  | writeSlot data writerHead writerNext => exact h.writeSlot
  | commit data writerNext => exact h.commitPut
  | trapped => exact h.producer.elim

theorem RingInv.commitGet {readerTail readerNext}
    (h : RingInv k s p (.commit readerTail readerNext)) :
    RingInv k { s with
      ring := { s.ring with readerTail := readerNext }, getLog := s.getLog ++ [none] } p
      (.readSlot readerTail s.getLog.length) := by
  obtain ⟨ht, hn, hlt⟩ := h.consumer
  have hr := h.room
  have hl : (s.getLog ++ [none]).length = s.getLog.length + 1 := by simp
  refine { h with
    tail := by rw [hl]; exact hn
    le := by dsimp only; omega
    room := by dsimp only; omega
    held := fun i hi hlt => h.held i ?_ hlt
    free := fun i hi hlt => h.free i hi ?_
    answers := fun i hi => ?_
    producer := ?_
    consumer := ⟨by dsimp only; omega, by dsimp only; omega, ?_, by simp⟩ }
  · dsimp only [cleared] at hi ⊢
    omega
  · dsimp only [cleared] at hlt ⊢
    omega
  · dsimp only [answered] at hi ⊢
    rw [getElem?_append_left (by omega)]
    exact h.answers i (by dsimp only [answered]; omega)
  · have hp := h.producer
    cases p with
    | checkSlot data writerHead writerNext | writeSlot data writerHead writerNext
    | commit data writerNext =>
      exact ⟨hp.1, hp.2.1, by have := hp.2.2; dsimp only; omega⟩
    | _ => exact hp
  · rw [hl, Nat.add_sub_cancel]
    exact ht

theorem RingInv.readSlot {readerTail ticket v} (h : RingInv k s p (.readSlot readerTail ticket))
    (hv : s.ring.buffer[readerTail.toNat]? = some v) :
    RingInv k { s with getLog := s.getLog.set ticket (some v) } p (.clearSlot readerTail) := by
  obtain ⟨hp, ht, hta, _⟩ := h.consumer
  have hle := h.le
  have hl : (s.getLog.set ticket (some v)).length = s.getLog.length := by simp
  refine { h with
    tail := by rw [hl]; exact h.tail
    le := by dsimp only; omega
    room := by have := h.room; dsimp only; omega
    held := fun i hi hlt => h.held i (by dsimp only [cleared] at hi ⊢; omega) hlt
    free := fun i hi hlt => h.free i hi (by dsimp only [cleared] at hlt ⊢; omega)
    answers := fun i hi => ?_
    producer := ?_
    consumer := ⟨by dsimp only; omega, by dsimp only; rw [hl]; exact hta⟩ }
  · dsimp only [answered] at hi ⊢
    by_cases hi' : i = ticket
    · have hh := h.held i (by dsimp only [cleared]; omega) (by omega)
      rw [hi', ht, ← hta, hv] at hh
      rw [hi', getElem?_set_self (by omega), ht, ← hh]
      rfl
    · rw [getElem?_set_ne (Ne.symm hi')]
      exact h.answers i (by dsimp only [answered]; omega)
  · have hpr := h.producer
    cases p <;> simp only [ProducerOk, hl] at hpr ⊢ <;> exact hpr

theorem RingInv.clearSlot {readerTail} (h : RingInv k s p (.clearSlot readerTail)) :
    RingInv k { s with ring := { s.ring with buffer := s.ring.buffer.set readerTail.toNat NULL } }
      p .idle := by
  obtain ⟨hp, ht⟩ := h.consumer
  have hr := h.room
  have hle := h.le
  have hne : ∀ i, i % 2 ^ k ≠ (s.getLog.length - 1) % 2 ^ k →
      (s.ring.buffer.set readerTail.toNat NULL)[i % 2 ^ k]? = s.ring.buffer[i % 2 ^ k]? :=
    fun i hi => getElem?_set_ne (by rw [ht]; exact Ne.symm hi)
  refine { h with
    length := by simpa using h.length
    held := fun i hi hlt => ?_
    free := fun i hi hlt => ?_
    producer := ?_
    consumer := trivial }
  · dsimp only [cleared] at hi hlt ⊢
    rw [hne i (Ne.symm (h.slot_ne (i := s.getLog.length - 1) (by omega) (by omega)))]
    exact h.held i (by dsimp only [cleared]; omega) hlt
  · dsimp only [cleared] at hi hlt ⊢
    by_cases hi' : i = s.getLog.length - 1 + 2 ^ k
    · rw [hi', Nat.add_mod_right, ← ht,
        getElem?_set_self (by rw [ht, h.length]; exact Nat.mod_lt _ h.pos)]
    · rw [hne i (Ne.symm (h.slot_ne (i := s.getLog.length - 1) (by omega) (by omega)))]
      exact h.free i hi (by dsimp only [cleared]; omega)
  · have hpr := h.producer
    cases p with
    | commit data writerNext =>
      obtain ⟨hd, hn, hr2⟩ := hpr
      refine ⟨?_, hn, hr2⟩
      dsimp only
      rw [hne _ (Ne.symm (h.slot_ne (i := s.getLog.length - 1) (by omega) (by omega)))]
      exact hd
    | _ => exact hpr

/-- **Every step of the consumer keeps the invariant.** -/
theorem RingInv.getStep (h : RingInv k s p c) : RingInv k (getStep s c).1 p (getStep s c).2 := by
  cases c with
  | idle => exact h
  | readHead => exact { h with consumer := ⟨_, h.le, Nat.le_refl _, h.head⟩ }
  | readTail writerHead =>
    obtain ⟨H, hH, hH', hh⟩ := h.consumer
    by_cases he : writerHead = s.ring.readerTail
    · simp only [getStep, if_pos he]
      exact { h with consumer := trivial }
    · simp only [getStep, if_neg he]
      refine { h with consumer := ⟨h.tail, ?_, ?_⟩ }
      · rw [toNat_succ_and_mask h.bits _ _ h.mask, h.tail, Nat.mod_add_mod]
      · -- The head that was read is not the tail, so it is ahead of it.
        by_contra hlt
        refine he (BitVec.eq_of_toNat_eq ?_)
        rw [hh, h.tail, show H = s.getLog.length by omega]
  | commit readerTail readerNext => exact h.commitGet
  | readSlot readerTail ticket =>
    obtain ⟨hp, ht, hta, _⟩ := h.consumer
    have hle := h.le
    obtain ⟨value, hv⟩ : ∃ value, s.ring.buffer[readerTail.toNat]? = some value := by
      rw [hta, h.held _ (by simp only [cleared]; omega) (by omega)]
      exact ⟨_, getElem?_eq_getElem (by omega)⟩
    simp only [getStep, hv]
    exact h.readSlot hv
  | clearSlot readerTail => exact h.clearSlot
  | trapped => exact h.consumer.elim

/-! ## Runs -/

theorem RingInv.step {sys} (h : RingInv k sys.shared sys.producer sys.consumer)
    (a : Actor) : RingInv k (step sys a).shared (step sys a).producer (step sys a).consumer := by
  obtain ⟨s, p, c⟩ := sys
  cases a with
  | producer data =>
    cases p with
    | idle => exact { h with producer := trivial }
    | _ => exact RingInv.putStep h
  | consumer =>
    cases c with
    | idle => exact { h with consumer := trivial }
    | _ => exact RingInv.getStep h

theorem toNat_pred {x : BitVec 32} (h : x.toNat ≠ 0) : (x - 1).toNat = x.toNat - 1 := by
  rw [BitVec.toNat_sub, show (1 : BitVec 32).toNat = 1 from rfl]
  omega

variable {es : BitVec 32}

theorem exists_log_of_create {ring} (h : parcRingBuffer1x1Create es = pure ring) :
    ring = create1x1 es ∧ ∃ k, k ≤ 32 ∧ es.toNat = 2 ^ k := by
  unfold parcRingBuffer1x1Create assertTrue at h
  by_cases ht : isPowerOfTwo es = true
  · rw [if_pos ht, pure_bind, Exec.pure_inj] at h
    simp only [isPowerOfTwo, Bool.and_eq_true, bne_iff_ne, ne_eq, beq_iff_eq] at ht
    obtain ⟨hne, ha⟩ := ht
    have hp : es.toNat ≠ 0 := fun hz => hne (BitVec.eq_of_toNat_eq (by simpa using hz))
    have hlt := es.isLt
    have ha' := congrArg BitVec.toNat ha
    rw [BitVec.toNat_and, toNat_pred hp] at ha'
    obtain ⟨k, hk⟩ := exists_of_and_pred hp ha'
    refine ⟨h.symm, k, ?_, hk⟩
    rw [hk] at hlt
    exact Nat.le_of_lt ((Nat.pow_lt_pow_iff_right (by omega)).mp hlt)
  · rw [if_neg ht] at h
    cases h

theorem ringInv_create (hk : k ≤ 32) (h : es.toNat = 2 ^ k) :
    RingInv k ⟨create1x1 es, [], []⟩ .idle .idle := by
  have hp := Nat.two_pow_pos k
  refine ⟨hk, ?_, ?_, ?_, ?_, Nat.le_refl _, ?_, ?_, ?_, ?_, trivial, trivial⟩
  · rw [create1x1, toNat_pred (by omega), h]
  · simp [create1x1, h]
  · simp [create1x1]
  · simp [create1x1]
  · simp only [length_nil]
    omega
  · intro i _ hi
    cases hi
  · intro i _ hi
    simp only [create1x1, h]
    rw [getElem?_replicate_of_lt (Nat.mod_lt _ hp)]
  · intro i hi
    cases hi

/-- The order of the gets is the order of the puts: the values the gets have
returned, in the order of their commits, are the first values put, and the
indices describe the values held, fewer than the ring has slots. -/
structure Conforms (elements : BitVec 32) (s : Shared) : Prop where
  fifo : s.getLog.reduceOption <+: s.putLog
  places : ∀ (i : Nat) (v : Ptr), s.getLog[i]? = some (some v) → s.putLog[i]? = some v
  committed : s.getLog.length ≤ s.putLog.length
  indices : ((s.ring.writerHead - s.ring.readerTail) &&& s.ring.ringMask).toNat =
    s.putLog.length - s.getLog.length
  held : s.putLog.length - s.getLog.length ≤ elements.toNat - 1

theorem RingInv.getLog_eq (h : RingInv k s p c) : ∃ rest, (∀ v ∈ rest, v = none) ∧
    s.getLog = (s.putLog.take (answered s.getLog.length c)).map some ++ rest := by
  refine ⟨s.getLog.drop (answered s.getLog.length c), fun v hv => ?_, ?_⟩
  · obtain ⟨j, hj, rfl⟩ := mem_iff_getElem.mp hv
    have hc := h.consumer
    cases c with
    | readSlot readerTail ticket =>
      obtain ⟨hp, ht, _, hn⟩ := hc
      simp only [answered, length_drop] at hj
      have hj0 : j = 0 := by omega
      subst hj0
      have hlt : s.getLog.length - 1 < s.getLog.length := by omega
      rw [ht, getElem?_eq_getElem hlt, Option.some.injEq] at hn
      rw [getElem_drop]
      exact hn
    | _ =>
      simp only [answered, length_drop] at hj
      omega
  · conv_lhs => rw [← take_append_drop (answered s.getLog.length c) s.getLog]
    congr 1
    refine ext_getElem? fun i => ?_
    rw [getElem?_map, getElem?_take, getElem?_take]
    split
    · exact h.answers i ‹_›
    · rfl

theorem reduceOption_map_some_append {rest} (m : List Ptr)
    (hr : ∀ v ∈ rest, v = none) : (m.map some ++ rest).reduceOption = m := by
  have hn : rest.filterMap id = [] := filterMap_eq_nil_iff.mpr hr
  rw [reduceOption, filterMap_append, hn, filterMap_map]
  simp

theorem RingInv.indices (h : RingInv k s p c) :
    ((s.ring.writerHead - s.ring.readerTail) &&& s.ring.ringMask).toNat =
      s.putLog.length - s.getLog.length := by
  have hle := h.le
  have hr := h.room
  have hd : 2 ^ k ∣ 2 ^ 32 := Nat.pow_dvd_pow 2 h.bits
  rw [toNat_and_mask _ _ h.mask, BitVec.toNat_sub, Nat.mod_mod_of_dvd _ hd, h.head, h.tail]
  exact sub_mod_eq hd (by omega) hle (by omega)

theorem RingInv.conforms (h : RingInv k s p c) (he : es.toNat = 2 ^ k) : Conforms es s := by
  obtain ⟨rest, hr, hl⟩ := h.getLog_eq
  have hro := h.room
  refine ⟨?_, fun i v hi => ?_, h.le, h.indices, by omega⟩
  · rw [hl, reduceOption_map_some_append _ hr]
    exact take_prefix _ _
  · rw [hl, getElem?_append] at hi
    split at hi
    · rw [getElem?_map, Option.map_eq_some_iff] at hi
      obtain ⟨w, hw, hwv⟩ := hi
      cases hwv
      rw [getElem?_take] at hw
      split at hw
      · exact hw
      · cases hw
    · have := hr _ (mem_of_getElem? hi)
      cases this

/-- **One producer and one consumer**: whatever the interleaving, the ring is
a queue and no check fails. -/
theorem run1x1_conforms {ring} (h : parcRingBuffer1x1Create es = pure ring) (sched : List Actor) :
    Conforms es (run step (init ring) sched).shared ∧
      (run step (init ring) sched).producer ≠ .trapped ∧
      (run step (init ring) sched).consumer ≠ .trapped := by
  obtain ⟨rfl, k, hk, he⟩ := exists_log_of_create h
  have hi := run_invariant
    (fun sys : OneByOne => RingInv k sys.shared sys.producer sys.consumer)
    (fun _ a hs => hs.step a) (s := init (create1x1 es)) (ringInv_create hk he) sched
  refine ⟨hi.conforms he, fun hp => ?_, fun hc => ?_⟩
  · have := hi.producer
    rw [hp] at this
    exact this
  · have := hi.consumer
    rw [hc] at this
    exact this

end Libparc.RingBuffer
