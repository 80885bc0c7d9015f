import Libparc.Concurrent.RingBuffer1x1
import Libparc.Mutex

/-! # parc_RingBuffer_NxM

Any number of producers and consumers over one 1x1 ring: `Put` holds the
writer mutex around the 1x1 `Put`, `Get` the reader mutex around the 1x1
`Get`. The holders of the two mutexes are the one producer and the one
consumer of the 1x1 ring, so every run is a run of that ring. -/
namespace Libparc.RingBuffer
open Libparc.Mutex List Prod Transition

theorem putStart_ne (data : Ptr) : PutPc.readHead data ≠ .idle := nofun

/-- The part of `parcRingBufferNxM_Put` under the writer mutex. -/
def putBody : Body Shared PutPc Ptr := ⟨.readHead, .idle, putStep, putStart_ne⟩

/-- The part of `parcRingBufferNxM_Get` under the reader mutex. -/
def getBody : Body Shared GetPc Unit := ⟨fun _ => .readHead, .idle, getStep, nofun⟩

/-- `struct parc_ringbuffer_NxM` with `n` producers and `m` consumers. -/
structure NxM (n m : Nat) where
  shared : Shared
  writers : Guarded (Fin n) PutPc Ptr
  readers : Guarded (Fin m) GetPc Unit

inductive ActorNxM (n m : Nat) where
  | producer (i : Fin n) (data : Ptr)
  | consumer (j : Fin m)

def stepNxM {n m : Nat} (s : NxM n m) : ActorNxM n m → NxM n m
  | .producer i data =>
    let (shared, writers) := s.writers.step putBody s.shared i data
    { s with shared, writers }
  | .consumer j =>
    let (shared, readers) := s.readers.step getBody s.shared j ()
    { s with shared, readers }

def parcRingBufferNxMCreate (n m : Nat) (elements : BitVec 32) : Prog (NxM n m) := do
  let onebyone ← parcRingBuffer1x1Create elements
  pure ⟨⟨onebyone, [], []⟩, ⟨none, fun _ => .idle⟩, ⟨none, fun _ => .idle⟩⟩

section
variable {n m : Nat}

/-- The 1x1 ring as the holders of the mutexes use it. -/
structure Refines (s : NxM n m) (t : OneByOne) : Prop where
  shared : t.shared = s.shared
  producer : t.producer = s.writers.current putBody
  consumer : t.consumer = s.readers.current getBody
  writersOk : s.writers.Ok putBody
  readersOk : s.readers.Ok getBody

theorem step_producer {t data} (h : t.producer ≠ .idle) :
    step t (.producer data) =
      { t with shared := (putStep t.shared t.producer).1
               producer := (putStep t.shared t.producer).2 } := by
  obtain ⟨s, p, c⟩ := t
  cases p <;> first | exact absurd rfl h | rfl

theorem step_consumer {t} (h : t.consumer ≠ .idle) :
    step t .consumer =
      { t with shared := (getStep t.shared t.consumer).1
               consumer := (getStep t.shared t.consumer).2 } := by
  obtain ⟨s, p, c⟩ := t
  cases c <;> first | exact absurd rfl h | rfl

/-- **Each step of the threads is a step of the 1x1 ring, or none.** -/
theorem Refines.step {s t} (h : Refines s t) (a : ActorNxM n m) :
    ∃ l : List Actor, Refines (stepNxM s a) (run step t l) := by
  obtain ⟨shared, p, c⟩ := t
  obtain ⟨hsh, hp, hc, hw, hr⟩ := h
  subst hsh hp hc
  cases a with
  | producer i data =>
    obtain ⟨hok, ⟨hs, hcu⟩ | ⟨arg, hi, hs, hcu⟩ | ⟨hne, hb⟩⟩ := Guarded.step_spec hw s.shared i data
    · exact ⟨[], hs.symm, hcu.symm, rfl, hok, hr⟩
    · refine ⟨[.producer arg], ?_⟩
      rw [hi]
      exact ⟨hs.symm, hcu.symm, rfl, hok, hr⟩
    · refine ⟨[.producer data], ?_⟩
      rw [run, foldl_cons, foldl_nil, step_producer hne]
      exact ⟨(congrArg fst hb).symm, (congrArg snd hb).symm, rfl, hok, hr⟩
  | consumer j =>
    obtain ⟨hok, ⟨hs, hcu⟩ | ⟨arg, hi, hs, hcu⟩ | ⟨hne, hb⟩⟩ := Guarded.step_spec hr s.shared j ()
    · exact ⟨[], hs.symm, rfl, hcu.symm, hw, hok⟩
    · refine ⟨[.consumer], ?_⟩
      rw [hi]
      exact ⟨hs.symm, rfl, hcu.symm, hw, hok⟩
    · refine ⟨[.consumer], ?_⟩
      rw [run, foldl_cons, foldl_nil, step_consumer hne]
      exact ⟨(congrArg fst hb).symm, rfl, (congrArg snd hb).symm, hw, hok⟩

theorem parcRingBufferNxMCreate_refines {es s} (h : parcRingBufferNxMCreate n m es = pure s) :
    ∃ ring, parcRingBuffer1x1Create es = pure ring ∧ Refines s (init ring) := by
  obtain ⟨ring, hr, hs⟩ := Exec.bind_eq_pure.mp h
  rw [Exec.pure_inj] at hs
  subst hs
  refine ⟨ring, hr, rfl, rfl, rfl, ⟨fun i => ?_, nofun⟩, ⟨fun i => ?_, nofun⟩⟩
  all_goals simp [Thread.holds]

theorem runNxM_conforms {es s}
    (h : parcRingBufferNxMCreate n m es = pure s) (sched : List (ActorNxM n m)) :
    Conforms es (run stepNxM s sched).shared ∧
      (∀ i, (run stepNxM s sched).writers.threads i ≠ .inside .trapped) ∧
      ∀ j, (run stepNxM s sched).readers.threads j ≠ .inside .trapped := by
  obtain ⟨ring, hri, hre⟩ := parcRingBufferNxMCreate_refines h
  obtain ⟨sched', hru⟩ := run_refines step Refines (fun _ _ a hr => hr.step a) hre sched
  obtain ⟨hco, hp, hc⟩ := run1x1_conforms hri sched'
  refine ⟨hru.shared ▸ hco, fun i hi => hp ?_, fun j hj => hc ?_⟩
  · rw [hru.producer, Guarded.current_inside hru.writersOk hi]
  · rw [hru.consumer, Guarded.current_inside hru.readersOk hj]

end

/-- **The ring buffers are queues under every interleaving.** For a ring of
any size `Create` accepts, one producer and one consumer of the 1x1 ring, or
any number of either over the NxM ring, only reach states in which the gets
have returned a first part of what the puts have put, in the order of the
commits, in which the indices describe fewer values than there are slots, and
in which no check has failed. -/
theorem ringBuffers_conform (elements : BitVec 32) :
    (∀ ring, parcRingBuffer1x1Create elements = pure ring → ∀ schedule : List Actor,
      Conforms elements (run step (init ring) schedule).shared ∧
      (run step (init ring) schedule).producer ≠ .trapped ∧
      (run step (init ring) schedule).consumer ≠ .trapped) ∧
    ∀ (n m : Nat) (s : NxM n m), parcRingBufferNxMCreate n m elements = pure s →
      ∀ schedule : List (ActorNxM n m),
        Conforms elements (run stepNxM s schedule).shared ∧
        (∀ i, (run stepNxM s schedule).writers.threads i ≠ .inside .trapped) ∧
        ∀ j, (run stepNxM s schedule).readers.threads j ≠ .inside .trapped :=
  ⟨fun _ h schedule => run1x1_conforms h schedule,
    fun _ _ _ h schedule => runNxM_conforms h schedule⟩

/-- A ring of two slots holds one value: the second `Put` below finds it full
until the `Get` has committed. -/
theorem ringBuffers_conform_two :
    parcRingBuffer1x1Create 2 = pure (create1x1 2) ∧
      Conforms 2 (run step (init (create1x1 2)) (List.replicate 6 (.producer 7) ++
        List.replicate 4 .consumer ++ List.replicate 6 (.producer 8))).shared ∧
      Conforms 2 (run stepNxM
        (⟨⟨create1x1 2, [], []⟩, ⟨none, fun _ => .idle⟩, ⟨none, fun _ => .idle⟩⟩ : NxM 2 1)
        [.producer 0 7, .producer 1 8, .producer 0 7, .consumer 0]).shared :=
  ⟨rfl, ((ringBuffers_conform 2).1 _ rfl _).1, ((ringBuffers_conform 2).2 2 1 _ rfl _).1⟩

end Libparc.RingBuffer
