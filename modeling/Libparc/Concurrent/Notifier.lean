import Libparc.Transition

/-! # parc_Notifier

Producers notify a consumer through a pipe, and the consumer switches the
notifications off (PauseEvents) and on again (StartEvents). While they are off a
producer counts what it skipped, and StartEvents looks at the count to notify itself.
A compare-and-swap, an assignment, a test of the count, a write and a read are one
step each, so the producers and the consumer meet between any two of them. The pipe
is never full, and the counter is a 32-bit int that wraps.

`began` is not part of the program: whether a call of Notify has begun since the
consumer's last PauseEvents completed, or since the creation. -/
namespace Libparc.Notifier
open Transition Function

variable {ι : Type}

/-- `struct parc_notifier`: `paused` is 0 or 1, and `pipe` is the number of bytes in
the pipe. -/
structure PARCNotifier where
  paused : Bool
  skippedNotify : BitVec 32
  pipe : Nat
  deriving DecidableEq

/-- Where a caller of Notify is: outside, with what its last call returned, at the
compare-and-swap, at the write, and at the increment. -/
inductive Notifying where
  | out (returned : Option Bool)
  | called
  | writing
  | skipping
  deriving DecidableEq

/-- One step of `parcNotifier_Notify`. -/
def parcNotifierNotify (notifier : PARCNotifier) : Notifying → PARCNotifier × Notifying
  | .out _ => (notifier, .called)
  | .called =>
    if notifier.paused = false then ({ notifier with paused := true }, .writing)
    else (notifier, .skipping)
  | .writing => ({ notifier with pipe := notifier.pipe + 1 }, .out (some true))
  | .skipping =>
    ({ notifier with skippedNotify := notifier.skippedNotify + 1 }, .out (some false))

/-- Where the consumer is. It is between two calls in `started`, with StartEvents its
last one, and in `paused`. PauseEvents resets the count, does its compare-and-swap
and reads; StartEvents does its compare-and-swap, checks the count and notifies. -/
inductive Consuming where
  | started
  | resetting
  | pausing
  | reading
  | paused
  | starting
  | checking
  | notifying (place : Notifying)
  deriving DecidableEq

/-- A read takes up to 16 bytes. -/
def readSize : Nat := 16

/-- One step of the consumer in PauseEvents or StartEvents, or the call of one. -/
def consume (notifier : PARCNotifier) : Consuming → PARCNotifier × Consuming
  | .started => (notifier, .resetting)
  | .resetting => ({ notifier with skippedNotify := 0 }, .pausing)
  | .pausing => ({ notifier with paused := true }, .reading)
  | .reading =>
    if notifier.pipe = 0 then (notifier, .paused)
    else ({ notifier with pipe := notifier.pipe - readSize }, .reading)
  | .paused => (notifier, .starting)
  | .starting => ({ notifier with paused := false }, .checking)
  | .checking =>
    if notifier.skippedNotify = 0 then (notifier, .started) else (notifier, .notifying .called)
  | .notifying place =>
    match parcNotifierNotify notifier place with
    | (notifier, .out _) => (notifier, .started)
    | (notifier, place) => (notifier, .notifying place)

structure State (ι : Type) where
  notifier : PARCNotifier
  producers : ι → Notifying
  consumer : Consuming
  began : Bool

/-- The consumer's first call is one of the two. -/
def parcNotifierCreate (startsFirst : Bool) : State ι :=
  { notifier := ⟨false, 0, 0⟩
    producers := fun _ => .out none
    consumer := if startsFirst then .paused else .started
    began := false }

/-- PauseEvents completes with the read that finds the pipe empty. -/
def stepConsumer (s : State ι) : State ι :=
  let (notifier, consumer) := consume s.notifier s.consumer
  { s with
    notifier := notifier
    consumer := consumer
    began := if s.consumer = .reading ∧ consumer = .paused then false else s.began }

section
variable [DecidableEq ι]

def stepProducer (s : State ι) (i : ι) : State ι :=
  let (notifier, place) := parcNotifierNotify s.notifier (s.producers i)
  { s with
    notifier := notifier
    producers := Function.update s.producers i place
    began := if place = .called then true else s.began }

/-- The consumer or a producer makes its next step. -/
def step (s : State ι) : Option ι → State ι
  | none => stepConsumer s
  | some i => stepProducer s i

end

/-! ## No notification is lost -/

/-- All calls have finished, and StartEvents was the consumer's last one. -/
structure Finished (s : State ι) : Prop where
  producers : ∀ i, ∃ returned, s.producers i = .out returned
  consumer : s.consumer = .started

section
variable (s : State ι)

/-- StartEvents does its compare-and-swap while no producer is between its own
compare-and-swap and its increment, and no increment wraps. -/
def Safe : Option ι → Prop
  | none => s.consumer = .starting → ∀ i, s.producers i ≠ .skipping
  | some i => s.producers i = .skipping → s.notifier.skippedNotify + 1 ≠ 0

/-- A byte is in the pipe or about to be written. -/
def Pending : Prop :=
  0 < s.notifier.pipe ∨ (∃ i, s.producers i = .writing) ∨ s.consumer = .notifying .writing

/-- A caller is at its compare-and-swap. -/
def Calling : Prop :=
  (∃ i, s.producers i = .called) ∨ s.consumer = .notifying .called

/-- A producer is at its increment, or the count says that one was. -/
def Skipped : Prop :=
  (∃ i, s.producers i = .skipping) ∨ s.notifier.skippedNotify ≠ 0

/-- The notifications are on, and off only for a byte on its way. -/
def On : Prop := s.notifier.paused = true → Pending s

/-- What is known of the calls of Notify that began, by the place of the consumer.
While StartEvents has not looked at the count, the count may stand for them. -/
def Inv : Prop :=
  match s.consumer with
  | .resetting | .pausing | .reading => True
  | .paused | .starting => s.began = true → Pending s ∨ Calling s ∨ Skipped s
  | .checking =>
    On s ∧ (s.began = true → Pending s ∨ Calling s ∨ s.notifier.skippedNotify ≠ 0)
  | .started | .notifying _ => On s ∧ (s.began = true → Pending s ∨ Calling s)

end

theorem inv_create (startsFirst : Bool) : Inv (parcNotifierCreate startsFirst : State ι) := by
  cases startsFirst with
  | false => exact ⟨nofun, nofun⟩
  | true => exact nofun

variable {s : State ι}

theorem Inv.pipe (h : Inv s) (hf : Finished s) (hb : s.began = true) : 0 < s.notifier.pipe := by
  have hn {place : Notifying} (hp : ∀ returned, place ≠ .out returned) :
      ¬∃ i, s.producers i = place := by
    intro ⟨i, hi⟩
    obtain ⟨returned, ho⟩ := hf.producers i
    exact hp returned (hi.symm.trans ho)
  unfold Inv at h
  rw [hf.consumer] at h
  obtain (hpi | hw | hc) | (hca | hc) := h.2 hb
  · exact hpi
  · exact absurd hw (hn nofun)
  · rw [hf.consumer] at hc
    cases hc
  · exact absurd hca (hn nofun)
  · rw [hf.consumer] at hc
    cases hc

/-! ## The steps of the producers -/

/-- What a producer's step does to the signs that a call began: none is lost, but
that a caller at its compare-and-swap may find the notifications off. -/
structure Carries (s s' : State ι) : Prop where
  consumer : s'.consumer = s.consumer
  pending : Pending s → Pending s'
  paused : s'.notifier.paused = true → s.notifier.paused = true ∨ Pending s'
  calling : Calling s → Pending s' ∨ Calling s' ∨ (s.notifier.paused = true ∧ Skipped s')
  skipped : Skipped s → Skipped s'
  count : s.notifier.skippedNotify ≠ 0 → s'.notifier.skippedNotify ≠ 0
  began : s'.began = true → s.began = true ∨ Calling s'

variable {s' : State ι}

theorem Carries.on (h : Carries s s') (hon : On s) : On s' := by
  intro hp
  obtain hp | hpe := h.paused hp
  · exact h.pending (hon hp)
  · exact hpe

theorem Carries.calling_on (h : Carries s s') (hon : On s) (hc : Calling s) :
    Pending s' ∨ Calling s' := by
  obtain hp | hc | ⟨hpa, -⟩ := h.calling hc
  · exact .inl hp
  · exact .inr hc
  · exact .inl (h.pending (hon hpa))

theorem Inv.carries (h : Inv s) (hc : Carries s s') : Inv s' := by
  unfold Inv at h ⊢
  rw [hc.consumer]
  have hr (hon : On s) (hb : s.began = true → Pending s ∨ Calling s) :
      On s' ∧ (s'.began = true → Pending s' ∨ Calling s') := by
    refine ⟨hc.on hon, fun hb' => ?_⟩
    obtain hbe | hca := hc.began hb'
    · obtain hp | hca := hb hbe
      · exact .inl (hc.pending hp)
      · exact hc.calling_on hon hca
    · exact .inr hca
  have ho (hb : s.began = true → Pending s ∨ Calling s ∨ Skipped s)
      (hb' : s'.began = true) : Pending s' ∨ Calling s' ∨ Skipped s' := by
    obtain hbe | hca := hc.began hb'
    · obtain hp | hca | hs := hb hbe
      · exact .inl (hc.pending hp)
      · exact (hc.calling hca).imp_right (Or.imp_right And.right)
      · exact .inr (.inr (hc.skipped hs))
    · exact .inr (.inl hca)
  cases hco : s.consumer with
  | started | notifying pl => rw [hco] at h; exact hr h.1 h.2
  | resetting | pausing | reading => trivial
  | paused | starting => rw [hco] at h; exact ho h
  | checking =>
    rw [hco] at h
    refine ⟨hc.on h.1, fun hb' => ?_⟩
    obtain hbe | hca := hc.began hb'
    · obtain hp | hca | hcn := h.2 hbe
      · exact .inl (hc.pending hp)
      · exact (hc.calling_on h.1 hca).imp_right .inl
      · exact .inr (.inr (hc.count hcn))
    · exact .inr (.inl hca)

section
variable [DecidableEq ι] {i : ι}

theorem exists_update {f} {place pl' : Notifying} (hi : f i ≠ place) :
    (∃ j, f j = place) → ∃ j, update f i pl' j = place := by
  intro ⟨j, hj⟩
  have hne : j ≠ i := fun h => hi (h ▸ hj)
  exact ⟨j, (update_of_ne hne ..).trans hj⟩

theorem exists_update_self (f : ι → Notifying) (i : ι) (place : Notifying) :
    ∃ j, update f i place j = place := ⟨i, update_self ..⟩

theorem carries_out {returned} (hi : s.producers i = .out returned) :
    Carries s (stepProducer s i) := by
  unfold stepProducer
  rw [hi]
  have hc : ∃ j, update s.producers i .called j = .called := exists_update_self ..
  refine ⟨rfl, ?_, .inl, fun _ => .inr (.inl (.inl hc)), ?_, id, fun _ => .inr (.inl hc)⟩
  · exact Or.imp_right (Or.imp_left (exists_update (by rw [hi]; exact nofun)))
  · exact Or.imp_left (exists_update (by rw [hi]; exact nofun))

theorem carries_called (hi : s.producers i = .called) : Carries s (stepProducer s i) := by
  unfold stepProducer
  rw [hi, parcNotifierNotify]
  by_cases hp : s.notifier.paused = false
  · rw [if_pos hp]
    have hpe : ∃ j, update s.producers i .writing j = .writing := exists_update_self ..
    exact ⟨rfl, fun _ => .inr (.inl hpe), fun _ => .inr (.inr (.inl hpe)),
      fun _ => .inl (.inr (.inl hpe)),
      Or.imp_left (exists_update (by rw [hi]; exact nofun)), id, .inl⟩
  · rw [if_neg hp]
    refine ⟨rfl, ?_, .inl, fun _ => .inr (.inr ⟨?_, .inl (exists_update_self ..)⟩), ?_, id, .inl⟩
    · exact Or.imp_right (Or.imp_left (exists_update (by rw [hi]; exact nofun)))
    · exact eq_true_of_ne_false hp
    · exact fun _ => .inl (exists_update_self ..)

theorem carries_writing (hi : s.producers i = .writing) : Carries s (stepProducer s i) := by
  unfold stepProducer
  rw [hi]
  have hp : 0 < s.notifier.pipe + 1 := Nat.succ_pos _
  refine ⟨rfl, fun _ => .inl hp, .inl, ?_, ?_, id, .inl⟩
  · exact fun _ => .inl (.inl hp)
  · exact Or.imp_left (exists_update (by rw [hi]; exact nofun))

theorem carries_skipping (hi : s.producers i = .skipping)
    (hc : s.notifier.skippedNotify + 1 ≠ 0) : Carries s (stepProducer s i) := by
  unfold stepProducer
  rw [hi]
  refine ⟨rfl, ?_, .inl, ?_, fun _ => .inr hc, fun _ => hc, .inl⟩
  · exact Or.imp_right (Or.imp_left (exists_update (by rw [hi]; exact nofun)))
  · exact fun h => .inr (.inl (h.imp_left (exists_update (by rw [hi]; exact nofun))))

theorem Inv.stepProducer (h : Inv s) (hs : Safe s (some i)) : Inv (Notifier.stepProducer s i) := by
  refine h.carries ?_
  cases hi : s.producers i with
  | out returned => exact carries_out hi
  | called => exact carries_called hi
  | writing => exact carries_writing hi
  | skipping => exact carries_skipping hi (hs hi)

end

/-! ## The steps of the consumer -/

theorem Pending.consumer (h : Pending s) (hp : s'.producers = s.producers)
    (hpi : s.notifier.pipe ≤ s'.notifier.pipe) (ho : s.consumer ≠ .notifying .writing) :
    Pending s' := by
  obtain hpo | hw | hc := h
  · exact .inl (Nat.lt_of_lt_of_le hpo hpi)
  · exact .inr (.inl (hp ▸ hw))
  · exact absurd hc ho

theorem Calling.consumer (h : Calling s) (hp : s'.producers = s.producers)
    (ho : s.consumer ≠ .notifying .called) : Calling s' := by
  obtain hc | hco := h
  · exact .inl (hp ▸ hc)
  · exact absurd hco ho

variable {n : PARCNotifier} {producers : ι → Notifying} {began : Bool}

theorem Inv.starting (h : Inv ⟨n, producers, .starting, began⟩)
    (hs : ∀ i, producers i ≠ .skipping) :
    Inv ⟨{ n with paused := false }, producers, .checking, began⟩ := by
  refine ⟨nofun, fun hb => ?_⟩
  obtain hp | hc | ⟨i, hi⟩ | hco := h hb
  · exact .inl (hp.consumer rfl (Nat.le_refl _) nofun)
  · exact .inr (.inl (hc.consumer rfl nofun))
  · exact absurd hi (hs i)
  · exact .inr (.inr hco)

theorem Inv.checking (h : Inv ⟨n, producers, .checking, began⟩) :
    Inv (Notifier.stepConsumer ⟨n, producers, .checking, began⟩) := by
  have hon (consumer : Consuming) : On ⟨n, producers, consumer, began⟩ :=
    fun hp => (h.1 hp).consumer rfl (Nat.le_refl _) nofun
  unfold Notifier.stepConsumer consume
  by_cases hc : n.skippedNotify = 0
  · simp only [hc, if_pos]
    refine ⟨hon _, fun hb => ?_⟩
    obtain hpe | hca | hc' := h.2 hb
    · exact .inl (hpe.consumer rfl (Nat.le_refl _) nofun)
    · exact .inr (hca.consumer rfl nofun)
    · exact absurd hc hc'
  · simp only [hc]
    exact ⟨hon _, fun _ => .inr (.inr rfl)⟩

theorem Inv.notifying {pl} (h : Inv ⟨n, producers, .notifying pl, began⟩) :
    Inv (Notifier.stepConsumer ⟨n, producers, .notifying pl, began⟩) := by
  cases pl with
  | out returned =>
    refine ⟨fun hp => (h.1 hp).consumer rfl (Nat.le_refl _) nofun, fun hb => ?_⟩
    exact .inr (.inr rfl)
  | called =>
    unfold Notifier.stepConsumer consume parcNotifierNotify
    by_cases hp : n.paused = false
    · simp only [hp, if_pos]
      have hpe : Pending ⟨{ n with paused := true }, producers,
        .notifying .writing, began⟩ := .inr (.inr rfl)
      exact ⟨fun _ => hpe, fun _ => .inl hpe⟩
    · simp only [hp]
      -- the notifications are off while StartEvents runs, so a byte is on its way
      have hpe : Pending ⟨n, producers, .notifying .skipping, began⟩ :=
        (h.1 (eq_true_of_ne_false hp)).consumer rfl (Nat.le_refl _) nofun
      exact ⟨fun _ => hpe, fun _ => .inl hpe⟩
  | writing =>
    have hpe : Pending ⟨{ n with pipe := n.pipe + 1 }, producers, .started,
      began⟩ := .inl (Nat.succ_pos _)
    exact ⟨fun _ => hpe, fun _ => .inl hpe⟩
  | skipping =>
    refine ⟨fun hp => (h.1 hp).consumer rfl (Nat.le_refl _) nofun, fun hb => ?_⟩
    exact (h.2 hb).imp (·.consumer rfl (Nat.le_refl _) nofun) (·.consumer rfl nofun)

theorem Inv.stepConsumer (h : Inv s) (hs : Safe s none) : Inv (Notifier.stepConsumer s) := by
  obtain ⟨n, producers, consumer, began⟩ := s
  cases consumer with
  | started | resetting | pausing => trivial
  | reading =>
    unfold Notifier.stepConsumer consume
    dsimp only
    split
    · exact nofun
    · trivial
  | paused =>
    intro hb
    obtain hp | hc | hsk := h hb
    · exact .inl (hp.consumer rfl (Nat.le_refl _) nofun)
    · exact .inr (.inl (hc.consumer rfl nofun))
    · exact .inr (.inr hsk)
  | starting => exact h.starting (hs rfl)
  | checking => exact h.checking
  | notifying pl => exact h.notifying

section
variable [DecidableEq ι]

theorem Inv.step (h : Inv s) {actor} (hs : Safe s actor) : Inv (Notifier.step s actor) := by
  cases actor with
  | none => exact h.stepConsumer hs
  | some i => exact h.stepProducer hs

/-- **No notification is lost in a run whose steps are all safe.** Once all calls have
finished and the consumer's last one was StartEvents, a byte can be read if a call of
Notify began after the last PauseEvents completed. -/
theorem notification_not_lost (startsFirst : Bool) (schedule : List (Option ι))
    (hsafe : AllSteps step Safe (parcNotifierCreate startsFirst) schedule)
    (hfinished : Finished (run step (parcNotifierCreate startsFirst) schedule))
    (hbegan : (run step (parcNotifierCreate startsFirst) schedule).began = true) :
    0 < (run step (parcNotifierCreate startsFirst : State ι) schedule).notifier.pipe :=
  (run_safe Inv (fun _ _ h => h.step) (inv_create startsFirst) hsafe).pipe hfinished hbegan

end

/-- A producer notifies between PauseEvents and StartEvents, and the consumer is
notified again. -/
theorem notification_not_lost_skipped :
    0 < (run step (parcNotifierCreate false : State Unit) [none, none, none, none, some (),
      some (), some (), none, none, none, none, none]).notifier.pipe :=
  notification_not_lost false _
    ⟨nofun, nofun, nofun, nofun, nofun, nofun, fun _ => by decide, nofun, fun _ _ => nofun, nofun,
      nofun, nofun, trivial⟩
    ⟨fun _ => ⟨_, rfl⟩, rfl⟩ rfl

/-- The notification is lost if StartEvents runs between the compare-and-swap and the
increment of the producer: the count is looked at too early. -/
theorem notification_lost :
    let s := run step (parcNotifierCreate false : State Unit)
      [none, none, none, none, some (), some (), none, none, none, some ()]
    Finished s ∧ s.began = true ∧ s.notifier.pipe = 0 :=
  ⟨⟨fun _ => ⟨_, rfl⟩, rfl⟩, rfl, rfl⟩

end Libparc.Notifier
