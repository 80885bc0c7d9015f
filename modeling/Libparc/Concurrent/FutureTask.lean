import Libparc.Runtime
import Libparc.Transition

/-! # parc_FutureTask

Any number of threads call Run, Cancel, Get and Reset of one task. What a call does
while it holds the lock of the task is one step, except that the function of the
task runs between two steps, with the lock held. Get sleeps until it is woken. Reset
takes no lock. A thread that runs the function and calls Run, Cancel or Get of the
same task is trapped for a recursive lock.

`starts` and `cancelReturned` are not part of the program: how often the function
was started, and whether a call of Cancel has returned true, since the task was
created or reset. -/
namespace Libparc.FutureTask
open Transition Function

variable {ι : Type}

/-- `struct PARCFutureTask`, without the function and its parameter. -/
structure PARCFutureTask where
  result : Ptr
  isRunning : Bool
  isDone : Bool
  isCancelled : Bool
  deriving DecidableEq

/-- `_parcFutureTask_Initialise`. -/
def initialise : PARCFutureTask := ⟨NULL, false, false, false⟩

inductive PARCExecution where
  | ok
  | timeout
  | interrupted
  deriving DecidableEq

structure PARCFutureTaskResult where
  execution : PARCExecution
  value : Ptr
  deriving DecidableEq

section
variable (task : PARCFutureTask)

/-- Cancel with the lock held: what it returns, and the task. -/
def parcFutureTaskCancel : Bool × PARCFutureTask :=
  if task.isRunning then (false, task)
  else (true, { task with isCancelled := true, isDone := true })

/-- Run with the lock held, up to the call of the function, if it is called. -/
def parcFutureTaskRun : Option PARCFutureTask :=
  if task.isCancelled = false then some { task with isRunning := true } else none

/-- Run from the return of the function on. -/
def parcFutureTaskRan (result : Ptr) : PARCFutureTask :=
  { task with result, isRunning := false, isDone := true }

/-- Get up to its sleep, with the lock held unless the timeout is immediate. Other
calls do not wait for a task that is done, and return that they were interrupted. -/
def parcFutureTaskGet (timeout : PARCTimeout) : Option PARCFutureTaskResult :=
  if timeout = .immediate then
    some (if task.isDone then ⟨.ok, task.result⟩ else ⟨.timeout, NULL⟩)
  else if task.isDone then some ⟨.interrupted, NULL⟩
  else none

/-- Get after its sleep: only a timeout has it look at the task again. -/
def parcFutureTaskGot (timeout : PARCTimeout) (timedOut : Bool) : Option PARCFutureTaskResult :=
  if timedOut then parcFutureTaskGet task timeout else some ⟨.ok, task.result⟩

end

/-- Where a thread is in Get. -/
inductive Place where
  | out
  | asleep (timeout : PARCTimeout)
  | woken (timeout : PARCTimeout) (timedOut : Bool)
  deriving DecidableEq

/-- The task and its address, the thread that runs its function, and the threads in Get. -/
structure State (ι : Type) where
  object : Ptr
  task : PARCFutureTask
  runner : Option ι
  places : ι → Place
  trapped : Option (ι × Trap)
  starts : Nat
  cancelReturned : Bool

def parcFutureTaskCreate (object : Ptr) : State ι :=
  ⟨object, initialise, none, fun _ => .out, none, 0, false⟩

/-- The calls of the threads, the end of the function, and the end of a sleep. The
notification of Cancel and Run is for a thread `j`. -/
inductive Event (ι : Type) where
  | run (i : ι)
  | ran (i : ι) (result : Ptr) (j : ι)
  | cancel (i : ι) (mayInterruptIfRunning : Bool) (j : ι)
  | get (i : ι) (timeout : PARCTimeout)
  | wake (i : ι) (timedOut : Bool)
  | got (i : ι)
  | reset (i : ι)

section
variable [DecidableEq ι] (s : State ι)

/-- A thread in Get is woken, if it sleeps. Only a sleep with a timeout times out. -/
def wake (i : ι) (timedOut : Bool) : State ι :=
  match s.places i with
  | .asleep timeout =>
    { s with places := Function.update s.places i (.woken timeout (timedOut && timeout = .after)) }
  | _ => s

/-- What a thread does with the lock: it is trapped if it runs the function itself,
and it blocks while another does. -/
def locked (i : ι) (region : State ι) : State ι :=
  if s.runner = some i then
    { s with
      trapped := some (i, .cannotObtainLock s!"Recursive locks on {s.object} are not supported.") }
  else if s.runner = none then region
  else s

/-- Get goes to sleep where it has no result. -/
def sleepOr (i : ι) (timeout : PARCTimeout) : Option PARCFutureTaskResult → State ι
  | some _ => { s with places := Function.update s.places i .out }
  | none => { s with places := Function.update s.places i (.asleep timeout) }

/-- An event of a thread that can make it. -/
def act : Event ι → State ι
  | .run i => locked s i <|
    match parcFutureTaskRun s.task with
    | some task => { s with task, runner := some i, starts := s.starts + 1 }
    | none => s
  | .ran _ result j =>
    wake { s with task := parcFutureTaskRan s.task result, runner := none } j false
  | .cancel i _ j => locked s i <|
    match parcFutureTaskCancel s.task with
    | (true, task) => wake { s with task, cancelReturned := true } j false
    | (false, task) => { s with task }
  | .get i timeout =>
    let slept := sleepOr s i timeout (parcFutureTaskGet s.task timeout)
    if timeout = .immediate then slept else locked s i slept
  | .wake i timedOut => wake s i timedOut
  | .got i =>
    match s.places i with
    | .woken timeout timedOut =>
      if s.runner = none then
        sleepOr s i timeout (parcFutureTaskGot s.task timeout timedOut)
      else s
    | _ => s
  | .reset _ => { s with task := initialise, starts := 0, cancelReturned := false }

/-- A call is made by a thread that is not in Get, and only the thread that runs the
function returns from it. -/
def Event.Possible : Event ι → Prop
  | .run i | .cancel i _ _ | .get i _ | .reset i => s.places i = .out
  | .ran i _ _ => s.runner = some i
  | .wake _ _ | .got _ => True

instance (s : State ι) : (e : Event ι) → Decidable (e.Possible s)
  | .run i | .cancel i _ _ | .get i _ | .reset i => inferInstanceAs (Decidable (s.places i = .out))
  | .ran i _ _ => inferInstanceAs (Decidable (s.runner = some i))
  | .wake _ _ | .got _ => inferInstanceAs (Decidable True)

def step (e : Event ι) : State ι :=
  if s.trapped = none ∧ e.Possible s then act s e else s

end

/-! ## Cancel and the function -/

structure Inv (s : State ι) : Prop where
  running : s.runner = none → s.task.isRunning = false
  cancelled : s.task.isCancelled = true → s.task.isDone = true
  started : s.starts ≠ 0 → s.task.isDone = true ∨ s.runner ≠ none
  returned : s.cancelReturned = true → s.task.isCancelled = true ∧ s.starts = 0

variable {s : State ι}

theorem inv_create (object : Ptr) : Inv (parcFutureTaskCreate object : State ι) :=
  ⟨fun _ => rfl, nofun, fun h => absurd rfl h, nofun⟩

section
variable (h : Inv s)
include h

theorem Inv.places (places : ι → Place) : Inv { s with places } :=
  ⟨h.running, h.cancelled, h.started, h.returned⟩

theorem Inv.run (i : ι) {task} (hr : parcFutureTaskRun s.task = some task) :
    Inv { s with task, runner := some i, starts := s.starts + 1 } := by
  unfold parcFutureTaskRun at hr
  split at hr
  · rename_i hc
    cases hr
    refine ⟨nofun, h.cancelled, fun _ => .inr nofun, fun hre => ?_⟩
    rw [(h.returned hre).1] at hc
    cases hc
  · cases hr

theorem Inv.ran (r : Ptr) :
    Inv { s with task := parcFutureTaskRan s.task r, runner := none } :=
  ⟨fun _ => rfl, fun _ => rfl, fun _ => .inl rfl, h.returned⟩

theorem Inv.cancel_eq (hf : s.runner = none) :
    parcFutureTaskCancel s.task = (true, { s.task with isCancelled := true, isDone := true }) :=
  if_neg (by rw [h.running hf]; exact Bool.false_ne_true)

variable (hf : s.runner = none) (hd : s.task.isDone = false)
include hf hd

theorem Inv.starts_eq : s.starts = 0 := by
  by_contra hs
  obtain hd' | hr := h.started hs
  · rw [hd] at hd'
    cases hd'
  · exact hr hf

theorem Inv.cancel :
    Inv { s with task := { s.task with isCancelled := true, isDone := true },
                 cancelReturned := true } :=
  ⟨h.running, fun _ => rfl, fun _ => .inl rfl, fun _ => ⟨rfl, h.starts_eq hf hd⟩⟩

end

section
variable [DecidableEq ι]

/-- The event is a call of Cancel that gets the lock. -/
def Cancels (s : State ι) : Event ι → Prop
  | .cancel i _ _ => s.trapped = none ∧ s.places i = .out ∧ s.runner = none
  | _ => False

/-- A call of Cancel that returns true found a task that was not done and not
cancelled; and where a call has returned true, the function was not started. -/
structure Cancelling (s : State ι) (e : Event ι) : Prop where
  found : Cancels s e → (parcFutureTaskCancel s.task).1 = true →
    s.task.isDone = false ∧ s.task.isCancelled = false
  starts : (step s e).cancelReturned = true → (step s e).starts = 0

/-- A call of Cancel gets the lock of a task that is not done. -/
def Safe (s : State ι) (e : Event ι) : Prop := Cancels s e → s.task.isDone = false

variable {i : ι} {e : Event ι}

theorem wake_eq (s : State ι) (i : ι) (timedOut : Bool) :
    ∃ places, wake s i timedOut = { s with places } := by
  unfold wake
  split
  · exact ⟨_, rfl⟩
  · exact ⟨s.places, rfl⟩

section
variable (h : Inv s)
include h

theorem Inv.wake (i : ι) (timedOut : Bool) : Inv (wake s i timedOut) := by
  obtain ⟨places, hw⟩ := wake_eq s i timedOut
  rw [hw]
  exact h.places places

theorem Inv.sleepOr (i : ι) (timeout : PARCTimeout)
    (r : Option PARCFutureTaskResult) : Inv (sleepOr s i timeout r) := by
  cases r with
  | none | some r => exact h.places _

theorem Inv.locked {region} (hr : s.runner = none → Inv region) : Inv (locked s i region) := by
  unfold FutureTask.locked
  split
  · exact ⟨h.running, h.cancelled, h.started, h.returned⟩
  · split
    · rename_i hf
      exact hr hf
    · exact h

theorem Inv.act (hd : s.runner = none → ∀ i b j, e = .cancel i b j →
    s.task.isDone = false) : Inv (act s e) := by
  cases e with
  | run i =>
    refine h.locked fun _ => ?_
    split
    · rename_i task hr
      exact h.run i hr
    · exact h
  | ran i r j => exact (h.ran r).wake j false
  | cancel i b j =>
    refine h.locked fun hf => ?_
    rw [h.cancel_eq hf]
    exact (h.cancel hf (hd hf i b j rfl)).wake j false
  | get i timeout =>
    rw [act]
    split
    · exact h.sleepOr i timeout _
    · exact h.locked fun _ => h.sleepOr i timeout _
  | wake i timedOut => exact h.wake i timedOut
  | got i =>
    rw [act]
    split
    · split
      · exact h.sleepOr i _ _
      · exact h
    · exact h
  | reset i => exact ⟨fun _ => rfl, nofun, fun hs => absurd rfl hs, nofun⟩

theorem Inv.step (hs : Safe s e) : Inv (step s e) := by
  unfold FutureTask.step
  split
  · rename_i hp
    refine h.act fun hf i b j he => hs ?_
    subst he
    exact ⟨hp.1, hp.2, hf⟩
  · exact h

theorem Inv.cancelling_iff (e : Event ι) : Cancelling s e ↔ Safe s e := by
  constructor
  · intro hg hc
    cases e with
    | cancel i b j =>
      refine (hg.found hc ?_).1
      rw [h.cancel_eq hc.2.2]
    | _ => cases hc
  · intro hs
    refine ⟨fun hc _ => ?_, fun hr => ((h.step hs).returned hr).2⟩
    have hd := hs hc
    refine ⟨hd, ?_⟩
    by_contra hca
    rw [h.cancelled (Bool.eq_true_of_not_eq_false hca)] at hd
    cases hd

end

/-- **A run cancels as it should exactly if every call of Cancel gets the lock of a
task that is not done.** In every run from the creation of a task, whatever the
threads do, the calls of Cancel that return true find a task that is neither done nor
cancelled, and after them the function has not been started and is not started until
Reset, if and only if no call of Cancel enters its locked region with the task done. -/
theorem cancelling_run_iff (object : Ptr) (schedule : List (Event ι)) :
    AllSteps step Cancelling (parcFutureTaskCreate object) schedule ↔
      AllSteps step Safe (parcFutureTaskCreate object : State ι) schedule :=
  allSteps_iff Inv (fun _ e h => h.cancelling_iff e) (fun _ _ h => h.step) (inv_create object)
    schedule

end

/-- Cancel returns true after the function was run to its end, and a second call
returns true as well. -/
theorem cancel_after_run :
    let ran := run step (parcFutureTaskCreate 1 : State Bool) [.run true, .ran true 1 false]
    let cancelled := step ran (.cancel false false true)
    (Cancels ran (.cancel false false true) ∧ (parcFutureTaskCancel ran.task).1 = true ∧
        ran.task.isDone = true ∧ cancelled.cancelReturned = true ∧ cancelled.starts = 1) ∧
      (Cancels cancelled (.cancel false false true) ∧
        (parcFutureTaskCancel cancelled.task).1 = true ∧ cancelled.task.isCancelled = true) :=
  ⟨⟨⟨rfl, rfl, rfl⟩, rfl, rfl, rfl, rfl⟩, ⟨⟨rfl, rfl, rfl⟩, rfl, rfl⟩⟩

/-! ## Get and the result -/

/-- The task, and the result of the last run that was completed since the task was
created or reset. -/
structure Watched (ι : Type) where
  state : State ι
  completed : Option Ptr

section
variable [DecidableEq ι]

def watch (w : Watched ι) (e : Event ι) : Watched ι where
  state := step w.state e
  completed :=
    if w.state.trapped = none ∧ e.Possible w.state then
      match e with
      | .ran _ result _ => some result
      | .reset _ => none
      | _ => w.completed
    else w.completed

/-- What a call of Get returns in this step, if it returns. -/
def answer (s : State ι) : Event ι → Option PARCFutureTaskResult
  | .get _ timeout =>
    if timeout = .immediate ∨ s.runner = none then parcFutureTaskGet s.task timeout else none
  | .got i =>
    match s.places i with
    | .woken timeout timedOut =>
      if s.runner = none then parcFutureTaskGot s.task timeout timedOut else none
    | _ => none
  | _ => none

/-- The call waits for the thread that runs the function. -/
def Blocked (s : State ι) (i : ι) (timeout : PARCTimeout) : Prop :=
  timeout ≠ .immediate ∧ s.runner ≠ none ∧ s.runner ≠ some i

/-- After a run Get returns its result. A Get that has waited returns the result of
a run that is completed, and the end of a run leaves none to wait forever. -/
def GetsResult (w : Watched ι) (e : Event ι) : Prop :=
  w.state.trapped = none → e.Possible w.state →
    match e with
    | .get i timeout => ∀ r, w.completed = some r → ¬ Blocked w.state i timeout →
        answer w.state e = some ⟨.ok, r⟩
    | .got _ => ∀ a, answer w.state e = some a → ∃ r, w.completed = some r ∧ a = ⟨.ok, r⟩
    | .ran _ _ _ => ∀ k, (step w.state e).places k ≠ .asleep .never
    | _ => True

/-- After a run Get is only called with an immediate timeout. A Get that has waited is
woken with a run completed, or times out with the task not done; and a run that ends
has no other thread to wake than the one that it notifies. -/
def SafeGet (w : Watched ι) (e : Event ι) : Prop :=
  w.state.trapped = none → e.Possible w.state →
    match e with
    | .get i timeout => w.completed ≠ none → ¬ Blocked w.state i timeout → timeout = .immediate
    | .got i => ∀ timeout timedOut, w.state.places i = .woken timeout timedOut →
        w.state.runner = none →
        if timedOut = true ∧ timeout ≠ .immediate then w.state.task.isDone = false
        else w.completed ≠ none
    | .ran _ _ j => ∀ k, w.state.places k = .asleep .never → k = j
    | _ => True

/-- What was completed is the result of the task, and it is done. -/
def Kept (completed : Option Ptr) (task : PARCFutureTask) : Prop :=
  ∀ r, completed = some r → task.isDone = true ∧ task.result = r

theorem task_wake (s : State ι) (i : ι) (timedOut : Bool) : (wake s i timedOut).task = s.task := by
  obtain ⟨places, hw⟩ := wake_eq s i timedOut
  rw [hw]

theorem task_sleepOr (s : State ι) (i : ι) (timeout : PARCTimeout)
    (r : Option PARCFutureTaskResult) : (sleepOr s i timeout r).task = s.task := by
  cases r <;> rfl

variable {w : Watched ι} {completed : Option Ptr}

theorem kept_locked (h : Kept completed s.task) {region}
    (hr : Kept completed region.task) : Kept completed (locked s i region).task := by
  unfold FutureTask.locked
  split
  · exact h
  · split
    · exact hr
    · exact h

theorem kept_act (h : Kept completed s.task) (hran : ∀ i r j, e ≠ .ran i r j)
    (hreset : ∀ i, e ≠ .reset i) : Kept completed (act s e).task := by
  cases e with
  | run i =>
    refine kept_locked h ?_
    unfold parcFutureTaskRun
    split
    · rename_i task ht
      split at ht
      · cases ht
        exact h
      · cases ht
    · exact h
  | ran i r j => exact absurd rfl (hran i r j)
  | cancel i b j =>
    refine kept_locked h ?_
    unfold parcFutureTaskCancel
    split
    · rename_i task ht
      split at ht
      · cases ht
      · cases ht
        rw [task_wake]
        exact fun r hr => ⟨rfl, (h r hr).2⟩
    · rename_i task ht
      split at ht
      · cases ht
        exact h
      · cases ht
  | get i timeout =>
    rw [act]
    have hs : Kept completed (sleepOr s i timeout (parcFutureTaskGet s.task timeout)).task := by
      rwa [task_sleepOr]
    split
    · exact hs
    · exact kept_locked h hs
  | wake i timedOut =>
    rw [act, task_wake]
    exact h
  | got i =>
    rw [act]
    split
    · split
      · rwa [task_sleepOr]
      · exact h
    · exact h
  | reset i => exact absurd rfl (hreset i)

theorem kept_watch (h : Kept w.completed w.state.task) (e : Event ι) :
    Kept (watch w e).completed (watch w e).state.task := by
  unfold FutureTask.watch FutureTask.step
  dsimp only
  split
  · cases e with
    | ran i r j =>
      rw [act, task_wake]
      intro r' hr
      cases hr
      exact ⟨rfl, rfl⟩
    | reset i => exact nofun
    | _ => exact kept_act h (by intros; exact nofun) (by intros; exact nofun)
  · exact h

/-- **The result of a run is kept**, and the task done, until another run has completed
or the task is reset, in every interleaving. -/
theorem result_kept (object : Ptr) (schedule : List (Event ι)) :
    let w := run watch (⟨parcFutureTaskCreate object, none⟩ : Watched ι) schedule
    Kept w.completed w.state.task :=
  run_invariant (fun w : Watched ι => Kept w.completed w.state.task)
    (fun _ e h => kept_watch h e) (fun _ h => by cases h) schedule

/-! ### When they return it -/

theorem Kept.get_iff (h : Kept w.completed w.state.task) (i : ι) (timeout : PARCTimeout) :
    GetsResult w (.get i timeout) ↔ SafeGet w (.get i timeout) := by
  refine imp_congr_right fun _ => imp_congr_right fun _ => ?_
  constructor
  · intro hg hc hb
    obtain ⟨r, hr⟩ := Option.ne_none_iff_exists'.mp hc
    by_contra ht
    have ha := hg r hr hb
    simp only [answer, ht, false_or, parcFutureTaskGet, if_false, (h r hr).1, if_true] at ha
    split at ha <;> cases ha
  · intro hs r hr hb
    have ht := hs (by rw [hr]; exact Option.some_ne_none r) hb
    obtain ⟨hd, hre⟩ := h r hr
    simp only [answer, ht, true_or, if_true, parcFutureTaskGet, hd, hre]

theorem Kept.got_right {task} (h : Kept completed task) (timeout : PARCTimeout) (timedOut : Bool) :
    (∀ a, parcFutureTaskGot task timeout timedOut = some a →
        ∃ r, completed = some r ∧ a = ⟨.ok, r⟩) ↔
      if timedOut = true ∧ timeout ≠ .immediate then task.isDone = false else completed ≠ none := by
  unfold parcFutureTaskGot parcFutureTaskGet
  by_cases hc : timedOut = true ∧ timeout ≠ .immediate
  · rw [if_pos hc, if_pos hc.1, if_neg hc.2]
    cases task.isDone with
    | false => exact iff_of_true (fun a ha => by cases ha) rfl
    | true =>
      refine iff_of_false (fun hg => ?_) nofun
      obtain ⟨r, -, ha⟩ := hg _ rfl
      cases ha
  · rw [if_neg hc]
    have ⟨a, ha, hok⟩ : ∃ a, (if timedOut = true then if timeout = .immediate then
        some (if task.isDone then ⟨.ok, task.result⟩ else ⟨.timeout, NULL⟩)
        else if task.isDone then some ⟨.interrupted, NULL⟩ else none
        else some ⟨.ok, task.result⟩) = some a ∧
        (task.isDone = true → a = (⟨.ok, task.result⟩ : PARCFutureTaskResult)) := by
      split
      · have ht : timeout = .immediate := by
          by_contra ht
          exact hc ⟨‹_›, ht⟩
        rw [if_pos ht]
        exact ⟨_, rfl, fun hd => if_pos hd⟩
      · exact ⟨_, rfl, fun _ => rfl⟩
    rw [ha]
    constructor
    · intro hg hn
      obtain ⟨r, hr, -⟩ := hg a rfl
      rw [hn] at hr
      cases hr
    · intro hn b hb
      obtain ⟨r, hr⟩ := Option.ne_none_iff_exists'.mp hn
      obtain ⟨hd, hre⟩ := h r hr
      cases hb
      exact ⟨r, hr, hre ▸ hok hd⟩

theorem Kept.got_iff (h : Kept w.completed w.state.task) (i : ι) :
    GetsResult w (.got i) ↔ SafeGet w (.got i) := by
  refine imp_congr_right fun _ => imp_congr_right fun _ => ?_
  simp only [answer]
  split
  · rename_i timeout timedOut hp
    by_cases hf : w.state.runner = none
    · rw [if_pos hf]
      refine (h.got_right timeout timedOut).trans ⟨fun hg t b hp' _ => ?_, fun hs => hs _ _ hp hf⟩
      cases hp.symm.trans hp'
      exact hg
    · rw [if_neg hf]
      exact iff_of_true nofun fun _ _ _ h0 => absurd h0 hf
  · rename_i hne
    exact iff_of_true nofun fun _ _ hp => absurd hp (hne _ _)

theorem ran_iff (w : Watched ι) (i : ι) (r : Ptr) (j : ι) :
    GetsResult w (.ran i r j) ↔ SafeGet w (.ran i r j) := by
  refine imp_congr_right fun htr => imp_congr_right fun hp => forall_congr' fun k => ?_
  rw [FutureTask.step, if_pos ⟨htr, hp⟩, act, FutureTask.wake]
  split
  · show update w.state.places j _ k ≠ _ ↔ _
    by_cases hk : k = j
    · rw [hk, update_self]
      exact iff_of_true nofun fun _ => rfl
    · rw [update_of_ne hk]
      exact ⟨fun hn ha => absurd ha hn, fun hs ha => hk (hs ha)⟩
  · rename_i hn
    exact ⟨fun hn ha => absurd ha hn, fun hs ha => hn .never (hs ha ▸ ha)⟩

theorem Kept.getsResult_iff (h : Kept w.completed w.state.task) (e : Event ι) :
    GetsResult w e ↔ SafeGet w e := by
  cases e with
  | get i timeout => exact h.get_iff i timeout
  | got i => exact h.got_iff i
  | ran i r j => exact ran_iff w i r j
  | _ => exact Iff.rfl

/-- **A run returns its results exactly if its calls of Get are safe**, from the
creation of a task and whatever the threads do. -/
theorem getsResult_run_iff (object : Ptr) (schedule : List (Event ι)) :
    AllSteps watch GetsResult ⟨parcFutureTaskCreate object, none⟩ schedule ↔
      AllSteps watch SafeGet (⟨parcFutureTaskCreate object, none⟩ : Watched ι) schedule :=
  allSteps_iff (fun w => Kept w.completed w.state.task) (fun _ e h => h.getsResult_iff e)
    (fun _ e h _ => kept_watch h e) (fun _ h => by cases h) schedule

end

/-- A Get that may wait forever is interrupted after a run, and a Get that is woken
without a notification returns NULL before the run. -/
theorem get_after_run :
    let ran := run step (parcFutureTaskCreate 1 : State Bool) [.run true, .ran true 1 false]
    let woken := run step (parcFutureTaskCreate 1 : State Bool)
      [.get false .never, .wake false false]
    answer ran (.get false .never) = some ⟨.interrupted, NULL⟩ ∧
      answer woken (.got false) = some ⟨.ok, NULL⟩ :=
  ⟨rfl, rfl⟩

end Libparc.FutureTask
