import Mathlib.Data.Finset.Lattice.Fold
import Mathlib.Tactic.IntervalCases
import Libparc.Concurrent.ThreadPoolWaiting
import Libparc.Fairness

/-! # The end of AwaitTermination

Once the queue stays empty, a client in AwaitTermination that does not sleep comes to
the end of ShutdownNow: it wakes up all who sleep, and the workers that it has cancelled
come to their ends. A client that sleeps has to be woken up. If the workers wake up a
client where one sleeps, this happens. If they wake up an idle worker instead, it may
not: the idle workers sleep for a second at most, but the client without end. -/
namespace Libparc.ThreadPool
open Transition

variable {n : Nat} {κ τ : Type} {pool : PARCThreadPool n κ τ}

/-! ## The steps to the end -/

/-- How far a client is from the notification of all. -/
def Client.rank (n : Nat) : Client τ → Nat
  | .draining _ | .woken _ => n + 5
  | .closing => n + 4
  | .cancelling k => n - k + 3
  | .notifyingPool => 2
  | .notifyingQueue => 1
  | _ => 0

variable {pl : Client τ} {c : κ}

theorem Client.Helps.active (h : pl.Helps) : pl.Active := by
  cases pl with
  | out returned => cases h
  | asleep timeout => cases h
  | _ => trivial

theorem Client.Helps.enabled (h : (pool.clients c).Helps) : Enabled pool (.inr c) := by
  rw [Enabled]
  cases hp : pool.clients c with
  | out returned | asleep timeout | waiting k =>
    rw [hp] at h
    cases h
  | _ => trivial

section
variable [DecidableEq κ]

theorem helps_stepClient (hc : (pool.clients c).Helps) (waiter : Option (Fin n ⊕ κ)) :
    (pool.workQueue ≠ [] ∧ Asleep (stepClient pool c waiter) (.inr c)) ∨
      stepClient pool c waiter = setClient (notifyAll pool) c (.joining 0) ∨
      (((stepClient pool c waiter).clients c).Helps ∧
        ((stepClient pool c waiter).clients c).rank n < (pool.clients c).rank n) := by
  rw [Asleep, clients_stepClient]
  cases hp : pool.clients c with
  | draining timeout | woken timeout =>
    cases hq : pool.workQueue with
    | nil => exact .inr (.inr (by rw [Client.next, hq]; exact ⟨trivial, Nat.lt_succ_self _⟩))
    | cons task wq => exact .inl ⟨List.cons_ne_nil _ _, timeout, by rw [Client.next, hq]⟩
  | closing | notifyingPool => exact .inr (.inr ⟨trivial, Nat.lt_succ_self _⟩)
  | cancelling k =>
    refine .inr (.inr ?_)
    rw [Client.next]
    split
    all_goals exact ⟨trivial, by simp only [Client.rank]; omega⟩
  | notifyingQueue => exact .inr (.inl (by rw [stepClient, hp]))
  | _ =>
    rw [hp] at hc
    cases hc

theorem helps_step (hc : (pool.clients c).Helps) (e : Event n κ τ) :
    (pool.workQueue ≠ [] ∧ Asleep (step pool e) (.inr c)) ∨
      step pool e = setClient (notifyAll pool) c (.joining 0) ∨ (((step pool e).clients c).Helps ∧
        ((step pool e).clients c).rank n ≤ (pool.clients c).rank n ∧ (e.actor = some (.inr c) →
          ((step pool e).clients c).rank n < (pool.clients c).rank n)) := by
  obtain ⟨waiter, rfl⟩ | ⟨he, hs⟩ := clients_step hc.active e
  · exact (helps_stepClient hc waiter).imp_right (.imp_right fun h => ⟨h.1, h.2.le, fun _ => h.2⟩)
  · rw [hs]
    exact .inr (.inr ⟨hc, Nat.le_refl _, fun h => absurd h he⟩)

theorem asleep_step (hc : Asleep pool (.inr c)) (e : Event n κ τ) :
    Asleep (step pool e) (.inr c) ∨ ((step pool e).clients c).Helps := by
  obtain ⟨timeout, hc⟩ := hc
  by_cases he : e.mover = some (.inr c)
  · obtain ⟨waiter, rfl⟩ | ⟨req, rfl⟩ := Event.eq_client he
    · rw [step, Asleep, clients_stepClient, hc, Client.next]
      split
      · exact .inl ⟨timeout, rfl⟩
      · exact .inr trivial
    · obtain hs | ⟨⟨returned, ho⟩, -⟩ := call_cases pool c req
      · exact .inl ⟨timeout, by rw [hs, hc]⟩
      · cases hc.symm.trans ho
  · have hk := (keeps_step pool e).clients c he
    rw [hc] at hk
    obtain hs | hw := hk
    · exact .inl ⟨timeout, hs⟩
    · rw [hw]
      exact .inr trivial

/-- How far a worker that is cancelled is from its end. -/
def Worker.rank : Worker τ → Nat
  | .exited => 0
  | .testing => 1
  | .woken | .notifying => 2
  | .asleep | .running _ => 3
  | .taking => 4
  | .testingTerminated => 5

theorem Worker.rank_wake (pl : Worker τ) : pl.wake.rank ≤ pl.rank := by
  cases pl with
  | asleep => exact Nat.le_succ _
  | _ => exact Nat.le_refl _

variable {w : Fin n}

section
variable (hc : pool.isCancelled w = true) (hl : pool.workers w ≠ .exited)
include hc hl

theorem rank_stepWorker (waiter : Option (Fin n ⊕ κ)) :
    ((stepWorker pool w waiter).workers w).rank < (pool.workers w).rank := by
  unfold stepWorker
  cases hw : pool.workers w with
  | testing =>
    rw [if_pos hc, setWorker_self]
    exact Nat.zero_lt_one
  | testingTerminated =>
    rw [setWorker_self]
    split
    · exact Nat.zero_lt_succ _
    · exact Nat.lt_succ_self _
  | taking =>
    dsimp only
    split
    all_goals
      rw [setWorker_self]
      exact Nat.lt_succ_self _
  | running task | asleep | woken =>
    rw [setWorker_self]
    exact Nat.lt_succ_self _
  | notifying =>
    obtain hs | hwo := ((Keeps.refl none (setWorker pool w .testing)).notify waiter).workers w nofun
    · rw [hs, setWorker_self]
      exact Nat.lt_succ_self _
    · rw [hwo, setWorker_self]
      exact Nat.lt_succ_self _
  | exited => exact absurd hw hl

theorem rank_step_worker (e : Event n κ τ) :
    ((step pool e).workers w).rank ≤ (pool.workers w).rank ∧
      (e.actor = some (.inl w) → ((step pool e).workers w).rank < (pool.workers w).rank) := by
  by_cases he : e.mover = some (.inl w)
  · obtain ⟨waiter, rfl⟩ := Event.eq_worker he
    have hlt := rank_stepWorker hc hl waiter
    exact ⟨hlt.le, fun _ => hlt⟩
  · refine ⟨?_, fun h => absurd (Event.mover_eq h) he⟩
    obtain hs | hw := (keeps_step pool e).workers w he
    · rw [hs]
    · rw [hw]
      exact Worker.rank_wake _

end

theorem exited_step (hw : pool.workers w = .exited) (e : Event n κ τ) :
    (step pool e).workers w = .exited := by
  obtain ⟨waiter, rfl⟩ | ⟨-, hs⟩ := workers_step (by rw [hw]; rfl) e
  · rw [step, stepWorker, hw]
    exact hw
  · exact hs.trans hw

/-- A client that joins the workers. -/
def Client.Joins : Client τ → Prop
  | .joining _ | .waiting _ | .terminating => True
  | _ => False

/-- How far a client that joins the workers is from its return. -/
def Client.joinRank (n : Nat) : Client τ → Nat
  | .joining k => 2 * (n - k) + 2
  | .waiting k => 2 * (n - k) + 1
  | _ => 0

theorem Client.Joins.active (h : pl.Joins) : pl.Active := by
  cases pl with
  | out returned => cases h
  | asleep timeout => cases h
  | _ => trivial

theorem Client.Joins.cancelled_eq (h : pl.Joins) : pl.cancelled n = n := by
  cases pl with
  | joining k | waiting k | terminating => rfl
  | _ => cases h

theorem joins_step (hc : (pool.clients c).Joins) (e : Event n κ τ) :
    (step pool e).clients c = .out (.awaitTermination true) ∨ (((step pool e).clients c).Joins ∧
        ((step pool e).clients c).joinRank n ≤ (pool.clients c).joinRank n ∧
        ((∀ w, pool.workers w = .exited) → e.actor = some (.inr c) →
          ((step pool e).clients c).joinRank n < (pool.clients c).joinRank n)) := by
  obtain ⟨waiter, rfl⟩ | ⟨he, hs⟩ := clients_step hc.active e
  · rw [step, clients_stepClient]
    cases hp : pool.clients c with
    | joining k =>
      refine .inr ?_
      rw [Client.next]
      split
      · split
        all_goals
          simp only [Client.joinRank]
          exact ⟨trivial, by omega, fun _ _ => by omega⟩
      · exact ⟨trivial, Nat.zero_le _, fun _ _ => Nat.succ_pos _⟩
    | waiting k =>
      refine .inr ?_
      rw [Client.next]
      split
      · rename_i hk
        split
        · simp only [Client.joinRank]
          exact ⟨trivial, by omega, fun _ _ => by omega⟩
        · rename_i hl
          exact ⟨trivial, Nat.le_refl _, fun ha => absurd (ha ⟨k, hk⟩) hl⟩
      · exact ⟨trivial, Nat.zero_le _, fun _ _ => Nat.succ_pos _⟩
    | terminating => exact .inl rfl
    | _ =>
      rw [hp] at hc
      cases hc
  · rw [hs]
    exact .inr ⟨hc, Nat.le_refl _, fun _ h => absurd h he⟩

theorem busy_step (hw : (pool.workers w).Busy) (hc : Asleep pool (.inr c)) {e}
    (hwa : WakesClient pool e) :
    (∃ d, ((step pool e).clients d).Helps) ∨
      (((step pool e).workers w).Busy ∧ ((step pool e).workers w).rank ≤ (pool.workers w).rank ∧
        (e.actor = some (.inl w) → ((step pool e).workers w).rank < (pool.workers w).rank)) := by
  have ha : (pool.workers w).wake = pool.workers w := by
    cases hp : pool.workers w with
    | asleep =>
      rw [hp] at hw
      cases hw
    | _ => rfl
  obtain ⟨waiter, rfl⟩ | ⟨he, hs⟩ := workers_step ha e
  · cases hp : pool.workers w with
    | running task =>
      refine .inr ?_
      rw [step, stepWorker, hp, setWorker_self]
      exact ⟨trivial, Nat.le_succ _, fun _ => Nat.lt_succ_self _⟩
    | notifying =>
      obtain ⟨d, rfl, timeout, hd⟩ := hwa hp c hc
      refine .inl ⟨d, ?_⟩
      rw [step, stepWorker, hp]
      show ((setClient _ d (pool.clients d).wake).clients d).Helps
      rw [setClient_self, hd]
      trivial
    | _ =>
      rw [hp] at hw
      cases hw
  · rw [hs]
    exact .inr ⟨hw, Nat.le_refl _, fun h => absurd h he⟩

/-! ## Somebody wakes up a client -/

theorem notify_workQueue (pool : PARCThreadPool n κ τ) (waiter : Option (Fin n ⊕ κ)) :
    (notify pool waiter).workQueue = pool.workQueue := by
  match waiter with
  | none | some (.inl _) | some (.inr _) => rfl

theorem queue_step {e} (h : (step pool e).workQueue = []) :
    pool.workQueue = [] ∨ ∃ w, ((step pool e).workers w).Busy := by
  cases e with
  | worker w waiter =>
    rw [step, stepWorker] at h ⊢
    cases hw : pool.workers w with
    | taking =>
      cases hq : pool.workQueue with
      | nil => exact .inl rfl
      | cons task wq => exact .inr ⟨w, by rw [setWorker_self]; trivial⟩
    | notifying =>
      rw [hw, notify_workQueue] at h
      exact .inl h
    | _ =>
      rw [hw] at h
      exact .inl h
  | client c waiter =>
    rw [step, stepClient] at h
    refine .inl ?_
    cases hc : pool.clients c with
    | appending task =>
      rw [hc, notify_workQueue] at h
      cases List.append_ne_nil_of_right_ne_nil _ (List.cons_ne_nil _ _) h
    | _ =>
      rw [hc] at h
      dsimp only [drain] at h
      repeat' split at h
      all_goals exact h
  | call c req =>
    obtain hs | ⟨-, hca⟩ := call_cases pool c req
    · exact .inl (hs ▸ h)
    · rw [hca] at h
      exact .inl h
  | spurious waiter =>
    cases waiter with
    | _ => exact .inl h

theorem asleep_of_step {e} (h : Asleep (step pool e) (.inr c))
    (hq : pool.workQueue = []) : Asleep pool (.inr c) := by
  obtain ⟨timeout, hc⟩ := h
  by_cases he : e.mover = some (.inr c)
  · obtain ⟨waiter, rfl⟩ | ⟨req, rfl⟩ := Event.eq_client he
    · rw [step, clients_stepClient] at hc
      cases hp : pool.clients c with
      | asleep timeout' => exact ⟨timeout', hp⟩
      | draining timeout' | woken timeout' =>
        rw [hp, Client.next, hq] at hc
        cases hc
      | _ =>
        rw [hp] at hc
        dsimp only [Client.next] at hc
        repeat' split at hc
        all_goals cases hc
    · obtain hs | ⟨-, hca⟩ := call_cases pool c req
      · exact ⟨timeout, hs ▸ hc⟩
      · rw [hca, setClient_self] at hc
        cases req with
        | _ => cases hc
  · obtain hs | hw := (keeps_step pool e).clients c he
    · exact ⟨timeout, hs.symm.trans hc⟩
    · rw [hw] at hc
      cases hp : pool.clients c with
      | _ => simp only [hp, Client.wake, reduceCtorEq] at hc

theorem Helped.step (h : Helped pool) {e} (hw : WakesClient pool e) : Helped (step pool e) := by
  intro he c hc
  obtain hq | ⟨w, hb⟩ := queue_step he
  · have hasleep := asleep_of_step hc hq
    obtain ⟨hel, hh⟩ := h hq c hasleep
    cases hel with
    | inl w =>
      obtain ⟨d, hd⟩ | ⟨hb, -⟩ := busy_step hh hasleep hw
      · exact ⟨.inr d, hd⟩
      · exact ⟨.inl w, hb⟩
    | inr d =>
      obtain ⟨hne, -⟩ | hn | ⟨hd, -⟩ := helps_step hh e
      · exact absurd hq hne
      · rw [hn] at hc
        exact absurd hc (not_asleep_notifyAll pool d c)
      · exact ⟨.inr d, hd⟩
  · exact ⟨.inl w, hb⟩

/-! ## What a call of AwaitTermination does -/

/-- A client in the loop of AwaitTermination or past it. -/
def Client.Awaits (place : Client τ) : Prop :=
  (∃ timeout, place = .awaiting timeout) ∨ (∃ timeout, place = .asleep timeout) ∨ place.Helps ∨
    place.Joins

theorem Client.Helps.awaits (h : pl.Helps) : pl.Awaits := .inr (.inr (.inl h))

theorem awaiting_step {timeout} (hc : pool.clients c = .awaiting timeout)
    (ht : pool.isTerminating = true) (e : Event n κ τ) :
    ((step pool e).clients c).Helps ∨
      ((step pool e).clients c = .awaiting timeout ∧ e.actor ≠ some (.inr c)) := by
  obtain ⟨waiter, rfl⟩ | ⟨he, hs⟩ := clients_step (by rw [hc]; trivial) e
  · rw [step, clients_stepClient, hc, Client.next, if_pos ht]
    exact .inl trivial
  · exact .inr ⟨hs.trans hc, he⟩

theorem awaits_step (hc : (pool.clients c).Awaits) (ht : pool.isTerminating = true)
    (e : Event n κ τ) :
    (step pool e).clients c = .out (.awaitTermination true) ∨ ((step pool e).clients c).Awaits := by
  obtain ⟨timeout, ha⟩ | hasleep | hh | hj := hc
  · obtain hh | ⟨ha', -⟩ := awaiting_step ha ht e
    · exact .inr hh.awaits
    · exact .inr (.inl ⟨timeout, ha'⟩)
  · obtain hasleep' | hh := asleep_step hasleep e
    · exact .inr (.inr (.inl hasleep'))
    · exact .inr hh.awaits
  · obtain ⟨-, hasleep⟩ | hn | ⟨hh', -⟩ := helps_step hh e
    · exact .inr (.inr (.inl hasleep))
    · rw [hn, setClient_self]
      exact .inr (.inr (.inr (.inr trivial)))
    · exact .inr hh'.awaits
  · exact (joins_step hj e).imp_right fun h => .inr (.inr (.inr h.1))

/-! ## What fair runs lead to -/

variable {r : Run (step : PARCThreadPool n κ τ → Event n κ τ → PARCThreadPool n κ τ)}
  {c : κ} {m : Nat}

section
variable (hf : ∀ a, r.Fair Event.actor Enabled a)
include hf

theorem eventually_woken (he : ∀ k ≥ m, (r.state k).workQueue = [])
    (hc : Asleep (r.state m) (.inr c)) {d} (hd : ((r.state m).clients d).Helps) :
    ∃ k ≥ m, ((r.state k).clients c).Helps := by
  refine (hf (.inr d)).eventually (P := fun pool => Asleep pool (.inr c) ∧ (pool.clients d).Helps)
    (Q := fun pool => (pool.clients c).Helps)
    (fun pool => (pool.clients d).rank n) ⟨hc, hd⟩ (fun k _ h => h.2.enabled) ?_
  intro k hk ⟨hasleep, hh⟩
  rw [r.next]
  obtain hasleep' | hw := asleep_step hasleep (r.action k)
  · obtain ⟨hq, -⟩ | hn | hb := helps_step hh (r.action k)
    · exact absurd (he k hk) hq
    · rw [hn] at hasleep'
      exact absurd hasleep' (not_asleep_notifyAll _ d c)
    · exact .inr ⟨⟨hasleep', hb.1⟩, hb.2⟩
  · exact .inl hw

theorem eventually_helps (hw : ∀ k, WakesClient (r.state k) (r.action k))
    (he : ∀ k ≥ m, (r.state k).workQueue = []) (hh : Helped (r.state m))
    (hc : Asleep (r.state m) (.inr c)) : ∃ k ≥ m, ((r.state k).clients c).Helps := by
  obtain ⟨hel, hhe⟩ := hh (he m (Nat.le_refl m)) c hc
  cases hel with
  | inr d => exact eventually_woken hf he hc hhe
  | inl w =>
    have hn : ∃ k ≥ m, ((r.state k).clients c).Helps ∨
        (Asleep (r.state k) (.inr c) ∧ ∃ d, ((r.state k).clients d).Helps) := by
      refine (hf (.inl w)).eventually
        (P := fun pool => Asleep pool (.inr c) ∧ (pool.workers w).Busy)
        (Q := fun pool => (pool.clients c).Helps ∨
          (Asleep pool (.inr c) ∧ ∃ d, (pool.clients d).Helps))
        (fun pool => (pool.workers w).rank) ⟨hc, hhe⟩ (fun k _ ⟨_, hb⟩ hexited => ?_) ?_
      · rw [hexited] at hb
        cases hb
      · intro k _ ⟨hasleep, hb⟩
        rw [r.next]
        obtain hasleep' | hwo := asleep_step hasleep (r.action k)
        · obtain hhl | hbo := busy_step hb hasleep (hw k)
          · exact .inl (.inr ⟨hasleep', hhl⟩)
          · exact .inr ⟨⟨hasleep', hbo.1⟩, hbo.2⟩
        · exact .inl (.inl hwo)
    obtain ⟨k, hk, hhl | ⟨hasleep, d, hd⟩⟩ := hn
    · exact ⟨k, hk, hhl⟩
    · exact Run.later hk (eventually_woken hf (fun l hl => he l (hk.trans hl)) hasleep hd)

theorem eventually_joining (he : ∀ k ≥ m, (r.state k).workQueue = [])
    (hc : ((r.state m).clients c).Helps) : ∃ k ≥ m, (r.state k).clients c = .joining 0 := by
  refine (hf (.inr c)).eventually (P := fun pool => (pool.clients c).Helps)
    (Q := fun pool => pool.clients c = .joining 0) (fun pool => (pool.clients c).rank n) hc
    (fun k _ h => h.enabled) ?_
  intro k hk hh
  rw [r.next]
  obtain ⟨hq, -⟩ | hn | hb := helps_step hh (r.action k)
  · exact absurd (he k hk) hq
  · rw [hn]
    exact .inl (setClient_self ..)
  · exact .inr hb

theorem eventually_exited (hc : (r.state m).isCancelled w = true) :
    ∃ k ≥ m, ∀ l ≥ k, (r.state l).workers w = .exited := by
  have he : ∃ k ≥ m, (r.state k).workers w = .exited := by
    by_cases hl : (r.state m).workers w = .exited
    · exact ⟨m, Nat.le_refl m, hl⟩
    · refine (hf (.inl w)).eventually
        (P := fun pool => pool.isCancelled w = true ∧ pool.workers w ≠ .exited)
        (Q := fun pool => pool.workers w = .exited) (fun pool => (pool.workers w).rank)
        ⟨hc, hl⟩ (fun k _ h => h.2) ?_
      intro k _ ⟨hc, hl⟩
      rw [r.next]
      by_cases hl' : (step (r.state k) (r.action k)).workers w = .exited
      · exact .inl hl'
      · exact .inr ⟨⟨(keeps_step ..).isCancelled w hc, hl'⟩, rank_step_worker hc hl (r.action k)⟩
  obtain ⟨k, hk, hw⟩ := he
  exact ⟨k, hk, r.always (P := fun pool => pool.workers w = .exited) hw
    fun l _ h => exited_step h (r.action l)⟩

theorem eventually_all_exited (hc : ∀ w, (r.state m).isCancelled w = true) :
    ∃ k ≥ m, ∀ l ≥ k, ∀ w, (r.state l).workers w = .exited := by
  have he (w : Fin n) := eventually_exited hf (hc w)
  choose time _ ht using he
  refine ⟨max m (Finset.univ.sup time), le_max_left .., fun l hl w => ht w l ?_⟩
  exact (Finset.le_sup (Finset.mem_univ w)).trans ((le_max_right ..).trans hl)

theorem eventually_returned (hexited : ∀ k ≥ m, ∀ w, (r.state k).workers w = .exited)
    (hc : ((r.state m).clients c).Joins) :
    ∃ k ≥ m, (r.state k).clients c = .out (.awaitTermination true) := by
  refine (hf (.inr c)).eventually (P := fun pool => (pool.clients c).Joins)
    (Q := fun pool => pool.clients c = .out (.awaitTermination true))
    (fun pool => (pool.clients c).joinRank n) hc ?_ ?_
  · intro k hk hj
    rw [Enabled]
    cases hp : (r.state k).clients c with
    | waiting j => exact fun h => hexited k hk ⟨j, h⟩
    | joining j | terminating => trivial
    | _ =>
      rw [hp] at hj
      cases hj
  · intro k hk hj
    rw [r.next]
    obtain hr | ⟨hj', hle, hlt⟩ := joins_step hj (r.action k)
    · exact .inl hr
    · exact .inr ⟨hj', hle, hlt (hexited k hk)⟩

theorem joins_returns (hca : Cancelled (r.state m)) (hc : ((r.state m).clients c).Joins) :
    ∃ k ≥ m, (r.state k).clients c = .out (.awaitTermination true) := by
  have ha (w : Fin n) : (r.state m).isCancelled w = true := hca c w (hc.cancelled_eq.symm ▸ w.isLt)
  obtain ⟨l, hl, hexited⟩ := eventually_all_exited hf ha
  have hk := r.keeps_unless (P := fun pool => (pool.clients c).Joins)
    (Q := fun pool => pool.clients c = .out (.awaitTermination true)) hc (by
      intro k _ hj
      rw [r.next]
      exact (joins_step hj (r.action k)).imp_right And.left) l hl
  obtain hr | hj := hk
  · exact hr
  · exact Run.later hl (eventually_returned hf hexited hj)

theorem helps_returns (hca : ∀ k, Cancelled (r.state k))
    (he : ∀ k ≥ m, (r.state k).workQueue = []) (hc : ((r.state m).clients c).Helps) :
    ∃ k ≥ m, (r.state k).clients c = .out (.awaitTermination true) := by
  obtain ⟨k, hk, hj⟩ := eventually_joining hf he hc
  exact Run.later hk (joins_returns hf (hca k) (by rw [hj]; trivial))

theorem awaits_returns (hw : ∀ k, WakesClient (r.state k) (r.action k))
    (hca : ∀ k, Cancelled (r.state k)) (hh : Helped (r.state m))
    (ht : ∀ k ≥ m, (r.state k).isTerminating = true)
    (he : ∀ k ≥ m, (r.state k).workQueue = []) (hc : ((r.state m).clients c).Awaits) :
    ∃ k ≥ m, (r.state k).clients c = .out (.awaitTermination true) := by
  have hr (hhe : ∃ k ≥ m, ((r.state k).clients c).Helps) :
      ∃ k ≥ m, (r.state k).clients c = .out (.awaitTermination true) := by
    obtain ⟨k, hk, hhe⟩ := hhe
    exact Run.later hk (helps_returns hf hca (fun l hl => he l (hk.trans hl)) hhe)
  obtain ⟨timeout, ha⟩ | hasleep | hhe | hj := hc
  · refine hr ((hf (.inr c)).eventually (P := fun pool => pool.clients c = .awaiting timeout)
      (Q := fun pool => (pool.clients c).Helps) (fun _ => 0) ha ?_ ?_)
    · intro k _ hp
      rw [Enabled, hp]
      trivial
    · intro k hk hp
      rw [r.next]
      obtain hhe | ⟨hp', ho⟩ := awaiting_step hp (ht k hk) (r.action k)
      · exact .inl hhe
      · exact .inr ⟨hp', Nat.le_refl _, fun h => absurd h ho⟩
  · exact hr (eventually_helps hf hw he hh hasleep)
  · exact hr ⟨m, Nat.le_refl m, hhe⟩
  · exact joins_returns hf (hca m) hj

end

/-- **AwaitTermination returns, if the workers wake up a client where one sleeps.** In a
fair run from the creation of the pool, a call of AwaitTermination after Shutdown
returns true, whatever its timeout, if from some time on no task is in the queue and the
notification of a worker goes to a client whenever a client sleeps. With one worker
there is nobody else for it to go to. -/
theorem awaitTermination_returns (hstart : r.state 0 = parcThreadPoolCreate n)
    (hfair : ∀ a, r.Fair Event.actor Enabled a)
    (hdelivered : ∀ k, Delivered (r.state k) (r.action k))
    (hclient : n = 1 ∨ ∀ k, WakesClient (r.state k) (r.action k)) {timeout : PARCTimeout}
    (hterminating : (r.state m).isTerminating = true)
    (hc : (r.state m).clients c = .awaiting timeout)
    (hfinished : ∃ k, ∀ l ≥ k, (r.state l).workQueue = []) :
    ∃ k ≥ m, (r.state k).clients c = .out (.awaitTermination true) := by
  have hw (k : Nat) : WakesClient (r.state k) (r.action k) := by
    obtain ho | hw := hclient
    · subst ho
      exact (hdelivered k).wakesClient
    · exact hw k
  obtain ⟨k, he⟩ := hfinished
  have hca (l : Nat) : Cancelled (r.state l) :=
    r.always (hstart ▸ cancelled_create) (fun k _ h => h.step (r.action k)) l (Nat.zero_le l)
  have hh (l : Nat) : Helped (r.state l) :=
    r.always (hstart ▸ helped_create) (fun k _ h => h.step (hw k)) l (Nat.zero_le l)
  have ht' : ∀ l ≥ m, (r.state l).isTerminating = true :=
    r.always (P := fun pool => pool.isTerminating = true) hterminating
      fun l _ h => (keeps_step ..).isTerminating h
  -- up to the time from which on the queue is empty, the call goes on
  have hk := r.keeps_unless (P := fun pool => (pool.clients c).Awaits)
    (Q := fun pool => pool.clients c = .out (.awaitTermination true)) (.inl ⟨timeout, hc⟩) (by
      intro l hl ha
      rw [r.next]
      exact awaits_step ha (ht' l hl) (r.action l)) (max m k) (le_max_left ..)
  obtain hr | ha := hk
  · exact hr
  · exact Run.later (le_max_left ..) (awaits_returns hfair hw hca (hh _)
      (fun l hl => ht' l ((le_max_left ..).trans hl))
      (fun l hl => he l ((le_max_right ..).trans hl)) ha)

end

/-! ## A pool of one worker -/

/-- The worker is at its end, and the client is outside. -/
structure Over (pool : PARCThreadPool 1 Unit Unit) : Prop where
  worker : pool.workers 0 = .exited
  client : pool.clients () = .out (.awaitTermination true)
  queue : pool.workQueue = []

/-- After that, nothing moves. -/
def overRun : Run (step : PARCThreadPool 1 Unit Unit → _ → _) :=
  .ofActions step (run step (parcThreadPoolCreate 1) terminatingSchedule) fun _ =>
    .worker ⟨0, Nat.one_pos⟩ none

theorem over_overRun (m : Nat) : Over (overRun.state m) := by
  refine overRun.always (m := 0) ⟨rfl, rfl, rfl⟩ (fun k _ h => ?_) m (Nat.zero_le m)
  show Over (stepWorker (overRun.state k) 0 none)
  rw [stepWorker, h.worker]
  exact h

theorem delivered_terminatingSchedule :
    AllSteps step Delivered (parcThreadPoolCreate 1) terminatingSchedule := by
  refine ⟨nofun, nofun, fun _ sleeper h => ?_, nofun, nofun, nofun, nofun, fun _ sleeper h => ?_,
    nofun, nofun, nofun, nofun, nofun, nofun, nofun, nofun, nofun, nofun, nofun, nofun, nofun,
    nofun, nofun, trivial⟩
  all_goals
    match sleeper, h with
    | .inl 0, h => cases h
    | .inr (), ⟨_, h⟩ => cases h

theorem fair_overRun (a : Fin 1 ⊕ Unit) : overRun.Fair Event.actor Enabled a := by
  intro m
  refine ⟨m, Nat.le_refl m, .inr ?_⟩
  cases a with
  | inl w => exact not_not_intro (Subsingleton.elim w 0 ▸ (over_overRun m).worker)
  | inr c =>
    rw [Enabled, (over_overRun m).client]
    exact id

/-- The client's call of AwaitTermination returns in this run. -/
theorem awaitTermination_returns_one_worker :
    let r := (Run.append overRun (parcThreadPoolCreate 1) terminatingSchedule rfl).1
    (r.state 11).clients () = .awaiting .never ∧
      ∃ k ≥ 11, (r.state k).clients () = .out (.awaitTermination true) := by
  refine ⟨rfl, awaitTermination_returns rfl (fun a => Run.Fair.append (fair_overRun a) rfl)
    ?_ (.inl rfl) rfl rfl ⟨_, Run.append_from (P := fun pool => pool.workQueue = [])
      overRun rfl fun m => (over_overRun m).queue⟩⟩
  · refine Run.append_all overRun rfl delivered_terminatingSchedule fun m hn => ?_
    exact absurd ((over_overRun m).worker.symm.trans hn) nofun

/-! ## A pool of two workers -/

/-- A client has a task run by one of the workers, shuts the pool down and sleeps in
AwaitTermination. The other worker sleeps as well, and is the one to be woken up. -/
def strandingSchedule : List (Event 2 Unit Unit) :=
  [.call () (.execute ()), .client () none, .client () none,
    .call () .shutdown, .client () none,
    .call () (.awaitTermination .never), .client () none, .client () none,
    .worker 1 none, .worker 1 none, .worker 1 none,
    .worker 0 none, .worker 0 none, .worker 0 none,
    .worker 1 none, .worker 1 (some (.inl 0))]

/-- A worker that sleeps, or is about to look for a task. -/
def Worker.Idle : Worker τ → Prop
  | .running _ | .notifying | .exited => False
  | _ => True

/-- The client sleeps, and the workers only look for tasks. -/
structure Stranded (pool : PARCThreadPool 2 Unit Unit) : Prop where
  client : pool.clients () = .asleep .never
  queue : pool.workQueue = []
  idle : ∀ w, (pool.workers w).Idle
  isCancelled : ∀ w, pool.isCancelled w = false
  isTerminated : pool.isTerminated = false

theorem Stranded.setWorker {pool} (h : Stranded pool) (w : Fin 2)
    {pl} (hp : pl.Idle) : Stranded (setWorker pool w pl) where
  client := h.client
  queue := h.queue
  idle := (Function.forall_update_iff pool.workers fun _ pl => pl.Idle).mpr
    ⟨hp, fun v _ => h.idle v⟩
  isCancelled := h.isCancelled
  isTerminated := h.isTerminated

theorem Stranded.stepWorker {pool} (h : Stranded pool) (w : Fin 2) :
    Stranded (stepWorker pool w none) := by
  have hi := h.idle w
  unfold ThreadPool.stepWorker
  cases hw : pool.workers w with
  | testing =>
    rw [h.isCancelled w]
    exact h.setWorker w trivial
  | testingTerminated =>
    rw [h.isTerminated]
    exact h.setWorker w trivial
  | taking =>
    rw [h.queue]
    exact h.setWorker w trivial
  | asleep | woken => exact h.setWorker w trivial
  | _ =>
    rw [hw] at hi
    cases hi

/-- The workers take turns. -/
def strandedRun : Run (step : PARCThreadPool 2 Unit Unit → _ → _) :=
  .ofActions step (run step (parcThreadPoolCreate 2) strandingSchedule)
    fun m => .worker (Fin.ofNat 2 m) none

theorem stranded_strandedRun (m : Nat) : Stranded (strandedRun.state m) := by
  refine strandedRun.always (m := 0) ⟨rfl, rfl, ?_, fun _ => rfl, rfl⟩
    (fun k _ h => h.stepWorker _) m (Nat.zero_le m)
  intro w
  match w with
  | 0 => trivial
  | 1 => trivial

theorem fair_strandedRun (a : Fin 2 ⊕ Unit) : strandedRun.Fair Event.actor Enabled a := by
  intro m
  cases a with
  | inl w =>
    refine ⟨2 * m + w, by omega, .inl ?_⟩
    show some (Sum.inl (Fin.ofNat 2 (2 * m + w))) = some (.inl w)
    congr 2
    exact Fin.ext (by simp only [Fin.val_ofNat]; omega)
  | inr c =>
    refine ⟨m, Nat.le_refl m, .inr ?_⟩
    rw [Enabled, (stranded_strandedRun m).client]
    exact fun h => h rfl

theorem delivered_strandingSchedule :
    AllSteps step Delivered (parcThreadPoolCreate 2) strandingSchedule := by
  refine ⟨nofun, nofun, fun _ sleeper h => ?_, nofun, nofun, nofun, nofun, nofun, nofun, nofun,
    nofun, nofun, nofun, nofun, nofun, fun _ _ _ => ⟨.inl 0, rfl, rfl⟩, trivial⟩
  match sleeper, h with
  | .inl 0, h | .inl 1, h | .inr (), ⟨_, h⟩ => cases h

/-- With two workers there is a fair run in which all tasks have finished and the call
of AwaitTermination does not return. -/
theorem awaitTermination_stranded :
    ∃ r : Run (step : PARCThreadPool 2 Unit Unit → _ → _),
      r.state 0 = parcThreadPoolCreate 2 ∧ (∀ a, r.Fair Event.actor Enabled a) ∧
      (∀ k, Delivered (r.state k) (r.action k)) ∧
      (r.state 6).isTerminating = true ∧ (r.state 6).clients () = .awaiting .never ∧
      (∃ k, ∀ l ≥ k, (r.state l).workQueue = [] ∧ ∀ w task, (r.state l).workers w ≠ .running task) ∧
      ∀ k ≥ 6, ∀ returned, (r.state k).clients () ≠ .out returned := by
  refine ⟨(Run.append strandedRun (parcThreadPoolCreate 2) strandingSchedule rfl).1, rfl,
    fun a => (fair_strandedRun a).append rfl, ?_, rfl, rfl, ?_, ?_⟩
  · refine Run.append_all strandedRun rfl delivered_strandingSchedule fun m hn => ?_
    have hi := (stranded_strandedRun m).idle (Fin.ofNat 2 m)
    rw [show (strandedRun.state m).workers _ = .notifying from hn] at hi
    cases hi
  · refine ⟨_, Run.append_from (P := fun pool => pool.workQueue = [] ∧
      ∀ w task, pool.workers w ≠ .running task) strandedRun rfl fun m => ?_⟩
    refine ⟨(stranded_strandedRun m).queue, fun w task hr => ?_⟩
    have hi := (stranded_strandedRun m).idle w
    rw [hr] at hi
    cases hi
  · intro k hk
    obtain hlt | hge := Nat.lt_or_ge k strandingSchedule.length
    · have hlt' : k < 16 := hlt
      interval_cases k
      all_goals exact nofun
    · refine Run.append_from (P := fun pool => ∀ returned, pool.clients () ≠ .out returned)
        strandedRun rfl (fun m => ?_) k hge
      rw [(stranded_strandedRun m).client]
      exact nofun

/-! ## Clients that join the workers -/

/-- A run from the creation of a pool that is fair to every thread and joins no worker
twice. -/
structure FairRun (n : Nat) (κ τ : Type) [DecidableEq κ] extends
    Run (step : PARCThreadPool n κ τ → Event n κ τ → PARCThreadPool n κ τ) where
  start : state 0 = parcThreadPoolCreate n
  fair : ∀ a, toRun.Fair Event.actor Enabled a
  joinsOnce : ∀ k, JoinsOnce (state k) (action k)

/-- **A client that joins the workers returns**, whatever tasks are still in the queue. -/
theorem joining_leadsTo_return [DecidableEq κ] (r : FairRun n κ τ) (c : κ) :
    r.LeadsTo (fun pool => (pool.clients c).Joins)
      fun pool => pool.clients c = .out (.awaitTermination true) := by
  intro m hj
  exact joins_returns r.fair (r.always (r.start ▸ cancelled_create)
    (fun k _ h => h.step (r.action k)) m (Nat.zero_le m)) hj

/-- The run of the pool of one worker. -/
def terminatingRun : FairRun 1 Unit Unit where
  toRun := (Run.append overRun (parcThreadPoolCreate 1) terminatingSchedule rfl).1
  start := rfl
  fair a := (fair_overRun a).append rfl
  joinsOnce := Run.append_all overRun rfl joinsOnce_terminatingSchedule fun _ => trivial

/-- Its client is in `pthread_join` after 20 steps, and returns. -/
theorem joining_leadsTo_return_one : (terminatingRun.state 20).clients () = .waiting 0 ∧
    ∃ k ≥ 20, (terminatingRun.state k).clients () = .out (.awaitTermination true) :=
  ⟨rfl, joining_leadsTo_return terminatingRun () 20 trivial⟩

end Libparc.ThreadPool
