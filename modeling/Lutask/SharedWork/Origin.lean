import Lutask.Machine.Effects
import Lutask.Machine.Schedule

/-!
# `YieldOrigin` does not leave its thread

`Scheduler::YieldOrigin` of a fiber with an `originScheduler_` resets `scheduler_`, hands the fiber to
the origin's policy and returns. No switch follows: the fiber goes on with its own code on the
thread that it called `YieldOrigin` on, while it is ready for its origin. This holds for every call,
every policy of the origin and every interleaving with the other threads.
-/

namespace Lutask

open LabelledRuns

namespace SharedWork

variable {T : Type*}

/-- Thread `t` executes the own code of `x`. -/
def RunsCode (s : State T) (t : T) (x : Ctx T) : Prop :=
  (s.thread t).active = some x ∧ (s.thread t).stack = []

/-- `x` is in a queue from which the policy of thread `A` picks. -/
def QueuedFor (s : State T) (A : T) (x : Ctx T) : Prop :=
  x ∈ (s.sched A).queue ∨ x ∈ s.readyQueue ∧ (s.sched A).policy = .sharedWork

variable [DecidableEq T]

/-- What a call of `YieldOrigin` by `x` on thread `B` promises for the rest `after` of a run that
consists of `before`, the call and `after`, when `A` is the origin of `x`. -/
structure Migrates (policy : T → Policy) (before after : List (Event T)) (B : T) (x : Ctx T) (A : T) :
    Prop where
  /-- The fiber does not run on `B` while it is queued for `A` or runs there. -/
  apart : ∀ mid s, mid <+: after →
    Runs policy (fun _ _ => True) (before ++ .call B x .yieldOrigin :: mid) s →
      RunsCode s B x → ¬ QueuedFor s A x ∧ (A ≠ B → ¬ RunsCode s A x)
  /-- The code after the call runs only on `A`. -/
  arrives : ∀ mid s, mid <+: after →
    Runs policy (fun _ _ => True) (before ++ .call B x .yieldOrigin :: mid) s →
      ∀ t, RunsCode s t x → t = A
  /-- When the fiber runs again it belongs to the scheduler of `A`. -/
  attached : ∀ mid s, mid <+: after →
    Runs policy (fun _ _ => True) (before ++ .call B x .yieldOrigin :: mid) s →
      ∀ t, RunsCode s t x → (s.ctx x).scheduler = some A

/-- How many steps `B` is away from executing the code of `x` again, which is ready for `A` then. -/
def Returning (B A : T) (x : Ctx T) : ℕ → State T → Prop
  | 0, s => RunsCode s B x ∧ QueuedFor s A x
  | 1, s => (s.thread B).active = some x ∧ ((s.thread B).stack = [.scheduleOn A x] ∧
      (s.sched A).policy = .roundRobin ∨
        (s.thread B).stack = [.readyPush x] ∧ (s.sched A).policy = .sharedWork)
  | 2, s => (s.thread B).active = some x ∧ (s.thread B).stack = [.detach x] ∧
      (s.sched A).policy = .sharedWork
  | 3, s => (s.thread B).active = some x ∧ (s.thread B).stack = [.scheduleOn A x] ∧
      (s.sched A).policy = .sharedWork
  | _, _ => False

variable {s s' : State T} {A B : T} {n m : ℕ} {e : Event T}

/-- The steps of other threads do not stop `YieldOrigin` from returning. -/
theorem Returning.other {x : Ctx T} (h : Returning B A x (m + 1) s) (he : e.thread ≠ B)
    (hstep : step s e = some s') : Returning B A x (m + 1) s' := by
  have hthread : s'.thread B = s.thread B := step_thread_of_ne hstep (Ne.symm he)
  have hpolicy := step_policy hstep A
  rcases m with _ | _ | _ | m
  · simpa only [Returning, hthread, hpolicy] using h
  · simpa only [Returning, hthread, hpolicy] using h
  · simpa only [Returning, hthread, hpolicy] using h
  · exact h.elim

/-- Each step of its own thread brings `YieldOrigin` closer to its return, and none is a switch. -/
theorem Returning.own (h : Returning B A (.worker n) (m + 1) s) (he : e.thread = B)
    (hstep : step s e = some s') : Returning B A (.worker n) m s' := by
  have hpolicy := step_policy hstep A
  rcases m with _ | _ | _ | m
  · obtain ⟨hactive, ⟨hstack, hpol⟩ | ⟨hstack, hpol⟩⟩ := h
    · obtain ⟨x, now, rfl, -, ⟨r, hframe, rfl⟩ | ⟨z, k, stack, htarget, -⟩⟩ := step_top hstep he hstack
      · cases hframe with
        | pop hf | popEmpty hf => simp at hf
        | scheduleOn =>
          have hr : schedule s A (.worker n) = (queuePush s A (.worker n), []) := by
            simp [schedule, hpol, roundRobinAwakened]
          exact ⟨by simp [RunsCode, hr, queuePush, hactive], .inl (by simp [hr, queuePush])⟩
      · simp [Frame.target] at htarget
    · obtain ⟨x, now, rfl, -, ⟨r, hframe, rfl⟩ | ⟨z, k, stack, htarget, -⟩⟩ := step_top hstep he hstack
      · cases hframe with
        | pop hf | popEmpty hf => simp at hf
        | readyPush => exact ⟨by simp [RunsCode, hactive], .inr (by simp [hpol])⟩
      · simp [Frame.target] at htarget
  · obtain ⟨hactive, hstack, hpol⟩ := h
    obtain ⟨x, now, rfl, -, ⟨r, hframe, rfl⟩ | ⟨z, k, stack, htarget, -⟩⟩ := step_top hstep he hstack
    · refine ⟨?_, .inr ⟨?_, hpolicy.trans hpol⟩⟩
      all_goals
        cases hframe with
        | pop hf | popEmpty hf => simp at hf
        | detachAsync | detach => simp [detachWorkerContext, workerQueueRemove, hactive]
    · simp [Frame.target] at htarget
  · obtain ⟨hactive, hstack, hpol⟩ := h
    obtain ⟨x, now, rfl, -, ⟨r, hframe, rfl⟩ | ⟨z, k, stack, htarget, -⟩⟩ := step_top hstep he hstack
    · cases hframe with
      | pop hf | popEmpty hf => simp at hf
      | scheduleOn =>
        have hr : schedule s A (.worker n) = (s, [.detach (.worker n)]) := by
          simp [schedule, hpol, sharedWorkAwakened, Ctx.isPinned]
        simp [Returning, hr, hactive, hpol]
    · simp [Frame.target] at htarget
  · exact h.elim

/-- The call itself only resets `scheduler_` and calls `Schedule` of the origin. -/
theorem returning_of_yieldOrigin (horigin : (s.ctx (.worker n)).originScheduler = some A)
    (hstep : step s (.call B (.worker n) .yieldOrigin) = some s') :
    ∃ m ≤ 3, Returning B A (.worker n) m s' := by
  cases step_inv hstep with
  | call hactive hstack huser hop =>
    cases hop with
    | @yieldOrigin u origin hu ho =>
      obtain rfl : origin = A := Option.some.inj (ho.symm.trans horigin)
      have hpolicy := step_policy hstep origin
      cases hpol : (s.sched origin).policy with
      | roundRobin =>
        refine ⟨1, by omega, ?_, .inl ⟨?_, hpolicy.trans hpol⟩⟩
        · simp [workerQueueRemove, hactive]
        · simp
      | sharedWork =>
        refine ⟨3, le_rfl, ?_, ?_, hpolicy.trans hpol⟩
        · simp [workerQueueRemove, hactive]
        · simp
    | yieldOriginNone hu ho => simp [horigin] at ho

/-- A fiber that calls `YieldOrigin` executes its own code again on the same thread after at most
three steps of it, and is ready for its origin at the same time. -/
theorem returns_at_once {policy : T → Policy} {before after : List (Event T)} {s₁ : State T}
    (h : Runs policy (fun _ _ => True) (before ++ .call B (.worker n) .yieldOrigin :: after) s)
    (hbefore : Runs policy (fun _ _ => True) before s₁)
    (horigin : (s₁.ctx (.worker n)).originScheduler = some A)
    (hlong : 3 ≤ after.countP fun e => decide (e.thread = B)) :
    ∃ mid s₂, mid <+: after ∧
      Runs policy (fun _ _ => True) (before ++ .call B (.worker n) .yieldOrigin :: mid) s₂ ∧
        RunsCode s₂ B (.worker n) ∧ QueuedFor s₂ A (.worker n) := by
  obtain ⟨s₀, s₂, hrun, -, hcall, hafter⟩ := h.cut
  obtain rfl := hrun.unique hbefore
  obtain ⟨m, hm, hreturning⟩ := returning_of_yieldOrigin horigin hcall
  obtain ⟨mid, rest, s₃, rfl, hmid, hdone, -⟩ := Run.countdown
    (P := Returning B A (.worker n)) (Q := fun _ => True)
    (fun m s e s' hP he hstep => ⟨trivial, hP.own (of_decide_eq_true he) hstep⟩)
    (fun m s e s' hP he hstep => ⟨trivial, hP.other (of_decide_eq_false he) hstep⟩)
    hafter hreturning (hm.trans hlong)
  have hfirst : Runs policy (fun _ _ => True) (before ++ [.call B (.worker n) .yieldOrigin]) s₂ :=
    .snoc hrun trivial hcall
  exact ⟨mid, s₃, ⟨rest, rfl⟩, by simpa using hfirst.append hmid, hdone⟩

/-- No call of `YieldOrigin` by a fiber with an origin moves the fiber there. -/
theorem yieldOrigin_never_moves {policy : T → Policy} {before after : List (Event T)} {s₁ : State T}
    (h : Runs policy (fun _ _ => True) (before ++ .call B (.worker n) .yieldOrigin :: after) s)
    (hbefore : Runs policy (fun _ _ => True) before s₁)
    (horigin : (s₁.ctx (.worker n)).originScheduler = some A)
    (hlong : 3 ≤ after.countP fun e => decide (e.thread = B)) :
    ¬ Migrates policy before after B (.worker n) A := by
  intro hmigrates
  obtain ⟨mid, s₂, hmid, hrun, hruns, hqueued⟩ := returns_at_once h hbefore horigin hlong
  exact (hmigrates.apart mid s₂ hmid hrun hruns).1 hqueued

/-- A main thread with the default policy, and a second thread that shares its work. -/
def mainAndHelper : Bool → Policy
  | false => .roundRobin
  | true => .sharedWork

/-- The second thread picks up the fiber that the main thread has started. -/
def pickedUp : List (Event Bool) :=
  [.call false (.main false) (.start .async), .exec false (.main false) (.detach (.worker 0)) 0,
    .exec false (.main false) (.readyPush (.worker 0)) 0, .call true (.main true) .yield,
    .exec true (.main true) (.pickNext true (some (.resumeReady (.main true)))) 0,
    .exec true (.main true) (.attachResume (.worker 0) (.resumeReady (.main true))) 0,
    .exec true (.main true) (.resume (.worker 0) (.resumeReady (.main true))) 0,
    .exec true (.worker 0) (.save (.main true) (.resumeReady (.main true))) 0,
    .exec true (.worker 0) (.schedule (.main true)) 0]

/-- `YieldOrigin` returns after one step, and the fiber goes on. -/
def goesOn : List (Event Bool) :=
  [.exec true (.worker 0) (.scheduleOn false (.worker 0)) 0, .call true (.worker 0) (.lock 0),
    .call true (.worker 0) (.unlock 0)]

/-- The fiber that the main thread has started stays where it is. -/
theorem fiber_never_moves :
    (∃ s, Runs mainAndHelper (fun _ _ => True)
      (pickedUp ++ .call true (.worker 0) .yieldOrigin :: goesOn) s) ∧
        ¬ Migrates mainAndHelper pickedUp goesOn true (.worker 0) false := by
  have hbefore : (play step (fun _ _ => true) (State.initial mainAndHelper) pickedUp).any
      fun s => decide ((s.ctx (.worker 0)).originScheduler = some false) := by decide
  have hplay : (play step (fun _ _ => true) (State.initial mainAndHelper)
      (pickedUp ++ .call true (.worker 0) .yieldOrigin :: goesOn)).isSome := by decide
  obtain ⟨s₁, hs₁, horigin⟩ := (Option.any_eq_true _ _).mp hbefore
  obtain ⟨s, hs⟩ := Option.isSome_iff_exists.mp hplay
  have hrun : Runs mainAndHelper (fun _ _ => True) _ s := Run.of_play (fun _ _ _ => trivial) hs
  exact ⟨⟨s, hrun⟩, yieldOrigin_never_moves hrun (Run.of_play (fun _ _ _ => trivial) hs₁)
    (of_decide_eq_true horigin) (by decide)⟩

/-- A run in which the fiber executes its own code on the second thread, without a scheduler, while it
is ready for the main thread. -/
theorem runs_while_queued : ∃ before after s,
    Runs mainAndHelper (fun _ _ => True) (before ++ .call true (.worker 0) .yieldOrigin :: after) s ∧
      ¬ Migrates mainAndHelper before after true (.worker 0) false ∧
        (RunsCode s true (.worker 0) ∧ .worker 0 ∈ (s.sched false).queue ∧
          (s.ctx (.worker 0)).scheduler = none) := by
  obtain ⟨before, after, s, hrun, hruns, hqueued, hnone⟩ : ∃ before after s,
      Runs mainAndHelper (fun _ _ => True) (before ++ .call true (.worker 0) .yieldOrigin :: after) s ∧
        (((s.thread true).active = some (.worker 0) ∧ (s.thread true).stack = []) ∧
          .worker 0 ∈ (s.sched false).queue ∧ (s.ctx (.worker 0)).scheduler = none) :=
    reaches_of_call
      [.call false (.main false) (.start .async), .frames false 2 0, .call true (.main true) .yield,
        .frames true 5 0]
      true (.worker 0) .yieldOrigin [.frames true 1 0] (by decide)
  refine ⟨before, after, s, hrun, fun hmigrates => ?_, hruns, hqueued, hnone⟩
  have hattached := hmigrates.attached after s (List.prefix_refl after) hrun true hruns
  simp [hnone] at hattached

end SharedWork

end Lutask
