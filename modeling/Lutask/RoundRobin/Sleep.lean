import Lutask.Machine.Effects
import Lutask.Machine.Schedule

/-!
# Sleeping contexts are queued at once

`Scheduler::WaitUntil` leaves its context by `Resume(ctx)`, the switch of `Yield`, which makes the
context ready again. Whatever else happens in a run of threads under `RoundRobinPolicy`, a context
that calls `WaitUntil` is in a ready queue as soon as its thread has taken the four steps of the switch,
long before any pass of `ProcSleepToReady`.
-/

namespace Lutask

open LabelledRuns

namespace RoundRobin

variable {T : Type*} [DecidableEq T]

/-- A `ProcSleepToReady` of thread `t` whose clock reading is not before `tp`. -/
def Passes (t : T) (tp : TimePoint) : Event T → Prop
  | .exec v _ (.iterate _) now => v = t ∧ tp ≤ WithTop.some now
  | _ => False

/-- The dispatcher of thread `t` is past `ProcSleepToReady` and calls `PickNext`. -/
def Picks (t : T) : Event T → Prop
  | .exec v _ (.pickNext _ none) _ => v = t
  | _ => False

/-- A switch to `x`. -/
def Resumes (x : Ctx T) : Event T → Prop
  | .exec _ _ f _ => ∃ k, f.target = some (x, k)
  | _ => False

/-- `ProcSleepToReady` puts `x` into a ready queue. -/
def wakesSleeper (x : Ctx T) : Event T → Bool
  | .exec _ _ (.scheduleOn _ y) _ => decide (y = x)
  | _ => false

/-- The runs of any number of round-robin threads. -/
abbrev RoundRobinRuns (events : List (Event T)) (s : State T) : Prop :=
  Runs (fun _ => .roundRobin) (fun _ _ => True) events s

/-- What a call of `WaitUntil(tp)` by `x` on thread `t` promises for the rest `after` of a run that
consists of `before`, the call and `after`. -/
structure Sleeps (before after : List (Event T)) (t : T) (x : Ctx T) (tp : TimePoint) : Prop where
  /-- Until the deadline `x` sleeps: it is not ready and nobody resumes it. -/
  asleep : ∀ mid s, mid <+: after → (∀ e ∈ mid, ¬ Passes t tp e) →
    RoundRobinRuns (before ++ .call t x (.waitUntil tp) :: mid) s →
      (∃ u, x ∈ (s.sched u).sleepQueue) ∧ (∀ u, x ∉ (s.sched u).queue) ∧ ∀ e ∈ mid, ¬ Resumes x e
  /-- The first pass after the deadline makes `x` ready once. -/
  woken : ∀ mid pass rest first last, after = mid ++ first :: pass ++ last :: rest →
    (∀ e ∈ mid, ¬ Passes t tp e) → Passes t tp first → (∀ e ∈ pass, ¬ Picks t e) → Picks t last →
      pass.countP (wakesSleeper x) = 1
  /-- When `WaitUntil` has returned in `x` nothing is left in the timer queue. -/
  returned : ∀ mid s, mid <+: after →
    RoundRobinRuns (before ++ .call t x (.waitUntil tp) :: mid) s →
      (∃ v, (s.thread v).active = some x ∧ (s.thread v).stack = []) →
        ∀ u, x ∉ (s.sched u).sleepQueue

/-- How many steps `t` is away from queueing `x`, which called `WaitUntil` there. -/
def Falling (t : T) (x : Ctx T) : ℕ → State T → Prop
  | 0, s => ∃ u, x ∈ (s.sched u).queue
  | 1, s => ∃ rest, (s.thread t).stack = .schedule x :: rest
  | 2, s => ∃ prev rest, (s.thread t).stack = .save prev (.resumeReady x) :: rest
  | 3, s => ∃ y rest, (s.thread t).stack = .resume y (.resumeReady x) :: rest
  | 4, s => ∃ u rest, (s.thread t).stack = .pickNext u (some (.resumeReady x)) :: rest
  | _, _ => False

variable {s s' : State T} {t : T} {x : Ctx T} {e : Event T} {n : ℕ}

omit [DecidableEq T] in
/-- A step of another thread is no pass of this thread's dispatcher. -/
theorem not_passes_of_ne {tp : TimePoint} (he : e.thread ≠ t) : ¬ Passes t tp e := by
  cases e with
  | call => exact id
  | exec v y f now => cases f <;> first | exact id | exact fun h => he h.1

/-- The steps of other threads do not stop a context from being queued. -/
theorem Falling.other (h : Falling t x (n + 1) s) (he : e.thread ≠ t) (hstep : step s e = some s') :
    Falling t x (n + 1) s' := by
  have hthread : s'.thread t = s.thread t := step_thread_of_ne hstep (Ne.symm he)
  rcases n with _ | _ | _ | _ | n
  · simpa only [Falling, hthread] using h
  · simpa only [Falling, hthread] using h
  · simpa only [Falling, hthread] using h
  · simpa only [Falling, hthread] using h
  · exact h.elim

/-- Each step of its own thread brings the context one step closer to the ready queue, and none of
them is a pass of `ProcSleepToReady`. -/
theorem Falling.own (h : Falling t x (n + 1) s) (hpolicy : ∀ u, (s.sched u).policy = .roundRobin)
    (he : e.thread = t) (hstep : step s e = some s') (tp : TimePoint) :
    ¬ Passes t tp e ∧ Falling t x n s' := by
  rcases n with _ | _ | _ | _ | n
  · obtain ⟨rest, hstack⟩ := h
    obtain ⟨y, now, rfl, -, ⟨r, hframe, rfl⟩ | ⟨z, k, stack, htarget, -⟩⟩ := step_top hstep he hstack
    · refine ⟨id, ?_⟩
      cases hframe with
      | pop hf | popEmpty hf => simp at hf
      | @schedule u z hu =>
        refine ⟨u, ?_⟩
        simp [schedule, hpolicy, roundRobinAwakened, queuePush]
    · simp [Frame.target] at htarget
  · obtain ⟨prev, rest, hstack⟩ := h
    obtain ⟨y, now, rfl, -, ⟨r, hframe, rfl⟩ | ⟨z, k, stack, htarget, -⟩⟩ := step_top hstep he hstack
    · refine ⟨id, rest, ?_⟩
      cases hframe with
      | pop hf | popEmpty hf => simp at hf
      | save hfctx => simp [Switch.onTop]
    · simp [Frame.target] at htarget
  · obtain ⟨w, rest, hstack⟩ := h
    obtain ⟨y, now, rfl, -, ⟨r, hframe, rfl⟩ | ⟨z, k, stack, htarget, hc, rfl⟩⟩ :=
      step_top hstep he hstack
    · cases hframe with
      | pop hf | popEmpty hf => simp at hf
    · obtain ⟨rfl, rfl⟩ : w = z ∧ .resumeReady x = k := by simpa [Frame.target] using htarget
      exact ⟨id, y, stack, by simp [switched]⟩
  · obtain ⟨u, rest, hstack⟩ := h
    obtain ⟨y, now, rfl, -, ⟨r, hframe, rfl⟩ | ⟨z, k, stack, htarget, -⟩⟩ := step_top hstep he hstack
    · refine ⟨id, ?_⟩
      cases hframe with
      | @pop f v k z queue hf hqueue =>
        obtain ⟨⟨rfl, rfl⟩, -⟩ : (u = v ∧ some (.resumeReady x) = k) ∧ _ := by simpa using hf
        exact ⟨z, rest, by simp [switchOf]⟩
      | popEmpty hf => simp at hf
      | pickReady hshared | pickReadyEmpty hshared => simp [hpolicy] at hshared
    · simp [Frame.target] at htarget
  · exact h.elim

/-- The call itself only fills the timer queue and calls `PickNext`. -/
theorem falling_of_waitUntil {tp : TimePoint} (hstep : step s (.call t x (.waitUntil tp)) = some s') :
    Falling t x 4 s' := by
  cases step_inv hstep with
  | call hactive hstack huser hop =>
    cases hop with
    | @waitUntil u tp hu => exact ⟨u, [], by simp [waitUntil]⟩

/-- A context that calls `WaitUntil` is ready after the next four steps of its thread, with no pass
of `ProcSleepToReady` of this thread in between. -/
theorem queued_at_once {before after : List (Event T)} {tp : TimePoint}
    (h : RoundRobinRuns (before ++ .call t x (.waitUntil tp) :: after) s)
    (hlong : 4 ≤ after.countP fun e => decide (e.thread = t)) :
    ∃ mid s₁, mid <+: after ∧ RoundRobinRuns (before ++ .call t x (.waitUntil tp) :: mid) s₁ ∧
      (∀ e ∈ mid, ¬ Passes t tp e) ∧ ∃ u, x ∈ (s₁.sched u).queue := by
  obtain ⟨s₁, s₂, hbefore, -, hcall, hafter⟩ := h.cut
  have hfirst : RoundRobinRuns (before ++ [.call t x (.waitUntil tp)]) s₂ :=
    .snoc hbefore trivial hcall
  obtain ⟨mid, rest, s₃, rfl, hmid, ⟨-, hqueued⟩, hpasses⟩ := Run.countdown
    (P := fun n s => (∀ u, (s.sched u).policy = .roundRobin) ∧ Falling t x n s)
    (Q := fun e => ¬ Passes t tp e)
    (fun n s e s' hP he hstep => by
      obtain ⟨hnot, hnext⟩ := hP.2.own hP.1 (of_decide_eq_true he) hstep tp
      exact ⟨hnot, fun u => (step_policy hstep u).trans (hP.1 u), hnext⟩)
    (fun n s e s' hP he hstep => by
      have hne := of_decide_eq_false he
      exact ⟨not_passes_of_ne hne, fun u => (step_policy hstep u).trans (hP.1 u),
        hP.2.other hne hstep⟩)
    hafter ⟨Runs.policy hfirst, falling_of_waitUntil hcall⟩ hlong
  exact ⟨mid, s₃, ⟨rest, rfl⟩, by simpa using hfirst.append hmid, hpasses, hqueued⟩

/-- No call of `WaitUntil` keeps its promise once its thread has switched to the next context. -/
theorem waitUntil_never_sleeps {before after : List (Event T)} {tp : TimePoint}
    (h : RoundRobinRuns (before ++ .call t x (.waitUntil tp) :: after) s)
    (hlong : 4 ≤ after.countP fun e => decide (e.thread = t)) : ¬ Sleeps before after t x tp := by
  intro hsleeps
  obtain ⟨mid, s₁, hmid, hrun, hpasses, u, hqueued⟩ := queued_at_once h hlong
  obtain ⟨-, hunqueued, -⟩ := hsleeps.asleep mid s₁ hmid hpasses hrun
  exact hunqueued u hqueued

/-- The four steps by which main leaves a thread that has nothing else to run. -/
def mainLeaves : List (Event Unit) :=
  [.exec () (.main ()) (.pickNext () (some (.resumeReady (.main ())))) 0,
    .exec () (.main ()) (.resume (.dispatcher ()) (.resumeReady (.main ()))) 0,
    .exec () (.dispatcher ()) (.save (.main ()) (.resumeReady (.main ()))) 0,
    .exec () (.dispatcher ()) (.schedule (.main ())) 0]

/-- Main, which calls `WaitUntil(10)` first of all, is ready after these steps. -/
theorem main_never_sleeps :
    (∃ s, RoundRobinRuns ([] ++ .call () (.main ()) (.waitUntil (WithTop.some 10)) :: mainLeaves) s) ∧
      ¬ Sleeps [] mainLeaves () (.main ()) (WithTop.some 10) := by
  have hplay : (play step (fun _ _ => true) (State.initial fun _ => .roundRobin)
      ([] ++ .call () (.main ()) (.waitUntil (WithTop.some 10)) :: mainLeaves)).isSome := by decide
  obtain ⟨s, hs⟩ := Option.isSome_iff_exists.mp hplay
  have hrun : RoundRobinRuns _ s := Run.of_play (fun _ _ _ => trivial) hs
  exact ⟨⟨s, hrun⟩, waitUntil_never_sleeps hrun (by decide)⟩

/-- A run in which main sleeps until time 10 and runs its own code again at time 0, when it is still
in the timer queue. -/
theorem slept_too_short :
    ∃ before after s,
      RoundRobinRuns (before ++ .call () (.main ()) (.waitUntil (WithTop.some 10)) :: after) s ∧
      ¬ Sleeps before after () (.main ()) (WithTop.some 10) ∧
      ((s.thread ()).active = some (.main ()) ∧ (s.thread ()).stack = [] ∧
        .main () ∈ (s.sched ()).sleepQueue) := by
  obtain ⟨before, after, s, hrun, hactive, hstack, hasleep⟩ : ∃ before after s,
      RoundRobinRuns (before ++ .call () (.main ()) (.waitUntil (WithTop.some 10)) :: after) s ∧
        ((s.thread ()).active = some (.main ()) ∧ (s.thread ()).stack = [] ∧
          .main () ∈ (s.sched ()).sleepQueue) :=
    reaches_of_call [] () (.main ()) (.waitUntil (WithTop.some 10)) [.frames () 11 0] (by decide)
  refine ⟨before, after, s, hrun, fun hsleeps => ?_, hactive, hstack, hasleep⟩
  have hgone := hsleeps.returned after s (List.prefix_refl after) hrun ⟨(), hactive, hstack⟩ ()
  exact hgone hasleep

end RoundRobin

end Lutask
