import Lutask.Async.Custody

/-!
# The outcome of an asynchronous call

`Async` delivers the outcome of its function. On any number of `SharedWorkPolicy` threads and in any
order of their steps, the fiber that a call has made applies the function once at most, a `Get` on
the future yields how this application has ended, and the fiber never fails by an exception.
-/

namespace Lutask

namespace Async

open LabelledRuns

variable {T F A R E : Type*} [DecidableEq T]

/-- What `Get` may yield after these steps of the shared state: the value that the one application of the
function has returned, or the exception that it has thrown. Exceptions of the move constructor of the value,
when it is moved into `storage_` or out of it, are passed on as well. -/
inductive Yields (l : List (OneShot.Event (Party T) R E)) (construction : Option E) :
    Except (TaskException E) (Storage R) → Prop
  | value {v : R} (hresult : OneShot.results .task l = [.ok v]) : Yields l construction (.ok (.value v))
  | raised {e : E} (hresult : OneShot.results .task l = [.error e]) :
    Yields l construction (.error (.raised e))
  | moveIn {v : R} {e : E} (hresult : OneShot.results .task l = [.ok v])
      (hmove : .setValue .task v (some e) false ∈ l) : Yields l construction (.error (.raised e))
  | moveOut {v : R} {e : E} (hresult : OneShot.results .task l = [.ok v]) (hmove : construction = some e) :
      Yields l construction (.error (.raised e))

/-- What is true in a run of the call of `Async` with `fn` and `args` that has made worker `w` and
task `id`. -/
structure Delivers (w id : ℕ) (fn : F) (args : A) (events : List (Event T F A R E)) : Prop where
  /-- The fiber calls its task once at most, with the function and the arguments. -/
  once : invocations w events <+: [(fn, args)]
  /-- The task applies the function once at most. -/
  applied : (OneShot.results .task (steps id events)).length ≤ 1
  /-- No other fiber calls the task, or takes a step of it. -/
  alone : ∀ t w' fn' args', .run t w' id fn' args' ∈ events → w' = w
  own : ∀ t x e, .shared t x id e ∈ events → e.party = .task → x = .worker w
  /-- `Get` ends only after the application, and yields how it has ended. -/
  yields : ∀ before t y construction result after,
    events = before ++ .got t y id construction result :: after →
      Yields (steps id before) construction result
  /-- No exception leaves `Run_`. -/
  caught : ∀ t x, .uncaught t w x ∉ events

variable [DecidableEq R] [DecidableEq E] {events : List (Event T F A R E)} {s s' : State T F A R E}
  {w id : ℕ} {fn : F} {args : A}

/-- What a shared state hands to `Get` is how the function has ended. -/
theorem Custody.yields {t : T} {y : Ctx T} {construction : Option E}
    {result : Except (TaskException E) (Storage R)} (h : Custody w id fn args events s)
    (hstep : Step s (.got t y id construction result) s') :
    Yields (steps id events) construction result := by
  cases hstep with
  | @got t y id construction found hat hx hpc =>
    obtain ⟨outcome, hfirst, rfl⟩ := h.sole.consistent.got _ _ hpc
    cases h.sole.outcome hfirst with
    | value hinvoke =>
      have hresult := h.sole.results_of_mem hinvoke
      cases construction with
      | none => exact .value hresult
      | some e => exact .moveOut hresult rfl
    | raised hinvoke => exact .raised (h.sole.results_of_mem hinvoke)
    | failed hinvoke hmove => exact .moveIn (h.sole.results_of_mem hinvoke) hmove

/-- `Async` delivers exactly the outcome of the task. -/
theorem async_delivers [DecidableEq F] [DecidableEq A] {t : T} {x : Ctx T} (h : Runs events s)
    (hasync : .async t x w id fn args ∈ events) : Delivers w id fn args events where
  once := by
    rcases ((Runs.custody h).2 t x w id fn args hasync).phase with ⟨-, -, hnone, -⟩ | ⟨-, -, hone⟩
    · simp [hnone]
    · simp [hone]
  applied := ((Runs.custody h).2 t x w id fn args hasync).sole.results_le_one
  alone := ((Runs.custody h).2 t x w id fn args hasync).runs
  own := ((Runs.custody h).2 t x w id fn args hasync).tasks
  yields before t' y construction result after hevents := by
    subst hevents
    have hbefore := Runs.async_before h rfl (by simp) hasync
    obtain ⟨s₁, s₂, hfirst, -, hfire, -⟩ := h.cut
    exact ((Runs.custody hfirst).2 t x w id fn args hbefore).yields (step_inv hfire)
  caught := ((Runs.custody h).2 t x w id fn args hasync).caught

/-- The main context of thread `false` makes task 0, worker 0 executes it on thread `true`, and the `Get` of
its caller waits until it has returned. -/
def seven : List (Event Bool ℕ ℕ ℕ ℕ) :=
  [.async false (.main false) 0 0 5 6, .machine (.exec false (.main false) (.detach (.worker 0)) 0),
    .machine (.exec false (.main false) (.readyPush (.worker 0)) 0), .get false (.main false) 0 none,
    .shared false (.main false) 0 (.get (.caller (.main false))), .machine (.call true (.main true) .yield),
    .machine (.exec true (.main true) (.pickNext true (some (.resumeReady (.main true)))) 0),
    .machine (.exec true (.main true) (.attachResume (.worker 0) (.resumeReady (.main true))) 0),
    .machine (.exec true (.main true) (.resume (.worker 0) (.resumeReady (.main true))) 0),
    .machine (.exec true (.worker 0) (.save (.main true) (.resumeReady (.main true))) 0),
    .machine (.exec true (.worker 0) (.schedule (.main true)) 0), .run true 0 0 5 6,
    .shared true (.worker 0) 0 (.invoke .task (.ok 7)),
    .shared true (.worker 0) 0 (.setValue .task 7 none false),
    .shared true (.worker 0) 0 (.notifyAll .task),
    .shared false (.main false) 0 (.get (.caller (.main false))),
    .got false (.main false) 0 none (.ok (.value 7)), .machine (.call true (.worker 0) .terminate)]

/-- The call delivers its outcome, and its function was applied. -/
theorem seven_delivered : ∃ s, Runs seven s ∧ Delivers 0 0 5 6 seven ∧ invocations 0 seven = [(5, 6)] := by
  have hplay : (play step (fun _ _ => true) State.initial seven).isSome := by decide
  obtain ⟨s, hs⟩ := Option.isSome_iff_exists.mp hplay
  have hrun : Runs seven s := Run.of_play (fun _ _ _ => trivial) hs
  have hasync : .async false (.main false) 0 0 5 6 ∈ seven := by simp [seven]
  exact ⟨s, hrun, async_delivers hrun hasync, by decide⟩

end Async

end Lutask
