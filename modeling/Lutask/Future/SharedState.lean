import Mathlib.Logic.Function.Basic

/-!
# The state that a task shares with its future

Each definition is one critical section of `SharedState`'s `mtx_`. A setter that throws leaves the
object as it was, so its result is the exception alone.
-/

namespace Lutask

variable {R E : Type*}

/-- The exceptions of tasks and futures; `raised` is any exception of the users' code. -/
inductive TaskException (E : Type*) where
  | futureUninitialized
  | taskAlreadyRetrived
  | taskAlreadySatisfied
  | packagedTaskUninitialized
  | raised (e : E)
  deriving DecidableEq

/-- `storage_`: bytes, or a value of type `R`, or what is left of one after it was moved out. -/
inductive Storage (R : Type*) where
  | raw
  | value (v : R)
  | movedFrom
  deriving DecidableEq

/-- `lutask::SharedState<R>` without its reference count and its synchronization. -/
structure SharedState (R E : Type*) where
  ready : Bool
  storage : Storage R
  except : Option (TaskException E)

namespace SharedState

/-- A new shared state. -/
def initial : SharedState R E := ⟨false, .raw, none⟩

/-- `MarkReadyAndNotify` up to the release of the lock. -/
def markReady (s : SharedState R E) : SharedState R E := { s with ready := true }

/-- `SetException`. -/
def setException (s : SharedState R E) (except : TaskException E) :
    Except (TaskException E) (SharedState R E) :=
  if s.ready then .error .taskAlreadySatisfied
  else .ok { s with except := some except }.markReady

/-- `SetValue(R&&)`; `construction` is the exception of the move construction into `storage_`. -/
def setValue (s : SharedState R E) (value : R) (construction : Option E) :
    Except (TaskException E) (SharedState R E) :=
  if s.ready then .error .taskAlreadySatisfied
  else match construction with
    | some e => .error (.raised e)
    | none => .ok { s with storage := .value value }.markReady

/-- `Get` from a test of `ready_` on: `none` is the wait on `waiters_`, and the result of a return is
what the reference to `storage_` refers to. -/
def get (s : SharedState R E) : Option (Except (TaskException E) (Storage R)) :=
  if s.ready then
    some (match s.except with
      | some except => .error except
      | none => .ok s.storage)
  else none

/-- `TaskObject::Run` without interruption: `result` is how `fn_` ends, and `construction` the exception
of the move construction of its value. -/
def run (s : SharedState R E) (result : Except E R) (construction : Option E) :
    Except (TaskException E) (SharedState R E) :=
  match result with
  | .ok value =>
    match s.setValue value construction with
    | .ok s' => .ok s'
    | .error except => s.setException except
  | .error e => s.setException (.raised e)

/-- What is left when the value was moved out of `storage_`. -/
def moveOut (s : SharedState R E) : SharedState R E := { s with storage := .movedFrom }

/-- The state that is left when the outcome was fixed. -/
def fixed : Option (Except (TaskException E) R) → SharedState R E
  | none => initial
  | some (.ok v) => ⟨true, .value v, none⟩
  | some (.error except) => ⟨true, .raw, some except⟩

@[simp] theorem fixed_ready (outcome : Option (Except (TaskException E) R)) :
    (fixed outcome).ready = outcome.isSome := by
  cases outcome with
  | none => rfl
  | some outcome => cases outcome <;> rfl

/-- A fixed outcome is what `Get` yields. -/
theorem get_fixed (outcome : Except (TaskException E) R) :
    (fixed (some outcome)).get = some (outcome.map .value) := by
  cases outcome <;> rfl

/-- A `Get` that returns has found `ready_` true and no exception. -/
theorem get_ok {s : SharedState R E} {storage : Storage R} (h : s.get = some (.ok storage)) :
    s.ready ∧ s.except = none ∧ s.storage = storage := by
  cases hready : s.ready with
  | false => simp [get, hready] at h
  | true =>
    cases hexcept : s.except with
    | some x => simp [get, hready, hexcept] at h
    | none => simpa [get, hready, hexcept] using h

/-- A `Run` that returns has found `ready_` false and has stored the value of the function, or else an
exception. -/
theorem run_ok {s s' : SharedState R E} {result : Except E R} {construction : Option E}
    (h : s.run result construction = .ok s') : s.ready = false ∧
      ((∃ v, result = .ok v ∧ construction = none ∧
          s' = { s with storage := .value v, ready := true }) ∨
        ∃ x, s' = { s with except := some x, ready := true }) := by
  cases hready : s.ready with
  | true => cases result <;> simp [run, setValue, setException, hready] at h
  | false =>
    refine ⟨rfl, ?_⟩
    cases result with
    | error e =>
      simp only [run, setException, hready, Bool.false_eq_true, if_false, Except.ok.injEq] at h
      exact .inr ⟨.raised e, h.symm⟩
    | ok v =>
      cases construction with
      | none =>
        simp only [run, setValue, hready, Bool.false_eq_true, if_false, Except.ok.injEq] at h
        exact .inl ⟨v, rfl, rfl, h.symm⟩
      | some e =>
        simp only [run, setValue, setException, hready, Bool.false_eq_true, if_false,
          Except.ok.injEq] at h
        exact .inr ⟨.raised e, h.symm⟩

end SharedState

end Lutask
