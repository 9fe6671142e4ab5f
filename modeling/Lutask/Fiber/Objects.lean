import Lutask.Support.ReferenceCounting
import Lutask.Machine.Step

/-!
# Fiber objects and the workers that they refer to

A `Fiber` holds an `intrusive_ptr` to the worker that it has made. The machine of the contexts is
extended by these objects, by the use counts of the workers, and by what `ProcTerminated` has taken
from `terminatedQueue_`. The user's code of an active context operates on `Fiber` objects; all other
steps are those of the machine.
-/

namespace Lutask

variable {T : Type*}

/-- The scheduler whose `ProcTerminated` a frame may execute. -/
def Frame.reaps : Frame T → Option T
  | .iterate u | .exitTest u => some u
  | _ => none

namespace Fibers

open LabelledRuns ReferenceCounting

/-- The `intrusive_ptr` objects: `impl_` of a `Fiber`, and the result of `MakeWorkerContext`. -/
inductive Pointer where
  | impl (f : ℕ)
  | made
  deriving DecidableEq

/-- What `intrusive_ptr_release` does to a worker when it has taken the use count to zero: it destroys the
context and resumes its continuation, in which `FiberExit` deallocates the stack. An object is how often
that was done. -/
abbrev intrusivePtrRelease : ℕ → ℕ := (· + 1)

/-- The machine together with the `Fiber` objects. `joining` is the `Fiber` whose `Join` a context
executes, and `reaped` are the workers that `ProcTerminated` has taken. -/
structure State (T : Type*) where
  machine : Lutask.State T
  store : Store Pointer ℕ ℕ
  joining : Ctx T → Option ℕ
  reaped : ℕ → Bool

/-- No `Fiber` was constructed. -/
def State.initial (policy : T → Policy) : State T where
  machine := .initial policy
  store :=
    { live := ∅, px := fun _ => none, useCount := fun _ => 0, obj := fun _ => 0, dead := fun _ _ => rfl }
  joining _ := none
  reaped _ := false

/-- The errors that `Join` and `Detach` throw. -/
inductive FiberError where
  | resourceDeadlockWouldOccur
  | invalidArgument
  deriving DecidableEq

/-- The operations on `Fiber` objects, with what `Join` and `Detach` throw. `joined` is the rest of `Join`
after `impl_->Join()` has returned. -/
inductive FiberOp where
  | move (g f : ℕ)
  | moveAssign (g f : ℕ)
  | swap (g f : ℕ)
  | join (f : ℕ) (thrown : Option FiberError)
  | joined (f : ℕ)
  | detach (f : ℕ) (thrown : Option FiberError)
  | destroy (f : ℕ)

/-- A construction of a `Fiber`, another operation on one, or a step of the machine. -/
inductive Event (T : Type*) where
  | start (t : T) (ctx : Ctx T) (launch : ELaunch) (f : ℕ)
  | fiber (t : T) (ctx : Ctx T) (op : FiberOp)
  | step (e : Lutask.Event T)

/-- The constructor of `Fiber` up to `_Start`: the new worker begins with a use count of one. -/
def makeWorker (store : Store Pointer ℕ ℕ) (f n : ℕ) : Store Pointer ℕ ℕ :=
  let allocated := (store.construct (.impl f) none).allocate n 1 0
  let made := allocated.construct .made (some n)
  (made.moveAssign intrusivePtrRelease (.impl f) .made).destroy intrusivePtrRelease .made

/-- What `Fiber::Detach` throws. -/
def detachError (store : Store Pointer ℕ ℕ) (f : ℕ) : Option FiberError :=
  if store.px (.impl f) = none then some .invalidArgument else none

variable [DecidableEq T]

/-- What `Fiber::Join` called by `ctx` throws. -/
def joinError (store : Store Pointer ℕ ℕ) (ctx : Ctx T) (f : ℕ) : Option FiberError :=
  match store.px (.impl f) with
  | some n => if ctx = .worker n then some .resourceDeadlockWouldOccur else none
  | none => some .invalidArgument

/-- The workers that a step of the machine takes from a `terminatedQueue_`. -/
def reaps (s s' : Lutask.State T) : Lutask.Event T → ℕ → Bool
  | .exec _ _ f _, n =>
    match f.reaps with
    | some u => decide (.worker n ∈ (s.sched u).terminatedQueue ∧ .worker n ∉ (s'.sched u).terminatedQueue)
    | none => false
  | .call .., _ => false

/-- A step of the machine that is not made by an operation on a `Fiber`. The user's code of a context that
executes `Fiber::Join` does nothing. -/
def State.allows (s : State T) : Lutask.Event T → Bool
  | .call _ _ (.start _) | .call _ _ (.join _) => false
  | .call _ ctx _ => (s.joining ctx).isNone
  | .exec .. => true

/-- Thread `t` executes the user's code of `ctx`, or is back from `impl_->Join()`. -/
def State.inUserCode (s : State T) (t : T) (ctx : Ctx T) : Prop :=
  (s.machine.thread t).active = some ctx ∧ (s.machine.thread t).stack = [] ∧ ctx.runsUserCode

instance (s : State T) (t : T) (ctx : Ctx T) : Decidable (s.inUserCode t ctx) :=
  inferInstanceAs (Decidable (_ ∧ _))

/-- The operations on `Fiber` objects. `std::terminate` ends the run. -/
def fiberStep (s : State T) (t : T) (ctx : Ctx T) : FiberOp → Option (State T)
  | .move g f =>
    if .impl f ∈ s.store.live ∧ .impl g ∉ s.store.live ∧ s.joining ctx = none then
      some { s with store := (s.store.construct (.impl g) none).swap (.impl g) (.impl f) }
    else none
  | .moveAssign g f =>
    if .impl f ∈ s.store.live ∧ .impl g ∈ s.store.live ∧ s.joining ctx = none ∧
        s.store.px (.impl g) = none then
      some (if g = f then s else { s with store := s.store.swap (.impl g) (.impl f) })
    else none
  | .swap g f =>
    if .impl f ∈ s.store.live ∧ .impl g ∈ s.store.live ∧ s.joining ctx = none then
      some { s with store := s.store.swap (.impl g) (.impl f) }
    else none
  | .join f thrown =>
    if .impl f ∈ s.store.live ∧ s.joining ctx = none ∧ thrown = joinError s.store ctx f then
      match thrown, s.store.px (.impl f) with
      | none, some n =>
        (Lutask.step s.machine (.call t ctx (.join (.worker n)))).map fun machine =>
          { s with machine := machine, joining := Function.update s.joining ctx (some f) }
      | _, _ => some s
    else none
  | .joined f =>
    if .impl f ∈ s.store.live ∧ s.joining ctx = some f then
      some { s with
        store := s.store.assign intrusivePtrRelease (.impl f) none
        joining := Function.update s.joining ctx none }
    else none
  | .detach f thrown =>
    if .impl f ∈ s.store.live ∧ s.joining ctx = none ∧ thrown = detachError s.store f then
      match thrown with
      | none => some { s with store := s.store.assign intrusivePtrRelease (.impl f) none }
      | some _ => some s
    else none
  | .destroy f =>
    if .impl f ∈ s.store.live ∧ s.joining ctx = none ∧ s.store.px (.impl f) = none then
      some { s with store := s.store.destroy intrusivePtrRelease (.impl f) }
    else none

/-- One event. -/
def step (s : State T) : Event T → Option (State T)
  | .start t ctx launch f =>
    if .impl f ∉ s.store.live ∧ s.joining ctx = none then
      (Lutask.step s.machine (.call t ctx (.start launch))).map fun machine =>
        { s with machine := machine, store := makeWorker s.store f s.machine.fresh }
    else none
  | .fiber t ctx op => if s.inUserCode t ctx then fiberStep s t ctx op else none
  | .step e =>
    if s.allows e then
      (Lutask.step s.machine e).map fun machine =>
        { s with machine := machine, reaped := fun n => s.reaped n || reaps s.machine machine e n }
    else none

/-- The runs of a program with `Fiber` objects. -/
abbrev Runs (policy : T → Policy) (events : List (Event T)) (s : State T) : Prop :=
  Run step (fun _ _ => True) (State.initial policy) events s

/-- An operation on a `Fiber` is a call of `Context::Join`, or no step of the machine. -/
theorem fiberStep_machine {s s' : State T} {t : T} {ctx : Ctx T} {op : FiberOp}
    (h : fiberStep s t ctx op = some s') : s'.machine = s.machine ∨
      ∃ w, Lutask.step s.machine (.call t ctx (.join w)) = some s'.machine := by
  cases op with
  | join f thrown =>
    simp only [fiberStep, Option.ite_none_right_eq_some] at h
    obtain ⟨-, h⟩ := h
    split at h
    · obtain ⟨machine, hjoin, rfl⟩ := Option.map_eq_some_iff.mp h
      exact .inr ⟨_, hjoin⟩
    · obtain rfl := Option.some.inj h
      exact .inl rfl
  | detach f thrown =>
    simp only [fiberStep, Option.ite_none_right_eq_some] at h
    obtain ⟨-, h⟩ := h
    cases thrown <;> obtain rfl := Option.some.inj h <;> exact .inl rfl
  | moveAssign g f =>
    simp only [fiberStep, Option.ite_none_right_eq_some, Option.some.injEq] at h
    obtain ⟨-, rfl⟩ := h
    split <;> exact .inl rfl
  | move | swap | joined | destroy =>
    simp only [fiberStep, Option.ite_none_right_eq_some, Option.some.injEq] at h
    obtain ⟨-, rfl⟩ := h
    exact .inl rfl

/-- A program with `Fiber` objects runs on the machine. -/
theorem Runs.machine {policy : T → Policy} {events : List (Event T)} {s : State T}
    (h : Runs policy events s) : ∃ steps, Lutask.Runs policy (fun _ _ => True) steps s.machine := by
  refine Run.project State.machine (fun s e s' _ hstep => ?_) h
  cases e with
  | start t ctx launch f =>
    simp only [step, Option.ite_none_right_eq_some, Option.map_eq_some_iff] at hstep
    obtain ⟨-, machine, hmachine, rfl⟩ := hstep
    exact .inr ⟨_, trivial, hmachine⟩
  | fiber t ctx op =>
    simp only [step, Option.ite_none_right_eq_some] at hstep
    refine (fiberStep_machine hstep.2).imp_right fun hjoin => ?_
    obtain ⟨w, hjoin⟩ := hjoin
    exact ⟨_, trivial, hjoin⟩
  | step e =>
    simp only [step, Option.ite_none_right_eq_some, Option.map_eq_some_iff] at hstep
    obtain ⟨-, machine, hmachine, rfl⟩ := hstep
    exact .inr ⟨_, trivial, hmachine⟩

end Fibers

end Lutask
