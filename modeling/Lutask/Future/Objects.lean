import Lutask.Support.LabelledRuns
import Lutask.Support.ReferenceCounting
import Lutask.Future.SharedState

/-!
# Tasks, futures and the states that they share

The objects of a program are `PackagedTask`s and `FutureBase`s, each with an `intrusive_ptr` to a shared
state. An event is one operation on them, with what it found and how it ended: which state the pointer
referred to, and what was thrown. `Future::Get` is two events, as other operations may come between
its swap and the end of its wait.
-/

namespace Lutask

namespace Objects

open LabelledRuns ReferenceCounting

variable {R E : Type*}

/-- The `intrusive_ptr` objects: `task_` of a `PackagedTask`, `state_` of a future, `temp` of a `Get` that
is under way, and in `GetFuture` the result of `static_pointer_cast` and the parameter of the constructor
of `FutureBase`. -/
inductive Pointer where
  | task (p : ℕ)
  | state (f : ℕ)
  | temp (f : ℕ)
  | cast
  | parameter
  deriving DecidableEq

/-- A `TaskObject`, seen as the shared state it is, and how often its destructor was executed. -/
structure Shared (R E : Type*) where
  cell : SharedState R E
  destroyed : ℕ

/-- What `intrusive_ptr_release` does to a state when it has taken the use count to zero. The call of the
destructor is commented out. -/
abbrev intrusivePtrRelease : Shared R E → Shared R E := id

/-- All objects of a program. States are named by the order in which they were made. -/
structure State (R E : Type*) where
  store : Store Pointer ℕ (Shared R E)
  fresh : ℕ

/-- No object was made. -/
def State.initial : State R E where
  store :=
    { live := ∅, px := fun _ => none, useCount := fun _ => 0, obj := fun _ => ⟨.initial, 0⟩,
      dead := fun _ _ => rfl }
  fresh := 0

/-- One operation, its inputs, the state that it found and what it threw. -/
inductive Event (R E : Type*) where
  | makeTask (p id : ℕ)
  | moveTask (q p : ℕ)
  | destroyTask (p : ℕ)
  | run (p : ℕ) (state : Option ℕ) (result : Except E R) (construction : Option E)
      (thrown : Option (TaskException E))
  | getFuture (p f : ℕ) (state : Option ℕ) (thrown : Option (TaskException E))
  | makeFuture (f : ℕ)
  | copyFuture (g f : ℕ)
  | moveFuture (g f : ℕ)
  | copyAssign (g f : ℕ)
  | moveAssign (g f : ℕ)
  | destroyFuture (f : ℕ)
  | get (f : ℕ) (state : Option ℕ) (thrown : Option (TaskException E))
  | got (f id : ℕ) (construction : Option E) (result : Except (TaskException E) (Storage R))

namespace State

variable (s : State R E)

/-- The shared state of a name. -/
def cell (id : ℕ) : SharedState R E := (s.store.obj id).cell

/-- Change the pointers. -/
def setStore (store : Store Pointer ℕ (Shared R E)) : State R E := { s with store := store }

@[simp] theorem setStore_store (s : State R E) (store : Store Pointer ℕ (Shared R E)) :
    (s.setStore store).store = store := rfl

@[simp] theorem setStore_fresh (s : State R E) (store : Store Pointer ℕ (Shared R E)) :
    (s.setStore store).fresh = s.fresh := rfl

/-- Replace the content of a shared state. -/
def setCell (id : ℕ) (cell : SharedState R E) : State R E :=
  s.setStore (s.store.modify id fun o => { o with cell := cell })

@[simp] theorem setCell_px (s : State R E) (id : ℕ) (cell : SharedState R E) :
    (s.setCell id cell).store.px = s.store.px := rfl

@[simp] theorem setCell_live (s : State R E) (id : ℕ) (cell : SharedState R E) :
    (s.setCell id cell).store.live = s.store.live := rfl

/-- `PackagedTask(Fn&&)`. -/
def makeTask (p : ℕ) : State R E where
  store := (((s.store.construct (.task p) none).allocate s.fresh 0 ⟨.initial, 0⟩).assign
    intrusivePtrRelease (.task p) (some s.fresh))
  fresh := s.fresh + 1

/-- `PackagedTask(PackagedTask&&)`. -/
def moveTask (q p : ℕ) : State R E := s.setStore (s.store.moveConstruct (.task q) (.task p))

/-- `~PackagedTask`. -/
def destroyTask (p : ℕ) : State R E := s.setStore (s.store.destroy intrusivePtrRelease (.task p))

/-- `GetFuture` of a valid task. `static_pointer_cast` constructs a pointer, the parameter of the
constructor of `FutureBase` is copied from it and moved into `state_`, and both end with the full
expression. -/
def getFuture (p f : ℕ) : State R E :=
  let casted := s.store.construct .cast (s.store.px (.task p))
  let passed := casted.construct .parameter (casted.px .cast)
  let made := passed.moveConstruct (.state f) .parameter
  s.setStore ((made.destroy intrusivePtrRelease .parameter).destroy intrusivePtrRelease .cast)

/-- `FutureBase()`. -/
def makeFuture (f : ℕ) : State R E := s.setStore (s.store.construct (.state f) none)

/-- `FutureBase(FutureBase const&)`. -/
def copyFuture (g f : ℕ) : State R E :=
  s.setStore (s.store.construct (.state g) (s.store.px (.state f)))

/-- `FutureBase(FutureBase&&)`. -/
def moveFuture (g f : ℕ) : State R E :=
  s.setStore
    ((s.store.construct (.state g) (s.store.px (.state f))).assign intrusivePtrRelease (.state f) none)

/-- `FutureBase::operator=(FutureBase const&)`. -/
def copyAssign (g f : ℕ) : State R E :=
  if g = f then s else s.setStore (s.store.assign intrusivePtrRelease (.state g) (s.store.px (.state f)))

/-- `FutureBase::operator=(FutureBase&&)`. -/
def moveAssign (g f : ℕ) : State R E :=
  if g = f then s
  else s.setStore ((s.store.assign intrusivePtrRelease (.state g) (s.store.px (.state f))).assign
    intrusivePtrRelease (.state f) none)

/-- `~FutureBase`. -/
def destroyFuture (f : ℕ) : State R E := s.setStore (s.store.destroy intrusivePtrRelease (.state f))

/-- `Future::Get` of a valid future up to its call of `SharedState::Get`. -/
def get (f : ℕ) : State R E := s.setStore ((s.store.construct (.temp f) none).swap (.temp f) (.state f))

/-- The end of `Future::Get`, by a return or by an exception. -/
def dropTemp (f : ℕ) : State R E := s.setStore (s.store.destroy intrusivePtrRelease (.temp f))

end State

/-- How `Future::Get` ends after `SharedState::Get` has ended, if the move construction of the returned
object throws or not. -/
def getResult (construction : Option E) :
    Except (TaskException E) (Storage R) → Except (TaskException E) (Storage R)
  | .error except => .error except
  | .ok value =>
    match construction with
    | some e => .error (.raised e)
    | none => .ok value

/-- What `Future::Get` leaves in the shared state. -/
def getLeft (cell : SharedState R E) : Except (TaskException E) (Storage R) → SharedState R E
  | .error _ => cell
  | .ok _ => cell.moveOut

section Steps

variable [DecidableEq R] [DecidableEq E]

instance decidableEqExcept {A B : Type*} [DecidableEq A] [DecidableEq B] : DecidableEq (Except A B)
  | .error a, .error b => decidable_of_iff (a = b) (by simp)
  | .ok a, .ok b => decidable_of_iff (a = b) (by simp)
  | .error _, .ok _ => .isFalse (by simp)
  | .ok _, .error _ => .isFalse (by simp)

/-- One operation. It needs its operands to exist and the object that it makes not to exist. -/
def step (s : State R E) : Event R E → Option (State R E)
  | .makeTask p id => if .task p ∉ s.store.live ∧ id = s.fresh then some (s.makeTask p) else none
  | .moveTask q p =>
    if .task p ∈ s.store.live ∧ .task q ∉ s.store.live then some (s.moveTask q p) else none
  | .destroyTask p => if .task p ∈ s.store.live then some (s.destroyTask p) else none
  | .run p state result construction thrown =>
    if .task p ∈ s.store.live ∧ state = s.store.px (.task p) then
      match state with
      | none => if thrown = some .packagedTaskUninitialized then some s else none
      | some id =>
        match (s.cell id).run result construction with
        | .error except => if thrown = some except then some s else none
        | .ok cell => if thrown = none then some (s.setCell id cell) else none
    else none
  | .getFuture p f state thrown =>
    if .task p ∈ s.store.live ∧ .state f ∉ s.store.live ∧ state = s.store.px (.task p) then
      match state with
      | none => if thrown = some .packagedTaskUninitialized then some s else none
      | some _ => if thrown = none then some (s.getFuture p f) else none
    else none
  | .makeFuture f => if .state f ∉ s.store.live then some (s.makeFuture f) else none
  | .copyFuture g f =>
    if .state f ∈ s.store.live ∧ .state g ∉ s.store.live then some (s.copyFuture g f) else none
  | .moveFuture g f =>
    if .state f ∈ s.store.live ∧ .state g ∉ s.store.live then some (s.moveFuture g f) else none
  | .copyAssign g f =>
    if .state f ∈ s.store.live ∧ .state g ∈ s.store.live then some (s.copyAssign g f) else none
  | .moveAssign g f =>
    if .state f ∈ s.store.live ∧ .state g ∈ s.store.live then some (s.moveAssign g f) else none
  | .destroyFuture f => if .state f ∈ s.store.live then some (s.destroyFuture f) else none
  | .get f state thrown =>
    if .state f ∈ s.store.live ∧ .temp f ∉ s.store.live ∧ state = s.store.px (.state f) then
      match state with
      | none => if thrown = some .futureUninitialized then some s else none
      | some _ => if thrown = none then some (s.get f) else none
    else none
  | .got f id construction result =>
    if s.store.px (.temp f) = some id then
      match (s.cell id).get with
      | none => none
      | some found =>
        if result = getResult construction found then
          some ((s.setCell id (getLeft (s.cell id) found)).dropTemp f)
        else none
    else none

/-- The runs of one program over its objects. -/
abbrev Runs (guard : State R E → Event R E → Prop) (events : List (Event R E)) (s : State R E) : Prop :=
  Run step guard State.initial events s

/-- The branches of `step`. -/
inductive Step (s : State R E) : Event R E → State R E → Prop
  | makeTask {p : ℕ} (hp : .task p ∉ s.store.live) : Step s (.makeTask p s.fresh) (s.makeTask p)
  | moveTask {q p : ℕ} (hp : .task p ∈ s.store.live) (hq : .task q ∉ s.store.live) :
      Step s (.moveTask q p) (s.moveTask q p)
  | destroyTask {p : ℕ} (hp : .task p ∈ s.store.live) : Step s (.destroyTask p) (s.destroyTask p)
  | runs {p id : ℕ} {result : Except E R} {construction : Option E} {cell : SharedState R E}
      (hp : s.store.px (.task p) = some id) (hrun : (s.cell id).run result construction = .ok cell) :
      Step s (.run p (some id) result construction none) (s.setCell id cell)
  | runThrows {p id : ℕ} {result : Except E R} {construction : Option E} {except : TaskException E}
      (hp : s.store.px (.task p) = some id) (hrun : (s.cell id).run result construction = .error except) :
      Step s (.run p (some id) result construction (some except)) s
  | runNull {p : ℕ} {result : Except E R} {construction : Option E} (hlive : .task p ∈ s.store.live)
      (hp : s.store.px (.task p) = none) :
      Step s (.run p none result construction (some .packagedTaskUninitialized)) s
  | getFuture {p f id : ℕ} (hp : s.store.px (.task p) = some id) (hf : .state f ∉ s.store.live) :
      Step s (.getFuture p f (some id) none) (s.getFuture p f)
  | getFutureNull {p f : ℕ} (hlive : .task p ∈ s.store.live) (hp : s.store.px (.task p) = none)
      (hf : .state f ∉ s.store.live) :
      Step s (.getFuture p f none (some .packagedTaskUninitialized)) s
  | makeFuture {f : ℕ} (hf : .state f ∉ s.store.live) : Step s (.makeFuture f) (s.makeFuture f)
  | copyFuture {g f : ℕ} (hf : .state f ∈ s.store.live) (hg : .state g ∉ s.store.live) :
      Step s (.copyFuture g f) (s.copyFuture g f)
  | moveFuture {g f : ℕ} (hf : .state f ∈ s.store.live) (hg : .state g ∉ s.store.live) :
      Step s (.moveFuture g f) (s.moveFuture g f)
  | copyAssign {g f : ℕ} (hf : .state f ∈ s.store.live) (hg : .state g ∈ s.store.live) :
      Step s (.copyAssign g f) (s.copyAssign g f)
  | moveAssign {g f : ℕ} (hf : .state f ∈ s.store.live) (hg : .state g ∈ s.store.live) :
      Step s (.moveAssign g f) (s.moveAssign g f)
  | destroyFuture {f : ℕ} (hf : .state f ∈ s.store.live) :
      Step s (.destroyFuture f) (s.destroyFuture f)
  | get {f id : ℕ} (hf : s.store.px (.state f) = some id) (htemp : .temp f ∉ s.store.live) :
      Step s (.get f (some id) none) (s.get f)
  | getNull {f : ℕ} (hlive : .state f ∈ s.store.live) (hf : s.store.px (.state f) = none) :
      Step s (.get f none (some .futureUninitialized)) s
  | got {f id : ℕ} {construction : Option E} {found : Except (TaskException E) (Storage R)}
      (hf : s.store.px (.temp f) = some id) (hget : (s.cell id).get = some found) :
      Step s (.got f id construction (getResult construction found))
        ((s.setCell id (getLeft (s.cell id) found)).dropTemp f)

/-- Every step takes one of its branches. -/
theorem step_inv {s s' : State R E} {e : Event R E} (h : step s e = some s') : Step s e s' := by
  cases e with
  | makeTask p id =>
    simp only [step, Option.ite_none_right_eq_some, Option.some.injEq] at h
    obtain ⟨⟨hp, rfl⟩, rfl⟩ := h
    exact .makeTask hp
  | moveTask q p =>
    simp only [step, Option.ite_none_right_eq_some, Option.some.injEq] at h
    obtain ⟨⟨hp, hq⟩, rfl⟩ := h
    exact .moveTask hp hq
  | destroyTask p =>
    simp only [step, Option.ite_none_right_eq_some, Option.some.injEq] at h
    obtain ⟨hp, rfl⟩ := h
    exact .destroyTask hp
  | run p state result construction thrown =>
    simp only [step, Option.ite_none_right_eq_some] at h
    obtain ⟨⟨hlive, hstate⟩, h⟩ := h
    cases state with
    | none =>
      simp only [Option.ite_none_right_eq_some, Option.some.injEq] at h
      obtain ⟨rfl, rfl⟩ := h
      exact .runNull hlive hstate.symm
    | some id =>
      cases hrun : (s.cell id).run result construction with
      | error except =>
        simp only [hrun, Option.ite_none_right_eq_some, Option.some.injEq] at h
        obtain ⟨rfl, rfl⟩ := h
        exact .runThrows hstate.symm hrun
      | ok cell =>
        simp only [hrun, Option.ite_none_right_eq_some, Option.some.injEq] at h
        obtain ⟨rfl, rfl⟩ := h
        exact .runs hstate.symm hrun
  | getFuture p f state thrown =>
    simp only [step, Option.ite_none_right_eq_some] at h
    obtain ⟨⟨hlive, hf, hstate⟩, h⟩ := h
    cases state with
    | none =>
      simp only [Option.ite_none_right_eq_some, Option.some.injEq] at h
      obtain ⟨rfl, rfl⟩ := h
      exact .getFutureNull hlive hstate.symm hf
    | some id =>
      simp only [Option.ite_none_right_eq_some, Option.some.injEq] at h
      obtain ⟨rfl, rfl⟩ := h
      exact .getFuture hstate.symm hf
  | makeFuture f =>
    simp only [step, Option.ite_none_right_eq_some, Option.some.injEq] at h
    obtain ⟨hf, rfl⟩ := h
    exact .makeFuture hf
  | copyFuture g f =>
    simp only [step, Option.ite_none_right_eq_some, Option.some.injEq] at h
    obtain ⟨⟨hf, hg⟩, rfl⟩ := h
    exact .copyFuture hf hg
  | moveFuture g f =>
    simp only [step, Option.ite_none_right_eq_some, Option.some.injEq] at h
    obtain ⟨⟨hf, hg⟩, rfl⟩ := h
    exact .moveFuture hf hg
  | copyAssign g f =>
    simp only [step, Option.ite_none_right_eq_some, Option.some.injEq] at h
    obtain ⟨⟨hf, hg⟩, rfl⟩ := h
    exact .copyAssign hf hg
  | moveAssign g f =>
    simp only [step, Option.ite_none_right_eq_some, Option.some.injEq] at h
    obtain ⟨⟨hf, hg⟩, rfl⟩ := h
    exact .moveAssign hf hg
  | destroyFuture f =>
    simp only [step, Option.ite_none_right_eq_some, Option.some.injEq] at h
    obtain ⟨hf, rfl⟩ := h
    exact .destroyFuture hf
  | get f state thrown =>
    simp only [step, Option.ite_none_right_eq_some] at h
    obtain ⟨⟨hlive, htemp, hstate⟩, h⟩ := h
    cases state with
    | none =>
      simp only [Option.ite_none_right_eq_some, Option.some.injEq] at h
      obtain ⟨rfl, rfl⟩ := h
      exact .getNull hlive hstate.symm
    | some id =>
      simp only [Option.ite_none_right_eq_some, Option.some.injEq] at h
      obtain ⟨rfl, rfl⟩ := h
      exact .get hstate.symm htemp
  | got f id construction result =>
    simp only [step, Option.ite_none_right_eq_some] at h
    obtain ⟨hf, h⟩ := h
    cases hget : (s.cell id).get with
    | none => simp [hget] at h
    | some found =>
      simp only [hget, Option.ite_none_right_eq_some, Option.some.injEq] at h
      obtain ⟨rfl, rfl⟩ := h
      exact .got hf hget

end Steps

end Objects

end Lutask
