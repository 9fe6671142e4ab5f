import Lutask.Future.Objects
import Lutask.Future.OneShot
import Lutask.Machine.Inversion

/-!
# Async

`Async` makes a task, a worker context that owns it, and the future through which its caller reads the
outcome. The machine of contexts and schedulers is extended by these objects. A thread whose active context
is inside `Run_`, `TaskObject::Run` or `SharedState::Get` executes nothing else, while the other threads go
on in any order, so a wait on `waiters_` stops the whole thread.
-/

namespace Lutask

namespace Async

open LabelledRuns

variable {T F A R E : Type*}

/-- Who uses a shared state: the execution of `TaskObject::Run`, or a context in `Get`. -/
inductive Party (T : Type*) where
  | task
  | caller (x : Ctx T)
  deriving DecidableEq

/-- The members of `WorkerContext<PackagedTask, Args ...>`: the pointer in `fn_`, and `args_` as long as
they were not moved out. -/
structure WorkerContext (A : Type*) where
  task : Option ℕ
  args : Option A
  deriving DecidableEq

/-- The machine and the objects of `Async`. Tasks are named by the order in which they were made: `fn` is
`fn_` of a task, `shared` its shared state with those who use it, and `future` tells whether its future is
valid. `worker` are the worker contexts that `Async` has made, `running` is the pointer in the variable `fn`
of their `Run_`, and `getting` the pointer `temp` of a `Get` that is under way. -/
structure State (T F A R E : Type*) where
  machine : Lutask.State T
  made : ℕ
  fn : ℕ → Option F
  worker : ℕ → Option (WorkerContext A)
  running : ℕ → Option ℕ
  shared : ℕ → OneShot.State (Party T) R E
  future : ℕ → Bool
  getting : Ctx T → Option ℕ

/-- What happens on thread `t` while `x`, or worker `w`, is its active context. -/
inductive Event (T F A R E : Type*) where
  | machine (e : Lutask.Event T)
  /-- `Async` makes task `id` and worker `w`, up to the first action of `Fiber::_Start`. -/
  | async (t : T) (x : Ctx T) (w id : ℕ) (fn : F) (args : A)
  /-- `Run_` moves its members out and calls the task, which applies `fn_`. -/
  | run (t : T) (w id : ℕ) (fn : F) (args : A)
  /-- A step inside `TaskObject::Run` or `SharedState::Get` of task `id`. -/
  | shared (t : T) (x : Ctx T) (id : ℕ) (e : OneShot.Event (Party T) R E)
  /-- `Future::Get` up to its call of `SharedState::Get`. -/
  | get (t : T) (x : Ctx T) (id : ℕ) (thrown : Option (TaskException E))
  /-- The end of `Future::Get`. -/
  | got (t : T) (x : Ctx T) (id : ℕ) (construction : Option E)
      (result : Except (TaskException E) (Storage R))
  /-- An exception leaves `Run_`. -/
  | uncaught (t : T) (w : ℕ) (except : TaskException E)

namespace State

variable (s : State T F A R E)

/-- Nothing was made. All threads run `SharedWorkPolicy`. -/
def initial : State T F A R E where
  machine := .initial fun _ => .sharedWork
  made := 0
  fn _ := none
  worker _ := none
  running _ := none
  shared _ := .initial
  future _ := false
  getting _ := none

/-- Thread `t` executes code of `x` outside of the machine's library functions. -/
def AtHand (t : T) (x : Ctx T) : Prop :=
  (s.machine.thread t).active = some x ∧ (s.machine.thread t).stack = [] ∧ x.runsUserCode

instance [DecidableEq T] (t : T) (x : Ctx T) : Decidable (s.AtHand t x) :=
  inferInstanceAs (Decidable (_ ∧ _ ∧ _))

/-- Where `Run_` of a worker that `Async` has made is. -/
def task : Ctx T → Option (OneShot.Pc R E)
  | .worker w =>
    (s.worker w).map fun _ =>
      match s.running w with
      | none => .idle
      | some id => (s.shared id).pc .task
  | _ => none

/-- The code that `x` executes is the users' own: that of a function which `Async` was called with only
while `Run` applies it. -/
def mayCall (x : Ctx T) : Bool :=
  (s.getting x).isNone &&
    match s.task x with
    | none | some .run => true
    | _ => false

/-- The code of `x` may return: `Run_` does after the task has. -/
def mayReturn (x : Ctx T) : Bool :=
  (s.getting x).isNone &&
    match s.task x with
    | none | some (.returned (.ok ())) => true
    | _ => false

/-- What an event of the machine asks of the code that `x` executes. -/
def allows : Lutask.Event T → Bool
  | .call _ x .terminate => s.mayReturn x
  | .call _ x _ => s.mayCall x
  | .exec .. => true

/-- `x` takes the steps of `Run` if its `Run_` has called the task, and those of `SharedState::Get` if it is
inside of `Get`. -/
def inside [DecidableEq T] (x : Ctx T) (id : ℕ) : OneShot.Event (Party T) R E → Bool
  | .invoke .task _ | .setValue .task .. | .setException .task .. | .notifyAll .task =>
    match x with
    | .worker w => decide (s.running w = some id) && (s.getting x).isNone
    | _ => false
  | .get (.caller y) | .wake (.caller y) => decide (y = x ∧ s.getting x = some id)
  | _ => false

/-- The exception that leaves `Run_` next. -/
def escaping (w : ℕ) : Option (TaskException E) :=
  match s.worker w, s.running w with
  | some ⟨none, some _⟩, _ => some .packagedTaskUninitialized
  | some _, some id =>
    match (s.shared id).pc .task with
    | .returned (.error except) => some except
    | _ => none
  | _, _ => none

/-- The machine goes on. -/
@[simps] def setMachine (m : Lutask.State T) : State T F A R E := { s with machine := m }

/-- A task and its future, and the worker context that owns the task. -/
@[simps] def make (m : Lutask.State T) (fn : F) (args : A) : State T F A R E :=
  { s with
    machine := m
    made := s.made + 1
    fn := Function.update s.fn s.made (some fn)
    worker := Function.update s.worker s.machine.fresh (some ⟨some s.made, some args⟩)
    future := Function.update s.future s.made true }

/-- `Run_` moves `fn_` and `args_` out. -/
@[simps] def enter (w id : ℕ) : State T F A R E :=
  { s with
    worker := Function.update s.worker w (some ⟨none, none⟩)
    running := Function.update s.running w (some id) }

/-- The shared state of one task changes. -/
@[simps] def setShared (id : ℕ) (o : OneShot.State (Party T) R E) : State T F A R E :=
  { s with shared := Function.update s.shared id o }

/-- `Get` swaps the pointer of the future into `temp`. -/
@[simps] def take [DecidableEq T] (x : Ctx T) (id : ℕ) : State T F A R E :=
  { s with
    future := Function.update s.future id false
    getting := Function.update s.getting x (some id) }

/-- `temp` is destroyed. -/
@[simps] def leave [DecidableEq T] (x : Ctx T) : State T F A R E :=
  { s with getting := Function.update s.getting x none }

end State

section Steps

variable [DecidableEq T] [DecidableEq F] [DecidableEq A] [DecidableEq R] [DecidableEq E]

/-- One event. What is left of a value that `Get` has moved out of `storage_` is not recorded, as the only
future is not valid any more. -/
def step (s : State T F A R E) : Event T F A R E → Option (State T F A R E)
  | .machine e => if s.allows e then (Lutask.step s.machine e).map s.setMachine else none
  | .async t x w id fn args =>
    if s.mayCall x ∧ w = s.machine.fresh ∧ id = s.made then
      (Lutask.step s.machine (.call t x (.start .async))).map (s.make · fn args)
    else none
  | .run t w id fn args =>
    if s.AtHand t (.worker w) ∧ s.worker w = some ⟨some id, some args⟩ ∧ s.fn id = some fn then
      (OneShot.step (s.shared id) (.call .task .run)).map ((s.enter w id).setShared id)
    else none
  | .shared t x id e =>
    if s.AtHand t x ∧ s.inside x id e then (OneShot.step (s.shared id) e).map (s.setShared id) else none
  | .get t x id thrown =>
    if s.AtHand t x ∧ s.mayCall x then
      if s.future id then
        if thrown = none then
          (OneShot.step (s.shared id) (.call (.caller x) .get)).map ((s.take x id).setShared id)
        else none
      else if thrown = some .futureUninitialized then some s else none
    else none
  | .got t x id construction result =>
    if s.AtHand t x ∧ s.getting x = some id then
      match (s.shared id).pc (.caller x) with
      | .got found => if result = Objects.getResult construction found then some (s.leave x) else none
      | _ => none
    else none
  | .uncaught t w except =>
    if s.AtHand t (.worker w) ∧ s.escaping w = some except then some s else none

/-- The runs of any number of `SharedWorkPolicy` threads that call `Async` and `Get`. -/
abbrev Runs (events : List (Event T F A R E)) (s : State T F A R E) : Prop :=
  Run step (fun _ _ => True) State.initial events s

/-- The branches of `step`. -/
inductive Step (s : State T F A R E) : Event T F A R E → State T F A R E → Prop
  | machine {e : Lutask.Event T} {m : Lutask.State T} (hallows : s.allows e)
      (hm : Lutask.step s.machine e = some m) : Step s (.machine e) (s.setMachine m)
  | async {t : T} {x : Ctx T} {fn : F} {args : A} {m : Lutask.State T} (hx : s.mayCall x)
      (hm : Lutask.step s.machine (.call t x (.start .async)) = some m) :
      Step s (.async t x s.machine.fresh s.made fn args) (s.make m fn args)
  | run {t : T} {w id : ℕ} {fn : F} {args : A} {o : OneShot.State (Party T) R E}
      (hat : s.AtHand t (.worker w)) (hw : s.worker w = some ⟨some id, some args⟩)
      (hfn : s.fn id = some fn) (ho : OneShot.step (s.shared id) (.call .task .run) = some o) :
      Step s (.run t w id fn args) ((s.enter w id).setShared id o)
  | shared {t : T} {x : Ctx T} {id : ℕ} {e : OneShot.Event (Party T) R E}
      {o : OneShot.State (Party T) R E} (hat : s.AtHand t x) (hinside : s.inside x id e)
      (ho : OneShot.step (s.shared id) e = some o) : Step s (.shared t x id e) (s.setShared id o)
  | get {t : T} {x : Ctx T} {id : ℕ} {o : OneShot.State (Party T) R E} (hat : s.AtHand t x)
      (hx : s.mayCall x) (hvalid : s.future id)
      (ho : OneShot.step (s.shared id) (.call (.caller x) .get) = some o) :
      Step s (.get t x id none) ((s.take x id).setShared id o)
  | getNull {t : T} {x : Ctx T} {id : ℕ} (hat : s.AtHand t x) (hx : s.mayCall x)
      (hvalid : s.future id = false) : Step s (.get t x id (some .futureUninitialized)) s
  | got {t : T} {x : Ctx T} {id : ℕ} {construction : Option E}
      {found : Except (TaskException E) (Storage R)} (hat : s.AtHand t x) (hx : s.getting x = some id)
      (hpc : (s.shared id).pc (.caller x) = .got found) :
      Step s (.got t x id construction (Objects.getResult construction found)) (s.leave x)
  | uncaught {t : T} {w : ℕ} {except : TaskException E} (hat : s.AtHand t (.worker w))
      (hescaping : s.escaping w = some except) : Step s (.uncaught t w except) s

/-- Every step takes one of its branches. -/
theorem step_inv {s s' : State T F A R E} {e : Event T F A R E} (h : step s e = some s') : Step s e s' := by
  cases e with
  | machine e =>
    simp only [step, Option.ite_none_right_eq_some, Option.map_eq_some_iff] at h
    obtain ⟨hallows, m, hm, rfl⟩ := h
    exact .machine hallows hm
  | async t x w id fn args =>
    simp only [step, Option.ite_none_right_eq_some, Option.map_eq_some_iff] at h
    obtain ⟨⟨hx, rfl, rfl⟩, m, hm, rfl⟩ := h
    exact .async hx hm
  | run t w id fn args =>
    simp only [step, Option.ite_none_right_eq_some, Option.map_eq_some_iff] at h
    obtain ⟨⟨hat, hw, hfn⟩, o, ho, rfl⟩ := h
    exact .run hat hw hfn ho
  | shared t x id e =>
    simp only [step, Option.ite_none_right_eq_some, Option.map_eq_some_iff] at h
    obtain ⟨⟨hat, hinside⟩, o, ho, rfl⟩ := h
    exact .shared hat hinside ho
  | get t x id thrown =>
    simp only [step, Option.ite_none_right_eq_some] at h
    obtain ⟨⟨hat, hx⟩, h⟩ := h
    cases hvalid : s.future id with
    | true =>
      simp only [hvalid, if_true, Option.ite_none_right_eq_some, Option.map_eq_some_iff] at h
      obtain ⟨rfl, o, ho, rfl⟩ := h
      exact .get hat hx hvalid ho
    | false =>
      simp only [hvalid, Bool.false_eq_true, if_false, Option.ite_none_right_eq_some,
        Option.some.injEq] at h
      obtain ⟨rfl, rfl⟩ := h
      exact .getNull hat hx hvalid
  | got t x id construction result =>
    simp only [step, Option.ite_none_right_eq_some] at h
    obtain ⟨⟨hat, hx⟩, h⟩ := h
    split at h
    · rename_i found hpc
      simp only [Option.ite_none_right_eq_some, Option.some.injEq] at h
      obtain ⟨rfl, rfl⟩ := h
      exact .got hat hx hpc
    · simp at h
  | uncaught t w except =>
    simp only [step, Option.ite_none_right_eq_some, Option.some.injEq] at h
    obtain ⟨⟨hat, hescaping⟩, rfl⟩ := h
    exact .uncaught hat hescaping

end Steps

/-- The step of the shared state of task `id` that an event is. -/
def Event.on (id : ℕ) : Event T F A R E → Option (OneShot.Event (Party T) R E)
  | .run _ _ id' _ _ => if id' = id then some (.call .task .run) else none
  | .shared _ _ id' e => if id' = id then some e else none
  | .get _ x id' none => if id' = id then some (.call (.caller x) .get) else none
  | _ => none

section Projections

variable [DecidableEq T] [DecidableEq R] [DecidableEq E] {s s' : State T F A R E} {e : Event T F A R E}
  {id : ℕ}

/-- The shared state of a task takes part in the steps that are steps of its own, and in no others. -/
theorem Step.on_none (h : Step s e s') (he : e.on id = none) : s'.shared id = s.shared id := by
  cases h with
  | @run t w id' fn args o hat hw hfn ho | @get t x id' o hat hx hvalid ho =>
    have hne : id ≠ id' := by
      rintro rfl
      simp [Event.on] at he
    simp [hne]
  | @shared t x id' e o hat hinside ho =>
    have hne : id ≠ id' := by
      rintro rfl
      simp [Event.on] at he
    simp [hne]
  | _ => rfl

theorem Step.on_some (h : Step s e s') {e' : OneShot.Event (Party T) R E} (he : e.on id = some e') :
    OneShot.Step (s.shared id) e' (s'.shared id) := by
  cases h with
  | @run t w id' fn args o hat hw hfn ho | @shared t x id' e o hat hinside ho
  | @get t x id' o hat hx hvalid ho =>
    simp only [Event.on, Option.ite_none_right_eq_some, Option.some.injEq] at he
    obtain ⟨rfl, rfl⟩ := he
    simpa using OneShot.step_inv ho
  | _ => simp [Event.on] at he

/-- The machine takes part in the steps that are steps of its own, and in no others. -/
theorem Step.machine_cases (h : Step s e s') :
    s'.machine = s.machine ∨ ∃ e', Lutask.step s.machine e' = some s'.machine := by
  cases h with
  | machine hallows hm | async hx hm => exact .inr ⟨_, hm⟩
  | _ => exact .inl rfl

end Projections

end Async

end Lutask
