import Mathlib.Data.List.Chain
import Mathlib.Logic.Function.Basic
import Mathlib.Tactic.Simps.Basic
import Lutask.Support.LabelledRuns
import Lutask.Support.TokenPlacement

/-!
# `FiberContext` and its stacks

The objects of class `FiberContext` and the stacks that they switch between, below the contexts and
schedulers. A suspended stack is referred to by the `fcontext_t` that the switch away from it
returned, which is good for one switch only. The users' functions may call anything of the class in
any order, on any thread; `step` is undefined where the code follows a null pointer or an
`fcontext_t` that was used up.

`CreateFiber` is one step: the new stack runs `FiberEntry` up to its first jump.
-/

namespace Lutask

namespace Coroutine

open LabelledRuns TokenPlacement

/-- The stack that a thread was started with, or one that `CreateFiber` allocated. -/
inductive Stack (T : Type*) where
  | thread (t : T)
  | fiber (n : ℕ)
  deriving DecidableEq

/-- An `fcontext_t` points into a stack at one of its suspensions. -/
structure Fcontext (T : Type*) where
  stack : Stack T
  serial : ℕ
  deriving DecidableEq

/-- Where a stack is suspended. -/
inductive Point where
  /-- At the first jump in `FiberEntry`. -/
  | entry
  /-- In `Resume` or `ResumeWith`, which make a `FiberContext` of what they get. -/
  | result
  /-- In `~FiberContext`, which ignores what it gets. -/
  | ignored
  deriving DecidableEq

/-- What is on a stack. -/
inductive Frame (T : Type*) where
  | point (p : Point)
  /-- The function of a `FiberRecord`, called by `FiberEntry`, or the code of a thread. -/
  | body
  /-- The function that was given to `ResumeWith`. -/
  | ontop
  /-- A `forced_unwind` on its way to `FiberEntry`. -/
  | unwind (fctx : Fcontext T)
  deriving DecidableEq

/-- What the `forced_unwind` holds that is on its way on a stack. -/
def thrown : List (Frame T) → Option (Fcontext T)
  | [] => none
  | .unwind f :: _ => some f
  | _ :: below => thrown below

/-- The only member of class `FiberContext`. -/
structure FiberContext (T : Type*) where
  fctx : Option (Fcontext T)
  deriving DecidableEq

/-- The objects, numbered in the order of their construction, and the stacks. -/
structure State (T : Type*) where
  object : ℕ → Option (FiberContext T)
  objects : ℕ
  frames : Stack T → List (Frame T)
  serial : Stack T → ℕ
  freed : ℕ → Bool
  running : T → Stack T
  fibers : ℕ

/-- What the running function does next. -/
inductive Op where
  | construct
  | create
  | moveConstruct (other : ℕ)
  | moveAssign (this other : ℕ)
  | swap (this other : ℕ)
  | destroy (this : ℕ)
  | resume (this : ℕ)
  | resumeWith (this : ℕ)
  /-- The function returns a `FiberContext`. -/
  | ret (c : ℕ)
  /-- `FiberEntry` catches the `forced_unwind`. -/
  | caught

/-- A step of one thread. -/
structure Event (T : Type*) where
  thread : T
  op : Op

variable {T : Type*} [DecidableEq T]

section Objects

/-- Construct an object. -/
@[simps]
def State.make (s : State T) (c : FiberContext T) : State T :=
  { s with object := Function.update s.object s.objects (some c), objects := s.objects + 1 }

/-- Write an object. -/
@[simps]
def State.write (s : State T) (h : ℕ) (c : FiberContext T) : State T :=
  { s with object := Function.update s.object h (some c) }

/-- End the lifetime of an object. -/
@[simps]
def State.remove (s : State T) (h : ℕ) : State T :=
  { s with object := Function.update s.object h none }

end Objects

section Switches

/-- The stack is suspended where the `fcontext_t` points to. -/
def State.suspended (s : State T) (f : Fcontext T) : Option (Point × List (Frame T)) :=
  match s.frames f.stack with
  | .point p :: below => if s.serial f.stack = f.serial then some (p, below) else none
  | _ => none

/-- Suspend the running stack at a point. -/
@[simps]
def State.suspend (s : State T) (t : T) (p : Point) : State T :=
  { s with
    frames := Function.update s.frames (s.running t) (.point p :: s.frames (s.running t))
    serial := Function.update s.serial (s.running t) (s.serial (s.running t) + 1) }

/-- The `fcontext_t` of the running stack if it is suspended now. -/
def State.fcontext (s : State T) (t : T) : Fcontext T :=
  ⟨s.running t, s.serial (s.running t) + 1⟩

/-- Continue on another stack. -/
@[simps]
def State.continue (s : State T) (t : T) (x : Stack T) (frames : List (Frame T)) : State T :=
  { s with frames := Function.update s.frames x frames, running := Function.update s.running t x }

/-- What is executed after a point. `FiberEntry` calls the function of its record. -/
def landing (p : Point) (below : List (Frame T)) : List (Frame T) :=
  match p with
  | .entry => .body :: below
  | .result | .ignored => below

/-- A suspended stack goes on with the `fcontext_t` that it gets. -/
def State.deliver (s : State T) (t : T) (x : Stack T) (p : Point) (below : List (Frame T))
    (fctx : Option (Fcontext T)) : State T :=
  match p with
  | .entry | .result => (s.continue t x (landing p below)).make ⟨fctx⟩
  | .ignored => s.continue t x (landing p below)

/-- `jump_fcontext`. -/
def jump (s : State T) (t : T) (f : Fcontext T) : Option (State T) :=
  (s.suspended f).map fun r => (s.suspend t .result).deliver t f.stack r.1 r.2 (some (s.fcontext t))

/-- `ontop_fcontext` with `FiberOntop`. -/
def jumpOntop (s : State T) (t : T) (f : Fcontext T) : Option (State T) :=
  (s.suspended f).map fun r =>
    ((s.suspend t .result).continue t f.stack (.ontop :: .point r.1 :: r.2)).make ⟨some (s.fcontext t)⟩

/-- `ontop_fcontext` with `FiberUnwind`. A thread's own stack has no handler for the exception, and a second
one must not leave the destructors that a first one has called. -/
def jumpUnwind (s : State T) (t : T) (f : Fcontext T) : Option (State T) :=
  match f.stack with
  | .thread _ => none
  | .fiber _ => (s.suspended f).bind fun r =>
    if thrown r.2 = none then
      some ((s.suspend t .ignored).continue t f.stack [.unwind (s.fcontext t)])
    else none

/-- `ontop_fcontext` with `FiberExit`: the stack that is left is deallocated on the other one. -/
def jumpExit (s : State T) (t : T) (n : ℕ) (f : Fcontext T) : Option (State T) :=
  (s.suspended f).map fun r =>
    State.deliver
      { s with frames := Function.update s.frames (.fiber n) [], freed := Function.update s.freed n true }
      t f.stack r.1 r.2 none

end Switches

section Class

/-- `CreateFiber`. -/
def create (s : State T) : State T :=
  { s with
    frames := Function.update s.frames (.fiber s.fibers) [.point .entry]
    fibers := s.fibers + 1 }.make ⟨some ⟨.fiber s.fibers, s.serial (.fiber s.fibers)⟩⟩

/-- `~FiberContext` of an object that is not needed any more. -/
def destroyed (s : State T) (t : T) (c : FiberContext T) : Option (State T) :=
  match c.fctx with
  | none => some s
  | some f => jumpUnwind s t f

/-- `operator=(FiberContext&&)`: the previous value goes into `tmp`, which is destroyed. -/
def moveAssign (s : State T) (t : T) (this other : ℕ) : Option (State T) :=
  (s.object this).bind fun old => (s.object other).bind fun new =>
    if this = other then some s else destroyed ((s.write this new).write other ⟨none⟩) t old

/-- `FiberRecord::Run` and `FiberOntop` take the pointer out of what the function has returned. -/
def ret (s : State T) (t : T) (c : FiberContext T) : Option (State T) :=
  match s.running t, s.frames (s.running t) with
  | x, .ontop :: .point p :: below => some (s.deliver t x p below c.fctx)
  | .fiber n, [.body] => c.fctx.bind (jumpExit s t n)
  | _, _ => none

/-- The end of `FiberEntry` after an unwinding. -/
def caught (s : State T) (t : T) : Option (State T) :=
  match s.running t, s.frames (s.running t) with
  | .fiber n, [.unwind f] => jumpExit s t n f
  | _, _ => none

/-- The next operation of the function that runs on a thread. -/
def step (s : State T) (e : Event T) : Option (State T) :=
  match e.op with
  | .construct => some (s.make ⟨none⟩)
  | .create => some (create s)
  | .moveConstruct other => (s.object other).map fun c => (s.write other ⟨none⟩).make c
  | .moveAssign this other => moveAssign s e.thread this other
  | .swap this other => (s.object this).bind fun c => (s.object other).map fun d =>
    (s.write this d).write other c
  | .destroy this => (s.object this).bind fun c => destroyed (s.remove this) e.thread c
  | .resume this => (s.object this).bind fun c => c.fctx.bind fun f =>
    jump (s.write this ⟨none⟩) e.thread f
  | .resumeWith this => (s.object this).bind fun c => c.fctx.bind fun f =>
    jumpOntop (s.write this ⟨none⟩) e.thread f
  | .ret c => (s.object c).bind fun d => ret (s.remove c) e.thread d
  | .caught => caught s e.thread

end Class

/-- Before the first `FiberContext` every thread runs on its own stack. -/
def State.initial : State T where
  object _ := none
  objects := 0
  frames
    | .thread _ => [.body]
    | .fiber _ => []
  serial _ := 0
  freed _ := false
  running := .thread
  fibers := 0

/-- The runs of any functions that use the class on any threads. -/
abbrev Runs (events : List (Event T)) (s : State T) : Prop :=
  Run step (fun _ _ => True) State.initial events s

end Coroutine

end Lutask
