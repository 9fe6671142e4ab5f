import Mathlib.Logic.Function.Basic
import Mathlib.Order.WithBot
import Mathlib.Tactic.Simps.Basic

/-!
# Contexts, schedulers, threads and the machine state

`T` is the type of threads; every thread owns one `Scheduler` with its policy, one main
context and one dispatcher context, so a scheduler pointer is a thread. A worker context is
named by the order in which the workers were made.

A `FiberContext` is the stack it resumes: `c_` is `none` when `fctx_` is null and otherwise
holds the suspended frames. A `Frame` is the rest of a library function after its last
completed atomic action. An empty stack means that the active context executes the user's
own code, where it may call any operation next.
-/

namespace Lutask

/-- `lutask::ELaunch`. -/
inductive ELaunch where
  | dispatch
  | post
  | async
  deriving DecidableEq

/-- The two implementations of `schedule::IPolicy`. -/
inductive Policy where
  | roundRobin
  | sharedWork
  deriving DecidableEq

/-- `std::chrono::steady_clock::time_point`, with `⊤` for `time_point::max()`. -/
abbrev TimePoint := WithTop ℕ

/-- A context object; the constructor is its `type_`. -/
inductive Ctx (T : Type*) where
  | main (t : T)
  | dispatcher (t : T)
  | worker (n : ℕ)
  deriving DecidableEq

variable {T : Type*}

/-- Named for the membership tests of the queues, which all rest on it. -/
instance [DecidableEq T] : LawfulBEq (Ctx T) := inferInstance

/-- `Context::IsContext(EType::PinnedContext)`, that is a main or a dispatcher context. -/
def Ctx.isPinned : Ctx T → Bool
  | .main _ => true
  | .dispatcher _ => true
  | .worker _ => false

/-- The user's code runs in main and worker contexts, never in a dispatcher. -/
def Ctx.runsUserCode : Ctx T → Bool
  | .dispatcher _ => false
  | _ => true

/-- The `WaitQueue` objects: one in every `ConditionVariableAny`, and `waitList_` in every context. -/
inductive WaitQueue (T : Type*) where
  | cv (q : ℕ)
  | waitList (ctx : Ctx T)
  deriving DecidableEq

/-- The ways to switch to a context: `Resume()`, `Resume(lk)` with the lock of condition variable
`q`, `Resume(readyCtx)` and `SuspendWithCC()`. -/
inductive Switch (T : Type*) where
  | resume
  | resumeUnlock (q : ℕ)
  | resumeReady (readyCtx : Ctx T)
  | suspendWithCC
  deriving DecidableEq

/-- The rest of a library function after its last completed atomic action. -/
inductive Frame (T : Type*) where
  /-- `_Start` for `ELaunch::Post`: attach the new worker, then schedule it. -/
  | postAttach (w : Ctx T)
  /-- `Context::Active()->GetScheduler()->Schedule(ctx)`. -/
  | schedule (ctx : Ctx T)
  /-- `sched->Schedule(ctx)` for a scheduler known to the caller. -/
  | scheduleOn (sched : T) (ctx : Ctx T)
  /-- `ctx->Wake()`. -/
  | wake (ctx : Ctx T)
  /-- `ctx->Detach()` and then the push onto the static `readyQueue_`. -/
  | detach (ctx : Ctx T)
  /-- The push onto the static `readyQueue_` under `rqueueMutex_`. -/
  | readyPush (ctx : Ctx T)
  /-- `policy_->PickNext()` and the switch to its result; `none` is the call in `Dispatch`, which
  tests the result for null and otherwise switches with `Resume(dispatcherContext_.get())`. -/
  | pickNext (sched : T) (k : Option (Switch T))
  /-- `SharedWorkPolicy::PickNext` after it found the static `readyQueue_` empty. -/
  | pickLocal (sched : T) (k : Option (Switch T))
  /-- `Context::Active()->Attach(ctx)` and then the switch to `ctx`. -/
  | attachResume (ctx : Ctx T) (k : Switch T)
  /-- The switch to `ctx`. -/
  | resume (ctx : Ctx T) (k : Switch T)
  /-- `mainContext_->SuspendWithCC()`, by which `Dispatch` returns. -/
  | returnToMain (sched : T)
  /-- The function run on top of the resumed stack, which first stores `prev->c_`. -/
  | save (prev : Ctx T) (k : Switch T)
  /-- `scheduler_->Terminate(ctx)`, called by `Context::Terminate`. -/
  | schedulerTerminate (ctx : Ctx T)
  /-- `Scheduler::Terminate` once it holds `mtx_`. -/
  | terminateRemove (sched : T) (ctx : Ctx T)
  /-- The destructor of `lk` at the end of `Scheduler::Terminate`. -/
  | unlockMtx (sched : T)
  /-- `WaitQueue::SuspendAndWait`. -/
  | suspendAndWait (q : WaitQueue T) (ctx : Ctx T)
  /-- `Context::Suspend`, called by `SuspendAndWait` after the push. -/
  | suspend (q : WaitQueue T) (ctx : Ctx T)
  /-- `ConditionVariableAny::Wait(lt)` at its lock of `m_`. -/
  | wait (q l : ℕ) (ctx : Ctx T)
  /-- `ConditionVariableAny::Wait(lt)` at `lt.unlock()`. -/
  | waitUnlock (q l : ℕ) (ctx : Ctx T)
  /-- `ConditionVariableAny::Wait` at `lt.lock()`; `p` is the predicate of `Wait(lt, pred)`. -/
  | relock (q l : ℕ) (p : Option ℕ) (ctx : Ctx T)
  /-- `ConditionVariableAny::Wait(lt, pred)` at the test of its loop. -/
  | waitPred (q l p : ℕ) (ctx : Ctx T)
  /-- `ConditionVariableAny::NotifyOne` at its lock of `m_`. -/
  | cvNotifyOne (q : ℕ)
  /-- `ConditionVariableAny::NotifyAll` at its lock of `m_`. -/
  | cvNotifyAll (q : ℕ)
  /-- `WaitQueue::NotifyOne`. -/
  | notifyOne (q : WaitQueue T)
  /-- `WaitQueue::NotifyAll`. -/
  | notifyAll (q : WaitQueue T)
  /-- The release of `m_`, by a destructor or by the function that `Resume(lk)` runs. -/
  | unlockM (q : ℕ)
  /-- `~Scheduler` after its `Suspend()` returned. -/
  | destroy (sched : T)
  /-- `Scheduler::Dispatch` at the head of its loop. -/
  | dispatch (sched : T)
  /-- `Scheduler::Dispatch` at `workerQueue_.empty()`. -/
  | exitTest (sched : T)
  /-- `Scheduler::Dispatch` at `ProcTerminated()` inside its loop. -/
  | iterate (sched : T)
  /-- The loop of `ProcSleepToReady` for one reading of the clock. -/
  | procSleep (sched : T) (now : ℕ)
  /-- `policy_->SuspendUntil(tp)` before its first test of `flag_`. -/
  | suspendUntil (sched : T) (tp : TimePoint)
  /-- `policy_->SuspendUntil(tp)` blocked on `cnd_`. -/
  | suspended (sched : T) (tp : TimePoint)
  deriving DecidableEq

/-- The switches: which context is resumed and how. -/
def Frame.target {T : Type*} : Frame T → Option (Ctx T × Switch T)
  | .resume ctx k => some (ctx, k)
  | .returnToMain sched => some (.main sched, .suspendWithCC)
  | _ => none

/-- The members of `lutask::Context` that scheduling reads. -/
structure Context (T : Type*) where
  scheduler : Option T
  originScheduler : Option T
  c : Option (List (Frame T))
  tp : TimePoint
  policy : ELaunch
  terminated : Bool

/-- The members of `lutask::Scheduler` and of its policy object. `queue` is `readyQueue_` of
`RoundRobinPolicy` and `localQueue_` of `SharedWorkPolicy`. `mtx` lists one entry for each time
that `mtx_` is currently held. `deleted` is set by the end of `~Scheduler`. -/
structure Scheduler (T : Type*) where
  policy : Policy
  queue : List (Ctx T)
  flag : Bool
  shutdown : Bool
  workerQueue : List (Ctx T)
  terminatedQueue : List (Ctx T)
  sleepQueue : List (Ctx T)
  mtx : List T
  deleted : Bool

/-- `ContextInitializer::active_`, the running stack, and the continuation of the previous context
that a switch handed over and `save` has not stored yet. -/
structure Thread (T : Type*) where
  active : Option (Ctx T)
  stack : List (Frame T)
  fctx : Option (List (Frame T))

/-- The whole program: every object that the library's functions read or write. `readyQueue` is the
static queue of `SharedWorkPolicy`, `m` and `lt` are the owners of the condition variables' own
mutexes and of the users' locks, `preds` is the present truth value of each predicate on the
users' data, and `fresh` counts the workers made so far. -/
structure State (T : Type*) where
  ctx : Ctx T → Context T
  sched : T → Scheduler T
  thread : T → Thread T
  readyQueue : List (Ctx T)
  waits : WaitQueue T → List (Ctx T)
  m : ℕ → Option T
  lt : ℕ → Option (Ctx T)
  preds : ℕ → Bool
  fresh : ℕ

/-- A context exists once it was constructed; the pinned contexts come with their threads. -/
def State.started (s : State T) : Ctx T → Bool
  | .worker n => decide (n < s.fresh)
  | _ => true

section Updates

variable [DecidableEq T]

/-- Replace one context object. -/
@[simps] def State.setCtx (s : State T) (x : Ctx T) (c : Context T) : State T :=
  { s with ctx := Function.update s.ctx x c }

/-- Replace one scheduler object. -/
@[simps] def State.setSched (s : State T) (u : T) (r : Scheduler T) : State T :=
  { s with sched := Function.update s.sched u r }

/-- Replace one thread. -/
@[simps] def State.setThread (s : State T) (t : T) (th : Thread T) : State T :=
  { s with thread := Function.update s.thread t th }

/-- Replace the running stack of one thread. -/
def State.setStack (s : State T) (t : T) (stack : List (Frame T)) : State T :=
  s.setThread t { s.thread t with stack := stack }

@[simp] theorem State.setStack_thread_self (s : State T) (t : T) (stack : List (Frame T)) :
    (s.setStack t stack).thread t = { s.thread t with stack := stack } := by
  simp [State.setStack]

theorem State.setStack_thread_of_ne (s : State T) {t v : T} (h : v ≠ t) (stack : List (Frame T)) :
    (s.setStack t stack).thread v = s.thread v := by
  simp [State.setStack, h]

@[simp] theorem State.setStack_ctx (s : State T) (t : T) (stack : List (Frame T)) :
    (s.setStack t stack).ctx = s.ctx := rfl

@[simp] theorem State.setStack_sched (s : State T) (t : T) (stack : List (Frame T)) :
    (s.setStack t stack).sched = s.sched := rfl

@[simp] theorem State.setStack_readyQueue (s : State T) (t : T) (stack : List (Frame T)) :
    (s.setStack t stack).readyQueue = s.readyQueue := rfl

@[simp] theorem State.setStack_waits (s : State T) (t : T) (stack : List (Frame T)) :
    (s.setStack t stack).waits = s.waits := rfl

@[simp] theorem State.setStack_m (s : State T) (t : T) (stack : List (Frame T)) :
    (s.setStack t stack).m = s.m := rfl

@[simp] theorem State.setStack_lt (s : State T) (t : T) (stack : List (Frame T)) :
    (s.setStack t stack).lt = s.lt := rfl

@[simp] theorem State.setStack_preds (s : State T) (t : T) (stack : List (Frame T)) :
    (s.setStack t stack).preds = s.preds := rfl

@[simp] theorem State.setStack_started (s : State T) (t : T) (stack : List (Frame T)) :
    (s.setStack t stack).started = s.started := rfl

/-- Replace the content of one wait queue. -/
@[simps] def State.setWaits (s : State T) (q : WaitQueue T) (l : List (Ctx T)) : State T :=
  { s with waits := Function.update s.waits q l }

/-- Replace the owner of one condition variable's mutex. -/
@[simps] def State.setM (s : State T) (q : ℕ) (owner : Option T) : State T :=
  { s with m := Function.update s.m q owner }

/-- Replace the owner of one user lock. -/
@[simps] def State.setLt (s : State T) (l : ℕ) (owner : Option (Ctx T)) : State T :=
  { s with lt := Function.update s.lt l owner }

end Updates

/-- `AttachMainContext` and `AttachDispatcherContext` set `scheduler_` of the pinned contexts; the
dispatcher's stack runs `Dispatch`, and main is the running context. -/
def Context.initial : Ctx T → Context T
  | .main t => ⟨some t, none, none, ⊤, .post, false⟩
  | .dispatcher t => ⟨some t, none, some [.dispatch t], ⊤, .post, false⟩
  | .worker _ => ⟨none, none, none, ⊤, .post, false⟩

/-- The state that `ContextInitializer::Initialize` leaves on every thread: `active_` is main, and
`AttachDispatcherContext` has handed the dispatcher to `Awakened`. -/
def State.initial (policy : T → Policy) : State T where
  ctx := Context.initial
  sched t := ⟨policy t, [.dispatcher t], false, false, [], [], [], [], false⟩
  thread t := ⟨some (.main t), [], none⟩
  readyQueue := []
  waits _ := []
  m _ := none
  lt _ := none
  preds _ := false
  fresh := 0

end Lutask
