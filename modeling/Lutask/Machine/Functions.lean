import Mathlib.Data.List.Sort
import Lutask.Machine.State

/-!
# The library's functions, one atomic action at a time

Each definition follows the function of the source that it is named after. `t` is the thread
that executes it and `ctx` is `Context::Active()`. A function returns the state after its
first atomic action together with the frames that are left to execute; `none` means that the
action cannot be executed, because a lock is taken or because the code dereferences a null
pointer there. The assertions are compiled out.

`Scheduler::mtx_` is taken as re-acquirable by the thread that holds it: an acquisition only
waits for other threads.

A call on a container is one atomic action, also where several threads make such calls and no lock
guards them: `queuePush` and `queuePop` on the queue of a policy, `workerQueueRemove` and
`detachWorkerContext` on `workerQueue_`, and the calls on a `WaitQueue` and on `terminatedQueue_`.
Data races inside `std::queue` and `std::list` are not part of the model.
-/

namespace Lutask

variable {T : Type*} [DecidableEq T]

/-- A state together with the frames that remain of the function being executed. -/
abbrev Rest (T : Type*) := State T × List (Frame T)

section Scheduler

/-- `mtx_` of scheduler `u` is free or held by the thread itself. -/
def mtxFree (s : State T) (t u : T) : Prop :=
  ∀ holder ∈ (s.sched u).mtx, holder = t

instance (s : State T) (t u : T) : Decidable (mtxFree s t u) :=
  List.decidableBAll _ _

/-- `workerQueue_.push_back(ctx)` and `ctx->scheduler_ = this`. -/
def workerQueuePush (s : State T) (u : T) (w : Ctx T) : State T :=
  (s.setSched u { s.sched u with workerQueue := (s.sched u).workerQueue ++ [w] }).setCtx w
    { s.ctx w with scheduler := some u }

/-- `Scheduler::AttachWorkerContext`, the critical section of `mtx_`. -/
def attachWorkerContext (s : State T) (t u : T) (w : Ctx T) : Option (State T) :=
  if mtxFree s t u then some (workerQueuePush s u w) else none

/-- `workerQueue_.remove(ctx)`. -/
def workerQueueRemove (s : State T) (u : T) (w : Ctx T) : State T :=
  s.setSched u { s.sched u with workerQueue := (s.sched u).workerQueue.filter (· ≠ w) }

/-- `Scheduler::DetachWorkerContext`. -/
def detachWorkerContext (s : State T) (u : T) (w : Ctx T) : State T :=
  (workerQueueRemove s u w).setCtx w { s.ctx w with scheduler := none }

/-- `Context::Attach`, called on the active context. -/
def attach (s : State T) (t : T) (ctx w : Ctx T) : Option (State T) :=
  (s.ctx ctx).scheduler.bind fun u => attachWorkerContext s t u w

/-- `Context::Detach`, which leaves contexts launched with `ELaunch::Async` alone. -/
def detach (s : State T) (w : Ctx T) : Option (State T) :=
  if (s.ctx w).policy = .async then some s
  else (s.ctx w).scheduler.map fun u => detachWorkerContext s u w

end Scheduler

section Policies

/-- A push onto `readyQueue_` of a round-robin policy or `localQueue_` of a work-sharing one. -/
def queuePush (s : State T) (u : T) (ctx : Ctx T) : State T :=
  s.setSched u { s.sched u with queue := (s.sched u).queue ++ [ctx] }

/-- `RoundRobinPolicy::Awakened`. -/
def roundRobinAwakened (s : State T) (u : T) (ctx : Ctx T) : Rest T :=
  (queuePush s u ctx, [])

/-- `SharedWorkPolicy::Awakened`. -/
def sharedWorkAwakened (s : State T) (u : T) (ctx : Ctx T) : Rest T :=
  if ctx.isPinned then (queuePush s u ctx, []) else (s, [.detach ctx])

/-- `Scheduler::Schedule`, that is `policy_->Awakened(ctx)`. -/
def schedule (s : State T) (u : T) (ctx : Ctx T) : Rest T :=
  match (s.sched u).policy with
  | .roundRobin => roundRobinAwakened s u ctx
  | .sharedWork => sharedWorkAwakened s u ctx

/-- How the result of `PickNext` is resumed: as its caller says, or by `Dispatch` itself. -/
def switchOf (u : T) (k : Option (Switch T)) : Switch T :=
  k.getD (.resumeReady (.dispatcher u))

/-- The time up to which `Dispatch` suspends: the deadline of the first sleeper. -/
def suspendTime (s : State T) (u : T) : TimePoint :=
  match (s.sched u).sleepQueue with
  | [] => ⊤
  | ctx :: _ => (s.ctx ctx).tp

/-- Pop the policy's own queue. The callers other than `Dispatch` use the result without a test. -/
def queuePop (s : State T) (u : T) (k : Option (Switch T)) : Option (Rest T) :=
  match (s.sched u).queue with
  | ctx :: rest => some (s.setSched u { s.sched u with queue := rest }, [.resume ctx (switchOf u k)])
  | [] => if k = none then some (s, [.suspendUntil u (suspendTime s u)]) else none

/-- `SharedWorkPolicy::PickNext` up to the release of `rqueueMutex_`. -/
def sharedWorkPickNext (s : State T) (u : T) (k : Option (Switch T)) : Rest T :=
  match s.readyQueue with
  | ctx :: rest => ({ s with readyQueue := rest }, [.attachResume ctx (switchOf u k)])
  | [] => (s, [.pickLocal u k])

/-- `policy_->PickNext()`. -/
def pickNext (s : State T) (u : T) (k : Option (Switch T)) : Option (Rest T) :=
  match (s.sched u).policy with
  | .roundRobin => queuePop s u k
  | .sharedWork => some (sharedWorkPickNext s u k)

/-- `Notify`; the work-sharing policy never sets `suspend_`, so its `Notify` does nothing. -/
def notify (s : State T) (u : T) : State T :=
  match (s.sched u).policy with
  | .roundRobin => s.setSched u { s.sched u with flag := true }
  | .sharedWork => s

/-- The test of `flag_` by which `SuspendUntil` starts. -/
def suspendUntil (s : State T) (u : T) (tp : TimePoint) : Rest T :=
  match (s.sched u).policy with
  | .roundRobin =>
    if (s.sched u).flag then (s.setSched u { s.sched u with flag := false }, [])
    else (s, [.suspended u tp])
  | .sharedWork => (s, [])

/-- `cnd_.wait` or `cnd_.wait_until` returning. -/
def suspended (s : State T) (u : T) (tp : TimePoint) (now : ℕ) : Option (Rest T) :=
  if (s.sched u).flag ∨ tp ≤ WithTop.some now then
    some (s.setSched u { s.sched u with flag := false }, [])
  else none

end Policies

section Switches

/-- What is left of the function run on top of the resumed stack once it has stored `prev->c_`. -/
def Switch.onTop : Switch T → List (Frame T)
  | .resume => []
  | .resumeUnlock q => [.unlockM q]
  | .resumeReady readyCtx => [.schedule readyCtx]
  | .suspendWithCC => []

/-- `Context::Resume` and `SuspendWithCC`: `active_` and the stacks are exchanged, and the rest of
the caller's stack is handed over to the function that runs on top of the resumed one. -/
def switchTo (s : State T) (t : T) (prev : Ctx T) (rest : List (Frame T)) (ctx : Ctx T) (k : Switch T) :
    Option (State T) :=
  (s.ctx ctx).c.map fun stack =>
    (s.setCtx ctx { s.ctx ctx with c := none }).setThread t ⟨some ctx, .save prev k :: stack, some rest⟩

/-- `prev->c_ = std::move(c)` in the function run on top of the resumed stack. -/
def save (s : State T) (t : T) (prev : Ctx T) (k : Switch T) : Option (Rest T) :=
  (s.thread t).fctx.map fun stack =>
    ((s.setCtx prev { s.ctx prev with c := some stack }).setThread t { s.thread t with fctx := none },
      k.onTop)

end Switches

section WaitQueues

/-- Which overloads of `SuspendAndWait` and `Suspend` are called: a condition variable passes its lock. -/
def WaitQueue.switch : WaitQueue T → Switch T
  | .cv q => .resumeUnlock q
  | .waitList _ => .resume

/-- `WaitQueue::SuspendAndWait`: the push, and then `Suspend` of the context. -/
def suspendAndWait (s : State T) (q : WaitQueue T) (ctx : Ctx T) : Rest T :=
  (s.setWaits q (s.waits q ++ [ctx]), [.suspend q ctx])

/-- `Context::Suspend`, which reads `scheduler_` and calls `Scheduler::Suspend` there. -/
def suspend (s : State T) (q : WaitQueue T) (ctx : Ctx T) : Option (Rest T) :=
  (s.ctx ctx).scheduler.map fun u => (s, [.pickNext u (some q.switch)])

/-- What the caller of `NotifyOne` or `NotifyAll` does next: a condition variable unlocks `m_`. -/
def WaitQueue.afterNotify : WaitQueue T → List (Frame T)
  | .cv q => [.unlockM q]
  | .waitList _ => []

/-- `WaitQueue::NotifyOne`; `Wake` always returns true, so the loop ends after one context. -/
def notifyOne (s : State T) (q : WaitQueue T) : Rest T :=
  match s.waits q with
  | [] => (s, q.afterNotify)
  | ctx :: rest => (s.setWaits q rest, .wake ctx :: q.afterNotify)

/-- `WaitQueue::NotifyAll`, one turn of its loop. -/
def notifyAll (s : State T) (q : WaitQueue T) : Rest T :=
  match s.waits q with
  | [] => (s, q.afterNotify)
  | ctx :: rest => (s.setWaits q rest, [.wake ctx, .notifyAll q])

/-- The lock of `m_` by `ConditionVariableAny`. -/
def lockM (s : State T) (t : T) (q : ℕ) (next : Frame T) : Option (Rest T) :=
  if s.m q = none then some (s.setM q (some t), [next]) else none

/-- `lt.unlock()` in `ConditionVariableAny::Wait`. -/
def waitUnlock (s : State T) (q l : ℕ) (ctx : Ctx T) : Option (Rest T) :=
  if s.lt l = some ctx then some (s.setLt l none, [.suspendAndWait (.cv q) ctx]) else none

/-- The return of `Wait(lt)`, to the loop of `Wait(lt, pred)` if that called it. -/
def relockNext (q l : ℕ) (p : Option ℕ) (ctx : Ctx T) : List (Frame T) :=
  match p with
  | none => []
  | some p => [.waitPred q l p ctx]

/-- `lt.lock()` in `ConditionVariableAny::Wait`. -/
def relock (s : State T) (q l : ℕ) (p : Option ℕ) (ctx : Ctx T) : Option (Rest T) :=
  if s.lt l = none then some (s.setLt l (some ctx), relockNext q l p ctx) else none

/-- One test of the loop of `ConditionVariableAny::Wait(lt, pred)`. -/
def waitPred (s : State T) (q l p : ℕ) (ctx : Ctx T) : Rest T :=
  (s, if s.preds p then [] else [.wait q l ctx, .relock q l (some p) ctx])

end WaitQueues

section Dispatcher

/-- The head of the loop of `Scheduler::Dispatch`. -/
def dispatch (s : State T) (u : T) : Rest T :=
  if (s.sched u).shutdown then (notify s u, [.exitTest u]) else (s, [.iterate u])

/-- `Scheduler::ProcTerminated`, which only empties `terminatedQueue_`. -/
def procTerminated (s : State T) (u : T) : State T :=
  s.setSched u { s.sched u with terminatedQueue := [] }

/-- `workerQueue_.empty()` after `shutdown_`, with the code behind the loop. -/
def exitTest (s : State T) (u : T) : Rest T :=
  if (s.sched u).workerQueue = [] then (procTerminated s u, [.returnToMain u])
  else (s, [.iterate u])

/-- One turn of the loop of `Dispatch`, at the clock reading that `ProcSleepToReady` makes. -/
def iterate (s : State T) (u : T) (now : ℕ) : Rest T :=
  (procTerminated s u, [.procSleep u now, .pickNext u none, .dispatch u])

/-- One turn of the loop of `Scheduler::ProcSleepToReady`. -/
def procSleep (s : State T) (u : T) (now : ℕ) : Rest T :=
  match (s.sched u).sleepQueue with
  | [] => (s, [])
  | ctx :: rest =>
    if (s.ctx ctx).tp ≤ WithTop.some now then
      ((s.setSched u { s.sched u with sleepQueue := rest }).setCtx ctx { s.ctx ctx with tp := ⊤ },
        [.scheduleOn u ctx, .procSleep u now])
    else (s, [])

end Dispatcher

section Operations

/-- `MakeWorkerContext` and the choice that `Fiber::_Start` makes by the launch policy. -/
def start (s : State T) (ctx : Ctx T) (launch : ELaunch) : Rest T :=
  let w := Ctx.worker s.fresh
  let origin := if launch = .async then (s.ctx ctx).scheduler else none
  (({ s with fresh := s.fresh + 1 } : State T).setCtx w ⟨none, origin, some [], ⊤, launch, false⟩,
    match launch with
    | .post => [.postAttach w]
    | .dispatch => [.attachResume w (.resumeReady ctx)]
    | .async => [.detach w])

/-- `Scheduler::Yield`. -/
def yield (s : State T) (u : T) (ctx : Ctx T) : Rest T :=
  (workerQueueRemove s u ctx, [.pickNext u (some (.resumeReady ctx))])

/-- `Scheduler::YieldOrigin`. -/
def yieldOrigin (s : State T) (u : T) (ctx : Ctx T) : Rest T :=
  match (s.ctx ctx).originScheduler with
  | some origin =>
    ((workerQueueRemove s u ctx).setCtx ctx { s.ctx ctx with scheduler := none },
      [.scheduleOn origin ctx])
  | none => (workerQueueRemove s u ctx, [.pickNext u (some (.resumeReady ctx))])

/-- The insertion into `sleepQueue_`, a multiset ordered by `tp_`. -/
def sleepQueueInsert (s : State T) (ctx : Ctx T) (queue : List (Ctx T)) : List (Ctx T) :=
  queue.orderedInsert (fun l r => (s.ctx l).tp < (s.ctx r).tp) ctx

/-- `Scheduler::WaitUntil`. -/
def waitUntil (s : State T) (u : T) (ctx : Ctx T) (tp : TimePoint) : Rest T :=
  let timed := s.setCtx ctx { s.ctx ctx with tp := tp }
  (timed.setSched u
      { s.sched u with sleepQueue := sleepQueueInsert timed ctx (s.sched u).sleepQueue },
    [.pickNext u (some (.resumeReady ctx))])

/-- `Context::Join`. -/
def join (s : State T) (w ctx : Ctx T) : Rest T :=
  (s, if (s.ctx w).terminated then [] else [.suspendAndWait (.waitList w) ctx])

/-- `Context::Terminate`, reached when the worker's function returns. -/
def terminate (s : State T) (ctx : Ctx T) : Rest T :=
  (s.setCtx ctx { s.ctx ctx with terminated := true },
    [.notifyAll (.waitList ctx), .schedulerTerminate ctx])

/-- `Scheduler::Terminate` at its lock of `mtx_`. -/
def schedulerTerminate (s : State T) (t : T) (ctx : Ctx T) : Option (Rest T) :=
  (s.ctx ctx).scheduler.bind fun u =>
    if mtxFree s t u then
      some (s.setSched u { s.sched u with mtx := t :: (s.sched u).mtx }, [.terminateRemove u ctx])
    else none

/-- The rest of `Scheduler::Terminate`; `lk` is destroyed when the switch returns. -/
def terminateRemove (s : State T) (u : T) (ctx : Ctx T) : Rest T :=
  (s.setSched u { s.sched u with
      terminatedQueue := (s.sched u).terminatedQueue ++ [ctx]
      workerQueue := (s.sched u).workerQueue.filter (· ≠ ctx) },
    [.pickNext u (some .suspendWithCC), .unlockMtx u])

/-- `Scheduler::~Scheduler` up to its `Suspend()`. -/
def destructor (s : State T) (u : T) : Rest T :=
  (s.setSched u { s.sched u with shutdown := true }, [.pickNext u (some .resume), .destroy u])

/-- `Context::ResetActive()` and the end of `~Scheduler`. -/
def destroy (s : State T) (t u : T) : Rest T :=
  ((s.setSched u { s.sched u with deleted := true }).setThread t { s.thread t with active := none }, [])

end Operations

end Lutask
