import Lutask.Support.LabelledRuns
import Lutask.Machine.Functions

/-!
# The step function of the machine

An event is either a call of a library operation by the user's code of the active context, or
the execution of the topmost frame of a thread's stack. Every event names its thread and the
context that is active there, so the list of events of a run records who did what and in which
order. Any interleaving of the threads' events is a run.
-/

namespace Lutask

open LabelledRuns

variable {T : Type*} [DecidableEq T]

/-- What the user's code of the active context may do. `lock`, `unlock` and `write` are the user's
own accesses to a lock and to the data that predicates read. -/
inductive Op (T : Type*) where
  | start (launch : ELaunch)
  | yield
  | yieldOrigin
  | waitUntil (tp : TimePoint)
  | join (w : Ctx T)
  | wait (q l : ℕ)
  | waitPred (q l p : ℕ)
  | notifyOne (q : ℕ)
  | notifyAll (q : ℕ)
  | terminate
  | destructor
  | lock (l : ℕ)
  | unlock (l : ℕ)
  | write (preds : ℕ → Bool)

/-- `WaitUntil` and `YieldOrigin` record a context in a queue although it keeps another place. -/
def Op.strays : Op T → Bool
  | .waitUntil _ | .yieldOrigin => true
  | _ => false

/-- A step of thread `t` while `ctx` is its active context. -/
inductive Event (T : Type*) where
  | call (t : T) (ctx : Ctx T) (op : Op T)
  | exec (t : T) (ctx : Ctx T) (frame : Frame T) (now : ℕ)

/-- The thread that an event belongs to. -/
def Event.thread : Event T → T
  | .call t _ _ => t
  | .exec t _ _ _ => t

/-- The first action of an operation called by `ctx`. A worker's function returns only on a worker,
and `~Scheduler` runs on the main context. -/
def callOp (s : State T) (ctx : Ctx T) : Op T → Option (Rest T)
  | .start launch => some (start s ctx launch)
  | .yield => (s.ctx ctx).scheduler.map (yield s · ctx)
  | .yieldOrigin => (s.ctx ctx).scheduler.map (yieldOrigin s · ctx)
  | .waitUntil tp => (s.ctx ctx).scheduler.map (waitUntil s · ctx tp)
  | .join w => if s.started w ∧ w.isPinned = false then some (join s w ctx) else none
  | .wait q l => some (s, [.wait q l ctx, .relock q l none ctx])
  | .waitPred q l p => some (s, [.waitPred q l p ctx])
  | .notifyOne q => some (s, [.cvNotifyOne q])
  | .notifyAll q => some (s, [.cvNotifyAll q])
  | .terminate => if ctx.isPinned then none else some (terminate s ctx)
  | .destructor =>
    match ctx with
    | .main u => some (destructor s u)
    | _ => none
  | .lock l => if s.lt l = none then some (s.setLt l (some ctx), []) else none
  | .unlock l => if s.lt l = some ctx then some (s.setLt l none, []) else none
  | .write preds => some ({ s with preds := preds }, [])

/-- The next action of a frame other than a switch, executed by thread `t` with active `ctx`. -/
def execFrame (s : State T) (t : T) (ctx : Ctx T) (now : ℕ) : Frame T → Option (Rest T)
  | .postAttach w => (attach s t ctx w).map fun s => (s, [.schedule w])
  | .schedule x => (s.ctx ctx).scheduler.map (schedule s · x)
  | .scheduleOn u x => some (schedule s u x)
  | .wake x => (s.ctx x).scheduler.map (schedule s · x)
  | .detach x => (detach s x).map fun s => (s, [.readyPush x])
  | .readyPush x => some ({ s with readyQueue := s.readyQueue ++ [x] }, [])
  | .pickNext u k => pickNext s u k
  | .pickLocal u k => queuePop s u k
  | .attachResume x k => (attach s t ctx x).map fun s => (s, [.resume x k])
  | .resume _ _ => none
  | .returnToMain _ => none
  | .save prev k => save s t prev k
  | .schedulerTerminate x => schedulerTerminate s t x
  | .terminateRemove u x => some (terminateRemove s u x)
  | .unlockMtx u => some (s.setSched u { s.sched u with mtx := (s.sched u).mtx.tail }, [])
  | .suspendAndWait q x => some (suspendAndWait s q x)
  | .suspend q x => suspend s q x
  | .wait q l x => lockM s t q (.waitUnlock q l x)
  | .waitUnlock q l x => waitUnlock s q l x
  | .relock q l p x => relock s q l p x
  | .waitPred q l p x => some (waitPred s q l p x)
  | .cvNotifyOne q => lockM s t q (.notifyOne (.cv q))
  | .cvNotifyAll q => lockM s t q (.notifyAll (.cv q))
  | .notifyOne q => some (notifyOne s q)
  | .notifyAll q => some (notifyAll s q)
  | .unlockM q => some (s.setM q none, [])
  | .destroy u => some (destroy s t u)
  | .dispatch u => some (dispatch s u)
  | .exitTest u => some (exitTest s u)
  | .iterate u => some (iterate s u now)
  | .procSleep u n => some (procSleep s u n)
  | .suspendUntil u tp => some (suspendUntil s u tp)
  | .suspended u tp => suspended s u tp now

/-- Execute the topmost frame `frame` of the stack `frame :: rest` of thread `t`. -/
def exec (s : State T) (t : T) (ctx : Ctx T) (now : ℕ) (rest : List (Frame T)) (frame : Frame T) :
    Option (State T) :=
  match frame.target with
  | some (x, k) => switchTo s t ctx rest x k
  | none => (execFrame s t ctx now frame).map fun r => r.1.setStack t (r.2 ++ rest)

/-- One event. It is possible only if it names the active context and what that may do next. -/
def step (s : State T) : Event T → Option (State T)
  | .call t ctx op =>
    if (s.thread t).active = some ctx ∧ (s.thread t).stack = [] ∧ ctx.runsUserCode then
      (callOp s ctx op).map fun r => r.1.setStack t r.2
    else none
  | .exec t ctx frame now =>
    if (s.thread t).active = some ctx ∧ (s.thread t).stack.head? = some frame then
      exec s t ctx now (s.thread t).stack.tail frame
    else none

/-- A finite run of the machine from the initial state in which every event satisfies the guard. -/
abbrev Runs (policy : T → Policy) (guard : State T → Event T → Prop) (events : List (Event T))
    (s : State T) : Prop :=
  Run step guard (State.initial policy) events s

end Lutask
