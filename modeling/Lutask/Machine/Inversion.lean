import Lutask.Machine.Step

/-!
# What a step can do

Two relations list the branches of the operations and of the frames, each with the tests that
select it and with its effect. Every proof about runs is a case analysis over these relations;
the functions themselves are unfolded only here.
-/

namespace Lutask

variable {T : Type*} [DecidableEq T]

/-- The branches of `callOp`. -/
inductive OpStep (s : State T) (x : Ctx T) : Op T → Rest T → Prop
  | start (launch : ELaunch) : OpStep s x (.start launch) (Lutask.start s x launch)
  | yield {u : T} (hu : (s.ctx x).scheduler = some u) : OpStep s x .yield (Lutask.yield s u x)
  | yieldOrigin {u origin : T} (hu : (s.ctx x).scheduler = some u)
      (horigin : (s.ctx x).originScheduler = some origin) :
      OpStep s x .yieldOrigin
        ((workerQueueRemove s u x).setCtx x { s.ctx x with scheduler := none },
          [.scheduleOn origin x])
  | yieldOriginNone {u : T} (hu : (s.ctx x).scheduler = some u)
      (horigin : (s.ctx x).originScheduler = none) :
      OpStep s x .yieldOrigin (workerQueueRemove s u x, [.pickNext u (some (.resumeReady x))])
  | waitUntil {u : T} {tp : TimePoint} (hu : (s.ctx x).scheduler = some u) :
      OpStep s x (.waitUntil tp) (Lutask.waitUntil s u x tp)
  | joinReturn {w : Ctx T} (hw : s.started w) (hpin : w.isPinned = false)
      (hterm : (s.ctx w).terminated) : OpStep s x (.join w) (s, [])
  | join {w : Ctx T} (hw : s.started w) (hpin : w.isPinned = false)
      (hterm : (s.ctx w).terminated = false) :
      OpStep s x (.join w) (s, [.suspendAndWait (.waitList w) x])
  | wait {q l : ℕ} : OpStep s x (.wait q l) (s, [.wait q l x, .relock q l none x])
  | waitPred {q l p : ℕ} : OpStep s x (.waitPred q l p) (s, [.waitPred q l p x])
  | notifyOne {q : ℕ} : OpStep s x (.notifyOne q) (s, [.cvNotifyOne q])
  | notifyAll {q : ℕ} : OpStep s x (.notifyAll q) (s, [.cvNotifyAll q])
  | terminate (hpin : x.isPinned = false) : OpStep s x .terminate (Lutask.terminate s x)
  | destructor {u : T} (hx : x = .main u) : OpStep s x .destructor (Lutask.destructor s u)
  | lock {l : ℕ} (hl : s.lt l = none) : OpStep s x (.lock l) (s.setLt l (some x), [])
  | unlock {l : ℕ} (hl : s.lt l = some x) : OpStep s x (.unlock l) (s.setLt l none, [])
  | write {preds : ℕ → Bool} : OpStep s x (.write preds) ({ s with preds := preds }, [])

/-- An operation that can be called takes one of its branches. -/
theorem callOp_inv {s : State T} {x : Ctx T} {op : Op T} {r : Rest T}
    (h : callOp s x op = some r) : OpStep s x op r := by
  cases op with
  | start launch =>
    obtain rfl : Lutask.start s x launch = r := by simpa only [callOp, Option.some.injEq] using h
    exact .start launch
  | yield =>
    obtain ⟨u, hu, rfl⟩ := Option.map_eq_some_iff.mp h
    exact .yield hu
  | yieldOrigin =>
    obtain ⟨u, hu, rfl⟩ := Option.map_eq_some_iff.mp h
    unfold Lutask.yieldOrigin
    split
    · rename_i origin horigin
      exact .yieldOrigin hu horigin
    · rename_i horigin
      exact .yieldOriginNone hu horigin
  | waitUntil tp =>
    obtain ⟨u, hu, rfl⟩ := Option.map_eq_some_iff.mp h
    exact .waitUntil hu
  | join w =>
    simp only [callOp, Option.ite_none_right_eq_some, Option.some.injEq] at h
    obtain ⟨⟨hw, hpin⟩, rfl⟩ := h
    cases hterm : (s.ctx w).terminated with
    | true => simpa only [Lutask.join, hterm, if_true] using OpStep.joinReturn hw hpin hterm
    | false =>
      simpa only [Lutask.join, hterm, Bool.false_eq_true, if_false] using OpStep.join hw hpin hterm
  | wait q l =>
    obtain rfl := Option.some.inj h
    exact .wait
  | waitPred q l p =>
    obtain rfl := Option.some.inj h
    exact .waitPred
  | notifyOne q =>
    obtain rfl := Option.some.inj h
    exact .notifyOne
  | notifyAll q =>
    obtain rfl := Option.some.inj h
    exact .notifyAll
  | terminate =>
    simp only [callOp, Option.ite_none_left_eq_some, Bool.not_eq_true, Option.some.injEq] at h
    obtain ⟨hpin, rfl⟩ := h
    exact .terminate hpin
  | destructor =>
    cases x with
    | main u =>
      obtain rfl := Option.some.inj h
      exact .destructor rfl
    | dispatcher u => simp [callOp] at h
    | worker n => simp [callOp] at h
  | lock l =>
    simp only [callOp, Option.ite_none_right_eq_some, Option.some.injEq] at h
    obtain ⟨hl, rfl⟩ := h
    exact .lock hl
  | unlock l =>
    simp only [callOp, Option.ite_none_right_eq_some, Option.some.injEq] at h
    obtain ⟨hl, rfl⟩ := h
    exact .unlock hl
  | write preds =>
    obtain rfl := Option.some.inj h
    exact .write

/-- The branches of `Scheduler::Schedule`, by the policy of the scheduler. -/
theorem schedule_cases (s : State T) (u : T) (x : Ctx T) :
    ((s.sched u).policy = .roundRobin ∨ x.isPinned) ∧ schedule s u x = (queuePush s u x, []) ∨
      (s.sched u).policy = .sharedWork ∧ x.isPinned = false ∧ schedule s u x = (s, [.detach x]) := by
  unfold schedule
  cases hpol : (s.sched u).policy with
  | roundRobin => exact .inl ⟨.inl rfl, rfl⟩
  | sharedWork =>
    cases hpin : x.isPinned with
    | true => exact .inl ⟨.inr rfl, by simp [sharedWorkAwakened, hpin]⟩
    | false => exact .inr ⟨rfl, rfl, by simp [sharedWorkAwakened, hpin]⟩

/-- `Awakened` of a round-robin policy pushes the context at once. -/
theorem schedule_roundRobin {s : State T} {u : T} (hpolicy : (s.sched u).policy = .roundRobin) (x : Ctx T) :
    schedule s u x = (queuePush s u x, []) := by
  simp [schedule, hpolicy, roundRobinAwakened]

/-- The branches of `execFrame`. -/
inductive FrameStep (s : State T) (t : T) (x : Ctx T) (now : ℕ) : Frame T → Rest T → Prop
  | postAttach {u : T} {w : Ctx T} (hu : (s.ctx x).scheduler = some u) (hmtx : mtxFree s t u) :
      FrameStep s t x now (.postAttach w) (workerQueuePush s u w, [.schedule w])
  | schedule {u : T} {y : Ctx T} (hu : (s.ctx x).scheduler = some u) :
      FrameStep s t x now (.schedule y) (Lutask.schedule s u y)
  | scheduleOn {u : T} {y : Ctx T} : FrameStep s t x now (.scheduleOn u y) (Lutask.schedule s u y)
  | wake {u : T} {y : Ctx T} (hu : (s.ctx y).scheduler = some u) :
      FrameStep s t x now (.wake y) (Lutask.schedule s u y)
  | detachAsync {y : Ctx T} (hasync : (s.ctx y).policy = .async) :
      FrameStep s t x now (.detach y) (s, [.readyPush y])
  | detach {u : T} {y : Ctx T} (hasync : (s.ctx y).policy ≠ .async)
      (hu : (s.ctx y).scheduler = some u) :
      FrameStep s t x now (.detach y) (detachWorkerContext s u y, [.readyPush y])
  | readyPush {y : Ctx T} :
      FrameStep s t x now (.readyPush y) ({ s with readyQueue := s.readyQueue ++ [y] }, [])
  | pop {f : Frame T} {u : T} {k : Option (Switch T)} {y : Ctx T} {rest : List (Ctx T)}
      (hf : f = .pickLocal u k ∨ f = .pickNext u k ∧ (s.sched u).policy = .roundRobin)
      (hqueue : (s.sched u).queue = y :: rest) :
      FrameStep s t x now f
        (s.setSched u { s.sched u with queue := rest }, [.resume y (switchOf u k)])
  | popEmpty {f : Frame T} {u : T}
      (hf : f = .pickLocal u none ∨ f = .pickNext u none ∧ (s.sched u).policy = .roundRobin)
      (hqueue : (s.sched u).queue = []) :
      FrameStep s t x now f (s, [.suspendUntil u (suspendTime s u)])
  | pickReady {u : T} {k : Option (Switch T)} {y : Ctx T} {rest : List (Ctx T)}
      (hpolicy : (s.sched u).policy = .sharedWork) (hready : s.readyQueue = y :: rest) :
      FrameStep s t x now (.pickNext u k)
        ({ s with readyQueue := rest }, [.attachResume y (switchOf u k)])
  | pickReadyEmpty {u : T} {k : Option (Switch T)}
      (hpolicy : (s.sched u).policy = .sharedWork) (hready : s.readyQueue = []) :
      FrameStep s t x now (.pickNext u k) (s, [.pickLocal u k])
  | attachResume {u : T} {y : Ctx T} {k : Switch T} (hu : (s.ctx x).scheduler = some u)
      (hmtx : mtxFree s t u) :
      FrameStep s t x now (.attachResume y k) (workerQueuePush s u y, [.resume y k])
  | save {prev : Ctx T} {k : Switch T} {stack : List (Frame T)}
      (hfctx : (s.thread t).fctx = some stack) :
      FrameStep s t x now (.save prev k)
        ((s.setCtx prev { s.ctx prev with c := some stack }).setThread t
          { s.thread t with fctx := none }, k.onTop)
  | schedulerTerminate {u : T} {y : Ctx T} (hu : (s.ctx y).scheduler = some u)
      (hmtx : mtxFree s t u) :
      FrameStep s t x now (.schedulerTerminate y)
        (s.setSched u { s.sched u with mtx := t :: (s.sched u).mtx }, [.terminateRemove u y])
  | terminateRemove {u : T} {y : Ctx T} :
      FrameStep s t x now (.terminateRemove u y) (Lutask.terminateRemove s u y)
  | unlockMtx {u : T} :
      FrameStep s t x now (.unlockMtx u)
        (s.setSched u { s.sched u with mtx := (s.sched u).mtx.tail }, [])
  | suspendAndWait {q : WaitQueue T} {y : Ctx T} :
      FrameStep s t x now (.suspendAndWait q y)
        (s.setWaits q (s.waits q ++ [y]), [.suspend q y])
  | suspend {u : T} {q : WaitQueue T} {y : Ctx T} (hu : (s.ctx y).scheduler = some u) :
      FrameStep s t x now (.suspend q y) (s, [.pickNext u (some q.switch)])
  | wait {q l : ℕ} {y : Ctx T} (hm : s.m q = none) :
      FrameStep s t x now (.wait q l y) (s.setM q (some t), [.waitUnlock q l y])
  | waitUnlock {q l : ℕ} {y : Ctx T} (hl : s.lt l = some y) :
      FrameStep s t x now (.waitUnlock q l y) (s.setLt l none, [.suspendAndWait (.cv q) y])
  | relock {q l : ℕ} {p : Option ℕ} {y : Ctx T} (hl : s.lt l = none) :
      FrameStep s t x now (.relock q l p y) (s.setLt l (some y), relockNext q l p y)
  | waitPredTrue {q l p : ℕ} {y : Ctx T} (hp : s.preds p) :
      FrameStep s t x now (.waitPred q l p y) (s, [])
  | waitPredFalse {q l p : ℕ} {y : Ctx T} (hp : s.preds p = false) :
      FrameStep s t x now (.waitPred q l p y) (s, [.wait q l y, .relock q l (some p) y])
  | cvNotifyOne {q : ℕ} (hm : s.m q = none) :
      FrameStep s t x now (.cvNotifyOne q) (s.setM q (some t), [.notifyOne (.cv q)])
  | cvNotifyAll {q : ℕ} (hm : s.m q = none) :
      FrameStep s t x now (.cvNotifyAll q) (s.setM q (some t), [.notifyAll (.cv q)])
  | notifyOne {q : WaitQueue T} {y : Ctx T} {rest : List (Ctx T)} (hwaits : s.waits q = y :: rest) :
      FrameStep s t x now (.notifyOne q) (s.setWaits q rest, .wake y :: q.afterNotify)
  | notifyOneEmpty {q : WaitQueue T} (hwaits : s.waits q = []) :
      FrameStep s t x now (.notifyOne q) (s, q.afterNotify)
  | notifyAll {q : WaitQueue T} {y : Ctx T} {rest : List (Ctx T)} (hwaits : s.waits q = y :: rest) :
      FrameStep s t x now (.notifyAll q) (s.setWaits q rest, [.wake y, .notifyAll q])
  | notifyAllEmpty {q : WaitQueue T} (hwaits : s.waits q = []) :
      FrameStep s t x now (.notifyAll q) (s, q.afterNotify)
  | unlockM {q : ℕ} : FrameStep s t x now (.unlockM q) (s.setM q none, [])
  | destroy {u : T} : FrameStep s t x now (.destroy u) (Lutask.destroy s t u)
  | dispatchShutdown {u : T} (hshut : (s.sched u).shutdown) :
      FrameStep s t x now (.dispatch u) (notify s u, [.exitTest u])
  | dispatch {u : T} (hshut : (s.sched u).shutdown = false) :
      FrameStep s t x now (.dispatch u) (s, [.iterate u])
  | exit {u : T} (hworkers : (s.sched u).workerQueue = []) :
      FrameStep s t x now (.exitTest u)
        (procTerminated s u, [.returnToMain u])
  | stay {u : T} (hworkers : (s.sched u).workerQueue ≠ []) :
      FrameStep s t x now (.exitTest u) (s, [.iterate u])
  | iterate {u : T} : FrameStep s t x now (.iterate u) (Lutask.iterate s u now)
  | procSleepDue {u : T} {n : ℕ} {y : Ctx T} {rest : List (Ctx T)}
      (hsleep : (s.sched u).sleepQueue = y :: rest) (hdue : (s.ctx y).tp ≤ WithTop.some n) :
      FrameStep s t x now (.procSleep u n)
        ((s.setSched u { s.sched u with sleepQueue := rest }).setCtx y { s.ctx y with tp := ⊤ },
          [.scheduleOn u y, .procSleep u n])
  | procSleepDone {u : T} {n : ℕ}
      (hsleep : ∀ y ∈ (s.sched u).sleepQueue.head?, ¬ (s.ctx y).tp ≤ WithTop.some n) :
      FrameStep s t x now (.procSleep u n) (s, [])
  | suspendUntilFlag {u : T} {tp : TimePoint} (hpolicy : (s.sched u).policy = .roundRobin)
      (hflag : (s.sched u).flag) :
      FrameStep s t x now (.suspendUntil u tp) (s.setSched u { s.sched u with flag := false }, [])
  | suspendUntilBlock {u : T} {tp : TimePoint} (hpolicy : (s.sched u).policy = .roundRobin)
      (hflag : (s.sched u).flag = false) :
      FrameStep s t x now (.suspendUntil u tp) (s, [.suspended u tp])
  | suspendUntilShared {u : T} {tp : TimePoint} (hpolicy : (s.sched u).policy = .sharedWork) :
      FrameStep s t x now (.suspendUntil u tp) (s, [])
  | suspended {u : T} {tp : TimePoint} (hawake : (s.sched u).flag ∨ tp ≤ WithTop.some now) :
      FrameStep s t x now (.suspended u tp) (s.setSched u { s.sched u with flag := false }, [])

/-- A call of `PickNext` that pops the policy's own queue takes one of its two branches. -/
theorem queuePop_inv {s : State T} {t : T} {x : Ctx T} {now : ℕ} {f : Frame T} {u : T}
    {k : Option (Switch T)} {r : Rest T}
    (hf : f = .pickLocal u k ∨ f = .pickNext u k ∧ (s.sched u).policy = .roundRobin)
    (h : queuePop s u k = some r) : FrameStep s t x now f r := by
  unfold queuePop at h
  split at h
  · rename_i y rest hqueue
    obtain rfl := Option.some.inj h
    exact .pop hf hqueue
  · rename_i hqueue
    simp only [Option.ite_none_right_eq_some, Option.some.injEq] at h
    obtain ⟨rfl, rfl⟩ := h
    exact .popEmpty hf hqueue

/-- A frame that can be executed takes one of its branches. -/
theorem execFrame_inv {s : State T} {t : T} {x : Ctx T} {now : ℕ} {f : Frame T} {r : Rest T}
    (h : execFrame s t x now f = some r) : FrameStep s t x now f r := by
  cases f with
  | postAttach w =>
    simp only [execFrame, attach, attachWorkerContext, Option.map_eq_some_iff,
      Option.bind_eq_some_iff, Option.ite_none_right_eq_some, Option.some.injEq] at h
    obtain ⟨_, ⟨u, hu, hmtx, rfl⟩, rfl⟩ := h
    exact .postAttach hu hmtx
  | schedule y =>
    obtain ⟨u, hu, rfl⟩ := Option.map_eq_some_iff.mp h
    exact .schedule hu
  | scheduleOn u y =>
    obtain rfl := Option.some.inj h
    exact .scheduleOn
  | wake y =>
    obtain ⟨u, hu, rfl⟩ := Option.map_eq_some_iff.mp h
    exact .wake hu
  | detach y =>
    obtain ⟨s', hdetach, rfl⟩ := Option.map_eq_some_iff.mp h
    unfold Lutask.detach at hdetach
    split at hdetach
    · rename_i hasync
      obtain rfl := Option.some.inj hdetach
      exact .detachAsync hasync
    · rename_i hasync
      obtain ⟨u, hu, rfl⟩ := Option.map_eq_some_iff.mp hdetach
      exact .detach hasync hu
  | readyPush y =>
    obtain rfl := Option.some.inj h
    exact .readyPush
  | pickNext u k =>
    simp only [execFrame, Lutask.pickNext] at h
    split at h
    · rename_i hpolicy
      exact queuePop_inv (.inr ⟨rfl, hpolicy⟩) h
    · rename_i hpolicy
      obtain rfl := Option.some.inj h
      unfold sharedWorkPickNext
      split
      · rename_i y rest hready
        exact .pickReady hpolicy hready
      · rename_i hready
        exact .pickReadyEmpty hpolicy hready
  | pickLocal u k => exact queuePop_inv (.inl rfl) h
  | attachResume y k =>
    simp only [execFrame, attach, attachWorkerContext, Option.map_eq_some_iff,
      Option.bind_eq_some_iff, Option.ite_none_right_eq_some, Option.some.injEq] at h
    obtain ⟨_, ⟨u, hu, hmtx, rfl⟩, rfl⟩ := h
    exact .attachResume hu hmtx
  | resume y k => simp [execFrame] at h
  | returnToMain u => simp [execFrame] at h
  | save prev k =>
    obtain ⟨stack, hfctx, rfl⟩ := Option.map_eq_some_iff.mp h
    exact .save hfctx
  | schedulerTerminate y =>
    simp only [execFrame, Lutask.schedulerTerminate, Option.bind_eq_some_iff,
      Option.ite_none_right_eq_some, Option.some.injEq] at h
    obtain ⟨u, hu, hmtx, rfl⟩ := h
    exact .schedulerTerminate hu hmtx
  | terminateRemove u y =>
    obtain rfl := Option.some.inj h
    exact .terminateRemove
  | unlockMtx u =>
    obtain rfl := Option.some.inj h
    exact .unlockMtx
  | suspendAndWait q y =>
    obtain rfl := Option.some.inj h
    exact .suspendAndWait
  | suspend q y =>
    obtain ⟨u, hu, rfl⟩ := Option.map_eq_some_iff.mp h
    exact .suspend hu
  | wait q l y =>
    simp only [execFrame, lockM, Option.ite_none_right_eq_some, Option.some.injEq] at h
    obtain ⟨hm, rfl⟩ := h
    exact .wait hm
  | waitUnlock q l y =>
    simp only [execFrame, Lutask.waitUnlock, Option.ite_none_right_eq_some, Option.some.injEq] at h
    obtain ⟨hl, rfl⟩ := h
    exact .waitUnlock hl
  | relock q l p y =>
    simp only [execFrame, Lutask.relock, Option.ite_none_right_eq_some, Option.some.injEq] at h
    obtain ⟨hl, rfl⟩ := h
    exact .relock hl
  | waitPred q l p y =>
    obtain rfl := Option.some.inj h
    cases hp : s.preds p with
    | true => simpa only [Lutask.waitPred, hp, if_true] using FrameStep.waitPredTrue hp
    | false =>
      simpa only [Lutask.waitPred, hp, Bool.false_eq_true, if_false] using FrameStep.waitPredFalse hp
  | cvNotifyOne q =>
    simp only [execFrame, lockM, Option.ite_none_right_eq_some, Option.some.injEq] at h
    obtain ⟨hm, rfl⟩ := h
    exact .cvNotifyOne hm
  | cvNotifyAll q =>
    simp only [execFrame, lockM, Option.ite_none_right_eq_some, Option.some.injEq] at h
    obtain ⟨hm, rfl⟩ := h
    exact .cvNotifyAll hm
  | notifyOne q =>
    obtain rfl := Option.some.inj h
    unfold Lutask.notifyOne
    split
    · rename_i hwaits
      exact .notifyOneEmpty hwaits
    · rename_i y rest hwaits
      exact .notifyOne hwaits
  | notifyAll q =>
    obtain rfl := Option.some.inj h
    unfold Lutask.notifyAll
    split
    · rename_i hwaits
      exact .notifyAllEmpty hwaits
    · rename_i y rest hwaits
      exact .notifyAll hwaits
  | unlockM q =>
    obtain rfl := Option.some.inj h
    exact .unlockM
  | destroy u =>
    obtain rfl := Option.some.inj h
    exact .destroy
  | dispatch u =>
    obtain rfl := Option.some.inj h
    cases hshut : (s.sched u).shutdown with
    | true => simpa only [Lutask.dispatch, hshut, if_true] using FrameStep.dispatchShutdown hshut
    | false =>
      simpa only [Lutask.dispatch, hshut, Bool.false_eq_true, if_false] using FrameStep.dispatch hshut
  | exitTest u =>
    obtain rfl := Option.some.inj h
    by_cases hworkers : (s.sched u).workerQueue = []
    · simpa only [Lutask.exitTest, hworkers, if_true] using FrameStep.exit hworkers
    · simpa only [Lutask.exitTest, hworkers, if_false] using FrameStep.stay hworkers
  | iterate u =>
    obtain rfl := Option.some.inj h
    exact .iterate
  | procSleep u n =>
    obtain rfl := Option.some.inj h
    unfold Lutask.procSleep
    split
    · rename_i hsleep
      exact .procSleepDone (by simp [hsleep])
    · rename_i y rest hsleep
      split
      · rename_i hdue
        exact .procSleepDue hsleep hdue
      · rename_i hdue
        exact .procSleepDone (by simpa [hsleep] using hdue)
  | suspendUntil u tp =>
    obtain rfl := Option.some.inj h
    unfold Lutask.suspendUntil
    split
    · rename_i hpolicy
      split
      · rename_i hflag
        exact .suspendUntilFlag hpolicy hflag
      · rename_i hflag
        exact .suspendUntilBlock hpolicy (by simpa using hflag)
    · rename_i hpolicy
      exact .suspendUntilShared hpolicy
  | suspended u tp =>
    simp only [execFrame, Lutask.suspended, Option.ite_none_right_eq_some, Option.some.injEq] at h
    obtain ⟨hawake, rfl⟩ := h
    exact .suspended hawake

/-- The state after `active_` and the stacks were exchanged in favour of `y`. -/
def switched (s : State T) (t : T) (prev : Ctx T) (rest : List (Frame T)) (y : Ctx T) (k : Switch T)
    (stack : List (Frame T)) : State T :=
  (s.setCtx y { s.ctx y with c := none }).setThread t ⟨some y, .save prev k :: stack, some rest⟩

@[simp] theorem switched_scheduler (s : State T) (t : T) (prev : Ctx T) (rest : List (Frame T))
    (y : Ctx T) (k : Switch T) (stack : List (Frame T)) (z : Ctx T) :
    ((switched s t prev rest y k stack).ctx z).scheduler = (s.ctx z).scheduler := by
  by_cases hz : z = y <;> simp [switched, hz]

@[simp] theorem switched_terminated (s : State T) (t : T) (prev : Ctx T) (rest : List (Frame T))
    (y : Ctx T) (k : Switch T) (stack : List (Frame T)) (z : Ctx T) :
    ((switched s t prev rest y k stack).ctx z).terminated = (s.ctx z).terminated := by
  by_cases hz : z = y <;> simp [switched, hz]

/-- The three kinds of steps: a call, a frame executed in place, and a switch to another context. -/
inductive MachineStep (s : State T) : Event T → State T → Prop
  | call {t : T} {x : Ctx T} {op : Op T} {r : Rest T} (hactive : (s.thread t).active = some x)
      (hstack : (s.thread t).stack = []) (huser : x.runsUserCode) (hop : OpStep s x op r) :
      MachineStep s (.call t x op) (r.1.setStack t r.2)
  | frame {t : T} {x : Ctx T} {f : Frame T} {now : ℕ} {rest : List (Frame T)} {r : Rest T}
      (hactive : (s.thread t).active = some x) (hstack : (s.thread t).stack = f :: rest)
      (hframe : FrameStep s t x now f r) :
      MachineStep s (.exec t x f now) (r.1.setStack t (r.2 ++ rest))
  | switch {t : T} {x y : Ctx T} {f : Frame T} {k : Switch T} {now : ℕ} {rest stack : List (Frame T)}
      (hactive : (s.thread t).active = some x) (hstack : (s.thread t).stack = f :: rest)
      (htarget : f.target = some (y, k)) (hc : (s.ctx y).c = some stack) :
      MachineStep s (.exec t x f now) (switched s t x rest y k stack)

/-- Every step of the machine is of one of the three kinds. -/
theorem step_inv {s s' : State T} {e : Event T} (h : step s e = some s') : MachineStep s e s' := by
  cases e with
  | call t x op =>
    simp only [step, Option.ite_none_right_eq_some, Option.map_eq_some_iff] at h
    obtain ⟨⟨hactive, hstack, huser⟩, r, hop, rfl⟩ := h
    exact .call hactive hstack huser (callOp_inv hop)
  | exec t x f now =>
    simp only [step, Option.ite_none_right_eq_some] at h
    obtain ⟨⟨hactive, hhead⟩, h⟩ := h
    obtain ⟨rest, hstack⟩ := List.head?_eq_some_iff.mp hhead
    rw [hstack, List.tail_cons] at h
    unfold exec at h
    split at h
    · rename_i y k htarget
      obtain ⟨stack, hc, rfl⟩ := Option.map_eq_some_iff.mp h
      exact .switch hactive hstack htarget hc
    · obtain ⟨r, hframe, rfl⟩ := Option.map_eq_some_iff.mp h
      exact .frame hactive hstack (execFrame_inv hframe)

/-- An operation is called by the active context of a thread in the user's own code. -/
theorem step_call {s s' : State T} {t : T} {x : Ctx T} {op : Op T}
    (h : step s (.call t x op) = some s') :
    (s.thread t).active = some x ∧ (s.thread t).stack = [] ∧
      ∃ r, OpStep s x op r ∧ s' = r.1.setStack t r.2 := by
  cases step_inv h with
  | call hactive hstack huser hop => exact ⟨hactive, hstack, _, hop, rfl⟩

/-- A frame whose action can be executed makes a step. -/
theorem step_of_execFrame {s : State T} {t : T} {x : Ctx T} {f : Frame T} {now : ℕ}
    {rest : List (Frame T)} {r : Rest T} (hactive : (s.thread t).active = some x)
    (hstack : (s.thread t).stack = f :: rest) (htarget : f.target = none)
    (hr : execFrame s t x now f = some r) :
    step s (.exec t x f now) = some (r.1.setStack t (r.2 ++ rest)) := by
  simp [step, exec, hactive, hstack, htarget, hr]

/-- A frame is executed on top of the stack of its thread. -/
theorem step_exec {s s' : State T} {t : T} {x : Ctx T} {f : Frame T} {now : ℕ}
    (h : step s (.exec t x f now) = some s') :
    (s.thread t).active = some x ∧ ∃ rest, (s.thread t).stack = f :: rest := by
  cases step_inv h with
  | frame hactive hstack hframe => exact ⟨hactive, _, hstack⟩
  | switch hactive hstack htarget hc => exact ⟨hactive, _, hstack⟩

end Lutask
