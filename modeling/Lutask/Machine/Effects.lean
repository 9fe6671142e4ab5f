import Lutask.Machine.Inversion

/-!
# Which objects a step writes

A frame executed in place writes the stack of its own thread, and of the contexts only the
ones named here. The lemmas say for each member what may happen to it, so that an invariant
about one member does not look at the functions that leave it alone.
-/

namespace Lutask

open LabelledRuns

variable {T : Type*} [DecidableEq T] {s : State T} {t : T} {x : Ctx T} {now : ℕ} {f : Frame T}
  {op : Op T} {r : Rest T}

section Schedule

@[simp] theorem schedule_ctx (s : State T) (u : T) (y : Ctx T) : (schedule s u y).1.ctx = s.ctx := by
  rcases schedule_cases s u y with ⟨-, h⟩ | ⟨-, -, h⟩
  · rw [h]
    rfl
  · rw [h]

@[simp] theorem schedule_thread (s : State T) (u : T) (y : Ctx T) :
    (schedule s u y).1.thread = s.thread := by
  rcases schedule_cases s u y with ⟨-, h⟩ | ⟨-, -, h⟩
  · rw [h]
    rfl
  · rw [h]

@[simp] theorem schedule_readyQueue (s : State T) (u : T) (y : Ctx T) :
    (schedule s u y).1.readyQueue = s.readyQueue := by
  rcases schedule_cases s u y with ⟨-, h⟩ | ⟨-, -, h⟩
  · rw [h]
    rfl
  · rw [h]

@[simp] theorem schedule_waits (s : State T) (u : T) (y : Ctx T) :
    (schedule s u y).1.waits = s.waits := by
  rcases schedule_cases s u y with ⟨-, h⟩ | ⟨-, -, h⟩
  · rw [h]
    rfl
  · rw [h]

@[simp] theorem schedule_m (s : State T) (u : T) (y : Ctx T) : (schedule s u y).1.m = s.m := by
  rcases schedule_cases s u y with ⟨-, h⟩ | ⟨-, -, h⟩
  · rw [h]
    rfl
  · rw [h]

@[simp] theorem schedule_lt (s : State T) (u : T) (y : Ctx T) : (schedule s u y).1.lt = s.lt := by
  rcases schedule_cases s u y with ⟨-, h⟩ | ⟨-, -, h⟩
  · rw [h]
    rfl
  · rw [h]

@[simp] theorem schedule_preds (s : State T) (u : T) (y : Ctx T) :
    (schedule s u y).1.preds = s.preds := by
  rcases schedule_cases s u y with ⟨-, h⟩ | ⟨-, -, h⟩
  · rw [h]
    rfl
  · rw [h]

@[simp] theorem schedule_fresh (s : State T) (u : T) (y : Ctx T) :
    (schedule s u y).1.fresh = s.fresh := by
  rcases schedule_cases s u y with ⟨-, h⟩ | ⟨-, -, h⟩
  · rw [h]
    rfl
  · rw [h]

@[simp] theorem notify_ctx (s : State T) (u : T) : (notify s u).ctx = s.ctx := by
  unfold notify
  split <;> rfl

@[simp] theorem notify_fresh (s : State T) (u : T) : (notify s u).fresh = s.fresh := by
  unfold notify
  split <;> rfl

@[simp] theorem notify_thread (s : State T) (u : T) : (notify s u).thread = s.thread := by
  unfold notify
  split <;> rfl

/-- `Awakened` changes no member of a scheduler other than its queue. -/
theorem schedule_sched (s : State T) (u : T) (y : Ctx T) (v : T) :
    (schedule s u y).1.sched v = { s.sched v with queue := ((schedule s u y).1.sched v).queue } := by
  rcases schedule_cases s u y with ⟨-, h⟩ | ⟨-, -, h⟩
  · rw [h]
    by_cases hv : v = u <;> simp [queuePush, hv]
  · rw [h]

@[simp] theorem schedule_policy (s : State T) (u : T) (y : Ctx T) (v : T) :
    ((schedule s u y).1.sched v).policy = (s.sched v).policy := by
  rw [schedule_sched]

@[simp] theorem schedule_shutdown (s : State T) (u : T) (y : Ctx T) (v : T) :
    ((schedule s u y).1.sched v).shutdown = (s.sched v).shutdown := by
  rw [schedule_sched]

@[simp] theorem schedule_workerQueue (s : State T) (u : T) (y : Ctx T) (v : T) :
    ((schedule s u y).1.sched v).workerQueue = (s.sched v).workerQueue := by
  rw [schedule_sched]

@[simp] theorem schedule_terminatedQueue (s : State T) (u : T) (y : Ctx T) (v : T) :
    ((schedule s u y).1.sched v).terminatedQueue = (s.sched v).terminatedQueue := by
  rw [schedule_sched]

@[simp] theorem schedule_sleepQueue (s : State T) (u : T) (y : Ctx T) (v : T) :
    ((schedule s u y).1.sched v).sleepQueue = (s.sched v).sleepQueue := by
  rw [schedule_sched]

@[simp] theorem schedule_mtx (s : State T) (u : T) (y : Ctx T) (v : T) :
    ((schedule s u y).1.sched v).mtx = (s.sched v).mtx := by
  rw [schedule_sched]

@[simp] theorem schedule_deleted (s : State T) (u : T) (y : Ctx T) (v : T) :
    ((schedule s u y).1.sched v).deleted = (s.sched v).deleted := by
  rw [schedule_sched]

@[simp] theorem schedule_flag (s : State T) (u : T) (y : Ctx T) (v : T) :
    ((schedule s u y).1.sched v).flag = (s.sched v).flag := by
  rw [schedule_sched]

/-- `Notify` changes no member of a scheduler other than its flag. -/
theorem notify_sched (s : State T) (u v : T) :
    (notify s u).sched v = { s.sched v with flag := ((notify s u).sched v).flag } := by
  unfold notify
  split
  · by_cases hv : v = u <;> simp [hv]
  · rfl

@[simp] theorem notify_policy (s : State T) (u v : T) :
    ((notify s u).sched v).policy = (s.sched v).policy := by
  rw [notify_sched]

@[simp] theorem notify_shutdown (s : State T) (u v : T) :
    ((notify s u).sched v).shutdown = (s.sched v).shutdown := by
  rw [notify_sched]

@[simp] theorem notify_workerQueue (s : State T) (u v : T) :
    ((notify s u).sched v).workerQueue = (s.sched v).workerQueue := by
  rw [notify_sched]

@[simp] theorem notify_terminatedQueue (s : State T) (u v : T) :
    ((notify s u).sched v).terminatedQueue = (s.sched v).terminatedQueue := by
  rw [notify_sched]

@[simp] theorem notify_sleepQueue (s : State T) (u v : T) :
    ((notify s u).sched v).sleepQueue = (s.sched v).sleepQueue := by
  rw [notify_sched]

@[simp] theorem notify_mtx (s : State T) (u v : T) :
    ((notify s u).sched v).mtx = (s.sched v).mtx := by
  rw [notify_sched]

@[simp] theorem notify_deleted (s : State T) (u v : T) :
    ((notify s u).sched v).deleted = (s.sched v).deleted := by
  rw [notify_sched]

@[simp] theorem notify_queue (s : State T) (u v : T) :
    ((notify s u).sched v).queue = (s.sched v).queue := by
  rw [notify_sched]

end Schedule

section Threads

/-- An operation's first action writes no thread. -/
theorem OpStep.thread (h : OpStep s x op r) : r.1.thread = s.thread := by
  cases h <;> rfl

/-- A frame writes no other thread. -/
theorem FrameStep.thread_of_ne (h : FrameStep s t x now f r) {v : T} (hv : v ≠ t) :
    r.1.thread v = s.thread v := by
  cases h <;> simp [hv, workerQueuePush, detachWorkerContext, workerQueueRemove, Lutask.terminateRemove,
    Lutask.destroy, Lutask.iterate, procTerminated]

/-- Only the end of `~Scheduler` changes `active_` without a switch. -/
theorem FrameStep.active (h : FrameStep s t x now f r) :
    (r.1.thread t).active = (s.thread t).active ∨ ∃ u, f = .destroy u ∧ (r.1.thread t).active = none := by
  cases h with
  | destroy => exact .inr ⟨_, rfl, by simp [Lutask.destroy]⟩
  | _ => exact .inl (by simp [workerQueuePush, detachWorkerContext, workerQueueRemove,
      Lutask.terminateRemove, Lutask.iterate, procTerminated])

/-- A step writes no other thread. -/
theorem step_thread_of_ne {e : Event T} {s' : State T} (h : step s e = some s') {v : T}
    (hv : v ≠ e.thread) : s'.thread v = s.thread v := by
  cases step_inv h with
  | @call t x op r hactive hstack huser hop =>
    have hvt : v ≠ t := hv
    rw [State.setStack_thread_of_ne _ hvt, hop.thread]
  | @frame t x f now rest r hactive hstack hframe =>
    have hvt : v ≠ t := hv
    rw [State.setStack_thread_of_ne _ hvt, hframe.thread_of_ne hvt]
  | @switch t x y f k now rest stack hactive hstack htarget hc =>
    have hvt : v ≠ t := hv
    simp [switched, hvt]

/-- A thread whose stack is not empty executes its topmost frame, in place or by a switch. -/
theorem step_top {e : Event T} {s' : State T} {rest : List (Frame T)} (h : step s e = some s')
    (ht : e.thread = t) (htop : (s.thread t).stack = f :: rest) :
    ∃ x now, e = .exec t x f now ∧ (s.thread t).active = some x ∧
      ((∃ r, FrameStep s t x now f r ∧ s' = r.1.setStack t (r.2 ++ rest)) ∨
        ∃ y k stack, f.target = some (y, k) ∧ (s.ctx y).c = some stack ∧
          s' = switched s t x rest y k stack) := by
  subst ht
  cases step_inv h with
  | call hactive hstack huser hop => exact absurd (hstack.symm.trans htop) (by simp)
  | frame hactive hstack hframe =>
    obtain ⟨rfl, rfl⟩ := List.cons.inj (hstack.symm.trans htop)
    exact ⟨_, _, rfl, hactive, .inl ⟨_, hframe, rfl⟩⟩
  | switch hactive hstack htarget hc =>
    obtain ⟨rfl, rfl⟩ := List.cons.inj (hstack.symm.trans htop)
    exact ⟨_, _, rfl, hactive, .inr ⟨_, _, _, htarget, hc, rfl⟩⟩

/-- Only `save` takes the continuation that was handed over. -/
theorem FrameStep.fctx (h : FrameStep s t x now f r) :
    (∀ prev k, f ≠ .save prev k) ∧ (r.1.thread t).fctx = (s.thread t).fctx ∨
      ∃ prev k, f = .save prev k ∧ (r.1.thread t).fctx = none := by
  cases h with
  | save hfctx => exact .inr ⟨_, _, rfl, by simp⟩
  | pop hf hqueue | popEmpty hf hqueue =>
    rcases hf with rfl | ⟨rfl, -⟩ <;> exact .inl ⟨by simp, by simp⟩
  | _ => exact .inl ⟨by simp, by simp [workerQueuePush, detachWorkerContext, workerQueueRemove,
      Lutask.terminateRemove, Lutask.destroy, Lutask.iterate, procTerminated]⟩

end Threads

section Continuations

/-- An operation leaves every `c_` alone, except that a new worker starts with an empty stack. -/
theorem OpStep.c (h : OpStep s x op r) (y : Ctx T) :
    (r.1.ctx y).c = (s.ctx y).c ∨
      (∃ launch, op = .start launch) ∧ y = .worker s.fresh ∧ (r.1.ctx y).c = some [] := by
  cases h with
  | start launch =>
    by_cases hy : y = .worker s.fresh
    · exact .inr ⟨⟨launch, rfl⟩, hy, by simp [Lutask.start, hy]⟩
    · exact .inl (by simp [Lutask.start, hy])
  | yieldOrigin hu horigin | waitUntil hu | terminate hpin =>
    refine .inl ?_
    by_cases hy : y = x <;> simp [hy, workerQueueRemove, Lutask.waitUntil, Lutask.terminate]
  | _ => exact .inl rfl

/-- A frame leaves every `c_` alone, except that `save` stores the one handed over. -/
theorem FrameStep.c (h : FrameStep s t x now f r) (y : Ctx T) :
    (r.1.ctx y).c = (s.ctx y).c ∨
      ∃ k, f = .save y k ∧ (s.thread t).fctx ≠ none ∧ (r.1.ctx y).c = (s.thread t).fctx := by
  cases h with
  | @save prev k stack hfctx =>
    by_cases hy : y = prev
    · subst hy
      exact .inr ⟨k, rfl, by simp [hfctx], by simp [hfctx]⟩
    · exact .inl (by simp [hy])
  | @postAttach u w hu hmtx | @attachResume u w k hu hmtx =>
    refine .inl ?_
    by_cases hy : y = w <;> simp [hy, workerQueuePush]
  | @detach u w hasync hu =>
    refine .inl ?_
    by_cases hy : y = w <;> simp [hy, detachWorkerContext, workerQueueRemove]
  | @procSleepDue u n w rest hsleep hdue =>
    refine .inl ?_
    by_cases hy : y = w <;> simp [hy]
  | _ => exact .inl (by simp [Lutask.terminateRemove, Lutask.destroy, Lutask.iterate, procTerminated])

end Continuations

section WaitQueues

/-- An operation writes no wait queue in its first action. -/
theorem OpStep.waits (h : OpStep s x op r) : r.1.waits = s.waits := by
  cases h <;> rfl

/-- What a frame does to a wait queue: `SuspendAndWait` pushes a context and a notification pops one to
wake it. -/
theorem FrameStep.waits_cases (h : FrameStep s t x now f r) (q : WaitQueue T) :
    r.1.waits q = s.waits q ∨
      (∃ y, f = .suspendAndWait q y ∧ r.1.waits q = s.waits q ++ [y]) ∨
      ∃ y, s.waits q = y :: r.1.waits q ∧
        (f = .notifyOne q ∧ r.2 = .wake y :: q.afterNotify ∨
          f = .notifyAll q ∧ r.2 = [.wake y, .notifyAll q]) := by
  cases h with
  | @notifyOne q' z rest hwaits =>
    by_cases hq : q = q'
    · subst hq
      exact .inr (.inr ⟨z, by simpa using hwaits, .inl ⟨rfl, rfl⟩⟩)
    · exact .inl (by simp [hq])
  | @notifyAll q' z rest hwaits =>
    by_cases hq : q = q'
    · subst hq
      exact .inr (.inr ⟨z, by simpa using hwaits, .inr ⟨rfl, rfl⟩⟩)
    · exact .inl (by simp [hq])
  | @suspendAndWait q' z =>
    by_cases hq : q = q'
    · subst hq
      exact .inr (.inl ⟨z, rfl, by simp⟩)
    · exact .inl (by simp [hq])
  | dispatchShutdown =>
    left
    simp only [notify]
    split <;> rfl
  | schedule hu | wake hu | scheduleOn => exact .inl (by simp)
  | _ => exact .inl rfl

/-- Only a notification takes a context out of a wait queue. -/
theorem FrameStep.waits (h : FrameStep s t x now f r) {q : WaitQueue T}
    {y : Ctx T} (hy : y ∈ s.waits q) : y ∈ r.1.waits q ∨ f = .notifyOne q ∨ f = .notifyAll q := by
  rcases h.waits_cases q with hsame | ⟨z, -, hpush⟩ | ⟨z, -, hnotify⟩
  · exact .inl (hsame ▸ hy)
  · exact .inl (by simp [hpush, hy])
  · exact .inr (hnotify.imp And.left And.left)

/-- Only `SuspendAndWait` puts a context into a wait queue. -/
theorem FrameStep.waited (h : FrameStep s t x now f r) {q : WaitQueue T} {y : Ctx T}
    (hy : y ∈ r.1.waits q) : y ∈ s.waits q ∨ f = .suspendAndWait q y := by
  rcases h.waits_cases q with hsame | ⟨z, rfl, hpush⟩ | ⟨z, hpop, -⟩
  · exact .inl (hsame ▸ hy)
  · rw [hpush, List.mem_append, List.mem_singleton] at hy
    exact hy.imp_right fun hyz => by rw [hyz]
  · exact .inl (by simp [hpop, hy])

/-- The context in whose `waitList_` a frame is about to wait. -/
def Frame.joins : Frame T → Option (Ctx T)
  | .suspendAndWait (.waitList w) _ => some w
  | _ => none

/-- Only `Context::Join` waits for a context, when that has not terminated. -/
theorem OpStep.joins (h : OpStep s x op r) {w : Ctx T} (hf : f ∈ r.2) (hw : f.joins = some w) :
    op = .join w ∧ (s.ctx w).terminated = false := by
  cases h with
  | @join w' hstarted hpin hterm =>
    obtain rfl : f = .suspendAndWait (.waitList w') x := by simpa using hf
    obtain rfl : w' = w := by simpa [Frame.joins] using hw
    exact ⟨rfl, hterm⟩
  | start launch => cases launch <;> simp [Lutask.start] at hf <;> simp [hf, Frame.joins] at hw
  | yield | yieldOrigin | yieldOriginNone | waitUntil | waitPred | notifyOne | notifyAll =>
    simp [Lutask.yield, Lutask.waitUntil] at hf
    simp [hf, Frame.joins] at hw
  | wait | terminate | destructor =>
    simp [Lutask.terminate, Lutask.destructor] at hf
    rcases hf with rfl | rfl <;> simp [Frame.joins] at hw
  | _ => simp at hf

/-- No frame starts to wait for a context. -/
theorem FrameStep.joins (h : FrameStep s t x now f r) : ∀ g ∈ r.2, g.joins = none := by
  cases h with
  | schedule hu | wake hu | scheduleOn =>
    rcases schedule_cases s _ _ with ⟨-, hr⟩ | ⟨-, -, hr⟩ <;> rw [hr] <;> simp [Frame.joins]
  | @save prev k stack hfctx => cases k <;> simp [Switch.onTop, Frame.joins]
  | @relock q l p y hl => cases p <;> simp [relockNext, Frame.joins]
  | @notifyOne q y rest hwaits | @notifyOneEmpty q hwaits | @notifyAllEmpty q hwaits =>
    cases q <;> simp [WaitQueue.afterNotify, Frame.joins]
  | _ => simp [Lutask.iterate, Lutask.terminateRemove, Lutask.destroy, Frame.joins]

/-- The `waitList_` of a context is notified by its own `Terminate` only. -/
theorem OpStep.notifies (h : OpStep s x op r) {w : Ctx T} :
    .notifyOne (.waitList w) ∉ r.2 ∧ (.notifyAll (.waitList w) ∈ r.2 → op = .terminate ∧ w = x) := by
  cases h with
  | start launch => cases launch <;> simp [Lutask.start]
  | _ => simp [Lutask.yield, Lutask.waitUntil, Lutask.terminate, Lutask.destructor]

theorem FrameStep.notifies (h : FrameStep s t x now f r) {w : Ctx T} :
    .notifyOne (.waitList w) ∉ r.2 ∧
      (.notifyAll (.waitList w) ∈ r.2 → f = .notifyAll (.waitList w)) := by
  cases h with
  | schedule hu | wake hu | scheduleOn =>
    rcases schedule_cases s _ _ with ⟨-, hr⟩ | ⟨-, -, hr⟩ <;> rw [hr] <;> simp
  | @save prev k stack hfctx => cases k <;> simp [Switch.onTop]
  | @relock q l p y hl => cases p <;> simp [relockNext]
  | @notifyOne q y rest hwaits | @notifyOneEmpty q hwaits | @notifyAllEmpty q hwaits =>
    cases q <;> simp [WaitQueue.afterNotify]
  | notifyAll hwaits => simp [eq_comm]
  | _ => simp [Lutask.iterate, Lutask.terminateRemove, Lutask.destroy]

end WaitQueues

section UserLocks

/-- The operations that write a user's lock take it when it is free, and give it back. -/
theorem OpStep.lt (h : OpStep s x op r) (l : ℕ) :
    r.1.lt l = s.lt l ∨ s.lt l = none ∨ op = .unlock l ∧ s.lt l = some x := by
  cases h with
  | @lock l' hl =>
    by_cases hll : l = l'
    · exact .inr (.inl (hll ▸ hl))
    · exact .inl (by simp [hll])
  | @unlock l' hl =>
    by_cases hll : l = l'
    · exact .inr (.inr ⟨by rw [hll], hll ▸ hl⟩)
    · exact .inl (by simp [hll])
  | _ => exact .inl rfl

/-- `Wait` gives the lock of its caller back, and takes it again when it is free. -/
theorem FrameStep.lt (h : FrameStep s t x now f r) (l : ℕ) :
    r.1.lt l = s.lt l ∨ (∃ q y, f = .waitUnlock q l y ∧ s.lt l = some y) ∨
      ∃ q p y, f = .relock q l p y ∧ s.lt l = none ∧ r.1.lt l = some y := by
  cases h with
  | @waitUnlock q l' y hl =>
    by_cases hll : l = l'
    · subst hll
      exact .inr (.inl ⟨q, y, rfl, hl⟩)
    · exact .inl (by simp [hll])
  | @relock q l' p y hl =>
    by_cases hll : l = l'
    · subst hll
      exact .inr (.inr ⟨q, p, y, rfl, hl, by simp⟩)
    · exact .inl (by simp [hll])
  | schedule hu | wake hu | scheduleOn => exact .inl (by simp)
  | dispatchShutdown =>
    left
    simp only [notify]
    split <;> rfl
  | _ => exact .inl rfl

end UserLocks

section Ownership

/-- Operations leave `scheduler_` alone, except that a new worker has none and `YieldOrigin` clears the
one of a context that has another thread to return to. -/
theorem OpStep.scheduler_cases {op : Op T} {r : Rest T} (h : OpStep s x op r) (y : Ctx T) :
    (r.1.ctx y).scheduler = (s.ctx y).scheduler ∨
      (y = .worker s.fresh ∧ (∃ launch, op = .start launch) ∧ (r.1.ctx y).scheduler = none) ∨
        y = x ∧ op = .yieldOrigin ∧ (s.ctx x).originScheduler ≠ none ∧
          (r.1.ctx y).scheduler = none := by
  cases h with
  | start launch =>
    by_cases hy : y = .worker s.fresh
    · exact .inr (.inl ⟨hy, ⟨launch, rfl⟩, by simp [Lutask.start, hy]⟩)
    · exact .inl (by simp [Lutask.start, hy])
  | yieldOrigin hu horigin =>
    by_cases hy : y = x
    · exact .inr (.inr ⟨hy, rfl, by simp [horigin], by simp [hy]⟩)
    · exact .inl (by simp [workerQueueRemove, hy])
  | terminate | waitUntil =>
    left
    by_cases hy : y = x <;> simp [Lutask.terminate, Lutask.waitUntil, hy]
  | _ => exact .inl rfl

/-- Operations other than `YieldOrigin` leave `scheduler_` alone, except that a new worker has none. -/
theorem OpStep.scheduler {op : Op T} {r : Rest T} (h : OpStep s x op r) (hop : op.strays = false)
    (y : Ctx T) : (r.1.ctx y).scheduler = (s.ctx y).scheduler ∨
      y = .worker s.fresh ∧ (∃ launch, op = .start launch) ∧ (r.1.ctx y).scheduler = none := by
  rcases h.scheduler_cases y with hsame | hnew | ⟨-, rfl, -⟩
  · exact .inl hsame
  · exact .inr hnew
  · simp [Op.strays] at hop

/-- Only attaching and detaching write `scheduler_`, of the context in their hand. -/
theorem FrameStep.scheduler {f : Frame T} {r : Rest T} (h : FrameStep s t x now f r) (y : Ctx T) :
    (r.1.ctx y).scheduler = (s.ctx y).scheduler ∨
      (f = .postAttach y ∨ ∃ k, f = .attachResume y k) ∧
        (r.1.ctx y).scheduler = (s.ctx x).scheduler ∨
      f = .detach y ∧ (r.1.ctx y).scheduler = none := by
  cases h with
  | @postAttach u w hu hmtx =>
    by_cases hy : y = w
    · exact .inr (.inl ⟨.inl (by rw [hy]), by simp [workerQueuePush, hy, hu]⟩)
    · exact .inl (by simp [workerQueuePush, hy])
  | @attachResume u w k hu hmtx =>
    by_cases hy : y = w
    · exact .inr (.inl ⟨.inr ⟨k, by rw [hy]⟩, by simp [workerQueuePush, hy, hu]⟩)
    · exact .inl (by simp [workerQueuePush, hy])
  | @detach u w hasync hu =>
    by_cases hy : y = w
    · exact .inr (.inr ⟨by rw [hy], by simp [detachWorkerContext, hy]⟩)
    · exact .inl (by simp [detachWorkerContext, workerQueueRemove, hy])
  | @save prev k stack hfctx =>
    left
    by_cases hy : y = prev <;> simp [hy]
  | @procSleepDue u n w rest hsleep hdue =>
    left
    by_cases hy : y = w <;> simp [hy]
  | schedule hu | wake hu | scheduleOn => exact .inl (by simp)
  | dispatchShutdown => exact .inl (by simp)
  | _ => exact .inl rfl

/-- Of the started contexts only the one that calls `Context::Terminate` terminates. -/
theorem OpStep.terminated_cases {op : Op T} {r : Rest T} (h : OpStep s x op r) {y : Ctx T}
    (hy : s.started y) : (r.1.ctx y).terminated = (s.ctx y).terminated ∨
      (op = .terminate ∧ y = x) ∧ (r.1.ctx y).terminated := by
  cases h with
  | start launch =>
    have hne : y ≠ .worker s.fresh := by
      rintro rfl
      simp [State.started] at hy
    exact .inl (by simp [Lutask.start, hne])
  | terminate hpin =>
    by_cases hyx : y = x
    · exact .inr ⟨⟨rfl, hyx⟩, by simp [Lutask.terminate, hyx]⟩
    · exact .inl (by simp [Lutask.terminate, hyx])
  | yieldOrigin | waitUntil =>
    left
    by_cases hyx : y = x <;> simp [workerQueueRemove, Lutask.waitUntil, hyx]
  | _ => exact .inl rfl

/-- A started context stays terminated. -/
theorem OpStep.terminated {op : Op T} {r : Rest T} (h : OpStep s x op r) {y : Ctx T}
    (hy : s.started y) (hterm : (s.ctx y).terminated) : (r.1.ctx y).terminated := by
  cases h.terminated_cases hy with
  | inl hsame => rwa [hsame]
  | inr hnew => exact hnew.2

theorem FrameStep.terminated {f : Frame T} {r : Rest T} (h : FrameStep s t x now f r) (y : Ctx T) :
    (r.1.ctx y).terminated = (s.ctx y).terminated := by
  cases h <;> simp [workerQueuePush, detachWorkerContext, workerQueueRemove, Lutask.terminateRemove,
    Lutask.destroy, Lutask.iterate, procTerminated, Function.update_apply] <;> split_ifs <;> simp_all

/-- A context terminates only by a call of `Context::Terminate`. -/
theorem step_terminates {e : Event T} {s' : State T} {y : Ctx T} (h : step s e = some s')
    (hterm : (s'.ctx y).terminated) : (s.ctx y).terminated ∨ ∃ t, e = .call t y .terminate := by
  cases step_inv h with
  | @call t x op r hactive hstack huser hop =>
    cases hop with
    | terminate hpin =>
      by_cases hy : y = x
      · exact .inr ⟨t, by rw [hy]⟩
      · exact .inl (by simpa [terminate, hy] using hterm)
    | start launch =>
      by_cases hy : y = .worker s.fresh
      · simp [start, hy] at hterm
      · exact .inl (by simpa [start, hy] using hterm)
    | yieldOrigin hu horigin | waitUntil hu =>
      left
      by_cases hy : y = x <;> simpa [workerQueueRemove, waitUntil, hy] using hterm
    | _ => exact .inl hterm
  | frame hactive hstack hframe => exact .inl (by simpa [hframe.terminated] using hterm)
  | switch hactive hstack htarget hc => exact .inl (by simpa using hterm)

/-- A started context stays terminated. -/
theorem step_terminated {e : Event T} {s' : State T} {y : Ctx T} (h : step s e = some s')
    (hy : s.started y) (hterm : (s.ctx y).terminated) : (s'.ctx y).terminated := by
  cases step_inv h with
  | call hactive hstack huser hop => exact hop.terminated hy hterm
  | frame hactive hstack hframe => simpa [hframe.terminated] using hterm
  | switch hactive hstack htarget hc => simpa using hterm

/-- An operation edits `workerQueue_` only to remove the context that yields. -/
theorem OpStep.workerQueue (h : OpStep s x op r) (u : T) :
    (r.1.sched u).workerQueue = (s.sched u).workerQueue ∨
      (op = .yield ∨ op = .yieldOrigin) ∧ (s.ctx x).scheduler = some u ∧
        (r.1.sched u).workerQueue = (s.sched u).workerQueue.filter (· ≠ x) := by
  cases h with
  | @yield v hu =>
    by_cases huv : u = v
    · exact .inr ⟨.inl rfl, huv ▸ hu, by simp [Lutask.yield, workerQueueRemove, huv]⟩
    · exact .inl (by simp [Lutask.yield, workerQueueRemove, huv])
  | @yieldOrigin v origin hu horigin | @yieldOriginNone v hu horigin =>
    by_cases huv : u = v
    · exact .inr ⟨.inr rfl, huv ▸ hu, by simp [workerQueueRemove, huv]⟩
    · exact .inl (by simp [workerQueueRemove, huv])
  | @waitUntil v tp hu | @destructor v hu =>
    left
    by_cases huv : u = v <;> simp [Lutask.waitUntil, Lutask.destructor, huv]
  | _ => exact .inl rfl

/-- A frame edits `workerQueue_` only to attach, detach or remove the context in its hand. -/
theorem FrameStep.workerQueue (h : FrameStep s t x now f r) (u : T) :
    (r.1.sched u).workerQueue = (s.sched u).workerQueue ∨
      (∃ y, (f = .postAttach y ∨ ∃ k, f = .attachResume y k) ∧ (s.ctx x).scheduler = some u ∧
        (r.1.sched u).workerQueue = (s.sched u).workerQueue ++ [y]) ∨
      ∃ y, (f = .detach y ∧ (s.ctx y).scheduler = some u ∨ f = .terminateRemove u y) ∧
        (r.1.sched u).workerQueue = (s.sched u).workerQueue.filter (· ≠ y) := by
  cases h with
  | @postAttach v w hu hmtx =>
    by_cases huv : u = v
    · exact .inr (.inl ⟨w, .inl rfl, huv ▸ hu, by simp [workerQueuePush, huv]⟩)
    · exact .inl (by simp [workerQueuePush, huv])
  | @attachResume v w k hu hmtx =>
    by_cases huv : u = v
    · exact .inr (.inl ⟨w, .inr ⟨k, rfl⟩, huv ▸ hu, by simp [workerQueuePush, huv]⟩)
    · exact .inl (by simp [workerQueuePush, huv])
  | @detach v w hasync hu =>
    by_cases huv : u = v
    · exact .inr (.inr ⟨w, .inl ⟨rfl, huv ▸ hu⟩, by
        simp [detachWorkerContext, workerQueueRemove, huv]⟩)
    · exact .inl (by simp [detachWorkerContext, workerQueueRemove, huv])
  | @terminateRemove v w =>
    by_cases huv : u = v
    · exact .inr (.inr ⟨w, .inr (by rw [huv]), by simp [Lutask.terminateRemove, huv]⟩)
    · exact .inl (by simp [Lutask.terminateRemove, huv])
  | schedule hu | wake hu | scheduleOn => exact .inl (by simp)
  | @pop f v k y rest hcase hqueue =>
    left
    by_cases huv : u = v <;> simp [huv]
  | dispatchShutdown => exact .inl (by simp)
  | @schedulerTerminate v w hu hmtx | @unlockMtx v | @destroy v | @exit v hworkers | @iterate v
  | @procSleepDue v n w rest hsleep hdue | @suspendUntilFlag v tp hpol hflag | @suspended v tp hawake =>
    left
    by_cases huv : u = v <;>
      simp [Lutask.destroy, procTerminated, Lutask.iterate, huv]
  | _ => exact .inl rfl

end Ownership

section Queues

/-- The scheduler whose `Awakened` a frame of context `x` calls. -/
def Frame.awakens (s : State T) (x : Ctx T) : Frame T → Option T
  | .schedule _ => (s.ctx x).scheduler
  | .scheduleOn u _ => some u
  | .wake y => (s.ctx y).scheduler
  | _ => none

/-- An operation writes no ready queue in its first action. -/
theorem OpStep.queue (h : OpStep s x op r) (u : T) : (r.1.sched u).queue = (s.sched u).queue := by
  cases h <;> simp [Lutask.start, Lutask.yield, Lutask.waitUntil, Lutask.terminate, Lutask.destructor,
    workerQueueRemove, Function.update_apply] <;> split_ifs <;> simp_all

/-- An operation does not write the static queue in its first action. -/
theorem OpStep.readyQueue (h : OpStep s x op r) : r.1.readyQueue = s.readyQueue := by
  cases h <;> rfl

/-- What a frame does to a policy's own queue: `Awakened` pushes a context, of a work-sharing policy a
pinned one only, and `PickNext` pops the front. -/
theorem FrameStep.queue_cases (h : FrameStep s t x now f r) (u : T) :
    (r.1.sched u).queue = (s.sched u).queue ∨
      (∃ y, ((s.sched u).policy = .roundRobin ∨ y.isPinned) ∧ f.awakens s x = some u ∧
        (f = .schedule y ∨ f = .scheduleOn u y ∨ f = .wake y) ∧ r.2 = [] ∧
        (r.1.sched u).queue = (s.sched u).queue ++ [y]) ∨
      ∃ k y, (f = .pickLocal u k ∨ f = .pickNext u k) ∧ r.2 = [.resume y (switchOf u k)] ∧
        (s.sched u).queue = y :: (r.1.sched u).queue := by
  have hpush : ∀ v y, ((Lutask.schedule s v y).1.sched u).queue = (s.sched u).queue ∨
      u = v ∧ ((s.sched u).policy = .roundRobin ∨ y.isPinned) ∧ (Lutask.schedule s v y).2 = [] ∧
        ((Lutask.schedule s v y).1.sched u).queue = (s.sched u).queue ++ [y] := by
    intro v y
    rcases schedule_cases s v y with ⟨hkind, hr⟩ | ⟨-, -, hr⟩
    · by_cases huv : u = v
      · subst huv
        exact .inr ⟨rfl, hkind, by rw [hr], by simp [hr, queuePush]⟩
      · exact .inl (by simp [hr, queuePush, huv])
    · exact .inl (by rw [hr])
  cases h with
  | @schedule v y hu =>
    refine (hpush v y).imp_right fun hcase => .inl ?_
    obtain ⟨rfl, hkind, hr, hqueue⟩ := hcase
    exact ⟨y, hkind, hu, .inl rfl, hr, hqueue⟩
  | @wake v y hu =>
    refine (hpush v y).imp_right fun hcase => .inl ?_
    obtain ⟨rfl, hkind, hr, hqueue⟩ := hcase
    exact ⟨y, hkind, hu, .inr (.inr rfl), hr, hqueue⟩
  | @scheduleOn v y =>
    refine (hpush v y).imp_right fun hcase => .inl ?_
    obtain ⟨rfl, hkind, hr, hqueue⟩ := hcase
    exact ⟨y, hkind, rfl, .inr (.inl rfl), hr, hqueue⟩
  | @pop f v k y rest hcase hqueue =>
    by_cases huv : u = v
    · subst huv
      exact .inr (.inr ⟨k, y, hcase.imp_right And.left, rfl, by simpa using hqueue⟩)
    · exact .inl (by simp [huv])
  | @postAttach v w hu hmtx | @attachResume v w k hu hmtx | @detach v w hasync hu
  | @schedulerTerminate v w hu hmtx | @terminateRemove v w | @unlockMtx v | @destroy v | @exit v hworkers
  | @iterate v | @procSleepDue v n w rest hsleep hdue | @suspendUntilFlag v tp hpol hflag
  | @suspended v tp hawake =>
    left
    by_cases huv : u = v <;> simp [workerQueuePush, detachWorkerContext, workerQueueRemove,
      Lutask.terminateRemove, Lutask.destroy, procTerminated, Lutask.iterate, huv]
  | dispatchShutdown => exact .inl (by simp)
  | _ => exact .inl rfl

/-- Only `Awakened` fills a policy's own queue, of a work-sharing policy with pinned contexts only. -/
theorem FrameStep.queue (h : FrameStep s t x now f r) {u : T} {y : Ctx T}
    (hy : y ∈ (r.1.sched u).queue) : y ∈ (s.sched u).queue ∨
      ((s.sched u).policy = .roundRobin ∨ y.isPinned) ∧ f.awakens s x = some u ∧
        (f = .schedule y ∨ f = .scheduleOn u y ∨ f = .wake y) := by
  rcases h.queue_cases u with hsame | ⟨z, hkind, hawakens, hf, -, hpush⟩ | ⟨k, z, -, -, hpop⟩
  · exact .inl (hsame ▸ hy)
  · rw [hpush, List.mem_append, List.mem_singleton] at hy
    refine hy.imp_right fun hyz => ?_
    subst hyz
    exact ⟨hkind, hawakens, hf⟩
  · exact .inl (by simp [hpop, hy])

/-- An operation leaves `flag_` alone. -/
theorem OpStep.flag (h : OpStep s x op r) (u : T) : (r.1.sched u).flag = (s.sched u).flag := by
  cases h <;> simp [Lutask.start, Lutask.yield, Lutask.waitUntil, Lutask.terminate, Lutask.destructor,
    workerQueueRemove, Function.update_apply] <;> split_ifs <;> simp_all

/-- `flag_` is set by the dispatcher at the head of its loop and cleared by `SuspendUntil`. -/
theorem FrameStep.flag (h : FrameStep s t x now f r) (u : T) :
    (r.1.sched u).flag = (s.sched u).flag ∨ f = .dispatch u ∨
      ∃ tp, f = .suspendUntil u tp ∨ f = .suspended u tp := by
  cases h with
  | @suspendUntilFlag v tp hpol hv =>
    by_cases huv : u = v
    · exact .inr (.inr ⟨tp, .inl (by rw [huv])⟩)
    · exact .inl (by simp [huv])
  | @suspended v tp hawake =>
    by_cases huv : u = v
    · exact .inr (.inr ⟨tp, .inr (by rw [huv])⟩)
    · exact .inl (by simp [huv])
  | @dispatchShutdown v hshut =>
    by_cases huv : u = v
    · exact .inr (.inl (by rw [huv]))
    · left
      unfold notify
      split <;> simp [huv]
  | schedule hu | wake hu | scheduleOn => exact .inl (by simp)
  | @pop f v k z rest hcase hqueue =>
    left
    by_cases huv : u = v <;> simp [huv]
  | @postAttach v w hu hmtx | @attachResume v w k hu hmtx | @detach v w hasync hu
  | @schedulerTerminate v w hu hmtx | @terminateRemove v w | @unlockMtx v | @destroy v | @exit v hworkers
  | @iterate v | @procSleepDue v n w rest hsleep hdue =>
    left
    by_cases huv : u = v <;> simp [workerQueuePush, detachWorkerContext, workerQueueRemove,
      Lutask.terminateRemove, Lutask.destroy, procTerminated, Lutask.iterate, huv]
  | _ => exact .inl rfl

end Queues

section Objects

/-- Only a fiber start makes a new worker. -/
theorem OpStep.fresh (h : OpStep s x op r) :
    r.1.fresh = s.fresh ∨ (∃ launch, op = .start launch) ∧ r.1.fresh = s.fresh + 1 := by
  cases h with
  | start launch => exact .inr ⟨⟨launch, rfl⟩, rfl⟩
  | _ => exact .inl rfl

theorem FrameStep.fresh (h : FrameStep s t x now f r) : r.1.fresh = s.fresh := by
  cases h <;> simp [workerQueuePush, detachWorkerContext, workerQueueRemove, Lutask.terminateRemove,
    Lutask.destroy, Lutask.iterate, procTerminated]

/-- A fiber start starts the one new worker. -/
theorem OpStep.started_iff (h : OpStep s x op r) (y : Ctx T) :
    r.1.started y ↔ s.started y ∨ (∃ launch, op = .start launch) ∧ y = .worker s.fresh := by
  cases y with
  | worker n =>
    cases h with
    | start launch =>
      simp [State.started, Lutask.start]
      omega
    | _ => simp [State.started, Lutask.yield, Lutask.waitUntil, Lutask.terminate, Lutask.destructor,
        workerQueueRemove]
  | _ => simp [State.started]

/-- A started context stays started. -/
theorem OpStep.started (h : OpStep s x op r) {y : Ctx T} (hy : s.started y) : r.1.started y :=
  (h.started_iff y).mpr (.inl hy)

theorem FrameStep.started (h : FrameStep s t x now f r) : r.1.started = s.started := by
  funext y
  cases y <;> simp [State.started, h.fresh]

theorem step_started {e : Event T} {s' : State T} (h : step s e = some s') {y : Ctx T}
    (hy : s.started y) : s'.started y := by
  cases step_inv h with
  | call hactive hstack huser hop => exact hop.started hy
  | frame hactive hstack hframe => simpa [hframe.started] using hy
  | switch hactive hstack htarget hc => exact hy

/-- The policy of a scheduler never changes. -/
theorem OpStep.policy (h : OpStep s x op r) (u : T) : (r.1.sched u).policy = (s.sched u).policy := by
  cases h <;> simp [Lutask.start, Lutask.yield, Lutask.waitUntil, Lutask.terminate, Lutask.destructor,
    workerQueueRemove, Function.update_apply] <;> split_ifs <;> simp_all

theorem FrameStep.policy (h : FrameStep s t x now f r) (u : T) :
    (r.1.sched u).policy = (s.sched u).policy := by
  cases h <;> simp [workerQueuePush, detachWorkerContext, workerQueueRemove, Lutask.terminateRemove,
    Lutask.destroy, Lutask.iterate, procTerminated, Function.update_apply] <;> split_ifs <;> simp_all

theorem step_policy {e : Event T} {s' : State T} (h : step s e = some s') (u : T) :
    (s'.sched u).policy = (s.sched u).policy := by
  cases step_inv h with
  | call hactive hstack huser hop => exact hop.policy u
  | frame hactive hstack hframe => exact hframe.policy u
  | switch hactive hstack htarget hc => rfl

/-- Every scheduler keeps the policy it was initialized with. -/
theorem Runs.policy {policy : T → Policy} {guard : State T → Event T → Prop} {events : List (Event T)}
    (h : Runs policy guard events s) (u : T) : (s.sched u).policy = policy u :=
  Run.invariant (I := fun s => (s.sched u).policy = policy u) h rfl
    fun _ _ _ hs _ hstep => (step_policy hstep u).trans hs

/-- Only `~Scheduler` sets `shutdown_`. -/
theorem OpStep.shutdown (h : OpStep s x op r) (u : T) :
    (r.1.sched u).shutdown = (s.sched u).shutdown ∨ op = .destructor ∧ x = .main u := by
  cases h with
  | @destructor v hx =>
    by_cases huv : u = v
    · exact .inr ⟨rfl, huv ▸ hx⟩
    · exact .inl (by simp [Lutask.destructor, huv])
  | @yield v hu | @yieldOrigin v origin hu horigin | @yieldOriginNone v hu horigin
  | @waitUntil v tp hu =>
    left
    by_cases huv : u = v <;> simp [Lutask.yield, Lutask.waitUntil, workerQueueRemove, huv]
  | _ => exact .inl rfl

theorem FrameStep.shutdown (h : FrameStep s t x now f r) (u : T) :
    (r.1.sched u).shutdown = (s.sched u).shutdown := by
  cases h <;> simp [workerQueuePush, detachWorkerContext, workerQueueRemove, Lutask.terminateRemove,
    Lutask.destroy, Lutask.iterate, procTerminated, Function.update_apply] <;> split_ifs <;> simp_all

end Objects

end Lutask
