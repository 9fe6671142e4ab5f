import Mathlib.Data.Fintype.Defs
import Lutask.Machine.Continuation
import Lutask.Machine.Pinned
import Lutask.Machine.Places
import Lutask.Machine.Schedule

/-!
# Schedulers that were deleted

`~Scheduler` runs when the dispatcher has found `workerQueue_` empty. Contexts keep pointers to
schedulers in `scheduler_` and `originScheduler_`, and a fiber that was launched with `ELaunch::Async`
or is ready again after a `Yield` is in no `workerQueue_`. A scheduler is safe to delete when no context
that refers to it can run or be woken any more, and then it is never used again.
-/

namespace Lutask

open LabelledRuns

variable {T : Type*}

/-- The context has a pointer to scheduler `u`. -/
def State.Refers (s : State T) (u : T) (y : Ctx T) : Prop :=
  (s.ctx y).scheduler = some u ∨ (s.ctx y).originScheduler = some u

/-- `y` is in no queue and in the hand of no function. -/
structure State.Forgotten (s : State T) (y : Ctx T) : Prop where
  held : ∀ t, ∀ f ∈ (s.thread t).stack, f.held ≠ some y
  queue : ∀ u, y ∉ (s.sched u).queue
  ready : y ∉ s.readyQueue
  waits : ∀ q, y ∉ s.waits q
  sleep : ∀ u, y ∉ (s.sched u).sleepQueue

/-- A scheduler is deleted only when all contexts that refer to it are forgotten, and none of them is
running but the main context that deletes it. -/
def Event.deletesUnused (s : State T) : Event T → Prop
  | .exec _ _ (.destroy u) _ => ∀ y, s.started y → s.Refers u y →
      s.Forgotten y ∧ ∀ t, (s.thread t).active = some y → y = .main u
  | _ => True

/-- The scheduler whose `Schedule` is called in an event, by `Wake`, by `YieldOrigin` or by the timer
pass of the dispatcher. -/
def Event.schedulesOn (s : State T) : Event T → Option T
  | .exec _ _ (.wake y) _ => (s.ctx y).scheduler
  | .exec _ _ (.scheduleOn u _) _ => some u
  | _ => none

/-- Nobody who can still run or be woken refers to a deleted scheduler. -/
structure Lifetimes (s : State T) : Prop where
  unborn : ∀ y, s.started y = false → s.Forgotten y
  deleted : ∀ u, (s.sched u).deleted → ∀ y, s.started y → s.Refers u y →
    s.Forgotten y ∧ ∀ t, (s.thread t).active ≠ some y
  origin : ∀ t u y, .scheduleOn u y ∈ (s.thread t).stack →
    (s.ctx y).originScheduler = some u ∨ (s.thread t).active = some (.dispatcher u)

theorem Lifetimes.initial (policy : T → Policy) : Lifetimes (State.initial policy) where
  unborn y h := by
    cases y with
    | worker n => constructor <;> simp [State.initial]
    | main u | dispatcher u => simp [State.started] at h
  deleted u h := by simp [State.initial] at h
  origin t u y h := by simp [State.initial] at h

variable [DecidableEq T] {s s' : State T} {t : T} {x y : Ctx T} {now : ℕ} {f : Frame T} {op : Op T}
  {r : Rest T} {e : Event T}

/-- An operation has a new worker in its hand or the context that called it. -/
theorem OpStep.held (h : OpStep s x op r) : ∀ g ∈ r.2, ∀ y, g.held = some y →
    y = .worker s.fresh ∧ (∃ launch, op = .start launch) ∨ y = x := by
  cases h with
  | start launch => cases launch <;> simp [Lutask.start, Frame.held, eq_comm]
  | yieldOrigin => simp [Frame.held, eq_comm]
  | _ => simp [Lutask.yield, Lutask.waitUntil, Lutask.terminate, Lutask.destructor, Frame.held]

/-- A function gets a context from its caller or from a queue. -/
theorem FrameStep.held (h : FrameStep s t x now f r) : ∀ g ∈ r.2, ∀ y, g.held = some y →
    f.held = some y ∨ (∃ u, y ∈ (s.sched u).queue) ∨ y ∈ s.readyQueue ∨ (∃ q, y ∈ s.waits q) ∨
      ∃ u, y ∈ (s.sched u).sleepQueue := by
  have hschedule : ∀ u z, ∀ g ∈ (Lutask.schedule s u z).2, ∀ y, g.held = some y → z = y := by
    intro u z g hg y hy
    rcases schedule_cases s u z with ⟨-, hr⟩ | ⟨-, -, hr⟩
    · simp [hr] at hg
    · obtain rfl : g = .detach z := by simpa [hr] using hg
      exact Option.some.inj hy
  cases h with
  | schedule hu | wake hu | scheduleOn =>
    intro g hg y hy
    obtain rfl := hschedule _ _ g hg y hy
    exact .inl rfl
  | @pop f u k z rest hf hqueue =>
    intro g hg y hy
    obtain rfl : g = .resume z (switchOf u k) := by simpa using hg
    obtain rfl : z = y := Option.some.inj hy
    exact .inr (.inl ⟨u, by simp [hqueue]⟩)
  | pickReady hpolicy hready => simp [Frame.held, hready]
  | @notifyOne q z rest hwaits =>
    intro g hg y hy
    have hz : g = .wake z := by
      cases q <;> simp [WaitQueue.afterNotify] at hg
      · rcases hg with rfl | rfl
        · rfl
        · simp [Frame.held] at hy
      · exact hg
    subst hz
    obtain rfl : z = y := Option.some.inj hy
    exact .inr (.inr (.inr (.inl ⟨q, by simp [hwaits]⟩)))
  | @notifyAll q z rest hwaits =>
    intro g hg y hy
    simp only [List.mem_cons, List.not_mem_nil, or_false] at hg
    rcases hg with rfl | rfl
    · obtain rfl : z = y := Option.some.inj hy
      exact .inr (.inr (.inr (.inl ⟨q, by simp [hwaits]⟩)))
    · simp [Frame.held] at hy
  | @procSleepDue u n z rest hsleep hdue =>
    intro g hg y hy
    simp only [List.mem_cons, List.not_mem_nil, or_false] at hg
    rcases hg with rfl | rfl
    · obtain rfl : z = y := Option.some.inj hy
      exact .inr (.inr (.inr (.inr ⟨u, by simp [hsleep]⟩)))
    · simp [Frame.held] at hy
  | @save prev k stack hfctx => cases k <;> simp [Switch.onTop, Frame.held]
  | @relock q l p y hl => cases p <;> simp [relockNext, Frame.held]
  | @notifyOneEmpty q hwaits | @notifyAllEmpty q hwaits =>
    cases q <;> simp [WaitQueue.afterNotify, Frame.held]
  | _ => simp [Lutask.iterate, Lutask.terminateRemove, Lutask.destroy, Frame.held]

/-- `WaitUntil` puts the context that calls it into `sleepQueue_`. -/
theorem OpStep.sleeps (h : OpStep s x op r) {u : T} (hy : y ∈ (r.1.sched u).sleepQueue) :
    y ∈ (s.sched u).sleepQueue ∨ y = x := by
  cases h with
  | @waitUntil v tp hu =>
    by_cases huv : u = v
    · subst huv
      have hperm := List.perm_orderedInsert (fun l r => ((s.setCtx x { s.ctx x with tp := tp }).ctx l).tp <
        ((s.setCtx x { s.ctx x with tp := tp }).ctx r).tp) x (s.sched u).sleepQueue
      have hmem : y ∈ x :: (s.sched u).sleepQueue := hperm.mem_iff.mp (by
        simpa [Lutask.waitUntil, sleepQueueInsert] using hy)
      exact (List.mem_cons.mp hmem).symm
    · exact .inl (by simpa [Lutask.waitUntil, huv] using hy)
  | @yield v hu | @yieldOrigin v origin hu horigin | @yieldOriginNone v hu horigin | @destructor v hx =>
    left
    by_cases huv : u = v
    · subst huv
      simpa [Lutask.yield, Lutask.destructor, workerQueueRemove] using hy
    · simpa [Lutask.yield, Lutask.destructor, workerQueueRemove, huv] using hy
  | _ => exact .inl hy

/-- No frame puts a context into a `sleepQueue_`. -/
theorem FrameStep.sleeps (h : FrameStep s t x now f r) {u : T} (hy : y ∈ (r.1.sched u).sleepQueue) :
    y ∈ (s.sched u).sleepQueue := by
  cases h with
  | @procSleepDue v n z rest hsleep hdue =>
    by_cases huv : u = v
    · subst huv
      have hrest : y ∈ rest := by simpa using hy
      simp [hsleep, hrest]
    · simpa [huv] using hy
  | schedule hu | wake hu | scheduleOn => simpa using hy
  | dispatchShutdown => simpa using hy
  | @pop f v k z rest hcase hqueue =>
    by_cases huv : u = v
    · subst huv
      simpa using hy
    · simpa [huv] using hy
  | @postAttach v w hu hmtx | @attachResume v w k hu hmtx | @detach v w hasync hu
  | @schedulerTerminate v w hu hmtx | @terminateRemove v w | @unlockMtx v | @destroy v | @exit v hworkers
  | @iterate v | @suspendUntilFlag v tp hpol hflag | @suspended v tp hawake =>
    by_cases huv : u = v
    · subst huv
      simpa [workerQueuePush, detachWorkerContext, workerQueueRemove,
        Lutask.terminateRemove, Lutask.destroy, procTerminated, Lutask.iterate] using hy
    · simpa [workerQueuePush, detachWorkerContext, workerQueueRemove,
        Lutask.terminateRemove, Lutask.destroy, procTerminated, Lutask.iterate, huv] using hy
  | _ => exact hy

/-- A context that is forgotten and not running stays so: only the return of `Dispatch` switches to a
context without taking it from a queue, and only a fiber start makes one. -/
theorem State.Forgotten.step (h : s.Forgotten y) (hs : Shape s) (hy : s'.started y → s.started y)
    (hidle : ∀ t, (s.thread t).active ≠ some y)
    (hreturn : ∀ u, y = .main u → ∀ t, (s.thread t).active ≠ some (.dispatcher u))
    (hstep : Lutask.step s e = some s') : s'.Forgotten y ∧ ∀ t, (s'.thread t).active ≠ some y := by
  cases step_inv hstep with
  | @call t x op r hactive hstack huser hop =>
    have hyx : y ≠ x := fun hyx => hidle t (hyx ▸ hactive)
    refine ⟨⟨fun v g hg hheld => ?_, fun u => ?_, ?_, fun q => ?_, fun u hmem => ?_⟩, fun v => ?_⟩
    · by_cases hvt : v = t
      · subst hvt
        cases hop.held g (by simpa using hg) y hheld with
        | inl hnew =>
          obtain ⟨rfl, hstart⟩ := hnew
          have hold : s.started (.worker s.fresh) :=
            hy ((hop.started_iff _).mpr (.inr ⟨hstart, rfl⟩))
          simp [State.started] at hold
        | inr hcaller => exact hyx hcaller
      · exact h.held v g (by simpa [State.setStack_thread_of_ne _ hvt, hop.thread] using hg) hheld
    · simpa [hop.queue] using h.queue u
    · simpa [hop.readyQueue] using h.ready
    · simpa [hop.waits] using h.waits q
    · exact (hop.sleeps hmem).elim (h.sleep u) hyx
    · by_cases hvt : v = t
      · subst hvt
        simpa [hop.thread] using hidle v
      · simpa [State.setStack_thread_of_ne _ hvt, hop.thread] using hidle v
  | @frame t x f now rest r hactive hstack hframe =>
    have hmem : f ∈ (s.thread t).stack := by simp [hstack]
    have hfree : f.held ≠ some y := h.held t f hmem
    refine ⟨⟨fun v g hg hheld => ?_, fun u hqueue => ?_, fun hready => ?_, fun q hwaits => ?_,
      fun u hsleep => h.sleep u (hframe.sleeps hsleep)⟩, fun v => ?_⟩
    · by_cases hvt : v = t
      · subst hvt
        cases List.mem_append.mp (by simpa using hg : g ∈ r.2 ++ rest) with
        | inl hnew =>
          rcases hframe.held g hnew y hheld with hold | ⟨u, hu⟩ | hready | ⟨q, hq⟩ | ⟨u, hu⟩
          · exact hfree hold
          · exact h.queue u hu
          · exact h.ready hready
          · exact h.waits q hq
          · exact h.sleep u hu
        | inr hbelow => exact h.held v g (by simp [hstack, hbelow]) hheld
      · exact h.held v g
          (by simpa [State.setStack_thread_of_ne _ hvt, hframe.thread_of_ne hvt] using hg) hheld
    · rcases hframe.queue (by simpa using hqueue) with hold | ⟨-, -, hpush⟩
      · exact h.queue u hold
      · rcases hpush with rfl | rfl | rfl <;> exact hfree rfl
    · cases hframe.readied (by simpa [State.setStack] using hready) with
      | inl hold => exact h.ready hold
      | inr hpush => exact hfree (by simp [hpush, Frame.held])
    · cases hframe.waited (by simpa using hwaits) with
      | inl hold => exact h.waits q hold
      | inr hpush =>
        subst hpush
        obtain rfl : y = x := hs.frames t x hactive _ hmem
        exact hidle t hactive
    · by_cases hvt : v = t
      · subst hvt
        rcases hframe.active with hsame | ⟨u, -, hnone⟩
        · simpa [hsame] using hidle v
        · simp [hnone]
      · simpa [State.setStack_thread_of_ne _ hvt, hframe.thread_of_ne hvt] using hidle v
  | @switch t x z f k now rest stack hactive hstack htarget hc =>
    have hmem : f ∈ (s.thread t).stack := by simp [hstack]
    have hof := hs.frames t x hactive f hmem
    obtain ⟨-, hk⟩ := Frame.of_target htarget hof
    refine ⟨⟨fun v g hg hheld => ?_, h.queue, h.ready, h.waits, h.sleep⟩, fun v => ?_⟩
    · by_cases hvt : v = t
      · subst hvt
        cases List.mem_cons.mp (by simpa [switched] using hg : g ∈ .save x k :: stack) with
        | inl htop =>
          subst htop
          cases k with
          | resumeReady w =>
            obtain rfl : w = x := hk
            obtain rfl : w = y := Option.some.inj hheld
            exact hidle v hactive
          | _ => simp [Frame.held] at hheld
        | inr hbelow =>
          have hsettled := (hs.suspended z stack hc g hbelow).1
          cases g <;> simp [Frame.isSettled] at hsettled <;> simp [Frame.held] at hheld
      · exact h.held v g (by simpa [switched, hvt] using hg) hheld
    · by_cases hvt : v = t
      · subst hvt
        have hzy : z ≠ y := by
          rintro rfl
          cases f with
          | resume w k' =>
            obtain ⟨rfl, -⟩ : w = z ∧ k' = k := by simpa [Frame.target] using htarget
            exact h.held v _ hmem rfl
          | returnToMain u =>
            obtain ⟨rfl, -⟩ : Ctx.main u = z ∧ Switch.suspendWithCC = k := by
              simpa [Frame.target] using htarget
            obtain rfl : x = .dispatcher u := hof
            exact hreturn u rfl v hactive
          | _ => simp [Frame.target] at htarget
        simpa [switched] using hzy
      · simpa [switched, hvt] using hidle v

/-- A context gets its pointers from an active one. -/
theorem refers_before {u : T} (hstep : step s e = some s') (h : s'.Refers u y) :
    s.Refers u y ∨ ∃ t x, (s.thread t).active = some x ∧ s.Refers u x := by
  cases step_inv hstep with
  | @call t x op r hactive hstack huser hop =>
    cases h with
    | inl hsched =>
      rw [State.setStack_ctx] at hsched
      rcases hop.scheduler_cases y with hsame | ⟨-, -, hnone⟩ | ⟨-, -, -, hnone⟩
      · exact .inl (.inl (hsame ▸ hsched))
      · simp [hnone] at hsched
      · simp [hnone] at hsched
    | inr horigin =>
      rw [State.setStack_ctx] at horigin
      rcases hop.originScheduler y with hsame | ⟨-, -, hnone | hcaller⟩
      · exact .inl (.inr (hsame ▸ horigin))
      · simp [hnone] at horigin
      · exact .inr ⟨t, x, hactive, .inl (hcaller ▸ horigin)⟩
  | @frame t x f now rest r hactive hstack hframe =>
    cases h with
    | inl hsched =>
      rw [State.setStack_ctx] at hsched
      rcases hframe.scheduler y with hsame | ⟨-, hcaller⟩ | ⟨-, hnone⟩
      · exact .inl (.inl (hsame ▸ hsched))
      · exact .inr ⟨t, x, hactive, .inl (hcaller ▸ hsched)⟩
      · simp [hnone] at hsched
    | inr horigin => exact .inl (.inr (by simpa [hframe.originScheduler] using horigin))
  | @switch t x z f k now rest stack hactive hstack htarget hc =>
    left
    by_cases hyz : y = z <;> simpa [State.Refers, switched, hyz] using h

/-- A worker that is made in a step gets its pointers from the context that starts it. -/
theorem refers_of_started {u : T} (hstep : step s e = some s') (hnew : s.started y = false)
    (hy : s'.started y) (h : s'.Refers u y) :
    ∃ t x, (s.thread t).active = some x ∧ s.Refers u x := by
  cases step_inv hstep with
  | @call t x op r hactive hstack huser hop =>
    cases (hop.started_iff y).mp (by simpa using hy) with
    | inl hold => simp [hold] at hnew
    | inr hstart =>
      obtain ⟨⟨launch, rfl⟩, rfl⟩ := hstart
      refine ⟨t, x, hactive, .inl ?_⟩
      cases hop with
      | start =>
        cases launch with
        | async => simpa [State.Refers, start] using h
        | _ => simp [State.Refers, start] at h
  | frame hactive hstack hframe => simp [hframe.started, hnew] at hy
  | switch hactive hstack htarget hc => exact absurd hy (by simpa [switched, State.started] using hnew)

/-- A scheduler is deleted in a step, or it was before. -/
theorem deleted_before {u : T} (hstep : step s e = some s') (hu : (s'.sched u).deleted) :
    (s.sched u).deleted ∨ ∃ t x now, e = .exec t x (.destroy u) now := by
  cases step_inv hstep with
  | call hactive hstack huser hop => exact .inl (by simpa [hop.deleted] using hu)
  | @frame t x f now rest r hactive hstack hframe =>
    rcases hframe.deleted u with hsame | ⟨rfl, -⟩
    · exact .inl (by simpa [hsame] using hu)
    · exact .inr ⟨t, x, now, rfl⟩
  | switch hactive hstack htarget hc => exact .inl hu

/-- The invariants that the argument rests on. -/
structure Accounted (s : State T) : Prop where
  shape : Shape s
  continued : Continued s
  pinned : Pinned s
  lifetimes : Lifetimes s

/-- The end of `~Scheduler`. -/
theorem step_destroy {u : T} (hstep : step s (.exec t x (.destroy u) now) = some s') :
    (s.thread t).active = some x ∧ ∃ rest, (s.thread t).stack = .destroy u :: rest ∧
      s' = (destroy s t u).1.setStack t rest := by
  cases step_inv hstep with
  | frame hactive hstack hframe =>
    cases hframe with
    | pop hf | popEmpty hf => simp at hf
    | destroy => exact ⟨hactive, _, hstack, rfl⟩
  | switch hactive hstack htarget hc => simp [Frame.target] at htarget

omit [DecidableEq T] in
/-- Nobody who is active refers to a deleted scheduler. -/
theorem Accounted.not_active {u : T} (h : Accounted s) (hu : (s.sched u).deleted)
    (hactive : (s.thread t).active = some x) : ¬ s.Refers u x := fun hx =>
  (h.lifetimes.deleted u hu x (h.continued.busy t x (.inl hactive)).1 hx).2 t hactive

omit [DecidableEq T] in
/-- A main context that refers to a scheduler is the one of this scheduler, whose dispatcher refers to it
too. -/
theorem Pinned.refers_main {u v : T} (h : Pinned s) (hrefers : s.Refers u (.main v)) :
    v = u ∧ s.Refers u (.dispatcher v) := by
  cases hrefers with
  | inl hsched =>
    obtain rfl : v = u := Option.some.inj ((h.scheduler (.main v) v rfl).symm.trans hsched)
    exact ⟨rfl, .inl (h.scheduler (.dispatcher v) v rfl)⟩
  | inr horigin => simp [h.origin (.main v) rfl] at horigin

/-- When a scheduler is deleted, its main context is the only one that refers to it and runs. -/
theorem Accounted.destroyed {u : T} (h : Accounted s)
    (hunused : (Event.exec t x (.destroy u) now).deletesUnused s)
    (hstep : Lutask.step s (.exec t x (.destroy u) now) = some s') (hy : s'.started y)
    (hrefers : s'.Refers u y) : s'.Forgotten y ∧ ∀ v, (s'.thread v).active ≠ some y := by
  obtain ⟨hactive, rest, hstack, rfl⟩ := step_destroy hstep
  obtain ⟨hforgotten, hrunning⟩ := hunused y hy hrefers
  obtain rfl : x = .main u := h.shape.frames t x hactive (.destroy u) (by simp [hstack])
  have hothers : ∀ v, v ≠ t → ((Lutask.destroy s t u).1.setStack t rest).thread v = s.thread v :=
    fun v hv => step_thread_of_ne hstep hv
  refine ⟨⟨fun v g hg => ?_, fun v => ?_, hforgotten.ready, hforgotten.waits, fun v => ?_⟩, fun v hv => ?_⟩
  · by_cases hvt : v = t
    · subst hvt
      exact hforgotten.held v g (by simp [hstack, show g ∈ rest by simpa [Lutask.destroy] using hg])
    · exact hforgotten.held v g (by rwa [hothers v hvt] at hg)
  · by_cases hvu : v = u
    · subst hvu
      simpa [Lutask.destroy] using hforgotten.queue v
    · simpa [Lutask.destroy, hvu] using hforgotten.queue v
  · by_cases hvu : v = u
    · subst hvu
      simpa [Lutask.destroy] using hforgotten.sleep v
    · simpa [Lutask.destroy, hvu] using hforgotten.sleep v
  · by_cases hvt : v = t
    · subst hvt
      simp [Lutask.destroy] at hv
    · rw [hothers v hvt] at hv
      obtain rfl := hrunning v hv
      exact hvt (h.continued.unique v t _ (.inl hv) (.inl hactive))

/-- Nobody who refers to a scheduler that was deleted before is found again. -/
theorem Accounted.kept {u : T} (h : Accounted s) (hu : (s.sched u).deleted)
    (hstep : Lutask.step s e = some s') (hy : s'.started y) (hrefers : s'.Refers u y) :
    s'.Forgotten y ∧ ∀ v, (s'.thread v).active ≠ some y := by
  have hold : s.started y := by
    by_contra hnew
    obtain ⟨t, x, hx, hxu⟩ := refers_of_started hstep (by simpa using hnew) hy hrefers
    exact h.not_active hu hx hxu
  cases refers_before hstep hrefers with
  | inl hbefore =>
    obtain ⟨hforgotten, hidle⟩ := h.lifetimes.deleted u hu y hold hbefore
    refine hforgotten.step h.shape (fun _ => hold) hidle (fun v hv t ht => ?_) hstep
    subst hv
    exact h.not_active hu ht (h.pinned.refers_main hbefore).2
  | inr hcaller =>
    obtain ⟨t, x, hx, hxu⟩ := hcaller
    exact absurd hxu (h.not_active hu hx)

/-- Of the frames only the timer pass names the scheduler that it calls. -/
theorem FrameStep.schedulesOn {u : T} (h : FrameStep s t x now f r) (hg : .scheduleOn u y ∈ r.2) :
    ∃ n, f = .procSleep u n := by
  cases h with
  | schedule hu | wake hu | scheduleOn =>
    rcases schedule_cases s _ _ with ⟨-, hr⟩ | ⟨-, -, hr⟩ <;> rw [hr] at hg <;> simp at hg
  | @save prev k stack hfctx => cases k <;> simp [Switch.onTop] at hg
  | @relock q l p z hl => cases p <;> simp [relockNext] at hg
  | @notifyOne q z rest hwaits | @notifyOneEmpty q hwaits | @notifyAllEmpty q hwaits =>
    cases q <;> simp [WaitQueue.afterNotify] at hg
  | @procSleepDue v n z rest hsleep hdue =>
    obtain ⟨rfl, -⟩ : u = v ∧ y = z := by simpa using hg
    exact ⟨n, rfl⟩
  | _ => simp [Lutask.iterate, Lutask.terminateRemove, Lutask.destroy] at hg

/-- `YieldOrigin` and the timer pass name the scheduler that they were called for. -/
theorem Accounted.origin {v u : T} (h : Accounted s) (hstep : Lutask.step s e = some s')
    (hg : .scheduleOn u y ∈ (s'.thread v).stack) :
    (s'.ctx y).originScheduler = some u ∨ (s'.thread v).active = some (.dispatcher u) := by
  have hsame : ∀ v, Frame.scheduleOn u y ∈ (s.thread v).stack →
      (s'.ctx y).originScheduler = (s.ctx y).originScheduler := by
    intro v hmem
    cases step_inv hstep with
    | call hactive hstack huser hop =>
      refine (hop.originScheduler y).resolve_right fun hnew => ?_
      have hunborn := h.lifetimes.unborn y (by simp [hnew.1, State.started])
      exact hunborn.held v _ hmem rfl
    | frame hactive hstack hframe => exact hframe.originScheduler y
    | @switch t x z f k now rest stack hactive hstack htarget hc =>
      by_cases hyz : y = z <;> simp [switched, hyz]
  by_cases hvt : v = e.thread
  · cases step_inv hstep with
    | @call t x op r hactive hstack huser hop =>
      obtain rfl : v = t := hvt
      have hmem : Frame.scheduleOn u y ∈ r.2 := by simpa using hg
      cases hop with
      | start launch => cases launch <;> simp [start] at hmem
      | yieldOrigin hu horigin =>
        obtain ⟨rfl, rfl⟩ : u = _ ∧ y = x := by simpa using hmem
        exact .inl (by simpa using horigin)
      | _ => simp [Lutask.yield, Lutask.waitUntil, Lutask.terminate, Lutask.destructor] at hmem
    | @frame t x f now rest r hactive hstack hframe =>
      obtain rfl : v = t := hvt
      have hof := h.shape.frames v x hactive
      rw [hstack] at hof
      cases List.mem_append.mp (by simpa using hg : Frame.scheduleOn u y ∈ r.2 ++ rest) with
      | inl hnew =>
        obtain ⟨n, rfl⟩ := hframe.schedulesOn hnew
        obtain rfl : x = .dispatcher u := hof _ List.mem_cons_self
        refine .inr ?_
        rcases hframe.active with hkept | ⟨w, hf, -⟩
        · simpa [hkept] using hactive
        · simp at hf
      | inr hbelow =>
        have hold := h.lifetimes.origin v u y (by simp [hstack, hbelow])
        rw [← hsame v (by simp [hstack, hbelow])] at hold
        refine hold.imp_right fun hdispatcher => ?_
        rcases hframe.active with hkept | ⟨w, rfl, -⟩
        · simpa [hkept] using hdispatcher
        · simpa [Frame.isSettled] using settled_of_pairwise (hstack ▸ h.shape.below v) rfl _ hbelow
    | @switch t x z f k now rest stack hactive hstack htarget hc =>
      obtain rfl : v = t := hvt
      cases List.mem_cons.mp (by simpa [switched] using hg : Frame.scheduleOn u y ∈ .save x k :: stack) with
      | inl htop => simp at htop
      | inr hbelow => simpa [Frame.isSettled] using (h.shape.suspended z stack hc _ hbelow).1
  · rw [step_thread_of_ne hstep hvt] at hg ⊢
    rw [hsame v hg]
    exact h.lifetimes.origin v u y hg

/-- Every step in which no used scheduler is deleted keeps the pointers sound. -/
theorem Accounted.step (h : Accounted s) (he : e.deletesUnused s) (hstep : Lutask.step s e = some s') :
    Accounted s' := by
  refine ⟨h.shape.step hstep, h.continued.step h.shape hstep, h.pinned.step h.shape hstep,
    fun y hy => ?_, fun u hu y hy hrefers => ?_, fun v u y hg => h.origin hstep hg⟩
  · have hnew : s.started y = false := by
      by_contra hold
      simp [step_started hstep (by simpa using hold)] at hy
    refine ((h.lifetimes.unborn y hnew).step h.shape (fun hs' => absurd hs' (by simp [hy]))
      (fun v hv => ?_) (fun u hu => ?_) hstep).1
    · simp [(h.continued.busy v y (.inl hv)).1] at hnew
    · simp [hu, State.started] at hnew
  · cases deleted_before hstep hu with
    | inl hdeleted => exact h.kept hdeleted hstep hy hrefers
    | inr hdestroy =>
      obtain ⟨t, x, now, rfl⟩ := hdestroy
      exact h.destroyed he hstep hy hrefers

/-- The runs in which every scheduler is out of use when it is deleted. -/
abbrev UnusedRuns (policy : T → Policy) (events : List (Event T)) (s : State T) : Prop :=
  Runs policy (fun s e => e.deletesUnused s) events s

theorem Runs.accounted {policy : T → Policy} {events : List (Event T)}
    (h : UnusedRuns policy events s) : Accounted s :=
  Run.invariant h ⟨Shape.initial _, Continued.initial _, Pinned.initial _, Lifetimes.initial _⟩
    fun _ _ _ hs he hstep => hs.step he hstep

/-- If every scheduler is out of use when it is deleted, no context is ever handed to a deleted one, neither
by `Wake` nor by `YieldOrigin` nor by the timer pass, whatever else the threads do. -/
theorem scheduled_before_deletion {policy : T → Policy} {events : List (Event T)} {u : T}
    (h : UnusedRuns policy events s) (hstep : step s e = some s') (hu : e.schedulesOn s = some u) :
    (s.sched u).deleted = false := by
  have hs := h.accounted
  by_contra hdeleted
  have hdeleted : (s.sched u).deleted = true := by simpa using hdeleted
  -- a context in the hand of a function has been started and is not forgotten
  have hknown : ∀ t f y, f ∈ (s.thread t).stack → f.held = some y → ¬ s.Refers u y := by
    intro t f y hf hy hrefers
    cases hstart : s.started y with
    | true => exact (hs.lifetimes.deleted u hdeleted y hstart hrefers).1.held t f hf hy
    | false => exact (hs.lifetimes.unborn y hstart).held t f hf hy
  cases e with
  | call t x op => simp [Event.schedulesOn] at hu
  | exec t x f now =>
    obtain ⟨hactive, rest, hstack⟩ := step_exec hstep
    have hmem : f ∈ (s.thread t).stack := by simp [hstack]
    cases f with
    | wake y => exact hknown t _ y hmem rfl (.inl hu)
    | scheduleOn v y =>
      obtain rfl : v = u := Option.some.inj hu
      cases hs.lifetimes.origin t v y hmem with
      | inl horigin => exact hknown t _ y hmem rfl (.inr horigin)
      | inr hdispatcher =>
        exact hs.not_active hdeleted hdispatcher (.inl (hs.pinned.scheduler (.dispatcher v) v rfl))
    | _ => simp [Event.schedulesOn] at hu

/-- The first thread starts a fiber with `Async`, which the second one runs, and exits. The fiber then
calls `YieldOrigin`, which calls `Schedule` of the deleted scheduler. -/
theorem yieldOrigin_after_deletion :
    ∃ events s, Runs (fun _ : Bool => .sharedWork) (fun _ _ => True) events s ∧
      ((s.sched false).deleted ∧
        (Event.exec true (.worker 0) (.scheduleOn false (.worker 0)) 0).schedulesOn s = some false ∧
        (step s (.exec true (.worker 0) (.scheduleOn false (.worker 0)) 0)).isSome) :=
  reaches_of_drive [.call false (.main false) (.start .async), .frames false 2 0,
    .call true (.main true) .yield, .frames true 5 0, .call false (.main false) .destructor,
    .frames false 9 0, .call true (.worker 0) .yieldOrigin] (by decide)

section Computing

variable [Fintype T]

/-- Started contexts are finitely many. -/
instance (s : State T) (P : Ctx T → Prop) [DecidablePred P] : Decidable (∀ y, s.started y → P y) :=
  decidable_of_iff ((∀ t, P (.main t) ∧ P (.dispatcher t)) ∧ ∀ n < s.fresh, P (.worker n)) <| by
    constructor
    · intro h y hy
      cases y with
      | main t => exact (h.1 t).1
      | dispatcher t => exact (h.1 t).2
      | worker n => exact h.2 n (by simpa [State.started] using hy)
    · intro h
      exact ⟨fun t => ⟨h _ rfl, h _ rfl⟩, fun n hn => h _ (by simpa [State.started] using hn)⟩

instance (s : State T) (u : T) (y : Ctx T) : Decidable (s.Refers u y) :=
  inferInstanceAs (Decidable (_ ∨ _))

/-- What can be computed of `deletesUnused` when nobody ever waits. -/
def Event.deletesIdle (s : State T) : Event T → Prop
  | .exec _ _ (.suspendAndWait _ _) _ => False
  | .exec _ _ (.destroy u) _ => ∀ y, s.started y → s.Refers u y → y ∉ s.readyQueue ∧
      ∀ t, y ∉ (s.sched t).queue ∧ y ∉ (s.sched t).sleepQueue ∧
        (∀ f ∈ (s.thread t).stack, f.held ≠ some y) ∧ ((s.thread t).active = some y → y = .main u)
  | _ => True

instance (s : State T) : DecidablePred (Event.deletesIdle s)
  | .call .. => .isTrue trivial
  | .exec t x f n => by cases f <;> dsimp only [Event.deletesIdle] <;> infer_instance

omit [Fintype T] in
/-- Without waiting contexts the condition is the one that is computed. -/
theorem unusedRuns_of_idle {policy : T → Policy} {events : List (Event T)}
    (h : Runs policy (fun s e => e.deletesIdle s) events s) : UnusedRuns policy events s := by
  refine (h.strengthen (I := fun s => ∀ q, s.waits q = []) (fun _ => rfl)
    fun s e s' hs he hstep q => ?_).weaken fun s e hguard => ?_
  · refine List.eq_nil_iff_forall_not_mem.mpr fun y hy => ?_
    cases step_inv hstep with
    | call hactive hstack huser hop => simp [hop.waits, hs] at hy
    | frame hactive hstack hframe =>
      cases hframe.waited (by simpa using hy) with
      | inl hold => simp [hs] at hold
      | inr hwait =>
        subst hwait
        exact he
    | switch hactive hstack htarget hc => simp [switched, hs] at hy
  · obtain ⟨hwaits, hidle⟩ := hguard
    cases e with
    | call t x op => trivial
    | exec t x f now =>
      cases f with
      | destroy u =>
        intro y hy hrefers
        obtain ⟨hready, hthreads⟩ := hidle y hy hrefers
        exact ⟨⟨fun v => (hthreads v).2.2.1, fun v => (hthreads v).1, hready, by simp [hwaits],
          fun v => (hthreads v).2.1⟩, fun v => (hthreads v).2.2.2⟩
      | _ => trivial

end Computing

/-- A thread that exits after its only worker has terminated, while a fiber of the other thread calls
`YieldOrigin`. -/
theorem yieldOrigin_to_living :
    ∃ events s, UnusedRuns (fun _ : Bool => .sharedWork) events s ∧ (s.sched false).deleted ∧
      (Event.exec true (.worker 1) (.scheduleOn true (.worker 1)) 0).schedulesOn s = some true ∧
      (step s (.exec true (.worker 1) (.scheduleOn true (.worker 1)) 0)).isSome ∧
      (s.sched true).deleted = false := by
  obtain ⟨events, s, hrun, hdeleted, hsome⟩ : ∃ events s,
      Runs (fun _ : Bool => .sharedWork) (fun s e => e.deletesIdle s) events s ∧
        ((s.sched false).deleted ∧
          (step s (.exec true (.worker 1) (.scheduleOn true (.worker 1)) 0)).isSome) :=
    reaches_of_drive [.call false (.main false) (.start .dispatch), .frames false 4 0,
      .call false (.worker 0) .terminate, .frames false 15 0, .call false (.main false) .destructor,
      .frames false 9 0, .call true (.main true) (.start .async), .frames true 2 0,
      .call true (.main true) .yield, .frames true 5 0, .call true (.worker 1) .yieldOrigin] (by decide)
  obtain ⟨s', hstep⟩ := Option.isSome_iff_exists.mp hsome
  have hunused := unusedRuns_of_idle hrun
  exact ⟨events, s, hunused, hdeleted, rfl, hsome, scheduled_before_deletion hunused hstep rfl⟩

end Lutask
