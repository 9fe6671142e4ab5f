import Lutask.Machine.Enlisted

/-!
# Contexts run on the thread that they belong to

Threads of any policies, with sleepers, `Join` and exits, up to the first assertion that fails and
without `YieldOrigin` to another thread. As long as no context of a work-sharing scheduler is woken
while it is still running, the active context of a thread belongs to the scheduler of this thread,
and so do the contexts in its queue and in the hands of the functions that resume them.
-/

namespace Lutask

open LabelledRuns TokenPlacement

variable {T : Type*}

/-- The assertions of `ProcTerminated`. -/
def State.reapable (s : State T) (u : T) : Prop :=
  ∀ y ∈ (s.sched u).terminatedQueue, y.isPinned = false ∧ (s.ctx y).scheduler = some u ∧
    (s.ctx y).terminated

instance [DecidableEq T] (s : State T) (u : T) : Decidable (s.reapable u) :=
  List.decidableBAll _ _

/-- `RoundRobinPolicy::Awakened` asserts that the context can be resumed. -/
def State.awakenable (s : State T) (u : T) (y : Ctx T) : Prop :=
  (s.sched u).policy = .roundRobin → (s.ctx y).c.isSome

instance (s : State T) (u : T) (y : Ctx T) : Decidable (s.awakenable u y) :=
  inferInstanceAs (Decidable (_ → _))

/-- The assertions that the code of a frame checks, when context `x` executes it. Those about the
active context itself always hold, and the one before a switch is the test that the switch makes. -/
def Frame.asserts (s : State T) (x : Ctx T) : Frame T → Prop
  | .postAttach y | .attachResume y _ => x ≠ y ∧ (s.ctx y).scheduler = none
  | .detach y => (s.ctx y).policy = .async ∨ x ≠ y
  | .schedule y => ∀ u ∈ (s.ctx x).scheduler, s.awakenable u y
  | .wake y => ∀ u ∈ (s.ctx y).scheduler, s.awakenable u y
  | .scheduleOn u y => s.awakenable u y
  | .pickNext u _ => ∀ y ∈ (s.sched u).queue.head?, s.awakenable u y
  | .procSleep u _ => ∀ y ∈ (s.sched u).sleepQueue.head?, y = .main u
  | .iterate u => s.reapable u
  | .exitTest u => (s.sched u).workerQueue = [] → s.reapable u
  | .destroy u =>
    (s.sched u).workerQueue = [] ∧ (s.sched u).terminatedQueue = [] ∧ (s.sched u).sleepQueue = []
  | _ => True

/-- No assertion fails in this event. -/
def Event.asserts (s : State T) : Event T → Prop
  | .call .. => True
  | .exec _ x f _ => f.asserts s x

/-- The event is no `YieldOrigin` of a context that has an origin. -/
def Event.keepsOrigin (s : State T) : Event T → Prop
  | .call _ x .yieldOrigin => (s.ctx x).originScheduler = none
  | _ => True

/-- A context of a work-sharing scheduler is woken only when it runs nowhere any more. -/
def Event.wakesSuspended (s : State T) : Event T → Prop
  | .exec _ _ (.wake y) _ => ∀ u ∈ (s.ctx y).scheduler, (s.sched u).policy = .sharedWork →
      ∀ t, (s.thread t).active ≠ some y
  | _ => True

/-- `Dispatch` of thread `t` leaves its loop in this event. -/
def Event.leavesLoop (s : State T) (t : T) : Event T → Prop
  | .exec _ _ (.exitTest u) _ => u = t ∧ (s.sched u).workerQueue = []
  | _ => False

/-- The events up to the first assertion that fails, without `YieldOrigin` to another thread and
without waking a context of a work-sharing scheduler while it still runs. -/
def Careful (s : State T) (e : Event T) : Prop :=
  e.asserts s ∧ e.keepsOrigin s ∧ e.wakesSuspended s

/-- What a frame that thread `t` executes knows about schedulers. -/
def Frame.Resides (s : State T) (t : T) : Frame T → Prop
  | .pickNext u _ | .pickLocal u _ | .terminateRemove u _ => u = t
  | .schedule y => (s.ctx y).scheduler = some t ∧
      (y.isPinned = false → ∀ v, (s.thread v).active ≠ some y)
  | .save _ (.resumeReady y) | .resume y _ => (s.ctx y).scheduler = some t
  | .detach y => y.isPinned = false → ∀ v, (s.thread v).active ≠ some y
  | .scheduleOn u y => y = .main u
  | _ => True

/-- All contexts but the main ones have one place at most. -/
def Apart [DecidableEq T] (s : State T) : Prop :=
  ∀ y, (∀ u, y ≠ .main u) → Exclusive (s.places y)

/-- Contexts run on the thread that they belong to. -/
structure Resident (s : State T) : Prop where
  active : ∀ t x, (s.thread t).active = some x → (s.ctx x).scheduler = some t
  queued : ∀ u x, x ∈ (s.sched u).queue → (s.ctx x).scheduler = some u
  frames : ∀ t, ∀ f ∈ (s.thread t).stack, f.Resides s t

/-- Replacing a stack leaves the active contexts alone. -/
theorem State.setStack_active [DecidableEq T] (s : State T) (t v : T) (stack : List (Frame T)) :
    ((s.setStack t stack).thread v).active = (s.thread v).active := by
  by_cases hv : v = t
  · simp [hv]
  · rw [State.setStack_thread_of_ne _ hv]

/-- A frame at which a context stays suspended knows nothing. -/
theorem Frame.resides_of_settled {f : Frame T} (h : f.isSettled) (s : State T) (t : T) :
    f.Resides s t := by
  cases f <;> simp [Frame.isSettled] at h <;> trivial

/-- A frame knows the same as long as the context in its hand keeps its scheduler and does not run. -/
theorem Frame.Resides.mono {s s' : State T} {t : T} {f : Frame T} (h : f.Resides s t)
    (hsched : ∀ y, f.held = some y → (s'.ctx y).scheduler = (s.ctx y).scheduler)
    (hactive : ∀ y, f.held = some y → y.isPinned = false → ∀ v, (s'.thread v).active = some y →
      (s.thread v).active = some y) : f.Resides s' t := by
  cases f with
  | schedule y => exact ⟨(hsched y rfl).trans h.1, fun hy v hv => h.2 hy v (hactive y rfl hy v hv)⟩
  | detach y => exact fun hy v hv => h hy v (hactive y rfl hy v hv)
  | resume y k => exact (hsched y rfl).trans h
  | save prev k =>
    cases k with
    | resumeReady y => exact (hsched y rfl).trans h
    | _ => trivial
  | _ => exact h

theorem Apart.initial [DecidableEq T] (policy : T → Policy) : Apart (State.initial policy) :=
  fun y _ => (Placed.initial policy).exclusive y

theorem Resident.initial (policy : T → Policy) : Resident (State.initial policy) where
  active t x h := by
    obtain rfl : Ctx.main t = x := by simpa [State.initial] using h
    rfl
  queued u x h := by
    obtain rfl : x = .dispatcher u := by simpa [State.initial] using h
    rfl
  frames t f h := by simp [State.initial] at h

variable [DecidableEq T] {s s' : State T} {t : T} {x y : Ctx T} {now : ℕ} {f : Frame T} {op : Op T}
  {r : Rest T} {e : Event T} {rest : List (Frame T)}

omit [DecidableEq T] in
/-- Nothing below a function of a context other than main leaves. -/
theorem rest_stays (hs : Shape s) (hactive : (s.thread t).active = some x)
    (hstack : (s.thread t).stack = f :: rest) (hinner : f.isInner = false)
    (hx : ∀ u, x ≠ .main u) : rest.any Frame.leaves = false := by
  by_contra hleaves
  obtain ⟨u, hu, -⟩ := hs.destroy_of_leaves hactive hstack hinner (Bool.of_not_eq_false hleaves)
  exact hx u hu

/-- Every step moves a context that is in one place at most once, unless its loop ends. It is no
main context, which may have left for `~Scheduler`, and it neither sleeps nor yields to its
origin. -/
theorem Shape.places_step (hs : Shape s) (hc : Continued s) (h : Exclusive (s.places y))
    (hy : ∀ u, y ≠ .main u) (hsleep : ∀ u, (∃ t x n now, e = .exec t x (.procSleep u n) now) →
      (s.sched u).sleepQueue.head? ≠ some y)
    (horigin : e.keepsOrigin s) (hstep : Lutask.step s e = some s') :
    Steps (s.places y) (s'.places y) ∨
      (∃ u, y = .dispatcher u ∧ e.leavesLoop s u) ∧ ∃ v, Drops (.active v) (s.places y) (s'.places y) := by
  cases step_inv hstep with
  | call hactive hstack huser hop =>
    refine .inl (hop.steps h hactive hstack fun hyield => ?_)
    subst hyield
    exact horigin
  | @frame t x f now rest r hactive hstack hframe =>
    have hsteps := hframe.steps hs hactive hstack y (fun u n hf => ?_) fun hyx hinner _ => ?_
    · refine hsteps.imp_right fun hexit => ?_
      obtain ⟨⟨u, rfl, hworkers⟩, hdrop⟩ := hexit
      obtain rfl : x = .dispatcher u := hs.frames t x hactive (.exitTest u) (by simp [hstack])
      have hplace : 0 < s.places y (.active t) := by
        have htaken := hdrop.taken
        omega
      have hself : .dispatcher u = y := by
        by_contra hne
        simp [State.places, hactive, hne] at hplace
      exact ⟨⟨u, hself.symm, rfl, hworkers⟩, t, hdrop⟩
    · subst hf
      exact hsleep u ⟨t, x, n, now, rfl⟩
    · subst hyx
      exact rest_stays hs hactive hstack hinner hy
  | @switch t x z f k now rest stack hactive hstack htarget hsaved =>
    obtain ⟨hinner, -⟩ := Frame.of_target htarget (hs.frames t x hactive f (by simp [hstack]))
    refine .inl (switched_steps hs hc hactive hstack htarget hsaved y (fun _ _ hyz => ?_)
      (fun hyx _ => ?_) fun u _ hmain => absurd hmain (hy u))
    · by_contra hleaves
      obtain ⟨u, hu, -⟩ :=
        Frame.destroy_of_leaves (hs.suspended z stack hsaved) (Bool.of_not_eq_false hleaves)
      exact hy u (hyz.trans hu)
    · subst hyx
      exact rest_stays hs hactive hstack hinner hy

/-- Every step moves each context but the main ones at most once, unless its loop ends. -/
theorem Apart.steps (h : Apart s) (hs : Shape s) (hc : Continued s) (hassert : e.asserts s)
    (horigin : e.keepsOrigin s) (hstep : Lutask.step s e = some s') (hy : ∀ u, y ≠ .main u) :
    Steps (s.places y) (s'.places y) ∨
      (∃ u, y = .dispatcher u ∧ e.leavesLoop s u) ∧ ∃ v, Drops (.active v) (s.places y) (s'.places y) := by
  refine hs.places_step hc (h y hy) hy (fun u hsleep hhead => ?_) horigin hstep
  obtain ⟨t, x, n, now, rfl⟩ := hsleep
  exact hy u (hassert y (by simp [hhead]))

theorem Apart.step (h : Apart s) (hs : Shape s) (hc : Continued s) (hassert : e.asserts s)
    (horigin : e.keepsOrigin s) (hstep : Lutask.step s e = some s') : Apart s' := by
  intro y hy
  cases h.steps hs hc hassert horigin hstep hy with
  | inl hmove => exact (h y hy).steps hmove
  | inr hexit =>
    obtain ⟨-, v, hdrop⟩ := hexit
    exact (h y hy).drops hdrop

/-- A pinned context in the hand of a function keeps its scheduler, and so does another one that only
this function has. -/
theorem FrameStep.rewrites (h : FrameStep s t x now f r) (hp : Pinned s)
    (hf : f ∈ (s.thread t).stack) (hy : (r.1.ctx y).scheduler ≠ (s.ctx y).scheduler) :
    f.migrates = some y ∧ y.isPinned = false := by
  have hmigrates : f.migrates = some y := by
    rcases (h.scheduler y).resolve_left hy with ⟨rfl | ⟨k, rfl⟩, -⟩ | ⟨rfl, -⟩ <;> rfl
  exact ⟨hmigrates, hp.frames t f hf y hmigrates⟩

omit [DecidableEq T] in
/-- A worker is no main context. -/
theorem Ctx.ne_main (h : y.isPinned = false) (u : T) : y ≠ .main u := by
  rintro rfl
  simp [Ctx.isPinned] at h

/-- A call has only contexts in its hand that it may resume. -/
theorem OpStep.resides (h : OpStep s x op r) (hx : (s.ctx x).scheduler = some t)
    (hmain : ∀ u, x = .main u → u = t)
    (hop : op = .yieldOrigin → (s.ctx x).originScheduler = none)
    (hfresh : ∀ v, (s.thread v).active ≠ some (.worker s.fresh)) : ∀ g ∈ r.2, g.Resides r.1 t := by
  cases h with
  | start launch =>
    cases launch with
    | async => simpa [Lutask.start, Frame.Resides] using fun _ => hfresh
    | _ => simp [Lutask.start, Frame.Resides]
  | @yield u hu =>
    obtain rfl : u = t := Option.some.inj (hu.symm.trans hx)
    simp [Lutask.yield, Frame.Resides]
  | @waitUntil u tp hu =>
    obtain rfl : u = t := Option.some.inj (hu.symm.trans hx)
    simp [Lutask.waitUntil, Frame.Resides]
  | @yieldOriginNone u hu horigin =>
    obtain rfl : u = t := Option.some.inj (hu.symm.trans hx)
    simp [Frame.Resides]
  | yieldOrigin hu horigin => simp [horigin] at hop
  | destructor hu => simp [Lutask.destructor, Frame.Resides, hmain _ hu]
  | _ => simp [Lutask.terminate, Frame.Resides]

/-- A frame passes on only contexts that belong to its thread, and detaches only contexts that do not
run. -/
theorem FrameStep.resides (h : FrameStep s t x now f r) (hr : Resident s) (hs : Shape s)
    (hc : Continued s) (hp : Pinned s) (hactive : (s.thread t).active = some x)
    (hstack : (s.thread t).stack = f :: rest) (hassert : f.asserts s x)
    (hwake : (Event.exec t x f now).wakesSuspended s) : ∀ g ∈ r.2, g.Resides r.1 t := by
  have hmem : f ∈ (s.thread t).stack := by simp [hstack]
  have hx := hr.active t x hactive
  have hof := hs.frames t x hactive f hmem
  have hf := hr.frames t f hmem
  have hdetach : ∀ u z, ((s.sched u).policy = .sharedWork → z.isPinned = false →
      ∀ v, (s.thread v).active ≠ some z) →
      ∀ g ∈ (Lutask.schedule s u z).2, g.Resides (Lutask.schedule s u z).1 t := by
    intro u z hz
    rcases schedule_cases s u z with ⟨-, hr⟩ | ⟨hpolicy, hpin, hr⟩
    · simp [hr]
    · simpa [hr, Frame.Resides] using fun _ => hz hpolicy hpin
  cases h with
  | schedule hu => exact hdetach _ _ fun _ hpin => hf.2 hpin
  | wake hu => exact hdetach _ _ fun hpolicy _ => hwake _ hu hpolicy
  | @scheduleOn u y =>
    refine hdetach _ _ fun _ hpin => ?_
    have hmain : y = .main u := hf
    simp [hmain, Ctx.isPinned] at hpin
  | @postAttach u w hu hmtx =>
    obtain rfl : u = t := Option.some.inj (hu.symm.trans hx)
    have hfree : (s.ctx w).scheduler = none := hassert.2
    have hidle : ∀ v, (s.thread v).active ≠ some w := fun v hv => by simp [hr.active v w hv] at hfree
    simpa [Frame.Resides, workerQueuePush] using fun _ => hidle
  | @pop f u k y rest hcase hqueue =>
    have hu : u = t := by rcases hcase with rfl | ⟨rfl, -⟩ <;> exact hf
    simpa [Frame.Resides, hu] using hr.queued u y (by simp [hqueue])
  | pickReadyEmpty => simpa [Frame.Resides] using hf
  | @attachResume u y k hu hmtx =>
    obtain rfl : u = t := Option.some.inj (hu.symm.trans hx)
    simp [Frame.Resides, workerQueuePush]
  | @save prev k stack hfctx =>
    cases k with
    | resumeReady z =>
      obtain rfl : z = prev := hof
      have hidle : ∀ v, (s.thread v).active ≠ some z := by
        intro v hv
        obtain rfl := hc.unique v t z (.inl hv) (.inr ⟨_, rest, hstack⟩)
        exact hc.left v z _ rest hstack hv
      have hactives : ∀ c v,
          (Function.update (s.setCtx z c).thread t { s.thread t with fctx := none } v).active =
            (s.thread v).active := by
        intro c v
        by_cases hv : v = t <;> simp [hv]
      have hsched : (s.ctx z).scheduler = some t := hf
      simpa [Switch.onTop, Frame.Resides, hactives, hsched] using fun _ => hidle
    | _ => simp [Switch.onTop, Frame.Resides]
  | @schedulerTerminate u y hu hmtx =>
    obtain rfl : y = x := hof
    obtain rfl : u = t := Option.some.inj (hu.symm.trans hx)
    simp [Frame.Resides]
  | terminateRemove => simpa [Lutask.terminateRemove, Frame.Resides] using hf
  | @suspend u q y hu =>
    obtain rfl : y = x := hof
    obtain rfl : u = t := Option.some.inj (hu.symm.trans hx)
    simp [Frame.Resides]
  | @relock q l p y hl => cases p <;> simp [relockNext, Frame.Resides]
  | @notifyOne q y rest hwaits | @notifyOneEmpty q hwaits | @notifyAllEmpty q hwaits =>
    cases q <;> simp [WaitQueue.afterNotify, Frame.Resides]
  | @procSleepDue u n y rest hsleep hdue =>
    have hmain : y = .main u := hassert y (by simp [hsleep])
    simp [Frame.Resides, hmain]
  | @iterate u =>
    obtain rfl : x = .dispatcher u := hof
    obtain rfl : u = t := Option.some.inj ((hp.scheduler (.dispatcher u) u rfl).symm.trans hx)
    simp [Lutask.iterate, Frame.Resides]
  | _ => simp [Lutask.destroy, Frame.Resides]

/-- A call keeps the contexts where they belong. -/
theorem Resident.call (h : Resident s) (ha : Apart s) (hc : Continued s) (hp : Pinned s)
    (hactive : (s.thread t).active = some x) (hstack : (s.thread t).stack = [])
    (hop : OpStep s x op r) (horigin : op = .yieldOrigin → (s.ctx x).originScheduler = none) :
    Resident (r.1.setStack t r.2) := by
  have hunborn : ∀ y, s.started y = false → Exclusive (s.places y) → ∀ p, p ≠ .slot .unborn →
      s.places y p = 0 := by
    intro y hy hex p hne
    have hslot : 0 < s.places y (.slot .unborn) := by simp [State.slot, hy]
    exact hex.eq_zero hslot hne
  have hfresh : ∀ p, p ≠ .slot .unborn → s.places (.worker s.fresh) p = 0 :=
    hunborn _ (by simp [State.started]) (ha _ (by simp))
  have hidle : ∀ v, (s.thread v).active ≠ some (.worker s.fresh) := fun v hv => by
    simpa [State.started] using (hc.busy v _ (.inl hv)).1
  -- the one context whose scheduler is written was not started before
  have hsame : ∀ y, (y ≠ .worker s.fresh) → (r.1.ctx y).scheduler = (s.ctx y).scheduler := by
    intro y hy
    rcases hop.scheduler_cases y with hsame | ⟨hnew, -⟩ | ⟨rfl, hyield, hsome, -⟩
    · exact hsame
    · exact absurd hnew hy
    · exact absurd (horigin hyield) hsome
  have hthread : ∀ v, ((r.1.setStack t r.2).thread v).active = (s.thread v).active := fun v => by
    rw [State.setStack_active, hop.thread]
  have hmain : ∀ u, x = .main u → u = t := by
    rintro u rfl
    exact Option.some.inj ((hp.scheduler (.main u) u rfl).symm.trans (h.active t _ hactive))
  refine ⟨fun v y hy => ?_, fun u y hy => ?_, fun v f hf => ?_⟩
  · rw [hthread] at hy
    rw [State.setStack_ctx, hsame y fun hnew => hidle v (hnew ▸ hy)]
    exact h.active v y hy
  · have hold : y ∈ (s.sched u).queue := by simpa [hop.queue] using hy
    rw [State.setStack_ctx, hsame y ?_]
    · exact h.queued u y hold
    · rintro rfl
      exact absurd (hfresh (.slot (.queue u)) (by simp)) (State.slot_queue_pos.mpr hold).ne'
  · by_cases hv : v = t
    · subst hv
      exact (hop.resides (h.active v x hactive) hmain horigin hidle f (by simpa using hf)).mono
        (fun _ _ => rfl) fun y _ _ w hw => by rwa [State.setStack_active] at hw
    · have hold : f ∈ (s.thread v).stack := by
        simpa [State.setStack_thread_of_ne _ hv, hop.thread] using hf
      refine (h.frames v f hold).mono (fun y hy => hsame y ?_) fun y _ _ w hw => by rwa [hthread] at hw
      rintro rfl
      have hpos : 0 < s.places (.worker s.fresh) (.hand v) :=
        List.countP_pos_iff.mpr ⟨f, hold, by simp [hy]⟩
      exact absurd (hfresh (.hand v) (by simp)) hpos.ne'

/-- A frame keeps the contexts where they belong: one whose scheduler is written is in the hand of this
frame alone, and runs nowhere. -/
theorem Resident.frame (h : Resident s) (ha : Apart s) (hs : Shape s) (hc : Continued s) (hp : Pinned s)
    (hactive : (s.thread t).active = some x) (hstack : (s.thread t).stack = f :: rest)
    (hframe : FrameStep s t x now f r) (hassert : f.asserts s x)
    (hwake : (Event.exec t x f now).wakesSuspended s) : Resident (r.1.setStack t (r.2 ++ rest)) := by
  have hmem : f ∈ (s.thread t).stack := by simp [hstack]
  have hx := h.active t x hactive
  have hf := h.frames t f hmem
  have hwritten : ∀ y, (r.1.ctx y).scheduler ≠ (s.ctx y).scheduler →
      f.held = some y ∧ Exclusive (s.places y) := fun y hy => by
    obtain ⟨hmigrates, hpin⟩ := hframe.rewrites hp hmem hy
    exact ⟨Frame.held_of_migrates hmigrates, ha y (Ctx.ne_main hpin)⟩
  have hthread : ∀ v y, ((r.1.setStack t (r.2 ++ rest)).thread v).active = some y →
      (s.thread v).active = some y := by
    intro v y hy
    rw [State.setStack_active] at hy
    by_cases hv : v = t
    · subst hv
      cases hframe.active with
      | inl hsame => rwa [← hsame]
      | inr hnone =>
        obtain ⟨u, -, hnone⟩ := hnone
        simp [hnone] at hy
    · rwa [hframe.thread_of_ne hv] at hy
  refine ⟨fun v y hy => ?_, fun u y hy => ?_, fun v g hg => ?_⟩
  · have hold := hthread v y hy
    rw [State.setStack_ctx]
    by_contra hne
    have hsched := h.active v y hold
    have hchanged : (r.1.ctx y).scheduler ≠ (s.ctx y).scheduler := fun hsame =>
      hne (hsame.trans hsched)
    rcases (hframe.scheduler y).resolve_left hchanged with ⟨rfl | ⟨k, rfl⟩, -⟩ | ⟨rfl, -⟩
    · simp [hassert.2] at hsched
    · simp [hassert.2] at hsched
    · exact hf (hp.frames t _ hmem y rfl) v hold
  · rw [State.setStack_ctx]
    have hkept : y ∈ (s.sched u).queue → (r.1.ctx y).scheduler = some u := by
      intro hold
      rw [← h.queued u y hold]
      by_contra hne
      obtain ⟨hheld, hex⟩ := hwritten y hne
      exact absurd (held_free hex hmem hheld (.queue u)) (State.slot_queue_pos.mpr hold).ne'
    rcases hframe.queue (by simpa using hy) with hold | ⟨-, hawakens, hcase⟩
    · exact hkept hold
    · have hsame : (r.1.ctx y).scheduler = (s.ctx y).scheduler := by
        by_contra hne
        have hmigrates := (hframe.rewrites hp hmem hne).1
        rcases hcase with rfl | rfl | rfl <;> simp [Frame.migrates] at hmigrates
      rw [hsame]
      rcases hcase with rfl | rfl | rfl
      · exact hf.1.trans (hx.symm.trans hawakens)
      · have hmain : y = .main u := hf
        exact hp.scheduler y u (by rw [hmain]; rfl)
      · exact hawakens
  · by_cases hv : v = t
    · subst hv
      cases List.mem_append.mp (by simpa using hg : g ∈ r.2 ++ rest) with
      | inl hnew =>
        exact (hframe.resides h hs hc hp hactive hstack hassert hwake g hnew).mono (fun _ _ => rfl)
          fun y _ _ w hw => by rwa [State.setStack_active] at hw
      | inr hbelow =>
        have hold : g ∈ (s.thread v).stack := by simp [hstack, hbelow]
        refine (h.frames v g hold).mono (fun y hy => ?_) fun y _ _ w hw => hthread w y hw
        by_contra hne
        obtain ⟨hheld, hex⟩ := hwritten y hne
        exact (held_once hex hstack hheld hold hy).2 hbelow
    · have hold : g ∈ (s.thread v).stack := by
        simpa [State.setStack_thread_of_ne _ hv, hframe.thread_of_ne hv] using hg
      refine (h.frames v g hold).mono (fun y hy => ?_) fun y _ _ w hw => hthread w y hw
      by_contra hne
      obtain ⟨hheld, hex⟩ := hwritten y hne
      exact hv (held_once hex hstack hheld hold hy).1

/-- A switch keeps the contexts where they belong: the resumed one is in no other hand. -/
theorem Resident.switch {k : Switch T} {stack : List (Frame T)} (h : Resident s) (ha : Apart s)
    (hs : Shape s) (hp : Pinned s) (hactive : (s.thread t).active = some x)
    (hstack : (s.thread t).stack = f :: rest) (htarget : f.target = some (y, k))
    (hsaved : (s.ctx y).c = some stack) : Resident (switched s t x rest y k stack) := by
  have hmem : f ∈ (s.thread t).stack := by simp [hstack]
  have hx := h.active t x hactive
  have hof := hs.frames t x hactive f hmem
  obtain ⟨-, hk⟩ := Frame.of_target htarget hof
  have hy : (s.ctx y).scheduler = some t := by
    cases f with
    | resume z k' =>
      obtain ⟨rfl, -⟩ : z = y ∧ k' = k := by simpa [Frame.target] using htarget
      exact h.frames t (.resume z k') hmem
    | returnToMain u =>
      obtain ⟨rfl, -⟩ : Ctx.main u = y ∧ Switch.suspendWithCC = k := by
        simpa [Frame.target] using htarget
      obtain rfl : x = .dispatcher u := hof
      rw [hp.scheduler (.main u) u rfl, ← hp.scheduler (.dispatcher u) u rfl]
      exact hx
    | _ => simp [Frame.target] at htarget
  refine ⟨fun v z hv => ?_, fun u z hu => ?_, fun v g hg => ?_⟩
  · rw [switched_scheduler]
    by_cases hvt : v = t
    · subst hvt
      obtain rfl : y = z := by simpa [switched] using hv
      exact hy
    · exact h.active v z (by simpa [switched, hvt] using hv)
  · rw [switched_scheduler]
    exact h.queued u z hu
  · by_cases hvt : v = t
    · subst hvt
      cases List.mem_cons.mp (by simpa [switched] using hg : g ∈ .save x k :: stack) with
      | inl hnew =>
        subst hnew
        cases k with
        | resumeReady z =>
          obtain rfl : z = x := hk
          exact (switched_scheduler ..).trans hx
        | _ => trivial
      | inr hold => exact Frame.resides_of_settled (hs.suspended y stack hsaved g hold).1 _ _
    · have hold : g ∈ (s.thread v).stack := by simpa [switched, hvt] using hg
      refine (h.frames v g hold).mono (fun z _ => switched_scheduler ..) fun z hz hpin w hw => ?_
      by_cases hwt : w = t
      · subst hwt
        obtain rfl : y = z := by simpa [switched] using hw
        -- the thread that resumes it would have it in its hand, too
        cases f with
        | resume z' k' =>
          obtain ⟨rfl, -⟩ : z' = y ∧ k' = k := by simpa [Frame.target] using htarget
          exact absurd (held_once (ha _ (Ctx.ne_main hpin)) hstack rfl hold hz).1 hvt
        | returnToMain u =>
          obtain ⟨rfl, -⟩ : Ctx.main u = y ∧ Switch.suspendWithCC = k := by
            simpa [Frame.target] using htarget
          simp [Ctx.isPinned] at hpin
        | _ => simp [Frame.target] at htarget
      · simpa [switched, hwt] using hw

/-- Every careful step keeps the contexts where they belong. -/
theorem Resident.step (h : Resident s) (ha : Apart s) (hs : Shape s) (hc : Continued s)
    (hp : Pinned s) (he : Careful s e) (hstep : Lutask.step s e = some s') : Resident s' := by
  obtain ⟨hassert, horigin, hwake⟩ := he
  cases step_inv hstep with
  | call hactive hstack huser hop =>
    refine h.call ha hc hp hactive hstack hop fun hyield => ?_
    subst hyield
    exact horigin
  | frame hactive hstack hframe => exact h.frame ha hs hc hp hactive hstack hframe hassert hwake
  | switch hactive hstack htarget hsaved => exact h.switch ha hs hp hactive hstack htarget hsaved

end Lutask
