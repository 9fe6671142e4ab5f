import Lutask.Machine.Pinned
import Lutask.SharedWork.Departure

/-!
# Which scheduler a context belongs to

All threads under `SharedWorkPolicy`, without `Join`, sleeping, `YieldOrigin` and exits. The active
context of a thread belongs to the scheduler of this thread, also while it leaves; only pinned
contexts enter a `localQueue_`, always the one of their own thread, and only workers enter the
static queue.
-/

namespace Lutask

open LabelledRuns TokenPlacement

variable {T : Type*}

/-- What the frame of a function that thread `t` executes knows about schedulers. -/
def Frame.Homed (s : State T) (t : T) : Frame T → Prop
  | .pickNext u _ | .pickLocal u _ | .terminateRemove u _ => u = t
  | .schedule y | .save _ (.resumeReady y) => y.isPinned → (s.ctx y).scheduler = some t
  | .resume y _ => (s.ctx y).scheduler = some t
  | .postAttach y | .detach y | .readyPush y | .attachResume y _ => y.isPinned = false
  | .scheduleOn .. => False
  | _ => True

/-- Contexts and queues belong to the threads that use them. -/
structure Homed (s : State T) : Prop where
  active : ∀ t x, (s.thread t).active = some x → (s.ctx x).scheduler = some t
  pinned : ∀ x t, x.owner = some t → (s.ctx x).scheduler = some t
  queued : ∀ u x, x ∈ (s.sched u).queue → x.isPinned ∧ (s.ctx x).scheduler = some u
  ready : ∀ x, x ∈ s.readyQueue → x.isPinned = false
  frames : ∀ t f, f ∈ (s.thread t).stack → f.Homed s t

theorem Homed.initial (policy : T → Policy) : Homed (State.initial policy) where
  active t x h := by
    obtain rfl : Ctx.main t = x := by simpa [State.initial] using h
    rfl
  pinned x t h := by
    cases x with
    | main v | dispatcher v =>
      obtain rfl : v = t := by simpa [Ctx.owner] using h
      rfl
    | worker n => simp [Ctx.owner] at h
  queued u x h := by
    obtain rfl : x = .dispatcher u := by simpa [State.initial] using h
    exact ⟨rfl, rfl⟩
  ready x h := by simp [State.initial] at h
  frames t f h := by simp [State.initial] at h

/-- A frame knows the same as long as the schedulers it relies on stay. -/
theorem Frame.Homed.mono {s s' : State T} {t : T} {f : Frame T} (h : f.Homed s t)
    (hresume : ∀ y k, f = .resume y k → (s'.ctx y).scheduler = (s.ctx y).scheduler)
    (hpin : ∀ y, y.isPinned → (s'.ctx y).scheduler = (s.ctx y).scheduler) : f.Homed s' t := by
  cases f with
  | resume y k =>
    simp only [Frame.Homed] at *
    rw [hresume y k rfl, h]
  | schedule y =>
    intro hy
    rw [hpin y hy]
    exact h hy
  | save prev k =>
    cases k with
    | resumeReady y =>
      intro hy
      rw [hpin y hy]
      exact h hy
    | _ => trivial
  | _ => exact h

variable [DecidableEq T] {s : State T} {t : T} {x : Ctx T} {now : ℕ}

/-- A context in the hand of a function is active nowhere, not even on its way out. -/
theorem Departing.held_not_active (h : Departing s) (ho : Orderly s) {f : Frame T} {y : Ctx T}
    (hf : f ∈ (s.thread t).stack) (hy : f.held = some y) (v : T) : (s.thread v).active ≠ some y := by
  intro hactive
  have hfree := ho.placed.held_free hf hy
  cases hleaves : (s.thread v).stack.any Frame.leaves with
  | true =>
    obtain ⟨g, hg, hgl⟩ := List.any_eq_true.mp hleaves
    obtain ⟨a, ha⟩ := (h.recorded v y g hactive hg hgl).slot hgl
    exact absurd (hfree a) ha.ne'
  | false =>
    have hone : 0 < s.places y (.active v) := by
      simp only [State.places, hactive, hleaves]
      simp
    have hhand : 0 < s.places y (.hand t) := List.countP_pos_iff.mpr ⟨f, hf, by simp [hy]⟩
    simpa using (ho.placed.exclusive y).eq_of_pos hone hhand

/-- Under the work-sharing policy only pinned contexts enter a `localQueue_`. -/
theorem FrameStep.queued {f : Frame T} {r : Rest T} (h : FrameStep s t x now f r)
    (hpolicy : ∀ u, (s.sched u).policy = .sharedWork) {u : T} {y : Ctx T}
    (hy : y ∈ (r.1.sched u).queue) : y ∈ (s.sched u).queue ∨
      y.isPinned ∧ (f = .schedule y ∧ (s.ctx x).scheduler = some u ∨
        f = .wake y ∧ (s.ctx y).scheduler = some u ∨ f = .scheduleOn u y) := by
  refine h.queue hy |>.imp_right ?_
  rintro ⟨hkind, hawakens, hcase⟩
  refine ⟨hkind.resolve_left (by simp [hpolicy]), ?_⟩
  rcases hcase with rfl | rfl | rfl
  · exact .inl ⟨rfl, hawakens⟩
  · exact .inr (.inr rfl)
  · exact .inr (.inl ⟨rfl, hawakens⟩)

/-- A new worker in the hand of `_Start` and the context that calls an operation are no strangers. -/
theorem OpStep.homed {op : Op T} {r : Rest T} (h : OpStep s x op r) (hop : op.strays = false)
    (hx : (s.ctx x).scheduler = some t) (hpinned : ∀ u, x = .main u → u = t) :
    ∀ g ∈ r.2, g.Homed r.1 t := by
  cases h with
  | start launch => cases launch <;> simp [Lutask.start, Frame.Homed, Ctx.isPinned]
  | @yield u hu =>
    obtain rfl : u = t := Option.some.inj (hu.symm.trans hx)
    simp [Lutask.yield, Frame.Homed]
  | destructor hu => simp [Lutask.destructor, Frame.Homed, hpinned _ hu]
  | yieldOrigin | yieldOriginNone | waitUntil => simp [Op.strays] at hop
  | _ => simp [Lutask.terminate, Frame.Homed]

/-- A function passes on only contexts and schedulers that belong to its thread. -/
theorem FrameStep.homed {f : Frame T} {r : Rest T} (h : FrameStep s t x now f r) (hs : Homed s)
    (hawake : ∀ u, (s.sched u).sleepQueue = [])
    (hof : f.Of x) (hx : (s.ctx x).scheduler = some t) (hf : f.Homed s t) :
    ∀ g ∈ r.2, g.Homed r.1 t := by
  have hdispatcher : ∀ u, x = .dispatcher u → u = t := by
    rintro u rfl
    exact Option.some.inj ((hs.pinned _ u rfl).symm.trans hx)
  have hschedule : ∀ u y, ∀ g ∈ (Lutask.schedule s u y).2, g.Homed (Lutask.schedule s u y).1 t := by
    intro u y
    rcases schedule_cases s u y with ⟨-, hr⟩ | ⟨-, hpin, hr⟩
    · simp [hr]
    · simp [hr, Frame.Homed, hpin]
  cases h with
  | schedule hu | wake hu => exact hschedule _ _
  | scheduleOn => exact absurd hf (by simp [Frame.Homed])
  | @postAttach u w hu hmtx =>
    have hw : w.isPinned = false := hf
    simp [Frame.Homed, hw]
  | detachAsync | detach => simpa [Frame.Homed] using hf
  | @pop f u k y rest hcase hqueue =>
    have hu : u = t := by rcases hcase with rfl | ⟨rfl, -⟩ <;> exact hf
    have hy := (hs.queued u y (by simp [hqueue])).2
    simp [Frame.Homed, hy, hu]
  | @pickReady u k y rest hpol hready =>
    have hy := hs.ready y (by simp [hready])
    simp [Frame.Homed, hy]
  | pickReadyEmpty => simpa [Frame.Homed] using hf
  | @attachResume u y k hu hmtx =>
    obtain rfl : u = t := Option.some.inj (hu.symm.trans hx)
    simp [Frame.Homed, workerQueuePush]
  | @save prev k stack hfctx =>
    cases k with
    | resumeReady y =>
      obtain rfl : y = prev := hof
      simpa [Switch.onTop, Frame.Homed] using hf
    | _ => simp [Switch.onTop, Frame.Homed]
  | @schedulerTerminate u y hu hmtx =>
    obtain rfl : y = x := hof
    obtain rfl : u = t := Option.some.inj (hu.symm.trans hx)
    simp [Frame.Homed]
  | terminateRemove =>
    have hu : _ = t := hf
    simp [Lutask.terminateRemove, Frame.Homed, hu]
  | @suspend u q y hu =>
    obtain rfl : y = x := hof
    obtain rfl : u = t := Option.some.inj (hu.symm.trans hx)
    simp [Frame.Homed]
  | @relock q l p y hl => cases p <;> simp [relockNext, Frame.Homed]
  | @notifyOne q y rest hwaits | @notifyOneEmpty q hwaits | @notifyAllEmpty q hwaits =>
    cases q <;> simp [WaitQueue.afterNotify, Frame.Homed]
  | procSleepDue hsleep => simp [hawake] at hsleep
  | iterate => simp [Lutask.iterate, Frame.Homed, hdispatcher _ hof]
  | _ => simp [Lutask.destroy, Frame.Homed]

omit [DecidableEq T] in
/-- Suspended frames know nothing about schedulers. -/
theorem Frame.homed_of_settled {f : Frame T} (h : f.isSettled) (s : State T) (t : T) : f.Homed s t := by
  cases f <;> simp [Frame.isSettled] at h <;> trivial

/-- A call keeps contexts and queues with their threads. -/
theorem Homed.call {op : Op T} {r : Rest T} (h : Homed s) (ho : Orderly s)
    (hactive : (s.thread t).active = some x) (hstack : (s.thread t).stack = [])
    (hop : OpStep s x op r) (hstrays : op.strays = false) : Homed (r.1.setStack t r.2) := by
  have hx := h.active t x hactive
  -- the one context whose scheduler is written was not started before
  have hsame : ∀ y, s.started y → (r.1.ctx y).scheduler = (s.ctx y).scheduler := by
    intro y hy
    refine (hop.scheduler hstrays y).resolve_right ?_
    rintro ⟨rfl, -⟩
    simp [State.started] at hy
  have hpin : ∀ y, y.isPinned → (r.1.ctx y).scheduler = (s.ctx y).scheduler := by
    intro y hy
    refine hsame y ?_
    cases y with
    | worker n => simp [Ctx.isPinned] at hy
    | main u | dispatcher u => rfl
  have hpinned : ∀ u, x = .main u → u = t := by
    rintro u rfl
    exact Option.some.inj ((h.pinned _ u rfl).symm.trans hx)
  refine ⟨fun v y hy => ?_, fun y v hy => ?_, fun u y hy => ?_, fun y hy => ?_, fun v f hf => ?_⟩
  · have hy' : (s.thread v).active = some y := by
      by_cases hvt : v = t
      · subst hvt
        simpa [hop.thread] using hy
      · simpa [State.setStack_thread_of_ne _ hvt, hop.thread] using hy
    simpa [hsame y (ho.continued.busy v y (.inl hy')).1] using h.active v y hy'
  · have hpy : y.isPinned := Ctx.isPinned_of_owner hy
    simpa [hpin y hpy] using h.pinned y v hy
  · obtain ⟨hpy, hsched⟩ := h.queued u y (by simpa [hop.queue] using hy)
    exact ⟨hpy, by simpa [hpin y hpy] using hsched⟩
  · exact h.ready y (by simpa [hop.readyQueue] using hy)
  · by_cases hvt : v = t
    · subst hvt
      exact (hop.homed hstrays hx hpinned f (by simpa using hf)).mono (fun _ _ _ => rfl) fun _ _ => rfl
    · have hf' : f ∈ (s.thread v).stack := by
        simpa [State.setStack_thread_of_ne _ hvt, hop.thread] using hf
      refine (h.frames v f hf').mono ?_ hpin
      rintro y k rfl
      refine hsame y ?_
      have hunborn := ho.placed.held_free (t := v) (f := .resume y k) hf' rfl .unborn
      simpa [State.slot] using hunborn

/-- A frame keeps contexts and queues with their threads: a context whose scheduler is written is in
the hand of this frame, so nobody else relies on it. -/
theorem Homed.frame {f : Frame T} {rest : List (Frame T)} {r : Rest T} (h : Homed s) (ho : Orderly s)
    (hd : Departing s) (hpolicy : ∀ u, (s.sched u).policy = .sharedWork)
    (hactive : (s.thread t).active = some x) (hstack : (s.thread t).stack = f :: rest)
    (hframe : FrameStep s t x now f r) : Homed (r.1.setStack t (r.2 ++ rest)) := by
  have hmem : f ∈ (s.thread t).stack := by simp [hstack]
  have hx := h.active t x hactive
  have hof := ho.shape.frames t x hactive f hmem
  have hf := h.frames t f hmem
  have hwritten : ∀ y, (r.1.ctx y).scheduler ≠ (s.ctx y).scheduler →
      f.held = some y ∧ y.isPinned = false := by
    intro y hy
    rcases (hframe.scheduler y).resolve_left hy with ⟨rfl | ⟨k, rfl⟩, -⟩ | ⟨rfl, -⟩ <;> exact ⟨rfl, hf⟩
  have hpin : ∀ y, y.isPinned → (r.1.ctx y).scheduler = (s.ctx y).scheduler := by
    intro y hy
    by_contra hne
    simp [(hwritten y hne).2] at hy
  refine ⟨fun v y hy => ?_, fun y v hy => ?_, fun u y hy => ?_, fun y hy => ?_, fun v g hg => ?_⟩
  · have hy' : (s.thread v).active = some y := by
      by_cases hvt : v = t
      · subst hvt
        rcases hframe.active with hsame | ⟨u, -, hnone⟩
        · simpa [hsame] using hy
        · simp [hnone] at hy
      · simpa [State.setStack_thread_of_ne _ hvt, hframe.thread_of_ne hvt] using hy
    have hsame : (r.1.ctx y).scheduler = (s.ctx y).scheduler := by
      by_contra hne
      exact hd.held_not_active ho hmem (hwritten y hne).1 v hy'
    simpa [hsame] using h.active v y hy'
  · have hpy : y.isPinned := Ctx.isPinned_of_owner hy
    simpa [hpin y hpy] using h.pinned y v hy
  · rcases hframe.queued hpolicy (by simpa using hy) with hold | ⟨hpy, hcase⟩
    · obtain ⟨hpy, hsched⟩ := h.queued u y hold
      exact ⟨hpy, by simpa [hpin y hpy] using hsched⟩
    · refine ⟨hpy, ?_⟩
      rw [State.setStack_ctx, hpin y hpy]
      rcases hcase with ⟨rfl, hu⟩ | ⟨rfl, hu⟩ | rfl
      · rw [hf hpy, ← hu, hx]
      · exact hu
      · exact absurd hf (by simp [Frame.Homed])
  · rcases hframe.readied (by simpa [State.setStack] using hy) with hold | rfl
    · exact h.ready y hold
    · exact hf
  · by_cases hvt : v = t
    · subst hvt
      rcases List.mem_append.mp (by simpa using hg) with hnew | hold
      · exact (hframe.homed h ho.placed.awake hof hx hf g hnew).mono (fun _ _ _ => rfl)
          fun _ _ => rfl
      · refine (h.frames v g (by simp [hstack, hold])).mono ?_ hpin
        rintro y k rfl
        rcases (List.pairwise_cons.mp (hstack ▸ ho.shape.below v)).1 _ hold with hsettled | ⟨-, houter⟩
        · simp [Frame.isSettled] at hsettled
        · simp [Frame.isOuter] at houter
    · have hg' : g ∈ (s.thread v).stack := by
        simpa [State.setStack_thread_of_ne _ hvt, hframe.thread_of_ne hvt] using hg
      refine (h.frames v g hg').mono ?_ hpin
      rintro y k rfl
      show (r.1.ctx y).scheduler = _
      by_contra hne
      have hhand : 0 < s.places y (.hand t) :=
        List.countP_pos_iff.mpr ⟨f, hmem, by simp [(hwritten y hne).1]⟩
      have hother : 0 < s.places y (.hand v) :=
        List.countP_pos_iff.mpr ⟨_, hg', by simp [Frame.held]⟩
      have hplace := (ho.placed.exclusive y).eq_of_pos hhand hother
      exact hvt (by simpa [eq_comm] using hplace)

/-- A switch keeps contexts and queues with their threads. -/
theorem Homed.switch {y : Ctx T} {f : Frame T} {k : Switch T} {rest stack : List (Frame T)}
    (h : Homed s) (ho : Orderly s) (he : Enclosed s) (hactive : (s.thread t).active = some x)
    (hstack : (s.thread t).stack = f :: rest) (htarget : f.target = some (y, k))
    (hc : (s.ctx y).c = some stack) : Homed (switched s t x rest y k stack) := by
  have hmem : f ∈ (s.thread t).stack := by simp [hstack]
  obtain ⟨-, hk⟩ := Frame.of_target htarget (ho.shape.frames t x hactive f hmem)
  have hsched : ∀ z, ((switched s t x rest y k stack).ctx z).scheduler = (s.ctx z).scheduler := by
    intro z
    by_cases hzy : z = y <;> simp [switched, hzy]
  have hy : (s.ctx y).scheduler = some t := by
    cases f with
    | resume z k' =>
      obtain ⟨rfl, -⟩ : z = y ∧ k' = k := by simpa [Frame.target] using htarget
      exact h.frames t (.resume z k') hmem
    | returnToMain u => exact absurd hmem (he.returns t u)
    | _ => simp [Frame.target] at htarget
  refine ⟨fun v z hz => ?_, fun z v hz => ?_, fun u z hz => ?_, h.ready, fun v g hg => ?_⟩
  · rw [hsched]
    by_cases hvt : v = t
    · subst hvt
      obtain rfl : y = z := by simpa [switched] using hz
      exact hy
    · exact h.active v z (by simpa [switched, hvt] using hz)
  · rw [hsched]
    exact h.pinned z v hz
  · rw [hsched]
    exact h.queued u z hz
  · by_cases hvt : v = t
    · subst hvt
      rcases List.mem_cons.mp (by simpa [switched] using hg) with rfl | hold
      · cases k with
        | resumeReady z =>
          obtain rfl : z = x := hk
          intro _
          rw [hsched]
          exact h.active v z hactive
        | _ => trivial
      · exact Frame.homed_of_settled (ho.shape.suspended y stack hc g hold).1 _ _
    · exact (h.frames v g (by simpa [switched, hvt] using hg)).mono (fun z _ _ => hsched z)
        fun z _ => hsched z

/-- The invariants of threads that share their work, as long as no thread exits. -/
structure Shared (s : State T) : Prop where
  orderly : Orderly s
  enclosed : Enclosed s
  departing : Departing s
  homed : Homed s
  policy : ∀ u, (s.sched u).policy = .sharedWork

/-- The events of work-sharing threads without `Join`, sleeping, `YieldOrigin` and exits. -/
def SharedWork.Allowed (s : State T) (e : Event T) : Prop :=
  e.keepsPlaces ∧ e.joinless ∧ ¬ e.exits s

instance (s : State T) (e : Event T) : Decidable (SharedWork.Allowed s e) :=
  inferInstanceAs (Decidable (_ ∧ _ ∧ _))

/-- Every allowed step keeps the invariants of threads that share their work. -/
theorem Shared.step {s' : State T} {e : Event T} (h : Shared s) (he : SharedWork.Allowed s e)
    (hstep : step s e = some s') : Shared s' := by
  obtain ⟨hplaces, hjoin, hexit⟩ := he
  refine ⟨h.orderly.step hplaces hstep, h.enclosed.step h.orderly hexit hstep,
    h.departing.step h.orderly hjoin hexit hstep, ?_, fun u => ?_⟩
  · cases step_inv hstep with
    | call hactive hstack huser hop => exact h.homed.call h.orderly hactive hstack hop hplaces
    | frame hactive hstack hframe =>
      exact h.homed.frame h.orderly h.departing h.policy hactive hstack hframe
    | switch hactive hstack htarget hc =>
      exact h.homed.switch h.orderly h.enclosed hactive hstack htarget hc
  · cases step_inv hstep with
    | call hactive hstack huser hop => exact (hop.policy u).trans (h.policy u)
    | frame hactive hstack hframe => exact (hframe.policy u).trans (h.policy u)
    | switch hactive hstack htarget hc => exact h.policy u

/-- The invariants hold in every state that work-sharing threads reach. -/
theorem Runs.shared {guard : State T → Event T → Prop} {events : List (Event T)} {s : State T}
    (h : Runs (fun _ => .sharedWork) guard events s)
    (hguard : ∀ s e, guard s e → SharedWork.Allowed s e) : Shared s :=
  Run.invariant h
    ⟨Orderly.initial _, Enclosed.initial _, Departing.initial _, Homed.initial _, fun _ => rfl⟩
    fun s e _ hs he hstep => hs.step (hguard s e he) hstep

end Lutask
