import Lutask.Dispatcher.Residence
import Lutask.Machine.Enclosed
import Lutask.Machine.SchedulerMutex
import Lutask.Machine.Script
import Lutask.Machine.Waiting

/-!
# Every thread runs its own contexts

As long as nobody sleeps or yields to its origin, nobody wakes a context that still runs, and no
dispatcher leaves its loop, every context that a thread runs, queues or has in its hand belongs to the
scheduler of this thread and can be resumed. In particular the dispatcher of a thread that executes a
user's call is in the queue of this thread.
-/

namespace Lutask

open LabelledRuns

variable {T : Type*}

/-- Nobody wakes a context before it was saved. -/
def Event.wakesSaved (s : State T) : Event T → Prop
  | .exec _ _ (.wake y) _ => (s.ctx y).c ≠ none
  | _ => True

/-- The events of threads that are in service, and on which nobody sleeps, yields to its origin or wakes
a running context. -/
def Serving [DecidableEq T] (s : State T) (e : Event T) : Prop :=
  (e.keepsPlaces ∧ ¬ e.exits s) ∧ e.wakesSaved s

/-- What a frame that thread `t` executes knows about its scheduler and about the context in its hand. -/
def Frame.Housed (s : State T) (t : T) : Frame T → Prop
  | .pickNext u _ | .pickLocal u _ | .terminateRemove u _ => u = t
  | .schedule y | .resume y _ => (s.ctx y).scheduler = some t ∧ (s.ctx y).c ≠ none
  | .postAttach y | .attachResume y _ | .readyPush y => (s.ctx y).c ≠ none
  | .detach y => ((s.ctx y).policy ≠ .async → (s.ctx y).scheduler ≠ none) ∧ (s.ctx y).c ≠ none
  | .save _ (.resumeReady y) => (s.ctx y).scheduler = some t
  | .wake y => (s.ctx y).scheduler ≠ none
  | .scheduleOn .. => False
  | _ => True

/-- Whatever a thread runs, queues or has in its hand belongs to it and can be resumed. -/
structure Housed (s : State T) : Prop where
  running : ∀ t, (s.thread t).active ≠ none
  active : ∀ t x, (s.thread t).active = some x → (s.ctx x).scheduler = some t
  queued : ∀ u, ∀ y ∈ (s.sched u).queue, (s.ctx y).scheduler = some u ∧ (s.ctx y).c ≠ none
  ready : ∀ y ∈ s.readyQueue, (s.ctx y).c ≠ none
  waiting : ∀ q, ∀ y ∈ s.waits q, (s.ctx y).scheduler ≠ none
  frames : ∀ t, ∀ f ∈ (s.thread t).stack, f.Housed s t
  mtx : ∀ u, ∀ v ∈ (s.sched u).mtx, v = u

/-- A frame at which a context stays suspended has nothing in its hand. -/
theorem Frame.housed_of_settled {f : Frame T} (h : f.isSettled) (s : State T) (t : T) :
    f.Housed s t := by
  cases f <;> simp [Frame.isSettled] at h <;> trivial

/-- A frame knows the same as long as the context in its hand stays the same. -/
theorem Frame.Housed.mono {s s' : State T} {t : T} {f : Frame T} (h : f.Housed s t)
    (hkept : ∀ y, f.held = some y → (s'.ctx y).scheduler = (s.ctx y).scheduler ∧
      (s'.ctx y).policy = (s.ctx y).policy ∧ ((s.ctx y).c ≠ none → (s'.ctx y).c ≠ none)) :
    f.Housed s' t := by
  cases f with
  | schedule y | resume y k | postAttach y | attachResume y k | readyPush y | detach y | wake y =>
    obtain ⟨hsched, hpolicy, hc⟩ := hkept y rfl
    simp_all [Frame.Housed]
  | save prev k =>
    cases k with
    | resumeReady y =>
      obtain ⟨hsched, -⟩ := hkept y rfl
      exact hsched.trans h
    | _ => trivial
  | scheduleOn u y => exact h.elim
  | pickNext u k | pickLocal u k | terminateRemove u y => exact h
  | _ => trivial

theorem Housed.initial (policy : T → Policy) : Housed (State.initial policy) where
  running t := by simp [State.initial]
  active t x h := by
    obtain rfl : .main t = x := by simpa [State.initial] using h
    rfl
  queued u y h := by
    obtain rfl : y = .dispatcher u := by simpa [State.initial] using h
    simp [State.initial, Context.initial]
  ready y h := by simp [State.initial] at h
  waiting q y h := by simp [State.initial] at h
  frames t f h := by simp [State.initial] at h
  mtx u v h := by simp [State.initial] at h

variable [DecidableEq T] {s s' : State T} {t : T} {x y : Ctx T} {now : ℕ} {f : Frame T} {op : Op T}
  {r : Rest T} {e : Event T} {rest : List (Frame T)}

/-- Only the start of a fiber writes the launch policy, of the new worker. -/
theorem OpStep.launch (h : OpStep s x op r) (y : Ctx T) :
    (r.1.ctx y).policy = (s.ctx y).policy ∨ y = .worker s.fresh := by
  cases h with
  | start launch =>
    by_cases hy : y = .worker s.fresh
    · exact .inr hy
    · exact .inl (by simp [Lutask.start, hy])
  | yieldOrigin hu horigin | waitUntil hu | terminate hpin =>
    left
    by_cases hy : y = x <;> simp [Lutask.waitUntil, Lutask.terminate, workerQueueRemove, hy]
  | _ => exact .inl (by simp [Lutask.yield, Lutask.destructor, workerQueueRemove])

theorem FrameStep.launch (h : FrameStep s t x now f r) (y : Ctx T) :
    (r.1.ctx y).policy = (s.ctx y).policy := by
  cases h with
  | @postAttach u w hu hmtx | @attachResume u w k hu hmtx =>
    by_cases hy : y = w <;> simp [workerQueuePush, hy]
  | @detach u w hasync hu => by_cases hy : y = w <;> simp [detachWorkerContext, workerQueueRemove, hy]
  | @save prev k stack hfctx => by_cases hy : y = prev <;> simp [hy]
  | @procSleepDue u n w rest hsleep hdue => by_cases hy : y = w <;> simp [hy]
  | _ => simp [Lutask.terminateRemove, Lutask.iterate, Lutask.destroy, procTerminated]

theorem State.away_of_queue {u : T} (h : y ∈ (s.sched u).queue) : s.Away y :=
  ⟨.slot (.queue u), State.slot_queue_pos.mpr h, by simp, by simp, by simp⟩

/-- A call has only a new worker, or nothing, in its hand. -/
theorem OpStep.housed (h : OpStep s x op r) (hop : op.strays = false)
    (hx : (s.ctx x).scheduler = some t) (hmain : ∀ u, x = .main u → u = t) :
    ∀ g ∈ r.2, g.Housed r.1 t := by
  cases h with
  | start launch => cases launch <;> simp [Lutask.start, Frame.Housed]
  | @yield u hu =>
    obtain rfl : u = t := Option.some.inj (hu.symm.trans hx)
    simp [Lutask.yield, Frame.Housed]
  | yieldOrigin | yieldOriginNone | waitUntil => simp [Op.strays] at hop
  | destructor hu => simp [Lutask.destructor, Frame.Housed, hmain _ hu]
  | _ => simp [Lutask.terminate, Frame.Housed]

/-- A frame passes on only contexts that belong to its thread, or detaches them, and all of them can be
resumed. -/
theorem FrameStep.housed (h : FrameStep s t x now f r) (hh : Housed s) (hs : Shape s) (hp : Pinned s)
    (hawake : ∀ u, (s.sched u).sleepQueue = []) (hactive : (s.thread t).active = some x)
    (hmem : f ∈ (s.thread t).stack) (hwake : (Event.exec t x f now).wakesSaved s) :
    ∀ g ∈ r.2, g.Housed r.1 t := by
  have hx := hh.active t x hactive
  have hof := hs.frames t x hactive f hmem
  have hf := hh.frames t f hmem
  have hdetach : ∀ u z, (s.ctx z).scheduler ≠ none → (s.ctx z).c ≠ none →
      ∀ g ∈ (Lutask.schedule s u z).2, g.Housed (Lutask.schedule s u z).1 t := by
    intro u z hz hc
    rcases schedule_cases s u z with ⟨-, hr⟩ | ⟨-, -, hr⟩
    · simp [hr]
    · simpa [hr, Frame.Housed] using ⟨fun _ => hz, hc⟩
  cases h with
  | schedule hu => exact hdetach _ _ (by simp [hf.1]) hf.2
  | wake hu => exact hdetach _ _ hf hwake
  | scheduleOn => exact hf.elim
  | @postAttach u w hu hmtx =>
    obtain rfl : u = t := Option.some.inj (hu.symm.trans hx)
    simpa [Frame.Housed, workerQueuePush] using hf
  | detachAsync hasync => simpa [Frame.Housed] using hf.2
  | detach hasync hu => simpa [Frame.Housed, detachWorkerContext, workerQueueRemove] using hf.2
  | @pop f u k y queue hcase hqueue =>
    have hu : u = t := by rcases hcase with rfl | ⟨rfl, -⟩ <;> exact hf
    simpa [Frame.Housed, hu] using hh.queued u y (by simp [hqueue])
  | @pickReady u k y queue hpolicy hready => simpa [Frame.Housed] using hh.ready y (by simp [hready])
  | pickReadyEmpty => simpa [Frame.Housed] using hf
  | @attachResume u y k hu hmtx =>
    obtain rfl : u = t := Option.some.inj (hu.symm.trans hx)
    simpa [Frame.Housed, workerQueuePush] using hf
  | @save prev k stack hfctx =>
    cases k with
    | resumeReady z =>
      obtain rfl : z = prev := hof
      have hsched : (s.ctx z).scheduler = some t := hf
      simp [Switch.onTop, Frame.Housed, hsched]
    | _ => simp [Switch.onTop, Frame.Housed]
  | @schedulerTerminate u y hu hmtx =>
    obtain rfl : y = x := hof
    obtain rfl : u = t := Option.some.inj (hu.symm.trans hx)
    simp [Frame.Housed]
  | terminateRemove => simpa [Lutask.terminateRemove, Frame.Housed] using hf
  | @suspend u q y hu =>
    obtain rfl : y = x := hof
    obtain rfl : u = t := Option.some.inj (hu.symm.trans hx)
    simp [Frame.Housed]
  | @relock q l p y hl => cases p <;> simp [relockNext, Frame.Housed]
  | @notifyOne q y queue hwaits =>
    have hy := hh.waiting q y (by simp [hwaits])
    cases q <;> simpa [WaitQueue.afterNotify, Frame.Housed] using hy
  | @notifyAll q y queue hwaits => simpa [Frame.Housed] using hh.waiting q y (by simp [hwaits])
  | @notifyOneEmpty q hwaits | @notifyAllEmpty q hwaits =>
    cases q <;> simp [WaitQueue.afterNotify, Frame.Housed]
  | procSleepDue hsleep hdue => simp [hawake] at hsleep
  | @iterate u =>
    obtain rfl : x = .dispatcher u := hof
    obtain rfl : u = t := Option.some.inj ((hp.scheduler (.dispatcher u) u rfl).symm.trans hx)
    simp [Lutask.iterate, Frame.Housed]
  | _ => simp [Lutask.destroy, Frame.Housed]

/-- A call writes no context but the new worker, which is in no queue and in nobody's hand. -/
theorem Housed.call (h : Housed s) (ho : Orderly s) (hp : Pinned s) (hactive : (s.thread t).active = some x)
    (hstack : (s.thread t).stack = []) (hop : OpStep s x op r) (hstray : op.strays = false) :
    Housed (r.1.setStack t r.2) := by
  have hkept : ∀ y, s.started y → (r.1.ctx y).scheduler = (s.ctx y).scheduler ∧
      (r.1.ctx y).policy = (s.ctx y).policy ∧ ((s.ctx y).c ≠ none → (r.1.ctx y).c ≠ none) := by
    intro y hy
    have hne : y ≠ .worker s.fresh := by
      rintro rfl
      simp [State.started] at hy
    refine ⟨(hop.scheduler hstray y).resolve_right fun hnew => hne hnew.1,
      (hop.launch y).resolve_right hne, fun hc => ?_⟩
    rwa [(hop.c y).resolve_right fun hnew => hne hnew.2.1]
  have hthread : ∀ v, ((r.1.setStack t r.2).thread v).active = (s.thread v).active := by
    intro v
    by_cases hv : v = t
    · simp [hv, hop.thread]
    · simp [State.setStack_thread_of_ne _ hv, hop.thread]
  have hmain : ∀ u, x = .main u → u = t := by
    rintro u rfl
    exact Option.some.inj ((hp.scheduler (.main u) u rfl).symm.trans (h.active t _ hactive))
  refine ⟨fun v => ?_, fun v y hy => ?_, fun u y hy => ?_, fun y hy => ?_, fun q y hy => ?_,
    fun v f hf => ?_, fun u v hv => ?_⟩
  · rw [hthread]
    exact h.running v
  · rw [hthread] at hy
    rw [State.setStack_ctx, (hkept y (ho.continued.busy v y (.inl hy)).1).1]
    exact h.active v y hy
  · have hold : y ∈ (s.sched u).queue := by simpa [hop.queue] using hy
    obtain ⟨hsched, -, hc⟩ := hkept y (ho.placed.started (State.away_of_queue hold))
    rw [State.setStack_ctx, hsched]
    exact ⟨(h.queued u y hold).1, hc (h.queued u y hold).2⟩
  · have hold : y ∈ s.readyQueue := by simpa [hop.readyQueue] using hy
    exact (hkept y (ho.continued.saved y (h.ready y hold))).2.2 (h.ready y hold)
  · have hold : y ∈ s.waits q := by simpa [hop.waits] using hy
    rw [State.setStack_ctx, (hkept y (ho.placed.started (State.away_of_waits hold))).1]
    exact h.waiting q y hold
  · by_cases hv : v = t
    · subst hv
      exact (hop.housed hstray (h.active v x hactive) hmain f (by simpa using hf)).mono
        fun _ _ => ⟨rfl, rfl, id⟩
    · have hold : f ∈ (s.thread v).stack := by
        simpa [State.setStack_thread_of_ne _ hv, hop.thread] using hf
      exact (h.frames v f hold).mono fun y hy => hkept y (ho.placed.started (State.away_of_held hold hy))
  · exact h.mtx u v (by simpa [hop.mtx] using hv)

/-- The end of `~Scheduler` is not reached as long as no dispatcher leaves its loop. -/
theorem Enclosed.not_destroy (h : Enclosed s) (ho : Orderly s) (hactive : (s.thread t).active = some x)
    (hstack : (s.thread t).stack = f :: rest) (u : T) : f ≠ .destroy u := by
  rintro rfl
  have hx : x = .main u := ho.shape.frames t x hactive (.destroy u) (by simp [hstack])
  cases hshut : (s.sched u).shutdown with
  | true =>
    obtain ⟨g, hg, -, hcarried⟩ := h.running t u (hactive.trans (congrArg some hx)) hshut
    obtain ⟨rfl, -⟩ := List.cons.inj (hstack.symm.trans hg)
    simp [Frame.carried] at hcarried
  | false =>
    exact ho.placed.closing.runningOpen t u (hactive.trans (congrArg some hx)) hshut (by simp [hstack])

/-- A frame writes only the context in its hand, which is in no queue and in no other hand. -/
theorem Housed.frame (h : Housed s) (ho : Orderly s) (hp : Pinned s) (he : Enclosed s)
    (hactive : (s.thread t).active = some x) (hstack : (s.thread t).stack = f :: rest)
    (hframe : FrameStep s t x now f r) (hwake : (Event.exec t x f now).wakesSaved s) :
    Housed (r.1.setStack t (r.2 ++ rest)) := by
  have hmem : f ∈ (s.thread t).stack := by simp [hstack]
  have hf := h.frames t f hmem
  have hheld : ∀ y, f.held ≠ some y → (r.1.ctx y).scheduler = (s.ctx y).scheduler := by
    intro y hy
    by_contra hne
    exact hy (Frame.held_of_migrates (hframe.rewrites hp hmem hne).1)
  have hsaved : ∀ y, (s.ctx y).c ≠ none → (r.1.ctx y).c ≠ none := by
    intro y hy
    rcases hframe.c y with hsame | ⟨k, -, hfctx, hnew⟩
    · rwa [hsame]
    · rwa [hnew]
  have hactives : ∀ v, ((r.1.setStack t (r.2 ++ rest)).thread v).active = (s.thread v).active := by
    intro v
    rw [State.setStack_active]
    by_cases hv : v = t
    · subst hv
      refine hframe.active.resolve_right fun hleft => ?_
      obtain ⟨u, hdestroy, -⟩ := hleft
      exact he.not_destroy ho hactive hstack u hdestroy
    · rw [hframe.thread_of_ne hv]
  have hkept : ∀ y, f.held ≠ some y → (r.1.ctx y).scheduler = (s.ctx y).scheduler ∧
      (r.1.ctx y).policy = (s.ctx y).policy ∧ ((s.ctx y).c ≠ none → (r.1.ctx y).c ≠ none) :=
    fun y hy => ⟨hheld y hy, hframe.launch y, hsaved y⟩
  refine ⟨fun v => ?_, fun v y hy => ?_, fun u y hy => ?_, fun y hy => ?_, fun q y hy => ?_,
    fun v g hg => ?_, fun u v hv => ?_⟩
  · rw [hactives]
    exact h.running v
  · rw [hactives] at hy
    have hidle := (ho.continued.busy v y (.inl hy)).2
    rw [State.setStack_ctx]
    by_contra hne
    -- a context that a frame moves does not run
    have hmigrates := (hframe.rewrites hp hmem fun hsame => hne (hsame.trans (h.active v y hy))).1
    cases f with
    | postAttach z | attachResume z k | readyPush z =>
      obtain rfl : z = y := by simpa [Frame.migrates] using hmigrates
      exact hf hidle
    | detach z =>
      obtain rfl : z = y := by simpa [Frame.migrates] using hmigrates
      exact hf.2 hidle
    | _ => simp [Frame.migrates] at hmigrates
  · rw [State.setStack_ctx]
    rcases hframe.queue (by simpa using hy) with hold | ⟨-, hawakens, hcase⟩
    · rw [hheld y fun hy => absurd (ho.placed.held_free hmem hy (.queue u))
        (State.slot_queue_pos.mpr hold).ne']
      exact ⟨(h.queued u y hold).1, hsaved y (h.queued u y hold).2⟩
    · have hsched : (r.1.ctx y).scheduler = (s.ctx y).scheduler := by
        by_contra hne
        have hmigrates := (hframe.rewrites hp hmem hne).1
        rcases hcase with rfl | rfl | rfl <;> simp [Frame.migrates] at hmigrates
      rw [hsched]
      rcases hcase with rfl | rfl | rfl
      · exact ⟨hf.1.trans ((h.active t x hactive).symm.trans hawakens), hsaved y hf.2⟩
      · exact hf.elim
      · exact ⟨hawakens, hsaved y hwake⟩
  · cases hframe.readied hy with
    | inl hold => exact hsaved y (h.ready y hold)
    | inr hpush =>
      subst hpush
      exact hsaved y hf
  · rw [State.setStack_ctx]
    cases hframe.waited (by simpa using hy) with
    | inl hold =>
      rw [hheld y (ho.placed.not_held hold hmem)]
      exact h.waiting q y hold
    | inr hpush =>
      subst hpush
      obtain rfl : y = x := ho.shape.frames t x hactive _ hmem
      rw [hheld y (by simp [Frame.held]), h.active t y hactive]
      simp
  · by_cases hv : v = t
    · subst hv
      cases List.mem_append.mp (by simpa using hg : g ∈ r.2 ++ rest) with
      | inl hnew =>
        exact (hframe.housed h ho.shape hp ho.placed.awake hactive hmem hwake g hnew).mono
          fun _ _ => ⟨rfl, rfl, id⟩
      | inr hbelow =>
        have hold : g ∈ (s.thread v).stack := by simp [hstack, hbelow]
        exact (h.frames v g hold).mono fun y hy => hkept y fun hfy =>
          (ho.placed.held_once hstack hfy hold hy).2 hbelow
    · have hold : g ∈ (s.thread v).stack := by
        simpa [State.setStack_thread_of_ne _ hv, hframe.thread_of_ne hv] using hg
      exact (h.frames v g hold).mono fun y hy => hkept y fun hfy =>
        hv (ho.placed.held_once hstack hfy hold hy).1
  · rcases hframe.mtx u with hsame | ⟨⟨y, rfl⟩, hlock⟩ | ⟨-, htail⟩
    · exact h.mtx u v (by simpa [hsame] using hv)
    · cases hframe with
      | pop hcase | popEmpty hcase => simp at hcase
      | @schedulerTerminate w _ hw hmtx =>
        obtain rfl : y = x := ho.shape.frames t x hactive _ hmem
        obtain rfl : t = w := Option.some.inj ((h.active t y hactive).symm.trans hw)
        by_cases hu : u = t
        · subst hu
          rcases List.mem_cons.mp (by simpa using hv : v ∈ u :: (s.sched u).mtx) with hnew | hold
          · exact hnew
          · exact h.mtx u v hold
        · exact h.mtx u v (by simpa [hu] using hv)
    · exact h.mtx u v (List.mem_of_mem_tail (by simpa [htail] using hv))

/-- A switch takes its target out of the hand of the thread. -/
theorem Housed.switch {k : Switch T} {stack : List (Frame T)} (h : Housed s) (ho : Orderly s)
    (he : Enclosed s) (hactive : (s.thread t).active = some x) (hstack : (s.thread t).stack = f :: rest)
    (htarget : f.target = some (y, k)) (hc : (s.ctx y).c = some stack) :
    Housed (switched s t x rest y k stack) := by
  have hmem : f ∈ (s.thread t).stack := by simp [hstack]
  obtain rfl : f = .resume y k := by
    cases f with
    | resume z k' =>
      obtain ⟨rfl, rfl⟩ : z = y ∧ k' = k := by simpa [Frame.target] using htarget
      rfl
    | returnToMain u => exact absurd hmem (he.returns t u)
    | _ => simp [Frame.target] at htarget
  have hf : (s.ctx y).scheduler = some t := (h.frames t _ hmem).1
  have hk : k.Of x := ho.shape.frames t x hactive _ hmem
  have hsaved : ∀ z, z ≠ y → (s.ctx z).c ≠ none → ((switched s t x rest y k stack).ctx z).c ≠ none := by
    intro z hz hcz
    simpa [switched, hz] using hcz
  have hfree := ho.placed.held_free hmem (rfl : (Frame.resume y k).held = some y)
  refine ⟨fun v => ?_, fun v z hz => ?_, fun u z hz => ?_, fun z hz => ?_, fun q z hz => ?_,
    fun v g hg => ?_, h.mtx⟩
  · by_cases hv : v = t
    · simp [switched, hv]
    · simpa [switched, hv] using h.running v
  · rw [switched_scheduler]
    by_cases hv : v = t
    · subst hv
      obtain rfl : y = z := by simpa [switched] using hz
      exact hf
    · exact h.active v z (by simpa [switched, hv] using hz)
  · rw [switched_scheduler]
    refine ⟨(h.queued u z hz).1, hsaved z ?_ (h.queued u z hz).2⟩
    rintro rfl
    exact absurd (hfree (.queue u)) (State.slot_queue_pos.mpr hz).ne'
  · refine hsaved z ?_ (h.ready z hz)
    rintro rfl
    exact absurd (hfree .ready) (State.slot_ready_pos.mpr hz).ne'
  · rw [switched_scheduler]
    exact h.waiting q z hz
  · by_cases hv : v = t
    · subst hv
      cases List.mem_cons.mp (by simpa [switched] using hg : g ∈ .save x k :: stack) with
      | inl hnew =>
        subst hnew
        cases k with
        | resumeReady z =>
          obtain rfl : z = x := hk
          exact (switched_scheduler ..).trans (h.active v z hactive)
        | _ => trivial
      | inr hold => exact Frame.housed_of_settled (ho.shape.suspended y stack hc g hold).1 _ _
    · have hold : g ∈ (s.thread v).stack := by simpa [switched, hv] using hg
      refine (h.frames v g hold).mono fun z hz => ⟨switched_scheduler .., ?_, hsaved z ?_⟩
      · by_cases hzy : z = y <;> simp [switched, hzy]
      · rintro rfl
        exact hv (ho.placed.held_once hstack rfl hold hz).1

/-- Every step of threads in service keeps the contexts with their threads. -/
theorem Housed.step (h : Housed s) (ho : Orderly s) (hp : Pinned s) (henc : Enclosed s)
    (he : Serving s e) (hstep : Lutask.step s e = some s') : Housed s' := by
  cases step_inv hstep with
  | call hactive hstack huser hop => exact h.call ho hp hactive hstack hop he.1.1
  | frame hactive hstack hframe => exact h.frame ho hp henc hactive hstack hframe he.2
  | switch hactive hstack htarget hc => exact h.switch ho henc hactive hstack htarget hc

end Lutask
