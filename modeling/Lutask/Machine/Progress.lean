import Lutask.ConditionVariable.Predicate
import Lutask.Dispatcher.Return
import Lutask.Machine.Housed
import Lutask.Machine.Schedule

/-!
# No thread gets stuck in the library

In every run in which `Wait` is called with its lock held, each thread can execute the next frame of its
stack, or it is at the user's code, at the end of a `Wait` whose lock somebody holds, or asleep in its
dispatcher. It may also wait for the mutex of a condition variable, but then another thread holds it that
can go on: no cycle of library locks, no null pointer and no missing context can stop a thread.
-/

namespace Lutask

open LabelledRuns TokenPlacement

variable {T : Type*}

/-- The lock that a context owns while it is at the beginning of a `Wait`. -/
def Frame.owns : Frame T → Option (ℕ × Ctx T)
  | .wait _ l y | .waitUnlock _ l y | .waitPred _ l _ y => some (l, y)
  | _ => none

/-- `Wait` is called with the lock in the hand of the caller. -/
def Event.waitsLocked (s : State T) : Event T → Prop
  | .call _ x (.wait _ l) | .call _ x (.waitPred _ l _) => s.lt l = some x
  | _ => True

/-- A context at the beginning of a `Wait` owns the lock that it is about to give back. -/
def Owned (s : State T) : Prop :=
  ∀ t, ∀ f ∈ (s.thread t).stack, ∀ l y, f.owns = some (l, y) → s.lt l = some y

theorem Frame.owns_of_settled {f : Frame T} (h : f.isSettled) : f.owns = none := by
  cases f <;> simp [Frame.isSettled] at h <;> rfl

theorem Frame.Below.owns {f g : Frame T} (h : f.Below g) : g.owns = none := by
  cases h with
  | inl hsettled => exact Frame.owns_of_settled hsettled
  | inr hinner => cases g <;> simp [Frame.isOuter] at hinner <;> rfl

theorem Frame.holdsLt_of_owns {f : Frame T} {l : ℕ} {y : Ctx T} (h : f.owns = some (l, y)) :
    ∃ q, f.holdsLt q = some y := by
  cases f with
  | wait q l' z | waitUnlock q l' z | waitPred q l' p z =>
    obtain ⟨-, rfl⟩ : l' = l ∧ z = y := by simpa [Frame.owns] using h
    exact ⟨q, by simp [Frame.holdsLt]⟩
  | _ => simp [Frame.owns] at h

theorem Owned.initial (policy : T → Policy) : Owned (State.initial policy) := by
  intro t f h
  simp [State.initial] at h

variable [DecidableEq T] {s s' : State T} {t : T} {x y : Ctx T} {now : ℕ} {f : Frame T} {op : Op T}
  {r : Rest T} {e : Event T} {rest : List (Frame T)}

section Locks

/-- Only a call of `Wait` is at the beginning of one, and a call that is does nothing else. -/
theorem OpStep.owns (h : OpStep s x op r) (hlocked : (Event.call t x op).waitsLocked s) :
    ∀ g ∈ r.2, ∀ l y, g.owns = some (l, y) → r.1.lt l = some y := by
  cases h with
  | start launch => cases launch <;> simp [Lutask.start, Frame.owns]
  | @wait q l | @waitPred q l p =>
    have hl : s.lt l = some x := hlocked
    simpa [Frame.owns] using hl
  | _ => simp [Lutask.yield, Lutask.waitUntil, Lutask.terminate, Lutask.destructor, Frame.owns]

/-- A frame gets to the beginning of a `Wait` with the lock, which it had before or has just taken. -/
theorem FrameStep.owns (h : FrameStep s t x now f r) : ∀ g ∈ r.2, ∀ l y, g.owns = some (l, y) →
    r.1.lt l = some y ∨ f.owns = some (l, y) ∧ r.1.lt = s.lt := by
  cases h with
  | schedule hu | wake hu | scheduleOn =>
    rcases schedule_cases s _ _ with ⟨-, hr⟩ | ⟨-, -, hr⟩ <;> rw [hr] <;> simp [Frame.owns]
  | @save prev k stack hfctx => cases k <;> simp [Switch.onTop, Frame.owns]
  | @relock q l p y hl => cases p <;> simp [relockNext, Frame.owns]
  | @notifyOne q y queue hwaits | @notifyOneEmpty q hwaits | @notifyAllEmpty q hwaits =>
    cases q <;> simp [WaitQueue.afterNotify, Frame.owns]
  | wait hm => exact List.forall_mem_singleton.mpr fun l y hy => .inr ⟨hy, rfl⟩
  | waitPredFalse hp => simp [Frame.owns]
  | _ => simp [Lutask.iterate, Lutask.terminateRemove, Lutask.destroy, Frame.owns]

/-- A step of another thread leaves the lock of a context at the beginning of a `Wait` alone. -/
theorem Owned.kept (h : Owned s) (ho : Orderly s) (hstep : Lutask.step s e = some s') {v : T}
    (hv : v ≠ e.thread) {g : Frame T} (hg : g ∈ (s.thread v).stack) {l : ℕ} (hy : g.owns = some (l, y)) :
    s'.lt l = some y := by
  have hlock := h v g hg l y hy
  obtain ⟨q, hholds⟩ := Frame.holdsLt_of_owns hy
  have hother : ∀ t, v ≠ t → (s.thread t).active ≠ some y := fun t hvt hactive =>
    hvt (ho.thread_of_holdsLt hg hholds hactive)
  cases step_inv hstep with
  | @call t x op r hactive hstack huser hop =>
    rcases hop.lt l with hsame | hfree | ⟨-, hx⟩
    · simpa [hsame] using hlock
    · simp [hlock] at hfree
    · obtain rfl : y = x := Option.some.inj (hlock.symm.trans hx)
      exact absurd hactive (hother t hv)
  | @frame t x f now rest r hactive hstack hframe =>
    rcases hframe.lt l with hsame | ⟨q, z, rfl, hz⟩ | ⟨q, p, z, -, hfree, -⟩
    · simpa [hsame] using hlock
    · obtain rfl : y = z := Option.some.inj (hlock.symm.trans hz)
      obtain rfl : y = x := ho.shape.frames t x hactive (.waitUnlock q l y) (by simp [hstack])
      exact absurd hactive (hother t hv)
    · simp [hlock] at hfree
  | switch hactive hstack htarget hc => exact hlock

/-- Every step keeps the locks with their owners. -/
theorem Owned.step (h : Owned s) (ho : Orderly s) (he : e.waitsLocked s)
    (hstep : Lutask.step s e = some s') : Owned s' := by
  intro v g hg l y hy
  by_cases hv : v = e.thread
  · cases step_inv hstep with
    | @call t x op r hactive hstack huser hop =>
      obtain rfl : v = t := hv
      exact hop.owns (t := v) he g (by simpa using hg) l y hy
    | @frame t x f now rest r hactive hstack hframe =>
      obtain rfl : v = t := hv
      cases List.mem_append.mp (by simpa using hg : g ∈ r.2 ++ rest) with
      | inl hnew =>
        rcases hframe.owns g hnew l y hy with hown | ⟨hf, hsame⟩
        · exact hown
        · rw [State.setStack_lt, hsame]
          exact h v f (by simp [hstack]) l y hf
      | inr hbelow =>
        have hkind := (List.pairwise_cons.mp (hstack ▸ ho.shape.below v)).1 g hbelow
        simp [hkind.owns] at hy
    | @switch t x z f k now rest stack hactive hstack htarget hc =>
      obtain rfl : v = t := hv
      cases List.mem_cons.mp (by simpa [switched] using hg : g ∈ .save x k :: stack) with
      | inl hnew => simp [hnew, Frame.owns] at hy
      | inr hold => simp [Frame.owns_of_settled (ho.shape.suspended z stack hc g hold).1] at hy
  · rw [step_thread_of_ne hstep hv] at hg
    exact h.kept ho hstep hv hg hy

end Locks

/-- The invariants of threads in service that call `Wait` with its lock held. -/
structure Sound (s : State T) : Prop where
  orderly : Orderly s
  pinned : Pinned s
  looping : Looping s
  scripted : Scripted s
  enclosed : Enclosed s
  housed : Housed s
  owned : Owned s
  dispatching : Dispatching s
  single : ∀ y, Single (s.places y)

/-- The events of threads in service on which nobody sleeps, yields to its origin or wakes a running
context, and everybody holds the lock with which it waits. -/
def WellUsed (s : State T) (e : Event T) : Prop :=
  Serving s e ∧ e.waitsLocked s

theorem Sound.initial (policy : T → Policy) : Sound (State.initial policy) where
  orderly := Orderly.initial policy
  pinned := Pinned.initial policy
  looping := Looping.initial policy
  scripted := Scripted.initial policy
  enclosed := Enclosed.initial policy
  housed := Housed.initial policy
  owned := Owned.initial policy
  dispatching := Dispatching.initial policy
  single y :=
    have hrun : Runs policy (fun s e => e.keepsPlaces ∧ ¬ e.exits s) [] (State.initial policy) := .nil
    hrun.single (fun _ _ h => h) y

theorem Sound.step (h : Sound s) (he : WellUsed s e) (hstep : Lutask.step s e = some s') : Sound s' where
  orderly := h.orderly.step he.1.1.1 hstep
  pinned := h.pinned.step h.orderly.shape hstep
  looping := h.looping.step h.orderly.shape hstep
  scripted := h.scripted.step h.orderly.shape hstep
  enclosed := h.enclosed.step h.orderly he.1.1.2 hstep
  housed := h.housed.step h.orderly h.pinned h.enclosed he.1 hstep
  owned := h.owned.step h.orderly he.2 hstep
  dispatching := h.dispatching.step h.orderly.shape h.orderly.continued h.scripted hstep
  single y :=
    have hplaced := h.orderly.placed.step h.orderly.shape h.orderly.continued he.1.1.1 hstep
    (h.single y).steps (hplaced.2 he.1.1.2 y)

/-- The invariants hold in every state that such a run reaches. -/
theorem Runs.sound {policy : T → Policy} {events : List (Event T)} (h : Runs policy WellUsed events s) :
    Sound s :=
  Run.invariant h (Sound.initial policy) fun _ _ _ hs he hstep => hs.step he hstep

/-- The thread can execute the next frame of its stack. -/
def State.CanExecute (s : State T) (t : T) : Prop :=
  ∃ x f now, (step s (.exec t x f now)).isSome

/-- The condition variable whose mutex a frame is about to lock. -/
def Frame.locksM : Frame T → Option ℕ
  | .wait q _ _ | .cvNotifyOne q | .cvNotifyAll q => some q
  | _ => none

/-- Where a thread can be when it does not execute a frame of the library. -/
inductive Standing (s : State T) (t : T) : Prop
  | executes (h : s.CanExecute t)
  /-- The active context executes the user's code. -/
  | user (x : Ctx T) (hactive : (s.thread t).active = some x) (huser : x.runsUserCode)
      (hstack : (s.thread t).stack = [])
  /-- `Wait` takes the lock of its caller again, which another context owns. -/
  | relocks (q l : ℕ) (p : Option ℕ) (x y : Ctx T) (rest : List (Frame T))
      (hstack : (s.thread t).stack = .relock q l p x :: rest) (hlock : s.lt l = some y)
  /-- The dispatcher sleeps without a deadline. -/
  | sleeps (rest : List (Frame T)) (hstack : (s.thread t).stack = .suspended t ⊤ :: rest)
      (hflag : (s.sched t).flag = false)
  /-- Another thread holds the mutex of a condition variable, and goes on. -/
  | queues (f : Frame T) (rest : List (Frame T)) (q : ℕ) (v : T)
      (hstack : (s.thread t).stack = f :: rest) (hlocks : f.locksM = some q) (howner : s.m q = some v)
      (hother : v ≠ t) (hgoes : s.CanExecute v)

/-- A frame whose action is possible can be executed. -/
theorem State.canExecute_of_exec (hactive : (s.thread t).active = some x)
    (hstack : (s.thread t).stack = f :: rest) (htarget : f.target = none) {r : Rest T}
    (hr : execFrame s t x now f = some r) : s.CanExecute t :=
  ⟨x, f, now, by rw [step_of_execFrame hactive hstack htarget hr]; rfl⟩

/-- Only functions of its own thread have a dispatcher in their hands. -/
theorem Sound.held_dispatcher (h : Sound s) {u : T} (hf : f ∈ (s.thread t).stack)
    (hheld : f.held = some (.dispatcher u)) : u = t := by
  suffices (s.ctx (.dispatcher u)).scheduler = some t from
    Option.some.inj ((h.pinned.scheduler (.dispatcher u) u rfl).symm.trans this)
  have hknown := h.housed.frames t f hf
  have hstays := h.pinned.frames t f hf (.dispatcher u)
  cases f with
  | schedule y | resume y k =>
    obtain rfl : y = .dispatcher u := by simpa [Frame.held] using hheld
    exact hknown.1
  | save prev k =>
    cases k with
    | resumeReady y =>
      obtain rfl : y = .dispatcher u := by simpa [Frame.held] using hheld
      exact hknown
    | _ => simp [Frame.held] at hheld
  | scheduleOn v y => exact hknown.elim
  | wake y =>
    obtain rfl : y = .dispatcher u := by simpa [Frame.held] using hheld
    exact absurd rfl (h.looping.wakes t _ hf u)
  | postAttach y | attachResume y k | detach y | readyPush y =>
    obtain rfl : y = .dispatcher u := by simpa [Frame.held] using hheld
    simp [Frame.migrates, Ctx.isPinned] at hstays
  | _ => simp [Frame.held] at hheld

/-- The dispatcher of a thread that executes a user's call, and has nobody in its hand, is in the queue of
this thread. -/
theorem Sound.dispatcher_queued (h : Sound s) (hstack : (s.thread t).stack = f :: rest) (huser : f.isUser)
    (hinner : f.isInner = false) (hheld : f.held = none) : .dispatcher t ∈ (s.sched t).queue := by
  have hown := h.pinned.scheduler (.dispatcher t) t rfl
  obtain ⟨p, hp⟩ := (h.single (.dispatcher t)).exists_pos
  cases p with
  | active v =>
    have hv : (s.thread v).active = some (.dispatcher t) := by
      by_contra hne
      simp [State.places, hne] at hp
    obtain rfl : v = t := Option.some.inj ((h.housed.active v _ hv).symm.trans hown)
    simp [h.looping.running v v hv f (by simp [hstack])] at huser
  | hand v =>
    obtain ⟨g, hg, hgheld⟩ := List.countP_pos_iff.mp hp
    have hgheld : g.held = some (.dispatcher t) := by simpa using hgheld
    obtain rfl := h.held_dispatcher hg hgheld
    -- a user's call lies on settled frames, which have nobody in their hands
    rcases List.mem_cons.mp (hstack ▸ hg) with rfl | hbelow
    · simp [hheld] at hgheld
    · have hsettled := settled_of_pairwise (hstack ▸ h.orderly.shape.below t) hinner g hbelow
      cases g <;> simp [Frame.isSettled] at hsettled <;> simp [Frame.held] at hgheld
  | slot a =>
    cases a with
    | queue u =>
      have hu : .dispatcher t ∈ (s.sched u).queue := State.slot_queue_pos.mp hp
      obtain rfl : u = t := Option.some.inj ((h.housed.queued u _ hu).1.symm.trans hown)
      exact hu
    | ready => simpa [Ctx.isPinned] using h.pinned.ready _ (State.slot_ready_pos.mp hp)
    | wait q => exact absurd (State.slot_wait_pos.mp hp) (h.looping.waits q t)
    | terminated => simp [State.slot, h.looping.terminated (.dispatcher t) rfl] at hp
    | parked => simp [State.slot, State.parked] at hp
    | unborn => simp [State.slot, State.started] at hp

/-- `PickNext` always finds a context, except that it may return null to the dispatcher. -/
theorem Sound.picks (h : Sound s) {k : Option (Switch T)}
    (hstack : (s.thread t).stack = f :: rest) (hf : f = .pickNext t k ∨ f = .pickLocal t k) :
    ∃ r, queuePop s t k = some r := by
  cases hqueue : (s.sched t).queue with
  | cons y queue => exact ⟨_, by simp [queuePop, hqueue]; rfl⟩
  | nil =>
    cases k with
    | none => exact ⟨_, by simp [queuePop, hqueue]; rfl⟩
    | some k =>
      have hmem : .dispatcher t ∈ (s.sched t).queue := by
        rcases hf with rfl | rfl <;> exact h.dispatcher_queued hstack rfl rfl rfl
      simp [hqueue] at hmem

/-- The dispatcher runs on its own thread. -/
theorem Sound.own_thread (h : Sound s) {u : T} (hactive : (s.thread t).active = some (.dispatcher u)) :
    u = t :=
  Option.some.inj ((h.pinned.scheduler (.dispatcher u) u rfl).symm.trans (h.housed.active t _ hactive))

/-- The topmost frame of a thread can be executed, unless it waits for a lock or sleeps. -/
theorem Sound.executes (h : Sound s) (hactive : (s.thread t).active = some x)
    (hstack : (s.thread t).stack = f :: rest) : s.CanExecute t ∨
      (∃ q l p y z, f = .relock q l p y ∧ s.lt l = some z) ∨
      (f = .suspended t ⊤ ∧ (s.sched t).flag = false) ∨ ∃ q v, f.locksM = some q ∧ s.m q = some v := by
  have hmem : f ∈ (s.thread t).stack := by simp [hstack]
  have hx := h.housed.active t x hactive
  have hof := h.orderly.shape.frames t x hactive f hmem
  have hf := h.housed.frames t f hmem
  have hmtx : mtxFree s t t := h.housed.mtx t
  have hexec : ∀ (now : ℕ) (r : Rest T), f.target = none → execFrame s t x now f = some r →
      s.CanExecute t := fun _ _ htarget hr => State.canExecute_of_exec hactive hstack htarget hr
  cases f with
  | postAttach w | attachResume w k =>
    exact .inl (hexec 0 _ rfl (by simp [execFrame, attach, attachWorkerContext, hx, hmtx]; rfl))
  | schedule y => exact .inl (hexec 0 _ rfl (by simp [execFrame, hx]; rfl))
  | scheduleOn u y => exact hf.elim
  | wake y =>
    obtain ⟨u, hu⟩ := Option.ne_none_iff_exists'.mp hf
    exact .inl (hexec 0 _ rfl (by simp [execFrame, hu]; rfl))
  | detach y =>
    by_cases hasync : (s.ctx y).policy = .async
    · exact .inl (hexec 0 _ rfl (by simp [execFrame, Lutask.detach, hasync]; rfl))
    · obtain ⟨u, hu⟩ := Option.ne_none_iff_exists'.mp (hf.1 hasync)
      exact .inl (hexec 0 _ rfl (by simp [execFrame, Lutask.detach, hasync, hu]; rfl))
  | pickNext u k =>
    obtain rfl : u = t := hf
    cases hpolicy : (s.sched u).policy with
    | roundRobin =>
      obtain ⟨r, hr⟩ := h.picks hstack (.inl rfl)
      exact .inl (hexec 0 r rfl (by simp [execFrame, Lutask.pickNext, hpolicy, hr]))
    | sharedWork => exact .inl (hexec 0 _ rfl (by simp [execFrame, Lutask.pickNext, hpolicy]; rfl))
  | pickLocal u k =>
    obtain rfl : u = t := hf
    obtain ⟨r, hr⟩ := h.picks hstack (.inr rfl)
    exact .inl (hexec 0 r rfl hr)
  | resume y k =>
    obtain ⟨stack, hc⟩ := Option.ne_none_iff_exists'.mp hf.2
    exact .inl ⟨x, .resume y k, 0, by simp [Lutask.step, exec, hactive, hstack, Frame.target, switchTo, hc]⟩
  | returnToMain u => exact absurd hmem (h.enclosed.returns t u)
  | save prev k =>
    obtain ⟨stack, hfctx, -⟩ := h.orderly.shape.saving t prev k rest hstack
    exact .inl (hexec 0 _ rfl (by simp [execFrame, Lutask.save, hfctx]; rfl))
  | schedulerTerminate y =>
    obtain rfl : y = x := hof
    exact .inl (hexec 0 _ rfl (by simp [execFrame, Lutask.schedulerTerminate, hx, hmtx]; rfl))
  | suspend q y =>
    obtain rfl : y = x := hof
    exact .inl (hexec 0 _ rfl (by simp [execFrame, Lutask.suspend, hx]; rfl))
  | wait q l y | cvNotifyOne q | cvNotifyAll q =>
    cases hm : s.m q with
    | none => exact .inl (hexec 0 _ rfl (by simp [execFrame, lockM, hm]; rfl))
    | some v => exact .inr (.inr (.inr ⟨q, v, rfl, hm⟩))
  | waitUnlock q l y =>
    have hlock := h.owned t _ hmem l y rfl
    exact .inl (hexec 0 _ rfl (by simp [execFrame, Lutask.waitUnlock, hlock]; rfl))
  | relock q l p y =>
    cases hl : s.lt l with
    | none => exact .inl (hexec 0 _ rfl (by simp [execFrame, Lutask.relock, hl]; rfl))
    | some z => exact .inr (.inl ⟨q, l, p, y, z, rfl, hl⟩)
  | suspended u tp =>
    obtain rfl : u = t := h.own_thread (hactive.trans (congrArg some hof))
    cases hflag : (s.sched u).flag with
    | true => exact .inl (hexec 0 _ rfl (by simp [execFrame, Lutask.suspended, hflag]; rfl))
    | false =>
      rcases eq_or_ne tp ⊤ with rfl | hne
      · exact .inr (.inr (.inl ⟨rfl, rfl⟩))
      · obtain ⟨n, rfl⟩ := WithTop.ne_top_iff_exists.mp hne
        exact .inl (hexec n _ rfl (if_pos (.inr le_rfl)))
  | _ => exact .inl (hexec 0 _ rfl rfl)

/-- A thread whose topmost frame cannot be executed holds no mutex of a condition variable. -/
theorem Sound.not_owner (h : Sound s) (hstack : (s.thread t).stack = f :: rest)
    (hblocked : (∃ q l p y, f = .relock q l p y) ∨ (∃ u tp, f = .suspended u tp) ∨ ∃ q, f.locksM = some q)
    (q : ℕ) : s.m q ≠ some t := by
  have hkind : f.readies = false ∧ (∀ q, f ≠ .notifyAll q) ∧ (∀ u n, f ≠ .procSleep u n) ∧
      f.releases q = false := by
    rcases hblocked with ⟨q, l, p, y, rfl⟩ | ⟨u, tp, rfl⟩ | ⟨q', hf⟩
    · simp [Frame.readies, Frame.releases]
    · simp [Frame.readies, Frame.releases]
    · cases f <;> simp [Frame.locksM] at hf <;> simp [Frame.readies, Frame.releases]
  have hrest := h.scripted.rest_settled hstack hkind.1 hkind.2.1 hkind.2.2.1
  have hnone : s.releases q t = 0 := by
    simp [State.releases, hstack, hkind.2.2.2, countP_releases_of_settled hrest q]
  rcases h.orderly.locked q t with ⟨-, hone⟩ | ⟨hnot, -⟩
  · omega
  · exact hnot

/-- The thread that holds the mutex of a condition variable can go on. -/
theorem Sound.owner_executes (h : Sound s) {q : ℕ} {v : T} (hm : s.m q = some v) : s.CanExecute v := by
  obtain ⟨x, hactive⟩ := Option.ne_none_iff_exists'.mp (h.housed.running v)
  cases hstack : (s.thread v).stack with
  | nil =>
    rcases h.orderly.locked q v with ⟨-, hone⟩ | ⟨hnot, -⟩
    · simp [State.releases, hstack] at hone
    · exact absurd hm hnot
  | cons f rest =>
    rcases h.executes hactive hstack with hgoes | ⟨q', l, p, y, z, hf, -⟩ | ⟨hf, -⟩ | ⟨q', w, hf, -⟩
    · exact hgoes
    · exact absurd hm (h.not_owner hstack (.inl ⟨q', l, p, y, hf⟩) q)
    · exact absurd hm (h.not_owner hstack (.inr (.inl ⟨v, ⊤, hf⟩)) q)
    · exact absurd hm (h.not_owner hstack (.inr (.inr ⟨q', hf⟩)) q)

/-- A thread can execute its next frame, unless it is at the user's code, waits for a lock of the users,
sleeps, or waits for the mutex of a condition variable whose owner can execute its next frame. -/
theorem Sound.standing (h : Sound s) (t : T) : Standing s t := by
  obtain ⟨x, hactive⟩ := Option.ne_none_iff_exists'.mp (h.housed.running t)
  cases hstack : (s.thread t).stack with
  | nil =>
    refine .user x hactive ?_ hstack
    cases x with
    | dispatcher u => simpa [hstack] using h.dispatching.running t u hactive
    | _ => rfl
  | cons f rest =>
    rcases h.executes hactive hstack with hgoes | ⟨q, l, p, y, z, rfl, hl⟩ | ⟨rfl, hflag⟩ | ⟨q, v, hf, hm⟩
    · exact .executes hgoes
    · exact .relocks q l p y z rest hstack hl
    · exact .sleeps rest hstack hflag
    · refine .queues f rest q v hstack hf hm ?_ (h.owner_executes hm)
      rintro rfl
      exact h.not_owner hstack (.inr (.inr ⟨q, hf⟩)) q hm

/-- In every run of threads in service no thread is ever stuck in the library: it can execute its next
frame, unless it is at the user's code, waits for a lock of the users, sleeps in its dispatcher, or waits
for the mutex of a condition variable whose owner can execute its next frame. -/
theorem never_stuck {policy : T → Policy} {events : List (Event T)} (h : Runs policy WellUsed events s)
    (t : T) : Standing s t :=
  h.sound.standing t

instance (s : State T) : DecidablePred (Event.wakesSaved s)
  | .call .. => .isTrue trivial
  | .exec t x f n => by
    apply @Frame.casesOn T (fun f => Decidable (Event.wakesSaved s (.exec t x f n))) f <;> intros <;>
      dsimp only [Event.wakesSaved] <;> infer_instance

instance (s : State T) : DecidablePred (Event.waitsLocked s)
  | .call t x op => by
    apply @Op.casesOn T (fun op => Decidable (Event.waitsLocked s (.call t x op))) op <;> intros <;>
      dsimp only [Event.waitsLocked] <;> infer_instance
  | .exec .. => .isTrue trivial

instance (s : State T) (e : Event T) : Decidable (WellUsed s e) :=
  inferInstanceAs (Decidable (((_ ∧ _) ∧ _) ∧ _))

/-- Main of one thread is in `Wait` with the mutex of the condition variable locked, and main of another
thread waits for this mutex to notify. -/
theorem notifier_queues_behind_waiter : ∃ events s,
    Runs (fun _ : Bool => .roundRobin) WellUsed events s ∧ Standing s false ∧
      ((s.thread false).stack = [.cvNotifyOne 0] ∧ s.m 0 = some true ∧
        (s.thread true).stack =
          [.suspendAndWait (.cv 0) (.main true), .relock 0 0 (some 0) (.main true)]) := by
  obtain ⟨events, s, hrun, hstate⟩ : ∃ events s, Runs (fun _ : Bool => .roundRobin) WellUsed events s ∧
      ((s.thread false).stack = [.cvNotifyOne 0] ∧ s.m 0 = some true ∧ (s.thread true).stack =
        [.suspendAndWait (.cv 0) (.main true), .relock 0 0 (some 0) (.main true)]) :=
    reaches_of_drive [.call true (.main true) (.lock 0), .call true (.main true) (.waitPred 0 0 0),
      .frames true 3 0, .call false (.main false) (.notifyOne 0)] (by decide)
  exact ⟨events, s, hrun, never_stuck hrun false, hstate⟩

end Lutask
