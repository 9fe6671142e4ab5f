import Mathlib.Data.Fintype.Basic
import Lutask.Machine.Schedule
import Lutask.Dispatcher.Loop
import Lutask.Dispatcher.Residence

/-!
# There is always a context to switch to

Threads of any policies, with sleepers, `Join` and exits. Until `Dispatch` of a thread leaves its
loop, whichever context the dispatcher switches to makes the dispatcher ready again before it does
anything else, and nobody else takes it out of the queue. So the result of `PickNext` that the users'
operations dereference is never null. The exception is a context of a work-sharing scheduler that `Join`
lets another thread wake before it was left: two threads then use one queue.
-/

namespace Lutask

open LabelledRuns TokenPlacement

variable {T : Type*} [DecidableEq T] {s s' : State T} {t : T} {x y : Ctx T} {now : ℕ} {f : Frame T}
  {op : Op T} {r : Rest T} {e : Event T} {rest : List (Frame T)}

/-- A dispatcher that has left its loop is in no place. -/
def Returned (s : State T) : Prop :=
  ∀ t u, .returnToMain u ∈ (s.thread t).stack → ∀ p, s.places (.dispatcher u) p = 0

/-- Only the end of the loop leads to the return of `Dispatch`. -/
theorem FrameStep.returns (h : FrameStep s t x now f r) {u : T} (hu : .returnToMain u ∈ r.2) :
    f = .exitTest u ∧ r.1 = procTerminated s u ∧ r.2 = [.returnToMain u] := by
  cases h with
  | schedule hu' | wake hu' | scheduleOn =>
    rcases schedule_cases s _ _ with ⟨-, hr⟩ | ⟨-, -, hr⟩ <;> rw [hr] at hu <;> simp at hu
  | exit hworkers =>
    obtain rfl := Frame.returnToMain.inj (List.mem_singleton.mp hu)
    exact ⟨rfl, rfl, rfl⟩
  | @save prev k stack hfctx => cases k <;> simp [Switch.onTop] at hu
  | @relock q l p y hl => cases p <;> simp [relockNext] at hu
  | @notifyOne q y rest hwaits | @notifyOneEmpty q hwaits | @notifyAllEmpty q hwaits =>
    cases q <;> simp [WaitQueue.afterNotify] at hu
  | _ => simp [Lutask.iterate, Lutask.terminateRemove, Lutask.destroy] at hu

theorem OpStep.not_returns (h : OpStep s x op r) (u : T) : .returnToMain u ∉ r.2 := by
  cases h with
  | start launch => cases launch <;> simp [Lutask.start]
  | _ => simp [Lutask.yield, Lutask.waitUntil, Lutask.terminate, Lutask.destructor]

/-- The dispatchers are in their loops, and every context is where it belongs. -/
structure Attended (s : State T) : Prop where
  shape : Shape s
  continued : Continued s
  pinned : Pinned s
  looping : Looping s
  apart : Apart s
  resident : Resident s
  returned : Returned s

/-- A dispatcher runs on its own thread only. -/
theorem Attended.own_thread (h : Attended s) {u : T}
    (hactive : (s.thread t).active = some (.dispatcher u)) : u = t :=
  Option.some.inj
    ((h.pinned.scheduler (.dispatcher u) u rfl).symm.trans (h.resident.active t _ hactive))

/-- When the dispatcher leaves its loop it is nowhere any more. -/
theorem Shape.leaves_loop (hs : Shape s) {u : T} (h : Exclusive (s.places (.dispatcher u)))
    (hactive : (s.thread t).active = some (.dispatcher u))
    (hstack : (s.thread t).stack = .exitTest u :: rest) (p : Place T) :
    ((procTerminated s u).setStack t (.returnToMain u :: rest)).places (.dispatcher u) p = 0 := by
  have hsettled := settled_of_pairwise (hstack ▸ hs.below t) rfl
  have hstays := rest_stays hs hactive hstack rfl (by simp)
  have hone : 0 < s.places (.dispatcher u) (.active t) := by
    have hleaves : (s.thread t).stack.any Frame.leaves = false := by
      rw [hstack, List.any_cons, hstays]
      rfl
    simp only [State.places, hactive, hleaves]
    simp
  have hzero : ∀ p, p ≠ .active t → s.places (.dispatcher u) p = 0 := fun p hp =>
    h.eq_zero hone hp
  cases p with
  | active v =>
    by_cases hv : v = t
    · subst hv
      simp [State.places, Frame.leaves]
    · have hthread : ((procTerminated s u).setStack t (.returnToMain u :: rest)).thread v =
          s.thread v := State.setStack_thread_of_ne _ hv _
      simpa only [State.places, hthread] using hzero (.active v) (by simpa using hv)
  | hand v =>
    by_cases hv : v = t
    · subst hv
      simp [State.places, heldIn_of_settled hsettled, Frame.held]
    · have hthread : ((procTerminated s u).setStack t (.returnToMain u :: rest)).thread v =
          s.thread v := State.setStack_thread_of_ne _ hv _
      simpa only [State.places, hthread] using hzero (.hand v) (by simp)
  | slot a =>
    have hslot : (procTerminated s u).slot (.dispatcher u) = s.slot (.dispatcher u) :=
      slot_setSched_same s u _ (by rfl) (by rfl)
    have hold := hzero (.slot a) (by simp)
    rw [State.places_slot] at hold ⊢
    exact (congrFun hslot a).trans hold

omit [DecidableEq T] in
/-- A context that is in no place stays so. -/
theorem zero_of_steps {held held' : Place T → ℕ} (h : ∀ p, held p = 0)
    (hs : Steps held held' ∨ ∃ a, Drops a held held') (p : Place T) : held' p = 0 := by
  rcases hs with (rfl | ⟨a, b, hmove⟩) | ⟨a, hdrop⟩
  · exact h p
  · have htaken := hmove.taken
    simp [h] at htaken
  · have htaken := hdrop.taken
    simp [h] at htaken

/-- A dispatcher that has left its loop does not come back. -/
theorem Returned.step (h : Returned s) (hs : Shape s)
    (hexclusive : ∀ u, Exclusive (s.places (.dispatcher u)))
    (hsteps : ∀ u, Steps (s.places (.dispatcher u)) (s'.places (.dispatcher u)) ∨
      ∃ a, Drops a (s.places (.dispatcher u)) (s'.places (.dispatcher u)))
    (hstep : Lutask.step s e = some s') : Returned s' := by
  intro v u hu
  rcases hs.frame_origin hstep hu rfl (by simp) with
    hbefore | ⟨x, op, r, -, hop, -, hnew⟩ | ⟨x, f, now, rest, r, -, hactive, hstack, hframe, rfl, hnew⟩
  · exact zero_of_steps (h v u hbefore.1) (hsteps u)
  · exact absurd hnew (hop.not_returns u)
  · obtain ⟨rfl, hr, hframes⟩ := hframe.returns hnew
    obtain rfl : x = .dispatcher u := hs.frames v x hactive (.exitTest u) (by simp [hstack])
    rw [hr, hframes]
    exact hs.leaves_loop (hexclusive u) hactive hstack

theorem Attended.returned_step (h : Attended s) (he : Careful s e)
    (hstep : Lutask.step s e = some s') : Returned s' :=
  h.returned.step h.shape (fun u => h.apart _ (by simp))
    (fun u => (h.apart.steps h.shape h.continued he.1 he.2.1 hstep (by simp)).imp_right
      fun ⟨_, v, hdrops⟩ => ⟨.active v, hdrops⟩) hstep

theorem Attended.step (h : Attended s) (he : Careful s e) (hstep : Lutask.step s e = some s') :
    Attended s' where
  shape := h.shape.step hstep
  continued := h.continued.step h.shape hstep
  pinned := h.pinned.step h.shape hstep
  looping := h.looping.step h.shape hstep
  apart := h.apart.step h.shape h.continued he.1 he.2.1 hstep
  resident := h.resident.step h.apart h.shape h.continued h.pinned he hstep
  returned := h.returned_step he hstep

theorem Attended.initial (policy : T → Policy) : Attended (State.initial policy) where
  shape := Shape.initial policy
  continued := Continued.initial policy
  pinned := Pinned.initial policy
  looping := Looping.initial policy
  apart := Apart.initial policy
  resident := Resident.initial policy
  returned t u h := by simp [State.initial] at h

theorem Runs.attended {policy : T → Policy} {events : List (Event T)}
    (h : Runs policy Careful events s) : Attended s :=
  Run.invariant h (Attended.initial policy) fun _ _ _ hs he hstep => hs.step he hstep

/-- Until its loop ends every dispatcher is in exactly one place. -/
theorem Runs.dispatcher_single {policy : T → Policy} {events : List (Event T)}
    (h : Runs policy Careful events s)
    (hloop : Runs policy (fun s e => ¬ e.leavesLoop s t) events s) :
    Single (s.places (.dispatcher t)) := by
  refine (Run.invariant (I := fun s => Attended s ∧ Single (s.places (.dispatcher t))) (h.both hloop)
    ⟨Attended.initial policy, ?_⟩ fun s e s' hs he hstep => ⟨hs.1.step he.1 hstep, ?_⟩).2
  · exact ((Placed.initial policy).exclusive _).single (p := .slot (.queue t))
      (by simp [State.slot, State.initial])
  · have hsteps := hs.1.apart.steps hs.1.shape hs.1.continued he.1.1 he.1.2.1 hstep
      (y := .dispatcher t) (by simp)
    refine hs.2.steps (hsteps.resolve_right ?_)
    rintro ⟨⟨u, hu, hleaves⟩, -⟩
    exact he.2 (Ctx.dispatcher.inj hu ▸ hleaves)

/-- Only functions of its own thread have a dispatcher in their hands. -/
theorem Attended.held_dispatcher (h : Attended s) {u : T} (hf : f ∈ (s.thread t).stack)
    (hheld : f.held = some (.dispatcher u)) : u = t := by
  have hown : (s.ctx (.dispatcher u)).scheduler = some t → u = t := fun hsched =>
    Option.some.inj ((h.pinned.scheduler (.dispatcher u) u rfl).symm.trans hsched)
  have hresides := h.resident.frames t f hf
  have hmigrates : f.migrates ≠ some (.dispatcher u) := fun hm => by
    simpa [Ctx.isPinned] using h.pinned.frames t f hf _ hm
  cases f with
  | schedule y =>
    obtain rfl := Option.some.inj hheld
    exact hown hresides.1
  | resume y k =>
    obtain rfl := Option.some.inj hheld
    exact hown hresides
  | save prev k =>
    cases k with
    | resumeReady y =>
      obtain rfl := Option.some.inj hheld
      exact hown hresides
    | _ => simp [Frame.held] at hheld
  | scheduleOn v y =>
    have hmain : y = .main v := hresides
    simp [Frame.held, hmain] at hheld
  | wake y => exact absurd (by rw [Option.some.inj hheld]) (h.looping.wakes t (.wake y) hf u)
  | postAttach y | detach y | readyPush y | attachResume y k => exact absurd hheld hmigrates
  | _ => simp [Frame.held] at hheld

/-- A dispatcher that neither runs nor is in the hand of a function of its thread is in the queue of its
thread, once. -/
theorem Attended.queued (h : Attended s) (hsingle : Single (s.places (.dispatcher t)))
    (hactive : (s.thread t).active ≠ some (.dispatcher t))
    (hhand : ∀ f ∈ (s.thread t).stack, f.held ≠ some (.dispatcher t)) :
    (s.sched t).queue.count (.dispatcher t) = 1 := by
  obtain ⟨p, hp⟩ := hsingle.exists_pos
  cases p with
  | active v =>
    have hv : (s.thread v).active = some (.dispatcher t) := by
      by_contra hne
      simp [State.places, hne] at hp
    obtain rfl := h.own_thread hv
    exact absurd hv hactive
  | hand v =>
    obtain ⟨f, hf, hheld⟩ := List.countP_pos_iff.mp hp
    have hheld' : f.held = some (.dispatcher t) := by simpa using hheld
    obtain rfl := h.held_dispatcher hf hheld'
    exact absurd hheld' (hhand f hf)
  | slot a =>
    cases a with
    | queue u =>
      have hmem := State.slot_queue_pos.mp hp
      obtain rfl : t = u := Option.some.inj
        ((h.pinned.scheduler (.dispatcher t) t rfl).symm.trans (h.resident.queued u _ hmem))
      exact hsingle.exclusive.eq_one (p := .slot (.queue t)) hp
    | ready => simpa [Ctx.isPinned] using h.pinned.ready _ (State.slot_ready_pos.mp hp)
    | wait q => exact absurd (State.slot_wait_pos.mp hp) (h.looping.waits q t)
    | terminated => simp [State.slot, h.looping.terminated (.dispatcher t) rfl] at hp
    | parked => simp [State.slot, State.parked] at hp
    | unborn => simp [State.slot, State.started] at hp

/-- The frames at which the code dereferences the result of `PickNext` without a test. -/
def Frame.dereferences : Frame T → Prop
  | .pickNext _ (some _) | .pickLocal _ (some _) => True
  | _ => False

/-- What holds on thread `t` until its `Dispatch` leaves its loop. -/
structure Switchable (s : State T) (t : T) : Prop where
  /-- The dispatcher is in the queue, once, unless it runs or the function that it switched to has
  not made it ready yet. -/
  queued : ∀ x, (s.thread t).active = some x → x ≠ .dispatcher t →
    (∀ f ∈ (s.thread t).stack, f.held ≠ some (.dispatcher t)) →
      (s.sched t).queue.count (.dispatcher t) = 1
  /-- A result of `PickNext` that is dereferenced is not null. -/
  picks : ∀ x f rest now, (s.thread t).active = some x → (s.thread t).stack = f :: rest →
    f.dereferences → (execFrame s t x now f).isSome

/-- The queue that a dereferenced `PickNext` pops holds the dispatcher. -/
theorem Attended.switchable (h : Attended s) (hsingle : Single (s.places (.dispatcher t))) :
    Switchable s t where
  queued x hx hne hhand := by
    refine h.queued hsingle (fun hactive => hne ?_) hhand
    exact Option.some.inj (hx.symm.trans hactive)
  picks x f rest now hx hstack hf := by
    have hmem : f ∈ (s.thread t).stack := by simp [hstack]
    have huser : f.isUser ∧ f.isInner = false ∧ f.held = none := by
      cases f with
      | pickNext u k | pickLocal u k =>
        cases k <;> simp_all [Frame.dereferences, Frame.isUser, Frame.isInner, Frame.held]
      | _ => simp [Frame.dereferences] at hf
    have hqueue : (s.sched t).queue ≠ [] := by
      have hcount := h.queued hsingle (fun hactive => ?_) fun g hg => ?_
      · intro hempty
        simp [hempty] at hcount
      · simp [h.looping.running t t hactive f hmem] at huser
      · cases List.mem_cons.mp (hstack ▸ hg) with
        | inl htop => simp [htop, huser.2.2]
        | inr hbelow =>
          have hsettled := settled_of_pairwise (hstack ▸ h.shape.below t) huser.2.1 g hbelow
          cases g <;> simp [Frame.isSettled] at hsettled <;> simp [Frame.held]
    obtain ⟨z, queue, hz⟩ := List.exists_cons_of_ne_nil hqueue
    have hresides := h.resident.frames t f hmem
    cases f with
    | pickNext u k =>
      obtain rfl : u = t := hresides
      cases hpolicy : (s.sched u).policy <;> simp [execFrame, pickNext, hpolicy, queuePop, hz]
    | pickLocal u k =>
      obtain rfl : u = t := hresides
      simp [execFrame, queuePop, hz]
    | _ => simp [Frame.dereferences] at hf

/-- A dispatcher runs on its own thread, and is in no queue then. -/
structure RunsUnqueued (s : State T) (t : T) : Prop where
  thread : ∀ v, (s.thread v).active = some (.dispatcher t) → v = t
  queue : (s.thread t).active = some (.dispatcher t) → ∀ u, .dispatcher t ∉ (s.sched u).queue
  ready : (s.thread t).active = some (.dispatcher t) → .dispatcher t ∉ s.readyQueue

/-- In every careful run a thread has its dispatcher to switch to until `Dispatch` leaves its loop, and
a running dispatcher is in no queue. -/
theorem dispatcher_always_queued {policy : T → Policy} {events : List (Event T)}
    (h : Runs policy Careful events s) (t : T) :
    (Runs policy (fun s e => ¬ e.leavesLoop s t) events s → Switchable s t) ∧ RunsUnqueued s t := by
  have ha := h.attended
  refine ⟨fun hloop => ha.switchable (h.dispatcher_single hloop),
    fun v hv => (ha.own_thread hv).symm, fun hactive u hu => ?_, fun _ hready => ?_⟩
  · have hslot := State.slot_queue_pos.mpr hu
    cases hleaves : (s.thread t).stack.any Frame.leaves with
    | true =>
      obtain ⟨f, hf, hfl⟩ := List.any_eq_true.mp hleaves
      obtain ⟨v, rfl⟩ := ha.looping.leaves hactive hf hfl
      obtain rfl : t = v := Ctx.dispatcher.inj (ha.shape.frames t _ hactive _ hf)
      exact absurd (ha.returned t t hf (.slot (.queue u))) hslot.ne'
    | false => exact absurd (active_free (ha.apart _ (by simp)) hactive hleaves (.queue u)) hslot.ne'
  · simpa [Ctx.isPinned] using ha.pinned.ready _ hready

section Computing

instance (s : State T) (x : Ctx T) (g : Frame T) : Decidable (g.asserts s x) := by
  apply @Frame.casesOn T (fun g => Decidable (g.asserts s x)) g <;> intros <;>
    dsimp only [Frame.asserts] <;> infer_instance

instance (s : State T) : DecidablePred (Event.asserts s)
  | .call .. => .isTrue trivial
  | .exec _ x f _ => inferInstanceAs (Decidable (f.asserts s x))

instance (s : State T) : DecidablePred (Event.keepsOrigin s)
  | .call t x op => by
    apply @Op.casesOn T (fun op => Decidable (Event.keepsOrigin s (.call t x op))) op <;> intros <;>
      dsimp only [Event.keepsOrigin] <;> infer_instance
  | .exec .. => .isTrue trivial

instance (s : State T) (t : T) : DecidablePred (Event.leavesLoop s t)
  | .call .. => .isFalse id
  | .exec v x f n => by
    apply @Frame.casesOn T (fun f => Decidable (Event.leavesLoop s t (.exec v x f n))) f <;> intros <;>
      dsimp only [Event.leavesLoop] <;> infer_instance

instance [Fintype T] (s : State T) : DecidablePred (Event.wakesSuspended s)
  | .call .. => .isTrue trivial
  | .exec t x f n => by
    apply @Frame.casesOn T (fun f => Decidable (Event.wakesSuspended s (.exec t x f n))) f <;> intros <;>
      dsimp only [Event.wakesSuspended] <;> infer_instance

instance [Fintype T] (s : State T) (e : Event T) : Decidable (Careful s e) :=
  inferInstanceAs (Decidable (_ ∧ _))

end Computing

/-- Three threads. A fiber of the first one joins a worker that terminates on the second one, and is
woken before it was left. The third thread attaches it, and so the fiber that the first thread runs next
belongs to the third thread, too. That fiber yields to the dispatcher of the third thread, which
finds its queue empty when its own fiber yields. No assertion fails. -/
theorem dispatcher_taken_by_other_thread : ∃ events s,
    Runs (fun _ : Fin 3 => .sharedWork) (fun s e => (e.asserts s ∧ e.keepsOrigin s) ∧
      ¬ e.leavesLoop s 2) events s ∧
      ((s.thread 2).active = some (.worker 1) ∧
        (s.thread 2).stack = [.pickLocal 2 (some (.resumeReady (.worker 1)))] ∧
        (s.thread 0).active = some (.dispatcher 2) ∧ (s.sched 2).queue = [] ∧
        execFrame s 2 (.worker 1) 0 (.pickLocal 2 (some (.resumeReady (.worker 1)))) = none) :=
  reaches_of_drive [.call 2 (.main 2) (.lock 0), .call 2 (.main 2) (.wait 0 0), .frames 2 9 0,
    .call 1 (.main 1) (.start .post), .frames 1 4 0, .call 1 (.main 1) .yield, .frames 1 5 0,
    .call 0 (.main 0) (.start .dispatch), .frames 0 4 0, .call 0 (.worker 1) (.start .post),
    .frames 0 4 0, .call 0 (.worker 1) (.join (.worker 0)), .frames 0 2 0,
    .call 1 (.worker 0) .terminate, .frames 1 4 0, .frames 0 1 0, .frames 2 5 0, .frames 0 3 0,
    .frames 2 3 0, .call 0 (.worker 2) .yield, .frames 0 3 0, .call 2 (.worker 1) .yield,
    .frames 2 1 0] (by decide)

/-- A fiber that waited on one thread is woken from the other one, runs there and yields, with the
dispatcher in the queue. -/
theorem woken_fiber_yields : ∃ events s, Runs (fun _ : Bool => .sharedWork) Careful events s ∧
    Runs (fun _ : Bool => .sharedWork) (fun s e => ¬ e.leavesLoop s true) events s ∧
    (Switchable s true ∧ RunsUnqueued s true) ∧ ((s.thread true).active = some (.worker 0) ∧
      (s.thread true).stack = [.pickLocal true (some (.resumeReady (.worker 0)))] ∧
      (s.sched true).queue = [.dispatcher true, .main true]) := by
  obtain ⟨events, s, hrun, hstate⟩ : ∃ events s, Runs (fun _ : Bool => .sharedWork)
      (fun s e => Careful s e ∧ ¬ e.leavesLoop s true) events s ∧
        ((s.thread true).active = some (.worker 0) ∧
          (s.thread true).stack = [.pickLocal true (some (.resumeReady (.worker 0)))] ∧
          (s.sched true).queue = [.dispatcher true, .main true]) :=
    reaches_of_drive [.call false (.main false) (.start .dispatch), .frames false 4 0,
      .call false (.worker 0) (.lock 0), .call false (.worker 0) (.wait 0 0), .frames false 9 0,
      .call true (.main true) (.notifyOne 0), .frames true 6 0, .call true (.main true) .yield,
      .frames true 6 0, .call true (.worker 0) .yield, .frames true 1 0] (by decide)
  have hcareful := hrun.weaken fun _ _ he => he.1
  have hloop := hrun.weaken fun _ _ he => he.2
  have hqueued := dispatcher_always_queued hcareful true
  exact ⟨events, s, hcareful, hloop, ⟨hqueued.1 hloop, hqueued.2⟩, hstate⟩

end Lutask
