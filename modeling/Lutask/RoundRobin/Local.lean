import Lutask.Machine.Shape

/-!
# Threads that keep their contexts

Round-robin threads on which no fiber is started with `ELaunch::Async` never touch the static queue of
the work-sharing policy. A context is attached once, when its fiber is started, and belongs to
a scheduler from then on.
-/

namespace Lutask

open LabelledRuns

variable {T : Type*}

/-- A fiber is started with `ELaunch::Async`. -/
def Op.isAsync : Op T → Bool
  | .start .async => true
  | _ => false

/-- No fiber is started with `ELaunch::Async`. -/
def Event.staysLocal : Event T → Prop
  | .call _ _ op => op.isAsync = false
  | .exec .. => True

instance : DecidablePred (Event.staysLocal (T := T))
  | .call _ _ op => inferInstanceAs (Decidable (op.isAsync = false))
  | .exec .. => .isTrue trivial

/-- The frames of `SharedWorkPolicy` by which a context migrates through the static queue. -/
def Frame.isMigration : Frame T → Bool
  | .detach _ | .readyPush _ => true
  | _ => false

/-- The worker that a frame is about to attach. -/
def Frame.attaches : Frame T → Option (Ctx T)
  | .postAttach w | .attachResume w _ => some w
  | _ => none

/-- A suspended context attaches nothing. -/
theorem Frame.attaches_of_settled {f : Frame T} (h : f.isSettled) : f.attaches = none := by
  cases f <;> simp [Frame.isSettled] at h <;> rfl

section Local

variable [DecidableEq T] {s : State T} {t : T} {x : Ctx T}

theorem OpStep.not_migration {op : Op T} {r : Rest T} (h : OpStep s x op r)
    (hlocal : op.isAsync = false) : ∀ f ∈ r.2, f.isMigration = false := by
  cases h with
  | start launch =>
    cases launch with
    | async => simp [Op.isAsync] at hlocal
    | _ => simp [Lutask.start, Frame.isMigration]
  | _ => simp [Lutask.yield, Lutask.waitUntil, Lutask.terminate, Lutask.destructor, Frame.isMigration]

theorem FrameStep.not_migration {f : Frame T} {now : ℕ} {r : Rest T} (h : FrameStep s t x now f r)
    (hpolicy : ∀ u, (s.sched u).policy = .roundRobin) (hf : f.isMigration = false) :
    (∀ g ∈ r.2, g.isMigration = false) ∧ r.1.readyQueue = s.readyQueue := by
  cases h with
  | schedule hu | wake hu | scheduleOn => simp [schedule_roundRobin (hpolicy _), queuePush]
  | detachAsync | detach | readyPush => simp [Frame.isMigration] at hf
  | pickReady hshared | pickReadyEmpty hshared => simp [hpolicy] at hshared
  | @save prev k stack hfctx => cases k <;> exact ⟨by simp [Switch.onTop, Frame.isMigration], rfl⟩
  | @relock q l p y hl => cases p <;> exact ⟨by simp [relockNext, Frame.isMigration], rfl⟩
  | @notifyOne q y rest hwaits | @notifyOneEmpty q hwaits | @notifyAllEmpty q hwaits =>
    cases q <;> exact ⟨by simp [WaitQueue.afterNotify, Frame.isMigration], rfl⟩
  | dispatchShutdown hshut =>
    refine ⟨by simp [Frame.isMigration], ?_⟩
    simp [notify, hpolicy]
  | _ => exact ⟨by simp [Lutask.iterate, Lutask.terminateRemove, Lutask.destroy, Frame.isMigration], rfl⟩

/-- `_Start` attaches the new worker, which belongs to no scheduler. -/
theorem OpStep.attaches {op : Op T} {r : Rest T} (h : OpStep s x op r) :
    ∀ f ∈ r.2, ∀ w, f.attaches = some w → w = .worker s.fresh ∧ (r.1.ctx w).scheduler = none := by
  cases h with
  | start launch =>
    cases launch <;> simp [Lutask.start, Frame.attaches]
  | _ => simp [Lutask.yield, Lutask.waitUntil, Lutask.terminate, Lutask.destructor, Frame.attaches]

/-- Nothing but the static queue leads to another attachment. -/
theorem FrameStep.attaches {f : Frame T} {r : Rest T} (h : FrameStep s t x now f r)
    (hpolicy : ∀ u k, f = .pickNext u k → (s.sched u).policy = .roundRobin) :
    ∀ g ∈ r.2, g.attaches = none := by
  cases h with
  | schedule hu | wake hu | scheduleOn =>
    rcases schedule_cases s _ _ with ⟨-, hr⟩ | ⟨-, -, hr⟩ <;> rw [hr] <;> simp [Frame.attaches]
  | pickReady hshared => simp [hpolicy _ _ rfl] at hshared
  | @save prev k stack hfctx => cases k <;> simp [Switch.onTop, Frame.attaches]
  | @relock q l p z hl => cases p <;> simp [relockNext, Frame.attaches]
  | @notifyOne q z rest hwaits | @notifyOneEmpty q hwaits | @notifyAllEmpty q hwaits =>
    cases q <;> simp [WaitQueue.afterNotify, Frame.attaches]
  | _ => simp [Lutask.iterate, Lutask.terminateRemove, Lutask.destroy, Frame.attaches]

/-- Attaching is `AttachWorkerContext` of the active context's scheduler. -/
theorem FrameStep.attached {f : Frame T} {r : Rest T} (h : FrameStep s t x now f r) {w : Ctx T}
    (hf : f.attaches = some w) : ∃ u, (s.ctx x).scheduler = some u ∧ r.1 = workerQueuePush s u w := by
  cases h with
  | postAttach hu hmtx | attachResume hu hmtx =>
    obtain rfl := Option.some.inj hf
    exact ⟨_, hu, rfl⟩
  | pop hcase | popEmpty hcase => rcases hcase with rfl | ⟨rfl, -⟩ <;> simp [Frame.attaches] at hf
  | _ => simp [Frame.attaches] at hf

/-- Round-robin threads that start no Async fiber never use the static queue. -/
structure StaysLocal (s : State T) : Prop where
  policy : ∀ u, (s.sched u).policy = .roundRobin
  frames : ∀ t, ∀ f ∈ (s.thread t).stack, f.isMigration = false
  ready : s.readyQueue = []

omit [DecidableEq T] in
theorem StaysLocal.initial : StaysLocal (State.initial fun _ : T => .roundRobin) where
  policy _ := rfl
  frames := by simp [State.initial]
  ready := rfl

theorem StaysLocal.step {s' : State T} {e : Event T} (h : StaysLocal s) (hs : Shape s)
    (he : e.staysLocal) (hstep : Lutask.step s e = some s') : StaysLocal s' where
  policy u := (step_policy hstep u).trans (h.policy u)
  frames := by
    refine hs.frames_step h.frames hstep (fun f hf => ?_) (fun _ _ => rfl)
      (fun t x op r hcall hop => ?_) fun t x f now r _ hf hframe => ?_
    · cases f <;> simp [Frame.isSettled] at hf <;> rfl
    · subst hcall
      exact hop.not_migration he
    · exact (hframe.not_migration h.policy (h.frames t f hf)).1
  ready := by
    cases step_inv hstep with
    | call hactive hstack huser hop => exact hop.readyQueue.trans h.ready
    | @frame t x f now rest r hactive hstack hframe =>
      exact (hframe.not_migration h.policy (h.frames t f (by simp [hstack]))).2.trans h.ready
    | switch hactive hstack htarget hc => exact h.ready

theorem Runs.staysLocal {guard : State T → Event T → Prop} {events : List (Event T)}
    (h : Runs (fun _ => .roundRobin) guard events s) (hguard : ∀ s e, guard s e → e.staysLocal) :
    StaysLocal s :=
  (Run.invariant (I := fun s => Shape s ∧ StaysLocal s) h ⟨Shape.initial _, StaysLocal.initial⟩
    fun s e _ hs he hstep => ⟨hs.1.step hstep, hs.2.step hs.1 (hguard s e he) hstep⟩).2

end Local

end Lutask
