import Lutask.Machine.Shape

/-!
# Main and dispatcher contexts

A pinned context belongs to the scheduler of its own thread for as long as the program runs. It is never
attached, detached or pushed onto the static queue, which hold workers only, and it has no origin to
return to. Like the shape of the stacks this holds in every run.
-/

namespace Lutask

open LabelledRuns

variable {T : Type*}

/-- The thread that a pinned context was made for. -/
def Ctx.owner : Ctx T → Option T
  | .main t | .dispatcher t => some t
  | .worker _ => none

theorem Ctx.isPinned_of_owner {x : Ctx T} {t : T} (h : x.owner = some t) : x.isPinned := by
  cases x with
  | main u | dispatcher u => rfl
  | worker n => simp [Ctx.owner] at h

/-- The context that a frame moves into or out of a scheduler, or onto the static queue. -/
def Frame.migrates : Frame T → Option (Ctx T)
  | .postAttach y | .attachResume y _ | .detach y | .readyPush y => some y
  | _ => none

/-- Pinned contexts never migrate. -/
structure Pinned (s : State T) : Prop where
  scheduler : ∀ x t, x.owner = some t → (s.ctx x).scheduler = some t
  origin : ∀ x, x.isPinned → (s.ctx x).originScheduler = none
  ready : ∀ x ∈ s.readyQueue, x.isPinned = false
  frames : ∀ t, ∀ f ∈ (s.thread t).stack, ∀ y, f.migrates = some y → y.isPinned = false

theorem Pinned.initial (policy : T → Policy) : Pinned (State.initial policy) where
  scheduler x t h := by
    cases x with
    | main u | dispatcher u => simpa [State.initial, Context.initial, Ctx.owner] using h
    | worker n => simp [Ctx.owner] at h
  origin x h := by
    cases x with
    | main u | dispatcher u => rfl
    | worker n => simp [Ctx.isPinned] at h
  ready x h := by simp [State.initial] at h
  frames t f h := by simp [State.initial] at h

variable [DecidableEq T] {s s' : State T} {t : T} {x : Ctx T} {now : ℕ} {f : Frame T} {op : Op T}
  {r : Rest T} {e : Event T}

/-- Only the start of a fiber writes `originScheduler_`, of the new worker. -/
theorem OpStep.originScheduler (h : OpStep s x op r) (y : Ctx T) :
    (r.1.ctx y).originScheduler = (s.ctx y).originScheduler ∨
      y = .worker s.fresh ∧ (∃ launch, op = .start launch) ∧
        ((r.1.ctx y).originScheduler = none ∨
          (r.1.ctx y).originScheduler = (s.ctx x).scheduler) := by
  cases h with
  | start launch =>
    by_cases hy : y = .worker s.fresh
    · refine .inr ⟨hy, ⟨launch, rfl⟩, ?_⟩
      cases launch <;> simp [Lutask.start, hy]
    · exact .inl (by simp [Lutask.start, hy])
  | yieldOrigin | terminate | waitUntil =>
    left
    by_cases hy : y = x <;> simp [workerQueueRemove, Lutask.terminate, Lutask.waitUntil, hy]
  | _ => exact .inl rfl

theorem FrameStep.originScheduler (h : FrameStep s t x now f r) (y : Ctx T) :
    (r.1.ctx y).originScheduler = (s.ctx y).originScheduler := by
  cases h <;> simp [workerQueuePush, detachWorkerContext, workerQueueRemove, Lutask.terminateRemove,
    Lutask.destroy, Lutask.iterate, procTerminated, Function.update_apply] <;> split_ifs <;> simp_all

/-- The static queue is written by pushes from the hand. -/
theorem FrameStep.readied {f : Frame T} {r : Rest T} (h : FrameStep s t x now f r) {y : Ctx T}
    (hy : y ∈ r.1.readyQueue) : y ∈ s.readyQueue ∨ f = .readyPush y := by
  cases h with
  | @readyPush z =>
    have hcases : y ∈ s.readyQueue ∨ y = z := by simpa using hy
    exact hcases.imp_right fun hz => by rw [hz]
  | @pickReady u k z rest hpolicy hready =>
    left
    rw [hready]
    exact List.mem_cons_of_mem _ hy
  | schedule hu | wake hu | scheduleOn => exact .inl (by simpa using hy)
  | dispatchShutdown =>
    left
    simp only [notify] at hy
    split at hy <;> exact hy
  | _ => exact .inl hy

/-- A new fiber that migrates is a worker. -/
theorem OpStep.migrates (h : OpStep s x op r) :
    ∀ g ∈ r.2, ∀ y, g.migrates = some y → y = .worker s.fresh := by
  cases h with
  | start launch => cases launch <;> simp [Lutask.start, Frame.migrates, eq_comm]
  | _ => simp [Lutask.yield, Lutask.waitUntil, Lutask.terminate, Lutask.destructor, Frame.migrates]

/-- A frame passes on the context that it moves, or takes one from the static queue, or finds one that
is not pinned in the hands of `Awakened`. -/
theorem FrameStep.migrates (h : FrameStep s t x now f r) :
    ∀ g ∈ r.2, ∀ y, g.migrates = some y →
      f.migrates = some y ∨ y ∈ s.readyQueue ∨ g = .detach y ∧ y.isPinned = false := by
  have hschedule : ∀ u z, ∀ g ∈ (Lutask.schedule s u z).2, ∀ y, g.migrates = some y →
      g = .detach y ∧ y.isPinned = false := by
    intro u z g hg y hy
    rcases schedule_cases s u z with ⟨-, hr⟩ | ⟨-, hpin, hr⟩
    · simp [hr] at hg
    · obtain rfl : g = .detach z := by simpa [hr] using hg
      obtain rfl : z = y := Option.some.inj hy
      exact ⟨rfl, hpin⟩
  cases h with
  | schedule hu | wake hu | scheduleOn =>
    intro g hg y hy
    exact .inr (.inr (hschedule _ _ g hg y hy))
  | pickReady hpolicy hready => simp [Frame.migrates, hready]
  | @save prev k stack hfctx => cases k <;> simp [Switch.onTop, Frame.migrates]
  | @relock q l p y hl => cases p <;> simp [relockNext, Frame.migrates]
  | @notifyOne q y rest hwaits | @notifyOneEmpty q hwaits | @notifyAllEmpty q hwaits =>
    cases q <;> simp [WaitQueue.afterNotify, Frame.migrates]
  | _ => simp [Lutask.iterate, Lutask.terminateRemove, Lutask.destroy, Frame.migrates]

/-- Every step leaves the pinned contexts where they belong. -/
theorem Pinned.step (h : Pinned s) (hs : Shape s) (hstep : Lutask.step s e = some s') : Pinned s' := by
  refine ⟨fun y v hy => ?_, fun y hy => ?_, fun y hy => ?_, ?_⟩
  · have hpin := Ctx.isPinned_of_owner hy
    rw [← h.scheduler y v hy]
    cases step_inv hstep with
    | call hactive hstack huser hop =>
      rcases hop.scheduler_cases y with hsame | ⟨rfl, -⟩ | ⟨rfl, -, horigin, -⟩
      · exact hsame
      · simp [Ctx.isPinned] at hpin
      · exact absurd (h.origin _ hpin) horigin
    | @frame t x f now rest r hactive hstack hframe =>
      have hfree : f.migrates ≠ some y := fun hf => by
        simp [h.frames t f (by simp [hstack]) y hf] at hpin
      rcases hframe.scheduler y with hsame | ⟨rfl | ⟨k, rfl⟩, -⟩ | ⟨rfl, -⟩
      · exact hsame
      all_goals exact absurd rfl hfree
    | switch hactive hstack htarget hc => simp
  · rw [← h.origin y hy]
    cases step_inv hstep with
    | call hactive hstack huser hop =>
      rcases hop.originScheduler y with hsame | ⟨rfl, -⟩
      · exact hsame
      · simp [Ctx.isPinned] at hy
    | frame hactive hstack hframe => exact hframe.originScheduler y
    | @switch t x z f k now rest stack hactive hstack htarget hc =>
      by_cases hyz : y = z <;> simp [switched, hyz]
  · cases step_inv hstep with
    | call hactive hstack huser hop => exact h.ready y (by simpa [hop.readyQueue] using hy)
    | @frame t x f now rest r hactive hstack hframe =>
      cases hframe.readied (by simpa [State.setStack] using hy) with
      | inl hold => exact h.ready y hold
      | inr hpush => exact h.frames t f (by simp [hstack]) y (by simp [hpush, Frame.migrates])
    | switch hactive hstack htarget hc => exact h.ready y hy
  · refine hs.frames_step h.frames hstep (fun f hf => ?_) (fun _ _ => by simp [Frame.migrates])
      (fun t x op r _ hop g hg y hy => ?_) fun t x f now r _ hf hframe g hg y hy => ?_
    · cases f <;> simp [Frame.isSettled] at hf <;> simp [Frame.migrates]
    · rw [hop.migrates g hg y hy]
      rfl
    · rcases hframe.migrates g hg y hy with hold | hready | ⟨-, hpin⟩
      · exact h.frames t f hf y hold
      · exact h.ready y hready
      · exact hpin

theorem Runs.pinned {policy : T → Policy} {guard : State T → Event T → Prop} {events : List (Event T)}
    (h : Runs policy guard events s) : Pinned s :=
  (Run.invariant (I := fun s => Shape s ∧ Pinned s) h ⟨Shape.initial _, Pinned.initial _⟩
    fun _ _ _ hs _ hstep => ⟨hs.1.step hstep, hs.2.step hs.1 hstep⟩).2

end Lutask
