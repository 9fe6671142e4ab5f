import Lutask.Machine.Schedule
import Lutask.SharedWork.Custody

/-!
# Who owns a fiber of work-sharing threads

Ready fibers belong to nobody. A fiber that runs or waits belongs to one scheduler, which lists it once.
The pairing of `Attach` and `Detach` gives this for fibers launched with `ELaunch::Post` and
`ELaunch::Dispatch` in every interleaving. `Context::Detach` returns early for `ELaunch::Async`: such a
fiber keeps its scheduler when it becomes ready again, and a second thread attaches it on top.
-/

namespace Lutask

open LabelledRuns

namespace SharedWork

variable {T : Type*}

/-- `x` has one scheduler, whose `workerQueue_` lists it once, and no other one lists it. -/
def Owned [DecidableEq T] (s : State T) (x : Ctx T) : Prop :=
  ∃ u, (s.ctx x).scheduler = some u ∧ (s.sched u).workerQueue.count x = 1 ∧
    ∀ v, v ≠ u → x ∉ (s.sched v).workerQueue

/-- The ownership of the fibers in one state. A worker counts as running while it is active and has
neither started to give its place up by a switch that makes it ready again nor been removed by
`Scheduler::Terminate`. -/
structure Ownership [DecidableEq T] (s : State T) : Prop where
  ready : ∀ x ∈ s.readyQueue, (s.ctx x).scheduler = none ∧ ∀ u, x ∉ (s.sched u).workerQueue
  running : ∀ t n, (s.thread t).active = some (.worker n) →
    (∀ f ∈ (s.thread t).stack, f.givesUp = false) → Owned s (.worker n)
  waiting : ∀ q n, .worker n ∈ s.waits q → Owned s (.worker n)
  /-- The assertion of `AttachWorkerContext`. -/
  attached : ∀ t x, (∃ f ∈ (s.thread t).stack.head?, f = .postAttach x ∨ ∃ k, f = .attachResume x k) →
    (s.ctx x).scheduler = none
  /-- A worker whose `Scheduler::Terminate` has removed it. -/
  terminated : ∀ n, (s.ctx (.worker n)).terminated →
    (∀ t, ∀ f ∈ (s.thread t).stack, f.removes ≠ some (.worker n)) → ∀ u, .worker n ∉ (s.sched u).workerQueue

variable [DecidableEq T] {s : State T}

/-- The events of work-sharing threads in which no attached fiber launched with `ELaunch::Async` is
handed to `Context::Detach`. -/
def ReleasesFibers (s : State T) (e : Event T) : Prop :=
  Allowed s e ∧ e.detachesLoose s

instance (s : State T) (e : Event T) : Decidable (ReleasesFibers s e) :=
  inferInstanceAs (Decidable (_ ∧ _))

omit [DecidableEq T] in
/-- Only workers are attached and detached. -/
theorem exists_worker {x : Ctx T} (h : x.isPinned = false) : ∃ n, x = .worker n := by
  cases x with
  | worker n => exact ⟨n, rfl⟩
  | main t | dispatcher t => simp [Ctx.isPinned] at h

/-- A listed worker is owned by the scheduler that lists it. -/
theorem owned_of_listed (h : Custody s) {n : ℕ} (hlisted : Listed s (.worker n)) :
    Owned s (.worker n) := by
  obtain ⟨u, hu, hmem⟩ := hlisted
  refine ⟨u, hu, ?_, fun v hvu hv => ?_⟩
  · have hpos := List.count_pos_iff.mpr hmem
    have hle := h.once n u
    omega
  · exact hvu (Option.some.inj ((h.own n v hv).symm.trans hu))

/-- Work-sharing threads own their fibers one at a time in every run in which no fiber that is still
attached is made ready. -/
theorem shared_fibers_owned {events : List (Event T)}
    (h : Runs (fun _ => .sharedWork) ReleasesFibers events s) : Ownership s := by
  have hshared : Shared s := h.shared fun _ _ he => he.1
  have hcustody : Custody s := (Run.invariant (I := fun s => Shared s ∧ Custody s) h
    ⟨⟨Orderly.initial _, Enclosed.initial _, Departing.initial _, Homed.initial _, fun _ => rfl⟩,
      Custody.initial _⟩
    fun _ _ _ hs he hstep => ⟨hs.1.step he.1 hstep, hs.2.step hs.1 he.1.1 he.2 hstep⟩).2
  refine ⟨fun x hx => ?_, fun t n hactive hstays => ?_, fun q n hn => ?_, fun t x hx => ?_,
    fun n hterm hdone => ?_⟩
  · obtain ⟨n, rfl⟩ := exists_worker (hshared.homed.ready x hx)
    have hnone := hcustody.loose n (.inr (.inl hx))
    exact ⟨hnone, fun u hu => by simp [hcustody.own n u hu] at hnone⟩
  · exact owned_of_listed hcustody (hcustody.running t n hactive hstays)
  · exact owned_of_listed hcustody (hcustody.waiting q n hn)
  · obtain ⟨f, hf, hcase⟩ := hx
    have hmem := List.mem_of_mem_head? hf
    have hpin : x.isPinned = false := by
      rcases hcase with rfl | ⟨k, rfl⟩ <;> exact hshared.homed.frames t _ hmem
    obtain ⟨n, rfl⟩ := exists_worker hpin
    refine hcustody.loose n (.inr (.inr ⟨t, f, hmem, ?_⟩))
    rcases hcase with rfl | ⟨k, rfl⟩ <;> rfl
  · refine (hcustody.removed n hterm).resolve_left ?_
    rintro ⟨t, f, hf, hremoves⟩
    exact hdone t f hf hremoves

/-- A posted fiber waits on one thread and is picked up by the other one, which then owns it. -/
theorem owned_after_migration : ∃ events s,
    Runs (fun _ : Bool => .sharedWork) ReleasesFibers events s ∧
      ((s.thread false).active = some (.worker 0) ∧ (s.ctx (.worker 0)).scheduler = some false) ∧
        Ownership s := by
  obtain ⟨events, s, hrun, hplaces⟩ : ∃ events s,
      Runs (fun _ : Bool => .sharedWork) ReleasesFibers events s ∧
        ((s.thread false).active = some (.worker 0) ∧ (s.ctx (.worker 0)).scheduler = some false) :=
    reaches_of_drive
      [.call false (.main false) (.start .post), .frames false 4 0,
        .call true (.main true) .yield, .frames true 5 0,
        .call true (.worker 0) (.lock 0), .call true (.worker 0) (.wait 0 0), .frames true 9 0,
        .call false (.main false) (.notifyAll 0), .frames false 7 0,
        .call false (.main false) .yield, .frames false 5 0]
      (by decide)
  exact ⟨events, s, hrun, hplaces, shared_fibers_owned hrun⟩

/-- The same run with a fiber launched with `ELaunch::Async`, up to its termination: the thread on which
it waited lists it for ever. -/
theorem listed_after_termination : ∃ events s,
    Runs (fun _ : Bool => .sharedWork) Allowed events s ∧
      ((s.ctx (.worker 0)).terminated ∧ .worker 0 ∈ (s.sched true).workerQueue) ∧ ¬ Ownership s := by
  obtain ⟨events, s, hrun, hterm, hdone, hlisted⟩ : ∃ events s,
      Runs (fun _ : Bool => .sharedWork) Allowed events s ∧
        ((s.ctx (.worker 0)).terminated ∧ (∀ t, ∀ f ∈ (s.thread t).stack, f.removes ≠ some (.worker 0)) ∧
          .worker 0 ∈ (s.sched true).workerQueue) :=
    reaches_of_drive
      [.call false (.main false) (.start .async), .frames false 2 0,
        .call true (.main true) .yield, .frames true 5 0,
        .call true (.worker 0) (.lock 0), .call true (.worker 0) (.wait 0 0), .frames true 9 0,
        .call false (.main false) (.notifyAll 0), .frames false 7 0,
        .call false (.main false) .yield, .frames false 6 0,
        .call false (.worker 0) .terminate, .frames false 3 0]
      (by decide)
  exact ⟨events, s, hrun, ⟨hterm, hlisted⟩, fun hown => hown.terminated 0 hterm hdone true hlisted⟩

end SharedWork

end Lutask
