import Lutask.Machine.Effects
import Lutask.Machine.Schedule
import Lutask.Fiber.Objects

/-!
# Workers are never reclaimed

A worker begins with one reference that no handle stands for, and `ProcTerminated`, which would have to
give it back, only takes the worker from `terminatedQueue_`. So the use count stays above the number of
handles, and no release ever finds the last reference.
-/

namespace Lutask

open LabelledRuns ReferenceCounting ReferenceCounting.Store

variable {T : Type*}

section Fresh

variable [DecidableEq T]

/-- A `Fiber` makes one worker. -/
theorem step_start_fresh {s s' : State T} {t : T} {x : Ctx T} {launch : ELaunch}
    (h : step s (.call t x (.start launch)) = some s') : s'.fresh = s.fresh + 1 := by
  cases step_inv h with
  | call hactive hstack huser hop =>
    cases hop
    rfl

/-- Nothing else makes one. -/
theorem step_fresh {s s' : State T} {e : Event T} (h : step s e = some s')
    (he : ∀ t x launch, e ≠ .call t x (.start launch)) : s'.fresh = s.fresh := by
  cases step_inv h with
  | call hactive hstack huser hop =>
    cases hop.fresh with
    | inl hsame => exact hsame
    | inr hstart =>
      obtain ⟨⟨launch, rfl⟩, -⟩ := hstart
      exact absurd rfl (he _ _ launch)
  | frame hactive hstack hframe => exact hframe.fresh
  | switch hactive hstack htarget hc => rfl

end Fresh

namespace Fibers

/-- The handles of a worker. -/
def State.handles (s : State T) (n : ℕ) : ℕ := s.store.count n

/-- The worker has terminated, `ProcTerminated` has taken it, and no `Fiber` refers to it any more. -/
def State.Due (s : State T) (n : ℕ) : Prop :=
  (s.machine.ctx (.worker n)).terminated ∧ s.reaped n ∧ s.handles n = 0

/-- The scheduler of a terminated worker without handles was destroyed. -/
def State.Left (s : State T) (n : ℕ) : Prop :=
  (s.machine.ctx (.worker n)).terminated ∧ s.handles n = 0 ∧
    ∃ u, (s.machine.ctx (.worker n)).scheduler = some u ∧ (s.machine.sched u).deleted

/-- The worker is active, ready or waiting. -/
def State.InUse (s : State T) (n : ℕ) : Prop :=
  (∃ t, (s.machine.thread t).active = some (.worker n)) ∨ (∃ u, .worker n ∈ (s.machine.sched u).queue) ∨
    .worker n ∈ s.machine.readyQueue ∨ ∃ q, .worker n ∈ s.machine.waits q

/-- Every worker was reclaimed if it is due, and was not reclaimed before. -/
structure State.ReclaimedInTime (s : State T) : Prop where
  due : ∀ n, n < s.machine.fresh → s.Due n → s.store.useCount n = 0 ∧ s.store.obj n = 1
  before : ∀ n, n < s.machine.fresh → ¬ s.Due n → 0 < s.store.useCount n ∧ s.store.obj n = 0
  inUse : ∀ n, n < s.machine.fresh → s.InUse n → s.store.obj n = 0
  left : ∀ n, n < s.machine.fresh → s.Left n → s.store.obj n = 1

/-- No worker is due, and no scheduler has left one behind. -/
def State.NothingDue (s : State T) : Prop :=
  ∀ n, n < s.machine.fresh → ¬ s.Due n ∧ ¬ s.Left n

/-- The references that no pointer stands for: `Context{ 1, … }` counts one for every worker. -/
def State.initialCount (s : State T) (n : ℕ) : ℕ := if n < s.machine.fresh then 1 else 0

/-- The invariant of the handles. -/
structure Referenced (s : State T) : Prop where
  made : .made ∉ s.store.live
  started : Refers (· < s.machine.fresh) s.store
  counted : Counted s.initialCount s.store
  kept : ∀ n, s.store.obj n = 0

theorem Referenced.initial (policy : T → Policy) : Referenced (State.initial policy) where
  made := by simp [State.initial]
  started f n h := by simp [State.initial] at h
  counted n := by
    simp [State.initial, State.initialCount, Lutask.State.initial, count, pointers]
  kept _ := rfl

section Invariant

variable {s s' : State T} {e : Event T} {f : ℕ}

/-- No handle holds the last reference. -/
theorem Referenced.not_last (h : Referenced s) (p : Pointer) :
    ∀ n, s.store.px p = some n → s.store.useCount n ≠ 1 := by
  intro n hn
  have hlt : n < s.machine.fresh := h.started p n hn
  exact h.counted.useCount_ne_one (by simp [State.initialCount, hlt]) hn

/-- A change of the handles alone. -/
theorem Referenced.setStore (h : Referenced s) {machine : Lutask.State T} {joining : Ctx T → Option ℕ}
    {reaped : ℕ → Bool} {store : Store Pointer ℕ ℕ} (hfresh : machine.fresh = s.machine.fresh)
    (hmade : .made ∉ store.live) (hstarted : Refers (· < s.machine.fresh) store)
    (hcounted : Counted s.initialCount store) (hobj : store.obj = s.store.obj) :
    Referenced (⟨machine, store, joining, reaped⟩ : State T) where
  made := hmade
  started := hfresh ▸ hstarted
  counted := by
    have hsame : (⟨machine, store, joining, reaped⟩ : State T).initialCount = s.initialCount := by
      funext n
      simp [State.initialCount, hfresh]
    exact hsame ▸ hcounted
  kept n := by rw [hobj, h.kept n]

/-- The constructor of `Fiber` leaves the new worker with two references. -/
theorem Referenced.makeWorker (h : Referenced s) {machine : Lutask.State T}
    (hfresh : machine.fresh = s.machine.fresh + 1) (hf : .impl f ∉ s.store.live) :
    Referenced { s with machine := machine, store := makeWorker s.store f s.machine.fresh } := by
  have hnull : Refers (· < s.machine.fresh) (s.store.construct (.impl f) none) :=
    h.started.construct (by simp)
  have hnew : ∀ p, (s.store.construct (.impl f) none).px p ≠ some s.machine.fresh := fun p hp =>
    absurd (hnull p _ hp) (Nat.lt_irrefl _)
  have hinitial : Function.update s.initialCount s.machine.fresh 1 =
      State.initialCount
        { s with machine := machine, store := Fibers.makeWorker s.store f s.machine.fresh } := by
    funext n
    by_cases hn : n = s.machine.fresh
    · simp [State.initialCount, hn, hfresh]
    · have hlt : n < s.machine.fresh ↔ n < s.machine.fresh + 1 := by omega
      simp [State.initialCount, hn, hfresh, hlt]
  have hallocated := (h.counted.construct (p := none) hf).allocate (i := 1) (o := 0) hnew
  have hrefers : Refers (· < s.machine.fresh + 1)
      ((s.store.construct (.impl f) none).allocate s.machine.fresh 1 0) := fun p n hp =>
    Nat.lt_succ_of_lt (hnull p n hp)
  refine ⟨by simp [Fibers.makeWorker], ?_, ?_, fun n => ?_⟩
  · rw [hfresh]
    exact ((hrefers.construct (by simp)).moveAssign).destroy
  · rw [← hinitial]
    exact ((hallocated.construct (by simpa using h.made)).moveAssign (by simp)).destroy
  · rw [Fibers.makeWorker, destroy_obj (by simp), moveAssign_obj (by simp), construct_obj, allocate_obj,
      construct_obj]
    by_cases hn : n = s.machine.fresh
    · simp [hn]
    · simp [hn, h.kept n]

variable [DecidableEq T]

/-- The operations on `Fiber` objects keep the invariant. -/
theorem Referenced.fiberStep (h : Referenced s) {t : T} {x : Ctx T} {op : FiberOp}
    (hstep : fiberStep s t x op = some s') : Referenced s' := by
  have hmade := h.made
  cases op with
  | move g f =>
    simp only [Fibers.fiberStep, Option.ite_none_right_eq_some, Option.some.injEq] at hstep
    obtain ⟨⟨hf, hg, -⟩, rfl⟩ := hstep
    exact h.setStore rfl (by simpa) (h.started.construct (by simp)).swap (h.counted.construct hg).swap
      (by simp)
  | moveAssign g f =>
    simp only [Fibers.fiberStep, Option.ite_none_right_eq_some, Option.some.injEq] at hstep
    obtain ⟨-, rfl⟩ := hstep
    split
    · exact h
    · exact h.setStore rfl (by simpa) h.started.swap h.counted.swap (by simp)
  | swap g f =>
    simp only [Fibers.fiberStep, Option.ite_none_right_eq_some, Option.some.injEq] at hstep
    obtain ⟨-, rfl⟩ := hstep
    exact h.setStore rfl (by simpa) h.started.swap h.counted.swap (by simp)
  | join f thrown =>
    simp only [Fibers.fiberStep, Option.ite_none_right_eq_some] at hstep
    obtain ⟨-, hstep⟩ := hstep
    split at hstep
    · obtain ⟨machine, hjoin, rfl⟩ := Option.map_eq_some_iff.mp hstep
      exact h.setStore (step_fresh hjoin (by simp)) h.made h.started h.counted rfl
    · obtain rfl := Option.some.inj hstep
      exact h
  | joined f =>
    simp only [Fibers.fiberStep, Option.ite_none_right_eq_some, Option.some.injEq] at hstep
    obtain ⟨-, rfl⟩ := hstep
    exact h.setStore rfl (by simpa) (h.started.assign (by simp)) h.counted.assign
      (reset_obj (h.not_last _))
  | detach f thrown =>
    simp only [Fibers.fiberStep, Option.ite_none_right_eq_some] at hstep
    obtain ⟨-, hstep⟩ := hstep
    cases thrown with
    | some error =>
      obtain rfl := Option.some.inj hstep
      exact h
    | none =>
      obtain rfl := Option.some.inj hstep
      exact h.setStore rfl (by simpa) (h.started.assign (by simp)) h.counted.assign
        (reset_obj (h.not_last _))
  | destroy f =>
    simp only [Fibers.fiberStep, Option.ite_none_right_eq_some, Option.some.injEq] at hstep
    obtain ⟨-, rfl⟩ := hstep
    exact h.setStore rfl (by simpa) h.started.destroy h.counted.destroy (destroy_obj (h.not_last _))

theorem Referenced.step (h : Referenced s) (hstep : step s e = some s') : Referenced s' := by
  cases e with
  | start t x launch f =>
    simp only [Fibers.step, Option.ite_none_right_eq_some, Option.map_eq_some_iff] at hstep
    obtain ⟨⟨hf, -⟩, machine, hstart, rfl⟩ := hstep
    exact h.makeWorker (step_start_fresh hstart) hf
  | fiber t x op =>
    simp only [Fibers.step, Option.ite_none_right_eq_some] at hstep
    exact h.fiberStep hstep.2
  | step e =>
    simp only [Fibers.step, Option.ite_none_right_eq_some, Option.map_eq_some_iff] at hstep
    obtain ⟨hallows, machine, hmachine, rfl⟩ := hstep
    have hfresh : machine.fresh = s.machine.fresh := by
      apply step_fresh hmachine
      rintro t x launch rfl
      simp [State.allows] at hallows
    exact h.setStore hfresh h.made h.started h.counted rfl

end Invariant

section Reclaiming

variable {policy : T → Policy} {events : List (Event T)} {s : State T}

/-- A worker that was made has one reference more than it has handles. -/
theorem Referenced.useCount (h : Referenced s) {n : ℕ} (hn : n < s.machine.fresh) :
    s.store.useCount n = 1 + s.handles n := by
  rw [h.counted n, State.initialCount, if_pos hn, State.handles]

variable [DecidableEq T]

theorem Runs.referenced (h : Runs policy events s) : Referenced s :=
  Run.invariant (I := Referenced) h (.initial policy) fun _ _ _ hs _ hstep => hs.step hstep

/-- In every state that a run reaches, a worker has one reference more than it has handles and was not
reclaimed. So workers are reclaimed in time exactly in the runs in which none ever has to be. -/
theorem reclaimed_iff_nothing_due (h : Runs policy events s) :
    (∀ n, n < s.machine.fresh → s.store.useCount n = 1 + s.handles n ∧ s.store.obj n = 0) ∧
    ((∀ before s', before <+: events → Runs policy before s' → s'.ReclaimedInTime) ↔
      ∀ before s', before <+: events → Runs policy before s' → s'.NothingDue) := by
  have hs := Runs.referenced h
  refine ⟨fun n hn => ⟨hs.useCount hn, hs.kept n⟩, fun hall before s' hbefore hrun n hn => ?_,
    fun hnothing before s' hbefore hrun => ?_⟩
  · have hkept := (Runs.referenced hrun).kept n
    have hreclaimed := hall before s' hbefore hrun
    refine ⟨fun hdue => ?_, fun hleft => ?_⟩
    · have := (hreclaimed.due n hn hdue).2
      omega
    · have := hreclaimed.left n hn hleft
      omega
  · have hinv := Runs.referenced hrun
    have hnone := hnothing before s' hbefore hrun
    exact ⟨fun n hn hdue => absurd hdue (hnone n hn).1,
      fun n hn _ => ⟨by have := hinv.useCount hn; omega, hinv.kept n⟩, fun n _ _ => hinv.kept n,
      fun n hn hleft => absurd hleft (hnone n hn).2⟩

end Reclaiming

/-- The next frame of the only thread. -/
def nextFrame (s : State Unit) : Option (Event Unit) := (nextEvent s.machine () 0).map .step

/-- A fiber is started and detached, terminates, and the scheduler is destroyed. -/
def detachedFiber : List (Cue (State Unit) (Event Unit)) :=
  [.label (.start () (.main ()) .post 0), .follow nextFrame 2,
    .label (.fiber () (.main ()) (.detach 0 none)),
    .label (.fiber () (.main ()) (.destroy 0)), .label (.step (.call () (.main ()) .yield)),
    .follow nextFrame 11, .label (.step (.call () (.worker 0) .terminate)), .follow nextFrame 6,
    .label (.step (.call () (.main ()) .destructor)), .follow nextFrame 8]

/-- The worker was taken by `ProcTerminated` without a handle, and the scheduler is gone. The worker still
has the reference that it began with. -/
theorem detachedFiber_not_reclaimed : ∃ events s, Runs (fun _ : Unit => .roundRobin) events s ∧ s.Due 0 ∧
    (s.machine.sched ()).deleted ∧ s.store.useCount 0 = 1 ∧ ¬ s.ReclaimedInTime := by
  obtain ⟨s, hscript, hfresh, hterminated, hreaped, hhandles, hdeleted, hcount⟩ :
      ∃ s, perform step (fun _ _ => true) detachedFiber
        (State.initial fun _ : Unit => .roundRobin) = some s ∧
        s.machine.fresh = 1 ∧ (s.machine.ctx (.worker 0)).terminated ∧ s.reaped 0 ∧ s.handles 0 = 0 ∧
        (s.machine.sched ()).deleted ∧ s.store.useCount 0 = 1 :=
    ⟨_, rfl, rfl, rfl, rfl, rfl, rfl, rfl⟩
  obtain ⟨events, hrun⟩ : ∃ events, Runs (fun _ : Unit => .roundRobin) events s :=
    Run.of_perform (fun _ _ _ => trivial) hscript
  have hdue : s.Due 0 := ⟨hterminated, hreaped, hhandles⟩
  refine ⟨events, s, hrun, hdue, hdeleted, hcount, fun hreclaimed => ?_⟩
  have := (hreclaimed.due 0 (by omega) hdue).1
  omega

/-- Every worker has a handle. -/
def State.AllReferred (s : State T) : Prop :=
  ∀ n < s.machine.fresh, 0 < s.handles n

instance (s : State T) : Decidable s.AllReferred :=
  inferInstanceAs (Decidable (∀ n < _, _))

theorem State.AllReferred.nothingDue {s : State T} (h : s.AllReferred) : s.NothingDue := fun n hn =>
  ⟨fun hdue => (h n hn).ne' hdue.2.2, fun hleft => (h n hn).ne' hleft.2.1⟩

/-- A fiber terminates and `ProcTerminated` takes it, while its starter has not returned from `Join`. -/
def joinedFiber : List (Cue (State Unit) (Event Unit)) :=
  [.label (.start () (.main ()) .post 0), .follow nextFrame 2, .label (.fiber () (.main ()) (.join 0 none)),
    .follow nextFrame 12, .label (.step (.call () (.worker 0) .terminate)), .follow nextFrame 10]

/-- The `Fiber` still refers to the terminated worker, so that it was reclaimed neither too late nor too
early. -/
theorem joinedFiber_referenced : ∃ events s, Runs (fun _ : Unit => .roundRobin) events s ∧
    ((s.machine.ctx (.worker 0)).terminated ∧ s.reaped 0 ∧ s.handles 0 = 1 ∧ s.store.useCount 0 = 2) ∧
    ∀ before s', before <+: events → Runs (fun _ : Unit => .roundRobin) before s' → s'.ReclaimedInTime := by
  obtain ⟨s, hscript, hstate, hend⟩ :
      ∃ s, perform step (fun s _ => decide s.AllReferred) joinedFiber
          (State.initial fun _ : Unit => .roundRobin) = some s ∧
        ((s.machine.ctx (.worker 0)).terminated ∧ s.reaped 0 ∧ s.handles 0 = 1 ∧ s.store.useCount 0 = 2) ∧
        decide s.AllReferred = true :=
    ⟨_, rfl, ⟨rfl, rfl, rfl, rfl⟩, rfl⟩
  obtain ⟨events, hguarded⟩ : ∃ events, Run step (fun (s : State Unit) _ => s.AllReferred)
      (State.initial fun _ => .roundRobin) events s :=
    Run.of_perform (fun _ _ => of_decide_eq_true) hscript
  have hrun : Runs (fun _ : Unit => .roundRobin) events s := hguarded.weaken fun _ _ _ => trivial
  refine ⟨events, s, hrun, hstate, (reclaimed_iff_nothing_due hrun).2.mpr fun before s' hbefore hrun' => ?_⟩
  exact (hguarded.throughout (fun _ _ hall => hall) (of_decide_eq_true hend) hbefore hrun').nothingDue

end Fibers

end Lutask
