import Lutask.Dispatcher.Loop
import Lutask.Machine.Schedule
import Lutask.SharedWork.Homes

/-!
# One place for every context of work-sharing threads

Any number of threads under `SharedWorkPolicy`, in every interleaving of their atomic actions, as
long as nobody joins, sleeps or calls `YieldOrigin` and no thread exits. A worker is on one thread,
queued once in the static queue, waiting once in one wait queue, or terminated. A main or dispatcher
context is on one thread, queued once in the `localQueue_` of its own thread, or waiting once in one
wait queue. A context that a function of some thread has in its hand counts as being on this
thread; one that is about to leave for a wait queue counts as waiting from its push on.
-/

namespace Lutask

open LabelledRuns TokenPlacement

namespace SharedWork

variable {T : Type*}

/-- The places of a context. -/
inductive Spot (T : Type*) where
  | onThread (t : T)
  | readyQueue
  | localQueue (t : T)
  | waitQueue (q : WaitQueue T)
  | terminated
  | parked

/-- Thread `t` executes `x` or is about to resume it or to queue it. -/
def OnThread (s : State T) (t : T) (x : Ctx T) : Prop :=
  ((s.thread t).active = some x ∧ ∀ f ∈ (s.thread t).stack, f.leaves = false) ∨
    ∃ f ∈ (s.thread t).stack, f.held = some x

/-- Where a context is. -/
def Occupies (s : State T) (x : Ctx T) : Spot T → Prop
  | .onThread t => OnThread s t x
  | .readyQueue => x ∈ s.readyQueue
  | .localQueue t => x ∈ (s.sched t).queue
  | .waitQueue q => x ∈ s.waits q
  | .terminated => (s.ctx x).terminated
  -- main called `~Scheduler`, whose `Dispatch` is still in its loop
  | .parked => ∃ t, x = .main t ∧ (s.sched t).shutdown

/-- The counted places that make up a spot. -/
def Spot.covers (spot : Spot T) : Place T → Prop
  | .active t | .hand t => spot = .onThread t
  | .slot .ready => spot = .readyQueue
  | .slot (.queue t) => spot = .localQueue t
  | .slot (.wait q) => spot = .waitQueue q
  | .slot .terminated => spot = .terminated
  | .slot .parked => spot = .parked
  | .slot .unborn => False

/-- No place belongs to two spots. -/
theorem Spot.covers_unique {a b : Spot T} {p : Place T} (ha : a.covers p) (hb : b.covers p) :
    a = b := by
  cases p with
  | active t | hand t => exact Eq.trans ha (Eq.symm hb)
  | slot slot =>
    cases slot with
    | unborn => exact absurd ha id
    | _ => exact Eq.trans ha (Eq.symm hb)

variable [DecidableEq T]

/-- Every context, pinned or not, has one place, the queues hold nobody twice, a running context
belongs to the scheduler of its thread, workers stay out of the local queues, and pinned contexts
neither terminate nor leave their own thread. -/
structure SinglePlace (s : State T) : Prop where
  place : ∀ x, s.started x → ∃! spot, Occupies s x spot
  ready : ∀ x, s.readyQueue.count x ≤ 1
  localQueue : ∀ x t, (s.sched t).queue.count x ≤ 1
  waiting : ∀ x q, (s.waits q).count x ≤ 1
  alone : ∀ t u x, (s.thread t).active = some x → (s.thread u).active = some x → t = u
  steady : s.Steady → ∀ t x, OnThread s t x ↔ (s.thread t).active = some x
  scheduler : ∀ t x, (s.thread t).active = some x → (s.ctx x).scheduler = some t
  workers : ∀ n t, .worker n ∉ (s.sched t).queue
  pinned : ∀ t x, x.owner = some t → x ∉ s.readyQueue ∧ ¬ (s.ctx x).terminated ∧
    (∀ u, x ∈ (s.sched u).queue → u = t) ∧ ∀ u, (s.thread u).active = some x → u = t

/-- A context is on a thread if it is counted as active there or in the hand of a function. -/
theorem onThread_iff (s : State T) (t : T) (x : Ctx T) :
    OnThread s t x ↔ 0 < s.places x (.active t) ∨ 0 < s.places x (.hand t) := by
  refine or_congr ?_ ?_
  · cases hleaves : (s.thread t).stack.any Frame.leaves with
    | true =>
      obtain ⟨f, hf, hfl⟩ := List.any_eq_true.mp hleaves
      have hleave : ¬ ∀ f ∈ (s.thread t).stack, f.leaves = false := fun h => by simp [h f hf] at hfl
      simp [State.places, hleaves, hleave]
    | false =>
      have hstay : ∀ f ∈ (s.thread t).stack, f.leaves = false := fun f hf => by
        simpa using List.any_eq_false.mp hleaves f hf
      by_cases hx : (s.thread t).active = some x
      · simpa [State.places, hleaves, hx] using hstay
      · simp [State.places, hx]
  · simp [State.places, heldIn, List.countP_pos_iff]

/-- A context that occupies a spot is counted in one of its places. -/
theorem Occupies.counted {s : State T} {x : Ctx T} {spot : Spot T} (h : Occupies s x spot) :
    ∃ p, spot.covers p ∧ 0 < s.places x p := by
  cases spot with
  | onThread t =>
    rcases (onThread_iff s t x).mp h with hactive | hhand
    · exact ⟨.active t, rfl, hactive⟩
    · exact ⟨.hand t, rfl, hhand⟩
  | readyQueue => exact ⟨.slot .ready, rfl, State.slot_ready_pos.mpr h⟩
  | localQueue t => exact ⟨.slot (.queue t), rfl, State.slot_queue_pos.mpr h⟩
  | waitQueue q => exact ⟨.slot (.wait q), rfl, State.slot_wait_pos.mpr h⟩
  | terminated => exact ⟨.slot .terminated, rfl, State.slot_terminated_pos.mpr h⟩
  | parked =>
    obtain ⟨t, rfl, hshut⟩ := h
    exact ⟨.slot .parked, rfl, by simp [State.slot, State.parked, hshut]⟩

/-- A started context that is counted somewhere occupies a spot. -/
theorem exists_spot {s : State T} {x : Ctx T} (hx : s.started x) {p : Place T}
    (hp : 0 < s.places x p) : ∃ spot, Occupies s x spot := by
  cases p with
  | active t => exact ⟨.onThread t, (onThread_iff s t _).mpr (.inl hp)⟩
  | hand t => exact ⟨.onThread t, (onThread_iff s t _).mpr (.inr hp)⟩
  | slot a =>
    cases a with
    | queue u => exact ⟨.localQueue u, State.slot_queue_pos.mp hp⟩
    | ready => exact ⟨.readyQueue, State.slot_ready_pos.mp hp⟩
    | wait q => exact ⟨.waitQueue q, State.slot_wait_pos.mp hp⟩
    | terminated => exact ⟨.terminated, State.slot_terminated_pos.mp hp⟩
    | parked =>
      cases x with
      | main u =>
        cases hshut : (s.sched u).shutdown with
        | true => exact ⟨.parked, u, rfl, hshut⟩
        | false => simp [State.slot, State.parked, hshut] at hp
      | dispatcher u | worker n => simp [State.slot, State.parked] at hp
    | unborn => simp [State.slot, hx] at hp

/-- A started context that is counted once occupies one spot. -/
theorem unique_spot {s : State T} {x : Ctx T} (hsingle : Single (s.places x)) (hx : s.started x) :
    ∃! spot, Occupies s x spot := by
  obtain ⟨p, hp⟩ := hsingle.exists_pos
  obtain ⟨spot, hspot⟩ := exists_spot hx hp
  refine ⟨spot, hspot, fun other hother => ?_⟩
  obtain ⟨p, hcovers, hp⟩ := hspot.counted
  obtain ⟨q, hcovers', hq⟩ := hother.counted
  obtain rfl := hsingle.exclusive.eq_of_pos hp hq
  exact Spot.covers_unique hcovers' hcovers

/-- Work-sharing threads keep every context in exactly one place, whatever they do and in whatever
order their steps are taken. -/
theorem shared_work_single_place {events : List (Event T)} {s : State T}
    (h : Runs (fun _ => .sharedWork) Allowed events s) : SinglePlace s := by
  have hhomed : Homed s := (h.shared fun _ _ he => he).homed
  have hsingle : ∀ x, Single (s.places x) := h.single fun s e he => ⟨he.1, he.2.2⟩
  exact
    { place := fun x hx => unique_spot (hsingle x) hx
      ready := fun x => (hsingle x).exclusive.le_one (.slot .ready)
      localQueue := fun x t => (hsingle x).exclusive.le_one (.slot (.queue t))
      waiting := fun x q => (hsingle x).exclusive.le_one (.slot (.wait q))
      alone := fun t u x ht hu => h.continued.unique t u x (.inl ht) (.inl hu)
      steady := fun hsteady t x => by
        rw [onThread_iff, hsteady.active, hsteady.hand]
        by_cases hx : (s.thread t).active = some x <;> simp [hx]
      scheduler := hhomed.active
      workers := fun n t hmem => by simpa [Ctx.isPinned] using (hhomed.queued t _ hmem).1
      pinned := fun t x hx => by
        have hpin := Ctx.isPinned_of_owner hx
        have hhome := hhomed.pinned x t hx
        refine ⟨fun hmem => ?_, ?_, fun u hmem => ?_, fun u hu => ?_⟩
        · simp [hhomed.ready x hmem] at hpin
        · simp [h.looping.terminated x hpin]
        · exact Option.some.inj ((hhomed.queued u x hmem).2.symm.trans hhome)
        · exact Option.some.inj ((hhomed.active u x hu).symm.trans hhome) }

/-- A run of two threads in which a fiber that one of them started waits after it ran on the other,
where a second fiber is running now, and in which the main context of the other thread waited
until the first thread put it back into its own local queue. -/
theorem single_place_migrated :
    ∃ events s, Runs (fun _ : Bool => .sharedWork) Allowed events s ∧ SinglePlace s ∧
      (.worker 0 ∈ s.waits (.cv 1) ∧ (s.ctx (.worker 0)).scheduler = some true ∧
        (s.thread true).active = some (.worker 1) ∧ .main true ∈ (s.sched true).queue) := by
  obtain ⟨events, s, hrun, hplaces⟩ :
      ∃ events s, Runs (fun _ : Bool => .sharedWork) Allowed events s ∧
        (.worker 0 ∈ s.waits (.cv 1) ∧ (s.ctx (.worker 0)).scheduler = some true ∧
          (s.thread true).active = some (.worker 1) ∧ .main true ∈ (s.sched true).queue) :=
    reaches_of_drive [.call false (.main false) (.start .async), .frames false 2 0,
      .call false (.main false) (.start .async), .frames false 2 0,
      .call true (.main true) (.lock 0), .call true (.main true) (.wait 0 0), .frames true 9 0,
      .call true (.worker 0) (.lock 1), .call true (.worker 0) (.wait 1 1), .frames true 9 0,
      .call false (.main false) (.lock 2), .call false (.main false) (.notifyOne 0),
      .frames false 4 0] (by decide)
  exact ⟨events, s, hrun, shared_work_single_place hrun, hplaces⟩

end SharedWork

end Lutask
