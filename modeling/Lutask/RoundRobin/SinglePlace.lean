import Lutask.Machine.Enclosed
import Lutask.Machine.Schedule
import Lutask.RoundRobin.Local

/-!
# One place for every context of a round-robin thread

One thread under `RoundRobinPolicy`, until `Dispatch` leaves its loop. Fibers are started with
`Post` or `Dispatch`, and nobody sleeps; every other operation may be called at any time and in
any order. Between two operations every started context is running, queued once, waiting once in one
wait queue, terminated, or parked in `~Scheduler`, and all contexts but the running one have a saved
continuation.
-/

namespace Lutask

open LabelledRuns TokenPlacement

namespace RoundRobin

/-- The places of the contexts of one thread. -/
inductive Spot where
  | active
  | readyQueue
  | waitQueue (q : WaitQueue Unit)
  | terminated
  | parked

/-- Where a context of the one thread is. -/
def Occupies (s : State Unit) (x : Ctx Unit) : Spot → Prop
  | .active => (s.thread ()).active = some x
  | .readyQueue => x ∈ (s.sched ()).queue
  | .waitQueue q => x ∈ s.waits q
  | .terminated => (s.ctx x).terminated
  | .parked => x = .main () ∧ (s.sched ()).shutdown

/-- The events of one round-robin thread without sleepers. -/
def Served (e : Event Unit) : Prop :=
  e.keepsPlaces ∧ e.staysLocal

instance (e : Event Unit) : Decidable (Served e) :=
  inferInstanceAs (Decidable (_ ∧ _))

/-- The events of one round-robin thread without sleepers, until `Dispatch` leaves its loop. -/
def Allowed (s : State Unit) (e : Event Unit) : Prop :=
  Served e ∧ ¬ e.exits s

instance (s : State Unit) (e : Event Unit) : Decidable (Allowed s e) :=
  inferInstanceAs (Decidable (_ ∧ _))

/-- Every started context has one place, and every one but the active context can be resumed. -/
structure SinglePlace (s : State Unit) : Prop where
  place : ∀ x, s.started x → ∃! spot, Occupies s x spot
  queued : ∀ x, (s.sched ()).queue.count x ≤ 1
  waiting : ∀ x q, (s.waits q).count x ≤ 1
  running : ∀ x, (s.thread ()).active = some x → (s.ctx x).c = none
  resumable : ∀ x, s.started x → (s.thread ()).active ≠ some x → (s.ctx x).c ≠ none

/-- The place that a spot is counted in. -/
def Spot.place : Spot → Place Unit
  | .active => .active ()
  | .readyQueue => .slot (.queue ())
  | .waitQueue q => .slot (.wait q)
  | .terminated => .slot .terminated
  | .parked => .slot .parked

theorem Spot.place_injective : Function.Injective Spot.place := by
  intro a b h
  cases a <;> cases b <;> simp_all [Spot.place]

/-- Between operations a context occupies a spot if it is counted there. -/
theorem occupies_iff {s : State Unit} (hsteady : s.Steady) (x : Ctx Unit) (spot : Spot) :
    Occupies s x spot ↔ 0 < s.places x spot.place := by
  cases spot with
  | active =>
    rw [Spot.place, hsteady.active]
    by_cases hx : (s.thread ()).active = some x <;> simp [Occupies, hx]
  | readyQueue => exact State.slot_queue_pos.symm
  | waitQueue q => exact State.slot_wait_pos.symm
  | terminated => exact State.slot_terminated_pos.symm
  | parked =>
    cases x with
    | main u =>
      cases h : (s.sched ()).shutdown <;> simp [Occupies, Spot.place, State.slot, State.parked, h]
    | dispatcher u | worker n => simp [Occupies, Spot.place, State.slot, State.parked]

/-- In every state between two operations that a run of one round-robin thread reaches, every started
context is in exactly one place and can be resumed unless it is running. -/
theorem round_robin_single_place {events : List (Event Unit)} {s : State Unit}
    (h : Runs (fun _ => .roundRobin) Allowed events s) (hsteady : s.Steady) : SinglePlace s := by
  have hplaces : ∀ x, Single (s.places x) := h.single fun s e he => ⟨he.1.1, he.2⟩
  have hcont := h.continued
  refine ⟨fun x hx => ?_, fun x => ?_, fun x q => ?_, fun x hx => ?_, fun x hstart hx hc => ?_⟩
  · obtain ⟨p, hp⟩ := (hplaces x).exists_pos
    have hspot : ∃ spot : Spot, spot.place = p := by
      cases p with
      | active t => exact ⟨.active, rfl⟩
      | hand t => simp [hsteady.hand] at hp
      | slot a =>
        cases a with
        | queue u => exact ⟨.readyQueue, rfl⟩
        | ready => simp [State.slot, (h.staysLocal fun s e he => he.1.2).ready] at hp
        | wait q => exact ⟨.waitQueue q, rfl⟩
        | terminated => exact ⟨.terminated, rfl⟩
        | parked => exact ⟨.parked, rfl⟩
        | unborn => simp [State.slot, hx] at hp
    obtain ⟨spot, rfl⟩ := hspot
    refine ⟨spot, (occupies_iff hsteady x spot).mpr hp, fun spot' hspot' => ?_⟩
    exact Spot.place_injective
      ((hplaces x).exclusive.eq_of_pos ((occupies_iff hsteady x spot').mp hspot') hp)
  · exact (hplaces x).exclusive.le_one (.slot (.queue ()))
  · exact (hplaces x).exclusive.le_one (.slot (.wait q))
  · exact (hcont.busy () x (.inl hx)).2
  · rcases hcont.empty x hstart hc with ⟨t, hbusy⟩ | ⟨t, -, hdeleted⟩
    · exact hx ((hsteady.busy x t).mp hbusy)
    · simp [(h.enclosed fun s e he => ⟨he.1.1, he.2⟩).kept t] at hdeleted

/-- A run in which one worker waits on a condition variable, another one has terminated, and main is
running again. -/
theorem single_place_waiting_terminated :
    ∃ events s, Runs (fun _ => .roundRobin) Allowed events s ∧ SinglePlace s ∧
      (Occupies s (.main ()) .active ∧ Occupies s (.dispatcher ()) .readyQueue ∧
        Occupies s (.worker 0) .terminated ∧ Occupies s (.worker 1) (.waitQueue (.cv 0))) := by
  obtain ⟨events, s, hrun, hidle, hspots⟩ : ∃ events s, Runs (fun _ => .roundRobin) Allowed events s ∧
      ((s.thread ()).stack = [] ∧ (s.thread ()).active = some (.main ()) ∧
        .dispatcher () ∈ (s.sched ()).queue ∧ (s.ctx (.worker 0)).terminated ∧
        .worker 1 ∈ s.waits (.cv 0)) :=
    reaches_of_drive [.call () (.main ()) (.start .post), .frames () 2 0,
      .call () (.main ()) (.start .dispatch), .frames () 4 0, .call () (.worker 1) (.lock 0),
      .call () (.worker 1) (.wait 0 0), .frames () 15 0, .call () (.worker 0) .terminate,
      .frames () 6 0] (by decide)
  have hsteady : s.Steady := fun t f hf => by simp [hidle] at hf
  exact ⟨events, s, hrun, round_robin_single_place hrun hsteady, hspots⟩

end RoundRobin

end Lutask
