import Lutask.Machine.Step

/-!
# Schedules

A run fires one event at a time. A schedule describes it more coarsely, by the calls that the
users' code makes and by how many frames each thread executes in between, so that a concrete run
can be given by hand and computed.
-/

namespace Lutask

open LabelledRuns

variable {T : Type*} [DecidableEq T]

/-- An entry of a schedule: a call by the active context of a thread, or the next frames of it. -/
inductive Move (T : Type*) where
  | call (t : T) (ctx : Ctx T) (op : Op T)
  | frames (t : T) (count now : ℕ)

/-- The event by which thread `t` executes its topmost frame. -/
def nextEvent (s : State T) (t : T) (now : ℕ) : Option (Event T) :=
  match (s.thread t).active, (s.thread t).stack with
  | some ctx, frame :: _ => some (.exec t ctx frame now)
  | _, _ => none

/-- Fire an event that a test allows. -/
def fire (allowed : State T → Event T → Bool) (s : State T) (e : Event T) : Option (State T) :=
  if allowed s e then step s e else none

/-- Execute the next `count` frames of thread `t`. -/
def fireFrames (allowed : State T → Event T → Bool) (t : T) (now : ℕ) : ℕ → State T → Option (State T)
  | 0, s => some s
  | count + 1, s =>
    (nextEvent s t now).bind fun e => (fire allowed s e).bind (fireFrames allowed t now count)

/-- The state after a schedule in which every event is allowed. -/
def drive (allowed : State T → Event T → Bool) : List (Move T) → State T → Option (State T)
  | [], s => some s
  | .call t ctx op :: moves, s => (fire allowed s (.call t ctx op)).bind (drive allowed moves)
  | .frames t count now :: moves, s => (fireFrames allowed t now count s).bind (drive allowed moves)

/-- The events by which thread `t` executes its next `count` frames, before those of `rest`. -/
def unrollFrames (t : T) (now : ℕ) (rest : State T → List (Event T)) : ℕ → State T → List (Event T)
  | 0, s => rest s
  | count + 1, s =>
    (nextEvent s t now).elim [] fun e => e :: (step s e).elim [] (unrollFrames t now rest count)

/-- The events of a schedule, for a property that looks at them. -/
def unroll : List (Move T) → State T → List (Event T)
  | [], _ => []
  | .call t ctx op :: moves, s => .call t ctx op :: (step s (.call t ctx op)).elim [] (unroll moves)
  | .frames t count now :: moves, s => unrollFrames t now (unroll moves) count s

variable {allowed : State T → Event T → Bool} {guard : State T → Event T → Prop} {start s : State T}

/-- An allowed event is a run of length one. -/
theorem run_of_fire (hallowed : ∀ s e, allowed s e = true → guard s e) {e : Event T} {s' : State T}
    (h : fire allowed s e = some s') : Run step guard s [e] s' := by
  simp only [fire, Option.ite_none_right_eq_some] at h
  simpa using Run.snoc .nil (hallowed s e h.1) h.2

/-- Executing frames is a run. -/
theorem run_of_fireFrames (hallowed : ∀ s e, allowed s e = true → guard s e) {t : T} {now count : ℕ}
    {s s' : State T} (h : fireFrames allowed t now count s = some s') :
    ∃ events, Run step guard s events s' := by
  induction count generalizing s with
  | zero =>
    obtain rfl := Option.some.inj h
    exact ⟨[], .nil⟩
  | succ count ih =>
    simp only [fireFrames, Option.bind_eq_some_iff] at h
    obtain ⟨e, -, next, hfire, hrest⟩ := h
    obtain ⟨events, hrun⟩ := ih hrest
    exact ⟨_, (run_of_fire hallowed hfire).append hrun⟩

/-- A schedule that can be fired is a run. -/
theorem run_of_drive (hallowed : ∀ s e, allowed s e = true → guard s e) {moves : List (Move T)}
    {s s' : State T} (h : drive allowed moves s = some s') : ∃ events, Run step guard s events s' := by
  induction moves generalizing s with
  | nil =>
    obtain rfl := Option.some.inj h
    exact ⟨[], .nil⟩
  | cons move moves ih =>
    cases move with
    | call t ctx op =>
      obtain ⟨next, hfire, hrest⟩ := Option.bind_eq_some_iff.mp h
      obtain ⟨events, hrun⟩ := ih hrest
      exact ⟨_, (run_of_fire hallowed hfire).append hrun⟩
    | frames t count now =>
      obtain ⟨next, hfire, hrest⟩ := Option.bind_eq_some_iff.mp h
      obtain ⟨first, hfirst⟩ := run_of_fireFrames hallowed hfire
      obtain ⟨events, hrun⟩ := ih hrest
      exact ⟨_, hfirst.append hrun⟩

/-- A schedule that keeps to the guard and ends in a state with a computable property proves that a
run reaches such a state. -/
theorem reaches_of_drive {P : State T → Prop} [DecidablePred P] [∀ s e, Decidable (guard s e)]
    (moves : List (Move T))
    (h : (drive (fun s e => decide (guard s e)) moves start).any (fun s => decide (P s)) = true) :
    ∃ events s, Run step guard start events s ∧ P s := by
  obtain ⟨s', hs', hP⟩ := (Option.any_eq_true _ _).mp h
  obtain ⟨events, hrun⟩ := run_of_drive (fun _ _ => of_decide_eq_true) hs'
  exact ⟨events, s', hrun, of_decide_eq_true hP⟩

/-- Schedules compose. -/
theorem drive_append (first moves : List (Move T)) (s : State T) :
    drive allowed (first ++ moves) s = (drive allowed first s).bind (drive allowed moves) := by
  induction first generalizing s with
  | nil => rfl
  | cons move first ih => cases move <;> simp [drive, ih, Option.bind_assoc]

/-- The same for a run that is to be cut at one call of the schedule. -/
theorem reaches_of_call {P : State T → Prop} [DecidablePred P] [∀ s e, Decidable (guard s e)]
    (first : List (Move T)) (t : T) (x : Ctx T) (op : Op T) (moves : List (Move T))
    (h : (drive (fun s e => decide (guard s e)) (first ++ .call t x op :: moves) start).any
      (fun s => decide (P s)) = true) :
    ∃ before after s, Run step guard start (before ++ .call t x op :: after) s ∧ P s := by
  obtain ⟨s, hs, hP⟩ := (Option.any_eq_true _ _).mp h
  rw [drive_append] at hs
  obtain ⟨s₁, hfirst, hs⟩ := Option.bind_eq_some_iff.mp hs
  obtain ⟨s₂, hcall, hmoves⟩ := Option.bind_eq_some_iff.mp hs
  obtain ⟨before, hbefore⟩ := run_of_drive (fun _ _ => of_decide_eq_true) hfirst
  obtain ⟨after, hafter⟩ := run_of_drive (fun _ _ => of_decide_eq_true) hmoves
  have hmid := run_of_fire (fun _ _ => of_decide_eq_true) hcall
  exact ⟨before, after, s, hbefore.append (hmid.append hafter), of_decide_eq_true hP⟩

end Lutask
