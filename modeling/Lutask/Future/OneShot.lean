import Lutask.Support.LabelledRuns
import Lutask.Future.SharedState

/-!
# A shared state is a one-shot cell

Any number of parties call `SetValue`, `SetException`, `TaskObject::Run` and `Get` of one shared
state, each as often as it likes. A critical section under `mtx_` is one step, the wait on
`waiters_` gives the lock back, and `notify_all` is a step of its own behind the critical section of
the setter. Whatever the order of the steps, the first setter that finds `ready_` false fixes the
outcome for good, and nobody waits when it is fixed and all setters have returned.
-/

namespace Lutask

namespace OneShot

open LabelledRuns

variable {P R E : Type*}

/-- The functions that a party may call. -/
inductive Call (R E : Type*) where
  | setValue (value : R)
  | setException (except : TaskException E)
  | run
  | get

/-- What a party has still to execute. `inRun` marks the setters that `Run` calls. -/
inductive Pc (R E : Type*) where
  | idle
  /-- `SetValue` at its lock. -/
  | setValue (value : R) (inRun : Bool)
  /-- `SetException` at its lock. -/
  | setException (except : TaskException E) (inRun : Bool)
  /-- `waiters_.notify_all()`. -/
  | notify
  /-- `Run` while `fn_` is applied. -/
  | run
  /-- `Get` at its lock, or at the lock that `waiters_.wait` retakes. -/
  | get
  /-- `Get` blocked on `waiters_`. -/
  | waiting
  /-- A setter or `Run` has returned, or thrown. -/
  | returned (result : Except (TaskException E) Unit)
  /-- `Get` has returned, or thrown. -/
  | got (result : Except (TaskException E) (Storage R))

/-- A step of party `p`. The critical sections of the setters record the value of `ready_` that they
found, and the one of `SetValue` the exception of the move construction. -/
inductive Event (P R E : Type*) where
  | call (p : P) (c : Call R E)
  | invoke (p : P) (result : Except E R)
  | setValue (p : P) (value : R) (construction : Option E) (found : Bool)
  | setException (p : P) (except : TaskException E) (found : Bool)
  | notifyAll (p : P)
  | get (p : P)
  | wake (p : P)

/-- The shared state and its users. -/
structure State (P R E : Type*) where
  cell : SharedState R E
  pc : P → Pc R E

/-- Nobody has called anything. -/
def State.initial : State P R E := ⟨.initial, fun _ => .idle⟩

/-- A party is not inside a function. -/
def Pc.isIdle : Pc R E → Bool
  | .idle | .returned _ | .got _ => true
  | _ => false

/-- A party is inside a setter or `Run`. -/
def Pc.isSetter : Pc R E → Bool
  | .setValue .. | .setException .. | .notify | .run => true
  | _ => false

/-- Where a function starts. -/
def Call.entry : Call R E → Pc R E
  | .setValue value => .setValue value false
  | .setException except => .setException except false
  | .run => .run
  | .get => .get

/-- `Run` after `fn_` has returned or thrown. -/
def Pc.afterInvoke : Except E R → Pc R E
  | .ok value => .setValue value true
  | .error e => .setException (.raised e) true

/-- An exception of `SetValue` leaves it, to the handler of `Run` if that called it. -/
def Pc.thrown (except : TaskException E) (inRun : Bool) : Pc R E :=
  if inRun then .setException except true else .returned (.error except)

/-- What `notify_all` does to the others. -/
def Pc.notified : Pc R E → Pc R E
  | .waiting => .get
  | pc => pc

/-- The party of an event. -/
def Event.party : Event P R E → P
  | .call p _ | .invoke p _ | .setValue p .. | .setException p .. | .notifyAll p | .get p
  | .wake p => p

/-- The outcome that a setter fixes in an event. -/
def Event.fixes : Event P R E → Option (Except (TaskException E) R)
  | .setValue _ value none false => some (.ok value)
  | .setException _ except false => some (.error except)
  | _ => none

/-- The value of `ready_` that the critical section of a setter has found. -/
def Event.found : Event P R E → Option Bool
  | .setValue _ _ _ found | .setException _ _ found => some found
  | _ => none

/-- The function that is called. -/
def Event.called : Event P R E → Option (Call R E)
  | .call _ c => some c
  | _ => none

/-- The outcome that the first successful setter has fixed. -/
def firstOutcome (events : List (Event P R E)) : Option (Except (TaskException E) R) :=
  events.findSome? Event.fixes

variable [DecidableEq P]

/-- Move one party. -/
def State.setPc (s : State P R E) (p : P) (pc : Pc R E) : State P R E :=
  { s with pc := Function.update s.pc p pc }

/-- `waiters_.notify_all()` by party `p`, with which its setter returns. -/
def State.notifyAll (s : State P R E) (p : P) : State P R E :=
  { s with pc := Function.update (fun q => (s.pc q).notified) p (.returned (.ok ())) }

/-- A critical section of a setter that either throws or goes on to the notification. -/
def State.set (s : State P R E) (p : P) (onThrow : TaskException E → Pc R E) :
    Except (TaskException E) (SharedState R E) → State P R E
  | .ok cell => ⟨cell, Function.update s.pc p .notify⟩
  | .error except => s.setPc p (onThrow except)

/-- The events of a party since its last call. -/
def trail (p : P) (events : List (Event P R E)) : List (Event P R E) :=
  ((events.filter (·.party = p)).reverse.takeWhile (·.called.isNone)).reverse

/-- The last call of a party. -/
def lastCall (p : P) (events : List (Event P R E)) : Option (Call R E) :=
  (events.filter (·.party = p)).reverse.findSome? Event.called

section Steps

variable [DecidableEq R] [DecidableEq E]

/-- One step. -/
def step (s : State P R E) : Event P R E → Option (State P R E)
  | .call p c => if (s.pc p).isIdle then some (s.setPc p c.entry) else none
  | .invoke p result =>
    match s.pc p with
    | .run => some (s.setPc p (.afterInvoke result))
    | _ => none
  | .setValue p value construction found =>
    match s.pc p with
    | .setValue value' inRun =>
      if value' = value ∧ s.cell.ready = found then
        some (s.set p (.thrown · inRun) (s.cell.setValue value construction))
      else none
    | _ => none
  | .setException p except found =>
    match s.pc p with
    | .setException except' _ =>
      if except' = except ∧ s.cell.ready = found then
        some (s.set p (fun thrown => .returned (.error thrown)) (s.cell.setException except))
      else none
    | _ => none
  | .notifyAll p =>
    match s.pc p with
    | .notify => some (s.notifyAll p)
    | _ => none
  | .get p =>
    match s.pc p with
    | .get =>
      match s.cell.get with
      | some result => some (s.setPc p (.got result))
      | none => some (s.setPc p .waiting)
    | _ => none
  | .wake p =>
    match s.pc p with
    | .waiting => some (s.setPc p .get)
    | _ => none

/-- The runs of one shared state. -/
abbrev Runs (events : List (Event P R E)) (s : State P R E) : Prop :=
  Run step (fun _ _ => True) State.initial events s

/-- The branches of `step`. -/
inductive Step (s : State P R E) : Event P R E → State P R E → Prop
  | call {p : P} {c : Call R E} (hidle : (s.pc p).isIdle) : Step s (.call p c) (s.setPc p c.entry)
  | invoke {p : P} {result : Except E R} (hpc : s.pc p = .run) :
      Step s (.invoke p result) (s.setPc p (.afterInvoke result))
  | value {p : P} {value : R} {inRun : Bool} (hpc : s.pc p = .setValue value inRun)
      (hready : s.cell.ready = false) :
      Step s (.setValue p value none false)
        ⟨{ s.cell with storage := .value value, ready := true }, Function.update s.pc p .notify⟩
  | valueFails {p : P} {value : R} {inRun : Bool} {e : E} (hpc : s.pc p = .setValue value inRun)
      (hready : s.cell.ready = false) :
      Step s (.setValue p value (some e) false) (s.setPc p (.thrown (.raised e) inRun))
  | valueLate {p : P} {value : R} {inRun : Bool} {construction : Option E}
      (hpc : s.pc p = .setValue value inRun) (hready : s.cell.ready = true) :
      Step s (.setValue p value construction true) (s.setPc p (.thrown .taskAlreadySatisfied inRun))
  | exception {p : P} {except : TaskException E} {inRun : Bool}
      (hpc : s.pc p = .setException except inRun) (hready : s.cell.ready = false) :
      Step s (.setException p except false)
        ⟨{ s.cell with except := some except, ready := true }, Function.update s.pc p .notify⟩
  | exceptionLate {p : P} {except : TaskException E} {inRun : Bool}
      (hpc : s.pc p = .setException except inRun) (hready : s.cell.ready = true) :
      Step s (.setException p except true) (s.setPc p (.returned (.error .taskAlreadySatisfied)))
  | notifyAll {p : P} (hpc : s.pc p = .notify) : Step s (.notifyAll p) (s.notifyAll p)
  | get {p : P} {result : Except (TaskException E) (Storage R)} (hpc : s.pc p = .get)
      (hget : s.cell.get = some result) : Step s (.get p) (s.setPc p (.got result))
  | wait {p : P} (hpc : s.pc p = .get) (hready : s.cell.ready = false) :
      Step s (.get p) (s.setPc p .waiting)
  | wake {p : P} (hpc : s.pc p = .waiting) : Step s (.wake p) (s.setPc p .get)

/-- Every step takes one of its branches. -/
theorem step_inv {s s' : State P R E} {e : Event P R E} (h : step s e = some s') : Step s e s' := by
  cases e with
  | call p c =>
    simp only [step, Option.ite_none_right_eq_some, Option.some.injEq] at h
    obtain ⟨hidle, rfl⟩ := h
    exact .call hidle
  | invoke p result =>
    simp only [step] at h
    split at h
    · rename_i hpc
      obtain rfl := Option.some.inj h
      exact .invoke hpc
    · simp at h
  | setValue p value construction found =>
    simp only [step] at h
    split at h
    · rename_i value' inRun hpc
      simp only [Option.ite_none_right_eq_some, Option.some.injEq] at h
      obtain ⟨⟨rfl, rfl⟩, rfl⟩ := h
      cases hready : s.cell.ready with
      | true => simpa [SharedState.setValue, hready, State.set] using Step.valueLate hpc hready
      | false =>
        cases construction with
        | none =>
          simpa [SharedState.setValue, hready, State.set, SharedState.markReady] using
            Step.value hpc hready
        | some e => simpa [SharedState.setValue, hready, State.set] using Step.valueFails hpc hready
    · simp at h
  | setException p except found =>
    simp only [step] at h
    split at h
    · rename_i except' inRun hpc
      simp only [Option.ite_none_right_eq_some, Option.some.injEq] at h
      obtain ⟨⟨rfl, rfl⟩, rfl⟩ := h
      cases hready : s.cell.ready with
      | true =>
        simpa [SharedState.setException, hready, State.set] using Step.exceptionLate hpc hready
      | false =>
        simpa [SharedState.setException, hready, State.set, SharedState.markReady] using
          Step.exception hpc hready
    · simp at h
  | notifyAll p =>
    simp only [step] at h
    split at h
    · rename_i hpc
      obtain rfl := Option.some.inj h
      exact .notifyAll hpc
    · simp at h
  | get p =>
    simp only [step] at h
    split at h
    · rename_i hpc
      split at h
      · rename_i result hget
        obtain rfl := Option.some.inj h
        exact .get hpc hget
      · rename_i hget
        obtain rfl := Option.some.inj h
        refine .wait hpc ?_
        by_contra hready
        simp [SharedState.get, hready] at hget
    · simp at h
  | wake p =>
    simp only [step] at h
    split at h
    · rename_i hpc
      obtain rfl := Option.some.inj h
      exact .wake hpc
    · simp at h

end Steps

section Histories

variable {events : List (Event P R E)} {e : Event P R E} {p : P}

omit [DecidableEq P] in
/-- Only the first successful setter counts. -/
theorem firstOutcome_snoc (events : List (Event P R E)) (e : Event P R E) :
    firstOutcome (events ++ [e]) = (firstOutcome events).or e.fixes := by
  simp [firstOutcome, List.findSome?_append]

/-- The steps of others leave the trail of a party alone. -/
theorem trail_snoc_of_ne (h : e.party ≠ p) : trail p (events ++ [e]) = trail p events := by
  simp [trail, List.filter_append, h]

theorem lastCall_snoc_of_ne (h : e.party ≠ p) : lastCall p (events ++ [e]) = lastCall p events := by
  simp [lastCall, List.filter_append, h]

/-- A step of one's own that is no call is added to the trail. -/
theorem trail_snoc (h : e.party = p) (hcall : e.called = none) :
    trail p (events ++ [e]) = trail p events ++ [e] := by
  simp [trail, List.filter_append, h, hcall]

theorem lastCall_snoc (h : e.party = p) (hcall : e.called = none) :
    lastCall p (events ++ [e]) = lastCall p events := by
  simp [lastCall, List.filter_append, h, hcall]

/-- A call starts a new trail. -/
theorem trail_call (c : Call R E) : trail p (events ++ [.call p c]) = [] := by
  simp [trail, List.filter_append, Event.party, Event.called]

theorem lastCall_call (c : Call R E) : lastCall p (events ++ [.call p c]) = some c := by
  simp only [lastCall, List.filter_append, Event.party, decide_true, List.filter_cons_of_pos,
    List.filter_nil, List.reverse_append, List.reverse_singleton, List.singleton_append,
    List.findSome?_cons, Event.called]

/-- The trail of a party is part of the run. -/
theorem mem_of_mem_trail (h : e ∈ trail p events) : e ∈ events := by
  have hown : e ∈ (events.filter (·.party = p)).reverse :=
    (List.takeWhile_sublist _).mem (List.mem_reverse.mp h)
  exact List.mem_of_mem_filter (List.mem_reverse.mp hown)

end Histories

/-- The executions of `Run` by a party: what it has done since the call, and where it is. -/
inductive RunTrail (p : P) : List (Event P R E) → Pc R E → Prop
  | started : RunTrail p [] .run
  | evaluated (v : R) : RunTrail p [.invoke p (.ok v)] (.setValue v true)
  | raised (e : E) : RunTrail p [.invoke p (.error e)] (.setException (.raised e) true)
  | failed (v : R) (e : E) :
      RunTrail p [.invoke p (.ok v), .setValue p v (some e) false] (.setException (.raised e) true)
  | satisfied (v : R) (construction : Option E) :
      RunTrail p [.invoke p (.ok v), .setValue p v construction true]
        (.setException .taskAlreadySatisfied true)
  | set (v : R) : RunTrail p [.invoke p (.ok v), .setValue p v none false] .notify
  | caught {l : List (Event P R E)} {x : TaskException E} (h : RunTrail p l (.setException x true))
      (hx : x ≠ .taskAlreadySatisfied) : RunTrail p (l ++ [.setException p x false]) .notify
  | rejected {l : List (Event P R E)} {x : TaskException E} (h : RunTrail p l (.setException x true)) :
      RunTrail p (l ++ [.setException p x true]) (.returned (.error .taskAlreadySatisfied))
  | notified {l : List (Event P R E)} (h : RunTrail p l .notify) :
      RunTrail p (l ++ [.notifyAll p]) (.returned (.ok ()))

omit [DecidableEq P] in
/-- A setter in an execution of `Run` was called by it. -/
theorem RunTrail.inRun {p : P} {l : List (Event P R E)} {x : TaskException E} {inRun : Bool}
    (h : RunTrail p l (.setException x inRun)) : inRun = true := by
  cases h <;> rfl

omit [DecidableEq P] in
/-- `Run` does not wait. -/
theorem RunTrail.not_get {p : P} {l : List (Event P R E)} {pc : Pc R E} (h : RunTrail p l pc) :
    pc ≠ .get ∧ pc ≠ .waiting := by
  cases h <;> simp

/-- The invariant of a run. -/
structure Consistent (events : List (Event P R E)) (s : State P R E) : Prop where
  cell : s.cell = .fixed (firstOutcome events)
  once : ∀ e ∈ events, ∀ outcome, e.fixes = some outcome → firstOutcome events = some outcome
  satisfied : ∀ p, s.pc p = .setException .taskAlreadySatisfied true → s.cell.ready
  trails : ∀ p, lastCall p events = some .run → RunTrail p (trail p events) (s.pc p)
  waiting : ∀ p, s.pc p = .waiting → s.cell.ready = false ∨ ∃ q, s.pc q = .notify
  got : ∀ p result, s.pc p = .got result →
    ∃ outcome, firstOutcome events = some outcome ∧ result = outcome.map .value

theorem Consistent.initial : Consistent [] (State.initial : State P R E) where
  cell := rfl
  once e he := by simp at he
  satisfied p h := by simp [State.initial] at h
  trails p h := by simp [lastCall] at h
  waiting p h := by simp [State.initial] at h
  got p result h := by simp [State.initial] at h

section Invariant

variable {events : List (Event P R E)} {s s' : State P R E} {e : Event P R E} {p : P}

/-- A setter that finds `ready_` false finds nothing fixed. -/
theorem Consistent.open_of_ready (h : Consistent events s) (hready : s.cell.ready = false) :
    firstOutcome events = none := by
  rw [h.cell, SharedState.fixed_ready] at hready
  simpa using hready

/-- A setter that finds `ready_` true finds the outcome fixed. -/
theorem Consistent.fixed_of_ready (h : Consistent events s) (hready : s.cell.ready) :
    ∃ outcome, firstOutcome events = some outcome := by
  rw [h.cell, SharedState.fixed_ready] at hready
  exact Option.isSome_iff_exists.mp hready

/-- `ready_` is set for good, by a step that fixes an outcome. -/
theorem Step.ready (h : Step s e s') (hready : s.cell.ready) : s'.cell.ready := by
  cases h <;> simp_all [State.setPc, State.notifyAll]

/-- A step moves no other party, except that a notification wakes those who wait. -/
theorem Step.pc_of_ne (h : Step s e s') {q : P} (hq : q ≠ e.party) :
    s'.pc q = s.pc q ∨ s.pc q = .waiting ∧ s'.pc q = .get := by
  have hne : ∀ p, e.party = p → q ≠ p := fun p hp => hp ▸ hq
  cases h with
  | @notifyAll p hpc =>
    have hqp := hne p rfl
    cases hpcq : s.pc q with
    | waiting => exact .inr ⟨rfl, by simp [State.notifyAll, hqp, hpcq, Pc.notified]⟩
    | _ => exact .inl (by simp [State.notifyAll, hqp, hpcq, Pc.notified])
  | _ => exact .inl (Function.update_of_ne (hne _ rfl) _ _)

/-- Only a setter that finds `ready_` false fixes an outcome. -/
theorem Step.fixes_open (h : Step s e s') {outcome : Except (TaskException E) R}
    (hfixes : e.fixes = some outcome) : s.cell.ready = false := by
  cases h with
  | value hpc hready | exception hpc hready => exact hready
  | _ => simp [Event.fixes] at hfixes

omit [DecidableEq P] in
/-- A fixed outcome stays the first one. -/
theorem firstOutcome_mono {outcome : Except (TaskException E) R}
    (h : firstOutcome events = some outcome) (e : Event P R E) :
    firstOutcome (events ++ [e]) = some outcome := by
  rw [firstOutcome_snoc, h]
  rfl

theorem Consistent.cell_step (h : Consistent events s) (hstep : Step s e s') :
    s'.cell = .fixed (firstOutcome (events ++ [e])) := by
  cases hfixes : e.fixes with
  | none =>
    rw [firstOutcome_snoc, hfixes, Option.or_none, ← h.cell]
    cases hstep <;> simp_all [State.setPc, State.notifyAll, Event.fixes]
  | some outcome =>
    have hopen := h.open_of_ready (hstep.fixes_open hfixes)
    have hcell : s.cell = .initial := by
      rw [h.cell, hopen]
      rfl
    rw [firstOutcome_snoc, hopen, hfixes]
    cases hstep <;> simp_all [Event.fixes, SharedState.fixed, SharedState.initial] <;> subst hfixes <;> rfl

theorem Consistent.once_step (h : Consistent events s) (hstep : Step s e s') :
    ∀ e' ∈ events ++ [e], ∀ outcome, e'.fixes = some outcome →
      firstOutcome (events ++ [e]) = some outcome := by
  intro e' he' outcome hfixes
  cases List.mem_append.mp he' with
  | inl hold => exact firstOutcome_mono (h.once e' hold outcome hfixes) e
  | inr hnew =>
    obtain rfl := List.mem_singleton.mp hnew
    rw [firstOutcome_snoc, h.open_of_ready (hstep.fixes_open hfixes), hfixes]
    rfl

/-- The handler of `Run` sees `TaskAlreadySatisfied` only after the outcome was fixed. -/
theorem Consistent.satisfied_step (h : Consistent events s) (hstep : Step s e s')
    (hp : s'.pc p = .setException .taskAlreadySatisfied true) : s'.cell.ready := by
  by_cases hparty : p = e.party
  · subst hparty
    cases hstep with
    | @call p c hidle => cases c <;> simp [State.setPc, Event.party, Call.entry] at hp
    | @invoke p result hpc => cases result <;> simp [State.setPc, Event.party, Pc.afterInvoke] at hp
    | @valueFails p value inRun e hpc hready =>
      cases inRun <;> simp [State.setPc, Event.party, Pc.thrown] at hp
    | valueLate hpc hready => exact hready
    | _ => simp [State.setPc, State.notifyAll, Event.party] at hp
  · cases hstep.pc_of_ne hparty with
    | inl hsame => exact hstep.ready (h.satisfied p (hsame ▸ hp))
    | inr hwoken => simp [hwoken.2] at hp

/-- A step of a party extends its execution of `Run`. -/
theorem Consistent.trails_step (h : Consistent events s) (hstep : Step s e s')
    (hrun : lastCall p (events ++ [e]) = some .run) :
    RunTrail p (trail p (events ++ [e])) (s'.pc p) := by
  by_cases hparty : e.party = p
  · cases hcall : e.called with
    | some c =>
      cases hstep with
      | @call q c' hidle =>
        obtain rfl : q = p := hparty
        obtain rfl : c' = .run := Option.some.inj ((lastCall_call c').symm.trans hrun)
        rw [trail_call]
        simpa [State.setPc, Call.entry] using RunTrail.started
      | _ => simp [Event.called] at hcall
    | none =>
      rw [lastCall_snoc hparty hcall] at hrun
      rw [trail_snoc hparty hcall]
      have hold := h.trails p hrun
      cases hstep with
      | call hidle => simp [Event.called] at hcall
      | @invoke q result hpc =>
        obtain rfl : q = p := hparty
        rw [hpc] at hold
        generalize trail q events = l at hold
        cases hold
        cases result with
        | ok v => simpa [State.setPc, Pc.afterInvoke] using RunTrail.evaluated v
        | error e => simpa [State.setPc, Pc.afterInvoke] using RunTrail.raised e
      | @value q v inRun hpc hready =>
        obtain rfl : q = p := hparty
        rw [hpc] at hold
        generalize trail q events = l at hold
        cases hold
        simpa using RunTrail.set v
      | @valueFails q v inRun e hpc hready =>
        obtain rfl : q = p := hparty
        rw [hpc] at hold
        generalize trail q events = l at hold
        cases hold
        simpa [State.setPc, Pc.thrown] using RunTrail.failed v e
      | @valueLate q v inRun construction hpc hready =>
        obtain rfl : q = p := hparty
        rw [hpc] at hold
        generalize trail q events = l at hold
        cases hold
        simpa [State.setPc, Pc.thrown] using RunTrail.satisfied v construction
      | @exception q x inRun hpc hready =>
        obtain rfl : q = p := hparty
        rw [hpc] at hold
        obtain rfl := hold.inRun
        have hx : x ≠ .taskAlreadySatisfied := by
          rintro rfl
          simp [h.satisfied q hpc] at hready
        simpa using RunTrail.caught hold hx
      | @exceptionLate q x inRun hpc hready =>
        obtain rfl : q = p := hparty
        rw [hpc] at hold
        obtain rfl := hold.inRun
        simpa [State.setPc] using RunTrail.rejected hold
      | @notifyAll q hpc =>
        obtain rfl : q = p := hparty
        rw [hpc] at hold
        simpa [State.notifyAll] using RunTrail.notified hold
      | @get q result hpc hget | @wait q hpc hready | @wake q hpc =>
        obtain rfl : q = p := hparty
        simpa [hpc] using hold.not_get
  · rw [lastCall_snoc_of_ne hparty] at hrun
    rw [trail_snoc_of_ne hparty]
    have hold := h.trails p hrun
    cases hstep.pc_of_ne (Ne.symm hparty) with
    | inl hsame => rwa [hsame]
    | inr hwoken => exact absurd hwoken.1 hold.not_get.2

/-- A party waits only after its own `Get` has found `ready_` false. -/
theorem Step.waiting_cases (h : Step s e s') (hp : s'.pc p = .waiting) :
    p ≠ e.party ∧ s.pc p = .waiting ∨ e = .get p ∧ s.cell.ready = false ∧ s'.cell.ready = false := by
  by_cases hparty : p = e.party
  · subst hparty
    cases h with
    | wait hpc hready => exact .inr ⟨rfl, hready, hready⟩
    | @call p c hidle => cases c <;> simp [State.setPc, Event.party, Call.entry] at hp
    | @invoke p result hpc => cases result <;> simp [State.setPc, Event.party, Pc.afterInvoke] at hp
    | @valueFails p value inRun e hpc hready | @valueLate p value inRun construction hpc hready =>
      cases inRun <;> simp [State.setPc, Event.party, Pc.thrown] at hp
    | _ => simp [State.setPc, State.notifyAll, Event.party] at hp
  · refine .inl ⟨hparty, ?_⟩
    cases h.pc_of_ne hparty with
    | inl hsame => exact hsame ▸ hp
    | inr hwoken => simp [hwoken.2] at hp

/-- A waiting party was not notified yet, and a setter that has not notified yet is on its way to. -/
theorem Consistent.waiting_step (h : Consistent events s) (hstep : Step s e s')
    (hp : s'.pc p = .waiting) : s'.cell.ready = false ∨ ∃ q, s'.pc q = .notify := by
  rcases hstep.waiting_cases hp with ⟨hparty, hold⟩ | ⟨-, -, hready⟩
  · cases h.waiting p hold with
    | inl hready =>
      cases hstep with
      | @value q | @exception q => exact .inr ⟨q, by simp⟩
      | _ => exact .inl hready
    | inr hnotify =>
      obtain ⟨q, hq⟩ := hnotify
      by_cases hqe : q = e.party
      · subst hqe
        cases hstep with
        | @notifyAll r hpc =>
          have hpr : p ≠ r := hparty
          simp [State.notifyAll, hpr, hold, Pc.notified] at hp
        | call hidle => simp [Event.party] at hq; simp [hq, Pc.isIdle] at hidle
        | _ => simp_all [Event.party]
      · refine .inr ⟨q, ?_⟩
        cases hstep.pc_of_ne hqe with
        | inl hsame => exact hsame.trans hq
        | inr hwoken => simp [hwoken.1] at hq
  · exact .inl hready

theorem Consistent.got_step (h : Consistent events s) (hstep : Step s e s')
    {result : Except (TaskException E) (Storage R)} (hp : s'.pc p = .got result) :
    ∃ outcome, firstOutcome (events ++ [e]) = some outcome ∧ result = outcome.map .value := by
  by_cases hparty : p = e.party
  · subst hparty
    cases hstep with
    | @get p result' hpc hget =>
      obtain rfl : result' = result := by simpa [State.setPc, Event.party] using hp
      cases hfirst : firstOutcome events with
      | none =>
        rw [h.cell, hfirst] at hget
        simp [SharedState.get] at hget
      | some outcome =>
        rw [h.cell, hfirst, SharedState.get_fixed] at hget
        exact ⟨outcome, firstOutcome_mono hfirst _, (Option.some.inj hget).symm⟩
    | @call p c hidle => cases c <;> simp [State.setPc, Event.party, Call.entry] at hp
    | @invoke p result hpc => cases result <;> simp [State.setPc, Event.party, Pc.afterInvoke] at hp
    | @valueFails p value inRun e hpc hready | @valueLate p value inRun construction hpc hready =>
      cases inRun <;> simp [State.setPc, Event.party, Pc.thrown] at hp
    | _ => simp [State.setPc, State.notifyAll, Event.party] at hp
  · have hold : s.pc p = .got result := by
      cases hstep.pc_of_ne hparty with
      | inl hsame => exact hsame ▸ hp
      | inr hwoken => simp [hwoken.2] at hp
    obtain ⟨outcome, hfirst, hresult⟩ := h.got p result hold
    exact ⟨outcome, firstOutcome_mono hfirst e, hresult⟩

theorem Consistent.step (h : Consistent events s) (hstep : Step s e s') :
    Consistent (events ++ [e]) s' where
  cell := h.cell_step hstep
  once := h.once_step hstep
  satisfied _ := h.satisfied_step hstep
  trails _ := h.trails_step hstep
  waiting _ := h.waiting_step hstep
  got _ _ := h.got_step hstep

end Invariant

/-- What an execution of `Run` may make the outcome: the function's value, or the exception that the
function or the move construction of its value has thrown. -/
inductive RunOutcome (p : P) (l : List (Event P R E)) : Except (TaskException E) R → Prop
  | value {v : R} (h : .invoke p (.ok v) ∈ l) : RunOutcome p l (.ok v)
  | raised {e : E} (h : .invoke p (.error e) ∈ l) : RunOutcome p l (.error (.raised e))
  | failed {v : R} {e : E} (h : .invoke p (.ok v) ∈ l)
      (hmove : .setValue p v (some e) false ∈ l) : RunOutcome p l (.error (.raised e))

/-- What is true of a completed `Run` with the steps `l` and this result in a run of these events. It
depends on what the last setter that it has executed found. -/
def RunLaw (events : List (Event P R E)) (p : P) (l : List (Event P R E))
    (result : Except (TaskException E) Unit) : Prop :=
  ∃ e found, (l.filter (·.found.isSome)).getLast? = some e ∧ e.found = some found ∧
    (found = false → result = .ok () ∧
      ∃ outcome, firstOutcome events = some outcome ∧ e.fixes = some outcome ∧ RunOutcome p l outcome) ∧
    (found = true → result = .error .taskAlreadySatisfied)

/-- What is true of one shared state `s.cell` after the events of a run. -/
structure IsOneShot [DecidableEq R] [DecidableEq E] (events : List (Event P R E)) (s : State P R E) :
    Prop where
  /-- The object holds what the first successful setter has stored, and is untouched before. -/
  cell : s.cell = .fixed (firstOutcome events)
  /-- No setter fixes another outcome. -/
  once : ∀ e ∈ events, ∀ outcome, e.fixes = some outcome → firstOutcome events = some outcome
  /-- A later `SetValue` throws `TaskAlreadySatisfied` and changes nothing. -/
  setValue : ∀ p v construction found s', firstOutcome events ≠ none →
    step s (.setValue p v construction found) = some s' → s'.cell = s.cell ∧
      ∃ inRun, s.pc p = .setValue v inRun ∧ s'.pc p = .thrown .taskAlreadySatisfied inRun
  /-- A later `SetException` throws `TaskAlreadySatisfied` and changes nothing. -/
  setException : ∀ p except found s', firstOutcome events ≠ none →
    step s (.setException p except found) = some s' →
      s'.cell = s.cell ∧ s'.pc p = .returned (.error .taskAlreadySatisfied)
  /-- A `SetValue` whose move construction throws leaves `ready_` false. -/
  failing : ∀ p v e found s', firstOutcome events = none →
    step s (.setValue p v (some e) found) = some s' → s'.cell = s.cell ∧ s'.cell.ready = false ∧
      ∃ inRun, s.pc p = .setValue v inRun ∧ s'.pc p = .thrown (.raised e) inRun
  /-- A `Run` that has returned or thrown obeys its law. -/
  run : ∀ p result, lastCall p events = some .run → s.pc p = .returned result →
    RunLaw events p (trail p events) result
  /-- Every `Get` yields the fixed outcome. -/
  gets : ∀ p result, s.pc p = .got result →
    ∃ outcome, firstOutcome events = some outcome ∧ result = outcome.map .value
  /-- When the outcome is fixed and no setter is under way, nobody waits, and everybody who is inside
  `Get` can return. -/
  awake : s.cell.ready → (∀ p, (s.pc p).isSetter = false) → ∀ p, s.pc p ≠ .waiting ∧
    (s.pc p = .get → ∃ s' outcome, step s (.get p) = some s' ∧ firstOutcome events = some outcome ∧
      s'.pc p = .got (outcome.map .value))

section Laws

variable [DecidableEq R] [DecidableEq E] {events : List (Event P R E)} {s : State P R E}

theorem Runs.consistent (h : Runs events s) : Consistent events s :=
  Run.invariant_labels (I := Consistent) h Consistent.initial
    fun _ _ _ _ hs _ hstep => hs.step (step_inv hstep)

omit [DecidableEq P] [DecidableEq R] [DecidableEq E] in
/-- The exception that the handler of `Run` stores is one of the function or of the construction. -/
theorem RunTrail.handled {p : P} {l : List (Event P R E)} {x : TaskException E}
    (h : RunTrail p l (.setException x true)) (hx : x ≠ .taskAlreadySatisfied) :
    RunOutcome p l (.error x) := by
  cases h with
  | raised e => exact .raised (by simp)
  | failed v e => exact .failed (v := v) (by simp) (by simp)
  | satisfied v construction => exact absurd rfl hx

omit [DecidableEq P] [DecidableEq R] [DecidableEq E] in
/-- A longer list of steps has no fewer outcomes. -/
theorem RunOutcome.mono {p : P} {l l' : List (Event P R E)} {outcome : Except (TaskException E) R}
    (h : RunOutcome p l outcome) (hl : ∀ e ∈ l, e ∈ l') : RunOutcome p l' outcome := by
  cases h with
  | value h => exact .value (hl _ h)
  | raised h => exact .raised (hl _ h)
  | failed h hmove => exact .failed (hl _ h) (hl _ hmove)

omit [DecidableEq R] [DecidableEq E] in
/-- A completed `Run` has executed a setter last. -/
theorem Consistent.runLaw (h : Consistent events s) {p : P} {result : Except (TaskException E) Unit}
    (hrun : lastCall p events = some .run) (hpc : s.pc p = .returned result) :
    RunLaw events p (trail p events) result := by
  have htrail := h.trails p hrun
  have hmem : ∀ e ∈ trail p events, e ∈ events := fun e => mem_of_mem_trail
  rw [hpc] at htrail
  generalize trail p events = l at htrail hmem
  cases htrail with
  | @rejected l x hset => exact ⟨.setException p x true, true, by simp [Event.found], rfl, by simp, by simp⟩
  | @notified l hnotify =>
    cases hnotify with
    | set v =>
      refine ⟨.setValue p v none false, false, by simp [Event.found], rfl,
        fun _ => ⟨rfl, .ok v, ?_, rfl, ?_⟩, by simp⟩
      · exact h.once _ (hmem (.setValue p v none false) (by simp)) _ rfl
      · exact .value (by simp)
    | @caught l x hset hx =>
      refine ⟨.setException p x false, false, by simp [Event.found], rfl,
        fun _ => ⟨rfl, .error x, ?_, rfl, ?_⟩, by simp⟩
      · exact h.once _ (hmem (.setException p x false) (by simp)) _ rfl
      · exact (hset.handled hx).mono fun e he => by simp [he]

/-- Whatever the parties do and in whatever order, a shared state is a one-shot cell. -/
theorem shared_state_one_shot (h : Runs events s) : IsOneShot events s := by
  have hc := h.consistent
  refine ⟨hc.cell, hc.once, fun p v construction found s' hfixed hstep => ?_,
    fun p except found s' hfixed hstep => ?_, fun p v e found s' hopen hstep => ?_,
    fun p result => hc.runLaw, hc.got, fun hready hnone p => ⟨fun hwaiting => ?_, fun hget => ?_⟩⟩
  · cases step_inv hstep with
    | value hpc hready => exact absurd (hc.open_of_ready hready) hfixed
    | valueFails hpc hready => exact absurd (hc.open_of_ready hready) hfixed
    | @valueLate p v inRun construction hpc hready => exact ⟨rfl, inRun, hpc, by simp [State.setPc]⟩
  · cases step_inv hstep with
    | exception hpc hready => exact absurd (hc.open_of_ready hready) hfixed
    | exceptionLate hpc hready => exact ⟨rfl, by simp [State.setPc]⟩
  · cases step_inv hstep with
    | @valueFails p v inRun e hpc hready =>
      exact ⟨rfl, hready, inRun, hpc, by simp [State.setPc]⟩
    | valueLate hpc hready =>
      obtain ⟨outcome, hfirst⟩ := hc.fixed_of_ready hready
      simp [hfirst] at hopen
  · cases hc.waiting p hwaiting with
    | inl hclosed => simp [hready] at hclosed
    | inr hnotify =>
      obtain ⟨q, hq⟩ := hnotify
      simpa [hq, Pc.isSetter] using hnone q
  · obtain ⟨outcome, hfirst⟩ := hc.fixed_of_ready hready
    have hcell : s.cell.get = some (outcome.map .value) := by
      rw [hc.cell, hfirst, SharedState.get_fixed]
    exact ⟨s.setPc p (.got (outcome.map .value)), outcome, by simp [step, hget, hcell], hfirst,
      by simp [State.setPc]⟩

end Laws

/-- The move construction of the value of a `Run` fails, a `SetValue` comes first then, and the handler of
`Run` finds the outcome fixed. A `Get` that was waiting yields the value. -/
def lateRun : List (Event (Fin 3) ℕ ℕ) :=
  [.call 0 .run, .call 1 .get, .get 1, .call 2 (.setValue 3), .invoke 0 (.ok 5),
    .setValue 0 5 (some 7) false, .setValue 2 3 none false, .setException 0 (.raised 7) true,
    .notifyAll 2, .get 1]

theorem lateRun_one_shot : ∃ s, Runs lateRun s ∧ IsOneShot lateRun s ∧
    s.pc 0 = .returned (.error .taskAlreadySatisfied) ∧ s.pc 1 = .got (.ok (.value 3)) ∧
    s.pc 2 = .returned (.ok ()) := by
  obtain ⟨s, hplay, hpcs⟩ : ∃ s, play step (fun _ _ => true) State.initial lateRun = some s ∧
      s.pc 0 = .returned (.error .taskAlreadySatisfied) ∧ s.pc 1 = .got (.ok (.value 3)) ∧
      s.pc 2 = .returned (.ok ()) := ⟨_, rfl, rfl, rfl, rfl⟩
  have hrun : Runs lateRun s := Run.of_play (fun _ _ _ => trivial) hplay
  exact ⟨s, hrun, shared_state_one_shot hrun, hpcs⟩

end OneShot

end Lutask
