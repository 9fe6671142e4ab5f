import Lutask.Async.Custody
import Lutask.Machine.Continuation

/-!
# All threads wait for tasks that nobody runs

`SharedState::Wait` blocks the thread and not only the fiber that calls `Get`, whereas `Async` only
queues the fiber of its task for any thread that switches next. When all threads are in `Get`,
nobody is left to take the tasks out of `readyQueue_`. This is avoided if `Get` is called only while
some other thread is outside of `Get`, or for a task whose fiber a thread has already taken.
-/

namespace Lutask

namespace Async

open LabelledRuns

variable {T F A R E : Type*}

/-- Thread `t` is blocked in `SharedState::Wait` for task `id`. -/
def State.Blocked (s : State T F A R E) (t : T) (id : ℕ) : Prop :=
  ∃ x, s.AtHand t x ∧ s.getting x = some id ∧ (s.shared id).pc (.caller x) = .waiting

/-- The fiber of task `id` is in the static `readyQueue_`. -/
def State.Queued (s : State T F A R E) (id : ℕ) : Prop :=
  ∃ w, s.Holds w id ∧ .worker w ∈ s.machine.readyQueue

/-- All threads are blocked for tasks whose fibers are in `readyQueue_`. -/
def State.Stuck (s : State T F A R E) : Prop :=
  ∀ t, ∃ id, s.Blocked t id ∧ s.Queued id

/-- The active context of thread `t` is in `Get`. -/
def State.InGet (s : State T F A R E) (t : T) : Prop :=
  ∃ x id, s.AtHand t x ∧ s.getting x = some id

/-- `Get` is called while another thread is outside of `Get`, or for a task whose fiber has left
`readyQueue_`. -/
def GetCovered (s : State T F A R E) : Event T F A R E → Prop
  | .get t _ id none => (∃ u, u ≠ t ∧ ¬ s.InGet u) ∨ ¬ s.Queued id
  | _ => True

/-- A call of `Get`. -/
def Event.isGet : Event T F A R E → Bool
  | .get .. => true
  | _ => false

theorem GetCovered.of_isGet {s : State T F A R E} {e : Event T F A R E} (h : e.isGet = false) :
    GetCovered s e := by
  cases e with
  | get => simp [Event.isGet] at h
  | _ => trivial

/-- Thread `t` is in a `Get` for a task whose fiber is in `readyQueue_`. -/
def State.AwaitsQueued (s : State T F A R E) (t : T) : Prop :=
  ∃ x id, (s.AtHand t x ∧ s.getting x = some id) ∧ s.Queued id

/-- An event of the machine of contexts and schedulers. -/
def Event.ofMachine : Event T F A R E → Bool
  | .machine _ | .async .. => true
  | _ => false

/-- A context in `Get` keeps its thread. -/
def State.Seated (s : State T F A R E) : Prop :=
  ∀ x id, s.getting x = some id → ∃ t, s.AtHand t x

variable [DecidableEq T] {s s' : State T F A R E} {t u : T} {x y : Ctx T} {id : ℕ}

omit [DecidableEq T] in
/-- The code of a context that may make a call is not in `Get`. -/
theorem State.getting_of_allows {op : Op T} (h : s.allows (.call t x op)) : s.getting x = none := by
  have hnone : (s.getting x).isNone := by
    cases op <;> simp_all [State.allows, State.mayCall, State.mayReturn]
  simpa using hnone

omit [DecidableEq T] in
theorem State.getting_of_mayCall (h : s.mayCall x) : s.getting x = none := by
  have hnone : (s.getting x).isNone := by simp_all [State.mayCall]
  simpa using hnone

omit [DecidableEq T] in
/-- A context executes its code on one thread only. -/
theorem State.AtHand.unique (hc : Continued s.machine) (ht : s.AtHand t x) (hu : s.AtHand u x) : t = u :=
  hc.unique t u x (.inl ht.1) (.inl hu.1)

/-- What an event of the machine is for it, and that the caller is in no `Get`. -/
theorem Step.machine_step [DecidableEq R] [DecidableEq E] {e : Event T F A R E} (h : Step s e s')
    (he : e.ofMachine) : ∃ e', Lutask.step s.machine e' = some s'.machine ∧
      ∀ t x op, e' = .call t x op → s.getting x = none := by
  cases h with
  | @machine e m hallows hm =>
    refine ⟨e, hm, fun t x op he' => ?_⟩
    subst he'
    exact State.getting_of_allows hallows
  | async hx hm =>
    refine ⟨_, hm, fun t x op he' => ?_⟩
    obtain ⟨rfl, rfl, -⟩ : _ = t ∧ _ = x ∧ _ := by simpa using he'
    exact State.getting_of_mayCall hx
  | _ => simp [Event.ofMachine] at he

/-- A thread on which the machine goes on has no context in `Get`, before and after. -/
theorem State.Seated.machine_free {m : Lutask.State T} {e : Lutask.Event T} (hs : s.Seated)
    (hc : Continued s.machine) (hstep : Lutask.step s.machine e = some m)
    (hcall : ∀ t x op, e = .call t x op → s.getting x = none) :
    (∀ x, (s.machine.thread e.thread).active = some x → s.getting x = none) ∧
      ∀ x, (m.thread e.thread).active = some x → s.getting x = none := by
  have hfree : ∀ x f rest, (s.machine.thread e.thread).active = some x →
      (s.machine.thread e.thread).stack = f :: rest → s.getting x = none := by
    intro x f rest hactive hstack
    refine Option.eq_none_iff_forall_ne_some.mpr fun id hid => ?_
    obtain ⟨t, hat⟩ := hs x id hid
    obtain rfl := hc.unique t e.thread x (.inl hat.1) (.inl hactive)
    simp [hat.2.1] at hstack
  cases Lutask.step_inv hstep with
  | @call t x op r hactive hstack huser hop =>
    have hnone := hcall t x op rfl
    constructor <;> intro y hy
    · obtain rfl := Option.some.inj (hactive.symm.trans hy)
      exact hnone
    · have hy' : (s.machine.thread t).active = some y := by simpa [Lutask.Event.thread, hop.thread] using hy
      obtain rfl := Option.some.inj (hactive.symm.trans hy')
      exact hnone
  | @frame t x f now rest r hactive hstack hframe =>
    have hnone := hfree x f rest hactive hstack
    constructor <;> intro y hy
    · obtain rfl := Option.some.inj (hactive.symm.trans hy)
      exact hnone
    · have hy' : (r.1.thread t).active = some y := by simpa [Lutask.Event.thread] using hy
      cases hframe.active with
      | inl hsame =>
        obtain rfl := Option.some.inj (hactive.symm.trans (hsame.symm.trans hy'))
        exact hnone
      | inr hclosed =>
        obtain ⟨v, -, hnobody⟩ := hclosed
        simp [hnobody] at hy'
  | @switch t x z f k now rest stack hactive hstack htarget hsaved =>
    constructor <;> intro y hy
    · exact hfree y f rest hy hstack
    · obtain rfl : z = y := by simpa [Lutask.Event.thread, switched] using hy
      refine Option.eq_none_iff_forall_ne_some.mpr fun id hid => ?_
      obtain ⟨v, hat⟩ := hs z id hid
      simp [(hc.busy v z (.inl hat.1)).2] at hsaved

section Runs

variable [DecidableEq R] [DecidableEq E] {e : Event T F A R E}

/-- The other events leave the machine alone. -/
theorem Step.machine_eq (h : Step s e s') (he : e.ofMachine = false) : s'.machine = s.machine := by
  cases h with
  | machine | async => simp [Event.ofMachine] at he
  | _ => rfl

/-- A context in `Get` has entered it before or enters it now. -/
theorem Step.getting_cases (h : Step s e s') (hid : s'.getting x = some id) :
    s.getting x = some id ∨ e.ofMachine = false ∧ ∃ t, e = .get t x id none ∧ s.AtHand t x := by
  cases h with
  | @get t y id' o hat hx hvalid ho =>
    by_cases hxy : x = y
    · subst hxy
      obtain rfl : id' = id := by simpa using hid
      exact .inr ⟨rfl, t, rfl, hat⟩
    · exact .inl (by simpa [hxy] using hid)
  | @got t y id' construction found hat hx hpc =>
    by_cases hxy : x = y
    · simp [hxy] at hid
    · exact .inl (by simpa [hxy] using hid)
  | _ => exact .inl hid

/-- A thread of a context in `Get` takes no step of the machine. -/
theorem Step.atHand_of_getting (h : Step s e s') (hs : s.Seated) (hc : Continued s.machine)
    (hid : s.getting x = some id) : s'.AtHand t x ↔ s.AtHand t x := by
  cases he : e.ofMachine with
  | false => simp only [State.AtHand, h.machine_eq he]
  | true =>
    obtain ⟨e', hstep, hcall⟩ := h.machine_step he
    obtain ⟨hbefore, hafter⟩ := hs.machine_free hc hstep hcall
    by_cases ht : t = e'.thread
    · subst ht
      constructor <;> intro hat
      · simp [hafter x hat.1] at hid
      · simp [hbefore x hat.1] at hid
    · simp only [State.AtHand, step_thread_of_ne hstep ht]

theorem State.Seated.step (hs : s.Seated) (hc : Continued s.machine) (h : Step s e s') : s'.Seated := by
  intro x id hid
  cases h.getting_cases hid with
  | inl hold =>
    obtain ⟨t, hat⟩ := hs x id hold
    exact ⟨t, (h.atHand_of_getting hs hc hold).mpr hat⟩
  | inr hnew =>
    obtain ⟨he, t, rfl, hat⟩ := hnew
    exact ⟨t, by simpa only [State.AtHand, h.machine_eq he] using hat⟩

/-- Only `Async` queues a fiber of a task without a step of the machine. -/
theorem Step.queued (h : Step s e s') (he : e.ofMachine = false) (hqueued : s'.Queued id) :
    s.Queued id := by
  obtain ⟨w, hholds, hready⟩ := hqueued
  rw [h.machine_eq he] at hready
  cases h.holds hholds with
  | inl hold => exact ⟨w, hold, hready⟩
  | inr hnew =>
    obtain ⟨-, t, x, fn, args, rfl⟩ := hnew
    simp [Event.ofMachine] at he

omit [DecidableEq T] [DecidableEq R] [DecidableEq E] in
theorem State.Stuck.awaitsQueued (h : s.Stuck) (t : T) : s.AwaitsQueued t := by
  obtain ⟨id, ⟨x, hat, hid, -⟩, hqueued⟩ := h t
  exact ⟨x, id, ⟨hat, hid⟩, hqueued⟩

/-- When a covered `Get` is called some thread waits for no task that is queued: another one that is
outside of `Get`, or the caller itself. -/
theorem Step.spares_get (h : Step s (.get t x id none) s') (hc : Continued s.machine)
    (he : GetCovered s (.get t x id none)) : ∃ u, ¬ s'.AwaitsQueued u := by
  have hm : (Event.get t x id none : Event T F A R E).ofMachine = false := rfl
  have hat : ∀ v y, s'.AtHand v y ↔ s.AtHand v y := fun v y => by
    simp only [State.AtHand, h.machine_eq hm]
  obtain ⟨hx, hnone⟩ : s.AtHand t x ∧ s.getting x = none := by
    cases h with
    | get hactive hcalls hvalid ho => exact ⟨hactive, State.getting_of_mayCall hcalls⟩
  rcases he with ⟨u, hu, hout⟩ | hleft
  · refine ⟨u, ?_⟩
    rintro ⟨y, id', ⟨hy, hid'⟩, -⟩
    have hy' := (hat u y).mp hy
    rcases h.getting_cases hid' with hold | ⟨-, v, hsame, hv⟩
    · exact hout ⟨y, id', hy', hold⟩
    · obtain ⟨rfl, -⟩ : t = v ∧ x = y ∧ id = id' := by simpa using hsame
      exact hu (State.AtHand.unique hc hy' hv)
  · refine ⟨t, ?_⟩
    rintro ⟨y, id', ⟨hy, hid'⟩, hqueued⟩
    obtain rfl : x = y := Option.some.inj (hx.1.symm.trans ((hat t y).mp hy).1)
    rcases h.getting_cases hid' with hold | ⟨-, v, hsame, -⟩
    · simp [hnone] at hold
    · obtain ⟨-, rfl⟩ : t = v ∧ id = id' := by simpa using hsame
      exact hleft (h.queued hm hqueued)

/-- As long as every `Get` is covered some thread waits for no task that is queued. -/
theorem Step.spares (h : Step s e s') (hs : s.Seated) (hc : Continued s.machine) (he : GetCovered s e)
    (hspare : ∃ t, ¬ s.AwaitsQueued t) : ∃ t, ¬ s'.AwaitsQueued t := by
  cases hm : e.ofMachine with
  | true =>
    -- the thread on which the machine goes on is outside of `Get`
    obtain ⟨e', hstep, hcall⟩ := h.machine_step hm
    have hfree := (hs.machine_free hc hstep hcall).2
    refine ⟨e'.thread, ?_⟩
    rintro ⟨x, id, ⟨hat, hid⟩, -⟩
    rcases h.getting_cases hid with hold | ⟨hnot, -⟩
    · simp [hfree x hat.1] at hold
    · simp [hm] at hnot
  | false =>
    by_cases hget : ∃ t x id, e = .get t x id none
    · obtain ⟨t, x, id, rfl⟩ := hget
      exact h.spares_get hc he
    · obtain ⟨t, ht⟩ := hspare
      refine ⟨t, ?_⟩
      rintro ⟨x, id, ⟨hx, hid⟩, hqueued⟩
      rcases h.getting_cases hid with hold | ⟨-, v, hcall, -⟩
      · have hx' : s.AtHand t x := by simpa only [State.AtHand, h.machine_eq hm] using hx
        exact ht ⟨x, id, ⟨hx', hold⟩, h.queued hm hqueued⟩
      · exact hget ⟨v, x, id, hcall⟩

variable [DecidableEq F] [DecidableEq A] {events : List (Event T F A R E)}

/-- The machine runs as if there were no tasks. -/
theorem Runs.continued (h : Runs events s) : Continued s.machine := by
  obtain ⟨events', hrun⟩ : ∃ events',
      Lutask.Runs (fun _ => .sharedWork) (fun _ _ => True) events' s.machine := by
    refine Run.project State.machine (fun s e s' _ hfire => ?_) h
    refine (step_inv hfire).machine_cases.imp_right fun hstep => ?_
    obtain ⟨e', he'⟩ := hstep
    exact ⟨e', trivial, he'⟩
  exact Lutask.Runs.continued hrun

/-- In a run in which every `Get` is covered the threads are at no time all blocked for queued tasks. -/
theorem covered_gets_never_stuck [Nonempty T] (h : Run step GetCovered State.initial events s) :
    ¬ s.Stuck := by
  have hguarded := h.passing (P := fun s => Continued s.machine) fun _ _ _ hrun =>
    Runs.continued (hrun.weaken fun _ _ _ => trivial)
  obtain ⟨-, t, ht⟩ := hguarded.invariant (I := fun s => s.Seated ∧ ∃ t, ¬ s.AwaitsQueued t)
    ⟨fun x id hid => by simp [State.initial] at hid, Classical.arbitrary T, fun hwaits => by
      obtain ⟨x, id, ⟨-, hid⟩, -⟩ := hwaits
      simp [State.initial] at hid⟩
    fun s e s' hs he hfire => ⟨hs.1.step he.1 (step_inv hfire),
      (step_inv hfire).spares hs.1 he.1 he.2 hs.2⟩
  exact fun hstuck => ht (hstuck.awaitsQueued t)

end Runs

/-- The main context of a thread calls `Async`, which makes worker and task `n`, and then `Get`. -/
def callsAndWaits (t : Bool) (n : ℕ) : List (Event Bool Unit Unit Unit Unit) :=
  [.async t (.main t) n n () (), .machine (.exec t (.main t) (.detach (.worker n)) 0),
    .machine (.exec t (.main t) (.readyPush (.worker n)) 0), .get t (.main t) n none,
    .shared t (.main t) n (.get (.caller (.main t)))]

/-- Two threads whose main contexts wait for their tasks are stuck. -/
theorem both_threads_stuck : ∃ s, Runs (callsAndWaits false 0 ++ callsAndWaits true 1) s ∧ s.Stuck := by
  obtain ⟨s, hplay, hfirst, hsecond⟩ : ∃ s, play step (fun _ _ => true) State.initial
      (callsAndWaits false 0 ++ callsAndWaits true 1) = some s ∧
        (s.Blocked false 0 ∧ s.Queued 0) ∧ s.Blocked true 1 ∧ s.Queued 1 :=
    ⟨_, rfl, ⟨⟨.main false, ⟨rfl, rfl, rfl⟩, rfl, rfl⟩, ⟨0, .inl ⟨(), rfl⟩, by decide⟩⟩,
      ⟨.main true, ⟨rfl, rfl, rfl⟩, rfl, rfl⟩, ⟨1, .inl ⟨(), rfl⟩, by decide⟩⟩
  refine ⟨s, Run.of_play (fun _ _ _ => trivial) hplay, fun t => ?_⟩
  cases t with
  | false => exact ⟨0, hfirst⟩
  | true => exact ⟨1, hsecond⟩

/-- Main of the other thread yields and takes the fiber of the first task over. -/
def otherTakes : List (Event Bool Unit Unit Unit Unit) :=
  [.machine (.call true (.main true) .yield),
    .machine (.exec true (.main true) (.pickNext true (some (.resumeReady (.main true)))) 0),
    .machine (.exec true (.main true) (.attachResume (.worker 0) (.resumeReady (.main true))) 0),
    .machine (.exec true (.main true) (.resume (.worker 0) (.resumeReady (.main true))) 0)]

/-- One thread waits while the other one is outside of `Get`, which goes on with the fiber of the task. -/
theorem one_thread_waits : ∃ s, Run step GetCovered State.initial (callsAndWaits false 0 ++ otherTakes) s ∧
    (s.Blocked false 0 ∧ (s.machine.thread true).active = some (.worker 0)) ∧ ¬ s.Stuck := by
  have hallowed (s : State Bool Unit Unit Unit Unit) (e : Event Bool Unit Unit Unit Unit)
      (he : (!e.isGet) = true) : GetCovered s e := GetCovered.of_isGet (by simpa using he)
  obtain ⟨s₁, s₂, s, hplay, hnone, hget, hplay', hstate⟩ : ∃ s₁ s₂ s,
      play step (fun _ e => !e.isGet) State.initial ((callsAndWaits false 0).take 3) = some s₁ ∧
      (∀ x, s₁.getting x = none) ∧ step s₁ (.get false (.main false) 0 none) = some s₂ ∧
      play step (fun _ e => !e.isGet) s₂ ((callsAndWaits false 0).drop 4 ++ otherTakes) = some s ∧
      s.Blocked false 0 ∧ (s.machine.thread true).active = some (.worker 0) :=
    ⟨_, _, _, rfl, fun _ => rfl, rfl, rfl, ⟨.main false, ⟨rfl, rfl, rfl⟩, rfl, rfl⟩, rfl⟩
  have hcovered : GetCovered s₁ (.get false (.main false) 0 none) := by
    refine .inl ⟨true, by decide, ?_⟩
    rintro ⟨x, id, -, hid⟩
    simp [hnone] at hid
  have hrun : Run step GetCovered State.initial (callsAndWaits false 0 ++ otherTakes) s :=
    ((Run.of_play hallowed hplay).snoc hcovered hget).append (Run.of_play hallowed hplay')
  exact ⟨s, hrun, hstate, covered_gets_never_stuck hrun⟩

end Async

end Lutask
