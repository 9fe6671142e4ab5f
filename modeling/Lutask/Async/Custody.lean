import Lutask.Async.Machine
import Lutask.Future.SoleRun
import Lutask.Machine.Effects

/-!
# The worker that has the task

The task that a call of `Async` makes is owned by the worker context made with it, first through the
member `fn_` and then through the variable into which `Run_` has moved it. No other worker ever has
it, so that this worker alone executes `TaskObject::Run`, and once.
-/

namespace Lutask

namespace Async

open LabelledRuns

variable {T F A R E : Type*}

/-- The task that was made before an event names it. -/
def Event.task : Event T F A R E → Option ℕ
  | .async _ _ _ id _ _ | .run _ _ id _ _ | .shared _ _ id _ | .get _ _ id none | .got _ _ id _ _ =>
    some id
  | _ => none

/-- The worker of `Async` that an event names. -/
def Event.fiber : Event T F A R E → Option ℕ
  | .async _ _ w _ _ _ | .run _ w _ _ _ | .uncaught _ w _ => some w
  | _ => none

/-- The functions, with their arguments, that `Run_` of worker `w` has called. -/
def invocations (w : ℕ) (events : List (Event T F A R E)) : List (F × A) :=
  events.filterMap fun
    | .run _ w' _ fn args => if w' = w then some (fn, args) else none
    | _ => none

/-- What has happened on the shared state of task `id`. -/
def steps (id : ℕ) (events : List (Event T F A R E)) : List (OneShot.Event (Party T) R E) :=
  events.filterMap (·.on id)

/-- Worker `w` has task `id`. -/
def State.Holds (s : State T F A R E) (w id : ℕ) : Prop :=
  (∃ args, s.worker w = some ⟨some id, args⟩) ∨ s.running w = some id

section Events

variable {events more : List (Event T F A R E)} {e : Event T F A R E} {w id : ℕ}

@[simp] theorem invocations_append :
    invocations w (events ++ more) = invocations w events ++ invocations w more :=
  List.filterMap_append

@[simp] theorem steps_append : steps id (events ++ more) = steps id events ++ steps id more :=
  List.filterMap_append

@[simp] theorem invocations_run (t : T) (w id : ℕ) (fn : F) (args : A) :
    invocations w [(.run t w id fn args : Event T F A R E)] = [(fn, args)] := by
  simp [invocations]

/-- Only `Run_` calls the task. -/
theorem invocations_singleton (h : ∀ t id fn args, e ≠ .run t w id fn args) : invocations w [e] = [] := by
  cases e with
  | run t w' id fn args =>
    have hne : w' ≠ w := by
      rintro rfl
      exact h t id fn args rfl
    simp [invocations, hne]
  | _ => rfl

theorem invocations_eq_nil (h : ∀ e ∈ events, e.fiber ≠ some w) : invocations w events = [] := by
  refine List.filterMap_eq_nil_iff.mpr fun e he => ?_
  have hfiber := h e he
  cases e with
  | run t w' id fn args => simpa [Event.fiber] using hfiber
  | _ => rfl

theorem steps_eq_nil (h : ∀ e ∈ events, e.task ≠ some id) : steps id events = [] := by
  refine List.filterMap_eq_nil_iff.mpr fun e he => ?_
  have htask := h e he
  cases e with
  | get t x id' thrown => cases thrown <;> simp_all [Event.task, Event.on]
  | run | shared => simpa [Event.task, Event.on] using htask
  | _ => rfl

end Events

variable [DecidableEq T] [DecidableEq R] [DecidableEq E] {s s' : State T F A R E}
  {e : Event T F A R E} {events : List (Event T F A R E)} {w id : ℕ} {fn : F} {args : A}

omit [DecidableEq R] [DecidableEq E] in
/-- Whoever is inside of a shared state calls nothing there, is the task's own worker if it acts as
the task, and sets nothing if not. -/
theorem State.inside_cases {x : Ctx T} {e : OneShot.Event (Party T) R E} (h : s.inside x id e) :
    e.called = none ∧ (e.party = .task → ∃ w, x = .worker w ∧ s.running w = some id) ∧
      (e.party ≠ .task → e.fixes = none) := by
  cases e with
  | call p c => simp [State.inside] at h
  | get p | wake p =>
    cases p with
    | task => simp [State.inside] at h
    | caller y => simp [OneShot.Event.called, OneShot.Event.party, OneShot.Event.fixes]
  | invoke p | setValue p | setException p | notifyAll p =>
    cases p with
    | caller y => simp [State.inside] at h
    | task =>
      cases x with
      | worker w => simp_all [State.inside, OneShot.Event.called, OneShot.Event.party]
      | main t | dispatcher t => simp [State.inside] at h

/-- A task passes from the worker context to its `Run_`, and only a new one to a new worker. -/
theorem Step.holds (h : Step s e s') (hholds : s'.Holds w id) :
    s.Holds w id ∨
      (w = s.machine.fresh ∧ id = s.made) ∧ ∃ t x fn args, e = .async t x w id fn args := by
  cases h with
  | @async t x fn args m hx hm =>
    by_cases hw : w = s.machine.fresh
    · cases hholds with
      | inl hworker =>
        obtain ⟨args', hargs⟩ := hworker
        obtain rfl : s.made = id := by
          simp only [State.make_worker, hw, Function.update_self, Option.some.injEq,
            WorkerContext.mk.injEq] at hargs
          exact hargs.1
        exact .inr ⟨⟨hw, rfl⟩, t, x, fn, args, hw ▸ rfl⟩
      | inr hrunning => exact .inl (.inr hrunning)
    · exact .inl (by simpa [State.Holds, hw] using hholds)
  | @run t w' id' fn args o hat hw' hfn ho =>
    by_cases hw : w = w'
    · subst hw
      obtain rfl : id' = id := by simpa [State.Holds] using hholds
      exact .inl (.inl ⟨_, hw'⟩)
    · exact .inl (by simpa [State.Holds, hw] using hholds)
  | _ => exact .inl hholds

/-- Everything that is named was made. -/
structure Named (events : List (Event T F A R E)) (s : State T F A R E) : Prop where
  shared : ∀ id, s.made ≤ id → s.shared id = .initial
  future : ∀ id, s.future id → id < s.made
  getting : ∀ x id, s.getting x = some id → id < s.made
  holds : ∀ w id, s.Holds w id → id < s.made ∧ s.machine.started (.worker w)
  worker : ∀ w, s.worker w ≠ none → s.machine.started (.worker w)
  tasks : ∀ e ∈ events, ∀ id, e.task = some id → id < s.made
  fibers : ∀ e ∈ events, ∀ w, e.fiber = some w → s.machine.started (.worker w)

omit [DecidableEq T] [DecidableEq R] [DecidableEq E] in
theorem Named.initial : Named [] (State.initial : State T F A R E) where
  shared id h := rfl
  future id h := by simp [State.initial] at h
  getting x id h := by simp [State.initial] at h
  holds w id h := by simp [State.Holds, State.initial] at h
  worker w h := by simp [State.initial] at h
  tasks e he := by simp at he
  fibers e he := by simp at he

/-- No task and no worker is unmade. -/
theorem Step.made_le (h : Step s e s') : s.made ≤ s'.made := by
  cases h with
  | async hx hm => simp
  | _ => exact le_rfl

theorem Step.started (h : Step s e s') {x : Ctx T} (hx : s.machine.started x) :
    s'.machine.started x := by
  cases h.machine_cases with
  | inl hsame => exact hsame ▸ hx
  | inr hstep =>
    obtain ⟨e', he'⟩ := hstep
    exact step_started he' hx

/-- `Async` makes the next worker. -/
theorem started_of_async {t : T} {x : Ctx T} {m m' : Lutask.State T}
    (h : Lutask.step m (.call t x (.start .async)) = some m') : m'.started (.worker m.fresh) := by
  obtain ⟨-, -, r, hop, rfl⟩ := step_call h
  exact (hop.started_iff _).mpr (.inr ⟨⟨_, rfl⟩, rfl⟩)

omit [DecidableEq T] [DecidableEq R] [DecidableEq E] in
/-- A worker without a task has nothing that escapes from it. -/
theorem State.worker_of_escaping {x : TaskException E} (h : s.escaping w = some x) : s.worker w ≠ none := by
  intro hnone
  simp [State.escaping, hnone] at h

/-- A step names a task only if it was made before or in the step. -/
theorem Named.task_step (h : Named events s) (hstep : Step s e s') (htask : e.task = some id) :
    id < s'.made := by
  have hmade : id < s.made → id < s'.made := fun hid => hid.trans_le hstep.made_le
  cases hstep with
  | async hx hm =>
    obtain rfl := Option.some.inj htask
    simp
  | @run t w id' fn args o hat hw hfn ho =>
    obtain rfl := Option.some.inj htask
    exact hmade (h.holds w id' (.inl ⟨_, hw⟩)).1
  | @shared t x id' e o hat hinside ho =>
    obtain rfl := Option.some.inj htask
    refine hmade ?_
    by_contra hid
    have hinitial := h.shared id' (Nat.le_of_not_lt hid)
    have hidle : ∀ p, (s.shared id').pc p = .idle := by simp [hinitial, OneShot.State.initial]
    have hcalled := (State.inside_cases hinside).1
    cases OneShot.step_inv ho with
    | call hfree => simp [OneShot.Event.called] at hcalled
    | _ => simp_all
  | get hat hx hvalid ho =>
    obtain rfl := Option.some.inj htask
    exact hmade (h.future _ hvalid)
  | got hat hx hpc =>
    obtain rfl := Option.some.inj htask
    exact hmade (h.getting _ _ hx)
  | _ => simp [Event.task] at htask

theorem Named.fiber_step (h : Named events s) (hstep : Step s e s') (hfiber : e.fiber = some w) :
    s'.machine.started (.worker w) := by
  have hstarted : s.machine.started (.worker w) → s'.machine.started (.worker w) := hstep.started
  cases hstep with
  | async hx hm =>
    obtain rfl := Option.some.inj hfiber
    exact started_of_async hm
  | run hat hw hfn ho =>
    obtain rfl := Option.some.inj hfiber
    exact hstarted (h.worker _ (by simp [hw]))
  | uncaught hat hescaping =>
    obtain rfl := Option.some.inj hfiber
    exact hstarted (h.worker _ (State.worker_of_escaping hescaping))
  | _ => simp [Event.fiber] at hfiber

theorem Named.step (h : Named events s) (hstep : Step s e s') : Named (events ++ [e]) s' where
  shared id hid := by
    have hold := h.shared id (hstep.made_le.trans hid)
    have hon : e.on id = none := by
      by_contra hne
      obtain ⟨e', he'⟩ := Option.ne_none_iff_exists'.mp hne
      have htask : e.task = some id := by
        cases e with
        | get t x id' thrown => cases thrown <;> simp_all [Event.task, Event.on]
        | run | shared => simp_all [Event.task, Event.on]
        | _ => simp [Event.on] at he'
      exact absurd (h.task_step hstep htask) (Nat.not_lt_of_le hid)
    rw [hstep.on_none hon, hold]
  future id hid := by
    have hmade : id < s.made → id < s'.made := fun h => h.trans_le hstep.made_le
    cases hstep with
    | async hx hm =>
      by_cases hnew : id = s.made
      · simp [hnew]
      · exact hmade (h.future id (by simpa [hnew] using hid))
    | @get t x id' o hat hx hvalid ho =>
      by_cases htaken : id = id'
      · simp [htaken] at hid
      · exact hmade (h.future id (by simpa [htaken] using hid))
    | _ => exact hmade (h.future id hid)
  getting x id hid := by
    have hmade : id < s.made → id < s'.made := fun h => h.trans_le hstep.made_le
    cases hstep with
    | @get t y id' o hat hx hvalid ho =>
      by_cases hxy : x = y
      · obtain rfl : id' = id := by simpa [hxy] using hid
        exact hmade (h.future id' hvalid)
      · exact hmade (h.getting x id (by simpa [hxy] using hid))
    | @got t y id' construction found hat hx hpc =>
      by_cases hxy : x = y
      · simp [hxy] at hid
      · exact hmade (h.getting x id (by simpa [hxy] using hid))
    | _ => exact hmade (h.getting x id hid)
  holds w id hid := by
    cases hstep.holds hid with
    | inl hold =>
      obtain ⟨hmade, hstarted⟩ := h.holds w id hold
      exact ⟨hmade.trans_le hstep.made_le, hstep.started hstarted⟩
    | inr hnew =>
      obtain ⟨-, t, x, fn, args, rfl⟩ := hnew
      exact ⟨h.task_step hstep rfl, h.fiber_step hstep rfl⟩
  worker w hw := by
    have hstarted : s.worker w ≠ none → s'.machine.started (.worker w) :=
      fun hold => hstep.started (h.worker w hold)
    cases hstep with
    | async hx hm =>
      by_cases hnew : w = s.machine.fresh
      · exact hnew ▸ started_of_async hm
      · exact hstarted (by simpa [hnew] using hw)
    | @run t w' id fn args o hat hw' hfn ho =>
      by_cases hnew : w = w'
      · exact hstarted (by simp [hnew, hw'])
      · exact hstarted (by simpa [hnew] using hw)
    | _ => exact hstarted hw
  tasks e' he' id hid := by
    cases List.mem_append.mp he' with
    | inl hold => exact (h.tasks e' hold id hid).trans_le hstep.made_le
    | inr hnew =>
      obtain rfl := List.mem_singleton.mp hnew
      exact h.task_step hstep hid
  fibers e' he' w hw := by
    cases List.mem_append.mp he' with
    | inl hold => exact hstep.started (h.fibers e' hold w hw)
    | inr hnew =>
      obtain rfl := List.mem_singleton.mp hnew
      exact h.fiber_step hstep hw

/-- Worker `w` has had task `id`, which is to apply `fn` to `args`, since the beginning of these events. Its
`Run_` has either not called the task yet, or has called it once. -/
structure Custody (w id : ℕ) (fn : F) (args : A) (events : List (Event T F A R E)) (s : State T F A R E) :
    Prop where
  made : id < s.made
  started : s.machine.started (.worker w)
  function : s.fn id = some fn
  holder : ∀ w', s.Holds w' id → w' = w
  sole : OneShot.SoleRun .task (steps id events) (s.shared id)
  phase : (s.worker w = some ⟨some id, some args⟩ ∧ s.running w = none ∧ invocations w events = [] ∧
      (steps id events).filter (·.party = .task) = []) ∨
    (s.worker w = some ⟨none, none⟩ ∧ s.running w = some id ∧ invocations w events = [(fn, args)])
  runs : ∀ t w' fn' args', .run t w' id fn' args' ∈ events → w' = w
  tasks : ∀ t x e, .shared t x id e ∈ events → e.party = .task → x = .worker w
  caught : ∀ t x, .uncaught t w x ∉ events

/-- `Async` gives the task to the worker that it makes. -/
theorem Named.custody {t : T} {x : Ctx T} (h : Named events s)
    (hstep : Step s (.async t x w id fn args) s') :
    Custody w id fn args (events ++ [.async t x w id fn args]) s' := by
  have hstep' := hstep
  cases hstep with
  | async hx hm =>
    have hnew : ¬ s.machine.started (.worker s.machine.fresh) := by simp [Lutask.State.started]
    have hfirst : ∀ e ∈ events, e.task ≠ some s.made := fun e he htask =>
      lt_irrefl _ (h.tasks e he s.made htask)
    have hfiber : ∀ e ∈ events, e.fiber ≠ some s.machine.fresh := fun e he hw =>
      hnew (h.fibers e he s.machine.fresh hw)
    have hsteps : steps s.made (events ++ [.async t x s.machine.fresh s.made fn args]) = [] := by
      rw [steps_append, steps_eq_nil hfirst]
      rfl
    refine ⟨by simp, started_of_async hm, by simp, fun w' hw' => ?_, ?_,
      .inl ⟨by simp, ?_, ?_, by simp [hsteps]⟩, fun t' w' fn' args' hmem => ?_,
      fun t' x' e hmem hparty => ?_, fun t' x' hmem => ?_⟩
    · cases hstep'.holds hw' with
      | inl hold => exact absurd (h.holds w' _ hold).1 (lt_irrefl _)
      | inr hmade => exact hmade.1.1
    · have hinitial := h.shared s.made le_rfl
      simpa [hinitial, hsteps] using OneShot.SoleRun.initial
    · refine Option.eq_none_iff_forall_ne_some.mpr fun id' hrunning => ?_
      exact hnew (h.holds s.machine.fresh id' (.inr hrunning)).2
    · rw [invocations_append, invocations_eq_nil hfiber]
      rfl
    · exact absurd rfl (hfirst (.run t' w' s.made fn' args') (by simpa using hmem))
    · exact absurd rfl (hfirst (.shared t' x' s.made e) (by simpa using hmem))
    · exact absurd rfl (hfiber (.uncaught t' s.machine.fresh x') (by simpa using hmem))

/-- No other worker gets the task. -/
theorem Custody.holder_step (h : Custody w id fn args events s) (hstep : Step s e s') {w' : ℕ}
    (hw' : s'.Holds w' id) : w' = w := by
  cases hstep.holds hw' with
  | inl hold => exact h.holder w' hold
  | inr hnew => exact absurd h.made (by simp [hnew.1.2])

/-- The events on the shared state are those of a task that its worker runs once. -/
theorem Custody.fulfils (h : Custody w id fn args events s) (hstep : Step s e s')
    {e' : OneShot.Event (Party T) R E} (he : e.on id = some e') :
    OneShot.Fulfils .task (steps id events) e' := by
  cases hstep with
  | @run t w' id' fn' args' o hat hw hfn ho =>
    simp only [Event.on, Option.ite_none_right_eq_some, Option.some.injEq] at he
    obtain ⟨rfl, rfl⟩ := he
    obtain rfl := h.holder w' (.inl ⟨_, hw⟩)
    refine ⟨fun _ => .inr ⟨rfl, ?_⟩, fun hne => absurd rfl hne⟩
    cases h.phase with
    | inl hpending => exact hpending.2.2.2
    | inr hrunning => simp [hw] at hrunning
  | @shared t x id' e o hat hinside ho =>
    simp only [Event.on, Option.ite_none_right_eq_some, Option.some.injEq] at he
    obtain ⟨rfl, rfl⟩ := he
    obtain ⟨hcalled, -, hfixes⟩ := State.inside_cases hinside
    exact ⟨fun _ => .inl hcalled, hfixes⟩
  | @get t x id' o hat hx hvalid ho =>
    simp only [Event.on, Option.ite_none_right_eq_some, Option.some.injEq] at he
    obtain ⟨rfl, rfl⟩ := he
    exact ⟨by simp [OneShot.Event.party], fun _ => rfl⟩
  | _ => simp [Event.on] at he

theorem Custody.sole_step (h : Custody w id fn args events s) (hstep : Step s e s') :
    OneShot.SoleRun .task (steps id (events ++ [e])) (s'.shared id) := by
  cases he : e.on id with
  | none => simpa [steps, he, hstep.on_none he] using h.sole
  | some e' =>
    have hstep' := h.sole.step (hstep.on_some he) (h.fulfils hstep he)
    simpa [steps, he] using hstep'

/-- Before `Run_` has called the task nobody acts as the task. -/
theorem Custody.idle_step (h : Custody w id fn args events s) (hstep : Step s e s')
    (hrunning : s.running w = none) (hidle : (steps id events).filter (·.party = .task) = [])
    (hrun : ∀ t fn args, e ≠ .run t w id fn args) :
    (steps id (events ++ [e])).filter (·.party = .task) = [] := by
  rw [steps_append, List.filter_append, hidle, List.nil_append]
  refine List.filter_eq_nil_iff.mpr fun e' he' hparty => ?_
  have hon : e.on id = some e' := by simpa [steps] using he'
  have htask : e'.party = .task := by simpa using hparty
  cases hstep with
  | @run t w' id' fn' args' o hat hw hfn ho =>
    simp only [Event.on, Option.ite_none_right_eq_some, Option.some.injEq] at hon
    obtain ⟨rfl, rfl⟩ := hon
    obtain rfl := h.holder w' (.inl ⟨_, hw⟩)
    exact hrun _ _ _ rfl
  | @shared t x id' e o hat hinside ho =>
    simp only [Event.on, Option.ite_none_right_eq_some, Option.some.injEq] at hon
    obtain ⟨rfl, rfl⟩ := hon
    obtain ⟨w', -, hw'⟩ := (State.inside_cases hinside).2.1 htask
    obtain rfl := h.holder w' (.inr hw')
    simp [hrunning] at hw'
  | @get t x id' o hat hx hvalid ho =>
    simp only [Event.on, Option.ite_none_right_eq_some, Option.some.injEq] at hon
    obtain ⟨rfl, rfl⟩ := hon
    simp [OneShot.Event.party] at htask
  | _ => simp [Event.on] at hon

theorem Custody.phase_step (h : Custody w id fn args events s) (hstep : Step s e s') :
    (s'.worker w = some ⟨some id, some args⟩ ∧ s'.running w = none ∧ invocations w (events ++ [e]) = [] ∧
        (steps id (events ++ [e])).filter (·.party = .task) = []) ∨
      (s'.worker w = some ⟨none, none⟩ ∧ s'.running w = some id ∧
        invocations w (events ++ [e]) = [(fn, args)]) := by
  by_cases hrun : ∃ t id' fn' args', e = .run t w id' fn' args'
  · obtain ⟨t, id', fn', args', rfl⟩ := hrun
    cases hstep with
    | run hat hw hfn ho =>
      rcases h.phase with ⟨hworker, hrunning, hnone, -⟩ | ⟨hworker, -⟩
      · obtain ⟨rfl, rfl⟩ : id = id' ∧ args = args' := by simpa [hworker] using hw
        obtain rfl : fn = fn' := by simpa [h.function] using hfn
        exact .inr ⟨by simp, by simp, by simp [hnone]⟩
      · simp [hworker] at hw
  · have hnone : invocations w [e] = [] :=
      invocations_singleton fun t id' fn' args' he => hrun ⟨t, id', fn', args', he⟩
    have hworker : s'.worker w = s.worker w ∧ s'.running w = s.running w := by
      cases hstep with
      | async hx hm =>
        have hne : w ≠ s.machine.fresh := by
          rintro rfl
          simpa [Lutask.State.started] using h.started
        simp [hne]
      | @run t w' id' fn' args' o hat hw hfn ho =>
        have hne : w ≠ w' := by
          rintro rfl
          exact hrun ⟨_, _, _, _, rfl⟩
        simp [hne]
      | _ => exact ⟨rfl, rfl⟩
    rw [hworker.1, hworker.2, invocations_append, hnone, List.append_nil]
    cases h.phase with
    | inl hpending =>
      have hidle := h.idle_step hstep hpending.2.1 hpending.2.2.2
        fun t fn' args' he => hrun ⟨t, id, fn', args', he⟩
      exact .inl ⟨hpending.1, hpending.2.1, hpending.2.2.1, hidle⟩
    | inr hrunning => exact .inr hrunning

omit [DecidableEq R] [DecidableEq E] in
/-- Nothing escapes from `Run_` of the worker. -/
theorem Custody.not_escaping (h : Custody w id fn args events s) (x : TaskException E) :
    s.escaping w ≠ some x := by
  intro hescaping
  rcases h.phase with ⟨hworker, hrunning, -⟩ | ⟨hworker, hrunning, -⟩
  · simp [State.escaping, hworker, hrunning] at hescaping
  · simp only [State.escaping, hworker, hrunning] at hescaping
    split at hescaping
    · rename_i y hpc
      exact h.sole.not_thrown y hpc
    · simp at hescaping

theorem Custody.step (h : Custody w id fn args events s) (hstep : Step s e s') :
    Custody w id fn args (events ++ [e]) s' where
  made := h.made.trans_le hstep.made_le
  started := hstep.started h.started
  function := by
    cases hstep with
    | async hx hm => simpa [h.made.ne] using h.function
    | _ => exact h.function
  holder _ := h.holder_step hstep
  sole := h.sole_step hstep
  phase := h.phase_step hstep
  runs t w' fn' args' hmem := by
    cases List.mem_append.mp hmem with
    | inl hold => exact h.runs t w' fn' args' hold
    | inr hnew =>
      obtain rfl := List.mem_singleton.mp hnew
      cases hstep with
      | run hat hw hfn ho => exact h.holder w' (.inl ⟨_, hw⟩)
  tasks t x e' hmem hparty := by
    cases List.mem_append.mp hmem with
    | inl hold => exact h.tasks t x e' hold hparty
    | inr hnew =>
      obtain rfl := List.mem_singleton.mp hnew
      cases hstep with
      | shared hat hinside ho =>
        obtain ⟨w', rfl, hw'⟩ := (State.inside_cases hinside).2.1 hparty
        rw [h.holder w' (.inr hw')]
  caught t x hmem := by
    cases List.mem_append.mp hmem with
    | inl hold => exact h.caught t x hold
    | inr hnew =>
      obtain rfl := List.mem_singleton.mp hnew
      cases hstep with
      | uncaught hat hescaping => exact h.not_escaping x hescaping

section Runs

variable [DecidableEq F] [DecidableEq A]

/-- The worker of every call of `Async` in a run has its task. -/
theorem Runs.custody (h : Runs events s) : Named events s ∧
    ∀ t x w id fn args, .async t x w id fn args ∈ events → Custody w id fn args events s := by
  apply Run.invariant_labels (I := fun events s => Named events s ∧
    ∀ t x w id fn args, .async t x w id fn args ∈ events → Custody w id fn args events s) h
  · exact ⟨.initial, by simp⟩
  · intro events s e s' hs _ hfire
    have hstep := step_inv hfire
    refine ⟨hs.1.step hstep, fun t x w id fn args hmem => ?_⟩
    cases List.mem_append.mp hmem with
    | inl hold => exact (hs.2 t x w id fn args hold).step hstep
    | inr hnew =>
      obtain rfl := List.mem_singleton.mp hnew
      exact hs.1.custody hstep

/-- A task is made before it is named. -/
theorem Runs.async_before {before after : List (Event T F A R E)} {t : T} {x : Ctx T}
    (h : Runs (before ++ e :: after) s) (htask : e.task = some id) (hother : e ≠ .async t x w id fn args)
    (hasync : .async t x w id fn args ∈ before ++ e :: after) : .async t x w id fn args ∈ before := by
  cases List.mem_append.mp hasync with
  | inl hbefore => exact hbefore
  | inr hlater =>
    have hafter : .async t x w id fn args ∈ after := (List.mem_cons.mp hlater).resolve_left (Ne.symm hother)
    obtain ⟨mid, rest, rfl⟩ := List.append_of_mem hafter
    have hrun : Runs ((before ++ e :: mid) ++ .async t x w id fn args :: rest) s := by simpa using h
    obtain ⟨s₁, s₂, hfirst, -, hfire, -⟩ := hrun.cut
    have hmade := (Runs.custody hfirst).1.tasks e (by simp) id htask
    cases step_inv hfire with
    | async hx hm => exact absurd hmade (lt_irrefl _)

end Runs

end Async

end Lutask
