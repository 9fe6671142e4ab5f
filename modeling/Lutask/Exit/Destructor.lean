import Lutask.Dispatcher.Return

/-!
# The end of `~Scheduler`

Main gets the control back in `~Scheduler` when `Dispatch` has returned to it. From the end of its
loop on the thread has nothing else to execute, and nobody else attaches a worker to its scheduler.
So the queues that `~Scheduler` asserts to be empty are empty.
-/

namespace Lutask

open LabelledRuns TokenPlacement

variable {T : Type*} [DecidableEq T] {s s' : State T} {t u : T} {x y : Ctx T} {now : ℕ} {f : Frame T}
  {op : Op T} {r : Rest T} {e : Event T} {rest : List (Frame T)}

section Return

omit [DecidableEq T] in
/-- Main has nothing below the end of `~Scheduler`, and at most one frame above it. -/
theorem Closing.destructor_stack (h : Closing s) {u : T} (hactive : (s.thread t).active = some (.main u))
    (hend : .destroy u ∈ (s.thread t).stack) :
    (s.thread t).stack = [.destroy u] ∨ ∃ f, (s.thread t).stack = [f, .destroy u] ∧ f.inDestructor := by
  refine h.running t u hactive ?_
  by_contra hopen
  exact h.runningOpen t u hactive (by simpa using hopen) hend

/-- Main is at the end of `~Scheduler` because its dispatcher has returned to it. -/
def Ending (s : State T) : Prop :=
  ∀ t u, (s.thread t).active = some (.main u) →
    ((s.thread t).stack = [.destroy u] → (s.ctx (.dispatcher u)).c = some []) ∧
      ∀ y k, (s.thread t).stack = [.save y k, .destroy u] →
        y = .dispatcher u ∧ (s.thread t).fctx = some []

omit [DecidableEq T] in
theorem Ending.initial (policy : T → Policy) : Ending (State.initial policy) := fun t u _ =>
  ⟨by simp [State.initial], by simp [State.initial]⟩

/-- On the way back to `~Scheduler` only the function on top of the resumed stack leaves nothing to
execute. -/
theorem FrameStep.save_of_returns (h : FrameStep s t x now f r) (hf : f.inDestructor) (hnone : r.2 = []) :
    ∃ y k, f = .save y k := by
  by_cases hleaves : f.leaves
  · rcases hf with hk | hk <;> obtain ⟨g, hg, -⟩ := h.carried hleaves hk <;> simp [hnone] at hg
  · rcases hf with hk | hk <;> cases f <;> simp_all [Frame.carried, Frame.leaves, Switch.leaves]

/-- As long as nobody sleeps or yields to its origin, main leaves `~Scheduler` only by the return of
`Dispatch`. -/
theorem Ending.step (h : Ending s) (ho : Orderly s) (hd : Dispatching s) (hscript : Scripted s)
    (hstep : Lutask.step s e = some s') : Ending s' := by
  intro v u hv
  by_cases hother : v ≠ e.thread
  · rw [step_thread_of_ne hstep hother] at hv ⊢
    obtain ⟨hended, hending⟩ := h v u hv
    exact ⟨fun hstack => hd.stays_returned ho.continued (hended hstack) hstep, hending⟩
  · obtain rfl := not_not.mp hother
    cases step_inv hstep with
    | @call t x op r hactive hstack huser hop =>
      simp only [Event.thread, State.setStack_thread_self]
      rcases hop.closing with ⟨w, -, hframes, -⟩ | ⟨hnot, -⟩
      · simp [hframes]
      · refine ⟨fun hend => absurd ?_ (hnot u), fun y k hend => absurd ?_ (hnot u)⟩ <;> simp [hend]
    | @frame t x f now rest r hactive hstack hframe =>
      simp only [Event.thread, State.setStack_thread_self] at hv ⊢
      obtain rfl : x = .main u := by
        rcases hframe.active with hsame | ⟨w, -, hnone⟩
        · exact Option.some.inj (hactive.symm.trans (hsame.symm.trans hv))
        · simp [hnone] at hv
      have hnosave : ∀ y k rest', r.2 ++ rest ≠ .save y k :: rest' := fun y k rest' =>
        hframe.noSave ho.shape hactive hstack y k rest'
      refine ⟨fun hend => ?_, fun y k hend => absurd hend (hnosave y k _)⟩
      obtain ⟨hnone, rfl⟩ : r.2 = [] ∧ rest = [.destroy u] := by
        rcases List.append_eq_singleton_iff.mp hend with hend | ⟨hnew, -⟩
        · exact hend
        · exact absurd (by simp [hnew]) (hframe.not_destroy u)
      have hf : f.inDestructor := by
        rcases ho.placed.closing.destructor_stack hactive (by simp [hstack]) with hlast | ⟨g, hlast, hg⟩
        · simp [hstack] at hlast
        · obtain ⟨rfl, -⟩ := List.cons.inj (hstack.symm.trans hlast)
          exact hg
      obtain ⟨y, k, rfl⟩ := hframe.save_of_returns hf hnone
      obtain ⟨rfl, hfctx⟩ := (h t u hactive).2 y k hstack
      cases hframe with
      | pop hcase | popEmpty hcase => simp at hcase
      | save hstored => simpa using hstored.symm.trans hfctx
    | @switch t x y f k now rest stack hactive hstack htarget hsaved =>
      obtain rfl : y = .main u := by simpa [Event.thread, switched] using hv
      have hthread : (switched s t x rest (.main u) k stack).thread t =
          ⟨some (.main u), .save x k :: stack, some rest⟩ := by simp [switched]
      simp only [Event.thread, hthread]
      refine ⟨by simp, fun y k' hend => ?_⟩
      obtain ⟨⟨rfl, rfl⟩, rfl⟩ : (x = y ∧ k = k') ∧ stack = [.destroy u] := by simpa using hend
      cases f with
      | resume z k'' =>
        obtain ⟨rfl, -⟩ : z = .main u ∧ k'' = k := by simpa [Frame.target] using htarget
        -- a parked main context is in no hand
        have hopen :=
          ho.placed.held_free (t := t) (f := .resume (.main u) k'') (by simp [hstack]) rfl .parked
        simp only [State.slot, State.parked] at hopen
        exact absurd (by simp) (ho.placed.closing.leftOpen u _ (.inl hsaved) (by simpa using hopen))
      | returnToMain w =>
        obtain rfl : w = u := by simpa [Frame.target] using congrArg (Option.map Prod.fst) htarget
        refine ⟨ho.shape.frames t x hactive (.returnToMain w) (by simp [hstack]), ?_⟩
        exact congrArg some (below_bottom (hstack ▸ hscript.running t) rfl)
      | _ => simp [Frame.target] at htarget

theorem Ending.endsReturned (h : Ending s) (ho : Orderly s) (hstep : Lutask.step s e = some s') :
    e.endsReturned s := by
  cases step_inv hstep with
  | @frame t x f now rest r hactive hstack hframe =>
    cases f with
    | destroy u =>
      obtain rfl : x = .main u := ho.shape.frames t x hactive (.destroy u) (by simp [hstack])
      rcases ho.placed.closing.destructor_stack hactive (by simp [hstack]) with hlast | ⟨g, hlast, hg⟩
      · exact (h t u hactive).1 hlast
      · obtain ⟨rfl, -⟩ := List.cons.inj (hstack.symm.trans hlast)
        rcases hg with hg | hg <;> simp [Frame.carried] at hg
    | _ => trivial
  | @switch t x y f k now rest stack hactive hstack htarget hsaved =>
    cases f <;> simp [Frame.target] at htarget <;> trivial
  | call => trivial

/-- What the end of a thread rests on, as long as nobody sleeps or yields to its origin. -/
structure Concluding (s : State T) : Prop where
  orderly : Orderly s
  scripted : Scripted s
  dispatching : Dispatching s
  ending : Ending s

theorem Concluding.initial (policy : T → Policy) : Concluding (State.initial policy) :=
  ⟨Orderly.initial policy, Scripted.initial policy, Dispatching.initial policy, Ending.initial policy⟩

theorem Concluding.step (h : Concluding s) (he : e.keepsPlaces) (hstep : Lutask.step s e = some s') :
    Concluding s' where
  orderly := h.orderly.step he hstep
  scripted := h.scripted.step h.orderly.shape hstep
  dispatching := h.dispatching.step h.orderly.shape h.orderly.continued h.scripted hstep
  ending := h.ending.step h.orderly h.dispatching h.scripted hstep

/-- In every run without these two operations main gets control back from its dispatcher. -/
theorem Runs.endsReturned {policy : T → Policy} {guard : State T → Event T → Prop} {events : List (Event T)}
    (h : Runs policy guard events s) (hguard : ∀ s e, guard s e → e.keepsPlaces) :
    Runs policy (fun s e => e.endsReturned s) events s := by
  have hkept := h.fired.strengthen (I := Concluding) (Concluding.initial policy)
    fun s e s' hs he hstep => hs.step (hguard s e he.1) hstep
  refine hkept.weaken fun s e ⟨hs, _, hfires⟩ => ?_
  obtain ⟨s', hstep⟩ := Option.isSome_iff_exists.mp hfires
  exact hs.ending.endsReturned hs.orderly hstep

end Return

section Queues

/-- What thread `u` executes after the loop of its dispatcher. -/
inductive Exiting (s : State T) (u : T) : Prop
  | returning (hactive : (s.thread u).active = some (.dispatcher u))
      (hstack : (s.thread u).stack = [.returnToMain u])
  | saving (hactive : (s.thread u).active = some (.main u))
      (hstack : (s.thread u).stack = [.save (.dispatcher u) .suspendWithCC, .destroy u])
  | ending (hactive : (s.thread u).active = some (.main u)) (hstack : (s.thread u).stack = [.destroy u])
  | over (hactive : (s.thread u).active = none)

/-- A scheduler whose dispatcher has left its loop has no workers. -/
structure Departed (s : State T) (u : T) : Prop where
  exiting : Exiting s u
  workers : (s.sched u).workerQueue = []
  terminated : (s.sched u).terminatedQueue = []

/-- The frames that enter a context into a queue that `~Scheduler` looks at. -/
def Frame.enrolls : Frame T → Bool
  | .postAttach _ | .attachResume .. | .terminateRemove .. => true
  | _ => false

omit [DecidableEq T] in
/-- After the loop of the dispatcher nothing is entered any more. -/
theorem Exiting.not_enrolls (h : Exiting s u) (hactive : (s.thread u).active = some x)
    (htop : (s.thread u).stack = f :: rest) : f.enrolls = false := by
  rcases h with ⟨-, hstack⟩ | ⟨-, hstack⟩ | ⟨-, hstack⟩ | hnone
  · obtain ⟨rfl, -⟩ := List.cons.inj (htop.symm.trans hstack)
    rfl
  · obtain ⟨rfl, -⟩ := List.cons.inj (htop.symm.trans hstack)
    rfl
  · obtain ⟨rfl, -⟩ := List.cons.inj (htop.symm.trans hstack)
    rfl
  · simp [hnone] at hactive

/-- The way out is one way. -/
theorem Exiting.step (h : Exiting s u) (hclosing : Closing s) (hstep : Lutask.step s e = some s') :
    Exiting s' u := by
  by_cases hthread : u = e.thread
  · rcases h with ⟨hactive, hstack⟩ | ⟨hactive, hstack⟩ | ⟨hactive, hstack⟩ | hnone
    · obtain ⟨x, now, rfl, hx, ⟨r, hframe, rfl⟩ | ⟨y, k, stack, htarget, hc, rfl⟩⟩ :=
        step_top hstep hthread.symm hstack
      · cases hframe with
        | pop hf | popEmpty hf => simp at hf
      · obtain ⟨rfl, rfl⟩ : Ctx.main u = y ∧ Switch.suspendWithCC = k := by
          simpa [Frame.target] using htarget
        obtain rfl := Option.some.inj (hactive.symm.trans hx)
        have hshutdown := hclosing.shutdown u (.returnToMain u) u (by simp [hstack]) rfl
        obtain rfl := hclosing.left u stack (.inl hc) hshutdown
        exact .saving (by simp [switched]) (by simp [switched])
    · obtain ⟨x, now, rfl, hx, ⟨r, hframe, rfl⟩ | ⟨y, k, stack, htarget, -⟩⟩ :=
        step_top hstep hthread.symm hstack
      · cases hframe with
        | pop hf | popEmpty hf => simp at hf
        | save hfctx => exact .ending (by simpa using hactive) (by simp [Switch.onTop])
      · simp [Frame.target] at htarget
    · obtain ⟨x, now, rfl, hx, ⟨r, hframe, rfl⟩ | ⟨y, k, stack, htarget, -⟩⟩ :=
        step_top hstep hthread.symm hstack
      · cases hframe with
        | pop hf | popEmpty hf => simp at hf
        | destroy => exact .over (by simp [Lutask.destroy])
      · simp [Frame.target] at htarget
    · cases step_inv hstep with
      | call hactive | frame hactive | switch hactive =>
        rw [hthread] at hnone
        cases hactive.symm.trans hnone
  · have hsame := step_thread_of_ne hstep hthread
    rcases h with ⟨hactive, hstack⟩ | ⟨hactive, hstack⟩ | ⟨hactive, hstack⟩ | hnone
    · exact .returning (hsame ▸ hactive) (hsame ▸ hstack)
    · exact .saving (hsame ▸ hactive) (hsame ▸ hstack)
    · exact .ending (hsame ▸ hactive) (hsame ▸ hstack)
    · exact .over (hsame ▸ hnone)

/-- No operation writes `terminatedQueue_` in its first action. -/
theorem OpStep.terminatedQueue (h : OpStep s x op r) (u : T) :
    (r.1.sched u).terminatedQueue = (s.sched u).terminatedQueue := by
  cases h <;> simp [Lutask.start, Lutask.yield, Lutask.waitUntil, Lutask.terminate, Lutask.destructor,
    workerQueueRemove, Function.update_apply] <;> split_ifs <;> simp_all

/-- `ProcTerminated` empties `terminatedQueue_`, and only `Scheduler::Terminate` enters a context. -/
theorem FrameStep.terminatedQueue (h : FrameStep s t x now f r) (u : T) :
    (r.1.sched u).terminatedQueue = (s.sched u).terminatedQueue ∨ (r.1.sched u).terminatedQueue = [] ∨
      ∃ y, f = .terminateRemove u y := by
  cases h with
  | @terminateRemove v w =>
    by_cases huv : u = v
    · exact .inr (.inr ⟨w, by rw [huv]⟩)
    · exact .inl (by simp [Lutask.terminateRemove, huv])
  | @exit v hworkers | @iterate v =>
    by_cases huv : u = v
    · exact .inr (.inl (by simp [procTerminated, Lutask.iterate, huv]))
    · exact .inl (by simp [procTerminated, Lutask.iterate, huv])
  | schedule hu | wake hu | scheduleOn | dispatchShutdown => exact .inl (by simp)
  | @postAttach v w hu hmtx | @attachResume v w k hu hmtx | @detach v w hasync hu
  | @schedulerTerminate v w hu hmtx | @unlockMtx v | @destroy v | @pop f v k y rest hf hqueue
  | @procSleepDue v n w rest hsleep hdue | @suspendUntilFlag v tp hpol hflag | @suspended v tp hawake =>
    left
    by_cases huv : u = v <;>
      simp [workerQueuePush, detachWorkerContext, workerQueueRemove, Lutask.destroy, huv]
  | _ => exact .inl rfl

/-- A step leaves empty queues empty, unless their thread enters a context that it has in its hand. -/
theorem Attended.stays_empty (h : Attended s) (hstep : Lutask.step s e = some s')
    (hworkers : (s.sched u).workerQueue = []) (hterminated : (s.sched u).terminatedQueue = []) :
    (s'.sched u).workerQueue = [] ∧ (s'.sched u).terminatedQueue = [] ∨
      ∃ x f rest, (s.thread u).active = some x ∧ (s.thread u).stack = f :: rest ∧ f.enrolls := by
  cases step_inv hstep with
  | @call t x op r hactive hstack huser hop =>
    refine .inl ⟨?_, by simp [hop.terminatedQueue, hterminated]⟩
    rcases hop.workerQueue u with hsame | ⟨-, -, hfilter⟩
    · simp [hsame, hworkers]
    · simp [hfilter, hworkers]
  | @frame t x f now rest r hactive hstack hframe =>
    have hown : (∃ y, (f = .postAttach y ∨ ∃ k, f = .attachResume y k) ∧ (s.ctx x).scheduler = some u) ∨
        (∃ y, f = .terminateRemove u y) → ∃ x f rest, (s.thread u).active = some x ∧
          (s.thread u).stack = f :: rest ∧ f.enrolls := by
      rintro (⟨y, hf, hsched⟩ | ⟨y, rfl⟩)
      · obtain rfl := Option.some.inj ((h.resident.active t x hactive).symm.trans hsched)
        exact ⟨x, f, rest, hactive, hstack, by rcases hf with rfl | ⟨k, rfl⟩ <;> rfl⟩
      · obtain rfl : u = t := h.resident.frames t (.terminateRemove u y) (by simp [hstack])
        exact ⟨x, _, rest, hactive, hstack, rfl⟩
    rcases hframe.workerQueue u with hsame | ⟨y, hf, hsched, -⟩ | ⟨y, -, hfilter⟩
    · rcases hframe.terminatedQueue u with hkept | hempty | hterminate
      · exact .inl ⟨by simp [hsame, hworkers], by simp [hkept, hterminated]⟩
      · exact .inl ⟨by simp [hsame, hworkers], by simp [hempty]⟩
      · exact .inr (hown (.inr hterminate))
    · exact .inr (hown (.inl ⟨y, hf, hsched⟩))
    · rcases hframe.terminatedQueue u with hkept | hempty | hterminate
      · exact .inl ⟨by simp [hfilter, hworkers], by simp [hkept, hterminated]⟩
      · exact .inl ⟨by simp [hfilter, hworkers], by simp [hempty]⟩
      · exact .inr (hown (.inr hterminate))
  | switch => exact .inl ⟨hworkers, hterminated⟩

theorem Departed.step (h : Departed s u) (ha : Attended s) (hclosing : Closing s)
    (hstep : Lutask.step s e = some s') : Departed s' u := by
  have hexiting := h.exiting.step hclosing hstep
  rcases ha.stays_empty hstep h.workers h.terminated
    with ⟨hworkers, hterminated⟩ | ⟨x, f, rest, hx, htop, hf⟩
  · exact ⟨hexiting, hworkers, hterminated⟩
  · simp [h.exiting.not_enrolls hx htop] at hf

/-- At the end of its loop the dispatcher has found `workerQueue_` empty, and empties `terminatedQueue_`. -/
theorem Departed.of_leavesLoop (ha : Attended s) (hscript : Scripted s) (hleaves : e.leavesLoop s u)
    (hstep : Lutask.step s e = some s') : Departed s' u := by
  cases step_inv hstep with
  | @frame t x f now rest r hactive hstack hframe =>
    cases f with
    | exitTest v =>
      obtain ⟨rfl, hempty⟩ : v = u ∧ (s.sched v).workerQueue = [] := hleaves
      obtain rfl : x = .dispatcher v := ha.shape.frames t x hactive (.exitTest v) (by simp [hstack])
      obtain rfl := ha.own_thread hactive
      obtain rfl := below_bottom (hstack ▸ hscript.running v) rfl
      cases hframe with
      | pop hf | popEmpty hf => simp at hf
      | exit hworkers =>
        exact ⟨.returning (by simpa [procTerminated] using hactive) (by simp),
          by simpa [procTerminated] using hempty, by simp [procTerminated]⟩
      | stay hworkers => exact absurd hempty hworkers
    | _ => exact absurd hleaves id
  | @switch t x y f k now rest stack hactive hstack htarget hsaved =>
    cases f <;> simp [Frame.target] at htarget <;> exact absurd hleaves id
  | call => exact absurd hleaves id

/-- The thread of a dispatcher that is nowhere is on its way out. -/
def Vacated (s : State T) : Prop :=
  ∀ u, (∀ p, s.places (.dispatcher u) p = 0) → Departed s u

theorem Vacated.initial (policy : T → Policy) : Vacated (State.initial policy) := fun u hnowhere => by
  have hqueue := hnowhere (.slot (.queue u))
  simp [State.places, State.slot, State.initial] at hqueue

theorem Vacated.step (h : Vacated s) (ha : Attended s) (hclosing : Closing s) (hscript : Scripted s)
    (he : Careful s e) (hstep : Lutask.step s e = some s') : Vacated s' := by
  intro u hnowhere'
  by_cases hnowhere : ∀ p, s.places (.dispatcher u) p = 0
  · exact (h u hnowhere).step ha hclosing hstep
  · rcases ha.apart.steps ha.shape ha.continued he.1 he.2.1 hstep (y := .dispatcher u) (by simp) with
      (hsame | ⟨a, b, hmove⟩) | ⟨⟨v, hv, hleaves⟩, -⟩
    · exact absurd (hsame ▸ hnowhere') hnowhere
    · have hgiven := hmove.given
      simp [hnowhere'] at hgiven
    · obtain rfl := Ctx.dispatcher.inj hv
      exact Departed.of_leavesLoop ha hscript hleaves hstep

end Queues

section Assertions

/-- What `~Scheduler` leaves behind: the queues that it asserts to be empty, and a dispatcher that
has returned and is in no queue, on no thread and in the hand of no function. -/
structure Concluded (s : State T) (u : T) : Prop where
  workers : (s.sched u).workerQueue = []
  terminated : (s.sched u).terminatedQueue = []
  sleeping : (s.sched u).sleepQueue = []
  returned : (s.ctx (.dispatcher u)).c = some []
  nowhere : ∀ p, s.places (.dispatcher u) p = 0

/-- The assertions of `~Scheduler` never fail: up to the first other assertion that fails, in every
run in which nobody sleeps or yields to its origin and no context of a work-sharing scheduler is
woken while it runs, main gets to the end of `~Scheduler` only when the queues are empty and
`Dispatch` has returned, and so it stays. -/
theorem destructor_concludes {policy : T → Policy} {events : List (Event T)}
    (h : Runs policy (fun s e => e.keepsPlaces ∧ Careful s e) events s) {u : T}
    (hend : (s.sched u).deleted ∨
      ∃ t, (s.thread t).active = some (.main u) ∧ (s.thread t).stack.head? = some (.destroy u)) :
    Concluded s u := by
  obtain ⟨hs, ha, hretired, hvacated⟩ :=
    h.invariant (I := fun s => Concluding s ∧ Attended s ∧ Retired s ∧ Vacated s)
      ⟨Concluding.initial policy, Attended.initial policy, Retired.initial policy, Vacated.initial policy⟩
      fun s e s' ⟨hs, ha, hretired, hvacated⟩ ⟨hkeeps, hcareful⟩ hstep =>
        ⟨hs.step hkeeps hstep, ha.step hcareful hstep,
          hretired.step hs.dispatching ha.shape ha.continued
            (hs.ending.endsReturned hs.orderly hstep) hstep,
          hvacated.step ha hs.orderly.placed.closing hs.scripted hcareful hstep⟩
  have hreturned : (s.ctx (.dispatcher u)).c = some [] := by
    rcases hend with hdeleted | ⟨t, hactive, htop⟩
    · exact hretired.returned u hdeleted
    · obtain ⟨rest, hstack⟩ := List.head?_eq_some_iff.mp htop
      obtain rfl := below_bottom (hstack ▸ hs.scripted.running t) rfl
      exact (hs.ending t u hactive).1 hstack
  have hnowhere := ((hs.dispatching.left u [] (.inl hreturned)).resolve_left (by simp)).2
  have hdeparted := hvacated u hnowhere
  exact ⟨hdeparted.workers, hdeparted.terminated, hs.orderly.placed.awake u, hreturned, hnowhere⟩

/-- Two threads: the first one starts a fiber with `Async`, which terminates on the second one, and
exits. -/
theorem async_terminated_concludes : ∃ events s,
    Runs (fun _ : Bool => .sharedWork) (fun s e => e.keepsPlaces ∧ Careful s e) events s ∧
      (s.ctx (.worker 0)).terminated ∧ (s.sched false).deleted ∧ Concluded s false := by
  obtain ⟨events, s, hrun, hterminated, hdeleted⟩ : ∃ events s, Runs (fun _ : Bool => .sharedWork)
      (fun s e => e.keepsPlaces ∧ Careful s e) events s ∧
        ((s.ctx (.worker 0)).terminated ∧ (s.sched false).deleted) :=
    reaches_of_drive [.call false (.main false) (.start .async), .frames false 2 0,
      .call true (.main true) .yield, .frames true 5 0, .call true (.worker 0) .terminate, .frames true 6 0,
      .call false (.main false) .destructor, .frames false 9 0] (by decide)
  exact ⟨events, s, hrun, hterminated, hdeleted, destructor_concludes hrun (.inl hdeleted)⟩

end Assertions

end Lutask
