import Lutask.Machine.Schedule
import Lutask.Machine.Waiting

/-!
# `Join` and `Terminate`

A joiner reads `terminated_`, pushes itself onto `waitList_` and is switched out, without a lock. Two
windows are open to the worker that terminates on another thread meanwhile. Between the test and the
push its `NotifyAll` finds nobody, and between the push and the end of the switch it finds a context
whose continuation is not stored yet. A worker that sets `terminated_` while nobody is in either window
is joined correctly, whatever else the threads do: later callers of `Join` find the flag set, and those
who wait stay as they are until they are woken.
-/

namespace Lutask

open LabelledRuns

variable {T : Type*}

/-- The context whose continuation a frame is about to store. -/
def Frame.stores : Frame T → Option (Ctx T)
  | .save prev _ => some prev
  | _ => none

theorem State.busy_iff {s : State T} {t : T} {y : Ctx T} :
    s.Busy t y ↔ (s.thread t).active = some y ∨
      ∃ f ∈ (s.thread t).stack.head?, f.stores = some y := by
  refine or_congr_right ⟨?_, ?_⟩
  · rintro ⟨k, rest, hstack⟩
    exact ⟨.save y k, by simp [hstack], rfl⟩
  rintro ⟨f, hf, hstores⟩
  obtain ⟨rest, hstack⟩ := List.head?_eq_some_iff.mp hf
  cases f with
  | save prev k =>
    obtain rfl : prev = y := Option.some.inj hstores
    exact ⟨k, rest, hstack⟩
  | _ => simp [Frame.stores] at hstores

instance [DecidableEq T] (s : State T) (t : T) (y : Ctx T) : Decidable (s.Busy t y) :=
  decidable_of_iff _ State.busy_iff.symm

/-- A call of `Join` on `w` is in one of its windows: its context has found `terminated_` false and is not
in `waitList_` yet, or it is, but its thread has not switched to another context and stored it. -/
def State.InWindow (s : State T) (w : Ctx T) : Prop :=
  (∃ t, ∃ f ∈ (s.thread t).stack, f.joins = some w) ∨
    ∃ y ∈ s.waits (.waitList w), ∃ t, s.Busy t y

/-- `w` does not set `terminated_` while a call of `Join` on it is in a window. -/
def Event.inTime (w : Ctx T) (s : State T) : Event T → Prop
  | .call _ x .terminate => x = w → ¬ s.InWindow w
  | _ => True

instance (w : Ctx Bool) (s : State Bool) : Decidable (s.InWindow w) :=
  inferInstanceAs (Decidable (_ ∨ _))

instance (w : Ctx Bool) (s : State Bool) : DecidablePred (Event.inTime w s)
  | .call t x op => by cases op <;> dsimp only [Event.inTime] <;> infer_instance
  | .exec .. => .isTrue trivial

/-- The runs in which `w` terminates between the calls of `Join` on it. -/
def JoinsInTime (w : Ctx T) (s : State T) (e : Event T) : Prop :=
  e.keepsPlaces ∧ e.inTime w s

instance (w : Ctx Bool) (s : State Bool) (e : Event Bool) : Decidable (JoinsInTime w s e) :=
  inferInstanceAs (Decidable (_ ∧ _))

/-- `w` has found all its joiners suspended, or has not terminated yet. -/
structure JoinersServed (w : Ctx T) (s : State T) : Prop where
  /-- The loop of `NotifyAll` runs when `terminated_` is set. -/
  begun : ∀ t, .notifyAll (.waitList w) ∈ (s.thread t).stack → (s.ctx w).terminated
  /-- Nobody is on the way to `waitList_` any more. -/
  arrived : (s.ctx w).terminated → ∀ t, ∀ f ∈ (s.thread t).stack, f.joins ≠ some w
  saved : (s.ctx w).terminated → ∀ y ∈ s.waits (.waitList w), (s.ctx y).c ≠ none
  woken : ∀ t y rest, (s.thread t).stack = .wake y :: .notifyAll (.waitList w) :: rest →
    (s.ctx y).c ≠ none
  emptied : (s.ctx w).terminated → (∀ t, .notifyAll (.waitList w) ∉ (s.thread t).stack) →
    s.waits (.waitList w) = []

theorem JoinersServed.initial (policy : T → Policy) (w : Ctx T) :
    JoinersServed w (State.initial policy) where
  begun t h := by simp [State.initial] at h
  arrived _ t f h := by simp [State.initial] at h
  saved _ y h := by simp [State.initial] at h
  woken t y rest h := by simp [State.initial] at h
  emptied _ _ := rfl

variable [DecidableEq T] {s s' : State T} {t v : T} {x y w : Ctx T} {f : Frame T} {e : Event T}

/-- The loop of `NotifyAll` on a `waitList_` is started by the call that sets `terminated_`. -/
theorem step_begun (ho : Orderly s)
    (h : ∀ t, .notifyAll (.waitList w) ∈ (s.thread t).stack → (s.ctx w).terminated)
    (hstep : step s e = some s') (ht : .notifyAll (.waitList w) ∈ (s'.thread t).stack) :
    (s'.ctx w).terminated := by
  have hstays (v : T) (hv : .notifyAll (.waitList w) ∈ (s.thread v).stack) : (s'.ctx w).terminated :=
    step_terminated hstep (ho.placed.started_of_terminated (h v hv)) (h v hv)
  refine ho.shape.frames_step (P := fun f => f = .notifyAll (.waitList w) → (s'.ctx w).terminated)
    (fun v f hf hnotify => hstays v (hnotify ▸ hf)) hstep (fun f hf hnotify => ?_)
    (fun _ _ hsave => by simp at hsave) (fun v x op r hcall hop f hf hnotify => ?_)
    (fun v x f now r _ hf hframe g hg hnotify => ?_) t _ ht rfl
  · simp [hnotify, Frame.isSettled] at hf
  · subst hnotify
    obtain ⟨rfl, rfl⟩ := hop.notifies.2 hf
    subst hcall
    obtain ⟨-, -, r', hop', rfl⟩ := step_call hstep
    cases hop' with
    | terminate hpin => simp [terminate]
  · subst hnotify
    exact hstays v (hframe.notifies.2 hg ▸ hf)

/-- A joiner that is about to be woken was so before, or has just been taken out of `waitList_`. -/
theorem step_wake_joiner (hs : Shape s) (hstep : step s e = some s') {rest : List (Frame T)}
    (htop : (s'.thread t).stack = .wake y :: .notifyAll (.waitList w) :: rest) :
    (s.thread t).stack = .wake y :: .notifyAll (.waitList w) :: rest ∨
      .notifyAll (.waitList w) ∈ (s.thread t).stack ∧ y ∈ s.waits (.waitList w) := by
  rcases step_wake hs hstep htop with ⟨hsame, -⟩ | ⟨-, q, queue, below, hwaits, hcase⟩
  · exact .inl hsame
  right
  rcases hcase with ⟨hstack, hrest⟩ | ⟨hstack, hrest⟩
  · -- `NotifyOne` is not called from inside another notification
    cases q with
    | cv q => simp [WaitQueue.afterNotify] at hrest
    | waitList z =>
      have hbelow : .notifyAll (.waitList w) :: rest = below := hrest
      have hsettled := settled_of_pairwise (hstack ▸ hs.below t) rfl (.notifyAll (.waitList w))
        (by simp [← hbelow])
      simp [Frame.isSettled] at hsettled
  · obtain rfl : q = .waitList w := (Frame.notifyAll.inj (List.cons.inj hrest).1).symm
    exact ⟨by simp [hstack], by simp [hwaits]⟩

/-- Who waits is suspended, and nobody is on the way, from before the step that sets `terminated_`. -/
theorem JoinersServed.settled (h : JoinersServed w s) (ho : Orderly s) (hw : Waiting s)
    (he : e.inTime w s) (hstep : Lutask.step s e = some s') (hterm : (s'.ctx w).terminated) :
    (∀ t, ∀ f ∈ (s.thread t).stack, f.joins ≠ some w) ∧
      ∀ y ∈ s.waits (.waitList w), (s.ctx y).c ≠ none := by
  cases step_terminates hstep hterm with
  | inl hold => exact ⟨h.arrived hold, h.saved hold⟩
  | inr hcall =>
    obtain ⟨t, rfl⟩ := hcall
    have hclear := he rfl
    exact ⟨fun v f hf hjoins => hclear (.inl ⟨v, f, hf, hjoins⟩), fun y hy =>
      hw.saved ho (State.away_of_waits hy) fun v hbusy => hclear (.inr ⟨y, hy, v, hbusy⟩)⟩

/-- Every step keeps the joiners served if `w` terminates in time. -/
theorem JoinersServed.step (h : JoinersServed w s) (ho : Orderly s) (hw : Waiting s)
    (he : e.inTime w s) (hstep : Lutask.step s e = some s') : JoinersServed w s' := by
  have hs := ho.shape
  have hbefore := h.settled ho hw he hstep
  have hstays : ∀ y ∈ s.waits (.waitList w), (s.ctx y).c ≠ none → (s'.ctx y).c ≠ none := by
    intro y hy hc
    refine (step_saved hstep hc).resolve_right fun hswitch => ?_
    obtain ⟨f, below, k, hstack, htarget⟩ := hswitch
    exact ho.target_not_waiting (hstack ▸ List.mem_cons_self) htarget hy
  have hwaited : (s'.ctx w).terminated → ∀ y ∈ s'.waits (.waitList w), y ∈ s.waits (.waitList w) :=
    fun hterm y hy => (step_waited hstep hy).resolve_right fun hpush =>
      (hbefore hterm).1 e.thread _ hpush rfl
  refine ⟨fun t ht => step_begun ho h.begun hstep ht, fun hterm => ?_, fun hterm y hy => ?_,
    fun t y rest htop => ?_, fun hterm hdone => ?_⟩
  · refine hs.frames_step (hbefore hterm).1 hstep (fun f hf => ?_) (fun _ _ => by simp [Frame.joins])
      (fun t x op r hcall hop f hf hjoins => ?_) fun t x f now r _ _ hframe g hg => by
        simp [hframe.joins g hg]
    · cases f <;> simp [Frame.isSettled] at hf <;> simp [Frame.joins]
    · obtain ⟨rfl, hopen⟩ := hop.joins hf hjoins
      subst hcall
      simpa [hopen] using step_terminates hstep hterm
  · have hy' := hwaited hterm y hy
    exact hstays y hy' ((hbefore hterm).2 y hy')
  · rcases step_wake_joiner hs hstep htop with hsame | ⟨hloop, hy⟩
    · exact saved_stays ho hsame (h.woken t y rest hsame) hstep
    · exact hstays y hy (h.saved (h.begun t hloop) y hy)
  · have hempty : s.waits (.waitList w) = [] := by
      by_cases hloop : ∃ t, .notifyAll (.waitList w) ∈ (s.thread t).stack
      · obtain ⟨t, ht⟩ := hloop
        exact ((step_notifyAll hs hstep ht).resolve_left (hdone t)).1
      · refine h.emptied ((step_terminates hstep hterm).resolve_right ?_) (not_exists.mp hloop)
        rintro ⟨t, rfl⟩
        obtain ⟨-, -, r, hop, rfl⟩ := step_call hstep
        cases hop with
        | terminate hpin => exact hdone t (by simp [terminate])
    exact List.eq_nil_iff_forall_not_mem.mpr fun y hy => by simpa [hempty] using hwaited hterm y hy

/-- What `Join` and the `Terminate` of worker `w` promise in a state `s` that a run has reached by
`events`. -/
structure Meets (policy : T → Policy) (w : Ctx T) (events : List (Event T)) (s : State T) : Prop where
  /-- No joiner is left behind when the loop of `NotifyAll` is finished. -/
  notLeft : (s.ctx w).terminated → (∀ t, .notifyAll (.waitList w) ∉ (s.thread t).stack) →
    s.waits (.waitList w) = []
  /-- A joiner has been saved when `NotifyAll` hands it to `Schedule`. -/
  saved : ∀ before after t x y n s₁ rest, events = before ++ .exec t x (.wake y) n :: after →
    Runs policy (fun _ _ => True) before s₁ →
      (s₁.thread t).stack = .wake y :: .notifyAll (.waitList w) :: rest → (s₁.ctx y).c ≠ none

theorem JoinersServed.of_runs {policy : T → Policy} {events : List (Event T)}
    (h : Runs policy (JoinsInTime w) events s) : JoinersServed w s :=
  (Run.invariant (I := fun s => Orderly s ∧ Waiting s ∧ JoinersServed w s) h
    ⟨Orderly.initial policy, Waiting.initial policy, JoinersServed.initial policy w⟩
    fun _ _ _ hs he hstep => ⟨hs.1.step he.1 hstep, hs.2.1.step hs.1 hstep,
      hs.2.2.step hs.1 hs.2.1 he.2 hstep⟩).2.2

/-- `Join` and `Terminate` on different threads do not miss each other in any run in which the worker
does not terminate in the middle of a `Join`. -/
theorem join_meets_terminate {policy : T → Policy} {events : List (Event T)}
    (h : Runs policy (JoinsInTime w) events s) : Meets policy w events s := by
  refine ⟨(JoinersServed.of_runs h).emptied, ?_⟩
  intro before after t x y n s₁ rest hevents hbefore hstack
  subst hevents
  obtain ⟨s₂, s₃, hrun, -, -, -⟩ := h.cut
  obtain rfl := hrun.unique hbefore
  exact (JoinersServed.of_runs hrun).woken t y rest hstack

/-- A fiber of one thread joins a fiber that runs on another one and terminates before the joiner has
pushed itself. -/
def leftBehind : List (Move Bool) :=
  [.call false (.main false) (.start .async), .frames false 2 0,
    .call true (.main true) .yield, .frames true 5 0,
    .call false (.main false) (.start .dispatch), .frames false 4 0,
    .call false (.worker 1) (.join (.worker 0)),
    .call true (.worker 0) .terminate, .frames true 1 0, .frames false 1 0]

/-- The same two fibers, but the worker terminates right after the push. -/
def wokenRunning : List (Move Bool) :=
  [.call false (.main false) (.start .async), .frames false 2 0,
    .call true (.main true) .yield, .frames true 5 0,
    .call false (.main false) (.start .dispatch), .frames false 4 0,
    .call false (.worker 1) (.join (.worker 0)), .frames false 1 0,
    .call true (.worker 0) .terminate, .frames true 1 0]

/-- In each window a joiner is missed: one waits for ever, the other one is made ready while it runs. -/
theorem join_misses_terminate :
    (∃ events s, Runs (fun _ : Bool => .sharedWork) (fun _ e => e.keepsPlaces) events s ∧
      .worker 1 ∈ s.waits (.waitList (.worker 0)) ∧
        ¬ Meets (fun _ : Bool => .sharedWork) (.worker 0) events s) ∧
    ∃ events s, Runs (fun _ : Bool => .sharedWork) (fun _ e => e.keepsPlaces) events s ∧
      ((s.thread false).active = some (.worker 1) ∧ .detach (.worker 1) ∈ (s.thread true).stack) ∧
        ¬ Meets (fun _ : Bool => .sharedWork) (.worker 0) events s := by
  constructor
  · obtain ⟨events, s, hrun, hterm, hdone, hleft⟩ : ∃ events s,
        Runs (fun _ : Bool => .sharedWork) (fun _ e => e.keepsPlaces) events s ∧
          ((s.ctx (.worker 0)).terminated ∧
            (∀ t, .notifyAll (.waitList (.worker 0)) ∉ (s.thread t).stack) ∧
              .worker 1 ∈ s.waits (.waitList (.worker 0))) :=
      reaches_of_drive leftBehind (by decide)
    refine ⟨events, s, hrun, hleft, fun hmeets => ?_⟩
    simp [hmeets.notLeft hterm hdone] at hleft
  · obtain ⟨events, s, hrun, hstack, hc, hactive, hstep⟩ : ∃ events s,
        Runs (fun _ : Bool => .sharedWork) (fun _ e => e.keepsPlaces) events s ∧
          ((s.thread true).stack = [.wake (.worker 1), .notifyAll (.waitList (.worker 0)),
              .schedulerTerminate (.worker 0)] ∧ (s.ctx (.worker 1)).c = none ∧
            (s.thread false).active = some (.worker 1) ∧
            (step s (.exec true (.worker 0) (.wake (.worker 1)) 0)).any fun s' =>
              decide (.detach (.worker 1) ∈ (s'.thread true).stack)) :=
      reaches_of_drive wokenRunning (by decide)
    obtain ⟨s', hs', hdetach⟩ := (Option.any_eq_true _ _).mp hstep
    have hactive' : (s'.thread false).active = some (.worker 1) := by
      rwa [step_thread_of_ne hs' (by simp [Event.thread])]
    have hkeeps : Event.keepsPlaces (.exec true (.worker 0) (.wake (.worker 1)) 0) := trivial
    refine ⟨_, s', hrun.snoc hkeeps hs', ⟨hactive', of_decide_eq_true hdetach⟩, fun hmeets => ?_⟩
    exact hmeets.saved events [] true _ _ 0 s _ rfl (hrun.weaken fun _ _ _ => trivial) hstack hc

/-- The worker terminates when the joiner has been switched out, and the joiner is made ready. -/
theorem join_meets_in_time :
    ∃ events s, Runs (fun _ : Bool => .sharedWork) (JoinsInTime (.worker 0)) events s ∧
      (.worker 1 ∈ s.readyQueue ∧ (s.ctx (.worker 0)).terminated) ∧
        Meets (fun _ : Bool => .sharedWork) (.worker 0) events s := by
  obtain ⟨events, s, hrun, hjoined⟩ : ∃ events s,
      Runs (fun _ : Bool => .sharedWork) (JoinsInTime (.worker 0)) events s ∧
        (.worker 1 ∈ s.readyQueue ∧ (s.ctx (.worker 0)).terminated) :=
    reaches_of_drive
      [.call false (.main false) (.start .async), .frames false 2 0,
        .call true (.main true) .yield, .frames true 5 0,
        .call false (.main false) (.start .dispatch), .frames false 4 0,
        .call false (.worker 1) (.join (.worker 0)), .frames false 6 0,
        .call true (.worker 0) .terminate, .frames true 5 0]
      (by decide)
  exact ⟨events, s, hrun, hjoined, join_meets_terminate hrun⟩

end Lutask
