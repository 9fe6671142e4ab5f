import Lutask.Dispatcher.Queued
import Lutask.Dispatcher.SleepQueue
import Lutask.Machine.Script

/-!
# The return of `Dispatch`

Whatever the users do, a dispatcher is in one place as long as it is in its loop, and in none once
`Dispatch` has returned to main. So nobody resumes it then, and the end of `~Scheduler` can release
its stack.
-/

namespace Lutask

open LabelledRuns TokenPlacement

variable {T : Type*}

/-- The head of the loop of `Dispatch`, and what is left of one turn of it. -/
def Frame.inLoop : Frame T → Bool
  | .dispatch _ | .exitTest _ | .iterate _ | .returnToMain _ => true
  | _ => false

variable [DecidableEq T]

/-- What holds of the dispatchers in every run. One that was left without anything to execute has
returned. -/
structure Dispatching (s : State T) : Prop where
  exclusive : ∀ u, Exclusive (s.places (.dispatcher u))
  awake : ∀ u v, .dispatcher u ∉ (s.sched v).sleepQueue
  running : ∀ t u, (s.thread t).active = some (.dispatcher u) → ∃ f ∈ (s.thread t).stack, f.inLoop
  left : ∀ u stack, s.Left (.dispatcher u) stack →
    (∃ f ∈ stack, f.inLoop) ∨ stack = [] ∧ ∀ p, s.places (.dispatcher u) p = 0
  returned : Returned s

variable {s s' : State T} {t : T} {x y : Ctx T} {now : ℕ} {f : Frame T} {op : Op T} {r : Rest T}
  {e : Event T}

theorem Dispatching.initial (policy : T → Policy) : Dispatching (State.initial policy) where
  exclusive u := (Placed.initial policy).exclusive _
  awake u v h := by simp [State.initial] at h
  running t u h := by simp [State.initial] at h
  left u stack h := by
    rcases h with h | ⟨t, k, rest, h, -⟩
    · obtain rfl : [Frame.dispatch u] = stack := by simpa [State.initial, Context.initial] using h
      exact .inl ⟨.dispatch u, by simp, rfl⟩
    · simp [State.initial] at h
  returned t u h := by simp [State.initial] at h

/-- One turn of the loop leaves the next one to execute. -/
theorem FrameStep.inLoop (h : FrameStep s t x now f r) (hf : f.inLoop) : ∃ g ∈ r.2, g.inLoop := by
  cases h with
  | pop hcase | popEmpty hcase => rcases hcase with rfl | ⟨rfl, -⟩ <;> simp [Frame.inLoop] at hf
  | dispatchShutdown hshut | dispatch hshut | exit hworkers | stay hworkers => simp [Frame.inLoop]
  | iterate => simp [Lutask.iterate, Frame.inLoop]
  | _ => simp [Frame.inLoop] at hf

/-- A context that yields to its origin is not a dispatcher, and no other context moves. -/
theorem OpStep.places_yieldOrigin (h : OpStep s x .yieldOrigin r) (hactive : (s.thread t).active = some x)
    (hstack : (s.thread t).stack = []) (horigin : (s.ctx x).originScheduler ≠ none) (hxy : x ≠ y) :
    (r.1.setStack t r.2).places y = s.places y := by
  cases h with
  | yieldOriginNone hu hnone => exact absurd hnone horigin
  | @yieldOrigin u origin hu hsome =>
    have hothers : ∀ v, v ≠ t → (((workerQueueRemove s u x).setCtx x
        { s.ctx x with scheduler := none }).setStack t [.scheduleOn origin x]).thread v = s.thread v :=
      fun v hv => by simp [State.setStack_thread_of_ne _ hv, workerQueueRemove]
    funext p
    cases p with
    | active v =>
      by_cases hv : v = t
      · subst hv
        simp [State.places, workerQueueRemove, hactive, hxy]
      · simp only [State.places, hothers v hv]
    | hand v =>
      by_cases hv : v = t
      · subst hv
        simp [State.places, hstack, Frame.held, hxy]
      · simp only [State.places, hothers v hv]
    | slot a =>
      refine congrFun (State.slot_congr (fun v => ?_) (by rfl) (by rfl) ?_ (fun v => ?_) (by rfl)) a
      · by_cases hv : v = u <;> simp [workerQueueRemove, hv]
      · simp [workerQueueRemove, hxy.symm]
      · by_cases hv : v = u <;> simp [workerQueueRemove, hv]

/-- Every step moves a dispatcher at most once, or its loop ends. -/
theorem Dispatching.steps (h : Dispatching s) (hs : Shape s) (hc : Continued s)
    (hstep : Lutask.step s e = some s') (u : T) :
    Steps (s.places (.dispatcher u)) (s'.places (.dispatcher u)) ∨
      ∃ a, Drops a (s.places (.dispatcher u)) (s'.places (.dispatcher u)) := by
  by_cases horigin : e.keepsOrigin s
  · have hsteps := hs.places_step hc (h.exclusive u) (by simp)
      (fun v _ hhead => h.awake u v (List.mem_of_mem_head? hhead)) horigin hstep
    exact hsteps.imp_right fun ⟨_, v, hdrops⟩ => ⟨.active v, hdrops⟩
  · cases step_inv hstep with
    | @call t x op r hactive hstack huser hop =>
      have hx : x ≠ .dispatcher u := by
        rintro rfl
        simp [Ctx.runsUserCode] at huser
      cases op with
      | yieldOrigin => exact .inl (.inl (hop.places_yieldOrigin hactive hstack horigin hx))
      | _ => exact absurd trivial horigin
    | frame | switch => exact absurd trivial horigin

omit [DecidableEq T] in
/-- What a thread is about to resume is in its hand, unless it is the main context to which
`Dispatch` returns. -/
theorem Frame.held_of_target {k : Switch T} (h : f.target = some (y, k)) (hy : ∀ u, y ≠ .main u) :
    f.held = some y := by
  cases f with
  | resume z k' =>
    obtain ⟨rfl, -⟩ : z = y ∧ k' = k := by simpa [Frame.target] using h
    rfl
  | returnToMain u =>
    obtain ⟨rfl, -⟩ : Ctx.main u = y ∧ Switch.suspendWithCC = k := by simpa [Frame.target] using h
    exact absurd rfl (hy u)
  | _ => simp [Frame.target] at h

/-- A dispatcher that is in no place is not resumed. -/
theorem not_resumed_of_nowhere {u : T} {k : Switch T} {rest : List (Frame T)}
    (hnowhere : ∀ p, s.places (.dispatcher u) p = 0) (hstack : (s.thread t).stack = f :: rest) :
    f.target ≠ some (.dispatcher u, k) := fun htarget => by
  have hhand := hnowhere (.hand t)
  simp [State.places, hstack, Frame.held_of_target htarget (by simp)] at hhand

/-- Every step leaves the dispatchers in their loops until they return. -/
theorem Dispatching.step (h : Dispatching s) (hs : Shape s) (hc : Continued s) (hscript : Scripted s)
    (hstep : Lutask.step s e = some s') : Dispatching s' := by
  have hsteps := h.steps hs hc hstep
  have hkept : ∀ u stack, s.Left (.dispatcher u) stack →
      (∃ f ∈ stack, f.inLoop) ∨ stack = [] ∧ ∀ p, s'.places (.dispatcher u) p = 0 := fun u stack hu =>
    (h.left u stack hu).imp_right fun ⟨hempty, hnowhere⟩ => ⟨hempty, zero_of_steps hnowhere (hsteps u)⟩
  have hexclusive : ∀ u, Exclusive (s'.places (.dispatcher u)) := fun u =>
    (hsteps u).elim (h.exclusive u).steps fun ⟨_, hdrops⟩ => (h.exclusive u).drops hdrops
  have hreturned := h.returned.step hs h.exclusive hsteps hstep
  cases step_inv hstep with
  | @call t x op r hactive hstack huser hop =>
    refine ⟨hexclusive, fun u v hu => ?_, fun v u hv => ?_, fun u stack hu => ?_, hreturned⟩
    · rcases hop.inserts v with hsame | ⟨-, -, hinserted⟩
      · exact h.awake u v (hsame ▸ hu)
      · rcases (List.mem_orderedInsert _).mp (hinserted ▸ hu) with rfl | hold
        · simp [Ctx.runsUserCode] at huser
        · exact h.awake u v hold
    · rw [State.setStack_active, hop.thread] at hv
      by_cases hvt : v = t
      · subst hvt
        obtain rfl : x = .dispatcher u := Option.some.inj (hactive.symm.trans hv)
        simp [Ctx.runsUserCode] at huser
      · rw [State.setStack_thread_of_ne _ hvt, hop.thread]
        exact h.running v u hv
    · rcases hop.left hu with hold | ⟨hworker, -⟩
      · exact hkept u stack hold
      · simp [Ctx.isPinned] at hworker
  | @frame t x f now rest r hactive hstack hframe =>
    refine ⟨hexclusive, fun u v hu => ?_, fun v u hv => ?_,
      fun u stack hu => hkept u stack (hframe.left hs hactive hstack hu), hreturned⟩
    · rcases hframe.erases with ⟨hsame, -⟩ | ⟨w, y, hqueue, hother, -⟩
      · exact h.awake u v (hsame v ▸ hu)
      · by_cases hvw : v = w
        · subst hvw
          exact h.awake u v (hqueue ▸ List.mem_cons_of_mem y hu)
        · exact h.awake u v (hother v hvw ▸ hu)
    · by_cases hvt : v = t
      · subst hvt
        have hx : (s.thread v).active = some (.dispatcher u) := by
          rw [State.setStack_active] at hv
          rcases hframe.active with hsame | ⟨w, -, hnone⟩
          · rwa [← hsame]
          · simp [hnone] at hv
        obtain ⟨g, hg, hloop⟩ := h.running v u hx
        suffices ∃ g ∈ r.2 ++ rest, g.inLoop by simpa using this
        rcases List.mem_cons.mp (hstack ▸ hg) with rfl | hbelow
        · obtain ⟨g', hg', hloop'⟩ := hframe.inLoop hloop
          exact ⟨g', List.mem_append_left _ hg', hloop'⟩
        · exact ⟨g, List.mem_append_right _ hbelow, hloop⟩
      · rw [State.setStack_active, hframe.thread_of_ne hvt] at hv
        rw [State.setStack_thread_of_ne _ hvt, hframe.thread_of_ne hvt]
        exact h.running v u hv
  | @switch t x y f k now rest stack hactive hstack htarget hsaved =>
    refine ⟨hexclusive, h.awake, fun v u hv => ?_, fun u left hu => ?_, hreturned⟩
    · by_cases hvt : v = t
      · subst hvt
        obtain rfl : y = .dispatcher u := by simpa [switched] using hv
        rcases h.left u stack (.inl hsaved) with ⟨g, hg, hloop⟩ | ⟨-, hnowhere⟩
        · exact ⟨g, by simp [switched, hg], hloop⟩
        · exact absurd htarget (not_resumed_of_nowhere hnowhere hstack)
      · simpa [switched, hvt] using h.running v u (by simpa [switched, hvt] using hv)
    · rcases switched_left hu with hold | ⟨rfl, rfl⟩
      · exact hkept u left hold
      · obtain ⟨g, hg, hloop⟩ := h.running t u hactive
        rcases List.mem_cons.mp (hstack ▸ hg) with rfl | hbelow
        · cases g with
          | returnToMain w =>
            obtain rfl : u = w :=
              Ctx.dispatcher.inj (hs.frames t _ hactive (.returnToMain w) (by simp [hstack]))
            exact .inr ⟨below_bottom (hstack ▸ hscript.running t) rfl,
              zero_of_steps (h.returned t u (by simp [hstack])) (hsteps u)⟩
          | _ => simp_all [Frame.inLoop, Frame.target]
        · exact .inl ⟨g, hbelow, hloop⟩

/-- A dispatcher that has returned stays where it is. -/
theorem Dispatching.stays_returned (h : Dispatching s) (hc : Continued s) {u : T}
    (hreturned : (s.ctx (.dispatcher u)).c = some []) (hstep : Lutask.step s e = some s') :
    (s'.ctx (.dispatcher u)).c = some [] := by
  cases step_inv hstep with
  | @call t x op r hactive hstack huser hop =>
    rcases hop.c (.dispatcher u) with hsame | ⟨-, hw, -⟩
    · simpa [hsame] using hreturned
    · simp at hw
  | @frame t x f now rest r hactive hstack hframe =>
    rcases hframe.c (.dispatcher u) with hsame | ⟨k, rfl, -, -⟩
    · simpa [hsame] using hreturned
    · simp [(hc.busy t _ (.inr ⟨k, rest, hstack⟩)).2] at hreturned
  | @switch t x y f k now rest stack hactive hstack htarget hsaved =>
    have hne : .dispatcher u ≠ y := by
      rintro rfl
      rcases h.left u [] (.inl hreturned) with ⟨g, hg, -⟩ | ⟨-, hnowhere⟩
      · simp at hg
      · exact not_resumed_of_nowhere hnowhere hstack htarget
    simpa [switched, hne] using hreturned

/-- `~Scheduler` gets the control back because `Dispatch` has returned. -/
def Event.endsReturned (s : State T) : Event T → Prop
  | .exec _ _ (.destroy u) _ => (s.ctx (.dispatcher u)).c = some []
  | _ => True

/-- The schedulers that are gone leave a dispatcher that has returned and a main context that has
stopped. -/
structure Retired (s : State T) : Prop where
  returned : ∀ u, (s.sched u).deleted → (s.ctx (.dispatcher u)).c = some []
  stopped : ∀ u, (s.sched u).deleted → (s.ctx (.main u)).c = none ∧ ∀ t, ¬ s.Busy t (.main u)

omit [DecidableEq T] in
theorem Retired.initial (policy : T → Policy) : Retired (State.initial policy) where
  returned u h := by simp [State.initial] at h
  stopped u h := by simp [State.initial] at h

/-- A context without a continuation that does not run stays so. -/
theorem stays_stopped (hs : Shape s) (hx : s.started x) (hempty : (s.ctx x).c = none)
    (hidle : ∀ t, ¬ s.Busy t x)
    (hstep : Lutask.step s e = some s') : (s'.ctx x).c = none ∧ ∀ t, ¬ s'.Busy t x := by
  cases step_inv hstep with
  | @call v z op r hactive hstack huser hop =>
    refine ⟨?_, fun t hbusy => hidle t ((hop.busy hstack t x).mp hbusy)⟩
    rcases hop.c x with hsame | ⟨-, rfl, -⟩
    · simpa [hsame] using hempty
    · simp [State.started] at hx
  | @frame v z f now rest r hactive hstack hframe =>
    refine ⟨?_, fun t hbusy => hidle t ((hframe.busy hs hactive hstack t x).1 hbusy)⟩
    rcases hframe.c x with hsame | ⟨k, rfl, -, -⟩
    · simpa [hsame] using hempty
    · exact absurd (.inr ⟨k, rest, hstack⟩) (hidle v)
  | @switch v z y f k now rest stack hactive hstack htarget hsaved =>
    have hne : x ≠ y := by
      rintro rfl
      simp [hempty] at hsaved
    refine ⟨by simpa [switched, hne] using hempty, fun t hbusy => ?_⟩
    exact ((switched_busy hactive hstack htarget t x).mp hbusy).elim (hidle t) fun hnew => hne hnew.2

theorem Retired.step (h : Retired s) (hd : Dispatching s) (hs : Shape s) (hc : Continued s)
    (he : e.endsReturned s) (hstep : Lutask.step s e = some s') : Retired s' := by
  have hreturned := fun u hu => hd.stays_returned hc (h.returned u hu) hstep
  have hstopped := fun u hu => stays_stopped hs rfl (h.stopped u hu).1 (h.stopped u hu).2 hstep
  cases step_inv hstep with
  | call hactive hstack huser hop =>
    exact ⟨fun u hu => hreturned u (hop.deleted u ▸ hu), fun u hu => hstopped u (hop.deleted u ▸ hu)⟩
  | @frame t x f now rest r hactive hstack hframe =>
    refine ⟨fun u hu => ?_, fun u hu => ?_⟩ <;> rcases hframe.deleted u with hsame | ⟨rfl, -⟩
    · exact hreturned u (hsame ▸ hu)
    · exact hd.stays_returned hc he hstep
    · exact hstopped u (hsame ▸ hu)
    · -- main has run on this thread, and does not any more
      obtain rfl : x = .main u := hs.frames t x hactive (.destroy u) (by simp [hstack])
      have hbusy : s.Busy t (.main u) := .inl hactive
      have hnosave := hframe.noSave hs hactive hstack (.main u)
      cases hframe with
      | pop hcase | popEmpty hcase => simp at hcase
      | destroy =>
        refine ⟨by simpa [Lutask.destroy] using (hc.busy t _ hbusy).2, fun v hv => ?_⟩
        by_cases hvt : v = t
        · subst hvt
          rw [State.busy_iff_active (by simpa [Lutask.destroy] using hnosave)] at hv
          simp [Lutask.destroy] at hv
        · refine hvt (hc.unique v t _ ?_ hbusy)
          simpa [State.Busy, State.setStack_thread_of_ne _ hvt, Lutask.destroy, hvt] using hv
  | switch => exact ⟨fun u hu => hreturned u hu, fun u hu => hstopped u hu⟩

/-- A context exists from its construction on, and a dispatcher until its scheduler is gone. -/
def State.present (s : State T) (x : Ctx T) : Prop :=
  s.started x ∧ ∀ u, x = .dispatcher u → (s.sched u).deleted = false

omit [DecidableEq T] in
theorem State.present_congr (hstarted : s'.started = s.started)
    (hdeleted : ∀ u, (s'.sched u).deleted = (s.sched u).deleted) : s'.present = s.present := by
  funext x
  simp only [State.present, hstarted, hdeleted]

omit [DecidableEq T] in
/-- A context that runs, or that is about to be stored, exists. -/
theorem Retired.present (h : Retired s) (hc : Continued s) (hbusy : s.Busy t x) : s.present x := by
  obtain ⟨hstarted, hempty⟩ := hc.busy t x hbusy
  refine ⟨hstarted, fun u hu => ?_⟩
  subst hu
  by_contra hdeleted
  simp [h.returned u (by simpa using hdeleted)] at hempty

end Lutask
