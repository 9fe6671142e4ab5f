import Lutask.Machine.Placement

/-!
# Before a dispatcher leaves its loop

Until then a main context that called `~Scheduler` does not come back, so that no scheduler is
deleted and every context without a saved continuation is running.
-/

namespace Lutask

open LabelledRuns

variable {T : Type*} [DecidableEq T] {s : State T} {t : T} {x : Ctx T} {now : ℕ}

/-- No dispatcher has left its loop yet: a main context that called `~Scheduler` is still on its way
out of it, or was switched away from. -/
structure Enclosed (s : State T) : Prop where
  returns : ∀ t u, Frame.returnToMain u ∉ (s.thread t).stack
  running : ∀ t u, (s.thread t).active = some (.main u) → (s.sched u).shutdown →
    ∃ f, (s.thread t).stack = [f, .destroy u] ∧ f.leaves ∧ f.carried = some .resume
  kept : ∀ u, (s.sched u).deleted = false

omit [DecidableEq T] in
theorem Enclosed.initial (policy : T → Policy) : Enclosed (State.initial policy) where
  returns t u h := by simp [State.initial] at h
  running t u _ h := by simp [State.initial] at h
  kept u := rfl

/-- Only a dispatcher that leaves its loop returns to main. -/
theorem FrameStep.not_return {f : Frame T} {r : Rest T} (h : FrameStep s t x now f r)
    (hexit : ∀ u, f = .exitTest u → (s.sched u).workerQueue ≠ []) (u : T) :
    Frame.returnToMain u ∉ r.2 := by
  cases h with
  | schedule hu | wake hu | scheduleOn =>
    rcases schedule_cases s _ _ with ⟨-, hr⟩ | ⟨-, -, hr⟩ <;> rw [hr] <;> simp
  | @save prev k stack hfctx => cases k <;> simp [Switch.onTop]
  | @relock q l p y hl => cases p <;> simp [relockNext]
  | @notifyOne q y rest hwaits | @notifyOneEmpty q hwaits | @notifyAllEmpty q hwaits =>
    cases q <;> simp [WaitQueue.afterNotify]
  | exit hworkers => exact absurd hworkers (hexit _ rfl)
  | _ => simp [Lutask.iterate, Lutask.terminateRemove, Lutask.destroy]

/-- As long as no dispatcher leaves its loop no main context returns into `~Scheduler`. -/
theorem Enclosed.step {s' : State T} {e : Event T} (h : Enclosed s) (ho : Orderly s)
    (hexit : ¬ e.exits s) (hstep : step s e = some s') : Enclosed s' := by
  cases step_inv hstep with
  | @call t x op r hactive hstack huser hop =>
    have hidle : ∀ u, x = .main u → (s.sched u).shutdown = false := by
      rintro u rfl
      by_contra hshut
      obtain ⟨f, hf, -⟩ := h.running t u hactive (by simpa using hshut)
      simp [hstack] at hf
    refine ⟨fun v u hmem => ?_, fun v u hv hu => ?_, fun u => ?_⟩
    · by_cases hvt : v = t
      · subst hvt
        exact hop.not_closing (.returnToMain u) (by simpa using hmem) u rfl
      · exact h.returns v u (by simpa [State.setStack_thread_of_ne _ hvt, hop.thread] using hmem)
    · rcases hop.closing with ⟨w, rfl, hframes, hset, hothers⟩ | ⟨-, hsame⟩
      · by_cases hvt : v = t
        · subst hvt
          obtain rfl : w = u := by simpa [hop.thread, hactive] using hv
          exact ⟨.pickNext w (some .resume), by simp [hframes], rfl, rfl⟩
        · simp only [State.setStack_thread_of_ne _ hvt, hop.thread, State.setStack_sched] at hv hu ⊢
          have huw : u ≠ w := by
            rintro rfl
            exact hvt (ho.continued.unique v t _ (.inl hv) (.inl hactive))
          exact h.running v u hv (hothers u huw ▸ hu)
      · rw [State.setStack_sched, hsame] at hu
        by_cases hvt : v = t
        · subst hvt
          obtain rfl : x = .main u := by simpa [hop.thread, hactive] using hv
          simp [hidle u rfl] at hu
        · simp only [State.setStack_thread_of_ne _ hvt, hop.thread] at hv ⊢
          exact h.running v u hv hu
    · rw [State.setStack_sched, hop.deleted]
      exact h.kept u
  | @frame t x f now rest r hactive hstack hframe =>
    have hreturn := hframe.not_return fun u hf => by
      subst hf
      exact fun hworkers => hexit (decide_eq_true hworkers)
    have htop : ∀ u, x = .main u → (s.sched u).shutdown →
        rest = [.destroy u] ∧ f.leaves ∧ f.carried = some .resume := by
      rintro u rfl hu
      obtain ⟨g, hg, hleaves, hcarried⟩ := h.running t u hactive hu
      obtain ⟨rfl, rfl⟩ := List.cons.inj (hstack.symm.trans hg)
      exact ⟨rfl, hleaves, hcarried⟩
    -- the end of `~Scheduler` is not reached
    have hdestroy : ∀ u, f ≠ .destroy u := by
      rintro u rfl
      have hx := ho.shape.frames t x hactive (.destroy u) (by simp [hstack])
      cases hshut : (s.sched u).shutdown with
      | true => simpa [Frame.carried] using (htop u hx hshut).2.2
      | false =>
        exact ho.placed.closing.runningOpen t u (by rw [hactive, hx]) hshut (by simp [hstack])
    refine ⟨fun v u hmem => ?_, fun v u hv hu => ?_, fun u => ?_⟩
    · by_cases hvt : v = t
      · subst hvt
        rcases List.mem_append.mp (by simpa using hmem) with hnew | hold
        · exact hreturn u hnew
        · exact h.returns v u (by simp [hstack, hold])
      · exact h.returns v u
          (by simpa [State.setStack_thread_of_ne _ hvt, hframe.thread_of_ne hvt] using hmem)
    · rw [State.setStack_sched, hframe.shutdown] at hu
      by_cases hvt : v = t
      · subst hvt
        have hsame : (r.1.thread v).active = (s.thread v).active := by
          cases hframe.active with
          | inl hsame => exact hsame
          | inr hleft => exact absurd hleft.choose_spec.1 (hdestroy hleft.choose)
        obtain rfl : x = .main u := by simpa [hsame, hactive] using hv
        obtain ⟨rfl, hleaves, hcarried⟩ := htop u rfl hu
        obtain ⟨g, hg, hgl, hgc⟩ := hframe.carried hleaves hcarried
        exact ⟨g, by simp [hg], hgl, hgc⟩
      · simp only [State.setStack_thread_of_ne _ hvt, hframe.thread_of_ne hvt] at hv ⊢
        exact h.running v u hv hu
    · rcases hframe.deleted u with hsame | ⟨hf, -⟩
      · simpa [hsame] using h.kept u
      · exact absurd hf (hdestroy u)
  | @switch t x y f k now rest stack hactive hstack htarget hsaved =>
    have hparked : s.parked y = false := by
      cases f with
      | returnToMain u => exact absurd (by simp [hstack]) (h.returns t u)
      | resume z k' =>
        obtain ⟨rfl, -⟩ : z = y ∧ k' = k := by simpa [Frame.target] using htarget
        have hfree := ho.placed.held_free (t := t) (f := .resume z k') (by simp [hstack]) rfl .parked
        simpa [State.slot] using hfree
      | _ => simp [Frame.target] at htarget
    refine ⟨fun v u hmem => ?_, fun v u hv hu => ?_, h.kept⟩
    · by_cases hvt : v = t
      · subst hvt
        have hold : Frame.returnToMain u ∈ stack := by simpa [switched] using hmem
        simpa [Frame.isSettled] using (ho.shape.suspended y stack hsaved _ hold).1
      · exact h.returns v u (by simpa [switched, hvt] using hmem)
    · by_cases hvt : v = t
      · subst hvt
        obtain rfl : y = .main u := by simpa [switched] using hv
        have hshut : (s.sched u).shutdown := hu
        simp [State.parked, hshut] at hparked
      · simp only [switched, State.setThread_thread, Function.update_of_ne hvt] at hv ⊢
        exact h.running v u hv hu

/-- No scheduler is deleted in a run in which no dispatcher leaves its loop. -/
theorem Runs.enclosed {policy : T → Policy} {guard : State T → Event T → Prop}
    {events : List (Event T)} {s : State T} (h : Runs policy guard events s)
    (hguard : ∀ s e, guard s e → e.keepsPlaces ∧ ¬ e.exits s) : Enclosed s :=
  (Run.invariant (I := fun s => Orderly s ∧ Enclosed s) h
    ⟨Orderly.initial policy, Enclosed.initial policy⟩ fun s e _ hs he hstep =>
      ⟨hs.1.step (hguard s e he).1 hstep, hs.2.step hs.1 (hguard s e he).2 hstep⟩).2

end Lutask
