import Lutask.Dispatcher.Loop
import Lutask.Dispatcher.Residence
import Lutask.Join.Finished
import Lutask.RoundRobin.Order

/-!
# Where a context goes on

Whatever the other contexts and threads do in the meantime, a context that was left by a switch is resumed
with the frames that it left, on whichever thread, and a context that has terminated is never resumed.
-/

namespace Lutask

open LabelledRuns

variable {T : Type*}

variable {s s' : State T} {t : T} {x y : Ctx T} {e : Event T}

/-- A context that is left has one stack to go on with. -/
theorem State.Left.unique {stack stack' : List (Frame T)} (h : s.Left x stack) (hs : Continued s)
    (hc : (s.ctx x).c = some stack') : stack' = stack := by
  rcases h with hsaved | ⟨t, k, rest, htop, -⟩
  · exact Option.some.inj (hc.symm.trans hsaved)
  · simp [(hs.busy t x (.inr ⟨k, rest, htop⟩)).2] at hc

variable [DecidableEq T]

/-- Only a switch to a context takes the stack that it was left with. -/
theorem State.Left.step {stack : List (Frame T)} (h : s.Left x stack) (hs : Continued s)
    (hstep : Lutask.step s e = some s') (hother : e.resumes ≠ some x) : s'.Left x stack := by
  cases step_inv hstep with
  | @call v z op r hactive hstack huser hop =>
    rcases h with hsaved | ⟨t, k, rest, htop, hfctx⟩
    · rcases hop.c x with hsame | ⟨-, rfl, -⟩
      · exact .inl (by simpa [hsame] using hsaved)
      · have hborn := hs.saved (.worker s.fresh) (by simp [hsaved])
        simp [State.started] at hborn
    · have hne : t ≠ v := by
        rintro rfl
        simp [hstack] at htop
      refine .inr ⟨t, k, rest, ?_, ?_⟩
      · rw [State.setStack_thread_of_ne _ hne, hop.thread, htop]
      · rw [State.setStack_thread_of_ne _ hne, hop.thread, hfctx]
  | @frame v z f now rest r hactive hstack hframe =>
    rcases h with hsaved | ⟨t, k, below, htop, hfctx⟩
    · rcases hframe.c x with hsame | ⟨k, rfl, -, -⟩
      · exact .inl (by simpa [hsame] using hsaved)
      · -- a context is not saved twice
        simp [(hs.busy v x (.inr ⟨k, rest, hstack⟩)).2] at hsaved
    · by_cases hne : t = v
      · subst hne
        obtain ⟨rfl, rfl⟩ := List.cons.inj (hstack.symm.trans htop)
        cases hframe with
        | pop hf | popEmpty hf => simp at hf
        | save hstored => exact .inl (by simpa using hstored.symm.trans hfctx)
      · refine .inr ⟨t, k, below, ?_, ?_⟩
        · rw [State.setStack_thread_of_ne _ hne, hframe.thread_of_ne hne, htop]
        · rw [State.setStack_thread_of_ne _ hne, hframe.thread_of_ne hne, hfctx]
  | @switch v z y f k now rest stack' hactive hstack htarget hc =>
    have hne : x ≠ y := by
      rintro rfl
      simp [Event.resumes, Frame.resumes, htarget] at hother
    rcases h with hsaved | ⟨t, k', below, htop, hfctx⟩
    · exact .inl (by simpa [switched, hne] using hsaved)
    · have hvt : t ≠ v := by
        rintro rfl
        obtain ⟨rfl, -⟩ := List.cons.inj (hstack.symm.trans htop)
        simp [Frame.target] at htarget
      exact .inr ⟨t, k', below, by simp [switched, hvt, htop], by simp [switched, hvt, hfctx]⟩

/-- A switch is possible to a context that is saved. -/
theorem step_switch {f : Frame T} {k : Switch T} {now : ℕ} (htarget : f.target = some (y, k))
    (hstep : step s (.exec t x f now) = some s') : ∃ rest stack, (s.thread t).active = some x ∧
      (s.thread t).stack = f :: rest ∧ (s.ctx y).c = some stack ∧ s' = switched s t x rest y k stack := by
  cases step_inv hstep with
  | frame hactive hstack hframe => simp [hframe.target] at htarget
  | switch hactive hstack htarget' hc =>
    obtain ⟨rfl, rfl⟩ := Prod.mk.inj (Option.some.inj (htarget'.symm.trans htarget))
    exact ⟨_, _, hactive, hstack, hc, rfl⟩

/-- A context that was left by a switch goes on with the frames below that switch when it is resumed for
the first time after it, whichever thread resumes it and whatever happened in between. -/
theorem resumes_where_it_left {policy : T → Policy} {guard : State T → Event T → Prop} {t' : T}
    {z : Ctx T} {f g : Frame T} {k k' : Switch T} {n n' : ℕ} {before between : List (Event T)}
    (h : Runs policy guard (before ++ .exec t x f n :: (between ++ [.exec t' z g n'])) s)
    (hout : f.target = some (y, k)) (hbetween : ∀ e ∈ between, e.resumes ≠ some x)
    (hin : g.target = some (x, k')) :
    ∃ s₀ rest, Runs policy guard before s₀ ∧ (s₀.thread t).stack = f :: rest ∧
      (s.thread t').active = some x ∧ (s.thread t').stack = .save z k' :: rest := by
  obtain ⟨s₀, s₁, hbefore, hguard, hswitch, hafter⟩ := h.cut
  obtain ⟨s₂, s₃, hlater, -, hresume, hend⟩ := hafter.cut
  obtain rfl : s = s₃ := hend.eq_of_nil
  obtain ⟨rest, stack, -, hstack, -, rfl⟩ := step_switch hout hswitch
  have hleft : (switched s₀ t x rest y k stack).Left x rest :=
    .inr ⟨t, k, stack, by simp [switched], by simp [switched]⟩
  have hstart : Shape (switched s₀ t x rest y k stack) ∧ Continued (switched s₀ t x rest y k stack) :=
    ⟨(Runs.shape hbefore).step hswitch, (Runs.continued hbefore).step (Runs.shape hbefore) hswitch⟩
  have hkept := (hlater.restrict hbetween).invariant
    (I := fun s => (Shape s ∧ Continued s) ∧ s.Left x rest) ⟨hstart, hleft⟩
    fun s e s' hs he hstep => ⟨⟨hs.1.1.step hstep, hs.1.2.step hs.1.1 hstep⟩, hs.2.step hs.1.2 hstep he.2⟩
  obtain ⟨below, stack', -, -, hc, rfl⟩ := step_switch hin hresume
  obtain rfl := hkept.2.unique hkept.1.2 hc
  exact ⟨s₀, _, hbefore, hstack, by simp [switched], by simp [switched]⟩

/-- A worker starts to wait on thread `true`. -/
def workerWaits : List (Event Bool) :=
  [.call true (.main true) (.start .post), .exec true (.main true) (.postAttach (.worker 0)) 0,
    .exec true (.main true) (.schedule (.worker 0)) 0, .exec true (.main true) (.detach (.worker 0)) 0,
    .exec true (.main true) (.readyPush (.worker 0)) 0, .call true (.main true) .yield,
    .exec true (.main true) (.pickNext true (some (.resumeReady (.main true)))) 0,
    .exec true (.main true) (.attachResume (.worker 0) (.resumeReady (.main true))) 0,
    .exec true (.main true) (.resume (.worker 0) (.resumeReady (.main true))) 0,
    .exec true (.worker 0) (.save (.main true) (.resumeReady (.main true))) 0,
    .exec true (.worker 0) (.schedule (.main true)) 0, .call true (.worker 0) (.lock 0),
    .call true (.worker 0) (.wait 0 0), .exec true (.worker 0) (.wait 0 0 (.worker 0)) 0,
    .exec true (.worker 0) (.waitUnlock 0 0 (.worker 0)) 0,
    .exec true (.worker 0) (.suspendAndWait (.cv 0) (.worker 0)) 0,
    .exec true (.worker 0) (.suspend (.cv 0) (.worker 0)) 0,
    .exec true (.worker 0) (.pickNext true (some (.resumeUnlock 0))) 0,
    .exec true (.worker 0) (.pickLocal true (some (.resumeUnlock 0))) 0]

/-- Main of thread `false` notifies the worker and takes it over. -/
def otherThreadTakes : List (Event Bool) :=
  [.exec true (.dispatcher true) (.save (.worker 0) (.resumeUnlock 0)) 0,
    .exec true (.dispatcher true) (.unlockM 0) 0, .call false (.main false) (.notifyOne 0),
    .exec false (.main false) (.cvNotifyOne 0) 0, .exec false (.main false) (.notifyOne (.cv 0)) 0,
    .exec false (.main false) (.wake (.worker 0)) 0, .exec false (.main false) (.detach (.worker 0)) 0,
    .exec false (.main false) (.readyPush (.worker 0)) 0, .exec false (.main false) (.unlockM 0) 0,
    .call false (.main false) .yield,
    .exec false (.main false) (.pickNext false (some (.resumeReady (.main false)))) 0,
    .exec false (.main false) (.attachResume (.worker 0) (.resumeReady (.main false))) 0]

/-- The worker goes on in its `Wait` on the other thread. -/
theorem worker_goes_on_elsewhere : ∃ (s s₀ : State Bool) (rest : List (Frame Bool)),
    Runs (fun _ => .sharedWork) (fun _ _ => True) workerWaits s₀ ∧
      (s₀.thread true).stack = .resume (.dispatcher true) (.resumeUnlock 0) :: rest ∧
      (s.thread false).active = some (.worker 0) ∧
      (s.thread false).stack = .save (.main false) (.resumeReady (.main false)) :: rest := by
  have hplay : (play step (fun _ _ => true) (State.initial fun _ => .sharedWork) (workerWaits ++
      .exec true (.worker 0) (.resume (.dispatcher true) (.resumeUnlock 0)) 0 :: (otherThreadTakes ++
        [.exec false (.main false) (.resume (.worker 0) (.resumeReady (.main false))) 0]))).isSome := by
    decide
  obtain ⟨s, hs⟩ := Option.isSome_iff_exists.mp hplay
  have hrun : Runs (fun _ => .sharedWork) (fun _ _ => True) _ s := Run.of_play (fun _ _ _ => trivial) hs
  exact ⟨s, resumes_where_it_left hrun rfl (by decide) rfl⟩

/-- `x` has terminated and was left. -/
def Finished (x : Ctx T) (s : State T) : Prop :=
  (s.ctx x).terminated ∧ ∀ t, (s.thread t).active ≠ some x

/-- Nobody switches to a context that has terminated. -/
theorem Orderly.not_resumed {k : Switch T} {now : ℕ} {f : Frame T} (hs : Orderly s) (hloop : Looping s)
    (hterm : (s.ctx x).terminated) (hstep : Lutask.step s (.exec t y f now) = some s') :
    f.target ≠ some (x, k) := by
  intro htarget
  obtain ⟨-, rest, hstack⟩ := step_exec hstep
  cases f with
  | resume z k' =>
    obtain ⟨rfl, -⟩ : z = x ∧ k' = k := by simpa [Frame.target] using htarget
    have hfree := hs.placed.held_free (f := .resume z k') (t := t) (by simp [hstack]) rfl .terminated
    simp [State.slot, hterm] at hfree
  | returnToMain u =>
    obtain ⟨rfl, -⟩ : Ctx.main u = x ∧ Switch.suspendWithCC = k := by simpa [Frame.target] using htarget
    simp [hloop.terminated (.main u) rfl] at hterm
  | _ => simp [Frame.target] at htarget

theorem Finished.step (h : Finished x s) (hs : Orderly s) (hloop : Looping s)
    (hstep : Lutask.step s e = some s') : e.resumes ≠ some x ∧ Finished x s' := by
  have hstarted := hs.placed.started_of_terminated h.1
  have hresumes : e.resumes ≠ some x := by
    cases e with
    | call t y op => simp [Event.resumes]
    | exec t y f now =>
      intro hx
      obtain ⟨⟨z, k⟩, htarget, rfl⟩ := Option.map_eq_some_iff.mp hx
      exact hs.not_resumed hloop h.1 hstep htarget
  refine ⟨hresumes, step_terminated hstep hstarted h.1, fun v hv => ?_⟩
  cases step_inv hstep with
  | @call t y op r hactive hstack huser hop =>
    rw [State.setStack_active, hop.thread] at hv
    exact h.2 v hv
  | @frame t y f now rest r hactive hstack hframe =>
    rw [State.setStack_active] at hv
    by_cases hvt : v = t
    · subst hvt
      rcases hframe.active with hsame | ⟨u, -, hnone⟩
      · exact h.2 v (hsame ▸ hv)
      · simp [hnone] at hv
    · rw [hframe.thread_of_ne hvt] at hv
      exact h.2 v hv
  | @switch t y z f k now rest stack hactive hstack htarget hc =>
    by_cases hvt : v = t
    · subst hvt
      have hz : z = x := by simpa [switched] using hv
      simp [Event.resumes, Frame.resumes, htarget, hz] at hresumes
    · exact h.2 v (by simpa [switched, hvt] using hv)

/-- A context that has terminated and was switched out executes nothing any more, neither user's code nor
frames of the library, on any thread. -/
theorem finished_never_runs {policy : T → Policy} {s₀ : State T} {before after : List (Event T)}
    (hbefore : Runs policy (fun _ e => e.keepsPlaces) before s₀) (hterm : (s₀.ctx x).terminated)
    (hleft : ∀ t, (s₀.thread t).active ≠ some x)
    (hafter : Run step (fun _ e => e.keepsPlaces) s₀ after s) :
    (∀ t, (s.thread t).active ≠ some x) ∧ x ∉ resumptions after := by
  have hs₀ : Orderly s₀ := Runs.orderly hbefore fun _ _ he => he
  have hkept := hafter.invariant_labels
    (I := fun after s => (Orderly s ∧ Looping s ∧ Finished x s) ∧ x ∉ resumptions after)
    ⟨⟨hs₀, Runs.looping hbefore, hterm, hleft⟩, by simp [resumptions]⟩ fun after s e s' hs he hstep => by
      obtain ⟨⟨ho, hloop, hfinished⟩, hnot⟩ := hs
      obtain ⟨hresumes, hnext⟩ := hfinished.step ho hloop hstep
      refine ⟨⟨ho.step he hstep, hloop.step ho.shape hstep, hnext⟩, ?_⟩
      rw [resumptions_append, resumptions_singleton, List.mem_append, Option.mem_toList]
      exact not_or.mpr ⟨hnot, hresumes⟩
  exact ⟨hkept.1.2.2.2, hkept.2⟩

/-- A worker terminates and is left, and its thread goes on without it. -/
theorem terminated_worker_stays_away : ∃ (s : State Unit) (after : List (Event Unit)),
    (s.ctx (.worker 0)).terminated ∧ (s.thread ()).active = some (.main ()) ∧
      (∀ t, (s.thread t).active ≠ some (.worker 0)) ∧ .worker 0 ∉ resumptions after := by
  let allowed : State Unit → Event Unit → Bool := fun _ e => decide e.keepsPlaces
  let later : List (Move Unit) := [.frames () 1 0, .call () (.main ()) (.start .post), .frames () 2 0]
  obtain ⟨before, s₀, hbefore, hterm, hleft, hlater⟩ : ∃ before s₀,
      Runs (fun _ : Unit => .roundRobin) (fun _ e => e.keepsPlaces) before s₀ ∧
        ((s₀.ctx (.worker 0)).terminated ∧ (s₀.thread ()).active ≠ some (.worker 0) ∧
          (drive allowed later s₀).any fun s => (s.ctx (.worker 0)).terminated &&
            decide ((s.thread ()).active = some (.main ()))) :=
    reaches_of_drive [.call () (.main ()) (.start .post), .frames () 2 0, .call () (.main ()) .yield,
      .frames () 11 0, .call () (.worker 0) .terminate, .frames () 5 0] (by decide)
  obtain ⟨s, hs, hstate⟩ := (Option.any_eq_true _ _).mp hlater
  obtain ⟨after, hafter⟩ : ∃ after, Run step (fun _ e => e.keepsPlaces) s₀ after s :=
    run_of_drive (fun _ _ => of_decide_eq_true) hs
  rw [Bool.and_eq_true, decide_eq_true_eq] at hstate
  exact ⟨s, after, hstate.1, hstate.2, finished_never_runs hbefore hterm (fun _ => hleft) hafter⟩

end Lutask
