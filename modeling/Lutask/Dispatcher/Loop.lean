import Lutask.Machine.Waiting
import Lutask.Machine.Pinned

/-!
# What a dispatcher executes

The stack of a dispatcher context holds nothing but the functions that `Dispatch` calls. So a
dispatcher never waits in a wait queue, and the only way in which it leaves for good is the return
of `Dispatch`. Like the shape of the stacks this holds in every run.
-/

namespace Lutask

open LabelledRuns

variable {T : Type*}

/-- The frames of functions that only the users' code calls. -/
def Frame.isUser : Frame T → Bool
  | .postAttach _ | .wake _ | .pickNext _ (some _) | .pickLocal _ (some _) | .schedulerTerminate _
  | .terminateRemove .. | .unlockMtx _ | .suspendAndWait .. | .suspend .. | .wait .. | .waitUnlock ..
  | .relock .. | .waitPred .. | .cvNotifyOne _ | .cvNotifyAll _ | .notifyOne _ | .notifyAll _
  | .destroy _ => true
  | .attachResume _ k | .resume _ k => k.leaves
  | _ => false

/-- Dispatchers execute nothing but their loop, and they neither wait nor terminate. -/
structure Looping (s : State T) : Prop where
  running : ∀ t u, (s.thread t).active = some (.dispatcher u) →
    ∀ f ∈ (s.thread t).stack, f.isUser = false
  left : ∀ u stack, s.Left (.dispatcher u) stack → ∀ f ∈ stack, f.isUser = false
  waits : ∀ q u, .dispatcher u ∉ s.waits q
  wakes : ∀ t, ∀ f ∈ (s.thread t).stack, ∀ u, f ≠ .wake (.dispatcher u)
  terminated : ∀ x, x.isPinned → (s.ctx x).terminated = false

theorem Looping.initial (policy : T → Policy) : Looping (State.initial policy) where
  running t u h := by simp [State.initial] at h
  left u stack h f hf := by
    cases h with
    | inl hc =>
      obtain rfl : [Frame.dispatch u] = stack := by simpa [State.initial, Context.initial] using hc
      simp_all [Frame.isUser]
    | inr hsave =>
      obtain ⟨t, k, rest, hstack, -⟩ := hsave
      simp [State.initial] at hstack
  waits q u h := by simp [State.initial] at h
  wakes t f hf := by simp [State.initial] at hf
  terminated x hx := by
    cases x with
    | main t | dispatcher t => rfl
    | worker n => simp [Ctx.isPinned] at hx

variable [DecidableEq T] {s s' : State T} {t : T} {x y : Ctx T} {now : ℕ} {f : Frame T} {op : Op T}
  {r : Rest T} {e : Event T}

/-- The functions that `Dispatch` calls only call each other. -/
theorem FrameStep.not_user (h : FrameStep s t x now f r) (hf : f.isUser = false) :
    ∀ g ∈ r.2, g.isUser = false := by
  cases h with
  | schedule hu | scheduleOn =>
    rcases schedule_cases s _ _ with ⟨-, hr⟩ | ⟨-, -, hr⟩ <;> rw [hr] <;> simp [Frame.isUser]
  | @pop f u k y rest hcase hqueue =>
    cases k with
    | none => simp [Frame.isUser, switchOf, Switch.leaves]
    | some k => rcases hcase with rfl | ⟨rfl, -⟩ <;> simp [Frame.isUser] at hf
  | @pickReady u k y rest hpolicy hready =>
    cases k with
    | none => simp [Frame.isUser, switchOf, Switch.leaves]
    | some k => simp [Frame.isUser] at hf
  | @pickReadyEmpty u k hpolicy hready =>
    cases k with
    | none => simp [Frame.isUser]
    | some k => simp [Frame.isUser] at hf
  | @save prev k stack hfctx => cases k <;> simp [Switch.onTop, Frame.isUser]
  | attachResume hu hmtx => simpa [Frame.isUser] using hf
  | _ => simp_all [Lutask.iterate, Frame.isUser]

/-- A stack that was left behind was so before the step, or belongs to a new worker, or is what the
active context had below the switch that it has executed. -/
theorem step_left (hs : Shape s) (hstep : Lutask.step s e = some s') {stack : List (Frame T)}
    (h : s'.Left y stack) : s.Left y stack ∨ y.isPinned = false ∧ stack = [] ∨
      ∃ v g, (s.thread v).active = some y ∧ (s.thread v).stack = g :: stack := by
  cases step_inv hstep with
  | call hactive hstack huser hop => exact (hop.left h).imp_right .inl
  | frame hactive hstack hframe => exact .inl (hframe.left hs hactive hstack h)
  | @switch t x z g k now rest saved hactive hstack htarget hc =>
    refine (switched_left h).imp_right fun hcaller => .inr ⟨t, g, ?_, ?_⟩
    · rw [hactive, hcaller.1]
    · rw [hstack, hcaller.2]

/-- Every step leaves the dispatchers in their loops. -/
theorem Looping.step (h : Looping s) (hs : Shape s) (hstep : Lutask.step s e = some s') :
    Looping s' := by
  refine ⟨fun v u hv f hf => ?_, fun u stack hl f hf => ?_, fun q u hu => ?_, ?_, fun y hy => ?_⟩
  · cases step_inv hstep with
    | @call t x op r hactive hstack huser hop =>
      by_cases hvt : v = t
      · subst hvt
        obtain rfl : x = .dispatcher u := by simpa [hop.thread, hactive] using hv
        simp [Ctx.runsUserCode] at huser
      · simp only [State.setStack_thread_of_ne _ hvt, hop.thread] at hv hf
        exact h.running v u hv f hf
    | @frame t x g now rest r hactive hstack hframe =>
      by_cases hvt : v = t
      · subst hvt
        have hloop : (s.thread v).active = some (.dispatcher u) := by
          cases hframe.active with
          | inl hsame => simpa [hsame] using hv
          | inr hnone =>
            obtain ⟨w, -, hnone⟩ := hnone
            simp [hnone] at hv
        cases List.mem_append.mp (by simpa using hf : f ∈ r.2 ++ rest) with
        | inl hnew => exact hframe.not_user (h.running v u hloop g (by simp [hstack])) f hnew
        | inr hbelow => exact h.running v u hloop f (by simp [hstack, hbelow])
      · simp only [State.setStack_thread_of_ne _ hvt, hframe.thread_of_ne hvt] at hv hf
        exact h.running v u hv f hf
    | @switch t x z g k now rest stack hactive hstack htarget hc =>
      by_cases hvt : v = t
      · subst hvt
        obtain rfl : z = .dispatcher u := by simpa [switched] using hv
        cases List.mem_cons.mp (by simpa [switched] using hf : f ∈ .save x k :: stack) with
        | inl hnew => simp [hnew, Frame.isUser]
        | inr hold => exact h.left u stack (.inl hc) f hold
      · exact h.running v u (by simpa [switched, hvt] using hv) f (by simpa [switched, hvt] using hf)
  · rcases step_left hs hstep hl with hold | ⟨-, rfl⟩ | ⟨v, g, hactive, hstack⟩
    · exact h.left u stack hold f hf
    · simp at hf
    · exact h.running v u hactive f (by simp [hstack, hf])
  · cases step_waited hstep hu with
    | inl hold => exact h.waits q u hold
    | inr hpush =>
      -- the context that waits is the active one
      cases hactive : (s.thread e.thread).active with
      | none => simpa [Frame.isSettled] using hs.idle _ hactive _ hpush
      | some x =>
        obtain rfl : .dispatcher u = x := hs.frames _ x hactive _ hpush
        simpa [Frame.isUser] using h.running _ u hactive _ hpush
  · refine hs.frames_step h.wakes hstep (fun f hf u => ?_) (fun _ _ _ => by simp)
      (fun t x op r _ hop f hf u => ?_) fun t x f now r _ hf hframe g hg u => ?_
    · rintro rfl
      simp [Frame.isSettled] at hf
    · rintro rfl
      exact hop.not_wake hf
    · rintro rfl
      obtain ⟨q, queue, hwaits, -⟩ := hframe.wakes hg
      exact h.waits q u (by simp [hwaits])
  · by_contra hterm
    cases step_terminates hstep (by simpa using hterm) with
    | inl hold => simp [h.terminated y hy] at hold
    | inr hcall =>
      obtain ⟨t, rfl⟩ := hcall
      obtain ⟨-, -, r, hop, -⟩ := step_call hstep
      cases hop with
      | terminate hpin => simp [hpin] at hy

theorem Runs.looping {policy : T → Policy} {guard : State T → Event T → Prop} {events : List (Event T)}
    (h : Runs policy guard events s) : Looping s :=
  (Run.invariant (I := fun s => Shape s ∧ Looping s) h ⟨Shape.initial _, Looping.initial _⟩
    fun _ _ _ hs _ hstep => ⟨hs.1.step hstep, hs.2.step hs.1 hstep⟩).2

omit [DecidableEq T] in
/-- A dispatcher that leaves is about to return from `Dispatch`. -/
theorem Looping.leaves (h : Looping s) {u : T} (hactive : (s.thread t).active = some (.dispatcher u))
    (hf : f ∈ (s.thread t).stack) (hleaves : f.leaves) : ∃ v, f = .returnToMain v := by
  have hloop := h.running t u hactive f hf
  cases f with
  | returnToMain v => exact ⟨v, rfl⟩
  | pickNext v k | pickLocal v k =>
    cases k <;> simp_all [Frame.isUser, Frame.leaves, switchOf, Switch.leaves]
  | _ => simp_all [Frame.isUser, Frame.leaves]

end Lutask
