import Lutask.Machine.Continuation

/-!
# Where a suspended context goes on

The stack that a context leaves behind by `Resume(lk)` goes on in the `Wait` of the condition variable
that this lock belongs to, at `lt.lock()`. No other switch leaves such a stack behind. Which condition
variable that is can be read off the saved stack, in every run and whatever operations are called.
-/

namespace Lutask

open LabelledRuns

variable {T : Type*}

/-- The condition variable in whose `Wait` a stack goes on, if it does in any. -/
def waitsIn : List (Frame T) → Option ℕ
  | .relock q _ _ _ :: _ => some q
  | _ => none

/-- The condition variable whose `Wait` makes a switch. -/
def Switch.cv : Switch T → Option ℕ
  | .resumeUnlock q => some q
  | _ => none

/-- What `waitsIn` of the stack below a frame is, for the frames on the way to a switch. -/
def Frame.above : Frame T → Option (Option ℕ)
  | .wait q _ _ | .waitUnlock q _ _ => some (some q)
  | .suspendAndWait q _ | .suspend q _ => some q.switch.cv
  | .pickNext u k | .pickLocal u k => some (switchOf u k).cv
  | .attachResume _ k | .resume _ k => some k.cv
  | .dispatch _ | .exitTest _ | .iterate _ | .returnToMain _ => some none
  | _ => none

/-- Every frame on the way to a switch lies on the stack that the switch is going to leave behind. -/
def Aligned : List (Frame T) → Prop
  | [] => True
  | f :: rest => (∀ q ∈ f.above, waitsIn rest = q) ∧ Aligned rest

/-- The stacks of all threads and contexts are aligned. -/
structure Suspension (s : State T) : Prop where
  running : ∀ t, Aligned (s.thread t).stack
  saved : ∀ y stack, (s.ctx y).c = some stack → Aligned stack
  handed : ∀ t prev k rest stack, (s.thread t).stack = .save prev k :: rest →
    (s.thread t).fctx = some stack → Aligned stack ∧ waitsIn stack = k.cv

/-- The condition variable in whose `Wait` a context is suspended. -/
def State.waitsIn (s : State T) (y : Ctx T) : Option ℕ :=
  (s.ctx y).c.bind Lutask.waitsIn

theorem Suspension.initial (policy : T → Policy) : Suspension (State.initial policy) where
  running t := trivial
  saved y stack h := by
    cases y with
    | dispatcher t =>
      obtain rfl : [Frame.dispatch t] = stack := by simpa [State.initial, Context.initial] using h
      exact ⟨by simp [Frame.above, Lutask.waitsIn], trivial⟩
    | main t | worker n => simp [State.initial, Context.initial] at h
  handed t prev k rest stack h := by simp [State.initial] at h

/-- A switch leaves behind the stack that its frame lies on. -/
theorem Frame.above_of_target {f : Frame T} {y : Ctx T} {k : Switch T} (h : f.target = some (y, k)) :
    f.above = some k.cv := by
  cases f with
  | resume z k' =>
    obtain ⟨-, rfl⟩ : z = y ∧ k' = k := by simpa [Frame.target] using h
    rfl
  | returnToMain u =>
    obtain ⟨-, rfl⟩ : Ctx.main u = y ∧ Switch.suspendWithCC = k := by simpa [Frame.target] using h
    rfl
  | _ => simp [Frame.target] at h

variable [DecidableEq T] {s s' : State T} {t : T} {x y : Ctx T} {now : ℕ} {f : Frame T} {op : Op T}
  {r : Rest T} {e : Event T} {rest : List (Frame T)}

/-- Every operation starts with an aligned stack. -/
theorem OpStep.aligned (h : OpStep s x op r) : Aligned r.2 := by
  cases h with
  | start launch => cases launch <;> simp [Lutask.start, Aligned, Frame.above, Lutask.waitsIn, Switch.cv]
  | _ => simp [Lutask.yield, Lutask.waitUntil, Lutask.terminate, Lutask.destructor, Aligned, Frame.above,
      Lutask.waitsIn, switchOf, Switch.cv, WaitQueue.switch]

/-- What a frame leaves to execute is aligned where the frame was. -/
theorem FrameStep.aligned (h : FrameStep s t x now f r) (hf : Aligned (f :: rest)) :
    Aligned (r.2 ++ rest) := by
  obtain ⟨habove, hrest⟩ := hf
  cases h with
  | schedule hu | wake hu | scheduleOn =>
    rcases schedule_cases s _ _ with ⟨-, hr⟩ | ⟨-, -, hr⟩ <;> rw [hr] <;>
      simp [Aligned, Frame.above, hrest]
  | pop hcase hqueue => rcases hcase with rfl | ⟨rfl, -⟩ <;> exact ⟨habove, hrest⟩
  | popEmpty hcase hqueue => exact ⟨by simp [Frame.above], hrest⟩
  | pickReady | pickReadyEmpty | attachResume | wait | waitUnlock | suspendAndWait | suspend
  | dispatchShutdown | dispatch | exit | stay => exact ⟨habove, hrest⟩
  | iterate => exact ⟨by simp [Frame.above], by simp [Frame.above, Lutask.waitsIn, switchOf, Switch.cv],
      habove, hrest⟩
  | @save prev k stack hfctx => cases k <;> simp [Switch.onTop, Aligned, Frame.above, hrest]
  | @relock q l p y hl => cases p <;> simp [relockNext, Aligned, Frame.above, hrest]
  | @notifyOne q y queue hwaits | @notifyOneEmpty q hwaits | @notifyAllEmpty q hwaits =>
    cases q <;> simp [WaitQueue.afterNotify, Aligned, Frame.above, hrest]
  | _ => simp [Lutask.destroy, Lutask.terminateRemove, Aligned, Frame.above, Lutask.waitsIn, switchOf,
      Switch.cv, hrest]

/-- Every step keeps the stacks aligned. -/
theorem Suspension.step (h : Suspension s) (hs : Shape s) (hstep : Lutask.step s e = some s') :
    Suspension s' := by
  cases step_inv hstep with
  | @call t x op r hactive hstack huser hop =>
    refine ⟨fun v => ?_, fun y stack hy => ?_, fun v prev k below stack hv hfctx => ?_⟩
    · by_cases hvt : v = t
      · subst hvt
        simpa using hop.aligned
      · simpa [State.setStack_thread_of_ne _ hvt, hop.thread] using h.running v
    · rw [State.setStack_ctx] at hy
      rcases hop.c y with hsame | ⟨-, -, hnew⟩
      · exact h.saved y stack (hsame ▸ hy)
      · obtain rfl : [] = stack := Option.some.inj (hnew.symm.trans hy)
        trivial
    · by_cases hvt : v = t
      · subst hvt
        have hframes : r.2 = .save prev k :: below := by simpa using hv
        exact absurd (by simp [hframes]) (hop.leaves.noSave prev k)
      · simp only [State.setStack_thread_of_ne _ hvt, hop.thread] at hv hfctx
        exact h.handed v prev k below stack hv hfctx
  | @frame t x f now rest r hactive hstack hframe =>
    refine ⟨fun v => ?_, fun y stack hy => ?_, fun v prev k below stack hv hfctx => ?_⟩
    · by_cases hvt : v = t
      · subst hvt
        simpa using hframe.aligned (hstack ▸ h.running v)
      · simpa [State.setStack_thread_of_ne _ hvt, hframe.thread_of_ne hvt] using h.running v
    · rw [State.setStack_ctx] at hy
      rcases hframe.c y with hsame | ⟨k, rfl, -, hsaved⟩
      · exact h.saved y stack (hsame ▸ hy)
      · exact (h.handed t y k rest stack hstack (hsaved.symm.trans hy)).1
    · by_cases hvt : v = t
      · subst hvt
        have hframes : r.2 ++ rest = .save prev k :: below := by simpa using hv
        exact absurd (by simpa using hv) (hframe.noSave hs hactive hstack prev k below)
      · simp only [State.setStack_thread_of_ne _ hvt, hframe.thread_of_ne hvt] at hv hfctx
        exact h.handed v prev k below stack hv hfctx
  | @switch t x y f k now rest stack hactive hstack htarget hc =>
    obtain ⟨habove, hrest⟩ : Aligned (f :: rest) := hstack ▸ h.running t
    have hleft : waitsIn rest = k.cv := habove k.cv (by simp [Frame.above_of_target htarget])
    refine ⟨fun v => ?_, fun z stack' hz => ?_, fun v prev k' below stack' hv hfctx => ?_⟩
    · by_cases hvt : v = t
      · subst hvt
        simpa [switched, Aligned, Frame.above] using h.saved y stack hc
      · simpa [switched, hvt] using h.running v
    · by_cases hzy : z = y
      · simp [switched, hzy] at hz
      · exact h.saved z stack' (by simpa [switched, hzy] using hz)
    · by_cases hvt : v = t
      · subst hvt
        obtain ⟨⟨-, rfl⟩, -⟩ : (x = prev ∧ k = k') ∧ stack = below := by simpa [switched] using hv
        obtain rfl : rest = stack' := by simpa [switched] using hfctx
        exact ⟨hrest, hleft⟩
      · exact h.handed v prev k' below stack' (by simpa [switched, hvt] using hv)
          (by simpa [switched, hvt] using hfctx)

end Lutask
