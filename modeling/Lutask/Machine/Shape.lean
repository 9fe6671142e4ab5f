import Lutask.Machine.Effects

/-!
# The shape of the stacks

Which frames may lie below which, and whose frames they are. A stack that a context leaves
behind holds only frames at which the library has nothing in its hands; calls are nested only
inside the notifications and the timer pass. All of this holds in every run of the machine,
whatever operations are called.
-/

namespace Lutask

open LabelledRuns

variable {T : Type*}

/-- The frames at which a context may stay suspended. -/
def Frame.isSettled : Frame T → Bool
  | .relock .. | .unlockMtx _ | .destroy _ | .dispatch _ => true
  | _ => false

/-- The frames of functions that are called from the middle of another library function. -/
def Frame.isInner : Frame T → Bool
  | .schedule _ | .scheduleOn .. | .wake _ | .detach _ | .readyPush _ | .cvNotifyOne _
  | .cvNotifyAll _ | .notifyOne (.cv _) | .notifyAll _ | .unlockM _ | .procSleep .. => true
  | _ => false

/-- The frames that wait for such a function to return. -/
def Frame.isOuter : Frame T → Bool
  | .notifyAll _ | .unlockM _ | .schedulerTerminate _ | .procSleep .. | .pickNext _ none => true
  | _ => false

/-- `g` may lie below `f`. -/
def Frame.Below (f g : Frame T) : Prop :=
  g.isSettled ∨ (f.isInner ∧ g.isOuter)

/-- A switch that makes a context ready makes the one ready that is being left. -/
def Switch.Of (x : Ctx T) : Switch T → Prop
  | .resumeReady readyCtx => readyCtx = x
  | _ => True

/-- The frame belongs to a function that context `x` executes. -/
def Frame.Of (x : Ctx T) : Frame T → Prop
  | .pickNext u k | .pickLocal u k => (switchOf u k).Of x
  | .attachResume _ k | .resume _ k => k.Of x
  | .save prev k => k.Of prev
  | .schedulerTerminate y | .terminateRemove _ y | .suspendAndWait _ y | .suspend _ y
  | .wait _ _ y | .waitUnlock _ _ y | .relock _ _ _ y | .waitPred _ _ _ y => y = x
  | .notifyAll (.waitList y) => y = x
  | .dispatch u | .exitTest u | .iterate u | .procSleep u _ | .suspendUntil u _ | .suspended u _
  | .returnToMain u => x = .dispatcher u
  | .destroy u => x = .main u
  | _ => True

/-- The invariant of all stacks: the running ones, the suspended ones and those handed over. -/
structure Shape (s : State T) : Prop where
  below : ∀ t, (s.thread t).stack.Pairwise Frame.Below
  frames : ∀ t x, (s.thread t).active = some x → ∀ f ∈ (s.thread t).stack, f.Of x
  idle : ∀ t, (s.thread t).active = none → ∀ f ∈ (s.thread t).stack, f.isSettled
  suspended : ∀ x stack, (s.ctx x).c = some stack → ∀ f ∈ stack, f.isSettled ∧ f.Of x
  saving : ∀ t prev k rest, (s.thread t).stack = .save prev k :: rest →
    ∃ stack, (s.thread t).fctx = some stack ∧ ∀ f ∈ stack, f.isSettled ∧ f.Of prev
  handed : ∀ t, (s.thread t).fctx ≠ none → ∃ prev k rest, (s.thread t).stack = .save prev k :: rest

/-- What a function leaves to execute is a stack of its own, executed by the same context, and
fits above whatever its first frame lay on. -/
structure Leaves (x : Ctx T) (inner : Bool) (frames : List (Frame T)) : Prop where
  below : frames.Pairwise Frame.Below
  owned : ∀ f ∈ frames, f.Of x
  fits : inner → ∀ f ∈ frames, f.isInner
  noSave : ∀ prev k, .save prev k ∉ frames

/-- Frames that fit above one frame fit above a stack that this frame was on top of. -/
theorem Leaves.append {x : Ctx T} {f : Frame T} {frames rest : List (Frame T)}
    (h : Leaves x f.isInner frames) (hrest : (f :: rest).Pairwise Frame.Below) :
    (frames ++ rest).Pairwise Frame.Below := by
  obtain ⟨hfrest, hrest⟩ := List.pairwise_cons.mp hrest
  refine List.pairwise_append.mpr ⟨h.below, hrest, fun g hg g' hg' => ?_⟩
  rcases hfrest g' hg' with hsettled | ⟨hinner, houter⟩
  · exact .inl hsettled
  · exact .inr ⟨h.fits hinner g hg, houter⟩

/-- Nothing below another frame is a `save`. -/
theorem Frame.Below.ne_save {f g : Frame T} (h : f.Below g) (prev : Ctx T) (k : Switch T) :
    g ≠ .save prev k := by
  rintro rfl
  simp [Frame.Below, Frame.isSettled, Frame.isOuter] at h

/-- The stack below a frame that is not inner holds settled frames only. -/
theorem settled_of_pairwise {f : Frame T} {rest : List (Frame T)}
    (h : (f :: rest).Pairwise Frame.Below) (hf : f.isInner = false) : ∀ g ∈ rest, g.isSettled := by
  intro g hg
  rcases (List.pairwise_cons.mp h).1 g hg with hsettled | ⟨hinner, -⟩
  · exact hsettled
  · simp [hf] at hinner

/-- Settled frames may lie in any order and below anything. -/
theorem pairwise_of_settled {f : Frame T} {rest : List (Frame T)} (h : ∀ g ∈ rest, g.isSettled) :
    (f :: rest).Pairwise Frame.Below :=
  List.pairwise_cons.mpr ⟨fun g hg => .inl (h g hg),
    List.pairwise_of_forall_mem_list fun _ _ g hg => .inl (h g hg)⟩

/-- A switch is not called from the middle of another function, and makes ready only the context
that it leaves. -/
theorem Frame.of_target {f : Frame T} {x y : Ctx T} {k : Switch T} (h : f.target = some (y, k))
    (hf : f.Of x) : f.isInner = false ∧ k.Of x := by
  cases f with
  | resume z k' =>
    obtain ⟨rfl, rfl⟩ : z = y ∧ k' = k := by simpa [Frame.target] using h
    exact ⟨rfl, hf⟩
  | returnToMain u =>
    obtain ⟨-, rfl⟩ : Ctx.main u = y ∧ Switch.suspendWithCC = k := by simpa [Frame.target] using h
    exact ⟨rfl, trivial⟩
  | _ => simp [Frame.target] at h

/-- The shape of all stacks right after the initialization of the threads. -/
theorem Shape.initial (policy : T → Policy) : Shape (State.initial policy) where
  below t := by simp [State.initial]
  frames t x _ f hf := by simp [State.initial] at hf
  idle t h := by simp [State.initial] at h
  suspended x stack h f hf := by
    cases x with
    | dispatcher t =>
      obtain rfl : [Frame.dispatch t] = stack := by
        simpa [State.initial, Context.initial] using h
      obtain rfl : f = .dispatch t := by simpa using hf
      exact ⟨rfl, rfl⟩
    | main t => simp [State.initial, Context.initial] at h
    | worker n => simp [State.initial, Context.initial] at h
  saving t prev k rest h := by simp [State.initial] at h
  handed t h := by simp [State.initial] at h

variable [DecidableEq T]

/-- Every branch of a frame leaves a proper stack. -/
theorem FrameStep.leaves {s : State T} {t : T} {x : Ctx T} {now : ℕ} {f : Frame T} {r : Rest T}
    (h : FrameStep s t x now f r) (hx : f.Of x) : Leaves x f.isInner r.2 := by
  cases h with
  | schedule hu | wake hu =>
    rcases schedule_cases s _ _ with ⟨-, hr⟩ | ⟨-, -, hr⟩ <;> rw [hr] <;> constructor <;>
      simp [Frame.Of, Frame.isInner]
  | scheduleOn =>
    rcases schedule_cases s _ _ with ⟨-, hr⟩ | ⟨-, -, hr⟩ <;> rw [hr] <;> constructor <;>
      simp [Frame.Of, Frame.isInner]
  | pop hf hqueue | popEmpty hf hqueue =>
    rcases hf with rfl | ⟨rfl, -⟩ <;> constructor <;>
      simp_all [Frame.Of, Frame.isInner, Switch.Of, switchOf]
  | @save prev k stack hfctx =>
    cases k <;> constructor <;> simp [Switch.onTop, Frame.Of, Frame.isInner]
  | @suspend u q y hu =>
    cases q <;> constructor <;>
      simp_all [WaitQueue.switch, switchOf, Frame.Of, Frame.isInner, Switch.Of]
  | @relock q l p y hl => cases p <;> constructor <;> simp_all [relockNext, Frame.Of, Frame.isInner]
  | @notifyOne q y rest hwaits =>
    cases q <;> constructor <;>
      simp_all [WaitQueue.afterNotify, Frame.Of, Frame.isInner, Frame.isOuter, Frame.Below]
  | @notifyOneEmpty q hwaits =>
    cases q <;> constructor <;> simp_all [WaitQueue.afterNotify, Frame.Of, Frame.isInner]
  | @notifyAll q y rest hwaits =>
    cases q <;> constructor <;> simp_all [Frame.Of, Frame.isInner, Frame.isOuter, Frame.Below]
  | @notifyAllEmpty q hwaits =>
    cases q <;> constructor <;> simp_all [WaitQueue.afterNotify, Frame.Of, Frame.isInner]
  | _ => constructor <;> simp_all [switchOf, Lutask.iterate, Lutask.terminateRemove, Lutask.destroy,
      Frame.Of, Frame.isInner, Frame.isOuter, Frame.isSettled, Frame.Below, Switch.Of]

/-- Every operation starts with a proper stack. -/
theorem OpStep.leaves {s : State T} {x : Ctx T} {op : Op T} {r : Rest T} (h : OpStep s x op r) :
    Leaves x false r.2 := by
  cases h with
  | start launch =>
    cases launch <;> constructor <;> simp [Lutask.start, Frame.Of, Switch.Of]
  | destructor hx =>
    subst hx
    constructor <;>
      simp [Lutask.destructor, switchOf, Frame.Of, Switch.Of, Frame.Below, Frame.isSettled]
  | _ => constructor <;> simp [switchOf, Lutask.yield, Lutask.waitUntil, Lutask.terminate, Frame.Of,
      Switch.Of, Frame.Below, Frame.isSettled, Frame.isInner, Frame.isOuter]

/-- A call keeps the shape: it starts on an empty stack. -/
theorem Shape.call {s : State T} {t : T} {x : Ctx T} {op : Op T} {r : Rest T} (hs : Shape s)
    (hactive : (s.thread t).active = some x) (hstack : (s.thread t).stack = [])
    (hop : OpStep s x op r) : Shape (r.1.setStack t r.2) := by
  have hthread := hop.thread
  have hleaves := hop.leaves
  have hfctx : (s.thread t).fctx = none := by
    by_contra hfctx
    obtain ⟨prev, k, rest, hsave⟩ := hs.handed t hfctx
    simp [hstack] at hsave
  refine ⟨fun v => ?_, fun v y hy => ?_, fun v hv => ?_, fun y stack hy => ?_,
    fun v prev k rest hv => ?_, fun v hv => ?_⟩
  · by_cases hvt : v = t
    · subst hvt
      simpa using hleaves.below
    · simpa [State.setStack_thread_of_ne _ hvt, hthread] using hs.below v
  · by_cases hvt : v = t
    · subst hvt
      obtain rfl : x = y := by simpa [hthread, hactive] using hy
      simpa using hleaves.owned
    · simp only [State.setStack_thread_of_ne _ hvt, hthread] at hy ⊢
      exact hs.frames v y hy
  · by_cases hvt : v = t
    · subst hvt
      simp [hthread, hactive] at hv
    · simp only [State.setStack_thread_of_ne _ hvt, hthread] at hv ⊢
      exact hs.idle v hv
  · rw [State.setStack_ctx] at hy
    rcases hop.c y with hsame | ⟨-, -, hnew⟩
    · exact hs.suspended y stack (hsame ▸ hy)
    · obtain rfl : [] = stack := Option.some.inj (hnew.symm.trans hy)
      simp
  · by_cases hvt : v = t
    · subst hvt
      have hv : r.2 = .save prev k :: rest := by simpa using hv
      exact absurd (by simp [hv]) (hleaves.noSave prev k)
    · simp only [State.setStack_thread_of_ne _ hvt, hthread] at hv ⊢
      exact hs.saving v prev k rest hv
  · by_cases hvt : v = t
    · subst hvt
      simp [hthread, hfctx] at hv
    · simp only [State.setStack_thread_of_ne _ hvt, hthread] at hv ⊢
      exact hs.handed v hv

/-- A frame executed in place keeps the shape: what it leaves fits where it was. -/
theorem Shape.frame {s : State T} {t : T} {x : Ctx T} {f : Frame T} {now : ℕ}
    {rest : List (Frame T)} {r : Rest T} (hs : Shape s) (hactive : (s.thread t).active = some x)
    (hstack : (s.thread t).stack = f :: rest) (hframe : FrameStep s t x now f r) :
    Shape (r.1.setStack t (r.2 ++ rest)) := by
  have hbelow := hstack ▸ hs.below t
  have hof := hstack ▸ hs.frames t x hactive
  have hleaves := hframe.leaves (hof f List.mem_cons_self)
  have hnoSave : ∀ prev k, Frame.save prev k ∉ r.2 ++ rest := by
    intro prev k hmem
    rcases List.mem_append.mp hmem with hnew | hold
    · exact hleaves.noSave prev k hnew
    · exact (List.pairwise_cons.mp hbelow).1 _ hold |>.ne_save prev k rfl
  refine ⟨fun v => ?_, fun v y hy => ?_, fun v hv => ?_, fun y stack hy => ?_,
    fun v prev k rest' hv => ?_, fun v hv => ?_⟩
  · by_cases hvt : v = t
    · subst hvt
      simpa using hleaves.append hbelow
    · simpa [State.setStack_thread_of_ne _ hvt, hframe.thread_of_ne hvt] using hs.below v
  · by_cases hvt : v = t
    · subst hvt
      rcases hframe.active with hsame | ⟨u, -, hnone⟩
      · obtain rfl : x = y := by simpa [hsame, hactive] using hy
        intro g hg
        rcases List.mem_append.mp (by simpa using hg) with hnew | hold
        · exact hleaves.owned g hnew
        · exact hof g (List.mem_cons_of_mem _ hold)
      · simp [hnone] at hy
    · simp only [State.setStack_thread_of_ne _ hvt, hframe.thread_of_ne hvt] at hy ⊢
      exact hs.frames v y hy
  · by_cases hvt : v = t
    · subst hvt
      rcases hframe.active with hsame | ⟨u, rfl, hnone⟩
      · simp [hsame, hactive] at hv
      · have hempty : r.2 = [] := by
          cases hframe with
          | pop hf hqueue | popEmpty hf hqueue => simp at hf
          | destroy => rfl
        simpa [hempty] using settled_of_pairwise hbelow rfl
    · simp only [State.setStack_thread_of_ne _ hvt, hframe.thread_of_ne hvt] at hv ⊢
      exact hs.idle v hv
  · rw [State.setStack_ctx] at hy
    rcases hframe.c y with hsame | ⟨k, rfl, -, hsaved⟩
    · exact hs.suspended y stack (hsame ▸ hy)
    · obtain ⟨stack', hfctx, hsettled⟩ := hs.saving t y k rest hstack
      obtain rfl : stack' = stack := by simpa [hfctx, hy, eq_comm] using hsaved
      exact hsettled
  · by_cases hvt : v = t
    · subst hvt
      have hv : r.2 ++ rest = .save prev k :: rest' := by simpa using hv
      exact absurd (by simp [hv]) (hnoSave prev k)
    · simp only [State.setStack_thread_of_ne _ hvt, hframe.thread_of_ne hvt] at hv ⊢
      exact hs.saving v prev k rest' hv
  · by_cases hvt : v = t
    · subst hvt
      rcases hframe.fctx with ⟨hne, hsame⟩ | ⟨prev, k, rfl, hnone⟩
      · obtain ⟨prev, k, rest', hsave⟩ := hs.handed v (by simpa [hsame] using hv)
        exact absurd (List.cons.inj (hstack.symm.trans hsave)).1 (hne prev k)
      · simp [hnone] at hv
    · simp only [State.setStack_thread_of_ne _ hvt, hframe.thread_of_ne hvt] at hv ⊢
      exact hs.handed v hv

/-- A switch keeps the shape: the caller leaves settled frames behind and finds settled frames. -/
theorem Shape.switch {s : State T} {t : T} {x y : Ctx T} {f : Frame T} {k : Switch T}
    {rest stack : List (Frame T)} (hs : Shape s) (hactive : (s.thread t).active = some x)
    (hstack : (s.thread t).stack = f :: rest) (htarget : f.target = some (y, k))
    (hc : (s.ctx y).c = some stack) : Shape (switched s t x rest y k stack) := by
  have hbelow := hstack ▸ hs.below t
  have hof := hstack ▸ hs.frames t x hactive
  obtain ⟨hinner, hk⟩ := Frame.of_target htarget (hof f List.mem_cons_self)
  have hrest : ∀ g ∈ rest, g.isSettled ∧ g.Of x := fun g hg =>
    ⟨settled_of_pairwise hbelow hinner g hg, hof g (List.mem_cons_of_mem _ hg)⟩
  have hresumed := hs.suspended y stack hc
  refine ⟨fun v => ?_, fun v z hz => ?_, fun v hv => ?_, fun z stack' hz => ?_,
    fun v prev k' rest' hv => ?_, fun v hv => ?_⟩
  all_goals simp only [switched, State.setThread_thread, State.setThread_ctx, State.setCtx_ctx] at *
  · by_cases hvt : v = t
    · subst hvt
      simpa using pairwise_of_settled fun g hg => (hresumed g hg).1
    · simpa [hvt] using hs.below v
  · by_cases hvt : v = t
    · subst hvt
      obtain rfl : y = z := by simpa using hz
      intro g hg
      rcases List.mem_cons.mp (by simpa using hg) with rfl | hold
      · exact hk
      · exact (hresumed g hold).2
    · simp only [Function.update_of_ne hvt] at hz ⊢
      exact hs.frames v z hz
  · by_cases hvt : v = t
    · subst hvt
      simp at hv
    · simp only [Function.update_of_ne hvt] at hv ⊢
      exact hs.idle v hv
  · by_cases hzy : z = y
    · subst hzy
      simp at hz
    · exact hs.suspended z stack' (by simpa [hzy] using hz)
  · by_cases hvt : v = t
    · subst hvt
      obtain ⟨⟨rfl, rfl⟩, rfl⟩ : (x = prev ∧ k = k') ∧ stack = rest' := by simpa using hv
      exact ⟨rest, by simp, hrest⟩
    · simp only [Function.update_of_ne hvt] at hv ⊢
      exact hs.saving v prev k' rest' hv
  · by_cases hvt : v = t
    · subst hvt
      exact ⟨x, k, stack, by simp⟩
    · simp only [Function.update_of_ne hvt] at hv ⊢
      exact hs.handed v hv

/-- Every step of the machine keeps the shape of the stacks. -/
theorem Shape.step {s s' : State T} {e : Event T} (hs : Shape s) (h : step s e = some s') : Shape s' := by
  cases step_inv h with
  | call hactive hstack _ hop => exact hs.call hactive hstack hop
  | frame hactive hstack hframe => exact hs.frame hactive hstack hframe
  | switch hactive hstack htarget hc => exact hs.switch hactive hstack htarget hc

/-- The stacks are well shaped in every state that any run reaches. -/
theorem Runs.shape {policy : T → Policy} {guard : State T → Event T → Prop} {events : List (Event T)}
    {s : State T} (h : Runs policy guard events s) : Shape s :=
  Run.invariant h (Shape.initial policy) fun _ _ _ hs _ hstep => hs.step hstep

/-- A frame of a running stack at which no context stays suspended was in this stack before, below the
frame that the step executed if it is one of this thread, or the step has added it. -/
theorem Shape.frame_origin {s s' : State T} {e : Event T} {v : T} {g : Frame T} (hs : Shape s)
    (hstep : Lutask.step s e = some s') (hg : g ∈ (s'.thread v).stack) (hunsettled : g.isSettled = false)
    (hsave : ∀ prev k, g ≠ .save prev k) :
    g ∈ (s.thread v).stack ∧ (v = e.thread → g ∈ (s.thread v).stack.tail) ∨
      (∃ x op r, e = .call v x op ∧ OpStep s x op r ∧ s' = r.1.setStack v r.2 ∧ g ∈ r.2) ∨
      ∃ x f now rest r, e = .exec v x f now ∧ (s.thread v).active = some x ∧
        (s.thread v).stack = f :: rest ∧ FrameStep s v x now f r ∧ s' = r.1.setStack v (r.2 ++ rest) ∧
          g ∈ r.2 := by
  by_cases hv : v = e.thread
  · cases step_inv hstep with
    | @call t x op r hactive hstack huser hop =>
      obtain rfl : v = t := hv
      exact .inr (.inl ⟨x, op, r, rfl, hop, rfl, by simpa using hg⟩)
    | @frame t x f now rest r hactive hstack hframe =>
      obtain rfl : v = t := hv
      cases List.mem_append.mp (by simpa using hg : g ∈ r.2 ++ rest) with
      | inl hnew => exact .inr (.inr ⟨x, f, now, rest, r, rfl, hactive, hstack, hframe, rfl, hnew⟩)
      | inr hbelow => exact .inl ⟨by simp [hstack, hbelow], fun _ => by simp [hstack, hbelow]⟩
    | @switch t x y f k now rest stack hactive hstack htarget hc =>
      obtain rfl : v = t := hv
      cases List.mem_cons.mp (by simpa [switched] using hg : g ∈ .save x k :: stack) with
      | inl hnew => exact absurd hnew (hsave x k)
      | inr hold => simp [(hs.suspended y stack hc g hold).1] at hunsettled
  · rw [step_thread_of_ne hstep hv] at hg
    exact .inl ⟨hg, fun hve => absurd hve hv⟩

/-- A property that all frames at which a context stays suspended have holds of all running frames
after a step, if the frames that the step adds have it. -/
theorem Shape.frames_step {s s' : State T} {e : Event T} {P : Frame T → Prop} (hs : Shape s)
    (h : ∀ t, ∀ f ∈ (s.thread t).stack, P f) (hstep : Lutask.step s e = some s')
    (hsettled : ∀ f : Frame T, f.isSettled → P f) (hsave : ∀ prev k, P (.save prev k))
    (hcall : ∀ t x op r, e = .call t x op → OpStep s x op r → ∀ f ∈ r.2, P f)
    (hframe : ∀ t x f now r, e = .exec t x f now → f ∈ (s.thread t).stack →
      FrameStep s t x now f r → ∀ g ∈ r.2, P g) :
    ∀ t, ∀ f ∈ (s'.thread t).stack, P f := by
  intro v f hf
  by_cases hv : v = e.thread
  · cases step_inv hstep with
    | @call t x op r hactive hstack huser hop =>
      obtain rfl : v = t := hv
      exact hcall v x op r rfl hop f (by simpa using hf)
    | @frame t x g now rest r hactive hstack hg =>
      obtain rfl : v = t := hv
      cases List.mem_append.mp (by simpa using hf : f ∈ r.2 ++ rest) with
      | inl hnew => exact hframe v x g now r rfl (by simp [hstack]) hg f hnew
      | inr hbelow => exact h v f (by simp [hstack, hbelow])
    | @switch t x y g k now rest stack hactive hstack htarget hc =>
      obtain rfl : v = t := hv
      cases List.mem_cons.mp (by simpa [switched] using hf : f ∈ .save x k :: stack) with
      | inl hnew => exact hnew ▸ hsave x k
      | inr hold => exact hsettled f (hs.suspended y stack hc f hold).1
  · rw [step_thread_of_ne hstep hv] at hf
    exact h v f hf

end Lutask
