import Lutask.Machine.Schedule
import Lutask.Machine.Closing

/-!
# The mutex of a scheduler

`Scheduler::Terminate` locks `mtx_` by a local `lk` of the terminating context and switches away for
good, so `lk` is never destroyed. In a completed run of any number of threads under any policies no
thread switches while it holds a `mtx_` or locks one that it already holds, if and only if
no worker terminates in it.
-/

namespace Lutask

open LabelledRuns

variable {T : Type*}

/-- The frames of `Scheduler::Terminate` from its lock of `mtx_` up to its switch. -/
def Frame.holdsMtx : Frame T → Bool
  | .terminateRemove .. | .pickNext _ (some .suspendWithCC) | .pickLocal _ (some .suspendWithCC)
  | .attachResume _ .suspendWithCC | .resume _ .suspendWithCC => true
  | _ => false

/-- The frames of `Context::Terminate` up to its switch. -/
def Frame.inTerminate (f : Frame T) : Bool :=
  match f with
  | .schedulerTerminate _ => true
  | f => f.holdsMtx

/-- The scheduler whose `mtx_` the frame of active context `x` is about to lock. -/
def Frame.locks (s : State T) (x : Ctx T) : Frame T → Option T
  | .postAttach _ | .attachResume .. => (s.ctx x).scheduler
  | .schedulerTerminate y => (s.ctx y).scheduler
  | _ => none

/-- A worker terminates. -/
def Event.terminates : Event T → Bool
  | .call _ _ .terminate => true
  | _ => false

/-- A thread holds no `mtx_` when it switches, nor the one that it locks. -/
structure MutexLaw (s : State T) : Prop where
  switch : ∀ t f rest u, (s.thread t).stack = f :: rest → f.target.isSome → t ∉ (s.sched u).mtx
  lock : ∀ t x f rest u, (s.thread t).active = some x → (s.thread t).stack = f :: rest →
    f.locks s x = some u → t ∉ (s.sched u).mtx

/-- A suspended context is not in `Context::Terminate`. -/
theorem Frame.not_inTerminate_of_settled {f : Frame T} (h : f.isSettled) : f.inTerminate = false := by
  cases f <;> simp [Frame.isSettled] at h <;> rfl

theorem Frame.inTerminate_of_holdsMtx {f : Frame T} (h : f.holdsMtx) : f.inTerminate := by
  cases f <;> first | exact h | rfl

variable [DecidableEq T] {s s' : State T} {t : T} {x : Ctx T} {now : ℕ}

section Frames

/-- No operation starts with `mtx_` held, and only `Context::Terminate` is about to lock it. -/
theorem OpStep.terminate_frames {op : Op T} {r : Rest T} (h : OpStep s x op r) :
    (∀ f ∈ r.2, f.holdsMtx = false) ∧ (∀ u, .unlockMtx u ∉ r.2) ∧
      (op ≠ .terminate → ∀ f ∈ r.2, f.inTerminate = false) := by
  cases h with
  | start launch =>
    cases launch <;> simp [Lutask.start, Frame.inTerminate, Frame.holdsMtx]
  | _ => simp [Lutask.yield, Lutask.waitUntil, Lutask.terminate, Lutask.destructor, Frame.inTerminate,
      Frame.holdsMtx]

theorem OpStep.mtx {op : Op T} {r : Rest T} (h : OpStep s x op r) (u : T) :
    (r.1.sched u).mtx = (s.sched u).mtx := by
  cases h <;> simp [Lutask.start, Lutask.yield, Lutask.waitUntil, Lutask.terminate, Lutask.destructor,
    workerQueueRemove, Function.update_apply] <;> split_ifs <;> simp_all

/-- Only the lock and the unlock of `Scheduler::Terminate` write `mtx_`. -/
theorem FrameStep.mtx {f : Frame T} {r : Rest T} (h : FrameStep s t x now f r) (u : T) :
    (r.1.sched u).mtx = (s.sched u).mtx ∨
      (∃ y, f = .schedulerTerminate y) ∧ (r.1.sched u).mtx = t :: (s.sched u).mtx ∨
      f = .unlockMtx u ∧ (r.1.sched u).mtx = (s.sched u).mtx.tail := by
  cases h with
  | @schedulerTerminate v y hu hmtx =>
    by_cases huv : u = v
    · exact .inr (.inl ⟨⟨y, rfl⟩, by simp [huv]⟩)
    · exact .inl (by simp [huv])
  | @unlockMtx v =>
    by_cases huv : u = v
    · exact .inr (.inr ⟨by rw [huv], by simp [huv]⟩)
    · exact .inl (by simp [huv])
  | schedule hu | wake hu | scheduleOn => exact .inl (by simp)
  | dispatchShutdown => exact .inl (by simp)
  | _ =>
    left
    simp [workerQueuePush, detachWorkerContext, workerQueueRemove, Lutask.terminateRemove,
      Lutask.destroy, Lutask.iterate, procTerminated, Function.update_apply] <;> split_ifs <;> simp_all

/-- A `mtx_` that is held stays held unless a `lk` is destroyed. -/
theorem FrameStep.mtx_mono {f : Frame T} {r : Rest T} (h : FrameStep s t x now f r)
    (hunlock : ∀ u, f ≠ .unlockMtx u) {v u : T} (hv : v ∈ (s.sched u).mtx) :
    v ∈ (r.1.sched u).mtx := by
  rcases h.mtx u with hsame | ⟨-, hlock⟩ | ⟨hf, -⟩
  · rwa [hsame]
  · rw [hlock]
    exact List.mem_cons_of_mem t hv
  · exact absurd hf (hunlock u)

/-- `Scheduler::Terminate` starts by locking a `mtx_`. -/
theorem FrameStep.mtx_lock {y : Ctx T} {r : Rest T} (h : FrameStep s t x now (.schedulerTerminate y) r) :
    ∃ u, t ∈ (r.1.sched u).mtx := by
  cases h with
  | pop hf | popEmpty hf => simp at hf
  | @schedulerTerminate u y hu hmtx => exact ⟨u, by simp⟩

/-- `Scheduler::Terminate` keeps `mtx_` until its switch. -/
theorem FrameStep.inTerminate {f : Frame T} {r : Rest T} (h : FrameStep s t x now f r)
    (hf : f.inTerminate) : ∃ g rest, r.2 = g :: rest ∧ g.holdsMtx := by
  cases h with
  | schedulerTerminate hu hmtx => exact ⟨_, _, rfl, rfl⟩
  | terminateRemove => exact ⟨_, _, rfl, rfl⟩
  | @pop f u k y rest hcase hqueue =>
    refine ⟨_, _, rfl, ?_⟩
    rcases hcase with rfl | ⟨rfl, -⟩ <;> rcases k with _ | (_ | _ | _ | _) <;>
      first | rfl | simp [Frame.inTerminate, Frame.holdsMtx] at hf
  | popEmpty hcase =>
    rcases hcase with rfl | ⟨rfl, -⟩ <;> simp [Frame.inTerminate, Frame.holdsMtx] at hf
  | @pickReady u k y rest hpolicy hready | @pickReadyEmpty u k hpolicy hready =>
    refine ⟨_, _, rfl, ?_⟩
    rcases k with _ | (_ | _ | _ | _) <;>
      first | rfl | simp [Frame.inTerminate, Frame.holdsMtx] at hf
  | @attachResume u y k hu hmtx =>
    refine ⟨_, _, rfl, ?_⟩
    cases k <;> first | rfl | simp [Frame.inTerminate, Frame.holdsMtx] at hf
  | _ => simp [Frame.inTerminate, Frame.holdsMtx] at hf

/-- Nothing else executed in place gets into `Scheduler::Terminate`, or has a `lk` to destroy. -/
theorem FrameStep.not_inTerminate {f : Frame T} {r : Rest T} (h : FrameStep s t x now f r)
    (hf : f.inTerminate = false) : (∀ g ∈ r.2, g.inTerminate = false) ∧ ∀ u, .unlockMtx u ∉ r.2 := by
  cases h with
  | schedule hu | wake hu | scheduleOn =>
    rcases schedule_cases s _ _ with ⟨-, hr⟩ | ⟨-, -, hr⟩ <;> rw [hr] <;>
      simp [Frame.inTerminate, Frame.holdsMtx]
  | @pop f u k y rest hcase hqueue =>
    rcases hcase with rfl | ⟨rfl, -⟩ <;> rcases k with _ | (_ | _ | _ | _) <;>
      simp_all [Frame.inTerminate, Frame.holdsMtx, switchOf]
  | @pickReady u k y rest hpolicy hready | @pickReadyEmpty u k hpolicy hready =>
    rcases k with _ | (_ | _ | _ | _) <;>
      simp_all [Frame.inTerminate, Frame.holdsMtx, switchOf]
  | @attachResume u y k hu hmtx => cases k <;> simp_all [Frame.inTerminate, Frame.holdsMtx]
  | @save prev k stack hfctx => cases k <;> simp [Switch.onTop, Frame.inTerminate, Frame.holdsMtx]
  | @suspend u q y hu =>
    cases q <;> simp [WaitQueue.switch, Frame.inTerminate, Frame.holdsMtx]
  | @relock q l p y hl => cases p <;> simp [relockNext, Frame.inTerminate, Frame.holdsMtx]
  | @notifyOne q y rest hwaits | @notifyOneEmpty q hwaits | @notifyAllEmpty q hwaits =>
    cases q <;> simp [WaitQueue.afterNotify, Frame.inTerminate, Frame.holdsMtx]
  | schedulerTerminate | terminateRemove => simp [Frame.inTerminate, Frame.holdsMtx] at hf
  | _ => simp [Lutask.iterate, Lutask.destroy, Frame.inTerminate, Frame.holdsMtx]

omit [DecidableEq T] in
/-- The only switch made with `mtx_` held is the one of `Scheduler::Terminate`. -/
theorem Frame.holdsMtx_of_target {f : Frame T} (h : f.target.isSome) (hf : f.inTerminate) :
    f.holdsMtx := by
  cases f <;> first | exact hf | simp [Frame.target] at h

end Frames

/-- Every `lk` is on a running stack, under the rest of `Scheduler::Terminate`, whose thread holds a
`mtx_`. This is so until the first `Scheduler::Terminate` switches. -/
structure Guarded (s : State T) : Prop where
  left : ∀ x stack u, s.Left x stack → .unlockMtx u ∉ stack
  running : ∀ t f rest u, (s.thread t).stack = f :: rest → .unlockMtx u ∈ f :: rest → f.holdsMtx
  held : ∀ t, ∀ f ∈ (s.thread t).stack, f.holdsMtx → ∃ u, t ∈ (s.sched u).mtx

omit [DecidableEq T] in
theorem Guarded.initial (policy : T → Policy) : Guarded (State.initial policy) where
  left x stack u h := by
    rcases h with hc | ⟨t, k, rest, hstack, -⟩
    · cases x <;> simp [State.initial, Context.initial] at hc
      simp [← hc]
    · simp [State.initial] at hstack
  running t f rest u h := by simp [State.initial] at h
  held t f hf := by simp [State.initial] at hf

omit [DecidableEq T] in
/-- A lawful switch is not the one of `Scheduler::Terminate`. -/
theorem Guarded.not_holdsMtx (h : Guarded s) (hlaw : MutexLaw s) {f : Frame T} {rest : List (Frame T)}
    (hstack : (s.thread t).stack = f :: rest) (htarget : f.target.isSome) : f.holdsMtx = false := by
  by_contra hf
  obtain ⟨u, hu⟩ := h.held t f (by simp [hstack]) (by simpa using hf)
  exact hlaw.switch t f rest u hstack htarget hu

/-- Lawful steps keep every `lk` where it is. -/
theorem Guarded.step {e : Event T} (h : Guarded s) (hs : Shape s) (hlaw : MutexLaw s)
    (hstep : step s e = some s') : Guarded s' := by
  cases step_inv hstep with
  | @call t x op r hactive hstack huser hop =>
    obtain ⟨hfree, hunlock, -⟩ := hop.terminate_frames
    refine ⟨fun y stack u hl => ?_, fun v f rest u hv hmem => ?_, fun v f hf hholds => ?_⟩
    · cases hop.left hl with
      | inl hold => exact h.left y stack u hold
      | inr hempty => simp [hempty.2]
    · by_cases hvt : v = t
      · subst hvt
        have hframes : r.2 = f :: rest := by simpa using hv
        exact absurd (hframes ▸ hmem) (hunlock u)
      · simp only [State.setStack_thread_of_ne _ hvt, hop.thread] at hv
        exact h.running v f rest u hv hmem
    · by_cases hvt : v = t
      · subst hvt
        simp [hfree f (by simpa using hf)] at hholds
      · simp only [State.setStack_thread_of_ne _ hvt, hop.thread] at hf
        simpa [hop.mtx] using h.held v f hf hholds
  | @frame t x f now rest r hactive hstack hframe =>
    have hmono : ∀ v, (∃ u, v ∈ (s.sched u).mtx) → ∃ u, v ∈ (r.1.sched u).mtx := by
      intro v hv
      obtain ⟨u, hu⟩ := hv
      refine ⟨u, hframe.mtx_mono (fun w hf => ?_) hu⟩
      have hholds := h.running t f rest w hstack (by simp [hf])
      simp [hf, Frame.holdsMtx] at hholds
    refine ⟨fun y stack u hl => h.left y stack u (hframe.left hs hactive hstack hl),
      fun v g below u hv hmem => ?_, fun v g hg hholds => ?_⟩
    · by_cases hvt : v = t
      · subst hvt
        have hv : r.2 ++ rest = g :: below := by simpa using hv
        cases hf : f.inTerminate with
        | true =>
          obtain ⟨g', rest', hframes, hg'⟩ := hframe.inTerminate hf
          rw [hframes, List.cons_append] at hv
          exact (List.cons.inj hv).1 ▸ hg'
        | false =>
          obtain ⟨-, hunlock⟩ := hframe.not_inTerminate hf
          rw [← hv] at hmem
          have hbelow := (List.mem_append.mp hmem).resolve_left (hunlock u)
          have hholds := h.running v f rest u hstack (List.mem_cons_of_mem f hbelow)
          exact absurd (Frame.inTerminate_of_holdsMtx hholds) (by simp [hf])
      · simp only [State.setStack_thread_of_ne _ hvt, hframe.thread_of_ne hvt] at hv
        exact h.running v g below u hv hmem
    · by_cases hvt : v = t
      · subst hvt
        cases List.mem_append.mp (by simpa using hg : g ∈ r.2 ++ rest) with
        | inr hbelow => exact hmono v (h.held v g (by simp [hstack, hbelow]) hholds)
        | inl hnew =>
          cases hf : f.inTerminate with
          | false =>
            have hnone := (hframe.not_inTerminate hf).1 g hnew
            exact absurd (Frame.inTerminate_of_holdsMtx hholds) (by simp [hnone])
          | true =>
            by_cases hlock : ∃ y, f = .schedulerTerminate y
            · obtain ⟨y, rfl⟩ := hlock
              exact hframe.mtx_lock
            · refine hmono v (h.held v f (by simp [hstack]) ?_)
              cases f <;> first | exact hf | exact absurd ⟨_, rfl⟩ hlock
      · simp only [State.setStack_thread_of_ne _ hvt, hframe.thread_of_ne hvt] at hg
        exact hmono v (h.held v g hg hholds)
  | @switch t x y f k now rest stack hactive hstack htarget hc =>
    have hfree := h.not_holdsMtx hlaw hstack (by simp [htarget])
    refine ⟨fun z st u hl => ?_, fun v g below u hv hmem => ?_, fun v g hg hholds => ?_⟩
    · rcases switched_left hl with hold | ⟨-, rfl⟩
      · exact h.left z st u hold
      · intro hmem
        have hholds := h.running t f st u hstack (List.mem_cons_of_mem f hmem)
        simp [hfree] at hholds
    · by_cases hvt : v = t
      · subst hvt
        have hv : .save x k :: stack = g :: below := by simpa [switched] using hv
        rw [← hv] at hmem
        exact absurd ((List.mem_cons.mp hmem).resolve_left (by simp)) (h.left y stack u (.inl hc))
      · exact h.running v g below u (by simpa [switched, hvt] using hv) hmem
    · by_cases hvt : v = t
      · subst hvt
        cases List.mem_cons.mp (by simpa [switched] using hg : g ∈ .save x k :: stack) with
        | inl hsave => simp [hsave, Frame.holdsMtx] at hholds
        | inr hold =>
          have hnone := Frame.not_inTerminate_of_settled (hs.suspended y stack hc g hold).1
          exact absurd (Frame.inTerminate_of_holdsMtx hholds) (by simp [hnone])
      · exact h.held v g (by simpa [switched, hvt] using hg) hholds

/-- A worker that has called `Context::Terminate` stays there as long as all steps are lawful. -/
theorem inTerminate_stays {e : Event T} (h : Guarded s) (hs : Shape s) (hlaw : MutexLaw s)
    (hstep : step s e = some s') (hin : ∃ f ∈ (s.thread t).stack, f.inTerminate) :
    ∃ f ∈ (s'.thread t).stack, f.inTerminate := by
  by_cases het : e.thread = t
  · obtain ⟨g, hg, hgin⟩ := hin
    obtain ⟨f, rest, hstack⟩ := List.exists_cons_of_ne_nil (List.ne_nil_of_mem hg)
    obtain ⟨x, now, rfl, hactive, ⟨r, hframe, rfl⟩ | ⟨y, k, stack, htarget, hc, rfl⟩⟩ :=
      step_top hstep het hstack
    · cases List.mem_cons.mp (hstack ▸ hg) with
      | inl htop =>
        obtain ⟨g', rest', hframes, hg'⟩ := hframe.inTerminate (htop ▸ hgin)
        exact ⟨g', by simp [hframes], Frame.inTerminate_of_holdsMtx hg'⟩
      | inr hbelow => exact ⟨g, by simp [hbelow], hgin⟩
    · have hfree := h.not_holdsMtx hlaw hstack (by simp [htarget])
      exfalso
      cases List.mem_cons.mp (hstack ▸ hg) with
      | inl htop =>
        have hholds := Frame.holdsMtx_of_target (by simp [htarget]) (htop ▸ hgin)
        simp [hfree] at hholds
      | inr hbelow =>
        obtain ⟨hinner, -⟩ := Frame.of_target htarget (hs.frames t x hactive f (by simp [hstack]))
        have hsettled := settled_of_pairwise (hstack ▸ hs.below t) hinner g hbelow
        simp [Frame.not_inTerminate_of_settled hsettled] at hgin
  · rwa [step_thread_of_ne hstep (Ne.symm het)]

/-- No `mtx_` is held and no thread is in `Context::Terminate`. -/
def Untouched (s : State T) : Prop :=
  (∀ u, (s.sched u).mtx = []) ∧ ∀ t, ∀ f ∈ (s.thread t).stack, f.inTerminate = false

omit [DecidableEq T] in
theorem Untouched.lawful (h : Untouched s) : MutexLaw s :=
  ⟨fun t _ _ u _ _ => by simp [h.1 u], fun t _ _ _ u _ _ _ => by simp [h.1 u]⟩

/-- This stays so as long as no worker terminates. -/
theorem Untouched.step {e : Event T} (h : Untouched s) (hs : Shape s) (he : ¬ e.terminates)
    (hstep : step s e = some s') : Untouched s' := by
  obtain ⟨hmtx, hframes⟩ := h
  cases step_inv hstep with
  | @call t x op r hactive hstack huser hop =>
    obtain ⟨-, -, hfree⟩ := hop.terminate_frames
    have hop' : op ≠ .terminate := fun h => he (by rw [h]; rfl)
    refine ⟨fun u => (hop.mtx u).trans (hmtx u), fun v f hf => ?_⟩
    by_cases hvt : v = t
    · subst hvt
      exact hfree hop' f (by simpa using hf)
    · exact hframes v f (by simpa [State.setStack_thread_of_ne _ hvt, hop.thread] using hf)
  | @frame t x f now rest r hactive hstack hframe =>
    have hf := hframes t f (by simp [hstack])
    refine ⟨fun u => ?_, fun v g hg => ?_⟩
    · rcases hframe.mtx u with hsame | ⟨⟨y, rfl⟩, -⟩ | ⟨-, htail⟩
      · simpa [hsame] using hmtx u
      · simp [Frame.inTerminate] at hf
      · simp [htail, hmtx u]
    · by_cases hvt : v = t
      · subst hvt
        cases List.mem_append.mp (by simpa using hg : g ∈ r.2 ++ rest) with
        | inl hnew => exact (hframe.not_inTerminate hf).1 g hnew
        | inr hbelow => exact hframes v g (by simp [hstack, hbelow])
      · exact hframes v g (by simpa [State.setStack_thread_of_ne _ hvt, hframe.thread_of_ne hvt] using hg)
  | @switch t x y f k now rest stack hactive hstack htarget hc =>
    refine ⟨hmtx, fun v g hg => ?_⟩
    by_cases hvt : v = t
    · subst hvt
      cases List.mem_cons.mp (by simpa [switched] using hg : g ∈ .save x k :: stack) with
      | inl hsave => exact hsave ▸ rfl
      | inr hold => exact Frame.not_inTerminate_of_settled (hs.suspended y stack hc g hold).1
    · exact hframes v g (by simpa [switched, hvt] using hg)

/-- In a run in which no worker terminates, whatever the policies, the threads and the operations are
and wherever it stops, no thread switches with a `mtx_` held or locks one twice. -/
theorem mutex_law_of_not_terminates {policy : T → Policy} {events : List (Event T)}
    (h : Runs policy (fun _ _ => True) events s) (hnever : ∀ e ∈ events, ¬ e.terminates) :
    MutexLaw s := by
  have hinv := (h.restrict hnever).invariant (I := fun s => Shape s ∧ Untouched s)
    ⟨Shape.initial policy, fun u => rfl, fun t f hf => by simp [State.initial] at hf⟩
    fun s e s' hs he hstep => ⟨hs.1.step hstep, hs.2.step hs.1 he.2 hstep⟩
  exact hinv.2.lawful

/-- In a run that leaves no thread inside `Context::Terminate`, whatever the policies, the threads
and the operations are, no thread ever switches with a `mtx_` held or locks one twice if and only if
no worker terminates. -/
theorem mutex_law_iff {policy : T → Policy} {events : List (Event T)}
    (h : Runs policy (fun _ _ => True) events s)
    (hdone : ∀ t, ∀ f ∈ (s.thread t).stack, f.inTerminate = false) :
    (∀ before s', before <+: events → Runs policy (fun _ _ => True) before s' → MutexLaw s') ↔
      ∀ e ∈ events, ¬ e.terminates := by
  constructor
  · intro hlawful e he hterm
    obtain ⟨before, after, rfl⟩ := List.append_of_mem he
    obtain ⟨s₁, s₂, hbefore, hguard, hstep, hafter⟩ := (h.passing hlawful).cut
    have hinv : ∀ (s : State T) e s', (Shape s ∧ Guarded s) → MutexLaw s ∧ True → step s e = some s' →
        Shape s' ∧ Guarded s' := fun s e s' hs hlaw hstep =>
      ⟨hs.1.step hstep, hs.2.step hs.1 hlaw.1 hstep⟩
    have hstart : Shape s₂ ∧ Guarded s₂ :=
      (Run.snoc hbefore hguard hstep).invariant ⟨Shape.initial policy, Guarded.initial policy⟩ hinv
    obtain ⟨t, x, rfl⟩ : ∃ t x, e = .call t x .terminate := by
      cases e with
      | call t x op => cases op <;> simp [Event.terminates] at hterm; exact ⟨t, x, rfl⟩
      | exec => simp [Event.terminates] at hterm
    have hin : ∃ f ∈ (s₂.thread t).stack, f.inTerminate := by
      cases step_inv hstep with
      | call hactive hstack huser hop =>
        cases hop with
        | terminate hpin => exact ⟨.schedulerTerminate x, by simp [Lutask.terminate], rfl⟩
    obtain ⟨-, f, hf, hfin⟩ := hafter.invariant
      (I := fun s => (Shape s ∧ Guarded s) ∧ ∃ f ∈ (s.thread t).stack, f.inTerminate) ⟨hstart, hin⟩
      fun s e s' hs hlaw hstep =>
        ⟨hinv s e s' hs.1 hlaw hstep, inTerminate_stays hs.1.2 hs.1.1 hlaw.1 hstep hs.2⟩
    simp [hdone t f hf] at hfin
  · intro hnever before s' hbefore hrun
    exact mutex_law_of_not_terminates hrun fun e he => hnever e (hbefore.subset he)

/-- A run of two work-sharing threads in which a fiber migrates, waits and lets another one run. -/
theorem mutex_law_migrated :
    ∃ events s, Runs (fun _ : Bool => .sharedWork) (fun _ _ => True) events s ∧
      .worker 0 ∈ s.waits (.cv 0) ∧ (s.thread true).active = some (.worker 1) ∧
        ∀ before s', before <+: events →
          Runs (fun _ => .sharedWork) (fun _ _ => True) before s' → MutexLaw s' := by
  obtain ⟨events, s, hrun, hwaits, hactive, hfalse, htrue⟩ : ∃ events s,
      Runs (fun _ : Bool => .sharedWork) (fun _ e => ¬ e.terminates) events s ∧
        (.worker 0 ∈ s.waits (.cv 0) ∧ (s.thread true).active = some (.worker 1) ∧
          (s.thread false).stack = [] ∧ (s.thread true).stack = []) :=
    reaches_of_drive [.call false (.main false) (.start .async), .frames false 2 0,
      .call false (.main false) (.start .post), .frames false 4 0,
      .call true (.main true) .yield, .frames true 5 0, .call true (.worker 0) (.lock 0),
      .call true (.worker 0) (.wait 0 0), .frames true 9 0] (by decide)
  have hall : Runs (fun _ => .sharedWork) (fun _ _ => True) events s :=
    hrun.weaken fun _ _ _ => trivial
  refine ⟨events, s, hall, hwaits, hactive, (mutex_law_iff hall fun t f hf => ?_).mpr ?_⟩
  · cases t with
    | false => simp [hfalse] at hf
    | true => simp [htrue] at hf
  · exact hrun.labels fun _ _ he => he

/-- A run of one round-robin thread in which two workers terminate: the second one is about to lock
the `mtx_` that the thread has held since the first one terminated. -/
theorem terminate_locks_twice :
    ∃ events s, Runs (fun _ : Unit => .roundRobin) (fun _ _ => True) events s ∧ ¬ MutexLaw s ∧
      ((s.thread ()).stack = [.schedulerTerminate (.worker 1)] ∧ () ∈ (s.sched ()).mtx ∧
        (s.ctx (.worker 0)).terminated) := by
  obtain ⟨events, s, hrun, hactive, hsched, hstack, hheld, hterm⟩ : ∃ events s,
      Runs (fun _ : Unit => .roundRobin) (fun _ _ => True) events s ∧
        ((s.thread ()).active = some (.worker 1) ∧ (s.ctx (.worker 1)).scheduler = some () ∧
          (s.thread ()).stack = [.schedulerTerminate (.worker 1)] ∧ () ∈ (s.sched ()).mtx ∧
            (s.ctx (.worker 0)).terminated) :=
    reaches_of_drive [.call () (.main ()) (.start .post), .frames () 2 0,
      .call () (.main ()) (.start .post), .frames () 2 0, .call () (.main ()) .yield,
      .frames () 11 0, .call () (.worker 0) .terminate, .frames () 6 0,
      .call () (.worker 1) .terminate, .frames () 1 0] (by decide)
  exact ⟨events, s, hrun, fun hlaw => hlaw.lock () _ _ [] () hactive hstack hsched hheld,
    hstack, hheld, hterm⟩

end Lutask
