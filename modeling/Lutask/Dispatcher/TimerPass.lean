import Lutask.Machine.Effects
import Lutask.Machine.Schedule

/-!
# The timer pass of a dispatcher

`ProcSleepToReady` erases the due contexts from the front of `sleepQueue_` and hands each of them to
`Schedule`. The queue is ordered by the very field that the loop resets, so the ordering is an invariant
of what the loop has not visited yet. Under `SharedWorkPolicy` the call of `Schedule` detaches a worker
first and follows its `scheduler_`, which `WaitUntil` has left null.
-/

namespace Lutask

open LabelledRuns

variable {T : Type*}

/-- The frames of `ProcSleepToReady` and of what it calls. -/
def Frame.inTimerPass : Frame T → Bool
  | .procSleep .. | .scheduleOn .. | .detach _ | .readyPush _ => true
  | _ => false

/-- The frames of `PickNext` called by `Dispatch`. -/
def Frame.inPickNext : Frame T → Bool
  | .pickNext _ none | .pickLocal _ none => true
  | _ => false

/-- Thread `t` executes a frame of this kind. -/
def Event.executes (t : T) (kind : Frame T → Bool) : Event T → Prop
  | .exec v _ f _ => v = t ∧ kind f
  | .call .. => False

/-- The context that `ProcSleepToReady` hands to `Schedule` in an event. -/
def Event.hands : Event T → Option (Ctx T)
  | .exec _ _ (.scheduleOn _ ctx) _ => some ctx
  | _ => none

/-- The contexts that were handed to `Schedule`. -/
def handed (events : List (Event T)) : List (Ctx T) := events.filterMap Event.hands

@[simp] theorem handed_append (before after : List (Event T)) :
    handed (before ++ after) = handed before ++ handed after :=
  List.filterMap_append

/-- The deadline of a context is not later than the clock reading. -/
def State.due (s : State T) (now : ℕ) (ctx : Ctx T) : Bool := decide ((s.ctx ctx).tp ≤ WithTop.some now)

/-- Thread `t` is about to execute `ProcSleepToReady` in the dispatcher of `u` at the clock reading `now`,
and `sleepQueue_` has the order of its comparison. -/
structure AtTimerPass (s : State T) (t u : T) (now : ℕ) (tail : List (Frame T)) : Prop where
  active : ∃ ctx, (s.thread t).active = some ctx
  stack : (s.thread t).stack = .procSleep u now :: .pickNext u none :: tail
  nodup : (s.sched u).sleepQueue.Nodup
  sorted : (s.sched u).sleepQueue.Pairwise fun c d => (s.ctx c).tp ≤ (s.ctx d).tp

/-- What `ProcSleepToReady` has done. -/
structure WakesDue (s : State T) (u : T) (now : ℕ) (events : List (Event T)) (s' : State T) : Prop where
  /-- The due contexts were handed to `Schedule`, in the order in which they stood in the queue. -/
  due : handed events = (s.sched u).sleepQueue.filter (s.due now)
  once : (handed events).Nodup
  ordered : (handed events).Pairwise fun c d => (s.ctx c).tp ≤ (s.ctx d).tp
  /-- The others sleep on. -/
  remaining : (s'.sched u).sleepQueue = (s.sched u).sleepQueue.filter fun c => !s.due now c
  sorted : (s'.sched u).sleepQueue.Pairwise fun c d => (s'.ctx c).tp ≤ (s'.ctx d).tp
  others : ∀ v, v ≠ u → (s'.sched v).sleepQueue = (s.sched v).sleepQueue
  /-- The deadlines of the due contexts are reset, and nobody else's. -/
  reset : ∀ c ∈ handed events, (s'.ctx c).tp = ⊤
  kept : ∀ c, c ∉ handed events → (s'.ctx c).tp = (s.ctx c).tp

/-- The time up to which `Dispatch` may suspend when these contexts sleep. -/
def IsDeadline (s : State T) (u : T) (now : ℕ) (tp : TimePoint) : Prop :=
  ((s.sched u).sleepQueue = [] ∧ tp = ⊤) ∨
    (∃ c ∈ (s.sched u).sleepQueue, tp = (s.ctx c).tp) ∧ (∀ c ∈ (s.sched u).sleepQueue, tp ≤ (s.ctx c).tp) ∧
      WithTop.some now < tp

/-- `Schedule` called for `ctx` follows no null pointer. -/
def CanSchedule (s : State T) (u : T) (ctx : Ctx T) : Prop :=
  (s.sched u).policy = .sharedWork →
    ctx.isPinned ∨ (s.ctx ctx).policy = .async ∨ (s.ctx ctx).scheduler ≠ none

/-- All due contexts can be scheduled. -/
def DueSchedulable (s : State T) (u : T) (now : ℕ) : Prop :=
  ∀ ctx ∈ (s.sched u).sleepQueue, s.due now ctx → CanSchedule s u ctx

/-- What the steps inside `Schedule(ctx)` leave as it was. -/
structure Keeps (s s' : State T) (t : T) (ctx : Ctx T) : Prop where
  active : (s'.thread t).active = (s.thread t).active
  sleepQueue : ∀ v, (s'.sched v).sleepQueue = (s.sched v).sleepQueue
  policy : ∀ v, (s'.sched v).policy = (s.sched v).policy
  tp : ∀ d, (s'.ctx d).tp = (s.ctx d).tp
  launch : ∀ d, (s'.ctx d).policy = (s.ctx d).policy
  scheduler : ∀ d, d ≠ ctx → (s'.ctx d).scheduler = (s.ctx d).scheduler

theorem Keeps.trans {s s' s'' : State T} {t : T} {ctx : Ctx T} (h : Keeps s s' t ctx)
    (h' : Keeps s' s'' t ctx) : Keeps s s'' t ctx where
  active := h'.active.trans h.active
  sleepQueue v := (h'.sleepQueue v).trans (h.sleepQueue v)
  policy v := (h'.policy v).trans (h.policy v)
  tp d := (h'.tp d).trans (h.tp d)
  launch d := (h'.launch d).trans (h.launch d)
  scheduler d hd := (h'.scheduler d hd).trans (h.scheduler d hd)

/-- One turn of the loop for `ctx`, before which the rest of the queue was `queue`. -/
structure Turned (s s' : State T) (t u : T) (ctx : Ctx T) (queue : List (Ctx T)) : Prop where
  active : (s'.thread t).active = (s.thread t).active
  sleepQueue : (s'.sched u).sleepQueue = queue
  others : ∀ v, v ≠ u → (s'.sched v).sleepQueue = (s.sched v).sleepQueue
  policy : ∀ v, (s'.sched v).policy = (s.sched v).policy
  reset : (s'.ctx ctx).tp = ⊤
  tp : ∀ d, d ≠ ctx → (s'.ctx d).tp = (s.ctx d).tp
  launch : ∀ d, (s'.ctx d).policy = (s.ctx d).policy
  scheduler : ∀ d, d ≠ ctx → (s'.ctx d).scheduler = (s.ctx d).scheduler

variable [DecidableEq T] {s s' : State T} {t u : T} {x ctx : Ctx T} {now : ℕ} {f : Frame T}
  {r : Rest T} {rest tail : List (Frame T)} {queue : List (Ctx T)} {events : List (Event T)}

/-- The runs of `ProcSleepToReady` on thread `t`. -/
abbrev TimerPass (t : T) (s : State T) (events : List (Event T)) (s' : State T) : Prop :=
  Run step (fun _ e => e.executes t Frame.inTimerPass) s events s'

/-- `ProcSleepToReady` returns and has woken the due contexts, and if `PickNext` returns null then
`Dispatch` suspends up to the first deadline that is left. -/
def PassesTimers (s : State T) (t u : T) (now : ℕ) (tail : List (Frame T)) : Prop :=
  ∃ events s', TimerPass t s events s' ∧ (s'.thread t).stack = .pickNext u none :: tail ∧
    WakesDue s u now events s' ∧ ∀ picks s'' tp,
      Run step (fun _ e => e.executes t Frame.inPickNext) s' picks s'' →
        (s''.thread t).stack = .suspendUntil u tp :: tail → IsDeadline s' u now tp

/-- A frame of `Schedule(ctx)` only touches `ctx`. -/
theorem FrameStep.keeps (h : FrameStep s t x now f r)
    (hf : f = .scheduleOn u ctx ∨ f = .detach ctx ∨ f = .readyPush ctx) (stack : List (Frame T)) :
    Keeps s (r.1.setStack t stack) t ctx := by
  cases h with
  | @scheduleOn v y =>
    exact ⟨by simp, fun w => by simp, fun w => by simp, fun d => by simp, fun d => by simp,
      fun d _ => by simp⟩
  | detachAsync | readyPush =>
    exact ⟨by simp, fun w => by simp, fun w => by simp, fun d => by simp, fun d => by simp,
      fun d _ => by simp⟩
  | @detach v y hasync hu =>
    obtain rfl : y = ctx := by simpa using hf
    refine ⟨by simp [detachWorkerContext, workerQueueRemove], fun w => ?_, fun w => ?_, fun d => ?_,
      fun d => ?_, fun d hd => ?_⟩
    · by_cases hw : w = v <;> simp [detachWorkerContext, workerQueueRemove, hw]
    · by_cases hw : w = v <;> simp [detachWorkerContext, workerQueueRemove, hw]
    · by_cases hd : d = y <;> simp [detachWorkerContext, workerQueueRemove, hd]
    · by_cases hd : d = y <;> simp [detachWorkerContext, workerQueueRemove, hd]
    · simp [detachWorkerContext, workerQueueRemove, hd]
  | pop hk | popEmpty hk => rcases hf with rfl | rfl | rfl <;> simp at hk
  | _ => simp at hf

/-- The erasure of a due context is one turn, except for its `Schedule`. -/
theorem Keeps.turned {s₁ : State T} (h : Keeps s₁ s' t ctx)
    (hs₁ : s₁ = (((s.setSched u { s.sched u with sleepQueue := queue }).setCtx ctx
      { s.ctx ctx with tp := ⊤ }).setStack t rest)) : Turned s s' t u ctx queue := by
  subst hs₁
  refine ⟨by simpa using h.active, ?_, fun v hv => ?_, fun v => ?_, ?_, fun d hd => ?_, fun d => ?_,
    fun d hd => ?_⟩
  · simp [h.sleepQueue]
  · simp [h.sleepQueue, hv]
  · by_cases hv : v = u <;> simp [h.policy, hv]
  · simp [h.tp]
  · simp [h.tp, hd]
  · by_cases hd : d = ctx <;> simp [h.launch, hd]
  · simp [h.scheduler d hd, hd]

section Forward

/-- The execution of one frame in place. -/
theorem timerPass_frame (hactive : (s.thread t).active = some x)
    (hstack : (s.thread t).stack = f :: rest) (hf : f.inTimerPass)
    (hr : execFrame s t x now f = some r) :
    TimerPass t s [.exec t x f now] (r.1.setStack t (r.2 ++ rest)) := by
  have htarget : f.target = none := by cases f <;> simp_all [Frame.inTimerPass, Frame.target]
  exact Run.snoc .nil ⟨rfl, hf⟩ (step_of_execFrame hactive hstack htarget hr)

/-- `Schedule(ctx)` returns if it can. -/
theorem schedule_returns (hactive : (s.thread t).active = some x)
    (hstack : (s.thread t).stack = .scheduleOn u ctx :: rest) (hcan : CanSchedule s u ctx) :
    ∃ events s', TimerPass t s events s' ∧ (s'.thread t).stack = rest ∧ Keeps s s' t ctx ∧
      handed events = [ctx] := by
  have hr : execFrame s t x 0 (.scheduleOn u ctx) = some (schedule s u ctx) := rfl
  have hfirst := timerPass_frame hactive hstack rfl hr
  have hkeeps := (execFrame_inv hr).keeps (.inl rfl) ((schedule s u ctx).2 ++ rest)
  rcases schedule_cases s u ctx with ⟨hpush, hr⟩ | ⟨hpolicy, hpinned, hr⟩
  · refine ⟨_, _, hfirst, ?_, hkeeps, rfl⟩
    rw [hr]
    simp
  · rw [hr] at hfirst hkeeps
    set s₁ := s.setStack t ([.detach ctx] ++ rest) with hs₁
    have hactive₁ : (s₁.thread t).active = some x := by simp [s₁, hactive]
    have hstack₁ : (s₁.thread t).stack = .detach ctx :: rest := by simp [s₁]
    have hdetach : ∃ r, execFrame s₁ t x 0 (.detach ctx) = some r ∧ r.2 = [.readyPush ctx] := by
      by_cases hasync : (s.ctx ctx).policy = .async
      · exact ⟨(s₁, [.readyPush ctx]), by simp [execFrame, detach, s₁, hasync], rfl⟩
      · have hsched : (s.ctx ctx).scheduler ≠ none := by simpa [hpinned, hasync] using hcan hpolicy
        obtain ⟨v, hv⟩ := Option.ne_none_iff_exists'.mp hsched
        exact ⟨(detachWorkerContext s₁ v ctx, [.readyPush ctx]),
          by simp [execFrame, detach, s₁, hasync, hv], rfl⟩
    obtain ⟨r₁, hr₁, hnext⟩ := hdetach
    have hsecond := timerPass_frame hactive₁ hstack₁ rfl hr₁
    have hkeeps₁ := (execFrame_inv hr₁).keeps (u := u) (.inr (.inl rfl)) (r₁.2 ++ rest)
    rw [hnext] at hsecond hkeeps₁
    set s₂ := r₁.1.setStack t ([.readyPush ctx] ++ rest) with hs₂
    have hactive₂ : (s₂.thread t).active = some x := hkeeps₁.active.trans hactive₁
    have hstack₂ : (s₂.thread t).stack = .readyPush ctx :: rest := by simp [s₂]
    have hpush : execFrame s₂ t x 0 (.readyPush ctx) =
        some ({ s₂ with readyQueue := s₂.readyQueue ++ [ctx] }, []) := rfl
    have hthird := timerPass_frame hactive₂ hstack₂ rfl hpush
    have hkeeps₂ := (execFrame_inv hpush).keeps (u := u) (.inr (.inr rfl)) ([] ++ rest)
    refine ⟨_, _, (hfirst.append hsecond).append hthird, by simp, (hkeeps.trans hkeeps₁).trans hkeeps₂, ?_⟩
    simp [handed, Event.hands]

/-- One turn of the loop. -/
theorem turn_returns (hactive : (s.thread t).active = some x)
    (hstack : (s.thread t).stack = .procSleep u now :: rest)
    (hqueue : (s.sched u).sleepQueue = ctx :: queue) (hdue : s.due now ctx)
    (hcan : CanSchedule s u ctx) :
    ∃ events s', TimerPass t s events s' ∧ (s'.thread t).stack = .procSleep u now :: rest ∧
      Turned s s' t u ctx queue ∧ handed events = [ctx] := by
  have hle : (s.ctx ctx).tp ≤ WithTop.some now := of_decide_eq_true hdue
  have hexec : execFrame s t x 0 (.procSleep u now) = some (procSleep s u now) := rfl
  have hfirst := timerPass_frame hactive hstack rfl hexec
  have hr : procSleep s u now = ((s.setSched u { s.sched u with sleepQueue := queue }).setCtx ctx
      { s.ctx ctx with tp := ⊤ }, [.scheduleOn u ctx, .procSleep u now]) := by
    simp only [procSleep, hqueue, if_pos hle]
  rw [hr] at hfirst
  set s₁ := ((s.setSched u { s.sched u with sleepQueue := queue }).setCtx ctx
    { s.ctx ctx with tp := ⊤ }).setStack t (.scheduleOn u ctx :: .procSleep u now :: rest) with hs₁
  have hactive₁ : (s₁.thread t).active = some x := by simp [s₁, hactive]
  have hstack₁ : (s₁.thread t).stack = .scheduleOn u ctx :: .procSleep u now :: rest := by simp [s₁]
  have hcan₁ : CanSchedule s₁ u ctx := by simpa [CanSchedule, s₁] using hcan
  obtain ⟨events, s', hrun, hstack', hkeeps, hhanded⟩ := schedule_returns hactive₁ hstack₁ hcan₁
  have hhands : handed (.exec t x (.procSleep u now) 0 :: events) = [ctx] := by
    exact hhanded
  exact ⟨_, s', hfirst.append hrun, hstack', hkeeps.turned hs₁, hhands⟩

end Forward

section Backward

/-- The first step of a run of `ProcSleepToReady` executes the topmost frame. -/
theorem TimerPass.first (h : TimerPass t s events s') (hstack : (s.thread t).stack = f :: rest)
    (htarget : f.target = none) (hmoved : (s'.thread t).stack.length ≤ rest.length) :
    ∃ x now r events', FrameStep s t x now f r ∧
      TimerPass t (r.1.setStack t (r.2 ++ rest)) events' s' := by
  cases events with
  | nil =>
    obtain rfl := h.eq_of_nil
    rw [hstack, List.length_cons] at hmoved
    omega
  | cons e events =>
    obtain ⟨next, hguard, hfire, hrest⟩ := h.head
    have he : e.thread = t := by
      cases e with
      | call => exact hguard.elim
      | exec => exact hguard.1
    obtain ⟨x, now, rfl, -, hstep⟩ := step_top hfire he hstack
    cases hstep with
    | inl hframe =>
      obtain ⟨r, hframe, rfl⟩ := hframe
      exact ⟨x, now, r, events, hframe, hrest⟩
    | inr hswitch =>
      obtain ⟨y, k, stack, hsome, -⟩ := hswitch
      simp [htarget] at hsome

/-- A call of `Schedule(ctx)` that returns has followed no null pointer. -/
theorem TimerPass.schedule (h : TimerPass t s events s')
    (hstack : (s.thread t).stack = .scheduleOn u ctx :: rest)
    (hmoved : (s'.thread t).stack.length ≤ rest.length) :
    ∃ s₁ events', (s₁.thread t).stack = rest ∧ Keeps s s₁ t ctx ∧ CanSchedule s u ctx ∧
      TimerPass t s₁ events' s' := by
  obtain ⟨x, now, r, events₁, hframe, hrun⟩ := h.first hstack rfl hmoved
  have hkeeps := hframe.keeps (.inl rfl) (r.2 ++ rest)
  cases hframe with
  | pop hf | popEmpty hf => simp at hf
  | scheduleOn =>
    rcases schedule_cases s u ctx with ⟨hpush, hr⟩ | ⟨hpolicy, hpinned, hr⟩
    · rw [hr] at hrun hkeeps
      refine ⟨_, _, by simp, hkeeps, fun hpolicy => .inl ?_, hrun⟩
      simpa [hpolicy] using hpush
    · rw [hr] at hrun hkeeps
      have hstack₁ : ((s.setStack t ([.detach ctx] ++ rest)).thread t).stack = .detach ctx :: rest := by
        simp
      obtain ⟨y, now₁, r₁, events₂, hdetach, hrun₁⟩ := hrun.first hstack₁ rfl hmoved
      have hkeeps₁ := hdetach.keeps (u := u) (.inr (.inl rfl)) (r₁.2 ++ rest)
      have hnext : r₁.2 = [.readyPush ctx] ∧
          ((s.ctx ctx).policy = .async ∨ (s.ctx ctx).scheduler ≠ none) := by
        cases hdetach with
        | pop hf | popEmpty hf => simp at hf
        | detachAsync hasync => exact ⟨rfl, .inl (by simpa using hasync)⟩
        | detach hasync hu =>
          have hsome : (s.ctx ctx).scheduler = some _ := hu
          exact ⟨rfl, .inr (by simp [hsome])⟩
      rw [hnext.1] at hrun₁ hkeeps₁
      have hstack₂ : ((r₁.1.setStack t ([.readyPush ctx] ++ rest)).thread t).stack =
          .readyPush ctx :: rest := by simp
      obtain ⟨z, now₂, r₂, events₃, hpush, hrun₂⟩ := hrun₁.first hstack₂ rfl hmoved
      have hkeeps₂ := hpush.keeps (u := u) (.inr (.inr rfl)) (r₂.2 ++ rest)
      have hdone : r₂.2 = [] := by
        cases hpush with
        | pop hf | popEmpty hf => simp at hf
        | readyPush => rfl
      rw [hdone] at hrun₂ hkeeps₂
      exact ⟨_, _, by simp, (hkeeps.trans hkeeps₁).trans hkeeps₂, fun _ => .inr hnext.2, hrun₂⟩

/-- A turn of the loop that is left behind has scheduled its context. -/
theorem TimerPass.turn (h : TimerPass t s events s')
    (hstack : (s.thread t).stack = .procSleep u now :: rest)
    (hmoved : (s'.thread t).stack.length ≤ rest.length)
    (hqueue : (s.sched u).sleepQueue = ctx :: queue) (hdue : s.due now ctx) :
    ∃ s₁ events', (s₁.thread t).stack = .procSleep u now :: rest ∧ Turned s s₁ t u ctx queue ∧
      CanSchedule s u ctx ∧ TimerPass t s₁ events' s' := by
  obtain ⟨x, now₁, r, events₁, hframe, hrun⟩ := h.first hstack rfl hmoved
  cases hframe with
  | pop hf | popEmpty hf => simp at hf
  | procSleepDone hsleep =>
    have hlate := hsleep ctx (by simp [hqueue])
    exact absurd (of_decide_eq_true hdue) hlate
  | @procSleepDue u n y rest' hsleep hdue' =>
    obtain ⟨rfl, rfl⟩ := List.cons.inj (hqueue.symm.trans hsleep)
    have hmoved₁ : (s'.thread t).stack.length ≤ (Frame.procSleep u now :: rest).length := by
      rw [List.length_cons]
      omega
    set s₀ := ((s.setSched u { s.sched u with sleepQueue := queue }).setCtx ctx
      { s.ctx ctx with tp := ⊤ }).setStack t (.scheduleOn u ctx :: .procSleep u now :: rest) with hs₀
    have hstack₀ : (s₀.thread t).stack = .scheduleOn u ctx :: .procSleep u now :: rest := by simp [s₀]
    obtain ⟨s₁, events₂, hstack₁, hkeeps, hcan, hrest⟩ := TimerPass.schedule hrun hstack₀ hmoved₁
    exact ⟨s₁, events₂, hstack₁, hkeeps.turned rfl, by simpa [CanSchedule] using hcan, hrest⟩

end Backward

section Turns

variable {first : List (Event T)} {s₁ : State T}

omit [DecidableEq T] in
/-- A turn does not change what is to come for the rest of the queue. -/
theorem Turned.due (h : Turned s s₁ t u ctx queue) (hctx : ctx ∉ queue) {c : Ctx T} (hc : c ∈ queue) :
    s₁.due now c = s.due now c := by
  have hne : c ≠ ctx := fun heq => hctx (heq ▸ hc)
  simp [State.due, h.tp c hne]

omit [DecidableEq T] in
theorem Turned.canSchedule (h : Turned s s₁ t u ctx queue) (hctx : ctx ∉ queue) {c : Ctx T}
    (hc : c ∈ queue) : CanSchedule s₁ u c ↔ CanSchedule s u c := by
  have hne : c ≠ ctx := fun heq => hctx (heq ▸ hc)
  simp only [CanSchedule, h.policy, h.launch, h.scheduler c hne]

omit [DecidableEq T] in
theorem Turned.sorted (h : Turned s s₁ t u ctx queue) (hctx : ctx ∉ queue)
    (hsorted : queue.Pairwise fun c d => (s.ctx c).tp ≤ (s.ctx d).tp) :
    queue.Pairwise fun c d => (s₁.ctx c).tp ≤ (s₁.ctx d).tp := by
  refine hsorted.imp_of_mem fun {c d} hc hd hle => ?_
  have hcne : c ≠ ctx := fun heq => hctx (heq ▸ hc)
  have hdne : d ≠ ctx := fun heq => hctx (heq ▸ hd)
  rwa [h.tp c hcne, h.tp d hdne]

omit [DecidableEq T] in
/-- If the first sleeper is not due then nobody is. -/
theorem not_due_of_head {c : Ctx T}
    (hsorted : (ctx :: queue).Pairwise fun c d => (s.ctx c).tp ≤ (s.ctx d).tp)
    (hlate : s.due now ctx = false) (hc : c ∈ ctx :: queue) : s.due now c = false := by
  have hfirst : ¬ (s.ctx ctx).tp ≤ WithTop.some now := of_decide_eq_false hlate
  have hle : (s.ctx ctx).tp ≤ (s.ctx c).tp := by
    cases List.mem_cons.mp hc with
    | inl heq => rw [heq]
    | inr hmem => exact List.rel_of_pairwise_cons hsorted hmem
  exact decide_eq_false fun hdue => hfirst (hle.trans hdue)

/-- A turn comes first, and then the rest of the loop. -/
theorem WakesDue.turn (h : WakesDue s₁ u now events s') (hturn : Turned s s₁ t u ctx queue)
    (hqueue : (s.sched u).sleepQueue = ctx :: queue) (hctx : ctx ∉ queue)
    (hsorted : (ctx :: queue).Pairwise fun c d => (s.ctx c).tp ≤ (s.ctx d).tp) (hdue : s.due now ctx)
    (hfirst : handed first = [ctx]) : WakesDue s u now (first ++ events) s' := by
  have hfilter : queue.filter (s₁.due now) = queue.filter (s.due now) :=
    List.filter_congr fun c hc => hturn.due hctx hc
  have hfilterNot : queue.filter (fun c => !s₁.due now c) = queue.filter fun c => !s.due now c :=
    List.filter_congr fun c hc => by rw [hturn.due hctx hc]
  have hhanded : handed (first ++ events) = ctx :: handed events := by simp [hfirst]
  have hlater : handed events = queue.filter (s.due now) := by
    rw [h.due, hturn.sleepQueue, hfilter]
  have hsub : ∀ c ∈ handed events, c ∈ queue := by
    intro c hc
    rw [hlater] at hc
    exact List.mem_of_mem_filter hc
  refine
    { due := ?_
      once := ?_
      ordered := ?_
      remaining := ?_
      sorted := h.sorted
      others := fun v hv => (h.others v hv).trans (hturn.others v hv)
      reset := ?_
      kept := ?_ }
  · rw [hhanded, hqueue, List.filter_cons_of_pos hdue, hlater]
  · rw [hhanded]
    exact List.nodup_cons.mpr ⟨fun hmem => hctx (hsub _ hmem), h.once⟩
  · rw [hhanded, hlater]
    exact hsorted.sublist (List.Sublist.cons_cons ctx List.filter_sublist)
  · rw [h.remaining, hturn.sleepQueue, hqueue, hfilterNot, List.filter_cons_of_neg (by simp [hdue])]
  · intro c hc
    rw [hhanded] at hc
    by_cases hlate : c ∈ handed events
    · exact h.reset c hlate
    · obtain rfl : c = ctx := by simpa [hlate] using hc
      rw [h.kept c hlate, hturn.reset]
  · intro c hc
    rw [hhanded, List.mem_cons, not_or] at hc
    rw [h.kept c hc.2, hturn.tp c hc.1]

/-- The end of the loop: nobody is due any more. -/
theorem WakesDue.done (hsorted : (s.sched u).sleepQueue.Pairwise fun c d => (s.ctx c).tp ≤ (s.ctx d).tp)
    (hlate : ∀ c ∈ (s.sched u).sleepQueue, s.due now c = false) (hfirst : handed first = [])
    (stack : List (Frame T)) : WakesDue s u now first (s.setStack t stack) where
  due := by
    rw [hfirst, List.filter_eq_nil_iff.mpr]
    intro c hc
    simp [hlate c hc]
  once := by simp [hfirst]
  ordered := by simp [hfirst]
  remaining := by
    rw [State.setStack_sched, List.filter_eq_self.mpr]
    intro c hc
    simp [hlate c hc]
  sorted := hsorted
  others _ _ := rfl
  reset c hc := by simp [hfirst] at hc
  kept _ _ := rfl

/-- `ProcSleepToReady` ends in front of a context that is not due. -/
theorem procSleep_done (hactive : (s.thread t).active = some x)
    (hstack : (s.thread t).stack = .procSleep u now :: rest)
    (hsorted : (s.sched u).sleepQueue.Pairwise fun c d => (s.ctx c).tp ≤ (s.ctx d).tp)
    (hlate : ∀ c ∈ (s.sched u).sleepQueue, s.due now c = false) :
    ∃ events s', TimerPass t s events s' ∧ (s'.thread t).stack = rest ∧ WakesDue s u now events s' := by
  have hr : procSleep s u now = (s, []) := by
    cases hqueue : (s.sched u).sleepQueue with
    | nil => simp [procSleep, hqueue]
    | cons ctx queue =>
      have hfirst : ¬ (s.ctx ctx).tp ≤ WithTop.some now :=
        of_decide_eq_false (hlate ctx (by simp [hqueue]))
      simp only [procSleep, hqueue, if_neg hfirst]
  have hexec : execFrame s t x 0 (.procSleep u now) = some (procSleep s u now) := rfl
  have hrun := timerPass_frame hactive hstack rfl hexec
  rw [hr] at hrun
  exact ⟨_, _, hrun, by simp, .done hsorted hlate rfl _⟩

/-- `ProcSleepToReady` returns if all due contexts can be scheduled. The induction is on the queue. -/
theorem procSleep_returns (hactive : (s.thread t).active = some x)
    (hstack : (s.thread t).stack = .procSleep u now :: rest)
    (hqueue : (s.sched u).sleepQueue = queue) (hnodup : queue.Nodup)
    (hsorted : queue.Pairwise fun c d => (s.ctx c).tp ≤ (s.ctx d).tp)
    (hcan : ∀ c ∈ queue, s.due now c → CanSchedule s u c) :
    ∃ events s', TimerPass t s events s' ∧ (s'.thread t).stack = rest ∧ WakesDue s u now events s' := by
  induction queue generalizing s with
  | nil => exact procSleep_done hactive hstack (hqueue ▸ hsorted) (by simp [hqueue])
  | cons ctx queue ih =>
    obtain ⟨hctx, hnodup'⟩ := List.nodup_cons.mp hnodup
    cases hdue : s.due now ctx with
    | false =>
      apply procSleep_done hactive hstack (hqueue ▸ hsorted)
      intro c hc
      rw [hqueue] at hc
      exact not_due_of_head hsorted hdue hc
    | true =>
      obtain ⟨first, s₁, hfirst, hstack₁, hturn, hhanded⟩ :=
        turn_returns hactive hstack hqueue hdue (hcan ctx (by simp) hdue)
      have hcan₁ : ∀ c ∈ queue, s₁.due now c → CanSchedule s₁ u c := by
        intro c hc hdue'
        rw [hturn.canSchedule hctx hc]
        exact hcan c (List.mem_cons_of_mem _ hc) (hturn.due hctx hc ▸ hdue')
      have hsorted₁ := hturn.sorted hctx (List.Pairwise.of_cons hsorted)
      obtain ⟨events, s', hrun, hstack', hwakes⟩ :=
        ih (hturn.active.trans hactive) hstack₁ hturn.sleepQueue hnodup' hsorted₁ hcan₁
      exact ⟨first ++ events, s', hfirst.append hrun, hstack',
        hwakes.turn hturn hqueue hctx hsorted hdue hhanded⟩

/-- If `ProcSleepToReady` returns, it has scheduled all due contexts. -/
theorem TimerPass.dueSchedulable (h : TimerPass t s events s')
    (hstack : (s.thread t).stack = .procSleep u now :: rest)
    (hmoved : (s'.thread t).stack.length ≤ rest.length)
    (hqueue : (s.sched u).sleepQueue = queue) (hnodup : queue.Nodup)
    (hsorted : queue.Pairwise fun c d => (s.ctx c).tp ≤ (s.ctx d).tp) :
    ∀ c ∈ queue, s.due now c → CanSchedule s u c := by
  induction queue generalizing s events with
  | nil => simp
  | cons ctx queue ih =>
    obtain ⟨hctx, hnodup'⟩ := List.nodup_cons.mp hnodup
    intro c hc hdue
    cases hfirst : s.due now ctx with
    | false => simp [not_due_of_head hsorted hfirst hc] at hdue
    | true =>
      obtain ⟨s₁, events', hstack₁, hturn, hcan, hrun⟩ := h.turn hstack hmoved hqueue hfirst
      cases List.mem_cons.mp hc with
      | inl heq => exact heq ▸ hcan
      | inr hmem =>
        rw [← hturn.canSchedule hctx hmem]
        have hsorted₁ := hturn.sorted hctx (List.Pairwise.of_cons hsorted)
        exact ih hrun hstack₁ hturn.sleepQueue hnodup' hsorted₁ c hmem ((hturn.due hctx hmem).symm ▸ hdue)

end Turns

section Suspension

/-- `PickNext` called by `Dispatch` in state `s` has come this far. -/
structure Picking (s : State T) (t u : T) (tail : List (Frame T)) (s' : State T) : Prop where
  sleepQueue : (s'.sched u).sleepQueue = (s.sched u).sleepQueue
  tp : ∀ d, (s'.ctx d).tp = (s.ctx d).tp
  stack : ∃ f, (s'.thread t).stack = f :: tail ∧
    (f = .pickNext u none ∨ f = .pickLocal u none ∨ f = .suspendUntil u (suspendTime s u) ∨
      f.inPickNext = false ∧ ∀ v tp, f ≠ .suspendUntil v tp)

omit [DecidableEq T] in
/-- `suspendTime` reads nothing but the queue and the deadlines. -/
theorem Picking.suspendTime (h : Picking s t u tail s') : suspendTime s' u = suspendTime s u := by
  unfold Lutask.suspendTime
  rw [h.sleepQueue]
  cases (s.sched u).sleepQueue with
  | nil => rfl
  | cons c queue => exact h.tp c

theorem Picking.step {e : Event T} {s₁ : State T} (h : Picking s t u tail s₁)
    (he : e.executes t Frame.inPickNext) (hstep : step s₁ e = some s') : Picking s t u tail s' := by
  obtain ⟨f, hstack, hf⟩ := h.stack
  have hthread : e.thread = t := by
    cases e with
    | call => exact he.elim
    | exec => exact he.1
  obtain ⟨x, now, rfl, -, hcases⟩ := step_top hstep hthread hstack
  have hpick : f = .pickNext u none ∨ f = .pickLocal u none := by
    have hkind : f.inPickNext := he.2
    rcases hf with hf | hf | rfl | hf
    · exact .inl hf
    · exact .inr hf
    · simp [Frame.inPickNext] at hkind
    · simp [hf.1] at hkind
  have hframe : ∃ r, FrameStep s₁ t x now f r ∧ s' = r.1.setStack t (r.2 ++ tail) := by
    cases hcases with
    | inl hframe => exact hframe
    | inr hswitch =>
      obtain ⟨y, k, stack, htarget, -⟩ := hswitch
      rcases hpick with rfl | rfl <;> simp [Frame.target] at htarget
  obtain ⟨r, hframe, rfl⟩ := hframe
  have hchosen : (∀ v, (r.1.sched v).sleepQueue = (s₁.sched v).sleepQueue) ∧
      (∀ d, (r.1.ctx d).tp = (s₁.ctx d).tp) ∧ ∃ g, r.2 = [g] ∧
        (g = .pickLocal u none ∨ g = .suspendUntil u (Lutask.suspendTime s₁ u) ∨
          g.inPickNext = false ∧ ∀ v tp, g ≠ .suspendUntil v tp) := by
    cases hframe with
    | @pop f v k y queue hk hqueue =>
      refine ⟨fun w => ?_, fun d => rfl, _, rfl, .inr (.inr ⟨rfl, by simp⟩)⟩
      by_cases hw : w = v <;> simp [hw]
    | @popEmpty f v hk hqueue =>
      obtain rfl : u = v := by
        rcases hpick with rfl | rfl
        · have hboth : u = v ∧ (s₁.sched v).policy = .roundRobin := by simpa using hk
          exact hboth.1
        · simpa using hk
      exact ⟨fun w => rfl, fun d => rfl, _, rfl, .inr (.inl rfl)⟩
    | pickReady => exact ⟨fun w => rfl, fun d => rfl, _, rfl, .inr (.inr ⟨rfl, by simp⟩)⟩
    | @pickReadyEmpty v k hpolicy hready =>
      obtain ⟨rfl, rfl⟩ : v = u ∧ k = none := by simpa using hpick
      exact ⟨fun w => rfl, fun d => rfl, _, rfl, .inl rfl⟩
    | _ => simp at hpick
  obtain ⟨hqueue, htp, g, hg, hnext⟩ := hchosen
  refine ⟨(hqueue u).trans h.sleepQueue, fun d => (htp d).trans (h.tp d), g, by simp [hg], ?_⟩
  rw [h.suspendTime] at hnext
  exact .inr hnext

/-- If `PickNext` returns null, `Dispatch` suspends up to the deadline that it finds. -/
theorem suspendUntil_of_picks {picks : List (Event T)} {tp : TimePoint}
    (h : Run Lutask.step (fun _ e => e.executes t Frame.inPickNext) s picks s')
    (hstack : (s.thread t).stack = .pickNext u none :: tail)
    (hnull : (s'.thread t).stack = .suspendUntil u tp :: tail) : tp = suspendTime s u := by
  have hpicking : Picking s t u tail s' := h.invariant
    ⟨rfl, fun _ => rfl, _, hstack, .inl rfl⟩ fun _ _ _ hp he hstep => hp.step he hstep
  obtain ⟨f, hf, hcases⟩ := hpicking.stack
  obtain rfl : f = .suspendUntil u tp := by simpa using hf.symm.trans hnull
  simpa using hcases

omit [DecidableEq T] in
/-- The deadline of the first sleeper is the least one, and it lies ahead. -/
theorem WakesDue.isDeadline {events : List (Event T)} (h : WakesDue s u now events s') :
    IsDeadline s' u now (suspendTime s' u) := by
  cases hqueue : (s'.sched u).sleepQueue with
  | nil => exact .inl ⟨hqueue, by simp [suspendTime, hqueue]⟩
  | cons c queue =>
    have htime : suspendTime s' u = (s'.ctx c).tp := by simp [suspendTime, hqueue]
    have hsorted := h.sorted
    have hc : c ∈ (s.sched u).sleepQueue.filter fun c => !s.due now c := by
      rw [← h.remaining, hqueue]
      exact List.mem_cons_self
    obtain ⟨hmem, hlate⟩ := List.mem_filter.mp hc
    have hunhanded : c ∉ handed events := by
      rw [h.due]
      intro hdue
      simp [(List.mem_filter.mp hdue).2] at hlate
    have hahead : WithTop.some now < (s'.ctx c).tp := by
      rw [h.kept c hunhanded]
      simpa [State.due] using hlate
    unfold IsDeadline
    rw [htime, hqueue]
    refine .inr ⟨⟨c, List.mem_cons_self, rfl⟩, fun d hd => ?_, hahead⟩
    rw [hqueue] at hsorted
    cases List.mem_cons.mp hd with
    | inl heq => rw [heq]
    | inr hlater => exact List.rel_of_pairwise_cons hsorted hlater

/-- The timer pass does what it is for exactly if `Schedule` can follow the pointers of the due contexts. -/
theorem timer_pass_iff (h : AtTimerPass s t u now tail) :
    PassesTimers s t u now tail ↔ DueSchedulable s u now := by
  constructor
  · rintro ⟨events, s', hrun, hstack, -, -⟩
    exact hrun.dueSchedulable h.stack (by rw [hstack]) rfl h.nodup h.sorted
  · intro hcan
    obtain ⟨x, hactive⟩ := h.active
    obtain ⟨events, s', hrun, hstack, hwakes⟩ :=
      procSleep_returns hactive h.stack rfl h.nodup h.sorted hcan
    refine ⟨events, s', hrun, hstack, hwakes, fun picks s'' tp hpicks hnull => ?_⟩
    obtain rfl := suspendUntil_of_picks hpicks hstack hnull
    exact hwakes.isDeadline

/-- Main sleeps until 10 and a worker until 30. At 20 the pass hands main to `Schedule` and leaves the
worker in the queue. -/
theorem main_due_passes : ∃ events s, Runs (fun _ => .roundRobin) (fun _ _ => True) events s ∧
    (s.sched ()).sleepQueue = [.main (), .worker 0] ∧ (s.due 20 (.main ()) ∧ ¬ s.due 20 (.worker 0)) ∧
    (DueSchedulable s () 20 ∧ PassesTimers s () () 20 [.dispatch ()]) := by
  obtain ⟨events, s, hrun, hactive, hstack, hqueue, hpolicy, hsorted, hdue⟩ : ∃ events s,
      Runs (fun _ => .roundRobin) (fun _ _ => True) events s ∧
        (s.thread ()).active = some (.dispatcher ()) ∧
        (s.thread ()).stack = [.procSleep () 20, .pickNext () none, .dispatch ()] ∧
        (s.sched ()).sleepQueue = [.main (), .worker 0] ∧ (s.sched ()).policy = .roundRobin ∧
        (s.ctx (.main ())).tp ≤ (s.ctx (.worker 0)).tp ∧
        (s.due 20 (.main ()) ∧ ¬ s.due 20 (.worker 0)) :=
    reaches_of_drive [.call () (.main ()) (.start .post), .frames () 2 0,
      .call () (.main ()) (.waitUntil (WithTop.some 10)), .frames () 11 0,
      .call () (.worker 0) (.waitUntil (WithTop.some 30)), .frames () 4 0,
      .call () (.main ()) .yield, .frames () 6 20] (by decide)
  have hat : AtTimerPass s () () 20 [.dispatch ()] :=
    ⟨⟨_, hactive⟩, hstack, by simp [hqueue], by simpa [hqueue] using hsorted⟩
  have hcan : DueSchedulable s () 20 := fun ctx _ _ hshared => by simp [hpolicy] at hshared
  exact ⟨events, s, hrun, hqueue, hdue, hcan, (timer_pass_iff hat).mpr hcan⟩

/-- Under `SharedWorkPolicy` the switch of `WaitUntil` has detached the sleeper, so that the pass that
should wake it follows a null `scheduler_`. -/
theorem detached_sleeper_not_woken : ∃ events s, Runs (fun _ => .sharedWork) (fun _ _ => True) events s ∧
    AtTimerPass s () () 20 [.dispatch ()] ∧ ¬ PassesTimers s () () 20 [.dispatch ()] := by
  obtain ⟨events, s, hrun, hactive, hstack, hqueue, hdue, hpolicy, hlaunch, hscheduler⟩ : ∃ events s,
      Runs (fun _ => .sharedWork) (fun _ _ => True) events s ∧
        (s.thread ()).active = some (.dispatcher ()) ∧
        (s.thread ()).stack = [.procSleep () 20, .pickNext () none, .dispatch ()] ∧
        (s.sched ()).sleepQueue = [.worker 0] ∧ s.due 20 (.worker 0) ∧
        (s.sched ()).policy = .sharedWork ∧ (s.ctx (.worker 0)).policy = .post ∧
        (s.ctx (.worker 0)).scheduler = none :=
    reaches_of_drive [.call () (.main ()) (.start .post), .frames () 4 0, .call () (.main ()) .yield,
      .frames () 5 0, .call () (.worker 0) (.waitUntil (WithTop.some 10)), .frames () 9 20] (by decide)
  have hat : AtTimerPass s () () 20 [.dispatch ()] :=
    ⟨⟨_, hactive⟩, hstack, by simp [hqueue], by simp [hqueue]⟩
  refine ⟨events, s, hrun, hat, ?_⟩
  rintro ⟨events', s', hpass, hstack', -, -⟩
  have hcan := hpass.dueSchedulable hat.stack (by rw [hstack']) rfl hat.nodup hat.sorted (.worker 0)
    (by simp [hqueue]) hdue hpolicy
  simp [Ctx.isPinned, hlaunch, hscheduler] at hcan

end Suspension

end Lutask
