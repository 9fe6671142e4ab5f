import Lutask.Support.Queueing
import Lutask.Machine.Pinned
import Lutask.Machine.Placement
import Lutask.Machine.Schedule
import Lutask.RoundRobin.Order

/-!
# Workers before pinned contexts on one work-sharing thread

`PickNext` turns to `localQueue_` only when it has found the static `readyQueue_` empty, so workers that
yield to one another are served before main and the dispatcher. Both queues are served from the front: the
workers take turns, and a pinned context gives way exactly at those calls of `PickNext` that find a worker.
-/

namespace Lutask

open LabelledRuns Queueing

variable {T : Type*}

/-- The context that `PickNext` or `_Start` has chosen and that is about to be resumed. -/
def Frame.incoming : Frame T → Option (Ctx T)
  | .attachResume y _ | .resume y _ => some y
  | _ => none

/-- The context that is put at the back of the static queue in an event. -/
def Event.readies : Event T → Option (Ctx T)
  | .exec _ _ (.readyPush y) _ => some y
  | _ => none

/-- The contexts that are put at the back of the static queue in a run, in this order. -/
def readied (events : List (Event T)) : List (Ctx T) :=
  events.filterMap Event.readies

@[simp] theorem readied_append (before after : List (Event T)) :
    readied (before ++ after) = readied before ++ readied after :=
  List.filterMap_append

@[simp] theorem readied_singleton (e : Event T) : readied [e] = e.readies.toList := by
  cases h : e.readies <;> simp [readied, h]

/-- `PickNext` turns to `localQueue_`. -/
def Event.picksLocal : Event T → Bool
  | .exec _ _ (.pickLocal ..) _ => true
  | _ => false

/-- A frame below the top of a stack has chosen nobody. -/
theorem Frame.Below.incoming {f g : Frame T} (h : f.Below g) : g.incoming = none := by
  cases h with
  | inl hsettled => cases g <;> simp [Frame.isSettled] at hsettled <;> rfl
  | inr hinner => cases g <;> simp [Frame.isOuter] at hinner <;> rfl

theorem incoming_of_below {f : Frame T} {rest : List (Frame T)} (h : (f :: rest).Pairwise Frame.Below) :
    rest.filterMap Frame.incoming = [] :=
  List.filterMap_eq_nil_iff.mpr fun g hg => ((List.pairwise_cons.mp h).1 g hg).incoming

/-- Only a switch by `resume` resumes the context that was chosen. -/
theorem Frame.incoming_of_target {f : Frame T} {y : Ctx T} {k : Switch T} (h : f.target = some (y, k)) :
    f.incoming = some y ∨ f.incoming = none ∧ y.isPinned := by
  cases f with
  | resume z k' =>
    obtain ⟨rfl, -⟩ : z = y ∧ k' = k := by simpa [Frame.target] using h
    exact .inl rfl
  | returnToMain u =>
    obtain ⟨rfl, -⟩ : Ctx.main u = y ∧ Switch.suspendWithCC = k := by simpa [Frame.target] using h
    exact .inr ⟨rfl, rfl⟩
  | _ => simp [Frame.target] at h

section Steps

variable [DecidableEq T] {s : State T} {t : T} {x : Ctx T} {now : ℕ} {f : Frame T} {op : Op T} {r : Rest T}

/-- Only a start with `Dispatch` chooses at once, and it chooses the new worker. -/
theorem OpStep.incoming (h : OpStep s x op r) :
    ∀ f ∈ r.2, ∀ y, f.incoming = some y → y = .worker s.fresh := by
  cases h with
  | start launch => cases launch <;> simp [Lutask.start, Frame.incoming, eq_comm]
  | _ => simp [Lutask.yield, Lutask.waitUntil, Lutask.terminate, Lutask.destructor, Frame.incoming]

/-- What a frame does to the static queue, together with the context chosen from it: a push, or nothing
to their order. A context may also be chosen from a policy's own queue. -/
theorem FrameStep.line (h : FrameStep s t x now f r) :
    (∃ y, f = .readyPush y ∧ r.2 = [] ∧ r.1.readyQueue = s.readyQueue ++ [y]) ∨
      (∃ u y, y ∈ (s.sched u).queue ∧ f.incoming = none ∧ (∀ z, f ≠ .readyPush z) ∧
        r.2.filterMap Frame.incoming = [y] ∧ r.1.readyQueue = s.readyQueue) ∨
      (∀ z, f ≠ .readyPush z) ∧
        r.2.filterMap Frame.incoming ++ r.1.readyQueue = f.incoming.toList ++ s.readyQueue := by
  cases h with
  | @readyPush y => exact .inl ⟨y, rfl, rfl, rfl⟩
  | @pop f u k y rest hf hqueue =>
    refine .inr (.inl ⟨u, y, by simp [hqueue], ?_, ?_, rfl, rfl⟩) <;> rcases hf with rfl | ⟨rfl, -⟩ <;>
      simp [Frame.incoming]
  | @popEmpty f u hf hqueue =>
    rcases hf with rfl | ⟨rfl, -⟩ <;> exact .inr (.inr ⟨by simp, by simp [Frame.incoming]⟩)
  | pickReady hpolicy hready => exact .inr (.inr ⟨by simp, by simp [Frame.incoming, hready]⟩)
  | schedule hu | wake hu | scheduleOn =>
    refine .inr (.inr ⟨by simp, ?_⟩)
    rcases schedule_cases s _ _ with ⟨-, hr⟩ | ⟨-, -, hr⟩ <;> rw [hr] <;> simp [Frame.incoming, queuePush]
  | @save prev k stack hfctx =>
    cases k <;> exact .inr (.inr ⟨by simp, by simp [Switch.onTop, Frame.incoming]⟩)
  | @relock q l p y hl => cases p <;> exact .inr (.inr ⟨by simp, by simp [relockNext, Frame.incoming]⟩)
  | @notifyOne q y rest hwaits | @notifyOneEmpty q hwaits | @notifyAllEmpty q hwaits =>
    cases q <;> exact .inr (.inr ⟨by simp, by simp [WaitQueue.afterNotify, Frame.incoming]⟩)
  | dispatchShutdown hshut =>
    refine .inr (.inr ⟨by simp, ?_⟩)
    simp only [notify]
    split <;> simp [Frame.incoming]
  | _ => exact .inr (.inr ⟨by simp, by simp [Lutask.iterate, Lutask.terminateRemove, Lutask.destroy,
      workerQueuePush, detachWorkerContext, workerQueueRemove, procTerminated, Frame.incoming]⟩)

end Steps

namespace SharedWork

variable {s₀ s s' : State Unit} {e : Event Unit} {x : Ctx Unit}

/-- The runs of one work-sharing thread. -/
abbrev ThreadRuns (events : List (Event Unit)) (s : State Unit) : Prop :=
  Runs (fun _ => .sharedWork) (fun _ _ => True) events s

/-- The workers that were made before `s₀`. -/
def oldWorker (s₀ : State Unit) (y : Ctx Unit) : Bool :=
  !y.isPinned && s₀.started y

/-- These workers, as far as they are ready, in the order in which the thread is going to resume them. -/
def workerLine (s₀ s : State Unit) : List (Ctx Unit) :=
  ((s.thread ()).stack.filterMap Frame.incoming ++ s.readyQueue).filter (oldWorker s₀)

/-- `localQueue_` holds pinned contexts only, and is looked at only when `readyQueue_` is empty. -/
structure Priority (s : State Unit) : Prop where
  policy : ∀ u, (s.sched u).policy = .sharedWork
  queue : ∀ u, ∀ y ∈ (s.sched u).queue, y.isPinned
  picks : ∀ u k, .pickLocal u k ∈ (s.thread ()).stack → s.readyQueue = []

theorem Priority.initial : Priority (State.initial fun _ => .sharedWork) where
  policy u := rfl
  queue u y hy := by
    obtain rfl : y = .dispatcher u := by simpa [State.initial] using hy
    rfl
  picks u k h := by simp [State.initial] at h

theorem Priority.step (h : Priority s) (hs : Shape s) (hstep : Lutask.step s e = some s') :
    Priority s' where
  policy u := (step_policy hstep u).trans (h.policy u)
  queue u y hy := by
    cases step_inv hstep with
    | call hactive hstack huser hop => exact h.queue u y (by simpa [hop.queue] using hy)
    | frame hactive hstack hframe =>
      cases hframe.queue (by simpa using hy) with
      | inl hold => exact h.queue u y hold
      | inr hpushed => exact hpushed.1.resolve_left (by simp [h.policy])
    | switch hactive hstack htarget hc => exact h.queue u y hy
  picks u k hpick := by
    rcases hs.frame_origin hstep hpick rfl (by simp) with ⟨hold, htail⟩ | ⟨z, op, r, -, hop, -, hnew⟩ |
      ⟨z, f, now, rest, r, -, -, hstack, hframe, rfl, hnew⟩
    · -- `pickLocal` is always the topmost frame
      exfalso
      obtain ⟨f, rest, hstack⟩ := List.exists_cons_of_ne_nil (List.ne_nil_of_mem hold)
      have hbelow : .pickLocal u k ∈ rest := by simpa [hstack] using htail rfl
      cases (List.pairwise_cons.mp (hstack ▸ hs.below ())).1 _ hbelow with
      | inl hsettled => simp [Frame.isSettled] at hsettled
      | inr houter => simp [Frame.isOuter] at houter
    · cases hop with
      | start launch => cases launch <;> simp [Lutask.start] at hnew
      | _ => simp [Lutask.yield, Lutask.waitUntil, Lutask.terminate, Lutask.destructor] at hnew
    · cases hframe with
      | pickReadyEmpty hpolicy hready => exact hready
      | schedule hu | wake hu | scheduleOn =>
        rcases schedule_cases s _ _ with ⟨-, hr⟩ | ⟨-, -, hr⟩ <;> rw [hr] at hnew <;> simp at hnew
      | @save prev k stack hfctx => cases k <;> simp [Switch.onTop] at hnew
      | @relock q l p y hl => cases p <;> simp [relockNext] at hnew
      | @notifyOne q y rest hwaits | @notifyOneEmpty q hwaits | @notifyAllEmpty q hwaits =>
        cases q <;> simp [WaitQueue.afterNotify] at hnew
      | _ => simp [Lutask.iterate, Lutask.terminateRemove, Lutask.destroy] at hnew

theorem ThreadRuns.priority {events : List (Event Unit)} (h : ThreadRuns events s) : Priority s :=
  (Run.invariant (I := fun s => Shape s ∧ Priority s) h ⟨Shape.initial _, Priority.initial⟩
    fun _ _ _ hs _ hstep => ⟨hs.1.step hstep, hs.2.step hs.1 hstep⟩).2

section Line

variable {f : Frame Unit} {rest : List (Frame Unit)}

/-- Only the topmost frame can have chosen a worker. -/
theorem workerLine_of_stack (hs : Shape s) (hstack : (s.thread ()).stack = f :: rest) :
    workerLine s₀ s = (f.incoming.toList ++ s.readyQueue).filter (oldWorker s₀) := by
  have hbelow := incoming_of_below (hstack ▸ hs.below ())
  cases hf : f.incoming <;> simp [workerLine, hstack, hbelow, hf]

/-- Who is put at the back of the static queue joins the line, and whoever is resumed stood at its front. -/
theorem workerLine_step (hs : Shape s) (hp : Priority s) (hold : ∀ y, s₀.started y → s.started y)
    (hstep : Lutask.step s e = some s') :
    workerLine s₀ s ++ (readied [e]).filter (oldWorker s₀) =
      (resumptions [e]).filter (oldWorker s₀) ++ workerLine s₀ s' := by
  cases step_inv hstep with
  | @call t z op r hactive hstack huser hop =>
    have hnew : (r.2.filterMap Frame.incoming).filter (oldWorker s₀) = [] := by
      refine List.filter_eq_nil_iff.mpr fun y hy => ?_
      obtain ⟨g, hg, hgy⟩ := List.mem_filterMap.mp hy
      obtain rfl := hop.incoming g hg y hgy
      have hborn : s₀.started (.worker s.fresh) = false := by
        by_contra hstarted
        have hmade := hold (.worker s.fresh) (by simpa using hstarted)
        simp [State.started] at hmade
      simp [oldWorker, hborn]
    have hidle : (s.thread ()).stack = [] := hstack
    simp [workerLine, hidle, hnew, hop.readyQueue, Event.readies, Event.resumes]
  | @frame t z f now rest r hactive hstack hframe =>
    have hbelow := incoming_of_below (hstack ▸ hs.below ())
    have hbefore : workerLine s₀ s = _ := workerLine_of_stack hs hstack
    have hafter : workerLine s₀ (r.1.setStack () (r.2 ++ rest)) =
        (r.2.filterMap Frame.incoming ++ r.1.readyQueue).filter (oldWorker s₀) := by
      simp [workerLine, List.filterMap_append, hbelow]
    have hresumes : (Event.exec t z f now).resumes = none := by
      simp [Event.resumes, Frame.resumes, hframe.target]
    have hreadies : (∀ y, f ≠ .readyPush y) → (Event.exec t z f now).readies = none := by
      intro hne
      cases f <;> simp [Event.readies] at hne ⊢
    rw [hbefore, hafter, resumptions_singleton, readied_singleton, hresumes]
    rcases hframe.line with ⟨y, rfl, hr, hready⟩ | ⟨u, y, hy, hf, hne, hr, hready⟩ | ⟨hne, hline⟩
    · simp [hr, hready, Frame.incoming, Event.readies]
    · have hpin := hp.queue u y hy
      simp [hr, hready, hf, hreadies hne, oldWorker, hpin]
    · simp [hline, hreadies hne]
  | @switch t z y f k now rest stack hactive hstack htarget hc =>
    have hbefore : workerLine s₀ s = _ := workerLine_of_stack hs hstack
    have hsettled : ∀ g ∈ stack, g.isSettled := fun g hg => (hs.suspended y stack hc g hg).1
    have hnone : stack.filterMap Frame.incoming = [] :=
      incoming_of_below (pairwise_of_settled (f := .save z k) hsettled)
    have hafter : workerLine s₀ (switched s t z rest y k stack) = s.readyQueue.filter (oldWorker s₀) := by
      have htop : (Frame.save z k).incoming = none := rfl
      simp [workerLine, switched, htop, hnone]
    have hresumes : (Event.exec t z f now).resumes = some y := by
      simp [Event.resumes, Frame.resumes, htarget]
    have hreadies : (Event.exec t z f now).readies = none := by
      cases f <;> simp [Frame.target] at htarget <;> rfl
    rw [hbefore, hafter, resumptions_singleton, readied_singleton, hresumes, hreadies]
    cases Frame.incoming_of_target htarget with
    | inl hchosen => simp [hchosen, ← List.filter_append]
    | inr hpinned => simp [hpinned.1, oldWorker, hpinned.2]

end Line

section Local

variable {start joined served : List (Ctx Unit)} {picks : ℕ}

/-- `localQueue_` since it was `start`: it is served from the front, by each `PickNext` that turns to it. -/
def LocalLine (start : List (Ctx Unit)) (picks : ℕ) (s : State Unit) : Prop :=
  ∃ joined served, FirstInFirstOut start joined (s.sched ()).queue served ∧
    (picks ≤ start.length → served.length = picks)

theorem LocalLine.step (h : LocalLine start picks s) (hp : Priority s)
    (hstep : Lutask.step s e = some s') :
    LocalLine start (picks + if e.picksLocal then 1 else 0) s' := by
  obtain ⟨joined, served, hline, hserved⟩ := h
  -- an event that leaves `localQueue_` alone is no call of `PickNext` that turns to it
  have hkeep : e.picksLocal = false → (s'.sched ()).queue = (s.sched ()).queue →
      LocalLine start (picks + if e.picksLocal then 1 else 0) s' := by
    intro hpick hqueue
    exact ⟨joined, served, by rwa [hqueue], by simpa [hpick] using hserved⟩
  cases step_inv hstep with
  | call hactive hstack huser hop => exact hkeep rfl (hop.queue ())
  | @frame t z f now rest r hactive hstack hframe =>
    by_cases hf : ∃ u k, f = .pickLocal u k
    · obtain ⟨u, k, rfl⟩ := hf
      have hpick : (Event.exec t z (.pickLocal u k) now).picksLocal := rfl
      cases hframe with
      | @pop f u k y queue hcase hqueue =>
        have hline' : FirstInFirstOut start joined ([y] ++ queue) served := by
          rw [List.singleton_append, ← hqueue]
          exact hline
        refine ⟨joined, served ++ [y], by simpa using hline'.serve, fun hle => ?_⟩
        simp only [hpick, if_true] at hle ⊢
        rw [List.length_append, hserved (by omega), List.length_singleton]
      | @popEmpty f u hcase hqueue =>
        refine ⟨joined, served, hline, fun hle => ?_⟩
        simp only [hpick, if_true] at hle
        have hshort : served.length < start.length := by
          rw [hserved (by omega)]
          omega
        exact absurd hqueue (hline.nonempty hshort)
    · have hpick : (Event.exec t z f now).picksLocal = false := by
        cases f <;> simp [Event.picksLocal] at hf ⊢
      rcases hframe.queue_cases () with hsame | ⟨y, -, -, -, -, hpush⟩ | ⟨k, y, hf', hr, hpop⟩
      · exact hkeep hpick hsame
      · refine ⟨joined ++ [y], served, ?_, by simpa [hpick] using hserved⟩
        rw [State.setStack_sched, hpush]
        exact hline.join [y]
      · exfalso
        cases hf' with
        | inl hlocal => exact hf ⟨(), k, hlocal⟩
        | inr hnext =>
          subst hnext
          cases hframe with
          | pop hcase hqueue => simp [hp.policy] at hcase
          | popEmpty hcase hqueue => simp at hr
          | pickReady | pickReadyEmpty => simp at hr
  | @switch t z y f k now rest stack hactive hstack htarget hc =>
    refine hkeep ?_ rfl
    cases f <;> simp [Frame.target] at htarget <;> rfl

/-- As long as fewer calls of `PickNext` have turned to `localQueue_` than entries were ahead of `p`, it
is still there, behind those that are left of them. -/
theorem LocalLine.queue {ahead behind : List (Ctx Unit)} {p : Ctx Unit}
    (h : LocalLine (ahead ++ p :: behind) picks s) (hle : picks ≤ ahead.length) :
    ∃ later, (s.sched ()).queue = ahead.drop picks ++ p :: (behind ++ later) := by
  obtain ⟨joined, served, hline, hserved⟩ := h
  have hlength : served.length = picks := by
    refine hserved ?_
    rw [List.length_append]
    omega
  refine ⟨joined, ?_⟩
  have hdrop : (s.sched ()).queue = ((ahead ++ p :: behind) ++ joined).drop picks := by
    rw [← hlength, ← show served ++ (s.sched ()).queue = (ahead ++ p :: behind) ++ joined from hline]
    exact (List.drop_left).symm
  rw [hdrop, List.append_assoc, List.drop_append_of_le_length hle]
  rfl

/-- `PickNext` takes the front of `localQueue_`. -/
theorem picks_front {p : Ctx Unit} {queue : List (Ctx Unit)} {k : Option (Switch Unit)} {n : ℕ}
    (hqueue : (s.sched ()).queue = p :: queue)
    (hstep : step s (.exec () x (.pickLocal () k) n) = some s') :
    ∃ rest, (s'.thread ()).stack = .resume p (switchOf () k) :: rest := by
  obtain ⟨hactive, rest, hstack⟩ := step_exec hstep
  obtain ⟨z, now, -, -, ⟨r, hframe, rfl⟩ | ⟨y, k', stack, htarget, -⟩⟩ :=
    step_top (t := ()) hstep rfl hstack
  · cases hframe with
    | @pop f u k y queue' hcase hqueue' =>
      obtain ⟨rfl, -⟩ := List.cons.inj (hqueue'.symm.trans hqueue)
      rcases hcase with hlocal | ⟨hnext, -⟩
      · obtain ⟨-, rfl⟩ := Frame.pickLocal.inj hlocal
        exact ⟨rest, by simp⟩
      · simp at hnext
    | popEmpty hcase hempty => simp [hempty] at hqueue
  · simp [Frame.target] at htarget

end Local

/-- What becomes of the workers and of the pinned context `p`, which stood in `localQueue_` of `s₀` between
`ahead` and `behind`, in a further run that reaches `s`. -/
structure Overtaken (s₀ : State Unit) (ahead : List (Ctx Unit)) (p : Ctx Unit) (behind : List (Ctx Unit))
    (after : List (Event Unit)) (s : State Unit) : Prop where
  /-- The workers are resumed in the order in which they were put into `readyQueue_`. -/
  inOrder : (resumptions after).filter (oldWorker s₀) <+:
    workerLine s₀ s₀ ++ (readied after).filter (oldWorker s₀)
  /-- No worker is resumed more often than it was ready or was put into `readyQueue_` since. -/
  each : ∀ n, s₀.started (.worker n) → (resumptions after).count (.worker n) ≤
    (workerLine s₀ s₀).count (.worker n) + (readied after).count (.worker n)
  /-- A `PickNext` that turns to `localQueue_` has found `readyQueue_` empty. -/
  givesWay : Run step (fun s e => e.picksLocal → s.readyQueue = []) s₀ after s
  /-- `p` stays queued until as many of these calls were made as there were entries ahead of it. -/
  stays : after.countP Event.picksLocal ≤ ahead.length → ∃ later,
    (s.sched ()).queue = ahead.drop (after.countP Event.picksLocal) ++ p :: (behind ++ later)
  /-- The next one of these calls takes `p`. -/
  next : after.countP Event.picksLocal = ahead.length → ∀ x k n s',
    step s (.exec () x (.pickLocal () k) n) = some s' →
      ∃ rest, (s'.thread ()).stack = .resume p (switchOf () k) :: rest

section Runs

variable {before after : List (Event Unit)}

/-- Both queues are served from the front all along. -/
theorem ThreadRuns.lines (h₀ : ThreadRuns before s₀) (h : Run step (fun _ _ => True) s₀ after s) :
    FirstInFirstOut (workerLine s₀ s₀) ((readied after).filter (oldWorker s₀)) (workerLine s₀ s)
        ((resumptions after).filter (oldWorker s₀)) ∧
      LocalLine (s₀.sched ()).queue (after.countP Event.picksLocal) s := by
  have hlast := Run.invariant_labels
    (I := fun after s => (Shape s ∧ Priority s ∧ ∀ y, s₀.started y → s.started y) ∧
      FirstInFirstOut (workerLine s₀ s₀) ((readied after).filter (oldWorker s₀)) (workerLine s₀ s)
        ((resumptions after).filter (oldWorker s₀)) ∧
      LocalLine (s₀.sched ()).queue (after.countP Event.picksLocal) s) h
    ⟨⟨Runs.shape h₀, ThreadRuns.priority h₀, fun _ hy => hy⟩, .initial, ?_⟩
      fun after s e s' hs _ hstep => ?_
  · exact hlast.2
  · exact ⟨[], [], .initial, fun _ => rfl⟩
  · obtain ⟨⟨hshape, hp, hold⟩, hline, hlocal⟩ := hs
    refine ⟨⟨hshape.step hstep, hp.step hshape hstep, fun y hy => step_started hstep (hold y hy)⟩, ?_, ?_⟩
    · have hjoined := hline.join ((readied [e]).filter (oldWorker s₀))
      rw [workerLine_step hshape hp hold hstep] at hjoined
      simpa [List.filter_append] using hjoined.serve
    · have hcount : [e].countP Event.picksLocal = if e.picksLocal then 1 else 0 := by
        simp [List.countP_cons]
      rw [List.countP_append, hcount]
      exact hlocal.step hp hstep

/-- Nobody who does not sleep is ready twice. -/
theorem workerLine_count_le (h : Placed s) (y : Ctx Unit) : (workerLine s₀ s).count y ≤ 1 := by
  have hhand : ((s.thread ()).stack.filterMap Frame.incoming).count y ≤ s.places y (.hand ()) := by
    rw [List.count, List.countP_filterMap]
    refine List.countP_mono_left fun f _ hf => ?_
    cases f <;> simp [Frame.incoming] at hf <;> simp [Frame.held, hf]
  have hsum : s.places y (.hand ()) + s.places y (.slot .ready) ≤ 1 := by
    by_cases hpos : 0 < s.places y (.hand ())
    · have hzero := (h.exclusive y).eq_zero (q := .slot .ready) hpos (by simp)
      have hone := (h.exclusive y).le_one (.hand ())
      omega
    · have hone := (h.exclusive y).le_one (.slot .ready)
      omega
  have hready : s.places y (.slot .ready) = s.readyQueue.count y := rfl
  calc (workerLine s₀ s).count y
      ≤ ((s.thread ()).stack.filterMap Frame.incoming ++ s.readyQueue).count y :=
        (List.filter_sublist).count_le y
    _ ≤ 1 := by
        rw [List.count_append]
        omega

/-- There are two pinned contexts, and nobody who does not sleep is queued twice. -/
theorem Priority.queue_length_le (h : Priority s) (hs : Placed s) : (s.sched ()).queue.length ≤ 2 := by
  have hnodup : (s.sched ()).queue.Nodup :=
    List.nodup_iff_count_le_one.mpr fun y => (hs.exclusive y).le_one (.slot (.queue ()))
  have hsubset : (s.sched ()).queue ⊆ [.main (), .dispatcher ()] := by
    intro y hy
    cases y with
    | main u | dispatcher u => simp
    | worker n => simpa [Ctx.isPinned] using h.queue () _ hy
  exact (List.subperm_of_subset hnodup hsubset).length_le

/-- By the fixed priority of `readyQueue_` over `localQueue_` the workers of one work-sharing thread
overtake a pinned context for as long as each `PickNext` finds one of them, in their own order and
once each for every time they become ready. If nobody sleeps, then at most one `PickNext` passes
over the pinned context otherwise, and no worker is ready twice when it is queued. -/
theorem workers_before_pinned {ahead behind : List (Ctx Unit)} {p : Ctx Unit} (h₀ : ThreadRuns before s₀)
    (h : Run step (fun _ _ => True) s₀ after s) (hqueue : (s₀.sched ()).queue = ahead ++ p :: behind) :
    Overtaken s₀ ahead p behind after s ∧
      ((∀ e ∈ before, e.keepsPlaces) → ahead.length ≤ 1 ∧ ∀ y, (workerLine s₀ s₀).count y ≤ 1) := by
  obtain ⟨hline, hlocal⟩ := ThreadRuns.lines h₀ h
  rw [hqueue] at hlocal
  refine ⟨⟨hline.served_prefix, fun n hn => ?_, ?_, hlocal.queue, fun hpicks x k n s' hstep => ?_⟩,
    fun hawake => ?_⟩
  · have hcount : ∀ l : List (Ctx Unit),
        (l.filter (oldWorker s₀)).count (.worker n) = l.count (.worker n) :=
      fun l => List.count_filter (by simp [oldWorker, Ctx.isPinned, hn])
    simpa [hcount] using hline.count_served_le (.worker n)
  · have hstrong := h.fired.strengthen (I := fun s => Shape s ∧ Priority s)
      ⟨Runs.shape h₀, ThreadRuns.priority h₀⟩
      fun _ _ _ hs _ hstep => ⟨hs.1.step hstep, hs.2.step hs.1 hstep⟩
    refine hstrong.weaken fun s₁ e hs₁ hpick => ?_
    obtain ⟨⟨-, hp⟩, -, hfired⟩ := hs₁
    obtain ⟨s₂, hstep⟩ := Option.isSome_iff_exists.mp hfired
    cases e with
    | call => simp [Event.picksLocal] at hpick
    | exec t z f n =>
      cases f with
      | pickLocal u k =>
        obtain ⟨-, rest, hstack⟩ := step_exec hstep
        have hmem : .pickLocal u k ∈ (s₁.thread t).stack := by simp [hstack]
        exact hp.picks u k hmem
      | _ => simp [Event.picksLocal] at hpick
  · obtain ⟨later, hlast⟩ := hlocal.queue hpicks.le
    rw [hpicks, List.drop_length, List.nil_append] at hlast
    exact picks_front hlast hstep
  · have hplaced := (Runs.orderly (h₀.restrict hawake) fun _ _ he => he.2).placed
    have hlength := (ThreadRuns.priority h₀).queue_length_le hplaced
    rw [hqueue, List.length_append, List.length_cons] at hlength
    exact ⟨by omega, workerLine_count_le hplaced⟩

end Runs

section Overtake

/-- Main starts worker `n` with `Post`, and it is put into `readyQueue_`. -/
def mainStarts (n : ℕ) : List (Event Unit) :=
  [.call () (.main ()) (.start .post), .exec () (.main ()) (.postAttach (.worker n)) 0,
    .exec () (.main ()) (.schedule (.worker n)) 0, .exec () (.main ()) (.detach (.worker n)) 0,
    .exec () (.main ()) (.readyPush (.worker n)) 0]

/-- Main yields to worker 0 and is put into `localQueue_`. -/
def mainYields : List (Event Unit) :=
  [.call () (.main ()) .yield, .exec () (.main ()) (.pickNext () (some (.resumeReady (.main ())))) 0,
    .exec () (.main ()) (.attachResume (.worker 0) (.resumeReady (.main ()))) 0,
    .exec () (.main ()) (.resume (.worker 0) (.resumeReady (.main ()))) 0,
    .exec () (.worker 0) (.save (.main ()) (.resumeReady (.main ()))) 0,
    .exec () (.worker 0) (.schedule (.main ())) 0]

/-- Worker `n` yields to worker `m`. -/
def yieldsTo (n m : ℕ) : List (Event Unit) :=
  [.call () (.worker n) .yield, .exec () (.worker n) (.pickNext () (some (.resumeReady (.worker n)))) 0,
    .exec () (.worker n) (.attachResume (.worker m) (.resumeReady (.worker n))) 0,
    .exec () (.worker n) (.resume (.worker m) (.resumeReady (.worker n))) 0,
    .exec () (.worker m) (.save (.worker n) (.resumeReady (.worker n))) 0,
    .exec () (.worker m) (.schedule (.worker n)) 0, .exec () (.worker m) (.detach (.worker n)) 0,
    .exec () (.worker m) (.readyPush (.worker n)) 0]

/-- Two workers that yield to one another are resumed twice each while main and the dispatcher stay queued
in `localQueue_`. -/
theorem workers_overtake_main :
    ∃ s₀ s, ThreadRuns (mainStarts 0 ++ mainStarts 1 ++ mainYields) s₀ ∧
      Run step (fun s _ => (s.sched ()).queue = [.dispatcher (), .main ()]) s₀
        (yieldsTo 0 1 ++ yieldsTo 1 0 ++ yieldsTo 0 1 ++ yieldsTo 1 0) s ∧
      (s.sched ()).queue = [.dispatcher (), .main ()] ∧
      resumptions (yieldsTo 0 1 ++ yieldsTo 1 0 ++ yieldsTo 0 1 ++ yieldsTo 1 0) =
        [.worker 1, .worker 0, .worker 1, .worker 0] := by
  have hbefore : ((play step (fun _ _ => true) (State.initial fun _ => .sharedWork)
      (mainStarts 0 ++ mainStarts 1 ++ mainYields)).bind fun s₀ =>
        play step (fun s _ => decide ((s.sched ()).queue = [.dispatcher (), .main ()])) s₀
          (yieldsTo 0 1 ++ yieldsTo 1 0 ++ yieldsTo 0 1 ++ yieldsTo 1 0)).any
            fun s => decide ((s.sched ()).queue = [.dispatcher (), .main ()]) := by
    decide
  obtain ⟨s, hs, hqueue⟩ := (Option.any_eq_true _ _).mp hbefore
  obtain ⟨s₀, hs₀, hs⟩ := Option.bind_eq_some_iff.mp hs
  exact ⟨s₀, s, Run.of_play (fun _ _ _ => trivial) hs₀, Run.of_play (fun _ _ => of_decide_eq_true) hs,
    of_decide_eq_true hqueue, by decide⟩

/-- The workers overtake main in their own order while they yield to one another. -/
theorem main_waits_for_workers :
    ∃ s₀ s, ThreadRuns (mainStarts 0 ++ mainStarts 1 ++ mainYields) s₀ ∧
      Overtaken s₀ [.dispatcher ()] (.main ()) [] (yieldsTo 0 1 ++ yieldsTo 1 0) s := by
  have hplay : (play step (fun _ _ => true) (State.initial fun _ => .sharedWork)
      (mainStarts 0 ++ mainStarts 1 ++ mainYields)).any fun s₀ =>
        decide ((s₀.sched ()).queue = [.dispatcher (), .main ()]) &&
          (play step (fun _ _ => true) s₀ (yieldsTo 0 1 ++ yieldsTo 1 0)).isSome := by
    decide
  obtain ⟨s₀, hs₀, hrest⟩ := (Option.any_eq_true _ _).mp hplay
  obtain ⟨hqueue, hafter⟩ := Bool.and_eq_true_iff.mp hrest
  obtain ⟨s, hs⟩ := Option.isSome_iff_exists.mp hafter
  have hbefore : ThreadRuns _ s₀ := Run.of_play (fun _ _ _ => trivial) hs₀
  have hrun : Run step (fun _ _ => True) s₀ _ s := Run.of_play (fun _ _ _ => trivial) hs
  have hsplit : (s₀.sched ()).queue = [.dispatcher ()] ++ .main () :: [] := of_decide_eq_true hqueue
  exact ⟨s₀, s, hbefore, (workers_before_pinned hbefore hrun hsplit).1⟩

end Overtake

end SharedWork

end Lutask
