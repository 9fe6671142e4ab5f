import Lutask.ConditionVariable.InOrder
import Lutask.Machine.Script
import Lutask.Support.CooperativeScheduling

/-!
# One round-robin thread is a cooperative scheduler

Seen from the outside each call of a fiber on one round-robin thread is one atomic action: it starts or
wakes other fibers, or gives up control to the first one that is ready. The dispatcher, the condition
variables' mutexes, the two halves of a context switch and the intermediate states of the notifications
cannot be seen. What a call has promised but not yet done is read off the stack: the context that is going
to be made ready when the switch is completed, and the waiters that a notification is going to take out.
-/

namespace Lutask

open LabelledRuns

variable {T : Type*}

/-- The active context is on its way out, and gives up control in the switch that follows. -/
def Frame.departs : Frame T → Bool
  | .suspend .. | .pickNext _ (some _) | .pickLocal _ (some _) | .attachResume .. | .resume ..
  | .schedulerTerminate _ | .terminateRemove .. => true
  | _ => false

/-- The context that is going to be resumed. -/
def Frame.chosen : Frame T → Option (Ctx T)
  | .attachResume y _ | .resume y _ => some y
  | _ => none

/-- The context that is going to be made ready. -/
def Frame.promises : Frame T → Option (Ctx T)
  | .wake y | .schedule y | .scheduleOn _ y | .postAttach y | .pickNext _ (some (.resumeReady y))
  | .pickLocal _ (some (.resumeReady y)) | .attachResume _ (.resumeReady y) | .resume _ (.resumeReady y)
  | .save _ (.resumeReady y) => some y
  | _ => none

/-- The wait queue that a notification is going to take waiters out of, and whether it takes all. -/
def Frame.notice : Frame T → Option (WaitQueue T × Bool)
  | .cvNotifyOne q => some (.cv q, false)
  | .notifyOne q => some (q, false)
  | .cvNotifyAll q => some (.cv q, true)
  | .notifyAll q => some (q, true)
  | _ => none

/-- How many of the waiters a notification takes out. -/
def reach {A : Type*} (all : Bool) (waiters : List A) : ℕ :=
  if all then waiters.length else 1

@[simp] theorem reach_one {A : Type*} (waiters : List A) : reach false waiters = 1 := rfl

@[simp] theorem reach_all {A : Type*} (waiters : List A) : reach true waiters = waiters.length := rfl

@[simp] theorem Ctx.runsUserCode_worker (n : ℕ) : (Ctx.worker n : Ctx T).runsUserCode = true := rfl

@[simp] theorem Ctx.runsUserCode_dispatcher (t : T) : (Ctx.dispatcher t).runsUserCode = false := rfl

/-- A settled frame promises nothing. -/
theorem Frame.plain_of_settled {f : Frame T} (h : f.isSettled) :
    f.departs = false ∧ f.chosen = none ∧ f.promises = none ∧ f.notice = none := by
  cases f <;> simp [Frame.isSettled] at h <;> exact ⟨rfl, rfl, rfl, rfl⟩

/-- Nothing below another frame promises a context. -/
theorem Frame.Below.plain {f g : Frame T} (h : f.Below g) : g.chosen = none ∧ g.promises = none := by
  cases h with
  | inl hsettled =>
    obtain ⟨-, hchosen, hpromises, -⟩ := Frame.plain_of_settled hsettled
    exact ⟨hchosen, hpromises⟩
  | inr hinner =>
    cases g with
    | pickNext u k =>
      cases k with
      | none => exact ⟨rfl, rfl⟩
      | some k => simp [Frame.isOuter] at hinner
    | unlockM _ | notifyAll _ | schedulerTerminate _ | procSleep _ _ => exact ⟨rfl, rfl⟩
    | _ => simp [Frame.isOuter] at hinner

section Frames

variable [DecidableEq T] {s : State T} {t : T} {x : Ctx T} {now : ℕ} {f : Frame T} {r : Rest T}

/-- A context that is on its way out stays so, and only `SuspendAndWait` sends one out. The dispatcher
leaves when it has found a context. -/
theorem FrameStep.departs (h : FrameStep s t x now f r) (hpush : ∀ q y, f ≠ .suspendAndWait q y) :
    r.2.any Frame.departs = f.departs ∨ ∃ u, f = .pickNext u none ∨ f = .pickLocal u none := by
  cases h with
  | schedule hu | wake hu | scheduleOn =>
    rcases schedule_cases s _ _ with ⟨-, hr⟩ | ⟨-, -, hr⟩ <;> rw [hr] <;> exact .inl rfl
  | @pop f u k y queue hf hqueue =>
    cases k with
    | none => exact .inr ⟨u, by simpa [or_comm] using hf.symm.imp And.left id⟩
    | some k => rcases hf with rfl | ⟨rfl, -⟩ <;> exact .inl rfl
  | @popEmpty f u hf hqueue => exact .inr ⟨u, by simpa [or_comm] using hf.symm.imp And.left id⟩
  | @pickReady u k y queue hpolicy hready | @pickReadyEmpty u k hpolicy hready =>
    cases k with
    | none => exact .inr ⟨u, .inl rfl⟩
    | some k => exact .inl rfl
  | @save prev k stack hfctx => cases k <;> exact .inl rfl
  | @suspendAndWait q y => exact absurd rfl (hpush q y)
  | @relock q l p y hl => cases p <;> exact .inl rfl
  | @notifyOne q y queue hwaits | @notifyOneEmpty q hwaits | @notifyAllEmpty q hwaits =>
    cases q <;> exact .inl rfl
  | _ => exact .inl rfl

/-- A notification goes on until its loop ends. -/
theorem FrameStep.notice (h : FrameStep s t x now f r) (hone : ∀ q, f ≠ .notifyOne q)
    (hall : ∀ q, f ≠ .notifyAll q) : r.2.findSome? Frame.notice = f.notice := by
  cases h with
  | schedule hu | wake hu | scheduleOn =>
    rcases schedule_cases s _ _ with ⟨-, hr⟩ | ⟨-, -, hr⟩ <;> rw [hr] <;> rfl
  | pop hf | popEmpty hf => rcases hf with rfl | ⟨rfl, -⟩ <;> rfl
  | @save prev k stack hfctx => cases k <;> rfl
  | @relock q l p y hl => cases p <;> rfl
  | @notifyOne q y queue hwaits | @notifyOneEmpty q hwaits => exact absurd rfl (hone q)
  | @notifyAll q y queue hwaits | @notifyAllEmpty q hwaits => exact absurd rfl (hall q)
  | _ => rfl

end Frames

namespace RoundRobin

open CooperativeScheduling (Tasks Action)

section View

/-- The waiters that a notification on the stack is going to take out. -/
def pending (stack : List (Frame Unit)) (waits : WaitQueue Unit → List (Ctx Unit)) : List (Ctx Unit) :=
  (stack.findSome? Frame.notice).elim [] fun n => (waits n.1).take (reach n.2 (waits n.1))

/-- The waiters that stay when the notification on the stack is done. -/
def staying (stack : List (Frame Unit)) (waits : WaitQueue Unit → List (Ctx Unit)) (q : WaitQueue Unit) :
    List (Ctx Unit) :=
  (stack.findSome? Frame.notice).elim (waits q) fun n =>
    if q = n.1 then (waits q).drop (reach n.2 (waits q)) else waits q

/-- What a thread with this active context, stack, ready queue and wait queues looks like to its users. The
dispatcher is not one of them. -/
def view (active : Option (Ctx Unit)) (stack : List (Frame Unit)) (queue : List (Ctx Unit))
    (waits : WaitQueue Unit → List (Ctx Unit)) : Tasks (Ctx Unit) (WaitQueue Unit) where
  running := active.filter fun x => x.runsUserCode && !stack.any Frame.departs
  ready := (stack.filterMap Frame.chosen ++ queue ++ stack.filterMap Frame.promises ++
    pending stack waits).filter Ctx.runsUserCode
  waiting := staying stack waits

/-- The thread as its users see it. -/
def tasks (s : State Unit) : Tasks (Ctx Unit) (WaitQueue Unit) :=
  view (s.thread ()).active (s.thread ()).stack (s.sched ()).queue s.waits

/-- What the users see of an event. A worker that terminates wakes those that join it and ends. -/
def acts (s : State Unit) : Event Unit → List (Action (Ctx Unit) (WaitQueue Unit))
  | .call _ _ (.start .post) => [.spawn (.worker s.fresh)]
  | .call _ _ (.start .dispatch) => [.spawnNow (.worker s.fresh)]
  | .call _ _ .yield => [.yield]
  | .call _ _ (.notifyOne q) => [.wakeOne (.cv q)]
  | .call _ _ (.notifyAll q) => [.wakeAll (.cv q)]
  | .call _ x .terminate => [.wakeAll (.waitList x), .finish]
  | .exec _ _ (.suspendAndWait q _) _ => [.wait q]
  | .exec _ _ (.resume y _) _ => if y.runsUserCode then [.resume] else []
  | _ => []

variable {active : Option (Ctx Unit)} {stack rest : List (Frame Unit)} {queue : List (Ctx Unit)}
  {waits : WaitQueue Unit → List (Ctx Unit)} {x y : Ctx Unit} {f : Frame Unit}

/-- While no notification is under way all waiters stay. -/
theorem view_unnoticed (h : stack.findSome? Frame.notice = none) :
    view active stack queue waits =
      ⟨active.filter fun x => x.runsUserCode && !stack.any Frame.departs,
        (stack.filterMap Frame.chosen ++ queue ++ stack.filterMap Frame.promises).filter Ctx.runsUserCode,
        waits⟩ := by
  simp only [view, pending, h, Option.elim_none, List.append_nil, Tasks.mk.injEq, true_and]
  funext q
  simp [staying, h]

/-- The notification on the stack counts for those that it is going to take out. -/
theorem view_noticed {q : WaitQueue Unit} {all : Bool} (h : stack.findSome? Frame.notice = some (q, all)) :
    view active stack queue waits =
      ⟨active.filter fun x => x.runsUserCode && !stack.any Frame.departs,
        (stack.filterMap Frame.chosen ++ queue ++ stack.filterMap Frame.promises ++
          (waits q).take (reach all (waits q))).filter Ctx.runsUserCode,
        Function.update waits q ((waits q).drop (reach all (waits q)))⟩ := by
  simp only [view, pending, h, Option.elim_some, Tasks.mk.injEq, true_and]
  funext q'
  by_cases hq : q' = q
  · subst hq
    simp [staying, h]
  · simp [staying, h, hq]

end View

section Steps

variable {s s' : State Unit} {x y : Ctx Unit} {now : ℕ} {f : Frame Unit} {op : Op Unit} {r : Rest Unit}
  {e : Event Unit} {rest : List (Frame Unit)}

theorem tasks_setStack (s : State Unit) (stack : List (Frame Unit)) :
    tasks (s.setStack () stack) = view (s.thread ()).active stack (s.sched ()).queue s.waits := by
  simp [tasks]

theorem runs_of_eq {a b : Tasks (Ctx Unit) (WaitQueue Unit)} (h : a = b) :
    CooperativeScheduling.Runs a [] b :=
  h ▸ .nil

/-- What a call looks like. -/
theorem OpStep.acts (h : OpStep s x op r) (hturn : TakesTurns (.call () x op))
    (hactive : (s.thread ()).active = some x) (hstack : (s.thread ()).stack = []) (huser : x.runsUserCode)
    (hwaits : ∀ q, ∀ y ∈ s.waits q, y.runsUserCode) :
    CooperativeScheduling.Runs (tasks s) (acts s (.call () x op)) (tasks (r.1.setStack () r.2)) := by
  have hbefore : tasks s = ⟨some x, (s.sched ()).queue.filter Ctx.runsUserCode, s.waits⟩ := by
    rw [tasks, hactive, hstack, view_unnoticed rfl]
    simp [Option.filter_some, huser]
  have hafter : tasks (r.1.setStack () r.2) = view (some x) r.2 (s.sched ()).queue s.waits := by
    rw [tasks_setStack, h.thread, h.queue, h.waits, hactive]
  have htake : ∀ q n, ((s.waits q).take n).filter Ctx.runsUserCode = (s.waits q).take n := fun q n =>
    List.filter_eq_self.mpr fun y hy => hwaits q y (List.mem_of_mem_take hy)
  have hall : ∀ q, (s.waits q).filter Ctx.runsUserCode = s.waits q := fun q =>
    List.filter_eq_self.mpr (hwaits q)
  rw [hbefore, hafter]
  cases h with
  | start launch =>
    cases launch with
    | post =>
      rw [Lutask.start, view_unnoticed rfl]
      exact CooperativeScheduling.runs_of_step (by
        simp [CooperativeScheduling.step, List.filter_cons, Frame.chosen, Frame.promises, Frame.departs,
          Option.filter_some, huser])
    | dispatch =>
      rw [Lutask.start, view_unnoticed rfl]
      exact CooperativeScheduling.runs_of_step (by
        simp [CooperativeScheduling.step, List.filter_cons, Frame.chosen, Frame.promises, Frame.departs,
          Option.filter_some, huser])
    | async =>
      rw [Lutask.start, view_unnoticed rfl]
      exact runs_of_eq (by
        simp [List.filterMap_cons, Frame.chosen, Frame.promises, Frame.departs, Option.filter_some, huser])
  | yield hu =>
    rw [Lutask.yield, view_unnoticed rfl]
    exact CooperativeScheduling.runs_of_step (by
      simp [CooperativeScheduling.step, List.filterMap_cons, Frame.chosen, Frame.promises, Frame.departs,
        Option.filter_some, huser])
  | yieldOrigin | yieldOriginNone | waitUntil => simp [TakesTurns, Event.keepsPlaces, Op.strays] at hturn
  | destructor hx => simp [TakesTurns, Event.keepsOpen, Op.isDestructor] at hturn
  | @notifyOne q =>
    rw [view_noticed rfl]
    exact CooperativeScheduling.runs_of_step (by
      simp [CooperativeScheduling.step, List.filterMap_cons, Frame.chosen, Frame.promises, Frame.departs,
        Option.filter_some, huser, htake])
  | @notifyAll q =>
    rw [view_noticed rfl]
    exact CooperativeScheduling.runs_of_step (by
      simp [CooperativeScheduling.step, List.filterMap_cons, Frame.chosen, Frame.promises, Frame.departs,
        Option.filter_some, huser, hall])
  | terminate hpin =>
    rw [Lutask.terminate, view_noticed rfl]
    refine Run.snoc (CooperativeScheduling.runs_of_step rfl) trivial ?_
    simp [CooperativeScheduling.step, List.filterMap_cons, Frame.chosen, Frame.promises,
      Frame.departs, Option.filter_some, hall]
  | _ =>
    rw [view_unnoticed rfl]
    exact runs_of_eq (by
      simp [List.filterMap_cons, Frame.chosen, Frame.promises, Frame.departs, Option.filter_some, huser])

/-- A frame passes the contexts on that it is going to resume or has promised to make ready. -/
theorem FrameStep.line (h : FrameStep s () x now f r) (hpolicy : ∀ u, (s.sched u).policy = .roundRobin)
    (hone : ∀ q, f ≠ .notifyOne q) (hall : ∀ q, f ≠ .notifyAll q) (hexit : ∀ u, f ≠ .exitTest u)
    (hawake : ∀ u, (s.sched u).sleepQueue = []) :
    (r.2.filterMap Frame.chosen ++ (r.1.sched ()).queue ++ r.2.filterMap Frame.promises).filter
        Ctx.runsUserCode =
      (f.chosen.toList ++ (s.sched ()).queue ++ f.promises.toList).filter Ctx.runsUserCode := by
  cases h with
  | @schedule u y hu | @wake u y hu | @scheduleOn u y =>
    simp [schedule_roundRobin (hpolicy _), queuePush, Frame.chosen, Frame.promises]
  | @pop f u k y queue hcase hqueue =>
    have hq : (s.sched ()).queue = y :: queue := hqueue
    cases k with
    | none =>
      rcases hcase with rfl | ⟨rfl, -⟩ <;>
        simp [List.filter_cons, hq, Frame.chosen, Frame.promises, switchOf]
    | some k =>
      rcases hcase with rfl | ⟨rfl, -⟩ <;> cases k <;>
        simp [List.filterMap_cons, List.filter_cons, hq, Frame.chosen, Frame.promises, switchOf]
  | @popEmpty f u hcase hqueue =>
    rcases hcase with rfl | ⟨rfl, -⟩ <;> simp [List.filterMap_cons, Frame.chosen, Frame.promises]
  | pickReady hshared | pickReadyEmpty hshared => simp [hpolicy] at hshared
  | @attachResume u y k hu hmtx =>
    cases k <;> simp [workerQueuePush, List.filterMap_cons, List.filter_cons, Frame.chosen, Frame.promises]
  | @save prev k stack hfctx =>
    cases k <;> simp [Switch.onTop, List.filterMap_cons, Frame.chosen, Frame.promises]
  | @suspend u q y hu =>
    cases q <;> simp [WaitQueue.switch, List.filterMap_cons, Frame.chosen, Frame.promises]
  | @relock q l p y hl =>
    cases p <;> simp [relockNext, List.filterMap_cons, Frame.chosen, Frame.promises]
  | @notifyOne q y queue hwaits | @notifyOneEmpty q hwaits => exact absurd rfl (hone q)
  | @notifyAll q y queue hwaits | @notifyAllEmpty q hwaits => exact absurd rfl (hall q)
  | @exit u hworkers | @stay u hworkers => exact absurd rfl (hexit u)
  | procSleepDue hsleep hdue => simp [hawake] at hsleep
  | _ =>
    simp [Lutask.iterate, Lutask.terminateRemove, Lutask.destroy, workerQueuePush, detachWorkerContext,
      workerQueueRemove, procTerminated, List.filterMap_cons, Frame.chosen, Frame.promises]

/-- Only the topmost frame has chosen or promised a context. -/
theorem plain_below (hs : Shape s) (hstack : (s.thread ()).stack = f :: rest) :
    rest.filterMap Frame.chosen = [] ∧ rest.filterMap Frame.promises = [] := by
  have hbelow := (List.pairwise_cons.mp (hstack ▸ hs.below ())).1
  exact ⟨List.filterMap_eq_nil_iff.mpr fun g hg => (hbelow g hg).plain.1,
    List.filterMap_eq_nil_iff.mpr fun g hg => (hbelow g hg).plain.2⟩

/-- Below a notification no other one is under way. -/
theorem notice_below (hscript : Scripted s) (hstack : (s.thread ()).stack = f :: rest)
    (hf : ∃ q, f = .notifyOne q ∨ f = .notifyAll q) : rest.findSome? Frame.notice = none := by
  have hchain := hstack ▸ hscript.running ()
  cases rest with
  | nil => rfl
  | cons g rest =>
    obtain ⟨hon, hrest⟩ := List.isChain_cons_cons.mp hchain
    have hg : g.isBottom ∧ g.notice = none := by
      obtain ⟨q, rfl | rfl⟩ := hf <;> cases g with
      | pickNext u k => cases k <;> simp [Frame.On, Frame.isSettled] at hon
      | _ => simp_all [Frame.On, Frame.isSettled, Frame.readies, Frame.isBottom, Frame.notice]
    simp [below_bottom hrest hg.1, hg.2]

/-- A frame that neither waits nor notifies changes nothing that can be seen. -/
theorem FrameStep.unseen (h : FrameStep s () x now f r) (hs : InTurn s)
    (hactive : (s.thread ()).active = some x) (hstack : (s.thread ()).stack = f :: rest)
    (hactive' : (r.1.thread ()).active = some x) (hpush : ∀ q y, f ≠ .suspendAndWait q y)
    (hone : ∀ q, f ≠ .notifyOne q) (hall : ∀ q, f ≠ .notifyAll q) :
    tasks s = tasks (r.1.setStack () (r.2 ++ rest)) := by
  have hmem : f ∈ (s.thread ()).stack := by simp [hstack]
  obtain ⟨hchosen, hpromises⟩ := plain_below hs.orderly.shape hstack
  have hwaits : r.1.waits = s.waits := by
    funext q
    rcases h.waits_cases q with hsame | ⟨y, hf, -⟩ | ⟨y, -, ⟨hf, -⟩ | ⟨hf, -⟩⟩
    · exact hsame
    · exact absurd hf (hpush q y)
    · exact absurd hf (hone q)
    · exact absurd hf (hall q)
  have hnotice : (r.2 ++ rest).findSome? Frame.notice = (f :: rest).findSome? Frame.notice := by
    rw [List.findSome?_append, List.findSome?_cons, h.notice hone hall]
    cases f.notice <;> rfl
  have hrunning : (some x).filter (fun x => x.runsUserCode && !(f :: rest).any Frame.departs) =
      (some x).filter (fun x => x.runsUserCode && !(r.2 ++ rest).any Frame.departs) := by
    rcases h.departs hpush with hsame | ⟨u, hf⟩
    · simp only [List.any_cons, List.any_append, hsame]
    · -- the dispatcher is not seen at all
      obtain rfl : .dispatcher u = x := by
        have hof := hs.orderly.shape.frames () x hactive f hmem
        rcases hf with rfl | rfl <;> exact hof
      simp [Option.filter_some]
  have hline := FrameStep.line h hs.policy hone hall (hs.not_exit hmem) hs.orderly.placed.awake
  have htop : ∀ g : Frame Unit → Option (Ctx Unit), rest.filterMap g = [] →
      (f :: rest).filterMap g = (g f).toList ∧ (r.2 ++ rest).filterMap g = r.2.filterMap g := by
    intro g hg
    refine ⟨?_, by simp [List.filterMap_append, hg]⟩
    cases hf : g f <;> simp [hf, hg]
  rw [tasks_setStack, tasks, hactive, hactive', hstack, hwaits]
  simp only [view, pending, hnotice, hrunning, Tasks.mk.injEq, true_and]
  refine ⟨?_, funext fun q => by simp only [staying, hnotice]⟩
  rw [(htop _ hchosen).1, (htop _ hpromises).1, (htop _ hchosen).2, (htop _ hpromises).2]
  simp only [List.filter_append] at hline ⊢
  rw [hline]

/-- When a notification is done no other one is under way. -/
theorem notice_afterNotify (q : WaitQueue Unit) (hrest : rest.findSome? Frame.notice = none) :
    (q.afterNotify ++ rest).findSome? Frame.notice = none := by
  cases q <;> exact hrest

/-- A notification that takes a waiter out, or finds none, has looked like that from its call on. -/
theorem FrameStep.notified (h : FrameStep s () x now f r) (hscript : Scripted s) (hs : Shape s)
    (hstack : (s.thread ()).stack = f :: rest) (hf : ∃ q, f = .notifyOne q ∨ f = .notifyAll q) :
    tasks s = tasks (r.1.setStack () (r.2 ++ rest)) := by
  have hrest := notice_below hscript hstack hf
  obtain ⟨hchosen, hpromises⟩ := plain_below hs hstack
  have hafter : ∀ q : WaitQueue Unit, q.afterNotify.any Frame.departs = false ∧
      q.afterNotify.filterMap Frame.chosen = [] ∧ q.afterNotify.filterMap Frame.promises = [] := fun q => by
    cases q <;> exact ⟨rfl, rfl, rfl⟩
  rw [tasks_setStack, tasks, hstack]
  cases h with
  | pop hcase | popEmpty hcase => obtain ⟨q, rfl | rfl⟩ := hf <;> simp at hcase
  | @notifyOne q y queue hwaits =>
    obtain ⟨hd, hc, hp⟩ := hafter q
    have hdone := notice_afterNotify q hrest
    change _ = view _ (.wake y :: (q.afterNotify ++ rest)) (s.sched ()).queue
      (Function.update s.waits q queue)
    rw [view_noticed (show (Frame.notifyOne q :: rest).findSome? Frame.notice = some (q, false) from rfl),
      view_unnoticed (show (Frame.wake y :: (q.afterNotify ++ rest)).findSome? _ = none from hdone)]
    simp [List.filterMap_append, List.filterMap_cons, hwaits, hchosen, hpromises, hd, hc, hp, Frame.chosen,
      Frame.promises, Frame.departs]
  | @notifyOneEmpty q hwaits | @notifyAllEmpty q hwaits =>
    obtain ⟨hd, hc, hp⟩ := hafter q
    have hdone := notice_afterNotify q hrest
    rw [view_noticed rfl, view_unnoticed hdone]
    simp [List.filterMap_append, List.filterMap_cons, hwaits, hchosen, hpromises, hd, hc, hp, Frame.chosen,
      Frame.promises, Frame.departs]
  | @notifyAll q y queue hwaits =>
    change _ = view _ (.wake y :: .notifyAll q :: rest) (s.sched ()).queue (Function.update s.waits q queue)
    rw [view_noticed (show (Frame.notifyAll q :: rest).findSome? Frame.notice = some (q, true) from rfl),
      view_noticed (show (Frame.wake y :: .notifyAll q :: rest).findSome? Frame.notice = some (q, true) from
        rfl)]
    simp [List.filterMap_cons, hwaits, hchosen, hpromises, Frame.chosen, Frame.promises, Frame.departs]
  | _ => simp at hf

/-- A push onto a wait queue is seen as a wait of the running fiber. -/
theorem FrameStep.waited_seen {q : WaitQueue Unit} (h : FrameStep s () x now (.suspendAndWait q y) r)
    (hscript : Scripted s) (hs : Shape s) (hactive : (s.thread ()).active = some x)
    (hstack : (s.thread ()).stack = .suspendAndWait q y :: rest) (huser : x.runsUserCode) :
    CooperativeScheduling.Runs (tasks s) [.wait q] (tasks (r.1.setStack () (r.2 ++ rest))) := by
  obtain ⟨hchosen, hpromises⟩ := plain_below hs hstack
  have hsettled := hscript.rest_settled hstack rfl (by simp) (by simp)
  have hdeparts : rest.any Frame.departs = false :=
    List.any_eq_false.mpr fun g hg => by simp [(Frame.plain_of_settled (hsettled g hg)).1]
  have hnotice : rest.findSome? Frame.notice = none :=
    List.findSome?_eq_none_iff.mpr fun g hg => (Frame.plain_of_settled (hsettled g hg)).2.2.2
  obtain rfl : y = x := hs.frames () x hactive (.suspendAndWait q y) (by simp [hstack])
  rw [tasks_setStack, tasks, hstack, hactive]
  cases h with
  | pop hcase | popEmpty hcase => simp at hcase
  | suspendAndWait =>
    change CooperativeScheduling.Runs _ _ (view (s.thread ()).active (.suspend q y :: rest)
      (s.sched ()).queue (Function.update s.waits q (s.waits q ++ [y])))
    rw [view_unnoticed (show (Frame.suspendAndWait q y :: rest).findSome? _ = none from hnotice),
      view_unnoticed (show (Frame.suspend q y :: rest).findSome? _ = none from hnotice)]
    refine CooperativeScheduling.runs_of_step ?_
    simp [CooperativeScheduling.step, List.filterMap_cons, Option.filter_some, hchosen, hpromises,
      hdeparts, Frame.chosen, Frame.promises, Frame.departs, huser, hactive]

/-- A switch to a fiber is seen as its resumption, and one to the dispatcher is not seen. -/
theorem switched_seen {k : Switch Unit} {stack : List (Frame Unit)} (hs : Shape s)
    (hactive : (s.thread ()).active = some x) (hstack : (s.thread ()).stack = .resume y k :: rest)
    (hc : (s.ctx y).c = some stack) : CooperativeScheduling.Runs (tasks s)
      (if y.runsUserCode then [.resume] else []) (tasks (switched s () x rest y k stack)) := by
  obtain ⟨hchosen, hpromises⟩ := plain_below hs hstack
  have hsettled : ∀ g ∈ rest, g.isSettled := settled_of_pairwise (hstack ▸ hs.below ()) rfl
  have hresumed : ∀ g ∈ stack, g.isSettled := fun g hg => (hs.suspended y stack hc g hg).1
  have hplain : ∀ l : List (Frame Unit), (∀ g ∈ l, g.isSettled) → l.any Frame.departs = false ∧
      l.filterMap Frame.chosen = [] ∧ l.filterMap Frame.promises = [] ∧ l.findSome? Frame.notice = none :=
    fun l hl => ⟨List.any_eq_false.mpr fun g hg => by simp [(Frame.plain_of_settled (hl g hg)).1],
      List.filterMap_eq_nil_iff.mpr fun g hg => (Frame.plain_of_settled (hl g hg)).2.1,
      List.filterMap_eq_nil_iff.mpr fun g hg => (Frame.plain_of_settled (hl g hg)).2.2.1,
      List.findSome?_eq_none_iff.mpr fun g hg => (Frame.plain_of_settled (hl g hg)).2.2.2⟩
  obtain ⟨-, -, -, hnotice⟩ := hplain rest hsettled
  obtain ⟨hdeparts', hchosen', hpromises', hnotice'⟩ := hplain stack hresumed
  have hafter : tasks (switched s () x rest y k stack) =
      view (some y) (.save x k :: stack) (s.sched ()).queue s.waits := by
    simp only [tasks, switched, State.setThread_thread, Function.update_self]
    rfl
  rw [hafter, tasks, hstack, hactive,
    view_unnoticed (show (Frame.resume y k :: rest).findSome? _ = none from hnotice),
    view_unnoticed (show (Frame.save x k :: stack).findSome? _ = none from hnotice')]
  cases huser : y.runsUserCode with
  | true =>
    refine CooperativeScheduling.runs_of_step ?_
    cases k <;> simp [CooperativeScheduling.step, List.filterMap_cons, List.filter_cons, Option.filter_some,
      hchosen, hpromises, hdeparts', hchosen', hpromises', Frame.chosen, Frame.promises,
      Frame.departs, huser]
  | false =>
    refine runs_of_eq ?_
    cases k <;> simp [List.filterMap_cons, List.filter_cons, Option.filter_some,
      hchosen, hpromises, hdeparts', hchosen', hpromises', Frame.chosen, Frame.promises,
      Frame.departs, huser]

/-- Before the destructor is called its end is not executed. -/
theorem not_destroy (hs : InTurn s) (hactive : (s.thread ()).active = some x)
    (hmem : f ∈ (s.thread ()).stack) (u : Unit) : f ≠ .destroy u := by
  rintro rfl
  obtain rfl : x = .main u := hs.orderly.shape.frames () x hactive (.destroy u) hmem
  exact hs.orderly.placed.closing.runningOpen () u hactive hs.isOpen hmem

/-- What an event looks like. -/
theorem step_acts (hs : InTurn s) (hscript : Scripted s) (hloop : Looping s) (he : TakesTurns e)
    (hstep : step s e = some s') : CooperativeScheduling.Runs (tasks s) (acts s e) (tasks s') := by
  have hshape := hs.orderly.shape
  cases step_inv hstep with
  | @call t x op r hactive hstack huser hop =>
    refine OpStep.acts hop he hactive hstack huser fun q y hy => ?_
    cases y with
    | dispatcher u => exact absurd hy (hloop.waits q u)
    | _ => rfl
  | @frame t x f now rest r hactive hstack hframe =>
    have hmem : f ∈ (s.thread ()).stack := by simp [hstack]
    have hactive' : (r.1.thread ()).active = some x := by
      rcases hframe.active with hsame | ⟨u, hf, -⟩
      · exact hsame.trans hactive
      · exact absurd hf (not_destroy hs hactive hmem u)
    by_cases hpush : ∃ q y, f = .suspendAndWait q y
    · obtain ⟨q, y, rfl⟩ := hpush
      refine FrameStep.waited_seen hframe hscript hshape hactive hstack ?_
      cases x with
      | dispatcher u => simpa [Frame.isUser] using hloop.running () u hactive _ hmem
      | _ => rfl
    have hnothing : acts s (.exec () x f now) = [] := by
      cases f with
      | suspendAndWait q y => exact absurd ⟨q, y, rfl⟩ hpush
      | resume y k => simpa [Frame.target] using hframe.target
      | _ => rfl
    rw [hnothing]
    by_cases hloops : ∃ q, f = .notifyOne q ∨ f = .notifyAll q
    · exact runs_of_eq (FrameStep.notified hframe hscript hshape hstack hloops)
    · exact runs_of_eq (FrameStep.unseen hframe hs hactive hstack hactive' (fun q y hf => hpush ⟨q, y, hf⟩)
        (fun q hf => hloops ⟨q, .inl hf⟩) fun q hf => hloops ⟨q, .inr hf⟩)
  | @switch t x y f k now rest stack hactive hstack htarget hc =>
    obtain rfl := hs.resume_of_target (by simp [hstack]) htarget
    exact switched_seen hshape hactive hstack hc

/-- The invariants that the refinement rests on. -/
structure Settling (s : State Unit) : Prop where
  inTurn : InTurn s
  scripted : Scripted s
  looping : Looping s

theorem Settling.initial : Settling (State.initial fun _ => .roundRobin) :=
  ⟨InTurn.initial, Scripted.initial _, Looping.initial _⟩

theorem Settling.step (h : Settling s) (he : TakesTurns e) (hstep : Lutask.step s e = some s') :
    Settling s' where
  inTurn := h.inTurn.step he hstep
  scripted := h.scripted.step h.inTurn.orderly.shape hstep
  looping := h.looping.step h.inTurn.orderly.shape hstep

/-- A fiber that is started with `Dispatch` gets in at the front. -/
def startsNow : Event Unit → Bool
  | .call _ _ (.start .dispatch) => true
  | _ => false

/-- Only a start with `Dispatch` overtakes. -/
theorem overtakes_acts (s : State Unit) (e : Event Unit) :
    (acts s e).countP Action.overtakes = if startsNow e then 1 else 0 := by
  cases e with
  | call t x op =>
    cases op with
    | start launch => cases launch <;> rfl
    | _ => rfl
  | exec t x f now =>
    cases f with
    | resume y k => cases hy : y.runsUserCode <;> simp [acts, hy, startsNow, Action.overtakes]
    | _ => rfl

/-- The fiber that an event resumes is the first of those that are ready. -/
theorem resumptions_acts (hs : InTurn s) (hstep : step s e = some s') :
    CooperativeScheduling.resumptions (tasks s) (acts s e) = e.resumes.toList.filter Ctx.runsUserCode := by
  cases step_inv hstep with
  | @call t x op r hactive hstack huser hop =>
    refine CooperativeScheduling.resumptions_eq_nil fun a ha => ?_
    cases op with
    | start launch => cases launch <;> simp [acts] at ha <;> simp [ha]
    | terminate => rcases (by simpa [acts] using ha : a = _ ∨ a = _) with rfl | rfl <;> simp
    | _ => simp [acts] at ha <;> simp [ha]
  | @frame t x f now rest r hactive hstack hframe =>
    have hnone : (Event.exec t x f now).resumes = none := by
      simp [Event.resumes, Frame.resumes, hframe.target]
    rw [hnone]
    refine CooperativeScheduling.resumptions_eq_nil fun a ha => ?_
    cases f with
    | resume y k => simpa [Frame.target] using hframe.target
    | _ => simp [acts] at ha <;> simp [ha]
  | @switch t x y f k now rest stack hactive hstack htarget hc =>
    obtain rfl := hs.resume_of_target (by simp [hstack]) htarget
    have hresumes : (Event.exec t x (.resume y k) now).resumes = some y := rfl
    cases huser : y.runsUserCode with
    | false => simp [acts, huser, hresumes, CooperativeScheduling.resumptions, observe]
    | true =>
      have hready : (tasks s).ready.head? = some y := by
        simp [tasks, view, hstack, List.filterMap_cons, Frame.chosen, huser]
      have hacts : acts s (.exec t x (.resume y k) now) = [.resume] := by simp [acts, huser]
      rw [hacts, CooperativeScheduling.resumptions_singleton]
      simp [CooperativeScheduling.resumed, hready, hresumes, huser]

end Steps

section Runs

variable {s₀ s : State Unit} {x : Ctx Unit} {events before after : List (Event Unit)}

/-- In the initial state main is the only fiber, and it runs. -/
theorem tasks_initial :
    tasks (State.initial fun _ => .roundRobin) = ⟨some (.main ()), [], fun _ => []⟩ := by
  rw [tasks, view_unnoticed rfl]
  simp [State.initial, Option.filter_some, Ctx.runsUserCode]

theorem TurnRuns.settling (h : TurnRuns events s) : Settling s :=
  Run.invariant h Settling.initial fun _ _ _ hs he hstep => hs.step he hstep

/-- Every part of a run looks like a run of the cooperative scheduler, in which the same fibers are resumed
and as many overtake as are started with `Dispatch`. -/
theorem simulates (h₀ : Settling s₀) (h : Run step (fun _ => TakesTurns) s₀ after s) :
    Settling s ∧ CooperativeScheduling.Runs (tasks s₀) (observe step acts s₀ after) (tasks s) ∧
      CooperativeScheduling.resumptions (tasks s₀) (observe step acts s₀ after) =
        (resumptions after).filter Ctx.runsUserCode ∧
      (observe step acts s₀ after).countP Action.overtakes = after.countP startsNow := by
  induction h with
  | nil => exact ⟨h₀, .nil, rfl, rfl⟩
  | @snoc after s s' e hrun he hstep ih =>
    obtain ⟨hs, hacts, hresumed, hovertaken⟩ := ih
    have hnext := step_acts hs.inTurn hs.scripted hs.looping he hstep
    have hlonger : observe step acts s₀ (after ++ [e]) = observe step acts s₀ after ++ acts s e := by
      simp [hrun.observe_append, observe, hstep]
    refine ⟨hs.step he hstep, ?_, ?_, ?_⟩
    · rw [hlonger]
      exact hacts.append hnext
    · have hparts : CooperativeScheduling.resumptions (tasks s₀) (observe step acts s₀ after ++ acts s e) =
          CooperativeScheduling.resumptions (tasks s₀) (observe step acts s₀ after) ++
            CooperativeScheduling.resumptions (tasks s) (acts s e) := hacts.observe_append _
      rw [hlonger, hparts, hresumed, resumptions_acts hs.inTurn hstep]
      simp
    · rw [hlonger, List.countP_append, hovertaken, overtakes_acts, List.countP_append,
        List.countP_singleton]

/-- Seen from the outside every run of one round-robin thread is a run of the cooperative scheduler, which
starts with main as its only fiber. -/
theorem refines_cooperative (h : TurnRuns events s) :
    CooperativeScheduling.Runs ⟨some (.main ()), [], fun _ => []⟩
      (observe step acts (State.initial fun _ => .roundRobin) events) (tasks s) :=
  tasks_initial ▸ (simulates Settling.initial h).2.1

/-- Main starts worker 0 and waits on condition variable 0, so that the dispatcher switches to worker 0. -/
def mainWaits : List (Event Unit) :=
  [.call () (.main ()) (.start .post), .exec () (.main ()) (.postAttach (.worker 0)) 0,
    .exec () (.main ()) (.schedule (.worker 0)) 0, .call () (.main ()) (.lock 0),
    .call () (.main ()) (.wait 0 0), .exec () (.main ()) (.wait 0 0 (.main ())) 0,
    .exec () (.main ()) (.waitUnlock 0 0 (.main ())) 0,
    .exec () (.main ()) (.suspendAndWait (.cv 0) (.main ())) 0,
    .exec () (.main ()) (.suspend (.cv 0) (.main ())) 0,
    .exec () (.main ()) (.pickNext () (some (.resumeUnlock 0))) 0,
    .exec () (.main ()) (.resume (.dispatcher ()) (.resumeUnlock 0)) 0,
    .exec () (.dispatcher ()) (.save (.main ()) (.resumeUnlock 0)) 0,
    .exec () (.dispatcher ()) (.unlockM 0) 0, .exec () (.dispatcher ()) (.dispatch ()) 0,
    .exec () (.dispatcher ()) (.iterate ()) 0, .exec () (.dispatcher ()) (.procSleep () 0) 0,
    .exec () (.dispatcher ()) (.pickNext () none) 0,
    .exec () (.dispatcher ()) (.resume (.worker 0) (.resumeReady (.dispatcher ()))) 0,
    .exec () (.worker 0) (.save (.dispatcher ()) (.resumeReady (.dispatcher ()))) 0,
    .exec () (.worker 0) (.schedule (.dispatcher ())) 0]

/-- Worker 0 notifies main and yields, so that the dispatcher switches to main. -/
def workerNotifies : List (Event Unit) :=
  [.call () (.worker 0) (.notifyOne 0), .exec () (.worker 0) (.cvNotifyOne 0) 0,
    .exec () (.worker 0) (.notifyOne (.cv 0)) 0, .exec () (.worker 0) (.wake (.main ())) 0,
    .exec () (.worker 0) (.unlockM 0) 0, .call () (.worker 0) .yield,
    .exec () (.worker 0) (.pickNext () (some (.resumeReady (.worker 0)))) 0,
    .exec () (.worker 0) (.resume (.dispatcher ()) (.resumeReady (.worker 0))) 0,
    .exec () (.dispatcher ()) (.save (.worker 0) (.resumeReady (.worker 0))) 0,
    .exec () (.dispatcher ()) (.schedule (.worker 0)) 0, .exec () (.dispatcher ()) (.dispatch ()) 0,
    .exec () (.dispatcher ()) (.iterate ()) 0, .exec () (.dispatcher ()) (.procSleep () 0) 0,
    .exec () (.dispatcher ()) (.pickNext () none) 0,
    .exec () (.dispatcher ()) (.resume (.main ()) (.resumeReady (.dispatcher ()))) 0]

/-- Main starts a worker and waits, and the worker notifies main and yields. -/
theorem waiting_main_refines : ∃ s, TurnRuns (mainWaits ++ workerNotifies) s ∧
    CooperativeScheduling.Runs ⟨some (.main ()), [], fun _ => []⟩
      (observe step acts (State.initial fun _ => .roundRobin) (mainWaits ++ workerNotifies)) (tasks s) ∧
    observe step acts (State.initial fun _ => .roundRobin) (mainWaits ++ workerNotifies) =
      [.spawn (.worker 0), .wait (.cv 0), .resume, .wakeOne (.cv 0), .yield, .resume] := by
  have hplay : (play step (fun _ e => decide (TakesTurns e)) (State.initial fun _ => .roundRobin)
      (mainWaits ++ workerNotifies)).isSome := by
    decide
  obtain ⟨s, hs⟩ := Option.isSome_iff_exists.mp hplay
  have hrun : TurnRuns (mainWaits ++ workerNotifies) s := Run.of_play (fun _ _ => of_decide_eq_true) hs
  exact ⟨s, hrun, refines_cooperative hrun, by decide⟩

/-- A fiber that is ready is resumed before more fibers are than were ahead of it or are started with
`Dispatch` in the meantime. -/
theorem ready_fiber_waits_bounded {front back : List (Ctx Unit)} (hbefore : TurnRuns before s₀)
    (hready : (tasks s₀).ready = front ++ x :: back) (hafter : Run step (fun _ => TakesTurns) s₀ after s)
    (hlate : front.length + after.countP startsNow < ((resumptions after).filter Ctx.runsUserCode).length) :
    x ∈ resumptions after := by
  obtain ⟨-, hacts, hresumed, hovertaken⟩ := simulates hbefore.settling hafter
  have hmem := CooperativeScheduling.bounded_waiting hacts hready (by rwa [hresumed, hovertaken])
  rw [hresumed] at hmem
  exact (List.mem_filter.mp hmem).1

/-- From the call of `NotifyOne` on main is ready, and the next fiber to be resumed. -/
theorem notified_main_resumed_next : ∃ s₀ s,
    TurnRuns (mainWaits ++ [.call () (.worker 0) (.notifyOne 0)]) s₀ ∧
    Run step (fun _ => TakesTurns) s₀ workerNotifies.tail s ∧ (tasks s₀).ready = [.main ()] ∧
      Ctx.main () ∈ resumptions workerNotifies.tail := by
  have hplay : ((play step (fun _ e => decide (TakesTurns e)) (State.initial fun _ => .roundRobin)
      (mainWaits ++ [.call () (.worker 0) (.notifyOne 0)])).bind fun s₀ =>
        (play step (fun _ e => decide (TakesTurns e)) s₀ workerNotifies.tail).map fun _ =>
          (tasks s₀).ready) =
      some [.main ()] := by
    decide
  obtain ⟨s₀, hs₀, hlater⟩ := Option.bind_eq_some_iff.mp hplay
  obtain ⟨s, hs, hready⟩ := Option.map_eq_some_iff.mp hlater
  have hbefore : TurnRuns _ s₀ := Run.of_play (fun _ _ => of_decide_eq_true) hs₀
  have hafter : Run step (fun _ => TakesTurns) s₀ _ s := Run.of_play (fun _ _ => of_decide_eq_true) hs
  have hfirst : (tasks s₀).ready = [] ++ .main () :: [] := hready
  exact ⟨s₀, s, hbefore, hafter, hready, ready_fiber_waits_bounded hbefore hfirst hafter (by decide)⟩

end Runs

end RoundRobin

end Lutask
