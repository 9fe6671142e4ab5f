import Lutask.Machine.Progress
import Lutask.RoundRobin.Refinement

/-!
# One round-robin thread always gets back to its users

Between two calls of the users' code the thread executes frames of the library only. They serve the ready
fibers in their order and make nobody else ready, and there are only so many of them: after that a fiber
executes its own code again, or the end of a `Wait` is blocked by its user's lock, or the dispatcher sleeps
and nobody is ready.
-/

namespace Lutask

open LabelledRuns

variable {T : Type*}

/-- How many frames are executed for this one at most, up to a switch or to the frame below. -/
def Frame.cost : Frame T → ℕ
  | .relock .. => 8
  | .waitPred .. => 7
  | .wait .. | .dispatch _ => 6
  | .waitUnlock .. | .schedulerTerminate _ | .iterate _ => 5
  | .suspendAndWait .. | .terminateRemove .. | .cvNotifyOne _ => 4
  | .pickNext _ k | .pickLocal _ k => if k.isNone then 3 else 2
  | .suspend .. | .cvNotifyAll _ | .notifyOne _ => 3
  | .attachResume .. | .suspendUntil .. | .save .. | .notifyAll _ | .postAttach _ | .detach _ => 2
  | _ => 1

/-- The frames below are not executed before the next switch. -/
def Frame.departing : Frame T → Bool
  | .wait .. | .waitUnlock .. | .suspendAndWait .. | .suspend .. | .pickNext .. | .pickLocal ..
  | .attachResume .. | .resume .. | .suspendUntil .. | .suspended .. => true
  | _ => false

/-- How many frames of a stack are executed at most up to a switch or to its end. -/
def work : List (Frame T) → ℕ
  | [] => 0
  | f :: rest => f.cost + if f.departing then 0 else work rest

/-- The deadline of a dispatcher that falls asleep. -/
def Frame.deadline : Frame T → Option TimePoint
  | .suspendUntil _ tp | .suspended _ tp => some tp
  | _ => none

theorem Frame.cost_le (f : Frame T) : f.cost ≤ 8 := by
  cases f with
  | pickNext u k | pickLocal u k => cases k <;> simp [Frame.cost]
  | _ => simp [Frame.cost]

theorem work_le (stack : List (Frame T)) : work stack ≤ 8 * stack.length := by
  induction stack with
  | nil => rfl
  | cons f rest ih =>
    have hcost := f.cost_le
    rw [work, List.length_cons]
    split <;> omega

/-- How many frames a stack has at most with this one on top: a context may become ready above the timer
pass, which lies on the call of `PickNext` in `Dispatch`. -/
def Frame.height : Frame T → ℕ
  | .procSleep .. => 3
  | f => if f.readies then 4 else if f.isBottom then 1 else 2

theorem Frame.On.height_lt {f g : Frame T} (h : f.On g) : g.height < f.height := by
  obtain ⟨hbottom, h⟩ := h
  have hsettled : g.isSettled → g.height = 1 := by
    intro hg
    cases g <;> simp [Frame.isSettled] at hg <;> rfl
  have hlow : 2 ≤ f.height := by
    cases f <;> simp [Frame.isBottom] at hbottom <;> simp [Frame.height, Frame.readies, Frame.isBottom]
  cases g with
  | pickNext u k =>
    cases k with
    | none =>
      obtain ⟨v, n, rfl⟩ := h
      simp [Frame.height, Frame.readies, Frame.isBottom]
    | some k => simp [Frame.isSettled] at h
  | schedulerTerminate x =>
    obtain ⟨y, rfl⟩ := h
    simp [Frame.height, Frame.readies, Frame.isBottom]
  | unlockM q | notifyAll q | procSleep u n =>
    cases f <;> simp [Frame.readies] at h <;> simp [Frame.height, Frame.readies, Frame.isBottom]
  | _ => exact (hsettled h).trans_lt hlow

/-- A stack has at most four frames. -/
theorem length_le_four {stack : List (Frame T)} (h : stack.IsChain Frame.On) : stack.length ≤ 4 := by
  cases stack with
  | nil => simp
  | cons f rest =>
    have hheight : (f :: rest).length ≤ f.height := by
      induction rest generalizing f with
      | nil => cases f <;> simp [Frame.height, Frame.readies, Frame.isBottom]
      | cons g rest ih =>
        obtain ⟨hon, hrest⟩ := List.isChain_cons_cons.mp h
        have hbelow := ih g hrest
        have hlt := hon.height_lt
        simp only [List.length_cons] at hbelow ⊢
        omega
    refine hheight.trans ?_
    cases f <;> simp [Frame.height, Frame.readies, Frame.isBottom]

variable [DecidableEq T] {s : State T} {t : T} {x : Ctx T} {now : ℕ} {f : Frame T} {r : Rest T}
  {rest : List (Frame T)}

/-- Every frame brings the work down, except that a notification goes on to the next waiter. -/
theorem FrameStep.work (h : FrameStep s t x now f r) (hpolicy : ∀ u, (s.sched u).policy = .roundRobin)
    (hexit : ∀ u, f ≠ .exitTest u) (hdestroy : ∀ u, f ≠ .destroy u)
    (hopen : ∀ u, (s.sched u).shutdown = false) (hflag : ∀ u, (s.sched u).flag = false)
    (hdeadline : ∀ tp ∈ f.deadline, tp = ⊤) (hawake : ∀ u, (s.sched u).sleepQueue = []) :
    Lutask.work (r.2 ++ rest) < Lutask.work (f :: rest) ∨
      ∃ q y, f = .notifyAll q ∧ r.2 = [.wake y, .notifyAll q] := by
  cases h with
  | @schedule u y hu | @wake u y hu | @scheduleOn u y =>
    left
    simp [schedule_roundRobin (hpolicy _), Lutask.work, Frame.cost, Frame.departing]
  | @pop f u k y queue hcase hqueue =>
    left
    rcases hcase with rfl | ⟨rfl, -⟩ <;> cases k <;> simp [Lutask.work, Frame.cost, Frame.departing]
  | @popEmpty f u hcase hqueue =>
    left
    rcases hcase with rfl | ⟨rfl, -⟩ <;> simp [Lutask.work, Frame.cost, Frame.departing]
  | pickReady hshared | pickReadyEmpty hshared => simp [hpolicy] at hshared
  | @save prev k stack hfctx =>
    left
    cases k <;> simp [Switch.onTop, Lutask.work, Frame.cost, Frame.departing]
  | @relock q l p y hl =>
    left
    cases p <;> simp [relockNext, Lutask.work, Frame.cost, Frame.departing]
  | @notifyOne q y queue hwaits | @notifyOneEmpty q hwaits | @notifyAllEmpty q hwaits =>
    left
    cases q <;> simp [WaitQueue.afterNotify, Lutask.work, Frame.cost, Frame.departing] <;> omega
  | @notifyAll q y queue hwaits => exact .inr ⟨q, y, rfl, rfl⟩
  | destroy => exact absurd rfl (hdestroy _)
  | exit hworkers | stay hworkers => exact absurd rfl (hexit _)
  | dispatchShutdown hshut => simp [hopen] at hshut
  | suspendUntilFlag hp hset => simp [hflag] at hset
  | suspendUntilShared hshared => simp [hpolicy] at hshared
  | procSleepDue hsleep hdue => simp [hawake] at hsleep
  | @suspended u tp hwoken =>
    obtain rfl := hdeadline tp rfl
    simp [hflag] at hwoken
  | _ =>
    left
    simp [Lutask.iterate, Lutask.terminateRemove, Lutask.work, Frame.cost, Frame.departing] <;> omega

/-- No call falls asleep at once. -/
theorem OpStep.deadline {op : Op T} (h : OpStep s x op r) : ∀ g ∈ r.2, g.deadline = none := by
  cases h with
  | start launch => cases launch <;> simp [Lutask.start, Frame.deadline]
  | _ => simp [Lutask.yield, Lutask.waitUntil, Lutask.terminate, Lutask.destructor, Frame.deadline]

/-- A dispatcher falls asleep when it has found nobody, and without a deadline if nobody sleeps. -/
theorem FrameStep.deadline (h : FrameStep s t x now f r) (hawake : ∀ u, (s.sched u).sleepQueue = []) :
    ∀ g ∈ r.2, ∀ tp ∈ g.deadline, r.1 = s ∧ (tp ∈ f.deadline ∨ tp = ⊤ ∧ ∃ u, (s.sched u).queue = []) := by
  cases h with
  | schedule hu | wake hu | scheduleOn =>
    rcases schedule_cases s _ _ with ⟨-, hr⟩ | ⟨-, -, hr⟩ <;> rw [hr] <;> simp [Frame.deadline]
  | @popEmpty f u hf hqueue =>
    have htime : suspendTime s u = ⊤ := by simp [suspendTime, hawake]
    refine List.forall_mem_singleton.mpr fun tp htp => ⟨rfl, .inr ⟨?_, u, hqueue⟩⟩
    exact (Option.some.inj htp).symm.trans htime
  | @save prev k stack hfctx => cases k <;> simp [Switch.onTop, Frame.deadline]
  | @relock q l p y hl => cases p <;> simp [relockNext, Frame.deadline]
  | @notifyOne q y queue hwaits | @notifyOneEmpty q hwaits | @notifyAllEmpty q hwaits =>
    cases q <;> simp [WaitQueue.afterNotify, Frame.deadline]
  | suspendUntilBlock hpolicy hflag => exact List.forall_mem_singleton.mpr fun tp htp => ⟨rfl, .inl htp⟩
  | _ => simp [Lutask.iterate, Lutask.terminateRemove, Lutask.destroy, Frame.deadline]

namespace RoundRobin

/-- The dispatcher falls asleep when nobody is in the queue, and sleeps without a deadline. -/
structure Dozing (s : State Unit) : Prop where
  flag : ∀ u, (s.sched u).flag = false
  asleep : ∀ f ∈ (s.thread ()).stack, ∀ tp ∈ f.deadline, tp = ⊤ ∧ (s.sched ()).queue = []

/-- The events of one thread without sleepers, before `~Scheduler`, on which everybody holds the lock with
which it waits. -/
def Proper (s : State Unit) (e : Event Unit) : Prop :=
  TakesTurns e ∧ e.waitsLocked s

instance (s : State Unit) (e : Event Unit) : Decidable (Proper s e) :=
  inferInstanceAs (Decidable (_ ∧ _))

/-- The runs of these events. -/
abbrev ProperRuns (events : List (Event Unit)) (s : State Unit) : Prop :=
  Runs (fun _ => .roundRobin) Proper events s

/-- The invariants of these runs. -/
structure Attended (s : State Unit) : Prop where
  settling : Settling s
  sound : Sound s
  dozing : Dozing s

section Invariants

variable {s s' : State Unit} {x : Ctx Unit} {now : ℕ} {f : Frame Unit} {e : Event Unit}
  {rest : List (Frame Unit)} {r : Rest Unit}

theorem Dozing.initial : Dozing (State.initial fun _ => .roundRobin) where
  flag _ := rfl
  asleep f h := by simp [State.initial] at h

theorem Dozing.step (h : Dozing s) (hs : InTurn s) (hstep : Lutask.step s e = some s') : Dozing s' where
  flag u := by
    cases step_inv hstep with
    | call hactive hstack huser hop => exact (hop.flag u).trans (h.flag u)
    | switch hactive hstack htarget hc => exact h.flag u
    | @frame t x f now rest r hactive hstack hframe =>
      suffices (r.1.sched u).flag = false by simpa
      rcases hframe.flag u with hsame | rfl | ⟨tp, rfl | rfl⟩
      · exact hsame.trans (h.flag u)
      · cases hframe with
        | pop hf | popEmpty hf => simp at hf
        | dispatchShutdown hshut => simp [hs.isOpen] at hshut
        | dispatch hshut => exact h.flag u
      · cases hframe with
        | pop hf | popEmpty hf => simp at hf
        | suspendUntilFlag => simp
        | suspendUntilBlock | suspendUntilShared => exact h.flag u
      · cases hframe with
        | pop hf | popEmpty hf => simp at hf
        | suspended => simp
  asleep g hg tp htp := by
    have hkind : g.isSettled = false ∧ g.isOuter = false ∧ ∀ prev k, g ≠ .save prev k := by
      cases g <;> simp [Frame.deadline] at htp <;> simp [Frame.isSettled, Frame.isOuter]
    rcases new_frame hs.orderly.shape hstep hg hkind.1 hkind.2.1 hkind.2.2 with
      ⟨x, op, r, rfl, hop, rfl, hnew⟩ | ⟨x, f, now, rest, r, rfl, hstack, hframe, rfl, hnew⟩
    · simp [hop.deadline g hnew] at htp
    · obtain ⟨hsame, hcase⟩ := hframe.deadline hs.orderly.placed.awake g hnew tp htp
      rw [State.setStack_sched, hsame]
      rcases hcase with hold | ⟨htop, u, hqueue⟩
      · exact h.asleep f (by simp [hstack]) tp hold
      · exact ⟨htop, hqueue⟩

/-- On one thread before `~Scheduler` no dispatcher exits, and whoever is woken was saved. -/
theorem InTurn.wellUsed (h : InTurn s) (he : Proper s e) (hstep : Lutask.step s e = some s') :
    WellUsed s e := by
  refine ⟨⟨⟨he.1.1, ?_⟩, ?_⟩, he.2⟩
  · cases e with
    | call t x op => exact id
    | exec t x f now =>
      obtain ⟨-, rest, hstack⟩ := step_exec hstep
      have hnot := h.not_exit (f := f) (by simp [hstack])
      cases f with
      | exitTest u => exact absurd rfl (hnot u)
      | _ => simp [Event.exits, Frame.exits]
  · cases e with
    | call t x op => trivial
    | exec t x f now =>
      obtain ⟨-, rest, hstack⟩ := step_exec hstep
      cases f with
      | wake y =>
        refine h.ready y ?_
        rw [readyLine_of_stack h.orderly.shape hstack]
        simp [Frame.wakes]
      | _ => trivial

theorem Attended.initial : Attended (State.initial fun _ => .roundRobin) :=
  ⟨Settling.initial, Sound.initial _, Dozing.initial⟩

theorem Attended.step (h : Attended s) (he : Proper s e) (hstep : Lutask.step s e = some s') :
    Attended s' where
  settling := h.settling.step he.1 hstep
  sound := h.sound.step (h.settling.inTurn.wellUsed he hstep) hstep
  dozing := h.dozing.step h.settling.inTurn hstep

/-- A frame is always proper. -/
theorem proper_of_isFrame (he : e.isFrame) : Proper s e := by
  cases e with
  | call t x op => exact he.elim
  | exec t x f now => exact ⟨⟨trivial, trivial⟩, trivial⟩

end Invariants

/-- How many frames are executed at most until the users' code goes on: each ready fiber may come and wait
again, and the dispatcher may come in between. -/
def rank (s : State Unit) : ℕ :=
  20 * (tasks s).ready.length + (if (s.thread ()).active = some (.dispatcher ()) then 0 else 10) +
    2 * (pending (s.thread ()).stack s.waits).length + work (s.thread ()).stack

section Rank

variable {s s' : State Unit} {x y : Ctx Unit} {now : ℕ} {f : Frame Unit} {e : Event Unit}
  {rest : List (Frame Unit)} {r : Rest Unit}

/-- While no notification is under way nobody is going to be taken out. -/
theorem pending_eq_nil {stack : List (Frame Unit)} {waits : WaitQueue Unit → List (Ctx Unit)}
    (h : stack.findSome? Frame.notice = none) : pending stack waits = [] := by
  simp [pending, h]

theorem pending_notifyAll (q : WaitQueue Unit) (waits : WaitQueue Unit → List (Ctx Unit)) :
    pending (.notifyAll q :: rest) waits = waits q :=
  List.take_length

/-- No frame but a notification changes who is going to be taken out. -/
theorem FrameStep.pending (h : FrameStep s () x now f r) (hscript : Scripted s)
    (hstack : (s.thread ()).stack = f :: rest) (hone : ∀ q, f ≠ .notifyOne q)
    (hall : ∀ q, f ≠ .notifyAll q) :
    pending (r.2 ++ rest) r.1.waits = pending (f :: rest) s.waits := by
  have hnotice : (r.2 ++ rest).findSome? Frame.notice = (f :: rest).findSome? Frame.notice := by
    rw [List.findSome?_append, List.findSome?_cons, h.notice hone hall]
    cases f.notice <;> rfl
  by_cases hwaits : r.1.waits = s.waits
  · simp only [RoundRobin.pending, hnotice, hwaits]
  -- below `SuspendAndWait` there is no notification
  have hpush : ∃ q y, f = .suspendAndWait q y := by
    obtain ⟨q, hq⟩ := Function.ne_iff.mp hwaits
    rcases h.waits_cases q with hsame | ⟨y, hf, -⟩ | ⟨y, -, ⟨hf, -⟩ | ⟨hf, -⟩⟩
    · exact absurd hsame hq
    · exact ⟨q, y, hf⟩
    · exact absurd hf (hone q)
    · exact absurd hf (hall q)
  obtain ⟨q, y, rfl⟩ := hpush
  have hsettled := hscript.rest_settled hstack rfl (by simp) (by simp)
  have hnone : (Frame.suspendAndWait q y :: rest).findSome? Frame.notice = none :=
    List.findSome?_eq_none_iff.mpr (List.forall_mem_cons.mpr
      ⟨rfl, fun g hg => (Frame.plain_of_settled (hsettled g hg)).2.2.2⟩)
  rw [pending_eq_nil hnone, pending_eq_nil (hnotice.trans hnone)]

/-- Every frame brings down what is left to execute up to the next switch. -/
theorem FrameStep.brings_down (h : FrameStep s () x now f r) (hs : Attended s)
    (hactive : (s.thread ()).active = some x) (hstack : (s.thread ()).stack = f :: rest) :
    2 * (RoundRobin.pending (r.2 ++ rest) r.1.waits).length + work (r.2 ++ rest) <
      2 * (RoundRobin.pending (f :: rest) s.waits).length + work (f :: rest) := by
  have hturn := hs.settling.inTurn
  have hmem : f ∈ (s.thread ()).stack := by simp [hstack]
  have hwork : work (r.2 ++ rest) < work (f :: rest) ∨
      ∃ q y, f = .notifyAll q ∧ r.2 = [.wake y, .notifyAll q] :=
    FrameStep.work h hturn.policy (hturn.not_exit hmem) (not_destroy hturn hactive hmem)
      (fun _ => hturn.isOpen) hs.dozing.flag
      (fun tp htp => (hs.dozing.asleep f hmem tp htp).1) hturn.orderly.placed.awake
  by_cases hloop : ∃ q, f = .notifyOne q ∨ f = .notifyAll q
  · have hrest := notice_below hs.settling.scripted hstack hloop
    cases h with
    | pop hf | popEmpty hf => obtain ⟨q, rfl | rfl⟩ := hloop <;> simp at hf
    | @notifyOne q y queue hwaits | @notifyOneEmpty q hwaits | @notifyAllEmpty q hwaits =>
      refine (Nat.add_lt_add_left (hwork.resolve_right ?_) _).trans_le (Nat.add_le_add_right ?_ _)
      · cases q <;> simp [WaitQueue.afterNotify]
      · -- no notification is left
        have hnone : ∀ waits, RoundRobin.pending (q.afterNotify ++ rest) waits = [] := fun _ =>
          pending_eq_nil (notice_afterNotify q hrest)
        exact (Nat.mul_le_mul_left 2 (Nat.le_zero.mpr (congrArg List.length (hnone _)))).trans
          (Nat.zero_le _)
    | @notifyAll q y queue hwaits =>
      -- the waiter that was taken out makes up for its `Wake`
      have hpending : ∀ waits, RoundRobin.pending (.notifyAll q :: rest) waits = waits q :=
        pending_notifyAll q
      have hafter : RoundRobin.pending (.wake y :: .notifyAll q :: rest) (Function.update s.waits q queue) =
          queue := (hpending _).trans (by simp)
      change 2 * (RoundRobin.pending (.wake y :: .notifyAll q :: rest)
          (Function.update s.waits q queue)).length + work (.wake y :: .notifyAll q :: rest) < _
      rw [hpending, hafter, hwaits]
      simp only [List.length_cons, work, Frame.cost, Frame.departing, Bool.false_eq_true, if_false]
      omega
    | _ => simp at hloop
  · rw [FrameStep.pending h hs.settling.scripted hstack (fun q hq => hloop ⟨q, .inl hq⟩) fun q hq =>
      hloop ⟨q, .inr hq⟩]
    rcases hwork with hless | ⟨q, y, hf, -⟩
    · omega
    · exact absurd ⟨q, .inr hf⟩ hloop

/-- The frames only wait and hand over control, so that the ready fibers are served in their order. -/
theorem acts_of_frame (he : e.isFrame) : ∀ a ∈ acts s e, a = .resume ∨ ∃ q, a = .wait q := by
  cases e with
  | call t x op => exact he.elim
  | exec t x f now =>
    cases f with
    | resume y k => cases hy : y.runsUserCode <;> simp [acts, hy]
    | suspendAndWait q y => simp [acts]
    | _ => simp [acts]

/-- A suspended context has little to execute. -/
theorem work_saved {stack : List (Frame Unit)} (hs : Shape s) (hscript : Scripted s)
    (hc : (s.ctx y).c = some stack) : work stack ≤ 8 := by
  have hlength := length_of_settled (hscript.left y stack (.inl hc)) fun g hg =>
    (hs.suspended y stack hc g hg).1
  have hwork := work_le stack
  omega

theorem rank_step (h : Attended s) (he : e.isFrame) (hstep : step s e = some s') : rank s' < rank s := by
  have hturn := h.settling.inTurn
  have hready : (tasks s).ready = e.resumes.toList.filter Ctx.runsUserCode ++ (tasks s').ready := by
    rw [← resumptions_acts hturn hstep]
    exact CooperativeScheduling.ready_of_handover (step_acts hturn h.settling.scripted h.settling.looping
      (proper_of_isFrame (s := s) he).1 hstep) (acts_of_frame he)
  have hshape := hturn.orderly.shape
  cases step_inv hstep with
  | call hactive hstack huser hop => exact he.elim
  | @frame t x f now rest r hactive hstack hframe =>
    have hless := FrameStep.brings_down hframe h hactive hstack
    have hactive' : (r.1.thread t).active = (s.thread t).active :=
      hframe.active.resolve_right (not_exists.mpr fun u hu =>
        not_destroy hturn hactive (by simp [hstack]) u hu.1)
    have hsame : (tasks (r.1.setStack t (r.2 ++ rest))).ready.length = (tasks s).ready.length := by
      simp [hready, Event.resumes, Frame.resumes, hframe.target]
    have hafter : rank (r.1.setStack t (r.2 ++ rest)) = 20 * (tasks s).ready.length +
        (if (s.thread t).active = some (.dispatcher ()) then 0 else 10) +
          2 * (RoundRobin.pending (r.2 ++ rest) r.1.waits).length + work (r.2 ++ rest) := by
      rw [rank, hsame, State.setStack_thread_self, hactive', State.setStack_waits]
    have hbefore : rank s = 20 * (tasks s).ready.length +
        (if (s.thread t).active = some (.dispatcher ()) then 0 else 10) +
          2 * (RoundRobin.pending (f :: rest) s.waits).length + work (f :: rest) := by
      rw [rank, hstack]
    omega
  | @switch t x y f k now rest stack hactive hstack htarget hc =>
    obtain rfl := hturn.resume_of_target (by simp [hstack]) htarget
    have hsaved := work_saved hshape h.settling.scripted hc
    have hne : x ≠ y := by
      rintro rfl
      simp [(hturn.orderly.continued.busy t x (.inl hactive)).2] at hc
    have hpending : RoundRobin.pending (.save x k :: stack) s.waits = [] :=
      pending_eq_nil (List.findSome?_eq_none_iff.mpr (List.forall_mem_cons.mpr
        ⟨rfl, fun g hg => (Frame.plain_of_settled (hshape.suspended y stack hc g hg).1).2.2.2⟩))
    have hafter : rank (switched s t x rest y k stack) =
        20 * (tasks (switched s t x rest y k stack)).ready.length +
          (if y = .dispatcher () then 0 else 10) + (2 + work stack) := by
      have hthread :
          (switched s t x rest y k stack).thread () = ⟨some y, .save x k :: stack, some rest⟩ := by
        simp [switched]
      have hwaits : (switched s t x rest y k stack).waits = s.waits := rfl
      rw [rank, hthread, hwaits, hpending]
      simp [work, Frame.cost, Frame.departing]
    have hbefore : 20 * (tasks s).ready.length + (if x = .dispatcher () then 0 else 10) + 1 ≤ rank s := by
      rw [rank, hstack, hactive]
      simp only [Option.some.injEq, work, Frame.cost, Frame.departing, if_true]
      omega
    have hlength := congrArg List.length hready
    have hresumes : (Event.exec t x (.resume y k) now).resumes = some y := rfl
    have hserved :
        ((some y).toList.filter Ctx.runsUserCode).length = if y = .dispatcher () then 0 else 1 := by
      cases y <;> rfl
    rw [hresumes, List.length_append, hserved] at hlength
    by_cases hy : y = .dispatcher ()
    · -- the dispatcher takes over from a fiber
      have hx : x ≠ .dispatcher () := hy ▸ hne
      rw [if_neg hx] at hbefore
      rw [if_pos hy] at hafter hlength
      omega
    · rw [if_neg hy] at hafter hlength
      omega

/-- Frames are executed as long as the rank allows. -/
theorem frames_le_rank {after : List (Event Unit)} (h : Attended s)
    (hafter : Run step (fun _ e => e.isFrame) s after s') :
    Attended s' ∧ after.length + rank s' ≤ rank s := by
  induction hafter with
  | nil => exact ⟨h, by simp⟩
  | snoc hrun he hstep ih =>
    have hless := rank_step ih.1 he hstep
    refine ⟨ih.1.step (proper_of_isFrame he) hstep, ?_⟩
    rw [List.length_append, List.length_singleton]
    omega

/-- The rank is linear in the number of ready fibers, among which are those that a notification is going to
take out. -/
theorem rank_le (h : Attended s) : rank s ≤ 22 * (tasks s).ready.length + 42 := by
  have hturn := h.settling.inTurn
  have hwork := (work_le (s.thread ()).stack).trans
    (Nat.mul_le_mul_left 8 (length_le_four (h.settling.scripted.running ())))
  have hpending : (pending (s.thread ()).stack s.waits).length ≤ (tasks s).ready.length := by
    have hall : ∀ y ∈ pending (s.thread ()).stack s.waits, y.runsUserCode := by
      intro y hy
      cases hnotice : (s.thread ()).stack.findSome? Frame.notice with
      | none => simp [pending_eq_nil hnotice] at hy
      | some n =>
        have hwaits : y ∈ s.waits n.1 := List.mem_of_mem_take (by simpa [pending, hnotice] using hy)
        cases y with
        | dispatcher u => exact absurd hwaits (h.settling.looping.waits n.1 u)
        | _ => rfl
    simp only [tasks, view, List.filter_append, List.length_append, List.filter_eq_self.mpr hall]
    omega
  rw [rank]
  split <;> omega

end Rank

/-- Where the thread is when the library has done its work. -/
inductive Resting (s : State Unit) : Prop
  /-- A fiber executes its own code. -/
  | user (x : Ctx Unit) (hactive : (s.thread ()).active = some x) (hstack : (s.thread ()).stack = [])
      (hrunning : (tasks s).running = some x)
  /-- `Wait` takes the lock of its caller again, which another fiber owns. -/
  | relocks (q l : ℕ) (p : Option ℕ) (x y : Ctx Unit) (rest : List (Frame Unit))
      (hstack : (s.thread ()).stack = .relock q l p x :: rest) (hlock : s.lt l = some y)
  /-- The dispatcher sleeps and nobody is ready. -/
  | idle (rest : List (Frame Unit)) (hstack : (s.thread ()).stack = .suspended () ⊤ :: rest)
      (hrunning : (tasks s).running = none) (hready : (tasks s).ready = [])

section Runs

variable {s₀ s : State Unit} {before after : List (Event Unit)}

theorem ProperRuns.attended (h : ProperRuns before s) : Attended s :=
  Run.invariant h Attended.initial fun _ _ _ hs he hstep => hs.step he hstep

/-- A sleeping dispatcher has found nobody. -/
theorem Attended.idle {rest : List (Frame Unit)} (h : Attended s)
    (hstack : (s.thread ()).stack = .suspended () ⊤ :: rest) :
    (tasks s).running = none ∧ (tasks s).ready = [] := by
  have hsettled := h.settling.scripted.rest_settled hstack rfl (by simp) (by simp)
  have hnotice : (Frame.suspended () ⊤ :: rest).findSome? Frame.notice = none :=
    List.findSome?_eq_none_iff.mpr (List.forall_mem_cons.mpr
      ⟨rfl, fun g hg => (Frame.plain_of_settled (hsettled g hg)).2.2.2⟩)
  obtain ⟨hchosen, hpromises⟩ := plain_below h.settling.inTurn.orderly.shape hstack
  have hqueue := (h.dozing.asleep (.suspended () ⊤) (by simp [hstack]) ⊤ rfl).2
  have hactive : (s.thread ()).active = some (.dispatcher ()) := by
    obtain ⟨x, hx⟩ := Option.ne_none_iff_exists'.mp (h.sound.housed.running ())
    obtain rfl : x = .dispatcher () :=
      h.settling.inTurn.orderly.shape.frames () x hx (.suspended () ⊤) (by simp [hstack])
    exact hx
  rw [tasks, hstack, hactive, view_unnoticed hnotice]
  exact ⟨by simp [Option.filter_some],
    by simp [List.filterMap_cons, hchosen, hpromises, hqueue, Frame.chosen, Frame.promises]⟩

/-- If no frame can be executed the thread has come to rest. -/
theorem Attended.rests (h : Attended s) : Resting s ∨ ∃ e s', e.isFrame ∧ Lutask.step s e = some s' := by
  cases h.sound.standing () with
  | executes hgoes =>
    obtain ⟨x, f, now, hsome⟩ := hgoes
    obtain ⟨s', hs'⟩ := Option.isSome_iff_exists.mp hsome
    exact .inr ⟨.exec () x f now, s', trivial, hs'⟩
  | user x hactive huser hstack =>
    refine .inl (.user x hactive hstack ?_)
    rw [tasks, hactive, hstack, view_unnoticed rfl]
    simp [Option.filter_some, huser]
  | relocks q l p x y rest hstack hlock => exact .inl (.relocks q l p x y rest hstack hlock)
  | sleeps rest hstack hflag => exact .inl (.idle rest hstack (h.idle hstack).1 (h.idle hstack).2)
  | queues f rest q v hstack hlocks howner hother hgoes => exact absurd rfl hother

/-- Whatever the users have called, the library executes only so many frames, in which it serves the ready
fibers in their order, until a fiber goes on, or a user's lock is taken, or nobody is ready. -/
theorem library_comes_to_rest (hbefore : ProperRuns before s₀)
    (hafter : Run step (fun _ e => e.isFrame) s₀ after s) :
    after.length ≤ 22 * (tasks s₀).ready.length + 42 ∧
      (tasks s₀).ready = (resumptions after).filter Ctx.runsUserCode ++ (tasks s).ready ∧
      (Resting s ∨ ∃ e s', e.isFrame ∧ step s e = some s') := by
  have hs₀ := hbefore.attended
  obtain ⟨hs, hlength⟩ := frames_le_rank hs₀ hafter
  refine ⟨by have := rank_le hs₀; omega, ?_, hs.rests⟩
  obtain ⟨-, hacts, hresumed, -⟩ := simulates hs₀.settling
    (hafter.weaken fun s e he => (proper_of_isFrame (s := s) he).1)
  have honly : ∀ a ∈ observe step acts s₀ after, a = .resume ∨ ∃ q, a = .wait q := by
    refine hafter.invariant_observed
      (I := fun (actions : List (CooperativeScheduling.Action (Ctx Unit) (WaitQueue Unit))) _ =>
        ∀ a ∈ actions, a = .resume ∨ ∃ q, a = .wait q) (by simp) fun actions s e s' hall he hstep => ?_
    exact List.forall_mem_append.mpr ⟨hall, acts_of_frame he⟩
  rw [← hresumed]
  exact CooperativeScheduling.ready_of_handover hacts honly

instance : DecidablePred (Event.isFrame (T := Unit))
  | .call .. => .isFalse id
  | .exec .. => .isTrue trivial

/-- Main waits on a condition variable, and the library hands control to the worker that was ready. -/
theorem main_waits_worker_goes_on : ∃ s₀ s, ProperRuns (mainWaits.take 5) s₀ ∧
    Run step (fun _ e => e.isFrame) s₀ (mainWaits.drop 5) s ∧ (tasks s).running = some (.worker 0) ∧
      (mainWaits.drop 5).length ≤ 22 * (tasks s₀).ready.length + 42 ∧
        (tasks s₀).ready = (resumptions (mainWaits.drop 5)).filter Ctx.runsUserCode ++ (tasks s).ready ∧
          (Resting s ∨ ∃ e s', e.isFrame ∧ step s e = some s') := by
  have hplay : ((play step (fun s e => decide (Proper s e)) (State.initial fun _ => .roundRobin)
      (mainWaits.take 5)).bind fun s₀ => (play step (fun _ e => decide e.isFrame) s₀ (mainWaits.drop 5)).map
        fun s => (tasks s).running) = some (some (.worker 0)) := by
    decide
  obtain ⟨s₀, hs₀, hlater⟩ := Option.bind_eq_some_iff.mp hplay
  obtain ⟨s, hs, hrunning⟩ := Option.map_eq_some_iff.mp hlater
  have hbefore : ProperRuns _ s₀ := Run.of_play (fun _ _ => of_decide_eq_true) hs₀
  have hafter : Run step (fun _ e => e.isFrame) s₀ _ s := Run.of_play (fun _ _ => of_decide_eq_true) hs
  exact ⟨s₀, s, hbefore, hafter, hrunning, library_comes_to_rest hbefore hafter⟩

end Runs

end RoundRobin

end Lutask
