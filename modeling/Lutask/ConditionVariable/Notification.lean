import Lutask.ConditionVariable.Line

/-!
# What a notification does

On one round-robin thread `NotifyOne` makes the longest queued waiter ready, if there is one, and
`NotifyAll` makes all of them ready in their order. Nothing else happens in between, because the fiber that
notifies gives up control nowhere in the call, and every call runs to its end.
-/

namespace Lutask

open LabelledRuns

variable {T : Type*}

/-- The rest of a call of `NotifyAll` on `q` that may still take out waiters. -/
def Frame.notifiesAll (q : ℕ) : Frame T → Bool
  | .cvNotifyAll q' | .notifyAll (.cv q') => decide (q' = q)
  | _ => false

/-- The rest of a call of `NotifyOne` on `q` that may still take out a waiter. -/
def Frame.notifiesOne (q : ℕ) : Frame T → Bool
  | .cvNotifyOne q' | .notifyOne (.cv q') => decide (q' = q)
  | _ => false

/-- A suspended context is not in the middle of a notification. -/
theorem any_notifies_of_settled {stack : List (Frame T)} (h : ∀ f ∈ stack, f.isSettled) (q : ℕ) :
    stack.any (Frame.notifiesAll q) = false ∧ stack.any (Frame.notifiesOne q) = false := by
  constructor <;> refine List.any_eq_false.mpr fun f hf => ?_ <;> have hsettled := h f hf <;>
    cases f <;> simp [Frame.isSettled] at hsettled <;> simp [Frame.notifiesAll, Frame.notifiesOne]

/-- A frame goes on with a notification only if it is one, and only the loops themselves end it. -/
theorem FrameStep.any_notifies [DecidableEq T] {s : State T} {t : T} {x : Ctx T} {now : ℕ} {f : Frame T}
    {r : Rest T} {q : ℕ} (h : FrameStep s t x now f r) (hone : f ≠ .notifyOne (.cv q))
    (hall : f ≠ .notifyAll (.cv q)) : r.2.any (Frame.notifiesAll q) = f.notifiesAll q ∧
      r.2.any (Frame.notifiesOne q) = f.notifiesOne q := by
  cases h with
  | schedule hu | wake hu | scheduleOn =>
    rcases schedule_cases s _ _ with ⟨-, hr⟩ | ⟨-, -, hr⟩ <;> rw [hr] <;>
      simp [Frame.notifiesAll, Frame.notifiesOne]
  | pop hf | popEmpty hf =>
    rcases hf with rfl | ⟨rfl, -⟩ <;> simp [Frame.notifiesAll, Frame.notifiesOne]
  | @save prev k stack hfctx =>
    cases k <;> simp [Switch.onTop, Frame.notifiesAll, Frame.notifiesOne]
  | @relock q' l p y hl => cases p <;> simp [relockNext, Frame.notifiesAll, Frame.notifiesOne]
  | @notifyOne q' y rest hwaits | @notifyOneEmpty q' hwaits | @notifyAll q' y rest hwaits
  | @notifyAllEmpty q' hwaits =>
    cases q' <;> simp_all [WaitQueue.afterNotify, Frame.notifiesAll, Frame.notifiesOne]
  | _ => simp [Lutask.iterate, Lutask.terminateRemove, Lutask.destroy, Frame.notifiesAll,
      Frame.notifiesOne]

/-- A library function goes on. -/
def Event.isFrame : Event T → Prop
  | .call .. => False
  | .exec .. => True

namespace RoundRobin

/-- The waiters on `q` that a notification in progress is going to take out. -/
def due (q : ℕ) (s : State Unit) : List (Ctx Unit) :=
  if (s.thread ()).stack.any (Frame.notifiesAll q) then s.waits (.cv q)
  else if (s.thread ()).stack.any (Frame.notifiesOne q) then (s.waits (.cv q)).take 1 else []

section Due

variable {s : State Unit} {x y : Ctx Unit} {now q : ℕ} {f : Frame Unit} {op : Op Unit} {r : Rest Unit}
  {rest : List (Frame Unit)}

/-- No notification goes on while the stack is empty, nor below a frame that is no notification itself and
lies on settled frames. -/
theorem due_of_idle (h : (s.thread ()).stack = []) : due q s = [] := by
  simp [due, h]

theorem due_of_top (hstack : (s.thread ()).stack = f :: rest) (hsettled : ∀ g ∈ rest, g.isSettled)
    (hall : f.notifiesAll q = false) (hone : f.notifiesOne q = false) : due q s = [] := by
  obtain ⟨hallBelow, honeBelow⟩ := any_notifies_of_settled hsettled q
  simp only [due, hstack, List.any_cons, hall, hone, hallBelow, honeBelow, Bool.or_false,
    Bool.false_eq_true, if_false]

theorem due_of_empty (h : s.waits (.cv q) = []) : due q s = [] := by
  simp [due, h]

/-- As long as a frame leaves the waiters alone it leaves those alone that are to be taken out. -/
theorem FrameStep.due (h : FrameStep s () x now f r) (hstack : (s.thread ()).stack = f :: rest)
    (hwaits : r.1.waits (.cv q) = s.waits (.cv q)) : due q (r.1.setStack () (r.2 ++ rest)) = due q s := by
  by_cases hloop : f = .notifyOne (.cv q) ∨ f = .notifyAll (.cv q)
  · -- the loop has found nobody
    have hempty : s.waits (.cv q) = [] := by
      rcases hloop with rfl | rfl
      · cases h with
        | pop hf | popEmpty hf => simp at hf
        | notifyOne hpop => simp [hpop] at hwaits
        | notifyOneEmpty hempty => exact hempty
      · cases h with
        | pop hf | popEmpty hf => simp at hf
        | notifyAll hpop => simp [hpop] at hwaits
        | notifyAllEmpty hempty => exact hempty
    rw [due_of_empty hempty, due_of_empty (by simpa [hempty] using hwaits)]
  · obtain ⟨hall, hone⟩ := h.any_notifies (fun hf => hloop (.inl hf)) fun hf => hloop (.inr hf)
    simp only [RoundRobin.due, State.setStack_thread_self, State.setStack_waits, hstack, hwaits,
      List.any_append, List.any_cons, hall, hone]

/-- A notification takes out the first of those that it is going to take out. -/
theorem due_of_pop (h : FrameStep s () x now f r) (hs : Shape s) (hl : Locked s)
    (hstack : (s.thread ()).stack = f :: rest) (hpop : s.waits (.cv q) = y :: r.1.waits (.cv q))
    (hf : f = .notifyOne (.cv q) ∨ f = .notifyAll (.cv q)) :
    due q s = y :: due q (r.1.setStack () (r.2 ++ rest)) := by
  rcases hf with rfl | rfl
  · have hframes : r.2 = [.wake y, .unlockM q] := by
      cases h with
      | pop hf | popEmpty hf => simp at hf
      | notifyOne hwaits =>
        obtain ⟨rfl, -⟩ := List.cons.inj (hwaits.symm.trans hpop)
        rfl
      | notifyOneEmpty hempty => simp [hempty] at hpop
    -- nothing below the frame takes out waiters
    have hrest : rest.any (Frame.notifiesAll q) = false ∧ rest.any (Frame.notifiesOne q) = false := by
      have hbelow := (List.pairwise_cons.mp (hstack ▸ hs.below ())).1
      constructor <;> refine List.any_eq_false.mpr fun g hg hnotifies => ?_
      · have hreleases := hl.below hstack (q := q) (by simp [Frame.releases]) hg
        cases g with
        | cvNotifyAll q' => simpa [Frame.Below, Frame.isSettled, Frame.isOuter] using hbelow _ hg
        | notifyAll q' => cases q' <;> simp_all [Frame.notifiesAll, Frame.releases]
        | _ => simp [Frame.notifiesAll] at hnotifies
      · have hkind := hbelow g hg
        cases g <;> simp [Frame.notifiesOne] at hnotifies <;>
          simp [Frame.Below, Frame.isSettled, Frame.isOuter] at hkind
    simp only [due, State.setStack_thread_self, State.setStack_waits, hstack, hframes, hpop,
      List.any_append, List.any_cons, hrest.1, hrest.2]
    simp [Frame.notifiesAll, Frame.notifiesOne]
  · have hframes : r.2 = [.wake y, .notifyAll (.cv q)] := by
      cases h with
      | pop hf | popEmpty hf => simp at hf
      | notifyAll hwaits =>
        obtain ⟨rfl, -⟩ := List.cons.inj (hwaits.symm.trans hpop)
        rfl
      | notifyAllEmpty hempty => simp [hempty] at hpop
    simp [due, hstack, hframes, hpop, Frame.notifiesAll]

end Due

/-- The stacks of a notification on `q` that was called by the user's code. -/
inductive CallStack (q : ℕ) : List (Frame Unit) → Prop
  | lockOne : CallStack q [.cvNotifyOne q]
  | one : CallStack q [.notifyOne (.cv q)]
  | wakeOne (y : Ctx Unit) : CallStack q [.wake y, .unlockM q]
  | lockAll : CallStack q [.cvNotifyAll q]
  | all : CallStack q [.notifyAll (.cv q)]
  | wakeAll (y : Ctx Unit) : CallStack q [.wake y, .notifyAll (.cv q)]
  | unlock : CallStack q [.unlockM q]
  | done : CallStack q []

/-- How many frames a notification has still to execute. -/
def stepsLeft (q : ℕ) (s : State Unit) : ℕ :=
  match (s.thread ()).stack with
  | [.cvNotifyOne _] => 4
  | [.notifyOne _] => 3
  | [.wake _, .unlockM _] => 2
  | [.cvNotifyAll _] => 2 * (s.waits (.cv q)).length + 3
  | [.notifyAll _] => 2 * (s.waits (.cv q)).length + 2
  | [.wake _, .notifyAll _] => 2 * (s.waits (.cv q)).length + 3
  | [.unlockM _] => 1
  | _ => 0

/-- A notification of `x` on `q`, called in `s₀`, that is to make the contexts `target` ready: it has taken
out some of them, which are at the end of the ready line, and it is going to take out the others. -/
structure InCall (q : ℕ) (x : Ctx Unit) (s₀ : State Unit) (target : List (Ctx Unit)) (s : State Unit) :
    Prop where
  active : (s.thread ()).active = some x
  stack : CallStack q (s.thread ()).stack
  progress : ∃ taken, target = taken ++ due q s ∧ readyLine s = (s₀.sched ()).queue ++ taken ∧
    s₀.waits (.cv q) = taken ++ s.waits (.cv q)
  others : ∀ Q, Q ≠ .cv q → s.waits Q = s₀.waits Q

section Call

variable {s₀ s s' : State Unit} {x y : Ctx Unit} {now q : ℕ} {target : List (Ctx Unit)} {e : Event Unit}
  {f : Frame Unit} {r : Rest Unit} {rest : List (Frame Unit)}

/-- A notification that is called is going to take out the waiters that it finds. -/
theorem inCall_of_call {op : Op Unit} (hop : op = .notifyOne q ∨ op = .notifyAll q)
    (hstep : step s (.call () x op) = some s') : InCall q x s (due q s') s' := by
  obtain ⟨hactive, hstack, r, hcall, rfl⟩ := step_call hstep
  have hline : readyLine (r.1.setStack () r.2) = (s.sched ()).queue := by
    rw [OpStep.readyLine hcall hstack]
    simp [readyLine, hstack]
  refine ⟨by simpa [hcall.thread] using hactive, ?_, ⟨[], rfl, by simpa using hline, ?_⟩, fun Q _ => ?_⟩
  · rcases hop with rfl | rfl <;> cases hcall
    · simpa using .lockOne
    · simpa using .lockAll
  · simp [hcall.waits]
  · simp [hcall.waits]

/-- What the frames of a notification do not do. -/
theorem CallStack.top (h : CallStack q (f :: rest)) : f.introduces = none ∧
    (∀ Q, f = .notifyOne Q ∨ f = .notifyAll Q → Q = .cv q) ∧ (∀ Q y, f ≠ .suspendAndWait Q y) ∧
      (∀ u, f ≠ .destroy u) ∧ f.target = none := by
  cases h <;> simp [Frame.introduces, Frame.target, eq_comm]

/-- A notification goes on to its end. -/
theorem CallStack.next (h : CallStack q (f :: rest)) (hstack : (s.thread ()).stack = f :: rest)
    (hpolicy : ∀ u, (s.sched u).policy = .roundRobin) (hframe : FrameStep s () x now f r) :
    CallStack q (r.2 ++ rest) ∧ stepsLeft q (r.1.setStack () (r.2 ++ rest)) < stepsLeft q s := by
  cases h with
  | lockOne =>
    cases hframe with
    | pop hf | popEmpty hf => simp at hf
    | cvNotifyOne hm => exact ⟨.one, by simp [stepsLeft, hstack]⟩
  | one =>
    cases hframe with
    | pop hf | popEmpty hf => simp at hf
    | @notifyOne Q y queue hwaits => exact ⟨.wakeOne y, by simp [stepsLeft, hstack, WaitQueue.afterNotify]⟩
    | notifyOneEmpty hempty => exact ⟨.unlock, by simp [stepsLeft, hstack, WaitQueue.afterNotify]⟩
  | wakeOne y =>
    cases hframe with
    | pop hf | popEmpty hf => simp at hf
    | wake hu =>
      rw [schedule_roundRobin (hpolicy _)]
      exact ⟨.unlock, by simp [stepsLeft, hstack]⟩
  | lockAll =>
    cases hframe with
    | pop hf | popEmpty hf => simp at hf
    | cvNotifyAll hm => exact ⟨.all, by simp [stepsLeft, hstack]⟩
  | all =>
    cases hframe with
    | pop hf | popEmpty hf => simp at hf
    | @notifyAll Q y queue hwaits =>
      refine ⟨.wakeAll y, ?_⟩
      simp [stepsLeft, hstack, hwaits]
      omega
    | notifyAllEmpty hempty => exact ⟨.unlock, by simp [stepsLeft, hstack, WaitQueue.afterNotify]⟩
  | wakeAll y =>
    cases hframe with
    | pop hf | popEmpty hf => simp at hf
    | wake hu =>
      rw [schedule_roundRobin (hpolicy _)]
      exact ⟨.all, by simp [stepsLeft, hstack, queuePush]⟩
  | unlock =>
    cases hframe with
    | pop hf | popEmpty hf => simp at hf
    | unlockM => exact ⟨.done, by simp [stepsLeft, hstack]⟩

/-- Every frame of a notification brings it forward. -/
theorem InCall.frame (h : InCall q x s₀ target s) (hs : InTurn s) (hstack : (s.thread ()).stack = f :: rest)
    (hframe : FrameStep s () x now f r) : InCall q x s₀ target (r.1.setStack () (r.2 ++ rest)) := by
  have hcall : CallStack q (f :: rest) := hstack ▸ h.stack
  obtain ⟨hintroduces, hloop, hpush, hdestroy, -⟩ := hcall.top
  have hmem : f ∈ (s.thread ()).stack := by simp [hstack]
  obtain ⟨taken, htarget, hline, hwaits⟩ := h.progress
  refine ⟨?_, by simpa using (hcall.next hstack hs.policy hframe).1, ?_, fun Q hQ => ?_⟩
  · have hsame := hframe.active.resolve_right fun hclosed => by
      obtain ⟨u, hf, -⟩ := hclosed
      exact hdestroy u hf
    simpa [hsame] using h.active
  · rcases hframe.waits_cases (.cv q) with hsame | ⟨y, hf, -⟩ | ⟨y, hpop, hf⟩
    · refine ⟨taken, ?_, ?_, by simpa [hsame] using hwaits⟩
      · rw [FrameStep.due hframe hstack hsame]
        exact htarget
      · rcases FrameStep.readyLine hframe hs.policy hs.orderly.shape hstack (hs.not_exit hmem) with hkept |
          ⟨z, hz, -⟩ | ⟨Q, z, hpop, hf, -⟩
        · rw [hkept]
          exact hline
        · simp [hintroduces] at hz
        · obtain rfl := hloop Q hf
          simp [hsame] at hpop
    · exact absurd hf (hpush _ y)
    · have hf' : f = .notifyOne (.cv q) ∨ f = .notifyAll (.cv q) := hf.imp And.left And.left
      refine ⟨taken ++ [y], ?_, ?_, ?_⟩
      · rw [htarget, due_of_pop hframe hs.orderly.shape hs.orderly.locked hstack hpop hf']
        simp
      · rw [readyLine_of_pop hframe hs.orderly.shape hstack hpop hf', hline, List.append_assoc]
      · rw [hwaits, hpop]
        simp
  · rcases hframe.waits_cases Q with hsame | ⟨y, hf, -⟩ | ⟨y, -, hf⟩
    · simpa [hsame] using h.others Q hQ
    · exact absurd hf (hpush _ y)
    · exact absurd (hloop Q (hf.imp And.left And.left)) hQ

/-- The next frame of a notification can always be executed. -/
theorem InCall.executes (h : InCall q x s₀ target s) (hs : InTurn s)
    (hstack : (s.thread ()).stack = f :: rest) : ∃ r, execFrame s () x 0 f = some r := by
  have hcall : CallStack q (f :: rest) := hstack ▸ h.stack
  -- nobody holds `m_` before the call has locked it
  have hfree : (f = .cvNotifyOne q ∨ f = .cvNotifyAll q) → rest = [] → s.m q = none := by
    intro hf hrest
    have hzero : s.releases q () = 0 := by
      rcases hf with rfl | rfl <;> simp [State.releases, hstack, hrest, Frame.releases]
    rcases hs.orderly.locked q () with ⟨-, hone⟩ | ⟨hnot, -⟩
    · omega
    · exact Option.eq_none_iff_forall_ne_some.mpr fun _ => hnot
  have hwake : ∀ y, f = .wake y → ∃ r, execFrame s () x 0 f = some r := by
    rintro y rfl
    obtain ⟨u, hu⟩ := Option.ne_none_iff_exists'.mp (hs.enlisted.of_wake hs.orderly.placed hstack)
    exact ⟨schedule s u y, by simp [execFrame, hu]⟩
  cases hcall with
  | lockOne => exact ⟨_, by simp [execFrame, lockM, hfree (.inl rfl) rfl]; rfl⟩
  | lockAll => exact ⟨_, by simp [execFrame, lockM, hfree (.inr rfl) rfl]; rfl⟩
  | wakeOne y | wakeAll y => exact hwake y rfl
  | one | all | unlock => exact ⟨_, rfl⟩

/-- A notification stays one until it returns. -/
theorem InCall.step (h : InCall q x s₀ target s) (hs : InTurn s) (he : e.isFrame)
    (hstep : Lutask.step s e = some s') : InCall q x s₀ target s' ∧ InTurn s' := by
  cases e with
  | call t z op => exact he.elim
  | exec t z f now =>
    have hturn : TakesTurns (.exec t z f now) := ⟨trivial, trivial⟩
    refine ⟨?_, hs.step hturn hstep⟩
    obtain ⟨-, rest, hstack⟩ := step_exec hstep
    obtain ⟨v, now, -, hactive, ⟨r, hframe, rfl⟩ | ⟨y, k, stack, htarget, -⟩⟩ :=
      step_top (t := ()) hstep rfl hstack
    · obtain rfl : x = v := Option.some.inj (h.active.symm.trans hactive)
      exact h.frame hs hstack hframe
    · have hcall : CallStack q (f :: rest) := hstack ▸ h.stack
      simp [hcall.top.2.2.2.2] at htarget

end Call

/-- The library functions that a thread executes in `s` can be executed to their end, and they always end
with the property `P`. -/
def Returns (s : State Unit) (P : State Unit → Prop) : Prop :=
  (∃ frames s', Run step (fun _ e => e.isFrame) s frames s' ∧ (s'.thread ()).stack = []) ∧
    ∀ frames s', Run step (fun _ e => e.isFrame) s frames s' → (s'.thread ()).stack = [] → P s'

/-- Of the waiters on `q` exactly those in `woken`, the longest queued ones, were made ready in their order,
and no other waiter was. -/
structure MakesReady (q : ℕ) (woken : List (Ctx Unit)) (s s' : State Unit) : Prop where
  queue : (s'.sched ()).queue = (s.sched ()).queue ++ woken
  waits : s.waits (.cv q) = woken ++ s'.waits (.cv q)
  others : ∀ Q, Q ≠ .cv q → s'.waits Q = s.waits Q

/-- Every notification returns and has then made ready those whom it was to make ready. -/
theorem InCall.returns {s₀ s : State Unit} {x : Ctx Unit} {q : ℕ} {target : List (Ctx Unit)}
    (h : InCall q x s₀ target s) (hs : InTurn s) : Returns s (MakesReady q target s₀) := by
  constructor
  · have hcompletes : ∃ frames s', Run Lutask.step (fun _ (e : Event Unit) => e.isFrame) s frames s' ∧
        (InCall q x s₀ target s' ∧ InTurn s') ∧ (s'.thread ()).stack = [] := by
      refine Run.completes (stepsLeft q) (fun s hs hnot => ?_) ⟨h, hs⟩
      obtain ⟨hcall, hturn⟩ := hs
      obtain ⟨f, rest, hstack⟩ := List.exists_cons_of_ne_nil hnot
      have hstacks : CallStack q (f :: rest) := hstack ▸ hcall.stack
      obtain ⟨r, hr⟩ := hcall.executes hturn hstack
      have hstep := step_of_execFrame hcall.active hstack hstacks.top.2.2.2.2 hr
      have hless := (hstacks.next hstack hturn.policy (execFrame_inv hr)).2
      have hgoes : (Event.exec () x f 0).isFrame := trivial
      exact ⟨_, _, hgoes, hstep, hcall.step hturn hgoes hstep, hless⟩
    obtain ⟨frames, s', hrun, -, hdone⟩ := hcompletes
    exact ⟨frames, s', hrun, hdone⟩
  · intro frames s' hrun hdone
    have hlast := hrun.invariant (I := fun s => InCall q x s₀ target s ∧ InTurn s) ⟨h, hs⟩
      fun _ _ _ hs he hstep => hs.1.step hs.2 he hstep
    obtain ⟨taken, htarget, hline, hwaits⟩ := hlast.1.progress
    rw [due_of_idle hdone, List.append_nil] at htarget
    subst htarget
    exact ⟨by simpa [readyLine, hdone] using hline, hwaits, hlast.1.others⟩

end RoundRobin

end Lutask
