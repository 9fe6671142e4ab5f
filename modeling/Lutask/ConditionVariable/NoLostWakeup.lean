import Lutask.ConditionVariable.Predicate
import Lutask.Machine.Schedule

/-!
# No wake-up is lost

A waiter that found its predicate false owns the lock until it owns `m_`, and owns `m_` until it is in
the wait queue and saved. A notifier that changed the data under the lock locks `m_` after that,
so it finds every waiter that tested the predicate before the change in the queue, and takes it out.
-/

namespace Lutask

open LabelledRuns

variable {T : Type*}

/-- In `Wait` on `q`, context `y` found its predicate false and has not given the lock back yet. -/
def Frame.enters (q : ℕ) (y : Ctx T) : Frame T → Prop
  | .wait q' _ z | .waitUnlock q' _ z => q' = q ∧ z = y
  | _ => False

/-- In `Wait` on `q`, context `y` is about to be pushed. -/
def Frame.queues (q : ℕ) (y : Ctx T) (f : Frame T) : Prop :=
  f = .suspendAndWait (.cv q) y

/-- In `Wait` on `q`, context `y` tests its predicate. -/
def Event.tests (q : ℕ) (y : Ctx T) : Event T → Prop
  | .exec _ _ (.waitPred q' _ _ z) _ => q' = q ∧ z = y
  | _ => False

/-- `y` is not on its way into the wait queue of `q`. -/
def Outside (q : ℕ) (y : Ctx T) (s : State T) : Prop :=
  ∀ t, ∀ f ∈ (s.thread t).stack, ¬ f.enters q y

/-- `y` will not be pushed onto the wait queue of `q` any more, and if it is there it is being taken
out by `NotifyAll`. -/
structure Swept (q : ℕ) (y : Ctx T) (s : State T) : Prop where
  outside : Outside q y s
  unqueued : ∀ t, ∀ f ∈ (s.thread t).stack, ¬ f.queues q y
  sweeping : y ∈ s.waits (.cv q) → ∃ t, .notifyAll (.cv q) ∈ (s.thread t).stack

/-- A suspended context is on its way into no wait queue. -/
theorem Frame.not_enters_of_settled {f : Frame T} (h : f.isSettled) (q : ℕ) (y : Ctx T) :
    ¬ f.enters q y ∧ ¬ f.queues q y := by
  cases f <;> simp [Frame.isSettled] at h <;> simp [Frame.enters, Frame.queues]

variable [DecidableEq T] {s s' : State T} {t u : T} {x y z : Ctx T} {q l : ℕ} {now : ℕ} {e : Event T}

/-- Only a bare `Wait(lt)` starts with its lock of `m_`. -/
theorem OpStep.enters {op : Op T} {r : Rest T} (h : OpStep s x op r) (hop : ∀ l, op ≠ .wait q l) :
    ∀ f ∈ r.2, ¬ f.enters q y ∧ ¬ f.queues q y := by
  cases h with
  | @wait q' l =>
    have hq : q' ≠ q := by
      rintro rfl
      exact hop l rfl
    simp [Frame.enters, Frame.queues, hq]
  | start launch => cases launch <;> simp [Lutask.start, Frame.enters, Frame.queues]
  | _ => simp [Lutask.yield, Lutask.waitUntil, Lutask.terminate, Lutask.destructor, Frame.enters,
      Frame.queues]

/-- A context goes into the wait queue of `q` step by step, after it tested its predicate. -/
theorem FrameStep.enters {f : Frame T} {r : Rest T} (h : FrameStep s t x now f r) :
    ∀ g ∈ r.2, (g.enters q y → f.enters q y ∨ ∃ l p, f = .waitPred q l p y) ∧
      (g.queues q y → f.enters q y) := by
  cases h with
  | schedule hu | wake hu | scheduleOn =>
    rcases schedule_cases s _ _ with ⟨-, hr⟩ | ⟨-, -, hr⟩ <;> rw [hr] <;>
      simp [Frame.enters, Frame.queues]
  | @save prev k stack hfctx => cases k <;> simp [Switch.onTop, Frame.enters, Frame.queues]
  | @relock q' l p y hl => cases p <;> simp [relockNext, Frame.enters, Frame.queues]
  | @notifyOne q' y rest hwaits | @notifyOneEmpty q' hwaits | @notifyAllEmpty q' hwaits =>
    cases q' <;> simp [WaitQueue.afterNotify, Frame.enters, Frame.queues]
  | _ => simp_all [Lutask.iterate, Lutask.terminateRemove, Lutask.destroy, Frame.enters, Frame.queues]

/-- A context that does not test its predicate does not start to wait. -/
theorem Outside.step (h : Outside q y s) (hs : Shape s) (he : e.waitsUnder q l s)
    (htests : ¬ e.tests q y) (hstep : step s e = some s') : Outside q y s' := by
  refine hs.frames_step h hstep (fun f hf => (Frame.not_enters_of_settled hf q y).1)
    (fun prev k => id) (fun t x op r hcall hop f hf => ?_)
    fun t x f now r hexec hf hframe g hg henters => ?_
  · subst hcall
    refine (hop.enters (fun l' hwait => ?_) f hf).1
    subst hwait
    exact he rfl
  · subst hexec
    cases (hframe.enters g hg).1 henters with
    | inl hold => exact h t f hf hold
    | inr htest =>
      obtain ⟨l, p, rfl⟩ := htest
      exact htests ⟨rfl, rfl⟩

/-- A context that neither tests nor is about to be pushed is not queued again. -/
theorem Swept.step (h : Swept q y s) (hs : Shape s) (he : e.waitsUnder q l s)
    (htests : ¬ e.tests q y) (hstep : step s e = some s') : Swept q y s' := by
  refine ⟨h.outside.step hs he htests hstep, ?_, fun hy => ?_⟩
  · refine hs.frames_step h.unqueued hstep (fun f hf => (Frame.not_enters_of_settled hf q y).2)
      (fun prev k => by simp [Frame.queues]) (fun t x op r hcall hop f hf => ?_)
      fun t x f now r hexec hf hframe g hg hqueues => h.outside t f hf ((hframe.enters g hg).2 hqueues)
    subst hcall
    refine (hop.enters (fun l' hwait => ?_) f hf).2
    subst hwait
    exact he rfl
  · have hold : y ∈ s.waits (.cv q) := by
      refine (step_waited hstep hy).resolve_right fun hqueues => ?_
      exact h.unqueued e.thread _ hqueues rfl
    obtain ⟨t, ht⟩ := h.sweeping hold
    cases step_notifyAll hs hstep ht with
    | inl hstays => exact ⟨t, hstays⟩
    | inr hempty => simp [hempty.1] at hold

/-- Whoever owns the lock may be a waiter, but then it is not on its way into the queue itself, and
no other waiter is. -/
theorem UnderLock.outside (h : UnderLock q l s) (ho : Orderly s) (hlock : s.lt l = some z)
    (hactive : (s.thread t).active = some z) (hstack : (s.thread t).stack = []) : Outside q y s := by
  intro v f hf henters
  have hholds : f.holdsLt q = some y := by
    cases f <;> simp [Frame.enters] at henters <;> simp [Frame.holdsLt, henters]
  obtain rfl : z = y := Option.some.inj (hlock.symm.trans (h.holds v f hf y hholds))
  obtain rfl := ho.thread_of_holdsLt hf hholds hactive
  simp [hstack] at hf

/-- A notifier that locks `m_` finds nobody between `m_` and the wait queue. -/
theorem swept_of_lock (h : Outside q y s) (ho : Orderly s)
    (hstep : step s (.exec t x (.cvNotifyAll q) now) = some s') : Swept q y s' := by
  obtain ⟨hfree, hnotify⟩ : s.m q = none ∧ .notifyAll (.cv q) ∈ (s'.thread t).stack := by
    cases step_inv hstep with
    | frame hactive hstack hframe =>
      cases hframe with
      | pop hf | popEmpty hf => simp at hf
      | cvNotifyAll hm => exact ⟨hm, by simp⟩
    | switch hactive hstack htarget hc => simp [Frame.target] at htarget
  have hunqueued : ∀ v, ∀ f ∈ (s.thread v).stack, ¬ f.queues q y := by
    rintro v f hf rfl
    have howner : s.m q = some v := ho.locked.owner hf (by simp [Frame.releases])
    simp [hfree] at howner
  refine ⟨h.step (l := 0) (e := .exec t x (.cvNotifyAll q) now) ho.shape trivial id hstep, ?_,
    fun _ => ⟨t, hnotify⟩⟩
  refine ho.shape.frames_step hunqueued hstep (fun f hf => (Frame.not_enters_of_settled hf q y).2)
    (fun prev k => by simp [Frame.queues]) (fun v x op r hcall => by simp at hcall) ?_
  intro v x f now r hexec hf hframe g hg hqueues
  exact h v f hf ((hframe.enters g hg).2 hqueues)

/-- When `m_` is unlocked `NotifyAll` has taken everybody out. -/
theorem not_waiting_of_unlock (h : Swept q y s) (ho : Orderly s)
    (hstep : step s (.exec t x (.unlockM q) now) = some s') : y ∉ s.waits (.cv q) := by
  intro hy
  obtain ⟨v, hv⟩ := h.sweeping hy
  cases step_inv hstep with
  | frame hactive hstack hframe =>
    obtain ⟨-, hnotify⟩ := ho.locked.top (q := q) hstack (by simp [Frame.releases]) hv
      (by simp [Frame.releases])
    simp at hnotify
  | switch hactive hstack htarget hc => simp [Frame.target] at htarget

/-- A context that is out of the wait queue and on no way into it stays out. -/
theorem swept_stays_out (h : Swept q y s) (hout : y ∉ s.waits (.cv q)) (hstep : step s e = some s') :
    y ∉ s'.waits (.cv q) := by
  intro hy
  cases step_waited hstep hy with
  | inl hold => exact hout hold
  | inr hqueues => exact h.unqueued e.thread _ hqueues rfl

/-- The runs in which everybody who waits on `q` does so for a predicate under the lock `l`. -/
def WaitsUnder (q l : ℕ) (s : State T) (e : Event T) : Prop :=
  e.keepsPlaces ∧ e.waitsUnder q l s

instance (q l : ℕ) (s : State T) (e : Event T) : Decidable (WaitsUnder q l s e) :=
  inferInstanceAs (Decidable (_ ∧ _))

/-- The lock is with the waiters that own it in every such run. -/
theorem Runs.underLock {policy : T → Policy} {events : List (Event T)}
    (h : Runs policy (WaitsUnder q l) events s) : UnderLock q l s :=
  (Run.invariant (I := fun s => Orderly s ∧ UnderLock q l s) h
    ⟨Orderly.initial policy, UnderLock.initial policy q l⟩ fun _ _ _ hs he hstep =>
      ⟨hs.1.step he.1 hstep, hs.2.step hs.1 he.2 hstep⟩).2

/-- After a change that was made under the lock, and a `NotifyAll` after it, no context that has not
tested its predicate since the change is left in the wait queue. -/
theorem no_lost_wakeup {policy : T → Policy} {before mid mid' after : List (Event T)} {v : T}
    {preds : ℕ → Bool} {n n' : ℕ}
    (h : Runs policy (WaitsUnder q l) (before ++ .call t z (.write preds) ::
      (mid ++ .exec u z (.cvNotifyAll q) n :: (mid' ++ .exec v z (.unlockM q) n' :: after))) s)
    (hlock : ∀ s₁, Runs policy (WaitsUnder q l) before s₁ → s₁.lt l = some z)
    (hsilent : ∀ e ∈ mid ++ mid' ++ after, ¬ e.tests q y) : y ∉ s.waits (.cv q) := by
  obtain ⟨s₁, s₂, hbefore, hguard, hwrite, hrest⟩ := h.cut
  obtain ⟨s₃, s₄, hmid, -, hnotify, hrest⟩ := hrest.cut
  obtain ⟨s₅, s₆, hmid', -, hunlock, hafter⟩ := hrest.cut
  have ho₁ : Orderly s₁ := Runs.orderly hbefore fun _ _ he => he.1
  have ho₂ : Orderly s₂ := ho₁.step hguard.1 hwrite
  have hout₂ : Outside q y s₂ := by
    cases step_inv hwrite with
    | call hactive hstack huser hop =>
      have hout₁ := (Runs.underLock hbefore).outside (y := y) ho₁ (hlock s₁ hbefore) hactive hstack
      exact hout₁.step ho₁.shape hguard.2 id hwrite
  -- up to the lock of `m_`
  have hsilent₁ : ∀ e ∈ mid, ¬ e.tests q y := fun e he => hsilent e (by simp [he])
  obtain ⟨ho₃, hout₃⟩ := (hmid.restrict hsilent₁).invariant
    (I := fun s => Orderly s ∧ Outside q y s) ⟨ho₂, hout₂⟩ fun _ _ _ hs he hstep =>
      ⟨hs.1.step he.1.1 hstep, hs.2.step hs.1.shape he.1.2 he.2 hstep⟩
  have hswept₄ := swept_of_lock hout₃ ho₃ hnotify
  -- up to the unlock
  have hsilent₂ : ∀ e ∈ mid', ¬ e.tests q y := fun e he => hsilent e (by simp [he])
  obtain ⟨ho₅, hswept₅⟩ := (hmid'.restrict hsilent₂).invariant
    (I := fun s => Orderly s ∧ Swept q y s)
    ⟨ho₃.step (e := .exec u z (.cvNotifyAll q) n) trivial hnotify, hswept₄⟩
    fun _ _ _ hs he hstep => ⟨hs.1.step he.1.1 hstep, hs.2.step hs.1.shape he.1.2 he.2 hstep⟩
  have hout₅ := not_waiting_of_unlock hswept₅ ho₅ hunlock
  have hswept₆ : Swept q y s₆ :=
    hswept₅.step (l := l) (e := .exec v z (.unlockM q) n') ho₅.shape trivial id hunlock
  -- and from then on
  have hsilent₃ : ∀ e ∈ after, ¬ e.tests q y := fun e he => hsilent e (by simp [he])
  exact ((hafter.restrict hsilent₃).invariant
    (I := fun s => Shape s ∧ Swept q y s ∧ y ∉ s.waits (.cv q))
    ⟨ho₅.shape.step hunlock, hswept₆, swept_stays_out hswept₅ hout₅ hunlock⟩
    fun _ _ _ hs he hstep => ⟨hs.1.step hstep, hs.2.1.step hs.1 he.1.2 he.2 hstep,
      swept_stays_out hs.2.1 hs.2.2 hstep⟩).2.2

/-- What condition variable `q`, whose waiters share the lock `l`, promises in a state `s` that a run
has reached by `events`. -/
structure WakesAll (policy : T → Policy) (q l : ℕ) (events : List (Event T)) (s : State T) : Prop where
  /-- Whoever is about to be woken has been saved. -/
  saved : WakesSaved s
  /-- No context executes its own code on a thread that still holds an `m_`. -/
  released : Released s
  /-- Nobody waits who tested its predicate only before a change that a `NotifyAll` followed. -/
  noLost : ∀ y z preds before mid mid' after t u v n n',
    events = before ++ .call t z (.write preds) ::
      (mid ++ .exec u z (.cvNotifyAll q) n :: (mid' ++ .exec v z (.unlockM q) n' :: after)) →
    (∀ s₁, Runs policy (WaitsUnder q l) before s₁ → s₁.lt l = some z) →
    (∀ e ∈ mid ++ mid' ++ after, ¬ e.tests q y) → y ∉ s.waits (.cv q)
  /-- `Wait(lt, pred)` returns to a caller that owns the lock, when it found the predicate true. -/
  returned : ∀ t x z l' p n s', step s (.exec t x (.waitPred q l' p z) n) = some s' →
    (s'.thread t).stack = (s.thread t).stack.tail →
      l' = l ∧ s.lt l = some x ∧ s.preds p ∧ s'.lt l = some x

end Lutask
