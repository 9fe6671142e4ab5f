import Mathlib.Data.List.Count
import Lutask.Machine.Shape

/-!
# The mutex of a condition variable

`m_` is released by a destructor, or by the function that `Resume(lk)` runs on top of the resumed
stack. In every run, the mutex is held by a thread exactly while one frame on the stack of
this thread has its release ahead of it, and no such frame is on another stack.
-/

namespace Lutask

open LabelledRuns

variable {T : Type*}

/-- The switch that a frame is on its way to, or the one that `save` completes. -/
def Frame.carried : Frame T → Option (Switch T)
  | .suspend q _ => some q.switch
  | .pickNext u k | .pickLocal u k => some (switchOf u k)
  | .attachResume _ k | .resume _ k | .save _ k => some k
  | .returnToMain _ => some .suspendWithCC
  | _ => none

/-- The frame has the release of `m_` of condition variable `q` ahead of it. -/
def Frame.releases (q : ℕ) : Frame T → Bool
  | .waitUnlock q' _ _ | .unlockM q' | .suspendAndWait (.cv q') _ | .suspend (.cv q') _
  | .notifyOne (.cv q') | .notifyAll (.cv q') => decide (q' = q)
  | .pickNext _ (some (.resumeUnlock q')) | .pickLocal _ (some (.resumeUnlock q'))
  | .attachResume _ (.resumeUnlock q') | .resume _ (.resumeUnlock q')
  | .save _ (.resumeUnlock q') => decide (q' = q)
  | _ => false

/-- A frame that carries the switch of a condition variable releases its mutex. -/
theorem Frame.releases_of_carried {f : Frame T} {q : ℕ} (h : f.carried = some (.resumeUnlock q)) :
    f.releases q := by
  cases f with
  | pickNext u k | pickLocal u k =>
    cases k with
    | none => simp [Frame.carried, switchOf] at h
    | some k =>
      obtain rfl : k = .resumeUnlock q := by simpa [Frame.carried, switchOf] using h
      simp [Frame.releases]
  | attachResume y k | resume y k | save y k =>
    obtain rfl : k = .resumeUnlock q := by simpa [Frame.carried] using h
    simp [Frame.releases]
  | suspend q' y =>
    cases q' with
    | cv q' =>
      obtain rfl : q' = q := by simpa [Frame.carried, WaitQueue.switch] using h
      simp [Frame.releases]
    | waitList w => simp [Frame.carried, WaitQueue.switch] at h
  | _ => simp [Frame.carried] at h

/-- A suspended context holds no `m_`. -/
theorem Frame.releases_of_settled {f : Frame T} (h : f.isSettled) (q : ℕ) : f.releases q = false := by
  cases f <;> simp [Frame.isSettled] at h <;> rfl

/-- No frame of a suspended stack releases an `m_`. -/
theorem countP_releases_of_settled {stack : List (Frame T)} (h : ∀ f ∈ stack, f.isSettled) (q : ℕ) :
    stack.countP (Frame.releases q) = 0 := by
  refine List.countP_eq_zero.mpr fun f hf => ?_
  simp [Frame.releases_of_settled (h f hf) q]

/-- A switch passes on what it had to release to the function on top of the resumed stack. -/
theorem Frame.releases_save {f : Frame T} {y : Ctx T} {k : Switch T} (h : f.target = some (y, k))
    (prev : Ctx T) (q : ℕ) : (Frame.save prev k).releases q = f.releases q := by
  cases f with
  | resume z k' =>
    obtain ⟨rfl, rfl⟩ : z = y ∧ k' = k := by simpa [Frame.target] using h
    cases k' <;> rfl
  | returnToMain u =>
    obtain ⟨-, rfl⟩ : Ctx.main u = y ∧ Switch.suspendWithCC = k := by simpa [Frame.target] using h
    rfl
  | _ => simp [Frame.target] at h

/-- How many frames on the stack of `t` have the release of `m_` of `q` ahead of them. -/
def State.releases (s : State T) (q : ℕ) (t : T) : ℕ :=
  (s.thread t).stack.countP (Frame.releases q)

/-- The owner of every `m_` is the thread whose stack will release it, once. -/
def Locked (s : State T) : Prop :=
  ∀ q t, s.m q = some t ∧ s.releases q t = 1 ∨ s.m q ≠ some t ∧ s.releases q t = 0

theorem Locked.initial (policy : T → Policy) : Locked (State.initial policy) := fun q t =>
  .inr ⟨by simp [State.initial], rfl⟩

variable {s : State T} {t : T} {x : Ctx T}

/-- A frame that releases `m_` is executed by the owner. -/
theorem Locked.owner (h : Locked s) {f : Frame T} {q : ℕ} (hf : f ∈ (s.thread t).stack)
    (hq : f.releases q) : s.m q = some t := by
  rcases h q t with ⟨hm, -⟩ | ⟨-, hcount⟩
  · exact hm
  · exact absurd hq (List.countP_eq_zero.mp hcount f hf)

/-- Nothing below a frame that releases `m_` releases it again. -/
theorem Locked.below (h : Locked s) {f g : Frame T} {q : ℕ} {rest : List (Frame T)}
    (hstack : (s.thread t).stack = f :: rest) (hq : f.releases q) (hg : g ∈ rest) :
    g.releases q = false := by
  have hone : s.releases q t ≤ 1 := by
    rcases h q t with ⟨-, hcount⟩ | ⟨-, hcount⟩ <;> omega
  rw [State.releases, hstack, List.countP_cons_of_pos hq] at hone
  have hzero : rest.countP (Frame.releases q) = 0 := by omega
  simpa using List.countP_eq_zero.mp hzero g hg

/-- A frame on top that releases `m_` is the only one on all stacks that does. -/
theorem Locked.top (h : Locked s) {f g : Frame T} {q : ℕ} {u : T} {rest : List (Frame T)}
    (hstack : (s.thread t).stack = f :: rest) (hf : f.releases q) (hg : g ∈ (s.thread u).stack)
    (hgq : g.releases q) : u = t ∧ g = f := by
  have hself : s.m q = some t := h.owner (hstack ▸ List.mem_cons_self) hf
  obtain rfl : u = t := Option.some.inj ((h.owner hg hgq).symm.trans hself)
  refine ⟨rfl, ?_⟩
  rw [hstack] at hg
  rcases List.mem_cons.mp hg with rfl | hrest
  · rfl
  · simp [h.below hstack hf hrest] at hgq

variable [DecidableEq T]

/-- An operation touches no `m_` in its first action. -/
theorem OpStep.releases {op : Op T} {r : Rest T} (h : OpStep s x op r) (q : ℕ) :
    r.1.m = s.m ∧ r.2.countP (Frame.releases q) = 0 := by
  cases h with
  | start launch => cases launch <;> exact ⟨rfl, rfl⟩
  | _ => exact ⟨rfl, rfl⟩

/-- A frame locks a free `m_`, unlocks it, or passes on what it had to release. -/
theorem FrameStep.releases {f : Frame T} {now : ℕ} {r : Rest T} (h : FrameStep s t x now f r) (q : ℕ) :
    r.1.m q = s.m q ∧ r.2.countP (Frame.releases q) = [f].countP (Frame.releases q) ∨
      s.m q = none ∧ r.1.m q = some t ∧ f.releases q = false ∧ r.2.countP (Frame.releases q) = 1 ∨
      f.releases q ∧ r.1.m q = none ∧ r.2 = [] := by
  cases h with
  | @wait q' l y hm | @cvNotifyOne q' hm | @cvNotifyAll q' hm =>
    by_cases hq : q' = q
    · subst hq
      exact .inr (.inl ⟨hm, by simp, rfl, by simp [Frame.releases]⟩)
    · exact .inl ⟨by simp [Ne.symm hq], by simp [Frame.releases, hq]⟩
  | @unlockM q' =>
    by_cases hq : q' = q
    · exact .inr (.inr ⟨by simp [Frame.releases, hq], by simp [hq], rfl⟩)
    · exact .inl ⟨by simp [Ne.symm hq], by simp [Frame.releases, hq]⟩
  | schedule hu | wake hu =>
    refine .inl ⟨by simp, ?_⟩
    rcases schedule_cases s _ _ with ⟨-, hr⟩ | ⟨-, -, hr⟩ <;> rw [hr] <;> rfl
  | scheduleOn =>
    refine .inl ⟨by simp, ?_⟩
    rcases schedule_cases s _ _ with ⟨-, hr⟩ | ⟨-, -, hr⟩ <;> rw [hr] <;> rfl
  | @pop f u k y rest hf hqueue =>
    refine .inl ⟨rfl, ?_⟩
    rcases hf with rfl | ⟨rfl, -⟩ <;> rcases k with _ | (_ | _ | _ | _) <;> rfl
  | @popEmpty f u hf hqueue =>
    refine .inl ⟨rfl, ?_⟩
    rcases hf with rfl | ⟨rfl, -⟩ <;> rfl
  | @pickReady u k y rest hpolicy hready | @pickReadyEmpty u k hpolicy hready =>
    rcases k with _ | (_ | _ | _ | _) <;> exact .inl ⟨rfl, rfl⟩
  | @save prev k stack hfctx | @attachResume u y k hu hmtx => cases k <;> exact .inl ⟨rfl, rfl⟩
  | @suspendAndWait q' y | @suspend u q' y hu | @notifyOne q' y rest hwaits
  | @notifyOneEmpty q' hwaits | @notifyAll q' y rest hwaits | @notifyAllEmpty q' hwaits =>
    cases q' <;> exact .inl ⟨rfl, rfl⟩
  | @relock q' l p y hl => cases p <;> exact .inl ⟨rfl, rfl⟩
  | @dispatchShutdown u hshut =>
    refine .inl ⟨?_, rfl⟩
    simp only [notify]
    split <;> rfl
  | _ => exact .inl ⟨rfl, rfl⟩

/-- Every step keeps the law of the condition variables' mutexes. -/
theorem Locked.step {s' : State T} {e : Event T} (h : Locked s) (hs : Shape s)
    (hstep : step s e = some s') : Locked s' := by
  cases step_inv hstep with
  | @call t x op r hactive hstack _ hop =>
    intro q v
    obtain ⟨hm, hcount⟩ := hop.releases q
    have hold := h q v
    by_cases hvt : v = t
    · subst hvt
      simpa [State.releases, hm, hcount, hstack] using hold
    · simpa [State.releases, State.setStack_thread_of_ne _ hvt, hop.thread, hm] using hold
  | @frame t x f now rest r hactive hstack hframe =>
    intro q v
    have hold := h q v
    by_cases hvt : v = t
    · subst hvt
      simp only [State.releases, State.setStack_thread_self, List.countP_append, State.setStack_m]
      simp only [State.releases, hstack, List.countP_cons] at hold
      rcases hframe.releases q with ⟨hm, hcount⟩ | ⟨hfree, hm, hf, hcount⟩ | ⟨hf, hm, hempty⟩
      · simpa only [hcount, hm, List.countP_singleton, Nat.add_comm] using hold
      · simp only [hf, hfree] at hold
        simp only [hcount, hm]
        simpa using hold
      · simp only [hf, if_true] at hold
        refine .inr ⟨by simp [hm], ?_⟩
        simp only [hempty, List.countP_nil]
        omega
    · simp only [State.releases, State.setStack_thread_of_ne _ hvt, hframe.thread_of_ne hvt,
        State.setStack_m] at hold ⊢
      rcases hframe.releases q with ⟨hm, -⟩ | ⟨hfree, hm, -, -⟩ | ⟨hf, hm, -⟩
      · rwa [hm]
      · simpa [hfree, hm, Ne.symm hvt] using hold
      · have howner : s.m q = some t := h.owner (hstack ▸ List.mem_cons_self) hf
        simpa [howner, hm, Ne.symm hvt] using hold
  | @switch t x y f k now rest stack hactive hstack htarget hc =>
    intro q v
    have hold := h q v
    by_cases hvt : v = t
    · subst hvt
      obtain ⟨hinner, -⟩ := Frame.of_target htarget (hs.frames v x hactive f (by simp [hstack]))
      have hrest := countP_releases_of_settled
        (settled_of_pairwise (hstack ▸ hs.below v) hinner) q
      have hresumed := countP_releases_of_settled (fun g hg => (hs.suspended y stack hc g hg).1) q
      rw [State.releases, hstack, List.countP_cons, hrest] at hold
      simpa [State.releases, switched, List.countP_cons, hresumed, Frame.releases_save htarget] using hold
    · simpa [State.releases, switched, hvt] using hold

/-- In every state that any run reaches, each `m_` is held by the one thread that will release it. -/
theorem Runs.locked {policy : T → Policy} {guard : State T → Event T → Prop}
    {events : List (Event T)} {s : State T} (h : Runs policy guard events s) : Locked s :=
  (Run.invariant (I := fun s => Shape s ∧ Locked s) h
    ⟨Shape.initial policy, Locked.initial policy⟩
    fun _ _ _ hs _ hstep => ⟨hs.1.step hstep, hs.2.step hs.1 hstep⟩).2

end Lutask
