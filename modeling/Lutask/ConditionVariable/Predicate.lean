import Lutask.ConditionVariable.Wake

/-!
# Waiting for a predicate under a lock

All waiters of condition variable `q` call `Wait(lt, pred)` while they hold the one lock `l`. Then
the lock is theirs whenever they test the predicate, and nobody else's until they gave it back.
-/

namespace Lutask

open LabelledRuns

variable {T : Type*}

/-- The lock that `Wait` on `q` was called with, at each of its frames. -/
def Frame.waitLock (q : ℕ) : Frame T → Option ℕ
  | .wait q' l _ | .waitUnlock q' l _ | .relock q' l _ _ | .waitPred q' l _ _ =>
    if q' = q then some l else none
  | _ => none

/-- The context that executes `Wait` on `q` and has not given the lock back. -/
def Frame.holdsLt (q : ℕ) : Frame T → Option (Ctx T)
  | .wait q' _ y | .waitUnlock q' _ y | .waitPred q' _ _ y => if q' = q then some y else none
  | _ => none

/-- Waiters of `q` call `Wait(lt, pred)` with lock `l`, which they hold. -/
def Event.waitsUnder (q l : ℕ) (s : State T) : Event T → Prop
  | .call _ x (.waitPred q' l' _) => q' = q → l' = l ∧ s.lt l = some x
  | .call _ _ (.wait q' _) => q' ≠ q
  | _ => True

instance [DecidableEq T] (q l : ℕ) (s : State T) : DecidablePred (Event.waitsUnder q l s)
  | .call _ x (.waitPred q' l' _) => inferInstanceAs (Decidable (q' = q → l' = l ∧ s.lt l = some x))
  | .call _ _ (.wait q' _) => inferInstanceAs (Decidable (q' ≠ q))
  | .call _ _ (.start _) | .call _ _ .yield | .call _ _ .yieldOrigin | .call _ _ (.waitUntil _)
  | .call _ _ (.join _) | .call _ _ (.notifyOne _) | .call _ _ (.notifyAll _) | .call _ _ .terminate
  | .call _ _ .destructor | .call _ _ (.lock _) | .call _ _ (.unlock _) | .call _ _ (.write _)
  | .exec .. => .isTrue trivial

/-- The frames of all waiters of `q` have the one lock `l`, and those that have not given it back own
it. -/
structure UnderLock (q l : ℕ) (s : State T) : Prop where
  lock : ∀ t, ∀ f ∈ (s.thread t).stack, ∀ l', f.waitLock q = some l' → l' = l
  left : ∀ x stack, s.Left x stack → ∀ f ∈ stack, ∀ l', f.waitLock q = some l' → l' = l
  holds : ∀ t, ∀ f ∈ (s.thread t).stack, ∀ y, f.holdsLt q = some y → s.lt l = some y

theorem UnderLock.initial (policy : T → Policy) (q l : ℕ) : UnderLock q l (State.initial policy) where
  lock t f hf := by simp [State.initial] at hf
  left x stack h f hf := by
    rcases h with hc | ⟨t, k, rest, hstack, -⟩
    · cases x <;> simp [State.initial, Context.initial] at hc
      obtain rfl : f = .dispatch _ := by simpa [← hc] using hf
      simp [Frame.waitLock]
    · simp [State.initial] at hstack
  holds t f hf := by simp [State.initial] at hf

/-- A suspended context has given the lock back. -/
theorem Frame.holdsLt_of_settled {f : Frame T} (h : f.isSettled) (q : ℕ) : f.holdsLt q = none := by
  cases f <;> simp [Frame.isSettled] at h <;> rfl

/-- A frame that holds the lock is executed by the owner. -/
theorem Frame.of_holdsLt {f : Frame T} {q : ℕ} {x y : Ctx T} (h : f.holdsLt q = some y) (hf : f.Of x) :
    y = x := by
  cases f with
  | wait q' l z | waitUnlock q' l z | waitPred q' l p z =>
    obtain ⟨-, rfl⟩ : q' = q ∧ z = y := by simpa [Frame.holdsLt] using h
    exact hf
  | _ => simp [Frame.holdsLt] at h

variable [DecidableEq T] {s s' : State T} {t u : T} {x y : Ctx T} {q l : ℕ} {now : ℕ}

/-- The context that holds the lock at a frame runs on this thread and on no other one. -/
theorem Orderly.thread_of_holdsLt (h : Orderly s) {f : Frame T} (hf : f ∈ (s.thread u).stack)
    (hy : f.holdsLt q = some y) (hactive : (s.thread t).active = some y) : u = t := by
  cases hu : (s.thread u).active with
  | none => simp [Frame.holdsLt_of_settled (h.shape.idle u hu f hf)] at hy
  | some z =>
    obtain rfl := Frame.of_holdsLt hy (h.shape.frames u z hu f hf)
    exact h.continued.unique u t y (.inl hu) (.inl hactive)

section Frames

/-- Only a call of `Wait` starts to wait, with the lock that it names. -/
theorem OpStep.waitLock {op : Op T} {r : Rest T} (h : OpStep s x op r) (q : ℕ) :
    (∀ f ∈ r.2, f.waitLock q = none ∧ f.holdsLt q = none) ∨
      ∃ l', (op = .wait q l' ∨ (∃ p, op = .waitPred q l' p) ∧ r.1 = s) ∧
        ∀ f ∈ r.2, f.waitLock q = some l' ∧ ∀ y, f.holdsLt q = some y → y = x := by
  cases h with
  | @wait q' l₀ =>
    by_cases hq : q' = q
    · exact .inr ⟨l₀, .inl (by rw [hq]), by simp [Frame.waitLock, Frame.holdsLt, hq, eq_comm]⟩
    · exact .inl (by simp [Frame.waitLock, Frame.holdsLt, hq])
  | @waitPred q' l₀ p =>
    by_cases hq : q' = q
    · exact .inr ⟨l₀, .inr ⟨⟨p, by rw [hq]⟩, rfl⟩, by simp [Frame.waitLock, Frame.holdsLt, hq, eq_comm]⟩
    · exact .inl (by simp [Frame.waitLock, Frame.holdsLt, hq])
  | start launch => cases launch <;> exact .inl (by simp [Lutask.start, Frame.waitLock, Frame.holdsLt])
  | _ => exact .inl (by simp [Lutask.yield, Lutask.waitUntil, Lutask.terminate, Lutask.destructor,
      Frame.waitLock, Frame.holdsLt])

/-- `Wait` keeps its lock. -/
theorem FrameStep.waitLock {f : Frame T} {r : Rest T} (h : FrameStep s t x now f r) (q : ℕ) :
    ∀ g ∈ r.2, g.waitLock q = none ∨ g.waitLock q = f.waitLock q := by
  cases h with
  | schedule hu | wake hu | scheduleOn =>
    rcases schedule_cases s _ _ with ⟨-, hr⟩ | ⟨-, -, hr⟩ <;> rw [hr] <;> simp [Frame.waitLock]
  | @save prev k stack hfctx => cases k <;> simp [Switch.onTop, Frame.waitLock]
  | @relock q' l' p y hl => cases p <;> simp [relockNext, Frame.waitLock]
  | @notifyOne q' y rest hwaits | @notifyOneEmpty q' hwaits | @notifyAllEmpty q' hwaits =>
    cases q' <;> simp [WaitQueue.afterNotify, Frame.waitLock]
  | _ => simp [Lutask.iterate, Lutask.terminateRemove, Lutask.destroy, Frame.waitLock]

/-- `Wait` owns the lock from its start, and again from `lt.lock()` on. -/
theorem FrameStep.holdsLt {f : Frame T} {r : Rest T} (h : FrameStep s t x now f r) (q : ℕ) :
    ∀ g ∈ r.2, g.holdsLt q = none ∨ g.holdsLt q = f.holdsLt q ∧ r.1.lt = s.lt ∨
      ∃ l' p y, f = .relock q l' p y ∧ g.holdsLt q = some y ∧ r.1.lt l' = some y := by
  cases h with
  | schedule hu | wake hu | scheduleOn =>
    rcases schedule_cases s _ _ with ⟨-, hr⟩ | ⟨-, -, hr⟩ <;> rw [hr] <;> simp [Frame.holdsLt]
  | @save prev k stack hfctx => cases k <;> simp [Switch.onTop, Frame.holdsLt]
  | @relock q' l' p y hl =>
    by_cases hq : q' = q <;> cases p <;> simp [relockNext, Frame.holdsLt, hq]
  | @notifyOne q' y rest hwaits | @notifyOneEmpty q' hwaits | @notifyAllEmpty q' hwaits =>
    cases q' <;> simp [WaitQueue.afterNotify, Frame.holdsLt]
  | @wait q' l' y hm => exact List.forall_mem_singleton.mpr (.inr (.inl ⟨rfl, rfl⟩))
  | _ => simp [Lutask.iterate, Lutask.terminateRemove, Lutask.destroy, Frame.holdsLt]

end Frames

/-- Every step keeps the lock with the waiters that own it. -/
theorem UnderLock.step {e : Event T} (h : UnderLock q l s) (ho : Orderly s)
    (he : e.waitsUnder q l s) (hstep : step s e = some s') : UnderLock q l s' := by
  cases step_inv hstep with
  | @call t x op r hactive hstack huser hop =>
    -- a running context does not give the lock of a waiter back
    have hkeep : ∀ v, ∀ f ∈ (s.thread v).stack, v ≠ t → ∀ y, f.holdsLt q = some y →
        r.1.lt l = some y := by
      intro v f hf hvt y hy
      have howner := h.holds v f hf y hy
      rcases hop.lt l with hsame | hfree | ⟨-, hx⟩
      · rw [hsame, howner]
      · simp [howner] at hfree
      · obtain rfl : y = x := Option.some.inj (howner.symm.trans hx)
        exact absurd (ho.thread_of_holdsLt hf hy hactive) hvt
    refine ⟨fun v f hf l' hl' => ?_, fun y stack hl f hf l' hl' => ?_, fun v f hf y hy => ?_⟩
    · by_cases hvt : v = t
      · subst hvt
        have hf : f ∈ r.2 := by simpa using hf
        cases hop.waitLock q with
        | inl hnone => simp [(hnone f hf).1] at hl'
        | inr hwait =>
          obtain ⟨l₀, hcase, hframes⟩ := hwait
          obtain rfl : l₀ = l' := Option.some.inj ((hframes f hf).1.symm.trans hl')
          rcases hcase with rfl | ⟨⟨p, rfl⟩, -⟩
          · exact absurd rfl he
          · exact (he rfl).1
      · exact h.lock v f (by simpa [State.setStack_thread_of_ne _ hvt, hop.thread] using hf) l' hl'
    · cases hop.left hl with
      | inl hold => exact h.left y stack hold f hf l' hl'
      | inr hempty => simp [hempty.2] at hf
    · by_cases hvt : v = t
      · subst hvt
        have hf : f ∈ r.2 := by simpa using hf
        cases hop.waitLock q with
        | inl hnone => simp [(hnone f hf).2] at hy
        | inr hwait =>
          obtain ⟨l₀, hcase, hframes⟩ := hwait
          obtain rfl : y = x := (hframes f hf).2 y hy
          rcases hcase with rfl | ⟨⟨p, rfl⟩, hsame⟩
          · exact absurd rfl he
          · rw [State.setStack_lt, hsame]
            exact (he rfl).2
      · exact hkeep v f (by simpa [State.setStack_thread_of_ne _ hvt, hop.thread] using hf) hvt y hy
  | @frame t x f now rest r hactive hstack hframe =>
    have hmem : f ∈ (s.thread t).stack := by simp [hstack]
    -- a waiter gives only its own lock back
    have hkeep : ∀ v, ∀ g ∈ (s.thread v).stack, (v = t → g ∈ rest) → ∀ y, g.holdsLt q = some y →
        r.1.lt l = some y := by
      intro v g hg hbelow y hy
      have howner := h.holds v g hg y hy
      rcases hframe.lt l with hsame | ⟨q', z, rfl, hz⟩ | ⟨q', p, z, rfl, hfree, -⟩
      · rw [hsame, howner]
      · obtain rfl : y = z := Option.some.inj (howner.symm.trans hz)
        obtain rfl : y = x := ho.shape.frames t x hactive (.waitUnlock q' l y) hmem
        obtain rfl := ho.thread_of_holdsLt hg hy hactive
        have hsettled := settled_of_pairwise (hstack ▸ ho.shape.below v) rfl g (hbelow rfl)
        simp [Frame.holdsLt_of_settled hsettled] at hy
      · simp [howner] at hfree
    refine ⟨fun v g hg l' hl' => ?_, fun y stack hl g hg l' hl' => ?_, fun v g hg y hy => ?_⟩
    · by_cases hvt : v = t
      · subst hvt
        cases List.mem_append.mp (by simpa using hg : g ∈ r.2 ++ rest) with
        | inl hnew =>
          cases hframe.waitLock q g hnew with
          | inl hnone => simp [hnone] at hl'
          | inr hsame => exact h.lock v f hmem l' (hsame ▸ hl')
        | inr hbelow => exact h.lock v g (by simp [hstack, hbelow]) l' hl'
      · exact h.lock v g
          (by simpa [State.setStack_thread_of_ne _ hvt, hframe.thread_of_ne hvt] using hg) l' hl'
    · exact h.left y stack (hframe.left ho.shape hactive hstack hl) g hg l' hl'
    · by_cases hvt : v = t
      · subst hvt
        cases List.mem_append.mp (by simpa using hg : g ∈ r.2 ++ rest) with
        | inr hbelow => exact hkeep v g (by simp [hstack, hbelow]) (fun _ => hbelow) y hy
        | inl hnew =>
          rcases hframe.holdsLt q g hnew with hnone | ⟨hsame, hlt⟩ | ⟨l', p, z, rfl, hz, hlt⟩
          · simp [hnone] at hy
          · rw [State.setStack_lt, hlt]
            exact h.holds v f hmem y (hsame ▸ hy)
          · obtain rfl : z = y := Option.some.inj (hz.symm.trans hy)
            obtain rfl : l' = l := h.lock v _ hmem l' (by simp [Frame.waitLock])
            exact hlt
      · have hg' : g ∈ (s.thread v).stack := by
          simpa [State.setStack_thread_of_ne _ hvt, hframe.thread_of_ne hvt] using hg
        exact hkeep v g hg' (fun hvt' => absurd hvt' hvt) y hy
  | @switch t x y f k now rest stack hactive hstack htarget hc =>
    have hresumed := ho.shape.suspended y stack hc
    refine ⟨fun v g hg l' hl' => ?_, fun z st hl g hg l' hl' => ?_, fun v g hg z hz => ?_⟩
    · by_cases hvt : v = t
      · subst hvt
        cases List.mem_cons.mp (by simpa [switched] using hg : g ∈ .save x k :: stack) with
        | inl hsave => simp [hsave, Frame.waitLock] at hl'
        | inr hold => exact h.left y stack (.inl hc) g hold l' hl'
      · exact h.lock v g (by simpa [switched, hvt] using hg) l' hl'
    · rcases switched_left hl with hold | ⟨-, rfl⟩
      · exact h.left z st hold g hg l' hl'
      · exact h.lock t g (by simp [hstack, hg]) l' hl'
    · by_cases hvt : v = t
      · subst hvt
        cases List.mem_cons.mp (by simpa [switched] using hg : g ∈ .save x k :: stack) with
        | inl hsave => simp [hsave, Frame.holdsLt] at hz
        | inr hold => simp [Frame.holdsLt_of_settled (hresumed g hold).1] at hz
      · exact h.holds v g (by simpa [switched, hvt] using hg) z hz

/-- When `Wait(lt, pred)` returns its caller owns the lock, and owned it when it found the predicate
true. -/
theorem waitPred_returns {z : Ctx T} {l' p : ℕ} (h : UnderLock q l s) (ho : Orderly s)
    (hstep : step s (.exec t x (.waitPred q l' p z) now) = some s')
    (hreturn : (s'.thread t).stack = (s.thread t).stack.tail) :
    l' = l ∧ s.lt l = some x ∧ s.preds p ∧ s'.lt l = some x := by
  cases step_inv hstep with
  | @frame t x f now rest r hactive hstack hframe =>
    have hmem : .waitPred q l' p z ∈ (s.thread t).stack := by simp [hstack]
    obtain rfl : z = x := ho.shape.frames t x hactive _ hmem
    have howner := h.holds t _ hmem z (by simp [Frame.holdsLt])
    refine ⟨h.lock t _ hmem l' (by simp [Frame.waitLock]), howner, ?_⟩
    cases hframe with
    | pop hf | popEmpty hf => simp at hf
    | waitPredTrue hp => exact ⟨hp, howner⟩
    | waitPredFalse hp =>
      have hlength := congrArg List.length hreturn
      simp only [hstack, State.setStack_thread_self, List.length_append, List.length_cons,
        List.tail_cons] at hlength
      omega
  | switch hactive hstack htarget hc => simp [Frame.target] at htarget

end Lutask
