import Lutask.Machine.Placement

/-!
# Contexts in wait queues

`SuspendAndWait` queues a context before it is switched out. A context that is in a wait queue and
still busy on a thread is on its way to the switch of this queue, or this switch has just been made and
`save` is next. Who is taken out of a wait queue is in the hand of the notifying thread until it was
made ready.
-/

namespace Lutask

open LabelledRuns TokenPlacement

variable {T : Type*}

/-- A context that waits and is busy is on its way to the switch of its wait queue. The main context of
a deleted scheduler is parked for good. -/
structure Waiting (s : State T) : Prop where
  leaving : ∀ q y t, y ∈ s.waits q → s.Busy t y →
    ∃ f rest, (s.thread t).stack = f :: rest ∧ f.carried = some q.switch
  closed : ∀ u, (s.sched u).deleted → (s.sched u).shutdown

theorem Waiting.initial (policy : T → Policy) : Waiting (State.initial policy) where
  leaving q y t hy := by simp [State.initial] at hy
  closed u hu := by simp [State.initial] at hu

/-- A context that is on its way to a switch that does not make it ready leaves. -/
theorem Frame.leaves_of_carried {f : Frame T} {k : Switch T} (h : f.carried = some k) (hk : k.leaves) :
    f.leaves ∨ ∃ prev, f = .save prev k := by
  cases f with
  | pickNext u k' | pickLocal u k' =>
    left
    obtain rfl : switchOf u k' = k := by simpa [Frame.carried] using h
    exact hk
  | attachResume y k' | resume y k' =>
    left
    obtain rfl : k' = k := by simpa [Frame.carried] using h
    exact hk
  | save prev k' =>
    obtain rfl : k' = k := by simpa [Frame.carried] using h
    exact .inr ⟨prev, rfl⟩
  | suspend | returnToMain => exact .inl rfl
  | _ => simp [Frame.carried] at h

variable [DecidableEq T] {s s' : State T} {t : T} {x y : Ctx T} {q : WaitQueue T}

/-- A context in a wait queue is not in the hand of any function. -/
theorem Placed.not_held (h : Placed s) (hy : y ∈ s.waits q) {f : Frame T}
    (hf : f ∈ (s.thread t).stack) : f.held ≠ some y := by
  intro hheld
  have hzero : s.slot y (.wait q) = 0 := h.held_free hf hheld (.wait q)
  exact absurd (State.slot_wait_pos.mpr hy) (by omega)

section Away

/-- `y` is counted in a queue or in the hand of a function, and so it is not counted as active. -/
def State.Away (s : State T) (y : Ctx T) : Prop :=
  ∃ p, 0 < s.places y p ∧ (∀ t, p ≠ .active t) ∧ p ≠ .slot .parked ∧ p ≠ .slot .unborn

theorem State.away_of_waits (hy : y ∈ s.waits q) : s.Away y :=
  ⟨.slot (.wait q), State.slot_wait_pos.mpr hy, by simp, by simp, by simp⟩

theorem State.away_of_held {f : Frame T} (hf : f ∈ (s.thread t).stack) (hy : f.held = some y) :
    s.Away y :=
  ⟨.hand t, List.countP_pos_iff.mpr ⟨f, hf, by simp [hy]⟩, by simp, by simp, by simp⟩

/-- A context that is somewhere else is not parked. -/
theorem Placed.not_parked (h : Placed s) (hy : s.Away y) : s.parked y = false := by
  obtain ⟨p, hp, -, hne, -⟩ := hy
  have hzero : s.places y (.slot .parked) = 0 := (h.exclusive y).eq_zero hp hne.symm
  simpa [State.slot] using hzero

/-- A context that is somewhere else was made before. -/
theorem Placed.started (h : Placed s) (hy : s.Away y) : s.started y := by
  obtain ⟨p, hp, -, -, hne⟩ := hy
  have hzero : s.places y (.slot .unborn) = 0 := (h.exclusive y).eq_zero hp hne.symm
  simpa [State.slot] using hzero

/-- A context that terminated has been started. -/
theorem Placed.started_of_terminated (h : Placed s) (hterm : (s.ctx y).terminated) : s.started y :=
  h.started ⟨.slot .terminated, State.slot_terminated_pos.mpr hterm, by simp, by simp, by simp⟩

/-- A context that is somewhere else leaves the thread where it is active, by a frame at which no
context stays suspended. -/
theorem Orderly.away_leaves (h : Orderly s) (hactive : (s.thread t).active = some y)
    (hy : s.Away y) : ∃ f ∈ (s.thread t).stack, f.leaves ∧ f.isSettled = false := by
  have hopen := h.placed.not_parked hy
  obtain ⟨p, hp, hne, -⟩ := hy
  have hzero : s.places y (.active t) = 0 := (h.placed.exclusive y).eq_zero hp (hne t).symm
  have hleaves : (s.thread t).stack.any Frame.leaves := by
    simpa [State.places, hactive] using hzero
  obtain ⟨f, hf, hfl⟩ := List.any_eq_true.mp hleaves
  refine ⟨f, hf, hfl, ?_⟩
  by_contra hsettled
  obtain ⟨u, rfl⟩ := Frame.destroy_of_settled (by simpa using hsettled) hfl
  obtain rfl : y = .main u := h.shape.frames t y hactive _ hf
  exact h.placed.closing.runningOpen t u hactive hopen hf

/-- A context that is not on its way out is nowhere else. -/
theorem Orderly.not_away (h : Orderly s) {f : Frame T} {rest : List (Frame T)}
    (hactive : (s.thread t).active = some y) (hstack : (s.thread t).stack = f :: rest)
    (hinner : f.isInner = false) (hstays : f.leaves = false) : ¬ s.Away y := by
  intro hy
  obtain ⟨g, hg, hleaves, hunsettled⟩ := h.away_leaves hactive hy
  cases List.mem_cons.mp (hstack ▸ hg) with
  | inl htop => simp [htop, hstays] at hleaves
  | inr hbelow =>
    have hsettled := settled_of_pairwise (hstack ▸ h.shape.below t) hinner g hbelow
    simp [hsettled] at hunsettled

/-- The target of a switch waits nowhere. -/
theorem Orderly.target_not_waiting (h : Orderly s) {f : Frame T} {k : Switch T}
    (hf : f ∈ (s.thread t).stack) (htarget : f.target = some (y, k)) : y ∉ s.waits q := by
  intro hy
  cases f with
  | resume z k' =>
    obtain ⟨rfl, -⟩ : z = y ∧ k' = k := by simpa [Frame.target] using htarget
    exact h.placed.not_held hy hf rfl
  | returnToMain u =>
    obtain ⟨rfl, -⟩ : Ctx.main u = y ∧ Switch.suspendWithCC = k := by
      simpa [Frame.target] using htarget
    have hopen : (s.sched u).shutdown = false := h.placed.not_parked (State.away_of_waits hy)
    simp [h.placed.closing.shutdown t (.returnToMain u) u hf rfl] at hopen
  | _ => simp [Frame.target] at htarget

/-- The target of a switch is in the hand of no other thread. -/
theorem Orderly.target_thread (h : Orderly s) {f g : Frame T} {k : Switch T}
    (hf : f ∈ (s.thread t).stack) (htarget : f.target = some (y, k)) {v : T}
    (hg : g ∈ (s.thread v).stack) (hheld : g.held = some y) : t = v := by
  cases f with
  | resume w k' =>
    obtain ⟨rfl, -⟩ : w = y ∧ k' = k := by simpa [Frame.target] using htarget
    have hhere : 0 < s.places w (.hand v) := List.countP_pos_iff.mpr ⟨g, hg, by simp [hheld]⟩
    have hthere : 0 < s.places w (.hand t) :=
      List.countP_pos_iff.mpr ⟨.resume w k', hf, by simp [Frame.held]⟩
    simpa using (h.placed.exclusive w).eq_of_pos hthere hhere
  | returnToMain u =>
    obtain ⟨rfl, -⟩ : Ctx.main u = y ∧ Switch.suspendWithCC = k := by
      simpa [Frame.target] using htarget
    have hshut := h.placed.closing.shutdown t (.returnToMain u) u hf rfl
    have hfree := h.placed.held_free hg hheld .parked
    simp [State.slot, State.parked, hshut] at hfree
  | _ => simp [Frame.target] at htarget

/-- Only a switch makes a context busy. -/
theorem step_busy {e : Event T} (hs : Shape s) (hstep : step s e = some s') (hbusy : s'.Busy t y) :
    s.Busy t y ∨ ∃ f rest k, (s.thread e.thread).stack = f :: rest ∧ f.target = some (y, k) := by
  cases step_inv hstep with
  | call hactive hstack huser hop => exact .inl ((hop.busy hstack t y).mp hbusy)
  | frame hactive hstack hframe => exact .inl ((hframe.busy hs hactive hstack t y).1 hbusy)
  | @switch v x z f k now rest stack hactive hstack htarget hc =>
    cases (switched_busy hactive hstack htarget t y).mp hbusy with
    | inl hold => exact .inl hold
    | inr hnew =>
      obtain ⟨-, rfl⟩ := hnew
      exact .inr ⟨f, rest, k, hstack, htarget⟩

/-- A context that is somewhere else and on its way to a switch that leaves it there stays on this way
until the switch has been made. -/
theorem leaving_step {e : Event T} (h : Orderly s) (hy : s.Away y) {k : Switch T}
    (hk : k.leaves) {f : Frame T} {rest : List (Frame T)} (htop : (s.thread t).stack = f :: rest)
    (hcarried : f.carried = some k) (hstep : step s e = some s') (hbusy : s'.Busy t y) :
    ∃ g below, (s'.thread t).stack = g :: below ∧ g.carried = some k := by
  by_cases het : e.thread = t
  · obtain ⟨x, now, rfl, hactive, ⟨r, hframe, rfl⟩ | ⟨z, k', stack, htarget, hc, rfl⟩⟩ :=
      step_top hstep het htop
    · cases Frame.leaves_of_carried hcarried hk with
      | inl hleaves =>
        obtain ⟨g, hg, -, hgc⟩ := hframe.carried hleaves hcarried
        exact ⟨g, rest, by simp [hg], hgc⟩
      | inr hsave =>
        -- only the resumed context is still busy after `save`
        obtain ⟨prev, rfl⟩ := hsave
        exfalso
        have hnoSave : ∀ k' rest', ((r.1.setStack t (r.2 ++ rest)).thread t).stack ≠
            .save y k' :: rest' := by
          simpa using hframe.noSave h.shape hactive htop y
        have hsame : (r.1.thread t).active = (s.thread t).active :=
          hframe.active.resolve_right (by simp)
        obtain rfl : x = y := by
          simpa [hsame, hactive] using (State.busy_iff_active hnoSave).mp hbusy
        exact h.not_away hactive htop rfl rfl hy
    · refine ⟨.save x k', stack, by simp [switched], ?_⟩
      cases f with
      | resume w k₀ =>
        obtain ⟨-, rfl⟩ : w = z ∧ k₀ = k' := by simpa [Frame.target] using htarget
        exact hcarried
      | returnToMain u =>
        obtain ⟨-, rfl⟩ : Ctx.main u = z ∧ Switch.suspendWithCC = k' := by
          simpa [Frame.target] using htarget
        exact hcarried
      | _ => simp [Frame.target] at htarget
  · exact ⟨f, rest, (step_thread_of_ne hstep (Ne.symm het)).symm ▸ htop, hcarried⟩

end Away

/-- Every step keeps the law of the wait queues. -/
theorem Waiting.step {e : Event T} (h : Waiting s) (ho : Orderly s) (hstep : step s e = some s') :
    Waiting s' := by
  -- a context that waited before goes on leaving
  have hold : ∀ q y v, y ∈ s.waits q → s'.Busy v y →
      ∃ f rest, (s'.thread v).stack = f :: rest ∧ f.carried = some q.switch := by
    intro q y v hy hbusy
    cases step_busy ho.shape hstep hbusy with
    | inl hbefore =>
      obtain ⟨f, rest, htop, hcarried⟩ := h.leaving q y v hy hbefore
      exact leaving_step ho (State.away_of_waits hy) q.switch_leaves htop hcarried hstep hbusy
    | inr hswitch =>
      obtain ⟨f, rest, k, hstack, htarget⟩ := hswitch
      have hmem : f ∈ (s.thread e.thread).stack := by simp [hstack]
      exact absurd hy (ho.target_not_waiting hmem htarget)
  cases step_inv hstep with
  | @call t x op r hactive hstack huser hop =>
    refine ⟨fun q y v hy => hold q y v (by simpa [hop.waits] using hy), fun u hu => ?_⟩
    have hshut := h.closed u (by simpa [hop.deleted] using hu)
    cases hop.closing with
    | inl hdestructor =>
      obtain ⟨v, -, -, hset, hothers⟩ := hdestructor
      by_cases huv : u = v
      · exact huv ▸ hset
      · exact (hothers u huv).trans hshut
    | inr hsame => exact (hsame.2 u).trans hshut
  | @frame t x f now rest r hactive hstack hframe =>
    refine ⟨fun q y v hy hbusy => ?_, fun u hu => ?_⟩
    · cases hframe.waited (by simpa using hy) with
      | inl hwaited => exact hold q y v hwaited hbusy
      | inr hf =>
        subst hf
        obtain rfl : y = x := ho.shape.frames t x hactive (.suspendAndWait q y) (by simp [hstack])
        have hbefore := (hframe.busy ho.shape hactive hstack v y).1 hbusy
        obtain rfl : v = t := ho.continued.unique v t y hbefore (.inl hactive)
        cases hframe with
        | pop hf | popEmpty hf => simp at hf
        | suspendAndWait => exact ⟨_, rest, by simp; rfl, rfl⟩
    · rw [State.setStack_sched, hframe.shutdown]
      cases hframe.deleted u with
      | inl hsame => exact h.closed u (by simpa [hsame] using hu)
      | inr hdestroy =>
        obtain ⟨rfl, -⟩ := hdestroy
        obtain rfl : x = .main u := ho.shape.frames t x hactive (.destroy u) (by simp [hstack])
        by_contra hopen
        exact ho.placed.closing.runningOpen t u hactive (by simpa using hopen) (by simp [hstack])
  | switch hactive hstack htarget hc => exact ⟨hold, h.closed⟩

/-- The law of the wait queues holds in every run without the two straying operations. -/
theorem Runs.waiting {policy : T → Policy} {guard : State T → Event T → Prop}
    {events : List (Event T)} (h : Runs policy guard events s)
    (hguard : ∀ s e, guard s e → e.keepsPlaces) : Waiting s :=
  (Run.invariant (I := fun s => Orderly s ∧ Waiting s) h
    ⟨Orderly.initial policy, Waiting.initial policy⟩ fun s e _ hs he hstep =>
      ⟨hs.1.step (hguard s e he) hstep, hs.2.step hs.1 hstep⟩).2

section Waking

variable {now : ℕ} {e : Event T} {rest : List (Frame T)}

/-- Only a notification wakes, and it wakes the first context of the wait queue. -/
theorem FrameStep.wakes {f : Frame T} {r : Rest T} (h : FrameStep s t x now f r)
    (hy : .wake y ∈ r.2) : ∃ q queue, s.waits q = y :: queue ∧
      (f = .notifyOne q ∧ r.2 = .wake y :: q.afterNotify ∨
        f = .notifyAll q ∧ r.2 = [.wake y, .notifyAll q]) := by
  cases h with
  | @notifyOne q z queue hwaits =>
    obtain rfl : y = z := by cases q <;> simpa [WaitQueue.afterNotify] using hy
    exact ⟨q, queue, hwaits, .inl ⟨rfl, rfl⟩⟩
  | @notifyAll q z queue hwaits =>
    obtain rfl : y = z := by simpa using hy
    exact ⟨q, queue, hwaits, .inr ⟨rfl, rfl⟩⟩
  | schedule hu | wake hu | scheduleOn =>
    rcases schedule_cases s _ _ with ⟨-, hr⟩ | ⟨-, -, hr⟩ <;> rw [hr] at hy <;> simp at hy
  | @save prev k stack hfctx => cases k <;> simp [Switch.onTop] at hy
  | @relock q l p z hl => cases p <;> simp [relockNext] at hy
  | @notifyOneEmpty q hwaits | @notifyAllEmpty q hwaits =>
    cases q <;> simp [WaitQueue.afterNotify] at hy
  | _ => simp [Lutask.iterate, Lutask.terminateRemove, Lutask.destroy] at hy

/-- No operation starts by waking. -/
theorem OpStep.not_wake {op : Op T} {r : Rest T} (h : OpStep s x op r) : .wake y ∉ r.2 := by
  cases h with
  | start launch => cases launch <;> simp [Lutask.start]
  | yield | waitUntil | terminate | destructor =>
    simp [Lutask.yield, Lutask.waitUntil, Lutask.terminate, Lutask.destructor]
  | _ => simp

/-- A thread that is about to wake a context was so before, or has just taken this context out of a
wait queue. -/
theorem step_wake (hs : Shape s) (hstep : step s e = some s')
    (htop : (s'.thread t).stack = .wake y :: rest) :
    (s.thread t).stack = .wake y :: rest ∧ e.thread ≠ t ∨
      e.thread = t ∧ ∃ q queue below, s.waits q = y :: queue ∧
        ((s.thread t).stack = .notifyOne q :: below ∧ rest = q.afterNotify ++ below ∨
          (s.thread t).stack = .notifyAll q :: below ∧ rest = .notifyAll q :: below) := by
  by_cases het : e.thread = t
  · refine .inr ⟨het, ?_⟩
    cases step_inv hstep with
    | @call v x op r hactive hstack huser hop =>
      obtain rfl : v = t := het
      have hframes : r.2 = .wake y :: rest := by simpa using htop
      exact absurd (by simp [hframes]) (hop.not_wake (y := y))
    | @frame v x f now below r hactive hstack hframe =>
      obtain rfl : v = t := het
      have hframes : r.2 ++ below = .wake y :: rest := by simpa using htop
      have hmem : .wake y ∈ r.2 := by
        cases List.mem_append.mp (hframes ▸ List.mem_cons_self : Frame.wake y ∈ r.2 ++ below) with
        | inl hnew => exact hnew
        | inr hbelow =>
          cases (List.pairwise_cons.mp (hstack ▸ hs.below v)).1 _ hbelow with
          | inl hsettled => simp [Frame.isSettled] at hsettled
          | inr houter => simp [Frame.isOuter] at houter
      obtain ⟨q, queue, hwaits, hcase⟩ := hframe.wakes hmem
      refine ⟨q, queue, below, hwaits, ?_⟩
      rcases hcase with ⟨rfl, hr⟩ | ⟨rfl, hr⟩
      · rw [hr] at hframes
        exact .inl ⟨hstack, by simpa using hframes.symm⟩
      · rw [hr] at hframes
        exact .inr ⟨hstack, by simpa using hframes.symm⟩
    | @switch v x z f k now below stack hactive hstack htarget hc =>
      obtain rfl : v = t := het
      simp [switched] at htop
  · rw [step_thread_of_ne hstep (Ne.symm het)] at htop
    exact .inl ⟨htop, het⟩

/-- A step puts a context into a wait queue only by `SuspendAndWait`. -/
theorem step_waited (hstep : step s e = some s') (hy : y ∈ s'.waits q) :
    y ∈ s.waits q ∨ .suspendAndWait q y ∈ (s.thread e.thread).stack := by
  cases step_inv hstep with
  | call hactive hstack huser hop => exact .inl (by simpa [hop.waits] using hy)
  | frame hactive hstack hframe =>
    cases hframe.waited (by simpa using hy) with
    | inl hold => exact .inl hold
    | inr hf => exact .inr (by simp [Event.thread, hstack, hf])
  | switch hactive hstack htarget hc => exact .inl hy

/-- `NotifyAll` goes on until the wait queue is empty. -/
theorem step_notifyAll (hs : Shape s) (hstep : step s e = some s')
    (h : .notifyAll q ∈ (s.thread t).stack) :
    .notifyAll q ∈ (s'.thread t).stack ∨
      s.waits q = [] ∧ e.thread = t ∧ ∃ below, (s.thread t).stack = .notifyAll q :: below := by
  by_cases het : e.thread = t
  · obtain ⟨f, below, hstack⟩ := List.exists_cons_of_ne_nil (List.ne_nil_of_mem h)
    obtain ⟨x, now, rfl, hactive, ⟨r, hframe, rfl⟩ | ⟨z, k, stack, htarget, hc, rfl⟩⟩ :=
      step_top hstep het hstack
    · cases List.mem_cons.mp (hstack ▸ h) with
      | inr hbelow => exact .inl (by simp [hbelow])
      | inl htop =>
        subst htop
        cases hframe with
        | pop hf | popEmpty hf => simp at hf
        | notifyAll hwaits => exact .inl (by simp)
        | notifyAllEmpty hwaits => exact .inr ⟨hwaits, het, below, hstack⟩
    · exfalso
      obtain ⟨hinner, -⟩ := Frame.of_target htarget (hs.frames t x hactive f (by simp [hstack]))
      cases List.mem_cons.mp (hstack ▸ h) with
      | inl htop => simp [← htop, Frame.target] at htarget
      | inr hbelow =>
        have hsettled := settled_of_pairwise (hstack ▸ hs.below t) hinner _ hbelow
        simp [Frame.isSettled] at hsettled
  · left
    rwa [step_thread_of_ne hstep (Ne.symm het)]

/-- A saved context stays saved unless a thread switches to it. -/
theorem step_saved (hstep : step s e = some s') (hc : (s.ctx y).c ≠ none) :
    (s'.ctx y).c ≠ none ∨ ∃ f below k, (s.thread e.thread).stack = f :: below ∧
      f.target = some (y, k) := by
  cases step_inv hstep with
  | @call v x op r hactive hstack huser hop =>
    left
    cases hop.c y with
    | inl hsame => simpa [hsame] using hc
    | inr hnew => simp [hnew.2.2]
  | @frame v x f now below r hactive hstack hframe =>
    left
    cases hframe.c y with
    | inl hsame => simpa [hsame] using hc
    | inr hsaved =>
      obtain ⟨k, -, hfctx, hnew⟩ := hsaved
      simpa [hnew] using hfctx
  | @switch v x z f k now below stack hactive hstack htarget hc' =>
    by_cases hyz : y = z
    · exact .inr ⟨f, below, k, hstack, hyz ▸ htarget⟩
    · exact .inl (by simpa [switched, hyz] using hc)

/-- A context in the hand of a thread that is about to wake it stays saved. -/
theorem saved_stays (h : Orderly s) (htop : (s.thread t).stack = .wake y :: rest)
    (hc : (s.ctx y).c ≠ none) (hstep : step s e = some s') : (s'.ctx y).c ≠ none := by
  have hmem : .wake y ∈ (s.thread t).stack := by simp [htop]
  refine (step_saved hstep hc).resolve_right fun hswitch => ?_
  obtain ⟨f, below, k, hstack, htarget⟩ := hswitch
  have hne : e.thread ≠ t := by
    intro het
    obtain ⟨rfl, -⟩ := List.cons.inj ((het ▸ hstack).symm.trans htop)
    simp [Frame.target] at htarget
  exact hne (h.target_thread (by simp [hstack]) htarget hmem rfl)

/-- A context that is in a queue or in the hand of a function and runs on no thread has been saved. -/
theorem Waiting.saved (h : Waiting s) (ho : Orderly s) (hy : s.Away y)
    (hidle : ∀ t, ¬ s.Busy t y) : (s.ctx y).c ≠ none := by
  intro hc
  cases ho.continued.empty y (ho.placed.started hy) hc with
  | inl hbusy =>
    obtain ⟨t, hbusy⟩ := hbusy
    exact hidle t hbusy
  | inr hdeleted =>
    obtain ⟨u, rfl, hdeleted⟩ := hdeleted
    have hopen : (s.sched u).shutdown = false := ho.placed.not_parked hy
    simp [h.closed u hdeleted] at hopen

end Waking

end Lutask
