import Lutask.Machine.Closing

/-!
# Every context is in at most one place

As long as nobody calls `WaitUntil` or `YieldOrigin`, every step moves at most two contexts, each
from the one place where it is to another one, whatever the policies, the number of threads and
the order of their steps. A dispatcher that leaves its loop is the only context that
disappears from all places.
-/

namespace Lutask

open LabelledRuns TokenPlacement

variable {T : Type*}

/-- The operations that record a context twice are not called. -/
def Event.keepsPlaces : Event T → Prop
  | .call _ _ op => op.strays = false
  | .exec .. => True

instance : DecidablePred (Event.keepsPlaces (T := T))
  | .call _ _ op => inferInstanceAs (Decidable (op.strays = false))
  | .exec .. => .isTrue trivial

variable [DecidableEq T]

/-- The dispatcher finds `workerQueue_` empty after `shutdown_` was set. -/
def Frame.exits (s : State T) : Frame T → Bool
  | .exitTest u => decide ((s.sched u).workerQueue = [])
  | _ => false

/-- A dispatcher leaves its loop in this event. -/
def Event.exits (s : State T) : Event T → Prop
  | .call .. => False
  | .exec _ _ f _ => f.exits s

instance (s : State T) : DecidablePred (Event.exits s)
  | .call .. => .isFalse id
  | .exec _ _ f _ => inferInstanceAs (Decidable (f.exits s = true))

variable {s : State T} {t : T} {x : Ctx T} {now : ℕ}

/-- Suspended stacks have no context in their hand. -/
theorem heldIn_of_settled {stack : List (Frame T)} (h : ∀ f ∈ stack, f.isSettled) (y : Ctx T) :
    heldIn stack y = 0 := by
  refine List.countP_eq_zero.mpr fun f hf => ?_
  have hsettled := h f hf
  cases f <;> simp [Frame.isSettled] at hsettled <;> simp [Frame.held]

/-- An exclusive active context that is not on its way out is recorded nowhere. -/
theorem active_free (h : Exclusive (s.places x)) (hactive : (s.thread t).active = some x)
    (hstack : (s.thread t).stack.any Frame.leaves = false) (a : Slot T) : s.slot x a = 0 := by
  have hone : 0 < s.places x (.active t) := by
    simp only [State.places, hactive, hstack]
    simp
  exact h.eq_zero (q := .slot a) hone (by simp)

/-- An exclusive context in the hand of a function is recorded nowhere. -/
theorem held_free {f : Frame T} {y : Ctx T} (h : Exclusive (s.places y)) (hf : f ∈ (s.thread t).stack)
    (hy : f.held = some y) (a : Slot T) : s.slot y a = 0 := by
  have hone : 0 < s.places y (.hand t) :=
    List.countP_pos_iff.mpr ⟨f, hf, by simp [hy]⟩
  exact h.eq_zero (q := .slot a) hone (by simp)

/-- Only one frame has an exclusive context in its hand. -/
theorem held_once {f g : Frame T} {y : Ctx T} {rest : List (Frame T)} {v : T}
    (h : Exclusive (s.places y)) (hstack : (s.thread t).stack = f :: rest) (hf : f.held = some y)
    (hg : g ∈ (s.thread v).stack) (hgy : g.held = some y) : v = t ∧ g ∉ rest := by
  have hhere : 0 < s.places y (.hand t) :=
    List.countP_pos_iff.mpr ⟨f, by simp [hstack], by simp [hf]⟩
  have hthere : 0 < s.places y (.hand v) := List.countP_pos_iff.mpr ⟨g, hg, by simp [hgy]⟩
  refine ⟨by simpa using h.eq_of_pos hthere hhere, fun hbelow => ?_⟩
  have hbelow' : 0 < heldIn rest y := List.countP_pos_iff.mpr ⟨g, hbelow, by simp [hgy]⟩
  have hone : s.places y (.hand t) = 1 := h.eq_one hhere
  simp only [State.places, hstack, heldIn_cons, hf, if_true] at hone
  omega

/-- No context is in two places, nobody sleeps, and parked main contexts wait for the end of
`~Scheduler`. -/
structure Placed (s : State T) : Prop where
  exclusive : ∀ y, Exclusive (s.places y)
  awake : ∀ u, (s.sched u).sleepQueue = []
  closing : Closing s

/-- An active context that is not on its way out is recorded nowhere. -/
theorem Placed.active_free (h : Placed s) (hactive : (s.thread t).active = some x)
    (hstack : (s.thread t).stack.any Frame.leaves = false) (a : Slot T) : s.slot x a = 0 :=
  Lutask.active_free (h.exclusive x) hactive hstack a

/-- A context in the hand of a function is recorded nowhere. -/
theorem Placed.held_free (h : Placed s) {f : Frame T} {y : Ctx T} (hf : f ∈ (s.thread t).stack)
    (hy : f.held = some y) (a : Slot T) : s.slot y a = 0 :=
  Lutask.held_free (h.exclusive y) hf hy a

/-- Only one frame has a context in its hand. -/
theorem Placed.held_once (h : Placed s) {f g : Frame T} {y : Ctx T} {rest : List (Frame T)} {v : T}
    (hstack : (s.thread t).stack = f :: rest) (hf : f.held = some y) (hg : g ∈ (s.thread v).stack)
    (hgy : g.held = some y) : v = t ∧ g ∉ rest :=
  Lutask.held_once (h.exclusive y) hstack hf hg hgy

/-- What a switch does to each context: `Resume(readyCtx)` takes the active one into the hand, and
the resumed one becomes active. It matters for main contexts only whether they are in `~Scheduler`. -/
theorem switched_steps {y : Ctx T} {f : Frame T} {k : Switch T} {rest stack : List (Frame T)}
    (hs : Shape s) (hcont : Continued s) (hactive : (s.thread t).active = some x)
    (hstack : (s.thread t).stack = f :: rest) (htarget : f.target = some (y, k))
    (hc : (s.ctx y).c = some stack) (z : Ctx T)
    (hopen : ∀ k', f = .resume z k' → z = y → stack.any Frame.leaves = false)
    (hstays : z = x → ¬ f.inDestructor → rest.any Frame.leaves = false)
    (hlast : ∀ u, f = .returnToMain u → z = .main u → stack.any Frame.leaves) :
    Steps (s.places z) ((switched s t x rest y k stack).places z) := by
  obtain ⟨hinner, hk⟩ := Frame.of_target htarget (hs.frames t x hactive f (by simp [hstack]))
  have hrest := settled_of_pairwise (hstack ▸ hs.below t) hinner
  have hresumed := hs.suspended y stack hc
  have hyx : y ≠ x := by
    rintro rfl
    simp [(hcont.busy t y (.inl hactive)).2] at hc
  have hslot : (switched s t x rest y k stack).slot z = s.slot z := by
    refine State.slot_congr (fun _ => rfl) rfl rfl ?_ (fun _ => rfl) rfl
    by_cases hzy : z = y <;> simp [switched, hzy]
  have hthreads : ∀ v, v ≠ t → (switched s t x rest y k stack).thread v = s.thread v := fun v hv => by
    simp [switched, hv]
  have hhand : s.places z (.hand t) = if f.held = some z then 1 else 0 := by
    simp [State.places, hstack, heldIn_of_settled hrest]
  have hhand' : (switched s t x rest y k stack).places z (.hand t) =
      if (Frame.save x k).held = some z then 1 else 0 := by
    simp [State.places, switched, heldIn_of_settled fun g hg => (hresumed g hg).1]
  have hact : s.places z (.active t) =
      if x = z ∧ f.leaves = false ∧ rest.any Frame.leaves = false then 1 else 0 := by
    simp only [State.places, hactive, hstack, List.any_cons, Option.some.injEq]
    by_cases hxz : x = z <;> cases f.leaves <;> cases rest.any Frame.leaves <;> simp [hxz]
  have hact' : (switched s t x rest y k stack).places z (.active t) =
      if y = z ∧ stack.any Frame.leaves = false then 1 else 0 := by
    have hsave : (Frame.save x k).leaves = false := rfl
    simp only [State.places, switched, State.setThread_thread, Function.update_self, List.any_cons,
      hsave, Option.some.injEq]
    by_cases hyz : y = z <;> cases stack.any Frame.leaves <;> simp [hyz]
  -- the other places are those of other threads and the slots
  have hothers : ∀ p, p ≠ .active t → p ≠ .hand t →
      (switched s t x rest y k stack).places z p = s.places z p := by
    intro p hpa hph
    cases p with
    | active v => simp [State.places, hthreads v fun hv => hpa (by rw [hv])]
    | hand v => simp [State.places, hthreads v fun hv => hph (by rw [hv])]
    | slot a => exact congrFun hslot a
  have hstay : (switched s t x rest y k stack).places z (.active t) = s.places z (.active t) →
      (switched s t x rest y k stack).places z (.hand t) = s.places z (.hand t) →
      Steps (s.places z) ((switched s t x rest y k stack).places z) := by
    intro ha hh
    refine .inl (funext fun p => ?_)
    by_cases hpa : p = .active t
    · rw [hpa, ha]
    · by_cases hph : p = .hand t
      · rw [hph, hh]
      · exact hothers p hpa hph
  cases f with
  | returnToMain u =>
    obtain ⟨rfl, rfl⟩ : Ctx.main u = y ∧ Switch.suspendWithCC = k := by
      simpa [Frame.target] using htarget
    refine hstay ?_ ?_
    · rw [hact, hact']
      by_cases hz : z = .main u
      · simp [hlast u rfl hz, Frame.leaves, -List.any_eq_true]
      · simp [Frame.leaves, Ne.symm hz]
    · rw [hhand, hhand']
      simp [Frame.held]
  | resume w k' =>
    obtain ⟨rfl, rfl⟩ : w = y ∧ k' = k := by simpa [Frame.target] using htarget
    by_cases hzy : z = w
    · subst hzy
      have hopen := hopen k' rfl rfl
      have hsave : (Frame.save x k').held ≠ some z := by
        cases k' with
        | resumeReady w =>
          obtain rfl : w = x := hk
          simpa [Frame.held] using hyx.symm
        | _ => simp [Frame.held]
      refine .inr ⟨.hand t, .active t, ?_, ?_, fun p hph hpa => hothers p hpa hph⟩
      · rw [hhand, hhand', if_neg hsave]
        simp [Frame.held]
      · rw [hact, hact']
        simp [hyx.symm, hopen]
    · by_cases hzx : z = x
      · subst hzx
        cases k' with
        | resumeReady w' =>
          obtain rfl : w' = z := hk
          have hstays := hstays rfl (by simp [Frame.inDestructor, Frame.carried])
          refine .inr ⟨.active t, .hand t, ?_, ?_, fun p hpa hph => hothers p hpa hph⟩
          · rw [hact, hact']
            simp [hstays, Frame.leaves, Switch.leaves, hyx]
          · rw [hhand, hhand']
            simp [Frame.held, hyx]
        | _ =>
          refine hstay ?_ ?_
          · rw [hact, hact']
            simp [Frame.leaves, Switch.leaves, hyx]
          · rw [hhand, hhand']
            simp [Frame.held, hyx]
      · refine hstay ?_ ?_
        · rw [hact, hact']
          simp [Ne.symm hzx, Ne.symm hzy]
        · rw [hhand, hhand']
          have hsave : (Frame.save x k').held ≠ some z := by
            cases k' with
            | resumeReady w' =>
              obtain rfl : w' = x := hk
              simpa [Frame.held] using Ne.symm hzx
            | _ => simp [Frame.held]
          rw [if_neg hsave]
          simp [Frame.held, Ne.symm hzy]
  | _ => simp [Frame.target] at htarget

/-- Every switch moves at most two contexts. -/
theorem Placed.switch_steps {y : Ctx T} {f : Frame T} {k : Switch T} {rest stack : List (Frame T)}
    (h : Placed s) (hs : Shape s) (hcont : Continued s) (hactive : (s.thread t).active = some x)
    (hstack : (s.thread t).stack = f :: rest) (htarget : f.target = some (y, k))
    (hc : (s.ctx y).c = some stack) (z : Ctx T) :
    Steps (s.places z) ((switched s t x rest y k stack).places z) := by
  obtain ⟨hinner, -⟩ := Frame.of_target htarget (hs.frames t x hactive f (by simp [hstack]))
  refine switched_steps hs hcont hactive hstack htarget hc z (fun k' hf hzy => ?_) (fun _ hin => ?_)
    fun u hf hz => ?_
  · subst hf hzy
    by_contra hleaves
    obtain ⟨u, rfl, hmem⟩ :=
      Frame.destroy_of_leaves (hs.suspended z stack hc) (Bool.of_not_eq_false hleaves)
    have hparked := h.held_free (t := t) (f := .resume (.main u) k') (by simp [hstack]) rfl .parked
    have hshut : (s.sched u).shutdown = false := by
      simpa [State.slot, State.parked] using hparked
    exact h.closing.leftOpen u stack (.inl hc) hshut hmem
  · exact h.closing.rest_stays hs hactive hstack hinner hin
  · subst hf
    obtain ⟨rfl, -⟩ : Ctx.main u = y ∧ Switch.suspendWithCC = k := by simpa [Frame.target] using htarget
    have hshut := h.closing.shutdown t (.returnToMain u) u (by simp [hstack]) rfl
    rw [h.closing.left u stack (.inl hc) hshut]
    rfl

/-- Nobody falls asleep without a call of `WaitUntil`. -/
theorem OpStep.sleepQueue {op : Op T} {r : Rest T} (h : OpStep s x op r) (hop : op.strays = false)
    (u : T) : (r.1.sched u).sleepQueue = (s.sched u).sleepQueue := by
  cases h with
  | yieldOrigin | yieldOriginNone | waitUntil => simp [Op.strays] at hop
  | @yield v hu | @destructor v hx =>
    by_cases huv : u = v <;> simp [Lutask.yield, Lutask.destructor, workerQueueRemove, huv]
  | _ => rfl

theorem FrameStep.sleepQueue {f : Frame T} {r : Rest T} (h : FrameStep s t x now f r)
    (hsleep : ∀ u, (s.sched u).sleepQueue = []) (u : T) : (r.1.sched u).sleepQueue = [] := by
  rw [← hsleep u]
  cases h with
  | procSleepDue hqueue hdue => simp [hsleep] at hqueue
  | _ =>
    simp [workerQueuePush, detachWorkerContext, workerQueueRemove, Lutask.terminateRemove,
      Lutask.destroy, Lutask.iterate, procTerminated, Function.update_apply] <;> split_ifs <;> simp_all

/-- Every operation moves at most one context, unless it is the `YieldOrigin` of a context that has an
origin. -/
theorem OpStep.steps {op : Op T} {r : Rest T} {y : Ctx T} (hop : OpStep s x op r)
    (h : Exclusive (s.places y)) (hactive : (s.thread t).active = some x)
    (hstack : (s.thread t).stack = [])
    (horigin : op = .yieldOrigin → (s.ctx x).originScheduler = none) :
    Steps (s.places y) ((r.1.setStack t r.2).places y) := by
  have hidle : (s.thread t).stack.any Frame.leaves = false := by simp [hstack]
  have hhandling : Handling False x y [] r.2 (s.slot y) ((r.1.setStack t r.2).slot y) := by
    refine hop.handling horigin y (fun hy => ?_) (fun hy => ?_) fun hy => ?_
    · have hunborn : 0 < s.places y (.slot .unborn) := by simp [hy, State.slot, State.started]
      simpa [State.slot] using h.eq_zero (q := .slot .terminated) hunborn (by simp)
    · subst hy
      simpa [State.slot] using active_free h hactive hidle .terminated
    · subst hy
      simpa [State.slot] using active_free h hactive hidle .parked
  have hsteps := Handling.steps [] hhandling hactive (by simp [hstack]) (by simp [hop.thread, hactive])
    (by simp) (fun v hv => by simp [State.setStack_thread_of_ne _ hv, hop.thread]) fun _ _ _ => rfl
  exact hsteps.resolve_right fun hexit => hexit.1

omit [DecidableEq T] in
/-- A function that is called from the middle of another one never leaves. -/
theorem Frame.leaves_of_inner {f : Frame T} (h : f.isInner) : f.leaves = false := by
  cases f <;> simp [Frame.isInner] at h <;> rfl

/-- Every frame executed in place moves at most one context, unless this is at the front of a sleep
queue. -/
theorem FrameStep.steps {f : Frame T} {rest : List (Frame T)} {r : Rest T}
    (hframe : FrameStep s t x now f r) (hs : Shape s) (hactive : (s.thread t).active = some x)
    (hstack : (s.thread t).stack = f :: rest) (y : Ctx T)
    (hsleep : ∀ u n, f = .procSleep u n → (s.sched u).sleepQueue.head? ≠ some y)
    (hrest : y = x → f.isInner = false → ¬ f.inDestructor → rest.any Frame.leaves = false) :
    Steps (s.places y) ((r.1.setStack t (r.2 ++ rest)).places y) ∨
      (∃ u, f = .exitTest u ∧ (s.sched u).workerQueue = []) ∧
        Drops (.active t) (s.places y) ((r.1.setStack t (r.2 ++ rest)).places y) := by
  have hof := hs.frames t x hactive f (by simp [hstack])
  have hothers : ∀ v, v ≠ t → (r.1.setStack t (r.2 ++ rest)).thread v = s.thread v := fun v hv => by
    rw [State.setStack_thread_of_ne _ hv, hframe.thread_of_ne hv]
  by_cases hdestroy : ∃ u, f = .destroy u
  · -- the main context was not counted as active any more
    obtain ⟨u, rfl⟩ := hdestroy
    obtain rfl : r = Lutask.destroy s t u := by
      cases hframe with
      | pop hf | popEmpty hf => simp at hf
      | destroy => rfl
    refine .inl (.inl (funext fun p => ?_))
    cases p with
    | active v =>
      by_cases hvt : v = t
      · subst hvt
        simp [State.places, hstack, Frame.leaves, Lutask.destroy]
      · simp only [State.places, hothers v hvt]
    | hand v =>
      by_cases hvt : v = t
      · subst hvt
        simp [State.places, hstack, Frame.held, Lutask.destroy]
      · simp only [State.places, hothers v hvt]
    | slot a => exact congrFun (slot_setSched_same s u y (by rfl) (by rfl)) a
  · refine Handling.steps rest (hframe.handling hof (fun u hu => hdestroy ⟨u, hu⟩) y hsleep) hactive
      (by simp [hstack]) ?_ (by simp) hothers fun hy hold hnew => ?_
    · rcases hframe.active with hsame | ⟨u, hf, -⟩
      · simp [hsame, hactive]
      · exact absurd ⟨u, hf⟩ hdestroy
    · by_cases hinner : f.isInner
      · obtain ⟨g, hg, hleaves⟩ := List.any_eq_true.mp hnew
        have hginner := (hframe.leaves hof).fits hinner g hg
        simp [Frame.leaves_of_inner hginner] at hleaves
      · refine hrest hy (by simpa using hinner) fun hin => ?_
        rcases hframe.inDestructor hin with hempty | ⟨hleaves, -⟩
        · simp [hempty] at hnew
        · simp [hleaves] at hold

/-- No context is anywhere twice after the initialization. -/
theorem Placed.initial (policy : T → Policy) : Placed (State.initial policy) where
  exclusive y := by
    cases y with
    | main t =>
      refine ⟨.active t, by simp [State.places, State.initial], fun q hq => ?_⟩
      cases q with
      | active v =>
        have hv : t ≠ v := fun h => hq (by rw [h])
        simp [State.places, State.initial, Ne.symm hv]
      | hand v => rfl
      | slot a => cases a <;> simp [State.slot, State.initial, State.parked, State.started, Context.initial]
    | dispatcher t =>
      refine ⟨.slot (.queue t), by simp [State.slot, State.initial], fun q hq => ?_⟩
      cases q with
      | active v => simp [State.places, State.initial]
      | hand v => rfl
      | slot a =>
        cases a with
        | queue v =>
          have hv : t ≠ v := fun h => hq (by rw [h])
          simp [State.slot, State.initial, Ne.symm hv]
        | _ => simp [State.slot, State.initial, State.parked, State.started, Context.initial]
    | worker n =>
      refine ⟨.slot .unborn, by simp [State.slot, State.initial, State.started], fun q hq => ?_⟩
      cases q with
      | active v => simp [State.places, State.initial]
      | hand v => rfl
      | slot a => cases a <;> simp_all [State.slot, State.initial, State.parked, Context.initial]
  awake u := rfl
  closing := Closing.initial policy

/-- Every step without the two straying operations keeps the contexts in their places, and drops
none of them unless a dispatcher leaves its loop. -/
theorem Placed.step {s' : State T} {e : Event T} (h : Placed s) (hs : Shape s) (hc : Continued s)
    (he : e.keepsPlaces) (hstep : step s e = some s') :
    Placed s' ∧ (¬ e.exits s → ∀ y, Steps (s.places y) (s'.places y)) := by
  cases step_inv hstep with
  | call hactive hstack huser hop =>
    have hsteps : ∀ y, Steps (s.places y) _ := fun y =>
      hop.steps (h.exclusive y) hactive hstack fun hyield => by
        subst hyield
        simp [Event.keepsPlaces, Op.strays] at he
    exact ⟨⟨fun y => (h.exclusive y).steps (hsteps y), fun u => (hop.sleepQueue he u).trans (h.awake u),
      h.closing.call hc hactive hstack hop⟩, fun _ => hsteps⟩
  | frame hactive hstack hframe =>
    have hsteps := fun y => hframe.steps hs hactive hstack y (by simp [h.awake])
      fun _ => h.closing.rest_stays hs hactive hstack
    refine ⟨⟨fun y => ?_, fun u => hframe.sleepQueue h.awake u,
      h.closing.frame hs hactive hstack hframe⟩, fun hexit y => (hsteps y).resolve_right ?_⟩
    · rcases hsteps y with hmove | ⟨-, hdrop⟩
      · exact (h.exclusive y).steps hmove
      · exact (h.exclusive y).drops hdrop
    · rintro ⟨⟨u, rfl, hworkers⟩, -⟩
      exact hexit (decide_eq_true hworkers)
  | @switch t x y f k now rest stack hactive hstack htarget hsaved =>
    have hsteps := h.switch_steps hs hc hactive hstack htarget hsaved
    refine ⟨⟨fun z => (h.exclusive z).steps (hsteps z), h.awake,
      h.closing.switch hs hactive hstack htarget hsaved fun hparked => ?_⟩, fun _ => hsteps⟩
    cases f with
    | returnToMain u => exact ⟨u, rfl⟩
    | resume z k' =>
      obtain ⟨rfl, -⟩ : z = y ∧ k' = k := by simpa [Frame.target] using htarget
      have hfree := h.held_free (t := t) (f := .resume z k') (by simp [hstack]) rfl .parked
      simp [State.slot, hparked] at hfree
    | _ => simp [Frame.target] at htarget

/-- The invariants of the machine as long as nobody sleeps or yields to its origin. -/
structure Orderly (s : State T) : Prop where
  shape : Shape s
  continued : Continued s
  locked : Locked s
  placed : Placed s

theorem Orderly.initial (policy : T → Policy) : Orderly (State.initial policy) :=
  ⟨Shape.initial policy, Continued.initial policy, Locked.initial policy, Placed.initial policy⟩

theorem Orderly.step {s' : State T} {e : Event T} (h : Orderly s) (he : e.keepsPlaces)
    (hstep : step s e = some s') : Orderly s' :=
  ⟨h.shape.step hstep, h.continued.step h.shape hstep, h.locked.step h.shape hstep,
    (h.placed.step h.shape h.continued he hstep).1⟩

/-- The invariants hold in every state that a run without the two straying operations reaches. -/
theorem Runs.orderly {policy : T → Policy} {guard : State T → Event T → Prop}
    {events : List (Event T)} {s : State T} (h : Runs policy guard events s)
    (hguard : ∀ s e, guard s e → e.keepsPlaces) : Orderly s :=
  Run.invariant h (Orderly.initial policy) fun s e _ hs he hstep => hs.step (hguard s e he) hstep

/-- As long as no dispatcher leaves its loop, every context is in exactly one place. -/
theorem Runs.single {policy : T → Policy} {guard : State T → Event T → Prop}
    {events : List (Event T)} {s : State T} (h : Runs policy guard events s)
    (hguard : ∀ s e, guard s e → e.keepsPlaces ∧ ¬ e.exits s) (y : Ctx T) : Single (s.places y) := by
  refine (Run.invariant (I := fun s => Orderly s ∧ Single (s.places y)) h
    ⟨Orderly.initial policy, ?_⟩ fun s e s' hs he hstep => ⟨hs.1.step (hguard s e he).1 hstep, ?_⟩).2
  · have hexclusive := (Placed.initial policy).exclusive y
    cases y with
    | main t => exact hexclusive.single (p := .active t) (by simp [State.places, State.initial])
    | dispatcher t =>
      exact hexclusive.single (p := .slot (.queue t)) (by simp [State.places, State.slot, State.initial])
    | worker n =>
      exact hexclusive.single (p := .slot .unborn)
        (by simp [State.places, State.slot, State.initial, State.started])
  · have hplaced := hs.1.placed.step hs.1.shape hs.1.continued (hguard s e he).1 hstep
    exact hs.2.steps (hplaced.2 (hguard s e he).2 y)

/-- The function on top of a resumed stack. -/
def Frame.isSave : Frame T → Bool
  | .save .. => true
  | _ => false

/-- No thread is in the middle of moving a context from one place to another. This holds whenever
every thread has completed the operation that it called, its context switch included. -/
def State.Steady (s : State T) : Prop :=
  ∀ t, ∀ f ∈ (s.thread t).stack, f.held = none ∧ f.leaves = false ∧ f.isSave = false

section Steady

omit [DecidableEq T] in
/-- Between operations a context is busy where it is active. -/
theorem State.Steady.busy (h : s.Steady) (x : Ctx T) (t : T) :
    s.Busy t x ↔ (s.thread t).active = some x :=
  State.busy_iff_active fun k rest hstack => by
    simpa [Frame.isSave] using (h t (.save x k) (by simp [hstack])).2.2

/-- Between operations no context is in the hand of a function. -/
theorem State.Steady.hand (h : s.Steady) (x : Ctx T) (t : T) : s.places x (.hand t) = 0 := by
  refine List.countP_eq_zero.mpr fun f hf => ?_
  simp [(h t f hf).1]

/-- Between operations the running contexts are the active ones. -/
theorem State.Steady.active (h : s.Steady) (x : Ctx T) (t : T) :
    s.places x (.active t) = if (s.thread t).active = some x then 1 else 0 := by
  have hidle : (s.thread t).stack.any Frame.leaves = false := by
    rw [List.any_eq_false]
    intro f hf
    simp [(h t f hf).2.1]
  simp only [State.places, hidle]
  by_cases hx : (s.thread t).active = some x <;> simp [hx]

end Steady

end Lutask
