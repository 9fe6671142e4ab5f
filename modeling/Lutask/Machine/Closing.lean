import Lutask.Machine.Continuation
import Lutask.Machine.Places

/-!
# The end of a thread

A main context that called `~Scheduler` is parked: whatever the scheduler does, its stack holds the
end of the destructor and nothing else until the dispatcher has left its loop, and the
dispatcher leaves its loop only after `shutdown_` was set.
-/

namespace Lutask

open LabelledRuns

variable {T : Type*}

/-- A frame of the dispatcher that follows a test of `shutdown_`. -/
def Frame.isClosing (u : T) : Frame T → Prop
  | .exitTest v | .returnToMain v => v = u
  | _ => False

/-- The frames at which a main context left, or returned to, `~Scheduler`. -/
def Frame.inDestructor (f : Frame T) : Prop :=
  f.carried = some .resume ∨ f.carried = some .suspendWithCC

/-- `x` was left with this stack, which is stored in its `c_` or about to be. -/
def State.Left (s : State T) (x : Ctx T) (stack : List (Frame T)) : Prop :=
  (s.ctx x).c = some stack ∨
    ∃ t k rest, (s.thread t).stack = .save x k :: rest ∧ (s.thread t).fctx = some stack

/-- A main context has the end of `~Scheduler` to execute from the moment when `shutdown_` is set. -/
structure Closing (s : State T) : Prop where
  shutdown : ∀ t f u, f ∈ (s.thread t).stack → f.isClosing u → (s.sched u).shutdown
  left : ∀ u stack, s.Left (.main u) stack → (s.sched u).shutdown → stack = [.destroy u]
  leftOpen : ∀ u stack, s.Left (.main u) stack → (s.sched u).shutdown = false →
    Frame.destroy u ∉ stack
  running : ∀ t u, (s.thread t).active = some (.main u) → (s.sched u).shutdown →
    (s.thread t).stack = [.destroy u] ∨
      ∃ f, (s.thread t).stack = [f, .destroy u] ∧ f.inDestructor
  runningOpen : ∀ t u, (s.thread t).active = some (.main u) → (s.sched u).shutdown = false →
    Frame.destroy u ∉ (s.thread t).stack

theorem Closing.initial (policy : T → Policy) : Closing (State.initial policy) where
  shutdown t f u hf := by simp [State.initial] at hf
  left u stack h hshut := by simp [State.initial] at hshut
  leftOpen u stack h _ := by
    rcases h with hc | ⟨t, k, rest, hstack, -⟩
    · simp [State.initial, Context.initial] at hc
    · simp [State.initial] at hstack
  running t u _ hshut := by simp [State.initial] at hshut
  runningOpen t u _ _ := by simp [State.initial]

variable [DecidableEq T] {s : State T} {t : T} {x : Ctx T} {now : ℕ}

/-- Only the call of `~Scheduler` leaves its end to execute, and sets `shutdown_`. -/
theorem OpStep.closing {op : Op T} {r : Rest T} (h : OpStep s x op r) :
    (∃ u, x = .main u ∧ r.2 = [.pickNext u (some .resume), .destroy u] ∧ (r.1.sched u).shutdown ∧
      ∀ v, v ≠ u → (r.1.sched v).shutdown = (s.sched v).shutdown) ∨
    (∀ u, .destroy u ∉ r.2) ∧ ∀ u, (r.1.sched u).shutdown = (s.sched u).shutdown := by
  cases h with
  | @destructor u hx =>
    exact .inl ⟨u, hx, rfl, by simp [Lutask.destructor], fun v hv => by simp [Lutask.destructor, hv]⟩
  | start launch => exact .inr ⟨fun u => by cases launch <;> simp [Lutask.start], fun u => rfl⟩
  | @yield v hu | @yieldOrigin v _ hu _ | @yieldOriginNone v hu _ | @waitUntil v _ hu =>
    refine .inr ⟨fun u => by simp [Lutask.yield, Lutask.waitUntil], fun u => ?_⟩
    by_cases huv : u = v <;> simp [Lutask.yield, Lutask.waitUntil, workerQueueRemove, huv]
  | _ => exact .inr ⟨fun u => by simp [Lutask.terminate], fun u => rfl⟩

theorem OpStep.not_closing {op : Op T} {r : Rest T} (h : OpStep s x op r) :
    ∀ f ∈ r.2, ∀ u, ¬ f.isClosing u := by
  cases h with
  | start launch => cases launch <;> simp [Lutask.start, Frame.isClosing]
  | _ => simp [Lutask.yield, Lutask.waitUntil, Lutask.terminate, Lutask.destructor, Frame.isClosing]

/-- No frame leaves the end of `~Scheduler` to execute. -/
theorem FrameStep.not_destroy {f : Frame T} {r : Rest T} (h : FrameStep s t x now f r) (u : T) :
    .destroy u ∉ r.2 := by
  cases h with
  | schedule hu | wake hu | scheduleOn =>
    rcases schedule_cases s _ _ with ⟨-, hr⟩ | ⟨-, -, hr⟩ <;> rw [hr] <;> simp
  | @save prev k stack hfctx => cases k <;> simp [Switch.onTop]
  | @relock q l p y hl => cases p <;> simp [relockNext]
  | @notifyOne q y rest hwaits | @notifyOneEmpty q hwaits | @notifyAllEmpty q hwaits =>
    cases q <;> simp [WaitQueue.afterNotify]
  | _ => simp [Lutask.iterate, Lutask.terminateRemove, Lutask.destroy]

/-- The dispatcher tests `shutdown_` before it may leave its loop. -/
theorem FrameStep.closing {f : Frame T} {r : Rest T} (h : FrameStep s t x now f r) :
    ∀ g ∈ r.2, ∀ u, g.isClosing u → f.isClosing u ∨ (s.sched u).shutdown := by
  cases h with
  | schedule hu | wake hu | scheduleOn =>
    rcases schedule_cases s _ _ with ⟨-, hr⟩ | ⟨-, -, hr⟩ <;> rw [hr] <;> simp [Frame.isClosing]
  | @save prev k stack hfctx => cases k <;> simp [Switch.onTop, Frame.isClosing]
  | @relock q l p y hl => cases p <;> simp [relockNext, Frame.isClosing]
  | @notifyOne q y rest hwaits | @notifyOneEmpty q hwaits | @notifyAllEmpty q hwaits =>
    cases q <;> simp [WaitQueue.afterNotify, Frame.isClosing]
  | dispatchShutdown hshut => simp_all [Frame.isClosing]
  | exit hworkers => simp_all [Frame.isClosing]
  | _ => simp [Lutask.iterate, Lutask.terminateRemove, Lutask.destroy, Frame.isClosing]

/-- A context that is on its way to a switch executes one frame at a time until the switch. -/
theorem FrameStep.carried {f : Frame T} {r : Rest T} (h : FrameStep s t x now f r)
    (hleaves : f.leaves) {k : Switch T} (hk : f.carried = some k) :
    ∃ g, r.2 = [g] ∧ g.leaves ∧ g.carried = some k := by
  cases h with
  | @pop f u k' y rest hcase hqueue =>
    rcases hcase with rfl | ⟨rfl, -⟩ <;> exact ⟨_, rfl, hleaves, hk⟩
  | @popEmpty f u hcase hqueue =>
    rcases hcase with rfl | ⟨rfl, -⟩ <;> simp [Frame.leaves, switchOf, Switch.leaves] at hleaves
  | pickReady hpolicy hready | pickReadyEmpty hpolicy hready | attachResume hu hmtx =>
    exact ⟨_, rfl, hleaves, hk⟩
  | @suspend u q y hu => exact ⟨_, rfl, q.switch_leaves, hk⟩
  | save hfctx => simp [Frame.leaves] at hleaves
  | _ => simp [Frame.carried] at hk

/-- On the way out of `~Scheduler` and back a main context executes one frame at a time. -/
theorem FrameStep.inDestructor {f : Frame T} {r : Rest T} (h : FrameStep s t x now f r)
    (hf : f.inDestructor) : r.2 = [] ∨ f.leaves ∧ ∃ g, r.2 = [g] ∧ g.inDestructor := by
  by_cases hleaves : f.leaves
  · rcases hf with hk | hk <;> obtain ⟨g, hg, -, hcarried⟩ := h.carried hleaves hk
    · exact .inr ⟨hleaves, g, hg, .inl hcarried⟩
    · exact .inr ⟨hleaves, g, hg, .inr hcarried⟩
  · left
    rcases hf with hk | hk <;> cases f <;> simp_all [Frame.carried, Frame.leaves, Switch.leaves] <;>
      · cases h with
        | pop hf | popEmpty hf => simp at hf
        | save hfctx => rfl

/-- Only `save` moves a stack that was left behind, into `c_`. -/
theorem FrameStep.left {f : Frame T} {rest : List (Frame T)} {r : Rest T} (hs : Shape s)
    (hactive : (s.thread t).active = some x) (hstack : (s.thread t).stack = f :: rest)
    (hframe : FrameStep s t x now f r) {y : Ctx T} {stack : List (Frame T)}
    (h : (r.1.setStack t (r.2 ++ rest)).Left y stack) : s.Left y stack := by
  rcases h with hc | ⟨v, k, rest', htop, hfctx⟩
  · rcases hframe.c y with hsame | ⟨k, rfl, -, hnew⟩
    · exact .inl (by simpa [hsame] using hc)
    · refine .inr ⟨t, k, rest, hstack, ?_⟩
      rw [← hnew]
      simpa using hc
  · by_cases hvt : v = t
    · subst hvt
      exact absurd (by simpa using htop) (hframe.noSave hs hactive hstack y k rest')
    · simp only [State.setStack_thread_of_ne _ hvt, hframe.thread_of_ne hvt] at htop hfctx
      exact .inr ⟨v, k, rest', htop, hfctx⟩

/-- An operation leaves no stack behind, except the empty one of a new worker. -/
theorem OpStep.left {op : Op T} {r : Rest T} (hop : OpStep s x op r) {y : Ctx T}
    {stack : List (Frame T)} (h : (r.1.setStack t r.2).Left y stack) :
    s.Left y stack ∨ y.isPinned = false ∧ stack = [] := by
  rcases h with hc | ⟨v, k, rest', htop, hfctx⟩
  · rcases hop.c y with hsame | ⟨-, rfl, hnew⟩
    · exact .inl (.inl (by simpa [hsame] using hc))
    · exact .inr ⟨rfl, Option.some.inj (hc.symm.trans hnew)⟩
  · by_cases hvt : v = t
    · subst hvt
      have hframes : r.2 = .save y k :: rest' := by simpa using htop
      exact absurd (by simp [hframes]) (hop.leaves.noSave y k)
    · simp only [State.setStack_thread_of_ne _ hvt, hop.thread] at htop hfctx
      exact .inl (.inr ⟨v, k, rest', htop, hfctx⟩)

/-- A switch leaves the stack of the caller behind. -/
theorem switched_left {y : Ctx T} {k : Switch T} {rest stack : List (Frame T)} {z : Ctx T}
    {st : List (Frame T)} (h : (switched s t x rest y k stack).Left z st) :
    s.Left z st ∨ z = x ∧ st = rest := by
  rcases h with hz | ⟨v, k', rest', htop, hfctx⟩
  · by_cases hzy : z = y
    · simp [switched, hzy] at hz
    · exact .inl (.inl (by simpa [switched, hzy] using hz))
  · by_cases hvt : v = t
    · subst hvt
      obtain ⟨⟨rfl, -⟩, -⟩ : (x = z ∧ k = k') ∧ stack = rest' := by simpa [switched] using htop
      exact .inr ⟨rfl, by simpa [switched, eq_comm] using hfctx⟩
    · exact .inl (.inr ⟨v, k', rest', by simpa [switched, hvt] using htop,
        by simpa [switched, hvt] using hfctx⟩)

/-- A call keeps the law of `~Scheduler`. -/
theorem Closing.call {op : Op T} {r : Rest T} (h : Closing s) (hc : Continued s)
    (hactive : (s.thread t).active = some x) (hstack : (s.thread t).stack = [])
    (hop : OpStep s x op r) : Closing (r.1.setStack t r.2) := by
  -- nothing is left of the calling context itself
  have hcaller : ∀ stack, ¬ s.Left x stack := by
    intro stack hl
    have hbusy : s.Busy t x := .inl hactive
    rcases hl with hl | ⟨v, k, rest, htop, -⟩
    · simp [(hc.busy t x hbusy).2] at hl
    · obtain rfl := hc.unique t v x hbusy (.inr ⟨k, rest, htop⟩)
      simp [hstack] at htop
  have hshut : ∀ v, (r.1.sched v).shutdown = (s.sched v).shutdown ∨
      x = .main v ∧ r.2 = [.pickNext v (some .resume), .destroy v] ∧ (r.1.sched v).shutdown := by
    intro v
    rcases hop.closing with ⟨u, hx, hframes, hset, hothers⟩ | ⟨-, hsame⟩
    · by_cases hvu : v = u
      · subst hvu
        exact .inr ⟨hx, hframes, hset⟩
      · exact .inl (hothers v hvu)
    · exact .inl (hsame v)
  refine ⟨fun v f u hf hclosing => ?_, fun u stack hl hu => ?_, fun u stack hl hu => ?_,
    fun v u hv hu => ?_, fun v u hv hu => ?_⟩
  all_goals simp only [State.setStack_sched] at *
  · by_cases hvt : v = t
    · subst hvt
      exact absurd hclosing (hop.not_closing f (by simpa using hf) u)
    · simp only [State.setStack_thread_of_ne _ hvt, hop.thread] at hf
      rcases hshut u with hsame | ⟨-, -, hset⟩
      · exact hsame ▸ h.shutdown v f u hf hclosing
      · exact hset
  · have hold := (hop.left hl).resolve_right (by simp [Ctx.isPinned])
    rcases hshut u with hsame | ⟨rfl, -, -⟩
    · exact h.left u stack hold (hsame ▸ hu)
    · exact absurd hold (hcaller stack)
  · have hold := (hop.left hl).resolve_right (by simp [Ctx.isPinned])
    rcases hshut u with hsame | ⟨rfl, -, -⟩
    · exact h.leftOpen u stack hold (hsame ▸ hu)
    · exact absurd hold (hcaller stack)
  · by_cases hvt : v = t
    · subst hvt
      obtain rfl : x = .main u := by simpa [hop.thread, hactive] using hv
      rcases hshut u with hsame | ⟨-, hframes, -⟩
      · have hrunning := h.running v u hactive (hsame ▸ hu)
        simp [hstack] at hrunning
      · exact .inr ⟨.pickNext u (some .resume), by simp [hframes], .inl rfl⟩
    · simp only [State.setStack_thread_of_ne _ hvt, hop.thread] at hv ⊢
      rcases hshut u with hsame | ⟨rfl, -, -⟩
      · exact h.running v u hv (hsame ▸ hu)
      · exact absurd (hc.unique v t _ (.inl hv) (.inl hactive)) hvt
  · by_cases hvt : v = t
    · subst hvt
      obtain rfl : x = .main u := by simpa [hop.thread, hactive] using hv
      rcases hop.closing with ⟨w, hx, -, hset, -⟩ | ⟨hnone, -⟩
      · obtain rfl := Ctx.main.inj hx
        simp [hset] at hu
      · simpa using hnone u
    · simp only [State.setStack_thread_of_ne _ hvt, hop.thread] at hv ⊢
      rcases hshut u with hsame | ⟨rfl, -, -⟩
      · exact h.runningOpen v u hv (hsame ▸ hu)
      · exact absurd (hc.unique v t _ (.inl hv) (.inl hactive)) hvt

/-- A frame keeps the law of `~Scheduler`. -/
theorem Closing.frame {f : Frame T} {rest : List (Frame T)} {r : Rest T} (h : Closing s) (hs : Shape s)
    (hactive : (s.thread t).active = some x) (hstack : (s.thread t).stack = f :: rest)
    (hframe : FrameStep s t x now f r) : Closing (r.1.setStack t (r.2 ++ rest)) := by
  have hbelow := hstack ▸ hs.below t
  refine ⟨fun v g u hg hclosing => ?_, fun u stack hl hu => ?_, fun u stack hl hu => ?_,
    fun v u hv hu => ?_, fun v u hv hu => ?_⟩
  all_goals simp only [State.setStack_sched, hframe.shutdown] at *
  · by_cases hvt : v = t
    · subst hvt
      rcases List.mem_append.mp (by simpa using hg) with hnew | hold
      · rcases hframe.closing g hnew u hclosing with hf | hset
        · exact h.shutdown v f u (by simp [hstack]) hf
        · exact hset
      · exact h.shutdown v g u (by simp [hstack, hold]) hclosing
    · simp only [State.setStack_thread_of_ne _ hvt, hframe.thread_of_ne hvt] at hg
      exact h.shutdown v g u hg hclosing
  · exact h.left u stack (hframe.left hs hactive hstack hl) hu
  · exact h.leftOpen u stack (hframe.left hs hactive hstack hl) hu
  · by_cases hvt : v = t
    · subst hvt
      simp only [State.setStack_thread_self] at hv ⊢
      rcases hframe.active with hsame | ⟨w, -, hnone⟩
      · have hx : (s.thread v).active = some (.main u) := hsame ▸ hv
        rcases h.running v u hx hu with hlast | ⟨g, hlast, hg⟩
        · obtain ⟨rfl, rfl⟩ := List.cons.inj (hstack.symm.trans hlast)
          cases hframe with
          | pop hf | popEmpty hf => simp at hf
          | destroy => simp [Lutask.destroy] at hv
        · obtain ⟨rfl, rfl⟩ := List.cons.inj (hstack.symm.trans hlast)
          rcases hframe.inDestructor hg with hempty | ⟨-, g', hg', hin⟩
          · exact .inl (by simp [hempty])
          · exact .inr ⟨g', by simp [hg'], hin⟩
      · simp [hnone] at hv
    · simp only [State.setStack_thread_of_ne _ hvt, hframe.thread_of_ne hvt] at hv ⊢
      exact h.running v u hv hu
  · by_cases hvt : v = t
    · subst hvt
      simp only [State.setStack_thread_self] at hv ⊢
      rcases hframe.active with hsame | ⟨w, -, hnone⟩
      · have hold := h.runningOpen v u (hsame ▸ hv) hu
        rw [hstack] at hold
        simp only [List.mem_append, hframe.not_destroy u, false_or]
        exact fun hmem => hold (List.mem_cons_of_mem _ hmem)
      · simp [hnone] at hv
    · simp only [State.setStack_thread_of_ne _ hvt, hframe.thread_of_ne hvt] at hv ⊢
      exact h.runningOpen v u hv hu

/-- A switch keeps the law of `~Scheduler` if nobody but `Dispatch` resumes a parked main context. -/
theorem Closing.switch {y : Ctx T} {f : Frame T} {k : Switch T} {rest stack : List (Frame T)}
    (h : Closing s) (hs : Shape s) (hactive : (s.thread t).active = some x)
    (hstack : (s.thread t).stack = f :: rest) (htarget : f.target = some (y, k))
    (hc : (s.ctx y).c = some stack) (hparked : s.parked y → ∃ u, f = .returnToMain u) :
    Closing (switched s t x rest y k stack) := by
  have hresumed := hs.suspended y stack hc
  have hopen : ∀ u, x = .main u → (s.sched u).shutdown = false → Frame.destroy u ∉ rest := by
    rintro u rfl hu
    have hold := h.runningOpen t u hactive hu
    rw [hstack] at hold
    exact fun hmem => hold (List.mem_cons_of_mem _ hmem)
  refine ⟨fun v g u hg hclosing => ?_, fun u st hl hu => ?_, fun u st hl hu => ?_,
    fun v u hv hu => ?_, fun v u hv hu => ?_⟩
  all_goals simp only [switched, State.setThread_sched, State.setCtx_sched, State.setThread_thread] at *
  · by_cases hvt : v = t
    · subst hvt
      rcases List.mem_cons.mp (by simpa using hg) with rfl | hold
      · simp [Frame.isClosing] at hclosing
      · have hsettled := (hresumed g hold).1
        cases g <;> simp [Frame.isClosing] at hclosing <;> simp [Frame.isSettled] at hsettled
    · exact h.shutdown v g u (by simpa [hvt] using hg) hclosing
  · rcases switched_left hl with hold | ⟨hx, rfl⟩
    · exact h.left u st hold hu
    · rcases h.running t u (by rw [hactive, hx]) hu with hlast | ⟨g, hlast, -⟩
      · obtain ⟨rfl, -⟩ := List.cons.inj (hstack.symm.trans hlast)
        simp [Frame.target] at htarget
      · exact (List.cons.inj (hstack.symm.trans hlast)).2
  · rcases switched_left hl with hold | ⟨hx, rfl⟩
    · exact h.leftOpen u st hold hu
    · exact hopen u hx.symm hu
  · by_cases hvt : v = t
    · subst hvt
      obtain rfl : y = .main u := by simpa using hv
      obtain ⟨w, rfl⟩ := hparked hu
      obtain ⟨hw, rfl⟩ : Ctx.main w = .main u ∧ Switch.suspendWithCC = k := by
        simpa [Frame.target] using htarget
      rw [h.left u stack (.inl hc) hu]
      exact .inr ⟨.save x .suspendWithCC, by simp, .inr rfl⟩
    · simp only [Function.update_of_ne hvt] at hv ⊢
      exact h.running v u hv hu
  · by_cases hvt : v = t
    · subst hvt
      obtain rfl : y = .main u := by simpa using hv
      simpa using h.leftOpen u stack (.inl hc) hu
    · simp only [Function.update_of_ne hvt] at hv ⊢
      exact h.runningOpen v u hv hu

omit [DecidableEq T] in
/-- A suspended stack is left for good only by the end of `~Scheduler`. -/
theorem Frame.destroy_of_settled {f : Frame T} (h : f.isSettled) (hleaves : f.leaves) :
    ∃ u, f = .destroy u := by
  cases f <;> simp [Frame.isSettled] at h <;> simp [Frame.leaves] at hleaves
  exact ⟨_, rfl⟩

omit [DecidableEq T] in
/-- Only a main context that called `~Scheduler` leaves by a suspended frame. -/
theorem Frame.destroy_of_leaves {stack : List (Frame T)} {y : Ctx T}
    (hsettled : ∀ f ∈ stack, f.isSettled ∧ f.Of y) (hleaves : stack.any Frame.leaves) :
    ∃ u, y = .main u ∧ Frame.destroy u ∈ stack := by
  obtain ⟨f, hf, hfl⟩ := List.any_eq_true.mp hleaves
  obtain ⟨u, rfl⟩ := Frame.destroy_of_settled (hsettled f hf).1 hfl
  exact ⟨u, (hsettled _ hf).2, hf⟩

omit [DecidableEq T] in
/-- What leaves below a function that is not an inner one is the end of the destructor. -/
theorem Shape.destroy_of_leaves (hs : Shape s) (hactive : (s.thread t).active = some x) {f : Frame T}
    {rest : List (Frame T)} (hstack : (s.thread t).stack = f :: rest) (hinner : f.isInner = false)
    (hleaves : rest.any Frame.leaves) : ∃ u, x = .main u ∧ .destroy u ∈ rest := by
  have hrest : ∀ g ∈ rest, g.isSettled ∧ g.Of x := fun g hg =>
    ⟨settled_of_pairwise (hstack ▸ hs.below t) hinner g hg,
      hs.frames t x hactive g (by simp [hstack, hg])⟩
  exact Frame.destroy_of_leaves hrest hleaves

omit [DecidableEq T] in
/-- Nothing below a frame that stays in the library leaves. -/
theorem Closing.rest_stays (h : Closing s) (hs : Shape s) (hactive : (s.thread t).active = some x)
    {f : Frame T} {rest : List (Frame T)} (hstack : (s.thread t).stack = f :: rest)
    (hinner : f.isInner = false) (hf : ¬ f.inDestructor) : rest.any Frame.leaves = false := by
  by_contra hleaves
  obtain ⟨u, rfl, hmem⟩ := hs.destroy_of_leaves hactive hstack hinner (Bool.of_not_eq_false hleaves)
  cases hshut : (s.sched u).shutdown with
  | false => exact h.runningOpen t u hactive hshut (by simp [hstack, hmem])
  | true =>
    rcases h.running t u hactive hshut with hlast | ⟨g, hlast, hg⟩
    · obtain ⟨-, rfl⟩ := List.cons.inj (hstack.symm.trans hlast)
      simp at hmem
    · obtain ⟨rfl, -⟩ := List.cons.inj (hstack.symm.trans hlast)
      exact hf hg

end Lutask
