import Lutask.RoundRobin.SinglePlace

/-!
# What `~Scheduler` waits for

`Dispatch` leaves its loop when `shutdown_` is set and `workerQueue_` is empty. On one round-robin
thread without sleepers this list holds exactly the attached workers that have not terminated, and
all attached workers have terminated when main returns into `~Scheduler`, if and only if no
worker calls `Yield`: `Scheduler::Yield` removes the context from `workerQueue_`, and
`RoundRobinPolicy` never puts it back.
-/

namespace Lutask

open LabelledRuns

section Frames

variable {T : Type*}

/-- The worker executes `Context::Terminate` and was not removed from `workerQueue_` yet. -/
def Frame.terminates [DecidableEq T] (x : Ctx T) : Frame T → Bool
  | .schedulerTerminate y | .terminateRemove _ y => decide (y = x)
  | _ => false

variable [DecidableEq T] {s : State T} {t : T} {x : Ctx T} {now : ℕ}

/-- A suspended context terminates nothing. -/
theorem Frame.any_terminates_of_settled {stack : List (Frame T)}
    (h : ∀ f ∈ stack, f.isSettled) (y : Ctx T) : stack.any (Frame.terminates y) = false := by
  rw [List.any_eq_false]
  intro f hf
  have hsettled := h f hf
  cases f <;> simp [Frame.isSettled] at hsettled <;> simp [Frame.terminates]

/-- Only `Context::Terminate` starts to terminate a worker. -/
theorem OpStep.terminates {op : Op T} {r : Rest T} (h : OpStep s x op r) (y : Ctx T) :
    r.2.any (Frame.terminates y) = false ∨ op = .terminate ∧ y = x := by
  cases h with
  | start launch => cases launch <;> exact .inl rfl
  | terminate hpin =>
    by_cases hy : y = x
    · exact .inr ⟨rfl, hy⟩
    · exact .inl (by simp [Lutask.terminate, Frame.terminates, Ne.symm hy])
  | _ => exact .inl rfl

omit [DecidableEq T] in
/-- The worker is in the hand of the function that attaches it. -/
theorem Frame.held_of_attaches {f : Frame T} {w : Ctx T} (h : f.attaches = some w) :
    f.held = some w := by
  cases f <;> first | exact h | simp [Frame.attaches] at h

/-- A worker that terminates goes on doing so until it is removed from `workerQueue_`. -/
theorem FrameStep.terminates {f : Frame T} {r : Rest T} (h : FrameStep s t x now f r)
    (y : Ctx T) : r.2.any (Frame.terminates y) = Frame.terminates y f ∨
      (∃ u, f = .terminateRemove u y) ∧ r.2.any (Frame.terminates y) = false := by
  cases h with
  | schedule hu | wake hu | scheduleOn =>
    left
    rcases schedule_cases s _ _ with ⟨-, hr⟩ | ⟨-, -, hr⟩ <;> rw [hr] <;> rfl
  | pop hcase hqueue | popEmpty hcase hqueue => rcases hcase with rfl | ⟨rfl, -⟩ <;> exact .inl rfl
  | @save prev k stack hfctx => cases k <;> exact .inl rfl
  | @relock q l p z hl => cases p <;> exact .inl rfl
  | @notifyOne q z rest hwaits | @notifyOneEmpty q hwaits | @notifyAllEmpty q hwaits =>
    cases q <;> exact .inl rfl
  | @schedulerTerminate u z hu hmtx => exact .inl (by simp [Frame.terminates])
  | @terminateRemove u z =>
    by_cases hz : z = y
    · exact .inr ⟨⟨u, by rw [hz]⟩, rfl⟩
    · exact .inl (by simp [Lutask.terminateRemove, Frame.terminates, hz])
  | _ => exact .inl rfl

end Frames

namespace RoundRobin

/-- The worker was attached to the scheduler. -/
def Attached (s : State Unit) (x : Ctx Unit) : Prop :=
  x.isPinned = false ∧ (s.ctx x).scheduler = some ()

/-- The worker has not terminated. -/
def Unfinished (s : State Unit) (x : Ctx Unit) : Prop :=
  (s.ctx x).terminated = false ∨ (s.thread ()).stack.any (Frame.terminates x)

/-- `workerQueue_` holds each attached worker that has not terminated once and nothing else. -/
structure Registered (s : State Unit) : Prop where
  listed : ∀ x, Attached s x → Unfinished s x → (s.sched ()).workerQueue.count x = 1
  others : ∀ x, ¬ (Attached s x ∧ Unfinished s x) → (s.sched ()).workerQueue.count x = 0

/-- The `Suspend()` inside `~Scheduler` has returned to main. -/
def Returned (s : State Unit) : Prop :=
  (s.thread ()).active = some (.main ()) ∧ (s.thread ()).stack.head? = some (.destroy ()) ∨
    (s.sched ()).deleted

/-- `workerQueue_` is right, and all attached workers have terminated once main has returned. -/
structure Drained (s : State Unit) : Prop where
  registered : Registered s
  finished : Returned s → ∀ x, Attached s x → (s.ctx x).terminated

/-- A worker calls `Yield`. -/
def yieldsWorker : Event Unit → Bool
  | .call _ x .yield => !x.isPinned
  | _ => false

/-- The invariants until `Dispatch` leaves its loop. -/
structure Serving (s : State Unit) : Prop where
  enclosed : Enclosed s
  policy : (s.sched ()).policy = .roundRobin
  stays : ∀ f ∈ (s.thread ()).stack, f.isMigration = false
  unborn : ∀ x, s.started x = false → (s.ctx x).scheduler = none
  attaching : ∀ f ∈ (s.thread ()).stack, ∀ w, f.attaches = some w →
    w.isPinned = false ∧ (s.ctx w).scheduler = none
  ending : ∀ x, (s.thread ()).stack.any (Frame.terminates x) → (s.ctx x).terminated
  registered : Registered s

theorem Serving.initial : Serving (State.initial fun _ => .roundRobin) where
  enclosed := Enclosed.initial _
  policy := rfl
  stays f hf := by simp [State.initial] at hf
  unborn x hx := by
    cases x with
    | worker n => rfl
    | main u | dispatcher u => simp [State.started] at hx
  attaching f hf := by simp [State.initial] at hf
  ending x hx := by simp [State.initial] at hx
  registered := by
    refine ⟨fun x hx => ?_, fun x _ => rfl⟩
    cases x <;> simp [Attached, Ctx.isPinned, State.initial, Context.initial] at hx

variable {s : State Unit} {t : Unit} {x : Ctx Unit} {now : ℕ}

/-- `workerQueue_` is right in a state that differs in nothing it depends on. -/
theorem Registered.congr {s' : State Unit} (h : Registered s)
    (hqueue : (s'.sched ()).workerQueue = (s.sched ()).workerQueue)
    (hsched : ∀ y, (s'.ctx y).scheduler = (s.ctx y).scheduler)
    (hunfinished : ∀ y, Attached s y → (Unfinished s' y ↔ Unfinished s y)) : Registered s' := by
  have hattached : ∀ y, Attached s' y ↔ Attached s y := fun y => by simp [Attached, hsched]
  refine ⟨fun y hy hun => ?_, fun y hy => ?_⟩
  · rw [hqueue]
    exact h.listed y ((hattached y).mp hy) ((hunfinished y ((hattached y).mp hy)).mp hun)
  · rw [hqueue]
    refine h.others y fun hold => hy ⟨(hattached y).mpr hold.1, ?_⟩
    exact (hunfinished y hold.1).mpr hold.2

/-- A call keeps the invariants, unless a worker yields. -/
theorem Serving.call {op : Op Unit} {r : Rest Unit} (h : Serving s) (ho : Orderly s)
    (hactive : (s.thread t).active = some x) (hstack : (s.thread t).stack = [])
    (hop : OpStep s x op r) (hstrays : op.strays = false) (hlocal : op.isAsync = false)
    (hyield : op = .yield → x.isPinned)
    (henclosed : Enclosed (r.1.setStack t r.2)) : Serving (r.1.setStack t r.2) := by
  have hstack' : (s.thread ()).stack = [] := hstack
  have hrunning : (s.ctx x).terminated = false := by
    simpa [State.slot] using ho.placed.active_free hactive (by simp [hstack]) .terminated
  have hsched : ∀ y, (r.1.ctx y).scheduler = (s.ctx y).scheduler := by
    intro y
    cases hop.scheduler hstrays y with
    | inl hsame => exact hsame
    | inr hnew =>
      obtain ⟨rfl, -, hnone⟩ := hnew
      rw [hnone, h.unborn _ (by simp [State.started])]
  have hend : op = .terminate → r.2.any (Frame.terminates x) ∧ (r.1.ctx x).terminated := by
    rintro rfl
    cases hop
    simp [Lutask.terminate, Frame.terminates]
  refine ⟨henclosed, ?_, by simpa using hop.not_migration hlocal, fun y hy => ?_,
    fun f hf w hw => ?_, fun y hy => ?_, ?_⟩
  · simpa using (hop.policy ()).trans h.policy
  · have hold : s.started y = false := by
      by_contra hstarted
      have hnew := hop.started (by simpa using hstarted : s.started y = true)
      simp [hnew] at hy
    simpa [hsched] using h.unborn y hold
  · obtain ⟨rfl, hnone⟩ := hop.attaches f (by simpa using hf) w hw
    exact ⟨rfl, hnone⟩
  · have hframes : r.2.any (Frame.terminates y) = true := by simpa using hy
    cases hop.terminates y with
    | inl hnone => simp [hnone] at hframes
    | inr hcall => exact hcall.2 ▸ (hend hcall.1).2
  · refine h.registered.congr ?_ hsched fun y hy => ?_
    · cases hop.workerQueue () with
      | inl hsame => exact hsame
      | inr hremove =>
        obtain ⟨hcall, -, hqueue⟩ := hremove
        have hpin : x.isPinned := by
          cases hcall with
          | inl hyieldOp => exact hyield hyieldOp
          | inr horigin => simp [horigin, Op.strays] at hstrays
        have hnone : x ∉ (s.sched ()).workerQueue :=
          List.count_eq_zero.mp (h.registered.others x fun hx => by simp [Attached, hpin] at hx)
        rw [State.setStack_sched, hqueue, List.filter_eq_self]
        intro y hy
        have hne : y ≠ x := fun hyx => hnone (hyx ▸ hy)
        simpa using hne
    · have hstarted : s.started y := by
        by_contra hnot
        simp [Attached, h.unborn y (by simpa using hnot)] at hy
      by_cases hcall : op = .terminate ∧ y = x
      · obtain ⟨hterm, rfl⟩ := hcall
        exact iff_of_true (.inr (by simpa using (hend hterm).1)) (.inl hrunning)
      · have hframes := (hop.terminates y).resolve_right hcall
        have hsame := (hop.terminated_cases hstarted).resolve_right fun hnew => hcall hnew.1
        simp [Unfinished, hstack', hframes, hsame]

/-- Attaching a worker lists it. -/
theorem Registered.push {w : Ctx Unit} {s' : State Unit} (h : Registered s)
    (hw : w.isPinned = false) (hnone : (s.ctx w).scheduler = none)
    (hqueue : (s'.sched ()).workerQueue = (s.sched ()).workerQueue ++ [w])
    (hsched : (s'.ctx w).scheduler = some ()) (hfresh : (s'.ctx w).terminated = false)
    (hsame : ∀ y, y ≠ w → (Attached s' y ↔ Attached s y) ∧ (Unfinished s' y ↔ Unfinished s y)) :
    Registered s' := by
  have hzero : (s.sched ()).workerQueue.count w = 0 := h.others w fun hold => by
    simp [Attached, hnone] at hold
  refine ⟨fun y hy hun => ?_, fun y hy => ?_⟩
  · by_cases hyw : y = w
    · subst hyw
      simp [hqueue, hzero]
    · obtain ⟨hatt, hunf⟩ := hsame y hyw
      simpa [hqueue, List.count_singleton, Ne.symm hyw] using h.listed y (hatt.mp hy) (hunf.mp hun)
  · by_cases hyw : y = w
    · subst hyw
      exact absurd ⟨⟨hw, hsched⟩, .inl hfresh⟩ hy
    · obtain ⟨hatt, hunf⟩ := hsame y hyw
      simpa [hqueue, List.count_singleton, Ne.symm hyw] using
        h.others y fun hold => hy ⟨hatt.mpr hold.1, hunf.mpr hold.2⟩

/-- Removing a worker that has terminated unlists it. -/
theorem Registered.remove {w : Ctx Unit} {s' : State Unit} (h : Registered s)
    (hqueue : (s'.sched ()).workerQueue = (s.sched ()).workerQueue.filter (· ≠ w))
    (hdone : ¬ Unfinished s' w)
    (hsame : ∀ y, y ≠ w → (Attached s' y ↔ Attached s y) ∧ (Unfinished s' y ↔ Unfinished s y)) :
    Registered s' := by
  have hcount : ∀ y, y ≠ w → (s'.sched ()).workerQueue.count y = (s.sched ()).workerQueue.count y := by
    intro y hyw
    rw [hqueue]
    exact List.count_filter (by simpa using hyw)
  refine ⟨fun y hy hun => ?_, fun y hy => ?_⟩
  · have hyw : y ≠ w := by
      rintro rfl
      exact hdone hun
    obtain ⟨hatt, hunf⟩ := hsame y hyw
    rw [hcount y hyw]
    exact h.listed y (hatt.mp hy) (hunf.mp hun)
  · by_cases hyw : y = w
    · rw [hqueue, hyw]
      simp [List.count_eq_zero]
    · obtain ⟨hatt, hunf⟩ := hsame y hyw
      rw [hcount y hyw]
      exact h.others y fun hold => hy ⟨hatt.mpr hold.1, hunf.mpr hold.2⟩

/-- A frame keeps the invariants: it attaches a worker that was not attached, or removes one that has
terminated. -/
theorem Serving.frame {f : Frame Unit} {rest : List (Frame Unit)} {r : Rest Unit} (h : Serving s)
    (ho : Orderly s) (hstack : (s.thread t).stack = f :: rest) (hframe : FrameStep s t x now f r)
    (henclosed : Enclosed (r.1.setStack t (r.2 ++ rest))) :
    Serving (r.1.setStack t (r.2 ++ rest)) := by
  have hpolicy : ∀ u, (s.sched u).policy = .roundRobin := fun _ => h.policy
  have hstack' : (s.thread ()).stack = f :: rest := hstack
  have hmem : f ∈ (s.thread ()).stack := by simp [hstack']
  have hbelow : ∀ g ∈ rest, g ∈ (s.thread ()).stack := fun g hg => by simp [hstack', hg]
  have hstays := h.stays f hmem
  obtain ⟨hnew, -⟩ := hframe.not_migration hpolicy hstays
  have hnever := hframe.attaches fun u k _ => hpolicy u
  have hterm := hframe.terminated
  have hstackNew : ((r.1.setStack t (r.2 ++ rest)).thread ()).stack = r.2 ++ rest := by simp
  have hsched : ∀ y, f.attaches ≠ some y → (r.1.ctx y).scheduler = (s.ctx y).scheduler := by
    intro y hy
    rcases hframe.scheduler y with hsame | ⟨rfl | ⟨k, rfl⟩, -⟩ | ⟨rfl, -⟩
    · exact hsame
    · exact absurd rfl hy
    · exact absurd rfl hy
    · simp [Frame.isMigration] at hstays
  have hstarted : ∀ y, f.attaches = some y → s.started y := fun y hy => by
    simpa [State.slot] using ho.placed.held_free (t := ()) hmem (Frame.held_of_attaches hy) .unborn
  -- what is left of `Terminate` changes only when it removes its worker
  have hunfinished : ∀ y, (∀ u, f ≠ .terminateRemove u y) →
      (Unfinished (r.1.setStack t (r.2 ++ rest)) y ↔ Unfinished s y) := by
    intro y hy
    have hframes := (hframe.terminates y).resolve_right fun hend => hend.1.elim hy
    simp only [Unfinished, hstackNew, hstack', List.any_append, List.any_cons, hframes,
      State.setStack_ctx, hterm]
  refine ⟨henclosed, ?_, fun g hg => ?_, fun y hy => ?_, fun g hg w hw => ?_, fun y hy => ?_, ?_⟩
  · simpa using (hframe.policy ()).trans h.policy
  · cases List.mem_append.mp (by simpa using hg : g ∈ r.2 ++ rest) with
    | inl hg => exact hnew g hg
    | inr hg => exact h.stays g (hbelow g hg)
  · have hold : s.started y = false := by simpa [hframe.started] using hy
    have hne : f.attaches ≠ some y := fun hatt => by simp [hstarted y hatt] at hold
    simpa [hsched y hne] using h.unborn y hold
  · cases List.mem_append.mp (by simpa using hg : g ∈ r.2 ++ rest) with
    | inl hg => simp [hnever g hg] at hw
    | inr hg =>
      rcases (List.pairwise_cons.mp (hstack' ▸ ho.shape.below ())).1 g hg with hsettled | ⟨-, houter⟩
      · simp [Frame.attaches_of_settled hsettled] at hw
      · cases g <;> simp [Frame.isOuter] at houter <;> simp [Frame.attaches] at hw
  · have hold : (s.thread ()).stack.any (Frame.terminates y) := by
      rw [hstackNew, List.any_append, Bool.or_eq_true] at hy
      rw [hstack', List.any_cons, Bool.or_eq_true]
      refine hy.imp_left fun hy => ?_
      cases hframe.terminates y with
      | inl hsame => rwa [hsame] at hy
      | inr hend => simp [hend.2] at hy
    simpa [hterm] using h.ending y hold
  · cases hatt : f.attaches with
    | some w =>
      obtain ⟨hpin, hnone⟩ := h.attaching f hmem w hatt
      obtain ⟨u, -, hr⟩ := hframe.attached hatt
      have hfree : (s.ctx w).terminated = false := by
        simpa [State.slot] using
          ho.placed.held_free (t := ()) hmem (Frame.held_of_attaches hatt) .terminated
      refine h.registered.push (w := w) hpin hnone (by simp [hr, workerQueuePush])
        (by simp [hr, workerQueuePush]) (by simpa [hterm] using hfree) fun y hyw => ?_
      have hne : f.attaches ≠ some y := fun h => hyw (Option.some.inj (h.symm.trans hatt))
      refine ⟨by simp [Attached, hsched y hne], hunfinished y fun v hv => ?_⟩
      simp [hv, Frame.attaches] at hatt
    | none =>
      have hsched' : ∀ y, (r.1.ctx y).scheduler = (s.ctx y).scheduler := fun y =>
        hsched y (by simp [hatt])
      by_cases hremove : ∃ u w, f = .terminateRemove u w
      · obtain ⟨u, w, rfl⟩ := hremove
        obtain rfl : r = Lutask.terminateRemove s u w := by
          cases hframe with
          | pop hcase | popEmpty hcase => simp at hcase
          | terminateRemove => rfl
        have hsettled := settled_of_pairwise (hstack' ▸ ho.shape.below ()) rfl
        have hrest := Frame.any_terminates_of_settled hsettled w
        have hdone := h.ending w (by simp [hstack', Frame.terminates])
        refine h.registered.remove (w := w) (by simp [Lutask.terminateRemove]) ?_ fun y hyw => ?_
        · simp [Unfinished, hdone, Lutask.terminateRemove, Frame.terminates, hrest]
        · refine ⟨by simp [Attached, hsched'], hunfinished y fun v hv => ?_⟩
          exact hyw (by simpa [eq_comm] using hv)
      · refine h.registered.congr ?_ hsched' fun y _ => hunfinished y fun u hu => hremove ⟨u, y, hu⟩
        rcases hframe.workerQueue () with hsame | ⟨y, hy, -⟩ | ⟨y, ⟨rfl, -⟩ | rfl, -⟩
        · exact hsame
        · rcases hy with rfl | ⟨k, rfl⟩ <;> simp [Frame.attaches] at hatt
        · simp [Frame.isMigration] at hstays
        · exact absurd ⟨_, _, rfl⟩ hremove

/-- A switch keeps the invariants: neither the stack that is left nor the resumed one terminates or
attaches anything. -/
theorem Serving.switch {y : Ctx Unit} {f : Frame Unit} {k : Switch Unit} {rest stack : List (Frame Unit)}
    (h : Serving s) (ho : Orderly s) (hactive : (s.thread t).active = some x)
    (hstack : (s.thread t).stack = f :: rest) (htarget : f.target = some (y, k))
    (hc : (s.ctx y).c = some stack) (henclosed : Enclosed (switched s t x rest y k stack)) :
    Serving (switched s t x rest y k stack) := by
  have hstack' : (s.thread ()).stack = f :: rest := hstack
  have hnew : ((switched s t x rest y k stack).thread ()).stack = .save x k :: stack := by
    simp [switched]
  have hresumed : ∀ g ∈ stack, g.isSettled := fun g hg => (ho.shape.suspended y stack hc g hg).1
  obtain ⟨hinner, -⟩ := Frame.of_target htarget (ho.shape.frames t x hactive f (by simp [hstack]))
  have hrest := settled_of_pairwise (hstack ▸ ho.shape.below t) hinner
  have hf : ∀ z, f.terminates z = false := by
    intro z
    cases f <;> simp [Frame.target] at htarget <;> rfl
  have hbefore : ∀ z, (s.thread ()).stack.any (Frame.terminates z) = false := by
    intro z
    rw [hstack', List.any_cons, hf, Frame.any_terminates_of_settled hrest, Bool.or_false]
  have hafter : ∀ z,
      ((switched s t x rest y k stack).thread ()).stack.any (Frame.terminates z) = false := by
    intro z
    rw [hnew, List.any_cons, Frame.any_terminates_of_settled hresumed]
    rfl
  refine ⟨henclosed, h.policy, fun g hg => ?_, fun z hz => ?_, fun g hg w hw => ?_, fun z hz => ?_, ?_⟩
  · cases List.mem_cons.mp (hnew ▸ hg) with
    | inl hsave => exact hsave ▸ rfl
    | inr hold =>
      have hsettled := hresumed g hold
      cases g <;> simp [Frame.isSettled] at hsettled <;> rfl
  · simpa using h.unborn z hz
  · cases List.mem_cons.mp (hnew ▸ hg) with
    | inl hsave => simp [hsave, Frame.attaches] at hw
    | inr hold => simp [Frame.attaches_of_settled (hresumed g hold)] at hw
  · simp [hafter] at hz
  · refine h.registered.congr rfl (by simp) fun z _ => ?_
    simp only [Unfinished, hbefore, hafter, switched_terminated]

/-- What the thread executes once `Dispatch` has left its loop: the switch back to main and the end
of `~Scheduler`, and nothing afterwards. -/
def Leaving (s : State Unit) : Prop :=
  (∃ rest, (s.thread ()).stack = .returnToMain () :: rest) ∨
    (∃ prev, (s.thread ()).stack = [.save prev .suspendWithCC, .destroy ()]) ∨
    (s.thread ()).stack = [.destroy ()] ∨ (s.thread ()).active = none

/-- The invariants after `Dispatch` has left its loop. -/
structure Finished (s : State Unit) : Prop where
  leaving : Leaving s
  shutdown : (s.sched ()).shutdown
  empty : (s.sched ()).workerQueue = []
  finished : ∀ x, Attached s x → (s.ctx x).terminated

/-- While the thread leaves nothing terminates. -/
theorem Leaving.not_terminates (h : Leaving s) (hs : Shape s) (x : Ctx Unit) :
    (s.thread ()).stack.any (Frame.terminates x) = false := by
  rcases h with ⟨rest, hstack⟩ | ⟨prev, hstack⟩ | hstack | hnone
  · have hsettled := settled_of_pairwise (hstack ▸ hs.below ()) rfl
    rw [hstack, List.any_cons, Frame.any_terminates_of_settled hsettled]
    rfl
  · rw [hstack]
    rfl
  · rw [hstack]
    rfl
  · exact Frame.any_terminates_of_settled (hs.idle () hnone) x

/-- `Dispatch` leaves its loop only when every attached worker has terminated. -/
theorem Serving.exit {rest : List (Frame Unit)} (h : Serving s) (hs : Orderly s)
    (hstack : (s.thread ()).stack = .exitTest () :: rest) (hempty : (s.sched ()).workerQueue = []) :
    Finished ((procTerminated s ()).setStack () (.returnToMain () :: rest)) where
  leaving := .inl ⟨rest, by simp⟩
  shutdown := by
    simpa [procTerminated] using
      hs.placed.closing.shutdown () (.exitTest ()) () (by simp [hstack]) rfl
  empty := by simpa [procTerminated] using hempty
  finished x hx := by
    have hattached : Attached s x := hx
    by_contra hterm
    have hone := h.registered.listed x hattached (.inl (by simpa [procTerminated] using hterm))
    simp [hempty] at hone

/-- Once `Dispatch` has left its loop the thread runs no code but the end of `~Scheduler`. -/
theorem Finished.step {s' : State Unit} {e : Event Unit} (h : Finished s) (ho : Orderly s)
    (hstep : step s e = some s') : Finished s' := by
  obtain ⟨hleaving, hshut, hempty, hfinished⟩ := h
  cases step_inv hstep with
  | @call t x op r hactive hstack huser hop =>
    obtain ⟨rest, hframes⟩ | ⟨prev, hframes⟩ | hframes | hnone := hleaving
    · exact absurd (hstack.symm.trans hframes) (by simp)
    · exact absurd (hstack.symm.trans hframes) (by simp)
    · exact absurd (hstack.symm.trans hframes) (by simp)
    · exact absurd (hactive.symm.trans hnone) (by simp)
  | @frame t x f now rest r hactive hstack hframe =>
    obtain ⟨rest', hframes⟩ | ⟨prev, hframes⟩ | hframes | hnone := hleaving
    · obtain ⟨rfl, -⟩ := List.cons.inj (hstack.symm.trans hframes)
      cases hframe with
      | pop hf | popEmpty hf => simp at hf
    · obtain ⟨rfl, rfl⟩ := List.cons.inj (hstack.symm.trans hframes)
      cases hframe with
      | pop hf | popEmpty hf => simp at hf
      | save hfctx =>
        refine ⟨.inr (.inr (.inl (by simp [Switch.onTop]))), hshut, hempty, fun y hy => ?_⟩
        by_cases hyp : y = prev
        · subst hyp
          simpa using hfinished y (by simpa [Attached] using hy)
        · simpa [hyp] using hfinished y (by simpa [Attached, hyp] using hy)
    · obtain ⟨rfl, rfl⟩ := List.cons.inj (hstack.symm.trans hframes)
      cases hframe with
      | pop hf | popEmpty hf => simp at hf
      | destroy =>
        exact ⟨.inr (.inr (.inr (by simp [Lutask.destroy]))), by simpa [Lutask.destroy] using hshut,
          by simpa [Lutask.destroy] using hempty, hfinished⟩
    · exact absurd (hactive.symm.trans hnone) (by simp)
  | @switch t x y f k now rest stack hactive hstack htarget hc =>
    obtain ⟨rest', hframes⟩ | ⟨prev, hframes⟩ | hframes | hnone := hleaving
    · obtain ⟨rfl, -⟩ := List.cons.inj (hstack.symm.trans hframes)
      obtain ⟨rfl, rfl⟩ : Ctx.main () = y ∧ Switch.suspendWithCC = k := by
        simpa [Frame.target] using htarget
      have hlast := ho.placed.closing.left () stack (.inl hc) hshut
      refine ⟨.inr (.inl ⟨x, by simp [switched, hlast]⟩), hshut, hempty, fun y hy => ?_⟩
      simpa using hfinished y (by simpa [Attached] using hy)
    · obtain ⟨rfl, -⟩ := List.cons.inj (hstack.symm.trans hframes)
      simp [Frame.target] at htarget
    · obtain ⟨rfl, -⟩ := List.cons.inj (hstack.symm.trans hframes)
      simp [Frame.target] at htarget
    · exact absurd (hactive.symm.trans hnone) (by simp)

/-- The invariants of a run in which no worker yields: those of the loop of `Dispatch` until it is
left, and those of the end of `~Scheduler` from then on. -/
theorem serving_or_finished {s' : State Unit} {e : Event Unit} (ho : Orderly s)
    (h : Serving s ∨ Finished s) (he : Served e) (hyield : ¬ yieldsWorker e)
    (hstep : step s e = some s') : Serving s' ∨ Finished s' := by
  cases h with
  | inr hfinished => exact .inr (hfinished.step ho hstep)
  | inl hserving =>
    by_cases hexit : e.exits s
    · right
      cases step_inv hstep with
      | call hactive hstack huser hop => exact hexit.elim
      | @frame t x f now rest r hactive hstack hframe =>
        cases hframe with
        | @exit u hworkers => exact hserving.exit ho hstack hworkers
        | pop hf | popEmpty hf => rcases hf with rfl | ⟨rfl, -⟩ <;> simp [Event.exits, Frame.exits] at hexit
        | stay hworkers => exact absurd (of_decide_eq_true hexit) hworkers
        | _ => simp [Event.exits, Frame.exits] at hexit
      | @switch t x y f k now rest stack hactive hstack htarget hc =>
        cases f <;> simp [Frame.target, Event.exits, Frame.exits] at htarget hexit
    · left
      have henclosed := hserving.enclosed.step ho hexit hstep
      cases step_inv hstep with
      | @call t x op r hactive hstack huser hop =>
        refine hserving.call ho hactive hstack hop he.1 he.2 ?_ henclosed
        rintro rfl
        simpa [yieldsWorker] using hyield
      | frame hactive hstack hframe => exact hserving.frame ho hstack hframe henclosed
      | switch hactive hstack htarget hc => exact hserving.switch ho hactive hstack htarget hc henclosed

/-- Before `Dispatch` leaves its loop main has not returned. -/
theorem Serving.drained (h : Serving s) (ho : Orderly s) : Drained s := by
  refine ⟨h.registered, fun hreturned => ?_⟩
  rcases hreturned with ⟨hactive, htop⟩ | hdeleted
  · exfalso
    obtain ⟨rest, hstack⟩ := List.head?_eq_some_iff.mp htop
    cases hshut : (s.sched ()).shutdown with
    | false => exact ho.placed.closing.runningOpen () () hactive hshut (by simp [hstack])
    | true =>
      obtain ⟨f, hf, -, hcarried⟩ := h.enclosed.running () () hactive hshut
      obtain ⟨rfl, -⟩ := List.cons.inj (hstack.symm.trans hf)
      simp [Frame.carried] at hcarried
  · simp [h.enclosed.kept] at hdeleted

/-- After `Dispatch` has left its loop `workerQueue_` is empty and nothing is left to be listed. -/
theorem Finished.drained (h : Finished s) (ho : Orderly s) : Drained s := by
  refine ⟨⟨fun x hx hunfinished => ?_, fun x _ => by simp [h.empty]⟩, fun _ => h.finished⟩
  simp [Unfinished, h.finished x hx, h.leaving.not_terminates ho.shape x] at hunfinished

/-- A worker that yields is dropped from `workerQueue_` although it has not terminated. -/
theorem not_registered_of_yields {e : Event Unit} {s' : State Unit} (ho : Orderly s)
    (hyields : yieldsWorker e) (hstep : step s e = some s') : ¬ Registered s' := by
  intro hregistered
  cases step_inv hstep with
  | @call t x op r hactive hstack huser hop =>
    cases hop with
    | @yield u hu =>
      have hterm : (s.ctx x).terminated = false := by
        simpa [State.slot] using ho.placed.active_free hactive (by simp [hstack]) .terminated
      have hpin : x.isPinned = false := by simpa [yieldsWorker] using hyields
      have hone := hregistered.listed x ⟨hpin, hu⟩ (.inl hterm)
      have hzero : ((workerQueueRemove s u x).sched ()).workerQueue.count x = 0 := by
        simp [workerQueueRemove, List.count_eq_zero]
      exact absurd (hone.symm.trans hzero) (by simp)
    | _ => simp [yieldsWorker] at hyields
  | frame => simp [yieldsWorker] at hyields
  | switch => simp [yieldsWorker] at hyields

/-- On one round-robin thread without sleepers `workerQueue_` holds exactly the attached workers that
have not terminated, and all attached workers have terminated when main has returned into
`~Scheduler`, in every state of a run if and only if no worker calls `Yield` in it. -/
theorem shutdown_drains_iff {events : List (Event Unit)}
    (h : Runs (fun _ => .roundRobin) (fun _ e => Served e) events s) :
    (∀ before s', before <+: events →
      Runs (fun _ => .roundRobin) (fun _ e => Served e) before s' → Drained s') ↔
        ∀ e ∈ events, ¬ yieldsWorker e := by
  constructor
  · intro hdrained e he hyields
    obtain ⟨before, after, rfl⟩ := List.append_of_mem he
    obtain ⟨s₁, s₂, hbefore, hserved, hstep, -⟩ := h.cut
    have ho : Orderly s₁ := Runs.orderly hbefore fun _ _ he => he.1
    refine not_registered_of_yields ho hyields hstep (hdrained (before ++ [e]) s₂ ?_ ?_).registered
    · exact ⟨after, by simp⟩
    · exact .snoc hbefore hserved hstep
  · intro hnever before s' hbefore hrun
    have hrun' := hrun.restrict fun e he => hnever e (hbefore.subset he)
    obtain ⟨ho, hcases⟩ := hrun'.invariant (I := fun s => Orderly s ∧ (Serving s ∨ Finished s))
      ⟨Orderly.initial _, .inl Serving.initial⟩ fun s e s'' hs he hstep =>
        ⟨hs.1.step he.1.1 hstep, serving_or_finished hs.1 hs.2 he.1 he.2 hstep⟩
    cases hcases with
    | inl hserving => exact hserving.drained ho
    | inr hfinished => exact hfinished.drained ho

/-- A run to the end of `~Scheduler` in which main starts a worker and the worker terminates. -/
theorem drained_terminated :
    ∃ events s, Runs (fun _ => .roundRobin) (fun _ e => Served e) events s ∧ Returned s ∧
      Attached s (.worker 0) ∧ ∀ before s', before <+: events →
        Runs (fun _ => .roundRobin) (fun _ e => Served e) before s' → Drained s' := by
  obtain ⟨events, s, hrun, hactive, htop, hsched⟩ : ∃ events s,
      Runs (fun _ => .roundRobin) (fun _ e => Served e ∧ ¬ yieldsWorker e) events s ∧
        ((s.thread ()).active = some (.main ()) ∧ (s.thread ()).stack.head? = some (.destroy ()) ∧
          (s.ctx (.worker 0)).scheduler = some ()) :=
    reaches_of_drive [.call () (.main ()) (.start .post), .frames () 2 0,
      .call () (.main ()) .destructor, .frames () 11 0, .call () (.worker 0) .terminate,
      .frames () 10 0] (by decide)
  have hserved := hrun.weaken fun _ _ he => he.1
  refine ⟨events, s, hserved, .inl ⟨hactive, htop⟩, ⟨rfl, hsched⟩, ?_⟩
  exact (shutdown_drains_iff hserved).mpr (hrun.labels fun _ _ he => he.2)

/-- A run in which a worker yields and main then calls `~Scheduler`, which returns although this
worker is still in the ready queue. -/
theorem yielded_worker_abandoned :
    ∃ events s, Runs (fun _ => .roundRobin) (fun _ e => Served e) events s ∧ ¬ Drained s ∧
      (Returned s ∧ Attached s (.worker 0) ∧ .worker 0 ∈ (s.sched ()).queue) := by
  obtain ⟨events, s, hrun, hactive, htop, hsched, hterm, hqueue⟩ : ∃ events s,
      Runs (fun _ => .roundRobin) (fun _ e => Served e) events s ∧
        ((s.thread ()).active = some (.main ()) ∧ (s.thread ()).stack.head? = some (.destroy ()) ∧
          (s.ctx (.worker 0)).scheduler = some () ∧ (s.ctx (.worker 0)).terminated = false ∧
          .worker 0 ∈ (s.sched ()).queue) :=
    reaches_of_drive [.call () (.main ()) (.start .post), .frames () 2 0,
      .call () (.main ()) .yield, .frames () 11 0, .call () (.worker 0) .yield, .frames () 4 0,
      .call () (.main ()) .destructor, .frames () 7 0] (by decide)
  have hreturned : Returned s := .inl ⟨hactive, htop⟩
  have hattached : Attached s (.worker 0) := ⟨rfl, hsched⟩
  refine ⟨events, s, hrun, fun hdrained => ?_, hreturned, hattached, hqueue⟩
  simp [hdrained.finished hreturned _ hattached] at hterm

end RoundRobin

end Lutask
