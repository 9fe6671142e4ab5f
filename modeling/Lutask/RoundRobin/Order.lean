import Lutask.Support.Queueing
import Lutask.Machine.Waiting
import Lutask.RoundRobin.SinglePlace

/-!
# The order of resumption on one round-robin thread

`PickNext` takes the front of `readyQueue_` and `Awakened` pushes its back, whichever function calls
them. The only switches that bypass the queue are those to a fiber that was just started with
`ELaunch::Dispatch`. A context that gives up control and is put at the back of the queue is therefore
resumed after all entries that were ahead of it.
-/

namespace Lutask

open LabelledRuns TokenPlacement

variable {T : Type*}

/-- The context that a switch resumes. -/
def Frame.resumes (f : Frame T) : Option (Ctx T) :=
  f.target.map Prod.fst

/-- The context that is resumed in an event. -/
def Event.resumes : Event T → Option (Ctx T)
  | .call .. => none
  | .exec _ _ f _ => f.resumes

/-- The contexts that are resumed in a run, in this order. -/
def resumptions (events : List (Event T)) : List (Ctx T) :=
  events.filterMap Event.resumes

@[simp] theorem resumptions_append (before after : List (Event T)) :
    resumptions (before ++ after) = resumptions before ++ resumptions after :=
  List.filterMap_append

@[simp] theorem resumptions_singleton (e : Event T) : resumptions [e] = e.resumes.toList := by
  cases h : e.resumes <;> simp [resumptions, h]

/-- `~Scheduler`. -/
def Op.isDestructor : Op T → Bool
  | .destructor => true
  | _ => false

/-- `~Scheduler` is not called. -/
def Event.keepsOpen : Event T → Prop
  | .call _ _ op => op.isDestructor = false
  | .exec .. => True

instance : DecidablePred (Event.keepsOpen (T := T))
  | .call _ _ op => inferInstanceAs (Decidable (op.isDestructor = false))
  | .exec .. => .isTrue trivial

section Resumptions

variable [DecidableEq T] {s : State T} {t : T} {x : Ctx T} {now : ℕ} {f : Frame T} {op : Op T} {r : Rest T}

/-- No operation switches in its first action. -/
theorem OpStep.resumes (h : OpStep s x op r) : ∀ f ∈ r.2, f.resumes = none := by
  cases h with
  | start launch => cases launch <;> simp [Lutask.start, Frame.resumes, Frame.target]
  | _ => simp [Lutask.yield, Lutask.waitUntil, Lutask.terminate, Lutask.destructor, Frame.resumes,
      Frame.target]

omit [DecidableEq T] in
/-- A frame below the top of a stack neither switches nor attaches. -/
theorem Frame.Below.resumes {g : Frame T} (h : f.Below g) : g.resumes = none := by
  cases h with
  | inl hsettled => cases g <;> simp [Frame.isSettled] at hsettled <;> rfl
  | inr hinner => cases g <;> simp [Frame.isOuter] at hinner <;> rfl

omit [DecidableEq T] in
theorem Frame.Below.attaches {g : Frame T} (h : f.Below g) : g.attaches = none := by
  cases h with
  | inl hsettled => exact Frame.attaches_of_settled hsettled
  | inr hinner => cases g <;> simp [Frame.isOuter] at hinner <;> rfl

/-- A frame that is executed in place does not switch. -/
theorem FrameStep.target (h : FrameStep s t x now f r) : f.target = none := by
  cases h with
  | pop hf | popEmpty hf => rcases hf with rfl | ⟨rfl, -⟩ <;> rfl
  | _ => rfl

/-- The context that is resumed next was attached, or popped from a queue, or it is the main context to
which `Dispatch` returns. -/
theorem FrameStep.resumes (h : FrameStep s t x now f r) :
    r.2.filterMap Frame.resumes = [] ∨
      ∃ y, r.2.filterMap Frame.resumes = [y] ∧
        (f.attaches = some y ∨ (∃ u, (s.sched u).queue = y :: (r.1.sched u).queue) ∨
          ∃ u, f = .exitTest u) := by
  cases h with
  | schedule hu | wake hu | scheduleOn =>
    rcases schedule_cases s _ _ with ⟨-, hr⟩ | ⟨-, -, hr⟩ <;> rw [hr] <;>
      simp [Frame.resumes, Frame.target]
  | @pop f u k y rest hf hqueue =>
    exact .inr ⟨y, rfl, .inr (.inl ⟨u, by simpa using hqueue⟩)⟩
  | @attachResume u y k hu hmtx => exact .inr ⟨y, rfl, .inl rfl⟩
  | @exit u hworkers => exact .inr ⟨.main u, rfl, .inr (.inr ⟨u, rfl⟩)⟩
  | @save prev k stack hfctx => cases k <;> simp [Switch.onTop, Frame.resumes, Frame.target]
  | @relock q l p y hl => cases p <;> simp [relockNext, Frame.resumes, Frame.target]
  | @notifyOne q y rest hwaits | @notifyOneEmpty q hwaits | @notifyAllEmpty q hwaits =>
    cases q <;> simp [WaitQueue.afterNotify, Frame.resumes, Frame.target]
  | _ => simp [Lutask.iterate, Lutask.terminateRemove, Lutask.destroy, Frame.resumes, Frame.target]

/-- `shutdown_` stays false as long as `~Scheduler` is not called. -/
theorem step_open {s' : State T} {e : Event T} {u : T} (h : (s.sched u).shutdown = false)
    (he : e.keepsOpen) (hstep : step s e = some s') : (s'.sched u).shutdown = false := by
  cases step_inv hstep with
  | call hactive hstack huser hop =>
    cases hop.shutdown u with
    | inl hsame => exact hsame.trans h
    | inr hcall =>
      obtain ⟨rfl, -⟩ := hcall
      simp [Event.keepsOpen, Op.isDestructor] at he
  | frame hactive hstack hframe => exact (hframe.shutdown u).trans h
  | switch hactive hstack htarget hc => exact h

end Resumptions

namespace RoundRobin

open Queueing

/-- The events of one round-robin thread without sleepers, before `~Scheduler`. -/
def InService (e : Event Unit) : Prop :=
  Served e ∧ e.keepsOpen

instance (e : Event Unit) : Decidable (InService e) :=
  inferInstanceAs (Decidable (_ ∧ _))

/-- The runs of one round-robin thread without sleepers and Async fibers, before `~Scheduler`. -/
abbrev ServiceRuns (events : List (Event Unit)) (s : State Unit) : Prop :=
  Runs (fun _ => .roundRobin) (fun _ => InService) events s

variable {s s' : State Unit} {x y : Ctx Unit} {e : Event Unit} {events : List (Event Unit)}

/-- The invariants of these runs. -/
structure InServiceState (s : State Unit) : Prop where
  orderly : Orderly s
  isLocal : StaysLocal s
  isOpen : (s.sched ()).shutdown = false

theorem InServiceState.initial : InServiceState (State.initial fun _ => .roundRobin) :=
  ⟨Orderly.initial _, StaysLocal.initial, rfl⟩

theorem InServiceState.step (h : InServiceState s) (he : InService e)
    (hstep : Lutask.step s e = some s') : InServiceState s' where
  orderly := h.orderly.step he.1.1 hstep
  isLocal := h.isLocal.step h.orderly.shape he.1.2 hstep
  isOpen := step_open h.isOpen he.2 hstep

theorem ServiceRuns.inService (h : ServiceRuns events s) : InServiceState s :=
  Run.invariant h InServiceState.initial fun _ _ _ hs he hstep => hs.step he hstep

/-- The contexts of `s₀` that a switch at the top of the stack is about to resume. -/
def coming (s₀ s : State Unit) : List (Ctx Unit) :=
  ((s.thread ()).stack.filterMap Frame.resumes).filter fun y => s₀.started y

/-- The invariant of `x` since it was pushed behind the queue of `s₀`: it stands in the queue, together
with the context that was popped and is about to be resumed, until it was resumed. Workers started since
`s₀` are those that may be attached and resumed at once. -/
structure Lined (s₀ : State Unit) (x : Ctx Unit) (resumed : List (Ctx Unit)) (s : State Unit) : Prop where
  started : ∀ y, s₀.started y → s.started y
  attached : ∀ f ∈ (s.thread ()).stack, ∀ w, f.attaches = some w → s₀.started w = false
  waits : Waits (s₀.sched ()).queue x (fun y => s₀.started y = false)
    (coming s₀ s ++ (s.sched ()).queue) resumed

/-- A frame below the top of a stack switches nowhere. -/
theorem resumes_of_below {f : Frame Unit} {rest : List (Frame Unit)}
    (h : (f :: rest).Pairwise Frame.Below) : rest.filterMap Frame.resumes = [] :=
  List.filterMap_eq_nil_iff.mpr fun g hg => ((List.pairwise_cons.mp h).1 g hg).resumes

section Line

variable {s₀ : State Unit} {resumed : List (Ctx Unit)} {f : Frame Unit} {rest : List (Frame Unit)}

/-- A call pushes nobody and resumes nobody. -/
theorem Lined.call {op : Op Unit} {r : Rest Unit} (h : Lined s₀ x resumed s)
    (hstack : (s.thread ()).stack = []) (hop : OpStep s y op r) :
    Lined s₀ x resumed (r.1.setStack () r.2) where
  started z hz := hop.started (h.started z hz)
  attached g hg w hw := by
    obtain ⟨rfl, -⟩ := hop.attaches g (by simpa using hg) w hw
    by_contra hstarted
    have hborn := h.started (.worker s.fresh) (by simpa using hstarted)
    simp [State.started] at hborn
  waits := by
    have hcoming : coming s₀ s = [] := by simp [coming, hstack]
    have hcoming' : coming s₀ (r.1.setStack () r.2) = [] := by
      simp [coming, List.filterMap_eq_nil_iff.mpr hop.resumes]
    have hqueue : ((r.1.setStack () r.2).sched ()).queue = (s.sched ()).queue := hop.queue ()
    have hwaits := h.waits
    rwa [hcoming, ← hcoming', ← hqueue] at hwaits

/-- A frame pushes the back of the queue or pops its front, and attaches only workers started since. -/
theorem Lined.frame {now : ℕ} {r : Rest Unit} (h : Lined s₀ x resumed s) (hs : InServiceState s)
    (hold : ∀ z, z ∈ (s₀.sched ()).queue ∨ z = x → s₀.started z)
    (hstack : (s.thread ()).stack = f :: rest) (hframe : FrameStep s () y now f r) :
    Lined s₀ x resumed (r.1.setStack () (r.2 ++ rest)) where
  started z hz := by simpa [hframe.started] using h.started z hz
  attached g hg w hw := by
    cases List.mem_append.mp (by simpa using hg : g ∈ r.2 ++ rest) with
    | inl hadded => simp [hframe.attaches (fun u _ _ => hs.isLocal.policy u) g hadded] at hw
    | inr hbelow => exact h.attached g (by simp [hstack, hbelow]) w hw
  waits := by
    have hbelow := resumes_of_below (hstack ▸ hs.orderly.shape.below ())
    have hcoming : coming s₀ s = [] := by
      simp [coming, hstack, hbelow, Frame.resumes, hframe.target]
    have hcoming' : coming s₀ (r.1.setStack () (r.2 ++ rest)) =
        (r.2.filterMap Frame.resumes).filter fun z => s₀.started z := by
      simp [coming, List.filterMap_append, hbelow]
    have hwaits := h.waits
    rw [hcoming, List.nil_append] at hwaits
    rw [hcoming', State.setStack_sched]
    rcases hframe.queue_cases () with hsame | ⟨z, -, -, -, hr, hpush⟩ | ⟨k, z, -, hr, hpop⟩
    · -- only a worker started since can be resumed without having been popped
      rw [hsame]
      rcases hframe.resumes with hnone | ⟨z, hone, hatt | ⟨u, hpop⟩ | ⟨u, rfl⟩⟩
      · simpa [hnone] using hwaits
      · simpa [hone, h.attached f (by simp [hstack]) z hatt] using hwaits
      · simp [hsame] at hpop
      · have hshut := hs.orderly.placed.closing.shutdown () (.exitTest u) u (by simp [hstack]) rfl
        simp [hs.isOpen] at hshut
    · rw [hr, hpush]
      exact hwaits.push z
    · rw [hpop] at hwaits
      simpa [hr, Frame.resumes, Frame.target, hold z hwaits.front] using hwaits

/-- A switch serves the front of the queue, or a worker started since. -/
theorem Lined.switch {k : Switch Unit} {stack : List (Frame Unit)} (h : Lined s₀ x resumed s)
    (hs : Shape s) (hnew : x ∉ (s₀.sched ()).queue)
    (hold : ∀ z, z ∈ (s₀.sched ()).queue ∨ z = x → s₀.started z)
    (hstack : (s.thread ()).stack = f :: rest) (htarget : f.target = some (y, k))
    (hc : (s.ctx y).c = some stack) (z : Ctx Unit) :
    Lined s₀ x (resumed ++ [y]) (switched s () z rest y k stack) ∨
      x ∈ resumed ++ [y] ∧
        InOrder (s₀.sched ()).queue x (fun y => s₀.started y = false) (resumed ++ [y]) := by
  have hcoming : coming s₀ s = [y].filter fun z => s₀.started z := by
    simp [coming, hstack, resumes_of_below (hstack ▸ hs.below ()), Frame.resumes, htarget]
  have hframes : ((switched s () z rest y k stack).thread ()).stack = .save z k :: stack := by
    simp [switched]
  have hsettled : ∀ g ∈ stack, g.isSettled := fun g hg => (hs.suspended y stack hc g hg).1
  have hcoming' : coming s₀ (switched s () z rest y k stack) = [] := by
    have hnone : stack.filterMap Frame.resumes = [] :=
      resumes_of_below (pairwise_of_settled (f := .save z k) hsettled)
    have htop : (Frame.save z k).resumes = none := rfl
    simp [coming, hframes, hnone, htop]
  have hqueue : ((switched s () z rest y k stack).sched ()).queue = (s.sched ()).queue := rfl
  have hkept : Waits (s₀.sched ()).queue x (fun y => s₀.started y = false) (s.sched ()).queue
      (resumed ++ [y]) → Lined s₀ x (resumed ++ [y]) (switched s () z rest y k stack) := by
    intro hwaits
    refine ⟨fun v hv => h.started v hv, fun g hg w hw => ?_, by rwa [hcoming', hqueue]⟩
    cases List.mem_cons.mp (hframes ▸ hg) with
    | inl htop => simp [htop, Frame.attaches] at hw
    | inr hbelow => simp [Frame.attaches_of_settled (hsettled g hbelow)] at hw
  have hwaits := h.waits
  rw [hcoming] at hwaits
  cases hy : s₀.started y with
  | true =>
    simp only [List.filter_cons, hy, if_true, List.filter_nil, List.singleton_append] at hwaits
    exact (hwaits.pop hnew).imp_left hkept
  | false =>
    have hnot : ∀ z, z ∈ (s₀.sched ()).queue ∨ z = x → y ≠ z := by
      rintro z hz rfl
      simp [hold y hz] at hy
    simp only [List.filter_cons, hy, Bool.false_eq_true, if_false, List.filter_nil,
      List.nil_append] at hwaits
    exact .inl (hkept (hwaits.bypass (fun hmem => hnot y (.inl hmem) rfl) (hnot x (.inr rfl)) hy))

/-- In every event `x` goes on to wait behind the others, or it is resumed after all of them. -/
theorem Lined.step (h : Lined s₀ x resumed s) (hs : InServiceState s)
    (hnew : x ∉ (s₀.sched ()).queue) (hold : ∀ y, y ∈ (s₀.sched ()).queue ∨ y = x → s₀.started y)
    (hstep : Lutask.step s e = some s') :
    Lined s₀ x (resumed ++ resumptions [e]) s' ∨
      x ∈ resumed ++ resumptions [e] ∧ InOrder (s₀.sched ()).queue x (fun y => s₀.started y = false)
        (resumed ++ resumptions [e]) := by
  cases step_inv hstep with
  | call hactive hstack huser hop =>
    left
    simpa [Event.resumes] using h.call hstack hop
  | frame hactive hstack hframe =>
    left
    simpa [Event.resumes, Frame.resumes, hframe.target] using
      h.frame hs hold hstack hframe
  | @switch t z y f k now rest stack hactive hstack htarget hc =>
    simpa [Event.resumes, Frame.resumes, htarget] using
      h.switch hs.orderly.shape hnew hold hstack htarget hc z

end Line

/-- `Schedule` pushes its context behind all others, among which it is not yet. -/
theorem InServiceState.pushed {z : Ctx Unit} {n : ℕ} (h : InServiceState s)
    (hstep : Lutask.step s (.exec () z (.schedule x) n) = some s') :
    (s'.sched ()).queue = (s.sched ()).queue ++ [x] ∧ x ∉ (s.sched ()).queue ∧ Lined s x [] s' := by
  obtain ⟨hactive, rest, hstack⟩ := step_exec hstep
  obtain ⟨z, n, -, -, ⟨r, hframe, rfl⟩ | ⟨y, k, stack, htarget, -⟩⟩ :=
    step_top (t := ()) hstep rfl hstack
  · have hr : r = (queuePush s () x, []) := by
      cases hframe with
      | pop hf | popEmpty hf => simp at hf
      | schedule hu => exact schedule_roundRobin (h.isLocal.policy _) x
    subst hr
    have hbelow := h.orderly.shape.below ()
    rw [hstack] at hbelow
    have hqueue : (((queuePush s () x).setStack () ([] ++ rest)).sched ()).queue =
        (s.sched ()).queue ++ [x] := by simp [queuePush]
    have hfree := h.orderly.placed.held_free (f := .schedule x) (t := ()) (by simp [hstack]) rfl
      (.queue ())
    refine ⟨hqueue, List.count_eq_zero.mp hfree, fun y hy => hy, fun g hg w hw => ?_, ?_⟩
    · have hg : g ∈ rest := by simpa using hg
      simp [((List.pairwise_cons.mp hbelow).1 g hg).attaches] at hw
    · have hcoming : coming s ((queuePush s () x).setStack () ([] ++ rest)) = [] := by
        simp [coming, resumes_of_below hbelow]
      rw [hcoming, hqueue]
      exact Waits.joined
  · simp [Frame.target] at htarget

/-- After `x` was put at the back of the ready queue, by the `Resume(x)` with which it gave up control or
by its start with `Post`, it is not resumed before all entries that were in the queue at that moment: these
are resumed once each, in their order, and only workers started since are resumed out of their turn. -/
theorem round_robin_order {before after : List (Event Unit)} {z : Ctx Unit} {n : ℕ}
    (h : ServiceRuns (before ++ .exec () z (.schedule x) n :: after) s) :
    ∃ s₀ s₁, ServiceRuns before s₀ ∧ step s₀ (.exec () z (.schedule x) n) = some s₁ ∧
      (s₁.sched ()).queue = (s₀.sched ()).queue ++ [x] ∧ (s₁.sched ()).queue.Nodup ∧
      InOrder (s₀.sched ()).queue x (fun y => s₀.started y = false) (resumptions after) := by
  obtain ⟨s₀, s₁, hbefore, hguard, hstep, hafter⟩ := h.cut
  have h₀ : InServiceState s₀ := ServiceRuns.inService hbefore
  have h₁ := h₀.step hguard hstep
  obtain ⟨hqueue, hnew, hlined⟩ := h₀.pushed hstep
  have hold : ∀ y, y ∈ (s₀.sched ()).queue ∨ y = x → s₀.started y := by
    intro y hy
    obtain ⟨-, rest, hstack⟩ := step_exec hstep
    cases hy with
    | inl hqueued =>
      exact h₀.orderly.placed.started
        ⟨.slot (.queue ()), State.slot_queue_pos.mpr hqueued, by simp, by simp, by simp⟩
    | inr hyx =>
      subst hyx
      exact h₀.orderly.placed.started
        (State.away_of_held (f := .schedule y) (t := ()) (by simp [hstack]) rfl)
  refine ⟨s₀, s₁, hbefore, hstep, hqueue, ?_, ?_⟩
  · exact List.nodup_iff_count_le_one.mpr fun y =>
      (h₁.orderly.placed.exclusive y).le_one (.slot (.queue ()))
  · have hlast := Run.invariant_labels
      (I := fun after s => InServiceState s ∧ (Lined s₀ x (resumptions after) s ∨
        x ∈ resumptions after ∧
          InOrder (s₀.sched ()).queue x (fun y => s₀.started y = false) (resumptions after)))
      hafter ⟨h₁, .inl hlined⟩ fun after s e s' hs he hstep => by
        refine ⟨hs.1.step he hstep, ?_⟩
        rw [resumptions_append]
        cases hs.2 with
        | inl hwaits => exact hwaits.step hs.1 hnew hold hstep
        | inr hdone => exact .inr ⟨List.mem_append_left _ hdone.1, hdone.2.append hdone.1 _⟩
    cases hlast.2 with
    | inl hwaits => exact hwaits.waits.inOrder
    | inr hdone => exact hdone.2

/-- Main starts a worker with `Post` and yields; the dispatcher is resumed. -/
def mainYields : List (Event Unit) :=
  [.call () (.main ()) (.start .post), .exec () (.main ()) (.postAttach (.worker 0)) 0,
    .exec () (.main ()) (.schedule (.worker 0)) 0, .call () (.main ()) .yield,
    .exec () (.main ()) (.pickNext () (some (.resumeReady (.main ())))) 0,
    .exec () (.main ()) (.resume (.dispatcher ()) (.resumeReady (.main ()))) 0,
    .exec () (.dispatcher ()) (.save (.main ()) (.resumeReady (.main ()))) 0]

/-- The dispatcher resumes the worker, which starts another one with `Dispatch`. That one yields. -/
def workerStartsAnother : List (Event Unit) :=
  [.exec () (.dispatcher ()) (.dispatch ()) 0, .exec () (.dispatcher ()) (.iterate ()) 0,
    .exec () (.dispatcher ()) (.procSleep () 0) 0, .exec () (.dispatcher ()) (.pickNext () none) 0,
    .exec () (.dispatcher ()) (.resume (.worker 0) (.resumeReady (.dispatcher ()))) 0,
    .exec () (.worker 0) (.save (.dispatcher ()) (.resumeReady (.dispatcher ()))) 0,
    .exec () (.worker 0) (.schedule (.dispatcher ())) 0, .call () (.worker 0) (.start .dispatch),
    .exec () (.worker 0) (.attachResume (.worker 1) (.resumeReady (.worker 0))) 0,
    .exec () (.worker 0) (.resume (.worker 1) (.resumeReady (.worker 0))) 0,
    .exec () (.worker 1) (.save (.worker 0) (.resumeReady (.worker 0))) 0,
    .exec () (.worker 1) (.schedule (.worker 0)) 0, .call () (.worker 1) .yield,
    .exec () (.worker 1) (.pickNext () (some (.resumeReady (.worker 1)))) 0,
    .exec () (.worker 1) (.resume (.main ()) (.resumeReady (.worker 1))) 0]

/-- Main yields behind a worker, and is resumed after that worker although the worker starts another one
with `Dispatch`, which runs at once. -/
theorem main_resumed_in_turn : ∃ s,
    ServiceRuns
      (mainYields ++ .exec () (.dispatcher ()) (.schedule (.main ())) 0 :: workerStartsAnother) s ∧
      resumptions workerStartsAnother = [.worker 0, .worker 1, .main ()] ∧
      ∃ s₀ s₁, ServiceRuns mainYields s₀ ∧
        step s₀ (.exec () (.dispatcher ()) (.schedule (.main ())) 0) = some s₁ ∧
        (s₁.sched ()).queue = (s₀.sched ()).queue ++ [.main ()] ∧ (s₁.sched ()).queue.Nodup ∧
        InOrder (s₀.sched ()).queue (.main ()) (fun y => s₀.started y = false)
          (resumptions workerStartsAnother) := by
  have hplay : (play step (fun _ e => decide (InService e)) (State.initial fun _ => .roundRobin)
      (mainYields ++
        .exec () (.dispatcher ()) (.schedule (.main ())) 0 :: workerStartsAnother)).isSome := by
    decide
  obtain ⟨s, hs⟩ := Option.isSome_iff_exists.mp hplay
  have hrun : ServiceRuns _ s := Run.of_play (fun _ _ => of_decide_eq_true) hs
  exact ⟨s, hrun, by decide, round_robin_order hrun⟩

end RoundRobin

end Lutask
