import Lutask.Machine.Enlisted
import Lutask.Machine.Suspension
import Lutask.RoundRobin.Order

/-!
# The ready line of one round-robin thread

A context that a notification takes out of a wait queue stands in one line from then on until it is
resumed: first in the hand of the notifier, then in `readyQueue_`, and at last in the hand of
`PickNext`. Others join the same line, but the saved stack of a context tells whether it stands there to
return from a `Wait`, and from which.
-/

namespace Lutask

open LabelledRuns

variable {T : Type*}

/-- The context that a notification has taken out and is about to make ready. -/
def Frame.wakes : Frame T → Option (Ctx T)
  | .wake y => some y
  | _ => none

/-- The context that joins the line by a frame although no notification has taken it out. -/
def Frame.introduces : Frame T → Option (Ctx T)
  | .schedule y | .scheduleOn _ y | .postAttach y | .attachResume y _ => some y
  | _ => none

theorem Frame.Below.wakes {f g : Frame T} (h : f.Below g) : g.wakes = none := by
  cases h with
  | inl hsettled => cases g <;> simp [Frame.isSettled] at hsettled <;> rfl
  | inr hinner => cases g <;> simp [Frame.isOuter] at hinner <;> rfl

/-- Whoever is in a wait queue and saved goes on where this wait queue belongs. -/
def WaitsWhere (s : State T) : Prop :=
  ∀ q y, y ∈ s.waits q → (s.ctx y).c ≠ none → s.waitsIn y = q.switch.cv

variable [DecidableEq T] {s s' : State T} {t : T} {x y : Ctx T} {now : ℕ} {f : Frame T} {op : Op T}
  {r : Rest T} {e : Event T}

omit [DecidableEq T] in
theorem State.waitsIn_congr (h : (s'.ctx y).c = (s.ctx y).c) : s'.waitsIn y = s.waitsIn y := by
  simp [State.waitsIn, h]

/-- No operation changes where a context goes on. -/
theorem OpStep.waitsIn (h : OpStep s x op r) (hc : Continued s) (stack : List (Frame T)) (y : Ctx T) :
    (r.1.setStack t stack).waitsIn y = s.waitsIn y := by
  rcases h.c y with hsame | ⟨-, rfl, hnew⟩
  · exact State.waitsIn_congr hsame
  · have hunborn : (s.ctx (.worker s.fresh)).c = none := by
      by_contra hsaved
      have hmade := hc.saved _ hsaved
      simp [State.started] at hmade
    simp [State.waitsIn, hnew, hunborn, Lutask.waitsIn]

/-- Only `save` changes where a context goes on. -/
theorem FrameStep.waitsIn (h : FrameStep s t x now f r) (stack : List (Frame T)) (y : Ctx T) :
    (r.1.setStack t stack).waitsIn y = s.waitsIn y ∨ ∃ k, f = .save y k := by
  rcases h.c y with hsame | ⟨k, hf, -⟩
  · exact .inl (State.waitsIn_congr hsame)
  · exact .inr ⟨k, hf⟩

/-- The stack that `save` stores goes on where its switch says. -/
theorem Suspension.save (h : Suspension s) {k : Switch T} {rest : List (Frame T)}
    (hstack : (s.thread t).stack = .save y k :: rest) (hframe : FrameStep s t x now (.save y k) r)
    (stack : List (Frame T)) :
    ((r.1.setStack t stack).ctx y).c ≠ none ∧ (r.1.setStack t stack).waitsIn y = k.cv := by
  cases hframe with
  | pop hf | popEmpty hf => simp at hf
  | @save prev k saved hfctx =>
    obtain ⟨-, hcv⟩ := h.handed t y k rest saved hstack hfctx
    simpa [State.waitsIn] using hcv

/-- No operation starts with a context that is to join the line, apart from the new worker. -/
theorem OpStep.introduces (h : OpStep s x op r) (hop : op.strays = false) :
    ∀ g ∈ r.2, ∀ y, g.introduces = some y → (r.1.ctx y).c = some [] := by
  cases h with
  | start launch => cases launch <;> simp [Lutask.start, Frame.introduces]
  | yieldOrigin hu horigin => simp [Op.strays] at hop
  | _ => simp [Lutask.yield, Lutask.waitUntil, Lutask.terminate, Lutask.destructor, Frame.introduces]

/-- On round-robin threads a context joins the line after it was attached or after the switch by which it
made itself ready, unless it slept. -/
theorem FrameStep.introduces (h : FrameStep s t x now f r)
    (hpolicy : ∀ u, (s.sched u).policy = .roundRobin) (hawake : ∀ u, (s.sched u).sleepQueue = []) :
    ∀ g ∈ r.2, ∀ y, g.introduces = some y →
      f = .postAttach y ∨ ∃ prev, f = .save prev (.resumeReady y) := by
  cases h with
  | schedule hu | wake hu | scheduleOn => simp [schedule_roundRobin (hpolicy _)]
  | pickReady hshared => simp [hpolicy] at hshared
  | procSleepDue hsleep hdue => simp [hawake] at hsleep
  | @save prev k stack hfctx => cases k <;> simp [Switch.onTop, Frame.introduces]
  | @relock q l p y hl => cases p <;> simp [relockNext, Frame.introduces]
  | @notifyOne q y rest hwaits | @notifyOneEmpty q hwaits | @notifyAllEmpty q hwaits =>
    cases q <;> simp [WaitQueue.afterNotify, Frame.introduces]
  | _ => simp [Lutask.iterate, Lutask.terminateRemove, Lutask.destroy, Frame.introduces]

/-- The whereabouts of the waiting contexts are read off their stacks in every state. -/
theorem WaitsWhere.step (h : WaitsWhere s) (ho : Orderly s) (hw : Waiting s) (hsus : Suspension s)
    (hstep : Lutask.step s e = some s') : WaitsWhere s' := by
  intro q y hy hc
  cases step_inv hstep with
  | @call t x op r hactive hstack huser hop =>
    have hold : y ∈ s.waits q := by simpa [hop.waits] using hy
    rw [hop.waitsIn ho.continued]
    rcases hop.c y with hsame | ⟨-, rfl, -⟩
    · exact h q y hold (by simpa [hsame] using hc)
    · have hmade := ho.placed.started (State.away_of_waits hold)
      simp [State.started] at hmade
  | @frame t x f now rest r hactive hstack hframe =>
    by_cases hsave : ∃ k, f = .save y k
    · -- the context was on its way to the switch of its wait queue
      obtain ⟨k, rfl⟩ := hsave
      have hold : y ∈ s.waits q := (hframe.waited (by simpa using hy)).resolve_right (by simp)
      obtain ⟨g, below, htop, hcarried⟩ := hw.leaving q y t hold (.inr ⟨k, rest, hstack⟩)
      obtain ⟨rfl, -⟩ := List.cons.inj (hstack.symm.trans htop)
      obtain rfl : k = q.switch := by simpa [Frame.carried] using hcarried
      exact (hsus.save hstack hframe _).2
    · have hwhere := (hframe.waitsIn (t := t) (r.2 ++ rest) y).resolve_right hsave
      have hsame : ((r.1.setStack t (r.2 ++ rest)).ctx y).c = (s.ctx y).c := by
        refine (hframe.c y).resolve_right fun hsaved => hsave ?_
        obtain ⟨k, hf, -⟩ := hsaved
        exact ⟨k, hf⟩
      rw [hsame] at hc
      rw [hwhere]
      cases hframe.waited (by simpa using hy) with
      | inl hold => exact h q y hold hc
      | inr hf =>
        obtain rfl : y = x := ho.shape.frames t x hactive (.suspendAndWait q y) (by simp [hstack, hf])
        exact absurd (ho.continued.busy t y (.inl hactive)).2 hc
  | @switch t x z f k now rest stack hactive hstack htarget hcz =>
    have hold : y ∈ s.waits q := hy
    have hne : y ≠ z := by
      rintro rfl
      have hmem : f ∈ (s.thread t).stack := by simp [hstack]
      exact ho.target_not_waiting hmem htarget hold
    have hsame : ((switched s t x rest z k stack).ctx y).c = (s.ctx y).c := by simp [switched, hne]
    rw [State.waitsIn_congr hsame]
    exact h q y hold (by rwa [hsame] at hc)

namespace RoundRobin

section Line

variable {s s' : State Unit} {x y : Ctx Unit} {now : ℕ} {f : Frame Unit} {op : Op Unit}
  {r : Rest Unit} {e : Event Unit} {rest : List (Frame Unit)}

/-- The contexts that are ready, in the order in which they are going to be resumed. -/
def readyLine (s : State Unit) : List (Ctx Unit) :=
  (s.thread ()).stack.filterMap Frame.resumes ++ (s.sched ()).queue ++
    (s.thread ()).stack.filterMap Frame.wakes

/-- Only the topmost frame can have a context of the line in its hand. -/
theorem readyLine_of_stack (hs : Shape s) (hstack : (s.thread ()).stack = f :: rest) :
    readyLine s = f.resumes.toList ++ (s.sched ()).queue ++ f.wakes.toList := by
  have hbelow := List.pairwise_cons.mp (hstack ▸ hs.below ())
  have hresumes : rest.filterMap Frame.resumes = [] := resumes_of_below (hstack ▸ hs.below ())
  have hwakes : rest.filterMap Frame.wakes = [] :=
    List.filterMap_eq_nil_iff.mpr fun g hg => (hbelow.1 g hg).wakes
  cases hr : f.resumes <;> cases hw : f.wakes <;> simp [readyLine, hstack, hresumes, hwakes, hr, hw]

/-- What an operation leaves of the line. -/
theorem OpStep.readyLine (h : OpStep s x op r) (hstack : (s.thread ()).stack = []) :
    readyLine (r.1.setStack () r.2) = readyLine s := by
  have hresumes : r.2.filterMap Frame.resumes = [] := List.filterMap_eq_nil_iff.mpr h.resumes
  have hwakes : r.2.filterMap Frame.wakes = [] := by
    refine List.filterMap_eq_nil_iff.mpr fun g hg => ?_
    cases g with
    | wake y => exact absurd hg h.not_wake
    | _ => rfl
  simp [RoundRobin.readyLine, hstack, hresumes, hwakes, h.queue]

/-- The line after a frame was executed in place. -/
theorem readyLine_frame (hs : Shape s) (hstack : (s.thread ()).stack = f :: rest) :
    readyLine (r.1.setStack () (r.2 ++ rest)) =
      r.2.filterMap Frame.resumes ++ (r.1.sched ()).queue ++ r.2.filterMap Frame.wakes := by
  have hbelow := List.pairwise_cons.mp (hstack ▸ hs.below ())
  have hresumes : rest.filterMap Frame.resumes = [] := resumes_of_below (hstack ▸ hs.below ())
  have hwakes : rest.filterMap Frame.wakes = [] :=
    List.filterMap_eq_nil_iff.mpr fun g hg => (hbelow.1 g hg).wakes
  simp [readyLine, List.filterMap_append, hresumes, hwakes]

/-- A notification adds the context that it takes out. -/
theorem readyLine_of_pop {q : WaitQueue Unit} (h : FrameStep s () x now f r) (hs : Shape s)
    (hstack : (s.thread ()).stack = f :: rest) (hpop : s.waits q = y :: r.1.waits q)
    (hf : f = .notifyOne q ∨ f = .notifyAll q) :
    readyLine (r.1.setStack () (r.2 ++ rest)) = readyLine s ++ [y] := by
  rw [readyLine_of_stack hs hstack, readyLine_frame hs hstack]
  rcases hf with rfl | rfl
  · cases h with
    | pop hf | popEmpty hf => simp at hf
    | notifyOneEmpty hempty => simp [hempty] at hpop
    | notifyOne hwaits =>
      obtain ⟨rfl, -⟩ := List.cons.inj (hwaits.symm.trans hpop)
      cases q <;>
        simp [WaitQueue.afterNotify, List.filterMap_cons, Frame.resumes, Frame.target, Frame.wakes]
  · cases h with
    | pop hf | popEmpty hf => simp at hf
    | notifyAllEmpty hempty => simp [hempty] at hpop
    | notifyAll hwaits =>
      obtain ⟨rfl, -⟩ := List.cons.inj (hwaits.symm.trans hpop)
      simp [List.filterMap_cons, Frame.resumes, Frame.target, Frame.wakes]

/-- What a frame does to the line: it moves the contexts in it on, adds one that joins for another reason,
or adds the one that a notification takes out of a wait queue. -/
theorem FrameStep.readyLine (h : FrameStep s () x now f r)
    (hpolicy : ∀ u, (s.sched u).policy = .roundRobin) (hs : Shape s)
    (hstack : (s.thread ()).stack = f :: rest) (hexit : ∀ u, f ≠ .exitTest u) :
    readyLine (r.1.setStack () (r.2 ++ rest)) = readyLine s ∨
      (∃ y, f.introduces = some y ∧ (readyLine (r.1.setStack () (r.2 ++ rest)) = readyLine s ++ [y] ∨
        readyLine (r.1.setStack () (r.2 ++ rest)) = y :: readyLine s)) ∨
      ∃ q y, s.waits q = y :: r.1.waits q ∧ (f = .notifyOne q ∨ f = .notifyAll q) ∧
        readyLine (r.1.setStack () (r.2 ++ rest)) = readyLine s ++ [y] := by
  by_cases hpop : ∃ q y, s.waits q = y :: r.1.waits q ∧ (f = .notifyOne q ∨ f = .notifyAll q)
  · obtain ⟨q, y, hwaits, hf⟩ := hpop
    exact .inr (.inr ⟨q, y, hwaits, hf, readyLine_of_pop h hs hstack hwaits hf⟩)
  rw [readyLine_of_stack hs hstack, readyLine_frame hs hstack]
  cases h with
  | @schedule u y hu | @scheduleOn u y =>
    refine .inr (.inl ⟨y, rfl, .inl ?_⟩)
    simp [schedule_roundRobin (hpolicy _), queuePush, Frame.resumes, Frame.target, Frame.wakes]
  | @wake u y hu =>
    left
    simp [schedule_roundRobin (hpolicy _), queuePush, Frame.resumes, Frame.target, Frame.wakes]
  | @attachResume u y k hu hmtx =>
    refine .inr (.inl ⟨y, rfl, .inr ?_⟩)
    simp [workerQueuePush, List.filterMap_cons, Frame.resumes, Frame.target, Frame.wakes]
  | @notifyOne q y queue hwaits | @notifyAll q y queue hwaits =>
    exact absurd ⟨q, y, by simpa using hwaits, by simp⟩ hpop
  | @pop f u k y queue hcase hqueue =>
    left
    rcases hcase with rfl | ⟨rfl, -⟩ <;>
      simp [List.filterMap_cons, Frame.resumes, Frame.target, Frame.wakes,
        show (s.sched ()).queue = y :: queue from hqueue]
  | @popEmpty f u hcase hqueue =>
    left
    rcases hcase with rfl | ⟨rfl, -⟩ <;>
      simp [List.filterMap_cons, Frame.resumes, Frame.target, Frame.wakes]
  | pickReady hshared | pickReadyEmpty hshared => simp [hpolicy] at hshared
  | exit hworkers | stay hworkers => simp at hexit
  | @save prev k stack hfctx =>
    left
    cases k <;> simp [Switch.onTop, List.filterMap_cons, Frame.resumes, Frame.target, Frame.wakes]
  | @relock q l p y hl =>
    left
    cases p <;> simp [relockNext, List.filterMap_cons, Frame.resumes, Frame.target, Frame.wakes]
  | @notifyOneEmpty q hwaits | @notifyAllEmpty q hwaits =>
    left
    cases q <;> simp [WaitQueue.afterNotify, List.filterMap_cons, Frame.resumes, Frame.target, Frame.wakes]
  | _ =>
    left
    simp [Lutask.iterate, Lutask.terminateRemove, Lutask.destroy, workerQueuePush, detachWorkerContext,
      workerQueueRemove, procTerminated, List.filterMap_cons, Frame.resumes, Frame.target, Frame.wakes]

/-- A frame that neither stays suspended nor waits for another one is at the top, and so it was added by
the step before. -/
theorem new_frame {g : Frame Unit} (hs : Shape s) (hstep : Lutask.step s e = some s')
    (hg : g ∈ (s'.thread ()).stack) (hsettled : g.isSettled = false) (houter : g.isOuter = false)
    (hsave : ∀ prev k, g ≠ .save prev k) :
    (∃ x op r, e = .call () x op ∧ OpStep s x op r ∧ s' = r.1.setStack () r.2 ∧ g ∈ r.2) ∨
      ∃ x f now rest r, e = .exec () x f now ∧ (s.thread ()).stack = f :: rest ∧
        FrameStep s () x now f r ∧ s' = r.1.setStack () (r.2 ++ rest) ∧ g ∈ r.2 := by
  rcases hs.frame_origin hstep hg hsettled hsave with ⟨hold, htail⟩ | hcall |
    ⟨x, f, now, rest, r, he, -, hstack, hframe, hs', hnew⟩
  · exfalso
    obtain ⟨f, rest, hstack⟩ := List.exists_cons_of_ne_nil (List.ne_nil_of_mem hold)
    have hbelow : g ∈ rest := by simpa [hstack] using htail rfl
    cases (List.pairwise_cons.mp (hstack ▸ hs.below ())).1 _ hbelow with
    | inl hgs => simp [hgs] at hsettled
    | inr hgo => simp [hgo.2] at houter
  · exact .inl hcall
  · exact .inr ⟨x, f, now, rest, r, he, hstack, hframe, hs', hnew⟩

end Line

/-- The events of one thread without sleepers, before `~Scheduler`. -/
def TakesTurns (e : Event Unit) : Prop :=
  e.keepsPlaces ∧ e.keepsOpen

instance (e : Event Unit) : Decidable (TakesTurns e) :=
  inferInstanceAs (Decidable (_ ∧ _))

/-- What is known of the waiting and the ready contexts in the runs of these events. -/
structure InTurn (s : State Unit) : Prop where
  orderly : Orderly s
  waiting : Waiting s
  suspension : Suspension s
  waitsWhere : WaitsWhere s
  policy : ∀ u, (s.sched u).policy = .roundRobin
  isOpen : (s.sched ()).shutdown = false
  introduced : ∀ f ∈ (s.thread ()).stack, ∀ y, f.introduces = some y →
    (s.ctx y).c ≠ none ∧ s.waitsIn y = none
  ready : ∀ y ∈ readyLine s, (s.ctx y).c ≠ none
  enlisted : Enlisted s

theorem InTurn.initial : InTurn (State.initial fun _ => .roundRobin) where
  orderly := Orderly.initial _
  waiting := Waiting.initial _
  suspension := Suspension.initial _
  waitsWhere q y h := by simp [State.initial] at h
  policy u := rfl
  isOpen := rfl
  introduced f h := by simp [State.initial] at h
  ready y h := by
    obtain rfl : y = .dispatcher () := by simpa [readyLine, State.initial] using h
    simp [State.initial, Context.initial]
  enlisted := Enlisted.initial _

namespace InTurn

variable {s s' : State Unit} {x y : Ctx Unit} {now : ℕ} {f : Frame Unit} {e : Event Unit}
  {rest : List (Frame Unit)}

/-- A context that waits is saved while a notification is at the top of the stack. -/
theorem saved (h : InTurn s) {q : WaitQueue Unit} (hy : y ∈ s.waits q)
    (hstack : (s.thread ()).stack = f :: rest) (hf : f.carried = none) : (s.ctx y).c ≠ none := by
  refine h.waiting.saved h.orderly (State.away_of_waits hy) fun t hbusy => ?_
  obtain ⟨g, below, htop, hcarried⟩ := h.waiting.leaving q y t hy hbusy
  obtain ⟨rfl, -⟩ := List.cons.inj (hstack.symm.trans htop)
  simp [hf] at hcarried

/-- `Dispatch` does not leave its loop. -/
theorem not_exit (h : InTurn s) (hf : f ∈ (s.thread ()).stack) (u : Unit) : f ≠ .exitTest u := by
  rintro rfl
  have hshut := h.orderly.placed.closing.shutdown () (.exitTest u) u hf rfl
  simp [h.isOpen] at hshut

theorem introduced_step (h : InTurn s) (he : TakesTurns e) (hstep : Lutask.step s e = some s') :
    ∀ f ∈ (s'.thread ()).stack, ∀ y, f.introduces = some y →
      (s'.ctx y).c ≠ none ∧ s'.waitsIn y = none := by
  intro g hg y hy
  have hs := h.orderly.shape
  have hkind : g.isSettled = false ∧ g.isOuter = false ∧ ∀ prev k, g ≠ .save prev k := by
    cases g <;> simp [Frame.introduces] at hy <;> simp [Frame.isSettled, Frame.isOuter]
  rcases new_frame hs hstep hg hkind.1 hkind.2.1 hkind.2.2 with ⟨x, op, r, rfl, hop, rfl, hnew⟩ |
    ⟨x, f, now, rest, r, rfl, hstack, hframe, rfl, hnew⟩
  · have hc : (r.1.ctx y).c = some [] := hop.introduces he.1 g hnew y hy
    simp [State.waitsIn, hc, Lutask.waitsIn]
  · rcases hframe.introduces h.policy h.orderly.placed.awake g hnew y hy with rfl | ⟨prev, rfl⟩
    · have hold := h.introduced (.postAttach y) (by simp [hstack]) y rfl
      have hsame : ((r.1.setStack () (r.2 ++ rest)).ctx y).c = (s.ctx y).c :=
        (hframe.c y).resolve_right (by simp)
      rw [State.waitsIn_congr hsame, hsame]
      exact hold
    · obtain ⟨hactive, -⟩ := step_exec hstep
      obtain rfl : y = prev := hs.frames () x hactive (.save prev (.resumeReady y)) (by simp [hstack])
      exact h.suspension.save hstack hframe _

/-- All switches are to contexts that `PickNext` or `_Start` has chosen. -/
theorem resume_of_target (h : InTurn s) {k : Switch Unit} (hf : f ∈ (s.thread ()).stack)
    (htarget : f.target = some (y, k)) : f = .resume y k := by
  cases f with
  | resume z k' =>
    obtain ⟨rfl, rfl⟩ : z = y ∧ k' = k := by simpa [Frame.target] using htarget
    rfl
  | returnToMain u =>
    have hshut := h.orderly.placed.closing.shutdown () (.returnToMain u) u hf rfl
    simp [h.isOpen] at hshut
  | _ => simp [Frame.target] at htarget

/-- The target of a switch is the first of the line, and it is not in the line any more afterwards. -/
theorem readyLine_switch (h : InTurn s) {k : Switch Unit} {stack : List (Frame Unit)}
    (hstack : (s.thread ()).stack = f :: rest) (htarget : f.target = some (y, k))
    (hc : (s.ctx y).c = some stack) :
    readyLine s = y :: readyLine (switched s () x rest y k stack) ∧
      y ∉ readyLine (switched s () x rest y k stack) := by
  have hs := h.orderly.shape
  obtain rfl := h.resume_of_target (by simp [hstack]) htarget
  have hsettled : ∀ g ∈ stack, g.isSettled := fun g hg => (hs.suspended y stack hc g hg).1
  have hresumes : stack.filterMap Frame.resumes = [] :=
    resumes_of_below (pairwise_of_settled (f := .save x k) hsettled)
  have hwakes : stack.filterMap Frame.wakes = [] := by
    refine List.filterMap_eq_nil_iff.mpr fun g hg => ?_
    have hgs := hsettled g hg
    cases g <;> simp [Frame.isSettled] at hgs <;> rfl
  have hafter : readyLine (switched s () x rest y k stack) = (s.sched ()).queue := by
    simp [readyLine, switched, List.filterMap_cons, hresumes, hwakes, Frame.resumes, Frame.target,
      Frame.wakes]
  rw [hafter, readyLine_of_stack hs hstack]
  refine ⟨by simp [Frame.resumes, Frame.target, Frame.wakes], ?_⟩
  have hfree := h.orderly.placed.held_free (f := .resume y k) (t := ()) (by simp [hstack]) rfl (.queue ())
  exact List.count_eq_zero.mp hfree

/-- Whoever is in the line after a frame was saved before. -/
theorem ready_before {r : Rest Unit} (h : InTurn s) (hstack : (s.thread ()).stack = f :: rest)
    (hframe : FrameStep s () x now f r) (hy : y ∈ readyLine (r.1.setStack () (r.2 ++ rest))) :
    (s.ctx y).c ≠ none := by
  have hmem : f ∈ (s.thread ()).stack := by simp [hstack]
  rcases FrameStep.readyLine hframe h.policy h.orderly.shape hstack (h.not_exit hmem) with hsame |
    ⟨z, hz, hpush⟩ | ⟨q, z, hpop, hf, hpush⟩
  · exact h.ready y (hsame ▸ hy)
  · have hcases : y = z ∨ y ∈ readyLine s := by
      cases hpush with
      | inl hback => simpa [hback, or_comm] using hy
      | inr hfront => simpa [hfront] using hy
    cases hcases with
    | inl hnew => exact hnew ▸ (h.introduced f hmem z hz).1
    | inr hold => exact h.ready y hold
  · have hcases : y ∈ readyLine s ∨ y = z := by simpa [hpush] using hy
    cases hcases with
    | inl hold => exact h.ready y hold
    | inr hnew =>
      have hwaits : z ∈ s.waits q := by simp [hpop]
      have hcarried : f.carried = none := by rcases hf with rfl | rfl <;> rfl
      exact hnew ▸ h.saved hwaits hstack hcarried

/-- The context that `save` stores is still running, so no saved context goes on elsewhere. -/
theorem waitsIn_frame {r : Rest Unit} (h : InTurn s) (hstack : (s.thread ()).stack = f :: rest)
    (hframe : FrameStep s () x now f r) (hy : (s.ctx y).c ≠ none) (stack : List (Frame Unit)) :
    (r.1.setStack () stack).waitsIn y = s.waitsIn y := by
  refine (hframe.waitsIn stack y).resolve_right fun hsave => ?_
  obtain ⟨k, rfl⟩ := hsave
  exact hy (h.orderly.continued.busy () y (.inr ⟨k, rest, hstack⟩)).2

theorem ready_step (h : InTurn s) (hstep : Lutask.step s e = some s') :
    ∀ y ∈ readyLine s', (s'.ctx y).c ≠ none := by
  intro y hy
  cases step_inv hstep with
  | @call t x op r hactive hstack huser hop =>
    rw [OpStep.readyLine hop hstack] at hy
    rcases hop.c y with hsame | ⟨-, -, hnew⟩
    · simpa [hsame] using h.ready y hy
    · simp [hnew]
  | @frame t x f now rest r hactive hstack hframe =>
    have hsaved := h.ready_before hstack hframe hy
    rcases hframe.c y with hsame | ⟨k, -, hfctx, hnew⟩
    · simpa [hsame] using hsaved
    · simpa [hnew] using hfctx
  | @switch t x z f k now rest stack hactive hstack htarget hc =>
    obtain ⟨hline, hfree⟩ := h.readyLine_switch (x := x) hstack htarget hc
    have hne : y ≠ z := by
      rintro rfl
      exact hfree hy
    simpa [switched, hne] using h.ready y (by simp [hline, hy])

theorem step (h : InTurn s) (he : TakesTurns e) (hstep : Lutask.step s e = some s') : InTurn s' where
  orderly := h.orderly.step he.1 hstep
  waiting := h.waiting.step h.orderly hstep
  suspension := h.suspension.step h.orderly.shape hstep
  waitsWhere := h.waitsWhere.step h.orderly h.waiting h.suspension hstep
  policy u := (step_policy hstep u).trans (h.policy u)
  isOpen := step_open h.isOpen he.2 hstep
  introduced := h.introduced_step he hstep
  ready := h.ready_step hstep
  enlisted := h.enlisted.step h.orderly.shape he.1 hstep

end InTurn

end RoundRobin

end Lutask
