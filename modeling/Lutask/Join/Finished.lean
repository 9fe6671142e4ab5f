import Lutask.Machine.Enlisted
import Lutask.RoundRobin.SinglePlace

/-!
# Join on one round-robin thread

`Context::Join` suspends once and does not test `terminated_` again. On one round-robin thread this is
enough: nothing but the `NotifyAll` of the joined worker makes a joiner ready, no joiner is between its
test and its push while that loop runs, and the loop makes the joiners ready in the order in which they
joined. The runs are those without sleepers and Async fibers; `~Scheduler` may be called.
-/

namespace Lutask

open LabelledRuns TokenPlacement

variable {T : Type*}

/-- The context that calls `Join` on `w` in an event. -/
def Event.joinerOf [DecidableEq T] (w : Ctx T) : Event T → Option (Ctx T)
  | .call _ x (.join w') => if w' = w then some x else none
  | _ => none

/-- The contexts that called `Join` on `w`, in the order of their calls. -/
def joinCalls [DecidableEq T] (w : Ctx T) (events : List (Event T)) : List (Ctx T) :=
  events.filterMap (Event.joinerOf w)

/-- The context that is about to push itself onto the `waitList_` of `w`. -/
def Frame.joinerOf [DecidableEq T] (w : Ctx T) : Frame T → Option (Ctx T)
  | .suspendAndWait (.waitList w') x => if w' = w then some x else none
  | _ => none

section Joiners

variable [DecidableEq T] {s s' : State T} {t : T} {x y w : Ctx T} {now : ℕ} {f : Frame T} {e : Event T}
  {op : Op T} {r : Rest T}

@[simp] theorem joinCalls_append (w : Ctx T) (before after : List (Event T)) :
    joinCalls w (before ++ after) = joinCalls w before ++ joinCalls w after :=
  List.filterMap_append

/-- A joiner is on its way to the `waitList_` of the context that it joins. -/
theorem Frame.joins_of_joinerOf (h : f.joinerOf w = some x) : f = .suspendAndWait (.waitList w) x := by
  cases f with
  | suspendAndWait q y =>
    cases q with
    | cv q => simp [Frame.joinerOf] at h
    | waitList w' =>
      simp only [Frame.joinerOf, Option.ite_none_right_eq_some, Option.some.injEq] at h
      obtain ⟨rfl, rfl⟩ := h
      rfl
  | _ => simp [Frame.joinerOf] at h

theorem Frame.joinerOf_eq_none (h : f.joins ≠ some w) : f.joinerOf w = none := by
  cases hf : f.joinerOf w with
  | none => rfl
  | some x =>
    obtain rfl := Frame.joins_of_joinerOf hf
    simp [Frame.joins] at h

/-- Only a call of `Join` on `w`, before `w` has terminated, starts on the way to its `waitList_`. -/
theorem OpStep.joinerOf (h : OpStep s x op r) (t : T) (hterm : (s.ctx w).terminated = false) :
    r.2.filterMap (Frame.joinerOf w) = joinCalls w [.call t x op] := by
  by_cases hjoin : op = .join w
  · subst hjoin
    cases h with
    | joinReturn hstarted hpin hterm' => simp [hterm] at hterm'
    | join hstarted hpin hterm' => simp [joinCalls, Event.joinerOf, Frame.joinerOf]
  · have hframes : ∀ f ∈ r.2, f.joinerOf w = none := fun f hf =>
      Frame.joinerOf_eq_none fun hw => hjoin (h.joins hf hw).1
    have hcall : Event.joinerOf w (.call t x op) = none := by
      cases op with
      | join w' => simpa [Event.joinerOf] using hjoin
      | _ => rfl
    rw [List.filterMap_eq_nil_iff.mpr hframes]
    simp [joinCalls, hcall]

/-- Nobody starts on the way to the `waitList_` of a terminated context. -/
theorem OpStep.joinerOf_terminated (h : OpStep s x op r) (hterm : (s.ctx w).terminated) :
    ∀ f ∈ r.2, f.joinerOf w = none := fun f hf =>
  Frame.joinerOf_eq_none fun hw => by simp [(h.joins hf hw).2] at hterm

/-- A context that is not terminated after a step was not before. -/
theorem Orderly.open_before (h : Orderly s) (hstep : Lutask.step s e = some s')
    (hopen : (s'.ctx y).terminated = false) : (s.ctx y).terminated = false := by
  cases hterm : (s.ctx y).terminated with
  | false => rfl
  | true =>
    exact absurd (step_terminated hstep (h.placed.started_of_terminated hterm) hterm) (by simp [hopen])

/-- A context in its own code has not terminated. -/
theorem Orderly.not_terminated (h : Orderly s) (hactive : (s.thread t).active = some x)
    (hstack : (s.thread t).stack = []) : (s.ctx x).terminated = false := by
  simpa [State.slot] using h.placed.active_free hactive (by simp [hstack]) .terminated

end Joiners

namespace RoundRobin

variable {s s' : State Unit} {x y w : Ctx Unit} {events : List (Event Unit)} {e : Event Unit}

/-- The contexts that are about to push themselves onto the `waitList_` of `w`. -/
def pendingJoiners (w : Ctx Unit) (s : State Unit) : List (Ctx Unit) :=
  (s.thread ()).stack.filterMap (Frame.joinerOf w)

/-- Until `w` terminates, all who joined it wait for it, in the order of their calls. From the end of its
`NotifyAll` on nobody does. -/
structure Joining (w : Ctx Unit) (events : List (Event Unit)) (s : State Unit) : Prop where
  noNotifyOne : .notifyOne (.waitList w) ∉ (s.thread ()).stack
  notifyAll : .notifyAll (.waitList w) ∈ (s.thread ()).stack → (s.ctx w).terminated
  waiting : (s.ctx w).terminated = false →
    s.waits (.waitList w) ++ pendingJoiners w s = joinCalls w events
  pending : (s.ctx w).terminated → pendingJoiners w s = []
  served : (s.ctx w).terminated → .notifyAll (.waitList w) ∉ (s.thread ()).stack →
    s.waits (.waitList w) = []

theorem Joining.initial (w : Ctx Unit) : Joining w [] (State.initial fun _ => .roundRobin) where
  noNotifyOne := by simp [State.initial]
  notifyAll := by simp [State.initial]
  waiting _ := by simp [State.initial, pendingJoiners, joinCalls]
  pending _ := by simp [State.initial, pendingJoiners]
  served _ _ := rfl

/-- A call keeps the invariant: its first action writes no wait queue, and the stack was empty. -/
theorem Joining.call {op : Op Unit} {r : Rest Unit} (h : Joining w events s) (ho : Orderly s)
    (hactive : (s.thread ()).active = some x) (hstack : (s.thread ()).stack = [])
    (hop : OpStep s x op r) (hstep : step s (.call () x op) = some (r.1.setStack () r.2)) :
    Joining w (events ++ [.call () x op]) (r.1.setStack () r.2) := by
  have hpending : pendingJoiners w s = [] := by simp [pendingJoiners, hstack]
  have hframes : ((r.1.setStack () r.2).thread ()).stack = r.2 := by simp
  have hwaits : (r.1.setStack () r.2).waits = s.waits := hop.waits
  refine ⟨?_, fun hmem => ?_, fun hopen => ?_, fun hterm => ?_, fun hterm hdone => ?_⟩
  · rw [hframes]
    exact hop.notifies.1
  · obtain ⟨rfl, rfl⟩ := hop.notifies.2 (hframes ▸ hmem)
    cases hop with
    | terminate hpin => simp [Lutask.terminate]
  · have hbefore := ho.open_before hstep hopen
    have hold := h.waiting hbefore
    rw [hpending, List.append_nil] at hold
    rw [hwaits, hold, pendingJoiners, hframes, hop.joinerOf () hbefore, joinCalls_append]
  · rw [pendingJoiners, hframes]
    refine List.filterMap_eq_nil_iff.mpr fun f hf => ?_
    cases step_terminates hstep hterm with
    | inl hbefore => exact hop.joinerOf_terminated hbefore f hf
    | inr hnew =>
      obtain ⟨t, hcall⟩ := hnew
      obtain ⟨-, -, rfl⟩ : t = () ∧ x = w ∧ op = .terminate := by simpa using hcall
      refine Frame.joinerOf_eq_none fun hw => ?_
      simpa using (hop.joins hf hw).1
  · rw [hwaits]
    cases step_terminates hstep hterm with
    | inl hbefore => exact h.served hbefore (by simp [hstack])
    | inr hnew =>
      obtain ⟨t, hcall⟩ := hnew
      obtain ⟨-, rfl, rfl⟩ : t = () ∧ x = w ∧ op = .terminate := by simpa using hcall
      cases hop with
      | terminate hpin => exact absurd (by simp [Lutask.terminate]) hdone

/-- A frame keeps the invariant: it pushes a joiner, pops one for the loop of `NotifyAll`, or leaves the
`waitList_` alone. -/
theorem Joining.frame {f : Frame Unit} {now : ℕ} {rest : List (Frame Unit)} {r : Rest Unit}
    (h : Joining w events s) (hs : Shape s) (hstack : (s.thread ()).stack = f :: rest)
    (hframe : FrameStep s () x now f r)
    (hstep : step s (.exec () x f now) = some (r.1.setStack () (r.2 ++ rest))) :
    Joining w (events ++ [.exec () x f now]) (r.1.setStack () (r.2 ++ rest)) := by
  have hframes : ((r.1.setStack () (r.2 ++ rest)).thread ()).stack = r.2 ++ rest := by simp
  have hterm : ((r.1.setStack () (r.2 ++ rest)).ctx w).terminated = (s.ctx w).terminated :=
    hframe.terminated w
  have hqueue : (r.1.setStack () (r.2 ++ rest)).waits = r.1.waits := rfl
  have hnone : r.2.filterMap (Frame.joinerOf w) = [] :=
    List.filterMap_eq_nil_iff.mpr fun g hg => Frame.joinerOf_eq_none (by simp [hframe.joins g hg])
  have hcalls : joinCalls w (events ++ [.exec () x f now]) = joinCalls w events := by
    simp [joinCalls, Event.joinerOf]
  have hpending : pendingJoiners w s =
      (f.joinerOf w).toList ++ pendingJoiners w (r.1.setStack () (r.2 ++ rest)) := by
    rw [pendingJoiners, pendingJoiners, hstack, hframes, List.filterMap_append, hnone]
    cases hf : f.joinerOf w <;> simp [hf]
  refine ⟨?_, fun hmem => ?_, fun hopen => ?_, fun hclosed => ?_, fun hclosed hdone => ?_⟩
  · rw [hframes, List.mem_append]
    rintro (hnew | hbelow)
    · exact hframe.notifies.1 hnew
    · exact h.noNotifyOne (by simp [hstack, hbelow])
  · rw [hterm]
    rw [hframes, List.mem_append] at hmem
    cases hmem with
    | inl hnew => exact h.notifyAll (by simp [hstack, hframe.notifies.2 hnew])
    | inr hbelow => exact h.notifyAll (by simp [hstack, hbelow])
  · rw [hterm] at hopen
    rw [hcalls, ← h.waiting hopen, hpending, hqueue]
    rcases hframe.waits_cases (.waitList w) with hsame | ⟨y, rfl, hpush⟩ | ⟨y, -, hnotify⟩
    · have hf : f.joinerOf w = none := by
        by_contra hsome
        obtain ⟨y, hy⟩ := Option.ne_none_iff_exists'.mp hsome
        obtain rfl := Frame.joins_of_joinerOf hy
        cases hframe with
        | pop hf | popEmpty hf => simp at hf
        | suspendAndWait => simp at hsame
      rw [hsame, hf, Option.toList_none, List.nil_append]
    · rw [hpush]
      simp [Frame.joinerOf]
    · rcases hnotify with ⟨rfl, -⟩ | ⟨rfl, -⟩
      · exact absurd (by simp [hstack]) h.noNotifyOne
      · simp [h.notifyAll (by simp [hstack])] at hopen
  · rw [hterm] at hclosed
    exact (List.append_eq_nil_iff.mp (hpending ▸ h.pending hclosed)).2
  · rw [hterm] at hclosed
    by_cases hin : .notifyAll (.waitList w) ∈ (s.thread ()).stack
    · obtain ⟨hempty, -, below, htop⟩ := (step_notifyAll hs hstep hin).resolve_left hdone
      obtain ⟨rfl, rfl⟩ := List.cons.inj (hstack.symm.trans htop)
      rw [hqueue]
      cases hframe with
      | pop hf | popEmpty hf => simp at hf
      | notifyAll hwaits => simp [hempty] at hwaits
      | notifyAllEmpty hwaits => exact hempty
    · have hempty := h.served hclosed hin
      rw [hqueue]
      rcases hframe.waits_cases (.waitList w) with hsame | ⟨y, rfl, -⟩ | ⟨y, hpop, -⟩
      · rw [hsame, hempty]
      · have hnot := h.pending hclosed
        simp [hpending, Frame.joinerOf] at hnot
      · simp [hempty] at hpop

/-- Every step keeps the invariant. -/
theorem Joining.step (h : Joining w events s) (ho : Orderly s) (hstep : Lutask.step s e = some s') :
    Joining w (events ++ [e]) s' := by
  cases step_inv hstep with
  | call hactive hstack huser hop => exact h.call ho hactive hstack hop hstep
  | frame hactive hstack hframe => exact h.frame ho.shape hstack hframe hstep
  | @switch t x y f k now rest stack hactive hstack htarget hc =>
    obtain ⟨hinner, -⟩ := Frame.of_target htarget (ho.shape.frames t x hactive f (by simp [hstack]))
    have hrest : ∀ g ∈ rest, g.isSettled :=
      settled_of_pairwise (hstack ▸ ho.shape.below t) hinner
    have hsettled : ∀ g : Frame Unit, g.isSettled → g.joinerOf w = none := fun g hg => by
      cases g <;> simp [Frame.isSettled] at hg <;> rfl
    have hframes : ((switched s t x rest y k stack).thread ()).stack = .save x k :: stack := by
      simp [switched]
    have hnot : ∀ g, g.isSettled = false → (∀ z k, g ≠ .save z k) →
        g ∉ ((switched s t x rest y k stack).thread ()).stack := by
      intro g hg hsave hmem
      cases List.mem_cons.mp (hframes ▸ hmem) with
      | inl htop => exact hsave x k htop
      | inr hbelow => simp [(ho.shape.suspended y stack hc g hbelow).1] at hg
    have hpending : pendingJoiners w s = [] := by
      rw [pendingJoiners, hstack]
      refine List.filterMap_eq_nil_iff.mpr fun g hg => ?_
      cases List.mem_cons.mp hg with
      | inl htop => subst htop; cases g <;> simp [Frame.target] at htarget <;> rfl
      | inr hbelow => exact hsettled g (hrest g hbelow)
    have hpending' : pendingJoiners w (switched s t x rest y k stack) = [] := by
      rw [pendingJoiners, hframes]
      refine List.filterMap_eq_nil_iff.mpr fun g hg => ?_
      cases List.mem_cons.mp hg with
      | inl htop => subst htop; rfl
      | inr hbelow => exact hsettled g (ho.shape.suspended y stack hc g hbelow).1
    have hterm := switched_terminated s t x rest y k stack w
    have hcalls : joinCalls w (events ++ [.exec t x f now]) = joinCalls w events := by
      simp [joinCalls, Event.joinerOf]
    refine ⟨hnot _ rfl (by simp), fun hmem => absurd hmem (hnot _ rfl (by simp)), fun hopen => ?_,
      fun _ => hpending', fun hclosed _ => h.served (hterm ▸ hclosed) ?_⟩
    · rw [hpending', hcalls, ← h.waiting (hterm ▸ hopen), hpending]
      rfl
    · rw [hstack]
      intro hmem
      cases List.mem_cons.mp hmem with
      | inl htop => simp [← htop, Frame.target] at htarget
      | inr hbelow => simpa [Frame.isSettled] using hrest _ hbelow

/-- The runs of one round-robin thread without sleepers and Async fibers. -/
abbrev ServedRuns (events : List (Event Unit)) (s : State Unit) : Prop :=
  Runs (fun _ => .roundRobin) (fun _ => Served) events s

/-- `w` is in the loop of its `NotifyAll`: the joiners `woken` have been made ready, the others wait, but
for the one that is about to be made ready. -/
def Notifying (w : Ctx Unit) (queue joiners : List (Ctx Unit)) (s : State Unit) : Prop :=
  ∃ woken waiting, joiners = woken ++ waiting ∧ (s.sched ()).queue = queue ++ woken ∧
    (s.waits (.waitList w) = waiting ∧
        (s.thread ()).stack = [.notifyAll (.waitList w), .schedulerTerminate w] ∨
      ∃ y, waiting = y :: s.waits (.waitList w) ∧
        (s.thread ()).stack = [.wake y, .notifyAll (.waitList w), .schedulerTerminate w])

/-- `w` has made its joiners ready, one after the other, and nobody waits for it. -/
def Notified (w : Ctx Unit) (queue joiners : List (Ctx Unit)) (s : State Unit) : Prop :=
  (s.sched ()).queue = queue ++ joiners ∧ s.waits (.waitList w) = [] ∧
    (s.thread ()).stack = [.schedulerTerminate w]

/-- The loop of `NotifyAll` makes the joiners ready in their order and then ends. -/
theorem Notifying.step {queue joiners : List (Ctx Unit)} (h : Notifying w queue joiners s)
    (hl : StaysLocal s) (hstep : Lutask.step s e = some s') :
    Notifying w queue joiners s' ∨ Notified w queue joiners s' := by
  obtain ⟨woken, waiting, rfl, hqueue, hcase⟩ := h
  rcases hcase with ⟨hwaits, hstack⟩ | ⟨y, rfl, hstack⟩
  · obtain ⟨x, now, rfl, hactive, ⟨r, hframe, rfl⟩ | ⟨z, k, stack, htarget, -⟩⟩ :=
      step_top (t := ()) hstep rfl hstack
    · cases hframe with
      | pop hf | popEmpty hf => simp at hf
      | @notifyAll q y rest hpop =>
        refine .inl ⟨woken, waiting, rfl, hqueue, .inr ⟨y, ?_, by simp⟩⟩
        rw [← hwaits, hpop]
        simp
      | notifyAllEmpty hempty =>
        obtain rfl : [] = waiting := hempty.symm.trans hwaits
        exact .inr ⟨by simpa using hqueue, hempty, by simp [WaitQueue.afterNotify]⟩
    · simp [Frame.target] at htarget
  · obtain ⟨x, now, rfl, hactive, ⟨r, hframe, rfl⟩ | ⟨z, k, stack, htarget, -⟩⟩ :=
      step_top (t := ()) hstep rfl hstack
    · cases hframe with
      | pop hf | popEmpty hf => simp at hf
      | @wake u z hu =>
        have hr := schedule_roundRobin (hl.policy u) y
        refine .inl ⟨woken ++ [y], s.waits (.waitList w), by simp, ?_, .inl ⟨?_, ?_⟩⟩
        · simp [hr, queuePush, hqueue]
        · simp [hr, queuePush]
        · simp [hr]
    · simp [Frame.target] at htarget

/-- The invariants of the runs of one round-robin thread, with the joiners of one context. -/
structure Joinable (w : Ctx Unit) (events : List (Event Unit)) (s : State Unit) : Prop where
  orderly : Orderly s
  waiting : Waiting s
  isLocal : StaysLocal s
  enlisted : Enlisted s
  joining : Joining w events s

theorem Joinable.step (h : Joinable w events s) (he : Served e)
    (hstep : Lutask.step s e = some s') : Joinable w (events ++ [e]) s' where
  orderly := h.orderly.step he.1 hstep
  waiting := h.waiting.step h.orderly hstep
  isLocal := h.isLocal.step h.orderly.shape he.2 hstep
  enlisted := h.enlisted.step h.orderly.shape he.1 hstep
  joining := h.joining.step h.orderly hstep

theorem ServedRuns.joinable (h : ServedRuns events s) (w : Ctx Unit) : Joinable w events s :=
  Run.invariant_labels h ⟨Orderly.initial _, Waiting.initial _, StaysLocal.initial,
    Enlisted.initial _, Joining.initial w⟩ fun _ _ _ _ hs he hstep => hs.step he hstep

/-- A joiner in its own code has left the wait queue, so its target has terminated. -/
theorem Joinable.returned (h : Joinable w events s) (hx : x ∈ joinCalls w events)
    (hactive : (s.thread ()).active = some x) (hstack : (s.thread ()).stack = []) :
    (s.ctx w).terminated := by
  by_contra hopen
  have hwaits := h.joining.waiting (by simpa using hopen)
  rw [pendingJoiners, hstack, List.filterMap_nil, List.append_nil] at hwaits
  obtain ⟨f, rest, htop, -⟩ := h.waiting.leaving (.waitList w) x () (hwaits ▸ hx) (.inl hactive)
  simp [hstack] at htop

/-- Until its target terminates, a joiner waits for it or is about to. -/
theorem Joinable.suspended (h : Joinable w events s) (hx : x ∈ joinCalls w events)
    (hopen : (s.ctx w).terminated = false) :
    x ∈ s.waits (.waitList w) ∨ .suspendAndWait (.waitList w) x ∈ (s.thread ()).stack := by
  rw [← h.joining.waiting hopen, List.mem_append] at hx
  refine hx.imp_right fun hpending => ?_
  obtain ⟨f, hf, hjoiner⟩ := List.mem_filterMap.mp hpending
  exact Frame.joins_of_joinerOf hjoiner ▸ hf

/-- The call of `Terminate` finds everybody who joined in the `waitList_`, and its loop begins. -/
theorem Joinable.notifying (h : Joinable w events s)
    (hstep : Lutask.step s (.call () w .terminate) = some s') :
    s.waits (.waitList w) = joinCalls w events ∧ (s'.ctx w).terminated ∧
      Notifying w (s.sched ()).queue (joinCalls w events) s' := by
  obtain ⟨hactive, hstack, r, hop, rfl⟩ := step_call hstep
  have hwaits : s.waits (.waitList w) = joinCalls w events := by
    have hopen := h.joining.waiting (h.orderly.not_terminated hactive hstack)
    rwa [pendingJoiners, hstack, List.filterMap_nil, List.append_nil] at hopen
  refine ⟨hwaits, ?_, [], joinCalls w events, rfl, ?_, .inl ⟨?_, ?_⟩⟩
  · cases hop with
    | terminate hpin => simp [Lutask.terminate]
  · simpa using hop.queue ()
  · exact hop.waits ▸ hwaits
  · cases hop with
    | terminate hpin => simp [Lutask.terminate]

/-- A context that has notified its joiners stays terminated and does so never again. -/
def Retired (w : Ctx Unit) (s : State Unit) : Prop :=
  (s.ctx w).terminated ∧ .notifyAll (.waitList w) ∉ (s.thread ()).stack

theorem Retired.step (h : Retired w s) (ho : Orderly s) (hstep : Lutask.step s e = some s') :
    Retired w s' := by
  refine ⟨step_terminated hstep (ho.placed.started_of_terminated h.1) h.1, fun hmem => h.2 ?_⟩
  refine (ho.shape.frame_origin hstep hmem rfl (by simp)).elim And.left fun hnew => ?_
  rcases hnew with ⟨x, op, r, rfl, hop, -, hr⟩ | ⟨x, f, now, rest, r, -, -, hstack, hframe, -, hr⟩
  · obtain ⟨rfl, rfl⟩ := hop.notifies.2 hr
    obtain ⟨hactive, hstack, -⟩ := step_call hstep
    have hclosed := h.1
    simp [ho.not_terminated hactive hstack] at hclosed
  · simp [hstack, hframe.notifies.2 hr]

/-- Once the joiners of `w` were notified nobody waits for it, also if it is joined again. -/
theorem Joinable.stays_empty {later : List (Event Unit)} (h : Joinable w events s) (hw : Retired w s)
    (hrun : Run Lutask.step (fun _ => Served) s later s') : s'.waits (.waitList w) = [] := by
  have hlast := Run.invariant_labels (I := fun later s => Joinable w (events ++ later) s ∧ Retired w s)
    hrun ⟨by simpa using h, hw⟩ fun later s e s' hs he hstep =>
      ⟨by simpa using hs.1.step he hstep, hs.2.step hs.1.orderly hstep⟩
  exact hlast.1.joining.served hlast.2.1 hlast.2.2

/-- Executing a frame is allowed. -/
theorem served_exec (x : Ctx Unit) (f : Frame Unit) (now : ℕ) : Served (.exec () x f now) :=
  ⟨trivial, trivial⟩

/-- Waking a context on a round-robin thread appends it to the ready queue. -/
theorem step_of_wake {rest : List (Frame Unit)} (hl : StaysLocal s)
    (hactive : (s.thread ()).active = some x) (hstack : (s.thread ()).stack = .wake y :: rest)
    (hy : (s.ctx y).scheduler = some ()) :
    Lutask.step s (.exec () x (.wake y) 0) = some ((queuePush s () y).setStack () rest) := by
  refine step_of_execFrame (r := (queuePush s () y, [])) hactive hstack rfl ?_
  simp [execFrame, hy, schedule_roundRobin (hl.policy ()) y]

/-- The loop of `NotifyAll` runs to its end and appends all waiting contexts to the ready queue. -/
theorem notifyAll_completes {q : WaitQueue Unit} {rest : List (Frame Unit)} {waiting : List (Ctx Unit)}
    (hs : Shape s) (hl : StaysLocal s) (hactive : (s.thread ()).active = some x)
    (hstack : (s.thread ()).stack = .notifyAll q :: rest) (hwaits : s.waits q = waiting)
    (hy : ∀ y ∈ waiting, (s.ctx y).scheduler = some ()) :
    ∃ later s', Run Lutask.step (fun _ => Served) s later s' ∧
      (s'.sched ()).queue = (s.sched ()).queue ++ waiting ∧ s'.waits q = [] ∧
        (s'.thread ()).stack = q.afterNotify ++ rest := by
  induction waiting generalizing s with
  | nil =>
    have hstep : Lutask.step s (.exec () x (.notifyAll q) 0) =
        some (s.setStack () (q.afterNotify ++ rest)) :=
      step_of_execFrame (r := (s, q.afterNotify)) hactive hstack rfl
        (by simp [execFrame, notifyAll, hwaits])
    exact ⟨_, _, Run.snoc .nil (served_exec _ _ _) hstep, by simp, hwaits, by simp⟩
  | cons y waiting ih =>
    have hpop : Lutask.step s (.exec () x (.notifyAll q) 0) =
        some ((s.setWaits q waiting).setStack () (.wake y :: .notifyAll q :: rest)) :=
      step_of_execFrame (r := (s.setWaits q waiting, [.wake y, .notifyAll q])) hactive hstack rfl
        (by simp [execFrame, notifyAll, hwaits])
    have hl₁ := hl.step hs (served_exec _ _ _).2 hpop
    have hpush :=
      step_of_wake (x := x) (y := y) hl₁ (by simpa using hactive) (by simp; rfl) (by simpa using hy y)
    obtain ⟨later, s', hrun, hqueue, hempty, hstack'⟩ :=
      ih ((hs.step hpop).step hpush) (hl₁.step (hs.step hpop) (served_exec _ _ _).2 hpush)
        (by simpa [queuePush] using hactive) (by simp) (by simp [queuePush])
        (fun z hz => by simpa [queuePush] using hy z (List.mem_cons_of_mem y hz))
    have hfirst : Run Lutask.step (fun _ => Served) s ([] ++ [.exec () x (.notifyAll q) 0]) _ :=
      .snoc .nil (served_exec x (.notifyAll q) 0) hpop
    exact ⟨_, s', (hfirst.snoc (served_exec x (.wake y) 0) hpush).append hrun,
      by simpa [queuePush] using hqueue, hempty, hstack'⟩

/-- The loop of `NotifyAll` is executed by the context that terminates. -/
theorem Notifying.active {queue joiners : List (Ctx Unit)} (h : Notifying w queue joiners s)
    (hs : Shape s) : (s.thread ()).active = some w := by
  have hmem : .schedulerTerminate w ∈ (s.thread ()).stack := by
    obtain ⟨-, -, -, -, ⟨-, hstack⟩ | ⟨y, -, hstack⟩⟩ := h <;> simp [hstack]
  cases hactive : (s.thread ()).active with
  | none => simpa [Frame.isSettled] using hs.idle () hactive _ hmem
  | some x =>
    obtain rfl : w = x := hs.frames () x hactive _ hmem
    rfl

/-- From anywhere in the loop the notification of all joiners can be, and by `Notifying.step` must be,
completed. -/
theorem Joinable.completes {queue joiners : List (Ctx Unit)} (h : Joinable w events s)
    (hn : Notifying w queue joiners s) :
    ∃ later s', Run Lutask.step (fun _ => Served) s later s' ∧ Notified w queue joiners s' := by
  have hactive := hn.active h.orderly.shape
  have hattached : ∀ y ∈ s.waits (.waitList w), (s.ctx y).scheduler = some () := by
    intro y hy
    obtain ⟨u, hu⟩ := Option.ne_none_iff_exists'.mp (h.enlisted.of_waits h.orderly.placed hy)
    exact hu
  obtain ⟨woken, waiting, rfl, hqueue, hcase⟩ := hn
  rcases hcase with ⟨rfl, hstack⟩ | ⟨y, rfl, hstack⟩
  · obtain ⟨later, s', hrun, hqueue', hempty, hstack'⟩ :=
      notifyAll_completes h.orderly.shape h.isLocal hactive hstack rfl hattached
    exact ⟨later, s', hrun, by simp [hqueue', hqueue], hempty, hstack'⟩
  · obtain ⟨u, hy⟩ := Option.ne_none_iff_exists'.mp (h.enlisted.of_wake h.orderly.placed hstack)
    have hpush := step_of_wake h.isLocal hactive hstack hy
    obtain ⟨later, s', hrun, hqueue', hempty, hstack'⟩ :=
      notifyAll_completes (h.orderly.shape.step hpush)
        (h.isLocal.step h.orderly.shape (served_exec _ _ _).2 hpush) (by simpa [queuePush] using hactive)
        (by rw [State.setStack_thread_self]) rfl fun z hz => by
          simpa [queuePush] using hattached z hz
    have hfirst : Run Lutask.step (fun _ => Served) s ([] ++ [.exec () w (.wake y) 0]) _ :=
      .snoc .nil (served_exec w (.wake y) 0) hpush
    refine ⟨_, s', hfirst.append hrun, ?_, hempty, hstack'⟩
    rw [hqueue']
    simp [queuePush, hqueue]

/-- What `Join` promises in a state `s` that a run has reached by `events`. -/
structure JoinMeansFinished (events : List (Event Unit)) (s : State Unit) : Prop where
  /-- A call of `Join` on `w` has returned only if `w` has terminated. -/
  returned : ∀ x w, x ∈ joinCalls w events → (s.thread ()).active = some x →
    (s.thread ()).stack = [] → (s.ctx w).terminated
  /-- Until `w` terminates all its joiners are in its `waitList_`, in the order in which they called
  `Join`; the last one may be about to push itself. -/
  suspended : ∀ w, (s.ctx w).terminated = false →
    s.waits (.waitList w) ++ pendingJoiners w s = joinCalls w events
  /-- When `w` terminates, all who joined it wait for it. Its loop makes each of them ready once, in
  their order, and afterwards nobody waits for `w`. -/
  woken : ∀ w before after, events = before ++ .call () w .terminate :: after → ∃ s₀,
    ServedRuns before s₀ ∧ s₀.waits (.waitList w) = joinCalls w before ∧
      (Notifying w (s₀.sched ()).queue (joinCalls w before) s ∨ ∃ first rest s₁, after = first ++ rest ∧
        ServedRuns (before ++ .call () w .terminate :: first) s₁ ∧
        Notified w (s₀.sched ()).queue (joinCalls w before) s₁ ∧ (s₁.sched ()).queue.Nodup ∧
        s.waits (.waitList w) = [])
  /-- The loop can always be completed. -/
  completes : ∀ w queue joiners, Notifying w queue joiners s → ∃ later s₁,
    ServedRuns (events ++ later) s₁ ∧ Notified w queue joiners s₁

/-- On one round-robin thread `Join` returns only when the joined worker has terminated, whatever the
fibers do, and nobody is left in a `waitList_`. -/
theorem join_means_finished (h : ServedRuns events s) : JoinMeansFinished events s := by
  refine ⟨fun x w => (h.joinable w).returned, fun w => (h.joinable w).joining.waiting,
    fun w before after hevents => ?_, fun w queue joiners hn => ?_⟩
  · subst hevents
    obtain ⟨s₀, s₁, hbefore, hguard, hstep, hafter⟩ := h.cut
    have h₀ := ServedRuns.joinable hbefore w
    obtain ⟨hwaits, hterm, hn⟩ := h₀.notifying hstep
    have hcall : ServedRuns (before ++ [.call () w .terminate]) s₁ := hbefore.snoc hguard hstep
    have h₁ := hcall.joinable w
    refine ⟨s₀, hbefore, hwaits, ?_⟩
    -- the loop goes on until everybody was notified
    have hleaves := Run.leaves
      (P := fun s => Orderly s ∧ StaysLocal s ∧ (s.ctx w).terminated ∧
        Notifying w (s₀.sched ()).queue (joinCalls w before) s)
      (Q := fun s => (s.ctx w).terminated ∧ Notified w (s₀.sched ()).queue (joinCalls w before) s)
      hafter ⟨h₁.orderly, h₁.isLocal, hterm, hn⟩ fun s e s' hs he hstep => by
        obtain ⟨ho, hl, hterm, hn⟩ := hs
        have hterm' := step_terminated hstep (ho.placed.started_of_terminated hterm) hterm
        cases hn.step hl hstep with
        | inl hkept => exact .inl ⟨ho.step he.1 hstep, hl.step ho.shape he.2 hstep, hterm', hkept⟩
        | inr hdone => exact .inr ⟨hterm', hdone⟩
    cases hleaves with
    | inl hkept => exact .inl hkept.2.2.2
    | inr hcut =>
      obtain ⟨first, rest, s₂, rfl, hfirst, ⟨hterm₂, hdone⟩, hrest⟩ := hcut
      have hmid : ServedRuns (before ++ .call () w .terminate :: first) s₂ := by
        simpa using Run.append hcall hfirst
      have h₂ := hmid.joinable w
      refine .inr ⟨first, rest, s₂, rfl, hmid, hdone, ?_, ?_⟩
      · exact List.nodup_iff_count_le_one.mpr fun y =>
          (h₂.orderly.placed.exclusive y).le_one (.slot (.queue ()))
      · exact h₂.stays_empty ⟨hterm₂, by simp [hdone.2.2]⟩ hrest
  · obtain ⟨later, s₁, hrun, hdone⟩ := (h.joinable w).completes hn
    exact ⟨later, s₁, Run.append h hrun, hdone⟩

/-- A worker that two others have joined terminates, and both are ready in the order of their calls. -/
theorem two_joiners_woken : ∃ events s, ServedRuns events s ∧ JoinMeansFinished events s ∧
    ((s.ctx (.worker 0)).terminated ∧
      (s.sched ()).queue = [.main (), .dispatcher (), .worker 1, .worker 2]) := by
  obtain ⟨events, s, hrun, hwoken⟩ : ∃ events s, ServedRuns events s ∧
      ((s.ctx (.worker 0)).terminated ∧
        (s.sched ()).queue = [.main (), .dispatcher (), .worker 1, .worker 2]) :=
    reaches_of_drive [.call () (.main ()) (.start .post), .frames () 2 0,
      .call () (.main ()) (.start .dispatch), .frames () 4 0,
      .call () (.worker 1) (.join (.worker 0)), .frames () 12 0,
      .call () (.worker 0) (.start .dispatch), .frames () 4 0,
      .call () (.worker 2) (.join (.worker 0)), .frames () 5 0,
      .call () (.main ()) .yield, .frames () 11 0,
      .call () (.worker 0) .terminate, .frames () 5 0] (by decide)
  exact ⟨events, s, hrun, join_means_finished hrun, hwoken⟩

end RoundRobin

end Lutask
