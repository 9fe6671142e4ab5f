import Lutask.Support.Queueing
import Lutask.ConditionVariable.Notification

/-!
# Waits are served in order

The history of the condition variables on one round-robin thread records who was queued by a `Wait`,
whom a call of `NotifyOne` or `NotifyAll` is to make ready, and who returned from the suspension. The
notifications take the queued waits in their order, and the waits return in the order of the notifications,
one for each, although both pass through queues that serve other purposes too.
-/

namespace Lutask

open LabelledRuns Queueing

namespace RoundRobin

/-- What happens to the waits on condition variable `q`. -/
inductive Observation where
  | queued (q : ℕ) (ctx : Ctx Unit)
  | notified (q : ℕ) (ctx : Ctx Unit)
  | returned (q : ℕ) (ctx : Ctx Unit)

/-- What is observed of an event. A notification is for the waiters that it finds when it is called. -/
def observation (s : State Unit) : Event Unit → List Observation
  | .call _ _ (.notifyOne q) => ((s.waits (.cv q)).take 1).map (.notified q)
  | .call _ _ (.notifyAll q) => (s.waits (.cv q)).map (.notified q)
  | .exec _ _ (.suspendAndWait (.cv q) y) _ => [.queued q y]
  | .exec _ _ (.resume y _) _ => ((s.waitsIn y).map fun q => .returned q y).toList
  | _ => []

/-- All that was observed in a run. -/
def history (events : List (Event Unit)) : List Observation :=
  observe step observation (State.initial fun _ => .roundRobin) events

/-- The waits on `q` in the order in which they were queued. -/
def queuedOn (q : ℕ) (log : List Observation) : List (Ctx Unit) :=
  log.filterMap fun
    | .queued q' y => if q' = q then some y else none
    | _ => none

/-- The waits on `q` in the order in which they were notified. -/
def notifiedOn (q : ℕ) (log : List Observation) : List (Ctx Unit) :=
  log.filterMap fun
    | .notified q' y => if q' = q then some y else none
    | _ => none

/-- The waits on `q` in the order in which they returned. -/
def returnedFrom (q : ℕ) (log : List Observation) : List (Ctx Unit) :=
  log.filterMap fun
    | .returned q' y => if q' = q then some y else none
    | _ => none

section Logs

variable {q : ℕ} {log more : List Observation}

@[simp] theorem queuedOn_append : queuedOn q (log ++ more) = queuedOn q log ++ queuedOn q more :=
  List.filterMap_append

@[simp] theorem notifiedOn_append :
    notifiedOn q (log ++ more) = notifiedOn q log ++ notifiedOn q more :=
  List.filterMap_append

@[simp] theorem returnedFrom_append :
    returnedFrom q (log ++ more) = returnedFrom q log ++ returnedFrom q more :=
  List.filterMap_append

@[simp] theorem queuedOn_nil : queuedOn q [] = [] := rfl
@[simp] theorem notifiedOn_nil : notifiedOn q [] = [] := rfl
@[simp] theorem returnedFrom_nil : returnedFrom q [] = [] := rfl

@[simp] theorem notifiedOn_map (q' : ℕ) (l : List (Ctx Unit)) :
    notifiedOn q (l.map (.notified q')) = if q' = q then l else [] := by
  induction l with
  | nil => simp
  | cons y l ih => by_cases hq : q' = q <;> simp_all [notifiedOn]

@[simp] theorem queuedOn_map (q' : ℕ) (l : List (Ctx Unit)) : queuedOn q (l.map (.notified q')) = [] :=
  List.filterMap_eq_nil_iff.mpr (by simp)

@[simp] theorem returnedFrom_map (q' : ℕ) (l : List (Ctx Unit)) :
    returnedFrom q (l.map (.notified q')) = [] :=
  List.filterMap_eq_nil_iff.mpr (by simp)

end Logs

/-- The waits on `q` that were taken out, as far as they have not returned. -/
def returning (q : ℕ) (s : State Unit) : List (Ctx Unit) :=
  (readyLine s).filter fun y => s.waitsIn y = some q

section Returning

variable {s : State Unit} {x y : Ctx Unit} {now q : ℕ} {f : Frame Unit} {op : Op Unit} {r : Rest Unit}
  {rest : List (Frame Unit)}

/-- A call is going to take out the waiters that are observed. -/
theorem OpStep.due (h : OpStep s x op r) (t : Unit) :
    due q (r.1.setStack () r.2) = notifiedOn q (observation s (.call t x op)) ∧
      queuedOn q (observation s (.call t x op)) = [] ∧
      returnedFrom q (observation s (.call t x op)) = [] := by
  cases h with
  | @notifyOne q' | @notifyAll q' =>
    refine ⟨?_, queuedOn_map q' _, returnedFrom_map q' _⟩
    rw [observation, notifiedOn_map]
    by_cases hq : q' = q <;> simp [RoundRobin.due, Frame.notifiesAll, Frame.notifiesOne, hq]
  | start launch =>
    refine ⟨?_, rfl, rfl⟩
    cases launch <;> simp [RoundRobin.due, observation, Lutask.start, Frame.notifiesAll, Frame.notifiesOne]
  | _ =>
    refine ⟨?_, rfl, rfl⟩
    simp [RoundRobin.due, observation, Lutask.yield, Lutask.waitUntil, Lutask.terminate, Lutask.destructor,
      Frame.notifiesAll, Frame.notifiesOne]

/-- Among the contexts of a line only those matter that are to return from a `Wait` on `q`. -/
theorem returning_congr {s' : State Unit} (hwhere : ∀ y ∈ readyLine s', s'.waitsIn y = s.waitsIn y) :
    returning q s' = (readyLine s').filter fun y => s.waitsIn y = some q := by
  refine List.filter_congr fun y hy => ?_
  rw [hwhere y hy]

theorem returning_call (h : InTurn s) (hstack : (s.thread ()).stack = []) (hop : OpStep s x op r) :
    returning q (r.1.setStack () r.2) = returning q s := by
  rw [returning_congr fun y _ => hop.waitsIn h.orderly.continued r.2 y, OpStep.readyLine hop hstack]
  rfl

theorem returning_of_frame (h : InTurn s) (hstack : (s.thread ()).stack = f :: rest)
    (hframe : FrameStep s () x now f r) : returning q (r.1.setStack () (r.2 ++ rest)) =
      (readyLine (r.1.setStack () (r.2 ++ rest))).filter fun y => s.waitsIn y = some q :=
  returning_congr fun _ hy => h.waitsIn_frame hstack hframe (h.ready_before hstack hframe hy) _

/-- A notification on `q` adds the waiter that it takes out. -/
theorem returning_of_pop (h : InTurn s) (hstack : (s.thread ()).stack = f :: rest)
    (hframe : FrameStep s () x now f r) (hpop : s.waits (.cv q) = y :: r.1.waits (.cv q))
    (hf : f = .notifyOne (.cv q) ∨ f = .notifyAll (.cv q)) :
    returning q (r.1.setStack () (r.2 ++ rest)) = returning q s ++ [y] := by
  have hwaits : y ∈ s.waits (.cv q) := by simp [hpop]
  have hsaved : (s.ctx y).c ≠ none := h.saved hwaits hstack (by rcases hf with rfl | rfl <;> rfl)
  have hy : s.waitsIn y = some q := h.waitsWhere (.cv q) y hwaits hsaved
  rw [returning_of_frame h hstack hframe, readyLine_of_pop hframe h.orderly.shape hstack hpop hf]
  simp [returning, hy]

/-- No other frame adds a context that is to return from a `Wait` on `q`. -/
theorem returning_of_other (h : InTurn s) (hstack : (s.thread ()).stack = f :: rest)
    (hframe : FrameStep s () x now f r) (hother : ∀ y, s.waits (.cv q) ≠ y :: r.1.waits (.cv q)) :
    returning q (r.1.setStack () (r.2 ++ rest)) = returning q s := by
  have hmem : f ∈ (s.thread ()).stack := by simp [hstack]
  rw [returning_of_frame h hstack hframe]
  rcases FrameStep.readyLine hframe h.policy h.orderly.shape hstack (h.not_exit hmem) with hline |
    ⟨z, hz, hline⟩ | ⟨Q, z, hpop, hf, hline⟩
  · rw [hline]
    rfl
  · have hnone := (h.introduced f hmem z hz).2
    rcases hline with hback | hfront
    · simp [hback, returning, hnone]
    · simp [hfront, returning, hnone]
  · -- the context was taken out of another wait queue
    have hwaits : z ∈ s.waits Q := by simp [hpop]
    have hsaved : (s.ctx z).c ≠ none := h.saved hwaits hstack (by rcases hf with rfl | rfl <;> rfl)
    have hz : s.waitsIn z ≠ some q := by
      rw [h.waitsWhere Q z hwaits hsaved]
      cases Q with
      | cv q' =>
        have hne : q' ≠ q := by
          rintro rfl
          exact hother z hpop
        simpa [WaitQueue.switch, Switch.cv] using hne
      | waitList w => simp [WaitQueue.switch, Switch.cv]
    simp [hline, returning, hz]

/-- A switch takes the first of the line out, who returns if it was to return from a `Wait` on `q`. -/
theorem returning_switch {k : Switch Unit} {stack : List (Frame Unit)} (h : InTurn s)
    (hstack : (s.thread ()).stack = f :: rest) (htarget : f.target = some (y, k))
    (hc : (s.ctx y).c = some stack) :
    returning q s = [y].filter (fun y => s.waitsIn y = some q) ++
      returning q (switched s () x rest y k stack) := by
  obtain ⟨hline, hfree⟩ := h.readyLine_switch (x := x) hstack htarget hc
  have hwhere : ∀ z ∈ readyLine (switched s () x rest y k stack),
      (switched s () x rest y k stack).waitsIn z = s.waitsIn z := by
    intro z hz
    have hne : z ≠ y := by
      rintro rfl
      exact hfree hz
    exact State.waitsIn_congr (by simp [switched, hne])
  rw [returning_congr hwhere, ← List.filter_append, List.singleton_append, ← hline]
  rfl

end Returning

/-- The history of `q`: the notifications have taken out the first of those queued and are taking out the
next ones, and of those taken out the first have returned and the others are in the ready line. -/
def Logged (q : ℕ) (log : List Observation) (s : State Unit) : Prop :=
  ∃ popped, FirstInFirstOut [] (queuedOn q log) (s.waits (.cv q)) popped ∧
    notifiedOn q log = popped ++ due q s ∧
    FirstInFirstOut [] popped (returning q s) (returnedFrom q log)

section Logged

variable {s s' : State Unit} {x y : Ctx Unit} {now q : ℕ} {f : Frame Unit} {op : Op Unit} {r : Rest Unit}
  {rest : List (Frame Unit)} {log : List Observation} {e : Event Unit}

theorem Logged.initial : Logged q [] (State.initial fun _ => .roundRobin) := by
  have hreturning : returning q (State.initial fun _ => .roundRobin) = [] := by
    simp [returning, readyLine, State.initial, State.waitsIn, Context.initial, Lutask.waitsIn]
  have hidle : due q (State.initial fun _ => .roundRobin) = [] := due_of_idle rfl
  exact ⟨[], .initial, hidle.symm, hreturning ▸ .initial⟩

/-- A frame that does not switch is no notification and no return, and queues nobody unless it is
`SuspendAndWait`. -/
theorem observation_frame (q now : ℕ) (s : State Unit) (t : Unit) (x : Ctx Unit) (hf : f.target = none) :
    notifiedOn q (observation s (.exec t x f now)) = [] ∧
      returnedFrom q (observation s (.exec t x f now)) = [] ∧
      ((∀ y, f ≠ .suspendAndWait (.cv q) y) → queuedOn q (observation s (.exec t x f now)) = []) := by
  cases f with
  | resume y k => simp [Frame.target] at hf
  | suspendAndWait Q y =>
    cases Q with
    | cv q' => simp [observation, notifiedOn, returnedFrom, queuedOn]
    | waitList w => exact ⟨rfl, rfl, fun _ => rfl⟩
  | _ => exact ⟨rfl, rfl, fun _ => rfl⟩

theorem Logged.call (h : Logged q log s) (hs : InTurn s) (hstack : (s.thread ()).stack = [])
    (hop : OpStep s x op r) (t : Unit) :
    Logged q (log ++ observation s (.call t x op)) (r.1.setStack () r.2) := by
  obtain ⟨popped, hqueued, hnotified, hreturned⟩ := h
  obtain ⟨hdue, hnone, hstays⟩ := OpStep.due (q := q) hop t
  have hidle : due q s = [] := due_of_idle hstack
  refine ⟨popped, ?_, ?_, ?_⟩
  · simpa [hnone, hop.waits] using hqueued
  · simp [hnotified, hidle, hdue]
  · simpa [hstays, returning_call hs hstack hop] using hreturned

theorem Logged.frame (h : Logged q log s) (hs : InTurn s) (hstack : (s.thread ()).stack = f :: rest)
    (hframe : FrameStep s () x now f r) (t : Unit) :
    Logged q (log ++ observation s (.exec t x f now)) (r.1.setStack () (r.2 ++ rest)) := by
  obtain ⟨popped, hqueued, hnotified, hreturned⟩ := h
  obtain ⟨hnotifies, hreturns, hqueues⟩ := observation_frame q now s t x hframe.target
  rcases hframe.waits_cases (.cv q) with hsame | ⟨y, rfl, hpush⟩ | ⟨y, hpop, hf⟩
  · have hnot : ∀ y, f ≠ .suspendAndWait (.cv q) y := by
      rintro y rfl
      cases hframe with
      | pop hf | popEmpty hf => simp at hf
      | suspendAndWait => simp at hsame
    refine ⟨popped, ?_, ?_, ?_⟩
    · simpa [hqueues hnot, hsame] using hqueued
    · simp [hnotifies, FrameStep.due hframe hstack hsame, hnotified]
    · have hother : ∀ y, s.waits (.cv q) ≠ y :: r.1.waits (.cv q) := by simp [hsame]
      simpa [hreturns, returning_of_other hs hstack hframe hother] using hreturned
  · -- below `SuspendAndWait` no notification is going on
    have hsettled := settled_of_pairwise (hstack ▸ hs.orderly.shape.below ()) rfl
    have hdue : due q s = [] := due_of_top hstack hsettled rfl rfl
    have hdue' : due q (r.1.setStack () (r.2 ++ rest)) = [] := by
      cases hframe with
      | pop hf | popEmpty hf => simp at hf
      | @suspendAndWait Q z =>
        have hstack' : ((((s.setWaits (.cv q) (s.waits (.cv q) ++ [y])).setStack ()
            ([.suspend (.cv q) y] ++ rest))).thread ()).stack = .suspend (.cv q) y :: rest := by simp
        exact due_of_top hstack' hsettled rfl rfl
    have hother : ∀ z, s.waits (.cv q) ≠ z :: r.1.waits (.cv q) := by
      intro z hz
      have hlength := congrArg List.length hz
      rw [hpush, List.length_cons, List.length_append] at hlength
      omega
    refine ⟨popped, ?_, ?_, ?_⟩
    · have hjoined := hqueued.join [y]
      rw [← hpush] at hjoined
      simpa [observation, queuedOn] using hjoined
    · simp [hnotifies, hnotified, hdue, hdue']
    · simpa [hreturns, returning_of_other hs hstack hframe hother] using hreturned
  · have hloop : f = .notifyOne (.cv q) ∨ f = .notifyAll (.cv q) := hf.imp And.left And.left
    have hnot : ∀ y, f ≠ .suspendAndWait (.cv q) y := by rcases hloop with rfl | rfl <;> simp
    have hdue := due_of_pop hframe hs.orderly.shape hs.orderly.locked hstack hpop hloop
    refine ⟨popped ++ [y], ?_, ?_, ?_⟩
    · have hqueued' : FirstInFirstOut [] (queuedOn q log) ([y] ++ r.1.waits (.cv q)) popped := by
        rw [List.singleton_append, ← hpop]
        exact hqueued
      simpa [hqueues hnot] using hqueued'.serve
    · simp [hnotifies, hnotified, hdue]
    · have hjoined := hreturned.join [y]
      rw [← returning_of_pop hs hstack hframe hpop hloop] at hjoined
      simpa [hreturns] using hjoined

theorem Logged.switch {k : Switch Unit} {stack : List (Frame Unit)} (h : Logged q log s) (hs : InTurn s)
    (hstack : (s.thread ()).stack = f :: rest) (htarget : f.target = some (y, k))
    (hc : (s.ctx y).c = some stack) (t : Unit) :
    Logged q (log ++ observation s (.exec t x f now)) (switched s () x rest y k stack) := by
  have hshape := hs.orderly.shape
  obtain ⟨popped, hqueued, hnotified, hreturned⟩ := h
  obtain rfl := hs.resume_of_target (by simp [hstack]) htarget
  have hobserved : observation s (.exec t x (.resume y k) now) =
      ((s.waitsIn y).map fun q => .returned q y).toList := rfl
  have hreturns : returnedFrom q (observation s (.exec t x (.resume y k) now)) =
      [y].filter fun y => s.waitsIn y = some q := by
    rw [hobserved]
    cases hy : s.waitsIn y with
    | none => simp [hy]
    | some q' => by_cases hq : q' = q <;> simp [returnedFrom, hq, hy]
  have hothers : notifiedOn q (observation s (.exec t x (.resume y k) now)) = [] ∧
      queuedOn q (observation s (.exec t x (.resume y k) now)) = [] := by
    rw [hobserved]
    cases s.waitsIn y <;> simp [notifiedOn, queuedOn]
  have hbelow := settled_of_pairwise (hstack ▸ hshape.below ()) rfl
  have hdue : due q s = [] := due_of_top hstack hbelow rfl rfl
  have hdue' : due q (switched s () x rest y k stack) = [] := by
    have hstack' : ((switched s () x rest y k stack).thread ()).stack = .save x k :: stack := by
      simp [switched]
    exact due_of_top hstack' (fun g hg => (hshape.suspended y stack hc g hg).1) rfl rfl
  have hwaits : (switched s () x rest y k stack).waits = s.waits := rfl
  refine ⟨popped, ?_, ?_, ?_⟩
  · simpa [hothers.2, hwaits] using hqueued
  · simp [hothers.1, hnotified, hdue, hdue']
  · rw [returning_switch (x := x) hs hstack htarget hc] at hreturned
    rw [returnedFrom_append, hreturns]
    exact hreturned.serve

theorem Logged.step (h : Logged q log s) (hs : InTurn s) (hstep : Lutask.step s e = some s') :
    Logged q (log ++ observation s e) s' := by
  cases step_inv hstep with
  | @call t x op r hactive hstack huser hop => exact h.call hs hstack hop t
  | @frame t x f now rest r hactive hstack hframe => exact h.frame hs hstack hframe t
  | @switch t x y f k now rest stack hactive hstack htarget hc => exact h.switch hs hstack htarget hc t

/-- The waits on `q` return in the order in which they were notified, which is the order in which they were
queued. -/
theorem Logged.in_order (h : Logged q log s) :
    returnedFrom q log <+: notifiedOn q log ∧ notifiedOn q log <+: queuedOn q log := by
  obtain ⟨popped, hqueued, hnotified, hreturned⟩ := h
  have hdue : due q s <+: s.waits (.cv q) := by
    unfold due
    split
    · exact List.prefix_rfl
    · split
      · exact List.take_prefix _ _
      · exact List.nil_prefix
  constructor
  · rw [hnotified]
    exact hreturned.served_prefix.trans (List.prefix_append _ _)
  · have hall : popped ++ s.waits (.cv q) = queuedOn q log := hqueued
    rw [hnotified, ← hall]
    exact (List.prefix_append_right_inj popped).mpr hdue

end Logged

/-- The runs of one round-robin thread without sleepers, before `~Scheduler`. -/
abbrev TurnRuns (events : List (Event Unit)) (s : State Unit) : Prop :=
  Runs (fun _ => .roundRobin) (fun _ => TakesTurns) events s

/-- The waits were served in order so far, and every notification that is called now serves the waits that
it finds: `NotifyOne` the longest queued one and `NotifyAll` all of them. -/
structure ServedInOrder (events : List (Event Unit)) (s : State Unit) : Prop where
  returned : ∀ q, returnedFrom q (history events) <+: notifiedOn q (history events)
  notified : ∀ q, notifiedOn q (history events) <+: queuedOn q (history events)
  one : ∀ q x s', step s (.call () x (.notifyOne q)) = some s' →
    Returns s' (MakesReady q ((s.waits (.cv q)).take 1) s)
  all : ∀ q x s', step s (.call () x (.notifyAll q)) = some s' →
    Returns s' (MakesReady q (s.waits (.cv q)) s)

section Runs

variable {s s' : State Unit} {x : Ctx Unit} {q : ℕ} {op : Op Unit} {events : List (Event Unit)}

theorem TurnRuns.inTurn (h : TurnRuns events s) : InTurn s :=
  Run.invariant h InTurn.initial fun _ _ _ hs he hstep => hs.step he hstep

theorem TurnRuns.logged (h : TurnRuns events s) (q : ℕ) : Logged q (history events) s := by
  have hboth : InTurn s ∧ Logged q (history events) s := by
    apply Run.invariant_observed (I := fun log s => InTurn s ∧ Logged q log s) h
    · exact ⟨InTurn.initial, Logged.initial⟩
    · intro log s e s' hs he hstep
      exact ⟨hs.1.step he hstep, hs.2.step hs.1 hstep⟩
  exact hboth.2

/-- A notification is going to take out the waiters that are observed when it is called. -/
theorem due_of_call (hstep : step s (.call () x op) = some s') :
    due q s' = notifiedOn q (observation s (.call () x op)) := by
  obtain ⟨-, -, r, hcall, rfl⟩ := step_call hstep
  exact (OpStep.due hcall ()).1

/-- On each condition variable of one round-robin thread the waits return in the order in which they were
notified, and they are notified in the order in which they were queued. Each notification makes ready
those for whom it was called and nobody else. -/
theorem waits_served_in_order (h : TurnRuns events s) : ServedInOrder events s where
  returned q := (h.logged q).in_order.1
  notified q := (h.logged q).in_order.2
  one q x s' hstep := by
    have hcall := inCall_of_call (.inl rfl) hstep
    have hdue : due q s' = (s.waits (.cv q)).take 1 := by
      rw [due_of_call hstep, observation, notifiedOn_map, if_pos rfl]
    have hturn : TakesTurns (.call () x (.notifyOne q)) := ⟨rfl, rfl⟩
    exact hdue ▸ hcall.returns (h.inTurn.step hturn hstep)
  all q x s' hstep := by
    have hcall := inCall_of_call (.inr rfl) hstep
    have hdue : due q s' = s.waits (.cv q) := by
      rw [due_of_call hstep, observation, notifiedOn_map, if_pos rfl]
    have hturn : TakesTurns (.call () x (.notifyAll q)) := ⟨rfl, rfl⟩
    exact hdue ▸ hcall.returns (h.inTurn.step hturn hstep)

end Runs

/-- Main and then worker 0 wait on condition variable 0, worker 1 notifies all, and the two waiters return
one after the other. -/
def twoWait : List (Event Unit) :=
  unroll [.call () (.main ()) (.start .post), .frames () 2 0, .call () (.main ()) (.start .post),
    .frames () 2 0, .call () (.main ()) (.lock 0), .call () (.main ()) (.wait 0 0), .frames () 15 0,
    .call () (.worker 0) (.lock 0), .call () (.worker 0) (.wait 0 0), .frames () 8 0,
    .call () (.worker 1) (.notifyAll 0), .frames () 7 0, .call () (.worker 1) .yield, .frames () 12 0,
    .call () (.main ()) (.unlock 0), .call () (.main ()) .yield, .frames () 5 0]
    (State.initial fun _ => .roundRobin)

/-- The two waiters are served in order, and both return. -/
theorem main_served_in_order : ∃ s, TurnRuns twoWait s ∧ ServedInOrder twoWait s ∧
    (returnedFrom 0 (history twoWait) = [.main (), .worker 0] ∧
      (s.thread ()).active = some (.worker 0) ∧ (s.thread ()).stack = []) := by
  have hplay : (play step (fun _ e => decide (TakesTurns e)) (State.initial fun _ => .roundRobin)
      twoWait).any (fun s => decide ((s.thread ()).active = some (.worker 0) ∧
        (s.thread ()).stack = [])) = true := by
    decide
  obtain ⟨s, hs, hlast⟩ := (Option.any_eq_true _ _).mp hplay
  have hrun : TurnRuns twoWait s := Run.of_play (fun _ _ => of_decide_eq_true) hs
  exact ⟨s, hrun, waits_served_in_order hrun, by decide, of_decide_eq_true hlast⟩

end RoundRobin

end Lutask
