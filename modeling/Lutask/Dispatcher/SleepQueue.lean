import Lutask.Machine.Continuation
import Lutask.Machine.Schedule

/-!
# The order of `sleepQueue_`

`sleepQueue_` is ordered by `tp_` of its elements, which `WaitUntil` writes before it inserts the
context. The order survives as long as no context is inserted again while it is still in a queue.
-/

namespace Lutask

open LabelledRuns

variable {T : Type*}

/-- What a multiset that is ordered by `tp_` has to keep, for contexts that are put into at most one. -/
structure Rested (s : State T) : Prop where
  sorted : ∀ u, (s.sched u).sleepQueue.Pairwise fun c d => (s.ctx c).tp ≤ (s.ctx d).tp
  nodup : ∀ u, (s.sched u).sleepQueue.Nodup
  apart : ∀ u v x, x ∈ (s.sched u).sleepQueue → x ∈ (s.sched v).sleepQueue → u = v

/-- A context calls `WaitUntil` although it is still in a `sleepQueue_`. -/
def SleepsTwice (s : State T) : Event T → Prop
  | .call _ x (.waitUntil _) => ∃ u, x ∈ (s.sched u).sleepQueue
  | _ => False

/-- Insertion at the upper bound keeps the order. -/
theorem pairwise_orderedInsert {A : Type*} (key : A → TimePoint) (x : A) {queue : List A}
    (h : queue.Pairwise fun c d => key c ≤ key d) :
    (queue.orderedInsert (fun c d => key c < key d) x).Pairwise fun c d => key c ≤ key d := by
  induction queue with
  | nil => simp
  | cons y queue ih =>
    obtain ⟨hy, hqueue⟩ := List.pairwise_cons.mp h
    by_cases hxy : key x < key y
    · rw [List.orderedInsert_cons, if_pos hxy, List.pairwise_cons]
      refine ⟨fun z hz => ?_, h⟩
      rcases List.mem_cons.mp hz with rfl | hz
      · exact hxy.le
      · exact hxy.le.trans (hy z hz)
    · rw [List.orderedInsert_cons, if_neg hxy, List.pairwise_cons]
      refine ⟨fun z hz => ?_, ih hqueue⟩
      rcases (List.mem_orderedInsert _).mp hz with rfl | hz
      · exact not_lt.mp hxy
      · exact hy z hz

variable {s s' : State T} {t : T} {x : Ctx T} {now : ℕ}

/-- Contexts that leave the queues, and others that are not in them, may change. -/
theorem Rested.sublist (h : Rested s) (hqueue : ∀ u, (s'.sched u).sleepQueue.Sublist (s.sched u).sleepQueue)
    (htp : ∀ u, ∀ y ∈ (s'.sched u).sleepQueue, (s'.ctx y).tp = (s.ctx y).tp) : Rested s' where
  sorted u := by
    refine ((h.sorted u).sublist (hqueue u)).imp_of_mem fun {c d} hc hd hle => ?_
    rwa [htp u c hc, htp u d hd]
  nodup u := (h.nodup u).sublist (hqueue u)
  apart u v y hu hv := h.apart u v y ((hqueue u).subset hu) ((hqueue v).subset hv)

variable [DecidableEq T]

section Steps

variable {op : Op T} {f : Frame T} {r : Rest T}

/-- Only `WaitUntil` inserts into a `sleepQueue_`. -/
theorem OpStep.inserts (h : OpStep s x op r) (v : T) :
    (r.1.sched v).sleepQueue = (s.sched v).sleepQueue ∨
      (∃ tp, op = .waitUntil tp) ∧ (s.ctx x).scheduler = some v ∧ (r.1.sched v).sleepQueue =
        (s.sched v).sleepQueue.orderedInsert (fun c d => (r.1.ctx c).tp < (r.1.ctx d).tp) x := by
  cases h with
  | @waitUntil u tp hu =>
    by_cases hvu : v = u
    · subst hvu
      exact .inr ⟨⟨tp, rfl⟩, hu, by simp [Lutask.waitUntil, sleepQueueInsert]⟩
    · exact .inl (by simp [Lutask.waitUntil, hvu])
  | @yield u hu | @yieldOrigin u origin hu horigin | @yieldOriginNone u hu horigin | @destructor u hx =>
    left
    by_cases hvu : v = u <;> simp [Lutask.yield, Lutask.destructor, workerQueueRemove, hvu]
  | _ => exact .inl rfl

/-- `WaitUntil` writes `tp_` of its caller, and the constructor that of a new worker. -/
theorem OpStep.tp (h : OpStep s x op r) (y : Ctx T) :
    (r.1.ctx y).tp = (s.ctx y).tp ∨ (∃ tp, op = .waitUntil tp) ∧ y = x ∨ y = .worker s.fresh := by
  cases h with
  | start launch =>
    by_cases hy : y = .worker s.fresh
    · exact .inr (.inr hy)
    · exact .inl (by simp [Lutask.start, hy])
  | @waitUntil u tp hu =>
    by_cases hy : y = x
    · exact .inr (.inl ⟨⟨tp, rfl⟩, hy⟩)
    · exact .inl (by simp [Lutask.waitUntil, hy])
  | yieldOrigin | terminate =>
    left
    by_cases hy : y = x <;> simp [Lutask.terminate, workerQueueRemove, hy]
  | _ => exact .inl rfl

/-- Only `ProcSleepToReady` takes from a `sleepQueue_`, and it writes `tp_` of what it takes. -/
theorem FrameStep.erases (h : FrameStep s t x now f r) :
    (∀ v, (r.1.sched v).sleepQueue = (s.sched v).sleepQueue) ∧ (∀ y, (r.1.ctx y).tp = (s.ctx y).tp) ∨
      ∃ u y, (s.sched u).sleepQueue = y :: (r.1.sched u).sleepQueue ∧
        (∀ v, v ≠ u → (r.1.sched v).sleepQueue = (s.sched v).sleepQueue) ∧
          ∀ z, z ≠ y → (r.1.ctx z).tp = (s.ctx z).tp := by
  cases h with
  | @procSleepDue u n y rest hqueue hdue =>
    exact .inr ⟨u, y, by simp [hqueue], fun v hv => by simp [hv], fun z hz => by simp [hz]⟩
  | _ =>
    refine .inl ⟨fun v => ?_, fun y => ?_⟩ <;>
      simp [workerQueuePush, detachWorkerContext, workerQueueRemove, Lutask.terminateRemove,
        Lutask.destroy, Lutask.iterate, procTerminated, Function.update_apply] <;> split_ifs <;> simp_all

end Steps

section Runs

/-- The queues are in order, and only contexts that exist are in them. -/
def Sleepers (s : State T) : Prop :=
  Rested s ∧ ∀ u, ∀ y ∈ (s.sched u).sleepQueue, s.started y

theorem Rested.insert {u : T} {r : Rest T} (h : Rested s) (hx : ∀ v, x ∉ (s.sched v).sleepQueue)
    (hqueue : (r.1.sched u).sleepQueue =
      (s.sched u).sleepQueue.orderedInsert (fun c d => (r.1.ctx c).tp < (r.1.ctx d).tp) x)
    (hother : ∀ v, v ≠ u → (r.1.sched v).sleepQueue = (s.sched v).sleepQueue)
    (htp : ∀ y, y ≠ x → (r.1.ctx y).tp = (s.ctx y).tp) : Rested r.1 := by
  have hsame : ∀ v, ∀ y ∈ (s.sched v).sleepQueue, (r.1.ctx y).tp = (s.ctx y).tp := fun v y hy =>
    htp y fun hyx => hx v (hyx ▸ hy)
  have hsorted : ∀ v, (s.sched v).sleepQueue.Pairwise fun c d => (r.1.ctx c).tp ≤ (r.1.ctx d).tp := fun v =>
    (h.sorted v).imp_of_mem fun {c d} hc hd hle => by rwa [hsame v c hc, hsame v d hd]
  have hmem : ∀ v, ∀ y ∈ (r.1.sched v).sleepQueue, y ∈ (s.sched v).sleepQueue ∨ y = x ∧ v = u := by
    intro v y hy
    by_cases hv : v = u
    · subst hv
      rw [hqueue] at hy
      exact ((List.mem_orderedInsert _).mp hy).symm.imp_right fun hyx => ⟨hyx, rfl⟩
    · exact .inl (hother v hv ▸ hy)
  refine ⟨fun v => ?_, fun v => ?_, fun v w y hv hw => ?_⟩
  · by_cases hv : v = u
    · subst hv
      rw [hqueue]
      exact pairwise_orderedInsert (fun c => (r.1.ctx c).tp) x (hsorted v)
    · rw [hother v hv]
      exact hsorted v
  · by_cases hv : v = u
    · subst hv
      rw [hqueue, (List.perm_orderedInsert _ _ _).nodup_iff]
      exact List.nodup_cons.mpr ⟨hx v, h.nodup v⟩
    · rw [hother v hv]
      exact h.nodup v
  · rcases hmem v y hv with hv | ⟨rfl, rfl⟩ <;> rcases hmem w y hw with hw | ⟨hyx, rfl⟩
    · exact h.apart v w y hv hw
    · exact absurd (hyx ▸ hv) (hx v)
    · exact absurd hw (hx w)
    · rfl

theorem Sleepers.step {e : Event T} (h : Sleepers s) (hc : Continued s) (honce : ¬ SleepsTwice s e)
    (hstep : step s e = some s') : Sleepers s' := by
  obtain ⟨hrested, hstarted⟩ := h
  cases step_inv hstep with
  | @call t x op r hactive hstack huser hop =>
    have hmem : ∀ u, ∀ y ∈ (r.1.sched u).sleepQueue, y ∈ (s.sched u).sleepQueue ∨ y = x := by
      intro u y hy
      rcases hop.inserts u with hsame | ⟨-, -, hqueue⟩
      · exact .inl (hsame ▸ hy)
      · exact ((List.mem_orderedInsert _).mp (hqueue ▸ hy)).symm
    refine ⟨?_, fun u y hy => hop.started ?_⟩
    · by_cases hwait : ∃ tp, op = .waitUntil tp
      · obtain ⟨tp, rfl⟩ := hwait
        have hx : ∀ v, x ∉ (s.sched v).sleepQueue := fun v hv => honce ⟨v, hv⟩
        cases hop with
        | @waitUntil u tp hu =>
          obtain ⟨hsorted, hnodup, hapart⟩ := hrested.insert (u := u) (r := Lutask.waitUntil s u x tp) hx
            (by simp [Lutask.waitUntil, sleepQueueInsert]) (fun v hv => by simp [Lutask.waitUntil, hv])
            fun y hy => by simp [Lutask.waitUntil, hy]
          exact ⟨hsorted, hnodup, hapart⟩
      · have hsame : ∀ u, (r.1.sched u).sleepQueue = (s.sched u).sleepQueue := fun u =>
          (hop.inserts u).resolve_right fun h => hwait h.1
        refine hrested.sublist (fun u => by rw [State.setStack_sched, hsame]) fun u y hy => ?_
        rw [State.setStack_sched, hsame] at hy
        rcases hop.tp y with htp | ⟨h, -⟩ | rfl
        · exact htp
        · exact absurd h hwait
        · simpa [State.started] using hstarted u _ hy
    · rcases hmem u y hy with hold | rfl
      · exact hstarted u y hold
      · exact (hc.busy t y (.inl hactive)).1
  | @frame t x f now rest r hactive hstack hframe =>
    rcases hframe.erases with ⟨hqueue, htp⟩ | ⟨u, y, hhead, hother, htp⟩
    · refine ⟨hrested.sublist (fun v => by rw [State.setStack_sched, hqueue]) fun v z hz => htp z,
        fun v z hz => ?_⟩
      rw [State.setStack_started, hframe.started]
      exact hstarted v z (hqueue v ▸ hz)
    · have hsublist : ∀ v, (r.1.sched v).sleepQueue.Sublist (s.sched v).sleepQueue := fun v => by
        by_cases hv : v = u
        · subst hv
          exact hhead ▸ List.sublist_cons_self _ _
        · rw [hother v hv]
      refine ⟨hrested.sublist hsublist fun v z hz => htp z ?_, fun v z hz => ?_⟩
      · -- the erased context is in no queue any more
        rintro rfl
        have hnodup := hhead ▸ hrested.nodup u
        have hvu : v = u := hrested.apart v u z ((hsublist v).subset hz) (by simp [hhead])
        subst hvu
        exact (List.nodup_cons.mp hnodup).1 hz
      · rw [State.setStack_started, hframe.started]
        exact hstarted v z ((hsublist v).subset hz)
  | @switch t x y f k now rest stack hactive hstack htarget hc' =>
    refine ⟨hrested.sublist (fun u => List.Sublist.refl _) fun u z hz => ?_, hstarted⟩
    by_cases hz : z = y <;> simp [switched, hz]

/-- A second insertion breaks the order at once. -/
theorem SleepsTwice.not_rested {e : Event T} (h : SleepsTwice s e) (hstep : step s e = some s') :
    ¬ Rested s' := by
  cases e with
  | exec t x f n => exact h.elim
  | call t x op =>
    cases op with
    | waitUntil tp =>
      obtain ⟨v, hv⟩ := h
      obtain ⟨-, -, r, hop, rfl⟩ := step_call hstep
      cases hop with
      | @waitUntil u tp hu =>
        intro hrested
        have hqueue : List.Perm
            (((Lutask.waitUntil s u x tp).1.setStack t (Lutask.waitUntil s u x tp).2).sched u).sleepQueue
            (x :: (s.sched u).sleepQueue) := by
          simpa [Lutask.waitUntil, sleepQueueInsert] using
            List.perm_orderedInsert _ x (s.sched u).sleepQueue
        by_cases hvu : v = u
        · subst hvu
          exact (List.nodup_cons.mp (hqueue.nodup_iff.mp (hrested.nodup v))).1 hv
        · refine hvu (hrested.apart v u x ?_ (hqueue.mem_iff.mpr List.mem_cons_self))
          simpa [Lutask.waitUntil, hvu] using hv
    | _ => exact h.elim

omit [DecidableEq T] in
theorem Sleepers.initial (policy : T → Policy) : Sleepers (State.initial policy) :=
  ⟨⟨fun _ => .nil, fun _ => .nil, fun u v x hx => by simp [State.initial] at hx⟩, fun u x hx => by
    simp [State.initial] at hx⟩

/-- In every run `sleepQueue_` of each scheduler is always in the order of its comparison, without
duplicates, and no context is in two of them, exactly if no context calls `WaitUntil` while it is
still in one. -/
theorem sleep_queues_rested_iff {policy : T → Policy} {guard : State T → Event T → Prop}
    {events : List (Event T)} (h : Runs policy guard events s) :
    (∀ before s', before <+: events → Runs policy guard before s' → Rested s') ↔
      ∀ before e s', before ++ [e] <+: events → Runs policy guard before s' → ¬ SleepsTwice s' e := by
  constructor
  · intro hrested before e s₁ hbefore hrun htwice
    obtain ⟨after, rfl⟩ := hbefore
    rw [List.append_assoc, List.singleton_append] at h
    obtain ⟨s₁', s₂, hrun', hguard, hfire, -⟩ := h.cut
    obtain rfl := hrun.unique hrun'
    refine htwice.not_rested hfire (hrested (before ++ [e]) s₂ ?_ (hrun.snoc hguard hfire))
    exact ⟨after, by simp⟩
  · intro hcareful before s' hbefore hrun
    have hguarded := (hrun.heeding fun before' e s₁ hnext hrun' =>
      hcareful before' e s₁ (hnext.trans hbefore) hrun').passing fun _ _ _ hrun' => Runs.continued hrun'
    exact (hguarded.invariant (I := Sleepers) (Sleepers.initial policy) fun s e s' hs hguard hfire =>
      hs.step hguard.1 hguard.2.1 hfire).1

/-- Main calls `WaitUntil` again although it was not yet taken out, and is in the queue twice. -/
theorem main_sleeps_twice : ∃ (events : List (Event Unit)) (s : State Unit),
    Runs (fun _ => .roundRobin) (fun _ _ => True) events s ∧
      (s.sched ()).sleepQueue = [.main (), .main ()] ∧ ¬ Rested s ∧
        ¬ ∀ before e s', before ++ [e] <+: events →
          Runs (fun _ => .roundRobin) (fun _ _ => True) before s' →
          ¬ SleepsTwice s' e := by
  obtain ⟨events, s, hrun, hqueue⟩ : ∃ events s,
      Runs (fun _ : Unit => .roundRobin) (fun _ _ => True) events s ∧
        (s.sched ()).sleepQueue = [.main (), .main ()] :=
    reaches_of_drive [.call () (.main ()) (.waitUntil (WithTop.some 10)), .frames () 11 0,
      .call () (.main ()) (.waitUntil (WithTop.some 20))] (by decide)
  have htwice : ¬ Rested s := fun hrested => by simpa [hqueue] using hrested.nodup ()
  refine ⟨events, s, hrun, hqueue, htwice, fun hcareful => htwice ?_⟩
  exact (sleep_queues_rested_iff hrun).mpr hcareful events s List.prefix_rfl hrun

end Runs

end Lutask
