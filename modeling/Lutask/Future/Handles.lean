import Lutask.Future.Objects

/-!
# The handles of a shared state

The use count of a shared state is the number of pointers to it, whatever the objects go through. The
state is never destroyed, so it lives as long as its handles only in those runs in which no operation
gives up the last handle of a state.
-/

namespace Lutask

namespace Objects

open LabelledRuns ReferenceCounting ReferenceCounting.Store

variable {R E : Type*}

/-- The handles of a state. -/
def State.handles (s : State R E) (id : ℕ) : ℕ := s.store.count id

/-- The state of which an operation gives up a handle. An assignment gives up the handle of its target. -/
def State.gives (s : State R E) : Event R E → Option ℕ
  | .destroyTask p => s.store.px (.task p)
  | .copyAssign g f =>
    if s.store.px (.state g) = s.store.px (.state f) then none else s.store.px (.state g)
  | .moveAssign g f => if g = f then none else s.store.px (.state g)
  | .destroyFuture f => s.store.px (.state f)
  | .got f _ _ _ => s.store.px (.temp f)
  | _ => none

/-- The state of which an operation adds a handle. -/
def State.gains (s : State R E) : Event R E → Option ℕ
  | .makeTask _ id => some id
  | .getFuture _ _ state _ => state
  | .copyFuture _ f => s.store.px (.state f)
  | .copyAssign g f => if s.store.px (.state g) = s.store.px (.state f) then none else s.store.px (.state f)
  | _ => none

/-- The invariant of the pointers: the temporaries of `GetFuture` do not outlive it, pointers refer to
states that were made, and the use counts are right. -/
structure Accounted (s : State R E) : Prop where
  cast : .cast ∉ s.store.live
  parameter : .parameter ∉ s.store.live
  made : Refers (· < s.fresh) s.store
  counted : Counted (fun _ => 0) s.store

theorem Accounted.initial : Accounted (State.initial : State R E) where
  cast := by simp [State.initial]
  parameter := by simp [State.initial]
  made n id h := by simp [State.initial] at h
  counted id := by simp [State.initial, count, pointers]

section Operations

variable {s s' : State R E} {e : Event R E} {n : Pointer} {p f g id : ℕ}

theorem Accounted.makeTask (h : Accounted s) (hp : .task p ∉ s.store.live) :
    Accounted (s.makeTask p) where
  cast := by simpa [State.makeTask] using h.cast
  parameter := by simpa [State.makeTask] using h.parameter
  made := by
    have hmade : Refers (· < s.fresh + 1) s.store := fun n id hn => (h.made n id hn).trans (by omega)
    have hnull : Refers (· < s.fresh + 1) (s.store.construct (.task p) none) :=
      hmade.construct (by simp)
    have hallocated : Refers (· < s.fresh + 1)
        ((s.store.construct (.task p) none).allocate s.fresh 0 ⟨.initial, 0⟩) := hnull.congr rfl
    exact hallocated.assign (by simp)
  counted := by
    have hnew : ∀ n, (s.store.construct (.task p) none).px n ≠ some s.fresh := fun n hn =>
      absurd (h.made.construct (by simp) n _ hn) (Nat.lt_irrefl _)
    have hallocated := (h.counted.construct (p := none) hp).allocate (i := 0) (o := ⟨.initial, 0⟩) hnew
    rw [Function.update_eq_self] at hallocated
    exact hallocated.assign

/-- What a change of the pointers keeps. -/
theorem Accounted.setStore {store : Store Pointer ℕ (Shared R E)}
    (hcast : .cast ∉ store.live) (hparameter : .parameter ∉ store.live)
    (hmade : Refers (· < s.fresh) store) (hcounted : Counted (fun _ => 0) store) :
    Accounted (s.setStore store) :=
  ⟨hcast, hparameter, hmade, hcounted⟩

theorem Accounted.setCell (h : Accounted s) (id : ℕ) (cell : SharedState R E) :
    Accounted (s.setCell id cell) :=
  Accounted.setStore h.cast h.parameter (h.made.congr rfl) h.counted.modify

/-- The temporaries of `GetFuture` exist only inside of it. -/
theorem Accounted.getFuture (h : Accounted s) (hf : .state f ∉ s.store.live) :
    Accounted (s.getFuture p f) := by
  have hparameter : .parameter ∉ (s.store.construct .cast (s.store.px (.task p))).live := by
    simpa using h.parameter
  have hstate : .state f ∉ ((s.store.construct .cast (s.store.px (.task p))).construct .parameter
      ((s.store.construct .cast (s.store.px (.task p))).px .cast)).live := by
    simpa using hf
  have hcast := h.made.construct (n := .cast) (h.made (.task p))
  refine Accounted.setStore ?_ ?_ ?_ ?_
  · simp
  · simp
  · exact ((hcast.construct (hcast .cast)).moveConstruct.destroy).destroy
  · exact ((((h.counted.construct h.cast).construct hparameter).moveConstruct hstate
      (by simp)).destroy).destroy

/-- Every operation keeps the invariant of the pointers. -/
theorem Accounted.step (h : Accounted s) (hstep : Step s e s') : Accounted s' := by
  have hcast := h.cast
  have hparameter := h.parameter
  cases hstep with
  | makeTask hp => exact h.makeTask hp
  | moveTask hp hq =>
    exact Accounted.setStore (by simpa) (by simpa) h.made.moveConstruct (h.counted.moveConstruct hq hp)
  | destroyTask hp => exact Accounted.setStore (by simpa) (by simpa) h.made.destroy h.counted.destroy
  | runs hp hrun => exact h.setCell _ _
  | runThrows | runNull | getFutureNull | getNull => exact h
  | getFuture hp hf => exact h.getFuture hf
  | makeFuture hf =>
    exact Accounted.setStore (by simpa) (by simpa) (h.made.construct (by simp)) (h.counted.construct hf)
  | @copyFuture g f hf hg =>
    exact Accounted.setStore (by simpa) (by simpa) (h.made.construct (h.made (.state f)))
      (h.counted.construct hg)
  | @moveFuture g f hf hg =>
    exact Accounted.setStore (by simpa) (by simpa) ((h.made.construct (h.made (.state f))).assign (by simp))
      (h.counted.construct hg).assign
  | @copyAssign g f hf hg =>
    unfold State.copyAssign
    split
    · exact h
    · exact Accounted.setStore (by simpa) (by simpa) (h.made.assign (h.made (.state f))) h.counted.assign
  | @moveAssign g f hf hg =>
    unfold State.moveAssign
    split
    · exact h
    · exact Accounted.setStore (by simpa) (by simpa) ((h.made.assign (h.made (.state f))).assign (by simp))
        h.counted.assign.assign
  | destroyFuture hf => exact Accounted.setStore (by simpa) (by simpa) h.made.destroy h.counted.destroy
  | get hf htemp =>
    exact Accounted.setStore (by simpa) (by simpa) (h.made.construct (by simp)).swap
      (h.counted.construct htemp).swap
  | @got f id construction found hf hget =>
    have hset := h.setCell id (getLeft (s.cell id) found)
    exact Accounted.setStore (by simpa using hset.cast) (by simpa using hset.parameter) hset.made.destroy
      hset.counted.destroy

/-- `GetFuture` adds one handle. -/
theorem Accounted.handles_getFuture (h : Accounted s) (hf : .state f ∉ s.store.live)
    (hp : s.store.px (.task p) = some id) (a : ℕ) :
    (s.getFuture p f).handles a = s.handles a + references (some id) a := by
  have hparameter : .parameter ∉ (s.store.construct .cast (some id)).live := by
    simpa using h.parameter
  have hstate : .state f ∉ ((s.store.construct .cast (some id)).construct .parameter (some id)).live := by
    simpa using hf
  have hcasted := count_construct (p := some id) (a := a) h.cast
  have hpassed := count_construct (p := some id) (a := a) hparameter
  have hmade := count_moveConstruct (m := .parameter) (a := a) hstate (by simp)
  have hended := count_destroy (((s.store.construct .cast (some id)).construct .parameter
    (some id)).moveConstruct (.state f) .parameter) intrusivePtrRelease .parameter a
  have hdropped := count_destroy ((((s.store.construct .cast (some id)).construct .parameter
    (some id)).moveConstruct (.state f) .parameter).destroy intrusivePtrRelease .parameter)
    intrusivePtrRelease .cast a
  simp only [moveConstruct_px, destroy_px, Function.update_self, Function.update_of_ne, construct_px,
    ne_eq, reduceCtorEq, not_false_eq_true, references_none, Nat.add_zero] at *
  simp only [State.handles, State.getFuture, State.setStore, hp, construct_px, Function.update_self]
  omega

/-- The number of handles changes only as an operation gives one up or adds one. -/
theorem Accounted.handles_step (h : Accounted s) (hstep : Step s e s') (id : ℕ) :
    s'.handles id + references (s.gives e) id = s.handles id + references (s.gains e) id := by
  cases hstep with
  | @makeTask p hp =>
    have hnull := count_construct (p := none) (a := id) hp
    have hallocated : ((s.store.construct (.task p) none).allocate s.fresh 0 ⟨.initial, 0⟩).count id =
      (s.store.construct (.task p) none).count id := count_congr rfl
    have hmade := count_assign ((s.store.construct (.task p) none).allocate s.fresh 0 ⟨.initial, 0⟩)
      intrusivePtrRelease (.task p) (some s.fresh) id
    rw [allocate_px, construct_px, Function.update_self] at hmade
    rw [hallocated, hnull] at hmade
    simpa [State.handles, State.gives, State.gains, State.makeTask] using hmade
  | moveTask hp hq =>
    have hmoved := count_moveConstruct (a := id) hq hp
    simpa [State.handles, State.gives, State.gains, State.moveTask] using hmoved
  | @destroyTask p hp =>
    have hdestroyed := count_destroy s.store intrusivePtrRelease (.task p) id
    simpa [State.handles, State.gives, State.gains, State.destroyTask] using hdestroyed
  | runs | runThrows | runNull | getFutureNull | getNull => rfl
  | getFuture hp hf =>
    simpa [State.gives, State.gains] using h.handles_getFuture hf hp id
  | makeFuture hf =>
    have hmade := count_construct (p := none) (a := id) hf
    simpa [State.handles, State.gives, State.gains, State.makeFuture] using hmade
  | @copyFuture g f hf hg =>
    have hcopied := count_construct (p := s.store.px (.state f)) (a := id) hg
    simpa [State.handles, State.gives, State.gains, State.copyFuture] using hcopied
  | @moveFuture g f hf hg =>
    have hgf : Pointer.state f ≠ .state g := fun hgf => hg (hgf ▸ hf)
    have hcopied := count_construct (p := s.store.px (.state f)) (a := id) hg
    have hreset := count_assign (s.store.construct (.state g) (s.store.px (.state f)))
      intrusivePtrRelease (.state f) none id
    rw [construct_px, Function.update_of_ne hgf] at hreset
    simp only [State.handles, State.gives, State.gains, State.moveFuture, State.setStore_store,
      references_none] at *
    omega
  | @copyAssign g f hf hg =>
    have hcopied := count_assign s.store intrusivePtrRelease (.state g) (s.store.px (.state f)) id
    by_cases hsame : s.store.px (.state g) = s.store.px (.state f)
    · rw [hsame] at hcopied
      by_cases hgf : g = f
      · simp [State.handles, State.gives, State.gains, State.copyAssign, hgf]
      · simpa [State.handles, State.gives, State.gains, State.copyAssign, hgf, hsame] using hcopied
    · have hgf : g ≠ f := fun hgf => hsame (by rw [hgf])
      simpa [State.handles, State.gives, State.gains, State.copyAssign, hgf, hsame] using hcopied
  | @moveAssign g f hf hg =>
    by_cases hgf : g = f
    · simp [State.handles, State.gives, State.gains, State.moveAssign, hgf]
    · have hne : Pointer.state f ≠ .state g := by simpa using Ne.symm hgf
      have hcopied := count_assign s.store intrusivePtrRelease (.state g) (s.store.px (.state f)) id
      have hreset := count_assign (s.store.assign intrusivePtrRelease (.state g) (s.store.px (.state f)))
        intrusivePtrRelease (.state f) none id
      rw [assign_px, Function.update_of_ne hne] at hreset
      simp only [State.handles, State.gives, State.gains, State.moveAssign, if_neg hgf,
        State.setStore_store, references_none] at *
      omega
  | @destroyFuture f hf =>
    have hdestroyed := count_destroy s.store intrusivePtrRelease (.state f) id
    simpa [State.handles, State.gives, State.gains, State.destroyFuture] using hdestroyed
  | @get f id' hf htemp =>
    have hmade := count_construct (p := none) (a := id) htemp
    have hswapped :=
      count_swap (s := s.store.construct (.temp f) none) (n := .temp f) (m := .state f) (a := id)
    simp only [State.handles, State.gives, State.gains, State.get, State.setStore_store,
      references_none] at *
    omega
  | @got f id' construction found hf hget =>
    have hset : (s.setCell id' (getLeft (s.cell id') found)).store.count id = s.store.count id :=
      count_congr rfl
    have hdropped := count_destroy (s.setCell id' (getLeft (s.cell id') found)).store
      intrusivePtrRelease (.temp f) id
    rw [hset] at hdropped
    simpa [State.handles, State.gives, State.gains, State.dropTemp] using hdropped

/-- No operation destroys a state. -/
theorem Step.undestroyed (hstep : Step s e s') (h : ∀ id, (s.store.obj id).destroyed = 0) :
    ∀ id, (s'.store.obj id).destroyed = 0 := by
  intro id
  cases hstep with
  | makeTask hp =>
    by_cases hid : id = s.fresh
    · simp [State.makeTask, hid]
    · simpa [State.makeTask, hid] using h id
  | @runs p a result construction cell hp hrun =>
    by_cases hid : id = a
    · simpa [State.setCell, hid] using h a
    · simpa [State.setCell, hid] using h id
  | @got f a construction found hf hget =>
    by_cases hid : id = a
    · simpa [State.dropTemp, State.setCell, hid] using h a
    · simpa [State.dropTemp, State.setCell, hid] using h id
  | @copyAssign g f hf hg =>
    by_cases hgf : g = f
    · simpa [State.copyAssign, hgf] using h id
    · simpa [State.copyAssign, hgf] using h id
  | @moveAssign g f hf hg =>
    by_cases hgf : g = f
    · simpa [State.moveAssign, hgf] using h id
    · simpa [State.moveAssign, hgf] using h id
  | moveTask => simpa [State.moveTask] using h id
  | destroyTask => simpa [State.destroyTask] using h id
  | getFuture => simpa [State.getFuture] using h id
  | makeFuture => simpa [State.makeFuture] using h id
  | copyFuture => simpa [State.copyFuture] using h id
  | moveFuture => simpa [State.moveFuture] using h id
  | destroyFuture => simpa [State.destroyFuture] using h id
  | get => simpa [State.get] using h id
  | runThrows | runNull | getFutureNull | getNull => exact h id

/-- States are made one after the other. -/
theorem Step.fresh (hstep : Step s e s') :
    s'.fresh = s.fresh ∨ s'.fresh = s.fresh + 1 ∧ s.gains e = some s.fresh := by
  cases hstep with
  | makeTask hp => exact .inr ⟨rfl, rfl⟩
  | @copyAssign g f hf hg => exact .inl (by by_cases hgf : g = f <;> simp [State.copyAssign, hgf])
  | @moveAssign g f hf hg => exact .inl (by by_cases hgf : g = f <;> simp [State.moveAssign, hgf])
  | _ => exact .inl rfl

/-- What is given up was a handle. -/
theorem px_of_gives (hgives : s.gives e = some id) : ∃ n, s.store.px n = some id := by
  cases e with
  | destroyTask p => exact ⟨.task p, hgives⟩
  | destroyFuture f => exact ⟨.state f, hgives⟩
  | got f => exact ⟨.temp f, hgives⟩
  | copyAssign g f | moveAssign g f =>
    simp only [State.gives, Option.ite_none_left_eq_some] at hgives
    exact ⟨.state g, hgives.2⟩
  | _ => simp [State.gives] at hgives

/-- An operation does not give up a handle of the state of which it adds one. -/
theorem gains_ne_of_gives (hstep : Step s e s') (hgives : s.gives e = some id) :
    s.gains e ≠ some id := by
  cases hstep with
  | @copyAssign g f hf hg =>
    simp only [State.gives, State.gains] at hgives ⊢
    split at hgives
    · simp at hgives
    · rename_i hne
      rw [if_neg hne, ← hgives]
      exact Ne.symm hne
  | destroyTask | destroyFuture | got | moveAssign => simp [State.gains]
  | _ => simp [State.gives] at hgives

end Operations

section Lifetime

variable [DecidableEq R] [DecidableEq E] {events : List (Event R E)} {s : State R E}

/-- In every state that the run has reached, each state that was made has as many counted references as
handles, and was destroyed if and only if it has no handle. -/
def LivesAsHandles (events : List (Event R E)) : Prop :=
  ∀ before s, before <+: events → Runs (fun _ _ => True) before s → ∀ id, id < s.fresh →
    s.store.useCount id = s.handles id ∧
      (s.store.obj id).destroyed = if s.handles id = 0 then 1 else 0

/-- No operation of the run gives up the last handle of a state. -/
def KeepsHandles (events : List (Event R E)) : Prop :=
  ∀ before e s, before ++ [e] <+: events → Runs (fun _ _ => True) before s →
    ∀ id, s.gives e = some id → s.handles id ≠ 1

theorem Runs.accounted {guard : State R E → Event R E → Prop} (h : Runs guard events s) :
    Accounted s :=
  Run.invariant (I := Accounted) h Accounted.initial fun _ _ _ hs _ hstep => hs.step (step_inv hstep)

theorem Runs.undestroyed {guard : State R E → Event R E → Prop} (h : Runs guard events s) (id : ℕ) :
    (s.store.obj id).destroyed = 0 :=
  Run.invariant (I := fun s => ∀ id, (s.store.obj id).destroyed = 0) h (fun _ => rfl)
    (fun _ _ _ hs _ hstep => (step_inv hstep).undestroyed hs) id

omit [DecidableEq R] [DecidableEq E] in
/-- The number of handles is the use count. -/
theorem Accounted.useCount (h : Accounted s) (id : ℕ) : s.store.useCount id = s.handles id := by
  rw [h.counted id, Nat.zero_add, State.handles]

/-- While no operation gives up a last handle, every state that was made has one. -/
theorem KeepsHandles.handles_pos (h : Runs (fun _ _ => True) events s) (hkeeps : KeepsHandles events) :
    ∀ id, id < s.fresh → 0 < s.handles id := by
  have hrun := Run.heeding (P := fun s e => ∀ id, s.gives e = some id → s.handles id ≠ 1) h
    fun before e s hbefore hs => hkeeps before e s hbefore hs
  have hinv : Accounted s ∧ ∀ id, id < s.fresh → 0 < s.handles id := by
    refine Run.invariant (I := fun s => Accounted s ∧ ∀ id, id < s.fresh → 0 < s.handles id) hrun
      ⟨.initial, by simp [State.initial]⟩ fun s e s' hs hguard hstep => ?_
    have hstep := step_inv hstep
    refine ⟨hs.1.step hstep, fun id hid => ?_⟩
    have hcount := hs.1.handles_step hstep id
    by_cases hgives : s.gives e = some id
    · have hnot := hguard.1 id hgives
      obtain ⟨n, hn⟩ := px_of_gives hgives
      have hpos := hs.2 id (hs.1.made n id hn)
      rw [hgives, references_self] at hcount
      omega
    · rw [references_of_ne hgives] at hcount
      cases hstep.fresh with
      | inl hsame =>
        have hpos := hs.2 id (hsame ▸ hid)
        omega
      | inr hnew =>
        by_cases hlast : id = s.fresh
        · subst hlast
          rw [hnew.2, references_self] at hcount
          omega
        · have hpos := hs.2 id (by omega)
          omega
  exact hinv.2

/-- The use count is the number of handles in every state that a run reaches, but a state lives as long
as its handles only if the run never gives up the last one. -/
theorem lives_as_handles (h : Runs (fun _ _ => True) events s) :
    (∀ id, s.store.useCount id = s.handles id) ∧ (LivesAsHandles events ↔ KeepsHandles events) := by
  refine ⟨h.accounted.useCount, fun hlives before e s₁ hbefore hrun id hgives hone => ?_,
    fun hkeeps before s₁ hbefore hrun id hid => ?_⟩
  · obtain ⟨after, rfl⟩ := hbefore
    rw [List.append_assoc, List.singleton_append] at h
    obtain ⟨s₂, s₃, hbefore, -, hfire, hafter⟩ := h.cut
    obtain rfl := hrun.unique hbefore
    have hstep := step_inv hfire
    have hcount := hrun.accounted.handles_step hstep id
    rw [hgives, references_self, references_of_ne (gains_ne_of_gives hstep hgives)] at hcount
    obtain ⟨n, hn⟩ := px_of_gives hgives
    have hid : id < s₃.fresh := by
      have hmade := hrun.accounted.made n id hn
      cases hstep.fresh with
      | inl hsame => omega
      | inr hnew => omega
    have hnext : Runs (fun _ _ => True) (before ++ [e]) s₃ := hrun.snoc trivial hfire
    have hlaw := (hlives (before ++ [e]) s₃ (List.prefix_append _ _) hnext id hid).2
    have hzero : s₃.handles id = 0 := by omega
    rw [if_pos hzero, hnext.undestroyed id] at hlaw
    omega
  · have hpos := KeepsHandles.handles_pos hrun
      (fun earlier e s hearlier => hkeeps earlier e s (hearlier.trans hbefore)) id hid
    rw [if_neg (by omega), hrun.undestroyed id]
    exact ⟨hrun.accounted.useCount id, rfl⟩

/-- A `Get` ends while the task still exists. -/
def keptTask : List (Event ℕ ℕ) :=
  [.makeTask 0 0, .getFuture 0 0 (some 0) none, .moveTask 1 0, .run 1 (some 0) (.ok 7) none none,
    .get 0 (some 0) none, .got 0 0 none (.ok (.value 7))]

theorem keptTask_lives : ∃ s, Runs (fun _ _ => True) keptTask s ∧ s.handles 0 = 1 ∧
    (∀ id, s.store.useCount id = s.handles id) ∧ (LivesAsHandles keptTask ↔ KeepsHandles keptTask) := by
  obtain ⟨s, hplay, hhandles⟩ : ∃ s, play step (fun _ _ => true) State.initial keptTask = some s ∧
      s.handles 0 = 1 := ⟨_, rfl, rfl⟩
  have hrun : Runs (fun _ _ => True) keptTask s := Run.of_play (fun _ _ _ => trivial) hplay
  exact ⟨s, hrun, hhandles, lives_as_handles hrun⟩

/-- A task is destroyed, then its only future. -/
def abandonedTask : List (Event ℕ ℕ) :=
  [.makeTask 0 0, .getFuture 0 0 (some 0) none, .run 0 (some 0) (.ok 7) none none, .destroyTask 0,
    .destroyFuture 0]

/-- Nothing refers to the state any more, and it and its value were not destroyed. -/
theorem abandonedTask_leaks : ∃ s, Runs (fun _ _ => True) abandonedTask s ∧
    s.cell 0 = ⟨true, .value 7, none⟩ ∧ s.store.useCount 0 = 0 ∧ ¬ LivesAsHandles abandonedTask := by
  obtain ⟨s, hplay, hcell, hcount, hfresh, hhandles, hobj⟩ :
      ∃ s, play step (fun _ _ => true) State.initial abandonedTask = some s ∧
        s.cell 0 = ⟨true, .value 7, none⟩ ∧ s.store.useCount 0 = 0 ∧ s.fresh = 1 ∧ s.handles 0 = 0 ∧
        (s.store.obj 0).destroyed = 0 := ⟨_, rfl, rfl, rfl, rfl, rfl, rfl⟩
  have hrun : Runs (fun _ _ => True) abandonedTask s := Run.of_play (fun _ _ _ => trivial) hplay
  refine ⟨s, hrun, hcell, hcount, fun hlives => ?_⟩
  have hlaw := (hlives abandonedTask s List.prefix_rfl hrun 0 (by omega)).2
  rw [if_pos hhandles, hobj] at hlaw
  omega

end Lifetime

end Objects

end Lutask
