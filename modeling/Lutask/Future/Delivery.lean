import Lutask.Future.Objects

/-!
# The delivery of a task's value

Futures cannot be copied, so every `Get` takes over the pointer through which it reads. If `GetFuture` is
called only once on a task, at most one pointer leads to its value at any time, and a `Get` that returns
takes that pointer along. `GetFuture` itself does not keep to one call: it hands out another future
whenever it is asked, and what a second `Get` then returns was moved from.
-/

namespace Lutask

namespace Objects

open LabelledRuns ReferenceCounting ReferenceCounting.Store

variable {R E : Type*}

/-- The pointers through which `Get` reads. -/
def Pointer.reads : Pointer → Bool
  | .state _ | .temp _ => true
  | _ => false

/-- The operations on `FutureBase` objects that futures do not have. -/
def Event.copies : Event R E → Bool
  | .copyFuture .. | .copyAssign .. => true
  | _ => false

/-- A call of `GetFuture` on a task with this state. -/
def Event.retrieves (id : ℕ) : Event R E → Bool
  | .getFuture _ _ state _ => state = some id
  | _ => false

/-- No two reading pointers lead to the same state. -/
def Sole (px : Pointer → Option ℕ) : Prop :=
  ∀ n m id, n.reads → m.reads → px n = some id → px m = some id → n = m

/-- The reading pointers were passed on: each has its value from one that existed, and no two from the
same. -/
def Passed (px px' : Pointer → Option ℕ) : Prop :=
  ∃ source : Pointer → Pointer,
    (∀ n id, n.reads → px' n = some id → (source n).reads ∧ px (source n) = some id) ∧
    ∀ n m id, n.reads → m.reads → px' n = some id → px' m = some id → source n = source m → n = m

section Passing

variable {px px' : Pointer → Option ℕ} {a b : Pointer}

/-- Pointers that stay or become null. -/
theorem Passed.of_kept (h : ∀ n, n.reads → px' n = px n ∨ px' n = none) : Passed px px' := by
  refine ⟨id, fun n id hn hid => ⟨hn, ?_⟩, fun n m id _ _ _ _ heq => heq⟩
  cases h n hn with
  | inl hsame => exact hsame ▸ hid
  | inr hnull => simp [hnull] at hid

/-- One pointer is moved into another. -/
theorem Passed.move (ha : a.reads)
    (h : ∀ n, n.reads → px' n = Function.update (Function.update px b (px a)) a none n) :
    Passed px px' := by
  have hcases : ∀ n id, n.reads → px' n = some id →
      n ≠ a ∧ (n = b ∧ px a = some id ∨ n ≠ b ∧ px n = some id) := by
    intro n id hn hid
    rw [h n hn] at hid
    by_cases hna : n = a
    · simp [hna] at hid
    · by_cases hnb : n = b
      · subst hnb
        exact ⟨hna, .inl ⟨rfl, by simpa [hna] using hid⟩⟩
      · exact ⟨hna, .inr ⟨hnb, by simpa [hna, hnb] using hid⟩⟩
  refine ⟨fun n => if n = b then a else n, fun n id hn hid => ?_, fun n m id hn hm hnid hmid heq => ?_⟩
  · cases (hcases n id hn hid).2 with
    | inl hmoved => simpa [hmoved.1] using ⟨ha, hmoved.2⟩
    | inr hkept => simpa [hkept.1] using ⟨hn, hkept.2⟩
  · obtain ⟨hna, hn'⟩ := hcases n id hn hnid
    obtain ⟨hma, hm'⟩ := hcases m id hm hmid
    cases hn' with
    | inl hnb =>
      cases hm' with
      | inl hmb => rw [hnb.1, hmb.1]
      | inr hmb =>
        simp only [if_pos hnb.1, if_neg hmb.1] at heq
        exact absurd heq.symm hma
    | inr hnb =>
      cases hm' with
      | inl hmb =>
        simp only [if_neg hnb.1, if_pos hmb.1] at heq
        exact absurd heq hna
      | inr hmb => simpa [hnb.1, hmb.1] using heq

/-- Sole pointers that are passed on stay sole. -/
theorem Sole.passed (h : Sole px) (hpassed : Passed px px') : Sole px' := by
  obtain ⟨source, hfrom, hinj⟩ := hpassed
  intro n m id hn hm hnid hmid
  obtain ⟨hnr, hnp⟩ := hfrom n id hn hnid
  obtain ⟨hmr, hmp⟩ := hfrom m id hm hmid
  exact hinj n m id hn hm hnid hmid (h _ _ id hnr hmr hnp hmp)

end Passing

/-- Every operation but a copy passes the reading pointers on, or is a `GetFuture`, which adds one. -/
theorem Step.passes {s s' : State R E} {e : Event R E} (hstep : Step s e s') (hcopies : e.copies = false) :
    Passed s.store.px s'.store.px ∨ ∃ p f id, e = .getFuture p f (some id) none ∧
      s'.store.px (.state f) = some id ∧
      ∀ n, n.reads → n ≠ .state f → s'.store.px n = s.store.px n := by
  have hnull : ∀ {n n' : Pointer}, Function.update s.store.px n none n' = s.store.px n' ∨
      Function.update s.store.px n none n' = none := by
    intro n n'
    by_cases hn : n' = n
    · exact .inr (by simp [hn])
    · exact .inl (by simp [hn])
  cases hstep with
  | @makeTask p hp =>
    refine .inl (.of_kept fun n hn => .inl ?_)
    have hnp : n ≠ .task p := by rintro rfl; simp [Pointer.reads] at hn
    simp [State.makeTask, hnp]
  | @moveTask q p hp hq =>
    refine .inl (.of_kept fun n hn => .inl ?_)
    have hnp : n ≠ .task p := by rintro rfl; simp [Pointer.reads] at hn
    have hnq : n ≠ .task q := by rintro rfl; simp [Pointer.reads] at hn
    simp [State.moveTask, hnp, hnq]
  | destroyTask hp => exact .inl (.of_kept fun n _ => by simpa [State.destroyTask] using hnull)
  | @getFuture p f id hp hf =>
    refine .inr ⟨p, f, id, rfl, by simp [State.getFuture, hp], fun n hn hnf => ?_⟩
    have hcast : n ≠ .cast := by rintro rfl; simp [Pointer.reads] at hn
    have hparameter : n ≠ .parameter := by rintro rfl; simp [Pointer.reads] at hn
    simp [State.getFuture, hnf, hcast, hparameter]
  | makeFuture hf => exact .inl (.of_kept fun n _ => by simpa [State.makeFuture] using hnull)
  | @moveFuture g f hf hg =>
    exact .inl (.move (a := .state f) (b := .state g) rfl fun n _ => by simp [State.moveFuture])
  | @moveAssign g f hf hg =>
    by_cases hgf : g = f
    · exact .inl (.of_kept fun n _ => .inl (by simp [State.moveAssign, hgf]))
    · exact .inl (.move (a := .state f) (b := .state g) rfl fun n _ => by simp [State.moveAssign, hgf])
  | destroyFuture hf => exact .inl (.of_kept fun n _ => by simpa [State.destroyFuture] using hnull)
  | @get f id hf htemp =>
    exact .inl (.move (a := .state f) (b := .temp f) rfl fun n _ => by simp [State.get])
  | got hf hget => exact .inl (.of_kept fun n _ => by simpa [State.dropTemp] using hnull)
  | copyFuture | copyAssign => simp [Event.copies] at hcopies
  | runs | runThrows | runNull | getFutureNull | getNull => exact .inl (.of_kept fun n _ => .inl rfl)

/-- What a step does to the shared states. -/
inductive CellStep (s : State R E) (id : ℕ) : Event R E → SharedState R E → Prop
  | same {e : Event R E} : CellStep s id e (s.cell id)
  | made {p : ℕ} : CellStep s id (.makeTask p id) .initial
  | run {p : ℕ} {result : Except E R} {construction : Option E} {cell : SharedState R E}
      (hrun : (s.cell id).run result construction = .ok cell) :
      CellStep s id (.run p (some id) result construction none) cell
  | got {f : ℕ} {construction : Option E} {found : Except (TaskException E) (Storage R)}
      (hf : s.store.px (.temp f) = some id) :
      CellStep s id (.got f id construction (getResult construction found)) (getLeft (s.cell id) found)

theorem Step.cell {s s' : State R E} {e : Event R E} (hstep : Step s e s') (id : ℕ) :
    CellStep s id e (s'.cell id) := by
  have hkept : ∀ {s' : State R E}, s'.store.obj = s.store.obj → CellStep s id e (s'.cell id) := by
    intro s' hobj
    have hcell : s'.cell id = s.cell id := by rw [State.cell, hobj, State.cell]
    exact hcell ▸ .same
  cases hstep with
  | @makeTask p hp =>
    by_cases hid : id = s.fresh
    · subst hid
      simpa [State.cell, State.makeTask] using CellStep.made
    · have hcell : (s.makeTask p).cell id = s.cell id := by simp [State.cell, State.makeTask, hid]
      exact hcell ▸ .same
  | @runs p a result construction cell hp hrun =>
    by_cases hid : id = a
    · subst hid
      simpa [State.cell, State.setCell] using CellStep.run hrun
    · have hcell : (s.setCell a cell).cell id = s.cell id := by simp [State.cell, State.setCell, hid]
      exact hcell ▸ .same
  | @got f a construction found hf hget =>
    by_cases hid : id = a
    · subst hid
      simpa [State.cell, State.dropTemp, State.setCell] using CellStep.got (s := s) hf
    · have hcell : ((s.setCell a (getLeft (s.cell a) found)).dropTemp f).cell id = s.cell id := by
        simp [State.cell, State.dropTemp, State.setCell, hid]
      exact hcell ▸ .same
  | @copyAssign g f hf hg =>
    exact hkept (by by_cases hgf : g = f <;> simp [State.copyAssign, hgf])
  | @moveAssign g f hf hg =>
    exact hkept (by by_cases hgf : g = f <;> simp [State.moveAssign, hgf])
  | moveTask => exact hkept (by simp [State.moveTask])
  | destroyTask => exact hkept (by simp [State.destroyTask])
  | getFuture => exact hkept (by simp [State.getFuture])
  | makeFuture => exact hkept (by simp [State.makeFuture])
  | copyFuture => exact hkept (by simp [State.copyFuture])
  | moveFuture => exact hkept (by simp [State.moveFuture])
  | destroyFuture => exact hkept (by simp [State.destroyFuture])
  | get => exact hkept (by simp [State.get])
  | runThrows | runNull | getFutureNull | getNull => exact .same

/-- The invariant of a run in which `GetFuture` is called once at most on every task. -/
structure Delivering (events : List (Event R E)) (s : State R E) : Prop where
  sole : Sole s.store.px
  retrieved : ∀ n id, n.reads → s.store.px n = some id → ∃ e ∈ events, e.retrieves id
  taken : ∀ n id, (s.cell id).storage = .movedFrom → n.reads → s.store.px n ≠ some id
  delivered : ∀ id, (s.cell id).storage = .movedFrom → ∃ e ∈ events, e.retrieves id
  value : ∀ id v, (s.cell id).storage = .value v → ∃ p, .run p (some id) (.ok v) none none ∈ events
  stored : ∀ id, (s.cell id).ready → (s.cell id).except = none → (s.cell id).storage ≠ .raw

theorem Delivering.initial : Delivering [] (State.initial : State R E) where
  sole n m id _ _ hn := by simp [State.initial] at hn
  retrieved n id _ hn := by simp [State.initial] at hn
  taken n id _ _ := by simp [State.initial]
  delivered id h := by simp [State.cell, State.initial, SharedState.initial] at h
  value id v h := by simp [State.cell, State.initial, SharedState.initial] at h
  stored id h := by simp [State.cell, State.initial, SharedState.initial] at h

section Invariant

variable {events : List (Event R E)} {s s' : State R E} {e : Event R E} {n : Pointer} {id : ℕ}

theorem mem_snoc {P : Event R E → Prop} (h : ∃ e' ∈ events, P e') :
    ∃ e' ∈ events ++ [e], P e' := by
  obtain ⟨e', he', hP⟩ := h
  exact ⟨e', List.mem_append_left _ he', hP⟩

/-- A reading pointer leads to where one led before, or the step has called `GetFuture`. -/
theorem Step.origin (hstep : Step s e s') (hcopies : e.copies = false) (hn : n.reads)
    (hid : s'.store.px n = some id) :
    (∃ m, m.reads ∧ s.store.px m = some id) ∨ e.retrieves id := by
  cases hstep.passes hcopies with
  | inl hpassed =>
    obtain ⟨source, hfrom, -⟩ := hpassed
    exact .inl ⟨source n, hfrom n id hn hid⟩
  | inr hmade =>
    obtain ⟨p, f, id', rfl, hnew, hold⟩ := hmade
    by_cases hnf : n = .state f
    · subst hnf
      obtain rfl : id' = id := by simpa [hnew] using hid
      exact .inr (by simp [Event.retrieves])
    · exact .inl ⟨n, hn, hold n hn hnf ▸ hid⟩

/-- The first `GetFuture` of a task is the first pointer through which it is read. -/
theorem Delivering.sole_step (h : Delivering events s) (hstep : Step s e s')
    (hcopies : e.copies = false) (honce : ∀ id, e.retrieves id → ∀ e' ∈ events, ¬ e'.retrieves id) :
    Sole s'.store.px := by
  cases hstep.passes hcopies with
  | inl hpassed => exact h.sole.passed hpassed
  | inr hmade =>
    obtain ⟨p, f, id, rfl, hnew, hold⟩ := hmade
    have hfirst : ∀ n, n.reads → s.store.px n ≠ some id := by
      intro n hn hnid
      obtain ⟨e', he', hretrieves⟩ := h.retrieved n id hn hnid
      exact honce id (by simp [Event.retrieves]) e' he' hretrieves
    intro n m id' hn hm hnid hmid
    by_cases hnf : n = .state f <;> by_cases hmf : m = .state f
    · rw [hnf, hmf]
    · subst hnf
      obtain rfl : id = id' := by simpa [hnew] using hnid
      exact absurd (hold m hm hmf ▸ hmid) (hfirst m hm)
    · subst hmf
      obtain rfl : id = id' := by simpa [hnew] using hmid
      exact absurd (hold n hn hnf ▸ hnid) (hfirst n hn)
    · exact h.sole n m id' hn hm (hold n hn hnf ▸ hnid) (hold m hm hmf ▸ hmid)

theorem Delivering.retrieved_step (h : Delivering events s) (hstep : Step s e s')
    (hcopies : e.copies = false) (hn : n.reads) (hid : s'.store.px n = some id) :
    ∃ e' ∈ events ++ [e], e'.retrieves id := by
  cases hstep.origin hcopies hn hid with
  | inl hold =>
    obtain ⟨m, hm, hmid⟩ := hold
    exact mem_snoc (h.retrieved m id hm hmid)
  | inr hnew => exact ⟨e, by simp, hnew⟩

/-- What is left of a value was delivered by this step or before. -/
theorem moved_step (hstep : Step s e s') (hmoved : (s'.cell id).storage = .movedFrom) :
    (s.cell id).storage = .movedFrom ∨ ∃ f construction result, e = .got f id construction result ∧
      s.store.px (.temp f) = some id := by
  have hcell := hstep.cell id
  generalize hnew : s'.cell id = cell at hcell hmoved
  cases hcell with
  | same => exact .inl hmoved
  | made => simp [SharedState.initial] at hmoved
  | run hrun =>
    cases (SharedState.run_ok hrun).2 with
    | inl hvalue =>
      obtain ⟨v, -, -, rfl⟩ := hvalue
      simp at hmoved
    | inr hexcept =>
      obtain ⟨x, rfl⟩ := hexcept
      exact .inl hmoved
  | got hf => exact .inr ⟨_, _, _, rfl, hf⟩

/-- The pointer through which a value was taken does not lead to it any more. -/
theorem Delivering.taken_step (h : Delivering events s) (hstep : Step s e s')
    (hcopies : e.copies = false) (honce : ∀ id, e.retrieves id → ∀ e' ∈ events, ¬ e'.retrieves id)
    (hmoved : (s'.cell id).storage = .movedFrom) (hn : n.reads) : s'.store.px n ≠ some id := by
  intro hid
  cases moved_step hstep hmoved with
  | inl hold =>
    cases hstep.origin hcopies hn hid with
    | inl hbefore =>
      obtain ⟨m, hm, hmid⟩ := hbefore
      exact h.taken m id hold hm hmid
    | inr hnew =>
      obtain ⟨e', he', hretrieves⟩ := h.delivered id hold
      exact honce id hnew e' he' hretrieves
  | inr hgot =>
    obtain ⟨f, construction, result, rfl, hf⟩ := hgot
    cases hstep with
    | got hf' hget =>
      by_cases hnf : n = .temp f
      · simp [hnf, State.dropTemp] at hid
      · have hold : s.store.px n = some id := by simpa [State.dropTemp, hnf] using hid
        exact hnf (h.sole n (.temp f) id hn rfl hold hf)

theorem Delivering.delivered_step (h : Delivering events s) (hstep : Step s e s')
    (hmoved : (s'.cell id).storage = .movedFrom) : ∃ e' ∈ events ++ [e], e'.retrieves id := by
  cases moved_step hstep hmoved with
  | inl hold => exact mem_snoc (h.delivered id hold)
  | inr hgot =>
    obtain ⟨f, construction, result, rfl, hf⟩ := hgot
    exact mem_snoc (h.retrieved (.temp f) id rfl hf)

/-- A stored value is one that the function has returned. -/
theorem Delivering.value_step (h : Delivering events s) (hstep : Step s e s') {v : R}
    (hvalue : (s'.cell id).storage = .value v) :
    ∃ p, .run p (some id) (.ok v) none none ∈ events ++ [e] := by
  have hkept : (s.cell id).storage = .value v →
      ∃ p, .run p (some id) (.ok v) none none ∈ events ++ [e] := by
    intro hold
    obtain ⟨p, hp⟩ := h.value id v hold
    exact ⟨p, List.mem_append_left _ hp⟩
  have hcell := hstep.cell id
  generalize hnew : s'.cell id = cell at hcell hvalue
  cases hcell with
  | same => exact hkept hvalue
  | made => simp [SharedState.initial] at hvalue
  | @run p result construction cell hrun =>
    cases (SharedState.run_ok hrun).2 with
    | inl hreturned =>
      obtain ⟨v', rfl, rfl, rfl⟩ := hreturned
      obtain rfl : v' = v := by simpa using hvalue
      exact ⟨p, by simp⟩
    | inr hexcept =>
      obtain ⟨x, rfl⟩ := hexcept
      exact hkept hvalue
  | @got f construction found hf =>
    cases found with
    | error x => exact hkept hvalue
    | ok value => simp [getLeft, SharedState.moveOut] at hvalue

theorem Delivering.stored_step (h : Delivering events s) (hstep : Step s e s')
    (hready : (s'.cell id).ready) (hexcept : (s'.cell id).except = none) :
    (s'.cell id).storage ≠ .raw := by
  have hcell := hstep.cell id
  generalize hnew : s'.cell id = cell at hcell hready hexcept
  cases hcell with
  | same => exact h.stored id hready hexcept
  | made => simp [SharedState.initial] at hready
  | run hrun =>
    cases (SharedState.run_ok hrun).2 with
    | inl hreturned =>
      obtain ⟨v, -, -, rfl⟩ := hreturned
      simp
    | inr hthrown =>
      obtain ⟨x, rfl⟩ := hthrown
      simp at hexcept
  | @got f construction found hf =>
    cases found with
    | error x => exact h.stored id hready hexcept
    | ok value => simp [getLeft, SharedState.moveOut]

theorem Delivering.step (h : Delivering events s) (hstep : Step s e s') (hcopies : e.copies = false)
    (honce : ∀ id, e.retrieves id → ∀ e' ∈ events, ¬ e'.retrieves id) :
    Delivering (events ++ [e]) s' where
  sole := h.sole_step hstep hcopies honce
  retrieved _ _ := h.retrieved_step hstep hcopies
  taken _ _ := h.taken_step hstep hcopies honce
  delivered _ := h.delivered_step hstep
  value _ _ := h.value_step hstep
  stored _ := h.stored_step hstep

end Invariant

section Delivery

variable [DecidableEq R] [DecidableEq E] {events : List (Event R E)} {s : State R E}

/-- The runs on tasks and futures: futures are moved, but not copied. -/
abbrev FutureRuns (events : List (Event R E)) (s : State R E) : Prop :=
  Runs (fun _ e => e.copies = false) events s

/-- The value of each task of the run was delivered once. -/
structure Delivered (events : List (Event R E)) : Prop where
  /-- A further `GetFuture` of a task throws `TaskAlreadyRetrived` and changes nothing. -/
  once : ∀ before p f id thrown after, events = before ++ .getFuture p f (some id) thrown :: after →
    (∃ e ∈ before, e.retrieves id) → thrown = some .taskAlreadyRetrived ∧
      ∀ s s', FutureRuns before s → step s (.getFuture p f (some id) thrown) = some s' → s' = s
  /-- A `Get` that returns yields the value that the function has produced. -/
  value : ∀ f id construction storage, .got f id construction (.ok storage) ∈ events →
    ∃ v p, storage = .value v ∧ .run p (some id) (.ok v) none none ∈ events

omit [DecidableEq R] [DecidableEq E] in
/-- Of two calls one comes first. -/
theorem exists_earlier_of_two_le_countP {p : Event R E → Bool} (h : 2 ≤ events.countP p) :
    ∃ before e after, events = before ++ e :: after ∧ p e ∧ ∃ e' ∈ before, p e' := by
  induction events with
  | nil => simp at h
  | cons a events ih =>
    by_cases ha : p a
    · rw [List.countP_cons_of_pos ha] at h
      have hlater : 0 < events.countP p := by omega
      obtain ⟨e, he, hpe⟩ := List.countP_pos_iff.mp hlater
      obtain ⟨before, after, rfl⟩ := List.append_of_mem he
      exact ⟨a :: before, e, after, rfl, hpe, a, by simp, ha⟩
    · rw [List.countP_cons_of_neg ha] at h
      obtain ⟨before, e, after, rfl, hpe, e', he', hpe'⟩ := ih h
      exact ⟨a :: before, e, after, rfl, hpe, e', by simp [he'], hpe'⟩

omit [DecidableEq R] [DecidableEq E] in
/-- Under the invariant a `Get` that returns yields the value. -/
theorem Delivering.get_value (h : Delivering events s) {s' : State R E} {f id : ℕ}
    {construction : Option E} {storage : Storage R}
    (hstep : Step s (.got f id construction (.ok storage)) s') :
    ∃ v p, storage = .value v ∧ .run p (some id) (.ok v) none none ∈ events := by
  generalize hresult : Except.ok storage = result at hstep
  cases hstep with
  | @got f id construction found hf hget =>
    cases found with
    | error x => simp [getResult] at hresult
    | ok found =>
      cases construction with
      | some e => simp [getResult] at hresult
      | none =>
        obtain rfl : storage = found := by simpa [getResult] using hresult
        obtain ⟨hready, hexcept, rfl⟩ := SharedState.get_ok hget
        cases hstorage : (s.cell id).storage with
        | raw => exact absurd hstorage (h.stored id hready hexcept)
        | movedFrom => exact absurd hf (h.taken _ id hstorage rfl)
        | value v =>
          obtain ⟨p, hp⟩ := h.value id v hstorage
          exact ⟨v, p, rfl, hp⟩

/-- As long as `GetFuture` is called once at most on every task, each `Get` that returns yields the value
of the function. -/
theorem FutureRuns.delivering (h : FutureRuns events s)
    (hone : ∀ id, events.countP (·.retrieves id) ≤ 1) : Delivering events s ∧
      ∀ f id construction storage, .got f id construction (.ok storage) ∈ events →
        ∃ v p, storage = .value v ∧ .run p (some id) (.ok v) none none ∈ events := by
  induction h with
  | nil => exact ⟨.initial, by simp⟩
  | @snoc events s s' e hrun hguard hfire ih =>
    have hbefore : ∀ id, events.countP (·.retrieves id) ≤ 1 := by
      intro id
      have := hone id
      rw [List.countP_append] at this
      omega
    have honce : ∀ id, e.retrieves id → ∀ e' ∈ events, ¬ e'.retrieves id := by
      intro id he e' he' hretrieves
      have hpos : 0 < events.countP (·.retrieves id) := List.countP_pos_iff.mpr ⟨e', he', hretrieves⟩
      have := hone id
      rw [List.countP_append, List.countP_singleton, if_pos he] at this
      omega
    obtain ⟨hinv, hvalues⟩ := ih hbefore
    have hstep := step_inv hfire
    refine ⟨hinv.step hstep hguard honce, fun f id construction storage hgot => ?_⟩
    have hearlier : ∃ v p, storage = .value v ∧ .run p (some id) (.ok v) none none ∈ events := by
      cases List.mem_append.mp hgot with
      | inl hold => exact hvalues f id construction storage hold
      | inr hnew =>
        obtain rfl := List.mem_singleton.mp hnew
        exact hinv.get_value hstep
    obtain ⟨v, p, hv, hp⟩ := hearlier
    exact ⟨v, p, hv, List.mem_append_left _ hp⟩

/-- The value of each task is delivered once exactly in those runs that call `GetFuture` once at most on
every task: the code does not stop a second call. -/
theorem delivered_iff_retrieved_once (h : FutureRuns events s) :
    Delivered events ↔ ∀ id, events.countP (·.retrieves id) ≤ 1 := by
  refine ⟨fun hdelivered id => ?_, fun hone => ⟨fun before p f id thrown after hevents hearlier => ?_,
    (FutureRuns.delivering h hone).2⟩⟩
  · by_contra htwo
    have hcount : 2 ≤ events.countP (·.retrieves id) := by omega
    obtain ⟨before, e, after, rfl, he, hearlier⟩ := exists_earlier_of_two_le_countP hcount
    obtain ⟨s₁, s₂, -, -, hfire, -⟩ := h.cut
    have hstep := step_inv hfire
    cases e with
    | getFuture p f state thrown =>
      obtain rfl : state = some id := by simpa [Event.retrieves] using he
      have hthrown := (hdelivered.once before p f id thrown after rfl hearlier).1
      cases hstep with
      | getFuture => simp at hthrown
    | _ => simp [Event.retrieves] at he
  · obtain ⟨e, he, hretrieves⟩ := hearlier
    have hpos : 0 < before.countP (·.retrieves id) := List.countP_pos_iff.mpr ⟨e, he, hretrieves⟩
    have := hone id
    rw [hevents, List.countP_append, List.countP_cons_of_pos (by simp [Event.retrieves])] at this
    omega

/-- One future, moved while the task has not run yet. -/
def retrievedOnce : List (Event ℕ ℕ) :=
  [.makeTask 0 0, .getFuture 0 0 (some 0) none, .moveTask 1 0, .moveFuture 1 0,
    .get 0 none (some .futureUninitialized), .get 1 (some 0) none, .run 1 (some 0) (.ok 7) none none,
    .run 1 (some 0) (.ok 8) none (some .taskAlreadySatisfied), .got 1 0 none (.ok (.value 7))]

theorem retrievedOnce_delivered : ∃ s, FutureRuns retrievedOnce s ∧ Delivered retrievedOnce := by
  obtain ⟨s, hplay⟩ : ∃ s, play step (fun _ e => !e.copies) State.initial retrievedOnce = some s :=
    ⟨_, rfl⟩
  have hrun : FutureRuns retrievedOnce s := Run.of_play (by simp) hplay
  refine ⟨s, hrun, (delivered_iff_retrieved_once hrun).mpr fun id => ?_⟩
  by_cases hid : 0 = id <;> simp [retrievedOnce, Event.retrieves, hid]

/-- Two futures of one task, and a `Get` on each. -/
def retrievedTwice : List (Event ℕ ℕ) :=
  [.makeTask 0 0, .getFuture 0 0 (some 0) none, .getFuture 0 1 (some 0) none,
    .run 0 (some 0) (.ok 7) none none, .get 0 (some 0) none, .got 0 0 none (.ok (.value 7)),
    .get 1 (some 0) none, .got 1 0 none (.ok .movedFrom)]

/-- The second `GetFuture` returns, and so does the second `Get`, with what the first has left. -/
theorem retrievedTwice_not_delivered : (∃ s, FutureRuns retrievedTwice s) ∧ ¬ Delivered retrievedTwice := by
  obtain ⟨s, hplay⟩ : ∃ s, play step (fun _ e => !e.copies) State.initial retrievedTwice = some s :=
    ⟨_, rfl⟩
  refine ⟨⟨s, Run.of_play (by simp) hplay⟩, fun hdelivered => ?_⟩
  obtain ⟨v, p, hv, -⟩ := hdelivered.value 1 0 none .movedFrom (by simp [retrievedTwice])
  simp at hv

end Delivery

end Objects

end Lutask
