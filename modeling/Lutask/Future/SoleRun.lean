import Lutask.Future.OneShot

/-!
# A shared state that one execution of `Run` fulfils

One party calls `TaskObject::Run`, once at most, and the others call no setter. Then every setter that `Run`
calls finds `ready_` false, so that no exception leaves it, and a `Get` yields what this one application of
the function has returned or thrown.
-/

namespace Lutask

namespace OneShot

variable {P R E : Type*}

/-- How `fn_` has ended. -/
def Event.result : Event P R E → Option (Except E R)
  | .invoke _ result => some result
  | _ => none

section Trails

variable {p : P} {l : List (Event P R E)} {pc : Pc R E} {e : Event P R E}
  {found : Except (TaskException E) R}

/-- A setter that has not set anything yet is the first one of its `Run` to do so. -/
theorem RunTrail.unfixed (h : RunTrail p l pc)
    (hpc : (∃ v inRun, pc = .setValue v inRun) ∨ ∃ x inRun, pc = .setException x inRun) (he : e ∈ l) :
    e.fixes = none := by
  cases h with
  | started => simp at he
  | evaluated v | raised x =>
    obtain rfl := List.mem_singleton.mp he
    rfl
  | failed v x =>
    have hcases : e = .invoke p (.ok v) ∨ e = .setValue p v (some x) false := by simpa using he
    cases hcases with
    | inl hinvoke => simp [hinvoke, Event.fixes]
    | inr hset => simp [hset, Event.fixes]
  | satisfied v construction =>
    have hcases : e = .invoke p (.ok v) ∨ e = .setValue p v construction true := by simpa using he
    cases hcases with
    | inl hinvoke => simp [hinvoke, Event.fixes]
    | inr hset => simp [hset, Event.fixes]
  | _ => simp at hpc

/-- What an execution of `Run` fixes is the value of the function, or an exception of its own. -/
theorem RunTrail.outcome (h : RunTrail p l pc) (he : e ∈ l) (hfixes : e.fixes = some found) :
    RunOutcome p l found := by
  have hunfixed : ∀ {l : List (Event P R E)} {x}, RunTrail p l (.setException x true) → e ∉ l :=
    fun hset hmem => by simp [hset.unfixed (.inr ⟨_, _, rfl⟩) hmem] at hfixes
  induction h with
  | set v =>
    have hcases : e = .invoke p (.ok v) ∨ e = .setValue p v none false := by simpa using he
    cases hcases with
    | inl hinvoke => simp [hinvoke, Event.fixes] at hfixes
    | inr hset =>
      obtain rfl : Except.ok v = found := by simpa [hset, Event.fixes] using hfixes
      exact .value (by simp)
  | @caught l x hset hx =>
    have hlast : e = .setException p x false := by simpa [hunfixed hset] using he
    obtain rfl : Except.error x = found := by simpa [hlast, Event.fixes] using hfixes
    exact (hset.handled hx).mono fun e he => by simp [he]
  | @rejected l x hset =>
    have hlast : e = .setException p x true := by simpa [hunfixed hset] using he
    simp [hlast, Event.fixes] at hfixes
  | @notified l hnotify ih =>
    have hearlier : e ∈ l := by
      cases List.mem_append.mp he with
      | inl hold => exact hold
      | inr hlast => simp [List.mem_singleton.mp hlast, Event.fixes] at hfixes
    exact (ih hearlier).mono fun e he => by simp [he]
  | started => simp at he
  | evaluated v => simp [(RunTrail.evaluated v).unfixed (.inl ⟨_, _, rfl⟩) he] at hfixes
  | raised x => exact absurd he (hunfixed (.raised x))
  | failed v x => exact absurd he (hunfixed (.failed v x))
  | satisfied v construction => exact absurd he (hunfixed (.satisfied v construction))

/-- `Run` applies the function once at most. -/
theorem RunTrail.result_le_one (h : RunTrail p l pc) : (l.filterMap Event.result).length ≤ 1 := by
  induction h with
  | caught hset hx ih | rejected hset ih | notified hnotify ih =>
    simpa [List.filterMap_append, List.filterMap_cons, Event.result] using ih
  | _ => simp [List.filterMap_cons, Event.result]

end Trails

variable [DecidableEq P] {p : P} {events : List (Event P R E)} {s s' : State P R E} {e : Event P R E}

/-- How the applications of the function by `p` have ended. -/
def results (p : P) (events : List (Event P R E)) : List (Except E R) :=
  (events.filter (·.party = p)).filterMap Event.result

theorem mem_results {result : Except E R} (h : .invoke p result ∈ events) : result ∈ results p events :=
  List.mem_filterMap.mpr ⟨.invoke p result, List.mem_filter.mpr ⟨h, by simp [Event.party]⟩, rfl⟩

/-- `p` calls `Run` and only once, and the others fix nothing. -/
def Fulfils (p : P) (events : List (Event P R E)) (e : Event P R E) : Prop :=
  (e.party = p → e.called = none ∨ e = .call p .run ∧ events.filter (·.party = p) = []) ∧
    (e.party ≠ p → e.fixes = none)

/-- What is true of a shared state that one execution of `Run`, by `p`, is to fulfil. -/
structure SoleRun (p : P) (events : List (Event P R E)) (s : State P R E) : Prop where
  consistent : Consistent events s
  own : events.filter (·.party = p) = [] ∧ s.pc p = .idle ∨
    ∃ steps, events.filter (·.party = p) = .call p .run :: steps ∧ (∀ e ∈ steps, e.called = none) ∧
      RunTrail p steps (s.pc p)
  others : ∀ e ∈ events, e.party ≠ p → e.fixes = none
  found : ∀ e ∈ events, e.party = p → e.found ≠ some true

theorem SoleRun.initial : SoleRun p [] (State.initial : State P R E) where
  consistent := .initial
  own := .inl ⟨rfl, rfl⟩
  others e he := by simp at he
  found e he := by simp at he

/-- The trail of a party that has called one function only. -/
theorem trail_of_filter {c : Call R E} {steps : List (Event P R E)}
    (hown : events.filter (·.party = p) = .call p c :: steps) (hsteps : ∀ e ∈ steps, e.called = none) :
    trail p events = steps ∧ lastCall p events = some c := by
  have hlast : steps.reverse.findSome? Event.called = none :=
    List.findSome?_eq_none_iff.mpr fun e he => hsteps e (List.mem_reverse.mp he)
  constructor
  · have hall : ∀ e ∈ steps.reverse, e.called.isNone := fun e he => by
      simp [hsteps e (List.mem_reverse.mp he)]
    rw [trail, hown, List.reverse_cons, List.takeWhile_append_of_pos hall]
    simp [Event.called]
  · simp [lastCall, hown, List.findSome?_append, hlast, Event.called]

/-- A setter of the only `Run` finds nothing fixed. -/
theorem SoleRun.open (h : SoleRun p events s)
    (hpc : (∃ v inRun, s.pc p = .setValue v inRun) ∨ ∃ x inRun, s.pc p = .setException x inRun) :
    s.cell.ready = false := by
  have hnone : firstOutcome events = none := by
    refine List.findSome?_eq_none_iff.mpr fun e he => ?_
    by_cases hparty : e.party = p
    · have hown : e ∈ events.filter (·.party = p) := by simp [he, hparty]
      rcases h.own with ⟨hempty, -⟩ | ⟨steps, hfilter, -, htrail⟩
      · simp [hempty] at hown
      · cases List.mem_cons.mp (hfilter ▸ hown) with
        | inl hcall => rw [hcall]; rfl
        | inr hstep => exact htrail.unfixed hpc hstep
    · exact h.others e he hparty
  rw [h.consistent.cell, SharedState.fixed_ready, hnone]
  rfl

theorem SoleRun.own_step (h : SoleRun p events s) (hstep : Step s e s') (he : Fulfils p events e) :
    (events ++ [e]).filter (·.party = p) = [] ∧ s'.pc p = .idle ∨
      ∃ steps, (events ++ [e]).filter (·.party = p) = .call p .run :: steps ∧
        (∀ e ∈ steps, e.called = none) ∧ RunTrail p steps (s'.pc p) := by
  have htrails := (h.consistent.step hstep).trails p
  have hrun : ∀ steps, (events ++ [e]).filter (·.party = p) = .call p .run :: steps →
      (∀ e ∈ steps, e.called = none) → RunTrail p steps (s'.pc p) := by
    intro steps hfilter hsteps
    obtain ⟨htrail, hlast⟩ := trail_of_filter hfilter hsteps
    exact htrail ▸ htrails hlast
  by_cases hparty : e.party = p
  · have hfiltered : (events ++ [e]).filter (·.party = p) = events.filter (·.party = p) ++ [e] := by
      simp [List.filter_append, hparty]
    rw [hfiltered] at hrun ⊢
    rcases h.own with ⟨hempty, hidle⟩ | ⟨steps, hfilter, hsteps, htrail⟩
    · have hcall : e = .call p .run := by
        cases he.1 hparty with
        | inl hnone => cases hstep <;> simp_all [Event.party, Event.called]
        | inr hfirst => exact hfirst.1
      refine .inr ⟨[], by simp [hempty, hcall], by simp, hrun [] (by simp [hempty, hcall]) (by simp)⟩
    · have hnone : e.called = none := by
        cases he.1 hparty with
        | inl hnone => exact hnone
        | inr hfirst => simp [hfirst.2] at hfilter
      have hsteps' : ∀ e' ∈ steps ++ [e], e'.called = none := by
        intro e' he'
        cases List.mem_append.mp he' with
        | inl hold => exact hsteps e' hold
        | inr hnew => exact List.mem_singleton.mp hnew ▸ hnone
      have hfilter' : events.filter (·.party = p) ++ [e] = .call p .run :: (steps ++ [e]) := by
        simp [hfilter]
      exact .inr ⟨steps ++ [e], hfilter', hsteps', hrun _ hfilter' hsteps'⟩
  · have hfiltered : (events ++ [e]).filter (·.party = p) = events.filter (·.party = p) := by
      simp [List.filter_append, hparty]
    rw [hfiltered] at hrun ⊢
    rcases h.own with ⟨hempty, hidle⟩ | ⟨steps, hfilter, hsteps, -⟩
    · refine .inl ⟨hempty, ?_⟩
      cases hstep.pc_of_ne (Ne.symm hparty) with
      | inl hsame => exact hsame.trans hidle
      | inr hwoken => simp [hidle] at hwoken
    · exact .inr ⟨steps, hfilter, hsteps, hrun steps hfilter hsteps⟩

theorem SoleRun.step (h : SoleRun p events s) (hstep : Step s e s') (he : Fulfils p events e) :
    SoleRun p (events ++ [e]) s' where
  consistent := h.consistent.step hstep
  own := h.own_step hstep he
  others e' he' hparty := by
    cases List.mem_append.mp he' with
    | inl hold => exact h.others e' hold hparty
    | inr hnew =>
      obtain rfl := List.mem_singleton.mp hnew
      exact he.2 hparty
  found e' he' hparty := by
    cases List.mem_append.mp he' with
    | inl hold => exact h.found e' hold hparty
    | inr hnew =>
      obtain rfl := List.mem_singleton.mp hnew
      subst hparty
      cases hstep with
      | valueLate hpc hready => simp [h.open (.inl ⟨_, _, hpc⟩)] at hready
      | exceptionLate hpc hready => simp [h.open (.inr ⟨_, _, hpc⟩)] at hready
      | _ => simp [Event.found]

/-- No exception leaves the only `Run`. -/
theorem SoleRun.not_thrown (h : SoleRun p events s) (x : TaskException E) :
    s.pc p ≠ .returned (.error x) := by
  intro hpc
  rcases h.own with ⟨-, hidle⟩ | ⟨steps, hfilter, -, htrail⟩
  · simp [hidle] at hpc
  · rw [hpc] at htrail
    cases htrail with
    | @rejected l y hset =>
      have hmem : .setException p y true ∈ events.filter (·.party = p) := by simp [hfilter]
      exact h.found _ (List.mem_of_mem_filter hmem) rfl rfl

/-- The fixed outcome is the one of the only `Run`. -/
theorem SoleRun.outcome (h : SoleRun p events s) {outcome : Except (TaskException E) R}
    (hfirst : firstOutcome events = some outcome) : RunOutcome p events outcome := by
  obtain ⟨e, he, hfixes⟩ := List.exists_of_findSome?_eq_some hfirst
  have hparty : e.party = p := by
    by_contra hother
    simp [h.others e he hother] at hfixes
  have hown : e ∈ events.filter (·.party = p) := by simp [he, hparty]
  rcases h.own with ⟨hempty, -⟩ | ⟨steps, hfilter, -, htrail⟩
  · simp [hempty] at hown
  · cases List.mem_cons.mp (hfilter ▸ hown) with
    | inl hcall => simp [hcall, Event.fixes] at hfixes
    | inr hstep =>
      refine (htrail.outcome hstep hfixes).mono fun e' he' => ?_
      have hmem : e' ∈ events.filter (·.party = p) := by simp [hfilter, he']
      exact List.mem_of_mem_filter hmem

/-- The function is applied once at most. -/
theorem SoleRun.results_le_one (h : SoleRun p events s) : (results p events).length ≤ 1 := by
  rcases h.own with ⟨hempty, -⟩ | ⟨steps, hfilter, -, htrail⟩
  · simp [results, hempty]
  · rw [results, hfilter, List.filterMap_cons_none rfl]
    exact htrail.result_le_one

theorem SoleRun.results_of_mem (h : SoleRun p events s) {result : Except E R}
    (hresult : .invoke p result ∈ events) : results p events = [result] := by
  have hlength := h.results_le_one
  have hmem := mem_results hresult
  generalize results p events = l at hlength hmem
  cases l with
  | nil => simp at hmem
  | cons r rest =>
    have hrest : rest = [] := by simpa using hlength
    rw [hrest, List.mem_singleton] at hmem
    rw [hrest, hmem]

end OneShot

end Lutask
