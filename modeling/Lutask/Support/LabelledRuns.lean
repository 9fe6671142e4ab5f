import Mathlib.Data.List.Basic

/-!
# Finite runs of a partial labelled step function

A run lists the labels it fires, oldest first. Every label has to satisfy a guard in the
state that it leaves, so that an assumption about the environment restricts the run and
not the machine. An inductive invariant is established once and may then be used as a
part of the guard of a second invariant.
-/

namespace LabelledRuns

variable {S L : Type*}

/-- Finite runs from `start` in which each label satisfies the guard in the state it leaves. -/
inductive Run (step : S → L → Option S) (guard : S → L → Prop) (start : S) : List L → S → Prop
  | nil : Run step guard start [] start
  | snoc {labels : List L} {s s' : S} {l : L} :
      Run step guard start labels s → guard s l → step s l = some s' →
        Run step guard start (labels ++ [l]) s'

variable {step : S → L → Option S} {guard guard' : S → L → Prop} {start : S}

/-- A property that holds at the start and is kept by every guarded step holds after every run. -/
theorem Run.invariant {I : S → Prop} {labels : List L} {s : S} (h : Run step guard start labels s)
    (hstart : I start) (hstep : ∀ s l s', I s → guard s l → step s l = some s' → I s') : I s := by
  induction h with
  | nil => exact hstart
  | snoc _ hguard hfire ih => exact hstep _ _ _ ih hguard hfire

/-- The same rule for a property that also reads the labels fired so far. -/
theorem Run.invariant_labels {I : List L → S → Prop} {labels : List L} {s : S}
    (h : Run step guard start labels s) (hstart : I [] start)
    (hstep : ∀ labels s l s', I labels s → guard s l → step s l = some s' → I (labels ++ [l]) s') :
    I labels s := by
  induction h with
  | nil => exact hstart
  | snoc _ hguard hfire ih => exact hstep _ _ _ _ ih hguard hfire

/-- A run under one guard is a run under every weaker guard. -/
theorem Run.weaken {labels : List L} {s : S} (h : Run step guard start labels s)
    (hweaker : ∀ s l, guard s l → guard' s l) : Run step guard' start labels s := by
  induction h with
  | nil => exact .nil
  | snoc _ hguard hfire ih => exact .snoc ih (hweaker _ _ hguard) hfire

/-- An established invariant becomes available to the guard. -/
theorem Run.strengthen {I : S → Prop} {labels : List L} {s : S} (h : Run step guard start labels s)
    (hstart : I start) (hstep : ∀ s l s', I s → guard s l → step s l = some s' → I s') :
    Run step (fun s l => I s ∧ guard s l) start labels s := by
  induction h with
  | nil => exact .nil
  | snoc hrun hguard hfire ih =>
    exact .snoc ih ⟨hrun.invariant hstart hstep, hguard⟩ hfire

/-- A property of all states and their next labels on the way of a run may be added to its guard. -/
theorem Run.heeding {P : S → L → Prop} {labels : List L} {s : S} (h : Run step guard start labels s)
    (hnext : ∀ before l s', before ++ [l] <+: labels → Run step guard start before s' → P s' l) :
    Run step (fun s l => P s l ∧ guard s l) start labels s := by
  induction h with
  | nil => exact .nil
  | snoc hrun hguard hfire ih =>
    have hlast := hnext _ _ _ List.prefix_rfl hrun
    exact .snoc (ih fun before l s' hbefore => hnext before l s' (hbefore.trans (List.prefix_append _ _)))
      ⟨hlast, hguard⟩ hfire

/-- A property of all states on the way of a run may be added to its guard. -/
theorem Run.passing {P : S → Prop} {labels : List L} {s : S} (h : Run step guard start labels s)
    (hstates : ∀ before s', before <+: labels → Run step guard start before s' → P s') :
    Run step (fun s l => P s ∧ guard s l) start labels s :=
  h.heeding fun before _ s' hbefore => hstates before s' ((List.prefix_append _ _).trans hbefore)

/-- A property that all labels of a run have may be added to its guard. -/
theorem Run.restrict {P : L → Prop} {labels : List L} {s : S} (h : Run step guard start labels s)
    (hlabels : ∀ l ∈ labels, P l) : Run step (fun s l => guard s l ∧ P l) start labels s := by
  induction h with
  | nil => exact .nil
  | snoc _ hguard hfire ih =>
    exact .snoc (ih fun l hl => hlabels l (List.mem_append_left _ hl))
      ⟨hguard, hlabels _ (List.mem_append_right _ List.mem_cons_self)⟩ hfire

/-- Every label of a run could be fired in the state that it left. -/
theorem Run.fired {labels : List L} {s : S} (h : Run step guard start labels s) :
    Run step (fun s l => guard s l ∧ (step s l).isSome) start labels s := by
  induction h with
  | nil => exact .nil
  | snoc _ hguard hfire ih => exact ih.snoc ⟨hguard, by simp [hfire]⟩ hfire

/-- All labels of a run have the properties that its guard asks for. -/
theorem Run.labels {P : L → Prop} {labels : List L} {s : S} (h : Run step guard start labels s)
    (hguard : ∀ s l, guard s l → P l) : ∀ l ∈ labels, P l := by
  induction h with
  | nil => simp
  | snoc _ hg _ ih =>
    intro l hl
    cases List.mem_append.mp hl with
    | inl hearlier => exact ih l hearlier
    | inr hlast => exact List.mem_singleton.mp hlast ▸ hguard _ _ hg

/-- Runs compose. -/
theorem Run.append {before after : List L} {s s' : S} (h : Run step guard start before s)
    (h' : Run step guard s after s') : Run step guard start (before ++ after) s' := by
  induction h' with
  | nil => simpa using h
  | snoc _ hguard hfire ih => simpa using Run.snoc ih hguard hfire

/-- A run can be cut before any of its labels. -/
theorem Run.cut {before after : List L} {l : L} {s : S}
    (h : Run step guard start (before ++ l :: after) s) :
    ∃ s₁ s₂, Run step guard start before s₁ ∧ guard s₁ l ∧ step s₁ l = some s₂ ∧
      Run step guard s₂ after s := by
  generalize hlabels : before ++ l :: after = labels at h
  induction h generalizing after with
  | nil => simp at hlabels
  | @snoc earlier s s' l' hrun hguard hfire ih =>
    rcases List.eq_nil_or_concat after with rfl | ⟨after', last, rfl⟩
    · obtain ⟨rfl, hlast⟩ := List.append_inj' hlabels rfl
      obtain rfl : l = l' := by simpa using hlast
      exact ⟨_, _, hrun, hguard, hfire, .nil⟩
    · have hlabels' : (before ++ l :: after') ++ [last] = earlier ++ [l'] := by simpa using hlabels
      obtain ⟨hearlier, hlast⟩ := List.append_inj' hlabels' rfl
      obtain rfl : last = l' := by simpa using hlast
      obtain ⟨s₁, s₂, hbefore, hguard', hfire', hafter⟩ := ih hearlier
      exact ⟨s₁, s₂, hbefore, hguard', hfire', by simpa using Run.snoc hafter hguard hfire⟩

/-- A property that every step keeps unless it establishes another one has been kept all along, or the
run can be cut where the other property was established. -/
theorem Run.leaves {P Q : S → Prop} {labels : List L} {s : S} (h : Run step guard start labels s)
    (hstart : P start)
    (hstep : ∀ s l s', P s → guard s l → step s l = some s' → P s' ∨ Q s') :
    P s ∨ ∃ first rest s₁, labels = first ++ rest ∧ Run step guard start first s₁ ∧ Q s₁ ∧
      Run step guard s₁ rest s := by
  induction h with
  | nil => exact .inl hstart
  | @snoc labels s s' l hrun hguard hfire ih =>
    cases ih with
    | inl hkept =>
      refine (hstep s l s' hkept hguard hfire).imp_right fun hnew => ?_
      exact ⟨labels ++ [l], [], s', by simp, hrun.snoc hguard hfire, hnew, .nil⟩
    | inr hcut =>
      obtain ⟨first, rest, s₁, rfl, hfirst, hnew, hrest⟩ := hcut
      exact .inr ⟨first, rest ++ [l], s₁, by simp, hfirst, hnew, hrest.snoc hguard hfire⟩

/-- A run without labels stays at the start. -/
theorem Run.eq_of_nil {s : S} (h : Run step guard start [] s) : s = start := by
  generalize hlabels : ([] : List L) = labels at h
  cases h with
  | nil => rfl
  | snoc => simp at hlabels

/-- The first label of a run leaves the start. -/
theorem Run.head {labels : List L} {l : L} {s : S} (h : Run step guard start (l :: labels) s) :
    ∃ next, guard start l ∧ step start l = some next ∧ Run step guard next labels s := by
  have hcut : Run step guard start ([] ++ l :: labels) s := h
  obtain ⟨s₁, s₂, hbefore, hguard, hfire, hafter⟩ := hcut.cut
  obtain rfl := hbefore.eq_of_nil
  exact ⟨s₂, hguard, hfire, hafter⟩

/-- Two runs with the same labels end in the same state. -/
theorem Run.unique {labels : List L} {s s' : S} (h : Run step guard start labels s)
    (h' : Run step guard' start labels s') : s = s' := by
  induction h generalizing s' with
  | nil => exact h'.eq_of_nil.symm
  | snoc hrun hguard hfire ih =>
    obtain ⟨s₁, s₂, hbefore, -, hfire', hafter⟩ := h'.cut
    obtain rfl := ih hbefore
    obtain rfl := hafter.eq_of_nil
    exact Option.some.inj (hfire.symm.trans hfire')

/-- What the guard says of every state in which a label fires, and what holds at the end, holds all along
the way. -/
theorem Run.throughout {P : S → Prop} {labels : List L} {s : S} (h : Run step guard start labels s)
    (hguard : ∀ s l, guard s l → P s) (hend : P s) {before : List L} {s' : S}
    (hbefore : before <+: labels) (hrun : Run step guard' start before s') : P s' := by
  obtain ⟨after, rfl⟩ := hbefore
  cases after with
  | nil =>
    rw [List.append_nil] at h
    exact h.unique hrun ▸ hend
  | cons l after =>
    obtain ⟨s₁, s₂, hbefore, hfired, -, -⟩ := h.cut
    exact hbefore.unique hrun ▸ hguard s₁ l hfired

/-- A run that satisfies two guards satisfies both at every step. -/
theorem Run.both {labels : List L} {s : S} (h : Run step guard start labels s)
    (h' : Run step guard' start labels s) :
    Run step (fun s l => guard s l ∧ guard' s l) start labels s := by
  induction h with
  | nil => exact .nil
  | snoc hrun hguard hfire ih =>
    obtain ⟨s₁, s₂, hbefore, hguard', -, -⟩ := h'.cut
    obtain rfl := hrun.unique hbefore
    exact .snoc (ih hbefore) ⟨hguard, hguard'⟩ hfire

/-- A system of which each step is simulated by a run of another system runs as the other one. -/
theorem Run.simulate {S' L' : Type*} {step' : S' → L' → Option S'} {guard' : S' → L' → Prop}
    {R : S → S' → Prop} (hstep : ∀ s l s' u, R s u → guard s l → step s l = some s' →
      ∃ labels' u', Run step' guard' u labels' u' ∧ R s' u')
    {start' : S'} (hstart : R start start') {labels : List L} {s : S} (h : Run step guard start labels s) :
    ∃ labels' u, Run step' guard' start' labels' u ∧ R s u := by
  induction h with
  | nil => exact ⟨[], start', .nil, hstart⟩
  | snoc _ hguard hfire ih =>
    obtain ⟨labels', u, hrun, hrel⟩ := ih
    obtain ⟨more, u', hmore, hrel'⟩ := hstep _ _ _ _ hrel hguard hfire
    exact ⟨labels' ++ more, u', hrun.append hmore, hrel'⟩

/-- A system of which each step is one of another system, or invisible there, runs as the other one. -/
theorem Run.project {S' L' : Type*} {step' : S' → L' → Option S'} {guard' : S' → L' → Prop} (f : S → S')
    (hstep : ∀ s l s', guard s l → step s l = some s' →
      f s' = f s ∨ ∃ l', guard' (f s) l' ∧ step' (f s) l' = some (f s'))
    {labels : List L} {s : S} (h : Run step guard start labels s) :
    ∃ labels', Run step' guard' (f start) labels' (f s) := by
  induction h with
  | nil => exact ⟨[], .nil⟩
  | snoc _ hguard hfire ih =>
    obtain ⟨labels', hrun⟩ := ih
    cases hstep _ _ _ hguard hfire with
    | inl hsame => exact ⟨labels', hsame ▸ hrun⟩
    | inr hvisible =>
      obtain ⟨l', hguard', hfire'⟩ := hvisible
      exact ⟨labels' ++ [l'], hrun.snoc hguard' hfire'⟩

/-- A property that counts down with every label of one's own, and that all other labels keep, has
reached zero after as many labels of one's own. -/
theorem Run.countdown {own : L → Bool} {Q : L → Prop} {P : ℕ → S → Prop}
    (hown : ∀ n s l s', P (n + 1) s → own l → step s l = some s' → Q l ∧ P n s')
    (hother : ∀ n s l s', P (n + 1) s → own l = false → step s l = some s' → Q l ∧ P (n + 1) s')
    {labels : List L} {n : ℕ} {s : S} (h : Run step guard start labels s) (hstart : P n start)
    (hcount : n ≤ labels.countP own) :
    ∃ before after s₁, labels = before ++ after ∧ Run step guard start before s₁ ∧ P 0 s₁ ∧
      ∀ l ∈ before, Q l := by
  induction labels generalizing start n with
  | nil =>
    obtain rfl : n = 0 := by simpa using hcount
    exact ⟨[], [], start, rfl, .nil, hstart, by simp⟩
  | cons l labels ih =>
    cases n with
    | zero => exact ⟨[], l :: labels, start, rfl, .nil, hstart, by simp⟩
    | succ n =>
      obtain ⟨next, hguard, hfire, hrest⟩ := h.head
      have hnext : ∃ m, Q l ∧ P m next ∧ m ≤ labels.countP own := by
        cases hl : own l with
        | true =>
          rw [List.countP_cons_of_pos hl] at hcount
          obtain ⟨hQ, hP⟩ := hown n start l next hstart hl hfire
          exact ⟨n, hQ, hP, by omega⟩
        | false =>
          rw [List.countP_cons_of_neg (by simp [hl])] at hcount
          obtain ⟨hQ, hP⟩ := hother n start l next hstart hl hfire
          exact ⟨n + 1, hQ, hP, hcount⟩
      obtain ⟨m, hQ, hP, hm⟩ := hnext
      obtain ⟨before, after, s₁, rfl, hbefore, hzero, hall⟩ := ih hrest hP hm
      refine ⟨l :: before, after, s₁, rfl, ?_, hzero, ?_⟩
      · exact (Run.snoc .nil hguard hfire).append hbefore
      · intro l' hl'
        cases List.mem_cons.mp hl' with
        | inl hfirst => exact hfirst ▸ hQ
        | inr hlater => exact hall l' hlater

section Observation

variable {A : Type*} {note : S → L → List A}

/-- What is noted of a run, where each note is made of a label and the state that it leaves. -/
def observe (step : S → L → Option S) (note : S → L → List A) : S → List L → List A
  | _, [] => []
  | s, l :: labels => note s l ++ (step s l).elim [] (observe step note · labels)

/-- The notes of a longer run go on where those of its first part end. -/
theorem Run.observe_append {before : List L} {s : S} (h : Run step guard start before s)
    (after : List L) :
    observe step note start (before ++ after) = observe step note start before ++
      observe step note s after := by
  induction before generalizing start with
  | nil =>
    obtain rfl := h.eq_of_nil
    rfl
  | cons l before ih =>
    obtain ⟨next, -, hfire, hrest⟩ := h.head
    simp [observe, hfire, ih hrest]

/-- A property of the notes and the state that holds at the start and is kept by every guarded step holds
after every run. -/
theorem Run.invariant_observed {I : List A → S → Prop} {labels : List L} {s : S}
    (h : Run step guard start labels s) (hstart : I [] start)
    (hstep : ∀ notes s l s', I notes s → guard s l → step s l = some s' → I (notes ++ note s l) s') :
    I (observe step note start labels) s := by
  induction h with
  | nil => exact hstart
  | @snoc labels s s' l hrun hguard hfire ih =>
    rw [hrun.observe_append]
    simpa [observe, hfire] using hstep _ _ _ _ ih hguard hfire

end Observation

/-- A property that can be kept by a step which brings a measure down, until the end is reached, reaches
the end. -/
theorem Run.completes {P Q : S → Prop} (measure : S → ℕ)
    (hstep : ∀ s, P s → ¬ Q s → ∃ l s', guard s l ∧ step s l = some s' ∧ P s' ∧ measure s' < measure s)
    {s : S} (h : P s) : ∃ labels s', Run step guard s labels s' ∧ P s' ∧ Q s' := by
  induction hmeasure : measure s using Nat.strongRecOn generalizing s with
  | _ n ih =>
    by_cases hend : Q s
    · exact ⟨[], s, .nil, h, hend⟩
    · obtain ⟨l, s₁, hguard, hfire, hkept, hless⟩ := hstep s h hend
      obtain ⟨labels, s', hrun, hlast⟩ := ih (measure s₁) (hmeasure ▸ hless) hkept rfl
      exact ⟨_, s', (Run.snoc .nil hguard hfire).append hrun, hlast⟩

/-- Fire a concrete list of labels, checking a decidable guard in every state on the way. -/
def play (step : S → L → Option S) (allowed : S → L → Bool) : S → List L → Option S
  | s, [] => some s
  | s, l :: labels => if allowed s l then (step s l).bind (play step allowed · labels) else none

/-- Playing labels produces a run under every guard that the checked one implies. -/
theorem Run.of_play {allowed : S → L → Bool} (hallowed : ∀ s l, allowed s l = true → guard s l)
    {labels : List L} {s s' : S} (h : play step allowed s labels = some s') :
    Run step guard s labels s' := by
  induction labels generalizing s with
  | nil =>
    obtain rfl : s = s' := by simpa [play] using h
    exact .nil
  | cons l labels ih =>
    simp only [play, Option.ite_none_right_eq_some, Option.bind_eq_some_iff] at h
    obtain ⟨hok, next, hfire, hrest⟩ := h
    exact (Run.snoc .nil (hallowed _ _ hok) hfire).append (ih hrest)

/-- An entry of a script: a label, or as many labels as told, each named by the state it is fired in. -/
inductive Cue (S L : Type*) where
  | label (l : L)
  | follow (next : S → Option L) (count : ℕ)

/-- Fire the labels that a function of the state names. -/
def follow (step : S → L → Option S) (allowed : S → L → Bool) (next : S → Option L) : ℕ → S → Option S
  | 0, s => some s
  | count + 1, s => (next s).bind fun l =>
    if allowed s l then (step s l).bind (follow step allowed next count) else none

/-- The state after a script. -/
def perform (step : S → L → Option S) (allowed : S → L → Bool) : List (Cue S L) → S → Option S
  | [], s => some s
  | .label l :: script, s =>
    if allowed s l then (step s l).bind (perform step allowed script) else none
  | .follow next count :: script, s => (follow step allowed next count s).bind (perform step allowed script)

/-- Following a function of the state is a run. -/
theorem Run.of_follow {allowed : S → L → Bool} (hallowed : ∀ s l, allowed s l = true → guard s l)
    {next : S → Option L} {count : ℕ} {s s' : S} (h : follow step allowed next count s = some s') :
    ∃ labels, Run step guard s labels s' := by
  induction count generalizing s with
  | zero =>
    obtain rfl := Option.some.inj h
    exact ⟨[], .nil⟩
  | succ count ih =>
    simp only [follow, Option.bind_eq_some_iff, Option.ite_none_right_eq_some] at h
    obtain ⟨l, -, hok, s₁, hfire, hrest⟩ := h
    obtain ⟨labels, hrun⟩ := ih hrest
    exact ⟨_, (Run.snoc .nil (hallowed _ _ hok) hfire).append hrun⟩

/-- A script that can be performed is a run. -/
theorem Run.of_perform {allowed : S → L → Bool} (hallowed : ∀ s l, allowed s l = true → guard s l)
    {script : List (Cue S L)} {s s' : S} (h : perform step allowed script s = some s') :
    ∃ labels, Run step guard s labels s' := by
  induction script generalizing s with
  | nil =>
    obtain rfl := Option.some.inj h
    exact ⟨[], .nil⟩
  | cons cue script ih =>
    cases cue with
    | label l =>
      simp only [perform, Option.ite_none_right_eq_some, Option.bind_eq_some_iff] at h
      obtain ⟨hok, s₁, hfire, hrest⟩ := h
      obtain ⟨labels, hrun⟩ := ih hrest
      exact ⟨_, (Run.snoc .nil (hallowed _ _ hok) hfire).append hrun⟩
    | follow next count =>
      simp only [perform, Option.bind_eq_some_iff] at h
      obtain ⟨s₁, hfollow, hrest⟩ := h
      obtain ⟨first, hfirst⟩ := Run.of_follow hallowed hfollow
      obtain ⟨labels, hrun⟩ := ih hrest
      exact ⟨_, hfirst.append hrun⟩

end LabelledRuns
