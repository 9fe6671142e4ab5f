import Lutask.Fiber.Switching

/-!
# Every stack has one owner

Whatever functions do with class `FiberContext`, on any threads, every stack is in one place. So no
`fcontext_t` is followed twice or after its stack was freed, no stack is lost, and the operations
are defined wherever the assertions of the class hold.
-/

namespace Lutask

namespace Coroutine

open LabelledRuns

variable {T : Type*} [DecidableEq T]

variable {s s' : State T} {hand : Option (Fcontext T)} {f : Fcontext T} {t : T} {x : Stack T} {n : ℕ}
  {p : Point} {below frames : List (Frame T)}

section Steps

omit [DecidableEq T] in
theorem Sound.landing (hs : Sound hand s) (hf : s.suspended f = some (p, below)) :
    Executing (landing p below) ∧ Formed (landing p below) ∧
      Coroutine.thrown (landing p below) = Coroutine.thrown below := by
  obtain ⟨hframes, -⟩ := suspended_eq_some.mp hf
  exact Formed.landing (hframes ▸ hs.formed f.stack (by simp [hframes]))

theorem Sound.jump (hs : Sound (some f) s) (hf : s.Resumable f) (h : jump s t f = some s') :
    Sound none s' := by
  obtain ⟨p, below, hf, hp⟩ := hf
  obtain ⟨hexec, hformed, hthrown⟩ := hs.landing hf
  have hleft := hs.leave (q := .result) t hf (by simp) _ hexec hformed hthrown
  have hmade := hleft.make fun g hg => by
    obtain rfl := Option.some.inj hg
    exact ⟨.result, _, suspended_fcontext (hs.running_ne t), by simp⟩
  rw [Coroutine.jump, hf] at h
  cases p with
  | ignored => exact absurd rfl hp
  | entry | result => exact Option.some.inj h ▸ hmade

theorem Sound.jumpOntop (hs : Sound (some f) s) (hf : s.Resumable f) (h : jumpOntop s t f = some s') :
    Sound none s' := by
  obtain ⟨p, below, hf, hp⟩ := hf
  obtain ⟨hframes, -⟩ := suspended_eq_some.mp hf
  have hpoint : Formed (.point p :: below) := hframes ▸ hs.formed f.stack (by simp [hframes])
  have hleft := hs.leave (q := .result) t hf (by simp) (.ontop :: .point p :: below) trivial
    (.ontop hp hpoint) (by simp)
  rw [Coroutine.jumpOntop, hf] at h
  obtain rfl := Option.some.inj h
  refine hleft.make fun g hg => ?_
  obtain rfl := Option.some.inj hg
  exact ⟨.result, _, suspended_fcontext (hs.running_ne t), by simp⟩

theorem Sound.jumpUnwind (hs : Sound (some f) s) (h : jumpUnwind s t f = some s') : Sound none s' := by
  unfold Coroutine.jumpUnwind at h
  split at h
  · cases h
  · obtain ⟨⟨p, below⟩, hf, h⟩ := Option.bind_eq_some_iff.mp h
    by_cases hthrown : Coroutine.thrown below = none
    · rw [if_pos hthrown] at h
      obtain rfl := Option.some.inj h
      have hleft := hs.leave (q := .ignored) t hf (by simp) [.body] trivial .body
        (by simpa [Coroutine.thrown] using hthrown.symm)
      simpa [State.continue] using hleft.throw (x := f.stack) (suspended_fcontext (hs.running_ne t))
        (by simp)
    · simp [hthrown] at h

theorem Sound.jumpExit (hs : Sound (some f) s) (hn : s.running t = .fiber n)
    (hbody : s.frames (.fiber n) = [.body]) (h : jumpExit s t n f = some s') : Sound none s' := by
  obtain ⟨⟨p, below⟩, hf, rfl⟩ := Option.map_eq_some_iff.mp h
  obtain ⟨hexec, hformed, hthrown⟩ := hs.landing hf
  have hleft := hs.exit hf hn hbody hexec hformed hthrown
  cases p with
  | ignored => exact hleft
  | entry | result => exact hleft.make (by simp)

theorem Sound.destroyed {c : FiberContext T} (hs : Sound c.fctx s) (h : destroyed s t c = some s') :
    Sound none s' := by
  unfold Coroutine.destroyed at h
  split at h
  · rename_i hnone
    exact Option.some.inj h ▸ hnone ▸ hs
  · rename_i f hf
    exact (hf ▸ hs).jumpUnwind h

/-- What a function that was called on top of a suspended stack returns goes to that stack. -/
theorem Sound.returned (hs : Sound hand s) (hhand : ∀ f, hand = some f → s.Resumable f)
    (hx : s.frames (s.running t) = .ontop :: .point p :: below) :
    Sound none (s.deliver t (s.running t) p below hand) := by
  have hp : p ≠ .ignored := by
    have hformed := hs.formed (s.running t) (by simp [hx])
    rw [hx] at hformed
    cases hformed with
    | ontop hp h => exact hp
  have hlanded := hs.landed hx
  have hmade := hlanded.make fun f hf => by
    obtain ⟨q, below', hsuspended, hq⟩ := hhand f hf
    refine ⟨q, below', ?_, hq⟩
    rw [← hsuspended]
    subst hf
    exact suspended_congr (Function.update_of_ne (hs.running_ne t).symm _ _) rfl
  have hsame : Function.update s.running t (s.running t) = s.running := Function.update_eq_self _ _
  cases p with
  | ignored => exact absurd rfl hp
  | entry | result => simpa only [State.deliver, State.continue, hsame] using hmade

theorem Sound.ret {c : FiberContext T} (hs : Sound c.fctx s) (hc : ∀ f, c.fctx = some f → s.Resumable f)
    (h : ret s t c = some s') : Sound none s' := by
  unfold Coroutine.ret at h
  split at h
  · rename_i x p below hx
    exact Option.some.inj h ▸ hs.returned hc hx
  · rename_i n hn hbody
    obtain ⟨f, hf, hexit⟩ := Option.bind_eq_some_iff.mp h
    rw [hf] at hs
    exact hs.jumpExit hn (hn ▸ hbody) hexit
  · cases h

theorem Sound.caught (hs : Sound none s) (h : caught s t = some s') : Sound none s' := by
  unfold Coroutine.caught at h
  split at h
  · rename_i n f hn hunwind
    rw [hn] at hunwind
    have hcaught := hs.catch hunwind
    have hne : f.stack ≠ .fiber n := fun hf => hcaught.running_ne t (hn.trans hf.symm)
    refine hcaught.jumpExit (t := t) hn (by simp) (h ▸ ?_)
    simp [Coroutine.jumpExit, State.suspended, hne]
  · cases h

theorem Sound.step {e : Event T} (hs : Sound none s) (h : Coroutine.step s e = some s') :
    Sound none s' := by
  obtain ⟨t, op⟩ := e
  cases op with
  | construct => exact Option.some.inj h ▸ hs.make (by simp)
  | create =>
    obtain rfl := Option.some.inj h
    refine hs.allocate.make fun f hf => ?_
    obtain rfl := Option.some.inj hf
    exact ⟨.entry, [], suspended_eq_some.mpr ⟨by simp, rfl⟩, by simp⟩
  | moveConstruct other =>
    obtain ⟨c, hc, rfl⟩ := Option.map_eq_some_iff.mp h
    exact (hs.take (d := some ⟨none⟩) hc rfl).make fun f hf =>
      hs.object other f (by simpa [State.fctx, hc] using hf)
  | moveAssign this other =>
    obtain ⟨old, hold, h⟩ := Option.bind_eq_some_iff.mp h
    obtain ⟨new, hnew, h⟩ := Option.bind_eq_some_iff.mp h
    by_cases hsame : this = other
    · rw [if_pos hsame] at h
      exact Option.some.inj h ▸ hs
    · rw [if_neg hsame] at h
      have htaken := hs.take (d := some ⟨none⟩) hold rfl
      have hmoved := htaken.swap (h := this) (k := other) (c := ⟨none⟩) (d := new) (by simp)
        (by simpa [Ne.symm hsame] using hnew)
      exact Sound.destroyed (by simpa [State.write] using hmoved) h
  | swap this other =>
    obtain ⟨c, hc, h⟩ := Option.bind_eq_some_iff.mp h
    obtain ⟨d, hd, rfl⟩ := Option.map_eq_some_iff.mp h
    exact hs.swap hc hd
  | destroy this =>
    obtain ⟨c, hc, h⟩ := Option.bind_eq_some_iff.mp h
    exact (hs.take hc rfl).destroyed h
  | resume this =>
    obtain ⟨c, hc, h⟩ := Option.bind_eq_some_iff.mp h
    obtain ⟨f, hf, h⟩ := Option.bind_eq_some_iff.mp h
    obtain ⟨htaken, hresumable⟩ := hs.exchange hc hf
    exact htaken.jump hresumable h
  | resumeWith this =>
    obtain ⟨c, hc, h⟩ := Option.bind_eq_some_iff.mp h
    obtain ⟨f, hf, h⟩ := Option.bind_eq_some_iff.mp h
    obtain ⟨htaken, hresumable⟩ := hs.exchange hc hf
    exact htaken.jumpOntop hresumable h
  | ret c =>
    obtain ⟨d, hd, h⟩ := Option.bind_eq_some_iff.mp h
    exact (hs.take hd rfl).ret (fun f hf => hs.object c f (by simpa [State.fctx, hd] using hf)) h
  | caught => exact hs.caught h

omit [DecidableEq T] in
theorem Sound.initial : Sound none (State.initial : State T) where
  objects _ _ := rfl
  unborn _ _ := rfl
  running _ := trivial
  formed x hx := by
    cases x with
    | thread t => exact .body
    | fiber n => exact absurd rfl hx
  object h f hf := by simp [State.fctx, State.initial] at hf
  held f hf := by simp at hf
  thrown x f hf := by cases x <;> simp [State.initial, Coroutine.thrown] at hf
  single x := by
    cases x with
    | thread t =>
      refine ⟨.running t, rfl, fun place hplace => ?_⟩
      cases place with
      | running u =>
        obtain rfl : u = t := by simpa [State.content, State.initial] using hplace
        rfl
      | exception y => cases y <;> simp [State.content, State.initial, Coroutine.thrown] at hplace
      | _ => simp [State.content, State.initial, State.fctx] at hplace
    | fiber n =>
      refine ⟨.unborn n, by simp [State.content, State.initial], fun place hplace => ?_⟩
      cases place with
      | unborn m =>
        obtain rfl : m = n := by simpa [State.content, State.initial] using hplace
        rfl
      | exception y => cases y <;> simp [State.content, State.initial, Coroutine.thrown] at hplace
      | _ => simp [State.content, State.initial, State.fctx] at hplace

theorem Runs.sound {events : List (Event T)} (h : Runs events s) : Sound none s :=
  h.invariant Sound.initial fun _ _ _ hs _ hstep => hs.step hstep

end Steps

section Runs

variable {events : List (Event T)}

/-- Whatever any functions do with the class, every stack is in exactly one place: executed by one thread,
referred to by one `FiberContext` or by one exception, deallocated, or not yet allocated. What a
`FiberContext` refers to is always the present suspension of its stack. -/
theorem every_stack_owned_once (h : Runs events s) :
    (∀ x, ∃! p, s.content none p = some x) ∧ ∀ k f, s.fctx k = some f → s.Resumable f :=
  ⟨h.sound.single, h.sound.object⟩

/-- A fiber creates another one and goes back to its thread, which destroys it. Both are unwound. -/
def unwinding : List (Event Unit) :=
  [⟨(), .create⟩, ⟨(), .resume 0⟩, ⟨(), .create⟩, ⟨(), .resumeWith 1⟩, ⟨(), .construct⟩, ⟨(), .ret 4⟩,
    ⟨(), .destroy 3⟩, ⟨(), .destroy 2⟩, ⟨(), .caught⟩, ⟨(), .caught⟩]

/-- At the end of the unwinding the thread executes its own stack again and both fibers are deallocated. -/
theorem unwound_stacks_owned : ∃ s, Runs unwinding s ∧ (s.running () = .thread () ∧ s.freed 0 ∧ s.freed 1) ∧
    (∀ x, ∃! p, s.content none p = some x) ∧ ∀ k f, s.fctx k = some f → s.Resumable f := by
  have hplay : (play step (fun _ _ => true) State.initial unwinding).any fun s =>
      decide (s.running () = .thread ()) && s.freed 0 && s.freed 1 := by
    decide
  obtain ⟨s, hs, hstate⟩ := (Option.any_eq_true _ _).mp hplay
  have hrun : Runs unwinding s := Run.of_play (fun _ _ _ => trivial) hs
  simp only [Bool.and_eq_true, decide_eq_true_eq, and_assoc] at hstate
  exact ⟨s, hrun, hstate, every_stack_owned_once hrun⟩

/-- What can be unwound: a fiber on which no exception is on its way. -/
def State.Unwindable (s : State T) (f : Fcontext T) : Prop :=
  (∃ n, f.stack = .fiber n) ∧ thrown (s.frames f.stack) = none

/-- What the assertions of the class ask for. The objects have to exist. -/
def Event.Asserted (s : State T) (e : Event T) : Prop :=
  match e.op with
  | .construct | .create => True
  | .moveConstruct other => (s.object other).isSome
  | .moveAssign this other => (s.object this).isSome ∧ (s.object other).isSome ∧
    (this ≠ other → ∀ f, s.fctx this = some f → s.Unwindable f)
  | .swap this other => (s.object this).isSome ∧ (s.object other).isSome
  | .destroy this => (s.object this).isSome ∧ ∀ f, s.fctx this = some f → s.Unwindable f
  | .resume this | .resumeWith this => (s.fctx this).isSome
  | .ret c => (s.object c).isSome ∧ ((∃ below, s.frames (s.running e.thread) = .ontop :: below) ∨
    (∃ n, s.running e.thread = .fiber n) ∧ s.frames (s.running e.thread) = [.body] ∧ (s.fctx c).isSome)
  | .caught => (∃ n, s.running e.thread = .fiber n) ∧ ∃ f, s.frames (s.running e.thread) = [.unwind f]

theorem jumpUnwind_defined (hf : ∃ p below, s.suspended f = some (p, below)) :
    (jumpUnwind s t f).isSome ↔ s.Unwindable f := by
  obtain ⟨p, below, hf⟩ := hf
  have hframes := (suspended_eq_some.mp hf).1
  unfold Coroutine.jumpUnwind State.Unwindable
  cases hstack : f.stack with
  | thread u => simp
  | fiber n =>
    rw [hstack] at hframes
    by_cases hthrown : thrown below = none <;> simp [hf, hframes, hthrown]

theorem Sound.destroyed_defined {c : FiberContext T} (hs : Sound c.fctx s) :
    (Coroutine.destroyed s t c).isSome ↔ ∀ f, c.fctx = some f → s.Unwindable f := by
  unfold Coroutine.destroyed
  cases hc : c.fctx with
  | none => simp
  | some f => simpa using jumpUnwind_defined (hs.held f hc)

omit [DecidableEq T] in
/-- A function that was called on top of a stack stands on the point where that stack is suspended. -/
theorem Sound.ontop_point (hs : Sound hand s) (hx : s.frames x = .ontop :: frames) :
    ∃ p below, frames = .point p :: below := by
  have hformed := hs.formed x (by simp [hx])
  rw [hx] at hformed
  cases hformed with
  | ontop hp h => exact ⟨_, _, rfl⟩

theorem jumpExit_defined (hs : ∃ p below, s.suspended f = some (p, below)) :
    (Coroutine.jumpExit s t n f).isSome := by
  obtain ⟨p, below, hf⟩ := hs
  simp [Coroutine.jumpExit, hf]

theorem Sound.ret_defined {c : FiberContext T} (hs : Sound c.fctx s) :
    (Coroutine.ret s t c).isSome ↔ (∃ below, s.frames (s.running t) = .ontop :: below) ∨
      (∃ n, s.running t = .fiber n) ∧ s.frames (s.running t) = [.body] ∧ c.fctx.isSome := by
  unfold Coroutine.ret
  split
  · rename_i x p below hx
    simp [hx]
  · rename_i n hn hbody
    cases hc : c.fctx with
    | none => simp [hbody]
    | some f => exact iff_of_true (jumpExit_defined (hs.held f hc)) (.inr ⟨⟨n, hn⟩, hbody, rfl⟩)
  · rename_i hontop hbody
    simp only [Option.isSome_none, Bool.false_eq_true, false_iff, not_or]
    refine ⟨?_, ?_⟩
    · rintro ⟨below, hx⟩
      obtain ⟨p, below', rfl⟩ := hs.ontop_point hx
      exact hontop p below' hx
    · rintro ⟨⟨n, hn⟩, hx, -⟩
      exact hbody n hn hx

theorem Sound.caught_defined (hs : Sound none s) : (Coroutine.caught s t).isSome ↔
    (∃ n, s.running t = .fiber n) ∧ ∃ f, s.frames (s.running t) = [.unwind f] := by
  unfold Coroutine.caught
  split
  · rename_i n f hn hunwind
    obtain ⟨below, hf⟩ := hs.thrown (s.running t) f (by simp [hunwind, Coroutine.thrown])
    exact iff_of_true (jumpExit_defined ⟨_, below, hf⟩) ⟨⟨n, hn⟩, f, hunwind⟩
  · rename_i hother
    simp only [Option.isSome_none, Bool.false_eq_true, false_iff, not_and, not_exists]
    rintro ⟨n, hn⟩ f hf
    exact hother n f hn hf

/-- Whatever any functions have done with the class, the next operation is defined exactly when the objects
exist and the assertions of the class hold. No `fcontext_t` is out of date or belongs to a freed stack. -/
theorem step_defined_iff {e : Event T} (h : Runs events s) : (step s e).isSome ↔ e.Asserted s := by
  have hs := h.sound
  obtain ⟨t, op⟩ := e
  cases op with
  | construct | create => simp [step, Event.Asserted]
  | moveConstruct other => simp [step, Event.Asserted]
  | moveAssign this other =>
    cases hold : s.object this with
    | none => simp [step, Event.Asserted, moveAssign, hold]
    | some old =>
      cases hnew : s.object other with
      | none => simp [step, Event.Asserted, moveAssign, hold, hnew]
      | some new =>
        by_cases hsame : this = other
        · subst hsame
          simp [step, Event.Asserted, moveAssign, hold]
        · have htaken := hs.take (d := some ⟨none⟩) hold rfl
          have hmoved := htaken.swap (h := this) (k := other) (c := ⟨none⟩) (d := new) (by simp)
            (by simpa [Ne.symm hsame] using hnew)
          have hdefined := Sound.destroyed_defined (t := t) hmoved
          simpa [step, Event.Asserted, moveAssign, hold, hnew, hsame, State.fctx, State.write,
            State.Unwindable] using hdefined
  | swap this other => cases hc : s.object this <;> simp [step, Event.Asserted, hc]
  | destroy this =>
    cases hc : s.object this with
    | none => simp [step, Event.Asserted, hc]
    | some c =>
      have hdefined := Sound.destroyed_defined (t := t) (hs.take (d := none) hc rfl)
      simpa [step, Event.Asserted, hc, State.fctx, State.remove, State.Unwindable] using hdefined
  | resume this =>
    cases hc : s.object this with
    | none => simp [step, Event.Asserted, State.fctx, hc]
    | some c =>
      cases hf : c.fctx with
      | none => simp [step, Event.Asserted, State.fctx, hc, hf]
      | some f =>
        obtain ⟨htaken, p, below, hsuspended, -⟩ := hs.exchange hc hf
        simp [step, Event.Asserted, State.fctx, hc, hf, jump, hsuspended]
  | resumeWith this =>
    cases hc : s.object this with
    | none => simp [step, Event.Asserted, State.fctx, hc]
    | some c =>
      cases hf : c.fctx with
      | none => simp [step, Event.Asserted, State.fctx, hc, hf]
      | some f =>
        obtain ⟨htaken, p, below, hsuspended, -⟩ := hs.exchange hc hf
        simp [step, Event.Asserted, State.fctx, hc, hf, jumpOntop, hsuspended]
  | ret c =>
    cases hd : s.object c with
    | none => simp [step, Event.Asserted, hd]
    | some d =>
      have hdefined := (hs.take (d := none) hd rfl).ret_defined (t := t)
      simpa [step, Event.Asserted, hd, State.fctx, State.remove] using hdefined
  | caught => exact hs.caught_defined

/-- In the destructors that the unwinding of one fiber calls, the other one can be destroyed. -/
theorem unwinding_destroys : ∃ s, Runs (unwinding.take 7) s ∧ (step s ⟨(), .destroy 2⟩).isSome ∧
    ((step s ⟨(), .destroy 2⟩).isSome ↔ Event.Asserted s ⟨(), .destroy 2⟩) := by
  have hplay : (play step (fun _ _ => true) State.initial (unwinding.take 7)).any fun s =>
      (step s ⟨(), .destroy 2⟩).isSome := by
    decide
  obtain ⟨s, hs, hdefined⟩ := (Option.any_eq_true _ _).mp hplay
  have hrun : Runs (unwinding.take 7) s := Run.of_play (fun _ _ _ => trivial) hs
  exact ⟨s, hrun, hdefined, step_defined_iff hrun⟩

end Runs

end Coroutine

end Lutask
