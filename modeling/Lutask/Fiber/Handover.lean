import Lutask.Exit.Destructor
import Lutask.Fiber.Continuations
import Lutask.Machine.Schedule

/-!
# The contexts as users of `FiberContext`

The machine of the contexts says which frames a context goes on with; class `FiberContext` says how
that is done. Each run of the machine is a run of the class in which every context has its `c_` and
its stack: a switch is `ResumeWith` on `c_` of the resumed context, the function on top moves what
it gets into `c_` of the context that was left, the construction of a worker creates its stack, and
the end of `~Scheduler` releases the dispatcher.
-/

namespace Lutask

namespace Coroutine

open LabelledRuns

variable {T : Type*}

/-- Where the contexts are: the object `c_`, the stack, and for each thread the parameter of the function on
top of its stack. -/
structure Layout (T : Type*) where
  cell : Ctx T → ℕ
  home : Ctx T → Stack T
  arg : T → ℕ

/-- Where a context is left: before its function is called, or in `Resume`. -/
def Left (frames : List (Frame T)) : Prop :=
  frames = [.point .entry] ∨ frames = [.point .result, .body]

/-- The context whose `c_` the function on top of a thread's stack is about to store. -/
def saves (m : Lutask.State T) (t : T) : Option (Ctx T) :=
  match (m.thread t).stack with
  | .save y _ :: _ => some y
  | _ => none

/-- What the objects and stacks are for a state of the machine. Of the stacks that were created only
those of the dispatchers are freed, when their schedulers are gone. -/
structure Realizes (l : Layout T) (m : Lutask.State T) (s : State T) : Prop where
  cells : ∀ x y, m.present x → m.present y → l.cell x = l.cell y → x = y
  homes : ∀ x y, m.present x → m.present y → l.home x = l.home y → x = y
  born : ∀ x n, m.present x → l.home x = .fiber n → n < s.fibers
  dispatcher : ∀ u, ∃ n, l.home (.dispatcher u) = .fiber n
  freed : ∀ n, s.freed n ↔ ∃ u, (m.sched u).deleted ∧ l.home (.dispatcher u) = .fiber n
  empty : ∀ x, m.present x → (m.ctx x).c = none → s.object (l.cell x) = some ⟨none⟩
  saved : ∀ x, m.present x → (m.ctx x).c ≠ none →
    ∃ f, s.object (l.cell x) = some ⟨some f⟩ ∧ f.stack = l.home x ∧ Left (s.frames (l.home x))
  returned : ∀ u, m.present (.dispatcher u) → (m.ctx (.dispatcher u)).c = some [] →
    s.frames (l.home (.dispatcher u)) = [.point .result, .body]
  running : ∀ t x, (m.thread t).active = some x → s.running t = l.home x
  executing : ∀ t x, (m.thread t).active = some x → saves m t = none → s.frames (l.home x) = [.body]
  ontop : ∀ t x y, (m.thread t).active = some x → saves m t = some y →
    ∃ f frames, s.object (l.arg t) = some ⟨some f⟩ ∧ f.stack = l.home y ∧ Left frames ∧
      s.frames (l.home x) = .ontop :: frames ∧ s.frames (l.home y) = [.point .result, .body]

variable {l : Layout T} {m m' : Lutask.State T} {s s' : State T} {t : T} {x y : Ctx T}
  {f : Fcontext T} {h g : ℕ} {p : Point} {below frames : List (Frame T)}

section Class

variable [DecidableEq T]

omit [DecidableEq T] in
/-- An object that exists is not one of those to be constructed next. -/
theorem lt_objects {c : FiberContext T} (hs : Sound none s) (hc : s.object h = some c) : h < s.objects := by
  by_contra hle
  simp [hs.objects h (not_lt.mp hle)] at hc

/-- `ResumeWith` on an object that refers to a suspended stack. -/
theorem run_resumeWith (hs : Sound none s) (hf : s.object h = some ⟨some f⟩)
    (hsuspended : s.suspended f = some (p, below)) : ∃ s', step s ⟨t, .resumeWith h⟩ = some s' ∧
      s'.object h = some ⟨none⟩ ∧ s'.object s.objects = some ⟨some (s.fcontext t)⟩ ∧
      (∀ k, k < s.objects → k ≠ h → s'.object k = s.object k) ∧
      s'.frames = Function.update
        (Function.update s.frames (s.running t) (.point .result :: s.frames (s.running t)))
        f.stack (.ontop :: .point p :: below) ∧
      s'.running = Function.update s.running t f.stack ∧ s'.fibers = s.fibers ∧ s'.freed = s.freed := by
  have hbound := lt_objects hs hf
  have hsame : (s.write h ⟨none⟩).suspended f = some (p, below) := hsuspended
  refine ⟨(((s.write h ⟨none⟩).suspend t .result).continue t f.stack (.ontop :: .point p :: below)).make
    ⟨some (s.fcontext t)⟩, ?_, ?_, ?_, fun k hk hkh => ?_, rfl, rfl, rfl, rfl⟩
  · simp only [step, hf, Option.bind_some, jumpOntop, hsame, Option.map_some]
    rfl
  · simp [hbound.ne]
  · simp
  · simp [hk.ne, hkh]

/-- The function that `Context::Resume` gives to `ResumeWith`: it moves its parameter `g` into
`prev->c_`, the object `h`, and returns an empty `FiberContext`. -/
theorem run_ontop (hs : Sound none s) (hg : s.object g = some ⟨some f⟩) (hh : s.object h = some ⟨none⟩)
    (hx : s.frames (s.running t) = .ontop :: .point p :: below) (hp : p ≠ .ignored) :
    ∃ s', Run step (fun _ _ => True) s
        [⟨t, .moveAssign h g⟩, ⟨t, .construct⟩, ⟨t, .destroy g⟩, ⟨t, .ret s.objects⟩] s' ∧
      s'.object h = some ⟨some f⟩ ∧ (∀ k, k < s.objects → k ≠ h → k ≠ g → s'.object k = s.object k) ∧
      s'.frames = Function.update s.frames (s.running t) (landing p below) ∧ s'.running = s.running ∧
      s'.fibers = s.fibers ∧ s'.freed = s.freed := by
  have hne : h ≠ g := by
    rintro rfl
    simp [hg] at hh
  have hgbound := lt_objects hs hg
  have hhbound := lt_objects hs hh
  have hmove : step s ⟨t, .moveAssign h g⟩ = some ((s.write h ⟨some f⟩).write g ⟨none⟩) := by
    simp [step, moveAssign, hg, hh, hne, destroyed]
  have hdestroy : step (((s.write h ⟨some f⟩).write g ⟨none⟩).make ⟨none⟩) ⟨t, .destroy g⟩ =
      some ((((s.write h ⟨some f⟩).write g ⟨none⟩).make ⟨none⟩).remove g) := by
    simp [step, hgbound.ne, destroyed]
  have hret : step ((((s.write h ⟨some f⟩).write g ⟨none⟩).make ⟨none⟩).remove g) ⟨t, .ret s.objects⟩ =
      some ((((((s.write h ⟨some f⟩).write g ⟨none⟩).make ⟨none⟩).remove g).remove s.objects).deliver t
        (s.running t) p below none) := by
    simp [step, ret, hgbound.ne', hx]
  refine ⟨_,
    Run.snoc (.snoc (.snoc (.snoc .nil trivial hmove) trivial rfl) trivial hdestroy) trivial hret, ?_⟩
  have hsame : Function.update s.running t (s.running t) = s.running := Function.update_eq_self _ _
  cases p with
  | ignored => exact absurd rfl hp
  | entry | result =>
    refine ⟨?_, fun k hk hkh hkg => ?_, rfl, hsame, rfl, rfl⟩
    · simp [State.deliver, hne, hhbound.ne, (show h ≠ s.objects + 1 by omega)]
    · simp [State.deliver, hkh, hkg, hk.ne, (show k ≠ s.objects + 1 by omega)]

/-- `c_` of a new context, and the assignment of a new fiber to it. -/
theorem run_create (s : State T) (t : T) : ∃ s' serial, Run step (fun _ _ => True) s
      [⟨t, .construct⟩, ⟨t, .create⟩, ⟨t, .moveAssign s.objects (s.objects + 1)⟩,
        ⟨t, .destroy (s.objects + 1)⟩] s' ∧
    s'.object s.objects = some ⟨some ⟨.fiber s.fibers, serial⟩⟩ ∧
    (∀ k, k < s.objects → s'.object k = s.object k) ∧
    s'.frames = Function.update s.frames (.fiber s.fibers) [.point .entry] ∧ s'.running = s.running ∧
    s'.fibers = s.fibers + 1 ∧ s'.freed = s.freed := by
  let n := s.objects
  have hmove : step (create (s.make ⟨none⟩)) ⟨t, .moveAssign n (n + 1)⟩ =
      some (((create (s.make ⟨none⟩)).write n
        ⟨some ⟨.fiber s.fibers, s.serial (.fiber s.fibers)⟩⟩).write (n + 1) ⟨none⟩) := by
    simp [step, moveAssign, create, destroyed, n]
  have hdestroy : step (((create (s.make ⟨none⟩)).write n
      ⟨some ⟨.fiber s.fibers, s.serial (.fiber s.fibers)⟩⟩).write (n + 1) ⟨none⟩) ⟨t, .destroy (n + 1)⟩ =
        some ((((create (s.make ⟨none⟩)).write n
          ⟨some ⟨.fiber s.fibers, s.serial (.fiber s.fibers)⟩⟩).write (n + 1) ⟨none⟩).remove (n + 1)) := by
    simp [step, destroyed]
  refine ⟨_, s.serial (.fiber s.fibers),
    Run.snoc (.snoc (.snoc (.snoc .nil trivial rfl) trivial rfl) trivial hmove) trivial hdestroy, ?_⟩
  refine ⟨by simp [create, n], fun k hk => ?_, rfl, rfl, rfl, rfl⟩
  simp [create, n, hk.ne, (show k ≠ s.objects + 1 by omega)]

/-- `Resume` of a stack whose function returns to `FiberEntry` what `ResumeWith` returns to it: the
stack is freed and the control comes back with nothing. -/
theorem run_exit {n : ℕ} (hs : Sound none s) (hf : s.object g = some ⟨some f⟩) (hn : f.stack = .fiber n)
    (hleft : s.frames (.fiber n) = [.point .result, .body]) : ∃ s', Run step (fun _ _ => True) s
        [⟨t, .resume g⟩, ⟨t, .ret s.objects⟩] s' ∧
      s'.object g = some ⟨none⟩ ∧ s'.object (s.objects + 1) = some ⟨none⟩ ∧
      (∀ k, k < s.objects → k ≠ g → s'.object k = s.object k) ∧
      s'.frames = Function.update s.frames (.fiber n) [] ∧ s'.running = s.running ∧ s'.fibers = s.fibers ∧
      s'.freed = Function.update s.freed n true := by
  have hbound := lt_objects hs hf
  obtain ⟨p', below', hpoint, -⟩ := hs.object g f (by simp [State.fctx, hf])
  have hserial := (suspended_eq_some.mp hpoint).2
  have hne : s.running t ≠ .fiber n := fun hrunning => by
    have hcode := hs.running t
    rw [hrunning, hleft] at hcode
    exact hcode
  -- the state in which the function has got the `FiberContext` of its resumer
  obtain ⟨s₁, hs₁⟩ : ∃ s₁, s₁ = (((s.write g ⟨none⟩).suspend t .result).continue t (.fiber n) [.body]).make
      ⟨some (s.fcontext t)⟩ := ⟨_, rfl⟩
  have hframes₁ : s₁.frames = Function.update (Function.update s.frames (s.running t)
      (.point .result :: s.frames (s.running t))) (.fiber n) [.body] := hs₁ ▸ rfl
  have hrunning₁ : s₁.running = Function.update s.running t (.fiber n) := hs₁ ▸ rfl
  have hresume : step s ⟨t, .resume g⟩ = some s₁ := by
    have hsuspended : (s.write g ⟨none⟩).suspended f = some (.result, [.body]) :=
      suspended_eq_some.mpr ⟨by simp [hn, hleft], hserial⟩
    simp only [step, hf, Option.bind_some, jump, hsuspended, Option.map_some, State.deliver,
      landing, hn, hs₁]
    rfl
  have hback : (s₁.remove s.objects).suspended (s.fcontext t) = some (.result, s.frames (s.running t)) :=
    suspended_eq_some.mpr ⟨by simp [hs₁, State.fcontext, hne], by simp [hs₁, State.fcontext]⟩
  have hret : step s₁ ⟨t, .ret s.objects⟩ = some (State.make (State.continue
      { s₁.remove s.objects with
        frames := Function.update s₁.frames (.fiber n) [], freed := Function.update s₁.freed n true }
      t (s.running t) (s.frames (s.running t))) ⟨none⟩) := by
    have hobject : s₁.object s.objects = some ⟨some (s.fcontext t)⟩ := by simp [hs₁]
    have hrunning : s₁.running t = .fiber n := by simp [hrunning₁]
    have hcode : s₁.frames (.fiber n) = [.body] := by simp [hframes₁]
    simp only [step, hobject, Option.bind_some, ret, State.remove_running, State.remove_frames,
      hrunning, hcode, jumpExit, hback, Option.map_some, State.deliver, landing]
    rfl
  refine ⟨_, Run.snoc (.snoc .nil trivial hresume) trivial hret, ?_, ?_, fun k hk hkg => ?_, ?_, ?_, ?_, ?_⟩
  · simp [hs₁, hbound.ne, (show g ≠ s.objects + 1 by omega)]
  · simp [hs₁]
  · simp [hs₁, hk.ne, hkg, (show k ≠ s.objects + 1 by omega)]
  · change Function.update (Function.update s₁.frames _ _) _ _ = _
    rw [hframes₁]
    funext x
    by_cases hx : x = s.running t
    · simp [hx, hne]
    · by_cases hxn : x = .fiber n <;> simp [hx, hxn, hne.symm]
  · change Function.update s₁.running _ _ = _
    simp [hrunning₁]
  · exact hs₁ ▸ rfl
  · exact hs₁ ▸ rfl

/-- `intrusive_ptr_release` of the last reference moves `c_`, the object `h`, out of the context,
which it destroys, and resumes the stack that `c_` referred to. -/
theorem run_release {n : ℕ} (hs : Sound none s) (hf : s.object h = some ⟨some f⟩) (hn : f.stack = .fiber n)
    (hleft : s.frames (.fiber n) = [.point .result, .body]) : ∃ s', Run step (fun _ _ => True) s
        ([⟨t, .moveConstruct h⟩, ⟨t, .destroy h⟩] ++ [⟨t, .resume s.objects⟩, ⟨t, .ret (s.objects + 1)⟩] ++
          [⟨t, .destroy (s.objects + 2)⟩, ⟨t, .destroy s.objects⟩]) s' ∧
      (∀ k, k < s.objects → k ≠ h → s'.object k = s.object k) ∧
      s'.frames = Function.update s.frames (.fiber n) [] ∧ s'.running = s.running ∧ s'.fibers = s.fibers ∧
      s'.freed = Function.update s.freed n true := by
  have hbound := lt_objects hs hf
  obtain ⟨s₁, hs₁⟩ : ∃ s₁, s₁ = ((s.write h ⟨none⟩).make ⟨some f⟩).remove h := ⟨_, rfl⟩
  have hmove : step s ⟨t, .moveConstruct h⟩ = some ((s.write h ⟨none⟩).make ⟨some f⟩) := by simp [step, hf]
  have hdestroy : step ((s.write h ⟨none⟩).make ⟨some f⟩) ⟨t, .destroy h⟩ = some s₁ := by
    simp [step, hbound.ne, destroyed, hs₁]
  have hmoved : Run step (fun _ _ => True) s [⟨t, .moveConstruct h⟩, ⟨t, .destroy h⟩] s₁ :=
    .snoc (.snoc .nil trivial hmove) trivial hdestroy
  have hs₁' : Sound none s₁ := hmoved.invariant hs fun _ _ _ hs _ hstep => hs.step hstep
  obtain ⟨s₂, hexit, hempty, hresult, hobject, hframes, hrunning, hfibers, hfreed⟩ :=
    run_exit (t := t) (g := s.objects) hs₁' (by simp [hs₁, hbound.ne']) hn (by simp [hs₁, hleft])
  have hobjects : s₁.objects = s.objects + 1 := hs₁ ▸ rfl
  rw [hobjects] at hexit hresult hobject
  have hfirst : step s₂ ⟨t, .destroy (s.objects + 2)⟩ = some (s₂.remove (s.objects + 2)) := by
    simp [step, hresult, destroyed]
  have hsecond : step (s₂.remove (s.objects + 2)) ⟨t, .destroy s.objects⟩ =
      some ((s₂.remove (s.objects + 2)).remove s.objects) := by
    simp [step, hempty, destroyed]
  refine ⟨_, (hmoved.append hexit).append (.snoc (.snoc .nil trivial hfirst) trivial hsecond),
    fun k hk hkh => ?_, hframes.trans (hs₁ ▸ rfl), hrunning.trans (hs₁ ▸ rfl),
    hfibers.trans (hs₁ ▸ rfl), hfreed.trans (hs₁ ▸ rfl)⟩
  simp [hobject k (by omega) hk.ne, hs₁, hk.ne, hkh, (show k ≠ s.objects + 2 by omega)]

end Class

section Machine

theorem Left.point (h : Left frames) :
    ∃ p below, frames = .point p :: below ∧ p ≠ .ignored ∧ landing p below = [.body] := by
  rcases h with rfl | rfl
  · exact ⟨.entry, [], rfl, by simp, rfl⟩
  · exact ⟨.result, [.body], rfl, by simp, rfl⟩

theorem saves_eq_some : saves m t = some y ↔ ∃ k rest, (m.thread t).stack = .save y k :: rest := by
  unfold saves
  split
  · rename_i z k rest hstack
    simp [hstack]
  · rename_i hnot
    simpa using fun k rest hstack => hnot y k rest hstack

theorem saves_eq_none (h : ∀ y k rest, (m.thread t).stack ≠ .save y k :: rest) : saves m t = none := by
  refine Option.eq_none_iff_forall_ne_some.mpr fun y hy => ?_
  obtain ⟨k, rest, hstack⟩ := saves_eq_some.mp hy
  exact h y k rest hstack

theorem saves_congr (h : m'.thread t = m.thread t) : saves m' t = saves m t := by
  rw [saves, h, saves]

theorem busy_of_saves (h : saves m t = some y) : m.Busy t y :=
  .inr (saves_eq_some.mp h)

/-- What is stored, executed or about to be stored nowhere changes if neither the contexts nor the
threads do. -/
theorem Realizes.congr (hr : Realizes l m s) (hstarted : m'.started = m.started)
    (hdeleted : ∀ u, (m'.sched u).deleted = (m.sched u).deleted) (hc : ∀ x, (m'.ctx x).c = (m.ctx x).c)
    (hactive : ∀ t x, (m'.thread t).active = some x → (m.thread t).active = some x)
    (hsaves : ∀ t x, (m'.thread t).active = some x → saves m' t = saves m t) : Realizes l m' s := by
  have hpresent := Lutask.State.present_congr hstarted hdeleted
  exact
    { cells := by simpa only [hpresent] using hr.cells
      homes := by simpa only [hpresent] using hr.homes
      born := by simpa only [hpresent] using hr.born
      dispatcher := hr.dispatcher
      freed := by simpa only [hdeleted] using hr.freed
      empty := by simpa only [hpresent, hc] using hr.empty
      saved := by simpa only [hpresent, hc] using hr.saved
      returned := by simpa only [hpresent, hc] using hr.returned
      running := fun t x h => hr.running t x (hactive t x h)
      executing := fun t x h hnone => hr.executing t x (hactive t x h) (hsaves t x h ▸ hnone)
      ontop := fun t x y h hy => hr.ontop t x y (hactive t x h) (hsaves t x h ▸ hy) }

/-- The parameter of the function on top of a stack is not the `c_` of a context. -/
theorem Realizes.arg_ne (hr : Realizes l m s) (hm : Continued m) (hret : Retired m)
    (hactive : (m.thread t).active = some x) (hsaves : saves m t = some y) {z : Ctx T} (hz : m.present z) :
    l.cell z ≠ l.arg t := by
  obtain ⟨f, frames, harg, hstack, -⟩ := hr.ontop t x y hactive hsaves
  intro heq
  by_cases hc : (m.ctx z).c = none
  · have hcell := hr.empty z hz hc
    simp [heq, harg] at hcell
  · obtain ⟨f', hcell, hhome, -⟩ := hr.saved z hz hc
    obtain rfl : f = f' := by simpa [heq, harg] using hcell
    obtain rfl := hr.homes z y hz (hret.present hm (busy_of_saves hsaves)) (hhome.symm.trans hstack)
    exact hc (hm.busy t z (busy_of_saves hsaves)).2

/-- The parameters of two functions on top of stacks are two objects. -/
theorem Realizes.args_ne (hr : Realizes l m s) (hm : Continued m) (hret : Retired m) {u : T} {x' y' : Ctx T}
    (hut : u ≠ t) (hactive : (m.thread t).active = some x) (hsaves : saves m t = some y)
    (hactive' : (m.thread u).active = some x') (hsaves' : saves m u = some y') : l.arg u ≠ l.arg t := by
  obtain ⟨f, -, harg, hstack, -⟩ := hr.ontop t x y hactive hsaves
  obtain ⟨f', -, harg', hstack', -⟩ := hr.ontop u x' y' hactive' hsaves'
  intro heq
  obtain rfl : f' = f := by simpa [heq, harg] using harg'.symm
  obtain rfl := hr.homes y' y (hret.present hm (busy_of_saves hsaves'))
    (hret.present hm (busy_of_saves hsaves)) (hstack'.symm.trans hstack)
  exact hut (hm.unique u t y' (busy_of_saves hsaves') (busy_of_saves hsaves))

variable [DecidableEq T]

/-- The function on top stores what it got. -/
theorem Realizes.store (hr : Realizes l m s) (hs : Sound none s) (hm : Continued m) (hret : Retired m)
    (hactive : (m.thread t).active = some x) (hsaves : saves m t = some y)
    (hstarted : m'.started = m.started) (hdeleted : ∀ u, (m'.sched u).deleted = (m.sched u).deleted)
    (hcy : (m'.ctx y).c ≠ none) (hc : ∀ z, z ≠ y → (m'.ctx z).c = (m.ctx z).c)
    (hthread : ∀ u, (m'.thread u).active = (m.thread u).active) (hdone : saves m' t = none)
    (hother : ∀ u, u ≠ t → saves m' u = saves m u) :
    ∃ acts s', Run Coroutine.step (fun _ _ => True) s acts s' ∧ Realizes l m' s' := by
  have hpresent := Lutask.State.present_congr hstarted hdeleted
  have hrunning := hr.running t x hactive
  obtain ⟨f, frames, harg, hfstack, hleft, hx, hy⟩ := hr.ontop t x y hactive hsaves
  obtain ⟨p, below, rfl, hp, hlanding⟩ := hleft.point
  have hypresent := hret.present hm (busy_of_saves hsaves)
  have hxpresent := hret.present hm (.inl hactive)
  have hxc := (hm.busy t x (.inl hactive)).2
  have hcell := hr.empty y hypresent (hm.busy t y (busy_of_saves hsaves)).2
  obtain ⟨s', hrun, hstored, hobject, hframes, hrun', hfibers, hfreed⟩ :=
    run_ontop (t := t) hs harg hcell (hrunning ▸ hx) hp
  rw [hrunning, hlanding] at hframes
  have hhome : ∀ z, m.present z → z ≠ x → s'.frames (l.home z) = s.frames (l.home z) := fun z hz hzx => by
    rw [hframes, Function.update_of_ne fun h => hzx (hr.homes z x hz hxpresent h)]
  have hyx : y ≠ x := by
    rintro rfl
    simp [hx] at hy
  have hsame : ∀ z, m.present z → z ≠ y → ∀ c, s.object (l.cell z) = some c →
      s'.object (l.cell z) = some c := by
    intro z hz hzy c hc
    rw [hobject _ (lt_objects hs hc) (fun h => hzy (hr.cells z y hz hypresent h))
      (hr.arg_ne hm hret hactive hsaves hz), hc]
  refine ⟨_, s', hrun, ?_⟩
  exact
    { cells := by simpa only [hpresent] using hr.cells
      homes := by simpa only [hpresent] using hr.homes
      born := by simpa only [hpresent, hfibers] using hr.born
      dispatcher := hr.dispatcher
      freed := by simpa only [hdeleted, hfreed] using hr.freed
      empty := fun z hz hcz => by
        have hzy : z ≠ y := by
          rintro rfl
          exact hcy hcz
        rw [hpresent] at hz
        exact hsame z hz hzy _ (hr.empty z hz (hc z hzy ▸ hcz))
      saved := fun z hz hcz => by
        rw [hpresent] at hz
        by_cases hzy : z = y
        · subst hzy
          exact ⟨f, hstored, hfstack, .inr ((hhome z hz hyx).trans hy)⟩
        · rw [hc z hzy] at hcz
          obtain ⟨f', hf', hstack', hleft'⟩ := hr.saved z hz hcz
          refine ⟨f', hsame z hz hzy _ hf', hstack', ?_⟩
          rwa [hhome z hz fun h => hcz (h ▸ hxc)]
      returned := fun u hu hcu => by
        rw [hpresent] at hu
        by_cases hzy : .dispatcher u = y
        · subst hzy
          exact (hhome _ hu hyx).trans hy
        · rw [hc _ hzy] at hcu
          rw [hhome _ hu fun h => by simp [h, hxc] at hcu]
          exact hr.returned u hu hcu
      running := fun u z hz => hrun' ▸ hr.running u z (hthread u ▸ hz)
      executing := fun u z hz hnone => by
        by_cases hut : u = t
        · subst hut
          obtain rfl : x = z := Option.some.inj (hactive.symm.trans (hthread u ▸ hz))
          simp [hframes]
        · rw [hthread] at hz
          rw [hhome z (hret.present hm (.inl hz)) fun h =>
            hut (hm.unique u t x (.inl (h ▸ hz)) (.inl hactive))]
          exact hr.executing u z hz (hother u hut ▸ hnone)
      ontop := fun u z w hz hw => by
        have hut : u ≠ t := by
          rintro rfl
          simp [hdone] at hw
        rw [hthread] at hz
        rw [hother u hut] at hw
        obtain ⟨f', frames', harg', hstack', hleft', hz', hw'⟩ := hr.ontop u z w hz hw
        have hzx : z ≠ x := fun h => hut (hm.unique u t x (.inl (h ▸ hz)) (.inl hactive))
        have hwx : w ≠ x := fun h => hut (hm.unique u t x (h ▸ busy_of_saves hw) (.inl hactive))
        refine ⟨f', frames', ?_, hstack', hleft', ?_, ?_⟩
        · rw [hobject _ (lt_objects hs harg') (fun h => ?_)
            (hr.args_ne hm hret hut hactive hsaves hz hw), harg']
          simp [h, hcell] at harg'
        · rw [hhome z (hret.present hm (.inl hz)) hzx, hz']
        · rw [hhome w (hret.present hm (busy_of_saves hw)) hwx, hw'] }

/-- `Context::Resume` and its variants switch with `ResumeWith`. -/
theorem Realizes.switch (hr : Realizes l m s) (hs : Sound none s) (hm : Continued m) (hret : Retired m)
    (hactive : (m.thread t).active = some x) (hsaves : saves m t = none) (hypresent : m.present y)
    (hyc : (m.ctx y).c ≠ none) (hstarted : m'.started = m.started)
    (hdeleted : ∀ u, (m'.sched u).deleted = (m.sched u).deleted) (hcy : (m'.ctx y).c = none)
    (hc : ∀ z, z ≠ y → (m'.ctx z).c = (m.ctx z).c) (hactive' : (m'.thread t).active = some y)
    (hsaves' : saves m' t = some x) (hother : ∀ u, u ≠ t → m'.thread u = m.thread u) :
    ∃ acts l' s', Run Coroutine.step (fun _ _ => True) s acts s' ∧ Realizes l' m' s' := by
  have hpresent := Lutask.State.present_congr hstarted hdeleted
  have hxpresent := hret.present hm (.inl hactive)
  have hxc := (hm.busy t x (.inl hactive)).2
  have hxy : x ≠ y := fun h => hyc (h ▸ hxc)
  obtain ⟨f, hcell, hfstack, hleft⟩ := hr.saved y hypresent hyc
  obtain ⟨p, below, hframes, hp, hlanding⟩ := hleft.point
  obtain ⟨p', below', hsuspended, -⟩ := hs.object (l.cell y) f (by simp [State.fctx, hcell])
  have hserial := (suspended_eq_some.mp hsuspended).2
  obtain ⟨s', hfire, hempty, hmade, hobject, hframes', hrunning', hfibers, hfreed⟩ :=
    run_resumeWith (t := t) hs hcell (suspended_eq_some.mpr ⟨hfstack ▸ hframes, hserial⟩)
  have hrunning := hr.running t x hactive
  rw [hrunning, hr.executing t x hactive hsaves, hfstack] at hframes'
  rw [hfstack] at hrunning'
  have hhomes : l.home x ≠ l.home y := fun h => hxy (hr.homes x y hxpresent hypresent h)
  have hhome : ∀ z, m.present z → z ≠ x → z ≠ y → s'.frames (l.home z) = s.frames (l.home z) := by
    intro z hz hzx hzy
    rw [hframes', Function.update_of_ne fun h => hzy (hr.homes z y hz hypresent h),
      Function.update_of_ne fun h => hzx (hr.homes z x hz hxpresent h)]
  have hsame : ∀ z, m.present z → z ≠ y → ∀ c, s.object (l.cell z) = some c →
      s'.object (l.cell z) = some c :=
    fun z hz hzy c hc => by
      rw [hobject _ (lt_objects hs hc) (fun h => hzy (hr.cells z y hz hypresent h)), hc]
  -- no other thread is busy with one of the two contexts
  have hapart : ∀ u, u ≠ t → ∀ z, m.Busy u z → z ≠ x ∧ z ≠ y := by
    refine fun u hut z hz => ⟨?_, ?_⟩
    · rintro rfl
      exact hut (hm.unique u t z hz (.inl hactive))
    · rintro rfl
      exact hyc (hm.busy u z hz).2
  refine ⟨_, { l with arg := Function.update l.arg t s.objects }, s', .snoc .nil trivial hfire, ?_⟩
  exact
    { cells := by simpa only [hpresent] using hr.cells
      homes := by simpa only [hpresent] using hr.homes
      born := by simpa only [hpresent, hfibers] using hr.born
      dispatcher := hr.dispatcher
      freed := by simpa only [hdeleted, hfreed] using hr.freed
      empty := fun z hz hcz => by
        by_cases hzy : z = y
        · exact hzy ▸ hempty
        · rw [hpresent] at hz
          exact hsame z hz hzy _ (hr.empty z hz (hc z hzy ▸ hcz))
      saved := fun z hz hcz => by
        rw [hpresent] at hz
        have hzy : z ≠ y := by
          rintro rfl
          exact hcz hcy
        rw [hc z hzy] at hcz
        obtain ⟨f', hf', hstack', hleft'⟩ := hr.saved z hz hcz
        refine ⟨f', hsame z hz hzy _ hf', hstack', ?_⟩
        exact (hhome z hz (fun h => hcz (h ▸ hxc)) hzy).symm ▸ hleft'
      returned := fun u hu hcu => by
        rw [hpresent] at hu
        have huy : .dispatcher u ≠ y := fun h => by simp [h, hcy] at hcu
        rw [hc _ huy] at hcu
        rw [hhome _ hu (fun h => by simp [h, hxc] at hcu) huy]
        exact hr.returned u hu hcu
      running := fun u z hz => by
        by_cases hut : u = t
        · subst hut
          obtain rfl := Option.some.inj (hactive'.symm.trans hz)
          simp [hrunning']
        · rw [hother u hut] at hz
          rw [hrunning', Function.update_of_ne hut]
          exact hr.running u z hz
      executing := fun u z hz hnone => by
        have hut : u ≠ t := by
          rintro rfl
          simp [hsaves'] at hnone
        rw [hother u hut] at hz
        obtain ⟨hzx, hzy⟩ := hapart u hut z (.inl hz)
        rw [hhome z (hret.present hm (.inl hz)) hzx hzy]
        exact hr.executing u z hz (by rwa [saves, hother u hut] at hnone)
      ontop := fun u z w hz hw => by
        by_cases hut : u = t
        · subst hut
          obtain rfl := Option.some.inj (hactive'.symm.trans hz)
          obtain rfl := Option.some.inj (hsaves'.symm.trans hw)
          refine ⟨s.fcontext u, .point p :: below, by simpa using hmade, hrunning, hframes ▸ hleft, ?_, ?_⟩
          · simp [hframes']
          · simp [hframes', hhomes]
        · rw [hother u hut] at hz
          have hw' : saves m u = some w := by rwa [saves, hother u hut] at hw
          obtain ⟨f', frames', harg', hstack', hleft', hz', hwleft⟩ := hr.ontop u z w hz hw'
          obtain ⟨hzx, hzy⟩ := hapart u hut z (.inl hz)
          obtain ⟨hwx, hwy⟩ := hapart u hut w (busy_of_saves hw')
          refine ⟨f', frames', ?_, hstack', hleft', ?_, ?_⟩
          · simp only [Function.update_of_ne hut]
            rw [hobject _ (lt_objects hs harg') (hr.arg_ne hm hret hz hw' hypresent).symm, harg']
          · rw [hhome z (hret.present hm (.inl hz)) hzx hzy, hz']
          · rw [hhome w (hret.present hm (busy_of_saves hw')) hwx hwy, hwleft] }

/-- `MakeWorkerContext` constructs `c_` of the new context and assigns a new fiber to it. -/
theorem Realizes.create {w : Ctx T} (hr : Realizes l m s) (hs : Sound none s) (hm : Continued m)
    (hret : Retired m) (t : T) (hworker : ∀ u, .dispatcher u ≠ w) (hnew : m.started w = false)
    (hstarted : ∀ z, m'.started z ↔ m.started z ∨ z = w)
    (hdeleted : ∀ u, (m'.sched u).deleted = (m.sched u).deleted) (hcw : (m'.ctx w).c ≠ none)
    (hc : ∀ z, z ≠ w → (m'.ctx z).c = (m.ctx z).c)
    (hactive : ∀ u, (m'.thread u).active = (m.thread u).active)
    (hsaves : ∀ u, saves m' u = saves m u) :
    ∃ acts l' s', Run Coroutine.step (fun _ _ => True) s acts s' ∧ Realizes l' m' s' := by
  obtain ⟨s', serial, hrun, hmade, hobject, hframes, hrunning, hfibers, hfreed⟩ := run_create s t
  have hpresent : ∀ z, m'.present z → m.present z ∨ z = w := by
    refine fun z ⟨hz, hgone⟩ => ((hstarted z).mp hz).imp_left fun hz => ⟨hz, fun u hu => ?_⟩
    rw [← hdeleted, hgone u hu]
  have hne : ∀ z, m.present z → z ≠ w := by
    rintro z ⟨hz, -⟩ rfl
    simp [hnew] at hz
  have hhome : ∀ z, m.present z → l.home z ≠ .fiber s.fibers := fun z hz h => (hr.born z _ hz h).ne rfl
  have hsame : ∀ z, m.present z → ∀ c, s.object (l.cell z) = some c → s'.object (l.cell z) = some c :=
    fun z hz c hc => by rw [hobject _ (lt_objects hs hc), hc]
  have hcell : ∀ z, m.present z → l.cell z ≠ s.objects := fun z hz => by
    by_cases hcz : (m.ctx z).c = none
    · exact (lt_objects hs (hr.empty z hz hcz)).ne
    · obtain ⟨f, hf, -⟩ := hr.saved z hz hcz
      exact (lt_objects hs hf).ne
  refine ⟨_, { l with cell := Function.update l.cell w s.objects,
                      home := Function.update l.home w (.fiber s.fibers) },
    s', hrun, ?_⟩
  exact
    { cells := fun z v hz hv h => by
        simp only [Function.update_apply] at h
        rcases hpresent z hz with hz | rfl <;> rcases hpresent v hv with hv | rfl
        · exact hr.cells z v hz hv (by simpa [hne z hz, hne v hv] using h)
        · exact absurd (by simpa [hne z hz] using h) (hcell z hz)
        · exact absurd (by simpa [hne v hv] using h.symm) (hcell v hv)
        · rfl
      homes := fun z v hz hv h => by
        simp only [Function.update_apply] at h
        rcases hpresent z hz with hz | rfl <;> rcases hpresent v hv with hv | rfl
        · exact hr.homes z v hz hv (by simpa [hne z hz, hne v hv] using h)
        · exact absurd (by simpa [hne z hz] using h) (hhome z hz)
        · exact absurd (by simpa [hne v hv] using h.symm) (hhome v hv)
        · rfl
      born := fun z n hz h => by
        rw [hfibers]
        rcases hpresent z hz with hz | rfl
        · exact (hr.born z n hz (by simpa [hne z hz] using h)).trans (Nat.lt_succ_self _)
        · obtain rfl : s.fibers = n := by simpa using h
          exact Nat.lt_succ_self _
      dispatcher := fun u => by simpa [hworker] using hr.dispatcher u
      freed := fun n => by simpa [hworker, hdeleted, hfreed] using hr.freed n
      empty := fun z hz hcz => by
        have hzw : z ≠ w := by
          rintro rfl
          exact hcw hcz
        have hz' := (hpresent z hz).resolve_right hzw
        simp only [Function.update_of_ne hzw]
        exact hsame z hz' _ (hr.empty z hz' (hc z hzw ▸ hcz))
      saved := fun z hz hcz => by
        by_cases hzw : z = w
        · subst hzw
          exact ⟨_, by simpa using hmade, by simp, by simp [hframes, Left]⟩
        · rw [hc z hzw] at hcz
          have hz := (hpresent z hz).resolve_right hzw
          obtain ⟨f, hf, hstack, hleft⟩ := hr.saved z hz hcz
          simp only [Function.update_of_ne hzw, hframes, Function.update_of_ne (hhome z hz)]
          exact ⟨f, hsame z hz _ hf, hstack, hleft⟩
      returned := fun u hu hcu => by
        have hu := (hpresent _ hu).resolve_right (hworker u)
        rw [hc _ (hworker u)] at hcu
        simp only [Function.update_of_ne (hworker u), hframes, Function.update_of_ne (hhome _ hu)]
        exact hr.returned u hu hcu
      running := fun u z hz => by
        rw [hactive] at hz
        simp only [Function.update_of_ne (hne z (hret.present hm (.inl hz)))]
        exact hrunning ▸ hr.running u z hz
      executing := fun u z hz hnone => by
        rw [hactive] at hz
        have hz' := hret.present hm (.inl hz)
        simp only [Function.update_of_ne (hne z hz'), hframes, Function.update_of_ne (hhome z hz')]
        exact hr.executing u z hz (hsaves u ▸ hnone)
      ontop := fun u z v hz hv => by
        rw [hactive] at hz
        rw [hsaves] at hv
        have hz' := hret.present hm (.inl hz)
        have hv' := hret.present hm (busy_of_saves hv)
        obtain ⟨f, frames, harg, hontop⟩ := hr.ontop u z v hz hv
        simp only [Function.update_of_ne (hne z hz'), Function.update_of_ne (hne v hv'), hframes,
          Function.update_of_ne (hhome z hz'), Function.update_of_ne (hhome v hv')]
        exact ⟨f, frames, by rw [hobject _ (lt_objects hs harg), harg], hontop⟩ }

/-- The end of `~Scheduler` releases the dispatcher, which has returned. -/
theorem Realizes.release {u : T} (hr : Realizes l m s) (hs : Sound none s) (hm : Continued m)
    (hret : Retired m) (hactive : (m.thread t).active = some x) (hu : m.present (.dispatcher u))
    (hcu : (m.ctx (.dispatcher u)).c = some [])
    (hpresent : ∀ z, m'.present z ↔ m.present z ∧ z ≠ .dispatcher u)
    (hdeleted : ∀ v, (m'.sched v).deleted ↔ (m.sched v).deleted ∨ v = u)
    (hc : ∀ z, (m'.ctx z).c = (m.ctx z).c)
    (hnone : (m'.thread t).active = none) (hother : ∀ v, v ≠ t → m'.thread v = m.thread v) :
    ∃ acts s', Run Coroutine.step (fun _ _ => True) s acts s' ∧ Realizes l m' s' := by
  obtain ⟨f, hf, hfstack, -⟩ := hr.saved _ hu (by simp [hcu])
  obtain ⟨n, hn⟩ := hr.dispatcher u
  have hleft := hr.returned u hu hcu
  rw [hn] at hfstack hleft
  obtain ⟨s', hrun, hobject, hframes, hrunning, hfibers, hfreed⟩ := run_release (t := t) hs hf hfstack hleft
  have hhome : ∀ z, m'.present z → s'.frames (l.home z) = s.frames (l.home z) := fun z hz => by
    obtain ⟨hz, hzu⟩ := (hpresent z).mp hz
    rw [hframes, Function.update_of_ne fun h => hzu (hr.homes z _ hz hu (h.trans hn.symm))]
  have hsame : ∀ z, m'.present z → ∀ c, s.object (l.cell z) = some c → s'.object (l.cell z) = some c :=
    fun z hz c hc => by
      obtain ⟨hz, hzu⟩ := (hpresent z).mp hz
      rw [hobject _ (lt_objects hs hc) fun h => hzu (hr.cells z _ hz hu h), hc]
  have hbusy : ∀ v z, v ≠ t → m.Busy v z → m'.present z := fun v z hvt hz =>
    (hpresent z).mpr ⟨hret.present hm hz, by
      rintro rfl
      simp [(hm.busy v _ hz).2] at hcu⟩
  refine ⟨_, s', hrun, ?_⟩
  exact
    { cells := fun z v hz hv => hr.cells z v ((hpresent z).mp hz).1 ((hpresent v).mp hv).1
      homes := fun z v hz hv => hr.homes z v ((hpresent z).mp hz).1 ((hpresent v).mp hv).1
      born := fun z k hz => hfibers ▸ hr.born z k ((hpresent z).mp hz).1
      dispatcher := hr.dispatcher
      freed := fun k => by
        rw [hfreed]
        by_cases hk : k = n
        · subst hk
          simpa using ⟨u, (hdeleted u).mpr (.inr rfl), hn⟩
        · rw [Function.update_of_ne hk, hr.freed k]
          refine exists_congr fun v => and_congr_left fun hv => ?_
          rw [hdeleted, or_iff_left]
          rintro rfl
          exact hk (Stack.fiber.inj (hv.symm.trans hn))
      empty := fun z hz hcz => hsame z hz _ (hr.empty z ((hpresent z).mp hz).1 (hc z ▸ hcz))
      saved := fun z hz hcz => by
        obtain ⟨f', hf', hstack', hleft'⟩ := hr.saved z ((hpresent z).mp hz).1 (hc z ▸ hcz)
        exact ⟨f', hsame z hz _ hf', hstack', hhome z hz ▸ hleft'⟩
      returned := fun v hv hcv => hhome _ hv ▸ hr.returned v ((hpresent _).mp hv).1 (hc _ ▸ hcv)
      running := fun v z hz => by
        have hvt : v ≠ t := by
          rintro rfl
          simp [hnone] at hz
        rw [hother v hvt] at hz
        exact hrunning ▸ hr.running v z hz
      executing := fun v z hz hdone => by
        have hvt : v ≠ t := by
          rintro rfl
          simp [hnone] at hz
        rw [hother v hvt] at hz
        rw [saves_congr (hother v hvt)] at hdone
        rw [hhome z (hbusy v z hvt (.inl hz))]
        exact hr.executing v z hz hdone
      ontop := fun v z w hz hw => by
        have hvt : v ≠ t := by
          rintro rfl
          simp [hnone] at hz
        rw [hother v hvt] at hz
        rw [saves_congr (hother v hvt)] at hw
        obtain ⟨f', frames, harg, hstack', hleft', hz', hw'⟩ := hr.ontop v z w hz hw
        refine ⟨f', frames, ?_, hstack', hleft', ?_, ?_⟩
        · rw [hobject _ (lt_objects hs harg) (hr.arg_ne hm hret hz hw hu).symm, harg]
        · rw [hhome z (hbusy v z hvt (.inl hz)), hz']
        · rw [hhome w (hbusy v w hvt (busy_of_saves hw)), hw'] }

theorem Realizes.step {e : Lutask.Event T} (hr : Realizes l m s) (hs : Sound none s) (hshape : Shape m)
    (hm : Continued m) (hd : Dispatching m) (hret : Retired m) (he : e.endsReturned m)
    (hstep : Lutask.step m e = some m') :
    ∃ acts l' s', Run Coroutine.step (fun _ _ => True) s acts s' ∧ Realizes l' m' s' := by
  cases step_inv hstep with
  | @call t x op r hactive hstack huser hop =>
    have hsaves : ∀ u, saves (r.1.setStack t r.2) u = saves m u := by
      intro u
      by_cases hut : u = t
      · subst hut
        rw [saves_eq_none (m := m) (by simp [hstack]), saves_eq_none]
        intro y k rest hframes
        exact hop.leaves.noSave y k (by simp [show r.2 = .save y k :: rest by simpa using hframes])
      · exact saves_congr (by rw [Lutask.State.setStack_thread_of_ne _ hut, hop.thread])
    have hactive' : ∀ u, ((r.1.setStack t r.2).thread u).active = (m.thread u).active := fun u => by
      rw [Lutask.State.setStack_active, hop.thread]
    by_cases hstart : ∃ launch, op = .start launch
    · refine hr.create (w := .worker m.fresh) hs hm hret t (by simp)
        (by simp [Lutask.State.started]) (fun z => ?_) hop.deleted ?_ (fun z hz => ?_) hactive' hsaves
      · simpa [hstart] using hop.started_iff z
      · obtain ⟨launch, rfl⟩ := hstart
        cases hop
        simp [Lutask.start]
      · exact (hop.c z).resolve_right fun h => hz h.2.1
    · refine ⟨[], l, s, .nil, hr.congr ?_ hop.deleted (fun z => ?_) (fun u z hz => hactive' u ▸ hz)
        fun u z hz => hsaves u⟩
      · funext z
        exact Bool.eq_iff_iff.mpr (by simpa [hstart] using hop.started_iff z)
      · exact (hop.c z).resolve_right fun h => hstart h.1
  | @frame t x f now rest r hactive hstack hframe =>
    have hdone : saves (r.1.setStack t (r.2 ++ rest)) t = none :=
      saves_eq_none fun y k rest' hframes =>
        hframe.noSave hshape hactive hstack y k rest' (by simpa using hframes)
    have hother : ∀ u, u ≠ t → saves (r.1.setStack t (r.2 ++ rest)) u = saves m u := fun u hut =>
      saves_congr (by rw [Lutask.State.setStack_thread_of_ne _ hut, hframe.thread_of_ne hut])
    by_cases hsave : ∃ y k, f = .save y k
    · obtain ⟨y, k, rfl⟩ := hsave
      have hactive' : ∀ u, ((r.1.setStack t (r.2 ++ rest)).thread u).active = (m.thread u).active := by
        intro u
        rw [Lutask.State.setStack_active]
        by_cases hut : u = t
        · subst hut
          exact hframe.active.resolve_right (by simp)
        · rw [hframe.thread_of_ne hut]
      have hstored : (r.1.ctx y).c ≠ none := by
        cases hframe with
        | pop hf | popEmpty hf => simp at hf
        | save hfctx => simp
      have hkept : ∀ z, z ≠ y → (r.1.ctx z).c = (m.ctx z).c := by
        refine fun z hz => (hframe.c z).resolve_right ?_
        rintro ⟨k', hk', -⟩
        exact hz (Frame.save.inj hk').1.symm
      have hstarted : (r.1.setStack t (r.2 ++ rest)).started = m.started := hframe.started
      have hdeleted := fun u => (hframe.deleted u).resolve_right (by simp)
      obtain ⟨acts, s', hrun, hreal⟩ :=
        hr.store hs hm hret hactive (saves_eq_some.mpr ⟨k, rest, hstack⟩) hstarted
        hdeleted hstored hkept hactive' hdone hother
      exact ⟨acts, l, s', hrun, hreal⟩
    by_cases hdestroy : ∃ u, f = .destroy u
    · obtain ⟨u, rfl⟩ := hdestroy
      obtain rfl : x = .main u := hshape.frames t x hactive (.destroy u) (by simp [hstack])
      have hliving : (m.sched u).deleted = false := by
        by_contra hgone
        exact (hret.stopped u (by simpa using hgone)).2 t (.inl hactive)
      have hcu : (m.ctx (.dispatcher u)).c = some [] := he
      have hthread : ∀ v, v ≠ t → (r.1.setStack t (r.2 ++ rest)).thread v = m.thread v := fun v hv => by
        rw [Lutask.State.setStack_thread_of_ne _ hv, hframe.thread_of_ne hv]
      have hkept : ∀ z, ((r.1.setStack t (r.2 ++ rest)).ctx z).c = (m.ctx z).c :=
        fun z => (hframe.c z).resolve_right (by simp)
      have hstarted : (r.1.setStack t (r.2 ++ rest)).started = m.started := hframe.started
      have hdeleted : ∀ v, ((r.1.setStack t (r.2 ++ rest)).sched v).deleted ↔
          (m.sched v).deleted ∨ v = u := by
        intro v
        cases hframe with
        | pop hcase | popEmpty hcase => simp at hcase
        | destroy => by_cases hv : v = u <;> simp [Lutask.destroy, hv]
      have hnone : ((r.1.setStack t (r.2 ++ rest)).thread t).active = none := by
        cases hframe with
        | pop hcase | popEmpty hcase => simp at hcase
        | destroy => simp [Lutask.destroy]
      have hpresent : ∀ z, (r.1.setStack t (r.2 ++ rest)).present z ↔ m.present z ∧ z ≠ .dispatcher u := by
        intro z
        simp only [Lutask.State.present, hstarted, ← Bool.not_eq_true, hdeleted, not_or]
        constructor
        · rintro ⟨hz, hgone⟩
          exact ⟨⟨hz, fun v hv => (hgone v hv).1⟩, fun hzu => (hgone u hzu).2 rfl⟩
        · rintro ⟨⟨hz, hgone⟩, hzu⟩
          refine ⟨hz, fun v hv => ⟨hgone v hv, ?_⟩⟩
          rintro rfl
          exact hzu hv
      obtain ⟨acts, s', hrun, hreal⟩ :=
        hr.release hs hm hret hactive ⟨rfl, fun v hv => by cases hv; exact hliving⟩
        hcu hpresent hdeleted hkept hnone hthread
      exact ⟨acts, l, s', hrun, hreal⟩
    · refine ⟨[], l, s, .nil,
        hr.congr (by simp [hframe.started]) (fun u => ?_) (fun z => ?_) (fun u z hz => ?_)
        fun u z hz => ?_⟩
      · exact (hframe.deleted u).resolve_right fun h => hdestroy ⟨u, h.1⟩
      · exact (hframe.c z).resolve_right fun h => hsave ⟨z, h.choose, h.choose_spec.1⟩
      · rw [Lutask.State.setStack_active] at hz
        by_cases hut : u = t
        · subst hut
          rcases hframe.active with hsame | ⟨v, -, hnone⟩
          · exact hsame ▸ hz
          · simp [hnone] at hz
        · exact hframe.thread_of_ne hut ▸ hz
      · by_cases hut : u = t
        · subst hut
          rw [hdone, saves_eq_none]
          intro y k rest' htop
          exact hsave ⟨y, k, (List.cons.inj (hstack.symm.trans htop)).1⟩
        · exact hother u hut
  | @switch t x y f k now rest stack hactive hstack htarget hc =>
    have hypresent : m.present y := by
      refine ⟨hm.saved y (by simp [hc]), fun u hu => ?_⟩
      subst hu
      by_contra hgone
      have hreturned := hret.returned u (by simpa using hgone)
      rcases hd.left u [] (.inl hreturned) with ⟨g, hg, -⟩ | ⟨-, hnowhere⟩
      · simp at hg
      · exact not_resumed_of_nowhere hnowhere hstack htarget
    refine hr.switch (y := y) hs hm hret hactive (saves_eq_none ?_) hypresent (by simp [hc]) rfl
      (fun _ => rfl) (by simp [switched]) (fun z hz => ?_) ?_ ?_ fun u hut => ?_
    · intro z k' rest' htop
      obtain ⟨rfl, -⟩ := List.cons.inj (hstack.symm.trans htop)
      simp [Frame.target] at htarget
    · simp [switched, hz]
    · simp [switched]
    · exact saves_eq_some.mpr ⟨k, stack, by simp [switched]⟩
    · simp [switched, hut]

/-- Every run of the contexts, on any threads and with any policies, in which `~Scheduler` gets the
control back from its dispatcher, is a run of class `FiberContext`, in which each `c_` refers to the
stack of its context exactly while the machine has it saved, and exactly the stacks of the
dispatchers whose schedulers are gone are freed. All operations on `FiberContext` that the run needs
are defined, so that their assertions hold. -/
theorem contexts_use_fiber_contexts {policy : T → Policy} {events : List (Lutask.Event T)}
    (h : Lutask.Runs policy (fun m e => e.endsReturned m) events m) {l₀ : Layout T} {s₀ : State T}
    {before : List (Event T)} (hbefore : Runs before s₀) (h₀ : Realizes l₀ (.initial policy) s₀) :
    ∃ after l s, Runs (before ++ after) s ∧ Realizes l m s := by
  have hkept := h.strengthen
    (I := fun m => (Shape m ∧ Continued m ∧ Scripted m) ∧ Dispatching m ∧ Retired m)
    ⟨⟨Shape.initial policy, Continued.initial policy, Scripted.initial policy⟩,
      Dispatching.initial policy, Retired.initial policy⟩
    fun m e m' ⟨⟨hshape, hm, hscript⟩, hd, hret⟩ he hstep =>
      ⟨⟨hshape.step hstep, hm.step hshape hstep, hscript.step hshape hstep⟩,
        hd.step hshape hm hscript hstep, hret.step hd hshape hm he hstep⟩
  obtain ⟨after, s, hafter, l, -, hreal⟩ : ∃ after s, Run Coroutine.step (fun _ _ => True) s₀ after s ∧
      ∃ l, Sound none s ∧ Realizes l m s := by
    refine hkept.simulate (R := fun m s => ∃ l, Sound none s ∧ Realizes l m s)
      (fun m e m' s hr hm hstep => ?_) ⟨l₀, hbefore.sound, h₀⟩
    obtain ⟨l, hs, hr⟩ := hr
    obtain ⟨⟨⟨hshape, hm, -⟩, hd, hret⟩, he⟩ := hm
    obtain ⟨acts, l', s', hrun, hr'⟩ := hr.step hs hshape hm hd hret he hstep
    exact ⟨acts, s', hrun, l', hrun.invariant hs fun _ _ _ hs _ hstep => hs.step hstep, hr'⟩
  exact ⟨after, l, s, hbefore.append hafter, hreal⟩

/-- What `ContextInitializer::Initialize` does with the class on one thread: `c_` of main is empty,
and `c_` of the dispatcher gets a fiber. -/
def initialized : List (Event Unit) :=
  [⟨(), .construct⟩, ⟨(), .construct⟩, ⟨(), .create⟩, ⟨(), .moveAssign 1 2⟩, ⟨(), .destroy 2⟩]

def Layout.initial : Layout Unit where
  cell
    | .main _ => 0
    | .dispatcher _ => 1
    | .worker n => n + 2
  home
    | .main _ => .thread ()
    | .dispatcher _ => .fiber 0
    | .worker n => .fiber (n + 1)
  arg _ := 2

theorem initialized_realizes : ∃ s₀, Runs initialized s₀ ∧
    Realizes .initial (.initial fun _ => .roundRobin) s₀ := by
  refine ⟨_, Run.of_play (fun _ _ _ => trivial)
    (rfl : play step (fun _ _ => true) State.initial initialized = some _), ?_⟩
  have hstarted : ∀ n, ¬ (Lutask.State.initial fun _ : Unit => .roundRobin).present (.worker n) := by
    simp [Lutask.State.present, Lutask.State.started, Lutask.State.initial]
  exact
    { cells := fun x y hx hy h => by
        cases x <;> cases y <;> simp_all [Layout.initial]
      homes := fun x y hx hy h => by
        cases x <;> cases y <;> simp_all [Layout.initial]
      born := fun x n hx h => by
        cases x with
        | worker k => exact absurd hx (hstarted k)
        | main t => cases h
        | dispatcher t =>
          obtain rfl : 0 = n := Stack.fiber.inj h
          decide
      dispatcher := fun _ => ⟨0, rfl⟩
      freed := fun n => by
        constructor
        · intro hn
          cases hn
        · rintro ⟨u, hu, -⟩
          cases hu
      empty := fun x hx hc => by
        cases x with
        | worker k => exact absurd hx (hstarted k)
        | main t => rfl
        | dispatcher t => cases hc
      saved := fun x _ hc => by
        cases x with
        | worker k => exact absurd rfl hc
        | main t => exact absurd rfl hc
        | dispatcher t => exact ⟨_, rfl, rfl, .inl rfl⟩
      returned := fun u _ hu => by cases hu
      running := fun t x hx => by
        obtain rfl := Option.some.inj hx
        rfl
      executing := fun t x hx _ => by
        obtain rfl := Option.some.inj hx
        rfl
      ontop := fun t x y hx hy => by cases hy }

/-- Main starts a worker, which terminates in `~Scheduler`, whose end frees the stack of the dispatcher. -/
theorem dispatcher_released_with_fiber_context : ∃ (m : Lutask.State Unit) (after : List (Event Unit))
    (l : Layout Unit) (s : State Unit), (m.ctx (.worker 0)).terminated ∧ Runs (initialized ++ after) s ∧
      Realizes l m s ∧ ∃ n, s.freed n := by
  obtain ⟨s₀, hbefore, h₀⟩ := initialized_realizes
  obtain ⟨events, m, hrun, hterminated, hdeleted⟩ : ∃ events m,
      Lutask.Runs (fun _ : Unit => .roundRobin) (fun _ e => e.keepsPlaces) events m ∧
        ((m.ctx (.worker 0)).terminated ∧ (m.sched ()).deleted) :=
    reaches_of_drive [.call () (.main ()) (.start .post), .frames () 2 0, .call () (.main ()) .destructor,
      .frames () 11 0, .call () (.worker 0) .terminate, .frames () 11 0] (by decide)
  obtain ⟨after, l, s, hafter, hreal⟩ :=
    contexts_use_fiber_contexts (hrun.endsReturned fun _ _ he => he) hbefore h₀
  obtain ⟨n, hn⟩ := hreal.dispatcher ()
  exact ⟨m, after, l, s, hterminated, hafter, hreal, n, (hreal.freed n).mpr ⟨(), hdeleted, hn⟩⟩

end Machine

end Coroutine

end Lutask
