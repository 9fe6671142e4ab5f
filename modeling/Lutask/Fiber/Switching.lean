import Mathlib.Logic.Equiv.Basic
import Lutask.Fiber.Coroutine

/-!
# Where a stack is

A stack is executed by a thread, or one `FiberContext` or one exception refers to its suspension, or
it was deallocated. The operations of class `FiberContext` are made of steps that permute these
places: an object gives up what it refers to, a thread switches to the stack that it has in hand,
and what it has left goes into an object or an exception.
-/

namespace Lutask

namespace Coroutine

variable {T : Type*}

/-- A function is executed on a stack. -/
def Executing : List (Frame T) → Prop
  | [] | .point _ :: _ => False
  | _ => True

/-- What the frames of a stack are. -/
inductive Formed : List (Frame T) → Prop
  | body : Formed [.body]
  | entry : Formed [.point .entry]
  | unwinding (f : Fcontext T) : Formed [.unwind f]
  | suspended {p : Point} {frames : List (Frame T)} (hp : p ≠ .entry) (hexec : Executing frames)
      (h : Formed frames) : Formed (.point p :: frames)
  | ontop {p : Point} {below : List (Frame T)} (hp : p ≠ .ignored) (h : Formed (.point p :: below)) :
      Formed (.ontop :: .point p :: below)

/-- Where a stack is. The `hand` is what an operation has exchanged with a null pointer. -/
inductive Place (T : Type*) where
  | running (t : T)
  | object (h : ℕ)
  | hand
  | exception (x : Stack T)
  | freed (n : ℕ)
  | unborn (n : ℕ)
  deriving DecidableEq

/-- The `fcontext_t` of an object. -/
def State.fctx (s : State T) (h : ℕ) : Option (Fcontext T) :=
  (s.object h).bind FiberContext.fctx

/-- The stack that a place holds. -/
def State.content (s : State T) (hand : Option (Fcontext T)) : Place T → Option (Stack T)
  | .running t => some (s.running t)
  | .object h => (s.fctx h).map Fcontext.stack
  | .hand => hand.map Fcontext.stack
  | .exception x => (thrown (s.frames x)).map Fcontext.stack
  | .freed n => if s.freed n then some (.fiber n) else none
  | .unborn n => if s.fibers ≤ n then some (.fiber n) else none

/-- A stack is suspended where it makes a `FiberContext` of what it gets. -/
def State.Resumable (s : State T) (f : Fcontext T) : Prop :=
  ∃ p below, s.suspended f = some (p, below) ∧ p ≠ .ignored

/-- What holds of the objects, of what an operation has in hand, and of the stacks. -/
structure Sound (hand : Option (Fcontext T)) (s : State T) : Prop where
  objects : ∀ h, s.objects ≤ h → s.object h = none
  unborn : ∀ n, s.fibers ≤ n → s.frames (.fiber n) = []
  running : ∀ t, Executing (s.frames (s.running t))
  formed : ∀ x, s.frames x ≠ [] → Formed (s.frames x)
  object : ∀ h f, s.fctx h = some f → s.Resumable f
  held : ∀ f, hand = some f → ∃ p below, s.suspended f = some (p, below)
  thrown : ∀ x f, thrown (s.frames x) = some f → ∃ below, s.suspended f = some (.ignored, below)
  single : ∀ x, ∃! p, s.content hand p = some x

variable {s s' : State T} {hand hand' : Option (Fcontext T)} {f g : Fcontext T} {t u : T}
  {x : Stack T} {h n : ℕ} {p q : Point} {below frames : List (Frame T)}

section Frames

theorem suspended_eq_some :
    s.suspended f = some (p, below) ↔
      s.frames f.stack = .point p :: below ∧ s.serial f.stack = f.serial := by
  unfold State.suspended
  split <;> simp_all [and_comm]

/-- Whether a stack is suspended depends on that stack alone. -/
theorem suspended_congr (hframes : s'.frames f.stack = s.frames f.stack)
    (hserial : s'.serial f.stack = s.serial f.stack) : s'.suspended f = s.suspended f := by
  simp only [State.suspended, hframes, hserial]

@[simp]
theorem thrown_point : Coroutine.thrown (.point p :: below) = Coroutine.thrown below := rfl

@[simp]
theorem thrown_ontop : Coroutine.thrown (.ontop :: below) = Coroutine.thrown below := rfl

@[simp]
theorem thrown_body : Coroutine.thrown (.body :: below) = Coroutine.thrown below := rfl

/-- A stack goes on with a function. -/
theorem Formed.landing (h : Formed (.point p :: below)) : Executing (landing p below) ∧
    Formed (landing p below) ∧ Coroutine.thrown (landing p below) = Coroutine.thrown below := by
  cases h with
  | entry => exact ⟨trivial, .body, rfl⟩
  | suspended hp hexec h =>
    cases p with
    | entry => exact absurd rfl hp
    | result | ignored => exact ⟨hexec, h, rfl⟩

end Frames

section Places

/-- A place that refers to a suspension does not hold a stack that a thread executes. -/
theorem Sound.stack_ne (hs : Sound hand s) (place : Place T) (hplace : s.content hand place = some x)
    (hother : place ≠ .running t) : x ≠ s.running t := by
  rintro rfl
  exact hother ((hs.single _).unique hplace rfl)

/-- The stack in hand is suspended. -/
theorem Sound.running_ne (hs : Sound (some f) s) (t : T) : s.running t ≠ f.stack :=
  (hs.stack_ne .hand rfl (by simp)).symm

/-- A permutation of the places leaves every stack in one of them. -/
theorem Sound.permute (hs : Sound hand s) (σ : Equiv.Perm (Place T))
    (hcontent : ∀ place, s'.content hand' place = s.content hand (σ place)) (x : Stack T) :
    ∃! place, s'.content hand' place = some x := by
  simp only [hcontent]
  exact (σ.existsUnique_congr_right (q := fun place => s.content hand place = some x)).mpr (hs.single x)

end Places

variable [DecidableEq T]

section Objects

/-- Two places exchange what they hold, of which no stack takes notice. -/
theorem Sound.rewrite {object : ℕ → Option (FiberContext T)} {objects : ℕ} (hs : Sound hand s)
    (a b : Place T)
    (hcontent : ∀ place, State.content { s with object := object, objects := objects } hand' place =
      s.content hand (Equiv.swap a b place))
    (hobjects : ∀ h, objects ≤ h → object h = none)
    (hobject : ∀ h f, (object h).bind FiberContext.fctx = some f → s.Resumable f)
    (hheld : ∀ f, hand' = some f → ∃ p below, s.suspended f = some (p, below)) :
    Sound hand' { s with object := object, objects := objects } where
  objects := hobjects
  unborn := hs.unborn
  running := hs.running
  formed := hs.formed
  object := hobject
  held := hheld
  thrown := hs.thrown
  single := hs.permute (Equiv.swap a b) hcontent

/-- An object gives up what it refers to. -/
theorem Sound.take {c : FiberContext T} {d : Option (FiberContext T)} (hs : Sound none s)
    (hc : s.object h = some c) (hd : d.bind FiberContext.fctx = none) :
    Sound c.fctx { s with object := Function.update s.object h d } := by
  have hbound : h < s.objects := by
    by_contra hle
    simp [hs.objects h (not_lt.mp hle)] at hc
  refine hs.rewrite (.object h) .hand (fun place => ?_) (fun k hk => ?_) (fun k g hg => ?_) fun g hg => ?_
  · cases place with
    | object k =>
      by_cases hk : k = h
      · subst hk
        simp [State.content, State.fctx, hd]
      · simp [State.content, State.fctx, hk, Equiv.swap_apply_of_ne_of_ne]
    | hand => simp [State.content, State.fctx, hc]
    | _ => simp [State.content, Equiv.swap_apply_of_ne_of_ne]
  · rw [Function.update_of_ne (by omega)]
    exact hs.objects k hk
  · by_cases hk : k = h
    · simp [hk, hd] at hg
    · exact hs.object k g (by simpa [State.fctx, hk] using hg)
  · obtain ⟨p, below, hsuspended, -⟩ := hs.object h g (by simpa [State.fctx, hc] using hg)
    exact ⟨p, below, hsuspended⟩

/-- The `fcontext_t` of an object is exchanged with a null pointer. -/
theorem Sound.exchange {c : FiberContext T} (hs : Sound none s) (hc : s.object h = some c)
    (hf : c.fctx = some f) :
    Sound (some f) (s.write h ⟨none⟩) ∧ (s.write h ⟨none⟩).Resumable f :=
  ⟨hf ▸ hs.take hc rfl, hs.object h f (by simpa [State.fctx, hc] using hf)⟩

/-- A new object takes over what an operation has in hand. -/
theorem Sound.make (hs : Sound hand s) (hhand : ∀ f, hand = some f → s.Resumable f) :
    Sound none (s.make ⟨hand⟩) := by
  have hnew := hs.objects s.objects le_rfl
  refine hs.rewrite .hand (.object s.objects) (fun place => ?_) (fun k hk => ?_) (fun k g hg => ?_)
    (by simp)
  · cases place with
    | object k =>
      by_cases hk : k = s.objects
      · subst hk
        simp [State.content, State.fctx]
      · simp [State.content, State.fctx, hk, Equiv.swap_apply_of_ne_of_ne]
    | hand => simp [State.content, State.fctx, hnew]
    | _ => simp [State.content, Equiv.swap_apply_of_ne_of_ne]
  · rw [Function.update_of_ne (by omega)]
    exact hs.objects k (by omega)
  · by_cases hk : k = s.objects
    · exact hhand g (by simpa [hk] using hg)
    · exact hs.object k g (by simpa [State.fctx, hk] using hg)

/-- Two objects are exchanged. -/
theorem Sound.swap {c d : FiberContext T} {k : ℕ} (hs : Sound hand s) (hc : s.object h = some c)
    (hd : s.object k = some d) : Sound hand ((s.write h d).write k c) := by
  have hother : ∀ l, s.objects ≤ l → l ≠ h ∧ l ≠ k := by
    intro l hl
    have hnone := hs.objects l hl
    constructor <;> rintro rfl <;> simp_all
  refine hs.rewrite (.object h) (.object k) (fun place => ?_) (fun l hl => ?_) (fun l g hg => ?_) hs.held
  · cases place with
    | object l =>
      by_cases hk : l = k
      · subst hk
        simp [State.content, State.fctx, hc]
      · by_cases hh : l = h
        · subst hh
          simp [State.content, State.fctx, hk, hd]
        · simp [State.content, State.fctx, hk, hh, Equiv.swap_apply_of_ne_of_ne]
    | _ => simp [State.content, Equiv.swap_apply_of_ne_of_ne]
  · obtain ⟨hh, hk⟩ := hother l hl
    simpa [hh, hk] using hs.objects l hl
  · by_cases hk : l = k
    · exact hs.object h g (by simpa [State.fctx, hk, hc] using hg)
    · by_cases hh : l = h
      · exact hs.object k g (by simpa [State.fctx, hh, hk, hd, Function.update_of_ne (hh ▸ hk)] using hg)
      · exact hs.object l g (by simpa [State.fctx, hh, hk] using hg)

end Objects

section Switches

omit [DecidableEq T] in
/-- What an object, a hand or an exception refers to is neither executed nor referred to from elsewhere. -/
theorem Sound.refers_ne (hs : Sound (some f) s) (place : Place T)
    (hplace : s.content (some f) place = some x)
    (hhand : place ≠ .hand) (hrunning : place ≠ .running t) : x ≠ f.stack ∧ x ≠ s.running t := by
  refine ⟨?_, hs.stack_ne place hplace hrunning⟩
  rintro rfl
  exact hhand ((hs.single _).unique hplace rfl)

/-- A thread leaves its stack for the one that it has in hand. -/
structure Switches (s s' : State T) (t : T) (x : Stack T) (left frames : List (Frame T)) : Prop where
  object : s'.object = s.object
  objects : s'.objects = s.objects
  fibers : s'.fibers = s.fibers
  frames : s'.frames = Function.update (Function.update s.frames (s.running t) left) x frames
  serial : ∀ y, y ≠ s.running t → s'.serial y = s.serial y
  running : s'.running = Function.update s.running t x

variable {left : List (Frame T)}

theorem Switches.frames_of_ne (h : Switches s s' t x left frames) {y : Stack T} (hx : y ≠ x)
    (ht : y ≠ s.running t) : s'.frames y = s.frames y := by
  simp [h.frames, hx, ht]

/-- The switch leaves the exceptions where they are. -/
theorem Switches.thrown (h : Switches s s' t x left frames) (hx : x ≠ s.running t)
    (hleft : Coroutine.thrown left = Coroutine.thrown (s.frames (s.running t)))
    (hframes : Coroutine.thrown frames = Coroutine.thrown (s.frames x)) (y : Stack T) :
    Coroutine.thrown (s'.frames y) = Coroutine.thrown (s.frames y) := by
  by_cases hyx : y = x
  · subst hyx
    simpa [h.frames] using hframes
  · by_cases hyt : y = s.running t
    · subst hyt
      simpa [h.frames, hx.symm] using hleft
    · rw [h.frames_of_ne hyx hyt]

/-- A switch keeps what holds of the objects and the stacks. -/
theorem Sound.switch (hs : Sound (some f) s) (h : Switches s s' t f.stack left frames)
    (hf : s.suspended f = some (p, below)) (hexec : Executing frames) (hformed : Formed frames)
    (hthrown : Coroutine.thrown frames = Coroutine.thrown below) (hleft : left ≠ [] → Formed left)
    (hkept : Coroutine.thrown left = Coroutine.thrown (s.frames (s.running t)))
    (hheld : ∀ g, hand' = some g → ∃ p below, s'.suspended g = some (p, below)) (σ : Equiv.Perm (Place T))
    (hσ : ∀ x, σ (.exception x) = .exception x)
    (hcontent : ∀ place, (∀ x, place ≠ .exception x) →
      s'.content hand' place = s.content (some f) (σ place)) :
    Sound hand' s' := by
  obtain ⟨hframes, -⟩ := suspended_eq_some.mp hf
  have hne := (hs.running_ne t).symm
  have hexception := h.thrown hne hkept (by simpa [hframes] using hthrown)
  have hstays : ∀ g : Fcontext T, g.stack ≠ f.stack ∧ g.stack ≠ s.running t →
      s'.suspended g = s.suspended g :=
    fun g hg => suspended_congr (h.frames_of_ne hg.1 hg.2) (h.serial _ hg.2)
  exact
    { objects := fun k hk => by
        rw [h.object]
        exact hs.objects k (h.objects ▸ hk)
      unborn := fun n hn => by
        have hempty := hs.unborn n (h.fibers ▸ hn)
        rw [h.frames_of_ne, hempty]
        · intro hnf
          simp [← hnf, hempty] at hframes
        · intro hnt
          have hcode := hs.running t
          rwa [← hnt, hempty] at hcode
      running := fun u => by
        by_cases hu : u = t
        · subst hu
          simpa [h.running, h.frames] using hexec
        · have hrefers := hs.refers_ne (t := t) (.running u) rfl (by simp) (by simp [hu])
          rw [h.running, Function.update_of_ne hu, h.frames_of_ne hrefers.1 hrefers.2]
          exact hs.running u
      formed := fun x hx => by
        by_cases hxf : x = f.stack
        · subst hxf
          simpa [h.frames] using hformed
        · by_cases hxt : x = s.running t
          · subst hxt
            simp only [h.frames, Function.update_of_ne hxf, Function.update_self] at hx ⊢
            exact hleft hx
          · rw [h.frames_of_ne hxf hxt] at hx ⊢
            exact hs.formed x hx
      object := fun k g hg => by
        rw [State.fctx, h.object] at hg
        have hrefers : g.stack ≠ f.stack ∧ g.stack ≠ s.running t :=
          hs.refers_ne (.object k) (congrArg (Option.map Fcontext.stack) hg) (by simp) (by simp)
        obtain ⟨p', below', hg', hp'⟩ := hs.object k g hg
        exact ⟨p', below', (hstays g hrefers).trans hg', hp'⟩
      held := hheld
      thrown := fun x g hg => by
        rw [hexception] at hg
        have hrefers : g.stack ≠ f.stack ∧ g.stack ≠ s.running t :=
          hs.refers_ne (.exception x) (congrArg (Option.map Fcontext.stack) hg) (by simp) (by simp)
        obtain ⟨below', hg'⟩ := hs.thrown x g hg
        exact ⟨below', (hstays g hrefers).trans hg'⟩
      single := hs.permute σ fun place => by
        cases place with
        | exception x =>
          rw [hσ]
          exact congrArg (Option.map Fcontext.stack) (hexception x)
        | _ => exact hcontent _ (by simp) }

/-- The suspension that a thread has left behind. -/
theorem suspended_fcontext (hne : s.running t ≠ x) :
    ((s.suspend t q).continue t x frames).suspended (s.fcontext t) = some (q, s.frames (s.running t)) :=
  suspended_eq_some.mpr ⟨by simp [State.fcontext, hne], by simp [State.fcontext]⟩

/-- A thread suspends its stack and continues on the one that it has in hand. -/
theorem Sound.leave (hs : Sound (some f) s) (t : T) (hf : s.suspended f = some (p, below)) (hq : q ≠ .entry)
    (frames : List (Frame T)) (hexec : Executing frames) (hformed : Formed frames)
    (hthrown : Coroutine.thrown frames = Coroutine.thrown below) :
    Sound (some (s.fcontext t)) ((s.suspend t q).continue t f.stack frames) := by
  have hcode := hs.running t
  have hold := hs.formed (s.running t) fun hempty => by simp [hempty, Executing] at hcode
  have hswitches : Switches s ((s.suspend t q).continue t f.stack frames) t f.stack
      (.point q :: s.frames (s.running t)) frames :=
    ⟨rfl, rfl, rfl, rfl, fun y hy => Function.update_of_ne hy _ _, rfl⟩
  refine hs.switch hswitches hf hexec hformed hthrown (fun _ => hold.suspended hq hcode) rfl
    (fun g hg => ?_)
    (Equiv.swap .hand (.running t)) (fun x => Equiv.swap_apply_of_ne_of_ne (by simp) (by simp))
    fun place hplace => ?_
  · obtain rfl := Option.some.inj hg
    exact ⟨q, s.frames (s.running t), suspended_fcontext (hs.running_ne t)⟩
  · cases place with
    | running u =>
      by_cases hu : u = t
      · subst hu
        simp [State.content]
      · simp [State.content, hu, Equiv.swap_apply_of_ne_of_ne]
    | hand => simp [State.content, State.fcontext]
    | exception x => exact absurd rfl (hplace x)
    | _ => simp [State.content, State.fctx, Equiv.swap_apply_of_ne_of_ne]

/-- The function of a fiber has ended, and its stack is deallocated on the one that the thread has
in hand. -/
theorem Sound.exit (hs : Sound (some f) s) (hf : s.suspended f = some (p, below))
    (hn : s.running t = .fiber n)
    (hbody : s.frames (.fiber n) = [.body]) (hexec : Executing frames) (hformed : Formed frames)
    (hthrown : Coroutine.thrown frames = Coroutine.thrown below) :
    Sound none (State.continue { s with
      frames := Function.update s.frames (.fiber n) []
      freed := Function.update s.freed n true } t f.stack frames) := by
  have hfreed : s.freed n = false := by
    by_contra hfreed
    have hplace : s.content (some f) (.freed n) = some (.fiber n) := by simpa [State.content] using hfreed
    exact hs.stack_ne _ hplace (by simp) hn.symm
  have hswitches : Switches s (State.continue { s with
      frames := Function.update s.frames (.fiber n) []
      freed := Function.update s.freed n true } t f.stack frames) t f.stack [] frames :=
    ⟨rfl, rfl, rfl, by rw [hn]; rfl, fun y hy => rfl, rfl⟩
  refine hs.switch hswitches hf hexec hformed hthrown (fun h => absurd rfl h)
    (by rw [hn, hbody]; rfl) (by simp)
    ((Equiv.swap .hand (.freed n)).trans (Equiv.swap .hand (.running t))) (fun x => ?_)
    fun place hplace => ?_
  · simp [Equiv.swap_apply_of_ne_of_ne]
  · cases place with
    | running u =>
      by_cases hu : u = t
      · subst hu
        simp [State.content, Equiv.swap_apply_of_ne_of_ne]
      · simp [State.content, hu, Equiv.swap_apply_of_ne_of_ne]
    | hand => simp [State.content, hfreed, Equiv.swap_apply_of_ne_of_ne]
    | exception x => exact absurd rfl (hplace x)
    | freed m =>
      by_cases hm : m = n
      · subst hm
        simp [State.content, hn]
      · simp [State.content, hm, Equiv.swap_apply_of_ne_of_ne]
    | _ => simp [State.content, State.fctx, Equiv.swap_apply_of_ne_of_ne]

end Switches

section Frames

/-- The function that is executed on a stack is another one. -/
theorem Sound.reframe (hs : Sound hand s) (hx : Executing (s.frames x)) (hexec : Executing frames)
    (hformed : Formed frames)
    (hthrown : ∀ g, Coroutine.thrown frames = some g → ∃ below, s.suspended g = some (.ignored, below))
    (hheld : ∀ g, hand' = some g → ∃ p below, s.suspended g = some (p, below)) (a b : Place T)
    (hcontent : ∀ place, State.content { s with frames := Function.update s.frames x frames } hand' place =
      s.content hand (Equiv.swap a b place)) :
    Sound hand' { s with frames := Function.update s.frames x frames } := by
  have hstays : ∀ {g : Fcontext T} {p below}, s.suspended g = some (p, below) →
      State.suspended { s with frames := Function.update s.frames x frames } g = some (p, below) := by
    intro g p below hg
    rw [← hg]
    refine suspended_congr (Function.update_of_ne ?_ _ _) rfl
    rintro rfl
    simp [(suspended_eq_some.mp hg).1, Executing] at hx
  exact
    { objects := hs.objects
      unborn := fun n hn => by
        have hempty := hs.unborn n hn
        refine (Function.update_of_ne ?_ _ _).trans hempty
        rintro rfl
        simp [hempty, Executing] at hx
      running := fun u => by
        by_cases hu : s.running u = x
        · subst hu
          simpa using hexec
        · simpa [hu] using hs.running u
      formed := fun y hy => by
        by_cases hyx : y = x
        · subst hyx
          simpa using hformed
        · simp only [Function.update_of_ne hyx] at hy ⊢
          exact hs.formed y hy
      object := fun h g hg => by
        obtain ⟨p, below, hsuspended, hp⟩ := hs.object h g hg
        exact ⟨p, below, hstays hsuspended, hp⟩
      held := fun g hg => by
        obtain ⟨p, below, hsuspended⟩ := hheld g hg
        exact ⟨p, below, hstays hsuspended⟩
      thrown := fun y g hg => by
        have hold : ∃ below, s.suspended g = some (.ignored, below) := by
          by_cases hyx : y = x
          · subst hyx
            exact hthrown g (by simpa using hg)
          · exact hs.thrown y g (by simpa [hyx] using hg)
        obtain ⟨below, hsuspended⟩ := hold
        exact ⟨below, hstays hsuspended⟩
      single := hs.permute (Equiv.swap a b) hcontent }

/-- A function that was called on top of a suspended stack has returned. -/
theorem Sound.landed (hs : Sound hand s) (hx : s.frames x = .ontop :: .point p :: below) :
    Sound hand { s with frames := Function.update s.frames x (landing p below) } := by
  have hpoint : Formed (.point p :: below) := by
    have hformed := hs.formed x (by simp [hx])
    rw [hx] at hformed
    cases hformed with
    | ontop hp h => exact h
  obtain ⟨hexec, hformed, hthrown⟩ := hpoint.landing
  refine hs.reframe (by simp [hx, Executing]) hexec hformed
    (fun g hg => hs.thrown x g ?_) hs.held .hand .hand
    fun place => ?_
  · simpa [hx] using hthrown.symm.trans hg
  · rw [Equiv.swap_self, Equiv.refl_apply]
    cases place with
    | exception y =>
      by_cases hyx : y = x
      · subst hyx
        simp [State.content, hx, hthrown]
      · simp [State.content, hyx]
    | _ => simp [State.content, State.fctx]

/-- The `fcontext_t` in hand goes into an exception. -/
theorem Sound.throw (hs : Sound (some f) s) (hf : s.suspended f = some (.ignored, below))
    (hx : s.frames x = [.body]) :
    Sound none { s with frames := Function.update s.frames x [.unwind f] } := by
  refine hs.reframe (by simp [hx, Executing]) trivial (.unwinding f) (fun g hg => ?_)
    (by simp) .hand (.exception x) fun place => ?_
  · obtain rfl := Option.some.inj hg
    exact ⟨below, hf⟩
  · cases place with
    | exception y =>
      by_cases hyx : y = x
      · subst hyx
        simp [State.content, Coroutine.thrown]
      · simp [State.content, hyx, Equiv.swap_apply_of_ne_of_ne]
    | hand => simp [State.content, hx, Coroutine.thrown]
    | _ => simp [State.content, State.fctx, Equiv.swap_apply_of_ne_of_ne]

/-- The `fcontext_t` of an exception comes into hand. -/
theorem Sound.catch (hs : Sound none s) (hx : s.frames x = [.unwind f]) :
    Sound (some f) { s with frames := Function.update s.frames x [.body] } := by
  obtain ⟨below, hf⟩ := hs.thrown x f (by simp [hx, Coroutine.thrown])
  refine hs.reframe (by simp [hx, Executing]) trivial .body (by simp [Coroutine.thrown])
    (fun g hg => ?_) .hand
    (.exception x) fun place => ?_
  · obtain rfl := Option.some.inj hg
    exact ⟨_, below, hf⟩
  · cases place with
    | exception y =>
      by_cases hyx : y = x
      · subst hyx
        simp [State.content, Coroutine.thrown]
      · simp [State.content, hyx, Equiv.swap_apply_of_ne_of_ne]
    | hand => simp [State.content, hx, Coroutine.thrown]
    | _ => simp [State.content, State.fctx, Equiv.swap_apply_of_ne_of_ne]

/-- A new stack is suspended at the first jump of `FiberEntry`. -/
theorem Sound.allocate (hs : Sound none s) :
    Sound (some ⟨.fiber s.fibers, s.serial (.fiber s.fibers)⟩)
      { s with frames := Function.update s.frames (.fiber s.fibers) [.point .entry],
               fibers := s.fibers + 1 } := by
  have hempty := hs.unborn s.fibers le_rfl
  have hother : ∀ y, s.frames y ≠ [] → y ≠ .fiber s.fibers := by
    rintro y hy rfl
    exact hy hempty
  have hstays : ∀ {g : Fcontext T} {p below}, s.suspended g = some (p, below) → State.suspended { s with
      frames := Function.update s.frames (.fiber s.fibers) [.point .entry], fibers := s.fibers + 1 } g =
        some (p, below) := by
    intro g p below hg
    rw [← hg]
    refine suspended_congr ?_ rfl
    exact Function.update_of_ne (hother _ (by simp [(suspended_eq_some.mp hg).1])) _ _
  exact
    { objects := hs.objects
      unborn := fun n hn => by
        simpa [show n ≠ s.fibers by grind] using hs.unborn n (by grind)
      running := fun u => by
        have hcode := hs.running u
        have hne := hother (s.running u) fun hnil => by simp [hnil, Executing] at hcode
        simpa [hne] using hcode
      formed := fun y hy => by
        by_cases hyx : y = .fiber s.fibers
        · subst hyx
          simpa using Formed.entry
        · simp only [Function.update_of_ne hyx] at hy ⊢
          exact hs.formed y hy
      object := fun h g hg => by
        obtain ⟨p, below, hsuspended, hp⟩ := hs.object h g hg
        exact ⟨p, below, hstays hsuspended, hp⟩
      held := fun g hg => by
        obtain rfl := Option.some.inj hg
        exact ⟨.entry, [], suspended_eq_some.mpr ⟨by simp, rfl⟩⟩
      thrown := fun y g hg => by
        by_cases hyx : y = .fiber s.fibers
        · simp [hyx, Coroutine.thrown] at hg
        · obtain ⟨below, hsuspended⟩ := hs.thrown y g (by simpa [hyx] using hg)
          exact ⟨below, hstays hsuspended⟩
      single := hs.permute (Equiv.swap .hand (.unborn s.fibers)) fun place => by
        cases place with
        | exception y =>
          by_cases hyx : y = .fiber s.fibers
          · subst hyx
            simp [State.content, hempty, Coroutine.thrown, Equiv.swap_apply_of_ne_of_ne]
          · simp [State.content, hyx, Equiv.swap_apply_of_ne_of_ne]
        | hand => simp [State.content]
        | unborn n =>
          by_cases hn : n = s.fibers
          · subst hn
            simp [State.content]
          · simp [State.content, hn, Equiv.swap_apply_of_ne_of_ne,
              show s.fibers + 1 ≤ n ↔ s.fibers ≤ n by grind]
        | _ => simp [State.content, State.fctx, Equiv.swap_apply_of_ne_of_ne] }

end Frames

end Coroutine

end Lutask
