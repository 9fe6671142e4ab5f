import Lutask.Machine.Continuation
import Lutask.Machine.Schedule

/-!
# Wake-ups that a sleeping dispatcher misses

`RoundRobinPolicy::Awakened` pushes a context without `Notify`. As long as the dispatcher is awake
its next `PickNext` finds the context. Once `PickNext` has returned null the dispatcher goes to
`SuspendUntil`, where only `flag_` counts: a context that arrives from another thread in between is
not noticed any more. The runs below are those of any threads, policies and operations.
-/

namespace Lutask

open LabelledRuns

variable {T : Type*}

/-- The frame in which the dispatcher of `A` sleeps without a deadline, or is just about to. -/
def Frame.sleepsOn (A : T) (f : Frame T) : Prop :=
  f = .suspendUntil A ⊤ ∨ f = .suspended A ⊤

instance [DecidableEq T] (A : T) (f : Frame T) : Decidable (f.sleepsOn A) :=
  inferInstanceAs (Decidable (_ ∨ _))

/-- A `Wake` that has not returned yet. -/
def Frame.isWake : Frame T → Bool
  | .wake _ => true
  | _ => false

namespace RoundRobin

/-- Thread `A` hangs: a context is ready for it, nobody is about to wake another one, and its dispatcher
is blocked with `flag_` not set. -/
structure Stranded (A : T) (s : State T) : Prop where
  returned : ∀ t, ∀ f ∈ (s.thread t).stack, f.isWake = false
  ready : (s.sched A).queue ≠ []
  blocked : ∃ t, (s.thread t).stack.head? = some (.suspended A ⊤)
  unset : (s.sched A).flag = false

instance (A : Bool) (s : State Bool) : Decidable (Stranded A s) :=
  decidable_of_iff ((∀ t, ∀ f ∈ (s.thread t).stack, f.isWake = false) ∧ (s.sched A).queue ≠ [] ∧
      (∃ t, (s.thread t).stack.head? = some (.suspended A ⊤)) ∧ (s.sched A).flag = false)
    ⟨fun h => ⟨h.1, h.2.1, h.2.2.1, h.2.2.2⟩, fun h => ⟨h.1, h.2, h.3, h.4⟩⟩

/-- The dispatcher of `A` has got null from `PickNext`, has not returned from `SuspendUntil(max)`,
and `flag_` is not set. -/
def Asleep (A : T) (s : State T) : Prop :=
  (s.sched A).flag = false ∧ ∃ t, ∃ f ∈ (s.thread t).stack.head?, f.sleepsOn A

/-- Only the dispatcher of `A` executes the frames that read or write `flag_`. -/
theorem dispatcher_of_frame {s : State T} {t : T} {f : Frame T} {A : T} (hs : Shape s)
    (hf : f = .dispatch A ∨ ∃ tp, f = .suspendUntil A tp ∨ f = .suspended A tp) {x : Ctx T}
    (hactive : (s.thread t).active = some x) (hmem : f ∈ (s.thread t).stack) : x = .dispatcher A := by
  have hof := hs.frames t x hactive f hmem
  rcases hf with rfl | ⟨tp, rfl | rfl⟩ <;> exact hof

/-- A thread in `SuspendUntil` has an active context. -/
theorem active_of_sleepsOn {s : State T} {t : T} {f : Frame T} {A : T} (hs : Shape s)
    (hf : f.sleepsOn A) (hmem : f ∈ (s.thread t).stack) :
    (s.thread t).active = some (.dispatcher A) := by
  cases hactive : (s.thread t).active with
  | none =>
    have hsettled := hs.idle t hactive f hmem
    rcases hf with rfl | rfl <;> simp [Frame.isSettled] at hsettled
  | some x => rw [dispatcher_of_frame hs (.inr ⟨⊤, hf⟩) hactive hmem]

variable [DecidableEq T]

instance (A : Bool) (s : State Bool) : Decidable (Asleep A s) :=
  inferInstanceAs (Decidable (_ ∧ _))

/-- No context is handed to `Awakened` of `A` while its dispatcher is asleep. -/
def AwakensAwake (A : T) (s : State T) : Event T → Prop
  | .exec _ x f _ => f.awakens s x = some A → ¬ Asleep A s
  | .call .. => True

instance (A : Bool) (s : State Bool) : DecidablePred (AwakensAwake A s)
  | .exec _ x f _ => inferInstanceAs (Decidable (f.awakens s x = some A → ¬ Asleep A s))
  | .call .. => inferInstanceAs (Decidable True)

variable {s s' : State T} {A t : T} {x : Ctx T} {now : ℕ} {f : Frame T}

/-- A dispatcher falls asleep in two steps, a null result of `PickNext` and a test of `flag_`, which
write nothing. -/
theorem falls_asleep {r : Rest T} (h : FrameStep s t x now f r) {g : Frame T} (hg : g ∈ r.2)
    (hsleeps : g.sleepsOn A) : r.1 = s ∧ ((s.sched A).queue = [] ∨ f.sleepsOn A) := by
  cases h with
  | @popEmpty f u hf hqueue =>
    obtain rfl : u = A := by
      cases hsleeps with
      | inl hg' => exact (by simpa [hg'] using hg : A = u ∧ _).1.symm
      | inr hg' => simp [hg'] at hg
    exact ⟨rfl, .inl hqueue⟩
  | @suspendUntilBlock u tp hpolicy hflag =>
    obtain ⟨rfl, rfl⟩ : u = A ∧ tp = ⊤ := by
      cases hsleeps with
      | inl hg' => simp [hg'] at hg
      | inr hg' =>
        obtain ⟨hu, htp⟩ : A = u ∧ ⊤ = tp := by simpa [hg'] using hg
        exact ⟨hu.symm, htp.symm⟩
    exact ⟨rfl, .inr (.inl rfl)⟩
  | schedule hu | wake hu | scheduleOn =>
    rcases schedule_cases s _ _ with ⟨-, hr⟩ | ⟨-, -, hr⟩ <;> rw [hr] at hg <;>
      rcases hsleeps with rfl | rfl <;> simp at hg
  | @save prev k stack hfctx => cases k <;> rcases hsleeps with rfl | rfl <;> simp [Switch.onTop] at hg
  | @relock q l p z hl => cases p <;> rcases hsleeps with rfl | rfl <;> simp [relockNext] at hg
  | @notifyOne q y rest hwaits | @notifyOneEmpty q hwaits | @notifyAllEmpty q hwaits =>
    cases q <;> rcases hsleeps with rfl | rfl <;> simp [WaitQueue.afterNotify] at hg
  | _ => rcases hsleeps with rfl | rfl <;>
      simp [Lutask.iterate, Lutask.terminateRemove, Lutask.destroy] at hg

/-- While the dispatcher of `A` sleeps on one thread no other thread writes its `flag_`. -/
theorem flag_stays {e : Event T} (hs : Shape s) (hc : Continued s) (hstep : step s e = some s')
    (hmem : f ∈ (s.thread t).stack) (hsleeps : f.sleepsOn A) (hne : t ≠ e.thread) :
    (s'.sched A).flag = (s.sched A).flag := by
  cases step_inv hstep with
  | call hactive hstack huser hop => simp [hop.flag]
  | @frame v x g now rest r hactive hstack hframe =>
    refine (hframe.flag A).resolve_right fun hg => hne ?_
    obtain rfl : x = .dispatcher A :=
      dispatcher_of_frame hs hg hactive (by simp [hstack] : g ∈ (s.thread v).stack)
    exact hc.unique t v _ (.inl (active_of_sleepsOn hs hsleeps hmem)) (.inl hactive)
  | switch hactive hstack htarget hc' => rfl

/-- A dispatcher that sleeps found its queue empty, and no step fills it meanwhile. -/
theorem asleep_step {e : Event T} (h : Asleep A s → (s.sched A).queue = []) (hs : Shape s)
    (hc : Continued s) (he : AwakensAwake A s e) (hstep : step s e = some s') :
    Asleep A s' → (s'.sched A).queue = [] := by
  rintro ⟨hflag', t, f, htop, hf⟩
  by_cases hte : t = e.thread
  · subst hte
    cases step_inv hstep with
    | @call t x op r hactive hstack huser hop =>
      have hhead : r.2.head? = some f := by simpa [Event.thread] using htop
      have hof := hop.leaves.owned f (List.mem_of_mem_head? hhead)
      have hdispatcher : x = .dispatcher A := by rcases hf with rfl | rfl <;> exact hof
      simp [hdispatcher, Ctx.runsUserCode] at huser
    | @frame t x g now rest r hactive hstack hframe =>
      have hhead : (r.2 ++ rest).head? = some f := by simpa [Event.thread] using htop
      have hnew : f ∈ r.2 := by
        cases List.mem_append.mp (List.mem_of_mem_head? hhead) with
        | inl hnew => exact hnew
        | inr hbelow =>
          cases (List.pairwise_cons.mp (hstack ▸ hs.below t)).1 f hbelow with
          | inl hsettled => rcases hf with rfl | rfl <;> simp [Frame.isSettled] at hsettled
          | inr houter => rcases hf with rfl | rfl <;> simp [Frame.isOuter] at houter
      obtain ⟨hsame, hcase⟩ := falls_asleep hframe hnew hf
      rw [State.setStack_sched, hsame] at hflag' ⊢
      cases hcase with
      | inl hempty => exact hempty
      | inr hg => exact h ⟨hflag', t, g, by simp [hstack], hg⟩
    | switch hactive hstack htarget hc' =>
      obtain rfl : _ = f := by simpa [switched, Event.thread] using htop
      simp [Frame.sleepsOn] at hf
  · rw [step_thread_of_ne hstep hte] at htop
    have hflag : (s.sched A).flag = false :=
      (flag_stays hs hc hstep (List.mem_of_mem_head? htop) hf hte).symm.trans hflag'
    have hasleep : Asleep A s := ⟨hflag, t, f, htop, hf⟩
    have hempty := h hasleep
    cases step_inv hstep with
    | call hactive hstack huser hop => simpa [hop.queue] using hempty
    | frame hactive hstack hframe =>
      refine List.eq_nil_iff_forall_not_mem.mpr fun y hy => ?_
      cases hframe.queue (by simpa using hy) with
      | inl hold => simp [hempty] at hold
      | inr hpush => exact he hpush.2.1 hasleep
    | switch hactive hstack htarget hc' => exact hempty

/-- No thread is ever stranded in a run in which nothing is handed to its policy while its dispatcher
is asleep. -/
theorem wake_reaches_dispatcher {policy : T → Policy} {events : List (Event T)}
    (h : Runs policy (AwakensAwake A) events s) : ¬ Stranded A s := by
  intro hstranded
  have hinv := Run.invariant
    (I := fun s => (Shape s ∧ Continued s) ∧ (Asleep A s → (s.sched A).queue = [])) h
    ⟨⟨Shape.initial policy, Continued.initial policy⟩, fun hasleep => by
      obtain ⟨-, t, f, htop, -⟩ := hasleep
      simp [State.initial] at htop⟩
    fun s e s' hs he hstep => ⟨⟨hs.1.1.step hstep, hs.1.2.step hs.1.1 hstep⟩,
      asleep_step hs.2 hs.1.1 hs.1.2 he hstep⟩
  obtain ⟨t, hblocked⟩ := hstranded.blocked
  exact hstranded.ready (hinv.2 ⟨hstranded.unset, t, _, hblocked, .inr rfl⟩)

/-- A worker of the first thread waits and is woken by the second one while main of the first thread
runs, so that the next `PickNext` finds it. -/
theorem woken_while_awake : ∃ events s,
    Runs (fun _ : Bool => .roundRobin) (AwakensAwake false) events s ∧
      .worker 0 ∈ (s.sched false).queue ∧ ¬ Stranded false s := by
  obtain ⟨events, s, hrun, hwoken⟩ : ∃ events s,
      Runs (fun _ : Bool => .roundRobin) (AwakensAwake false) events s ∧
        .worker 0 ∈ (s.sched false).queue :=
    reaches_of_drive
      [.call false (.main false) (.start .post), .frames false 2 0,
        .call false (.main false) .yield, .frames false 11 0,
        .call false (.worker 0) (.lock 0), .call false (.worker 0) (.wait 0 0), .frames false 8 0,
        .call true (.main true) (.notifyAll 0), .frames true 5 0]
      (by decide)
  exact ⟨events, s, hrun, hwoken, wake_reaches_dispatcher hrun⟩

/-- A dispatcher that is blocked without a deadline while `flag_` is not set never runs again,
whatever the other threads do and make ready for it. -/
theorem sleeps_forever {policy : T → Policy} {guard : State T → Event T → Prop}
    {before after : List (Event T)} {rest : List (Frame T)} (hbefore : Runs policy guard before s)
    (hafter : Run step guard s after s') (hblocked : (s.thread t).stack = .suspended A ⊤ :: rest)
    (hunset : (s.sched A).flag = false) :
    (s'.thread t).stack = .suspended A ⊤ :: rest ∧ (s'.sched A).flag = false := by
  refine (Run.invariant (I := fun s => (Shape s ∧ Continued s) ∧
    (s.thread t).stack = .suspended A ⊤ :: rest ∧ (s.sched A).flag = false) hafter
    ⟨⟨hbefore.shape, hbefore.continued⟩, hblocked, hunset⟩ fun s e s' hs _ hstep => ?_).2
  obtain ⟨⟨hshape, hcont⟩, hstack, hflag⟩ := hs
  refine ⟨⟨hshape.step hstep, hcont.step hshape hstep⟩, ?_⟩
  by_cases hte : t = e.thread
  · exfalso
    obtain ⟨x, now, rfl, -, ⟨r, hframe, -⟩ | ⟨y, k, stack, htarget, -⟩⟩ :=
      step_top hstep hte.symm hstack
    · cases hframe with
      | pop hf | popEmpty hf => simp at hf
      | suspended hawake => simp [hflag] at hawake
    · simp [Frame.target] at htarget
  · refine ⟨(step_thread_of_ne hstep hte).symm ▸ hstack, ?_⟩
    exact (flag_stays hshape hcont hstep (by simp [hstack]) (.inr rfl) hte).trans hflag

/-- Main of the first thread waits on a condition variable, and main of the second one wakes it while
the dispatcher of the first thread is blocked. -/
theorem woken_but_stranded : ∃ events s, Runs (fun _ : Bool => .roundRobin) (fun _ _ => True) events s ∧
    Stranded false s ∧ .main false ∈ (s.sched false).queue :=
  reaches_of_drive
    [.call false (.main false) (.lock 0), .call false (.main false) (.wait 0 0), .frames false 13 0,
      .call true (.main true) (.notifyAll 0), .frames true 5 0]
    (by decide)

end RoundRobin

end Lutask
