import Mathlib.Order.Interval.Finset.Nat
import Lutask.Join.Finished
import Lutask.RoundRobin.Response

/-!
# Why one round-robin thread comes to a halt

A thread on which nothing can happen any more either takes a lock again at the end of a `Wait`, or its
dispatcher sleeps. Then every fiber that has not finished waits, and one of them waits for a notification,
or was started with `Async` and never taken over by another thread, or some of them join each other in a
cycle.
-/

namespace Lutask

open LabelledRuns

variable {T : Type*}

/-- `y` waits for the end of `z`. -/
def State.Joins (s : State T) (y z : Ctx T) : Prop :=
  y ∈ s.waits (.waitList z)

namespace RoundRobin

/-- Only workers that were started are joined. -/
structure JoinsWorkers (s : State Unit) : Prop where
  frames : ∀ f ∈ (s.thread ()).stack, ∀ w ∈ f.joins, s.started w ∧ w.isPinned = false
  waits : ∀ y w, s.Joins y w → s.started w ∧ w.isPinned = false

/-- Nobody waits for the end of a context that has told everybody. -/
def JoinsUnfinished (s : State Unit) : Prop :=
  ∀ y w, s.Joins y w → (s.ctx w).terminated → .notifyAll (.waitList w) ∈ (s.thread ()).stack

/-- How a thread comes to a halt. -/
inductive Halted (s : State Unit) : Prop
  /-- `Wait` takes the lock of its caller again, which another fiber owns. -/
  | locked (q l : ℕ) (p : Option ℕ) (x y : Ctx Unit) (rest : List (Frame Unit))
      (hstack : (s.thread ()).stack = .relock q l p x :: rest) (hlock : s.lt l = some y)
  /-- The dispatcher sleeps, and whoever has not finished waits. -/
  | idle (rest : List (Frame Unit)) (hstack : (s.thread ()).stack = .suspended () ⊤ :: rest)
      (hwaits : ∀ y, s.started y → y.runsUserCode → (s.ctx y).terminated = false →
        y ∈ s.readyQueue ∨ ∃ q, y ∈ s.waits q)
      (hcause : (∃ q y, y ∈ s.waits (.cv q)) ∨ (∃ y, y ∈ s.readyQueue) ∨
        ∃ y, Relation.TransGen s.Joins y y)

section Joins

variable {s s' : State Unit} {e : Event Unit}

theorem JoinsWorkers.initial : JoinsWorkers (State.initial fun _ => .roundRobin) where
  frames f h := by simp [State.initial] at h
  waits y w h := by simp [State.Joins, State.initial] at h

theorem JoinsWorkers.step (h : JoinsWorkers s) (hs : Shape s) (hstep : Lutask.step s e = some s') :
    JoinsWorkers s' where
  frames g hg w hw := by
    have hkind : g.isSettled = false ∧ g.isOuter = false ∧ ∀ prev k, g ≠ .save prev k := by
      cases g <;> simp [Frame.joins] at hw
      simp [Frame.isSettled, Frame.isOuter]
    rcases new_frame hs hstep hg hkind.1 hkind.2.1 hkind.2.2 with ⟨x, op, r, rfl, hop, rfl, hnew⟩ |
      ⟨x, f, now, rest, r, rfl, hstack, hframe, rfl, hnew⟩
    · obtain ⟨rfl, -⟩ := hop.joins hnew hw
      cases hop with
      | join hstarted hpin hterm => exact ⟨hstarted, hpin⟩
      | joinReturn => simp at hnew
    · simp [hframe.joins g hnew] at hw
  waits y w hy := by
    cases step_inv hstep with
    | call hactive hstack huser hop =>
      have hold := h.waits y w (by simpa [State.Joins, hop.waits] using hy)
      exact ⟨hop.started hold.1, hold.2⟩
    | @frame t x f now rest r hactive hstack hframe =>
      have hstarted : (r.1.setStack t (r.2 ++ rest)).started = s.started := hframe.started
      rw [hstarted]
      cases hframe.waited (by simpa [State.Joins] using hy) with
      | inl hold => exact h.waits y w hold
      | inr hf => exact h.frames f (by simp [hstack]) w (by simp [hf, Frame.joins])
    | switch hactive hstack htarget hc => exact h.waits y w hy

/-- Nobody waits for a terminated context that has notified its joiners. -/
theorem ProperRuns.joinsUnfinished {events : List (Event Unit)} (h : ProperRuns events s) :
    JoinsUnfinished s := by
  intro y w hy hterm
  have hjoining := (Run.invariant_labels (I := fun events s => Orderly s ∧ Joining w events s) h
    ⟨Orderly.initial _, Joining.initial w⟩ fun events s e s' hs he hstep =>
      ⟨hs.1.step he.1.1 hstep, hs.2.step hs.1 hstep⟩).2
  by_contra hdone
  have hempty := hjoining.served hterm hdone
  simp [State.Joins, hempty] at hy

end Joins

section Halted

variable {s : State Unit} {events : List (Event Unit)} {y : Ctx Unit}

/-- When the dispatcher sleeps, whoever has not finished waits or was started with `Async`. -/
theorem Attended.waits {rest : List (Frame Unit)} (h : Attended s)
    (hstack : (s.thread ()).stack = .suspended () ⊤ :: rest) (hstarted : s.started y)
    (huser : y.runsUserCode) (hopen : (s.ctx y).terminated = false) :
    y ∈ s.readyQueue ∨ ∃ q, y ∈ s.waits q := by
  obtain ⟨p, hp⟩ := (h.sound.single y).exists_pos
  cases p with
  | active v =>
    have hv : (s.thread v).active = some y := by
      by_contra hne
      simp [State.places, hne] at hp
    have hof := h.settling.inTurn.orderly.shape.frames v y hv (.suspended () ⊤) (by simp [hstack])
    obtain rfl : y = .dispatcher () := hof
    simp at huser
  | hand v =>
    have hsettled := h.settling.scripted.rest_settled hstack rfl (by simp) (by simp)
    simp [State.places, hstack, Frame.held, heldIn_of_settled hsettled] at hp
  | slot a =>
    cases a with
    | queue u =>
      have hqueue := (h.dozing.asleep (.suspended () ⊤) (by simp [hstack]) ⊤ rfl).2
      simp [State.slot, hqueue] at hp
    | ready => exact .inl (State.slot_ready_pos.mp hp)
    | wait q => exact .inr ⟨q, State.slot_wait_pos.mp hp⟩
    | terminated => simp [State.slot, hopen] at hp
    | parked => cases y <;> simp [State.slot, State.parked, h.settling.inTurn.isOpen] at hp
    | unborn => simp [State.slot, hstarted] at hp

/-- When the dispatcher sleeps there is somebody whom nobody can help. -/
theorem Attended.cause {rest : List (Frame Unit)} (h : Attended s) (hjoins : JoinsWorkers s)
    (hunfinished : JoinsUnfinished s) (hstack : (s.thread ()).stack = .suspended () ⊤ :: rest) :
    (∃ q y, y ∈ s.waits (.cv q)) ∨ (∃ y, y ∈ s.readyQueue) ∨ ∃ y, Relation.TransGen s.Joins y y := by
  by_cases hcv : ∃ q y, y ∈ s.waits (.cv q)
  · exact .inl hcv
  by_cases hready : ∃ y, y ∈ s.readyQueue
  · exact .inr (.inl hready)
  refine .inr (.inr ?_)
  let unfinished : Set (Ctx Unit) := {y | s.started y ∧ y.runsUserCode ∧ (s.ctx y).terminated = false}
  have hfinite : unfinished.Finite := by
    refine (((Set.finite_Iio s.fresh).image Ctx.worker).insert (.main ())).subset fun y hy => ?_
    cases y with
    | main u => exact Set.mem_insert _ _
    | dispatcher u => simp [unfinished] at hy
    | worker n => exact Set.mem_insert_of_mem _ ⟨n, by simpa [State.started] using hy.1, rfl⟩
  have hmain : Ctx.main () ∈ unfinished := ⟨rfl, rfl, h.settling.looping.terminated _ rfl⟩
  have hwaits : ∀ y ∈ unfinished, ∃ z ∈ unfinished, s.Joins y z := by
    rintro y ⟨hstarted, huser, hopen⟩
    obtain ⟨q, hq⟩ := (h.waits hstack hstarted huser hopen).resolve_left fun hy => hready ⟨y, hy⟩
    cases q with
    | cv q => exact absurd ⟨q, y, hq⟩ hcv
    | waitList z =>
      obtain ⟨hborn, hpin⟩ := hjoins.waits y z hq
      refine ⟨z, ⟨hborn, by cases z <;> simp [Ctx.isPinned] at hpin ⊢, ?_⟩, hq⟩
      by_contra hterm
      have hmem := hunfinished y z hq (by simpa using hterm)
      have hsettled := h.settling.scripted.rest_settled hstack rfl (by simp) (by simp)
      rcases List.mem_cons.mp (hstack ▸ hmem) with htop | hbelow
      · simp at htop
      · simpa [Frame.isSettled] using hsettled _ hbelow
  obtain ⟨y, -, hcycle⟩ := CooperativeScheduling.exists_cycle hfinite ⟨_, hmain⟩ hwaits
  exact ⟨y, hcycle⟩

theorem ProperRuns.joinsWorkers (h : ProperRuns events s) : JoinsWorkers s :=
  (Run.invariant (I := fun s => Shape s ∧ JoinsWorkers s) h ⟨Shape.initial _, JoinsWorkers.initial⟩
    fun _ _ _ hs _ hstep => ⟨hs.1.step hstep, hs.2.step hs.1 hstep⟩).2

/-- Nothing can happen any more on one round-robin thread exactly when it blocks itself with a lock of its
users, or all fibers that have not finished wait in vain. -/
theorem halted_iff (h : ProperRuns events s) : (∀ e, step s e = none) ↔ Halted s := by
  have hs := h.attended
  constructor
  · intro hnone
    rcases hs.rests with hrests | ⟨e, s', -, hstep⟩
    · cases hrests with
      | user x hactive hstack hrunning =>
        -- the user's code can always do something
        have huser : x.runsUserCode := by
          rw [tasks, hactive, hstack, view_unnoticed rfl] at hrunning
          cases x <;> simp [Option.filter_some] at hrunning <;> rfl
        have hwrite := hnone (.call () x (.write s.preds))
        simp [step, hactive, hstack, huser, callOp] at hwrite
      | relocks q l p x y rest hstack hlock => exact .locked q l p x y rest hstack hlock
      | idle rest hstack hrunning hready =>
        exact .idle rest hstack (fun y => hs.waits hstack)
          (hs.cause h.joinsWorkers h.joinsUnfinished hstack)
    · simp [hnone e] at hstep
  · intro hhalted e
    by_contra hsome
    obtain ⟨s', hstep⟩ := Option.ne_none_iff_exists'.mp hsome
    cases hhalted with
    | locked q l p x y rest hstack hlock =>
      obtain ⟨z, n, -, -, ⟨r, hframe, -⟩ | ⟨y', k, stack, htarget, -⟩⟩ :=
        step_top (t := ()) hstep rfl hstack
      · cases hframe with
        | pop hf | popEmpty hf => simp at hf
        | relock hl => simp [hlock] at hl
      · simp [Frame.target] at htarget
    | idle rest hstack hwaits hcause =>
      obtain ⟨z, n, -, -, ⟨r, hframe, -⟩ | ⟨y', k, stack, htarget, -⟩⟩ :=
        step_top (t := ()) hstep rfl hstack
      · cases hframe with
        | pop hf | popEmpty hf => simp at hf
        | suspended hawake => simp [hs.dozing.flag] at hawake
      · simp [Frame.target] at htarget

/-- Two workers join each other and main joins one of them: nothing can happen any more. -/
theorem workers_joining_each_other_halt : ∃ events s, ProperRuns events s ∧
    (s.Joins (.worker 0) (.worker 1) ∧ s.Joins (.worker 1) (.worker 0) ∧
      (s.thread ()).stack = [.suspended () ⊤, .dispatch ()]) ∧ Halted s ∧ ∀ e, step s e = none := by
  obtain ⟨events, s, hrun, hjoins, hjoined, hmain, hfresh, hstack⟩ : ∃ events s, ProperRuns events s ∧
      (.worker 0 ∈ s.waits (.waitList (.worker 1)) ∧ .worker 1 ∈ s.waits (.waitList (.worker 0)) ∧
        .main () ∈ s.waits (.waitList (.worker 0)) ∧ s.fresh = 2 ∧
        (s.thread ()).stack = [.suspended () ⊤, .dispatch ()]) :=
    reaches_of_drive [.call () (.main ()) (.start .post), .frames () 2 0,
      .call () (.main ()) (.start .post), .frames () 2 0, .call () (.main ()) (.join (.worker 0)),
      .frames () 12 0, .call () (.worker 0) (.join (.worker 1)), .frames () 5 0,
      .call () (.worker 1) (.join (.worker 0)), .frames () 10 0] (by decide)
  have hcycle : Relation.TransGen s.Joins (.worker 0) (.worker 0) := .tail (.single hjoins) hjoined
  have hhalted : Halted s := by
    refine .idle _ hstack (fun y hstarted huser _ => .inr ?_) (.inr (.inr ⟨_, hcycle⟩))
    cases y with
    | main u => exact ⟨_, hmain⟩
    | dispatcher u => simp [Ctx.runsUserCode] at huser
    | worker n =>
      have hn : n < 2 := by simpa [State.started, hfresh] using hstarted
      obtain rfl | rfl : n = 0 ∨ n = 1 := by omega
      · exact ⟨_, hjoins⟩
      · exact ⟨_, hjoined⟩
  exact ⟨events, s, hrun, ⟨hjoins, hjoined, hstack⟩, hhalted, (halted_iff hrun).mpr hhalted⟩

end Halted

end RoundRobin

end Lutask
