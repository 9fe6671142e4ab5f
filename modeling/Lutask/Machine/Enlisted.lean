import Lutask.Machine.Pinned
import Lutask.Machine.Waiting

/-!
# Contexts between two schedulers

A context is attached when its fiber is started, and belongs to a scheduler from then on unless it
migrates. While `scheduler_` is null the context is in the static queue, or a function that moves it there
or out of it has it in its hand. Neither is true of a context that runs or waits.
-/

namespace Lutask

variable {T : Type*}

/-- The context is on its way from one scheduler to another. -/
def State.Migrating (s : State T) (y : Ctx T) : Prop :=
  y ∈ s.readyQueue ∨ ∃ t, ∃ f ∈ (s.thread t).stack, f.migrates = some y

/-- Only a context that migrates belongs to no scheduler. -/
def Enlisted (s : State T) : Prop :=
  ∀ y, s.started y → (s.ctx y).scheduler = none → s.Migrating y

theorem Enlisted.initial (policy : T → Policy) : Enlisted (State.initial policy) := by
  intro y hy hnone
  cases y with
  | worker n => simp [State.initial, State.started] at hy
  | _ => simp [State.initial, Context.initial] at hnone

/-- A context that is moved is in the hand. -/
theorem Frame.held_of_migrates {f : Frame T} {y : Ctx T} (h : f.migrates = some y) :
    f.held = some y := by
  cases f <;> simp [Frame.migrates] at h <;> simp [Frame.held, h]

theorem Frame.migrates_of_settled {f : Frame T} (h : f.isSettled) : f.migrates = none := by
  cases f <;> simp [Frame.isSettled] at h <;> rfl

variable [DecidableEq T] {s s' : State T} {t : T} {x y : Ctx T} {now : ℕ} {f : Frame T} {op : Op T}
  {r : Rest T} {e : Event T} {rest : List (Frame T)}

/-- A new worker is in the hand of `_Start`. -/
theorem OpStep.start_migrates {launch : ELaunch} (h : OpStep s x (.start launch) r) :
    ∃ f ∈ r.2, f.migrates = some (.worker s.fresh) := by
  cases h with
  | start => cases launch <;> simp [Lutask.start, Frame.migrates]

/-- A frame leaves a context where it migrates, or attaches it. -/
theorem FrameStep.migrating (h : FrameStep s t x now f r)
    (hy : y ∈ s.readyQueue ∨ f.migrates = some y) :
    (r.1.ctx y).scheduler ≠ none ∨ y ∈ r.1.readyQueue ∨ ∃ g ∈ r.2, g.migrates = some y := by
  have hready : f.migrates = none → y ∈ s.readyQueue := fun hf => hy.resolve_right (by simp [hf])
  cases h with
  | @postAttach u z hu hmtx | @attachResume u z k hu hmtx =>
    by_cases hyz : y = z
    · exact .inl (by simp [workerQueuePush, hyz])
    · exact .inr (.inl (hy.resolve_right (by simp [Frame.migrates, Ne.symm hyz])))
  | @detachAsync z hasync | @detach u z hasync hu =>
    cases hy with
    | inl hold => exact .inr (.inl hold)
    | inr hf => exact .inr (.inr ⟨.readyPush z, by simp, hf⟩)
  | @readyPush z =>
    refine .inr (.inl (List.mem_append.mpr (hy.imp_right fun hf => ?_)))
    simpa [Frame.migrates, eq_comm] using hf
  | @pickReady u k z queue hpolicy hqueue =>
    have hmem : y = z ∨ y ∈ queue := by simpa [hqueue] using hready rfl
    rcases hmem with rfl | hbehind
    · exact .inr (.inr ⟨_, List.mem_singleton_self _, rfl⟩)
    · exact .inr (.inl hbehind)
  | schedule hu | wake hu | scheduleOn => exact .inr (.inl (by simpa using hready rfl))
  | dispatchShutdown hshut =>
    refine .inr (.inl ?_)
    simp only [notify]
    split <;> exact hready rfl
  | pop hf | popEmpty hf =>
    exact .inr (.inl (hready (by rcases hf with rfl | ⟨rfl, -⟩ <;> rfl)))
  | _ => exact .inr (.inl (hready rfl))

/-- Every step but a straying operation keeps the law. -/
theorem Enlisted.step (h : Enlisted s) (hs : Shape s) (he : e.keepsPlaces)
    (hstep : Lutask.step s e = some s') : Enlisted s' := by
  intro y hy hnone
  cases step_inv hstep with
  | @call t x op r hactive hstack huser hop =>
    cases (hop.started_iff y).mp hy with
    | inl hstarted =>
      rcases hop.scheduler he y with hsame | ⟨rfl, -⟩
      · rcases h y hstarted (hsame ▸ hnone) with hready | ⟨v, f, hf, hmigrates⟩
        · exact .inl (hop.readyQueue ▸ hready)
        · have hv : v ≠ t := by
            rintro rfl
            simp [hstack] at hf
          exact .inr ⟨v, f, by rwa [step_thread_of_ne hstep hv], hmigrates⟩
      · simp [State.started] at hstarted
    | inr hnew =>
      obtain ⟨⟨launch, rfl⟩, rfl⟩ := hnew
      obtain ⟨f, hf, hmigrates⟩ := hop.start_migrates
      exact .inr ⟨t, f, by simpa using hf, hmigrates⟩
  | @frame t x f now rest r hactive hstack hframe =>
    have hstarted : s.started y := by simpa [hframe.started] using hy
    have hold : (s.ctx y).scheduler = none ∨ f.migrates = some y := by
      rcases hframe.scheduler y with hsame | ⟨rfl | ⟨k, rfl⟩, -⟩ | ⟨rfl, -⟩
      · exact .inl (hsame ▸ hnone)
      all_goals exact .inr rfl
    have hmoved (hhere : y ∈ s.readyQueue ∨ f.migrates = some y) :
        (r.1.setStack t (r.2 ++ rest)).Migrating y := by
      rcases hframe.migrating hhere with hattached | hready | ⟨g, hg, hmigrates⟩
      · exact absurd hnone hattached
      · exact .inl hready
      · exact .inr ⟨t, g, by simp [hg], hmigrates⟩
    rcases hold with hnone | hf
    · rcases h y hstarted hnone with hready | ⟨v, g, hg, hmigrates⟩
      · exact hmoved (.inl hready)
      · by_cases hv : v = t
        · subst hv
          cases List.mem_cons.mp (hstack ▸ hg) with
          | inl htop => exact hmoved (.inr (htop ▸ hmigrates))
          | inr hbelow => exact .inr ⟨v, g, by simp [hbelow], hmigrates⟩
        · exact .inr ⟨v, g, by rwa [step_thread_of_ne hstep hv], hmigrates⟩
    · exact hmoved (.inr hf)
  | @switch t x z f k now rest stack hactive hstack htarget hc =>
    rw [switched_scheduler] at hnone
    rcases h y hy hnone with hready | ⟨v, g, hg, hmigrates⟩
    · exact .inl hready
    · refine .inr ⟨v, g, ?_, hmigrates⟩
      by_cases hv : v = t
      · subst hv
        -- a switch leaves settled frames behind, which move nobody
        obtain ⟨hinner, -⟩ := Frame.of_target htarget (hs.frames v x hactive f (by simp [hstack]))
        cases List.mem_cons.mp (hstack ▸ hg) with
        | inl htop =>
          subst htop
          cases g <;> simp [Frame.target] at htarget <;> simp [Frame.migrates] at hmigrates
        | inr hbelow =>
          have hsettled := settled_of_pairwise (hstack ▸ hs.below v) hinner g hbelow
          simp [Frame.migrates_of_settled hsettled] at hmigrates
      · rwa [step_thread_of_ne hstep hv]

/-- A context that waits belongs to a scheduler. -/
theorem Enlisted.of_waits (h : Enlisted s) (hp : Placed s) {q : WaitQueue T} (hy : y ∈ s.waits q) :
    (s.ctx y).scheduler ≠ none := by
  intro hnone
  rcases h y (hp.started (State.away_of_waits hy)) hnone with hready | ⟨t, f, hf, hmigrates⟩
  · have hone := (hp.exclusive y).eq_of_pos (p := .slot .ready) (q := .slot (.wait q))
      (State.slot_ready_pos.mpr hready) (State.slot_wait_pos.mpr hy)
    simp at hone
  · exact hp.not_held hy hf (Frame.held_of_migrates hmigrates)

/-- A context that is about to be woken belongs to a scheduler. -/
theorem Enlisted.of_wake (h : Enlisted s) (hp : Placed s) (htop : (s.thread t).stack = .wake y :: rest) :
    (s.ctx y).scheduler ≠ none := by
  intro hnone
  have hmem : .wake y ∈ (s.thread t).stack := by simp [htop]
  rcases h y (hp.started (State.away_of_held hmem rfl)) hnone with hready | ⟨v, f, hf, hmigrates⟩
  · exact absurd (hp.held_free hmem rfl .ready) (State.slot_ready_pos.mpr hready).ne'
  · obtain ⟨rfl, hnot⟩ := hp.held_once htop rfl hf (Frame.held_of_migrates hmigrates)
    cases List.mem_cons.mp (htop ▸ hf) with
    | inl hwake => simp [hwake, Frame.migrates] at hmigrates
    | inr hbelow => exact hnot hbelow

end Lutask
