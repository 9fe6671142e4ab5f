import Lutask.SharedWork.Homes

/-!
# Who keeps a worker in its `workerQueue_`

All threads under `SharedWorkPolicy`. A worker is listed in the `workerQueue_` of its `scheduler_` from
`Attach` until it gives itself up by `Yield`, is detached, or terminates. `Context::Detach`
returns early for fibers launched with `ELaunch::Async`; as long as it is not called on such a fiber
that a thread has attached, every worker that is ready has no scheduler.
-/

namespace Lutask

open LabelledRuns TokenPlacement

variable {T : Type*}

/-- The context that a frame is about to attach, or to push onto the static queue. -/
def Frame.loose : Frame T → Option (Ctx T)
  | .postAttach y | .readyPush y | .attachResume y _ => some y
  | _ => none

/-- A context that is left by this switch stays with its scheduler. -/
def Switch.keeps : Switch T → Bool
  | .resume | .resumeUnlock _ => true
  | _ => false

/-- The active context has given its place in `workerQueue_` up, or is about to. -/
def Frame.givesUp : Frame T → Bool
  | .pickNext u k | .pickLocal u k => !(switchOf u k).keeps
  | .attachResume _ k | .resume _ k => !k.keeps
  | .returnToMain _ => true
  | _ => false

/-- The context that `Scheduler::Terminate` has still to remove from `workerQueue_`. -/
def Frame.removes : Frame T → Option (Ctx T)
  | .schedulerTerminate y | .terminateRemove _ y => some y
  | _ => none

/-- Attaching `y` to the scheduler of the active context. -/
def Event.attaches (y : Ctx T) : Event T → Prop
  | .exec _ _ (.postAttach z) _ | .exec _ _ (.attachResume z _) _ => z = y
  | _ => False

/-- `Context::Detach` is not called on a fiber launched with `ELaunch::Async` that has a scheduler. -/
def Event.detachesLoose (s : State T) : Event T → Prop
  | .exec _ _ (.detach y) _ => (s.ctx y).policy = .async → (s.ctx y).scheduler = none
  | _ => True

instance [DecidableEq T] (s : State T) : DecidablePred (Event.detachesLoose s)
  | .exec t x f n => by
    apply @Frame.casesOn T (fun f => Decidable (Event.detachesLoose s (.exec t x f n))) f <;> intros <;>
      dsimp only [Event.detachesLoose] <;> infer_instance
  | .call .. => .isTrue trivial

/-- The `workerQueue_` of the scheduler of `y` holds `y`. -/
def Listed (s : State T) (y : Ctx T) : Prop :=
  ∃ u, (s.ctx y).scheduler = some u ∧ y ∈ (s.sched u).workerQueue

/-- `y` is new, ready, or on its way to be either or to be attached. -/
def Loose (s : State T) (y : Ctx T) : Prop :=
  s.started y = false ∨ y ∈ s.readyQueue ∨ ∃ t, ∃ f ∈ (s.thread t).stack, f.loose = some y

/-- The invariant of the `workerQueue_` members. -/
structure Custody [DecidableEq T] (s : State T) : Prop where
  once : ∀ n u, (s.sched u).workerQueue.count (.worker n) ≤ 1
  own : ∀ n u, .worker n ∈ (s.sched u).workerQueue → (s.ctx (.worker n)).scheduler = some u
  loose : ∀ n, Loose s (.worker n) → (s.ctx (.worker n)).scheduler = none
  running : ∀ t n, (s.thread t).active = some (.worker n) →
    (∀ f ∈ (s.thread t).stack, f.givesUp = false) → Listed s (.worker n)
  resuming : ∀ t n k, .resume (.worker n) k ∈ (s.thread t).stack → Listed s (.worker n)
  waiting : ∀ q n, .worker n ∈ s.waits q → Listed s (.worker n)
  removed : ∀ n, (s.ctx (.worker n)).terminated →
    (∃ t, ∃ f ∈ (s.thread t).stack, f.removes = some (.worker n)) ∨ ∀ u, .worker n ∉ (s.sched u).workerQueue

theorem Frame.held_of_loose {f : Frame T} {y : Ctx T} (h : f.loose = some y) : f.held = some y := by
  cases f <;> simp [Frame.loose] at h <;> simp [Frame.held, h]

theorem Frame.givesUp_of_settled {f : Frame T} (h : f.isSettled) : f.givesUp = false := by
  cases f <;> simp [Frame.isSettled] at h <;> rfl

variable [DecidableEq T] {s s' : State T} {t u : T} {x y : Ctx T} {n now : ℕ} {e : Event T}

theorem Custody.initial (policy : T → Policy) : Custody (State.initial policy) where
  once n u := by simp [State.initial]
  own n u h := by simp [State.initial] at h
  loose n _ := rfl
  running t n h := by simp [State.initial] at h
  resuming t n k h := by simp [State.initial] at h
  waiting q n h := by simp [State.initial] at h
  removed n h := by simp [State.initial, Context.initial] at h

section Members

/-- An attached worker stays attached, and a loose one stays loose, unless it is attached or detached. -/
theorem step_scheduler (h : Custody s) (he : e.keepsPlaces) (hstep : step s e = some s') (n : ℕ) :
    (s'.ctx (.worker n)).scheduler = (s.ctx (.worker n)).scheduler ∨ e.attaches (.worker n) ∨
      (s'.ctx (.worker n)).scheduler = none ∧ ∃ t x now, e = .exec t x (.detach (.worker n)) now := by
  cases step_inv hstep with
  | call hactive hstack huser hop =>
    left
    cases hop.scheduler he (.worker n) with
    | inl hsame => exact hsame
    | inr hnew =>
      obtain ⟨hfresh, -, hnone⟩ := hnew
      have hunborn : s.started (.worker n) = false := by
        rw [hfresh]
        simp [State.started]
      exact hnone.trans (h.loose n (.inl hunborn)).symm
  | frame hactive hstack hframe =>
    rcases hframe.scheduler (.worker n) with hsame | ⟨hattach, -⟩ | ⟨rfl, hnone⟩
    · exact .inl hsame
    · right
      left
      rcases hattach with rfl | ⟨k, rfl⟩ <;> rfl
    · exact .inr (.inr ⟨hnone, _, _, _, rfl⟩)
  | switch hactive hstack htarget hc => exact .inl (by simp)

/-- A worker enters a `workerQueue_` only when it is attached. -/
theorem step_enters (hstep : step s e = some s') (hy : y ∈ (s'.sched u).workerQueue) :
    y ∈ (s.sched u).workerQueue ∨ e.attaches y := by
  cases step_inv hstep with
  | call hactive hstack huser hop =>
    left
    rcases hop.workerQueue u with hsame | ⟨-, -, hfilter⟩
    · simpa [hsame] using hy
    · exact (by simpa [hfilter] using hy : y ∈ (s.sched u).workerQueue ∧ _).1
  | frame hactive hstack hframe =>
    rcases hframe.workerQueue u with hsame | ⟨z, hattach, -, hpush⟩ | ⟨z, -, hfilter⟩
    · exact .inl (by simpa [hsame] using hy)
    · cases List.mem_append.mp (by simpa [hpush] using hy : y ∈ (s.sched u).workerQueue ++ [z]) with
      | inl hold => exact .inl hold
      | inr hnew =>
        right
        rw [List.mem_singleton.mp hnew]
        rcases hattach with rfl | ⟨k, rfl⟩ <;> rfl
    · exact .inl (by simpa [hfilter] using hy : y ∈ (s.sched u).workerQueue ∧ _).1
  | switch hactive hstack htarget hc => exact .inl hy

/-- A worker leaves the `workerQueue_` of its scheduler when it yields, is detached or is removed by
`Scheduler::Terminate`. -/
theorem step_listed (h : Custody s) (he : e.keepsPlaces) (hstep : step s e = some s')
    (hlisted : Listed s (.worker n)) : Listed s' (.worker n) ∨ (∃ t, e = .call t (.worker n) .yield) ∨
      ∃ t x f now, e = .exec t x f now ∧
        (f = .detach (.worker n) ∨ ∃ u, f = .terminateRemove u (.worker n)) := by
  obtain ⟨u, hu, hmem⟩ := hlisted
  have hattached : ∀ t x f now, e = .exec t x f now → (s.thread t).stack.head? = some f →
      f.loose ≠ some (.worker n) := by
    intro t x f now _ htop hf
    have hnone := h.loose n (.inr (.inr ⟨t, f, List.mem_of_mem_head? htop, hf⟩))
    simp [hu] at hnone
  cases step_inv hstep with
  | @call t x op r hactive hstack huser hop =>
    have hsched : (r.1.ctx (.worker n)).scheduler = some u := by
      refine ((hop.scheduler he (.worker n)).resolve_right ?_).trans hu
      rintro ⟨hfresh, -⟩
      have hunborn : s.started (.worker n) = false := by
        rw [hfresh]
        simp [State.started]
      simp [h.loose n (.inl hunborn)] at hu
    rcases hop.workerQueue u with hsame | ⟨hop', -, hfilter⟩
    · exact .inl ⟨u, by simpa using hsched, by simpa [hsame] using hmem⟩
    · by_cases hx : .worker n = x
      · subst hx
        refine .inr (.inl ⟨t, ?_⟩)
        rcases hop' with rfl | rfl
        · rfl
        · simp [Event.keepsPlaces, Op.strays] at he
      · exact .inl ⟨u, by simpa using hsched, by simp [hfilter, hmem, hx]⟩
  | @frame t x f now rest r hactive hstack hframe =>
    have hloose := hattached t x f now rfl (by simp [hstack])
    rcases hframe.scheduler (.worker n) with hsame | ⟨hattach, -⟩ | ⟨hdetach, -⟩
    · rcases hframe.workerQueue u with hkeep | ⟨z, -, -, hpush⟩ | ⟨z, hz, hfilter⟩
      · exact .inl ⟨u, by simpa [hsame] using hu, by simpa [hkeep] using hmem⟩
      · exact .inl ⟨u, by simpa [hsame] using hu, by simp [hpush, hmem]⟩
      · by_cases hzn : .worker n = z
        · subst hzn
          refine .inr (.inr ⟨t, x, f, now, rfl, ?_⟩)
          rcases hz with ⟨rfl, -⟩ | rfl
          · exact .inl rfl
          · exact .inr ⟨u, rfl⟩
        · exact .inl ⟨u, by simpa [hsame] using hu, by simp [hfilter, hmem, hzn]⟩
    · rcases hattach with rfl | ⟨k, rfl⟩ <;> exact absurd rfl hloose
    · exact .inr (.inr ⟨t, x, f, now, rfl, .inl hdetach⟩)
  | switch hactive hstack htarget hc => exact .inl ⟨u, by simpa using hu, hmem⟩

/-- A context that is attached was in the hand of the attaching frame. -/
theorem step_attaches (hstep : step s e = some s') (he : e.attaches y) :
    ∃ t f rest, e.thread = t ∧ (s.thread t).stack = f :: rest ∧ f.loose = some y := by
  cases e with
  | call => exact he.elim
  | exec t x f now =>
    obtain ⟨-, rest, hstack⟩ := step_exec hstep
    refine ⟨t, f, rest, rfl, hstack, ?_⟩
    cases f <;> simp [Event.attaches] at he <;> simp [Frame.loose, he]

/-- A context that was recorded somewhere is not attached. -/
theorem not_attached (h : Placed s) (hstep : step s e = some s') {a : Slot T}
    (hy : 0 < s.slot y a) : ¬ e.attaches y := by
  intro he
  obtain ⟨t, f, rest, -, hstack, hloose⟩ := step_attaches hstep he
  have hfree := h.held_free (t := t) (by simp [hstack]) (Frame.held_of_loose hloose) a
  omega

end Members

section Laws

/-- No `workerQueue_` lists a worker twice, and only the one of its scheduler lists it. -/
theorem Custody.once_step (h : Custody s) (he : e.keepsPlaces) (hstep : step s e = some s') (n : ℕ)
    (u : T) : (s'.sched u).workerQueue.count (.worker n) ≤ 1 ∧
      (.worker n ∈ (s'.sched u).workerQueue → (s'.ctx (.worker n)).scheduler = some u) := by
  have hfilter : ∀ z, ((s.sched u).workerQueue.filter (· ≠ z)).count (.worker n) ≤ 1 := fun z =>
    (List.Sublist.count_le _ List.filter_sublist).trans (h.once n u)
  cases step_inv hstep with
  | @call t x op r hactive hstack huser hop =>
    have hsched : .worker n ∈ (s.sched u).workerQueue → (r.1.ctx (.worker n)).scheduler = some u := by
      intro hmem
      cases step_scheduler h he hstep n with
      | inl hsame => exact hsame.trans (h.own n u hmem)
      | inr hother => simp [Event.attaches] at hother
    rcases hop.workerQueue u with hsame | ⟨-, -, hremove⟩
    · simp only [State.setStack_sched, State.setStack_ctx, hsame]
      exact ⟨h.once n u, hsched⟩
    · simp only [State.setStack_sched, State.setStack_ctx, hremove]
      exact ⟨hfilter x, fun hmem => hsched (List.mem_filter.mp hmem).1⟩
  | @frame t x f now rest r hactive hstack hframe =>
    simp only [State.setStack_sched, State.setStack_ctx]
    by_cases hloose : f.loose = some (.worker n)
    · -- a loose worker is in no queue
      have hnone := h.loose n (.inr (.inr ⟨t, f, by simp [hstack], hloose⟩))
      have hout : ∀ v, .worker n ∉ (s.sched v).workerQueue := fun v hmem => by
        simp [h.own n v hmem] at hnone
      cases hframe with
      | pop hf | popEmpty hf => rcases hf with rfl | ⟨rfl, -⟩ <;> simp [Frame.loose] at hloose
      | readyPush => exact ⟨h.once n u, fun hmem => absurd hmem (hout u)⟩
      | @postAttach v w hu hmtx | @attachResume v w k hu hmtx =>
        obtain rfl : w = .worker n := by simpa [Frame.loose] using hloose
        by_cases huv : u = v
        · subst huv
          simp [workerQueuePush, List.count_eq_zero.mpr (hout u)]
        · simp [workerQueuePush, huv, h.once n u, hout u]
      | _ => simp [Frame.loose] at hloose
    · have hcount : (r.1.sched u).workerQueue.count (.worker n) ≤ 1 := by
        rcases hframe.workerQueue u with hsame | ⟨z, hattach, -, hpush⟩ | ⟨z, -, hremove⟩
        · exact hsame ▸ h.once n u
        · have hz : z ≠ .worker n := by
            rintro rfl
            rcases hattach with rfl | ⟨k, rfl⟩ <;> exact hloose rfl
          simpa [hpush, hz] using h.once n u
        · exact hremove ▸ hfilter z
      refine ⟨hcount, fun hmem => ?_⟩
      have hold : .worker n ∈ (s.sched u).workerQueue := by
        refine (step_enters hstep (by simpa using hmem)).resolve_right fun hattach => ?_
        obtain ⟨v, g, rest', rfl, hstack', hg⟩ := step_attaches hstep hattach
        obtain ⟨rfl, -⟩ := List.cons.inj (hstack.symm.trans hstack')
        exact hloose hg
      have hown := h.own n u hold
      rcases hframe.scheduler (.worker n) with hsame | ⟨hattach, -⟩ | ⟨rfl, -⟩
      · exact hsame.trans hown
      · rcases hattach with rfl | ⟨k, rfl⟩ <;> exact absurd rfl hloose
      · cases hframe with
        | pop hf | popEmpty hf => simp at hf
        | detachAsync hasync => exact hown
        | @detach v _ hasync hu =>
          obtain rfl : u = v := Option.some.inj (hown.symm.trans hu)
          simp [detachWorkerContext, workerQueueRemove] at hmem
  | switch hactive hstack htarget hc => exact ⟨h.once n u, fun hmem => by simpa using h.own n u hmem⟩

/-- A listed worker that is active stays listed, unless it yields or is removed. -/
theorem listed_of_active (h : Custody s) (hs : Shared s) (he : e.keepsPlaces)
    (hstep : step s e = some s') (hactive : (s.thread t).active = some (.worker n))
    (hlisted : Listed s (.worker n)) : Listed s' (.worker n) ∨ e = .call t (.worker n) .yield ∨
      ∃ u now, e = .exec t (.worker n) (.terminateRemove u (.worker n)) now := by
  have hcont := hs.orderly.continued
  rcases step_listed h he hstep hlisted with hstays | ⟨v, rfl⟩ | ⟨v, x, f, now, rfl, rfl | ⟨u, rfl⟩⟩
  · exact .inl hstays
  · obtain rfl := hcont.unique t v _ (.inl hactive) (.inl (step_call hstep).1)
    exact .inr (.inl rfl)
  · obtain ⟨-, rest, hstack⟩ := step_exec hstep
    have hmem : .detach (.worker n) ∈ (s.thread v).stack := by simp [hstack]
    exact absurd hactive (hs.departing.held_not_active hs.orderly hmem rfl t)
  · obtain ⟨hx, rest, hstack⟩ := step_exec hstep
    obtain rfl : .worker n = x :=
      hs.orderly.shape.frames v x hx (.terminateRemove u (.worker n)) (by simp [hstack])
    obtain rfl := hcont.unique t v _ (.inl hactive) (.inl hx)
    exact .inr (.inr ⟨u, now, rfl⟩)

/-- A listed worker in the hand of a function stays listed, unless this function is `Detach`. -/
theorem listed_of_held (h : Custody s) (hs : Shared s) (he : e.keepsPlaces)
    (hstep : step s e = some s') {g : Frame T} (hg : g ∈ (s.thread t).stack)
    (hheld : g.held = some (.worker n)) (hbelow : t = e.thread → g ∈ (s.thread t).stack.tail)
    (hlisted : Listed s (.worker n)) : Listed s' (.worker n) := by
  have hidle := hs.departing.held_not_active hs.orderly hg hheld
  rcases step_listed h he hstep hlisted with hstays | ⟨v, rfl⟩ | ⟨v, x, f, now, rfl, rfl | ⟨u, rfl⟩⟩
  · exact hstays
  · exact absurd (step_call hstep).1 (hidle v)
  · obtain ⟨-, rest, hstack⟩ := step_exec hstep
    obtain ⟨rfl, hnot⟩ := hs.orderly.placed.held_once hstack rfl hg hheld
    exact absurd (by simpa [hstack] using hbelow rfl) hnot
  · obtain ⟨hx, rest, hstack⟩ := step_exec hstep
    obtain rfl : .worker n = x :=
      hs.orderly.shape.frames v x hx (.terminateRemove u (.worker n)) (by simp [hstack])
    exact absurd hx (hidle v)

/-- A listed worker in a wait queue stays listed. -/
theorem listed_of_waits (h : Custody s) (hs : Shared s) (he : e.keepsPlaces)
    (hstep : step s e = some s') {q : WaitQueue T} (hy : .worker n ∈ s.waits q)
    (hlisted : Listed s (.worker n)) : Listed s' (.worker n) := by
  have hplaced := hs.orderly.placed
  have hwaits : 0 < s.places (.worker n) (.slot (.wait q)) := State.slot_wait_pos.mpr hy
  rcases step_listed h he hstep hlisted with hstays | ⟨v, rfl⟩ | ⟨v, x, f, now, rfl, rfl | ⟨u, rfl⟩⟩
  · exact hstays
  · obtain ⟨hactive, hstack, -⟩ := step_call hstep
    have hfree := hplaced.active_free hactive (by simp [hstack]) (.wait q)
    exact absurd hwaits (by simp [hfree])
  · obtain ⟨-, rest, hstack⟩ := step_exec hstep
    have hfree := hplaced.held_free (t := v) (f := .detach (.worker n)) (by simp [hstack]) rfl (.wait q)
    exact absurd hwaits (by simp [hfree])
  · obtain ⟨hx, rest, hstack⟩ := step_exec hstep
    have hmem : .terminateRemove u (.worker n) ∈ (s.thread v).stack := by simp [hstack]
    obtain rfl : .worker n = x := hs.orderly.shape.frames v x hx _ hmem
    have hterm : (s.ctx (.worker n)).terminated := hs.departing.recorded v _ _ hx hmem rfl
    have hslot : 0 < s.places (.worker n) (.slot .terminated) := State.slot_terminated_pos.mpr hterm
    have hplace := (hplaced.exclusive (.worker n)).eq_of_pos hslot hwaits
    simp at hplace

/-- A worker that gives its place up goes on doing so, frame by frame, until the switch. -/
theorem FrameStep.givesUp {f : Frame T} {r : Rest T} (hframe : FrameStep s t (.worker n) now f r)
    (hof : f.Of (.worker n)) (hf : f.givesUp) : ∃ g ∈ r.2, g.givesUp := by
  cases hframe with
  | @pop f u k y rest hcase hqueue =>
    rcases hcase with rfl | ⟨rfl, -⟩ <;> exact ⟨_, List.mem_cons_self, hf⟩
  | @popEmpty f u hcase hqueue =>
    have hdispatcher : Ctx.dispatcher u = .worker n := by rcases hcase with rfl | ⟨rfl, -⟩ <;> exact hof
    simp at hdispatcher
  | pickReady hpolicy hready | pickReadyEmpty hpolicy hready | attachResume hu hmtx =>
    exact ⟨_, List.mem_cons_self, hf⟩
  | _ => simp [Frame.givesUp] at hf

/-- A worker that is active and does not give its place up is listed. -/
theorem Custody.running_step (h : Custody s) (hs : Shared s) (he : e.keepsPlaces)
    (hstep : step s e = some s') (hactive' : (s'.thread t).active = some (.worker n))
    (hstays : ∀ f ∈ (s'.thread t).stack, f.givesUp = false) : Listed s' (.worker n) := by
  by_cases hte : t = e.thread
  · cases step_inv hstep with
    | @call t' x op r hactive hstack huser hop =>
      obtain rfl : t = t' := hte
      have hactive : (s.thread t).active = some (.worker n) := by simpa [hop.thread] using hactive'
      have hlisted := h.running t n hactive (by simp [hstack])
      rcases listed_of_active h hs he hstep hactive hlisted with hnew | hyield | ⟨u, now, hremove⟩
      · exact hnew
      · obtain ⟨-, -, rfl⟩ : t = t ∧ x = .worker n ∧ op = .yield := by simpa using hyield
        cases hop with
        | yield hu =>
          have hgives := hstays (.pickNext _ (some (.resumeReady x))) (by simp [yield]; rfl)
          simp [Frame.givesUp, switchOf, Switch.keeps] at hgives
      · simp at hremove
    | @frame t' x f now rest r hactive hstack hframe =>
      obtain rfl : t = t' := hte
      have hsame : (r.1.thread t).active = (s.thread t).active := by
        refine hframe.active.resolve_right fun hdestroy => ?_
        obtain ⟨u, -, hnone⟩ := hdestroy
        simp [hnone] at hactive'
      obtain rfl : x = .worker n := by simpa [hsame, hactive] using hactive'
      have hof := hs.orderly.shape.frames t _ hactive f (by simp [hstack])
      have hkept : ∀ g ∈ (s.thread t).stack, g.givesUp = false := by
        intro g hg
        by_contra hgives
        cases List.mem_cons.mp (hstack ▸ hg) with
        | inl htop =>
          subst htop
          obtain ⟨g', hg', hgives'⟩ := hframe.givesUp hof (by simpa using hgives)
          simp [hstays g' (by simp [hg'])] at hgives'
        | inr hbelow => exact hgives (hstays g (by simp [hbelow]))
      have hlisted := h.running t n hactive hkept
      rcases listed_of_active h hs he hstep hactive hlisted with hnew | hyield | ⟨u, now', hremove⟩
      · exact hnew
      · simp at hyield
      · obtain ⟨rfl, -⟩ : f = .terminateRemove u (.worker n) ∧ now = now' := by simpa using hremove
        cases hframe with
        | pop hf | popEmpty hf => simp at hf
        | terminateRemove =>
          have hgives := hstays (.pickNext u (some .suspendWithCC)) (by simp [terminateRemove])
          simp [Frame.givesUp, switchOf, Switch.keeps] at hgives
    | @switch t' x y f k now rest stack hactive hstack htarget hc =>
      obtain rfl : t = t' := hte
      obtain rfl : y = .worker n := by simpa [switched] using hactive'
      cases f with
      | resume z k' =>
        obtain ⟨rfl, -⟩ : z = .worker n ∧ k' = k := by simpa [Frame.target] using htarget
        obtain ⟨u, hu, hmem⟩ := h.resuming t n k' (by simp [hstack])
        exact ⟨u, by simpa using hu, hmem⟩
      | _ => simp [Frame.target] at htarget
  · have hthread := step_thread_of_ne hstep hte
    rw [hthread] at hactive' hstays
    have hlisted := h.running t n hactive' hstays
    rcases listed_of_active h hs he hstep hactive' hlisted with hnew | hyield | ⟨u, now, hremove⟩
    · exact hnew
    · simp [hyield, Event.thread] at hte
    · simp [hremove, Event.thread] at hte

/-- A worker is in the hand of a switch only after it was attached. -/
theorem Custody.resuming_step (h : Custody s) (hs : Shared s) (he : e.keepsPlaces)
    (hstep : step s e = some s') {k : Switch T} (hg : .resume (.worker n) k ∈ (s'.thread t).stack) :
    Listed s' (.worker n) := by
  rcases hs.orderly.shape.frame_origin hstep hg rfl (by simp) with ⟨hold, hbelow⟩ |
    ⟨x, op, r, rfl, hop, rfl, hnew⟩ | ⟨x, f, now, rest, r, rfl, hactive, hstack, hframe, rfl, hnew⟩
  · exact listed_of_held h hs he hstep hold rfl hbelow (h.resuming t n k hold)
  · cases hop with
    | start launch => cases launch <;> simp [start] at hnew
    | _ => simp [yield, waitUntil, terminate, destructor] at hnew
  · cases hframe with
    | schedule hu | wake hu | scheduleOn =>
      rcases schedule_cases s _ _ with ⟨-, hr⟩ | ⟨-, -, hr⟩ <;> rw [hr] at hnew <;> simp at hnew
    | @pop f u k' y rest' hcase hqueue =>
      obtain ⟨rfl, -⟩ : .worker n = y ∧ k = switchOf u k' := by simpa using hnew
      simpa [Ctx.isPinned] using (hs.homed.queued u (.worker n) (by simp [hqueue])).1
    | @attachResume u y k' hu hmtx =>
      obtain ⟨rfl, -⟩ : .worker n = y ∧ k = k' := by simpa using hnew
      exact ⟨u, by simp [workerQueuePush], by simp [workerQueuePush]⟩
    | @save prev k' stack hfctx => cases k' <;> simp [Switch.onTop] at hnew
    | @relock q l p z hl => cases p <;> simp [relockNext] at hnew
    | @notifyOne q z queue hwaits | @notifyOneEmpty q hwaits | @notifyAllEmpty q hwaits =>
      cases q <;> simp [WaitQueue.afterNotify] at hnew
    | _ => simp [iterate, terminateRemove, destroy] at hnew

/-- A waiting worker is listed. -/
theorem Custody.waiting_step (h : Custody s) (hs : Shared s) (he : e.keepsPlaces)
    (hstep : step s e = some s') {q : WaitQueue T} (hy : .worker n ∈ s'.waits q) :
    Listed s' (.worker n) := by
  have hold : .worker n ∈ s.waits q → Listed s' (.worker n) := fun hmem =>
    listed_of_waits h hs he hstep hmem (h.waiting q n hmem)
  cases step_inv hstep with
  | call hactive hstack huser hop => exact hold (by simpa [hop.waits] using hy)
  | @frame t x f now rest r hactive hstack hframe =>
    cases hframe.waited (by simpa using hy) with
    | inl hmem => exact hold hmem
    | inr hf =>
      subst hf
      have hmem : .suspendAndWait q (.worker n) ∈ (s.thread t).stack := by simp [hstack]
      obtain rfl : .worker n = x := hs.orderly.shape.frames t x hactive _ hmem
      have hsettled := settled_of_pairwise (hstack ▸ hs.orderly.shape.below t) rfl
      have hlisted := h.running t n hactive fun g hg => by
        cases List.mem_cons.mp (hstack ▸ hg) with
        | inl htop => exact htop ▸ rfl
        | inr hbelow => exact Frame.givesUp_of_settled (hsettled g hbelow)
      rcases listed_of_active h hs he hstep hactive hlisted with hnew | hyield | ⟨u, now, hremove⟩
      · exact hnew
      · simp at hyield
      · simp at hremove
  | switch hactive hstack htarget hc => exact hold hy

/-- A worker that terminated is on its way out of its `workerQueue_`, or in none. -/
theorem Custody.removed_step (h : Custody s) (hs : Shared s) (hstep : step s e = some s')
    (hterm' : (s'.ctx (.worker n)).terminated) :
    (∃ t, ∃ f ∈ (s'.thread t).stack, f.removes = some (.worker n)) ∨
      ∀ u, .worker n ∉ (s'.sched u).workerQueue := by
  rcases step_terminates hstep hterm' with hterm | ⟨t, rfl⟩
  · rcases h.removed n hterm with ⟨t, f, hf, hremoves⟩ | hout
    · by_cases hte : e.thread = t
      · obtain ⟨g, rest, hstack⟩ := List.exists_cons_of_ne_nil (List.ne_nil_of_mem hf)
        obtain ⟨x, now, rfl, hactive, ⟨r, hframe, rfl⟩ | ⟨y, k, stack, htarget, hc, rfl⟩⟩ :=
          step_top hstep hte hstack
        · cases List.mem_cons.mp (hstack ▸ hf) with
          | inr hbelow => exact .inl ⟨t, f, by simp [hbelow], hremoves⟩
          | inl htop =>
            subst htop
            have hof := hs.orderly.shape.frames t x hactive f hf
            cases hframe with
            | pop hcase | popEmpty hcase =>
              rcases hcase with rfl | ⟨rfl, -⟩ <;> exact absurd hremoves (by simp [Frame.removes])
            | @schedulerTerminate u y hu hmtx =>
              exact .inl ⟨t, .terminateRemove u y, by simp, hremoves⟩
            | @terminateRemove u y =>
              obtain rfl : y = .worker n := by simpa [Frame.removes] using hremoves
              obtain rfl : .worker n = x := hof
              right
              intro v
              by_cases hvu : v = u
              · subst hvu
                simp [terminateRemove]
              · -- the other schedulers never listed it
                have hu : u = t := hs.homed.frames t _ hf
                have hsched := hs.homed.active t _ hactive
                intro hmem
                have hv := h.own n v (by simpa [terminateRemove, hvu] using hmem)
                exact hvu (Option.some.inj (hv.symm.trans (hu ▸ hsched)))
            | _ => exact absurd hremoves (by simp [Frame.removes])
        · exfalso
          obtain ⟨hinner, -⟩ :=
            Frame.of_target htarget (hs.orderly.shape.frames t x hactive g (by simp [hstack]))
          cases List.mem_cons.mp (hstack ▸ hf) with
          | inl htop =>
            cases f <;> simp [Frame.removes] at hremoves <;> simp [← htop, Frame.target] at htarget
          | inr hbelow =>
            have hsettled := settled_of_pairwise (hstack ▸ hs.orderly.shape.below t) hinner f hbelow
            cases f <;> simp [Frame.removes] at hremoves <;> simp [Frame.isSettled] at hsettled
      · exact .inl ⟨t, f, (step_thread_of_ne hstep (Ne.symm hte)).symm ▸ hf, hremoves⟩
    · right
      intro u hmem
      refine hout u ((step_enters hstep hmem).resolve_right ?_)
      exact not_attached hs.orderly.placed hstep (State.slot_terminated_pos.mpr hterm)
  · obtain ⟨-, -, r, hop, rfl⟩ := step_call hstep
    cases hop with
    | terminate hpin =>
      exact .inl ⟨t, .schedulerTerminate (.worker n), by simp [terminate], rfl⟩

/-- A loose worker that is not attached stays without a scheduler. -/
theorem scheduler_stays_none (h : Custody s) (he : e.keepsPlaces) (hstep : step s e = some s')
    (hnone : (s.ctx (.worker n)).scheduler = none) (hnot : ¬ e.attaches (.worker n)) :
    (s'.ctx (.worker n)).scheduler = none := by
  rcases step_scheduler h he hstep n with hsame | hattach | ⟨hdetached, -⟩
  · exact hsame.trans hnone
  · exact absurd hattach hnot
  · exact hdetached

/-- Which contexts come onto the static queue, or back from it. -/
theorem FrameStep.loose {f : Frame T} {r : Rest T} (hframe : FrameStep s t x now f r) {g : Frame T}
    (hg : g ∈ r.2) (hy : g.loose = some y) : f = .detach y ∨ y ∈ s.readyQueue := by
  cases hframe with
  | detachAsync | detach =>
    obtain rfl := List.mem_singleton.mp hg
    obtain rfl := Option.some.inj hy
    exact .inl rfl
  | @pickReady u k z rest hpolicy hready =>
    obtain rfl := List.mem_singleton.mp hg
    obtain rfl := Option.some.inj hy
    exact .inr (by simp [hready])
  | schedule hu | wake hu | scheduleOn =>
    rcases schedule_cases s _ _ with ⟨-, hr⟩ | ⟨-, -, hr⟩ <;> rw [hr] at hg
    · simp at hg
    · obtain rfl := List.mem_singleton.mp hg
      simp [Frame.loose] at hy
  | @save prev k stack hfctx =>
    cases k <;> simp [Switch.onTop] at hg
    all_goals simp [hg, Frame.loose] at hy
  | @relock q l p z hl =>
    cases p <;> simp [relockNext] at hg
    simp [hg, Frame.loose] at hy
  | @notifyOne q z queue hwaits | @notifyAll q z queue hwaits =>
    cases q <;> simp [WaitQueue.afterNotify] at hg <;> rcases hg with rfl | rfl <;> simp [Frame.loose] at hy
  | @notifyOneEmpty q hwaits | @notifyAllEmpty q hwaits =>
    cases q <;> simp [WaitQueue.afterNotify] at hg
    simp [hg, Frame.loose] at hy
  | waitPredFalse hp | procSleepDue hsleep hdue | terminateRemove =>
    simp [Lutask.terminateRemove] at hg
    rcases hg with rfl | rfl <;> simp [Frame.loose] at hy
  | iterate =>
    simp [Lutask.iterate] at hg
    rcases hg with rfl | rfl | rfl <;> simp [Frame.loose] at hy
  | _ => simp [Lutask.destroy] at hg <;> simp [hg, Frame.loose] at hy

/-- New and ready workers have no scheduler, as long as no attached fiber is made ready. -/
theorem Custody.loose_step (h : Custody s) (hs : Shared s) (he : e.keepsPlaces)
    (hdetach : e.detachesLoose s) (hstep : step s e = some s') (hloose : Loose s' (.worker n)) :
    (s'.ctx (.worker n)).scheduler = none := by
  have hplaced := hs.orderly.placed
  rcases hloose with hunborn | hready | ⟨t, g, hg, hgl⟩
  · have hunborn' : s.started (.worker n) = false := by
      by_contra hborn
      have hstarted : s.started (.worker n) := by simpa using hborn
      have hstays : s'.started (.worker n) := by
        cases step_inv hstep with
        | call hactive hstack huser hop => exact hop.started hstarted
        | frame hactive hstack hframe => simpa [hframe.started] using hstarted
        | switch hactive hstack htarget hc => exact hstarted
      simp [hstays] at hunborn
    have hslot : 0 < s.slot (.worker n) .unborn := by simp [State.slot, hunborn']
    exact scheduler_stays_none h he hstep (h.loose n (.inl hunborn')) (not_attached hplaced hstep hslot)
  · have hold : .worker n ∈ s.readyQueue → (s'.ctx (.worker n)).scheduler = none := fun hmem =>
      scheduler_stays_none h he hstep (h.loose n (.inr (.inl hmem)))
        (not_attached hplaced hstep (State.slot_ready_pos.mpr hmem))
    cases step_inv hstep with
    | call hactive hstack huser hop => exact hold (by simpa [hop.readyQueue] using hready)
    | @frame t x f now rest r hactive hstack hframe =>
      cases hframe.readied (by simpa using hready) with
      | inl hmem => exact hold hmem
      | inr hf =>
        subst hf
        have hnone := h.loose n (.inr (.inr ⟨t, .readyPush (.worker n), by simp [hstack], rfl⟩))
        exact scheduler_stays_none h he hstep hnone id
    | switch hactive hstack htarget hc => exact hold hready
  · have hunsettled : g.isSettled = false := by cases g <;> simp [Frame.loose] at hgl <;> rfl
    have hsave : ∀ prev k, g ≠ .save prev k := by
      rintro prev k rfl
      simp [Frame.loose] at hgl
    rcases hs.orderly.shape.frame_origin hstep hg hunsettled hsave with ⟨hold, hbelow⟩ |
      ⟨x, op, r, rfl, hop, rfl, hnew⟩ | ⟨x, f, now, rest, r, rfl, hactive, hstack, hframe, rfl, hnew⟩
    · refine scheduler_stays_none h he hstep (h.loose n (.inr (.inr ⟨t, g, hold, hgl⟩))) fun hattach => ?_
      obtain ⟨v, f, rest, hv, hstack, hf⟩ := step_attaches hstep hattach
      obtain ⟨rfl, hnot⟩ := hplaced.held_once hstack (Frame.held_of_loose hf) hold (Frame.held_of_loose hgl)
      exact hnot (by simpa [hstack] using hbelow hv.symm)
    · cases hop with
      | start launch =>
        have hn : (.worker n : Ctx T) = .worker s.fresh := by
          cases launch <;> simp [start] at hnew <;> simp [hnew, Frame.loose] at hgl <;> rw [hgl]
        simp [start, hn]
      | _ =>
        simp [yield, waitUntil, terminate, destructor] at hnew <;> try rcases hnew with rfl | rfl
        all_goals simp_all [Frame.loose]
    · rcases hframe.loose hnew hgl with rfl | hmem
      · cases hframe with
        | pop hf | popEmpty hf => simp at hf
        | detachAsync hasync => exact hdetach hasync
        | detach hasync hu => simp [detachWorkerContext]
      · exact scheduler_stays_none h he hstep (h.loose n (.inr (.inl hmem)))
          (not_attached hplaced hstep (State.slot_ready_pos.mpr hmem))

/-- Every allowed step keeps the law of the `workerQueue_` members, if it calls `Detach` on no attached
fiber launched with `ELaunch::Async`. -/
theorem Custody.step (h : Custody s) (hs : Shared s) (he : e.keepsPlaces) (hdetach : e.detachesLoose s)
    (hstep : step s e = some s') : Custody s' where
  once n u := (h.once_step he hstep n u).1
  own n u := (h.once_step he hstep n u).2
  loose _ := h.loose_step hs he hdetach hstep
  running _ _ := h.running_step hs he hstep
  resuming _ _ _ := h.resuming_step hs he hstep
  waiting _ _ := h.waiting_step hs he hstep
  removed _ := h.removed_step hs hstep

end Laws

end Lutask
