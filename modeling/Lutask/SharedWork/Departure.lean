import Lutask.Machine.Enclosed

/-!
# Where a leaving context was recorded

A context that is on its way to a switch is still the active one, and another thread may already find
it in a wait queue. As long as nobody joins, what keeps other threads from taking it there is
the mutex of the condition variable, which the leaving context's own stack still holds.
-/

namespace Lutask

open LabelledRuns

variable {T : Type*}

/-- `Context::Join` is called. -/
def Op.isJoin : Op T → Bool
  | .join _ => true
  | _ => false

/-- Nobody calls `Context::Join`. -/
def Event.joinless : Event T → Prop
  | .call _ _ op => op.isJoin = false
  | .exec .. => True

instance : DecidablePred (Event.joinless (T := T))
  | .call _ _ op => inferInstanceAs (Decidable (op.isJoin = false))
  | .exec .. => .isTrue trivial

/-- The switch by which a context leaves, once it started to. -/
def Frame.wayOut : Frame T → Option (Switch T)
  | .schedulerTerminate _ | .terminateRemove .. => some .suspendWithCC
  | .destroy _ => some .resume
  | f => f.carried

theorem Frame.wayOut_of_carried {f : Frame T} {k : Switch T} (h : f.carried = some k) :
    f.wayOut = some k := by
  cases f <;> first | exact h | simp [Frame.carried] at h

/-- What the data of the library says about a context `x` that leaves by frame `f`. -/
def Frame.Recorded (s : State T) (x : Ctx T) (f : Frame T) : Prop :=
  match f.wayOut with
  | some (.resumeUnlock q) => x ∈ s.waits (.cv q)
  | some .resume => s.parked x
  | some .suspendWithCC => (s.ctx x).terminated
  | _ => True

/-- Every leaving context is recorded, and no context waits for another one. -/
structure Departing (s : State T) : Prop where
  recorded : ∀ t x f, (s.thread t).active = some x → f ∈ (s.thread t).stack → f.leaves → f.Recorded s x
  joinless : ∀ t f, f ∈ (s.thread t).stack → f.joins = none

theorem Departing.initial (policy : T → Policy) : Departing (State.initial policy) where
  recorded t x f _ hf := by simp [State.initial] at hf
  joinless t f hf := by simp [State.initial] at hf

/-- A record remains as long as its entry does. -/
theorem Frame.Recorded.mono {s s' : State T} {x : Ctx T} {f : Frame T} (h : f.Recorded s x)
    (hwait : ∀ q, f.wayOut = some (.resumeUnlock q) → x ∈ s.waits (.cv q) → x ∈ s'.waits (.cv q))
    (hterm : (s.ctx x).terminated → (s'.ctx x).terminated) (hpark : s.parked x → s'.parked x) :
    f.Recorded s' x := by
  unfold Frame.Recorded at *
  split at h
  · exact hwait _ ‹_› h
  · exact hpark h
  · exact hterm h
  · trivial

variable [DecidableEq T] {s : State T} {t : T} {x : Ctx T} {now : ℕ}

/-- A recorded context that leaves occupies a slot. -/
theorem Frame.Recorded.slot {f : Frame T} (h : f.Recorded s x) (hleaves : f.leaves) :
    ∃ a, 0 < s.slot x a := by
  unfold Frame.Recorded at h
  split at h
  · rename_i q _
    exact ⟨.wait (.cv q), by simpa [State.slot, List.count_pos_iff] using h⟩
  · exact ⟨.parked, by simp [State.slot, h]⟩
  · exact ⟨.terminated, by simp [State.slot, h]⟩
  · cases f with
    | pickNext u k | pickLocal u k =>
      rcases k with _ | (_ | _ | _ | _) <;>
        simp_all [Frame.leaves, Frame.wayOut, Frame.carried, switchOf, Switch.leaves]
    | attachResume y k | resume y k =>
      cases k <;> simp_all [Frame.leaves, Frame.wayOut, Frame.carried, Switch.leaves]
    | suspend q y => cases q <;> simp_all [Frame.wayOut, Frame.carried, WaitQueue.switch]
    | _ => simp_all [Frame.leaves, Frame.wayOut, Frame.carried]

/-- A parked main context stays parked. -/
theorem OpStep.parked {op : Op T} {r : Rest T} (h : OpStep s x op r) {y : Ctx T} (hy : s.parked y) :
    r.1.parked y := by
  cases y with
  | main v =>
    have hv : (s.sched v).shutdown := hy
    rcases h.closing with ⟨u, -, -, hset, hothers⟩ | ⟨-, hsame⟩
    · by_cases hvu : v = u
      · simpa [State.parked, hvu] using hset
      · simpa [State.parked, hothers v hvu] using hv
    · simpa [State.parked, hsame] using hv
  | dispatcher v | worker n => simp [State.parked] at hy

theorem FrameStep.parked {f : Frame T} {r : Rest T} (h : FrameStep s t x now f r) (y : Ctx T) :
    r.1.parked y = s.parked y := by
  cases y <;> simp [State.parked, h.shutdown]

/-- The call by which a context leaves records it. -/
theorem OpStep.recorded {op : Op T} {r : Rest T} (h : OpStep s x op r) :
    ∀ f ∈ r.2, f.leaves → f.Recorded r.1 x := by
  cases h with
  | start launch => cases launch <;> simp [Lutask.start, Frame.leaves, Switch.leaves]
  | destructor hx =>
    subst hx
    simp [Lutask.destructor, Frame.leaves, Frame.Recorded, Frame.wayOut, Frame.carried, switchOf,
      State.parked]
  | _ => simp [Lutask.yield, Lutask.waitUntil, Lutask.terminate, Frame.leaves, Frame.Recorded,
      Frame.wayOut, Frame.carried, switchOf, Switch.leaves]

/-- A frame by which the active context starts to leave records it, and one by which it goes on
leaving keeps the record. -/
theorem FrameStep.recorded {f : Frame T} {r : Rest T} (h : FrameStep s t x now f r) (hof : f.Of x)
    (hjoin : f.joins = none) (hexit : f.exits s = false)
    (hf : f.leaves → f.Recorded s x) : ∀ g ∈ r.2, g.leaves → g.Recorded r.1 x := by
  by_cases hway : f.leaves ∧ ∃ k, f.carried = some k
  · obtain ⟨hleaves, k, hk⟩ := hway
    obtain ⟨g, hg, -, hcarried⟩ := h.carried hleaves hk
    have hrec := hf hleaves
    have hsame : f.Recorded r.1 x := hrec.mono (fun q _ hwait => by
        rcases h.waits hwait with hkeep | rfl | rfl
        · exact hkeep
        · simp [Frame.leaves] at hleaves
        · simp [Frame.leaves] at hleaves)
      (by rw [h.terminated]; exact id) (by rw [h.parked]; exact id)
    rw [hg]
    rintro g' hg' -
    obtain rfl : g' = g := by simpa using hg'
    simpa only [Frame.Recorded, Frame.wayOut_of_carried hcarried, Frame.wayOut_of_carried hk] using hsame
  · cases h with
    | schedule hu | wake hu | scheduleOn =>
      rcases schedule_cases s _ _ with ⟨-, hr⟩ | ⟨-, -, hr⟩ <;> rw [hr] <;> simp [Frame.leaves]
    | pop hcase hqueue | popEmpty hcase hqueue =>
      rcases hcase with rfl | ⟨rfl, -⟩ <;> simp_all [Frame.leaves, Frame.carried]
    | @save prev k stack hfctx => cases k <;> simp [Switch.onTop, Frame.leaves]
    | @relock q l p y hl => cases p <;> simp [relockNext, Frame.leaves]
    | @notifyOne q y rest hwaits | @notifyOneEmpty q hwaits | @notifyAllEmpty q hwaits =>
      cases q <;> simp [WaitQueue.afterNotify, Frame.leaves]
    | @suspendAndWait q y =>
      obtain rfl : y = x := hof
      cases q with
      | cv q => simp [WaitQueue.switch, Frame.Recorded, Frame.wayOut, Frame.carried]
      | waitList w => simp [Frame.joins] at hjoin
    | exit hworkers => simp [Frame.exits, hworkers] at hexit
    | @schedulerTerminate u y hu hmtx | @terminateRemove u y =>
      have hterm : (s.ctx x).terminated := hf rfl
      simp [Frame.Recorded, Frame.wayOut, Frame.carried, Frame.leaves, switchOf, Lutask.terminateRemove,
        hterm]
    | _ => simp_all [Lutask.iterate, Lutask.destroy, Frame.leaves, Frame.carried, switchOf, Switch.leaves]

/-- Every step keeps the records of the leaving contexts. -/
theorem Departing.step {s' : State T} {e : Event T} (h : Departing s) (ho : Orderly s)
    (hjoin : e.joinless) (hexit : ¬ e.exits s) (hstep : step s e = some s') : Departing s' := by
  have hjoinless : ∀ v, ∀ f ∈ (s'.thread v).stack, f.joins = none := by
    refine ho.shape.frames_step h.joinless hstep (fun f hf => ?_) (fun _ _ => rfl)
      (fun v x op r hcall hop f hf => ?_) fun _ _ _ _ _ _ _ hframe => hframe.joins
    · cases f <;> simp [Frame.isSettled] at hf <;> rfl
    · by_contra hjoins
      obtain ⟨w, hw⟩ := Option.ne_none_iff_exists'.mp hjoins
      obtain ⟨rfl, -⟩ := hop.joins hf hw
      subst hcall
      simp [Event.joinless, Op.isJoin] at hjoin
  refine ⟨?_, hjoinless⟩
  cases step_inv hstep with
  | @call t x op r hactive hstack huser hop =>
    intro v y f hy hf hleaves
    by_cases hvt : v = t
    · subst hvt
      obtain rfl : x = y := by simpa [hop.thread, hactive] using hy
      exact hop.recorded f (by simpa using hf) hleaves
    · simp only [State.setStack_thread_of_ne _ hvt, hop.thread] at hy hf
      have hstarted := (ho.continued.busy v y (.inl hy)).1
      have hrec : f.Recorded r.1 y := (h.recorded v y f hy hf hleaves).mono
        (fun q _ hq => by rwa [hop.waits]) (hop.terminated hstarted) hop.parked
      exact hrec
  | @frame t x f now rest r hactive hstack hframe =>
    have hmem : f ∈ (s.thread t).stack := by simp [hstack]
    -- the owner of the mutex is the only one that notifies
    have hkeep : ∀ v y g, g ∈ (s.thread v).stack → (v = t → g ∈ rest) → g.Recorded s y →
        g.Recorded r.1 y := by
      intro v y g hg hbelow hrec
      refine hrec.mono (fun q hway hq => ?_) (by rw [hframe.terminated]; exact id)
        (by rw [hframe.parked]; exact id)
      refine (hframe.waits hq).resolve_right fun hnotify => ?_
      have hcarried : g.carried = some (.resumeUnlock q) := by
        cases g <;> first | exact hway | simp [Frame.wayOut] at hway
      have hf : f.releases q := by
        rcases hnotify with rfl | rfl <;> simp [Frame.releases]
      obtain ⟨-, rfl⟩ := ho.locked.top hstack hf hg (Frame.releases_of_carried hcarried)
      rcases hnotify with rfl | rfl <;> simp [Frame.carried] at hcarried
    intro v y g hy hg hleaves
    by_cases hvt : v = t
    · subst hvt
      simp only [State.setStack_thread_self] at hy hg
      have hsame : (r.1.thread v).active = (s.thread v).active := by
        cases hframe.active with
        | inl hsame => exact hsame
        | inr hnone => simp [hnone.choose_spec.2] at hy
      obtain rfl : x = y := by simpa [hsame, hactive] using hy
      rcases List.mem_append.mp hg with hnew | hold
      · exact hframe.recorded (ho.shape.frames v x hactive f hmem) (h.joinless v f hmem)
          (by simpa [Event.exits] using hexit) (h.recorded v x f hactive hmem) g hnew hleaves
      · have hgmem : g ∈ (s.thread v).stack := by simp [hstack, hold]
        exact hkeep v x g hgmem (fun _ => hold) (h.recorded v x g hactive hgmem hleaves)
    · simp only [State.setStack_thread_of_ne _ hvt, hframe.thread_of_ne hvt] at hy hg
      exact hkeep v y g hg (fun hvt' => absurd hvt' hvt) (h.recorded v y g hy hg hleaves)
  | @switch t x y f k now rest stack hactive hstack htarget hc =>
    have hresumed := ho.shape.suspended y stack hc
    intro v z g hz hg hleaves
    by_cases hvt : v = t
    · subst hvt
      obtain rfl : y = z := by simpa [switched] using hz
      rcases List.mem_cons.mp (by simpa [switched] using hg) with rfl | hold
      · simp [Frame.leaves] at hleaves
      · obtain ⟨u, rfl⟩ := Frame.destroy_of_settled (hresumed g hold).1 hleaves
        obtain rfl : y = .main u := (hresumed _ hold).2
        cases hshut : (s.sched u).shutdown with
        | true => exact hshut
        | false => exact absurd hold (ho.placed.closing.leftOpen u stack (.inl hc) hshut)
    · simp only [switched, State.setThread_thread, Function.update_of_ne hvt] at hz hg
      have hrec : g.Recorded s z := h.recorded v z g hz hg hleaves
      refine hrec.mono (fun q _ hq => hq) (fun hterm => ?_) id
      by_cases hzy : z = y
      · simpa [switched, hzy] using hzy ▸ hterm
      · simpa [switched, hzy] using hterm

end Lutask
