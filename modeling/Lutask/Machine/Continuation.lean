import Lutask.Machine.Shape

/-!
# Where continuations are saved

A context is busy on a thread while it is the active one there, and from the switch away from
it until the function on top of the resumed stack has stored its `c_`. A started context has an
empty `c_` exactly while it is busy, and it is busy on one thread at most. Like the shape of the
stacks this holds in every run.
-/

namespace Lutask

open LabelledRuns

variable {T : Type*}

/-- `x` runs on `t`, or it was just left there and its `c_` is still to be stored. -/
def State.Busy (s : State T) (t : T) (x : Ctx T) : Prop :=
  (s.thread t).active = some x ∨ ∃ k rest, (s.thread t).stack = .save x k :: rest

/-- The invariant of all `c_` members. A main context whose scheduler was deleted runs on outside
the library. -/
structure Continued (s : State T) : Prop where
  busy : ∀ t x, s.Busy t x → s.started x ∧ (s.ctx x).c = none
  empty : ∀ x, s.started x → (s.ctx x).c = none →
    (∃ t, s.Busy t x) ∨ ∃ t, x = .main t ∧ (s.sched t).deleted
  saved : ∀ x, (s.ctx x).c ≠ none → s.started x
  unique : ∀ t u x, s.Busy t x → s.Busy u x → t = u
  left : ∀ t prev k rest, (s.thread t).stack = .save prev k :: rest →
    (s.thread t).active ≠ some prev

/-- Only the main contexts are busy after the initialization. -/
theorem Continued.initial (policy : T → Policy) : Continued (State.initial policy) := by
  have hbusy : ∀ t x, (State.initial policy).Busy t x → x = .main t := by
    rintro t x (hactive | ⟨k, rest, hstack⟩)
    · exact (Option.some.inj hactive).symm
    · exact absurd hstack (by simp [State.initial])
  refine ⟨fun t x h => ?_, fun x hstart hc => ?_, fun x hc => ?_, fun t u x ht hu => ?_,
    fun t prev k rest h => ?_⟩
  · rw [hbusy t x h]
    exact ⟨rfl, rfl⟩
  · cases x with
    | main t => exact .inl ⟨t, .inl rfl⟩
    | dispatcher t => simp [State.initial, Context.initial] at hc
    | worker n => simp [State.started, State.initial] at hstart
  · cases x with
    | worker n => simp [State.initial, Context.initial] at hc
    | main t | dispatcher t => rfl
  · exact Ctx.main.inj ((hbusy t x ht).symm.trans (hbusy u x hu))
  · simp [State.initial] at h

/-- A thread without a `save` on top is busy with its active context alone. -/
theorem State.busy_iff_active {s : State T} {t : T} {x : Ctx T}
    (h : ∀ k rest, (s.thread t).stack ≠ .save x k :: rest) :
    s.Busy t x ↔ (s.thread t).active = some x := by
  refine ⟨fun hbusy => hbusy.resolve_right ?_, .inl⟩
  rintro ⟨k, rest, hstack⟩
  exact h k rest hstack

variable [DecidableEq T] {s : State T} {t : T} {x : Ctx T}

/-- A call leaves every context busy where it was. -/
theorem OpStep.busy {op : Op T} {r : Rest T} (hstack : (s.thread t).stack = [])
    (hop : OpStep s x op r) (v : T) (y : Ctx T) : (r.1.setStack t r.2).Busy v y ↔ s.Busy v y := by
  by_cases hvt : v = t
  · subst hvt
    rw [State.busy_iff_active, State.busy_iff_active]
    · simp [hop.thread]
    · simp [hstack]
    · intro k rest h
      have hframes : r.2 = .save y k :: rest := by simpa using h
      exact hop.leaves.noSave y k (by simp [hframes])
  · simp [State.Busy, State.setStack_thread_of_ne _ hvt, hop.thread]

/-- A frame executed in place leaves no `save` on top of the stack. -/
theorem FrameStep.noSave {f : Frame T} {now : ℕ} {rest : List (Frame T)} {r : Rest T} (hs : Shape s)
    (hactive : (s.thread t).active = some x) (hstack : (s.thread t).stack = f :: rest)
    (hframe : FrameStep s t x now f r) (prev : Ctx T) (k : Switch T) (rest' : List (Frame T)) :
    r.2 ++ rest ≠ .save prev k :: rest' := by
  intro h
  have hmem : Frame.save prev k ∈ r.2 ++ rest := by simp [h]
  rcases List.mem_append.mp hmem with hnew | hold
  · exact (hframe.leaves (hs.frames t x hactive f (by simp [hstack]))).noSave prev k hnew
  · exact ((List.pairwise_cons.mp (hstack ▸ hs.below t)).1 _ hold).ne_save prev k rfl

/-- A frame makes no context busy. Two frames end the occupation of a thread: `save` of the context
that was left, and the end of `~Scheduler` of the active one. -/
theorem FrameStep.busy {f : Frame T} {now : ℕ} {rest : List (Frame T)} {r : Rest T} (hs : Shape s)
    (hactive : (s.thread t).active = some x) (hstack : (s.thread t).stack = f :: rest)
    (hframe : FrameStep s t x now f r) (v : T) (y : Ctx T) :
    ((r.1.setStack t (r.2 ++ rest)).Busy v y → s.Busy v y) ∧
      (s.Busy v y → (r.1.setStack t (r.2 ++ rest)).Busy v y ∨
        v = t ∧ ((∃ k, f = .save y k) ∨ ∃ u, f = .destroy u)) := by
  by_cases hvt : v = t
  · subst hvt
    have hnew : (r.1.setStack v (r.2 ++ rest)).Busy v y ↔ (r.1.thread v).active = some y := by
      rw [State.busy_iff_active]
      · simp
      · simpa using hframe.noSave hs hactive hstack y
    rw [hnew]
    constructor
    · intro hy
      rcases hframe.active with hsame | ⟨u, -, hnone⟩
      · exact .inl (hsame ▸ hy)
      · simp [hnone] at hy
    · rintro (hy | ⟨k, rest', htop⟩)
      · rcases hframe.active with hsame | ⟨u, rfl, -⟩
        · exact .inl (hsame ▸ hy)
        · exact .inr ⟨rfl, .inr ⟨u, rfl⟩⟩
      · obtain ⟨rfl, -⟩ := List.cons.inj (hstack.symm.trans htop)
        exact .inr ⟨rfl, .inl ⟨k, rfl⟩⟩
  · simp only [State.Busy, State.setStack_thread_of_ne _ hvt, hframe.thread_of_ne hvt]
    exact ⟨id, .inl⟩

/-- A switch makes the resumed context busy besides the one that is left. -/
theorem switched_busy {y : Ctx T} {f : Frame T} {k : Switch T} {rest stack : List (Frame T)}
    (hactive : (s.thread t).active = some x) (hstack : (s.thread t).stack = f :: rest)
    (htarget : f.target = some (y, k)) (v : T) (z : Ctx T) :
    (switched s t x rest y k stack).Busy v z ↔ s.Busy v z ∨ v = t ∧ z = y := by
  by_cases hvt : v = t
  · subst hvt
    simp only [State.Busy, switched, State.setThread_thread, Function.update_self, hactive, hstack]
    constructor
    · rintro (hy | ⟨k', rest', hx⟩)
      · exact .inr ⟨trivial, (Option.some.inj hy).symm⟩
      · obtain ⟨rfl, -⟩ := Frame.save.inj (List.cons.inj hx).1
        exact .inl (.inl rfl)
    · rintro ((hx | ⟨k', rest', hx⟩) | ⟨-, rfl⟩)
      · exact .inr ⟨k, stack, by rw [Option.some.inj hx]⟩
      · simp [(List.cons.inj hx).1, Frame.target] at htarget
      · exact .inl rfl
  · simp [State.Busy, switched, hvt]

/-- Only the end of `~Scheduler` deletes a scheduler, and nothing restores it. -/
theorem OpStep.deleted {op : Op T} {r : Rest T} (h : OpStep s x op r) (u : T) :
    (r.1.sched u).deleted = (s.sched u).deleted := by
  cases h <;> simp [Lutask.start, Lutask.yield, Lutask.waitUntil, Lutask.terminate, Lutask.destructor,
    workerQueueRemove, Function.update_apply] <;> split_ifs <;> simp_all

theorem FrameStep.deleted {f : Frame T} {now : ℕ} {r : Rest T} (h : FrameStep s t x now f r) (u : T) :
    (r.1.sched u).deleted = (s.sched u).deleted ∨ f = .destroy u ∧ (r.1.sched u).deleted := by
  cases h with
  | @destroy v =>
    by_cases huv : u = v
    · exact .inr ⟨by rw [huv], by simp [Lutask.destroy, huv]⟩
    · exact .inl (by simp [Lutask.destroy, huv])
  | _ =>
    left
    simp [workerQueuePush, detachWorkerContext, workerQueueRemove, Lutask.terminateRemove,
      Lutask.iterate, procTerminated, Function.update_apply] <;> split_ifs <;> simp_all

/-- A call keeps the law of the continuations: a new worker is suspended at its first instruction. -/
theorem Continued.call {op : Op T} {r : Rest T} (h : Continued s)
    (hactive : (s.thread t).active = some x) (hstack : (s.thread t).stack = [])
    (hop : OpStep s x op r) : Continued (r.1.setStack t r.2) := by
  have hbusy := hop.busy hstack
  refine ⟨fun v y hy => ?_, fun y hstart hc => ?_, fun y hc => ?_, fun v u y hv hu => ?_,
    fun v prev k rest hv => ?_⟩
  · have hold := h.busy v y ((hbusy v y).mp hy)
    refine ⟨hop.started hold.1, ?_⟩
    rcases hop.c y with hsame | ⟨-, rfl, -⟩
    · exact hsame.trans hold.2
    · simp [State.started] at hold
  · rcases hop.c y with hsame | ⟨-, -, hnew⟩
    · have hstartOld : s.started y := by
        refine ((hop.started_iff y).mp (by simpa using hstart)).resolve_right ?_
        rintro ⟨⟨launch, rfl⟩, rfl⟩
        cases hop
        simp [Lutask.start] at hc
      rcases h.empty y hstartOld (hsame ▸ hc) with ⟨v, hv⟩ | ⟨u, rfl, hdel⟩
      · exact .inl ⟨v, (hbusy v y).mpr hv⟩
      · exact .inr ⟨u, rfl, by simpa [hop.deleted] using hdel⟩
    · exact absurd (hnew.symm.trans hc) (by simp)
  · rcases hop.c y with hsame | ⟨⟨launch, rfl⟩, rfl, -⟩
    · exact hop.started (h.saved y (hsame ▸ hc))
    · cases hop
      simp [State.started, Lutask.start, State.setStack]
  · exact h.unique v u y ((hbusy v y).mp hv) ((hbusy u y).mp hu)
  · by_cases hvt : v = t
    · subst hvt
      have hframes : r.2 = .save prev k :: rest := by simpa using hv
      exact absurd (by simp [hframes]) (hop.leaves.noSave prev k)
    · simp only [State.setStack_thread_of_ne _ hvt, hop.thread] at hv ⊢
      exact h.left v prev k rest hv

/-- A frame keeps the law of the continuations: `save` stores the one of the context it ends to be
busy. -/
theorem Continued.frame {f : Frame T} {now : ℕ} {rest : List (Frame T)} {r : Rest T}
    (h : Continued s) (hs : Shape s) (hactive : (s.thread t).active = some x)
    (hstack : (s.thread t).stack = f :: rest) (hframe : FrameStep s t x now f r) :
    Continued (r.1.setStack t (r.2 ++ rest)) := by
  have hbusy := hframe.busy hs hactive hstack
  -- the context whose `c_` is stored is left by then, on this thread and on every other
  have hleft : ∀ y k, f = .save y k → ∀ v, ¬ (r.1.setStack t (r.2 ++ rest)).Busy v y := by
    rintro y k rfl v hv
    obtain rfl : t = v := h.unique t v y (.inr ⟨k, rest, hstack⟩) ((hbusy v y).1 hv)
    rw [State.busy_iff_active (by simpa using hframe.noSave hs hactive hstack y)] at hv
    rcases hframe.active with hsame | ⟨u, hf, -⟩
    · exact h.left t y k rest hstack (by simpa [hsame] using hv)
    · simp at hf
  refine ⟨fun v y hy => ?_, fun y hstart hc => ?_, fun y hc => ?_, fun v u y hv hu => ?_,
    fun v prev k rest' hv => ?_⟩
  · have hold := h.busy v y ((hbusy v y).1 hy)
    refine ⟨by simpa [hframe.started] using hold.1, ?_⟩
    rcases hframe.c y with hsame | ⟨k, hf, -, -⟩
    · exact hsame.trans hold.2
    · exact absurd hy (hleft y k hf v)
  · rcases hframe.c y with hsame | ⟨k, -, hne, hnew⟩
    · rcases h.empty y (by simpa [hframe.started] using hstart) (hsame ▸ hc) with ⟨v, hv⟩ | ⟨u, rfl, hdel⟩
      · rcases (hbusy v y).2 hv with hv | ⟨rfl, ⟨k, rfl⟩ | ⟨u, rfl⟩⟩
        · exact .inl ⟨v, hv⟩
        · cases hframe with
          | pop hf | popEmpty hf => simp at hf
          | save hfctx => simp at hc
        · right
          obtain rfl : x = y := by
            rcases hv with hv | ⟨k, rest', hv⟩
            · exact Option.some.inj (hactive.symm.trans hv)
            · simp [hstack] at hv
          refine ⟨u, hs.frames v x hactive (.destroy u) (by simp [hstack]), ?_⟩
          cases hframe with
          | pop hf | popEmpty hf => simp at hf
          | destroy => simp [Lutask.destroy]
      · refine .inr ⟨u, rfl, ?_⟩
        rcases hframe.deleted u with hsame | ⟨-, hdel⟩
        · simpa [hsame] using hdel
        · simpa using hdel
    · exact absurd (hnew.symm.trans hc) hne
  · simp only [State.setStack_started, hframe.started]
    rcases hframe.c y with hsame | ⟨k, rfl, -, -⟩
    · exact h.saved y (hsame ▸ hc)
    · exact (h.busy t y (.inr ⟨k, rest, hstack⟩)).1
  · exact h.unique v u y ((hbusy v y).1 hv) ((hbusy u y).1 hu)
  · by_cases hvt : v = t
    · subst hvt
      exact absurd (by simpa using hv) (hframe.noSave hs hactive hstack prev k rest')
    · simp only [State.setStack_thread_of_ne _ hvt, hframe.thread_of_ne hvt] at hv ⊢
      exact h.left v prev k rest' hv

/-- A switch keeps the law of the continuations: the resumed one was saved, so it was busy nowhere. -/
theorem Continued.switch {y : Ctx T} {f : Frame T} {k : Switch T} {rest stack : List (Frame T)}
    (h : Continued s) (hactive : (s.thread t).active = some x)
    (hstack : (s.thread t).stack = f :: rest) (htarget : f.target = some (y, k))
    (hc : (s.ctx y).c = some stack) : Continued (switched s t x rest y k stack) := by
  have hbusy : ∀ v z, (switched s t x rest y k stack).Busy v z ↔ s.Busy v z ∨ v = t ∧ z = y :=
    switched_busy hactive hstack htarget
  have hidle : ∀ v, ¬ s.Busy v y := fun v hv => by simp [(h.busy v y hv).2] at hc
  have hcs : ∀ z, z ≠ y → ((switched s t x rest y k stack).ctx z).c = (s.ctx z).c := fun z hz => by
    simp [switched, hz]
  refine ⟨fun v z hz => ?_, fun z hstart hz => ?_, fun z hz => ?_, fun v u z hv hu => ?_,
    fun v prev k' rest' hv => ?_⟩
  · rcases (hbusy v z).mp hz with hold | ⟨-, rfl⟩
    · exact ⟨(h.busy v z hold).1, by
        rw [hcs z (by rintro rfl; exact hidle v hold)]
        exact (h.busy v z hold).2⟩
    · exact ⟨h.saved z (by simp [hc]), by simp [switched]⟩
  · by_cases hzy : z = y
    · exact .inl ⟨t, (hbusy t z).mpr (.inr ⟨rfl, hzy⟩)⟩
    · rcases h.empty z hstart (hcs z hzy ▸ hz) with ⟨v, hv⟩ | hdel
      · exact .inl ⟨v, (hbusy v z).mpr (.inl hv)⟩
      · exact .inr hdel
  · by_cases hzy : z = y
    · simp [switched, hzy] at hz
    · exact h.saved z (hcs z hzy ▸ hz)
  · rcases (hbusy v z).mp hv with hv' | ⟨rfl, rfl⟩ <;> rcases (hbusy u z).mp hu with hu' | ⟨rfl, hzy⟩
    · exact h.unique v u z hv' hu'
    · exact absurd (hzy ▸ hv') (hidle v)
    · exact absurd hu' (hidle u)
    · rfl
  · by_cases hvt : v = t
    · subst hvt
      obtain ⟨⟨rfl, -⟩, -⟩ : (x = prev ∧ k = k') ∧ stack = rest' := by simpa [switched] using hv
      simp only [switched, State.setThread_thread, Function.update_self]
      rintro hyx
      exact hidle v (.inl (by rw [hactive, ← hyx]))
    · simp only [switched, State.setThread_thread, Function.update_of_ne hvt] at hv ⊢
      exact h.left v prev k' rest' hv

/-- Every step of the machine keeps the law of the continuations. -/
theorem Continued.step {s' : State T} {e : Event T} (h : Continued s) (hs : Shape s)
    (hstep : step s e = some s') : Continued s' := by
  cases step_inv hstep with
  | call hactive hstack _ hop => exact h.call hactive hstack hop
  | frame hactive hstack hframe => exact h.frame hs hactive hstack hframe
  | switch hactive hstack htarget hc => exact h.switch hactive hstack htarget hc

/-- In every state that any run reaches, exactly the busy contexts have an empty `c_`. -/
theorem Runs.continued {policy : T → Policy} {guard : State T → Event T → Prop}
    {events : List (Event T)} {s : State T} (h : Runs policy guard events s) : Continued s :=
  (Run.invariant (I := fun s => Shape s ∧ Continued s) h
    ⟨Shape.initial policy, Continued.initial policy⟩
    fun _ _ _ hs _ hstep => ⟨hs.1.step hstep, hs.2.step hs.1 hstep⟩).2

end Lutask
