import Mathlib.Data.List.Chain
import Lutask.Dispatcher.Loop

/-!
# The grammar of the stacks

Which frame may lie directly below which. A stack is a chain of this relation in every run, whatever
the operations, the policies and the interleaving are. So a suspended context has at most one frame to
go back to, a thread executes at most one notification at a time, and the frames of the dispatcher's loop
lie on nothing.
-/

namespace Lutask

open LabelledRuns

variable {T : Type*}

/-- The frames of the functions that make a context ready. -/
def Frame.readies : Frame T → Bool
  | .schedule _ | .scheduleOn .. | .wake _ | .detach _ | .readyPush _ => true
  | _ => false

/-- The frames that never lie on another one. -/
def Frame.isBottom : Frame T → Bool
  | .relock .. | .unlockMtx _ | .destroy _ | .dispatch _ | .exitTest _ | .iterate _ | .returnToMain _
  | .waitPred .. | .schedulerTerminate _ | .terminateRemove .. => true
  | _ => false

/-- `g` may lie directly below `f`: a notification and the timer pass wait for a context to become ready,
`Context::Terminate` for its notification, and one turn of the dispatcher's loop for its timer pass. -/
def Frame.On (f g : Frame T) : Prop :=
  f.isBottom = false ∧
    match g with
    | .unlockM _ | .notifyAll _ | .procSleep .. => f.readies
    | .schedulerTerminate _ => ∃ x, f = .notifyAll (.waitList x)
    | .pickNext _ none => ∃ u n, f = .procSleep u n
    | g => g.isSettled

/-- The stacks of all threads and contexts are chains. -/
structure Scripted (s : State T) : Prop where
  running : ∀ t, (s.thread t).stack.IsChain Frame.On
  left : ∀ x stack, s.Left x stack → stack.IsChain Frame.On

/-- A settled frame lies on nothing. -/
theorem Frame.isBottom_of_settled {f : Frame T} (h : f.isSettled) : f.isBottom := by
  cases f <;> simp [Frame.isSettled] at h <;> rfl

/-- A frame lies on a settled one unless it waits there for a context to become ready, or belongs to
`Context::Terminate` or the timer pass. -/
theorem Frame.On.settled {f g : Frame T} (h : f.On g) (hf : f.readies = false)
    (hall : ∀ q, f ≠ .notifyAll q) (hsleep : ∀ u n, f ≠ .procSleep u n) : g.isSettled := by
  obtain ⟨-, h⟩ := h
  cases g with
  | pickNext u k => cases k <;> simp_all [Frame.isSettled]
  | schedulerTerminate x =>
    obtain ⟨y, rfl⟩ := h
    simp at hall
  | unlockM q | notifyAll q | procSleep u n => simp [hf] at h
  | _ => simp_all [Frame.isSettled]

/-- What can lie below the frames that make a context ready can lie below all of them. -/
theorem Frame.On.replace {f f' g : Frame T} (h : f.On g) (hf : f'.isBottom = false)
    (hreadies : f'.readies) (hall : ∀ q, f ≠ .notifyAll q) (hsleep : ∀ u n, f ≠ .procSleep u n) :
    f'.On g := by
  obtain ⟨-, h⟩ := h
  refine ⟨hf, ?_⟩
  cases g with
  | pickNext u k => cases k <;> simp_all
  | schedulerTerminate x =>
    obtain ⟨y, rfl⟩ := h
    simp at hall
  | unlockM q | notifyAll q | procSleep u n => exact hreadies
  | _ => simp_all

/-- A settled frame may lie below every frame that lies on something. -/
theorem Frame.on_settled {f g : Frame T} (hf : f.isBottom = false) (hg : g.isSettled) : f.On g := by
  refine ⟨hf, ?_⟩
  cases g <;> simp [Frame.isSettled] at hg <;> rfl

/-- Only something that lies on nothing is at the bottom. -/
theorem below_bottom {f : Frame T} {rest : List (Frame T)} (h : (f :: rest).IsChain Frame.On)
    (hf : f.isBottom) : rest = [] := by
  cases rest with
  | nil => rfl
  | cons g rest => simp [Frame.On, hf] at h

/-- A chain of settled frames has one frame at most. -/
theorem length_of_settled {stack : List (Frame T)} (h : stack.IsChain Frame.On)
    (hsettled : ∀ f ∈ stack, f.isSettled) : stack.length ≤ 1 := by
  cases stack with
  | nil => simp
  | cons f rest => simp [below_bottom h (Frame.isBottom_of_settled (hsettled f (by simp)))]

/-- Below a frame that does not make a context ready there are settled frames only, unless it is a loop of
notifications or of the timer pass. -/
theorem Scripted.rest_settled {s : State T} (h : Scripted s) {t : T} {f : Frame T} {rest : List (Frame T)}
    (hstack : (s.thread t).stack = f :: rest) (hreadies : f.readies = false)
    (hall : ∀ q, f ≠ .notifyAll q) (hsleep : ∀ u n, f ≠ .procSleep u n) : ∀ g ∈ rest, g.isSettled := by
  have hchain := hstack ▸ h.running t
  cases rest with
  | nil => simp
  | cons g rest =>
    obtain ⟨hon, hrest⟩ := List.isChain_cons_cons.mp hchain
    have hg := hon.settled hreadies hall hsleep
    simpa [below_bottom hrest (Frame.isBottom_of_settled hg)] using hg

theorem Scripted.initial (policy : T → Policy) : Scripted (State.initial policy) where
  running t := by simp [State.initial]
  left x stack h := by
    rcases h with h | ⟨t, k, rest, h, -⟩
    · obtain rfl | ⟨u, rfl⟩ : stack = [] ∨ ∃ u, stack = [.dispatch u] := by
        cases x <;> simp_all [State.initial, Context.initial, eq_comm]
      · simp
      · simp
    · simp [State.initial] at h

variable [DecidableEq T] {s s' : State T} {t : T} {x : Ctx T} {now : ℕ} {f : Frame T} {op : Op T}
  {r : Rest T} {e : Event T}

/-- Every operation starts with a chain. -/
theorem OpStep.chain (h : OpStep s x op r) : r.2.IsChain Frame.On := by
  cases h with
  | start launch => cases launch <;> simp [Lutask.start]
  | _ => simp [Lutask.yield, Lutask.waitUntil, Lutask.terminate, Lutask.destructor, Frame.On,
      Frame.isBottom, Frame.isSettled]

/-- What a frame leaves to execute makes a chain with what lies below it. -/
theorem FrameStep.chain (h : FrameStep s t x now f r) {rest : List (Frame T)}
    (hchain : (f :: rest).IsChain Frame.On) : (r.2 ++ rest).IsChain Frame.On := by
  by_cases hbottom : f.isBottom
  · -- nothing lies below
    rw [below_bottom hchain hbottom, List.append_nil]
    cases h with
    | pop hf | popEmpty hf => rcases hf with rfl | ⟨rfl, -⟩ <;> simp
    | @relock q l p y hl => cases p <;> simp [relockNext]
    | _ => first
      | simp [Frame.isBottom] at hbottom; done
      | simp [Lutask.terminateRemove, Lutask.iterate, Lutask.destroy, Frame.On, Frame.isBottom,
          Frame.isSettled]
  rw [Bool.not_eq_true] at hbottom
  -- the last frame that is left lies where this one lay
  have hkeeps : ∀ f' : Frame T, (∀ g, f.On g → f'.On g) → (f' :: rest).IsChain Frame.On := by
    intro f' hon
    cases rest with
    | nil => simp
    | cons g rest =>
      obtain ⟨hg, hrest⟩ := List.isChain_cons_cons.mp hchain
      exact List.isChain_cons_cons.mpr ⟨hon g hg, hrest⟩
  by_cases hreadies : f.readies
  · have hreplace : ∀ f' : Frame T, f'.isBottom = false → f'.readies → (f' :: rest).IsChain Frame.On :=
      fun f' hf hr => hkeeps f' fun g hg => hg.replace hf hr
        (by rintro q rfl; simp [Frame.readies] at hreadies)
        (by rintro u n rfl; simp [Frame.readies] at hreadies)
    cases h with
    | schedule hu | wake hu | scheduleOn =>
      rcases schedule_cases s _ _ with ⟨-, hr⟩ | ⟨-, -, hr⟩ <;> rw [hr]
      · exact hchain.tail
      · exact hreplace _ rfl rfl
    | detachAsync hasync | detach hasync hu => exact hreplace _ rfl rfl
    | readyPush => exact hchain.tail
    | pop hf | popEmpty hf => rcases hf with rfl | ⟨rfl, -⟩ <;> simp [Frame.readies] at hreadies
    | _ => simp [Frame.readies] at hreadies
  rw [Bool.not_eq_true] at hreadies
  by_cases hloop : (∃ q, f = .notifyAll q) ∨ ∃ u n, f = .procSleep u n
  · rcases hloop with ⟨q, rfl⟩ | ⟨u, n, rfl⟩
    · cases h with
      | pop hf | popEmpty hf => simp at hf
      | notifyAll hwaits =>
        exact List.isChain_cons_cons.mpr ⟨by simp [Frame.On, Frame.isBottom, Frame.readies], hchain⟩
      | notifyAllEmpty hwaits =>
        cases q with
        | waitList y => exact hchain.tail
        | cv q =>
          refine hkeeps _ fun g hg => Frame.on_settled rfl ?_
          obtain ⟨-, hg⟩ := hg
          cases g with
          | pickNext u k => cases k <;> simp_all [Frame.isSettled]
          | schedulerTerminate y | unlockM q | notifyAll q | procSleep u n => simp [Frame.readies] at hg
          | _ => simp_all [Frame.isSettled]
    · cases h with
      | pop hf | popEmpty hf => simp at hf
      | procSleepDue hsleep hdue =>
        exact List.isChain_cons_cons.mpr ⟨by simp [Frame.On, Frame.isBottom, Frame.readies], hchain⟩
      | procSleepDone hsleep => exact hchain.tail
  have hsettled : ∀ f' : Frame T, f'.isBottom = false → (f' :: rest).IsChain Frame.On := fun f' hf =>
    hkeeps f' fun g hg => Frame.on_settled hf
      (hg.settled hreadies (fun q hq => hloop (.inl ⟨q, hq⟩)) fun u n hn => hloop (.inr ⟨u, n, hn⟩))
  cases h with
  | pop hf | popEmpty hf => exact hsettled _ rfl
  | @save prev k stack hfctx =>
    cases k with
    | resumeUnlock q | resumeReady y => exact hsettled _ rfl
    | _ => exact hchain.tail
  | @notifyOne q y rest' hwaits =>
    cases q with
    | cv q =>
      have hon : (Frame.wake y).On (.unlockM q) := by simp [Frame.On, Frame.isBottom, Frame.readies]
      exact List.isChain_cons_cons.mpr ⟨hon, hsettled (.unlockM q) rfl⟩
    | waitList z => exact hsettled _ rfl
  | @notifyOneEmpty q hwaits =>
    cases q with
    | cv q => exact hsettled _ rfl
    | waitList y => exact hchain.tail
  | _ => first
    | exact hsettled _ rfl
    | exact hchain.tail
    | simp_all [Frame.readies, Frame.isBottom]

/-- Every step keeps the stacks chains: those that are left behind are what lay below a frame. -/
theorem Scripted.step (h : Scripted s) (hs : Shape s) (hstep : Lutask.step s e = some s') :
    Scripted s' where
  running v := by
    by_cases hv : v = e.thread
    · cases step_inv hstep with
      | @call t x op r hactive hstack huser hop =>
        obtain rfl : v = t := hv
        simpa using hop.chain
      | @frame t x f now rest r hactive hstack hframe =>
        obtain rfl : v = t := hv
        simpa using hframe.chain (hstack ▸ h.running v)
      | @switch t x y f k now rest stack hactive hstack htarget hc =>
        obtain rfl : v = t := hv
        have hstored := h.left y stack (.inl hc)
        suffices (Frame.save x k :: stack).IsChain Frame.On by simpa [switched] using this
        cases stack with
        | nil => simp
        | cons g below =>
          have hg := (hs.suspended y _ hc g (by simp)).1
          exact List.isChain_cons_cons.mpr ⟨Frame.on_settled rfl hg, hstored⟩
    · rw [step_thread_of_ne hstep hv]
      exact h.running v
  left y stack hy := by
    rcases step_left hs hstep hy with hold | ⟨-, rfl⟩ | ⟨v, g, -, hstack⟩
    · exact h.left y stack hold
    · simp
    · exact (hstack ▸ h.running v).tail

/-- The stacks are chains in every state that any run reaches. -/
theorem Runs.scripted {policy : T → Policy} {guard : State T → Event T → Prop} {events : List (Event T)}
    (h : Runs policy guard events s) : Scripted s := by
  have hboth := Run.invariant (I := fun s => Shape s ∧ Scripted s) h
    ⟨Shape.initial policy, Scripted.initial policy⟩
    fun _ _ _ hs _ hstep => ⟨hs.1.step hstep, hs.2.step hs.1 hstep⟩
  exact hboth.2

end Lutask
