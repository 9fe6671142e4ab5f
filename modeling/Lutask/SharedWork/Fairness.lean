import Lutask.SharedWork.Overtaking

/-!
# Nobody starves in the static queue

All threads of `SharedWorkPolicy` take contexts out of one `readyQueue_`. Whatever the threads do,
they go on to be attached and resumed in the order in which they were put into it, and every `PickNext`
hands one on as long as there is one.
-/

namespace Lutask

namespace SharedWork

open LabelledRuns Queueing

variable {T : Type*}

/-- A thread of `SharedWorkPolicy` calls `PickNext`. -/
def picks (policy : T → Policy) : Event T → Bool
  | .exec _ _ (.pickNext u _) _ => policy u = .sharedWork
  | _ => false

variable [DecidableEq T]

/-- What a call of `PickNext` hands on: the context that its thread attaches next. -/
def takes (s : State T) : Event T → List (Ctx T)
  | .exec t x (.pickNext u k) now =>
    let next := (step s (.exec t x (.pickNext u k) now)).bind fun s' => (s'.thread t).stack.head?
    (next.bind Frame.attaches).toList
  | _ => []

variable {policy : T → Policy} {guard : State T → Event T → Prop} {s₀ s s' : State T} {e : Event T}
  {before after : List (Event T)}

/-- The static queue is served from the front and joined at the back. -/
theorem step_readyQueue (hstep : step s e = some s') :
    takes s e ++ s'.readyQueue = s.readyQueue ++ e.readies.toList := by
  cases step_inv hstep with
  | call hactive hstack huser hop => simp [takes, Event.readies, hop.readyQueue]
  | @frame t x f now rest r hactive hstack hframe =>
    cases hframe with
    | @pickReady u k y queue hshared hready =>
      simp [takes, hstep, Frame.attaches, Event.readies, hready]
    | @pickReadyEmpty u k hshared hready =>
      simp [takes, hstep, Frame.attaches, Event.readies, hready]
    | @pop f u k y queue hf hqueue =>
      rcases hf with rfl | ⟨rfl, hrobin⟩
      · simp [takes, Event.readies]
      · simp [takes, hstep, Frame.attaches, Event.readies]
    | @popEmpty f u hf hqueue =>
      rcases hf with rfl | ⟨rfl, hrobin⟩
      · simp [takes, Event.readies]
      · simp [takes, hstep, Frame.attaches, Event.readies]
    | dispatchShutdown hshut =>
      simp only [notify]
      split <;> simp [takes, Event.readies]
    | _ =>
      simp [takes, Event.readies, workerQueuePush, detachWorkerContext, workerQueueRemove,
        Lutask.terminateRemove, Lutask.destroy, Lutask.iterate, procTerminated]
  | @switch t x y f k now rest stack hactive hstack htarget hc =>
    cases f with
    | resume z k' | returnToMain u => simp [takes, Event.readies, switched]
    | _ => simp [Frame.target] at htarget

/-- A work-sharing call of `PickNext` hands on a context as long as one is in the queue. -/
theorem takes_of_picks (hpolicy : ∀ u, (s.sched u).policy = policy u) (hstep : step s e = some s')
    (hpicks : picks policy e) (hready : s.readyQueue ≠ []) : (takes s e).length = 1 := by
  cases step_inv hstep with
  | call hactive hstack huser hop => simp [picks] at hpicks
  | @frame t x f now rest r hactive hstack hframe =>
    cases hframe with
    | @pickReady u k y queue hshared hqueue => simp [takes, hstep, Frame.attaches]
    | pickReadyEmpty hshared hempty => exact absurd hempty hready
    | @pop f u k y queue hf hqueue =>
      rcases hf with rfl | ⟨rfl, hrobin⟩
      · simp [picks] at hpicks
      · simp [picks, ← hpolicy, hrobin] at hpicks
    | @popEmpty f u hf hqueue =>
      rcases hf with rfl | ⟨rfl, hrobin⟩
      · simp [picks] at hpicks
      · simp [picks, ← hpolicy, hrobin] at hpicks
    | _ => simp [picks] at hpicks
  | @switch t x y f k now rest stack hactive hstack htarget hc =>
    cases f with
    | resume z k' | returnToMain u => simp [picks] at hpicks
    | _ => simp [Frame.target] at htarget

/-- The run lemma: the queue is first in, first out, and as long as not all of those that it held at
the start have been taken, every `PickNext` has handed one on. -/
theorem served_run (hpolicy : ∀ u, (s₀.sched u).policy = policy u) (hafter : Run step guard s₀ after s) :
    ((∀ u, (s.sched u).policy = policy u) ∧
        FirstInFirstOut s₀.readyQueue (readied after) s.readyQueue (observe step takes s₀ after)) ∧
      (after.countP (picks policy) ≤ (observe step takes s₀ after).length ∨
        s₀.readyQueue.length ≤ (observe step takes s₀ after).length) := by
  induction hafter with
  | nil => exact ⟨⟨hpolicy, .initial⟩, .inl (Nat.zero_le _)⟩
  | @snoc labels s s' e hrun hguard hfire ih =>
    obtain ⟨⟨hsame, hserved⟩, hcount⟩ := ih
    have htaken : observe step takes s₀ (labels ++ [e]) =
        observe step takes s₀ labels ++ takes s e := by
      rw [hrun.observe_append]
      simp [observe, hfire]
    have hqueue := step_readyQueue hfire
    refine ⟨⟨fun u => (step_policy hfire u).trans (hsame u), ?_⟩, ?_⟩
    · have hjoined := hserved.join e.readies.toList
      rw [htaken, readied_append, readied_singleton]
      exact FirstInFirstOut.serve (hqueue ▸ hjoined)
    · rw [htaken, List.length_append, List.countP_append, List.countP_singleton]
      rcases hcount with hcount | hall
      · by_cases hpicks : picks policy e
        · by_cases hless : (observe step takes s₀ labels).length < s₀.readyQueue.length
          · have hone := takes_of_picks hsame hfire hpicks (hserved.nonempty hless)
            left
            rw [if_pos hpicks]
            omega
          · exact .inr (by omega)
        · left
          rw [if_neg hpicks]
          omega
      · exact .inr (by omega)

/-- In every run of any threads the contexts are handed on in the order in which they were put into the
static queue, and one that stands behind others there is handed on at the latest by the first `PickNext`
after as many as there were others, whichever of the work-sharing threads make these calls. -/
theorem static_queue_served_in_turn (hbefore : Runs policy guard before s₀)
    (hafter : Run step guard s₀ after s) :
    observe step takes s₀ after ++ s.readyQueue = s₀.readyQueue ++ readied after ∧
      ∀ ahead x behind, s₀.readyQueue = ahead ++ x :: behind →
        ahead.length < after.countP (picks policy) → x ∈ observe step takes s₀ after := by
  obtain ⟨⟨-, hserved⟩, hcount⟩ := served_run (Runs.policy hbefore) hafter
  refine ⟨hserved, fun ahead x behind hqueue hpicks => ?_⟩
  have hlong : ahead.length < (observe step takes s₀ after).length := by
    have hlength : s₀.readyQueue.length = ahead.length + (behind.length + 1) := by simp [hqueue]
    omega
  obtain ⟨more, hmore⟩ := hserved.served_prefix
  rw [hqueue] at hmore
  have hget : (observe step takes s₀ after)[ahead.length]? = some x :=
    calc (observe step takes s₀ after)[ahead.length]?
      _ = (observe step takes s₀ after ++ more)[ahead.length]? :=
        (List.getElem?_append_left hlong).symm
      _ = some x := by simp [hmore]
  exact List.mem_of_getElem? hget

/-- Main of thread `true` starts a worker. -/
def workerReadied : List (Event Bool) :=
  [.call true (.main true) (.start .post), .exec true (.main true) (.postAttach (.worker 0)) 0,
    .exec true (.main true) (.schedule (.worker 0)) 0, .exec true (.main true) (.detach (.worker 0)) 0,
    .exec true (.main true) (.readyPush (.worker 0)) 0]

/-- Main of thread `false` yields and takes it. -/
def otherPicks : List (Event Bool) :=
  [.call false (.main false) .yield,
    .exec false (.main false) (.pickNext false (some (.resumeReady (.main false)))) 0]

theorem worker_taken_by_other_thread : ∃ s₀ s : State Bool,
    Runs (fun _ => .sharedWork) (fun _ _ => True) workerReadied s₀ ∧
      Run step (fun _ _ => True) s₀ otherPicks s ∧ s₀.readyQueue = [.worker 0] ∧
        .worker 0 ∈ observe step takes s₀ otherPicks := by
  have hplay : ((play step (fun _ _ => true) (State.initial fun _ => .sharedWork) workerReadied).bind
      fun s₀ => (play step (fun _ _ => true) s₀ otherPicks).map fun _ => s₀.readyQueue) =
        some [.worker 0] := by
    decide
  obtain ⟨s₀, hs₀, hlater⟩ := Option.bind_eq_some_iff.mp hplay
  obtain ⟨s, hs, hqueue⟩ := Option.map_eq_some_iff.mp hlater
  have hbefore : Runs (fun _ => .sharedWork) (fun _ _ => True) workerReadied s₀ :=
    Run.of_play (fun _ _ _ => trivial) hs₀
  have hafter : Run step (fun _ _ => True) s₀ otherPicks s := Run.of_play (fun _ _ _ => trivial) hs
  exact ⟨s₀, s, hbefore, hafter, hqueue,
    (static_queue_served_in_turn hbefore hafter).2 [] (.worker 0) [] hqueue (by decide)⟩

end SharedWork

end Lutask
