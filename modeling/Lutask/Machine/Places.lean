import Lutask.Support.TokenPlacement
import Lutask.Machine.Locks

/-!
# Where a context is

A context is active on a thread, in the hand of a library function that a thread executes, in one
of the queues, terminated, parked in `~Scheduler`, or not made yet. `State.places` counts its
occurrences in each of these places. An active context that is on its way out, with a switch
that does not make it ready again, counts where it went and no longer as active.

The module says what each operation and each frame does to these numbers for one context.
-/

namespace Lutask

open TokenPlacement

variable {T : Type*}

/-- The places that are recorded in the data of the library. -/
inductive Slot (T : Type*) where
  | queue (u : T)
  | ready
  | wait (q : WaitQueue T)
  | terminated
  | parked
  | unborn
  deriving DecidableEq

/-- All places of a context. -/
inductive Place (T : Type*) where
  | active (t : T)
  | hand (t : T)
  | slot (a : Slot T)
  deriving DecidableEq

/-- The context that a library function has in its hand at a frame. -/
def Frame.held : Frame T → Option (Ctx T)
  | .postAttach y | .schedule y | .scheduleOn _ y | .wake y | .detach y | .readyPush y
  | .attachResume y _ | .resume y _ | .save _ (.resumeReady y) => some y
  | _ => none

/-- Every switch but `Resume(readyCtx)` leaves the caller wherever it was put before. -/
def Switch.leaves : Switch T → Bool
  | .resumeReady _ => false
  | _ => true

/-- A wait queue never makes its context ready by the switch. -/
@[simp] theorem WaitQueue.switch_leaves (q : WaitQueue T) : q.switch.leaves = true := by
  cases q <;> rfl

/-- The active context is on its way out and recorded elsewhere already. -/
def Frame.leaves : Frame T → Bool
  | .suspend .. | .schedulerTerminate _ | .terminateRemove .. | .returnToMain _ | .destroy _ => true
  | .pickNext u k | .pickLocal u k => (switchOf u k).leaves
  | .attachResume _ k | .resume _ k => k.leaves
  | _ => false

/-- A main context that called `~Scheduler`. -/
def State.parked (s : State T) : Ctx T → Bool
  | .main u => (s.sched u).shutdown
  | _ => false

variable [DecidableEq T]

/-- How many frames have `y` in their hand. -/
def heldIn (frames : List (Frame T)) (y : Ctx T) : ℕ :=
  frames.countP fun f => decide (f.held = some y)

@[simp] theorem heldIn_nil (y : Ctx T) : heldIn [] y = 0 := rfl

@[simp] theorem heldIn_cons (f : Frame T) (frames : List (Frame T)) (y : Ctx T) :
    heldIn (f :: frames) y = heldIn frames y + if f.held = some y then 1 else 0 := by
  simp [heldIn, List.countP_cons]

@[simp] theorem heldIn_append (frames rest : List (Frame T)) (y : Ctx T) :
    heldIn (frames ++ rest) y = heldIn frames y + heldIn rest y := by
  simp [heldIn]

/-- How often `y` is recorded in each slot. -/
def State.slot (s : State T) (y : Ctx T) : Slot T → ℕ
  | .queue u => (s.sched u).queue.count y
  | .ready => s.readyQueue.count y
  | .wait q => (s.waits q).count y
  | .terminated => (s.ctx y).terminated.toNat
  | .parked => (s.parked y).toNat
  | .unborn => (!s.started y).toNat

/-- How often `y` is in each place. -/
def State.places (s : State T) (y : Ctx T) : Place T → ℕ
  | .active t =>
    (decide ((s.thread t).active = some y) && !(s.thread t).stack.any Frame.leaves).toNat
  | .hand t => heldIn (s.thread t).stack y
  | .slot a => s.slot y a

@[simp] theorem State.places_slot (s : State T) (y : Ctx T) (a : Slot T) :
    s.places y (.slot a) = s.slot y a := rfl

theorem State.slot_queue_pos {s : State T} {y : Ctx T} {u : T} :
    0 < s.slot y (.queue u) ↔ y ∈ (s.sched u).queue := List.count_pos_iff

theorem State.slot_ready_pos {s : State T} {y : Ctx T} : 0 < s.slot y .ready ↔ y ∈ s.readyQueue :=
  List.count_pos_iff

theorem State.slot_wait_pos {s : State T} {y : Ctx T} {q : WaitQueue T} :
    0 < s.slot y (.wait q) ↔ y ∈ s.waits q := List.count_pos_iff

theorem State.slot_terminated_pos {s : State T} {y : Ctx T} :
    0 < s.slot y .terminated ↔ (s.ctx y).terminated := by
  cases h : (s.ctx y).terminated <;> simp [State.slot, h]

/-- What a function executed by `x` does to context `y` when it replaces its frames `old` by `new`:
it leaves it alone, takes it from a slot into its hand, puts it from its hand into a slot, or makes
the active context leave for a slot. Under `exits`, where a dispatcher leaves its loop, the active
context may be nowhere afterwards. -/
inductive Handling (exits : Prop) (x y : Ctx T) (old new : List (Frame T)) (before after : Slot T → ℕ) :
    Prop
  | stay (hslot : after = before) (hheld : heldIn new y = heldIn old y)
      (hleaves : y = x → new.any Frame.leaves = old.any Frame.leaves)
  | take (a : Slot T) (hslot : before = Function.update after a (after a + 1))
      (hheld : heldIn new y = heldIn old y + 1)
      (hleaves : y = x → new.any Frame.leaves = old.any Frame.leaves)
  | put (a : Slot T) (hslot : after = Function.update before a (before a + 1))
      (hheld : heldIn old y = heldIn new y + 1)
      (hleaves : y = x → new.any Frame.leaves = old.any Frame.leaves)
  | leave (a : Slot T) (hslot : after = Function.update before a (before a + 1))
      (hheld : heldIn new y = heldIn old y) (hy : y = x) (hold : old.any Frame.leaves = false)
      (hnew : new.any Frame.leaves)
  | exit (hexit : exits) (hslot : after = before) (hheld : heldIn new y = heldIn old y) (hy : y = x)
      (hold : old.any Frame.leaves = false) (hnew : new.any Frame.leaves)

section Slots

/-- The slots of `y` are unchanged if the data that records it is. -/
theorem State.slot_congr {s s' : State T} {y : Ctx T}
    (hqueue : ∀ u, (s'.sched u).queue = (s.sched u).queue) (hready : s'.readyQueue = s.readyQueue)
    (hwaits : s'.waits = s.waits) (hterm : (s'.ctx y).terminated = (s.ctx y).terminated)
    (hshut : ∀ u, (s'.sched u).shutdown = (s.sched u).shutdown)
    (hstarted : s'.started y = s.started y) : s'.slot y = s.slot y := by
  funext a
  cases a with
  | parked => cases y <;> simp [State.slot, State.parked, hshut]
  | _ => simp [State.slot, hqueue, hready, hwaits, hterm, hstarted]

/-- Writing a scheduler changes one slot if its `shutdown_` stays. -/
theorem slot_setSched (s : State T) (u : T) {sched : Scheduler T} (y : Ctx T)
    (hshut : sched.shutdown = (s.sched u).shutdown) :
    (s.setSched u sched).slot y = Function.update (s.slot y) (.queue u) (sched.queue.count y) := by
  funext a
  cases a with
  | queue v => by_cases hv : v = u <;> simp [State.slot, hv]
  | parked =>
    cases y with
    | main v => by_cases hv : v = u <;> simp [State.slot, State.parked, hv, hshut]
    | _ => rfl
  | _ => rfl

/-- Writing other members of a scheduler than its queue and `shutdown_` changes no slot. -/
theorem slot_setSched_same (s : State T) (u : T) {sched : Scheduler T} (y : Ctx T)
    (hqueue : sched.queue = (s.sched u).queue) (hshut : sched.shutdown = (s.sched u).shutdown) :
    (s.setSched u sched).slot y = s.slot y := by
  rw [slot_setSched s u y hshut, hqueue]
  exact Function.update_eq_self _ _

/-- Writing the static queue changes one slot. -/
theorem slot_setReady (s : State T) (l : List (Ctx T)) (y : Ctx T) :
    ({ s with readyQueue := l } : State T).slot y = Function.update (s.slot y) .ready (l.count y) := by
  funext a
  cases a <;> rfl

/-- Writing a wait queue changes one slot. -/
theorem slot_setWaits (s : State T) (q : WaitQueue T) (l : List (Ctx T)) (y : Ctx T) :
    (s.setWaits q l).slot y = Function.update (s.slot y) (.wait q) (l.count y) := by
  funext a
  cases a with
  | wait q' => by_cases hq : q' = q <;> simp [State.slot, hq]
  | _ => rfl

end Slots

section Queues

variable {exits : Prop} {x y z : Ctx T} {old new : List (Frame T)} {before after : Slot T → ℕ}

/-- A function that has `z` in its hand and pushes it onto a queue puts `z` there. -/
theorem Handling.push (a : Slot T) (queue : List (Ctx T)) (hqueue : before a = queue.count y)
    (hafter : after = Function.update before a ((queue ++ [z]).count y))
    (hold : heldIn old y = heldIn new y + if z = y then 1 else 0)
    (hleaves : new.any Frame.leaves = old.any Frame.leaves) : Handling exits x y old new before after := by
  by_cases hzy : z = y
  · subst hzy
    exact .put a (by simpa [hqueue] using hafter) (by simpa using hold) fun _ => hleaves
  · refine .stay ?_ (by simpa [hzy] using hold.symm) fun _ => hleaves
    rw [hafter, List.count_append, List.count_singleton]
    simp [hzy, ← hqueue]

/-- A function that pops `z` from a queue takes it into its hand. -/
theorem Handling.pop (a : Slot T) (queue : List (Ctx T)) (hqueue : before a = (z :: queue).count y)
    (hafter : after = Function.update before a (queue.count y))
    (hnew : heldIn new y = heldIn old y + if z = y then 1 else 0)
    (hleaves : new.any Frame.leaves = old.any Frame.leaves) : Handling exits x y old new before after := by
  by_cases hzy : z = y
  · subst hzy
    refine .take a ?_ (by simpa using hnew) fun _ => hleaves
    rw [List.count_cons_self] at hqueue
    simp [hafter, ← hqueue]
  · refine .stay ?_ (by simpa [hzy] using hnew) fun _ => hleaves
    rw [List.count_cons_of_ne hzy] at hqueue
    simp [hafter, ← hqueue]

end Queues

variable {s : State T} {t : T} {x : Ctx T} {now : ℕ}

/-- What an operation does to each context when it is called, unless it is the `YieldOrigin` of a context
that has an origin. -/
theorem OpStep.handling {op : Op T} {r : Rest T} (h : OpStep s x op r)
    (hop : op = .yieldOrigin → (s.ctx x).originScheduler = none) (y : Ctx T)
    (hfresh : y = .worker s.fresh → (s.ctx y).terminated = false)
    (hterm : y = x → (s.ctx y).terminated = false) (hpark : y = x → s.parked y = false) :
    Handling False x y [] r.2 (s.slot y) (r.1.slot y) := by
  cases h with
  | start launch =>
    have hframes : ∃ f, (Lutask.start s x launch).2 = [f] ∧ f.held = some (.worker s.fresh) ∧
        f.leaves = false := by
      cases launch <;> exact ⟨_, rfl, rfl, rfl⟩
    obtain ⟨f, hf, hheld, hleaves⟩ := hframes
    rw [hf]
    by_cases hy : y = .worker s.fresh
    · subst hy
      have hnew := hfresh rfl
      refine .take .unborn ?_ (by simp [hheld]) fun _ => by simp [hleaves]
      funext a
      cases a <;> simp [State.slot, Lutask.start, State.parked, State.started, hnew]
    · refine .stay ?_ (by simp [hheld, Ne.symm hy]) fun _ => by simp [hleaves]
      refine State.slot_congr (fun _ => rfl) rfl rfl (by simp [Lutask.start, hy]) (fun _ => rfl) ?_
      cases y with
      | worker n =>
        have hn : n ≠ s.fresh := fun hn => hy (by rw [hn])
        have hlt : n < s.fresh + 1 ↔ n < s.fresh := by omega
        simp [State.started, Lutask.start, hlt]
      | _ => rfl
  | terminate hpin =>
    by_cases hy : y = x
    · subst hy
      have hrunning := hterm rfl
      refine .leave .terminated ?_ rfl rfl rfl rfl
      funext a
      cases a <;> simp [State.slot, Lutask.terminate, State.parked, State.started, hrunning]
    · refine .stay ?_ rfl fun h => absurd h hy
      exact State.slot_congr (fun _ => rfl) rfl rfl (by simp [Lutask.terminate, hy]) (fun _ => rfl) rfl
  | @destructor u hx =>
    subst hx
    by_cases hy : y = .main u
    · subst hy
      have hshut : (s.sched u).shutdown = false := hpark rfl
      refine .leave .parked ?_ rfl rfl rfl rfl
      funext a
      cases a with
      | queue v => by_cases hv : v = u <;> simp [State.slot, Lutask.destructor, hv]
      | _ => simp [State.slot, Lutask.destructor, State.parked, State.started, hshut]
    · refine .stay ?_ rfl fun h => absurd h hy
      funext a
      cases a with
      | queue v => by_cases hv : v = u <;> simp [State.slot, Lutask.destructor, hv]
      | parked =>
        cases y with
        | main v =>
          simp [State.slot, Lutask.destructor, State.parked, show v ≠ u from fun h => hy (by rw [h])]
        | _ => rfl
      | _ => rfl
  | yield hu => exact .stay (slot_setSched_same s _ y (by rfl) (by rfl)) rfl fun _ => rfl
  | @yieldOriginNone u hu horigin =>
    exact .stay (slot_setSched_same s _ y (by rfl) (by rfl)) rfl fun _ => rfl
  | yieldOrigin hu horigin => simp [horigin] at hop
  | @waitUntil u tp hu =>
    refine .stay ?_ rfl fun _ => rfl
    refine State.slot_congr (fun v => ?_) rfl rfl ?_ (fun v => ?_) rfl
    · by_cases hv : v = u <;> simp [Lutask.waitUntil, hv]
    · by_cases hy : y = x <;> simp [Lutask.waitUntil, hy]
    · by_cases hv : v = u <;> simp [Lutask.waitUntil, hv]
  | _ => exact .stay rfl rfl fun _ => rfl

/-- `Awakened` puts the context from the hand into the queue, or hands it on to `Detach`. -/
theorem schedule_handling (exits : Prop) (s : State T) (u : T) (x y : Ctx T) {f : Frame T}
    {z : Ctx T} (hf : f.held = some z) (hleaves : f.leaves = false) :
    Handling exits x y [f] (schedule s u z).2 (s.slot y) ((schedule s u z).1.slot y) := by
  rcases schedule_cases s u z with ⟨-, hr⟩ | ⟨-, -, hr⟩
  · rw [hr]
    refine .push (z := z) (.queue u) (s.sched u).queue rfl (slot_setSched s u y rfl) ?_ ?_
    · simp [hf]
    · simp [hleaves]
  · rw [hr]
    have hdetach : (Frame.detach z).held = f.held := hf.symm
    refine .stay rfl ?_ fun _ => ?_
    · simp [hdetach]
    · simp [hleaves, show (Frame.detach z).leaves = false from rfl]

/-- What a frame that is executed in place does to each context that is not at the front of a sleep
queue. -/
theorem FrameStep.handling {f : Frame T} {r : Rest T} (h : FrameStep s t x now f r) (hof : f.Of x)
    (hdestroy : ∀ u, f ≠ .destroy u) (y : Ctx T)
    (hsleep : ∀ u n, f = .procSleep u n → (s.sched u).sleepQueue.head? ≠ some y) :
    Handling (∃ u, f = .exitTest u ∧ (s.sched u).workerQueue = []) x y [f] r.2 (s.slot y)
      (r.1.slot y) := by
  cases h with
  | schedule hu => exact schedule_handling _ s _ x y rfl rfl
  | wake hu => exact schedule_handling _ s _ x y rfl rfl
  | scheduleOn => exact schedule_handling _ s _ x y rfl rfl
  | @readyPush z =>
    refine .push (z := z) .ready s.readyQueue rfl (slot_setReady s _ y) ?_ rfl
    simp [Frame.held]
  | @pop f u k z rest hf hqueue =>
    refine .pop (z := z) (.queue u) rest (by simp [State.slot, hqueue]) (slot_setSched s u y rfl) ?_ ?_
    · rcases hf with rfl | ⟨rfl, -⟩ <;> simp [Frame.held]
    · rcases hf with rfl | ⟨rfl, -⟩ <;> simp [Frame.leaves]
  | @popEmpty f u hf hqueue =>
    refine .stay rfl ?_ fun _ => ?_
    · rcases hf with rfl | ⟨rfl, -⟩ <;> rfl
    · rcases hf with rfl | ⟨rfl, -⟩ <;> rfl
  | @pickReady u k z rest hpolicy hready =>
    refine .pop (z := z) .ready rest (by simp [State.slot, hready]) (slot_setReady s _ y) ?_ ?_
    · simp [Frame.held]
    · simp [Frame.leaves]
  | @notifyOne q z rest hwaits =>
    refine .pop (z := z) (.wait q) rest (by simp [State.slot, hwaits]) (slot_setWaits s q _ y) ?_ ?_
    · cases q <;> simp [Frame.held, WaitQueue.afterNotify]
    · cases q <;> rfl
  | @notifyAll q z rest hwaits =>
    refine .pop (z := z) (.wait q) rest (by simp [State.slot, hwaits]) (slot_setWaits s q _ y) ?_ rfl
    simp [Frame.held]
  | @suspendAndWait q z =>
    obtain rfl : z = x := hof
    by_cases hy : y = z
    · subst hy
      refine .leave (.wait q) ?_ ?_ rfl rfl ?_
      · rw [slot_setWaits, List.count_append]
        simp [State.slot]
      · cases q <;> rfl
      · cases q <;> rfl
    · refine .stay ?_ ?_ (fun h => absurd h hy)
      · rw [slot_setWaits, List.count_append, List.count_singleton]
        simp [Ne.symm hy, State.slot]
      · cases q <;> rfl
  | @exit u hworkers =>
    obtain rfl : x = .dispatcher u := hof
    have hslot : (procTerminated s u).slot y = s.slot y := slot_setSched_same s u y (by rfl) (by rfl)
    by_cases hy : y = .dispatcher u
    · exact .exit ⟨u, rfl, hworkers⟩ hslot rfl hy rfl rfl
    · exact .stay hslot rfl fun h => absurd h hy
  | @procSleepDue u n z rest hqueue hdue =>
    have hzy : z ≠ y := by
      rintro rfl
      simp [hqueue] at hsleep
    refine .stay ?_ (by simp [Frame.held, hzy]) fun _ => by simp [Frame.leaves]
    refine State.slot_congr (fun v => ?_) rfl rfl ?_ (fun v => ?_) rfl
    · by_cases hv : v = u <;> simp [hv]
    · by_cases hy : y = z <;> simp [hy]
    · by_cases hv : v = u <;> simp [hv]
  | destroy => simp at hdestroy
  | @save prev k stack hfctx =>
    refine .stay ?_ ?_ fun _ => ?_
    · refine State.slot_congr (fun _ => rfl) rfl rfl ?_ (fun _ => rfl) rfl
      by_cases hy : y = prev <;> simp [hy]
    · cases k <;> simp [Frame.held, Switch.onTop]
    · cases k <;> rfl
  | @attachResume u z k hu hmtx | @postAttach u z hu hmtx =>
    refine .stay ?_ (by simp [Frame.held]) fun _ => by simp [Frame.leaves]
    refine State.slot_congr ?_ rfl rfl ?_ ?_ rfl
    · intro v; by_cases hv : v = u <;> simp [workerQueuePush, hv]
    · by_cases hy : y = z <;> simp [workerQueuePush, hy]
    · intro v; by_cases hv : v = u <;> simp [workerQueuePush, hv]
  | @detach u z hasync hu =>
    refine .stay ?_ (by simp [Frame.held]) fun _ => by simp [Frame.leaves]
    refine State.slot_congr ?_ rfl rfl ?_ ?_ rfl
    · intro v; by_cases hv : v = u <;> simp [detachWorkerContext, workerQueueRemove, hv]
    · by_cases hy : y = z <;> simp [detachWorkerContext, workerQueueRemove, hy]
    · intro v; by_cases hv : v = u <;> simp [detachWorkerContext, workerQueueRemove, hv]
  | @schedulerTerminate u z hu hmtx | @unlockMtx u | @suspendUntilFlag u tp hpolicy hflag
  | @suspended u tp hawake | @iterate u | @terminateRemove u z =>
    exact .stay (slot_setSched_same s u y (by rfl) (by rfl)) rfl fun _ => rfl
  | @dispatchShutdown u hshut =>
    refine .stay ?_ rfl fun _ => rfl
    exact State.slot_congr (by simp) (by simp [notify]; split <;> rfl) (by simp [notify]; split <;> rfl)
      (by simp) (by simp) (by simp [State.started])
  | @relock q l p z hl => cases p <;> exact .stay rfl rfl fun _ => rfl
  | @suspend u q z hu | @notifyOneEmpty q hwaits | @notifyAllEmpty q hwaits =>
    cases q <;> exact .stay rfl rfl fun _ => rfl
  | _ => exact .stay rfl rfl fun _ => rfl

/-- One step that replaces the top frames of a thread moves or drops each context at most. -/
theorem Handling.steps {exits : Prop} {s' : State T} {y : Ctx T} {old new : List (Frame T)}
    (rest : List (Frame T)) (h : Handling exits x y old new (s.slot y) (s'.slot y))
    (hactive : (s.thread t).active = some x)
    (hstack : (s.thread t).stack = old ++ rest) (hactive' : (s'.thread t).active = some x)
    (hstack' : (s'.thread t).stack = new ++ rest) (hother : ∀ v, v ≠ t → s'.thread v = s.thread v)
    (hrest : y = x → old.any Frame.leaves = false → new.any Frame.leaves → rest.any Frame.leaves = false) :
    Steps (s.places y) (s'.places y) ∨
      exits ∧ Drops (.active t) (s.places y) (s'.places y) := by
  have hheld : heldIn old y + heldIn rest y = s.places y (.hand t) := by
    simp [State.places, hstack]
  have hheld' : heldIn new y + heldIn rest y = s'.places y (.hand t) := by
    simp [State.places, hstack']
  have hthreads : ∀ v, v ≠ t → s'.places y (.active v) = s.places y (.active v) ∧
      s'.places y (.hand v) = s.places y (.hand v) := fun v hv => by
    simp [State.places, hother v hv]
  -- a context that does not leave is as active as before
  have hsame : (y = x → new.any Frame.leaves = old.any Frame.leaves) →
      s'.places y (.active t) = s.places y (.active t) := by
    intro hleaves
    by_cases hy : y = x
    · simp [State.places, hactive, hactive', hstack, hstack', hleaves hy, -List.any_eq_true,
        -List.any_eq_false]
    · simp [State.places, hactive, hactive', Ne.symm hy]
  have hout : y = x → old.any Frame.leaves = false → new.any Frame.leaves →
      s.places y (.active t) = 1 ∧ s'.places y (.active t) = 0 := by
    intro hy hold hnew
    have hr := hrest hy hold hnew
    subst hy
    constructor
    · simp only [State.places, hactive, hstack, List.any_append, hold, hr]
      rfl
    · simp only [State.places, hactive', hstack', List.any_append, hnew]
      simp
  have hactives : (y = x → new.any Frame.leaves = old.any Frame.leaves) →
      ∀ v, s'.places y (.active v) = s.places y (.active v) := by
    intro hleaves v
    by_cases hv : v = t
    · exact hv ▸ hsame hleaves
    · exact (hthreads v hv).1
  have hhands : heldIn new y = heldIn old y → ∀ v, s'.places y (.hand v) = s.places y (.hand v) := by
    intro hnew v
    by_cases hv : v = t
    · subst hv
      omega
    · exact (hthreads v hv).2
  have hslots : ∀ (before after : Slot T → ℕ) (a : Slot T) (n : ℕ),
      after = Function.update before a n → ∀ b, b ≠ a → after b = before b := by
    rintro before after a n rfl b hb
    simp [hb]
  cases h with
  | stay hslot hnew hleaves =>
    refine .inl (.inl (funext fun p => ?_))
    cases p with
    | active v => exact hactives hleaves v
    | hand v => exact hhands hnew v
    | slot a => exact congrFun hslot a
  | take a hslot hnew hleaves =>
    refine .inl (.inr ⟨.slot a, .hand t, ?_, by omega, fun p hpa hpt => ?_⟩)
    · simpa using congrFun hslot a
    · cases p with
      | active v => exact hactives hleaves v
      | hand v => exact (hthreads v fun hv => hpt (by rw [hv])).2
      | slot b => exact (hslots _ _ a _ hslot b fun hb => hpa (by rw [hb])).symm
  | put a hslot hnew hleaves =>
    refine .inl (.inr ⟨.hand t, .slot a, by omega, ?_, fun p hpt hpa => ?_⟩)
    · simpa using congrFun hslot a
    · cases p with
      | active v => exact hactives hleaves v
      | hand v => exact (hthreads v fun hv => hpt (by rw [hv])).2
      | slot b => exact hslots _ _ a _ hslot b fun hb => hpa (by rw [hb])
  | leave a hslot hnew hy hold hleft =>
    obtain ⟨hone, hzero⟩ := hout hy hold hleft
    refine .inl (.inr ⟨.active t, .slot a, by omega, ?_, fun p hpt hpa => ?_⟩)
    · simpa using congrFun hslot a
    · cases p with
      | active v => exact (hthreads v fun hv => hpt (by rw [hv])).1
      | hand v => exact hhands hnew v
      | slot b => exact hslots _ _ a _ hslot b fun hb => hpa (by rw [hb])
  | exit hexit hslot hnew hy hold hleft =>
    obtain ⟨hone, hzero⟩ := hout hy hold hleft
    refine .inr ⟨hexit, by omega, fun p hpt => ?_⟩
    cases p with
    | active v => exact (hthreads v fun hv => hpt (by rw [hv])).1
    | hand v => exact hhands hnew v
    | slot b => exact congrFun hslot b

end Lutask
