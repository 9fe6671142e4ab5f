import Lutask.Machine.Waiting

/-!
# Whom a condition variable wakes

The mutex `m_` of a condition variable is held from before a context is queued until after its
continuation was saved, on the stack that it left. A notifier, which holds `m_` itself, finds only
saved contexts in the wait queue, and no context starts to run its own code on a thread
that still holds an `m_`.
-/

namespace Lutask

open LabelledRuns

variable {T : Type*}

/-- A context that a notification of a condition variable is about to wake has been saved. The frame
below the call of `Wake` is what is left of `NotifyOne` or `NotifyAll`, and will release `m_`. -/
def WakesSaved (s : State T) : Prop :=
  ∀ t y g rest q, (s.thread t).stack = .wake y :: g :: rest → g.releases q → (s.ctx y).c ≠ none

/-- A thread whose active context is at its own code, or at the end of a `Wait` that was switched
out, holds no `m_`. -/
def Released (s : State T) : Prop :=
  ∀ t q, (∀ f ∈ (s.thread t).stack.head?, f.isSettled) → s.m q ≠ some t

theorem WakesSaved.initial (policy : T → Policy) : WakesSaved (State.initial policy) := by
  intro t y g rest q h
  simp [State.initial] at h

variable [DecidableEq T] {s s' : State T} {t u : T} {x y : Ctx T} {q : ℕ}

omit [DecidableEq T] in
/-- A settled frame lies on settled frames only. -/
theorem Shape.settled (h : Shape s) (htop : ∀ f ∈ (s.thread t).stack.head?, f.isSettled) :
    ∀ f ∈ (s.thread t).stack, f.isSettled := by
  cases hstack : (s.thread t).stack with
  | nil => simp
  | cons f rest =>
    have hf : f.isSettled := htop f (by simp [hstack])
    have hinner : f.isInner = false := by
      cases f <;> simp [Frame.isSettled] at hf <;> rfl
    intro g hg
    cases List.mem_cons.mp hg with
    | inl htop => exact htop ▸ hf
    | inr hbelow => exact settled_of_pairwise (hstack ▸ h.below t) hinner g hbelow

/-- `m_` is owned only by threads in the middle of a library function. -/
theorem Orderly.released (h : Orderly s) : Released s := by
  intro t q htop howner
  have hzero : s.releases q t = 0 := countP_releases_of_settled (h.shape.settled htop) q
  cases h.locked q t with
  | inl hone => omega
  | inr hnot => exact hnot.1 howner

/-- The thread that owns `m_` finds only saved contexts in the wait queue, once it is past the switch
of a `Wait` of its own. -/
theorem Waiting.saved_of_owner (h : Waiting s) (ho : Orderly s) {f : Frame T} {rest : List (Frame T)}
    (hstack : (s.thread t).stack = f :: rest) (hf : f.releases q) (hcarried : f.carried = none)
    (hy : y ∈ s.waits (.cv q)) : (s.ctx y).c ≠ none := by
  refine h.saved ho (State.away_of_waits hy) fun v hbusy => ?_
  obtain ⟨g, below, hv, hg⟩ := h.leaving (.cv q) y v hy hbusy
  have hmem : g ∈ (s.thread v).stack := by simp [hv]
  obtain ⟨-, rfl⟩ := ho.locked.top hstack hf hmem (Frame.releases_of_carried hg)
  simp [hcarried] at hg

/-- Every step keeps the contexts that are about to be woken saved. -/
theorem WakesSaved.step {e : Event T} (h : WakesSaved s) (ho : Orderly s) (hw : Waiting s)
    (hstep : step s e = some s') : WakesSaved s' := by
  intro t y g rest q htop hg
  cases step_wake ho.shape hstep htop with
  | inl hsame => exact saved_stays ho hsame.1 (h t y g rest q hsame.1 hg) hstep
  | inr hpopped =>
    obtain ⟨het, q', queue, below, hwaits, hcase⟩ := hpopped
    have hy : y ∈ s.waits q' := by simp [hwaits]
    have hnotifier : ∃ f below, (s.thread t).stack = f :: below ∧ f.releases q ∧ f.carried = none ∧
        q' = .cv q ∧ f.target = none := by
      rcases hcase with ⟨hstack, hrest⟩ | ⟨hstack, hrest⟩
      · cases q' with
        | cv q₀ =>
          obtain ⟨rfl, -⟩ := List.cons.inj hrest
          obtain rfl : q₀ = q := by simpa [Frame.releases] using hg
          exact ⟨_, below, hstack, by simp [Frame.releases], rfl, rfl, rfl⟩
        | waitList w =>
          have hbelow : g ∈ below := by
            have : g :: rest = below := hrest
            simp [← this]
          have hsettled := settled_of_pairwise (hstack ▸ ho.shape.below t) rfl g hbelow
          simp [Frame.releases_of_settled hsettled] at hg
      · obtain ⟨rfl, -⟩ := List.cons.inj hrest
        cases q' with
        | cv q₀ =>
          obtain rfl : q₀ = q := by simpa [Frame.releases] using hg
          exact ⟨_, below, hstack, hg, rfl, rfl, rfl⟩
        | waitList w => simp [Frame.releases] at hg
    obtain ⟨f, below, hstack, hf, hcarried, rfl, htarget⟩ := hnotifier
    have hsaved := hw.saved_of_owner ho hstack hf hcarried hy
    refine (step_saved hstep hsaved).resolve_right fun hswitch => ?_
    obtain ⟨f', below', k, hstack', htarget'⟩ := hswitch
    rw [het, hstack] at hstack'
    simp [← (List.cons.inj hstack').1, htarget] at htarget'

/-- In every run without the two straying operations notifications wake saved contexts only. -/
theorem Runs.wakesSaved {policy : T → Policy} {guard : State T → Event T → Prop}
    {events : List (Event T)} (h : Runs policy guard events s)
    (hguard : ∀ s e, guard s e → e.keepsPlaces) : WakesSaved s :=
  (Run.invariant (I := fun s => Orderly s ∧ Waiting s ∧ WakesSaved s) h
    ⟨Orderly.initial policy, Waiting.initial policy, WakesSaved.initial policy⟩
    fun s e _ hs he hstep => ⟨hs.1.step (hguard s e he) hstep, hs.2.1.step hs.1 hstep,
      hs.2.2.step hs.1 hs.2.1 hstep⟩).2.2

end Lutask
