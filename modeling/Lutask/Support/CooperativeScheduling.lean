import Mathlib.Data.Fintype.Card
import Mathlib.Data.Set.Finite.Basic
import Mathlib.Logic.Function.Basic
import Mathlib.Logic.Relation
import Mathlib.Order.WellFounded
import Lutask.Support.LabelledRuns

/-!
# Cooperative scheduling

A scheduler of tasks that give up control by themselves: one task runs, the ready ones stand in one line,
and the others wait in queues of any kind. Only the running task acts, and every action is atomic. Nothing
is said about how the line and the queues are kept, so that an implementation is correct if each of its
runs, seen through an abstraction function, is a run of this scheduler.
-/

namespace CooperativeScheduling

open LabelledRuns

variable {A Q : Type*}

/-- The running task, the line of the ready ones, and those that wait. -/
structure Tasks (A Q : Type*) where
  running : Option A
  ready : List A
  waiting : Q → List A

/-- What the running task does, and the handing of control to the first ready task. -/
inductive Action (A Q : Type*) where
  /-- A new task stands at the back of the line. -/
  | spawn (x : A)
  /-- A new task stands at the front of the line, and the running one at its back. -/
  | spawnNow (x : A)
  | yield
  | wait (q : Q)
  | wakeOne (q : Q)
  | wakeAll (q : Q)
  | finish
  | resume
  deriving DecidableEq

variable [DecidableEq Q]

/-- One action. All but `resume` are those of the running task. -/
def step (s : Tasks A Q) : Action A Q → Option (Tasks A Q)
  | .spawn x => s.running.map fun _ => { s with ready := s.ready ++ [x] }
  | .spawnNow x => s.running.map fun r => { s with running := none, ready := x :: s.ready ++ [r] }
  | .yield => s.running.map fun r => { s with running := none, ready := s.ready ++ [r] }
  | .wait q => s.running.map fun r =>
    { s with running := none, waiting := Function.update s.waiting q (s.waiting q ++ [r]) }
  | .wakeOne q => s.running.map fun _ =>
    { s with
      ready := s.ready ++ (s.waiting q).take 1
      waiting := Function.update s.waiting q ((s.waiting q).drop 1) }
  | .wakeAll q => s.running.map fun _ =>
    { s with ready := s.ready ++ s.waiting q, waiting := Function.update s.waiting q [] }
  | .finish => s.running.map fun _ => { s with running := none }
  | .resume =>
    match s.running, s.ready with
    | none, x :: rest => some { s with running := some x, ready := rest }
    | _, _ => none

/-- The runs of the scheduler. -/
abbrev Runs (s : Tasks A Q) (actions : List (Action A Q)) (s' : Tasks A Q) : Prop :=
  Run step (fun _ _ => True) s actions s'

/-- The task that is resumed by an action. -/
def resumed (s : Tasks A Q) : Action A Q → List A
  | .resume => s.ready.head?.toList
  | _ => []

/-- The tasks that are resumed in a run, in this order. -/
def resumptions (s : Tasks A Q) (actions : List (Action A Q)) : List A :=
  observe step resumed s actions

/-- The action puts a new task in front of the line. -/
def Action.overtakes : Action A Q → Bool
  | .spawnNow _ => true
  | _ => false

variable {s s' : Tasks A Q} {a : Action A Q} {actions : List (Action A Q)} {x : A}

/-- One action is a run. -/
theorem runs_of_step (h : step s a = some s') : Runs s [a] s' :=
  Run.snoc .nil trivial h

/-- Control is handed to the first ready task only, and only when no task runs. -/
theorem resume_inv (h : step s .resume = some s') :
    ∃ x, s.running = none ∧ s.ready = x :: s'.ready ∧ s'.running = some x ∧ s'.waiting = s.waiting := by
  simp only [step] at h
  split at h
  · rename_i x rest hrunning hready
    obtain rfl := Option.some.inj h
    exact ⟨x, hrunning, hready, rfl, rfl⟩
  · simp at h

/-- Every action but `resume` is the running task's. It keeps the line, except that it adds tasks at the
back, and one at the front if it overtakes. -/
theorem act_inv (h : step s a = some s') (ha : a ≠ .resume) : s.running ≠ none ∧
    ∃ front back, s'.ready = front ++ s.ready ++ back ∧ front.length = if a.overtakes then 1 else 0 := by
  cases a with
  | resume => exact absurd rfl ha
  | spawnNow x =>
    obtain ⟨r, hr, rfl⟩ := Option.map_eq_some_iff.mp h
    exact ⟨by simp [hr], [x], [r], rfl, rfl⟩
  | spawn x =>
    obtain ⟨r, hr, rfl⟩ := Option.map_eq_some_iff.mp h
    exact ⟨by simp [hr], [], [x], rfl, rfl⟩
  | yield =>
    obtain ⟨r, hr, rfl⟩ := Option.map_eq_some_iff.mp h
    exact ⟨by simp [hr], [], [r], rfl, rfl⟩
  | wakeOne q =>
    obtain ⟨r, hr, rfl⟩ := Option.map_eq_some_iff.mp h
    exact ⟨by simp [hr], [], (s.waiting q).take 1, rfl, rfl⟩
  | wakeAll q =>
    obtain ⟨r, hr, rfl⟩ := Option.map_eq_some_iff.mp h
    exact ⟨by simp [hr], [], s.waiting q, rfl, rfl⟩
  | wait q | finish =>
    obtain ⟨r, hr, rfl⟩ := Option.map_eq_some_iff.mp h
    exact ⟨by simp [hr], [], [], by simp, rfl⟩

theorem resumptions_singleton : resumptions s [a] = resumed s a := by
  cases hstep : step s a <;> simp [resumptions, observe, hstep]

/-- Nobody is resumed unless control is handed over. -/
theorem resumptions_eq_nil (h : ∀ a ∈ actions, a ≠ .resume) : resumptions s actions = [] := by
  induction actions generalizing s with
  | nil => rfl
  | cons a actions ih =>
    obtain ⟨ha, hactions⟩ := List.forall_mem_cons.mp h
    have hnone : resumed s a = [] := by cases a <;> first | rfl | exact absurd rfl ha
    have hlater : ∀ s' : Tasks A Q, observe step resumed s' actions = [] := fun s' => ih hactions
    cases hstep : step s a <;> simp [resumptions, observe, hnone, hstep, hlater]

/-- The resumptions of a longer run. -/
theorem resumptions_snoc {s₁ : Tasks A Q} (h : Runs s actions s₁) (hstep : step s₁ a = some s') :
    resumptions s (actions ++ [a]) = resumptions s actions ++ resumed s₁ a := by
  simp only [resumptions, h.observe_append, observe, hstep, Option.elim_some, List.append_nil]

/-- While the running tasks do nothing but wait, those that are ready are resumed in their order. -/
theorem ready_of_handover (h : Runs s actions s') (hacts : ∀ a ∈ actions, a = .resume ∨ ∃ q, a = .wait q) :
    s.ready = resumptions s actions ++ s'.ready := by
  induction h with
  | nil => rfl
  | @snoc actions s₁ s' a hrun _ hstep ih =>
    have hline := ih fun b hb => hacts b (List.mem_append_left _ hb)
    rw [resumptions_snoc hrun hstep, hline, List.append_assoc]
    congr 1
    rcases hacts a (by simp) with rfl | ⟨q, rfl⟩
    · obtain ⟨y, -, hy, -⟩ := resume_inv hstep
      simp [resumed, hy]
    · obtain ⟨r, -, rfl⟩ := Option.map_eq_some_iff.mp hstep
      rfl

/-- As long as `x` was not resumed it stands in the line, behind as many tasks as stood ahead of it, less
those that were resumed and more those that overtook. -/
theorem stands {front back : List A} (h : Runs s actions s') (hready : s.ready = front ++ x :: back) :
    x ∈ resumptions s actions ∨ ∃ front' back', s'.ready = front' ++ x :: back' ∧
      (resumptions s actions).length + front'.length =
        front.length + actions.countP Action.overtakes := by
  induction h with
  | nil => exact .inr ⟨front, back, hready, by simp [resumptions, observe]⟩
  | @snoc actions s₁ s' a hrun _ hstep ih =>
    rw [resumptions_snoc hrun hstep]
    rcases ih with hdone | ⟨front', back', hline, hcount⟩
    · exact .inl (List.mem_append_left _ hdone)
    by_cases ha : a = .resume
    · subst ha
      obtain ⟨y, -, hy, -⟩ := resume_inv hstep
      have hserved : resumed s₁ (.resume : Action A Q) = [y] := by simp [resumed, hy]
      rw [hserved]
      cases front' with
      | nil =>
        obtain ⟨rfl, -⟩ := List.cons.inj (hy.symm.trans hline)
        exact .inl (by simp)
      | cons z front' =>
        obtain ⟨rfl, hrest⟩ := List.cons.inj (hy.symm.trans hline)
        refine .inr ⟨front', back', hrest, ?_⟩
        simp only [List.length_append, List.length_cons, List.length_nil, List.countP_append,
          List.countP_singleton, Action.overtakes] at hcount ⊢
        simp only [Bool.false_eq_true, if_false]
        omega
    · obtain ⟨-, more, later, hnew, hmore⟩ := act_inv hstep ha
      have hserved : resumed s₁ a = [] := by cases a <;> first | rfl | exact absurd rfl ha
      refine .inr ⟨more ++ front', back' ++ later, by simp [hnew, hline], ?_⟩
      rw [hserved, List.append_nil, List.countP_append, List.countP_singleton, List.length_append, hmore]
      omega

/-- Bounded waiting: a ready task is resumed before more tasks are than stood ahead of it or overtook it. -/
theorem bounded_waiting {front back : List A} (h : Runs s actions s')
    (hready : s.ready = front ++ x :: back)
    (hlate : front.length + actions.countP Action.overtakes < (resumptions s actions).length) :
    x ∈ resumptions s actions := by
  rcases stands h hready with hdone | ⟨front', back', -, hcount⟩
  · exact hdone
  · omega

/-- If each of finitely many tasks waits for another one of them, some wait for each other in a cycle. -/
theorem exists_cycle {A : Type*} {R : A → A → Prop} {waiters : Set A} (hfinite : waiters.Finite)
    (hsome : waiters.Nonempty) (hwaits : ∀ x ∈ waiters, ∃ y ∈ waiters, R x y) :
    ∃ x ∈ waiters, Relation.TransGen R x x := by
  by_contra! hacyclic
  -- the relation among the waiters themselves, read backwards
  let waitedFor : waiters → waiters → Prop := Relation.TransGen fun x y => R y x
  have hlift : ∀ x y, waitedFor x y → Relation.TransGen R y.1 x.1 := fun x y h =>
    Relation.transGen_swap.mp (h.lift Subtype.val fun _ _ hab => hab)
  have : Finite waiters := hfinite
  have : IsTrans waiters waitedFor := ⟨fun _ _ _ => Relation.TransGen.trans⟩
  have : Std.Irrefl waitedFor := ⟨fun x hx => hacyclic x.1 x.2 (hlift x x hx)⟩
  obtain ⟨x, hx⟩ := hsome
  obtain ⟨last, -, hlast⟩ :=
    (Finite.wellFounded_of_trans_of_irrefl waitedFor).has_min Set.univ ⟨⟨x, hx⟩, trivial⟩
  obtain ⟨y, hy, hR⟩ := hwaits last.1 last.2
  exact hlast ⟨y, hy⟩ trivial (.single hR)

end CooperativeScheduling
