import Mathlib.Data.List.TakeWhile

/-!
# Standing in a queue that is served from the front

An entry `x` joins the back of a queue behind the entries `ahead`. Whoever is at the front is
served next, new entries join the back, and entries outside the queue may be served in
between. Then `x` is served after all of `ahead`, which are served once each and in their
order until then.

A queue that is served from its front alone serves first those that it held at the start and then those
who joined, in the order in which they came.
-/

namespace Queueing

variable {A : Type*} [DecidableEq A]

/-- The entries of `ahead` among those served before `x`. -/
def servedBefore (ahead : List A) (x : A) (served : List A) : List A :=
  (served.takeWhile (· ≠ x)).filter (· ∈ ahead)

/-- What the order of the queue promises to `x` about those served since it joined, where only `late`
ones are served out of their turn. -/
structure InOrder (ahead : List A) (x : A) (late : A → Prop) (served : List A) : Prop where
  /-- The entries ahead of `x` are served once each, in their order, before `x` is. -/
  order : servedBefore ahead x served <+: ahead
  /-- All of them are served before `x`. -/
  complete : x ∈ served → servedBefore ahead x served = ahead
  /-- Nobody else is served before `x`. -/
  others : ∀ y ∈ served.takeWhile (· ≠ x), y ∈ ahead ∨ late y

/-- As long as `x` was not served, the queue is what is left of `ahead`, then `x`, and then those who
joined later. -/
def Waits (ahead : List A) (x : A) (late : A → Prop) (queue served : List A) : Prop :=
  ∃ done rest later, ahead = done ++ rest ∧ queue = rest ++ x :: later ∧
    served.filter (· ∈ ahead) = done ∧ x ∉ served ∧ ∀ y ∈ served, y ∈ ahead ∨ late y

variable {ahead queue served : List A} {x y : A} {late : A → Prop}

/-- Those served before an entry that was not served yet are all. -/
theorem takeWhile_ne (h : x ∉ served) : served.takeWhile (· ≠ x) = served := by
  rw [List.takeWhile_eq_self_iff]
  intro y hy
  have hne : y ≠ x := fun hyx => h (hyx ▸ hy)
  simpa using hne

/-- What is served after `x` does not count. -/
theorem takeWhile_append (h : x ∈ served) (more : List A) :
    (served ++ more).takeWhile (· ≠ x) = served.takeWhile (· ≠ x) := by
  induction served with
  | nil => simp at h
  | cons y served ih =>
    by_cases hy : y = x
    · simp [hy]
    · have hmem : x ∈ served := List.mem_of_ne_of_mem (Ne.symm hy) h
      rw [List.cons_append, List.takeWhile_cons_of_pos (by simpa using hy),
        List.takeWhile_cons_of_pos (by simpa using hy), ih hmem]

/-- An entry that has just joined waits behind the others. -/
theorem Waits.joined : Waits ahead x late (ahead ++ [x]) [] :=
  ⟨[], ahead, [], rfl, rfl, rfl, List.not_mem_nil, by simp⟩

/-- Joining the back overtakes nobody. -/
theorem Waits.push (h : Waits ahead x late queue served) (y : A) :
    Waits ahead x late (queue ++ [y]) served := by
  obtain ⟨done, rest, later, hahead, hqueue, hserved⟩ := h
  exact ⟨done, rest, later ++ [y], hahead, by simp [hqueue], hserved⟩

/-- The entry at the front of the queue is one of those ahead of `x`, or `x` itself. -/
theorem Waits.front (h : Waits ahead x late (y :: queue) served) : y ∈ ahead ∨ y = x := by
  obtain ⟨done, rest, later, hahead, hqueue, -⟩ := h
  cases rest with
  | nil => exact .inr (List.cons.inj hqueue).1
  | cons z rest =>
    obtain ⟨rfl, -⟩ := List.cons.inj hqueue
    exact .inl (by simp [hahead])

/-- Serving the front is serving the next one ahead of `x`, or `x` after all of them. -/
theorem Waits.pop (h : Waits ahead x late (y :: queue) served) (hnew : x ∉ ahead) :
    Waits ahead x late queue (served ++ [y]) ∨
      x ∈ served ++ [y] ∧ InOrder ahead x late (served ++ [y]) := by
  obtain ⟨done, rest, later, hahead, hqueue, hdone, hx, hothers⟩ := h
  cases rest with
  | nil =>
    obtain ⟨rfl, -⟩ := List.cons.inj hqueue
    have hbefore : (served ++ [y]).takeWhile (· ≠ y) = served := by
      have hall : ∀ z ∈ served, z ≠ y := fun z hz hzy => hx (hzy ▸ hz)
      rw [List.takeWhile_append_of_pos (by simpa using hall)]
      simp
    have hall : servedBefore ahead y (served ++ [y]) = ahead := by
      rw [servedBefore, hbefore, hdone, hahead, List.append_nil]
    exact .inr ⟨by simp, hall.symm ▸ List.prefix_rfl, fun _ => hall, by rwa [hbefore]⟩
  | cons z rest =>
    obtain ⟨rfl, htail⟩ := List.cons.inj hqueue
    have hy : y ∈ ahead := by simp [hahead]
    have hne : x ≠ y := fun hxy => hnew (hxy ▸ hy)
    refine .inl ⟨done ++ [y], rest, later, by simp [hahead], htail, ?_, by simp [hx, hne], ?_⟩
    · simp [List.filter_append, hdone, hy]
    · intro z hz
      cases List.mem_append.mp hz with
      | inl hold => exact hothers z hold
      | inr hlast => exact .inl (List.mem_singleton.mp hlast ▸ hy)

/-- Serving a late one that stands neither ahead of `x` nor is `x` changes nothing for `x`. -/
theorem Waits.bypass (h : Waits ahead x late queue served) (hahead : y ∉ ahead) (hne : y ≠ x)
    (hlate : late y) : Waits ahead x late queue (served ++ [y]) := by
  obtain ⟨done, rest, later, hsplit, hqueue, hdone, hx, hothers⟩ := h
  refine ⟨done, rest, later, hsplit, hqueue, by simp [List.filter_append, hdone, hahead],
    by simp [hx, Ne.symm hne], ?_⟩
  intro z hz
  cases List.mem_append.mp hz with
  | inl hold => exact hothers z hold
  | inr hlast => exact .inr (List.mem_singleton.mp hlast ▸ hlate)

theorem Waits.inOrder (h : Waits ahead x late queue served) : InOrder ahead x late served := by
  obtain ⟨done, rest, later, hahead, -, hdone, hx, hothers⟩ := h
  have hbefore : servedBefore ahead x served = done := by rw [servedBefore, takeWhile_ne hx, hdone]
  refine ⟨?_, fun hmem => absurd hmem hx, by rwa [takeWhile_ne hx]⟩
  rw [hbefore, hahead]
  exact List.prefix_append done rest

/-- Once `x` was served it does not matter who is served next. -/
theorem InOrder.append (h : InOrder ahead x late served) (hx : x ∈ served) (more : List A) :
    InOrder ahead x late (served ++ more) := by
  have hsame := takeWhile_append hx more
  refine ⟨?_, fun _ => ?_, ?_⟩
  · rw [servedBefore, hsame]
    exact h.order
  · rw [servedBefore, hsame]
    exact h.complete hx
  · rw [hsame]
    exact h.others

section FirstInFirstOut

variable {A : Type*} {start joined queue served : List A}

/-- Those served so far, followed by those still queued, are the first ones followed by those who joined. -/
def FirstInFirstOut (start joined queue served : List A) : Prop :=
  served ++ queue = start ++ joined

theorem FirstInFirstOut.initial : FirstInFirstOut start [] start [] :=
  (List.append_nil start).symm

/-- Whoever joins stands at the back. -/
theorem FirstInFirstOut.join (h : FirstInFirstOut start joined queue served) (more : List A) :
    FirstInFirstOut start (joined ++ more) (queue ++ more) served := by
  simpa [FirstInFirstOut] using congrArg (· ++ more) h

/-- Whoever is served stood at the front. -/
theorem FirstInFirstOut.serve {front : List A}
    (h : FirstInFirstOut start joined (front ++ queue) served) :
    FirstInFirstOut start joined queue (served ++ front) := by
  simpa [FirstInFirstOut] using h

/-- Everybody is served in the order of arrival. -/
theorem FirstInFirstOut.served_prefix (h : FirstInFirstOut start joined queue served) :
    served <+: start ++ joined :=
  ⟨queue, h⟩

/-- Nobody is served more often than they have come. -/
theorem FirstInFirstOut.count_served_le [DecidableEq A] (h : FirstInFirstOut start joined queue served)
    (x : A) : served.count x ≤ start.count x + joined.count x := by
  rw [← List.count_append]
  exact h.served_prefix.sublist.count_le x

/-- The queue has not run empty before all that it held at the start were served. -/
theorem FirstInFirstOut.nonempty (h : FirstInFirstOut start joined queue served)
    (hlength : served.length < start.length) : queue ≠ [] := by
  intro hempty
  have hsame : served.length + queue.length = start.length + joined.length := by
    simpa [FirstInFirstOut] using congrArg List.length h
  rw [hempty, List.length_nil] at hsame
  omega

end FirstInFirstOut

end Queueing
