import Mathlib.Order.Nat

/-!
# Tokens that are each held in at most one place

A token is described by how often each place holds it. A transition leaves these numbers
alone, takes one occurrence from one place to another, or drops one occurrence. A token that
is held at most once in at most one place stays so, and without drops a token that is held
somewhere stays held somewhere. The laws are invariants of every system whose transitions
only move and drop tokens.
-/

namespace TokenPlacement

variable {P : Type*}

/-- At most one place holds the token, and it holds it at most once. -/
def Exclusive (held : P → ℕ) : Prop :=
  ∃ p, held p ≤ 1 ∧ ∀ q, q ≠ p → held q = 0

/-- One place holds the token once and no other place holds it. -/
def Single (held : P → ℕ) : Prop :=
  ∃ p, held p = 1 ∧ ∀ q, q ≠ p → held q = 0

/-- One occurrence leaves `a` for `b`; every other place keeps its number of occurrences. -/
structure Moves (a b : P) (held held' : P → ℕ) : Prop where
  taken : held a = held' a + 1
  given : held' b = held b + 1
  others : ∀ p, p ≠ a → p ≠ b → held' p = held p

/-- One occurrence leaves `a` and disappears. -/
structure Drops (a : P) (held held' : P → ℕ) : Prop where
  taken : held a = held' a + 1
  others : ∀ p, p ≠ a → held' p = held p

/-- What a transition does to a token that it does not drop. -/
def Steps (held held' : P → ℕ) : Prop :=
  held' = held ∨ ∃ a b, Moves a b held held'

/-- A single token is held exclusively. -/
theorem Single.exclusive {held : P → ℕ} (h : Single held) : Exclusive held := by
  obtain ⟨p, hone, hrest⟩ := h
  exact ⟨p, hone.le, hrest⟩

/-- An exclusive token that is held somewhere is a single token. -/
theorem Exclusive.single {held : P → ℕ} (h : Exclusive held) {p : P} (hp : 0 < held p) :
    Single held := by
  obtain ⟨q, hone, hrest⟩ := h
  obtain rfl : p = q := by
    by_contra hne
    exact absurd (hrest p hne) hp.ne'
  exact ⟨p, by omega, hrest⟩

/-- Some place holds a single token. -/
theorem Single.exists_pos {held : P → ℕ} (h : Single held) : ∃ p, 0 < held p := by
  obtain ⟨p, hone, -⟩ := h
  exact ⟨p, by omega⟩

/-- Two places that both hold an exclusive token are the same place. -/
theorem Exclusive.eq_of_pos {held : P → ℕ} (h : Exclusive held) {p q : P} (hp : 0 < held p)
    (hq : 0 < held q) : p = q := by
  obtain ⟨r, -, hrest⟩ := h
  have hpr : p = r := by
    by_contra hne
    exact absurd (hrest p hne) hp.ne'
  have hqr : q = r := by
    by_contra hne
    exact absurd (hrest q hne) hq.ne'
  rw [hpr, hqr]

/-- No place holds an exclusive token twice. -/
theorem Exclusive.le_one {held : P → ℕ} (h : Exclusive held) (p : P) : held p ≤ 1 := by
  obtain ⟨r, hone, hrest⟩ := h
  by_cases hpr : p = r
  · exact hpr ▸ hone
  · have := hrest p hpr
    omega

/-- A place that holds an exclusive token holds it once. -/
theorem Exclusive.eq_one {held : P → ℕ} (h : Exclusive held) {p : P} (hp : 0 < held p) :
    held p = 1 := by
  have := h.le_one p
  omega

/-- A place that holds an exclusive token leaves no occurrence for another place. -/
theorem Exclusive.eq_zero {held : P → ℕ} (h : Exclusive held) {p q : P} (hp : 0 < held p)
    (hne : q ≠ p) : held q = 0 := by
  by_contra hq
  exact hne (h.eq_of_pos (Nat.pos_of_ne_zero hq) hp)

/-- Moving an occurrence of an exclusive token leaves it exclusive. -/
theorem Exclusive.moves {held held' : P → ℕ} (h : Exclusive held) {a b : P}
    (hm : Moves a b held held') : Exclusive held' := by
  have htaken := hm.taken
  have hgiven := hm.given
  have ha : held a = 1 := h.eq_one (by omega)
  have hab : b ≠ a := by
    rintro rfl
    omega
  have hb : held b = 0 := h.eq_zero (by omega) hab
  refine ⟨b, by omega, fun q hq => ?_⟩
  by_cases hqa : q = a
  · subst hqa
    omega
  · rw [hm.others q hqa hq]
    exact h.eq_zero (by omega) hqa

/-- Dropping an occurrence of an exclusive token leaves it exclusive. -/
theorem Exclusive.drops {held held' : P → ℕ} (h : Exclusive held) {a : P}
    (hd : Drops a held held') : Exclusive held' := by
  have htaken := hd.taken
  have ha : held a = 1 := h.eq_one (by omega)
  refine ⟨a, by omega, fun q hq => ?_⟩
  rw [hd.others q hq]
  exact h.eq_zero (by omega) hq

/-- Exclusive tokens stay exclusive in every transition that moves tokens. -/
theorem Exclusive.steps {held held' : P → ℕ} (h : Exclusive held) (hs : Steps held held') :
    Exclusive held' := by
  rcases hs with rfl | ⟨a, b, hm⟩
  · exact h
  · exact h.moves hm

/-- Single tokens stay single in every transition that moves tokens. -/
theorem Single.steps {held held' : P → ℕ} (h : Single held) (hs : Steps held held') :
    Single held' := by
  have hex := h.exclusive.steps hs
  rcases hs with rfl | ⟨a, b, hm⟩
  · exact h
  · have hgiven := hm.given
    exact hex.single (p := b) (by omega)

end TokenPlacement
