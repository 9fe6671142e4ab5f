import Mathlib.Data.Finset.Card
import Mathlib.Tactic.Simps.Basic

/-!
# Intrusive reference counting

`N` names pointer objects, `A` the objects they refer to, and `O` is what such an object is besides
its use count. Every operation of an intrusive pointer is a pointer write together with the calls of
the two functions that the pointee's type provides: one adds a reference, the other releases one and
disposes of the object if that was the last. Whatever these operations are composed to, a use count
differs from the number of pointers by the references that were counted in from the start.
-/

namespace ReferenceCounting

variable {N A O : Type*}

/-- Pointer objects and the objects that they share. Outside of its lifetime a pointer is null. -/
structure Store (N A O : Type*) where
  live : Finset N
  px : N → Option A
  useCount : A → ℕ
  obj : A → O
  dead : ∀ n, n ∉ live → px n = none

namespace Store

variable {s : Store N A O} {dispose : O → O} {n m : N} {a : A} {p : Option A}

section Pointers

variable [DecidableEq N]

/-- Write a pointer object, which begins to exist if it did not. -/
@[simps -fullyApplied] def write (s : Store N A O) (n : N) (p : Option A) : Store N A O where
  live := insert n s.live
  px := Function.update s.px n p
  useCount := s.useCount
  obj := s.obj
  dead m hm := by
    obtain ⟨hne, hdead⟩ := not_or.mp (fun h => hm (Finset.mem_insert.mpr h))
    rw [Function.update_of_ne hne, s.dead m hdead]

/-- End the lifetime of a pointer object. -/
@[simps -fullyApplied] def erase (s : Store N A O) (n : N) : Store N A O where
  live := s.live.erase n
  px := Function.update s.px n none
  useCount := s.useCount
  obj := s.obj
  dead m hm := by
    by_cases hmn : m = n
    · rw [hmn, Function.update_self]
    · rw [Function.update_of_ne hmn, s.dead m fun h => hm (Finset.mem_erase.mpr ⟨hmn, h⟩)]

/-- The move constructor. -/
def moveConstruct (s : Store N A O) (n m : N) : Store N A O := (s.write n (s.px m)).write m none

/-- Exchange two pointers. -/
def swap (s : Store N A O) (n m : N) : Store N A O := (s.write n (s.px m)).write m (s.px n)

@[simp] theorem moveConstruct_live : (s.moveConstruct n m).live = insert m (insert n s.live) := rfl
@[simp] theorem moveConstruct_px :
    (s.moveConstruct n m).px = Function.update (Function.update s.px n (s.px m)) m none := rfl
@[simp] theorem moveConstruct_obj : (s.moveConstruct n m).obj = s.obj := rfl

@[simp] theorem swap_live : (s.swap n m).live = insert m (insert n s.live) := rfl
@[simp] theorem swap_px :
    (s.swap n m).px = Function.update (Function.update s.px n (s.px m)) m (s.px n) := rfl
@[simp] theorem swap_obj : (s.swap n m).obj = s.obj := rfl

end Pointers

section References

variable [DecidableEq A]

/-- Count a reference to the object of a pointer value. -/
def addRef (s : Store N A O) : Option A → Store N A O
  | none => s
  | some a => { s with useCount := Function.update s.useCount a (s.useCount a + 1) }

/-- Give up a reference to the object of a pointer value. -/
def release (dispose : O → O) (s : Store N A O) : Option A → Store N A O
  | none => s
  | some a =>
    { s with
      useCount := Function.update s.useCount a (s.useCount a - 1)
      obj := if s.useCount a = 1 then Function.update s.obj a (dispose (s.obj a)) else s.obj }

/-- A new object, with some references counted in. -/
@[simps -fullyApplied] def allocate (s : Store N A O) (a : A) (initial : ℕ) (o : O) : Store N A O :=
  { s with useCount := Function.update s.useCount a initial, obj := Function.update s.obj a o }

/-- Change an object, but not its use count. -/
@[simps -fullyApplied] def modify (s : Store N A O) (a : A) (f : O → O) : Store N A O :=
  { s with obj := Function.update s.obj a (f (s.obj a)) }

/-- How often a pointer value refers to an object. -/
def references (p : Option A) (a : A) : ℕ := if p = some a then 1 else 0

@[simp] theorem references_none (a : A) : references none a = 0 := rfl
@[simp] theorem references_self (a : A) : references (some a) a = 1 := if_pos rfl

theorem references_of_ne (h : p ≠ some a) : references p a = 0 := if_neg h

@[simp] theorem references_some {b : A} (h : a ≠ b) : references (some b) a = 0 :=
  references_of_ne (by simpa using Ne.symm h)

@[simp] theorem addRef_live : (s.addRef p).live = s.live := by cases p <;> rfl
@[simp] theorem addRef_px : (s.addRef p).px = s.px := by cases p <;> rfl
@[simp] theorem addRef_obj : (s.addRef p).obj = s.obj := by cases p <;> rfl

@[simp] theorem release_live : (s.release dispose p).live = s.live := by cases p <;> rfl
@[simp] theorem release_px : (s.release dispose p).px = s.px := by cases p <;> rfl

theorem addRef_useCount (a : A) :
    (s.addRef p).useCount a = s.useCount a + references p a := by
  cases p with
  | none => simp [addRef]
  | some b =>
    by_cases hab : a = b
    · simp [addRef, hab]
    · simp [addRef, hab]

theorem release_useCount (a : A) :
    (s.release dispose p).useCount a = s.useCount a - references p a := by
  cases p with
  | none => simp [release]
  | some b =>
    by_cases hab : a = b
    · simp [release, hab]
    · simp [release, hab]

/-- A release that disposes of nothing leaves the objects alone. -/
@[simp] theorem release_id_obj : (s.release id p).obj = s.obj := by
  cases p with
  | none => rfl
  | some a => simp [release]

/-- Only the last reference disposes of the object. -/
theorem release_obj (h : ∀ a, p = some a → s.useCount a ≠ 1) :
    (s.release dispose p).obj = s.obj := by
  cases p with
  | none => rfl
  | some a => simp [release, h a rfl]

/-- The pointers that refer to an object. -/
def pointers (s : Store N A O) (a : A) : Finset N := s.live.filter (s.px · = some a)

/-- How many pointers refer to an object. -/
def count (s : Store N A O) (a : A) : ℕ := (s.pointers a).card

theorem mem_pointers : n ∈ s.pointers a ↔ s.px n = some a := by
  refine ⟨fun h => (Finset.mem_filter.mp h).2, fun h => Finset.mem_filter.mpr ⟨?_, h⟩⟩
  by_contra hdead
  simp [s.dead n hdead] at h

/-- An object that some pointer refers to is counted. -/
theorem count_pos (h : s.px n = some a) : 0 < s.count a :=
  Finset.card_pos.mpr ⟨n, mem_pointers.mpr h⟩

theorem count_eq_zero : s.count a = 0 ↔ ∀ n, s.px n ≠ some a := by
  rw [count, Finset.card_eq_zero, Finset.eq_empty_iff_forall_notMem]
  exact forall_congr' fun n => not_congr mem_pointers

/-- The number of pointers only depends on the pointers. -/
theorem count_congr {s' : Store N A O} (h : s'.px = s.px) : s'.count a = s.count a := by
  have hsame : s'.pointers a = s.pointers a := by
    ext n
    rw [mem_pointers, mem_pointers, h]
  rw [count, count, hsame]

@[simp] theorem count_addRef : (s.addRef p).count a = s.count a := count_congr addRef_px
@[simp] theorem count_release : (s.release dispose p).count a = s.count a := count_congr release_px

/-- Every use count is the number of pointers and of the references counted in from the start. -/
def Counted (initial : A → ℕ) (s : Store N A O) : Prop :=
  ∀ a, s.useCount a = initial a + s.count a

end References

variable [DecidableEq N] [DecidableEq A]

/-- Construct a pointer from a pointer value, in particular from that of another pointer. -/
def construct (s : Store N A O) (n : N) (p : Option A) : Store N A O := (s.addRef p).write n p

/-- The destructor of a pointer. -/
def destroy (dispose : O → O) (s : Store N A O) (n : N) : Store N A O :=
  (s.erase n).release dispose (s.px n)

/-- Assign a pointer value: a temporary pointer is constructed from it, swapped with the target and
destroyed. -/
def assign (dispose : O → O) (s : Store N A O) (n : N) (p : Option A) : Store N A O :=
  ((s.addRef p).write n p).release dispose (s.px n)

/-- Assign another pointer that gives up its value: a temporary pointer is move constructed from it,
swapped with the target and destroyed. -/
def moveAssign (dispose : O → O) (s : Store N A O) (n m : N) : Store N A O :=
  ((s.write n (s.px m)).write m none).release dispose (s.px n)

@[simp] theorem construct_live : (s.construct n p).live = insert n s.live := by simp [construct]
@[simp] theorem construct_px : (s.construct n p).px = Function.update s.px n p := by
  simp [construct]
@[simp] theorem construct_obj : (s.construct n p).obj = s.obj := by simp [construct]

@[simp] theorem destroy_live : (s.destroy dispose n).live = s.live.erase n := by simp [destroy]
@[simp] theorem destroy_px : (s.destroy dispose n).px = Function.update s.px n none := by
  simp [destroy]
@[simp] theorem destroy_id_obj : (s.destroy id n).obj = s.obj := by simp [destroy]

@[simp] theorem assign_live : (s.assign dispose n p).live = insert n s.live := by simp [assign]
@[simp] theorem assign_px : (s.assign dispose n p).px = Function.update s.px n p := by simp [assign]
@[simp] theorem moveAssign_live :
    (s.moveAssign dispose n m).live = insert m (insert n s.live) := by simp [moveAssign]
@[simp] theorem moveAssign_px : (s.moveAssign dispose n m).px =
    Function.update (Function.update s.px n (s.px m)) m none := by simp [moveAssign]

@[simp] theorem assign_id_obj : (s.assign id n p).obj = s.obj := by simp [assign]

section Counting

/-- One pointer is counted apart from the others. -/
theorem count_eq_erase (n : N) :
    s.count a = ((s.pointers a).erase n).card + references (s.px n) a := by
  by_cases h : s.px n = some a
  · rw [h, references_self, Finset.card_erase_add_one (mem_pointers.mpr h), count]
  · rw [references_of_ne h, Finset.erase_eq_of_notMem (fun hn => h (mem_pointers.mp hn)), count,
      Nat.add_zero]

/-- Writing a pointer counts the new value and no longer counts the old one. -/
theorem count_write (s : Store N A O) (n : N) (p : Option A) (a : A) :
    (s.write n p).count a + references (s.px n) a = s.count a + references p a := by
  have hothers : ((s.write n p).pointers a).erase n = (s.pointers a).erase n := by
    ext m
    by_cases hmn : m = n
    · simp [hmn]
    · simp [mem_pointers, hmn]
  have hnew := count_eq_erase (s := s.write n p) (a := a) n
  have hold := count_eq_erase (s := s) (a := a) n
  rw [hothers, write_px, Function.update_self] at hnew
  omega

/-- A pointer that ends its lifetime is no longer counted. -/
theorem count_erase (s : Store N A O) (n : N) (a : A) :
    (s.erase n).count a + references (s.px n) a = s.count a := by
  have hsame : (s.erase n).count a = (s.write n none).count a := count_congr rfl
  have hwrite := count_write s n none a
  rw [hsame, hwrite, references_none, Nat.add_zero]

theorem count_construct (hn : n ∉ s.live) :
    (s.construct n p).count a = s.count a + references p a := by
  have hwrite := count_write (s.addRef p) n p a
  rw [addRef_px, s.dead n hn] at hwrite
  simpa [construct] using hwrite

theorem count_moveConstruct (hn : n ∉ s.live) (hm : m ∈ s.live) :
    (s.moveConstruct n m).count a = s.count a := by
  have hmn : m ≠ n := fun hmn => hn (hmn ▸ hm)
  have hfirst := count_write s n (s.px m) a
  have hsecond := count_write (s.write n (s.px m)) m none a
  rw [s.dead n hn] at hfirst
  rw [write_px, Function.update_of_ne hmn] at hsecond
  rw [references_none] at hfirst hsecond
  rw [moveConstruct]
  omega

theorem count_swap : (s.swap n m).count a = s.count a := by
  have hfirst := count_write s n (s.px m) a
  have hsecond := count_write (s.write n (s.px m)) m (s.px n) a
  have hm : (s.write n (s.px m)).px m = s.px m := by
    by_cases hmn : m = n <;> simp [hmn]
  rw [hm] at hsecond
  rw [swap]
  omega

theorem count_moveAssign (s : Store N A O) (dispose : O → O) (h : m ≠ n) (a : A) :
    (s.moveAssign dispose n m).count a + references (s.px n) a = s.count a := by
  have hfirst := count_write s n (s.px m) a
  have hsecond := count_write (s.write n (s.px m)) m none a
  rw [write_px, Function.update_of_ne h, references_none] at hsecond
  rw [moveAssign, count_release]
  omega

theorem count_destroy (s : Store N A O) (dispose : O → O) (n : N) (a : A) :
    (s.destroy dispose n).count a + references (s.px n) a = s.count a := by
  rw [destroy, count_release, count_erase]

theorem count_assign (s : Store N A O) (dispose : O → O) (n : N) (p : Option A) (a : A) :
    (s.assign dispose n p).count a + references (s.px n) a = s.count a + references p a := by
  have hwrite := count_write (s.addRef p) n p a
  rw [addRef_px, count_addRef] at hwrite
  rw [assign, count_release, hwrite]

/-- A pointer that does not hold the last reference is destroyed or reset without a disposal. -/
theorem destroy_obj (h : ∀ a, s.px n = some a → s.useCount a ≠ 1) :
    (s.destroy dispose n).obj = s.obj := release_obj h

theorem reset_obj (h : ∀ a, s.px n = some a → s.useCount a ≠ 1) :
    (s.assign dispose n none).obj = s.obj := release_obj h

theorem moveAssign_obj (h : ∀ a, s.px n = some a → s.useCount a ≠ 1) :
    (s.moveAssign dispose n m).obj = s.obj := release_obj h

end Counting

/-- All pointers refer to objects of one kind. -/
def Refers (P : A → Prop) (s : Store N A O) : Prop := ∀ n a, s.px n = some a → P a

section Kinds

variable {P : A → Prop}

omit [DecidableEq N] [DecidableEq A] in
theorem Refers.congr {s' : Store N A O} (h : Refers P s) (hpx : s'.px = s.px) : Refers P s' :=
  fun n a hn => h n a (hpx ▸ hn)

omit [DecidableEq A] in
theorem Refers.write (h : Refers P s) (hp : ∀ a, p = some a → P a) : Refers P (s.write n p) := by
  intro m a hm
  by_cases hmn : m = n
  · subst hmn
    exact hp a (by simpa using hm)
  · exact h m a (by simpa [hmn] using hm)

theorem Refers.construct (h : Refers P s) (hp : ∀ a, p = some a → P a) :
    Refers P (s.construct n p) :=
  (h.congr addRef_px).write hp

omit [DecidableEq A] in
theorem Refers.moveConstruct (h : Refers P s) : Refers P (s.moveConstruct n m) :=
  (h.write fun a => h m a).write (by simp)

omit [DecidableEq A] in
theorem Refers.swap (h : Refers P s) : Refers P (s.swap n m) :=
  (h.write fun a => h m a).write fun a => h n a

theorem Refers.destroy (h : Refers P s) : Refers P (s.destroy dispose n) :=
  (h.write (n := n) (p := none) (by simp)).congr (by simp)

theorem Refers.moveAssign (h : Refers P s) : Refers P (s.moveAssign dispose n m) :=
  ((h.write fun a => h m a).write (by simp)).congr release_px

theorem Refers.assign (h : Refers P s) (hp : ∀ a, p = some a → P a) :
    Refers P (s.assign dispose n p) :=
  ((h.congr addRef_px).write hp).congr release_px

end Kinds

section Laws

variable {initial : A → ℕ}

theorem Counted.construct (h : Counted initial s) (hn : n ∉ s.live) :
    Counted initial (s.construct n p) := by
  intro a
  rw [count_construct hn, Store.construct, write_useCount, addRef_useCount, h a, Nat.add_assoc]

theorem Counted.moveConstruct (h : Counted initial s) (hn : n ∉ s.live) (hm : m ∈ s.live) :
    Counted initial (s.moveConstruct n m) := by
  intro a
  rw [count_moveConstruct hn hm]
  exact h a

theorem Counted.swap (h : Counted initial s) : Counted initial (s.swap n m) := by
  intro a
  rw [count_swap]
  exact h a

theorem Counted.destroy (h : Counted initial s) : Counted initial (s.destroy dispose n) := by
  intro a
  have hcount := count_destroy s dispose n a
  have := h a
  rw [Store.destroy, release_useCount, erase_useCount, ← Store.destroy]
  omega

theorem Counted.assign (h : Counted initial s) : Counted initial (s.assign dispose n p) := by
  intro a
  have hcount := count_assign s dispose n p a
  have := h a
  rw [Store.assign, release_useCount, write_useCount, addRef_useCount, ← Store.assign]
  omega

theorem Counted.moveAssign (h : Counted initial s) (hmn : m ≠ n) :
    Counted initial (s.moveAssign dispose n m) := by
  intro a
  have hcount := count_moveAssign s dispose hmn a
  have := h a
  rw [Store.moveAssign, release_useCount, write_useCount, write_useCount, ← Store.moveAssign]
  omega

omit [DecidableEq N] in
/-- A reference that was counted in and is never given up keeps the object. -/
theorem Counted.useCount_ne_one (h : Counted initial s) (hinitial : 0 < initial a)
    (hn : s.px n = some a) : s.useCount a ≠ 1 := by
  have hpos := count_pos hn
  have := h a
  omega

omit [DecidableEq N] in
/-- A new object may have references counted in. -/
theorem Counted.allocate {i : ℕ} {o : O} (h : Counted initial s) (hnew : ∀ n, s.px n ≠ some a) :
    Counted (Function.update initial a i) (s.allocate a i o) := by
  intro b
  have hcount : (s.allocate a i o).count b = s.count b := count_congr rfl
  rw [hcount, allocate_useCount]
  by_cases hba : b = a
  · subst hba
    simp [count_eq_zero.mpr hnew]
  · simpa [hba] using h b

omit [DecidableEq N] in
theorem Counted.modify {f : O → O} (h : Counted initial s) : Counted initial (s.modify a f) := by
  intro b
  have hcount : (s.modify a f).count b = s.count b := count_congr rfl
  rw [hcount, modify_useCount, h b]

end Laws

end Store

end ReferenceCounting
