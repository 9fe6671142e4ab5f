import Mathlib.Order.CompletePartialOrder
import Mathlib.Order.Interval.Set.Basic
import Mathlib.Order.Interval.Set.Disjoint
import Lutask.Support.Alignment

/-!
# The layout of a fiber's stack

A fiber gets one block of memory. `MakeWorkerContext` places the context object at its upper end, and
`CreateFiberWithPreallocated` places the record of the fiber below that and the stack below the record.
Pointers and sizes are 64-bit words, and all subtractions wrap.
-/

namespace Lutask

namespace StackLayout

open Alignment

/-- What `malloc` returns when it succeeds: the block does not reach over the end of the memory. -/
structure Block where
  address : BitVec 64
  size : BitVec 64
  nonnull : address ≠ 0
  fits : address.toNat + size.toNat < 2 ^ 64

/-- `lutask::context::StackContext` without its segments. -/
structure StackContext where
  size : BitVec 64
  sp : BitVec 64

/-- `lutask::Preallocated`. -/
structure Preallocated where
  sp : BitVec 64
  size : BitVec 64
  sctx : StackContext

/-- The address of the record, and the first two arguments of `make_fcontext`. -/
structure FiberStack where
  record : BitVec 64
  stackTop : BitVec 64
  size : BitVec 64

/-- `BasicFixedSizeStack::Allocate`. The constructor accepts every size. -/
def allocate (block : Block) : StackContext := ⟨block.size, block.address + block.size⟩

/-- `MakeWorkerContext` for a context object of this size, and `MakeDispatcherContext` as well. -/
def makeWorkerContext (sctx : StackContext) (sizeofContext : BitVec 64) : Preallocated :=
  let storage := (sctx.sp - sizeofContext) &&& ~~~0xff#64
  let stackBottom := sctx.sp - sctx.size
  ⟨storage, storage - stackBottom, sctx⟩

/-- `CreateFiberWithPreallocated` for a record of this size. -/
def createFiberWithPreallocated (palloc : Preallocated) (sizeofRecord : BitVec 64) : FiberStack :=
  let storage := (palloc.sp - sizeofRecord) &&& ~~~0xff#64
  let stackTop := storage - 64#64
  let stackBottom := palloc.sctx.sp - palloc.sctx.size
  ⟨storage, stackTop, stackTop - stackBottom⟩

/-- The addresses of an object. -/
def extent (address size : BitVec 64) : Set ℕ := Set.Ico address.toNat (address.toNat + size.toNat)

/-- Everything lies in the block, and the stack overlaps no object. -/
structure LayoutInside (sctx : StackContext) (sizeofContext sizeofRecord : BitVec 64)
    (palloc : Preallocated) (stack : FiberStack) : Prop where
  /-- No subtraction wraps. -/
  bottomExact : sctx.size ≤ sctx.sp
  storageExact : sizeofContext ≤ sctx.sp
  preallocatedExact : sctx.sp - sctx.size ≤ palloc.sp
  recordExact : sizeofRecord ≤ palloc.sp
  stackTopExact : 64#64 ≤ stack.record
  /-- The objects are aligned. -/
  storageAligned : 256 ∣ palloc.sp.toNat
  recordAligned : 256 ∣ stack.record.toNat
  /-- The stack lies below the record. -/
  bottom : sctx.sp - sctx.size ≤ stack.stackTop
  top : stack.stackTop < stack.record
  /-- The objects lie apart from each other in the block. -/
  disjoint : Disjoint (extent stack.record sizeofRecord) (extent palloc.sp sizeofContext)
  recordInside : extent stack.record sizeofRecord ⊆ extent (sctx.sp - sctx.size) sctx.size
  contextInside : extent palloc.sp sizeofContext ⊆ extent (sctx.sp - sctx.size) sctx.size
  /-- `make_fcontext` gets the exact size of the stack. -/
  size : stack.size.toNat = stack.stackTop.toNat - (sctx.sp - sctx.size).toNat
  /-- The stack lies apart from both objects. -/
  stackRecord : Disjoint (extent (sctx.sp - sctx.size) stack.size) (extent stack.record sizeofRecord)
  stackContext : Disjoint (extent (sctx.sp - sctx.size) stack.size) (extent palloc.sp sizeofContext)

/-- The layout that `Fiber` makes in a block for objects of these sizes. -/
def InsideBlock (block : Block) (sizeofContext sizeofRecord : BitVec 64) : Prop :=
  let sctx := allocate block
  let palloc := makeWorkerContext sctx sizeofContext
  LayoutInside sctx sizeofContext sizeofRecord palloc (createFiberWithPreallocated palloc sizeofRecord)

/-- The gap of 64 bytes, up to the next multiple of 256 above it, the record, in multiples of 256, and the
context fit into the block one after the other. -/
def Fits (block : Block) (sizeofContext sizeofRecord : BitVec 64) : Prop :=
  roundUp 8 (block.address.toNat + 64) + roundUp 8 sizeofRecord.toNat + sizeofContext.toNat ≤
    block.address.toNat + block.size.toNat

instance (block : Block) (sizeofContext sizeofRecord : BitVec 64) :
    Decidable (Fits block sizeofContext sizeofRecord) :=
  inferInstanceAs (Decidable (_ ≤ _))

variable {block : Block} {sizeofContext sizeofRecord : BitVec 64}

theorem allocate_sp (block : Block) :
    (allocate block).sp.toNat = block.address.toNat + block.size.toNat :=
  BitVec.toNat_add_of_lt block.fits

/-- The bottom of the stack is what `malloc` has returned. -/
theorem allocate_bottom (block : Block) : (allocate block).sp - (allocate block).size = block.address :=
  BitVec.add_sub_cancel _ _

/-- The mask of the source clears eight bits. -/
theorem and_not_ff (x : BitVec 64) : x &&& ~~~0xff#64 = alignDown 8 x := rfl

/-- A bound on an object below `sp` is one on `sp` itself, if the subtraction does not wrap. -/
theorem le_storage_iff {sp size : BitVec 64} {a : ℕ} (hsize : size ≤ sp) :
    a ≤ ((sp - size) &&& ~~~0xff#64).toNat ↔ roundUp 8 a + size.toNat ≤ sp.toNat := by
  have hle : size.toNat ≤ sp.toNat := hsize
  rw [and_not_ff, le_alignDown_iff, BitVec.toNat_sub_of_le hsize]
  omega

/-- The objects and the gap have room exactly if both subtractions and the gap stay above the bottom. -/
theorem fits_iff (block : Block) (sizeofContext sizeofRecord : BitVec 64) :
    Fits block sizeofContext sizeofRecord ↔
      sizeofContext ≤ (allocate block).sp ∧
      sizeofRecord ≤ (makeWorkerContext (allocate block) sizeofContext).sp ∧
      block.address.toNat + 64 ≤ (createFiberWithPreallocated
        (makeWorkerContext (allocate block) sizeofContext) sizeofRecord).record.toNat := by
  set storage := (makeWorkerContext (allocate block) sizeofContext).sp with hstorage
  have hroom : ∀ a, sizeofContext ≤ (allocate block).sp →
      (a ≤ storage.toNat ↔ roundUp 8 a + sizeofContext.toNat ≤ (allocate block).sp.toNat) :=
    fun a hcontext => le_storage_iff hcontext
  have hrecord : sizeofRecord ≤ storage → (block.address.toNat + 64 ≤ (createFiberWithPreallocated
      (makeWorkerContext (allocate block) sizeofContext) sizeofRecord).record.toNat ↔
        roundUp 8 (block.address.toNat + 64) + sizeofRecord.toNat ≤ storage.toNat) :=
    fun hle => le_storage_iff hle
  have hround : roundUp 8 (roundUp 8 (block.address.toNat + 64) + sizeofRecord.toNat) =
      roundUp 8 (block.address.toNat + 64) + roundUp 8 sizeofRecord.toNat := by
    rw [Nat.add_comm, roundUp_add 8 _ (dvd_roundUp 8 _), Nat.add_comm]
  have hsp := allocate_sp block
  unfold Fits
  constructor
  · intro hfits
    have hcontext : sizeofContext ≤ (allocate block).sp := by
      rw [BitVec.le_def]
      omega
    have hboth : roundUp 8 (block.address.toNat + 64) + sizeofRecord.toNat ≤ storage.toNat := by
      rw [hroom _ hcontext]
      omega
    have hle : sizeofRecord ≤ storage := by
      rw [BitVec.le_def]
      omega
    exact ⟨hcontext, hle, (hrecord hle).mpr hboth⟩
  · rintro ⟨hcontext, hle, hgap⟩
    have hboth := (hroom _ hcontext).mp ((hrecord hle).mp hgap)
    omega

/-- The layout stays inside its block exactly if the objects and the gap fit into it: nothing in the code
tests that. -/
theorem layout_inside_iff (block : Block) (sizeofContext sizeofRecord : BitVec 64) :
    InsideBlock block sizeofContext sizeofRecord ↔ Fits block sizeofContext sizeofRecord := by
  rw [fits_iff]
  set sctx := allocate block with hsctx
  set palloc := makeWorkerContext sctx sizeofContext with hpalloc
  set stack := createFiberWithPreallocated palloc sizeofRecord with hstack
  have hbottom : sctx.sp - sctx.size = block.address := allocate_bottom block
  have hsp : sctx.sp.toNat = block.address.toNat + block.size.toNat := allocate_sp block
  constructor
  · intro h
    have hgap : block.address.toNat + 64 ≤ stack.record.toNat := by
      have hexact : (64#64).toNat ≤ stack.record.toNat := h.stackTopExact
      have htop : stack.stackTop.toNat = stack.record.toNat - 64 :=
        BitVec.toNat_sub_of_le h.stackTopExact
      have hle : (sctx.sp - sctx.size).toNat ≤ stack.stackTop.toNat := h.bottom
      rw [hbottom] at hle
      simp only [BitVec.toNat_ofNat] at hexact
      omega
    exact ⟨h.storageExact, h.recordExact, hgap⟩
  · rintro ⟨hcontext, hrecord, hgap⟩
    have hstorageLe : palloc.sp.toNat + sizeofContext.toNat ≤ sctx.sp.toNat := by
      have hle : palloc.sp.toNat ≤ (sctx.sp - sizeofContext).toNat := alignDown_le 8 _
      have hcontextLe : sizeofContext.toNat ≤ sctx.sp.toNat := hcontext
      rw [BitVec.toNat_sub_of_le hcontext] at hle
      omega
    have hrecordLe : stack.record.toNat + sizeofRecord.toNat ≤ palloc.sp.toNat := by
      have hle : stack.record.toNat ≤ (palloc.sp - sizeofRecord).toNat := alignDown_le 8 _
      have hsizeLe : sizeofRecord.toNat ≤ palloc.sp.toNat := hrecord
      rw [BitVec.toNat_sub_of_le hrecord] at hle
      omega
    have hexact : 64#64 ≤ stack.record := by
      rw [BitVec.le_def]
      simp only [BitVec.toNat_ofNat]
      omega
    have htop : stack.stackTop.toNat = stack.record.toNat - 64 := BitVec.toNat_sub_of_le hexact
    have hbottomTop : sctx.sp - sctx.size ≤ stack.stackTop := by
      rw [hbottom, BitVec.le_def]
      omega
    have hsize : sctx.size.toNat = block.size.toNat := rfl
    have hbottomExact : sctx.size ≤ sctx.sp := by
      rw [BitVec.le_def]
      omega
    have hstorage : sctx.sp - sctx.size ≤ palloc.sp := by
      rw [hbottom, BitVec.le_def]
      omega
    have htopLt : stack.stackTop < stack.record := by
      rw [BitVec.lt_def]
      omega
    have hdisjoint : Disjoint (extent stack.record sizeofRecord) (extent palloc.sp sizeofContext) := by
      apply Set.Ico_disjoint_Ico.mpr
      omega
    have hrecordInside : extent stack.record sizeofRecord ⊆ extent (sctx.sp - sctx.size) sctx.size := by
      rw [hbottom]
      exact Set.Ico_subset_Ico (by omega) (by omega)
    have hcontextInside : extent palloc.sp sizeofContext ⊆ extent (sctx.sp - sctx.size) sctx.size := by
      rw [hbottom]
      exact Set.Ico_subset_Ico (by omega) (by omega)
    have hstackSize : stack.size.toNat = stack.stackTop.toNat - block.address.toNat := by
      rw [← hbottom]
      exact BitVec.toNat_sub_of_le hbottomTop
    have hstackRecord : Disjoint (extent (sctx.sp - sctx.size) stack.size)
        (extent stack.record sizeofRecord) := by
      rw [hbottom]
      apply Set.Ico_disjoint_Ico.mpr
      omega
    have hstackContext : Disjoint (extent (sctx.sp - sctx.size) stack.size)
        (extent palloc.sp sizeofContext) := by
      rw [hbottom]
      apply Set.Ico_disjoint_Ico.mpr
      omega
    exact
      { bottomExact := hbottomExact
        storageExact := hcontext
        preallocatedExact := hstorage
        recordExact := hrecord
        stackTopExact := hexact
        storageAligned := dvd_alignDown 8 (sctx.sp - sizeofContext)
        recordAligned := dvd_alignDown 8 (palloc.sp - sizeofRecord)
        bottom := hbottomTop
        top := htopLt
        disjoint := hdisjoint
        recordInside := hrecordInside
        contextInside := hcontextInside
        size := BitVec.toNat_sub_of_le hbottomTop
        stackRecord := hstackRecord
        stackContext := hstackContext }

/-- A block of the default size at this address, for small objects. -/
def defaultBlock : Block := ⟨0x10000#64, 0x4000#64, by decide, by decide⟩

example : Fits defaultBlock 200#64 200#64 := by decide

/-- A context object of 20000 bytes does not fit into a stack of the default size: it begins below the
block. -/
theorem large_context_outside : ¬ InsideBlock defaultBlock 20000#64 200#64 := by
  intro h
  have hbottom : (allocate defaultBlock).sp - (allocate defaultBlock).size ≤
      (makeWorkerContext (allocate defaultBlock) 20000#64).sp := h.preallocatedExact
  exact absurd hbottom (by decide)

end StackLayout

end Lutask
