import Ephippion.Run.Checks

/-!
# What is allocated and what is compared

Both numbers as functions of a parameter and its specification: the allocation goes by the
parameter's type, the comparison by the type of the value in the harness, which for every pointer
parameter is `i8*`.
-/

namespace Ephippion

/-- The number of bytes allocated for a copy of an argument. -/
def Param.bufferSize (dl : DataLayout) (n : IterationsNumTy) (p : Param) (spec : ArgSpec) : Nat :=
  ((if p.type.isPointerTy then multiplier spec n else 1) * dl.getTypeAllocSize p.elemTy).toNat

/-- The number of bytes of it that are compared. -/
def Param.comparedSize (dl : DataLayout) (n : IterationsNumTy) (p : Param) (spec : ArgSpec) : Nat :=
  (multiplier spec n *
    dl.getTypeAllocSize (if p.type.isPointerTy then .int8Ty else p.type)).toNat

/-- Every comparison stays inside its buffers. -/
def ComparesInside (dl : DataLayout) (n : IterationsNumTy) (params : List Param)
    (specs : List ArgSpec) : Prop :=
  ∀ a ∈ params.zip specs, isOutbound a.2.direction →
    a.1.comparedSize dl n a.2 ≤ a.1.bufferSize dl n a.2

/-- Every outbound buffer is compared as a whole. -/
def ComparesAll (dl : DataLayout) (n : IterationsNumTy) (params : List Param)
    (specs : List ArgSpec) : Prop :=
  ∀ a ∈ params.zip specs, isOutbound a.2.direction → a.1.type.isPointerTy →
    a.1.bufferSize dl n a.2 ≤ a.1.comparedSize dl n a.2

instance (dl : DataLayout) (n : IterationsNumTy) (params : List Param) (specs : List ArgSpec) :
    Decidable (ComparesInside dl n params specs) :=
  inferInstanceAs (Decidable (∀ a ∈ params.zip specs, isOutbound a.2.direction →
    a.1.comparedSize dl n a.2 ≤ a.1.bufferSize dl n a.2))

instance (dl : DataLayout) (n : IterationsNumTy) (params : List Param) (specs : List ArgSpec) :
    Decidable (ComparesAll dl n params specs) :=
  inferInstanceAs (Decidable (∀ a ∈ params.zip specs, isOutbound a.2.direction →
    a.1.type.isPointerTy → a.1.bufferSize dl n a.2 ≤ a.1.comparedSize dl n a.2))

/-! ## Parameters and slots -/

section
variable {params : List Param} {specs : List ArgSpec} {slots : List Slot} {dl : DataLayout}
  {n : IterationsNumTy}

theorem Slot.comparedSize_eq (s : Slot) :
    (s.comparedSize dl n).toNat = s.param.comparedSize dl n s.spec := by
  unfold Slot.comparedSize Param.comparedSize Slot.copyTy Slot.isPtr
  split <;> rfl

theorem IsLayout.comparesInside (hl : IsLayout params specs slots) :
    ComparesInside dl n params specs ↔
      ∀ s ∈ slots, s.outbound → (s.comparedSize dl n).toNat ≤ s.size dl n := by
  rw [ComparesInside, hl.zip_eq, List.forall_mem_map]
  simp only [Slot.comparedSize_eq]
  rfl

theorem IsLayout.comparesAll (hl : IsLayout params specs slots) :
    ComparesAll dl n params specs ↔
      ∀ s ∈ slots, s.outbound → s.isPtr → s.size dl n ≤ (s.comparedSize dl n).toNat := by
  rw [ComparesAll, hl.zip_eq, List.forall_mem_map]
  simp only [Slot.comparedSize_eq]
  rfl

end

end Ephippion
