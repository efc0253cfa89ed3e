import Ephippion.Proof.Encapsulate
import Ephippion.Run.CallSites

/-!
# The types of the library calls

`malloc` and `free` are about heap copies, which are `i8*`, and the two functions that are declared
variadic take any operands. Only `memcpy` has fixed operands that may be allocas: of an argument
that is passed by value and is both inbound and outbound. So the calls are well typed exactly if
each of these is an `i8` and an alloca's pointer an ordinary one (`callsWellTyped_iff`).
-/

namespace Ephippion

open SymbolicEncapsulation

/-- The fixed operands of a call have the types of the callee's parameters, and there are no others
unless it is variadic. -/
def WellTypedCall (callee : FuncRef) (args : List Value) : Prop :=
  (args.take callee.type.params.length).map Value.getType = callee.type.params ∧
    (callee.type.isVarArg = false → args.length = callee.type.params.length)

instance (callee : FuncRef) (args : List Value) : Decidable (WellTypedCall callee args) :=
  inferInstanceAs (Decidable (_ ∧ (_ → _)))

/-- Every library call of the harness is well typed. -/
def CallsWellTyped (M : Module) (h : Nat) (H : Harness) : Prop :=
  ∀ callee args, LibraryCall M h H callee args → WellTypedCall callee args

/-- What is copied from one alloca to another is an `i8`, and the pointers are `i8*`. -/
def CopiesBytes (dl : DataLayout) (params : List Param) (specs : List ArgSpec) : Prop :=
  ∀ a ∈ params.zip specs, a.1.type.isPointerTy = false → isInbound a.2.direction →
    isOutbound a.2.direction → a.1.type = .int8Ty ∧ dl.getAllocaAddrSpace = 0

instance (dl : DataLayout) (params : List Param) (specs : List ArgSpec) :
    Decidable (CopiesBytes dl params specs) :=
  inferInstanceAs (Decidable (∀ a ∈ params.zip specs, a.1.type.isPointerTy = false →
    isInbound a.2.direction → isOutbound a.2.direction →
      a.1.type = .int8Ty ∧ dl.getAllocaAddrSpace = 0))

/-! ## The types of copies -/

section
variable {dl : DataLayout} {s : Slot} {setup : Nat}

@[simp] theorem Slot.getType_value1 : (s.value1 setup dl).getType = s.copyTy dl := rfl

@[simp] theorem Slot.getType_value2 : (s.value2 setup dl).getType = s.copyTy dl := by
  unfold Slot.value2
  split <;> rfl

theorem Slot.copyTy_eq_int8Ptr : s.copyTy dl = .int8PtrTy ↔
    (s.isPtr = false → s.param.type = .int8Ty ∧ dl.getAllocaAddrSpace = 0) := by
  unfold Slot.copyTy
  cases hptr : s.isPtr <;> simp

theorem Slot.symbolized_iff (hout : s.outbound = true) :
    s.symbolized = true ↔ isInbound s.spec.direction = true := by
  have hout' : isOutbound s.spec.direction = true := hout
  rw [Slot.symbolized, isOnlyOutbound_eq, hout', Bool.true_and, Bool.not_not]

end

section
variable {senc : SymbolicEncapsulation} {M M' : Module} {F : Nat} {f : Function}
  {n : IterationsNumTy} {specs : List ArgSpec} {h : Nat} {H : Harness}

/-- Only a copy can be badly typed. -/
theorem HarnessAt.wellTyped_iff (hat : HarnessAt h F f n specs H M')
    (hlen : (M'.blocks h).length = H.numBlocks) :
    CallsWellTyped M' h H ↔
      ∀ s ∈ H.slots, s.symbolized → s.outbound → s.copyTy H.dl = .int8PtrTy := by
  constructor
  · intro ht s hs hsym hout
    have := (ht _ _ ((hat.libraryCall_iff hlen).2 ⟨_, .memcpy hs hsym hout⟩)).1
    rw [hat.memcpy_declared.type_eq] at this
    exact s.getType_value2.symm.trans (List.cons.inj this).1
  · intro hcopy callee args hc
    obtain ⟨B, hc⟩ := (hat.libraryCall_iff hlen).1 hc
    rw [WellTypedCall]
    cases hc with
    | malloc =>
      rw [hat.malloc_declared.type_eq]
      exact ⟨rfl, fun _ => rfl⟩
    | free hs hv =>
      rename_i s v
      rw [hat.free_declared.type_eq]
      obtain ⟨hptr, k, rfl⟩ := Harness.heapValues_copy hv
      have hty : s.copyTy H.dl = .int8PtrTy := Slot.copyTy_eq_int8Ptr.2 fun h => by
        rw [hptr] at h
        cases h
      refine ⟨?_, fun _ => rfl⟩
      cases k with
      | first => exact congrArg (fun t => [t]) hty
      | second => exact congrArg (fun t => [t]) (s.getType_value2.trans hty)
    | symbolize1 | symbolize2 =>
      rw [hat.symbolize_declared.type_eq]
      exact ⟨rfl, fun h => by cases h⟩
    | memcmp =>
      rw [hat.memcmp_declared.type_eq]
      exact ⟨rfl, fun h => by cases h⟩
    | assert =>
      rw [hat.assert_declared.type_eq]
      exact ⟨rfl, fun _ => rfl⟩
    | memcpy hs hsym hout =>
      rename_i s
      rw [hat.memcpy_declared.type_eq]
      refine ⟨?_, fun _ => rfl⟩
      show [_, _, _] = [Ty.int8PtrTy, .int8PtrTy, .int64Ty]
      rw [s.getType_value1, s.getType_value2, hcopy s hs hsym hout]
      rfl

/-- Every library call of a harness is well typed exactly if what is copied between allocas are
bytes. -/
theorem callsWellTyped_iff (hf : M.functions[F]? = some f) (hdef : f.isDeclaration = false)
    (hok : senc.encapsulate M F n specs = .ok (M', true)) :
    ∃ h H, HarnessBuilt senc M F f n specs M' h H ∧
      (CallsWellTyped M' h H ↔
        CopiesBytes M.dataLayout f.params (padSpecs specs f.params.length)) := by
  obtain ⟨-, -, h, H, hb⟩ := encapsulate_of_ok hf hdef hok
  refine ⟨h, H, hb, ?_⟩
  rw [hb.here.wellTyped_iff hb.length, CopiesBytes, hb.here.layout.zip_eq,
    List.forall_mem_map]
  apply forall₂_congr
  intro s _
  rw [Slot.copyTy_eq_int8Ptr, hb.here.dl_eq, hb.dataLayout]
  constructor
  · intro hs hval hin hout
    exact hs ((Slot.symbolized_iff hout).2 hin) hout hval
  · intro hs hsym hout hval
    exact hs hval ((Slot.symbolized_iff hout).1 hsym) hout

end

theorem callsWellTyped_buffer : ∃ (M' : Module) (h : Nat) (H : Harness),
    SymbolicEncapsulation.encapsulate {} (bufferModule .int32Ty) 0 2
      [⟨"i", .inbound, false⟩, ⟨"p", .both, true⟩] = .ok (M', true) ∧ CallsWellTyped M' h H := by
  have hf : (bufferModule .int32Ty).functions[0]? = some (bufferFunction .int32Ty) := rfl
  obtain ⟨M', hok⟩ := encapsulate_buffer (.inr rfl) [⟨"i", .inbound, false⟩, ⟨"p", .both, true⟩]
  obtain ⟨h, H, -, hiff⟩ := callsWellTyped_iff hf rfl hok
  exact ⟨M', h, H, hok, hiff.2 (by decide)⟩

/-- An `i64` that is inbound and outbound is copied from one `i64*` to another. -/
theorem not_callsWellTyped_plain : ∃ (M' : Module) (h : Nat) (H : Harness),
    HarnessBuilt {} plainModule 0 (emptyFunction "f" [⟨"", .int64Ty⟩]) 2 [⟨"i", .both, false⟩]
      M' h H ∧ ¬ CallsWellTyped M' h H := by
  have hf : plainModule.functions[0]? = some (emptyFunction "f" [⟨"", .int64Ty⟩]) := rfl
  obtain ⟨M', hok⟩ := encapsulate_plain [⟨"i", .both, false⟩]
  obtain ⟨-, -, h, H, hb⟩ := encapsulate_of_ok hf rfl hok
  refine ⟨M', h, H, hb, fun ht => ?_⟩
  rw [hb.here.wellTyped_iff hb.length] at ht
  -- the slot of the only parameter
  obtain ⟨s, hs, hp, -, hspec⟩ := hb.here.layout.slot_at
    (show (emptyFunction "f" [⟨"", .int64Ty⟩]).params[0]? = some ⟨"", .int64Ty⟩ from rfl)
  have hspec' : s.spec = ⟨"i", .both, false⟩ := (Option.some.inj hspec).symm
  have hty := ht s (List.mem_of_getElem? hs) (by rw [Slot.symbolized, hspec']; rfl)
    (by rw [Slot.outbound, hspec']; rfl)
  have := (Slot.copyTy_eq_int8Ptr.1 hty (by rw [Slot.isPtr, hp]; rfl)).1
  rw [hp] at this
  cases this

end Ephippion
