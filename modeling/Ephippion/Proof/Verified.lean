import Ephippion.Proof.Generations
import Ephippion.Proof.Verifier
import Ephippion.Theorems.ControlFlow

/-!
# Harnesses that verify

A harness verifies only if the first parameter of its function is the iterator's, what is copied
from one alloca to another are bytes, and no parameter points to another address space
(`HarnessAt.verifiable`). If this is so each of its blocks verifies, and then all of a module that
did before (`HarnessBuilt.verified`).
-/

namespace Ephippion

open Graph

def Ty.getPointerAddressSpace : Ty → Nat
  | .pointer _ addrSpace => addrSpace
  | _ => 0

/-- What the code of a harness for `f` needs to verify. -/
structure Verifiable (dl : DataLayout) (f : Function) (specs : List ArgSpec) : Prop where
  iterator : TakesIterator f
  bytes : CopiesBytes dl f.params specs
  pointers : ∀ p ∈ f.params, p.type.getPointerAddressSpace = 0

instance (dl : DataLayout) (f : Function) (specs : List ArgSpec) :
    Decidable (Verifiable dl f specs) :=
  decidable_of_iff (TakesIterator f ∧ CopiesBytes dl f.params specs ∧
    ∀ p ∈ f.params, p.type.getPointerAddressSpace = 0)
    ⟨fun h => ⟨h.1, h.2.1, h.2.2⟩, fun h => ⟨h.1, h.2, h.3⟩⟩

theorem Module.AvailableAt.of_isConstant {M : Module} {h : Nat} {ref : InstRef} {v : Value}
    (hv : v.isConstant) : M.AvailableAt h ref v := by
  cases v with
  | inst => cases hv
  | detachedCast => cases hv
  | _ => trivial

/-- What a library call is given are constants and, after the setup, copies. -/
theorem CallSite.args {H : Harness} {B : HBlock} {callee : FuncRef} {args : List Value}
    (hc : CallSite H B callee args) : ∀ v ∈ args, v.isConstant ∨
      B ≠ .setup ∧ ∃ s ∈ H.slots, ∃ k : Copy, v = s.valueOf H.base H.dl k := by
  cases hc with
  | malloc => exact fun v hv => .inl (by rw [List.mem_singleton.1 hv]; rfl)
  | symbolize1 hs =>
    simp only [List.forall_mem_cons, List.not_mem_nil, false_implies, implies_true, and_true]
    exact ⟨.inr ⟨by decide, _, hs, .first, rfl⟩, .inl rfl, .inl rfl⟩
  | symbolize2 hs =>
    simp only [List.forall_mem_cons, List.not_mem_nil, false_implies, implies_true, and_true]
    exact ⟨.inr ⟨by decide, _, hs, .second, rfl⟩, .inl rfl, .inl rfl⟩
  | memcpy hs =>
    simp only [List.forall_mem_cons, List.not_mem_nil, false_implies, implies_true, and_true]
    exact ⟨.inr ⟨by decide, _, hs, .second, rfl⟩, .inr ⟨by decide, _, hs, .first, rfl⟩, .inl rfl⟩
  | memcmp hs =>
    have hmem := (List.mem_filter.1 (List.mem_of_getElem? hs)).1
    simp only [List.forall_mem_cons, List.not_mem_nil, false_implies, implies_true, and_true]
    exact ⟨.inr ⟨by simp, _, hmem, .first, rfl⟩, .inr ⟨by simp, _, hmem, .second, rfl⟩, .inl rfl⟩
  | assert =>
    simp only [assertArgs, List.forall_mem_cons, List.not_mem_nil, false_implies, implies_true,
      and_true]
    exact ⟨.inl rfl, .inl rfl, .inl rfl, .inl rfl⟩
  | free hs hv =>
    obtain ⟨-, k, hk⟩ := Harness.heapValues_copy hv
    exact fun v hv => .inr ⟨by decide, _, hs, k, by rw [List.mem_singleton.1 hv, hk]⟩

/-! ## What does not verify -/

section
variable {h F : Nat} {f : Function} {n : IterationsNumTy} {specs : List ArgSpec} {H : Harness}
  {M' : Module}

theorem HarnessAt.operandInstr (hat : HarnessAt h F f n specs H M') {k : Copy} {i : Instr}
    (hi : i ∈ operandInstrs (H.args k)) : ∃ s ∈ H.slots,
      (i.op = .load (s.valueOf H.base H.dl k) ∨
        s.isPtr ∧ i.op = .cast .bitCast (s.valueOf H.base H.dl k) s.param.type) := by
  obtain ⟨a, ha, hins⟩ := List.mem_filterMap.1 hi
  obtain ⟨m, hm⟩ := List.getElem?_of_mem ha
  rw [H.args_eq k, getElem?_argsFrom, Nat.zero_add, Option.map_eq_some_iff] at hm
  obtain ⟨v, hv, rfl⟩ := hm
  cases m with
  | zero =>
    obtain rfl : indVar (H.id k.hdr) (H.ind k) = v := Option.some.inj hv
    simp [Arg.instr?, indVar, Value.getType, Ty.isPointerTy] at hins
  | succ m =>
    rw [List.getElem?_cons_succ, List.getElem?_map, Option.map_eq_some_iff] at hv
    obtain ⟨s, hs, rfl⟩ := hv
    rw [List.getElem?_tail] at hs
    have hp : f.params[m + 1]? = some s.param := by
      rw [← hat.layout.params_eq, List.getElem?_map, hs, Option.map_some]
    rw [hat.paramType hp] at hins
    refine ⟨s, List.mem_of_getElem? hs, ?_⟩
    obtain ⟨name, hv⟩ := s.valueOf_eq H.base H.dl k
    have hal : (s.valueOf H.base H.dl k).isAllocaInst = !s.isPtr := by rw [hv]; rfl
    unfold Arg.instr? at hins
    rw [hal] at hins
    cases hptr : s.isPtr with
    | false =>
      rw [hptr] at hins
      split at hins
      · cases hins
        exact .inl rfl
      · cases hins
    | true =>
      rw [hptr] at hins
      split at hins
      · rw [if_neg (by decide)] at hins
        split at hins <;> cases hins
        exact .inr ⟨rfl, rfl⟩
      · cases hins

/-- A pointer that is not an `i8*` is cast in both calls' blocks. -/
theorem HarnessAt.cast_mem (hat : HarnessAt h F f n specs H M') (k : Copy) {m : Nat} {s : Slot}
    (hs : H.slots[m + 1]? = some s) (hptr : s.isPtr) (hty : .int8PtrTy ≠ s.param.type) :
    (⟨.cast .bitCast (s.valueOf H.base H.dl k) s.param.type, ""⟩ : Instr) ∈
      M'.instrs h (H.id k.body) := by
  have hp : f.params[m + 1]? = some s.param := by
    rw [← hat.layout.params_eq, List.getElem?_map, hs, Option.map_some]
  have ha : (H.args k)[m + 1]? = some ⟨s.valueOf H.base H.dl k, s.param.type⟩ := by
    rw [H.args_eq k, getElem?_argsFrom, Nat.zero_add, List.getElem?_cons_succ, List.getElem?_map,
      List.getElem?_tail, hs, Option.map_some, Option.map_some, hat.paramType hp]
  obtain ⟨name, hv⟩ := s.valueOf_eq H.base H.dl k
  have hins : (Arg.mk (s.valueOf H.base H.dl k) s.param.type).instr? =
      some ⟨.cast .bitCast (s.valueOf H.base H.dl k) s.param.type, ""⟩ := by
    simp [Arg.instr?, hv, Slot.value, Value.getType, Value.isAllocaInst, Value.isConstant,
      Slot.copyTy, hptr, hty, Ty.isPointerTy]
  rw [hat.code_body k, callCode, List.append_assoc]
  exact List.mem_append_left _ (List.mem_filterMap.2 ⟨_, List.mem_of_getElem? ha, hins⟩)

/-- A harness that verifies is for a function whose harnesses do. -/
theorem HarnessAt.verifiable (hat : HarnessAt h F f n specs H M') (hv : M'.Verifies h) :
    Verifiable M'.dataLayout f specs := by
  have hblock : ∀ {B : HBlock}, H.Valid B → M'.BlockVerifies h (H.id B) := fun hB =>
    hv.blocks _ (hat.id_lt hB)
  have hi : TakesIterator f := by
    by_contra hi
    obtain ⟨v, hval, hno⟩ := hat.not_available hi .first
      ⟨H.id .call1, (operandInstrs (H.args .first)).length⟩
    refine hno ((hblock (B := .call1) trivial).operands _ _ (?_ :
      _ = some ⟨.call H.func (operandValues (H.id .call1) 0 (H.args .first)), ""⟩) v
      (List.mem_of_getElem? hval))
    rw [show M'.instrs h (H.id .call1) = _ from hat.code_body .first, callCode, List.append_assoc,
      List.getElem?_append_right (Nat.le_refl _), Nat.sub_self]
    rfl
  refine ⟨hi, ?_, fun p hp => ?_⟩
  · rw [CopiesBytes, hat.layout.zip_eq, List.forall_mem_map]
    intro s hs hval hin hout
    obtain ⟨-, -, name, hmem⟩ :=
      (CallSite.memcpy hs ((Slot.symbolized_iff hout).2 hin) hout).mem
    rw [← hat.code .seSetup trivial] at hmem
    have hty := ((hblock (B := .seSetup) trivial).checks _ hmem).2.1
    rw [hat.memcpy_declared.type_eq] at hty
    have hcopy : s.copyTy H.dl = .int8PtrTy := s.getType_value2.symm.trans (List.cons.inj hty).1
    rw [← hat.dl_eq]
    exact Slot.copyTy_eq_int8Ptr.1 hcopy hval
  · obtain ⟨m, hm⟩ := List.getElem?_of_mem hp
    obtain ⟨s, hs, rfl, -⟩ := hat.layout.slot_at hm
    cases m with
    | zero =>
      rw [TakesIterator, List.head?_eq_getElem?, hm] at hi
      rw [show s.param.type = .int64Ty from Option.some.inj hi]
      rfl
    | succ m =>
      cases hty : s.param.type with
      | pointer t addrSpace =>
        by_cases hi8 : .int8PtrTy = s.param.type
        · rw [hty] at hi8
          cases hi8
          rfl
        · have hptr : s.isPtr := by rw [Slot.isPtr, hty]; rfl
          have hc := (hblock (H.valid_loop .first).1).checks _ (hat.cast_mem .first hs hptr hi8)
          obtain ⟨name, hv⟩ := s.valueOf_eq H.base H.dl .first
          rw [Module.Checks, hv, hty] at hc
          simp only [Slot.value, Value.getType, Slot.copyTy, hptr, ite_true] at hc
          exact (show 0 = addrSpace from hc).symm
      | _ => rfl

end

/-! ## What verifies -/

section
variable {senc : SymbolicEncapsulation} {M M' : Module} {F : Nat} {f : Function}
  {n : IterationsNumTy} {specs : List ArgSpec} {h : Nat} {H : Harness}

namespace HarnessBuilt

theorem grows (hb : HarnessBuilt senc M F f n specs M' h H) (g : Nat) : Module.Grows g M M' where
  dataLayout := hb.dataLayout
  sig k s hk := by
    have hlt := (List.getElem?_eq_some_iff.1 hk).1
    rw [hb.sig_kept (by simpa [Module.sig] using hlt), hk]
  length := hb.later.blocks g
  old b hlt := hb.instrs_kept hlt
  new a ha d hd := by
    by_cases hgh : g = h
    · subst hgh
      rcases Nat.lt_or_ge a H.numBlocks with hlt | hge
      · obtain ⟨A, hA, rfl⟩ := Harness.exists_id (hb.base_eq ▸ ha) hlt
        rw [hb.here.succs_eq hA] at hd
        obtain ⟨D, -, rfl⟩ := List.mem_map.1 hd
        rw [← hb.base_eq]
        exact H.base_le_id D
      · rw [Module.succs_of_le (by rw [hb.length]; exact hge)] at hd
        cases hd
    · rcases Nat.lt_or_ge g M.functions.length with hlt | hge
      · rw [Module.succs_of_le (by
          rw [Module.blocks, hb.others g hlt hgh]
          exact ha)] at hd
        cases hd
      · rw [Module.blocks, List.getElem?_eq_none hge]
        exact Nat.zero_le d

theorem count_succs (hb : HarnessBuilt senc M F f n specs M' h H) (hM : M.BranchesInside)
    (k : Copy) (a : Nat) : (M'.succs h a).count (H.id k.hdr) =
      [H.id k.setup, H.id k.latch].count a := by
  have hhdr := (H.valid_loop k).2.1
  have hmem : ∀ {A : HBlock}, k.hdr ∈ H.succs A ↔ A = k.setup ∨ A = k.latch := fun {A} => by
    cases k
    · exact Harness.mem_succs_hdr.1
    · exact Harness.mem_succs_hdr.2
  have hone : H.succs k.setup = [k.hdr] ∧ H.succs k.latch = [k.hdr] := by
    cases k <;> exact ⟨rfl, rfl⟩
  have hvalid : H.Valid k.setup ∧ H.Valid k.latch := by cases k <;> exact ⟨trivial, trivial⟩
  have hne : H.id k.setup ≠ H.id k.latch := by
    cases k <;> simp only [Copy.setup, Copy.latch, Harness.id, ne_eq] <;> omega
  by_cases hin : a = H.id k.setup ∨ a = H.id k.latch
  · rcases hin with rfl | rfl
    · rw [hb.here.succs_eq hvalid.1, hone.1]
      simp [hne.symm]
    · rw [hb.here.succs_eq hvalid.2, hone.2]
      simp [hne]
  · rw [List.count_eq_zero_of_not_mem fun hd => ?_,
      List.count_eq_zero_of_not_mem (by simpa using hin)]
    rcases Nat.lt_or_ge a H.base with hlt | hge
    · -- the old code stays inside the old code
      rw [(hb.grows h).succs (hb.base_eq ▸ hlt), Module.succs] at hd
      cases ht : getTerminator (M.instrs h a) with
      | none =>
        rw [ht] at hd
        cases hd
      | some t =>
        rw [ht] at hd
        rw [getTerminator, Option.filter_eq_some_iff] at ht
        have := hM.lt (List.mem_of_getLast? ht.1) hd
        have := H.base_le_id k.hdr
        have := hb.base_eq
        omega
    · have hlt : a < H.numBlocks := by
        by_contra hn
        rw [Module.succs_of_le (by rw [hb.length]; omega)] at hd
        cases hd
      obtain ⟨A, hA, rfl⟩ := Harness.exists_id hge hlt
      rw [hb.here.succs_eq hA] at hd
      obtain ⟨D, hD, hid⟩ := List.mem_map.1 hd
      obtain rfl := Harness.id_inj (Harness.valid_succs hA hD) hhdr hid
      rcases hmem.1 hD with rfl | rfl
      · exact hin (.inl rfl)
      · exact hin (.inr rfl)

theorem copy_available (hb : HarnessBuilt senc M F f n specs M' h H) (hM : M.BranchesInside)
    {B : HBlock} (hB : H.Valid B) (hne : B ≠ .setup) {s : Slot} (hs : s ∈ H.slots) (k : Copy)
    (j : Nat) : M'.AvailableAt h ⟨H.id B, j⟩ (s.valueOf H.base H.dl k) :=
  hb.here.copy_available hs k
    (fun he => hne (Harness.id_inj hB (show H.Valid .setup from trivial) he.symm))
    (hb.dominates hM (r := 0) hB (Nat.zero_le _))

theorem copyTy (hb : HarnessBuilt senc M F f n specs M' h H)
    (hbytes : CopiesBytes M.dataLayout f.params (padSpecs specs f.params.length)) :
    ∀ s ∈ H.slots, s.symbolized → s.outbound → s.copyTy H.dl = .int8PtrTy := by
  intro s hs hsym hout
  rw [CopiesBytes, hb.here.layout.zip_eq, List.forall_mem_map] at hbytes
  rw [Slot.copyTy_eq_int8Ptr, hb.here.dl_eq, hb.dataLayout]
  exact fun hval => hbytes s hs hval ((Slot.symbolized_iff hout).1 hsym) hout

theorem library_verifies (hb : HarnessBuilt senc M F f n specs M' h H) (hM : M.BranchesInside)
    (hbytes : CopiesBytes M.dataLayout f.params (padSpecs specs f.params.length)) {B : HBlock}
    {callee : FuncRef} {args : List Value} (hc : CallSite H B callee args) (j : Nat) :
    M'.Checks h (.call callee args) ∧ ∀ v ∈ args, M'.AvailableAt h ⟨H.id B, j⟩ v := by
  have hdecl : ∀ {ref : FuncRef} {name : String} {type : FunctionType},
      Declared M' ref name type → M'.sig[ref.index]? = some (ref.name, ref.type) := fun hd => by
    rw [hd.name_eq, hd.type_eq, hd.sig_eq]
  refine ⟨⟨?_, ?_⟩, fun v hv => ?_⟩
  · cases hc with
    | malloc => exact hdecl hb.here.malloc_declared
    | symbolize1 | symbolize2 => exact hdecl hb.here.symbolize_declared
    | memcpy => exact hdecl hb.here.memcpy_declared
    | memcmp => exact hdecl hb.here.memcmp_declared
    | assert => exact hdecl hb.here.assert_declared
    | free => exact hdecl hb.here.free_declared
  · exact (hb.here.wellTyped_iff hb.length).2 (hb.copyTy hbytes) _ _
      ((hb.here.libraryCall_iff hb.length).2 ⟨B, hc⟩)
  · rcases hc.args v hv with hconst | ⟨hne, s, hs, k, rfl⟩
    · exact .of_isConstant hconst
    · exact hb.copy_available hM hc.mem.1 hne hs k j

theorem operand_verifies (hb : HarnessBuilt senc M F f n specs M' h H) (hM : M.BranchesInside)
    (hv : Verifiable M.dataLayout f (padSpecs specs f.params.length)) (k : Copy) (j : Nat)
    {i : Instr} (hi : i ∈ operandInstrs (H.args k)) :
    M'.Checks h i.op ∧ ∀ v ∈ i.op.operands, M'.AvailableAt h ⟨H.id k.body, j⟩ v := by
  have hbody : H.Valid k.body ∧ k.body ≠ .setup := by cases k <;> exact ⟨trivial, by decide⟩
  obtain ⟨s, hs, hop | ⟨hptr, hop⟩⟩ := hb.here.operandInstr hi
  all_goals
    obtain ⟨name, hval⟩ := s.valueOf_eq H.base H.dl k
    rw [hop]
    refine ⟨?_, fun v hm => ?_⟩
  · show (s.valueOf H.base H.dl k).getType.isPointerTy
    rw [hval]
    exact s.isPointerTy_copyTy H.dl
  · rw [List.mem_singleton.1 hm]
    exact hb.copy_available hM hbody.1 hbody.2 hs k j
  · have hp := hv.pointers s.param (hb.here.layout.params_eq ▸ List.mem_map_of_mem hs)
    show CastValid .bitCast (s.valueOf H.base H.dl k).getType s.param.type
    rw [hval]
    simp only [Slot.value, Value.getType, Slot.copyTy, hptr, ite_true]
    rw [Slot.isPtr] at hptr
    cases hty : s.param.type with
    | pointer t addrSpace =>
      rw [hty] at hp
      exact hp.symm
    | _ =>
      rw [hty] at hptr
      cases hptr
  · rw [List.mem_singleton.1 hm]
    exact hb.copy_available hM hbody.1 hbody.2 hs k j

theorem call_verifies (hb : HarnessBuilt senc M F f n specs M' h H)
    (hf : M.functions[F]? = some f) (hM : M.BranchesInside)
    (hv : Verifiable M.dataLayout f (padSpecs specs f.params.length)) (k : Copy) :
    M'.Checks h (.call H.func (operandValues (H.id k.body) 0 (H.args k))) ∧
      ∀ v ∈ operandValues (H.id k.body) 0 (H.args k),
        M'.AvailableAt h ⟨H.id k.body, (operandInstrs (H.args k)).length⟩ v := by
  have hbody : H.Valid k.body := by cases k <;> trivial
  have hvalid : ∀ {m : Nat} {v : Value},
      (operandValues (H.id k.body) 0 (H.args k))[m]? = some v →
      OperandValid M' h H f.params k ⟨H.id k.body, (operandInstrs (H.args k)).length⟩ m v :=
    fun hm => hb.here.operand_valid hv.iterator k (hb.dominates hM (r := 0) hbody (Nat.zero_le _))
      (by cases k with
        | first => exact hb.dominates hM (r := 3) (B := .call1) trivial (Nat.le_refl _)
        | second => exact hb.dominates hM (r := 7) (B := .call2) trivial (Nat.le_refl _)) hm
  have hlen : (operandValues (H.id k.body) 0 (H.args k)).length = f.params.length := by
    rw [length_operandValues, H.args_eq k, length_argsFrom, List.length_cons, List.length_map,
      List.length_tail, hb.here.layout.length]
    have := List.length_pos_of_ne_nil hb.here.params_ne
    omega
  have htypes : (operandValues (H.id k.body) 0 (H.args k)).map Value.getType =
      f.params.map (·.type) := by
    apply List.ext_getElem?
    intro m
    rw [List.getElem?_map, List.getElem?_map]
    cases hm : (operandValues (H.id k.body) 0 (H.args k))[m]? with
    | none =>
      rw [List.getElem?_eq_none (l := f.params) (by
        rw [← hlen]
        exact List.getElem?_eq_none_iff.1 hm)]
      rfl
    | some v => exact (hvalid hm).type.symm
  refine ⟨⟨?_, ?_, fun _ => ?_⟩, fun v hm => ?_⟩
  · rw [hb.here.func_eq]
    exact (hb.sig_encapsulated hf).2.2
  · rw [hb.here.func_eq]
    show ((operandValues _ _ _).take (f.params.map (·.type)).length).map _ = f.params.map _
    rw [List.length_map, List.take_of_length_le (Nat.le_of_eq hlen), htypes]
  · rw [hb.here.func_eq]
    exact hlen.trans (List.length_map _).symm
  · obtain ⟨m, hm⟩ := List.getElem?_of_mem hm
    exact (hvalid hm).available

theorem body_verifies (hb : HarnessBuilt senc M F f n specs M' h H)
    (hf : M.functions[F]? = some f) (hM : M.BranchesInside)
    (hv : Verifiable M.dataLayout f (padSpecs specs f.params.length)) (k : Copy) {j : Nat}
    {i : Instr} (hi : (M'.instrs h (H.id k.body))[j]? = some i) :
    M'.Checks h i.op ∧ ∀ v ∈ i.op.operands, M'.AvailableAt h ⟨H.id k.body, j⟩ v := by
  rw [hb.here.code_body k, callCode, List.append_assoc] at hi
  rcases Nat.lt_or_ge j (operandInstrs (H.args k)).length with hj | hj
  · rw [List.getElem?_append_left hj] at hi
    exact hb.operand_verifies hM hv k j (List.mem_of_getElem? hi)
  · rw [List.getElem?_append_right hj] at hi
    obtain ⟨d, rfl⟩ := Nat.exists_eq_add_of_le hj
    rw [Nat.add_sub_cancel_left] at hi
    rcases d with _ | _ | d
    · cases hi
      exact hb.call_verifies hf hM hv k
    · cases hi
      exact ⟨trivial, fun v hm => by cases hm⟩
    · cases hi

theorem hdr_verifies (hb : HarnessBuilt senc M F f n specs M' h H) (k : Copy) {j : Nat} {i : Instr}
    (hi : (M'.instrs h (H.id k.hdr))[j]? = some i) :
    M'.Checks h i.op ∧ ∀ v ∈ i.op.operands, M'.AvailableAt h ⟨H.id k.hdr, j⟩ v := by
  have hcode := (hb.here.code _ (H.valid_loop k).2.1).trans (H.instrs_hdr k)
  rw [hcode] at hi
  match j, hi with
  | 0, hi =>
    cases hi
    refine ⟨?_, fun v hm => by cases hm⟩
    simp [Module.Checks, Value.getType, getIntN]
  | 1, hi =>
    cases hi
    refine ⟨⟨rfl, .inl rfl⟩, ?_⟩
    simp only [Op.operands, List.forall_mem_cons, List.not_mem_nil, false_implies, implies_true,
      and_true]
    refine ⟨⟨⟨_, by rw [hcode]; rfl, rfl⟩, .inl ⟨rfl, Nat.zero_lt_one⟩⟩, trivial⟩
  | 2, hi =>
    cases hi
    refine ⟨rfl, fun v hm => ?_⟩
    rw [List.mem_singleton.1 hm]
    exact ⟨⟨_, by rw [hcode]; rfl, rfl⟩, .inl ⟨rfl, Nat.one_lt_two⟩⟩
  | j + 3, hi => cases hi

theorem latch_verifies (hb : HarnessBuilt senc M F f n specs M' h H) (hM : M.BranchesInside)
    (k : Copy) {j : Nat} {i : Instr} (hi : (M'.instrs h (H.id k.latch))[j]? = some i) :
    M'.Checks h i.op ∧ ∀ v ∈ i.op.operands, M'.AvailableAt h ⟨H.id k.latch, j⟩ v := by
  have hcode := (hb.here.code _ (H.valid_loop k).2.2.1).trans (H.instrs_latch k)
  have hind : M'.AvailableAt h ⟨H.id k.latch, j⟩ (indVar (H.id k.hdr) (H.ind k)) := by
    refine hb.here.ind_available k (by rw [H.id_latch k]; exact (Nat.succ_ne_self _).symm) ?_
    cases k with
    | first => exact hb.dominates hM (r := 3) (B := .latch1) trivial (Nat.le_refl _)
    | second => exact hb.dominates hM (r := 7) (B := .latch2) trivial (Nat.le_refl _)
  rw [hcode] at hi
  match j, hi with
  | 0, hi =>
    cases hi
    unfold LoopDirection.stepOp
    dsimp only
    split <;>
    · refine ⟨⟨rfl, rfl⟩, ?_⟩
      simp only [Op.operands, List.forall_mem_cons, List.not_mem_nil, false_implies, implies_true,
        and_true]
      exact ⟨hind, trivial⟩
  | 1, hi =>
    cases hi
    exact ⟨trivial, fun v hm => by cases hm⟩
  | j + 2, hi => cases hi

theorem cond_verifies (hb : HarnessBuilt senc M F f n specs M' h H) (hM : M.BranchesInside)
    (hbytes : CopiesBytes M.dataLayout f.params (padSpecs specs f.params.length)) {c : Nat}
    (hc : c < H.m) {j : Nat} {i : Instr} (hi : (M'.instrs h (H.id (.cond c)))[j]? = some i) :
    M'.Checks h i.op ∧ ∀ v ∈ i.op.operands, M'.AvailableAt h ⟨H.id (.cond c), j⟩ v := by
  have hs : H.checked[c]? = some H.checked[c] := List.getElem?_eq_getElem hc
  have hcode := (hb.here.code (.cond c) hc).trans (H.instrs_cond hs)
  rw [hcode] at hi
  match j, hi with
  | 0, hi =>
    cases hi
    exact hb.library_verifies hM hbytes (.memcmp hs) 0
  | 1, hi =>
    cases hi
    refine ⟨⟨rfl, .inl rfl⟩, ?_⟩
    simp only [Op.operands, List.forall_mem_cons, List.not_mem_nil, false_implies, implies_true,
      and_true]
    refine ⟨⟨⟨_, by rw [hcode]; rfl, ?_⟩, .inl ⟨rfl, Nat.zero_lt_one⟩⟩, trivial⟩
    exact congrArg FunctionType.ret hb.here.memcmp_declared.type_eq
  | 2, hi =>
    cases hi
    refine ⟨rfl, fun v hm => ?_⟩
    rw [List.mem_singleton.1 hm]
    exact ⟨⟨_, by rw [hcode]; rfl, rfl⟩, .inl ⟨rfl, Nat.one_lt_two⟩⟩
  | j + 3, hi => cases hi

theorem instr_verifies (hb : HarnessBuilt senc M F f n specs M' h H)
    (hf : M.functions[F]? = some f) (hM : M.BranchesInside)
    (hv : Verifiable M.dataLayout f (padSpecs specs f.params.length)) {B : HBlock} (hB : H.Valid B)
    {j : Nat} {i : Instr} (hi : (M'.instrs h (H.id B))[j]? = some i) :
    M'.Checks h i.op ∧ ∀ v ∈ i.op.operands, M'.AvailableAt h ⟨H.id B, j⟩ v := by
  have hlib : ∀ {callee : FuncRef} {args : List Value}, CallSite H B callee args →
      i.op = .call callee args →
        M'.Checks h i.op ∧ ∀ v ∈ i.op.operands, M'.AvailableAt h ⟨H.id B, j⟩ v := fun hc hop => by
    rw [hop]
    exact hb.library_verifies hM hv.bytes hc j
  have hbr : ∀ {d : Nat} {name : String}, i = ⟨.br d, name⟩ →
      M'.Checks h i.op ∧ ∀ v ∈ i.op.operands, M'.AvailableAt h ⟨H.id B, j⟩ v := fun he => by
    rw [he]
    exact ⟨trivial, fun v hm => by cases hm⟩
  have hmem := List.mem_of_getElem? hi
  rw [hb.here.code B hB] at hmem
  cases B with
  | call1 => exact hb.body_verifies hf hM hv .first hi
  | call2 => exact hb.body_verifies hf hM hv .second hi
  | hdr1 => exact hb.hdr_verifies .first hi
  | hdr2 => exact hb.hdr_verifies .second hi
  | latch1 => exact hb.latch_verifies hM .first hi
  | latch2 => exact hb.latch_verifies hM .second hi
  | cond c => exact hb.cond_verifies hM hv.bytes hB hi
  | setup =>
    rcases List.mem_append.1 hmem with hmem | hmem
    · obtain ⟨s, hs, hmem⟩ := List.mem_flatMap.1 hmem
      have hop : i.op = s.setupOp H.dl H.n H.malloc := by
        unfold Slot.setupInstrs at hmem
        split at hmem
        · simp only [List.mem_cons, List.not_mem_nil, or_false] at hmem
          rcases hmem with rfl | rfl <;> rfl
        · rw [List.mem_singleton.1 hmem]
      unfold Slot.setupOp at hop
      split at hop
      · rename_i hptr
        exact hlib (.malloc hs hptr) hop
      · rw [hop]
        exact ⟨congrArg DataLayout.getAllocaAddrSpace hb.here.dl_eq, fun v hm => by cases hm⟩
    · exact hbr (List.mem_singleton.1 hmem)
  | seSetup =>
    rcases List.mem_append.1 hmem with hsym | hmem
    · rcases Harness.op_cases hB hmem with ⟨hne, -⟩ | ⟨callee, args, hop, ⟨k, hk⟩ | hc⟩ | hother
      · cases hne
      · cases k <;> cases hk
      · exact hlib hc hop
      · -- all of it is calls
        obtain ⟨s, -, hsym⟩ := List.mem_flatMap.1 hsym
        unfold Slot.symInstrs at hsym
        dsimp only at hsym
        split at hsym
        · rcases List.mem_cons.1 hsym with rfl | hsym
          · cases hother
          · split at hsym
            · simp only [List.mem_cons, List.not_mem_nil, or_false] at hsym
              rcases hsym with rfl | rfl <;> cases hother
            · cases hsym
        · cases hsym
    · exact hbr (List.mem_singleton.1 hmem)
  | fail c =>
    simp only [Harness.instrs, failCode, List.mem_cons, List.not_mem_nil, or_false] at hmem
    rcases hmem with rfl | rfl
    · exact hlib (.assert hB) rfl
    · exact ⟨trivial, fun v hm => by cases hm⟩
  | teardown =>
    rcases List.mem_append.1 hmem with hmem | hmem
    · obtain ⟨v, hv, rfl⟩ := List.mem_map.1 hmem
      obtain ⟨s, hs, hv⟩ := List.mem_flatMap.1 (List.mem_reverse.1 hv)
      exact hlib (.free hs hv) rfl
    · exact hbr (List.mem_singleton.1 hmem)
  | exit =>
    rw [List.mem_singleton.1 hmem]
    refine ⟨?_, fun v hm => ?_⟩
    · rw [Module.Checks, hb.sig]
      rfl
    · rw [List.mem_singleton.1 hm]
      trivial
  | _ => exact hbr (List.mem_singleton.1 hmem)

theorem block_verifies (hb : HarnessBuilt senc M F f n specs M' h H)
    (hf : M.functions[F]? = some f) (hM : M.BranchesInside)
    (hv : Verifiable M.dataLayout f (padSpecs specs f.params.length)) {B : HBlock}
    (hB : H.Valid B) : M'.BlockVerifies h (H.id B) := by
  have hends := Harness.instrs_endsWith hB
  rw [← hb.here.code B hB] at hends
  -- only headers have a phi, their first instruction
  have hphi : ∀ {j : Nat} {i : Instr}, (M'.instrs h (H.id B))[j]? = some i →
      i.op.incoming.isSome → j = 0 ∧ ∃ k : Copy, B = k.hdr ∧
        i.op = .phi .int64Ty [(getIntN 64 ((H.start k).setWidth 64), H.id k.setup),
          (.inst ⟨H.id k.hdr + 1, 0⟩ .int64Ty "" false, H.id k.hdr + 1)] := by
    intro j i hi hinc
    obtain ⟨preds, hp⟩ := Option.isSome_iff_exists.1 hinc
    have hmem : preds ∈ H.phis B := by
      rw [← hends.phis_eq]
      exact List.mem_filterMap.2 ⟨i, List.mem_of_getElem? hi, hp⟩
    obtain ⟨k, rfl⟩ : ∃ k : Copy, B = k.hdr := by
      cases B with
      | hdr1 => exact ⟨.first, rfl⟩
      | hdr2 => exact ⟨.second, rfl⟩
      | _ => cases hmem
    rw [hb.here.code _ hB, H.instrs_hdr k] at hi
    match j, hi with
    | 0, hi =>
      cases hi
      exact ⟨rfl, k, rfl, rfl⟩
    | 1, hi | 2, hi =>
      cases hi
      cases hp
    | j + 3, hi => cases hi
  refine ⟨?_, fun i hi d hd => ?_, fun i hi => ?_, fun j i hi => ?_, fun i hi type inc hop => ?_,
    fun j i hi hinc => ?_⟩
  · obtain ⟨pre, t, hcode, hpre, ht, -⟩ := hends.split
    exact ⟨pre, t, hcode, hpre, ht⟩
  · obtain ⟨pre, t, hcode, hpre, ht, hsuccs⟩ := hends.split
    rw [hcode] at hi
    rcases List.mem_append.1 hi with hi | hi
    · exact absurd (Op.isTerminator_of_mem_succs hd) (by rw [hpre i hi]; decide)
    · rw [List.mem_singleton.1 hi, hsuccs] at hd
      obtain ⟨D, hD, rfl⟩ := List.mem_map.1 hd
      rw [hb.length]
      exact Harness.id_lt (Harness.valid_succs hB hD)
  · obtain ⟨j, hj⟩ := List.getElem?_of_mem hi
    exact (hb.instr_verifies hf hM hv hB hj).1
  · exact (hb.instr_verifies hf hM hv hB hi).2
  · obtain ⟨j, hj⟩ := List.getElem?_of_mem hi
    obtain ⟨-, k, rfl, hop'⟩ := hphi hj (by rw [hop]; rfl)
    rw [hop] at hop'
    cases hop'
    have hne : H.id k.setup ≠ H.id k.hdr + 1 := by
      cases k <;> simp only [Copy.setup, Copy.hdr, Harness.id, ne_eq] <;> omega
    refine ⟨fun a => ?_, ?_, ?_⟩
    · rw [hb.count_succs hM k a, H.id_latch k]
      rfl
    · simp [hne, hne.symm]
    · simp only [List.forall_mem_cons, List.not_mem_nil, false_implies, implies_true, and_true]
      refine ⟨trivial, ⟨⟨(H.direction k).stepOp (indVar (H.id k.hdr) (H.ind k)) 1, ""⟩, ?_, ?_⟩,
        .inl ⟨rfl, ?_⟩⟩
      · rw [← H.id_latch k, hb.here.code _ (H.valid_loop k).2.2.1, H.instrs_latch k]
        rfl
      · unfold LoopDirection.stepOp
        dsimp only
        split <;> rfl
      · rw [← H.id_latch k, hb.here.code _ (H.valid_loop k).2.2.1, H.instrs_latch k]
        exact Nat.zero_lt_two
  · obtain ⟨rfl, -⟩ := hphi hi hinc
    intro i' hi'
    cases hi'

theorem verified (hb : HarnessBuilt senc M F f n specs M' h H) (hf : M.functions[F]? = some f)
    (hM : M.Verified) (hv : Verifiable M.dataLayout f (padSpecs specs f.params.length)) :
    M'.Verified := by
  intro g
  by_cases hgh : g = h
  · subst hgh
    refine (hM g).grows (hb.grows g) (fun h0 a he => ?_) fun b hge hlt => ?_
    · exact (hb.here.flow (hb.base_eq.trans h0) hb.length).no_preds a he
    · obtain ⟨B, hB, rfl⟩ := Harness.exists_id (hb.base_eq ▸ hge) (hb.length ▸ hlt)
      exact hb.block_verifies hf hM.branchesInside hv hB
  · rcases Nat.lt_or_ge g M.functions.length with hlt | hge
    · have hblocks : M'.blocks g = M.blocks g := by
        rw [Module.blocks, Module.blocks, hb.others g hlt hgh]
      refine (hM g).grows (hb.grows g) (fun h0 a he => ?_) fun b hge' hlt' => ?_
      · have := he.lt
        rw [hblocks] at this
        omega
      · rw [hblocks] at hlt'
        omega
    · -- a new declaration
      refine .of_bodiless ?_
      cases hg : M'.functions[g]? with
      | none => rw [Module.blocks, hg]; rfl
      | some f' =>
        rw [Module.blocks, hg]
        exact List.isEmpty_iff.1 (hb.new g f' hge hgh hg).2

end HarnessBuilt

end

end Ephippion
