import Ephippion.Proof.Flow
import Ephippion.Run.CallSites
import Ephippion.Run.Entry

/-!
# The operands of the calls

In both calls of a harness every operand has its parameter's type, is available at the call and
carries what it is meant to exactly if the first parameter is the iterator's (`callsValid_iff`):
for one of another type the iterator is cast by an instruction that is put into no block.
-/

namespace Ephippion

open Graph

/-- `v` is no instruction, or one of the function's that comes before the one at `ref`: earlier in
its block or in a block that dominates it. -/
def Module.AvailableAt (M : Module) (h : Nat) (ref : InstRef) : Value → Prop
  | .inst ref' type _ _ =>
    (∃ i, (M.instrs h ref'.block)[ref'.pos]? = some i ∧ i.op.type = type) ∧
      (ref'.block = ref.block ∧ ref'.pos < ref.pos ∨
        ref'.block ≠ ref.block ∧ Dominates (M.Edge h) 0 ref'.block ref.block)
  | .detachedCast _ _ _ => False
  | .constInt _ _ | .globalString _ | .constCast _ _ _ | .constICmp _ _ _ => True

namespace Harness

variable (H : Harness)

/-- `v` carries the `i`-th argument of the call of sequence `k`: the induction variable, the pointer
to a heap copy, cast if need be, or what is loaded from a copy in the frame. -/
def Carries (M : Module) (h : Nat) (k : Copy) (v : Value) : Nat → Prop
  | 0 => v = indVar (H.id k.hdr) (H.ind k)
  | i + 1 => ∃ s, H.slots[i + 1]? = some s ∧
      if s.isPtr then v = s.valueOf H.base H.dl k ∨
        ∃ ref type name nm, v = .inst ref type name false ∧
        (M.instrs h ref.block)[ref.pos]? = some ⟨.cast .bitCast (s.valueOf H.base H.dl k) type, nm⟩
      else ∃ ref type name nm, v = .inst ref type name false ∧
        (M.instrs h ref.block)[ref.pos]? = some ⟨.load (s.valueOf H.base H.dl k), nm⟩

end Harness

/-- `v` is a valid `i`-th operand of the call at `ref` of sequence `k`. -/
structure OperandValid (M : Module) (h : Nat) (H : Harness) (params : List Param) (k : Copy)
    (ref : InstRef) (i : Nat) (v : Value) : Prop where
  type : params[i]?.map (·.type) = some v.getType
  available : M.AvailableAt h ref v
  carries : H.Carries M h k v i

/-- Each of the two blocks that call `f` has a call with an operand for each parameter, all of them
valid. -/
def CallsValid (M : Module) (h : Nat) (H : Harness) (params : List Param) : Prop :=
  ∀ k : Copy, ∃ pos args nm, (M.instrs h (H.id k.body))[pos]? = some ⟨.call H.func args, nm⟩ ∧
    args.length = params.length ∧ ∀ i v, args[i]? = some v →
      OperandValid M h H params k ⟨H.id k.body, pos⟩ i v

/-! ## The values of a call -/

theorem getElem?_argsFrom (ft : FunctionType) : ∀ (vs : List Value) (j i : Nat),
    (argsFrom ft vs j)[i]? = vs[i]?.map fun v => ⟨v, ft.getParamType (j + i)⟩
  | [], _, _ => rfl
  | _ :: _, _, 0 => rfl
  | _ :: vs, j, i + 1 => by
    rw [argsFrom, List.getElem?_cons_succ, getElem?_argsFrom ft vs (j + 1) i,
      List.getElem?_cons_succ, Nat.add_assoc, Nat.add_comm 1 i]

theorem length_argsFrom (ft : FunctionType) : ∀ (vs : List Value) (j : Nat),
    (argsFrom ft vs j).length = vs.length
  | [], _ => rfl
  | _ :: vs, j => by rw [argsFrom, List.length_cons, length_argsFrom ft vs, List.length_cons]

theorem getElem?_operandInstrs {args : List Arg} {i : Nat} {a : Arg} (ha : args[i]? = some a)
    {ins : Instr} (hi : a.instr? = some ins) :
    (operandInstrs args)[(operandInstrs (args.take i)).length]? = some ins := by
  obtain ⟨hlt, rfl⟩ := List.getElem?_eq_some_iff.1 ha
  have hsplit : operandInstrs args = operandInstrs (args.take i) ++
      (ins :: operandInstrs (args.drop (i + 1))) := by
    have h := (List.take_append_drop i args).symm
    rw [List.drop_eq_getElem_cons hlt] at h
    conv_lhs => rw [h]
    rw [operandInstrs, List.filterMap_append, List.filterMap_cons, hi]
    rfl
  rw [hsplit, List.getElem?_append_right (Nat.le_refl _), Nat.sub_self]
  rfl

section
variable {h F : Nat} {f : Function} {n : IterationsNumTy} {specs : List ArgSpec} {H : Harness}
  {M' : Module}

theorem HarnessAt.copy_available (hat : HarnessAt h F f n specs H M') {s : Slot}
    (hs : s ∈ H.slots) (k : Copy) {ref : InstRef} (hne : H.base ≠ ref.block)
    (hdom : Dominates (M'.Edge h) 0 H.base ref.block) :
    M'.AvailableAt h ref (s.valueOf H.base H.dl k) := by
  obtain ⟨name, hv⟩ := s.valueOf_eq H.base H.dl k
  obtain ⟨name', hins⟩ := hat.layout.setupInstr H.dl H.n H.malloc hs k
  have hcode := hat.code .setup trivial
  have hlt := (List.getElem?_eq_some_iff.1 hins).1
  rw [hv]
  refine ⟨⟨⟨s.setupOp H.dl H.n H.malloc, name'⟩, ?_, ?_⟩, .inr ⟨hne, hdom⟩⟩
  · show (M'.instrs h (H.id .setup))[_]? = _
    rw [hcode, Harness.instrs, List.getElem?_append_left hlt, hins]
  · exact s.type_setupOp (by rw [hat.malloc_declared.type_eq]; rfl)

theorem HarnessAt.paramType (hat : HarnessAt h F f n specs H M') {i : Nat} {p : Param}
    (hp : f.params[i]? = some p) : H.func.type.getParamType i = p.type := by
  rw [hat.func_eq, FunctionType.getParamType, List.getD_eq_getElem?_getD]
  simp [Function.getFunctionType, hp]

theorem HarnessAt.ind_available (hat : HarnessAt h F f n specs H M') (k : Copy) {ref : InstRef}
    (hne : H.id k.hdr ≠ ref.block) (hdom : Dominates (M'.Edge h) 0 (H.id k.hdr) ref.block) :
    M'.AvailableAt h ref (indVar (H.id k.hdr) (H.ind k)) := by
  refine ⟨⟨⟨.phi .int64Ty [(getIntN 64 ((H.start k).setWidth 64), H.id k.setup),
    (.inst ⟨H.id k.hdr + 1, 0⟩ .int64Ty "" false, H.id k.hdr + 1)], H.ind k⟩, ?_, rfl⟩,
    .inr ⟨hne, hdom⟩⟩
  rw [hat.code _ (H.valid_loop k).2.1, H.instrs_hdr k]
  rfl

theorem HarnessAt.inst_operand (hat : HarnessAt h F f n specs H M') (k : Copy) {i : Nat} {a : Arg}
    (ha : (H.args k)[i]? = some a) {ins : Instr} (hins : a.instr? = some ins) {ref : InstRef}
    (href : ref = ⟨H.id k.body, 0 + (operandInstrs ((H.args k).take i)).length⟩) :
    a.operand ref = .inst ref ins.op.type "" false ∧
      (M'.instrs h ref.block)[ref.pos]? = some ins ∧
      M'.AvailableAt h ⟨H.id k.body, (operandInstrs (H.args k)).length⟩
        (.inst ref ins.op.type "" false) := by
  subst href
  have hget := getElem?_operandInstrs ha hins
  have hlt := (List.getElem?_eq_some_iff.1 hget).1
  have hcode : (M'.instrs h (H.id k.body))[0 + (operandInstrs ((H.args k).take i)).length]? =
      some ins := by
    rw [hat.code_body k, Nat.zero_add, callCode, List.append_assoc, List.getElem?_append_left hlt,
      hget]
  refine ⟨by simp only [Arg.operand, hins], hcode, ⟨ins, hcode, rfl⟩, .inl ⟨rfl, ?_⟩⟩
  rw [Nat.zero_add]
  exact hlt

theorem HarnessAt.operand_valid (hat : HarnessAt h F f n specs H M') (hi : TakesIterator f)
    (k : Copy) (hsetup : Dominates (M'.Edge h) 0 H.base (H.id k.body))
    (hhdr : Dominates (M'.Edge h) 0 (H.id k.hdr) (H.id k.body)) {i : Nat} {v : Value}
    (hv : (operandValues (H.id k.body) 0 (H.args k))[i]? = some v) :
    OperandValid M' h H f.params k ⟨H.id k.body, (operandInstrs (H.args k)).length⟩ i v := by
  have hbase : H.base ≠ H.id k.body := by cases k <;> simp [Copy.body, Harness.id]
  have hne : H.id k.hdr ≠ H.id k.body := by
    cases k <;> simp [Copy.body, Copy.hdr, Harness.id] <;> omega
  rw [getElem?_operandValues, Option.map_eq_some_iff] at hv
  obtain ⟨a, ha, rfl⟩ := hv
  have hval := ha
  rw [H.args_eq k, getElem?_argsFrom, Nat.zero_add, Option.map_eq_some_iff] at hval
  obtain ⟨w, hw, hval⟩ := hval
  cases i with
  | zero =>
    -- the induction variable is passed as it is
    obtain ⟨p, hp, hpt⟩ : ∃ p, f.params[0]? = some p ∧ p.type = .int64Ty := by
      rw [TakesIterator, List.head?_eq_getElem?, Option.map_eq_some_iff] at hi
      exact hi
    obtain rfl : indVar (H.id k.hdr) (H.ind k) = w := Option.some.inj hw
    rw [hat.paramType hp, hpt] at hval
    subst hval
    have hop : ∀ ref, (Arg.mk (indVar (H.id k.hdr) (H.ind k)) .int64Ty).operand ref =
        indVar (H.id k.hdr) (H.ind k) := fun ref => by
      simp [Arg.operand, Arg.instr?, indVar, Value.getType, Ty.isPointerTy]
    rw [hop]
    exact ⟨by rw [hp, Option.map_some, hpt]; rfl, hat.ind_available k hne hhdr, rfl⟩
  | succ i =>
    rw [List.getElem?_cons_succ, List.getElem?_map, Option.map_eq_some_iff] at hw
    obtain ⟨s, hs, rfl⟩ := hw
    rw [List.getElem?_tail] at hs
    have hmem := List.mem_of_getElem? hs
    have hp : f.params[i + 1]? = some s.param := by
      rw [← hat.layout.params_eq, List.getElem?_map, hs, Option.map_some]
    rw [hat.paramType hp] at hval
    subst hval
    obtain ⟨name, hv⟩ := s.valueOf_eq H.base H.dl k
    have hcopy : M'.AvailableAt h ⟨H.id k.body, (operandInstrs (H.args k)).length⟩
        (s.valueOf H.base H.dl k) := hat.copy_available hmem k hbase hsetup
    cases hptr : s.isPtr with
    | false =>
      have hins : (Arg.mk (s.valueOf H.base H.dl k) s.param.type).instr? =
          some ⟨.load (s.valueOf H.base H.dl k), ""⟩ := by
        simp [Arg.instr?, hv, Slot.value, Value.getType, Value.isAllocaInst, Slot.copyTy, hptr,
          Ty.isPointerTy]
      obtain ⟨h1, h2, h3⟩ := hat.inst_operand k ha hins rfl
      have hty : (Op.load (s.valueOf H.base H.dl k)).type = s.param.type := by
        simp [Op.type, hv, Slot.value, Value.getType, Slot.copyTy, hptr, Ty.getPointerElementType]
      rw [h1]
      refine ⟨by rw [hp, Option.map_some]; exact congrArg some hty.symm, h3, s, hs, ?_⟩
      rw [if_neg (by simp [hptr])]
      exact ⟨_, _, _, _, rfl, h2⟩
    | true =>
      have hvt : (s.valueOf H.base H.dl k).getType = .int8PtrTy := by
        simp [hv, Slot.value, Value.getType, Slot.copyTy, hptr]
      have hal : (s.valueOf H.base H.dl k).isAllocaInst = false := by
        simp [hv, Slot.value, Value.isAllocaInst, hptr]
      have hconst : (s.valueOf H.base H.dl k).isConstant = false := by rw [hv]; rfl
      by_cases hty : .int8PtrTy = s.param.type
      · have hop : ∀ ref, (Arg.mk (s.valueOf H.base H.dl k) s.param.type).operand ref =
            s.valueOf H.base H.dl k := fun ref => by
          simp [Arg.operand, Arg.instr?, hvt, hal, ← hty, Ty.isPointerTy]
        rw [hop]
        refine ⟨by rw [hp, Option.map_some, hvt, hty], hcopy, s, hs, ?_⟩
        rw [if_pos hptr]
        exact .inl rfl
      · have hins : (Arg.mk (s.valueOf H.base H.dl k) s.param.type).instr? =
            some ⟨.cast .bitCast (s.valueOf H.base H.dl k) s.param.type, ""⟩ := by
          simp [Arg.instr?, hvt, hal, hconst, hty, Ty.isPointerTy]
        obtain ⟨h1, h2, h3⟩ := hat.inst_operand k ha hins rfl
        rw [h1]
        refine ⟨by rw [hp]; rfl, h3, s, hs, ?_⟩
        rw [if_pos hptr]
        exact .inr ⟨_, _, _, _, rfl, h2⟩

/-- If the first parameter is not the iterator's, the first operand is in no block. -/
theorem HarnessAt.not_available (hat : HarnessAt h F f n specs H M') (hi : ¬ TakesIterator f)
    (k : Copy) (ref : InstRef) : ∃ v, (operandValues (H.id k.body) 0 (H.args k))[0]? = some v ∧
      ¬ M'.AvailableAt h ref v := by
  obtain ⟨p, ps, hps⟩ := List.exists_cons_of_ne_nil hat.params_ne
  have hp : f.params[0]? = some p := by rw [hps]; rfl
  have hne : p.type ≠ .int64Ty := fun he => hi (by rw [TakesIterator, hps]; simp [he])
  rw [getElem?_operandValues, H.args_eq k, getElem?_argsFrom]
  refine ⟨_, rfl, ?_⟩
  rw [hat.paramType hp]
  have hop : ∀ ref, (Arg.mk (indVar (H.id k.hdr) (H.ind k)) p.type).operand ref =
      createZExtOrBitCast (indVar (H.id k.hdr) (H.ind k)) p.type := fun ref => by
    simp [Arg.operand, Arg.instr?, indVar, Value.getType, Ty.isPointerTy, hne.symm]
  dsimp only
  rw [hop]
  unfold createZExtOrBitCast
  split <;> exact id

theorem HarnessAt.call_unique (hat : HarnessAt h F f n specs H M') (k : Copy) {pos : Nat}
    {args : List Value} {nm : String}
    (hc : (M'.instrs h (H.id k.body))[pos]? = some ⟨.call H.func args, nm⟩) :
    args = operandValues (H.id k.body) 0 (H.args k) := by
  have hmem := List.mem_of_getElem? hc
  rw [hat.code _ (H.valid_loop k).1] at hmem
  exact (Harness.call_body hmem rfl).2

end

section
variable {senc : SymbolicEncapsulation} {M M' : Module} {F : Nat} {f : Function}
  {n : IterationsNumTy} {specs : List ArgSpec} {h : Nat} {H : Harness}

namespace HarnessBuilt

/-- The entries of the earlier parts dominate a block; of a harness no path leads to, each block. -/
theorem dominates (hb : HarnessBuilt senc M F f n specs M' h H) (hM : M.BranchesInside) {r : Nat}
    {B : HBlock} (hB : H.Valid B) (hr : r ≤ H.rank B) :
    Dominates (M'.Edge h) 0 (H.stageAt r) (H.id B) := by
  by_cases h0 : H.base = 0
  · have hentry : H.id .setup = 0 := h0
    have hstart : H.rankAt 0 = 0 := by
      have := H.rankAt_id (B := .setup) trivial
      rwa [hentry] at this
    refine (hb.here.staged h0 hb.length).dominates ?_ (by rw [hstart]; exact Nat.zero_le r) ?_
    · rw [hstart]
      exact hentry
    · rwa [Harness.rankAt_id hB]
  · intro p hp
    have hlt : H.id B < H.base := by
      refine hp.inv (P := (· < H.base)) (fun a b ha he => ?_) (Nat.pos_of_ne_zero h0)
      rw [Module.Edge, Module.succs, hb.old a ha] at he
      cases ht : getTerminator (M.instrs h a) with
      | none => simp [ht] at he
      | some t =>
        simp only [ht, Option.map_some, Option.getD_some] at he
        rw [getTerminator, Option.filter_eq_some_iff] at ht
        rw [hb.base_eq]
        exact hM.lt (List.mem_of_getLast? ht.1) he
    have := H.base_le_id B
    omega

theorem takesIterator_iff (hb : HarnessBuilt senc M F f n specs M' h H) (hM : M.BranchesInside) :
    CallsValid M' h H f.params ↔ TakesIterator f := by
  constructor
  · intro hv
    by_contra hi
    obtain ⟨pos, args, nm, hc, -, hall⟩ := hv .first
    obtain ⟨v, hv, hno⟩ := hb.here.not_available hi .first ⟨H.id .call1, pos⟩
    rw [← hb.here.call_unique .first hc] at hv
    exact hno (hall 0 v hv).available
  · intro hi k
    refine ⟨(operandInstrs (H.args k)).length, operandValues (H.id k.body) 0 (H.args k), "", ?_, ?_,
      fun i v hv => ?_⟩
    · rw [hb.here.code_body k, callCode, List.append_assoc,
        List.getElem?_append_right (Nat.le_refl _), Nat.sub_self]
      rfl
    · rw [length_operandValues, H.args_eq k, length_argsFrom, List.length_cons, List.length_map,
        List.length_tail, hb.here.layout.length]
      have := List.length_pos_of_ne_nil hb.here.params_ne
      omega
    · refine hb.here.operand_valid hi k ?_ ?_ hv
      · exact hb.dominates hM (r := 0) (H.valid_loop k).1 (Nat.zero_le _)
      · cases k with
        | first => exact hb.dominates hM (r := 3) (B := .call1) trivial (Nat.le_refl _)
        | second => exact hb.dominates hM (r := 7) (B := .call2) trivial (Nat.le_refl _)

end HarnessBuilt

/-- The operands of both calls are valid exactly if the first parameter is the iterator's. -/
theorem callsValid_iff (hf : M.functions[F]? = some f) (hdef : f.isDeclaration = false)
    (hM : M.BranchesInside) (hok : senc.encapsulate M F n specs = .ok (M', true)) :
    ∃ h H, HarnessBuilt senc M F f n specs M' h H ∧
      (CallsValid M' h H f.params ↔ TakesIterator f) := by
  obtain ⟨-, -, h, H, hb⟩ := encapsulate_of_ok hf hdef hok
  exact ⟨h, H, hb, hb.takesIterator_iff hM⟩

end

theorem callsValid_buffer : ∃ (M' : Module) (h : Nat) (H : Harness),
    SymbolicEncapsulation.encapsulate {} (bufferModule .int32Ty) 0 2
      [⟨"i", .inbound, false⟩, ⟨"p", .both, true⟩] = .ok (M', true) ∧
    CallsValid M' h H (bufferFunction .int32Ty).params := by
  have hf : (bufferModule .int32Ty).functions[0]? = some (bufferFunction .int32Ty) := rfl
  obtain ⟨M', hok⟩ := encapsulate_buffer (.inr rfl) [⟨"i", .inbound, false⟩, ⟨"p", .both, true⟩]
  obtain ⟨h, H, -, hiff⟩ := callsValid_iff hf rfl (by decide) hok
  exact ⟨M', h, H, hok, hiff.2 (by decide)⟩

def narrowModule : Module := .of [emptyFunction "f" [⟨"", .int32Ty⟩]]

/-- The iterator of `f(i32)` is cast by an instruction in no block. -/
theorem not_callsValid_narrow : ∃ (M' : Module) (h : Nat) (H : Harness),
    HarnessBuilt {} narrowModule 0 (emptyFunction "f" [⟨"", .int32Ty⟩]) 2 [] M' h H ∧
    ¬ CallsValid M' h H (emptyFunction "f" [⟨"", .int32Ty⟩]).params := by
  have hf : narrowModule.functions[0]? = some (emptyFunction "f" [⟨"", .int32Ty⟩]) := rfl
  have hbuild : Buildable {} narrowModule (emptyFunction "f" [⟨"", .int32Ty⟩]) 2 :=
    ⟨⟨by decide, by decide, by decide, by decide, by decide⟩, by decide⟩
  obtain ⟨M', hok⟩ := encapsulate_progress [] hf rfl hbuild
  obtain ⟨-, -, h, H, hb⟩ := encapsulate_of_ok hf rfl hok
  exact ⟨M', h, H, hb, fun hv => absurd ((hb.takesIterator_iff (by decide)).1 hv) (by decide)⟩

end Ephippion
