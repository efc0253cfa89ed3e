import Ephippion.Proof.Loop

/-!
# What `createCall` builds

In a block that ends in a terminator, right before it: the code of the operands and the call
(`createCall_spec`).
-/

namespace Ephippion

theorem InsertPoint.insert_beforeTerm (b : Nat) (i t : Instr) (is : List Instr) :
    (InsertPoint.beforeTerm b).insert i (is ++ [t]) = is ++ [i] ++ [t] := by
  simp [InsertPoint.insert]

section
variable {h b : Nat} {M₀ M : Module} {is : List Instr} {t : Instr} {funcType : FunctionType}

theorem Grown.insertBefore (hg : Grown h b M₀ (is ++ [t]) M) (hb : b < (M₀.blocks h).length)
    (op : Op) : Grown h b M₀ (is ++ [⟨op, ""⟩] ++ [t]) (M.insert h (.beforeTerm b) op).1 := by
  have := hg.modifyInstrs hb ((InsertPoint.beforeTerm b).insert ⟨op, ""⟩)
  rwa [InsertPoint.insert_beforeTerm] at this

theorem insertBefore_value (hg : Grown h b M₀ (is ++ [t]) M) (op : Op) :
    (M.insert h (.beforeTerm b) op).2 = .inst ⟨b, is.length⟩ op.type "" op.isAlloca := by
  simp [Module.insert, InsertPoint.block, InsertPoint.pos, hg.at_block, Module.uniqueName]

theorem createOperand_spec (funcType : FunctionType) (hg : Grown h b M₀ (is ++ [t]) M)
    (hb : b < (M₀.blocks h).length)
    (v : Value) (i : Nat) :
    let a : Arg := ⟨v, funcType.getParamType i⟩
    let r := createOperand h (.beforeTerm b) funcType M v i
    Grown h b M₀ (is ++ a.instr?.toList ++ [t]) r.1 ∧ r.2 = a.operand ⟨b, is.length⟩ := by
  intro a r
  cases hptr : v.getType.isPointerTy with
  | false =>
    have hno : a.instr? = none := by simp [Arg.instr?, a, hptr]
    simp only [r, createOperand, hptr, Bool.false_eq_true, ite_false, Arg.operand, hno]
    by_cases hty : funcType.getParamType i = v.getType
    · simp [hty, a, hg]
    · simp [hty, a, hg, hptr, Ne.symm hty]
  | true =>
    cases hal : v.isAllocaInst with
    | true =>
      have hso : a.instr? = some ⟨.load v, ""⟩ := by simp [Arg.instr?, a, hptr, hal]
      simp only [r, createOperand, hptr, hal, ite_true, Arg.operand, hso]
      exact ⟨hg.insertBefore hb _, insertBefore_value hg _⟩
    | false =>
      simp only [r, createOperand, hptr, hal, ite_true, Bool.false_eq_true, ite_false,
        Module.createBitCast]
      by_cases hty : v.getType = funcType.getParamType i
      · have hno : a.instr? = none := by simp [Arg.instr?, a, hal, hty]
        simp [hty, Arg.operand, hno, a, hg]
      · cases hc : v.isConstant with
        | true =>
          have hno : a.instr? = none := by simp [Arg.instr?, a, hptr, hal, hc]
          simp [hty, Arg.operand, hno, a, hg, hptr]
        | false =>
          have hso : a.instr? = some ⟨.cast .bitCast v (funcType.getParamType i), ""⟩ := by
            simp [Arg.instr?, a, hptr, hal, hty, hc]
          simp only [hty, Bool.false_eq_true, ite_false, Arg.operand, hso]
          exact ⟨hg.insertBefore hb _, insertBefore_value hg _⟩

theorem createOperands_spec (funcType : FunctionType) (hb : b < (M₀.blocks h).length) :
    ∀ (vs : List Value) (i : Nat) {is : List Instr} {M : Module},
      Grown h b M₀ (is ++ [t]) M →
      let r := createOperands h (.beforeTerm b) funcType M vs i
      Grown h b M₀ (is ++ operandInstrs (argsFrom funcType vs i) ++ [t]) r.1 ∧
        r.2 = operandValues b is.length (argsFrom funcType vs i)
  | [], i, is, M, hg => ⟨by simpa [operandInstrs, argsFrom, createOperands] using hg, rfl⟩
  | v :: vs, i, is, M, hg => by
    obtain ⟨h1, h2⟩ := createOperand_spec funcType hg hb v i
    obtain ⟨h3, h4⟩ := createOperands_spec funcType hb vs (i + 1) h1
    simp only [argsFrom, operandInstrs_cons, operandValues, createOperands, h2, h4,
      List.length_append]
    rw [← List.append_assoc]
    exact ⟨h3, trivial⟩

theorem createCall_spec (is : List Instr) (hb : b < (M.blocks h).length)
    (hcode : M.instrs h b = is ++ [t])
    (ht : t.op.isTerminator) (func : FuncRef) (vs : List Value) :
    Grown h b M (is ++ operandInstrs (argsFrom func.type vs 0) ++
        [⟨.call func (operandValues b is.length (argsFrom func.type vs 0)), ""⟩] ++ [t])
      (createCall M h b func vs) := by
  have hg := Grown.refl h b M
  rw [hcode] at hg
  have hterm : (getTerminator (M.instrs h b)).isSome := by simp [hcode, getTerminator, ht]
  obtain ⟨h1, h2⟩ := createOperands_spec func.type hb vs 0 hg
  simp only [createCall, hterm, ite_true, ← h2]
  exact h1.insertBefore hb _

end

end Ephippion
