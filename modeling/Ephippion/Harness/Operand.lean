import Ephippion.Harness.Slot

/-!
# Operands

What `createCall` makes of the values it is given, each with the type of the parameter it is passed
for: an instruction in the call's block, if one is needed, and the operand. `operandInstrs` and
`operandValues` are the code before the call, from position `pos` of block `b` on, and the operands.
-/

namespace Ephippion

/-- A value and the type of the parameter it is passed for. -/
structure Arg where
  value : Value
  type : Ty
  deriving DecidableEq, Repr

namespace Arg

/-- The instruction an operand needs: the load of an alloca, the cast of a pointer. -/
def instr? (a : Arg) : Option Instr :=
  if a.value.getType.isPointerTy then
    if a.value.isAllocaInst then some ⟨.load a.value, ""⟩
    else if a.value.getType = a.type ∨ a.value.isConstant then none
    else some ⟨.cast .bitCast a.value a.type, ""⟩
  else none

/-- The operand, where `ref` is the place of its instruction. -/
def operand (a : Arg) (ref : InstRef) : Value :=
  match a.instr? with
  | some i => .inst ref i.op.type "" false
  | none =>
    if a.value.getType = a.type then a.value
    else if a.value.getType.isPointerTy then .constCast .bitCast a.value a.type
    else createZExtOrBitCast a.value a.type

end Arg

def operandInstrs (args : List Arg) : List Instr := args.filterMap Arg.instr?

/-- The operands, the code of which starts at position `pos` of block `b`. -/
def operandValues (b : Nat) : Nat → List Arg → List Value
  | _, [] => []
  | pos, a :: args => a.operand ⟨b, pos⟩ :: operandValues b (pos + a.instr?.toList.length) args

theorem operandInstrs_cons (a : Arg) (args : List Arg) :
    operandInstrs (a :: args) = a.instr?.toList ++ operandInstrs args := by
  cases h : a.instr? <;> simp [operandInstrs, h]

theorem length_operandValues (b : Nat) : ∀ (pos : Nat) (args : List Arg),
    (operandValues b pos args).length = args.length
  | _, [] => rfl
  | pos, a :: args => by
    rw [operandValues, List.length_cons, length_operandValues b _ args, List.length_cons]

theorem getElem?_operandValues (b : Nat) : ∀ (pos : Nat) (args : List Arg) (k : Nat),
    (operandValues b pos args)[k]? = args[k]?.map fun a =>
      a.operand ⟨b, pos + (operandInstrs (args.take k)).length⟩
  | _, [], k => by simp [operandValues]
  | pos, a :: args, 0 => by simp [operandValues, operandInstrs]
  | pos, a :: args, k + 1 => by
    rw [operandValues, List.getElem?_cons_succ, getElem?_operandValues b _ args k,
      List.getElem?_cons_succ, List.take_succ_cons, operandInstrs_cons, List.length_append,
      Nat.add_assoc]

end Ephippion
