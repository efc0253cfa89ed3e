import Ephippion.Support.ArgSpec
import Ephippion.Support.FuncUtils
import Ephippion.Support.LoopIRBuilder

/-!
# `SymbolicEncapsulation`

The harness generator: for a function `F`, an iteration count and the specifications of `F`'s
arguments, a function that sets up two copies of the arguments, makes the inbound ones symbolic,
calls `F` in an ascending and in a descending loop on one copy each and compares the outbound
copies.

A harness is known by its index `h` in the module, its blocks by their indices. A step that can
stop (`Stop`) is in `Except`; the module of a stopped generation is gone with the process.
-/

namespace Ephippion

abbrev IterationsNumTy := BitVec 32

def HeapAllocFuncName : String := "malloc"
def HeapDeallocFuncName : String := "free"

structure SymbolicEncapsulation where
  harnessNamePrefix : String := "symenc_"

/-- `operator[]` of the vectors and array references. -/
def index {α : Type} (l : List α) (i : Nat) : Except Stop α :=
  match l[i]? with
  | some a => .ok a
  | none => .error .outOfRange

/-- `ArgSpecs.size() && p(ArgSpecs[i].Direction)`. -/
def sizeAndDirection (argSpecs : List ArgSpec) (i : Nat) (p : ArgDirection → Bool) :
    Except Stop Bool :=
  if argSpecs.length ≠ 0 then (index argSpecs i).map fun spec => p spec.direction else .ok false

/-- The padded specifications: the default at each parameter the list does not reach. -/
def padSpecs (argSpecs : List ArgSpec) (numParams : Nat) : List ArgSpec :=
  argSpecs ++ List.replicate (numParams - argSpecs.length) ArgSpec.default

/-- How many elements a buffer has: the iteration count if the argument depends on the
iterator. -/
def multiplier (spec : ArgSpec) (iterationsNum : IterationsNumTy) : BitVec 64 :=
  if spec.iteratorDependent then iterationsNum.setWidth 64 else 1

/-- `getTypeAllocSize` with the assertion that follows each use of it. A type without a size has
size 0 here: for it an assertion of `getTypeAllocSize` itself comes first. -/
def typeAllocSize (M : Module) (type : Ty) : Except Stop (BitVec 64) :=
  let typeSize := M.dataLayout.getTypeAllocSize type
  if typeSize = 0 then .error (.assertion "type size cannot be zero!") else .ok typeSize

/-! ## `setupHarnessArgs` -/

/-- What the loop of `setupHarnessArgs` accumulates. -/
structure ArgSetup where
  mod : Module
  heapAllocs : List Value
  callArgs1 : List Value
  callArgs2 : List Value

/-- One argument: frame storage for a value, a heap buffer for a pointer, a second copy if it is
outbound. -/
def setupHarnessArg (h : Nat) (argSpecs : List ArgSpec) (setupBlock : Nat)
    (heapAllocFunc : FuncRef) (iterationsNum : IterationsNumTy) (s : ArgSetup)
    (arg : Param × Nat) : Except Stop ArgSetup := do
  let (curArg, argIdx) := arg
  let dir := match argSpecs[argIdx]? with
    | some spec => spec.direction
    | none => .inbound
  if !curArg.type.isPointerTy then
    let (M, arg1) := s.mod.createAlloca h (.atEnd setupBlock) curArg.type curArg.name
    let (M, arg2) :=
      if isOutbound dir then M.createAlloca h (.atEnd setupBlock) curArg.type curArg.name
      else (M, arg1)
    return ⟨M, s.heapAllocs, s.callArgs1 ++ [arg1], s.callArgs2 ++ [arg2]⟩
  else
    let typeSize ← typeAllocSize s.mod curArg.type.getPointerElementType
    let spec ← index argSpecs argIdx
    let allocSize := createMul (multiplier spec iterationsNum) typeSize
    let (M, arg1) := s.mod.insert h (.atEnd setupBlock) (.call heapAllocFunc [allocSize])
    if isOutbound dir then
      let (M, arg2) := M.insert h (.atEnd setupBlock) (.call heapAllocFunc [allocSize])
      return ⟨M, s.heapAllocs ++ [arg1, arg2], s.callArgs1 ++ [arg1], s.callArgs2 ++ [arg2]⟩
    else
      return ⟨M, s.heapAllocs ++ [arg1], s.callArgs1 ++ [arg1], s.callArgs2 ++ [arg1]⟩

def setupHarnessArgs (M : Module) (h : Nat) (params : List Param) (argSpecs : List ArgSpec)
    (setupBlock teardownBlock : Nat) (iterationsNum : IterationsNumTy) :
    Except Stop (Module × List Value × List Value) := do
  if params.isEmpty then return (M, [], [])
  let (M, heapAllocFunc) ← declareMallocLikeFunc M HeapAllocFuncName
  let (M, heapDeallocFunc) ← declareFreeLikeFunc M HeapDeallocFuncName
  let s ← params.zipIdx.foldlM
    (setupHarnessArg h argSpecs setupBlock heapAllocFunc iterationsNum) ⟨M, [], [], []⟩
  let M := s.heapAllocs.reverse.foldl
    (fun M alloc => M.append h teardownBlock (.call heapDeallocFunc [alloc])) s.mod
  return (M, s.callArgs1, s.callArgs2)

/-! ## `createSymbolicDeclarations` -/

/-- `allocSize`, in either branch. -/
def symbolSize (M : Module) (curArg : Param) (value1 : Value) (iterationsNum : IterationsNumTy)
    (argSpecs : List ArgSpec) (argIdx : Nat) : Except Stop Value :=
  if !curArg.type.isPointerTy then do
    let typeSize ← typeAllocSize M value1.getType.getPointerElementType
    return createMul 1 typeSize
  else do
    let typeSize ← typeAllocSize M curArg.type.getPointerElementType
    let spec ← index argSpecs argIdx
    return createMul (multiplier spec iterationsNum) typeSize

/-- One argument: its first copy is made symbolic, its second copy, if it has one, is made
symbolic and then overwritten by the first. -/
def createSymbolicDeclaration (h block : Nat) (values1 values2 : List Value)
    (symbolizeFunc memcpyFunc : FuncRef) (iterationsNum : IterationsNumTy)
    (argSpecs : List ArgSpec) (M : Module) (arg : Param × Nat) : Except Stop Module := do
  let (curArg, argIdx) := arg
  if ← sizeAndDirection argSpecs argIdx isOnlyOutbound then return M
  let value1 ← index values1 argIdx
  let allocSize ← symbolSize M curArg value1 iterationsNum argSpecs argIdx
  let (M, symName) :=
    M.createGlobalStringPtr ("sym.in1." ++ value1.getName ++ toString argIdx)
  let M := M.append h block (.call symbolizeFunc [value1, allocSize, symName])
  if isOutbound (← index argSpecs argIdx).direction then
    let value2 ← index values2 argIdx
    let (M, symName) :=
      M.createGlobalStringPtr ("sym.in2." ++ value2.getName ++ toString argIdx)
    let M := M.append h block (.call symbolizeFunc [value2, allocSize, symName])
    return M.append h block (.call memcpyFunc [value2, value1, allocSize])
  else return M

def createSymbolicDeclarations (M : Module) (h block : Nat) (params : List Param)
    (values1 values2 : List Value) (iterationsNum : IterationsNumTy) (argSpecs : List ArgSpec) :
    Except Stop Module := do
  if values1.isEmpty || values2.isEmpty then throw (.assertion "Value sets are empty!")
  let (M, symbolizeFunc) ← declareKLEELikeFunc M "klee_make_symbolic"
  let (M, memcpyFunc) ← declareMemcpyLikeFunc M "memcpy"
  params.zipIdx.foldlM
    (createSymbolicDeclaration h block values1 values2 symbolizeFunc memcpyFunc iterationsNum
      argSpecs) M

/-! ## `createSymbolicAssertions` -/

/-- What the loop of `createSymbolicAssertions` accumulates. -/
structure Assertions where
  mod : Module
  conditions : List Value
  condBlocks : List Nat
  failBlocks : List Nat

/-- The condition of one position: that the values are equal, or that what they point to is. -/
def createCondition (M : Module) (h condBlock : Nat) (value1 value2 : Value) (memcmpFunc : FuncRef)
    (iterationsNum : IterationsNumTy) (argSpecs : List ArgSpec) (i : Nat) :
    Except Stop (Module × Value) :=
  if !value1.getType.isPointerTy then
    return M.createICmp h (.atEnd condBlock) .eq value1 value2
  else do
    let typeSize ← typeAllocSize M value1.getType.getPointerElementType
    let spec ← index argSpecs i
    let allocSize := createMul (multiplier spec iterationsNum) typeSize
    let (M, call) := M.insert h (.atEnd condBlock) (.call memcmpFunc [value1, value2, allocSize])
    return M.createICmp h (.atEnd condBlock) .eq call (getIntN 32 0)

/-- One position: a condition block and the block of its failure. -/
def createSymbolicAssertion (h : Nat) (values1 values2 : List Value)
    (memcmpFunc assertFunc : FuncRef) (assertArgs : List Value) (iterationsNum : IterationsNumTy)
    (argSpecs : List ArgSpec) (s : Assertions) (i : Nat) : Except Stop Assertions := do
  if ← sizeAndDirection argSpecs i (!isOutbound ·) then return s
  let value1 ← index values1 i
  let (M, condBlock) := s.mod.createBlock h ("cond" ++ toString i)
  let (M, failBlock) := M.createBlock h ("fail" ++ toString i)
  let value2 ← index values2 i
  let (M, cond) ←
    createCondition M h condBlock value1 value2 memcmpFunc iterationsNum argSpecs i
  let M := M.append h failBlock (.call assertFunc assertArgs)
  return ⟨M, s.conditions ++ [cond], s.condBlocks ++ [condBlock], s.failBlocks ++ [failBlock]⟩

/-- The branch of the `i`-th condition block: to the end block, for now, and to its failure. -/
def linkFail (h endBlock : Nat) (conditions : List Value) (failBlocks : List Nat) (M : Module)
    (b : Nat × Nat) : Except Stop Module := do
  let (condBlock, i) := b
  let cond ← index conditions i
  let failBlock ← index failBlocks i
  return M.append h condBlock (.condBr cond endBlock failBlock)

/-- The `i`-th condition block is where the one before it goes on truth. -/
def linkNext (h : Nat) (condBlocks : List Nat) (M : Module) (i : Nat) : Except Stop Module := do
  let prev ← index condBlocks (i - 1)
  let next ← index condBlocks i
  return M.setSuccessor0 h prev next

def createSymbolicAssertions (M : Module) (h startBlock endBlock : Nat)
    (values1 values2 : List Value) (iterationsNum : IterationsNumTy) (argSpecs : List ArgSpec) :
    Except Stop Module := do
  if values1.isEmpty || values2.isEmpty then throw (.assertion "Value sets are empty!")
  if values1.length ≠ values2.length then throw (.assertion "Value set sizes differ!")
  let (M, assertFunc) ← declareAssertLikeFunc M "__assert_fail"
  let (M, memcmpFunc) ← declareKLEELikeFunc M "memcmp"
  let (M, funcName) := M.createGlobalStringPtr ((M.functions[h]?.map (·.name)).getD "")
  let (M, modName) := M.createGlobalStringPtr M.name
  let (M, assertText) := M.createGlobalStringPtr "FAILED"
  let assertArgs := [assertText, modName, getIntN 32 0, funcName]
  let s ← (List.range values1.length).foldlM
    (createSymbolicAssertion h values1 values2 memcmpFunc assertFunc assertArgs iterationsNum
      argSpecs) ⟨M, [], [], []⟩
  -- add unreachable terminator to fail assert blocks
  let M := s.failBlocks.foldl (fun M e => M.append h e .unreachable) s.mod
  -- link condition blocks to their fail assert blocks
  let M ← s.condBlocks.zipIdx.foldlM (linkFail h endBlock s.conditions s.failBlocks) M
  -- link condition blocks on truth
  let M ← (List.range' 1 (s.condBlocks.length - 1)).foldlM (linkNext h s.condBlocks) M
  -- hook up start and end blocks
  match s.condBlocks.head?, s.condBlocks.getLast? with
  | some front, some back =>
    let M := M.append h startBlock (.br front)
    return M.setSuccessor0 h back endBlock
  | _, _ => return M.append h startBlock (.br endBlock)

/-! ## `createCall` -/

/-- The operand for the `i`-th argument: loaded from frame storage, a heap pointer cast to the
parameter's type, any other value cast if the types differ. -/
def createOperand (h : Nat) (ip : InsertPoint) (funcType : FunctionType) (M : Module) (arg : Value)
    (i : Nat) : Module × Value :=
  if arg.getType.isPointerTy then
    if arg.isAllocaInst then M.insert h ip (.load arg)
    else M.createBitCast h ip arg (funcType.getParamType i)
  else if funcType.getParamType i ≠ arg.getType then
    (M, createZExtOrBitCast arg (funcType.getParamType i))
  else (M, arg)

def createOperands (h : Nat) (ip : InsertPoint) (funcType : FunctionType) :
    Module → List Value → Nat → Module × List Value
  | M, [], _ => (M, [])
  | M, arg :: args, i =>
    let (M, actualArg) := createOperand h ip funcType M arg i
    let (M, actualArgs) := createOperands h ip funcType M args (i + 1)
    (M, actualArg :: actualArgs)

def createCall (M : Module) (h block : Nat) (encapsulatedFunc : FuncRef) (args : List Value) :
    Module :=
  let ip := if (getTerminator (M.instrs h block)).isSome then InsertPoint.beforeTerm block
    else .atEnd block
  let (M, actualArgs) := createOperands h ip encapsulatedFunc.type M args 0
  (M.insert h ip (.call encapsulatedFunc actualArgs)).1

/-! ## `encapsulateImpl` -/

/-- `callArgs[0] = indVar`. -/
def setFirst (callArgs : List Value) (indVar : Value) : Except Stop (List Value) :=
  match callArgs with
  | [] => .error .outOfRange
  | _ :: args => .ok (indVar :: args)

namespace SymbolicEncapsulation

/-- The harness of the defined function `f`, which is the module's `F`-th. -/
def buildHarness (senc : SymbolicEncapsulation) (M : Module) (F : Nat) (f : Function)
    (iterationsNum : IterationsNumTy) (specs : List ArgSpec) : Except Stop Module := do
  let argSpecs := padSpecs specs f.params.length
  let (M, harnessFunc) ← declareFunc M (senc.harnessNamePrefix ++ f.name) .int32Ty
  let h := harnessFunc.index
  let (M, setupBlock) := M.createBlock h "setup"
  let (M, seSetupBlock) := M.createBlock h "se.setup"
  let (M, call1SetupBlock) := M.createBlock h "call1.setup"
  let (M, call2SetupBlock) := M.createBlock h "call2.setup"
  let (M, call1Block) := M.createBlock h "call1.body"
  let (M, call2Block) := M.createBlock h "call2.body"
  let (M, call1TeardownBlock) := M.createBlock h "call1.teardown"
  let (M, call2TeardownBlock) := M.createBlock h "call2.teardown"
  let (M, seStartTeardownBlock) := M.createBlock h "se.start.teardown"
  let (M, seEndTeardownBlock) := M.createBlock h "se.end.teardown"
  let (M, teardownBlock) := M.createBlock h "teardown"
  let (M, exitBlock) := M.createBlock h "exit"
  let (M, callArgs1, callArgs2) ←
    setupHarnessArgs M h f.params argSpecs setupBlock teardownBlock iterationsNum
  let M ← createSymbolicDeclarations M h seSetupBlock f.params callArgs1 callArgs2 iterationsNum
    argSpecs
  let M ← createSymbolicAssertions M h seStartTeardownBlock seEndTeardownBlock callArgs1 callArgs2
    iterationsNum argSpecs
  -- setup calls
  let (M, indVar1) ←
    createLoop M h [call1Block] call1SetupBlock call1TeardownBlock 0 iterationsNum
  let (M, indVar2) ←
    createLoop M h [call2Block] call2SetupBlock call2TeardownBlock (iterationsNum - 1) 0
  -- pass the iterator as the first argument
  let callArgs1 ← setFirst callArgs1 indVar1
  let callArgs2 ← setFirst callArgs2 indVar2
  let encapsulatedFunc : FuncRef := ⟨F, f.name, f.getFunctionType⟩
  let M := createCall M h call1Block encapsulatedFunc callArgs1
  let M := createCall M h call2Block encapsulatedFunc callArgs2
  -- setup control flow
  let M := M.append h setupBlock (.br seSetupBlock)
  let M := M.append h seSetupBlock (.br call1SetupBlock)
  let M := M.append h call1TeardownBlock (.br call2SetupBlock)
  let M := M.append h call2TeardownBlock (.br seStartTeardownBlock)
  let M := M.append h seEndTeardownBlock (.br teardownBlock)
  let M := M.append h teardownBlock (.br exitBlock)
  -- set harness return
  return M.append h exitBlock (.ret (getIntN 32 0))

def encapsulateImpl (senc : SymbolicEncapsulation) (M : Module) (F : Nat)
    (iterationsNum : IterationsNumTy) (argSpecs : List ArgSpec) : Except Stop (Module × Bool) :=
  match M.functions[F]? with
  | none => .ok (M, false)
  | some f =>
    if f.isDeclaration then .ok (M, false)
    else (senc.buildHarness M F f iterationsNum argSpecs).map (·, true)

/-- `encapsulate` of a function, with or without specifications. -/
def encapsulate (senc : SymbolicEncapsulation) (M : Module) (F : Nat)
    (iterationsNum : IterationsNumTy) (argSpecs : List ArgSpec := []) :
    Except Stop (Module × Bool) :=
  senc.encapsulateImpl M F iterationsNum argSpecs

/-- The loop over a module's functions, from the one at `F`: what the body appends to the list is
visited too. Out of fuel the result is `none`. -/
def encapsulateFrom (senc : SymbolicEncapsulation) (iterationsNum : IterationsNumTy) :
    Nat → Module → Nat → Bool → Option (Except Stop (Module × Bool))
  | 0, _, _, _ => none
  | fuel + 1, M, F, hasChanged =>
    if F < M.functions.length then
      match senc.encapsulate M F iterationsNum with
      | .error stop => some (.error stop)
      | .ok (M', changed) =>
        encapsulateFrom senc iterationsNum fuel M' (F + 1) (hasChanged || changed)
    else some (.ok (M, hasChanged))

/-- `encapsulate` of a module, for as many functions as the fuel allows. -/
def encapsulateModule (senc : SymbolicEncapsulation) (fuel : Nat) (M : Module)
    (iterationsNum : IterationsNumTy) : Option (Except Stop (Module × Bool)) :=
  senc.encapsulateFrom iterationsNum fuel M 0 false

end SymbolicEncapsulation

end Ephippion
