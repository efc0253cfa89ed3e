import Ephippion.IR.Builder

/-!
# Declaring library functions

`DeclareFunc` and the helpers that fix a library function's type. Each casts what
`getOrInsertFunction` returns to a function, which stops the generation when the name is taken by
something of another type.
-/

namespace Ephippion

/-- `llvm::cast<llvm::Function>` of the result of `getOrInsertFunction`. -/
def castFunction : Module × Option FuncRef → Except Stop (Module × FuncRef)
  | (M, some ref) => .ok (M, ref)
  | (_, none) => .error .badCast

/-- Both overloads: the one without argument types declares a function of none. -/
def declareFunc (M : Module) (name : String) (retTy : Ty) (argsTy : List Ty := []) :
    Except Stop (Module × FuncRef) :=
  castFunction (M.getOrInsertFunction name ⟨retTy, argsTy, false⟩)

def declareMallocLikeFunc (M : Module) (name : String) : Except Stop (Module × FuncRef) :=
  declareFunc M name .int8PtrTy [.int64Ty]

def declareFreeLikeFunc (M : Module) (name : String) : Except Stop (Module × FuncRef) :=
  declareFunc M name .void [.int8PtrTy]

def declareMemcpyLikeFunc (M : Module) (name : String) : Except Stop (Module × FuncRef) :=
  declareFunc M name .int8PtrTy [.int8PtrTy, .int8PtrTy, .int64Ty]

def declareKLEELikeFunc (M : Module) (name : String) : Except Stop (Module × FuncRef) :=
  castFunction (M.getOrInsertFunction name ⟨.int32Ty, [], true⟩)

def declareAssertLikeFunc (M : Module) (name : String) : Except Stop (Module × FuncRef) :=
  castFunction (M.getOrInsertFunction name
    ⟨.void, [.int8PtrTy, .int8PtrTy, .int32Ty, .int8PtrTy], false⟩)

end Ephippion
