import Mathlib.Algebra.GroupWithZero.Nat
import Mathlib.Tactic.Common

/-!
# Types, data layouts and contexts

LLVM's types as far as the encapsulation looks at them: is it a pointer, its pointee, its scalar
size, is it equal to another one. What LLVM itself decides and the sources only ask for (sizes,
the address space of frame storage, the renaming of a taken name) is data of the module's
`DataLayout` and `LLVMContext`.
-/

namespace Ephippion

/-- LLVM's types. Structure and function types are known by their identity in the context. -/
inductive Ty
  | void | half | float | double | x86FP80 | fp128 | ppcFP128 | x86MMX | label | metadata | token
  | integer (bits : Nat)
  | function (id : Nat)
  | struct (id : Nat)
  | array (elem : Ty) (n : Nat)
  | vector (elem : Ty) (n : Nat)
  | pointer (pointee : Ty) (addrSpace : Nat)
  deriving DecidableEq, Repr

namespace Ty

abbrev int1Ty : Ty := .integer 1
abbrev int8Ty : Ty := .integer 8
abbrev int32Ty : Ty := .integer 32
abbrev int64Ty : Ty := .integer 64
abbrev int8PtrTy : Ty := .pointer int8Ty 0

def isPointerTy : Ty → Bool
  | .pointer _ _ => true
  | _ => false

/-- Only asked of pointers. -/
def getPointerElementType : Ty → Ty
  | .pointer t _ => t
  | _ => .void

def getPrimitiveSizeInBits : Ty → Nat
  | .half => 16
  | .float => 32
  | .double => 64
  | .x86FP80 => 80
  | .fp128 | .ppcFP128 => 128
  | .x86MMX => 64
  | .integer bits => bits
  | .vector elem n => n * elem.getPrimitiveSizeInBits
  | _ => 0

/-- The size of a vector's element, or of the type itself; 0 for pointers and aggregates. -/
def getScalarSizeInBits : Ty → Nat
  | .vector elem _ => elem.getPrimitiveSizeInBits
  | t => t.getPrimitiveSizeInBits

end Ty

structure FunctionType where
  ret : Ty
  params : List Ty
  isVarArg : Bool
  deriving DecidableEq, Repr

/-- `getParamType(k)`; only asked below `getNumParams()`. -/
def FunctionType.getParamType (t : FunctionType) (k : Nat) : Ty := t.params.getD k .void

/-- A module's data layout: `getTypeAllocSize` is a `uint64_t`; a byte has size 1 in each. -/
structure DataLayout where
  getTypeAllocSize : Ty → BitVec 64
  getAllocaAddrSpace : Nat
  int8_size : getTypeAllocSize .int8Ty = 1

/-- What a context does to a name that is taken: `makeUniqueName taken name` is a free one, and
`name` itself if it is free. -/
structure LLVMContext where
  makeUniqueName : List String → String → String
  not_mem : ∀ taken name, makeUniqueName taken name ∉ taken
  of_not_mem : ∀ taken name, name ∉ taken → makeUniqueName taken name = name

end Ephippion
