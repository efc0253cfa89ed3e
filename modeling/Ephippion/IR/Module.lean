import Ephippion.IR.Type

/-!
# Values, instructions, functions and modules

The part of LLVM's IR the encapsulation reads and writes. An instruction is known by where it
stands (`InstRef`: its block and its position): instructions are only ever appended to a block or
put before its terminator, which nothing refers to, so a position does not change. A value that is
an instruction carries what the sources ask of it: its type, its name and whether it is an alloca.
Instructions of code that was already in the module are `Op.foreign` where they are not of the
kinds the encapsulation emits.
-/

namespace Ephippion

structure InstRef where
  block : Nat
  pos : Nat
  deriving DecidableEq, Repr

inductive CastOp
  | bitCast | zext
  deriving DecidableEq, Repr

inductive Pred
  | eq | slt | sge
  deriving DecidableEq, Repr

/-- A function of the module: its index in the function list, which nothing is ever removed from,
with its name and type. -/
structure FuncRef where
  index : Nat
  name : String
  type : FunctionType
  deriving DecidableEq, Repr

inductive Value
  | constInt (bits : Nat) (val : BitVec 64)
  /-- The `i8*` to a private string constant. -/
  | globalString (str : String)
  | inst (ref : InstRef) (type : Ty) (name : String) (isAlloca : Bool)
  | constCast (op : CastOp) (src : Value) (type : Ty)
  | constICmp (pred : Pred) (lhs rhs : Value)
  /-- A cast instruction that was created outside every block. -/
  | detachedCast (op : CastOp) (src : Value) (type : Ty)
  deriving DecidableEq, Repr

namespace Value

def getType : Value → Ty
  | constInt bits _ => .integer bits
  | globalString _ => .int8PtrTy
  | inst _ type _ _ => type
  | constCast _ _ type => type
  | constICmp _ _ _ => .int1Ty
  | detachedCast _ _ type => type

def getName : Value → String
  | inst _ _ name _ => name
  | _ => ""

def isAllocaInst : Value → Bool
  | inst _ _ _ isAlloca => isAlloca
  | _ => false

def isConstant : Value → Bool
  | constInt _ _ | globalString _ | constCast _ _ _ | constICmp _ _ _ => true
  | _ => false

end Value

/-- Operations; block operands are indices in the function's block list. -/
inductive Op
  | alloca (type : Ty) (addrSpace : Nat)
  | load (ptr : Value)
  | cast (op : CastOp) (src : Value) (type : Ty)
  | add (lhs rhs : Value)
  | sub (lhs rhs : Value)
  | icmp (pred : Pred) (lhs rhs : Value)
  | phi (type : Ty) (incoming : List (Value × Nat))
  | call (callee : FuncRef) (args : List Value)
  | br (dest : Nat)
  | condBr (cond : Value) (ifTrue ifFalse : Nat)
  | ret (val : Value)
  | unreachable
  /-- Any other instruction of existing code; a terminator has its successors. -/
  | foreign (type : Ty) (succs : Option (List Nat)) (text : String)
  deriving DecidableEq, Repr

namespace Op

def type : Op → Ty
  | alloca t addrSpace => .pointer t addrSpace
  | load ptr => ptr.getType.getPointerElementType
  | cast _ _ t => t
  | add lhs _ | sub lhs _ => lhs.getType
  | icmp _ _ _ => .int1Ty
  | phi t _ => t
  | call callee _ => callee.type.ret
  | foreign t _ _ => t
  | br _ | condBr _ _ _ | ret _ | unreachable => .void

def isAlloca : Op → Bool
  | alloca _ _ => true
  | _ => false

def isTerminator : Op → Bool
  | br _ | condBr _ _ _ | ret _ | unreachable | foreign _ (some _) _ => true
  | _ => false

def succs : Op → List Nat
  | br d => [d]
  | condBr _ t e => [t, e]
  | foreign _ (some ss) _ => ss
  | _ => []

end Op

structure Instr where
  op : Op
  name : String := ""
  deriving DecidableEq, Repr

structure BasicBlock where
  name : String
  instrs : List Instr
  deriving DecidableEq, Repr

/-- The last instruction, if it is a terminator. -/
def getTerminator (is : List Instr) : Option Instr := is.getLast?.filter (·.op.isTerminator)

theorem getTerminator_append {is : List Instr} {t : Instr} (ht : t.op.isTerminator = true) :
    getTerminator (is ++ [t]) = some t := by simp [getTerminator, ht]

structure Param where
  name : String
  type : Ty
  deriving DecidableEq, Repr

structure Function where
  name : String
  retType : Ty
  params : List Param
  isVarArg : Bool
  blocks : List BasicBlock
  deriving DecidableEq, Repr

namespace Function

def getFunctionType (f : Function) : FunctionType :=
  ⟨f.retType, f.params.map (·.type), f.isVarArg⟩

def isDeclaration (f : Function) : Bool := f.blocks.isEmpty

/-- The names in the function's symbol table. -/
def valueNames (f : Function) : List String :=
  f.params.map (·.name) ++ f.blocks.flatMap fun b => b.name :: b.instrs.map (·.name)

end Function

/-- The names of a module's functions and of its other named globals, those without one left
out. -/
def globalNames (functions : List Function) (otherGlobals : List String) : List String :=
  (functions.map (·.name) ++ otherGlobals).filter (· ≠ "")

/-- A module. `otherGlobals` are the names of its variables, aliases and ifuncs, `strings` the
private string constants (which have no name). No two globals share a name. -/
structure Module where
  name : String
  context : LLVMContext
  dataLayout : DataLayout
  functions : List Function
  otherGlobals : List String
  strings : List String
  unique : (globalNames functions otherGlobals).Nodup

/-- Why a generation stops: a failed `assert`, an `llvm::cast` of a value of another kind, an
`operator[]` past the end. -/
inductive Stop
  | assertion (text : String)
  | badCast
  | outOfRange
  deriving DecidableEq, Repr

namespace Module

/-- The blocks of function `h`. -/
def blocks (M : Module) (h : Nat) : List BasicBlock := (M.functions[h]?.map (·.blocks)).getD []

/-- The instructions of block `b` of function `h`. -/
def instrs (M : Module) (h b : Nat) : List Instr :=
  ((M.blocks h)[b]?.map (·.instrs)).getD []

/-! ## The symbol table -/

inductive GlobalValue
  | function (ref : FuncRef)
  | other
  deriving DecidableEq, Repr

def getNamedValue (M : Module) (name : String) : Option GlobalValue :=
  if name = "" then none
  else match M.functions.findIdx? (·.name = name) with
    | some i => M.functions[i]?.map fun f => .function ⟨i, f.name, f.getFunctionType⟩
    | none => if name ∈ M.otherGlobals then some .other else none

/-- `getFunction`: the function of that name, if the name is a function's. -/
def getFunction (M : Module) (name : String) : Option FuncRef :=
  match M.getNamedValue name with
  | some (.function ref) => some ref
  | _ => none

theorem not_mem_globalNames {M : Module} {name : String} (h : M.getNamedValue name = none) :
    name ∉ globalNames M.functions M.otherGlobals := by
  intro hm
  simp only [globalNames, List.mem_filter, List.mem_append, List.mem_map, decide_eq_true_eq] at hm
  obtain ⟨hm, hne⟩ := hm
  simp only [getNamedValue, if_neg hne] at h
  split at h
  · rename_i i hi
    have hlt := (List.findIdx?_eq_some_iff_getElem.1 hi).1
    simp [List.getElem?_eq_getElem hlt] at h
  · rename_i hi
    rcases hm with ⟨f, hf, rfl⟩ | hm
    · simpa using List.findIdx?_eq_none_iff.1 hi f hf
    · simp [hm] at h

/-- Append a function under a name that is free. -/
def appendFunction (M : Module) (f : Function) (h : M.getNamedValue f.name = none) : Module :=
  { M with
    functions := M.functions ++ [f]
    unique := by
      have hu := M.unique
      have hn := not_mem_globalNames h
      simp only [globalNames, List.map_append, List.map_cons, List.map_nil, List.filter_append,
        List.append_assoc] at hu hn ⊢
      by_cases hf : f.name = ""
      · simpa [hf] using hu
      · refine (List.Perm.nodup_iff ?_).2 (List.nodup_cons.2 ⟨hn, hu⟩)
        simp [hf] }

/-- `getOrInsertFunction`: the global of that name if it is a function of that type, a bitcast
(`none`) of what else has the name, and a new declaration at the end of the function list if
nothing has. -/
def getOrInsertFunction (M : Module) (name : String) (type : FunctionType) :
    Module × Option FuncRef :=
  match h : M.getNamedValue name with
  | some (.function ref) => (M, if ref.type = type then some ref else none)
  | some .other => (M, none)
  | none =>
    let decl : Function := ⟨name, type.ret, type.params.map (⟨"", ·⟩), type.isVarArg, []⟩
    (M.appendFunction decl h, some ⟨M.functions.length, name, type⟩)

/-! ## Changing a function's blocks -/

theorem map_name_modify (fs : List Function) (h : Nat) (f : List BasicBlock → List BasicBlock) :
    (fs.modify h fun F => { F with blocks := f F.blocks }).map (·.name) = fs.map (·.name) := by
  induction fs generalizing h with
  | nil => simp
  | cons F fs ih =>
    cases h with
    | zero => simp
    | succ h => simp [ih]

end Module

end Ephippion
