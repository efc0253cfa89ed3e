import Ephippion.IR.Module
import Ephippion.Lib.Machine
import Ephippion.Lib.ObjMem

/-!
# Executing a function

The meaning of the code the encapsulation emits, and of code around it. A run is one of a
deterministic machine whose steps are whole blocks; everything that is not determined by the code
(the contents of fresh storage, the symbolic bytes, what the encapsulated function does at each
call, and what instructions of other kinds and calls of other functions do) is fixed by a `World`,
so that a statement about every world is one about every execution. The library functions
do what the C library and KLEE document: `malloc` returns a new object, `klee_make_symbolic(p, n)`
makes `n` bytes at `p` symbolic, `memcpy` copies `n` bytes, `memcmp` is 0 iff `n` bytes agree,
`__assert_fail` ends the run. An access outside an object and a value with no meaning (an operand
that stands in no block) have no step: the run is `stuck`.
-/

namespace Ephippion

open ObjMem (Byte Cell Mem)

inductive RVal
  | int (v : BitVec 64)
  | ptr (obj : Nat)
  | str (s : String)
  /-- A loaded value of another type: its bytes. -/
  | bytes (cs : List Cell)
  deriving DecidableEq, Repr

inductive Event
  | alloc (obj : Nat) (heap : Bool) (size : Nat)
  | symbolize (obj size : Nat) (name : String)
  | copy (dst src size : Nat)
  | call (block : Nat) (iter : BitVec 64) (args : List RVal)
  | compare (lhs rhs size : Nat) (equal : Bool)
  | free (obj : Nat)
  | assertFail (block : Nat)
  /-- An instruction of another kind. -/
  | foreign (text : String)
  /-- A call of a function that is neither encapsulated nor a library function. -/
  | other (name : String) (args : List RVal)
  deriving DecidableEq, Repr

/-- What an execution does not determine. `fresh` and `symbol` give bytes by object and by the
time of the request, `call` what a call of the encapsulated function at some time makes of the
contents of its arguments, given the iterator; `none` if the call does not return. At some time too,
an instruction of another kind and a call of another function have a value and leave a memory
(`foreign` and `other`), and a terminator of another kind goes to the successor at a position, or
returns (`exit`; `void` is no bytes). -/
structure World where
  fresh : Nat → Nat → Byte
  symbol : Nat → Nat → Byte
  call : Nat → BitVec 64 → List (List Byte) → Option (List (List Byte))
  shape : ∀ t v bs bs', call t v bs = some bs' → bs'.map List.length = bs.map List.length
  foreign : Nat → String → (InstRef → Option RVal) → Mem → Option (Option RVal × Mem) :=
    fun _ _ _ _ => none
  exit : Nat → String → (InstRef → Option RVal) → Mem → Option (Nat ⊕ RVal) :=
    fun _ _ _ _ => none
  other : Nat → String → List RVal → Mem → Option (Option RVal × Mem) := fun _ _ _ _ => none

theorem World.shape_same : ∀ (_ : Nat) (_ : BitVec 64) (bs bs' : List (List Byte)),
    some bs = some bs' → bs'.map List.length = bs.map List.length := fun _ _ _ _ h => by
  cases h
  rfl

/-- Every call of the encapsulated function returns. -/
def World.Returns (W : World) : Prop := ∀ t v bs, (W.call t v bs).isSome

/-! ## Effects -/

/-- Memory and what has happened so far. -/
structure Core where
  mem : Mem
  trace : List Event
  deriving DecidableEq, Repr

namespace Core

def log (c : Core) (m : Mem) (e : Event) : Core := ⟨m, c.trace ++ [e]⟩

def alloc (W : World) (c : Core) (heap : Bool) (n : Nat) : Core :=
  c.log (ObjMem.alloc c.mem heap ((List.range n).map fun i => ⟨W.fresh c.mem.length i, false⟩))
    (.alloc c.mem.length heap n)

def symbolize (W : World) (c : Core) (o n : Nat) (name : String) : Option Core :=
  (ObjMem.fill c.mem o n (W.symbol c.trace.length)).map (c.log · (.symbolize o n name))

def copy (c : Core) (d s n : Nat) : Option Core :=
  (ObjMem.copy c.mem d s n).map (c.log · (.copy d s n))

def compare (c : Core) (a b n : Nat) : Option (Bool × Core) :=
  (ObjMem.cmp c.mem a b n).map fun eq => (eq, c.log c.mem (.compare a b n eq))

def free (c : Core) (o : Nat) : Option Core := (ObjMem.free c.mem o).map (c.log · (.free o))

/-- The contents of an argument: what its pointer points to, or its own bytes. -/
def argContents (m : Mem) : RVal → Option (List Byte)
  | .ptr o => (ObjMem.cells? m o).map (·.map (·.byte))
  | .bytes cs => some (cs.map (·.byte))
  | _ => none

/-- The new contents of the arguments that are pointers; a value cannot be written to. -/
def writeBack (m : Mem) : List (RVal × List Byte) → Option Mem
  | [] => some m
  | (.ptr o, bs) :: rest => (ObjMem.write m o bs).bind (writeBack · rest)
  | _ :: rest => writeBack m rest

/-- A call of the encapsulated function, with the iterator as its first argument. -/
def call (W : World) (c : Core) (block : Nat) : List RVal → Option Core
  | .int v :: args =>
    (args.mapM (argContents c.mem)).bind fun bs =>
      (W.call c.trace.length v bs).bind fun bs' =>
        (writeBack c.mem (args.zip bs')).map (c.log · (.call block v args))
  | _ => none

end Core

/-! ## Values -/

def evalICmp : Pred → RVal → RVal → Option RVal
  | .eq, .int a, .int b => some (.int (if a = b then 1 else 0))
  | .eq, .ptr a, .ptr b => some (.int (if a = b then 1 else 0))
  | .eq, .bytes a, .bytes b => some (.int (if a.map (·.byte) = b.map (·.byte) then 1 else 0))
  | .slt, .int a, .int b => some (.int (if a.slt b then 1 else 0))
  | .sge, .int a, .int b => some (.int (if b.sle a then 1 else 0))
  | _, _, _ => none

namespace Value

def eval (env : InstRef → Option RVal) : Value → Option RVal
  | constInt _ v => some (.int v)
  | globalString s => some (.str s)
  | inst ref _ _ _ => env ref
  | constCast _ src _ => src.eval env
  | constICmp p l r => (l.eval env).bind fun a => (r.eval env).bind fun b => evalICmp p a b
  | detachedCast _ _ _ => none

end Value

/-! ## Steps -/

/-- About to execute `block`, coming from `prev`. -/
structure Config where
  prev : Nat
  block : Nat
  env : InstRef → Option RVal
  core : Core

inductive Outcome
  | returned (v : RVal) (c : Core)
  | failed (c : Core)
  | stuck (c : Core)

def Outcome.core : Outcome → Core
  | returned _ c | failed c | stuck c => c

/-- What an instruction that is no terminator does. -/
inductive OpResult
  | value (v : Option RVal) (c : Core)
  | failed (c : Core)
  | stuck

def OpResult.ofCore (v : Option RVal) : Option Core → OpResult
  | some c => .value v c
  | none => .stuck

/-- What the world does, logged. -/
def OpResult.ofEffect (c : Core) (e : Event) : Option (Option RVal × Mem) → OpResult
  | some (v, m) => .value v (c.log m e)
  | none => .stuck

/-- A call of a library function that the encapsulation declares, or of any other one. -/
def libCall (W : World) (c : Core) (block : Nat) (name : String) (args : List RVal) : OpResult :=
  if name = "malloc" then
    match args with
    | [.int n] => .value (some (.ptr c.mem.length)) (c.alloc W true n.toNat)
    | _ => .stuck
  else if name = "free" then
    match args with
    | [.ptr o] => .ofCore none (c.free o)
    | _ => .stuck
  else if name = "klee_make_symbolic" then
    match args with
    | [.ptr o, .int n, .str s] => .ofCore none (c.symbolize W o n.toNat s)
    | _ => .stuck
  else if name = "memcpy" then
    match args with
    | [.ptr d, .ptr s, .int n] => .ofCore (some (.ptr d)) (c.copy d s n.toNat)
    | _ => .stuck
  else if name = "memcmp" then
    match args with
    | [.ptr a, .ptr b, .int n] => match c.compare a b n.toNat with
      | some (eq, c') => .value (some (.int (if eq then 0 else 1))) c'
      | none => .stuck
    | _ => .stuck
  else if name = "__assert_fail" then .failed (c.log c.mem (.assertFail block))
  else .ofEffect c (.other name args) (W.other c.trace.length name args c.mem)

section
variable (W : World) (M : Module) (F : Nat)

/-- An instruction of block `b`, entered from `prev`. The header's `phi` is its block's only one,
so that evaluating it in sequence is evaluating it on entry, and additions are of 64-bit integers;
in other code several phis of a block and additions of other integers are foreign. -/
def execOp (b prev : Nat) (env : InstRef → Option RVal) (c : Core) : Op → OpResult
  | .alloca t _ => .value (some (.ptr c.mem.length))
      (c.alloc W false (M.dataLayout.getTypeAllocSize t).toNat)
  | .load p => match p.eval env with
    | some (.ptr o) => match ObjMem.cells? c.mem o with
      | some cs => .value (some (.bytes cs)) c
      | none => .stuck
    | _ => .stuck
  | .cast _ v _ => match v.eval env with
    | some r => .value (some r) c
    | none => .stuck
  | .add l r => match l.eval env, r.eval env with
    | some (.int a), some (.int b) => .value (some (.int (a + b))) c
    | _, _ => .stuck
  | .sub l r => match l.eval env, r.eval env with
    | some (.int a), some (.int b) => .value (some (.int (a - b))) c
    | _, _ => .stuck
  | .icmp p l r => match (Value.constICmp p l r).eval env with
    | some v => .value (some v) c
    | none => .stuck
  | .phi _ inc => match (inc.find? (·.2 = prev)).bind (·.1.eval env) with
    | some v => .value (some v) c
    | none => .stuck
  | .call callee args => match args.mapM (·.eval env) with
    | some vals =>
      if callee.index = F then .ofCore none (c.call W b vals)
      else libCall W c b callee.name vals
    | none => .stuck
  | .foreign _ _ text => .ofEffect c (.foreign text) (W.foreign c.trace.length text env c.mem)
  | .br _ | .condBr _ _ _ | .ret _ | .unreachable => .stuck

/-- Where a terminator of another kind goes from block `b`. -/
def leave (b : Nat) (succs : List Nat) (text : String) (env : InstRef → Option RVal) (c : Core) :
    Config ⊕ Outcome :=
  match W.exit c.trace.length text env c.mem with
  | some (.inl k) => match succs[k]? with
    | some d => .inl ⟨b, d, env, c⟩
    | none => .inr (.stuck c)
  | some (.inr r) => .inr (.returned r c)
  | none => .inr (.stuck c)

/-- The instructions of block `b` from position `pos` on. -/
def execInstrs (b prev : Nat) :
    List Instr → Nat → (InstRef → Option RVal) → Core → Config ⊕ Outcome
  | [], _, _, c => .inr (.stuck c)
  | i :: is, pos, env, c => match i.op with
    | .br d => .inl ⟨b, d, env, c⟩
    | .condBr cond t e => match cond.eval env with
      | some (.int v) => .inl ⟨b, if v = 0 then e else t, env, c⟩
      | _ => .inr (.stuck c)
    | .ret v => match v.eval env with
      | some r => .inr (.returned r c)
      | none => .inr (.stuck c)
    | .foreign type (some succs) text =>
      match execOp W M F b prev env c (.foreign type (some succs) text) with
      | .value v c' => leave W b succs text (fun r => if r = ⟨b, pos⟩ then v else env r) c'
      | .failed c' => .inr (.failed c')
      | .stuck => .inr (.stuck c)
    | op => match execOp W M F b prev env c op with
      | .value v c' =>
        execInstrs b prev is (pos + 1) (fun r => if r = ⟨b, pos⟩ then v else env r) c'
      | .failed c' => .inr (.failed c')
      | .stuck => .inr (.stuck c)

/-- One block of function `h`; the encapsulated function is `F`. -/
def step (h : Nat) (s : Config) : Config ⊕ Outcome :=
  execInstrs W M F s.block s.prev (M.instrs h s.block) 0 s.env s.core

/-- The start of a run at block `b`. -/
def startAt (b : Nat) : Config := ⟨b, b, fun _ => none, ⟨[], []⟩⟩

end

end Ephippion
