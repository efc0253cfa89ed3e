import Ephippion.IR.Module
import Mathlib.Logic.Function.Basic

/-!
# Building code

The operations of `IRBuilder` and `BasicBlock` the encapsulation uses, on a module and the index
`h` of the function that is built. What they create is kept as it was asked for: whether a call's
operands have the callee's types, or an operand stands in a block at all, is LLVM's verifier's
business and not theirs.

Of a module under construction the proofs look at the code map `M.instrs h` and the number of
blocks `(M.blocks h).length`; every operation has one equation for each. `Extends h M M'` says what
building in `h` leaves alone: every other function, and of `h` all but its blocks.
-/

namespace Ephippion

namespace Module

def modifyBlocks (M : Module) (h : Nat) (f : List BasicBlock → List BasicBlock) : Module :=
  { M with
    functions := M.functions.modify h fun F => { F with blocks := f F.blocks }
    unique := by simpa only [globalNames, map_name_modify] using M.unique }

def modifyInstrs (M : Module) (h b : Nat) (f : List Instr → List Instr) : Module :=
  M.modifyBlocks h fun bs => bs.modify b fun B => { B with instrs := f B.instrs }

/-- The name a new value of function `h` gets. -/
def uniqueName (M : Module) (h : Nat) (name : String) : String :=
  if name = "" then ""
  else M.context.makeUniqueName ((M.functions[h]?.map (·.valueNames)).getD []) name

/-- `BasicBlock::Create` at the end of function `h`. -/
def createBlock (M : Module) (h : Nat) (name : String) : Module × Nat :=
  (M.modifyBlocks h (· ++ [⟨M.uniqueName h name, []⟩]), (M.blocks h).length)

end Module

/-- Where a builder inserts: at the end of a block or right before its last instruction. -/
inductive InsertPoint
  | atEnd (block : Nat)
  | beforeTerm (block : Nat)
  deriving DecidableEq, Repr

namespace InsertPoint

def block : InsertPoint → Nat
  | atEnd b | beforeTerm b => b

def pos : InsertPoint → List Instr → Nat
  | atEnd _, is => is.length
  | beforeTerm _, is => is.length - 1

def insert : InsertPoint → Instr → List Instr → List Instr
  | atEnd _, i, is => is ++ [i]
  | beforeTerm _, i, is => is.dropLast ++ i :: is.getLast?.toList

end InsertPoint

namespace Module

/-- `IRBuilder::Insert`. -/
def insert (M : Module) (h : Nat) (ip : InsertPoint) (op : Op) (name : String := "") :
    Module × Value :=
  let nm := M.uniqueName h name
  (M.modifyInstrs h ip.block (ip.insert ⟨op, nm⟩),
    .inst ⟨ip.block, ip.pos (M.instrs h ip.block)⟩ op.type nm op.isAlloca)

/-- An instruction whose value is not used. -/
def append (M : Module) (h b : Nat) (op : Op) : Module := (M.insert h (.atEnd b) op).1

/-- `CreateGlobalStringPtr`. -/
def createGlobalStringPtr (M : Module) (str : String) : Module × Value :=
  ({ M with strings := M.strings ++ [str] }, .globalString str)

/-- `CreateAlloca(type, 0, name)`. -/
def createAlloca (M : Module) (h : Nat) (ip : InsertPoint) (type : Ty) (name : String) :
    Module × Value :=
  M.insert h ip (.alloca type M.dataLayout.getAllocaAddrSpace) name

/-- `CreateBitCast`: nothing to do at the same type, folded on constants. -/
def createBitCast (M : Module) (h : Nat) (ip : InsertPoint) (v : Value) (type : Ty) :
    Module × Value :=
  if v.getType = type then (M, v)
  else if v.isConstant then (M, .constCast .bitCast v type)
  else M.insert h ip (.cast .bitCast v type)

/-- `CreateICmp`, folded on constants. -/
def createICmp (M : Module) (h : Nat) (ip : InsertPoint) (p : Pred) (l r : Value) :
    Module × Value :=
  if l.isConstant && r.isConstant then (M, .constICmp p l r)
  else M.insert h ip (.icmp p l r)

/-- `BranchInst::setSuccessor(0, dest)` on the last instruction of `b`. -/
def setSuccessor0 (M : Module) (h b dest : Nat) : Module :=
  M.modifyInstrs h b fun is => is.modify (is.length - 1) fun i => match i.op with
    | .br _ => { i with op := .br dest }
    | .condBr c _ e => { i with op := .condBr c dest e }
    | _ => i

/-- `PHINode::addIncoming`. -/
def addIncoming (M : Module) (h : Nat) (ref : InstRef) (v : Value) (pred : Nat) : Module :=
  M.modifyInstrs h ref.block fun is => is.modify ref.pos fun i => match i.op with
    | .phi t inc => { i with op := .phi t (inc ++ [(v, pred)]) }
    | _ => i

end Module

/-- `getIntN(bits, val)`, `getInt32`, `getInt64`. -/
def getIntN (bits : Nat) (val : BitVec 64) : Value := .constInt bits val

/-- `CreateMul` of two constants: the folder multiplies them in 64 bits. -/
def createMul (l r : BitVec 64) : Value := getIntN 64 (l * r)

/-- `CastInst::CreateZExtOrBitCast(v, type)` without an insertion point. -/
def createZExtOrBitCast (v : Value) (type : Ty) : Value :=
  if v.getType.getScalarSizeInBits = type.getScalarSizeInBits then .detachedCast .bitCast v type
  else .detachedCast .zext v type

/-! ## The code map -/

namespace Module

theorem blocks_eq_getElem {M : Module} {h : Nat} (hh : h < M.functions.length) :
    M.blocks h = M.functions[h].blocks := by simp [blocks, hh]

theorem blocks_modifyBlocks {M : Module} {h : Nat} (hh : h < M.functions.length)
    (f : List BasicBlock → List BasicBlock) : (M.modifyBlocks h f).blocks h = f (M.blocks h) := by
  simp [blocks, modifyBlocks, hh]

theorem lt_of_blocks {M : Module} {h b : Nat} (hb : b < (M.blocks h).length) :
    h < M.functions.length := by
  by_contra hn
  rw [blocks, List.getElem?_eq_none (by omega)] at hb
  exact absurd hb (by simp)

@[simp] theorem length_modifyBlocks (M : Module) (h : Nat)
    (f : List BasicBlock → List BasicBlock) :
    (M.modifyBlocks h f).functions.length = M.functions.length := by simp [modifyBlocks]

@[simp] theorem length_blocks_modifyInstrs (M : Module) (h b : Nat) (f : List Instr → List Instr) :
    ((M.modifyInstrs h b f).blocks h).length = (M.blocks h).length := by
  by_cases hh : h < M.functions.length
  · rw [modifyInstrs, blocks_modifyBlocks hh, List.length_modify]
  · simp [modifyInstrs, modifyBlocks, blocks, hh]

theorem instrs_modifyInstrs {M : Module} {h b : Nat} (hb : b < (M.blocks h).length)
    (f : List Instr → List Instr) :
    (M.modifyInstrs h b f).instrs h = Function.update (M.instrs h) b (f (M.instrs h b)) := by
  funext b'
  unfold instrs
  rw [modifyInstrs, blocks_modifyBlocks (lt_of_blocks hb), List.getElem?_modify]
  by_cases hbb : b = b'
  · subst hbb
    simp [hb]
  · simp [hbb, Function.update_of_ne (Ne.symm hbb)]

@[simp] theorem length_blocks_createBlock {M : Module} {h : Nat} (hh : h < M.functions.length)
    (name : String) : ((M.createBlock h name).1.blocks h).length = (M.blocks h).length + 1 := by
  rw [createBlock, blocks_modifyBlocks hh]
  simp

theorem instrs_createBlock {M : Module} {h : Nat} (hh : h < M.functions.length) (name : String) :
    (M.createBlock h name).1.instrs h = M.instrs h := by
  funext b
  unfold instrs
  rw [createBlock, blocks_modifyBlocks hh, List.getElem?_append]
  split
  · rfl
  · rename_i hb
    rw [List.getElem?_eq_none (l := M.blocks h) (by omega), List.getElem?_singleton]
    split <;> rfl

theorem instrs_of_le {M : Module} {h b : Nat} (hb : (M.blocks h).length ≤ b) :
    M.instrs h b = [] := by
  simp [instrs, List.getElem?_eq_none hb]

theorem instrs_insert {M : Module} {h b : Nat} (hb : b < (M.blocks h).length) (op : Op)
    (name : String) : (M.insert h (.atEnd b) op name).1.instrs h =
      Function.update (M.instrs h) b (M.instrs h b ++ [⟨op, M.uniqueName h name⟩]) :=
  instrs_modifyInstrs hb _

theorem instrs_append {M : Module} {h b : Nat} (hb : b < (M.blocks h).length) (op : Op) :
    (M.append h b op).instrs h = Function.update (M.instrs h) b (M.instrs h b ++ [⟨op, ""⟩]) := by
  rw [append, instrs_insert hb, uniqueName, if_pos rfl]

@[simp] theorem length_blocks_insert (M : Module) (h : Nat) (ip : InsertPoint) (op : Op)
    (name : String) : ((M.insert h ip op name).1.blocks h).length = (M.blocks h).length := by
  simp [insert]

@[simp] theorem length_blocks_append (M : Module) (h b : Nat) (op : Op) :
    ((M.append h b op).blocks h).length = (M.blocks h).length := by simp [append]

@[simp] theorem insert_value (M : Module) (h b : Nat) (op : Op) (name : String) :
    (M.insert h (.atEnd b) op name).2 =
      .inst ⟨b, (M.instrs h b).length⟩ op.type (M.uniqueName h name) op.isAlloca := rfl

@[simp] theorem blocks_createGlobalStringPtr (M : Module) (str : String) :
    (M.createGlobalStringPtr str).1.blocks = M.blocks := rfl

@[simp] theorem instrs_createGlobalStringPtr (M : Module) (str : String) :
    (M.createGlobalStringPtr str).1.instrs = M.instrs := rfl

@[simp] theorem createGlobalStringPtr_value (M : Module) (str : String) :
    (M.createGlobalStringPtr str).2 = .globalString str := rfl

/-! ## What building leaves alone -/

/-- `M'` is `M` after building in function `h`: the other functions are untouched, `h` keeps all
but its blocks, and what is new are declarations and strings. -/
structure Extends (h : Nat) (M M' : Module) : Prop where
  name : M'.name = M.name
  context : M'.context = M.context
  dataLayout : M'.dataLayout = M.dataLayout
  otherGlobals : M'.otherGlobals = M.otherGlobals
  strings : M.strings <+: M'.strings
  length : M.functions.length ≤ M'.functions.length
  others : ∀ g < M.functions.length, g ≠ h → M'.functions[g]? = M.functions[g]?
  self : ∀ F, M.functions[h]? = some F → ∃ bs, M'.functions[h]? = some { F with blocks := bs }
  decls : ∀ g F, M.functions.length ≤ g → M'.functions[g]? = some F → F.isDeclaration

namespace Extends

variable {h : Nat} {M M' M'' : Module}

theorem refl (h : Nat) (M : Module) : Extends h M M where
  name := rfl
  context := rfl
  dataLayout := rfl
  otherGlobals := rfl
  strings := List.prefix_refl _
  length := Nat.le_refl _
  others _ _ _ := rfl
  self F hF := ⟨F.blocks, hF⟩
  decls g F hg hF := by rw [List.getElem?_eq_none hg] at hF; cases hF

theorem trans (hh : h < M.functions.length) (h₁ : Extends h M M') (h₂ : Extends h M' M'') :
    Extends h M M'' where
  name := h₂.name.trans h₁.name
  context := h₂.context.trans h₁.context
  dataLayout := h₂.dataLayout.trans h₁.dataLayout
  otherGlobals := h₂.otherGlobals.trans h₁.otherGlobals
  strings := h₁.strings.trans h₂.strings
  length := Nat.le_trans h₁.length h₂.length
  others g hg hne := (h₂.others g (Nat.lt_of_lt_of_le hg h₁.length) hne).trans (h₁.others g hg hne)
  self F hF := by
    obtain ⟨bs, hbs⟩ := h₁.self F hF
    obtain ⟨bs', hbs'⟩ := h₂.self _ hbs
    exact ⟨bs', hbs'⟩
  decls g F hg hF := by
    rcases Nat.lt_or_ge g M'.functions.length with hlt | hge
    · rw [h₂.others g hlt (by omega)] at hF
      exact h₁.decls g F hg hF
    · exact h₂.decls g F hge hF

theorem lt (hh : h < M.functions.length) (he : Extends h M M') : h < M'.functions.length :=
  Nat.lt_of_lt_of_le hh he.length

theorem modifyBlocks (h : Nat) (M : Module) (f : List BasicBlock → List BasicBlock) :
    Extends h M (M.modifyBlocks h f) where
  name := rfl
  context := rfl
  dataLayout := rfl
  otherGlobals := rfl
  strings := List.prefix_refl _
  length := by simp
  others g _ hne := by simp [Module.modifyBlocks, hne.symm]
  self F hF := ⟨f F.blocks, by simp [Module.modifyBlocks, hF]⟩
  decls g F hg hF := by rw [List.getElem?_eq_none (by simpa using hg)] at hF; cases hF

theorem modifyInstrs (h : Nat) (M : Module) (b : Nat) (f : List Instr → List Instr) :
    Extends h M (M.modifyInstrs h b f) :=
  modifyBlocks h M _

theorem insert (h : Nat) (M : Module) (ip : InsertPoint) (op : Op) (name : String) :
    Extends h M (M.insert h ip op name).1 :=
  modifyInstrs h M ip.block (ip.insert ⟨op, M.uniqueName h name⟩)

theorem createGlobalStringPtr (h : Nat) (M : Module) (str : String) :
    Extends h M (M.createGlobalStringPtr str).1 where
  name := rfl
  context := rfl
  dataLayout := rfl
  otherGlobals := rfl
  strings := List.prefix_append _ _
  length := Nat.le_refl _
  others _ _ _ := rfl
  self F hF := ⟨F.blocks, hF⟩
  decls := (refl h M).decls

end Extends

end Module

end Ephippion
