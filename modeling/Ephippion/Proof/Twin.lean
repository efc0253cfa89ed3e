import Ephippion.Lib.Except
import Ephippion.Proof.Declare

/-!
# Building the same function twice

What a generation emits does not depend on the other functions of the module it is given, but for
the places of the functions that are called. `Op.anon F` forgets a callee's place, all but whether
it is `F`, and `Twin F h M h' M'` says that function `h` of `M` and function `h'` of `M'` are the
same up to that, in modules that are the same as far as a builder asks. Every operation of the
builder keeps it.
-/

namespace Ephippion

/-- A callee without its place; is it `F`? -/
def FuncRef.anon (F : Nat) (ref : FuncRef) : FuncRef :=
  { ref with index := if ref.index = F then 0 else 1 }

def Op.anon (F : Nat) : Op → Op
  | .call callee args => .call (callee.anon F) args
  | op => op

def Instr.anon (F : Nat) (i : Instr) : Instr := { i with op := i.op.anon F }

def BasicBlock.anon (F : Nat) (b : BasicBlock) : BasicBlock :=
  { b with instrs := b.instrs.map (Instr.anon F) }

def Function.anon (F : Nat) (f : Function) : Function :=
  { f with blocks := f.blocks.map (BasicBlock.anon F) }

section
variable (F : Nat)

@[simp] theorem Op.type_anon (op : Op) : (op.anon F).type = op.type := by cases op <;> rfl

@[simp] theorem Op.isAlloca_anon (op : Op) : (op.anon F).isAlloca = op.isAlloca := by
  cases op <;> rfl

@[simp] theorem Op.isTerminator_anon (op : Op) : (op.anon F).isTerminator = op.isTerminator := by
  cases op <;> rfl

@[simp] theorem Function.valueNames_anon (f : Function) : (f.anon F).valueNames = f.valueNames := by
  simp only [Function.valueNames, Function.anon, List.flatMap_map]
  congr 2
  funext b
  simp [BasicBlock.anon, Instr.anon, Function.comp_def]

theorem getTerminator_anon (is : List Instr) :
    getTerminator (is.map (Instr.anon F)) = (getTerminator is).map (Instr.anon F) := by
  simp only [getTerminator, List.getLast?_map]
  cases is.getLast? with
  | none => rfl
  | some i => cases h : i.op.isTerminator <;> simp [Option.filter, Instr.anon, h]

theorem InsertPoint.map_insert (g : Instr → Instr) (ip : InsertPoint) (i : Instr)
    (is : List Instr) : (ip.insert i is).map g = ip.insert (g i) (is.map g) := by
  cases ip with
  | atEnd b => simp [InsertPoint.insert]
  | beforeTerm b => cases h : is.getLast? <;> simp [InsertPoint.insert, h]

end

theorem List.map_modify_eq {α β : Type} {g : α → β} {f : α → α} {f' : β → β}
    (h : ∀ a, g (f a) = f' (g a)) (l : List α) (k : Nat) :
    (l.modify k f).map g = (l.map g).modify k f' := by
  induction l generalizing k with
  | nil => simp
  | cons a l ih => cases k <;> simp [h, ih]

/-- Function `h` of `M` and function `h'` of `M'` are the same up to the places of callees. -/
structure Twin (F h : Nat) (M : Module) (h' : Nat) (M' : Module) : Prop where
  name : M.name = M'.name
  context : M.context = M'.context
  dataLayout : M.dataLayout = M'.dataLayout
  sig : M.sig[F]? = M'.sig[F]?
  defined : F < M.functions.length
  lt : h < M.functions.length
  lt' : h' < M'.functions.length
  func : M.functions[h]?.map (Function.anon F) = M'.functions[h']?.map (Function.anon F)

/-- The same for modules that come with a value. -/
structure Twins {α : Type} (F h h' : Nat) (r r' : Module × α) : Prop where
  mod : Twin F h r.1 h' r'.1
  value : r.2 = r'.2

namespace Twin

variable {F h h' : Nat} {M M' : Module}

theorem exists_func (ht : Twin F h M h' M') : ∃ f f', M.functions[h]? = some f ∧
    M'.functions[h']? = some f' ∧ f.anon F = f'.anon F := by
  have hf := List.getElem?_eq_getElem ht.lt
  have hf' := List.getElem?_eq_getElem ht.lt'
  refine ⟨_, _, hf, hf', ?_⟩
  have := ht.func
  rw [hf, hf'] at this
  exact Option.some.inj this

theorem funcName (ht : Twin F h M h' M') :
    M.functions[h]?.map (·.name) = M'.functions[h']?.map (·.name) := by
  obtain ⟨f, f', hf, hf', he⟩ := ht.exists_func
  rw [hf, hf']
  exact congrArg (fun f => some f.name) he

theorem uniqueName (ht : Twin F h M h' M') (name : String) :
    M.uniqueName h name = M'.uniqueName h' name := by
  obtain ⟨f, f', hf, hf', he⟩ := ht.exists_func
  have hnames : f.valueNames = f'.valueNames := by
    rw [← f.valueNames_anon F, he, f'.valueNames_anon F]
  simp only [Module.uniqueName, ht.context, hf, hf', Option.map_some, hnames]

theorem blocks (ht : Twin F h M h' M') :
    (M.blocks h).map (BasicBlock.anon F) = (M'.blocks h').map (BasicBlock.anon F) := by
  obtain ⟨f, f', hf, hf', he⟩ := ht.exists_func
  rw [Module.blocks, Module.blocks, hf, hf']
  exact congrArg Function.blocks he

theorem length (ht : Twin F h M h' M') : (M.blocks h).length = (M'.blocks h').length := by
  simpa using congrArg List.length ht.blocks

theorem instrs (ht : Twin F h M h' M') (b : Nat) :
    (M.instrs h b).map (Instr.anon F) = (M'.instrs h' b).map (Instr.anon F) := by
  have hinstrs : ∀ (M : Module) (h : Nat), (M.instrs h b).map (Instr.anon F) =
      ((((M.blocks h).map (BasicBlock.anon F))[b]?).map (·.instrs)).getD [] := by
    intro M h
    rw [Module.instrs, List.getElem?_map]
    cases (M.blocks h)[b]? <;> rfl
  rw [hinstrs, hinstrs, ht.blocks]

theorem length_instrs (ht : Twin F h M h' M') (b : Nat) :
    (M.instrs h b).length = (M'.instrs h' b).length := by
  simpa using congrArg List.length (ht.instrs b)

theorem isSome_getTerminator (ht : Twin F h M h' M') (b : Nat) :
    (getTerminator (M.instrs h b)).isSome = (getTerminator (M'.instrs h' b)).isSome := by
  have := congrArg (Option.isSome ∘ getTerminator) (ht.instrs b)
  simpa [getTerminator_anon] using this

/-! ## The operations of the builder -/

theorem modifyBlocks (ht : Twin F h M h' M') {g g' k : List BasicBlock → List BasicBlock}
    (hg : ∀ bs, (g bs).map (BasicBlock.anon F) = k (bs.map (BasicBlock.anon F)))
    (hg' : ∀ bs, (g' bs).map (BasicBlock.anon F) = k (bs.map (BasicBlock.anon F))) :
    Twin F h (M.modifyBlocks h g) h' (M'.modifyBlocks h' g') where
  name := ht.name
  context := ht.context
  dataLayout := ht.dataLayout
  sig := by rw [Module.sig_modifyBlocks, Module.sig_modifyBlocks, ht.sig]
  defined := by simpa using ht.defined
  lt := by simpa using ht.lt
  lt' := by simpa using ht.lt'
  func := by
    obtain ⟨f, f', hf, hf', he⟩ := ht.exists_func
    have hb : f.blocks.map (BasicBlock.anon F) = f'.blocks.map (BasicBlock.anon F) :=
      congrArg Function.blocks he
    simp only [Function.anon, Function.mk.injEq] at he
    simp [Module.modifyBlocks, hf, hf', Function.anon, hg, hg', hb, he]

theorem modifyInstrs (ht : Twin F h M h' M') {g g' k : List Instr → List Instr} (b : Nat)
    (hg : ∀ is, (g is).map (Instr.anon F) = k (is.map (Instr.anon F)))
    (hg' : ∀ is, (g' is).map (Instr.anon F) = k (is.map (Instr.anon F))) :
    Twin F h (M.modifyInstrs h b g) h' (M'.modifyInstrs h' b g') := by
  refine ht.modifyBlocks (k := fun bs => bs.modify b fun B => { B with instrs := k B.instrs })
    (fun bs => List.map_modify_eq (fun B => ?_) bs b)
    (fun bs => List.map_modify_eq (fun B => ?_) bs b)
  · simp [BasicBlock.anon, hg]
  · simp [BasicBlock.anon, hg']

theorem createBlock (ht : Twin F h M h' M') (name : String) :
    Twins F h h' (M.createBlock h name) (M'.createBlock h' name) where
  mod := by
    show Twin F h (M.modifyBlocks h (· ++ [⟨M.uniqueName h name, []⟩])) h'
      (M'.modifyBlocks h' (· ++ [⟨M'.uniqueName h' name, []⟩]))
    exact ht.modifyBlocks (k := (· ++ [⟨M.uniqueName h name, []⟩]))
      (fun bs => by simp [BasicBlock.anon]) (fun bs => by simp [BasicBlock.anon, ht.uniqueName])
  value := ht.length

theorem insert (ht : Twin F h M h' M') {op op' : Op} (hop : op.anon F = op'.anon F)
    (ip : InsertPoint) (name : String := "") :
    Twins F h h' (M.insert h ip op name) (M'.insert h' ip op' name) where
  mod := ht.modifyInstrs (k := ip.insert ⟨op.anon F, M.uniqueName h name⟩) _
    (fun is => ip.map_insert ..) (fun is => by
      rw [ip.map_insert, Instr.anon, ht.uniqueName, hop])
  value := by
    have htype : op.type = op'.type := by rw [← op.type_anon F, hop, op'.type_anon]
    have halloca : op.isAlloca = op'.isAlloca := by
      rw [← op.isAlloca_anon F, hop, op'.isAlloca_anon]
    have hpos : ip.pos (M.instrs h ip.block) = ip.pos (M'.instrs h' ip.block) := by
      cases ip <;> simp [InsertPoint.pos, ht.length_instrs]
    simp only [Module.insert, ht.uniqueName, htype, halloca, hpos]

theorem append (ht : Twin F h M h' M') {op op' : Op} (hop : op.anon F = op'.anon F) (b : Nat) :
    Twin F h (M.append h b op) h' (M'.append h' b op') := (ht.insert hop _).mod

theorem insert_same (ht : Twin F h M h' M') (ip : InsertPoint) (op : Op) (name : String := "") :
    Twins F h h' (M.insert h ip op name) (M'.insert h' ip op name) := ht.insert rfl ip name

theorem append_same (ht : Twin F h M h' M') (b : Nat) (op : Op) :
    Twin F h (M.append h b op) h' (M'.append h' b op) := ht.append rfl b

theorem foldl_append {α : Type} (b : α → Nat) {op op' : α → Op}
    (hop : ∀ a, (op a).anon F = (op' a).anon F) : ∀ (l : List α) {M M' : Module}, Twin F h M h' M' →
      Twin F h (l.foldl (fun M a => M.append h (b a) (op a)) M) h'
        (l.foldl (fun M a => M.append h' (b a) (op' a)) M')
  | [], _, _, ht => ht
  | a :: l, _, _, ht => foldl_append b hop l (ht.append (hop a) (b a))

theorem createGlobalStringPtr (ht : Twin F h M h' M') (str : String) :
    Twins F h h' (M.createGlobalStringPtr str) (M'.createGlobalStringPtr str) :=
  ⟨⟨ht.name, ht.context, ht.dataLayout, ht.sig, ht.defined, ht.lt, ht.lt', ht.func⟩, rfl⟩

theorem createAlloca (ht : Twin F h M h' M') (ip : InsertPoint) (type : Ty) (name : String) :
    Twins F h h' (M.createAlloca h ip type name) (M'.createAlloca h' ip type name) := by
  rw [Module.createAlloca, Module.createAlloca, ht.dataLayout]
  exact ht.insert rfl ip name

theorem createBitCast (ht : Twin F h M h' M') (ip : InsertPoint) (v : Value) (type : Ty) :
    Twins F h h' (M.createBitCast h ip v type) (M'.createBitCast h' ip v type) := by
  unfold Module.createBitCast
  by_cases h1 : v.getType = type
  · rw [if_pos h1, if_pos h1]
    exact ⟨ht, rfl⟩
  · rw [if_neg h1, if_neg h1]
    by_cases h2 : v.isConstant
    · rw [if_pos h2, if_pos h2]
      exact ⟨ht, rfl⟩
    · rw [if_neg h2, if_neg h2]
      exact ht.insert rfl ip

theorem createICmp (ht : Twin F h M h' M') (ip : InsertPoint) (p : Pred) (l r : Value) :
    Twins F h h' (M.createICmp h ip p l r) (M'.createICmp h' ip p l r) := by
  unfold Module.createICmp
  by_cases hc : l.isConstant && r.isConstant
  · rw [if_pos hc, if_pos hc]
    exact ⟨ht, rfl⟩
  · rw [if_neg hc, if_neg hc]
    exact ht.insert rfl ip

/-- A change of one instruction that leaves calls alone. -/
theorem modifyOp (ht : Twin F h M h' M') (b : Nat) (pos : List Instr → Nat)
    (hpos : ∀ is, pos (is.map (Instr.anon F)) = pos is) {g : Instr → Instr}
    (hg : ∀ i, (g i).anon F = g (i.anon F)) :
    Twin F h (M.modifyInstrs h b fun is => is.modify (pos is) g) h'
      (M'.modifyInstrs h' b fun is => is.modify (pos is) g) := by
  have hk : ∀ is : List Instr, (is.modify (pos is) g).map (Instr.anon F) =
      (is.map (Instr.anon F)).modify (pos (is.map (Instr.anon F))) g := fun is => by
    rw [hpos, List.map_modify_eq hg]
  exact ht.modifyInstrs (k := fun is => is.modify (pos is) g) b hk hk

theorem setSuccessor0 (ht : Twin F h M h' M') (b dest : Nat) :
    Twin F h (M.setSuccessor0 h b dest) h' (M'.setSuccessor0 h' b dest) :=
  ht.modifyOp b (fun is => is.length - 1) (fun is => by simp) fun ⟨op, name⟩ => by
    cases op <;> rfl

theorem addIncoming (ht : Twin F h M h' M') (ref : InstRef) (v : Value) (pred : Nat) :
    Twin F h (M.addIncoming h ref v pred) h' (M'.addIncoming h' ref v pred) :=
  ht.modifyOp ref.block (fun _ => ref.pos) (fun _ => rfl) fun ⟨op, name⟩ => by
    cases op <;> rfl

/-! ## Declarations -/

/-- What a declaration of a name returns is in the same place up to whether that is `F`. -/
theorem declare (ht : Twin F h M h' M') {name : String} (hname : name ≠ "") (type : FunctionType) :
    Except.Both (fun r r' => Twin F h r.1 h' r'.1 ∧ r.2.anon F = r'.2.anon F)
      (castFunction (M.getOrInsertFunction name type))
      (castFunction (M'.getOrInsertFunction name type)) := by
  rintro ⟨M₁, ref⟩ ⟨M₁', ref'⟩ hr hr'
  obtain ⟨_, _, hd, hM₁, hD⟩ := castFunction_spec (Declares.of_ok hr)
  rw [hr] at hd
  cases hd
  obtain ⟨_, _, hd', hM₁', hD'⟩ := castFunction_spec (Declares.of_ok hr')
  rw [hr'] at hd'
  cases hd'
  have he : M.Extends h M₁ := hM₁ ▸ declare_extends ht.lt
  have he' : M'.Extends h' M₁' := hM₁' ▸ declare_extends ht.lt'
  have hF' : F < M'.functions.length := by
    have := ht.sig
    simp only [Module.sig, List.getElem?_map] at this
    by_contra hn
    rw [List.getElem?_eq_getElem ht.defined, List.getElem?_eq_none (by omega)] at this
    cases this
  have hold : ∀ {N N₁ : Module} {k : Nat}, k < N.functions.length →
      N₁ = (N.getOrInsertFunction name type).1 → N₁.functions[k]? = N.functions[k]? := by
    rintro N N₁ k hk rfl
    exact (declare_frame N name type).old k hk
  have hsig : M₁.sig[F]? = M₁'.sig[F]? := by
    have := ht.sig
    simp only [Module.sig, List.getElem?_map] at this ⊢
    rw [hold ht.defined hM₁, hold hF' hM₁', this]
  refine ⟨⟨he.name.trans (ht.name.trans he'.name.symm), he.context.trans
    (ht.context.trans he'.context.symm), he.dataLayout.trans (ht.dataLayout.trans
    he'.dataLayout.symm), hsig, Nat.lt_of_lt_of_le ht.defined he.length,
    Nat.lt_of_lt_of_le ht.lt he.length, Nat.lt_of_lt_of_le ht.lt' he'.length, ?_⟩, ?_⟩
  · rw [hold ht.lt hM₁, hold ht.lt' hM₁', ht.func]
  · -- the name is `F`'s in both modules or in none
    have hiff : ref.index = F ↔ ref'.index = F := by
      constructor
      · rintro rfl
        exact Module.sig_inj hname hD'.sig_eq (hsig ▸ hD.sig_eq)
      · rintro rfl
        exact Module.sig_inj hname hD.sig_eq (hsig.symm ▸ hD'.sig_eq)
    simp only [FuncRef.anon, hD.name_eq, hD'.name_eq, hD.type_eq, hD'.type_eq, hiff]

end Twin

end Ephippion
