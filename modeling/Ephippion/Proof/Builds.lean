import Ephippion.Lib.Except
import Ephippion.Proof.Declare
import Mathlib.Data.List.Nodup

/-!
# Building steps

`Builds h M M'`: `M'` is `M` after building in function `h`, and with it the symbol table as far as
later steps rely on it: names other than the library's stand for what they did, and a library
function can be declared in `M'` exactly if it could be in `M`. Every operation of the builder and
every successful declaration of a library function is such a step (`Builds.modifyInstrs`,
`libCast_of_ok`), so `Builds` composes over the helpers. `Grown` is the frequent case where one
block alone has changed.
-/

namespace Ephippion

/-! ## The library functions -/

def mallocType : FunctionType := ⟨.int8PtrTy, [.int64Ty], false⟩
def freeType : FunctionType := ⟨.void, [.int8PtrTy], false⟩
def kleeType : FunctionType := ⟨.int32Ty, [], true⟩
def memcpyType : FunctionType := ⟨.int8PtrTy, [.int8PtrTy, .int8PtrTy, .int64Ty], false⟩
def assertType : FunctionType :=
  ⟨.void, [.int8PtrTy, .int8PtrTy, .int32Ty, .int8PtrTy], false⟩

/-- The library functions a harness declares, as the helpers declare them. -/
def libDecls : List (String × FunctionType) :=
  [("malloc", mallocType), ("free", freeType), ("klee_make_symbolic", kleeType),
    ("memcpy", memcpyType), ("__assert_fail", assertType), ("memcmp", kleeType)]

def libNames : List String := libDecls.map (·.1)

/-- Every library function can be declared. -/
def LibsOk (M : Module) : Prop := ∀ d ∈ libDecls, Declares M d.1 d.2

instance (M : Module) : Decidable (LibsOk M) :=
  inferInstanceAs (Decidable (∀ d ∈ libDecls, Declares M d.1 d.2))

theorem libNames_nodup : libNames.Nodup := by decide

theorem libDecls_named : ∀ d ∈ libDecls, d.1 ≠ "" := by decide

theorem libDecls_inj {d e : String × FunctionType} (hd : d ∈ libDecls) (he : e ∈ libDecls)
    (h : d.1 = e.1) : d = e := List.inj_on_of_nodup_map libNames_nodup hd he h

/-! ## Steps -/

structure Builds (h : Nat) (M M' : Module) : Prop where
  ext : M.Extends h M'
  names : NamesExcept libNames M M'
  libs : ∀ d ∈ libDecls, Declares M' d.1 d.2 ↔ Declares M d.1 d.2
  /-- Every new function is a library function. -/
  new : ∀ g F, M.functions.length ≤ g → M'.functions[g]? = some F →
    (F.name, F.getFunctionType) ∈ libDecls

namespace Builds

variable {h : Nat} {M M' M'' : Module}

theorem refl (h : Nat) (M : Module) : Builds h M M :=
  ⟨.refl h M, fun _ _ => rfl, fun _ _ => .rfl, fun g F hg hF => by
    rw [List.getElem?_eq_none hg] at hF; cases hF⟩

theorem trans (hh : h < M.functions.length) (h₁ : Builds h M M') (h₂ : Builds h M' M'') :
    Builds h M M'' :=
  ⟨h₁.ext.trans hh h₂.ext, (h₁.names.trans h₂.names).mono fun x hx => by simpa using hx,
    fun d hd => (h₂.libs d hd).trans (h₁.libs d hd), fun g F hg hF => by
      rcases Nat.lt_or_ge g M'.functions.length with hlt | hge
      · rw [h₂.ext.others g hlt (by omega)] at hF
        exact h₁.new g F hg hF
      · exact h₂.new g F hge hF⟩

theorem lt (hh : h < M.functions.length) (hb : Builds h M M') : h < M'.functions.length :=
  hb.ext.lt hh

theorem libsOk (hb : Builds h M M') : LibsOk M' ↔ LibsOk M :=
  forall₂_congr fun d hd => hb.libs d hd

theorem of_sig (he : M.Extends h M') (hs : M'.sig = M.sig) : Builds h M M' := by
  have hn : ∀ x, M'.getNamedValue x = M.getNamedValue x :=
    Module.getNamedValue_congr hs he.otherGlobals
  have hlen : M'.functions.length = M.functions.length := by
    simpa [Module.sig] using congrArg List.length hs
  exact ⟨he, fun x _ => hn x, fun d _ => by rw [Declares, Declares, hn], fun g F hg hF => by
    rw [List.getElem?_eq_none (by omega)] at hF; cases hF⟩

theorem modifyBlocks (h : Nat) (M : Module) (f : List BasicBlock → List BasicBlock) :
    Builds h M (M.modifyBlocks h f) :=
  of_sig (.modifyBlocks h M f) (Module.sig_modifyBlocks M h f)

theorem createBlock (h : Nat) (M : Module) (name : String) :
    Builds h M (M.createBlock h name).1 := by
  show Builds h M (M.modifyBlocks h (· ++ [⟨M.uniqueName h name, []⟩]))
  exact modifyBlocks h M _

theorem modifyInstrs (h : Nat) (M : Module) (b : Nat) (f : List Instr → List Instr) :
    Builds h M (M.modifyInstrs h b f) := modifyBlocks h M _

theorem insert (h : Nat) (M : Module) (ip : InsertPoint) (op : Op) (name : String := "") :
    Builds h M (M.insert h ip op name).1 :=
  modifyInstrs h M ip.block (ip.insert ⟨op, M.uniqueName h name⟩)

theorem append (h : Nat) (M : Module) (b : Nat) (op : Op) : Builds h M (M.append h b op) :=
  insert h M _ _ _

theorem createGlobalStringPtr (h : Nat) (M : Module) (str : String) :
    Builds h M (M.createGlobalStringPtr str).1 :=
  of_sig (.createGlobalStringPtr h M str) rfl

end Builds

/-! ## Declaring a library function -/

theorem Module.Extends.sig_getElem? {h : Nat} {M M' : Module} (he : M.Extends h M') {i : Nat}
    (hi : i < M.functions.length) : M'.sig[i]? = M.sig[i]? := by
  simp only [Module.sig, List.getElem?_map]
  by_cases hih : i = h
  · subst hih
    obtain ⟨bs, hbs⟩ := he.self M.functions[i] (by simp [hi])
    rw [hbs, List.getElem?_eq_getElem hi]
    rfl
  · rw [he.others i hi hih]

theorem Declared.builds {h : Nat} {M M' : Module} {ref : FuncRef} {name : String}
    {type : FunctionType} (hd : Declared M ref name type) (hb : Builds h M M') :
    Declared M' ref name type :=
  ⟨hd.name_eq, hd.type_eq, by rw [hb.ext.sig_getElem? hd.lt]; exact hd.sig_eq⟩

section
variable {h : Nat} {M M' : Module} {ref : FuncRef} {d : String × FunctionType}

/-- What a successful declaration of a library function does. -/
structure LibCast (h : Nat) (M M' : Module) (ref : FuncRef) (d : String × FunctionType) : Prop where
  builds : Builds h M M'
  declares : Declares M d.1 d.2
  declared : Declared M' ref d.1 d.2
  blocks : M'.blocks = M.blocks
  instrs : M'.instrs = M.instrs

theorem libCast_of_ok (hh : h < M.functions.length) (hd : d ∈ libDecls)
    (hok : castFunction (M.getOrInsertFunction d.1 d.2) = .ok (M', ref)) :
    LibCast h M M' ref d := by
  have hdec := Declares.of_ok hok
  obtain ⟨M₁, ref₁, hok₁, rfl, hD⟩ := castFunction_spec hdec
  rw [hok] at hok₁
  cases hok₁
  obtain ⟨hn, hself⟩ := declare_names hdec
  refine ⟨⟨declare_extends hh, hn.mono fun x hx => ?_, fun e he => ?_, fun g F hg hF => ?_⟩, hdec,
    hD, declare_blocks .., declare_instrs ..⟩
  · rw [List.mem_singleton.1 hx]
    exact List.mem_map_of_mem hd
  · by_cases heq : e.1 = d.1
    · obtain rfl := libDecls_inj he hd heq
      exact ⟨fun _ => hdec, fun _ => hself⟩
    · exact hn.declares (by simpa using heq)
  · obtain ⟨hname, htype, -⟩ := declare_new hg hF
    rw [hname, htype]
    exact hd

theorem libCast_progress (hd : Declares M d.1 d.2) :
    ∃ r, castFunction (M.getOrInsertFunction d.1 d.2) = .ok r := by
  obtain ⟨M₁, ref₁, hok, -, -⟩ := castFunction_spec hd
  exact ⟨_, hok⟩

/-- Two declarations, and then what casts nothing: only they can stop with a bad cast. -/
theorem twoCasts_badCast_iff {α : Type} {e : String × FunctionType}
    {k : Module → FuncRef → FuncRef → Except Stop α} (hh : h < M.functions.length)
    (hd : d ∈ libDecls) (he : e ∈ libDecls) (hk : ∀ M r r', k M r r' ≠ .error .badCast) :
    (do
      let (M₁, r) ← castFunction (M.getOrInsertFunction d.1 d.2)
      let (M₂, r') ← castFunction (M₁.getOrInsertFunction e.1 e.2)
      k M₂ r r') = .error .badCast ↔ ¬ (Declares M d.1 d.2 ∧ Declares M e.1 e.2) := by
  rw [Except.bind_eq_error, castFunction_eq_error]
  constructor
  · rintro (⟨-, hno⟩ | ⟨⟨M₁, r⟩, hok, hstop⟩) ⟨h1, h2⟩
    · exact hno h1
    rcases Except.bind_eq_error.1 hstop with hcast | ⟨⟨M₂, r'⟩, -, hrest⟩
    · exact (castFunction_eq_error.1 hcast).2 (((libCast_of_ok hh hd hok).builds.libs e he).2 h2)
    · exact hk _ _ _ hrest
  · intro hno
    by_cases h1 : Declares M d.1 d.2
    · obtain ⟨M₁, r, hok, -⟩ := castFunction_spec h1
      refine .inr ⟨(M₁, r), hok, Except.bind_eq_error.2 (.inl (castFunction_eq_error.2 ⟨rfl, ?_⟩))⟩
      exact fun h2 => hno ⟨h1, ((libCast_of_ok hh hd hok).builds.libs e he).1 h2⟩
    · exact .inl ⟨rfl, h1⟩

end

/-! ## Creating blocks -/

/-- The module after creating blocks. -/
def withBlocks (M : Module) (h : Nat) (names : List String) : Module :=
  names.foldl (fun M name => (M.createBlock h name).1) M

theorem withBlocks_spec {h : Nat} : ∀ (names : List String) {M : Module},
    h < M.functions.length →
      Builds h M (withBlocks M h names) ∧
        ((withBlocks M h names).blocks h).length = (M.blocks h).length + names.length ∧
        (withBlocks M h names).instrs h = M.instrs h
  | [], M, _ => ⟨.refl h M, rfl, rfl⟩
  | name :: names, M, hh => by
    have hb := Builds.createBlock h M name
    obtain ⟨h1, h2, h3⟩ := withBlocks_spec names (hb.lt hh)
    refine ⟨hb.trans hh h1, ?_, h3.trans (Module.instrs_createBlock hh name)⟩
    have : ((withBlocks M h (name :: names)).blocks h).length = _ := h2
    rw [this, Module.length_blocks_createBlock hh, List.length_cons]
    omega

/-! ## Growing one block -/

/-- `M` is `M₀` after building, block `b` being `is` and the other blocks as before. -/
structure Grown (h b : Nat) (M₀ : Module) (is : List Instr) (M : Module) : Prop where
  builds : Builds h M₀ M
  length : (M.blocks h).length = (M₀.blocks h).length
  code : M.instrs h = Function.update (M₀.instrs h) b is

namespace Grown

variable {h b : Nat} {M₀ M : Module} {is : List Instr}

theorem refl (h b : Nat) (M : Module) : Grown h b M (M.instrs h b) M :=
  ⟨.refl h M, rfl, by simp⟩

theorem at_block (hg : Grown h b M₀ is M) : M.instrs h b = is := by
  rw [hg.code, Function.update_self]

theorem keep (hg : Grown h b M₀ is M) {M' : Module} (hh : h < M₀.functions.length)
    (hb : Builds h M M') (hbl : M'.blocks = M.blocks) : Grown h b M₀ is M' :=
  ⟨hg.builds.trans hh hb, by rw [hbl, hg.length], by
    rw [← hg.code]; unfold Module.instrs; rw [hbl]⟩

theorem modifyInstrs (hg : Grown h b M₀ is M) (hb : b < (M₀.blocks h).length)
    (f : List Instr → List Instr) : Grown h b M₀ (f is) (M.modifyInstrs h b f) := by
  refine ⟨hg.builds.trans (Module.lt_of_blocks hb) (.modifyInstrs h M b f),
    by rw [Module.length_blocks_modifyInstrs, hg.length], ?_⟩
  rw [Module.instrs_modifyInstrs (by rw [hg.length]; exact hb), hg.at_block, hg.code,
    Function.update_idem]

theorem insert (hg : Grown h b M₀ is M) (hb : b < (M₀.blocks h).length) (op : Op)
    (name : String := "") : Grown h b M₀ (is ++ [⟨op, M.uniqueName h name⟩])
      (M.insert h (.atEnd b) op name).1 :=
  hg.modifyInstrs hb (· ++ [⟨op, M.uniqueName h name⟩])

theorem append (hg : Grown h b M₀ is M) (hb : b < (M₀.blocks h).length) (op : Op) :
    Grown h b M₀ (is ++ [⟨op, ""⟩]) (M.append h b op) := by
  have := hg.insert hb op ""
  rwa [Module.uniqueName, if_pos rfl] at this

theorem createGlobalStringPtr (hg : Grown h b M₀ is M) (hb : b < (M₀.blocks h).length)
    (str : String) : Grown h b M₀ is (M.createGlobalStringPtr str).1 :=
  hg.keep (Module.lt_of_blocks hb) (.createGlobalStringPtr h M str) rfl

theorem foldl_append {α : Type} (op : α → Op) (hb : b < (M₀.blocks h).length) :
    ∀ (l : List α) {is : List Instr} {M : Module}, Grown h b M₀ is M →
      Grown h b M₀ (is ++ l.map fun a => ⟨op a, ""⟩) (l.foldl (fun M a => M.append h b (op a)) M)
  | [], is, M, hg => by simpa using hg
  | a :: l, is, M, hg => by
    have := foldl_append op hb l (hg.append hb (op a))
    simpa [List.append_assoc] using this

end Grown

end Ephippion
