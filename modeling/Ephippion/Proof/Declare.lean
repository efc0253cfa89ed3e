import Ephippion.Support.FuncUtils

/-!
# The symbol table

What a name stands for depends on the functions' names and types (`Module.sig`) and on the other
globals only (`getNamedValue_congr`). `Declares M name type` is the condition under which a
declaration of that name and type succeeds (`castFunction_spec`, `Declares.of_ok`); afterwards it
holds still, and every other name stands for what it did (`NamesExcept`). `declare_extends` is the
frame of a declaration.
-/

namespace Ephippion

namespace Module

/-- The names and types of the functions. -/
def sig (M : Module) : List (String × FunctionType) :=
  M.functions.map fun f => (f.name, f.getFunctionType)

theorem getNamedValue_eq (M : Module) (x : String) : M.getNamedValue x =
    if x = "" then none
    else match M.sig.findIdx? (·.1 = x) with
      | some i => M.sig[i]?.map fun s => .function ⟨i, s.1, s.2⟩
      | none => if x ∈ M.otherGlobals then some .other else none := by
  have hfind : M.sig.findIdx? (·.1 = x) = M.functions.findIdx? (·.name = x) := by
    rw [sig, List.findIdx?_map]
    rfl
  rw [hfind, getNamedValue]
  cases M.functions.findIdx? (·.name = x) <;> simp [sig, Function.comp_def]

theorem getNamedValue_congr {M M' : Module} (hs : M'.sig = M.sig)
    (ho : M'.otherGlobals = M.otherGlobals) (x : String) :
    M'.getNamedValue x = M.getNamedValue x := by
  rw [getNamedValue_eq, getNamedValue_eq, hs, ho]

theorem sig_modifyBlocks (M : Module) (h : Nat) (f : List BasicBlock → List BasicBlock) :
    (M.modifyBlocks h f).sig = M.sig := by
  simp only [sig, modifyBlocks]
  apply List.ext_getElem?
  intro i
  simp only [List.getElem?_map, List.getElem?_modify, Option.map_map, Option.map_eq_map]
  congr 1
  funext F
  simp only [Function.comp_apply]
  split <;> rfl

theorem sig_appendFunction (M : Module) (f : Function) (h : M.getNamedValue f.name = none) :
    (M.appendFunction f h).sig = M.sig ++ [(f.name, f.getFunctionType)] := by
  simp [sig, appendFunction]

theorem getNamedValue_appendFunction_ne (M : Module) (f : Function)
    (h : M.getNamedValue f.name = none) {x : String} (hx : x ≠ f.name) :
    (M.appendFunction f h).getNamedValue x = M.getNamedValue x := by
  rw [getNamedValue_eq, getNamedValue_eq, sig_appendFunction, List.findIdx?_append]
  have hne : f.name ≠ x := fun he => hx he.symm
  cases hfi : M.sig.findIdx? (·.1 = x) with
  | none => simp [hne]; rfl
  | some i =>
    have hi := (List.findIdx?_eq_some_iff_getElem.1 hfi).1
    simp [List.getElem?_append_left hi]

theorem getNamedValue_appendFunction_self (M : Module) (f : Function)
    (h : M.getNamedValue f.name = none) (hne : f.name ≠ "") :
    (M.appendFunction f h).getNamedValue f.name =
      some (.function ⟨M.functions.length, f.name, f.getFunctionType⟩) := by
  rw [getNamedValue_eq] at h
  rw [getNamedValue_eq, sig_appendFunction, List.findIdx?_append, if_neg hne]
  rw [if_neg hne] at h
  cases hfi : M.sig.findIdx? (·.1 = f.name) with
  | none => simp [sig]
  | some i =>
    have hi := (List.findIdx?_eq_some_iff_getElem.1 hfi).1
    simp [hfi, List.getElem?_eq_getElem hi] at h

theorem sig_of_getNamedValue {M : Module} {x : String} {ref : FuncRef}
    (h : M.getNamedValue x = some (.function ref)) :
    ref.name = x ∧ M.sig[ref.index]? = some (x, ref.type) := by
  rw [getNamedValue_eq] at h
  split at h
  · cases h
  · split at h
    · rename_i i hi
      obtain ⟨hlt, hp, -⟩ := List.findIdx?_eq_some_iff_getElem.1 hi
      have hp' : M.sig[i].1 = x := by simpa using hp
      simp only [List.getElem?_eq_getElem hlt, Option.map_some, Option.some.injEq,
        GlobalValue.function.injEq] at h
      subst h
      exact ⟨hp', by simp [List.getElem?_eq_getElem hlt, ← hp']⟩
    · split at h <;> simp at h

theorem sig_inj {M : Module} {i j : Nat} {x : String} {t t' : FunctionType} (hx : x ≠ "")
    (hi : M.sig[i]? = some (x, t)) (hj : M.sig[j]? = some (x, t')) : i = j := by
  have hu := M.unique
  rw [globalNames, List.filter_append, List.nodup_append] at hu
  have hp := List.pairwise_iff_getElem.1 (List.pairwise_filter.1 hu.1)
  have hname : ∀ {k : Nat} {t : FunctionType}, M.sig[k]? = some (x, t) →
      ∃ hk : k < (M.functions.map (·.name)).length, (M.functions.map (·.name))[k] = x := by
    intro k t hk
    rw [sig, List.getElem?_map, Option.map_eq_some_iff] at hk
    obtain ⟨f, hf, hft⟩ := hk
    obtain ⟨hlt, hf⟩ := List.getElem?_eq_some_iff.1 hf
    refine ⟨by simpa using hlt, ?_⟩
    rw [List.getElem_map, hf]
    exact congrArg Prod.fst hft
  obtain ⟨hi, hin⟩ := hname hi
  obtain ⟨hj, hjn⟩ := hname hj
  have hx' : decide (x ≠ "") = true := by simpa using hx
  rcases Nat.lt_trichotomy i j with h | h | h
  · exact (hp i j hi hj h (by rw [hin]; exact hx') (by rw [hjn]; exact hx')
    (hin.trans hjn.symm)).elim
  · exact h
  · exact (hp j i hj hi h (by rw [hjn]; exact hx') (by rw [hin]; exact hx')
    (hjn.trans hin.symm)).elim

theorem getNamedValue_of_sig {M : Module} {i : Nat} {x : String} {t : FunctionType} (hx : x ≠ "")
    (hi : M.sig[i]? = some (x, t)) : M.getNamedValue x = some (.function ⟨i, x, t⟩) := by
  obtain ⟨hlt, hi'⟩ := List.getElem?_eq_some_iff.1 hi
  have hfind : M.sig.findIdx? (·.1 = x) = some i := by
    rw [List.findIdx?_eq_some_iff_getElem]
    refine ⟨hlt, by simp [hi'], fun j hj => ?_⟩
    intro hjx
    have hjx' : M.sig[j].1 = x := by simpa using hjx
    have hj' : M.sig[j]? = some (x, M.sig[j].2) := by
      rw [List.getElem?_eq_getElem (by omega)]
      exact congrArg some (Prod.ext hjx' rfl)
    have := sig_inj hx hj' hi
    omega
  rw [getNamedValue_eq, if_neg hx, hfind]
  simp [hi]

end Module

/-! ## Declarations -/

/-- `name` is free, or a function of that type. -/
def Declares (M : Module) (name : String) (type : FunctionType) : Prop :=
  match M.getNamedValue name with
  | none => True
  | some (.function ref) => ref.type = type
  | some .other => False

instance (M : Module) (name : String) (type : FunctionType) : Decidable (Declares M name type) :=
  match h : M.getNamedValue name with
  | none => .isTrue (by simp [Declares, h])
  | some (.function ref) =>
    if ht : ref.type = type then .isTrue (by simp [Declares, h, ht])
    else .isFalse (by simp [Declares, h, ht])
  | some .other => .isFalse (by simp [Declares, h])

/-- What a successful declaration returns. -/
structure Declared (M : Module) (ref : FuncRef) (name : String) (type : FunctionType) : Prop where
  name_eq : ref.name = name
  type_eq : ref.type = type
  sig_eq : M.sig[ref.index]? = some (name, type)

theorem Declared.lt {M : Module} {ref : FuncRef} {name : String} {type : FunctionType}
    (h : Declared M ref name type) : ref.index < M.functions.length := by
  have := (List.getElem?_eq_some_iff.1 h.sig_eq).1
  simpa [Module.sig] using this

theorem Declared.declares {M : Module} {ref : FuncRef} {name : String} {type : FunctionType}
    (h : Declared M ref name type) (hne : name ≠ "") : Declares M name type := by
  rw [Declares, Module.getNamedValue_of_sig hne h.sig_eq]

/-- Names outside `S` stand for what they did. -/
def NamesExcept (S : List String) (M M' : Module) : Prop :=
  ∀ x, x ∉ S → M'.getNamedValue x = M.getNamedValue x

namespace NamesExcept

variable {S T : List String} {M M' M'' : Module}

theorem trans (h : NamesExcept S M M') (h' : NamesExcept T M' M'') :
    NamesExcept (S ++ T) M M'' := fun x hx => by
  rw [List.mem_append, not_or] at hx
  rw [h' x hx.2, h x hx.1]

theorem mono (h : NamesExcept S M M') (hST : ∀ x ∈ S, x ∈ T) : NamesExcept T M M' :=
  fun x hx => h x fun hS => hx (hST x hS)

theorem declares (h : NamesExcept S M M') {name : String} {type : FunctionType} (hn : name ∉ S) :
    Declares M' name type ↔ Declares M name type := by
  unfold Declares
  rw [h name hn]

end NamesExcept

section
variable {M : Module} {name : String} {type : FunctionType}

theorem getOrInsertFunction_none (h : M.getNamedValue name = none) :
    M.getOrInsertFunction name type =
      (M.appendFunction ⟨name, type.ret, type.params.map (⟨"", ·⟩), type.isVarArg, []⟩ h,
        some ⟨M.functions.length, name, type⟩) := by
  unfold Module.getOrInsertFunction
  split
  · rename_i h'; rw [h] at h'; cases h'
  · rename_i h'; rw [h] at h'; cases h'
  · rfl

theorem getOrInsertFunction_function {ref : FuncRef}
    (h : M.getNamedValue name = some (.function ref)) :
    M.getOrInsertFunction name type = (M, if ref.type = type then some ref else none) := by
  unfold Module.getOrInsertFunction
  split
  · rename_i h'; rw [h] at h'; cases h'; rfl
  · rename_i h'; rw [h] at h'; cases h'
  · rename_i h'; rw [h] at h'; cases h'

theorem getOrInsertFunction_other (h : M.getNamedValue name = some .other) :
    M.getOrInsertFunction name type = (M, none) := by
  unfold Module.getOrInsertFunction
  split
  · rename_i h'; rw [h] at h'; cases h'
  · rfl
  · rename_i h'; rw [h] at h'; cases h'

/-- The function type of the declaration `getOrInsertFunction` appends. -/
theorem getFunctionType_decl (name : String) (type : FunctionType) :
    (⟨name, type.ret, type.params.map (⟨"", ·⟩), type.isVarArg, []⟩ : Function).getFunctionType =
      type := by
  simp [Function.getFunctionType, Function.comp_def]

theorem castFunction_spec (h : Declares M name type) :
    ∃ M' ref, castFunction (M.getOrInsertFunction name type) = .ok (M', ref) ∧
      M' = (M.getOrInsertFunction name type).1 ∧ Declared M' ref name type := by
  unfold Declares at h
  split at h
  · rename_i hn
    rw [getOrInsertFunction_none hn]
    refine ⟨_, _, rfl, rfl, rfl, rfl, ?_⟩
    rw [Module.sig_appendFunction, getFunctionType_decl]
    simp [Module.sig]
  · rename_i ref hf
    rw [getOrInsertFunction_function hf, if_pos h]
    obtain ⟨hnm, hs⟩ := Module.sig_of_getNamedValue hf
    exact ⟨M, ref, rfl, rfl, hnm, h, by rw [hs, h]⟩
  · exact h.elim

theorem Declares.of_ok {r : Module × FuncRef}
    (h : castFunction (M.getOrInsertFunction name type) = .ok r) : Declares M name type := by
  unfold Declares
  split
  · trivial
  · rename_i ref hf
    rw [getOrInsertFunction_function hf] at h
    by_cases ht : ref.type = type
    · exact ht
    · rw [if_neg ht] at h; cases h
  · rename_i ho
    rw [getOrInsertFunction_other ho] at h
    cases h

/-- A declaration stops only at a name that stands for something else. -/
theorem castFunction_eq_error {e : Stop} :
    castFunction (M.getOrInsertFunction name type) = .error e ↔
      e = .badCast ∧ ¬ Declares M name type := by
  by_cases hdec : Declares M name type
  · obtain ⟨M', ref, hok, -⟩ := castFunction_spec hdec
    simp [hok, hdec]
  · cases hr : M.getOrInsertFunction name type with
    | mk M' ref =>
      cases ref with
      | some ref => exact absurd (Declares.of_ok (by rw [hr]; rfl)) hdec
      | none => simp [castFunction, hdec, eq_comm]

theorem declare_lookup {M' : Module} {ref : FuncRef}
    (h : castFunction (M.getOrInsertFunction name type) = .ok (M', ref)) :
    ref.name = name ∧ ref.type = type ∧
      (M.getNamedValue name = some (.function ref) ∧ M' = M ∨
        M.getNamedValue name = none ∧ ref.index = M.functions.length ∧
          M'.functions.length = M.functions.length + 1 ∧
          (name ≠ "" → M'.getNamedValue name = some (.function ref))) := by
  cases hn : M.getNamedValue name with
  | none =>
    rw [getOrInsertFunction_none hn] at h
    cases h
    refine ⟨rfl, rfl, .inr ⟨rfl, rfl, by simp [Module.appendFunction], fun hne => ?_⟩⟩
    rw [Module.getNamedValue_appendFunction_self M _ hn hne, getFunctionType_decl]
  | some v =>
    cases v with
    | function ref' =>
      rw [getOrInsertFunction_function hn] at h
      split at h
      · rename_i ht
        cases h
        exact ⟨(Module.sig_of_getNamedValue hn).1, ht, .inl ⟨rfl, rfl⟩⟩
      · cases h
    | other =>
      rw [getOrInsertFunction_other hn] at h
      cases h

/-- The declared name still declares, and nothing else has changed its meaning. -/
theorem declare_names (h : Declares M name type) :
    NamesExcept [name] M (M.getOrInsertFunction name type).1 ∧
      Declares (M.getOrInsertFunction name type).1 name type := by
  have h0 := h
  unfold Declares at h
  split at h
  · rename_i hn
    rw [getOrInsertFunction_none hn]
    refine ⟨fun x hx => ?_, ?_⟩
    · exact Module.getNamedValue_appendFunction_ne M _ hn (by simpa using hx)
    · unfold Declares
      by_cases he : name = ""
      · simp [Module.getNamedValue, he]
      · rw [Module.getNamedValue_appendFunction_self M _ hn he]
        exact getFunctionType_decl name type
  · rename_i ref hf
    rw [getOrInsertFunction_function hf]
    exact ⟨fun _ _ => rfl, h0⟩
  · exact h.elim

/-- What a declaration leaves alone. -/
structure DeclareFrame (M M' : Module) : Prop where
  name : M'.name = M.name
  context : M'.context = M.context
  dataLayout : M'.dataLayout = M.dataLayout
  otherGlobals : M'.otherGlobals = M.otherGlobals
  strings : M'.strings = M.strings
  length : M.functions.length ≤ M'.functions.length
  old : ∀ g < M.functions.length, M'.functions[g]? = M.functions[g]?

theorem declare_frame (M : Module) (name : String) (type : FunctionType) :
    DeclareFrame M (M.getOrInsertFunction name type).1 := by
  cases hn : M.getNamedValue name with
  | none =>
    rw [getOrInsertFunction_none hn]
    exact ⟨rfl, rfl, rfl, rfl, rfl, by simp [Module.appendFunction],
      fun g hg => List.getElem?_append_left hg⟩
  | some v =>
    have : (M.getOrInsertFunction name type).1 = M := by
      cases v with
      | function ref => rw [getOrInsertFunction_function hn]
      | other => rw [getOrInsertFunction_other hn]
    rw [this]
    exact ⟨rfl, rfl, rfl, rfl, rfl, Nat.le_refl _, fun _ _ => rfl⟩

theorem declare_new {g : Nat} {F : Function} (hg : M.functions.length ≤ g)
    (hF : (M.getOrInsertFunction name type).1.functions[g]? = some F) :
    F.name = name ∧ F.getFunctionType = type ∧ F.isDeclaration := by
  cases hn : M.getNamedValue name with
  | none =>
    rw [getOrInsertFunction_none hn] at hF
    rw [Module.appendFunction, List.getElem?_append_right hg, List.getElem?_singleton] at hF
    split at hF
    · cases hF
      exact ⟨rfl, getFunctionType_decl name type, rfl⟩
    · cases hF
  | some v =>
    have : (M.getOrInsertFunction name type).1 = M := by
      cases v with
      | function ref => rw [getOrInsertFunction_function hn]
      | other => rw [getOrInsertFunction_other hn]
    rw [this, List.getElem?_eq_none hg] at hF
    cases hF

theorem declare_extends {h : Nat} (hh : h < M.functions.length) :
    M.Extends h (M.getOrInsertFunction name type).1 := by
  have hf := declare_frame M name type
  exact ⟨hf.name, hf.context, hf.dataLayout, hf.otherGlobals, hf.strings ▸ List.prefix_refl _,
    hf.length, fun g hg _ => hf.old g hg, fun F hF => ⟨F.blocks, (hf.old h hh).trans hF⟩,
    fun g F hg hF => (declare_new hg hF).2.2⟩

theorem declare_blocks (M : Module) (name : String) (type : FunctionType) :
    (M.getOrInsertFunction name type).1.blocks = M.blocks := by
  cases hn : M.getNamedValue name with
  | none =>
    rw [getOrInsertFunction_none hn]
    funext g
    simp only [Module.blocks, Module.appendFunction, List.getElem?_append]
    split
    · rfl
    · rename_i hg
      rw [List.getElem?_eq_none (l := M.functions) (by omega), List.getElem?_singleton]
      split <;> rfl
  | some v =>
    cases v with
    | function ref => rw [getOrInsertFunction_function hn]
    | other => rw [getOrInsertFunction_other hn]

theorem declare_instrs (M : Module) (name : String) (type : FunctionType) :
    (M.getOrInsertFunction name type).1.instrs = M.instrs := by
  unfold Module.instrs
  rw [declare_blocks]

end

end Ephippion
