import Ephippion.IR.Concrete
import Ephippion.Proof.Harness

/-!
# A generation as a whole

On a defined function a generation returns exactly if it can be built (`Buildable`,
`encapsulate_of_ok`, `encapsulate_progress`), and has built a harness then (`HarnessBuilt`): the
harness function holds the closed form after the blocks it had before, every other function is as it
was, and new functions are library declarations. What could be encapsulated still can after it
(`Later`, `HarnessBuilt.later`).
-/

namespace Ephippion

open SymbolicEncapsulation

/-- What a generation for `f` needs of the module. -/
structure Encapsulable (senc : SymbolicEncapsulation) (M : Module) (f : Function) : Prop where
  params_ne : f.params ≠ []
  sized : ParamsSized M.dataLayout f.params
  declares : Declares M (senc.harnessName f) harnessType
  not_lib : senc.harnessName f ∉ libNames
  libs : LibsOk M

/-- What a generation for `f` needs. -/
structure Buildable (senc : SymbolicEncapsulation) (M : Module) (f : Function)
    (n : IterationsNumTy) : Prop extends Encapsulable senc M f where
  two_le : 2 ≤ n.toNat

/-- No function with a body has the name of `f`'s harness. -/
def HarnessBodiless (senc : SymbolicEncapsulation) (M : Module) (f : Function) : Prop :=
  ∀ ref, M.getFunction (senc.harnessName f) = some ref → M.blocks ref.index = []

theorem getFunction_eq_some {M : Module} {x : String} {ref : FuncRef} :
    M.getFunction x = some ref ↔ M.getNamedValue x = some (.function ref) := by
  unfold Module.getFunction
  split
  · rename_i ref' h
    simp [h]
  · rename_i h
    refine ⟨fun h' => (Option.some_ne_none _ h'.symm).elim, fun h' => absurd h' (h ref)⟩

theorem HarnessBodiless.of_free {senc : SymbolicEncapsulation} {M : Module} {f : Function}
    (hfree : M.getNamedValue (senc.harnessName f) = none) : HarnessBodiless senc M f := by
  intro ref href
  rw [getFunction_eq_some, hfree] at href
  cases href

/-- Function `h` of `M'` is what a generation has made of `M`. -/
structure HarnessBuilt (senc : SymbolicEncapsulation) (M : Module) (F : Nat) (f : Function)
    (n : IterationsNumTy) (specs : List ArgSpec) (M' : Module) (h : Nat) (H : Harness) : Prop where
  here : HarnessAt h F f n (padSpecs specs f.params.length) H M'
  base_eq : H.base = (M.blocks h).length
  length : (M'.blocks h).length = H.numBlocks
  /-- The harness is the function of that name, or new. -/
  lookup : M.getNamedValue (senc.harnessName f) =
      some (.function ⟨h, senc.harnessName f, harnessType⟩) ∨
    M.getNamedValue (senc.harnessName f) = none ∧ h = M.functions.length
  sig : M'.sig[h]? = some (senc.harnessName f, harnessType)
  old : ∀ b < H.base, M'.instrs h b = M.instrs h b
  name : M'.name = M.name
  context : M'.context = M.context
  dataLayout : M'.dataLayout = M.dataLayout
  otherGlobals : M'.otherGlobals = M.otherGlobals
  strings : M.strings <+: M'.strings
  length_le : M.functions.length ≤ M'.functions.length
  others : ∀ g < M.functions.length, g ≠ h → M'.functions[g]? = M.functions[g]?
  new : ∀ g f', M.functions.length ≤ g → g ≠ h → M'.functions[g]? = some f' →
    (f'.name, f'.getFunctionType) ∈ libDecls ∧ f'.isDeclaration
  names : NamesExcept (senc.harnessName f :: libNames) M M'

/-- The values of the slots of `H` are what the setup of `f`'s harness, which is function `h`, has
returned. -/
def SetUpWith (senc : SymbolicEncapsulation) (M : Module) (f : Function) (n : IterationsNumTy)
    (specs : List ArgSpec) (h : Nat) (H : Harness) : Prop :=
  ∃ M₁ M₂ ref, declareFunc M (senc.harnessName f) .int32Ty = .ok (M₁, ref) ∧ ref.index = h ∧
    setupHarnessArgs (withBlocks M₁ h blockNames) h f.params (padSpecs specs f.params.length)
      H.base (H.base + 10) n =
        .ok (M₂, H.slots.map (Slot.value1 H.base H.dl), H.slots.map (Slot.value2 H.base H.dl))

section
variable {senc : SymbolicEncapsulation} {M M' : Module} {F : Nat} {f : Function}
  {n : IterationsNumTy} {specs : List ArgSpec}

theorem length_padSpecs (specs : List ArgSpec) (k : Nat) : k ≤ (padSpecs specs k).length := by
  rw [padSpecs, List.length_append, List.length_replicate]
  omega

theorem withBlocks_ready {M₁ : Module} {h : Nat} (hh : h < M₁.functions.length) :
    ((withBlocks M₁ h blockNames).blocks h).length = (M₁.blocks h).length + 12 ∧
      ∀ b, (M₁.blocks h).length ≤ b → (withBlocks M₁ h blockNames).instrs h b = [] := by
  obtain ⟨-, h2, h3⟩ := withBlocks_spec (h := h) blockNames hh
  refine ⟨h2, fun b hb => ?_⟩
  rw [h3]
  exact Module.instrs_of_le hb

/-- A library function can be declared after the harness if it could be before and is not the
harness. -/
theorem declares_declare {ref : FuncRef} {d : String × FunctionType}
    (hd : declareFunc M (senc.harnessName f) .int32Ty = .ok (M', ref)) (hmem : d ∈ libDecls) :
    Declares M' d.1 d.2 ↔ senc.harnessName f ≠ d.1 ∧ Declares M d.1 d.2 := by
  have hdec : Declares M (senc.harnessName f) harnessType := Declares.of_ok hd
  obtain ⟨M₁, ref₁, hok, hM₁, -⟩ := castFunction_spec hdec
  have hd' : castFunction (M.getOrInsertFunction (senc.harnessName f) harnessType) =
    .ok (M', ref) := hd
  rw [hd'] at hok
  cases hok
  have hn := hM₁ ▸ (declare_names hdec).1
  by_cases hname : senc.harnessName f = d.1
  · -- the name would have two types
    refine ⟨fun h => ?_, fun h => absurd hname h.1⟩
    have hempty : senc.harnessName f ≠ "" := hname ▸ libDecls_named d hmem
    have hself : M'.getNamedValue (senc.harnessName f) = some (.function ref) := by
      obtain ⟨-, -, h | h⟩ := declare_lookup hd'
      · rw [h.2]; exact h.1
      · exact h.2.2.2 hempty
    rw [← hname, Declares, hself] at h
    exact (libDecls_ne_harnessType d hmem (h.symm.trans (declare_lookup hd').2.1)).elim
  · rw [hn.declares (by simpa using fun h => hname h.symm)]
    exact ⟨fun h => ⟨hname, h⟩, fun h => h.2⟩

/-- Only a harness that is none of the library's functions leaves the library declarable. -/
theorem libsOk_declare {ref : FuncRef}
    (hd : declareFunc M (senc.harnessName f) .int32Ty = .ok (M', ref)) :
    LibsOk M' ↔ senc.harnessName f ∉ libNames ∧ LibsOk M := by
  have hnot : senc.harnessName f ∉ libNames ↔ ∀ d ∈ libDecls, senc.harnessName f ≠ d.1 := by
    rw [libNames, List.mem_map]
    exact ⟨fun h d hd he => h ⟨d, hd, he.symm⟩, fun h ⟨d, hd, he⟩ => h d hd he.symm⟩
  rw [hnot, LibsOk, LibsOk, ← forall₂_and]
  exact forall₂_congr fun d hmem => declares_declare hd hmem

theorem HarnessAt.libsOk {h : Nat} {H : Harness} (hat : HarnessAt h F f n specs H M) :
    LibsOk M := by
  intro d hmem
  simp only [libDecls, List.mem_cons, List.not_mem_nil, or_false] at hmem
  rcases hmem with rfl | rfl | rfl | rfl | rfl | rfl
  · exact hat.malloc_declared.declares (by decide)
  · exact hat.free_declared.declares (by decide)
  · exact hat.symbolize_declared.declares (by decide)
  · exact hat.memcpy_declared.declares (by decide)
  · exact hat.assert_declared.declares (by decide)
  · exact hat.memcmp_declared.declares (by decide)

theorem buildHarness_of_ok (hok : senc.buildHarness M F f n specs = .ok M') :
    Buildable senc M f n ∧ ∃ h H, HarnessBuilt senc M F f n specs M' h H ∧
      SetUpWith senc M f n specs h H := by
  have hdecl : ∃ M₁ ref, declareFunc M (senc.harnessName f) .int32Ty = .ok (M₁, ref) := by
    unfold buildHarness at hok
    rw [Except.bind_eq_ok] at hok
    obtain ⟨⟨M₁, ref⟩, h1, -⟩ := hok
    exact ⟨M₁, ref, h1⟩
  obtain ⟨M₁, ref, hd⟩ := hdecl
  have hdec : Declares M (senc.harnessName f) harnessType := Declares.of_ok hd
  obtain ⟨M₁', ref', hd', hM₁, hD⟩ := castFunction_spec hdec
  rw [show castFunction (M.getOrInsertFunction (senc.harnessName f) harnessType) = .ok (M₁, ref)
    from hd] at hd'
  cases hd'
  have hh : ref.index < M₁.functions.length := hD.lt
  rw [buildHarness_eq senc hd hh] at hok
  obtain ⟨hlen, hempty⟩ := withBlocks_ready hh
  have hbW : Builds ref.index M₁ (withBlocks M₁ ref.index blockNames) :=
    (withBlocks_spec blockNames hh).1
  have hinW : (withBlocks M₁ ref.index blockNames).instrs ref.index = M₁.instrs ref.index :=
    (withBlocks_spec blockNames hh).2.2
  obtain ⟨H, hbase, hat, hbF, hlenF, hold, M₂, hsetup⟩ :=
    filled_of_ok hlen hempty (length_padSpecs _ _) hok
  have hb : Builds ref.index M₁ M' := hbW.trans hh hbF
  have hbl : M₁.blocks = M.blocks := by rw [hM₁]; exact declare_blocks ..
  have hin : M₁.instrs = M.instrs := by rw [hM₁]; exact declare_instrs ..
  obtain ⟨hnot, hlibsM⟩ := (libsOk_declare hd).1 (hb.libsOk.1 hat.libsOk)
  obtain ⟨hrn, hrt, hlook⟩ := declare_lookup
    (show castFunction (M.getOrInsertFunction (senc.harnessName f) harnessType) = .ok (M₁, ref)
      from hd)
  have hframe : DeclareFrame M M₁ := by rw [hM₁]; exact declare_frame M _ _
  refine ⟨⟨⟨hat.params_ne, ?_, hdec, hnot, hlibsM⟩, hat.two_le⟩, ref.index, H, ⟨hat, ?_, hlenF, ?_,
    ?_, fun b hb => ?_, ?_, ?_, ?_, ?_, ?_, ?_, fun g hg hne => ?_, fun g f' hg hne hf' => ?_, ?_⟩,
    M₁, M₂, ref, hd, rfl, hbase ▸ hsetup⟩
  · rw [← hframe.dataLayout, ← hb.ext.dataLayout, ← hat.dl_eq]
    exact hat.sized
  · rw [hbase, hbl]
  · rcases hlook with h | h
    · refine .inl (h.1.trans ?_)
      rw [← hrn, ← hrt]
    · exact .inr ⟨h.1, h.2.1⟩
  · rw [hb.ext.sig_getElem? hh]
    exact hD.sig_eq
  · rw [hold b (by rw [hbase] at hb; exact hb), hinW, hin]
  · exact hb.ext.name.trans hframe.name
  · exact hb.ext.context.trans hframe.context
  · exact hb.ext.dataLayout.trans hframe.dataLayout
  · exact hb.ext.otherGlobals.trans hframe.otherGlobals
  · exact hframe.strings ▸ hb.ext.strings
  · exact Nat.le_trans hframe.length hb.ext.length
  · rw [hb.ext.others g (Nat.lt_of_lt_of_le hg hframe.length) hne, hframe.old g hg]
  · -- the harness is all that the first declaration can have added
    have hg' : M₁.functions.length ≤ g := by
      rcases hlook with h | h
      · rw [h.2]; exact hg
      · rw [h.2.2.1]; omega
    exact ⟨hb.new g f' hg' hf', hb.ext.decls g f' hg' hf'⟩
  · exact (hM₁ ▸ (declare_names hdec).1).trans hb.names

theorem buildHarness_progress (hb : Buildable senc M f n) (F : Nat) (specs : List ArgSpec) :
    ∃ M', senc.buildHarness M F f n specs = .ok M' := by
  obtain ⟨M₁, ref, hd, hM₁, hD⟩ := castFunction_spec hb.declares
  have hd' : declareFunc M (senc.harnessName f) .int32Ty = .ok (M₁, ref) := hd
  have hh : ref.index < M₁.functions.length := hD.lt
  obtain ⟨hlen, hempty⟩ := withBlocks_ready hh
  have hbW : Builds ref.index M₁ (withBlocks M₁ ref.index blockNames) :=
    (withBlocks_spec blockNames hh).1
  have hframe : DeclareFrame M M₁ := by rw [hM₁]; exact declare_frame M _ _
  rw [buildHarness_eq senc hd' hh]
  refine fillHarness_progress hlen hempty (length_padSpecs _ _) hb.params_ne
    (hbW.libsOk.2 ((libsOk_declare hd').2 ⟨hb.not_lib, hb.libs⟩)) ?_ hb.two_le
  rw [hbW.ext.dataLayout, hframe.dataLayout]
  exact hb.sized

/-- A harness whose name is free, once it is declared. -/
theorem declareFunc_free (hfree : M.getNamedValue (senc.harnessName f) = none) :
    declareFunc M (senc.harnessName f) .int32Ty =
      .ok (M.appendFunction ⟨senc.harnessName f, .int32Ty, [], false, []⟩ hfree,
        ⟨M.functions.length, senc.harnessName f, harnessType⟩) := by
  unfold declareFunc
  rw [getOrInsertFunction_none hfree]
  rfl

theorem encapsulate_eq (hf : M.functions[F]? = some f) (hdef : f.isDeclaration = false) :
    senc.encapsulate M F n specs = (senc.buildHarness M F f n specs).map (·, true) := by
  simp [encapsulate, encapsulateImpl, hf, hdef]

theorem encapsulate_setUp (hf : M.functions[F]? = some f) (hdef : f.isDeclaration = false)
    {changed : Bool} (hok : senc.encapsulate M F n specs = .ok (M', changed)) :
    changed = true ∧ Buildable senc M f n ∧ ∃ h H, HarnessBuilt senc M F f n specs M' h H ∧
      SetUpWith senc M f n specs h H := by
  rw [encapsulate_eq hf hdef, Except.map_eq_ok] at hok
  obtain ⟨M₁, hM₁, he⟩ := hok
  cases he
  exact ⟨rfl, buildHarness_of_ok hM₁⟩

theorem encapsulate_of_ok (hf : M.functions[F]? = some f) (hdef : f.isDeclaration = false)
    {changed : Bool} (hok : senc.encapsulate M F n specs = .ok (M', changed)) :
    changed = true ∧ Buildable senc M f n ∧ ∃ h H, HarnessBuilt senc M F f n specs M' h H := by
  obtain ⟨hchanged, hbuild, h, H, hb, -⟩ := encapsulate_setUp hf hdef hok
  exact ⟨hchanged, hbuild, h, H, hb⟩

theorem encapsulate_progress (specs : List ArgSpec) (hf : M.functions[F]? = some f)
    (hdef : f.isDeclaration = false) (hb : Buildable senc M f n) :
    ∃ M', senc.encapsulate M F n specs = .ok (M', true) := by
  obtain ⟨M', hM'⟩ := buildHarness_progress hb F specs
  exact ⟨M', by rw [encapsulate_eq hf hdef, hM']; rfl⟩

/-- A defined function without parameters stops the generation. -/
theorem encapsulate_noParams {F : Nat} {f : Function} {specs : List ArgSpec}
    (hf : M.functions[F]? = some f) (hdef : f.isDeclaration = false) (hparams : f.params = [])
    (hd : Declares M (senc.harnessName f) harnessType) :
    senc.encapsulate M F n specs = .error (.assertion "Value sets are empty!") := by
  obtain ⟨M₁, ref, hok, -, hD⟩ := castFunction_spec hd
  rw [encapsulate_eq hf hdef, buildHarness_eq senc hok hD.lt]
  simp [fillHarness, setupHarnessArgs, hparams, createSymbolicDeclarations, Except.map]

namespace HarnessBuilt

variable {h : Nat} {H : Harness}

/-- Only a harness that had no body starts with what is generated. -/
theorem bodiless_iff (hb : HarnessBuilt senc M F f n specs M' h H) :
    HarnessBodiless senc M f ↔ H.base = 0 := by
  rw [hb.base_eq, List.length_eq_zero_iff]
  constructor
  · intro hbl
    rcases hb.lookup with hl | ⟨-, rfl⟩
    · exact hbl _ (getFunction_eq_some.2 hl)
    · simp [Module.blocks]
  · intro hnil ref href
    rw [getFunction_eq_some] at href
    rcases hb.lookup with hl | ⟨hl, -⟩ <;> rw [href] at hl <;> cases hl
    exact hnil

theorem length_blocks_lt (hb : HarnessBuilt senc M F f n specs M' h H) :
    (M.blocks h).length < (M'.blocks h).length := by
  rw [hb.length, ← hb.base_eq, Harness.numBlocks]
  omega

theorem not_kept (hb : HarnessBuilt senc M F f n specs M' h H) :
    M'.functions[h]? ≠ M.functions[h]? := fun he => by
  have := hb.length_blocks_lt
  rw [Module.blocks, Module.blocks, he] at this
  exact Nat.lt_irrefl _ this

theorem sig_kept (hb : HarnessBuilt senc M F f n specs M' h H) {k : Nat}
    (hk : k < M.functions.length) : M'.sig[k]? = M.sig[k]? := by
  by_cases hkh : k = h
  · subst hkh
    rcases hb.lookup with hl | ⟨-, hl⟩
    · rw [hb.sig, (Module.sig_of_getNamedValue hl).2]
    · omega
  · rw [Module.sig, Module.sig, List.getElem?_map, List.getElem?_map, hb.others k hk hkh]

theorem instrs_kept (hb : HarnessBuilt senc M F f n specs M' h H) {k b : Nat}
    (hlt : b < (M.blocks k).length) : M'.instrs k b = M.instrs k b := by
  by_cases hkh : k = h
  · subst hkh
    exact hb.old b (hb.base_eq ▸ hlt)
  · rw [Module.instrs, Module.instrs, Module.blocks, Module.blocks,
      hb.others k (Module.lt_of_blocks hlt) hkh]

theorem sig_encapsulated (hb : HarnessBuilt senc M F f n specs M' h H)
    (hf : M.functions[F]? = some f) : F ≠ h ∧ M'.functions[F]? = some f ∧
      M'.sig[F]? = some (f.name, f.getFunctionType) := by
  have hlt := (List.getElem?_eq_some_iff.1 hf).1
  have hne : F ≠ h := by
    rintro rfl
    rcases hb.lookup with hl | ⟨-, hl⟩
    · have hs := (Module.sig_of_getNamedValue hl).2
      rw [Module.sig, List.getElem?_map, hf, Option.map_some, Option.some.injEq] at hs
      have hparams : f.params.map (·.type) = [] := congrArg (fun p => p.2.params) hs
      exact hb.here.params_ne (List.map_eq_nil_iff.1 hparams)
    · omega
  have hF := (hb.others F hlt hne).trans hf
  exact ⟨hne, hF, by rw [Module.sig, List.getElem?_map, hF]; rfl⟩

end HarnessBuilt

end

/-! ## Later modules -/

/-- `M'` is what generations have made of `M`: functions keep their names and types, code is only
added, and what could be encapsulated still can. -/
structure Later (senc : SymbolicEncapsulation) (M M' : Module) : Prop where
  sig : ∀ g < M.functions.length, M'.sig[g]? = M.sig[g]?
  blocks : ∀ g, (M.blocks g).length ≤ (M'.blocks g).length
  encapsulable : ∀ f, Encapsulable senc M f → Encapsulable senc M' f

section
variable {senc : SymbolicEncapsulation} {M M' M'' : Module}

theorem Later.refl (senc : SymbolicEncapsulation) (M : Module) : Later senc M M :=
  ⟨fun _ _ => rfl, fun _ => Nat.le_refl _, fun _ h => h⟩

theorem Later.length_le (h : Later senc M M') : M.functions.length ≤ M'.functions.length := by
  by_contra hlt
  have := h.sig M'.functions.length (by omega)
  rw [Module.sig, Module.sig, List.getElem?_map, List.getElem?_map,
    List.getElem?_eq_none (Nat.le_refl _), List.getElem?_eq_getElem (by omega)] at this
  cases this

theorem Later.trans (h : Later senc M M') (h' : Later senc M' M'') : Later senc M M'' :=
  ⟨fun g hg => (h'.sig g (Nat.lt_of_lt_of_le hg h.length_le)).trans (h.sig g hg),
    fun g => Nat.le_trans (h.blocks g) (h'.blocks g),
    fun f hf => h'.encapsulable f (h.encapsulable f hf)⟩

theorem Later.defined (h : Later senc M M') {g : Nat} {f : Function}
    (hf : M.functions[g]? = some f) (hdef : f.isDeclaration = false) :
    ∃ f', M'.functions[g]? = some f' ∧ f'.isDeclaration = false ∧ f'.name = f.name ∧
      f'.getFunctionType = f.getFunctionType := by
  have hs := h.sig g (List.getElem?_eq_some_iff.1 hf).1
  rw [Module.sig, Module.sig, List.getElem?_map, List.getElem?_map, hf, Option.map_some,
    Option.map_eq_some_iff] at hs
  obtain ⟨f', hf', hs⟩ := hs
  refine ⟨f', hf', ?_, congrArg Prod.fst hs, congrArg Prod.snd hs⟩
  have hlen := h.blocks g
  rw [Module.blocks, Module.blocks, hf, hf'] at hlen
  rw [Function.isDeclaration, List.isEmpty_eq_false_iff, ← List.length_pos_iff] at hdef ⊢
  exact Nat.lt_of_lt_of_le hdef hlen

/-- What a generation needs of a function is its name and its parameters' types. -/
theorem Encapsulable.congr {f f' : Function} (h : Encapsulable senc M f) (hname : f'.name = f.name)
    (htype : f'.getFunctionType = f.getFunctionType) : Encapsulable senc M f' := by
  have hparams : f'.params.map (·.type) = f.params.map (·.type) := congrArg (·.params) htype
  have hh : senc.harnessName f' = senc.harnessName f := by rw [harnessName, harnessName, hname]
  refine ⟨fun hnil => h.params_ne ?_, fun p hp => ?_, hh ▸ h.declares, hh ▸ h.not_lib, h.libs⟩
  · rw [hnil] at hparams
    exact List.map_eq_nil_iff.1 hparams.symm
  · have hmem : p.type ∈ f.params.map (·.type) := hparams ▸ List.mem_map_of_mem hp
    obtain ⟨q, hq, hqp⟩ := List.mem_map.1 hmem
    have := h.sized q hq
    rwa [Param.elemTy, hqp, ← Param.elemTy] at this

theorem HarnessBuilt.later {F h : Nat} {f : Function} {n : IterationsNumTy} {specs : List ArgSpec}
    {H : Harness} (hb : HarnessBuilt senc M F f n specs M' h H) : Later senc M M' where
  sig _ hg := hb.sig_kept hg
  blocks g := by
    by_cases hgh : g = h
    · subst hgh
      exact Nat.le_of_lt hb.length_blocks_lt
    · rcases Nat.lt_or_ge g M.functions.length with hlt | hge
      · have : M'.blocks g = M.blocks g := by rw [Module.blocks, Module.blocks, hb.others g hlt hgh]
        exact Nat.le_of_eq (by rw [this])
      · rw [Module.blocks, List.getElem?_eq_none hge]
        exact Nat.zero_le _
  encapsulable g hg := by
    refine ⟨hg.params_ne, hb.dataLayout ▸ hg.sized, ?_, hg.not_lib, hb.here.libsOk⟩
    by_cases hname : senc.harnessName g = senc.harnessName f
    · rw [hname]
      by_cases hempty : senc.harnessName f = ""
      · rw [hempty, Declares, Module.getNamedValue_eq, if_pos rfl]
        trivial
      · rw [Declares, Module.getNamedValue_of_sig hempty hb.sig]
    · exact (hb.names.declares (by simp [hname, hg.not_lib])).2 hg.declares

theorem encapsulate_later {F : Nat} {n : IterationsNumTy} {specs : List ArgSpec} {changed : Bool}
    (hok : senc.encapsulate M F n specs = .ok (M', changed)) : Later senc M M' := by
  cases hf : M.functions[F]? with
  | none =>
    simp only [encapsulate, encapsulateImpl, hf, Except.ok.injEq, Prod.mk.injEq] at hok
    exact hok.1 ▸ .refl senc M
  | some f =>
    cases hdef : f.isDeclaration with
    | true =>
      simp only [encapsulate, encapsulateImpl, hf, hdef, ite_true, Except.ok.injEq,
        Prod.mk.injEq] at hok
      exact hok.1 ▸ .refl senc M
    | false =>
      obtain ⟨-, -, h, H, hb⟩ := encapsulate_of_ok hf hdef hok
      exact hb.later

end

/-! ## Two modules a harness can be built in -/

theorem plainModule_buildable :
    Buildable {} plainModule (emptyFunction "f" [⟨"", .int64Ty⟩]) 2 where
  params_ne := by decide
  sized := by decide
  declares := by decide
  not_lib := by decide
  libs := by decide
  two_le := by decide

theorem bufferModule_buildable {t : Ty} (ht : t = .int8Ty ∨ t = .int32Ty) :
    Buildable {} (bufferModule t) (bufferFunction t) 2 := by
  rcases ht with rfl | rfl
  · exact ⟨⟨by decide, by decide, by decide, by decide, by decide⟩, by decide⟩
  · exact ⟨⟨by decide, by decide, by decide, by decide, by decide⟩, by decide⟩

theorem encapsulate_plain (specs : List ArgSpec) :
    ∃ M', SymbolicEncapsulation.encapsulate {} plainModule 0 2 specs = .ok (M', true) :=
  encapsulate_progress specs (f := emptyFunction "f" [⟨"", .int64Ty⟩]) rfl rfl plainModule_buildable

theorem encapsulate_buffer {t : Ty} (ht : t = .int8Ty ∨ t = .int32Ty) (specs : List ArgSpec) :
    ∃ M', SymbolicEncapsulation.encapsulate {} (bufferModule t) 0 2 specs = .ok (M', true) :=
  encapsulate_progress specs (f := bufferFunction t) rfl rfl (bufferModule_buildable ht)

end Ephippion
