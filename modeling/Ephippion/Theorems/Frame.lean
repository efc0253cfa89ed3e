import Ephippion.Proof.Encapsulate

/-!
# What a generation does to the rest of the module

A completed generation keeps every body exactly if its harness's name is not that of a function
with a body, and only appends to the module exactly if the name is free
(`encapsulate_frame`): otherwise the harness's blocks are appended to the function that has the
name (`encapsulate_clash`).
-/

namespace Ephippion

open SymbolicEncapsulation

/-- Every function with a body is as it was. -/
def BodiesKept (M M' : Module) : Prop :=
  ∀ (g : Nat) (f : Function), M.functions[g]? = some f → f.isDeclaration = false →
    M'.functions[g]? = some f

/-- `M'` is `M` and a new function for `f`'s harness, library declarations and strings. -/
structure OnlyAdds (senc : SymbolicEncapsulation) (M : Module) (f : Function) (M' : Module) :
    Prop where
  functions : M.functions <+: M'.functions
  harness : ∃ f', M'.functions[M.functions.length]? = some f' ∧ f'.name = senc.harnessName f
  declarations : ∀ (g : Nat) (f' : Function), M.functions.length < g →
    M'.functions[g]? = some f' → (f'.name, f'.getFunctionType) ∈ libDecls ∧ f'.isDeclaration
  strings : M.strings <+: M'.strings
  rest : M'.name = M.name ∧ M'.otherGlobals = M.otherGlobals

section
variable {senc : SymbolicEncapsulation} {M M' : Module} {F : Nat} {f : Function}
  {n : IterationsNumTy} {specs : List ArgSpec} {h : Nat} {H : Harness}

namespace HarnessBuilt

theorem bodiesKept_iff (hb : HarnessBuilt senc M F f n specs M' h H) :
    BodiesKept M M' ↔ HarnessBodiless senc M f := by
  rw [hb.bodiless_iff, hb.base_eq, List.length_eq_zero_iff]
  constructor
  · intro hk
    by_contra hne
    have hlt := Module.lt_of_blocks (List.length_pos_iff.2 hne)
    have hget := List.getElem?_eq_getElem hlt
    refine hb.not_kept ((hk h _ hget ?_).trans hget.symm)
    rw [Module.blocks_eq_getElem hlt] at hne
    simpa [Function.isDeclaration] using hne
  · intro hnil g f' hg hdef
    by_cases hgh : g = h
    · subst hgh
      rw [Module.blocks, hg] at hnil
      replace hnil : f'.blocks = [] := hnil
      rw [Function.isDeclaration, hnil] at hdef
      cases hdef
    · rw [hb.others g (List.getElem?_eq_some_iff.1 hg).1 hgh, hg]

theorem onlyAdds_iff (hb : HarnessBuilt senc M F f n specs M' h H) :
    OnlyAdds senc M f M' ↔ M.getNamedValue (senc.harnessName f) = none := by
  constructor
  · intro ha
    rcases hb.lookup with hl | ⟨hl, -⟩
    · have hlt : h < M.functions.length := by
        have := (List.getElem?_eq_some_iff.1 (Module.sig_of_getNamedValue hl).2).1
        simpa [Module.sig] using this
      have hpre := List.prefix_iff_getElem?.1 ha.functions h hlt
      exact (hb.not_kept (hpre.trans (List.getElem?_eq_getElem hlt).symm)).elim
    · exact hl
  · intro hfree
    obtain ⟨-, rfl⟩ : _ ∧ h = M.functions.length := by
      rcases hb.lookup with hl | hl
      · rw [hfree] at hl
        cases hl
      · exact hl
    refine ⟨?_, ?_, fun g f' hg hf' => hb.new g f' (by omega) (by omega) hf', hb.strings, hb.name,
      hb.otherGlobals⟩
    · rw [List.prefix_iff_getElem?]
      intro i hi
      rw [hb.others i hi (by omega), List.getElem?_eq_getElem hi]
    · have hs := hb.sig
      rw [Module.sig, List.getElem?_map, Option.map_eq_some_iff] at hs
      obtain ⟨f', hf', hs⟩ := hs
      exact ⟨f', hf', congrArg Prod.fst hs⟩

end HarnessBuilt

/-- A completed generation keeps every body iff no function with a body has the harness's name, and
appends to the module only, iff nothing has. -/
theorem encapsulate_frame (hf : M.functions[F]? = some f) (hdef : f.isDeclaration = false)
    (hok : senc.encapsulate M F n specs = .ok (M', true)) :
    (BodiesKept M M' ↔ HarnessBodiless senc M f) ∧
      (BodiesKept M M' ∧ OnlyAdds senc M f M' ↔ M.getNamedValue (senc.harnessName f) = none) := by
  obtain ⟨-, -, h, H, hb⟩ := encapsulate_of_ok hf hdef hok
  refine ⟨hb.bodiesKept_iff, ?_⟩
  rw [hb.bodiesKept_iff, hb.onlyAdds_iff]
  exact ⟨And.right, fun hfree => ⟨.of_free hfree, hfree⟩⟩

end

theorem encapsulate_frame_plain : ∃ M', SymbolicEncapsulation.encapsulate {} plainModule 0 2 =
    .ok (M', true) ∧ BodiesKept plainModule M' ∧
      OnlyAdds {} plainModule (emptyFunction "f" [⟨"", .int64Ty⟩]) M' := by
  have hf : plainModule.functions[0]? = some (emptyFunction "f" [⟨"", .int64Ty⟩]) := rfl
  obtain ⟨M', hok⟩ := encapsulate_plain []
  exact ⟨M', hok, (encapsulate_frame hf rfl hok).2.2 (by decide)⟩

/-! ## A module with a function of the harness's name -/

/-- `f(i64)` and a function `symenc_f()`, both defined. -/
def clashModule : Module :=
  .of [emptyFunction "f" [⟨"", .int64Ty⟩],
    ⟨"symenc_f", .int32Ty, [], false, [⟨"entry", [⟨.ret (getIntN 32 0), ""⟩]⟩]⟩]

theorem clashModule_buildable :
    Buildable {} clashModule (emptyFunction "f" [⟨"", .int64Ty⟩]) 2 where
  params_ne := by decide
  sized := by decide
  declares := by decide
  not_lib := by decide
  libs := by decide
  two_le := by decide

/-- Generating the harness of `f` appends blocks to the body of `symenc_f`. -/
theorem encapsulate_clash : ∃ M', SymbolicEncapsulation.encapsulate {} clashModule 0 2 =
    .ok (M', true) ∧ ¬ BodiesKept clashModule M' := by
  have hf : clashModule.functions[0]? = some (emptyFunction "f" [⟨"", .int64Ty⟩]) := rfl
  obtain ⟨M', hok⟩ := encapsulate_progress [] hf rfl clashModule_buildable
  obtain ⟨-, -, h, H, hb⟩ := encapsulate_of_ok hf rfl hok
  refine ⟨M', hok, ?_⟩
  rw [hb.bodiesKept_iff]
  intro hbl
  have := hbl ⟨1, "symenc_f", harnessType⟩ (by decide)
  exact absurd this (by decide)

end Ephippion
