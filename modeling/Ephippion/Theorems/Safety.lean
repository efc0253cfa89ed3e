import Ephippion.Proof.Stops

/-!
# Generations that come to an end

The five vectors of a generation have the lengths that the loops over them rely on, so no index is
past an end (`encapsulate_inRange`). What a generation can stop at is a declaration, a type without
a size, or that there are no parameters, which is noticed when the harness has its first blocks
already: it is safe exactly if none of these happens (`safe_iff`).
-/

namespace Ephippion

open SymbolicEncapsulation

/-- A generation for `f` stops at no index and at no check of the value sets, and leaves the module
either as it was or with a complete harness. -/
structure Safe (senc : SymbolicEncapsulation) (M : Module) (F : Nat) (f : Function)
    (n : IterationsNumTy) (specs : List ArgSpec) : Prop where
  inRange : senc.encapsulate M F n specs ≠ .error .outOfRange
  nonempty : senc.encapsulate M F n specs ≠ .error (.assertion "Value sets are empty!")
  same_size : senc.encapsulate M F n specs ≠ .error (.assertion "Value set sizes differ!")
  complete : senc.encapsulate M F n specs = .ok (M, false) ∨
    ∃ M' h H, senc.encapsulate M F n specs = .ok (M', true) ∧
      HarnessBuilt senc M F f n specs M' h H

section
variable {senc : SymbolicEncapsulation} {M : Module} {F : Nat} {f : Function}
  {n : IterationsNumTy} {specs : List ArgSpec}

/-- Where everything has a size, a generation gets to every library function. -/
theorem reachedLibs_of_sized (hsized : ParamsSized M.dataLayout f.params)
    {d : String × FunctionType} (hd : d ∈ libDecls) :
    d ∈ reachedLibs M.dataLayout f.params specs := by
  have hptr : PointeesSized M.dataLayout f.params := fun p hp _ => hsized p hp
  have hval : ValuesSized M.dataLayout f.params specs := fun a ha _ =>
    hsized a.1 (List.of_mem_zip ha).1
  rw [reachedLibs, if_pos hptr, if_pos hval]
  exact (by decide : libDecls ⊆ _) hd

variable (senc) in
theorem encapsulate_cases (specs : List ArgSpec) (hf : M.functions[F]? = some f)
    (hdef : f.isDeclaration = false) (hsized : ParamsSized M.dataLayout f.params)
    (hn : 2 ≤ n.toNat) :
    senc.encapsulate M F n specs = .error .badCast ∨
      f.params = [] ∧
        senc.encapsulate M F n specs = .error (.assertion "Value sets are empty!") ∨
      Buildable senc M f n ∧ ∃ M', senc.encapsulate M F n specs = .ok (M', true) := by
  by_cases hdec : Declares M (senc.harnessName f) harnessType
  swap
  · left
    rw [encapsulate_eq hf hdef, Except.map_eq_error, buildHarness, Except.bind_eq_error]
    exact .inl (castFunction_eq_error.2 ⟨rfl, hdec⟩)
  by_cases hparams : f.params = []
  · exact .inr (.inl ⟨hparams, encapsulate_noParams hf hdef hparams hdec⟩)
  by_cases hlibs : ∀ d ∈ libDecls, senc.harnessName f ≠ d.1 ∧ Declares M d.1 d.2
  · have hnot : senc.harnessName f ∉ libNames := by
      rw [libNames, List.mem_map]
      intro hx
      obtain ⟨d, hd, he⟩ := hx
      exact (hlibs d hd).1 he.symm
    have hb : Buildable senc M f n :=
      ⟨⟨hparams, hsized, hdec, hnot, fun d hd => (hlibs d hd).2⟩, hn⟩
    exact .inr (.inr ⟨hb, encapsulate_progress specs hf hdef hb⟩)
  · left
    simp only [not_forall, not_and_or, not_not] at hlibs
    obtain ⟨d, hd, hno⟩ := hlibs
    rw [encapsulate_eq hf hdef, Except.map_eq_error,
      buildHarness_badCast_iff F n specs hparams hdec]
    exact ⟨d, reachedLibs_of_sized hsized hd, hno⟩

/-- No index is past the end of what it is into, also where a generation stops. -/
theorem encapsulate_inRange (specs : List ArgSpec) (hf : M.functions[F]? = some f)
    (hdef : f.isDeclaration = false) (hsized : ParamsSized M.dataLayout f.params)
    (hn : 2 ≤ n.toNat) : senc.encapsulate M F n specs ≠ .error .outOfRange := by
  rcases encapsulate_cases senc specs hf hdef hsized hn with
    h | ⟨-, h⟩ | ⟨-, M', h⟩ <;> rw [h] <;> exact nofun

/-- A generation is safe exactly if there is a parameter, everything has a size and everything can
be declared. -/
theorem safe_iff (hf : M.functions[F]? = some f) (hdef : f.isDeclaration = false)
    (hn : 2 ≤ n.toNat) :
    Safe senc M F f n specs ↔
      f.params ≠ [] ∧ ParamsSized M.dataLayout f.params ∧
        Declares M (senc.harnessName f) harnessType ∧ senc.harnessName f ∉ libNames ∧ LibsOk M := by
  constructor
  · intro hs
    obtain ⟨M', changed, hok⟩ : ∃ M' changed, senc.encapsulate M F n specs = .ok (M', changed) := by
      rcases hs.complete with h | ⟨M', -, -, h, -⟩
      · exact ⟨M, false, h⟩
      · exact ⟨M', true, h⟩
    obtain ⟨-, hb, -⟩ := encapsulate_of_ok hf hdef hok
    exact ⟨hb.params_ne, hb.sized, hb.declares, hb.not_lib, hb.libs⟩
  · intro hx
    obtain ⟨hparams, hsized, hdec, hnot, hlibs⟩ := hx
    obtain ⟨M', hok⟩ :=
      encapsulate_progress specs hf hdef ⟨⟨hparams, hsized, hdec, hnot, hlibs⟩, hn⟩
    obtain ⟨-, -, h, H, hb⟩ := encapsulate_of_ok hf hdef hok
    have hne : ∀ stop, senc.encapsulate M F n specs ≠ .error stop := fun stop => by
      rw [hok]
      exact nofun
    exact ⟨hne _, hne _, hne _, .inr ⟨M', h, H, hok, hb⟩⟩

end

theorem safe_buffer : Safe {} (bufferModule .int32Ty) 0 (bufferFunction .int32Ty) 2
    [⟨"", .outbound, true⟩] :=
  have hb := bufferModule_buildable (.inr rfl)
  (safe_iff rfl rfl hb.two_le).2 ⟨hb.params_ne, hb.sized, hb.declares, hb.not_lib, hb.libs⟩

/-- A function without parameters is not safe. -/
theorem not_safe_noParams : ¬ Safe {} (.of [emptyFunction "f" []]) 0 (emptyFunction "f" []) 2 [] :=
  fun hs => hs.nonempty (encapsulate_noParams rfl rfl rfl (by decide))

end Ephippion
