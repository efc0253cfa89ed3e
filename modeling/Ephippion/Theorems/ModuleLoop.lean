import Ephippion.Theorems.Frame

/-!
# The loop over a module

`encapsulateModule` visits what it appends. The harness of the first defined function is one of
them, it has a body and no parameters, and building a harness for such a function stops with a
failed assertion: the loop ends well only on modules that define nothing
(`encapsulateModule_iff`).
-/

namespace Ephippion

open SymbolicEncapsulation

/-- The loop ends, every function `M` defines has got one harness and nothing else has. -/
def EncapsulatesEach (senc : SymbolicEncapsulation) (M : Module) (n : IterationsNumTy) : Prop :=
  ∃ fuel M' changed, senc.encapsulateModule fuel M n = some (.ok (M', changed)) ∧
    (∀ f ∈ M.functions, f.isDeclaration = false →
      (M'.functions.filter (·.name = senc.harnessName f)).length = 1) ∧
    ∀ g f', M.functions.length ≤ g → M'.functions[g]? = some f' →
      (∃ f ∈ M.functions, f.isDeclaration = false ∧ f'.name = senc.harnessName f) ∨
        (f'.name, f'.getFunctionType) ∈ libDecls

section
variable {senc : SymbolicEncapsulation} {M M' : Module} {n : IterationsNumTy}

theorem encapsulate_ne_ok {F : Nat} {name : String} {r : Module × Bool} {specs : List ArgSpec}
    (hs : M.sig[F]? = some (name, harnessType)) (hb : 0 < (M.blocks F).length) :
    senc.encapsulate M F n specs ≠ .ok r := by
  intro hok
  rw [Module.sig, List.getElem?_map, Option.map_eq_some_iff] at hs
  obtain ⟨f, hf, hft⟩ := hs
  have hdef : f.isDeclaration = false := by
    rw [Module.blocks, hf] at hb
    simpa [Function.isDeclaration, List.length_pos_iff] using hb
  obtain ⟨-, hbuild, -⟩ := encapsulate_of_ok hf hdef hok
  have : f.params.map (·.type) = [] := congrArg (fun p => p.2.params) hft
  exact hbuild.params_ne (List.map_eq_nil_iff.1 this)

/-- The loop does not get past such a function. -/
theorem encapsulateFrom_ne_ok {k : Nat} {name : String} : ∀ (fuel : Nat) {M : Module} {F : Nat}
    {changed : Bool} {r : Module × Bool}, F ≤ k → k < M.functions.length →
      M.sig[k]? = some (name, harnessType) → 0 < (M.blocks k).length →
      senc.encapsulateFrom n fuel M F changed ≠ some (.ok r)
  | 0, _, _, _, _, _, _, _, _ => by simp [encapsulateFrom]
  | fuel + 1, M, F, changed, r, hFk, hk, hs, hb => by
    intro hok
    rw [encapsulateFrom, if_pos (Nat.lt_of_le_of_lt hFk hk)] at hok
    cases henc : senc.encapsulate M F n with
    | error stop => rw [henc] at hok; cases hok
    | ok p =>
      obtain ⟨M₁, changed₁⟩ := p
      rw [henc] at hok
      rcases Nat.lt_or_eq_of_le hFk with hlt | rfl
      · have hl := encapsulate_later henc
        exact encapsulateFrom_ne_ok fuel hlt (Nat.lt_of_lt_of_le hk hl.length_le)
          ((hl.sig k hk).trans hs) (Nat.lt_of_lt_of_le hb (hl.blocks k)) hok
      · exact encapsulate_ne_ok hs hb henc

/-- A loop that ended well has met no defined function whose harness's name was free. -/
theorem declarations_of_ok : ∀ (fuel : Nat) {F : Nat} {changed : Bool} {r : Module × Bool},
    (∀ f ∈ M.functions, ∀ f' ∈ M.functions, f'.name ≠ senc.harnessName f) →
      senc.encapsulateFrom n fuel M F changed = some (.ok r) →
      ∀ g f, F ≤ g → M.functions[g]? = some f → f.isDeclaration
  | 0, _, _, _, _, hok => by simp [encapsulateFrom] at hok
  | fuel + 1, F, changed, r, hname, hok => by
    intro g f hFg hg
    have hgl := (List.getElem?_eq_some_iff.1 hg).1
    rw [encapsulateFrom, if_pos (by omega)] at hok
    have hF := List.getElem?_eq_getElem (show F < M.functions.length by omega)
    cases hdef : M.functions[F].isDeclaration with
    | true =>
      have henc : senc.encapsulate M F n = .ok (M, false) := by
        simp [encapsulate, encapsulateImpl, hF, hdef]
      rw [henc] at hok
      rcases Nat.lt_or_eq_of_le hFg with hlt | rfl
      · exact declarations_of_ok fuel hname hok g f hlt hg
      · rw [hF] at hg
        cases hg
        exact hdef
    | false =>
      cases henc : senc.encapsulate M F n with
      | error stop => rw [henc] at hok; cases hok
      | ok p =>
        obtain ⟨M₁, changed₁⟩ := p
        rw [henc] at hok
        obtain ⟨-, -, h, H, hb⟩ := encapsulate_of_ok hF hdef henc
        -- the harness is new, so it is still to be visited
        have hnew : h = M.functions.length := by
          rcases hb.lookup with hl | hl
          · have hs := (Module.sig_of_getNamedValue hl).2
            rw [Module.sig, List.getElem?_map, Option.map_eq_some_iff] at hs
            obtain ⟨f', hf', hft⟩ := hs
            exact (hname _ (List.getElem_mem _) f' (List.mem_of_getElem? hf')
              (congrArg Prod.fst hft)).elim
          · exact hl.2
        have hlt : h < M₁.functions.length := by
          have := (List.getElem?_eq_some_iff.1 hb.sig).1
          simpa [Module.sig] using this
        exact (encapsulateFrom_ne_ok fuel (by omega) hlt hb.sig
          (Nat.lt_of_le_of_lt (Nat.zero_le _) hb.length_blocks_lt) hok).elim

theorem encapsulateFrom_declarations (hdecl : ∀ f ∈ M.functions, f.isDeclaration) :
    ∀ (k F : Nat), M.functions.length ≤ F + k →
      senc.encapsulateFrom n (k + 1) M F false = some (.ok (M, false))
  | 0, F, hF => by rw [encapsulateFrom, if_neg (by omega)]
  | k + 1, F, hF => by
    rw [encapsulateFrom]
    split
    · rename_i hlt
      have hget := List.getElem?_eq_getElem hlt
      have henc : senc.encapsulate M F n = .ok (M, false) := by
        simp [encapsulate, encapsulateImpl, hget, hdecl _ (List.getElem_mem hlt)]
      rw [henc]
      exact encapsulateFrom_declarations hdecl k (F + 1) (by omega)
    · rfl

/-- The functions' names do not start with the prefix. -/
def NoHarnessNames (senc : SymbolicEncapsulation) (M : Module) : Prop :=
  ∀ f ∈ M.functions, ¬ senc.harnessNamePrefix.toList <+: f.name.toList

/-- The loop encapsulates each function once exactly if no function is defined. -/
theorem encapsulateModule_iff (hname : NoHarnessNames senc M) :
    EncapsulatesEach senc M n ↔ ∀ f ∈ M.functions, f.isDeclaration := by
  have hne : ∀ f ∈ M.functions, ∀ f' ∈ M.functions, f'.name ≠ senc.harnessName f :=
    fun f _ f' hf' heq => hname f' hf' (by
      rw [heq, harnessName, String.toList_append]
      exact List.prefix_append _ _)
  constructor
  · rintro ⟨fuel, M', changed, hok, -⟩ f hf
    obtain ⟨g, hg⟩ := List.getElem?_of_mem hf
    exact declarations_of_ok fuel hne hok g f (Nat.zero_le g) hg
  · intro hdecl
    refine ⟨M.functions.length + 1, M, false,
      encapsulateFrom_declarations hdecl M.functions.length 0 (by omega), ?_, ?_⟩
    · intro f hf hdef
      rw [hdecl f hf] at hdef
      cases hdef
    · intro g f' hg hf'
      rw [List.getElem?_eq_none hg] at hf'
      cases hf'

end

theorem encapsulateModule_declarations :
    EncapsulatesEach {} (.of [⟨"puts", .int32Ty, [⟨"", .int8PtrTy⟩], false, []⟩]) 2 :=
  (encapsulateModule_iff (by unfold NoHarnessNames; decide)).2 (by decide)

/-- On a module of `f(i64)` only the loop reaches the harness of `f` and stops there. -/
theorem encapsulateModule_stops :
    SymbolicEncapsulation.encapsulateModule {} 2 plainModule 2 =
      some (.error (.assertion "Value sets are empty!")) ∧
    ¬ EncapsulatesEach {} plainModule 2 := by
  have hf : plainModule.functions[0]? = some (emptyFunction "f" [⟨"", .int64Ty⟩]) := rfl
  obtain ⟨M₁, hok⟩ := encapsulate_plain []
  obtain ⟨-, -, h, H, hb⟩ := encapsulate_of_ok hf rfl hok
  have hfree : plainModule.getNamedValue (SymbolicEncapsulation.harnessName {}
      (emptyFunction "f" [⟨"", .int64Ty⟩])) = none := by decide
  constructor
  · obtain rfl : h = 1 := by
      rcases hb.lookup with hl | hl
      · rw [hfree] at hl
        cases hl
      · exact hl.2
    have hs := hb.sig
    rw [Module.sig, List.getElem?_map, Option.map_eq_some_iff] at hs
    obtain ⟨f', hf', hft⟩ := hs
    have hlt := (List.getElem?_eq_some_iff.1 hf').1
    have hname : f'.name = "symenc_f" := congrArg Prod.fst hft
    have hdef : f'.isDeclaration = false := by
      have := hb.length_blocks_lt
      rw [Module.blocks, Module.blocks, hf'] at this
      have := Nat.lt_of_le_of_lt (Nat.zero_le _) this
      simpa [Function.isDeclaration, List.length_pos_iff] using this
    have hparams : f'.params.map (·.type) = [] := congrArg (fun p => p.2.params) hft
    have hd : Declares M₁ (SymbolicEncapsulation.harnessName {} f') harnessType := by
      have hfree' : plainModule.getNamedValue "symenc_symenc_f" = none := by decide
      rw [Declares, harnessName, hname, hb.names _ (by decide)]
      rw [show ({} : SymbolicEncapsulation).harnessNamePrefix ++ "symenc_f" = "symenc_symenc_f"
        from rfl, hfree']
      trivial
    have h1 : SymbolicEncapsulation.encapsulate {} M₁ 1 2 =
        .error (.assertion "Value sets are empty!") :=
      encapsulate_noParams hf' hdef (List.map_eq_nil_iff.1 hparams) hd
    rw [encapsulateModule, encapsulateFrom, if_pos (by decide), hok]
    show encapsulateFrom {} 2 1 M₁ 1 _ = _
    rw [encapsulateFrom, if_pos hlt, h1]
  · intro hx
    obtain ⟨fuel, M', changed, hok', -⟩ := hx
    have hne : ∀ f ∈ plainModule.functions, ∀ f' ∈ plainModule.functions,
        f'.name ≠ SymbolicEncapsulation.harnessName {} f := by decide
    exact absurd (declarations_of_ok fuel hne hok' 0 _ (Nat.le_refl 0) hf) (by decide)

end Ephippion
