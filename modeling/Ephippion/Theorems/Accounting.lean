import Ephippion.Theorems.Planned

/-!
# What a run adds

The functions of the module after a run are those it had, a harness for each function asked for,
and the six library functions if anything was asked for (`run_names`). The blocks are those it had
and, for each request, eighteen in the harness and two more for each of the outbound parameters
(`run_blocks`): requests for one function add up.
-/

namespace Ephippion

open SymbolicEncapsulation

/-- The blocks of the function of that name. -/
def blocksOf (M : Module) (x : String) : Nat :=
  match M.getFunction x with
  | some ref => (M.blocks ref.index).length
  | none => 0

namespace Request

/-- The name of the harness that is asked for. -/
def harness (senc : SymbolicEncapsulation) (M : Module) (r : Request) : Option String :=
  M.functions[r.F]?.map senc.harnessName

/-- The number of its blocks. -/
def blocks (M : Module) (r : Request) : Nat :=
  match M.functions[r.F]? with
  | some f => 18 + 2 * (f.params.zip (padSpecs r.argSpecs f.params.length)).countP fun a =>
      isOutbound a.2.direction
  | none => 0

end Request

section
variable {senc : SymbolicEncapsulation} {M M' : Module} {F : Nat} {f : Function}
  {n : IterationsNumTy} {specs : List ArgSpec} {h : Nat} {H : Harness} {x : String}

/-! ## One generation -/

theorem HarnessAt.length_checked (hat : HarnessAt h F f n specs H M) :
    H.m = (f.params.zip specs).countP fun a => isOutbound a.2.direction := by
  rw [hat.layout.zip_eq, List.countP_map, Harness.m, Harness.checked,
    ← List.countP_eq_length_filter]
  rfl

theorem HarnessAt.libs (hat : HarnessAt h F f n specs H M) (hx : x ∈ libNames) :
    ∃ ref, M.getFunction x = some ref := by
  have hdecl : ∀ {ref : FuncRef} {name : String} {type : FunctionType}, name ≠ "" →
      Declared M ref name type → ∃ ref, M.getFunction name = some ref := fun hne hd =>
    ⟨_, getFunction_of_sig hne hd.sig_eq⟩
  simp only [libNames, libDecls, List.map_cons, List.map_nil, List.mem_cons, List.not_mem_nil,
    or_false] at hx
  rcases hx with rfl | rfl | rfl | rfl | rfl | rfl
  · exact hdecl (by decide) hat.malloc_declared
  · exact hdecl (by decide) hat.free_declared
  · exact hdecl (by decide) hat.symbolize_declared
  · exact hdecl (by decide) hat.memcpy_declared
  · exact hdecl (by decide) hat.assert_declared
  · exact hdecl (by decide) hat.memcmp_declared

namespace HarnessBuilt

theorem getFunction_isSome_iff (hb : HarnessBuilt senc M F f n specs M' h H) (hlibs : LibsOk M)
    (hx : x ≠ "") : (M'.getFunction x).isSome ↔
      (M.getFunction x).isSome ∨ senc.harnessName f = x ∨ x ∈ libNames := by
  simp only [Option.isSome_iff_exists]
  constructor
  · rintro ⟨ref, hr⟩
    by_cases hmem : x ∈ senc.harnessName f :: libNames
    · rcases List.mem_cons.1 hmem with hmem | hmem
      · exact .inr (.inl hmem.symm)
      · exact .inr (.inr hmem)
    · rw [getFunction_eq_some, hb.names x hmem] at hr
      exact .inl ⟨ref, getFunction_eq_some.2 hr⟩
  · rintro (⟨ref, hr⟩ | rfl | hlib)
    · rw [getFunction_eq_some] at hr
      exact ⟨ref, getFunction_eq_some.2 (hb.getNamedValue_kept hlibs hr)⟩
    · exact ⟨_, getFunction_of_sig hx hb.sig⟩
    · exact hb.here.libs hlib

theorem blocksOf_harness (hb : HarnessBuilt senc M F f n specs M' h H)
    (hx : senc.harnessName f ≠ "") : blocksOf M' (senc.harnessName f) =
      blocksOf M (senc.harnessName f) + (18 + 2 * H.m) := by
  have hold : blocksOf M (senc.harnessName f) = H.base := by
    rw [blocksOf, hb.base_eq]
    rcases hb.lookup with hl | ⟨hl, rfl⟩
    · rw [getFunction_eq_some.2 hl]
    · rw [Module.getFunction, hl]
      simp [Module.blocks]
  rw [hold, blocksOf, getFunction_of_sig hx hb.sig]
  dsimp only
  rw [hb.length, Harness.numBlocks]
  omega

/-- Other functions keep their blocks, and new ones have none. -/
theorem blocksOf_other (hb : HarnessBuilt senc M F f n specs M' h H) (hlibs : LibsOk M)
    (hx : x ≠ "") (hne : senc.harnessName f ≠ x) : blocksOf M' x = blocksOf M x := by
  cases hr : M'.getFunction x with
  | none =>
    have hnone : M.getFunction x = none := by
      have hiff := hb.getFunction_isSome_iff hlibs hx
      rw [hr] at hiff
      cases hM : M.getFunction x with
      | none => rfl
      | some ref => exact absurd (hiff.2 (.inl (by rw [hM]; rfl))) (by decide)
    rw [blocksOf, blocksOf, hr, hnone]
  | some ref =>
    have hs := sig_of_getFunction hr
    have hgh : ref.index ≠ h := fun hgh => by
      rw [hgh, hb.sig, Option.some.injEq] at hs
      exact hne (congrArg Prod.fst hs)
    rcases Nat.lt_or_ge ref.index M.functions.length with hlt | hge
    · rw [hb.sig_kept hlt] at hs
      rw [blocksOf, blocksOf, hr, getFunction_of_sig hx hs]
      dsimp only
      rw [Module.blocks, Module.blocks, hb.others _ hlt hgh]
    · have hnone : M.getFunction x = none := by
        cases hM : M.getFunction x with
        | none => rfl
        | some ref' =>
          have hs' := sig_of_getFunction hM
          have hlt : ref'.index < M.functions.length := by
            simpa [Module.sig] using (List.getElem?_eq_some_iff.1 hs').1
          rw [← hb.sig_kept hlt] at hs'
          have := Module.sig_inj hx hs hs'
          omega
      rw [blocksOf, blocksOf, hr, hnone]
      dsimp only
      rw [Module.sig, List.getElem?_map, Option.map_eq_some_iff] at hs
      obtain ⟨f', hf', -⟩ := hs
      have hdecl := (hb.new _ f' hge hgh hf').2
      rw [Module.blocks, hf']
      simpa [Function.isDeclaration] using hdecl

end HarnessBuilt

end

/-! ## All of them -/

section
variable {senc : SymbolicEncapsulation} {n : IterationsNumTy} {M M' N N' : Module}
  {rs done : List Request} {r : Request} {f : Function} {h : Nat} {H : Harness} {x : String}

theorem Generation.harness (hg : Generation senc n M N r f N' h H) :
    r.harness senc M = some (senc.harnessName f) := by
  rw [Request.harness, hg.asked]
  rfl

theorem Generation.blocks (hg : Generation senc n M N r f N' h H) :
    r.blocks M = 18 + 2 * H.m := by
  rw [Request.blocks, hg.asked, hg.built.here.length_checked]

theorem encapsulateAll_names (hall : AllDefined M rs) (hx : x ≠ "")
    (hok : encapsulateAll senc n M rs = .ok M') : (M'.getFunction x).isSome ↔
      (M.getFunction x).isSome ∨ (∃ r ∈ rs, r.harness senc M = some x) ∨
        rs ≠ [] ∧ x ∈ libNames := by
  refine (encapsulateAll_inv (P := fun done N => (N.getFunction x).isSome ↔
    (M.getFunction x).isSome ∨ (∃ r ∈ done, r.harness senc M = some x) ∨
      done ≠ [] ∧ x ∈ libNames) hall (by simp) (fun done r N f N' h H _ hP hg => ?_) hok).2
  rw [hg.built.getFunction_isSome_iff hg.buildable.libs hx, hP]
  simp only [List.mem_append, List.mem_singleton, or_and_right, exists_or, exists_eq_left,
    hg.harness, Option.some.injEq, ne_eq, List.append_eq_nil_iff, List.cons_ne_nil, and_false,
    not_false_eq_true, true_and]
  by_cases hlib : x ∈ libNames
  · simp [hlib]
  · simp [hlib, or_assoc]

/-- The blocks that the requests add to the function of that name. -/
def addedBlocks (senc : SymbolicEncapsulation) (M : Module) (rs : List Request) (x : String) :
    Nat :=
  ((rs.filter fun r => r.harness senc M = some x).map (Request.blocks M)).sum

theorem addedBlocks_append : addedBlocks senc M (done ++ [r]) x = addedBlocks senc M done x +
    if r.harness senc M = some x then r.blocks M else 0 := by
  rw [addedBlocks, addedBlocks, List.filter_append, List.map_append, List.sum_append]
  split <;> simp [*]

theorem encapsulateAll_blocks (hall : AllDefined M rs) (hx : x ≠ "")
    (hok : encapsulateAll senc n M rs = .ok M') :
    blocksOf M' x = blocksOf M x + addedBlocks senc M rs x := by
  refine (encapsulateAll_inv (P := fun done N => blocksOf N x = blocksOf M x +
    addedBlocks senc M done x) hall rfl (fun done r N f N' h H _ hP hg => ?_) hok).2
  rw [addedBlocks_append, hg.harness, hg.blocks]
  by_cases hname : senc.harnessName f = x
  · subst hname
    rw [if_pos rfl, hg.built.blocksOf_harness hx, hP, Nat.add_assoc]
  · rw [if_neg (by simpa using hname), hg.built.blocksOf_other hg.buildable.libs hx hname, hP,
      Nat.add_zero]

end

section
variable {opts : Options} {parse : String → Option Json} {unset : Unset}
  {dir : Option (List DirEntry)} {M M' : Module} {changed : Bool}

/-- A name is a function's after a run exactly if it was before, or is that of a harness asked for,
or a library function's if any is asked for. -/
theorem run_names (hrun : SymbolicEncapsulationPass.run opts parse unset dir M = .ok (M', changed))
    {x : String} (hx : x ≠ "") : (M'.getFunction x).isSome ↔ (M.getFunction x).isSome ∨
      (∃ r ∈ requests (plan opts parse unset dir M), r.harness {} M = some x) ∨
        requests (plan opts parse unset dir M) ≠ [] ∧ x ∈ libNames :=
  encapsulateAll_names plan_defined hx (run_requests hrun)

theorem run_names_twoReports : ∃ M' changed, SymbolicEncapsulationPass.run reportOptions
    parseReport (fun _ _ => (.inbound, false)) (some twoReports) (bufferModule .int8Ty) =
      .ok (M', changed) ∧ (M'.getFunction "symenc_f").isSome ∧ M'.getFunction "main" = none := by
  obtain ⟨M', changed, hrun⟩ := run_twoReports
  refine ⟨M', changed, hrun, (run_names hrun (by decide)).2 ?_, ?_⟩
  · rw [plan_twoReports]
    exact .inr (.inl ⟨_, List.mem_cons_self, rfl⟩)
  · rw [← Option.not_isSome_iff_eq_none, run_names hrun (by decide), plan_twoReports]
    decide

/-- A function has the blocks it had before the run and those of each harness asked for under its
name. -/
theorem run_blocks (hrun : SymbolicEncapsulationPass.run opts parse unset dir M = .ok (M', changed))
    {x : String} (hx : x ≠ "") : blocksOf M' x = blocksOf M x +
      addedBlocks {} M (requests (plan opts parse unset dir M)) x :=
  encapsulateAll_blocks plan_defined hx (run_requests hrun)

/-- Two reports on one function add up: 20 blocks with one outbound parameter, 22 with two. -/
theorem run_blocks_twoReports : ∃ M' changed, SymbolicEncapsulationPass.run reportOptions
    parseReport (fun _ _ => (.inbound, false)) (some twoReports) (bufferModule .int8Ty) =
      .ok (M', changed) ∧ blocksOf M' "symenc_f" = 42 := by
  obtain ⟨M', changed, hrun⟩ := run_twoReports
  refine ⟨M', changed, hrun, (run_blocks hrun (by decide)).trans ?_⟩
  rw [plan_twoReports]
  decide

end

end Ephippion
