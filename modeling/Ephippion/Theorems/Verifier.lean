import Ephippion.Theorems.Planned

/-!
# What the pass generates verifies

A module that LLVM's verifier accepts is still accepted after a generation exactly if the first
parameter is the iterator's, what is copied from one alloca to another are bytes, and no parameter
points to another address space (`encapsulate_verified_iff`); so it is after a run exactly if this
is so for every report the run has honoured (`run_verified_iff`).
-/

namespace Ephippion

open SymbolicEncapsulation

section
variable {senc : SymbolicEncapsulation} {M M' : Module} {F : Nat} {f : Function}
  {n : IterationsNumTy} {specs : List ArgSpec}

/-- A module that verifies still does after a generation exactly if the function's harnesses do. -/
theorem encapsulate_verified_iff (hf : M.functions[F]? = some f) (hdef : f.isDeclaration = false)
    (hM : M.Verified) (hok : senc.encapsulate M F n specs = .ok (M', true)) :
    M'.Verified ↔ Verifiable M.dataLayout f (padSpecs specs f.params.length) := by
  obtain ⟨-, -, h, H, hb⟩ := encapsulate_of_ok hf hdef hok
  refine ⟨fun hv => ?_, hb.verified hf hM⟩
  have := hb.here.verifiable (hv h)
  rwa [hb.dataLayout] at this

end

/-! ## A run -/

/-- Each harness that is asked for is for a function whose harnesses verify. -/
def AllVerifiable (M : Module) (rs : List Request) : Prop :=
  ∀ r ∈ rs, ∀ f, M.functions[r.F]? = some f →
    Verifiable M.dataLayout f (padSpecs r.argSpecs f.params.length)

section
variable {senc : SymbolicEncapsulation} {n : IterationsNumTy} {opts : Options}
  {parse : String → Option Json} {unset : Unset} {dir : Option (List DirEntry)} {M M' : Module}
  {rs : List Request}

theorem encapsulateAll_verified_iff (hall : AllDefined M rs) (hM : M.Verified)
    (hok : encapsulateAll senc n M rs = .ok M') : M'.Verified ↔ AllVerifiable M rs := by
  obtain ⟨hk, hv, hbuilt⟩ := encapsulateAll_inv (P := fun done N =>
      (AllVerifiable M done → N.Verified) ∧ ∀ r ∈ done, ∀ f, M.functions[r.F]? = some f →
        ∃ h H, HarnessAt h r.F f n (padSpecs r.argSpecs f.params.length) H N)
    hall ⟨fun _ => hM, fun _ hr => (List.not_mem_nil hr).elim⟩ (fun done r N f N' h H _ hP hg => by
      refine ⟨fun hv => ?_, fun r' hr' f' hf' => ?_⟩
      · refine hg.built.verified hg.found (hP.1 fun r' hr' => hv r' (List.mem_append_left _ hr')) ?_
        rw [hg.kept.dataLayout]
        exact hv r (List.mem_append_right _ (List.mem_singleton_self r)) f hg.asked
      · rcases List.mem_append.1 hr' with hr' | hr'
        · obtain ⟨k, K, hat⟩ := hP.2 r' hr' f' hf'
          exact ⟨k, K, hat.kept hg.built⟩
        · rw [List.mem_singleton.1 hr'] at hf' ⊢
          obtain rfl : f = f' := Option.some.inj (hg.asked.symm.trans hf')
          exact ⟨h, H, hg.built.here⟩) hok
  refine ⟨fun hM' r hr f hf => ?_, hv⟩
  obtain ⟨h, H, hat⟩ := hbuilt r hr f hf
  exact hk.dataLayout ▸ hat.verifiable (hM' h)

/-- A module that verifies still does after a run exactly if the harnesses of each function a report
asks for do. -/
theorem run_verified_iff {changed : Bool} (hM : M.Verified)
    (hrun : SymbolicEncapsulationPass.run opts parse unset dir M = .ok (M', changed)) :
    M'.Verified ↔ AllVerifiable M (requests (plan opts parse unset dir M)) :=
  encapsulateAll_verified_iff plan_defined hM (run_requests hrun)

end

/-! ## Modules that verify -/

theorem Module.Verified.of_empty {M : Module}
    (hM : ∀ f ∈ M.functions, ∃ name params, f = emptyFunction name params) : M.Verified := by
  intro h
  cases hf : M.functions[h]? with
  | none => exact .of_bodiless (by rw [Module.blocks, hf]; rfl)
  | some f =>
    obtain ⟨name, params, rfl⟩ := hM f (List.mem_of_getElem? hf)
    have hcode : ∀ b, M.instrs h b = if b = 0 then [⟨.foreign .void (some []) "ret void", ""⟩]
        else [] := fun b => by
      rw [Module.instrs, Module.blocks, hf]
      cases b <;> rfl
    have hsuccs : ∀ a, M.succs h a = [] := fun a => by
      rw [Module.succs, hcode a]
      split <;> rfl
    refine ⟨fun a he => ?_, fun b hb => ?_⟩
    · rw [Module.Edge, hsuccs] at he
      cases he
    · obtain rfl : b = 0 := by
        rw [Module.blocks, hf] at hb
        exact Nat.lt_one_iff.1 hb
      refine ⟨?_, ?_, ?_, ?_, ?_, ?_⟩ <;> rw [hcode, if_pos rfl]
      · exact ⟨[], _, rfl, fun _ hi => (by cases hi), rfl⟩
      · intro i hi d hd
        rw [List.mem_singleton.1 hi] at hd
        cases hd
      · intro i hi
        rw [List.mem_singleton.1 hi]
        trivial
      · intro k i hi v hv
        rw [List.mem_singleton.1 (List.mem_of_getElem? hi)] at hv
        cases hv
      · intro i hi type inc hop
        rw [List.mem_singleton.1 hi] at hop
        cases hop
      · intro k i hi hinc
        rw [List.mem_singleton.1 (List.mem_of_getElem? hi)] at hinc
        cases hinc

theorem bufferModule_verified (t : Ty) : (bufferModule t).Verified := by
  refine .of_empty fun f hf => ?_
  rw [List.mem_singleton.1 hf]
  exact ⟨_, _, rfl⟩

theorem encapsulate_verified_iff_buffer : ∃ M' : Module,
    SymbolicEncapsulation.encapsulate {} (bufferModule .int32Ty) 0 2
      [⟨"i", .inbound, false⟩, ⟨"p", .both, true⟩] = .ok (M', true) ∧ M'.Verified := by
  obtain ⟨M', hok⟩ := encapsulate_buffer (.inr rfl) [⟨"i", .inbound, false⟩, ⟨"p", .both, true⟩]
  refine ⟨M', hok, (encapsulate_verified_iff (f := bufferFunction .int32Ty) rfl rfl
    (bufferModule_verified _) hok).2 (by decide)⟩

/-- Two reports, the second of which asks for a harness in which the iterator is copied. -/
theorem run_verified_iff_twoReports : ∃ M' changed, SymbolicEncapsulationPass.run reportOptions
    parseReport (fun _ _ => (.inbound, false)) (some twoReports) (bufferModule .int8Ty) =
      .ok (M', changed) ∧ ¬ M'.Verified := by
  obtain ⟨M', changed, hrun⟩ := run_twoReports
  refine ⟨M', changed, hrun, fun hv => ?_⟩
  have hall := (run_verified_iff (bufferModule_verified _) hrun).1 hv
  rw [plan_twoReports] at hall
  exact absurd (hall ⟨0, [⟨"", .both, false⟩, ⟨"", .both, true⟩]⟩
    (List.mem_cons_of_mem _ List.mem_cons_self) (bufferFunction .int8Ty) rfl) (by decide)

end Ephippion
