import Ephippion.Run.Lockstep
import Ephippion.Theorems.Planned

/-!
# What the module does after runs

The code of every function the module had does what it did, whatever any number of runs have added
(`runs_preserve`): a harness that is there already gets more blocks, which its code never reaches.
What the functions it calls do is up to the world.
So of several reports on one function the first one is honoured, and it alone, whatever comes after
it in this run and in later ones (`first_request_honoured`).
-/

namespace Ephippion

open SymbolicEncapsulation Machine

/-- Runs after one another have made `N` of `M`, each with its own options and reports. -/
inductive AfterRuns : Module → Module → Prop
  | refl (M : Module) : AfterRuns M M
  | tail {M N N' : Module} {opts : Options} {parse : String → Option Json} {unset : Unset}
      {dir : Option (List DirEntry)} {changed : Bool} : AfterRuns M N →
      SymbolicEncapsulationPass.run opts parse unset dir N = .ok (N', changed) → AfterRuns M N'

/-! ## What was there -/

section
variable {senc : SymbolicEncapsulation} {M N : Module} {F g : Nat} {W : World}

theorem AfterRuns.kept (h : AfterRuns M N) : Kept {} M N := by
  induction h with
  | refl => exact .refl {} M
  | tail _ hrun ih => exact ih.trans (run_kept hrun)

/-- Code only looks at the data layout of its module, and branches of it stay in it. -/
theorem Module.Grows.run_eq (h : Module.Grows g M N) (hM : M.BranchesInside) {s : Config}
    (hs : s.block < (M.blocks g).length) (fuel : Nat) :
    run (step W N F g) fuel s = run (step W M F g) fuel s := by
  refine (run_congr (P := fun s => s.block < (M.blocks g).length) (fun s hs => ?_)
    (fun s s' hs hstep => ?_) hs).symm
  · exact step_anon W h.dataLayout.symm (by rw [h.old s.block hs])
  · obtain ⟨-, i, hi, hd⟩ := execInstrs_inl _ _ _ _ hstep
    exact hM.lt hi hd

/-- After any number of runs a function that was there runs as before from each of its blocks, for
as long and with the same outcome, if what it calls does what it did. -/
theorem runs_preserve (h : AfterRuns M N) (hM : M.BranchesInside) (W : World) (F g fuel : Nat)
    {s : Config} (hs : s.block < (M.blocks g).length) :
    run (step W N F g) fuel s = run (step W M F g) fuel s :=
  (h.kept.grows g).run_eq hM hs fuel

end

/-- In a world of zeros instructions of other kinds do nothing, and terminators return. -/
def World.returning : World :=
  { World.idle with
    foreign := fun _ _ _ m => some (none, m)
    exit := fun _ _ _ _ => some (.inr (.bytes [])) }

/-- After two reports on it `f` returns as it did. -/
theorem runs_preserve_twoReports : ∃ M', AfterRuns (bufferModule .int8Ty) M' ∧
    ∀ F, run (step .returning M' F 0) 1 (startAt 0) =
      some (.returned (.bytes []) ⟨[], [.foreign "ret void"]⟩) := by
  obtain ⟨M', changed, hrun⟩ := run_twoReports
  have h : AfterRuns (bufferModule .int8Ty) M' := .tail (.refl _) hrun
  exact ⟨M', h, fun F =>
    (runs_preserve h (by decide) .returning F 0 1 (s := startAt 0) Nat.one_pos).trans rfl⟩

/-! ## What comes first -/

/-- The first of the requests for function `F` is with these specifications. -/
def First (rs : List Request) (F : Nat) (argSpecs : List ArgSpec) : Prop :=
  rs.find? (·.F = F) = some ⟨F, argSpecs⟩

section
variable {senc : SymbolicEncapsulation} {n : IterationsNumTy} {M₀ M M' : Module}
  {done : Nat → List ArgSpec → Prop} {F : Nat} {f : Function} {specs specs₀ : List ArgSpec}
  {h : Nat} {H : Harness} {rs : List Request} {r : Request}

theorem First.mem (hr : First rs F specs) : ⟨F, specs⟩ ∈ rs := List.mem_of_find?_eq_some hr

theorem first_append {done : List Request} : First (done ++ [r]) F specs ↔ First done F specs ∨
    (∀ r' ∈ done, r'.F ≠ F) ∧ r = ⟨F, specs⟩ := by
  simp only [First, List.find?_append, Option.or_eq_some_iff, List.find?_eq_none,
    List.find?_singleton, decide_eq_true_eq, Option.ite_none_right_eq_some, Option.some.injEq]
  refine or_congr_right (and_congr_right fun _ => and_iff_right_of_imp ?_)
  rintro rfl
  rfl

theorem Generated.not_old (hg : Generated senc n M₀ done M) (hp : NotPrefixed senc M₀)
    (hb : HarnessBuilt senc M F f n specs M' h H) : M₀.functions.length ≤ h := by
  by_contra hlt
  have hs := (hb.sig_kept (k := h) (by have := hg.length_le; omega)).symm.trans hb.sig
  rw [Module.sig, List.getElem?_map, hg.functions h (by omega), Option.map_eq_some_iff] at hs
  obtain ⟨g, hg', hgs⟩ := hs
  exact hp g (List.mem_of_getElem? hg') f.name (congrArg Prod.fst hgs)

/-- Another generation for a function changes nothing about what has been done. -/
theorem Generated.again (hg : Generated senc n M₀ done M) (hp : NotPrefixed senc M₀)
    (hf : M₀.functions[F]? = some f) (hdone : done F specs₀)
    (hb : HarnessBuilt senc M F f n specs M' h H) : Generated senc n M₀ done M' where
  name := hb.name.trans hg.name
  context := hb.context.trans hg.context
  dataLayout := hb.dataLayout.trans hg.dataLayout
  length_le := Nat.le_trans hg.length_le hb.length_le
  functions g hlt := by
    have := hg.not_old hp hb
    rw [hb.others g (Nat.lt_of_lt_of_le hlt hg.length_le) (by omega), hg.functions g hlt]
  libs _ := hb.here.libsOk
  names x hx := by
    by_cases hxf : x = senc.harnessName f
    · exact .inr ⟨F, f, specs₀, hdone, hf, hxf⟩
    · rw [hb.names x (by simp [hxf, hx])]
      exact hg.names x hx
  entries G s g hG hGf := by
    obtain ⟨k, K, he⟩ := hg.entries G s g hG hGf
    exact ⟨k, K, he.kept hb⟩

/-- What the first requests ask for is there, whatever the other ones do. -/
theorem encapsulateAll_generated (hp : NotPrefixed senc M) (hall : AllDefined M rs)
    (hnamed : ∀ r ∈ rs, ∀ f, M.functions[r.F]? = some f → f.name ≠ "")
    (hok : encapsulateAll senc n M rs = .ok M') : Generated senc n M (First rs) M' := by
  refine (encapsulateAll_inv (P := fun done N => Generated senc n M (First done) N) hall
    ((Generated.refl senc n M).congr fun F s => ?_) (fun done r N f N' h H hpre hP hg => ?_) hok).2
  · exact iff_of_false id nofun
  · have hr := hpre.subset (List.mem_append_right _ (List.mem_singleton_self r))
    by_cases hold : ∀ r' ∈ done, r'.F ≠ r.F
    · -- the first request for its function
      refine (hP.step hp hg.asked hg.isDefined (hnamed r hr f hg.asked)
        (fun s hs => (hold _ hs.mem rfl).elim) hg.ok).congr fun G s => ?_
      rw [first_append]
      refine or_congr_right ⟨?_, ?_⟩
      · rintro ⟨rfl, rfl⟩
        exact ⟨hold, rfl⟩
      · rintro ⟨-, rfl⟩
        exact ⟨rfl, rfl⟩
    · push Not at hold
      obtain ⟨r', hr', hF⟩ := hold
      obtain ⟨r₀, h₀⟩ := Option.isSome_iff_exists.1 ((List.find?_isSome (p := (·.F = r.F))).2
        ⟨r', hr', decide_eq_true hF⟩)
      have hfirst : First done r.F r₀.argSpecs := by
        have hF₀ : r₀.F = r.F := by simpa using List.find?_some h₀
        rw [First, h₀, ← hF₀]
      refine (hP.again hp hg.asked hfirst hg.built).congr fun G s => ?_
      rw [first_append, or_iff_left]
      rintro ⟨hno, rfl⟩
      exact hno r' hr' hF

/-! ## What comes later -/

theorem Kept.harnessAt (hk : Kept senc M M') (hat : HarnessAt h F f n specs H M) :
    HarnessAt h F f n specs H M' := by
  have hdecl : ∀ {ref : FuncRef} {name : String} {type : FunctionType},
      Declared M ref name type → Declared M' ref name type := fun hd =>
    ⟨hd.name_eq, hd.type_eq, (hk.grows 0).sig _ _ hd.sig_eq⟩
  exact { hat with
    dl_eq := hat.dl_eq.trans hk.dataLayout.symm
    malloc_declared := hdecl hat.malloc_declared
    free_declared := hdecl hat.free_declared
    symbolize_declared := hdecl hat.symbolize_declared
    memcpy_declared := hdecl hat.memcpy_declared
    memcmp_declared := hdecl hat.memcmp_declared
    assert_declared := hdecl hat.assert_declared
    code := fun B hB => ((hk.grows h).old _ (hat.id_lt hB)).trans (hat.code B hB) }

theorem Honoured.kept (hh : Honoured senc n M₀ F specs M) (hk : Kept senc M M') :
    Honoured senc n M₀ F specs M' := by
  obtain ⟨f, h, H, N, hf, hget, hat, hbase, hN, hsame⟩ := hh
  have hat' := hk.harnessAt hat
  refine ⟨f, h, H, N, hf, getFunction_eq_some.2 (hk.names _ _ (getFunction_eq_some.1 hget)), hat',
    hbase, hN, fun W o => ?_⟩
  have hruns := hat'.halts_iff hk.dataLayout (fun B hB => by rw [hat'.code B hB, hat.code B hB]) W o
  rw [hbase] at hruns
  exact hruns.trans (hsame W o)

end

section
variable {opts : Options} {parse : String → Option Json} {unset : Unset}
  {dir : Option (List DirEntry)} {M M' N : Module} {changed : Bool} {F : Nat}
  {argSpecs : List ArgSpec}

theorem First.honoured (hfirst : First (requests (plan opts parse unset dir M)) F argSpecs)
    (hp : NotPrefixed {} M)
    (hrun : SymbolicEncapsulationPass.run opts parse unset dir M = .ok (M', changed)) :
    Honoured {} opts.iterationsNum M F argSpecs M' := by
  obtain ⟨f, hf, hdef⟩ := plan_defined _ hfirst.mem
  have hbuild := (encapsulateAll_returns_iff plan_defined).1 ⟨M', run_requests hrun⟩
  have hgen : Generated {} opts.iterationsNum M _ M' :=
    encapsulateAll_generated hp plan_defined (fun r hr g hg => by
      obtain ⟨_, -, -, e, -, hask⟩ := mem_requests_plan.1 hr
      obtain ⟨-, f', hf', hne⟩ := readReport_function (readReport_eq_encapsulate.2 hask)
      rwa [Option.some.inj (hg.symm.trans hf')]) (run_requests hrun)
  exact hgen.honoured hfirst hf hdef (hbuild _ hfirst.mem f hf) (harnessName_ne_empty f)

/-- Of the harnesses that the reports of a run ask for one function the first is the one that the
module has, after this run and any later ones. -/
theorem first_request_honoured (hp : NotPrefixed {} M)
    (hrun : SymbolicEncapsulationPass.run opts parse unset dir M = .ok (M', changed))
    (hfirst : First (requests (plan opts parse unset dir M)) F argSpecs) (hlater : AfterRuns M' N) :
    Honoured {} opts.iterationsNum M F argSpecs N :=
  (hfirst.honoured hp hrun).kept hlater.kept

end

theorem first_request_honoured_twoReports : ∃ M' changed,
    SymbolicEncapsulationPass.run reportOptions parseReport (fun _ _ => (.inbound, false))
      (some twoReports) (bufferModule .int8Ty) = .ok (M', changed) ∧
    Honoured {} 2 (bufferModule .int8Ty) 0 [⟨"", .inbound, false⟩, ⟨"", .both, true⟩] M' := by
  obtain ⟨M', changed, hrun⟩ := run_twoReports
  refine ⟨M', changed, hrun, first_request_honoured bufferModule_notPrefixed hrun ?_ (.refl M')⟩
  rw [plan_twoReports]
  rfl

end Ephippion
