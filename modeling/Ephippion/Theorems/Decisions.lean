import Ephippion.Theorems.Completeness
import Ephippion.Theorems.Preservation

/-!
# What a run of the pass decides

From the reports of a directory to the verdicts of the harnesses: for each function that a report
asks a harness for, the function that the module has under the harness's name decides whether the
two orders of the calls can differ, with the specifications of the first report that asks
(`run_decides`). Later reports and later runs change nothing about that.
-/

namespace Ephippion

open Sequence Machine

/-- The runs of function `h` of `N` tell whether the orders of `n` calls of `g` differ: all return 0
exactly if they do not and no comparison leaves its buffer, and some fails exactly if they do,
unless a comparison leaves its buffer. -/
structure Decides (N : Module) (F h : Nat) (params : List Param) (n : IterationsNumTy)
    (specs : List ArgSpec) (g : BitVec 64 → Contents → Contents) : Prop where
  verifies : AllReturn N F h g ↔
    ComparesInside N.dataLayout n params specs ∧ NoDifference N.dataLayout n params specs g
  fails : ComparesInside N.dataLayout n params specs →
    (SomeFails N F h g ↔ ¬ NoDifference N.dataLayout n params specs g)

theorem HarnessAt.decides {h F : Nat} {f : Function} {n : IterationsNumTy} {specs : List ArgSpec}
    {H : Harness} {N : Module} {g : BitVec 64 → Contents → Contents}
    (hat : HarnessAt h F f n specs H N) (hbase : H.base = 0) (hlink : H.Linked F)
    (hi : TakesIterator f) (hg : ∀ v bs, (g v bs).map List.length = bs.map List.length) :
    Decides N F h f.params n specs g := by
  have hverifies := hat.verifies hlink hi hg
  have hfails := hat.fails hlink hi hg
  rw [hat.dl_eq, hbase] at hverifies hfails
  exact ⟨hverifies, hfails⟩

section
variable {opts : Options} {parse : String → Option Json} {unset : Unset}
  {dir : Option (List DirEntry)} {M M' N : Module} {changed : Bool} {F : Nat} {f : Function}
  {argSpecs : List ArgSpec}

/-- For each function that a report asks a harness for the module has one that decides, after this
run and any later ones. -/
theorem run_decides (hp : NotPrefixed {} M)
    (hrun : SymbolicEncapsulationPass.run opts parse unset dir M = .ok (M', changed))
    (hfirst : First (requests (plan opts parse unset dir M)) F argSpecs)
    (hf : M.functions[F]? = some f) (hi : TakesIterator f) (hlater : AfterRuns M' N) :
    ∃ h, N.getFunction (SymbolicEncapsulation.harnessName {} f) =
        some ⟨h, SymbolicEncapsulation.harnessName {} f, harnessType⟩ ∧
      ∀ g : BitVec 64 → Contents → Contents,
        (∀ v bs, (g v bs).map List.length = bs.map List.length) →
        Decides N F h f.params opts.iterationsNum (padSpecs argSpecs f.params.length) g := by
  obtain ⟨f', h, H, -, hf', hget, hat, hbase, -⟩ := (hfirst.honoured hp hrun).kept hlater.kept
  obtain rfl : f = f' := Option.some.inj (hf.symm.trans hf')
  have hsig : N.sig[F]? = some (f.name, f.getFunctionType) := by
    apply (((run_kept hrun).trans hlater.kept).grows 0).sig
    rw [Module.sig, List.getElem?_map, hf]
    rfl
  exact ⟨h, hget, fun g hg => hat.decides hbase (hat.linked hsig hi) hi hg⟩

end

theorem run_decides_twoReports : ∃ M' changed,
    SymbolicEncapsulationPass.run reportOptions parseReport (fun _ _ => (.inbound, false))
      (some twoReports) (bufferModule .int8Ty) = .ok (M', changed) ∧
    ∃ h, Decides M' 0 h (bufferFunction .int8Ty).params 2
      [⟨"", .inbound, false⟩, ⟨"", .both, true⟩] fun _ bs => bs := by
  obtain ⟨M', changed, hrun⟩ := run_twoReports
  have hfirst : First (requests (plan reportOptions parseReport (fun _ _ => (.inbound, false))
      (some twoReports) (bufferModule .int8Ty))) 0
      [⟨"", .inbound, false⟩, ⟨"", .both, true⟩] := by
    rw [plan_twoReports]
    rfl
  obtain ⟨h, -, hd⟩ := run_decides (f := bufferFunction .int8Ty) bufferModule_notPrefixed hrun
    hfirst rfl (by decide) (.refl M')
  exact ⟨M', changed, hrun, h, hd (fun _ bs => bs) fun _ _ => rfl⟩

end Ephippion
