import Ephippion.Run.Entry
import Ephippion.Run.Refinement

/-!
# The harness computes its program

A harness that is run from its entry with enough fuel returns what its program says, whatever the
world does: it returns 0 with the program's memory and trace, fails where the program fails, and is
stuck where the program is (`run_eq_outcome`). Enough are six blocks for each iteration, one for
each check and fourteen more, and a run that returns 0 needs them all.
-/

namespace Ephippion

open Machine

theorem run_eq_outcome {senc : SymbolicEncapsulation} {M M' : Module} {F : Nat} {f : Function}
    {n : IterationsNumTy} {specs : List ArgSpec} (hf : M.functions[F]? = some f)
    (hdef : f.isDeclaration = false) (hi : TakesIterator f) (hbl : HarnessBodiless senc M f)
    (hok : senc.encapsulate M F n specs = .ok (M', true)) :
    ∃ h H, HarnessBuilt senc M F f n specs M' h H ∧ ∀ (W : World) (fuel : Nat),
      (6 * n.toNat + H.m + 14 ≤ fuel →
        run (step W M' F h) fuel (startAt 0) = some (H.outcome W)) ∧
      ∀ c, H.program W = .ok c → fuel < 6 * n.toNat + H.m + 14 →
        run (step W M' F h) fuel (startAt 0) = none := by
  obtain ⟨-, -, h, H, hb⟩ := encapsulate_of_ok hf hdef hok
  have hsteps : H.steps = 6 * n.toNat + H.m + 13 := by rw [Harness.steps, hb.here.n_eq]
  have hlink := hb.linked hf hi
  have hbase := hb.bodiless_iff.1 hbl
  refine ⟨h, H, hb, fun W fuel => ⟨fun hfuel => ?_, fun c hc hfuel => ?_⟩⟩
  · rw [← hbase]
    exact hb.here.run_eq hlink hi (by omega)
  · have href := hb.here.refines (W := W) hlink hi
    rw [hc, hbase] at href
    exact href.run_eq_none (by omega)

/-- Two calls in each order take 26 blocks, and one more for each check. -/
theorem run_eq_outcome_buffer : ∃ (M' : Module) (h : Nat) (H : Harness),
    HarnessBuilt {} (bufferModule .int32Ty) 0 (bufferFunction .int32Ty) 2
      [⟨"i", .inbound, false⟩, ⟨"p", .both, true⟩] M' h H ∧
    run (step World.idle M' 0 h) (H.m + 26) (startAt 0) = some (H.outcome World.idle) := by
  have hf : (bufferModule .int32Ty).functions[0]? = some (bufferFunction .int32Ty) := rfl
  obtain ⟨M', hok⟩ := encapsulate_buffer (.inr rfl) [⟨"i", .inbound, false⟩, ⟨"p", .both, true⟩]
  obtain ⟨h, H, hb, hrun⟩ := run_eq_outcome hf rfl (by decide) (.of_free (by decide)) hok
  exact ⟨M', h, H, hb, (hrun World.idle (H.m + 26)).1 (by
    show 6 * (2 : BitVec 32).toNat + H.m + 14 ≤ H.m + 26
    have : (2 : BitVec 32).toNat = 2 := rfl
    omega)⟩

end Ephippion
