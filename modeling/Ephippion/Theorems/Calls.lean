import Ephippion.Run.Entry
import Ephippion.Theorems.Frame

/-!
# The calls of a harness

Run from its entry, a harness calls the encapsulated function with the iterators `0, …, N - 1` and
then with `N - 1, …, 0` exactly if there are at least two iterations, the first parameter is the
iterator's and the harness is not appended to an older body (`callsInOrder_iff`). With one
iteration, which is the option's default, nothing is generated: the second loop would be one from
0 to 0.
-/

namespace Ephippion

open SymbolicEncapsulation Sequence Counted Machine

/-- A generation completes, and every run of the harness calls `F` in the order of the two loops. -/
def CallsInOrder (senc : SymbolicEncapsulation) (M : Module) (F : Nat) (f : Function)
    (n : IterationsNumTy) (specs : List ArgSpec) : Prop :=
  ∃ M' h H, senc.encapsulate M F n specs = .ok (M', true) ∧
    HarnessBuilt senc M F f n specs M' h H ∧
    ∀ W : World, W.Returns → ∃ o, Halts (step W M' F h) (startAt 0) o ∧
      callsOf (H.id .call1) o.core.trace = upTo 64 n.toNat ∧
      callsOf (H.id .call2) o.core.trace = (upTo 64 n.toNat).reverse

section
variable {h F : Nat} {f : Function} {n : IterationsNumTy} {specs : List ArgSpec} {H : Harness}
  {M' : Module}

theorem HarnessAt.calls_run (hat : HarnessAt h F f n specs H M') (hlink : H.Linked F)
    (hi : TakesIterator f) {W : World} (hW : W.Returns) :
    ∃ o, Halts (step W M' F h) (startAt H.base) o ∧
      ∀ k : Copy, callsOf (H.id k.body) o.core.trace = H.iterators k := by
  obtain ⟨env, c, h0, hs⟩ := hat.setup_run hlink W
  obtain ⟨bs₁, hb₁⟩ := sequence_isSome H.refs hW (H.iterators .first) c.trace.length
    (contents H.slots .first c.mem)
  have h1 := hat.sequence_run (W := W) hi .first (H.id .seSetup) hs.pointers
    hs.prepared.stored
  rw [hb₁] at h1
  obtain ⟨prev₁, env₁, c₁, h1, hd₁⟩ := h1
  obtain ⟨bs₂, hb₂⟩ := sequence_isSome H.refs hW (H.iterators .second) c₁.trace.length
    (contents H.slots .second c₁.mem)
  have h2 := hat.sequence_run (W := W) hi .second prev₁ hd₁.pointers hd₁.stored
  rw [hb₂] at h2
  obtain ⟨prev₂, env₂, c₂, h2, hd₂⟩ := h2
  obtain ⟨o, h3, hcalls, -⟩ := hat.checks_end (W := W) hlink prev₂ hd₂.pointers hd₂.stored
  refine ⟨o, (h0.trans (h1.trans h2)).halts h3, fun k => ?_⟩
  have hne : H.id .call1 ≠ H.id .call2 := by simp [Harness.id]
  rw [hcalls, hd₂.calls, hd₁.calls, hs.trace]
  cases k with
  | first => simp [Copy.body, hne]
  | second => simp [Copy.body, hne.symm]

/-- If the first parameter is not the iterator's there is no call. -/
theorem HarnessAt.no_calls (hat : HarnessAt h F f n specs H M') (hi : ¬ TakesIterator f)
    {W : World} (k : Copy) {o : Outcome} (ho : Halts (step W M' F h) (startAt H.base) o) :
    callsOf (H.id k.body) o.core.trace = [] := by
  have hkeep : ∀ s, callsOf (H.id k.body) s.core.trace = [] →
      callsOf (H.id k.body) (coreOf (step W M' F h s)).trace = [] := by
    intro s hs
    by_cases hb : H.id k.body = s.block
    · obtain ⟨prev, block, env, c⟩ := s
      subst hb
      rw [hat.call_stuck _ hi k]
      exact hs
    · rw [step_callsOf hb, hs]
  obtain ⟨s', hsteps, hend⟩ := ho
  have hs' : callsOf (H.id k.body) s'.core.trace = [] :=
    hsteps.inv (P := fun s => callsOf (H.id k.body) s.core.trace = []) (fun s s₁ hs h1 => by
      have := hkeep s hs
      rw [h1] at this
      exact this) rfl
  have := hkeep s' hs'
  rw [hend] at this
  exact this

end

section
variable {senc : SymbolicEncapsulation} {M : Module} {F : Nat} {f : Function}
  {n : IterationsNumTy} {specs : List ArgSpec}

/-- The calls are right exactly for two iterations and more, a function that takes the iterator
and a harness of its own. -/
theorem callsInOrder_iff (hf : M.functions[F]? = some f) (hdef : f.isDeclaration = false)
    (he : Encapsulable senc M f) (hM : M.BranchesInside) (hn : 1 ≤ n.toNat) :
    CallsInOrder senc M F f n specs ↔
      2 ≤ n.toNat ∧ TakesIterator f ∧ HarnessBodiless senc M f := by
  constructor
  · intro hx
    obtain ⟨M', h, H, hok, hb, hruns⟩ := hx
    obtain ⟨o, ho, h1, -⟩ := hruns World.idle World.idle_returns
    have hcalls : callsOf (H.id .call1) o.core.trace ≠ [] := by
      rw [h1]
      intro hnil
      have := congrArg List.length hnil
      rw [length_upTo] at this
      simp at this
      omega
    have hbase : H.base = 0 := by
      by_contra h0
      refine hcalls ((callsOf_of_steps (P := fun s => s.block < H.base) (hb.trapped_step hM)
        (fun s hs => ?_) (Nat.pos_of_ne_zero h0)).2 o ho)
      simp only [Harness.id]
      omega
    refine ⟨hb.here.two_le, ?_, hb.bodiless_iff.2 hbase⟩
    by_contra hi
    rw [← hbase] at ho
    exact hcalls (hb.here.no_calls hi .first ho)
  · intro hx
    obtain ⟨h2, hi, hbl⟩ := hx
    obtain ⟨M', hok⟩ := encapsulate_progress specs hf hdef ⟨he, h2⟩
    obtain ⟨-, -, h, H, hb⟩ := encapsulate_of_ok hf hdef hok
    refine ⟨M', h, H, hok, hb, fun W hW => ?_⟩
    obtain ⟨o, ho, hcalls⟩ := hb.here.calls_run (hb.linked hf hi) hi hW
    rw [hb.bodiless_iff.1 hbl] at ho
    have hneq := hb.here.n_eq
    exact ⟨o, ho, by rw [← hneq]; exact hcalls .first, by rw [← hneq]; exact hcalls .second⟩

end

theorem callsInOrder_plain :
    CallsInOrder {} plainModule 0 (emptyFunction "f" [⟨"", .int64Ty⟩]) 2 [] :=
  (callsInOrder_iff rfl rfl plainModule_buildable.toEncapsulable (by decide) (by decide)).2
    ⟨by decide, by decide, .of_free (by decide)⟩

/-- One iteration, the default: nothing is generated. -/
theorem not_callsInOrder_one :
    ¬ CallsInOrder {} plainModule 0 (emptyFunction "f" [⟨"", .int64Ty⟩]) 1 [] := by
  intro hx
  obtain ⟨M', h, H, -, hb, -⟩ := hx
  exact absurd hb.here.two_le (by decide)

end Ephippion
