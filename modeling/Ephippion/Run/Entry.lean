import Ephippion.Proof.Encapsulate
import Ephippion.Run.Harness

/-!
# Running a harness from its entry

A call of the harness function starts at its first block. That is the generated setup block exactly
if the function had no body before. If it had one the run stays in it (`HarnessBuilt.trapped`): no
branch of the old code leads to a new block.
-/

namespace Ephippion

open Machine

/-- Every branch of a function goes to a block of it. -/
def Module.BranchesInside (M : Module) : Prop :=
  ∀ f ∈ M.functions, ∀ b ∈ f.blocks, ∀ i ∈ b.instrs, ∀ d ∈ i.op.succs, d < f.blocks.length

instance (M : Module) : Decidable M.BranchesInside :=
  inferInstanceAs (Decidable (∀ f ∈ M.functions, ∀ b ∈ f.blocks, ∀ i ∈ b.instrs,
    ∀ d ∈ i.op.succs, d < f.blocks.length))

theorem Module.BranchesInside.lt {M : Module} (hM : M.BranchesInside) {h b : Nat} {i : Instr}
    (hi : i ∈ M.instrs h b) {d : Nat} (hd : d ∈ i.op.succs) : d < (M.blocks h).length := by
  rw [Module.instrs, Module.blocks] at hi
  rw [Module.blocks]
  cases hf : M.functions[h]? with
  | none => simp [hf] at hi
  | some f =>
    simp only [hf, Option.map_some, Option.getD_some] at hi ⊢
    cases hb : f.blocks[b]? with
    | none => simp [hb] at hi
    | some B =>
      simp only [hb, Option.map_some, Option.getD_some] at hi
      exact hM f (List.mem_of_getElem? hf) B (List.mem_of_getElem? hb) i hi d hd

/-- A world of zeros, in which the function does nothing. -/
def World.idle : World where
  fresh _ _ := 0
  symbol _ _ := 0
  call _ _ bs := some bs
  shape := shape_same

theorem World.idle_returns : World.idle.Returns := fun _ _ _ => rfl

/-- The calls write to outbound arguments only; `specs` has the iterator's specification first. -/
def World.WritesOutbound (W : World) (specs : List ArgSpec) : Prop :=
  ∀ t v bs bs', W.call t v bs = some bs' → ∀ i spec, specs[i + 1]? = some spec →
    isOutbound spec.direction = false → bs'[i]? = bs[i]?

theorem World.WritesOutbound.spares {W : World} {specs : List ArgSpec} (hW : W.WritesOutbound specs)
    {i : Nat} {spec : ArgSpec} (hs : specs[i]? = some spec)
    (hout : isOutbound spec.direction = false) : i = 0 ∨ Sequence.Spares W.call (i - 1) := by
  cases i with
  | zero => exact .inl rfl
  | succ i => exact .inr fun t v bs bs' hc => hW t v bs bs' hc i spec hs hout

theorem callsOf_of_steps {W : World} {M : Module} {F h b : Nat} {P : Config → Prop}
    (hP : ∀ s s', P s → step W M F h s = .inl s' → P s') (hb : ∀ s, P s → s.block ≠ b)
    {s : Config} (hs : P s) :
    (∀ s', Steps (step W M F h) s s' → callsOf b s'.core.trace = callsOf b s.core.trace) ∧
      ∀ o, Halts (step W M F h) s o → callsOf b o.core.trace = callsOf b s.core.trace := by
  have hstep : ∀ s, P s → callsOf b (coreOf (step W M F h s)).trace = callsOf b s.core.trace :=
    fun s hs => step_callsOf (hb s hs).symm
  have key : ∀ s', Steps (step W M F h) s s' →
      P s' ∧ callsOf b s'.core.trace = callsOf b s.core.trace := by
    intro s' hsteps
    induction hsteps with
    | refl => exact ⟨hs, rfl⟩
    | head h1 _ ih =>
      obtain ⟨h2, h3⟩ := ih (hP _ _ hs h1)
      have := hstep _ hs
      rw [h1] at this
      exact ⟨h2, h3.trans this⟩
  refine ⟨fun s' h => (key s' h).2, fun o ⟨s', h, ho⟩ => ?_⟩
  obtain ⟨hs', ht⟩ := key s' h
  have := hstep s' hs'
  rw [ho] at this
  exact this.trans ht

section
variable {h F : Nat} {f : Function} {n : IterationsNumTy} {specs : List ArgSpec} {H : Harness}
  {M' : Module} {W : World}

/-- If the first parameter is not the iterator's, the run does not get past the first call. -/
theorem HarnessAt.before_calls (hat : HarnessAt h F f n specs H M') (hi : ¬ TakesIterator f)
    {s : Config} (hs : Steps (step W M' F h) (startAt H.base) s) :
    ∃ B, H.Valid B ∧ s.block = H.id B ∧ H.rank B ≤ 3 := by
  let P (s : Config) : Prop :=
    (∃ B, (B = .setup ∨ B = .seSetup ∨ B = .call1Setup ∨ B = .call1) ∧ s.block = H.id B) ∨
      s.block = H.id .hdr1 ∧ s.prev = H.id .call1Setup
  have hP : P s := by
    refine hs.inv (fun s s' hs hstep => ?_) (.inl ⟨.setup, .inl rfl, rfl⟩)
    rcases hs with ⟨B, hB, hsB⟩ | ⟨hsB, hprev⟩
    · rcases hB with rfl | rfl | rfl | rfl
      · obtain ⟨-, B', hB', hs'⟩ := hat.step_succ (B := .setup) trivial hsB hstep
        rw [List.mem_singleton.1 hB'] at hs'
        exact .inl ⟨_, .inr (.inl rfl), hs'⟩
      · obtain ⟨-, B', hB', hs'⟩ := hat.step_succ (B := .seSetup) trivial hsB hstep
        rw [List.mem_singleton.1 hB'] at hs'
        exact .inl ⟨_, .inr (.inr (.inl rfl)), hs'⟩
      · obtain ⟨hp, B', hB', hs'⟩ := hat.step_succ (B := .call1Setup) trivial hsB hstep
        rw [List.mem_singleton.1 hB'] at hs'
        exact .inr ⟨hs', hp⟩
      · obtain ⟨prev, block, env, c⟩ := s
        subst hsB
        rw [show H.id .call1 = H.id (Copy.body .first) from rfl, hat.call_stuck prev hi] at hstep
        cases hstep
    · obtain ⟨prev, block, env, c⟩ := s
      subst hsB hprev
      obtain ⟨env', h1, -⟩ := hat.hdr_step (W := W) _ (c := c) .first
        (.inl ⟨rfl, rfl⟩ : EntersWith H .first (H.id .call1Setup) env _)
      rw [H.test_start (hat.n_eq ▸ hat.two_le), if_pos rfl] at h1
      have he := hstep.symm.trans h1
      cases he
      exact .inl ⟨.call1, .inr (.inr (.inr rfl)), rfl⟩
  rcases hP with ⟨B, rfl | rfl | rfl | rfl, hB⟩ | ⟨hB, -⟩
  · exact ⟨.setup, trivial, hB, by simp [Harness.rank]⟩
  · exact ⟨.seSetup, trivial, hB, by simp [Harness.rank]⟩
  · exact ⟨.call1Setup, trivial, hB, by simp [Harness.rank]⟩
  · exact ⟨.call1, trivial, hB, Nat.le_refl _⟩
  · exact ⟨.hdr1, trivial, hB, Nat.le_refl _⟩

end

section
variable {senc : SymbolicEncapsulation} {M M' : Module} {F : Nat} {f : Function}
  {n : IterationsNumTy} {specs : List ArgSpec} {h : Nat} {H : Harness}

namespace HarnessBuilt

theorem linked (hb : HarnessBuilt senc M F f n specs M' h H) (hf : M.functions[F]? = some f)
    (hi : TakesIterator f) : H.Linked F := hb.here.linked (hb.sig_encapsulated hf).2.2 hi

theorem trapped_step (hb : HarnessBuilt senc M F f n specs M' h H) (hM : M.BranchesInside)
    {W : World} (s s' : Config) (hs : s.block < H.base) (hstep : step W M' F h s = .inl s') :
    s'.block < H.base := by
  obtain ⟨-, i, hi, hd⟩ := execInstrs_inl _ _ _ _ hstep
  rw [hb.old _ hs] at hi
  rw [hb.base_eq]
  exact hM.lt hi hd

/-- A harness that is added to a body is not run. -/
theorem trapped (hb : HarnessBuilt senc M F f n specs M' h H) (hM : M.BranchesInside) {W : World}
    (h0 : H.base ≠ 0) {s : Config} (hs : Steps (step W M' F h) (startAt 0) s) :
    s.block < H.base :=
  hs.inv (hb.trapped_step hM) (Nat.pos_of_ne_zero h0)

end HarnessBuilt

end

end Ephippion
