import Ephippion.IR.Concrete
import Ephippion.Proof.Loop
import Ephippion.Run.Header

/-!
# What a created loop counts

The loop `createLoop` builds around one open block, for any two different bounds and any step but 0:
its rounds have the counters from the start bound on, none of them wraps, and unless the body ends
the run, it is left through the exit block (`createLoop_counts`).
-/

namespace Ephippion

open Machine

/-- A loop around `body` whose rounds have the counters `vs`. -/
structure CountedLoop (M' : Module) (h hdr body preheader postexit : Nat)
    (start stop step' : BitVec 32) (ind : Value) (vs : List (BitVec 64)) : Prop where
  counters : LoopCounters start stop step' vs
  /-- The latch's addition or subtraction wraps in no round. -/
  latch : M'.instrs h (hdr + 1) =
    [⟨(LoopDirection.of start stop).stepOp ind step', ""⟩, ⟨.br hdr, ""⟩]
  no_wrap : ∀ v ∈ vs, (LoopDirection.of start stop).wraps step' v = false
  /-- From the preheader on the rounds are made in order, and the run ends at the latest behind the
  last one or in a body. -/
  ends : ∀ (W : World) (F : Nat) (s₀ s₁ : Config), s₀.block = preheader →
    step W M' F h s₀ = .inl s₁ → s₁.block = hdr ∧
      (LeavesAfter W M' F h hdr body ind postexit s₁ vs ∨
        ∃ j v, vs[j]? = some v ∧ EndsAfter W M' F h hdr body ind s₁ (vs.take j) v)
  /-- If the body always comes to its end, all rounds are made. -/
  leaves : ∀ (W : World) (F : Nat) (s₀ s₁ : Config), s₀.block = preheader →
    step W M' F h s₀ = .inl s₁ →
    (∀ s, Steps (step W M' F h) s₁ s → s.block = body → ∃ s', step W M' F h s = .inl s') →
    LeavesAfter W M' F h hdr body ind postexit s₁ vs

section
variable {M : Module} {h body preheader : Nat} {start stop step' : BitVec 32}

theorem LoopBuilt.loopCode {postexit : Nat} {M' : Module} {ind : Value} {name : String}
    (hl : LoopBuilt h [body] preheader postexit start stop step' M M' ind name)
    (hbody : body < (M.blocks h).length) (hpre : preheader < (M.blocks h).length)
    (hne : preheader ≠ body) (hopen : IsOpen (M.instrs h body)) :
    LoopCode M' h (M.blocks h).length body preheader postexit start stop step' name
      (M.instrs h body) where
  hdr_code := hl.hdr body rfl
  latch_code := hl.latch
  exit_code := hl.exit
  body_code := by
    rw [hl.old body hbody hne.symm, if_pos (List.mem_singleton_self body), closedBody_open hopen]
  plain := hopen
  body_lt := hbody
  pre_lt := hpre

/-- What the loop around one block counts. -/
theorem createLoop_counts (postexit : Nat) (hbody : body < (M.blocks h).length)
    (hpre : preheader < (M.blocks h).length) (hne : preheader ≠ body)
    (hopen : IsOpen (M.instrs h body)) (hopen' : IsOpen (M.instrs h preheader))
    (hbounds : start ≠ stop) (hstep : 1 ≤ step'.toNat) :
    ∃ M' ind vs, createLoop M h [body] preheader postexit start stop step' = .ok (M', ind) ∧
      CountedLoop M' h (M.blocks h).length body preheader postexit start stop step' ind vs := by
  obtain ⟨M', ind, name, hok, hl⟩ := createLoop_spec M h [body] preheader postexit step'
    (List.cons_ne_nil _ _) (by simpa using hbody) hpre (by simpa using hne) hbounds
  have hcode := hl.loopCode hbody hpre hne hopen
  obtain ⟨vs, hcounts, hvs, hwraps⟩ := LoopDirection.counts hbounds hstep
  obtain rfl := hl.ind
  have hends : ∀ (W : World) (F : Nat) (s₀ s₁ : Config), s₀.block = preheader →
      step W M' F h s₀ = .inl s₁ → s₁.block = (M.blocks h).length ∧
        (LeavesAfter W M' F h (M.blocks h).length body (indVar (M.blocks h).length name) postexit s₁
          vs ∨ ∃ j v, vs[j]? = some v ∧ EndsAfter W M' F h (M.blocks h).length body
            (indVar (M.blocks h).length name) s₁ (vs.take j) v) := by
    rintro W F ⟨prev, block, env, c⟩ s₁ rfl hs₁
    rw [step, hl.pre] at hs₁
    rcases runs_or_ends W M' F block prev _ 0 env c hopen'
      with ⟨env', c', hrun⟩ | hend
    · rw [hrun.execInstrs] at hs₁
      cases hs₁
      exact ⟨rfl, hcode.rounds hcounts (.inl ⟨rfl, rfl⟩)⟩
    · obtain ⟨o, ho, -⟩ := hend [⟨.br (M.blocks h).length, ""⟩]
      rw [ho] at hs₁
      cases hs₁
  refine ⟨M', _, vs, hok, hvs, hl.latch, hwraps, hends, fun W F s₀ s₁ hs₀ hs₁ hreturns => ?_⟩
  rcases (hends W F s₀ s₁ hs₀ hs₁).2 with hleaves | ⟨j, v, -, ts, s', o, htr, -, -, hb, -, ho⟩
  · exact hleaves
  · obtain ⟨s'', hs''⟩ := hreturns s' htr.steps hb
    rw [ho] at hs''
    cases hs''

end

/-- A block that calls `f`, from 7 down to 0 by 3. -/
theorem createLoop_counts_down : ∃ M' ind vs,
    createLoop openModule 0 [1] 0 2 7 0 3 = .ok (M', ind) ∧
      CountedLoop M' 0 3 1 0 2 7 0 3 ind vs :=
  createLoop_counts 2 (by decide) (by decide) (by decide) (by unfold IsOpen; decide)
    (by unfold IsOpen; decide) (by decide) (by decide)

end Ephippion
