import Ephippion.Lib.Refines
import Ephippion.Run.Events
import Ephippion.Run.Lockstep
import Ephippion.Theorems.LoopGraph

/-!
# A created loop iterates its body

`createLoop` makes a loop of any blocks that come to the end of an open one of them: if in the
function as it was they do `g` for the counter `v`, the loop does it for each of its counters, in
order (`createLoop_iterates`). The body may have branches and loops of its own, and the run may end
in it.
-/

namespace Ephippion

open Counted Machine

/-- Run from `s`, the blocks `body` do what a program of result `r` does: the run comes to the end
of an open one, or ends. `R` relates values to environments and cores. -/
def BodyDoes {α : Type} (W : World) (M : Module) (F h : Nat) (body : List Nat)
    (R : α → (InstRef → Option RVal) → Core → Prop) (s : Config) : Except Outcome α → Prop
  | .ok a => ∃ s' env c, Steps (step W M F h) s s' ∧ s'.block ∈ body ∧
      IsOpen (M.instrs h s'.block) ∧
      Runs W M F s'.block s'.prev (M.instrs h s'.block) 0 s'.env s'.core env c ∧ R a env c
  | .error o => ∃ s', Steps (step W M F h) s s' ∧ ∀ rest,
      execInstrs W M F s'.block s'.prev (M.instrs h s'.block ++ rest) 0 s'.env s'.core = .inr o

/-- A loop around `body`, run from the preheader, does `g` for each of `vs`. What `R` says must be
about values the function had before. -/
def LoopIterates (W : World) (M M' : Module) (F h : Nat) (body : List Nat) (body0 preheader
    postexit : Nat) (ind : Value) (vs : List (BitVec 64)) : Prop :=
  ∀ {α : Type} (g : α → BitVec 64 → Except Outcome α)
    (R : α → (InstRef → Option RVal) → Core → Prop),
    (∀ a env env' c, (∀ r : InstRef, r.block < (M.blocks h).length → env' r = env r) →
      R a env c → R a env' c) →
    (∀ v ∈ vs, ∀ a env c, ind.eval env = some (.int v) → R a env c →
      BodyDoes W M F h body R ⟨(M.blocks h).length, body0, env, c⟩ (g a v)) →
    ∀ a (s : Config) env c, s.block = preheader →
      Runs W M F preheader s.prev (M.instrs h preheader) 0 s.env s.core env c → R a env c →
        ∃ k, Refines (step W M' F h) k s (vs.foldlM g a) fun a s =>
          s.block = postexit ∧ R a s.env s.core

/-- The header is entered with the counter `v`, and `a` is what has been done. -/
structure AtHeader {α : Type} (hdr preheader : Nat) (start : BitVec 32)
    (R : α → (InstRef → Option RVal) → Core → Prop) (a : α) (v : BitVec 64) (s : Config) :
    Prop where
  block : s.block = hdr
  enters : Enters hdr preheader start s.prev s.env v
  holds : R a s.env s.core

section
variable {M M' : Module} {h preheader postexit : Nat} {body : List Nat}
  {start stop step' : BitVec 32} {ind : Value} {name : String} {W : World} {F : Nat}

namespace LoopBuilt

variable (hl : LoopBuilt h body preheader postexit start stop step' M M' ind name)
  (hs : LoopSite M h body preheader postexit)

include hl

theorem exec_eq (b prev : Nat) (is : List Instr) (env : InstRef → Option RVal) (c : Core) :
    execInstrs W M' F b prev is 0 env c = execInstrs W M F b prev is 0 env c :=
  execInstrs_anon W b prev hl.builds.ext.dataLayout 0 env c rfl

theorem exists_rest {b : Nat} (hb : b < (M.blocks h).length) :
    ∃ rest, M'.instrs h b = M.instrs h b ++ rest := by
  by_cases hpre : b = preheader
  · exact ⟨_, hpre ▸ hl.pre⟩
  · rw [hl.old b hb hpre]
    by_cases hmem : b ∈ body
    · rw [if_pos hmem, closedBody]
      split
      · exact ⟨_, rfl⟩
      · exact ⟨[], (List.append_nil _).symm⟩
    · exact ⟨[], by rw [if_neg hmem, List.append_nil]⟩

include hs

theorem step_old {s s' : Config} (hstep : step W M F h s = .inl s') :
    step W M' F h s = .inl s' ∧ s.block < (M.blocks h).length := by
  obtain ⟨-, i, hi, hsucc⟩ := execInstrs_inl _ _ _ _ hstep
  have hterm := Op.isTerminator_of_mem_succs hsucc
  have hclosed : ¬ IsOpen (M.instrs h s.block) := fun hopen => by
    rw [hopen i hi] at hterm
    cases hterm
  have hlt : s.block < (M.blocks h).length := by
    by_contra hn
    rw [Module.instrs_of_le (Nat.le_of_not_lt hn)] at hi
    cases hi
  have hcode : M'.instrs h s.block = M.instrs h s.block := by
    have hpre : s.block ≠ preheader := fun he => hclosed (he ▸ hs.pre_open)
    rw [hl.old _ hlt hpre]
    by_cases hmem : s.block ∈ body
    · rw [if_pos hmem, closedBody_terminated ((hs.body_ends _ hmem).resolve_left hclosed)]
    · rw [if_neg hmem]
  refine ⟨?_, hlt⟩
  rw [step, hcode, hl.exec_eq]
  exact hstep

theorem steps_old {s s' : Config} (hsteps : Steps (step W M F h) s s') :
    Steps (step W M' F h) s s' ∧
      ∀ r : InstRef, (M.blocks h).length ≤ r.block → s'.env r = s.env r := by
  induction hsteps with
  | refl => exact ⟨.refl _, fun _ _ => rfl⟩
  | head h1 _ ih =>
    obtain ⟨h1', hlt⟩ := hl.step_old hs h1
    refine ⟨.head h1' ih.1, fun r hr => (ih.2 r hr).trans (step_env h1 (by omega))⟩

/-- With the loop around it the body goes on to the latch. -/
theorem body_refines {α : Type} {R : α → (InstRef → Option RVal) → Core → Prop} {s : Config}
    {r : Except Outcome α} (hd : BodyDoes W M F h body R s r) :
    ∃ k, Refines (step W M' F h) k s r fun a s' => s'.block = (M.blocks h).length + 1 ∧
      s'.env ⟨(M.blocks h).length, 0⟩ = s.env ⟨(M.blocks h).length, 0⟩ ∧ R a s'.env s'.core := by
  cases r with
  | error o =>
    obtain ⟨s', hsteps, hend⟩ := hd
    have hlt : s'.block < (M.blocks h).length := by
      by_contra hn
      have := hend [⟨.br 0, ""⟩]
      rw [Module.instrs_of_le (Nat.le_of_not_lt hn)] at this
      cases this
    obtain ⟨rest, hcode⟩ := hl.exists_rest hlt
    have ho : step W M' F h s' = .inr o := by
      rw [step, hcode, hl.exec_eq]
      exact hend rest
    exact Refines.after_steps (hl.steps_old hs hsteps).1 ⟨1, .ends ho Nat.one_pos⟩
  | ok a =>
    obtain ⟨s', env, c, hsteps, hmem, hopen, hrun, hR⟩ := hd
    obtain ⟨hsteps', henv⟩ := hl.steps_old hs hsteps
    have hlt := hs.body_lt _ hmem
    have hlast : step W M' F h s' = .inl ⟨s'.block, (M.blocks h).length + 1, env, c⟩ := by
      rw [step, hl.body_open hs hmem hopen, hl.exec_eq, hrun.execInstrs]
      rfl
    refine Refines.after_steps hsteps' ⟨1, .head hlast (.pure ⟨rfl, ?_, hR⟩)⟩
    exact (hrun.frame (.inl (Nat.ne_of_gt hlt))).trans (henv _ (Nat.le_refl _))

variable {α : Type} {g : α → BitVec 64 → Except Outcome α}
  {R : α → (InstRef → Option RVal) → Core → Prop} {body0 : Nat}

theorem round_refines (hhead : body.head? = some body0)
    (hR : ∀ a env env' c, (∀ r : InstRef, r.block < (M.blocks h).length → env' r = env r) →
      R a env c → R a env' c) {v : BitVec 64}
    (hbody : ∀ a env c, ind.eval env = some (.int v) → R a env c →
      BodyDoes W M F h body R ⟨(M.blocks h).length, body0, env, c⟩ (g a v)) {a : α} {s : Config}
    (ht : (LoopDirection.of start stop).test (stop.setWidth 64) v = true)
    (hat : AtHeader (M.blocks h).length preheader start R a v s) :
    ∃ k, Refines (step W M' F h) k s (g a v) fun a s =>
      AtHeader (M.blocks h).length preheader start R a
        ((LoopDirection.of start stop).advance step' v) s := by
  obtain ⟨prev, block, env, c⟩ := s
  obtain ⟨hb, he, ha⟩ := hat
  obtain rfl : block = (M.blocks h).length := hb
  have hne : preheader ≠ (M.blocks h).length + 1 := by
    have := hs.pre_lt
    omega
  obtain ⟨env₁, h1, hv₁, hframe₁⟩ :=
    hdrCode_step (W := W) (F := F) (c := c) (hl.hdr body0 hhead) hne he
  rw [ht] at h1
  have ha₁ : R a env₁ c := hR a env env₁ c (fun r hr => hframe₁ r (Nat.ne_of_lt hr)) ha
  have hind : ind.eval env₁ = some (.int v) := by
    rw [hl.ind]
    exact hv₁
  have hlatch : ∀ a₂ (s₂ : Config), s₂.block = (M.blocks h).length + 1 ∧
      s₂.env ⟨(M.blocks h).length, 0⟩ = env₁ ⟨(M.blocks h).length, 0⟩ ∧ R a₂ s₂.env s₂.core →
      ∃ k, Refines (step W M' F h) k s₂ (.ok a₂) fun a s =>
        AtHeader (M.blocks h).length preheader start R a
          ((LoopDirection.of start stop).advance step' v) s := by
    rintro a₂ ⟨prev₂, block₂, env₂, c₂⟩ ⟨hb₂, hv₂, ha₂⟩
    obtain rfl : block₂ = (M.blocks h).length + 1 := hb₂
    obtain ⟨env₃, h3, hv₃, hframe₃⟩ :=
      latchCode_step (W := W) (F := F) prev₂ c₂ hl.latch (hv₂.trans hv₁)
    refine ⟨1, .head h3 (.pure ⟨rfl, .inr ⟨rfl, hv₃⟩, ?_⟩)⟩
    exact hR a₂ env₂ env₃ c₂ (fun r hr => hframe₃ r (by omega)) ha₂
  obtain ⟨k, hk⟩ := Refines.exists_bind (hl.body_refines hs (hbody a env₁ c hind ha₁)) hlatch
  rw [show (g a v >>= fun a => .ok a) = g a v from bind_pure (g a v)] at hk
  exact ⟨k + 1, hk.head h1⟩

theorem exit_refines (hhead : body.head? = some body0)
    (hR : ∀ a env env' c, (∀ r : InstRef, r.block < (M.blocks h).length → env' r = env r) →
      R a env c → R a env' c) {v : BitVec 64} {a : α} {s : Config}
    (ht : (LoopDirection.of start stop).test (stop.setWidth 64) v = false)
    (hat : AtHeader (M.blocks h).length preheader start R a v s) :
    ∃ k, Refines (step W M' F h) k s (.ok a) fun a s => s.block = postexit ∧ R a s.env s.core := by
  obtain ⟨prev, block, env, c⟩ := s
  obtain ⟨hb, he, ha⟩ := hat
  obtain rfl : block = (M.blocks h).length := hb
  have hne : preheader ≠ (M.blocks h).length + 1 := by
    have := hs.pre_lt
    omega
  obtain ⟨env₁, h1, -, hframe₁⟩ :=
    hdrCode_step (W := W) (F := F) (c := c) (hl.hdr body0 hhead) hne he
  rw [ht] at h1
  have h2 : step W M' F h ⟨(M.blocks h).length, (M.blocks h).length + 2, env₁, c⟩ =
      .inl ⟨(M.blocks h).length + 2, postexit, env₁, c⟩ := by
    rw [step, hl.exit]
    rfl
  exact ⟨2, .head h1 (.head h2 (.pure
    ⟨rfl, hR a env env₁ c (fun r hr => hframe₁ r (Nat.ne_of_lt hr)) ha⟩))⟩

theorem iterates (hhead : body.head? = some body0) {vs : List (BitVec 64)}
    (hc : Counts ((LoopDirection.of start stop).test (stop.setWidth 64))
      ((LoopDirection.of start stop).advance step') (start.setWidth 64) vs) :
    LoopIterates W M M' F h body body0 preheader postexit ind vs := by
  intro α g R hR hbody a s env c hblock hrun ha
  have henter : step W M' F h s = .inl ⟨preheader, (M.blocks h).length, env, c⟩ := by
    rw [step, hblock, hl.pre, hl.exec_eq, hrun.execInstrs]
    rfl
  have hentered : AtHeader (M.blocks h).length preheader start R a (start.setWidth 64)
      ⟨preheader, (M.blocks h).length, env, c⟩ := ⟨rfl, .inl ⟨rfl, rfl⟩, ha⟩
  obtain ⟨k, hk⟩ := Refines.counted hc
    (fun v hv _ _ ht hat => hl.round_refines hs hhead hR (hbody v hv) ht hat)
    (fun _ _ _ ht hat => hl.exit_refines hs hhead hR ht hat) hentered
  exact ⟨k + 1, hk.head henter⟩

end LoopBuilt

/-- The loop that is created around blocks does what they do, for each of its counters. -/
theorem createLoop_iterates (hs : LoopSite M h body preheader postexit) (hne : start ≠ stop)
    (hstep : 1 ≤ step'.toNat) :
    ∃ M' ind vs body0, createLoop M h body preheader postexit start stop step' = .ok (M', ind) ∧
      LoopCounters start stop step' vs ∧ body.head? = some body0 ∧
      ∀ W F, LoopIterates W M M' F h body body0 preheader postexit ind vs := by
  obtain ⟨M', ind, name, hok, hl⟩ := createLoop_spec M h body preheader postexit step' hs.body_ne
    hs.body_lt hs.pre_lt hs.not_mem hne
  obtain ⟨vs, hcounts, hvs, -⟩ := LoopDirection.counts hne hstep
  obtain ⟨body0, hhead, -⟩ := hs.exists_head
  exact ⟨M', ind, vs, body0, hok, hvs, hhead, fun W F => hl.iterates hs hhead hcounts⟩

end

/-- Two blocks that do nothing: what a loop around them has done are its counters. -/
theorem createLoop_iterates_branch : ∃ M' ind vs,
    createLoop branchModule 0 [1, 2] 0 3 0 10 3 = .ok (M', ind) ∧ LoopCounters 0 10 3 vs ∧
      ∀ W F, ∃ k, Refines (step W M' F 0) k (startAt 0) (.ok vs) fun _ s => s.block = 3 := by
  have hedges : ∀ a < 4, ∀ b ∈ branchModule.succs 0 a, b < 4 := by decide
  have hends : ∀ b ∈ [1, 2], IsOpen (branchModule.instrs 0 b) ∨
      Terminated (branchModule.instrs 0 b) := by
    intro b hb
    simp only [List.mem_cons, List.not_mem_nil, or_false] at hb
    rcases hb with rfl | rfl
    · exact .inr ⟨[], ⟨.br 2, ""⟩, rfl, .nil, rfl⟩
    · exact .inl .nil
  have hsite : LoopSite branchModule 0 [1, 2] 0 3 := ⟨by decide, by decide, by decide, by decide,
    by decide, .nil, hends, fun a b he => hedges a he.lt b he⟩
  obtain ⟨M', ind, vs, body0, hok, hvs, hhead, hiter⟩ := createLoop_iterates hsite
    (show (0 : BitVec 32) ≠ 10 by decide) (show 1 ≤ (3 : BitVec 32).toNat by decide)
  cases hhead
  have hfold : ∀ (vs done : List (BitVec 64)),
      vs.foldlM (fun a v => .ok (a ++ [v])) done = (.ok (done ++ vs) : Except Outcome _) := by
    intro vs
    induction vs with
    | nil => exact fun done => congrArg Except.ok (List.append_nil done).symm
    | cons v vs ih =>
      intro done
      rw [List.foldlM_cons]
      exact (ih (done ++ [v])).trans (by rw [List.append_assoc]; rfl)
  refine ⟨M', ind, vs, hok, hvs, fun W F => ?_⟩
  obtain ⟨k, hk⟩ := hiter W F (fun a v => .ok (a ++ [v])) (fun _ _ _ => True)
    (fun _ _ _ _ _ _ => trivial)
    (fun v _ a env c _ _ => ⟨⟨1, 2, env, c⟩, env, c, .single rfl,
      List.mem_cons_of_mem _ List.mem_cons_self, .nil, .nil .., trivial⟩)
    [] (startAt 0) _ _ rfl (.nil ..) trivial
  rw [hfold, List.nil_append] at hk
  obtain ⟨ts, s', htr, hlen, hs'⟩ := hk
  exact ⟨k, ts, s', htr, hlen, hs'.1⟩

end Ephippion
