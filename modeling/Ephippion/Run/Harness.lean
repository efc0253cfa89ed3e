import Ephippion.Harness.Graph
import Ephippion.Run.Checks
import Ephippion.Run.Loop

/-!
# A run of the harness

The stages of a run put together. `HarnessAt.sequence_run` is one sequence of calls, from its setup
block to the next stage; `HarnessAt.checks_end` the checks to the end of the run. The blocks are
visited in the order of `Harness.rank` (`HarnessAt.step_rank`), so a stage is entered once
(`HarnessAt.once`).
-/

namespace Ephippion

open ObjMem (Mem)
open Sequence Machine

section
variable {h F : Nat} {f : Function} {n : IterationsNumTy} {specs : List ArgSpec} {H : Harness}
  {M' : Module} {W : World}

/-! ## The order of the blocks -/

def AtBlock (H : Harness) (s : Config) : Prop := ∃ B, H.Valid B ∧ s.block = H.id B

def rankOf (H : Harness) (s : Config) : Nat := H.rank (Harness.blockAt H.m (s.block - H.base))

theorem rankOf_eq {B : HBlock} (hB : H.Valid B) {s : Config} (hs : s.block = H.id B) :
    rankOf H s = H.rank B := by
  rw [rankOf, hs, Harness.blockAt_id hB]

theorem HarnessAt.step_succ (hat : HarnessAt h F f n specs H M') {B : HBlock} (hB : H.Valid B)
    {s s' : Config} (hs : s.block = H.id B) (hstep : step W M' F h s = .inl s') :
    s'.prev = H.id B ∧ ∃ B' ∈ H.succs B, s'.block = H.id B' := by
  obtain ⟨prev, block, env, c⟩ := s
  subst hs
  rw [hat.step_eq hB] at hstep
  obtain ⟨h1, i, hi, h2⟩ := execInstrs_inl _ _ _ _ hstep
  refine ⟨h1, ?_⟩
  obtain ⟨pre, t, hcode, hpre, -, hsuccs⟩ := (Harness.instrs_endsWith hB).split
  rw [hcode] at hi
  rcases List.mem_append.1 hi with hi | hi
  · have hnone : i.op.succs = [] := by
      have := hpre i hi
      cases hop : i.op <;> simp_all [Op.isTerminator, Op.succs]
      split <;> simp_all
    rw [hnone] at h2
    cases h2
  · rw [List.mem_singleton.1 hi, hsuccs] at h2
    obtain ⟨B', hB', he⟩ := List.mem_map.1 h2
    exact ⟨B', hB', he.symm⟩

theorem HarnessAt.step_rank (hat : HarnessAt h F f n specs H M') (s s' : Config)
    (hs : AtBlock H s) (hstep : step W M' F h s = .inl s') :
    AtBlock H s' ∧ rankOf H s ≤ rankOf H s' := by
  obtain ⟨B, hB, hsB⟩ := hs
  obtain ⟨-, B', hB', hsB'⟩ := hat.step_succ hB hsB hstep
  have hv := Harness.valid_succs hB hB'
  refine ⟨⟨B', hv, hsB'⟩, ?_⟩
  rw [rankOf_eq hB hsB, rankOf_eq hv hsB']
  exact Harness.rank_succs hB hB'

theorem HarnessAt.at_block (hat : HarnessAt h F f n specs H M') {s : Config}
    (hs : Steps (step W M' F h) (startAt H.base) s) : AtBlock H s :=
  (hs.rank_le hat.step_rank ⟨.setup, trivial, rfl⟩).1

/-- A block from which every branch leads to a later part is visited once. -/
theorem HarnessAt.once (hat : HarnessAt h F f n specs H M') {B : HBlock} (hB : H.Valid B)
    (hlt : ∀ B' ∈ H.succs B, H.rank B < H.rank B') {s a b : Config} (hs : AtBlock H s)
    (ha : Steps (step W M' F h) s a) (hb : Steps (step W M' F h) s b) (haB : a.block = H.id B)
    (hbB : b.block = H.id B) : a = b := by
  have hraise : ∀ {x : Config}, x.block = H.id B → ∀ x', step W M' F h x = .inl x' →
      rankOf H x < rankOf H x' := by
    intro x hx x' hstep
    obtain ⟨-, B', hB', hx'⟩ := hat.step_succ hB hx hstep
    rw [rankOf_eq hB hx, rankOf_eq (Harness.valid_succs hB hB') hx']
    exact hlt B' hB'
  apply Steps.once hat.step_rank hs ha hb (hraise haB) (hraise hbB)
  rw [rankOf_eq hB haB, rankOf_eq hB hbB]

/-! ## The stages -/

namespace Copy

/-- What comes after a sequence. -/
def after : Copy → HBlock
  | first => .call2Setup
  | second => .seStart

end Copy

theorem HarnessAt.sequence_run (hat : HarnessAt h F f n specs H M') (hi : TakesIterator f)
    (k : Copy) (prev : Nat) {env : InstRef → Option RVal} {c : Core}
    (hp : Pointers H.base H.slots env) (hst : Stored H.dl H.n H.slots c.mem) :
    match sequence W.call H.refs c.trace.length (H.iterators k) (contents H.slots k c.mem) with
    | none => ∃ s c', Steps (step W M' F h) ⟨prev, H.id k.setup, env, c⟩ s ∧
        s.block = H.id k.body ∧ step W M' F h s = .inr (.stuck c')
    | some bs => ∃ prev' env' c', Steps (step W M' F h) ⟨prev, H.id k.setup, env, c⟩
        ⟨prev', H.id k.after, env', c'⟩ ∧ LoopDone H k (H.iterators k) c bs env' c' := by
  have hn : 2 ≤ H.n.toNat := hat.n_eq ▸ hat.two_le
  have h1 : step W M' F h ⟨prev, H.id k.setup, env, c⟩ =
      .inl ⟨H.id k.setup, H.id k.hdr, env, c⟩ := by
    cases k with
    | first => exact hat.step_eq (B := .call1Setup) trivial W _ _ _
    | second => exact hat.step_eq (B := .call2Setup) trivial W _ _ _
  have hloop := hat.loop_run (W := W) hi k (H.iterators_counts hn k) (.inl ⟨rfl, rfl⟩) hp hst
  cases hs : sequence W.call H.refs c.trace.length (H.iterators k) (contents H.slots k c.mem) with
  | none =>
    rw [hs] at hloop
    obtain ⟨s, c', hsteps, hb, hend⟩ := hloop
    exact ⟨s, c', .head h1 hsteps, hb, hend⟩
  | some bs =>
    rw [hs] at hloop
    obtain ⟨env', c', hsteps, hdone⟩ := hloop
    have hexit : ∃ prev', Steps (step W M' F h) ⟨H.id k.hdr, H.id k.exit, env', c'⟩
        ⟨prev', H.id k.after, env', c'⟩ := by
      cases k with
      | first => exact ⟨_, .head (hat.step_eq (B := .exit1) trivial W _ _ _)
          (.single (hat.step_eq (B := .call1Teardown) trivial W _ _ _))⟩
      | second => exact ⟨_, .head (hat.step_eq (B := .exit2) trivial W _ _ _)
          (.single (hat.step_eq (B := .call2Teardown) trivial W _ _ _))⟩
    obtain ⟨prev', hexit⟩ := hexit
    exact ⟨prev', env', c', .head h1 (hsteps.trans hexit), hdone⟩

/-- If the calls return, the run gets to the second sequence. -/
theorem HarnessAt.second_run (hat : HarnessAt h F f n specs H M') (hlink : H.Linked F)
    (hi : TakesIterator f) (hW : W.Returns) :
    ∃ s, Steps (step W M' F h) (startAt H.base) s ∧ s.block = H.id .call2Setup := by
  obtain ⟨env, c, h0, hs⟩ := hat.setup_run hlink W
  obtain ⟨bs, hbs⟩ := sequence_isSome H.refs hW (H.iterators .first) c.trace.length
    (contents H.slots .first c.mem)
  have h1 := hat.sequence_run (W := W) hi .first (H.id .seSetup) hs.pointers
    hs.prepared.stored
  rw [hbs] at h1
  obtain ⟨prev', env', c', h1, -⟩ := h1
  exact ⟨_, h0.trans h1, rfl⟩

theorem HarnessAt.checks_end (hat : HarnessAt h F f n specs H M') (hlink : H.Linked F)
    (prev : Nat) {env : InstRef → Option RVal} {c : Core} (hp : Pointers H.base H.slots env)
    (hst : Stored H.dl H.n H.slots c.mem) :
    ∃ o, Halts (step W M' F h) ⟨prev, H.id .seStart, env, c⟩ o ∧
      (∀ b, callsOf b o.core.trace = callsOf b c.trace) ∧
      match verdict H.dl H.n c.mem H.checked with
      | some true => ∃ prev' env' c' env'' c'',
          Steps (step W M' F h) ⟨prev, H.id .seStart, env, c⟩ ⟨prev', H.id .seEnd, env', c'⟩ ∧
            c'.mem = c.mem ∧ Pointers H.base H.slots env' ∧
            Steps (step W M' F h) ⟨prev', H.id .seEnd, env', c'⟩
              ⟨H.id .teardown, H.id .exit, env'', c''⟩ ∧ o = .returned (.int 0) c''
      | some false => ∃ c', o = .failed c'
      | none => ∃ c', o = .stuck c' := by
  have h1 : step W M' F h ⟨prev, H.id .seStart, env, c⟩ =
      .inl ⟨H.id .seStart, nextBlock (H.base + 12) H.m (H.id .seEnd) 0, env, c⟩ :=
    hat.step_eq (B := .seStart) trivial W _ _ _
  have hrun := hat.checks_run (W := W) hlink H.checked 0 rfl (H.id .seStart) env c hp
  cases hv : verdict H.dl H.n c.mem H.checked with
  | none =>
    rw [hv] at hrun
    obtain ⟨c', hh, ht⟩ := hrun
    exact ⟨_, Steps.halts (.single h1) hh, ht, c', rfl⟩
  | some eq =>
    rw [hv] at hrun
    cases eq with
    | false =>
      obtain ⟨c', hh, ht⟩ := hrun
      exact ⟨_, Steps.halts (.single h1) hh, ht, c', rfl⟩
    | true =>
      obtain ⟨prev', env', c', hsteps, hm, hp', ht⟩ := hrun
      obtain ⟨env'', c'', hh, ht'⟩ := hat.teardown_run (W := W) prev' hlink hp'
        (by rw [hm]; exact hst)
      have hall : Steps (step W M' F h) ⟨prev, H.id .seStart, env, c⟩
          ⟨prev', H.id .seEnd, env', c'⟩ := .head h1 hsteps
      exact ⟨_, hall.halts ⟨_, hh, hat.exit_step _⟩, fun b => (ht' b).trans (ht b), prev', env', c',
        env'', c'', hall, hm, hp', hh, rfl⟩

/-- A run that ends well has passed all checks when it gets to their end. -/
theorem HarnessAt.passed_checks (hat : HarnessAt h F f n specs H M') (hlink : H.Linked F)
    (hi : TakesIterator f) {s : Config} (hs : Steps (step W M' F h) (startAt H.base) s)
    (hb : s.block = H.id .seEnd) {v : RVal} {c : Core}
    (hend : Halts (step W M' F h) s (.returned v c)) :
    Pointers H.base H.slots s.env ∧ Stored H.dl H.n H.slots s.core.mem ∧ ∀ t ∈ H.checked,
      ObjMem.cmp s.core.mem (t.obj .first) (t.obj .second) (t.comparedSize H.dl H.n).toNat =
        some true := by
  have hstart : AtBlock H (startAt H.base) := ⟨.setup, trivial, rfl⟩
  have hret := hs.halts hend
  obtain ⟨env, c₀, h0, hset⟩ := hat.setup_run hlink W
  -- a sequence that is not finished ends the run otherwise
  have hseq : ∀ {k : Copy} {prev : Nat} {env : InstRef → Option RVal} {c : Core},
      Steps (step W M' F h) (startAt H.base) ⟨prev, H.id k.setup, env, c⟩ →
      Pointers H.base H.slots env → Stored H.dl H.n H.slots c.mem →
      ∃ prev' env' c', Steps (step W M' F h) (startAt H.base) ⟨prev', H.id k.after, env', c'⟩ ∧
        Pointers H.base H.slots env' ∧ Stored H.dl H.n H.slots c'.mem := by
    intro k prev env c h1 hp hst
    have hrun := hat.sequence_run (W := W) hi k prev hp hst
    cases hq : sequence W.call H.refs c.trace.length (H.iterators k)
        (contents H.slots k c.mem) with
    | none =>
      rw [hq] at hrun
      obtain ⟨s', c', h2, -, h3⟩ := hrun
      cases hret.unique (h1.halts ⟨s', h2, h3⟩)
    | some bs =>
      rw [hq] at hrun
      obtain ⟨prev', env', c', h2, hd⟩ := hrun
      exact ⟨prev', env', c', h1.trans h2, hd.pointers, hd.stored⟩
  obtain ⟨_, _, _, h1, hp₁, hst₁⟩ := hseq (k := .first) h0 hset.pointers hset.prepared.stored
  obtain ⟨prev₂, env₂, c₂, h2, hp₂, hst₂⟩ := hseq (k := .second) h1 hp₁ hst₁
  obtain ⟨o, h3, -, hv⟩ := hat.checks_end (W := W) hlink prev₂ hp₂ hst₂
  obtain rfl := hret.unique (h2.halts h3)
  cases hverd : verdict H.dl H.n c₂.mem H.checked with
  | none =>
    rw [hverd] at hv
    obtain ⟨c', hc'⟩ := hv
    cases hc'
  | some eq =>
    rw [hverd] at hv
    cases eq with
    | false =>
      obtain ⟨c', hc'⟩ := hv
      cases hc'
    | true =>
      obtain ⟨prev', env', c', -, -, h4, hm, hp', -, -⟩ := hv
      have heq : s = ⟨prev', H.id .seEnd, env', c'⟩ := by
        refine hat.once (B := .seEnd) trivial (fun B' hB' => ?_) hstart hs (h2.trans h4) hb rfl
        rw [List.mem_singleton.1 hB']
        simp [Harness.rank]
      subst heq
      exact ⟨hp', by rw [hm]; exact hst₂, by rw [hm]; exact verdict_eq_true.1 hverd⟩

end

end Ephippion
