import Ephippion.Run.Call
import Ephippion.Run.Header

/-!
# The loops

A loop of the harness counts (`HarnessAt.hdr_step`, `HarnessAt.latch_step`) and calls the
encapsulated function once a round, so it runs through `Sequence.sequence`
(`HarnessAt.loop_run`). The first loop's iterators are `0, …, N - 1`, the second one's
`N - 1, …, 0` (`iterators_counts`).
-/

namespace Ephippion

open ObjMem (Mem)
open Sequence Counted Machine

namespace Harness

variable (H : Harness)

/-- The bounds `CreateLoop` is given. -/
def start : Copy → BitVec 32
  | .first => 0
  | .second => H.n - 1

def stop : Copy → BitVec 32
  | .first => H.n
  | .second => 0

def direction (k : Copy) : LoopDirection := .of (H.start k) (H.stop k)

theorem instrs_hdr (k : Copy) : H.instrs k.hdr =
    hdrCode (H.id k.hdr) (H.id k.body) (H.id k.setup) (H.start k) (H.stop k) (H.ind k) := by
  cases k <;> rfl

theorem instrs_latch (k : Copy) : H.instrs k.latch =
    latchCode (H.id k.hdr) (H.start k) (H.stop k) 1 (H.ind k) := by
  cases k <;> rfl

theorem id_latch (k : Copy) : H.id k.latch = H.id k.hdr + 1 := by
  cases k <;> rfl

theorem id_exit (k : Copy) : H.id k.exit = H.id k.hdr + 2 := by
  cases k <;> rfl

/-- The iterators of a sequence, in order. -/
def iterators : Copy → List (BitVec 64)
  | .first => upTo 64 H.n.toNat
  | .second => (upTo 64 H.n.toNat).reverse

theorem iterators_counts (hn : 2 ≤ H.n.toNat) (k : Copy) :
    Counts ((H.direction k).test ((H.stop k).setWidth 64)) (H.direction k).next
      ((H.start k).setWidth 64) (H.iterators k) := by
  have hlt := H.n.isLt
  cases k with
  | first =>
    have hd : H.direction .first = .increasing := by
      rw [direction, LoopDirection.of, if_neg]
      simp [start, stop]
    rw [hd]
    simp only [start, stop, ← BitVec.ofNat_toNat 64 H.n]
    exact Counts.up (by omega)
  | second =>
    have hpred : (H.n - 1).toNat = H.n.toNat - 1 := by bv_omega
    have hd : H.direction .second = .decreasing := by
      rw [direction, LoopDirection.of, if_pos]
      simp only [start, stop]
      bv_omega
    rw [hd]
    have hsplit : H.n.toNat = (H.n - 1).toNat + 1 := by omega
    simp only [start, stop, iterators, ← BitVec.ofNat_toNat 64 (H.n - 1)]
    rw [hsplit]
    exact Counts.down (by omega)

theorem length_iterators (k : Copy) : (H.iterators k).length = H.n.toNat := by
  cases k <;> simp [iterators]

theorem test_start (hn : 2 ≤ H.n.toNat) (k : Copy) :
    (H.direction k).test ((H.stop k).setWidth 64) ((H.start k).setWidth 64) = true := by
  have hc := H.iterators_counts hn k
  have hlen := H.length_iterators k
  generalize H.iterators k = vs at hc hlen
  cases hc with
  | done =>
    rw [List.length_nil] at hlen
    omega
  | next ht _ => exact ht

end Harness

section
variable {h F : Nat} {f : Function} {n : IterationsNumTy} {specs : List ArgSpec} {H : Harness}
  {M' : Module} {W : World} (prev : Nat) {env : InstRef → Option RVal} {c : Core} {v : BitVec 64}

/-- The header of a loop is entered with the counter `v`. -/
def EntersWith (H : Harness) (k : Copy) (prev : Nat) (env : InstRef → Option RVal)
    (v : BitVec 64) : Prop :=
  prev = H.id k.setup ∧ v = (H.start k).setWidth 64 ∨
    prev = H.id k.latch ∧ env ⟨H.id k.latch, 0⟩ = some (.int v)

variable {prev} in
theorem enters_iff {k : Copy} : EntersWith H k prev env v ↔
    Enters (H.id k.hdr) (H.id k.setup) (H.start k) prev env v := by
  rw [EntersWith, H.id_latch k, Enters]

theorem HarnessAt.hdr_step (hat : HarnessAt h F f n specs H M') (k : Copy)
    (he : EntersWith H k prev env v) : ∃ env', step W M' F h ⟨prev, H.id k.hdr, env, c⟩ =
      .inl ⟨H.id k.hdr, if (H.direction k).test ((H.stop k).setWidth 64) v then H.id k.body
        else H.id k.exit, env', c⟩ ∧ env' ⟨H.id k.hdr, 0⟩ = some (.int v) ∧
      ∀ r : InstRef, r.block ≠ H.id k.hdr → env' r = env r := by
  have hsetup : H.id k.setup ≠ H.id k.hdr + 1 := by
    cases k <;> simp [Copy.setup, Copy.hdr, Harness.id] <;> omega
  rw [H.id_exit k]
  exact hdrCode_step ((hat.code _ (H.valid_loop k).2.1).trans (H.instrs_hdr k)) hsetup
    (enters_iff.1 he)

theorem HarnessAt.latch_step (hat : HarnessAt h F f n specs H M') (k : Copy)
    (hv : env ⟨H.id k.hdr, 0⟩ = some (.int v)) : ∃ env',
      step W M' F h ⟨prev, H.id k.latch, env, c⟩ = .inl ⟨H.id k.latch, H.id k.hdr, env', c⟩ ∧
      EntersWith H k (H.id k.latch) env' ((H.direction k).next v) ∧
      ∀ r : InstRef, r.block ≠ H.id k.latch → env' r = env r := by
  have hcode : M'.instrs h (H.id k.hdr + 1) = _ :=
    H.id_latch k ▸ (hat.code _ (H.valid_loop k).2.2.1).trans (H.instrs_latch k)
  obtain ⟨env', h1, hv', hframe⟩ := latchCode_step prev c hcode hv
  rw [← H.id_latch k] at h1 hv' hframe
  rw [LoopDirection.advance_one] at hv'
  exact ⟨env', h1, .inr ⟨rfl, hv'⟩, hframe⟩

/-! ## A whole loop -/

/-- The calls of the sequence `k` with the iterators `vs` have left `bs`. -/
structure LoopDone (H : Harness) (k : Copy) (vs : List (BitVec 64)) (c : Core) (bs : Contents)
    (env' : InstRef → Option RVal) (c' : Core) : Prop where
  pointers : Pointers H.base H.slots env'
  stored : Stored H.dl H.n H.slots c'.mem
  contents_eq : contents H.slots k c'.mem = bs
  same : ObjMem.Same (Passed H.slots.tail k) c.mem c'.mem
  time : c'.trace.length = c.trace.length + vs.length
  calls : ∀ b, callsOf b c'.trace = callsOf b c.trace ++ if b = H.id k.body then vs else []

/-- From its header on a loop makes its calls and is left, unless one of them does not return. -/
theorem HarnessAt.loop_run (hat : HarnessAt h F f n specs H M') (hi : TakesIterator f) (k : Copy)
    {vs : List (BitVec 64)} (hc : Counts ((H.direction k).test ((H.stop k).setWidth 64))
      (H.direction k).next v vs) : ∀ {prev : Nat} {env : InstRef → Option RVal} {c : Core},
    EntersWith H k prev env v → Pointers H.base H.slots env → Stored H.dl H.n H.slots c.mem →
    match sequence W.call H.refs c.trace.length vs (contents H.slots k c.mem) with
    | none => ∃ s c', Steps (step W M' F h) ⟨prev, H.id k.hdr, env, c⟩ s ∧
        s.block = H.id k.body ∧ step W M' F h s = .inr (.stuck c')
    | some bs => ∃ env' c', Steps (step W M' F h) ⟨prev, H.id k.hdr, env, c⟩
        ⟨H.id k.hdr, H.id k.exit, env', c'⟩ ∧ LoopDone H k vs c bs env' c' := by
  have hbase : H.base ≠ H.id k.hdr ∧ H.base ≠ H.id k.body ∧ H.base ≠ H.id k.latch := by
    cases k <;> simp [Copy.hdr, Copy.body, Copy.latch, Harness.id] <;> omega
  have hblocks : H.id k.hdr ≠ H.id k.body ∧ H.id k.hdr ≠ H.id k.latch := by
    cases k <;> simp [Copy.hdr, Copy.body, Copy.latch, Harness.id] <;> omega
  induction hc with
  | done ht =>
    intro prev env c he hp hst
    obtain ⟨env₁, h1, -, hframe⟩ := hat.hdr_step (W := W) prev (c := c) k he
    rw [ht] at h1
    exact ⟨env₁, c, .single h1, hp.congr fun i => hframe _ hbase.1, hst, rfl, .refl _ _, rfl,
      fun b => by split <;> simp⟩
  | @next v vs ht _ ih =>
    intro prev env c he hp hst
    obtain ⟨env₁, h1, hv₁, hframe₁⟩ := hat.hdr_step (W := W) prev (c := c) k he
    rw [ht] at h1
    have hp₁ : Pointers H.base H.slots env₁ := hp.congr fun i => hframe₁ _ hbase.1
    have hcall := hat.call_step (W := W) (H.id k.hdr) hi k hp₁ hst hv₁
    rw [Sequence.sequence]
    cases ho : once W.call H.refs c.trace.length v (contents H.slots k c.mem) with
    | none =>
      rw [ho] at hcall
      exact ⟨_, c, .single h1, rfl, hcall⟩
    | some bs =>
      rw [ho] at hcall
      obtain ⟨env₂, c₂, h2, hd⟩ := hcall
      have hp₂ : Pointers H.base H.slots env₂ := hp₁.congr fun i => hd.frame _ hbase.2.1
      have hv₂ : env₂ ⟨H.id k.hdr, 0⟩ = some (.int v) := (hd.frame _ hblocks.1).trans hv₁
      obtain ⟨env₃, h3, he₃, hframe₃⟩ :=
        hat.latch_step (W := W) (H.id k.body) (c := c₂) k hv₂
      have hp₃ : Pointers H.base H.slots env₃ := hp₂.congr fun i => hframe₃ _ hbase.2.2
      obtain ⟨args, htr⟩ := hd.trace
      have hround : Steps (step W M' F h) ⟨prev, H.id k.hdr, env, c⟩
          ⟨H.id k.latch, H.id k.hdr, env₃, c₂⟩ := .head h1 (.head h2 (.single h3))
      have hrest := ih he₃ hp₃ hd.stored
      rw [hd.contents_eq, htr, List.length_append, List.length_singleton] at hrest
      rw [Option.bind_some]
      cases hs : sequence W.call H.refs (c.trace.length + 1) vs bs with
      | none =>
        rw [hs] at hrest
        obtain ⟨s, c', hsteps, hb, hend⟩ := hrest
        exact ⟨s, c', hround.trans hsteps, hb, hend⟩
      | some bs' =>
        rw [hs] at hrest
        obtain ⟨env', c', hsteps, hdone⟩ := hrest
        refine ⟨env', c', hround.trans hsteps, hdone.pointers, hdone.stored, hdone.contents_eq,
          hd.same.trans hdone.same, ?_, fun b => ?_⟩
        · rw [hdone.time, htr, List.length_append, List.length_singleton, List.length_cons]
          omega
        · rw [hdone.calls, htr, callsOf_append, List.append_assoc]
          congr 1
          by_cases hb : b = H.id k.body
          · simp [callsOf, hb]
          · have hb' : ¬ H.id k.body = b := fun he => hb he.symm
            simp [callsOf, hb, hb']

end

end Ephippion
