import Ephippion.Harness.Blocks
import Ephippion.Lib.Counted
import Ephippion.Run.Straight

/-!
# The header and the latch of a loop

What `createLoop` builds around one body block, whatever that does: the header tests its counter and
goes to the body or to the exit block (`hdrCode_step`), the latch counts (`latchCode_step`), so a
loop makes its rounds unless one of them ends the run (`LoopCode.rounds`). The counters are a
progression from the start bound, and none of them wraps (`LoopDirection.counts`).
-/

namespace Ephippion

open Counted Machine

namespace LoopDirection

/-- Does the loop go on? -/
def test : LoopDirection → BitVec 64 → BitVec 64 → Bool
  | increasing, stop, v => v.slt stop
  | decreasing, stop, v => stop.sle v

def next : LoopDirection → BitVec 64 → BitVec 64
  | increasing, v => v + 1
  | decreasing, v => v - 1

/-- What the latch makes of the counter. -/
def advance (d : LoopDirection) (step : BitVec 32) (v : BitVec 64) : BitVec 64 := match d with
  | increasing => v + step.setWidth 64
  | decreasing => v - step.setWidth 64

theorem advance_one (d : LoopDirection) : d.advance 1 = d.next := by
  cases d <;> rfl

/-- Does the latch's instruction wrap as a signed one? -/
def wraps (d : LoopDirection) (step : BitVec 32) (v : BitVec 64) : Bool := match d with
  | increasing => v.saddOverflow (step.setWidth 64)
  | decreasing => v.ssubOverflow (step.setWidth 64)

theorem of_increasing {start stop : BitVec 32} (h : start < stop) :
    of start stop = increasing := if_neg (BitVec.lt_asymm h)

theorem of_decreasing {start stop : BitVec 32} (h : stop < start) :
    of start stop = decreasing := if_pos h

end LoopDirection

theorem toInt_setWidth_64 (v : BitVec 32) : (v.setWidth 64).toInt = v.toNat := by
  have hlt := v.isLt
  rw [← BitVec.ofNat_toNat, toInt_ofNat_64 (by omega)]

section
variable {h F hdr body0 preheader : Nat} {start stop step' : BitVec 32} {name : String}
  {M' : Module} {W : World} {prev : Nat} {env : InstRef → Option RVal} {c : Core} {v : BitVec 64}

/-- The header is entered with the counter `v`. -/
def Enters (hdr preheader : Nat) (start : BitVec 32) (prev : Nat) (env : InstRef → Option RVal)
    (v : BitVec 64) : Prop :=
  prev = preheader ∧ v = start.setWidth 64 ∨
    prev = hdr + 1 ∧ env ⟨hdr + 1, 0⟩ = some (.int v)

theorem hdrCode_step
    (hcode : M'.instrs h hdr = hdrCode hdr body0 preheader start stop name)
    (hne : preheader ≠ hdr + 1) (he : Enters hdr preheader start prev env v) :
    ∃ env', step W M' F h ⟨prev, hdr, env, c⟩ = .inl ⟨hdr,
        if (LoopDirection.of start stop).test (stop.setWidth 64) v then body0 else hdr + 2, env',
        c⟩ ∧
      env' ⟨hdr, 0⟩ = some (.int v) ∧ ∀ r : InstRef, r.block ≠ hdr → env' r = env r := by
  have hval : execOp W M' F hdr prev env c
      (.phi .int64Ty [(getIntN 64 (start.setWidth 64), preheader),
        (.inst ⟨hdr + 1, 0⟩ .int64Ty "" false, hdr + 1)]) = .value (some (.int v)) c := by
    rcases he with ⟨rfl, rfl⟩ | ⟨rfl, hv⟩
    · simp [execOp, Value.eval, getIntN]
    · simp [execOp, Value.eval, hne, hv]
  have hcmp : ∀ (env : InstRef → Option RVal), env ⟨hdr, 0⟩ = some (.int v) →
      execOp W M' F hdr prev env c (.icmp (LoopDirection.of start stop).pred (indVar hdr name)
        (getIntN 64 (stop.setWidth 64))) =
      .value (some (.int
        (if (LoopDirection.of start stop).test (stop.setWidth 64) v then 1 else 0))) c := by
    intro env henv
    cases LoopDirection.of start stop <;>
      (simp [execOp, Value.eval, indVar, getIntN, henv, LoopDirection.pred, evalICmp,
        LoopDirection.test]; rfl)
  have hrun : Runs W M' F hdr prev ((hdrCode hdr body0 preheader start stop name).take 2) 0 env c
      _ c := .cons rfl hval (.cons rfl (hcmp _ (setValue_same ..)) (.nil ..))
  rw [step, hcode]
  refine ⟨_, (hrun.execInstrs
    [⟨.condBr (.inst ⟨hdr, 1⟩ .int1Ty "" false) body0 (hdr + 2), ""⟩]).trans ?_, ?_,
    fun r hr => hrun.frame (.inl hr)⟩
  · cases (LoopDirection.of start stop).test (stop.setWidth 64) v <;>
      simp [execInstrs, Value.eval]
  · rw [setValue_ne (by simp), setValue_same]

variable (prev c) in
theorem latchCode_step (hcode : M'.instrs h (hdr + 1) = latchCode hdr start stop step' name)
    (hv : env ⟨hdr, 0⟩ = some (.int v)) : ∃ env',
      step W M' F h ⟨prev, hdr + 1, env, c⟩ = .inl ⟨hdr + 1, hdr, env', c⟩ ∧
      env' ⟨hdr + 1, 0⟩ = some (.int ((LoopDirection.of start stop).advance step' v)) ∧
      ∀ r : InstRef, r.block ≠ hdr + 1 → env' r = env r := by
  have hop : execOp W M' F (hdr + 1) prev env c
      ((LoopDirection.of start stop).stepOp (indVar hdr name) step') =
      .value (some (.int ((LoopDirection.of start stop).advance step' v))) c := by
    cases LoopDirection.of start stop <;>
      simp [LoopDirection.stepOp, LoopDirection.advance, execOp, Value.eval, indVar, getIntN, hv]
  have hterm : ((LoopDirection.of start stop).stepOp (indVar hdr name) step').isTerminator =
      false := by
    cases LoopDirection.of start stop <;> rfl
  have hrun : Runs W M' F (hdr + 1) prev ((latchCode hdr start stop step' name).take 1) 0 env c
      _ c := .single hterm hop
  rw [step, hcode]
  exact ⟨_, hrun.execInstrs [⟨.br hdr, ""⟩], setValue_same .., fun r hr => hrun.frame (.inl hr)⟩

end

/-! ## The rounds -/

/-- The blocks of `j` rounds. -/
def roundBlocks (hdr body j : Nat) : List Nat := (List.replicate j [hdr, body, hdr + 1]).flatten

/-- The values of `ind` at the body block. -/
def countersAt (body : Nat) (ind : Value) (ts : List Config) : List (Option RVal) :=
  (ts.filter (·.block = body)).map (ind.eval ·.env)

theorem roundBlocks_succ (hdr body j : Nat) :
    roundBlocks hdr body (j + 1) = [hdr, body, hdr + 1] ++ roundBlocks hdr body j := by
  rw [roundBlocks, List.replicate_succ, List.flatten_cons, roundBlocks]

theorem countersAt_append (body : Nat) (ind : Value) (ts ts' : List Config) :
    countersAt body ind (ts ++ ts') = countersAt body ind ts ++ countersAt body ind ts' := by
  rw [countersAt, List.filter_append, List.map_append, countersAt, countersAt]

section
variable (W : World) (M' : Module) (F h hdr body : Nat) (ind : Value)

/-- The run from `s`, at the header, makes rounds with the counters `vs` and goes through the exit
block to `postexit`. -/
def LeavesAfter (postexit : Nat) (s : Config) (vs : List (BitVec 64)) : Prop :=
  ∃ ts s', Trail (step W M' F h) s ts s' ∧
    ts.map Config.block = roundBlocks hdr body vs.length ++ [hdr, hdr + 2] ∧
    countersAt body ind ts = vs.map (some ∘ .int) ∧ s'.prev = hdr + 2 ∧ s'.block = postexit

/-- The run from `s`, at the header, makes rounds with the counters `vs` and ends in the body, which
it enters with the counter `v`. -/
def EndsAfter (s : Config) (vs : List (BitVec 64)) (v : BitVec 64) : Prop :=
  ∃ ts s' o, Trail (step W M' F h) s ts s' ∧
    ts.map Config.block = roundBlocks hdr body vs.length ++ [hdr] ∧
    countersAt body ind ts = vs.map (some ∘ .int) ∧ s'.block = body ∧
    ind.eval s'.env = some (.int v) ∧ step W M' F h s' = .inr o

end

section
variable {W : World} {M' : Module} {F h hdr body postexit : Nat} {ind : Value} {s s' : Config}
  {ts : List Config} {vs : List (BitVec 64)} {v : BitVec 64}

theorem LeavesAfter.cons (hround : Trail (step W M' F h) s ts s')
    (hblocks : ts.map Config.block = [hdr, body, hdr + 1])
    (hind : countersAt body ind ts = [some (.int v)])
    (hrest : LeavesAfter W M' F h hdr body ind postexit s' vs) :
    LeavesAfter W M' F h hdr body ind postexit s (v :: vs) := by
  obtain ⟨ts', s'', htr, hb, hc, hprev, hpost⟩ := hrest
  refine ⟨ts ++ ts', s'', hround.append htr, ?_, ?_, hprev, hpost⟩
  · rw [List.map_append, hblocks, hb, List.length_cons, roundBlocks_succ, List.append_assoc]
  · rw [countersAt_append, hind, hc]
    rfl

theorem EndsAfter.cons (hround : Trail (step W M' F h) s ts s')
    (hblocks : ts.map Config.block = [hdr, body, hdr + 1])
    (hind : countersAt body ind ts = [some (.int v)]) {v' : BitVec 64}
    (hrest : EndsAfter W M' F h hdr body ind s' vs v') :
    EndsAfter W M' F h hdr body ind s (v :: vs) v' := by
  obtain ⟨ts', s'', o, htr, hb, hc, hend⟩ := hrest
  refine ⟨ts ++ ts', s'', o, hround.append htr, ?_, ?_, hend⟩
  · rw [List.map_append, hblocks, hb, List.length_cons, roundBlocks_succ, List.append_assoc]
  · rw [countersAt_append, hind, hc]
    rfl

end

/-- A loop around one body block, whose own code is `code`. -/
structure LoopCode (M' : Module) (h hdr body preheader postexit : Nat)
    (start stop step : BitVec 32) (name : String) (code : List Instr) : Prop where
  hdr_code : M'.instrs h hdr = hdrCode hdr body preheader start stop name
  latch_code : M'.instrs h (hdr + 1) = latchCode hdr start stop step name
  exit_code : M'.instrs h (hdr + 2) = [⟨.br postexit, ""⟩]
  body_code : M'.instrs h body = code ++ [⟨.br (hdr + 1), ""⟩]
  plain : ∀ i ∈ code, i.op.isTerminator = false
  body_lt : body < hdr
  pre_lt : preheader < hdr

section
variable {M' : Module} {h hdr body preheader postexit F : Nat} {start stop step' : BitVec 32}
  {name : String} {code : List Instr} {W : World}

theorem LoopCode.body_step
    (hl : LoopCode M' h hdr body preheader postexit start stop step' name code) (prev : Nat)
    (env : InstRef → Option RVal) (c : Core) :
    (∃ env' c', step W M' F h ⟨prev, body, env, c⟩ = .inl ⟨body, hdr + 1, env', c'⟩ ∧
      env' ⟨hdr, 0⟩ = env ⟨hdr, 0⟩) ∨ ∃ o, step W M' F h ⟨prev, body, env, c⟩ = .inr o := by
  have hne : hdr ≠ body := Nat.ne_of_gt hl.body_lt
  rw [step, hl.body_code]
  rcases runs_or_ends W M' F body prev code 0 env c hl.plain with ⟨env', c', hrun⟩ | hend
  · exact .inl ⟨env', c', hrun.execInstrs _, hrun.frame (.inl hne)⟩
  · obtain ⟨o, ho, -⟩ := hend [⟨.br (hdr + 1), ""⟩]
    exact .inr ⟨o, ho⟩

/-- A loop makes its rounds, or the run ends in one of them. -/
theorem LoopCode.rounds
    (hl : LoopCode M' h hdr body preheader postexit start stop step' name code)
    {v : BitVec 64} {vs : List (BitVec 64)}
    (hc : Counts ((LoopDirection.of start stop).test (stop.setWidth 64))
      ((LoopDirection.of start stop).advance step') v vs) :
    ∀ {prev : Nat} {env : InstRef → Option RVal} {c : Core}, Enters hdr preheader start prev env v →
      LeavesAfter W M' F h hdr body (indVar hdr name) postexit ⟨prev, hdr, env, c⟩ vs ∨
      ∃ j v, vs[j]? = some v ∧
        EndsAfter W M' F h hdr body (indVar hdr name) ⟨prev, hdr, env, c⟩ (vs.take j) v := by
  have hbody := hl.body_lt
  have hne : preheader ≠ hdr + 1 := by
    have := hl.pre_lt
    omega
  induction hc with
  | done ht =>
    intro prev env c he
    obtain ⟨env₁, h1, -, -⟩ := hdrCode_step (W := W) (F := F) (c := c) hl.hdr_code hne he
    rw [ht] at h1
    have h2 : step W M' F h ⟨hdr, hdr + 2, env₁, c⟩ = .inl ⟨hdr + 2, postexit, env₁, c⟩ := by
      rw [step, hl.exit_code]
      rfl
    refine .inl ⟨_, _, .cons h1 (.single h2), rfl, ?_, rfl, rfl⟩
    have hb : hdr ≠ body ∧ hdr + 2 ≠ body := by omega
    simp [countersAt, hb]
  | @next v vs ht _ ih =>
    intro prev env c he
    obtain ⟨env₁, h1, hv₁, -⟩ := hdrCode_step (W := W) (F := F) (c := c) hl.hdr_code hne he
    rw [ht] at h1
    rcases hl.body_step (W := W) (F := F) hdr env₁ c with ⟨env₂, c₂, h2, hv₂⟩ | ⟨o, ho⟩
    · obtain ⟨env₃, h3, hv₃, -⟩ := latchCode_step (W := W) (F := F) body c₂ hl.latch_code
        (hv₂.trans hv₁)
      have hround : Trail (step W M' F h) ⟨prev, hdr, env, c⟩
          [⟨prev, hdr, env, c⟩, ⟨hdr, body, env₁, c⟩, ⟨body, hdr + 1, env₂, c₂⟩]
          ⟨hdr + 1, hdr, env₃, c₂⟩ := .cons h1 (.cons h2 (.single h3))
      have hind : countersAt body (indVar hdr name)
          [⟨prev, hdr, env, c⟩, ⟨hdr, body, env₁, c⟩, ⟨body, hdr + 1, env₂, c₂⟩] =
          [some (.int v)] := by
        have hb : hdr ≠ body ∧ hdr + 1 ≠ body := by omega
        simp [countersAt, hb, indVar, Value.eval, hv₁]
      rcases ih (.inr ⟨rfl, hv₃⟩) with hleaves | ⟨j, w, hj, hends⟩
      · exact .inl (hleaves.cons hround rfl hind)
      · exact .inr ⟨j + 1, w, hj, hends.cons hround rfl hind⟩
    · refine .inr ⟨0, v, rfl, _, _, o, .single h1, rfl, ?_, rfl, hv₁, ho⟩
      have hb : hdr ≠ body := by omega
      simp [countersAt, hb]

end

/-! ## The counters -/

/-- The counters of the loop from `start` to `stop` by `step`, as integers and in order. -/
structure LoopCounters (start stop step : BitVec 32) (vs : List (BitVec 64)) : Prop where
  up : start < stop → ∀ k : Nat, vs[k]?.map BitVec.toInt =
    if (start.toNat : Int) + k * step.toNat < stop.toNat
    then some ((start.toNat : Int) + k * step.toNat) else none
  down : stop < start → ∀ k : Nat, vs[k]?.map BitVec.toInt =
    if (stop.toNat : Int) ≤ start.toNat - k * step.toNat
    then some ((start.toNat : Int) - k * step.toNat) else none

section
variable {start stop step' : BitVec 32}

theorem LoopDirection.counts (hne : start ≠ stop) (hstep : 1 ≤ step'.toNat) :
    ∃ vs, Counts ((LoopDirection.of start stop).test (stop.setWidth 64))
        ((LoopDirection.of start stop).advance step') (start.setWidth 64) vs ∧
      LoopCounters start stop step' vs ∧
      ∀ v ∈ vs, (LoopDirection.of start stop).wraps step' v = false := by
  have hs : (step'.setWidth 64).toInt = step'.toNat := toInt_setWidth_64 step'
  have ha : (start.setWidth 64).toInt = start.toNat := toInt_setWidth_64 start
  have hb : (stop.setWidth 64).toInt = stop.toNat := toInt_setWidth_64 stop
  have hslt := step'.isLt
  have hblt := stop.isLt
  have hpos : 0 < (step'.setWidth 64).toInt := by omega
  have hor : start < stop ∨ stop < start := Nat.lt_or_gt_of_ne (mt BitVec.eq_of_toNat_eq hne)
  rcases hor with hlt | hlt
  · rw [of_increasing hlt]
    have hle : (stop.setWidth 64).toInt + (step'.setWidth 64).toInt ≤ 2 ^ 63 := by omega
    obtain ⟨vs, hc, hp⟩ := Counts.ascending hpos hle (start.setWidth 64)
    refine ⟨vs, hc, ⟨fun _ k => ?_, fun hgt => absurd hgt (BitVec.lt_asymm hlt)⟩, fun v hv =>
      saddOverflow_of_lt hpos hle (hp.mem hpos hv).2⟩
    rw [hp k, ha, hb, hs]
  · rw [of_decreasing hlt]
    have hle : -2 ^ 63 ≤ (stop.setWidth 64).toInt - (step'.setWidth 64).toInt := by omega
    obtain ⟨vs, hc, hp⟩ := Counts.descending hpos hle (start.setWidth 64)
    refine ⟨vs, hc, ⟨fun hgt => absurd hgt (BitVec.lt_asymm hlt), fun _ k => ?_⟩, fun v hv =>
      ssubOverflow_of_le hpos hle (by have := (hp.mem hpos hv).2; omega)⟩
    have hneg := congrArg (Option.map (- · : Int → Int)) (hp k)
    rw [Option.map_map, ha, hb, hs] at hneg
    have hid : (- · : Int → Int) ∘ (fun v : BitVec 64 => -v.toInt) = BitVec.toInt :=
      funext fun v => Int.neg_neg v.toInt
    rw [hid] at hneg
    rw [hneg]
    by_cases hk : (stop.toNat : Int) ≤ start.toNat - k * step'.toNat
    · rw [if_pos hk, if_pos (by omega), Option.map_some]
      congr 1
      omega
    · rw [if_neg hk, if_neg (by omega)]
      rfl

end

end Ephippion
