import Ephippion.IR.Concrete
import Ephippion.Run.Chain
import Ephippion.Run.Entry

/-!
# The assertion chain

Whatever the two value vectors hold and whichever positions are outbound, what
`createSymbolicAssertions` builds compares the outbound positions in order (`AssertionChain`): the
run goes through their condition blocks, to the end block if all comparisons hold and else to the
fail block of the first one that does not (`createSymbolicAssertions_chain`).
-/

namespace Ephippion

open Machine

/-- The positions of the value vectors that are outbound. -/
def outboundPositions (specs : List ArgSpec) (k : Nat) : List Nat :=
  (List.range k).filter fun i => specs[i]?.any fun spec => isOutbound spec.direction

/-- The blocks from `base` on are the chain of the comparisons `cs`, and run from `s`, at the start
block, as one; `env` and `core` are what the start block's own code leaves. -/
structure AssertionChain (W : World) (M' : Module) (h F base start endBlock : Nat)
    (dl : DataLayout) (n : IterationsNumTy) (values1 values2 : List Value) (specs : List ArgSpec)
    (cs : List Check) (s : Config) (env : InstRef → Option RVal) (core : Core) : Prop where
  /-- One comparison for each outbound position, in order, of the two values at that position. -/
  positions : cs.map (·.pos) = outboundPositions specs values1.length
  operands : ∀ c ∈ cs, values1[c.pos]? = some c.value1 ∧ values2[c.pos]? = some c.value2
  /-- A condition and a fail block for each of them, and no other block. -/
  length : (M'.blocks h).length = base + 2 * cs.length
  cond_code : ∃ memcmp : FuncRef, memcmp.name = "memcmp" ∧ ∀ j c, cs[j]? = some c →
    M'.instrs h (condBlock base j) = condCode dl n memcmp base cs.length endBlock j c
  fail_code : ∃ (assert : FuncRef) (args : List Value), assert.name = "__assert_fail" ∧
    ∀ j < cs.length, M'.instrs h (failBlock base j) =
      [⟨.call assert args, ""⟩, ⟨.unreachable, ""⟩]
  /-- All hold: the run goes through all condition blocks to the end block. -/
  passed : (∀ c ∈ cs, c.compares dl n env core.mem = some true) →
    ∃ ts s', Trail (step W M' F h) s ts s' ∧
      ts.map Config.block = start :: (List.range cs.length).map (condBlock base) ∧
      s'.block = endBlock ∧ s'.core = core.logs (cs.flatMap (Check.events dl n env core.mem))
  /-- One does not: the run goes through the condition blocks up to the first such one, and from it
  to its fail block, where it ends with one call of the assert function. -/
  failed : ∀ j c, cs[j]? = some c →
    (∀ c' ∈ cs.take j, c'.compares dl n env core.mem = some true) →
    c.compares dl n env core.mem = some false →
    ∃ ts s', Trail (step W M' F h) s ts s' ∧
      ts.map Config.block = start :: (List.range (j + 1)).map (condBlock base) ∧
      s'.block = failBlock base j ∧ step W M' F h s' =
        .inr (.failed ((core.logs ((cs.take (j + 1)).flatMap
          (Check.events dl n env core.mem))).log core.mem (.assertFail (failBlock base j))))
  /-- One cannot be evaluated: the run is stuck there. -/
  stuck : ∀ j c, cs[j]? = some c →
    (∀ c' ∈ cs.take j, c'.compares dl n env core.mem = some true) →
    c.compares dl n env core.mem = none →
    ∃ ts s', Trail (step W M' F h) s ts s' ∧
      ts.map Config.block = start :: (List.range j).map (condBlock base) ∧
      s'.block = condBlock base j ∧ step W M' F h s' = .inr (.stuck (core.logs
        ((cs.take j).flatMap (Check.events dl n env core.mem))))
  reaches : (∃ s', Steps (step W M' F h) s s' ∧ s'.block = endBlock) ↔
    ∀ c ∈ cs, c.compares dl n env core.mem = some true

/-! ## Positions -/

section
variable {values1 values2 : List Value} {specs : List ArgSpec}

theorem checksAt_pos (hlen : values2.length = values1.length)
    (hspecs : values1.length ≤ specs.length) :
    (checksAt values1 values2 specs (List.range values1.length)).map (·.pos) =
      outboundPositions specs values1.length := by
  have hat : ∀ is : List Nat, (∀ i ∈ is, i < values1.length) →
      (checksAt values1 values2 specs is).map (·.pos) =
        is.filter fun i => specs[i]?.any fun spec => isOutbound spec.direction := by
    intro is
    induction is with
    | nil => intro _; rfl
    | cons i is ih =>
      intro hlt
      have hi := hlt i List.mem_cons_self
      have hrest := ih fun i hi => hlt i (List.mem_cons_of_mem _ hi)
      rw [checksAt] at hrest ⊢
      simp only [List.filterMap_cons, List.filter_cons, checkAt,
        List.getElem?_eq_getElem hi, List.getElem?_eq_getElem (show i < values2.length by omega),
        List.getElem?_eq_getElem (show i < specs.length by omega), Option.bind_some,
        Option.any_some]
      cases isOutbound specs[i].direction <;> simp [hrest]
  exact hat _ fun i hi => List.mem_range.1 hi

theorem checksAt_operands {is : List Nat} {c : Check} (hc : c ∈ checksAt values1 values2 specs is) :
    values1[c.pos]? = some c.value1 ∧ values2[c.pos]? = some c.value2 := by
  obtain ⟨i, -, hi⟩ := List.mem_filterMap.1 hc
  obtain ⟨rfl, h1, h2, -, -⟩ := checkAt_eq_some.1 hi
  exact ⟨h1, h2⟩

end

/-! ## Runs of a chain -/

theorem forall_or_first {α : Type} (p : α → Prop) [DecidablePred p] : ∀ l : List α,
    (∀ a ∈ l, p a) ∨ ∃ (j : Nat) (a : α), l[j]? = some a ∧ (∀ b ∈ l.take j, p b) ∧ ¬ p a
  | [] => .inl nofun
  | a :: l => by
    by_cases ha : p a
    · rcases forall_or_first p l with h | ⟨j, b, hj, hbefore, hb⟩
      · exact .inl (List.forall_mem_cons.2 ⟨ha, h⟩)
      · exact .inr ⟨j + 1, b, hj, List.forall_mem_cons.2 ⟨ha, hbefore⟩, hb⟩
    · exact .inr ⟨0, a, rfl, nofun, ha⟩

section
variable {W : World} {M M' : Module} {h F start endBlock prev : Nat} {n : IterationsNumTy}
  {values1 values2 : List Value} {specs : List ArgSpec} {memcmp assert : FuncRef}
  {env₀ env : InstRef → Option RVal} {core₀ core : Core} {dl : DataLayout} {base : Nat}
  {modName funcName : String} {cs : List Check}

section
variable (hc : Chain M' h F base endBlock dl n memcmp assert modName funcName cs)
  (hstart : M'.instrs h start =
    M.instrs h start ++ [⟨.br (nextBlock base cs.length endBlock 0), ""⟩])
  (hrun : Runs W M' F start prev (M.instrs h start) 0 env₀ core₀ env core)
include hc hstart hrun

theorem Chain.entered {j : Nat} (hj : j ≤ cs.length)
    (hpass : ∀ c ∈ cs.take j, c.compares dl n env core.mem = some true) :
    ∃ ts prev' env', Trail (step W M' F h) ⟨prev, start, env₀, core₀⟩ ts
        ⟨prev', nextBlock base cs.length endBlock j, env',
          core.logs ((cs.take j).flatMap (Check.events dl n env core.mem))⟩ ∧
      ts.map Config.block = start :: (List.range j).map (condBlock base) ∧
      ∀ r : InstRef, r.block < base → env' r = env r := by
  have h1 : step W M' F h ⟨prev, start, env₀, core₀⟩ =
      .inl ⟨start, nextBlock base cs.length endBlock 0, env, core⟩ := by
    rw [step, hstart, hrun.execInstrs]
    rfl
  obtain ⟨ts, prev', env', htr, hts, henv⟩ := hc.passed W env core start hj hpass
  exact ⟨_ :: ts, prev', env', .cons h1 htr, congrArg (start :: ·) hts, henv⟩

theorem Chain.arrives {j : Nat} {c : Check} (hj : cs[j]? = some c)
    (hpass : ∀ c ∈ cs.take j, c.compares dl n env core.mem = some true) :
    ∃ ts prev' env', Trail (step W M' F h) ⟨prev, start, env₀, core₀⟩ ts
        ⟨prev', condBlock base j, env',
          core.logs ((cs.take j).flatMap (Check.events dl n env core.mem))⟩ ∧
      ts.map Config.block = start :: (List.range j).map (condBlock base) ∧
      ∀ r : InstRef, r.block < base → env' r = env r := by
  have hlt : j < cs.length := (List.getElem?_eq_some_iff.1 hj).1
  have hnext : nextBlock base cs.length endBlock j = condBlock base j := if_pos hlt
  exact hnext ▸ hc.entered hstart hrun (Nat.le_of_lt hlt) hpass

theorem Chain.failed {j : Nat} {c : Check} (hj : cs[j]? = some c)
    (hpass : ∀ c ∈ cs.take j, c.compares dl n env core.mem = some true)
    (hno : c.compares dl n env core.mem = some false) :
    ∃ ts s', Trail (step W M' F h) ⟨prev, start, env₀, core₀⟩ ts s' ∧
      ts.map Config.block = start :: (List.range (j + 1)).map (condBlock base) ∧
      s'.block = failBlock base j ∧ step W M' F h s' =
        .inr (.failed ((core.logs ((cs.take (j + 1)).flatMap
          (Check.events dl n env core.mem))).log core.mem (.assertFail (failBlock base j)))) := by
  obtain ⟨ts, prev', env', htr, hts, henv⟩ := hc.arrives hstart hrun hj hpass
  have hstep := hc.check_step W env core hj henv prev'
  rw [hno] at hstep
  obtain ⟨env'', h1, -⟩ := hstep
  refine ⟨ts ++ [_], _, htr.append (.single h1), ?_, rfl,
    hc.fail_step (List.getElem?_eq_some_iff.1 hj).1 _ _ _⟩
  rw [List.map_append, hts, List.range_succ, List.map_append]
  rfl

theorem Chain.stuck {j : Nat} {c : Check} (hj : cs[j]? = some c)
    (hpass : ∀ c ∈ cs.take j, c.compares dl n env core.mem = some true)
    (hno : c.compares dl n env core.mem = none) :
    ∃ ts s', Trail (step W M' F h) ⟨prev, start, env₀, core₀⟩ ts s' ∧
      ts.map Config.block = start :: (List.range j).map (condBlock base) ∧
      s'.block = condBlock base j ∧ step W M' F h s' = .inr (.stuck (core.logs
        ((cs.take j).flatMap (Check.events dl n env core.mem)))) := by
  obtain ⟨ts, prev', env', htr, hts, henv⟩ := hc.arrives hstart hrun hj hpass
  have hstep := hc.check_step W env core hj henv prev'
  rw [hno] at hstep
  exact ⟨ts, _, htr, hts, rfl, hstep⟩

/-- The end block is only behind all checks. -/
theorem Chain.reaches_iff (hend : endBlock < base) (hne : endBlock ≠ start) :
    (∃ s', Steps (step W M' F h) ⟨prev, start, env₀, core₀⟩ s' ∧ s'.block = endBlock) ↔
      ∀ c ∈ cs, c.compares dl n env core.mem = some true := by
  -- a run that ends elsewhere has not been at the end block
  have hoff : ∀ {ts : List Config} {s' : Config} {k : Nat} {o : Outcome},
      Trail (step W M' F h) ⟨prev, start, env₀, core₀⟩ ts s' →
      ts.map Config.block = start :: (List.range k).map (condBlock base) →
      s'.block ≠ endBlock → step W M' F h s' = .inr o →
      ¬ ∃ s', Steps (step W M' F h) ⟨prev, start, env₀, core₀⟩ s' ∧ s'.block = endBlock := by
    rintro ts s' k o htr hts hs' ho ⟨t, ht, hb⟩
    rcases htr.mem_or_steps ht with hmem | hsteps
    · have hblk : t.block ∈ start :: (List.range k).map (condBlock base) :=
        hts ▸ List.mem_map_of_mem hmem
      rcases List.mem_cons.1 hblk with he | he
      · exact hne (hb.symm.trans he)
      · obtain ⟨i, -, hi⟩ := List.mem_map.1 he
        unfold condBlock at hi
        omega
    · rw [hsteps.eq_of_end ho] at hb
      exact hs' hb
  constructor
  · intro hreach
    rcases forall_or_first (fun c : Check => c.compares dl n env core.mem = some true) cs with
      hall | ⟨j, c, hj, hpass, hno⟩
    · exact hall
    cases hcmp : c.compares dl n env core.mem with
    | none =>
      obtain ⟨ts, s', htr, hts, hs', ho⟩ := hc.stuck hstart hrun hj hpass hcmp
      refine absurd hreach (hoff htr hts ?_ ho)
      unfold condBlock at hs'
      omega
    | some eq =>
      cases eq with
      | true => exact absurd hcmp hno
      | false =>
        obtain ⟨ts, s', htr, hts, hs', ho⟩ := hc.failed hstart hrun hj hpass hcmp
        refine absurd hreach (hoff htr hts ?_ ho)
        unfold failBlock at hs'
        omega
  · intro hall
    obtain ⟨ts, prev', env', htr, -, -⟩ := hc.entered hstart hrun (Nat.le_refl _)
      (by rwa [List.take_length])
    exact ⟨_, htr.steps, if_neg (Nat.lt_irrefl _)⟩

end

/-- What `createSymbolicAssertions` builds for any two vectors of values from before. The function
whose calls the world answers, `F`, is neither of the two that a chain calls. -/
theorem createSymbolicAssertions_chain (hstart : start < (M.blocks h).length)
    (hend : endBlock < (M.blocks h).length) (hne : endBlock ≠ start) (hvals : values1 ≠ [])
    (hlen : values2.length = values1.length) (hspecs : values1.length ≤ specs.length)
    (hold : ∀ v ∈ values1 ++ values2, v.Below (M.blocks h).length)
    (hok : createSymbolicAssertions M h start endBlock values1 values2 n specs = .ok M')
    (hF : ∀ d, M'.sig[F]? = some d → d.1 ≠ "memcmp" ∧ d.1 ≠ "__assert_fail")
    (hrun : Runs W M' F start prev (M.instrs h start) 0 env₀ core₀ env core) :
    AssertionChain W M' h F (M.blocks h).length start endBlock M.dataLayout n values1 values2 specs
      (checksAt values1 values2 specs (List.range values1.length)) ⟨prev, start, env₀, core₀⟩ env
      core := by
  obtain ⟨memcmp, assert, ha⟩ := createSymbolicAssertions_of_ok hstart hvals hlen hspecs hok
  have hbelow : ∀ c ∈ checksAt values1 values2 specs (List.range values1.length),
      c.Below (M.blocks h).length := fun c hc => by
    obtain ⟨h1, h2⟩ := checksAt_operands hc
    exact ⟨hold _ (List.mem_append_left _ (List.mem_of_getElem? h1)),
      hold _ (List.mem_append_right _ (List.mem_of_getElem? h2))⟩
  have hc : Chain M' h F (M.blocks h).length endBlock M.dataLayout n memcmp assert M.name
      ((M.functions[h]?.map (·.name)).getD "")
      (checksAt values1 values2 specs (List.range values1.length)) :=
    ⟨ha.chain.cond, ha.chain.fail, hbelow, ha.memcmp_declared.name_eq,
      fun he => (hF _ (he ▸ ha.memcmp_declared.sig_eq)).1 rfl, ha.assert_declared.name_eq,
      fun he => (hF _ (he ▸ ha.assert_declared.sig_eq)).2 rfl⟩
  have hcode := ha.chain.start
  refine ⟨checksAt_pos hlen hspecs, fun c hc => checksAt_operands hc, ha.chain.length,
    ⟨memcmp, hc.memcmp_name, hc.cond⟩, ⟨assert, _, hc.assert_name, hc.fail⟩, fun hall => ?_,
    fun j c hj hpass hno => hc.failed hcode hrun hj hpass hno,
    fun j c hj hpass hno => hc.stuck hcode hrun hj hpass hno, hc.reaches_iff hcode hrun hend hne⟩
  obtain ⟨ts, prev', env', htr, hts, -⟩ := hc.entered hcode hrun (Nat.le_refl _)
    (by rwa [List.take_length])
  exact ⟨ts, _, htr, hts, if_neg (Nat.lt_irrefl _), by rw [List.take_length]⟩

end

/-- Two positions with constants, the first not outbound: only the second one is compared. -/
theorem createSymbolicAssertions_chain_constants : ∃ M', AssertionChain World.idle M' 0 1 3 0 2
    .lp64 2 [getIntN 64 1, getIntN 64 2] [getIntN 64 3, getIntN 64 2]
    [⟨"", .inbound, false⟩, ⟨"", .outbound, false⟩]
    [⟨1, getIntN 64 2, getIntN 64 2, ⟨"", .outbound, false⟩⟩] ⟨0, 0, fun _ => none, ⟨[], []⟩⟩
    (fun _ => none) ⟨[], []⟩ := by
  have hstart : 0 < (openModule.blocks 0).length := by decide
  have hprogress : ∃ M', createSymbolicAssertions openModule 0 0 2 [getIntN 64 1, getIntN 64 2]
      [getIntN 64 3, getIntN 64 2] 2 [⟨"", .inbound, false⟩, ⟨"", .outbound, false⟩] = .ok M' :=
    createSymbolicAssertions_progress 2 2 hstart (by decide) (by decide) (by decide) (by decide)
      (by decide) (by unfold ChecksSized; decide)
  obtain ⟨M', hok⟩ := hprogress
  obtain ⟨memcmp, assert, ha⟩ := createSymbolicAssertions_of_ok hstart (by decide) (by decide)
    (by decide) hok
  have hsig : M'.sig[1]? = openModule.sig[1]? :=
    ha.chain.builds.ext.sig_getElem? (by decide)
  have hf : ∀ d, M'.sig[1]? = some d → d.1 ≠ "memcmp" ∧ d.1 ≠ "__assert_fail" := fun d hd => by
    rw [hsig] at hd
    cases hd
    decide
  exact ⟨M', createSymbolicAssertions_chain hstart (by decide) (by decide) (by decide) (by decide)
    (by decide) (by simp [getIntN, Value.Below]) hok hf (.nil 0 _ _)⟩

end Ephippion
