import Ephippion.Proof.Assertions
import Ephippion.Run.Events

/-!
# Running a chain of checks

For any values, not only those of a harness: a condition block runs on to the next one or to its
fail block as its comparison says (`condCode_step`), so the blocks before a check are passed one
after the other if their comparisons hold (`Chain.passed`), and nothing but the trace changes.
-/

namespace Ephippion

open Machine

/-! ## Values from before -/

namespace Value

/-- What the value is computed from stands in blocks below `b`. -/
def Below (b : Nat) : Value → Prop
  | inst ref _ _ _ => ref.block < b
  | constCast _ src _ => src.Below b
  | constICmp _ l r => l.Below b ∧ r.Below b
  | constInt _ _ | globalString _ | detachedCast _ _ _ => True

theorem Below.eval {b : Nat} {env env' : InstRef → Option RVal}
    (henv : ∀ r : InstRef, r.block < b → env' r = env r) :
    ∀ {v : Value}, v.Below b → v.eval env' = v.eval env
  | .inst _ _ _ _, h => henv _ h
  | .constCast _ src _, h => Below.eval (v := src) henv h
  | .constICmp _ l r, h => by
    rw [Value.eval, Value.eval, Below.eval (v := l) henv h.1, Below.eval (v := r) henv h.2]
  | .constInt _ _, _ => rfl
  | .globalString _, _ => rfl
  | .detachedCast _ _ _, _ => rfl

end Value

/-! ## Comparisons -/

/-- The core after some events that do not touch memory. -/
def Core.logs (c : Core) (es : List Event) : Core := ⟨c.mem, c.trace ++ es⟩

namespace Check

section
variable (dl : DataLayout) (n : IterationsNumTy) (env : InstRef → Option RVal) (m : ObjMem.Mem)

/-- What `memcmp` is called on. -/
def objects (c : Check) : Option (Nat × Nat) :=
  match c.value1.eval env, c.value2.eval env with
  | some (.ptr a), some (.ptr b) => some (a, b)
  | _, _ => none

/-- Does the comparison of a check hold? It has no answer if a value has no meaning, or `memcmp` is
out of bounds. -/
def compares (c : Check) : Option Bool :=
  if c.byMemory then
    (c.objects env).bind fun o => ObjMem.cmp m o.1 o.2 (c.size dl n).toNat
  else match (Value.constICmp .eq c.value1 c.value2).eval env with
    | some (.int v) => some (v != 0)
    | _ => none

/-- What a comparison adds to the trace. -/
def events (c : Check) : List Event :=
  if c.byMemory then
    (c.objects env).toList.flatMap fun o =>
      (ObjMem.cmp m o.1 o.2 (c.size dl n).toNat).toList.map
        (.compare o.1 o.2 (c.size dl n).toNat ·)
  else []

end

/-- Both values are from blocks below `b`. -/
def Below (b : Nat) (c : Check) : Prop := c.value1.Below b ∧ c.value2.Below b

section
variable {dl : DataLayout} {n : IterationsNumTy} {env env' : InstRef → Option RVal}
  {m : ObjMem.Mem} {c : Check} {b : Nat}

theorem objects_eq_some {a o : Nat} : c.objects env = some (a, o) ↔
    c.value1.eval env = some (.ptr a) ∧ c.value2.eval env = some (.ptr o) := by
  unfold Check.objects
  split
  · rename_i h1 h2
    simp [h1, h2]
  · rename_i h
    simpa using fun h1 => h a o h1

theorem Below.objects (hc : c.Below b) (henv : ∀ r : InstRef, r.block < b → env' r = env r) :
    c.objects env' = c.objects env := by
  rw [Check.objects, Check.objects, hc.1.eval henv, hc.2.eval henv]

theorem Below.compares (hc : c.Below b) (henv : ∀ r : InstRef, r.block < b → env' r = env r) :
    c.compares dl n env' m = c.compares dl n env m := by
  rw [Check.compares, Check.compares, hc.objects henv, Value.eval, Value.eval, hc.1.eval henv,
    hc.2.eval henv]

theorem Below.events (hc : c.Below b) (henv : ∀ r : InstRef, r.block < b → env' r = env r) :
    c.events dl n env' m = c.events dl n env m := by
  rw [Check.events, Check.events, hc.objects henv]

end

end Check

section
variable {dl : DataLayout} {n : IterationsNumTy} {memcmp assert : FuncRef} {args : List Value}
  {h F base endBlock : Nat} {M' : Module} {W : World} {env : InstRef → Option RVal} {core : Core}

theorem eval_constICmp {p : Pred} {v₁ v₂ : Value} {r : RVal}
    (h : (Value.constICmp p v₁ v₂).eval env = some r) :
    ∃ eq : Bool, r = .int (if eq then 1 else 0) := by
  rw [Value.eval, Option.bind_eq_some_iff] at h
  obtain ⟨a, -, h⟩ := h
  rw [Option.bind_eq_some_iff] at h
  obtain ⟨b, -, h⟩ := h
  have hite : ∀ (P : Prop) [Decidable P],
      ∃ eq : Bool, RVal.int (if P then 1 else 0) = .int (if eq then 1 else 0) :=
    fun P _ => ⟨decide P, by simp⟩
  unfold evalICmp at h
  split at h <;> cases h <;> exact hite _

theorem execOp_memcmp (hname : memcmp.name = "memcmp") (hne : memcmp.index ≠ F) (b prev : Nat)
    (c : Check) (size : BitVec 64) :
    execOp W M' F b prev env core (.call memcmp [c.value1, c.value2, getIntN 64 size]) =
      match c.objects env with
      | some o => match ObjMem.cmp core.mem o.1 o.2 size.toNat with
        | some eq => .value (some (.int (if eq then 0 else 1)))
            (core.log core.mem (.compare o.1 o.2 size.toNat eq))
        | none => .stuck
      | none => .stuck := by
  have hlib : ∀ a o, libCall W core b memcmp.name [.ptr a, .ptr o, .int size] =
      match ObjMem.cmp core.mem a o size.toNat with
      | some eq => .value (some (.int (if eq then 0 else 1)))
          (core.log core.mem (.compare a o size.toNat eq))
      | none => .stuck := fun a o => by
    simp only [libCall, hname, Core.compare_eq]
    cases ObjMem.cmp core.mem a o size.toNat <;> rfl
  cases h1 : c.value1.eval env with
  | none => simp [execOp, Check.objects, h1]
  | some r₁ =>
    cases h2 : c.value2.eval env with
    | none => cases r₁ <;> simp [execOp, Check.objects, h1, h2]
    | some r₂ =>
      have hcall : execOp W M' F b prev env core
          (.call memcmp [c.value1, c.value2, getIntN 64 size]) =
          libCall W core b memcmp.name [r₁, r₂, .int size] := by
        simp [execOp, h1, h2, getIntN, Value.eval, hne]
      rw [hcall, Check.objects, h1, h2]
      cases r₁ <;> cases r₂ <;> first | exact hlib _ _ | simp [libCall, hname]

variable (W env core) in
/-- A condition block goes where its comparison says. -/
theorem condCode_step {m j : Nat} {c : Check}
    (hcode : M'.instrs h (condBlock base j) = condCode dl n memcmp base m endBlock j c)
    (hname : memcmp.name = "memcmp") (hne : memcmp.index ≠ F) (prev : Nat) :
    match c.compares dl n env core.mem with
    | none => step W M' F h ⟨prev, condBlock base j, env, core⟩ = .inr (.stuck core)
    | some eq => ∃ env', step W M' F h ⟨prev, condBlock base j, env, core⟩ =
        .inl ⟨condBlock base j,
          if eq then nextBlock base m endBlock (j + 1) else failBlock base j, env',
          core.logs (c.events dl n env core.mem)⟩ ∧
        ∀ r : InstRef, r.block ≠ condBlock base j → env' r = env r := by
  have hset : ∀ (env : InstRef → Option RVal) (pos : Nat) (v : Option RVal) (r : InstRef),
      r.block ≠ condBlock base j → setValue env ⟨condBlock base j, pos⟩ v r = env r :=
    fun env pos v r hr => setValue_ne (fun he => hr (congrArg InstRef.block he)) v
  rw [step, hcode, condCode]
  cases hmem : c.byMemory with
  | true =>
    simp only [Check.condInstrs, hmem, ite_true, List.cons_append, List.nil_append, Check.cond,
      Check.compares, Check.events]
    rw [execInstrs_cons rfl, execOp_memcmp hname hne]
    cases c.objects env with
    | none => rfl
    | some o =>
      cases hcmp : ObjMem.cmp core.mem o.1 o.2 (c.size dl n).toNat with
      | none => simp [hcmp]
      | some eq =>
        simp only [Option.bind_some, hcmp]
        refine ⟨setValue (setValue env ⟨condBlock base j, 0⟩ (some (.int (if eq then 0 else 1))))
            ⟨condBlock base j, 1⟩ (some (.int (if eq then 1 else 0))), ?_, fun r hr => ?_⟩
        · cases eq <;>
            (simp [execInstrs, execOp, Check.result, getIntN, Value.eval, evalICmp, setValue,
              Core.logs, Core.log, hcmp]; rfl)
        · rw [hset _ _ _ r hr, hset _ _ _ r hr]
  | false =>
    simp only [Check.condInstrs, hmem, Bool.false_eq_true, ite_false, Check.cond, Check.compares,
      Check.events]
    have hlogs : core.logs [] = core := by simp [Core.logs]
    cases hev : (Value.constICmp .eq c.value1 c.value2).eval env with
    | none => cases c.folded <;> simp [execInstrs, execOp, hev]
    | some r =>
      obtain ⟨eq, rfl⟩ := eval_constICmp hev
      cases c.folded with
      | true =>
        refine ⟨env, ?_, fun _ _ => rfl⟩
        cases eq <;> simp [execInstrs, hev, hlogs]
      | false =>
        have hop : execOp W M' F (condBlock base j) prev env core (.icmp .eq c.value1 c.value2) =
            .value (some (.int (if eq then 1 else 0))) core := by simp only [execOp, hev]
        refine ⟨setValue env ⟨condBlock base j, 0⟩ (some (.int (if eq then 1 else 0))), ?_,
          hset _ _ _⟩
        simp only [Bool.false_eq_true, ite_false, List.cons_append, List.nil_append]
        rw [execInstrs_cons rfl, hop]
        cases eq <;> simp [execInstrs, hlogs, Value.eval]

variable (W env core) in
theorem failCode_step {b : Nat} {modName funcName : String}
    (hcode : M'.instrs h b = failCode assert (assertArgs modName funcName))
    (hname : assert.name = "__assert_fail") (hne : assert.index ≠ F) (prev : Nat) :
    step W M' F h ⟨prev, b, env, core⟩ = .inr (.failed (core.log core.mem (.assertFail b))) := by
  rw [step, hcode, failCode, execInstrs_cons rfl]
  simp [execOp, assertArgs, getIntN, Value.eval, hne, libCall, hname]

/-! ## Chains -/

/-- The code of a chain: its checks compare values from before, with the library's functions. -/
structure Chain (M' : Module) (h F base endBlock : Nat) (dl : DataLayout) (n : IterationsNumTy)
    (memcmp assert : FuncRef) (modName funcName : String) (checks : List Check) : Prop where
  cond : ∀ j c, checks[j]? = some c → M'.instrs h (condBlock base j) =
    condCode dl n memcmp base checks.length endBlock j c
  fail : ∀ j < checks.length,
    M'.instrs h (failBlock base j) = failCode assert (assertArgs modName funcName)
  below : ∀ c ∈ checks, c.Below base
  memcmp_name : memcmp.name = "memcmp"
  memcmp_ne : memcmp.index ≠ F
  assert_name : assert.name = "__assert_fail"
  assert_ne : assert.index ≠ F

variable {modName funcName : String} {checks : List Check}

theorem Chain.fail_step
    (hc : Chain M' h F base endBlock dl n memcmp assert modName funcName checks) {j : Nat}
    (hj : j < checks.length) (prev : Nat) (env : InstRef → Option RVal) (core : Core) :
    step W M' F h ⟨prev, failBlock base j, env, core⟩ =
      .inr (.failed (core.log core.mem (.assertFail (failBlock base j)))) :=
  failCode_step W env core (hc.fail j hj) hc.assert_name hc.assert_ne prev

variable (W env core) in
/-- A check after others: its comparison is that of the values from before the chain. -/
theorem Chain.check_step
    (hc : Chain M' h F base endBlock dl n memcmp assert modName funcName checks) {j : Nat}
    {c : Check} (hj : checks[j]? = some c) {env' : InstRef → Option RVal}
    (henv : ∀ r : InstRef, r.block < base → env' r = env r) (prev : Nat) :
    match c.compares dl n env core.mem with
    | none => step W M' F h ⟨prev, condBlock base j, env',
        core.logs ((checks.take j).flatMap (Check.events dl n env core.mem))⟩ =
          .inr (.stuck (core.logs ((checks.take j).flatMap (Check.events dl n env core.mem))))
    | some eq => ∃ env'', step W M' F h ⟨prev, condBlock base j, env',
        core.logs ((checks.take j).flatMap (Check.events dl n env core.mem))⟩ =
          .inl ⟨condBlock base j,
            if eq then nextBlock base checks.length endBlock (j + 1) else failBlock base j, env'',
            core.logs ((checks.take (j + 1)).flatMap (Check.events dl n env core.mem))⟩ ∧
        ∀ r : InstRef, r.block < base → env'' r = env r := by
  have hbelow := hc.below c (List.mem_of_getElem? hj)
  have hstep := condCode_step W env'
    (core.logs ((checks.take j).flatMap (Check.events dl n env core.mem)))
    (hc.cond j c hj) hc.memcmp_name hc.memcmp_ne prev
  have hmem : (core.logs ((checks.take j).flatMap (Check.events dl n env core.mem))).mem =
      core.mem := rfl
  rw [hmem, hbelow.compares henv, hbelow.events henv] at hstep
  have hlogs : (core.logs ((checks.take j).flatMap (Check.events dl n env core.mem))).logs
      (c.events dl n env core.mem) =
      core.logs ((checks.take (j + 1)).flatMap (Check.events dl n env core.mem)) := by
    simp [List.take_add_one, hj, Core.logs]
  rw [hlogs] at hstep
  cases hcmp : c.compares dl n env core.mem with
  | none =>
    rw [hcmp] at hstep
    exact hstep
  | some eq =>
    rw [hcmp] at hstep
    obtain ⟨env'', h1, henv''⟩ := hstep
    refine ⟨env'', h1, fun r hr => ?_⟩
    have hne : r.block ≠ condBlock base j := by
      unfold condBlock
      omega
    rw [henv'' r hne, henv r hr]

variable (W env core) in
/-- Checks whose comparisons hold are passed, one after the other. -/
theorem Chain.passed
    (hc : Chain M' h F base endBlock dl n memcmp assert modName funcName checks) (prev : Nat) :
    ∀ {j : Nat}, j ≤ checks.length →
      (∀ c ∈ checks.take j, c.compares dl n env core.mem = some true) →
      ∃ ts prev' env', Trail (step W M' F h)
          ⟨prev, nextBlock base checks.length endBlock 0, env, core⟩ ts
          ⟨prev', nextBlock base checks.length endBlock j, env',
            core.logs ((checks.take j).flatMap (Check.events dl n env core.mem))⟩ ∧
        ts.map Config.block = (List.range j).map (condBlock base) ∧
        ∀ r : InstRef, r.block < base → env' r = env r
  | 0, _, _ => ⟨[], prev, env, by simpa [Core.logs] using Trail.nil _, rfl, fun _ _ => rfl⟩
  | j + 1, hj, hpass => by
    obtain ⟨c, hcj⟩ : ∃ c, checks[j]? = some c := ⟨_, List.getElem?_eq_getElem hj⟩
    have htake : checks.take (j + 1) = checks.take j ++ [c] := by
      rw [List.take_add_one, hcj]
      rfl
    rw [htake, List.forall_mem_append] at hpass
    obtain ⟨ts, prev', env', htr, hts, henv⟩ := hc.passed prev (by omega) hpass.1
    have hstep := hc.check_step W env core hcj henv prev'
    rw [hpass.2 c (List.mem_singleton_self c)] at hstep
    obtain ⟨env'', h1, henv''⟩ := hstep
    have hnext : nextBlock base checks.length endBlock j = condBlock base j := if_pos hj
    rw [hnext] at htr
    refine ⟨ts ++ [_], condBlock base j, env'', htr.append (.single h1), ?_, henv''⟩
    rw [List.map_append, hts, List.range_succ, List.map_append]
    rfl

end

end Ephippion
