import Ephippion.Harness.Blocks
import Ephippion.Proof.Symbolic

/-!
# What `createSymbolicAssertions` builds

For two value vectors of one length, whatever the values are: a condition and a fail block for each
outbound position, chained in order from the start block to the end block (`ChainBuilt`,
`createSymbolicAssertions_of_ok`). The helper returns if what is compared has a size
(`createSymbolicAssertions_progress`).
-/

namespace Ephippion

/-! ## Changing blocks one after the other -/

/-- A fold that changes each of several blocks once. -/
theorem modifyEach {α : Type} {h : Nat} (blk : α → Nat) (f : α → List Instr → List Instr) :
    ∀ (l : List α) {M : Module}, (l.map blk).Nodup → (∀ a ∈ l, blk a < (M.blocks h).length) →
      h < M.functions.length →
      let M' := l.foldl (fun M a => M.modifyInstrs h (blk a) (f a)) M
      Builds h M M' ∧ (M'.blocks h).length = (M.blocks h).length ∧
        (∀ a ∈ l, M'.instrs h (blk a) = f a (M.instrs h (blk a))) ∧
        ∀ b ∉ l.map blk, M'.instrs h b = M.instrs h b
  | [], M, _, _, _ => ⟨.refl h M, rfl, by simp, by simp⟩
  | a :: l, M, hnd, hlt, hh => by
    rw [List.map_cons, List.nodup_cons] at hnd
    have ha := hlt a List.mem_cons_self
    have hB := Builds.modifyInstrs h M (blk a) (f a)
    obtain ⟨h1, h2, h3, h4⟩ := modifyEach blk f l (M := M.modifyInstrs h (blk a) (f a)) hnd.2
      (fun e he => by simpa using hlt e (List.mem_cons_of_mem a he)) (hB.lt hh)
    have hcode := Module.instrs_modifyInstrs ha (f a)
    refine ⟨hB.trans hh h1, by simpa using h2, fun e he => ?_, fun b hb => ?_⟩
    · rcases List.mem_cons.1 he with rfl | he
      · rw [List.foldl_cons, h4 _ hnd.1, hcode, Function.update_self]
      · have hne : blk e ≠ blk a := fun heq => hnd.1 (heq ▸ List.mem_map_of_mem he)
        rw [List.foldl_cons, h3 e he, hcode, Function.update_of_ne hne]
    · simp only [List.map_cons, List.mem_cons, not_or] at hb
      rw [List.foldl_cons, h4 b hb.2, hcode, Function.update_of_ne hb.1]

section
variable {h : Nat} {dl : DataLayout} {n : IterationsNumTy} {memcmp assert : FuncRef}
  {values1 values2 : List Value} {specs : List ArgSpec} {args : List Value}

/-! ## One position -/

theorem insert_eq {M : Module} {b k : Nat} {op : Op} (hk : (M.instrs h b).length = k) :
    M.insert h (.atEnd b) op =
      ((M.insert h (.atEnd b) op).1, .inst ⟨b, k⟩ op.type "" op.isAlloca) := by
  subst hk
  rfl

theorem createCondition_sized {M : Module} {r : Module × Value} {c : Check} {b : Nat}
    (hdl : M.dataLayout = dl)
    (hok : createCondition M h b c.value1 c.value2 memcmp n specs c.pos = .ok r)
    (hmem : c.byMemory) :
    dl.getTypeAllocSize c.value1.getType.getPointerElementType ≠ 0 := by
  have hp : c.value1.getType.isPointerTy = true := hmem
  simp only [createCondition, hp, Bool.not_true, Bool.false_eq_true, ite_false,
    Except.bind_eq_ok] at hok
  obtain ⟨size, hsize, -⟩ := hok
  exact hdl ▸ (typeAllocSize_eq_ok.1 hsize).1

theorem createCondition_step (n : IterationsNumTy) {M : Module} {c : Check} {b : Nat}
    (hb : b < (M.blocks h).length)
    (hempty : M.instrs h b = []) (hdl : M.dataLayout = dl) (hret : memcmp.type.ret = .int32Ty)
    (hspec : specs[c.pos]? = some c.spec)
    (hsize : c.byMemory → dl.getTypeAllocSize c.value1.getType.getPointerElementType ≠ 0) :
    ∃ M', createCondition M h b c.value1 c.value2 memcmp n specs c.pos = .ok (M', c.cond b) ∧
      Grown h b M (c.condInstrs dl n memcmp b) M' := by
  have hg := Grown.refl h b M
  rw [hempty] at hg
  cases hmem : c.byMemory with
  | false =>
    have hp : c.value1.getType.isPointerTy = false := hmem
    simp only [createCondition, hp, Bool.not_false, ite_true, Module.createICmp, Check.cond,
      Check.condInstrs, hmem, Bool.false_eq_true, ite_false]
    cases hf : c.folded with
    | true =>
      have hf' : (c.value1.isConstant && c.value2.isConstant) = true := hf
      simp only [hf', ite_true, Except.pure_eq]
      exact ⟨M, rfl, hg⟩
    | false =>
      have hf' : (c.value1.isConstant && c.value2.isConstant) = false := hf
      simp only [hf', Bool.false_eq_true, ite_false, Except.pure_eq]
      refine ⟨(M.insert h (.atEnd b) (.icmp .eq c.value1 c.value2)).1, ?_, hg.insert hb _⟩
      rw [insert_eq (k := 0) (by rw [hempty]; rfl)]
      rfl
  | true =>
    have hp : c.value1.getType.isPointerTy = true := hmem
    have hts : typeAllocSize M c.value1.getType.getPointerElementType =
        .ok (dl.getTypeAllocSize c.value1.getType.getPointerElementType) :=
      typeAllocSize_eq_ok.2 ⟨hdl ▸ hsize hmem, by rw [hdl]⟩
    let call : Op := .call memcmp [c.value1, c.value2, getIntN 64 (c.size dl n)]
    have g1 := hg.insert hb call
    have g2 := g1.insert hb (.icmp .eq (Check.result b) (getIntN 32 0))
    have hcall : M.insert h (.atEnd b) call = ((M.insert h (.atEnd b) call).1, Check.result b) := by
      rw [insert_eq (k := 0) (by rw [hempty]; rfl)]
      simp only [call, Op.type, hret]
      rfl
    simp only [createCondition, hp, Bool.not_true, Bool.false_eq_true, ite_false, hts,
      index_eq_ok.2 hspec, Except.ok_bind_eq, Check.cond, Check.condInstrs, hmem, ite_true]
    refine ⟨_, ?_, g2⟩
    rw [show createMul (multiplier c.spec n)
      (dl.getTypeAllocSize c.value1.getType.getPointerElementType) = getIntN 64 (c.size dl n) from
        rfl, hcall]
    simp only [Module.createICmp, Check.result, Value.isConstant, Bool.false_and,
      Bool.false_eq_true, ite_false]
    rw [insert_eq (k := 1) (by rw [g1.at_block]; rfl)]
    rfl

/-- The blocks after some positions, the checks of which are `checks`. -/
structure AssertDone (h : Nat) (dl : DataLayout) (n : IterationsNumTy) (memcmp assert : FuncRef)
    (args : List Value) (M : Module) (checks : List Check) (s : Assertions) : Prop where
  builds : Builds h M s.mod
  length : (s.mod.blocks h).length = (M.blocks h).length + 2 * checks.length
  condBlocks : s.condBlocks = (List.range checks.length).map (condBlock (M.blocks h).length)
  failBlocks : s.failBlocks = (List.range checks.length).map (failBlock (M.blocks h).length)
  conditions : s.conditions = checks.mapIdx fun j c => c.cond (condBlock (M.blocks h).length j)
  old : ∀ b < (M.blocks h).length, s.mod.instrs h b = M.instrs h b
  cond : ∀ j c, checks[j]? = some c → s.mod.instrs h (condBlock (M.blocks h).length j) =
    c.condInstrs dl n memcmp (condBlock (M.blocks h).length j)
  fail : ∀ j < checks.length, s.mod.instrs h (failBlock (M.blocks h).length j) =
    [⟨.call assert args, ""⟩]

theorem AssertDone.nil (h : Nat) (dl : DataLayout) (n : IterationsNumTy) (memcmp assert : FuncRef)
    (args : List Value) (M : Module) : AssertDone h dl n memcmp assert args M [] ⟨M, [], [], []⟩ :=
  ⟨.refl h M, rfl, rfl, rfl, rfl, fun _ _ => rfl, fun j c hc => by simp at hc,
    fun j hj => by simp at hj⟩

theorem AssertDone.snoc {M : Module} {checks : List Check} {s : Assertions} {c : Check}
    {M' : Module} (hs : AssertDone h dl n memcmp assert args M checks s)
    (hh : h < M.functions.length) {nm nf : String}
    (hg : let L := (s.mod.blocks h).length
      Grown h L ((s.mod.createBlock h nm).1.createBlock h nf).1 (c.condInstrs dl n memcmp L) M') :
    let L := (s.mod.blocks h).length
    AssertDone h dl n memcmp assert args M (checks ++ [c])
      ⟨M'.append h (L + 1) (.call assert args), s.conditions ++ [c.cond L], s.condBlocks ++ [L],
        s.failBlocks ++ [L + 1]⟩ := by
  intro L
  have hL : L = condBlock (M.blocks h).length checks.length := hs.length
  have hh1 := hs.builds.lt hh
  let M₁ := (s.mod.createBlock h nm).1
  let M₂ := (M₁.createBlock h nf).1
  have hb1 : Builds h s.mod M₁ := .createBlock h s.mod nm
  have hb2 : Builds h M₁ M₂ := .createBlock h M₁ nf
  have hlen : (M₂.blocks h).length = L + 2 := by
    rw [Module.length_blocks_createBlock (hb1.lt hh1), Module.length_blocks_createBlock hh1]
  have hin : M₂.instrs h = s.mod.instrs h := by
    rw [Module.instrs_createBlock (hb1.lt hh1), Module.instrs_createBlock hh1]
  have hcode : (M'.append h (L + 1) (.call assert args)).instrs h =
      Function.update (Function.update (s.mod.instrs h) L (c.condInstrs dl n memcmp L)) (L + 1)
        [⟨.call assert args, ""⟩] := by
    have hfail : M'.instrs h (L + 1) = [] := by
      rw [hg.code, Function.update_of_ne (by omega), hin]
      exact Module.instrs_of_le (by omega)
    rw [Module.instrs_append (by rw [hg.length, hlen]; omega), hfail, hg.code, hin]
    rfl
  have hat : ∀ b, b < L → (M'.append h (L + 1) (.call assert args)).instrs h b =
      s.mod.instrs h b := fun b hb => by
    rw [hcode, Function.update_of_ne (by omega), Function.update_of_ne (by omega)]
  refine ⟨?_, ?_, ?_, ?_, ?_, fun b hb => ?_, fun j c' hc => ?_, fun j hj => ?_⟩
  · exact (hs.builds.trans hh ((hb1.trans hh1 hb2).trans hh1 hg.builds)).trans hh
      (.append h M' _ _)
  · rw [Module.length_blocks_append, hg.length, hlen, List.length_append, List.length_singleton]
    unfold condBlock at hL
    omega
  · rw [List.length_append, List.length_singleton, List.range_succ, List.map_append,
      ← hs.condBlocks, List.map_singleton, ← hL]
  · rw [List.length_append, List.length_singleton, List.range_succ, List.map_append,
      ← hs.failBlocks, List.map_singleton, hL]
    rfl
  · rw [List.mapIdx_concat, ← hs.conditions, ← hL]
  · rw [hat b (by unfold condBlock at hL; omega), hs.old b hb]
  · rcases Nat.lt_trichotomy j checks.length with hj | hj | hj
    · rw [List.getElem?_append_left hj] at hc
      rw [hat _ (by unfold condBlock at hL ⊢; omega), hs.cond j c' hc]
    · subst hj
      rw [List.getElem?_concat_length, Option.some.injEq] at hc
      subst hc
      rw [← hL, hcode, Function.update_of_ne (by omega), Function.update_self]
    · rw [List.getElem?_eq_none (by simp; omega)] at hc
      cases hc
  · rcases Nat.lt_or_ge j checks.length with hj' | hj'
    · rw [hat _ (by unfold condBlock at hL; unfold failBlock; omega), hs.fail j hj']
    · have : failBlock (M.blocks h).length j = L + 1 := by
        rw [List.length_append, List.length_singleton] at hj
        unfold condBlock at hL
        unfold failBlock
        omega
      rw [this, hcode, Function.update_self]

theorem createSymbolicAssertion_step (values2 : List Value) (specs : List ArgSpec) {M : Module}
    {checks : List Check} {s : Assertions} {i : Nat}
    (hh : h < M.functions.length) (hdl : M.dataLayout = dl) (hret : memcmp.type.ret = .int32Ty)
    (hs : AssertDone h dl n memcmp assert args M checks s) (h1 : i < values1.length)
    (h2 : i < values2.length) (h3 : i < specs.length) :
    let new := (checkAt values1 values2 specs i).toList
    (∀ s', createSymbolicAssertion h values1 values2 memcmp assert args n specs s i = .ok s' →
      ChecksSized dl new) ∧
    (ChecksSized dl new → ∃ s',
      createSymbolicAssertion h values1 values2 memcmp assert args n specs s i = .ok s' ∧
        AssertDone h dl n memcmp assert args M (checks ++ new) s') := by
  intro new
  have hspec : specs[i]? = some specs[i] := List.getElem?_eq_getElem h3
  cases hout : isOutbound specs[i].direction with
  | false =>
    have hnew : new = [] := by simp [new, checkAt, h1, h2, h3, hout]
    have hok : createSymbolicAssertion h values1 values2 memcmp assert args n specs s i =
        .ok s := by
      simp [createSymbolicAssertion, sizeAndDirection_eq hspec, hout]
    rw [hnew]
    exact ⟨fun _ _ => by simp [ChecksSized], fun _ => ⟨s, hok, by simpa using hs⟩⟩
  | true =>
    let c : Check := ⟨i, values1[i], values2[i], specs[i]⟩
    have hnew : new = [c] := by simp [new, checkAt, h1, h2, h3, hout, c]
    let L := (s.mod.blocks h).length
    have hh1 := hs.builds.lt hh
    let M₁ := (s.mod.createBlock h ("cond" ++ toString i)).1
    let M₂ := (M₁.createBlock h ("fail" ++ toString i)).1
    have hb1 : Builds h s.mod M₁ := .createBlock h s.mod _
    have hb2 : Builds h M₁ M₂ := .createBlock h M₁ _
    have hlen1 : (M₁.blocks h).length = L + 1 := Module.length_blocks_createBlock hh1 _
    have hlen : (M₂.blocks h).length = L + 2 := by
      rw [Module.length_blocks_createBlock (hb1.lt hh1), hlen1]
    have hempty : M₂.instrs h L = [] := by
      rw [Module.instrs_createBlock (hb1.lt hh1), Module.instrs_createBlock hh1]
      exact Module.instrs_of_le (Nat.le_refl _)
    have hdl2 : M₂.dataLayout = dl := by
      rw [(hb1.trans hh1 hb2).ext.dataLayout, hs.builds.ext.dataLayout, hdl]
    have heq : createSymbolicAssertion h values1 values2 memcmp assert args n specs s i = (do
        let r ← createCondition M₂ h L c.value1 c.value2 memcmp n specs c.pos
        return ⟨r.1.append h (L + 1) (.call assert args), s.conditions ++ [r.2],
          s.condBlocks ++ [L], s.failBlocks ++ [L + 1]⟩) := by
      rw [← hlen1]
      simp only [createSymbolicAssertion, sizeAndDirection_eq hspec, hout, Bool.not_true,
        Except.ok_bind_eq, Bool.false_eq_true, ite_false,
        index_eq_ok.2 (List.getElem?_eq_getElem h1), index_eq_ok.2 (List.getElem?_eq_getElem h2)]
      rfl
    rw [hnew, heq]
    constructor
    · intro s' hok e he
      rw [List.mem_singleton.1 he]
      rw [Except.bind_eq_ok] at hok
      obtain ⟨r, hr, -⟩ := hok
      exact createCondition_sized hdl2 hr
    · intro hsized
      obtain ⟨M', hok, hg⟩ := createCondition_step (c := c) n (b := L)
        (by rw [hlen]; omega) hempty hdl2 hret hspec (hsized c (by simp))
      exact ⟨_, Except.bind_eq_ok.2 ⟨_, hok, rfl⟩, hs.snoc hh hg⟩

/-- The fold over the positions, from either side. -/
theorem assertFold (n : IterationsNumTy) (assert : FuncRef) (args : List Value) {M : Module}
    (hh : h < M.functions.length) (hret : memcmp.type.ret = .int32Ty)
    (hlen : values2.length = values1.length) (hspecs : values1.length ≤ specs.length) :
    let fold := (List.range values1.length).foldlM (createSymbolicAssertion h values1 values2 memcmp
      assert args n specs) ⟨M, [], [], []⟩
    let checks := checksAt values1 values2 specs (List.range values1.length)
    (∀ s, fold = .ok s → ChecksSized M.dataLayout checks ∧
      AssertDone h M.dataLayout n memcmp assert args M checks s) ∧
    (ChecksSized M.dataLayout checks → ∃ s, fold = .ok s) := by
  intro fold checks
  have hlt : ∀ (done : List Nat) (i : Nat), done ++ [i] <+: List.range values1.length →
      i < values1.length := fun done i hpre => List.mem_range.1 (hpre.subset (by simp))
  have hsnoc : ∀ (done : List Nat) (i : Nat), checksAt values1 values2 specs (done ++ [i]) =
      checksAt values1 values2 specs done ++ (checkAt values1 values2 specs i).toList := by
    intro done i
    rw [checksAt, List.filterMap_append]
    cases hc : checkAt values1 values2 specs i <;> simp [checksAt, hc]
  constructor
  · intro s hok
    have hstep : ∀ (done : List Nat) (i : Nat) (s s' : Assertions),
        done ++ [i] <+: List.range values1.length →
        (ChecksSized M.dataLayout (checksAt values1 values2 specs done) ∧
          AssertDone h M.dataLayout n memcmp assert args M
            (checksAt values1 values2 specs done) s) →
        createSymbolicAssertion h values1 values2 memcmp assert args n specs s i = .ok s' →
        ChecksSized M.dataLayout (checksAt values1 values2 specs (done ++ [i])) ∧
          AssertDone h M.dataLayout n memcmp assert args M
            (checksAt values1 values2 specs (done ++ [i])) s' := by
      intro done i s s' hpre hd hok
      obtain ⟨hsz, hs⟩ := hd
      have hi := hlt done i hpre
      obtain ⟨hA, hB⟩ := createSymbolicAssertion_step values2 specs hh rfl hret
          hs hi (by omega) (by omega)
      obtain ⟨s'', hok', hs''⟩ := hB (hA s' hok)
      rw [hok] at hok'
      cases hok'
      rw [hsnoc]
      refine ⟨fun c hc => ?_, hs''⟩
      rcases List.mem_append.1 hc with hc | hc
      · exact hsz c hc
      · exact hA s' hok c hc
    exact Except.foldlM_ok ⟨by simp [checksAt, ChecksSized], .nil h _ n memcmp assert args M⟩
      hstep hok
  · intro hsized
    obtain ⟨s, hok, -⟩ := Except.foldlM_progress (P := fun done s =>
      AssertDone h M.dataLayout n memcmp assert args M (checksAt values1 values2 specs done) s)
      (.nil h _ n memcmp assert args M) (fun done i s hpre hs => by
        have hi := hlt done i hpre
        have hnew : ChecksSized M.dataLayout (checkAt values1 values2 specs i).toList := by
          intro c hc
          refine hsized c (List.mem_filterMap.2 ⟨i, List.mem_range.2 hi, ?_⟩)
          simpa using hc
        obtain ⟨-, hB⟩ := createSymbolicAssertion_step values2 specs hh rfl hret
          hs hi (by omega) (by omega)
        rw [hsnoc]
        exact hB hnew)
    exact ⟨s, hok⟩

/-! ## Linking -/

theorem condBlock_inj {base i j : Nat} : condBlock base i = condBlock base j ↔ i = j := by
  unfold condBlock
  omega

theorem failBlock_inj {base i j : Nat} : failBlock base i = failBlock base j ↔ i = j := by
  unfold failBlock
  omega

theorem failBlock_ne_condBlock {base i j : Nat} : failBlock base i ≠ condBlock base j := by
  unfold failBlock condBlock
  omega

/-- What `setSuccessor0` makes of a block that ends in a conditional branch. -/
def setSucc0 (dest : Nat) (is : List Instr) : List Instr :=
  is.modify (is.length - 1) fun i => match i.op with
    | .br _ => { i with op := .br dest }
    | .condBr c _ e => { i with op := .condBr c dest e }
    | _ => i

theorem setSucc0_condBr (dest : Nat) (is : List Instr) (v : Value) (t e : Nat) (nm : String) :
    setSucc0 dest (is ++ [⟨.condBr v t e, nm⟩]) = is ++ [⟨.condBr v dest e, nm⟩] := by
  apply List.ext_getElem?
  intro k
  simp only [setSucc0, List.getElem?_modify, List.length_append, List.length_singleton,
    Nat.add_sub_cancel]
  rcases Nat.lt_trichotomy k is.length with hk | rfl | hk
  · simp [List.getElem?_append_left hk, Nat.ne_of_gt hk]
  · simp
  · rw [List.getElem?_eq_none (by simp; omega), List.getElem?_eq_none (by simp; omega)]
    rfl

/-- The chain of checks that `M'` has after `M`. -/
structure ChainBuilt (h start endBlock : Nat) (n : IterationsNumTy) (memcmp assert : FuncRef)
    (args : List Value) (checks : List Check) (M M' : Module) : Prop where
  builds : Builds h M M'
  length : (M'.blocks h).length = (M.blocks h).length + 2 * checks.length
  old : ∀ b < (M.blocks h).length, b ≠ start → M'.instrs h b = M.instrs h b
  start : M'.instrs h start = M.instrs h start ++
    [⟨.br (nextBlock (M.blocks h).length checks.length endBlock 0), ""⟩]
  cond : ∀ j c, checks[j]? = some c → M'.instrs h (condBlock (M.blocks h).length j) =
    condCode M.dataLayout n memcmp (M.blocks h).length checks.length endBlock j c
  fail : ∀ j < checks.length, M'.instrs h (failBlock (M.blocks h).length j) = failCode assert args

/-- Everything after the fold over the positions. -/
def linkChain (h startBlock endBlock : Nat) (s : Assertions) : Except Stop Module := do
  let M := s.failBlocks.foldl (fun M e => M.append h e .unreachable) s.mod
  let M ← s.condBlocks.zipIdx.foldlM (linkFail h endBlock s.conditions s.failBlocks) M
  let M ← (List.range' 1 (s.condBlocks.length - 1)).foldlM (linkNext h s.condBlocks) M
  match s.condBlocks.head?, s.condBlocks.getLast? with
  | some front, some back =>
    let M := M.append h startBlock (.br front)
    return M.setSuccessor0 h back endBlock
  | _, _ => return M.append h startBlock (.br endBlock)

/-- The checks after `M`, each condition going on to `next`. -/
structure ChecksLinked (h : Nat) (n : IterationsNumTy) (memcmp assert : FuncRef)
    (args : List Value) (checks : List Check) (M M' : Module) (next : Nat → Nat) : Prop where
  builds : Builds h M M'
  length : (M'.blocks h).length = (M.blocks h).length + 2 * checks.length
  old : ∀ b < (M.blocks h).length, M'.instrs h b = M.instrs h b
  cond : ∀ j c, checks[j]? = some c → M'.instrs h (condBlock (M.blocks h).length j) =
    c.condInstrs M.dataLayout n memcmp (condBlock (M.blocks h).length j) ++
      [⟨.condBr (c.cond (condBlock (M.blocks h).length j)) (next j)
        (failBlock (M.blocks h).length j), ""⟩]
  fail : ∀ j < checks.length, M'.instrs h (failBlock (M.blocks h).length j) = failCode assert args

/-- The blocks get their terminators: every condition goes on to the end. -/
theorem terminateChecks (endBlock : Nat) {M : Module} {checks : List Check} {s : Assertions}
    (hh : h < M.functions.length)
    (hs : AssertDone h M.dataLayout n memcmp assert args M checks s) :
    ∃ M', s.condBlocks.zipIdx.foldlM (linkFail h endBlock s.conditions s.failBlocks)
        (s.failBlocks.foldl (fun M e => M.append h e .unreachable) s.mod) = .ok M' ∧
      ChecksLinked h n memcmp assert args checks M M' fun _ => endBlock := by
  let base := (M.blocks h).length
  let m := checks.length
  let C := condBlock base
  let F := failBlock base
  have hh1 := hs.builds.lt hh
  have hlt : ∀ j < m, C j < (s.mod.blocks h).length ∧ F j < (s.mod.blocks h).length :=
    fun j hj => by
      rw [hs.length]
      simp only [C, F, base, condBlock, failBlock]
      omega
  -- the fail blocks
  let M₁ := (List.range m).foldl
    (fun M j => M.modifyInstrs h (F j) (· ++ [⟨.unreachable, ""⟩])) s.mod
  have e1 : s.failBlocks.foldl (fun M e => M.append h e .unreachable) s.mod = M₁ := by
    rw [hs.failBlocks, List.foldl_map]
    rfl
  obtain ⟨b1, l1, on1, off1⟩ := modifyEach (h := h) F (fun _ is => is ++ [⟨.unreachable, ""⟩])
    (List.range m) (M := s.mod) ((List.nodup_range).map fun _ _ => failBlock_inj.1)
    (fun j hj => (hlt j (List.mem_range.1 hj)).2) hh1
  -- the condition blocks
  let cond : Nat → Value := fun j => (s.conditions[j]?).getD (.constInt 1 0)
  let M₂ := (List.range m).foldl
    (fun M j => M.modifyInstrs h (C j) (· ++ [⟨.condBr (cond j) endBlock (F j), ""⟩])) M₁
  have e2 : s.condBlocks.zipIdx.foldlM (linkFail h endBlock s.conditions s.failBlocks) M₁ =
      .ok M₂ := by
    have hz : s.condBlocks.zipIdx = (List.range m).map fun j => (C j, j) := by
      rw [hs.condBlocks]
      apply List.ext_getElem <;> simp [C, base, m]
    rw [hz, List.foldlM_map]
    refine Except.foldlM_eq_foldl (fun j hj M => ?_) M₁
    have hj' := List.mem_range.1 hj
    have hc : index s.conditions j = .ok (cond j) := by
      rw [index_eq_ok]
      simp [cond, hs.conditions, show j < checks.length from hj']
    have hf : index s.failBlocks j = .ok (F j) := by
      rw [index_eq_ok, hs.failBlocks]
      simp [F, base, show j < checks.length from hj']
    simp only [linkFail, hc, hf, Except.ok_bind_eq]
    rfl
  obtain ⟨b2, l2, on2, off2⟩ := modifyEach (h := h) C
    (fun j is => is ++ [⟨.condBr (cond j) endBlock (F j), ""⟩]) (List.range m) (M := M₁)
    ((List.nodup_range).map fun _ _ => condBlock_inj.1)
    (fun j hj => by rw [l1]; exact (hlt j (List.mem_range.1 hj)).1) (b1.lt hh1)
  refine ⟨M₂, by rw [e1, e2], hs.builds.trans hh (b1.trans hh1 b2), by rw [l2, l1, hs.length],
    fun b hb => ?_, fun j c hc => ?_, fun j hj => ?_⟩
  · rw [off2 b, off1 b, hs.old b hb] <;> simp only [List.mem_map, not_exists, not_and]
    · intro j _ he
      simp only [F, failBlock, base] at he
      omega
    · intro j _ he
      simp only [C, condBlock, base] at he
      omega
  · have hj : j < m := (List.getElem?_eq_some_iff.1 hc).1
    have hfail : C j ∉ (List.range m).map F := by
      simpa using fun i _ he => failBlock_ne_condBlock he
    refine (on2 j (List.mem_range.2 hj)).trans ?_
    rw [off1 (C j) hfail, hs.cond j c hc]
    simp [cond, hs.conditions, hc, F, base]
  · have hcond : F j ∉ (List.range m).map C := by
      simpa using fun i _ he => failBlock_ne_condBlock he.symm
    refine (off2 (F j) hcond).trans ((on1 j (List.mem_range.2 hj)).trans ?_)
    rw [hs.fail j hj]
    rfl

/-- All but the last condition go on to the one after them. -/
theorem chainChecks {endBlock : Nat} {M M₂ : Module} {checks : List Check} {s : Assertions}
    (hh : h < M.functions.length)
    (hcb : s.condBlocks = (List.range checks.length).map (condBlock (M.blocks h).length))
    (hc : ChecksLinked h n memcmp assert args checks M M₂ fun _ => endBlock) :
    ∃ M', (List.range' 1 (s.condBlocks.length - 1)).foldlM (linkNext h s.condBlocks) M₂ = .ok M' ∧
      ChecksLinked h n memcmp assert args checks M M' fun j =>
        nextBlock (M.blocks h).length checks.length endBlock (j + 1) := by
  let base := (M.blocks h).length
  let m := checks.length
  let C := condBlock base
  let M₃ := (List.range' 1 (m - 1)).foldl
    (fun M i => M.modifyInstrs h (C (i - 1)) (setSucc0 (C i))) M₂
  have hrange : ∀ i, i ∈ List.range' 1 (m - 1) ↔ 1 ≤ i ∧ i < m := fun i => by
    rw [List.mem_range'_1]
    omega
  have e3 : (List.range' 1 (s.condBlocks.length - 1)).foldlM (linkNext h s.condBlocks) M₂ =
      .ok M₃ := by
    have hl : s.condBlocks.length = m := by rw [hcb]; simp [m]
    rw [hl]
    refine Except.foldlM_eq_foldl (fun i hi M => ?_) M₂
    obtain ⟨hi1, hi2⟩ := (hrange i).1 hi
    have hix : ∀ j < m, index s.condBlocks j = .ok (C j) := fun j hj => by
      rw [index_eq_ok, hcb]
      simp [C, base, show j < checks.length from hj]
    simp only [linkNext, hix i hi2, hix (i - 1) (by omega), Except.ok_bind_eq]
    rfl
  have hnodup : ((List.range' 1 (m - 1)).map fun i => C (i - 1)).Nodup :=
    List.Nodup.map_on (fun i hi j hj he => by
      have := (hrange i).1 hi
      have := (hrange j).1 hj
      have := condBlock_inj.1 he
      omega) List.nodup_range'
  obtain ⟨b3, l3, on3, off3⟩ := modifyEach (h := h) (fun i => C (i - 1)) (fun i => setSucc0 (C i))
    (List.range' 1 (m - 1)) (M := M₂) hnodup
    (fun i hi => by
      have := (hrange i).1 hi
      rw [hc.length]
      simp only [C, base, condBlock]
      omega)
    (hc.builds.lt hh)
  refine ⟨M₃, e3, hc.builds.trans hh b3, l3.trans hc.length, fun b hb => ?_, fun j c hj => ?_,
    fun j hj => ?_⟩
  · rw [off3 b, hc.old b hb]
    simp only [List.mem_map, not_exists, not_and]
    intro j _ he
    simp only [C, condBlock, base] at he
    omega
  · have hjm : j < m := (List.getElem?_eq_some_iff.1 hj).1
    by_cases hlast : j + 1 < m
    · have h3 := on3 (j + 1) ((hrange _).2 ⟨by omega, hlast⟩)
      simp only [Nat.add_sub_cancel] at h3
      rw [h3, hc.cond j c hj, setSucc0_condBr, nextBlock, if_pos hlast]
    · rw [off3 (C j), hc.cond j c hj, nextBlock, if_neg hlast]
      simp only [List.mem_map, not_exists, not_and]
      intro i hi he
      have := (hrange i).1 hi
      have := condBlock_inj.1 he
      omega
  · have hcond : failBlock base j ∉ (List.range' 1 (m - 1)).map fun i => C (i - 1) := by
      simpa using fun i _ _ he => failBlock_ne_condBlock he.symm
    exact (off3 _ hcond).trans (hc.fail j hj)

theorem ChecksLinked.start {start endBlock : Nat} {M M₃ : Module} {checks : List Check}
    (hstart : start < (M.blocks h).length)
    (hc : ChecksLinked h n memcmp assert args checks M M₃ fun j =>
      nextBlock (M.blocks h).length checks.length endBlock (j + 1)) :
    ChainBuilt h start endBlock n memcmp assert args checks M
      (M₃.append h start (.br (nextBlock (M.blocks h).length checks.length endBlock 0))) := by
  have hlt : start < (M₃.blocks h).length := by rw [hc.length]; omega
  have hcode := Module.instrs_append hlt
    (.br (nextBlock (M.blocks h).length checks.length endBlock 0))
  refine ⟨hc.builds.trans (Module.lt_of_blocks hstart) (.append h M₃ _ _),
    by rw [Module.length_blocks_append, hc.length], fun b hb hne => ?_, ?_, fun j c hj => ?_,
    fun j hj => ?_⟩
  · rw [hcode, Function.update_of_ne hne, hc.old b hb]
  · rw [hcode, Function.update_self, hc.old start hstart]
  · have hne : condBlock (M.blocks h).length j ≠ start := by unfold condBlock; omega
    rw [hcode, Function.update_of_ne hne, hc.cond j c hj, condCode]
  · have hne : failBlock (M.blocks h).length j ≠ start := by unfold failBlock; omega
    rw [hcode, Function.update_of_ne hne, hc.fail j hj]

/-- The last condition goes on to the end already. -/
theorem ChainBuilt.setLast {start endBlock : Nat} {M M' : Module} {checks : List Check} {k : Nat}
    (hc : ChainBuilt h start endBlock n memcmp assert args checks M M')
    (hh : h < M.functions.length) (hk : checks.length = k + 1) :
    ChainBuilt h start endBlock n memcmp assert args checks M
      (M'.setSuccessor0 h (condBlock (M.blocks h).length k) endBlock) := by
  obtain ⟨c, hck⟩ : ∃ c, checks[k]? = some c :=
    ⟨_, List.getElem?_eq_getElem (show k < checks.length by omega)⟩
  have hback := hc.cond k c hck
  rw [condCode, nextBlock, if_neg (by omega)] at hback
  have hlt : condBlock (M.blocks h).length k < (M'.blocks h).length := by
    rw [hc.length]
    unfold condBlock
    omega
  have hsame : (M'.setSuccessor0 h (condBlock (M.blocks h).length k) endBlock).instrs h =
      M'.instrs h := by
    refine (Module.instrs_modifyInstrs hlt (setSucc0 endBlock)).trans ?_
    rw [hback, setSucc0_condBr, ← hback, Function.update_eq_self]
  refine ⟨hc.builds.trans hh (.modifyInstrs h _ _ _), ?_, ?_, ?_, ?_, ?_⟩
  · rw [← hc.length]
    exact Module.length_blocks_modifyInstrs ..
  · rw [hsame]
    exact hc.old
  · rw [hsame]
    exact hc.start
  · rw [hsame]
    exact hc.cond
  · rw [hsame]
    exact hc.fail

theorem linkChain_spec (start endBlock : Nat) {M : Module} {checks : List Check} {s : Assertions}
    (hstart : start < (M.blocks h).length)
    (hs : AssertDone h M.dataLayout n memcmp assert args M checks s) :
    ∃ M', linkChain h start endBlock s = .ok M' ∧
      ChainBuilt h start endBlock n memcmp assert args checks M M' := by
  have hh := Module.lt_of_blocks hstart
  obtain ⟨M₂, e2, hterm⟩ := terminateChecks endBlock hh hs
  obtain ⟨M₃, e3, hchain⟩ := chainChecks hh hs.condBlocks hterm
  have hfirst := hchain.start hstart
  rcases Nat.eq_zero_or_eq_succ_pred checks.length with hm | hm
  · refine ⟨_, ?_, hfirst⟩
    have hnil : s.condBlocks = [] := by rw [hs.condBlocks, hm]; rfl
    simp only [linkChain, e2, e3, Except.ok_bind_eq]
    rw [hnil, nextBlock, if_neg (by omega)]
    rfl
  · generalize checks.length.pred = k at hm
    have hcb := hs.condBlocks
    rw [hm] at hcb
    have hhead : s.condBlocks.head? = some (condBlock (M.blocks h).length 0) := by
      rw [hcb, List.range_succ_eq_map]
      rfl
    have hlast : s.condBlocks.getLast? = some (condBlock (M.blocks h).length k) := by
      rw [hcb, List.range_succ, List.map_append, List.map_singleton, List.getLast?_concat]
    rw [nextBlock, if_pos (by omega)] at hfirst
    refine ⟨_, ?_, hfirst.setLast hh hm⟩
    simp only [linkChain, e2, e3, Except.ok_bind_eq, hhead, hlast]
    rfl

/-- What `createSymbolicAssertions` leaves. -/
structure AssertionsBuilt (h start endBlock : Nat) (n : IterationsNumTy) (checks : List Check)
    (M M' : Module) (memcmp assert : FuncRef) : Prop where
  sized : ChecksSized M.dataLayout checks
  memcmp_declared : Declared M' memcmp "memcmp" kleeType
  assert_declared : Declared M' assert "__assert_fail" assertType
  chain : ChainBuilt h start endBlock n memcmp assert
    (assertArgs M.name ((M.functions[h]?.map (·.name)).getD "")) checks M M'

theorem createSymbolicAssertions_eq {M : Module} {start endBlock : Nat} (hne : values1 ≠ [])
    (hlen : values2.length = values1.length) :
    createSymbolicAssertions M h start endBlock values1 values2 n specs = (do
      let (M, assertFunc) ← declareAssertLikeFunc M "__assert_fail"
      let (M, memcmpFunc) ← declareKLEELikeFunc M "memcmp"
      let (M, funcName) := M.createGlobalStringPtr ((M.functions[h]?.map (·.name)).getD "")
      let (M, modName) := M.createGlobalStringPtr M.name
      let (M, assertText) := M.createGlobalStringPtr "FAILED"
      let s ← (List.range values1.length).foldlM
        (createSymbolicAssertion h values1 values2 memcmpFunc assertFunc
          [assertText, modName, getIntN 32 0, funcName] n specs) ⟨M, [], [], []⟩
      linkChain h start endBlock s) := by
  have hpos : 0 < values1.length := List.length_pos_of_ne_nil hne
  have hne2 : values2 ≠ [] := List.ne_nil_of_length_pos (by omega)
  have hempty : ¬ (values1.isEmpty || values2.isEmpty) = true := by simp [hne, hne2]
  rw [createSymbolicAssertions, if_neg hempty, if_neg (not_not_intro hlen.symm)]
  rfl

theorem ChainBuilt.of_blocks {M M₁ M' : Module} {start endBlock : Nat} {checks : List Check}
    (hh : h < M.functions.length) (hb : Builds h M M₁) (hbl : M₁.blocks = M.blocks)
    (hc : ChainBuilt h start endBlock n memcmp assert args checks M₁ M') :
    ChainBuilt h start endBlock n memcmp assert args checks M M' := by
  obtain ⟨h1, h2, h3, h4, h5, h6⟩ := hc
  have hin : M₁.instrs = M.instrs := by unfold Module.instrs; rw [hbl]
  rw [hbl] at h2 h3 h4 h5 h6
  rw [hin] at h3 h4
  rw [hb.ext.dataLayout] at h5
  exact ⟨hb.trans hh h1, h2, h3, h4, h5, h6⟩

theorem assertionsStart {M M₁ M₂ : Module} {start : Nat} (hstart : start < (M.blocks h).length)
    (h1 : declareAssertLikeFunc M "__assert_fail" = .ok (M₁, assert))
    (h2 : declareKLEELikeFunc M₁ "memcmp" = .ok (M₂, memcmp)) :
    let f := (M₂.functions[h]?.map (·.name)).getD ""
    let M₃ := (((M₂.createGlobalStringPtr f).1.createGlobalStringPtr
      M₂.name).1.createGlobalStringPtr "FAILED").1
    Builds h M M₃ ∧ M₃.blocks = M.blocks ∧ M₂.name = M.name ∧
      f = (M.functions[h]?.map (·.name)).getD "" ∧ Declared M₃ assert "__assert_fail" assertType ∧
      Declared M₃ memcmp "memcmp" kleeType := by
  intro f M₃
  have hh := Module.lt_of_blocks hstart
  have c1 : LibCast h M M₁ assert ("__assert_fail", assertType) := libCast_of_ok hh (by decide) h1
  have c2 : LibCast h M₁ M₂ memcmp ("memcmp", kleeType) :=
    libCast_of_ok (c1.builds.lt hh) (by decide) h2
  have b2 : Builds h M M₂ := c1.builds.trans hh c2.builds
  have hh2 := b2.lt hh
  have b3 : Builds h M₂ M₃ := (Builds.createGlobalStringPtr h M₂ f).trans hh2
    ((Builds.createGlobalStringPtr h _ M₂.name).trans hh2 (.createGlobalStringPtr h _ "FAILED"))
  refine ⟨b2.trans hh b3, c2.blocks.trans c1.blocks, b2.ext.name, ?_,
    (c1.declared.builds c2.builds).builds b3, c2.declared.builds b3⟩
  obtain ⟨bs, hbs⟩ := b2.ext.self _ (List.getElem?_eq_getElem hh)
  simp only [f, hbs, List.getElem?_eq_getElem hh, Option.map_some]

theorem createSymbolicAssertions_of_ok {M M' : Module} {start endBlock : Nat}
    (hstart : start < (M.blocks h).length) (hne : values1 ≠ [])
    (hlen : values2.length = values1.length) (hspecs : values1.length ≤ specs.length)
    (hok : createSymbolicAssertions M h start endBlock values1 values2 n specs = .ok M') :
    ∃ memcmp assert, AssertionsBuilt h start endBlock n
      (checksAt values1 values2 specs (List.range values1.length)) M M' memcmp assert := by
  rw [createSymbolicAssertions_eq hne hlen] at hok
  simp only [Except.bind_eq_ok, Prod.exists] at hok
  obtain ⟨M₁, assert, h1, M₂, memcmp, h2, s, hfold, hlink⟩ := hok
  obtain ⟨b3, hbl, hname, hf, hda, hdm⟩ := assertionsStart hstart h1 h2
  have hh := Module.lt_of_blocks hstart
  obtain ⟨hsized, hs⟩ := (assertFold n assert _ (b3.lt hh)
    (by rw [hdm.type_eq]; rfl) hlen hspecs).1 s hfold
  obtain ⟨M₄, hok, hchain⟩ := linkChain_spec start endBlock
    (by rw [hbl]; exact hstart) hs
  rw [hlink] at hok
  cases hok
  have hargs : assertArgs M.name ((M.functions[h]?.map (·.name)).getD "") =
      assertArgs M₂.name ((M₂.functions[h]?.map (·.name)).getD "") := by rw [hname, hf]
  exact ⟨memcmp, assert, b3.ext.dataLayout ▸ hsized, hdm.builds hchain.builds,
    hda.builds hchain.builds, hargs ▸ hchain.of_blocks hh b3 hbl⟩

theorem createSymbolicAssertions_progress (n : IterationsNumTy) (endBlock : Nat) {M : Module}
    {start : Nat}
    (hstart : start < (M.blocks h).length) (hne : values1 ≠ [])
    (hlen : values2.length = values1.length) (hspecs : values1.length ≤ specs.length)
    (ha : Declares M "__assert_fail" assertType) (hm : Declares M "memcmp" kleeType)
    (hsized : ChecksSized M.dataLayout
      (checksAt values1 values2 specs (List.range values1.length))) :
    ∃ M', createSymbolicAssertions M h start endBlock values1 values2 n specs = .ok M' := by
  have hh := Module.lt_of_blocks hstart
  obtain ⟨⟨M₁, assert⟩, h1⟩ := libCast_progress (d := ("__assert_fail", assertType)) ha
  have c1 : LibCast h M M₁ assert ("__assert_fail", assertType) := libCast_of_ok hh (by decide) h1
  obtain ⟨⟨M₂, memcmp⟩, h2⟩ := libCast_progress (d := ("memcmp", kleeType))
    ((c1.builds.libs ("memcmp", kleeType) (by decide)).2 hm)
  obtain ⟨b3, hbl, -, -, -, hdm⟩ := assertionsStart hstart h1 h2
  rw [← b3.ext.dataLayout] at hsized
  have hfold := assertFold n assert (assertArgs M₂.name ((M₂.functions[h]?.map (·.name)).getD ""))
    (b3.lt hh)
    (by rw [hdm.type_eq]; rfl) hlen hspecs
  obtain ⟨s, hs⟩ := hfold.2 hsized
  obtain ⟨M₄, hok, -⟩ := linkChain_spec start endBlock
    (by rw [hbl]; exact hstart) (hfold.1 s hs).2
  rw [createSymbolicAssertions_eq hne hlen]
  exact Except.exists_bind_ok h1 (Except.exists_bind_ok h2 (Except.exists_bind_ok hs ⟨M₄, hok⟩))

end

end Ephippion
