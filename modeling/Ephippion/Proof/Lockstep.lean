import Ephippion.Proof.Encapsulate
import Ephippion.Proof.Specs
import Ephippion.Proof.Twin

/-!
# Generating the same harness twice

The helpers of a generation, run on two twin functions with the same parameters and specifications,
keep the twins (`fillHarness_both`): what a harness becomes depends on `F`, the iteration count and
the specifications of `F`'s parameters only.
-/

namespace Ephippion

open Except (Both)

/-- Two lists of specifications that agree on the first `k` parameters. -/
structure SameSpecs (k : Nat) (specs specs' : List ArgSpec) : Prop where
  length : k ≤ specs.length
  length' : k ≤ specs'.length
  getElem? : ∀ i < k, specs[i]? = specs'[i]?

theorem SameSpecs.reads {k : Nat} {specs specs' : List ArgSpec} (hs : SameSpecs k specs specs') :
    ReadsAgree k specs specs' := by
  refine ⟨hs.length, hs.length', fun i hi spec spec' h h' => ?_⟩
  rw [hs.getElem? i hi, h'] at h
  cases h
  exact ⟨rfl, rfl⟩

theorem Twin.typeAllocSize {F h h' : Nat} {M M' : Module} (ht : Twin F h M h' M') (t : Ty) :
    typeAllocSize M t = typeAllocSize M' t := by
  rw [Ephippion.typeAllocSize, Ephippion.typeAllocSize, ht.dataLayout]

theorem anon_call {F : Nat} {ref ref' : FuncRef} (hr : ref.anon F = ref'.anon F)
    (args : List Value) : (Op.call ref args).anon F = (Op.call ref' args).anon F :=
  congrArg (Op.call · args) hr

section
variable {F h h' : Nat} {n : IterationsNumTy} {specs : List ArgSpec} {M M' : Module}

/-! ## The setup -/

structure SetupTwins (F h h' : Nat) (s s' : ArgSetup) : Prop where
  mod : Twin F h s.mod h' s'.mod
  heapAllocs : s.heapAllocs = s'.heapAllocs
  callArgs1 : s.callArgs1 = s'.callArgs1
  callArgs2 : s.callArgs2 = s'.callArgs2

theorem setupHarnessArg_both {malloc malloc' : FuncRef} (hm : malloc.anon F = malloc'.anon F)
    (setup : Nat) {s s' : ArgSetup} (ht : SetupTwins F h h' s s') (arg : Param × Nat) :
    Both (SetupTwins F h h') (setupHarnessArg h specs setup malloc n s arg)
      (setupHarnessArg h' specs setup malloc' n s' arg) := by
  obtain ⟨p, i⟩ := arg
  obtain ⟨M, heap, args1, args2⟩ := s
  obtain ⟨M', heap', args1', args2'⟩ := s'
  obtain ⟨ht, rfl, rfl, rfl⟩ := ht
  simp only at ht
  simp only [setupHarnessArg, ht.typeAllocSize]
  generalize isOutbound _ = out
  by_cases hp : (!p.type.isPointerTy) = true
  · rw [if_pos hp, if_pos hp]
    have h1 := ht.createAlloca (.atEnd setup) p.type p.name
    have h2 := h1.mod.createAlloca (.atEnd setup) p.type p.name
    cases out with
    | true =>
      simp only [if_true]
      exact .ok ⟨h2.mod, rfl, by rw [h1.value], by rw [h2.value]⟩
    | false =>
      simp only [Bool.false_eq_true, if_false]
      exact .ok ⟨h1.mod, rfl, by rw [h1.value], by rw [h1.value]⟩
  · rw [if_neg hp, if_neg hp]
    refine .bind_same rfl fun size _ => .bind_same rfl fun spec _ => ?_
    have h1 := ht.insert (anon_call hm [createMul (multiplier spec n) size]) (.atEnd setup)
    have h2 := h1.mod.insert (anon_call hm [createMul (multiplier spec n) size]) (.atEnd setup)
    cases out with
    | true =>
      simp only [if_true]
      exact .ok ⟨h2.mod, by rw [h1.value, h2.value], by rw [h1.value], by rw [h2.value]⟩
    | false =>
      simp only [Bool.false_eq_true, if_false]
      exact .ok ⟨h1.mod, by rw [h1.value], by rw [h1.value], by rw [h1.value]⟩

theorem setupHarnessArgs_both (params : List Param) (ht : Twin F h M h' M')
    (setup teardown : Nat) :
    Both (Twins F h h') (setupHarnessArgs M h params specs setup teardown n)
      (setupHarnessArgs M' h' params specs setup teardown n) := by
  unfold setupHarnessArgs
  by_cases hp : params.isEmpty = true
  · rw [if_pos hp, if_pos hp]
    exact .ok ⟨ht, rfl⟩
  · rw [if_neg hp, if_neg hp]
    refine (ht.declare (by decide) _).bind ?_
    rintro ⟨M₁, malloc⟩ ⟨M₁', malloc'⟩ ⟨ht₁, hm⟩
    refine (ht₁.declare (by decide) _).bind ?_
    rintro ⟨M₂, free⟩ ⟨M₂', free'⟩ ⟨ht₂, hf⟩
    have h0 : SetupTwins F h h' ⟨M₂, [], [], []⟩ ⟨M₂', [], [], []⟩ := ⟨ht₂, rfl, rfl, rfl⟩
    have hstep : ∀ arg ∈ params.zipIdx, ∀ s s', SetupTwins F h h' s s' →
        Both (SetupTwins F h h') (setupHarnessArg h specs setup malloc n s arg)
          (setupHarnessArg h' specs setup malloc' n s' arg) := fun arg _ s s' h =>
      setupHarnessArg_both hm setup h arg
    refine (Both.foldlM hstep h0).bind ?_
    rintro ⟨M₃, heap, args1, args2⟩ ⟨M₃', heap', args1', args2'⟩ ⟨ht₃, rfl, rfl, rfl⟩
    exact .ok ⟨ht₃.foldl_append (fun _ => teardown) (fun v => anon_call hf [v]) heap.reverse,
      rfl⟩

/-! ## The block that symbolizes -/

theorem symbolSize_twin (ht : Twin F h M h' M') (p : Param) (value1 : Value) (i : Nat) :
    symbolSize M p value1 n specs i = symbolSize M' p value1 n specs i := by
  simp only [symbolSize, ht.typeAllocSize]

theorem createSymbolicDeclaration_both {symbolize symbolize' memcpy memcpy' : FuncRef}
    (hy : symbolize.anon F = symbolize'.anon F) (hc : memcpy.anon F = memcpy'.anon F)
    (ht : Twin F h M h' M') (block : Nat) (values1 values2 : List Value) (arg : Param × Nat) :
    Both (Twin F h · h' ·)
      (createSymbolicDeclaration h block values1 values2 symbolize memcpy n specs M arg)
      (createSymbolicDeclaration h' block values1 values2 symbolize' memcpy' n specs M' arg) := by
  obtain ⟨p, i⟩ := arg
  simp only [createSymbolicDeclaration]
  refine .bind_same rfl fun skip _ => ?_
  cases skip with
  | true => exact .ok ht
  | false =>
    refine .bind_same rfl fun value1 _ => ?_
    refine .bind_same (symbolSize_twin ht p value1 i) fun size _ => ?_
    have h1 := (ht.createGlobalStringPtr ("sym.in1." ++ value1.getName ++ toString i)).mod.append
      (anon_call hy [value1, size, .globalString ("sym.in1." ++ value1.getName ++ toString i)])
      block
    refine .bind_same rfl fun spec _ => ?_
    by_cases ho : isOutbound spec.direction = true
    · rw [if_pos ho, if_pos ho]
      refine .bind_same rfl fun value2 _ => ?_
      have h2 := (h1.createGlobalStringPtr ("sym.in2." ++ value2.getName ++ toString i)).mod.append
        (anon_call hy [value2, size, .globalString ("sym.in2." ++ value2.getName ++ toString i)])
        block
      exact .ok (h2.append (anon_call hc [value2, value1, size]) block)
    · rw [if_neg ho, if_neg ho]
      exact .ok h1

theorem createSymbolicDeclarations_both (params : List Param) (ht : Twin F h M h' M')
    (block : Nat) (values1 values2 : List Value) :
    Both (Twin F h · h' ·)
      (createSymbolicDeclarations M h block params values1 values2 n specs)
      (createSymbolicDeclarations M' h' block params values1 values2 n specs) := by
  unfold createSymbolicDeclarations
  by_cases hv : (values1.isEmpty || values2.isEmpty) = true
  · rw [if_pos hv, if_pos hv]
    exact .error
  · rw [if_neg hv, if_neg hv]
    refine (ht.declare (by decide) _).bind ?_
    rintro ⟨M₁, symbolize⟩ ⟨M₁', symbolize'⟩ ⟨ht₁, hy⟩
    refine (ht₁.declare (by decide) _).bind ?_
    rintro ⟨M₂, memcpy⟩ ⟨M₂', memcpy'⟩ ⟨ht₂, hc⟩
    have hstep : ∀ arg ∈ params.zipIdx, ∀ M M', Twin F h M h' M' → Both (Twin F h · h' ·)
        (createSymbolicDeclaration h block values1 values2 symbolize memcpy n specs M arg)
        (createSymbolicDeclaration h' block values1 values2 symbolize' memcpy' n specs M' arg) :=
      fun arg _ M M' ht => createSymbolicDeclaration_both hy hc ht block values1 values2 arg
    exact Both.foldlM hstep ht₂

/-! ## The checks -/

structure AssertionsTwins (F h h' : Nat) (s s' : Assertions) : Prop where
  mod : Twin F h s.mod h' s'.mod
  conditions : s.conditions = s'.conditions
  condBlocks : s.condBlocks = s'.condBlocks
  failBlocks : s.failBlocks = s'.failBlocks

theorem createCondition_both {memcmp memcmp' : FuncRef} (hm : memcmp.anon F = memcmp'.anon F)
    (ht : Twin F h M h' M') (condBlock : Nat) (value1 value2 : Value) (i : Nat) :
    Both (Twins F h h') (createCondition M h condBlock value1 value2 memcmp n specs i)
      (createCondition M' h' condBlock value1 value2 memcmp' n specs i) := by
  simp only [createCondition, ht.typeAllocSize]
  by_cases hp : (!value1.getType.isPointerTy) = true
  · rw [if_pos hp, if_pos hp]
    exact .ok (ht.createICmp ..)
  · rw [if_neg hp, if_neg hp]
    refine .bind_same rfl fun size _ => .bind_same rfl fun spec _ => ?_
    have h1 := ht.insert (anon_call hm [value1, value2, createMul (multiplier spec n) size])
      (.atEnd condBlock)
    rw [h1.value]
    exact .ok (h1.mod.createICmp ..)

theorem createSymbolicAssertion_both {memcmp memcmp' assert assert' : FuncRef}
    (hm : memcmp.anon F = memcmp'.anon F) (ha : assert.anon F = assert'.anon F)
    (values1 values2 assertArgs : List Value) {s s' : Assertions}
    (ht : AssertionsTwins F h h' s s') (i : Nat) :
    Both (AssertionsTwins F h h')
      (createSymbolicAssertion h values1 values2 memcmp assert assertArgs n specs s i)
      (createSymbolicAssertion h' values1 values2 memcmp' assert' assertArgs n specs s' i) := by
  obtain ⟨M, conds, condBlocks, failBlocks⟩ := s
  obtain ⟨M', conds', condBlocks', failBlocks'⟩ := s'
  obtain ⟨ht, rfl, rfl, rfl⟩ := ht
  simp only at ht
  simp only [createSymbolicAssertion]
  refine .bind_same rfl fun skip _ => ?_
  cases skip with
  | true => exact .ok ⟨ht, rfl, rfl, rfl⟩
  | false =>
    refine .bind_same rfl fun value1 _ => ?_
    have h1 := ht.createBlock ("cond" ++ toString i)
    have h2 := h1.mod.createBlock ("fail" ++ toString i)
    refine .bind_same rfl fun value2 _ => ?_
    rw [h1.value]
    refine (createCondition_both hm h2.mod _ value1 value2 i).bind ?_
    rintro ⟨M₃, cond⟩ ⟨M₃', cond'⟩ ⟨ht₃, hc⟩
    obtain rfl : cond = cond' := hc
    rw [h2.value]
    exact .ok ⟨ht₃.append (anon_call ha assertArgs) _, rfl, rfl, rfl⟩

theorem linkFail_both (ht : Twin F h M h' M') (endBlock : Nat) (conditions : List Value)
    (failBlocks : List Nat) (b : Nat × Nat) :
    Both (Twin F h · h' ·) (linkFail h endBlock conditions failBlocks M b)
      (linkFail h' endBlock conditions failBlocks M' b) := by
  obtain ⟨condBlock, i⟩ := b
  exact .bind_same rfl fun cond _ => .bind_same rfl fun failBlock _ => .ok (ht.append rfl condBlock)

theorem linkNext_both (ht : Twin F h M h' M') (condBlocks : List Nat) (i : Nat) :
    Both (Twin F h · h' ·) (linkNext h condBlocks M i) (linkNext h' condBlocks M' i) :=
  .bind_same rfl fun prev _ => .bind_same rfl fun next _ => .ok (ht.setSuccessor0 prev next)

theorem createSymbolicAssertions_both (ht : Twin F h M h' M') (startBlock endBlock : Nat)
    (values1 values2 : List Value) :
    Both (Twin F h · h' ·)
      (createSymbolicAssertions M h startBlock endBlock values1 values2 n specs)
      (createSymbolicAssertions M' h' startBlock endBlock values1 values2 n specs) := by
  unfold createSymbolicAssertions
  by_cases hv : (values1.isEmpty || values2.isEmpty) = true
  · rw [if_pos hv, if_pos hv]
    exact .error
  by_cases hlen : values1.length ≠ values2.length
  · rw [if_neg hv, if_neg hv, if_pos hlen, if_pos hlen]
    exact .error
  rw [if_neg hv, if_neg hv, if_neg hlen, if_neg hlen]
  refine (ht.declare (by decide) _).bind ?_
  rintro ⟨M₁, assert⟩ ⟨M₁', assert'⟩ ⟨ht₁, ha⟩
  refine (ht₁.declare (by decide) _).bind ?_
  rintro ⟨M₂, memcmp⟩ ⟨M₂', memcmp'⟩ ⟨ht₂, hm⟩
  simp only at ht₂ hm ha ⊢
  rw [ht₂.funcName]
  generalize (M₂'.functions[h']?.map (·.name)).getD "" = funcName
  have h1 := ht₂.createGlobalStringPtr funcName
  rw [h1.mod.name]
  generalize (M₂'.createGlobalStringPtr funcName).1.name = modName
  have h3 := (h1.mod.createGlobalStringPtr modName).mod.createGlobalStringPtr "FAILED"
  have h0 : AssertionsTwins F h h' ⟨_, [], [], []⟩ ⟨_, [], [], []⟩ := ⟨h3.mod, rfl, rfl, rfl⟩
  simp only [Module.createGlobalStringPtr_value]
  have hstep : ∀ i ∈ List.range values1.length, ∀ s s', AssertionsTwins F h h' s s' →
      Both (AssertionsTwins F h h') (createSymbolicAssertion h values1 values2 memcmp assert
        [.globalString "FAILED", .globalString modName, getIntN 32 0, .globalString funcName]
        n specs s i) (createSymbolicAssertion h' values1 values2 memcmp' assert'
        [.globalString "FAILED", .globalString modName, getIntN 32 0, .globalString funcName]
        n specs s' i) := fun i _ s s' ht =>
    createSymbolicAssertion_both hm ha values1 values2 _ ht i
  refine (Both.foldlM hstep h0).bind ?_
  rintro ⟨M₄, conds, condBlocks, failBlocks⟩ ⟨M₄', _, _, _⟩ ⟨ht₄, rfl, rfl, rfl⟩
  have ht₅ := Twin.foldl_append id
    (fun _ => (rfl : Op.unreachable.anon F = Op.unreachable.anon F)) failBlocks ht₄
  refine (Both.foldlM (fun b _ M M' ht => linkFail_both ht endBlock conds failBlocks b) ht₅).bind ?_
  intro M₆ M₆' ht₆
  refine (Both.foldlM (fun i _ M M' ht => linkNext_both ht condBlocks i) ht₆).bind ?_
  intro M₇ M₇' ht₇
  cases condBlocks.head? with
  | none => exact .ok (ht₇.append rfl startBlock)
  | some front =>
    cases condBlocks.getLast? with
    | none => exact .ok (ht₇.append rfl startBlock)
    | some back => exact .ok ((ht₇.append rfl startBlock).setSuccessor0 back endBlock)

/-! ## The loops -/

theorem terminateBody_twin (ht : Twin F h M h' M') (latch e : Nat) :
    Twin F h (terminateBody h latch M e) h' (terminateBody h' latch M' e) := by
  have hterm : (getTerminator (M.instrs h e)).isNone = (getTerminator (M'.instrs h' e)).isNone := by
    rw [← Option.not_isSome, ht.isSome_getTerminator, Option.not_isSome]
  unfold terminateBody
  rw [hterm]
  by_cases hn : (getTerminator (M'.instrs h' e)).isNone = true
  · rw [if_pos hn, if_pos hn]
    exact ht.append rfl e
  · rw [if_neg hn, if_neg hn]
    exact ht

theorem createLoop_both (ht : Twin F h M h' M') (body : List Nat) (preheader postexit : Nat)
    (start stop step : BitVec 32) :
    Both (Twins F h h') (createLoop M h body preheader postexit start stop step)
      (createLoop M' h' body preheader postexit start stop step) := by
  cases body with
  | nil => exact .error
  | cons body0 body =>
    simp only [createLoop]
    by_cases hb : start = stop
    · rw [if_pos hb, if_pos hb]
      exact .error
    · rw [if_neg hb, if_neg hb]
      have h1 := ht.createBlock "hdr"
      have h2 := h1.mod.createBlock "latch"
      have h3 := h2.mod.createBlock "exit"
      rw [h1.value, h2.value, h3.value, h3.mod.length_instrs]
      have ht₃ := h3.mod
      generalize (((M.createBlock h "hdr").1.createBlock h "latch").1.createBlock h "exit").1 =
        M₃ at ht₃ ⊢
      generalize (((M'.createBlock h' "hdr").1.createBlock h' "latch").1.createBlock h' "exit") =
        r at ht₃ ⊢
      generalize ((M'.createBlock h' "hdr").1.createBlock h' "latch").2 = latch
      generalize (M'.createBlock h' "hdr").2 = hdr
      have h4 := ht₃.insert_same (.atEnd hdr) (.phi .int64Ty []) "i"
      rw [h4.value]
      generalize r.1.insert h' (.atEnd hdr) (.phi .int64Ty []) "i" = ind at h4 ⊢
      have h5 := h4.mod.createICmp (.atEnd hdr) (LoopDirection.of start stop).pred ind.2
        (getIntN 64 (stop.setWidth 64))
      rw [h5.value]
      generalize ind.1.createICmp h' (.atEnd hdr) (LoopDirection.of start stop).pred ind.2
        (getIntN 64 (stop.setWidth 64)) = cond at h5 ⊢
      have h6 := h5.mod.append_same hdr (.condBr cond.2 body0 r.2)
      have h7 := h6.insert_same (.atEnd latch) ((LoopDirection.of start stop).stepOp ind.2 step)
      rw [h7.value]
      generalize (cond.1.append h' hdr (.condBr cond.2 body0 r.2)).insert h' (.atEnd latch)
        ((LoopDirection.of start stop).stepOp ind.2 step) = next at h7 ⊢
      have h8 := ((h7.mod.append_same latch (.br hdr)).addIncoming
        ⟨hdr, (r.1.instrs h' hdr).length⟩ (getIntN 64 (start.setWidth 64)) preheader).addIncoming
        ⟨hdr, (r.1.instrs h' hdr).length⟩ next.2 latch
      have h9 := List.foldl_rel (l := body0 :: body) (r := (Twin F h · h' ·)) h8
        fun e _ M M' ht => terminateBody_twin ht latch e
      exact .ok ⟨(h9.append_same preheader _).append_same r.2 _, rfl⟩

theorem createOperand_twin (ht : Twin F h M h' M') (ip : InsertPoint) (funcType : FunctionType)
    (arg : Value) (i : Nat) :
    Twins F h h' (createOperand h ip funcType M arg i) (createOperand h' ip funcType M' arg i) := by
  unfold createOperand
  by_cases hp : arg.getType.isPointerTy = true
  · rw [if_pos hp, if_pos hp]
    by_cases ha : arg.isAllocaInst = true
    · rw [if_pos ha, if_pos ha]
      exact ht.insert rfl ip
    · rw [if_neg ha, if_neg ha]
      exact ht.createBitCast ip arg _
  · rw [if_neg hp, if_neg hp]
    by_cases hty : funcType.getParamType i ≠ arg.getType
    · rw [if_pos hty, if_pos hty]
      exact ⟨ht, rfl⟩
    · rw [if_neg hty, if_neg hty]
      exact ⟨ht, rfl⟩

theorem createOperands_twin (ip : InsertPoint) (funcType : FunctionType) :
    ∀ (args : List Value) (i : Nat) {M M' : Module}, Twin F h M h' M' →
      Twins F h h' (createOperands h ip funcType M args i) (createOperands h' ip funcType M' args i)
  | [], _, _, _, ht => ⟨ht, rfl⟩
  | arg :: args, i, _, _, ht => by
    have h1 := createOperand_twin ht ip funcType arg i
    have h2 := createOperands_twin ip funcType args (i + 1) h1.mod
    exact ⟨h2.mod, congrArg₂ List.cons h1.value h2.value⟩

theorem createCall_twin (ht : Twin F h M h' M') (block : Nat) (func : FuncRef)
    (args : List Value) : Twin F h (createCall M h block func args) h'
      (createCall M' h' block func args) := by
  simp only [createCall]
  rw [ht.isSome_getTerminator]
  generalize (if (getTerminator (M'.instrs h' block)).isSome = true then
    InsertPoint.beforeTerm block else InsertPoint.atEnd block) = ip
  have h1 := createOperands_twin ip func.type args 0 ht
  rw [h1.value]
  exact (h1.mod.insert rfl ip).mod

/-! ## The whole -/

theorem fillHarness_both {base : Nat} {f : Function} (ht : Twin F h M h' M') :
    Both (Twin F h · h' ·) (SymbolicEncapsulation.fillHarness M h base F f n specs)
      (SymbolicEncapsulation.fillHarness M' h' base F f n specs) := by
  unfold SymbolicEncapsulation.fillHarness
  refine (setupHarnessArgs_both f.params ht base (base + 10)).bind ?_
  rintro ⟨M₁, args1, args2⟩ ⟨M₁', args1', args2'⟩ ⟨ht₁, hargs⟩
  cases hargs
  refine (createSymbolicDeclarations_both f.params ht₁ (base + 1) args1 args2).bind
    fun M₂ M₂' ht₂ => ?_
  refine (createSymbolicAssertions_both ht₂ (base + 8) (base + 9) args1 args2).bind
    fun M₃ M₃' ht₃ => ?_
  refine (createLoop_both ht₃ [base + 4] (base + 2) (base + 6) 0 n 1).bind ?_
  rintro ⟨M₄, ind1⟩ ⟨M₄', _⟩ ⟨ht₄, rfl⟩
  refine (createLoop_both ht₄ [base + 5] (base + 3) (base + 7) (n - 1) 0 1).bind ?_
  rintro ⟨M₅, ind2⟩ ⟨M₅', _⟩ ⟨ht₅, rfl⟩
  refine .bind_same rfl fun args1 _ => .bind_same rfl fun args2 _ => .ok ?_
  have h6 := createCall_twin ht₅ (base + 4) ⟨F, f.name, f.getFunctionType⟩ args1
  have h7 := createCall_twin h6 (base + 5) ⟨F, f.name, f.getFunctionType⟩ args2
  exact ((((((h7.append rfl base).append rfl (base + 1)).append rfl (base + 6)).append rfl
    (base + 7)).append rfl (base + 9)).append rfl (base + 10)).append rfl (base + 11)

theorem withBlocks_twin : ∀ (names : List String) {M M' : Module}, Twin F h M h' M' →
    Twin F h (withBlocks M h names) h' (withBlocks M' h' names)
  | [], _, _, ht => ht
  | name :: names, _, _, ht => withBlocks_twin names (ht.createBlock name).mod

end

section
variable {senc : SymbolicEncapsulation} {M M' N N' : Module} {F : Nat} {f : Function}
  {n : IterationsNumTy} {specs specs' : List ArgSpec}

open SymbolicEncapsulation

/-- Two generations for one function in modules that are the same as far as a builder asks build
the same harness, if its name is free in both. -/
theorem buildHarness_twin (hname : M.name = N.name) (hctx : M.context = N.context)
    (hdl : M.dataLayout = N.dataLayout) (hf : M.functions[F]? = some f)
    (hf' : N.functions[F]? = some f) (hfree : M.getNamedValue (senc.harnessName f) = none)
    (hfree' : N.getNamedValue (senc.harnessName f) = none)
    (hs : SameSpecs f.params.length (padSpecs specs f.params.length)
      (padSpecs specs' f.params.length))
    (hok : senc.buildHarness M F f n specs = .ok M')
    (hok' : senc.buildHarness N F f n specs' = .ok N') :
    Twin F M.functions.length M' N.functions.length N' := by
  have hlt := (List.getElem?_eq_some_iff.1 hf).1
  have hlt' := (List.getElem?_eq_some_iff.1 hf').1
  have hblocks : ∀ {K : Module} (hfree : K.getNamedValue (senc.harnessName f) = none),
      (K.appendFunction ⟨senc.harnessName f, .int32Ty, [], false, []⟩ hfree).blocks
        K.functions.length = [] := fun hfree => by
    simp [Module.blocks, Module.appendFunction]
  have ht : Twin F M.functions.length
      (M.appendFunction ⟨senc.harnessName f, .int32Ty, [], false, []⟩ hfree) N.functions.length
      (N.appendFunction ⟨senc.harnessName f, .int32Ty, [], false, []⟩ hfree') := by
    refine ⟨hname, hctx, hdl, ?_, ?_, by simp [Module.appendFunction],
      by simp [Module.appendFunction], by simp [Module.appendFunction]⟩
    · rw [Module.sig_appendFunction, Module.sig_appendFunction,
        List.getElem?_append_left (by simpa [Module.sig] using hlt),
        List.getElem?_append_left (by simpa [Module.sig] using hlt')]
      simp [Module.sig, hf, hf']
    · simp only [Module.appendFunction, List.length_append]
      omega
  rw [buildHarness_eq senc (declareFunc_free hfree) ht.lt, hblocks] at hok
  rw [buildHarness_eq senc (declareFunc_free hfree') ht.lt', hblocks,
    ← fillHarness_congr hs.reads] at hok'
  exact fillHarness_both (withBlocks_twin blockNames ht) _ _ hok hok'

end

end Ephippion
