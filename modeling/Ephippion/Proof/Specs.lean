import Ephippion.Proof.Harness

/-!
# What is read of the specifications

A generation reads of its specifications the direction and the iterator dependence at the
parameters' positions: on lists that agree there every helper does the same, whether it returns or
stops (`fillHarness_congr`).
-/

namespace Ephippion

/-- The two specifications differ in their names at most. -/
structure SpecAgrees (spec spec' : ArgSpec) : Prop where
  direction : spec.direction = spec'.direction
  iteratorDependent : spec.iteratorDependent = spec'.iteratorDependent

/-- Two lists that reach the first `k` parameters and agree on them. -/
structure ReadsAgree (k : Nat) (specs specs' : List ArgSpec) : Prop where
  length : k ≤ specs.length
  length' : k ≤ specs'.length
  agrees : ∀ i < k, ∀ spec spec', specs[i]? = some spec → specs'[i]? = some spec' →
    SpecAgrees spec spec'

namespace ReadsAgree

variable {k : Nat} {specs specs' : List ArgSpec}

theorem exists_specs (hs : ReadsAgree k specs specs') {i : Nat} (hi : i < k) :
    ∃ spec spec', specs[i]? = some spec ∧ specs'[i]? = some spec' ∧ SpecAgrees spec spec' := by
  have h1 := List.getElem?_eq_getElem (Nat.lt_of_lt_of_le hi hs.length)
  have h2 := List.getElem?_eq_getElem (Nat.lt_of_lt_of_le hi hs.length')
  exact ⟨_, _, h1, h2, hs.agrees i hi _ _ h1 h2⟩

theorem sizeAndDirection (hs : ReadsAgree k specs specs') {i : Nat} (hi : i < k)
    (p : ArgDirection → Bool) :
    Ephippion.sizeAndDirection specs i p = Ephippion.sizeAndDirection specs' i p := by
  obtain ⟨spec, spec', h1, h2, ha⟩ := hs.exists_specs hi
  have hlen := hs.length
  have hlen' := hs.length'
  rw [Ephippion.sizeAndDirection, Ephippion.sizeAndDirection, if_pos (by omega), if_pos (by omega),
    index_eq_ok.2 h1, index_eq_ok.2 h2]
  simp [Except.map, ha.direction]

end ReadsAgree

theorem SpecAgrees.multiplier {spec spec' : ArgSpec} (ha : SpecAgrees spec spec')
    (n : IterationsNumTy) : Ephippion.multiplier spec n = Ephippion.multiplier spec' n := by
  rw [Ephippion.multiplier, Ephippion.multiplier, ha.iteratorDependent]

theorem mem_zipIdx_lt {α : Type} {l : List α} {a : α × Nat} (ha : a ∈ l.zipIdx) :
    a.2 < l.length := by
  obtain ⟨-, h, -⟩ := List.mem_zipIdx ha
  simpa using h

section
variable {h k : Nat} {n : IterationsNumTy} {specs specs' : List ArgSpec} {M : Module}

/-! ## The setup -/

theorem setupHarnessArg_congr (hs : ReadsAgree k specs specs') (setup : Nat) (malloc : FuncRef)
    {arg : Param × Nat} (harg : arg.2 < k) (s : ArgSetup) :
    setupHarnessArg h specs setup malloc n s arg =
      setupHarnessArg h specs' setup malloc n s arg := by
  obtain ⟨p, i⟩ := arg
  obtain ⟨spec, spec', h1, h2, ha⟩ := hs.exists_specs harg
  simp only [setupHarnessArg, h1, h2, index_eq_ok.2 h1, index_eq_ok.2 h2, ha.direction,
    ha.multiplier, Except.ok_bind_eq]

theorem setupHarnessArgs_congr {params : List Param} (hs : ReadsAgree params.length specs specs')
    (setup teardown : Nat) :
    setupHarnessArgs M h params specs setup teardown n =
      setupHarnessArgs M h params specs' setup teardown n := by
  unfold setupHarnessArgs
  by_cases hp : params.isEmpty = true
  · rw [if_pos hp, if_pos hp]
  · rw [if_neg hp, if_neg hp]
    refine bind_congr fun r₁ => bind_congr fun r₂ => ?_
    have hstep : ∀ arg ∈ params.zipIdx, ∀ s, setupHarnessArg h specs setup r₁.2 n s arg =
        setupHarnessArg h specs' setup r₁.2 n s arg := fun arg harg =>
      setupHarnessArg_congr hs setup r₁.2 (mem_zipIdx_lt harg)
    simp only [Except.foldlM_congr hstep]

/-! ## The block that symbolizes -/

theorem symbolSize_congr (hs : ReadsAgree k specs specs') (p : Param) (value1 : Value) {i : Nat}
    (hi : i < k) : symbolSize M p value1 n specs i = symbolSize M p value1 n specs' i := by
  obtain ⟨spec, spec', h1, h2, ha⟩ := hs.exists_specs hi
  simp only [symbolSize, index_eq_ok.2 h1, index_eq_ok.2 h2, ha.multiplier, Except.ok_bind_eq]

theorem createSymbolicDeclaration_congr (hs : ReadsAgree k specs specs') (block : Nat)
    (values1 values2 : List Value) (symbolize memcpy : FuncRef) {arg : Param × Nat}
    (harg : arg.2 < k) (M : Module) :
    createSymbolicDeclaration h block values1 values2 symbolize memcpy n specs M arg =
      createSymbolicDeclaration h block values1 values2 symbolize memcpy n specs' M arg := by
  obtain ⟨p, i⟩ := arg
  obtain ⟨spec, spec', h1, h2, ha⟩ := hs.exists_specs harg
  simp only [createSymbolicDeclaration, hs.sizeAndDirection harg, symbolSize_congr hs p _ harg,
    index_eq_ok.2 h1, index_eq_ok.2 h2, ha.direction, Except.ok_bind_eq]

theorem createSymbolicDeclarations_congr {params : List Param}
    (hs : ReadsAgree params.length specs specs') (block : Nat) (values1 values2 : List Value) :
    createSymbolicDeclarations M h block params values1 values2 n specs =
      createSymbolicDeclarations M h block params values1 values2 n specs' := by
  unfold createSymbolicDeclarations
  by_cases hv : (values1.isEmpty || values2.isEmpty) = true
  · rw [if_pos hv, if_pos hv]
    rfl
  · rw [if_neg hv, if_neg hv]
    refine bind_congr fun r₁ => bind_congr fun r₂ => ?_
    exact Except.foldlM_congr (fun arg harg M =>
      createSymbolicDeclaration_congr hs block values1 values2 r₁.2 r₂.2 (mem_zipIdx_lt harg) M) _

/-! ## The checks -/

theorem createCondition_congr (hs : ReadsAgree k specs specs') (condBlock : Nat)
    (value1 value2 : Value) (memcmp : FuncRef) {i : Nat} (hi : i < k) :
    createCondition M h condBlock value1 value2 memcmp n specs i =
      createCondition M h condBlock value1 value2 memcmp n specs' i := by
  obtain ⟨spec, spec', h1, h2, ha⟩ := hs.exists_specs hi
  simp only [createCondition, index_eq_ok.2 h1, index_eq_ok.2 h2, ha.multiplier,
    Except.ok_bind_eq]

theorem createSymbolicAssertion_congr (hs : ReadsAgree k specs specs')
    (values1 values2 : List Value) (memcmp assert : FuncRef) (assertArgs : List Value) {i : Nat}
    (hi : i < k) (s : Assertions) :
    createSymbolicAssertion h values1 values2 memcmp assert assertArgs n specs s i =
      createSymbolicAssertion h values1 values2 memcmp assert assertArgs n specs' s i := by
  simp only [createSymbolicAssertion, hs.sizeAndDirection hi, createCondition_congr hs _ _ _ _ hi]

/-- There are no more positions than values, and no more of these than parameters. -/
theorem createSymbolicAssertions_congr (hs : ReadsAgree k specs specs') (startBlock endBlock : Nat)
    {values1 values2 : List Value} (hk : values1.length ≤ k) :
    createSymbolicAssertions M h startBlock endBlock values1 values2 n specs =
      createSymbolicAssertions M h startBlock endBlock values1 values2 n specs' := by
  unfold createSymbolicAssertions
  by_cases hv : (values1.isEmpty || values2.isEmpty) = true
  · rw [if_pos hv, if_pos hv]
    rfl
  by_cases hlen : values1.length ≠ values2.length
  · rw [if_neg hv, if_neg hv, if_pos hlen, if_pos hlen]
    rfl
  rw [if_neg hv, if_neg hv, if_neg hlen, if_neg hlen]
  refine bind_congr fun r₁ => bind_congr fun r₂ => ?_
  have hstep : ∀ assertArgs, ∀ i ∈ List.range values1.length, ∀ s,
      createSymbolicAssertion h values1 values2 r₂.2 r₁.2 assertArgs n specs s i =
        createSymbolicAssertion h values1 values2 r₂.2 r₁.2 assertArgs n specs' s i :=
    fun assertArgs i hi => createSymbolicAssertion_congr hs values1 values2 r₂.2 r₁.2 assertArgs
      (Nat.lt_of_lt_of_le (List.mem_range.1 hi) hk)
  simp only [Except.foldlM_congr (hstep _)]

/-! ## The whole -/

theorem length_callArgs1 {params : List Param} {setup teardown : Nat}
    {r : Module × List Value × List Value}
    (hok : setupHarnessArgs M h params specs setup teardown n = .ok r) :
    r.2.1.length = params.length := by
  unfold setupHarnessArgs at hok
  by_cases hp : params.isEmpty = true
  · rw [if_pos hp] at hok
    cases hok
    rw [List.isEmpty_iff.1 hp]
    rfl
  · rw [if_neg hp, Except.bind_eq_ok] at hok
    obtain ⟨⟨M₁, malloc⟩, -, hok⟩ := hok
    obtain ⟨⟨M₂, free⟩, -, hok⟩ := Except.bind_eq_ok.1 hok
    obtain ⟨s, hs, hok⟩ := Except.bind_eq_ok.1 hok
    cases hok
    have := Except.foldlM_ok (P := fun done (s : ArgSetup) => s.callArgs1.length = done.length) rfl
      (fun done arg s s' _ hlen hs' => by
        rw [List.length_append, ← hlen]
        simp only [setupHarnessArg] at hs'
        by_cases hptr : (!arg.1.type.isPointerTy) = true
        · rw [if_pos hptr] at hs'
          cases hs'
          simp
        · rw [if_neg hptr, Except.bind_eq_ok] at hs'
          obtain ⟨size, -, hs'⟩ := hs'
          obtain ⟨spec, -, hs'⟩ := Except.bind_eq_ok.1 hs'
          generalize isOutbound _ = out at hs'
          cases out <;> cases hs' <;> simp) hs
    rw [this, List.length_zipIdx]

theorem fillHarness_congr {base F : Nat} {f : Function}
    (hs : ReadsAgree f.params.length specs specs') :
    SymbolicEncapsulation.fillHarness M h base F f n specs =
      SymbolicEncapsulation.fillHarness M h base F f n specs' := by
  unfold SymbolicEncapsulation.fillHarness
  rw [setupHarnessArgs_congr hs]
  refine Except.bind_congr_ok fun r hr => ?_
  obtain ⟨M₁, args1, args2⟩ := r
  have hlen : args1.length = f.params.length := length_callArgs1 hr
  simp only [createSymbolicDeclarations_congr hs]
  refine bind_congr fun M₂ => ?_
  rw [createSymbolicAssertions_congr hs _ _ (Nat.le_of_eq hlen)]

end

end Ephippion
