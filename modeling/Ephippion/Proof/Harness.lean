import Ephippion.Proof.Call

/-!
# What `buildHarness` builds

`buildHarness_of_ok`: a generation that returned has built the harness in closed form
(`HarnessBuilt`): every block is the one `Harness.instrs` says, and the rest of the module is as
`Builds` leaves it. `buildHarness_progress`: it returns if the harness and the library can be
declared, `F` has parameters that all have a size and there are at least two iterations; and these
are the only ones it returns on (`HarnessBuilt.declares` and so on).
-/

namespace Ephippion

def harnessType : FunctionType := ⟨.int32Ty, [], false⟩

theorem libDecls_ne_harnessType : ∀ d ∈ libDecls, d.2 ≠ harnessType := by decide

/-- Every parameter, or what it points to, has a size. -/
def ParamsSized (dl : DataLayout) (params : List Param) : Prop :=
  ∀ p ∈ params, dl.getTypeAllocSize p.elemTy ≠ 0

instance (dl : DataLayout) (params : List Param) : Decidable (ParamsSized dl params) :=
  inferInstanceAs (Decidable (∀ p ∈ params, dl.getTypeAllocSize p.elemTy ≠ 0))

/-! ## Creating blocks -/

def blockNames : List String :=
  ["setup", "se.setup", "call1.setup", "call2.setup", "call1.body", "call2.body",
    "call1.teardown", "call2.teardown", "se.start.teardown", "se.end.teardown", "teardown", "exit"]

namespace SymbolicEncapsulation

variable (senc : SymbolicEncapsulation)

def harnessName (f : Function) : String := senc.harnessNamePrefix ++ f.name

/-- The generation once the harness is declared and its first blocks are there. -/
def fillHarness (M : Module) (h base F : Nat) (f : Function) (iterationsNum : IterationsNumTy)
    (argSpecs : List ArgSpec) : Except Stop Module := do
  let (M, callArgs1, callArgs2) ←
    setupHarnessArgs M h f.params argSpecs base (base + 10) iterationsNum
  let M ← createSymbolicDeclarations M h (base + 1) f.params callArgs1 callArgs2 iterationsNum
    argSpecs
  let M ← createSymbolicAssertions M h (base + 8) (base + 9) callArgs1 callArgs2
    iterationsNum argSpecs
  let (M, indVar1) ← createLoop M h [base + 4] (base + 2) (base + 6) 0 iterationsNum
  let (M, indVar2) ← createLoop M h [base + 5] (base + 3) (base + 7) (iterationsNum - 1) 0
  let callArgs1 ← setFirst callArgs1 indVar1
  let callArgs2 ← setFirst callArgs2 indVar2
  let encapsulatedFunc : FuncRef := ⟨F, f.name, f.getFunctionType⟩
  let M := createCall M h (base + 4) encapsulatedFunc callArgs1
  let M := createCall M h (base + 5) encapsulatedFunc callArgs2
  let M := M.append h base (.br (base + 1))
  let M := M.append h (base + 1) (.br (base + 2))
  let M := M.append h (base + 6) (.br (base + 3))
  let M := M.append h (base + 7) (.br (base + 8))
  let M := M.append h (base + 9) (.br (base + 10))
  let M := M.append h (base + 10) (.br (base + 11))
  return M.append h (base + 11) (.ret (getIntN 32 0))

theorem buildHarness_eq {M M₁ : Module} {ref : FuncRef} {f : Function}
    (hd : declareFunc M (senc.harnessName f) .int32Ty = .ok (M₁, ref))
    (hh : ref.index < M₁.functions.length) (F : Nat) (n : IterationsNumTy)
    (specs : List ArgSpec) : senc.buildHarness M F f n specs =
      fillHarness (withBlocks M₁ ref.index blockNames) ref.index (M₁.blocks ref.index).length F f n
        (padSpecs specs f.params.length) := by
  have hk : ∀ (names : List String) (name : String),
      ((withBlocks M₁ ref.index names).createBlock ref.index name).2 =
        (M₁.blocks ref.index).length + names.length := fun names _ => (withBlocks_spec names hh).2.1
  unfold harnessName at hd
  simp only [buildHarness, hd, Except.ok_bind_eq, fillHarness]
  have h0 := hk [] "setup"
  have h1 := hk (blockNames.take 1) "se.setup"
  have h2 := hk (blockNames.take 2) "call1.setup"
  have h3 := hk (blockNames.take 3) "call2.setup"
  have h4 := hk (blockNames.take 4) "call1.body"
  have h5 := hk (blockNames.take 5) "call2.body"
  have h6 := hk (blockNames.take 6) "call1.teardown"
  have h7 := hk (blockNames.take 7) "call2.teardown"
  have h8 := hk (blockNames.take 8) "se.start.teardown"
  have h9 := hk (blockNames.take 9) "se.end.teardown"
  have h10 := hk (blockNames.take 10) "teardown"
  have h11 := hk (blockNames.take 11) "exit"
  simp only [blockNames, List.take, withBlocks, List.foldl,
    List.length] at h0 h1 h2 h3 h4 h5 h6 h7 h8 h9 h10 h11
  simp only [h0, h1, h2, h3, h4, h5, h6, h7, h8, h9, h10, h11]
  rfl

end SymbolicEncapsulation

/-! ## The parts of a generation -/

section
variable {h base F : Nat} {f : Function} {n : IterationsNumTy} {specs : List ArgSpec}

/-- The modules after each helper. -/
structure Parts (h base : Nat) (f : Function) (n : IterationsNumTy) (specs : List ArgSpec)
    (H : Harness) (M M₁ M₂ M₃ M₄ M₅ : Module) : Prop where
  setup : SetupBuilt h base (base + 10) n f.params specs M M₁
    (H.slots.map (Slot.value1 base M.dataLayout)) (H.slots.map (Slot.value2 base M.dataLayout))
    H.slots H.malloc H.free
  symbolic : SymbolicBuilt h base (base + 1) n H.slots M₁ M₂ H.symbolize H.memcpy
  assertions : AssertionsBuilt h (base + 8) (base + 9) n
    ((H.slots.filter Slot.outbound).map (Slot.check base M.dataLayout)) M₂ M₃ H.memcmp H.assert
  loop1 : LoopBuilt h [base + 4] (base + 2) (base + 6) 0 n 1 M₃ M₄
    (indVar (base + 12 + 2 * H.m) H.ind1) H.ind1
  loop2 : LoopBuilt h [base + 5] (base + 3) (base + 7) (n - 1) 0 1 M₄ M₅
    (indVar (base + 12 + 2 * H.m + 3) H.ind2) H.ind2

/-- The calls and the branches between the blocks. -/
def finishOps (base : Nat) : List (Nat × Op) :=
  [(base, .br (base + 1)), (base + 1, .br (base + 2)), (base + 6, .br (base + 3)),
    (base + 7, .br (base + 8)), (base + 9, .br (base + 10)), (base + 10, .br (base + 11)),
    (base + 11, .ret (getIntN 32 0))]

def finish (h base : Nat) (func : FuncRef) (callArgs1 callArgs2 : List Value) (M : Module) :
    Module :=
  let M := createCall M h (base + 4) func callArgs1
  let M := createCall M h (base + 5) func callArgs2
  (finishOps base).foldl (fun M p => M.append h p.1 p.2) M

theorem setFirst_eq_ok {vs vs' : List Value} {v : Value} :
    setFirst vs v = .ok vs' ↔ vs ≠ [] ∧ vs' = v :: vs.tail := by
  cases vs with
  | nil => simp [setFirst]
  | cons a vs => simp [setFirst, eq_comm]

theorem setup_of_ok {M M₁ : Module} {a1 a2 : List Value} (hlen : (M.blocks h).length = base + 12)
    (hempty : ∀ b, base ≤ b → M.instrs h b = []) (hspecs : f.params.length ≤ specs.length)
    (hparams : f.params ≠ [])
    (hok : setupHarnessArgs M h f.params specs base (base + 10) n = .ok (M₁, a1, a2)) :
    ∃ slots malloc free,
      SetupBuilt h base (base + 10) n f.params specs M M₁ a1 a2 slots malloc free ∧
      slots ≠ [] ∧ M₁.dataLayout = M.dataLayout ∧ (M₁.blocks h).length = base + 12 ∧
      M₁.instrs h (base + 1) = [] := by
  obtain ⟨slots, malloc, free, hs⟩ := setupHarnessArgs_of_ok (by omega) (by omega) (by omega)
    (hempty base (Nat.le_refl _)) (hempty (base + 10) (by omega)) hspecs hparams hok
  refine ⟨slots, malloc, free, hs, ?_, hs.builds.ext.dataLayout, by rw [hs.length, hlen], ?_⟩
  · rw [← List.length_pos_iff, hs.layout.length, List.length_pos_iff]
    exact hparams
  · rw [hs.code, Function.update_of_ne (by omega), Function.update_of_ne (by omega)]
    exact hempty _ (by omega)

/-- A generation that returned, taken apart. -/
theorem fillHarness_of_ok {M M' : Module} (hlen : (M.blocks h).length = base + 12)
    (hempty : ∀ b, base ≤ b → M.instrs h b = []) (hspecs : f.params.length ≤ specs.length)
    (hok : SymbolicEncapsulation.fillHarness M h base F f n specs = .ok M') :
    ∃ (H : Harness) (M₁ M₂ M₃ M₄ M₅ : Module), f.params ≠ [] ∧ H.base = base ∧ H.n = n ∧
      H.dl = M.dataLayout ∧ H.func = ⟨F, f.name, f.getFunctionType⟩ ∧ H.modName = M.name ∧
      H.funcName = (M.functions[h]?.map (·.name)).getD "" ∧
      Parts h base f n specs H M M₁ M₂ M₃ M₄ M₅ ∧
      setupHarnessArgs M h f.params specs base (base + 10) n =
        .ok (M₁, H.slots.map (Slot.value1 base H.dl), H.slots.map (Slot.value2 base H.dl)) ∧
      M' = finish h base H.func
        (indVar (base + 12 + 2 * H.m) H.ind1 :: (H.slots.map (Slot.value1 base H.dl)).tail)
        (indVar (base + 12 + 2 * H.m + 3) H.ind2 :: (H.slots.map (Slot.value2 base H.dl)).tail)
        M₅ := by
  simp only [SymbolicEncapsulation.fillHarness, Except.bind_eq_ok, Prod.exists, Except.pure_eq,
    Except.ok.injEq] at hok
  obtain ⟨M₁, a1, a2, h1, M₂, h2, M₃, h3, M₄, ind1, h4, M₅, ind2, h5, b1, h6, b2, h7, rfl⟩ := hok
  have hparams : f.params ≠ [] := by
    intro hnil
    simp only [setupHarnessArgs, hnil, List.isEmpty_nil, ite_true, Except.pure_eq,
      Except.ok.injEq, Prod.mk.injEq] at h1
    obtain ⟨-, rfl, rfl⟩ := h1
    cases h2
  obtain ⟨slots, malloc, free, hs, hne, hdl1, hlen1, he1⟩ :=
    setup_of_ok hlen hempty hspecs hparams h1
  obtain rfl := hs.callArgs1
  obtain rfl := hs.callArgs2
  rw [← hdl1] at h2
  obtain ⟨symbolize, memcpy, hy⟩ :=
    createSymbolicDeclarations_of_ok base (by omega) he1 hs.layout h2
  have hdl2 : M₂.dataLayout = M.dataLayout := hy.grown.builds.ext.dataLayout.trans hdl1
  have hlen2 : (M₂.blocks h).length = base + 12 := by rw [hy.grown.length, hlen1]
  obtain ⟨memcmp, assert, ha⟩ := createSymbolicAssertions_of_ok (by omega) (by simpa using hne)
    (by simp) (by simpa [hs.layout.length] using hspecs) h3
  rw [checksAt_layout hs.layout] at ha
  have hlen3 : (M₃.blocks h).length = base + 12 + 2 * (slots.filter Slot.outbound).length := by
    rw [ha.chain.length, hlen2, List.length_map]
  obtain ⟨name1, hl1⟩ := createLoop_of_ok (by simp; omega) (by omega) (by simp) h4
  have hlen4 := hl1.length
  obtain ⟨name2, hl2⟩ := createLoop_of_ok (by simp; omega) (by omega) (by simp) h5
  obtain ⟨-, rfl⟩ := setFirst_eq_ok.1 h6
  obtain ⟨-, rfl⟩ := setFirst_eq_ok.1 h7
  obtain rfl := hl1.ind
  obtain rfl := hl2.ind
  rw [hlen3] at hl1 hlen4 ⊢
  rw [hlen4] at hl2 ⊢
  exact ⟨⟨base, slots, n, M.dataLayout, ⟨F, f.name, f.getFunctionType⟩, malloc, free, symbolize,
    memcpy, memcmp, assert, M.name, (M.functions[h]?.map (·.name)).getD "", name1, name2⟩, M₁, M₂,
    M₃, M₄, M₅, hparams, rfl, rfl, rfl, rfl, rfl, rfl, ⟨hs, hy, ha, hl1, hl2⟩, h1, rfl⟩

theorem Module.Extends.funcName {M M' : Module} (he : M.Extends h M')
    (hh : h < M.functions.length) :
    (M'.functions[h]?.map (·.name)).getD "" = (M.functions[h]?.map (·.name)).getD "" := by
  obtain ⟨bs, hbs⟩ := he.self _ (List.getElem?_eq_getElem hh)
  simp [hbs, hh]

/-- Function `h` holds the harness `H` of `f`, the module's `F`-th function. -/
structure HarnessAt (h F : Nat) (f : Function) (n : IterationsNumTy) (specs : List ArgSpec)
    (H : Harness) (M' : Module) : Prop where
  n_eq : H.n = n
  dl_eq : H.dl = M'.dataLayout
  func_eq : H.func = ⟨F, f.name, f.getFunctionType⟩
  params_ne : f.params ≠ []
  sized : ParamsSized H.dl f.params
  two_le : 2 ≤ n.toNat
  layout : IsLayout f.params specs H.slots
  malloc_declared : Declared M' H.malloc "malloc" mallocType
  free_declared : Declared M' H.free "free" freeType
  symbolize_declared : Declared M' H.symbolize "klee_make_symbolic" kleeType
  memcpy_declared : Declared M' H.memcpy "memcpy" memcpyType
  memcmp_declared : Declared M' H.memcmp "memcmp" kleeType
  assert_declared : Declared M' H.assert "__assert_fail" assertType
  code : ∀ B, H.Valid B → M'.instrs h (H.id B) = H.instrs B

theorem two_le_of_ne {n : BitVec 32} (h0 : 0 ≠ n) (h1 : n - 1 ≠ 0) : 2 ≤ n.toNat := by
  have h0' : n.toNat ≠ 0 := fun h => h0 (BitVec.eq_of_toNat_eq (by simpa using h.symm))
  have h1' : n.toNat ≠ 1 := fun h => h1 (by
    have : n = 1 := BitVec.eq_of_toNat_eq (by simpa using h)
    subst this
    rfl)
  omega

theorem slotsSized {M : Module} {slots : List Slot} {params : List Param}
    (hl : IsLayout params specs slots) (hptr : PointeesSized M.dataLayout params)
    (hsym : SymbolsSized M.dataLayout slots)
    (hchk : ChecksSized M.dataLayout
      ((slots.filter Slot.outbound).map (Slot.check base M.dataLayout))) :
    ParamsSized M.dataLayout params := by
  intro p hp
  rw [← hl.params_eq, List.mem_map] at hp
  obtain ⟨s, hs, rfl⟩ := hp
  cases hpt : s.isPtr with
  | true =>
    refine hptr s.param ?_ hpt
    rw [← hl.params_eq]
    exact List.mem_map_of_mem hs
  | false =>
    cases hsy : s.symbolized with
    | true => exact hsym s hs hsy
    | false =>
      -- outbound only, so it is compared
      have hout : s.outbound = true := by
        have : isOnlyOutbound s.spec.direction = true := by simpa [Slot.symbolized] using hsy
        rw [isOnlyOutbound_eq, Bool.and_eq_true] at this
        exact this.1
      have := hchk (s.check base M.dataLayout)
        (List.mem_map_of_mem (List.mem_filter.2 ⟨hs, hout⟩)) (s.isPointerTy_copyTy M.dataLayout)
      rwa [show (s.check base M.dataLayout).value1 = s.value1 base M.dataLayout from rfl,
        s.elemTy_value base M.dataLayout hpt] at this

/-- The code before the calls and the branches between the blocks. -/
def Harness.draft (H : Harness) : HBlock → List Instr
  | .setup => H.slots.flatMap (Slot.setupInstrs H.dl H.n H.malloc)
  | .seSetup => H.slots.flatMap (Slot.symInstrs H.base H.dl H.n H.symbolize H.memcpy)
  | .call1 => [⟨.br (H.id .latch1), ""⟩]
  | .call2 => [⟨.br (H.id .latch2), ""⟩]
  | .call1Teardown | .call2Teardown | .seEnd | .exit => []
  | .teardown => H.freeInstrs
  | B => H.instrs B

theorem Parts.draft {H : Harness} {M M₁ M₂ M₃ M₄ M₅ : Module}
    (hlen : (M.blocks h).length = H.base + 12) (hempty : ∀ b, H.base ≤ b → M.instrs h b = [])
    (hdl : H.dl = M.dataLayout) (hmod : H.modName = M.name)
    (hname : H.funcName = (M.functions[h]?.map (·.name)).getD "")
    (hP : Parts h H.base f H.n specs H M M₁ M₂ M₃ M₄ M₅) :
    Builds h M M₅ ∧ (M₅.blocks h).length = H.numBlocks ∧
      (∀ b < H.base, M₅.instrs h b = M.instrs h b) ∧
      ∀ B, H.Valid B → M₅.instrs h (H.id B) = H.draft B := by
  have hh : h < M.functions.length := Module.lt_of_blocks (b := 0) (by omega)
  obtain ⟨h1, h2, h3, h4, h5⟩ := hP
  have hchecks : (H.slots.filter Slot.outbound).map (Slot.check H.base M.dataLayout) =
      H.checks := by rw [← hdl]; rfl
  rw [hchecks] at h3
  have hm : H.checks.length = H.m := H.length_checks
  have l1 : (M₁.blocks h).length = H.base + 12 := by rw [h1.length, hlen]
  have l2 : (M₂.blocks h).length = H.base + 12 := by rw [h2.grown.length, l1]
  have l3 : (M₃.blocks h).length = H.base + 12 + 2 * H.m := by rw [h3.chain.length, l2, hm]
  have l4 : (M₄.blocks h).length = H.base + 12 + 2 * H.m + 3 := by rw [h4.length, l3]
  have hdl1 : M₁.dataLayout = H.dl := by rw [h1.builds.ext.dataLayout, hdl]
  have hdl2 : M₂.dataLayout = H.dl := by rw [h2.grown.builds.ext.dataLayout, hdl1]
  have b2 : Builds h M M₂ := h1.builds.trans hh h2.grown.builds
  have b3 : Builds h M M₃ := b2.trans hh h3.chain.builds
  -- the blocks that the loops and the checks leave alone
  have k5 : ∀ b < H.base + 12 + 2 * H.m, b ≠ H.base + 2 → b ≠ H.base + 3 → b ≠ H.base + 4 →
      b ≠ H.base + 5 → M₅.instrs h b = M₃.instrs h b := fun b hb n2 n3 n4 n5 => by
    rw [h5.old b (by omega) n3, if_neg (by simp [n5]), h4.old b (by omega) n2,
      if_neg (by simp [n4])]
  have k3 : ∀ b < H.base + 12, b ≠ H.base + 8 → M₃.instrs h b = M₂.instrs h b := fun b hb n8 =>
    h3.chain.old b (by omega) n8
  have k2 : ∀ b, H.base ≤ b → b ≠ H.base → b ≠ H.base + 1 → b ≠ H.base + 10 →
      M₂.instrs h b = [] := fun b hb n0 n1 n10 => by
    rw [h2.grown.code, Function.update_of_ne n1, h1.code, Function.update_of_ne n10,
      Function.update_of_ne n0, hempty b hb]
  have knil : ∀ b, H.base + 6 ≤ b → b < H.base + 12 → b ≠ H.base + 8 → b ≠ H.base + 10 →
      M₅.instrs h b = [] := fun b hb hb' n8 n10 => by
    rw [k5 b (by omega) (by omega) (by omega) (by omega) (by omega), k3 b hb' n8,
      k2 b (by omega) (by omega) (by omega) n10]
  have kloop1 : ∀ b, H.base + 12 + 2 * H.m ≤ b → b < H.base + 12 + 2 * H.m + 3 →
      M₅.instrs h b = M₄.instrs h b := fun b hb hb' => by
    rw [h5.old b (by omega) (by omega), if_neg (by simp; omega)]
  refine ⟨b3.trans hh (h4.builds.trans (b3.lt hh) h5.builds), ?_, fun b hb => ?_, fun B hB => ?_⟩
  · rw [h5.length, l4, Harness.numBlocks]
  · rw [k5 b (by omega) (by omega) (by omega) (by omega) (by omega), k3 b (by omega) (by omega),
      h2.grown.code, Function.update_of_ne (by omega), h1.code, Function.update_of_ne (by omega),
      Function.update_of_ne (by omega)]
  · cases B with
    | setup =>
      show M₅.instrs h H.base = _
      rw [k5 _ (by omega) (by omega) (by omega) (by omega) (by omega), k3 _ (by omega) (by omega),
        h2.grown.code, Function.update_of_ne (by omega), h1.code, Function.update_of_ne (by omega),
        Function.update_self, ← hdl]
      rfl
    | seSetup =>
      show M₅.instrs h (H.base + 1) = _
      rw [k5 _ (by omega) (by omega) (by omega) (by omega) (by omega), k3 _ (by omega) (by omega),
        h2.grown.at_block, hdl1]
      rfl
    | teardown =>
      show M₅.instrs h (H.base + 10) = _
      rw [k5 _ (by omega) (by omega) (by omega) (by omega) (by omega), k3 _ (by omega) (by omega),
        h2.grown.code, Function.update_of_ne (by omega), h1.code, Function.update_self, ← hdl]
      rfl
    | call1Setup =>
      show M₅.instrs h (H.base + 2) = _
      rw [h5.old _ (by omega) (by omega), if_neg (by simp), h4.pre, k3 _ (by omega) (by omega),
        k2 _ (by omega) (by omega) (by omega) (by omega), l3]
      rfl
    | call2Setup =>
      show M₅.instrs h (H.base + 3) = _
      rw [h5.pre, h4.old _ (by omega) (by omega), if_neg (by simp), k3 _ (by omega) (by omega),
        k2 _ (by omega) (by omega) (by omega) (by omega), l4]
      rfl
    | call1 =>
      show M₅.instrs h (H.base + 4) = _
      rw [h5.old _ (by omega) (by omega), if_neg (by simp), h4.old _ (by omega) (by omega),
        if_pos (by simp), k3 _ (by omega) (by omega),
        k2 _ (by omega) (by omega) (by omega) (by omega), l3]
      rfl
    | call2 =>
      show M₅.instrs h (H.base + 5) = _
      rw [h5.old _ (by omega) (by omega), if_pos (by simp), h4.old _ (by omega) (by omega),
        if_neg (by simp), k3 _ (by omega) (by omega),
        k2 _ (by omega) (by omega) (by omega) (by omega), l4]
      rfl
    | call1Teardown =>
      show M₅.instrs h (H.base + 6) = []
      exact knil _ (by omega) (by omega) (by omega) (by omega)
    | call2Teardown =>
      show M₅.instrs h (H.base + 7) = []
      exact knil _ (by omega) (by omega) (by omega) (by omega)
    | seEnd =>
      show M₅.instrs h (H.base + 9) = []
      exact knil _ (by omega) (by omega) (by omega) (by omega)
    | exit =>
      show M₅.instrs h (H.base + 11) = []
      exact knil _ (by omega) (by omega) (by omega) (by omega)
    | seStart =>
      show M₅.instrs h (H.base + 8) = _
      rw [k5 _ (by omega) (by omega) (by omega) (by omega) (by omega), h3.chain.start,
        k2 _ (by omega) (by omega) (by omega) (by omega), l2, hm]
      rfl
    | cond j =>
      have hj : j < H.checks.length := by rw [hm]; exact hB
      show M₅.instrs h (condBlock (H.base + 12) j) = _
      have hlt : condBlock (H.base + 12) j < H.base + 12 + 2 * H.m := by unfold condBlock; omega
      have hge : H.base + 12 ≤ condBlock (H.base + 12) j := by unfold condBlock; omega
      have := h3.chain.cond j _ (List.getElem?_eq_getElem hj)
      rw [l2, hm, hdl2] at this
      rw [k5 _ hlt (by omega) (by omega) (by omega) (by omega), this]
      simp only [Harness.draft, Harness.instrs, List.getElem?_eq_getElem hj]
      rfl
    | fail j =>
      have hj : j < H.checks.length := by rw [hm]; exact hB
      show M₅.instrs h (failBlock (H.base + 12) j) = _
      have hlt : failBlock (H.base + 12) j < H.base + 12 + 2 * H.m := by
        rw [hm] at hj; unfold failBlock; omega
      have hge : H.base + 12 ≤ failBlock (H.base + 12) j := by unfold failBlock; omega
      have := h3.chain.fail j hj
      rw [l2, b2.ext.name, b2.ext.funcName hh, ← hmod, ← hname] at this
      rw [k5 _ hlt (by omega) (by omega) (by omega) (by omega), this]
      rfl
    | hdr1 =>
      show M₅.instrs h (H.base + 12 + 2 * H.m) = _
      have := h4.hdr _ rfl
      rw [l3] at this
      rw [kloop1 _ (by omega) (by omega), this]
      rfl
    | latch1 =>
      show M₅.instrs h (H.base + 12 + 2 * H.m + 1) = _
      have := h4.latch
      rw [l3] at this
      rw [kloop1 _ (by omega) (by omega), this]
      rfl
    | exit1 =>
      show M₅.instrs h (H.base + 12 + 2 * H.m + 2) = _
      have := h4.exit
      rw [l3] at this
      rw [kloop1 _ (by omega) (by omega), this]
      rfl
    | hdr2 =>
      have := h5.hdr _ rfl
      rw [l4] at this
      exact this
    | latch2 =>
      have := h5.latch
      rw [l4] at this
      exact this
    | exit2 =>
      have := h5.exit
      rw [l4] at this
      exact this

theorem finish_spec {H : Harness} {M : Module} (hlen : (M.blocks h).length = H.numBlocks)
    (hdraft : ∀ B, H.Valid B → M.instrs h (H.id B) = H.draft B) :
    let M' := finish h H.base H.func
      (indVar (H.base + 12 + 2 * H.m) H.ind1 :: (H.slots.map (Slot.value1 H.base H.dl)).tail)
      (indVar (H.base + 12 + 2 * H.m + 3) H.ind2 :: (H.slots.map (Slot.value2 H.base H.dl)).tail) M
    Builds h M M' ∧ (M'.blocks h).length = H.numBlocks ∧
      (∀ b < H.base, M'.instrs h b = M.instrs h b) ∧
      ∀ B, H.Valid B → M'.instrs h (H.id B) = H.instrs B := by
  intro M'
  have hh : h < M.functions.length := Module.lt_of_blocks (b := 0) (by
    rw [hlen, Harness.numBlocks]; omega)
  have hn : H.base + 12 ≤ (M.blocks h).length := by rw [hlen, Harness.numBlocks]; omega
  have e0 : M.instrs h (H.base + 4) = [⟨.br (H.id .latch1), ""⟩] := hdraft .call1 trivial
  have g1 := createCall_spec [] (by omega) e0 rfl H.func
    (indVar (H.base + 12 + 2 * H.m) H.ind1 :: (H.slots.map (Slot.value1 H.base H.dl)).tail)
  let M₁ := createCall M h (H.base + 4) H.func
    (indVar (H.base + 12 + 2 * H.m) H.ind1 :: (H.slots.map (Slot.value1 H.base H.dl)).tail)
  have e1 : M₁.instrs h (H.base + 5) = [⟨.br (H.id .latch2), ""⟩] := by
    rw [g1.code, Function.update_of_ne (by omega)]
    exact hdraft .call2 trivial
  have g2 := createCall_spec [] (by rw [g1.length]; omega) e1 rfl H.func
    (indVar (H.base + 12 + 2 * H.m + 3) H.ind2 :: (H.slots.map (Slot.value2 H.base H.dl)).tail)
  let M₂ := createCall M₁ h (H.base + 5) H.func
    (indVar (H.base + 12 + 2 * H.m + 3) H.ind2 :: (H.slots.map (Slot.value2 H.base H.dl)).tail)
  have b2 : Builds h M M₂ := g1.builds.trans hh g2.builds
  have l2 : (M₂.blocks h).length = H.numBlocks := by rw [g2.length, g1.length, hlen]
  have k2 : ∀ b, b ≠ H.base + 4 → b ≠ H.base + 5 → M₂.instrs h b = M.instrs h b :=
    fun b n4 n5 => by rw [g2.code, Function.update_of_ne n5, g1.code, Function.update_of_ne n4]
  obtain ⟨b3, l3, on3, off3⟩ := modifyEach (h := h) Prod.fst
    (fun (p : Nat × Op) is => is ++ [⟨p.2, ""⟩]) (finishOps H.base) (M := M₂)
    (by simp [finishOps]) (fun p hp => by
      have : p.1 ≤ H.base + 11 := by
        simp only [finishOps, List.mem_cons, List.not_mem_nil, or_false] at hp
        rcases hp with rfl | rfl | rfl | rfl | rfl | rfl | rfl <;> simp
      rw [l2, Harness.numBlocks]; omega) (b2.lt hh)
  have honly : ∀ b, b < H.base ∨ (H.base + 2 ≤ b ∧ b ≤ H.base + 5) ∨ b = H.base + 8 ∨
      H.base + 12 ≤ b → M'.instrs h b = M₂.instrs h b := fun b hb => off3 b (by
    simp only [finishOps, List.map_cons, List.map_nil, List.mem_cons, List.not_mem_nil, or_false]
    omega)
  have hkeep : ∀ b, b < H.base ∨ b = H.base + 2 ∨ b = H.base + 3 ∨ b = H.base + 8 ∨
      H.base + 12 ≤ b → M'.instrs h b = M.instrs h b := fun b hb => by
    rw [honly b (by omega), k2 b (by omega) (by omega)]
  have hadd : ∀ p ∈ finishOps H.base, p.1 ≠ H.base + 4 → p.1 ≠ H.base + 5 →
      M'.instrs h p.1 = M.instrs h p.1 ++ [⟨p.2, ""⟩] := fun p hp n4 n5 => by
    rw [← k2 p.1 n4 n5]; exact on3 p hp
  refine ⟨b2.trans hh b3, l3.trans l2, fun b hb => hkeep b (.inl hb), fun B hB => ?_⟩
  have hd := hdraft B hB
  cases B with
  | setup =>
    exact (hadd (H.base, .br (H.base + 1)) (by simp [finishOps]) (by simp) (by simp)).trans
      (congrArg (· ++ _) hd)
  | seSetup =>
    exact (hadd (H.base + 1, .br (H.base + 2)) (by simp [finishOps]) (by simp) (by simp)).trans
      (congrArg (· ++ _) hd)
  | call1Teardown =>
    exact (hadd (H.base + 6, .br (H.base + 3)) (by simp [finishOps]) (by simp) (by simp)).trans
      (congrArg (· ++ _) hd)
  | call2Teardown =>
    exact (hadd (H.base + 7, .br (H.base + 8)) (by simp [finishOps]) (by simp) (by simp)).trans
      (congrArg (· ++ _) hd)
  | seEnd =>
    exact (hadd (H.base + 9, .br (H.base + 10)) (by simp [finishOps]) (by simp) (by simp)).trans
      (congrArg (· ++ _) hd)
  | teardown =>
    exact (hadd (H.base + 10, .br (H.base + 11)) (by simp [finishOps]) (by simp) (by simp)).trans
      (congrArg (· ++ _) hd)
  | exit =>
    exact (hadd (H.base + 11, .ret (getIntN 32 0)) (by simp [finishOps]) (by simp) (by simp)).trans
      (congrArg (· ++ _) hd)
  | call1 =>
    show M'.instrs h (H.base + 4) = _
    rw [honly _ (by omega), g2.code, Function.update_of_ne (by omega), g1.at_block]
    rfl
  | call2 =>
    show M'.instrs h (H.base + 5) = _
    rw [honly _ (by omega), g2.at_block]
    rfl
  | call1Setup => exact (hkeep (H.base + 2) (by omega)).trans hd
  | call2Setup => exact (hkeep (H.base + 3) (by omega)).trans hd
  | seStart => exact (hkeep (H.base + 8) (by omega)).trans hd
  | cond j => exact (hkeep (condBlock (H.base + 12) j) (by unfold condBlock; omega)).trans hd
  | fail j => exact (hkeep (failBlock (H.base + 12) j) (by unfold failBlock; omega)).trans hd
  | hdr1 => exact (hkeep (H.base + 12 + 2 * H.m) (by omega)).trans hd
  | latch1 => exact (hkeep (H.base + 12 + 2 * H.m + 1) (by omega)).trans hd
  | exit1 => exact (hkeep (H.base + 12 + 2 * H.m + 2) (by omega)).trans hd
  | hdr2 => exact (hkeep (H.base + 12 + 2 * H.m + 3) (by omega)).trans hd
  | latch2 => exact (hkeep (H.base + 12 + 2 * H.m + 4) (by omega)).trans hd
  | exit2 => exact (hkeep (H.base + 12 + 2 * H.m + 5) (by omega)).trans hd

/-- A filling that returned has built the harness in closed form, whose slots are those of the
values its setup has returned. -/
theorem filled_of_ok {M M' : Module} (hlen : (M.blocks h).length = base + 12)
    (hempty : ∀ b, base ≤ b → M.instrs h b = []) (hspecs : f.params.length ≤ specs.length)
    (hok : SymbolicEncapsulation.fillHarness M h base F f n specs = .ok M') :
    ∃ H : Harness, H.base = base ∧ HarnessAt h F f n specs H M' ∧ Builds h M M' ∧
      (M'.blocks h).length = H.numBlocks ∧ (∀ b < base, M'.instrs h b = M.instrs h b) ∧
      ∃ M₁, setupHarnessArgs M h f.params specs base (base + 10) n =
        .ok (M₁, H.slots.map (Slot.value1 base H.dl), H.slots.map (Slot.value2 base H.dl)) := by
  have hh : h < M.functions.length := Module.lt_of_blocks (b := 0) (by omega)
  obtain ⟨H, M₁, M₂, M₃, M₄, M₅, hparams, rfl, rfl, hdl, hfunc, hmod, hname, hP, hsetup, rfl⟩ :=
    fillHarness_of_ok hlen hempty hspecs hok
  obtain ⟨b5, l5, o5, c5⟩ := hP.draft hlen hempty hdl hmod hname
  obtain ⟨b6, l6, o6, c6⟩ := finish_spec l5 c5
  obtain ⟨h1, h2, h3, h4, h5⟩ := hP
  have hdl1 : M₁.dataLayout = M.dataLayout := h1.builds.ext.dataLayout
  have hdl2 : M₂.dataLayout = M.dataLayout := h2.grown.builds.ext.dataLayout.trans hdl1
  have hh1 := h1.builds.lt hh
  have hh2 := h2.grown.builds.lt hh1
  have b3 : Builds h M₃ _ := (h4.builds.trans (h3.chain.builds.lt hh2) h5.builds).trans
    (h3.chain.builds.lt hh2) b6
  have b2 : Builds h M₂ _ := h3.chain.builds.trans hh2 b3
  have b1 : Builds h M₁ _ := h2.grown.builds.trans hh1 b2
  have hsym := h2.sized
  have hchk := h3.sized
  rw [hdl1] at hsym
  rw [hdl2] at hchk
  have bM : Builds h M _ := b5.trans hh b6
  have hsized := slotsSized h1.layout h1.sized hsym hchk
  refine ⟨H, rfl, ⟨rfl, hdl.trans bM.ext.dataLayout.symm, hfunc, hparams, hdl ▸ hsized,
    two_le_of_ne h4.bounds h5.bounds, h1.layout, h1.malloc_declared.builds b1,
    h1.free_declared.builds b1, h2.symbolize_declared.builds b2, h2.memcpy_declared.builds b2,
    h3.memcmp_declared.builds b3, h3.assert_declared.builds b3, c6⟩, bM, l6,
    fun b hb => (o6 b hb).trans (o5 b hb), M₁, hsetup⟩

theorem checksSized_of_layout {dl dl' : DataLayout} {params : List Param} {slots : List Slot}
    (hdl : dl' = dl) (hl : IsLayout params specs slots)
    (hsized : ∀ s ∈ slots, dl.getTypeAllocSize s.param.elemTy ≠ 0) (base : Nat) :
    ChecksSized dl' (checksAt (slots.map (Slot.value1 base dl)) (slots.map (Slot.value2 base dl))
      specs (List.range (slots.map (Slot.value1 base dl)).length)) := by
  rw [hdl, checksAt_layout hl]
  intro c hc _
  obtain ⟨s, hs, rfl⟩ := List.mem_map.1 hc
  show dl.getTypeAllocSize (s.value1 base dl).getType.getPointerElementType ≠ 0
  cases hpt : s.isPtr with
  | true =>
    simp [Slot.value1, Slot.value, Slot.copyTy, hpt, Value.getType, Ty.getPointerElementType,
      dl.int8_size]
  | false =>
    rw [s.elemTy_value base dl hpt]
    exact hsized s (List.mem_filter.1 hs).1

/-- A filling stops only at a declaration or a type without a size. -/
theorem fillHarness_progress {M : Module} (hlen : (M.blocks h).length = base + 12)
    (hempty : ∀ b, base ≤ b → M.instrs h b = []) (hspecs : f.params.length ≤ specs.length)
    (hparams : f.params ≠ []) (hlibs : LibsOk M) (hsized : ParamsSized M.dataLayout f.params)
    (hn : 2 ≤ n.toNat) :
    ∃ M', SymbolicEncapsulation.fillHarness M h base F f n specs = .ok M' := by
  have hh : h < M.functions.length := Module.lt_of_blocks (b := 0) (by omega)
  obtain ⟨⟨M₁, a1, a2⟩, h1⟩ := setupHarnessArgs_progress (base + 10) n
    (show base < (M.blocks h).length by omega) (hempty base (Nat.le_refl _)) hspecs
    (hlibs ("malloc", mallocType) (by decide)) (hlibs ("free", freeType) (by decide))
    (fun p hp _ => hsized p hp)
  obtain ⟨slots, malloc, free, hs, hne, hdl1, hlen1, he1⟩ :=
    setup_of_ok hlen hempty hspecs hparams h1
  obtain rfl := hs.callArgs1
  obtain rfl := hs.callArgs2
  have hslot : ∀ s ∈ slots, M.dataLayout.getTypeAllocSize s.param.elemTy ≠ 0 := fun s hs' =>
    hsized _ (hs.layout.params_eq ▸ List.mem_map_of_mem hs')
  have hlibs1 := hs.builds.libsOk.2 hlibs
  obtain ⟨M₂, h2⟩ := createSymbolicDeclarations_progress base n
    (show base + 1 < (M₁.blocks h).length by omega) he1 hs.layout hne
    (hlibs1 ("klee_make_symbolic", kleeType) (by decide))
    (hlibs1 ("memcpy", memcpyType) (by decide)) (fun s hs' _ => by rw [hdl1]; exact hslot s hs')
  obtain ⟨symbolize, memcpy, hy⟩ :=
    createSymbolicDeclarations_of_ok base (by omega) he1 hs.layout h2
  rw [hdl1] at h2
  have hdl2 : M₂.dataLayout = M.dataLayout := hy.grown.builds.ext.dataLayout.trans hdl1
  have hlen2 : (M₂.blocks h).length = base + 12 := by rw [hy.grown.length, hlen1]
  have hne' : slots.map (Slot.value1 base M.dataLayout) ≠ [] := by simpa using hne
  have hchk := checksSized_of_layout hdl2 hs.layout hslot base
  have hlibs2 := hy.grown.builds.libsOk.2 hlibs1
  obtain ⟨M₃, h3⟩ := createSymbolicAssertions_progress n (base + 9)
    (show base + 8 < (M₂.blocks h).length by omega) hne' (by simp)
    (by simpa [hs.layout.length] using hspecs)
    (hlibs2 ("__assert_fail", assertType) (by decide)) (hlibs2 ("memcmp", kleeType) (by decide))
    hchk
  obtain ⟨memcmp, assert, ha⟩ := createSymbolicAssertions_of_ok
    (show base + 8 < (M₂.blocks h).length by omega) hne' (by simp)
    (by simpa [hs.layout.length] using hspecs) h3
  have hlen3 := ha.chain.length
  have hb0 : (0 : BitVec 32) ≠ n := by rintro rfl; simp at hn
  have hb1 : n - 1 ≠ 0 := fun h0 => by bv_omega
  obtain ⟨M₄, ind1, name1, h4, hl1⟩ := createLoop_spec M₃ h [base + 4] (base + 2)
    (base + 6) 1 (by simp) (by simp; omega) (by omega)
    (by simp) hb0
  have hlen4 := hl1.length
  obtain ⟨M₅, ind2, name2, h5, -⟩ := createLoop_spec M₄ h [base + 5] (base + 3)
    (base + 7) 1 (by simp) (by simp; omega) (by omega)
    (by simp) hb1
  have hf : ∀ (g : Slot → Value) (v : Value), ∃ vs, setFirst (slots.map g) v = .ok vs := by
    intro g v
    exact ⟨_, setFirst_eq_ok.2 ⟨by simpa using hne, rfl⟩⟩
  obtain ⟨b1, h6⟩ := hf (Slot.value1 base M.dataLayout) ind1
  obtain ⟨b2, h7⟩ := hf (Slot.value2 base M.dataLayout) ind2
  unfold SymbolicEncapsulation.fillHarness
  refine Except.exists_bind_ok h1 (Except.exists_bind_ok h2 (Except.exists_bind_ok h3 ?_))
  refine Except.exists_bind_ok h4 (Except.exists_bind_ok h5 ?_)
  exact Except.exists_bind_ok h6 (Except.exists_bind_ok h7 ⟨_, rfl⟩)

end

end Ephippion
