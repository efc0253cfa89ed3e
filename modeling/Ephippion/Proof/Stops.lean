import Ephippion.Proof.Encapsulate

/-!
# Where a generation casts what it has declared

The helpers declare two library functions each before anything else and cast nothing after that
(`CastsNothing`), so a helper stops with a bad cast exactly if one of its two cannot be declared
(`twoCasts_badCast_iff`). `reachedLibs` are the declarations that a generation gets to, and
`buildHarness_badCast_iff` puts the helpers together.
-/

namespace Ephippion

open SymbolicEncapsulation

/-! ## Computations without casts -/

/-- It stops, if at all, with something other than a bad cast. -/
structure CastsNothing {α : Type} (x : Except Stop α) : Prop where
  ne : x ≠ .error .badCast

namespace CastsNothing

variable {α β : Type}

theorem ok (a : α) : CastsNothing (.ok a) := ⟨nofun⟩

theorem assertion (text : String) :
    CastsNothing (.error (.assertion text) : Except Stop α) := ⟨nofun⟩

theorem bind {x : Except Stop α} {f : α → Except Stop β} (hx : CastsNothing x)
    (hf : ∀ a, CastsNothing (f a)) : CastsNothing (x >>= f) := by
  refine ⟨fun h => ?_⟩
  rcases Except.bind_eq_error.1 h with h | ⟨a, -, h⟩
  · exact hx.ne h
  · exact (hf a).ne h

theorem map {x : Except Stop α} (f : α → β) (hx : CastsNothing x) : CastsNothing (x.map f) :=
  ⟨fun h => hx.ne (Except.map_eq_error.1 h)⟩

theorem ite {c : Prop} [Decidable c] {x y : Except Stop α} (hx : CastsNothing x)
    (hy : CastsNothing y) : CastsNothing (if c then x else y) := by
  split
  · exact hx
  · exact hy

theorem foldlM {f : β → α → Except Stop β} (hf : ∀ b a, CastsNothing (f b a)) (l : List α) (b : β) :
    CastsNothing (l.foldlM f b) := ⟨Except.foldlM_ne_error (fun b a _ => (hf b a).ne) b⟩

theorem index (l : List α) (i : Nat) : CastsNothing (index l i) := by
  unfold Ephippion.index
  split
  · exact .ok _
  · exact ⟨nofun⟩

theorem typeAllocSize (M : Module) (t : Ty) : CastsNothing (typeAllocSize M t) :=
  .ite (.assertion _) (.ok _)

theorem sizeAndDirection (specs : List ArgSpec) (i : Nat) (p : ArgDirection → Bool) :
    CastsNothing (sizeAndDirection specs i p) := .ite (.map _ (.index specs i)) (.ok _)

theorem setupHarnessArg (h : Nat) (specs : List ArgSpec) (setup : Nat) (malloc : FuncRef)
    (n : IterationsNumTy) (s : ArgSetup) (arg : Param × Nat) :
    CastsNothing (setupHarnessArg h specs setup malloc n s arg) := by
  unfold Ephippion.setupHarnessArg
  exact .ite (.ok _) (.bind (.typeAllocSize ..) fun size => .bind (.index ..) fun spec =>
    .ite (.ok _) (.ok _))

theorem symbolSize (M : Module) (p : Param) (v : Value) (n : IterationsNumTy)
    (specs : List ArgSpec) (i : Nat) : CastsNothing (symbolSize M p v n specs i) := by
  unfold Ephippion.symbolSize
  exact .ite (.bind (.typeAllocSize ..) fun _ => .ok _)
    (.bind (.typeAllocSize ..) fun _ => .bind (.index ..) fun _ => .ok _)

theorem createSymbolicDeclaration (h block : Nat) (values1 values2 : List Value)
    (symbolize memcpy : FuncRef) (n : IterationsNumTy) (specs : List ArgSpec) (M : Module)
    (arg : Param × Nat) : CastsNothing
      (createSymbolicDeclaration h block values1 values2 symbolize memcpy n specs M arg) := by
  unfold Ephippion.createSymbolicDeclaration
  exact .bind (.sizeAndDirection ..) fun _ => .ite (.ok _) (.bind (.index ..) fun _ =>
    .bind (.symbolSize ..) fun _ => .bind (.index ..) fun _ =>
      .ite (.bind (.index ..) fun _ => .ok _) (.ok _))

theorem createCondition (M : Module) (h b : Nat) (v₁ v₂ : Value) (memcmp : FuncRef)
    (n : IterationsNumTy) (specs : List ArgSpec) (i : Nat) :
    CastsNothing (createCondition M h b v₁ v₂ memcmp n specs i) := by
  unfold Ephippion.createCondition
  exact .ite (.ok _) (.bind (.typeAllocSize ..) fun _ => .bind (.index ..) fun _ => .ok _)

theorem createSymbolicAssertion (h : Nat) (values1 values2 : List Value) (memcmp assert : FuncRef)
    (args : List Value) (n : IterationsNumTy) (specs : List ArgSpec) (s : Assertions) (i : Nat) :
    CastsNothing (createSymbolicAssertion h values1 values2 memcmp assert args n specs s i) := by
  unfold Ephippion.createSymbolicAssertion
  exact .bind (.sizeAndDirection ..) fun _ => .ite (.ok _) (.bind (.index ..) fun _ =>
    .bind (.index ..) fun _ => .bind (.createCondition ..) fun _ => .ok _)

theorem linkChain (h start endBlock : Nat) (s : Assertions) :
    CastsNothing (linkChain h start endBlock s) := by
  unfold Ephippion.linkChain
  refine .bind (.foldlM (fun M b => ?_) _ _) fun M =>
    .bind (.foldlM (fun M i => ?_) _ _) fun M => ?_
  · exact .bind (.index ..) fun _ => .bind (.index ..) fun _ => .ok _
  · exact .bind (.index ..) fun _ => .bind (.index ..) fun _ => .ok _
  · split
    · exact .ok _
    · exact .ok _

theorem createLoop (M : Module) (h : Nat) (body : List Nat) (preheader postexit : Nat)
    (start stop step : BitVec 32) :
    CastsNothing (createLoop M h body preheader postexit start stop step) := by
  unfold Ephippion.createLoop
  split
  · exact .assertion _
  · exact .ite (.bind (.assertion _) fun _ => .ok _) (.ok _)

theorem setFirst (vs : List Value) (v : Value) : CastsNothing (setFirst vs v) := by
  unfold Ephippion.setFirst
  split
  · exact ⟨nofun⟩
  · exact .ok _

end CastsNothing

/-! ## The helpers -/

section
variable {h : Nat} {n : IterationsNumTy} {params : List Param} {specs : List ArgSpec} {M : Module}

variable (n specs) in
theorem setupHarnessArgs_badCast_iff (setup teardown : Nat) (hh : h < M.functions.length)
    (hparams : params ≠ []) :
    setupHarnessArgs M h params specs setup teardown n = .error .badCast ↔
      ¬ (Declares M "malloc" mallocType ∧ Declares M "free" freeType) := by
  rw [setupHarnessArgs, if_neg (by simpa using hparams)]
  let k (M : Module) (malloc free : FuncRef) : Except Stop (Module × List Value × List Value) := do
    let s ← params.zipIdx.foldlM (setupHarnessArg h specs setup malloc n) ⟨M, [], [], []⟩
    return (s.heapAllocs.reverse.foldl
      (fun M alloc => M.append h teardown (.call free [alloc])) s.mod, s.callArgs1, s.callArgs2)
  exact twoCasts_badCast_iff (d := ("malloc", mallocType)) (e := ("free", freeType)) (k := k) hh
    (by decide) (by decide) fun _ _ _ =>
      (CastsNothing.bind (.foldlM (.setupHarnessArg _ _ _ _ _) _ _) fun _ => .ok _).ne

theorem createSymbolicDeclarations_badCast_iff (block : Nat) {values1 values2 : List Value}
    (hh : h < M.functions.length) (h1 : values1 ≠ []) (h2 : values2 ≠ []) :
    createSymbolicDeclarations M h block params values1 values2 n specs = .error .badCast ↔
      ¬ (Declares M "klee_make_symbolic" kleeType ∧ Declares M "memcpy" memcpyType) := by
  rw [createSymbolicDeclarations, if_neg (by simp [h1, h2])]
  let k (M : Module) (symbolize memcpy : FuncRef) : Except Stop Module :=
    params.zipIdx.foldlM
      (createSymbolicDeclaration h block values1 values2 symbolize memcpy n specs) M
  exact twoCasts_badCast_iff (d := ("klee_make_symbolic", kleeType)) (e := ("memcpy", memcpyType))
    (k := k) hh (by decide) (by decide) fun _ _ _ =>
      (CastsNothing.foldlM (.createSymbolicDeclaration _ _ _ _ _ _ _ _) _ _).ne

theorem createSymbolicAssertions_badCast_iff (start endBlock : Nat) {values1 values2 : List Value}
    (hh : h < M.functions.length) (hne : values1 ≠ []) (hlen : values2.length = values1.length) :
    createSymbolicAssertions M h start endBlock values1 values2 n specs = .error .badCast ↔
      ¬ (Declares M "__assert_fail" assertType ∧ Declares M "memcmp" kleeType) := by
  rw [createSymbolicAssertions_eq hne hlen]
  let k (M : Module) (assert memcmp : FuncRef) : Except Stop Module := do
    let funcName := M.createGlobalStringPtr ((M.functions[h]?.map (·.name)).getD "")
    let modName := funcName.1.createGlobalStringPtr funcName.1.name
    let assertText := modName.1.createGlobalStringPtr "FAILED"
    let s ← (List.range values1.length).foldlM
      (createSymbolicAssertion h values1 values2 memcmp assert
        [assertText.2, modName.2, getIntN 32 0, funcName.2] n specs) ⟨assertText.1, [], [], []⟩
    linkChain h start endBlock s
  exact twoCasts_badCast_iff (d := ("__assert_fail", assertType)) (e := ("memcmp", kleeType))
    (k := k) hh (by decide) (by decide) fun _ _ _ => (CastsNothing.bind
      (.foldlM (.createSymbolicAssertion _ _ _ _ _ _ _ _) _ _) fun _ => .linkChain _ _ _ _).ne

end

/-! ## A whole generation -/

/-- What is made symbolic has a size: every parameter that is not outbound only. -/
def ValuesSized (dl : DataLayout) (params : List Param) (specs : List ArgSpec) : Prop :=
  ∀ a ∈ params.zip specs, isOnlyOutbound a.2.direction = false →
    dl.getTypeAllocSize a.1.elemTy ≠ 0

instance (dl : DataLayout) (params : List Param) (specs : List ArgSpec) :
    Decidable (ValuesSized dl params specs) :=
  inferInstanceAs (Decidable (∀ a ∈ params.zip specs, isOnlyOutbound a.2.direction = false →
    dl.getTypeAllocSize a.1.elemTy ≠ 0))

instance (dl : DataLayout) (params : List Param) : Decidable (PointeesSized dl params) :=
  inferInstanceAs (Decidable (∀ p ∈ params, p.type.isPointerTy →
    dl.getTypeAllocSize p.elemTy ≠ 0))

/-- The library functions a generation gets to declare, if it can declare those before: a type
without a size stops it on the way. -/
def reachedLibs (dl : DataLayout) (params : List Param) (specs : List ArgSpec) :
    List (String × FunctionType) :=
  ("malloc", mallocType) :: ("free", freeType) ::
    if PointeesSized dl params then
      ("klee_make_symbolic", kleeType) :: ("memcpy", memcpyType) ::
        if ValuesSized dl params specs then [("__assert_fail", assertType), ("memcmp", kleeType)]
        else []
    else []

theorem reachedLibs_subset {dl : DataLayout} {params : List Param} {specs : List ArgSpec}
    {d : String × FunctionType} (hd : d ∈ reachedLibs dl params specs) : d ∈ libDecls := by
  have hall : reachedLibs dl params specs ⊆ libDecls := by
    unfold reachedLibs
    split
    · split <;> decide
    · decide
  exact hall hd

theorem symbolsSized_iff {dl : DataLayout} {params : List Param} {specs : List ArgSpec}
    {slots : List Slot} (hl : IsLayout params specs slots) :
    SymbolsSized dl slots ↔ ValuesSized dl params specs := by
  rw [ValuesSized, hl.zip_eq, List.forall_mem_map, SymbolsSized]
  apply forall₂_congr
  intro s _
  rw [Slot.symbolized, Bool.not_eq_true']

section
variable {h base F : Nat} {f : Function} {n : IterationsNumTy} {specs : List ArgSpec}

/-- A filling that stops with a bad cast does so at a function it gets to. -/
theorem not_declares_of_badCast {M : Module} (hlen : (M.blocks h).length = base + 12)
    (hempty : ∀ b, base ≤ b → M.instrs h b = []) (hspecs : f.params.length ≤ specs.length)
    (hparams : f.params ≠ [])
    (hstop : fillHarness M h base F f n specs = .error .badCast) :
    ∃ d ∈ reachedLibs M.dataLayout f.params specs, ¬ Declares M d.1 d.2 := by
  have hh : h < M.functions.length := Module.lt_of_blocks (b := 0) (by omega)
  have hsetup := setupHarnessArgs_badCast_iff n specs base (base + 10) hh hparams
  rw [fillHarness, Except.bind_eq_error, hsetup] at hstop
  rcases hstop with hno | ⟨⟨M₁, a1, a2⟩, h1, hstop⟩
  · rw [not_and_or] at hno
    rcases hno with hno | hno
    · exact ⟨("malloc", mallocType), by simp [reachedLibs], hno⟩
    · exact ⟨("free", freeType), by simp [reachedLibs], hno⟩
  obtain ⟨slots, malloc, free, hs, hne, hdl1, hlen1, he1⟩ :=
    setup_of_ok hlen hempty hspecs hparams h1
  obtain rfl := hs.callArgs1
  obtain rfl := hs.callArgs2
  have hh1 := hs.builds.lt hh
  rcases Except.bind_eq_error.1 hstop with hstop | ⟨M₂, h2, hstop⟩
  · rw [createSymbolicDeclarations_badCast_iff _ hh1 (by simpa using hne) (by simpa using hne),
      not_and_or] at hstop
    rcases hstop with hno | hno
    · exact ⟨("klee_make_symbolic", kleeType), by simp [reachedLibs, hs.sized],
        fun hd => hno ((hs.builds.libs ("klee_make_symbolic", kleeType) (by decide)).2 hd)⟩
    · exact ⟨("memcpy", memcpyType), by simp [reachedLibs, hs.sized],
        fun hd => hno ((hs.builds.libs ("memcpy", memcpyType) (by decide)).2 hd)⟩
  rw [← hdl1] at h2
  obtain ⟨symbolize, memcpy, hy⟩ :=
    createSymbolicDeclarations_of_ok base (by omega) he1 hs.layout h2
  have hval := (symbolsSized_iff hs.layout).1 hy.sized
  rw [hdl1] at hval
  have hb2 := hs.builds.trans hh hy.grown.builds
  rcases Except.bind_eq_error.1 hstop with hstop | ⟨M₃, -, hstop⟩
  · rw [createSymbolicAssertions_badCast_iff _ _ (hb2.lt hh) (by simpa using hne) (by simp),
      not_and_or] at hstop
    rcases hstop with hno | hno
    · exact ⟨("__assert_fail", assertType), by simp [reachedLibs, hs.sized, hval],
        fun hd => hno ((hb2.libs ("__assert_fail", assertType) (by decide)).2 hd)⟩
    · exact ⟨("memcmp", kleeType), by simp [reachedLibs, hs.sized, hval],
        fun hd => hno ((hb2.libs ("memcmp", kleeType) (by decide)).2 hd)⟩
  · -- nothing is cast after that
    exact absurd hstop (CastsNothing.bind (.createLoop ..) fun _ => .bind (.createLoop ..)
      fun _ => .bind (.setFirst ..) fun _ => .bind (.setFirst ..) fun _ => .ok _).ne

theorem badCast_of_not_declares (F : Nat) (n : IterationsNumTy) {M : Module}
    (hlen : (M.blocks h).length = base + 12) (hempty : ∀ b, base ≤ b → M.instrs h b = [])
    (hspecs : f.params.length ≤ specs.length) (hparams : f.params ≠ [])
    {d : String × FunctionType} (hd : d ∈ reachedLibs M.dataLayout f.params specs)
    (hno : ¬ Declares M d.1 d.2) : fillHarness M h base F f n specs = .error .badCast := by
  have hh : h < M.functions.length := Module.lt_of_blocks (b := 0) (by omega)
  have hsetup := setupHarnessArgs_badCast_iff n specs base (base + 10) hh hparams
  rw [fillHarness, Except.bind_eq_error, hsetup]
  by_cases h1 : Declares M "malloc" mallocType ∧ Declares M "free" freeType
  swap
  · exact .inl h1
  simp only [reachedLibs, List.mem_cons] at hd
  rcases hd with rfl | rfl | hd
  · exact absurd h1.1 hno
  · exact absurd h1.2 hno
  split at hd
  swap
  · cases hd
  rename_i hptr
  obtain ⟨⟨M₁, a1, a2⟩, hok⟩ := setupHarnessArgs_progress (base + 10) n
    (show base < (M.blocks h).length by omega) (hempty base (Nat.le_refl _)) hspecs h1.1 h1.2 hptr
  obtain ⟨slots, malloc, free, hs, hne, hdl1, hlen1, he1⟩ :=
    setup_of_ok hlen hempty hspecs hparams hok
  obtain rfl := hs.callArgs1
  obtain rfl := hs.callArgs2
  have hh1 := hs.builds.lt hh
  refine .inr ⟨_, hok, ?_⟩
  rw [Except.bind_eq_error, createSymbolicDeclarations_badCast_iff _ hh1 (by simpa using hne)
    (by simpa using hne)]
  by_cases h2 : Declares M₁ "klee_make_symbolic" kleeType ∧ Declares M₁ "memcpy" memcpyType
  swap
  · exact .inl h2
  simp only [List.mem_cons] at hd
  rcases hd with rfl | rfl | hd
  · exact absurd ((hs.builds.libs _ (by decide)).1 h2.1) hno
  · exact absurd ((hs.builds.libs _ (by decide)).1 h2.2) hno
  split at hd
  swap
  · cases hd
  rename_i hval
  rw [← hdl1] at hval
  obtain ⟨M₂, hok2⟩ := createSymbolicDeclarations_progress base n
    (show base + 1 < (M₁.blocks h).length by omega) he1 hs.layout hne h2.1 h2.2
    ((symbolsSized_iff hs.layout).2 hval)
  obtain ⟨symbolize, memcpy, hy⟩ :=
    createSymbolicDeclarations_of_ok base (by omega) he1 hs.layout hok2
  rw [hdl1] at hok2
  have hb2 := hs.builds.trans hh hy.grown.builds
  refine .inr ⟨M₂, hok2, Except.bind_eq_error.2 (.inl ?_)⟩
  rw [createSymbolicAssertions_badCast_iff _ _ (hb2.lt hh) (by simpa using hne) (by simp)]
  intro hx
  obtain ⟨h3, h4⟩ := hx
  simp only [List.mem_cons, List.not_mem_nil, or_false] at hd
  rcases hd with rfl | rfl
  · exact hno ((hb2.libs ("__assert_fail", assertType) (by decide)).1 h3)
  · exact hno ((hb2.libs ("memcmp", kleeType) (by decide)).1 h4)

/-- A generation stops with a bad cast exactly if it cannot declare the harness or a library
function it gets to, which is so also if the harness has that one's name. -/
theorem buildHarness_badCast_iff {senc : SymbolicEncapsulation} {M : Module} (F : Nat)
    (n : IterationsNumTy) (specs : List ArgSpec) (hparams : f.params ≠ [])
    (hdec : Declares M (senc.harnessName f) harnessType) :
    senc.buildHarness M F f n specs = .error .badCast ↔
      ∃ d ∈ reachedLibs M.dataLayout f.params (padSpecs specs f.params.length),
        senc.harnessName f = d.1 ∨ ¬ Declares M d.1 d.2 := by
  obtain ⟨M₁, ref, hd, hM₁, hD⟩ := castFunction_spec hdec
  have hd' : declareFunc M (senc.harnessName f) .int32Ty = .ok (M₁, ref) := hd
  have hh : ref.index < M₁.functions.length := hD.lt
  obtain ⟨hlen, hempty⟩ := withBlocks_ready hh
  have hbW : Builds ref.index M₁ (withBlocks M₁ ref.index blockNames) :=
    (withBlocks_spec blockNames hh).1
  have hdl : (withBlocks M₁ ref.index blockNames).dataLayout = M.dataLayout := by
    rw [hbW.ext.dataLayout, hM₁]
    exact (declare_frame M _ _).dataLayout
  have hiff : ∀ d ∈ libDecls, ¬ Declares (withBlocks M₁ ref.index blockNames) d.1 d.2 ↔
      senc.harnessName f = d.1 ∨ ¬ Declares M d.1 d.2 := fun d hmem => by
    rw [hbW.libs d hmem, declares_declare hd' hmem, not_and_or, not_not]
  rw [buildHarness_eq senc hd' hh]
  constructor
  · intro hstop
    obtain ⟨d, hmem, hno⟩ :=
      not_declares_of_badCast hlen hempty (length_padSpecs _ _) hparams hstop
    rw [hdl] at hmem
    exact ⟨d, hmem, (hiff d (reachedLibs_subset hmem)).1 hno⟩
  · intro hx
    obtain ⟨d, hmem, hno⟩ := hx
    rw [← hdl] at hmem
    exact badCast_of_not_declares F n hlen hempty (length_padSpecs _ _) hparams hmem
      ((hiff d (reachedLibs_subset hmem)).2 hno)

end

end Ephippion
