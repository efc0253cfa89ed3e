import Ephippion.Harness.Slot
import Ephippion.Proof.Builds

/-!
# What `setupHarnessArgs` builds

`setupHarnessArgs_of_ok`: a setup that returned has laid out one slot a parameter in the setup
block and its values are the slots' (`SetupDone`); the teardown block frees every heap buffer, the
last one first. It returned only if no pointee has size 0, and it does return then if the library
can be declared (`setupHarnessArgs_progress`).
-/

namespace Ephippion

/-- The pointees of the pointer parameters have a size. -/
def PointeesSized (dl : DataLayout) (params : List Param) : Prop :=
  ∀ p ∈ params, p.type.isPointerTy → dl.getTypeAllocSize p.elemTy ≠ 0

theorem typeAllocSize_eq_ok {M : Module} {t : Ty} {size : BitVec 64} :
    typeAllocSize M t = .ok size ↔
      M.dataLayout.getTypeAllocSize t ≠ 0 ∧ M.dataLayout.getTypeAllocSize t = size := by
  simp only [typeAllocSize]
  split
  · rename_i h0
    simp [h0]
  · rename_i h0
    simpa using fun _ => h0

theorem index_eq_ok {α : Type} {l : List α} {i : Nat} {a : α} :
    index l i = .ok a ↔ l[i]? = some a := by
  unfold index
  cases l[i]? <;> simp

theorem length_flatMap_setupInstrs (dl : DataLayout) (n : IterationsNumTy) (malloc : FuncRef)
    (slots : List Slot) :
    (slots.flatMap (Slot.setupInstrs dl n malloc)).length = slotsWidth slots := by
  simp [slotsWidth, List.length_flatMap]

section
variable {h setup : Nat} {dl : DataLayout} {n : IterationsNumTy} {malloc : FuncRef}
  {specs : List ArgSpec} {M₀ : Module}

/-- The setup block and the values after some parameters. -/
structure SetupDone (h setup : Nat) (dl : DataLayout) (n : IterationsNumTy) (malloc : FuncRef)
    (specs : List ArgSpec) (M₀ : Module) (params : List Param) (slots : List Slot)
    (s : ArgSetup) : Prop where
  layout : IsLayout params specs slots
  grown : Grown h setup M₀ (slots.flatMap (Slot.setupInstrs dl n malloc)) s.mod
  callArgs1 : s.callArgs1 = slots.map (Slot.value1 setup dl)
  callArgs2 : s.callArgs2 = slots.map (Slot.value2 setup dl)
  heapAllocs : s.heapAllocs = slots.flatMap (Slot.heapValues setup dl)

/-- Only a pointer to something without a size stops the setup of an argument. -/
theorem setupHarnessArg_sized {s s' : ArgSetup} {arg : Param × Nat}
    (hok : setupHarnessArg h specs setup malloc n s arg = .ok s') (hp : arg.1.type.isPointerTy) :
    s.mod.dataLayout.getTypeAllocSize arg.1.elemTy ≠ 0 := by
  obtain ⟨p, i⟩ := arg
  simp only at hp
  simp only [setupHarnessArg, hp, Bool.not_true, Bool.false_eq_true, ite_false,
    Except.bind_eq_ok] at hok
  obtain ⟨size, hsize, -⟩ := hok
  simpa [Param.elemTy, hp] using (typeAllocSize_eq_ok.1 hsize).1

theorem setupHarnessArg_eq (h setup : Nat) (n : IterationsNumTy) (malloc : FuncRef) (s : ArgSetup)
    (slot : Slot)
    (hdl : s.mod.dataLayout = dl) (hspec : specs[slot.pos]? = some slot.spec)
    (hp : slot.isPtr → dl.getTypeAllocSize slot.param.elemTy ≠ 0) :
    setupHarnessArg h specs setup malloc n s (slot.param, slot.pos) =
      let op := slot.setupOp dl n malloc
      let name := if slot.isPtr then "" else slot.param.name
      let r1 := s.mod.insert h (.atEnd setup) op name
      let r2 := if slot.outbound then r1.1.insert h (.atEnd setup) op name else r1
      .ok ⟨r2.1, s.heapAllocs ++ if slot.isPtr then
          if slot.outbound then [r1.2, r2.2] else [r1.2] else [],
        s.callArgs1 ++ [r1.2], s.callArgs2 ++ [r2.2]⟩ := by
  have hdl1 : ∀ op name, (s.mod.insert h (.atEnd setup) op name).1.dataLayout = dl :=
    fun op name => (Module.Extends.insert h s.mod _ op name).dataLayout.trans hdl
  cases hptr : slot.isPtr with
  | false =>
    have hp' : slot.param.type.isPointerTy = false := hptr
    simp only [setupHarnessArg, hspec, hp', Slot.outbound, Slot.setupOp, hptr, Module.createAlloca,
      hdl, hdl1, Bool.not_false, ite_true, Bool.false_eq_true, ite_false, List.append_nil,
      Except.pure_eq]
  | true =>
    have hp' : slot.param.type.isPointerTy = true := hptr
    have hsize : typeAllocSize s.mod slot.param.type.getPointerElementType =
        .ok (dl.getTypeAllocSize slot.param.elemTy) := by
      rw [typeAllocSize_eq_ok, hdl]
      have := hp hptr
      rw [Param.elemTy, if_pos hp'] at this ⊢
      exact ⟨this, rfl⟩
    simp only [setupHarnessArg, hp', hsize, index_eq_ok.2 hspec, hspec, Slot.outbound, Slot.setupOp,
      hptr, Slot.allocSize, createMul, Bool.not_true, ite_true, Bool.false_eq_true, ite_false,
      Except.ok_bind_eq, Except.pure_eq]
    split <;> rfl

theorem setupHarnessArg_step (hb : setup < (M₀.blocks h).length) (hdl : M₀.dataLayout = dl)
    (hm : malloc.type.ret = .int8PtrTy) {params : List Param} {slots : List Slot} {s : ArgSetup}
    (hs : SetupDone h setup dl n malloc specs M₀ params slots s) {p : Param} {spec : ArgSpec}
    (hspec : specs[params.length]? = some spec)
    (hp : p.type.isPointerTy → dl.getTypeAllocSize p.elemTy ≠ 0) :
    ∃ slot s', setupHarnessArg h specs setup malloc n s (p, params.length) = .ok s' ∧
      SetupDone h setup dl n malloc specs M₀ (params ++ [p]) (slots ++ [slot]) s' := by
  -- the new slot; its names are what the context makes of the parameter's
  let name := if p.type.isPointerTy then "" else p.name
  let slot₀ : Slot := ⟨p, params.length, spec, slotsWidth slots, "", ""⟩
  let op := slot₀.setupOp dl n malloc
  let M₁ := (s.mod.insert h (.atEnd setup) op name).1
  let slot : Slot := { slot₀ with name1 := s.mod.uniqueName h name, name2 := M₁.uniqueName h name }
  have hdl' : s.mod.dataLayout = dl := hs.grown.builds.ext.dataLayout.trans hdl
  have hlen : (s.mod.instrs h setup).length = slotsWidth slots := by
    rw [hs.grown.at_block, length_flatMap_setupInstrs]
  have hun : p.type.isPointerTy → slot.name1 = "" ∧ slot.name2 = "" := fun hptr => by
    simp [slot, name, hptr, Module.uniqueName]
  have hv1 : (s.mod.insert h (.atEnd setup) op name).2 = slot.value1 setup dl := by
    rw [Module.insert_value, hlen, Slot.type_setupOp hm, Slot.isAlloca_setupOp]
    rfl
  have g1 := hs.grown.insert hb op name
  have g2 := g1.insert hb op name
  have hv2 : (M₁.insert h (.atEnd setup) op name).2 =
      slot.value setup dl (slot.idx + 1) slot.name2 := by
    have hlen1 : (M₁.instrs h setup).length = slotsWidth slots + 1 := by
      rw [g1.at_block, List.length_append, length_flatMap_setupInstrs]
      rfl
    rw [Module.insert_value, hlen1, Slot.type_setupOp hm, Slot.isAlloca_setupOp]
    rfl
  have heq := setupHarnessArg_eq h setup n malloc s slot hdl' hspec hp
  cases hout : slot.outbound with
  | false =>
    simp only [hout, Bool.false_eq_true, ite_false] at heq
    refine ⟨slot, _, heq, hs.layout.snoc hspec hun, ?_, ?_, ?_, ?_⟩
    · simp only [List.flatMap_append, List.flatMap_singleton, Slot.setupInstrs, hout,
        Bool.false_eq_true, ite_false]
      exact g1
    · rw [List.map_append, ← hs.callArgs1, List.map_singleton, ← hv1]
      rfl
    · have hv : slot.value2 setup dl = slot.value1 setup dl := by simp [Slot.value2, hout]
      rw [List.map_append, ← hs.callArgs2, List.map_singleton, hv, ← hv1]
      rfl
    · simp only [List.flatMap_append, List.flatMap_singleton, Slot.heapValues, hout,
        Bool.false_eq_true, ite_false, ← hs.heapAllocs, ← hv1]
      rfl
  | true =>
    simp only [hout, ite_true] at heq
    refine ⟨slot, _, heq, hs.layout.snoc hspec hun, ?_, ?_, ?_, ?_⟩
    · simp only [List.flatMap_append, List.flatMap_singleton, Slot.setupInstrs, hout, ite_true]
      rw [List.append_assoc] at g2
      exact g2
    · rw [List.map_append, ← hs.callArgs1, List.map_singleton, ← hv1]
      rfl
    · have hv : slot.value2 setup dl = slot.value setup dl (slot.idx + 1) slot.name2 := by
        simp [Slot.value2, hout]
      rw [List.map_append, ← hs.callArgs2, List.map_singleton, hv, ← hv2]
      rfl
    · simp only [List.flatMap_append, List.flatMap_singleton, Slot.heapValues, Slot.value2, hout,
        ite_true, ← hs.heapAllocs, ← hv1, ← hv2]
      rfl

/-- Where the parameters before `done ++ [a]` end. -/
theorem zipIdx_before {α : Type} {l : List α} {done : List (α × Nat)} {a : α × Nat}
    (hp : done ++ [a] <+: l.zipIdx) : a.2 = done.length ∧ l[done.length]? = some a.1 := by
  obtain ⟨rest, hrest⟩ := hp
  have h1 : l.zipIdx[done.length]? = some a := by simp [← hrest]
  rw [List.getElem?_zipIdx] at h1
  cases hl : l[done.length]? with
  | none => rw [hl] at h1; cases h1
  | some x =>
    rw [hl] at h1
    simp only [Nat.zero_add, Option.map_some, Option.some.injEq] at h1
    subst h1
    exact ⟨rfl, rfl⟩

end

/-! ## The whole setup -/

section
variable {h setup teardown : Nat} {n : IterationsNumTy} {params : List Param}
  {specs : List ArgSpec} {M : Module}

/-- What `setupHarnessArgs` leaves: the module and the two value vectors. -/
structure SetupBuilt (h setup teardown : Nat) (n : IterationsNumTy) (params : List Param)
    (specs : List ArgSpec) (M M' : Module) (callArgs1 callArgs2 : List Value) (slots : List Slot)
    (malloc free : FuncRef) : Prop where
  layout : IsLayout params specs slots
  sized : PointeesSized M.dataLayout params
  malloc_declared : Declared M' malloc "malloc" mallocType
  free_declared : Declared M' free "free" freeType
  builds : Builds h M M'
  length : (M'.blocks h).length = (M.blocks h).length
  code : M'.instrs h = Function.update (Function.update (M.instrs h) setup
    (slots.flatMap (Slot.setupInstrs M.dataLayout n malloc))) teardown
    ((slots.flatMap (Slot.heapValues setup M.dataLayout)).reverse.map
      fun v => ⟨.call free [v], ""⟩)
  callArgs1 : callArgs1 = slots.map (Slot.value1 setup M.dataLayout)
  callArgs2 : callArgs2 = slots.map (Slot.value2 setup M.dataLayout)

theorem SetupDone.nil (h setup : Nat) (dl : DataLayout) (n : IterationsNumTy) (malloc : FuncRef)
    (specs : List ArgSpec) {M : Module} (hempty : M.instrs h setup = []) :
    SetupDone h setup dl n malloc specs M [] [] ⟨M, [], [], []⟩ := by
  have hg := Grown.refl h setup M
  rw [hempty] at hg
  exact ⟨.nil specs, hg, rfl, rfl, rfl⟩

theorem setupFold (n : IterationsNumTy) (params : List Param) (specs : List ArgSpec)
    {malloc : FuncRef} (hb : setup < (M.blocks h).length)
    (hempty : M.instrs h setup = []) (hm : malloc.type.ret = .int8PtrTy)
    (hspecs : params.length ≤ specs.length) :
    (∀ s, params.zipIdx.foldlM (setupHarnessArg h specs setup malloc n) ⟨M, [], [], []⟩ = .ok s →
      PointeesSized M.dataLayout params ∧
        ∃ slots, SetupDone h setup M.dataLayout n malloc specs M params slots s) ∧
    (PointeesSized M.dataLayout params → ∃ s,
      params.zipIdx.foldlM (setupHarnessArg h specs setup malloc n) ⟨M, [], [], []⟩ = .ok s) := by
  have hstep : ∀ (done : List (Param × Nat)) (a : Param × Nat) (s : ArgSetup),
      done ++ [a] <+: params.zipIdx →
      (∃ slots, SetupDone h setup M.dataLayout n malloc specs M (done.map (·.1)) slots s) →
      (a.1.type.isPointerTy → M.dataLayout.getTypeAllocSize a.1.elemTy ≠ 0) →
      ∃ s', setupHarnessArg h specs setup malloc n s a = .ok s' ∧
        ∃ slots, SetupDone h setup M.dataLayout n malloc specs M ((done ++ [a]).map (·.1)) slots
          s' := by
    intro done ⟨p, i⟩ s hpre ⟨slots, hs⟩ hp
    obtain ⟨rfl, hget⟩ := zipIdx_before hpre
    have hlt := (List.getElem?_eq_some_iff.1 hget).1
    obtain ⟨spec, hspec⟩ : ∃ spec, specs[(done.map (·.1)).length]? = some spec :=
      ⟨_, List.getElem?_eq_getElem (by rw [List.length_map]; omega)⟩
    obtain ⟨slot, s', hok, hs'⟩ := setupHarnessArg_step (p := p) hb rfl hm hs hspec hp
    rw [List.length_map] at hok
    exact ⟨s', hok, _, by simpa using hs'⟩
  have hfst : params.zipIdx.map (·.1) = params := by simp
  constructor
  · intro s hok
    have hkeep : ∀ (done : List (Param × Nat)) (a : Param × Nat) (s s' : ArgSetup),
        done ++ [a] <+: params.zipIdx →
        ((∀ e ∈ done, e.1.type.isPointerTy → M.dataLayout.getTypeAllocSize e.1.elemTy ≠ 0) ∧
          ∃ slots, SetupDone h setup M.dataLayout n malloc specs M (done.map (·.1)) slots s) →
        setupHarnessArg h specs setup malloc n s a = .ok s' →
        (∀ e ∈ done ++ [a], e.1.type.isPointerTy →
            M.dataLayout.getTypeAllocSize e.1.elemTy ≠ 0) ∧
          ∃ slots, SetupDone h setup M.dataLayout n malloc specs M ((done ++ [a]).map (·.1)) slots
            s' := by
      intro done a s s' hpre ⟨hsz, slots, hs⟩ hok
      have hdl : s.mod.dataLayout = M.dataLayout := hs.grown.builds.ext.dataLayout
      have hnew : a.1.type.isPointerTy → M.dataLayout.getTypeAllocSize a.1.elemTy ≠ 0 :=
        fun hptr => by simpa [hdl] using setupHarnessArg_sized hok hptr
      obtain ⟨s'', hok', hs''⟩ := hstep done a s hpre ⟨slots, hs⟩ hnew
      rw [hok] at hok'
      cases hok'
      refine ⟨fun e he => ?_, hs''⟩
      rcases List.mem_append.1 he with he | he
      · exact hsz e he
      · rw [List.mem_singleton.1 he]
        exact hnew
    obtain ⟨hsz, hs⟩ := Except.foldlM_ok
      ⟨by simp, [], .nil h setup _ n malloc specs hempty⟩ hkeep hok
    rw [hfst] at hs
    refine ⟨fun p hp hptr => ?_, hs⟩
    obtain ⟨a, ha, rfl⟩ : ∃ a ∈ params.zipIdx, a.1 = p := by
      rw [← hfst] at hp
      exact List.mem_map.1 hp
    exact hsz a ha hptr
  · intro hsized
    obtain ⟨s, hok, -⟩ := Except.foldlM_progress (P := fun done s =>
      ∃ slots, SetupDone h setup M.dataLayout n malloc specs M (done.map (·.1)) slots s)
      ⟨[], .nil h setup _ n malloc specs hempty⟩ (fun done a s hpre hs => hstep done a s hpre hs
        (hsized a.1 (List.mem_of_getElem? (zipIdx_before hpre).2)))
    exact ⟨s, hok⟩

theorem setupHarnessArgs_of_ok (hb : setup < (M.blocks h).length)
    (hbt : teardown < (M.blocks h).length) (hne : teardown ≠ setup)
    (hempty : M.instrs h setup = []) (hempty' : M.instrs h teardown = [])
    (hspecs : params.length ≤ specs.length) (hparams : params ≠ []) {M' : Module}
    {callArgs1 callArgs2 : List Value}
    (hok : setupHarnessArgs M h params specs setup teardown n = .ok (M', callArgs1, callArgs2)) :
    ∃ slots malloc free,
      SetupBuilt h setup teardown n params specs M M' callArgs1 callArgs2 slots malloc free := by
  have hh := Module.lt_of_blocks hb
  simp only [setupHarnessArgs, List.isEmpty_eq_false_iff.2 hparams, Bool.false_eq_true, ite_false,
    Except.bind_eq_ok, Prod.exists] at hok
  obtain ⟨M₁, malloc, hmalloc, M₂, free, hfree, s, hfold, hok⟩ := hok
  have c1 : LibCast h M M₁ malloc ("malloc", mallocType) := libCast_of_ok hh (by decide) hmalloc
  have c2 : LibCast h M₁ M₂ free ("free", freeType) :=
    libCast_of_ok (c1.builds.lt hh) (by decide) hfree
  have hbl : M₂.blocks = M.blocks := c2.blocks.trans c1.blocks
  have hin : M₂.instrs = M.instrs := c2.instrs.trans c1.instrs
  have hb2 : Builds h M M₂ := c1.builds.trans hh c2.builds
  have hdl : M₂.dataLayout = M.dataLayout := hb2.ext.dataLayout
  obtain ⟨hsized, slots, hs⟩ := (setupFold n params specs (by rw [hbl]; exact hb)
    (by rw [hin]; exact hempty)
    (by rw [c1.declared.type_eq]; rfl) hspecs).1 s hfold
  have hbts : teardown < (s.mod.blocks h).length := by rw [hs.grown.length, hbl]; exact hbt
  have ht := Grown.foldl_append (fun v => .call free [v]) hbts s.heapAllocs.reverse
    (Grown.refl h teardown s.mod)
  simp only [Except.pure_eq, Except.ok.injEq, Prod.mk.injEq] at hok
  obtain ⟨rfl, rfl, rfl⟩ := hok
  have hb3 : Builds h M₂ (s.heapAllocs.reverse.foldl
      (fun M a => M.append h teardown (.call free [a])) s.mod) :=
    hs.grown.builds.trans (hb2.lt hh) ht.builds
  refine ⟨slots, malloc, free, hs.layout, hdl ▸ hsized,
    (c1.declared.builds c2.builds).builds hb3, c2.declared.builds hb3, hb2.trans hh hb3, ?_, ?_,
    by rw [hs.callArgs1, hdl], by rw [hs.callArgs2, hdl]⟩
  · rw [ht.length, hs.grown.length, hbl]
  · rw [ht.code, hs.grown.code, hs.heapAllocs, hin, hdl, Function.update_of_ne hne, hempty']
    rfl

theorem setupHarnessArgs_progress (teardown : Nat) (n : IterationsNumTy)
    (hb : setup < (M.blocks h).length)
    (hempty : M.instrs h setup = []) (hspecs : params.length ≤ specs.length)
    (hm : Declares M "malloc" mallocType) (hf : Declares M "free" freeType)
    (hsized : PointeesSized M.dataLayout params) :
    ∃ r, setupHarnessArgs M h params specs setup teardown n = .ok r := by
  have hh := Module.lt_of_blocks hb
  unfold setupHarnessArgs
  split
  · exact ⟨_, rfl⟩
  obtain ⟨⟨M₁, malloc⟩, hmalloc⟩ := libCast_progress (d := ("malloc", mallocType)) hm
  have c1 : LibCast h M M₁ malloc ("malloc", mallocType) := libCast_of_ok hh (by decide) hmalloc
  obtain ⟨⟨M₂, free⟩, hfree⟩ := libCast_progress (d := ("free", freeType))
    ((c1.builds.libs ("free", freeType) (by decide)).2 hf)
  have c2 : LibCast h M₁ M₂ free ("free", freeType) :=
    libCast_of_ok (c1.builds.lt hh) (by decide) hfree
  have hdl : M₂.dataLayout = M.dataLayout := (c1.builds.trans hh c2.builds).ext.dataLayout
  obtain ⟨s, hs⟩ := (setupFold n params specs (M := M₂) (by rw [c2.blocks, c1.blocks]; exact hb)
    (by rw [c2.instrs, c1.instrs]; exact hempty)
    (by rw [c1.declared.type_eq]; rfl) hspecs).2 (hdl ▸ hsized)
  exact Except.exists_bind_ok hmalloc (Except.exists_bind_ok hfree
    (Except.exists_bind_ok hs ⟨_, rfl⟩))

end

end Ephippion
