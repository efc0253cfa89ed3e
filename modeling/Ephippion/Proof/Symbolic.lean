import Ephippion.Proof.Setup

/-!
# What `createSymbolicDeclarations` builds

The block gets the `symInstrs` of the slots, in order (`createSymbolicDeclarations_of_ok`), and
the helper returns if what is made symbolic has a size (`createSymbolicDeclarations_progress`).
-/

namespace Ephippion

/-- What is made symbolic has a size. -/
def SymbolsSized (dl : DataLayout) (slots : List Slot) : Prop :=
  ∀ s ∈ slots, s.symbolized → dl.getTypeAllocSize s.param.elemTy ≠ 0

theorem sizeAndDirection_eq {specs : List ArgSpec} {i : Nat} {spec : ArgSpec}
    (hs : specs[i]? = some spec) (p : ArgDirection → Bool) :
    sizeAndDirection specs i p = .ok (p spec.direction) := by
  have hlt := (List.getElem?_eq_some_iff.1 hs).1
  rw [sizeAndDirection, if_pos (by omega), index_eq_ok.2 hs]
  rfl

namespace Slot

theorem name_value (s : Slot) (setup : Nat) (dl : DataLayout) (i : Nat) (name : String) :
    (s.value setup dl i name).getName = name := rfl

theorem elemTy_value (s : Slot) (setup : Nat) (dl : DataLayout) (hptr : s.isPtr = false) :
    (s.value1 setup dl).getType.getPointerElementType = s.param.elemTy := by
  have hp : s.param.type.isPointerTy = false := hptr
  simp [value1, value, Value.getType, copyTy, hptr, Param.elemTy, hp, Ty.getPointerElementType]

end Slot

section
variable {h setup block : Nat} {dl : DataLayout} {n : IterationsNumTy} {symbolize memcpy : FuncRef}
  {params : List Param} {specs : List ArgSpec} {slots : List Slot}

theorem symbolSize_eq {M : Module} {s : Slot} (hdl : M.dataLayout = dl)
    (hspec : specs[s.pos]? = some s.spec) :
    symbolSize M s.param (s.value1 setup dl) n specs s.pos =
      (if dl.getTypeAllocSize s.param.elemTy = 0 then
        .error (.assertion "type size cannot be zero!")
      else .ok (getIntN 64 (s.allocSize dl n))) := by
  have htype : ∀ t, typeAllocSize M t = if dl.getTypeAllocSize t = 0 then
      .error (.assertion "type size cannot be zero!") else .ok (dl.getTypeAllocSize t) := by
    intro t
    rw [← hdl]
    rfl
  cases hptr : s.isPtr with
  | false =>
    have hp : s.param.type.isPointerTy = false := hptr
    simp only [symbolSize, hp, Bool.not_false, ite_true, s.elemTy_value setup dl hptr, htype]
    split
    · rfl
    · simp [Slot.allocSize, hptr, createMul]
  | true =>
    have hp : s.param.type.isPointerTy = true := hptr
    have he : s.param.elemTy = s.param.type.getPointerElementType := by
      rw [Param.elemTy, if_pos hp]
    simp only [symbolSize, hp, Bool.not_true, Bool.false_eq_true, ite_false, htype, he]
    split
    · rfl
    · simp [Slot.allocSize, hptr, createMul, index_eq_ok.2 hspec, he]

theorem createSymbolicDeclaration_sized {M M' : Module} {s : Slot} (hdl : M.dataLayout = dl)
    (hspec : specs[s.pos]? = some s.spec)
    (hv1 : (slots.map (Slot.value1 setup dl))[s.pos]? = some (s.value1 setup dl))
    (hok : createSymbolicDeclaration h block (slots.map (Slot.value1 setup dl))
      (slots.map (Slot.value2 setup dl)) symbolize memcpy n specs M (s.param, s.pos) = .ok M')
    (hsym : s.symbolized) : dl.getTypeAllocSize s.param.elemTy ≠ 0 := by
  intro h0
  have hno : isOnlyOutbound s.spec.direction = false := by simpa [Slot.symbolized] using hsym
  simp only [createSymbolicDeclaration, sizeAndDirection_eq hspec, hno, Except.ok_bind_eq,
    Bool.false_eq_true, ite_false, index_eq_ok.2 hv1] at hok
  rw [symbolSize_eq hdl hspec, if_pos h0] at hok
  cases hok

theorem createSymbolicDeclaration_step (setup : Nat) (n : IterationsNumTy)
    (symbolize memcpy : FuncRef) {M₀ M : Module} {is : List Instr} {s : Slot}
    (hb : block < (M₀.blocks h).length) (hg : Grown h block M₀ is M) (hdl : M.dataLayout = dl)
    (hspec : specs[s.pos]? = some s.spec)
    (hv1 : (slots.map (Slot.value1 setup dl))[s.pos]? = some (s.value1 setup dl))
    (hv2 : (slots.map (Slot.value2 setup dl))[s.pos]? = some (s.value2 setup dl))
    (hsize : s.symbolized → dl.getTypeAllocSize s.param.elemTy ≠ 0) :
    ∃ M', createSymbolicDeclaration h block (slots.map (Slot.value1 setup dl))
        (slots.map (Slot.value2 setup dl)) symbolize memcpy n specs M (s.param, s.pos) = .ok M' ∧
      Grown h block M₀ (is ++ s.symInstrs setup dl n symbolize memcpy) M' := by
  cases hsym : s.symbolized with
  | false =>
    have hon : isOnlyOutbound s.spec.direction = true := by simpa [Slot.symbolized] using hsym
    refine ⟨M, ?_, by simpa [Slot.symInstrs, hsym] using hg⟩
    simp [createSymbolicDeclaration, sizeAndDirection_eq hspec, hon]
  | true =>
    have hno : isOnlyOutbound s.spec.direction = false := by simpa [Slot.symbolized] using hsym
    simp only [createSymbolicDeclaration, sizeAndDirection_eq hspec, hno, Except.ok_bind_eq,
      Bool.false_eq_true, ite_false, index_eq_ok.2 hv1]
    rw [symbolSize_eq hdl hspec, if_neg (hsize hsym)]
    simp only [Except.ok_bind_eq, index_eq_ok.2 hspec]
    have g1 := (hg.createGlobalStringPtr hb (s.symName "1" s.name1)).append hb (.call symbolize
      [s.value1 setup dl, getIntN 64 (s.allocSize dl n), .globalString (s.symName "1" s.name1)])
    cases hout : isOutbound s.spec.direction with
    | false =>
      refine ⟨_, rfl, ?_⟩
      simp only [Slot.symInstrs, hsym, Slot.outbound, hout, ite_true, Bool.false_eq_true, ite_false]
      exact g1
    | true =>
      simp only [ite_true, index_eq_ok.2 hv2, Except.ok_bind_eq]
      refine ⟨_, rfl, ?_⟩
      have g2 := ((g1.createGlobalStringPtr hb (s.symName "2" s.name2)).append hb (.call symbolize
        [s.value2 setup dl, getIntN 64 (s.allocSize dl n), .globalString (s.symName "2" s.name2)]))
      have g3 := g2.append hb
        (.call memcpy [s.value2 setup dl, s.value1 setup dl, getIntN 64 (s.allocSize dl n)])
      have hname : (s.value2 setup dl).getName = s.name2 := by
        simp [Slot.value2, Slot.outbound, hout, Slot.name_value]
      simp only [Slot.symInstrs, hsym, Slot.outbound, hout, ite_true, hname]
      rw [List.append_assoc, List.append_assoc] at g3
      exact g3

theorem symbolicFold (setup : Nat) (n : IterationsNumTy) (symbolize memcpy : FuncRef) {M : Module}
    (hb : block < (M.blocks h).length)
    (hempty : M.instrs h block = []) (hl : IsLayout params specs slots) :
    let fold := params.zipIdx.foldlM (createSymbolicDeclaration h block
      (slots.map (Slot.value1 setup M.dataLayout)) (slots.map (Slot.value2 setup M.dataLayout))
      symbolize memcpy n specs) M
    (∀ M', fold = .ok M' → SymbolsSized M.dataLayout slots ∧ Grown h block M
      (slots.flatMap (Slot.symInstrs setup M.dataLayout n symbolize memcpy)) M') ∧
    (SymbolsSized M.dataLayout slots → ∃ M', fold = .ok M') := by
  intro fold
  have hval : ∀ (f : Slot → Value) (s : Slot), slots[s.pos]? = some s →
      (slots.map f)[s.pos]? = some (f s) := fun f s hs => by rw [List.getElem?_map, hs]; rfl
  have hgrown : ∀ {M' : Module} {is : List Instr}, Grown h block M is M' →
      M'.dataLayout = M.dataLayout := fun hg => hg.builds.ext.dataLayout
  -- the slot of the parameter whose turn it is
  have hslot : ∀ (done : List (Param × Nat)) (a : Param × Nat), done ++ [a] <+: params.zipIdx →
      ∃ s, slots[s.pos]? = some s ∧ a = (s.param, s.pos) ∧ specs[s.pos]? = some s.spec ∧
        slots.take (done ++ [a]).length = slots.take done.length ++ [s] := by
    intro done ⟨p, i⟩ hpre
    obtain ⟨rfl, hget⟩ := zipIdx_before hpre
    obtain ⟨s, hs, rfl, hpos, hspec⟩ := hl.slot_at hget
    refine ⟨s, hpos ▸ hs, by rw [hpos], hpos ▸ hspec, ?_⟩
    rw [List.length_append, List.length_singleton, List.take_add_one, hs]
    rfl
  have hall : slots.take params.zipIdx.length = slots :=
    List.take_of_length_le (by simp [hl.length])
  have h0 : Grown h block M ((slots.take ([] : List (Param × Nat)).length).flatMap
      (Slot.symInstrs setup M.dataLayout n symbolize memcpy)) M := by
    simpa [hempty] using Grown.refl h block M
  constructor
  · intro M' hok
    have hstep : ∀ (done : List (Param × Nat)) (a : Param × Nat) (M₁ M₂ : Module),
        done ++ [a] <+: params.zipIdx →
        (SymbolsSized M.dataLayout (slots.take done.length) ∧ Grown h block M
          ((slots.take done.length).flatMap
            (Slot.symInstrs setup M.dataLayout n symbolize memcpy)) M₁) →
        createSymbolicDeclaration h block (slots.map (Slot.value1 setup M.dataLayout))
          (slots.map (Slot.value2 setup M.dataLayout)) symbolize memcpy n specs M₁ a = .ok M₂ →
        SymbolsSized M.dataLayout (slots.take (done ++ [a]).length) ∧ Grown h block M
          ((slots.take (done ++ [a]).length).flatMap
            (Slot.symInstrs setup M.dataLayout n symbolize memcpy)) M₂ := by
      intro done a M₁ M₂ hpre ⟨hsz, hg⟩ hok
      obtain ⟨s, hs, rfl, hspec, htake⟩ := hslot done a hpre
      have hsize := createSymbolicDeclaration_sized (hgrown hg) hspec (hval _ s hs) hok
      obtain ⟨M₃, hok', hg'⟩ := createSymbolicDeclaration_step setup n symbolize memcpy hb hg
        (hgrown hg) hspec (hval _ s hs) (hval _ s hs) hsize
      rw [hok] at hok'
      cases hok'
      rw [htake]
      refine ⟨fun e he => ?_, by simpa using hg'⟩
      rcases List.mem_append.1 he with he | he
      · exact hsz e he
      · rw [List.mem_singleton.1 he]
        exact hsize
    have := Except.foldlM_ok ⟨fun s hs => by simp at hs, h0⟩ hstep hok
    rwa [hall] at this
  · intro hsized
    obtain ⟨M', hok, -⟩ := Except.foldlM_progress (P := fun done M' => Grown h block M
      ((slots.take done.length).flatMap (Slot.symInstrs setup M.dataLayout n symbolize memcpy)) M')
      h0 (fun done a M₁ hpre hg => by
        obtain ⟨s, hs, rfl, hspec, htake⟩ := hslot done a hpre
        obtain ⟨M₂, hok, hg'⟩ := createSymbolicDeclaration_step setup n symbolize memcpy hb hg
          (hgrown hg) hspec (hval _ s hs) (hval _ s hs)
          (hsized s (List.mem_of_getElem? hs))
        refine ⟨M₂, hok, ?_⟩
        rw [htake]
        simpa using hg')
    exact ⟨M', hok⟩

/-- What `createSymbolicDeclarations` leaves. -/
structure SymbolicBuilt (h setup block : Nat) (n : IterationsNumTy) (slots : List Slot)
    (M M' : Module) (symbolize memcpy : FuncRef) : Prop where
  sized : SymbolsSized M.dataLayout slots
  symbolize_declared : Declared M' symbolize "klee_make_symbolic" kleeType
  memcpy_declared : Declared M' memcpy "memcpy" memcpyType
  grown : Grown h block M
    (slots.flatMap (Slot.symInstrs setup M.dataLayout n symbolize memcpy)) M'

theorem createSymbolicDeclarations_of_ok (setup : Nat) {M M' : Module}
    (hb : block < (M.blocks h).length)
    (hempty : M.instrs h block = []) (hl : IsLayout params specs slots)
    (hok : createSymbolicDeclarations M h block params
      (slots.map (Slot.value1 setup M.dataLayout)) (slots.map (Slot.value2 setup M.dataLayout))
      n specs = .ok M') :
    ∃ symbolize memcpy, SymbolicBuilt h setup block n slots M M' symbolize memcpy := by
  have hh := Module.lt_of_blocks hb
  unfold createSymbolicDeclarations at hok
  split at hok
  · cases hok
  simp only [Except.bind_eq_ok, Prod.exists] at hok
  obtain ⟨M₁, symbolize, h1, M₂, memcpy, h2, hfold⟩ := hok
  have c1 : LibCast h M M₁ symbolize ("klee_make_symbolic", kleeType) :=
    libCast_of_ok hh (by decide) h1
  have c2 : LibCast h M₁ M₂ memcpy ("memcpy", memcpyType) :=
    libCast_of_ok (c1.builds.lt hh) (by decide) h2
  have hdl : M₂.dataLayout = M.dataLayout := (c1.builds.trans hh c2.builds).ext.dataLayout
  have hbl : M₂.blocks = M.blocks := c2.blocks.trans c1.blocks
  have hin : M₂.instrs = M.instrs := c2.instrs.trans c1.instrs
  rw [← hdl] at hfold
  obtain ⟨hsized, hg⟩ := (symbolicFold setup n symbolize memcpy (by rw [hbl]; exact hb)
    (by rw [hin]; exact hempty) hl).1
    M' hfold
  rw [hdl] at hsized hg
  refine ⟨symbolize, memcpy, hsized, (c1.declared.builds c2.builds).builds hg.builds,
    c2.declared.builds hg.builds, ?_⟩
  exact ⟨(c1.builds.trans hh c2.builds).trans hh hg.builds, by rw [hg.length, hbl],
    by rw [hg.code, hin]⟩

theorem createSymbolicDeclarations_progress (setup : Nat) (n : IterationsNumTy) {M : Module}
    (hb : block < (M.blocks h).length)
    (hempty : M.instrs h block = []) (hl : IsLayout params specs slots) (hne : slots ≠ [])
    (hk : Declares M "klee_make_symbolic" kleeType) (hm : Declares M "memcpy" memcpyType)
    (hsized : SymbolsSized M.dataLayout slots) :
    ∃ M', createSymbolicDeclarations M h block params
      (slots.map (Slot.value1 setup M.dataLayout)) (slots.map (Slot.value2 setup M.dataLayout))
      n specs = .ok M' := by
  have hh := Module.lt_of_blocks hb
  obtain ⟨⟨M₁, symbolize⟩, h1⟩ := libCast_progress (d := ("klee_make_symbolic", kleeType)) hk
  have c1 : LibCast h M M₁ symbolize ("klee_make_symbolic", kleeType) :=
    libCast_of_ok hh (by decide) h1
  obtain ⟨⟨M₂, memcpy⟩, h2⟩ := libCast_progress (d := ("memcpy", memcpyType))
    ((c1.builds.libs ("memcpy", memcpyType) (by decide)).2 hm)
  have c2 : LibCast h M₁ M₂ memcpy ("memcpy", memcpyType) :=
    libCast_of_ok (c1.builds.lt hh) (by decide) h2
  have hdl : M₂.dataLayout = M.dataLayout := (c1.builds.trans hh c2.builds).ext.dataLayout
  obtain ⟨M₃, h3⟩ := (symbolicFold setup n symbolize memcpy (M := M₂)
    (by rw [c2.blocks, c1.blocks]; exact hb)
    (by rw [c2.instrs, c1.instrs]; exact hempty) hl).2 (hdl ▸ hsized)
  rw [hdl] at h3
  unfold createSymbolicDeclarations
  rw [if_neg (by simp [hne])]
  exact Except.exists_bind_ok h1 (Except.exists_bind_ok h2 ⟨M₃, h3⟩)

end

end Ephippion
