import Ephippion.Proof.Encapsulate

/-!
# The names of the copies

Frame storage is asked for under its parameter's name, and gets it unless another value of the
harness has it already (`NamesKept`): the blocks' names and those of the copies before are all that
is taken then (`SetUpWith.namesKept`).
-/

namespace Ephippion

theorem mem_modify {α : Type} {l : List α} {i : Nat} {f : α → α} {b : α} (h : b ∈ l.modify i f) :
    b ∈ l ∨ ∃ a ∈ l, b = f a := by
  obtain ⟨j, hj⟩ := List.getElem?_of_mem h
  rw [List.getElem?_modify, Option.map_eq_map, Option.map_eq_some_iff] at hj
  obtain ⟨a, ha, rfl⟩ := hj
  have hmem := List.mem_of_getElem? ha
  by_cases hij : i = j
  · rw [if_pos hij]
    exact .inr ⟨a, hmem, rfl⟩
  · rw [if_neg hij]
    exact .inl hmem

theorem InsertPoint.mem_insert {ip : InsertPoint} {i j : Instr} {is : List Instr}
    (h : j ∈ ip.insert i is) : j = i ∨ j ∈ is := by
  cases ip with
  | atEnd b => simpa [InsertPoint.insert, or_comm] using h
  | beforeTerm b =>
    simp only [InsertPoint.insert, List.mem_append, List.mem_cons, Option.mem_toList] at h
    rcases h with h | h | h
    · exact .inr (List.dropLast_subset _ h)
    · exact .inl h
    · exact .inr (List.mem_of_getLast? h)

namespace Module

/-- The names in the symbol table of function `h`. -/
def valueNames (M : Module) (h : Nat) : List String :=
  (M.functions[h]?.map (·.valueNames)).getD []

theorem uniqueName_of_not_mem {M : Module} {h : Nat} {name : String}
    (hfree : name ∉ M.valueNames h) : M.uniqueName h name = name := by
  unfold uniqueName
  split
  · rename_i hempty
    exact hempty.symm
  · exact M.context.of_not_mem _ name hfree

theorem mem_valueNames {f : Function} {x : String} : x ∈ f.valueNames ↔
    (∃ p ∈ f.params, p.name = x) ∨ ∃ b ∈ f.blocks, b.name = x ∨ ∃ i ∈ b.instrs, i.name = x := by
  simp [Function.valueNames, eq_comm]

/-- The names a change of the blocks may add. -/
theorem mem_valueNames_modifyBlocks {M : Module} {h : Nat} {g : List BasicBlock → List BasicBlock}
    {x y : String} (hg : ∀ bs, ∀ b ∈ g bs, (b.name = x ∨ ∃ i ∈ b.instrs, i.name = x) →
      x = y ∨ ∃ b' ∈ bs, b'.name = x ∨ ∃ i ∈ b'.instrs, i.name = x)
    (hx : x ∈ (M.modifyBlocks h g).valueNames h) : x ∈ M.valueNames h ∨ x = y := by
  unfold valueNames at hx ⊢
  cases hf : M.functions[h]? with
  | none => simp [modifyBlocks, hf] at hx
  | some f =>
    simp only [modifyBlocks, List.getElem?_modify_eq, hf, Option.map_eq_map, Option.map_some,
      Option.getD_some, mem_valueNames] at hx ⊢
    rcases hx with hp | ⟨b, hb, hx⟩
    · exact .inl (.inl hp)
    · rcases hg f.blocks b hb hx with hy | hold
      · exact .inr hy
      · exact .inl (.inr hold)

theorem mem_valueNames_insert {M : Module} {h : Nat} {ip : InsertPoint} {op : Op} {name x : String}
    (hx : x ∈ (M.insert h ip op name).1.valueNames h) :
    x ∈ M.valueNames h ∨ x = M.uniqueName h name := by
  refine mem_valueNames_modifyBlocks (fun bs b hb hx => ?_) hx
  rcases mem_modify hb with hb | ⟨b', hb', rfl⟩
  · exact .inr ⟨b, hb, hx⟩
  · rcases hx with hx | ⟨i, hi, rfl⟩
    · exact .inr ⟨b', hb', .inl hx⟩
    · rcases InsertPoint.mem_insert hi with rfl | hi
      · exact .inl rfl
      · exact .inr ⟨b', hb', .inr ⟨i, hi, rfl⟩⟩

theorem mem_valueNames_createBlock {M : Module} {h : Nat} {name x : String}
    (hx : x ∈ (M.createBlock h name).1.valueNames h) :
    x ∈ M.valueNames h ∨ x = M.uniqueName h name := by
  refine mem_valueNames_modifyBlocks (fun bs b hb hx => ?_) hx
  rcases List.mem_append.1 hb with hb | hb
  · exact .inr ⟨b, hb, hx⟩
  · rw [List.mem_singleton.1 hb] at hx
    rcases hx with rfl | ⟨i, hi, -⟩
    · exact .inl rfl
    · cases hi

end Module

theorem mem_valueNames_withBlocks {h : Nat} : ∀ (names : List String) {M : Module}
    {taken : List String}, (∀ x ∈ M.valueNames h, x ∈ taken) → (taken ++ names).Nodup →
      ∀ x ∈ (withBlocks M h names).valueNames h, x ∈ taken ++ names
  | [], M, taken, hM, _, x, hx => by simpa using hM x hx
  | name :: names, M, taken, hM, hnodup, x, hx => by
    have hsplit : taken ++ name :: names = (taken ++ [name]) ++ names := by simp
    rw [hsplit] at hnodup ⊢
    refine mem_valueNames_withBlocks names (fun y hy => ?_) hnodup x hx
    have hfree : name ∉ M.valueNames h := fun hmem =>
      (List.nodup_append.1 (List.nodup_append.1 hnodup).1).2.2 name (hM name hmem) name
        List.mem_cons_self rfl
    rcases Module.mem_valueNames_createBlock hy with hy | rfl
    · exact List.mem_append_left _ (hM y hy)
    · rw [Module.uniqueName_of_not_mem hfree]
      simp

/-! ## The setup -/

section
variable {h setup : Nat} {n : IterationsNumTy} {malloc : FuncRef} {specs : List ArgSpec}
  {M₀ : Module}

/-- The name a copy of a parameter is asked for under. -/
def Param.copyName (p : Param) : String := if p.type.isPointerTy then "" else p.name

theorem setupHarnessArg_inserts {s s' : ArgSetup} {arg : Param × Nat}
    (hok : setupHarnessArg h specs setup malloc n s arg = .ok s') :
    ∃ op r1, r1 = s.mod.insert h (.atEnd setup) op arg.1.copyName ∧
      s'.callArgs1 = s.callArgs1 ++ [r1.2] ∧
      (s'.mod = r1.1 ∧ s'.callArgs2 = s.callArgs2 ++ [r1.2] ∨
        ∃ op r2, r2 = r1.1.insert h (.atEnd setup) op arg.1.copyName ∧ s'.mod = r2.1 ∧
          s'.callArgs2 = s.callArgs2 ++ [r2.2]) := by
  obtain ⟨p, i⟩ := arg
  simp only [setupHarnessArg] at hok
  generalize isOutbound _ = out at hok
  cases hp : p.type.isPointerTy with
  | false =>
    simp only [Param.copyName, hp, Bool.not_false, ite_true, Bool.false_eq_true, ite_false] at hok ⊢
    refine ⟨.alloca p.type s.mod.dataLayout.getAllocaAddrSpace, _, rfl, ?_⟩
    cases out with
    | false =>
      cases hok
      exact ⟨rfl, .inl ⟨rfl, rfl⟩⟩
    | true =>
      cases hok
      exact ⟨rfl, .inr ⟨_, _, rfl, rfl, rfl⟩⟩
  | true =>
    simp only [Param.copyName, hp, Bool.not_true, Bool.false_eq_true, ite_false, ite_true,
      Except.bind_eq_ok] at hok ⊢
    obtain ⟨size, -, spec, -, hok⟩ := hok
    refine ⟨.call malloc [createMul (multiplier spec n) size], _, rfl, ?_⟩
    cases out with
    | false =>
      cases hok
      exact ⟨rfl, .inl ⟨rfl, rfl⟩⟩
    | true =>
      cases hok
      exact ⟨rfl, .inr ⟨_, _, rfl, rfl, rfl⟩⟩

/-- After the parameters `done`: the names that are taken, and which copies are named as their
parameters. -/
structure NamesDone (h : Nat) (M₀ : Module) (done : List Param) (s : ArgSetup) : Prop where
  length1 : s.callArgs1.length = done.length
  length2 : s.callArgs2.length = done.length
  taken : ∀ x ∈ s.mod.valueNames h,
    x ∈ M₀.valueNames h ∨ ∃ v ∈ s.callArgs1 ++ s.callArgs2, v.getName = x
  kept : ∀ i p v, done[i]? = some p → s.callArgs1[i]? = some v → p.copyName ∉ M₀.valueNames h →
    (∀ w ∈ s.callArgs1.take i ++ s.callArgs2.take i, w.getName ≠ p.copyName) →
      v.getName = p.copyName

theorem NamesDone.step {done : List Param} {s s' : ArgSetup} {arg : Param × Nat}
    (hs : NamesDone h M₀ done s) (hok : setupHarnessArg h specs setup malloc n s arg = .ok s') :
    NamesDone h M₀ (done ++ [arg.1]) s' := by
  obtain ⟨op, r1, hr1, h1, h2⟩ := setupHarnessArg_inserts hok
  have hname1 : r1.2.getName = s.mod.uniqueName h arg.1.copyName := by rw [hr1]; rfl
  -- the second copy's value is the first one's, or adds a name of its own
  obtain ⟨v2, hv2, hmod⟩ : ∃ v2, s'.callArgs2 = s.callArgs2 ++ [v2] ∧
      ∀ x ∈ s'.mod.valueNames h, x ∈ s.mod.valueNames h ∨ x = r1.2.getName ∨ x = v2.getName := by
    rcases h2 with ⟨hm, hv⟩ | ⟨op', r2, hr2, hm, hv⟩
    · refine ⟨r1.2, hv, fun x hx => ?_⟩
      rw [hm, hr1] at hx
      exact (Module.mem_valueNames_insert hx).imp_right fun hx => .inl (hx.trans hname1.symm)
    · refine ⟨r2.2, hv, fun x hx => ?_⟩
      rw [hm, hr2] at hx
      rcases Module.mem_valueNames_insert hx with hx | hx
      · rw [hr1] at hx
        exact (Module.mem_valueNames_insert hx).imp_right fun hx => .inl (hx.trans hname1.symm)
      · refine .inr (.inr (hx.trans ?_))
        rw [hr2]
        rfl
  refine ⟨by simp [h1, hs.length1], by simp [hv2, hs.length2], fun x hx => ?_,
    fun i p v hp hv hfree hbefore => ?_⟩
  · rw [h1, hv2]
    rcases hmod x hx with hx | rfl | rfl
    · rcases hs.taken x hx with hx | ⟨v, hv, hvx⟩
      · exact .inl hx
      · refine .inr ⟨v, ?_, hvx⟩
        rcases List.mem_append.1 hv with hv | hv <;> simp [hv]
    · exact .inr ⟨r1.2, by simp, rfl⟩
    · exact .inr ⟨v2, by simp, rfl⟩
  · rw [h1] at hv hbefore
    rw [hv2] at hbefore
    rcases Nat.lt_trichotomy i done.length with hi | rfl | hi
    · rw [List.getElem?_append_left hi] at hp
      rw [List.getElem?_append_left (by rw [hs.length1]; exact hi)] at hv
      refine hs.kept i p v hp hv hfree fun w hw => hbefore w ?_
      rwa [List.take_append_of_le_length (by rw [hs.length1]; omega),
        List.take_append_of_le_length (by rw [hs.length2]; omega)]
    · rw [List.getElem?_concat_length, Option.some.injEq] at hp
      rw [← hs.length1, List.getElem?_concat_length, Option.some.injEq] at hv
      subst hp hv
      rw [hname1]
      refine Module.uniqueName_of_not_mem fun hmem => ?_
      rcases hs.taken _ hmem with hmem | ⟨w, hw, hwx⟩
      · exact hfree hmem
      · refine hbefore w ?_ hwx
        rw [← hs.length1, List.take_left, hs.length1, ← hs.length2, List.take_left]
        exact hw
    · rw [List.getElem?_eq_none (by simp; omega)] at hp
      cases hp

theorem setupFold_names {params : List Param} {s : ArgSetup}
    (hok : params.zipIdx.foldlM (setupHarnessArg h specs setup malloc n) ⟨M₀, [], [], []⟩ = .ok s) :
    NamesDone h M₀ params s := by
  have h0 : NamesDone h M₀ ([] : List Param) ⟨M₀, [], [], []⟩ :=
    ⟨rfl, rfl, fun x hx => .inl hx, fun i p v hp => by cases hp⟩
  have := Except.foldlM_ok (P := fun done s => NamesDone h M₀ (done.map (·.1)) s) h0
    (fun done arg s s' _ hs hok => by simpa using hs.step hok) hok
  simpa using this

end

/-- The first copy of a parameter has the parameter's name, if it has one and the name is none of
those that are taken already: `taken` and the names of the copies before. -/
def NamesKept (taken : List String) (slots : List Slot) : Prop :=
  ∀ (i : Nat) (s : Slot), slots[i]? = some s → s.param.copyName ∉ taken →
    (∀ s' ∈ slots.take i, s'.name1 ≠ s.param.copyName ∧
      (s'.outbound → s'.name2 ≠ s.param.copyName)) → s.name1 = s.param.copyName

theorem LibCast.valueNames {h : Nat} {M M' : Module} {ref : FuncRef} {d : String × FunctionType}
    (c : LibCast h M M' ref d) (hh : h < M.functions.length) :
    M'.valueNames h = M.valueNames h := by
  obtain ⟨bs, hbs⟩ := c.builds.ext.self _ (List.getElem?_eq_getElem hh)
  have hblocks : M'.blocks h = M.blocks h := congrFun c.blocks h
  rw [Module.blocks, Module.blocks, hbs, List.getElem?_eq_getElem hh] at hblocks
  obtain rfl : bs = M.functions[h].blocks := hblocks
  rw [Module.valueNames, Module.valueNames, hbs, List.getElem?_eq_getElem hh]

/-- In a new harness only the names of the blocks are taken. -/
theorem SetUpWith.namesKept {senc : SymbolicEncapsulation} {M : Module} {f : Function}
    {n : IterationsNumTy} {specs : List ArgSpec} {h : Nat} {H : Harness}
    (hs : SetUpWith senc M f n specs h H) (hparams : f.params ≠ [])
    (hlayout : IsLayout f.params (padSpecs specs f.params.length) H.slots)
    (hfree : M.getNamedValue (senc.harnessName f) = none) : NamesKept blockNames H.slots := by
  obtain ⟨M₁, M₂, ref, hd, rfl, hok⟩ := hs
  cases (declareFunc_free hfree).symm.trans hd
  have hh : M.functions.length < (M.appendFunction ⟨senc.harnessName f, .int32Ty, [], false, []⟩
      hfree).functions.length := by simp [Module.appendFunction]
  have hhW := (withBlocks_spec blockNames hh).1.lt hh
  simp only [setupHarnessArgs, List.isEmpty_eq_false_iff.2 hparams, Bool.false_eq_true, ite_false,
    Except.bind_eq_ok, Prod.exists] at hok
  obtain ⟨M₃, malloc, hmalloc, M₄, free, hfreeFunc, s, hfold, hok⟩ := hok
  have c1 : LibCast _ _ M₃ malloc ("malloc", mallocType) := libCast_of_ok hhW (by decide) hmalloc
  have c2 : LibCast _ M₃ M₄ free ("free", freeType) :=
    libCast_of_ok (c1.builds.lt hhW) (by decide) hfreeFunc
  simp only [Except.pure_eq, Except.ok.injEq, Prod.mk.injEq] at hok
  obtain ⟨-, h1, h2⟩ := hok
  have hnames := setupFold_names hfold
  have htaken : ∀ x ∈ M₄.valueNames M.functions.length, x ∈ blockNames := by
    intro x hx
    rw [c2.valueNames (c1.builds.lt hhW), c1.valueNames hhW] at hx
    show x ∈ [] ++ blockNames
    refine mem_valueNames_withBlocks blockNames (fun y hy => ?_) (by decide) x hx
    simp [Module.valueNames, Module.appendFunction, Function.valueNames] at hy
  intro i slot hslot hnot hbefore
  have hp : f.params[i]? = some slot.param := by
    rw [← hlayout.params_eq, List.getElem?_map, hslot]
    rfl
  have hv : s.callArgs1[i]? = some (slot.value1 H.base H.dl) := by
    rw [h1, List.getElem?_map, hslot]
    rfl
  refine hnames.kept i slot.param _ hp hv (fun hx => hnot (htaken _ hx)) fun w hw => ?_
  rw [h1, h2, ← List.map_take, ← List.map_take] at hw
  rcases List.mem_append.1 hw with hw | hw
  · obtain ⟨s', hs', rfl⟩ := List.mem_map.1 hw
    exact (hbefore s' hs').1
  · obtain ⟨s', hs', rfl⟩ := List.mem_map.1 hw
    unfold Slot.value2
    split
    · rename_i hout
      exact (hbefore s' hs').2 hout
    · exact (hbefore s' hs').1

end Ephippion
