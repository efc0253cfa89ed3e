import Ephippion.Theorems.Accounting
import Ephippion.Theorems.WorkList

/-!
# Two directories

A run over two directories is a run over the one and then a run over the other
(`run_append`), if no report of the second directory is on a harness that the first one asks for:
the second run has these harnesses on its work list, where the one run never sees them. Otherwise
all the second run finds is what the first one did (`Kept.works_iff`).
-/

namespace Ephippion

open SymbolicEncapsulation

/-- No report of these entries is on a harness that is asked for. -/
def OnNoHarness (opts : Options) (parse : String → Option Json) (M : Module) (rs : List Request)
    (entries : List DirEntry) : Prop :=
  ∀ e ∈ entries, e.isReport opts → ∀ text o x, e.text = some text →
    parse text = some (.object o) → JsonObject.getString o "func" = some x →
      ∀ r ∈ rs, r.harness {} M ≠ some x

section
variable {opts : Options} {parse : String → Option Json} {M M' : Module} {n : IterationsNumTy}
  {rs : List Request} {x : String} {F : Nat} {f : Function} {ref : FuncRef}

/-! ## The work list of the second run -/

theorem mayEncapsulate_kept (hk : Kept {} M M') (hm : MayEncapsulate opts M F f) :
    ∃ f', MayEncapsulate opts M' F f' := by
  obtain ⟨hf, hdef, hlist⟩ := hm
  obtain ⟨f', hf', hdef', hname, -⟩ := hk.later.defined hf hdef
  exact ⟨f', hf', hdef', hname ▸ hlist⟩

theorem blocksOf_eq_zero_iff (hf : M.functions[ref.index]? = some f)
    (hr : M.getFunction x = some ref) : blocksOf M x = 0 ↔ f.isDeclaration = true := by
  rw [blocksOf, hr]
  dsimp only
  rw [Module.blocks, hf, Function.isDeclaration, List.isEmpty_iff]
  exact List.length_eq_zero_iff

/-- But for the harnesses that were asked for, the functions on the work list are the same ones. -/
theorem Kept.works_iff (hk : Kept {} M M') (hall : AllDefined M rs)
    (hok : encapsulateAll {} n M rs = .ok M') (hx : ∀ r ∈ rs, r.harness {} M ≠ some x) :
    M'.getFunction x = some ref ∧ ref.index ∈ workList opts M' ↔
      M.getFunction x = some ref ∧ ref.index ∈ workList opts M := by
  constructor
  · rintro ⟨hr, hmem⟩
    obtain ⟨f', hf', hdef', hlist⟩ := mem_workList_iff.1 hmem
    have hne : x ≠ "" := by
      rintro rfl
      rw [getFunction_eq_some, Module.getNamedValue_eq, if_pos rfl] at hr
      cases hr
    -- it has blocks, and no request has added any
    have hblocks : blocksOf M' x = blocksOf M x := by
      rw [encapsulateAll_blocks hall hne hok, addedBlocks, List.filter_eq_nil_iff.2]
      · rfl
      · intro r hr
        simpa using hx r hr
    have hpos : blocksOf M x ≠ 0 := by
      rw [← hblocks, ne_eq, blocksOf_eq_zero_iff hf' hr, hdef']
      decide
    obtain ⟨ref₀, hr₀⟩ : ∃ ref₀, M.getFunction x = some ref₀ := by
      cases hM : M.getFunction x with
      | none => exact (hpos (by rw [blocksOf, hM])).elim
      | some ref₀ => exact ⟨ref₀, rfl⟩
    have hr' := getFunction_eq_some.2 (hk.names x _ (getFunction_eq_some.1 hr₀))
    obtain rfl : ref = ref₀ := Option.some.inj (hr.symm.trans hr')
    refine ⟨hr₀, ?_⟩
    have hs := sig_of_getFunction hr₀
    rw [Module.sig, List.getElem?_map, Option.map_eq_some_iff] at hs
    obtain ⟨f, hf, hfs⟩ := hs
    have hdef : f.isDeclaration = false := by
      rw [ne_eq, blocksOf_eq_zero_iff hf hr₀] at hpos
      simpa using hpos
    have hname : f'.name = f.name := by
      have hs' := sig_of_getFunction hr
      rw [sig_of_functions hf', Option.some.injEq] at hs'
      exact (congrArg Prod.fst hs').trans (congrArg Prod.fst hfs).symm
    exact mem_workList_iff.2 ⟨f, hf, hdef, hname ▸ hlist⟩
  · rintro ⟨hr, hmem⟩
    obtain ⟨f, hm⟩ := mem_workList_iff.1 hmem
    exact ⟨getFunction_eq_some.2 (hk.names x _ (getFunction_eq_some.1 hr)),
      mem_workList_iff.2 (mayEncapsulate_kept hk hm)⟩

theorem Kept.readReport_eq (hk : Kept {} M M') (hall : AllDefined M rs)
    (hok : encapsulateAll {} n M rs = .ok M') {entries : List DirEntry}
    (hno : OnNoHarness opts parse M rs entries) {e : DirEntry} (he : e ∈ entries)
    (unset : Nat → ArgDirection × Bool) :
    readReport opts parse unset (workList opts M') M' e =
      readReport opts parse unset (workList opts M) M e := by
  cases hr : e.isReport opts with
  | false => rw [readReport_skip (.inl hr), readReport_skip (.inl hr)]
  | true =>
    cases ht : e.text with
    | none => rw [readReport_skip (.inr ht), readReport_skip (.inr ht)]
    | some text =>
      rw [readReport_of_text hr ht, readReport_of_text hr ht]
      cases hp : parse text with
      | none => rfl
      | some v =>
        dsimp only
        by_cases hv : ∃ o x, v = .object o ∧ JsonObject.getString o "func" = some x
        · obtain ⟨o, x, rfl, hx⟩ := hv
          have hiff : ∀ ref : FuncRef, M'.getFunction x = some ref ∧
              ref.index ∈ workList opts M' ↔ M.getFunction x = some ref ∧
                ref.index ∈ workList opts M :=
            fun ref => hk.works_iff hall hok (hno e he hr text o x ht hp hx)
          by_cases hF : ∃ ref, M.getFunction x = some ref ∧ ref.index ∈ workList opts M
          · obtain ⟨ref, h1, h2⟩ := hF
            obtain ⟨h1', h2'⟩ := (hiff ref).2 ⟨h1, h2⟩
            rw [decodeReport_works hx h1 h2, decodeReport_works hx h1' h2']
          · rw [decodeReport_other hx fun ref h1 h2 => hF ⟨ref, h1, h2⟩,
              decodeReport_other hx fun ref h1 h2 => hF ⟨ref, (hiff ref).1 ⟨h1, h2⟩⟩]
        · rw [decodeReport_malformed fun o x h1 h2 => hv ⟨o, x, h1, h2⟩,
            decodeReport_malformed fun o x h1 h2 => hv ⟨o, x, h1, h2⟩]

end

/-! ## The two runs -/

section
variable {opts : Options} {parse : String → Option Json} {unset : Unset}
  {entries entries' : List DirEntry} {M M' : Module} {n : IterationsNumTy}

theorem plan_append : plan opts parse unset (some (entries ++ entries')) M =
    plan opts parse unset (some entries) M ++
      plan opts parse (fun k => unset (k + entries.length)) (some entries') M := by
  unfold plan
  split
  · rfl
  · have hshift : entries'.zipIdx entries.length =
        entries'.zipIdx.map (Prod.map id (· + entries.length)) :=
      (List.map_snd_add_zipIdx_eq_zipIdx (n := entries.length) (k := 0)).symm
    dsimp only
    rw [List.zipIdx_append, List.map_append, Nat.zero_add, hshift, List.map_map]
    rfl

theorem Kept.plan_eq (hk : Kept {} M M') {rs : List Request} (hall : AllDefined M rs)
    (hok : encapsulateAll {} n M rs = .ok M')
    (hnone : workList opts M = [] → rs = []) (hno : OnNoHarness opts parse M rs entries) :
    plan opts parse unset (some entries) M' = plan opts parse unset (some entries) M := by
  have hempty : (workList opts M').isEmpty = (workList opts M).isEmpty := by
    rw [Bool.eq_iff_iff, List.isEmpty_iff, List.isEmpty_iff]
    constructor
    · intro h
      rw [List.eq_nil_iff_forall_not_mem] at h ⊢
      intro F hF
      obtain ⟨f, hm⟩ := mem_workList_iff.1 hF
      exact h F (mem_workList_iff.2 (mayEncapsulate_kept hk hm))
    · intro h
      rw [hnone h] at hok
      cases hok
      exact h
  unfold plan
  rw [hempty]
  split
  · rfl
  · apply List.map_congr_left
    intro e he
    exact hk.readReport_eq hall hok hno (List.fst_mem_of_mem_zipIdx he) _

/-- That something was generated before is only remembered. -/
theorem foldlM_perform_changed {actions : List (Except PassStop ReportAction)} :
    ∀ (M : Module) (changed : Bool), actions.foldlM (perform n) (M, changed) =
      (actions.foldlM (perform n) (M, false)).map fun s => (s.1, changed || s.2) := by
  induction actions with
  | nil =>
    intro M changed
    rw [List.foldlM_nil, List.foldlM_nil, Except.pure_eq, Except.pure_eq, Except.map,
      Bool.or_false]
  | cons a actions ih =>
    intro M changed
    rw [List.foldlM_cons, List.foldlM_cons]
    cases a with
    | error stop => rfl
    | ok action =>
      cases action with
      | skip => exact ih M changed
      | encapsulate F argSpecs =>
        simp only [perform, Except.ok_bind_eq]
        cases SymbolicEncapsulation.encapsulate {} M F n argSpecs with
        | error stop => rfl
        | ok p =>
          dsimp only [Except.pure_eq, Except.ok_bind_eq]
          rw [ih p.1 (changed || p.2), ih p.1 (false || p.2)]
          cases List.foldlM (perform n) (p.1, false) actions with
          | error stop => rfl
          | ok s => simp [Except.map, Bool.or_assoc]

/-- A run over two directories is a run over the second one after a run over the first one. -/
theorem run_append (hno : OnNoHarness opts parse M
      (requests (plan opts parse unset (some entries) M)) entries') :
    SymbolicEncapsulationPass.run opts parse unset (some (entries ++ entries')) M = do
      let s ← SymbolicEncapsulationPass.run opts parse unset (some entries) M
      let s' ← SymbolicEncapsulationPass.run opts parse (fun k => unset (k + entries.length))
        (some entries') s.1
      return (s'.1, s.2 || s'.2) := by
  rw [run_plan, plan_append, List.foldlM_append, ← run_plan]
  apply Except.bind_congr_ok
  intro s hs
  obtain ⟨M', changed⟩ := s
  have hok := run_requests hs
  rw [run_plan, (run_kept hs).plan_eq plan_defined hok ?_ hno, foldlM_perform_changed]
  · cases List.foldlM (perform opts.iterationsNum) (M', false) _ <;> rfl
  · intro hw
    unfold plan
    rw [hw]
    rfl

end

/-- Two reports on one function, the second one in a directory of its own. -/
theorem run_append_twoReports :
    SymbolicEncapsulationPass.run reportOptions parseReport (fun _ _ => (.inbound, false))
      (some ([⟨"lpc.1.json", true, some "a"⟩] ++ [⟨"lpc.2.json", true, some "b"⟩]))
      (bufferModule .int8Ty) = do
        let s ← SymbolicEncapsulationPass.run reportOptions parseReport
          (fun _ _ => (.inbound, false)) (some [⟨"lpc.1.json", true, some "a"⟩])
          (bufferModule .int8Ty)
        let s' ← SymbolicEncapsulationPass.run reportOptions parseReport
          (fun _ _ => (.inbound, false)) (some [⟨"lpc.2.json", true, some "b"⟩]) s.1
        return (s'.1, s.2 || s'.2) := by
  refine run_append fun e he _ text o x ht hp hx r _ hr => ?_
  obtain rfl := List.mem_singleton.1 he
  cases ht
  cases hp
  cases hx
  obtain ⟨f, -, hname⟩ := Option.map_eq_some_iff.1 hr
  have hhead : (harnessName {} f).toList.head? = some 's' := by
    rw [harnessName, String.toList_append]
    rfl
  rw [hname] at hhead
  exact absurd hhead (by decide)

end Ephippion
