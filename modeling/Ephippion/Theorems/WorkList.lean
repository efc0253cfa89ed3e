import Ephippion.Theorems.ChangeReport
import Mathlib.Data.List.Perm.Subperm

/-!
# The work list

The list of the functions to be encapsulated is made before the first report is read, the names in
the reports are looked up in the module as it is then: still every function a run encapsulates was
defined before the run and is on the white list, if there is one, and what is new in the module are
library declarations and at most one harness for each of these functions (`workList_kept`).
-/

namespace Ephippion

open SymbolicEncapsulation

/-- `f`, the function at `F`, is defined and, if there is a white list, on it. -/
def MayEncapsulate (opts : Options) (M : Module) (F : Nat) (f : Function) : Prop :=
  M.functions[F]? = some f ∧ f.isDeclaration = false ∧
    ∀ names, opts.functionWhiteList = some names → f.name ∈ names

/-- What the loop has made of `M` after the entries `done` of the directory; the run may stop
later. -/
def LoopReaches (opts : Options) (parse : String → Option Json) (unset : Unset) (M : Module)
    (done : List (DirEntry × Nat)) (N : Module) : Prop :=
  ∃ changed, done.foldlM (reportStep {} opts parse unset (workList opts M)) (M, false) =
    .ok (N, changed)

/-- The module is `N` at some point of the run on `M`. -/
def RunReaches (opts : Options) (parse : String → Option Json) (unset : Unset)
    (dir : Option (List DirEntry)) (M N : Module) : Prop :=
  N = M ∨ ∃ entries done rest, dir = some entries ∧ opts.reportsDir ≠ "" ∧
    entries.zipIdx = done ++ rest ∧ LoopReaches opts parse unset M done N

/-- At some point of the run on `M`, when the module is `N`, the function at `F` is passed to
`encapsulate`. -/
def RunPasses (opts : Options) (parse : String → Option Json) (unset : Unset)
    (dir : Option (List DirEntry)) (M N : Module) (F : Nat) : Prop :=
  ∃ entries done e rest argSpecs, dir = some entries ∧ opts.reportsDir ≠ "" ∧
    entries.zipIdx = done ++ e :: rest ∧ LoopReaches opts parse unset M done N ∧
    readReport opts parse (unset e.2) (workList opts M) N e.1 = .ok (.encapsulate F argSpecs)

/-- The functions with a body that `N` has and `M` had not. -/
def newHarnesses (M N : Module) : List Function :=
  (N.functions.drop M.functions.length).filter (!·.isDeclaration)

structure WorkListKept (opts : Options) (parse : String → Option Json) (unset : Unset)
    (dir : Option (List DirEntry)) (M : Module) : Prop where
  passed : ∀ N F, RunPasses opts parse unset dir M N F → ∃ f f', MayEncapsulate opts M F f ∧
    N.functions[F]? = some f' ∧ f'.name = f.name ∧ f'.getFunctionType = f.getFunctionType
  new : ∀ N, RunReaches opts parse unset dir M N → ∀ g f', M.functions.length ≤ g →
    N.functions[g]? = some f' → (f'.name, f'.getFunctionType) ∈ libDecls ∧ f'.isDeclaration ∨
      ∃ F f, MayEncapsulate opts M F f ∧ f'.name = harnessName {} f
  once : ∀ N, RunReaches opts parse unset dir M N → ∀ (g g' : Nat) (f₁ f₂ f : Function),
    N.functions[g]? = some f₁ → N.functions[g']? = some f₂ → f₁.name = harnessName {} f →
      f₂.name = harnessName {} f → g = g'
  count : ∀ N, RunReaches opts parse unset dir M N →
    (newHarnesses M N).length ≤ (workList opts M).length
  notOwn : ∀ N, RunReaches opts parse unset dir M N → ∀ (g g' : Nat) (f₁ f₂ : Function),
    M.functions.length ≤ g → M.functions.length ≤ g' → N.functions[g]? = some f₁ →
      N.functions[g']? = some f₂ → f₁.name ≠ harnessName {} f₂
  result : ∀ M' changed, SymbolicEncapsulationPass.run opts parse unset dir M = .ok (M', changed) →
    RunReaches opts parse unset dir M M'

section
variable {opts : Options} {parse : String → Option Json} {unset : Unset}
  {dir : Option (List DirEntry)} {M N N' : Module} {F : Nat}

/-! ## Names -/

theorem harnessName_inj {f f' : Function} (h : harnessName {} f = harnessName {} f') :
    f.name = f'.name :=
  (String.append_right_inj _).1 h

theorem harnessName_not_lib (f : Function) : harnessName {} f ∉ libNames := by
  have hhead : (harnessName {} f).toList.head? = some 's' := by
    rw [harnessName, String.toList_append]
    rfl
  have hlib : ∀ x ∈ libNames, x.toList.head? ≠ some 's' := by decide
  exact fun hmem => hlib _ hmem hhead

theorem sig_of_functions {g : Nat} {f : Function} (hg : N.functions[g]? = some f) :
    N.sig[g]? = some (f.name, f.getFunctionType) := by
  rw [Module.sig, List.getElem?_map, hg]
  rfl

theorem mem_workList_iff : F ∈ workList opts M ↔ ∃ f, MayEncapsulate opts M F f := by
  unfold workList MayEncapsulate
  rw [List.mem_filter, List.mem_range]
  cases hf : M.functions[F]? with
  | none => simp
  | some f =>
    have hlt := (List.getElem?_eq_some_iff.1 hf).1
    cases hw : opts.functionWhiteList with
    | none => simp [hlt]
    | some names => simp [hlt]

/-! ## The loop -/

/-- What generations for the work list have made of `M`. -/
structure Worked (opts : Options) (M N : Module) : Prop where
  later : Later {} M N
  new : ∀ g f', M.functions.length ≤ g → N.functions[g]? = some f' →
    (f'.name, f'.getFunctionType) ∈ libDecls ∧ f'.isDeclaration ∨
      ∃ F f, MayEncapsulate opts M F f ∧ f.name ≠ "" ∧ f'.name = harnessName {} f

theorem Worked.refl (opts : Options) (M : Module) : Worked opts M M := by
  refine ⟨.refl {} M, fun g f' hg hf' => ?_⟩
  rw [List.getElem?_eq_none hg] at hf'
  cases hf'

theorem Worked.encapsulate (hw : Worked opts M N) (hF : F ∈ workList opts M) {f' : Function}
    (hf' : N.functions[F]? = some f') (hne : f'.name ≠ "") {n : IterationsNumTy}
    {specs : List ArgSpec} {changed : Bool}
    (hok : SymbolicEncapsulation.encapsulate {} N F n specs = .ok (N', changed)) :
    Worked opts M N' := by
  obtain ⟨f, hmay⟩ := mem_workList_iff.1 hF
  obtain ⟨f₂, hf₂, hdef, hname, -⟩ := hw.later.defined hmay.1 hmay.2.1
  obtain rfl : f₂ = f' := Option.some.inj (hf₂.symm.trans hf')
  obtain ⟨-, -, h, H, hb⟩ := encapsulate_of_ok hf₂ hdef hok
  refine ⟨hw.later.trans hb.later, fun g f₁ hg hf₁ => ?_⟩
  by_cases hgh : g = h
  · -- the harness of `f`
    subst hgh
    have hs := (sig_of_functions hf₁).symm.trans hb.sig
    have hn : f₁.name = harnessName {} f₂ := congrArg Prod.fst (Option.some.inj hs)
    refine .inr ⟨F, f, hmay, hname ▸ hne, ?_⟩
    rw [hn, harnessName, harnessName, hname]
  · rcases Nat.lt_or_ge g N.functions.length with hlt | hge
    · rw [hb.others g hlt hgh] at hf₁
      exact hw.new g f₁ hg hf₁
    · exact .inl (hb.new g f₁ hge hgh hf₁)

theorem Worked.step {s s' : Module × Bool} {e : DirEntry × Nat} (hw : Worked opts M s.1)
    (hs : reportStep {} opts parse unset (workList opts M) s e = .ok s') :
    Worked opts M s'.1 := by
  cases hr : readReport opts parse (unset e.2) (workList opts M) s.1 e.1 with
  | error stop =>
    unfold reportStep at hs
    rw [hr] at hs
    cases hs
  | ok action =>
    cases action with
    | skip =>
      rw [reportStep_skip hr, Except.ok.injEq] at hs
      subst hs
      exact hw
    | encapsulate F argSpecs =>
      rw [reportStep_encapsulate {} unset hr] at hs
      obtain ⟨hF, f', hf', hne⟩ := readReport_function hr
      cases henc : SymbolicEncapsulation.encapsulate {} s.1 F opts.iterationsNum argSpecs with
      | error stop =>
        rw [henc] at hs
        cases hs
      | ok p =>
        rw [henc, Except.ok.injEq] at hs
        subst hs
        exact hw.encapsulate hF hf' hne henc

theorem LoopReaches.worked {done : List (DirEntry × Nat)}
    (hr : LoopReaches opts parse unset M done N) : Worked opts M N := by
  obtain ⟨changed, hok⟩ := hr
  exact Except.foldlM_ok (P := fun _ (s : Module × Bool) => Worked opts M s.1) (.refl opts M)
    (fun _ _ _ _ _ hw hs => hw.step hs) hok

theorem RunReaches.worked (hr : RunReaches opts parse unset dir M N) : Worked opts M N := by
  rcases hr with rfl | ⟨entries, done, rest, -, -, -, hl⟩
  · exact .refl opts N
  · exact hl.worked

/-! ## What has been made -/

theorem functions_inj {g g' : Nat} {f₁ f₂ : Function} (h₁ : N.functions[g]? = some f₁)
    (h₂ : N.functions[g']? = some f₂) (hname : f₁.name = f₂.name) (hne : f₁.name ≠ "") : g = g' :=
  Module.sig_inj hne (sig_of_functions h₁) (hname ▸ sig_of_functions h₂)

/-- No new function is the harness of a new one. -/
theorem Worked.notOwn (hw : Worked opts M N) {g g' : Nat} {f₁ f₂ : Function}
    (hg : M.functions.length ≤ g) (hg' : M.functions.length ≤ g') (h₁ : N.functions[g]? = some f₁)
    (h₂ : N.functions[g']? = some f₂) : f₁.name ≠ harnessName {} f₂ := by
  intro hname
  rcases hw.new g f₁ hg h₁ with ⟨hlib, -⟩ | ⟨F, f, hmay, hne, hf⟩
  · exact harnessName_not_lib f₂ (hname ▸ List.mem_map_of_mem hlib)
  · have hff : f.name = f₂.name := harnessName_inj (hf.symm.trans hname)
    obtain ⟨f', hf', -, hname', -⟩ := hw.later.defined hmay.1 hmay.2.1
    have hFg : F = g' := functions_inj hf' h₂ (hname'.trans hff) (hname' ▸ hne)
    have hlt := (List.getElem?_eq_some_iff.1 hmay.1).1
    omega

theorem Worked.newHarness (hw : Worked opts M N) {f' : Function} (hf' : f' ∈ newHarnesses M N) :
    ∃ F f, MayEncapsulate opts M F f ∧ f'.name = harnessName {} f := by
  obtain ⟨hmem, hdef⟩ := List.mem_filter.1 hf'
  obtain ⟨i, hi⟩ := List.getElem?_of_mem hmem
  rw [List.getElem?_drop] at hi
  rcases hw.new _ f' (Nat.le_add_right _ i) hi with ⟨-, hdecl⟩ | ⟨F, f, hmay, -, hname⟩
  · simp [hdecl] at hdef
  · exact ⟨F, f, hmay, hname⟩

/-- The new harnesses have different names, and each is that of a function of the work list. -/
theorem Worked.count (hw : Worked opts M N) :
    (newHarnesses M N).length ≤ (workList opts M).length := by
  have hsub : ((newHarnesses M N).map (·.name)).Sublist (N.functions.map (·.name)) :=
    (List.filter_sublist.trans (List.drop_sublist ..)).map _
  have hne : ∀ x ∈ (newHarnesses M N).map (·.name), x ≠ "" := by
    intro x hx
    obtain ⟨f', hf', rfl⟩ := List.mem_map.1 hx
    obtain ⟨F, f, -, hname⟩ := hw.newHarness hf'
    rw [hname]
    exact harnessName_ne_empty f
  have hnodup : ((newHarnesses M N).map (·.name)).Nodup := by
    have hall := (hsub.trans (List.sublist_append_left _ N.otherGlobals)).filter (· ≠ "")
    rw [List.filter_eq_self.2 (by simpa using hne)] at hall
    exact N.unique.sublist hall
  have hsubset : (newHarnesses M N).map (·.name) ⊆ (workList opts M).map fun F =>
      harnessName {} (M.functions[F]?.getD ⟨"", .void, [], false, []⟩) := by
    intro x hx
    obtain ⟨f', hf', rfl⟩ := List.mem_map.1 hx
    obtain ⟨F, f, hmay, hname⟩ := hw.newHarness hf'
    refine List.mem_map.2 ⟨F, mem_workList_iff.2 ⟨f, hmay⟩, ?_⟩
    rw [hmay.1, hname]
    rfl
  simpa using (hnodup.subperm hsubset).length_le

/-! ## The run -/

theorem RunReaches.of_run {changed : Bool}
    (hrun : SymbolicEncapsulationPass.run opts parse unset dir M = .ok (N, changed)) :
    RunReaches opts parse unset dir M N := by
  rcases run_cases opts parse unset dir M with ⟨hidle, -⟩ | ⟨entries, rfl, hdir, hloop⟩
  · rw [hidle] at hrun
    cases hrun
    exact .inl rfl
  · rw [hloop] at hrun
    exact .inr ⟨entries, entries.zipIdx, [], rfl, hdir, (List.append_nil _).symm, changed, hrun⟩

end

/-- Every function a run passes on was on the work list, and what it adds are library declarations
and a harness for some of these functions, never one for a function it has added. -/
theorem workList_kept (opts : Options) (parse : String → Option Json) (unset : Unset)
    (dir : Option (List DirEntry)) (M : Module) : WorkListKept opts parse unset dir M where
  passed N F hp := by
    obtain ⟨entries, done, e, rest, argSpecs, -, -, -, hl, hr⟩ := hp
    obtain ⟨f, hmay⟩ := mem_workList_iff.1 (readReport_function hr).1
    obtain ⟨f', hf', -, hname, htype⟩ := hl.worked.later.defined hmay.1 hmay.2.1
    exact ⟨f, f', hmay, hf', hname, htype⟩
  new N hr g f' hg hf' := by
    rcases hr.worked.new g f' hg hf' with hlib | ⟨F, f, hmay, -, hname⟩
    · exact .inl hlib
    · exact .inr ⟨F, f, hmay, hname⟩
  once N _ g g' f₁ f₂ f h₁ h₂ hn₁ hn₂ :=
    functions_inj h₁ h₂ (hn₁.trans hn₂.symm) (hn₁ ▸ harnessName_ne_empty f)
  count N hr := hr.worked.count
  notOwn N hr g g' f₁ f₂ hg hg' h₁ h₂ := hr.worked.notOwn hg hg' h₁ h₂
  result _ _ hrun := .of_run hrun

end Ephippion
