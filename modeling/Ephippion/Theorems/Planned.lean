import Ephippion.Proof.Requests
import Ephippion.Theorems.ChangeReport

/-!
# Reading first, generating afterwards

A run reads a report, generates what it asks for and goes on to the next one. The same comes out,
stops included, if all reports are read in the module as it was given before anything is generated
(`run_eq_planned`): what a run has generated is never seen by what it reads later. So a run is the
generations for the requests of its plan (`run_requests`), and it returns exactly if all reports can
be read and each request alone could be met (`run_returns_iff`).
-/

namespace Ephippion

open SymbolicEncapsulation

/-- What the entries of the directory say, read in the module as it is given. -/
def plan (opts : Options) (parse : String → Option Json) (unset : Unset)
    (dir : Option (List DirEntry)) (M : Module) : List (Except PassStop ReportAction) :=
  if (workList opts M).isEmpty || opts.reportsDir = "" then []
  else match dir with
    | some entries => entries.zipIdx.map fun e =>
        readReport opts parse (unset e.2) (workList opts M) M e.1
    | none => []

/-- Doing what an entry says. -/
def perform (n : IterationsNumTy) (s : Module × Bool) (action : Except PassStop ReportAction) :
    Except PassStop (Module × Bool) := do
  match ← action with
  | .skip => return s
  | .encapsulate F argSpecs =>
    match SymbolicEncapsulation.encapsulate {} s.1 F n argSpecs with
    | .error stop => throw (.generation stop)
    | .ok (M, changed) => return (M, s.2 || changed)

/-- The harnesses a plan asks for. -/
def requests (actions : List (Except PassStop ReportAction)) : List Request :=
  actions.filterMap fun
    | .ok (.encapsulate F argSpecs) => some ⟨F, argSpecs⟩
    | _ => none

section
variable {opts : Options} {parse : String → Option Json} {unset : Unset}
  {dir : Option (List DirEntry)} {M M' N : Module} {n : IterationsNumTy}

/-! ## The loop -/

/-- A step in a later module does what the entry said in the first one. -/
theorem reportStep_later {s : Module × Bool} (h : Later {} M s.1) (e : DirEntry × Nat) :
    reportStep {} opts parse unset (workList opts M) s e = perform opts.iterationsNum s
      (readReport opts parse (unset e.2) (workList opts M) M e.1) := by
  rw [← h.readReport]
  rfl

theorem perform_later {s s' : Module × Bool} {action : Except PassStop ReportAction}
    (h : Later {} M s.1) (hs : perform n s action = .ok s') : Later {} M s'.1 := by
  unfold perform at hs
  rw [Except.bind_eq_ok] at hs
  obtain ⟨a, -, hs⟩ := hs
  cases a with
  | skip =>
    cases hs
    exact h
  | encapsulate F argSpecs =>
    dsimp only at hs
    split at hs
    · cases hs
    · rename_i hok
      cases hs
      exact h.trans (encapsulate_later hok)

theorem reportLoop_eq_planned (entries : List DirEntry) :
    reportLoop {} opts parse unset (workList opts M) M entries =
      (entries.zipIdx.map fun e => readReport opts parse (unset e.2) (workList opts M) M e.1).foldlM
        (perform opts.iterationsNum) (M, false) := by
  rw [reportLoop, List.foldlM_map]
  exact Except.foldlM_congr_inv (P := fun s => Later {} M s.1) (fun e _ s h => reportStep_later h e)
    (fun e _ s s' h hs => perform_later h hs) (.refl {} M)

theorem run_plan (opts : Options) (parse : String → Option Json) (unset : Unset)
    (dir : Option (List DirEntry)) (M : Module) :
    SymbolicEncapsulationPass.run opts parse unset dir M =
      (plan opts parse unset dir M).foldlM (perform opts.iterationsNum) (M, false) := by
  unfold SymbolicEncapsulationPass.run plan
  by_cases hdir : opts.reportsDir = ""
  · simp [hdir]
  · rw [if_neg (by simp [hdir])]
    split
    · rfl
    · cases dir with
      | none => rfl
      | some entries => exact reportLoop_eq_planned entries

/-! ## The requests -/

theorem mem_requests {actions : List (Except PassStop ReportAction)} {r : Request} :
    r ∈ requests actions ↔ .ok (.encapsulate r.F r.argSpecs) ∈ actions := by
  rw [requests, List.mem_filterMap]
  constructor
  · rintro ⟨a, ha, hr⟩
    split at hr
    · cases hr
      exact ha
    · cases hr
  · exact fun h => ⟨_, h, rfl⟩

theorem mem_requests_plan {r : Request} : r ∈ requests (plan opts parse unset dir M) ↔
    ∃ entries, dir = some entries ∧ opts.reportsDir ≠ "" ∧ ∃ e ∈ entries.zipIdx,
      AsksFor opts parse (unset e.2) (workList opts M) M e.1 r.F r.argSpecs := by
  rw [mem_requests]
  unfold plan
  constructor
  · intro h
    split at h
    · cases h
    · rename_i hno
      split at h
      · rename_i entries
        obtain ⟨e, he, hr⟩ := List.mem_map.1 h
        refine ⟨entries, rfl, fun hdir => hno (by simp [hdir]), e, he, ?_⟩
        exact readReport_eq_encapsulate.1 hr
      · cases h
  · rintro ⟨entries, rfl, hdir, e, he, hask⟩
    have hr := readReport_eq_encapsulate.2 hask
    rw [if_neg]
    · exact List.mem_map.2 ⟨e, he, hr⟩
    · have hne := List.ne_nil_of_mem (readReport_function hr).1
      simp [hdir, hne]

theorem plan_defined : AllDefined M (requests (plan opts parse unset dir M)) := by
  intro r hr
  obtain ⟨_, -, -, e, -, hask⟩ := mem_requests_plan.1 hr
  exact mem_workList (readReport_function (readReport_eq_encapsulate.2 hask)).1

theorem requests_eq_nil_iff :
    requests (plan opts parse unset dir M) = [] ↔ NothingAsked opts parse unset dir M := by
  rw [List.eq_nil_iff_forall_not_mem]
  constructor
  · intro h entries he hdir e hmem F argSpecs hask
    exact h ⟨F, argSpecs⟩ (mem_requests_plan.2 ⟨entries, he, hdir, e, hmem, hask⟩)
  · intro h r hr
    obtain ⟨entries, he, hdir, e, hmem, hask⟩ := mem_requests_plan.1 hr
    exact h entries he hdir e hmem r.F r.argSpecs hask

/-- Doing what is said is reading it all and generating what is asked for. -/
theorem foldlM_perform {actions : List (Except PassStop ReportAction)} :
    ∀ {s : Module × Bool}, (∃ changed, actions.foldlM (perform n) s = .ok (M', changed)) ↔
      (∀ a ∈ actions, ∃ action, a = .ok action) ∧
        encapsulateAll {} n s.1 (requests actions) = .ok M' := by
  induction actions with
  | nil =>
    intro s
    constructor
    · rintro ⟨changed, h⟩
      cases h
      exact ⟨fun _ ha => (List.not_mem_nil ha).elim, rfl⟩
    · rintro ⟨-, h⟩
      cases h
      exact ⟨s.2, rfl⟩
  | cons a actions ih =>
    intro s
    rw [List.forall_mem_cons]
    cases a with
    | error stop => simp [perform]
    | ok action =>
      have hok : ∃ action', (.ok action : Except PassStop ReportAction) = .ok action' := ⟨_, rfl⟩
      rw [List.foldlM_cons, and_iff_right hok]
      cases action with
      | skip => exact ih
      | encapsulate F argSpecs =>
        have hcons : requests (.ok (.encapsulate F argSpecs) :: actions) =
            ⟨F, argSpecs⟩ :: requests actions := rfl
        rw [hcons, encapsulateAll, List.foldlM_cons]
        simp only [perform, Except.ok_bind_eq]
        cases SymbolicEncapsulation.encapsulate {} s.1 F n argSpecs with
        | error stop => simp [Except.map]
        | ok p => exact ih (s := (p.1, s.2 || p.2))

theorem run_requests {changed : Bool}
    (hrun : SymbolicEncapsulationPass.run opts parse unset dir M = .ok (M', changed)) :
    encapsulateAll {} opts.iterationsNum M (requests (plan opts parse unset dir M)) = .ok M' := by
  rw [run_plan] at hrun
  exact (foldlM_perform.1 ⟨changed, hrun⟩).2

theorem run_kept {changed : Bool}
    (hrun : SymbolicEncapsulationPass.run opts parse unset dir M = .ok (M', changed)) :
    Kept {} M M' :=
  (encapsulateAll_inv (P := fun _ _ => True) plan_defined trivial
    (fun _ _ _ _ _ _ _ _ _ _ => trivial) (run_requests hrun)).1

end

/-- Reading all reports before generating anything gives what the run gives, stops included; a run
that returns has generated what is asked for, one after the other, and says whether anything was. -/
theorem run_eq_planned (opts : Options) (parse : String → Option Json) (unset : Unset)
    (dir : Option (List DirEntry)) (M : Module) :
    SymbolicEncapsulationPass.run opts parse unset dir M =
        (plan opts parse unset dir M).foldlM (perform opts.iterationsNum) (M, false) ∧
      ∀ M' changed, SymbolicEncapsulationPass.run opts parse unset dir M = .ok (M', changed) →
        encapsulateAll {} opts.iterationsNum M (requests (plan opts parse unset dir M)) = .ok M' ∧
          (changed = true ↔ requests (plan opts parse unset dir M) ≠ []) := by
  refine ⟨run_plan opts parse unset dir M, fun M' changed hrun => ⟨run_requests hrun, ?_⟩⟩
  rw [ne_eq, requests_eq_nil_iff, ← (run_changed hrun).2, Bool.not_eq_false]

/-- A run returns exactly if all reports can be read and each harness they ask for could be
generated first. -/
theorem run_returns_iff (opts : Options) (parse : String → Option Json) (unset : Unset)
    (dir : Option (List DirEntry)) (M : Module) :
    (∃ r, SymbolicEncapsulationPass.run opts parse unset dir M = .ok r) ↔
      (∀ a ∈ plan opts parse unset dir M, ∃ action, a = .ok action) ∧
        ∀ r ∈ requests (plan opts parse unset dir M), ∀ f, M.functions[r.F]? = some f →
          Buildable {} M f opts.iterationsNum := by
  rw [← encapsulateAll_returns_iff plan_defined, ← exists_and_left, Prod.exists, run_plan]
  exact exists_congr fun M' => foldlM_perform

/-! ## Two reports on one function -/

/-- The first one has the iterator copied once, the second one twice. -/
def twoReports : List DirEntry :=
  [⟨"lpc.1.json", true, some "a"⟩, ⟨"lpc.2.json", true, some "b"⟩]

theorem plan_twoReports : plan reportOptions parseReport (fun _ _ => (.inbound, false))
    (some twoReports) (bufferModule .int8Ty) =
      [.ok (.encapsulate 0 [⟨"", .inbound, false⟩, ⟨"", .both, true⟩]),
        .ok (.encapsulate 0 [⟨"", .both, false⟩, ⟨"", .both, true⟩])] := by
  have hpa : parseReport "a" = some (reportJson "f" [specJson 1 false, specJson 3 true]) := rfl
  have hpb : parseReport "b" = some (reportJson "f" [specJson 3 false, specJson 3 true]) := rfl
  have ha := accepted_f (e := ⟨"lpc.1.json", true, some "a"⟩) (by decide) rfl hpa
    fun _ => (.inbound, false)
  have hb := accepted_f (e := ⟨"lpc.2.json", true, some "b"⟩) (by decide) rfl hpb
    fun _ => (.inbound, false)
  unfold plan
  rw [if_neg (by decide)]
  exact congrArg₂ (fun x y => [x, y]) ha hb

/-- A run that plans harnesses for `f` only returns. -/
theorem run_of_plan_f {parse : String → Option Json} {unset : Unset}
    {dir : Option (List DirEntry)} (hplan : ∀ a ∈ plan reportOptions parse unset dir
      (bufferModule .int8Ty), ∃ argSpecs, a = .ok (.encapsulate 0 argSpecs)) :
    ∃ M' changed, SymbolicEncapsulationPass.run reportOptions parse unset dir
      (bufferModule .int8Ty) = .ok (M', changed) := by
  have hbuild : ∀ r ∈ requests (plan reportOptions parse unset dir (bufferModule .int8Ty)), ∀ f,
      (bufferModule .int8Ty).functions[r.F]? = some f →
        Buildable {} (bufferModule .int8Ty) f 2 := by
    intro r hr f hf
    obtain ⟨a, ha, hreq⟩ := List.mem_filterMap.1 hr
    obtain ⟨argSpecs, rfl⟩ := hplan a ha
    cases hreq
    cases hf
    exact bufferModule_buildable (.inl rfl)
  obtain ⟨M', hok⟩ := (encapsulateAll_returns_iff plan_defined).2 hbuild
  refine ⟨M', ?_⟩
  rw [run_plan, foldlM_perform]
  refine ⟨fun a ha => ?_, hok⟩
  obtain ⟨argSpecs, rfl⟩ := hplan a ha
  exact ⟨_, rfl⟩

theorem run_twoReports : ∃ M' changed, SymbolicEncapsulationPass.run reportOptions parseReport
    (fun _ _ => (.inbound, false)) (some twoReports) (bufferModule .int8Ty) =
      .ok (M', changed) := by
  apply run_of_plan_f
  rw [plan_twoReports]
  intro a ha
  simp only [List.mem_cons, List.not_mem_nil, or_false] at ha
  rcases ha with rfl | rfl <;> exact ⟨_, rfl⟩

end Ephippion
