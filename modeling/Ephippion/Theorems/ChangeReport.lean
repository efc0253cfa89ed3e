import Ephippion.Theorems.Orders

/-!
# What the pass says about its changes

`run(M)` returns true exactly if it has changed the module, which it has exactly if some report of
the directory asks for a harness (`run_changed`). The entry of the new pass manager takes this
answer the wrong way round: it says that all analyses are preserved exactly if the module was
changed, so it tells the truth exactly on directories in which no report asks for one
(`changeTruthful_iff`).
-/

namespace Ephippion

open SymbolicEncapsulation

/-- The directory is not looked at, or none of its entries asks for a harness. -/
def NothingAsked (opts : Options) (parse : String → Option Json) (unset : Unset)
    (dir : Option (List DirEntry)) (M : Module) : Prop :=
  ∀ entries, dir = some entries → opts.reportsDir ≠ "" → ∀ e ∈ entries.zipIdx,
    ∀ F argSpecs, ¬ AsksFor opts parse (unset e.2) (workList opts M) M e.1 F argSpecs

/-- What `run(M)` and `run(M, MAM)` have returned for a run that made `M'` of `M` is true. -/
def ChangeTruthful (M M' : Module) (hasChanged : Bool) (preserved : PreservedAnalyses) : Prop :=
  (hasChanged = true ↔ M' ≠ M) ∧ (preserved = .all → M' = M)

/-! ## The loop over the directory -/

section
variable {opts : Options} {parse : String → Option Json} {unset : Unset}
  {senc : SymbolicEncapsulation} {M M' : Module} {entries : List DirEntry}

theorem Later.readReport (h : Later senc M M') (opts : Options) (parse : String → Option Json)
    (unset : Nat → ArgDirection × Bool) (e : DirEntry) :
    readReport opts parse unset (workList opts M) M' e =
      readReport opts parse unset (workList opts M) M e :=
  readReport_congr (fun F hF => by
    obtain ⟨f, hf, -⟩ := mem_workList hF
    exact h.sig F (List.getElem?_eq_some_iff.1 hf).1) unset

/-- What the loop has done after the entries `done`: nothing if none asks for a harness, and
otherwise there is more code. -/
def LoopChanges (senc : SymbolicEncapsulation) (opts : Options) (parse : String → Option Json)
    (unset : Unset) (M : Module) (done : List (DirEntry × Nat)) (s : Module × Bool) : Prop :=
  Later senc M s.1 ∧
    (s = (M, false) ∧ (∀ e ∈ done, ∀ F argSpecs,
      ¬ AsksFor opts parse (unset e.2) (workList opts M) M e.1 F argSpecs) ∨
    s.2 = true ∧ (∃ h, (M.blocks h).length < (s.1.blocks h).length) ∧ ∃ e ∈ done, ∃ F argSpecs,
      AsksFor opts parse (unset e.2) (workList opts M) M e.1 F argSpecs)

theorem LoopChanges.step {done : List (DirEntry × Nat)} {s s' : Module × Bool}
    {e : DirEntry × Nat} (h : LoopChanges senc opts parse unset M done s)
    (hs : reportStep senc opts parse unset (workList opts M) s e = .ok s') :
    LoopChanges senc opts parse unset M (done ++ [e]) s' := by
  obtain ⟨hl, hc⟩ := h
  have hread := hl.readReport opts parse (unset e.2) e.1
  cases hr : readReport opts parse (unset e.2) (workList opts M) M e.1 with
  | error stop =>
    unfold reportStep at hs
    rw [hread, hr] at hs
    cases hs
  | ok action =>
    rw [hr] at hread
    cases action with
    | skip =>
      rw [reportStep_skip hread, Except.ok.injEq] at hs
      subst hs
      refine ⟨hl, hc.imp (fun h => ⟨h.1, fun e' he => ?_⟩) fun ⟨h1, h2, e', he, hask⟩ =>
        ⟨h1, h2, e', List.mem_append_left _ he, hask⟩⟩
      rcases List.mem_append.1 he with he | he
      · exact h.2 e' he
      · intro F argSpecs hask
        rw [List.mem_singleton.1 he, ← readReport_eq_encapsulate, hr] at hask
        cases hask
    | encapsulate F argSpecs =>
      rw [reportStep_encapsulate senc unset hread] at hs
      cases henc : senc.encapsulate s.1 F opts.iterationsNum argSpecs with
      | error stop =>
        rw [henc] at hs
        cases hs
      | ok p =>
        rw [henc, Except.ok.injEq] at hs
        subst hs
        obtain ⟨f, hf, hdef⟩ := mem_workList (readReport_function hr).1
        obtain ⟨f', hf', hdef', -⟩ := hl.defined hf hdef
        obtain ⟨hp, -, h, H, hb⟩ := encapsulate_of_ok hf' hdef' henc
        refine ⟨hl.trans hb.later, .inr ⟨by simp [hp], ⟨h, ?_⟩, e, by simp, F, argSpecs,
          readReport_eq_encapsulate.1 hr⟩⟩
        exact Nat.lt_of_le_of_lt (hl.blocks h) hb.length_blocks_lt

theorem reportLoop_changes {r : Module × Bool}
    (hr : reportLoop senc opts parse unset (workList opts M) M entries = .ok r) :
    LoopChanges senc opts parse unset M entries.zipIdx r :=
  Except.foldlM_ok (P := LoopChanges senc opts parse unset M)
    ⟨.refl senc M, .inl ⟨rfl, fun _ he => by cases he⟩⟩
    (fun _ _ _ _ _ h hs => h.step hs) hr

end

/-! ## A run -/

section
variable {opts : Options} {parse : String → Option Json} {unset : Unset}
  {dir : Option (List DirEntry)} {M M' : Module}

/-- Either nothing is asked for and nothing done, or the run is the loop. -/
theorem run_cases (opts : Options) (parse : String → Option Json) (unset : Unset)
    (dir : Option (List DirEntry)) (M : Module) :
    SymbolicEncapsulationPass.run opts parse unset dir M = .ok (M, false) ∧
        NothingAsked opts parse unset dir M ∨
      ∃ entries, dir = some entries ∧ opts.reportsDir ≠ "" ∧
        SymbolicEncapsulationPass.run opts parse unset dir M =
          reportLoop {} opts parse unset (workList opts M) M entries := by
  by_cases hdir : opts.reportsDir = ""
  · refine .inl ⟨?_, fun _ _ hne => absurd hdir hne⟩
    simp [SymbolicEncapsulationPass.run, hdir]
  · cases dir with
    | none =>
      refine .inl ⟨?_, fun _ h => by cases h⟩
      simp [SymbolicEncapsulationPass.run]
    | some entries =>
      by_cases hw : workList opts M = []
      · refine .inl ⟨run_idle hdir hw unset, fun _ _ _ e _ F argSpecs hask => ?_⟩
        have := (readReport_function (readReport_eq_encapsulate.2 hask)).1
        rw [hw] at this
        cases this
      · exact .inr ⟨entries, rfl, hdir, run_eq hdir hw unset⟩

/-- A run returns true exactly if it has changed the module, which is so exactly if something was
asked for. -/
theorem run_changed {hasChanged : Bool}
    (hrun : SymbolicEncapsulationPass.run opts parse unset dir M = .ok (M', hasChanged)) :
    (hasChanged = true ↔ M' ≠ M) ∧ (hasChanged = false ↔ NothingAsked opts parse unset dir M) := by
  rcases run_cases opts parse unset dir M with ⟨hidle, hno⟩ | ⟨entries, rfl, hdir, hloop⟩
  · rw [hidle] at hrun
    cases hrun
    simpa using hno
  · rw [hloop] at hrun
    obtain ⟨-, h⟩ := reportLoop_changes hrun
    rcases h with ⟨hsame, hno⟩ | ⟨htrue, ⟨h, hlt⟩, e, he, F, argSpecs, hask⟩
    · cases hsame
      have hnothing : NothingAsked opts parse unset (some entries) M := by
        intro _ he _
        cases he
        exact hno
      simpa using hnothing
    · obtain rfl : hasChanged = true := htrue
      refine ⟨iff_of_true rfl fun heq => ?_, iff_of_false (by simp) fun hno =>
        hno entries rfl hdir e he F argSpecs hask⟩
      replace hlt : (M.blocks h).length < (M'.blocks h).length := hlt
      rw [heq] at hlt
      exact Nat.lt_irrefl _ hlt

/-- What both entries return is true exactly if nothing was asked for. -/
theorem changeTruthful_iff {preserved : PreservedAnalyses}
    (hrun : SymbolicEncapsulationPass.runMAM opts parse unset dir M = .ok (M', preserved)) :
    ∃ hasChanged,
      SymbolicEncapsulationPass.run opts parse unset dir M = .ok (M', hasChanged) ∧
      (ChangeTruthful M M' hasChanged preserved ↔ NothingAsked opts parse unset dir M) := by
  unfold SymbolicEncapsulationPass.runMAM at hrun
  rw [Except.bind_eq_ok] at hrun
  obtain ⟨⟨N, hasChanged⟩, hr, hp⟩ := hrun
  cases hp
  obtain ⟨hflag, hno⟩ := run_changed hr
  refine ⟨hasChanged, hr, ?_⟩
  rw [ChangeTruthful, ← hno]
  cases hasChanged with
  | false => exact iff_of_true ⟨hflag, fun h => by cases h⟩ rfl
  | true => exact iff_of_false (fun h => hflag.1 rfl (h.2 rfl)) (by simp)

/-- On well-formed reports about functions that can be encapsulated a run returns. -/
theorem run_returns
    (hwf : ∀ entries, dir = some entries → ∀ e ∈ entries,
      WellFormedReport opts parse (workList opts M) M e)
    (hbuild : ∀ entries, dir = some entries → ∀ e ∈ entries.zipIdx, ∀ F argSpecs f,
      AsksFor opts parse (unset e.2) (workList opts M) M e.1 F argSpecs →
        M.functions[F]? = some f → Buildable {} M f opts.iterationsNum) :
    ∃ r, SymbolicEncapsulationPass.run opts parse unset dir M = .ok r := by
  rcases run_cases opts parse unset dir M with ⟨hidle, -⟩ | ⟨entries, rfl, -, hloop⟩
  · exact ⟨_, hidle⟩
  · rw [hloop]
    obtain ⟨r, hr, -⟩ := Except.foldlM_progress
      (P := fun (_ : List (DirEntry × Nat)) (s : Module × Bool) => Later {} M s.1)
      (f := reportStep {} opts parse unset (workList opts M)) (l := entries.zipIdx)
      (b := (M, false)) (.refl {} M) (fun done e s hpre hl => by
        have he : e ∈ entries.zipIdx :=
          hpre.subset (List.mem_append_right _ (List.mem_singleton_self e))
        have hhandled := (hwf entries rfl e.1 (List.fst_mem_of_mem_zipIdx he)).handled (unset e.2)
        have hread := hl.readReport opts parse (unset e.2) e.1
        cases hr : readReport opts parse (unset e.2) (workList opts M) M e.1 with
        | error stop =>
          rw [hr] at hhandled
          exact hhandled.elim
        | ok action =>
          rw [hr] at hread
          cases action with
          | skip => exact ⟨s, reportStep_skip hread, hl⟩
          | encapsulate F argSpecs =>
            obtain ⟨f, hf, hdef⟩ := mem_workList (readReport_function hr).1
            obtain ⟨f', hf', hdef', hname, htype⟩ := hl.defined hf hdef
            have hb := hbuild entries rfl e he F argSpecs f (readReport_eq_encapsulate.1 hr) hf
            obtain ⟨M', hok⟩ := encapsulate_progress argSpecs hf' hdef'
              ⟨(hl.encapsulable f hb.toEncapsulable).congr hname htype, hb.two_le⟩
            have hstep := reportStep_encapsulate {} unset hread
            rw [hok] at hstep
            exact ⟨_, hstep, hl.trans (encapsulate_later hok)⟩)
    exact ⟨r, hr⟩

end

/-- A report on `f` without an outbound parameter. -/
theorem changeTruthful_plain :
    SymbolicEncapsulationPass.runMAM reportOptions
      (fun _ => some (reportJson "f" [specJson 1 false, specJson 1 true]))
      (fun _ _ => (.inbound, false)) (some [⟨"lpc.1.json", true, some ""⟩])
      (bufferModule .int8Ty) = .ok (bufferModule .int8Ty, .none) ∧
    ∃ hasChanged,
      ChangeTruthful (bufferModule .int8Ty) (bufferModule .int8Ty) hasChanged .none := by
  have hrun : SymbolicEncapsulationPass.runMAM reportOptions
      (fun _ => some (reportJson "f" [specJson 1 false, specJson 1 true]))
      (fun _ _ => (.inbound, false)) (some [⟨"lpc.1.json", true, some ""⟩])
      (bufferModule .int8Ty) = .ok (bufferModule .int8Ty, .none) := rfl
  obtain ⟨hasChanged, -, hiff⟩ := changeTruthful_iff hrun
  refine ⟨hrun, hasChanged, hiff.2 fun entries he _ e hmem F argSpecs hask => ?_⟩
  cases he
  rw [List.mem_singleton.1 hmem] at hask
  have hskip : readReport reportOptions
      (fun _ => some (reportJson "f" [specJson 1 false, specJson 1 true]))
      (fun _ => (.inbound, false)) (workList reportOptions (bufferModule .int8Ty))
      (bufferModule .int8Ty) ⟨"lpc.1.json", true, some ""⟩ = .ok .skip := rfl
  cases hskip.symm.trans (readReport_eq_encapsulate.2 hask)

/-- A harness is built for `f`, and all analyses are said to be preserved. -/
theorem changed_preserves_all : ∃ M',
    SymbolicEncapsulationPass.run reportOptions parseReport (fun _ _ => (.inbound, false))
      (some [⟨"lpc.1.json", true, some "a"⟩]) (bufferModule .int8Ty) = .ok (M', true) ∧
    SymbolicEncapsulationPass.runMAM reportOptions parseReport (fun _ _ => (.inbound, false))
      (some [⟨"lpc.1.json", true, some "a"⟩]) (bufferModule .int8Ty) = .ok (M', .all) ∧
    M' ≠ bufferModule .int8Ty ∧ ¬ ChangeTruthful (bufferModule .int8Ty) M' true .all := by
  have hp : parseReport "a" = some (reportJson "f" [specJson 1 false, specJson 3 true]) := rfl
  have hacc := accepted_f (e := ⟨"lpc.1.json", true, some "a"⟩) (by decide) rfl hp
  have hreturns : ∃ r, SymbolicEncapsulationPass.run reportOptions parseReport
      (fun _ _ => (.inbound, false)) (some [⟨"lpc.1.json", true, some "a"⟩])
      (bufferModule .int8Ty) = .ok r := run_returns
    (fun entries he e hmem => by
      cases he
      rw [List.mem_singleton.1 hmem]
      exact wellFormedReport_f rfl hp)
    (fun entries he e hmem F argSpecs f hask hf => by
      cases he
      rw [List.mem_singleton.1 hmem] at hask
      cases (hacc _).symm.trans (readReport_eq_encapsulate.2 hask)
      cases hf
      exact bufferModule_buildable (.inl rfl))
  obtain ⟨⟨M', hasChanged⟩, hrun⟩ := hreturns
  obtain ⟨hflag, hno⟩ := run_changed hrun
  obtain rfl : hasChanged = true := by
    by_contra hfalse
    exact hno.1 (by simpa using hfalse) _ rfl (by decide) _ (List.mem_singleton_self _) _ _
      (readReport_eq_encapsulate.1 (hacc _))
  refine ⟨M', hrun, ?_, hflag.1 rfl, fun h => hflag.1 rfl (h.2 rfl)⟩
  rw [SymbolicEncapsulationPass.runMAM, hrun]
  rfl

end Ephippion
