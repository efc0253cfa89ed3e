import Ephippion.Proof.Generations
import Ephippion.Run.Entry
import Ephippion.Run.Lockstep
import Ephippion.Run.Sizes
import Ephippion.Theorems.Reports

/-!
# The reports of a directory, in any order

`run` leaves a harness for every report it accepts, and the harness runs as the one that is
generated for this report alone, whatever the order of the directory, if no two accepted reports for
one function differ in the specifications of its parameters (`reports_honoured`). Of two that differ
only the first one is honoured: the other's blocks are appended to the harness that is there
(`second_report_lost`).
-/

namespace Ephippion

open SymbolicEncapsulation Machine

/-- What a report asks for, whatever an undecoded specification holds. -/
def Accepted (opts : Options) (parse : String → Option Json) (M : Module) (e : DirEntry) (F : Nat)
    (argSpecs : List ArgSpec) : Prop :=
  ∀ unset, readReport opts parse unset (workList opts M) M e = .ok (.encapsulate F argSpecs)

/-- What the reports of a directory ask for. -/
def Asked (opts : Options) (parse : String → Option Json) (M : Module) (entries : List DirEntry)
    (F : Nat) (argSpecs : List ArgSpec) : Prop :=
  ∃ e ∈ entries, Accepted opts parse M e F argSpecs

/-- Called from its entry, function `h₁` of `M₁` does what function `h₂` of `M₂` does: it ends with
the same outcome, the same memory and the same events, or it does not end. -/
def SameRuns (F h₁ : Nat) (M₁ : Module) (h₂ : Nat) (M₂ : Module) : Prop :=
  ∀ (W : World) (o : Outcome),
    Halts (step W M₁ F h₁) (startAt 0) o ↔ Halts (step W M₂ F h₂) (startAt 0) o

/-- `M'` has a function of the harness's name whose code, from the entry on, is the one for `F`
with these specifications, and it runs as the harness generated in `M` for them alone. -/
def Honoured (senc : SymbolicEncapsulation) (n : IterationsNumTy) (M : Module) (F : Nat)
    (argSpecs : List ArgSpec) (M' : Module) : Prop :=
  ∃ f h H N, M.functions[F]? = some f ∧
    M'.getFunction (senc.harnessName f) = some ⟨h, senc.harnessName f, harnessType⟩ ∧
    HarnessAt h F f n (padSpecs argSpecs f.params.length) H M' ∧ H.base = 0 ∧
    senc.encapsulate M F n argSpecs = .ok (N, true) ∧
    SameRuns F h M' M.functions.length N

/-! ## Reading a report -/

/-- The entry is a report on function `F` of the work list, with the elements `elems`. -/
structure ReportsOn (opts : Options) (parse : String → Option Json) (works : List Nat) (M : Module)
    (e : DirEntry) (F : Nat) (elems : List Json) : Prop where
  isReport : e.isReport opts
  names : ∃ text o funcName ref, (e.text = some text ∧ parse text = some (.object o)) ∧
    JsonObject.getString o "func" = some funcName ∧
    (M.getFunction funcName = some ref ∧ ref.index = F) ∧ Json.argspecs (.object o) = some elems
  mem : F ∈ works

/-- The entry is a report that asks for a harness: one of its specifications is outbound, or
encapsulation is forced. -/
def AsksFor (opts : Options) (parse : String → Option Json) (unset : Nat → ArgDirection × Bool)
    (works : List Nat) (M : Module) (e : DirEntry) (F : Nat) (argSpecs : List ArgSpec) : Prop :=
  ∃ elems, ReportsOn opts parse works M e F elems ∧ argSpecs = decodeSpecs unset elems ∧
    ((argSpecs.any fun s => isOutbound s.direction) ∨ opts.forceEncapsulation)

section
variable {opts : Options} {parse : String → Option Json} {works : List Nat} {M N : Module}
  {e : DirEntry}

theorem mem_workList {F : Nat} (h : F ∈ workList opts M) :
    ∃ f, M.functions[F]? = some f ∧ f.isDeclaration = false := by
  obtain ⟨-, h⟩ := List.mem_filter.1 h
  cases hf : M.functions[F]? with
  | none => simp [hf] at h
  | some f =>
    simp only [hf, Bool.and_eq_true, Bool.not_eq_true'] at h
    exact ⟨f, rfl, h.1⟩

theorem getFunction_works (hw : ∀ F ∈ works, M.sig[F]? = N.sig[F]?) {x : String}
    {ref : FuncRef} (href : M.getFunction x = some ref) (hmem : ref.index ∈ works) :
    N.getFunction x = some ref := by
  rw [getFunction_eq_some] at href ⊢
  obtain ⟨hname, hs⟩ := Module.sig_of_getNamedValue href
  have hx : x ≠ "" := by
    rintro rfl
    rw [Module.getNamedValue_eq, if_pos rfl] at href
    cases href
  rw [hw _ hmem] at hs
  have := Module.getNamedValue_of_sig hx hs
  rwa [← hname] at this ⊢

/-- A report is read by looking at the names and types of the work list only. -/
theorem readReport_congr (hw : ∀ F ∈ works, M.sig[F]? = N.sig[F]?)
    (unset : Nat → ArgDirection × Bool) :
    readReport opts parse unset works M e = readReport opts parse unset works N e := by
  unfold readReport
  split
  · rfl
  · congr 1
    funext v
    cases v with
    | none => rfl
    | some v =>
      show decodeReport opts unset works M v = decodeReport opts unset works N v
      by_cases hv : ∃ o x, v = .object o ∧ JsonObject.getString o "func" = some x
      · obtain ⟨o, x, rfl, hx⟩ := hv
        by_cases hF : ∃ F, M.getFunction x = some F ∧ F.index ∈ works
        · obtain ⟨F, hF, hmem⟩ := hF
          rw [decodeReport_works hx hF hmem,
            decodeReport_works hx (getFunction_works hw hF hmem) hmem]
        · rw [decodeReport_other hx fun F h1 h2 => hF ⟨F, h1, h2⟩,
            decodeReport_other hx fun F h1 h2 =>
              hF ⟨F, getFunction_works (fun G hG => (hw G hG).symm) h1 h2, h2⟩]
      · rw [decodeReport_malformed fun o x h1 h2 => hv ⟨o, x, h1, h2⟩,
          decodeReport_malformed fun o x h1 h2 => hv ⟨o, x, h1, h2⟩]

theorem ReportsOn.readReport {F : Nat} {elems : List Json}
    (h : ReportsOn opts parse works M e F elems) (unset : Nat → ArgDirection × Bool) :
    readReport opts parse unset works M e =
      if !(decodeSpecs unset elems).any (fun e => isOutbound e.direction) &&
        !opts.forceEncapsulation then .ok .skip
      else .ok (.encapsulate F (decodeSpecs unset elems)) := by
  obtain ⟨hr, ⟨text, o, x, ref, ⟨ht, hv⟩, hx, ⟨href, rfl⟩, ha⟩, hmem⟩ := h
  rw [readReport_of_text hr ht, hv]
  dsimp only
  rw [decodeReport_works hx href hmem, ha]

theorem readReport_eq_encapsulate {unset : Nat → ArgDirection × Bool} {F : Nat}
    {argSpecs : List ArgSpec} :
    readReport opts parse unset works M e = .ok (.encapsulate F argSpecs) ↔
      AsksFor opts parse unset works M e F argSpecs := by
  have hcond : ∀ a b : Bool, ¬ (!a && !b) = true ↔ a ∨ b := by decide
  constructor
  · intro h
    cases hr : e.isReport opts with
    | false =>
      rw [readReport_skip (.inl hr)] at h
      cases h
    | true =>
      cases ht : e.text with
      | none =>
        rw [readReport_skip (.inr ht)] at h
        cases h
      | some text =>
        rw [readReport_of_text hr ht] at h
        cases hv : parse text with
        | none =>
          rw [hv] at h
          cases h
        | some v =>
          rw [hv] at h
          replace h : decodeReport opts unset works M v = .ok (.encapsulate F argSpecs) := h
          by_cases hv' : ∃ o x, v = .object o ∧ JsonObject.getString o "func" = some x
          · obtain ⟨o, x, rfl, hx⟩ := hv'
            by_cases hF : ∃ F, M.getFunction x = some F ∧ F.index ∈ works
            · obtain ⟨ref, href, hmem⟩ := hF
              rw [decodeReport_works hx href hmem] at h
              cases ha : Json.argspecs (.object o) with
              | none =>
                rw [ha] at h
                cases h
              | some elems =>
                rw [ha] at h
                dsimp only at h
                split at h
                · cases h
                · rename_i hn
                  cases h
                  exact ⟨elems, ⟨hr, ⟨text, o, x, ref, ⟨ht, hv⟩, hx, ⟨href, rfl⟩, ha⟩, hmem⟩, rfl,
                    (hcond _ _).1 hn⟩
            · rw [decodeReport_other hx fun F h1 h2 => hF ⟨F, h1, h2⟩] at h
              cases h
          · rw [decodeReport_malformed fun o x h1 h2 => hv' ⟨o, x, h1, h2⟩] at h
            cases h
  · rintro ⟨elems, hrep, rfl, hany⟩
    rw [hrep.readReport, if_neg ((hcond _ _).2 hany)]

theorem readReport_function {unset : Nat → ArgDirection × Bool} {F : Nat}
    {argSpecs : List ArgSpec}
    (h : readReport opts parse unset works M e = .ok (.encapsulate F argSpecs)) :
    F ∈ works ∧ ∃ f, M.functions[F]? = some f ∧ f.name ≠ "" := by
  obtain ⟨-, ⟨-, ⟨-, -, x, ref, -, -, ⟨href, rfl⟩, -⟩, hmem⟩, -⟩ := readReport_eq_encapsulate.1 h
  rw [getFunction_eq_some] at href
  have hs := (Module.sig_of_getNamedValue href).2
  rw [Module.sig, List.getElem?_map, Option.map_eq_some_iff] at hs
  obtain ⟨f, hf, hfs⟩ := hs
  refine ⟨hmem, f, hf, fun h0 => ?_⟩
  rw [← (show f.name = x from congrArg Prod.fst hfs), h0, Module.getNamedValue_eq,
    if_pos rfl] at href
  cases href

/-- What a well-formed report asks for does not depend on what was there before decoding. -/
theorem WellFormedReport.readReport_unset (h : WellFormedReport opts parse works M e)
    (unset unset' : Nat → ArgDirection × Bool) :
    readReport opts parse unset works M e = readReport opts parse unset' works M e := by
  cases hr : e.isReport opts with
  | false => rw [readReport_skip (.inl hr), readReport_skip (.inl hr)]
  | true =>
    cases ht : e.text with
    | none => rw [readReport_skip (.inr ht), readReport_skip (.inr ht)]
    | some text =>
      obtain ⟨o, x, hp, hx, hF⟩ := h hr text ht
      rw [readReport_of_text hr ht, readReport_of_text hr ht, hp]
      dsimp only
      by_cases hw : ∃ F, M.getFunction x = some F ∧ F.index ∈ works
      · obtain ⟨F, hg, hw⟩ := hw
        obtain ⟨elems, ha, hdec⟩ := hF F hg hw
        have hspecs : decodeSpecs unset elems = decodeSpecs unset' elems := by
          apply List.ext_getElem?
          intro i
          rw [getElem?_decodeSpecs, getElem?_decodeSpecs]
          cases he : elems[i]? with
          | none => rfl
          | some el =>
            have hd := hdec el (List.mem_of_getElem? he)
            obtain ⟨p, hp⟩ := Option.isSome_iff_exists.1 hd
            simp only [Option.map_some, fromJSON_eq, hp]
        rw [decodeReport_works hx hg hw, decodeReport_works hx hg hw, ha]
        dsimp only
        rw [hspecs]
      · rw [decodeReport_other hx fun F h1 h2 => hw ⟨F, h1, h2⟩,
          decodeReport_other hx fun F h1 h2 => hw ⟨F, h1, h2⟩]

end

/-! ## The loop over the directory -/

section
variable {opts : Options} {parse : String → Option Json} {M : Module} {entries : List DirEntry}

theorem Asked.snoc {e : DirEntry} {F : Nat} {argSpecs : List ArgSpec} :
    Asked opts parse M (entries ++ [e]) F argSpecs ↔
      Asked opts parse M entries F argSpecs ∨ Accepted opts parse M e F argSpecs := by
  simp [Asked, or_and_right, exists_or]

theorem reportStep_skip {senc : SymbolicEncapsulation} {unset : Unset} {works : List Nat}
    {s : Module × Bool} {e : DirEntry × Nat}
    (hr : readReport opts parse (unset e.2) works s.1 e.1 = .ok .skip) :
    reportStep senc opts parse unset works s e = .ok s := by
  unfold reportStep
  rw [hr]
  rfl

theorem reportStep_encapsulate (senc : SymbolicEncapsulation) (unset : Unset) {works : List Nat}
    {s : Module × Bool} {e : DirEntry × Nat} {F : Nat} {argSpecs : List ArgSpec}
    (hr : readReport opts parse (unset e.2) works s.1 e.1 = .ok (.encapsulate F argSpecs)) :
    reportStep senc opts parse unset works s e =
      match senc.encapsulate s.1 F opts.iterationsNum argSpecs with
      | .error stop => .error (.generation stop)
      | .ok (M, changed) => .ok (M, s.2 || changed) := by
  unfold reportStep
  rw [hr, Except.ok_bind_eq]
  rfl

end

section
variable {senc : SymbolicEncapsulation} {n : IterationsNumTy} {M M' : Module} {F h : Nat}
  {f : Function} {specs : List ArgSpec} {H : Harness} {done : Nat → List ArgSpec → Prop}

theorem Generated.honoured (hg : Generated senc n M done M') (hdone : done F specs)
    (hf : M.functions[F]? = some f) (hdef : f.isDeclaration = false)
    (hbuild : Buildable senc M f n) (hne : senc.harnessName f ≠ "") :
    Honoured senc n M F specs M' := by
  obtain ⟨h, H, he⟩ := hg.entries F specs f hdone hf
  obtain ⟨N, hN⟩ := encapsulate_progress specs hf hdef hbuild
  refine ⟨f, h, H, N, hf, getFunction_eq_some.2 (Module.getNamedValue_of_sig hne he.sig), he.here,
    he.base_eq, hN, fun W o => ?_⟩
  obtain ⟨-, -, k, K, hb⟩ := encapsulate_of_ok hf hdef hN
  have := he.here.halts_iff (hg.dataLayout.trans hb.dataLayout.symm) (he.alone N hN) W o
  rwa [he.base_eq] at this

end

/-! ## Any order -/

section
variable {opts : Options} {parse : String → Option Json} {M : Module} {entries : List DirEntry}

theorem harnessName_ne_empty (f : Function) : SymbolicEncapsulation.harnessName {} f ≠ "" := by
  intro h
  have := congrArg String.length h
  simp [harnessName, String.length_append] at this

theorem run_eq (hdir : opts.reportsDir ≠ "") (hw : workList opts M ≠ []) (unset : Unset) :
    SymbolicEncapsulationPass.run opts parse unset (some entries) M =
      reportLoop {} opts parse unset (workList opts M) M entries := by
  unfold SymbolicEncapsulationPass.run
  rw [if_neg (by simp [hdir]), if_neg (by simp [hdir, hw])]

theorem run_idle (hdir : opts.reportsDir ≠ "") (hw : workList opts M = []) (unset : Unset) :
    SymbolicEncapsulationPass.run opts parse unset (some entries) M = .ok (M, false) := by
  unfold SymbolicEncapsulationPass.run
  rw [if_neg (by simp [hdir]), if_pos (by simp [hw])]

end

/-! ## Two reports for `f` -/

def specJson (direction : BitVec 64) (iteratorDependent : Bool) : Json :=
  .object [("direction", .integer direction), ("iterator dependent", .boolean iteratorDependent)]

def reportJson (func : String) (argspecs : List Json) : Json :=
  .object [("func", .string func), ("args", .object [("argspecs", .array argspecs)])]

/-- The parser of a directory whose reports are the texts `a` and `b`. -/
def parseReport : String → Option Json
  | "a" => some (reportJson "f" [specJson 1 false, specJson 3 true])
  | "b" => some (reportJson "f" [specJson 3 false, specJson 3 true])
  | _ => none

def reportOptions : Options := { reportsDir := "reports", iterationsNum := 2 }

theorem decodeReport_f {argspecs : List Json} {unset : Nat → ArgDirection × Bool}
    (hany : (decodeSpecs unset argspecs).any (fun e => isOutbound e.direction) = true) :
    decodeReport reportOptions unset (workList reportOptions (bufferModule .int8Ty))
      (bufferModule .int8Ty) (reportJson "f" argspecs) =
      .ok (.encapsulate 0 (decodeSpecs unset argspecs)) := by
  have hF : (bufferModule .int8Ty).getFunction "f" =
      some ⟨0, "f", (bufferFunction .int8Ty).getFunctionType⟩ := by decide
  have hspecs : Json.argspecs (reportJson "f" argspecs) = some argspecs := rfl
  rw [reportJson] at hspecs ⊢
  rw [decodeReport_works rfl hF (by decide), hspecs]
  dsimp only
  rw [hany]
  rfl

theorem decodeSpecs_f (unset : Nat → ArgDirection × Bool) (direction : BitVec 64) :
    decodeSpecs unset [specJson direction false, specJson 3 true] =
      [⟨"", .ofInt (direction.setWidth 32), false⟩, ⟨"", .both, true⟩] := rfl

section
variable {e : DirEntry} {text : String} {direction : BitVec 64}

theorem accepted_f (hr : e.isReport reportOptions) (ht : e.text = some text)
    (hp : parseReport text = some (reportJson "f" [specJson direction false, specJson 3 true])) :
    Accepted reportOptions parseReport (bufferModule .int8Ty) e 0
      [⟨"", .ofInt (direction.setWidth 32), false⟩, ⟨"", .both, true⟩] := by
  intro unset
  rw [readReport_of_text hr ht, hp]
  dsimp only
  rw [← decodeSpecs_f unset]
  apply decodeReport_f
  rw [decodeSpecs_f, List.any_cons, List.any_cons, show isOutbound .both = true by decide]
  simp

theorem wellFormedReport_f (ht : e.text = some text)
    (hp : parseReport text = some (reportJson "f" [specJson direction false, specJson 3 true])) :
    WellFormedReport reportOptions parseReport
      (workList reportOptions (bufferModule .int8Ty)) (bufferModule .int8Ty) e := by
  intro _ text' ht'
  rw [ht] at ht'
  cases ht'
  refine ⟨_, "f", hp, rfl, fun F _ _ => ⟨_, rfl, ?_⟩⟩
  rintro el hel
  rcases List.mem_cons.1 hel with rfl | hel
  · rfl
  · rw [List.mem_singleton.1 hel]
    rfl

end

theorem bufferModule_notPrefixed : NotPrefixed {} (bufferModule .int8Ty) := by
  intro f hf x h
  rw [List.mem_singleton.1 hf] at h
  have := congrArg String.length h
  rw [String.length_append, show (bufferFunction .int8Ty).name.length = 1 from rfl,
    show ({} : SymbolicEncapsulation).harnessNamePrefix.length = 7 from rfl] at this
  omega

end Ephippion
