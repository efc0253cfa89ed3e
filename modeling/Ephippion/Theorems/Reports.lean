import Ephippion.IR.Concrete
import Ephippion.Lib.Except
import Ephippion.Transforms.SymbolicEncapsulationPass

/-!
# The decoding of reports

An entry of the reports' directory is handled if it is skipped, or its function is encapsulated with
the specifications its elements decode to (`Handled`). That is so, whatever an undecoded
specification holds, exactly for entries that are not read or well formed (`handled_iff`): any other
text stops the process, or passes on a specification that was never set.
-/

namespace Ephippion

/-- `s` is what `e` is successfully decoded to. -/
def Decodes (e : Json) (s : ArgSpec) : Prop :=
  ∀ (direction : ArgDirection) (iteratorDependent : Bool),
    fromJSON e ⟨"", direction, iteratorDependent⟩ = (true, s)

/-- Each of `specs` is decoded from its element. -/
def DecodedFrom (elems : List Json) (specs : List ArgSpec) : Prop :=
  specs.length = elems.length ∧
    ∀ (i : Nat) e s, elems[i]? = some e → specs[i]? = some s → Decodes e s

/-- The elements of a report. -/
def Json.argspecs (v : Json) : Option (List Json) :=
  (v.getAsObject.bind (·.getObject "args")).bind (·.getArray "argspecs")

/-- An entry is skipped, or its specifications are passed on as they are decoded. -/
def Handled (parse : String → Option Json) (e : DirEntry) : Except PassStop ReportAction → Prop
  | .ok .skip => True
  | .ok (.encapsulate _ argSpecs) => ∃ text v elems, e.text = some text ∧ parse text = some v ∧
      v.argspecs = some elems ∧ DecodedFrom elems argSpecs
  | .error _ => False

/-- An entry that is read has a report: an object that names a function, with decodable
specifications if that is to be encapsulated. -/
def WellFormedReport (opts : Options) (parse : String → Option Json) (works : List Nat) (M : Module)
    (e : DirEntry) : Prop :=
  e.isReport opts → ∀ text, e.text = some text → ∃ o funcName,
    parse text = some (.object o) ∧ JsonObject.getString o "func" = some funcName ∧
      ∀ F, M.getFunction funcName = some F → F.index ∈ works → ∃ elems,
        Json.argspecs (.object o) = some elems ∧ ∀ el ∈ elems, (decodeFields el).isSome

section
variable {unset : Nat → ArgDirection × Bool} {elems : List Json}

theorem getElem?_decodeSpecs (unset : Nat → ArgDirection × Bool) (elems : List Json) (i : Nat) :
    (decodeSpecs unset elems)[i]? =
      elems[i]?.map fun e => (fromJSON e ⟨"", (unset i).1, (unset i).2⟩).2 := by
  rw [decodeSpecs, List.getElem?_map, List.getElem?_zipIdx, Option.map_map, Nat.zero_add]
  rfl

theorem decodes_of_isSome {e : Json} (h : (decodeFields e).isSome) (r : ArgSpec)
    (hr : r.name = "") :
    Decodes e (fromJSON e r).2 := by
  obtain ⟨⟨d, b⟩, hd⟩ := Option.isSome_iff_exists.1 h
  intro d' b'
  rw [fromJSON_eq, fromJSON_eq, hd, hr]

theorem decodedFrom_decodeSpecs (h : ∀ e ∈ elems, (decodeFields e).isSome) :
    DecodedFrom elems (decodeSpecs unset elems) := by
  refine ⟨by simp [decodeSpecs], fun i e s he hs => ?_⟩
  rw [getElem?_decodeSpecs, he, Option.map_some, Option.some.injEq] at hs
  rw [← hs]
  exact decodes_of_isSome (h e (List.mem_of_getElem? he)) _ rfl

theorem exists_kept (unset : Nat → ArgDirection × Bool) {e : Json} (he : e ∈ elems)
    (hno : decodeFields e = none) :
    ∃ (i : Nat) (s : ArgSpec), elems[i]? = some e ∧ (decodeSpecs unset elems)[i]? = some s ∧
      s.direction = (unset i).1 := by
  obtain ⟨i, hi⟩ := List.getElem?_of_mem he
  refine ⟨i, ⟨"", (unset i).1, (unset i).2⟩, hi, ?_, rfl⟩
  rw [getElem?_decodeSpecs, hi, Option.map_some, fromJSON_eq, hno]

end

section
variable {opts : Options} {parse : String → Option Json} {works : List Nat} {M : Module}
  {e : DirEntry} {v : Json}

theorem decodeReport_works {unset : Nat → ArgDirection × Bool} {o : JsonObject} {funcName : String}
    (hn : o.getString "func" = some funcName) {F : FuncRef}
    (hF : M.getFunction funcName = some F) (hw : F.index ∈ works) :
    decodeReport opts unset works M (.object o) = match Json.argspecs (.object o) with
      | none => .error .nullDereference
      | some elems =>
        if !(decodeSpecs unset elems).any (fun e => isOutbound e.direction) &&
          !opts.forceEncapsulation then .ok .skip
        else .ok (.encapsulate F.index (decodeSpecs unset elems)) := by
  unfold decodeReport
  simp only [Json.getAsObject, Json.argspecs, deref_some, Except.ok_bind_eq, hn, hF, hw,
    not_true_eq_false,
    ite_false, Option.bind_some]
  cases o.getObject "args" with
  | none => rfl
  | some args =>
    cases hasa : args.getArray "argspecs" with
    | none => simp only [deref_some, deref_none, Except.ok_bind_eq, hasa, Option.bind_some]; rfl
    | some elems =>
      simp only [deref_some, Except.ok_bind_eq, hasa, Option.bind_some]
      split <;> rfl

theorem decodeReport_other {unset : Nat → ArgDirection × Bool} {o : JsonObject} {funcName : String}
    (hn : o.getString "func" = some funcName)
    (hF : ∀ F, M.getFunction funcName = some F → F.index ∉ works) :
    decodeReport opts unset works M (.object o) = .ok .skip := by
  unfold decodeReport
  simp only [Json.getAsObject, deref_some, Except.ok_bind_eq, hn]
  cases hg : M.getFunction funcName with
  | none => rfl
  | some F =>
    show (if F.index ∉ works then _ else _) = _
    rw [if_pos (hF F hg)]
    rfl

/-- What is not an object that names a function stops the process. -/
theorem decodeReport_malformed {unset : Nat → ArgDirection × Bool}
    (h : ∀ o funcName, v = .object o → JsonObject.getString o "func" ≠ some funcName) :
    decodeReport opts unset works M v = .error .nullDereference := by
  unfold decodeReport
  cases v with
  | object o =>
    cases hn : JsonObject.getString o "func" with
    | some funcName => exact (h o funcName rfl hn).elim
    | none =>
      simp only [Json.getAsObject, deref_some, Except.ok_bind_eq, hn]
      rfl
  | _ => rfl

theorem readReport_of_text {unset : Nat → ArgDirection × Bool} {text : String}
    (hr : e.isReport opts = true) (ht : e.text = some text) :
    readReport opts parse unset works M e = match parse text with
      | none => .error .fatalError
      | some v => decodeReport opts unset works M v := by
  unfold readReport readJSONFromFile
  rw [hr, ht]
  dsimp only
  cases parse text <;> rfl

theorem readReport_skip {unset : Nat → ArgDirection × Bool}
    (h : e.isReport opts = false ∨ e.text = none) :
    readReport opts parse unset works M e = .ok .skip := by
  unfold readReport readJSONFromFile
  cases hr : e.isReport opts with
  | false => rfl
  | true =>
    rcases h with h | h
    · rw [hr] at h
      cases h
    · rw [h]
      rfl

theorem WellFormedReport.handled (h : WellFormedReport opts parse works M e)
    (unset : Nat → ArgDirection × Bool) :
    Handled parse e (readReport opts parse unset works M e) := by
  cases hr : e.isReport opts with
  | false =>
    rw [readReport_skip (.inl hr)]
    trivial
  | true =>
    cases ht : e.text with
    | none =>
      rw [readReport_skip (.inr ht)]
      trivial
    | some text =>
      obtain ⟨o, funcName, hp, hn, hF⟩ := h hr text ht
      rw [readReport_of_text hr ht, hp]
      dsimp only
      by_cases hw : ∃ F, M.getFunction funcName = some F ∧ F.index ∈ works
      · obtain ⟨F, hg, hw⟩ := hw
        obtain ⟨elems, ha, hdec⟩ := hF F hg hw
        rw [decodeReport_works hn hg hw, ha]
        dsimp only
        split
        · trivial
        · exact ⟨text, _, elems, ht, hp, ha, decodedFrom_decodeSpecs hdec⟩
      · rw [decodeReport_other hn fun F hg hw' => hw ⟨F, hg, hw'⟩]
        trivial

/-- Only well-formed reports are handled, whatever undecoded specifications hold. -/
theorem WellFormedReport.of_handled
    (h : ∀ unset, Handled parse e (readReport opts parse unset works M e)) :
    WellFormedReport opts parse works M e := by
  intro hr text ht
  -- what is not decoded is outbound
  have hu := h fun _ => (.outbound, false)
  rw [readReport_of_text hr ht] at hu
  cases hp : parse text with
  | none =>
    rw [hp] at hu
    cases hu
  | some v =>
    rw [hp] at hu
    dsimp only at hu
    by_cases hv : ∃ o funcName, v = .object o ∧ JsonObject.getString o "func" = some funcName
    · obtain ⟨o, funcName, rfl, hn⟩ := hv
      refine ⟨o, funcName, rfl, hn, fun F hg hw => ?_⟩
      rw [decodeReport_works hn hg hw] at hu
      cases ha : Json.argspecs (.object o) with
      | none =>
        rw [ha] at hu
        cases hu
      | some elems =>
        refine ⟨elems, rfl, fun el hel => ?_⟩
        by_contra hno
        obtain ⟨i, s, hi, hs, hd⟩ := exists_kept (fun _ => (.outbound, false)) hel
          (by simpa using hno)
        have hany : ((decodeSpecs (fun _ => (.outbound, false)) elems).any
            fun e => isOutbound e.direction) = true :=
          List.any_eq_true.2 ⟨s, List.mem_of_getElem? hs, by rw [hd]; decide⟩
        rw [ha] at hu
        simp only [hany, Bool.not_true, Bool.false_and, Bool.false_eq_true, ite_false] at hu
        obtain ⟨text', v', elems', ht', hp', ha', -, hdec⟩ := hu
        rw [ht, Option.some.injEq] at ht'
        subst ht'
        rw [hp, Option.some.injEq] at hp'
        subst hp'
        rw [ha, Option.some.injEq] at ha'
        subst ha'
        have := hdec i el s hi hs .inbound false
        rw [fromJSON_eq] at this
        simp [(by simpa using hno : decodeFields el = none)] at this
    · rw [decodeReport_malformed fun o funcName ho hn => hv ⟨o, funcName, ho, hn⟩] at hu
      cases hu

/-- An entry is handled, whatever undecoded specifications hold, exactly if it is not read or has a
well-formed report. -/
theorem handled_iff : (∀ unset, Handled parse e (readReport opts parse unset works M e)) ↔
    WellFormedReport opts parse works M e :=
  ⟨.of_handled, fun h unset => h.handled unset⟩

end

/-- A text that is an array, where an object is expected, stops the process. -/
theorem not_handled_array : ¬ ∀ unset, Handled (fun _ => some (.array []))
    ⟨"lpc.f.json", true, some "[]"⟩
    (readReport {} (fun _ => some (.array [])) unset (workList {} plainModule) plainModule
      ⟨"lpc.f.json", true, some "[]"⟩) := by
  intro h
  obtain ⟨o, funcName, hp, -⟩ := WellFormedReport.of_handled h (by decide) "[]" rfl
  cases hp

end Ephippion
