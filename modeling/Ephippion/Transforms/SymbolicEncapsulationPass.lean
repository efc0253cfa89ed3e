import Ephippion.Exchange.JSONTransfer
import Ephippion.Transforms.SymbolicEncapsulation

/-!
# `SymbolicEncapsulationPass`

The pass reads the reports of a directory, in the order in which the directory lists them, and
encapsulates the function each one names with the specifications it gives. What the environment
gives it (the options, the directory, the parser) is data, and so is what an `ArgSpec` holds before
it is decoded (`Unset`): its direction and its flag are not initialised.
-/

namespace Ephippion

/-- Why a pass stops before its end. -/
inductive PassStop
  /-- `report_fatal_error`. -/
  | fatalError
  /-- A null pointer to an object or an array, or an empty `Optional`, is dereferenced. -/
  | nullDereference
  | generation (stop : Stop)
  deriving DecidableEq, Repr

structure Options where
  jsonDescriptionFilename : String := ""
  reportsDir : String := ""
  reportPrefix : String := "lpc."
  iterationsNum : IterationsNumTy := 1
  forceEncapsulation : Bool := false
  /-- The words of the white list's file, if the option is given. -/
  functionWhiteList : Option (List String) := none
  deriving DecidableEq, Repr

/-- An entry of the reports' directory: can its status be read, and its text, if it can be
opened. -/
structure DirEntry where
  filename : String
  status : Bool
  text : Option String
  deriving DecidableEq, Repr

/-- The fields of the `i`-th specification of the `k`-th file before it is decoded. -/
abbrev Unset := Nat → Nat → ArgDirection × Bool

/-- `ReadJSONFromFile`: a file that cannot be opened is an error code (`none`); a text that cannot
be parsed has none. -/
def readJSONFromFile (parse : String → Option Json) (text : Option String) :
    Except PassStop (Option Json) :=
  match text with
  | none => .ok none
  | some str => match parse str with
    | some v => .ok (some v)
    | none => .error .fatalError

/-- `*x` and `x->` of something that may be absent. -/
def deref {α : Type} : Option α → Except PassStop α
  | some a => .ok a
  | none => .error .nullDereference

@[simp] theorem deref_some {α : Type} (a : α) : deref (some a) = .ok a := rfl

@[simp] theorem deref_none {α : Type} : deref (none : Option α) = .error .nullDereference := rfl

/-- What is done with a report. -/
inductive ReportAction
  | skip
  | encapsulate (F : Nat) (argSpecs : List ArgSpec)
  deriving DecidableEq, Repr

/-- The loop over the specifications: whether one can be decoded is not looked at. -/
def decodeSpecs (unset : Nat → ArgDirection × Bool) (asa : List Json) : List ArgSpec :=
  asa.zipIdx.map fun (e, i) => (fromJSON e ⟨"", (unset i).1, (unset i).2⟩).2

/-- The defined functions, those of the white list if there is one. -/
def workList (opts : Options) (M : Module) : List Nat :=
  (List.range M.functions.length).filter fun F => match M.functions[F]? with
    | some f => !f.isDeclaration && match opts.functionWhiteList with
      | some names => names.contains f.name
      | none => true
    | none => false

section
variable (senc : SymbolicEncapsulation) (opts : Options) (parse : String → Option Json)

/-- What is looked at before an entry is read: how its name starts and ends, and its status. -/
def DirEntry.isReport (e : DirEntry) : Bool :=
  opts.reportPrefix.toList.isPrefixOf e.filename.toList &&
    ".json".toList.isSuffixOf e.filename.toList && e.status

/-- What is made of a report, up to the call of `encapsulate`. -/
def decodeReport (unset : Nat → ArgDirection × Bool) (works : List Nat) (M : Module) (v : Json) :
    Except PassStop ReportAction := do
  let o ← deref v.getAsObject
  let funcName ← deref (o.getString "func")
  match M.getFunction funcName with
  | none => return .skip
  | some F =>
    if F.index ∉ works then return .skip
    let args ← deref (o.getObject "args")
    let asa ← deref (args.getArray "argspecs")
    let argSpecs := decodeSpecs unset asa
    let requiresConditions := argSpecs.any fun e => isOutbound e.direction
    if !requiresConditions && !opts.forceEncapsulation then return .skip
    return .encapsulate F.index argSpecs

/-- The body of the loop over the directory up to there. -/
def readReport (unset : Nat → ArgDirection × Bool) (works : List Nat) (M : Module) (e : DirEntry) :
    Except PassStop ReportAction := do
  if !e.isReport opts then return .skip
  match ← readJSONFromFile parse e.text with
  | none => return .skip
  | some v => decodeReport opts unset works M v

/-- One round of the loop; `hasChanged` goes with the module. -/
def reportStep (unset : Unset) (works : List Nat) (s : Module × Bool) (e : DirEntry × Nat) :
    Except PassStop (Module × Bool) := do
  match ← readReport opts parse (unset e.2) works s.1 e.1 with
  | .skip => return s
  | .encapsulate F argSpecs =>
    match senc.encapsulate s.1 F opts.iterationsNum argSpecs with
    | .error stop => throw (.generation stop)
    | .ok (M, changed) => return (M, s.2 || changed)

/-- The loop over the directory. -/
def reportLoop (unset : Unset) (works : List Nat) (M : Module) (entries : List DirEntry) :
    Except PassStop (Module × Bool) :=
  entries.zipIdx.foldlM (reportStep senc opts parse unset works) (M, false)

end

/-- `run(M)`; `dir` are the entries of the reports' directory, if it exists. -/
def SymbolicEncapsulationPass.run (opts : Options) (parse : String → Option Json) (unset : Unset)
    (dir : Option (List DirEntry)) (M : Module) : Except PassStop (Module × Bool) :=
  if opts.jsonDescriptionFilename = "" && opts.reportsDir = "" then .ok (M, false)
  else if (workList opts M).isEmpty || opts.reportsDir = "" then .ok (M, false)
  else match dir with
    | some entries => reportLoop {} opts parse unset (workList opts M) M entries
    | none => .ok (M, false)

/-- `PreservedAnalyses::all()` and `PreservedAnalyses::none()`. -/
inductive PreservedAnalyses
  | all | none
  deriving DecidableEq, Repr

/-- `run(M, MAM)`, the entry of the new pass manager. -/
def SymbolicEncapsulationPass.runMAM (opts : Options) (parse : String → Option Json)
    (unset : Unset) (dir : Option (List DirEntry)) (M : Module) :
    Except PassStop (Module × PreservedAnalyses) := do
  let (M, hasChanged) ← SymbolicEncapsulationPass.run opts parse unset dir M
  return (M, if hasChanged then .all else .none)

end Ephippion
