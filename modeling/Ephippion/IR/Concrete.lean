import Ephippion.IR.Module

/-!
# A context, a data layout and modules to compute with

Statements about one input need values for what LLVM decides: `LLVMContext.counting` renames a taken
name with the first free number, `DataLayout.lp64` has the sizes of a 64-bit target, `Module.of` is
a module of given functions.
-/

namespace Ephippion

/-- A string longer than those of a list. -/
def longer : List String → String
  | [] => "x"
  | s :: ss => s ++ longer ss

theorem length_lt_longer {s : String} : ∀ {ss : List String}, s ∈ ss → s.length < (longer ss).length
  | s' :: ss, h => by
    have hpos : ∀ l : List String, 0 < (longer l).length := fun l => by
      induction l with
      | nil => decide
      | cons a l ih => rw [longer, String.length_append]; omega
    rw [longer, String.length_append]
    rcases List.mem_cons.1 h with rfl | h
    · have := hpos ss
      omega
    · have := length_lt_longer h
      omega

/-- `name` if it is free, else the first free one of `name1`, `name2`, … -/
def freeName (taken : List String) (name : String) : String :=
  if name ∉ taken then name
  else (((List.range (taken.length + 1)).map fun k => name ++ toString (k + 1)).find?
    (· ∉ taken)).getD (longer taken)

theorem freeName_not_mem (taken : List String) (name : String) : freeName taken name ∉ taken := by
  unfold freeName
  split
  · assumption
  · cases hf : ((List.range (taken.length + 1)).map fun k => name ++ toString (k + 1)).find?
        (· ∉ taken) with
    | some x => simpa using List.find?_some hf
    | none => exact fun hm => absurd (length_lt_longer hm) (Nat.lt_irrefl _)

def LLVMContext.counting : LLVMContext where
  makeUniqueName := freeName
  not_mem := freeName_not_mem
  of_not_mem _ _ h := if_pos h

/-- Sizes in bytes on a 64-bit target; what has none here has size 0. -/
def Ty.allocSize64 : Ty → Nat
  | .half => 2
  | .float => 4
  | .double => 8
  | .x86FP80 | .fp128 | .ppcFP128 => 16
  | .x86MMX => 8
  | .integer bits => (bits + 7) / 8
  | .array elem n | .vector elem n => n * elem.allocSize64
  | .pointer _ _ => 8
  | _ => 0

def DataLayout.lp64 : DataLayout where
  getTypeAllocSize t := BitVec.ofNat 64 t.allocSize64
  getAllocaAddrSpace := 0
  int8_size := by decide

/-- A module of functions only. -/
def Module.of (functions : List Function) (h : (globalNames functions []).Nodup := by decide) :
    Module :=
  ⟨"m", .counting, .lp64, functions, [], [], h⟩

/-- `define void name(params) { ret void }`. -/
def emptyFunction (name : String) (params : List Param) : Function :=
  ⟨name, .void, params, false, [⟨"entry", [⟨.foreign .void (some []) "ret void", ""⟩]⟩]⟩

/-- A module of `f(i64)` only. -/
def plainModule : Module := .of [emptyFunction "f" [⟨"", .int64Ty⟩]]

/-- A module of a function `g` with three blocks that are still open, of which the second one calls
`f(i64)`, and `f`. -/
def openModule : Module :=
  .of [⟨"g", .void, [], false, [⟨"start", []⟩,
      ⟨"body", [⟨.call ⟨1, "f", ⟨.void, [.int64Ty], false⟩⟩ [.constInt 64 5], ""⟩]⟩, ⟨"end", []⟩]⟩,
    emptyFunction "f" [⟨"", .int64Ty⟩]]

/-- `f(i64 i, t* p)`. -/
def bufferFunction (t : Ty) : Function :=
  emptyFunction "f" [⟨"i", .int64Ty⟩, ⟨"p", .pointer t 0⟩]

/-- A module of that only. -/
def bufferModule (t : Ty) : Module :=
  .of [bufferFunction t] (by simp [globalNames, bufferFunction, emptyFunction])

end Ephippion
