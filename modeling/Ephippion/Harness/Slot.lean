import Ephippion.Transforms.SymbolicEncapsulation

/-!
# Slots

A slot is what the generator makes of one parameter: the parameter, its specification, and where
its storage is created in the setup block: at position `idx` the first copy, right after it the
second one if the parameter is outbound. `IsLayout params specs slots` says that `slots` are the
slots of the parameters, laid out one after the other; everything the helpers emit is a function of
the slots (`setupInstrs`, `value1`, `value2`, `symInstrs`).
-/

namespace Ephippion

structure Slot where
  param : Param
  pos : Nat
  spec : ArgSpec
  idx : Nat
  name1 : String
  name2 : String
  deriving DecidableEq, Repr

/-- What a parameter's storage holds elements of: the pointee of a pointer, the value itself. -/
def Param.elemTy (p : Param) : Ty :=
  if p.type.isPointerTy then p.type.getPointerElementType else p.type

namespace Slot

def isPtr (s : Slot) : Bool := s.param.type.isPointerTy

def outbound (s : Slot) : Bool := isOutbound s.spec.direction

def inbound (s : Slot) : Bool := isInbound s.spec.direction

/-- Made symbolic: not outbound only. -/
def symbolized (s : Slot) : Bool := !isOnlyOutbound s.spec.direction

/-- The number of copies. -/
def width (s : Slot) : Nat := if s.outbound then 2 else 1

/-- The position of the second copy: the first one's if there is none. -/
def idx2 (s : Slot) : Nat := if s.outbound then s.idx + 1 else s.idx

/-- The number of bytes of a copy, a `uint64_t`. -/
def allocSize (dl : DataLayout) (n : IterationsNumTy) (s : Slot) : BitVec 64 :=
  (if s.isPtr then multiplier s.spec n else 1) * dl.getTypeAllocSize s.param.elemTy

section
variable (setup : Nat) (dl : DataLayout) (n : IterationsNumTy)

/-- A copy is an alloca, or the `i8*` of a `malloc`. -/
def copyTy (s : Slot) : Ty :=
  if s.isPtr then .int8PtrTy else .pointer s.param.type dl.getAllocaAddrSpace

/-- The copy at position `i`. -/
def value (s : Slot) (i : Nat) (name : String) : Value :=
  .inst ⟨setup, i⟩ (s.copyTy dl) name !s.isPtr

def value1 (s : Slot) : Value := s.value setup dl s.idx s.name1

def value2 (s : Slot) : Value :=
  if s.outbound then s.value setup dl (s.idx + 1) s.name2 else s.value1 setup dl

/-- The values that are freed, in the order of their allocation. -/
def heapValues (s : Slot) : List Value :=
  if s.isPtr then
    if s.outbound then [s.value1 setup dl, s.value2 setup dl] else [s.value1 setup dl]
  else []

/-- What creates a copy. -/
def setupOp (malloc : FuncRef) (s : Slot) : Op :=
  if s.isPtr then .call malloc [getIntN 64 (s.allocSize dl n)]
  else .alloca s.param.type dl.getAllocaAddrSpace

def setupInstrs (malloc : FuncRef) (s : Slot) : List Instr :=
  if s.outbound then [⟨s.setupOp dl n malloc, s.name1⟩, ⟨s.setupOp dl n malloc, s.name2⟩]
  else [⟨s.setupOp dl n malloc, s.name1⟩]

/-- The name of a copy's symbolic object; `which` is 1 or 2. -/
def symName (which : String) (name : String) (s : Slot) : String :=
  "sym.in" ++ which ++ "." ++ name ++ toString s.pos

/-- What makes a slot symbolic. -/
def symInstrs (symbolize memcpy : FuncRef) (s : Slot) : List Instr :=
  let size := getIntN 64 (s.allocSize dl n)
  if s.symbolized then
    ⟨.call symbolize [s.value1 setup dl, size, .globalString (s.symName "1" s.name1)], ""⟩ ::
      if s.outbound then
        [⟨.call symbolize [s.value2 setup dl, size, .globalString (s.symName "2" s.name2)], ""⟩,
          ⟨.call memcpy [s.value2 setup dl, s.value1 setup dl, size], ""⟩]
      else []
  else []

end

theorem type_setupOp {dl : DataLayout} {n : IterationsNumTy} {malloc : FuncRef}
    (hm : malloc.type.ret = .int8PtrTy) (s : Slot) :
    (s.setupOp dl n malloc).type = s.copyTy dl := by
  unfold setupOp copyTy
  split
  · exact hm
  · rfl

theorem isAlloca_setupOp (dl : DataLayout) (n : IterationsNumTy) (malloc : FuncRef) (s : Slot) :
    (s.setupOp dl n malloc).isAlloca = !s.isPtr := by
  unfold setupOp
  split
  · rename_i hptr; rw [hptr]; rfl
  · rename_i hptr; rw [Bool.eq_false_iff.2 hptr]; rfl

@[simp] theorem length_setupInstrs (dl : DataLayout) (n : IterationsNumTy) (malloc : FuncRef)
    (s : Slot) : (s.setupInstrs dl n malloc).length = s.width := by
  unfold setupInstrs width
  split <;> rfl

theorem width_pos (s : Slot) : 0 < s.width := by
  unfold width
  split <;> decide

theorem isPointerTy_copyTy (dl : DataLayout) (s : Slot) : (s.copyTy dl).isPointerTy = true := by
  unfold copyTy
  split <;> rfl

end Slot

/-! ## Layouts -/

/-- The number of positions the slots take. -/
def slotsWidth (slots : List Slot) : Nat := (slots.map Slot.width).sum

theorem slotsWidth_append (l l' : List Slot) :
    slotsWidth (l ++ l') = slotsWidth l + slotsWidth l' := by
  simp [slotsWidth]

theorem zip_take_length {α β : Type} : ∀ (l : List α) (l' : List β),
    l.zip (l'.take l.length) = l.zip l'
  | [], _ => rfl
  | _ :: _, [] => rfl
  | a :: l, b :: l' => congrArg ((a, b) :: ·) (zip_take_length l l')

structure IsLayout (params : List Param) (specs : List ArgSpec) (slots : List Slot) : Prop where
  params_eq : slots.map (·.param) = params
  at_pos : ∀ (k : Nat) (s : Slot), slots[k]? = some s →
    s.pos = k ∧ specs[k]? = some s.spec ∧ s.idx = slotsWidth (slots.take k)
  /-- What `malloc` returns has no name. -/
  unnamed : ∀ s ∈ slots, s.isPtr → s.name1 = "" ∧ s.name2 = ""

namespace IsLayout

variable {params : List Param} {specs : List ArgSpec} {slots : List Slot}

theorem nil (specs : List ArgSpec) : IsLayout [] specs [] :=
  ⟨rfl, fun k s h => by simp at h, fun s h => by simp at h⟩

theorem length (hl : IsLayout params specs slots) : slots.length = params.length := by
  rw [← hl.params_eq, List.length_map]

theorem slot_at (hl : IsLayout params specs slots) {k : Nat} {p : Param}
    (hp : params[k]? = some p) :
    ∃ s, slots[k]? = some s ∧ s.param = p ∧ s.pos = k ∧ specs[k]? = some s.spec := by
  rw [← hl.params_eq, List.getElem?_map, Option.map_eq_some_iff] at hp
  obtain ⟨s, hs, hp⟩ := hp
  obtain ⟨h1, h2, -⟩ := hl.at_pos k s hs
  exact ⟨s, hs, hp, h1, h2⟩

theorem snoc (hl : IsLayout params specs slots) {p : Param} {spec : ArgSpec} {n1 n2 : String}
    (hs : specs[params.length]? = some spec) (hn : p.type.isPointerTy → n1 = "" ∧ n2 = "") :
    IsLayout (params ++ [p]) specs
      (slots ++ [⟨p, params.length, spec, slotsWidth slots, n1, n2⟩]) := by
  refine ⟨by simp [hl.params_eq], fun k s h => ?_, fun s h => ?_⟩
  swap
  · rcases List.mem_append.1 h with h | h
    · exact hl.unnamed s h
    · rw [List.mem_singleton.1 h]
      exact hn
  rcases Nat.lt_trichotomy k slots.length with hk | hk | hk
  · rw [List.getElem?_append_left hk] at h
    obtain ⟨h1, h2, h3⟩ := hl.at_pos k s h
    refine ⟨h1, h2, ?_⟩
    rw [h3, List.take_append_of_le_length (by omega)]
  · subst hk
    simp only [List.getElem?_concat_length, Option.some.injEq] at h
    subst h
    simp [hl.length, hs]
  · rw [List.getElem?_eq_none (by simp; omega)] at h
    cases h

theorem map_spec (hl : IsLayout params specs slots) :
    slots.map (·.spec) = specs.take params.length := by
  apply List.ext_getElem?
  intro k
  rw [List.getElem?_map, List.getElem?_take]
  split
  · rename_i hk
    rw [← hl.length] at hk
    rw [List.getElem?_eq_getElem hk, Option.map_some,
      (hl.at_pos k _ (List.getElem?_eq_getElem hk)).2.1]
  · rename_i hk
    rw [List.getElem?_eq_none (by rw [hl.length]; omega), Option.map_none]

/-- A parameter and its specification are a slot's; what is past the parameters is no one's. -/
theorem zip_eq (hl : IsLayout params specs slots) :
    params.zip specs = slots.map fun s => (s.param, s.spec) := by
  rw [← List.zip_map', hl.params_eq, hl.map_spec, zip_take_length]

end IsLayout

end Ephippion
