import Ephippion.Harness.Slot

/-!
# Checks

A check is what the generator makes of one outbound position of the value vectors: a condition
block that compares the two values, or `memcmp`s what they point to, and a block for its failure.
`checksAt values1 values2 specs is` are the checks of the positions `is`, in order. The `j`-th
check's blocks are `condBlock base j` and `failBlock base j`; on truth it goes on to
`nextBlock`, which is the end after the last one.
-/

namespace Ephippion

structure Check where
  pos : Nat
  value1 : Value
  value2 : Value
  spec : ArgSpec
  deriving DecidableEq, Repr

namespace Check

/-- Is it what the values point to that is compared? -/
def byMemory (c : Check) : Bool := c.value1.getType.isPointerTy

def folded (c : Check) : Bool := c.value1.isConstant && c.value2.isConstant

/-- The number of bytes that are compared. -/
def size (dl : DataLayout) (n : IterationsNumTy) (c : Check) : BitVec 64 :=
  multiplier c.spec n * dl.getTypeAllocSize c.value1.getType.getPointerElementType

/-- What `memcmp` returns in block `b`. -/
def result (b : Nat) : Value := .inst ⟨b, 0⟩ .int32Ty "" false

def condInstrs (dl : DataLayout) (n : IterationsNumTy) (memcmp : FuncRef) (c : Check) (b : Nat) :
    List Instr :=
  if c.byMemory then
    [⟨.call memcmp [c.value1, c.value2, getIntN 64 (c.size dl n)], ""⟩,
      ⟨.icmp .eq (result b) (getIntN 32 0), ""⟩]
  else if c.folded then []
  else [⟨.icmp .eq c.value1 c.value2, ""⟩]

/-- The condition that is computed in block `b`. -/
def cond (c : Check) (b : Nat) : Value :=
  if c.byMemory then .inst ⟨b, 1⟩ .int1Ty "" false
  else if c.folded then .constICmp .eq c.value1 c.value2
  else .inst ⟨b, 0⟩ .int1Ty "" false

end Check

/-- The check of position `i`, if it is outbound. -/
def checkAt (values1 values2 : List Value) (specs : List ArgSpec) (i : Nat) : Option Check :=
  values1[i]?.bind fun v1 => values2[i]?.bind fun v2 => specs[i]?.bind fun spec =>
    if isOutbound spec.direction then some ⟨i, v1, v2, spec⟩ else none

def checksAt (values1 values2 : List Value) (specs : List ArgSpec) (is : List Nat) : List Check :=
  is.filterMap (checkAt values1 values2 specs)

def condBlock (base j : Nat) : Nat := base + 2 * j
def failBlock (base j : Nat) : Nat := base + 2 * j + 1

/-- Where the `j`-th of `m` checks is, and past the last one the end. -/
def nextBlock (base m endBlock j : Nat) : Nat := if j < m then condBlock base j else endBlock

/-- What compares the values with, memory checks aside: their type has a size. -/
def ChecksSized (dl : DataLayout) (checks : List Check) : Prop :=
  ∀ c ∈ checks, c.byMemory →
    dl.getTypeAllocSize c.value1.getType.getPointerElementType ≠ 0

theorem checkAt_eq_some {values1 values2 : List Value} {specs : List ArgSpec} {i : Nat}
    {c : Check} : checkAt values1 values2 specs i = some c ↔
      c.pos = i ∧ values1[i]? = some c.value1 ∧ values2[i]? = some c.value2 ∧
        specs[i]? = some c.spec ∧ isOutbound c.spec.direction := by
  simp only [checkAt, Option.bind_eq_some_iff]
  constructor
  · intro hx
    obtain ⟨v1, h1, v2, h2, spec, h3, h⟩ := hx
    split at h
    · rename_i ho
      cases h
      exact ⟨rfl, h1, h2, h3, ho⟩
    · cases h
  · rintro ⟨rfl, h1, h2, h3, ho⟩
    exact ⟨_, h1, _, h2, _, h3, by rw [if_pos ho]⟩

end Ephippion
