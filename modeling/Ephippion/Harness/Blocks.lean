import Ephippion.Harness.Check
import Ephippion.Harness.Operand

/-!
# The harness in closed form

What the generator builds, block by block: `Harness` holds what the blocks depend on, `HBlock` names
the blocks, `Harness.id` is a block's index in the function and `Harness.instrs` its code. The first
twelve blocks are created first, then a condition and a fail block for each check, then the two
loops' blocks.
-/

namespace Ephippion

/-! ## The blocks of a loop -/

/-- The induction variable of the loop whose header is `hdr`. -/
def indVar (hdr : Nat) (name : String) : Value := .inst ⟨hdr, 0⟩ .int64Ty name false

/-- The header of a loop; `latch` and `exit` are the blocks after it. -/
def hdrCode (hdr body0 preheader : Nat) (start stop : BitVec 32) (name : String) : List Instr :=
  [⟨.phi .int64Ty [(getIntN 64 (start.setWidth 64), preheader),
      (.inst ⟨hdr + 1, 0⟩ .int64Ty "" false, hdr + 1)], name⟩,
    ⟨.icmp (LoopDirection.of start stop).pred (indVar hdr name) (getIntN 64 (stop.setWidth 64)),
      ""⟩,
    ⟨.condBr (.inst ⟨hdr, 1⟩ .int1Ty "" false) body0 (hdr + 2), ""⟩]

def latchCode (hdr : Nat) (start stop step : BitVec 32) (name : String) : List Instr :=
  [⟨(LoopDirection.of start stop).stepOp (indVar hdr name) step, ""⟩, ⟨.br hdr, ""⟩]

/-! ## The blocks of a check -/

/-- The block of the `j`-th of `m` conditions. -/
def condCode (dl : DataLayout) (n : IterationsNumTy) (memcmp : FuncRef) (base m endBlock j : Nat)
    (c : Check) : List Instr :=
  c.condInstrs dl n memcmp (condBlock base j) ++
    [⟨.condBr (c.cond (condBlock base j)) (nextBlock base m endBlock (j + 1)) (failBlock base j),
      ""⟩]

def failCode (assert : FuncRef) (args : List Value) : List Instr :=
  [⟨.call assert args, ""⟩, ⟨.unreachable, ""⟩]

/-- The arguments of every failure. -/
def assertArgs (modName funcName : String) : List Value :=
  [.globalString "FAILED", .globalString modName, getIntN 32 0, .globalString funcName]

/-! ## The block of a call -/

/-- The values with the types of the parameters from the `i`-th on. -/
def argsFrom (funcType : FunctionType) : List Value → Nat → List Arg
  | [], _ => []
  | v :: vs, i => ⟨v, funcType.getParamType i⟩ :: argsFrom funcType vs (i + 1)

/-- The block `b` that calls `func` and goes on to `latch`. -/
def callCode (func : FuncRef) (b latch : Nat) (args : List Arg) : List Instr :=
  operandInstrs args ++ [⟨.call func (operandValues b 0 args), ""⟩] ++ [⟨.br latch, ""⟩]

/-! ## The harness -/

inductive HBlock
  | setup | seSetup | call1Setup | call2Setup | call1 | call2 | call1Teardown | call2Teardown
  | seStart | seEnd | teardown | exit
  | cond (j : Nat)
  | fail (j : Nat)
  | hdr1 | latch1 | exit1 | hdr2 | latch2 | exit2
  deriving DecidableEq, Repr

/-- What the blocks depend on; `base` is the number of blocks the function had before. -/
structure Harness where
  base : Nat
  slots : List Slot
  n : IterationsNumTy
  dl : DataLayout
  func : FuncRef
  malloc : FuncRef
  free : FuncRef
  symbolize : FuncRef
  memcpy : FuncRef
  memcmp : FuncRef
  assert : FuncRef
  modName : String
  funcName : String
  ind1 : String
  ind2 : String

/-- The check of an outbound slot. -/
def Slot.check (setup : Nat) (dl : DataLayout) (s : Slot) : Check :=
  ⟨s.pos, s.value1 setup dl, s.value2 setup dl, s.spec⟩

namespace Harness

variable (H : Harness)

def checked : List Slot := H.slots.filter Slot.outbound

def checks : List Check := H.checked.map (Slot.check H.base H.dl)

/-- The number of checks. -/
def m : Nat := H.checked.length

def id : HBlock → Nat
  | .setup => H.base
  | .seSetup => H.base + 1
  | .call1Setup => H.base + 2
  | .call2Setup => H.base + 3
  | .call1 => H.base + 4
  | .call2 => H.base + 5
  | .call1Teardown => H.base + 6
  | .call2Teardown => H.base + 7
  | .seStart => H.base + 8
  | .seEnd => H.base + 9
  | .teardown => H.base + 10
  | .exit => H.base + 11
  | .cond j => condBlock (H.base + 12) j
  | .fail j => failBlock (H.base + 12) j
  | .hdr1 => H.base + 12 + 2 * H.m
  | .latch1 => H.base + 12 + 2 * H.m + 1
  | .exit1 => H.base + 12 + 2 * H.m + 2
  | .hdr2 => H.base + 12 + 2 * H.m + 3
  | .latch2 => H.base + 12 + 2 * H.m + 4
  | .exit2 => H.base + 12 + 2 * H.m + 5

def numBlocks : Nat := H.base + 12 + 2 * H.m + 6

/-- Is it a block of this harness? -/
def Valid : HBlock → Prop
  | .cond j | .fail j => j < H.m
  | _ => True

/-- What the first and the second call are given: the iterator and the copies' values. -/
def args1 : List Arg :=
  argsFrom H.func.type
    (indVar (H.id .hdr1) H.ind1 :: (H.slots.map (Slot.value1 H.base H.dl)).tail) 0

def args2 : List Arg :=
  argsFrom H.func.type
    (indVar (H.id .hdr2) H.ind2 :: (H.slots.map (Slot.value2 H.base H.dl)).tail) 0

def freeInstrs : List Instr :=
  (H.slots.flatMap (Slot.heapValues H.base H.dl)).reverse.map fun v => ⟨.call H.free [v], ""⟩

def instrs : HBlock → List Instr
  | .setup => H.slots.flatMap (Slot.setupInstrs H.dl H.n H.malloc) ++ [⟨.br (H.id .seSetup), ""⟩]
  | .seSetup => H.slots.flatMap (Slot.symInstrs H.base H.dl H.n H.symbolize H.memcpy) ++
      [⟨.br (H.id .call1Setup), ""⟩]
  | .call1Setup => [⟨.br (H.id .hdr1), ""⟩]
  | .call2Setup => [⟨.br (H.id .hdr2), ""⟩]
  | .call1 => callCode H.func (H.id .call1) (H.id .latch1) H.args1
  | .call2 => callCode H.func (H.id .call2) (H.id .latch2) H.args2
  | .call1Teardown => [⟨.br (H.id .call2Setup), ""⟩]
  | .call2Teardown => [⟨.br (H.id .seStart), ""⟩]
  | .seStart => [⟨.br (nextBlock (H.base + 12) H.m (H.id .seEnd) 0), ""⟩]
  | .seEnd => [⟨.br (H.id .teardown), ""⟩]
  | .teardown => H.freeInstrs ++ [⟨.br (H.id .exit), ""⟩]
  | .exit => [⟨.ret (getIntN 32 0), ""⟩]
  | .cond j => match H.checks[j]? with
    | some c => condCode H.dl H.n H.memcmp (H.base + 12) H.m (H.id .seEnd) j c
    | none => []
  | .fail _ => failCode H.assert (assertArgs H.modName H.funcName)
  | .hdr1 => hdrCode (H.id .hdr1) (H.id .call1) (H.id .call1Setup) 0 H.n H.ind1
  | .latch1 => latchCode (H.id .hdr1) 0 H.n 1 H.ind1
  | .exit1 => [⟨.br (H.id .call1Teardown), ""⟩]
  | .hdr2 => hdrCode (H.id .hdr2) (H.id .call2) (H.id .call2Setup) (H.n - 1) 0 H.ind2
  | .latch2 => latchCode (H.id .hdr2) (H.n - 1) 0 1 H.ind2
  | .exit2 => [⟨.br (H.id .call2Teardown), ""⟩]

@[simp] theorem length_checks : H.checks.length = H.m := by simp [checks, m]

end Harness

theorem checksAt_layout {params : List Param} {specs : List ArgSpec} {slots : List Slot}
    (hl : IsLayout params specs slots) (setup : Nat) (dl : DataLayout) :
    checksAt (slots.map (Slot.value1 setup dl)) (slots.map (Slot.value2 setup dl)) specs
      (List.range (slots.map (Slot.value1 setup dl)).length) =
      (slots.filter Slot.outbound).map (Slot.check setup dl) := by
  have hat : ∀ (l : List Slot) (k : Nat), (∀ j s, l[j]? = some s → slots[k + j]? = some s) →
      (List.range' k l.length).filterMap (checkAt (slots.map (Slot.value1 setup dl))
        (slots.map (Slot.value2 setup dl)) specs) =
      (l.filter Slot.outbound).map (Slot.check setup dl) := by
    intro l
    induction l with
    | nil => intro k _; rfl
    | cons s l ih =>
      intro k hk
      have hs : slots[k]? = some s := hk 0 s rfl
      obtain ⟨hpos, hspec, -⟩ := hl.at_pos k s hs
      have hrest := ih (k + 1) fun j s' hs' => by
        rw [Nat.add_assoc, Nat.add_comm 1 j]
        exact hk (j + 1) s' (by simpa using hs')
      have hc : checkAt (slots.map (Slot.value1 setup dl)) (slots.map (Slot.value2 setup dl)) specs
          k = if s.outbound then some (s.check setup dl) else none := by
        simp only [checkAt, List.getElem?_map, hs, Option.map_some, Option.bind_some, hspec,
          Slot.check, hpos, Slot.outbound]
      rw [List.length_cons, List.range'_succ, List.filterMap_cons, hc, hrest, List.filter_cons]
      cases s.outbound <;> rfl
  rw [checksAt, List.length_map, List.range_eq_range']
  exact hat slots 0 fun j s hs => by simpa using hs

end Ephippion
