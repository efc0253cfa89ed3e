import Ephippion.IR.Builder

/-!
# `LoopIRBuilder::CreateLoop`

A counted loop around existing body blocks: a header with the induction variable and the exit
test, a latch with the step, an exit block. The direction is guessed from the bounds: an
increasing loop leaves at its end bound, a decreasing one only below it.
-/

namespace Ephippion

inductive LoopDirection
  | increasing | decreasing
  deriving DecidableEq, Repr

namespace LoopDirection

/-- The guess from the bounds. -/
def of (start stop : BitVec 32) : LoopDirection :=
  if stop < start then .decreasing else .increasing

/-- The comparison of the exit test. -/
def pred : LoopDirection → Pred
  | increasing => .slt
  | decreasing => .sge

def stepOp (d : LoopDirection) (ind : Value) (step : BitVec 32) : Op := match d with
  | increasing => .add ind (getIntN 64 (step.setWidth 64))
  | decreasing => .sub ind (getIntN 64 (step.setWidth 64))

end LoopDirection

/-- `e`'s branch to the latch, unless it has a terminator already. -/
def terminateBody (h latch : Nat) (M : Module) (e : Nat) : Module :=
  if (getTerminator (M.instrs h e)).isNone then M.append h e (.br latch) else M

/-- `CreateLoop(body, preheader, postexit, start, stop, step)` in function `h`; the result is the
induction variable. -/
def createLoop (M : Module) (h : Nat) (body : List Nat) (preheader postexit : Nat)
    (start : BitVec 32 := 0) (stop : BitVec 32 := 10) (step : BitVec 32 := 1) :
    Except Stop (Module × Value) := do
  match body with
  | [] => throw (.assertion "Body blocks is empty!")
  | body0 :: _ =>
    if start = stop then throw (.assertion "Loop bounds are equal!")
    let direction := LoopDirection.of start stop
    let (M, hdr) := M.createBlock h "hdr"
    let (M, latch) := M.createBlock h "latch"
    let (M, exit) := M.createBlock h "exit"
    -- add induction variable and loop condition
    let indRef : InstRef := ⟨hdr, (M.instrs h hdr).length⟩
    let (M, ind) := M.insert h (.atEnd hdr) (.phi .int64Ty []) "i"
    let (M, cond) :=
      M.createICmp h (.atEnd hdr) direction.pred ind (getIntN 64 (stop.setWidth 64))
    let M := M.append h hdr (.condBr cond body0 exit)
    -- add induction variable step and branch to header
    let (M, next) := M.insert h (.atEnd latch) (direction.stepOp ind step)
    let M := M.append h latch (.br hdr)
    -- add induction phi inputs
    let M := M.addIncoming h indRef (getIntN 64 (start.setWidth 64)) preheader
    let M := M.addIncoming h indRef next latch
    -- direct all unterminated body blocks to loop latch
    let M := body.foldl (terminateBody h latch) M
    let M := M.append h preheader (.br hdr)
    let M := M.append h exit (.br postexit)
    return (M, ind)

end Ephippion
