import Ephippion.Theorems.Operands
import Ephippion.Theorems.Typing
import Mathlib.Data.List.Count

/-!
# The verifier

What LLVM's verifier asks of a function, as far as its instructions are known: the flow graph is
closed and nothing branches to its entry, each instruction has operands of the right types and they
are defined before it (`Module.Verifies`). Of foreign instructions only the branches are looked at.
Code stays verified when its module grows: when there are new functions, and new blocks at the end
of a function that do not branch to the old ones (`Module.Grows`, `Module.BlockVerifies.grows`).
-/

namespace Ephippion

open Graph

namespace Ty

def isIntOrIntVectorTy : Ty → Bool
  | .integer _ | .vector (.integer _) _ => true
  | _ => false

def isPtrOrPtrVectorTy : Ty → Bool
  | .pointer _ _ | .vector (.pointer _ _) _ => true
  | _ => false

end Ty

/-- The values an instruction uses in its block; a `phi` uses none there. -/
def Op.operands : Op → List Value
  | load v | cast _ v _ | condBr v _ _ | ret v => [v]
  | add l r | sub l r | icmp _ l r => [l, r]
  | call _ args => args
  | alloca _ _ | phi _ _ | br _ | unreachable | foreign _ _ _ => []

/-- `CastInst::castIsValid`. -/
def CastValid : CastOp → Ty → Ty → Prop
  | .bitCast, .pointer _ a, .pointer _ b => a = b
  | .bitCast, .pointer _ _, _ | .bitCast, _, .pointer _ _ => False
  | .bitCast, src, dst => src.getPrimitiveSizeInBits = dst.getPrimitiveSizeInBits
  | .zext, .integer a, .integer b => a < b
  | .zext, .vector (.integer a) n, .vector (.integer b) n' => n = n' ∧ a < b
  | .zext, _, _ => False

namespace Module

/-- What is asked of an instruction of function `h` apart from where its operands come from. -/
def Checks (M : Module) (h : Nat) : Op → Prop
  | .alloca _ addrSpace => addrSpace = M.dataLayout.getAllocaAddrSpace
  | .load v => v.getType.isPointerTy
  | .cast op v type => CastValid op v.getType type
  | .add l r | .sub l r => l.getType = r.getType ∧ l.getType.isIntOrIntVectorTy
  | .icmp _ l r =>
    l.getType = r.getType ∧ (l.getType.isIntOrIntVectorTy ∨ l.getType.isPtrOrPtrVectorTy)
  | .phi type inc => ∀ a ∈ inc, a.1.getType = type
  | .call callee args =>
    M.sig[callee.index]? = some (callee.name, callee.type) ∧ WellTypedCall callee args
  | .condBr v _ _ => v.getType = .int1Ty
  | .ret v => M.sig[h]?.map (·.2.ret) = some v.getType
  | .br _ | .unreachable | .foreign _ _ _ => True

/-- A `phi` of block `b` has a value for each branch to it, the same one for branches from one
block, and each is defined where its block ends. -/
structure PhiVerifies (M : Module) (h b : Nat) (inc : List (Value × Nat)) : Prop where
  preds : ∀ a, (inc.map (·.2)).count a = (M.succs h a).count b
  same : ∀ p ∈ inc, ∀ q ∈ inc, p.2 = q.2 → p.1 = q.1
  available : ∀ p ∈ inc, M.AvailableAt h ⟨p.2, (M.instrs h p.2).length⟩ p.1

structure BlockVerifies (M : Module) (h b : Nat) : Prop where
  terminated : ∃ pre t, M.instrs h b = pre ++ [t] ∧
    (∀ i ∈ pre, i.op.isTerminator = false) ∧ t.op.isTerminator = true
  inside : ∀ i ∈ M.instrs h b, ∀ d ∈ i.op.succs, d < (M.blocks h).length
  checks : ∀ i ∈ M.instrs h b, M.Checks h i.op
  operands : ∀ k i, (M.instrs h b)[k]? = some i → ∀ v ∈ i.op.operands, M.AvailableAt h ⟨b, k⟩ v
  phis : ∀ i ∈ M.instrs h b, ∀ type inc, i.op = .phi type inc → M.PhiVerifies h b inc
  phis_first : ∀ k i, (M.instrs h b)[k]? = some i → i.op.incoming.isSome →
    ∀ i' ∈ (M.instrs h b).take k, i'.op.incoming.isSome

structure Verifies (M : Module) (h : Nat) : Prop where
  no_preds : ∀ a, ¬ M.Edge h a 0
  blocks : ∀ b < (M.blocks h).length, M.BlockVerifies h b

/-- Every function does; a declaration has nothing to verify. -/
def Verified (M : Module) : Prop := ∀ h, M.Verifies h

theorem Verifies.of_bodiless {M : Module} {h : Nat} (hb : M.blocks h = []) : M.Verifies h where
  no_preds a he := by
    have := he.lt
    rw [hb] at this
    exact absurd this (Nat.not_lt_zero a)
  blocks b hlt := by
    rw [hb] at hlt
    exact absurd hlt (Nat.not_lt_zero b)

theorem Verified.branchesInside {M : Module} (hM : M.Verified) : M.BranchesInside := by
  intro f hf B hB i hi d hd
  obtain ⟨h, hh⟩ := List.getElem?_of_mem hf
  obtain ⟨b, hb⟩ := List.getElem?_of_mem hB
  have hblocks : M.blocks h = f.blocks := by rw [Module.blocks, hh]; rfl
  have hinstrs : M.instrs h b = B.instrs := by rw [Module.instrs, hblocks, hb]; rfl
  have hlt := (List.getElem?_eq_some_iff.1 hb).1
  rw [← hblocks] at hlt ⊢
  exact ((hM h).blocks b hlt).inside i (hinstrs ▸ hi) d hd

/-! ## Growth -/

/-- `M'` has what `M` has and may have more: of function `g`, blocks that only branch to new
ones. -/
structure Grows (g : Nat) (M M' : Module) : Prop where
  dataLayout : M'.dataLayout = M.dataLayout
  sig : ∀ (k : Nat) s, M.sig[k]? = some s → M'.sig[k]? = some s
  length : (M.blocks g).length ≤ (M'.blocks g).length
  old : ∀ b < (M.blocks g).length, M'.instrs g b = M.instrs g b
  new : ∀ a, (M.blocks g).length ≤ a → ∀ d ∈ M'.succs g a, (M.blocks g).length ≤ d

section
variable {M M' : Module} {g b : Nat}

theorem Grows.succs (hg : Grows g M M') {a : Nat} (ha : a < (M.blocks g).length) :
    M'.succs g a = M.succs g a := by
  rw [Module.succs, Module.succs, hg.old a ha]

theorem succs_of_le (hb : (M.blocks g).length ≤ b) : M.succs g b = [] := by
  rw [Module.succs, instrs_of_le hb]
  rfl

theorem Grows.checks (hg : Grows g M M') {op : Op} (hc : M.Checks g op) : M'.Checks g op := by
  cases op with
  | alloca type addrSpace =>
    show addrSpace = M'.dataLayout.getAllocaAddrSpace
    rw [hg.dataLayout]
    exact hc
  | call callee args => exact ⟨hg.sig _ _ hc.1, hc.2⟩
  | ret v =>
    obtain ⟨s, hs, hret⟩ := Option.map_eq_some_iff.1 hc
    exact Option.map_eq_some_iff.2 ⟨s, hg.sig _ _ hs, hret⟩
  | _ => exact hc

theorem Grows.path (hg : Grows g M M') {a : Nat} {p : List Nat} (hp : Path (M'.Edge g) a p b)
    (hb : b < (M.blocks g).length) : a < (M.blocks g).length ∧ Path (M.Edge g) a p b := by
  induction hp with
  | single => exact ⟨hb, .single _⟩
  | @cons a a' b p he _ ih =>
    obtain ⟨ha', hp⟩ := ih hb
    have ha : a < (M.blocks g).length := by
      by_contra hn
      have := hg.new a (Nat.le_of_not_lt hn) a' he
      omega
    refine ⟨ha, .cons ?_ hp⟩
    rwa [Edge, ← hg.succs ha]

theorem Grows.available (hg : Grows g M M') {ref : InstRef} (hb : ref.block < (M.blocks g).length)
    {v : Value} (hv : M.AvailableAt g ref v) : M'.AvailableAt g ref v := by
  cases v with
  | inst ref' type name isAlloca =>
    obtain ⟨⟨i, hi, htype⟩, hbefore⟩ := hv
    have hlt : ref'.block < (M.blocks g).length := by
      by_contra hn
      rw [instrs_of_le (Nat.le_of_not_lt hn)] at hi
      cases hi
    refine ⟨⟨i, by rw [hg.old _ hlt]; exact hi, htype⟩, hbefore.imp_right fun ⟨hne, hdom⟩ => ?_⟩
    exact ⟨hne, fun p hp => hdom p (hg.path hp hb).2⟩
  | detachedCast op v type => exact hv
  | _ => trivial

theorem PhiVerifies.grows {inc : List (Value × Nat)} (hv : M.PhiVerifies g b inc)
    (hg : Grows g M M') (hb : b < (M.blocks g).length) : M'.PhiVerifies g b inc where
  preds a := by
    rw [hv.preds a]
    rcases Nat.lt_or_ge a (M.blocks g).length with ha | ha
    · rw [hg.succs ha]
    · rw [succs_of_le ha, List.count_nil, List.count_eq_zero_of_not_mem fun hd => ?_]
      exact absurd (hg.new a ha b hd) (Nat.not_le_of_lt hb)
  same := hv.same
  available p hp := by
    -- what it is a value for branches to the block
    have hlt : p.2 < (M.blocks g).length := by
      by_contra hn
      have hcount := hv.preds p.2
      rw [succs_of_le (Nat.le_of_not_lt hn), List.count_nil, List.count_eq_zero] at hcount
      exact hcount (List.mem_map_of_mem hp)
    rw [hg.old _ hlt]
    exact hg.available hlt (hv.available p hp)

theorem BlockVerifies.grows (hv : M.BlockVerifies g b) (hg : Grows g M M')
    (hb : b < (M.blocks g).length) : M'.BlockVerifies g b := by
  have hcode := hg.old b hb
  refine ⟨?_, ?_, ?_, ?_, ?_, ?_⟩ <;> rw [hcode]
  · exact hv.terminated
  · exact fun i hi d hd => Nat.lt_of_lt_of_le (hv.inside i hi d hd) hg.length
  · exact fun i hi => hg.checks (hv.checks i hi)
  · exact fun k i hi v hm => hg.available hb (hv.operands k i hi v hm)
  · exact fun i hi type inc hop => (hv.phis i hi type inc hop).grows hg hb
  · exact hv.phis_first

/-- A function verifies if it did before and its new blocks do. -/
theorem Verifies.grows (hv : M.Verifies g) (hg : Grows g M M')
    (hentry : (M.blocks g).length = 0 → ∀ a, ¬ M'.Edge g a 0)
    (hnew : ∀ b, (M.blocks g).length ≤ b → b < (M'.blocks g).length → M'.BlockVerifies g b) :
    M'.Verifies g where
  no_preds a he := by
    by_cases h0 : (M.blocks g).length = 0
    · exact hentry h0 a he
    · rcases Nat.lt_or_ge a (M.blocks g).length with ha | ha
      · exact hv.no_preds a (by rwa [Edge, ← hg.succs ha])
      · exact absurd (hg.new a ha 0 he) (by omega)
  blocks b hb := by
    rcases Nat.lt_or_ge b (M.blocks g).length with hlt | hge
    · exact (hv.blocks b hlt).grows hg hlt
    · exact hnew b hge hb

end

end Module

end Ephippion
