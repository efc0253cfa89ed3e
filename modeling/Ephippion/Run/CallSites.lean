import Ephippion.Harness.Graph
import Ephippion.Run.Sizes

/-!
# The library calls of a harness

Which calls of library functions a harness has (`CallSite`): each is about a slot's copies, and
every call in its blocks that is not one of the encapsulated function is one of these
(`HarnessAt.libraryCall_iff`). `Module.allocated` reads off the code how many bytes a value was
given; for a copy that is its slot's size (`HarnessAt.allocated`).
-/

namespace Ephippion

/-- The calls of library functions, by block. A slot without a second copy has calls for the first
one only. -/
inductive CallSite (H : Harness) : HBlock → FuncRef → List Value → Prop
  | malloc {s : Slot} : s ∈ H.slots → s.isPtr →
      CallSite H .setup H.malloc [getIntN 64 (s.allocSize H.dl H.n)]
  | symbolize1 {s : Slot} : s ∈ H.slots → s.symbolized →
      CallSite H .seSetup H.symbolize [s.value1 H.base H.dl, getIntN 64 (s.allocSize H.dl H.n),
        .globalString (s.symName "1" s.name1)]
  | symbolize2 {s : Slot} : s ∈ H.slots → s.symbolized → s.outbound →
      CallSite H .seSetup H.symbolize [s.value2 H.base H.dl, getIntN 64 (s.allocSize H.dl H.n),
        .globalString (s.symName "2" s.name2)]
  | memcpy {s : Slot} : s ∈ H.slots → s.symbolized → s.outbound →
      CallSite H .seSetup H.memcpy [s.value2 H.base H.dl, s.value1 H.base H.dl,
        getIntN 64 (s.allocSize H.dl H.n)]
  | memcmp {j : Nat} {s : Slot} : H.checked[j]? = some s →
      CallSite H (.cond j) H.memcmp [s.value1 H.base H.dl, s.value2 H.base H.dl,
        getIntN 64 (s.comparedSize H.dl H.n)]
  | assert {j : Nat} : j < H.m →
      CallSite H (.fail j) H.assert (assertArgs H.modName H.funcName)
  | free {s : Slot} {v : Value} : s ∈ H.slots → v ∈ s.heapValues H.base H.dl →
      CallSite H .teardown H.free [v]

/-- A call in one of the harness's blocks in function `h`, those that call the encapsulated function
left out. -/
def LibraryCall (M : Module) (h : Nat) (H : Harness) (callee : FuncRef) (args : List Value) :
    Prop :=
  ∃ b i, H.base ≤ b ∧ (∀ k : Copy, b ≠ H.id k.body) ∧ i ∈ M.instrs h b ∧
    i.op = .call callee args

/-- The number of bytes `v` was allocated with: an alloca's type's size, or what `malloc` was
asked for. -/
def Module.allocated (M : Module) (h : Nat) : Value → Option (BitVec 64)
  | .inst ref _ _ _ => match (M.instrs h ref.block)[ref.pos]?.map Instr.op with
    | some (.alloca t _) => some (M.dataLayout.getTypeAllocSize t)
    | some (.call callee [.constInt _ n]) => if callee.name = "malloc" then some n else none
    | _ => none
  | _ => none

/-! ## The code of the blocks -/

/-- Neither an allocation on the stack nor a call. -/
def Op.isOther : Op → Bool
  | .alloca _ _ | .call _ _ => false
  | _ => true

theorem operandInstrs_op {args : List Arg} {ins : Instr} (hi : ins ∈ operandInstrs args) :
    ∃ v, ins.op = .load v ∨ ∃ t, ins.op = .cast .bitCast v t := by
  obtain ⟨a, -, ha⟩ := List.mem_filterMap.1 hi
  unfold Arg.instr? at ha
  split at ha
  · split at ha
    · cases ha
      exact ⟨_, .inl rfl⟩
    · split at ha <;> cases ha
      exact ⟨_, .inr ⟨_, rfl⟩⟩
  · cases ha

theorem IsLayout.setupInstr {params : List Param} {specs : List ArgSpec} {slots : List Slot}
    (hl : IsLayout params specs slots) (dl : DataLayout) (n : IterationsNumTy) (malloc : FuncRef)
    {s : Slot} (hs : s ∈ slots) (k : Copy) : ∃ name,
      (slots.flatMap (Slot.setupInstrs dl n malloc))[s.obj k]? =
        some ⟨s.setupOp dl n malloc, name⟩ := by
  obtain ⟨i, hi⟩ := List.getElem?_of_mem hs
  obtain ⟨hlt, hget⟩ := List.getElem?_eq_some_iff.1 hi
  have hidx := (hl.at_pos i s hi).2.2
  have hsplit : slots = slots.take i ++ s :: slots.drop (i + 1) := by
    have h := (List.take_append_drop i slots).symm
    rwa [List.drop_eq_getElem_cons hlt, hget] at h
  have hle := s.obj_bounds k
  rw [hsplit, List.flatMap_append, List.flatMap_cons, List.getElem?_append_right (by
    rw [length_flatMap_setupInstrs]; omega), length_flatMap_setupInstrs, ← hidx,
    List.getElem?_append_left (by rw [Slot.length_setupInstrs]; omega)]
  unfold Slot.setupInstrs
  cases k with
  | first =>
    refine ⟨s.name1, ?_⟩
    rw [Slot.obj, Nat.sub_self]
    split <;> rfl
  | second =>
    cases hout : s.outbound with
    | true => exact ⟨s.name2, by simp [Slot.obj, Slot.idx2, hout]⟩
    | false => exact ⟨s.name1, by simp [Slot.obj, Slot.idx2, hout]⟩

namespace Harness

variable {H : Harness} {B : HBlock} {i : Instr} {callee : FuncRef} {args : List Value}

theorem heapValues_copy {s : Slot} {v : Value} (hv : v ∈ s.heapValues H.base H.dl) :
    s.isPtr ∧ ∃ k : Copy, v = s.valueOf H.base H.dl k := by
  unfold Slot.heapValues at hv
  split at hv
  · rename_i hptr
    refine ⟨hptr, ?_⟩
    split at hv
    · simp only [List.mem_cons, List.not_mem_nil, or_false] at hv
      rcases hv with rfl | rfl
      · exact ⟨.first, rfl⟩
      · exact ⟨.second, rfl⟩
    · rw [List.mem_singleton.1 hv]
      exact ⟨.first, rfl⟩
  · cases hv

/-- A body has one call, that of the encapsulated function. -/
theorem body_cases {k : Copy} (hi : i ∈ H.instrs k.body) :
    i.op = .call H.func (operandValues (H.id k.body) 0 (H.args k)) ∨ i.op.isOther := by
  rw [H.instrs_body k, callCode] at hi
  rcases List.mem_append.1 hi with hi | hi
  · rcases List.mem_append.1 hi with hi | hi
    · obtain ⟨v, hop | ⟨t, hop⟩⟩ := operandInstrs_op hi <;> exact .inr (by rw [hop]; rfl)
    · exact .inl (by rw [List.mem_singleton.1 hi])
  · exact .inr (by rw [List.mem_singleton.1 hi]; rfl)

/-- What stands in a block: the setup's allocas, calls of the encapsulated function or in the list,
and what is neither. -/
theorem op_cases (hB : H.Valid B) (hi : i ∈ H.instrs B) :
    (B = .setup ∧ i.op.isAlloca) ∨
      (∃ callee args, i.op = .call callee args ∧
        ((∃ k : Copy, B = k.body) ∨ CallSite H B callee args)) ∨
      i.op.isOther := by
  cases B with
  | call1 =>
    exact .inr ((body_cases (k := .first) hi).imp_left fun h => ⟨_, _, h, .inl ⟨.first, rfl⟩⟩)
  | call2 =>
    exact .inr ((body_cases (k := .second) hi).imp_left fun h => ⟨_, _, h, .inl ⟨.second, rfl⟩⟩)
  | setup =>
    rcases List.mem_append.1 hi with hi | hi
    · obtain ⟨s, hs, hi⟩ := List.mem_flatMap.1 hi
      have hop : i.op = s.setupOp H.dl H.n H.malloc := by
        unfold Slot.setupInstrs at hi
        split at hi
        · simp only [List.mem_cons, List.not_mem_nil, or_false] at hi
          rcases hi with rfl | rfl <;> rfl
        · rw [List.mem_singleton.1 hi]
      rw [hop, Slot.setupOp]
      split
      · rename_i hptr
        exact .inr (.inl ⟨_, _, rfl, .inr (.malloc hs hptr)⟩)
      · exact .inl ⟨rfl, rfl⟩
    · exact .inr (.inr (by rw [List.mem_singleton.1 hi]; rfl))
  | seSetup =>
    rcases List.mem_append.1 hi with hi | hi
    · obtain ⟨s, hs, hi⟩ := List.mem_flatMap.1 hi
      unfold Slot.symInstrs at hi
      dsimp only at hi
      split at hi
      · rename_i hsym
        rcases List.mem_cons.1 hi with rfl | hi
        · exact .inr (.inl ⟨_, _, rfl, .inr (.symbolize1 hs hsym)⟩)
        · split at hi
          · rename_i hout
            simp only [List.mem_cons, List.not_mem_nil, or_false] at hi
            rcases hi with rfl | rfl
            · exact .inr (.inl ⟨_, _, rfl, .inr (.symbolize2 hs hsym hout)⟩)
            · exact .inr (.inl ⟨_, _, rfl, .inr (.memcpy hs hsym hout)⟩)
          · cases hi
      · cases hi
    · exact .inr (.inr (by rw [List.mem_singleton.1 hi]; rfl))
  | cond j =>
    have hlt : j < H.checked.length := hB
    rw [H.instrs_cond (List.getElem?_eq_getElem hlt)] at hi
    simp only [List.mem_cons, List.not_mem_nil, or_false] at hi
    rcases hi with rfl | rfl | rfl
    · exact .inr (.inl ⟨_, _, rfl, .inr (.memcmp (List.getElem?_eq_getElem hlt))⟩)
    · exact .inr (.inr rfl)
    · exact .inr (.inr rfl)
  | fail j =>
    simp only [instrs, failCode, List.mem_cons, List.not_mem_nil, or_false] at hi
    rcases hi with rfl | rfl
    · exact .inr (.inl ⟨_, _, rfl, .inr (.assert hB)⟩)
    · exact .inr (.inr rfl)
  | teardown =>
    rcases List.mem_append.1 hi with hi | hi
    · obtain ⟨v, hv, rfl⟩ := List.mem_map.1 hi
      obtain ⟨s, hs, hv⟩ := List.mem_flatMap.1 (List.mem_reverse.1 hv)
      exact .inr (.inl ⟨_, _, rfl, .inr (.free hs hv)⟩)
    · exact .inr (.inr (by rw [List.mem_singleton.1 hi]; rfl))
  | hdr1 | hdr2 =>
    simp only [instrs, hdrCode, List.mem_cons, List.not_mem_nil, or_false] at hi
    rcases hi with rfl | rfl | rfl <;> exact .inr (.inr rfl)
  | latch1 | latch2 =>
    simp only [instrs, latchCode, List.mem_cons, List.not_mem_nil, or_false] at hi
    rcases hi with rfl | rfl
    · refine .inr (.inr ?_)
      unfold LoopDirection.stepOp
      dsimp only
      split <;> rfl
    · exact .inr (.inr rfl)
  | _ => exact .inr (.inr (by rw [List.mem_singleton.1 hi]; rfl))

theorem callSite_of_mem (hB : H.Valid B) (hi : i ∈ H.instrs B) (hop : i.op = .call callee args) :
    (∃ k : Copy, B = k.body) ∨ CallSite H B callee args := by
  rcases op_cases hB hi with ⟨-, h⟩ | ⟨callee', args', h, hc⟩ | h
  · rw [hop] at h
    cases h
  · cases hop.symm.trans h
    exact hc
  · rw [hop] at h
    cases h

theorem call_body {k : Copy} (hi : i ∈ H.instrs k.body) (hop : i.op = .call callee args) :
    callee = H.func ∧ args = operandValues (H.id k.body) 0 (H.args k) := by
  rcases body_cases hi with h | h
  · cases hop.symm.trans h
    exact ⟨rfl, rfl⟩
  · rw [hop] at h
    cases h

theorem alloca_setup (hB : H.Valid B) (hi : i ∈ H.instrs B) {t : Ty} {addrSpace : Nat}
    (hop : i.op = .alloca t addrSpace) : B = .setup := by
  rcases op_cases hB hi with ⟨h, -⟩ | ⟨callee, args, h, -⟩ | h
  · exact h
  · cases hop.symm.trans h
  · rw [hop] at h
    cases h

end Harness

theorem CallSite.mem {H : Harness} {B : HBlock} {callee : FuncRef} {args : List Value}
    (hc : CallSite H B callee args) :
    H.Valid B ∧ (∀ k : Copy, B ≠ k.body) ∧ ∃ name, ⟨.call callee args, name⟩ ∈ H.instrs B := by
  cases hc with
  | malloc hs hptr =>
    rename_i s
    refine ⟨trivial, fun k => by cases k <;> decide, s.name1, ?_⟩
    refine List.mem_append_left _ (List.mem_flatMap.2 ⟨s, hs, ?_⟩)
    have hop : s.setupOp H.dl H.n H.malloc =
        .call H.malloc [getIntN 64 (s.allocSize H.dl H.n)] := by
      rw [Slot.setupOp, if_pos hptr]
    rw [Slot.setupInstrs, hop]
    split <;> exact List.mem_cons_self
  | symbolize1 hs hsym =>
    rename_i s
    refine ⟨trivial, fun k => by cases k <;> decide, "", ?_⟩
    refine List.mem_append_left _ (List.mem_flatMap.2 ⟨s, hs, ?_⟩)
    simp [Slot.symInstrs, hsym]
  | symbolize2 hs hsym hout =>
    rename_i s
    refine ⟨trivial, fun k => by cases k <;> decide, "", ?_⟩
    refine List.mem_append_left _ (List.mem_flatMap.2 ⟨s, hs, ?_⟩)
    simp [Slot.symInstrs, hsym, hout]
  | memcpy hs hsym hout =>
    rename_i s
    refine ⟨trivial, fun k => by cases k <;> decide, "", ?_⟩
    refine List.mem_append_left _ (List.mem_flatMap.2 ⟨s, hs, ?_⟩)
    simp [Slot.symInstrs, hsym, hout]
  | memcmp hs =>
    rename_i j s
    refine ⟨(List.getElem?_eq_some_iff.1 hs).1, fun k he => (by cases k <;> cases he), "", ?_⟩
    rw [H.instrs_cond hs]
    exact List.mem_cons_self
  | assert hj => exact ⟨hj, fun k he => (by cases k <;> cases he), "", List.mem_cons_self⟩
  | free hs hv =>
    rename_i s v
    refine ⟨trivial, fun k => by cases k <;> decide, "", List.mem_append_left _ ?_⟩
    exact List.mem_map.2 ⟨v, List.mem_reverse.2 (List.mem_flatMap.2 ⟨s, hs, hv⟩), rfl⟩

/-! ## The calls of a harness that is there -/

section
variable {h F : Nat} {f : Function} {n : IterationsNumTy} {specs : List ArgSpec} {H : Harness}
  {M' : Module}

theorem HarnessAt.code_body (hat : HarnessAt h F f n specs H M') (k : Copy) :
    M'.instrs h (H.id k.body) =
      callCode H.func (H.id k.body) (H.id k.latch) (H.args k) := by
  rw [hat.code _ (H.valid_loop k).1, H.instrs_body k]

/-- The library calls of a harness are those in the list. -/
theorem HarnessAt.libraryCall_iff (hat : HarnessAt h F f n specs H M')
    (hlen : (M'.blocks h).length = H.numBlocks) {callee : FuncRef} {args : List Value} :
    LibraryCall M' h H callee args ↔ ∃ B, CallSite H B callee args := by
  constructor
  · intro hx
    obtain ⟨b, i, hb, hno, hi, hop⟩ := hx
    have hlt : b < H.numBlocks := by
      by_contra hge
      rw [Module.instrs_of_le (by omega)] at hi
      cases hi
    obtain ⟨B, hB, rfl⟩ := Harness.exists_id hb hlt
    rw [hat.code B hB] at hi
    rcases Harness.callSite_of_mem hB hi hop with ⟨k, rfl⟩ | hc
    · exact (hno k rfl).elim
    · exact ⟨B, hc⟩
  · intro hx
    obtain ⟨B, hc⟩ := hx
    obtain ⟨hB, hne, name, hi⟩ := hc.mem
    refine ⟨H.id B, ⟨.call callee args, name⟩, H.base_le_id B, fun k he => ?_, ?_, rfl⟩
    · exact hne k (Harness.id_inj hB (H.valid_loop k).1 he)
    · rw [hat.code B hB]
      exact hi

theorem HarnessAt.allocated (hat : HarnessAt h F f n specs H M') {s : Slot} (hs : s ∈ H.slots)
    (k : Copy) : M'.allocated h (s.valueOf H.base H.dl k) = some (s.allocSize H.dl H.n) := by
  obtain ⟨name, hv⟩ := s.valueOf_eq H.base H.dl k
  obtain ⟨name', hins⟩ := hat.layout.setupInstr H.dl H.n H.malloc hs k
  have hlt := (List.getElem?_eq_some_iff.1 hins).1
  have hget : (M'.instrs h H.base)[s.obj k]? = some ⟨s.setupOp H.dl H.n H.malloc, name'⟩ := by
    have hcode : M'.instrs h H.base = _ := hat.code .setup trivial
    rw [hcode, Harness.instrs, List.getElem?_append_left hlt, hins]
  rw [hv, Slot.value, Module.allocated, hget, Option.map_some]
  unfold Slot.setupOp Slot.allocSize
  cases hptr : s.isPtr with
  | true => simp [getIntN, hat.malloc_declared.name_eq]
  | false =>
    have hp : s.param.type.isPointerTy = false := hptr
    simp [hat.dl_eq, Param.elemTy, hp]

end

end Ephippion
