import Ephippion.Harness.Blocks

/-!
# The harness's control flow

`Harness.succs` is the flow graph of the harness on the names of its blocks. It is the one of its
code: each block is straight-line code and one terminator, whose targets are the successors
(`Harness.instrs_endsWith`). `Harness.id` is a bijection between the block names that are there and
the indices from `base` on (`id_inj`, `exists_id`); `rank` orders the parts of a run.
-/

namespace Ephippion

namespace Op

/-- The blocks a `phi` has values for. -/
def incoming : Op → Option (List Nat)
  | phi _ inc => some (inc.map (·.2))
  | _ => none

/-- Neither a `phi` nor a terminator. -/
def isPlain (op : Op) : Bool := !op.isTerminator && op.incoming.isNone

theorem isPlain_iff {op : Op} : op.isPlain ↔ op.isTerminator = false ∧ op.incoming = none := by
  simp [isPlain]

theorem isTerminator_of_mem_succs {op : Op} {d : Nat} (h : d ∈ op.succs) :
    op.isTerminator = true := by
  cases op with
  | foreign type succs text =>
    cases succs with
    | none => cases h
    | some _ => rfl
  | br _ | condBr _ _ _ => rfl
  | _ => cases h

theorem incoming_of_isTerminator {op : Op} (h : op.isTerminator = true) : op.incoming = none := by
  cases op <;> first | rfl | cases h

end Op

namespace Harness

variable (H : Harness)

/-- The `j`-th condition, and the end of the checks past the last one. -/
def next (j : Nat) : HBlock := if j < H.m then .cond j else .seEnd

def succs : HBlock → List HBlock
  | .setup => [.seSetup]
  | .seSetup => [.call1Setup]
  | .call1Setup => [.hdr1]
  | .call2Setup => [.hdr2]
  | .call1 => [.latch1]
  | .call2 => [.latch2]
  | .call1Teardown => [.call2Setup]
  | .call2Teardown => [.seStart]
  | .seStart => [H.next 0]
  | .seEnd => [.teardown]
  | .teardown => [.exit]
  | .exit => []
  | .cond j => [H.next (j + 1), .fail j]
  | .fail _ => []
  | .hdr1 => [.call1, .exit1]
  | .latch1 => [.hdr1]
  | .exit1 => [.call1Teardown]
  | .hdr2 => [.call2, .exit2]
  | .latch2 => [.hdr2]
  | .exit2 => [.call2Teardown]

/-- The parts of a run, in order; the blocks of a loop are one part. -/
def rank : HBlock → Nat
  | .setup => 0
  | .seSetup => 1
  | .call1Setup => 2
  | .hdr1 | .call1 | .latch1 => 3
  | .exit1 => 4
  | .call1Teardown => 5
  | .call2Setup => 6
  | .hdr2 | .call2 | .latch2 => 7
  | .exit2 => 8
  | .call2Teardown => 9
  | .seStart => 10
  | .cond j | .fail j => 11 + j
  | .seEnd => 11 + H.m
  | .teardown => 12 + H.m
  | .exit => 13 + H.m

variable {H}

theorem id_next (j : Nat) : H.id (H.next j) = nextBlock (H.base + 12) H.m (H.id .seEnd) j := by
  unfold next nextBlock
  split <;> rfl

theorem valid_next (j : Nat) : H.Valid (H.next j) := by
  unfold next
  split
  · assumption
  · trivial

theorem valid_succs {B B' : HBlock} (hB : H.Valid B) (h : B' ∈ H.succs B) : H.Valid B' := by
  cases B with
  | seStart =>
    rw [succs, List.mem_singleton] at h
    subst h
    exact valid_next 0
  | cond j =>
    rw [succs, List.mem_cons, List.mem_singleton] at h
    rcases h with rfl | rfl
    · exact valid_next _
    · exact hB
  | hdr1 | hdr2 =>
    rw [succs, List.mem_cons, List.mem_singleton] at h
    rcases h with rfl | rfl <;> trivial
  | exit | fail => cases h
  | _ =>
    rw [succs, List.mem_singleton] at h
    subst h
    trivial

theorem rank_next {j : Nat} (hj : j ≤ H.m) : H.rank (H.next j) = 11 + j := by
  unfold next
  split
  · rfl
  · simp only [rank]
    omega

/-- Where each part of a run is entered. -/
def stage (H : Harness) : Nat → HBlock
  | 0 => .setup
  | 1 => .seSetup
  | 2 => .call1Setup
  | 3 => .hdr1
  | 4 => .exit1
  | 5 => .call1Teardown
  | 6 => .call2Setup
  | 7 => .hdr2
  | 8 => .exit2
  | 9 => .call2Teardown
  | 10 => .seStart
  | r + 11 => if r < H.m then .cond r else if r = H.m then .seEnd else if r = H.m + 1 then .teardown
    else .exit

theorem stage_next {j : Nat} (hj : j ≤ H.m) : H.stage (11 + j) = H.next j := by
  rw [Nat.add_comm, stage, next]
  split
  · rfl
  · rw [if_pos (by omega)]

theorem stage_last : H.stage (11 + H.m) = .seEnd ∧ H.stage (12 + H.m) = .teardown ∧
    H.stage (13 + H.m) = .exit := by
  refine ⟨?_, ?_, ?_⟩
  · simp [Nat.add_comm 11, stage]
  · simp [show 12 + H.m = H.m + 1 + 11 by omega, stage]
  · simp [show 13 + H.m = H.m + 2 + 11 by omega, stage]

/-- A branch stays in its part or goes to where the next one is entered. -/
theorem succs_staged {B B' : HBlock} (hB : H.Valid B) (h : B' ∈ H.succs B) :
    H.rank B' = H.rank B ∨ H.rank B' = H.rank B + 1 ∧ B' = H.stage (H.rank B') := by
  have hnext : ∀ {j : Nat}, j ≤ H.m → H.rank (H.next j) = 11 + j ∧
      H.next j = H.stage (H.rank (H.next j)) := fun hj =>
    ⟨rank_next hj, by rw [rank_next hj, stage_next hj]⟩
  cases B with
  | seStart =>
    rw [succs, List.mem_singleton] at h
    subst h
    exact .inr (hnext (Nat.zero_le H.m))
  | cond j =>
    rw [succs, List.mem_cons, List.mem_singleton] at h
    rcases h with rfl | rfl
    · exact .inr (hnext (show j + 1 ≤ H.m from hB))
    · exact .inl rfl
  | hdr1 | hdr2 =>
    rw [succs, List.mem_cons, List.mem_singleton] at h
    rcases h with rfl | rfl
    · exact .inl rfl
    · exact .inr ⟨rfl, rfl⟩
  | call1 | call2 | latch1 | latch2 =>
    rw [succs, List.mem_singleton] at h
    exact .inl (by rw [h]; rfl)
  | exit | fail => cases h
  | seEnd | teardown =>
    rw [succs, List.mem_singleton] at h
    subst h
    obtain ⟨-, h2, h3⟩ := H.stage_last
    refine .inr ⟨by simp only [rank]; omega, ?_⟩
    simp only [rank, h2, h3]
  | _ =>
    rw [succs, List.mem_singleton] at h
    exact .inr (by rw [h]; exact ⟨rfl, rfl⟩)

theorem stage_succ : ∀ {r : Nat}, r < 13 + H.m → H.stage (r + 1) ∈ H.succs (H.stage r)
  | 0, _ | 1, _ | 2, _ | 4, _ | 5, _ | 6, _ | 8, _ | 9, _ => List.mem_singleton_self _
  | 3, _ | 7, _ => List.mem_cons_of_mem _ (List.mem_singleton_self _)
  | 10, _ => List.mem_singleton.2 (stage_next (Nat.zero_le H.m))
  | j + 11, hr => by
    rcases Nat.lt_trichotomy j H.m with hj | rfl | hj
    · have h1 : H.stage (j + 11) = .cond j := by rw [stage, if_pos hj]
      have h2 : H.stage (j + 11 + 1) = H.next (j + 1) := by
        rw [← stage_next hj]
        congr 1
        omega
      rw [h1, h2]
      exact List.mem_cons_self
    · have h1 := H.stage_last
      rw [Nat.add_comm 11, Nat.add_comm 12] at h1
      rw [h1.1, h1.2.1]
      exact List.mem_singleton_self _
    · obtain rfl : j = H.m + 1 := by omega
      have h1 := H.stage_last
      rw [Nat.add_comm 12, Nat.add_comm 13] at h1
      rw [show H.m + 1 + 11 = H.m + 12 by omega, h1.2.1, h1.2.2]
      exact List.mem_singleton_self _

/-- No branch goes back to an earlier part. -/
theorem rank_succs {B B' : HBlock} (hB : H.Valid B) (h : B' ∈ H.succs B) :
    H.rank B ≤ H.rank B' := by
  rcases succs_staged hB h with he | ⟨he, -⟩ <;> omega

/-! ## Blocks and indices -/

/-- The blocks that are created first. -/
def firstBlock : Nat → HBlock
  | 0 => .setup
  | 1 => .seSetup
  | 2 => .call1Setup
  | 3 => .call2Setup
  | 4 => .call1
  | 5 => .call2
  | 6 => .call1Teardown
  | 7 => .call2Teardown
  | 8 => .seStart
  | 9 => .seEnd
  | 10 => .teardown
  | _ => .exit

/-- The blocks that are created last. -/
def loopBlock : Nat → HBlock
  | 0 => .hdr1
  | 1 => .latch1
  | 2 => .exit1
  | 3 => .hdr2
  | 4 => .latch2
  | _ => .exit2

/-- The block at an offset. -/
def blockAt (m o : Nat) : HBlock :=
  if o < 12 then firstBlock o
  else if o < 12 + 2 * m then
    if (o - 12) % 2 = 0 then .cond ((o - 12) / 2) else .fail ((o - 12) / 2)
  else loopBlock (o - 12 - 2 * m)

theorem blockAt_id {B : HBlock} (hB : H.Valid B) : blockAt H.m (H.id B - H.base) = B := by
  have hloop : ∀ k {b}, b = H.base + 12 + 2 * H.m + k → blockAt H.m (b - H.base) = loopBlock k := by
    rintro k _ rfl
    have ho : H.base + 12 + 2 * H.m + k - H.base = 12 + 2 * H.m + k := by omega
    rw [ho, blockAt, if_neg (by omega), if_neg (by omega)]
    congr 1
    omega
  cases B with
  | cond j =>
    have hj : j < H.m := hB
    have ho : H.id (.cond j) - H.base = 12 + 2 * j := by simp only [id, condBlock]; omega
    rw [ho, blockAt, if_neg (by omega), if_pos (by omega), if_pos (by omega)]
    congr 1
    omega
  | fail j =>
    have hj : j < H.m := hB
    have ho : H.id (.fail j) - H.base = 12 + 2 * j + 1 := by simp only [id, failBlock]; omega
    rw [ho, blockAt, if_neg (by omega), if_pos (by omega), if_neg (by omega)]
    congr 1
    omega
  | hdr1 => exact hloop 0 rfl
  | latch1 => exact hloop 1 rfl
  | exit1 => exact hloop 2 rfl
  | hdr2 => exact hloop 3 rfl
  | latch2 => exact hloop 4 rfl
  | exit2 => exact hloop 5 rfl
  | _ => simp [id, blockAt, firstBlock]

theorem id_inj {B B' : HBlock} (hB : H.Valid B) (hB' : H.Valid B') (h : H.id B = H.id B') :
    B = B' := by
  rw [← blockAt_id hB, ← blockAt_id hB', h]

theorem base_le_id (H : Harness) (B : HBlock) : H.base ≤ H.id B := by
  cases B <;> simp only [id, condBlock, failBlock] <;> omega

theorem id_lt {B : HBlock} (hB : H.Valid B) : H.id B < H.numBlocks := by
  cases B with
  | cond j | fail j =>
    have hj : j < H.m := hB
    simp only [id, condBlock, failBlock, numBlocks]
    omega
  | _ =>
    simp only [id, numBlocks]
    omega

theorem exists_id {b : Nat} (h1 : H.base ≤ b) (h2 : b < H.numBlocks) :
    ∃ B, H.Valid B ∧ H.id B = b := by
  obtain ⟨o, rfl⟩ := Nat.exists_eq_add_of_le h1
  rw [numBlocks] at h2
  rcases Nat.lt_or_ge o 12 with ho | ho
  · have hcase : ∀ B, H.Valid B → H.id B = H.base + o → ∃ B, H.Valid B ∧ H.id B = H.base + o :=
      fun B h1 h2 => ⟨B, h1, h2⟩
    match o, ho with
    | 0, _ => exact hcase .setup trivial rfl
    | 1, _ => exact hcase .seSetup trivial rfl
    | 2, _ => exact hcase .call1Setup trivial rfl
    | 3, _ => exact hcase .call2Setup trivial rfl
    | 4, _ => exact hcase .call1 trivial rfl
    | 5, _ => exact hcase .call2 trivial rfl
    | 6, _ => exact hcase .call1Teardown trivial rfl
    | 7, _ => exact hcase .call2Teardown trivial rfl
    | 8, _ => exact hcase .seStart trivial rfl
    | 9, _ => exact hcase .seEnd trivial rfl
    | 10, _ => exact hcase .teardown trivial rfl
    | 11, _ => exact hcase .exit trivial rfl
  · rcases Nat.lt_or_ge o (12 + 2 * H.m) with ho' | ho'
    · by_cases hj : (o - 12) % 2 = 0
      · exact ⟨.cond ((o - 12) / 2), show _ < H.m by omega, by simp only [id, condBlock]; omega⟩
      · exact ⟨.fail ((o - 12) / 2), show _ < H.m by omega, by simp only [id, failBlock]; omega⟩
    · obtain ⟨k, rfl⟩ := Nat.exists_eq_add_of_le ho'
      have hk : k < 6 := by omega
      match k, hk with
      | 0, _ => exact ⟨.hdr1, trivial, by simp only [id]; omega⟩
      | 1, _ => exact ⟨.latch1, trivial, by simp only [id]; omega⟩
      | 2, _ => exact ⟨.exit1, trivial, by simp only [id]; omega⟩
      | 3, _ => exact ⟨.hdr2, trivial, by simp only [id]; omega⟩
      | 4, _ => exact ⟨.latch2, trivial, by simp only [id]; omega⟩
      | 5, _ => exact ⟨.exit2, trivial, by simp only [id]; omega⟩

/-! ## Terminators -/

/-- Code that ends in its only terminator, with the given targets, and has `phi`s of the given
incoming blocks. -/
structure EndsWith (is : List Instr) (phis : List (List Nat)) (targets : List Nat) : Prop where
  split : ∃ pre t, is = pre ++ [t] ∧ (∀ i ∈ pre, i.op.isTerminator = false) ∧
    t.op.isTerminator = true ∧ t.op.succs = targets
  phis_eq : is.filterMap (·.op.incoming) = phis

namespace EndsWith

variable {is pre : List Instr} {t : Instr} {phis : List (List Nat)} {targets : List Nat}

theorem plain (hp : ∀ i ∈ pre, i.op.isPlain) (ht : t.op.isTerminator = true)
    (hs : t.op.succs = targets) : EndsWith (pre ++ [t]) [] targets where
  split := ⟨pre, t, rfl, fun i hi => (Op.isPlain_iff.1 (hp i hi)).1, ht, hs⟩
  phis_eq := by
    rw [List.filterMap_eq_nil_iff]
    intro i hi
    rcases List.mem_append.1 hi with hi | hi
    · exact (Op.isPlain_iff.1 (hp i hi)).2
    · rw [List.mem_singleton.1 hi]
      exact Op.incoming_of_isTerminator ht

theorem single (ht : t.op.isTerminator = true) (hs : t.op.succs = targets) :
    EndsWith [t] [] targets := by
  have hp : ∀ i ∈ ([] : List Instr), i.op.isPlain := fun _ h => (List.not_mem_nil h).elim
  exact plain hp ht hs

theorem getTerminator (h : EndsWith is phis targets) :
    ∃ t, getTerminator is = some t ∧ t.op.succs = targets := by
  obtain ⟨pre, t, rfl, -, ht, hs⟩ := h.split
  exact ⟨t, getTerminator_append ht, hs⟩

end EndsWith

theorem setupInstrs_plain (dl : DataLayout) (n : IterationsNumTy) (malloc : FuncRef) (s : Slot) :
    ∀ i ∈ s.setupInstrs dl n malloc, i.op.isPlain := by
  have hop : (s.setupOp dl n malloc).isPlain := by
    unfold Slot.setupOp
    split <;> rfl
  intro i hi
  unfold Slot.setupInstrs at hi
  split at hi
  · simp only [List.mem_cons, List.not_mem_nil, or_false] at hi
    rcases hi with rfl | rfl <;> exact hop
  · rw [List.mem_singleton.1 hi]
    exact hop

theorem symInstrs_plain (setup : Nat) (dl : DataLayout) (n : IterationsNumTy)
    (symbolize memcpy : FuncRef) (s : Slot) :
    ∀ i ∈ s.symInstrs setup dl n symbolize memcpy, i.op.isPlain := by
  intro i hi
  unfold Slot.symInstrs at hi
  dsimp only at hi
  split at hi
  · rcases List.mem_cons.1 hi with rfl | hi
    · rfl
    · split at hi
      · simp only [List.mem_cons, List.not_mem_nil, or_false] at hi
        rcases hi with rfl | rfl <;> rfl
      · cases hi
  · cases hi

theorem operandInstrs_plain (args : List Arg) :
    ∀ i ∈ operandInstrs args, i.op.isPlain := by
  intro i hi
  obtain ⟨a, -, ha⟩ := List.mem_filterMap.1 hi
  unfold Arg.instr? at ha
  split at ha
  · split at ha
    · cases ha
      rfl
    · split at ha <;> cases ha
      rfl
  · cases ha

theorem condInstrs_plain (dl : DataLayout) (n : IterationsNumTy) (memcmp : FuncRef) (c : Check)
    (b : Nat) : ∀ i ∈ c.condInstrs dl n memcmp b, i.op.isPlain := by
  intro i hi
  unfold Check.condInstrs at hi
  split at hi
  · simp only [List.mem_cons, List.not_mem_nil, or_false] at hi
    rcases hi with rfl | rfl <;> rfl
  · split at hi
    · cases hi
    · rw [List.mem_singleton.1 hi]
      rfl

theorem hdrCode_endsWith (hdr body0 preheader : Nat) (start stop : BitVec 32) (name : String) :
    EndsWith (hdrCode hdr body0 preheader start stop name) [[preheader, hdr + 1]]
      [body0, hdr + 2] where
  split := by
    refine ⟨[_, _], ⟨.condBr _ _ _, ""⟩, rfl, fun i hi => ?_, rfl, rfl⟩
    simp only [List.mem_cons, List.not_mem_nil, or_false] at hi
    rcases hi with rfl | rfl <;> rfl
  phis_eq := rfl

theorem latchCode_endsWith (hdr : Nat) (start stop step : BitVec 32) (name : String) :
    EndsWith (latchCode hdr start stop step name) [] [hdr] := by
  have hp : ∀ i ∈ [(⟨(LoopDirection.of start stop).stepOp (indVar hdr name) step, ""⟩ : Instr)],
      i.op.isPlain := fun i hi => by
    rw [List.mem_singleton.1 hi]
    cases LoopDirection.of start stop <;> rfl
  exact .plain hp (t := ⟨.br hdr, ""⟩) rfl rfl

theorem callCode_endsWith (func : FuncRef) (b latch : Nat) (args : List Arg) :
    EndsWith (callCode func b latch args) [] [latch] := by
  refine .plain (fun i hi => ?_) rfl rfl
  rcases List.mem_append.1 hi with hi | hi
  · exact operandInstrs_plain args i hi
  · rw [List.mem_singleton.1 hi]
    rfl

/-- The incoming blocks of a block's `phi`s: the headers have one each. -/
def phis (H : Harness) : HBlock → List (List Nat)
  | .hdr1 => [[H.id .call1Setup, H.id .latch1]]
  | .hdr2 => [[H.id .call2Setup, H.id .latch2]]
  | _ => []

/-- Every block ends in its only terminator, which goes to the block's successors. -/
theorem instrs_endsWith {B : HBlock} (hB : H.Valid B) :
    EndsWith (H.instrs B) (H.phis B) ((H.succs B).map H.id) := by
  cases B with
  | setup =>
    refine .plain (fun i hi => ?_) rfl rfl
    obtain ⟨s, -, hi⟩ := List.mem_flatMap.1 hi
    exact setupInstrs_plain _ _ _ s i hi
  | seSetup =>
    refine .plain (fun i hi => ?_) rfl rfl
    obtain ⟨s, -, hi⟩ := List.mem_flatMap.1 hi
    exact symInstrs_plain _ _ _ _ _ s i hi
  | call1 | call2 => exact callCode_endsWith ..
  | seStart => exact .single rfl (by rw [succs, List.map_singleton, id_next]; rfl)
  | teardown =>
    refine .plain (fun i hi => ?_) rfl rfl
    obtain ⟨v, -, rfl⟩ := List.mem_map.1 hi
    rfl
  | cond j =>
    obtain ⟨c, hc⟩ : ∃ c, H.checks[j]? = some c :=
      ⟨_, List.getElem?_eq_getElem (by rw [length_checks]; exact hB)⟩
    simp only [instrs, hc, condCode]
    refine .plain (condInstrs_plain _ _ _ c _) rfl ?_
    rw [succs, List.map_cons, List.map_singleton, id_next]
    rfl
  | fail j =>
    have hp : ∀ i ∈ [(⟨.call H.assert (assertArgs H.modName H.funcName), ""⟩ : Instr)],
        i.op.isPlain := fun i hi => by
      rw [List.mem_singleton.1 hi]
      rfl
    exact .plain hp (t := ⟨.unreachable, ""⟩) rfl rfl
  | hdr1 | hdr2 => exact hdrCode_endsWith ..
  | latch1 | latch2 => exact latchCode_endsWith ..
  | _ => exact .single rfl rfl

end Harness

end Ephippion
