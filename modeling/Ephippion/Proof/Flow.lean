import Ephippion.Harness.Graph
import Ephippion.Lib.Graph
import Ephippion.Proof.Encapsulate

/-!
# The flow graph of a harness function

The branches of the function that holds the harness are those of `Harness.succs`
(`HarnessAt.edge_iff`), so its graph is in stages (`HarnessAt.staged`) and every block of the
harness is reached from its first one (`HarnessAt.reach`).
-/

namespace Ephippion

open Graph Relation

namespace Module

/-- The targets of a block's terminator. -/
def succs (M : Module) (h b : Nat) : List Nat :=
  ((getTerminator (M.instrs h b)).map (·.op.succs)).getD []

/-- There is a branch from `a` to `b`. -/
def Edge (M : Module) (h a b : Nat) : Prop := b ∈ M.succs h a

theorem succs_eq {M : Module} {h b : Nat} {phis : List (List Nat)} {targets : List Nat}
    (he : Harness.EndsWith (M.instrs h b) phis targets) : M.succs h b = targets := by
  obtain ⟨t, ht, hs⟩ := he.getTerminator
  rw [succs, ht, Option.map_some, hs]
  rfl

end Module

namespace Harness

variable {H : Harness}

/-- The part of a run a block is in. -/
def rankAt (H : Harness) (b : Nat) : Nat := H.rank (blockAt H.m (b - H.base))

theorem rankAt_id {B : HBlock} (hB : H.Valid B) : H.rankAt (H.id B) = H.rank B := by
  rw [rankAt, blockAt_id hB]

/-- Where a part of a run is entered. -/
def stageAt (H : Harness) (r : Nat) : Nat := H.id (H.stage r)

end Harness

section
variable {h F : Nat} {f : Function} {n : IterationsNumTy} {specs : List ArgSpec} {H : Harness}
  {M' : Module}

theorem HarnessAt.succs_eq (hat : HarnessAt h F f n specs H M') {B : HBlock} (hB : H.Valid B) :
    M'.succs h (H.id B) = (H.succs B).map H.id :=
  Module.succs_eq (hat.code B hB ▸ Harness.instrs_endsWith hB)

theorem HarnessAt.edge_iff (hat : HarnessAt h F f n specs H M') {B : HBlock} (hB : H.Valid B)
    {b : Nat} : M'.Edge h (H.id B) b ↔ ∃ B' ∈ H.succs B, H.id B' = b := by
  rw [Module.Edge, hat.succs_eq hB, List.mem_map]

theorem Module.Edge.lt {M : Module} {a b : Nat} (he : M.Edge h a b) : a < (M.blocks h).length := by
  by_contra hn
  rw [Module.Edge, Module.succs, Module.instrs_of_le (Nat.le_of_not_lt hn)] at he
  exact absurd he (by simp [getTerminator])

/-- Nothing but the harness is in its function. -/
theorem Harness.exists_block (h0 : H.base = 0) (hlen : (M'.blocks h).length = H.numBlocks) {b : Nat}
    (hb : b < (M'.blocks h).length) : ∃ B, H.Valid B ∧ H.id B = b :=
  Harness.exists_id (by omega) (by rwa [← hlen])

theorem HarnessAt.exists_edge (hat : HarnessAt h F f n specs H M') (h0 : H.base = 0)
    (hlen : (M'.blocks h).length = H.numBlocks) {a b : Nat} (he : M'.Edge h a b) :
    ∃ B B', H.Valid B ∧ B' ∈ H.succs B ∧ H.id B = a ∧ H.id B' = b := by
  obtain ⟨B, hB, rfl⟩ := Harness.exists_block h0 hlen he.lt
  obtain ⟨B', hB', rfl⟩ := (hat.edge_iff hB).1 he
  exact ⟨B, B', hB, hB', rfl, rfl⟩

theorem HarnessAt.staged (hat : HarnessAt h F f n specs H M') (h0 : H.base = 0)
    (hlen : (M'.blocks h).length = H.numBlocks) : Staged (M'.Edge h) H.rankAt H.stageAt := by
  intro a b he
  obtain ⟨B, B', hB, hB', rfl, rfl⟩ := hat.exists_edge h0 hlen he
  have hv := Harness.valid_succs hB hB'
  rw [Harness.rankAt_id hB, Harness.rankAt_id hv]
  rcases Harness.succs_staged hB hB' with hr | ⟨hr, hst⟩
  · exact .inl hr
  · refine .inr ⟨hr, ?_⟩
    rw [Harness.stageAt, ← hst]

theorem HarnessAt.reach (hat : HarnessAt h F f n specs H M') {B : HBlock} (hB : H.Valid B) :
    ReflTransGen (M'.Edge h) (H.id .setup) (H.id B) := by
  have hsucc : ∀ {B B' : HBlock}, H.Valid B → B' ∈ H.succs B →
      ReflTransGen (M'.Edge h) (H.id .setup) (H.id B) →
      ReflTransGen (M'.Edge h) (H.id .setup) (H.id B') := fun hB hs hr =>
    hr.tail ((hat.edge_iff hB).2 ⟨_, hs, rfl⟩)
  have hstage : ∀ {r : Nat}, r ≤ 13 + H.m → H.Valid (H.stage r) ∧
      ReflTransGen (M'.Edge h) (H.id .setup) (H.id (H.stage r)) := by
    intro r
    induction r with
    | zero => exact fun _ => ⟨trivial, .refl⟩
    | succ r ih =>
      intro hr
      obtain ⟨hv, hreach⟩ := ih (by omega)
      have hs := Harness.stage_succ (show r < 13 + H.m by omega)
      exact ⟨Harness.valid_succs hv hs, hsucc hv hs hreach⟩
  have hdr1 := (hstage (r := 3) (by omega)).2
  have hdr2 := (hstage (r := 7) (by omega)).2
  cases B with
  | call1 => exact hsucc (B := .hdr1) trivial List.mem_cons_self hdr1
  | latch1 =>
    exact hsucc (B := .call1) trivial List.mem_cons_self
      (hsucc (B := .hdr1) trivial List.mem_cons_self hdr1)
  | call2 => exact hsucc (B := .hdr2) trivial List.mem_cons_self hdr2
  | latch2 =>
    exact hsucc (B := .call2) trivial List.mem_cons_self
      (hsucc (B := .hdr2) trivial List.mem_cons_self hdr2)
  | cond j | fail j =>
    have hj : j < H.m := hB
    have hcond := (hstage (r := 11 + j) (by omega)).2
    rw [Harness.stage_next (Nat.le_of_lt hj), Harness.next, if_pos hj] at hcond
    first
      | exact hcond
      | exact hsucc (B := .cond j) hj (List.mem_cons_of_mem _ (List.mem_singleton_self _)) hcond
  | setup => exact .refl
  | seSetup => exact (hstage (r := 1) (by omega)).2
  | call1Setup => exact (hstage (r := 2) (by omega)).2
  | hdr1 => exact hdr1
  | exit1 => exact (hstage (r := 4) (by omega)).2
  | call1Teardown => exact (hstage (r := 5) (by omega)).2
  | call2Setup => exact (hstage (r := 6) (by omega)).2
  | hdr2 => exact hdr2
  | exit2 => exact (hstage (r := 8) (by omega)).2
  | call2Teardown => exact (hstage (r := 9) (by omega)).2
  | seStart => exact (hstage (r := 10) (by omega)).2
  | seEnd | teardown | exit =>
    obtain ⟨h1, h2, h3⟩ := H.stage_last
    first
      | exact h1 ▸ (hstage (r := 11 + H.m) (by omega)).2
      | exact h2 ▸ (hstage (r := 12 + H.m) (by omega)).2
      | exact h3 ▸ (hstage (r := 13 + H.m) (Nat.le_refl _)).2

end

end Ephippion
