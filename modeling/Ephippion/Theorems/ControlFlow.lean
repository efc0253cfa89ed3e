import Ephippion.Proof.Flow

/-!
# The control flow of a harness

A harness function is well formed as a flow graph, and every path through it that does not end in a
failure passes its parts in order (`controlFlow`).
-/

namespace Ephippion

open Graph Relation

/-- What a path that ends well passes. -/
def Harness.milestones (H : Harness) : List HBlock :=
  [.setup, .seSetup, .call1Setup, .hdr1, .exit1, .call1Teardown, .call2Setup, .hdr2, .exit2,
    .call2Teardown, .seStart] ++ (List.range H.m).map .cond ++ [.seEnd, .teardown, .exit]

/-- Function `h` is a well-formed flow graph and goes through the parts of `H` in order. -/
structure ControlFlow (M : Module) (h : Nat) (H : Harness) : Prop where
  /-- Besides the loops' and the fixed ones there are two blocks for each check. -/
  length : (M.blocks h).length = 18 + 2 * H.m
  entry : H.id .setup = 0
  no_preds : ∀ a, ¬ M.Edge h a 0
  terminated : ∀ b < (M.blocks h).length, ∃ pre t, M.instrs h b = pre ++ [t] ∧
    (∀ i ∈ pre, i.op.isTerminator = false) ∧ t.op.isTerminator = true
  inside : ∀ a b, M.Edge h a b → b < (M.blocks h).length
  reachable : ∀ b < (M.blocks h).length, ReflTransGen (M.Edge h) 0 b
  phis : ∀ b < (M.blocks h).length, ∀ i ∈ M.instrs h b, ∀ preds, i.op.incoming = some preds →
    preds.Nodup ∧ ∀ a, a ∈ preds ↔ M.Edge h a b
  paths : ∀ p b, Path (M.Edge h) 0 p b → M.succs h b = [] →
    (∃ j < H.m, b = H.id (.fail j)) ∨ (H.milestones.map H.id).Sublist p

namespace Harness

variable {H : Harness}

theorem milestones_eq : H.milestones = (List.range' 0 (14 + H.m)).map H.stage := by
  have hconds : (List.range' 11 H.m).map H.stage = (List.range H.m).map .cond := by
    rw [List.range'_eq_map_range, List.map_map]
    apply List.map_congr_left
    intro j hj
    have hj := List.mem_range.1 hj
    rw [Function.comp_apply, stage_next (Nat.le_of_lt hj), next, if_pos hj]
  have hends : (List.range' (11 + H.m) 3).map H.stage = [.seEnd, .teardown, .exit] := by
    obtain ⟨h1, h2, h3⟩ := H.stage_last
    rw [← h1, ← h2, ← h3]
    simp only [List.range', List.map_cons, List.map_nil]
    rw [show 11 + H.m + 1 = 12 + H.m by omega, show 12 + H.m + 1 = 13 + H.m by omega]
  have hsplit : List.range' 0 (14 + H.m) =
      List.range' 0 11 ++ List.range' 11 H.m ++ List.range' (11 + H.m) 3 := by
    have h := List.range'_append_1 (s := 0) (m := 11 + H.m) (n := 3)
    rw [Nat.zero_add] at h
    rw [List.range'_append_1, h]
    congr 1
    omega
  rw [hsplit, List.map_append, List.map_append, hconds, hends]
  rfl

/-- The header of a loop is entered from its preheader and its latch. -/
theorem mem_succs_hdr {B : HBlock} : (.hdr1 ∈ H.succs B ↔ B = .call1Setup ∨ B = .latch1) ∧
    (.hdr2 ∈ H.succs B ↔ B = .call2Setup ∨ B = .latch2) := by
  have hnext : ∀ j, H.next j ≠ .hdr1 ∧ H.next j ≠ .hdr2 := fun j => by
    unfold next
    split <;> simp
  cases B <;> simp [succs, (hnext _).1.symm, (hnext _).2.symm]

theorem setup_not_mem_succs {B : HBlock} : .setup ∉ H.succs B := by
  have hnext : ∀ j, H.next j ≠ .setup := fun j => by
    unfold next
    split <;> simp
  cases B <;> simp [succs, (hnext _).symm]

theorem succs_eq_nil {B : HBlock} (h : H.succs B = []) : B = .exit ∨ ∃ j, B = .fail j := by
  cases B with
  | exit => exact .inl rfl
  | fail j => exact .inr ⟨j, rfl⟩
  | _ => cases h

end Harness

section
variable {h F : Nat} {f : Function} {n : IterationsNumTy} {specs : List ArgSpec} {H : Harness}
  {M' : Module}

/-- The incoming blocks of a header's `phi` are its predecessors. -/
theorem HarnessAt.phi_preds (hat : HarnessAt h F f n specs H M') (h0 : H.base = 0)
    (hlen : (M'.blocks h).length = H.numBlocks) {B : HBlock} (hB : H.Valid B) {preds : List Nat}
    (hp : preds ∈ H.phis B) :
    preds.Nodup ∧ ∀ a, a ∈ preds ↔ M'.Edge h a (H.id B) := by
  -- `B'` and `B''` are the preheader and the latch
  have key : ∀ B' B'' : HBlock, H.Valid B' → H.Valid B'' → H.id B' ≠ H.id B'' →
      (∀ A, B ∈ H.succs A ↔ A = B' ∨ A = B'') → preds = [H.id B', H.id B''] →
      preds.Nodup ∧ ∀ a, a ∈ preds ↔ M'.Edge h a (H.id B) := by
    rintro B' B'' h1 h2 hne hiff rfl
    refine ⟨by simp [hne], fun a => ⟨fun ha => ?_, fun he => ?_⟩⟩
    · simp only [List.mem_cons, List.not_mem_nil, or_false] at ha
      rcases ha with rfl | rfl
      · exact (hat.edge_iff h1).2 ⟨B, (hiff B').2 (.inl rfl), rfl⟩
      · exact (hat.edge_iff h2).2 ⟨B, (hiff B'').2 (.inr rfl), rfl⟩
    · obtain ⟨A, A', hA, hA', rfl, hid⟩ := hat.exists_edge h0 hlen he
      obtain rfl := Harness.id_inj (Harness.valid_succs hA hA') hB hid
      rcases (hiff A).1 hA' with rfl | rfl <;> simp
  cases B with
  | hdr1 =>
    exact key .call1Setup .latch1 trivial trivial (by simp only [Harness.id]; omega)
      (fun _ => Harness.mem_succs_hdr.1) (List.mem_singleton.1 hp)
  | hdr2 =>
    exact key .call2Setup .latch2 trivial trivial (by simp only [Harness.id]; omega)
      (fun _ => Harness.mem_succs_hdr.2) (List.mem_singleton.1 hp)
  | _ => cases hp

theorem HarnessAt.flow (hat : HarnessAt h F f n specs H M') (h0 : H.base = 0)
    (hlen : (M'.blocks h).length = H.numBlocks) : ControlFlow M' h H where
  length := by
    rw [hlen, Harness.numBlocks]
    omega
  entry := h0
  no_preds a he := by
    obtain ⟨B, B', hB, hB', -, hid⟩ := hat.exists_edge h0 hlen he
    have : B' = .setup := Harness.id_inj (Harness.valid_succs hB hB') trivial (hid.trans h0.symm)
    exact Harness.setup_not_mem_succs (this ▸ hB')
  terminated b hb := by
    obtain ⟨B, hB, rfl⟩ := Harness.exists_block h0 hlen hb
    obtain ⟨pre, t, hcode, hpre, ht, -⟩ := (Harness.instrs_endsWith hB).split
    exact ⟨pre, t, (hat.code B hB).trans hcode, hpre, ht⟩
  inside a b he := by
    obtain ⟨B, B', hB, hB', -, rfl⟩ := hat.exists_edge h0 hlen he
    rw [hlen]
    exact Harness.id_lt (Harness.valid_succs hB hB')
  reachable b hb := by
    obtain ⟨B, hB, rfl⟩ := Harness.exists_block h0 hlen hb
    have := hat.reach hB
    rwa [show H.id .setup = 0 from h0] at this
  phis b hb i hi preds hp := by
    obtain ⟨B, hB, rfl⟩ := Harness.exists_block h0 hlen hb
    rw [hat.code B hB] at hi
    apply hat.phi_preds h0 hlen hB
    rw [← (Harness.instrs_endsWith hB).phis_eq]
    exact List.mem_filterMap.2 ⟨i, hi, hp⟩
  paths p b hp hend := by
    have hentry : H.id .setup = 0 := h0
    have hb : b < (M'.blocks h).length := by
      refine hp.inv (P := (· < (M'.blocks h).length)) (fun a c _ he => ?_) ?_
      · obtain ⟨B, B', hB, hB', -, rfl⟩ := hat.exists_edge h0 hlen he
        rw [hlen]
        exact Harness.id_lt (Harness.valid_succs hB hB')
      · rw [hlen, Harness.numBlocks]
        omega
    obtain ⟨B, hB, rfl⟩ := Harness.exists_block h0 hlen hb
    rw [hat.succs_eq hB, List.map_eq_nil_iff] at hend
    rcases Harness.succs_eq_nil hend with rfl | ⟨j, rfl⟩
    · have hstart : H.rankAt 0 = 0 := by
        have := H.rankAt_id (B := .setup) trivial
        rwa [hentry] at this
      have hpass := (hat.staged h0 hlen).passes hp (by rw [hstart]; exact hentry)
      have hlen : H.rank .exit + 1 - 0 = 14 + H.m := by
        simp only [Harness.rank]
        omega
      rw [hstart, Harness.rankAt_id hB, hlen] at hpass
      rw [Harness.milestones_eq, List.map_map]
      exact .inr hpass
    · exact .inl ⟨j, hB, rfl⟩

end

/-- In a module that has no function of the harness's name the harness is a well-formed function
that goes through its parts in order. -/
theorem controlFlow {senc : SymbolicEncapsulation} {M M' : Module} {F : Nat} {f : Function}
    {n : IterationsNumTy} {specs : List ArgSpec} (hf : M.functions[F]? = some f)
    (hdef : f.isDeclaration = false) (hfree : M.getFunction (senc.harnessName f) = none)
    (hok : senc.encapsulate M F n specs = .ok (M', true)) :
    ∃ h H, HarnessBuilt senc M F f n specs M' h H ∧ ControlFlow M' h H := by
  obtain ⟨-, -, h, H, hb⟩ := encapsulate_of_ok hf hdef hok
  refine ⟨h, H, hb, hb.here.flow (hb.bodiless_iff.1 fun ref href => ?_) hb.length⟩
  rw [hfree] at href
  cases href

theorem controlFlow_buffer : ∃ (M' : Module) (h : Nat) (H : Harness),
    SymbolicEncapsulation.encapsulate {} (bufferModule .int32Ty) 0 2
      [⟨"i", .inbound, false⟩, ⟨"p", .both, true⟩] = .ok (M', true) ∧ ControlFlow M' h H := by
  have hf : (bufferModule .int32Ty).functions[0]? = some (bufferFunction .int32Ty) := rfl
  obtain ⟨M', hok⟩ := encapsulate_buffer (.inr rfl) [⟨"i", .inbound, false⟩, ⟨"p", .both, true⟩]
  obtain ⟨h, H, -, hflow⟩ := controlFlow hf rfl (by decide) hok
  exact ⟨M', h, H, hok, hflow⟩

end Ephippion
