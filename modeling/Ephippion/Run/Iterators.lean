import Ephippion.Run.Ownership

/-!
# The iterators of a run

In every run of a harness the counters that are still to come at a loop's header are a suffix of its
iterators (`Counting`), so the body is only ever entered with one of them
(`HarnessAt.counting`), and every call of the encapsulated function is one of a body, given the
counter (`HarnessAt.call_iterator`).
-/

namespace Ephippion

open Counted Machine

/-- What a loop has still to count, from its header or inside a round. -/
structure Counting (H : Harness) (k : Copy) (s : Config) : Prop where
  at_hdr : s.block = H.id k.hdr → ∃ v vs, EntersWith H k s.prev s.env v ∧
    Counts ((H.direction k).test ((H.stop k).setWidth 64)) (H.direction k).next v vs ∧
    vs <:+ H.iterators k
  inside : s.block = H.id k.body ∨ s.block = H.id k.latch → ∃ v vs,
    s.env ⟨H.id k.hdr, 0⟩ = some (.int v) ∧
    Counts ((H.direction k).test ((H.stop k).setWidth 64)) (H.direction k).next
      ((H.direction k).next v) vs ∧ (v :: vs) <:+ H.iterators k

section
variable {H : Harness} {B : HBlock} {k : Copy}

/-- The ways into a loop, and through it. -/
theorem Harness.hdr_of_succ (h : k.hdr ∈ H.succs B) : B = k.setup ∨ B = k.latch := by
  cases k <;> cases B <;>
    simp [Harness.succs, Copy.hdr, Copy.setup, Copy.latch, Harness.next] at h ⊢ <;>
    split at h <;> cases h

theorem Harness.body_of_succ (h : k.body ∈ H.succs B) : B = k.hdr := by
  cases k <;> cases B <;>
    simp [Harness.succs, Copy.hdr, Copy.body, Harness.next] at h ⊢ <;> split at h <;> cases h

theorem Harness.latch_of_succ (h : k.latch ∈ H.succs B) : B = k.body := by
  cases k <;> cases B <;>
    simp [Harness.succs, Copy.latch, Copy.body, Harness.next] at h ⊢ <;> split at h <;> cases h

end

section
variable {h F : Nat} {f : Function} {n : IterationsNumTy} {specs : List ArgSpec} {H : Harness}
  {M' : Module} {W : World}

theorem HarnessAt.counting_step (hat : HarnessAt h F f n specs H M') {B : HBlock}
    (hB : H.Valid B) {s s' : Config} (hsB : s.block = H.id B) (k : Copy) (hc : Counting H k s)
    (hstep : step W M' F h s = .inl s') : Counting H k s' := by
  obtain ⟨hprev, B', hB', hs'⟩ := hat.step_succ hB hsB hstep
  have hB'v := Harness.valid_succs hB hB'
  obtain ⟨hbody, hhdr, hlatch, -⟩ := H.valid_loop k
  refine ⟨fun hat' => ?_, fun hat' => ?_⟩
  · obtain rfl := Harness.id_inj hB'v hhdr (hs'.symm.trans hat')
    rcases Harness.hdr_of_succ hB' with rfl | rfl
    · exact ⟨_, _, .inl ⟨hprev, rfl⟩, H.iterators_counts (hat.n_eq ▸ hat.two_le) k,
        List.suffix_rfl⟩
    · -- from the latch, with the next counter
      obtain ⟨v, vs, hv, hcounts, hsuffix⟩ := hc.inside (.inr hsB)
      obtain ⟨prev, block, env, c⟩ := s
      obtain rfl := hsB
      obtain ⟨env', h1, he, -⟩ := hat.latch_step (W := W) prev (c := c) k hv
      rw [h1] at hstep
      cases hstep
      exact ⟨_, vs, he, hcounts, (List.suffix_cons v vs).trans hsuffix⟩
  · rcases hat' with hat' | hat'
    · -- from the header, whose test holds
      obtain rfl := Harness.id_inj hB'v hbody (hs'.symm.trans hat')
      obtain rfl := Harness.body_of_succ hB'
      obtain ⟨v, vs, he, hcounts, hsuffix⟩ := hc.at_hdr hsB
      obtain ⟨prev, block, env, c⟩ := s
      obtain rfl := hsB
      obtain ⟨env', h1, hv, -⟩ := hat.hdr_step (W := W) prev (c := c) k he
      rw [h1] at hstep
      cases hstep
      cases hcounts with
      | done ht =>
        simp only [ht, Bool.false_eq_true, ite_false] at hat'
        have hne : k.exit ≠ k.body := by cases k <;> exact nofun
        exact absurd (Harness.id_inj (H.valid_loop k).2.2.2 hbody hat') hne
      | next _ hrest => exact ⟨v, _, hv, hrest, hsuffix⟩
    · obtain rfl := Harness.id_inj hB'v hlatch (hs'.symm.trans hat')
      obtain rfl := Harness.latch_of_succ hB'
      obtain ⟨v, vs, hv, hrest⟩ := hc.inside (.inl hsB)
      refine ⟨v, vs, ?_, hrest⟩
      have hne : H.id k.hdr ≠ s.block := fun he => by
        have := Harness.id_inj hhdr hbody (he.trans hsB)
        cases k <;> cases this
      rw [step_env hstep hne, hv]

theorem HarnessAt.counting (hat : HarnessAt h F f n specs H M') {s : Config}
    (hs : Steps (step W M' F h) (startAt H.base) s) (k : Copy) : Counting H k s := by
  obtain ⟨hbody, hhdr, hlatch, -⟩ := H.valid_loop k
  have hsetup : ∀ {B : HBlock}, H.Valid B → H.id .setup = H.id B → B = .setup :=
    fun hB he => (Harness.id_inj (show H.Valid .setup from trivial) hB he).symm
  have hstart : Counting H k (startAt H.base) := by
    refine ⟨fun he => ?_, fun he => ?_⟩
    · cases k <;> cases hsetup hhdr he
    · rcases he with he | he
      · cases k <;> cases hsetup hbody he
      · cases k <;> cases hsetup hlatch he
  have hinv := hs.inv (P := fun s => AtBlock H s ∧ Counting H k s) (fun s s' hs hstep => by
    obtain ⟨⟨B, hB, hsB⟩, hc⟩ := hs
    exact ⟨(hat.step_rank s s' ⟨B, hB, hsB⟩ hstep).1, hat.counting_step hB hsB k hc hstep⟩)
    ⟨⟨.setup, trivial, rfl⟩, hstart⟩
  exact hinv.2

/-! ## The calls -/

/-- An operation that can log a call of the encapsulated function is the call in a body, and its
iterator is the counter. -/
theorem HarnessAt.call_of_emits (hat : HarnessAt h F f n specs H M')
    (hF : M'.sig[F]? = some (f.name, f.getFunctionType)) {B : HBlock} (hB : H.Valid B) {i : Instr}
    (hi : i ∈ H.instrs B) {env : InstRef → Option RVal}
    (hp : B ≠ .setup → Pointers H.base H.slots env) {b b' : Nat} {v : BitVec 64}
    {args : List RVal} (he : Emits F b env i.op (.call b' v args)) :
    ∃ k : Copy, B = k.body ∧ env ⟨H.id k.hdr, 0⟩ = some (.int v) := by
  obtain ⟨-, callee, iter, rest, hop, hcallee, hv⟩ := he
  have hcopy : ∀ {s : Slot}, s ∈ H.slots → B ≠ .setup → ∀ k : Copy,
      iter ≠ s.valueOf H.base H.dl k := by
    rintro s hs hne k rfl
    rw [(hp hne).eval hat.layout H.dl hs k] at hv
    cases hv
  rcases Harness.callSite_of_mem hB hi hop with ⟨k, rfl⟩ | hc
  · refine ⟨k, rfl, ?_⟩
    obtain ⟨-, hargs⟩ := Harness.call_body hi hop
    rw [H.args_eq k, argsFrom, operandValues, List.cons.injEq] at hargs
    obtain ⟨rfl, -⟩ := hargs
    by_cases ht : H.func.type.getParamType 0 = .int64Ty
    · rw [ht] at hv
      exact hv
    · rw [eval_operand_indVar ht] at hv
      cases hv
  · cases hc with
    | malloc hs hptr => exact absurd hcallee (hat.malloc_ne hF hs hptr)
    | symbolize1 hs => exact absurd rfl (hcopy hs (by decide) .first)
    | symbolize2 hs | memcpy hs => exact absurd rfl (hcopy hs (by decide) .second)
    | memcmp hs =>
      exact absurd rfl (hcopy (List.mem_of_mem_filter (List.mem_of_getElem? hs))
        (fun he => by cases he) .first)
    | assert => cases hv
    | free hs hmem =>
      obtain ⟨-, k, hk⟩ := Harness.heapValues_copy hmem
      exact absurd hk (hcopy hs (by decide) k)

/-- Every call of a run is one of a body, with one of the loop's iterators. -/
theorem HarnessAt.call_iterator (hat : HarnessAt h F f n specs H M')
    (hF : M'.sig[F]? = some (f.name, f.getFunctionType)) {s : Config}
    (hs : Steps (step W M' F h) (startAt H.base) s) {b : Nat} {v : BitVec 64} {args : List RVal}
    (he : .call b v args ∈ s.core.trace) : ∃ k : Copy, b = H.id k.body ∧ v ∈ H.iterators k := by
  have hinv := hs.inv (P := fun s => Steps (step W M' F h) (startAt H.base) s ∧
    ∀ b v args, .call b v args ∈ s.core.trace → ∃ k : Copy, b = H.id k.body ∧ v ∈ H.iterators k)
    (fun s s' hs hstep => ⟨hs.1.snoc hstep, fun b v args he => ?_⟩) ⟨.refl _, nofun⟩
  · exact hinv.2 b v args he
  obtain ⟨es, htr, hes⟩ := step_emits W M' F h s
  rw [hstep] at htr
  rw [show s'.core.trace = _ from htr, List.mem_append] at he
  rcases he with he | he
  · exact hs.2 b v args he
  · obtain ⟨i, hi, env', henv', hemit⟩ := hes _ he
    obtain ⟨B, hB, hsB⟩ := hat.at_block hs.1
    rw [hsB, hat.code B hB] at hi
    have hp : B ≠ .setup → Pointers H.base H.slots env' := fun hne => by
      have hblock : s.block ≠ H.id .setup := fun he =>
        hne (Harness.id_inj hB trivial (hsB.symm.trans he))
      exact (hat.pointers hF hs.1 hblock).congr fun i => henv' _ (Ne.symm hblock)
    obtain ⟨k, rfl, hv⟩ := hat.call_of_emits hF hB hi hp hemit
    refine ⟨k, hemit.1.trans hsB, ?_⟩
    obtain ⟨w, vs, hw, -, hsuffix⟩ := (hat.counting hs.1 k).inside (.inl hsB)
    have hne : H.id k.hdr ≠ s.block := fun he => by
      have := Harness.id_inj (H.valid_loop k).2.1 hB (he.trans hsB)
      cases k <;> cases this
    rw [henv' ⟨H.id k.hdr, 0⟩ hne, hw] at hv
    cases hv
    exact hsuffix.subset List.mem_cons_self

end

end Ephippion
