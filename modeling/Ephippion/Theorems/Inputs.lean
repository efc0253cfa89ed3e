import Ephippion.Run.Entry

/-!
# The inputs of both sequences of calls

Whatever the encapsulated function does to its outbound arguments, the second sequence of calls
starts from the inputs the first one started from, and all of them were symbolic
(`inputs_same`).
-/

namespace Ephippion

open ObjMem (Cell bytesAt)
open Sequence Machine

section
variable {h F : Nat} {f : Function} {n : IterationsNumTy} {specs : List ArgSpec} {H : Harness}
  {M' : Module} {W : World}

theorem LoopDone.kept {vs : List (BitVec 64)} {c c' : Core} {k : Copy} {bs : Contents}
    {env' : InstRef → Option RVal} (hd : LoopDone H k vs c bs env' c')
    (hl : IsLayout f.params specs H.slots) (hW : W.WritesOutbound specs)
    (hrun : sequence W.call H.refs c.trace.length vs (contents H.slots k c.mem) = some bs)
    {s : Slot} (hs : s ∈ H.slots) (hout : s.outbound = false) :
    bytesAt c'.mem (s.obj k) = bytesAt c.mem (s.obj k) := by
  obtain ⟨i, hi⟩ := List.getElem?_of_mem hs
  have hspare : i = 0 ∨ Spares W.call (i - 1) ∨ H.refs[i]? ≠ some true :=
    (hW.spares (hl.at_pos _ s hi).2.1 hout).imp_right .inl
  have hk := sequence_keeps (fun t v bs bs' => W.shape t v bs bs') hspare hrun
  rw [← hd.contents_eq] at hk
  simpa [contents, hi] using hk

/-- Between the starts of the two sequences the inputs do not change. -/
theorem HarnessAt.inputs_kept (hat : HarnessAt h F f n specs H M') (hlink : H.Linked F)
    (hi : TakesIterator f) (hW : W.WritesOutbound specs) {s₂ : Config}
    (hs₂ : Steps (step W M' F h) (startAt H.base) s₂) (hb₂ : s₂.block = H.id .call2Setup) :
    ∃ s₁, Steps (step W M' F h) (startAt H.base) s₁ ∧ s₁.block = H.id .call1Setup ∧
      Steps (step W M' F h) s₁ s₂ ∧ ∀ s ∈ H.slots, s.inbound →
        ∃ cs cs', s₁.storage (s.value1 H.base H.dl) = some cs ∧ cs.length = s.size H.dl H.n ∧
          (∀ c ∈ cs, c.symbolic) ∧ s₂.storage (s.value2 H.base H.dl) = some cs' ∧
          cs'.map (·.byte) = cs.map (·.byte) := by
  have hstart : AtBlock H (startAt H.base) := ⟨.setup, trivial, rfl⟩
  obtain ⟨env, c, h0, hs⟩ := hat.setup_run hlink W
  have hrun := hat.sequence_run (W := W) hi .first (H.id .seSetup) hs.pointers
    hs.prepared.stored
  cases hseq : sequence W.call H.refs c.trace.length (H.iterators .first)
      (contents H.slots .first c.mem) with
  | none =>
    rw [hseq] at hrun
    obtain ⟨s', c', h1, hb, hend⟩ := hrun
    -- the run ends in the first loop
    have hlt : rankOf H s' < rankOf H s₂ := by
      rw [rankOf_eq (B := .call1) trivial hb, rankOf_eq (B := .call2Setup) trivial hb₂]
      simp [Harness.rank]
    have hle := Steps.before hat.step_rank hstart (h0.trans h1) hs₂ hlt
    rw [hle.eq_of_end hend] at hlt
    exact (Nat.lt_irrefl _ hlt).elim
  | some bs =>
    rw [hseq] at hrun
    obtain ⟨prev', env', c', h1, hd⟩ := hrun
    have heq : s₂ = ⟨prev', H.id .call2Setup, env', c'⟩ := by
      refine hat.once (B := .call2Setup) trivial (fun B' hB' => ?_) hstart hs₂ (h0.trans h1) hb₂ rfl
      rw [List.mem_singleton.1 hB']
      simp [Harness.rank]
    subst heq
    refine ⟨_, h0, rfl, h1, fun s hmem hin => ?_⟩
    have hsym : s.symbolized := by
      have : isInbound s.spec.direction = true := hin
      simp [Slot.symbolized, isOnlyOutbound_eq, this]
    obtain ⟨t, ht⟩ := hs.prepared.symbolic s hmem hsym
    obtain ⟨cs', ho', -⟩ := hd.stored s hmem .second
    have hst₁ : Config.storage ⟨H.id .seSetup, H.id .call1Setup, env, c⟩ (s.value1 H.base H.dl) =
        some (symbolicObj W H.dl H.n s t).cells :=
      Pointers.storage (s := ⟨_, _, env, c⟩) (k := .first) hs.pointers hat.layout H.dl hmem
        (ht .first)
    have hst₂ : Config.storage ⟨prev', H.id .call2Setup, env', c'⟩ (s.value2 H.base H.dl) =
        some cs' :=
      Pointers.storage (s := ⟨_, _, env', c'⟩) (k := .second) hd.pointers hat.layout H.dl hmem ho'
    refine ⟨_, cs', hst₁, by simp [symbolicObj], ?_, hst₂, ?_⟩
    · intro c hc
      simp only [symbolicObj, List.mem_map] at hc
      obtain ⟨i, -, rfl⟩ := hc
      rfl
    · have hbytes : bytesAt c'.mem (s.obj .second) = bytesAt c.mem (s.obj .first) := by
        cases hout : s.outbound with
        | false =>
          have := hd.kept hat.layout hW hseq hmem hout
          rwa [s.obj_of_not_outbound hout, ← s.obj_of_not_outbound hout .first] at *
        | true =>
          rw [hd.same.bytesAt (hat.layout.not_passed hmem hout (by decide)),
            ObjMem.bytesAt_of (ht .second), ObjMem.bytesAt_of (ht .first)]
      rwa [ObjMem.bytesAt_of ho', ObjMem.bytesAt_of (ht .first)] at hbytes

end

/-- When the second sequence of calls starts, what it is given for the inbound arguments is what
the first one was given, all of it symbolic. -/
theorem inputs_same {senc : SymbolicEncapsulation} {M M' : Module} {F : Nat} {f : Function}
    {n : IterationsNumTy} {specs : List ArgSpec} (hf : M.functions[F]? = some f)
    (hdef : f.isDeclaration = false) (hM : M.BranchesInside)
    (hok : senc.encapsulate M F n specs = .ok (M', true)) :
    ∃ h H, HarnessBuilt senc M F f n specs M' h H ∧ ∀ W : World,
      W.WritesOutbound (padSpecs specs f.params.length) →
      ∀ s₂, Steps (step W M' F h) (startAt 0) s₂ → s₂.block = H.id .call2Setup →
        ∃ s₁, Steps (step W M' F h) (startAt 0) s₁ ∧ s₁.block = H.id .call1Setup ∧
          Steps (step W M' F h) s₁ s₂ ∧ ∀ s ∈ H.slots, s.inbound →
            ∃ cs cs', s₁.storage (s.value1 H.base H.dl) = some cs ∧ cs.length = s.size H.dl H.n ∧
              (∀ c ∈ cs, c.symbolic) ∧ s₂.storage (s.value2 H.base H.dl) = some cs' ∧
              cs'.map (·.byte) = cs.map (·.byte) := by
  obtain ⟨-, -, h, H, hb⟩ := encapsulate_of_ok hf hdef hok
  refine ⟨h, H, hb, fun W hW s₂ hs₂ hb₂ => ?_⟩
  have hbase : H.base = 0 := by
    by_contra h0
    have := hb.trapped hM h0 hs₂
    rw [hb₂] at this
    simp only [Harness.id] at this
    omega
  rw [← hbase] at hs₂ ⊢
  by_cases hi : TakesIterator f
  · exact hb.here.inputs_kept (hb.linked hf hi) hi hW hs₂ hb₂
  · obtain ⟨B, hB, hsB, hr⟩ := hb.here.before_calls hi hs₂
    rw [hb₂] at hsB
    rw [← Harness.id_inj (B := .call2Setup) trivial hB hsB] at hr
    exact absurd hr (by simp [Harness.rank])

theorem inputs_same_buffer : ∃ (M' : Module) (h : Nat) (H : Harness) (s₁ s₂ : Config),
    SymbolicEncapsulation.encapsulate {} (bufferModule .int32Ty) 0 2
      [⟨"i", .inbound, false⟩, ⟨"p", .both, true⟩] = .ok (M', true) ∧
    Steps (step World.idle M' 0 h) (startAt 0) s₂ ∧ s₁.block = H.id .call1Setup ∧
    s₂.block = H.id .call2Setup ∧ Steps (step World.idle M' 0 h) s₁ s₂ ∧
    ∀ s ∈ H.slots, s.inbound →
      ∃ cs cs', s₁.storage (s.value1 H.base H.dl) = some cs ∧ cs.length = s.size H.dl H.n ∧
        (∀ c ∈ cs, c.symbolic) ∧ s₂.storage (s.value2 H.base H.dl) = some cs' ∧
        cs'.map (·.byte) = cs.map (·.byte) := by
  have hf : (bufferModule .int32Ty).functions[0]? = some (bufferFunction .int32Ty) := rfl
  obtain ⟨M', hok⟩ := encapsulate_buffer (.inr rfl) [⟨"i", .inbound, false⟩, ⟨"p", .both, true⟩]
  obtain ⟨h, H, hb, hsame⟩ := inputs_same hf rfl (by decide) hok
  have hi : TakesIterator (bufferFunction .int32Ty) := by decide
  have hbase : H.base = 0 := hb.bodiless_iff.1 (.of_free (by decide))
  obtain ⟨s₂, hs₂, hb₂⟩ := hb.here.second_run (hb.linked hf hi) hi World.idle_returns
  rw [hbase] at hs₂
  obtain ⟨s₁, -, hb₁, h12, hin⟩ := hsame World.idle
    (fun t v bs bs' hc i spec _ _ => by cases hc; rfl) s₂ hs₂ hb₂
  exact ⟨M', h, H, s₁, s₂, hok, hs₂, hb₁, hb₂, h12, hin⟩

end Ephippion
