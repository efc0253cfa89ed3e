import Ephippion.Run.Program

/-!
# A run refines the program

Part by part: the setup blocks (`HarnessAt.setup_refines`), a sequence of calls
(`HarnessAt.sequence_refines`), the checks (`HarnessAt.checks_refine`) and the teardown, put
together in `HarnessAt.refines`. Between the parts a run is at a block with the program's core, the
copies are there and the values of the setup block point to them (`AtCore`).
-/

namespace Ephippion

open ObjMem (Mem)
open Sequence Counted Machine

/-- A run is about to execute `B`, with the core `c`. -/
structure AtCore (H : Harness) (B : HBlock) (c : Core) (s : Config) : Prop where
  block : s.block = H.id B
  core : s.core = c
  pointers : Pointers H.base H.slots s.env
  stored : Stored H.dl H.n H.slots c.mem

section
variable {h F : Nat} {f : Function} {n : IterationsNumTy} {specs : List ArgSpec} {H : Harness}
  {M' : Module} {W : World}

/-! ## The setup blocks -/

theorem HarnessAt.setup_eq (hat : HarnessAt h F f n specs H M') (hlink : H.Linked F) :
    ∃ env, step W M' F h (startAt H.base) = .inl ⟨H.id .setup, H.id .seSetup, env,
        H.slots.foldl (Slot.allocate W H.dl H.n) ⟨[], []⟩⟩ ∧
      SetupRun W H.base H.dl H.n H.slots env
        (H.slots.foldl (Slot.allocate W H.dl H.n) ⟨[], []⟩) := by
  obtain ⟨env, c, hstep, hs⟩ := hat.setup_step hlink W
  have hdoes : Does W M' F (H.id .setup) H.base
      (H.slots.flatMap (Slot.setupInstrs H.dl H.n H.malloc)) 0 (fun _ => none) ⟨[], []⟩
      (H.slots.foldlM (fun c s => .ok (s.allocate W H.dl H.n c)) ⟨[], []⟩) :=
    .foldlM fun s hs pos env c _ => s.allocate_does hat.dl_eq.symm hat.malloc_declared.name_eq
      (hlink.malloc s hs)
  have hpure : H.slots.foldlM (fun c s => .ok (s.allocate W H.dl H.n c)) (⟨[], []⟩ : Core) =
      (.ok (H.slots.foldl (Slot.allocate W H.dl H.n) ⟨[], []⟩) : Except Outcome Core) :=
    List.foldlM_pure ..
  rw [hpure] at hdoes
  obtain ⟨env', hr⟩ := hdoes
  have hstep' : step W M' F h (startAt H.base) = _ := hat.step_eq (B := .setup) trivial W _ _ _
  rw [Harness.instrs, hr.execInstrs, hstep] at hstep'
  obtain ⟨rfl, rfl⟩ : env' = env ∧ c = H.slots.foldl (Slot.allocate W H.dl H.n) ⟨[], []⟩ := by
    have he := Sum.inl.inj hstep'
    exact ⟨(congrArg Config.env he).symm, congrArg Config.core he⟩
  exact ⟨env', hstep, hs⟩

theorem HarnessAt.seSetup_eq (hat : HarnessAt h F f n specs H M') (hlink : H.Linked F) (prev : Nat)
    {env : InstRef → Option RVal} {c : Core} (hs : SetupRun W H.base H.dl H.n H.slots env c) :
    ∃ env' c', H.slots.foldlM (Slot.makeSymbolic W H.dl H.n) c = .ok c' ∧
      step W M' F h ⟨prev, H.id .seSetup, env, c⟩ =
        .inl ⟨H.id .seSetup, H.id .call1Setup, env', c'⟩ ∧ SetUp W H env' c' := by
  obtain ⟨env', c', hstep, hset⟩ : ∃ env' c', step W M' F h ⟨prev, H.id .seSetup, env, c⟩ =
      .inl ⟨H.id .seSetup, H.id .call1Setup, env', c'⟩ ∧ SetUp W H env' c' :=
    hat.seSetup_step hlink hs
  have hb : H.id .seSetup ≠ H.base := by simp [Harness.id]
  have hp : Pointers H.base H.slots env := hs.created.pointers
  have hdoes : Does W M' F (H.id .seSetup) prev
      (H.slots.flatMap (Slot.symInstrs H.base H.dl H.n H.symbolize H.memcpy)) 0 env c
      (H.slots.foldlM (Slot.makeSymbolic W H.dl H.n) c) :=
    .foldlM fun s hs' pos env' c henv => s.makeSymbolic_does hat.layout hs'
      (hp.congr fun i => henv ⟨H.base, i⟩ hb.symm) hb
      hat.symbolize_declared.name_eq hlink.symbolize hat.memcpy_declared.name_eq hlink.memcpy
  have hstep' : step W M' F h ⟨prev, H.id .seSetup, env, c⟩ = _ :=
    hat.step_eq (B := .seSetup) trivial W _ _ _
  rw [Harness.instrs, hstep] at hstep'
  cases hr : H.slots.foldlM (Slot.makeSymbolic W H.dl H.n) c with
  | error o =>
    rw [hr] at hdoes
    rw [hdoes] at hstep'
    cases hstep'
  | ok c'' =>
    rw [hr] at hdoes
    obtain ⟨env'', hr⟩ := hdoes
    rw [hr.execInstrs] at hstep'
    obtain rfl : c' = c'' := congrArg Config.core (Sum.inl.inj hstep')
    exact ⟨env', c', rfl, hstep, hset⟩

theorem HarnessAt.setup_refines (hat : HarnessAt h F f n specs H M') (hlink : H.Linked F) :
    Refines (step W M' F h) 2 (startAt H.base)
      (H.slots.foldlM (Slot.makeSymbolic W H.dl H.n)
        (H.slots.foldl (Slot.allocate W H.dl H.n) ⟨[], []⟩)) (AtCore H .call1Setup) := by
  obtain ⟨env, h1, hs⟩ := hat.setup_eq (W := W) hlink
  obtain ⟨env', c', hc', h2, hset⟩ := hat.seSetup_eq hlink (H.id .setup) hs
  rw [hc']
  exact .head h1 (.head h2 (.pure ⟨rfl, rfl, hset.pointers, hset.prepared.stored⟩))

/-! ## The calls -/

/-- The block that calls does what one call of the program does. -/
theorem HarnessAt.call_eq (hat : HarnessAt h F f n specs H M') (hi : TakesIterator f) (k : Copy)
    (prev : Nat) {env : InstRef → Option RVal} {c : Core} {v : BitVec 64}
    (hp : Pointers H.base H.slots env) (hst : Stored H.dl H.n H.slots c.mem)
    (hv : env ⟨H.id k.hdr, 0⟩ = some (.int v)) :
    match H.callOnce W k c v with
    | .ok c' => ∃ env' bs, step W M' F h ⟨prev, H.id k.body, env, c⟩ =
        .inl ⟨H.id k.body, H.id k.latch, env', c'⟩ ∧ CallDone H k v env c bs env' c'
    | .error o => step W M' F h ⟨prev, H.id k.body, env, c⟩ = .inr o := by
  obtain ⟨env₁, hr, hvals⟩ := hat.call_operands (W := W) prev hi k hp hst hv
  have hF : H.func.index = F := by rw [hat.func_eq]
  have hop : execOp W M' F (H.id k.body) prev env₁ c
      (.call H.func (operandValues (H.id k.body) 0 (H.args k))) =
      .ofCore none (c.call W (H.id k.body) (.int v :: H.slots.tail.map (Slot.passed c.mem k))) := by
    simp [execOp, hvals, hF]
  have hstep : step W M' F h ⟨prev, H.id k.body, env, c⟩ = _ :=
    hat.step_eq (H.valid_loop k).1 W _ _ _
  rw [H.instrs_body k, callCode, List.append_assoc, hr.execInstrs, List.singleton_append,
    execInstrs_cons rfl, hop] at hstep
  have hcall := hat.call_step (W := W) prev hi k hp hst hv
  unfold Harness.callOnce
  cases hc : c.call W (H.id k.body) (.int v :: H.slots.tail.map (Slot.passed c.mem k)) with
  | none =>
    rw [hc] at hstep
    exact hstep
  | some c' =>
    rw [hc] at hstep
    cases ho : Sequence.once W.call H.refs c.trace.length v (contents H.slots k c.mem) with
    | none =>
      rw [ho] at hcall
      rw [hcall] at hstep
      cases hstep
    | some bs =>
      rw [ho] at hcall
      obtain ⟨env', c'', h1, hd⟩ := hcall
      rw [h1] at hstep
      obtain rfl : c'' = c' := congrArg Config.core (Sum.inl.inj hstep)
      exact ⟨env', bs, h1, hd⟩

theorem HarnessAt.loop_refines (hat : HarnessAt h F f n specs H M') (hi : TakesIterator f)
    (k : Copy) {v : BitVec 64} {vs : List (BitVec 64)}
    (hc : Counts ((H.direction k).test ((H.stop k).setWidth 64)) (H.direction k).next v vs) :
    ∀ {prev : Nat} {env : InstRef → Option RVal} {c : Core}, EntersWith H k prev env v →
      Pointers H.base H.slots env → Stored H.dl H.n H.slots c.mem →
      Refines (step W M' F h) (3 * vs.length + 1) ⟨prev, H.id k.hdr, env, c⟩
        (vs.foldlM (H.callOnce W k) c) (AtCore H k.exit) := by
  have hbase : H.base ≠ H.id k.hdr ∧ H.base ≠ H.id k.body ∧ H.base ≠ H.id k.latch := by
    cases k <;> simp [Copy.hdr, Copy.body, Copy.latch, Harness.id] <;> omega
  have hne : H.id k.hdr ≠ H.id k.body := by
    cases k <;> simp [Copy.hdr, Copy.body, Harness.id] <;> omega
  induction hc with
  | done ht =>
    intro prev env c he hp hst
    obtain ⟨env₁, h1, -, hframe⟩ := hat.hdr_step (W := W) prev (c := c) k he
    rw [ht] at h1
    exact .head h1 (.pure ⟨rfl, rfl, hp.congr fun i => hframe _ hbase.1, hst⟩)
  | @next v vs ht _ ih =>
    intro prev env c he hp hst
    obtain ⟨env₁, h1, hv₁, hframe₁⟩ := hat.hdr_step (W := W) prev (c := c) k he
    rw [ht] at h1
    have hp₁ : Pointers H.base H.slots env₁ := hp.congr fun i => hframe₁ _ hbase.1
    have hcall := hat.call_eq (W := W) hi k (H.id k.hdr) hp₁ hst hv₁
    rw [List.foldlM_cons, List.length_cons,
      show 3 * (vs.length + 1) + 1 = 3 * vs.length + 1 + 1 + 1 + 1 by omega]
    cases hr : H.callOnce W k c v with
    | error o =>
      rw [hr] at hcall
      exact .head h1 (.ends hcall (by omega))
    | ok c₂ =>
      rw [hr] at hcall
      obtain ⟨env₂, bs, h2, hd⟩ := hcall
      have hp₂ : Pointers H.base H.slots env₂ := hp₁.congr fun i => hd.frame _ hbase.2.1
      have hv₂ : env₂ ⟨H.id k.hdr, 0⟩ = some (.int v) := (hd.frame _ hne).trans hv₁
      obtain ⟨env₃, h3, he₃, hframe₃⟩ :=
        hat.latch_step (W := W) (H.id k.body) (c := c₂) k hv₂
      have hp₃ : Pointers H.base H.slots env₃ := hp₂.congr fun i => hframe₃ _ hbase.2.2
      exact .head h1 (.head h2 (.head h3 (ih he₃ hp₃ hd.stored)))

theorem HarnessAt.sequence_refines (hat : HarnessAt h F f n specs H M') (hi : TakesIterator f)
    (k : Copy) {c : Core} {s : Config} (hs : AtCore H k.setup c s) :
    Refines (step W M' F h) (3 * H.n.toNat + 4) s ((H.iterators k).foldlM (H.callOnce W k) c)
      (AtCore H k.after) := by
  obtain ⟨prev, block, env, c'⟩ := s
  obtain ⟨hb, hc, hp, hst⟩ := hs
  obtain rfl : block = H.id k.setup := hb
  obtain rfl : c' = c := hc
  have hn : 2 ≤ H.n.toNat := hat.n_eq ▸ hat.two_le
  have h1 : step W M' F h ⟨prev, H.id k.setup, env, c'⟩ =
      .inl ⟨H.id k.setup, H.id k.hdr, env, c'⟩ := by
    cases k with
    | first => exact hat.step_eq (B := .call1Setup) trivial W _ _ _
    | second => exact hat.step_eq (B := .call2Setup) trivial W _ _ _
  have hloop := hat.loop_refines (W := W) hi k (H.iterators_counts hn k) (.inl ⟨rfl, rfl⟩) hp hst
  have hafter : ∀ c s, AtCore H k.exit c s →
      Refines (step W M' F h) 2 s (.ok c) (AtCore H k.after) := by
    intro c s hs
    obtain ⟨prev, block, env, c'⟩ := s
    obtain ⟨hb, hc, hp, hst⟩ := hs
    obtain rfl : block = H.id k.exit := hb
    obtain rfl : c' = c := hc
    cases k with
    | first =>
      exact .head (hat.step_eq (B := .exit1) trivial W _ _ _)
        (.head (hat.step_eq (B := .call1Teardown) trivial W _ _ _) (.pure ⟨rfl, rfl, hp, hst⟩))
    | second =>
      exact .head (hat.step_eq (B := .exit2) trivial W _ _ _)
        (.head (hat.step_eq (B := .call2Teardown) trivial W _ _ _) (.pure ⟨rfl, rfl, hp, hst⟩))
  have hall := hloop.bind hafter
  rw [H.length_iterators k, show ∀ r : Except Outcome Core, (r >>= fun c => .ok c) = r from
    fun r => bind_pure r] at hall
  exact .head h1 hall

/-! ## The checks and the teardown -/

/-- The block of a check does what the program's comparison does, if need be with the block of its
failure. -/
theorem HarnessAt.cond_eq (hat : HarnessAt h F f n specs H M') (hlink : H.Linked F) {j : Nat}
    {t : Slot} (ht : H.checked[j]? = some t) {c : Core} {s : Config}
    (hs : AtCore H (H.next j) c s) :
    match H.compareCopies c (t, j) with
    | .ok c' => ∃ s', step W M' F h s = .inl s' ∧ AtCore H (H.next (j + 1)) c' s'
    | .error o => step W M' F h s = .inr o ∨
        ∃ s', step W M' F h s = .inl s' ∧ step W M' F h s' = .inr o := by
  have hj : j < H.m := (List.getElem?_eq_some_iff.1 ht).1
  have hmem : t ∈ H.slots := (List.mem_filter.1 (List.mem_of_getElem? ht)).1
  obtain ⟨prev, block, env, c'⟩ := s
  obtain ⟨hb, hc, hp, hst⟩ := hs
  obtain rfl : c' = c := hc
  obtain rfl : block = H.id (.cond j) := by rw [Harness.next, if_pos hj] at hb; exact hb
  have hcheck : H.checks[j]? = some (t.check H.base H.dl) := by
    rw [Harness.checks, List.getElem?_map, ht]
    rfl
  have hcode : M'.instrs h (H.id (.cond j)) = condCode H.dl H.n H.memcmp (H.base + 12) H.m
      (H.id .seEnd) j (t.check H.base H.dl) := by
    rw [hat.code (.cond j) hj]
    simp only [Harness.instrs, hcheck]
  have hobj : (t.check H.base H.dl).objects env = some (t.obj .first, t.obj .second) :=
    Check.objects_eq_some.2 ⟨hp.eval hat.layout H.dl hmem .first,
      hp.eval hat.layout H.dl hmem .second⟩
  have hby : (t.check H.base H.dl).byMemory = true := t.isPointerTy_copyTy H.dl
  have hsize : (t.check H.base H.dl).size H.dl H.n = t.comparedSize H.dl H.n := rfl
  have hstep := condCode_step W env c' hcode hat.memcmp_declared.name_eq hlink.memcmp prev
  simp only [Check.compares, Check.events, hby, ite_true, hobj, hsize, Option.bind_some,
    Option.toList_some, List.flatMap_cons, List.flatMap_nil, List.append_nil] at hstep
  unfold Harness.compareCopies
  rw [Core.compare_eq]
  cases hcmp : ObjMem.cmp c'.mem (t.obj .first) (t.obj .second)
      (t.comparedSize H.dl H.n).toNat with
  | none =>
    rw [hcmp] at hstep
    exact .inl hstep
  | some eq =>
    rw [hcmp] at hstep
    obtain ⟨env', h1, hframe⟩ := hstep
    have hp' : Pointers H.base H.slots env' := hp.congr fun i => hframe _ (by
      simp only [condBlock]
      omega)
    cases eq with
    | true => exact ⟨_, h1, by rw [H.id_next]; rfl, rfl, hp', hst⟩
    | false => exact .inr ⟨_, h1, hat.fail_step _ hlink hj⟩

theorem HarnessAt.teardown_refines (hat : HarnessAt h F f n specs H M') (hlink : H.Linked F)
    {c : Core} {s : Config} (hs : AtCore H .seEnd c s) :
    Refines (step W M' F h) 2 s (H.slots.reverse.foldlM Slot.release c)
      fun c s => s.block = H.id .exit ∧ s.core = c := by
  obtain ⟨prev, block, env, c'⟩ := s
  obtain ⟨hb, hc, hp, -⟩ := hs
  obtain rfl : c' = c := hc
  obtain rfl : block = H.id .seEnd := hb
  have hne : H.id .teardown ≠ H.base := by simp [Harness.id]
  have hdoes : Does W M' F (H.id .teardown) (H.id .seEnd) H.freeInstrs 0 env c'
      (H.slots.reverse.foldlM Slot.release c') := by
    rw [freeInstrs_eq]
    exact .foldlM fun t ht pos env' c henv => t.release_does hat.layout (List.mem_reverse.1 ht)
      (hp.congr fun i => henv ⟨H.base, i⟩ hne.symm) hne hat.free_declared.name_eq hlink.free
  refine .head (hat.step_eq (B := .seEnd) trivial W _ _ _) ?_
  have hstep : step W M' F h ⟨H.id .seEnd, H.id .teardown, env, c'⟩ = _ :=
    hat.step_eq (B := .teardown) trivial W _ _ _
  rw [Harness.instrs] at hstep
  cases hr : H.slots.reverse.foldlM Slot.release c' with
  | error o =>
    rw [hr] at hdoes
    rw [hdoes] at hstep
    exact .ends hstep Nat.one_pos
  | ok c'' =>
    rw [hr] at hdoes
    obtain ⟨env', hr⟩ := hdoes
    rw [hr.execInstrs] at hstep
    exact .head hstep (.pure ⟨rfl, rfl⟩)

/-- The checks that are left, and the teardown. -/
theorem HarnessAt.checks_refine (hat : HarnessAt h F f n specs H M') (hlink : H.Linked F) :
    ∀ (rest : List Slot) (j : Nat), H.checked.drop j = rest → ∀ (c : Core) (s : Config),
      AtCore H (H.next j) c s →
        Refines (step W M' F h) (rest.length + 2) s
          ((rest.zipIdx j).foldlM H.compareCopies c >>= fun c =>
            H.slots.reverse.foldlM Slot.release c)
          fun c s => s.block = H.id .exit ∧ s.core = c
  | [], j, hrest => by
    intro c s hs
    have hj : ¬ j < H.m := by
      have := List.drop_eq_nil_iff.1 hrest
      simpa [Harness.m] using this
    rw [Harness.next, if_neg hj] at hs
    exact hat.teardown_refines hlink hs
  | t :: rest, j, hrest => by
    intro c s hs
    have ht : H.checked[j]? = some t := by
      rw [← List.head?_drop, hrest]
      rfl
    have hdrop : H.checked.drop (j + 1) = rest := by
      rw [← List.tail_drop, hrest]
      rfl
    have hcond := hat.cond_eq (W := W) hlink ht hs
    rw [List.zipIdx_cons, List.foldlM_cons]
    cases hr : H.compareCopies c (t, j) with
    | ok c' =>
      rw [hr] at hcond
      obtain ⟨s', h1, hs'⟩ := hcond
      exact .head h1 (hat.checks_refine hlink rest (j + 1) hdrop c' s' hs')
    | error o =>
      rw [hr] at hcond
      rcases hcond with h1 | ⟨s', h1, h2⟩
      · exact .ends h1 (Nat.succ_pos _)
      · exact .head h1 (.ends h2 (Nat.succ_pos _))

/-! ## The whole run -/

theorem HarnessAt.refines (hat : HarnessAt h F f n specs H M') (hlink : H.Linked F)
    (hi : TakesIterator f) :
    Refines (step W M' F h) H.steps (startAt H.base) (H.program W)
      fun c s => s.block = H.id .exit ∧ s.core = c := by
  have hsteps : H.steps = 2 + (3 * H.n.toNat + 4 + (3 * H.n.toNat + 4 + (H.m + 2 + 1))) := by
    rw [Harness.steps]
    omega
  have hchecks : ∀ c s, AtCore H .seStart c s → Refines (step W M' F h) (H.m + 2 + 1) s
      (H.checked.zipIdx.foldlM H.compareCopies c >>= fun c => H.slots.reverse.foldlM Slot.release c)
      fun c s => s.block = H.id .exit ∧ s.core = c := by
    intro c s hs
    obtain ⟨prev, block, env, c'⟩ := s
    obtain ⟨hb, hc, hp, hst⟩ := hs
    obtain rfl : c' = c := hc
    obtain rfl : block = H.id .seStart := hb
    refine .head (hat.step_eq (B := .seStart) trivial W _ _ _)
      (hat.checks_refine hlink H.checked 0 rfl _ _ ⟨?_, rfl, hp, hst⟩)
    exact (H.id_next 0).symm
  rw [hsteps]
  exact (hat.setup_refines hlink).bind fun c s hs =>
    (hat.sequence_refines hi .first hs).bind fun c s hs =>
      (hat.sequence_refines hi .second hs).bind hchecks

theorem HarnessAt.exit_eq (hat : HarnessAt h F f n specs H M') (c : Core) (s : Config)
    (hs : s.block = H.id .exit ∧ s.core = c) :
    step W M' F h s = .inr (.returned (.int 0) c) := by
  obtain ⟨prev, block, env, c⟩ := s
  obtain ⟨hblock, hcore⟩ := hs
  subst hblock hcore
  exact hat.exit_step prev

theorem HarnessAt.run_eq (hat : HarnessAt h F f n specs H M') (hlink : H.Linked F)
    (hi : TakesIterator f) {fuel : Nat} (hfuel : H.steps < fuel) :
    run (step W M' F h) fuel (startAt H.base) = some (H.outcome W) :=
  (hat.refines hlink hi).run_eq hat.exit_eq hfuel

theorem HarnessAt.halts_iff_eq (hat : HarnessAt h F f n specs H M') (hlink : H.Linked F)
    (hi : TakesIterator f) {o : Outcome} :
    Halts (step W M' F h) (startAt H.base) o ↔ o = H.outcome W := by
  have hends := halts_of_run (hat.run_eq (W := W) hlink hi (Nat.lt_succ_self _))
  refine ⟨fun ho => ho.unique hends, ?_⟩
  rintro rfl
  exact hends

end

end Ephippion
