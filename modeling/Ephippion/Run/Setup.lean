import Ephippion.Proof.Harness
import Ephippion.Run.Storage

/-!
# The setup blocks

From its setup block a harness runs to the start of the first sequence of calls
(`HarnessAt.setup_run`): every copy is there then, a symbolized argument's copies hold the same
symbolic bytes and any other one's what was in fresh storage (`Prepared`).
-/

namespace Ephippion

open ObjMem (Byte Cell Mem Obj bytesAt)

/-- The encapsulated function is none of the library's that the harness calls. -/
structure Harness.Linked (H : Harness) (F : Nat) : Prop where
  malloc : ∀ s ∈ H.slots, s.isPtr → H.malloc.index ≠ F
  free : H.free.index ≠ F
  symbolize : H.symbolize.index ≠ F
  memcpy : H.memcpy.index ≠ F
  memcmp : H.memcmp.index ≠ F
  assert : H.assert.index ≠ F

/-- The first parameter has the type of the iterator. -/
def TakesIterator (f : Function) : Prop := f.params.head?.map (·.type) = some .int64Ty

instance (f : Function) : Decidable (TakesIterator f) :=
  inferInstanceAs (Decidable (_ = _))

section
variable {h F : Nat} {f : Function} {n : IterationsNumTy} {specs : List ArgSpec} {H : Harness}
  {M' : Module}

/-- A function with a pointer to allocate for does not have the type of `malloc`. -/
theorem HarnessAt.malloc_ne (hat : HarnessAt h F f n specs H M')
    (hF : M'.sig[F]? = some (f.name, f.getFunctionType)) {s : Slot} (hs : s ∈ H.slots)
    (hptr : s.isPtr) : H.malloc.index ≠ F := by
  intro he
  rw [← he, hat.malloc_declared.sig_eq] at hF
  have hparams : f.params.map (·.type) = [.int64Ty] :=
    (congrArg FunctionType.params (Prod.mk.inj (Option.some.inj hF)).2).symm
  have hmem : s.param.type ∈ f.params.map (·.type) := by
    rw [← hat.layout.params_eq]
    exact List.mem_map_of_mem (List.mem_map_of_mem hs)
  rw [hparams, List.mem_singleton] at hmem
  rw [Slot.isPtr, hmem] at hptr
  cases hptr

/-- A function that takes an iterator has the type of no library function but `malloc`'s, which
has no pointers to allocate for. -/
theorem HarnessAt.linked (hat : HarnessAt h F f n specs H M')
    (hF : M'.sig[F]? = some (f.name, f.getFunctionType)) (hi : TakesIterator f) : H.Linked F := by
  have hne : ∀ {ref name type}, Declared M' ref name type →
      type.params.head? ≠ some .int64Ty → ref.index ≠ F := by
    intro ref name type hd hty he
    rw [← he, hd.sig_eq] at hF
    obtain ⟨-, rfl⟩ := Prod.mk.inj (Option.some.inj hF)
    apply hty
    rw [Function.getFunctionType, List.head?_map]
    exact hi
  exact ⟨fun s hs hptr => hat.malloc_ne hF hs hptr, hne hat.free_declared (by decide),
    hne hat.symbolize_declared (by decide), hne hat.memcpy_declared (by decide),
    hne hat.memcmp_declared (by decide), hne hat.assert_declared (by decide)⟩

theorem HarnessAt.step_eq (hat : HarnessAt h F f n specs H M') {B : HBlock} (hB : H.Valid B)
    (W : World) (prev : Nat) (env : InstRef → Option RVal) (c : Core) :
    step W M' F h ⟨prev, H.id B, env, c⟩ =
      execInstrs W M' F (H.id B) prev (H.instrs B) 0 env c := by
  rw [step, hat.code B hB]

end

/-! ## Fresh and symbolic objects -/

section
variable (W : World) (dl : DataLayout) (n : IterationsNumTy) (s : Slot)

def freshObj (k : Copy) : Obj :=
  ⟨s.isPtr, (List.range (s.size dl n)).map fun i => ⟨W.fresh (s.obj k) i, false⟩, false⟩

/-- The object symbolized at time `t`. -/
def symbolicObj (t : Nat) : Obj :=
  ⟨s.isPtr, (List.range (s.size dl n)).map fun i => ⟨W.symbol t i, true⟩, false⟩

end

/-- The storage at the start of the first sequence of calls. -/
structure Prepared (W : World) (dl : DataLayout) (n : IterationsNumTy) (slots : List Slot)
    (m : Mem) : Prop where
  symbolic : ∀ s ∈ slots, s.symbolized → ∃ t, ∀ k, m[s.obj k]? = some (symbolicObj W dl n s t)
  fresh : ∀ s ∈ slots, s.symbolized = false → ∀ k, m[s.obj k]? = some (freshObj W dl n s k)

theorem Prepared.stored {W : World} {dl : DataLayout} {n : IterationsNumTy} {slots : List Slot}
    {m : Mem} (hp : Prepared W dl n slots m) : Stored dl n slots m := by
  intro s hs k
  cases hsym : s.symbolized with
  | true =>
    obtain ⟨t, ht⟩ := hp.symbolic s hs hsym
    exact ⟨_, ht k, by simp⟩
  | false => exact ⟨_, hp.fresh s hs hsym k, by simp⟩

/-! ## The setup block -/

section
variable {W : World} {M : Module} {F b prev : Nat} {dl : DataLayout} {n : IterationsNumTy}
  {malloc : FuncRef} {env : InstRef → Option RVal} {c : Core} {s : Slot}

theorem execOp_setupOp (hdl : M.dataLayout = dl) (hname : malloc.name = "malloc")
    (hne : s.isPtr → malloc.index ≠ F) :
    execOp W M F b prev env c (s.setupOp dl n malloc) =
      .value (some (.ptr c.mem.length)) (c.alloc W s.isPtr (s.size dl n)) := by
  cases hptr : s.isPtr with
  | false =>
    have hp : s.param.type.isPointerTy = false := hptr
    simp [Slot.setupOp, hptr, execOp, hdl, Slot.size, Slot.allocSize, Param.elemTy, hp]
  | true =>
    simp [Slot.setupOp, hptr, execOp, Value.eval, getIntN, hne hptr, libCall, hname, Slot.size]

/-- The first `w` instructions of block `b` have created an object each. -/
structure Created (b w : Nat) (env : InstRef → Option RVal) (c : Core) : Prop where
  length : c.mem.length = w
  pointers : ∀ i < w, env ⟨b, i⟩ = some (.ptr i)
  trace : ∀ b', callsOf b' c.trace = []

theorem Created.op {w : Nat} (hc : Created b w env c) (hdl : M.dataLayout = dl)
    (hname : malloc.name = "malloc") (hne : s.isPtr → malloc.index ≠ F) (prev : Nat)
    (name : String) :
    ∃ env' c', Runs W M F b prev [⟨s.setupOp dl n malloc, name⟩] w env c env' c' ∧
      Created b (w + 1) env' c' ∧ c'.mem = c.mem ++
        [⟨s.isPtr, (List.range (s.size dl n)).map fun i => ⟨W.fresh w i, false⟩, false⟩] := by
  have hterm : (s.setupOp dl n malloc).isTerminator = false := by
    unfold Slot.setupOp
    split <;> rfl
  refine ⟨_, _, .single hterm (execOp_setupOp hdl hname hne), ⟨?_, fun i hi => ?_, fun b' => ?_⟩,
    ?_⟩
  · simp [Core.alloc, Core.log, ObjMem.alloc, hc.length]
  · rcases Nat.lt_or_eq_of_le (Nat.le_of_lt_succ hi) with hlt | rfl
    · rw [setValue_ne (by simp; omega), hc.pointers i hlt]
    · rw [setValue_same, hc.length]
  · rw [Core.alloc, Core.log, callsOf_append, hc.trace b']
    rfl
  · simp [Core.alloc, Core.log, ObjMem.alloc, hc.length]

/-- What holds after the code of some slots. -/
structure SetupRun (W : World) (b : Nat) (dl : DataLayout) (n : IterationsNumTy)
    (slots : List Slot) (env : InstRef → Option RVal) (c : Core) : Prop where
  created : Created b (slotsWidth slots) env c
  fresh : ∀ s ∈ slots, ∀ k, c.mem[s.obj k]? = some (freshObj W dl n s k)

theorem SetupRun.slot {slots : List Slot} (hr : SetupRun W b dl n slots env c)
    (hdl : M.dataLayout = dl) (hname : malloc.name = "malloc")
    (hne : s.isPtr → malloc.index ≠ F) (hidx : s.idx = slotsWidth slots) :
    ∃ env' c', Runs W M F b prev (s.setupInstrs dl n malloc) (slotsWidth slots) env c env' c' ∧
      SetupRun W b dl n (slots ++ [s]) env' c' := by
  have hwidth : slotsWidth (slots ++ [s]) = slotsWidth slots + s.width := by
    simp [slotsWidth]
  have hold : ∀ (rest : Mem), ∀ s' ∈ slots, ∀ k,
      (c.mem ++ rest)[s'.obj k]? = some (freshObj W dl n s' k) := by
    intro rest s' hs' k
    have h := hr.fresh s' hs' k
    rwa [List.getElem?_append_left (List.getElem?_eq_some_iff.1 h).1]
  obtain ⟨env₁, c₁, hr₁, hc₁, hm₁⟩ :=
    hr.created.op (W := W) (n := n) hdl hname hne prev s.name1
  cases hout : s.outbound with
  | false =>
    refine ⟨env₁, c₁, ?_, ⟨?_, fun s' hs' k => ?_⟩⟩
    · simpa [Slot.setupInstrs, hout] using hr₁
    · rw [hwidth, Slot.width, hout]
      exact hc₁
    · rw [hm₁]
      rcases List.mem_append.1 hs' with hs' | hs'
      · exact hold _ s' hs' k
      · rw [List.mem_singleton.1 hs']
        simp [s.obj_of_not_outbound hout, freshObj, hidx, hr.created.length]
  | true =>
    obtain ⟨env₂, c₂, hr₂, hc₂, hm₂⟩ :=
      hc₁.op (W := W) (n := n) hdl hname hne prev s.name2
    refine ⟨env₂, c₂, ?_, ⟨?_, fun s' hs' k => ?_⟩⟩
    · have := hr₁.append hr₂
      simpa [Slot.setupInstrs, hout] using this
    · rw [hwidth, Slot.width, hout]
      exact hc₂
    · rw [hm₂, hm₁, List.append_assoc]
      rcases List.mem_append.1 hs' with hs' | hs'
      · exact hold _ s' hs' k
      · rw [List.mem_singleton.1 hs']
        cases k <;> simp [Slot.obj, Slot.idx2, hout, freshObj, hidx, hr.created.length]

end

/-! ## The block that symbolizes -/

section
variable {W : World} {M : Module} {F b prev setup : Nat} {dl : DataLayout} {n : IterationsNumTy}
  {symbolize memcpy : FuncRef} {env : InstRef → Option RVal} {c : Core} {s : Slot}

theorem execOp_symbolize (hname : symbolize.name = "klee_make_symbolic") (hne : symbolize.index ≠ F)
    {v : Value} {o : Nat} {heap : Bool} {cs : List Cell} (hv : v.eval env = some (.ptr o))
    (ho : c.mem[o]? = some ⟨heap, cs, false⟩) {a : BitVec 64} (ha : a.toNat = cs.length)
    (str : String) :
    execOp W M F b prev env c (.call symbolize [v, getIntN 64 a, .globalString str]) =
      .value none (c.log (c.mem.set o
        ⟨heap, (List.range cs.length).map fun i => ⟨W.symbol c.trace.length i, true⟩, false⟩)
        (.symbolize o cs.length str)) := by
  have hfill : ObjMem.fill c.mem o cs.length (W.symbol c.trace.length) = _ :=
    ObjMem.fill_of ho (Nat.le_refl _) _
  simp [execOp, hv, Value.eval, getIntN, hne, libCall, hname, OpResult.ofCore, Core.symbolize,
    ha, hfill]

theorem execOp_memcpy (hname : memcpy.name = "memcpy") (hne : memcpy.index ≠ F)
    {d v : Value} {o o' : Nat} {heap heap' : Bool} {cs cs' : List Cell}
    (hd : d.eval env = some (.ptr o)) (hv : v.eval env = some (.ptr o'))
    (ho : c.mem[o]? = some ⟨heap, cs, false⟩) (ho' : c.mem[o']? = some ⟨heap', cs', false⟩)
    (hlen : cs'.length = cs.length) {a : BitVec 64} (ha : a.toNat = cs.length) (prev : Nat) :
    execOp W M F b prev env c (.call memcpy [d, v, getIntN 64 a]) =
      .value (some (.ptr o)) (c.log (c.mem.set o ⟨heap, cs', false⟩) (.copy o o' cs.length)) := by
  have hcopy := ObjMem.copy_of ho ho' (Nat.le_refl _) (Nat.le_of_eq hlen.symm)
  rw [List.take_of_length_le (Nat.le_of_eq hlen), List.drop_length, List.append_nil] at hcopy
  simp [execOp, hd, hv, Value.eval, getIntN, hne, libCall, hname, OpResult.ofCore, Core.copy, ha,
    hcopy]

/-- What the code of one slot does: a symbolized slot's copies become one symbolic object's. -/
structure SymbolizesSlot (W : World) (dl : DataLayout) (n : IterationsNumTy) (s : Slot)
    (c c' : Core) : Prop where
  same : ObjMem.Same (fun o => ∃ k, o = s.obj k) c.mem c'.mem
  symbolic : s.symbolized → ∃ t, ∀ k, c'.mem[s.obj k]? = some (symbolicObj W dl n s t)
  fresh : s.symbolized = false → c'.mem = c.mem
  trace : ∀ b', callsOf b' c'.trace = callsOf b' c.trace

section
variable {slots : List Slot} {params : List Param} {specs : List ArgSpec}

theorem symbolize_run (hl : IsLayout params specs slots) (hs : s ∈ slots)
    (hst : Stored dl n slots c.mem) (hp : Pointers setup slots env)
    (hname : symbolize.name = "klee_make_symbolic") (hne : symbolize.index ≠ F) (prev pos : Nat)
    (k : Copy) (str : String) :
    ∃ env' c', Runs W M F b prev [⟨.call symbolize [s.valueOf setup dl k,
        getIntN 64 (s.allocSize dl n), .globalString str], ""⟩] pos env c env' c' ∧
      c'.mem = c.mem.set (s.obj k) (symbolicObj W dl n s c.trace.length) ∧
      ∀ b', callsOf b' c'.trace = callsOf b' c.trace := by
  obtain ⟨cs, ho, hlen⟩ := hst s hs k
  refine ⟨_, _, .single rfl (execOp_symbolize hname hne (hp.eval hl dl hs k) ho hlen.symm str), ?_,
    fun b' => ?_⟩
  · simp [Core.log, symbolicObj, hlen]
  · rw [Core.log, callsOf_append]
    exact List.append_nil _

theorem symInstrs_run (hl : IsLayout params specs slots) (hs : s ∈ slots)
    (hst : Stored dl n slots c.mem) (hp : Pointers setup slots env) (hb : b ≠ setup)
    (hsym : symbolize.name = "klee_make_symbolic") (hsymF : symbolize.index ≠ F)
    (hcpy : memcpy.name = "memcpy") (hcpyF : memcpy.index ≠ F) (prev pos : Nat) :
    ∃ env' c', Runs W M F b prev (s.symInstrs setup dl n symbolize memcpy) pos env c env' c' ∧
      SymbolizesSlot W dl n s c c' := by
  cases hy : s.symbolized with
  | false =>
    refine ⟨env, c, ?_, .refl _ _, fun h => by simp [hy] at h, fun _ => rfl, fun _ => rfl⟩
    simp only [Slot.symInstrs, hy, Bool.false_eq_true, ite_false]
    exact .nil ..
  | true =>
    obtain ⟨cs, ho, -⟩ := hst s hs .first
    obtain ⟨env₁, c₁, hr₁, hm₁, ht₁⟩ := symbolize_run (W := W) (M := M) (b := b) hl hs hst hp hsym
      hsymF prev pos .first (s.symName "1" s.name1)
    have h1 : c₁.mem[s.obj .first]? = some (symbolicObj W dl n s c.trace.length) := by
      rw [hm₁, List.getElem?_set_self (List.getElem?_eq_some_iff.1 ho).1]
    have hsame : ObjMem.Same (fun o => ∃ k, o = s.obj k) c.mem c₁.mem := by
      rw [hm₁]
      exact .set ⟨.first, rfl⟩ _ _
    cases hout : s.outbound with
    | false =>
      refine ⟨env₁, c₁, ?_, hsame, fun _ => ⟨c.trace.length, fun k => ?_⟩,
        fun h => by simp [hy] at h, ht₁⟩
      · simpa [Slot.symInstrs, hy, hout, Slot.valueOf] using hr₁
      · rw [s.obj_of_not_outbound hout, ← s.obj_of_not_outbound hout .first, h1]
    | true =>
      have hst₁ : Stored dl n slots c₁.mem := by
        obtain ⟨cs, ho, hlen⟩ := hst s hs .first
        rw [hm₁]
        exact hst.set ho (by simp [hlen])
      have hp₁ : Pointers setup slots env₁ := hp.congr fun i => hr₁.frame (.inl hb.symm)
      obtain ⟨env₂, c₂, hr₂, hm₂, ht₂⟩ := symbolize_run (W := W) (M := M) (b := b) hl hs hst₁ hp₁
        hsym hsymF prev (pos + 1) .second (s.symName "2" s.name2)
      obtain ⟨cs₂, ho₂, hlen₂⟩ := hst₁ s hs .second
      have hp₂ : Pointers setup slots env₂ := hp₁.congr fun i => hr₂.frame (.inl hb.symm)
      have hlt₂ := (List.getElem?_eq_some_iff.1 ho₂).1
      have h2 : c₂.mem[s.obj .second]? = some (symbolicObj W dl n s c₁.trace.length) := by
        rw [hm₂, List.getElem?_set_self hlt₂]
      have h1' : c₂.mem[s.obj .first]? = some (symbolicObj W dl n s c.trace.length) := by
        rw [hm₂, List.getElem?_set_ne (s.obj_ne hout), h1]
      have hcopy := execOp_memcpy (W := W) (M := M) (F := F) (b := b) hcpy hcpyF
        (hp₂.eval hl dl hs .second) (hp₂.eval hl dl hs .first) h2 h1' (by simp)
        (a := s.allocSize dl n) (by simp [Slot.size]) prev
      have hcode : s.symInstrs setup dl n symbolize memcpy =
          [⟨.call symbolize [s.valueOf setup dl .first, getIntN 64 (s.allocSize dl n),
              .globalString (s.symName "1" s.name1)], ""⟩] ++
            [⟨.call symbolize [s.valueOf setup dl .second, getIntN 64 (s.allocSize dl n),
              .globalString (s.symName "2" s.name2)], ""⟩] ++
            [⟨.call memcpy [s.valueOf setup dl .second, s.valueOf setup dl .first,
              getIntN 64 (s.allocSize dl n)], ""⟩] := by
        simp [Slot.symInstrs, hy, hout, Slot.valueOf]
      rw [hcode]
      refine ⟨_, _, (hr₁.append hr₂).append (.single rfl hcopy), ?_,
        fun _ => ⟨c.trace.length, fun k => ?_⟩, fun h => by simp [hy] at h, fun b' => ?_⟩
      · apply hsame.trans
        rw [Core.log, hm₂]
        exact (ObjMem.Same.set ⟨.second, rfl⟩ _ _).trans (.set ⟨.second, rfl⟩ _ _)
      · show (c₂.mem.set _ _)[_]? = _
        cases k with
        | first => rw [List.getElem?_set_ne (s.obj_ne hout), h1']
        | second =>
          rw [List.getElem?_set_self (List.getElem?_eq_some_iff.1 h2).1]
          rfl
      · rw [Core.log, callsOf_append, ht₂, ht₁]
        exact List.append_nil _

end

end

/-! ## Both blocks -/

section
variable {h F : Nat} {f : Function} {n : IterationsNumTy} {specs : List ArgSpec} {H : Harness}
  {M' : Module}

/-- Where the setup leaves the run. -/
structure SetUp (W : World) (H : Harness) (env : InstRef → Option RVal) (c : Core) : Prop where
  pointers : Pointers H.base H.slots env
  prepared : Prepared W H.dl H.n H.slots c.mem
  trace : ∀ b', callsOf b' c.trace = []

theorem IsLayout.mem_of_isPrefix {params : List Param} {specs : List ArgSpec}
    {slots done : List Slot}
    (hl : IsLayout params specs slots) {s : Slot} (h : done ++ [s] <+: slots) :
    s ∈ slots ∧ s.idx = slotsWidth done := by
  obtain ⟨rest, rfl⟩ := h
  refine ⟨by simp, ?_⟩
  have := (hl.at_pos done.length s (by simp)).2.2
  simpa using this

theorem HarnessAt.setup_step (hat : HarnessAt h F f n specs H M') (hlink : H.Linked F)
    (W : World) : ∃ env c, step W M' F h (startAt H.base) =
      .inl ⟨H.id .setup, H.id .seSetup, env, c⟩ ∧ SetupRun W H.base H.dl H.n H.slots env c := by
  have hrun : ∃ env c, Runs W M' F (H.id .setup) H.base
      (H.slots.flatMap (Slot.setupInstrs H.dl H.n H.malloc)) 0 (fun _ => none) ⟨[], []⟩ env c ∧
      SetupRun W H.base H.dl H.n H.slots env c := by
    refine Runs.flatMap ⟨⟨rfl, fun i hi => absurd hi (Nat.not_lt_zero i), fun _ => rfl⟩,
      fun s hs => by cases hs⟩ fun done s env c hpre hdone => ?_
    obtain ⟨hmem, hidx⟩ := hat.layout.mem_of_isPrefix hpre
    obtain ⟨env', c', hr, hs⟩ := hdone.slot hat.dl_eq.symm hat.malloc_declared.name_eq
      (hlink.malloc s hmem) hidx
    refine ⟨env', c', ?_, hs⟩
    rwa [length_flatMap_setupInstrs, Nat.zero_add]
  obtain ⟨env, c, hr, hs⟩ := hrun
  refine ⟨env, c, ?_, hs⟩
  have hstep : step W M' F h (startAt H.base) = _ := hat.step_eq (B := .setup) trivial W _ _ _
  rw [hstep, Harness.instrs, hr.execInstrs]
  rfl

/-- What holds after some slots have been made symbolic. -/
structure SymbolicRun (W : World) (H : Harness) (done : List Slot)
    (env : InstRef → Option RVal) (c : Core) : Prop where
  pointers : Pointers H.base H.slots env
  symbolic : ∀ s ∈ done, s.symbolized →
    ∃ t, ∀ k, c.mem[s.obj k]? = some (symbolicObj W H.dl H.n s t)
  fresh : ∀ s ∈ H.slots, s ∉ done ∨ s.symbolized = false →
    ∀ k, c.mem[s.obj k]? = some (freshObj W H.dl H.n s k)
  trace : ∀ b', callsOf b' c.trace = []

theorem SymbolicRun.stored {W : World} {done : List Slot} {env : InstRef → Option RVal} {c : Core}
    (hr : SymbolicRun W H done env c) : Stored H.dl H.n H.slots c.mem := by
  intro s hs k
  by_cases hd : s ∈ done ∧ s.symbolized
  · obtain ⟨t, ht⟩ := hr.symbolic s hd.1 hd.2
    exact ⟨_, ht k, by simp⟩
  · refine ⟨_, hr.fresh s hs ?_ k, by simp⟩
    simpa [Classical.or_iff_not_imp_left] using hd

theorem HarnessAt.seSetup_step (hat : HarnessAt h F f n specs H M') (hlink : H.Linked F)
    {W : World} {prev : Nat} {env : InstRef → Option RVal} {c : Core}
    (hs : SetupRun W H.base H.dl H.n H.slots env c) :
    ∃ env' c', step W M' F h ⟨prev, H.id .seSetup, env, c⟩ =
      .inl ⟨H.id .seSetup, H.id .call1Setup, env', c'⟩ ∧ SetUp W H env' c' := by
  have hb : H.id .seSetup ≠ H.base := by simp [Harness.id]
  have hrun : ∃ env' c', Runs W M' F (H.id .seSetup) prev
      (H.slots.flatMap (Slot.symInstrs H.base H.dl H.n H.symbolize H.memcpy)) 0 env c env' c' ∧
      SymbolicRun W H H.slots env' c' := by
    refine Runs.flatMap ⟨hs.created.pointers, fun s hs => (List.not_mem_nil hs).elim,
      fun s hs' _ => hs.fresh s hs', hs.created.trace⟩ fun done s env c hpre hdone => ?_
    obtain ⟨hmem, -⟩ := hat.layout.mem_of_isPrefix hpre
    obtain ⟨env', c', hr, hsym⟩ := symInstrs_run (W := W) (M := M') hat.layout hmem hdone.stored
      hdone.pointers hb hat.symbolize_declared.name_eq hlink.symbolize hat.memcpy_declared.name_eq
      hlink.memcpy prev
      (0 + (done.flatMap (Slot.symInstrs H.base H.dl H.n H.symbolize H.memcpy)).length)
    -- the copies of the other slots are not touched
    have hother : ∀ s' ∈ H.slots, s' ≠ s → ∀ k, c'.mem[s'.obj k]? = c.mem[s'.obj k]? :=
      fun s' hs' hne k => hsym.same.objs _ fun ⟨k', hk'⟩ =>
        hat.layout.obj_ne hs' hmem hne k k' hk'
    refine ⟨env', c', hr, hdone.pointers.congr fun i => hr.frame (.inl hb.symm),
      fun s' hs' hy => ?_, fun s' hs' hd k => ?_, fun b' => (hsym.trace b').trans (hdone.trace b')⟩
    · by_cases he : s' = s
      · subst he
        exact hsym.symbolic hy
      · have hs'd : s' ∈ done := by simpa [he] using hs'
        obtain ⟨t, ht⟩ := hdone.symbolic s' hs'd hy
        refine ⟨t, fun k => ?_⟩
        rw [hother s' (hpre.subset hs') he, ht k]
    · by_cases he : s' = s
      · subst he
        have hy : s'.symbolized = false := by simpa using hd
        rw [hsym.fresh hy]
        exact hdone.fresh s' hs' (.inr hy) k
      · rw [hother s' hs' he]
        exact hdone.fresh s' hs' (by simpa [he] using hd) k
  obtain ⟨env', c', hr, hsym⟩ := hrun
  refine ⟨env', c', ?_, hsym.pointers, ⟨hsym.symbolic, fun s hs hy => hsym.fresh s hs (.inr hy)⟩,
    hsym.trace⟩
  rw [hat.step_eq (B := .seSetup) trivial, Harness.instrs, hr.execInstrs]
  rfl

/-- A harness that is started at its setup block gets to the first sequence of calls. -/
theorem HarnessAt.setup_run (hat : HarnessAt h F f n specs H M') (hlink : H.Linked F)
    (W : World) : ∃ env c, Machine.Steps (step W M' F h) (startAt H.base)
      ⟨H.id .seSetup, H.id .call1Setup, env, c⟩ ∧ SetUp W H env c := by
  obtain ⟨env₁, c₁, h1, hs₁⟩ := hat.setup_step hlink W
  obtain ⟨env, c, h2, hs⟩ := hat.seSetup_step hlink hs₁
  exact ⟨env, c, .head h1 (.single h2), hs⟩

end

end Ephippion
