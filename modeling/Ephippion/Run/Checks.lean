import Ephippion.Run.Call
import Ephippion.Run.Chain

/-!
# The checks and the teardown

From the start of its checks a harness runs to their end, to a failure or gets stuck, as `verdict`
says of the memory (`HarnessAt.checks_run`): the checks compare the copies in order and change
nothing. From their end it frees the heap copies (`HarnessAt.teardown_run`) and returns 0.
-/

namespace Ephippion

open ObjMem (Mem bytesAt)
open Machine

/-- The number of bytes of a slot's copies that are compared. -/
def Slot.comparedSize (dl : DataLayout) (n : IterationsNumTy) (s : Slot) : BitVec 64 :=
  multiplier s.spec n * dl.getTypeAllocSize (s.copyTy dl).getPointerElementType

/-- How the checks of some slots end on a memory: all pass, one fails or one is out of bounds. -/
def verdict (dl : DataLayout) (n : IterationsNumTy) (m : Mem) : List Slot → Option Bool
  | [] => some true
  | s :: ss => match ObjMem.cmp m (s.obj .first) (s.obj .second) (s.comparedSize dl n).toNat with
    | some true => verdict dl n m ss
    | r => r

section
variable {dl : DataLayout} {n : IterationsNumTy} {m : Mem}

theorem verdict_eq_true {ss : List Slot} : verdict dl n m ss = some true ↔ ∀ s ∈ ss,
    ObjMem.cmp m (s.obj .first) (s.obj .second) (s.comparedSize dl n).toNat = some true := by
  induction ss with
  | nil => simp [verdict]
  | cons s ss ih =>
    rw [verdict, List.forall_mem_cons, ← ih]
    split
    · rename_i h
      simp [h]
    · rename_i h
      exact ⟨fun h' => (h h').elim, fun h' => (h h'.1).elim⟩

/-- Checks that are all in bounds pass or fail. -/
theorem verdict_ne_none {ss : List Slot} (h : ∀ s ∈ ss,
    ObjMem.cmp m (s.obj .first) (s.obj .second) (s.comparedSize dl n).toNat ≠ none) :
    verdict dl n m ss ≠ none := by
  induction ss with
  | nil => simp [verdict]
  | cons s ss ih =>
    obtain ⟨h1, h2⟩ := List.forall_mem_cons.1 h
    rw [verdict]
    split
    · exact ih h2
    · exact h1

end

section
variable {h F : Nat} {f : Function} {n : IterationsNumTy} {specs : List ArgSpec} {H : Harness}
  {M' : Module} {W : World} (prev : Nat) {env : InstRef → Option RVal} {c : Core}

/-! ## The checks -/

theorem HarnessAt.fail_step (hat : HarnessAt h F f n specs H M') (hlink : H.Linked F) {j : Nat}
    (hj : j < H.m) : step W M' F h ⟨prev, H.id (.fail j), env, c⟩ =
      .inr (.failed (c.log c.mem (.assertFail (H.id (.fail j))))) :=
  failCode_step W env c (hat.code (.fail j) hj) hat.assert_declared.name_eq hlink.assert prev

/-- The code of a condition: the copies of its slot are compared, and the result with 0. -/
theorem Harness.instrs_cond {j : Nat} {s : Slot} (hs : H.checked[j]? = some s) :
    H.instrs (.cond j) = [⟨.call H.memcmp [s.value1 H.base H.dl, s.value2 H.base H.dl,
        getIntN 64 (s.comparedSize H.dl H.n)], ""⟩,
      ⟨.icmp .eq (Check.result (H.id (.cond j))) (getIntN 32 0), ""⟩,
      ⟨.condBr (.inst ⟨H.id (.cond j), 1⟩ .int1Ty "" false)
        (nextBlock (H.base + 12) H.m (H.id .seEnd) (j + 1)) (H.id (.fail j)), ""⟩] := by
  have hcheck : H.checks[j]? = some (s.check H.base H.dl) := by
    rw [Harness.checks, List.getElem?_map, hs]
    rfl
  have hby : (s.check H.base H.dl).byMemory = true := s.isPointerTy_copyTy H.dl
  have hsize : (s.check H.base H.dl).size H.dl H.n = s.comparedSize H.dl H.n := rfl
  simp only [Harness.instrs, hcheck, condCode, Check.condInstrs, Check.cond, hby, ite_true, hsize]
  rfl

theorem HarnessAt.cond_step (hat : HarnessAt h F f n specs H M') (hlink : H.Linked F) {j : Nat}
    {s : Slot} (hs : H.checked[j]? = some s) (hp : Pointers H.base H.slots env) :
    match ObjMem.cmp c.mem (s.obj .first) (s.obj .second) (s.comparedSize H.dl H.n).toNat with
    | none => step W M' F h ⟨prev, H.id (.cond j), env, c⟩ = .inr (.stuck c)
    | some eq => ∃ env' e, step W M' F h ⟨prev, H.id (.cond j), env, c⟩ =
        .inl ⟨H.id (.cond j), if eq then nextBlock (H.base + 12) H.m (H.id .seEnd) (j + 1)
          else H.id (.fail j), env', c.log c.mem e⟩ ∧ Pointers H.base H.slots env' ∧
        ∀ b, callsOf b [e] = [] := by
  have hj : j < H.m := (List.getElem?_eq_some_iff.1 hs).1
  have hmem : s ∈ H.slots := (List.mem_filter.1 (List.mem_of_getElem? hs)).1
  have hcheck : H.checks[j]? = some (s.check H.base H.dl) := by
    rw [Harness.checks, List.getElem?_map, hs]
    rfl
  have hcode : M'.instrs h (H.id (.cond j)) = condCode H.dl H.n H.memcmp (H.base + 12) H.m
      (H.id .seEnd) j (s.check H.base H.dl) := by
    rw [hat.code (.cond j) hj]
    simp only [Harness.instrs, hcheck]
  have hobj : (s.check H.base H.dl).objects env = some (s.obj .first, s.obj .second) :=
    Check.objects_eq_some.2 ⟨hp.eval hat.layout H.dl hmem .first,
      hp.eval hat.layout H.dl hmem .second⟩
  have hby : (s.check H.base H.dl).byMemory = true := s.isPointerTy_copyTy H.dl
  have hsize : (s.check H.base H.dl).size H.dl H.n = s.comparedSize H.dl H.n := rfl
  have hstep := condCode_step W env c hcode hat.memcmp_declared.name_eq hlink.memcmp prev
  simp only [Check.compares, hby, ite_true, hobj, hsize, Option.bind_some] at hstep
  cases hcmp : ObjMem.cmp c.mem (s.obj .first) (s.obj .second)
      (s.comparedSize H.dl H.n).toNat with
  | none =>
    rw [hcmp] at hstep
    exact hstep
  | some eq =>
    have hevents : (s.check H.base H.dl).events H.dl H.n env c.mem =
        [.compare (s.obj .first) (s.obj .second) (s.comparedSize H.dl H.n).toNat eq] := by
      simp [Check.events, hby, hobj, hsize, hcmp]
    rw [hcmp, hevents] at hstep
    obtain ⟨env', h1, hframe⟩ := hstep
    refine ⟨env', _, h1, hp.congr fun i => hframe _ ?_, fun _ => rfl⟩
    simp only [condBlock]
    omega

/-- The checks run as the verdict on the memory says, and leave it alone. -/
theorem HarnessAt.checks_run (hat : HarnessAt h F f n specs H M') (hlink : H.Linked F) :
    ∀ (rest : List Slot) (j : Nat), H.checked.drop j = rest → ∀ (prev : Nat)
      (env : InstRef → Option RVal) (c : Core), Pointers H.base H.slots env →
      match verdict H.dl H.n c.mem rest with
      | some true => ∃ prev' env' c', Steps (step W M' F h)
          ⟨prev, nextBlock (H.base + 12) H.m (H.id .seEnd) j, env, c⟩
          ⟨prev', H.id .seEnd, env', c'⟩ ∧ c'.mem = c.mem ∧ Pointers H.base H.slots env' ∧
          ∀ b, callsOf b c'.trace = callsOf b c.trace
      | some false => ∃ c', Halts (step W M' F h)
          ⟨prev, nextBlock (H.base + 12) H.m (H.id .seEnd) j, env, c⟩ (.failed c') ∧
          ∀ b, callsOf b c'.trace = callsOf b c.trace
      | none => ∃ c', Halts (step W M' F h)
          ⟨prev, nextBlock (H.base + 12) H.m (H.id .seEnd) j, env, c⟩ (.stuck c') ∧
          ∀ b, callsOf b c'.trace = callsOf b c.trace
  | [], j, hrest => by
    intro prev env c hp
    have hj : ¬ j < H.m := by
      have := List.drop_eq_nil_iff.1 hrest
      simpa [Harness.m] using this
    rw [nextBlock, if_neg hj]
    exact ⟨prev, env, c, .refl _, rfl, hp, fun _ => rfl⟩
  | s :: rest, j, hrest => by
    intro prev env c hp
    have hs : H.checked[j]? = some s := by
      rw [← List.head?_drop, hrest]
      rfl
    have hj : j < H.m := (List.getElem?_eq_some_iff.1 hs).1
    have hdrop : H.checked.drop (j + 1) = rest := by
      rw [← List.tail_drop, hrest]
      rfl
    have hcond : nextBlock (H.base + 12) H.m (H.id .seEnd) j = H.id (.cond j) := by
      rw [nextBlock, if_pos hj]
      rfl
    have hstep := hat.cond_step (W := W) prev (c := c) hlink hs hp
    rw [hcond, verdict]
    have hlog : ∀ {e : Event}, (∀ b, callsOf b [e] = []) → ∀ b,
        callsOf b (c.log c.mem e).trace = callsOf b c.trace := fun he b => by
      rw [Core.log, callsOf_append, he, List.append_nil]
    cases hcmp : ObjMem.cmp c.mem (s.obj .first) (s.obj .second)
        (s.comparedSize H.dl H.n).toNat with
    | none =>
      rw [hcmp] at hstep
      exact ⟨c, ⟨_, .refl _, hstep⟩, fun _ => rfl⟩
    | some eq =>
      rw [hcmp] at hstep
      obtain ⟨env₁, e, h1, hp₁, he⟩ := hstep
      cases eq with
      | false =>
        refine ⟨_, ⟨_, .single h1, hat.fail_step _ hlink hj⟩, fun b => ?_⟩
        rw [Core.log, callsOf_append, hlog he]
        exact List.append_nil _
      | true =>
        have hrun := hat.checks_run hlink rest (j + 1) hdrop (H.id (.cond j)) env₁
          (c.log c.mem e) hp₁
        have hmem : (c.log c.mem e).mem = c.mem := rfl
        rw [hmem] at hrun
        dsimp only
        cases hverd : verdict H.dl H.n c.mem rest with
        | none =>
          rw [hverd] at hrun
          obtain ⟨c', hh, ht⟩ := hrun
          exact ⟨c', Steps.halts (.single h1) hh, fun b => (ht b).trans (hlog he b)⟩
        | some eq =>
          rw [hverd] at hrun
          cases eq with
          | false =>
            obtain ⟨c', hh, ht⟩ := hrun
            exact ⟨c', Steps.halts (.single h1) hh, fun b => (ht b).trans (hlog he b)⟩
          | true =>
            obtain ⟨prev', env', c', hsteps, hm, hp', ht⟩ := hrun
            exact ⟨prev', env', c', .head h1 hsteps, hm, hp', fun b => (ht b).trans (hlog he b)⟩

/-! ## The teardown -/

/-- The heap copies of the slots that are still to be freed are live. -/
structure TeardownRun (H : Harness) (c₀ : Core) (done : List Slot) (env : InstRef → Option RVal)
    (c : Core) : Prop where
  pointers : Pointers H.base H.slots env
  live : ∀ s ∈ H.slots, s ∉ done → s.isPtr → ∀ k, ∃ cs, c.mem[s.obj k]? = some ⟨true, cs, false⟩
  calls : ∀ b, callsOf b c.trace = callsOf b c₀.trace

theorem execOp_free {b o : Nat} {v : Value} {M : Module} {free : FuncRef}
    (hname : free.name = "free") (hne : free.index ≠ F) (hv : v.eval env = some (.ptr o)) :
    execOp W M F b prev env c (.call free [v]) = .ofCore none (c.free o) := by
  simp [execOp, hv, hne, libCall, hname]

theorem free_run {b pos : Nat} {o : Nat} {v : Value} {cs : List ObjMem.Cell} {M : Module}
    {free : FuncRef} (hname : free.name = "free") (hne : free.index ≠ F)
    (hv : v.eval env = some (.ptr o)) (ho : c.mem[o]? = some ⟨true, cs, false⟩) :
    Runs W M F b prev [⟨.call free [v], ""⟩] pos env c (setValue env ⟨b, pos⟩ none)
      (c.log (c.mem.set o ⟨true, cs, true⟩) (.free o)) := by
  apply Runs.single rfl
  rw [execOp_free prev hname hne hv, Core.free, ObjMem.free_of ho]
  rfl

theorem freeInstrs_eq (H : Harness) : H.freeInstrs = H.slots.reverse.flatMap fun s =>
    (s.heapValues H.base H.dl).reverse.map fun v => ⟨.call H.free [v], ""⟩ := by
  rw [Harness.freeInstrs, List.reverse_flatMap, List.map_flatMap]
  rfl

theorem TeardownRun.slot {c₀ : Core} {done : List Slot} {s : Slot} {M : Module} {b : Nat}
    (hr : TeardownRun H c₀ done env c) (hl : IsLayout f.params specs H.slots) (hs : s ∈ H.slots)
    (hnew : s ∉ done) (hb : H.base ≠ b) (hname : H.free.name = "free") (hne : H.free.index ≠ F)
    (prev pos : Nat) :
    ∃ env' c', Runs W M F b prev ((s.heapValues H.base H.dl).reverse.map fun v =>
      ⟨.call H.free [v], ""⟩) pos env c env' c' ∧ TeardownRun H c₀ (done ++ [s]) env' c' := by
  have hset : ∀ (pos : Nat) (v : Option RVal) {env : InstRef → Option RVal},
      Pointers H.base H.slots env → Pointers H.base H.slots (setValue env ⟨b, pos⟩ v) :=
    fun pos v env hp => hp.congr fun i => setValue_ne (by simp [hb]) v
  have hcalls : ∀ (c : Core) (m : Mem) (o b' : Nat),
      callsOf b' (c.log m (.free o)).trace = callsOf b' c.trace := fun c m o b' => by
    rw [Core.log, callsOf_append]
    exact List.append_nil _
  -- what is freed is no copy of another slot
  have hlive : ∀ {m : Mem}, ObjMem.Same (fun o => ∃ k, o = s.obj k) c.mem m → ∀ s' ∈ H.slots,
      s' ∉ done ++ [s] → s'.isPtr → ∀ k, ∃ cs, m[s'.obj k]? = some ⟨true, cs, false⟩ := by
    intro m hsame s' hs' hn hptr k
    have hne : s' ≠ s := fun he => hn (by simp [he])
    obtain ⟨cs, ho⟩ := hr.live s' hs' (fun h => hn (List.mem_append_left _ h)) hptr k
    exact ⟨cs, by rw [hsame.objs _ fun he => hl.obj_ne hs' hs hne k he.choose he.choose_spec, ho]⟩
  cases hptr : s.isPtr with
  | false =>
    refine ⟨env, c, ?_, hr.pointers, hlive (.refl _ _), hr.calls⟩
    simp only [Slot.heapValues, hptr, Bool.false_eq_true, ite_false, List.reverse_nil, List.map_nil]
    exact .nil ..
  | true =>
    obtain ⟨cs₁, h1⟩ := hr.live s hs hnew hptr .first
    have hp := hr.pointers
    cases hout : s.outbound with
    | false =>
      have hcode : (s.heapValues H.base H.dl).reverse.map
          (fun v => (⟨.call H.free [v], ""⟩ : Instr)) =
          [⟨.call H.free [s.valueOf H.base H.dl .first], ""⟩] := by
        simp [Slot.heapValues, hptr, hout, Slot.valueOf]
      rw [hcode]
      exact ⟨_, _, free_run _ hname hne (hp.eval hl H.dl hs .first) h1, hset _ _ hp,
        hlive (.set ⟨.first, rfl⟩ _ _), fun b' => (hcalls _ _ _ b').trans (hr.calls b')⟩
    | true =>
      obtain ⟨cs₂, h2⟩ := hr.live s hs hnew hptr .second
      have hcode : (s.heapValues H.base H.dl).reverse.map
          (fun v => (⟨.call H.free [v], ""⟩ : Instr)) =
          [⟨.call H.free [s.valueOf H.base H.dl .second], ""⟩] ++
            [⟨.call H.free [s.valueOf H.base H.dl .first], ""⟩] := by
        simp [Slot.heapValues, hptr, hout, Slot.valueOf]
      rw [hcode]
      have hp₂ := hset pos none hp
      have h1' : (c.mem.set (s.obj .second) ⟨true, cs₂, true⟩)[s.obj .first]? =
          some ⟨true, cs₁, false⟩ := by
        rw [List.getElem?_set_ne (s.obj_ne hout), h1]
      have hsame : ObjMem.Same (fun o => ∃ k, o = s.obj k) c.mem
          (c.mem.set (s.obj .second) ⟨true, cs₂, true⟩) := .set ⟨.second, rfl⟩ _ _
      exact ⟨_, _, (free_run _ hname hne (hp.eval hl H.dl hs .second) h2).append
          (free_run _ hname hne (hp₂.eval hl H.dl hs .first) h1'), hset _ _ hp₂,
        hlive (hsame.trans (.set ⟨.first, rfl⟩ _ _)),
        fun b' => (hcalls _ _ _ b').trans ((hcalls _ _ _ b').trans (hr.calls b'))⟩

theorem HarnessAt.exit_step (hat : HarnessAt h F f n specs H M') :
    step W M' F h ⟨prev, H.id .exit, env, c⟩ = .inr (.returned (.int 0) c) :=
  hat.step_eq (B := .exit) trivial W _ _ _

theorem HarnessAt.teardown_run (hat : HarnessAt h F f n specs H M') (hlink : H.Linked F)
    (hp : Pointers H.base H.slots env) (hst : Stored H.dl H.n H.slots c.mem) :
    ∃ env' c', Steps (step W M' F h) ⟨prev, H.id .seEnd, env, c⟩
      ⟨H.id .teardown, H.id .exit, env', c'⟩ ∧ ∀ b, callsOf b c'.trace = callsOf b c.trace := by
  have hb : H.base ≠ H.id .teardown := by simp [Harness.id]
  have hnodup : H.slots.Nodup := hat.layout.apart.imp fun h he => h .first .first (by rw [he])
  have hrun : ∃ env' c', Runs W M' F (H.id .teardown) (H.id .seEnd) H.freeInstrs 0 env c env' c' ∧
      TeardownRun H c H.slots.reverse env' c' := by
    rw [freeInstrs_eq]
    refine Runs.flatMap ⟨hp, fun s hs _ hptr k => ?_, fun _ => rfl⟩
      fun done s env₁ c₁ hpre hdone => ?_
    · obtain ⟨cs, ho, -⟩ := hst s hs k
      exact ⟨cs, by rw [ho, hptr]⟩
    · have hnodup' : (done ++ [s]).Nodup := (List.nodup_reverse.2 hnodup).sublist hpre.sublist
      have hnew : s ∉ done := fun h =>
        List.disjoint_of_nodup_append hnodup' h (List.mem_singleton_self s)
      have hmem : s ∈ H.slots := List.mem_reverse.1 (hpre.subset (by simp))
      exact hdone.slot hat.layout hmem hnew hb hat.free_declared.name_eq hlink.free _ _
  obtain ⟨env', c', hr, hd⟩ := hrun
  refine ⟨env', c', .head (hat.step_eq (B := .seEnd) trivial W _ _ _) (.single ?_), hd.calls⟩
  rw [hat.step_eq (B := .teardown) trivial, Harness.instrs, hr.execInstrs]
  rfl

end

end Ephippion
