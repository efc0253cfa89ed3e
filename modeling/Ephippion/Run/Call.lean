import Ephippion.Model.Sequence
import Ephippion.Run.Setup

/-!
# The blocks that call

A call block loads the by-value copies, casts the pointers to the others and calls the encapsulated
function with them and the iterator (`HarnessAt.call_step`). On the contents of the copies it is one
call of `Sequence.once`; the objects of the other sequence's copies are not touched. If the first
parameter is not the iterator's the block is not left (`HarnessAt.call_stuck`): its cast stands in
no block.
-/

namespace Ephippion

open ObjMem (Byte Cell Mem bytesAt)
open Sequence

namespace Copy

def setup : Copy → HBlock
  | first => .call1Setup
  | second => .call2Setup

def body : Copy → HBlock
  | first => .call1
  | second => .call2

def hdr : Copy → HBlock
  | first => .hdr1
  | second => .hdr2

def latch : Copy → HBlock
  | first => .latch1
  | second => .latch2

def exit : Copy → HBlock
  | first => .exit1
  | second => .exit2

end Copy

namespace Harness

variable (H : Harness)

def ind : Copy → String
  | .first => H.ind1
  | .second => H.ind2

def args : Copy → List Arg
  | .first => H.args1
  | .second => H.args2

theorem args_eq (k : Copy) : H.args k = argsFrom H.func.type
    (indVar (H.id k.hdr) (H.ind k) :: H.slots.tail.map (Slot.valueOf H.base H.dl · k)) 0 := by
  cases k <;> simp only [args, args1, args2, List.map_tail] <;> rfl

theorem instrs_body (k : Copy) :
    H.instrs k.body = callCode H.func (H.id k.body) (H.id k.latch) (H.args k) := by
  cases k <;> rfl

theorem valid_loop (k : Copy) :
    H.Valid k.body ∧ H.Valid k.hdr ∧ H.Valid k.latch ∧ H.Valid k.exit := by
  cases k <;> exact ⟨trivial, trivial, trivial, trivial⟩

end Harness

/-! ## Operands -/

section
variable {W : World} {M : Module} {F b prev : Nat} {env : InstRef → Option RVal} {c : Core}

/-- The argument `a` is an instruction of another block, and passing it passes `v`. -/
structure Arg.Gives (b : Nat) (env : InstRef → Option RVal) (m : Mem) (a : Arg) (v : RVal) :
    Prop where
  inst : ∃ ref type name isAlloca, a.value = .inst ref type name isAlloca ∧ ref.block ≠ b
  alloca : a.value.getType.isPointerTy → a.value.isAllocaInst →
    ∃ o cs, a.value.eval env = some (.ptr o) ∧ ObjMem.cells? m o = some cs ∧ v = .bytes cs
  direct : ¬ (a.value.getType.isPointerTy ∧ a.value.isAllocaInst) → a.value.eval env = some v
  type : a.value.getType.isPointerTy = false → a.value.getType = a.type

theorem Arg.Gives.setValue {m : Mem} {a : Arg} {v : RVal} (h : a.Gives b env m v) (pos : Nat)
    (x : Option RVal) : a.Gives b (setValue env ⟨b, pos⟩ x) m v := by
  obtain ⟨⟨ref, ty, name, al, hv, hb⟩, h2, h3, h4⟩ := h
  have he : a.value.eval (Ephippion.setValue env ⟨b, pos⟩ x) = a.value.eval env := by
    rw [hv]
    exact setValue_ne (by rintro rfl; exact hb rfl) x
  exact ⟨⟨ref, ty, name, al, hv, hb⟩, by rwa [he], by rwa [he], h4⟩

theorem Arg.Gives.exec {a : Arg} {v : RVal} (h : a.Gives b env c.mem v) {i : Instr}
    (hi : a.instr? = some i) :
    i.op.isTerminator = false ∧ execOp W M F b prev env c i.op = .value (some v) c := by
  unfold Arg.instr? at hi
  split at hi
  · rename_i hptr
    split at hi
    · rename_i hal
      cases hi
      obtain ⟨o, cs, h1, h2, rfl⟩ := h.alloca hptr hal
      exact ⟨rfl, by simp [execOp, h1, h2]⟩
    · rename_i hal
      split at hi
      · cases hi
      · cases hi
        have := h.direct fun h' => hal h'.2
        exact ⟨rfl, by simp [execOp, this]⟩
  · cases hi

/-- An operand without an instruction is the argument itself. -/
theorem Arg.Gives.operand {a : Arg} {v : RVal} {m : Mem} (h : a.Gives b env m v)
    (hi : a.instr? = none) (ref : InstRef) :
    a.operand ref = a.value ∧ a.value.eval env = some v := by
  obtain ⟨⟨_, ty, name, al, hv, -⟩, -, h3, h4⟩ := h
  have hc : a.value.isConstant = false := by rw [hv]; rfl
  simp only [Arg.operand, hi]
  unfold Arg.instr? at hi
  split at hi
  · rename_i hptr
    split at hi
    · cases hi
    · rename_i hal
      split at hi
      · rename_i hty
        rw [hc] at hty
        rw [if_pos (by simpa using hty)]
        exact ⟨rfl, h3 fun h' => hal h'.2⟩
      · cases hi
  · rename_i hptr
    rw [if_pos (h4 (by simpa using hptr))]
    exact ⟨rfl, h3 fun h' => hptr h'.1⟩

/-- The code of the operands runs, and they are what the arguments give. -/
theorem operands_run : ∀ (args : List Arg) (vals : List RVal) (pos : Nat)
    (env : InstRef → Option RVal), List.Forall₂ (Arg.Gives b env c.mem) args vals →
      ∃ env', Runs W M F b prev (operandInstrs args) pos env c env' c ∧
        (operandValues b pos args).mapM (·.eval env') = some vals
  | [], _, pos, env, .nil => ⟨env, .nil .., rfl⟩
  | a :: args, v :: vals, pos, env, .cons h hs => by
    cases hi : a.instr? with
    | none =>
      obtain ⟨hop, hv⟩ := h.operand hi ⟨b, pos⟩
      obtain ⟨env', hr, hvals⟩ := operands_run args vals pos env hs
      refine ⟨env', ?_, ?_⟩
      · rw [operandInstrs_cons, hi]
        exact hr
      · have heval : a.value.eval env' = some v := by
          obtain ⟨⟨ref, _, _, _, heq, hb⟩, -⟩ := h
          rw [heq] at hv ⊢
          exact (hr.frame (r := ref) (.inl hb)).trans hv
        rw [operandValues, hi, hop]
        simp [heval, hvals]
    | some i =>
      obtain ⟨ht, he⟩ := h.exec (W := W) (M := M) (F := F) (b := b) hi
      obtain ⟨env', hr, hvals⟩ := operands_run args vals (pos + 1) (setValue env ⟨b, pos⟩ (some v))
        (hs.imp fun _ _ h => h.setValue pos _)
      refine ⟨env', ?_, ?_⟩
      · rw [operandInstrs_cons, hi]
        exact .cons ht he hr
      · have heval : (Value.inst ⟨b, pos⟩ i.op.type "" false).eval env' = some v :=
          (hr.frame (r := ⟨b, pos⟩) (.inr (Nat.lt_succ_self pos))).trans (setValue_same ..)
        have hop : a.operand ⟨b, pos⟩ = .inst ⟨b, pos⟩ i.op.type "" false := by
          simp only [Arg.operand, hi]
        rw [operandValues, hi, hop]
        simp [heval, hvals]

/-- The code of any operands runs or gets stuck, and does nothing else. -/
theorem operands_run_or_stuck : ∀ (args : List Arg) (pos : Nat) (env : InstRef → Option RVal),
    (∃ env', Runs W M F b prev (operandInstrs args) pos env c env' c) ∨
      ∀ rest, execInstrs W M F b prev (operandInstrs args ++ rest) pos env c = .inr (.stuck c)
  | [], _, env => .inl ⟨env, .nil ..⟩
  | a :: args, pos, env => by
    rw [operandInstrs_cons]
    cases hi : a.instr? with
    | none => exact operands_run_or_stuck args pos env
    | some i =>
      have hop : i.op.isTerminator = false ∧ ((∃ v, execOp W M F b prev env c i.op = .value v c) ∨
          execOp W M F b prev env c i.op = .stuck) := by
        unfold Arg.instr? at hi
        split at hi
        · split at hi
          · cases hi
            refine ⟨rfl, ?_⟩
            unfold execOp
            dsimp only
            split
            · split
              · exact .inl ⟨_, rfl⟩
              · exact .inr rfl
            · exact .inr rfl
          · split at hi <;> cases hi
            refine ⟨rfl, ?_⟩
            unfold execOp
            dsimp only
            split
            · exact .inl ⟨_, rfl⟩
            · exact .inr rfl
        · cases hi
      obtain ⟨ht, ⟨v, hv⟩ | hs⟩ := hop
      · rcases operands_run_or_stuck args (pos + 1) (setValue env ⟨b, pos⟩ v) with ⟨env', hr⟩ | hr
        · exact .inl ⟨env', .cons ht hv hr⟩
        · right
          intro rest
          rw [Option.toList_some, List.cons_append, List.cons_append, execInstrs_cons ht, hv]
          exact hr rest
      · right
        intro rest
        rw [Option.toList_some, List.cons_append, List.cons_append, execInstrs_cons ht, hs]

end

/-! ## The arguments of a call -/

/-- What is passed for a copy: the pointer to it, or its contents. -/
def Slot.passed (m : Mem) (k : Copy) (s : Slot) : RVal :=
  if s.isPtr then .ptr (s.obj k) else .bytes ((ObjMem.cells? m (s.obj k)).getD [])

section
variable {dl : DataLayout} {n : IterationsNumTy} {slots : List Slot} {params : List Param}
  {specs : List ArgSpec} {m : Mem}

theorem Slot.gives {base b : Nat} {env : InstRef → Option RVal}
    (hl : IsLayout params specs slots) (hst : Stored dl n slots m)
    (hp : Pointers base slots env) (hb : b ≠ base) {s : Slot} (hs : s ∈ slots) (k : Copy)
    (type : Ty) : (Arg.mk (s.valueOf base dl k) type).Gives b env m (s.passed m k) := by
  obtain ⟨name, hv⟩ := s.valueOf_eq base dl k
  obtain ⟨cs, ho, -⟩ := hst s hs k
  have he := hp.eval hl dl hs k
  have hal : (s.valueOf base dl k).isAllocaInst = !s.isPtr := by rw [hv]; rfl
  have hpt : (s.valueOf base dl k).getType.isPointerTy = true := by
    rw [hv]
    exact s.isPointerTy_copyTy dl
  refine ⟨⟨_, _, _, _, hv, hb.symm⟩, fun _ h => ⟨_, cs, he, ObjMem.cells?_of ho, ?_⟩,
    fun h => ?_, fun h => ?_⟩
  · dsimp only at h
    have hptr : s.isPtr = false := by rw [hal] at h; simpa using h
    simp [Slot.passed, hptr, ObjMem.cells?_of ho]
  · dsimp only at h ⊢
    have hptr : s.isPtr = true := by rw [hal, hpt] at h; simpa using h
    rw [he, Slot.passed, if_pos hptr]
  · dsimp only at h
    rw [hpt] at h
    cases h

theorem forall₂_gives {base b : Nat} {env : InstRef → Option RVal}
    (hl : IsLayout params specs slots) (hst : Stored dl n slots m)
    (hp : Pointers base slots env) (hb : b ≠ base) (k : Copy) (ft : FunctionType) :
    ∀ (ss : List Slot) (i : Nat), ss ⊆ slots → List.Forall₂ (Arg.Gives b env m)
      (argsFrom ft (ss.map (Slot.valueOf base dl · k)) i) (ss.map (Slot.passed m k))
  | [], _, _ => .nil
  | _ :: ss, i, hss => .cons
      (Slot.gives hl hst hp hb (hss List.mem_cons_self) k _)
      (forall₂_gives hl hst hp hb k ft ss (i + 1) fun _ h => hss (List.mem_cons_of_mem _ h))

/-- The function sees the contents of the copies. -/
theorem mapM_argContents (hst : Stored dl n slots m) (k : Copy) :
    (slots.map (Slot.passed m k)).mapM (Core.argContents m) = some (contents slots k m) := by
  rw [List.mapM_map]
  have h : ∀ s ∈ slots, Core.argContents m (s.passed m k) = some (bytesAt m (s.obj k)) := by
    intro s hs
    obtain ⟨cs, ho, -⟩ := hst s hs k
    cases hptr : s.isPtr <;>
      simp [Slot.passed, hptr, Core.argContents, ObjMem.bytesAt, ObjMem.cells?_of ho]
  rw [contents]
  clear hst
  induction slots with
  | nil => rfl
  | cons s ss ih =>
    rw [List.mapM_cons]
    simp [h s List.mem_cons_self, ih fun s' hs' => h s' (List.mem_cons_of_mem _ hs')]

/-- The objects the function can write to through a sequence's arguments. -/
def Passed (ss : List Slot) (k : Copy) (o : Nat) : Prop := ∃ s ∈ ss, s.isPtr = true ∧ o = s.obj k

/-- The copy of an outbound argument that belongs to the other sequence is not passed. -/
theorem IsLayout.not_passed (hl : IsLayout params specs slots) {s : Slot} (hs : s ∈ slots)
    (hout : s.outbound) {k k' : Copy} (hk : k ≠ k') : ¬ Passed slots.tail k (s.obj k') := by
  intro hx
  obtain ⟨s', hs', -, he⟩ := hx
  by_cases hne : s = s'
  · subst hne
    have := s.obj_ne hout
    cases k <;> cases k' <;> first | exact hk rfl | exact this he | exact this he.symm
  · exact hl.obj_ne hs (List.mem_of_mem_tail hs') hne _ _ he

theorem Passed.cons {ss : List Slot} {k : Copy} {o : Nat} (s : Slot) (h : Passed ss k o) :
    Passed (s :: ss) k o := by
  obtain ⟨s', hs', ho⟩ := h
  exact ⟨s', List.mem_cons_of_mem _ hs', ho⟩

theorem not_passed {s : Slot} {ss : List Slot}
    (hap : ∀ s' ∈ ss, ∀ k k', s.obj k ≠ s'.obj k') (k k' : Copy) : ¬ Passed ss k (s.obj k') := by
  intro h
  obtain ⟨s', hs', -, he⟩ := h
  exact hap s' hs' k' k he

theorem writeBack_spec {all : List Slot} (m₀ : Mem) (k : Copy) : ∀ (ss : List Slot)
    (news : Contents) (m : Mem), ss ⊆ all →
      ss.Pairwise (fun s s' => ∀ k k', s.obj k ≠ s'.obj k') → Stored dl n all m →
      news.map List.length = (contents ss k m).map List.length →
      ∃ m', Core.writeBack m ((ss.map (Slot.passed m₀ k)).zip news) = some m' ∧
        ObjMem.Same (Passed ss k) m m' ∧ Stored dl n all m' ∧
        contents ss k m' = keep (ss.map Slot.isPtr) (contents ss k m) news
  | [], news, m, _, _, hst, _ => ⟨m, rfl, .refl _ m, hst, rfl⟩
  | s :: ss, [], m, _, _, _, hlen => by simp [contents] at hlen
  | s :: ss, new :: news, m, hss, hap, hst, hlen => by
    have hs := hss List.mem_cons_self
    have hss' : ss ⊆ all := fun _ h => hss (List.mem_cons_of_mem _ h)
    obtain ⟨hap1, hap2⟩ := List.pairwise_cons.1 hap
    obtain ⟨cs, ho, hcs⟩ := hst s hs k
    simp only [contents, List.map_cons, List.cons.injEq] at hlen
    cases hptr : s.isPtr with
    | false =>
      obtain ⟨m', h1, h2, h3, h4⟩ := writeBack_spec m₀ k ss news m hss' hap2 hst hlen.2
      refine ⟨m', ?_, h2.mono fun _ => .cons s, h3, ?_⟩
      · simpa [Slot.passed, hptr, Core.writeBack] using h1
      · have hsame : bytesAt m' (s.obj k) = bytesAt m (s.obj k) :=
          h2.bytesAt (not_passed hap1 k k)
        simp only [contents, List.map_cons, keep, hptr, hsame] at h4 ⊢
        rw [h4]
        rfl
    | true =>
      have hbytes : new.length = cs.length := by
        rw [hlen.1, ObjMem.bytesAt_of ho, List.length_map]
      have hw := ObjMem.write_of ho hbytes
      have hlt := (List.getElem?_eq_some_iff.1 ho).1
      have hst₁ : Stored dl n all (m.set (s.obj k) ⟨s.isPtr, new.map fun b => ⟨b, false⟩, false⟩) :=
        hst.set ho (by simp [hbytes])
      have hrest : contents ss k (m.set (s.obj k) ⟨s.isPtr, new.map fun b => ⟨b, false⟩, false⟩) =
          contents ss k m :=
        contents_congr fun s' hs' => by rw [List.getElem?_set_ne (hap1 s' hs' k k)]
      have hsame : ObjMem.Same (Passed (s :: ss) k) m
          (m.set (s.obj k) ⟨s.isPtr, new.map fun b => ⟨b, false⟩, false⟩) :=
        .set ⟨s, List.mem_cons_self, hptr, rfl⟩ m _
      obtain ⟨m', h1, h2, h3, h4⟩ := writeBack_spec m₀ k ss news _ hss' hap2 hst₁
        (by rw [hrest]; exact hlen.2)
      refine ⟨m', ?_, ?_, h3, ?_⟩
      · simp only [List.map_cons, Slot.passed, hptr, ite_true, List.zip_cons_cons, Core.writeBack]
        rw [hw, Option.bind_some]
        exact h1
      · exact hsame.trans (h2.mono fun _ => .cons s)
      · have hnew : bytesAt m' (s.obj k) = new := by
          rw [h2.bytesAt (not_passed hap1 k k),
            ObjMem.bytesAt_of (List.getElem?_set_self hlt)]
          simp [Function.comp_def]
        rw [hrest] at h4
        simp only [contents, List.map_cons, keep, hptr, hnew] at h4 ⊢
        rw [h4]
        rfl

end

/-! ## The block -/

section
variable {h F : Nat} {f : Function} {n : IterationsNumTy} {specs : List ArgSpec} {H : Harness}
  {M' : Module} {W : World} (prev : Nat) {env : InstRef → Option RVal} {c : Core} {v : BitVec 64}

/-- Which arguments are passed by reference. -/
def Harness.refs (H : Harness) : List Bool := H.slots.map Slot.isPtr

/-- A call of the sequence `k` with the iterator `v` has left `bs`. -/
structure CallDone (H : Harness) (k : Copy) (v : BitVec 64) (env : InstRef → Option RVal) (c : Core)
    (bs : Contents) (env' : InstRef → Option RVal) (c' : Core) : Prop where
  frame : ∀ r : InstRef, r.block ≠ H.id k.body → env' r = env r
  stored : Stored H.dl H.n H.slots c'.mem
  contents_eq : contents H.slots k c'.mem = bs
  same : ObjMem.Same (Passed H.slots.tail k) c.mem c'.mem
  trace : ∃ args, c'.trace = c.trace ++ [.call (H.id k.body) v args]

theorem HarnessAt.slots_ne (hat : HarnessAt h F f n specs H M') : H.slots ≠ [] := fun he => by
  have := hat.layout.length
  rw [he] at this
  exact hat.params_ne (List.length_eq_zero_iff.1 this.symm)

theorem HarnessAt.call_operands (hat : HarnessAt h F f n specs H M') (hi : TakesIterator f)
    (k : Copy) (hp : Pointers H.base H.slots env) (hst : Stored H.dl H.n H.slots c.mem)
    (hv : env ⟨H.id k.hdr, 0⟩ = some (.int v)) :
    ∃ env', Runs W M' F (H.id k.body) prev (operandInstrs (H.args k)) 0 env c env' c ∧
      (operandValues (H.id k.body) 0 (H.args k)).mapM (·.eval env') =
        some (.int v :: H.slots.tail.map (Slot.passed c.mem k)) := by
  have hb : H.id k.body ≠ H.base := by cases k <;> simp [Copy.body, Harness.id]
  have hty : H.func.type.getParamType 0 = .int64Ty := by
    rw [hat.func_eq]
    unfold TakesIterator at hi
    cases hps : f.params with
    | nil => exact (hat.params_ne hps).elim
    | cons p ps =>
      rw [hps] at hi
      simpa [Function.getFunctionType, FunctionType.getParamType, hps] using hi
  rw [H.args_eq k]
  refine operands_run _ _ 0 env (.cons ⟨⟨_, _, _, _, rfl, ?_⟩, fun h => ?_, fun _ => hv,
    fun _ => hty.symm⟩ ?_)
  · cases k <;> simp [Copy.body, Copy.hdr, Harness.id] <;> omega
  · cases h
  · exact forall₂_gives hat.layout hst hp hb k _ _ _ fun _ h => List.mem_of_mem_tail h

/-- A call that does not return leaves the run where it is, any other one goes on to the latch. -/
theorem HarnessAt.call_step (hat : HarnessAt h F f n specs H M') (hi : TakesIterator f) (k : Copy)
    (hp : Pointers H.base H.slots env) (hst : Stored H.dl H.n H.slots c.mem)
    (hv : env ⟨H.id k.hdr, 0⟩ = some (.int v)) :
    match once W.call H.refs c.trace.length v (contents H.slots k c.mem) with
    | none => step W M' F h ⟨prev, H.id k.body, env, c⟩ = .inr (.stuck c)
    | some bs => ∃ env' c', step W M' F h ⟨prev, H.id k.body, env, c⟩ =
        .inl ⟨H.id k.body, H.id k.latch, env', c'⟩ ∧ CallDone H k v env c bs env' c' := by
  obtain ⟨env₁, hr, hvals⟩ := hat.call_operands (W := W) prev hi k hp hst hv
  have hF : H.func.index = F := by rw [hat.func_eq]
  have htail : (contents H.slots k c.mem).tail = contents H.slots.tail k c.mem := by
    rw [contents, contents, List.map_tail]
  have hcall : c.call W (H.id k.body) (.int v :: H.slots.tail.map (Slot.passed c.mem k)) =
      (W.call c.trace.length v (contents H.slots k c.mem).tail).bind fun news =>
        (Core.writeBack c.mem ((H.slots.tail.map (Slot.passed c.mem k)).zip news)).map
          (c.log · (.call (H.id k.body) v (H.slots.tail.map (Slot.passed c.mem k)))) := by
    rw [Core.call, mapM_argContents hst.tail, Option.bind_some, htail]
  have hop : execOp W M' F (H.id k.body) prev env₁ c
      (.call H.func (operandValues (H.id k.body) 0 (H.args k))) =
      .ofCore none (c.call W (H.id k.body) (.int v :: H.slots.tail.map (Slot.passed c.mem k))) := by
    simp [execOp, hvals, hF]
  rw [hat.step_eq (H.valid_loop k).1, H.instrs_body k, callCode, List.append_assoc,
    hr.execInstrs, List.singleton_append, execInstrs_cons rfl, hop, hcall, once]
  cases hW : W.call c.trace.length v (contents H.slots k c.mem).tail with
  | none => rfl
  | some news =>
    have hap := hat.layout.apart
    obtain ⟨s₀, ss, hss⟩ := List.exists_cons_of_ne_nil hat.slots_ne
    rw [htail] at hW
    obtain ⟨m', h1, h2, h3, h4⟩ := writeBack_spec c.mem k H.slots.tail news
      c.mem (fun _ h => List.mem_of_mem_tail h) (hap.sublist (List.tail_sublist _)) hst
      (W.shape _ _ _ _ hW)
    refine ⟨setValue env₁ ⟨H.id k.body, 0 + (operandInstrs (H.args k)).length⟩ none,
      c.log m' (.call (H.id k.body) v (H.slots.tail.map (Slot.passed c.mem k))), ?_,
      fun r hr' => ?_, h3, ?_, h2, ⟨_, rfl⟩⟩
    · simp only [Option.bind_some, h1, Option.map_some, OpResult.ofCore]
      rfl
    · rw [setValue_ne fun he => hr' (by rw [he]), hr.frame (.inl hr')]
    · -- the first argument's copy is not passed
      have hhead : bytesAt m' (s₀.obj k) = bytesAt c.mem (s₀.obj k) := by
        rw [hss] at hap h2
        exact h2.bytesAt (not_passed (List.pairwise_cons.1 hap).1 k k)
      show contents H.slots k m' = _
      rw [Harness.refs, hss] at *
      simp only [List.tail_cons] at h4
      simp only [contents, List.map_cons, List.take_succ_cons, List.take_zero, List.tail_cons,
        List.singleton_append, hhead]
      rw [← contents, h4]
      rfl

/-- The iterator's operand, if the first parameter is not the iterator's. -/
theorem eval_operand_indVar {hdr : Nat} {name : String} {type : Ty} (ht : type ≠ .int64Ty)
    (ref : InstRef) : ((Arg.mk (indVar hdr name) type).operand ref).eval env = none := by
  have hi : (Arg.mk (indVar hdr name) type).instr? = none := rfl
  have hty : (indVar hdr name).getType ≠ type := fun he => ht he.symm
  simp only [Arg.operand, hi, if_neg hty]
  rw [if_neg (by simp [indVar, Value.getType, Ty.isPointerTy]), createZExtOrBitCast]
  split <;> rfl

/-- If the first parameter is not the iterator's, the block is not left. -/
theorem HarnessAt.call_stuck (hat : HarnessAt h F f n specs H M') (hi : ¬ TakesIterator f)
    (k : Copy) : step W M' F h ⟨prev, H.id k.body, env, c⟩ = .inr (.stuck c) := by
  have hty : H.func.type.getParamType 0 ≠ .int64Ty := by
    rw [hat.func_eq]
    unfold TakesIterator at hi
    cases hps : f.params with
    | nil => exact (hat.params_ne hps).elim
    | cons p ps =>
      rw [hps] at hi
      simpa [Function.getFunctionType, FunctionType.getParamType, hps] using hi
  rw [hat.step_eq (H.valid_loop k).1, H.instrs_body k, callCode, List.append_assoc]
  rcases operands_run_or_stuck (W := W) (M := M') (F := F) (b := H.id k.body) (c := c) (H.args k) 0
    env with ⟨env', hr⟩ | hs
  · rw [hr.execInstrs, List.singleton_append, execInstrs_cons rfl]
    have hvals : (operandValues (H.id k.body) 0 (H.args k)).mapM (·.eval env') = none := by
      rw [H.args_eq k, argsFrom, operandValues, List.mapM_cons, eval_operand_indVar hty]
      rfl
    have hop : execOp W M' F (H.id k.body) prev env' c
        (.call H.func (operandValues (H.id k.body) 0 (H.args k))) = .stuck := by
      simp [execOp, hvals]
    rw [hop]
  · exact hs _

end

end Ephippion
