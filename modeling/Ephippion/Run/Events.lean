import Ephippion.Run.Straight

/-!
# What a block logs

The trace of a run only grows, and what a block adds to it is logged by its instructions
(`step_emits`): a library function's events by calls of that function, the encapsulated function's
by its calls, with the iterator that is given first (`Emits`). So a block makes no call from another
one (`step_callsOf`). The values of other blocks stay as they are (`step_env`).
-/

namespace Ephippion

section
variable {W : World} {M : Module} {F b prev : Nat} {env : InstRef → Option RVal} {c : Core}

/-- The operation calls a function of that name other than the encapsulated one. -/
def Op.CallsLibrary (F : Nat) (name : String) (op : Op) : Prop :=
  ∃ callee args, op = .call callee args ∧ callee.index ≠ F ∧ callee.name = name

/-- The operation can log the event, in block `b` with the values `env`. -/
def Emits (F b : Nat) (env : InstRef → Option RVal) (op : Op) : Event → Prop
  | .alloc _ heap _ =>
    if heap then op.CallsLibrary F "malloc" else ∃ t addrSpace, op = .alloca t addrSpace
  | .symbolize _ _ _ => op.CallsLibrary F "klee_make_symbolic"
  | .copy _ _ _ => op.CallsLibrary F "memcpy"
  | .call b' v _ => b' = b ∧ ∃ callee iter args, op = .call callee (iter :: args) ∧
      callee.index = F ∧ iter.eval env = some (.int v)
  | .compare _ _ _ _ => op.CallsLibrary F "memcmp"
  | .free _ => op.CallsLibrary F "free"
  | .assertFail _ => op.CallsLibrary F "__assert_fail"
  | .foreign text => ∃ type succs, op = .foreign type succs text
  | .other name _ => op.CallsLibrary F name

/-- An operation does nothing to the trace, or it logs one event. -/
inductive Logs (P : Event → Prop) (c : Core) : OpResult → Prop
  | same (v : Option RVal) : Logs P c (.value v c)
  | value (v : Option RVal) (m : ObjMem.Mem) {e : Event} : P e → Logs P c (.value v (c.log m e))
  | failed (m : ObjMem.Mem) {e : Event} : P e → Logs P c (.failed (c.log m e))
  | stuck : Logs P c .stuck

theorem Logs.ofCore {P : Event → Prop} {m : Option ObjMem.Mem} {e : Event} (v : Option RVal)
    (he : P e) : Logs P c (.ofCore v (m.map (c.log · e))) := by
  cases m with
  | none => exact .stuck
  | some m => exact .value v m he

theorem Logs.ofEffect {P : Event → Prop} {e : Event} (r : Option (Option RVal × ObjMem.Mem))
    (he : P e) : Logs P c (.ofEffect c e r) := by
  cases r with
  | none => exact .stuck
  | some r => exact .value _ _ he

theorem Core.compare_eq {a o n : Nat} : c.compare a o n =
    (ObjMem.cmp c.mem a o n).map fun eq => (eq, c.log c.mem (.compare a o n eq)) := rfl

theorem libCall_logs {callee : FuncRef} (hne : callee.index ≠ F) (args : List Value)
    (vals : List RVal) :
    Logs (Emits F b env (.call callee args)) c (libCall W c b callee.name vals) := by
  unfold libCall
  split
  · split
    · exact .value _ _ ⟨callee, args, rfl, hne, ‹_›⟩
    · exact .stuck
  split
  · split
    · exact .ofCore _ ⟨callee, args, rfl, hne, ‹_›⟩
    · exact .stuck
  split
  · split
    · exact .ofCore _ ⟨callee, args, rfl, hne, ‹_›⟩
    · exact .stuck
  split
  · split
    · exact .ofCore _ ⟨callee, args, rfl, hne, ‹_›⟩
    · exact .stuck
  split
  · split
    · rename_i a o n
      rw [Core.compare_eq]
      cases ObjMem.cmp c.mem a o n.toNat with
      | none => exact .stuck
      | some eq => exact .value _ _ ⟨callee, args, rfl, hne, ‹_›⟩
    · exact .stuck
  split
  · exact .failed _ ⟨callee, args, rfl, hne, ‹_›⟩
  · exact .ofEffect _ ⟨callee, args, rfl, hne, rfl⟩

theorem call_logs {callee : FuncRef} (hF : callee.index = F) {args : List Value}
    {vals : List RVal} (hvals : args.mapM (·.eval env) = some vals) :
    Logs (Emits F b env (.call callee args)) c (.ofCore none (c.call W b vals)) := by
  unfold Core.call
  split
  · rename_i iter vals
    -- the iterator is what the first operand evaluates to
    have hiter : ∃ a as, args = a :: as ∧ a.eval env = some (.int iter) := by
      cases args with
      | nil => cases hvals
      | cons a as =>
        refine ⟨a, as, rfl, ?_⟩
        rw [List.mapM_cons] at hvals
        cases ha : a.eval env with
        | none => simp [ha] at hvals
        | some r =>
          cases has : as.mapM (·.eval env) with
          | none => simp [ha, has] at hvals
          | some rs =>
            simp [ha, has] at hvals
            rw [hvals.1]
    obtain ⟨a, as, rfl, ha⟩ := hiter
    cases vals.mapM (Core.argContents c.mem) with
    | none => exact .stuck
    | some bs =>
      rw [Option.bind_some]
      cases W.call c.trace.length iter bs with
      | none => exact .stuck
      | some bs' => exact .ofCore _ ⟨rfl, callee, a, as, rfl, hF, ha⟩
  · exact .stuck

theorem execOp_logs (op : Op) : Logs (Emits F b env op) c (execOp W M F b prev env c op) := by
  cases op with
  | alloca t s => exact .value _ _ ⟨t, s, rfl⟩
  | call callee args =>
    unfold execOp
    dsimp only
    split
    · split
      · exact call_logs ‹_› ‹_›
      · exact libCall_logs ‹_› _ _
    · exact .stuck
  | load p =>
    unfold execOp
    dsimp only
    split
    · split
      · exact .same _
      · exact .stuck
    · exact .stuck
  | foreign type succs text => exact .ofEffect _ ⟨type, succs, rfl⟩
  | _ =>
    unfold execOp
    dsimp only
    first
      | exact .stuck
      | (split <;> first | exact .same _ | exact .stuck)

/-! ## Blocks -/

/-- The core a block's execution ends with. -/
def coreOf : Config ⊕ Outcome → Core := Sum.elim Config.core Outcome.core

theorem leave_core {succs : List Nat} {text : String} :
    coreOf (leave W b succs text env c) = c := by
  unfold leave
  split
  · split <;> rfl
  · rfl
  · rfl

/-- What an operation that comes to its end, or fails, adds to the trace. -/
theorem Logs.trace {P : Event → Prop} {r : OpResult} (h : Logs P c r) {c' : Core}
    (hr : (∃ v, r = .value v c') ∨ r = .failed c') :
    ∃ es, c'.trace = c.trace ++ es ∧ ∀ e ∈ es, P e := by
  rcases hr with ⟨v, rfl⟩ | rfl
  · cases h with
    | same => exact ⟨[], (List.append_nil _).symm, nofun⟩
    | value v m he => exact ⟨[_], rfl, List.forall_mem_cons.2 ⟨he, nofun⟩⟩
  · cases h with
    | failed m he => exact ⟨[_], rfl, List.forall_mem_cons.2 ⟨he, nofun⟩⟩

theorem execInstrs_emits : ∀ (is : List Instr) (pos : Nat) (env : InstRef → Option RVal) (c : Core),
    ∃ es, (coreOf (execInstrs W M F b prev is pos env c)).trace = c.trace ++ es ∧
      ∀ e ∈ es, ∃ i ∈ is, ∃ env', (∀ r : InstRef, r.block ≠ b → env' r = env r) ∧
        Emits F b env' i.op e
  | [], _, _, c => ⟨[], (List.append_nil _).symm, nofun⟩
  | i :: is, pos, env, c => by
    have hnone : ∃ es, c.trace = c.trace ++ es ∧ ∀ e ∈ es, ∃ j ∈ i :: is, ∃ env',
        (∀ r : InstRef, r.block ≠ b → env' r = env r) ∧ Emits F b env' j.op e :=
      ⟨[], (List.append_nil _).symm, nofun⟩
    have hop : Logs (Emits F b env i.op) c (execOp W M F b prev env c i.op) := execOp_logs i.op
    -- the instruction itself
    have hhead : ∀ {c' : Core}, ((∃ v, execOp W M F b prev env c i.op = .value v c') ∨
        execOp W M F b prev env c i.op = .failed c') → ∃ es, c'.trace = c.trace ++ es ∧
          ∀ e ∈ es, ∃ j ∈ i :: is, ∃ env', (∀ r : InstRef, r.block ≠ b → env' r = env r) ∧
            Emits F b env' j.op e := fun hr => by
      obtain ⟨es, htr, hes⟩ := hop.trace hr
      exact ⟨es, htr, fun e he => ⟨i, List.mem_cons_self, env, fun _ _ => rfl, hes e he⟩⟩
    unfold execInstrs
    split
    · exact hnone
    · split <;> exact hnone
    · split <;> exact hnone
    · rename_i type succs text heq
      rw [← heq]
      cases hr : execOp W M F b prev env c i.op with
      | value v c' =>
        dsimp only
        rw [leave_core]
        exact hhead (.inl ⟨v, hr⟩)
      | failed c' => exact hhead (.inr hr)
      | stuck => exact hnone
    · cases hr : execOp W M F b prev env c i.op with
      | value v c' =>
        dsimp only
        obtain ⟨es, htr, hes⟩ := hhead (.inl ⟨v, hr⟩)
        obtain ⟨es', htr', hes'⟩ := execInstrs_emits is (pos + 1)
          (fun r => if r = ⟨b, pos⟩ then v else env r) c'
        refine ⟨es ++ es', by rw [htr', htr, List.append_assoc], fun e he => ?_⟩
        rcases List.mem_append.1 he with he | he
        · exact hes e he
        · obtain ⟨j, hj, env', henv, hemit⟩ := hes' e he
          refine ⟨j, List.mem_cons_of_mem _ hj, env', fun r hr => ?_, hemit⟩
          rw [henv r hr, if_neg fun heq => hr (congrArg InstRef.block heq)]
      | failed c' => exact hhead (.inr hr)
      | stuck => exact hnone

theorem execInstrs_env : ∀ (is : List Instr) (pos : Nat) (env : InstRef → Option RVal) (c : Core)
    {s : Config}, execInstrs W M F b prev is pos env c = .inl s →
      ∀ r : InstRef, r.block ≠ b → s.env r = env r
  | [], _, _, _, _, h => by cases h
  | i :: is, pos, env, c, s, h => by
    unfold execInstrs at h
    split at h
    · cases h
      exact fun _ _ => rfl
    · split at h
      · cases h
        exact fun _ _ => rfl
      · cases h
    · split at h <;> cases h
    · split at h
      · intro r hr
        rw [(leave_inl h).2.2.1]
        exact if_neg fun heq => hr (congrArg InstRef.block heq)
      · cases h
      · cases h
    · split at h
      · intro r hr
        rw [execInstrs_env is _ _ _ h r hr, if_neg fun heq => hr (congrArg InstRef.block heq)]
      · cases h
      · cases h

variable {h : Nat} {s s' : Config}

theorem step_emits (W : World) (M : Module) (F h : Nat) (s : Config) :
    ∃ es, (coreOf (step W M F h s)).trace = s.core.trace ++ es ∧
      ∀ e ∈ es, ∃ i ∈ M.instrs h s.block, ∃ env',
        (∀ r : InstRef, r.block ≠ s.block → env' r = s.env r) ∧ Emits F s.block env' i.op e :=
  execInstrs_emits ..

theorem step_env (hs : step W M F h s = .inl s') {r : InstRef} (hr : r.block ≠ s.block) :
    s'.env r = s.env r := execInstrs_env _ _ _ _ hs r hr

/-! ## The calls of the encapsulated function -/

/-- The iterators of the calls from block `b`, in order. -/
def callsOf (b : Nat) (trace : List Event) : List (BitVec 64) :=
  trace.filterMap fun
    | .call b' v _ => if b' = b then some v else none
    | _ => none

theorem callsOf_append (b : Nat) (l l' : List Event) :
    callsOf b (l ++ l') = callsOf b l ++ callsOf b l' := List.filterMap_append

theorem step_callsOf {b' : Nat} (hb : b' ≠ s.block) :
    callsOf b' (coreOf (step W M F h s)).trace = callsOf b' s.core.trace := by
  obtain ⟨es, htr, hes⟩ := step_emits W M F h s
  have hnone : callsOf b' es = [] := List.filterMap_eq_nil_iff.2 fun e he => by
    obtain ⟨i, -, env', -, hemit⟩ := hes e he
    cases e with
    | call b'' v args => exact if_neg fun heq => hb (heq.symm.trans hemit.1)
    | _ => rfl
  rw [htr, callsOf_append, hnone, List.append_nil]

end

end Ephippion
