import Ephippion.Proof.Lockstep
import Ephippion.Run.Harness

/-!
# Running the same harness twice

A run looks at a callee's place only to see whether it is the encapsulated function, so two
functions whose blocks are the same up to the places of callees step alike (`step_anon`), and a
harness behaves in every module as the same harness does in another one (`HarnessAt.halts_iff`).
-/

namespace Ephippion

open Machine

section
variable {M M' : Module} {F : Nat}

theorem execOp_anon (W : World) (b prev : Nat) (env : InstRef → Option RVal) (c : Core)
    (hdl : M.dataLayout = M'.dataLayout) {op op' : Op} (h : op.anon F = op'.anon F) :
    execOp W M F b prev env c op = execOp W M' F b prev env c op' := by
  cases op with
  | call callee args =>
    cases op' with
    | call callee' args' =>
      simp only [Op.anon, FuncRef.anon, Op.call.injEq, FuncRef.mk.injEq] at h
      obtain ⟨⟨hidx, hname, -⟩, rfl⟩ := h
      have hiff : callee.index = F ↔ callee'.index = F := by
        by_cases h1 : callee.index = F <;> by_cases h2 : callee'.index = F <;> simp_all
      simp only [execOp, hiff, hname]
    | _ => simp [Op.anon] at h
  | _ =>
    cases op' with
    | call callee' args' => simp [Op.anon] at h
    | _ =>
      simp only [Op.anon] at h
      cases h
      all_goals simp only [execOp, hdl]

theorem execInstrs_anon (W : World) (b prev : Nat) (hdl : M.dataLayout = M'.dataLayout) :
    ∀ {is is' : List Instr} (pos : Nat) (env : InstRef → Option RVal) (c : Core), is.map
    (Instr.anon F) = is'.map (Instr.anon F) →
      execInstrs W M F b prev is pos env c = execInstrs W M' F b prev is' pos env c
  | [], [], _, _, _, _ => rfl
  | [], _ :: _, _, _, _, h => by simp at h
  | _ :: _, [], _, _, _, h => by simp at h
  | ⟨op, nm⟩ :: is, ⟨op', nm'⟩ :: is', pos, env, c, h => by
    rw [List.map_cons, List.map_cons, List.cons.injEq] at h
    have hop : op.anon F = op'.anon F := congrArg Instr.op h.1
    have hrest := fun env c => execInstrs_anon W b prev hdl (pos + 1) env c h.2
    have hexec := execOp_anon W b prev env c hdl hop
    cases op with
    | call callee args =>
      cases op' with
      | call callee' args' => simp only [execInstrs, hexec, hrest]
      | _ => simp [Op.anon] at hop
    | foreign type succs text =>
      cases op' with
      | call callee' args' => simp [Op.anon] at hop
      | _ =>
        simp only [Op.anon] at hop
        cases hop
        all_goals cases succs <;> simp only [execInstrs, hexec, hrest]
    | _ =>
      cases op' with
      | call callee' args' => simp [Op.anon] at hop
      | _ =>
        simp only [Op.anon] at hop
        cases hop
        all_goals simp only [execInstrs, hexec, hrest]

theorem step_anon (W : World) (hdl : M.dataLayout = M'.dataLayout) {h h' : Nat} {s : Config}
    (hi : (M.instrs h s.block).map (Instr.anon F) = (M'.instrs h' s.block).map (Instr.anon F)) :
    step W M F h s = step W M' F h' s :=
  execInstrs_anon W s.block s.prev hdl 0 s.env s.core hi

end

/-- Function `h'` of `M'` runs like the harness in function `h` of `M`, if its blocks are the
harness's. -/
theorem HarnessAt.halts_iff {h h' F : Nat} {f : Function} {n : IterationsNumTy}
    {specs : List ArgSpec} {H : Harness} {M M' : Module} (hat : HarnessAt h F f n specs H M)
    (hdl : M.dataLayout = M'.dataLayout) (hi : ∀ B, H.Valid B →
      (M.instrs h (H.id B)).map (Instr.anon F) = (M'.instrs h' (H.id B)).map (Instr.anon F))
    (W : World) (o : Outcome) :
    Halts (step W M F h) (startAt H.base) o ↔ Halts (step W M' F h') (startAt H.base) o := by
  refine Halts.congr (P := AtBlock H) (fun s hs => ?_)
    (fun s s' hs h1 => (hat.step_rank s s' hs h1).1) ⟨.setup, trivial, rfl⟩
  obtain ⟨B, hB, hsB⟩ := hs
  exact step_anon W hdl (hsB ▸ hi B hB)

end Ephippion
