import Ephippion.IR.Exec

/-!
# Straight-line code

`Runs is pos env c env' c'`: the instructions `is`, from position `pos` of a block on, take `env`
and `c` to `env'` and `c'`, without a branch. Runs compose (`append`, `flatMap`), leave the values
of other instructions alone (`frame`), and `execInstrs` goes on after one where it ends
(`Runs.execInstrs`). Code without terminators runs, or the run ends in it (`runs_or_ends`); where a
block goes is `execInstrs_inl`.
-/

namespace Ephippion

/-- The environment after the instruction at `r`. -/
def setValue (env : InstRef → Option RVal) (r : InstRef) (v : Option RVal) :
    InstRef → Option RVal := fun r' => if r' = r then v else env r'

@[simp] theorem setValue_same (env : InstRef → Option RVal) (r : InstRef) (v : Option RVal) :
    setValue env r v r = v := if_pos rfl

theorem setValue_ne {env : InstRef → Option RVal} {r r' : InstRef} (h : r' ≠ r)
    (v : Option RVal) : setValue env r v r' = env r' := if_neg h

section
variable (W : World) (M : Module) (F b prev : Nat)

inductive Runs : List Instr → Nat → (InstRef → Option RVal) → Core → (InstRef → Option RVal) →
    Core → Prop
  | nil (pos : Nat) (env : InstRef → Option RVal) (c : Core) : Runs [] pos env c env c
  | cons {i : Instr} {is : List Instr} {pos : Nat} {env env' : InstRef → Option RVal}
      {c c₁ c' : Core} {v : Option RVal} : i.op.isTerminator = false →
      execOp W M F b prev env c i.op = .value v c₁ →
      Runs is (pos + 1) (setValue env ⟨b, pos⟩ v) c₁ env' c' → Runs (i :: is) pos env c env' c'

variable {W M F b prev} {pos : Nat} {env env₁ env' : InstRef → Option RVal} {c c₁ c' : Core}

theorem execInstrs_cons {i : Instr} (h : i.op.isTerminator = false) (is : List Instr) (pos : Nat)
    (env : InstRef → Option RVal) (c : Core) : execInstrs W M F b prev (i :: is) pos env c =
      match execOp W M F b prev env c i.op with
      | .value v c' => execInstrs W M F b prev is (pos + 1) (setValue env ⟨b, pos⟩ v) c'
      | .failed c' => .inr (.failed c')
      | .stuck => .inr (.stuck c) := by
  obtain ⟨op, name⟩ := i
  cases op with
  | foreign type succs text =>
    cases succs with
    | none => rfl
    | some _ => cases h
  | _ => first | rfl | cases h

namespace Runs

theorem single {i : Instr} {v : Option RVal} (h : i.op.isTerminator = false)
    (he : execOp W M F b prev env c i.op = .value v c₁) :
    Runs W M F b prev [i] pos env c (setValue env ⟨b, pos⟩ v) c₁ := .cons h he (.nil ..)

theorem append {is is' : List Instr} (h : Runs W M F b prev is pos env c env₁ c₁)
    (h' : Runs W M F b prev is' (pos + is.length) env₁ c₁ env' c') :
    Runs W M F b prev (is ++ is') pos env c env' c' := by
  induction h with
  | nil => exact h'
  | cons ht he _ ih =>
    refine .cons ht he (ih ?_)
    rw [List.length_cons, Nat.add_comm _ 1, ← Nat.add_assoc] at h'
    exact h'

theorem execInstrs {is : List Instr} (h : Runs W M F b prev is pos env c env' c')
    (rest : List Instr) : execInstrs W M F b prev (is ++ rest) pos env c =
      Ephippion.execInstrs W M F b prev rest (pos + is.length) env' c' := by
  induction h with
  | nil => rfl
  | cons ht he _ ih =>
    rw [List.cons_append, execInstrs_cons ht, he]
    simp only [ih, List.length_cons]
    rw [Nat.add_assoc, Nat.add_comm 1]

theorem frame {is : List Instr} (h : Runs W M F b prev is pos env c env' c') {r : InstRef}
    (hr : r.block ≠ b ∨ r.pos < pos) : env' r = env r := by
  induction h with
  | nil => rfl
  | @cons _ _ pos =>
    rename_i ih
    rw [ih (by omega), setValue_ne]
    rintro rfl
    simp at hr

/-- Code for each element of a list, one after the other; `P` is told what has run. -/
theorem flatMap {α : Type} {code : α → List Instr}
    {P : List α → (InstRef → Option RVal) → Core → Prop}
    {l : List α} (h0 : P [] env c)
    (hs : ∀ done a env c, done ++ [a] <+: l → P done env c → ∃ env' c',
      Runs W M F b prev (code a) (pos + (done.flatMap code).length) env c env' c' ∧
        P (done ++ [a]) env' c') :
    ∃ env' c', Runs W M F b prev (l.flatMap code) pos env c env' c' ∧ P l env' c' := by
  suffices H : ∀ (rest done : List α) (env : InstRef → Option RVal) (c : Core), done ++ rest = l →
      P done env c → ∃ env' c', Runs W M F b prev (rest.flatMap code)
        (pos + (done.flatMap code).length) env c env' c' ∧ P l env' c' from
    H l [] env c rfl h0
  intro rest
  induction rest with
  | nil =>
    intro done env c hl hP
    exact ⟨env, c, .nil .., by simpa [← hl] using hP⟩
  | cons a rest ih =>
    intro done env c hl hP
    have hl' : done ++ [a] ++ rest = l := by simpa using hl
    obtain ⟨env₁, c₁, hr, hP₁⟩ := hs done a env c ⟨rest, hl'⟩ hP
    obtain ⟨env', c', hr', hP'⟩ := ih (done ++ [a]) env₁ c₁ hl' hP₁
    refine ⟨env', c', ?_, hP'⟩
    rw [List.flatMap_cons]
    apply hr.append
    rwa [List.flatMap_append, List.flatMap_singleton, List.length_append, ← Nat.add_assoc] at hr'

end Runs

variable (W M F b prev) in
/-- Code without terminators runs to its end, or the run of the block ends in it. -/
theorem runs_or_ends : ∀ (is : List Instr) (pos : Nat) (env : InstRef → Option RVal) (c : Core),
    (∀ i ∈ is, i.op.isTerminator = false) →
      (∃ env' c', Runs W M F b prev is pos env c env' c') ∨
        ∀ rest, ∃ o, execInstrs W M F b prev (is ++ rest) pos env c = .inr o ∧
          ∀ v c', o ≠ .returned v c'
  | [], pos, env, c, _ => .inl ⟨env, c, .nil ..⟩
  | i :: is, pos, env, c, h => by
    have hi := h i List.mem_cons_self
    cases he : execOp W M F b prev env c i.op with
    | value v c₁ =>
      rcases runs_or_ends is (pos + 1) (setValue env ⟨b, pos⟩ v) c₁
        fun j hj => h j (List.mem_cons_of_mem _ hj) with ⟨env', c', hr⟩ | hr
      · exact .inl ⟨env', c', .cons hi he hr⟩
      · right
        intro rest
        rw [List.cons_append, execInstrs_cons hi, he]
        exact hr rest
    | failed c₁ =>
      right
      intro rest
      rw [List.cons_append, execInstrs_cons hi, he]
      exact ⟨_, rfl, fun v c' hc => by cases hc⟩
    | stuck =>
      right
      intro rest
      rw [List.cons_append, execInstrs_cons hi, he]
      exact ⟨_, rfl, fun v c' hc => by cases hc⟩

/-! ## Where a block goes -/

theorem leave_inl {succs : List Nat} {text : String} {s : Config}
    (h : leave W b succs text env c = .inl s) :
    s.prev = b ∧ s.block ∈ succs ∧ s.env = env ∧ s.core = c := by
  unfold leave at h
  split at h
  · split at h
    · rename_i d hd
      cases h
      exact ⟨rfl, List.mem_of_getElem? hd, rfl, rfl⟩
    · cases h
  · cases h
  · cases h

/-- A block that is left goes to a successor of one of its instructions. -/
theorem execInstrs_inl : ∀ (is : List Instr) (pos : Nat) (env : InstRef → Option RVal) (c : Core)
    {s : Config}, execInstrs W M F b prev is pos env c = .inl s →
      s.prev = b ∧ ∃ i ∈ is, s.block ∈ i.op.succs
  | [], _, _, _, _, h => by cases h
  | i :: is, pos, env, c, s, h => by
    have hrest : ∀ (pos : Nat) (env : InstRef → Option RVal) (c : Core),
        execInstrs W M F b prev is pos env c = .inl s →
          s.prev = b ∧ ∃ j ∈ i :: is, s.block ∈ j.op.succs := by
      intro pos env c h
      obtain ⟨h1, j, hj, h2⟩ := execInstrs_inl is pos env c h
      exact ⟨h1, j, List.mem_cons_of_mem _ hj, h2⟩
    unfold execInstrs at h
    split at h
    · rename_i d hop
      cases h
      exact ⟨rfl, i, List.mem_cons_self, by simp [hop, Op.succs]⟩
    · rename_i cond t e hop
      split at h
      · cases h
        refine ⟨rfl, i, List.mem_cons_self, ?_⟩
        dsimp only
        split <;> simp [hop, Op.succs]
      · cases h
    · split at h <;> cases h
    · rename_i succs text hop
      split at h
      · obtain ⟨hprev, hmem, -, -⟩ := leave_inl h
        exact ⟨hprev, i, List.mem_cons_self, by simpa [hop, Op.succs] using hmem⟩
      · cases h
      · cases h
    · split at h
      · exact hrest _ _ _ h
      · cases h
      · cases h

end

end Ephippion
