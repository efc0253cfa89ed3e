import Mathlib.Tactic.Common

/-!
# Deterministic machines

A machine is a function `step : σ → σ ⊕ ο`: a state either steps to the next one or ends the run
with an outcome. `Steps` is the run relation, `Halts` a finished run and `run` its executable
form. The facts a simulation proof needs:

* runs compose (`Steps.trans`, `Steps.halts`) and are linear (`Steps.linear`), so an outcome is
  unique (`Halts.unique`) and every visited state lies on the one run (`Halts.through`);
* a property kept by each step is kept by a run (`Steps.inv`);
* machines that agree where a run gets have the same runs (`Halts.congr`, `run_congr`);
* along a run a rank that no step lowers never falls (`Steps.rank_le`): states are visited in the
  order of their ranks (`Steps.before`), and a state whose every step raises the rank is visited
  once (`Steps.once`).

`Trail` is a run with the states it goes through, so that nothing else is visited before its end
(`Trail.mem_or_steps`).
-/

namespace Machine

variable {σ ο : Type}

/-- `s` runs to `s'` in finitely many steps. -/
inductive Steps (step : σ → σ ⊕ ο) : σ → σ → Prop
  | refl (s : σ) : Steps step s s
  | head {s s₁ s' : σ} : step s = .inl s₁ → Steps step s₁ s' → Steps step s s'

/-- The run from `s` ends with outcome `o`. -/
def Halts (step : σ → σ ⊕ ο) (s : σ) (o : ο) : Prop :=
  ∃ s', Steps step s s' ∧ step s' = .inr o

/-- The outcome of the run from `s`, if it ends within `fuel` steps. -/
def run (step : σ → σ ⊕ ο) : Nat → σ → Option ο
  | 0, _ => none
  | fuel + 1, s => match step s with
    | .inl s' => run step fuel s'
    | .inr o => some o

variable {step : σ → σ ⊕ ο}

namespace Steps

theorem single {s s' : σ} (h : step s = .inl s') : Steps step s s' := .head h (.refl _)

theorem trans {s s' s'' : σ} (h : Steps step s s') (h' : Steps step s' s'') :
    Steps step s s'' := by
  induction h with
  | refl => exact h'
  | head hs _ ih => exact .head hs (ih h')

theorem snoc {s s' s'' : σ} (h : Steps step s s') (h' : step s' = .inl s'') :
    Steps step s s'' := h.trans (.single h')

theorem halts {s s' : σ} {o : ο} (h : Steps step s s') (h' : Halts step s' o) :
    Halts step s o := by
  obtain ⟨t, ht, ho⟩ := h'
  exact ⟨t, h.trans ht, ho⟩

/-- Two runs from one state: one continues the other. -/
theorem linear {s a b : σ} (ha : Steps step s a) (hb : Steps step s b) :
    Steps step a b ∨ Steps step b a := by
  induction ha with
  | refl => exact .inl hb
  | @head s s₁ a hs hsa ih =>
    cases hb with
    | refl => exact .inr (.head hs hsa)
    | head hs' hsb =>
      rw [hs] at hs'
      cases hs'
      exact ih hsb

theorem eq_of_end {s s' : σ} {o : ο} (h : Steps step s s') (ho : step s = .inr o) : s' = s := by
  cases h with
  | refl => rfl
  | head hs _ => rw [ho] at hs; cases hs

theorem inv {P : σ → Prop} (hP : ∀ s s', P s → step s = .inl s' → P s') {s s' : σ}
    (h : Steps step s s') (hs : P s) : P s' := by
  induction h with
  | refl => exact hs
  | head h1 _ ih => exact ih (hP _ _ hs h1)

theorem rank_le {P : σ → Prop} {rank : σ → Nat}
    (hr : ∀ s s', P s → step s = .inl s' → P s' ∧ rank s ≤ rank s') {s s' : σ}
    (h : Steps step s s') (hs : P s) : P s' ∧ rank s ≤ rank s' := by
  induction h with
  | refl => exact ⟨hs, Nat.le_refl _⟩
  | head h1 _ ih =>
    obtain ⟨h2, h3⟩ := hr _ _ hs h1
    exact ⟨(ih h2).1, Nat.le_trans h3 (ih h2).2⟩

end Steps

namespace Halts

theorem unique {s : σ} {o o' : ο} (h : Halts step s o) (h' : Halts step s o') : o = o' := by
  obtain ⟨a, ha, hao⟩ := h
  obtain ⟨b, hb, hbo⟩ := h'
  rcases ha.linear hb with hab | hba
  · rw [hab.eq_of_end hao, hao] at hbo
    exact Sum.inr.inj hbo
  · rw [hba.eq_of_end hbo, hbo] at hao
    exact (Sum.inr.inj hao).symm

/-- A finished run passes through every state its start runs to. -/
theorem through {s s' : σ} {o : ο} (h : Halts step s o) (h' : Steps step s s') :
    Halts step s' o := by
  obtain ⟨a, ha, hao⟩ := h
  rcases ha.linear h' with hab | hba
  · rw [hab.eq_of_end hao]
    exact ⟨a, .refl a, hao⟩
  · exact ⟨a, hba, hao⟩

end Halts

/-- Two machines that agree on states that a run of the first does not leave. -/
theorem Halts.congr {P : σ → Prop} {step' : σ → σ ⊕ ο} (heq : ∀ s, P s → step s = step' s)
    (hP : ∀ s s', P s → step s = .inl s' → P s') {s : σ} (hs : P s) {o : ο} :
    Halts step s o ↔ Halts step' s o := by
  constructor
  · intro hx
    obtain ⟨t, hst, ho⟩ := hx
    induction hst with
    | refl s => exact ⟨s, .refl s, heq s hs ▸ ho⟩
    | head h1 _ ih => exact (Steps.single (heq _ hs ▸ h1)).halts (ih (hP _ _ hs h1) ho)
  · intro hx
    obtain ⟨t, hst, ho⟩ := hx
    induction hst with
    | refl s => exact ⟨s, .refl s, (heq s hs).trans ho⟩
    | head h1 _ ih =>
      have h1 := (heq _ hs).trans h1
      exact (Steps.single h1).halts (ih (hP _ _ hs h1) ho)

theorem run_congr {P : σ → Prop} {step' : σ → σ ⊕ ο} (heq : ∀ s, P s → step s = step' s)
    (hP : ∀ s s', P s → step s = .inl s' → P s') {fuel : Nat} {s : σ} (hs : P s) :
    run step fuel s = run step' fuel s := by
  induction fuel generalizing s with
  | zero => rfl
  | succ fuel ih =>
    rw [run, run, ← heq s hs]
    cases h : step s with
    | inl s' => exact ih (hP s s' hs h)
    | inr o => rfl

/-- A state from which every step raises a rank that no step lowers is visited once. -/
theorem Steps.once {P : σ → Prop} {rank : σ → Nat}
    (hr : ∀ s s', P s → step s = .inl s' → P s' ∧ rank s ≤ rank s') {s a b : σ} (hs : P s)
    (ha : Steps step s a) (hb : Steps step s b)
    (hlt : ∀ a', step a = .inl a' → rank a < rank a')
    (hlt' : ∀ b', step b = .inl b' → rank b < rank b') (hab : rank a = rank b) : a = b := by
  have key : ∀ {x y : σ}, P x → Steps step x y → (∀ x', step x = .inl x' → rank x < rank x') →
      rank x = rank y → x = y := by
    intro x y hx hxy hlt he
    cases hxy with
    | refl => rfl
    | head h1 h2 =>
      have h3 := hlt _ h1
      have h4 := (h2.rank_le hr (hr _ _ hx h1).1).2
      omega
  rcases ha.linear hb with h | h
  · exact key (ha.rank_le hr hs).1 h hlt hab
  · exact (key (hb.rank_le hr hs).1 h hlt' hab.symm).symm

/-- A state is visited before another one if its rank is lower. -/
theorem Steps.before {P : σ → Prop} {rank : σ → Nat}
    (hr : ∀ s s', P s → step s = .inl s' → P s' ∧ rank s ≤ rank s') {s a b : σ} (hs : P s)
    (ha : Steps step s a) (hb : Steps step s b) (hab : rank a < rank b) : Steps step a b := by
  rcases ha.linear hb with h | h
  · exact h
  · have := (h.rank_le hr (hb.rank_le hr hs).1).2
    omega

/-! ## Trails -/

/-- `s` runs to `s'` through the states `ts`, in this order and no others. -/
inductive Trail (step : σ → σ ⊕ ο) : σ → List σ → σ → Prop
  | nil (s : σ) : Trail step s [] s
  | cons {s s₁ s' : σ} {ts : List σ} : step s = .inl s₁ → Trail step s₁ ts s' →
      Trail step s (s :: ts) s'

namespace Trail

variable {s s' s'' : σ} {ts ts' : List σ}

theorem single (h : step s = .inl s') : Trail step s [s] s' := .cons h (.nil _)

theorem append (h : Trail step s ts s') (h' : Trail step s' ts' s'') :
    Trail step s (ts ++ ts') s'' := by
  induction h with
  | nil => exact h'
  | cons hs _ ih => exact .cons hs (ih h')

theorem steps (h : Trail step s ts s') : Steps step s s' := by
  induction h with
  | nil => exact .refl _
  | cons hs _ ih => exact .head hs ih

/-- What a run visits is on its trail or comes after it. -/
theorem mem_or_steps {t : σ} (h : Trail step s ts s') (ht : Steps step s t) :
    t ∈ ts ∨ Steps step s' t := by
  induction h with
  | nil => exact .inr ht
  | cons hs _ ih =>
    cases ht with
    | refl => exact .inl List.mem_cons_self
    | head hs' ht =>
      rw [hs] at hs'
      cases hs'
      exact (ih ht).imp_left (List.mem_cons_of_mem _)

end Trail

theorem halts_of_run {fuel : Nat} {s : σ} {o : ο} (h : run step fuel s = some o) :
    Halts step s o := by
  induction fuel generalizing s with
  | zero => cases h
  | succ fuel ih =>
    unfold run at h
    split at h
    · rename_i s' hs
      exact Steps.halts (.single hs) (ih h)
    · rename_i o' ho
      cases h
      exact ⟨s, .refl s, ho⟩

end Machine
