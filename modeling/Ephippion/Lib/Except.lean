import Mathlib.Tactic.Common

/-!
# Inverting computations in `Except`

A computation that returned did so through each of its parts: `Except.bind_eq_ok` takes a bind
apart, `exists_bind_ok` goes the other way, and one that stopped did so in one of them
(`bind_eq_error`); `foldlM_ok` and `foldlM_progress` are the two rules for a fold that may stop. The
first is about folds that returned, the second shows that they do.
`Both R x y` relates the results of two computations, if both return; its rules go through the two
in lockstep. `Alike E R x y` says in addition that both return or both stop, with related errors.
-/

namespace Except

variable {ε α β : Type}

theorem bind_eq_ok {x : Except ε α} {f : α → Except ε β} {b : β} :
    (x >>= f) = .ok b ↔ ∃ a, x = .ok a ∧ f a = .ok b := by
  cases x with
  | error e => simp [bind, Except.bind]
  | ok a => simp [bind, Except.bind]

theorem bind_eq_error {x : Except ε α} {f : α → Except ε β} {e : ε} :
    (x >>= f) = .error e ↔ x = .error e ∨ ∃ a, x = .ok a ∧ f a = .error e := by
  cases x with
  | error e' => simp [bind, Except.bind]
  | ok a => simp [bind, Except.bind]

theorem exists_bind_ok {x : Except ε α} {f : α → Except ε β} {a : α} (hx : x = .ok a)
    (hf : ∃ b, f a = .ok b) : ∃ b, (x >>= f) = .ok b := by
  obtain ⟨b, hb⟩ := hf
  exact ⟨b, bind_eq_ok.2 ⟨a, hx, hb⟩⟩

@[simp] theorem ok_bind_eq (a : α) (f : α → Except ε β) : (Except.ok a >>= f) = f a := rfl

@[simp] theorem error_bind_eq (e : ε) (f : α → Except ε β) :
    ((Except.error e : Except ε α) >>= f) = .error e := rfl

@[simp] theorem pure_eq (a : α) : (pure a : Except ε α) = .ok a := rfl

@[simp] theorem throw_eq (e : ε) : (throw e : Except ε α) = .error e := rfl

theorem map_eq_error {x : Except ε α} {f : α → β} {e : ε} : x.map f = .error e ↔ x = .error e := by
  cases x <;> simp [Except.map]

theorem map_eq_ok {x : Except ε α} {f : α → β} {b : β} :
    x.map f = .ok b ↔ ∃ a, x = .ok a ∧ f a = b := by
  cases x <;> simp [Except.map]

/-- What every returning step keeps holds after a returning fold; `P` is told what is folded. -/
theorem foldlM_ok {f : β → α → Except ε β} {P : List α → β → Prop} {l : List α} {b r : β}
    (h0 : P [] b)
    (hs : ∀ done a b b', done ++ [a] <+: l → P done b → f b a = .ok b' → P (done ++ [a]) b')
    (h : l.foldlM f b = .ok r) : P l r := by
  suffices H : ∀ (rest done : List α) (b : β), done ++ rest = l → P done b →
      rest.foldlM f b = .ok r → P l r from H l [] b rfl h0 h
  intro rest
  induction rest with
  | nil =>
    intro done b hl hP h
    simp only [List.foldlM_nil, pure_eq, Except.ok.injEq] at h
    subst h
    simpa [← hl] using hP
  | cons a rest ih =>
    intro done b hl hP h
    rw [List.foldlM_cons, bind_eq_ok] at h
    obtain ⟨b', hb', h⟩ := h
    have hl' : done ++ [a] ++ rest = l := by simpa using hl
    exact ih (done ++ [a]) b' hl' (hs done a b b' ⟨rest, hl'⟩ hP hb') h

/-- A fold returns if every step does from where the ones before it lead. -/
theorem foldlM_progress {f : β → α → Except ε β} {P : List α → β → Prop} {l : List α} {b : β}
    (h0 : P [] b)
    (hs : ∀ done a b, done ++ [a] <+: l → P done b → ∃ b', f b a = .ok b' ∧ P (done ++ [a]) b') :
    ∃ r, l.foldlM f b = .ok r ∧ P l r := by
  suffices H : ∀ (rest done : List α) (b : β), done ++ rest = l → P done b →
      ∃ r, rest.foldlM f b = .ok r ∧ P l r from H l [] b rfl h0
  intro rest
  induction rest with
  | nil =>
    intro done b hl hP
    exact ⟨b, rfl, by simpa [← hl] using hP⟩
  | cons a rest ih =>
    intro done b hl hP
    have hl' : done ++ [a] ++ rest = l := by simpa using hl
    obtain ⟨b', hb', hP'⟩ := hs done a b ⟨rest, hl'⟩ hP
    obtain ⟨r, hr, hPr⟩ := ih (done ++ [a]) b' hl' hP'
    exact ⟨r, by rw [List.foldlM_cons, hb']; exact hr, hPr⟩

/-- A fold stops with an error only if one of its steps does. -/
theorem foldlM_ne_error {f : β → α → Except ε β} {l : List α} {e : ε}
    (h : ∀ b, ∀ a ∈ l, f b a ≠ .error e) (b : β) : l.foldlM f b ≠ .error e := by
  induction l generalizing b with
  | nil => exact nofun
  | cons a l ih =>
    rw [List.foldlM_cons, ne_eq, bind_eq_error, not_or]
    refine ⟨h b a List.mem_cons_self, ?_⟩
    intro hx
    obtain ⟨b', -, hb'⟩ := hx
    exact ih (fun b a' ha' => h b a' (List.mem_cons_of_mem a ha')) b' hb'

/-- A fold whose steps all return is a plain one. -/
theorem foldlM_eq_foldl {f : β → α → Except ε β} {g : β → α → β} {l : List α}
    (h : ∀ a ∈ l, ∀ b, f b a = .ok (g b a)) (b : β) : l.foldlM f b = .ok (l.foldl g b) := by
  induction l generalizing b with
  | nil => rfl
  | cons a l ih =>
    rw [List.foldlM_cons, h a List.mem_cons_self, List.foldl_cons]
    exact ih (fun e he => h e (List.mem_cons_of_mem a he)) (g b a)

theorem foldlM_congr {f g : β → α → Except ε β} {l : List α} (h : ∀ a ∈ l, ∀ b, f b a = g b a)
    (b : β) : l.foldlM f b = l.foldlM g b := by
  induction l generalizing b with
  | nil => rfl
  | cons a l ih =>
    rw [List.foldlM_cons, List.foldlM_cons, h a List.mem_cons_self]
    exact bind_congr fun b' => ih (fun e he => h e (List.mem_cons_of_mem a he)) b'

/-- Folds whose steps do the same wherever the fold gets. -/
theorem foldlM_congr_inv {f g : β → α → Except ε β} {P : β → Prop} {l : List α}
    (h : ∀ a ∈ l, ∀ b, P b → f b a = g b a)
    (hP : ∀ a ∈ l, ∀ b b', P b → g b a = .ok b' → P b') {b : β} (hb : P b) :
    l.foldlM f b = l.foldlM g b := by
  induction l generalizing b with
  | nil => rfl
  | cons a l ih =>
    rw [List.foldlM_cons, List.foldlM_cons, h a List.mem_cons_self b hb]
    cases hg : g b a with
    | error e => rfl
    | ok b' =>
      exact ih (fun e he => h e (List.mem_cons_of_mem a he))
        (fun e he => hP e (List.mem_cons_of_mem a he)) (hP a List.mem_cons_self b b' hb hg)

/-- What follows a computation has to do the same on what it returns only. -/
theorem bind_congr_ok {x : Except ε α} {f g : α → Except ε β} (h : ∀ a, x = .ok a → f a = g a) :
    (x >>= f) = (x >>= g) := by
  cases x with
  | error e => rfl
  | ok a => exact h a rfl

/-! ## Two computations -/

/-- If both computations return, their results are related. -/
def Both {α' : Type} (R : α → α' → Prop) (x : Except ε α) (x' : Except ε α') : Prop :=
  ∀ a a', x = .ok a → x' = .ok a' → R a a'

namespace Both

variable {α' β' : Type} {R : α → α' → Prop} {S : β → β' → Prop}

theorem ok {a : α} {a' : α'} (h : R a a') : Both R (.ok a : Except ε α) (.ok a') := by
  intro b b' hb hb'
  cases hb
  cases hb'
  exact h

theorem error {e : ε} {x' : Except ε α'} : Both R (.error e) x' := fun _ _ h _ => by cases h

theorem bind {x : Except ε α} {x' : Except ε α'} {f : α → Except ε β} {f' : α' → Except ε β'}
    (hx : Both R x x') (hf : ∀ a a', R a a' → Both S (f a) (f' a')) :
    Both S (x >>= f) (x' >>= f') := by
  intro b b' hb hb'
  obtain ⟨a, ha, hb⟩ := bind_eq_ok.1 hb
  obtain ⟨a', ha', hb'⟩ := bind_eq_ok.1 hb'
  exact hf a a' (hx a a' ha ha') b b' hb hb'

theorem bind_same {x x' : Except ε α} {f : α → Except ε β} {f' : α → Except ε β'} (hx : x = x')
    (hf : ∀ a, x = .ok a → Both S (f a) (f' a)) : Both S (x >>= f) (x' >>= f') := by
  subst hx
  intro b b' hb hb'
  obtain ⟨a, ha, hb⟩ := bind_eq_ok.1 hb
  obtain ⟨a', ha', hb'⟩ := bind_eq_ok.1 hb'
  rw [ha] at ha'
  cases ha'
  exact hf a ha b b' hb hb'

theorem foldlM {γ : Type} {f : β → γ → Except ε β} {f' : β' → γ → Except ε β'} {l : List γ}
    (hs : ∀ a ∈ l, ∀ b b', S b b' → Both S (f b a) (f' b' a)) {b : β} {b' : β'} (h0 : S b b') :
    Both S (l.foldlM f b) (l.foldlM f' b') := by
  induction l generalizing b b' with
  | nil => exact ok h0
  | cons a l ih =>
    rw [List.foldlM_cons, List.foldlM_cons]
    exact (hs a List.mem_cons_self b b' h0).bind fun c c' hc =>
      ih (fun e he => hs e (List.mem_cons_of_mem a he)) hc

end Both

/-- The computations end alike: both with related results or both with related errors. -/
inductive Alike {ε' α' : Type} (E : ε → ε' → Prop) (R : α → α' → Prop) :
    Except ε α → Except ε' α' → Prop
  | ok {a : α} {a' : α'} (h : R a a') : Alike E R (.ok a) (.ok a')
  | error {e : ε} {e' : ε'} (h : E e e') : Alike E R (.error e) (.error e')

namespace Alike

variable {ε' α' β' : Type} {E : ε → ε' → Prop} {R : α → α' → Prop} {S : β → β' → Prop}

theorem bind {x : Except ε α} {x' : Except ε' α'} {f : α → Except ε β} {f' : α' → Except ε' β'}
    (hx : Alike E R x x') (hf : ∀ a a', R a a' → Alike E S (f a) (f' a')) :
    Alike E S (x >>= f) (x' >>= f') := by
  cases hx with
  | ok h => exact hf _ _ h
  | error h => exact .error h

theorem foldlM {γ γ' : Type} {T : γ → γ' → Prop} {f : β → γ → Except ε β}
    {f' : β' → γ' → Except ε' β'} {l : List γ} {l' : List γ'} (hl : List.Forall₂ T l l')
    (hs : ∀ a a' b b', T a a' → S b b' → Alike E S (f b a) (f' b' a')) {b : β} {b' : β'}
    (h0 : S b b') : Alike E S (l.foldlM f b) (l'.foldlM f' b') := by
  induction hl generalizing b b' with
  | nil => exact .ok h0
  | cons ha _ ih =>
    rw [List.foldlM_cons, List.foldlM_cons]
    exact (hs _ _ b b' ha h0).bind fun c c' hc => ih hc

end Alike

end Except
