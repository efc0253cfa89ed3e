import Ephippion.Lib.Counted
import Ephippion.Lib.Machine

/-!
# Machines that refine programs

A program in `Except ο` ends with a value, or early with an outcome. `Refines step k s r Q` says
that from `s` a machine does what a program of result `r` does: in `k` steps it gets to a state that
`Q` relates to the value, or it ends with the outcome before that. The rules follow the program:
`Refines.pure`, `Refines.bind`, and `Refines.foldlM` for a loop over a list, whose invariant is told
what has been done; `Refines.head` and `Refines.ends` are a step of the machine. A machine that
refines a program up to its last step runs to what the program says (`Refines.run_eq`), and if the
program does not end early that takes all the steps (`Refines.run_eq_none`).
-/

namespace Machine

variable {σ ο α β : Type} {step : σ → σ ⊕ ο}

/-! ## Trails and fuel -/

/-- A trail takes as much fuel as it has states. -/
theorem Trail.run_add {s s' : σ} {ts : List σ} (h : Trail step s ts s') (fuel : Nat) :
    run step (fuel + ts.length) s = run step fuel s' := by
  induction h with
  | nil => rfl
  | cons hs _ ih =>
    rw [List.length_cons, ← Nat.add_assoc, run, hs]
    exact ih

theorem Trail.run_eq_none {s s' : σ} {ts : List σ} (h : Trail step s ts s') {fuel : Nat}
    (hf : fuel ≤ ts.length) : run step fuel s = none := by
  induction h generalizing fuel with
  | nil =>
    obtain rfl := Nat.le_zero.1 hf
    rfl
  | cons hs _ ih =>
    cases fuel with
    | zero => rfl
    | succ fuel =>
      rw [run, hs]
      exact ih (by simpa using hf)

/-! ## Refinement -/

/-- The outcome of a program whose value means the outcome `g` of it. -/
def outcomeOf (g : α → ο) : Except ο α → ο
  | .ok a => g a
  | .error o => o

def Refines (step : σ → σ ⊕ ο) (k : Nat) (s : σ) (r : Except ο α) (Q : α → σ → Prop) : Prop :=
  match r with
  | .ok a => ∃ ts s', Trail step s ts s' ∧ ts.length = k ∧ Q a s'
  | .error o => ∃ ts s', Trail step s ts s' ∧ ts.length < k ∧ step s' = .inr o

namespace Refines

variable {k k' : Nat} {s s' : σ} {r : Except ο α} {a : α} {o : ο} {Q : α → σ → Prop}
  {Q' : β → σ → Prop}

theorem pure (h : Q a s) : Refines step 0 s (.ok a) Q := ⟨[], s, .nil s, rfl, h⟩

theorem head (hs : step s = .inl s') (h : Refines step k s' r Q) :
    Refines step (k + 1) s r Q := by
  cases r with
  | ok a =>
    obtain ⟨ts, t, htr, hlen, hq⟩ := h
    exact ⟨s :: ts, t, .cons hs htr, by rw [List.length_cons, hlen], hq⟩
  | error o =>
    obtain ⟨ts, t, htr, hlen, ho⟩ := h
    exact ⟨s :: ts, t, .cons hs htr, by rw [List.length_cons]; omega, ho⟩

theorem ends (ho : step s = .inr o) (hk : 0 < k) : Refines step k s (.error o) Q :=
  ⟨[], s, .nil s, hk, ho⟩

theorem after {ts : List σ} (htr : Trail step s ts s') (h : Refines step k s' r Q) :
    Refines step (ts.length + k) s r Q := by
  induction htr with
  | nil => rwa [List.length_nil, Nat.zero_add]
  | cons hs _ ih =>
    rw [List.length_cons, Nat.add_right_comm]
    exact (ih h).head hs

theorem after_steps (hs : Steps step s s') (h : ∃ k, Refines step k s' r Q) :
    ∃ k, Refines step k s r Q := by
  induction hs with
  | refl => exact h
  | head h1 _ ih =>
    obtain ⟨k, h⟩ := ih h
    exact ⟨k + 1, h.head h1⟩

theorem bind {g : α → Except ο β} (h : Refines step k s r Q)
    (hg : ∀ a s', Q a s' → Refines step k' s' (g a) Q') :
    Refines step (k + k') s (r >>= g) Q' := by
  cases r with
  | error o =>
    obtain ⟨ts, t, htr, hlen, ho⟩ := h
    exact ⟨ts, t, htr, by omega, ho⟩
  | ok a =>
    obtain ⟨ts, t, htr, rfl, hq⟩ := h
    exact after htr (hg a t hq)

/-- One after the other, in some number of steps. -/
theorem exists_bind {g : α → Except ο β} (h : ∃ k, Refines step k s r Q)
    (hg : ∀ a s', Q a s' → ∃ k', Refines step k' s' (g a) Q') :
    ∃ k, Refines step k s (r >>= g) Q' := by
  obtain ⟨k, h⟩ := h
  cases r with
  | error o => exact ⟨k, h⟩
  | ok a =>
    obtain ⟨ts, t, htr, -, hq⟩ := h
    obtain ⟨k', h'⟩ := hg a t hq
    exact ⟨_, after htr h'⟩

/-- A counted loop; `P` is the invariant where its counter is tested. -/
theorem counted {ν : Type} {test : ν → Bool} {next : ν → ν} {g : α → ν → Except ο α}
    {P : α → ν → σ → Prop} {v : ν} {vs : List ν} (hc : Counted.Counts test next v vs)
    (hround : ∀ v ∈ vs, ∀ a s, test v = true → P a v s →
      ∃ k, Refines step k s (g a v) fun a s => P a (next v) s)
    (hexit : ∀ v a s, test v = false → P a v s → ∃ k, Refines step k s (.ok a) Q) :
    ∀ {a : α} {s : σ}, P a v s → ∃ k, Refines step k s (vs.foldlM g a) Q := by
  induction hc with
  | done ht => exact fun hP => hexit _ _ _ ht hP
  | @next v vs ht _ ih =>
    intro a s hP
    rw [List.foldlM_cons]
    exact exists_bind (hround v List.mem_cons_self a s ht hP) fun a' s' hP' =>
      ih (fun w hw => hround w (List.mem_cons_of_mem _ hw)) hP'

/-- A program whose value is the end of the machine's run: with the fuel for all its steps and the
last one the machine returns what the program says. -/
theorem run_eq {g : α → ο} (h : Refines step k s r Q)
    (hend : ∀ a s', Q a s' → step s' = .inr (g a)) {fuel : Nat} (hf : k < fuel) :
    run step fuel s = some (outcomeOf g r) := by
  have hlast : ∀ {ts : List σ} {s' : σ} {o : ο}, Trail step s ts s' → ts.length < fuel →
      step s' = .inr o → run step fuel s = some o := by
    intro ts s' o htr hlt ho
    obtain ⟨d, rfl⟩ : ∃ d, fuel = d + 1 + ts.length := ⟨fuel - ts.length - 1, by omega⟩
    rw [htr.run_add, run, ho]
  cases r with
  | ok a =>
    obtain ⟨ts, s', htr, hlen, hq⟩ := h
    exact hlast htr (by omega) (hend a s' hq)
  | error o =>
    obtain ⟨ts, s', htr, hlen, ho⟩ := h
    exact hlast htr (by omega) ho

theorem run_eq_none (h : Refines step k s (.ok a) Q) {fuel : Nat} (hf : fuel ≤ k) :
    run step fuel s = none := by
  obtain ⟨ts, s', htr, hlen, -⟩ := h
  exact htr.run_eq_none (hlen ▸ hf)

end Refines

end Machine
