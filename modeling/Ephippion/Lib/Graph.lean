import Mathlib.Data.List.Range

/-!
# Graphs in stages

Paths of a graph with their nodes, domination, and graphs in which a rank orders the nodes: no edge
lowers it or raises it by more than one, and each rank is entered at one node only, its stage
(`Staged`). A path then passes the stages of all ranks between its ends, in order
(`Staged.passes`), and the stages up to a node's rank dominate it (`Staged.dominates`).
-/

namespace Graph

variable {α : Type*} {E : α → α → Prop}

/-- From `a` to `b` through the nodes of the list, both ends among them. -/
inductive Path (E : α → α → Prop) : α → List α → α → Prop
  | single (a : α) : Path E a [a] a
  | cons {a b c : α} {p : List α} (h : E a b) (hp : Path E b p c) : Path E a (a :: p) c

namespace Path

variable {a b c : α} {p q : List α}

theorem exists_cons (h : Path E a p b) : ∃ q, p = a :: q := by
  cases h with
  | single => exact ⟨[], rfl⟩
  | cons _ _ => exact ⟨_, rfl⟩

theorem inv {P : α → Prop} (hP : ∀ a b, P a → E a b → P b) (h : Path E a p b) (ha : P a) : P b := by
  induction h with
  | single => exact ha
  | cons h _ ih => exact ih (hP _ _ ha h)

end Path

/-- Every path from `entry` to `b` has `a` on it. -/
def Dominates (E : α → α → Prop) (entry a b : α) : Prop := ∀ p, Path E entry p b → a ∈ p

/-- Each edge stays at its rank or goes to the stage of the next one. -/
def Staged (E : α → α → Prop) (rank : α → Nat) (stage : Nat → α) : Prop :=
  ∀ a b, E a b → rank b = rank a ∨ rank b = rank a + 1 ∧ b = stage (rank b)

namespace Staged

variable {rank : α → Nat} {stage : Nat → α} {a b : α} {p : List α}

theorem rank_le (hs : Staged E rank stage) (hp : Path E a p b) : rank a ≤ rank b := by
  induction hp with
  | single => exact Nat.le_refl _
  | cons h _ ih =>
    rcases hs _ _ h with he | ⟨he, -⟩ <;> omega

/-- After its first node a path passes the stages of the higher ranks up to its end's. -/
theorem passes_tail (hs : Staged E rank stage) (hp : Path E a p b) :
    ((List.range' (rank a + 1) (rank b - rank a)).map stage).Sublist p.tail := by
  induction hp with
  | single => simp
  | @cons a a' b p h hp ih =>
    have hle := hs.rank_le hp
    obtain ⟨q, rfl⟩ := hp.exists_cons
    rcases hs _ _ h with he | ⟨he, hst⟩
    · rw [← he]
      exact ih.trans (List.sublist_cons_self _ _)
    · -- one stage more, the first node of the rest
      have hlen : rank b - rank a = rank b - rank a' + 1 := by omega
      rw [hlen, List.range'_succ, List.map_cons, ← he, ← hst]
      exact ih.cons_cons _

/-- A path that starts at a stage passes all stages up to its end's rank. -/
theorem passes (hs : Staged E rank stage) (hp : Path E a p b) (ha : stage (rank a) = a) :
    ((List.range' (rank a) (rank b + 1 - rank a)).map stage).Sublist p := by
  have hle := hs.rank_le hp
  have htail := hs.passes_tail hp
  obtain ⟨q, rfl⟩ := hp.exists_cons
  rw [show rank b + 1 - rank a = rank b - rank a + 1 by omega, List.range'_succ, List.map_cons, ha]
  exact htail.cons_cons _

theorem dominates (hs : Staged E rank stage) {entry : α} (he : stage (rank entry) = entry) {r : Nat}
    (h1 : rank entry ≤ r) (h2 : r ≤ rank b) : Dominates E entry (stage r) b := fun p hp =>
  (hs.passes hp he).subset (List.mem_map_of_mem (List.mem_range'_1.2 ⟨h1, by omega⟩))

end Staged

end Graph
