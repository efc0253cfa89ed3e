import Mathlib.Tactic.Common

/-!
# Words

A word of a text is a non-empty part of it without separators that no further such part adjoins
(`WordOf`). `words` are the words of a text in their order (`mem_words_iff`). A text falls apart at
a separator (`words_append_sep`), so words that are each followed by one are read back, and nothing
else is (`words_lines_iff`).
-/

namespace Words

variable {α : Type} (sep : α → Bool)

/-- The words, the first of which starts with `w`. -/
def wordsFrom : List α → List α → List (List α)
  | w, [] => if w.isEmpty then [] else [w]
  | w, c :: s =>
    if sep c then (if w.isEmpty then [] else [w]) ++ wordsFrom [] s else wordsFrom (w ++ [c]) s

def words (s : List α) : List (List α) := wordsFrom sep [] s

structure WordOf (w s : List α) : Prop where
  ne_nil : w ≠ []
  free : ∀ c ∈ w, sep c = false
  bounded : ∃ before after, s = before ++ w ++ after ∧ (∀ c ∈ before.getLast?, sep c) ∧
    ∀ c ∈ after.head?, sep c

variable {sep}

/-! ## Separators -/

theorem wordsFrom_append_sep {c : α} (hc : sep c) (t : List α) : ∀ (s w : List α),
    wordsFrom sep w (s ++ c :: t) = wordsFrom sep w s ++ words sep t
  | [], w => by simp only [List.nil_append, wordsFrom, hc, ite_true, words]
  | d :: s, w => by
    rw [List.cons_append, wordsFrom, wordsFrom]
    split
    · rw [wordsFrom_append_sep hc t s [], List.append_assoc]
    · exact wordsFrom_append_sep hc t s (w ++ [d])

theorem words_append_sep {c : α} (hc : sep c) (s t : List α) :
    words sep (s ++ c :: t) = words sep s ++ words sep t :=
  wordsFrom_append_sep hc t s []

theorem wordsFrom_append_free (s : List α) : ∀ {v : List α} (w : List α),
    (∀ c ∈ v, sep c = false) → wordsFrom sep w (v ++ s) = wordsFrom sep (w ++ v) s
  | [], w, _ => by rw [List.nil_append, List.append_nil]
  | c :: v, w, hv => by
    rw [List.cons_append, wordsFrom, if_neg (by simp [hv c List.mem_cons_self]),
      wordsFrom_append_free s (w ++ [c]) fun d hd => hv d (List.mem_cons_of_mem c hd),
      List.append_assoc, List.singleton_append]

/-- Separators at the start make no difference. -/
theorem words_dropWhile : ∀ s : List α, words sep (s.dropWhile sep) = words sep s
  | [] => rfl
  | c :: s => by
    rw [List.dropWhile_cons]
    split
    · rename_i hc
      exact (words_dropWhile s).trans (words_append_sep hc [] s).symm
    · rfl

theorem words_cons_word {w s : List α} (hne : w ≠ []) (hw : ∀ c ∈ w, sep c = false)
    (hs : ∀ c ∈ s.head?, sep c) : words sep (w ++ s) = w :: words sep s := by
  rw [words, wordsFrom_append_free s [] hw, List.nil_append]
  have hempty : w.isEmpty = false := List.isEmpty_eq_false_iff.2 hne
  cases s with
  | nil => rw [wordsFrom, hempty]; rfl
  | cons c s =>
    have hc : sep c := hs c rfl
    rw [wordsFrom, if_pos hc, hempty, ← List.nil_append (c :: s), words_append_sep hc]
    rfl

/-! ## What the words are -/

theorem wordOf_of_mem {x : List α} : ∀ {s w : List α}, (∀ c ∈ w, sep c = false) →
    x ∈ wordsFrom sep w s → WordOf sep x (w ++ s)
  | [], w, hw, hx => by
    rw [wordsFrom] at hx
    split at hx
    · cases hx
    · rename_i hne
      rw [List.mem_singleton.1 hx]
      exact ⟨by simpa using hne, hw, [], [], by simp, by simp, by simp⟩
  | c :: s, w, hw, hx => by
    rw [wordsFrom] at hx
    split at hx
    · rename_i hc
      rcases List.mem_append.1 hx with hx | hx
      · split at hx
        · cases hx
        · rename_i hne
          rw [List.mem_singleton.1 hx]
          exact ⟨by simpa using hne, hw, [], c :: s, by simp, by simp, by simpa using hc⟩
      · obtain ⟨hne, hfree, before, after, hs, hb, ha⟩ :=
          wordOf_of_mem (w := []) (by simp) hx
        rw [List.nil_append] at hs
        refine ⟨hne, hfree, w ++ c :: before, after, by simp [hs], fun d hd => ?_, ha⟩
        rw [List.getLast?_append, List.getLast?_cons] at hd
        cases hbefore : before.getLast? with
        | none =>
          rw [hbefore] at hd
          cases hd
          exact hc
        | some d' =>
          rw [hbefore] at hd hb
          cases hd
          exact hb _ rfl
    · rename_i hc
      have hw' : ∀ d ∈ w ++ [c], sep d = false := by
        intro d hd
        rcases List.mem_append.1 hd with hd | hd
        · exact hw d hd
        · rw [List.mem_singleton.1 hd]
          simpa using hc
      simpa using wordOf_of_mem hw' hx

theorem mem_words_iff {x s : List α} : x ∈ words sep s ↔ WordOf sep x s := by
  constructor
  · exact fun h => wordOf_of_mem (by simp) h
  · rintro ⟨hne, hfree, before, after, rfl, hb, ha⟩
    have hhead : x ∈ words sep (x ++ after) := by
      rw [words_cons_word hne hfree ha]
      exact List.mem_cons_self
    rw [List.append_assoc]
    rcases List.eq_nil_or_concat before with rfl | ⟨b, c, rfl⟩
    · exact hhead
    · rw [List.concat_eq_append] at hb ⊢
      rw [List.append_assoc, List.singleton_append, words_append_sep (hb c (by simp))]
      exact List.mem_append_right _ hhead

/-- A text of lines is read as its lines exactly if each of them is a word. -/
theorem words_lines_iff {c : α} (hc : sep c) (xs : List (List α)) :
    words sep (xs.flatMap (· ++ [c])) = xs ↔ ∀ x ∈ xs, x ≠ [] ∧ ∀ d ∈ x, sep d = false := by
  constructor
  · intro h x hx
    rw [← h, mem_words_iff] at hx
    exact ⟨hx.ne_nil, hx.free⟩
  · intro h
    induction xs with
    | nil => rfl
    | cons x xs ih =>
      obtain ⟨⟨hne, hfree⟩, hrest⟩ := List.forall_mem_cons.1 h
      rw [List.flatMap_cons, List.append_assoc, List.singleton_append, words_append_sep hc,
        ih hrest, ← List.append_nil x, words_cons_word hne hfree (by simp), List.append_nil]
      rfl

end Words
