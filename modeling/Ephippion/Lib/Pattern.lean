import Mathlib.Tactic.Common

/-!
# Patterns with groups

A pattern is made of character classes, their non-empty repetitions, sequences and groups. A
backtracking matcher tries the longer repetitions first (`Pattern.parses`); what it finds are the
words of the pattern's language, each with what its groups hold (`Pattern.mem_parses_iff`), and a
whole text is matched exactly if it is one of them (`Pattern.regexMatch_eq_none_iff`,
`Pattern.Match.of_regexMatch`).
-/

inductive Pattern (α : Type)
  | one (p : α → Bool)
  | many1 (p : α → Bool)
  | seq (a b : Pattern α)
  | group (a : Pattern α)

namespace Pattern

variable {α : Type}

/-- What is left after one or more of a class, the shortest rest first. -/
def rests (p : α → Bool) : List α → List (List α)
  | [] => []
  | c :: s => if p c then rests p s ++ [s] else []

/-- What is left after a match at the start of a text, and what the match's groups hold, in the
order in which matches are tried. -/
def parses : Pattern α → List α → List (List α × List (List α))
  | one _, [] => []
  | one p, c :: s => if p c then [(s, [])] else []
  | many1 p, s => (rests p s).map (·, [])
  | seq a b, s => (a.parses s).flatMap fun x => (b.parses x.1).map fun y => (y.1, x.2 ++ y.2)
  | group a, s => (a.parses s).map fun x => (x.1, s.take (s.length - x.1.length) :: x.2)

/-- A match of the whole text: the text itself, then its groups. -/
def regexMatch (a : Pattern α) (s : List α) : Option (List (List α)) :=
  ((a.parses s).find? (·.1.isEmpty)).map (s :: ·.2)

/-- The word is one of the pattern's, and these are its groups. -/
inductive Match : Pattern α → List α → List (List α) → Prop
  | one {p : α → Bool} {c : α} : p c → Match (one p) [c] []
  | many1 {p : α → Bool} {w : List α} : w ≠ [] → (∀ c ∈ w, p c) → Match (many1 p) w []
  | seq {a b : Pattern α} {v w : List α} {cs ds : List (List α)} :
    Match a v cs → Match b w ds → Match (seq a b) (v ++ w) (cs ++ ds)
  | group {a : Pattern α} {w : List α} {cs : List (List α)} :
    Match a w cs → Match (group a) w (w :: cs)

theorem mem_rests_iff {p : α → Bool} {r : List α} : ∀ {s : List α},
    r ∈ rests p s ↔ ∃ w, w ≠ [] ∧ (∀ c ∈ w, p c) ∧ s = w ++ r
  | [] => by
    refine ⟨fun h => (by cases h), fun h => ?_⟩
    obtain ⟨w, hne, -, hw⟩ := h
    exact absurd (List.append_eq_nil_iff.1 hw.symm).1 hne
  | c :: s => by
    unfold rests
    by_cases hc : p c = true
    · rw [if_pos hc, List.mem_append, mem_rests_iff, List.mem_singleton]
      constructor
      · intro h
        rcases h with ⟨w, -, hall, rfl⟩ | rfl
        · exact ⟨c :: w, by simp, by simpa [hc] using hall, rfl⟩
        · exact ⟨[c], by simp, by simpa using hc, rfl⟩
      · intro h
        obtain ⟨w, hne, hall, hw⟩ := h
        cases w with
        | nil => exact absurd rfl hne
        | cons d w =>
          obtain ⟨rfl, hw'⟩ := List.cons.inj hw
          cases w with
          | nil => exact .inr hw'.symm
          | cons d' w =>
            exact .inl ⟨d' :: w, by simp, fun x hx => hall x (List.mem_cons_of_mem _ hx), hw'⟩
    · rw [if_neg hc]
      refine ⟨fun h => (by cases h), fun h => ?_⟩
      obtain ⟨w, hne, hall, hw⟩ := h
      cases w with
      | nil => exact absurd rfl hne
      | cons d w =>
        obtain ⟨rfl, -⟩ := List.cons.inj hw
        exact absurd (hall _ List.mem_cons_self) hc

/-- The matcher finds the matches, and nothing else. -/
theorem mem_parses_iff {a : Pattern α} {s r : List α} {cs : List (List α)} :
    (r, cs) ∈ a.parses s ↔ ∃ w, s = w ++ r ∧ Match a w cs := by
  induction a generalizing s r cs with
  | one p =>
    constructor
    · intro h
      cases s with
      | nil => cases h
      | cons c s =>
        unfold parses at h
        split at h
        · rename_i hc
          cases List.mem_singleton.1 h
          exact ⟨[c], rfl, .one hc⟩
        · cases h
    · intro h
      obtain ⟨w, rfl, hm⟩ := h
      cases hm with
      | one hc => simp [parses, hc]
  | many1 p =>
    rw [parses, List.mem_map]
    constructor
    · intro h
      obtain ⟨r', hr, he⟩ := h
      obtain ⟨rfl, rfl⟩ := Prod.mk.inj he
      obtain ⟨w, hne, hall, hw⟩ := mem_rests_iff.1 hr
      exact ⟨w, hw, .many1 hne hall⟩
    · intro h
      obtain ⟨w, hw, hm⟩ := h
      cases hm with
      | many1 hne hall => exact ⟨r, mem_rests_iff.2 ⟨w, hne, hall, hw⟩, rfl⟩
  | seq a b iha ihb =>
    rw [parses, List.mem_flatMap]
    constructor
    · intro h
      obtain ⟨x, hx, hxy⟩ := h
      obtain ⟨y, hy, he⟩ := List.mem_map.1 hxy
      obtain ⟨rfl, rfl⟩ := Prod.mk.inj he
      obtain ⟨v, rfl, hv⟩ := iha.1 hx
      obtain ⟨w, hw, hm⟩ := ihb.1 hy
      exact ⟨v ++ w, by rw [hw, List.append_assoc], .seq hv hm⟩
    · intro h
      obtain ⟨u, hu, hm⟩ := h
      cases hm with
      | @seq _ _ v w cs ds hv hw =>
        refine ⟨(w ++ r, cs), iha.2 ⟨v, by rw [hu, List.append_assoc], hv⟩, ?_⟩
        exact List.mem_map.2 ⟨(r, ds), ihb.2 ⟨w, rfl, hw⟩, rfl⟩
  | group a iha =>
    rw [parses, List.mem_map]
    have htake : ∀ w : List α, (w ++ r).take ((w ++ r).length - r.length) = w := fun w => by
      rw [List.length_append, Nat.add_sub_cancel, List.take_left]
    constructor
    · intro h
      obtain ⟨x, hx, he⟩ := h
      obtain ⟨rfl, rfl⟩ := Prod.mk.inj he
      obtain ⟨w, rfl, hm⟩ := iha.1 hx
      rw [htake w]
      exact ⟨w, rfl, .group hm⟩
    · intro h
      obtain ⟨w, rfl, hm⟩ := h
      cases hm with
      | @group _ _ cs hm => exact ⟨(r, cs), iha.2 ⟨w, rfl, hm⟩, by rw [htake w]⟩

/-! ## Whole texts -/

variable {a : Pattern α} {s : List α}

theorem Match.of_regexMatch {ms : List (List α)} (h : a.regexMatch s = some ms) :
    ∃ cs, ms = s :: cs ∧ Match a s cs := by
  unfold regexMatch at h
  obtain ⟨x, hx, rfl⟩ := Option.map_eq_some_iff.1 h
  obtain ⟨r, cs⟩ := x
  obtain ⟨w, hw, hm⟩ := mem_parses_iff.1 (List.mem_of_find?_eq_some hx)
  have hempty := List.find?_some hx
  have hr : r = [] := List.isEmpty_iff.1 hempty
  rw [hr, List.append_nil] at hw
  exact ⟨cs, rfl, hw ▸ hm⟩

theorem regexMatch_eq_none_iff : a.regexMatch s = none ↔ ∀ cs, ¬ Match a s cs := by
  rw [regexMatch, Option.map_eq_none_iff, List.find?_eq_none]
  constructor
  · intro h cs hm
    exact h ([], cs) (mem_parses_iff.2 ⟨s, (List.append_nil s).symm, hm⟩) rfl
  · intro h x hx hempty
    obtain ⟨r, cs⟩ := x
    obtain ⟨w, hw, hm⟩ := mem_parses_iff.1 hx
    have hr : r = [] := List.isEmpty_iff.1 hempty
    rw [hr, List.append_nil] at hw
    exact h cs (hw ▸ hm)

end Pattern
