import Ephippion.Support.ArgSpecParser

/-!
# What the command line's parser accepts

A specification is accepted if it is a word of letters, a colon and a flag (`parse_cases`); the word
need not be one of the three that name a direction, any other stands for the default
(`parse_grammar`, `not_exactGrammar_any`).
-/

namespace Ephippion

open ArgSpecParser

/-- The three directions by the two flags. -/
def grammar : List String :=
  ["in:0", "in:1", "out:0", "out:1", "both:0", "both:1"]

/-- The parser accepts the grammar and nothing else. -/
def ExactGrammar (s : String) (val : ArgSpec) : Prop :=
  (parse s val).errorOccurred = false ↔ s ∈ grammar

def IsWord (w : String) : Prop := w ≠ "" ∧ ∀ c ∈ w.toList, c.isAlpha

/-- `s` is the word `w`, a colon and the flag. -/
structure Spells (s w : String) (flag : Bool) : Prop where
  isWord : IsWord w
  eq : s = w ++ (if flag then ":1" else ":0")

/-- The regular expression's second group is a class of three characters: this is the text that has
the one that is no digit. -/
def SpellsBar (s : String) : Prop := ∃ w, IsWord w ∧ s = w ++ ":|"

/-- What is spelled right is accepted as it is spelled, a word that names no direction standing for
the default; anything else is refused and nothing changed. -/
structure ParsesGrammar (s : String) (val : ArgSpec) : Prop where
  accepts : (parse s val).errorOccurred = false ↔ ∃ w flag, Spells s w flag
  flag : ∀ w flag, Spells s w flag → (parse s val).val.iteratorDependent = flag
  inbound : ∀ flag, Spells s "in" flag → (parse s val).val.direction = .inbound
  outbound : ∀ flag, Spells s "out" flag → (parse s val).val.direction = .outbound
  both : ∀ flag, Spells s "both" flag → (parse s val).val.direction = .both
  other : ∀ w flag, Spells s w flag → w ∉ ["in", "out", "both"] →
    (parse s val).val.direction = .inbound
  name : (parse s val).val.name = val.name
  kept : (parse s val).errorOccurred = true → (parse s val).val = val

/-! ## The regular expression -/

/-- The texts that are matched: a word, a colon and one of three characters. -/
theorem match_optre {s : List Char} {cs : List (List Char)} : optre.Match s cs ↔
    ∃ w d, w ≠ [] ∧ (∀ c ∈ w, c.isAlpha) ∧ d ∈ ['0', '|', '1'] ∧ s = w ++ [':', d] ∧
      cs = [w, [d]] := by
  constructor
  · intro h
    cases h with
    | seq h1 h2 =>
      cases h1 with
      | group h1 =>
        cases h1 with
        | many1 hne hall =>
          cases h2 with
          | seq h3 h4 =>
            cases h3 with
            | one hc =>
              cases h4 with
              | group h4 =>
                cases h4 with
                | @one _ d hd =>
                  rw [decide_eq_true_iff] at hc
                  subst hc
                  exact ⟨_, d, hne, hall, by simpa using hd, rfl, rfl⟩
  · intro h
    obtain ⟨w, d, hne, hall, hd, rfl, rfl⟩ := h
    have hd' : ['0', '|', '1'].contains d = true := by simpa using hd
    exact .seq (.group (.many1 hne hall)) (.seq (.one rfl) (.group (.one hd')))

/-- The direction of a word. -/
def wordDirection (w : String) : ArgDirection :=
  stringSwitch w [("in", .inbound), ("out", .outbound), ("both", .both)] .inbound

theorem wordDirection_other {w : String} (h : w ∉ ["in", "out", "both"]) :
    wordDirection w = .inbound := by
  have hnone : [("in", ArgDirection.inbound), ("out", .outbound), ("both", .both)].lookup w =
      none := List.lookup_eq_none_iff.2 (by simpa using h)
  rw [wordDirection, stringSwitch, hnone]
  rfl

/-- Either the text is a word, a colon and one of three characters, and is accepted, or it is not
and refused with an error that repeats it. -/
theorem parse_cases (s : String) (val : ArgSpec) :
    (∃ w d, IsWord w ∧ d ∈ ['0', '|', '1'] ∧ s.toList = w.toList ++ [':', d] ∧
      parse s val = ⟨false, ⟨val.name, wordDirection w, d = '1'⟩, none⟩) ∨
    (¬ ∃ w d, IsWord w ∧ d ∈ ['0', '|', '1'] ∧ s.toList = w.toList ++ [':', d]) ∧
      parse s val = ⟨true, val, some ("'" ++ s ++ "' value invalid for argspec argument!")⟩ := by
  cases hm : optre.regexMatch s.toList with
  | none =>
    refine .inr ⟨fun h => ?_, by simp [parse, hm]⟩
    obtain ⟨w, d, ⟨hne, hall⟩, hd, hs⟩ := h
    refine Pattern.regexMatch_eq_none_iff.1 hm [w.toList, [d]] (match_optre.2 ?_)
    exact ⟨w.toList, d, by simpa using hne, hall, hd, hs, rfl⟩
  | some groups =>
    obtain ⟨cs, rfl, hcs⟩ := Pattern.Match.of_regexMatch hm
    obtain ⟨w, d, hne, hall, hd, hs, rfl⟩ := match_optre.1 hcs
    refine .inl ⟨String.ofList w, d, ⟨by simpa using hne, by simpa using hall⟩, hd,
      by simpa using hs, ?_⟩
    have hflag : strtoul [d] = 0#64 ↔ d ≠ '1' := by
      simp only [List.mem_cons, List.not_mem_nil, or_false] at hd
      rcases hd with rfl | rfl | rfl <;> decide
    simp [parse, hm, hflag, wordDirection]

/-! ## What is spelled -/

section
variable {s s' w w' : String} {flag flag' : Bool} {val : ArgSpec}

theorem spells_iff : Spells s w flag ↔
    IsWord w ∧ s.toList = w.toList ++ [':', if flag then '1' else '0'] := by
  have hlist : (if flag then ":1" else ":0").toList = [':', if flag then '1' else '0'] := by
    cases flag <;> rfl
  rw [← hlist, ← String.toList_append, String.toList_inj]
  exact ⟨fun h => ⟨h.isWord, h.eq⟩, fun h => ⟨h.1, h.2⟩⟩

theorem Spells.unique (h : Spells s w flag) (h' : Spells s w' flag') : w = w' ∧ flag = flag' := by
  obtain ⟨-, h⟩ := spells_iff.1 h
  obtain ⟨-, h'⟩ := spells_iff.1 h'
  obtain ⟨hw, hd⟩ := List.append_inj' (h.symm.trans h') rfl
  refine ⟨String.toList_inj.1 hw, ?_⟩
  cases flag <;> cases flag' <;> simp at hd ⊢

theorem Spells.not_bar (h : Spells s w flag) : ¬ SpellsBar s := by
  intro hbar
  obtain ⟨w', -, rfl⟩ := hbar
  obtain ⟨-, h⟩ := spells_iff.1 h
  rw [String.toList_append] at h
  obtain ⟨-, hd⟩ := List.append_inj' h rfl
  cases flag <;> simp at hd

theorem Spells.parse_eq (h : Spells s w flag) (val : ArgSpec) :
    parse s val = ⟨false, ⟨val.name, wordDirection w, flag⟩, none⟩ := by
  obtain ⟨hword, hs⟩ := spells_iff.1 h
  rcases parse_cases s val with ⟨w', d, -, -, hs', hok⟩ | ⟨hno, -⟩
  · obtain ⟨hw, hd⟩ := List.append_inj' (hs.symm.trans hs') rfl
    have hflag : (decide (d = '1')) = flag := by
      simp only [List.cons.injEq, true_and, and_true] at hd
      subst hd
      cases flag <;> rfl
    rw [hok, hflag, String.toList_inj.1 hw]
  · refine (hno ⟨w, _, hword, ?_, hs⟩).elim
    cases flag <;> simp

theorem parse_of_not_spells (h : ∀ w flag, ¬ Spells s w flag) (hbar : ¬ SpellsBar s)
    (val : ArgSpec) : (parse s val).errorOccurred = true ∧ (parse s val).val = val := by
  rcases parse_cases s val with ⟨w, d, hword, hd, hs, -⟩ | ⟨-, hno⟩
  · simp only [List.mem_cons, List.not_mem_nil, or_false] at hd
    rcases hd with rfl | rfl | rfl
    · exact (h w false (spells_iff.2 ⟨hword, hs⟩)).elim
    · refine (hbar ⟨w, hword, ?_⟩).elim
      rw [← String.toList_inj, hs, String.toList_append]
      rfl
    · exact (h w true (spells_iff.2 ⟨hword, hs⟩)).elim
  · rw [hno]
    exact ⟨rfl, rfl⟩

theorem ParsesGrammar.of_spells (h : Spells s w flag) (val : ArgSpec) : ParsesGrammar s val := by
  have hok := h.parse_eq val
  refine ⟨⟨fun _ => ⟨w, flag, h⟩, fun _ => by rw [hok]⟩, fun w' flag' h' => ?_, fun flag' h' => ?_,
    fun flag' h' => ?_, fun flag' h' => ?_, fun w' flag' h' hother => ?_, by rw [hok],
    fun htrue => by simp [hok] at htrue⟩
  · rw [hok, (h.unique h').2]
  · rw [hok, (h.unique h').1]
    rfl
  · rw [hok, (h.unique h').1]
    rfl
  · rw [hok, (h.unique h').1]
    rfl
  · rw [hok, (h.unique h').1]
    exact wordDirection_other hother

theorem ParsesGrammar.of_not_spells (h : ∀ w flag, ¬ Spells s w flag) (hbar : ¬ SpellsBar s)
    (val : ArgSpec) : ParsesGrammar s val := by
  obtain ⟨hno, hval⟩ := parse_of_not_spells h hbar val
  have hnone : ¬ ∃ w flag, Spells s w flag := by
    intro hs
    obtain ⟨w, flag, hs⟩ := hs
    exact h w flag hs
  exact ⟨iff_of_false (by simp [hno]) hnone, fun w flag hs => (h w flag hs).elim,
    fun flag hs => (h _ flag hs).elim, fun flag hs => (h _ flag hs).elim,
    fun flag hs => (h _ flag hs).elim, fun w flag hs => (h w flag hs).elim, by rw [hval],
    fun _ => hval⟩

theorem wordDirection_inj (hw : w ∈ ["in", "out", "both"]) (hw' : w' ∈ ["in", "out", "both"])
    (h : wordDirection w = wordDirection w') : w = w' := by
  have hall : ∀ w ∈ ["in", "out", "both"], ∀ w' ∈ ["in", "out", "both"],
      wordDirection w = wordDirection w' → w = w' := by decide
  exact hall w hw w' hw' h

/-- Different texts with such a word give different results. -/
theorem Spells.parse_inj (h : Spells s w flag) (h' : Spells s' w' flag')
    (hw : w ∈ ["in", "out", "both"]) (hw' : w' ∈ ["in", "out", "both"])
    (hsame : parse s val = parse s' val) : s = s' := by
  rw [h.parse_eq, h'.parse_eq] at hsame
  simp only [Result.mk.injEq, ArgSpec.mk.injEq, true_and, and_true] at hsame
  rw [h.eq, h'.eq, wordDirection_inj hw hw' hsame.1, hsame.2]

end

/-- A text that does not end in the bar is accepted exactly if it is a word of letters, a colon and
a flag, and is decoded to what it spells; different texts with one of the three words are decoded to
different specifications. -/
theorem parse_grammar {s : String} (hbar : ¬ SpellsBar s) (val : ArgSpec) :
    ParsesGrammar s val ∧ ∀ s' w w' flag flag', Spells s w flag → Spells s' w' flag' →
      w ∈ ["in", "out", "both"] → w' ∈ ["in", "out", "both"] → parse s val = parse s' val →
        s = s' := by
  refine ⟨?_, fun s' w w' flag flag' h h' hw hw' => h.parse_inj h' hw hw'⟩
  by_cases h : ∃ w flag, Spells s w flag
  · obtain ⟨w, flag, h⟩ := h
    exact .of_spells h val
  · exact .of_not_spells (fun w flag hs => h ⟨w, flag, hs⟩) hbar val

theorem parse_grammar_both : ParsesGrammar "both:1" .default ∧
    (parse "both:1" .default).val = ⟨"", .both, true⟩ := by
  have h : Spells "both:1" "both" true := ⟨⟨by decide, List.all_eq_true.1 (by decide)⟩, rfl⟩
  exact ⟨(parse_grammar h.not_bar .default).1, by rw [h.parse_eq]; rfl⟩

/-- A word that names no direction is accepted. -/
theorem not_exactGrammar_any : ¬ ExactGrammar "any:0" .default := by
  unfold ExactGrammar
  decide

end Ephippion
