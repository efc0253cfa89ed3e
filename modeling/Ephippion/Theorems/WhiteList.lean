import Mathlib.Data.List.TakeWhile
import Ephippion.Lib.Words
import Ephippion.Theorems.WorkList
import Ephippion.Transforms.WhiteList

/-!
# The file of the white list

What the pass reads from the file are its words (`readWhiteList_eq`). So a function is worked on
exactly if its name stands in the file between spaces (`mem_workList_file`), and a list of names
that is written line by line is read back exactly if each name is not empty and has no space
(`readWhiteList_lines_iff`).
-/

namespace Ephippion

open Words

section
variable {opts : Options} {M : Module} {F : Nat}

theorem words_eq_extract (is : List Char) :
    words isSpace is = match extract is with
      | some (str, rest) => str.toList :: words isSpace rest
      | none => [] := by
  unfold extract
  dsimp only
  rw [← words_dropWhile]
  have hhead := List.head?_dropWhile_not isSpace is
  generalize is.dropWhile isSpace = s at hhead ⊢
  have hs : s.takeWhile (!isSpace ·) ++ s.dropWhile (!isSpace ·) = s :=
    List.takeWhile_append_dropWhile
  by_cases hempty : (s.takeWhile (!isSpace ·)).isEmpty
  · rw [if_pos hempty]
    cases s with
    | nil => rfl
    | cons c s =>
      replace hhead : isSpace c = false := hhead
      simp [hhead] at hempty
  · rw [if_neg hempty]
    dsimp only
    conv_lhs => rw [← hs]
    rw [String.toList_ofList]
    refine words_cons_word (by simpa using hempty) (fun c hc => ?_) (fun c hc => ?_)
    · simpa using List.mem_takeWhile_imp hc
    · have := List.head?_dropWhile_not (!isSpace ·) s
      rw [Option.mem_def.1 hc] at this
      simpa using this

theorem extract_length {is rest : List Char} {str : String} (h : extract is = some (str, rest)) :
    rest.length < is.length := by
  unfold extract at h
  dsimp only at h
  split at h
  · cases h
  · rename_i hne
    cases h
    have hpos := List.length_pos_iff.2 (List.isEmpty_eq_false_iff.1 (Bool.eq_false_iff.2 hne))
    have hsum := congrArg List.length (List.takeWhile_append_dropWhile
      (p := (!isSpace ·)) (l := is.dropWhile isSpace))
    have hle := (List.dropWhile_sublist isSpace (l := is)).length_le
    rw [List.length_append] at hsum
    omega

theorem extractAll_eq : ∀ {fuel : Nat} {is : List Char}, is.length ≤ fuel →
    extractAll fuel is = (words isSpace is).map String.ofList
  | 0, is, h => by
    rw [List.length_eq_zero_iff.1 (Nat.le_zero.1 h)]
    rfl
  | fuel + 1, is, h => by
    rw [extractAll, words_eq_extract]
    cases he : extract is with
    | none => rfl
    | some p =>
      obtain ⟨str, rest⟩ := p
      have hlt := extract_length he
      dsimp only
      rw [extractAll_eq (by omega), List.map_cons, String.ofList_toList]

theorem readWhiteList_eq (text : String) :
    readWhiteList (some text) = (words isSpace text.toList).map String.ofList :=
  extractAll_eq (Nat.le_refl _)

theorem mem_readWhiteList {text x : String} :
    x ∈ readWhiteList (some text) ↔ WordOf isSpace x.toList text.toList := by
  rw [readWhiteList_eq, List.mem_map, ← mem_words_iff]
  constructor
  · rintro ⟨w, hw, rfl⟩
    rwa [String.toList_ofList]
  · exact fun h => ⟨x.toList, h, String.ofList_toList⟩

end

/-- With a white list's file a function is worked on exactly if it is defined, the file can be
opened and the function's name stands in it between spaces. -/
theorem mem_workList_file (opts : Options) (file : Option String) (M : Module) (F : Nat) :
    F ∈ workList (opts.withWhiteListFile file) M ↔ ∃ f text, M.functions[F]? = some f ∧
      f.isDeclaration = false ∧ file = some text ∧ WordOf isSpace f.name.toList text.toList := by
  rw [mem_workList_iff]
  apply exists_congr
  intro f
  have hnames : (∀ names, (opts.withWhiteListFile file).functionWhiteList = some names →
      f.name ∈ names) ↔ ∃ text, file = some text ∧ WordOf isSpace f.name.toList text.toList := by
    simp only [Options.withWhiteListFile, Option.some.injEq, forall_eq']
    cases file with
    | none => simp [readWhiteList]
    | some text => simp [mem_readWhiteList]
  rw [MayEncapsulate, hnames, exists_and_left, exists_and_left]

/-- Names that are written line by line are read back exactly if none is empty or has a space. -/
theorem readWhiteList_lines_iff (names : List String) :
    readWhiteList (some (String.join (names.map (· ++ "\n")))) = names ↔
      ∀ x ∈ names, x ≠ "" ∧ ∀ c ∈ x.toList, isSpace c = false := by
  have htext : (String.join (names.map (· ++ "\n"))).toList =
      (names.map String.toList).flatMap (· ++ ['\n']) := by
    rw [String.toList_join, List.flatMap_map, List.flatMap_map]
    exact congrArg (names.flatMap ·) (funext fun x => String.toList_append)
  have hmap : ∀ xs : List (List Char), xs.map String.ofList = names ↔
      xs = names.map String.toList := fun xs => by
    constructor
    · rintro rfl
      simp
    · rintro rfl
      simp
  rw [readWhiteList_eq, htext, hmap, words_lines_iff (by decide), List.forall_mem_map]
  refine forall₂_congr fun x _ => and_congr_left fun _ => not_congr ?_
  exact String.toList_eq_nil_iff

end Ephippion
