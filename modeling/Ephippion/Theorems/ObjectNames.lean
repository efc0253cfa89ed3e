import Ephippion.Lib.Numbered
import Ephippion.Proof.Names
import Ephippion.Run.Ownership

/-!
# The names of the symbolic objects

An object is named after its copy, the value's name and the parameter's position, with nothing
between the last two: the names of a harness are different unless one value's name is another one's
and digits that the other one's position starts with (`objectNames_iff`). A function of at most ten
parameters has none of these.
-/

namespace Ephippion

/-- The name a call gives the object it makes symbolic. -/
def objectName? (i : Instr) : Option String :=
  match i.op with
  | .call callee [_, _, .globalString str] =>
    if callee.name = "klee_make_symbolic" then some str else none
  | _ => none

/-- The names the block that symbolizes gives to objects. -/
def objectNames (M' : Module) (h : Nat) (H : Harness) : List String :=
  (M'.instrs h (H.id .seSetup)).filterMap objectName?

/-- No two copies of arguments have objects of one name. -/
def NamesUnambiguous (M' : Module) (h : Nat) (H : Harness) : Prop := (objectNames M' h H).Nodup

/-- The copies that are made symbolic, in this order. -/
def symbolicCopies (slots : List Slot) : List (Slot × Copy) :=
  (ownedCopies slots).filter (·.1.symbolized)

/-- Both are first or second copies, `q`'s position comes later and ends in the digits of `p`'s, and
the value of `p` is named as that of `q` and the digits that are left. -/
structure DigitsClash (p q : Slot × Copy) : Prop where
  copy : p.2 = q.2
  lt : p.1.pos < q.1.pos
  digits : ∃ t, t ≠ "" ∧ toString q.1.pos = t ++ toString p.1.pos ∧
    p.1.nameOf p.2 = q.1.nameOf q.2 ++ t

/-! ## The names in the code -/

def Copy.digit : Copy → String
  | .first => "1"
  | .second => "2"

def objectName (p : Slot × Copy) : String := p.1.symName p.2.digit (p.1.nameOf p.2)

theorem filterMap_symInstrs (setup : Nat) (dl : DataLayout) (n : IterationsNumTy)
    {symbolize memcpy : FuncRef} (hy : symbolize.name = "klee_make_symbolic") (s : Slot) :
    (s.symInstrs setup dl n symbolize memcpy).filterMap objectName? =
      (s.ownedCopies.filter (·.1.symbolized)).map objectName := by
  unfold Slot.symInstrs Slot.ownedCopies
  cases hsym : s.symbolized <;> cases hout : s.outbound <;>
    simp [objectName?, hy, hsym, objectName, Slot.nameOf, Copy.digit, getIntN]

theorem HarnessAt.objectNames_eq {h F : Nat} {f : Function} {n : IterationsNumTy}
    {specs : List ArgSpec} {H : Harness} {M' : Module} (hat : HarnessAt h F f n specs H M') :
    objectNames M' h H = (symbolicCopies H.slots).map objectName := by
  have hy : H.symbolize.name = "klee_make_symbolic" := hat.symbolize_declared.name_eq
  rw [objectNames, hat.code .seSetup trivial, Harness.instrs, List.filterMap_append,
    symbolicCopies, ownedCopies, List.filter_flatMap, List.map_flatMap, List.filterMap_flatMap]
  simp only [filterMap_symInstrs H.base H.dl H.n hy]
  simp [objectName?]

/-! ## Names that clash -/

/-- What two objects of one name have in common, and where they differ. -/
theorem objectName_eq_iff {p q : Slot × Copy} : objectName p = objectName q ↔
    p.2 = q.2 ∧ p.1.nameOf p.2 ++ toString p.1.pos = q.1.nameOf q.2 ++ toString q.1.pos := by
  obtain ⟨s, k⟩ := p
  obtain ⟨t, k'⟩ := q
  have hcut : ∀ a b : String, "sym.in" ++ k.digit ++ "." ++ a = "sym.in" ++ k'.digit ++ "." ++ b →
      k = k' := by
    intro a b h
    have hl := congrArg String.toList h
    simp only [String.toList_append] at hl
    cases k <;> cases k' <;> first | rfl | simp [Copy.digit] at hl
  unfold objectName Slot.symName
  simp only [String.append_assoc] at hcut ⊢
  constructor
  · intro h
    obtain rfl := hcut _ _ h
    refine ⟨rfl, ?_⟩
    rwa [String.append_right_inj, String.append_right_inj, String.append_right_inj] at h
  · intro h
    obtain ⟨rfl, h⟩ := h
    rw [h]

theorem objectName_eq_of_lt {p q : Slot × Copy} (hlt : p.1.pos < q.1.pos) :
    objectName p = objectName q ↔ DigitsClash p q := by
  rw [objectName_eq_iff, Numbered.numbered_eq_iff hlt]
  exact ⟨fun h => ⟨h.1, hlt, h.2⟩, fun h => ⟨h.copy, h.digits⟩⟩

section
variable {params : List Param} {specs : List ArgSpec} {slots : List Slot}

theorem mem_symbolicCopies {p : Slot × Copy} (hp : p ∈ symbolicCopies slots) : p.1 ∈ slots :=
  mem_ownedCopies (List.mem_filter.1 hp).1

theorem IsLayout.eq_of_pos (hl : IsLayout params specs slots) {s t : Slot} (hs : s ∈ slots)
    (ht : t ∈ slots) (hpos : s.pos = t.pos) : s = t := by
  obtain ⟨i, hi⟩ := List.getElem?_of_mem hs
  obtain ⟨j, hj⟩ := List.getElem?_of_mem ht
  obtain rfl : i = j := by rw [← (hl.at_pos i s hi).1, hpos, (hl.at_pos j t hj).1]
  exact Option.some.inj (hi.symm.trans hj)

/-- The names are different exactly if no two clash. -/
theorem IsLayout.nodup_objectName (hl : IsLayout params specs slots) :
    ((symbolicCopies slots).map objectName).Nodup ↔
      ∀ p ∈ symbolicCopies slots, ∀ q ∈ symbolicCopies slots, ¬ DigitsClash p q := by
  have hnodup : (symbolicCopies slots).Nodup := (hl.nodup_ownedObj.of_map _).filter _
  rw [List.nodup_map_iff_inj_on hnodup]
  constructor
  · intro hinj p hp q hq hclash
    have heq := hinj p hp q hq ((objectName_eq_of_lt hclash.lt).2 hclash)
    have hlt := hclash.lt
    rw [heq] at hlt
    exact Nat.lt_irrefl _ hlt
  · intro hno p hp q hq heq
    rcases Nat.lt_trichotomy p.1.pos q.1.pos with hlt | hpos | hlt
    · exact (hno p hp q hq ((objectName_eq_of_lt hlt).1 heq)).elim
    · exact Prod.ext (hl.eq_of_pos (mem_symbolicCopies hp) (mem_symbolicCopies hq) hpos)
        (objectName_eq_iff.1 heq).1
    · exact (hno q hq p hp ((objectName_eq_of_lt hlt).1 heq.symm)).elim

/-- Positions of one digit do not end in others. -/
theorem IsLayout.not_clash_of_length (hl : IsLayout params specs slots) (hlen : params.length ≤ 10)
    {p q : Slot × Copy} (hq : q ∈ symbolicCopies slots) : ¬ DigitsClash p q := by
  intro hclash
  obtain ⟨i, hi⟩ := List.getElem?_of_mem (mem_symbolicCopies hq)
  have hlt := (List.getElem?_eq_some_iff.1 hi).1
  rw [hl.length] at hlt
  have hpos := (hl.at_pos i q.1 hi).1
  obtain ⟨t, hne, ht, -⟩ := hclash.digits
  exact Numbered.not_digits_suffix_of_lt_ten (by omega) hne ht

/-- Where no parameter is outbound and all the names are different and free, every copy has its
parameter's name. -/
theorem NamesKept.name1_eq {taken : List String} (hk : NamesKept taken slots)
    (hin : ∀ s ∈ slots, s.outbound = false)
    (hnodup : (slots.map (·.param.copyName)).Nodup)
    (hfree : ∀ s ∈ slots, s.param.copyName ∉ taken) : ∀ (i : Nat) (s : Slot),
      slots[i]? = some s → s.name1 = s.param.copyName := by
  intro i
  induction i using Nat.strongRecOn with
  | ind i ih =>
    intro s hs
    refine hk i s hs (hfree s (List.mem_of_getElem? hs)) fun s' hs' => ?_
    obtain ⟨j, hj⟩ := List.getElem?_of_mem hs'
    rw [List.getElem?_take] at hj
    split at hj
    · rename_i hji
      refine ⟨?_, fun hout => by simp [hin s' (List.mem_of_getElem? hj)] at hout⟩
      rw [ih j hji s' hj]
      intro heq
      have hnames : (slots.map (·.param.copyName))[j]? = (slots.map (·.param.copyName))[i]? := by
        rw [List.getElem?_map, List.getElem?_map, hj, hs, Option.map_some, Option.map_some, heq]
      have hlt : j < (slots.map (·.param.copyName)).length := by
        simpa using (List.getElem?_eq_some_iff.1 hj).1
      have := (List.getElem?_inj hlt hnodup).1 hnames
      omega
    · cases hj

end

/-- The objects of a harness have different names exactly if no two clash, which takes eleven
parameters; in a new harness a value has its parameter's name if that is free. -/
theorem objectNames_iff {senc : SymbolicEncapsulation} {M M' : Module} {F : Nat} {f : Function}
    {n : IterationsNumTy} {specs : List ArgSpec} (hf : M.functions[F]? = some f)
    (hdef : f.isDeclaration = false) (hok : senc.encapsulate M F n specs = .ok (M', true)) :
    ∃ h H, HarnessBuilt senc M F f n specs M' h H ∧
      (NamesUnambiguous M' h H ↔ ∀ p ∈ symbolicCopies H.slots, ∀ q ∈ symbolicCopies H.slots,
        ¬ DigitsClash p q) ∧
      (f.params.length ≤ 10 → NamesUnambiguous M' h H) ∧
      (M.getNamedValue (senc.harnessName f) = none → NamesKept blockNames H.slots) := by
  obtain ⟨-, -, h, H, hb, hs⟩ := encapsulate_setUp hf hdef hok
  have hl := hb.here.layout
  have hiff : NamesUnambiguous M' h H ↔ ∀ p ∈ symbolicCopies H.slots,
      ∀ q ∈ symbolicCopies H.slots, ¬ DigitsClash p q := by
    rw [NamesUnambiguous, hb.here.objectNames_eq, hl.nodup_objectName]
  exact ⟨h, H, hb, hiff, fun hlen => hiff.2 fun p _ q hq => hl.not_clash_of_length hlen hq,
    hs.namesKept hb.here.params_ne hl⟩

theorem objectNames_buffer : ∃ M' h H,
    SymbolicEncapsulation.encapsulate {} (bufferModule .int32Ty) 0 2
      [.default, ⟨"p", .both, true⟩] = .ok (M', true) ∧
    HarnessBuilt {} (bufferModule .int32Ty) 0 (bufferFunction .int32Ty) 2
      [.default, ⟨"p", .both, true⟩] M' h H ∧ NamesUnambiguous M' h H := by
  obtain ⟨M', hok⟩ := encapsulate_buffer (.inr rfl) [.default, ⟨"p", .both, true⟩]
  obtain ⟨h, H, hb, -, hten, -⟩ := objectNames_iff (f := bufferFunction .int32Ty) rfl rfl hok
  exact ⟨M', h, H, hok, hb, hten (by decide)⟩

/-- `f(i64 a1, i64 b, …, i64 j, i64 a)`. -/
def elevenFunction : Function :=
  emptyFunction "f" (["a1", "b", "c", "d", "e", "f", "g", "h", "i", "j", "a"].map (⟨·, .int64Ty⟩))

def elevenModule : Module := .of [elevenFunction]

theorem elevenModule_buildable : Buildable {} elevenModule elevenFunction 2 :=
  ⟨⟨by decide, by decide, by decide, by decide, by decide⟩, by decide⟩

/-- The objects of `a1` and of `a` are both named `sym.in1.a10`. -/
theorem objectNames_clash : ∃ M' h H,
    SymbolicEncapsulation.encapsulate {} elevenModule 0 2 = .ok (M', true) ∧
    HarnessBuilt {} elevenModule 0 elevenFunction 2 [] M' h H ∧ ¬ NamesUnambiguous M' h H := by
  obtain ⟨M', hok⟩ := encapsulate_progress (F := 0) [] rfl rfl elevenModule_buildable
  obtain ⟨-, -, h, H, hb, hs⟩ := encapsulate_setUp (f := elevenFunction) rfl rfl hok
  have hl := hb.here.layout
  refine ⟨M', h, H, hok, hb, ?_⟩
  rw [NamesUnambiguous, hb.here.objectNames_eq, hl.nodup_objectName]
  have hspec : ∀ s ∈ H.slots, s.spec = .default := by
    intro s hs
    have hmem : s.spec ∈ H.slots.map (·.spec) := List.mem_map_of_mem hs
    rw [hl.map_spec] at hmem
    exact List.eq_of_mem_replicate (List.mem_of_mem_take hmem)
  have hin : ∀ s ∈ H.slots, s.outbound = false := fun s hs => by
    rw [Slot.outbound, hspec s hs]
    rfl
  have hcopies : H.slots.map (·.param.copyName) = elevenFunction.params.map Param.copyName := by
    rw [← hl.params_eq, List.map_map]
    rfl
  have hfree : ∀ x ∈ blockNames, x ∉ H.slots.map (·.param.copyName) := by
    rw [hcopies]
    decide
  have hname := (hs.namesKept hb.here.params_ne hl rfl).name1_eq hin (by rw [hcopies]; decide)
    fun s hs hmem => hfree _ hmem (List.mem_map_of_mem hs)
  have hmem : ∀ s ∈ H.slots, (s, Copy.first) ∈ symbolicCopies H.slots := by
    intro s hs
    refine List.mem_filter.2 ⟨List.mem_flatMap.2 ⟨s, hs, ?_⟩, ?_⟩
    · simp [Slot.ownedCopies, hin s hs]
    · rw [Slot.symbolized, hspec s hs]
      rfl
  obtain ⟨s, hs0, hp0, hpos0, -⟩ := hl.slot_at (k := 0) (p := ⟨"a1", .int64Ty⟩) rfl
  obtain ⟨t, ht0, hp10, hpos10, -⟩ := hl.slot_at (k := 10) (p := ⟨"a", .int64Ty⟩) rfl
  intro hno
  refine hno _ (hmem s (List.mem_of_getElem? hs0)) _ (hmem t (List.mem_of_getElem? ht0))
    ⟨rfl, ?_, "1", by decide, ?_, ?_⟩
  · show s.pos < t.pos
    omega
  · rw [hpos0, hpos10]
    rfl
  · show s.name1 = t.name1 ++ "1"
    rw [hname 0 s hs0, hname 10 t ht0, hp0, hp10]
    rfl

end Ephippion
