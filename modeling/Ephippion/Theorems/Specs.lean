import Ephippion.Proof.Encapsulate
import Ephippion.Proof.Specs

/-!
# The specifications that count

Two lists of specifications that say the same at every parameter, a missing entry being the
default, give the same module or the same stop (`encapsulate_normal`): what lies beyond the
parameters, the names and the way a default is written down do not matter.
-/

namespace Ephippion

open SymbolicEncapsulation

/-- What a list says of the parameter at `i`: a missing entry is the default. -/
def specAt (specs : List ArgSpec) (i : Nat) : ArgSpec := specs[i]?.getD .default

/-- The two lists say the same of the first `k` parameters. -/
def SpecsAgree (k : Nat) (specs specs' : List ArgSpec) : Prop :=
  ∀ i < k, SpecAgrees (specAt specs i) (specAt specs' i)

/-- What a generation does with specifications depends on what they say of the parameters. -/
structure SpecsNormalised (senc : SymbolicEncapsulation) (M : Module) (F k : Nat)
    (n : IterationsNumTy) : Prop where
  congr : ∀ specs specs', SpecsAgree k specs specs' →
    senc.encapsulate M F n specs = senc.encapsulate M F n specs'
  beyond : ∀ specs more, k ≤ specs.length →
    senc.encapsulate M F n (specs ++ more) = senc.encapsulate M F n specs
  names : ∀ specs (rename : ArgSpec → String),
    senc.encapsulate M F n (specs.map fun spec => { spec with name := rename spec }) =
      senc.encapsulate M F n specs
  tail : ∀ specs j,
    senc.encapsulate M F n (specs ++ List.replicate j .default) = senc.encapsulate M F n specs
  noSpecs : senc.encapsulate M F n = senc.encapsulate M F n (List.replicate k .default)

/-! ## Lists that agree -/

theorem SpecAgrees.refl (spec : ArgSpec) : SpecAgrees spec spec := ⟨rfl, rfl⟩

theorem specAt_append_replicate (specs : List ArgSpec) (j i : Nat) :
    specAt (specs ++ List.replicate j .default) i = specAt specs i := by
  unfold specAt
  rcases Nat.lt_or_ge i specs.length with hi | hi
  · rw [List.getElem?_append_left hi]
  · rw [List.getElem?_append_right hi, List.getElem?_eq_none hi, List.getElem?_replicate]
    by_cases hj : i - specs.length < j
    · rw [if_pos hj]
      rfl
    · rw [if_neg hj]

/-- A padded list has an entry for every parameter, which says what the list says. -/
theorem getElem?_padSpecs {specs : List ArgSpec} {k i : Nat} (hi : i < k) :
    (padSpecs specs k)[i]? = some (specAt specs i) := by
  have hlt := Nat.lt_of_lt_of_le hi (length_padSpecs specs k)
  have hpad : specAt (padSpecs specs k) i = specAt specs i := specAt_append_replicate specs _ i
  rw [← hpad, specAt, List.getElem?_eq_getElem hlt]
  rfl

theorem SpecsAgree.reads {k : Nat} {specs specs' : List ArgSpec} (ha : SpecsAgree k specs specs') :
    ReadsAgree k (padSpecs specs k) (padSpecs specs' k) := by
  refine ⟨length_padSpecs specs k, length_padSpecs specs' k, fun i hi spec spec' h h' => ?_⟩
  rw [getElem?_padSpecs hi] at h h'
  cases h
  cases h'
  exact ha i hi

theorem SpecsAgree.of_specAt {k : Nat} {specs specs' : List ArgSpec}
    (h : ∀ i < k, specAt specs i = specAt specs' i) : SpecsAgree k specs specs' := by
  intro i hi
  rw [h i hi]
  exact .refl _

theorem SpecsAgree.append {k : Nat} {specs : List ArgSpec} (hk : k ≤ specs.length)
    (more : List ArgSpec) : SpecsAgree k (specs ++ more) specs := by
  refine .of_specAt fun i hi => ?_
  rw [specAt, List.getElem?_append_left (Nat.lt_of_lt_of_le hi hk)]
  rfl

theorem SpecsAgree.rename (k : Nat) (specs : List ArgSpec) (rename : ArgSpec → String) :
    SpecsAgree k (specs.map fun spec => { spec with name := rename spec }) specs := by
  intro i _
  unfold specAt
  rw [List.getElem?_map]
  cases specs[i]? with
  | none => exact .refl _
  | some spec => exact ⟨rfl, rfl⟩

/-! ## The whole -/

section
variable {senc : SymbolicEncapsulation} {M : Module} {F : Nat} {f : Function}
  {n : IterationsNumTy} {specs specs' : List ArgSpec}

theorem buildHarness_congr (ha : SpecsAgree f.params.length specs specs') :
    senc.buildHarness M F f n specs = senc.buildHarness M F f n specs' := by
  cases hd : declareFunc M (senc.harnessName f) .int32Ty with
  | error stop =>
    have hd' : declareFunc M (senc.harnessNamePrefix ++ f.name) .int32Ty = .error stop := hd
    simp only [buildHarness, hd', Except.error_bind_eq]
  | ok r =>
    obtain ⟨M₁, ref⟩ := r
    have hlt : ref.index < M₁.functions.length := by
      obtain ⟨M₂, ref₂, hok, -, hD⟩ := castFunction_spec (Declares.of_ok hd)
      cases hok.symm.trans (show castFunction (M.getOrInsertFunction (senc.harnessName f)
        harnessType) = .ok (M₁, ref) from hd)
      exact hD.lt
    rw [buildHarness_eq senc hd hlt, buildHarness_eq senc hd hlt, fillHarness_congr ha.reads]

theorem encapsulate_congr (hf : M.functions[F]? = some f)
    (ha : SpecsAgree f.params.length specs specs') :
    senc.encapsulate M F n specs = senc.encapsulate M F n specs' := by
  simp only [encapsulate, encapsulateImpl, hf, buildHarness_congr ha]

end

/-- Whether it returns or stops, a generation does the same for two lists of specifications that say
the same of `f`'s parameters. -/
theorem encapsulate_normal {senc : SymbolicEncapsulation} {M : Module} {F : Nat} {f : Function}
    (hf : M.functions[F]? = some f) (n : IterationsNumTy) :
    SpecsNormalised senc M F f.params.length n where
  congr _ _ ha := encapsulate_congr hf ha
  beyond _ more hk := encapsulate_congr hf (.append hk more)
  names specs rename := encapsulate_congr hf (.rename _ specs rename)
  tail specs j := encapsulate_congr hf (.of_specAt fun i _ => specAt_append_replicate specs j i)
  noSpecs := encapsulate_congr hf (.of_specAt fun i _ =>
    (specAt_append_replicate [] f.params.length i).symm)

theorem encapsulate_normal_buffer : ∃ M' : Module,
    SymbolicEncapsulation.encapsulate {} (bufferModule .int32Ty) 0 2
      [⟨"i", .inbound, false⟩, ⟨"p", .both, true⟩, ⟨"q", .outbound, true⟩] = .ok (M', true) ∧
    SymbolicEncapsulation.encapsulate {} (bufferModule .int32Ty) 0 2
      [.default, ⟨"", .both, true⟩] = .ok (M', true) := by
  have hf : (bufferModule .int32Ty).functions[0]? = some (bufferFunction .int32Ty) := rfl
  obtain ⟨M', hok⟩ := encapsulate_buffer (.inr rfl)
    [⟨"i", .inbound, false⟩, ⟨"p", .both, true⟩, ⟨"q", .outbound, true⟩]
  refine ⟨M', hok, ?_⟩
  rw [← hok]
  refine (encapsulate_normal hf 2).congr _ _ fun i hi => ?_
  have hi' : i < 2 := hi
  obtain rfl | rfl : i = 0 ∨ i = 1 := by omega
  · exact ⟨rfl, rfl⟩
  · exact ⟨rfl, rfl⟩

end Ephippion
