import Ephippion.Theorems.Completeness

/-!
# Sharing is not observable

An argument that is not outbound has one copy for both sequences of calls, an outbound one has two.
Where the function does not change an argument this makes no difference: whether it is declared as
inbound or as both, the harness has the same verdict (`sharing_verdict`). So the copy that is saved
costs nothing, and declaring too much costs storage and comparisons only.
-/

namespace Ephippion

open Sequence Machine

/-- No call of `g` changes what it is given for its parameter `p` at `i`: the iterator, a value, or
what it does not write to. -/
def Untouched (g : BitVec 64 → Contents → Contents) (i : Nat) (p : Param) : Prop :=
  i = 0 ∨ (∀ v bs, (g v bs)[i - 1]? = bs[i - 1]?) ∨ p.type.isPointerTy = false

theorem Untouched.keeps {g : BitVec 64 → Contents → Contents} {params : List Param} {i : Nat}
    {p : Param} (ht : Untouched g i p) (hp : params[i]? = some p)
    (hg : ∀ v bs, (g v bs).map List.length = bs.map List.length) (vs : List (BitVec 64))
    (bs : Contents) :
    (pureSequence g (params.map (·.type.isPointerTy)) vs bs)[i]? = bs[i]? := by
  refine pureSequence_keeps hg (ht.imp_right (.imp_right fun hptr => ?_)) vs bs
  rw [List.getElem?_map, hp, Option.map_some, hptr]
  simp

/-- The parameter `p` at `i` has the same storage in both, but for a copy of its own that it may
have in the second one if no call changes it. -/
structure Unshares (g : BitVec 64 → Contents → Contents) (i : Nat) (p : Param)
    (spec spec' : ArgSpec) : Prop where
  iteratorDependent : spec'.iteratorDependent = spec.iteratorDependent
  symbolic : isOnlyOutbound spec'.direction = isOnlyOutbound spec.direction
  outbound : isOutbound spec.direction → isOutbound spec'.direction
  untouched : isOutbound spec'.direction → isOutbound spec.direction = false → Untouched g i p

theorem Unshares.bufferSize_eq {g : BitVec 64 → Contents → Contents} {i : Nat} {p : Param}
    {spec spec' : ArgSpec} (h : Unshares g i p spec spec') (dl : DataLayout)
    (n : IterationsNumTy) : p.bufferSize dl n spec' = p.bufferSize dl n spec := by
  rw [Param.bufferSize, Param.bufferSize, multiplier, multiplier, h.iteratorDependent]

theorem Unshares.comparedSize_eq {g : BitVec 64 → Contents → Contents} {i : Nat} {p : Param}
    {spec spec' : ArgSpec} (h : Unshares g i p spec spec') (dl : DataLayout)
    (n : IterationsNumTy) : p.comparedSize dl n spec' = p.comparedSize dl n spec := by
  rw [Param.comparedSize, Param.comparedSize, multiplier, multiplier, h.iteratorDependent]

/-- The second list has more outbound parameters, which no call changes. -/
structure UnsharesAll (g : BitVec 64 → Contents → Contents) (params : List Param)
    (specs specs' : List ArgSpec) : Prop where
  length : params.length ≤ specs.length
  length' : params.length ≤ specs'.length
  each : ∀ (i : Nat) (p : Param) (spec spec' : ArgSpec), params[i]? = some p →
    specs[i]? = some spec → specs'[i]? = some spec' → Unshares g i p spec spec'

section
variable {dl : DataLayout} {n : IterationsNumTy} {g : BitVec 64 → Contents → Contents}
  {params : List Param} {specs specs' : List ArgSpec} {bs bs' r r' : Contents}

namespace UnsharesAll

theorem spec (hu : UnsharesAll g params specs specs') {i : Nat} {p : Param}
    (hp : params[i]? = some p) : ∃ spec spec', specs[i]? = some spec ∧ specs'[i]? = some spec' ∧
      Unshares g i p spec spec' := by
  have hi := (List.getElem?_eq_some_iff.1 hp).1
  have h1 := List.getElem?_eq_getElem (Nat.lt_of_lt_of_le hi hu.length)
  have h2 := List.getElem?_eq_getElem (Nat.lt_of_lt_of_le hi hu.length')
  exact ⟨_, _, h1, h2, hu.each i p _ _ hp h1 h2⟩

theorem sizes_eq (hu : UnsharesAll g params specs specs') :
    ((params.zip specs').map fun a => a.1.bufferSize dl n a.2) =
      (params.zip specs).map fun a => a.1.bufferSize dl n a.2 := by
  apply List.ext_getElem?
  intro i
  rw [List.map_zip_eq_zipWith, List.map_zip_eq_zipWith, List.getElem?_zipWith',
    List.getElem?_zipWith']
  cases hp : params[i]? with
  | none => rfl
  | some p =>
    obtain ⟨spec, spec', h1, h2, h⟩ := hu.spec hp
    rw [h1, h2]
    exact congrArg some (h.bufferSize_eq dl n)

/-- The second sequence starts from the same, if what no call changes is as it was. -/
theorem startsSecond_iff (hu : UnsharesAll g params specs specs')
    (hr : ∀ (i : Nat) p, params[i]? = some p → Untouched g i p → r[i]? = bs[i]?) :
    StartsSecond params specs' bs r bs' ↔ StartsSecond params specs bs r bs' := by
  -- one argument
  have hone : ∀ {i : Nat} {p : Param} {spec spec' : ArgSpec}, params[i]? = some p →
      Unshares g i p spec spec' →
      ((isOutbound spec'.direction = false → bs'[i]? = r[i]?) ∧
          (isOutbound spec'.direction → isOnlyOutbound spec'.direction = false →
            bs'[i]? = bs[i]?) ↔
        (isOutbound spec.direction = false → bs'[i]? = r[i]?) ∧
          (isOutbound spec.direction → isOnlyOutbound spec.direction = false →
            bs'[i]? = bs[i]?)) := by
    intro i p spec spec' hp h
    rw [h.symbolic]
    cases hout : isOutbound spec.direction with
    | true => rw [h.outbound hout]
    | false =>
      cases hout' : isOutbound spec'.direction with
      | false => rfl
      | true =>
        have honly : isOnlyOutbound spec.direction = false := by
          rw [isOnlyOutbound_eq, hout]
          rfl
        rw [hr i p hp (h.untouched hout' hout), honly]
        simp
  constructor
  · intro hs i spec hi hspec
    obtain ⟨spec₀, spec', h1, h2, h⟩ := hu.spec (List.getElem?_eq_getElem hi)
    obtain rfl : spec = spec₀ := Option.some.inj (hspec.symm.trans h1)
    exact (hone (List.getElem?_eq_getElem hi) h).1 (hs i spec' hi h2)
  · intro hs i spec' hi hspec
    obtain ⟨spec, spec₀, h1, h2, h⟩ := hu.spec (List.getElem?_eq_getElem hi)
    obtain rfl : spec' = spec₀ := Option.some.inj (hspec.symm.trans h2)
    exact (hone (List.getElem?_eq_getElem hi) h).2 (hs i spec hi h1)

theorem sameCompared_iff (hu : UnsharesAll g params specs specs')
    (hsame : ∀ (i : Nat) p spec, params[i]? = some p → specs[i]? = some spec →
      isOutbound spec.direction = false → Untouched g i p → r'[i]? = r[i]?) :
    SameCompared dl n params specs' r r' ↔ SameCompared dl n params specs r r' := by
  constructor
  · intro hs i p spec hp hspec hout
    obtain ⟨spec₀, spec', h1, h2, h⟩ := hu.spec hp
    obtain rfl : spec = spec₀ := Option.some.inj (hspec.symm.trans h1)
    rw [← h.comparedSize_eq]
    exact hs i p spec' hp h2 (h.outbound hout)
  · intro hs i p spec' hp hspec hout'
    obtain ⟨spec, spec₀, h1, h2, h⟩ := hu.spec hp
    obtain rfl : spec' = spec₀ := Option.some.inj (hspec.symm.trans h2)
    cases hout : isOutbound spec.direction with
    | true =>
      rw [h.comparedSize_eq]
      exact hs i p spec hp h1 hout
    | false => rw [hsame i p spec hp h1 hout (h.untouched hout' hout)]

theorem noDifference_iff (hu : UnsharesAll g params specs specs')
    (hg : ∀ v bs, (g v bs).map List.length = bs.map List.length) :
    NoDifference dl n params specs' g ↔ NoDifference dl n params specs g := by
  unfold NoDifference Fits
  rw [hu.sizes_eq]
  refine forall₂_congr fun bs bs' => imp_congr_right fun _ => imp_congr_right fun _ => ?_
  rw [hu.startsSecond_iff fun i p hp ht => ht.keeps hp hg _ bs]
  refine imp_congr_right fun hstart => hu.sameCompared_iff fun i p spec hp hspec hout ht => ?_
  rw [ht.keeps hp hg _ bs']
  exact (hstart i spec (List.getElem?_eq_some_iff.1 hp).1 hspec).1 hout

theorem comparesInside (hu : UnsharesAll g params specs specs')
    (hin : ComparesInside dl n params specs') : ComparesInside dl n params specs := by
  intro a ha hout
  obtain ⟨i, hi⟩ := List.getElem?_of_mem ha
  obtain ⟨hp, hspec⟩ := List.getElem?_zip_eq_some.1 hi
  obtain ⟨spec, spec', h1, h2, h⟩ := hu.spec hp
  obtain rfl : a.2 = spec := Option.some.inj (hspec.symm.trans h1)
  rw [← h.comparedSize_eq, ← h.bufferSize_eq]
  exact hin (a.1, spec') (List.mem_of_getElem? (List.getElem?_zip_eq_some.2 ⟨hp, h2⟩))
    (h.outbound hout)

end UnsharesAll

end

section
variable {senc : SymbolicEncapsulation} {M M₁ M₂ : Module} {F : Nat} {f : Function}
  {n : IterationsNumTy} {specs specs' : List ArgSpec}

/-- If no call changes the arguments that are outbound in addition, the harness verifies the same,
so long as what is compared in addition is inside its buffers. -/
theorem sharing_verdict (hf : M.functions[F]? = some f) (hdef : f.isDeclaration = false)
    (hi : TakesIterator f) (hbl : HarnessBodiless senc M f)
    (hok₁ : senc.encapsulate M F n specs = .ok (M₁, true))
    (hok₂ : senc.encapsulate M F n specs' = .ok (M₂, true)) :
    ∃ h₁ H₁ h₂ H₂, HarnessBuilt senc M F f n specs M₁ h₁ H₁ ∧
      HarnessBuilt senc M F f n specs' M₂ h₂ H₂ ∧ ∀ g : BitVec 64 → Contents → Contents,
      (∀ v bs, (g v bs).map List.length = bs.map List.length) →
      UnsharesAll g f.params (padSpecs specs f.params.length) (padSpecs specs' f.params.length) →
      (AllReturn M₂ F h₂ g ↔
        ComparesInside M.dataLayout n f.params (padSpecs specs' f.params.length) ∧
          AllReturn M₁ F h₁ g) ∧
      (ComparesInside M.dataLayout n f.params (padSpecs specs' f.params.length) →
        (SomeFails M₂ F h₂ g ↔ SomeFails M₁ F h₁ g)) := by
  obtain ⟨-, -, h₁, H₁, hb₁⟩ := encapsulate_of_ok hf hdef hok₁
  obtain ⟨-, -, h₂, H₂, hb₂⟩ := encapsulate_of_ok hf hdef hok₂
  refine ⟨h₁, H₁, h₂, H₂, hb₁, hb₂, fun g hg hu => ⟨?_, fun hin => ?_⟩⟩
  · rw [hb₁.verifies hf hi hbl hg, hb₂.verifies hf hi hbl hg, hu.noDifference_iff hg]
    exact ⟨fun h => ⟨h.1, hu.comparesInside h.1, h.2⟩, fun h => ⟨h.1, h.2.2⟩⟩
  · rw [hb₁.fails hf hi hbl hg (hu.comparesInside hin), hb₂.fails hf hi hbl hg hin,
      hu.noDifference_iff hg]

/-- A function that only reads its buffer, which is declared as inbound and as both. -/
theorem sharing_verdict_buffer : ∃ (M₁ M₂ : Module) (h₁ h₂ : Nat) (H₁ H₂ : Harness),
    HarnessBuilt {} (bufferModule .int8Ty) 0 (bufferFunction .int8Ty) 2
      [⟨"i", .inbound, false⟩, ⟨"p", .inbound, true⟩] M₁ h₁ H₁ ∧
    HarnessBuilt {} (bufferModule .int8Ty) 0 (bufferFunction .int8Ty) 2
      [⟨"i", .inbound, false⟩, ⟨"p", .both, true⟩] M₂ h₂ H₂ ∧
    (AllReturn M₂ 0 h₂ (fun _ bs => bs) ↔ AllReturn M₁ 0 h₁ fun _ bs => bs) ∧
    (SomeFails M₂ 0 h₂ (fun _ bs => bs) ↔ SomeFails M₁ 0 h₁ fun _ bs => bs) := by
  have hf : (bufferModule .int8Ty).functions[0]? = some (bufferFunction .int8Ty) := rfl
  obtain ⟨M₁, hok₁⟩ :=
    encapsulate_buffer (.inl rfl) [⟨"i", .inbound, false⟩, ⟨"p", .inbound, true⟩]
  obtain ⟨M₂, hok₂⟩ := encapsulate_buffer (.inl rfl) [⟨"i", .inbound, false⟩, ⟨"p", .both, true⟩]
  obtain ⟨h₁, H₁, h₂, H₂, hb₁, hb₂, hall⟩ :=
    sharing_verdict hf rfl (by decide) (.of_free (by decide)) hok₁ hok₂
  have hin : ComparesInside (bufferModule .int8Ty).dataLayout 2 (bufferFunction .int8Ty).params
      (padSpecs [⟨"i", .inbound, false⟩, ⟨"p", .both, true⟩] 2) := by decide
  have hverdict := hall (fun _ bs => bs) (fun _ _ => rfl) ⟨by decide, by decide, ?_⟩
  · exact ⟨M₁, M₂, h₁, h₂, H₁, H₂, hb₁, hb₂, hverdict.1.trans (and_iff_right hin), hverdict.2 hin⟩
  intro i p spec spec' hp hspec hspec'
  -- what is declared differs for the buffer only, which is the second parameter
  rcases i with - | - | i
  · cases hspec
    cases hspec'
    exact ⟨rfl, rfl, id, fun _ _ => .inl rfl⟩
  · cases hspec
    cases hspec'
    exact ⟨rfl, by decide, fun _ => by decide, fun _ _ => .inr (.inl fun _ _ => rfl)⟩
  · cases hp

end

end Ephippion
