import Ephippion.Exchange.JSONTransfer

/-!
# The decoding of one specification

`fromJSON` takes an object apart exactly (`DecodesExactly`) unless its `'direction'` is an integer
that encodes no direction (`decodesExactly_iff`): such an integer is cut down to a byte, which is no
enumerator or that of another integer, and the decoding succeeds.
-/

namespace Ephippion

namespace ArgDirection

def enumerators : List ArgDirection := [inbound, outbound, .both]

/-- The integer that stands for a direction in a report. -/
def encoding (ad : ArgDirection) : BitVec 64 := ad.val.setWidth 64

end ArgDirection

namespace Json

/-- The `'direction'` member of an object, if it is an integer. -/
def direction (e : Json) : Option (BitVec 64) :=
  (e.getAsObject.bind (·.get "direction")).bind (·.getAsInteger)

/-- The `'iterator dependent'` member of an object, if it is a boolean. -/
def iteratorDependent (e : Json) : Option Bool :=
  (e.getAsObject.bind (·.get "iterator dependent")).bind (·.getAsBoolean)

end Json

open ArgDirection (enumerators)

/-- Exactly what encodes a specification is decoded, and to that; else `r` stays as it is. -/
structure DecodesExactly (e : Json) (r : ArgSpec) : Prop where
  accepts : (fromJSON e r).1 = true ↔
    (∃ d ∈ enumerators, e.direction = some d.encoding) ∧ ∃ b, e.iteratorDependent = some b
  decoded : (fromJSON e r).1 = true → ∃ d ∈ enumerators, ∃ b, e.direction = some d.encoding ∧
    e.iteratorDependent = some b ∧ (fromJSON e r).2 = ⟨r.name, d, b⟩
  kept : (fromJSON e r).1 = false → (fromJSON e r).2 = r

/-- The object has a boolean and an integer where they belong, but the integer encodes no
direction. -/
def UnknownDirection (e : Json) : Prop :=
  e.iteratorDependent.isSome ∧ ∃ v, e.direction = some v ∧ ∀ d ∈ enumerators, v ≠ d.encoding

theorem ArgDirection.ofInt_encoding (ad : ArgDirection) :
    ArgDirection.ofInt (ad.encoding.setWidth 32) = ad := by
  rw [ArgDirection.ofInt, ArgDirection.encoding, BitVec.setWidth_setWidth_of_le _ (by decide),
    BitVec.setWidth_setWidth_of_le _ (by decide), BitVec.setWidth_eq]

section
variable {e e' : Json} {r r' : ArgSpec} {v : BitVec 64} {b : Bool}

theorem decodeFields_eq (e : Json) : decodeFields e =
    e.direction.bind fun v => e.iteratorDependent.map fun b => (.ofInt (v.setWidth 32), b) := by
  unfold decodeFields Json.direction Json.iteratorDependent
  cases e.getAsObject with
  | none => rfl
  | some o =>
    simp only [Option.bind_some]
    cases o.get "direction" with
    | none => rfl
    | some m =>
      simp only [Option.bind_some, getAsInt]
      cases m.getAsInteger <;> rfl

theorem fromJSON_of_some (hv : e.direction = some v) (hb : e.iteratorDependent = some b)
    (r : ArgSpec) : fromJSON e r = (true, ⟨r.name, .ofInt (v.setWidth 32), b⟩) := by
  rw [fromJSON_eq, decodeFields_eq, hv, hb]
  rfl

theorem fromJSON_of_none (h : e.direction = none ∨ e.iteratorDependent = none) (r : ArgSpec) :
    fromJSON e r = (false, r) := by
  rw [fromJSON_eq, decodeFields_eq]
  rcases h with h | h
  · rw [h]
    rfl
  · rw [h]
    cases e.direction <;> rfl

theorem fromJSON_cases (e : Json) (r : ArgSpec) :
    (∃ v b, e.direction = some v ∧ e.iteratorDependent = some b ∧
      fromJSON e r = (true, ⟨r.name, .ofInt (v.setWidth 32), b⟩)) ∨
    (e.direction = none ∨ e.iteratorDependent = none) ∧ fromJSON e r = (false, r) := by
  cases hv : e.direction with
  | none => exact .inr ⟨.inl rfl, fromJSON_of_none (.inl hv) r⟩
  | some v =>
    cases hb : e.iteratorDependent with
    | none => exact .inr ⟨.inr rfl, fromJSON_of_none (.inr hb) r⟩
    | some b => exact .inl ⟨v, b, rfl, rfl, fromJSON_of_some hv hb r⟩

theorem DecodesExactly.of_known (h : ¬ UnknownDirection e) (r : ArgSpec) : DecodesExactly e r := by
  rcases fromJSON_cases e r with ⟨v, b, hv, hb, hok⟩ | ⟨hnone, hok⟩
  · have hd : ∃ d ∈ enumerators, e.direction = some d.encoding := by
      by_contra hno
      refine h ⟨by rw [hb]; rfl, v, hv, fun d hd hvd => hno ⟨d, hd, ?_⟩⟩
      rw [hv, hvd]
    refine ⟨by simp [hok, hd, hb], fun _ => ?_, fun hfalse => by simp [hok] at hfalse⟩
    obtain ⟨d, hmem, hd⟩ := hd
    obtain rfl : v = d.encoding := Option.some.inj (hv.symm.trans hd)
    exact ⟨d, hmem, b, hd, hb, by rw [hok, d.ofInt_encoding]⟩
  · refine ⟨?_, fun htrue => by simp [hok] at htrue, fun _ => by rw [hok]⟩
    rcases hnone with hv | hb
    · simp [hok, hv]
    · simp [hok, hb]

/-- A direction that nothing encodes is accepted all the same. -/
theorem UnknownDirection.not_exact (h : UnknownDirection e) (r : ArgSpec) :
    ¬ DecodesExactly e r := by
  intro hexact
  obtain ⟨hb, v, hv, hno⟩ := h
  obtain ⟨b, hb⟩ := Option.isSome_iff_exists.1 hb
  obtain ⟨⟨d, hmem, hd⟩, -⟩ := hexact.accepts.1 (by rw [fromJSON_of_some hv hb])
  exact hno d hmem (Option.some.inj (hv.symm.trans hd))

theorem DecodesExactly.direction_inj (h : DecodesExactly e r) (h' : DecodesExactly e' r')
    (htrue : (fromJSON e r).1 = true) (htrue' : (fromJSON e' r').1 = true)
    (hsame : (fromJSON e r).2.direction = (fromJSON e' r').2.direction) :
    e.direction = e'.direction := by
  obtain ⟨d, -, b, hd, -, hr⟩ := h.decoded htrue
  obtain ⟨d', -, b', hd', -, hr'⟩ := h'.decoded htrue'
  rw [hr, hr'] at hsame
  rw [hd, hd', show d = d' from hsame]

end

/-- A specification is decoded exactly unless an integer is given that encodes no direction; among
the others two are never decoded to one direction. -/
theorem decodesExactly_iff (e : Json) (r : ArgSpec) :
    (DecodesExactly e r ↔ ¬ UnknownDirection e) ∧
    ∀ e' r', ¬ UnknownDirection e → ¬ UnknownDirection e' → (fromJSON e r).1 = true →
      (fromJSON e' r').1 = true → (fromJSON e r).2.direction = (fromJSON e' r').2.direction →
        e.direction = e'.direction :=
  ⟨⟨fun h hu => hu.not_exact r h, fun h => .of_known h r⟩, fun _ r' hu hu' =>
    (DecodesExactly.of_known hu r).direction_inj (.of_known hu' r')⟩

/-- 257 is accepted, and no other direction than 1. -/
theorem not_decodesExactly_257 :
    let e := Json.object [("direction", .integer 257), ("iterator dependent", .boolean false)]
    fromJSON e .default = (true, ⟨"", .inbound, false⟩) ∧ ¬ DecodesExactly e .default := by
  refine ⟨by decide, fun h => ?_⟩
  exact UnknownDirection.not_exact ⟨by decide, 257, by decide, by decide⟩ .default h

end Ephippion
