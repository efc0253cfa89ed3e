import Ephippion.Run.Harness

/-!
# Runs of a function of the iterator and the contents

If a call depends on nothing but the iterator and the contents of the arguments, the two sequences
are two folds (`HarnessAt.calls_pure`): the first starts from the first copies, the second from the
second ones and from what the first has left of the arguments that are shared (`PureRun`).
-/

namespace Ephippion

open ObjMem (Byte Mem bytesAt)
open Sequence Machine

/-- From `c₀`, before the first sequence, to `c`, after the second, which has started from `bs`. -/
structure PureRun (H : Harness) (g : BitVec 64 → Contents → Contents) (c₀ : Core) (bs : Contents)
    (c : Core) : Prop where
  lengths : bs.map List.length = H.slots.map (Slot.size H.dl H.n)
  /-- An outbound argument has a copy of its own. -/
  own : ∀ (i : Nat) (s : Slot), H.slots[i]? = some s → s.outbound →
    bs[i]? = (contents H.slots .second c₀.mem)[i]?
  shared : ∀ (i : Nat) (s : Slot), H.slots[i]? = some s → s.outbound = false →
    bs[i]? = (pureSequence g H.refs (H.iterators .first) (contents H.slots .first c₀.mem))[i]?
  first : ∀ (i : Nat) (s : Slot), H.slots[i]? = some s → s.outbound →
    (contents H.slots .first c.mem)[i]? =
      (pureSequence g H.refs (H.iterators .first) (contents H.slots .first c₀.mem))[i]?
  second : contents H.slots .second c.mem = pureSequence g H.refs (H.iterators .second) bs

theorem PureRun.length {H : Harness} {g : BitVec 64 → Contents → Contents} {c₀ c : Core}
    {bs : Contents} (hr : PureRun H g c₀ bs c) : bs.length = H.slots.length := by
  simpa using congrArg List.length hr.lengths

section
variable {h F : Nat} {f : Function} {n : IterationsNumTy} {specs : List ArgSpec} {H : Harness}
  {M' : Module} {W : World} {g : BitVec 64 → Contents → Contents}

theorem HarnessAt.sequences_pure (hat : HarnessAt h F f n specs H M') (hi : TakesIterator f)
    (hg : ∀ t v bs, W.call t v bs = some (g v bs)) {s₀ : Config} {prev₀ : Nat}
    {env₀ : InstRef → Option RVal} {c₀ : Core}
    (h0 : Steps (step W M' F h) s₀ ⟨prev₀, H.id .call1Setup, env₀, c₀⟩)
    (hp : Pointers H.base H.slots env₀) (hst : Stored H.dl H.n H.slots c₀.mem) :
    ∃ (bs : Contents) (prev : Nat) (env : InstRef → Option RVal) (c : Core),
      Steps (step W M' F h) s₀ ⟨prev, H.id .seStart, env, c⟩ ∧
      Pointers H.base H.slots env ∧ Stored H.dl H.n H.slots c.mem ∧ PureRun H g c₀ bs c := by
  have h1 := hat.sequence_run (W := W) hi .first prev₀ hp hst
  rw [sequence_pure hg] at h1
  obtain ⟨prev₁, env₁, c₁, h1, hd₁⟩ := h1
  have h2 := hat.sequence_run (W := W) hi .second prev₁ hd₁.pointers hd₁.stored
  rw [sequence_pure hg] at h2
  obtain ⟨prev₂, env₂, c₂, h2, hd₂⟩ := h2
  refine ⟨contents H.slots .second c₁.mem, prev₂, env₂, c₂,
    h0.trans (h1.trans h2), hd₂.pointers, hd₂.stored, hd₁.stored.lengths_contents .second,
    fun i s hs hout => ?_, fun i s hs hout => ?_, fun i s hs hout => ?_, hd₂.contents_eq⟩
  · have hmem := List.mem_of_getElem? hs
    rw [getElem?_contents hs, getElem?_contents hs,
      hd₁.same.bytesAt (hat.layout.not_passed hmem hout (by decide))]
  · rw [← hd₁.contents_eq, getElem?_contents hs, getElem?_contents hs, s.obj_of_not_outbound hout,
      s.obj_of_not_outbound hout]
  · have hmem := List.mem_of_getElem? hs
    rw [← hd₁.contents_eq, getElem?_contents hs, getElem?_contents hs,
      hd₂.same.bytesAt (hat.layout.not_passed hmem hout (by decide))]

theorem HarnessAt.calls_pure (hat : HarnessAt h F f n specs H M') (hlink : H.Linked F)
    (hi : TakesIterator f) (hg : ∀ t v bs, W.call t v bs = some (g v bs)) :
    ∃ (c₀ : Core) (bs : Contents) (prev : Nat) (env : InstRef → Option RVal) (c : Core),
      Prepared W H.dl H.n H.slots c₀.mem ∧
      Steps (step W M' F h) (startAt H.base) ⟨prev, H.id .seStart, env, c⟩ ∧
      Pointers H.base H.slots env ∧ Stored H.dl H.n H.slots c.mem ∧ PureRun H g c₀ bs c := by
  obtain ⟨env₀, c₀, h0, hset⟩ := hat.setup_run hlink W
  obtain ⟨bs, prev, env, c, hrun⟩ :=
    hat.sequences_pure hi hg h0 hset.pointers hset.prepared.stored
  exact ⟨c₀, bs, prev, env, c, hset.prepared, hrun⟩

/-- The contents of an argument's copies before the first sequence: the same symbolic bytes, or what
was in fresh storage. -/
theorem Prepared.contents {m : Mem} (hp : Prepared W H.dl H.n H.slots m) {s : Slot}
    (hs : s ∈ H.slots) :
    (s.symbolized → bytesAt m (s.obj .second) = bytesAt m (s.obj .first)) ∧
      (s.symbolized = false → ∀ k, bytesAt m (s.obj k) =
        (List.range (s.size H.dl H.n)).map (W.fresh (s.obj k))) := by
  refine ⟨fun hy => ?_, fun hy k => ?_⟩
  · obtain ⟨t, ht⟩ := hp.symbolic s hs hy
    rw [ObjMem.bytesAt_of (ht .second), ObjMem.bytesAt_of (ht .first)]
  · rw [ObjMem.bytesAt_of (hp.fresh s hs hy k)]
    simp [Function.comp_def]

end

end Ephippion
