import Mathlib.Tactic.Common
import Ephippion.Lib.ObjMem

/-!
# Sequences of calls

What the harness is for, without blocks and memory: a function is called for the iterators of a
list, one after the other, on one copy of its arguments. A call is a partial function of the time,
the iterator and the contents of the arguments; what is passed by value stays as it was, and so
does the first argument, in whose place the iterator is passed. `refs` says which arguments are
passed by reference.

* `sequence_keeps`: an argument that no call writes to stays as it was;
* `sequence_pure`: the calls of a function of the iterator and the contents are a fold;
* `foldl_perm_on`: calls that commute may be made in any order.
-/

namespace Sequence

open ObjMem (Byte)

/-- The bytes of each argument. -/
abbrev Contents := List (List Byte)

/-- What a call that made `new` of `old` leaves. -/
def keep : List Bool → Contents → Contents → Contents
  | r :: refs, old :: olds, new :: news => (if r then new else old) :: keep refs olds news
  | _, olds, _ => olds

section
variable (call : Nat → BitVec 64 → Contents → Option Contents) (refs : List Bool)

/-- A call at time `t` with iterator `v`. -/
def once (t : Nat) (v : BitVec 64) (bs : Contents) : Option Contents :=
  (call t v bs.tail).map fun news => bs.take 1 ++ keep refs.tail bs.tail news

/-- The calls with the iterators `vs`, the first at time `t`. -/
def sequence : Nat → List (BitVec 64) → Contents → Option Contents
  | _, [], bs => some bs
  | t, v :: vs, bs => (once call refs t v bs).bind (sequence (t + 1) vs)

end

variable {call : Nat → BitVec 64 → Contents → Option Contents} {refs : List Bool}

@[simp] theorem length_keep : ∀ (refs : List Bool) (olds news : Contents),
    (keep refs olds news).length = olds.length
  | [], olds, news => by simp [keep]
  | _ :: _, [], _ => rfl
  | _ :: _, _ :: _, [] => rfl
  | _ :: refs, _ :: olds, _ :: news => by simp [keep, length_keep refs olds news]

theorem keep_getElem? : ∀ (refs : List Bool) (olds news : Contents) (i : Nat),
    news.length = olds.length → (keep refs olds news)[i]? =
      if refs[i]? = some true then news[i]? else olds[i]?
  | [], olds, news, i, _ => by simp [keep]
  | _ :: _, [], [], i, _ => by simp [keep]
  | r :: refs, old :: olds, new :: news, 0, _ => by cases r <;> simp [keep]
  | r :: refs, old :: olds, new :: news, i + 1, h => by
    simp only [keep, List.getElem?_cons_succ]
    exact keep_getElem? refs olds news i (by simpa using h)

theorem keep_same : ∀ (refs : List Bool) (olds : Contents), keep refs olds olds = olds
  | [], olds => by simp [keep]
  | _ :: _, [] => rfl
  | r :: refs, old :: olds => by simp [keep, keep_same refs olds]

theorem keep_lengths : ∀ (refs : List Bool) (olds news : Contents),
    news.map List.length = olds.map List.length →
      (keep refs olds news).map List.length = olds.map List.length
  | [], _, _, _ => by simp [keep]
  | _ :: _, [], _, _ => rfl
  | _ :: _, _ :: _, [], _ => rfl
  | r :: refs, old :: olds, new :: news, h => by
    obtain ⟨h1, h2⟩ := List.cons.inj h
    cases r <;> simp [keep, h1, keep_lengths refs olds news h2]

/-- Calls that are of the arguments' sizes. -/
def Shaped (call : Nat → BitVec 64 → Contents → Option Contents) : Prop :=
  ∀ t v bs bs', call t v bs = some bs' → bs'.map List.length = bs.map List.length

/-! ## What is not written to -/

/-- No call changes the `i`-th argument after the iterator. -/
def Spares (call : Nat → BitVec 64 → Contents → Option Contents) (i : Nat) : Prop :=
  ∀ t v bs bs', call t v bs = some bs' → bs'[i]? = bs[i]?

theorem once_keeps (hc : Shaped call) {t : Nat} {v : BitVec 64} {bs bs' : Contents} {i : Nat}
    (hi : i = 0 ∨ Spares call (i - 1) ∨ refs[i]? ≠ some true)
    (h : once call refs t v bs = some bs') : bs'[i]? = bs[i]? := by
  simp only [once, Option.map_eq_some_iff] at h
  obtain ⟨news, hn, rfl⟩ := h
  have hlen : news.length = bs.tail.length := by
    have := congrArg List.length (hc _ _ _ _ hn)
    simpa using this
  cases bs with
  | nil =>
    have : keep refs.tail [] news = [] := List.length_eq_zero_iff.1 (length_keep ..)
    simp [this]
  | cons b bs =>
    cases i with
    | zero => rfl
    | succ i =>
      simp only [List.take_succ_cons, List.take_zero, List.tail_cons, List.singleton_append,
        List.getElem?_cons_succ]
      rw [keep_getElem? _ _ _ _ (by simpa using hlen)]
      split
      · rename_i hr
        rcases hi with hi | hi | hi
        · cases hi
        · exact hi t v _ _ hn
        · rw [List.getElem?_tail] at hr
          exact (hi hr).elim
      · rfl

theorem sequence_keeps (hc : Shaped call) {i : Nat}
    (hi : i = 0 ∨ Spares call (i - 1) ∨ refs[i]? ≠ some true) {vs : List (BitVec 64)} :
    ∀ {t : Nat} {bs bs' : Contents}, sequence call refs t vs bs = some bs' →
      bs'[i]? = bs[i]? := by
  induction vs with
  | nil =>
    intro t bs bs' h
    cases h
    rfl
  | cons v vs ih =>
    intro t bs bs' h
    rw [sequence, Option.bind_eq_some_iff] at h
    obtain ⟨bs₁, h1, h2⟩ := h
    rw [ih h2, once_keeps hc hi h1]

theorem sequence_isSome (refs : List Bool) (hr : ∀ t v bs, (call t v bs).isSome)
    (vs : List (BitVec 64)) :
    ∀ (t : Nat) (bs : Contents), ∃ bs', sequence call refs t vs bs = some bs' := by
  induction vs with
  | nil => exact fun t bs => ⟨bs, rfl⟩
  | cons v vs ih =>
    intro t bs
    obtain ⟨news, hn⟩ := Option.isSome_iff_exists.1 (hr t v bs.tail)
    obtain ⟨bs', h⟩ := ih (t + 1) (bs.take 1 ++ keep refs.tail bs.tail news)
    exact ⟨bs', by rw [sequence, once, hn, Option.map_some, Option.bind_some, h]⟩

/-! ## Functions of the iterator and the contents -/

section
variable (g : BitVec 64 → Contents → Contents)

def pureOnce (refs : List Bool) (bs : Contents) (v : BitVec 64) : Contents :=
  bs.take 1 ++ keep refs.tail bs.tail (g v bs.tail)

/-- The calls with the iterators `vs`. -/
def pureSequence (refs : List Bool) (vs : List (BitVec 64)) (bs : Contents) : Contents :=
  vs.foldl (pureOnce g refs) bs

variable {g}

theorem sequence_pure (hg : ∀ t v bs, call t v bs = some (g v bs)) (vs : List (BitVec 64)) :
    ∀ (t : Nat) (bs : Contents),
      sequence call refs t vs bs = some (pureSequence g refs vs bs) := by
  induction vs with
  | nil => exact fun t bs => rfl
  | cons v vs ih =>
    intro t bs
    rw [sequence, once, hg, Option.map_some, Option.bind_some, ih]
    rfl

/-- What no call changes is the same after all of them. -/
theorem pureSequence_keeps (hg : ∀ v bs, (g v bs).map List.length = bs.map List.length) {i : Nat}
    (hi : i = 0 ∨ (∀ v bs, (g v bs)[i - 1]? = bs[i - 1]?) ∨ refs[i]? ≠ some true)
    (vs : List (BitVec 64)) (bs : Contents) : (pureSequence g refs vs bs)[i]? = bs[i]? := by
  have hshaped : Shaped fun _ v bs => some (g v bs) := fun _ v bs bs' h => by
    cases h
    exact hg v bs
  refine sequence_keeps hshaped (hi.imp_right (.imp_left fun hs _ v bs bs' h => ?_))
    (sequence_pure (fun _ _ _ => rfl) vs 0 bs)
  cases h
  exact hs v bs

theorem pureOnce_lengths (hg : ∀ v bs, (g v bs).map List.length = bs.map List.length)
    (bs : Contents) (v : BitVec 64) :
    (pureOnce g refs bs v).map List.length = bs.map List.length := by
  cases bs with
  | nil => simp [pureOnce, List.length_eq_zero_iff.1 (length_keep refs.tail [] (g v []))]
  | cons b bs => simp [pureOnce, keep_lengths _ _ _ (hg v bs)]

theorem pureSequence_lengths (hg : ∀ v bs, (g v bs).map List.length = bs.map List.length)
    (vs : List (BitVec 64)) : ∀ bs : Contents,
      (pureSequence g refs vs bs).map List.length = bs.map List.length := by
  induction vs with
  | nil => exact fun bs => rfl
  | cons v vs ih => exact fun bs => (ih _).trans (pureOnce_lengths hg bs v)

theorem pureOnce_getElem? (hg : ∀ v bs, (g v bs).map List.length = bs.map List.length)
    (bs : Contents) (v : BitVec 64) {i : Nat} (hi : refs[i + 1]? = some true) :
    (pureOnce g refs bs v)[i + 1]? = (g v bs.tail)[i]? := by
  have hlen : ∀ bs, (g v bs).length = bs.length := fun bs => by
    simpa using congrArg List.length (hg v bs)
  cases bs with
  | nil =>
    rw [List.tail_nil, List.length_eq_zero_iff.1 (hlen [])]
    simp [pureOnce, List.length_eq_zero_iff.1 (length_keep refs.tail [] (g v []))]
  | cons b bs =>
    rw [pureOnce, List.take_succ_cons, List.take_zero, List.tail_cons, List.singleton_append,
      List.getElem?_cons_succ, keep_getElem? _ _ _ _ (hlen bs), List.getElem?_tail, hi, if_pos rfl]

/-- Calls that commute may be made in any order. -/
theorem foldl_perm_on {α β : Type} {f : β → α → β} {P : β → Prop} {l l' : List α}
    (hP : ∀ z, P z → ∀ x, P (f z x)) (hp : l.Perm l')
    (hcomm : ∀ x ∈ l, ∀ y ∈ l, ∀ z, P z → f (f z x) y = f (f z y) x) {z : β} (hz : P z) :
    l.foldl f z = l'.foldl f z := by
  -- on what has the property
  let f' (z : {z // P z}) (x : α) : {z // P z} := ⟨f z x, hP z z.2 x⟩
  have hval : ∀ (l : List α) (z : {z // P z}), (l.foldl f' z).1 = l.foldl f z.1 :=
    fun l z => (List.foldl_hom Subtype.val fun _ _ => rfl).symm
  have h := hp.foldl_eq' (f := f') (fun x hx y hy z => Subtype.ext (hcomm x hx y hy z z.2)) ⟨z, hz⟩
  rw [← hval l ⟨z, hz⟩, h, hval]

theorem pureSequence_id (refs : List Bool) (vs : List (BitVec 64)) (bs : Contents) :
    pureSequence (fun _ bs => bs) refs vs bs = bs := by
  have honce : ∀ v, pureOnce (fun _ bs => bs) refs bs v = bs := fun v => by
    rw [pureOnce, keep_same]
    cases bs <;> rfl
  induction vs with
  | nil => rfl
  | cons v vs ih =>
    rw [pureSequence, List.foldl_cons, honce]
    exact ih

theorem pureSequence_concat (refs : List Bool) (vs : List (BitVec 64)) (v : BitVec 64)
    (bs : Contents) : pureSequence g refs (vs ++ [v]) bs =
      pureOnce g refs (pureSequence g refs vs bs) v := by
  simp [pureSequence]

end

end Sequence
