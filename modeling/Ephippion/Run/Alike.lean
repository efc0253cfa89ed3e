import Ephippion.Run.Inputs
import Mathlib.Data.List.Forall2

/-!
# What the outcome of a harness depends on

Two harnesses with alike slots, run in worlds that give them the same inputs, end alike
(`HarnessAt.outcome_alike`). `Slot.Alike` compares what a slot is in storage: the parameter's type,
the specification's direction and iterator dependence and the place of the copies; the names of the
symbolic objects are related by any `N`. The inputs are the bytes a world gives the copies before
the first call and what it says of the calls (`SameInputs`): from the first call on a program looks
at nothing else of its world, and every step of it relates what its arguments relate.
-/

namespace Ephippion

open ObjMem (Mem)

variable {N : String → String → Prop}

/-! ## Alike states -/

/-- The same event, up to the names of symbolic objects. -/
inductive Event.Alike (N : String → String → Prop) : Event → Event → Prop
  | same (e : Event) : Event.Alike N e e
  | symbolize {o n : Nat} {x y : String} (h : N x y) :
    Event.Alike N (.symbolize o n x) (.symbolize o n y)

/-- The same memory, after alike events. -/
structure Core.Alike (N : String → String → Prop) (c c' : Core) : Prop where
  mem : c.mem = c'.mem
  trace : List.Forall₂ (Event.Alike N) c.trace c'.trace

inductive Outcome.Alike (N : String → String → Prop) : Outcome → Outcome → Prop
  | returned {c c' : Core} (v : RVal) (h : c.Alike N c') :
    Outcome.Alike N (.returned v c) (.returned v c')
  | failed {c c' : Core} (h : c.Alike N c') : Outcome.Alike N (.failed c) (.failed c')
  | stuck {c c' : Core} (h : c.Alike N c') : Outcome.Alike N (.stuck c) (.stuck c')

/-- Computations that end alike. -/
abbrev EndAlike (N : String → String → Prop) :
    Except Outcome Core → Except Outcome Core → Prop :=
  Except.Alike (Outcome.Alike N) (Core.Alike N)

theorem Event.Alike.eq {e e' : Event} (h : e.Alike Eq e') : e = e' := by
  cases h with
  | same => rfl
  | symbolize h => rw [h]

theorem Core.Alike.eq {c c' : Core} (h : c.Alike Eq c') : c = c' := by
  obtain ⟨m, t⟩ := c
  obtain ⟨m', t'⟩ := c'
  obtain ⟨rfl, ht⟩ := h
  have heq : List.Forall₂ Eq t t' := ht.imp fun _ _ => Event.Alike.eq
  rw [List.forall₂_eq_eq_eq] at heq
  rw [heq]

theorem Outcome.Alike.eq {o o' : Outcome} (h : o.Alike Eq o') : o = o' := by
  cases h with
  | returned v h => rw [h.eq]
  | failed h => rw [h.eq]
  | stuck h => rw [h.eq]

/-! ## Alike effects -/

section
variable {W W' : World} {c c' : Core}

namespace Core.Alike

theorem log (h : c.Alike N c') (m : Mem) {e e' : Event} (he : e.Alike N e') :
    (c.log m e).Alike N (c'.log m e') :=
  ⟨rfl, List.rel_append h.trace (.cons he .nil)⟩

theorem log_same (h : c.Alike N c') (m : Mem) (e : Event) : (c.log m e).Alike N (c'.log m e) :=
  h.log m (.same e)

theorem effect (h : c.Alike N c') (m : Option Mem) (e : Event) :
    Option.Rel (Core.Alike N) (m.map (c.log · e)) (m.map (c'.log · e)) := by
  cases m with
  | none => exact .none
  | some m => exact .some (h.log_same m e)

theorem free (h : c.Alike N c') (o : Nat) :
    Option.Rel (Core.Alike N) (c.free o) (c'.free o) := by
  rw [Core.free, Core.free, h.mem]
  exact h.effect _ _

theorem call (h : c.Alike N c') (hW : W.call = W'.call) (b : Nat) (args : List RVal) :
    Option.Rel (Core.Alike N) (c.call W b args) (c'.call W' b args) := by
  unfold Core.call
  split
  · rw [h.mem, h.trace.length_eq, hW]
    cases List.mapM (argContents c'.mem) _ with
    | none => exact .none
    | some bs =>
      rw [Option.bind_some, Option.bind_some]
      cases W'.call c'.trace.length _ bs with
      | none => exact .none
      | some bs' => exact h.effect _ _
  · exact .none

theorem attempt (h : c.Alike N c') {e e' : Option Core} (he : Option.Rel (Core.Alike N) e e') :
    EndAlike N (Ephippion.attempt c e) (Ephippion.attempt c' e') := by
  cases he with
  | none => exact .error (.stuck h)
  | some he => exact .ok he

end Core.Alike

end

/-! ## Alike slots -/

/-- Slots of the same storage, whose symbolic objects have related names. -/
structure Slot.Alike (N : String → String → Prop) (s t : Slot) : Prop where
  type : s.param.type = t.param.type
  direction : s.spec.direction = t.spec.direction
  iteratorDependent : s.spec.iteratorDependent = t.spec.iteratorDependent
  idx : s.idx = t.idx
  name1 : N (s.symName "1" s.name1) (t.symName "1" t.name1)
  name2 : N (s.symName "2" s.name2) (t.symName "2" t.name2)

namespace Slot.Alike

variable {dl : DataLayout} {n : IterationsNumTy} {s t : Slot}

theorem isPtr (h : s.Alike N t) : s.isPtr = t.isPtr := by rw [Slot.isPtr, h.type]; rfl

theorem outbound (h : s.Alike N t) : s.outbound = t.outbound := by
  rw [Slot.outbound, h.direction]; rfl

theorem symbolized (h : s.Alike N t) : s.symbolized = t.symbolized := by
  rw [Slot.symbolized, h.direction]; rfl

theorem width (h : s.Alike N t) : s.width = t.width := by rw [Slot.width, h.outbound]; rfl

theorem symbolEvents (h : s.Alike N t) : s.symbolEvents = t.symbolEvents := by
  rw [Slot.symbolEvents, h.symbolized, h.outbound]; rfl

theorem obj (h : s.Alike N t) (k : Copy) : s.obj k = t.obj k := by
  cases k with
  | first => exact h.idx
  | second => simp only [Slot.obj, Slot.idx2, h.outbound, h.idx]

theorem multiplier (h : s.Alike N t) :
    Ephippion.multiplier s.spec n = Ephippion.multiplier t.spec n := by
  rw [Ephippion.multiplier, h.iteratorDependent]; rfl

theorem size (h : s.Alike N t) : s.size dl n = t.size dl n := by
  simp only [Slot.size, Slot.allocSize, h.isPtr, h.multiplier, Param.elemTy, h.type]

theorem comparedSize (h : s.Alike N t) : s.comparedSize dl n = t.comparedSize dl n := by
  simp only [Slot.comparedSize, h.multiplier, Slot.copyTy, h.isPtr, h.type]

theorem passed (h : s.Alike N t) (m : Mem) (k : Copy) : s.passed m k = t.passed m k := by
  simp only [Slot.passed, h.isPtr, h.obj]

theorem allocateTrace (h : s.Alike N t) : s.allocateTrace dl n = t.allocateTrace dl n := by
  simp only [Slot.allocateTrace, h.obj, h.isPtr, h.size, h.outbound]

theorem symbolTrace (h : s.Alike N t) :
    List.Forall₂ (Event.Alike N) (s.symbolTrace dl n) (t.symbolTrace dl n) := by
  simp only [Slot.symbolTrace, h.symbolized, h.outbound, h.size, h.obj]
  cases t.symbolized with
  | false => exact .nil
  | true =>
    cases t.outbound with
    | false => exact .cons (.symbolize h.name1) .nil
    | true => exact .cons (.symbolize h.name1) (.cons (.symbolize h.name2) (.cons (.same _) .nil))

theorem release (h : s.Alike N t) {c c' : Core} (hc : c.Alike N c') :
    EndAlike N (Slot.release c s) (Slot.release c' t) := by
  unfold Slot.release
  rw [h.isPtr, h.outbound, h.obj, h.obj]
  cases t.isPtr with
  | false => exact .ok hc
  | true =>
    cases t.outbound with
    | false => exact hc.attempt (hc.free _)
    | true => exact (hc.attempt (hc.free _)).bind fun c c' hc => hc.attempt (hc.free _)

end Slot.Alike

/-! ## Alike lists of slots -/

section
variable {dl : DataLayout} {n : IterationsNumTy} {slots slots' : List Slot}

theorem map_eq_of_alike {α : Type} {g : Slot → α} (hg : ∀ s t, s.Alike N t → g s = g t)
    (h : List.Forall₂ (Slot.Alike N) slots slots') : slots.map g = slots'.map g := by
  induction h with
  | nil => rfl
  | cons hs _ ih => rw [List.map_cons, List.map_cons, hg _ _ hs, ih]

theorem symbolTime_of_alike (h : List.Forall₂ (Slot.Alike N) slots slots') (i : Nat) :
    symbolTime slots i = symbolTime slots' i := by
  rw [symbolTime, symbolTime, slotsWidth, slotsWidth,
    map_eq_of_alike (fun _ _ => Slot.Alike.width) h, List.map_take, List.map_take,
    map_eq_of_alike (fun _ _ => Slot.Alike.symbolEvents) h]

theorem checked_of_alike (h : List.Forall₂ (Slot.Alike N) slots slots') :
    List.Forall₂ (Slot.Alike N) (slots.filter Slot.outbound) (slots'.filter Slot.outbound) :=
  List.rel_filter (fun _ _ hs => iff_of_eq (congrArg (· = true) hs.outbound)) h

theorem tail_of_alike (h : List.Forall₂ (Slot.Alike N) slots slots') :
    List.Forall₂ (Slot.Alike N) slots.tail slots'.tail := by
  cases h with
  | nil => exact .nil
  | cons _ h => exact h

theorem zipIdx_of_alike : ∀ {slots slots' : List Slot} (k : Nat),
    List.Forall₂ (Slot.Alike N) slots slots' →
      List.Forall₂ (fun a b : Slot × Nat => a.1.Alike N b.1 ∧ a.2 = b.2) (slots.zipIdx k)
        (slots'.zipIdx k)
  | _, _, _, .nil => .nil
  | _, _, k, .cons hs h => .cons ⟨hs, rfl⟩ (zipIdx_of_alike (k + 1) h)

end

/-! ## Alike harnesses -/

/-- The calls, the checks and the teardown. -/
def Harness.test (W : World) (H : Harness) (c : Core) : Except Outcome Core := do
  let c ← (H.iterators .first).foldlM (H.callOnce W .first) c
  let c ← (H.iterators .second).foldlM (H.callOnce W .second) c
  let c ← H.checked.zipIdx.foldlM H.compareCopies c
  H.slots.reverse.foldlM Slot.release c

theorem Harness.program_eq (W : World) (H : Harness) : H.program W = H.prepare W >>= H.test W := rfl

/-- Harnesses with alike slots and the same blocks. -/
structure Harness.Alike (N : String → String → Prop) (H K : Harness) : Prop where
  base : H.base = K.base
  n : H.n = K.n
  dl : H.dl = K.dl
  slots : List.Forall₂ (Slot.Alike N) H.slots K.slots

/-- The worlds agree on the calls and on the bytes that the copies have before the first call: those
a copy is made symbolic with, and what is in the fresh storage of one that is not. -/
structure SameInputs (H : Harness) (W W' : World) : Prop where
  call : W.call = W'.call
  symbolic : ∀ (i : Nat) (s : Slot), H.slots[i]? = some s → s.symbolized →
    ∀ j < s.size H.dl H.n,
      W.symbol (symbolTime H.slots i) j = W'.symbol (symbolTime H.slots i) j
  fresh : ∀ s ∈ H.slots, s.symbolized = false → ∀ k, ∀ j < s.size H.dl H.n,
    W.fresh (s.obj k) j = W'.fresh (s.obj k) j

namespace Harness.Alike

variable {H K : Harness} {W W' : World} {c c' : Core}

theorem m (h : H.Alike N K) : H.m = K.m := (checked_of_alike h.slots).length_eq

theorem id (h : H.Alike N K) (B : HBlock) : H.id B = K.id B := by
  cases B <;> simp only [Harness.id, h.base, h.m]

theorem prepareTrace (h : H.Alike N K) :
    List.Forall₂ (Event.Alike N) H.prepareTrace K.prepareTrace := by
  rw [Harness.prepareTrace, Harness.prepareTrace, h.n, h.dl]
  refine List.rel_append (List.rel_flatMap h.slots fun _ _ hs => ?_)
    (List.rel_flatMap h.slots fun _ _ hs => hs.symbolTrace)
  rw [hs.allocateTrace]
  exact List.forall₂_same.2 fun e _ => .same e

theorem callOnce (h : H.Alike N K) (hW : W.call = W'.call) (k : Copy) (hc : c.Alike N c')
    (v : BitVec 64) : EndAlike N (H.callOnce W k c v) (K.callOnce W' k c' v) := by
  unfold Harness.callOnce
  rw [h.id, map_eq_of_alike (fun _ _ hs => hs.passed c.mem k) (tail_of_alike h.slots), hc.mem]
  exact hc.attempt (hc.call hW _ _)

theorem compareCopies (h : H.Alike N K) (hc : c.Alike N c') {s t : Slot × Nat}
    (hs : s.1.Alike N t.1) (hj : s.2 = t.2) :
    EndAlike N (H.compareCopies c s) (K.compareCopies c' t) := by
  unfold Harness.compareCopies Core.compare
  rw [hc.mem, hs.obj, hs.obj, h.dl, h.n, hs.comparedSize, h.id, hj]
  cases ObjMem.cmp c'.mem _ _ _ with
  | none => exact .error (.stuck hc)
  | some eq =>
    cases eq with
    | true => exact .ok (hc.log_same _ _)
    | false => exact .error (.failed ((hc.log_same _ _).log_same _ _))

theorem iterators (h : H.Alike N K) (k : Copy) : H.iterators k = K.iterators k := by
  cases k <;> simp only [Harness.iterators, h.n]

theorem test (h : H.Alike N K) (hW : W.call = W'.call) (hc : c.Alike N c') :
    EndAlike N (H.test W c) (K.test W' c') := by
  have hcalls : ∀ (k : Copy) {c c' : Core}, c.Alike N c' →
      EndAlike N ((H.iterators k).foldlM (H.callOnce W k) c)
        ((K.iterators k).foldlM (K.callOnce W' k) c') := by
    intro k c c' hc
    rw [h.iterators]
    refine Except.Alike.foldlM (T := Eq) (List.forall₂_same.2 fun _ _ => rfl) ?_ hc
    rintro v _ c c' rfl hc
    exact h.callOnce hW k hc v
  refine (hcalls .first hc).bind fun c c' hc => (hcalls .second hc).bind fun c c' hc => ?_
  refine Except.Alike.bind (Except.Alike.foldlM (zipIdx_of_alike 0 (checked_of_alike h.slots))
    (fun _ _ _ _ hs hc => h.compareCopies hc hs.1 hs.2) hc) fun c c' hc => ?_
  exact Except.Alike.foldlM (List.rel_reverse h.slots) (fun _ _ _ _ hs hc => hs.release hc) hc

end Harness.Alike

/-! ## The same inputs -/

theorem IsLayout.exists_obj {params : List Param} {specs : List ArgSpec} {slots : List Slot}
    (hl : IsLayout params specs slots) {o : Nat} (ho : o < slotsWidth slots) :
    ∃ (i : Nat) (s : Slot) (k : Copy), slots[i]? = some s ∧ s.obj k = o := by
  have key : ∀ j ≤ slots.length, o < slotsWidth (slots.take j) →
      ∃ (i : Nat) (s : Slot) (k : Copy), slots[i]? = some s ∧ s.obj k = o := by
    intro j
    induction j with
    | zero => exact fun _ h => (Nat.not_lt_zero o h).elim
    | succ j ih =>
      intro hj hlt
      have hs : slots[j]? = some slots[j] := List.getElem?_eq_getElem hj
      by_cases hold : o < slotsWidth (slots.take j)
      · exact ih (Nat.le_of_lt hj) hold
      · rw [slotsWidth_take_succ hs] at hlt
        have hidx := (hl.at_pos j _ hs).2.2
        by_cases ho : o = slots[j].idx
        · exact ⟨j, _, .first, hs, ho.symm⟩
        · cases hout : slots[j].outbound with
          | false =>
            rw [Slot.width, hout] at hlt
            simp at hlt
            omega
          | true =>
            rw [Slot.width, hout] at hlt
            refine ⟨j, _, .second, hs, ?_⟩
            rw [Slot.obj, Slot.idx2, hout]
            simp at hlt ⊢
            omega
  exact key slots.length (Nat.le_refl _) (by rwa [List.take_length])

section
variable {h h' F F' : Nat} {f f' : Function} {n n' : IterationsNumTy} {specs specs' : List ArgSpec}
  {H K : Harness} {M M' : Module} {W W' : World}

theorem HarnessAt.same_inputs (hat : HarnessAt h F f n specs H M) (halike : H.Alike N K)
    (hin : SameInputs H W W') {m m' : Mem} (hm : InputsAt W H m) (hm' : InputsAt W' K m')
    (hlen : m.length = slotsWidth H.slots) (hlen' : m'.length = slotsWidth K.slots) : m = m' := by
  have hwidth : slotsWidth H.slots = slotsWidth K.slots := by
    rw [slotsWidth, slotsWidth, map_eq_of_alike (fun _ _ => Slot.Alike.width) halike.slots]
  apply List.ext_getElem?
  intro o
  by_cases ho : o < slotsWidth H.slots
  · obtain ⟨i, s, k, hs, rfl⟩ := hat.layout.exists_obj ho
    obtain ⟨t, ht, hst⟩ : ∃ t, K.slots[i]? = some t ∧ s.Alike N t := by
      have hi := (List.getElem?_eq_some_iff.1 hs).1
      have hi' := halike.slots.length_eq ▸ hi
      refine ⟨_, List.getElem?_eq_getElem hi', ?_⟩
      have hget := halike.slots.get hi hi'
      rwa [List.get_eq_getElem, List.get_eq_getElem, (List.getElem?_eq_some_iff.1 hs).2] at hget
    have hsize : s.size H.dl H.n = t.size K.dl K.n := by rw [halike.dl, halike.n, hst.size]
    cases hy : s.symbolized with
    | true =>
      rw [hm.symbolic i s hs hy k, hst.obj, hm'.symbolic i t ht (hst.symbolized ▸ hy) k,
        symbolicObj, symbolicObj, hst.isPtr, ← hsize, ← symbolTime_of_alike halike.slots]
      refine congrArg (fun cs => some (ObjMem.Obj.mk t.isPtr cs false))
        (List.map_congr_left fun j hj => ?_)
      rw [hin.symbolic i s hs hy j (List.mem_range.1 hj)]
    | false =>
      have hs' := List.mem_of_getElem? hs
      rw [hm.prepared.fresh s hs' hy k, hst.obj,
        hm'.prepared.fresh t (List.mem_of_getElem? ht) (hst.symbolized ▸ hy) k,
        freshObj, freshObj, hst.isPtr, ← hsize, ← hst.obj]
      refine congrArg (fun cs => some (ObjMem.Obj.mk t.isPtr cs false))
        (List.map_congr_left fun j hj => ?_)
      rw [hin.fresh s hs' hy k j (List.mem_range.1 hj)]
  · rw [List.getElem?_eq_none (by omega), List.getElem?_eq_none (by omega)]

/-- Alike harnesses end alike in worlds that give them the same inputs. -/
theorem HarnessAt.outcome_alike (hat : HarnessAt h F f n specs H M) (hlink : H.Linked F)
    (hat' : HarnessAt h' F' f' n' specs' K M') (hlink' : K.Linked F') (halike : H.Alike N K)
    (hin : SameInputs H W W') : (H.outcome W).Alike N (K.outcome W') := by
  obtain ⟨-, c, -, -, hm, hc, hlen, htrace⟩ := hat.prepare_run hlink W
  obtain ⟨-, c', -, -, hm', hc', hlen', htrace'⟩ := hat'.prepare_run hlink' W'
  have halikec : c.Alike N c' :=
    ⟨hat.same_inputs halike hin hm hm' hlen hlen', htrace ▸ htrace' ▸ halike.prepareTrace⟩
  have hends : EndAlike N (H.program W) (K.program W') := by
    rw [Harness.program_eq, Harness.program_eq, hc, hc']
    exact halike.test hin.call halikec
  rw [Harness.outcome, Harness.outcome]
  generalize H.program W = r at hends ⊢
  generalize K.program W' = r' at hends ⊢
  cases hends with
  | ok hc => exact .returned _ hc
  | error ho => exact ho

end

end Ephippion
