import Ephippion.Run.Pure
import Ephippion.Run.Refinement
import Mathlib.Logic.Function.Basic

/-!
# Every input is tested

What the two sequences of calls start from is what a world says of fresh storage and of the bytes
that are made symbolic; what is done before them is a computation of its own
(`HarnessAt.prepare_run`). A symbolized argument gets the bytes of the time at which its first copy
is made symbolic (`symbolTime`, `HarnessAt.inputs_run`); no two have the same time, and no two
copies are the same object, so for all contents of the arguments there is a world in which the
sequences start from them (`HarnessAt.exists_world`).
-/

namespace Ephippion

open ObjMem (Byte Cell Mem bytesAt)
open Sequence Machine

section
variable (dl : DataLayout) (n : IterationsNumTy) (s : Slot)

/-- What allocating the copies of a slot adds to the trace. -/
def Slot.allocateTrace : List Event :=
  .alloc (s.obj .first) s.isPtr (s.size dl n) ::
    if s.outbound then [.alloc (s.obj .second) s.isPtr (s.size dl n)] else []

/-- What making a slot symbolic adds to the trace. -/
def Slot.symbolTrace : List Event :=
  if s.symbolized then
    .symbolize (s.obj .first) (s.size dl n) (s.symName "1" s.name1) ::
      if s.outbound then
        [.symbolize (s.obj .second) (s.size dl n) (s.symName "2" s.name2),
          .copy (s.obj .second) (s.obj .first) (s.size dl n)]
      else []
  else []

def Slot.symbolEvents (s : Slot) : Nat :=
  if s.symbolized then if s.outbound then 3 else 1 else 0

@[simp] theorem Slot.length_allocateTrace : (s.allocateTrace dl n).length = s.width := by
  unfold allocateTrace width
  cases s.outbound <;> rfl

@[simp] theorem Slot.length_symbolTrace : (s.symbolTrace dl n).length = s.symbolEvents := by
  unfold symbolTrace symbolEvents
  cases s.symbolized <;> cases s.outbound <;> rfl

end

/-- When the `i`-th slot is made symbolic: after all allocations and the slots before. -/
def symbolTime (slots : List Slot) (i : Nat) : Nat :=
  slotsWidth slots + ((slots.take i).map Slot.symbolEvents).sum

theorem symbolTime_lt {slots : List Slot} {i j : Nat} {s : Slot} (hs : slots[i]? = some s)
    (hy : s.symbolized) (hij : i < j) : symbolTime slots i < symbolTime slots j := by
  have hpos : 0 < s.symbolEvents := by
    unfold Slot.symbolEvents
    rw [if_pos hy]
    split <;> omega
  have hsucc : slots.take (i + 1) = slots.take i ++ [s] := by rw [List.take_add_one, hs]; rfl
  have hsplit : slots.take j = slots.take i ++ [s] ++ (slots.take j).drop (i + 1) := by
    have h := (List.take_append_drop (i + 1) (slots.take j)).symm
    rwa [List.take_take, Nat.min_eq_left hij, hsucc] at h
  rw [symbolTime, symbolTime, hsplit, List.map_append, List.sum_append, List.map_append,
    List.sum_append, List.map_singleton, List.sum_singleton]
  omega

/-! ## When what is made symbolic -/

section
variable {W : World} {dl : DataLayout} {n : IterationsNumTy} {c : Core} {s : Slot}
  {slots : List Slot} {params : List Param} {specs : List ArgSpec}

theorem Stored.symbolize (hst : Stored dl n slots c.mem) (hs : s ∈ slots) (k : Copy)
    (name : String) : c.symbolize W (s.obj k) (s.size dl n) name =
      some (c.log (c.mem.set (s.obj k) (symbolicObj W dl n s c.trace.length))
        (.symbolize (s.obj k) (s.size dl n) name)) := by
  obtain ⟨cs, ho, hlen⟩ := hst s hs k
  rw [Core.symbolize, ← hlen, ObjMem.fill_of ho (Nat.le_refl _), List.drop_length, List.append_nil,
    symbolicObj, hlen]
  rfl

theorem copy_symbolic {t t' : Nat}
    (h1 : c.mem[s.obj .first]? = some (symbolicObj W dl n s t))
    (h2 : c.mem[s.obj .second]? = some (symbolicObj W dl n s t')) :
    c.copy (s.obj .second) (s.obj .first) (s.size dl n) =
      some (c.log (c.mem.set (s.obj .second) (symbolicObj W dl n s t))
        (.copy (s.obj .second) (s.obj .first) (s.size dl n))) := by
  have hlen : ∀ t, ((List.range (s.size dl n)).map fun i =>
      (⟨W.symbol t i, true⟩ : Cell)).length = s.size dl n := fun t => by simp
  rw [Core.copy, ObjMem.copy_of h2 h1 (by simp) (by simp),
    List.take_of_length_le (Nat.le_of_eq (hlen t)), List.drop_of_length_le (Nat.le_of_eq (hlen t')),
    List.append_nil]
  rfl

theorem Slot.makeSymbolic_spec (hst : Stored dl n slots c.mem) (hs : s ∈ slots) :
    ∃ c', s.makeSymbolic W dl n c = .ok c' ∧
      c'.trace = c.trace ++ s.symbolTrace dl n ∧
      ObjMem.Same (fun o => ∃ k, o = s.obj k) c.mem c'.mem ∧ Stored dl n slots c'.mem ∧
      (s.symbolized → ∀ k, c'.mem[s.obj k]? = some (symbolicObj W dl n s c.trace.length)) := by
  have hset : ∀ {c : Core} (k : Copy) (t : Nat), Stored dl n slots c.mem →
      Stored dl n slots (c.mem.set (s.obj k) (symbolicObj W dl n s t)) := by
    intro c k t hst
    obtain ⟨cs, ho, hlen⟩ := hst s hs k
    exact hst.set ho (by simp [hlen])
  have hlt : ∀ {c : Core} (k : Copy), Stored dl n slots c.mem → s.obj k < c.mem.length := by
    intro c k hst
    obtain ⟨cs, ho, -⟩ := hst s hs k
    exact (List.getElem?_eq_some_iff.1 ho).1
  cases hy : s.symbolized with
  | false =>
    refine ⟨c, by simp [Slot.makeSymbolic, hy], by simp [Slot.symbolTrace, hy], .refl _ _, hst,
      fun h => by cases h⟩
  | true =>
    cases hout : s.outbound with
    | false =>
      have e1 := hst.symbolize (W := W) hs .first (s.symName "1" s.name1)
      have hok : s.makeSymbolic W dl n c = .ok (c.log
          (c.mem.set (s.obj .first) (symbolicObj W dl n s c.trace.length))
          (.symbolize (s.obj .first) (s.size dl n) (s.symName "1" s.name1))) := by
        simp [Slot.makeSymbolic, hy, hout, attempt, e1]
      refine ⟨_, hok, ?_, .set ⟨.first, rfl⟩ _ _, hset .first c.trace.length hst, fun _ k => ?_⟩
      · simp [Slot.symbolTrace, hy, hout, Core.log]
      · rw [s.obj_of_not_outbound hout k, ← s.obj_of_not_outbound hout .first]
        exact List.getElem?_set_self (hlt .first hst)
    | true =>
      -- `c₁` and `c₂` are after the first and the second copy
      have e1 := hst.symbolize (W := W) hs .first (s.symName "1" s.name1)
      generalize hc₁ : c.log (c.mem.set (s.obj .first) (symbolicObj W dl n s c.trace.length))
        (.symbolize (s.obj .first) (s.size dl n) (s.symName "1" s.name1)) = c₁ at e1
      have hst₁ : Stored dl n slots c₁.mem := hc₁ ▸ hset .first c.trace.length hst
      have e2 := hst₁.symbolize (W := W) hs .second (s.symName "2" s.name2)
      generalize hc₂ : c₁.log (c₁.mem.set (s.obj .second) (symbolicObj W dl n s c₁.trace.length))
        (.symbolize (s.obj .second) (s.size dl n) (s.symName "2" s.name2)) = c₂ at e2
      have hst₂ : Stored dl n slots c₂.mem := hc₂ ▸ hset .second c₁.trace.length hst₁
      have h1 : c₂.mem[s.obj .first]? = some (symbolicObj W dl n s c.trace.length) := by
        subst hc₂
        show (c₁.mem.set _ _)[_]? = _
        rw [List.getElem?_set_ne (s.obj_ne hout)]
        subst hc₁
        exact List.getElem?_set_self (hlt .first hst)
      have h2 : c₂.mem[s.obj .second]? = some (symbolicObj W dl n s c₁.trace.length) := by
        subst hc₂
        exact List.getElem?_set_self (hlt .second hst₁)
      have hok : s.makeSymbolic W dl n c = .ok (c₂.log
          (c₂.mem.set (s.obj .second) (symbolicObj W dl n s c.trace.length))
          (.copy (s.obj .second) (s.obj .first) (s.size dl n))) := by
        simp [Slot.makeSymbolic, hy, hout, attempt, e1, e2, copy_symbolic h1 h2]
      refine ⟨_, hok, ?_, ?_, hset .second c.trace.length hst₂, fun _ k => ?_⟩
      · simp [Slot.symbolTrace, hy, hout, ← hc₂, ← hc₁, Core.log]
      · subst hc₂ hc₁
        exact ((ObjMem.Same.set ⟨.first, rfl⟩ _ _).trans (.set ⟨.second, rfl⟩ _ _)).trans
          (.set ⟨.second, rfl⟩ _ _)
      · cases k with
        | first =>
          show (c₂.mem.set _ _)[_]? = _
          rw [List.getElem?_set_ne (s.obj_ne hout), h1]
        | second => exact List.getElem?_set_self (hlt .second hst₂)

/-! ## A run up to the first call -/

/-- The allocations create an object after the other. -/
theorem IsLayout.allocate_eq (hl : IsLayout params specs slots) :
    (slots.foldl (Slot.allocate W dl n) ⟨[], []⟩).mem.length = slotsWidth slots ∧
      (slots.foldl (Slot.allocate W dl n) ⟨[], []⟩).trace =
        slots.flatMap (Slot.allocateTrace dl n) := by
  have key : ∀ (rest done : List Slot) (c : Core), done ++ rest = slots →
      c.mem.length = slotsWidth done → c.trace = done.flatMap (Slot.allocateTrace dl n) →
      (rest.foldl (Slot.allocate W dl n) c).mem.length = slotsWidth slots ∧
        (rest.foldl (Slot.allocate W dl n) c).trace =
          slots.flatMap (Slot.allocateTrace dl n) := by
    intro rest
    induction rest with
    | nil =>
      intro done c hdone hlen htrace
      rw [List.append_nil] at hdone
      exact ⟨hdone ▸ hlen, hdone ▸ htrace⟩
    | cons s rest ih =>
      intro done c hdone hlen htrace
      have hidx : s.idx = slotsWidth done := by
        have h := (hl.at_pos done.length s (by rw [← hdone]; simp)).2.2
        rwa [← hdone, List.take_left] at h
      refine ih (done ++ [s]) _ (by rw [← hdone]; simp) ?_ ?_
      · rw [slotsWidth_append]
        unfold Slot.allocate
        cases hout : s.outbound <;>
          simp [Core.alloc, Core.log, ObjMem.alloc, hlen, slotsWidth, Slot.width, hout]
      · rw [List.flatMap_append, ← htrace]
        unfold Slot.allocate
        cases hout : s.outbound <;>
          simp [Core.alloc, Core.log, ObjMem.alloc, hlen, Slot.allocateTrace, Slot.obj, Slot.idx2,
            hout, hidx]
  exact key slots [] ⟨[], []⟩ rfl rfl rfl

end

section
variable {h F : Nat} {f : Function} {n : IterationsNumTy} {specs : List ArgSpec} {H : Harness}
  {M' : Module} {W : World} {g : BitVec 64 → Contents → Contents}

/-- What the first sequence starts from. -/
structure InputsAt (W : World) (H : Harness) (m : Mem) : Prop where
  prepared : Prepared W H.dl H.n H.slots m
  symbolic : ∀ (i : Nat) (s : Slot), H.slots[i]? = some s → s.symbolized → ∀ k,
    m[s.obj k]? = some (symbolicObj W H.dl H.n s (symbolTime H.slots i))

/-- The copies are allocated and made symbolic. -/
def Harness.prepare (W : World) (H : Harness) : Except Outcome Core :=
  H.slots.foldlM (Slot.makeSymbolic W H.dl H.n)
    (H.slots.foldl (Slot.allocate W H.dl H.n) ⟨[], []⟩)

/-- What has happened then. -/
def Harness.prepareTrace (H : Harness) : List Event :=
  H.slots.flatMap (Slot.allocateTrace H.dl H.n) ++ H.slots.flatMap (Slot.symbolTrace H.dl H.n)

theorem HarnessAt.prepare_run (hat : HarnessAt h F f n specs H M') (hlink : H.Linked F)
    (W : World) : ∃ env c, Steps (step W M' F h) (startAt H.base)
        ⟨H.id .seSetup, H.id .call1Setup, env, c⟩ ∧ SetUp W H env c ∧ InputsAt W H c.mem ∧
      H.prepare W = .ok c ∧ c.mem.length = slotsWidth H.slots ∧ c.trace = H.prepareTrace := by
  obtain ⟨env, h1, hs⟩ := hat.setup_eq (W := W) hlink
  obtain ⟨env', c', hc', h2, hset⟩ := hat.seSetup_eq hlink (H.id .setup) hs
  obtain ⟨hobjs, htrace⟩ : (H.slots.foldl (Slot.allocate W H.dl H.n) ⟨[], []⟩).mem.length =
      slotsWidth H.slots ∧ (H.slots.foldl (Slot.allocate W H.dl H.n) ⟨[], []⟩).trace =
        H.slots.flatMap (Slot.allocateTrace H.dl H.n) := hat.layout.allocate_eq
  have hstored : Stored H.dl H.n H.slots (H.slots.foldl (Slot.allocate W H.dl H.n) ⟨[], []⟩).mem :=
    fun s hs' k => ⟨_, hs.fresh s hs' k, by simp⟩
  -- the invariant of the loop over the slots
  let P (done : List Slot) (c : Core) : Prop := Stored H.dl H.n H.slots c.mem ∧
    c.mem.length = slotsWidth H.slots ∧
    c.trace = H.slots.flatMap (Slot.allocateTrace H.dl H.n) ++
      done.flatMap (Slot.symbolTrace H.dl H.n) ∧
    ∀ (i : Nat) (s : Slot), done[i]? = some s → s.symbolized → ∀ k,
      c.mem[s.obj k]? = some (symbolicObj W H.dl H.n s (symbolTime H.slots i))
  have hP : P H.slots c' := by
    refine Except.foldlM_ok (P := P) ⟨hstored, hobjs, by rw [htrace]; simp, fun i s hs => by
      simp at hs⟩ (fun done s c₁ c₂ hpre hdone hok => ?_) hc'
    obtain ⟨hst, hobjs, htrace, hsym⟩ := hdone
    obtain ⟨hmem, -⟩ := hat.layout.mem_of_isPrefix hpre
    obtain ⟨c₃, hok', htrace', hsame, hst', hnew⟩ := s.makeSymbolic_spec (W := W) hst hmem
    rw [hok] at hok'
    cases hok'
    have htake : H.slots.take done.length = done := by
      obtain ⟨rest, hrest⟩ := hpre
      rw [← hrest, List.append_assoc, List.take_left]
    refine ⟨hst', hsame.length.trans hobjs, by rw [htrace', htrace]; simp, fun i s' hs' hy k => ?_⟩
    have hi : H.slots[i]? = some s' := by
      obtain ⟨rest, hrest⟩ := hpre
      rw [← hrest, List.getElem?_append_left (List.getElem?_eq_some_iff.1 hs').1, hs']
    have hlt : i < done.length + 1 := by simpa using (List.getElem?_eq_some_iff.1 hs').1
    by_cases hid : i = done.length
    · subst hid
      obtain rfl : s = s' := by simpa using hs'
      have htime : c₁.trace.length = symbolTime H.slots done.length := by
        rw [htrace, symbolTime, htake]
        simp [List.length_flatMap, slotsWidth]
      rw [hnew hy k, htime]
    · -- an earlier slot, whose copies are not touched
      rw [List.getElem?_append_left (by omega)] at hs'
      have hne : s' ≠ s := by
        rintro rfl
        obtain ⟨rest, hrest⟩ := hpre
        have h1 := (hat.layout.at_pos i s' hi).1
        have h2 := (hat.layout.at_pos done.length s' (by rw [← hrest]; simp)).1
        omega
      rw [hsame.objs _ fun he => hat.layout.obj_ne (List.mem_of_getElem? hi) hmem hne k he.choose
        he.choose_spec]
      exact hsym i s' hs' hy k
  exact ⟨env', c', .head h1 (.single h2), hset, ⟨hset.prepared, hP.2.2.2⟩, hc', hP.2.1, hP.2.2.1⟩

theorem HarnessAt.inputs_run (hat : HarnessAt h F f n specs H M') (hlink : H.Linked F)
    (W : World) : ∃ env c, Steps (step W M' F h) (startAt H.base)
        ⟨H.id .seSetup, H.id .call1Setup, env, c⟩ ∧ SetUp W H env c ∧ InputsAt W H c.mem := by
  obtain ⟨env, c, hsteps, hset, hin, -⟩ := hat.prepare_run hlink W
  exact ⟨env, c, hsteps, hset, hin⟩

/-! ## Worlds of chosen inputs -/

/-- The `j`-th byte of the `i`-th argument. -/
def byteOf (bs : Contents) (i j : Nat) : Byte := ((bs[i]?.getD [])[j]?).getD 0

theorem map_byteOf {bs : Contents} {i k : Nat} (hk : (bs[i]?).map List.length = some k) :
    (bs[i]?) = some ((List.range k).map (byteOf bs i)) := by
  obtain ⟨b, hb, rfl⟩ := Option.map_eq_some_iff.1 hk
  rw [hb, Option.some.injEq]
  apply List.ext_getElem?
  intro j
  rw [List.getElem?_map]
  by_cases hj : j < b.length
  · simp [byteOf, hb, hj]
  · rw [List.getElem?_eq_none (by omega), List.getElem?_eq_none (by simpa using hj)]
    rfl

theorem HarnessAt.slot_unique (hat : HarnessAt h F f n specs H M') {i j : Nat} {s t : Slot}
    (hs : H.slots[i]? = some s) (ht : H.slots[j]? = some t) {k k' : Copy}
    (he : s.obj k = t.obj k') : i = j ∧ s = t := by
  have hst : s = t := by
    by_contra hne
    exact hat.layout.obj_ne (List.mem_of_getElem? hs) (List.mem_of_getElem? ht) hne k k' he
  subst hst
  exact ⟨(hat.layout.at_pos i s hs).1.symm.trans (hat.layout.at_pos j s ht).1, rfl⟩

/-- For all contents of the arguments there is a world in which the sequences start from them, if
those that are made symbolic are the same for both. -/
theorem HarnessAt.exists_world (hat : HarnessAt h F f n specs H M')
    (hg : ∀ v bs, (g v bs).map List.length = bs.map List.length) {bs₁ bs₂ : Contents}
    (h1 : bs₁.map List.length = H.slots.map (Slot.size H.dl H.n))
    (h2 : bs₂.map List.length = H.slots.map (Slot.size H.dl H.n))
    (hsame : ∀ (i : Nat) (s : Slot), H.slots[i]? = some s → s.outbound → s.symbolized →
      bs₂[i]? = bs₁[i]?) :
    ∃ W : World, (∀ t v bs, W.call t v bs = some (g v bs)) ∧ ∀ m, InputsAt W H m →
      contents H.slots .first m = bs₁ ∧ ∀ (i : Nat) (s : Slot), H.slots[i]? = some s → s.outbound →
        (contents H.slots .second m)[i]? = bs₂[i]? := by
  have hfresh : ∀ o : Nat, ∃ u : Nat → Byte, ∀ (i : Nat) (s : Slot), H.slots[i]? = some s →
      (s.obj .first = o → u = byteOf bs₁ i) ∧
        (s.outbound → s.obj .second = o → u = byteOf bs₂ i) := by
    intro o
    by_cases hex : ∃ (i : Nat) (s : Slot), H.slots[i]? = some s ∧ s.obj .first = o
    · obtain ⟨i, s, hs, rfl⟩ := hex
      refine ⟨byteOf bs₁ i, fun j t ht => ⟨fun he => ?_, fun hout he => ?_⟩⟩
      · rw [(hat.slot_unique hs ht he.symm).1]
      · obtain ⟨-, rfl⟩ := hat.slot_unique hs ht he.symm
        exact (s.obj_ne hout he).elim
    · by_cases hex' : ∃ (i : Nat) (s : Slot), H.slots[i]? = some s ∧ s.obj .second = o
      · obtain ⟨i, s, hs, rfl⟩ := hex'
        refine ⟨byteOf bs₂ i, fun j t ht => ⟨fun he => (hex ⟨j, t, ht, he⟩).elim, fun _ he => ?_⟩⟩
        rw [(hat.slot_unique hs ht he.symm).1]
      · exact ⟨fun _ => 0, fun i s hs =>
          ⟨fun he => (hex ⟨i, s, hs, he⟩).elim, fun _ he => (hex' ⟨i, s, hs, he⟩).elim⟩⟩
  have hsymbol : ∀ t : Nat, ∃ u : Nat → Byte, ∀ (i : Nat) (s : Slot), H.slots[i]? = some s →
      s.symbolized → symbolTime H.slots i = t → u = byteOf bs₁ i := by
    intro t
    by_cases hex : ∃ (i : Nat) (s : Slot), H.slots[i]? = some s ∧ s.symbolized ∧
        symbolTime H.slots i = t
    · obtain ⟨i, s, hs, hy, rfl⟩ := hex
      refine ⟨byteOf bs₁ i, fun j s' hs' hy' he => ?_⟩
      rcases Nat.lt_trichotomy i j with hlt | rfl | hlt
      · have := symbolTime_lt hs hy hlt
        omega
      · rfl
      · have := symbolTime_lt hs' hy' hlt
        omega
    · exact ⟨fun _ => 0, fun i s hs hy he => (hex ⟨i, s, hs, hy, he⟩).elim⟩
  choose fresh hfresh using hfresh
  choose symbol hsymbol using hsymbol
  refine ⟨{ fresh, symbol, call := fun _ v bs => some (g v bs), shape := fun t v bs bs' hc => ?_ },
    fun _ _ _ => rfl, fun m hm => ?_⟩
  · cases hc
    exact hg v bs
  have hlen : ∀ {bs : Contents}, bs.map List.length = H.slots.map (Slot.size H.dl H.n) →
      ∀ {i : Nat} {s : Slot}, H.slots[i]? = some s →
        (bs[i]?).map List.length = some (s.size H.dl H.n) := by
    intro bs hbs i s hs
    rw [← List.getElem?_map, hbs, List.getElem?_map, hs]
    rfl
  -- what a symbolized argument's copies hold
  have hsym : ∀ {i : Nat} {s : Slot}, H.slots[i]? = some s → s.symbolized → ∀ k,
      some (bytesAt m (s.obj k)) = bs₁[i]? := by
    intro i s hs hy k
    rw [map_byteOf (hlen h1 hs), ← hsymbol _ i s hs hy rfl,
      ObjMem.bytesAt_of (hm.symbolic i s hs hy k)]
    simp [Function.comp_def]
  constructor
  · apply List.ext_getElem?
    intro i
    cases hs : H.slots[i]? with
    | none =>
      have hle := List.getElem?_eq_none_iff.1 hs
      have hlen₁ := congrArg List.length h1
      rw [List.length_map, List.length_map] at hlen₁
      rw [contents, List.getElem?_map, hs, List.getElem?_eq_none (by omega)]
      rfl
    | some s =>
      rw [getElem?_contents hs]
      cases hy : s.symbolized with
      | true => exact hsym hs hy .first
      | false =>
        rw [map_byteOf (hlen h1 hs), (hm.prepared.contents (List.mem_of_getElem? hs)).2 hy .first]
        rw [← (hfresh _ i s hs).1 rfl]
  · intro i s hs hout
    rw [getElem?_contents hs]
    cases hy : s.symbolized with
    | true => rw [hsame i s hs hout hy, hsym hs hy .second]
    | false =>
      rw [map_byteOf (hlen h2 hs), (hm.prepared.contents (List.mem_of_getElem? hs)).2 hy .second]
      rw [← (hfresh _ i s hs).2 hout rfl]

end

end Ephippion
