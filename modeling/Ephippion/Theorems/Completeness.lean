import Ephippion.Run.Entry
import Ephippion.Run.Inputs
import Ephippion.Run.Sizes
import Ephippion.Theorems.Alarms

/-!
# What a harness verifies

Over all worlds a harness decides a property of the function it calls: its runs all return 0 exactly
if no comparison leaves its buffer and no input shows a difference between the two orders of the
calls (`verifies_iff`). So a difference that is there is found: if the comparisons stay inside, some
run fails (`fails_iff`).
-/

namespace Ephippion

open ObjMem (Byte Mem bytesAt)
open Sequence Counted Machine

section
variable (dl : DataLayout) (n : IterationsNumTy) (params : List Param) (specs : List ArgSpec)
  (g : BitVec 64 → Contents → Contents)

/-- After a first sequence from `bs` to `r` the second one starts from `bs'`: from its own copies of
the outbound arguments, the same if they are symbolic, and from what is left of the others. -/
def StartsSecond (bs r bs' : Contents) : Prop :=
  ∀ (i : Nat) (spec : ArgSpec), i < params.length → specs[i]? = some spec →
    (isOutbound spec.direction = false → bs'[i]? = r[i]?) ∧
      (isOutbound spec.direction → isOnlyOutbound spec.direction = false → bs'[i]? = bs[i]?)

/-- The bytes that are compared are the same. -/
def SameCompared (r r' : Contents) : Prop :=
  ∀ (i : Nat) (p : Param) (spec : ArgSpec), params[i]? = some p → specs[i]? = some spec →
    isOutbound spec.direction →
      (r'[i]?).map (List.take (p.comparedSize dl n spec)) =
        (r[i]?).map (List.take (p.comparedSize dl n spec))

/-- No input shows a difference between the orders of the calls. -/
def NoDifference : Prop :=
  ∀ bs bs', Fits dl n params specs bs → Fits dl n params specs bs' →
    StartsSecond params specs bs
      (pureSequence g (params.map (·.type.isPointerTy)) (upTo 64 n.toNat) bs) bs' →
    SameCompared dl n params specs
      (pureSequence g (params.map (·.type.isPointerTy)) (upTo 64 n.toNat) bs)
      (pureSequence g (params.map (·.type.isPointerTy)) (upTo 64 n.toNat).reverse bs')

end

/-- If what it calls is `g`, all runs of function `h` of `M` return 0. -/
def AllReturn (M : Module) (F h : Nat) (g : BitVec 64 → Contents → Contents) : Prop :=
  ∀ W : World, (∀ t v bs, W.call t v bs = some (g v bs)) →
    ∃ c, Halts (step W M F h) (startAt 0) (.returned (.int 0) c)

/-- If what it calls is `g`, some run of function `h` of `M` fails. -/
def SomeFails (M : Module) (F h : Nat) (g : BitVec 64 → Contents → Contents) : Prop :=
  ∃ W : World, (∀ t v bs, W.call t v bs = some (g v bs)) ∧
    ∃ c, Halts (step W M F h) (startAt 0) (.failed c)

section
variable {h F : Nat} {f : Function} {n : IterationsNumTy} {specs : List ArgSpec} {H : Harness}
  {M' : Module} {W : World} {g : BitVec 64 → Contents → Contents} {c₀ c : Core} {bs : Contents}

theorem HarnessAt.slot_param (hat : HarnessAt h F f n specs H M') {i : Nat} {s : Slot}
    (hs : H.slots[i]? = some s) : f.params[i]? = some s.param ∧ specs[i]? = some s.spec := by
  refine ⟨?_, (hat.layout.at_pos i s hs).2.1⟩
  rw [← hat.layout.params_eq, List.getElem?_map, hs]
  rfl

/-- The checks pass exactly if what they compare is inside its buffers and the same. -/
theorem PureRun.verdict_iff (hat : HarnessAt h F f n specs H M')
    (hst : Stored H.dl H.n H.slots c.mem) (hr : PureRun H g c₀ bs c) :
    verdict H.dl H.n c.mem H.checked = some true ↔
      ComparesInside H.dl n f.params specs ∧ SameCompared H.dl n f.params specs
        (pureSequence g H.refs (H.iterators .first) (contents H.slots .first c₀.mem))
        (pureSequence g H.refs (H.iterators .second) bs) := by
  -- what one check compares
  have hone : ∀ {i : Nat} {s : Slot}, H.slots[i]? = some s → s.outbound →
      (s.comparedSize H.dl H.n).toNat ≤ s.size H.dl H.n →
      (ObjMem.cmp c.mem (s.obj .first) (s.obj .second) (s.comparedSize H.dl H.n).toNat = some true ↔
        ((pureSequence g H.refs (H.iterators .second) bs)[i]?).map
            (List.take (s.param.comparedSize H.dl H.n s.spec)) =
          ((pureSequence g H.refs (H.iterators .first)
            (contents H.slots .first c₀.mem))[i]?).map
            (List.take (s.param.comparedSize H.dl H.n s.spec))) := by
    intro i s hs hout hle
    have hmem := List.mem_of_getElem? hs
    obtain ⟨cs, h1, hlen⟩ := hst s hmem .first
    obtain ⟨cs', h2, hlen'⟩ := hst s hmem .second
    rw [ObjMem.cmp_of h1 h2 (by omega) (by omega), ← hr.second, ← hr.first i s hs hout,
      getElem?_contents hs, getElem?_contents hs, ← s.comparedSize_eq, Option.map_some,
      Option.map_some, Option.some.injEq, Option.some.injEq, decide_eq_true_eq, eq_comm]
  rw [verdict_eq_true, hat.layout.comparesInside, ← hat.n_eq]
  constructor
  · intro hall
    have hin : ∀ s ∈ H.slots, s.outbound → (s.comparedSize H.dl H.n).toNat ≤ s.size H.dl H.n := by
      intro s hs hout
      obtain ⟨cs, h1, hlen⟩ := hst s hs .first
      by_contra hlt
      have := hall s (List.mem_filter.2 ⟨hs, hout⟩)
      rw [ObjMem.cmp_eq_none h1 (by omega)] at this
      cases this
    refine ⟨hin, fun i p spec hp hspec hout => ?_⟩
    obtain ⟨s, hs, rfl, -, hss⟩ := hat.layout.slot_at hp
    rw [hspec, Option.some.injEq] at hss
    subst hss
    exact (hone hs hout (hin s (List.mem_of_getElem? hs) hout)).1
      (hall s (List.mem_filter.2 ⟨List.mem_of_getElem? hs, hout⟩))
  · rintro ⟨hin, hsame⟩ s hs
    obtain ⟨hs, hout⟩ := List.mem_filter.1 hs
    obtain ⟨i, hi⟩ := List.getElem?_of_mem hs
    obtain ⟨hp, hspec⟩ := hat.slot_param hi
    exact (hone hi hout (hin s hs hout)).2 (hsame i s.param s.spec hp hspec hout)

/-- From the calls on a run returns 0 if the checks pass; if they are inside their buffers it fails
otherwise. -/
theorem HarnessAt.ends_as (hat : HarnessAt h F f n specs H M') (hlink : H.Linked F)
    {prev : Nat} {env : InstRef → Option RVal}
    (hsteps : Steps (step W M' F h) (startAt H.base) ⟨prev, H.id .seStart, env, c⟩)
    (hp : Pointers H.base H.slots env) (hst : Stored H.dl H.n H.slots c.mem) :
    ((∃ c', Halts (step W M' F h) (startAt H.base) (.returned (.int 0) c')) ↔
        verdict H.dl H.n c.mem H.checked = some true) ∧
      ((∃ c', Halts (step W M' F h) (startAt H.base) (.failed c')) ↔
        verdict H.dl H.n c.mem H.checked = some false) := by
  obtain ⟨o, ho, -, hend⟩ := hat.checks_end (W := W) hlink prev hp hst
  have hall : Halts (step W M' F h) (startAt H.base) o := hsteps.halts ho
  have hiff : ∀ k : Core → Outcome, (∃ c', Halts (step W M' F h) (startAt H.base) (k c')) ↔
      ∃ c', o = k c' := fun k =>
    ⟨fun ⟨c', hx⟩ => ⟨c', hall.unique hx⟩, fun ⟨c', he⟩ => ⟨c', he ▸ hall⟩⟩
  rw [hiff, hiff]
  cases hv : verdict H.dl H.n c.mem H.checked with
  | none =>
    rw [hv] at hend
    obtain ⟨c', rfl⟩ := hend
    simp
  | some eq =>
    rw [hv] at hend
    cases eq with
    | false =>
      obtain ⟨c', rfl⟩ := hend
      simp
    | true =>
      obtain ⟨-, -, -, -, c', -, -, -, -, rfl⟩ := hend
      simp

theorem PureRun.startsSecond (hat : HarnessAt h F f n specs H M')
    (hp : Prepared W H.dl H.n H.slots c₀.mem) (hr : PureRun H g c₀ bs c) :
    StartsSecond f.params specs (contents H.slots .first c₀.mem)
      (pureSequence g H.refs (H.iterators .first) (contents H.slots .first c₀.mem)) bs := by
  intro i spec hlt hspec
  obtain ⟨s, hs, -, -, hss⟩ := hat.layout.slot_at (List.getElem?_eq_getElem hlt)
  rw [hspec, Option.some.injEq] at hss
  subst hss
  refine ⟨fun hout => hr.shared i s hs hout, fun hout hin => ?_⟩
  have hsym : s.symbolized = true := by
    rw [Slot.symbolized, hin]
    rfl
  rw [hr.own i s hs hout, getElem?_contents hs, getElem?_contents hs,
    (hp.contents (List.mem_of_getElem? hs)).1 hsym]

/-- For every input there is a run that starts from it. -/
theorem HarnessAt.input_run (hat : HarnessAt h F f n specs H M') (hlink : H.Linked F)
    (hi : TakesIterator f) (hg : ∀ v bs, (g v bs).map List.length = bs.map List.length)
    {bs bs' : Contents} (h1 : Fits H.dl n f.params specs bs) (h2 : Fits H.dl n f.params specs bs')
    (hstart : StartsSecond f.params specs bs (pureSequence g H.refs (H.iterators .first) bs) bs') :
    ∃ (W : World) (c₀ : Core) (prev : Nat) (env : InstRef → Option RVal) (c : Core),
      (∀ t v bs, W.call t v bs = some (g v bs)) ∧
      Steps (step W M' F h) (startAt H.base) ⟨prev, H.id .seStart, env, c⟩ ∧
      Pointers H.base H.slots env ∧ Stored H.dl H.n H.slots c.mem ∧
      contents H.slots .first c₀.mem = bs ∧ PureRun H g c₀ bs' c := by
  have hfits : ∀ {bs : Contents}, Fits H.dl n f.params specs bs →
      bs.map List.length = H.slots.map (Slot.size H.dl H.n) := by
    intro bs hbs
    rw [Fits, hat.layout.zip_eq, List.map_map, ← hat.n_eq] at hbs
    exact hbs
  obtain ⟨W, hW, hin⟩ := hat.exists_world hg (hfits h1) (hfits h2) fun i s hs hout hy => by
    obtain ⟨hp, hspec⟩ := hat.slot_param hs
    apply (hstart i s.spec (List.getElem?_eq_some_iff.1 hp).1 hspec).2 hout
    rw [Slot.symbolized] at hy
    simpa using hy
  obtain ⟨env₀, c₀, h0, hset, hinp⟩ := hat.inputs_run hlink W
  obtain ⟨hfirst, hsecond⟩ := hin c₀.mem hinp
  obtain ⟨bs'', prev, env, c, hsteps, hp, hst, hr⟩ :=
    hat.sequences_pure hi hW h0 hset.pointers hset.prepared.stored
  -- the second sequence starts from `bs'`
  have hbs : bs'' = bs' := by
    apply List.ext_getElem?
    intro i
    cases hs : H.slots[i]? with
    | none =>
      have hle := List.getElem?_eq_none_iff.1 hs
      have hlen := congrArg List.length (hfits h2)
      rw [List.length_map, List.length_map] at hlen
      rw [List.getElem?_eq_none (by rw [hr.length]; exact hle), List.getElem?_eq_none (by omega)]
    | some s =>
      obtain ⟨hp, hspec⟩ := hat.slot_param hs
      cases hout : s.outbound with
      | true => rw [hr.own i s hs hout, hsecond i s hs hout]
      | false =>
        rw [hr.shared i s hs hout, hfirst]
        exact ((hstart i s.spec (List.getElem?_eq_some_iff.1 hp).1 hspec).1 hout).symm
  exact ⟨W, c₀, prev, env, c, hW, hsteps, hp, hst, hfirst, hbs ▸ hr⟩

theorem HarnessAt.verifies (hat : HarnessAt h F f n specs H M') (hlink : H.Linked F)
    (hi : TakesIterator f) (hg : ∀ v bs, (g v bs).map List.length = bs.map List.length) :
    (∀ W : World, (∀ t v bs, W.call t v bs = some (g v bs)) →
        ∃ c, Halts (step W M' F h) (startAt H.base) (.returned (.int 0) c)) ↔
      ComparesInside H.dl n f.params specs ∧ NoDifference H.dl n f.params specs g := by
  have hfirst : H.iterators .first = upTo 64 n.toNat := by rw [Harness.iterators, hat.n_eq]
  have hsecond : H.iterators .second = (upTo 64 n.toNat).reverse := by
    rw [Harness.iterators, hat.n_eq]
  constructor
  · intro hall
    refine ⟨?_, fun bs bs' h1 h2 hstart => ?_⟩
    · -- some world has this function
      have hz : ((H.slots.map (Slot.size H.dl H.n)).map (List.replicate · (0 : Byte))).map
          List.length = H.slots.map (Slot.size H.dl H.n) := by simp [Function.comp_def]
      obtain ⟨W, hW, -⟩ := hat.exists_world hg hz hz fun _ _ _ _ _ => rfl
      obtain ⟨c₀, bs, prev, env, c, -, hsteps, hp, hst, hr⟩ :=
        hat.calls_pure (W := W) (g := g) hlink hi hW
      have hret := hall W hW
      rw [(hat.ends_as hlink hsteps hp hst).1, hr.verdict_iff hat hst] at hret
      exact hret.1
    · rw [← hat.refs_eq, ← hfirst] at hstart
      rw [← hat.refs_eq, ← hsecond, ← hfirst]
      obtain ⟨W, c₀, prev, env, c, hW, hsteps, hp, hst, hc₀, hr⟩ :=
        hat.input_run hlink hi hg h1 h2 hstart
      have hret := hall W hW
      rw [(hat.ends_as hlink hsteps hp hst).1, hr.verdict_iff hat hst, hc₀] at hret
      exact hret.2
  · rintro ⟨hin, hno⟩ W hW
    obtain ⟨c₀, bs', prev, env, c, hprep, hsteps, hp, hst, hr⟩ :=
      hat.calls_pure (W := W) (g := g) hlink hi hW
    rw [(hat.ends_as hlink hsteps hp hst).1, hr.verdict_iff hat hst]
    refine ⟨hin, ?_⟩
    have hstart := hr.startsSecond hat hprep
    rw [hat.refs_eq, hfirst] at hstart
    have hsame := hno _ _ (hat.fits (hprep.stored.lengths_contents .first)) (hat.fits hr.lengths)
      hstart
    rw [hat.refs_eq, hfirst, hsecond]
    exact hsame

/-- A run whose comparisons stay inside their buffers fails if it does not return 0. -/
theorem HarnessAt.failed_iff (hat : HarnessAt h F f n specs H M') (hlink : H.Linked F)
    (hi : TakesIterator f) (hin : ComparesInside H.dl n f.params specs)
    (hW : ∀ t v bs, W.call t v bs = some (g v bs)) :
    (∃ c, Halts (step W M' F h) (startAt H.base) (.failed c)) ↔
      ¬ ∃ c, Halts (step W M' F h) (startAt H.base) (.returned (.int 0) c) := by
  obtain ⟨c₀, bs', prev, env, c, -, hsteps, hp, hst, -⟩ :=
    hat.calls_pure (W := W) (g := g) hlink hi hW
  obtain ⟨hret, hfail⟩ := hat.ends_as hlink hsteps hp hst
  have hne : verdict H.dl H.n c.mem H.checked ≠ none := by
    apply verdict_ne_none
    intro s hs
    obtain ⟨hs, hout⟩ := List.mem_filter.1 hs
    obtain ⟨cs, h1, hlen⟩ := hst s hs .first
    obtain ⟨cs', h2, hlen'⟩ := hst s hs .second
    have hle := hat.layout.comparesInside.1 hin s hs hout
    rw [← hat.n_eq] at hle
    rw [ObjMem.cmp_of h1 h2 (by omega) (by omega)]
    exact Option.some_ne_none _
  rw [hret, hfail]
  cases hv : verdict H.dl H.n c.mem H.checked with
  | none => exact (hne hv).elim
  | some eq => cases eq <;> simp

theorem HarnessAt.fails (hat : HarnessAt h F f n specs H M') (hlink : H.Linked F)
    (hi : TakesIterator f) (hg : ∀ v bs, (g v bs).map List.length = bs.map List.length)
    (hin : ComparesInside H.dl n f.params specs) :
    (∃ W : World, (∀ t v bs, W.call t v bs = some (g v bs)) ∧
        ∃ c, Halts (step W M' F h) (startAt H.base) (.failed c)) ↔
      ¬ NoDifference H.dl n f.params specs g := by
  have hiff := (hat.verifies hlink hi hg).trans (and_iff_right hin)
  rw [← hiff]
  push Not
  apply exists_congr
  intro W
  apply and_congr_right
  intro hW
  rw [hat.failed_iff hlink hi hin hW]
  push Not
  rfl

end

section
variable {senc : SymbolicEncapsulation} {M M' : Module} {F : Nat} {f : Function}
  {n : IterationsNumTy} {specs : List ArgSpec} {h : Nat} {H : Harness}
  {g : BitVec 64 → Contents → Contents}

theorem HarnessBuilt.verifies (hb : HarnessBuilt senc M F f n specs M' h H)
    (hf : M.functions[F]? = some f) (hi : TakesIterator f) (hbl : HarnessBodiless senc M f)
    (hg : ∀ v bs, (g v bs).map List.length = bs.map List.length) :
    AllReturn M' F h g ↔
      ComparesInside M.dataLayout n f.params (padSpecs specs f.params.length) ∧
        NoDifference M.dataLayout n f.params (padSpecs specs f.params.length) g := by
  have hiff := hb.here.verifies (hb.linked hf hi) hi hg
  rwa [hb.bodiless_iff.1 hbl, hb.here.dl_eq.trans hb.dataLayout] at hiff

theorem HarnessBuilt.fails (hb : HarnessBuilt senc M F f n specs M' h H)
    (hf : M.functions[F]? = some f) (hi : TakesIterator f) (hbl : HarnessBodiless senc M f)
    (hg : ∀ v bs, (g v bs).map List.length = bs.map List.length)
    (hin : ComparesInside M.dataLayout n f.params (padSpecs specs f.params.length)) :
    SomeFails M' F h g ↔
      ¬ NoDifference M.dataLayout n f.params (padSpecs specs f.params.length) g := by
  have hdl : H.dl = M.dataLayout := hb.here.dl_eq.trans hb.dataLayout
  have hiff := hb.here.fails (hb.linked hf hi) hi hg (hdl ▸ hin)
  rwa [hb.bodiless_iff.1 hbl, hdl] at hiff

/-- All runs return 0 exactly if no comparison leaves its buffer and no input shows a difference. -/
theorem verifies_iff (hf : M.functions[F]? = some f) (hdef : f.isDeclaration = false)
    (hi : TakesIterator f) (hbl : HarnessBodiless senc M f)
    (hok : senc.encapsulate M F n specs = .ok (M', true)) :
    ∃ h H, HarnessBuilt senc M F f n specs M' h H ∧ ∀ g : BitVec 64 → Contents → Contents,
      (∀ v bs, (g v bs).map List.length = bs.map List.length) →
      ((∀ W : World, (∀ t v bs, W.call t v bs = some (g v bs)) →
          ∃ c, Halts (step W M' F h) (startAt 0) (.returned (.int 0) c)) ↔
        ComparesInside M.dataLayout n f.params (padSpecs specs f.params.length) ∧
          NoDifference M.dataLayout n f.params (padSpecs specs f.params.length) g) := by
  obtain ⟨-, -, h, H, hb⟩ := encapsulate_of_ok hf hdef hok
  exact ⟨h, H, hb, fun g hg => hb.verifies hf hi hbl hg⟩

/-- If the comparisons stay inside their buffers, some run fails exactly if some input shows a
difference. -/
theorem fails_iff (hf : M.functions[F]? = some f) (hdef : f.isDeclaration = false)
    (hi : TakesIterator f) (hbl : HarnessBodiless senc M f)
    (hin : ComparesInside M.dataLayout n f.params (padSpecs specs f.params.length))
    (hok : senc.encapsulate M F n specs = .ok (M', true)) :
    ∃ h H, HarnessBuilt senc M F f n specs M' h H ∧ ∀ g : BitVec 64 → Contents → Contents,
      (∀ v bs, (g v bs).map List.length = bs.map List.length) →
      ((∃ W : World, (∀ t v bs, W.call t v bs = some (g v bs)) ∧
          ∃ c, Halts (step W M' F h) (startAt 0) (.failed c)) ↔
        ¬ NoDifference M.dataLayout n f.params (padSpecs specs f.params.length) g) := by
  obtain ⟨-, -, h, H, hb⟩ := encapsulate_of_ok hf hdef hok
  exact ⟨h, H, hb, fun g hg => hb.fails hf hi hbl hg hin⟩

theorem verifies_iff_buffer : ∃ (M' : Module) (h : Nat) (H : Harness),
    HarnessBuilt {} (bufferModule .int32Ty) 0 (bufferFunction .int32Ty) 2
      [⟨"i", .inbound, false⟩, ⟨"p", .both, true⟩] M' h H ∧
    ((∀ W : World, (∀ t v bs, W.call t v bs = some bs) →
        ∃ c, Halts (step W M' 0 h) (startAt 0) (.returned (.int 0) c)) ↔
      ComparesInside .lp64 2 (bufferFunction .int32Ty).params
          [⟨"i", .inbound, false⟩, ⟨"p", .both, true⟩] ∧
        NoDifference .lp64 2 (bufferFunction .int32Ty).params
          [⟨"i", .inbound, false⟩, ⟨"p", .both, true⟩] fun _ bs => bs) := by
  have hf : (bufferModule .int32Ty).functions[0]? = some (bufferFunction .int32Ty) := rfl
  obtain ⟨M', hok⟩ := encapsulate_buffer (.inr rfl) [⟨"i", .inbound, false⟩, ⟨"p", .both, true⟩]
  obtain ⟨h, H, hb, hiff⟩ := verifies_iff hf rfl (by decide) (.of_free (by decide)) hok
  exact ⟨M', h, H, hb, hiff (fun _ bs => bs) fun _ _ => rfl⟩

theorem fails_iff_buffer : ∃ (M' : Module) (h : Nat) (H : Harness),
    HarnessBuilt {} (bufferModule .int8Ty) 0 (bufferFunction .int8Ty) 2
      [⟨"i", .inbound, false⟩, ⟨"p", .outbound, false⟩] M' h H ∧
    ((∃ W : World, (∀ t v bs, W.call t v bs = some bs) ∧
        ∃ c, Halts (step W M' 0 h) (startAt 0) (.failed c)) ↔
      ¬ NoDifference .lp64 2 (bufferFunction .int8Ty).params
        [⟨"i", .inbound, false⟩, ⟨"p", .outbound, false⟩] fun _ bs => bs) := by
  have hf : (bufferModule .int8Ty).functions[0]? = some (bufferFunction .int8Ty) := rfl
  obtain ⟨M', hok⟩ :=
    encapsulate_buffer (.inl rfl) [⟨"i", .inbound, false⟩, ⟨"p", .outbound, false⟩]
  obtain ⟨h, H, hb, hiff⟩ :=
    fails_iff hf rfl (by decide) (.of_free (by decide)) (by decide) hok
  exact ⟨M', h, H, hb, hiff (fun _ bs => bs) fun _ _ => rfl⟩

end

end Ephippion
