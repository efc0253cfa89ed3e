import Ephippion.Theorems.Sharing

/-!
# Any order of the iterations

What a harness tells about the iterations of the loop that its function is the body of. Of a
function that does what it is declared to do the harness compares the iterations in their order with
those in reverse order (`verifies_iff_reversible`). If any two of its calls commute, the harness
verifies it and the iterations may be run in any order (`commuting_verifies`). But that it is
verified is enough for any order with up to two iterations only (`anyOrder_iff`).
-/

namespace Ephippion

open ObjMem (Byte)
open Sequence Counted Machine

section
variable (dl : DataLayout) (n : IterationsNumTy) (params : List Param) (specs : List ArgSpec)
  (g : BitVec 64 → Contents → Contents)

def iterations (vs : List (BitVec 64)) (bs : Contents) : Contents :=
  pureSequence g (params.map (·.type.isPointerTy)) vs bs

/-- `g` changes outbound arguments only, and does not depend on what those that are outbound only
hold at first. -/
structure AsDeclared : Prop where
  lengths : ∀ v bs, (g v bs).map List.length = bs.map List.length
  changes : ∀ (i : Nat) (p : Param) (spec : ArgSpec), params[i]? = some p →
    specs[i]? = some spec → isOutbound spec.direction = false → Untouched g i p
  ignores : ∀ bs bs', Fits dl n params specs bs → Fits dl n params specs bs' →
    AgreeOnInputs params specs bs bs' → SameCompared dl n params specs
      (iterations params g (upTo 64 n.toNat) bs) (iterations params g (upTo 64 n.toNat) bs')

/-- The iterations in reverse order give the same. -/
def Reversible : Prop :=
  ∀ bs, Fits dl n params specs bs → SameCompared dl n params specs
    (iterations params g (upTo 64 n.toNat) bs) (iterations params g (upTo 64 n.toNat).reverse bs)

def AnyOrder : Prop :=
  ∀ vs, (upTo 64 n.toNat).Perm vs → ∀ bs, Fits dl n params specs bs →
    SameCompared dl n params specs (iterations params g (upTo 64 n.toNat) bs)
      (iterations params g vs bs)

def Commuting : Prop :=
  ∀ v ∈ upTo 64 n.toNat, ∀ w ∈ upTo 64 n.toNat, ∀ bs, Fits dl n params specs bs →
    iterations params g [v, w] bs = iterations params g [w, v] bs

end

section
variable {dl : DataLayout} {n : IterationsNumTy} {g : BitVec 64 → Contents → Contents}
  {params : List Param} {specs : List ArgSpec} {bs bs' r r' r'' : Contents}

/-! ## Orders -/

theorem SameCompared.refl (r : Contents) : SameCompared dl n params specs r r :=
  fun _ _ _ _ _ _ => rfl

theorem SameCompared.trans (h : SameCompared dl n params specs r r')
    (h' : SameCompared dl n params specs r' r'') : SameCompared dl n params specs r r'' :=
  fun i p spec hp hs hout => (h' i p spec hp hs hout).trans (h i p spec hp hs hout)

theorem AnyOrder.reversible (h : AnyOrder dl n params specs g) : Reversible dl n params specs g :=
  fun bs hbs => h _ (List.reverse_perm _).symm bs hbs

theorem Commuting.anyOrder (hg : ∀ v bs, (g v bs).map List.length = bs.map List.length)
    (h : Commuting dl n params specs g) : AnyOrder dl n params specs g := by
  intro vs hperm bs hbs
  have hsame : iterations params g (upTo 64 n.toNat) bs = iterations params g vs bs :=
    foldl_perm_on (P := Fits dl n params specs)
      (fun z hz v => (pureOnce_lengths hg z v).trans hz) hperm h hbs
  rw [hsame]
  exact .refl _

/-! ## Functions that do what they are declared to do -/

theorem AsDeclared.keeps (hg : AsDeclared dl n params specs g) {i : Nat} {spec : ArgSpec}
    (hi : i < params.length) (hspec : specs[i]? = some spec)
    (hout : isOutbound spec.direction = false) (vs : List (BitVec 64)) (bs : Contents) :
    (iterations params g vs bs)[i]? = bs[i]? := by
  have hp := List.getElem?_eq_getElem hi
  exact (hg.changes i _ spec hp hspec hout).keeps hp hg.lengths vs bs

theorem AsDeclared.startsSecond_self (hg : AsDeclared dl n params specs g) (bs : Contents) :
    StartsSecond params specs bs (iterations params g (upTo 64 n.toNat) bs) bs :=
  fun _ _ hi hspec => ⟨fun hout => (hg.keeps hi hspec hout _ bs).symm, fun _ _ => rfl⟩

theorem AsDeclared.agreeOnInputs (hg : AsDeclared dl n params specs g)
    (h : StartsSecond params specs bs (iterations params g (upTo 64 n.toNat) bs) bs') :
    AgreeOnInputs params specs bs bs' := by
  intro i spec hi hspec honly
  obtain ⟨hshared, hown⟩ := h i spec hi hspec
  cases hout : isOutbound spec.direction with
  | false => exact (hshared hout).trans (hg.keeps hi hspec hout _ bs)
  | true => exact hown hout honly

/-- Of a function that does what it is declared to do, only the orders are compared. -/
theorem AsDeclared.noDifference_iff (hg : AsDeclared dl n params specs g) :
    NoDifference dl n params specs g ↔ Reversible dl n params specs g := by
  constructor
  · intro h bs hbs
    exact h bs bs hbs hbs (hg.startsSecond_self bs)
  · intro h bs bs' hbs hbs' hstart
    exact (hg.ignores bs bs' hbs hbs' (hg.agreeOnInputs hstart)).trans (h bs' hbs')

end

/-! ## Calls of which the last one counts -/

/-- Iteration 1 is told from the others. -/
def marker (v : BitVec 64) : Byte := if v = 1 then 0 else 1

/-- Each call overwrites what is outbound. -/
def markCall (specs : List ArgSpec) (v : BitVec 64) (bs : Contents) : Contents :=
  bs.mapIdx fun k b =>
    if (specs[k + 1]?).any (isOutbound ·.direction) then List.replicate b.length (marker v) else b

section
variable {dl : DataLayout} {n : IterationsNumTy} {params : List Param} {specs : List ArgSpec}
  {bs bs' : Contents} {v w : BitVec 64}

theorem marker_last {k : Nat} (hk : n.toNat = k + 1) (h2 : 2 ≤ k) :
    marker (BitVec.ofNat 64 k) = 1 := by
  apply if_neg
  intro h
  have hlt := n.isLt
  have hk' := congrArg BitVec.toNat h
  rw [BitVec.toNat_ofNat, Nat.mod_eq_of_lt (by omega)] at hk'
  have h1 : BitVec.toNat (1 : BitVec 64) = 1 := rfl
  omega

theorem markCall_lengths (specs : List ArgSpec) (v : BitVec 64) (bs : Contents) :
    (markCall specs v bs).map List.length = bs.map List.length := by
  apply List.ext_getElem?
  intro i
  rw [List.getElem?_map, List.getElem?_map, markCall, List.getElem?_mapIdx, Option.map_map]
  congr 1
  funext b
  rw [Function.comp_apply]
  split
  · exact List.length_replicate
  · rfl

theorem markCall_last {i : Nat} {p : Param} {spec : ArgSpec} (hp : params[i + 1]? = some p)
    (hptr : p.type.isPointerTy = true) (hspec : specs[i + 1]? = some spec)
    (hout : isOutbound spec.direction = true) (vs : List (BitVec 64)) :
    (iterations params (markCall specs) (vs ++ [v]) bs)[i + 1]? =
      (bs[i + 1]?.map List.length).map (List.replicate · (marker v)) := by
  have href : (params.map (·.type.isPointerTy))[i + 1]? = some true := by
    rw [List.getElem?_map, hp, Option.map_some, hptr]
  rw [iterations, pureSequence_concat, pureOnce_getElem? (markCall_lengths specs) _ _ href,
    ← List.getElem?_map, ← pureSequence_lengths (markCall_lengths specs) vs bs, markCall,
    List.getElem?_mapIdx, List.getElem?_tail, List.getElem?_map, Option.map_map, hspec]
  congr 1
  funext b
  rw [Option.any_some, if_pos hout]
  rfl

theorem iterator_value (hiter : params.head?.map (·.type) = some .int64Ty) {p : Param}
    (hp : params[0]? = some p) : p.type.isPointerTy = false := by
  rw [List.head?_eq_getElem?, hp, Option.map_some, Option.some.injEq] at hiter
  rw [hiter]
  rfl

variable (hiter : params.head?.map (·.type) = some .int64Ty)
  (hval : ∀ a ∈ params.zip specs, a.1.type.isPointerTy = false →
    isOnlyOutbound a.2.direction = false)

include hiter hval

theorem markCall_same (hbs : Fits dl n params specs bs) (hbs' : Fits dl n params specs bs')
    (hagree : AgreeOnInputs params specs bs bs') (hmark : marker v = marker w)
    (vs ws : List (BitVec 64)) : SameCompared dl n params specs
      (iterations params (markCall specs) (vs ++ [v]) bs)
      (iterations params (markCall specs) (ws ++ [w]) bs') := by
  intro i p spec hp hspec hout
  congr 1
  cases hptr : p.type.isPointerTy with
  | false =>
    have ht : Untouched (markCall specs) i p := .inr (.inr hptr)
    have hlen := markCall_lengths specs
    rw [iterations, iterations, ht.keeps hp hlen, ht.keeps hp hlen]
    have ha : (p, spec) ∈ params.zip specs :=
      List.mem_of_getElem? (List.getElem?_zip_eq_some.2 ⟨hp, hspec⟩)
    exact hagree i spec (List.getElem?_eq_some_iff.1 hp).1 hspec (hval (p, spec) ha hptr)
  | true =>
    cases i with
    | zero => rw [iterator_value hiter hp] at hptr; cases hptr
    | succ i =>
      have hlen : bs'.map List.length = bs.map List.length := hbs'.trans hbs.symm
      rw [markCall_last hp hptr hspec hout, markCall_last hp hptr hspec hout, hmark]
      congr 1
      rw [← List.getElem?_map, ← List.getElem?_map, hlen]

theorem markCall_asDeclared (hn : 0 < n.toNat) :
    AsDeclared dl n params specs (markCall specs) where
  lengths := markCall_lengths specs
  changes i p spec hp hspec hout := by
    cases i with
    | zero => exact .inl rfl
    | succ i =>
      refine .inr (.inl fun v bs => ?_)
      rw [Nat.add_sub_cancel, markCall, List.getElem?_mapIdx, hspec, Option.any_some, hout]
      exact Option.map_id' ..
  ignores bs bs' hbs hbs' hagree := by
    obtain ⟨k, hk⟩ : ∃ k, n.toNat = k + 1 := ⟨n.toNat - 1, by omega⟩
    rw [hk, upTo_succ]
    exact markCall_same hiter hval hbs hbs' hagree rfl _ _

theorem markCall_reversible (hn : 3 ≤ n.toNat) : Reversible dl n params specs (markCall specs) := by
  intro bs hbs
  obtain ⟨k, hk⟩ : ∃ k, n.toNat = k + 1 := ⟨n.toNat - 1, by omega⟩
  obtain ⟨ws, hws⟩ := reverse_upTo_succ 64 k
  rw [hk, hws, upTo_succ]
  exact markCall_same hiter hval hbs hbs (fun _ _ _ _ _ => rfl)
    ((marker_last (n := n) hk (by omega)).trans rfl) _ _

omit hiter hval

theorem markCall_not_anyOrder (hiter : params.head?.map (·.type) = some .int64Ty)
    (hcmp : ∃ a ∈ params.zip specs, a.1.type.isPointerTy = true ∧
      isOutbound a.2.direction = true ∧ 0 < a.1.comparedSize dl n a.2)
    (hin : ComparesInside dl n params specs) (hn : 3 ≤ n.toNat) :
    ¬ AnyOrder dl n params specs (markCall specs) := by
  intro h
  obtain ⟨k, hk⟩ : ∃ k, n.toNat = k + 1 := ⟨n.toNat - 1, by omega⟩
  obtain ⟨⟨p, spec⟩, ha, hptr, hout, (hpos : 0 < p.comparedSize dl n spec)⟩ := hcmp
  have hle : p.comparedSize dl n spec ≤ p.bufferSize dl n spec := hin _ ha hout
  obtain ⟨i, hzip⟩ := List.getElem?_of_mem ha
  obtain ⟨hp, hspec⟩ := List.getElem?_zip_eq_some.1 hzip
  rcases i with - | i
  · rw [iterator_value hiter hp] at hptr
    cases hptr
  have hone : (1 : BitVec 64) ∈ upTo 64 n.toNat :=
    List.mem_map.2 ⟨1, List.mem_range.2 (by omega), rfl⟩
  have hperm : (upTo 64 n.toNat).Perm ((upTo 64 n.toNat).erase 1 ++ [1]) :=
    (List.perm_cons_erase hone).trans (List.perm_append_singleton ..).symm
  have hsame := h _ hperm
    ((params.zip specs).map fun a => List.replicate (a.1.bufferSize dl n a.2) 0)
    (by simp [Fits, Function.comp_def]) (i + 1) p spec hp hspec hout
  rw [hk, upTo_succ, markCall_last hp hptr hspec hout, markCall_last hp hptr hspec hout,
    List.getElem?_map, hzip, marker_last hk (by omega)] at hsame
  simp only [Option.map_some, List.length_replicate, List.take_replicate, Option.some.injEq,
    List.replicate_inj] at hsame
  obtain ⟨-, hzero | hbyte⟩ := hsame
  · omega
  · exact absurd hbyte (by decide)

end

/-! ## What is verified -/

section
variable {senc : SymbolicEncapsulation} {M M' : Module} {F : Nat} {f : Function}
  {n : IterationsNumTy} {specs : List ArgSpec}

/-- All runs of the harness of a function that does what it is declared to do return 0 exactly if no
comparison leaves its buffer and the iterations give the same in reverse order. -/
theorem verifies_iff_reversible (hf : M.functions[F]? = some f) (hdef : f.isDeclaration = false)
    (hi : TakesIterator f) (hbl : HarnessBodiless senc M f)
    (hok : senc.encapsulate M F n specs = .ok (M', true)) :
    ∃ h H, HarnessBuilt senc M F f n specs M' h H ∧ ∀ g : BitVec 64 → Contents → Contents,
      AsDeclared M.dataLayout n f.params (padSpecs specs f.params.length) g →
      (AllReturn M' F h g ↔
        ComparesInside M.dataLayout n f.params (padSpecs specs f.params.length) ∧
          Reversible M.dataLayout n f.params (padSpecs specs f.params.length) g) := by
  obtain ⟨-, -, h, H, hb⟩ := encapsulate_of_ok hf hdef hok
  refine ⟨h, H, hb, fun g hg => ?_⟩
  rw [hb.verifies hf hi hbl hg.lengths, hg.noDifference_iff]

/-- If any two iterations commute they may be run in any order, and all runs of the harness return 0
if no comparison leaves its buffer. -/
theorem commuting_verifies (hf : M.functions[F]? = some f) (hdef : f.isDeclaration = false)
    (hi : TakesIterator f) (hbl : HarnessBodiless senc M f)
    (hok : senc.encapsulate M F n specs = .ok (M', true)) :
    ∃ h H, HarnessBuilt senc M F f n specs M' h H ∧ ∀ g : BitVec 64 → Contents → Contents,
      AsDeclared M.dataLayout n f.params (padSpecs specs f.params.length) g →
      Commuting M.dataLayout n f.params (padSpecs specs f.params.length) g →
      AnyOrder M.dataLayout n f.params (padSpecs specs f.params.length) g ∧
        (AllReturn M' F h g ↔
          ComparesInside M.dataLayout n f.params (padSpecs specs f.params.length)) := by
  obtain ⟨-, -, h, H, hb⟩ := encapsulate_of_ok hf hdef hok
  refine ⟨h, H, hb, fun g hg hcomm => ?_⟩
  have hany := hcomm.anyOrder hg.lengths
  refine ⟨hany, ?_⟩
  rw [hb.verifies hf hi hbl hg.lengths, hg.noDifference_iff]
  exact and_iff_left hany.reversible

/-- With two iterations there is one other order. -/
theorem Reversible.anyOrder_two {dl : DataLayout} {params : List Param}
    {g : BitVec 64 → Contents → Contents} (h : Reversible dl 2 params specs g) :
    AnyOrder dl 2 params specs g := by
  intro vs hperm bs hbs
  have htwo : upTo 64 (BitVec.toNat (2 : IterationsNumTy)) = [0, 1] := rfl
  have horder : vs = [0, 1] ∨ vs = [1, 0] := by
    rw [htwo] at hperm
    obtain ⟨v, w, rfl⟩ := List.length_eq_two.1 hperm.length_eq.symm
    rcases List.mem_pair.1 (hperm.symm.subset (List.mem_cons_self ..)) with rfl | rfl
    · obtain rfl : w = 1 :=
        (List.cons.inj (List.perm_singleton.1 ((List.perm_cons _).1 hperm).symm)).1
      exact .inl rfl
    · obtain rfl : w = 0 := (List.cons.inj (List.perm_singleton.1
        ((List.perm_cons _).1 ((List.Perm.swap ..).trans hperm)).symm)).1
      exact .inr rfl
  rcases horder with rfl | rfl
  · exact .refl _
  · exact h bs hbs

/-- That a function that does what it is declared to do is verified means that its iterations may be
run in any order exactly for two iterations. -/
theorem anyOrder_iff (hf : M.functions[F]? = some f) (hdef : f.isDeclaration = false)
    (hi : TakesIterator f) (hbl : HarnessBodiless senc M f)
    (hin : ComparesInside M.dataLayout n f.params (padSpecs specs f.params.length))
    (hval : ∀ a ∈ f.params.zip (padSpecs specs f.params.length),
      a.1.type.isPointerTy = false → isOnlyOutbound a.2.direction = false)
    (hcmp : ∃ a ∈ f.params.zip (padSpecs specs f.params.length), a.1.type.isPointerTy = true ∧
      isOutbound a.2.direction = true ∧ 0 < a.1.comparedSize M.dataLayout n a.2)
    (hok : senc.encapsulate M F n specs = .ok (M', true)) :
    ∃ h H, HarnessBuilt senc M F f n specs M' h H ∧
      ((∀ g : BitVec 64 → Contents → Contents,
        AsDeclared M.dataLayout n f.params (padSpecs specs f.params.length) g →
        AllReturn M' F h g →
          AnyOrder M.dataLayout n f.params (padSpecs specs f.params.length) g) ↔ n = 2) := by
  obtain ⟨-, -, h, H, hb⟩ := encapsulate_of_ok hf hdef hok
  have htwo : 2 ≤ n.toNat := hb.here.two_le
  refine ⟨h, H, hb, fun hall => ?_, ?_⟩
  · by_contra hne
    have hn : 3 ≤ n.toNat := by
      have : n.toNat ≠ 2 := fun h2 => hne (BitVec.eq_of_toNat_eq h2)
      omega
    have hg : AsDeclared M.dataLayout n f.params (padSpecs specs f.params.length)
      (markCall (padSpecs specs f.params.length)) := markCall_asDeclared hi hval (by omega)
    refine markCall_not_anyOrder hi hcmp hin hn (hall _ hg ?_)
    rw [hb.verifies hf hi hbl hg.lengths, hg.noDifference_iff]
    exact ⟨hin, markCall_reversible hi hval hn⟩
  · rintro rfl g hg hver
    rw [hb.verifies hf hi hbl hg.lengths, hg.noDifference_iff] at hver
    exact hver.2.anyOrder_two

/-! ## One buffer -/

/-- Of two iterations that overwrite a buffer the last one counts. -/
theorem verifies_iff_reversible_buffer : ∃ (M' : Module) (h : Nat) (H : Harness),
    HarnessBuilt {} (bufferModule .int8Ty) 0 (bufferFunction .int8Ty) 2
      [⟨"i", .inbound, false⟩, ⟨"p", .outbound, true⟩] M' h H ∧
    (AllReturn M' 0 h (markCall [⟨"i", .inbound, false⟩, ⟨"p", .outbound, true⟩]) ↔
      ComparesInside .lp64 2 (bufferFunction .int8Ty).params
          [⟨"i", .inbound, false⟩, ⟨"p", .outbound, true⟩] ∧
        Reversible .lp64 2 (bufferFunction .int8Ty).params
          [⟨"i", .inbound, false⟩, ⟨"p", .outbound, true⟩]
          (markCall [⟨"i", .inbound, false⟩, ⟨"p", .outbound, true⟩])) := by
  have hf : (bufferModule .int8Ty).functions[0]? = some (bufferFunction .int8Ty) := rfl
  obtain ⟨M', hok⟩ :=
    encapsulate_buffer (.inl rfl) [⟨"i", .inbound, false⟩, ⟨"p", .outbound, true⟩]
  obtain ⟨h, H, hb, hiff⟩ :=
    verifies_iff_reversible hf rfl (by decide) (.of_free (by decide)) hok
  exact ⟨M', h, H, hb, hiff _ (markCall_asDeclared (by decide) (by decide) (by decide))⟩

theorem commuting_verifies_buffer : ∃ (M' : Module) (h : Nat) (H : Harness),
    HarnessBuilt {} (bufferModule .int8Ty) 0 (bufferFunction .int8Ty) 2
      [⟨"i", .inbound, false⟩, ⟨"p", .both, true⟩] M' h H ∧
    AnyOrder .lp64 2 (bufferFunction .int8Ty).params
      [⟨"i", .inbound, false⟩, ⟨"p", .both, true⟩] (fun _ bs => bs) ∧
    (AllReturn M' 0 h (fun _ bs => bs) ↔ ComparesInside .lp64 2 (bufferFunction .int8Ty).params
      [⟨"i", .inbound, false⟩, ⟨"p", .both, true⟩]) := by
  have hf : (bufferModule .int8Ty).functions[0]? = some (bufferFunction .int8Ty) := rfl
  obtain ⟨M', hok⟩ := encapsulate_buffer (.inl rfl) [⟨"i", .inbound, false⟩, ⟨"p", .both, true⟩]
  obtain ⟨h, H, hb, hall⟩ := commuting_verifies hf rfl (by decide) (.of_free (by decide)) hok
  refine ⟨M', h, H, hb, hall _ ⟨fun _ _ => rfl, fun _ _ _ _ _ _ => .inr (.inl fun _ _ => rfl),
    fun bs bs' _ _ hagree i p spec hp hspec _ => ?_⟩ fun _ _ _ _ _ _ => ?_⟩
  · have honly : ∀ spec ∈ [(⟨"i", .inbound, false⟩ : ArgSpec), ⟨"p", .both, true⟩],
        isOnlyOutbound spec.direction = false := by decide
    rw [iterations, iterations, pureSequence_id, pureSequence_id,
      hagree i spec (List.getElem?_eq_some_iff.1 hp).1 hspec
        (honly spec (List.mem_of_getElem? hspec))]
  · rw [iterations, iterations, pureSequence_id, pureSequence_id]

/-- Three iterations are verified that may not be run in any order. -/
theorem anyOrder_iff_buffer : ∃ (M' : Module) (h : Nat) (H : Harness),
    HarnessBuilt {} (bufferModule .int8Ty) 0 (bufferFunction .int8Ty) 3
      [⟨"i", .inbound, false⟩, ⟨"p", .outbound, true⟩] M' h H ∧
    ¬ ∀ g : BitVec 64 → Contents → Contents,
      AsDeclared .lp64 3 (bufferFunction .int8Ty).params
        [⟨"i", .inbound, false⟩, ⟨"p", .outbound, true⟩] g → AllReturn M' 0 h g →
          AnyOrder .lp64 3 (bufferFunction .int8Ty).params
            [⟨"i", .inbound, false⟩, ⟨"p", .outbound, true⟩] g := by
  have hf : (bufferModule .int8Ty).functions[0]? = some (bufferFunction .int8Ty) := rfl
  have hbuild : Buildable {} (bufferModule .int8Ty) (bufferFunction .int8Ty) 3 :=
    ⟨⟨by decide, by decide, by decide, by decide, by decide⟩, by decide⟩
  obtain ⟨M', hok⟩ :=
    encapsulate_progress [⟨"i", .inbound, false⟩, ⟨"p", .outbound, true⟩] hf rfl hbuild
  obtain ⟨h, H, hb, hiff⟩ := anyOrder_iff hf rfl (by decide) (.of_free (by decide)) (by decide)
    (by decide) (by decide) hok
  exact ⟨M', h, H, hb, fun hall => absurd (hiff.1 hall) (by decide)⟩

end

end Ephippion
