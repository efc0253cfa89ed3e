import Ephippion.Proof.Encapsulate
import Ephippion.Run.CallSites

/-!
# The bounds of the library calls

A copy is made symbolic and copied with the size it was allocated with. It is compared with a size
of its own, the multiplier times the size of what the harness's value points to, so the calls stay
in bounds exactly if the comparisons do (`callsInBounds_iff`). Where no size wraps, that is so
exactly if no outbound argument that is passed by value depends on the iterator
(`comparisonsFit_iff`).
-/

namespace Ephippion

open SymbolicEncapsulation

/-- The pointer operands of a library call, with the number of bytes it touches of each. -/
def accesses : String → List Value → List (Value × BitVec 64)
  | "klee_make_symbolic", [p, .constInt _ n, _] => [(p, n)]
  | "memcpy", [d, s, .constInt _ n] => [(d, n), (s, n)]
  | "memcmp", [a, b, .constInt _ n] => [(a, n), (b, n)]
  | _, _ => []

/-- Every library call of the harness touches at most what was allocated. -/
def CallsInBounds (M : Module) (h : Nat) (H : Harness) : Prop :=
  ∀ callee args, LibraryCall M h H callee args → ∀ a ∈ accesses callee.name args,
    ∃ n, M.allocated h a.1 = some n ∧ a.2.toNat ≤ n.toNat

/-- Of an outbound argument that depends on the iterator, `n` times its size is at most its size if
it is passed by value, and at least `n` if it is a pointer; the product is that of 64 bits. -/
def ComparisonsFit (dl : DataLayout) (n : IterationsNumTy) (params : List Param)
    (specs : List ArgSpec) : Prop :=
  ∀ a ∈ params.zip specs, isOutbound a.2.direction → a.2.iteratorDependent →
    if a.1.type.isPointerTy then
      n.toNat ≤ n.toNat * (dl.getTypeAllocSize a.1.elemTy).toNat % 2 ^ 64
    else n.toNat * (dl.getTypeAllocSize a.1.elemTy).toNat % 2 ^ 64 ≤
      (dl.getTypeAllocSize a.1.elemTy).toNat

instance (dl : DataLayout) (n : IterationsNumTy) (params : List Param) (specs : List ArgSpec) :
    Decidable (ComparisonsFit dl n params specs) :=
  inferInstanceAs (Decidable (∀ a ∈ params.zip specs, isOutbound a.2.direction →
    a.2.iteratorDependent → if a.1.type.isPointerTy then
      n.toNat ≤ n.toNat * (dl.getTypeAllocSize a.1.elemTy).toNat % 2 ^ 64
    else n.toNat * (dl.getTypeAllocSize a.1.elemTy).toNat % 2 ^ 64 ≤
      (dl.getTypeAllocSize a.1.elemTy).toNat))

/-- No outbound argument that is passed by value depends on the iterator. -/
def NoOutboundIteratorValue (params : List Param) (specs : List ArgSpec) : Prop :=
  ∀ a ∈ params.zip specs, isOutbound a.2.direction → a.2.iteratorDependent → a.1.type.isPointerTy

/-! ## Sizes -/

section
variable {dl : DataLayout} {n : IterationsNumTy} {params : List Param} {specs : List ArgSpec}

theorem toNat_multiplier_mul (n : IterationsNumTy) (s : BitVec 64) :
    (n.setWidth 64 * s).toNat = n.toNat * s.toNat % 2 ^ 64 := by
  rw [BitVec.toNat_mul, BitVec.toNat_setWidth, Nat.mod_eq_of_lt (Nat.lt_trans n.isLt (by decide))]

theorem comparedSize_le_bufferSize (p : Param) (spec : ArgSpec)
    (hs : dl.getTypeAllocSize p.elemTy ≠ 0) :
    p.comparedSize dl n spec ≤ p.bufferSize dl n spec ↔ (spec.iteratorDependent →
      if p.type.isPointerTy then
        n.toNat ≤ n.toNat * (dl.getTypeAllocSize p.elemTy).toNat % 2 ^ 64
      else n.toNat * (dl.getTypeAllocSize p.elemTy).toNat % 2 ^ 64 ≤
        (dl.getTypeAllocSize p.elemTy).toNat) := by
  have hpos : 0 < (dl.getTypeAllocSize p.elemTy).toNat := by
    rw [Nat.pos_iff_ne_zero]
    exact fun h => hs (BitVec.eq_of_toNat_eq h)
  have hn : n.toNat % 2 ^ 64 = n.toNat := Nat.mod_eq_of_lt (Nat.lt_trans n.isLt (by decide))
  have hone : ∀ x : BitVec 64, 1 * x = x := fun x => BitVec.one_mul x
  cases hp : p.type.isPointerTy <;> cases hi : spec.iteratorDependent <;>
    simp only [Param.comparedSize, Param.bufferSize, multiplier, hp, hi, ite_true,
      Bool.false_eq_true, ite_false, hone, toNat_multiplier_mul, dl.int8_size, true_imp_iff,
      false_imp_iff, iff_true]
  · have helem : p.elemTy = p.type := by simp [Param.elemTy, hp]
    exact Nat.le_of_eq (by rw [helem])
  · have helem : p.elemTy = p.type := by simp [Param.elemTy, hp]
    rw [helem]
  · exact hpos
  · rw [show (1 : BitVec 64).toNat = 1 from rfl, Nat.mul_one, hn]

theorem comparesInside_iff (hs : ParamsSized dl params) :
    ComparesInside dl n params specs ↔ ComparisonsFit dl n params specs :=
  forall₃_congr fun a ha _ =>
    comparedSize_le_bufferSize a.1 a.2 (hs a.1 (List.of_mem_zip ha).1)

theorem comparisonsFit_iff (hs : ParamsSized dl params) (hn : 2 ≤ n.toNat)
    (hwrap : ∀ p ∈ params, n.toNat * (dl.getTypeAllocSize p.elemTy).toNat < 2 ^ 64) :
    ComparisonsFit dl n params specs ↔ NoOutboundIteratorValue params specs := by
  apply forall₄_congr
  intro a ha _ _
  have hmem := (List.of_mem_zip ha).1
  have hpos : 0 < (dl.getTypeAllocSize a.1.elemTy).toNat := by
    rw [Nat.pos_iff_ne_zero]
    exact fun h => hs a.1 hmem (BitVec.eq_of_toNat_eq h)
  rw [Nat.mod_eq_of_lt (hwrap a.1 hmem)]
  split
  · rename_i hp
    exact iff_of_true (Nat.le_mul_of_pos_right _ hpos) hp
  · rename_i hp
    refine iff_of_false (fun hle => ?_) hp
    have := Nat.mul_le_mul_right (dl.getTypeAllocSize a.1.elemTy).toNat hn
    omega

end

section
variable {senc : SymbolicEncapsulation} {M M' : Module} {F : Nat} {f : Function}
  {n : IterationsNumTy} {specs : List ArgSpec} {h : Nat} {H : Harness}

/-- Only a comparison can go past what was allocated. -/
theorem HarnessAt.inBounds_iff (hat : HarnessAt h F f n specs H M')
    (hlen : (M'.blocks h).length = H.numBlocks) :
    CallsInBounds M' h H ↔ ComparesInside H.dl n f.params specs := by
  rw [hat.layout.comparesInside]
  constructor
  · intro hb s hs hout
    obtain ⟨j, hj⟩ := List.getElem?_of_mem (List.mem_filter.2 ⟨hs, hout⟩)
    obtain ⟨a, ha, hle⟩ := hb _ _ ((hat.libraryCall_iff hlen).2 ⟨_, .memcmp hj⟩)
      (s.value1 H.base H.dl, s.comparedSize H.dl H.n)
      (by rw [hat.memcmp_declared.name_eq]; exact List.mem_cons_self)
    rw [show s.value1 H.base H.dl = s.valueOf H.base H.dl .first from rfl, hat.allocated hs,
      Option.some.injEq] at ha
    subst ha
    rw [hat.n_eq] at hle
    exact hle
  · intro hin callee args hc a ha
    obtain ⟨B, hc⟩ := (hat.libraryCall_iff hlen).1 hc
    have hcopy : ∀ {s : Slot}, s ∈ H.slots → ∀ (k : Copy) {m : BitVec 64},
        m.toNat ≤ (s.allocSize H.dl H.n).toNat →
        ∃ n, M'.allocated h (s.valueOf H.base H.dl k) = some n ∧ m.toNat ≤ n.toNat :=
      fun hs k _ hle => ⟨_, hat.allocated hs k, hle⟩
    cases hc with
    | malloc => rw [hat.malloc_declared.name_eq] at ha; cases ha
    | free => rw [hat.free_declared.name_eq] at ha; cases ha
    | assert => rw [hat.assert_declared.name_eq] at ha; cases ha
    | symbolize1 hs _ =>
      rw [hat.symbolize_declared.name_eq] at ha
      rw [List.mem_singleton.1 ha]
      exact hcopy hs .first (Nat.le_refl _)
    | symbolize2 hs _ _ =>
      rw [hat.symbolize_declared.name_eq] at ha
      rw [List.mem_singleton.1 ha]
      exact hcopy hs .second (Nat.le_refl _)
    | memcpy hs _ _ =>
      rw [hat.memcpy_declared.name_eq] at ha
      rcases List.mem_cons.1 ha with rfl | ha
      · exact hcopy hs .second (Nat.le_refl _)
      · rw [List.mem_singleton.1 ha]
        exact hcopy hs .first (Nat.le_refl _)
    | memcmp hs =>
      obtain ⟨hmem, hout⟩ := List.mem_filter.1 (List.mem_of_getElem? hs)
      have hle := hin _ hmem hout
      rw [← hat.n_eq] at hle
      rw [hat.memcmp_declared.name_eq] at ha
      rcases List.mem_cons.1 ha with rfl | ha
      · exact hcopy hmem .first hle
      · rw [List.mem_singleton.1 ha]
        exact hcopy hmem .second hle

/-- Every library call of a harness stays in bounds exactly if the comparisons fit. -/
theorem callsInBounds_iff (hf : M.functions[F]? = some f) (hdef : f.isDeclaration = false)
    (hok : senc.encapsulate M F n specs = .ok (M', true)) :
    ∃ h H, HarnessBuilt senc M F f n specs M' h H ∧
      (CallsInBounds M' h H ↔
        ComparisonsFit M.dataLayout n f.params (padSpecs specs f.params.length)) ∧
      ((∀ p ∈ f.params, n.toNat * (M.dataLayout.getTypeAllocSize p.elemTy).toNat < 2 ^ 64) →
        (CallsInBounds M' h H ↔
          NoOutboundIteratorValue f.params (padSpecs specs f.params.length))) := by
  obtain ⟨-, hbuild, h, H, hb⟩ := encapsulate_of_ok hf hdef hok
  have hdl : H.dl = M.dataLayout := hb.here.dl_eq.trans hb.dataLayout
  have hin : CallsInBounds M' h H ↔
      ComparisonsFit M.dataLayout n f.params (padSpecs specs f.params.length) := by
    rw [hb.here.inBounds_iff hb.length, hdl, comparesInside_iff hbuild.sized]
  exact ⟨h, H, hb, hin,
    fun hwrap => hin.trans (comparisonsFit_iff hbuild.sized hbuild.two_le hwrap)⟩

end

theorem callsInBounds_buffer : ∃ (M' : Module) (h : Nat) (H : Harness),
    SymbolicEncapsulation.encapsulate {} (bufferModule .int8Ty) 0 2
      [⟨"i", .inbound, true⟩, ⟨"p", .both, true⟩] = .ok (M', true) ∧ CallsInBounds M' h H := by
  have hf : (bufferModule .int8Ty).functions[0]? = some (bufferFunction .int8Ty) := rfl
  obtain ⟨M', hok⟩ := encapsulate_buffer (.inl rfl) [⟨"i", .inbound, true⟩, ⟨"p", .both, true⟩]
  obtain ⟨h, H, -, hiff, -⟩ := callsInBounds_iff hf rfl hok
  exact ⟨M', h, H, hok, hiff.2 (by decide)⟩

/-- Of an outbound iterator that is said to depend on itself 16 bytes are compared, and 8 are
there. -/
theorem not_callsInBounds_plain : ∃ (M' : Module) (h : Nat) (H : Harness),
    HarnessBuilt {} plainModule 0 (emptyFunction "f" [⟨"", .int64Ty⟩]) 2
      [⟨"i", .outbound, true⟩] M' h H ∧ ¬ CallsInBounds M' h H := by
  have hf : plainModule.functions[0]? = some (emptyFunction "f" [⟨"", .int64Ty⟩]) := rfl
  obtain ⟨M', hok⟩ := encapsulate_plain [⟨"i", .outbound, true⟩]
  obtain ⟨-, -, h, H, hb⟩ := encapsulate_of_ok hf rfl hok
  refine ⟨M', h, H, hb, fun hin => ?_⟩
  rw [hb.here.inBounds_iff hb.length, hb.here.dl_eq, hb.dataLayout] at hin
  exact absurd hin (by decide)

end Ephippion
