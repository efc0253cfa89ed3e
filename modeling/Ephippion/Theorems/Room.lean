import Ephippion.Run.Entry
import Ephippion.Run.Iterators

/-!
# Room for every iteration

A buffer that depends on the iterator is allocated with room for `n` elements, `n` times the size of
one without wrapping, and every iterator either loop calls the function with is one of
`0, …, n - 1`, so its element is inside both copies (`room_for_iterations`).
-/

namespace Ephippion

open Counted Machine

/-- Element `v` of a buffer of elements of `size` bytes is inside its `a` bytes. -/
def ElementInside (size a : Nat) (v : BitVec 64) : Prop :=
  0 ≤ v.toInt ∧ (v.toInt + 1) * size ≤ a

/-- Both copies of the argument `t` are allocated with `a` bytes, which is `n` times the size of an
element, and have room for the element of every iterator. -/
structure RoomFor (M' : Module) (h F : Nat) (H : Harness) (t : Slot) (a : BitVec 64) : Prop where
  allocated : ∀ k, M'.allocated h (t.valueOf H.base H.dl k) = some a
  product : a.toNat = H.n.toNat * (H.dl.getTypeAllocSize t.param.elemTy).toNat
  /-- Whenever a body is entered, its counter's element is inside both copies. -/
  entered : ∀ (W : World) (s : Config), Steps (step W M' F h) (startAt H.base) s →
    ∀ k : Copy, s.block = H.id k.body →
      (∃ v, (indVar (H.id k.hdr) (H.ind k)).eval s.env = some (.int v) ∧
        ElementInside (H.dl.getTypeAllocSize t.param.elemTy).toNat a.toNat v) ∧
      ∀ k' : Copy, ∃ o, (t.valueOf H.base H.dl k').eval s.env = some (.ptr o) ∧
        .alloc o true a.toNat ∈ s.core.trace
  /-- So it is for every call that was made. -/
  called : ∀ (W : World) (s : Config), Steps (step W M' F h) (startAt H.base) s →
    ∀ b v args, .call b v args ∈ s.core.trace → (∃ k : Copy, b = H.id k.body) ∧
      ElementInside (H.dl.getTypeAllocSize t.param.elemTy).toNat a.toNat v

theorem elementInside_of_mem {H : Harness} {k : Copy} {v : BitVec 64} (hv : v ∈ H.iterators k)
    (size : Nat) : ElementInside size (H.n.toNat * size) v := by
  have hmem : v ∈ upTo 64 H.n.toNat := by
    cases k with
    | first => exact hv
    | second => exact List.mem_reverse.1 hv
  obtain ⟨j, hj, rfl⟩ := List.mem_map.1 hmem
  have hlt := H.n.isLt
  have hjn := List.mem_range.1 hj
  have hint : (BitVec.ofNat 64 j).toInt = j := toInt_ofNat_64 (by omega)
  have hle : (j + 1) * size ≤ H.n.toNat * size := Nat.mul_le_mul_right size (by omega)
  refine ⟨by omega, ?_⟩
  rw [hint]
  exact_mod_cast hle

theorem mem_allocs {slots : List Slot} {t : Slot} (ht : t ∈ slots) (dl : DataLayout)
    (n : IterationsNumTy) (k : Copy) :
    .alloc (t.obj k) t.isPtr (t.size dl n) ∈ (ownedCopies slots).map (allocOf dl n) := by
  have hcopy : ∃ p ∈ t.ownedCopies, p.1 = t ∧ ownedObj p = t.obj k := by
    unfold Slot.ownedCopies
    cases hout : t.outbound with
    | true => exact ⟨(t, k), by cases k <;> simp, rfl, rfl⟩
    | false =>
      refine ⟨(t, .first), by simp, rfl, ?_⟩
      rw [ownedObj, t.obj_of_not_outbound hout, t.obj_of_not_outbound hout]
  obtain ⟨p, hp, rfl, hobj⟩ := hcopy
  refine List.mem_map.2 ⟨p, List.mem_flatMap.2 ⟨_, ht, hp⟩, ?_⟩
  rw [allocOf, hobj]

section
variable {h F : Nat} {f : Function} {n : IterationsNumTy} {specs : List ArgSpec} {H : Harness}
  {M' : Module}

theorem HarnessAt.roomFor (hat : HarnessAt h F f n specs H M')
    (hF : M'.sig[F]? = some (f.name, f.getFunctionType)) {t : Slot} (ht : t ∈ H.slots)
    (hptr : t.isPtr) (hdep : t.spec.iteratorDependent)
    (hsize : (H.dl.getTypeAllocSize t.param.elemTy).toNat < 2 ^ 32) :
    RoomFor M' h F H t (t.allocSize H.dl H.n) := by
  have hproduct : (t.allocSize H.dl H.n).toNat =
      H.n.toNat * (H.dl.getTypeAllocSize t.param.elemTy).toNat := by
    have hn := H.n.isLt
    have hlt : H.n.toNat * (H.dl.getTypeAllocSize t.param.elemTy).toNat < 2 ^ 32 * 2 ^ 32 :=
      Nat.mul_lt_mul'' hn hsize
    rw [Slot.allocSize, if_pos hptr, multiplier, if_pos hdep, BitVec.toNat_mul,
      BitVec.toNat_setWidth, Nat.mod_eq_of_lt (a := H.n.toNat) (by omega),
      Nat.mod_eq_of_lt (by omega)]
  refine ⟨fun k => hat.allocated ht k, hproduct, fun W s hs k hb => ⟨?_, fun k' => ?_⟩,
    fun W s hs b v args he => ?_⟩
  · obtain ⟨v, vs, hv, -, hsuffix⟩ := (hat.counting hs k).inside (.inl hb)
    rw [hproduct]
    exact ⟨v, hv, elementInside_of_mem (hsuffix.subset List.mem_cons_self) _⟩
  · have hsetup : s.block ≠ H.id .setup := fun he => by
      have := Harness.id_inj (H.valid_loop k).1 (show H.Valid .setup from trivial)
        (hb.symm.trans he)
      cases k <;> cases this
    have hmem := (hat.allocs_prefix hF hs hsetup).subset (mem_allocs ht H.dl H.n k')
    rw [hptr] at hmem
    exact ⟨_, (hat.pointers hF hs hsetup).eval hat.layout H.dl ht k', hmem⟩
  · obtain ⟨k, hb, hmem⟩ := hat.call_iterator hF hs he
    rw [hproduct]
    exact ⟨⟨k, hb⟩, elementInside_of_mem hmem _⟩

end

/-- Every iteration has room in the harness of a function. -/
theorem room_for_iterations {senc : SymbolicEncapsulation} {M M' : Module} {F : Nat} {f : Function}
    {n : IterationsNumTy} {specs : List ArgSpec} (hf : M.functions[F]? = some f)
    (hdef : f.isDeclaration = false) (hok : senc.encapsulate M F n specs = .ok (M', true)) :
    ∃ h H, HarnessBuilt senc M F f n specs M' h H ∧
      ∀ t ∈ H.slots, t.isPtr → t.spec.iteratorDependent →
        (H.dl.getTypeAllocSize t.param.elemTy).toNat < 2 ^ 32 →
        ∃ a, RoomFor M' h F H t a := by
  obtain ⟨-, -, h, H, hb⟩ := encapsulate_of_ok hf hdef hok
  exact ⟨h, H, hb, fun t ht hptr hdep hsize =>
    ⟨_, hb.here.roomFor (hb.sig_encapsulated hf).2.2 ht hptr hdep hsize⟩⟩

theorem room_for_iterations_buffer : ∃ (M' : Module) (h : Nat) (H : Harness) (t : Slot)
    (a : BitVec 64), SymbolicEncapsulation.encapsulate {} (bufferModule .int32Ty) 0 2
      [⟨"i", .inbound, false⟩, ⟨"p", .both, true⟩] = .ok (M', true) ∧
    t ∈ H.slots ∧ t.isPtr ∧ RoomFor M' h 0 H t a := by
  have hf : (bufferModule .int32Ty).functions[0]? = some (bufferFunction .int32Ty) := rfl
  obtain ⟨M', hok⟩ := encapsulate_buffer (.inr rfl) [⟨"i", .inbound, false⟩, ⟨"p", .both, true⟩]
  obtain ⟨h, H, hb, hroom⟩ := room_for_iterations hf rfl hok
  obtain ⟨t, ht, hparam, -, hspec⟩ := hb.here.layout.slot_at
    (show (bufferFunction .int32Ty).params[1]? = some ⟨"p", .pointer .int32Ty 0⟩ from rfl)
  have hptr : t.isPtr := by
    rw [Slot.isPtr, hparam]
    rfl
  have hdep : t.spec.iteratorDependent := by
    rw [← Option.some.inj hspec]
  have hdl : H.dl = .lp64 := hb.here.dl_eq.trans hb.dataLayout
  obtain ⟨a, ha⟩ := hroom t (List.mem_of_getElem? ht) hptr hdep (by rw [hdl, hparam]; decide)
  exact ⟨M', h, H, t, a, hok, List.mem_of_getElem? ht, hptr, ha⟩

end Ephippion
