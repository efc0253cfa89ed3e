import Ephippion.Run.Alike
import Ephippion.Run.Entry

/-!
# What a harness does not depend on

A run of a harness is determined by the calls and by the bytes the copies of the arguments start
with (`run_inputs`): if every argument is inbound, what was in fresh storage makes no difference
(`SameInputs.of_symbolized`). And of the function it tests a harness uses the types of the
parameters only: two functions of the same types have harnesses that run alike in every world,
whatever else the functions and their modules are, and end the same up to the names of symbolic
objects (`run_types`).
-/

namespace Ephippion

open Machine

/-! ## The same inputs -/

/-- If every copy is made symbolic the bytes of fresh storage are no inputs. -/
theorem SameInputs.of_symbolized {H : Harness} {W W' : World} (hcall : W.call = W'.call)
    (hsymbol : W.symbol = W'.symbol) (hall : ∀ s ∈ H.slots, s.symbolized) : SameInputs H W W' where
  call := hcall
  symbolic _ _ _ _ _ _ := by rw [hsymbol]
  fresh s hs hy := by
    rw [hall s hs] at hy
    cases hy

theorem Harness.Alike.refl (H : Harness) : H.Alike Eq H :=
  ⟨rfl, rfl, rfl, List.forall₂_same.2 fun _ _ => ⟨rfl, rfl, rfl, rfl, rfl, rfl⟩⟩

section
variable {senc : SymbolicEncapsulation} {M M' : Module} {F : Nat} {f : Function}
  {n : IterationsNumTy} {specs : List ArgSpec}

/-- In worlds that give it the same inputs a harness runs the same. -/
theorem run_inputs (hf : M.functions[F]? = some f) (hdef : f.isDeclaration = false)
    (hi : TakesIterator f) (hbl : HarnessBodiless senc M f)
    (hok : senc.encapsulate M F n specs = .ok (M', true)) :
    ∃ h H, HarnessBuilt senc M F f n specs M' h H ∧ ∀ W W' : World, SameInputs H W W' →
      ∀ o, Halts (step W M' F h) (startAt 0) o ↔ Halts (step W' M' F h) (startAt 0) o := by
  obtain ⟨-, -, h, H, hb⟩ := encapsulate_of_ok hf hdef hok
  have hlink := hb.linked hf hi
  refine ⟨h, H, hb, fun W W' hin o => ?_⟩
  have houtcome : H.outcome W = H.outcome W' :=
    (hb.here.outcome_alike hlink hb.here hlink (.refl H) hin).eq
  rw [← hb.bodiless_iff.1 hbl, hb.here.halts_iff_eq hlink hi, hb.here.halts_iff_eq hlink hi,
    houtcome]

end

/-- What is in fresh storage does not matter to an argument that is read and written. -/
theorem run_inputs_buffer : ∃ (M' : Module) (h : Nat) (H : Harness),
    HarnessBuilt {} (bufferModule .int32Ty) 0 (bufferFunction .int32Ty) 2
      [⟨"i", .inbound, false⟩, ⟨"p", .both, true⟩] M' h H ∧
    ∀ o, Halts (step World.idle M' 0 h) (startAt 0) o ↔
      Halts (step { World.idle with fresh := fun _ _ => 1 } M' 0 h) (startAt 0) o := by
  have hf : (bufferModule .int32Ty).functions[0]? = some (bufferFunction .int32Ty) := rfl
  obtain ⟨M', hok⟩ := encapsulate_buffer (.inr rfl) [⟨"i", .inbound, false⟩, ⟨"p", .both, true⟩]
  obtain ⟨h, H, hb, hruns⟩ := run_inputs hf rfl (by decide) (.of_free (by decide)) hok
  refine ⟨M', h, H, hb, hruns _ _ (.of_symbolized rfl rfl fun s hs => ?_)⟩
  have hmem : s.spec ∈ H.slots.map (·.spec) := List.mem_map_of_mem hs
  rw [hb.here.layout.map_spec] at hmem
  have hall : ∀ spec ∈ (padSpecs [⟨"i", .inbound, false⟩, ⟨"p", .both, true⟩] 2).take 2,
      !isOnlyOutbound spec.direction := by decide
  exact hall _ hmem

/-! ## The same types -/

section
variable {params params' : List Param} {specs : List ArgSpec} {slots slots' : List Slot}

theorem IsLayout.alike (hl : IsLayout params specs slots) (hl' : IsLayout params' specs slots')
    (ht : params.map (·.type) = params'.map (·.type)) :
    List.Forall₂ (Slot.Alike fun _ _ => True) slots slots' := by
  have hlen : slots.length = slots'.length := by
    rw [hl.length, hl'.length]
    simpa using congrArg List.length ht
  -- a copy's place depends on the slots before only
  have key : ∀ (i : Nat) (s t : Slot), slots[i]? = some s → slots'[i]? = some t →
      s.Alike (fun _ _ => True) t := by
    intro i
    induction i using Nat.strongRecOn with
    | ind i ih =>
      intro s t hs ht'
      obtain ⟨-, hspec, hidx⟩ := hl.at_pos i s hs
      obtain ⟨-, hspec', hidx'⟩ := hl'.at_pos i t ht'
      have hse : s.spec = t.spec := Option.some.inj (hspec.symm.trans hspec')
      have hty : s.param.type = t.param.type := by
        have := congrArg (·[i]?) ht
        simpa [← hl.params_eq, ← hl'.params_eq, hs, ht'] using this
      have hwidth : slotsWidth (slots.take i) = slotsWidth (slots'.take i) := by
        refine congrArg List.sum (List.ext_getElem? fun j => ?_)
        rw [List.getElem?_map, List.getElem?_map, List.getElem?_take, List.getElem?_take]
        split
        · rename_i hj
          have hlt := (List.getElem?_eq_some_iff.1 hs).1
          have h1 := List.getElem?_eq_getElem (show j < slots.length by omega)
          have h2 := List.getElem?_eq_getElem (show j < slots'.length by omega)
          rw [h1, h2, Option.map_some, Option.map_some, (ih j hj _ _ h1 h2).width]
        · rfl
      exact ⟨hty, by rw [hse], by rw [hse], hidx.trans (hwidth.trans hidx'.symm), trivial, trivial⟩
  refine List.forall₂_iff_get.2 ⟨hlen, fun i h1 h2 => ?_⟩
  exact key i _ _ (List.getElem?_eq_getElem h1) (List.getElem?_eq_getElem h2)

end

section
variable {senc senc' : SymbolicEncapsulation} {M M' N N' : Module} {F G : Nat} {f g : Function}
  {n : IterationsNumTy} {specs : List ArgSpec}

/-- Two functions whose parameters have the same types, each in a module of its own, have harnesses
that run alike in every world. -/
theorem run_types (hf : M.functions[F]? = some f) (hdef : f.isDeclaration = false)
    (hg : N.functions[G]? = some g) (hdef' : g.isDeclaration = false)
    (htypes : f.params.map (·.type) = g.params.map (·.type)) (hdl : M.dataLayout = N.dataLayout)
    (hi : TakesIterator f) (hbl : HarnessBodiless senc M f) (hbl' : HarnessBodiless senc' N g)
    (hok : senc.encapsulate M F n specs = .ok (M', true))
    (hok' : senc'.encapsulate N G n specs = .ok (N', true)) :
    ∃ h H k K, HarnessBuilt senc M F f n specs M' h H ∧
      HarnessBuilt senc' N G g n specs N' k K ∧
      ∀ W, ∃ o o', Halts (step W M' F h) (startAt 0) o ∧
        Halts (step W N' G k) (startAt 0) o' ∧ o.Alike (fun _ _ => True) o' := by
  obtain ⟨-, -, h, H, hb⟩ := encapsulate_of_ok hf hdef hok
  obtain ⟨-, -, k, K, hb'⟩ := encapsulate_of_ok hg hdef' hok'
  have hi' : TakesIterator g := by
    rw [TakesIterator, ← List.head?_map] at hi ⊢
    rwa [← htypes]
  have hlink := hb.linked hf hi
  have hlink' := hb'.linked hg hi'
  have hbase := hb.bodiless_iff.1 hbl
  have hbase' := hb'.bodiless_iff.1 hbl'
  have hlen : f.params.length = g.params.length := by simpa using congrArg List.length htypes
  have halike : H.Alike (fun _ _ => True) K := {
    base := hbase.trans hbase'.symm
    n := hb.here.n_eq.trans hb'.here.n_eq.symm
    dl := by rw [hb.here.dl_eq, hb.dataLayout, hdl, hb'.here.dl_eq, hb'.dataLayout]
    slots := hb.here.layout.alike (hlen ▸ hb'.here.layout) htypes }
  refine ⟨h, H, k, K, hb, hb', fun W => ⟨H.outcome W, K.outcome W, ?_, ?_, ?_⟩⟩
  · rw [← hbase]
    exact (hb.here.halts_iff_eq hlink hi).2 rfl
  · rw [← hbase']
    exact (hb'.here.halts_iff_eq hlink' hi').2 rfl
  · exact hb.here.outcome_alike hlink hb'.here hlink' halike
      ⟨rfl, fun _ _ _ _ _ _ => rfl, fun _ _ _ _ _ _ => rfl⟩

end

/-- `g(i64 j, i32* q)`. -/
def renamedFunction : Function := emptyFunction "g" [⟨"j", .int64Ty⟩, ⟨"q", .pointer .int32Ty 0⟩]

def renamedModule : Module := .of [emptyFunction "f" [⟨"", .int64Ty⟩], renamedFunction]

/-- The functions differ in their names, in those of their parameters and in their places. -/
theorem run_types_renamed : ∃ (M' N' : Module) (h k : Nat) (o o' : Outcome),
    SymbolicEncapsulation.encapsulate {} (bufferModule .int32Ty) 0 2 [.default, ⟨"", .both, true⟩] =
      .ok (M', true) ∧
    SymbolicEncapsulation.encapsulate {} renamedModule 1 2 [.default, ⟨"", .both, true⟩] =
      .ok (N', true) ∧
    Halts (step World.idle M' 0 h) (startAt 0) o ∧ Halts (step World.idle N' 1 k) (startAt 0) o' ∧
    o.Alike (fun _ _ => True) o' := by
  obtain ⟨M', hok⟩ := encapsulate_buffer (.inr rfl) [.default, ⟨"", .both, true⟩]
  have hbuild : Buildable {} renamedModule renamedFunction 2 :=
    ⟨⟨by decide, by decide, by decide, by decide, by decide⟩, by decide⟩
  obtain ⟨N', hok'⟩ := encapsulate_progress (F := 1) [.default, ⟨"", .both, true⟩] rfl rfl hbuild
  have hfree : HarnessBodiless {} (bufferModule .int32Ty) (bufferFunction .int32Ty) :=
    .of_free (by decide)
  have hfree' : HarnessBodiless {} renamedModule renamedFunction := .of_free (by decide)
  obtain ⟨h, -, k, -, -, -, hruns⟩ := run_types (M := bufferModule .int32Ty) (N := renamedModule)
    (f := bufferFunction .int32Ty) (g := renamedFunction) rfl rfl rfl rfl rfl rfl (by decide) hfree
    hfree' hok hok'
  obtain ⟨o, o', ho, ho', halike⟩ := hruns World.idle
  exact ⟨M', N', h, k, o, o', hok, hok', ho, ho', halike⟩

end Ephippion
