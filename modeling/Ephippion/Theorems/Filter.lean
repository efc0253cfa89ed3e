import Ephippion.Run.CallSites
import Ephippion.Theorems.ChangeReport

/-!
# The filter of the pass and the checks of the harness

Without forced encapsulation a round of the pass's loop builds a harness for a report exactly if one
of its specifications is outbound; the harness compares something exactly if the specification of
one of the function's parameters is. The two agree exactly if the report has no outbound
specification past the parameters only (`filterAgrees_iff`).
-/

namespace Ephippion

open SymbolicEncapsulation

/-- The harness `H` has a comparison. -/
def HasCheck (M : Module) (h : Nat) (H : Harness) : Prop :=
  ∃ callee args, LibraryCall M h H callee args ∧ callee.name = "memcmp"

def AnyOutbound (specs : List ArgSpec) : Bool := specs.any fun s => isOutbound s.direction

/-- The round of the loop for the `k`-th entry in state `s` builds the harness `H`, with which the
module is `M'`, exactly if `H` has a comparison. -/
def FilterAgrees (opts : Options) (parse : String → Option Json) (unset : Unset) (works : List Nat)
    (s : Module × Bool) (e : DirEntry) (k : Nat) (M' : Module) (h : Nat) (H : Harness) : Prop :=
  reportStep {} opts parse unset works s (e, k) = .ok (M', true) ↔ HasCheck M' h H

/-! ## Outbound parameters -/

section
variable {params : List Param} {specs : List ArgSpec} {slots : List Slot}

theorem anyOutbound_padSpecs (specs : List ArgSpec) (k : Nat) :
    AnyOutbound ((padSpecs specs k).take k) = AnyOutbound (specs.take k) := by
  have hpad : ∀ j, (List.replicate j ArgSpec.default).any (fun s => isOutbound s.direction) =
      false := fun j => by
    rw [List.any_replicate]
    split <;> rfl
  rw [AnyOutbound, AnyOutbound, padSpecs, List.take_append, List.any_append, List.take_replicate,
    hpad, Bool.or_false]

end

section
variable {h F : Nat} {f : Function} {n : IterationsNumTy} {specs : List ArgSpec} {H : Harness}
  {M' : Module}

/-- A harness compares the copies of the outbound parameters. -/
theorem HarnessAt.hasCheck_iff (hat : HarnessAt h F f n (padSpecs specs f.params.length) H M')
    (hlen : (M'.blocks h).length = H.numBlocks) :
    HasCheck M' h H ↔ AnyOutbound (specs.take f.params.length) := by
  have hslots : HasCheck M' h H ↔ ∃ s ∈ H.slots, s.outbound := by
    constructor
    · intro hx
      obtain ⟨callee, args, hc, hname⟩ := hx
      obtain ⟨B, hc⟩ := (hat.libraryCall_iff hlen).1 hc
      cases hc with
      | memcmp hs =>
        obtain ⟨hmem, hout⟩ := List.mem_filter.1 (List.mem_of_getElem? hs)
        exact ⟨_, hmem, hout⟩
      | malloc => exact absurd (hat.malloc_declared.name_eq.symm.trans hname) (by decide)
      | symbolize1 | symbolize2 =>
        exact absurd (hat.symbolize_declared.name_eq.symm.trans hname) (by decide)
      | memcpy => exact absurd (hat.memcpy_declared.name_eq.symm.trans hname) (by decide)
      | assert => exact absurd (hat.assert_declared.name_eq.symm.trans hname) (by decide)
      | free => exact absurd (hat.free_declared.name_eq.symm.trans hname) (by decide)
    · intro hx
      obtain ⟨s, hs, hout⟩ := hx
      obtain ⟨j, hj⟩ := List.getElem?_of_mem (List.mem_filter.2 ⟨hs, hout⟩)
      exact ⟨_, _, (hat.libraryCall_iff hlen).2 ⟨_, .memcmp hj⟩, hat.memcmp_declared.name_eq⟩
  rw [hslots, ← anyOutbound_padSpecs, ← hat.layout.map_spec, AnyOutbound, List.any_map,
    List.any_eq_true]
  rfl

end

section
variable {opts : Options} {parse : String → Option Json} {unset : Unset} {works : List Nat}
  {s : Module × Bool} {M' : Module} {e : DirEntry} {F k : Nat} {f : Function} {elems : List Json}

/-- The filter and the checks agree on a report exactly if it has no outbound specification past the
parameters only. -/
theorem filterAgrees_iff (hforce : opts.forceEncapsulation = false)
    (hrep : ReportsOn opts parse works s.1 e F elems)
    (hf : s.1.functions[F]? = some f) (hdef : f.isDeclaration = false)
    (hok : SymbolicEncapsulation.encapsulate {} s.1 F opts.iterationsNum
      (decodeSpecs (unset k) elems) = .ok (M', true)) :
    ∃ h H, HarnessBuilt {} s.1 F f opts.iterationsNum (decodeSpecs (unset k) elems) M' h H ∧
      (HasCheck M' h H ↔ AnyOutbound ((decodeSpecs (unset k) elems).take f.params.length)) ∧
      (FilterAgrees opts parse unset works s e k M' h H ↔
        (AnyOutbound (decodeSpecs (unset k) elems) →
          AnyOutbound ((decodeSpecs (unset k) elems).take f.params.length))) := by
  obtain ⟨-, -, h, H, hb⟩ := encapsulate_of_ok hf hdef hok
  have hcheck := hb.here.hasCheck_iff hb.length
  refine ⟨h, H, hb, hcheck, ?_⟩
  have hbuilds : reportStep {} opts parse unset works s (e, k) = .ok (M', true) ↔
      AnyOutbound (decodeSpecs (unset k) elems) := by
    have hread := hrep.readReport (unset k)
    rw [hforce, Bool.not_false, Bool.and_true] at hread
    cases hany : AnyOutbound (decodeSpecs (unset k) elems) with
    | true =>
      rw [AnyOutbound] at hany
      rw [hany, if_neg (by simp)] at hread
      have hstep := reportStep_encapsulate {} unset (e := (e, k)) hread
      rw [hok] at hstep
      exact iff_of_true (by simpa using hstep) rfl
    | false =>
      rw [AnyOutbound] at hany
      rw [hany, if_pos (by simp)] at hread
      rw [reportStep_skip (e := (e, k)) hread]
      refine iff_of_false (fun he => ?_) (by simp)
      rw [Except.ok.injEq] at he
      exact hb.not_kept (by rw [he])
  have hsub : AnyOutbound ((decodeSpecs (unset k) elems).take f.params.length) →
      AnyOutbound (decodeSpecs (unset k) elems) := fun hany => by
    obtain ⟨spec, hmem, hout⟩ := List.any_eq_true.1 hany
    exact List.any_eq_true.2 ⟨spec, List.mem_of_mem_take hmem, hout⟩
  rw [FilterAgrees, hbuilds, hcheck]
  exact ⟨Iff.mp, fun h => ⟨h, hsub⟩⟩

end

/-! ## Reports for `f(i64)` -/

/-- A report for `f` is the text of its specifications' directions. -/
def parseDirections : String → Option Json
  | "io" => some (reportJson "f" [specJson 1 false, specJson 2 false])
  | "o" => some (reportJson "f" [specJson 2 false])
  | _ => none

theorem reportsOn_plain {text : String} {elems : List Json}
    (hp : parseDirections text = some (reportJson "f" elems)) :
    ReportsOn reportOptions parseDirections [0] plainModule ⟨"lpc.1.json", true, some text⟩ 0
      elems where
  isReport := (by decide : (⟨"lpc.1.json", true, none⟩ : DirEntry).isReport reportOptions = true)
  names := ⟨text, _, "f", ⟨0, "f", ⟨.void, [.int64Ty], false⟩⟩, ⟨rfl, hp⟩, rfl, ⟨by decide, rfl⟩,
    rfl⟩
  mem := by decide

theorem filterAgrees_plain : ∃ (M' : Module) (h : Nat) (H : Harness),
    FilterAgrees reportOptions parseDirections (fun _ _ => (.inbound, false)) [0]
      (plainModule, false) ⟨"lpc.1.json", true, some "o"⟩ 0 M' h H ∧ HasCheck M' h H := by
  obtain ⟨M', hok⟩ := encapsulate_plain [⟨"", .outbound, false⟩]
  obtain ⟨h, H, -, hcheck, hiff⟩ := filterAgrees_iff (k := 0) (s := (plainModule, false))
    (f := emptyFunction "f" [⟨"", .int64Ty⟩]) rfl
    (reportsOn_plain (show parseDirections "o" = some _ from rfl)) rfl rfl hok
  exact ⟨M', h, H, hiff.2 (by decide), hcheck.2 (by decide)⟩

/-- For a report with an outbound specification past the only parameter a harness is built, and it
compares nothing. -/
theorem harness_without_check : ∃ (M' : Module) (h : Nat) (H : Harness),
    HarnessBuilt {} plainModule 0 (emptyFunction "f" [⟨"", .int64Ty⟩]) 2
      [⟨"", .inbound, false⟩, ⟨"", .outbound, false⟩] M' h H ∧
    reportStep {} reportOptions parseDirections (fun _ _ => (.inbound, false)) [0]
      (plainModule, false) (⟨"lpc.1.json", true, some "io"⟩, 0) = .ok (M', true) ∧
    ¬ HasCheck M' h H := by
  have hrep : ReportsOn reportOptions parseDirections [0] plainModule
      ⟨"lpc.1.json", true, some "io"⟩ 0 [specJson 1 false, specJson 2 false] := reportsOn_plain rfl
  obtain ⟨M', hok⟩ := encapsulate_plain [⟨"", .inbound, false⟩, ⟨"", .outbound, false⟩]
  obtain ⟨-, -, h, H, hb⟩ := encapsulate_of_ok (f := emptyFunction "f" [⟨"", .int64Ty⟩]) rfl rfl hok
  refine ⟨M', h, H, hb, ?_, fun hc => ?_⟩
  · have hstep := reportStep_encapsulate {} (fun _ _ => (.inbound, false))
      (s := (plainModule, false)) (e := (⟨"lpc.1.json", true, some "io"⟩, 0)) (hrep.readReport _)
    have hok' : SymbolicEncapsulation.encapsulate {} plainModule 0 reportOptions.iterationsNum
        (decodeSpecs (fun _ => (.inbound, false)) [specJson 1 false, specJson 2 false]) =
        .ok (M', true) := hok
    rw [hok'] at hstep
    exact hstep
  · exact absurd ((hb.here.hasCheck_iff hb.length).1 hc) (by decide)

end Ephippion
