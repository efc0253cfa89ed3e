import Ephippion.Run.Entry
import Ephippion.Run.Ownership
import Mathlib.Data.List.Count

/-!
# Storage ownership

In every run of a harness two copies of arguments share storage only if they are the two of one
argument that is not outbound, and a run that gets to the exit has allocated in the setup, used
what it allocated, and then freed what came from `malloc`, in the reverse order and nothing else
(`storage_owned`).
-/

namespace Ephippion

open Machine

/-- What was created, in order. -/
def allocatedIn (trace : List Event) : List Nat :=
  trace.filterMap fun
    | .alloc o _ _ => some o
    | _ => none

/-- What came from `malloc`, in order. -/
def mallocsIn (trace : List Event) : List Nat :=
  trace.filterMap fun
    | .alloc o true _ => some o
    | _ => none

/-- The trace is that of the setup, then calls, copies and comparisons, then the release of what
`malloc` has returned in the setup. -/
structure ReleasedInReverse (setup trace : List Event) : Prop where
  created : ∀ e ∈ setup, ∃ o heap size, e = .alloc o heap size
  distinct : (allocatedIn setup).Nodup
  reversed : ∃ used, (∀ e ∈ used, e.isUse) ∧
    trace = setup ++ used ++ (mallocsIn setup).reverse.map .free
  once : ∀ o size, .alloc o true size ∈ setup → trace.count (.free o) = 1
  never : ∀ o size, .alloc o false size ∈ setup → .free o ∉ trace

/-- The copies of the arguments in the runs from the setup block on. -/
structure OwnsStorage (W : World) (M' : Module) (h F : Nat) (H : Harness) : Prop where
  /-- Two copies at two positions share storage only if there is no second copy to be had. -/
  shared : ∀ s, Steps (step W M' F h) (startAt H.base) s → s.block ≠ H.id .setup →
    ∀ (i j : Nat) (t u : Slot), H.slots[i]? = some t → H.slots[j]? = some u → ∀ k k' : Copy,
      ∃ o o', (t.valueOf H.base H.dl k).eval s.env = some (.ptr o) ∧
        (u.valueOf H.base H.dl k').eval s.env = some (.ptr o') ∧
        (o = o' ↔ i = j ∧ (k = k' ∨ isOutbound t.spec.direction = false))
  released : ∀ s, Steps (step W M' F h) (startAt H.base) s → s.block = H.id .exit →
    ∃ s₀, step W M' F h (startAt H.base) = .inl s₀ ∧ Steps (step W M' F h) s₀ s ∧
      ReleasedInReverse s₀.core.trace s.core.trace

section
variable {slots : List Slot} {dl : DataLayout} {n : IterationsNumTy}

theorem allocatedIn_allocs (ps : List (Slot × Copy)) :
    allocatedIn (ps.map (allocOf dl n)) = ps.map ownedObj := by
  rw [allocatedIn, List.filterMap_map, ← List.filterMap_eq_map]
  rfl

theorem mallocsIn_allocs (ps : List (Slot × Copy)) :
    mallocsIn (ps.map (allocOf dl n)) = (ps.filter (·.1.isPtr)).map ownedObj := by
  induction ps with
  | nil => rfl
  | cons p ps ih =>
    rw [mallocsIn] at ih ⊢
    rw [List.map_cons, List.filterMap_cons, List.filter_cons, ih]
    cases hptr : p.1.isPtr <;> simp [allocOf, hptr]

theorem allocOf_heap {params : List Param} {specs : List ArgSpec} (hl : IsLayout params specs slots)
    {o size : Nat} {heap : Bool}
    (he : .alloc o heap size ∈ (ownedCopies slots).map (allocOf dl n)) :
    o ∈ heapObjs slots ↔ heap = true := by
  obtain ⟨p, hp, he⟩ := List.mem_map.1 he
  obtain ⟨rfl, rfl, -⟩ : ownedObj p = o ∧ p.1.isPtr = heap ∧ _ := by simpa [allocOf] using he
  constructor
  · intro ho
    obtain ⟨q, hq, hqo⟩ := List.mem_map.1 ho
    obtain ⟨hq, hptr⟩ := List.mem_filter.1 hq
    rwa [← List.inj_on_of_nodup_map hl.nodup_ownedObj hq hp hqo]
  · exact fun hptr => List.mem_map.2 ⟨p, List.mem_filter.2 ⟨hp, hptr⟩, rfl⟩

theorem releasedInReverse {params : List Param} {specs : List ArgSpec}
    (hl : IsLayout params specs slots) {es : List Event} (hes : ∀ e ∈ es, e.isUse) :
    ReleasedInReverse ((ownedCopies slots).map (allocOf dl n))
      ((ownedCopies slots).map (allocOf dl n) ++ es ++ (heapObjs slots).reverse.map .free) := by
  have hfree : ∀ o, .free o ∉ (ownedCopies slots).map (allocOf dl n) ++ es := fun o ho => by
    rcases List.mem_append.1 ho with ho | ho
    · obtain ⟨p, -, hp⟩ := List.mem_map.1 ho
      cases hp
    · cases hes _ ho
  have hdistinct : (allocatedIn ((ownedCopies slots).map (allocOf dl n))).Nodup := by
    rw [allocatedIn_allocs]
    exact hl.nodup_ownedObj
  refine ⟨fun e he => ?_, hdistinct, ⟨es, hes, ?_⟩, fun o size he => ?_, fun o size he ho => ?_⟩
  · obtain ⟨p, -, rfl⟩ := List.mem_map.1 he
    exact ⟨_, _, _, rfl⟩
  · rw [mallocsIn_allocs]
    rfl
  · have hheap : (heapObjs slots).Nodup := hl.nodup_ownedObj.sublist (List.filter_sublist.map _)
    have hinj : Function.Injective Event.free := fun a b hab => by cases hab; rfl
    rw [List.count_append, List.count_eq_zero.2 (hfree o), Nat.zero_add,
      List.count_map_of_injective _ _ hinj, List.count_reverse,
      List.count_eq_one_of_mem hheap ((allocOf_heap hl he).2 rfl)]
  · rcases List.mem_append.1 ho with ho | ho
    · exact hfree o ho
    · obtain ⟨o', ho', heq⟩ := List.mem_map.1 ho
      cases heq
      cases (allocOf_heap hl he).1 (List.mem_reverse.1 ho')

end

section
variable {h F : Nat} {f : Function} {n : IterationsNumTy} {specs : List ArgSpec} {H : Harness}
  {M' : Module}

theorem HarnessAt.ownsStorage (hat : HarnessAt h F f n specs H M')
    (hF : M'.sig[F]? = some (f.name, f.getFunctionType)) (W : World) :
    OwnsStorage W M' h F H := by
  refine ⟨fun s hs hsetup i j t u ht hu k k' => ?_, fun s hs hexit => ?_⟩
  · have hp := hat.pointers hF hs hsetup
    exact ⟨_, _, hp.eval hat.layout H.dl (List.mem_of_getElem? ht) k,
      hp.eval hat.layout H.dl (List.mem_of_getElem? hu) k', hat.layout.obj_eq_iff ht hu k k'⟩
  · obtain ⟨env, c, h1, -, htr⟩ := hat.setup_allocs (W := W) fun s hs => hat.malloc_ne hF hs
    have hne : H.id .setup ≠ H.id .exit := by simp [Harness.id]
    rcases hat.owned hF hs with rfl | hs' | hs'
    · exact absurd hexit hne
    · obtain ⟨B, hB, hsB, -, hB'⟩ := hs'.at_block
      exact absurd (Harness.id_inj hB (show H.Valid .exit from trivial) (hsB.symm.trans hexit)) hB'
    · obtain ⟨es, htrace, hes⟩ := hs'.trace
      refine ⟨_, h1, ?_, ?_⟩
      · cases hs with
        | refl => exact absurd hexit hne
        | head h1' hs =>
          rw [h1] at h1'
          cases h1'
          exact hs
      · rw [htr, htrace]
        exact releasedInReverse hat.layout hes

end

/-- Who owns the storage in the harness of a function. -/
theorem storage_owned {senc : SymbolicEncapsulation} {M M' : Module} {F : Nat} {f : Function}
    {n : IterationsNumTy} {specs : List ArgSpec} (hf : M.functions[F]? = some f)
    (hdef : f.isDeclaration = false) (hok : senc.encapsulate M F n specs = .ok (M', true)) :
    ∃ h H, HarnessBuilt senc M F f n specs M' h H ∧ ∀ W : World, OwnsStorage W M' h F H := by
  obtain ⟨-, -, h, H, hb⟩ := encapsulate_of_ok hf hdef hok
  exact ⟨h, H, hb, fun W => hb.here.ownsStorage (hb.sig_encapsulated hf).2.2 W⟩

theorem storage_owned_buffer : ∃ (M' : Module) (h : Nat) (H : Harness),
    SymbolicEncapsulation.encapsulate {} (bufferModule .int32Ty) 0 2
      [⟨"i", .inbound, false⟩, ⟨"p", .both, true⟩] = .ok (M', true) ∧
    OwnsStorage World.idle M' h 0 H := by
  have hf : (bufferModule .int32Ty).functions[0]? = some (bufferFunction .int32Ty) := rfl
  obtain ⟨M', hok⟩ := encapsulate_buffer (.inr rfl) [⟨"i", .inbound, false⟩, ⟨"p", .both, true⟩]
  obtain ⟨h, H, -, howns⟩ := storage_owned hf rfl hok
  exact ⟨M', h, H, hok, howns World.idle⟩

end Ephippion
