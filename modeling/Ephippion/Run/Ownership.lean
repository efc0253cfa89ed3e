import Ephippion.Run.CallSites
import Ephippion.Run.Harness

/-!
# Who owns the storage

`ownedCopies` are the copies that are objects of their own, in the order of their creation: the
setup block allocates exactly these, the `i`-th as object `i` (`HarnessAt.setup_allocs`), the blocks
between the setup and the teardown only use them (`HarnessAt.uses`), and the teardown frees those on
the heap in the reverse order (`HarnessAt.teardown_frees`). Together: what holds at every state of a
run (`HarnessAt.owned`).
-/

namespace Ephippion

open Machine

/-! ## The copies that are objects -/

/-- The copies that are created for a slot. -/
def Slot.ownedCopies (s : Slot) : List (Slot × Copy) :=
  if s.outbound then [(s, .first), (s, .second)] else [(s, .first)]

def ownedCopies (slots : List Slot) : List (Slot × Copy) := slots.flatMap Slot.ownedCopies

def ownedObj (p : Slot × Copy) : Nat := p.1.obj p.2

/-- The objects on the heap, in the order of their creation. -/
def heapObjs (slots : List Slot) : List Nat :=
  ((ownedCopies slots).filter (·.1.isPtr)).map ownedObj

namespace Slot

variable (s : Slot)

def nameOf : Copy → String
  | .first => s.name1
  | .second => s.name2

theorem setupInstrs_eq (dl : DataLayout) (n : IterationsNumTy) (malloc : FuncRef) :
    s.setupInstrs dl n malloc =
      s.ownedCopies.map fun p => ⟨p.1.setupOp dl n malloc, p.1.nameOf p.2⟩ := by
  unfold setupInstrs ownedCopies
  split <;> rfl

theorem heapValues_eq (setup : Nat) (dl : DataLayout) : s.heapValues setup dl =
    (s.ownedCopies.filter (·.1.isPtr)).map fun p => p.1.valueOf setup dl p.2 := by
  unfold heapValues ownedCopies
  cases hptr : s.isPtr <;> cases hout : s.outbound <;> simp [hptr, valueOf]

end Slot

theorem mem_ownedCopies {slots : List Slot} {p : Slot × Copy} (hp : p ∈ ownedCopies slots) :
    p.1 ∈ slots := by
  obtain ⟨s, hs, hp⟩ := List.mem_flatMap.1 hp
  unfold Slot.ownedCopies at hp
  split at hp
  · simp only [List.mem_cons, List.not_mem_nil, or_false] at hp
    rcases hp with rfl | rfl <;> exact hs
  · rw [List.mem_singleton.1 hp]
    exact hs

theorem IsLayout.map_ownedObj {params : List Param} {specs : List ArgSpec} {slots : List Slot}
    (hl : IsLayout params specs slots) :
    (ownedCopies slots).map ownedObj = List.range (slotsWidth slots) := by
  have hat : ∀ (l : List Slot) (k : Nat),
      (∀ j s, l[j]? = some s → s.idx = k + slotsWidth (l.take j)) →
      (ownedCopies l).map ownedObj = List.range' k (slotsWidth l) := by
    intro l
    induction l with
    | nil => intro _ _; rfl
    | cons s l ih =>
      intro k hidx
      have hs : s.idx = k := by simpa [slotsWidth] using hidx 0 s rfl
      have hrest := ih (k + s.width) fun j s' hs' => by
        have := hidx (j + 1) s' hs'
        rw [List.take_succ_cons] at this
        simp only [slotsWidth, List.map_cons, List.sum_cons] at this ⊢
        omega
      have hhead : s.ownedCopies.map ownedObj = List.range' k s.width := by
        unfold Slot.ownedCopies Slot.width
        cases hout : s.outbound <;> simp [ownedObj, Slot.obj, Slot.idx2, hout, hs, List.range']
      rw [ownedCopies, List.flatMap_cons, List.map_append, hhead]
      have hwidth : slotsWidth (s :: l) = s.width + slotsWidth l := by simp [slotsWidth]
      rw [ownedCopies] at hrest
      rw [hrest, hwidth, List.range'_append_1]
  rw [List.range_eq_range']
  exact hat slots 0 fun j s hs => by rw [(hl.at_pos j s hs).2.2, Nat.zero_add]

theorem IsLayout.nodup_ownedObj {params : List Param} {specs : List ArgSpec} {slots : List Slot}
    (hl : IsLayout params specs slots) : ((ownedCopies slots).map ownedObj).Nodup := by
  rw [hl.map_ownedObj]
  exact List.nodup_range

/-- Copies share an object only if there is but one. -/
theorem IsLayout.obj_eq_iff {params : List Param} {specs : List ArgSpec} {slots : List Slot}
    (hl : IsLayout params specs slots) {i j : Nat} {s t : Slot} (hs : slots[i]? = some s)
    (ht : slots[j]? = some t) (k k' : Copy) :
    s.obj k = t.obj k' ↔ i = j ∧ (k = k' ∨ isOutbound s.spec.direction = false) := by
  constructor
  · intro he
    by_cases hst : s = t
    · subst hst
      refine ⟨(hl.at_pos i s hs).1.symm.trans (hl.at_pos j s ht).1, ?_⟩
      cases hout : isOutbound s.spec.direction with
      | false => exact .inr rfl
      | true =>
        have hne := s.obj_ne hout
        cases k <;> cases k' <;> first | exact .inl rfl | exact absurd he hne |
          exact absurd he.symm hne
    · exact absurd he (hl.obj_ne (List.mem_of_getElem? hs) (List.mem_of_getElem? ht) hst k k')
  · rintro ⟨rfl, hor⟩
    obtain rfl := Option.some.inj (hs.symm.trans ht)
    rcases hor with rfl | hout
    · rfl
    · rw [s.obj_of_not_outbound hout, s.obj_of_not_outbound hout]

/-! ## The setup -/

/-- The event of a copy's creation. -/
def allocOf (dl : DataLayout) (n : IterationsNumTy) (p : Slot × Copy) : Event :=
  .alloc (ownedObj p) p.1.isPtr (p.1.size dl n)

/-- Copies are created one after the other, each as the object of its number. -/
theorem allocs_run (W : World) {M : Module} (F b prev : Nat) {dl : DataLayout}
    {n : IterationsNumTy} {malloc : FuncRef} (hdl : M.dataLayout = dl)
    (hname : malloc.name = "malloc") :
    ∀ (ps : List (Slot × Copy)) (pos : Nat) (env : InstRef → Option RVal) (c : Core),
      (∀ p ∈ ps, p.1.isPtr → malloc.index ≠ F) →
      ps.map ownedObj = List.range' pos ps.length → c.mem.length = pos →
      (∀ i < pos, env ⟨b, i⟩ = some (.ptr i)) →
      ∃ env' c', Runs W M F b prev
          (ps.map fun p => ⟨p.1.setupOp dl n malloc, p.1.nameOf p.2⟩) pos env c env' c' ∧
        (∀ i < pos + ps.length, env' ⟨b, i⟩ = some (.ptr i)) ∧
        c'.trace = c.trace ++ ps.map (allocOf dl n)
  | [], pos, env, c, _, _, _, henv => ⟨env, c, .nil .., henv, (List.append_nil _).symm⟩
  | p :: ps, pos, env, c, hne, hobj, hlen, henv => by
    rw [List.map_cons, List.length_cons, List.range'_succ, List.cons.injEq] at hobj
    have hterm : (p.1.setupOp dl n malloc).isTerminator = false := by
      unfold Slot.setupOp
      split <;> rfl
    have hop : execOp W M F b prev env c (p.1.setupOp dl n malloc) = _ :=
      execOp_setupOp hdl hname (hne p List.mem_cons_self)
    obtain ⟨env', c', hrun, henv', htr⟩ := allocs_run W F b prev hdl hname ps (pos + 1)
      (setValue env ⟨b, pos⟩ (some (.ptr c.mem.length))) (c.alloc W p.1.isPtr (p.1.size dl n))
      (fun q hq => hne q (List.mem_cons_of_mem _ hq))
      hobj.2 (by simp [Core.alloc, Core.log, ObjMem.alloc, hlen]) (fun i hi => by
        rcases Nat.lt_or_eq_of_le (Nat.le_of_lt_succ hi) with hlt | rfl
        · rw [setValue_ne (by simp; omega), henv i hlt]
        · rw [setValue_same, hlen])
    refine ⟨env', c', .cons hterm hop hrun, fun i hi => henv' i ?_, ?_⟩
    · rw [List.length_cons] at hi
      omega
    · rw [htr, Core.alloc, Core.log, hlen, ← hobj.1, List.append_assoc]
      rfl

section
variable {h F : Nat} {f : Function} {n : IterationsNumTy} {specs : List ArgSpec} {H : Harness}
  {M' : Module} {W : World}

theorem HarnessAt.setup_allocs (hat : HarnessAt h F f n specs H M')
    (hne : ∀ s ∈ H.slots, s.isPtr → H.malloc.index ≠ F) :
    ∃ env c, step W M' F h (startAt H.base) = .inl ⟨H.id .setup, H.id .seSetup, env, c⟩ ∧
      Pointers H.base H.slots env ∧ c.trace = (ownedCopies H.slots).map (allocOf H.dl H.n) := by
  have hobj := hat.layout.map_ownedObj
  have hlen : (ownedCopies H.slots).length = slotsWidth H.slots := by
    have := congrArg List.length hobj
    rwa [List.length_map, List.length_range] at this
  obtain ⟨env, c, hrun, henv, htr⟩ := allocs_run W F H.base H.base (n := H.n) hat.dl_eq.symm
    hat.malloc_declared.name_eq (ownedCopies H.slots) 0 (fun _ => none) ⟨[], []⟩
    (fun p hp => hne _ (mem_ownedCopies hp))
    (by rw [hobj, hlen, List.range_eq_range']) rfl (fun i hi => absurd hi (Nat.not_lt_zero i))
  have hcode : H.slots.flatMap (Slot.setupInstrs H.dl H.n H.malloc) =
      (ownedCopies H.slots).map fun p => ⟨p.1.setupOp H.dl H.n H.malloc, p.1.nameOf p.2⟩ := by
    rw [ownedCopies, List.map_flatMap]
    exact congrArg (H.slots.flatMap ·) (funext fun s => s.setupInstrs_eq H.dl H.n H.malloc)
  refine ⟨env, c, ?_, fun i hi => henv i (by omega), htr⟩
  have hstep : step W M' F h (startAt H.base) = _ := hat.step_eq (B := .setup) trivial W _ _ _
  rw [hstep, Harness.instrs, hcode]
  exact hrun.execInstrs _

/-! ## Between setup and teardown -/

/-- Neither an allocation nor a release. -/
def Event.isUse : Event → Bool
  | .alloc _ _ _ | .free _ => false
  | _ => true

/-- The library functions a block calls. -/
def HBlock.libraries : HBlock → List String
  | .setup => ["malloc"]
  | .seSetup => ["klee_make_symbolic", "memcpy"]
  | .cond _ => ["memcmp"]
  | .fail _ => ["__assert_fail"]
  | .teardown => ["free"]
  | _ => []

theorem HarnessAt.callsLibrary (hat : HarnessAt h F f n specs H M') {B : HBlock} (hB : H.Valid B)
    {i : Instr} (hi : i ∈ H.instrs B) {name : String} (hop : i.op.CallsLibrary F name) :
    name ∈ B.libraries := by
  obtain ⟨callee, args, hop, hne, rfl⟩ := hop
  rcases Harness.callSite_of_mem hB hi hop with ⟨k, rfl⟩ | hc
  · rw [(Harness.call_body hi hop).1, hat.func_eq] at hne
    exact absurd rfl hne
  · cases hc with
    | malloc => simp [HBlock.libraries, hat.malloc_declared.name_eq]
    | symbolize1 | symbolize2 => simp [HBlock.libraries, hat.symbolize_declared.name_eq]
    | memcpy => simp [HBlock.libraries, hat.memcpy_declared.name_eq]
    | memcmp => simp [HBlock.libraries, hat.memcmp_declared.name_eq]
    | assert => simp [HBlock.libraries, hat.assert_declared.name_eq]
    | free => simp [HBlock.libraries, hat.free_declared.name_eq]

theorem HarnessAt.uses (hat : HarnessAt h F f n specs H M') {B : HBlock} (hB : H.Valid B)
    (hsetup : B ≠ .setup) (htear : B ≠ .teardown) {s : Config} (hs : s.block = H.id B) :
    ∃ es, (coreOf (step W M' F h s)).trace = s.core.trace ++ es ∧ ∀ e ∈ es, e.isUse := by
  obtain ⟨es, htr, hes⟩ := step_emits W M' F h s
  refine ⟨es, htr, fun e he => ?_⟩
  obtain ⟨i, hi, env', -, hemit⟩ := hes e he
  rw [hs, hat.code B hB] at hi
  cases e with
  | alloc o heap size =>
    cases heap with
    | false =>
      obtain ⟨t, a, hop⟩ := hemit
      exact absurd (Harness.alloca_setup hB hi hop) hsetup
    | true =>
      have hmem := hat.callsLibrary hB hi hemit
      cases B <;> first | exact absurd rfl hsetup | simp [HBlock.libraries] at hmem
  | free o =>
    have hmem := hat.callsLibrary hB hi hemit
    cases B <;> first | exact absurd rfl htear | simp [HBlock.libraries] at hmem
  | _ => rfl

/-! ## The teardown -/

/-- If the releases of copies come to their end, each has released its object. -/
theorem frees_trace {M : Module} {b prev d base : Nat} {dl : DataLayout} {free : FuncRef}
    {params : List Param} {slots : List Slot} (hl : IsLayout params specs slots)
    (hname : free.name = "free") (hb : base ≠ b) :
    ∀ (ps : List (Slot × Copy)) {pos : Nat} {env : InstRef → Option RVal} {c : Core} {s' : Config},
      (∀ p ∈ ps, p.1 ∈ slots) → Pointers base slots env →
      execInstrs W M F b prev ((ps.map fun p => ⟨.call free [p.1.valueOf base dl p.2], ""⟩) ++
        [⟨.br d, ""⟩]) pos env c = .inl s' →
      s'.core.trace = c.trace ++ ps.map fun p => .free (ownedObj p)
  | [], pos, env, c, s', _, _, h => by
    cases h
    exact (List.append_nil _).symm
  | p :: ps, pos, env, c, s', hps, hp, h => by
    have hv := hp.eval hl dl (hps p List.mem_cons_self) p.2
    rw [List.map_cons, List.cons_append, execInstrs_cons rfl] at h
    have hop : execOp W M F b prev env c (.call free [p.1.valueOf base dl p.2]) = .stuck ∨
        ∃ c', execOp W M F b prev env c (.call free [p.1.valueOf base dl p.2]) = .value none c' ∧
          c'.trace = c.trace ++ [.free (ownedObj p)] := by
      by_cases hF : free.index = F
      · exact .inl (by simp [execOp, hv, hF, Core.call, OpResult.ofCore])
      · rw [execOp_free prev hname hF hv, Core.free]
        cases ObjMem.free c.mem (p.1.obj p.2) with
        | none => exact .inl rfl
        | some m => exact .inr ⟨c.log m (.free (ownedObj p)), rfl, rfl⟩
    rcases hop with hop | ⟨c', hop, htr⟩
    · rw [hop] at h
      cases h
    · rw [hop] at h
      have hp' : Pointers base slots (setValue env ⟨b, pos⟩ none) :=
        hp.congr fun i => setValue_ne (by simp [hb]) none
      rw [frees_trace hl hname hb ps (fun q hq => hps q (List.mem_cons_of_mem _ hq)) hp' h, htr,
        List.append_assoc]
      rfl

theorem Harness.freeInstrs_owned (H : Harness) : H.freeInstrs =
    ((ownedCopies H.slots).filter (·.1.isPtr)).reverse.map fun p =>
      ⟨.call H.free [p.1.valueOf H.base H.dl p.2], ""⟩ := by
  have hvals : H.slots.flatMap (Slot.heapValues H.base H.dl) =
      ((ownedCopies H.slots).filter (·.1.isPtr)).map fun p => p.1.valueOf H.base H.dl p.2 := by
    rw [ownedCopies, List.filter_flatMap, List.map_flatMap]
    exact congrArg (H.slots.flatMap ·) (funext fun s => s.heapValues_eq H.base H.dl)
  rw [Harness.freeInstrs, hvals, ← List.map_reverse, List.map_map]
  rfl

theorem HarnessAt.teardown_frees (hat : HarnessAt h F f n specs H M') {s s' : Config}
    (hs : s.block = H.id .teardown) (hp : Pointers H.base H.slots s.env)
    (hstep : step W M' F h s = .inl s') :
    s'.core.trace = s.core.trace ++ (heapObjs H.slots).reverse.map .free := by
  rw [step, hs, hat.code .teardown trivial, Harness.instrs, H.freeInstrs_owned] at hstep
  have htr := frees_trace hat.layout hat.free_declared.name_eq (by simp [Harness.id]) _
    (fun p hp => mem_ownedCopies (List.mem_of_mem_filter (List.mem_reverse.1 hp))) hp hstep
  rw [htr, heapObjs, ← List.map_reverse, List.map_map]
  rfl

/-! ## Runs -/

/-- Between setup and teardown: what is allocated is used. -/
structure Holding (H : Harness) (s : Config) : Prop where
  at_block : ∃ B, H.Valid B ∧ s.block = H.id B ∧ B ≠ .setup ∧ B ≠ .exit
  pointers : Pointers H.base H.slots s.env
  trace : ∃ es, s.core.trace = (ownedCopies H.slots).map (allocOf H.dl H.n) ++ es ∧
    ∀ e ∈ es, e.isUse

/-- At the exit: what was allocated on the heap is free. -/
structure Released (H : Harness) (s : Config) : Prop where
  at_exit : s.block = H.id .exit
  pointers : Pointers H.base H.slots s.env
  trace : ∃ es, s.core.trace = (ownedCopies H.slots).map (allocOf H.dl H.n) ++ es ++
    (heapObjs H.slots).reverse.map .free ∧ ∀ e ∈ es, e.isUse

theorem Harness.teardown_of_exit {B : HBlock} (h : .exit ∈ H.succs B) : B = .teardown := by
  have hnext : ∀ j, .exit ≠ H.next j := fun j => by
    unfold Harness.next
    split <;> exact nofun
  cases B with
  | teardown => rfl
  | seStart => exact absurd (List.mem_singleton.1 h) (hnext 0)
  | cond j =>
    rcases List.mem_cons.1 h with h | h
    · exact absurd h (hnext _)
    · cases List.mem_singleton.1 h
  | _ => simp [Harness.succs] at h

theorem HarnessAt.holding_step (hat : HarnessAt h F f n specs H M') {s s' : Config}
    (hs : Holding H s) (hstep : step W M' F h s = .inl s') : Holding H s' ∨ Released H s' := by
  obtain ⟨B, hB, hsB, hsetup, hexit⟩ := hs.at_block
  obtain ⟨es, htr, hes⟩ := hs.trace
  obtain ⟨-, B', hB', hs'⟩ := hat.step_succ hB hsB hstep
  have hB'v := Harness.valid_succs hB hB'
  have hp : Pointers H.base H.slots s'.env := hs.pointers.congr fun i =>
    step_env hstep fun he => hsetup (Harness.id_inj hB trivial (hsB.symm.trans he.symm))
  have hsetup' : B' ≠ .setup := by
    rintro rfl
    have := Harness.rank_succs hB hB'
    cases B <;> simp [Harness.rank] at this hsetup
  by_cases htear : B = .teardown
  · subst htear
    obtain rfl := List.mem_singleton.1 hB'
    refine .inr ⟨hs', hp, es, ?_, hes⟩
    rw [hat.teardown_frees hsB hs.pointers hstep, htr]
  · obtain ⟨es', htr', hes'⟩ := hat.uses (W := W) hB hsetup htear hsB
    rw [hstep] at htr'
    have hexit' : B' ≠ .exit := by
      rintro rfl
      exact htear (Harness.teardown_of_exit hB')
    refine .inl ⟨⟨B', hB'v, hs', hsetup', hexit'⟩, hp, es ++ es', ?_,
      List.forall_mem_append.2 ⟨hes, hes'⟩⟩
    rw [← List.append_assoc, ← htr]
    exact htr'

/-- Every state of a run is one of the three. -/
theorem HarnessAt.owned (hat : HarnessAt h F f n specs H M')
    (hF : M'.sig[F]? = some (f.name, f.getFunctionType)) {s : Config}
    (hs : Steps (step W M' F h) (startAt H.base) s) :
    s = startAt H.base ∨ Holding H s ∨ Released H s := by
  refine hs.inv (P := fun s => s = startAt H.base ∨ Holding H s ∨ Released H s)
    (fun s s' hs hstep => ?_) (.inl rfl)
  rcases hs with rfl | hs | hs
  · obtain ⟨env, c, h1, hp, htr⟩ := hat.setup_allocs (W := W) fun s hs => hat.malloc_ne hF hs
    rw [h1] at hstep
    cases hstep
    exact .inr (.inl ⟨⟨.seSetup, trivial, rfl, by decide, by decide⟩, hp, [],
      by rw [htr, List.append_nil], nofun⟩)
  · exact .inr (hat.holding_step hs hstep)
  · obtain ⟨prev, block, env, c⟩ := s
    obtain rfl := hs.at_exit
    rw [hat.exit_step] at hstep
    cases hstep

theorem HarnessAt.pointers (hat : HarnessAt h F f n specs H M')
    (hF : M'.sig[F]? = some (f.name, f.getFunctionType)) {s : Config}
    (hs : Steps (step W M' F h) (startAt H.base) s) (hsetup : s.block ≠ H.id .setup) :
    Pointers H.base H.slots s.env := by
  rcases hat.owned hF hs with rfl | hs | hs
  · exact absurd rfl hsetup
  · exact hs.pointers
  · exact hs.pointers

theorem HarnessAt.allocs_prefix (hat : HarnessAt h F f n specs H M')
    (hF : M'.sig[F]? = some (f.name, f.getFunctionType)) {s : Config}
    (hs : Steps (step W M' F h) (startAt H.base) s) (hsetup : s.block ≠ H.id .setup) :
    (ownedCopies H.slots).map (allocOf H.dl H.n) <+: s.core.trace := by
  rcases hat.owned hF hs with rfl | hs | hs
  · exact absurd rfl hsetup
  · obtain ⟨es, htr, -⟩ := hs.trace
    exact ⟨es, htr.symm⟩
  · obtain ⟨es, htr, -⟩ := hs.trace
    exact ⟨es ++ _, by rw [htr, List.append_assoc]⟩

end

end Ephippion
