import Ephippion.Theorems.Accounting
import Ephippion.Theorems.Specs
import Mathlib.Algebra.Order.BigOperators.Group.List
import Mathlib.Algebra.Order.Group.Nat

/-!
# What was never set

An element of a report that cannot be decoded leaves its specification as it was on the stack. A run
does not depend on what that was exactly if every element at the position of a parameter can be
decoded, and if one past the parameters does not decide whether a harness is asked for
(`run_unset_iff`). Where it does depend, the numbers of the harness's blocks differ.
-/

namespace Ephippion

open SymbolicEncapsulation

/-- What was never set is not read of the elements of a report on a function of `k` parameters: the
ones at its parameters can be decoded, and so can all others unless a harness is asked for
anyway. -/
structure SetAsNeeded (opts : Options) (k : Nat) (elems : List Json) : Prop where
  parameters : ∀ i < k, ∀ el, elems[i]? = some el → (decodeFields el).isSome
  filter : opts.forceEncapsulation = true ∨
    (∃ el ∈ elems, ∃ d b, decodeFields el = some (d, b) ∧ isOutbound d = true) ∨
      ∀ el ∈ elems, (decodeFields el).isSome

/-- The reports on functions of the work list are such. -/
def AllSetAsNeeded (opts : Options) (parse : String → Option Json) (M : Module)
    (entries : List DirEntry) : Prop :=
  ∀ e ∈ entries, ∀ F elems f, ReportsOn opts parse (workList opts M) M e F elems →
    M.functions[F]? = some f → SetAsNeeded opts f.params.length elems

/-! ## Decoded elements -/

section
variable {opts : Options} {parse : String → Option Json} {works : List Nat} {M : Module}
  {e : DirEntry} {u u' : Nat → ArgDirection × Bool} {elems : List Json} {el : Json} {i k : Nat}

theorem decodeSpecs_decoded (he : elems[i]? = some el) {d : ArgDirection} {b : Bool}
    (hd : decodeFields el = some (d, b)) (u : Nat → ArgDirection × Bool) :
    (decodeSpecs u elems)[i]? = some ⟨"", d, b⟩ := by
  rw [getElem?_decodeSpecs, he, Option.map_some, fromJSON_eq, hd]

theorem decodeSpecs_unset (he : elems[i]? = some el) (hd : decodeFields el = none)
    (u : Nat → ArgDirection × Bool) :
    (decodeSpecs u elems)[i]? = some ⟨"", (u i).1, (u i).2⟩ := by
  rw [getElem?_decodeSpecs, he, Option.map_some, fromJSON_eq, hd]

theorem decodeSpecs_congr (he : ∀ el, elems[i]? = some el → (decodeFields el).isSome)
    (u u' : Nat → ArgDirection × Bool) :
    (decodeSpecs u elems)[i]? = (decodeSpecs u' elems)[i]? := by
  cases hel : elems[i]? with
  | none => rw [getElem?_decodeSpecs, getElem?_decodeSpecs, hel, Option.map_none, Option.map_none]
  | some el =>
    obtain ⟨⟨d, b⟩, hd⟩ := Option.isSome_iff_exists.1 (he el hel)
    rw [decodeSpecs_decoded hel hd, decodeSpecs_decoded hel hd]

theorem SetAsNeeded.specsAgree (h : SetAsNeeded opts k elems) (u u' : Nat → ArgDirection × Bool) :
    SpecsAgree k (decodeSpecs u elems) (decodeSpecs u' elems) := by
  apply SpecsAgree.of_specAt
  intro i hi
  rw [specAt, specAt, decodeSpecs_congr (h.parameters i hi) u u']

theorem SetAsNeeded.asks (h : SetAsNeeded opts k elems) (u u' : Nat → ArgDirection × Bool) :
    (!(decodeSpecs u elems).any (fun e => isOutbound e.direction) && !opts.forceEncapsulation) =
      (!(decodeSpecs u' elems).any (fun e => isOutbound e.direction) &&
        !opts.forceEncapsulation) := by
  rcases h.filter with hf | ⟨el, hel, d, b, hd, hout⟩ | hall
  · simp [hf]
  · obtain ⟨i, hi⟩ := List.getElem?_of_mem hel
    have hany : ∀ u, (decodeSpecs u elems).any (fun e => isOutbound e.direction) = true := fun u =>
      List.any_eq_true.2 ⟨_, List.mem_of_getElem? (decodeSpecs_decoded hi hd u), hout⟩
    rw [hany, hany]
  · have hsame : decodeSpecs u elems = decodeSpecs u' elems := List.ext_getElem? fun i =>
      decodeSpecs_congr (fun el hel => hall el (List.mem_of_getElem? hel)) u u'
    rw [hsame]

theorem readReport_unset (h : ∀ F elems, ¬ ReportsOn opts parse works M e F elems)
    (u u' : Nat → ArgDirection × Bool) :
    readReport opts parse u works M e = readReport opts parse u' works M e := by
  cases hr : e.isReport opts with
  | false => rw [readReport_skip (.inl hr), readReport_skip (.inl hr)]
  | true =>
    cases ht : e.text with
    | none => rw [readReport_skip (.inr ht), readReport_skip (.inr ht)]
    | some text =>
      rw [readReport_of_text hr ht, readReport_of_text hr ht]
      cases hp : parse text with
      | none => rfl
      | some v =>
        dsimp only
        by_cases hv : ∃ o x, v = .object o ∧ JsonObject.getString o "func" = some x
        · obtain ⟨o, x, rfl, hx⟩ := hv
          by_cases hF : ∃ ref, M.getFunction x = some ref ∧ ref.index ∈ works
          · obtain ⟨ref, h1, h2⟩ := hF
            rw [decodeReport_works hx h1 h2, decodeReport_works hx h1 h2]
            cases ha : Json.argspecs (.object o) with
            | none => rfl
            | some elems =>
              exact (h ref.index elems
                ⟨hr, ⟨text, o, x, ref, ⟨ht, hp⟩, hx, ⟨h1, rfl⟩, ha⟩, h2⟩).elim
          · rw [decodeReport_other hx fun ref h1 h2 => hF ⟨ref, h1, h2⟩,
              decodeReport_other hx fun ref h1 h2 => hF ⟨ref, h1, h2⟩]
        · rw [decodeReport_malformed fun o x h1 h2 => hv ⟨o, x, h1, h2⟩,
            decodeReport_malformed fun o x h1 h2 => hv ⟨o, x, h1, h2⟩]

end

/-! ## Runs that do not depend on it -/

section
variable {opts : Options} {parse : String → Option Json} {M : Module} {entries : List DirEntry}
  {e : DirEntry} {s : Module × Bool}

theorem perform_unset (hl : Later {} M s.1) (hset : AllSetAsNeeded opts parse M entries)
    (he : e ∈ entries) (n : IterationsNumTy) (u u' : Nat → ArgDirection × Bool) :
    perform n s (readReport opts parse u (workList opts M) M e) =
      perform n s (readReport opts parse u' (workList opts M) M e) := by
  by_cases hon : ∃ F elems, ReportsOn opts parse (workList opts M) M e F elems
  · obtain ⟨F, elems, hon⟩ := hon
    obtain ⟨f, hf, hdef⟩ := mem_workList hon.mem
    have hneed := hset e he F elems f hon hf
    rw [hon.readReport u, hon.readReport u', hneed.asks u u']
    split
    · rfl
    · obtain ⟨f', hf', -, -, htype⟩ := hl.defined hf hdef
      have hlen : f'.params.length = f.params.length := by
        have h := congrArg (fun t => t.params.length) htype
        simpa [Function.getFunctionType] using h
      have hagree := hneed.specsAgree u u'
      rw [← hlen] at hagree
      simp only [perform, Except.ok_bind_eq, encapsulate_congr hf' hagree]
  · rw [readReport_unset (fun F elems h => hon ⟨F, elems, h⟩) u u']

theorem run_unset (hset : AllSetAsNeeded opts parse M entries) (unset unset' : Unset) :
    SymbolicEncapsulationPass.run opts parse unset (some entries) M =
      SymbolicEncapsulationPass.run opts parse unset' (some entries) M := by
  rw [run_plan, run_plan]
  unfold plan
  split
  · rfl
  · dsimp only
    rw [List.foldlM_map, List.foldlM_map]
    refine Except.foldlM_congr_inv (P := fun s => Later {} M s.1) (fun e he s hl => ?_)
      (fun e _ s s' hl hs => perform_later hl hs) (.refl {} M)
    exact perform_unset hl hset (List.fst_mem_of_mem_zipIdx he) _ _ _

end

/-! ## Counting blocks -/

theorem countP_lt_countP {α : Type} {p q : α → Bool} : ∀ {l : List α},
    (∀ a ∈ l, p a = true → q a = true) → (∃ a ∈ l, p a = false ∧ q a = true) →
      l.countP p < l.countP q
  | [], _, h => by
    obtain ⟨a, ha, -⟩ := h
    cases ha
  | b :: l, hpq, h => by
    obtain ⟨hb, hl⟩ := List.forall_mem_cons.1 hpq
    have hle : l.countP p ≤ l.countP q := List.countP_mono_left hl
    rw [List.countP_cons, List.countP_cons]
    obtain ⟨a, ha, hpa, hqa⟩ := h
    rcases List.mem_cons.1 ha with rfl | ha
    · rw [hpa, hqa, if_pos rfl, if_neg Bool.false_ne_true]
      omega
    · have hlt := countP_lt_countP hl ⟨a, ha, hpa, hqa⟩
      cases hp : p b with
      | false =>
        rw [if_neg Bool.false_ne_true]
        omega
      | true =>
        rw [hb hp, if_pos rfl]
        omega

/-- The blocks that an action adds to the function of that name. -/
def actionBlocks (M : Module) (x : String) : Except PassStop ReportAction → Nat
  | .ok (.encapsulate F argSpecs) =>
    if Request.harness {} M ⟨F, argSpecs⟩ = some x then Request.blocks M ⟨F, argSpecs⟩ else 0
  | _ => 0

theorem addedBlocks_requests {M : Module} {x : String}
    (actions : List (Except PassStop ReportAction)) :
    addedBlocks {} M (requests actions) x = (actions.map (actionBlocks M x)).sum := by
  induction actions with
  | nil => rfl
  | cons a actions ih =>
    rw [List.map_cons, List.sum_cons, ← ih]
    cases a with
    | error stop => exact (Nat.zero_add _).symm
    | ok action =>
      cases action with
      | skip => exact (Nat.zero_add _).symm
      | encapsulate F argSpecs =>
        have hcons : requests (.ok (.encapsulate F argSpecs) :: actions) =
            ⟨F, argSpecs⟩ :: requests actions := rfl
        rw [hcons, addedBlocks, addedBlocks, List.filter_cons, actionBlocks]
        by_cases hx : Request.harness {} M ⟨F, argSpecs⟩ = some x <;> simp [hx]

section
variable {opts : Options} {parse : String → Option Json} {M : Module} {entries : List DirEntry}
  {e : DirEntry} {F k : Nat} {f : Function} {elems : List Json} {x : String}

theorem take_padSpecs (specs : List ArgSpec) (k : Nat) :
    (padSpecs specs k).take k = (List.range k).map (specAt specs) := by
  apply List.ext_getElem?
  intro i
  rw [List.getElem?_take, List.getElem?_map]
  split
  · rename_i hi
    rw [getElem?_padSpecs hi, List.getElem?_range hi, Option.map_some]
  · rename_i hi
    rw [List.getElem?_eq_none (by simpa using hi), Option.map_none]

theorem Request.blocks_eq (hf : M.functions[F]? = some f) (specs : List ArgSpec) :
    Request.blocks M ⟨F, specs⟩ = 18 + 2 * (List.range f.params.length).countP fun i =>
      isOutbound (specAt specs i).direction := by
  have hlen : ((padSpecs specs f.params.length).take f.params.length).length ≤
      f.params.length := List.length_take_le ..
  have hcount : (f.params.zip (padSpecs specs f.params.length)).countP
      (fun a => isOutbound a.2.direction) =
        (((padSpecs specs f.params.length).take f.params.length).countP
          fun s => isOutbound s.direction) := by
    rw [← zip_take_length]
    conv => rhs; rw [← List.map_snd_zip hlen, List.countP_map]
    rfl
  simp only [Request.blocks, hf, hcount, take_padSpecs, List.countP_map, Function.comp_def]

/-! ## Runs that depend on it -/

/-- What was never set is inbound. -/
def unsetIn : Nat → ArgDirection × Bool := fun _ => (.inbound, false)

/-- What was never set is outbound. -/
def unsetOut : Nat → ArgDirection × Bool := fun _ => (.outbound, false)

theorem specAt_unset (elems : List Json) (i : Nat)
    (h : isOutbound (specAt (decodeSpecs unsetIn elems) i).direction = true) :
    isOutbound (specAt (decodeSpecs unsetOut elems) i).direction = true := by
  cases hel : elems[i]? with
  | none => rwa [specAt, getElem?_decodeSpecs, hel] at h ⊢
  | some el =>
    cases hd : decodeFields el with
    | none =>
      rw [specAt, decodeSpecs_unset hel hd]
      exact (by decide : isOutbound .outbound = true)
    | some db =>
      rw [specAt, decodeSpecs_decoded hel hd] at h ⊢
      exact h

theorem any_unset (h : (decodeSpecs unsetIn elems).any (fun s => isOutbound s.direction) = true) :
    (decodeSpecs unsetOut elems).any (fun s => isOutbound s.direction) = true := by
  obtain ⟨s, hs, hout⟩ := List.any_eq_true.1 h
  obtain ⟨i, hi⟩ := List.getElem?_of_mem hs
  have hmore := specAt_unset elems i (by rw [specAt, hi]; exact hout)
  cases hs' : (decodeSpecs unsetOut elems)[i]? with
  | none =>
    rw [specAt, hs'] at hmore
    exact absurd hmore (by decide)
  | some s' =>
    rw [specAt, hs'] at hmore
    exact List.any_eq_true.2 ⟨s', List.mem_of_getElem? hs', hmore⟩

/-- With inbound specifications where nothing was set, an outbound one is a decoded one. -/
theorem exists_outbound
    (h : (decodeSpecs unsetIn elems).any (fun s => isOutbound s.direction) = true) :
    ∃ el ∈ elems, ∃ d b, decodeFields el = some (d, b) ∧ isOutbound d = true := by
  obtain ⟨s, hs, hout⟩ := List.any_eq_true.1 h
  obtain ⟨j, hj⟩ := List.getElem?_of_mem hs
  cases hel : elems[j]? with
  | none =>
    rw [getElem?_decodeSpecs, hel] at hj
    cases hj
  | some el =>
    cases hd : decodeFields el with
    | none =>
      rw [decodeSpecs_unset hel hd, Option.some.injEq] at hj
      rw [← hj] at hout
      exact absurd hout (by decide : ¬ isOutbound .inbound = true)
    | some db =>
      rw [decodeSpecs_decoded hel hd, Option.some.injEq] at hj
      rw [← hj] at hout
      exact ⟨el, List.mem_of_getElem? hel, db.1, db.2, hd, hout⟩

theorem any_unsetOut {i : Nat} {el : Json} (hel : elems[i]? = some el)
    (hd : decodeFields el = none) :
    (decodeSpecs unsetOut elems).any (fun s => isOutbound s.direction) = true :=
  List.any_eq_true.2 ⟨_, List.mem_of_getElem? (decodeSpecs_unset hel hd unsetOut),
    (by decide : isOutbound .outbound = true)⟩

theorem readReport_asks (hon : ReportsOn opts parse (workList opts M) M e F elems)
    {u : Nat → ArgDirection × Bool}
    (h : (decodeSpecs u elems).any (fun s => isOutbound s.direction) = true ∨
      opts.forceEncapsulation = true) :
    readReport opts parse u (workList opts M) M e = .ok (.encapsulate F (decodeSpecs u elems)) := by
  rw [hon.readReport]
  rcases h with h | h
  · rw [h]
    rfl
  · rw [h, Bool.not_true, Bool.and_false]
    rfl

theorem readReport_skips (hon : ReportsOn opts parse (workList opts M) M e F elems)
    {u : Nat → ArgDirection × Bool}
    (h : (decodeSpecs u elems).any (fun s => isOutbound s.direction) = false)
    (hforce : opts.forceEncapsulation = false) :
    readReport opts parse u (workList opts M) M e = .ok .skip := by
  rw [hon.readReport, h, hforce]
  rfl

theorem actionBlocks_encapsulate (hf : M.functions[F]? = some f) (specs : List ArgSpec) :
    actionBlocks M x (.ok (.encapsulate F specs)) =
      if harnessName {} f = x then 18 + 2 * (List.range f.params.length).countP fun i =>
        isOutbound (specAt specs i).direction else 0 := by
  rw [actionBlocks, Request.blocks_eq hf, Request.harness, hf, Option.map_some]
  simp only [Option.some.injEq]

theorem actionBlocks_le : actionBlocks M x (readReport opts parse unsetIn (workList opts M) M e) ≤
    actionBlocks M x (readReport opts parse unsetOut (workList opts M) M e) := by
  by_cases hon : ∃ F elems, ReportsOn opts parse (workList opts M) M e F elems
  · obtain ⟨F, elems, hon⟩ := hon
    obtain ⟨f, hf, -⟩ := mem_workList hon.mem
    by_cases hask : (decodeSpecs unsetIn elems).any (fun s => isOutbound s.direction) = true ∨
        opts.forceEncapsulation = true
    · rw [readReport_asks hon hask, readReport_asks hon (hask.imp_left any_unset),
        actionBlocks_encapsulate hf, actionBlocks_encapsulate hf]
      have hle := List.countP_mono_left (l := List.range f.params.length)
        fun i _ => specAt_unset elems i
      split
      · omega
      · exact Nat.le_refl _
    · rw [not_or, Bool.not_eq_true, Bool.not_eq_true] at hask
      rw [readReport_skips hon hask.1 hask.2]
      exact Nat.zero_le _
  · rw [readReport_unset (fun F elems h => hon ⟨F, elems, h⟩) unsetIn unsetOut]

/-- An element that cannot be decoded, at a parameter's position or where it decides. -/
theorem exists_unset {k : Nat} (hneed : ¬ SetAsNeeded opts k elems) :
    ∃ i el, elems[i]? = some el ∧ decodeFields el = none ∧
      (i < k ∨ opts.forceEncapsulation = false ∧
        (decodeSpecs unsetIn elems).any (fun s => isOutbound s.direction) = false) := by
  by_cases hparams : ∀ i < k, ∀ el, elems[i]? = some el → (decodeFields el).isSome
  · have hfilter : ¬ (opts.forceEncapsulation = true ∨ _) := fun h => hneed ⟨hparams, h⟩
    rw [not_or, not_or, Bool.not_eq_true] at hfilter
    obtain ⟨hforce, hno, hall⟩ := hfilter
    push Not at hall
    obtain ⟨el, hmem, hd⟩ := hall
    obtain ⟨i, hel⟩ := List.getElem?_of_mem hmem
    refine ⟨i, el, hel, by simpa using hd, .inr ⟨hforce, ?_⟩⟩
    rw [← Bool.not_eq_true]
    exact fun hany => hno (exists_outbound hany)
  · push Not at hparams
    obtain ⟨i, hi, el, hel, hd⟩ := hparams
    exact ⟨i, el, hel, by simpa using hd, .inl hi⟩

/-- A report of which something is read that was never set adds more. -/
theorem actionBlocks_lt (hon : ReportsOn opts parse (workList opts M) M e F elems)
    (hf : M.functions[F]? = some f) (hneed : ¬ SetAsNeeded opts f.params.length elems) :
    actionBlocks M (harnessName {} f) (readReport opts parse unsetIn (workList opts M) M e) <
      actionBlocks M (harnessName {} f)
        (readReport opts parse unsetOut (workList opts M) M e) := by
  obtain ⟨i, el, hel, hd, hwhy⟩ := exists_unset hneed
  rw [readReport_asks hon (.inl (any_unsetOut hel hd)), actionBlocks_encapsulate hf, if_pos rfl]
  by_cases hask : (decodeSpecs unsetIn elems).any (fun s => isOutbound s.direction) = true ∨
      opts.forceEncapsulation = true
  · rw [readReport_asks hon hask, actionBlocks_encapsulate hf, if_pos rfl]
    have hi : i < f.params.length := hwhy.resolve_right fun h => by
      rw [h.1, h.2] at hask
      simp at hask
    have hlt := countP_lt_countP (l := List.range f.params.length)
      (fun i _ => specAt_unset elems i) ⟨i, List.mem_range.2 hi, by
        rw [specAt, decodeSpecs_unset hel hd]
        exact (by decide : isOutbound .inbound = false), by
        rw [specAt, decodeSpecs_unset hel hd]
        exact (by decide : isOutbound .outbound = true)⟩
    omega
  · rw [not_or, Bool.not_eq_true, Bool.not_eq_true] at hask
    rw [readReport_skips hon hask.1 hask.2]
    have hzero : actionBlocks M (harnessName {} f) (.ok .skip) = 0 := rfl
    omega

theorem addedBlocks_plan (hdir : opts.reportsDir ≠ "") (hworks : workList opts M ≠ [])
    (u : Nat → ArgDirection × Bool) :
    addedBlocks {} M (requests (plan opts parse (fun _ => u) (some entries) M)) x =
      (entries.map fun e =>
        actionBlocks M x (readReport opts parse u (workList opts M) M e)).sum := by
  have hmap : ∀ {β : Type} (g : DirEntry → β),
      (entries.zipIdx.map fun e => g e.1) = entries.map g := fun g => by
    have h := congrArg (List.map g) (List.zipIdx_map_fst 0 entries)
    rwa [List.map_map] at h
  unfold plan
  rw [if_neg (by simp [hdir, hworks]), addedBlocks_requests]
  dsimp only
  rw [List.map_map]
  exact congrArg List.sum
    (hmap fun e => actionBlocks M x (readReport opts parse u (workList opts M) M e))

/-- A run that returns does so alike whatever was never set exactly if this is not read of any
report. -/
theorem run_unset_iff {unset : Unset} {r : Module × Bool} (hdir : opts.reportsDir ≠ "")
    (hrun : SymbolicEncapsulationPass.run opts parse unset (some entries) M = .ok r) :
    (∀ unset', SymbolicEncapsulationPass.run opts parse unset' (some entries) M = .ok r) ↔
      AllSetAsNeeded opts parse M entries := by
  refine ⟨fun hsame e he F elems f hon hf => ?_, fun hset unset' => ?_⟩
  · by_contra hneed
    obtain ⟨M', changed⟩ := r
    have hx : harnessName {} f ≠ "" := harnessName_ne_empty f
    have hworks : workList opts M ≠ [] := List.ne_nil_of_mem hon.mem
    -- one module, counted twice
    have hin := encapsulateAll_blocks plan_defined hx (run_requests (hsame fun _ => unsetIn))
    have hout := encapsulateAll_blocks plan_defined hx (run_requests (hsame fun _ => unsetOut))
    rw [hin, addedBlocks_plan hdir hworks, addedBlocks_plan hdir hworks] at hout
    have hlt : (entries.map fun e => actionBlocks M (harnessName {} f)
        (readReport opts parse unsetIn (workList opts M) M e)).sum <
          (entries.map fun e => actionBlocks M (harnessName {} f)
            (readReport opts parse unsetOut (workList opts M) M e)).sum :=
      List.sum_lt_sum _ _ (fun _ _ => actionBlocks_le) ⟨e, he, actionBlocks_lt hon hf hneed⟩
    omega
  · rw [run_unset hset unset' unset, hrun]

/-- Every report is on `f`, with an element past its parameters that cannot be decoded. -/
def parsePast : String → Option Json :=
  fun _ => some (reportJson "f" [specJson 1 false, specJson 3 true, .null])

theorem run_unset_iff_pastParams : ∃ M' changed, ∀ unset, SymbolicEncapsulationPass.run
    reportOptions parsePast unset (some [⟨"lpc.1.json", true, some ""⟩]) (bufferModule .int8Ty) =
      .ok (M', changed) := by
  have hread : readReport reportOptions parsePast unsetIn
      (workList reportOptions (bufferModule .int8Ty)) (bufferModule .int8Ty)
      ⟨"lpc.1.json", true, some ""⟩ = .ok (.encapsulate 0
        (decodeSpecs unsetIn [specJson 1 false, specJson 3 true, .null])) := by
    rw [readReport_of_text (by decide) rfl]
    exact decodeReport_f (by decide)
  have hplan : ∀ a ∈ plan reportOptions parsePast (fun _ => unsetIn)
      (some [⟨"lpc.1.json", true, some ""⟩]) (bufferModule .int8Ty),
      ∃ argSpecs, a = .ok (.encapsulate 0 argSpecs) := by
    unfold plan
    rw [if_neg (by decide)]
    exact fun a ha => ⟨_, (List.mem_singleton.1 ha).trans hread⟩
  obtain ⟨M', changed, hrun⟩ := run_of_plan_f hplan
  refine ⟨M', changed, (run_unset_iff (by decide) hrun).2 fun e he F elems f hon hf => ?_⟩
  obtain ⟨-, ⟨text, o, x, ref, ⟨-, hp⟩, hx, ⟨hget, rfl⟩, ha⟩, -⟩ := hon
  cases hp
  cases hx
  cases ha
  obtain rfl : ref = ⟨0, "f", (bufferFunction .int8Ty).getFunctionType⟩ :=
    Option.some.inj (hget.symm.trans (by decide))
  cases hf
  refine ⟨fun i hi el hel => ?_, .inr (.inl ⟨_, List.mem_cons_of_mem _ List.mem_cons_self, _, _,
    rfl, by decide⟩)⟩
  -- the two parameters
  rcases i with - | - | i
  · cases hel
    rfl
  · cases hel
    rfl
  · have hlen : (bufferFunction .int8Ty).params.length = 2 := rfl
    omega

end

end Ephippion
