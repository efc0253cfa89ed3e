import Ephippion.Proof.Stops

/-!
# Lookups of the library functions

Generations run one after the other on a module that may use the library itself. The generator takes
`klee_make_symbolic` and `memcmp` to be variadic, which is not what their prototypes say, so a
lookup of one of them fails where the module has it. Only the first generation can find the module's
own declaration: what it leaves behind suits the later ones (`LibraryThere`), so it decides about
the whole run (`lookupsSucceed_iff`).
-/

namespace Ephippion

open SymbolicEncapsulation

/-- The library functions as the C library and KLEE declare them on a 64-bit target. -/
def prototypes : List (String × FunctionType) :=
  [("malloc", ⟨.int8PtrTy, [.int64Ty], false⟩), ("free", ⟨.void, [.int8PtrTy], false⟩),
    ("klee_make_symbolic", ⟨.void, [.int8PtrTy, .int64Ty, .int8PtrTy], false⟩),
    ("memcpy", ⟨.int8PtrTy, [.int8PtrTy, .int8PtrTy, .int64Ty], false⟩),
    ("__assert_fail", ⟨.void, [.int8PtrTy, .int8PtrTy, .int32Ty, .int8PtrTy], false⟩),
    ("memcmp", ⟨.int32Ty, [.int8PtrTy, .int8PtrTy, .int64Ty], false⟩)]

/-- Each of them is a function of `M` under its prototype, or no global of `M`. -/
def UsesLibrary (M : Module) : Prop := ∀ d ∈ prototypes, Declares M d.1 d.2

instance (M : Module) : Decidable (UsesLibrary M) :=
  inferInstanceAs (Decidable (∀ d ∈ prototypes, Declares M d.1 d.2))

/-- A call of `encapsulate`. -/
structure EncapsulateCall where
  F : Nat
  iterationsNum : IterationsNumTy
  argSpecs : List ArgSpec

/-- The module after some calls. -/
def encapsulateCalls (senc : SymbolicEncapsulation) (M : Module) (cs : List EncapsulateCall) :
    Except Stop Module :=
  cs.foldlM (fun M c => (senc.encapsulate M c.F c.iterationsNum c.argSpecs).map (·.1)) M

/-- No call of the run stops at a cast, unless it cannot even declare the harness. -/
def LookupsSucceed (senc : SymbolicEncapsulation) (M : Module) (cs : List EncapsulateCall) : Prop :=
  ∀ done c rest M₁ f, cs = done ++ c :: rest → encapsulateCalls senc M done = .ok M₁ →
    M₁.functions[c.F]? = some f → Declares M₁ (senc.harnessName f) harnessType →
    senc.encapsulate M₁ c.F c.iterationsNum c.argSpecs ≠ .error .badCast

/-- What a generation for `f` gets to is not the harness's name, and neither `klee_make_symbolic`
nor `memcmp` if it is in the module. -/
def LooksUpFreely (senc : SymbolicEncapsulation) (M : Module) (f : Function)
    (specs : List ArgSpec) : Prop :=
  ∀ d ∈ reachedLibs M.dataLayout f.params (padSpecs specs f.params.length),
    senc.harnessName f ≠ d.1 ∧
      (d.1 = "klee_make_symbolic" ∨ d.1 = "memcmp" → M.getNamedValue d.1 = none)

instance (senc : SymbolicEncapsulation) (M : Module) (f : Function) (specs : List ArgSpec) :
    Decidable (LooksUpFreely senc M f specs) :=
  inferInstanceAs (Decidable (∀ d ∈ reachedLibs _ _ _, _ ∧ (_ → _)))

def isDefined (M : Module) (F : Nat) : Bool := M.functions[F]?.any (!·.isDeclaration)

/-- The first call that generates a harness looks up freely. -/
def FirstLooksUpFreely (senc : SymbolicEncapsulation) (M : Module) (cs : List EncapsulateCall) :
    Prop :=
  ∀ c f, cs.find? (isDefined M ·.F) = some c → M.functions[c.F]? = some f →
    Declares M (senc.harnessName f) harnessType → LooksUpFreely senc M f c.argSpecs

/-- The library functions are in the module, as the generator declares them. -/
def LibraryThere (M : Module) : Prop := ∀ d ∈ libDecls, ∃ i : Nat, M.sig[i]? = some d

section
variable {senc : SymbolicEncapsulation} {M M' : Module} {F : Nat} {f : Function}
  {n : IterationsNumTy} {specs : List ArgSpec} {cs : List EncapsulateCall}

/-! ## One generation -/

theorem isDefined_iff (hf : M.functions[F]? = some f) :
    isDefined M F = true ↔ f.isDeclaration = false := by
  simp [isDefined, hf]

theorem encapsulate_undefined (hdef : isDefined M F = false) :
    senc.encapsulate M F n specs = .ok (M, false) := by
  cases hf : M.functions[F]? with
  | none => simp [encapsulate, encapsulateImpl, hf]
  | some f =>
    have hdecl : f.isDeclaration = true := by simpa [isDefined, hf] using hdef
    simp [encapsulate, encapsulateImpl, hf, hdecl]

/-- Where the module's own declarations are right, only a variadic one can be in the way. -/
theorem UsesLibrary.declares_iff (hlib : UsesLibrary M) {d : String × FunctionType}
    (hd : d ∈ libDecls) : Declares M d.1 d.2 ↔
      (d.1 = "klee_make_symbolic" ∨ d.1 = "memcmp" → M.getNamedValue d.1 = none) := by
  have hother : ∀ {name : String} {t t' : FunctionType}, Declares M name t → t ≠ t' →
      (Declares M name t' ↔ M.getNamedValue name = none) := by
    intro name t t' ht hne
    unfold Declares at ht ⊢
    cases hn : M.getNamedValue name with
    | none => simp
    | some v =>
      cases v with
      | function ref =>
        rw [hn] at ht
        simpa [show ref.type = t from ht] using hne
      | other =>
        rw [hn] at ht
        exact ht.elim
  simp only [libDecls, List.mem_cons, List.not_mem_nil, or_false] at hd
  rcases hd with rfl | rfl | rfl | rfl | rfl | rfl
  · simpa using hlib ("malloc", mallocType) (by decide)
  · simpa using hlib ("free", freeType) (by decide)
  · rw [hother (hlib ("klee_make_symbolic", ⟨.void, [.int8PtrTy, .int64Ty, .int8PtrTy], false⟩)
      (by decide)) (by decide)]
    simp
  · simpa using hlib ("memcpy", memcpyType) (by decide)
  · simpa using hlib ("__assert_fail", assertType) (by decide)
  · rw [hother (hlib ("memcmp", ⟨.int32Ty, [.int8PtrTy, .int8PtrTy, .int64Ty], false⟩)
      (by decide)) (by decide)]
    simp

theorem encapsulate_badCast_iff (hf : M.functions[F]? = some f) (hdef : f.isDeclaration = false)
    (hparams : f.params ≠ []) (hdec : Declares M (senc.harnessName f) harnessType) :
    senc.encapsulate M F n specs = .error .badCast ↔
      ∃ d ∈ reachedLibs M.dataLayout f.params (padSpecs specs f.params.length),
        senc.harnessName f = d.1 ∨ ¬ Declares M d.1 d.2 := by
  rw [encapsulate_eq hf hdef, Except.map_eq_error, buildHarness_badCast_iff F n specs hparams hdec]

theorem UsesLibrary.encapsulate_iff (hlib : UsesLibrary M) (hf : M.functions[F]? = some f)
    (hdef : f.isDeclaration = false) (hparams : f.params ≠ [])
    (hdec : Declares M (senc.harnessName f) harnessType) :
    senc.encapsulate M F n specs ≠ .error .badCast ↔ LooksUpFreely senc M f specs := by
  rw [ne_eq, encapsulate_badCast_iff hf hdef hparams hdec, LooksUpFreely]
  simp only [not_exists, not_and, not_or, not_not]
  apply forall₂_congr
  intro d hd
  rw [hlib.declares_iff (reachedLibs_subset hd)]

theorem LibraryThere.encapsulate (hlib : LibraryThere M) (hf : M.functions[F]? = some f)
    (hdef : f.isDeclaration = false) (hparams : f.params ≠ [])
    (hdec : Declares M (senc.harnessName f) harnessType) :
    senc.encapsulate M F n specs ≠ .error .badCast := by
  rw [ne_eq, encapsulate_badCast_iff hf hdef hparams hdec]
  intro hx
  obtain ⟨d, hd, hno⟩ := hx
  have hmem := reachedLibs_subset hd
  obtain ⟨i, hi⟩ := hlib d hmem
  have hval := Module.getNamedValue_of_sig (libDecls_named d hmem) hi
  rcases hno with hname | hno
  · -- the library's function is no harness
    rw [hname, Declares, hval] at hdec
    exact libDecls_ne_harnessType d hmem hdec
  · exact hno (by rw [Declares, hval])

theorem HarnessAt.libraryThere {h : Nat} {H : Harness} (hat : HarnessAt h F f n specs H M) :
    LibraryThere M := by
  intro d hmem
  simp only [libDecls, List.mem_cons, List.not_mem_nil, or_false] at hmem
  rcases hmem with rfl | rfl | rfl | rfl | rfl | rfl
  · exact ⟨_, hat.malloc_declared.sig_eq⟩
  · exact ⟨_, hat.free_declared.sig_eq⟩
  · exact ⟨_, hat.symbolize_declared.sig_eq⟩
  · exact ⟨_, hat.memcpy_declared.sig_eq⟩
  · exact ⟨_, hat.assert_declared.sig_eq⟩
  · exact ⟨_, hat.memcmp_declared.sig_eq⟩

theorem LibraryThere.later (hlib : LibraryThere M) (hl : Later senc M M') : LibraryThere M' := by
  intro d hd
  obtain ⟨i, hi⟩ := hlib d hd
  have hlt : i < M.functions.length := by
    simpa [Module.sig] using (List.getElem?_eq_some_iff.1 hi).1
  exact ⟨i, (hl.sig i hlt).trans hi⟩

/-! ## A run -/

theorem encapsulateCalls_cons (M : Module) (c : EncapsulateCall) (cs : List EncapsulateCall) :
    encapsulateCalls senc M (c :: cs) =
      ((senc.encapsulate M c.F c.iterationsNum c.argSpecs).map (·.1) >>= fun M =>
        encapsulateCalls senc M cs) := List.foldlM_cons ..

theorem encapsulateCalls_undefined (hdef : ∀ c ∈ cs, isDefined M c.F = false) :
    encapsulateCalls senc M cs = .ok M := by
  induction cs with
  | nil => rfl
  | cons c cs ih =>
    rw [encapsulateCalls_cons, encapsulate_undefined (hdef c List.mem_cons_self)]
    exact ih fun c' hc' => hdef c' (List.mem_cons_of_mem c hc')

theorem encapsulateCalls_later (hok : encapsulateCalls senc M cs = .ok M') : Later senc M M' := by
  induction cs generalizing M with
  | nil =>
    cases hok
    exact .refl senc _
  | cons c cs ih =>
    rw [encapsulateCalls_cons, Except.bind_eq_ok] at hok
    obtain ⟨M₁, h1, hok⟩ := hok
    obtain ⟨⟨M₁, changed⟩, h1', rfl⟩ := Except.map_eq_ok.1 h1
    exact (encapsulate_later h1').trans (ih hok)

theorem libraryThere_of_calls {done : List EncapsulateCall}
    (hok : encapsulateCalls senc M done = .ok M') (hdef : ∃ c ∈ done, isDefined M c.F = true) :
    LibraryThere M' := by
  induction done with
  | nil =>
    obtain ⟨c, hc, -⟩ := hdef
    cases hc
  | cons c done ih =>
    rw [encapsulateCalls_cons, Except.bind_eq_ok] at hok
    obtain ⟨M₁, h1, hok⟩ := hok
    cases hd : isDefined M c.F with
    | false =>
      rw [encapsulate_undefined hd] at h1
      cases h1
      obtain ⟨c', hc', hd'⟩ := hdef
      rcases List.mem_cons.1 hc' with rfl | hc'
      · rw [hd] at hd'
        cases hd'
      · exact ih hok ⟨c', hc', hd'⟩
    | true =>
      obtain ⟨⟨M₁, changed⟩, h1', rfl⟩ := Except.map_eq_ok.1 h1
      obtain ⟨f, hf, hdecl⟩ := (Option.any_eq_true ..).1 hd
      obtain ⟨-, -, h, H, hb⟩ := encapsulate_of_ok hf (by simpa using hdecl) h1'
      exact hb.here.libraryThere.later (encapsulateCalls_later hok)

/-- The lookups of a run succeed exactly if those of the first generation do. -/
theorem lookupsSucceed_iff (hlib : UsesLibrary M)
    (hcs : ∀ c ∈ cs, ∃ f, M.functions[c.F]? = some f ∧ f.params ≠ []) :
    LookupsSucceed senc M cs ↔ FirstLooksUpFreely senc M cs := by
  constructor
  · intro hs c f hfind hf hdec
    obtain ⟨hdef, done, rest, hsplit, hdone⟩ := List.find?_eq_some_iff_append.1 hfind
    have hok : encapsulateCalls senc M done = .ok M :=
      encapsulateCalls_undefined fun c hc => by simpa using hdone c hc
    obtain ⟨f', hf', hparams⟩ := hcs c (by simp [hsplit])
    obtain rfl : f' = f := Option.some.inj (hf'.symm.trans hf)
    exact (hlib.encapsulate_iff hf ((isDefined_iff hf).1 hdef) hparams hdec).1
      (hs done c rest M f' hsplit hok hf hdec)
  · intro hfirst done c rest M₁ f hsplit hok hf hdec
    have hmem : c ∈ cs := by simp [hsplit]
    cases hdef : f.isDeclaration with
    | true =>
      have : isDefined M₁ c.F = false := by simp [isDefined, hf, hdef]
      simp [encapsulate_undefined this]
    | false =>
      by_cases hgen : ∃ c ∈ done, isDefined M c.F = true
      · obtain ⟨f₀, hf₀, hparams⟩ := hcs c hmem
        have hlt := (List.getElem?_eq_some_iff.1 hf₀).1
        have hsig := (encapsulateCalls_later hok).sig c.F hlt
        rw [Module.sig, Module.sig, List.getElem?_map, List.getElem?_map, hf, hf₀] at hsig
        have htypes : f.params.map (·.type) = f₀.params.map (·.type) :=
          congrArg (·.2.params) (Option.some.inj hsig)
        have hne : f.params ≠ [] := fun hnil => hparams (by
          rw [hnil] at htypes
          exact List.map_eq_nil_iff.1 htypes.symm)
        exact (libraryThere_of_calls hok hgen).encapsulate hf hdef hne hdec
      · -- no call before has changed the module
        have hgen' : ∀ c ∈ done, isDefined M c.F = false := fun c hc =>
          Bool.eq_false_iff.2 fun h => hgen ⟨c, hc, h⟩
        rw [encapsulateCalls_undefined hgen'] at hok
        cases hok
        obtain ⟨f', hf', hparams⟩ := hcs c hmem
        obtain rfl : f' = f := Option.some.inj (hf'.symm.trans hf)
        refine (hlib.encapsulate_iff hf hdef hparams hdec).2 (hfirst c f' ?_ hf hdec)
        rw [List.find?_eq_some_iff_append]
        exact ⟨(isDefined_iff hf).2 hdef, done, rest, hsplit, fun c hc => by simp [hgen' c hc]⟩

end

theorem lookupsSucceed_plain :
    LookupsSucceed {} plainModule [⟨0, 2, []⟩, ⟨0, 3, [⟨"", .both, true⟩]⟩] := by
  refine (lookupsSucceed_iff (by decide) fun c hc => ?_).2 fun c f hfind hf hdec => ?_
  · simp only [List.mem_cons, List.not_mem_nil, or_false] at hc
    rcases hc with rfl | rfl <;> exact ⟨_, rfl, by decide⟩
  · obtain rfl : (⟨0, 2, []⟩ : EncapsulateCall) = c := Option.some.inj hfind
    obtain rfl : emptyFunction "f" [⟨"", .int64Ty⟩] = f := Option.some.inj hf
    decide

/-- A module of `f(i64)` that uses `memcmp` too. -/
def memcmpModule : Module := .of [emptyFunction "f" [⟨"", .int64Ty⟩],
  ⟨"memcmp", .int32Ty, [⟨"", .int8PtrTy⟩, ⟨"", .int8PtrTy⟩, ⟨"", .int64Ty⟩], false, []⟩]

/-- In it the comparison's function is found under another type. -/
theorem not_lookupsSucceed_memcmp :
    UsesLibrary memcmpModule ∧ ¬ LookupsSucceed {} memcmpModule [⟨0, 2, []⟩] := by
  refine ⟨by decide, fun hs => ?_⟩
  have hf : memcmpModule.functions[0]? = some (emptyFunction "f" [⟨"", .int64Ty⟩]) := rfl
  refine hs [] ⟨0, 2, []⟩ [] memcmpModule _ rfl rfl hf (by decide) ?_
  exact (encapsulate_badCast_iff hf rfl (by decide) (by decide)).2
    ⟨("memcmp", kleeType), by decide, .inr (by decide)⟩

end Ephippion
