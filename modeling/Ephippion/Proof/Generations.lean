import Ephippion.Harness.Graph
import Ephippion.Proof.Lockstep

/-!
# Generations after one another

A generation keeps the harnesses that are there (`HarnessAt.kept`) and what further generations need
(`HarnessBuilt.libsOk`, `HarnessBuilt.declares`). `Generated senc n M₀ done M` is what holds of a
module `M` that generations have made of `M₀`, where `done F specs` says which have been asked for
and any two for one function agree: each of them has its harness, and that is the one a generation
in `M₀` alone gives (`Entry`). A further generation keeps it (`Generated.step`).
-/

namespace Ephippion

open SymbolicEncapsulation

/-! ## One more generation -/

section
variable {senc : SymbolicEncapsulation} {M M' : Module} {F : Nat} {f : Function}
  {n : IterationsNumTy} {specs : List ArgSpec} {h : Nat} {H : Harness}

theorem HarnessAt.id_lt (hat : HarnessAt h F f n specs H M) {B : HBlock} (hB : H.Valid B) :
    H.id B < (M.blocks h).length := by
  by_contra hge
  obtain ⟨pre, t, hcode, -⟩ := (Harness.instrs_endsWith hB).split
  have := hat.code B hB
  rw [Module.instrs_of_le (Nat.le_of_not_lt hge), hcode] at this
  simp at this

theorem Declared.kept {G : Nat} {g : Function} {specs' : List ArgSpec} {h' : Nat} {H' : Harness}
    (hb : HarnessBuilt senc M G g n specs' M' h' H') {ref : FuncRef} {name : String}
    {type : FunctionType} (hd : Declared M ref name type) : Declared M' ref name type :=
  ⟨hd.name_eq, hd.type_eq, (hb.sig_kept hd.lt).trans hd.sig_eq⟩

theorem HarnessAt.kept (hat : HarnessAt h F f n specs H M) {G : Nat} {g : Function}
    {specs' : List ArgSpec} {h' : Nat} {H' : Harness}
    (hb : HarnessBuilt senc M G g n specs' M' h' H') : HarnessAt h F f n specs H M' where
  n_eq := hat.n_eq
  dl_eq := hat.dl_eq.trans hb.dataLayout.symm
  func_eq := hat.func_eq
  params_ne := hat.params_ne
  sized := hat.sized
  two_le := hat.two_le
  layout := hat.layout
  malloc_declared := hat.malloc_declared.kept hb
  free_declared := hat.free_declared.kept hb
  symbolize_declared := hat.symbolize_declared.kept hb
  memcpy_declared := hat.memcpy_declared.kept hb
  memcmp_declared := hat.memcmp_declared.kept hb
  assert_declared := hat.assert_declared.kept hb
  code B hB := (hb.instrs_kept (hat.id_lt hB)).trans (hat.code B hB)

/-- The layout looks at the specifications of the parameters only. -/
theorem HarnessAt.same (hat : HarnessAt h F f n specs H M) {specs' : List ArgSpec}
    (hs : SameSpecs f.params.length specs specs') : HarnessAt h F f n specs' H M :=
  { hat with
    layout := ⟨hat.layout.params_eq, fun k s hk => by
      obtain ⟨h1, h2, h3⟩ := hat.layout.at_pos k s hk
      have hlt := (List.getElem?_eq_some_iff.1 hk).1
      rw [hat.layout.length] at hlt
      exact ⟨h1, (hs.getElem? k hlt).symm.trans h2, h3⟩, hat.layout.unnamed⟩ }

end

/-! ## Many generations -/

/-- Function `h` of `M` is entered at `F`'s harness for `specs`, which is the one a generation in
`M₀` gives. -/
structure Entry (senc : SymbolicEncapsulation) (n : IterationsNumTy) (M₀ : Module) (F : Nat)
    (f : Function) (specs : List ArgSpec) (M : Module) (h : Nat) (H : Harness) : Prop where
  here : HarnessAt h F f n (padSpecs specs f.params.length) H M
  base_eq : H.base = 0
  sig : M.sig[h]? = some (senc.harnessName f, harnessType)
  alone : ∀ N, senc.encapsulate M₀ F n specs = .ok (N, true) → ∀ B, H.Valid B →
    (M.instrs h (H.id B)).map (Instr.anon F) =
      (N.instrs M₀.functions.length (H.id B)).map (Instr.anon F)

/-- What holds of `M`, which the generations `done` have made of `M₀`. -/
structure Generated (senc : SymbolicEncapsulation) (n : IterationsNumTy) (M₀ : Module)
    (done : Nat → List ArgSpec → Prop) (M : Module) : Prop where
  name : M.name = M₀.name
  context : M.context = M₀.context
  dataLayout : M.dataLayout = M₀.dataLayout
  length_le : M₀.functions.length ≤ M.functions.length
  functions : ∀ g < M₀.functions.length, M.functions[g]? = M₀.functions[g]?
  libs : LibsOk M₀ → LibsOk M
  /-- Other names than the library's stand for what they did, or for a harness. -/
  names : ∀ x ∉ libNames, M.getNamedValue x = M₀.getNamedValue x ∨
    ∃ F f specs, done F specs ∧ M₀.functions[F]? = some f ∧ x = senc.harnessName f
  entries : ∀ F specs f, done F specs → M₀.functions[F]? = some f →
    ∃ h H, Entry senc n M₀ F f specs M h H

/-- No function's name starts with the harness prefix. -/
def NotPrefixed (senc : SymbolicEncapsulation) (M : Module) : Prop :=
  ∀ f ∈ M.functions, ∀ x, f.name ≠ senc.harnessNamePrefix ++ x

section
variable {senc : SymbolicEncapsulation} {n : IterationsNumTy} {M₀ M M' : Module}
  {done done' : Nat → List ArgSpec → Prop} {F : Nat} {f : Function} {specs specs' : List ArgSpec}
  {h : Nat} {H : Harness}

theorem Generated.refl (senc : SymbolicEncapsulation) (n : IterationsNumTy) (M₀ : Module) :
    Generated senc n M₀ (fun _ _ => False) M₀ :=
  ⟨rfl, rfl, rfl, Nat.le_refl _, fun _ _ => rfl, id, fun _ _ => .inl rfl, fun _ _ _ h => h.elim⟩

theorem Generated.congr (hg : Generated senc n M₀ done M) (h : ∀ F s, done F s ↔ done' F s) :
    Generated senc n M₀ done' M := by
  obtain rfl : done = done' := funext fun F => funext fun s => propext (h F s)
  exact hg

theorem Entry.kept (he : Entry senc n M₀ F f specs M h H) {G : Nat} {g : Function}
    {specs' : List ArgSpec} {h' : Nat} {H' : Harness}
    (hb : HarnessBuilt senc M G g n specs' M' h' H') : Entry senc n M₀ F f specs M' h H where
  here := he.here.kept hb
  base_eq := he.base_eq
  sig := by
    have hlt := (List.getElem?_eq_some_iff.1 he.sig).1
    exact (hb.sig_kept (by simpa [Module.sig] using hlt)).trans he.sig
  alone N hN B hB := by
    rw [hb.instrs_kept (he.here.id_lt hB)]
    exact he.alone N hN B hB

theorem NotPrefixed.free (hp : NotPrefixed senc M₀)
    (hd : Declares M₀ (senc.harnessName f) harnessType) :
    M₀.getNamedValue (senc.harnessName f) = none := by
  unfold Declares at hd
  split at hd
  · assumption
  · rename_i ref hl
    have hs := (Module.sig_of_getNamedValue hl).2
    rw [Module.sig, List.getElem?_map, Option.map_eq_some_iff] at hs
    obtain ⟨g, hg, hgs⟩ := hs
    exact (hp g (List.mem_of_getElem? hg) f.name (congrArg Prod.fst hgs)).elim
  · exact hd.elim

theorem Entry.same (he : Entry senc n M₀ F f specs M h H) (hp : NotPrefixed senc M₀)
    (hf : M₀.functions[F]? = some f) (hdef : f.isDeclaration = false)
    (hs : SameSpecs f.params.length (padSpecs specs f.params.length)
      (padSpecs specs' f.params.length)) : Entry senc n M₀ F f specs' M h H where
  here := he.here.same hs
  base_eq := he.base_eq
  sig := he.sig
  alone N' hN' B hB := by
    obtain ⟨-, hbuild, -⟩ := encapsulate_of_ok hf hdef hN'
    obtain ⟨N, hN⟩ := encapsulate_progress specs hf hdef hbuild
    rw [he.alone N hN B hB]
    rw [encapsulate_eq hf hdef, Except.map_eq_ok] at hN hN'
    obtain ⟨_, hN, h1⟩ := hN
    obtain ⟨_, hN', h2⟩ := hN'
    cases h1
    cases h2
    exact (buildHarness_twin rfl rfl rfl hf hf (hp.free hbuild.declares) (hp.free hbuild.declares)
      hs hN hN').instrs _

namespace Generated

theorem sig (hg : Generated senc n M₀ done M) (g : Nat) (hlt : g < M₀.functions.length) :
    M.sig[g]? = M₀.sig[g]? := by
  rw [Module.sig, Module.sig, List.getElem?_map, List.getElem?_map, hg.functions g hlt]

theorem entry_of_free (hg : Generated senc n M₀ done M) (hp : NotPrefixed senc M₀)
    (hf : M₀.functions[F]? = some f) (hf' : M.functions[F]? = some f)
    (hdef : f.isDeclaration = false) (hok : senc.encapsulate M F n specs = .ok (M', true))
    (hb : HarnessBuilt senc M F f n specs M' h H)
    (hfree : M.getNamedValue (senc.harnessName f) = none) :
    Entry senc n M₀ F f specs M' h H := by
  obtain rfl : h = M.functions.length := by
    rcases hb.lookup with hl | ⟨-, hl⟩
    · rw [hfree] at hl
      cases hl
    · exact hl
  refine ⟨hb.here, hb.bodiless_iff.1 (.of_free hfree), hb.sig, fun N hN B hB => ?_⟩
  obtain ⟨-, hbuild, -⟩ := encapsulate_of_ok hf hdef hN
  rw [encapsulate_eq hf hdef, Except.map_eq_ok] at hN
  rw [encapsulate_eq hf' hdef, Except.map_eq_ok] at hok
  obtain ⟨_, hN, h1⟩ := hN
  obtain ⟨_, hok, h2⟩ := hok
  cases h1
  cases h2
  exact (buildHarness_twin hg.name hg.context hg.dataLayout hf' hf hfree
    (hp.free hbuild.declares) ⟨length_padSpecs _ _, length_padSpecs _ _, fun _ _ => rfl⟩ hok
    hN).instrs _

theorem step (hg : Generated senc n M₀ done M) (hp : NotPrefixed senc M₀)
    (hf : M₀.functions[F]? = some f) (hdef : f.isDeclaration = false) (hname : f.name ≠ "")
    (hagree : ∀ specs', done F specs' → SameSpecs f.params.length
      (padSpecs specs' f.params.length) (padSpecs specs f.params.length))
    (hok : senc.encapsulate M F n specs = .ok (M', true)) :
    Generated senc n M₀ (fun G s => done G s ∨ G = F ∧ s = specs) M' := by
  have hlt := (List.getElem?_eq_some_iff.1 hf).1
  have hf' : M.functions[F]? = some f := (hg.functions F hlt).trans hf
  obtain ⟨-, hbuild, h, H, hb⟩ := encapsulate_of_ok hf' hdef hok
  -- the harness is none of the functions that were there
  have hh : M₀.functions.length ≤ h := by
    by_contra hlt'
    have hs := (hb.sig_kept (k := h) (by have := hg.length_le; omega)).symm.trans hb.sig
    rw [Module.sig, List.getElem?_map, hg.functions h (by omega), Option.map_eq_some_iff] at hs
    obtain ⟨g, hg', hgs⟩ := hs
    exact hp g (List.mem_of_getElem? hg') f.name (congrArg Prod.fst hgs)
  refine ⟨hb.name.trans hg.name, hb.context.trans hg.context, hb.dataLayout.trans hg.dataLayout,
    Nat.le_trans hg.length_le hb.length_le, fun g hlt' => ?_, fun _ => hb.here.libsOk,
    fun x hx => ?_, ?_⟩
  · rw [hb.others g (Nat.lt_of_lt_of_le hlt' hg.length_le) (by omega), hg.functions g hlt']
  · by_cases hxf : x = senc.harnessName f
    · exact .inr ⟨F, f, specs, .inr ⟨rfl, rfl⟩, hf, hxf⟩
    · have hsame : M'.getNamedValue x = M.getNamedValue x := hb.names x (by simp [hxf, hx])
      rcases hg.names x hx with h1 | ⟨G, g, s, h1, h2, h3⟩
      · exact .inl (hsame.trans h1)
      · exact .inr ⟨G, g, s, .inl h1, h2, h3⟩
  · rintro G s g (hdone | ⟨rfl, rfl⟩) hG
    · obtain ⟨k, K, he⟩ := hg.entries G s g hdone hG
      exact ⟨k, K, he.kept hb⟩
    · rw [hf] at hG
      cases hG
      rcases hg.names _ hbuild.not_lib with hl | ⟨G', g, s', hdone, hG, hname'⟩
      · have hfree : M.getNamedValue (senc.harnessName f) = none := by
          refine hl.trans (hp.free ?_)
          have := hbuild.declares
          rwa [Declares, hl] at this
        exact ⟨h, H, hg.entry_of_free hp hf hf' hdef hok hb hfree⟩
      · -- there is a harness for the function already
        have hnames : f.name = g.name := by
          have := congrArg String.toList hname'
          exact String.toList_inj.1 (by simpa [harnessName] using this)
        obtain rfl : G = G' := by
          refine Module.sig_inj (M := M₀) (x := f.name) (t := f.getFunctionType) hname ?_
            (?_ : M₀.sig[_]? = some (f.name, g.getFunctionType))
          · rw [Module.sig, List.getElem?_map, hf]
            rfl
          · rw [Module.sig, List.getElem?_map, hG, hnames]
            rfl
        rw [hf] at hG
        cases hG
        obtain ⟨k, K, he⟩ := hg.entries _ s' f hdone hf
        exact ⟨k, K, (he.same hp hf hdef (hagree s' hdone)).kept hb⟩

theorem buildable (hg : Generated senc n M₀ done M) (hb : Buildable senc M₀ f n) :
    Buildable senc M f n where
  params_ne := hb.params_ne
  sized := hg.dataLayout ▸ hb.sized
  declares := by
    rcases hg.names _ hb.not_lib with hl | ⟨G, g, s, hdone, hG, hname⟩
    · have := hb.declares
      rwa [Declares, ← hl] at this
    · obtain ⟨h, H, he⟩ := hg.entries G s g hdone hG
      rw [hname]
      by_cases h0 : senc.harnessName g = ""
      · rw [h0, Declares, Module.getNamedValue_eq, if_pos rfl]
        trivial
      · rw [Declares, Module.getNamedValue_of_sig h0 he.sig]
  not_lib := hb.not_lib
  libs := hg.libs hb.libs
  two_le := hb.two_le

end Generated

end

end Ephippion
