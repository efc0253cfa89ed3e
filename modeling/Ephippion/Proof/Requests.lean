import Ephippion.Proof.Verified

/-!
# Generations for a list of requests

`encapsulateAll` encapsulates one function after the other. What the module had stays (`Kept`), so
each generation is one for the function as it was (`Generation`), and what every such generation
keeps holds in the end (`encapsulateAll_inv`). All of them return exactly if each could be made
first (`encapsulateAll_returns_iff`).
-/

namespace Ephippion

open SymbolicEncapsulation

/-- A function and the specifications to encapsulate it with. -/
structure Request where
  F : Nat
  argSpecs : List ArgSpec
  deriving DecidableEq, Repr

def encapsulateAll (senc : SymbolicEncapsulation) (n : IterationsNumTy) (M : Module)
    (rs : List Request) : Except Stop Module :=
  rs.foldlM (fun N r => (senc.encapsulate N r.F n r.argSpecs).map Prod.fst) M

/-- Each request is for a function of `M` that is defined. -/
def AllDefined (M : Module) (rs : List Request) : Prop :=
  ∀ r ∈ rs, ∃ f, M.functions[r.F]? = some f ∧ f.isDeclaration = false

theorem getFunction_of_sig {M : Module} {x : String} (hx : x ≠ "") {g : Nat} {t : FunctionType}
    (hs : M.sig[g]? = some (x, t)) : M.getFunction x = some ⟨g, x, t⟩ :=
  getFunction_eq_some.2 (Module.getNamedValue_of_sig hx hs)

theorem sig_of_getFunction {M : Module} {x : String} {ref : FuncRef}
    (hr : M.getFunction x = some ref) : M.sig[ref.index]? = some (x, ref.type) :=
  (Module.sig_of_getNamedValue (getFunction_eq_some.1 hr)).2

/-! ## What stays -/

/-- `N` has what `M` has: its code, its names, and its functions with parameters as they are. -/
structure Kept (senc : SymbolicEncapsulation) (M N : Module) : Prop where
  later : Later senc M N
  dataLayout : N.dataLayout = M.dataLayout
  names : ∀ x v, M.getNamedValue x = some v → N.getNamedValue x = some v
  /-- Only harnesses change, which have none. -/
  functions : ∀ (g : Nat) f, M.functions[g]? = some f → f.params ≠ [] → N.functions[g]? = some f
  grows : ∀ g, Module.Grows g M N

theorem Module.Grows.refl (g : Nat) (M : Module) : Module.Grows g M M where
  dataLayout := rfl
  sig _ _ h := h
  length := Nat.le_refl _
  old _ _ := rfl
  new a ha d hd := by
    rw [Module.succs_of_le ha] at hd
    cases hd

theorem Module.Grows.trans {g : Nat} {M N N' : Module} (h : Module.Grows g M N)
    (h' : Module.Grows g N N') : Module.Grows g M N' where
  dataLayout := h'.dataLayout.trans h.dataLayout
  sig k s hs := h'.sig k s (h.sig k s hs)
  length := Nat.le_trans h.length h'.length
  old b hb := (h'.old b (Nat.lt_of_lt_of_le hb h.length)).trans (h.old b hb)
  new a ha d hd := by
    rcases Nat.lt_or_ge a (N.blocks g).length with hlt | hge
    · rw [h'.succs hlt] at hd
      exact h.new a ha d hd
    · exact Nat.le_trans h.length (h'.new a hge d hd)

section
variable {senc : SymbolicEncapsulation} {M N N' : Module} {F : Nat} {f : Function}
  {n : IterationsNumTy} {specs : List ArgSpec} {h : Nat} {H : Harness}

theorem Kept.refl (senc : SymbolicEncapsulation) (M : Module) : Kept senc M M where
  later := .refl senc M
  dataLayout := rfl
  names _ _ h := h
  functions _ _ h _ := h
  grows g := .refl g M

theorem Kept.trans (hk : Kept senc M N) (hk' : Kept senc N N') : Kept senc M N' where
  later := hk.later.trans hk'.later
  dataLayout := hk'.dataLayout.trans hk.dataLayout
  names x v hx := hk'.names x v (hk.names x v hx)
  functions g f hg hp := hk'.functions g f (hk.functions g f hg hp) hp
  grows g := (hk.grows g).trans (hk'.grows g)

namespace HarnessBuilt

theorem getNamedValue_kept (hb : HarnessBuilt senc M F f n specs N h H) (hlibs : LibsOk M)
    {x : String} {v : Module.GlobalValue} (hx : M.getNamedValue x = some v) :
    N.getNamedValue x = some v := by
  cases v with
  | function ref =>
    obtain ⟨hname, hs⟩ := Module.sig_of_getNamedValue hx
    have hlt := (List.getElem?_eq_some_iff.1 hs).1
    have hne : x ≠ "" := by
      rintro rfl
      rw [Module.getNamedValue_eq, if_pos rfl] at hx
      cases hx
    rw [← hb.sig_kept (by simpa [Module.sig] using hlt)] at hs
    rw [Module.getNamedValue_of_sig hne hs, ← hname]
  | other =>
    rw [hb.names x ?_, hx]
    rw [List.mem_cons, not_or]
    constructor
    · rintro rfl
      rcases hb.lookup with hl | hl
      · rw [hx] at hl
        cases hl
      · rw [hx] at hl
        cases hl.1
    · intro hmem
      obtain ⟨d, hd, rfl⟩ := List.mem_map.1 hmem
      have hdecl := hlibs d hd
      rwa [Declares, hx] at hdecl

theorem params_kept (hb : HarnessBuilt senc M F f n specs N h H) {g : Nat} {f' : Function}
    (hg : M.functions[g]? = some f') (hp : f'.params ≠ []) : N.functions[g]? = some f' := by
  have hlt := (List.getElem?_eq_some_iff.1 hg).1
  refine (hb.others g hlt fun hgh => hp ?_).trans hg
  have hs := (hb.sig_kept hlt).symm.trans (hgh ▸ hb.sig)
  rw [Module.sig, List.getElem?_map, hg, Option.map_some, Option.some.injEq] at hs
  exact List.map_eq_nil_iff.1 (congrArg (fun p => p.2.params) hs)

theorem kept (hb : HarnessBuilt senc M F f n specs N h H) (hlibs : LibsOk M) : Kept senc M N where
  later := hb.later
  dataLayout := hb.dataLayout
  names _ _ hx := hb.getNamedValue_kept hlibs hx
  functions _ _ hg hp := hb.params_kept hg hp
  grows := hb.grows

end HarnessBuilt

theorem encapsulate_kept {changed : Bool}
    (hok : senc.encapsulate M F n specs = .ok (N, changed)) : Kept senc M N := by
  cases hf : M.functions[F]? with
  | none =>
    simp only [encapsulate, encapsulateImpl, hf, Except.ok.injEq, Prod.mk.injEq] at hok
    exact hok.1 ▸ .refl senc M
  | some f =>
    cases hdef : f.isDeclaration with
    | true =>
      simp only [encapsulate, encapsulateImpl, hf, hdef, ite_true, Except.ok.injEq,
        Prod.mk.injEq] at hok
      exact hok.1 ▸ .refl senc M
    | false =>
      obtain ⟨-, hbuild, h, H, hb⟩ := encapsulate_of_ok hf hdef hok
      exact hb.kept hbuild.libs

/-- What could be declared later could be declared before. -/
theorem Kept.declares (hk : Kept senc M N) {x : String} {t : FunctionType}
    (hd : Declares N x t) : Declares M x t := by
  cases hx : M.getNamedValue x with
  | none => rw [Declares, hx]; trivial
  | some v => rwa [Declares, hx, ← hk.names x v hx]

theorem Kept.buildable (hk : Kept senc M N) (hb : Buildable senc N f n) : Buildable senc M f n where
  params_ne := hb.params_ne
  sized := hk.dataLayout ▸ hb.sized
  declares := hk.declares hb.declares
  not_lib := hb.not_lib
  libs d hd := hk.declares (hb.libs d hd)
  two_le := hb.two_le

end

/-! ## The generations -/

/-- The generation for the request `r`, about `f`, that makes `N'` of `N`, which others have made
of `M`. -/
structure Generation (senc : SymbolicEncapsulation) (n : IterationsNumTy) (M N : Module)
    (r : Request) (f : Function) (N' : Module) (h : Nat) (H : Harness) : Prop where
  kept : Kept senc M N
  asked : M.functions[r.F]? = some f
  found : N.functions[r.F]? = some f
  isDefined : f.isDeclaration = false
  ok : senc.encapsulate N r.F n r.argSpecs = .ok (N', true)
  buildable : Buildable senc N f n
  built : HarnessBuilt senc N r.F f n r.argSpecs N' h H

section
variable {senc : SymbolicEncapsulation} {n : IterationsNumTy} {M M' N N' : Module}
  {rs : List Request} {r : Request}

theorem Kept.generation (hk : Kept senc M N) {f : Function} (hf : M.functions[r.F]? = some f)
    (hdef : f.isDeclaration = false)
    (hmap : (senc.encapsulate N r.F n r.argSpecs).map Prod.fst = .ok N') :
    ∃ h H, Generation senc n M N r f N' h H := by
  obtain ⟨⟨N', changed⟩, hok, rfl⟩ := Except.map_eq_ok.1 hmap
  obtain ⟨f', hf', hdef', -, htype⟩ := hk.later.defined hf hdef
  obtain ⟨rfl, hbuild, h, H, hb⟩ := encapsulate_of_ok hf' hdef' hok
  have hp : f.params ≠ [] := fun hnil => by
    have htypes : f'.params.map (·.type) = f.params.map (·.type) := congrArg (·.params) htype
    rw [hnil] at htypes
    exact hbuild.params_ne (List.map_eq_nil_iff.1 htypes)
  obtain rfl : f' = f := Option.some.inj (hf'.symm.trans (hk.functions r.F f hf hp))
  exact ⟨h, H, hk, hf, hf', hdef, hok, hbuild, hb⟩

theorem Generation.keeps {f : Function} {h : Nat} {H : Harness}
    (hg : Generation senc n M N r f N' h H) : Kept senc M N' :=
  hg.kept.trans (hg.built.kept hg.buildable.libs)

/-- What each generation keeps holds after all of them. -/
theorem encapsulateAll_inv {P : List Request → Module → Prop} (hall : AllDefined M rs)
    (h0 : P [] M)
    (hs : ∀ done r N f N' h H, done ++ [r] <+: rs → P done N → Generation senc n M N r f N' h H →
      P (done ++ [r]) N')
    (hok : encapsulateAll senc n M rs = .ok M') : Kept senc M M' ∧ P rs M' := by
  refine Except.foldlM_ok (P := fun done N => Kept senc M N ∧ P done N) ⟨.refl senc M, h0⟩
    (fun done r N N' hpre h hstep => ?_) hok
  obtain ⟨f, hf, hdef⟩ := hall r (hpre.subset (List.mem_append_right _ (List.mem_singleton_self r)))
  obtain ⟨k, H, hg⟩ := h.1.generation hf hdef hstep
  exact ⟨hg.keeps, hs done r N f N' k H hpre h.2 hg⟩

/-- The generations return exactly if each request could be met first. -/
theorem encapsulateAll_returns_iff (hall : AllDefined M rs) :
    (∃ M', encapsulateAll senc n M rs = .ok M') ↔
      ∀ r ∈ rs, ∀ f, M.functions[r.F]? = some f → Buildable senc M f n := by
  constructor
  · rintro ⟨M', hok⟩
    refine (encapsulateAll_inv (P := fun done _ => ∀ r ∈ done, ∀ f, M.functions[r.F]? = some f →
      Buildable senc M f n) hall (fun _ hr => by cases hr) ?_ hok).2
    intro done r N f N' h H _ hd hg r' hr' f' hf'
    rcases List.mem_append.1 hr' with hr' | hr'
    · exact hd r' hr' f' hf'
    · rw [List.mem_singleton.1 hr', hg.asked] at hf'
      cases hf'
      exact hg.kept.buildable hg.buildable
  · intro hbuild
    obtain ⟨M', hok, -⟩ := Except.foldlM_progress (P := fun _ N => Kept senc M N)
      (f := fun N r => (senc.encapsulate N r.F n r.argSpecs).map Prod.fst) (l := rs)
      (.refl senc M) (fun done r N hpre hk => by
        have hr := hpre.subset (List.mem_append_right _ (List.mem_singleton_self r))
        obtain ⟨f, hf, hdef⟩ := hall r hr
        have hb := hbuild r hr f hf
        obtain ⟨N', hok⟩ := encapsulate_progress (F := r.F) (M := N) r.argSpecs
          (hk.functions r.F f hf hb.params_ne) hdef
          ⟨hk.later.encapsulable f hb.toEncapsulable, hb.two_le⟩
        have hmap : (senc.encapsulate N r.F n r.argSpecs).map Prod.fst = .ok N' := by
          rw [hok]
          rfl
        obtain ⟨h, H, hg⟩ := hk.generation hf hdef hmap
        exact ⟨N', hmap, hg.keeps⟩)
    exact ⟨M', hok⟩

end

end Ephippion
