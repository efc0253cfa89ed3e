import Ephippion.Proof.Requests
import Ephippion.Theorems.ModuleLoop

/-!
# The loop over a module ends

What `encapsulateModule` appends are declarations, which it passes over, and harnesses, at which it
stops: it always ends (`encapsulateModule_ends`). It ends well exactly if each defined function can
be encapsulated and its harness is declared before it (`encapsulateModule_returns_iff`), so that it
is not visited once it has a body.
-/

namespace Ephippion

open SymbolicEncapsulation

/-- From `K` on there are declarations and functions without parameters. -/
def QuietFrom (K : Nat) (N : Module) : Prop :=
  ∀ (g : Nat) f, K ≤ g → N.functions[g]? = some f → f.isDeclaration ∨ f.params = []

/-- The function's harness is declared, at a place before `F`, and has no body. -/
def DeclaredBefore (senc : SymbolicEncapsulation) (M : Module) (F : Nat) (f : Function) : Prop :=
  ∃ ref, M.getFunction (senc.harnessName f) = some ref ∧ ref.index < F ∧ M.blocks ref.index = []

section
variable {senc : SymbolicEncapsulation} {n : IterationsNumTy} {M N N' : Module} {F K : Nat}
  {f : Function}

theorem encapsulate_declaration {specs : List ArgSpec} (hf : N.functions[F]? = some f)
    (hdecl : f.isDeclaration) : senc.encapsulate N F n specs = .ok (N, false) := by
  simp [encapsulate, encapsulateImpl, hf, hdecl]

/-! ## The loop ends -/

theorem encapsulateFrom_mono : ∀ {fuel fuel' : Nat} {N : Module} {F : Nat} {changed : Bool}
    {r : Except Stop (Module × Bool)}, senc.encapsulateFrom n fuel N F changed = some r →
      fuel ≤ fuel' → senc.encapsulateFrom n fuel' N F changed = some r
  | 0, _, _, _, _, _, h, _ => by cases h
  | fuel + 1, 0, _, _, _, _, _, hle => by omega
  | fuel + 1, fuel' + 1, N, F, changed, r, h, hle => by
    rw [encapsulateFrom] at h ⊢
    split
    · rename_i hlt
      rw [if_pos hlt] at h
      cases henc : senc.encapsulate N F n with
      | error stop =>
        rw [henc] at h
        exact h
      | ok p =>
        rw [henc] at h
        exact encapsulateFrom_mono h (Nat.le_of_succ_le_succ hle)
    · rename_i hge
      rwa [if_neg hge] at h

/-- A generation appends declarations and its harness. -/
theorem QuietFrom.encapsulate {specs : List ArgSpec} {changed : Bool} (hq : QuietFrom K N)
    (hok : senc.encapsulate N F n specs = .ok (N', changed)) : QuietFrom K N' := by
  cases hf : N.functions[F]? with
  | none =>
    simp only [SymbolicEncapsulation.encapsulate, encapsulateImpl, hf, Except.ok.injEq,
      Prod.mk.injEq] at hok
    exact hok.1 ▸ hq
  | some f =>
    cases hdef : f.isDeclaration with
    | true =>
      rw [encapsulate_declaration hf hdef] at hok
      cases hok
      exact hq
    | false =>
      obtain ⟨-, -, h, H, hb⟩ := encapsulate_of_ok hf hdef hok
      intro g f' hK hf'
      by_cases hgh : g = h
      · subst hgh
        have hs := hb.sig
        rw [Module.sig, List.getElem?_map, hf', Option.map_some, Option.some.injEq] at hs
        exact .inr (List.map_eq_nil_iff.1 (congrArg (fun p => p.2.params) hs))
      · rcases Nat.lt_or_ge g N.functions.length with hlt | hge
        · rw [hb.others g hlt hgh] at hf'
          exact hq g f' hK hf'
        · exact .inl (hb.new g f' hge hgh hf').2

theorem QuietFrom.ends : ∀ (k : Nat) {F : Nat} (changed : Bool), QuietFrom F N →
    N.functions.length ≤ F + k → ∃ r, senc.encapsulateFrom n (k + 1) N F changed = some r
  | 0, F, changed, hq, hk => ⟨_, by rw [encapsulateFrom, if_neg (by omega)]⟩
  | k + 1, F, changed, hq, hk => by
    rw [encapsulateFrom]
    split
    · rename_i hlt
      have hf := List.getElem?_eq_getElem hlt
      cases hdef : N.functions[F].isDeclaration with
      | true =>
        rw [encapsulate_declaration hf hdef]
        exact QuietFrom.ends k _ (fun g f' hg => hq g f' (by omega)) (by omega)
      | false =>
        have hparams := (hq F _ (Nat.le_refl F) hf).resolve_left (by simp [hdef])
        cases henc : senc.encapsulate N F n with
        | error stop => exact ⟨_, rfl⟩
        | ok p =>
          obtain ⟨-, hbuild, -⟩ := encapsulate_of_ok hf hdef henc
          exact (hbuild.params_ne hparams).elim
    · exact ⟨_, rfl⟩

theorem encapsulateFrom_ends : ∀ (k : Nat) {N : Module} {F : Nat} (changed : Bool),
    QuietFrom (F + k) N → ∃ fuel r, senc.encapsulateFrom n fuel N F changed = some r
  | 0, N, F, changed, hq => by
    exact ⟨_, hq.ends N.functions.length changed (by omega)⟩
  | k + 1, N, F, changed, hq => by
    by_cases hlt : F < N.functions.length
    · cases henc : senc.encapsulate N F n with
      | error stop => exact ⟨1, .error stop, by rw [encapsulateFrom, if_pos hlt, henc]⟩
      | ok p =>
        obtain ⟨N', changed'⟩ := p
        obtain ⟨fuel, r, hr⟩ := encapsulateFrom_ends k (changed || changed') (F := F + 1) (N := N')
          (by
            rw [show F + 1 + k = F + (k + 1) by omega]
            exact hq.encapsulate henc)
        exact ⟨fuel + 1, r, by rw [encapsulateFrom, if_pos hlt, henc]; exact hr⟩
    · exact ⟨1, .ok (N, changed), by rw [encapsulateFrom, if_neg hlt]⟩

/-! ## The loop ends well -/

/-- A loop that ends well has generated a harness for each defined function it came to. -/
theorem encapsulateFrom_visits : ∀ {fuel : Nat} {N : Module} {F : Nat} {changed : Bool}
    {r : Module × Bool}, senc.encapsulateFrom n fuel N F changed = some (.ok r) → Kept senc M N →
      ∀ {G : Nat}, F ≤ G → M.functions[G]? = some f → f.isDeclaration = false →
      ∃ N₁ N₂ h H fuel' changed', Generation senc n M N₁ ⟨G, []⟩ f N₂ h H ∧
        senc.encapsulateFrom n fuel' N₂ (G + 1) changed' = some (.ok r)
  | 0, _, _, _, _, hok, _, _, _, _, _ => by cases hok
  | fuel + 1, N, F, changed, r, hok, hk, G, hFG, hf, hdef => by
    have hG := (List.getElem?_eq_some_iff.1 hf).1
    have hle := hk.later.length_le
    rw [encapsulateFrom, if_pos (by omega)] at hok
    cases henc : senc.encapsulate N F n with
    | error stop =>
      rw [henc] at hok
      cases hok
    | ok p =>
      obtain ⟨N', changed'⟩ := p
      rw [henc] at hok
      rcases Nat.lt_or_eq_of_le hFG with hlt | rfl
      · exact encapsulateFrom_visits hok (hk.trans (encapsulate_kept henc)) hlt hf hdef
      · have hmap : (senc.encapsulate N F n []).map Prod.fst = .ok N' := by
          rw [henc]
          rfl
        obtain ⟨h, H, hg⟩ := hk.generation (r := ⟨F, []⟩) hf hdef hmap
        exact ⟨N, N', h, H, fuel, _, hg, hok⟩

theorem declaredBefore_of_ok {fuel : Nat} {r : Module × Bool}
    (hok : senc.encapsulateModule fuel M n = some (.ok r)) (hf : M.functions[F]? = some f)
    (hdef : f.isDeclaration = false) : Buildable senc M f n ∧ DeclaredBefore senc M F f := by
  obtain ⟨N, N', h, H, fuel', changed', hg, hrest⟩ :=
    encapsulateFrom_visits hok (.refl senc M) (Nat.zero_le F) hf hdef
  have hF := (List.getElem?_eq_some_iff.1 hf).1
  have hle := hg.kept.later.length_le
  have hh : h < N'.functions.length := by
    simpa [Module.sig] using (List.getElem?_eq_some_iff.1 hg.built.sig).1
  -- it is not visited any more
  have hlt : h < F + 1 := by
    by_contra hge
    exact encapsulateFrom_ne_ok fuel' (Nat.le_of_not_lt hge) hh hg.built.sig
      (Nat.lt_of_le_of_lt (Nat.zero_le _) hg.built.length_blocks_lt) hrest
  have hne : h ≠ F := by
    rintro rfl
    apply hg.buildable.params_ne
    have hs := hg.built.sig
    rw [hg.built.sig_kept (by omega), Module.sig, List.getElem?_map, hg.found, Option.map_some,
      Option.some.injEq] at hs
    exact List.map_eq_nil_iff.1 (congrArg (fun p => p.2.params) hs)
  have hs : M.sig[h]? = some (senc.harnessName f, harnessType) := by
    rw [← hg.kept.later.sig h (by omega), ← hg.built.sig_kept (by omega), hg.built.sig]
  have hname : senc.harnessName f ≠ "" := by
    intro h0
    rcases hg.built.lookup with hl | ⟨-, hl⟩
    · rw [h0, Module.getNamedValue_eq, if_pos rfl] at hl
      cases hl
    · omega
  refine ⟨hg.kept.buildable hg.buildable, _, getFunction_of_sig hname hs,
    show h < F by omega, ?_⟩
  -- with a body it would have been stopped at
  by_contra hbody
  exact encapsulateFrom_ne_ok fuel (Nat.zero_le h) (by omega) hs (List.length_pos_iff.2 hbody) hok

theorem encapsulateFrom_rest : ∀ (k : Nat) {F : Nat} (changed : Bool),
    (∀ g f, F ≤ g → N.functions[g]? = some f → f.isDeclaration) → N.functions.length ≤ F + k →
      senc.encapsulateFrom n (k + 1) N F changed = some (.ok (N, changed))
  | 0, F, changed, hdecl, hk => by rw [encapsulateFrom, if_neg (by omega)]
  | k + 1, F, changed, hdecl, hk => by
    rw [encapsulateFrom]
    split
    · rename_i hlt
      have hf := List.getElem?_eq_getElem hlt
      rw [encapsulate_declaration hf (hdecl F _ (Nat.le_refl F) hf)]
      show senc.encapsulateFrom n (k + 1) N (F + 1) (changed || false) = _
      rw [Bool.or_false]
      exact encapsulateFrom_rest k changed (fun g f' hg => hdecl g f' (by omega)) (by omega)
    · rfl

/-- What the loop has made of `M` when it comes to `F`: what is still to be visited is as it was, or
a declaration. -/
structure Visiting (senc : SymbolicEncapsulation) (M : Module) (F : Nat) (N : Module) : Prop where
  kept : Kept senc M N
  old : ∀ g, F ≤ g → g < M.functions.length → N.functions[g]? = M.functions[g]?
  new : ∀ (g : Nat) f, M.functions.length ≤ g → N.functions[g]? = some f → f.isDeclaration

theorem Visiting.step (hv : Visiting senc M F N) (hf : M.functions[F]? = some f)
    (hdef : f.isDeclaration = false) (hbuild : Buildable senc M f n)
    (hbefore : DeclaredBefore senc M F f) :
    ∃ N', senc.encapsulate N F n = .ok (N', true) ∧ Visiting senc M (F + 1) N' := by
  obtain ⟨N', hok⟩ := encapsulate_progress (F := F) [] (hv.kept.functions F f hf hbuild.params_ne)
    hdef ⟨hv.kept.later.encapsulable f hbuild.toEncapsulable, hbuild.two_le⟩
  have hmap : (senc.encapsulate N F n []).map Prod.fst = .ok N' := by
    rw [hok]
    rfl
  obtain ⟨h, H, hg⟩ := hv.kept.generation (r := ⟨F, []⟩) hf hdef hmap
  obtain ⟨ref, href, hlt, -⟩ := hbefore
  have hle := hv.kept.later.length_le
  have hF := (List.getElem?_eq_some_iff.1 hf).1
  have hh : h < F := by
    have hN := hv.kept.names _ _ (getFunction_eq_some.1 href)
    rcases hg.built.lookup with hl | ⟨hl, -⟩
    · rw [hl] at hN
      cases hN
      exact hlt
    · rw [hl] at hN
      cases hN
  refine ⟨N', hok, hg.keeps, fun g hFg hlt' => ?_, fun g f' hge hf' => ?_⟩
  · rw [hg.built.others g (by omega) (by omega), hv.old g (by omega) hlt']
  · rcases Nat.lt_or_ge g N.functions.length with hlt' | hge'
    · rw [hg.built.others g hlt' (by omega)] at hf'
      exact hv.new g f' hge hf'
    · exact (hg.built.new g f' hge' (by omega) hf').2

theorem Visiting.returns (hall : ∀ F f, M.functions[F]? = some f → f.isDeclaration = false →
    Buildable senc M f n ∧ DeclaredBefore senc M F f) : ∀ (k : Nat) {F : Nat} {N : Module}
      (changed : Bool), Visiting senc M F N → F + k = M.functions.length →
        ∃ fuel r, senc.encapsulateFrom n fuel N F changed = some (.ok r)
  | 0, F, N, changed, hv, hk => by
    refine ⟨_, _, encapsulateFrom_rest N.functions.length changed (fun g f hg hf => ?_) (by omega)⟩
    exact hv.new g f (by omega) hf
  | k + 1, F, N, changed, hv, hk => by
    have hle := hv.kept.later.length_le
    have hf := List.getElem?_eq_getElem (show F < M.functions.length by omega)
    cases hdef : M.functions[F].isDeclaration with
    | true =>
      have hN := (hv.old F (Nat.le_refl F) (by omega)).trans hf
      obtain ⟨fuel, r, hr⟩ := Visiting.returns hall k (changed || false) (F := F + 1) (N := N)
        ⟨hv.kept, fun g hg => hv.old g (by omega), hv.new⟩ (by omega)
      refine ⟨fuel + 1, r, ?_⟩
      rw [encapsulateFrom, if_pos (by omega), encapsulate_declaration hN hdef]
      exact hr
    | false =>
      obtain ⟨hbuild, hbefore⟩ := hall F _ hf hdef
      obtain ⟨N', hok, hv'⟩ := hv.step hf hdef hbuild hbefore
      obtain ⟨fuel, r, hr⟩ := Visiting.returns hall k (changed || true) hv' (by omega)
      refine ⟨fuel + 1, r, ?_⟩
      rw [encapsulateFrom, if_pos (by omega), hok]
      exact hr

end

/-- On every module the loop ends, though the list of functions grows. -/
theorem encapsulateModule_ends (senc : SymbolicEncapsulation) (M : Module) (n : IterationsNumTy) :
    ∃ k r, ∀ fuel, k ≤ fuel → senc.encapsulateModule fuel M n = some r := by
  have hquiet : QuietFrom (0 + M.functions.length) M := fun g f hg hf => by
    rw [List.getElem?_eq_none (by omega)] at hf
    cases hf
  obtain ⟨k, r, hr⟩ : ∃ k r, senc.encapsulateFrom n k M 0 false = some r :=
    encapsulateFrom_ends _ false hquiet
  exact ⟨k, r, fun fuel hle => encapsulateFrom_mono hr hle⟩

/-- The loop ends well exactly if each defined function can be encapsulated and comes after a
declaration of its harness. -/
theorem encapsulateModule_returns_iff (senc : SymbolicEncapsulation) (M : Module)
    (n : IterationsNumTy) : (∃ fuel r, senc.encapsulateModule fuel M n = some (.ok r)) ↔
      ∀ F f, M.functions[F]? = some f → f.isDeclaration = false →
        Buildable senc M f n ∧ DeclaredBefore senc M F f := by
  constructor
  · rintro ⟨fuel, r, hok⟩ F f hf hdef
    exact declaredBefore_of_ok hok hf hdef
  · intro hall
    refine Visiting.returns hall M.functions.length false ⟨.refl senc M, fun _ _ _ => rfl, ?_⟩
      (Nat.zero_add _)
    intro g f hg hf
    rw [List.getElem?_eq_none hg] at hf
    cases hf

end Ephippion
