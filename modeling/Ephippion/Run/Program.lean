import Ephippion.Lib.Refines
import Ephippion.Run.Harness

/-!
# The harness as a program

What a harness is for, in the order in which it happens and without blocks, branches or values: the
copies are allocated, made symbolic, handed to the calls with ascending and with descending
iterators, compared and freed (`Harness.program`). An effect without a meaning ends the program as
it ends a run. A run of the harness refines the program, in `Harness.steps` steps
(`HarnessAt.refines`): the effects are the same ones on the same memory and trace.
-/

namespace Ephippion

open ObjMem (Mem)
open Counted Machine

/-! ## The program -/

/-- An effect; the run is stuck where it has no meaning. -/
def attempt (c : Core) (e : Option Core) : Except Outcome Core :=
  match e with
  | some c' => .ok c'
  | none => .error (.stuck c)

namespace Slot

section
variable (W : World) (dl : DataLayout) (n : IterationsNumTy) (c : Core) (s : Slot)

/-- An object for each copy. -/
def allocate : Core :=
  let c := c.alloc W s.isPtr (s.size dl n)
  if s.outbound then c.alloc W s.isPtr (s.size dl n) else c

/-- The copies become symbolic, and the second one the same as the first one. -/
def makeSymbolic : Except Outcome Core := do
  if !s.symbolized then return c
  let c ← attempt c (c.symbolize W (s.obj .first) (s.size dl n) (s.symName "1" s.name1))
  if !s.outbound then return c
  let c ← attempt c (c.symbolize W (s.obj .second) (s.size dl n) (s.symName "2" s.name2))
  attempt c (c.copy (s.obj .second) (s.obj .first) (s.size dl n))

end

/-- The heap copies are freed, the second one first. -/
def release (c : Core) (s : Slot) : Except Outcome Core := do
  if !s.isPtr then return c
  if s.outbound then
    let c ← attempt c (c.free (s.obj .second))
    attempt c (c.free (s.obj .first))
  else attempt c (c.free (s.obj .first))

end Slot

namespace Harness

variable (W : World) (H : Harness)

/-- A call of sequence `k` with the iterator `v`. -/
def callOnce (k : Copy) (c : Core) (v : BitVec 64) : Except Outcome Core :=
  attempt c (c.call W (H.id k.body) (.int v :: H.slots.tail.map (Slot.passed c.mem k)))

/-- The check of a slot; `s.2` is its number. -/
def compareCopies (c : Core) (s : Slot × Nat) : Except Outcome Core :=
  match c.compare (s.1.obj .first) (s.1.obj .second) (s.1.comparedSize H.dl H.n).toNat with
  | some (true, c') => .ok c'
  | some (false, c') => .error (.failed (c'.log c'.mem (.assertFail (H.id (.fail s.2)))))
  | none => .error (.stuck c)

/-- The whole run, if it does not end early. -/
def program : Except Outcome Core := do
  let c := H.slots.foldl (Slot.allocate W H.dl H.n) ⟨[], []⟩
  let c ← H.slots.foldlM (Slot.makeSymbolic W H.dl H.n) c
  let c ← (H.iterators .first).foldlM (H.callOnce W .first) c
  let c ← (H.iterators .second).foldlM (H.callOnce W .second) c
  let c ← H.checked.zipIdx.foldlM H.compareCopies c
  H.slots.reverse.foldlM Slot.release c

/-- What the harness returns 0 with, or how it ends before. -/
def outcome : Outcome := outcomeOf (.returned (.int 0)) (H.program W)

/-- The number of blocks that are left until the exit block is entered: three for each call, and
one for each check. -/
def steps : Nat := 6 * H.n.toNat + H.m + 13

end Harness

/-! ## Straight-line code -/

section
variable {W : World} {M : Module} {F b prev : Nat} {pos : Nat} {env : InstRef → Option RVal}
  {c : Core}

/-- The instructions `is` of block `b` do what a program of result `r` does. -/
def Does (W : World) (M : Module) (F b prev : Nat) (is : List Instr) (pos : Nat)
    (env : InstRef → Option RVal) (c : Core) (r : Except Outcome Core) : Prop :=
  match r with
  | .ok c' => ∃ env', Runs W M F b prev is pos env c env' c'
  | .error o => ∀ rest, execInstrs W M F b prev (is ++ rest) pos env c = .inr o

namespace Does

theorem nil : Does W M F b prev [] pos env c (.ok c) := ⟨env, .nil ..⟩

theorem attempt {i : Instr} {v : Option RVal} {e : Option Core} (ht : i.op.isTerminator = false)
    (he : execOp W M F b prev env c i.op = .ofCore v e) :
    Does W M F b prev [i] pos env c (Ephippion.attempt c e) := by
  cases e with
  | some c' => exact ⟨_, .single ht he⟩
  | none =>
    intro rest
    rw [List.singleton_append, execInstrs_cons ht, he]
    rfl

theorem append {is is' : List Instr} {r : Except Outcome Core}
    {g : Core → Except Outcome Core} (h : Does W M F b prev is pos env c r)
    (hg : ∀ (env' : InstRef → Option RVal) (c' : Core),
      (∀ r : InstRef, r.block ≠ b → env' r = env r) →
        Does W M F b prev is' (pos + is.length) env' c' (g c')) :
    Does W M F b prev (is ++ is') pos env c (r >>= g) := by
  cases r with
  | error o =>
    intro rest
    rw [List.append_assoc]
    exact h _
  | ok c' =>
    obtain ⟨env', hr⟩ := h
    have hrest := hg env' c' fun r hb => hr.frame (.inl hb)
    show Does W M F b prev (is ++ is') pos env c (g c')
    cases hr' : g c' with
    | ok c'' =>
      rw [hr'] at hrest
      obtain ⟨env'', hrest⟩ := hrest
      exact ⟨env'', hr.append hrest⟩
    | error o =>
      rw [hr'] at hrest
      intro rest
      rw [List.append_assoc, hr.execInstrs]
      exact hrest rest

theorem cons {i : Instr} {is : List Instr} {r : Except Outcome Core}
    {g : Core → Except Outcome Core} (h : Does W M F b prev [i] pos env c r)
    (hg : ∀ (env' : InstRef → Option RVal) (c' : Core),
      (∀ r : InstRef, r.block ≠ b → env' r = env r) →
        Does W M F b prev is (pos + 1) env' c' (g c')) :
    Does W M F b prev (i :: is) pos env c (r >>= g) :=
  h.append hg

theorem foldlM {α : Type} {code : α → List Instr} {g : Core → α → Except Outcome Core} :
    ∀ {l : List α} {pos : Nat} {env : InstRef → Option RVal} {c : Core},
      (∀ a ∈ l, ∀ (pos : Nat) (env' : InstRef → Option RVal) (c : Core),
        (∀ r : InstRef, r.block ≠ b → env' r = env r) →
          Does W M F b prev (code a) pos env' c (g c a)) →
      Does W M F b prev (l.flatMap code) pos env c (l.foldlM g c)
  | [], _, _, _, _ => nil
  | a :: l, pos, env, c, h => by
    rw [List.flatMap_cons, List.foldlM_cons]
    refine (h a List.mem_cons_self pos env c fun _ _ => rfl).append fun env' c' henv => ?_
    exact foldlM fun a' ha' pos' env'' c'' henv' =>
      h a' (List.mem_cons_of_mem _ ha') pos' env'' c'' fun r hr => (henv' r hr).trans (henv r hr)

end Does

/-! ## The code of a slot -/

variable {base : Nat} {dl : DataLayout} {n : IterationsNumTy} {s : Slot} {slots : List Slot}
  {params : List Param} {specs : List ArgSpec}

theorem Slot.allocate_does {malloc : FuncRef} (hdl : M.dataLayout = dl)
    (hname : malloc.name = "malloc") (hne : s.isPtr → malloc.index ≠ F) :
    Does W M F b prev (s.setupInstrs dl n malloc) pos env c (.ok (s.allocate W dl n c)) := by
  have hterm : (s.setupOp dl n malloc).isTerminator = false := by
    unfold Slot.setupOp
    split <;> rfl
  have hone : ∀ (name : String) (pos : Nat) (env : InstRef → Option RVal) (c : Core),
      Runs W M F b prev [⟨s.setupOp dl n malloc, name⟩] pos env c
        (setValue env ⟨b, pos⟩ (some (.ptr c.mem.length))) (c.alloc W s.isPtr (s.size dl n)) :=
    fun name pos env c => .single hterm (execOp_setupOp hdl hname hne)
  unfold Slot.setupInstrs Slot.allocate
  cases s.outbound with
  | false => exact ⟨_, hone s.name1 pos env c⟩
  | true => exact ⟨_, .cons hterm (execOp_setupOp hdl hname hne) (hone s.name2 _ _ _)⟩

theorem execOp_symbolize_eq {symbolize : FuncRef} (hname : symbolize.name = "klee_make_symbolic")
    (hne : symbolize.index ≠ F) {v : Value} {o : Nat} (hv : v.eval env = some (.ptr o))
    (a : BitVec 64) (str : String) :
    execOp W M F b prev env c (.call symbolize [v, getIntN 64 a, .globalString str]) =
      .ofCore none (c.symbolize W o a.toNat str) := by
  simp [execOp, hv, Value.eval, getIntN, hne, libCall, hname]

theorem execOp_memcpy_eq {memcpy : FuncRef} (hname : memcpy.name = "memcpy")
    (hne : memcpy.index ≠ F) {d v : Value} {o o' : Nat} (hd : d.eval env = some (.ptr o))
    (hv : v.eval env = some (.ptr o')) (a : BitVec 64) :
    execOp W M F b prev env c (.call memcpy [d, v, getIntN 64 a]) =
      .ofCore (some (.ptr o)) (c.copy o o' a.toNat) := by
  simp [execOp, hd, hv, Value.eval, getIntN, hne, libCall, hname]

theorem Slot.makeSymbolic_does {symbolize memcpy : FuncRef}
    (hl : IsLayout params specs slots) (hs : s ∈ slots) (hp : Pointers base slots env)
    (hb : b ≠ base) (hsym : symbolize.name = "klee_make_symbolic") (hsymF : symbolize.index ≠ F)
    (hcpy : memcpy.name = "memcpy") (hcpyF : memcpy.index ≠ F) :
    Does W M F b prev (s.symInstrs base dl n symbolize memcpy) pos env c
      (s.makeSymbolic W dl n c) := by
  have heval : ∀ {env' : InstRef → Option RVal}, (∀ r : InstRef, r.block ≠ b → env' r = env r) →
      ∀ k, (s.valueOf base dl k).eval env' = some (.ptr (s.obj k)) := fun henv k =>
    (hp.congr fun i => henv ⟨base, i⟩ hb.symm).eval hl dl hs k
  cases hy : s.symbolized with
  | false =>
    simp only [Slot.symInstrs, Slot.makeSymbolic, hy, Bool.false_eq_true, ite_false, Bool.not_false,
      ite_true]
    exact .nil
  | true =>
    simp only [Slot.symInstrs, Slot.makeSymbolic, hy, ite_true, Bool.not_true, Bool.false_eq_true,
      ite_false]
    refine Does.cons (.attempt rfl (execOp_symbolize_eq hsym hsymF
      (heval (fun _ _ => rfl) .first) _ _)) fun env₁ c₁ henv₁ => ?_
    cases hout : s.outbound with
    | false => exact .nil
    | true =>
      refine Does.cons (.attempt rfl (execOp_symbolize_eq hsym hsymF
        (heval henv₁ .second) _ _)) fun env₂ c₂ henv₂ => ?_
      have henv : ∀ r : InstRef, r.block ≠ b → env₂ r = env r := fun r hr =>
        (henv₂ r hr).trans (henv₁ r hr)
      exact .attempt rfl (execOp_memcpy_eq hcpy hcpyF (heval henv .second) (heval henv .first) _)

theorem Slot.release_does {free : FuncRef} (hl : IsLayout params specs slots) (hs : s ∈ slots)
    (hp : Pointers base slots env) (hb : b ≠ base) (hname : free.name = "free")
    (hne : free.index ≠ F) :
    Does W M F b prev ((s.heapValues base dl).reverse.map fun v => ⟨.call free [v], ""⟩) pos env c
      (s.release c) := by
  have hfree : ∀ {env' : InstRef → Option RVal}, (∀ r : InstRef, r.block ≠ b → env' r = env r) →
      ∀ (k : Copy) (pos : Nat) (c : Core),
        Does W M F b prev [⟨.call free [s.valueOf base dl k], ""⟩] pos env' c
          (attempt c (c.free (s.obj k))) := fun henv k pos c =>
    .attempt rfl (execOp_free prev hname hne
      ((hp.congr fun i => henv ⟨base, i⟩ hb.symm).eval hl dl hs k))
  cases hptr : s.isPtr with
  | false =>
    simp only [Slot.heapValues, Slot.release, hptr, Bool.false_eq_true, ite_false, Bool.not_false,
      ite_true]
    exact .nil
  | true =>
    cases hout : s.outbound with
    | false =>
      simp only [Slot.heapValues, Slot.release, hptr, hout, Bool.false_eq_true, ite_false,
        Bool.not_true, ite_true]
      exact hfree (fun _ _ => rfl) .first pos c
    | true =>
      simp only [Slot.heapValues, Slot.release, hptr, hout, Bool.false_eq_true, ite_false,
        Bool.not_true, ite_true]
      exact Does.cons (hfree (fun _ _ => rfl) .second pos c)
        fun env' c' henv => hfree henv .first _ c'

end

end Ephippion
