import Mathlib.Algebra.Group.Int.Defs
import Mathlib.Algebra.GroupWithZero.Nat
import Mathlib.Tactic.Common

/-!
# Counted loops

A counted loop tests its counter before each round and steps it after: `Counts test next v vs` says
that from counter `v` on the rounds' counters are `vs`. If the test is against a bound and each step
comes closer to it, the loop ends and its counters are an arithmetic progression
(`Counts.progression`). Two such loops over signed machine integers: `Counts.ascending`, which stops
at its bound, and `Counts.descending`, which stops below its bound, neither of them wrapping; and
those from and to 0 with step 1, `Counts.up` and `Counts.down`.
-/

namespace Counted

variable {α : Type} (test : α → Bool) (next : α → α)

inductive Counts : α → List α → Prop
  | done {v : α} : test v = false → Counts v []
  | next {v : α} {vs : List α} : test v = true → Counts (next v) vs → Counts v (v :: vs)

variable {test next}

/-! ## Progressions -/

/-- The values of the list are `a`, `a + s`, `a + 2 * s`, …, as long as they are below `b`. -/
def IsProgression (val : α → Int) (a s b : Int) (vs : List α) : Prop :=
  ∀ k : Nat, vs[k]?.map val = if a + k * s < b then some (a + k * s) else none

section
variable {val : α → Int} {a s b : Int} {vs vs' : List α}

theorem IsProgression.eq (hval : Function.Injective val) (h : IsProgression val a s b vs)
    (h' : IsProgression val a s b vs') : vs = vs' :=
  List.ext_getElem? fun k => Option.map_injective hval ((h k).trans (h' k).symm)

theorem IsProgression.mem (h : IsProgression val a s b vs) (hs : 0 < s) {v : α} (hv : v ∈ vs) :
    a ≤ val v ∧ val v < b := by
  obtain ⟨k, hk⟩ := List.getElem?_of_mem hv
  have hval := h k
  have hpos : 0 ≤ (k : Int) * s := Int.mul_nonneg (Int.natCast_nonneg k) (Int.le_of_lt hs)
  rw [hk, Option.map_some] at hval
  split at hval
  · have := Option.some.inj hval
    omega
  · cases hval

/-- A loop that tests against a bound and counts by a positive step. -/
theorem Counts.progression (hs : 0 < s) (htest : ∀ v, test v = decide (val v < b))
    (hnext : ∀ v, val v < b → val (next v) = val v + s) (v : α) :
    ∃ vs, Counts test next v vs ∧ IsProgression val (val v) s b vs := by
  have hdone : ∀ v, ¬ val v < b → Counts test next v [] ∧ IsProgression val (val v) s b [] :=
    fun v hv => ⟨.done (by rw [htest, decide_eq_false hv]), fun k => by
      have hpos : 0 ≤ (k : Int) * s := Int.mul_nonneg (Int.natCast_nonneg k) (Int.le_of_lt hs)
      rw [if_neg (by omega)]
      rfl⟩
  -- on the distance to the bound
  have key : ∀ (d : Nat) (v : α), (b - val v).toNat ≤ d →
      ∃ vs, Counts test next v vs ∧ IsProgression val (val v) s b vs := by
    intro d
    induction d with
    | zero => exact fun v hv => ⟨[], hdone v (by omega)⟩
    | succ d ih =>
      intro v hv
      by_cases hlt : val v < b
      · have hv' := hnext v hlt
        obtain ⟨vs, hc, hp⟩ := ih (next v) (by omega)
        refine ⟨v :: vs, .next (by rw [htest, decide_eq_true hlt]) hc, fun k => ?_⟩
        cases k with
        | zero => simp [hlt]
        | succ k =>
          have hmul : ((k + 1 : Nat) : Int) * s = k * s + s := by
            rw [Int.natCast_succ, Int.add_mul, Int.one_mul]
          have hstep : val v + (k + 1 : Nat) * s = val (next v) + k * s := by
            rw [hv', hmul]
            omega
          rw [List.getElem?_cons_succ, hp k, hstep]
      · exact ⟨[], hdone v hlt⟩
  exact key _ v (Nat.le_refl _)

end

/-! ## Signed machine integers -/

section
variable {s b : BitVec 64}

theorem saddOverflow_of_lt (hs : 0 < s.toInt) (hb : b.toInt + s.toInt ≤ 2 ^ 63) {v : BitVec 64}
    (hv : v.toInt < b.toInt) : v.saddOverflow s = false := by
  have hmin := BitVec.le_toInt v
  simp only [BitVec.saddOverflow, Bool.or_eq_false_iff, decide_eq_false_iff_not]
  omega

theorem ssubOverflow_of_le (hs : 0 < s.toInt) (hb : -2 ^ 63 ≤ b.toInt - s.toInt) {v : BitVec 64}
    (hv : b.toInt ≤ v.toInt) : v.ssubOverflow s = false := by
  have hmax : v.toInt < 2 ^ 63 := BitVec.toInt_lt
  simp only [BitVec.ssubOverflow, Bool.or_eq_false_iff, decide_eq_false_iff_not]
  omega

/-- Counting up by `s` below `b`. -/
theorem Counts.ascending (hs : 0 < s.toInt) (hb : b.toInt + s.toInt ≤ 2 ^ 63) (a : BitVec 64) :
    ∃ vs, Counts (fun v => v.slt b) (· + s) a vs ∧
      IsProgression BitVec.toInt a.toInt s.toInt b.toInt vs :=
  Counts.progression hs (fun _ => BitVec.slt_eq_decide)
    (fun _ hv => BitVec.toInt_add_of_not_saddOverflow (by simp [saddOverflow_of_lt hs hb hv])) a

/-- Counting down by `s` as far as `b`. -/
theorem Counts.descending (hs : 0 < s.toInt) (hb : -2 ^ 63 ≤ b.toInt - s.toInt) (a : BitVec 64) :
    ∃ vs, Counts (fun v => b.sle v) (· - s) a vs ∧
      IsProgression (fun v => -v.toInt) (-a.toInt) s.toInt (-b.toInt + 1) vs := by
  refine Counts.progression hs (fun v => ?_) (fun v hv => ?_) a
  · rw [BitVec.sle_eq_decide, decide_eq_decide]
    omega
  · have hle : b.toInt ≤ v.toInt := by omega
    rw [BitVec.toInt_sub_of_not_ssubOverflow (by simp [ssubOverflow_of_le hs hb hle])]
    omega

end

/-- The numbers below `n`, as machine integers. -/
def upTo (w n : Nat) : List (BitVec w) := (List.range n).map (BitVec.ofNat w)

@[simp] theorem length_upTo (w n : Nat) : (upTo w n).length = n := by simp [upTo]

theorem upTo_succ (w n : Nat) : upTo w (n + 1) = upTo w n ++ [BitVec.ofNat w n] := by
  simp [upTo, List.range_succ]

theorem reverse_upTo_succ (w n : Nat) : ∃ vs, (upTo w (n + 1)).reverse = vs ++ [0] := by
  refine ⟨(((List.range n).map Nat.succ).map (BitVec.ofNat w)).reverse, ?_⟩
  rw [upTo, List.range_succ_eq_map, List.map_cons, List.reverse_cons]
  rfl

theorem toInt_ofNat_64 {n : Nat} (hn : n < 2 ^ 63) : (BitVec.ofNat 64 n).toInt = n := by
  rw [BitVec.toInt_eq_toNat_of_lt] <;> rw [BitVec.toNat_ofNat] <;> omega

theorem upTo_progression {n : Nat} (hn : n ≤ 2 ^ 63) :
    IsProgression BitVec.toInt 0 1 n (upTo 64 n) := fun k => by
  by_cases hk : k < n
  · rw [upTo, List.getElem?_map, List.getElem?_range hk, if_pos (by omega)]
    simp [toInt_ofNat_64 (show k < 2 ^ 63 by omega)]
  · rw [List.getElem?_eq_none (by simpa using hk), if_neg (by omega)]
    rfl

theorem Counts.up {n : Nat} (hn : n < 2 ^ 63) :
    Counts (fun v => v.slt (BitVec.ofNat 64 n)) (· + 1) 0 (upTo 64 n) := by
  have hb := toInt_ofNat_64 hn
  obtain ⟨vs, hc, hp⟩ := Counts.ascending (s := 1) (by decide)
    (show (BitVec.ofNat 64 n).toInt + (1 : BitVec 64).toInt ≤ 2 ^ 63 by
      rw [hb, show (1 : BitVec 64).toInt = 1 by decide]; omega) 0
  rw [hb] at hp
  exact hp.eq (fun _ _ => BitVec.eq_of_toInt_eq) (upTo_progression (by omega)) ▸ hc

theorem Counts.down {n : Nat} (hn : n < 2 ^ 63) :
    Counts (fun v => (0 : BitVec 64).sle v) (· - 1) (BitVec.ofNat 64 n)
      (upTo 64 (n + 1)).reverse := by
  obtain ⟨vs, hc, hp⟩ := Counts.descending (s := 1) (b := 0) (by decide) (by decide)
    (BitVec.ofNat 64 n)
  have hrev : IsProgression (fun v => -v.toInt) (-(BitVec.ofNat 64 n).toInt) 1 1
      (upTo 64 (n + 1)).reverse := fun k => by
    have hup := upTo_progression (n := n + 1) (by omega) (n - k)
    rw [toInt_ofNat_64 hn]
    by_cases hk : k < n + 1
    · have hlen : k < (upTo 64 (n + 1)).length := by simpa using hk
      rw [List.getElem?_reverse hlen, length_upTo, show n + 1 - 1 - k = n - k by omega]
      rw [if_pos (by omega)] at hup
      obtain ⟨v, hv, hval⟩ := Option.map_eq_some_iff.1 hup
      rw [hv, if_pos (by omega), Option.map_some, hval]
      congr 1
      omega
    · rw [List.getElem?_eq_none (by simpa using hk), if_neg (by omega)]
      rfl
  have hinj : Function.Injective fun v : BitVec 64 => -v.toInt := fun v v' hv =>
    BitVec.eq_of_toInt_eq (Int.neg_inj.1 hv)
  exact hp.eq hinj hrev ▸ hc

end Counted
