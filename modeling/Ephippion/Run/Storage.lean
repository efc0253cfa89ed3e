import Ephippion.Harness.Blocks
import Ephippion.Run.Events
import Mathlib.Data.List.Pairwise

/-!
# The storage of a run

The setup block creates one object at each of its positions, and memory is empty before, so a copy
of an argument is the object of its position: `Slot.obj`. `Stored` says that every copy is live and
has its size, `Pointers` that the values of the setup block point to the copies, `contents` is what
the copies of one call sequence hold.
-/

namespace Ephippion

open ObjMem (Byte Cell Mem bytesAt)

/-- The copies of the arguments, one for each sequence of calls. -/
inductive Copy
  | first | second
  deriving DecidableEq, Repr

namespace Slot

variable (setup : Nat) (dl : DataLayout) (n : IterationsNumTy) (s : Slot)

/-- The object of a copy; an argument that is not outbound has only one. -/
def obj : Copy → Nat
  | .first => s.idx
  | .second => s.idx2

def valueOf : Copy → Value
  | .first => s.value1 setup dl
  | .second => s.value2 setup dl

/-- The number of bytes of a copy. -/
def size : Nat := (s.allocSize dl n).toNat

theorem valueOf_eq (k : Copy) :
    ∃ name, s.valueOf setup dl k = s.value setup dl (s.obj k) name := by
  cases k with
  | first => exact ⟨s.name1, rfl⟩
  | second =>
    cases hout : s.outbound with
    | true => exact ⟨s.name2, by simp [valueOf, value2, obj, idx2, hout]⟩
    | false => exact ⟨s.name1, by simp [valueOf, value2, value1, obj, idx2, hout]⟩

theorem obj_bounds (k : Copy) : s.idx ≤ s.obj k ∧ s.obj k < s.idx + s.width := by
  have := s.width_pos
  cases k with
  | first => exact ⟨Nat.le_refl _, by simp [obj]; omega⟩
  | second =>
    cases hout : s.outbound <;> simp [obj, idx2, width, hout]

theorem obj_of_not_outbound (hout : s.outbound = false) (k : Copy) : s.obj k = s.idx := by
  cases k <;> simp [obj, idx2, hout]

theorem obj_ne (hout : s.outbound = true) : s.obj .second ≠ s.obj .first := by
  simp [obj, idx2, hout]

end Slot

theorem slotsWidth_take_succ {slots : List Slot} {k : Nat} {s : Slot} (hs : slots[k]? = some s) :
    slotsWidth (slots.take (k + 1)) = slotsWidth (slots.take k) + s.width := by
  rw [List.take_add_one, hs, slotsWidth_append]
  simp [slotsWidth]

theorem slotsWidth_take_le (slots : List Slot) {i j : Nat} (hij : i ≤ j) :
    slotsWidth (slots.take i) ≤ slotsWidth (slots.take j) := by
  have : slots.take j = slots.take i ++ (slots.take j).drop i := by
    have h := (List.take_append_drop i (slots.take j)).symm
    rwa [List.take_take, Nat.min_eq_left hij] at h
  rw [this, slotsWidth_append]
  omega

namespace IsLayout

variable {params : List Param} {specs : List ArgSpec} {slots : List Slot}

theorem obj_lt (hl : IsLayout params specs slots) {s : Slot} (hs : s ∈ slots) (k : Copy) :
    s.obj k < slotsWidth slots := by
  obtain ⟨i, hi⟩ := List.getElem?_of_mem hs
  have h1 := (hl.at_pos i s hi).2.2
  have h2 := slotsWidth_take_succ hi
  have h3 : slotsWidth (slots.take (i + 1)) ≤ slotsWidth slots := by
    have hlt := (List.getElem?_eq_some_iff.1 hi).1
    have := slotsWidth_take_le slots (show i + 1 ≤ slots.length by omega)
    rwa [List.take_length] at this
  have := (s.obj_bounds k).2
  omega

theorem apart (hl : IsLayout params specs slots) :
    slots.Pairwise fun s s' => ∀ k k', s.obj k ≠ s'.obj k' := by
  rw [List.pairwise_iff_getElem]
  intro i j hi hj hij k k'
  have h1 := (hl.at_pos i _ (List.getElem?_eq_getElem hi)).2.2
  have h2 := (hl.at_pos j _ (List.getElem?_eq_getElem hj)).2.2
  have h3 := slotsWidth_take_succ (List.getElem?_eq_getElem hi)
  have h4 := slotsWidth_take_le slots (show i + 1 ≤ j by omega)
  have h5 := slots[i].obj_bounds k
  have h6 := slots[j].obj_bounds k'
  omega

theorem obj_ne (hl : IsLayout params specs slots) {s s' : Slot} (hs : s ∈ slots) (hs' : s' ∈ slots)
    (hne : s ≠ s') (k k' : Copy) : s.obj k ≠ s'.obj k' := by
  have : Std.Symm fun s s' : Slot => ∀ k k', s.obj k ≠ s'.obj k' :=
    ⟨fun _ _ h k k' he => h k' k he.symm⟩
  exact hl.apart.forall hs hs' hne k k'

end IsLayout

/-! ## Memory -/

section
variable (dl : DataLayout) (n : IterationsNumTy)

/-- Every copy of the slots' arguments is live and has its size. -/
def Stored (slots : List Slot) (m : Mem) : Prop :=
  ∀ s ∈ slots, ∀ k, ∃ cs, m[s.obj k]? = some ⟨s.isPtr, cs, false⟩ ∧ cs.length = s.size dl n

/-- What the copies of a sequence hold. -/
def contents (slots : List Slot) (k : Copy) (m : Mem) : List (List Byte) :=
  slots.map fun s => bytesAt m (s.obj k)

variable {dl n} {slots : List Slot} {m m' : Mem}

theorem Stored.length_bytesAt (hst : Stored dl n slots m) {s : Slot} (hs : s ∈ slots) (k : Copy) :
    (bytesAt m (s.obj k)).length = s.size dl n := by
  obtain ⟨cs, h1, h2⟩ := hst s hs k
  rw [ObjMem.bytesAt_of h1, List.length_map, h2]

theorem Stored.set (hst : Stored dl n slots m) {o : Nat} {heap : Bool} {cs cs' : List Cell}
    (ho : m[o]? = some ⟨heap, cs, false⟩) (hlen : cs'.length = cs.length) :
    Stored dl n slots (m.set o ⟨heap, cs', false⟩) := by
  intro s hs k
  obtain ⟨cs₁, h1, h2⟩ := hst s hs k
  by_cases hk : o = s.obj k
  · subst hk
    rw [h1] at ho
    cases ho
    refine ⟨cs', ?_, by omega⟩
    rw [List.getElem?_set_self (List.getElem?_eq_some_iff.1 h1).1]
  · exact ⟨cs₁, by rw [List.getElem?_set_ne hk, h1], h2⟩

theorem Stored.tail (hst : Stored dl n slots m) : Stored dl n slots.tail m :=
  fun s hs => hst s (List.mem_of_mem_tail hs)

theorem contents_congr {k : Copy} (h : ∀ s ∈ slots, m'[s.obj k]? = m[s.obj k]?) :
    contents slots k m' = contents slots k m :=
  List.map_congr_left fun s hs => ObjMem.bytesAt_congr (h s hs)

theorem Stored.lengths_contents (hst : Stored dl n slots m) (k : Copy) :
    (contents slots k m).map List.length = slots.map (Slot.size dl n) := by
  rw [contents, List.map_map]
  exact List.map_congr_left fun s hs => hst.length_bytesAt hs k

theorem getElem?_contents {i : Nat} {s : Slot} (hs : slots[i]? = some s) (k : Copy) (m : Mem) :
    (contents slots k m)[i]? = some (bytesAt m (s.obj k)) := by
  rw [contents, List.getElem?_map, hs]
  rfl

end

/-! ## Environments -/

/-- The values of the setup block point to the copies. -/
def Pointers (base : Nat) (slots : List Slot) (env : InstRef → Option RVal) : Prop :=
  ∀ i < slotsWidth slots, env ⟨base, i⟩ = some (.ptr i)

theorem Pointers.congr {base : Nat} {slots : List Slot} {env env' : InstRef → Option RVal}
    (hp : Pointers base slots env) (h : ∀ i, env' ⟨base, i⟩ = env ⟨base, i⟩) :
    Pointers base slots env' := fun i hi => (h i).trans (hp i hi)

theorem Pointers.eval {base : Nat} {params : List Param} {specs : List ArgSpec}
    {slots : List Slot} {env : InstRef → Option RVal} (hp : Pointers base slots env)
    (hl : IsLayout params specs slots) (dl : DataLayout) {s : Slot} (hs : s ∈ slots) (k : Copy) :
    (s.valueOf base dl k).eval env = some (.ptr (s.obj k)) := by
  obtain ⟨name, hv⟩ := s.valueOf_eq base dl k
  rw [hv]
  exact hp _ (hl.obj_lt hs k)

/-- What `v` points to. -/
def Config.storage (s : Config) (v : Value) : Option (List Cell) :=
  match v.eval s.env with
  | some (.ptr o) => ObjMem.cells? s.core.mem o
  | _ => none

theorem Pointers.storage {base : Nat} {params : List Param} {specs : List ArgSpec}
    {slots : List Slot} {s : Config} (hp : Pointers base slots s.env)
    (hl : IsLayout params specs slots) (dl : DataLayout) {t : Slot} (ht : t ∈ slots) {k : Copy}
    {heap : Bool} {cs : List Cell} (ho : s.core.mem[t.obj k]? = some ⟨heap, cs, false⟩) :
    s.storage (t.valueOf base dl k) = some cs := by
  rw [Config.storage, hp.eval hl dl ht k]
  exact ObjMem.cells?_of ho

end Ephippion
