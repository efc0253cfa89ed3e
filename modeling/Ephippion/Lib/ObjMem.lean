import Mathlib.Tactic.Common

/-!
# A memory of byte objects

Memory is a list of objects, a pointer an object's index. An object is a row of byte cells, each
with a mark that tells a symbolic byte from an ordinary one; it lives on the heap or in a frame
and is live until it is freed. Every access is checked: `fill`, `copy`, `cmp`, `write` and `free`
return `none` on a dead object, past an object's end, or (`free`) off the heap.

On an object that is there (`m[o]? = some ⟨heap, cs, false⟩`) each operation is a `List.set`:
`fill_of`, `copy_of`, `write_of`, `free_of` say of what. `Same S m m'` is the frame relation: `m'`
has the objects of `m`, those outside `S` unchanged.
-/

namespace ObjMem

abbrev Byte := BitVec 8

structure Cell where
  byte : Byte
  symbolic : Bool
  deriving DecidableEq, Repr

structure Obj where
  heap : Bool
  cells : List Cell
  freed : Bool
  deriving DecidableEq, Repr

abbrev Mem := List Obj

/-- The cells of a live object. -/
def cells? (m : Mem) (o : Nat) : Option (List Cell) :=
  m[o]?.bind fun b => if b.freed then none else some b.cells

def alloc (m : Mem) (heap : Bool) (cells : List Cell) : Mem := m ++ [⟨heap, cells, false⟩]

def setCells (m : Mem) (o : Nat) (cs : List Cell) : Mem :=
  m.modify o fun b => { b with cells := cs }

/-- The first `n` cells of `o` become the symbolic bytes `f 0`, `f 1`, … -/
def fill (m : Mem) (o n : Nat) (f : Nat → Byte) : Option Mem :=
  (cells? m o).bind fun cs =>
    if n ≤ cs.length then
      some (setCells m o ((List.range n).map (fun i => ⟨f i, true⟩) ++ cs.drop n))
    else none

/-- The first `n` cells of `s` over those of `d`. -/
def copy (m : Mem) (d s n : Nat) : Option Mem :=
  (cells? m d).bind fun cd => (cells? m s).bind fun cs =>
    if n ≤ cd.length ∧ n ≤ cs.length then some (setCells m d (cs.take n ++ cd.drop n)) else none

/-- Do the first `n` bytes of `a` and `b` agree? -/
def cmp (m : Mem) (a b n : Nat) : Option Bool :=
  (cells? m a).bind fun ca => (cells? m b).bind fun cb =>
    if n ≤ ca.length ∧ n ≤ cb.length then
      some (decide ((ca.take n).map (·.byte) = (cb.take n).map (·.byte)))
    else none

/-- The bytes of `o` become `bs`, of the same number. -/
def write (m : Mem) (o : Nat) (bs : List Byte) : Option Mem :=
  (cells? m o).bind fun cs =>
    if bs.length = cs.length then some (setCells m o (bs.map fun b => ⟨b, false⟩)) else none

def free (m : Mem) (o : Nat) : Option Mem :=
  m[o]?.bind fun b =>
    if b.heap && !b.freed then some (m.set o { b with freed := true }) else none

/-! ## The operations on live objects -/

theorem cells?_of {m : Mem} {o : Nat} {heap : Bool} {cs : List Cell}
    (h : m[o]? = some ⟨heap, cs, false⟩) : cells? m o = some cs := by
  simp [cells?, h]

theorem setCells_of {m : Mem} {o : Nat} {heap : Bool} {cs₀ : List Cell}
    (h : m[o]? = some ⟨heap, cs₀, false⟩) (cs : List Cell) :
    setCells m o cs = m.set o ⟨heap, cs, false⟩ := by
  have hlt := (List.getElem?_eq_some_iff.1 h).1
  apply List.ext_getElem?
  intro i
  rw [setCells, List.getElem?_modify, List.getElem?_set]
  by_cases hi : o = i
  · subst hi
    rw [h, if_pos rfl, if_pos hlt]
    simp
  · simp [hi]

theorem fill_of {m : Mem} {o n : Nat} {heap : Bool} {cs : List Cell}
    (h : m[o]? = some ⟨heap, cs, false⟩) (hn : n ≤ cs.length) (f : Nat → Byte) :
    fill m o n f = some (m.set o
      ⟨heap, (List.range n).map (fun i => ⟨f i, true⟩) ++ cs.drop n, false⟩) := by
  rw [fill, cells?_of h, Option.bind_some, if_pos hn, setCells_of h]

theorem copy_of {m : Mem} {d s n : Nat} {heap heap' : Bool} {cd cs : List Cell}
    (hd : m[d]? = some ⟨heap, cd, false⟩) (hs : m[s]? = some ⟨heap', cs, false⟩)
    (hnd : n ≤ cd.length) (hns : n ≤ cs.length) :
    copy m d s n = some (m.set d ⟨heap, cs.take n ++ cd.drop n, false⟩) := by
  rw [copy, cells?_of hd, Option.bind_some, cells?_of hs, Option.bind_some, if_pos ⟨hnd, hns⟩,
    setCells_of hd]

theorem write_of {m : Mem} {o : Nat} {heap : Bool} {cs : List Cell} {bs : List Byte}
    (h : m[o]? = some ⟨heap, cs, false⟩) (hn : bs.length = cs.length) :
    write m o bs = some (m.set o ⟨heap, bs.map fun b => ⟨b, false⟩, false⟩) := by
  rw [write, cells?_of h, Option.bind_some, if_pos hn, setCells_of h]

theorem free_of {m : Mem} {o : Nat} {cs : List Cell} (h : m[o]? = some ⟨true, cs, false⟩) :
    free m o = some (m.set o ⟨true, cs, true⟩) := by
  simp [free, h]

/-- The bytes of a live object, none of any other one. -/
def bytesAt (m : Mem) (o : Nat) : List Byte := ((cells? m o).getD []).map (·.byte)

theorem bytesAt_of {m : Mem} {o : Nat} {heap : Bool} {cs : List Cell}
    (h : m[o]? = some ⟨heap, cs, false⟩) : bytesAt m o = cs.map (·.byte) := by
  simp [bytesAt, cells?_of h]

theorem bytesAt_congr {m m' : Mem} {o o' : Nat} (h : m'[o']? = m[o]?) :
    bytesAt m' o' = bytesAt m o := by simp [bytesAt, cells?, h]

theorem cmp_of {m : Mem} {a b n : Nat} {heap heap' : Bool} {ca cb : List Cell}
    (ha : m[a]? = some ⟨heap, ca, false⟩) (hb : m[b]? = some ⟨heap', cb, false⟩)
    (hna : n ≤ ca.length) (hnb : n ≤ cb.length) :
    cmp m a b n = some (decide ((bytesAt m a).take n = (bytesAt m b).take n)) := by
  rw [cmp, cells?_of ha, Option.bind_some, cells?_of hb, Option.bind_some, if_pos ⟨hna, hnb⟩,
    bytesAt_of ha, bytesAt_of hb, List.map_take, List.map_take]

theorem cmp_eq_none {m : Mem} {a b n : Nat} {heap : Bool} {ca : List Cell}
    (ha : m[a]? = some ⟨heap, ca, false⟩) (hn : ca.length < n) : cmp m a b n = none := by
  rw [cmp, cells?_of ha, Option.bind_some, Option.bind_eq_none_iff]
  intro cb _
  rw [if_neg fun h => absurd h.1 (by omega)]

/-! ## Frames -/

/-- `m'` has the objects of `m`, those outside `S` unchanged. -/
structure Same (S : Nat → Prop) (m m' : Mem) : Prop where
  length : m'.length = m.length
  objs : ∀ o, ¬ S o → m'[o]? = m[o]?

namespace Same

variable {S T : Nat → Prop} {m m' m'' : Mem}

theorem refl (S : Nat → Prop) (m : Mem) : Same S m m := ⟨rfl, fun _ _ => rfl⟩

theorem trans (h : Same S m m') (h' : Same S m' m'') : Same S m m'' :=
  ⟨h'.length.trans h.length, fun o hS => (h'.objs o hS).trans (h.objs o hS)⟩

theorem mono (h : Same S m m') (hST : ∀ o, S o → T o) : Same T m m' :=
  ⟨h.length, fun o hT => h.objs o fun hS => hT (hST o hS)⟩

theorem set {o : Nat} (ho : S o) (m : Mem) (b : Obj) : Same S m (m.set o b) :=
  ⟨List.length_set .., fun o' hS => by
    rw [List.getElem?_set_ne]
    rintro rfl
    exact hS ho⟩

theorem bytesAt (h : Same S m m') {o : Nat} (ho : ¬ S o) :
    ObjMem.bytesAt m' o = ObjMem.bytesAt m o := bytesAt_congr (h.objs o ho)

end Same

end ObjMem
