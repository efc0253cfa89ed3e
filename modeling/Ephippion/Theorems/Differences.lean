import Ephippion.Run.Entry
import Ephippion.Run.Pure
import Ephippion.Run.Sizes

/-!
# Differences a harness misses

A harness that ends well has compared the outbound copies, but not necessarily all of their bytes:
the number of bytes compared is computed from the type of the heap pointer, which is `i8*` for
every parameter, and not from the parameter's. No difference is missed exactly if that number
covers each outbound buffer, or if no run of the harness ends well in the first place
(`noMissedDifference_iff`).
-/

namespace Ephippion

open ObjMem (Byte Mem bytesAt)
open Sequence Counted Machine

/-! ## A function whose last call decides -/

/-- Zeros everywhere, and unless the iterator is 0 a last byte of 1 in the `k`-th argument. -/
def resetCall (k : Nat) (v : BitVec 64) (bs : Contents) : Contents :=
  let zeros := (bs.map List.length).map (List.replicate · 0)
  if v = 0 then zeros else zeros.modify k fun b => b.set (b.length - 1) 1

theorem lengths_modify (bs : Contents) (k : Nat) {u : List Byte → List Byte}
    (hu : ∀ b, (u b).length = b.length) : (bs.modify k u).map List.length = bs.map List.length := by
  apply List.ext_getElem?
  intro i
  rw [List.getElem?_map, List.getElem?_map, List.getElem?_modify]
  cases bs[i]? with
  | none => rfl
  | some b =>
    by_cases hi : k = i
    · simp [hi, hu]
    · simp [hi]

theorem resetCall_lengths (k : Nat) (v : BitVec 64) (bs : Contents) :
    (resetCall k v bs).map List.length = bs.map List.length := by
  have hz : ((bs.map List.length).map (List.replicate · (0 : Byte))).map List.length =
      bs.map List.length := by simp [Function.comp_def]
  unfold resetCall
  dsimp only
  split
  · exact hz
  · exact (lengths_modify _ k fun b => List.length_set ..).trans hz

/-- A world of zeros with this function. -/
def World.reset (k : Nat) : World where
  fresh _ _ := 0
  symbol _ _ := 0
  call _ v bs := some (resetCall k v bs)
  shape _ _ bs _ h := by
    cases h
    exact resetCall_lengths k _ bs

/-- Of what it is called on it sees the lengths only. -/
theorem resetCall_congr (k : Nat) (v : BitVec 64) {bs bs' : Contents}
    (h : bs'.map List.length = bs.map List.length) : resetCall k v bs' = resetCall k v bs := by
  rw [resetCall, resetCall, h]

section
variable {refs : List Bool} {k : Nat} {bs : Contents}

/-- What the sequences leave of zeros. -/
def marked (k : Nat) (bs : Contents) : Contents :=
  bs.modify (k + 1) fun b => b.set (b.length - 1) 1

theorem pureOnce_reset (hk : refs[k + 1]? = some true)
    (hz : bs = (bs.map List.length).map (List.replicate · 0)) {cs : Contents}
    (hcs : cs = bs ∨ cs = marked k bs) (v : BitVec 64) :
    pureOnce (resetCall k) refs cs v = if v = 0 then bs else marked k bs := by
  cases bs with
  | nil =>
    have hnil : cs = [] := by rcases hcs with rfl | rfl <;> rfl
    have hempty : ∀ news, keep refs.tail [] news = [] := fun news =>
      List.length_eq_zero_iff.1 (length_keep ..)
    simp [hnil, pureOnce, hempty, marked]
  | cons b bs =>
    rw [List.map_cons, List.map_cons, List.cons.injEq] at hz
    obtain ⟨b', cs, rfl⟩ : ∃ b' cs', cs = b' :: cs' := by
      rcases hcs with rfl | rfl <;> exact ⟨_, _, rfl⟩
    have htail : cs = bs ∨ cs = bs.modify k fun b => b.set (b.length - 1) 1 := by
      rcases hcs with h | h
      · exact .inl (List.cons.inj h).2
      · exact .inr (List.cons.inj h).2
    have hb : b' = b := by
      rcases hcs with h | h
      · exact (List.cons.inj h).1
      · exact (List.cons.inj h).1
    have hlens : cs.map List.length = bs.map List.length := by
      rcases htail with rfl | rfl
      · rfl
      · exact lengths_modify _ k fun b => List.length_set ..
    have hget : ∀ i : Nat, refs.tail[i]? ≠ some true → k ≠ i ∧ cs[i]? = bs[i]? := by
      intro i hi
      have hne : k ≠ i := by
        rintro rfl
        rw [List.getElem?_tail] at hi
        exact hi hk
      rcases htail with rfl | rfl
      · exact ⟨hne, rfl⟩
      · exact ⟨hne, by simp [hne]⟩
    have hcall : resetCall k v bs =
        if v = 0 then bs else bs.modify k fun b => b.set (b.length - 1) 1 := by
      rw [resetCall, ← hz.2]
    have hlen : (resetCall k v bs).length = cs.length := by
      have h1 := congrArg List.length (resetCall_lengths k v bs)
      have h2 := congrArg List.length hlens
      simp only [List.length_map] at h1 h2
      omega
    have hkeep : keep refs.tail cs (resetCall k v bs) = resetCall k v bs := by
      apply List.ext_getElem?
      intro i
      rw [keep_getElem? _ _ _ _ hlen]
      split
      · rfl
      · rename_i hi
        obtain ⟨hne, hi'⟩ := hget i hi
        rw [hi', hcall]
        split
        · rfl
        · rw [List.getElem?_modify_ne _ _ hne]
    have honce : pureOnce (resetCall k) refs (b' :: cs) v =
        b' :: keep refs.tail cs (resetCall k v cs) := rfl
    rw [honce, resetCall_congr k v hlens, hkeep, hcall, hb]
    split <;> rfl

/-- After a sequence from zeros, only the last iterator counts. -/
theorem pureSequence_reset (hk : refs[k + 1]? = some true)
    (hz : bs = (bs.map List.length).map (List.replicate · 0))
    (vs : List (BitVec 64)) (v : BitVec 64) :
    pureSequence (resetCall k) refs (vs ++ [v]) bs = if v = 0 then bs else marked k bs := by
  have hone : ∀ (vs : List (BitVec 64)) (cs : Contents), cs = bs ∨ cs = marked k bs →
      pureSequence (resetCall k) refs vs cs = bs ∨
        pureSequence (resetCall k) refs vs cs = marked k bs := by
    intro vs
    induction vs with
    | nil => exact fun cs hcs => hcs
    | cons v vs ih =>
      intro cs hcs
      apply ih
      rw [pureOnce_reset hk hz hcs]
      split
      · exact .inl rfl
      · exact .inr rfl
  rw [pureSequence_concat, pureOnce_reset hk hz (hone vs bs (.inl rfl))]

end

/-! ## Runs that end well -/

/-- `v` and `v'` point to the same bytes. -/
def Config.SameBytes (s : Config) (v v' : Value) : Prop :=
  ∃ cs cs', s.storage v = some cs ∧ s.storage v' = some cs' ∧
    cs'.map (·.byte) = cs.map (·.byte)

/-- When a run that returns 0 has passed its checks, the copies of every outbound pointer argument
are the same. -/
def NoMissedDifference (M' : Module) (F h : Nat) (H : Harness) : Prop :=
  ∀ (W : World) (s : Config), Steps (step W M' F h) (startAt 0) s → s.block = H.id .seEnd →
    (∃ c, Halts (step W M' F h) s (.returned (.int 0) c)) →
      ∀ t ∈ H.slots, t.isPtr → t.outbound →
        s.SameBytes (t.value1 H.base H.dl) (t.value2 H.base H.dl)

section
variable {h F : Nat} {f : Function} {n : IterationsNumTy} {specs : List ArgSpec} {H : Harness}
  {M' : Module} {W : World}

theorem HarnessAt.sameBytes_iff (hat : HarnessAt h F f n specs H M') {s : Config}
    (hp : Pointers H.base H.slots s.env) (hst : Stored H.dl H.n H.slots s.core.mem) {t : Slot}
    (ht : t ∈ H.slots) : s.SameBytes (t.value1 H.base H.dl) (t.value2 H.base H.dl) ↔
      bytesAt s.core.mem (t.obj .second) = bytesAt s.core.mem (t.obj .first) := by
  obtain ⟨cs, h1, -⟩ := hst t ht .first
  obtain ⟨cs', h2, -⟩ := hst t ht .second
  have hs1 : s.storage (t.value1 H.base H.dl) = some cs :=
    hp.storage (k := .first) hat.layout H.dl ht h1
  have hs2 : s.storage (t.value2 H.base H.dl) = some cs' :=
    hp.storage (k := .second) hat.layout H.dl ht h2
  rw [ObjMem.bytesAt_of h1, ObjMem.bytesAt_of h2, Config.SameBytes, hs1, hs2]
  simp

/-- Checks that pass are inside their buffers, so if that means that they cover them, they have
found no difference in them. -/
theorem HarnessAt.no_missed (hat : HarnessAt h F f n specs H M') (hlink : H.Linked F)
    (hi : TakesIterator f) (hall : ComparesInside H.dl H.n f.params specs →
      ComparesAll H.dl H.n f.params specs) {s : Config}
    (hs : Steps (step W M' F h) (startAt H.base) s) (hb : s.block = H.id .seEnd) {c : Core}
    (hend : Halts (step W M' F h) s (.returned (.int 0) c)) {t : Slot} (ht : t ∈ H.slots)
    (hptr : t.isPtr) (hout : t.outbound) :
    s.SameBytes (t.value1 H.base H.dl) (t.value2 H.base H.dl) := by
  obtain ⟨hp, hst, hchecks⟩ := hat.passed_checks hlink hi hs hb hend
  have hcmp : ∀ t ∈ H.slots, t.outbound → ObjMem.cmp s.core.mem (t.obj .first) (t.obj .second)
      (t.comparedSize H.dl H.n).toNat = some true :=
    fun t ht hout => hchecks t (List.mem_filter.2 ⟨ht, hout⟩)
  have hin : ∀ t ∈ H.slots, t.outbound → (t.comparedSize H.dl H.n).toNat ≤ t.size H.dl H.n := by
    intro t ht hout
    obtain ⟨cs, h1, hlen⟩ := hst t ht .first
    by_contra hlt
    have := hcmp t ht hout
    rw [ObjMem.cmp_eq_none h1 (by omega)] at this
    cases this
  have hle := hat.layout.comparesAll.1 (hall (hat.layout.comparesInside.2 hin)) t ht hout hptr
  obtain ⟨cs, h1, hlen⟩ := hst t ht .first
  obtain ⟨cs', h2, hlen'⟩ := hst t ht .second
  have hinside := hin t ht hout
  have hpass := hcmp t ht hout
  rw [ObjMem.cmp_of h1 h2 (by omega) (by omega), Option.some.injEq, decide_eq_true_eq,
    List.take_of_length_le (by rw [hst.length_bytesAt ht]; exact hle),
    List.take_of_length_le (by rw [hst.length_bytesAt ht]; exact hle)] at hpass
  exact (hat.sameBytes_iff hp hst ht).2 hpass.symm

/-! ## A run that misses a difference -/

theorem HarnessAt.zeros {k : Nat} {c : Core} (_ : HarnessAt h F f n specs H M')
    (hp : Prepared (World.reset k) H.dl H.n H.slots c.mem) (k' : Copy) :
    contents H.slots k' c.mem = (H.slots.map (Slot.size H.dl H.n)).map (List.replicate · 0) := by
  rw [contents, List.map_map]
  apply List.map_congr_left
  intro s hs
  cases hy : s.symbolized with
  | true =>
    obtain ⟨t, ht⟩ := hp.symbolic s hs hy
    rw [ObjMem.bytesAt_of (ht k')]
    simp [World.reset]
  | false =>
    rw [ObjMem.bytesAt_of (hp.fresh s hs hy k')]
    simp [World.reset]

/-- The first sequence's last iterator is not 0, the second one's is. -/
theorem HarnessAt.last_iterators (hat : HarnessAt h F f n specs H M') :
    (∃ vs v, v ≠ 0 ∧ H.iterators .first = vs ++ [v]) ∧ ∃ vs, H.iterators .second = vs ++ [0] := by
  have h2 : 2 ≤ H.n.toNat := hat.n_eq ▸ hat.two_le
  have hlt := H.n.isLt
  obtain ⟨k, hk⟩ : ∃ k, H.n.toNat = k + 1 := ⟨H.n.toNat - 1, by omega⟩
  refine ⟨⟨upTo 64 k, BitVec.ofNat 64 k, fun h0 => ?_, ?_⟩, (((List.range k).map
    Nat.succ).map (BitVec.ofNat 64)).reverse, ?_⟩
  · have := congrArg BitVec.toNat h0
    rw [BitVec.toNat_ofNat, Nat.mod_eq_of_lt (by omega)] at this
    have h0' : BitVec.toNat (0 : BitVec 64) = 0 := rfl
    omega
  · rw [Harness.iterators, hk, upTo, List.range_succ, List.map_append]
    rfl
  · rw [Harness.iterators, hk, upTo, List.range_succ_eq_map, List.map_cons, List.reverse_cons]
    rfl

/-- In the world that resets all but its `k`-th buffer, the first copy of that one differs from the
second in its last byte, and all others are the same. -/
theorem HarnessAt.reset_run (hat : HarnessAt h F f n specs H M') (hlink : H.Linked F)
    (hi : TakesIterator f) {k : Nat} {s : Slot} (hs : H.slots[k + 1]? = some s) (hptr : s.isPtr)
    (hout : s.outbound) : ∃ (zs : Contents) (prev : Nat) (env : InstRef → Option RVal) (c : Core),
      zs = (H.slots.map (Slot.size H.dl H.n)).map (List.replicate · 0) ∧
      Steps (step (World.reset k) M' F h) (startAt H.base) ⟨prev, H.id .seStart, env, c⟩ ∧
      Pointers H.base H.slots env ∧ Stored H.dl H.n H.slots c.mem ∧
      contents H.slots .second c.mem = zs ∧ ∀ (i : Nat) (t : Slot), H.slots[i]? = some t →
        t.outbound → (contents H.slots .first c.mem)[i]? = (marked k zs)[i]? := by
  obtain ⟨c₀, bs, prev, env, c, hprep, hsteps, hp, hst, hrun⟩ :=
    hat.calls_pure (W := World.reset k) (g := resetCall k) hlink hi fun _ _ _ => rfl
  refine ⟨_, prev, env, c, rfl, hsteps, hp, hst, ?_⟩
  have hz := hat.zeros hprep
  generalize hzs : (H.slots.map (Slot.size H.dl H.n)).map (List.replicate · (0 : Byte)) = zs at hz ⊢
  have hzero : zs = (zs.map List.length).map (List.replicate · 0) := by
    rw [← hzs]
    simp [Function.comp_def]
  have hk : H.refs[k + 1]? = some true := by
    rw [Harness.refs, List.getElem?_map, hs, Option.map_some, hptr]
  obtain ⟨⟨vs₁, v, hv, h1⟩, vs₂, h2⟩ := hat.last_iterators
  have hfirst : pureSequence (resetCall k) H.refs (H.iterators .first)
      (contents H.slots .first c₀.mem) = marked k zs := by
    rw [hz, h1, pureSequence_reset hk hzero, if_neg hv]
  -- the second sequence starts from zeros too
  have hbs : bs = zs := by
    apply List.ext_getElem?
    intro i
    cases ht : H.slots[i]? with
    | none =>
      have hlen := List.getElem?_eq_none_iff.1 ht
      rw [List.getElem?_eq_none (by rw [hrun.length]; exact hlen),
        List.getElem?_eq_none (by rw [← hzs]; simpa using hlen)]
    | some t =>
      cases hto : t.outbound with
      | true => rw [hrun.own i t ht hto, hz]
      | false =>
        have hne : k + 1 ≠ i := by
          rintro rfl
          rw [hs, Option.some.injEq] at ht
          rw [ht, hto] at hout
          cases hout
        rw [hrun.shared i t ht hto, hfirst, marked, List.getElem?_modify_ne _ _ hne]
  refine ⟨?_, fun i t ht hto => ?_⟩
  · rw [hrun.second, hbs, h2, pureSequence_reset hk hzero, if_pos rfl]
  · rw [hrun.first i t ht hto, hfirst]

theorem set_last_ne {k : Nat} (hk : 0 < k) :
    (List.replicate k (0 : Byte)).set (k - 1) 1 ≠ List.replicate k 0 := by
  intro he
  have h1 : ((List.replicate k (0 : Byte)).set (k - 1) 1)[k - 1]? = some 1 :=
    List.getElem?_set_self (by rw [List.length_replicate]; omega)
  rw [he, List.getElem?_replicate_of_lt (by omega)] at h1
  exact absurd h1 (by decide)

/-- If all comparisons are inside their buffers and one does not cover its buffer, a run passes the
checks with two copies that differ. -/
theorem HarnessAt.missed (hat : HarnessAt h F f n specs H M') (hlink : H.Linked F)
    (hi : TakesIterator f) (hin : ∀ t ∈ H.slots, t.outbound →
      (t.comparedSize H.dl H.n).toNat ≤ t.size H.dl H.n) {s : Slot} (hs : s ∈ H.slots)
    (hptr : s.isPtr) (hout : s.outbound)
    (hlt : (s.comparedSize H.dl H.n).toNat < s.size H.dl H.n) :
    ∃ (W : World) (s' : Config) (c : Core), Steps (step W M' F h) (startAt H.base) s' ∧
      s'.block = H.id .seEnd ∧ Halts (step W M' F h) s' (.returned (.int 0) c) ∧
      ¬ s'.SameBytes (s.value1 H.base H.dl) (s.value2 H.base H.dl) := by
  obtain ⟨i, hi'⟩ := List.getElem?_of_mem hs
  -- the first slot is the iterator's
  obtain ⟨k, rfl⟩ : ∃ k, i = k + 1 := by
    cases i with
    | succ k => exact ⟨k, rfl⟩
    | zero =>
      have hty : f.params.head?.map (·.type) = some s.param.type := by
        rw [← hat.layout.params_eq, List.head?_map, List.head?_eq_getElem?, hi']
        rfl
      rw [hi, Option.some.injEq] at hty
      rw [Slot.isPtr, ← hty] at hptr
      cases hptr
  obtain ⟨zs, prev, env, c, hzs, hsteps, hp, hst, hsecond, hfirst⟩ :=
    hat.reset_run hlink hi hi' hptr hout
  -- the copies of a slot, and of `s`
  have h2 : ∀ {i : Nat} {t : Slot}, H.slots[i]? = some t →
      bytesAt c.mem (t.obj .second) = List.replicate (t.size H.dl H.n) 0 := by
    intro i t ht
    have := getElem?_contents ht .second c.mem
    rw [hsecond, hzs, List.getElem?_map, List.getElem?_map, ht] at this
    exact (Option.some.inj this).symm
  have h1 : ∀ {i : Nat} {t : Slot}, H.slots[i]? = some t → t.outbound →
      bytesAt c.mem (t.obj .first) = if k + 1 = i then
        (List.replicate (t.size H.dl H.n) 0).set (t.size H.dl H.n - 1) 1
      else List.replicate (t.size H.dl H.n) 0 := by
    intro i t ht hto
    have := getElem?_contents ht .first c.mem
    rw [hfirst i t ht hto, hzs, marked, List.getElem?_modify, List.getElem?_map, List.getElem?_map,
      ht] at this
    refine (Option.some.inj this).symm.trans ?_
    split <;> simp
  have hpass : verdict H.dl H.n c.mem H.checked = some true := by
    apply verdict_eq_true.2
    intro t ht
    obtain ⟨ht, hto⟩ := List.mem_filter.1 ht
    obtain ⟨i, hti⟩ := List.getElem?_of_mem ht
    obtain ⟨cs, ho, hlen⟩ := hst t ht .first
    obtain ⟨cs', ho', hlen'⟩ := hst t ht .second
    have hle := hin t ht hto
    rw [ObjMem.cmp_of ho ho' (by omega) (by omega), Option.some.injEq, decide_eq_true_eq,
      h1 hti hto,
      h2 hti]
    split
    · rename_i hki
      rw [← hki, hi', Option.some.injEq] at hti
      rw [← hti]
      exact List.take_set_of_le (by omega)
    · rfl
  obtain ⟨o, hend, -, hv⟩ := hat.checks_end (W := World.reset k) hlink prev hp hst
  rw [hpass] at hv
  obtain ⟨prev', env', c₁, -, c', h3, hm, hp', -, rfl⟩ := hv
  refine ⟨World.reset k, ⟨prev', H.id .seEnd, env', c₁⟩, c', hsteps.trans h3, rfl, ?_, ?_⟩
  · exact hend.through h3
  · rw [hat.sameBytes_iff hp' (by rw [hm]; exact hst) hs, hm, h2 hi', h1 hi' hout, if_pos rfl]
    exact (set_last_ne (by omega)).symm

end

section
variable {senc : SymbolicEncapsulation} {M M' : Module} {F : Nat} {f : Function}
  {n : IterationsNumTy} {specs : List ArgSpec}

theorem HarnessBuilt.no_missed_iff {h : Nat} {H : Harness}
    (hb : HarnessBuilt senc M F f n specs M' h H) (hf : M.functions[F]? = some f)
    (hM : M.BranchesInside) : NoMissedDifference M' F h H ↔
      (TakesIterator f → HarnessBodiless senc M f →
        ComparesInside M.dataLayout n f.params (padSpecs specs f.params.length) →
          ComparesAll M.dataLayout n f.params (padSpecs specs f.params.length)) := by
  have hdl : H.dl = M.dataLayout := hb.here.dl_eq.trans hb.dataLayout
  rw [hb.bodiless_iff, ← hdl, ← hb.here.n_eq]
  constructor
  · intro hno hi hbase hin
    rw [hb.here.layout.comparesInside] at hin
    apply hb.here.layout.comparesAll.2
    intro s hs hout hptr
    by_contra hlt
    obtain ⟨W, s', c, hsteps, hblock, hend, hne⟩ := hb.here.missed (hb.linked hf hi) hi hin hs hptr
      hout (Nat.lt_of_not_le hlt)
    rw [hbase] at hsteps
    exact hne (hno W s' hsteps hblock ⟨c, hend⟩ s hs hptr hout)
  · intro hall W s hs hblock ⟨c, hend⟩ t ht hptr hout
    have hbase : H.base = 0 := by
      by_contra h0
      have := hb.trapped hM h0 hs
      rw [hblock] at this
      simp only [Harness.id] at this
      omega
    rw [← hbase] at hs
    have hi : TakesIterator f := by
      by_contra hi
      obtain ⟨B, hB, hsB, hr⟩ := hb.here.before_calls hi hs
      rw [hblock] at hsB
      rw [← Harness.id_inj (B := .seEnd) trivial hB hsB] at hr
      simp only [Harness.rank] at hr
      omega
    exact hb.here.no_missed (hb.linked hf hi) hi (hall hi hbase) hs hblock hend ht hptr hout

/-- No difference in an outbound buffer is missed exactly if the comparisons cover them all or no
run passes. -/
theorem noMissedDifference_iff (hf : M.functions[F]? = some f) (hdef : f.isDeclaration = false)
    (hM : M.BranchesInside) (hok : senc.encapsulate M F n specs = .ok (M', true)) :
    ∃ h H, HarnessBuilt senc M F f n specs M' h H ∧ (NoMissedDifference M' F h H ↔
      (TakesIterator f → HarnessBodiless senc M f →
        ComparesInside M.dataLayout n f.params (padSpecs specs f.params.length) →
          ComparesAll M.dataLayout n f.params (padSpecs specs f.params.length))) := by
  obtain ⟨-, -, h, H, hb⟩ := encapsulate_of_ok hf hdef hok
  exact ⟨h, H, hb, hb.no_missed_iff hf hM⟩

end

/-- A buffer of bytes is compared as a whole. -/
theorem noMissedDifference_bytes : ∃ (M' : Module) (h : Nat) (H : Harness),
    HarnessBuilt {} (bufferModule .int8Ty) 0 (bufferFunction .int8Ty) 2
      [⟨"i", .inbound, false⟩, ⟨"p", .both, true⟩] M' h H ∧ NoMissedDifference M' 0 h H := by
  have hf : (bufferModule .int8Ty).functions[0]? = some (bufferFunction .int8Ty) := rfl
  obtain ⟨M', hok⟩ := encapsulate_buffer (.inl rfl) [⟨"i", .inbound, false⟩, ⟨"p", .both, true⟩]
  obtain ⟨h, H, hb, hiff⟩ := noMissedDifference_iff hf rfl (by decide) hok
  exact ⟨M', h, H, hb, hiff.2 fun _ _ _ => by decide⟩

/-- Of a buffer of `i32` too few bytes are compared. -/
theorem missedDifference_buffer : ∃ (M' : Module) (h : Nat) (H : Harness),
    HarnessBuilt {} (bufferModule .int32Ty) 0 (bufferFunction .int32Ty) 2
      [⟨"i", .inbound, false⟩, ⟨"p", .both, true⟩] M' h H ∧ ¬ NoMissedDifference M' 0 h H := by
  have hf : (bufferModule .int32Ty).functions[0]? = some (bufferFunction .int32Ty) := rfl
  obtain ⟨M', hok⟩ := encapsulate_buffer (.inr rfl) [⟨"i", .inbound, false⟩, ⟨"p", .both, true⟩]
  obtain ⟨-, -, h, H, hb⟩ := encapsulate_of_ok hf rfl hok
  refine ⟨M', h, H, hb, fun hno => ?_⟩
  have hall := (hb.no_missed_iff hf (by decide)).1 hno (by decide) (.of_free (by decide))
    (by decide)
  exact absurd hall (by decide)

end Ephippion
