import Ephippion.Run.Entry
import Ephippion.Run.Pure
import Ephippion.Run.Sizes

/-!
# False alarms

No run of a harness fails if the function's calls are independent of their order, from whatever is
in the buffers that are written only (`no_false_alarm`): these are not made symbolic, and the two
copies of one may start with different bytes. Of a function that leaves them as they are the calls
are independent of their order from any given contents, and still a run of its harness fails
(`false_alarm_unwritten`).
-/

namespace Ephippion

open ObjMem (Byte Mem bytesAt)
open Sequence Counted Machine

section
variable (dl : DataLayout) (n : IterationsNumTy) (params : List Param) (specs : List ArgSpec)
  (g : BitVec 64 → Contents → Contents)

/-- Contents of the arguments' sizes. -/
def Fits (bs : Contents) : Prop :=
  bs.map List.length = (params.zip specs).map fun a => a.1.bufferSize dl n a.2

/-- The calls in order from `bs` and in reverse order from `bs'` leave the same in the outbound
arguments. -/
def SameEitherWay (bs bs' : Contents) : Prop :=
  ∀ (i : Nat) (spec : ArgSpec), i < params.length → specs[i]? = some spec →
    isOutbound spec.direction →
      (pureSequence g (params.map (·.type.isPointerTy)) (upTo 64 n.toNat).reverse bs')[i]? =
        (pureSequence g (params.map (·.type.isPointerTy)) (upTo 64 n.toNat) bs)[i]?

/-- Contents that agree but for arguments that are outbound only. -/
def AgreeOnInputs (bs bs' : Contents) : Prop :=
  ∀ (i : Nat) (spec : ArgSpec), i < params.length → specs[i]? = some spec →
    isOnlyOutbound spec.direction = false → bs'[i]? = bs[i]?

/-- The order of the calls does not matter, whatever the outbound arguments hold at first. -/
def OrderIndependent : Prop :=
  ∀ bs bs', Fits dl n params specs bs → Fits dl n params specs bs' →
    AgreeOnInputs params specs bs bs' → SameEitherWay n params specs g bs bs'

end

section
variable {h F : Nat} {f : Function} {n : IterationsNumTy} {specs : List ArgSpec} {H : Harness}
  {M' : Module} {W : World} {g : BitVec 64 → Contents → Contents}

theorem HarnessAt.refs_eq (hat : HarnessAt h F f n specs H M') :
    H.refs = f.params.map (·.type.isPointerTy) := by
  rw [← hat.layout.params_eq, List.map_map]
  rfl

theorem HarnessAt.fits (hat : HarnessAt h F f n specs H M') {bs : Contents}
    (hbs : bs.map List.length = H.slots.map (Slot.size H.dl H.n)) :
    Fits H.dl n f.params specs bs := by
  rw [Fits, hat.layout.zip_eq, hbs, List.map_map, ← hat.n_eq]
  rfl

/-- The second sequence starts from what the first one started from, but for arguments that are
outbound only. -/
theorem PureRun.agree (hat : HarnessAt h F f n specs H M') (hW : W.WritesOutbound specs)
    (hg : ∀ t v bs, W.call t v bs = some (g v bs)) {c₀ c : Core} {bs : Contents}
    (hp : Prepared W H.dl H.n H.slots c₀.mem) (hr : PureRun H g c₀ bs c) :
    AgreeOnInputs f.params specs (contents H.slots .first c₀.mem) bs := by
  intro i spec hlt hspec hin
  obtain ⟨s, hs, -, -, hss⟩ := hat.layout.slot_at (List.getElem?_eq_getElem hlt)
  rw [hspec, Option.some.injEq] at hss
  subst hss
  cases hout : s.outbound with
  | true =>
    have hsym : s.symbolized = true := by
      rw [Slot.symbolized, hin]
      rfl
    rw [hr.own i s hs hout, getElem?_contents hs, getElem?_contents hs,
      (hp.contents (List.mem_of_getElem? hs)).1 hsym]
  | false =>
    rw [hr.shared i s hs hout]
    exact sequence_keeps (fun t v bs bs' => W.shape t v bs bs')
      ((hW.spares hspec hout).imp_right .inl) (sequence_pure hg _ 0 _)

/-- The two copies of an outbound argument are the same after the calls. -/
theorem PureRun.copies_eq (hat : HarnessAt h F f n specs H M') (hW : W.WritesOutbound specs)
    (hg : ∀ t v bs, W.call t v bs = some (g v bs))
    (ho : OrderIndependent H.dl n f.params specs g) {c₀ c : Core} {bs : Contents}
    (hp : Prepared W H.dl H.n H.slots c₀.mem) (hr : PureRun H g c₀ bs c) {s : Slot}
    (hs : s ∈ H.slots) (hout : s.outbound) :
    bytesAt c.mem (s.obj .second) = bytesAt c.mem (s.obj .first) := by
  obtain ⟨i, hi⟩ := List.getElem?_of_mem hs
  have hlt : i < f.params.length := by
    rw [← hat.layout.length]
    exact (List.getElem?_eq_some_iff.1 hi).1
  have hsame := ho _ bs (hat.fits (hp.stored.lengths_contents .first)) (hat.fits hr.lengths)
    (hr.agree hat hW hg hp) i s.spec hlt (hat.layout.at_pos i s hi).2.1 hout
  have hfirst := hr.first i s hi hout
  have hsecond := congrArg (fun bs : Contents => bs[i]?) hr.second
  rw [getElem?_contents hi] at hfirst hsecond
  rw [← hat.refs_eq, ← hat.n_eq] at hsame
  exact Option.some.inj (hsecond.trans (hsame.trans hfirst.symm))

/-- A run of a function whose calls are independent of their order passes its checks. -/
theorem HarnessAt.no_alarm (hat : HarnessAt h F f n specs H M') (hlink : H.Linked F)
    (hi : TakesIterator f) (hin : ComparesInside H.dl n f.params specs)
    (hW : W.WritesOutbound specs) (hg : ∀ t v bs, W.call t v bs = some (g v bs))
    (ho : OrderIndependent H.dl n f.params specs g) :
    ∃ s c, Steps (step W M' F h) (startAt H.base) s ∧ s.block = H.id .exit ∧
      step W M' F h s = .inr (.returned (.int 0) c) := by
  obtain ⟨c₀, bs, prev, env, c, hprep, hsteps, hp, hst, hrun⟩ :=
    hat.calls_pure (W := W) (g := g) hlink hi hg
  have hpass : verdict H.dl H.n c.mem H.checked = some true := by
    apply verdict_eq_true.2
    intro t ht
    obtain ⟨ht, hto⟩ := List.mem_filter.1 ht
    obtain ⟨cs, h1, hlen⟩ := hst t ht .first
    obtain ⟨cs', h2, hlen'⟩ := hst t ht .second
    have hle := hat.layout.comparesInside.1 hin t ht hto
    rw [← hat.n_eq] at hle
    rw [ObjMem.cmp_of h1 h2 (by omega) (by omega), hrun.copies_eq hat hW hg ho hprep ht hto,
      decide_eq_true rfl]
  obtain ⟨o, -, -, hv⟩ := hat.checks_end (W := W) hlink prev hp hst
  rw [hpass] at hv
  obtain ⟨prev', env', c', env'', c'', h3, -, -, h4, -⟩ := hv
  exact ⟨_, _, hsteps.trans (h3.trans h4), rfl, hat.exit_step _⟩

theorem take_range_ne {u v : Nat → Byte} {k m : Nat} (hk : 0 < k) (hm : k ≤ m) (h0 : u 0 ≠ v 0) :
    ((List.range m).map u).take k ≠ ((List.range m).map v).take k := by
  have hget : ∀ w : Nat → Byte, (((List.range m).map w).take k)[0]? = some (w 0) := fun w => by
    rw [List.getElem?_take_of_lt hk, List.getElem?_map, List.getElem?_range (by omega)]
    rfl
  intro he
  have h1 := hget u
  rw [he, hget v] at h1
  exact h0 (Option.some.inj h1).symm

/-- A function that writes nothing raises an alarm for what an outbound only argument's copies hold
at first. -/
theorem HarnessAt.alarm (hat : HarnessAt h F f n specs H M') (hlink : H.Linked F)
    (hi : TakesIterator f) (hin : ComparesInside H.dl n f.params specs)
    (hid : ∀ t v bs, W.call t v bs = some bs) {s : Slot} (hs : s ∈ H.slots) (hout : s.outbound)
    (hsym : s.symbolized = false) (hpos : 0 < (s.comparedSize H.dl H.n).toNat)
    (hne : W.fresh (s.obj .first) 0 ≠ W.fresh (s.obj .second) 0) :
    ∃ c, Halts (step W M' F h) (startAt H.base) (.failed c) := by
  obtain ⟨c₀, bs, prev, env, c, hprep, hsteps, hp, hst, hrun⟩ :=
    hat.calls_pure (W := W) (g := fun _ bs => bs) hlink hi hid
  have hle : ∀ t ∈ H.slots, t.outbound → (t.comparedSize H.dl H.n).toNat ≤ t.size H.dl H.n := by
    rw [hat.n_eq]
    exact hat.layout.comparesInside.1 hin
  -- the copies hold what they held at first
  obtain ⟨i, hsi⟩ := List.getElem?_of_mem hs
  have h1 : bytesAt c.mem (s.obj .first) = bytesAt c₀.mem (s.obj .first) := by
    have := hrun.first i s hsi hout
    rw [pureSequence_id, getElem?_contents hsi, getElem?_contents hsi] at this
    exact Option.some.inj this
  have h2 : bytesAt c.mem (s.obj .second) = bytesAt c₀.mem (s.obj .second) := by
    have hown := hrun.own i s hsi hout
    have := congrArg (fun bs : Contents => bs[i]?) hrun.second
    rw [pureSequence_id, hown, getElem?_contents hsi, getElem?_contents hsi] at this
    exact Option.some.inj this
  have hcmp : ∀ t ∈ H.checked, ∃ eq, ObjMem.cmp c.mem (t.obj .first) (t.obj .second)
      (t.comparedSize H.dl H.n).toNat = some eq := by
    intro t ht
    obtain ⟨ht, hto⟩ := List.mem_filter.1 ht
    obtain ⟨cs, ho, hlen⟩ := hst t ht .first
    obtain ⟨cs', ho', hlen'⟩ := hst t ht .second
    have := hle t ht hto
    exact ⟨_, ObjMem.cmp_of ho ho' (by omega) (by omega)⟩
  have hdiff : ObjMem.cmp c.mem (s.obj .first) (s.obj .second) (s.comparedSize H.dl H.n).toNat ≠
      some true := by
    obtain ⟨cs, ho, hlen⟩ := hst s hs .first
    obtain ⟨cs', ho', hlen'⟩ := hst s hs .second
    have hsize := hle s hs hout
    rw [ObjMem.cmp_of ho ho' (by omega) (by omega), h1, h2, (hprep.contents hs).2 hsym,
      (hprep.contents hs).2 hsym]
    exact fun he => take_range_ne hpos hsize hne (of_decide_eq_true (Option.some.inj he))
  have hv : verdict H.dl H.n c.mem H.checked = some false := by
    cases hverd : verdict H.dl H.n c.mem H.checked with
    | none =>
      refine (verdict_ne_none (fun t ht => ?_) hverd).elim
      obtain ⟨eq, he⟩ := hcmp t ht
      rw [he]
      exact Option.some_ne_none eq
    | some eq =>
      cases eq with
      | true => exact (hdiff (verdict_eq_true.1 hverd s (List.mem_filter.2 ⟨hs, hout⟩))).elim
      | false => rfl
  obtain ⟨o, ho, -, hend⟩ := hat.checks_end (W := W) hlink prev hp hst
  rw [hv] at hend
  obtain ⟨c', rfl⟩ := hend
  exact ⟨c', hsteps.halts ho⟩

end

/-- If the calls are independent of their order, the harness gets to its exit and returns 0, and
never gets to a failure. -/
theorem no_false_alarm {senc : SymbolicEncapsulation} {M M' : Module} {F : Nat} {f : Function}
    {n : IterationsNumTy} {specs : List ArgSpec} (hf : M.functions[F]? = some f)
    (hdef : f.isDeclaration = false) (hi : TakesIterator f) (hbl : HarnessBodiless senc M f)
    (hin : ComparesInside M.dataLayout n f.params (padSpecs specs f.params.length))
    (hok : senc.encapsulate M F n specs = .ok (M', true)) :
    ∃ h H, HarnessBuilt senc M F f n specs M' h H ∧ ∀ (W : World)
      (g : BitVec 64 → Contents → Contents), (∀ t v bs, W.call t v bs = some (g v bs)) →
      W.WritesOutbound (padSpecs specs f.params.length) →
      OrderIndependent M.dataLayout n f.params (padSpecs specs f.params.length) g →
        (∃ s c, Steps (step W M' F h) (startAt 0) s ∧ s.block = H.id .exit ∧
          step W M' F h s = .inr (.returned (.int 0) c)) ∧
        ∀ s j, Steps (step W M' F h) (startAt 0) s → j < H.m → s.block ≠ H.id (.fail j) := by
  obtain ⟨-, -, h, H, hb⟩ := encapsulate_of_ok hf hdef hok
  have hdl : H.dl = M.dataLayout := hb.here.dl_eq.trans hb.dataLayout
  have hlink := hb.linked hf hi
  refine ⟨h, H, hb, fun W g hg hW ho => ?_⟩
  rw [← hdl] at hin ho
  have hgood := hb.here.no_alarm hlink hi hin hW hg ho
  rw [hb.bodiless_iff.1 hbl] at hgood
  refine ⟨hgood, fun s j hs hj hsj => ?_⟩
  obtain ⟨s', c, hs', -, hend⟩ := hgood
  obtain ⟨prev, block, env, c'⟩ := s
  subst hsj
  cases Halts.unique ⟨s', hs', hend⟩ ⟨_, hs, hb.here.fail_step prev hlink hj⟩

theorem orderIndependent_id {dl : DataLayout} {n : IterationsNumTy} {params : List Param}
    {specs : List ArgSpec} (h : ∀ spec ∈ specs, isOnlyOutbound spec.direction = false) :
    OrderIndependent dl n params specs fun _ bs => bs := by
  intro bs bs' _ _ hagree i spec hlt hs _
  rw [pureSequence_id, pureSequence_id]
  exact hagree i spec hlt hs (h spec (List.mem_of_getElem? hs))

/-- A buffer that is read and written, and a function that does nothing to it. -/
theorem no_false_alarm_buffer : ∃ (M' : Module) (h : Nat) (H : Harness),
    HarnessBuilt {} (bufferModule .int32Ty) 0 (bufferFunction .int32Ty) 2
      [⟨"i", .inbound, false⟩, ⟨"p", .both, true⟩] M' h H ∧
    ∃ s c, Steps (step World.idle M' 0 h) (startAt 0) s ∧ s.block = H.id .exit ∧
      step World.idle M' 0 h s = .inr (.returned (.int 0) c) := by
  have hf : (bufferModule .int32Ty).functions[0]? = some (bufferFunction .int32Ty) := rfl
  obtain ⟨M', hok⟩ := encapsulate_buffer (.inr rfl) [⟨"i", .inbound, false⟩, ⟨"p", .both, true⟩]
  obtain ⟨h, H, hb, hruns⟩ :=
    no_false_alarm hf rfl (by decide) (.of_free (by decide)) (by decide) hok
  exact ⟨M', h, H, hb, (hruns World.idle (fun _ bs => bs) (fun _ _ _ => rfl)
    (fun t v bs bs' hc i spec _ _ => by cases hc; rfl) (orderIndependent_id (by decide))).1⟩

/-- A world in which fresh storage is full of its object's number, and the function does nothing. -/
def World.leftover : World where
  fresh o _ := BitVec.ofNat 8 o
  symbol _ _ := 0
  call _ _ bs := some bs
  shape := shape_same

/-- A function that does not write to its outbound buffer is independent of the order of its calls
from any contents, but its harness fails. -/
theorem false_alarm_unwritten : ∃ (M' : Module) (h : Nat) (H : Harness),
    HarnessBuilt {} (bufferModule .int32Ty) 0 (bufferFunction .int32Ty) 2
      [⟨"i", .inbound, false⟩, ⟨"p", .outbound, false⟩] M' h H ∧
    (∀ t v bs, World.leftover.call t v bs = some bs) ∧
    (∀ bs, SameEitherWay 2 (bufferFunction .int32Ty).params
      [⟨"i", .inbound, false⟩, ⟨"p", .outbound, false⟩] (fun _ bs => bs) bs bs) ∧
    ∃ c, Halts (step World.leftover M' 0 h) (startAt 0) (.failed c) := by
  have hf : (bufferModule .int32Ty).functions[0]? = some (bufferFunction .int32Ty) := rfl
  obtain ⟨M', hok⟩ :=
    encapsulate_buffer (.inr rfl) [⟨"i", .inbound, false⟩, ⟨"p", .outbound, false⟩]
  obtain ⟨-, -, h, H, hb⟩ := encapsulate_of_ok hf rfl hok
  have hi : TakesIterator (bufferFunction .int32Ty) := by decide
  have hl := hb.here.layout
  have hdl : H.dl = .lp64 := hb.here.dl_eq.trans hb.dataLayout
  -- the iterator's slot has one copy, so the buffer's copies are the objects 1 and 2
  obtain ⟨s₀, hs₀, -, -, hspec₀⟩ := hl.slot_at (k := 0) (p := ⟨"i", .int64Ty⟩) rfl
  obtain ⟨s, hs, hp, -, hspec⟩ := hl.slot_at (k := 1) (p := ⟨"p", .pointer .int32Ty 0⟩) rfl
  replace hspec₀ : s₀.spec = ⟨"i", .inbound, false⟩ := (Option.some.inj hspec₀).symm
  replace hspec : s.spec = ⟨"p", .outbound, false⟩ := (Option.some.inj hspec).symm
  have hout : s.outbound = true := by rw [Slot.outbound, hspec]; decide
  have hidx : s.idx = 1 := by
    rw [(hl.at_pos 1 s hs).2.2, slotsWidth_take_succ hs₀, Slot.width, Slot.outbound, hspec₀]
    rfl
  have hfails := hb.here.alarm (W := World.leftover) (hb.linked hf hi) hi
    (by rw [hdl]; decide) (fun _ _ _ => rfl) (List.mem_of_getElem? hs) hout
    (by rw [Slot.symbolized, hspec]; decide)
    (by rw [Slot.comparedSize_eq, hdl, hb.here.n_eq, hp, hspec]; decide)
    (by
      simp only [Slot.obj, Slot.idx2, hout, hidx, World.leftover]
      decide)
  rw [hb.bodiless_iff.1 (.of_free (by decide))] at hfails
  refine ⟨M', h, H, hb, fun _ _ _ => rfl, fun bs i spec _ _ _ => ?_, hfails⟩
  rw [pureSequence_id, pureSequence_id]

end Ephippion
