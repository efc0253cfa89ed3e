import Ephippion.Proof.Assertions

/-!
# What `createLoop` builds

For a non-empty list of body blocks and two different bounds: a header, a latch and an exit block
(`LoopBuilt`), the body blocks without a terminator closed with a branch to the latch and the
others as they were, the preheader ending in a branch to the header.
-/

namespace Ephippion

/-- A body block once the loop is around it. -/
def closedBody (latch : Nat) (is : List Instr) : List Instr :=
  if (getTerminator is).isNone then is ++ [⟨.br latch, ""⟩] else is

theorem closedBody_idem (latch : Nat) (is : List Instr) :
    closedBody latch (closedBody latch is) = closedBody latch is := by
  by_cases ht : (getTerminator is).isNone
  · have h1 : closedBody latch is = is ++ [⟨.br latch, ""⟩] := by rw [closedBody, if_pos ht]
    rw [h1, closedBody, getTerminator_append rfl]
    rfl
  · rw [closedBody, closedBody, if_neg ht, if_neg ht]

/-- A block without a terminator. -/
def IsOpen (is : List Instr) : Prop := ∀ i ∈ is, i.op.isTerminator = false

/-- A block that ends in its only terminator. -/
def Terminated (is : List Instr) : Prop :=
  ∃ pre t, is = pre ++ [t] ∧ IsOpen pre ∧ t.op.isTerminator = true

theorem IsOpen.nil : IsOpen [] := fun _ hi => (List.not_mem_nil hi).elim

theorem IsOpen.getTerminator {is : List Instr} (h : IsOpen is) : getTerminator is = none := by
  rw [Ephippion.getTerminator, Option.filter_eq_none_iff]
  exact fun i hi => by simp [h i (List.mem_of_getLast? hi)]

theorem closedBody_open {latch : Nat} {is : List Instr} (h : IsOpen is) :
    closedBody latch is = is ++ [⟨.br latch, ""⟩] := by
  rw [closedBody, h.getTerminator]
  rfl

theorem closedBody_terminated {latch : Nat} {is : List Instr} (h : Terminated is) :
    closedBody latch is = is := by
  obtain ⟨pre, t, rfl, -, ht⟩ := h
  rw [closedBody, getTerminator_append ht]
  rfl

section
variable {h : Nat}

theorem terminateBody_eq (M : Module) (latch e : Nat) :
    terminateBody h latch M e = if (getTerminator (M.instrs h e)).isNone
      then M.append h e (.br latch) else M := rfl

theorem instrs_terminateBody (latch : Nat) {M : Module} {e : Nat} (he : e < (M.blocks h).length) :
    (terminateBody h latch M e).instrs h =
      Function.update (M.instrs h) e (closedBody latch (M.instrs h e)) := by
  rw [terminateBody_eq, closedBody]
  split
  · exact Module.instrs_append he _
  · simp

theorem builds_terminateBody (M : Module) (latch e : Nat) :
    Builds h M (terminateBody h latch M e) := by
  rw [terminateBody_eq]
  split
  · exact .append h M _ _
  · exact .refl h M

theorem length_terminateBody (M : Module) (latch e : Nat) :
    ((terminateBody h latch M e).blocks h).length = (M.blocks h).length := by
  rw [terminateBody_eq]
  split
  · exact Module.length_blocks_append ..
  · rfl

/-- Every body block is closed once, however often it is listed. -/
theorem terminateBodies (latch : Nat) : ∀ (body : List Nat) {M : Module},
    h < M.functions.length → (∀ e ∈ body, e < (M.blocks h).length) →
      let M' := body.foldl (terminateBody h latch) M
      Builds h M M' ∧ (M'.blocks h).length = (M.blocks h).length ∧
        ∀ b, M'.instrs h b = if b ∈ body then closedBody latch (M.instrs h b) else M.instrs h b
  | [], M, _, _ => ⟨.refl h M, rfl, by simp⟩
  | e :: body, M, hh, hlt => by
    have hB := builds_terminateBody (h := h) M latch e
    have hL := length_terminateBody (h := h) M latch e
    have he := instrs_terminateBody latch (hlt e List.mem_cons_self)
    obtain ⟨h1, h2, h3⟩ := terminateBodies latch body (hB.lt hh)
      (fun b hb => by rw [hL]; exact hlt b (List.mem_cons_of_mem e hb))
    refine ⟨hB.trans hh h1, h2.trans hL, fun b => ?_⟩
    rw [List.foldl_cons, h3 b, he]
    by_cases hbe : b = e
    · subst hbe
      simp only [Function.update_self, List.mem_cons_self, ite_true, closedBody_idem, ite_self]
    · simp only [Function.update_of_ne hbe, List.mem_cons, hbe, false_or]

/-- What `addIncoming` makes of the phi's block. -/
def addIncomingAt (pos : Nat) (v : Value) (pred : Nat) (is : List Instr) : List Instr :=
  is.modify pos fun i => match i.op with
    | .phi t inc => { i with op := .phi t (inc ++ [(v, pred)]) }
    | _ => i

/-- What `createLoop` leaves. -/
structure LoopBuilt (h : Nat) (body : List Nat) (preheader postexit : Nat)
    (start stop step : BitVec 32) (M M' : Module) (ind : Value) (name : String) : Prop where
  bounds : start ≠ stop
  ind : ind = indVar (M.blocks h).length name
  builds : Builds h M M'
  length : (M'.blocks h).length = (M.blocks h).length + 3
  hdr : ∀ body0, body.head? = some body0 → M'.instrs h (M.blocks h).length =
    hdrCode (M.blocks h).length body0 preheader start stop name
  latch : M'.instrs h ((M.blocks h).length + 1) =
    latchCode (M.blocks h).length start stop step name
  exit : M'.instrs h ((M.blocks h).length + 2) = [⟨.br postexit, ""⟩]
  pre : M'.instrs h preheader = M.instrs h preheader ++ [⟨.br (M.blocks h).length, ""⟩]
  old : ∀ b < (M.blocks h).length, b ≠ preheader → M'.instrs h b =
    if b ∈ body then closedBody ((M.blocks h).length + 1) (M.instrs h b) else M.instrs h b

theorem hdr_grown {M : Module} {hdr : Nat} (hlt : hdr < (M.blocks h).length)
    (hnil : M.instrs h hdr = []) (dir : LoopDirection) (stop : BitVec 32) (body0 exit : Nat) :
    ∃ M₁ M₂ name,
      M.insert h (.atEnd hdr) (.phi .int64Ty []) "i" = (M₁, indVar hdr name) ∧
      M₁.createICmp h (.atEnd hdr) dir.pred (indVar hdr name) (getIntN 64 (stop.setWidth 64)) =
        (M₂, .inst ⟨hdr, 1⟩ .int1Ty "" false) ∧
      Grown h hdr M [⟨.phi .int64Ty [], name⟩,
        ⟨.icmp dir.pred (indVar hdr name) (getIntN 64 (stop.setWidth 64)), ""⟩,
        ⟨.condBr (.inst ⟨hdr, 1⟩ .int1Ty "" false) body0 exit, ""⟩]
        (M₂.append h hdr (.condBr (.inst ⟨hdr, 1⟩ .int1Ty "" false) body0 exit)) := by
  let ind := indVar hdr (M.uniqueName h "i")
  let M₁ := (M.insert h (.atEnd hdr) (.phi .int64Ty []) "i").1
  let M₂ := (M₁.insert h (.atEnd hdr) (.icmp dir.pred ind (getIntN 64 (stop.setWidth 64)))).1
  have g0 : Grown h hdr M [] M := hnil ▸ Grown.refl h hdr M
  have g1 : Grown h hdr M [⟨.phi .int64Ty [], M.uniqueName h "i"⟩] M₁ := g0.insert hlt _ "i"
  have g2 : Grown h hdr M [⟨.phi .int64Ty [], M.uniqueName h "i"⟩,
      ⟨.icmp dir.pred ind (getIntN 64 (stop.setWidth 64)), ""⟩] M₂ := g1.insert hlt _
  refine ⟨M₁, M₂, M.uniqueName h "i", Prod.ext rfl ?_, ?_, g2.append hlt _⟩
  · rw [Module.insert_value, hnil]
    rfl
  · refine (insert_eq (k := 1) (by rw [g1.at_block]; rfl)).trans ?_
    rfl

theorem latch_grown {M : Module} {latch : Nat} (hlt : latch < (M.blocks h).length)
    (hnil : M.instrs h latch = []) (dir : LoopDirection) (hdr : Nat) (name : String)
    (step : BitVec 32) :
    ∃ M₁, M.insert h (.atEnd latch) (dir.stepOp (indVar hdr name) step) =
        (M₁, .inst ⟨latch, 0⟩ .int64Ty "" false) ∧
      Grown h latch M [⟨dir.stepOp (indVar hdr name) step, ""⟩, ⟨.br hdr, ""⟩]
        (M₁.append h latch (.br hdr)) := by
  let op := dir.stepOp (indVar hdr name) step
  let M₁ := (M.insert h (.atEnd latch) op).1
  have g0 : Grown h latch M [] M := hnil ▸ Grown.refl h latch M
  have g1 : Grown h latch M [⟨op, ""⟩] M₁ := g0.insert hlt op
  refine ⟨M₁, ?_, g1.append hlt (.br hdr)⟩
  refine (insert_eq (k := 0) (by rw [hnil]; rfl)).trans (Prod.ext rfl ?_)
  show Value.inst ⟨latch, 0⟩ op.type "" op.isAlloca = _
  cases dir <;> rfl

theorem addIncoming_grown {M M' : Module} {b k : Nat} {is : List Instr}
    (hg : Grown h b M is M') (hlt : b < (M.blocks h).length) (v : Value) (pred : Nat) :
    Grown h b M (addIncomingAt k v pred is) (M'.addIncoming h ⟨b, k⟩ v pred) :=
  hg.modifyInstrs hlt (addIncomingAt k v pred)

/-- The header and the latch are written, the rest is as before. -/
structure LoopDrafted (h body0 preheader : Nat) (start stop step : BitVec 32) (M M' : Module)
    (name : String) : Prop where
  builds : Builds h M M'
  length : (M'.blocks h).length = (M.blocks h).length + 3
  hdr : M'.instrs h (M.blocks h).length =
    hdrCode (M.blocks h).length body0 preheader start stop name
  latch : M'.instrs h ((M.blocks h).length + 1) =
    latchCode (M.blocks h).length start stop step name
  old : ∀ b, b ≠ (M.blocks h).length → b ≠ (M.blocks h).length + 1 → M'.instrs h b = M.instrs h b

theorem LoopDrafted.close {M M₁ : Module} {body0 preheader : Nat} {rest : List Nat}
    {start stop step : BitVec 32} {name : String}
    (hd : LoopDrafted h body0 preheader start stop step M M₁ name) (postexit : Nat)
    (hlt : ∀ e ∈ body0 :: rest, e < (M.blocks h).length) (hpre : preheader < (M.blocks h).length)
    (hnot : preheader ∉ body0 :: rest) (hne : start ≠ stop) :
    LoopBuilt h (body0 :: rest) preheader postexit start stop step M
      ((((body0 :: rest).foldl (terminateBody h ((M.blocks h).length + 1)) M₁).append h preheader
        (.br (M.blocks h).length)).append h ((M.blocks h).length + 2) (.br postexit))
      (indVar (M.blocks h).length name) name := by
  have hh := Module.lt_of_blocks hpre
  let n0 := (M.blocks h).length
  have l1 : (M₁.blocks h).length = n0 + 3 := hd.length
  let M₂ := (body0 :: rest).foldl (terminateBody h (n0 + 1)) M₁
  obtain ⟨b2, l2, c2⟩ := terminateBodies (h := h) (n0 + 1) (body0 :: rest) (M := M₁)
    (hd.builds.lt hh) (fun e he => by have := hlt e he; omega)
  let M₃ := M₂.append h preheader (.br n0)
  let M₄ := M₃.append h (n0 + 2) (.br postexit)
  have c3 : M₃.instrs h = _ := Module.instrs_append
    (show preheader < (M₂.blocks h).length by rw [l2, l1]; omega) (.br n0)
  have c4 : M₄.instrs h = _ := Module.instrs_append
    (show n0 + 2 < (M₃.blocks h).length by
      rw [Module.length_blocks_append, l2, l1]; omega) (.br postexit)
  -- the blocks besides the preheader and the exit
  have hrest : ∀ b, b ≠ preheader → b ≠ n0 + 2 → M₄.instrs h b =
      if b ∈ body0 :: rest then closedBody (n0 + 1) (M₁.instrs h b) else M₁.instrs h b :=
    fun b hb hb' => by
      rw [c4, Function.update_of_ne hb', c3, Function.update_of_ne hb, c2]
  have hnb : ∀ k, n0 ≤ k → k ∉ body0 :: rest := fun k hk hmem => by
    have := hlt k hmem
    omega
  refine ⟨hne, rfl, ?_, ?_, ?_, ?_, ?_, ?_, ?_⟩
  · exact (hd.builds.trans hh b2).trans hh
      ((Builds.append h M₂ _ _).trans (b2.lt (hd.builds.lt hh)) (.append h M₃ _ _))
  · rw [Module.length_blocks_append, Module.length_blocks_append, l2, l1]
  · intro e he
    cases he
    rw [hrest _ (by omega) (by omega), if_neg (hnb _ (Nat.le_refl _)), hd.hdr]
  · rw [hrest _ (by omega) (by omega), if_neg (hnb _ (Nat.le_succ _)), hd.latch]
  · rw [c4, Function.update_self, c3, Function.update_of_ne (by omega), c2,
      if_neg (hnb _ (by omega)), hd.old _ (by omega) (by omega), Module.instrs_of_le (by omega)]
    rfl
  · rw [c4, Function.update_of_ne (by omega), c3, Function.update_self, c2, if_neg hnot,
      hd.old _ (by omega) (by omega)]
  · intro b hb hbp
    rw [hrest b hbp (by omega), hd.old b (by omega) (by omega)]

theorem createLoop_spec (M : Module) (h : Nat) (body : List Nat) (preheader postexit : Nat)
    {start stop : BitVec 32} (step : BitVec 32) (hbody : body ≠ [])
    (hlt : ∀ e ∈ body, e < (M.blocks h).length)
    (hpre : preheader < (M.blocks h).length) (hnot : preheader ∉ body) (hne : start ≠ stop) :
    ∃ M' ind name, createLoop M h body preheader postexit start stop step = .ok (M', ind) ∧
      LoopBuilt h body preheader postexit start stop step M M' ind name := by
  obtain ⟨body0, rest, rfl⟩ := List.exists_cons_of_ne_nil hbody
  have hh := Module.lt_of_blocks hpre
  let n0 := (M.blocks h).length
  let dir := LoopDirection.of start stop
  -- the new blocks
  let M₃ := withBlocks M h ["hdr", "latch", "exit"]
  obtain ⟨b3, l3, i3⟩ := withBlocks_spec ["hdr", "latch", "exit"] hh
  have l3' : (M₃.blocks h).length = n0 + 3 := l3
  have hnew : ∀ k, n0 ≤ k → M₃.instrs h k = [] := fun k hk => by
    rw [i3]
    exact Module.instrs_of_le hk
  -- the header and the latch
  obtain ⟨M₄, M₅, name, e4, e5, g6⟩ := hdr_grown (show n0 < (M₃.blocks h).length by omega)
    (hnew n0 (Nat.le_refl _)) dir stop body0 (n0 + 2)
  let M₆ := M₅.append h n0 (.condBr (.inst ⟨n0, 1⟩ .int1Ty "" false) body0 (n0 + 2))
  have l6 : (M₆.blocks h).length = n0 + 3 := g6.length.trans l3
  have i6 : M₆.instrs h (n0 + 1) = [] := by
    rw [g6.code, Function.update_of_ne (by omega)]
    exact hnew _ (by omega)
  obtain ⟨M₇, e7, g8⟩ := latch_grown (show n0 + 1 < (M₆.blocks h).length by omega) i6 dir n0 name
    step
  let M₈ := M₇.append h (n0 + 1) (.br n0)
  have l8 : (M₈.blocks h).length = n0 + 3 := g8.length.trans l6
  have i8 : M₈.instrs h n0 = _ :=
    (congrFun g8.code n0).trans ((Function.update_of_ne (by omega) _ _).trans g6.at_block)
  -- the inputs of the phi
  let M₁₀ := (M₈.addIncoming h ⟨n0, 0⟩ (getIntN 64 (start.setWidth 64)) preheader).addIncoming h
    ⟨n0, 0⟩ (.inst ⟨n0 + 1, 0⟩ .int64Ty "" false) (n0 + 1)
  have hn0 : n0 < (M₈.blocks h).length := by omega
  have g9 := addIncoming_grown (k := 0) (i8 ▸ Grown.refl h n0 M₈) hn0
    (getIntN 64 (start.setWidth 64)) preheader
  have g10 : Grown h n0 M₈ (hdrCode n0 body0 preheader start stop name) M₁₀ :=
    addIncoming_grown (k := 0) g9 hn0 (.inst ⟨n0 + 1, 0⟩ .int64Ty "" false) (n0 + 1)
  have hd : LoopDrafted h body0 preheader start stop step M M₁₀ name := by
    refine ⟨(b3.trans hh g6.builds).trans hh
      (g8.builds.trans (g6.builds.lt (b3.lt hh)) g10.builds), g10.length.trans l8, g10.at_block, ?_,
      fun b hb hb' => ?_⟩
    · rw [g10.code, Function.update_of_ne (by omega), g8.at_block]
      rfl
    · rw [g10.code, Function.update_of_ne hb, g8.code, Function.update_of_ne hb', g6.code,
        Function.update_of_ne hb, i3]
  refine ⟨_, indVar n0 name, name, ?_, hd.close postexit hlt hpre hnot hne⟩
  have e1 : M.createBlock h "hdr" = (withBlocks M h ["hdr"], n0) := rfl
  have e2 : (withBlocks M h ["hdr"]).createBlock h "latch" =
      (withBlocks M h ["hdr", "latch"], n0 + 1) := Prod.ext rfl (withBlocks_spec ["hdr"] hh).2.1
  have e3 : (withBlocks M h ["hdr", "latch"]).createBlock h "exit" = (M₃, n0 + 2) :=
    Prod.ext rfl (withBlocks_spec ["hdr", "latch"] hh).2.1
  have hpos : M₃.instrs h n0 = [] := hnew n0 (Nat.le_refl _)
  simp only [createLoop, if_neg hne, e1, e2, e3, hpos, List.length_nil, e4,
    show LoopDirection.of start stop = dir from rfl, e5]
  rw [show M₅.append h n0 (.condBr (.inst ⟨n0, 1⟩ .int1Ty "" false) body0 (n0 + 2)) = M₆ from rfl,
    e7]
  rfl

theorem createLoop_of_ok {M M' : Module} {body : List Nat} {preheader postexit : Nat}
    {start stop step : BitVec 32} {ind : Value} (hlt : ∀ e ∈ body, e < (M.blocks h).length)
    (hpre : preheader < (M.blocks h).length) (hnot : preheader ∉ body)
    (hok : createLoop M h body preheader postexit start stop step = .ok (M', ind)) :
    ∃ name, LoopBuilt h body preheader postexit start stop step M M' ind name := by
  cases body with
  | nil => cases hok
  | cons body0 rest =>
    have hne : start ≠ stop := by
      rintro rfl
      simp [createLoop] at hok
    obtain ⟨M₁, ind₁, name, hok₁, hl⟩ := createLoop_spec M h (body0 :: rest) preheader postexit step
      (by simp) hlt hpre hnot hne
    rw [hok] at hok₁
    cases hok₁
    exact ⟨name, hl⟩

end

end Ephippion
