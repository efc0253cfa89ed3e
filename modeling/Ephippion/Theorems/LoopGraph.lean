import Ephippion.IR.Concrete
import Ephippion.Proof.Flow

/-!
# The graph around a created loop

`createLoop` around any blocks that are open or end in their only terminator leaves a well-formed
graph (`createLoop_graph`): its branches are those the function had, those of the three new blocks,
and one for the preheader and each body block that was open (`LoopBuilt.succs_cases`).
-/

namespace Ephippion

/-- Blocks of `h` a loop can be built around: the body blocks are open or end in their only
terminator, the preheader is open, and no branch goes to a block that is not there. -/
structure LoopSite (M : Module) (h : Nat) (body : List Nat) (preheader postexit : Nat) : Prop where
  body_ne : body ≠ []
  body_lt : ∀ b ∈ body, b < (M.blocks h).length
  pre_lt : preheader < (M.blocks h).length
  post_lt : postexit < (M.blocks h).length
  not_mem : preheader ∉ body
  pre_open : IsOpen (M.instrs h preheader)
  body_ends : ∀ b ∈ body, IsOpen (M.instrs h b) ∨ Terminated (M.instrs h b)
  inside : ∀ a b, M.Edge h a b → b < (M.blocks h).length

/-- What `createLoop` around `body` makes of the graph of `h`: `hdr` and the two blocks after it are
new. -/
structure LoopGraph (M M' : Module) (h : Nat) (body : List Nat) (preheader postexit hdr : Nat)
    (ind : Value) : Prop where
  length : (M.blocks h).length = hdr ∧ (M'.blocks h).length = hdr + 3
  terminated : ∀ b, b = preheader ∨ b ∈ body ∨ b = hdr ∨ b = hdr + 1 ∨ b = hdr + 2 →
    Terminated (M'.instrs h b)
  hdr_succs : ∃ body0, body.head? = some body0 ∧ M'.succs h hdr = [body0, hdr + 2]
  /-- Body blocks that were open go to the latch, the others are unchanged. -/
  opened : ∀ b ∈ body, IsOpen (M.instrs h b) →
    M'.instrs h b = M.instrs h b ++ [⟨.br (hdr + 1), ""⟩]
  kept : ∀ b ∈ body, ¬ IsOpen (M.instrs h b) → M'.instrs h b = M.instrs h b
  /-- The header is entered from the preheader and the latch, by one branch each. -/
  hdr_preds : ∀ a, M'.Edge h a hdr ↔ a = preheader ∨ a = hdr + 1
  entries : M'.instrs h preheader = M.instrs h preheader ++ [⟨.br hdr, ""⟩] ∧
    M'.succs h (hdr + 1) = [hdr]
  /-- The induction variable is the header's only `phi`, and has one value for each of them. -/
  phi : ∃ first next name rest, preheader ≠ hdr + 1 ∧ ind = indVar hdr name ∧
    M'.instrs h hdr = ⟨.phi .int64Ty [(first, preheader), (next, hdr + 1)], name⟩ :: rest ∧
    ∀ i ∈ rest, i.op.incoming = none
  latch_preds : ∀ a, M'.Edge h a (hdr + 1) ↔ a ∈ body ∧ IsOpen (M.instrs h a)
  exit_preds : ∀ a, M'.Edge h a (hdr + 2) ↔ a = hdr
  exit_succs : M'.succs h (hdr + 2) = [postexit]
  /-- A block after the loop is only added to as the preheader or an open body block is. -/
  postexit : M'.instrs h postexit = M.instrs h postexit ++
    if postexit = preheader then [⟨.br hdr, ""⟩]
    else if postexit ∈ body ∧ getTerminator (M.instrs h postexit) = none then
      [⟨.br (hdr + 1), ""⟩]
    else []
  others : ∀ b < hdr, b ≠ preheader → b ∉ body → M'.instrs h b = M.instrs h b
  inside : ∀ a b, M'.Edge h a b → b < hdr + 3

theorem Harness.EndsWith.terminated {is : List Instr} {phis : List (List Nat)} {targets : List Nat}
    (h : EndsWith is phis targets) : Terminated is := by
  obtain ⟨pre, t, hsplit, hpre, ht, -⟩ := h.split
  exact ⟨pre, t, hsplit, hpre, ht⟩

namespace Module

variable {M : Module} {h b : Nat}

theorem succs_of_append {is : List Instr} {t : Instr} (hcode : M.instrs h b = is ++ [t])
    (ht : t.op.isTerminator = true) : M.succs h b = t.op.succs := by
  rw [succs, hcode, getTerminator_append ht]
  rfl

theorem succs_of_open (hopen : IsOpen (M.instrs h b)) : M.succs h b = [] := by
  rw [succs, hopen.getTerminator]
  rfl

end Module

theorem IsOpen.terminated {is : List Instr} (h : IsOpen is) (d : Nat) :
    Terminated (is ++ [⟨.br d, ""⟩]) := ⟨is, _, rfl, h, rfl⟩

section
variable {M M' : Module} {h preheader postexit : Nat} {body : List Nat}
  {start stop step' : BitVec 32} {ind : Value} {name : String}

theorem LoopSite.ne (hs : LoopSite M h body preheader postexit) {b : Nat} (hb : b ∈ body) :
    b ≠ preheader := by
  rintro rfl
  exact hs.not_mem hb

theorem LoopSite.exists_head (hs : LoopSite M h body preheader postexit) :
    ∃ body0, body.head? = some body0 ∧ body0 < (M.blocks h).length := by
  obtain ⟨body0, hhead⟩ := Option.isSome_iff_exists.1 (List.isSome_head?.2 hs.body_ne)
  exact ⟨body0, hhead, hs.body_lt body0 (List.mem_of_head? hhead)⟩

namespace LoopBuilt

variable (hl : LoopBuilt h body preheader postexit start stop step' M M' ind name)

include hl

theorem hdr_endsWith {body0 : Nat} (hhead : body.head? = some body0) :
    Harness.EndsWith (M'.instrs h (M.blocks h).length) [[preheader, (M.blocks h).length + 1]]
      [body0, (M.blocks h).length + 2] := by
  rw [hl.hdr body0 hhead]
  exact Harness.hdrCode_endsWith ..

theorem latch_endsWith :
    Harness.EndsWith (M'.instrs h ((M.blocks h).length + 1)) [] [(M.blocks h).length] := by
  rw [hl.latch]
  exact Harness.latchCode_endsWith ..

theorem exit_endsWith :
    Harness.EndsWith (M'.instrs h ((M.blocks h).length + 2)) [] [postexit] := by
  rw [hl.exit]
  exact .single rfl rfl

variable (hs : LoopSite M h body preheader postexit)

include hs

theorem body_open {b : Nat} (hb : b ∈ body) (hopen : IsOpen (M.instrs h b)) :
    M'.instrs h b = M.instrs h b ++ [⟨.br ((M.blocks h).length + 1), ""⟩] := by
  rw [hl.old b (hs.body_lt b hb) (hs.ne hb), if_pos hb, closedBody_open hopen]

theorem body_terminated {b : Nat} (hb : b ∈ body) (hterm : Terminated (M.instrs h b)) :
    M'.instrs h b = M.instrs h b := by
  rw [hl.old b (hs.body_lt b hb) (hs.ne hb), if_pos hb, closedBody_terminated hterm]

theorem succs_cases {body0 hdr : Nat} (hhead : body.head? = some body0)
    (hhdr : (M.blocks h).length = hdr) (a : Nat) :
    a = hdr ∧ M'.succs h a = [body0, hdr + 2] ∨ a = hdr + 1 ∧ M'.succs h a = [hdr] ∨
      a = hdr + 2 ∧ M'.succs h a = [postexit] ∨ a = preheader ∧ M'.succs h a = [hdr] ∨
      (a ∈ body ∧ IsOpen (M.instrs h a)) ∧ M'.succs h a = [hdr + 1] ∨
      (a < hdr ∧ a ≠ preheader ∧ ¬ (a ∈ body ∧ IsOpen (M.instrs h a))) ∧
        M'.succs h a = M.succs h a ∨
      hdr + 3 ≤ a ∧ M'.succs h a = [] := by
  subst hhdr
  by_cases hlt : a < (M.blocks h).length
  · by_cases hpre : a = preheader
    · subst hpre
      exact .inr (.inr (.inr (.inl ⟨rfl, Module.succs_of_append hl.pre rfl⟩)))
    · by_cases hb : a ∈ body ∧ IsOpen (M.instrs h a)
      · have hcode := hl.body_open hs hb.1 hb.2
        exact .inr (.inr (.inr (.inr (.inl ⟨hb, Module.succs_of_append hcode rfl⟩))))
      · have hcode : M'.instrs h a = M.instrs h a := by
          by_cases hmem : a ∈ body
          · exact hl.body_terminated hs hmem
              ((hs.body_ends a hmem).resolve_left fun hopen => hb ⟨hmem, hopen⟩)
          · rw [hl.old a hlt hpre, if_neg hmem]
        refine .inr (.inr (.inr (.inr (.inr (.inl ⟨⟨hlt, hpre, hb⟩, ?_⟩)))))
        rw [Module.succs, Module.succs, hcode]
  · by_cases hnew : a < (M.blocks h).length + 3
    · obtain rfl | rfl | rfl : a = (M.blocks h).length ∨ a = (M.blocks h).length + 1 ∨
          a = (M.blocks h).length + 2 := by omega
      · exact .inl ⟨rfl, Module.succs_eq (hl.hdr_endsWith hhead)⟩
      · exact .inr (.inl ⟨rfl, Module.succs_eq hl.latch_endsWith⟩)
      · exact .inr (.inr (.inl ⟨rfl, Module.succs_eq hl.exit_endsWith⟩))
    · refine .inr (.inr (.inr (.inr (.inr (.inr ⟨by omega, ?_⟩)))))
      refine Module.succs_of_open ?_
      rw [Module.instrs_of_le (by rw [hl.length]; omega)]
      exact .nil

theorem edge_new {hdr : Nat} (hhdr : (M.blocks h).length = hdr) (a : Nat) {b : Nat} (hb : hdr ≤ b) :
    M'.Edge h a b ↔ (a = preheader ∨ a = hdr + 1) ∧ b = hdr ∨
      (a ∈ body ∧ IsOpen (M.instrs h a)) ∧ b = hdr + 1 ∨ a = hdr ∧ b = hdr + 2 := by
  obtain ⟨body0, hhead, hbody0⟩ := hs.exists_head
  have hpre := hs.pre_lt
  have hpost := hs.post_lt
  have hmem : a ∈ body ∧ IsOpen (M.instrs h a) → a < hdr ∧ a ≠ preheader := fun ha =>
    ⟨hhdr ▸ hs.body_lt a ha.1, hs.ne ha.1⟩
  have hcases := hl.succs_cases hs hhead hhdr a
  rw [hhdr] at hbody0 hpre hpost
  generalize (a ∈ body ∧ IsOpen (M.instrs h a)) = opened at hmem hcases ⊢
  have hold : b ∉ M.succs h a := fun he => absurd (hs.inside a b he) (by omega)
  unfold Module.Edge
  -- the successors are known in each case, and those from before are old blocks
  rcases hcases with ⟨rfl, he⟩ | ⟨rfl, he⟩ | ⟨rfl, he⟩ | ⟨rfl, he⟩ | ⟨ha, he⟩ |
    ⟨⟨hlt, hne, ha⟩, he⟩ | ⟨hle, he⟩ <;> rw [he] <;> grind

/-- The new blocks, the preheader and the body blocks end in their only terminator. -/
theorem terminated {b : Nat} (hb : b = preheader ∨ b ∈ body ∨ b = (M.blocks h).length ∨
    b = (M.blocks h).length + 1 ∨ b = (M.blocks h).length + 2) : Terminated (M'.instrs h b) := by
  rcases hb with rfl | hb | rfl | rfl | rfl
  · rw [hl.pre]
    exact hs.pre_open.terminated _
  · rcases hs.body_ends b hb with hopen | hterm
    · rw [hl.body_open hs hb hopen]
      exact hopen.terminated _
    · rw [hl.body_terminated hs hb hterm]
      exact hterm
  · obtain ⟨body0, hhead, -⟩ := hs.exists_head
    exact (hl.hdr_endsWith hhead).terminated
  · exact hl.latch_endsWith.terminated
  · exact hl.exit_endsWith.terminated

theorem postexit_code : M'.instrs h postexit = M.instrs h postexit ++
    if postexit = preheader then [⟨.br (M.blocks h).length, ""⟩]
    else if postexit ∈ body ∧ getTerminator (M.instrs h postexit) = none then
      [⟨.br ((M.blocks h).length + 1), ""⟩]
    else [] := by
  by_cases hpre : postexit = preheader
  · rw [if_pos hpre, hpre, hl.pre]
  · rw [if_neg hpre, hl.old postexit hs.post_lt hpre]
    by_cases hb : postexit ∈ body
    · rw [if_pos hb, closedBody]
      by_cases hopen : getTerminator (M.instrs h postexit) = none <;> simp [hb, hopen]
    · rw [if_neg hb, if_neg fun h => hb h.1, List.append_nil]

theorem graph : LoopGraph M M' h body preheader postexit (M.blocks h).length ind := by
  obtain ⟨body0, hhead, hbody0⟩ := hs.exists_head
  have hpre := hs.pre_lt
  refine ⟨⟨rfl, hl.length⟩, fun b hb => hl.terminated hs hb,
    ⟨body0, hhead, Module.succs_eq (hl.hdr_endsWith hhead)⟩,
    fun b hb hopen => hl.body_open hs hb hopen, fun b hb hopen => ?_, fun a => ?_,
    ⟨hl.pre, Module.succs_eq hl.latch_endsWith⟩, ?_, fun a => ?_, fun a => ?_,
    Module.succs_eq hl.exit_endsWith, hl.postexit_code hs, fun b hb hne hmem => ?_,
    fun a b he => ?_⟩
  · exact hl.body_terminated hs hb ((hs.body_ends b hb).resolve_left hopen)
  · rw [hl.edge_new hs rfl a (Nat.le_refl _)]
    simp
  · refine ⟨_, _, name, _, by omega, hl.ind, hl.hdr body0 hhead, fun i hi => ?_⟩
    simp only [List.mem_cons, List.not_mem_nil, or_false] at hi
    rcases hi with rfl | rfl <;> rfl
  · rw [hl.edge_new hs rfl a (Nat.le_succ _)]
    simp
  · rw [hl.edge_new hs rfl a (Nat.le_add_right _ 2)]
    simp
  · rw [hl.old b hb hne, if_neg hmem]
  · by_contra hn
    rcases (hl.edge_new hs rfl a (by omega)).1 he with ⟨-, hb⟩ | ⟨-, hb⟩ | ⟨-, hb⟩ <;> omega

end LoopBuilt

end

/-- A loop around any blocks of a function leaves a well-formed graph. -/
theorem createLoop_graph {M : Module} {h preheader postexit : Nat} {body : List Nat}
    {start stop : BitVec 32} (step' : BitVec 32) (hs : LoopSite M h body preheader postexit)
    (hne : start ≠ stop) :
    ∃ M' ind, createLoop M h body preheader postexit start stop step' = .ok (M', ind) ∧
      LoopGraph M M' h body preheader postexit (M.blocks h).length ind := by
  obtain ⟨M', ind, name, hok, hl⟩ := createLoop_spec M h body preheader postexit step' hs.body_ne
    hs.body_lt hs.pre_lt hs.not_mem hne
  exact ⟨M', ind, hok, hl.graph hs⟩

/-- A function `g` of which two blocks are branched to. -/
def branchModule : Module := .of [⟨"g", .void, [], false, [⟨"start", []⟩,
  ⟨"first", [⟨.br 2, ""⟩]⟩, ⟨"second", []⟩, ⟨"end", [⟨.br 1, ""⟩]⟩]⟩]

/-- The loop is around a block that goes to the other one, and that one twice. -/
theorem createLoop_graph_branch : ∃ M' ind,
    createLoop branchModule 0 [1, 2, 2] 0 3 = .ok (M', ind) ∧
      LoopGraph branchModule M' 0 [1, 2, 2] 0 3 4 ind := by
  have hedges : ∀ a < 4, ∀ b ∈ branchModule.succs 0 a, b < 4 := by decide
  have hends : ∀ b ∈ [1, 2, 2], IsOpen (branchModule.instrs 0 b) ∨
      Terminated (branchModule.instrs 0 b) := by
    intro b hb
    simp only [List.mem_cons, List.not_mem_nil, or_false, or_self] at hb
    rcases hb with rfl | rfl
    · exact .inr ⟨[], ⟨.br 2, ""⟩, rfl, .nil, rfl⟩
    · exact .inl .nil
  exact createLoop_graph 1 ⟨by decide, by decide, by decide, by decide, by decide,
    .nil, hends, fun a b he => hedges a he.lt b he⟩ (by decide)

end Ephippion
