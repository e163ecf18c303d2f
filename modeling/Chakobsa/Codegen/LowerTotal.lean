import Chakobsa.Codegen.Layout
import Chakobsa.Codegen.AllocSound

/-!
# The lowering does not panic

Every `expect` and every indexing of the code generator is justified by something the validator
checks or the allocator establishes: each value has a location, each branch target is a block,
each block has a terminator, each phi has an entry for every predecessor. This module follows
`lower_function` through its pieces and shows that each ends with code or with a `CodegenError`.
-/

namespace Chakobsa
namespace Codegen

open Ir ExceptLemmas Chakobsa.Comp

/-- Every phi has an entry for every predecessor of its block. -/
def PhisCover (f : Function) : Prop :=
  ∀ b ∈ f.blocks, ∀ incoming ∈ b.phis, ∀ p ∈ f.predecessors b.id, p ∈ incoming.map Prod.fst

/-- What the lowering of a function relies on: the validator's checks, phi entries for every edge,
and a location for everything that is defined. -/
structure Lowerable (f : Function) (defs : Defs) (alloc : Allocation) : Prop where
  valid : Validated f defs
  phis : PhisCover f
  located : ∀ v, defs v ≠ none → alloc.Located v

/-- A defined value is a parameter or the result of an instruction. -/
theorem defined_iff {f : Function} {defs : Defs} (hv : Validated f defs) {v : ValueId} :
    defs v ≠ none ↔ v < f.params.length ∨ v ∈ f.insts.map (·.id) := by
  have hdefs := (collectDefinitions_ok hv.collect).2.2 v
  constructor
  · intro hne
    obtain ⟨t, ht⟩ := Option.ne_none_iff_exists'.mp hne
    refine ((hdefs t).mp ht).imp (fun hp => ?_) fun ⟨i, hi, hid, _⟩ => hid ▸ List.mem_map_of_mem hi
    obtain ⟨p, hp, -⟩ := Option.map_eq_some_iff.mp hp
    exact (List.getElem?_eq_some_iff.mp hp).1
  · intro h hnone
    rcases h with h | h
    · have := (hdefs f.params[v].2).mpr (.inl (by simp [paramDefs, List.getElem?_eq_getElem h]))
      rw [hnone] at this
      cases this
    · obtain ⟨i, hi, hid⟩ := List.mem_map.mp h
      have := (hdefs i.ty).mpr (.inr ⟨i, hi, hid, rfl⟩)
      rw [hnone] at this
      cases this

theorem SoundAllocation.has {f : Function} {base reserved : ℕ} {alloc : Allocation}
    (h : SoundAllocation f base reserved alloc) {v : ValueId}
    (hv : v < f.params.length ∨ v ∈ f.insts.map (·.id)) : alloc.Located v := by
  rcases h.located v hv with ⟨hr, -⟩ | ⟨-, hs⟩
  · exact .inl hr
  · exact .inr hs

section Pieces

variable {f : Function} {defs : Defs} {alloc : Allocation} {liveness : Liveness} {regionEnd : ℕ}

/-! ### Locations and addresses -/

theorem locOf_located {v : ValueId} (h : alloc.Located v) : locOf alloc v = .ok (alloc.loc v) := by
  unfold locOf Allocation.loc
  cases hr : alloc.registers v with
  | some r => rfl
  | none =>
    obtain ⟨a, ha⟩ := Option.isSome_iff_exists.mp (h.resolve_left (by simp [hr]))
    simp [ha]

theorem addrI32_graceful (addr : ℕ) : (addrI32 f addr).Graceful := by
  unfold addrI32
  split
  · exact .ok
  · exact .fail

theorem readInto_graceful {v : ValueId} (h : alloc.Located v) (scratch : ℕ) :
    (readInto f alloc v scratch).Graceful := by
  unfold readInto
  rw [locOf_located h, ok_bind]
  split
  · exact .ok
  · exact (addrI32_graceful _).bind fun _ _ => .ok

theorem writeTarget_graceful {v : ValueId} (h : alloc.Located v) (scratch : ℕ) :
    (writeTarget alloc v scratch).Graceful := by
  unfold writeTarget
  rw [locOf_located h, ok_bind]
  split <;> exact .ok

theorem finishWrite_graceful {v : ValueId} (h : alloc.Located v) (r : ℕ) :
    (finishWrite f alloc v r).Graceful := by
  unfold finishWrite
  rw [locOf_located h, ok_bind]
  split
  · exact .ok
  · exact (addrI32_graceful _).bind fun _ _ => .ok

/-! ### Parallel moves -/

theorem stageSources_graceful (base i : ℕ) (moves : List (Loc × Loc)) :
    (stageSources f base i moves).Graceful := by
  induction moves generalizing i with
  | nil => exact .ok
  | cons m moves ih =>
    obtain ⟨src, dst⟩ := m
    cases src with
    | reg r => exact (addrI32_graceful _).bind fun _ _ => (ih _).bind fun _ _ => .ok
    | spill addr =>
      exact (addrI32_graceful _).bind fun _ _ => (addrI32_graceful _).bind fun _ _ =>
        (ih _).bind fun _ _ => .ok

theorem unstageDests_graceful (base i : ℕ) (moves : List (Loc × Loc)) :
    (unstageDests f base i moves).Graceful := by
  induction moves generalizing i with
  | nil => exact .ok
  | cons m moves ih =>
    obtain ⟨src, dst⟩ := m
    cases dst with
    | reg r => exact (addrI32_graceful _).bind fun _ _ => (ih _).bind fun _ _ => .ok
    | spill addr =>
      exact (addrI32_graceful _).bind fun _ _ => (addrI32_graceful _).bind fun _ _ =>
        (ih _).bind fun _ _ => .ok

theorem parallelMove_graceful (temp : Temps) (moves : List (Loc × Loc)) :
    (parallelMove f regionEnd temp moves).Graceful := by
  unfold parallelMove
  split
  · exact .ok
  · refine .bind ?_ fun _ _ => (stageSources_graceful _ _ _).bind fun _ _ =>
      (unstageDests_graceful _ _ _).bind fun _ _ => .ok
    unfold allocTempSlots
    split
    · exact .fail
    · exact .ok

/-! ### Edges -/

/-- The moves of an edge exist when every phi has an entry for it. -/
theorem phiMoves_graceful {from' : BlockId} {insts : List Instruction}
    (h : ∀ i ∈ insts, ∀ incoming, i.kind = .phi incoming → from' ∈ incoming.map Prod.fst ∧
      alloc.Located i.id ∧ ∀ e ∈ incoming, alloc.Located e.2) :
    (phiMoves alloc from' insts).Graceful := by
  induction insts with
  | nil => exact .ok
  | cons i insts ih =>
    have ih := ih fun j hj => h j (List.mem_cons_of_mem _ hj)
    unfold phiMoves
    split
    · next incoming hk =>
      obtain ⟨hmem, hid, hvals⟩ := h i List.mem_cons_self incoming hk
      obtain ⟨p, hp, rfl⟩ := List.mem_map.mp hmem
      have hsome : (incoming.find? fun q => q.1 == p.1).isSome :=
        List.find?_isSome.mpr ⟨p, hp, by simp⟩
      obtain ⟨e, he⟩ := Option.isSome_iff_exists.mp hsome
      rw [he, expect_some, ok_bind, locOf_located (hvals e (List.mem_of_find?_eq_some he)), ok_bind,
        locOf_located hid, ok_bind]
      exact ih.bind fun _ _ => .ok
    · exact ih

theorem Lowerable.insertPhiCopies (h : Lowerable f defs alloc) {b : BasicBlock} (hb : b ∈ f.blocks)
    {target : BlockId} (ht : target ∈ b.successors) (temp : Temps) :
    (insertPhiCopies f alloc regionEnd temp b.id target).Graceful := by
  obtain ⟨blk, hblk⟩ := Option.isSome_iff_exists.mp (h.valid.succ_isSome hb ht)
  obtain ⟨hmem, rfl⟩ := Function.block_some hblk
  unfold Codegen.insertPhiCopies
  rw [hblk, expect_some, ok_bind]
  refine (phiMoves_graceful fun i hi incoming hk => ?_).bind fun _ _ => parallelMove_graceful _ _
  have hok := h.valid.insts blk hmem i hi
  simp only [InstOk, hk] at hok
  refine ⟨?_, ?_, fun e he => h.located e.2 (by rw [(hok.2 e he).2]; simp)⟩
  · exact h.phis blk hmem incoming (BasicBlock.mem_phis.mpr ⟨i, hi, hk⟩) b.id
      (Function.mem_predecessors.mpr ⟨b, hb, rfl, ht⟩)
  · exact h.located i.id (by rw [defs_of_inst h.valid.collect hmem hi]; simp)

/-! ### Calls -/

theorem saveCode_graceful (i : ℕ) (saved : List (ValueId × ℕ)) :
    (saveCode f i saved).Graceful := by
  induction saved generalizing i with
  | nil => exact .ok
  | cons p saved ih =>
    exact (addrI32_graceful _).bind fun _ _ => (ih _).bind fun _ _ => .ok

theorem restoreCode_graceful (i : ℕ) (saved : List (ValueId × ℕ)) :
    (restoreCode f i saved).Graceful := by
  induction saved generalizing i with
  | nil => exact .ok
  | cons p saved ih =>
    exact (addrI32_graceful _).bind fun _ _ => (ih _).bind fun _ _ => .ok

theorem bumpStack_graceful (op : Opcode) (bytes : ℕ) : (bumpStack f op bytes).Graceful := by
  unfold bumpStack
  split
  · exact (addrI32_graceful _).bind fun _ _ => .ok
  · exact .ok

theorem argMoves_graceful (i : ℕ) {args : List ValueId} (h : ∀ a ∈ args, alloc.Located a) :
    (argMoves alloc i args).Graceful := by
  induction args generalizing i with
  | nil => exact .ok
  | cons a args ih =>
    unfold argMoves
    rw [locOf_located (h a List.mem_cons_self), ok_bind]
    exact (ih (i + 1) fun b hb => h b (List.mem_cons_of_mem _ hb)).bind fun _ _ => .ok

theorem callPrologue_graceful (temp : Temps) (saved : List (ValueId × ℕ)) {args : List ValueId}
    (h : ∀ a ∈ args, alloc.Located a) :
    (callPrologue f alloc regionEnd temp saved args).Graceful :=
  (saveCode_graceful _ _).bind fun _ _ => (bumpStack_graceful _ _).bind fun _ _ =>
    (argMoves_graceful _ h).bind fun _ _ => (parallelMove_graceful _ _).bind fun _ _ => .ok

theorem callEpilogue_graceful (saved : List (ValueId × ℕ)) {id : ValueId}
    (h : alloc.Located id) : (callEpilogue f alloc saved id).Graceful :=
  (bumpStack_graceful _ _).bind fun _ _ => (restoreCode_graceful _ _).bind fun _ _ =>
    (writeTarget_graceful h _).bind fun _ _ => (finishWrite_graceful h _).bind fun _ _ => .ok

/-- The operands of an accepted function are defined. -/
theorem defined_of_operand (hv : Validated f defs) {v : ValueId} (h : v ∈ operandsOf f) :
    defs v ≠ none := by
  obtain ⟨b, hb, h⟩ := List.mem_flatMap.mp h
  -- an operand of an instruction, or of the terminator
  rcases List.mem_append.mp h with h | h
  · obtain ⟨i, hi, h⟩ := List.mem_flatMap.mp h
    have hok := hv.insts b hb i hi
    unfold InstOk at hok
    cases hk : i.kind with
    | constI64 n => simp [hk, instUses] at h
    | constBool c => simp [hk, instUses] at h
    | bin op lhs rhs =>
      simp only [hk] at hok
      rcases List.mem_cons.mp (by simpa [hk, instUses] using h : v ∈ [lhs, rhs]) with rfl | h
      · simp [hok.1]
      · obtain rfl := List.mem_singleton.mp h
        simp [hok.2.1]
    | un op a =>
      simp only [hk] at hok
      obtain rfl : v = a := by simpa [hk, instUses] using h
      simp [hok.1]
    | call callee args =>
      simp only [hk] at hok h
      exact hok v h
    | phi incoming =>
      simp only [hk] at hok h
      obtain ⟨e, he, rfl⟩ := List.mem_map.mp h
      simp [(hok.2 e he).2]
  · obtain ⟨t, ht, hok⟩ := hv.term b hb
    rw [ht] at h
    cases t with
    | jump target => simp [termUses] at h
    | branch cond t e =>
      obtain rfl : v = cond := by simpa [termUses] using h
      simp [hok.1]
    | ret o =>
      cases o with
      | none => simp [termUses] at h
      | some w =>
        obtain rfl : v = w := by simpa [termUses] using h
        obtain ⟨t, -, ht⟩ := hok
        simp [ht]

/-- Everything live in a block of an accepted function is defined somewhere. -/
theorem defined_of_live (hv : Validated f defs) (hl : LivenessExact f liveness) {b : BasicBlock}
    (hb : b ∈ f.blocks) {s : ValueSet} (hs : liveWithinBlock f b.id liveness = .ok s)
    {v : ValueId} (hvs : v ∈ s) : defs v ≠ none := by
  have hout : v ∈ liveness.liveOut b.id → v ∈ operandsOf f := by
    intro h
    obtain ⟨path, hpath⟩ := (hl.liveOut b hb v).mp h
    exact hpath.mem_operandsOf
  simp only [liveWithinBlock, usedAndDefinedInBlock, Function.block_of_mem hv.nodup hb, expect_some,
    ok_bind, pure_eq_ok, Except.ok.injEq] at hs
  subst hs
  simp only [List.mem_union_iff] at hvs
  rcases hvs with ((h | h) | h) | h
  · rcases (hl.liveIn b hb v).mp h with h | h
    · exact defined_of_operand hv (mem_operandsOf hb h)
    · exact defined_of_operand hv (hout h.1)
  · exact defined_of_operand hv (mem_operandsOf hb (mem_used.mp h))
  · obtain ⟨i, hi, rfl⟩ := mem_defined.mp h
    simp [defs_of_inst hv.collect hb hi]
  · exact defined_of_operand hv (hout h)

theorem Lowerable.saveRegs (h : Lowerable f defs alloc) (hl : LivenessExact f liveness)
    {b : BasicBlock} (hb : b ∈ f.blocks) (self : ValueId) :
    (saveRegs f alloc liveness b.id self).Graceful := by
  unfold Codegen.saveRegs
  refine .bind ?_ fun live hlive => .bind (.mapM fun v hv => ?_) fun _ _ => .ok
  · unfold liveWithinBlock usedAndDefinedInBlock
    rw [Function.block_of_mem h.valid.nodup hb]
    exact .ok
  · have hdef := defined_of_live h.valid hl hb hlive (List.mem_of_mem_filter hv)
    rw [locOf_located (h.located v hdef)]
    exact .ok

/-! ### Instructions, blocks and functions -/

/-- What a non-phi instruction of a block reads, and what it defines, has a location. -/
theorem Lowerable.operand (h : Lowerable f defs alloc) {b : BasicBlock} (hb : b ∈ f.blocks)
    {i : Instruction} (hi : i ∈ b.instructions) {v : ValueId} (hv : v ∈ instUses i.kind) :
    alloc.Located v := by
  refine h.located v (defined_of_operand h.valid (List.mem_flatMap.mpr ⟨b, hb, ?_⟩))
  refine List.mem_append_left _ (List.mem_flatMap.mpr ⟨i, hi, ?_⟩)
  cases hk : i.kind <;> rw [hk] at hv
  case phi => cases hv
  all_goals exact hv

theorem Lowerable.result (h : Lowerable f defs alloc) {b : BasicBlock} (hb : b ∈ f.blocks)
    {i : Instruction} (hi : i ∈ b.instructions) : alloc.Located i.id :=
  h.located i.id (by simp [defs_of_inst h.valid.collect hb hi])

theorem Lowerable.lowerInst (h : Lowerable f defs alloc) {b : BasicBlock} (hb : b ∈ f.blocks)
    {i : Instruction} (hi : i ∈ b.instructions) : (lowerInst f alloc i).Graceful := by
  have hid := h.result hb hi
  have huse := fun v => h.operand hb hi (v := v)
  unfold Codegen.lowerInst
  cases hk : i.kind with
  | phi incoming => exact .ok
  | call callee args => exact .ok
  | constI64 n =>
    dsimp only
    split
    · exact .fail
    · exact (writeTarget_graceful hid _).bind fun _ _ => (finishWrite_graceful hid _).bind fun _ _ => .ok
  | constBool c =>
    exact (writeTarget_graceful hid _).bind fun _ _ => (finishWrite_graceful hid _).bind fun _ _ => .ok
  | bin op lhs rhs =>
    have hl := huse lhs (by simp [hk, instUses])
    have hr := huse rhs (by simp [hk, instUses])
    exact (readInto_graceful hl _).bind fun _ _ => (readInto_graceful hr _).bind fun _ _ =>
      (writeTarget_graceful hid _).bind fun _ _ => (finishWrite_graceful hid _).bind fun _ _ => .ok
  | un op a =>
    have ha := huse a (by simp [hk, instUses])
    cases op <;>
    exact (readInto_graceful ha _).bind fun _ _ => (writeTarget_graceful hid _).bind fun _ _ =>
      (finishWrite_graceful hid _).bind fun _ _ => .ok

theorem Lowerable.lowerStep (h : Lowerable f defs alloc) (hl : LivenessExact f liveness)
    {b : BasicBlock} (hb : b ∈ f.blocks) (st : LowerState) {i : Instruction}
    (hi : i ∈ b.instructions) : (lowerStep f alloc liveness regionEnd b.id st i).Graceful := by
  unfold Codegen.lowerStep
  split
  · next callee args hk =>
    have hargs : ∀ a ∈ args, alloc.Located a := fun a ha =>
      h.operand hb hi (by simpa [hk, instUses] using ha)
    exact (h.saveRegs hl hb _).bind fun _ _ => (callPrologue_graceful _ _ hargs).bind fun _ _ =>
      (callEpilogue_graceful _ (h.result hb hi)).bind fun _ _ => .ok
  · exact (h.lowerInst hb hi).bind fun _ _ => .ok

theorem Lowerable.lowerTerm (h : Lowerable f defs alloc) {b : BasicBlock} (hb : b ∈ f.blocks)
    (st : LowerState) {term : Terminator} (hterm : b.terminator = some term) :
    (lowerTerm f alloc regionEnd b.id st term).Graceful := by
  have hsucc : ∀ s ∈ term.successors, s ∈ b.successors := by simp [BasicBlock.successors, hterm]
  have huse : ∀ v ∈ termUses (some term), alloc.Located v := fun v hv =>
    h.located v (defined_of_operand h.valid (List.mem_flatMap.mpr
      ⟨b, hb, List.mem_append_right _ (hterm ▸ hv)⟩))
  cases term with
  | jump target =>
    exact (h.insertPhiCopies hb (hsucc _ (by simp [Terminator.successors])) _).bind fun _ _ => .ok
  | branch cond t e =>
    exact (readInto_graceful (huse cond (by simp [termUses])) _).bind fun _ _ =>
      (h.insertPhiCopies hb (hsucc e (by simp [Terminator.successors])) _).bind fun _ _ =>
        (h.insertPhiCopies hb (hsucc t (by simp [Terminator.successors])) _).bind fun _ _ => .ok
  | ret o =>
    cases o with
    | none => exact .ok
    | some v => exact (readInto_graceful (huse v (by simp [termUses])) _).bind fun _ _ => .ok

theorem Lowerable.lowerBlock (h : Lowerable f defs alloc) (hl : LivenessExact f liveness)
    (temp : Temps) {b : BasicBlock} (hb : b ∈ f.blocks) :
    (lowerBlock f alloc liveness regionEnd temp b).Graceful := by
  obtain ⟨term, hterm, -⟩ := h.valid.term b hb
  unfold Codegen.lowerBlock
  refine (Graceful.foldlM (fun st i hi => h.lowerStep hl hb st hi) _).bind fun st _ => ?_
  rw [hterm, expect_some, ok_bind]
  exact h.lowerTerm hb st hterm

theorem Lowerable.lowerBlocks (h : Lowerable f defs alloc) (hl : LivenessExact f liveness)
    (temp : Temps) {bs : List BasicBlock} (hbs : bs ⊆ f.blocks) :
    (lowerBlocks f alloc liveness regionEnd temp bs).Graceful := by
  induction bs generalizing temp with
  | nil => exact .ok
  | cons b bs ih =>
    exact (h.lowerBlock hl temp (hbs List.mem_cons_self)).bind fun _ _ =>
      (ih _ fun c hc => hbs (List.mem_cons_of_mem _ hc)).bind fun _ _ => .ok

end Pieces

/-- A function that passed validation is allocated and lowered without a panic. -/
theorem compileFunction_graceful {f : Function} {defs : Defs} (hv : Validated f defs)
    (hphis : PhisCover f) (reserved i : ℕ) : (compileFunction reserved i f).Graceful := by
  have halloc : (allocate f (i * FUNCTION_REGION_BYTES) reserved).Graceful := by
    by_cases hp : f.params.length ≤ NUM_GP_REGS
    · obtain ⟨alloc, halloc⟩ := allocate_valid hv hp (i * FUNCTION_REGION_BYTES) reserved
      exact .of_ok halloc
    · unfold allocate withInterference
      rw [if_pos (Nat.not_le.mp hp)]
      exact .fail
  refine halloc.bind fun alloc hok => ?_
  have hlow : Lowerable f defs alloc :=
    ⟨hv, hphis, fun v hd => (soundAllocation_of_allocate hok).has ((defined_iff hv).mp hd)⟩
  obtain ⟨l, hl, hexact⟩ := analyze_valid hv
  unfold lowerFunction
  rw [hl, ok_bind]
  exact (hlow.lowerBlocks hexact _ (List.Subset.refl _)).bind fun _ _ => .ok

end Codegen
end Chakobsa
