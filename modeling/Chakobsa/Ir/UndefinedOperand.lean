import Chakobsa.Ir.Validate

/-!
# An undefined operand is always caught

`ReplacesOperand` puts another id in the place of one operand, whichever kind of instruction or
terminator reads it and wherever it stands in its list. Nothing else changes: the new function has
the shape of the old one (`SameShape`), which is all that the other checks look at. So if the old
function passes, the first check that does not is the one of the operand that was replaced.
-/

namespace Chakobsa
namespace Ir

open ExceptLemmas

/-- An operand of the instruction is replaced by `v`. -/
inductive InstKind.ReplacesOperand (v : ValueId) : InstKind → InstKind → Prop where
  | binLhs {op : BinOp} {lhs rhs : ValueId} : ReplacesOperand v (.bin op lhs rhs) (.bin op v rhs)
  | binRhs {op : BinOp} {lhs rhs : ValueId} : ReplacesOperand v (.bin op lhs rhs) (.bin op lhs v)
  | un {op : UnOp} {operand : ValueId} : ReplacesOperand v (.un op operand) (.un op v)
  | call {func : String} {before after : List ValueId} {arg : ValueId} :
      ReplacesOperand v (.call func (before ++ arg :: after)) (.call func (before ++ v :: after))
  | phi {before after : List (BlockId × ValueId)} {p : BlockId} {w : ValueId} :
      ReplacesOperand v (.phi (before ++ (p, w) :: after)) (.phi (before ++ (p, v) :: after))

/-- The operand of the terminator is replaced by `v`. -/
inductive Terminator.ReplacesOperand (v : ValueId) : Terminator → Terminator → Prop where
  | branch {cond : ValueId} {thenBlock elseBlock : BlockId} :
      ReplacesOperand v (.branch cond thenBlock elseBlock) (.branch v thenBlock elseBlock)
  | ret {w : ValueId} : ReplacesOperand v (.ret (some w)) (.ret (some v))

/-- One operand in the block is replaced by `v`. -/
inductive BasicBlock.ReplacesOperand (v : ValueId) : BasicBlock → BasicBlock → Prop where
  | inst {b : BasicBlock} {before after : List Instruction} {i : Instruction} {kind : InstKind}
      (hb : b.instructions = before ++ i :: after) (hk : i.kind.ReplacesOperand v kind) :
      ReplacesOperand v b { b with instructions := before ++ { i with kind := kind } :: after }
  | term {b : BasicBlock} {t t' : Terminator} (hb : b.terminator = some t)
      (ht : t.ReplacesOperand v t') : ReplacesOperand v b { b with terminator := some t' }

/-- One operand in the block with id `b` is replaced by `v`. -/
inductive Function.ReplacesOperand (f : Function) (v : ValueId) (b : BlockId) : Function → Prop where
  | block {before after : List BasicBlock} {blk blk' : BasicBlock}
      (hf : f.blocks = before ++ blk :: after) (hb : blk.id = b)
      (hblk : blk.ReplacesOperand v blk') :
      f.ReplacesOperand v b { f with blocks := before ++ blk' :: after }

/-! ### What the checks look at -/

/-- The id, the edges and the definitions of a block. -/
def BasicBlock.shape (b : BasicBlock) : BlockId × List BlockId × List (ValueId × Ty) :=
  (b.id, b.successors, b.instructions.map fun i => (i.id, i.ty))

/-- The functions differ in kinds of instructions and in operands at most. -/
structure SameShape (f f' : Function) : Prop where
  name : f'.name = f.name
  params : f'.params = f.params
  retTy : f'.retTy = f.retTy
  entry : f'.entry = f.entry
  blocks : f'.blocks.map BasicBlock.shape = f.blocks.map BasicBlock.shape

section Shape

variable {f f' : Function} (h : SameShape f f')
include h

theorem SameShape.ids : f'.blocks.map (·.id) = f.blocks.map (·.id) := by
  have := congrArg (List.map Prod.fst) h.blocks
  simpa [List.map_map, Function.comp_def, BasicBlock.shape] using this

theorem SameShape.block_isSome (id : BlockId) : (f'.block id).isSome = (f.block id).isSome := by
  rw [Bool.eq_iff_iff, Function.block_isSome_iff, Function.block_isSome_iff, h.ids]

theorem SameShape.predecessors (id : BlockId) : f'.predecessors id = f.predecessors id := by
  have hpreds : ∀ g : Function, g.predecessors id = (g.blocks.map BasicBlock.shape).flatMap fun s =>
      (s.2.1.filter (· == id)).map fun _ => s.1 := by
    intro g
    rw [List.flatMap_map]
    rfl
  rw [hpreds, hpreds, h.blocks]

omit h in
/-- Definitions are made by ids and types. -/
theorem foldlM_defineInst_congr {func : String} {l l' : List Instruction} {d : Defs}
    (h : l'.map (fun i => (i.id, i.ty)) = l.map fun i => (i.id, i.ty)) :
    l'.foldlM (defineInst func) d = l.foldlM (defineInst func) d := by
  induction l generalizing l' d with
  | nil =>
    rw [List.map_nil, List.map_eq_nil_iff] at h
    rw [h]
  | cons i l ih =>
    cases l' with
    | nil => simp at h
    | cons i' l' =>
      simp only [List.map_cons, List.cons.injEq, Prod.mk.injEq] at h
      obtain ⟨⟨hid, hty⟩, hl⟩ := h
      have hdefine : defineInst func d i' = defineInst func d i := by
        simp only [defineInst, hid, hty]
      rw [List.foldlM_cons, List.foldlM_cons, hdefine]
      exact bind_congr fun _ => ih hl

theorem SameShape.collectDefinitions : collectDefinitions f' = collectDefinitions f := by
  have hdefs : paramDefs f' = paramDefs f := by
    funext v
    rw [paramDefs, paramDefs, h.params]
  rw [Ir.collectDefinitions, Ir.collectDefinitions, h.name, hdefs]
  refine foldlM_defineInst_congr ?_
  have hinsts : ∀ g : Function, g.insts.map (fun i => (i.id, i.ty)) =
      (g.blocks.map BasicBlock.shape).flatMap fun s => s.2.2 := by
    intro g
    rw [List.flatMap_map, Function.insts, List.map_flatMap]
    rfl
  rw [hinsts, hinsts, h.blocks]

theorem SameShape.checkOperand : checkOperand f' = checkOperand f := by
  funext b defs v t
  simp only [Ir.checkOperand, h.name]

theorem SameShape.checkInst : checkInst f' = checkInst f := by
  funext defs b i
  have hty : checkInstTy f' = checkInstTy f := by
    funext b i t
    simp only [checkInstTy, h.name]
  simp only [Ir.checkInst, h.checkOperand, hty, h.name, h.predecessors]

theorem SameShape.checkTerminator : checkTerminator f' = checkTerminator f := by
  have hnone : ∀ id, (f'.block id).isNone = (f.block id).isNone := fun id => by
    rw [← Option.not_isSome, ← Option.not_isSome, h.block_isSome]
  funext defs b t
  cases t with
  | none => simp only [Ir.checkTerminator, h.name]
  | some t =>
    cases t with
    | jump target => simp only [Ir.checkTerminator, h.name, hnone]
    | branch cond t e => simp only [Ir.checkTerminator, h.name, hnone, h.checkOperand]
    | ret value => simp only [Ir.checkTerminator, h.name, h.retTy, h.checkOperand]

theorem SameShape.checkBlock : checkBlock f' = checkBlock f := by
  funext defs b
  simp only [Ir.checkBlock, h.checkInst, h.checkTerminator, h.name]

end Shape

theorem BasicBlock.ReplacesOperand.shape {v : ValueId} {b b' : BasicBlock}
    (h : b.ReplacesOperand v b') : b'.shape = b.shape := by
  cases h with
  | inst hb hk => simp [BasicBlock.shape, BasicBlock.successors, hb]
  | term hb ht => cases ht <;> simp [BasicBlock.shape, BasicBlock.successors, hb, Terminator.successors]

theorem Function.ReplacesOperand.sameShape {f f' : Function} {v : ValueId} {b : BlockId}
    (h : f.ReplacesOperand v b f') : SameShape f f' := by
  cases h with
  | block hf hb hblk =>
    refine ⟨rfl, rfl, rfl, rfl, ?_⟩
    rw [hf, List.map_append, List.map_append, List.map_cons, List.map_cons, hblk.shape]

/-! ### The check that fails -/

section Caught

variable {f f' : Function} {defs : Defs} {b : BlockId} {v : ValueId}

/-- The id is neither that of a parameter nor that of an instruction. -/
def Function.Undefined (f : Function) (v : ValueId) : Prop :=
  f.params.length ≤ v ∧ ∀ i ∈ f.insts, i.id ≠ v

theorem Function.Undefined.defs_eq_none (h : f.Undefined v) (hd : collectDefinitions f = .ok defs) :
    defs v = none := by
  by_contra hne
  obtain ⟨t, ht⟩ := Option.ne_none_iff_exists'.mp hne
  rcases ((collectDefinitions_ok hd).2.2 v t).mp ht with hparam | ⟨i, hi, hid, -⟩
  · rw [paramDefs, List.getElem?_eq_none h.1] at hparam
    cases hparam
  · exact h.2 i hi hid

theorem checkOperand_undefined (hv : defs v = none) (t : Ty) :
    checkOperand f b defs v t = .error (.undefinedValue f.name b v) := by
  simp only [checkOperand, hv]

/-- In an instruction that passes, the check of the operand that has been replaced is the first
to fail. -/
theorem InstOk.replaced {i : Instruction} {kind : InstKind} (h : InstOk f defs b i)
    (hk : i.kind.ReplacesOperand v kind) (hv : defs v = none) :
    checkInst f defs b { i with kind := kind } = .error (.undefinedValue f.name b v) := by
  obtain ⟨id, ty, kind₀⟩ := i
  cases hk with
  | binLhs =>
    simp only [checkInst, checkOperand_undefined hv]
    rfl
  | binRhs =>
    obtain ⟨hlhs, -⟩ := h
    simp only [checkInst, checkOperand_eq_ok.mpr hlhs, checkOperand_undefined hv]
    rfl
  | un =>
    simp only [checkInst, checkOperand_undefined hv]
    rfl
  | @call func before after arg =>
    have hbefore : ∀ a ∈ before, defs a ≠ none := fun a ha => h a (List.mem_append_left _ ha)
    refine forM_append_error (fun a ha => ?_) ?_
    · exact failIf_eq_ok.mpr (hbefore a ha)
    · exact if_pos hv
  | @phi before after p w =>
    obtain ⟨hlen, hincoming⟩ := h
    have hlen' : (before ++ (p, v) :: after).length = (f.predecessors b).length := by
      simpa using hlen
    have hp : p ∈ f.predecessors b := (hincoming (p, w) (by simp)).1
    simp only [checkInst, failIf_eq_ok.mpr (not_not.mpr hlen'), ok_bind]
    refine forM_append_error (fun q hq => ?_) ?_
    · obtain ⟨hq, hdef⟩ := hincoming q (List.mem_append_left _ hq)
      simp only [failIf_eq_ok.mpr (not_not.mpr hq), checkOperand_eq_ok.mpr hdef, ok_bind]
    · simp only [failIf_eq_ok.mpr (not_not.mpr hp), ok_bind]
      exact checkOperand_undefined hv ty

/-- The same for a terminator. -/
theorem TermOk.replaced {t t' : Terminator} (h : TermOk f defs t) (ht : t.ReplacesOperand v t')
    (hv : defs v = none) :
    checkTerminator f defs b (some t') = .error (.undefinedValue f.name b v) := by
  cases ht with
  | branch =>
    simp only [checkTerminator, checkOperand_undefined hv]
    rfl
  | ret =>
    obtain ⟨ty, hret, -⟩ := h
    simp only [checkTerminator, hret, checkOperand_undefined hv]

/-- The same for a block. -/
theorem checkBlock_replaced {blk blk' : BasicBlock} (h : checkBlock f defs blk = .ok ())
    (hblk : blk.ReplacesOperand v blk') (hv : defs v = none) :
    checkBlock f defs blk' = .error (.undefinedValue f.name blk.id v) := by
  obtain ⟨hinsts, t, ht, htok⟩ := checkBlock_ok_iff.mp h
  cases hblk with
  | @inst before after i kind hb hk =>
    have hne : ¬ (before ++ { i with kind := kind } :: after = [] ∧ blk.terminator = none) := by simp
    have hcheck : forM (before ++ { i with kind := kind } :: after) (checkInst f defs blk.id) =
        .error (.undefinedValue f.name blk.id v) := by
      refine forM_append_error (fun j hj => checkInst_ok_iff.mpr ?_) ?_
      · exact hinsts j (hb ▸ List.mem_append_left _ hj)
      · exact (hinsts i (hb ▸ by simp)).replaced hk hv
    simp only [checkBlock, failIf_eq_ok.mpr hne, ok_bind, hcheck]
    rfl
  | @term t₀ t' hb ht' =>
    obtain rfl : t₀ = t := Option.some.inj (hb.symm.trans ht)
    have hne : ¬ (blk.instructions = [] ∧ some t' = none) := by simp
    have hcheck : forM blk.instructions (checkInst f defs blk.id) = .ok () :=
      forM_eq_ok.mpr fun j hj => checkInst_ok_iff.mpr (hinsts j hj)
    simp only [checkBlock, failIf_eq_ok.mpr hne, ok_bind, hcheck, htok.replaced ht' hv]

/-- Whichever operand of an accepted function is replaced by an undefined id, validation fails with
the error that names the function, the block of the operand and the id. -/
theorem undefinedOperand_caught (hok : validateFunction f = .ok ()) (hv : f.Undefined v)
    (h : f.ReplacesOperand v b f') :
    validateFunction f' = .error (.undefinedValue f.name b v) := by
  obtain ⟨defs, hval⟩ := validateFunction_ok_iff.mp hok
  have hdefs := hv.defs_eq_none hval.collect
  have hshape := h.sameShape
  have hentry : ¬ (f'.block f'.entry).isNone := by
    rw [← Option.not_isSome, hshape.block_isSome, hshape.entry, hval.entry]
    decide
  have hdistinct : checkDistinct f'.name [] f'.blocks = .ok () :=
    checkDistinct_ok_iff.mpr ⟨hshape.ids ▸ hval.nodup, by simp⟩
  have hcheck : forM f'.blocks (checkBlock f' defs) = .error (.undefinedValue f.name b v) := by
    rw [hshape.checkBlock]
    cases h with
    | @block before after blk blk' hf hb hblk =>
      have hblocks : ∀ c ∈ f.blocks, checkBlock f defs c = .ok () := fun c hc =>
        checkBlock_ok_iff.mpr ⟨hval.insts c hc, hval.term c hc⟩
      refine forM_append_error (fun c hc => hblocks c (hf ▸ List.mem_append_left _ hc)) ?_
      rw [← hb]
      exact checkBlock_replaced (hblocks blk (hf ▸ by simp)) hblk hdefs
  simp only [validateFunction, failIf_eq_ok.mpr hentry, hdistinct, hshape.collectDefinitions,
    hval.collect, ok_bind, hcheck]

end Caught

/-- `fn f(c: bool) -> i64` with a join of two constants. -/
def joinOfConstants : Function where
  name := "f"
  params := [("c", .bool)]
  retTy := some .i64
  entry := 0
  blocks :=
    [⟨0, [⟨1, .i64, .constI64 1⟩], some (.branch 0 1 2)⟩,
     ⟨1, [⟨2, .i64, .constI64 2⟩], some (.jump 2)⟩,
     ⟨2, [⟨3, .i64, .phi [(0, 1), (1, 2)]⟩], some (.ret (some 3))⟩]

theorem undefinedOperand_caught_phi :
    validateFunction { joinOfConstants with
      blocks :=
        [⟨0, [⟨1, .i64, .constI64 1⟩], some (.branch 0 1 2)⟩,
         ⟨1, [⟨2, .i64, .constI64 2⟩], some (.jump 2)⟩,
         ⟨2, [⟨3, .i64, .phi [(0, 1), (1, 7)]⟩], some (.ret (some 3))⟩] } =
      .error (.undefinedValue "f" 2 7) := by
  have hblk : BasicBlock.ReplacesOperand 7 ⟨2, [⟨3, .i64, .phi [(0, 1), (1, 2)]⟩], some (.ret (some 3))⟩
      ⟨2, [⟨3, .i64, .phi [(0, 1), (1, 7)]⟩], some (.ret (some 3))⟩ :=
    @BasicBlock.ReplacesOperand.inst _ ⟨2, [⟨3, .i64, .phi [(0, 1), (1, 2)]⟩], some (.ret (some 3))⟩
      [] [] _ _ rfl (@InstKind.ReplacesOperand.phi _ [(0, 1)] [] 1 2)
  have hreplaces := @Function.ReplacesOperand.block joinOfConstants 7 2 (joinOfConstants.blocks.take 2)
    [] _ _ rfl rfl hblk
  exact undefinedOperand_caught (show validateFunction joinOfConstants = .ok () by decide)
    ⟨by decide, by decide⟩ hreplaces

end Ir
end Chakobsa
