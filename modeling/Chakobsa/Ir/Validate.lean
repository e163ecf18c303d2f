import Chakobsa.Ir.Syntax
import Chakobsa.Lib.Fault

/-!
# Structural and type validation

`crates/ir/src/validate.rs`: `validateFunction` checks one function in isolation,
`validateModule` every function and then every `Call` site. The checks come in the source's
order, so the error returned is the source's.

`Validated` and `CallOk` say what acceptance means. `validateFunction_ok_iff` and
`validateModule_ok_iff` connect them to the two functions; everything proved about accepted IR
goes through these.
-/

namespace Chakobsa
namespace Ir

open ExceptLemmas

inductive IrError where
  | emptyBlock (func : String) (block : BlockId)
  | missingTerminator (func : String) (block : BlockId)
  | duplicateValue (func : String) (value : ValueId)
  | duplicateBlock (func : String) (block : BlockId)
  | unknownEntryBlock (func : String) (block : BlockId)
  | unknownBlock (func : String) (block target : BlockId)
  | undefinedValue (func : String) (block : BlockId) (value : ValueId)
  | typeMismatch (func : String) (block : BlockId) (value : ValueId) (expected actual : Ty)
  | phiArityMismatch (func : String) (block : BlockId) (value : ValueId) (expected given : ℕ)
  | phiUnknownPredecessor (func : String) (block : BlockId) (value : ValueId) (named : BlockId)
  | unexpectedReturnValue (func : String) (block : BlockId)
  | missingReturnValue (func : String) (block : BlockId) (expected : Ty)
  | unknownCallee (func : String) (block : BlockId) (callee : String)
  | callArityMismatch (func : String) (block : BlockId) (callee : String) (expected given : ℕ)
  | callToVoidFunctionUsedAsValue (func : String) (block : BlockId) (callee : String)
  deriving DecidableEq, Repr

/-- The declared type of every value a function defines. -/
abbrev Defs : Type := ValueId → Option Ty

/-- The parameters are pre-defined: parameter `i` is the value with id `i`. -/
def paramDefs (f : Function) : Defs := fun v => f.params[v]?.map Prod.snd

/-- All instructions of a function, block by block. -/
def Function.insts (f : Function) : List Instruction := f.blocks.flatMap (·.instructions)

/-- Add the definition an instruction makes, unless its id is taken. -/
def defineInst (func : String) (defs : Defs) (inst : Instruction) : Except IrError Defs :=
  match defs inst.id with
  | some _ => .error (.duplicateValue func inst.id)
  | none => .ok fun v => if v = inst.id then some inst.ty else defs v

def collectDefinitions (f : Function) : Except IrError Defs :=
  f.insts.foldlM (defineInst f.name) (paramDefs f)

def checkOperand (f : Function) (block : BlockId) (defs : Defs) (operand : ValueId)
    (expected : Ty) : Except IrError Unit :=
  match defs operand with
  | none => .error (.undefinedValue f.name block operand)
  | some actual =>
    if actual ≠ expected then .error (.typeMismatch f.name block operand expected actual)
    else .ok ()

/-- The check of an instruction's own declared type. -/
def checkInstTy (f : Function) (block : BlockId) (inst : Instruction) (expected : Ty) :
    Except IrError Unit :=
  if inst.ty ≠ expected then .error (.typeMismatch f.name block inst.id expected inst.ty)
  else .ok ()

def checkInst (f : Function) (defs : Defs) (block : BlockId) (inst : Instruction) :
    Except IrError Unit :=
  match inst.kind with
  | .constI64 _ => checkInstTy f block inst .i64
  | .constBool _ => checkInstTy f block inst .bool
  | .bin op lhs rhs => do
    checkOperand f block defs lhs op.operandType
    checkOperand f block defs rhs op.operandType
    checkInstTy f block inst op.resultType
  | .un op operand => do
    checkOperand f block defs operand op.operandType
    checkInstTy f block inst op.resultType
  | .call _ args =>
    -- existence and signature of the callee are `validateModule`'s to check
    forM args fun arg => failIf (defs arg = none) (.undefinedValue f.name block arg)
  | .phi incoming => do
    let preds := f.predecessors block
    failIf (incoming.length ≠ preds.length)
      (.phiArityMismatch f.name block inst.id preds.length incoming.length)
    forM incoming fun p => do
      failIf (p.1 ∉ preds) (.phiUnknownPredecessor f.name block inst.id p.1)
      checkOperand f block defs p.2 inst.ty

def checkTerminator (f : Function) (defs : Defs) (block : BlockId) :
    Option Terminator → Except IrError Unit
  | none => .error (.missingTerminator f.name block)
  | some (.jump target) =>
    failIf (f.block target).isNone (.unknownBlock f.name block target)
  | some (.branch cond thenBlock elseBlock) => do
    checkOperand f block defs cond .bool
    forM [thenBlock, elseBlock] fun target =>
      failIf (f.block target).isNone (.unknownBlock f.name block target)
  | some (.ret value) =>
    match f.retTy, value with
    | none, some _ => .error (.unexpectedReturnValue f.name block)
    | some expected, none => .error (.missingReturnValue f.name block expected)
    | some expected, some v => checkOperand f block defs v expected
    | none, none => .ok ()

def checkBlock (f : Function) (defs : Defs) (b : BasicBlock) : Except IrError Unit := do
  failIf (b.instructions = [] ∧ b.terminator = none) (.emptyBlock f.name b.id)
  forM b.instructions (checkInst f defs b.id)
  checkTerminator f defs b.id b.terminator

/-- The scan for a block id that occurs twice, `seen` holding the ids before. -/
def checkDistinct (func : String) : List BlockId → List BasicBlock → Except IrError Unit
  | _, [] => .ok ()
  | seen, b :: rest =>
    if b.id ∈ seen then .error (.duplicateBlock func b.id)
    else checkDistinct func (b.id :: seen) rest

def validateFunction (f : Function) : Except IrError Unit := do
  failIf (f.block f.entry).isNone (.unknownEntryBlock f.name f.entry)
  checkDistinct f.name [] f.blocks
  let defs ← collectDefinitions f
  forM f.blocks (checkBlock f defs)

/-- `defs_by_func[name]`: a map collected from the function list, so the last function of that
name decides. -/
def defsByFunc (M : Module) (name : String) : Defs :=
  match M.functions.reverse.find? (fun g => g.name == name) with
  | some g => (collectDefinitions g).toOption.getD fun _ => none
  | none => fun _ => none

/-- The check of one instruction against the signature of the function it calls. -/
def checkCall (M : Module) (f : Function) (block : BlockId) (inst : Instruction) :
    Except IrError Unit :=
  match inst.kind with
  | .call callee args =>
    match M.function callee with
    | none => .error (.unknownCallee f.name block callee)
    | some g => do
      failIf (g.params.length ≠ args.length)
        (.callArityMismatch f.name block callee g.params.length args.length)
      forM (args.zip g.params) fun p =>
        checkOperand f block (defsByFunc M f.name) p.1 p.2.2
      match g.retTy with
      | none => .error (.callToVoidFunctionUsedAsValue f.name block callee)
      | some expected => checkInstTy f block inst expected
  | _ => .ok ()

def validateModule (M : Module) : Except IrError Unit := do
  forM M.functions validateFunction
  forM M.functions fun f =>
    forM f.blocks fun b => forM b.instructions (checkCall M f b.id)

/-! ### Definitions -/

/-- What one accepted list of definitions adds to the map before it. -/
theorem foldlM_defineInst {func : String} {l : List Instruction} {d d' : Defs}
    (h : l.foldlM (defineInst func) d = .ok d') :
    (l.map (·.id)).Nodup ∧ (∀ i ∈ l, d i.id = none) ∧
      ∀ v t, d' v = some t ↔ d v = some t ∨ ∃ i ∈ l, i.id = v ∧ i.ty = t := by
  induction l generalizing d with
  | nil =>
    obtain rfl : d = d' := by simpa using h
    simp
  | cons a l ih =>
    rw [List.foldlM_cons, bind_eq_ok] at h
    obtain ⟨c, hc, h⟩ := h
    -- the step succeeds, so the id had no type
    have hfresh : d a.id = none := by
      cases hd : d a.id with
      | none => rfl
      | some t => simp [defineInst, hd] at hc
    have hcdef : c = fun v => if v = a.id then some a.ty else d v := by
      simpa [defineInst, hfresh] using hc.symm
    obtain ⟨hnd, hnone, hd'⟩ := ih h
    have hne : ∀ i ∈ l, i.id ≠ a.id := by
      intro i hi he
      have := hnone i hi
      simp [hcdef, he] at this
    refine ⟨?_, ?_, ?_⟩
    · rw [List.map_cons, List.nodup_cons]
      refine ⟨?_, hnd⟩
      rw [List.mem_map]
      rintro ⟨i, hi, he⟩
      exact hne i hi he
    · intro i hi
      rcases List.mem_cons.mp hi with rfl | hi
      · exact hfresh
      · have := hnone i hi
        simpa [hcdef, hne i hi] using this
    · intro v t
      rw [hd' v t, hcdef]
      by_cases hv : v = a.id
      · subst hv
        simp only [if_true, Option.some.injEq, List.mem_cons, hfresh, reduceCtorEq, false_or]
        constructor
        · rintro (h | ⟨i, hi, h⟩)
          · exact ⟨a, .inl rfl, rfl, h⟩
          · exact ⟨i, .inr hi, h⟩
        · rintro ⟨i, rfl | hi, h⟩
          · exact .inl h.2
          · exact .inr ⟨i, hi, h⟩
      · simp only [if_neg hv, List.mem_cons]
        constructor
        · rintro (h | ⟨i, hi, h⟩)
          · exact .inl h
          · exact .inr ⟨i, .inr hi, h⟩
        · rintro (h | ⟨i, rfl | hi, h⟩)
          · exact .inl h
          · exact absurd h.1.symm hv
          · exact .inr ⟨i, hi, h⟩

/-- What `collectDefinitions` accepts: distinct instruction ids, none of them a parameter's;
and the map it returns. -/
theorem collectDefinitions_ok {f : Function} {defs : Defs} (h : collectDefinitions f = .ok defs) :
    (f.insts.map (·.id)).Nodup ∧ (∀ i ∈ f.insts, f.params.length ≤ i.id) ∧
      ∀ v t, defs v = some t ↔
        paramDefs f v = some t ∨ ∃ i ∈ f.insts, i.id = v ∧ i.ty = t := by
  obtain ⟨hnd, hnone, hdefs⟩ := foldlM_defineInst h
  refine ⟨hnd, fun i hi => ?_, hdefs⟩
  have := hnone i hi
  simpa [paramDefs] using this

theorem mem_insts {f : Function} {i : Instruction} :
    i ∈ f.insts ↔ ∃ b ∈ f.blocks, i ∈ b.instructions := by
  simp [Function.insts]

/-- The map gives every instruction of the function its declared type. -/
theorem defs_of_inst {f : Function} {defs : Defs} (h : collectDefinitions f = .ok defs)
    {b : BasicBlock} (hb : b ∈ f.blocks) {i : Instruction} (hi : i ∈ b.instructions) :
    defs i.id = some i.ty :=
  ((collectDefinitions_ok h).2.2 _ _).mpr (.inr ⟨i, mem_insts.mpr ⟨b, hb, hi⟩, rfl, rfl⟩)

/-! ### What the checks of one function establish -/

@[simp] theorem checkOperand_eq_ok {f : Function} {block : BlockId} {defs : Defs} {v : ValueId}
    {t : Ty} : checkOperand f block defs v t = .ok () ↔ defs v = some t := by
  unfold checkOperand
  cases hd : defs v with
  | none => simp
  | some a => by_cases ha : a = t <;> simp [ha]

@[simp] theorem checkInstTy_eq_ok {f : Function} {block : BlockId} {i : Instruction} {t : Ty} :
    checkInstTy f block i t = .ok () ↔ i.ty = t := by
  unfold checkInstTy
  by_cases h : i.ty = t <;> simp [h]

/-- An instruction of block `b` passes its checks. -/
def InstOk (f : Function) (defs : Defs) (b : BlockId) (inst : Instruction) : Prop :=
  match inst.kind with
  | .constI64 _ => inst.ty = .i64
  | .constBool _ => inst.ty = .bool
  | .bin op lhs rhs =>
    defs lhs = some op.operandType ∧ defs rhs = some op.operandType ∧ inst.ty = op.resultType
  | .un op operand => defs operand = some op.operandType ∧ inst.ty = op.resultType
  | .call _ args => ∀ a ∈ args, defs a ≠ none
  | .phi incoming =>
    incoming.length = (f.predecessors b).length ∧
      ∀ p ∈ incoming, p.1 ∈ f.predecessors b ∧ defs p.2 = some inst.ty

/-- A terminator passes its checks. -/
def TermOk (f : Function) (defs : Defs) : Terminator → Prop
  | .jump target => (f.block target).isSome
  | .branch cond t e => defs cond = some .bool ∧ (f.block t).isSome ∧ (f.block e).isSome
  | .ret none => f.retTy = none
  | .ret (some v) => ∃ t, f.retTy = some t ∧ defs v = some t

theorem checkInst_ok_iff {f : Function} {defs : Defs} {b : BlockId} {inst : Instruction} :
    checkInst f defs b inst = .ok () ↔ InstOk f defs b inst := by
  obtain ⟨id, ty, kind⟩ := inst
  cases kind with
  | constI64 n => simp [checkInst, InstOk]
  | constBool b => simp [checkInst, InstOk]
  | bin op lhs rhs => simp [checkInst, InstOk]
  | un op operand => simp [checkInst, InstOk]
  | call name args => simp [checkInst, InstOk]
  | phi incoming => simp [checkInst, InstOk]

theorem checkTerminator_ok_iff {f : Function} {defs : Defs} {b : BlockId} {t : Option Terminator} :
    checkTerminator f defs b t = .ok () ↔ ∃ t', t = some t' ∧ TermOk f defs t' := by
  cases t with
  | none => simp [checkTerminator]
  | some t =>
    simp only [Option.some.injEq, exists_eq_left']
    cases t with
    | jump target => cases h : f.block target <;> simp [checkTerminator, TermOk, h]
    | branch cond t e =>
      cases ht : f.block t <;> cases he : f.block e <;>
        simp [checkTerminator, TermOk, ht, he]
    | ret value => cases value <;> cases hr : f.retTy <;> simp [checkTerminator, TermOk, hr]

theorem checkBlock_ok_iff {f : Function} {defs : Defs} {b : BasicBlock} :
    checkBlock f defs b = .ok () ↔
      (∀ i ∈ b.instructions, InstOk f defs b.id i) ∧
        ∃ t, b.terminator = some t ∧ TermOk f defs t := by
  simp only [checkBlock, failIf_eq_ok, seq_eq_ok, forM_eq_ok, checkInst_ok_iff,
    checkTerminator_ok_iff]
  constructor
  · rintro ⟨-, hi, ht⟩
    exact ⟨hi, ht⟩
  · rintro ⟨hi, t, ht, hok⟩
    exact ⟨fun h => by simp [ht] at h, hi, t, ht, hok⟩

theorem checkDistinct_ok_iff {func : String} {seen : List BlockId} {bs : List BasicBlock} :
    checkDistinct func seen bs = .ok () ↔
      (bs.map (·.id)).Nodup ∧ ∀ b ∈ bs, b.id ∉ seen := by
  induction bs generalizing seen with
  | nil => simp [checkDistinct]
  | cons b bs ih =>
    by_cases h : b.id ∈ seen
    · simp [checkDistinct, h]
    · simp only [checkDistinct, if_neg h, ih, List.map_cons, List.nodup_cons, List.mem_map,
        List.mem_cons, forall_eq_or_imp, not_or, not_exists, not_and]
      constructor
      · rintro ⟨hnd, hs⟩
        exact ⟨⟨fun c hc he => (hs c hc).1 he, hnd⟩, h, fun c hc => (hs c hc).2⟩
      · rintro ⟨⟨hne, hnd⟩, -, hs⟩
        exact ⟨hnd, fun c hc => ⟨hne c hc, hs c hc⟩⟩

/-- What `validateFunction` establishes. -/
structure Validated (f : Function) (defs : Defs) : Prop where
  /-- The entry block exists. -/
  entry : (f.block f.entry).isSome
  /-- Block ids are distinct. -/
  nodup : (f.blocks.map (·.id)).Nodup
  /-- `defs` is the definition map: value ids are distinct. -/
  collect : collectDefinitions f = .ok defs
  insts : ∀ b ∈ f.blocks, ∀ i ∈ b.instructions, InstOk f defs b.id i
  term : ∀ b ∈ f.blocks, ∃ t, b.terminator = some t ∧ TermOk f defs t

theorem validateFunction_ok_iff {f : Function} :
    validateFunction f = .ok () ↔ ∃ defs, Validated f defs := by
  simp only [validateFunction, failIf_eq_ok, seq_eq_ok, checkDistinct_ok_iff]
  simp only [bind_eq_ok, forM_eq_ok, checkBlock_ok_iff]
  constructor
  · rintro ⟨hentry, ⟨hnd, -⟩, defs, hdefs, hblocks⟩
    exact ⟨defs, by simpa [Option.isSome_iff_ne_none] using hentry, hnd, hdefs, fun b hb => (hblocks b hb).1,
      fun b hb => (hblocks b hb).2⟩
  · rintro ⟨defs, hv⟩
    exact ⟨by simpa [Option.isSome_iff_ne_none] using hv.entry, ⟨hv.nodup, by simp⟩, defs, hv.collect,
      fun b hb => ⟨hv.insts b hb, hv.term b hb⟩⟩

namespace Validated

variable {f : Function} {defs : Defs} (hv : Validated f defs)
include hv

/-- Every successor of a block of an accepted function resolves. -/
theorem succ_isSome {b : BasicBlock} (hb : b ∈ f.blocks) {s : BlockId} (hs : s ∈ b.successors) :
    (f.block s).isSome := by
  obtain ⟨t, ht, hok⟩ := hv.term b hb
  rw [BasicBlock.successors, ht] at hs
  cases t with
  | jump target =>
    obtain rfl : s = target := by simpa [Terminator.successors] using hs
    exact hok
  | branch cond t e =>
    obtain rfl | rfl : s = t ∨ s = e := by simpa [Terminator.successors] using hs
    · exact hok.2.1
    · exact hok.2.2
  | ret value => simp [Terminator.successors] at hs

end Validated

/-! ### What the module pass establishes -/

/-- The `Call` sites of a function agree with the signatures of the functions they name. -/
def CallOk (M : Module) (defs : Defs) (inst : Instruction) : Prop :=
  ∀ callee args, inst.kind = .call callee args →
    ∃ g t, M.function callee = some g ∧ args.length = g.params.length ∧
      (∀ p ∈ args.zip g.params, defs p.1 = some p.2.2) ∧ g.retTy = some t ∧ inst.ty = t

theorem checkCall_ok_iff {M : Module} {f : Function} {b : BlockId} {inst : Instruction} :
    checkCall M f b inst = .ok () ↔ CallOk M (defsByFunc M f.name) inst := by
  obtain ⟨id, ty, kind⟩ := inst
  cases kind with
  | call callee args =>
    cases hg : M.function callee with
    | none => simp [checkCall, CallOk, hg]
    | some g =>
      simp only [checkCall, CallOk, hg, failIf_eq_ok, seq_eq_ok, forM_eq_ok,
        checkOperand_eq_ok, InstKind.call.injEq]
      cases hr : g.retTy with
      | none =>
        simp only [reduceCtorEq, and_false, false_iff, not_forall]
        refine ⟨callee, args, ⟨rfl, rfl⟩, ?_⟩
        rintro ⟨g', t, hg', -, -, ht, -⟩
        obtain rfl : g = g' := by simpa [hg] using hg'
        simp [hr] at ht
      | some t =>
        simp only [checkInstTy_eq_ok]
        constructor
        · rintro ⟨hlen, hargs, hty⟩ c a ⟨rfl, rfl⟩
          exact ⟨g, t, hg, (not_not.mp hlen).symm, hargs, hr, hty⟩
        · intro h
          obtain ⟨g', t', hg', hlen, hargs, ht', hty⟩ := h callee args ⟨rfl, rfl⟩
          obtain rfl : g = g' := by simpa [hg] using hg'
          obtain rfl : t = t' := by simpa [hr] using ht'
          exact ⟨not_not.mpr hlen.symm, hargs, hty⟩
  | _ => simp [checkCall, CallOk]

theorem validateModule_ok_iff {M : Module} :
    validateModule M = .ok () ↔
      (∀ f ∈ M.functions, validateFunction f = .ok ()) ∧
        ∀ f ∈ M.functions, ∀ b ∈ f.blocks, ∀ i ∈ b.instructions,
          CallOk M (defsByFunc M f.name) i := by
  simp only [validateModule, seq_eq_ok, forM_eq_ok, checkCall_ok_iff]

/-- Under distinct names `defs_by_func` holds every function's own definitions. -/
theorem defsByFunc_eq {M : Module} (hnd : (M.functions.map (·.name)).Nodup) {f : Function}
    (hf : f ∈ M.functions) {defs : Defs} (hd : collectDefinitions f = .ok defs) :
    defsByFunc M f.name = defs := by
  have hsome : (M.functions.reverse.find? fun g => g.name == f.name).isSome := by
    simp only [List.find?_isSome, List.mem_reverse, beq_iff_eq]
    exact ⟨f, hf, rfl⟩
  obtain ⟨g, hg⟩ := Option.isSome_iff_exists.mp hsome
  have hgm : g ∈ M.functions := List.mem_reverse.mp (List.mem_of_find?_eq_some hg)
  have hgn : g.name = f.name := by simpa using List.find?_some hg
  obtain rfl : g = f := List.inj_on_of_nodup_map hnd hgm hf hgn
  simp [defsByFunc, hg, hd, Except.toOption]

end Ir
end Chakobsa
