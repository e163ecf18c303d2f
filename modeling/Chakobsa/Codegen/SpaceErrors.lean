import Chakobsa.Codegen.LowerTotal

/-!
# The errors of the lowering

`lower_function` ends in two errors only: a constant that does not fit in 32 bits, and a lack of space
for spill slots and staging slots. So where the constants fit, an error of the lowering is
`OutOfSpillSpace` (`compileFunction_outOfSpace`).
-/

namespace Chakobsa
namespace Codegen

open Ir ExceptLemmas Chakobsa.Comp

/-- Of the typed errors only `OutOfSpillSpace` for the function. -/
def OnlySpace (name : String) : Fault CodegenError CodegenPanic → Prop
  | .err e => e = .outOfSpillSpace name
  | _ => True

/-- The instruction is no constant that does not fit in an immediate. -/
def ConstFits (i : Instruction) : Prop :=
  ∀ n, i.kind = .constI64 n → -2 ^ 31 ≤ n.toInt ∧ n.toInt < 2 ^ 31

section Lowering

variable {f : Function} {alloc : Allocation} {liveness : Liveness} {regionEnd : ℕ}

theorem locOf_space (v : ValueId) : (locOf alloc v).Faults (OnlySpace f.name) := by
  unfold locOf
  split
  · exact .ok
  · exact (Faults.expect fun _ => trivial).bind fun _ _ => .ok

theorem addrI32_space (addr : ℕ) : (addrI32 f addr).Faults (OnlySpace f.name) := by
  unfold addrI32
  split
  · exact .ok
  · exact .error rfl

theorem readInto_space (v : ValueId) (scratch : ℕ) :
    (readInto f alloc v scratch).Faults (OnlySpace f.name) := by
  refine (locOf_space v).bind fun l _ => ?_
  cases l with
  | reg r => exact .ok
  | spill addr => exact (addrI32_space addr).bind fun _ _ => .ok

theorem writeTarget_space (v : ValueId) (scratch : ℕ) :
    (writeTarget alloc v scratch).Faults (OnlySpace f.name) := by
  refine (locOf_space v).bind fun l _ => ?_
  cases l <;> exact .ok

theorem finishWrite_space (v : ValueId) (r : ℕ) :
    (finishWrite f alloc v r).Faults (OnlySpace f.name) := by
  refine (locOf_space v).bind fun l _ => ?_
  cases l with
  | reg r => exact .ok
  | spill addr => exact (addrI32_space addr).bind fun _ _ => .ok

theorem stageSources_space (base i : ℕ) (moves : List (Loc × Loc)) :
    (stageSources f base i moves).Faults (OnlySpace f.name) := by
  induction moves generalizing i with
  | nil => exact .ok
  | cons p moves ih =>
    obtain ⟨src, dst⟩ := p
    cases src with
    | reg r => exact (addrI32_space _).bind fun _ _ => (ih (i + 1)).bind fun _ _ => .ok
    | spill addr =>
      exact (addrI32_space addr).bind fun _ _ => (addrI32_space _).bind fun _ _ =>
        (ih (i + 1)).bind fun _ _ => .ok

theorem unstageDests_space (base i : ℕ) (moves : List (Loc × Loc)) :
    (unstageDests f base i moves).Faults (OnlySpace f.name) := by
  induction moves generalizing i with
  | nil => exact .ok
  | cons p moves ih =>
    obtain ⟨src, dst⟩ := p
    cases dst with
    | reg r => exact (addrI32_space _).bind fun _ _ => (ih (i + 1)).bind fun _ _ => .ok
    | spill addr =>
      exact (addrI32_space _).bind fun _ _ => (addrI32_space addr).bind fun _ _ =>
        (ih (i + 1)).bind fun _ _ => .ok

theorem parallelMove_space (temp : Temps) (moves : List (Loc × Loc)) :
    (parallelMove f regionEnd temp moves).Faults (OnlySpace f.name) := by
  unfold parallelMove
  split
  · exact .ok
  · refine .bind ?_ fun _ _ => (stageSources_space _ _ _).bind fun _ _ =>
      (unstageDests_space _ _ _).bind fun _ _ => .ok
    unfold allocTempSlots
    split
    · exact .error rfl
    · exact .ok

theorem phiMoves_space (from' : BlockId) (insts : List Instruction) :
    (phiMoves alloc from' insts).Faults (OnlySpace f.name) := by
  induction insts with
  | nil => exact .ok
  | cons i insts ih =>
    unfold phiMoves
    split
    · exact (Faults.expect fun _ => trivial).bind fun _ _ => (locOf_space _).bind fun _ _ =>
        (locOf_space _).bind fun _ _ => ih.bind fun _ _ => .ok
    · exact ih

theorem insertPhiCopies_space (temp : Temps) (from' target : BlockId) :
    (insertPhiCopies f alloc regionEnd temp from' target).Faults (OnlySpace f.name) :=
  (Faults.expect fun _ => trivial).bind fun _ _ => (phiMoves_space _ _).bind fun _ _ =>
    parallelMove_space _ _

/-! ### Calls -/

theorem liveWithinBlock_space (b : BlockId) :
    (liveWithinBlock f b liveness).Faults (OnlySpace f.name) :=
  ((Faults.expect fun _ => trivial).bind fun _ _ => .ok).bind fun _ _ => .ok

theorem saveRegs_space (block : BlockId) (self : ValueId) :
    (saveRegs f alloc liveness block self).Faults (OnlySpace f.name) :=
  (liveWithinBlock_space block).bind fun _ _ =>
    (Faults.mapM fun v _ => (locOf_space v).bind fun _ _ => .ok).bind fun _ _ => .ok

theorem saveCode_space (i : ℕ) (saved : List (ValueId × ℕ)) :
    (saveCode f i saved).Faults (OnlySpace f.name) := by
  induction saved generalizing i with
  | nil => exact .ok
  | cons p saved ih => exact (addrI32_space _).bind fun _ _ => (ih (i + 1)).bind fun _ _ => .ok

theorem restoreCode_space (i : ℕ) (saved : List (ValueId × ℕ)) :
    (restoreCode f i saved).Faults (OnlySpace f.name) := by
  induction saved generalizing i with
  | nil => exact .ok
  | cons p saved ih => exact (addrI32_space _).bind fun _ _ => (ih (i + 1)).bind fun _ _ => .ok

theorem bumpStack_space (op : Opcode) (bytes : ℕ) :
    (bumpStack f op bytes).Faults (OnlySpace f.name) := by
  unfold bumpStack
  split
  · exact (addrI32_space _).bind fun _ _ => .ok
  · exact .ok

theorem argMoves_space (i : ℕ) (args : List ValueId) :
    (argMoves alloc i args).Faults (OnlySpace f.name) := by
  induction args generalizing i with
  | nil => exact .ok
  | cons a args ih => exact (locOf_space a).bind fun _ _ => (ih (i + 1)).bind fun _ _ => .ok

theorem callPrologue_space (temp : Temps) (saved : List (ValueId × ℕ)) (args : List ValueId) :
    (callPrologue f alloc regionEnd temp saved args).Faults (OnlySpace f.name) :=
  (saveCode_space 0 saved).bind fun _ _ => (bumpStack_space _ _).bind fun _ _ =>
    (argMoves_space 0 args).bind fun _ _ => (parallelMove_space _ _).bind fun _ _ => .ok

theorem callEpilogue_space (saved : List (ValueId × ℕ)) (id : ValueId) :
    (callEpilogue f alloc saved id).Faults (OnlySpace f.name) :=
  (bumpStack_space _ _).bind fun _ _ => (restoreCode_space 0 saved).bind fun _ _ =>
    (writeTarget_space id _).bind fun _ _ => (finishWrite_space id _).bind fun _ _ => .ok

/-! ### Instructions and blocks -/

theorem lowerInst_space {i : Instruction} (hi : ConstFits i) :
    (lowerInst f alloc i).Faults (OnlySpace f.name) := by
  have hwrite : ∀ g : ℕ → List Instr → List Instr, Faults (OnlySpace f.name) (do
      let dst ← writeTarget alloc i.id SCRATCH_1
      return g dst (← finishWrite f alloc i.id dst)) := fun g =>
    (writeTarget_space i.id _).bind fun _ _ => (finishWrite_space i.id _).bind fun _ _ => .ok
  unfold lowerInst
  split
  · exact .ok
  · exact .ok
  · next n hk =>
    obtain ⟨hlo, hhi⟩ := hi n hk
    rw [if_neg (by omega)]
    exact hwrite fun dst code => _ :: code
  · exact hwrite fun dst code => _ :: code
  · exact (readInto_space _ _).bind fun _ _ => (readInto_space _ _).bind fun _ _ =>
      (writeTarget_space i.id _).bind fun _ _ => (finishWrite_space i.id _).bind fun _ _ => .ok
  · exact (readInto_space _ _).bind fun _ _ => (writeTarget_space i.id _).bind fun _ _ =>
      (finishWrite_space i.id _).bind fun _ _ => .ok
  · exact (readInto_space _ _).bind fun _ _ => (writeTarget_space i.id _).bind fun _ _ =>
      (finishWrite_space i.id _).bind fun _ _ => .ok

theorem lowerStep_space {i : Instruction} (hi : ConstFits i) (block : BlockId) (st : LowerState) :
    (lowerStep f alloc liveness regionEnd block st i).Faults (OnlySpace f.name) := by
  unfold lowerStep
  split
  · exact (saveRegs_space block i.id).bind fun _ _ => (callPrologue_space _ _ _).bind fun _ _ =>
      (callEpilogue_space _ i.id).bind fun _ _ => .ok
  · exact (lowerInst_space hi).bind fun _ _ => .ok

theorem lowerTerm_space (block : BlockId) (st : LowerState) (term : Terminator) :
    (lowerTerm f alloc regionEnd block st term).Faults (OnlySpace f.name) := by
  cases term with
  | jump target => exact (insertPhiCopies_space _ _ _).bind fun _ _ => .ok
  | branch cond t e =>
    exact (readInto_space cond _).bind fun _ _ => (insertPhiCopies_space _ _ _).bind fun _ _ =>
      (insertPhiCopies_space _ _ _).bind fun _ _ => .ok
  | ret o =>
    cases o with
    | none => exact .ok
    | some v => exact (readInto_space v _).bind fun _ _ => .ok

theorem lowerBlocks_space {bs : List BasicBlock} (h : ∀ b ∈ bs, ∀ i ∈ b.instructions, ConstFits i)
    (temp : Temps) : (lowerBlocks f alloc liveness regionEnd temp bs).Faults (OnlySpace f.name) := by
  induction bs generalizing temp with
  | nil => exact .ok
  | cons b bs ih =>
    refine .bind ?_ fun _ _ => (ih (fun c hc => h c (List.mem_cons_of_mem _ hc)) _).bind
      fun _ _ => .ok
    exact (Faults.foldlM (fun st i hi => lowerStep_space (h b List.mem_cons_self i hi) _ st) _).bind
      fun _ _ => (Faults.expect fun _ => trivial).bind fun _ _ => lowerTerm_space _ _ _

end Lowering

/-- An accepted function with few enough parameters and constants that fit is lowered, unless there is
no space for its slots. -/
theorem compileFunction_outOfSpace {f : Function} (hok : validateFunction f = .ok ())
    (hphis : PhisCover f) (hparams : f.params.length ≤ NUM_GP_REGS)
    (hconsts : ∀ i ∈ f.insts, ConstFits i) (reserved i : ℕ) :
    (∃ l, compileFunction reserved i f = .ok l) ∨
      compileFunction reserved i f = Comp.fail (.outOfSpillSpace f.name) := by
  obtain ⟨defs, hv⟩ := validateFunction_ok_iff.mp hok
  obtain ⟨alloc, halloc⟩ := allocate_valid hv hparams (i * FUNCTION_REGION_BYTES) reserved
  obtain ⟨l, hl, -⟩ := analyze_valid hv
  have hfaults : (compileFunction reserved i f).Faults (OnlySpace f.name) := by
    unfold compileFunction lowerFunction
    dsimp only
    rw [halloc, ok_bind, hl, ok_bind]
    exact (lowerBlocks_space (fun b hb i hi => hconsts i (mem_insts.mpr ⟨b, hb, hi⟩)) _).bind
      fun _ _ => .ok
  refine (compileFunction_graceful hv hphis reserved i).imp_right ?_
  rintro ⟨e, he⟩
  obtain rfl : e = .outOfSpillSpace f.name := hfaults _ he
  exact he

end Codegen
end Chakobsa
