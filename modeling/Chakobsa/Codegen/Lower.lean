import Chakobsa.Codegen.Regalloc
import Mathlib.Algebra.Group.Int.Defs
import Mathlib.Algebra.Group.Nat.Defs
import Mathlib.Data.List.Destutter

/-!
# Lowering one function

`crates/codegen/src/lower.rs`: one `ir::Function` becomes a list of pending blocks, whose
control-flow targets are still block ids of the function or names of callees. The three shapes a
plain instruction-by-instruction translation does not have:

* a `Branch` becomes a block ending in `Jz` to the else-target, followed by a thunk that jumps to
  the then-target;
* a block splits at every `Call`, saving the registers of the block's live values on the software
  stack before it and restoring them after it;
* call arguments and phis are moved by `parallelMove`, through staging slots in memory.

The source pushes instructions on the block under construction; here every piece of the
translation returns the instructions it pushes. The bump pointer `next_temp_addr` is passed along
in `Temps`, which also keeps the staging slots handed out so far: nothing reads that record, it is
there to speak about.
-/

namespace Chakobsa
namespace Codegen

open Ir

/-- Where a value lives. -/
inductive Loc where
  | reg (r : ℕ)
  | spill (addr : ℕ)
  deriving DecidableEq, Repr

/-- A control transfer whose target is not resolved yet. -/
inductive PendingTerm where
  | jmp (target : BlockId)
  /-- Jump to `target` if `condReg` is zero, otherwise fall through to the next block. -/
  | jz (condReg : ℕ) (target : BlockId)
  | call (callee : String)
  | ret
  deriving DecidableEq, Repr

structure PendingBlock where
  instructions : List Instr
  term : PendingTerm
  deriving DecidableEq, Repr

/-- The bump pointer of the staging slots, and the ranges handed out so far, each with its first
address and its number of slots. -/
structure Temps where
  next : ℕ
  taken : List (ℕ × ℕ)
  deriving DecidableEq, Repr

/-- `binop_opcode`. -/
def binopOpcode : BinOp → Opcode
  | .add => .add
  | .sub => .sub
  | .mul => .mul
  | .div => .div
  | .mod => .mod
  | .cmpEq => .cmpEq
  | .cmpNe => .cmpNe
  | .cmpLt => .cmpLt
  | .cmpLe => .cmpLe
  | .cmpGt => .cmpGt
  | .cmpGe => .cmpGe
  | .and => .and
  | .or => .or

section Lowerer

variable (f : Function) (alloc : Allocation) (liveness : Liveness) (regionEnd : ℕ)

/-- `loc_of`. -/
def locOf (v : ValueId) : CodegenM Loc :=
  match alloc.registers v with
  | some r => .ok (.reg r)
  | none => do return .spill (← Comp.expect .spillMissing (alloc.spillOf v))

/-- `addr_i32`: the address as an immediate, if it fits. -/
def addrI32 (addr : ℕ) : CodegenM ℤ :=
  if addr < 2 ^ 31 then .ok addr else Comp.fail (.outOfSpillSpace f.name)

/-- `read_into`: a register holding `v`, after reloading `v` into `scratch` if it is spilled. -/
def readInto (v : ValueId) (scratch : ℕ) : CodegenM (List Instr × ℕ) := do
  match ← locOf alloc v with
  | .reg r => return ([], r)
  | .spill addr => return ([⟨.load, scratch, ZERO_REG, 0, ← addrI32 f addr⟩], scratch)

/-- `write_target`: the register an instruction defining `v` writes. -/
def writeTarget (v : ValueId) (scratch : ℕ) : CodegenM ℕ := do
  match ← locOf alloc v with
  | .reg r => return r
  | .spill _ => return scratch

/-- `finish_write`: the store that completes a write to a spilled value. -/
def finishWrite (v : ValueId) (regUsed : ℕ) : CodegenM (List Instr) := do
  match ← locOf alloc v with
  | .reg _ => return []
  | .spill addr => return [⟨.store, ZERO_REG, regUsed, 0, ← addrI32 f addr⟩]

/-- `alloc_temp_slots`: the base of `count` fresh slots, and the bump pointer after them. -/
def allocTempSlots (temp : Temps) (count : ℕ) : CodegenM (ℕ × Temps) :=
  if temp.next + count * 8 > regionEnd then Comp.fail (.outOfSpillSpace f.name)
  else .ok (temp.next, ⟨temp.next + count * 8, temp.taken ++ [(temp.next, count)]⟩)

/-- The first loop of `parallel_move`: every source into its staging slot. -/
def stageSources (base : ℕ) : ℕ → List (Loc × Loc) → CodegenM (List Instr)
  | _, [] => .ok []
  | i, (src, _) :: rest => do
    let (load, reg) ← match src with
      | .reg r => pure ([], r)
      | .spill addr => do
        pure ([Instr.mk .load SCRATCH_1 ZERO_REG 0 (← addrI32 f addr)], SCRATCH_1)
    let store : Instr := ⟨.store, ZERO_REG, reg, 0, ← addrI32 f (base + i * 8)⟩
    return load ++ [store] ++ (← stageSources base (i + 1) rest)

/-- The second loop of `parallel_move`: every destination from its staging slot. -/
def unstageDests (base : ℕ) : ℕ → List (Loc × Loc) → CodegenM (List Instr)
  | _, [] => .ok []
  | i, (_, dst) :: rest => do
    let slot ← addrI32 f (base + i * 8)
    let code ← match dst with
      | .reg r => pure [Instr.mk .load r ZERO_REG 0 slot]
      | .spill addr => do
        pure [Instr.mk .load SCRATCH_1 ZERO_REG 0 slot,
          Instr.mk .store ZERO_REG SCRATCH_1 0 (← addrI32 f addr)]
    return code ++ (← unstageDests base (i + 1) rest)

/-- `parallel_move`. -/
def parallelMove (temp : Temps) (moves : List (Loc × Loc)) : CodegenM (List Instr × Temps) := do
  if moves = [] then return ([], temp)
  else
    let (base, temp) ← allocTempSlots f regionEnd temp moves.length
    let stage ← stageSources f base 0 moves
    let unstage ← unstageDests f base 0 moves
    return (stage ++ unstage, temp)

/-- The moves an edge from `from'` into a block with the given instructions has to make. -/
def phiMoves (from' : BlockId) : List Instruction → CodegenM (List (Loc × Loc))
  | [] => .ok []
  | inst :: rest =>
    match inst.kind with
    | .phi incoming => do
      let e ← Comp.expect .phiUncovered (incoming.find? fun p => p.1 == from')
      let move := (← locOf alloc e.2, ← locOf alloc inst.id)
      return move :: (← phiMoves from' rest)
    | _ => phiMoves from' rest

/-- `insert_phi_copies`. -/
def insertPhiCopies (temp : Temps) (from' target : BlockId) :
    CodegenM (List Instr × Temps) := do
  let target ← Comp.expect .branchTarget (f.block target)
  let moves ← phiMoves alloc from' target.instructions
  parallelMove f regionEnd temp moves

/-- The value and register of every register-allocated value live in the block, other than
`self`, in ascending value order. -/
def saveRegs (block : BlockId) (self : ValueId) : CodegenM (List (ValueId × ℕ)) := do
  let live ← liveWithinBlock f block liveness
  let locs ← (live.filter (· ≠ self)).mapM fun v => do return (v, ← locOf alloc v)
  let regs := locs.filterMap fun p => match p.2 with
    | .reg r => some (p.1, r)
    | .spill _ => none
  -- `dedup_by_key` drops an element with the value of the one before it
  return (regs.insertionSort fun p q => p.1 ≤ q.1).destutter fun p q => p.1 ≠ q.1

/-- The stores of the saved registers, from the stack pointer on. -/
def saveCode : ℕ → List (ValueId × ℕ) → CodegenM (List Instr)
  | _, [] => .ok []
  | i, (_, reg) :: rest => do
    let store : Instr := ⟨.store, STACK_PTR, reg, 0, ← addrI32 f (i * 8)⟩
    return store :: (← saveCode (i + 1) rest)

/-- The loads that restore them. -/
def restoreCode : ℕ → List (ValueId × ℕ) → CodegenM (List Instr)
  | _, [] => .ok []
  | i, (_, reg) :: rest => do
    let load : Instr := ⟨.load, reg, STACK_PTR, 0, ← addrI32 f (i * 8)⟩
    return load :: (← restoreCode (i + 1) rest)

/-- Move the stack pointer by a frame of `bytes` bytes, `op` being `add` or `sub`. -/
def bumpStack (op : Opcode) (bytes : ℕ) : CodegenM (List Instr) := do
  if bytes > 0 then
    return [⟨.loadI, SCRATCH_1, 0, 0, ← addrI32 f bytes⟩, ⟨op, STACK_PTR, STACK_PTR, SCRATCH_1, 0⟩]
  else return []

/-- The moves of the arguments into the argument registers. -/
def argMoves : ℕ → List ValueId → CodegenM (List (Loc × Loc))
  | _, [] => .ok []
  | i, a :: rest => do
    let loc ← locOf alloc a
    return (loc, .reg i) :: (← argMoves (i + 1) rest)

/-- The code of a `Call` before control leaves for the callee. -/
def callPrologue (temp : Temps) (saved : List (ValueId × ℕ)) (args : List ValueId) :
    CodegenM (List Instr × Temps) := do
  let save ← saveCode f 0 saved
  let push ← bumpStack f .add (saved.length * 8)
  let moves ← argMoves alloc 0 args
  let (move, temp) ← parallelMove f regionEnd temp moves
  return (save ++ push ++ move, temp)

/-- The code of a `Call` once control is back. -/
def callEpilogue (saved : List (ValueId × ℕ)) (id : ValueId) : CodegenM (List Instr) := do
  let pop ← bumpStack f .sub (saved.length * 8)
  let restore ← restoreCode f 0 saved
  let dst ← writeTarget alloc id SCRATCH_1
  let result : List Instr := if dst ≠ RET_REG then [⟨.mov, dst, RET_REG, 0, 0⟩] else []
  return pop ++ restore ++ result ++ (← finishWrite f alloc id dst)

/-- The code of an instruction other than `Call`. -/
def lowerInst (inst : Instruction) : CodegenM (List Instr) :=
  match inst.kind with
  | .phi _ | .call _ _ => .ok []
  | .constI64 n => do
    if n.toInt < -2 ^ 31 ∨ 2 ^ 31 ≤ n.toInt then Comp.fail (.constantTooLarge f.name n)
    else
      let dst ← writeTarget alloc inst.id SCRATCH_1
      return ⟨.loadI, dst, 0, 0, n.toInt⟩ :: (← finishWrite f alloc inst.id dst)
  | .constBool b => do
    let dst ← writeTarget alloc inst.id SCRATCH_1
    return ⟨.loadI, dst, 0, 0, if b then 1 else 0⟩ :: (← finishWrite f alloc inst.id dst)
  | .bin op lhs rhs => do
    let (loadA, ra) ← readInto f alloc lhs SCRATCH_1
    let (loadB, rb) ← readInto f alloc rhs SCRATCH_2
    let dst ← writeTarget alloc inst.id SCRATCH_1
    return loadA ++ loadB ++ ⟨binopOpcode op, dst, ra, rb, 0⟩ ::
      (← finishWrite f alloc inst.id dst)
  | .un .neg operand => do
    -- mentat has no negation: `0 - a`, from the register that holds zero
    let (loadA, ra) ← readInto f alloc operand SCRATCH_1
    let dst ← writeTarget alloc inst.id SCRATCH_1
    return loadA ++ ⟨.sub, dst, ZERO_REG, ra, 0⟩ :: (← finishWrite f alloc inst.id dst)
  | .un .not operand => do
    -- mentat's `Not` is bitwise; a boolean is `0` or `1`, so `not x` is `x == 0`
    let (loadA, ra) ← readInto f alloc operand SCRATCH_1
    let dst ← writeTarget alloc inst.id SCRATCH_1
    return loadA ++ ⟨.cmpEq, dst, ra, ZERO_REG, 0⟩ :: (← finishWrite f alloc inst.id dst)

/-- The blocks emitted so far for the block under construction, its open block, and the bump
pointer. -/
structure LowerState where
  pending : List PendingBlock
  cur : List Instr
  temp : Temps
  deriving DecidableEq, Repr

/-- One instruction of block `block`: a `Call` closes the open block, everything else extends
it. -/
def lowerStep (block : BlockId) (st : LowerState) (inst : Instruction) : CodegenM LowerState :=
  match inst.kind with
  | .call callee args => do
    let saved ← saveRegs f alloc liveness block inst.id
    let (before, temp) ← callPrologue f alloc regionEnd st.temp saved args
    let after ← callEpilogue f alloc saved inst.id
    return ⟨st.pending ++ [⟨st.cur ++ before, .call callee⟩], after, temp⟩
  | _ => do return { st with cur := st.cur ++ (← lowerInst f alloc inst) }

/-- The pending blocks a terminator closes the block with. -/
def lowerTerm (block : BlockId) (st : LowerState) (term : Terminator) :
    CodegenM (List PendingBlock × Temps) :=
  match term with
  | .jump target => do
    let (copies, temp) ← insertPhiCopies f alloc regionEnd st.temp block target
    return (st.pending ++ [⟨st.cur ++ copies, .jmp target⟩], temp)
  | .branch cond thenBlock elseBlock => do
    let (load, condReg) ← readInto f alloc cond SCRATCH_1
    let (elseCopies, temp) ← insertPhiCopies f alloc regionEnd st.temp block elseBlock
    let (thenCopies, temp) ← insertPhiCopies f alloc regionEnd temp block thenBlock
    return (st.pending ++ [⟨st.cur ++ load ++ elseCopies, .jz condReg elseBlock⟩,
      ⟨thenCopies, .jmp thenBlock⟩], temp)
  | .ret none => .ok (st.pending ++ [⟨st.cur, .ret⟩], st.temp)
  | .ret (some v) => do
    let (load, r) ← readInto f alloc v SCRATCH_1
    let move : List Instr := if r ≠ RET_REG then [⟨.mov, RET_REG, r, 0, 0⟩] else []
    return (st.pending ++ [⟨st.cur ++ load ++ move, .ret⟩], st.temp)

/-- All pending blocks of one IR block. -/
def lowerBlock (temp : Temps) (b : BasicBlock) : CodegenM (List PendingBlock × Temps) := do
  let st ← b.instructions.foldlM (lowerStep f alloc liveness regionEnd b.id) ⟨[], [], temp⟩
  let term ← Comp.expect .terminatorMissing b.terminator
  lowerTerm f alloc regionEnd b.id st term

/-- The pending blocks of a list of IR blocks, each with the id it belongs to. -/
def lowerBlocks : Temps → List BasicBlock → CodegenM (List (BlockId × List PendingBlock) × Temps)
  | temp, [] => .ok ([], temp)
  | temp, b :: rest => do
    let (pending, temp) ← lowerBlock f alloc liveness regionEnd temp b
    let (lowered, temp) ← lowerBlocks temp rest
    return ((b.id, pending) :: lowered, temp)

end Lowerer

/-- The pending blocks of a function, grouped by the IR block they come from, with its
allocation and the staging slots handed out. -/
structure Lowered where
  blocks : List (BlockId × List PendingBlock)
  alloc : Allocation
  temps : Temps

/-- All pending blocks in order. -/
def Lowered.pending (l : Lowered) : List PendingBlock := l.blocks.flatMap Prod.snd

/-- `local_index`: the position of the first pending block of an IR block. -/
def localIndex : List (BlockId × List PendingBlock) → BlockId → Option ℕ
  | [], _ => none
  | (id, ps) :: rest, b =>
    -- a later block of the same id overwrites the entry
    match localIndex rest b with
    | some i => some (ps.length + i)
    | none => if id = b then some 0 else none

/-- `lower_function`. -/
def lowerFunction (f : Function) (alloc : Allocation) (regionBase regionEnd : ℕ) :
    CodegenM Lowered := do
  let liveness ← analyze f
  let temps : Temps := ⟨regionBase + alloc.spills.length * 8, []⟩
  let (blocks, temps) ← lowerBlocks f alloc liveness regionEnd temps f.blocks
  return ⟨blocks, alloc, temps⟩

end Codegen
end Chakobsa
