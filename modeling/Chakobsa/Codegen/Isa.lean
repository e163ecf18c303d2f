import Chakobsa.Ir.Syntax
import Mathlib.Algebra.Group.Int.Defs
import Chakobsa.Lib.Fault

/-!
# The instructions the code generator emits

mentat's `isa` crate as `crates/codegen` uses it. `Instruction::new(op, a, b, c, imm)` takes
three `u8` register fields and an `i32` immediate; which of the fields an opcode reads is fixed
by the machine (`Chakobsa.Codegen.Machine`). A block ends in its only control instruction, and a
program is a list of blocks whose positions are the only addresses of code.

Register fields and block positions are natural numbers here, the immediate an integer. The code
generator checks that data immediates fit in an `i32`, a driver converts its arguments (`asI32`);
block positions are converted without a check, and no program held in memory has `2 ^ 31` blocks.
-/

namespace Chakobsa
namespace Codegen

inductive Opcode where
  | loadI | mov
  | add | sub | mul | div | mod
  | cmpEq | cmpNe | cmpLt | cmpLe | cmpGt | cmpGe
  | and | or
  | load | store
  | jmp | jz | call | ret | halt
  deriving DecidableEq, Repr

/-- `isa::Instruction`. -/
structure Instr where
  op : Opcode
  a : ℕ
  b : ℕ
  c : ℕ
  imm : ℤ
  deriving DecidableEq, Repr

/-- `v as i32`. -/
def asI32 (v : ℤ) : ℤ := (BitVec.ofInt 32 v).toInt

/-- A number that fits is what it was. -/
theorem asI32_eq {v : ℤ} (hlo : -2 ^ 31 ≤ v) (hhi : v < 2 ^ 31) : asI32 v = v := by
  rw [asI32, BitVec.toInt_ofInt]
  exact Int.bmod_eq_of_le_mul_two (by omega) (by omega)

/-- `isa::Block`. -/
structure Block where
  label : String
  instructions : List Instr
  deriving DecidableEq, Repr

/-- `isa::Program`. -/
structure Program where
  blocks : List Block
  entry : ℕ
  deriving DecidableEq, Repr

/-- `RegAllocError`. -/
inductive RegAllocError where
  | tooManyParameters (func : String) (count max : ℕ)
  deriving DecidableEq, Repr

/-- `CodegenError`. -/
inductive CodegenError where
  | regAlloc (e : RegAllocError)
  | outOfSpillSpace (func : String)
  | constantTooLarge (func : String) (value : Ir.I64)
  | unknownCallee (callee : String)
  | tooManyFunctionsForMemoryLayout (count : ℕ)
  deriving DecidableEq, Repr

/-- The places where the code generator panics. -/
inductive CodegenPanic where
  /-- "block id from this function" -/
  | blockFromFunction
  /-- `live_in[succ]` for a successor that is no block -/
  | liveInMissing
  /-- `alloc.spills[&v]` for a value without a location -/
  | spillMissing
  /-- "branch target exists" -/
  | branchTarget
  /-- "phi covers every actual predecessor" -/
  | phiUncovered
  /-- "every block has a terminator" -/
  | terminatorMissing
  /-- `local_index[&b]` for an id that is no block -/
  | localIndexMissing
  /-- `function_entry[owner]` -/
  | functionEntryMissing
  /-- the `u64` addition `next_spill_addr += 8` -/
  | spillAddrOverflow
  deriving DecidableEq, Repr

/-- A computation of the code generator. -/
abbrev CodegenM (α : Type) : Type := Comp CodegenError CodegenPanic α

end Codegen
end Chakobsa
