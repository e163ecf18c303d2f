import Chakobsa.Codegen.Liveness
import Mathlib.Algebra.Group.Nat.Defs
import Mathlib.Data.List.Sort

/-!
# Register allocation

`crates/codegen/src/regalloc.rs`: greedy colouring over the block-granularity interference
relation, parameters pre-coloured to their positional register, everything that finds no colour
spilled to the next 8-byte address from the base on.
-/

namespace Chakobsa
namespace Codegen

open Ir

/-- Holds zero for the whole run. -/
def ZERO_REG : ℕ := 30

/-- Holds a function's return value. -/
def RET_REG : ℕ := 31

/-- Reloads the first spilled operand, or stages a spilled result. -/
def SCRATCH_1 : ℕ := 29

/-- Reloads the second spilled operand. -/
def SCRATCH_2 : ℕ := 28

/-- The software stack pointer. -/
def STACK_PTR : ℕ := 27

/-- The registers the allocator may use at all are those below this one. -/
def NUM_GP_REGS : ℕ := 27

/-- A register for some values, a memory address for the others. `spills` lists the spilled
values in the order in which they were given their address. -/
structure Allocation where
  registers : ValueId → Option ℕ
  spills : List (ValueId × ℕ)

/-- `spills.get(&v)`. -/
def Allocation.spillOf (alloc : Allocation) (v : ValueId) : Option ℕ :=
  (alloc.spills.find? fun p => p.1 == v).map Prod.snd

/-- `interferes[v]`: the values live in some block together with `v`. -/
def interferes (f : Function) (within : BlockId → ValueSet) (v : ValueId) : ValueSet :=
  f.blocks.foldl (fun acc b =>
    if v ∈ within b.id then acc ∪ (within b.id).filter (· ≠ v) else acc) []

/-- The parameters' registers: parameter `i` is in register `i`. -/
def paramRegisters (f : Function) : ValueId → Option ℕ :=
  fun v => if v < f.params.length then some v else none

/-- Every value that is not a parameter, in ascending order. -/
def others (f : Function) : List ValueId :=
  (((List.range f.params.length ++ f.insts.map (·.id)).dedup).filter
    fun v => (paramRegisters f v).isNone).insertionSort (· ≤ ·)

/-- The register chosen for `v`: the first one from `reserved` on that no coloured neighbour
has. -/
def chooseRegister (reserved : ℕ) (neighbours : ValueSet) (registers : ValueId → Option ℕ) :
    Option ℕ :=
  (List.range' reserved (NUM_GP_REGS - reserved)).find? fun r =>
    neighbours.all fun n => registers n ≠ some r

/-- Colour one value, or spill it to the address `base + 8 * spills.len()`. -/
def allocateValue (reserved base : ℕ) (neighbours : ValueId → ValueSet) (alloc : Allocation)
    (v : ValueId) : Allocation :=
  match chooseRegister reserved (neighbours v) alloc.registers with
  | some r => { alloc with registers := fun w => if w = v then some r else alloc.registers w }
  | none => { alloc with spills := alloc.spills ++ [(v, base + 8 * alloc.spills.length)] }

/-- `allocate` up to its colouring loop, which is given the interference relation. -/
def withInterference {α : Type} (f : Function) (loop : (ValueId → ValueSet) → CodegenM α) :
    CodegenM α := do
  if f.params.length > NUM_GP_REGS then
    Comp.fail (.regAlloc (.tooManyParameters f.name f.params.length NUM_GP_REGS))
  else
    let l ← analyze f
    -- the interference relation is built from the live set of every block
    let live ← f.blocks.mapM fun b => do return (b.id, ← liveWithinBlock f b.id l)
    let within : BlockId → ValueSet := fun b => ((live.find? fun p => p.1 == b).map Prod.snd).getD []
    loop (interferes f within)

/-- `allocate`, with addresses that are natural numbers: the bases of `compile_module` lie below 2^19,
where `allocate64` does the same until 2^60 values have been spilled (`allocate64_eq`). -/
def allocate (f : Function) (spillBase reserved : ℕ) : CodegenM Allocation :=
  withInterference f fun neighbours =>
    return (others f).foldl (allocateValue reserved spillBase neighbours) ⟨paramRegisters f, []⟩

/-! ### Addresses of 64 bits -/

/-- `next_spill_addr += 8`, the address being a `u64`. -/
def bumpSpillAddr (next : ℕ) : CodegenM ℕ :=
  Comp.expect .spillAddrOverflow (if next + 8 < 2 ^ 64 then some (next + 8) else none)

/-- Colour one value, or spill it to the next address. -/
def allocateValue64 (reserved : ℕ) (neighbours : ValueId → ValueSet) (state : Allocation × ℕ)
    (v : ValueId) : CodegenM (Allocation × ℕ) :=
  let (alloc, next) := state
  match chooseRegister reserved (neighbours v) alloc.registers with
  | some r =>
    .ok ({ alloc with registers := fun w => if w = v then some r else alloc.registers w }, next)
  | none => do
    let next' ← bumpSpillAddr next
    return ({ alloc with spills := alloc.spills ++ [(v, next)] }, next')

/-- `allocate` for any base below 2^64: the address of the next spill slot is a `u64`. -/
def allocate64 (f : Function) (spillBase reserved : ℕ) : CodegenM Allocation :=
  withInterference f fun neighbours => do
    let (alloc, _) ← (others f).foldlM (allocateValue64 reserved neighbours)
      (⟨paramRegisters f, []⟩, spillBase)
    return alloc

end Codegen
end Chakobsa
