import Chakobsa.Codegen.Lower

/-!
# Compiling a module

`compile_module` of `crates/codegen/src/lib.rs`: lower every function with its own memory region,
lay the pending blocks of all functions out one after the other behind the block that sets up the
stack pointer, and resolve block ids and callee names to positions in that list.
-/

namespace Chakobsa
namespace Codegen

open Ir

/-- The memory each function has for its spill slots and staging slots. -/
def FUNCTION_REGION_BYTES : ℕ := 4096

/-- The bottom of the software call stack. -/
def STACK_BASE : ℕ := 0x80000

/-- The result of `compile_module`. -/
structure CompiledModule where
  program : Program
  functionEntry : List (String × ℕ)

/-- `map.get(name)` of a map kept as a list, the last entry for a name counting. -/
def lookupLast {α : Type} (m : List (String × α)) (name : String) : Option α :=
  (m.reverse.find? fun p => p.1 == name).map Prod.snd

/-- `function_entry` of the result. -/
def CompiledModule.entryOf (c : CompiledModule) (name : String) : Option ℕ :=
  lookupLast c.functionEntry name

/-- `reserved_arg_registers`: the largest parameter count, as a `u8`. -/
def reservedArgRegisters (M : Module) : ℕ :=
  (M.functions.map fun f => f.params.length).foldl max 0 % 256

/-- Lower function number `i`. -/
def compileFunction (reserved i : ℕ) (f : Function) : CodegenM Lowered := do
  let regionBase := i * FUNCTION_REGION_BYTES
  let regionEnd := regionBase + FUNCTION_REGION_BYTES
  let alloc ← allocate f regionBase reserved
  lowerFunction f alloc regionBase regionEnd

/-- Pass 1: every function lowered on its own, `i` counting them. -/
def lowerAll (reserved : ℕ) : ℕ → List Function → CodegenM (List (String × Lowered))
  | _, [] => .ok []
  | i, f :: rest => do
    let l ← compileFunction reserved i f
    return (f.name, l) :: (← lowerAll reserved (i + 1) rest)

/-- `function_entry` after pass 1: the position of each function's first pending block. -/
def entriesFrom : ℕ → List (String × Lowered) → List (String × ℕ)
  | _, [] => []
  | base, (name, l) :: rest => (name, base) :: entriesFrom (base + l.pending.length) rest

/-- Pass 2 for one terminator: the instruction with the resolved target. The positions are
shifted by one for the block in front. -/
def resolveTerm (entries : List (String × ℕ)) (owner : String) (local' : BlockId → Option ℕ) :
    PendingTerm → CodegenM Instr
  | .jmp target => do
    let base ← Comp.expect .functionEntryMissing (lookupLast entries owner)
    let idx ← Comp.expect .localIndexMissing (local' target)
    return ⟨.jmp, 0, 0, 0, ((1 + base + idx : ℕ) : ℤ)⟩
  | .jz condReg target => do
    let base ← Comp.expect .functionEntryMissing (lookupLast entries owner)
    let idx ← Comp.expect .localIndexMissing (local' target)
    return ⟨.jz, 0, condReg, 0, ((1 + base + idx : ℕ) : ℤ)⟩
  | .call callee =>
    match lookupLast entries callee with
    | none => Comp.fail (.unknownCallee callee)
    | some base => return ⟨.call, 0, 0, 0, ((1 + base : ℕ) : ℤ)⟩
  | .ret => return ⟨.ret, 0, 0, 0, 0⟩

/-- Pass 2 for one pending block, at position `i` of all of them. -/
def resolveBlock (entries : List (String × ℕ)) (owner : String)
    (local' : BlockId → Option ℕ) (i : ℕ) (p : PendingBlock) : CodegenM Block := do
  let terminator ← resolveTerm entries owner local' p.term
  return ⟨owner ++ "::" ++ toString i, p.instructions ++ [terminator]⟩

/-- Pass 2: resolve the pending blocks in order, each with its owner. -/
def resolveAll (lowered : List (String × Lowered)) (entries : List (String × ℕ)) :
    ℕ → List (String × PendingBlock) → CodegenM (List Block)
  | _, [] => .ok []
  | i, (owner, p) :: rest => do
    let blocks := ((lookupLast lowered owner).map Lowered.blocks).getD []
    let b ← resolveBlock entries owner (localIndex blocks) i p
    return b :: (← resolveAll lowered entries (i + 1) rest)

/-- The block in front of all others: set the stack pointer, jump to the first function. -/
def initBlock (moduleEntry : ℕ) : Block :=
  ⟨"init_stack_ptr", [⟨.loadI, STACK_PTR, 0, 0, STACK_BASE⟩, ⟨.jmp, 0, 0, 0, moduleEntry⟩]⟩

/-- `compile_module`. -/
def compileModule (M : Module) : CodegenM CompiledModule := do
  if M.functions.length * FUNCTION_REGION_BYTES > STACK_BASE then
    Comp.fail (.tooManyFunctionsForMemoryLayout M.functions.length)
  else
    let lowered ← lowerAll (reservedArgRegisters M) 0 M.functions
    let entries := entriesFrom 0 lowered
    let owned := lowered.flatMap fun p => p.2.pending.map fun b => (p.1, b)
    let blocks ← resolveAll lowered entries 0 owned
    let functionEntry := entries.map fun p => (p.1, p.2 + 1)
    let moduleEntry ← match M.functions with
      | [] => pure 1
      | f :: _ => Comp.expect .functionEntryMissing (lookupLast functionEntry f.name)
    return ⟨⟨initBlock moduleEntry :: blocks, 0⟩, functionEntry⟩

end Codegen
end Chakobsa
