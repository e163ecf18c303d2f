import Mathlib.Algebra.Group.Nat.Defs
import Chakobsa.Ir.Syntax
import Chakobsa.Lib.Fault

/-!
# Incremental SSA construction

`crates/parser/src/ssa_builder.rs`, after Braun et al.: a read of a variable is resolved against
whatever definition reaches the block so far. In a block that is not sealed yet the read gets a
phi without operands, recorded as incomplete, and `sealBlock` fills it in.

The hash maps of the source are only ever read by key and extended, so they are functions on
their keys here, and a missing key reads as the default the source takes for it. `readVariable`
recurses through predecessors; `readFuel` bounds the depth of that recursion by what blocks that
are reachable from the entry can need.

Values and blocks are numbered by `u32`s in the source (`Counter.u32`). What the builder makes of its
calls has nothing to do with that, until the numbers run out, and most of what is said of it is said
of numbers that do not (`Counter.unbounded`). `parse32_limited` carries it over to the others.
-/

namespace Chakobsa
namespace Parser

open Ir

/-- The places where the builder panics. -/
inductive BuilderPanic where
  /-- "block id always resolves within its own builder" -/
  | blockResolves
  /-- "phi id was just created in this block" -/
  | phiJustCreated
  /-- `value_types[&phi]` for an id without a type -/
  | valueTyped
  /-- the `u32` addition `self.next_value += 1` -/
  | valueOverflow
  deriving DecidableEq, Repr

/-- A computation of the builder; `ε` is the error type of its caller, for it has none itself. -/
abbrev BuildM (ε α : Type) : Type := Comp ε BuilderPanic α

/-- What values and blocks are numbered by. -/
class Counter where
  /-- `self.next_value += 1`, unless it overflows. -/
  succ : ℕ → Option ℕ
  /-- `n as u32`. -/
  cast : ℕ → ℕ

/-- Numbers that do not run out. -/
instance Counter.unbounded : Counter := ⟨fun n => some (n + 1), id⟩

/-- The numbers of the source, with overflow checks. -/
@[reducible] def Counter.u32 : Counter := ⟨fun n => if n + 1 < 2 ^ 32 then some (n + 1) else none, (· % 2 ^ 32)⟩

@[simp] theorem Counter.succ_unbounded (n : ℕ) : Counter.succ n = some (n + 1) := rfl

@[simp] theorem Counter.cast_unbounded (n : ℕ) : Counter.cast n = n := rfl

structure SsaBuilder where
  func : Function
  nextValue : ValueId
  /-- Per block, the current value bound to each variable name. -/
  currentDef : BlockId → String → Option ValueId
  valueTypes : ValueId → Option Ty
  isSealed : BlockId → Bool
  /-- Per block that is not sealed, the phis to be filled in when it is. -/
  incompletePhis : BlockId → List (String × ValueId)
  preds : BlockId → List BlockId

/-- `map.insert(key, value)`. -/
def insertAt {α β : Type} [DecidableEq α] (m : α → β) (a : α) (b : β) : α → β :=
  fun x => if x = a then b else m x

/-- Apply `g` to the first block with id `b`; `none` if there is none. -/
def modifyBlock (g : BasicBlock → BasicBlock) (b : BlockId) : List BasicBlock →
    Option (List BasicBlock)
  | [] => none
  | blk :: rest =>
    if blk.id = b then some (g blk :: rest) else (modifyBlock g b rest).map (blk :: ·)

/-- Give the first instruction with id `phi` the kind `kind`; `none` if there is none. -/
def setKind (phi : ValueId) (kind : InstKind) : List Instruction → Option (List Instruction)
  | [] => none
  | i :: rest =>
    if i.id = phi then some ({ i with kind := kind } :: rest)
    else (setKind phi kind rest).map (i :: ·)

namespace SsaBuilder

variable {ε : Type} [Counter]

/-- `SsaBuilder::new`. There are fewer than `2 ^ 32` parameters in any source text that the parser can
be given, so that `i as u32` is `i`. -/
def new (name : String) (params : List (String × Ty)) (retTy : Option Ty) : SsaBuilder where
  func := { name := name, params := params, retTy := retTy, blocks := [⟨0, [], none⟩], entry := 0 }
  nextValue := params.length
  currentDef := fun b x =>
    -- a later parameter of the same name overwrites the entry
    if b = 0 then (params.zipIdx.reverse.find? fun p => p.1.1 == x).map Prod.snd else none
  valueTypes := fun v => (params[v]?).map Prod.snd
  isSealed := fun b => b == 0
  incompletePhis := fun _ => []
  preds := fun _ => []

/-- `is_terminated`. -/
def isTerminated (B : SsaBuilder) (b : BlockId) : Bool :=
  match B.func.block b with
  | some blk => blk.terminator.isSome
  | none => false

/-- `new_block`. -/
def newBlock (B : SsaBuilder) : BlockId × SsaBuilder :=
  let id := Counter.cast B.func.blocks.length
  (id, { B with
    func := { B.func with blocks := B.func.blocks ++ [⟨id, [], none⟩] }
    currentDef := insertAt B.currentDef id fun _ => none
    preds := insertAt B.preds id [] })

/-- `block_mut`, followed by the change `g`. -/
def blockMut (B : SsaBuilder) (b : BlockId) (g : BasicBlock → BasicBlock) :
    BuildM ε SsaBuilder := do
  let blocks ← Comp.expect .blockResolves (modifyBlock g b B.func.blocks)
  return { B with func := { B.func with blocks := blocks } }

/-- `emit`; `emit_phi` is this with a kind `Phi`. -/
def emit (B : SsaBuilder) (b : BlockId) (ty : Ty) (kind : InstKind) :
    BuildM ε (ValueId × SsaBuilder) := do
  let id := B.nextValue
  let next ← Comp.expect .valueOverflow (Counter.succ id)
  let B := { B with nextValue := next, valueTypes := insertAt B.valueTypes id (some ty) }
  let B ← B.blockMut b fun blk =>
    { blk with instructions := blk.instructions ++ [⟨id, ty, kind⟩] }
  return (id, B)

/-- `terminate`. -/
def terminate (B : SsaBuilder) (b : BlockId) (term : Terminator) : BuildM ε SsaBuilder :=
  let B := { B with
    preds := term.successors.foldl (fun m s => insertAt m s (m s ++ [b])) B.preds }
  B.blockMut b fun blk => { blk with terminator := some term }

/-- `write_variable`. -/
def writeVariable (B : SsaBuilder) (x : String) (b : BlockId) (v : ValueId) : SsaBuilder :=
  { B with currentDef := insertAt B.currentDef b (insertAt (B.currentDef b) x (some v)) }

/-- Record `phi` as an incomplete phi of `b` for `x`. -/
def park (B : SsaBuilder) (b : BlockId) (x : String) (phi : ValueId) : SsaBuilder :=
  { B with incompletePhis := insertAt B.incompletePhis b (B.incompletePhis b ++ [(x, phi)]) }

section Read

variable (read : SsaBuilder → BlockId → BuildM ε (ValueId × SsaBuilder))

/-- The loop of `add_phi_operands`: read the variable in every predecessor. -/
def readPreds : SsaBuilder → List BlockId → BuildM ε (List (BlockId × ValueId) × SsaBuilder)
  | B, [] => .ok ([], B)
  | B, p :: rest => do
    let (v, B) ← read B p
    let (incoming, B) ← readPreds B rest
    return ((p, v) :: incoming, B)

/-- `add_phi_operands`. -/
def addPhiOperands (B : SsaBuilder) (phi : ValueId) (b : BlockId) : BuildM ε SsaBuilder := do
  let (incoming, B) ← readPreds read B (B.preds b)
  let blk ← Comp.expect .blockResolves (B.func.block b)
  let insts ← Comp.expect .phiJustCreated (setKind phi (.phi incoming) blk.instructions)
  B.blockMut b fun blk => { blk with instructions := insts }

/-- `read_variable_recursive`. -/
def readVariableRecursive (x : String) (ty : Ty) (B : SsaBuilder) (b : BlockId) :
    BuildM ε (ValueId × SsaBuilder) := do
  let (value, B) ←
    if B.isSealed b = false then do
      let (phi, B) ← B.emit b ty (.phi [])
      pure (phi, B.park b x phi)
    else match B.preds b with
      | [] => B.emit b ty (.phi [])
      | [only] => read B only
      | _ => do
        -- the phi is bound before the predecessors are read, so that a cycle finds it
        let (phi, B) ← B.emit b ty (.phi [])
        let B ← addPhiOperands read (B.writeVariable x b phi) phi b
        pure (phi, B)
  return (value, B.writeVariable x b value)

end Read

/-- `read_variable`, with fuel for the recursion through predecessors. -/
def readVariable (x : String) (ty : Ty) : ℕ → SsaBuilder → BlockId →
    BuildM ε (ValueId × SsaBuilder)
  | 0, _, _ => .error .outOfFuel
  | n + 1, B, b =>
    match B.currentDef b x with
    | some v => .ok (v, B)
    | none => readVariableRecursive (readVariable x ty n) x ty B b

/-- The depth of the recursion of `readVariable` on reachable blocks: between two phis it follows
a chain of blocks with one predecessor, and it makes at most one phi in each block. -/
def readFuel (B : SsaBuilder) : ℕ := (B.func.blocks.length + 1) * (B.func.blocks.length + 2)

/-- `read_variable`. -/
def read (B : SsaBuilder) (x : String) (b : BlockId) (ty : Ty) : BuildM ε (ValueId × SsaBuilder) :=
  readVariable x ty B.readFuel B b

/-- The loop of `seal_block` over the incomplete phis. -/
def fillPhis (b : BlockId) : SsaBuilder → List (String × ValueId) → BuildM ε SsaBuilder
  | B, [] => .ok B
  | B, (x, phi) :: rest => do
    let ty ← Comp.expect .valueTyped (B.valueTypes phi)
    let B ← addPhiOperands (readVariable x ty B.readFuel) B phi b
    fillPhis b B rest

/-- `seal_block`. -/
def sealBlock (B : SsaBuilder) (b : BlockId) : BuildM ε SsaBuilder := do
  let pending := B.incompletePhis b
  let B ← fillPhis b { B with incompletePhis := insertAt B.incompletePhis b [] } pending
  return { B with isSealed := insertAt B.isSealed b true }

end SsaBuilder

end Parser
end Chakobsa
