import Chakobsa.Ir.Validate
import Chakobsa.Codegen.Isa

/-!
# Block-level liveness

`crates/codegen/src/liveness.rs`. A `HashSet<ValueId>` is a list of ids, of which only membership
is ever used: an id may be in it more than once. The maps `live_in` and `live_out` have one entry for every
block of the function from the start, so they are functions on block ids here, and indexing
them with an id that is no block is the panic it is in the source.

The dataflow loop runs until a sweep changes nothing. `analyzeLoop` bounds the number of sweeps
by fuel; `analyze` gives it one sweep for every id that can be added to one of the sets, and one
more.
-/

namespace Chakobsa
namespace Codegen

open Ir

/-- A set of values; only membership counts. -/
abbrev ValueSet : Type := List ValueId

/-- Same members. -/
def ValueSet.sameAs (s t : ValueSet) : Bool := s.all (· ∈ t) && t.all (· ∈ s)

/-- The operands a non-phi instruction reads, in the order it reads them. A phi's incoming
values are read at the end of the predecessors and are not among them. -/
def instUses : InstKind → List ValueId
  | .constI64 _ | .constBool _ | .phi _ => []
  | .bin _ a c => [a, c]
  | .un _ a => [a]
  | .call _ args => args

/-- The values a terminator reads. -/
def termUses : Option Terminator → List ValueId
  | some (.branch cond _ _) => [cond]
  | some (.ret (some v)) => [v]
  | _ => []

/-- Record a use that is not preceded by a definition in the block. -/
def noteUse (defined : ValueSet) (used : ValueSet) (v : ValueId) : ValueSet :=
  if v ∈ defined then used else used.insert v

/-- One instruction of the scan: first its uses, then its definition. -/
def scanInst (ud : ValueSet × ValueSet) (inst : Instruction) : ValueSet × ValueSet :=
  ((instUses inst.kind).foldl (noteUse ud.2) ud.1, ud.2.insert inst.id)

/-- The upward-exposed uses and the definitions of a block. -/
def usedAndDefined (b : BasicBlock) : ValueSet × ValueSet :=
  let ud := b.instructions.foldl scanInst ([], [])
  ((termUses b.terminator).foldl (noteUse ud.2) ud.1, ud.2)

/-- `used_and_defined_in_block`. -/
def usedAndDefinedInBlock (f : Function) (block : BlockId) : CodegenM (ValueSet × ValueSet) := do
  let b ← Comp.expect .blockFromFunction (f.block block)
  return usedAndDefined b

/-- `phi_operands_from`: the operands the phis of `block` have for the predecessor `from'`. -/
def phiOperandsFrom (f : Function) (block from' : BlockId) : List ValueId :=
  match f.block block with
  | none => []
  | some b => b.instructions.filterMap fun inst =>
    match inst.kind with
    | .phi incoming => (incoming.find? fun p => p.1 == from').map Prod.snd
    | _ => none

/-- The map `succs`, collected over the blocks that have a terminator, later ones winning. -/
def succsOf (f : Function) (block : BlockId) : List BlockId :=
  match f.blocks.reverse.find? (fun b => b.id == block && b.terminator.isSome) with
  | some b => b.successors
  | none => []

structure Liveness where
  liveIn : BlockId → ValueSet
  liveOut : BlockId → ValueSet

/-- The sets during one sweep, and whether the sweep has changed one. -/
structure Sweep where
  liveness : Liveness
  changed : Bool

/-- `map.insert(block, s)`. -/
def setAt (m : BlockId → ValueSet) (block : BlockId) (s : ValueSet) : BlockId → ValueSet :=
  fun b => if b = block then s else m b

/-- What flows out of `block`: for every successor its live-in set and the phi operands it has
for `block`. -/
def flowOut (f : Function) (liveIn : BlockId → ValueSet) (block : BlockId) :
    CodegenM ValueSet :=
  (succsOf f block).foldlM (fun out succ => do
    let inSucc ← Comp.expect .liveInMissing
      (if (f.block succ).isSome then some (liveIn succ) else none)
    return (out ∪ inSucc) ∪ phiOperandsFrom f succ block) []

/-- The part of a sweep that updates one block. -/
def sweepBlock (f : Function) (st : Sweep) (b : BasicBlock) : CodegenM Sweep := do
  let (used, defined) ← usedAndDefinedInBlock f b.id
  let out ← flowOut f st.liveness.liveIn b.id
  let st :=
    if out.sameAs (st.liveness.liveOut b.id) then st
    else ⟨{ st.liveness with liveOut := setAt st.liveness.liveOut b.id out }, true⟩
  let newIn := used ∪ out.filter (· ∉ defined)
  if newIn.sameAs (st.liveness.liveIn b.id) then return st
  else return ⟨{ st.liveness with liveIn := setAt st.liveness.liveIn b.id newIn }, true⟩

/-- `while changed { .. }`. -/
def analyzeLoop (f : Function) : ℕ → Liveness → CodegenM Liveness
  | 0, _ => .error .outOfFuel
  | n + 1, l => do
    let st ← f.blocks.foldlM (sweepBlock f) ⟨l, false⟩
    if st.changed then analyzeLoop f n st.liveness else return st.liveness

/-- Every id an instruction or a terminator of the function reads. -/
def operandsOf (f : Function) : List ValueId :=
  f.blocks.flatMap fun b =>
    (b.instructions.flatMap fun i => match i.kind with
      | .phi incoming => incoming.map Prod.snd
      | k => instUses k) ++ termUses b.terminator

/-- `analyze`. -/
def analyze (f : Function) : CodegenM Liveness :=
  analyzeLoop f (2 * f.blocks.length * (operandsOf f).length + 1) ⟨fun _ => [], fun _ => []⟩

/-- `live_within_block`: every value live at some point of the block. -/
def liveWithinBlock (f : Function) (block : BlockId) (l : Liveness) : CodegenM ValueSet := do
  let (used, defined) ← usedAndDefinedInBlock f block
  return ((l.liveIn block ∪ used) ∪ defined) ∪ l.liveOut block

end Codegen
end Chakobsa
