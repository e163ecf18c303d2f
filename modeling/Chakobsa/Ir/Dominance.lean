import Chakobsa.Ir.PhiResolution

/-!
# Definitions that dominate their uses

The SSA property `validate.rs` does not check: where a value is read, it is a parameter, or it has
been defined earlier in the block, or in a block that is on every way to this one. A phi reads its
operands at the end of the predecessors.
-/

namespace Chakobsa
namespace Ir

/-- The values an instruction reads where it stands. -/
def InstKind.operands : InstKind → List ValueId
  | .constI64 _ | .constBool _ | .phi _ => []
  | .bin _ lhs rhs => [lhs, rhs]
  | .un _ operand => [operand]
  | .call _ args => args

/-- The values a terminator reads. -/
def Terminator.operands : Terminator → List ValueId
  | .branch cond _ _ => [cond]
  | .ret (some v) => [v]
  | .jump _ | .ret none => []

/-- The block defines the value. -/
def BasicBlock.Defines (b : BasicBlock) (v : ValueId) : Prop := v ∈ b.instructions.map (·.id)

/-- After the instructions `before` of block `b` the value is defined, on every way there. -/
def Function.Available (f : Function) (b : BasicBlock) (before : List Instruction) (v : ValueId) :
    Prop :=
  v < f.params.length ∨ v ∈ before.map (·.id) ∨
    ∃ d ∈ f.blocks, d.Defines v ∧ StrictlyDominates f.Edge f.entry d.id b.id

/-- At the end of the block `p` the value is defined, on every way there. -/
def Function.AvailableAtEnd (f : Function) (p : BlockId) (v : ValueId) : Prop :=
  v < f.params.length ∨ ∃ d ∈ f.blocks, d.Defines v ∧ Dominates f.Edge f.entry d.id p

/-- Definitions dominate uses. -/
structure Function.DefsDominate (f : Function) : Prop where
  inst : ∀ b ∈ f.blocks, ∀ before i after, b.instructions = before ++ i :: after →
    ∀ v ∈ i.kind.operands, f.Available b before v
  term : ∀ b ∈ f.blocks, ∀ t, b.terminator = some t →
    ∀ v ∈ t.operands, f.Available b b.instructions v
  phi : ∀ b ∈ f.blocks, ∀ incoming ∈ b.phis, ∀ p ∈ incoming, f.AvailableAtEnd p.1 p.2

/-- Every phi has exactly one entry for every predecessor of its block. -/
def Function.PhisExact (f : Function) : Prop :=
  ∀ b ∈ f.blocks, ∀ incoming ∈ b.phis, (incoming.map Prod.fst).Nodup ∧
    ∀ q, q ∈ incoming.map Prod.fst ↔ q ∈ f.predecessors b.id

end Ir
end Chakobsa
