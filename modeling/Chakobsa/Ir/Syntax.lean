import Mathlib.Data.List.Nodup
import Mathlib.Tactic.Common

/-!
# The typed SSA intermediate representation

The data model of `crates/ir`: a `Module` is a list of functions, a `Function` a list of basic
blocks with an entry block, a `BasicBlock` a list of instructions with one terminator. Every
instruction defines one typed value.

`ValueId` and `BlockId` wrap a `u32` in the source and are natural numbers here: an id is only
compared, and ids are handed out one at a time while the source is read. An `i64` is a
`BitVec 64`. `Function::predecessors` returns a map; here `Function.predecessors` is the list
that map holds for one block, in the order in which the source pushes it.
-/

namespace Chakobsa
namespace Ir

/-- A value of the surface type `i64`. -/
abbrev I64 : Type := BitVec 64

/-- An SSA value id, unique within one function. -/
abbrev ValueId : Type := ℕ

/-- A basic block id. -/
abbrev BlockId : Type := ℕ

/-- The two types of the language. -/
inductive Ty where
  | i64
  | bool
  deriving DecidableEq, Repr

/-- A binary operation. -/
inductive BinOp where
  | add | sub | mul | div | mod
  | cmpEq | cmpNe | cmpLt | cmpLe | cmpGt | cmpGe
  | and | or
  deriving DecidableEq, Repr

/-- The type both operands must have. -/
def BinOp.operandType : BinOp → Ty
  | .add | .sub | .mul | .div | .mod => .i64
  | .cmpEq | .cmpNe | .cmpLt | .cmpLe | .cmpGt | .cmpGe => .i64
  | .and | .or => .bool

/-- The type of the value the instruction produces. -/
def BinOp.resultType : BinOp → Ty
  | .add | .sub | .mul | .div | .mod => .i64
  | .cmpEq | .cmpNe | .cmpLt | .cmpLe | .cmpGt | .cmpGe | .and | .or => .bool

/-- A unary operation. -/
inductive UnOp where
  | neg
  | not
  deriving DecidableEq, Repr

def UnOp.operandType : UnOp → Ty
  | .neg => .i64
  | .not => .bool

def UnOp.resultType : UnOp → Ty
  | .neg => .i64
  | .not => .bool

/-- What one SSA value is defined as. -/
inductive InstKind where
  | constI64 (n : I64)
  | constBool (b : Bool)
  | bin (op : BinOp) (lhs rhs : ValueId)
  | un (op : UnOp) (operand : ValueId)
  /-- A call to another function of the same module. -/
  | call (func : String) (args : List ValueId)
  /-- One incoming value per predecessor of the block the instruction lives in. -/
  | phi (incoming : List (BlockId × ValueId))
  deriving DecidableEq, Repr

/-- Whether the instruction is a `Phi`. -/
def InstKind.isPhi : InstKind → Bool
  | .phi _ => true
  | _ => false

theorem InstKind.isPhi_iff {k : InstKind} : k.isPhi = true ↔ ∃ incoming, k = .phi incoming := by
  cases k <;> simp [isPhi]

/-- Whether the instruction is a `Call`. -/
def InstKind.isCall : InstKind → Bool
  | .call _ _ => true
  | _ => false

/-- One instruction: it defines exactly one new, typed SSA value. -/
structure Instruction where
  id : ValueId
  ty : Ty
  kind : InstKind
  deriving DecidableEq, Repr

/-- How control leaves a block. -/
inductive Terminator where
  | jump (target : BlockId)
  | branch (cond : ValueId) (thenBlock elseBlock : BlockId)
  | ret (value : Option ValueId)
  deriving DecidableEq, Repr

/-- Every block the terminator can transfer control to. -/
def Terminator.successors : Terminator → List BlockId
  | .jump b => [b]
  | .branch _ t e => [t, e]
  | .ret _ => []

/-- An ordered list of instructions and the terminator, once there is one. -/
structure BasicBlock where
  id : BlockId
  instructions : List Instruction
  terminator : Option Terminator
  deriving DecidableEq, Repr

/-- The successors of a block: none as long as it has no terminator. -/
def BasicBlock.successors (b : BasicBlock) : List BlockId :=
  (b.terminator.map Terminator.successors).getD []

/-- One typed SSA function. `params` are its named, typed parameters; parameter `i` is the
value with id `i`. -/
structure Function where
  name : String
  params : List (String × Ty)
  retTy : Option Ty
  blocks : List BasicBlock
  entry : BlockId
  deriving DecidableEq, Repr

namespace Function

/-- The first block with the given id. -/
def block (f : Function) (id : BlockId) : Option BasicBlock :=
  f.blocks.find? (fun b => b.id == id)

/-- The predecessors of `id`: one entry for every edge into it, in block order. -/
def predecessors (f : Function) (id : BlockId) : List BlockId :=
  f.blocks.flatMap fun b => (b.successors.filter (· == id)).map fun _ => b.id

/-- The block found under an id carries that id and belongs to the function. -/
theorem block_some {f : Function} {id : BlockId} {b : BasicBlock} (h : f.block id = some b) :
    b ∈ f.blocks ∧ b.id = id := by
  refine ⟨List.mem_of_find?_eq_some h, ?_⟩
  simpa using List.find?_some h

theorem block_isSome_iff {f : Function} {id : BlockId} :
    (f.block id).isSome ↔ id ∈ f.blocks.map (·.id) := by
  simp [block, List.find?_isSome]

/-- Under distinct block ids, looking up the id of a block finds that block. -/
theorem block_of_mem {f : Function} (hnd : (f.blocks.map (·.id)).Nodup) {b : BasicBlock}
    (hb : b ∈ f.blocks) : f.block b.id = some b := by
  obtain ⟨c, hc⟩ : ∃ c, f.block b.id = some c :=
    Option.isSome_iff_exists.mp (block_isSome_iff.mpr (List.mem_map_of_mem hb))
  obtain ⟨hcm, hcid⟩ := block_some hc
  rw [hc, List.inj_on_of_nodup_map hnd hcm hb hcid]

/-- `p` is a predecessor of `b` exactly when some block with id `p` has `b` as successor. -/
theorem mem_predecessors {f : Function} {p b : BlockId} :
    p ∈ f.predecessors b ↔ ∃ blk ∈ f.blocks, blk.id = p ∧ b ∈ blk.successors := by
  simp only [predecessors, List.mem_flatMap, List.mem_map, List.mem_filter, beq_iff_eq]
  constructor
  · rintro ⟨blk, hblk, s, ⟨hs, rfl⟩, rfl⟩
    exact ⟨blk, hblk, rfl, hs⟩
  · rintro ⟨blk, hblk, rfl, hs⟩
    exact ⟨blk, hblk, b, ⟨hs, rfl⟩, rfl⟩

end Function

/-- A whole compiled program. -/
structure Module where
  functions : List Function
  deriving DecidableEq, Repr

namespace Module

/-- The first function with the given name. -/
def function (m : Module) (name : String) : Option Function :=
  m.functions.find? (fun f => f.name == name)

theorem function_some {m : Module} {name : String} {f : Function}
    (h : m.function name = some f) : f ∈ m.functions ∧ f.name = name := by
  refine ⟨List.mem_of_find?_eq_some h, ?_⟩
  simpa using List.find?_some h

/-- Under distinct names, looking up the name of a function finds that function. -/
theorem function_of_mem {m : Module} (hnd : (m.functions.map (·.name)).Nodup) {f : Function}
    (hf : f ∈ m.functions) : m.function f.name = some f := by
  obtain ⟨g, hg⟩ : ∃ g, m.function f.name = some g := by
    apply Option.isSome_iff_exists.mp
    simp only [function, List.find?_isSome, beq_iff_eq]
    exact ⟨f, hf, rfl⟩
  obtain ⟨hgm, hgn⟩ := function_some hg
  rw [hg, List.inj_on_of_nodup_map hnd hgm hf hgn]

end Module

end Ir
end Chakobsa
