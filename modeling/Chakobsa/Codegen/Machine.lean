import Chakobsa.Codegen.Isa
import Mathlib.Algebra.Group.Nat.Defs
import Mathlib.Logic.Relation

/-!
# The machine

The semantics of mentat's instructions, as far as the emitted code uses them; mentat is another
repository, and this is what the code generator relies on. Instructions run one after the other.
There are 32 registers and a memory of bytes, both of which hold 64-bit integers: a load or a store
moves 8 bytes. Arithmetic wraps; division truncates and traps on zero; a comparison gives `0` or
`1`. `Jz` goes on with the next block if the register is not zero, `Call` pushes the position of the
next block on a stack of its own, and `Ret` pops it.

Every address the emitted code uses is a multiple of 8, so two accesses are to the same 8 bytes or
to disjoint ones, and the memory is a function on addresses here. What is below the first byte or
beyond the last traps.
-/

namespace Chakobsa
namespace Codegen

open Ir

/-- Why a run is cut short. -/
inductive Trap where
  | divideByZero
  | outOfBounds
  | callStackUnderflow
  /-- No instruction is where control is. -/
  | noInstruction
  deriving DecidableEq, Repr

/-- The size of the memory, a vector of bytes. -/
structure MemorySize where
  bytes : ℕ
  fits : bytes < 2 ^ 63

/-- The 8 bytes from the address on are in the memory. -/
def MemorySize.Contains (m : MemorySize) (addr : ℤ) : Prop := 0 ≤ addr ∧ addr + 8 ≤ m.bytes

instance (m : MemorySize) (addr : ℤ) : Decidable (m.Contains addr) :=
  inferInstanceAs (Decidable (_ ∧ _))

/-- The registers and the memory. -/
structure Cells where
  regs : ℕ → I64
  mem : ℤ → I64

namespace Cells

variable (σ : Cells)

def setReg (r : ℕ) (v : I64) : Cells := { σ with regs := fun x => if x = r then v else σ.regs x }

def setMem (a : ℤ) (v : I64) : Cells := { σ with mem := fun x => if x = a then v else σ.mem x }

/-- The address of a load or a store. -/
def address (base : ℕ) (imm : ℤ) : ℤ := (σ.regs base).toInt + imm

/-- A register gets the result of an operation on two others. -/
def combine (i : Instr) (op : I64 → I64 → I64) : Cells :=
  σ.setReg i.a (op (σ.regs i.b) (σ.regs i.c))

variable {σ} {r x : ℕ} {v : I64} {a b : ℤ}

@[simp] theorem setReg_self : (σ.setReg r v).regs r = v := if_pos rfl

@[simp] theorem setReg_of_ne (h : x ≠ r) : (σ.setReg r v).regs x = σ.regs x := if_neg h

@[simp] theorem setReg_mem : (σ.setReg r v).mem = σ.mem := rfl

@[simp] theorem setMem_self : (σ.setMem a v).mem a = v := if_pos rfl

@[simp] theorem setMem_of_ne (h : b ≠ a) : (σ.setMem a v).mem b = σ.mem b := if_neg h

@[simp] theorem setMem_regs : (σ.setMem a v).regs = σ.regs := rfl

end Cells

/-- The result of a comparison. -/
def flag (b : Bool) : I64 := if b then 1 else 0

/-- What an instruction does to registers and memory. -/
def Instr.exec (m : MemorySize) (i : Instr) (σ : Cells) : Except Trap Cells :=
  match i.op with
  | .loadI => .ok (σ.setReg i.a (BitVec.ofInt 64 i.imm))
  | .mov => .ok (σ.setReg i.a (σ.regs i.b))
  | .add => .ok (σ.combine i (· + ·))
  | .sub => .ok (σ.combine i (· - ·))
  | .mul => .ok (σ.combine i (· * ·))
  | .div => if σ.regs i.c = 0 then .error .divideByZero else .ok (σ.combine i BitVec.sdiv)
  | .mod => if σ.regs i.c = 0 then .error .divideByZero else .ok (σ.combine i BitVec.srem)
  | .cmpEq => .ok (σ.combine i fun a b => flag (a == b))
  | .cmpNe => .ok (σ.combine i fun a b => flag (a != b))
  | .cmpLt => .ok (σ.combine i fun a b => flag (a.slt b))
  | .cmpLe => .ok (σ.combine i fun a b => flag (a.sle b))
  | .cmpGt => .ok (σ.combine i fun a b => flag (b.slt a))
  | .cmpGe => .ok (σ.combine i fun a b => flag (b.sle a))
  | .and => .ok (σ.combine i (· &&& ·))
  | .or => .ok (σ.combine i (· ||| ·))
  | .load =>
    let addr := σ.address i.b i.imm
    if m.Contains addr then .ok (σ.setReg i.a (σ.mem addr)) else .error .outOfBounds
  | .store =>
    let addr := σ.address i.a i.imm
    if m.Contains addr then .ok (σ.setMem addr (σ.regs i.b)) else .error .outOfBounds
  -- control instructions change neither
  | .jmp | .jz | .call | .ret | .halt => .ok σ

/-- Instructions one after the other, none of them a control instruction. -/
def execAll (m : MemorySize) (code : List Instr) (σ : Cells) : Except Trap Cells :=
  code.foldlM (fun σ i => i.exec m σ) σ

section ExecAll

variable {m : MemorySize} {i : Instr} {code code' : List Instr} {σ σ' σ'' : Cells}

@[simp] theorem execAll_nil : execAll m [] σ = .ok σ := rfl

theorem execAll_cons (h : i.exec m σ = .ok σ') : execAll m (i :: code) σ = execAll m code σ' := by
  rw [execAll, List.foldlM_cons, h]
  rfl

theorem execAll_append (h : execAll m code σ = .ok σ') :
    execAll m (code ++ code') σ = execAll m code' σ' := by
  rw [execAll] at h ⊢
  rw [List.foldlM_append, h]
  rfl

end ExecAll

/-- The machine while it runs: at instruction `index` of block `block`, with the return positions of
the calls it is in. -/
structure State where
  cells : Cells
  block : ℕ
  index : ℕ
  calls : List ℕ

/-- The start of a block. -/
def State.goto (s : State) (block : ℕ) : State := { s with block := block, index := 0 }

/-- What one step leads to. -/
inductive Outcome where
  | running (s : State)
  | halted (σ : Cells)
  | trapped (t : Trap)

/-- The instruction the machine is at. -/
def Program.instrAt (P : Program) (s : State) : Option Instr :=
  P.blocks[s.block]?.bind fun blk => blk.instructions[s.index]?

/-- One step. -/
def Program.step (P : Program) (m : MemorySize) (s : State) : Outcome :=
  match P.instrAt s with
  | none => .trapped .noInstruction
  | some i =>
    match i.op with
    | .jmp => .running (s.goto i.imm.toNat)
    | .jz => .running (s.goto (if s.cells.regs i.b = 0 then i.imm.toNat else s.block + 1))
    | .call => .running { s.goto i.imm.toNat with calls := (s.block + 1) :: s.calls }
    | .ret =>
      match s.calls with
      | [] => .trapped .callStackUnderflow
      | r :: calls => .running { s.goto r with calls := calls }
    | .halt => .halted s.cells
    | _ =>
      match i.exec m s.cells with
      | .ok σ => .running { s with cells := σ, index := s.index + 1 }
      | .error t => .trapped t

/-- The machine gets from one state to another. -/
def Program.Reaches (P : Program) (m : MemorySize) : State → State → Prop :=
  Relation.ReflTransGen fun s s' => P.step m s = .running s'

/-- The machine gets from `s₁` to another state without returning from the function it is in at
`s₁`: the return positions of that state stay where they are. -/
def Program.Within (P : Program) (m : MemorySize) (s₁ : State) : State → Prop :=
  Relation.ReflTransGen (fun s s' => P.step m s = .running s' ∧ s₁.calls <:+ s'.calls) s₁

/-- The states in which the functions start that are invoked in the run from `s₀`: that state
itself, and what a call leads to. -/
inductive Program.Invocation (P : Program) (m : MemorySize) (s₀ : State) : State → Prop where
  | entry : P.Invocation m s₀ s₀
  | call {s s₁ : State} {i : Instr} (hs : P.Within m s₀ s) (hi : P.instrAt s = some i)
      (hop : i.op = .call) (hstep : P.step m s = .running s₁) : P.Invocation m s₀ s₁

end Codegen
end Chakobsa
