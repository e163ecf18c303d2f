import Chakobsa.Codegen.StackDiscipline
import Chakobsa.Lib.CarriesOut

/-!
# Runs of compiled code

The machine as a function from a state to the next one or to a result (`Program.next`), so that the
rules for deterministic machines apply, and what it does with straight-line code: code that goes
through takes it to the instruction behind (`AtCode.leads`), code that traps ends the run with that
trap (`AtCode.traps`).
-/

namespace Chakobsa
namespace Codegen

open Ir

/-- How a run ends: halted, with the value in the result register, or with a trap. -/
inductive Result where
  | value (v : I64)
  | trap (t : Trap)
  deriving DecidableEq, Repr

/-- One step, to the next state or to the end of the run. -/
def Program.next (P : Program) (m : MemorySize) (s : State) : State ⊕ Result :=
  match P.step m s with
  | .running s' => .inl s'
  | .halted σ => .inr (.value (σ.regs RET_REG))
  | .trapped t => .inr (.trap t)

/-- The state behind `n` further instructions of the block, with new registers and memory. -/
def State.behind (s : State) (σ : Cells) (n : ℕ) : State :=
  { s with cells := σ, index := s.index + n }

section Behind

variable {s : State} {σ : Cells} {n : ℕ}

@[simp] theorem State.behind_cells : (s.behind σ n).cells = σ := rfl

@[simp] theorem State.behind_block : (s.behind σ n).block = s.block := rfl

@[simp] theorem State.behind_index : (s.behind σ n).index = s.index + n := rfl

@[simp] theorem State.behind_calls : (s.behind σ n).calls = s.calls := rfl

end Behind

section Code

variable {P : Program} {m : MemorySize} {s : State} {σ : Cells} {i t : Instr}
  {code rest : List Instr} {tr : Trap}

/-- An instruction that goes through. -/
theorem Program.next_exec (hi : P.instrAt s = some i) (hc : i.op.isControl = false)
    (h : i.exec m s.cells = .ok σ) : P.next m s = .inl (s.behind σ 1) := by
  have hstep : P.step m s = .running (s.behind σ 1) := by
    simp only [Program.step, hi, h]
    cases hop : i.op <;> simp_all [Opcode.isControl, State.behind]
  simp only [Program.next, hstep]

/-- An instruction that traps. -/
theorem Program.next_trap (hi : P.instrAt s = some i) (hc : i.op.isControl = false)
    (h : i.exec m s.cells = .error tr) : P.next m s = .inr (.trap tr) := by
  have hstep : P.step m s = .trapped tr := by
    simp only [Program.step, hi, h]
    cases hop : i.op <;> simp_all [Opcode.isControl]
  simp only [Program.next, hstep]

/-- Behind the first part of the code is the rest of it. -/
theorem AtCode.behind (h : AtCode P s (code ++ rest) t) (σ : Cells) :
    AtCode P (s.behind σ code.length) rest t := by
  obtain ⟨blk, hblk, hdrop⟩ := h
  refine ⟨blk, hblk, ?_⟩
  rw [State.behind_index, ← List.drop_drop, hdrop, List.append_assoc, List.drop_left]

/-- Code that goes through leads to what stands behind it. -/
theorem AtCode.leads (h : AtCode P s (code ++ rest) t) (hc : ∀ i ∈ code, i.op.isControl = false)
    (hexec : execAll m code s.cells = .ok σ) : Leads (P.next m) s (s.behind σ code.length) := by
  induction code generalizing s with
  | nil =>
    obtain rfl : s.cells = σ := Except.ok.inj hexec
    exact .refl
  | cons i code ih =>
    obtain ⟨τ, hi, hrest⟩ := execAll_cons_ok hexec
    have hnext := Program.next_exec h.instrAt_cons (hc i List.mem_cons_self) hi
    have hat : AtCode P (s.behind τ 1) (code ++ rest) t :=
      AtCode.behind (show AtCode P s ([i] ++ (code ++ rest)) t from h) τ
    have hlead := ih hat (fun j hj => hc j (List.mem_cons_of_mem _ hj)) hrest
    -- the index counts this instruction and those behind it
    have hidx : (s.behind τ 1).behind σ code.length = s.behind σ (i :: code).length := by
      simp only [State.behind, List.length_cons, Nat.add_assoc, Nat.add_comm 1]
    rw [hidx] at hlead
    exact .head hnext hlead

/-- Code that traps ends the run. -/
theorem AtCode.traps (h : AtCode P s (code ++ rest) t) (hc : ∀ i ∈ code, i.op.isControl = false)
    (hexec : execAll m code s.cells = .error tr) : Finishes (P.next m) s (.trap tr) := by
  induction code generalizing s with
  | nil => cases hexec
  | cons i code ih =>
    have hi := hc i List.mem_cons_self
    cases hex : i.exec m s.cells with
    | ok τ =>
      rw [execAll_cons hex] at hexec
      have hat : AtCode P (s.behind τ 1) (code ++ rest) t :=
        AtCode.behind (show AtCode P s ([i] ++ (code ++ rest)) t from h) τ
      have hend := ih hat (fun j hj => hc j (List.mem_cons_of_mem _ hj)) hexec
      exact .of_leads (.single (Program.next_exec h.instrAt_cons hi hex)) hend
    | error tr' =>
      obtain rfl : tr' = tr := by
        rw [execAll, List.foldlM_cons, hex] at hexec
        exact Except.error.inj hexec
      exact ⟨s, .refl, Program.next_trap h.instrAt_cons hi hex⟩

/-! ### At the end of a block -/

theorem AtCode.next_jmp {k : ℕ} (h : AtCode P s [] ⟨.jmp, 0, 0, 0, (k : ℤ)⟩) :
    P.next m s = .inl (s.goto k) := by
  simp [Program.next, Program.step, h.instrAt_nil]

theorem AtCode.next_jz {r k : ℕ} (h : AtCode P s [] ⟨.jz, 0, r, 0, (k : ℤ)⟩) :
    P.next m s = .inl (s.goto (if s.cells.regs r = 0 then k else s.block + 1)) := by
  simp [Program.next, Program.step, h.instrAt_nil]

theorem AtCode.next_call {k : ℕ} (h : AtCode P s [] ⟨.call, 0, 0, 0, (k : ℤ)⟩) :
    P.next m s = .inl { s.goto k with calls := (s.block + 1) :: s.calls } := by
  simp [Program.next, Program.step, h.instrAt_nil]

theorem AtCode.next_ret {r : ℕ} {calls : List ℕ} (h : AtCode P s [] ⟨.ret, 0, 0, 0, 0⟩)
    (hcalls : s.calls = r :: calls) : P.next m s = .inl { s.goto r with calls := calls } := by
  simp [Program.next, Program.step, h.instrAt_nil, hcalls]

theorem AtCode.next_halt (h : AtCode P s [] ⟨.halt, 0, 0, 0, 0⟩) :
    P.next m s = .inr (.value (s.cells.regs RET_REG)) := by
  simp [Program.next, Program.step, h.instrAt_nil]

end Code

end Codegen
end Chakobsa
