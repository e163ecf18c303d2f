import Chakobsa.Codegen.ParallelMove
import Chakobsa.Codegen.Regions
import Chakobsa.Codegen.Structural

/-!
# Frames of the software stack

A function saves registers above the stack pointer, moves the pointer past them, calls, and moves it
back in another block. `Frame` is what is known about the pointer at a point of the code, as a
distance from its value at the function's entry; `Frame.Step` says what each instruction form does to
it, and `FrameTyped` that the blocks of a program agree on it: wherever control goes, the distance is
the one the code there expects.

Such a program keeps the stack discipline. `Running` is the invariant of a run inside one invocation:
the functions in it wait at distances above the invocation's stack pointer, whatever is called from
where. A step keeps it (`Running.step`), so does a run (`Running.within`).
-/

namespace Chakobsa
namespace Codegen

open Ir

/-! ### The stack pointer along a piece of code -/

/-- What is known about the software stack at a point of the code. Distances count from the stack
pointer at the function's entry. -/
structure Frame where
  /-- The constant in `SCRATCH_1`, if that is what it was set to last. -/
  scratch : Option ℕ
  /-- The distance of the stack pointer. -/
  offset : ℕ
  /-- The distance up to which the memory is known to be there, something having been stored. -/
  covered : ℕ

/-- At the start of a block nothing is known but where the stack pointer is. -/
def Frame.ofOffset (o : ℕ) : Frame := ⟨none, o, o⟩

/-- What an instruction does to the frame. The stack pointer is moved up over saved registers only,
and down by no more than it was moved up. -/
inductive Frame.Step : Instr → Frame → Frame → Prop where
  | plain {i : Instr} (h : Plain i) (F : Frame) : Step i F { F with scratch := none }
  | save (r off : ℕ) (F : Frame) : Step ⟨.store, STACK_PTR, r, 0, (off : ℤ)⟩ F
      { F with covered := max F.covered (F.offset + off + 8) }
  | const (n : ℕ) (F : Frame) : Step ⟨.loadI, SCRATCH_1, 0, 0, (n : ℤ)⟩ F { F with scratch := some n }
  | push {n : ℕ} {F : Frame} (hn : F.scratch = some n) (hle : F.offset + n ≤ F.covered) :
      Step ⟨.add, STACK_PTR, STACK_PTR, SCRATCH_1, 0⟩ F { F with offset := F.offset + n }
  | pop {n : ℕ} {F : Frame} (hn : F.scratch = some n) (hle : n ≤ F.offset) :
      Step ⟨.sub, STACK_PTR, STACK_PTR, SCRATCH_1, 0⟩ F { F with offset := F.offset - n }

/-- What a piece of code does to the frame. -/
inductive Frame.Steps : List Instr → Frame → Frame → Prop where
  | nil (F : Frame) : Steps [] F F
  | cons {i : Instr} {code : List Instr} {F F₁ F' : Frame} (hi : Step i F F₁)
      (hcode : Steps code F₁ F') : Steps (i :: code) F F'

theorem Frame.Steps.append {code code' : List Instr} {F F₁ F' : Frame} (h : Steps code F F₁)
    (h' : Steps code' F₁ F') : Steps (code ++ code') F F' := by
  induction h with
  | nil F => exact h'
  | cons hi _ ih => exact .cons hi (ih h')

/-- Code of plain instructions leaves the stack pointer where it is. -/
theorem Frame.Steps.plain {code : List Instr} (h : ∀ i ∈ code, Plain i) (F : Frame) :
    ∃ F', Steps code F F' ∧ F'.offset = F.offset := by
  induction code generalizing F with
  | nil => exact ⟨F, .nil F, rfl⟩
  | cons i code ih =>
    obtain ⟨F', hF', hoff⟩ := ih (fun j hj => h j (List.mem_cons_of_mem _ hj)) { F with scratch := none }
    exact ⟨F', .cons (.plain (h i List.mem_cons_self) F) hF', hoff⟩

theorem Frame.Step.not_control {i : Instr} {F F' : Frame} (h : Step i F F') :
    i.op.isControl = false := by
  cases h with
  | plain h F => exact h.emitted.not_control
  | _ => rfl

/-! ### What a frame says about registers and memory -/

/-- The registers are as the frame says, for an invocation that started with its stack pointer at
`b`. The stack pointer stays in memory, or at the bottom of the stack. -/
structure Frame.Holds (m : MemorySize) (b : ℕ) (F : Frame) (σ : Cells) : Prop where
  zero : σ.Zero
  pointer : (σ.regs STACK_PTR).toInt = ((b + F.offset : ℕ) : ℤ)
  scratch : ∀ n, F.scratch = some n → σ.regs SCRATCH_1 = BitVec.ofInt 64 (n : ℤ)
  inside : F.offset ≤ F.covered
  room : b + F.covered ≤ max m.bytes STACK_BASE

section Exec

variable {m : MemorySize} {i : Instr} {σ σ' : Cells} {b : ℕ} {F F' : Frame}

theorem not_writable_zero : ¬ Writable ZERO_REG := by
  unfold Writable
  decide

theorem not_writable_ptr : ¬ Writable STACK_PTR := by
  unfold Writable
  decide

/-- A plain instruction changes no register but the ones code computes into. -/
theorem Plain.exec_regs (h : Plain i) (he : i.exec m σ = .ok σ') {x : ℕ} (hx : ¬ Writable x) :
    σ'.regs x = σ.regs x := by
  have hset : ∀ {r : ℕ} {v : I64}, Writable r → .ok (σ.setReg r v) = (.ok σ' : Except Trap Cells) →
      σ'.regs x = σ.regs x := by
    intro r v hr heq
    rw [← Except.ok.inj heq]
    exact Cells.setReg_of_ne fun hxr => hx (hxr ▸ hr)
  cases h with
  | load hr addr =>
    simp only [Instr.exec] at he
    split at he
    · exact hset hr he
    · cases he
  | restore hr off =>
    simp only [Instr.exec] at he
    split at he
    · exact hset hr he
    · cases he
  | store hr addr =>
    simp only [Instr.exec] at he
    split at he
    · rw [← Except.ok.inj he]
      rfl
    · cases he
  | const hr n => exact hset hr he
  | mov hr hs => exact hset hr he
  | neg hr ha => exact hset hr he
  | not hr ha => exact hset hr he
  | bin op hr ha hb =>
    cases op with
    -- division and remainder may trap
    | div | mod =>
      simp only [Instr.exec, binopOpcode] at he
      split at he
      · cases he
      · exact hset hr he
    | _ => exact hset hr he

/-- Everything below the end of the memory and the bottom of the stack fits a register. -/
theorem top_lt (m : MemorySize) : max m.bytes STACK_BASE < 2 ^ 63 :=
  Nat.max_lt.mpr ⟨m.fits, by decide⟩

theorem toInt_ofInt_of_lt {n : ℕ} (h : n < 2 ^ 63) : (BitVec.ofInt 64 (n : ℤ)).toInt = n := by
  rw [BitVec.toInt_ofInt, Int.bmod_def]
  omega

/-- An instruction that goes through does what `Frame.Step` says. -/
theorem Frame.Step.exec (h : Step i F F') (hF : F.Holds m b σ) (he : i.exec m σ = .ok σ') :
    F'.Holds m b σ' := by
  have htop := top_lt m
  have hroom := hF.room
  have hin := hF.inside
  cases h with
  | plain h F =>
    exact ⟨(h.exec_regs he not_writable_zero).trans hF.zero,
      (congrArg BitVec.toInt (h.exec_regs he not_writable_ptr)).trans hF.pointer,
      fun n hn => (nomatch hn), hF.inside, hF.room⟩
  | save r off F =>
    simp only [Instr.exec, Cells.address, hF.pointer] at he
    split at he
    · next hmem =>
      -- the store went through, so the memory reaches behind what was stored
      have hend : b + (F.offset + off + 8) ≤ m.bytes := by
        have := hmem.2
        omega
      rw [← Except.ok.inj he]
      refine ⟨hF.zero, hF.pointer, hF.scratch, Nat.le_trans hin (Nat.le_max_left _ _), ?_⟩
      show b + max F.covered (F.offset + off + 8) ≤ max m.bytes STACK_BASE
      omega
    · cases he
  | const n F =>
    rw [← show σ.setReg SCRATCH_1 (BitVec.ofInt 64 (n : ℤ)) = σ' from Except.ok.inj he]
    refine ⟨hF.zero, hF.pointer, fun k hk => ?_, hF.inside, hF.room⟩
    rw [← Option.some.inj hk]
    exact Cells.setReg_self
  | @push n F hn hle =>
    rw [← show σ.setReg STACK_PTR (σ.regs STACK_PTR + σ.regs SCRATCH_1) = σ' from Except.ok.inj he]
    refine ⟨hF.zero, ?_, hF.scratch, hle, hF.room⟩
    have hsum : (σ.regs STACK_PTR + σ.regs SCRATCH_1).toInt = ((b + (F.offset + n) : ℕ) : ℤ) := by
      rw [BitVec.toInt_add, hF.pointer, hF.scratch n hn, toInt_ofInt_of_lt (by omega), Int.bmod_def]
      omega
    rw [Cells.setReg_self]
    exact hsum
  | @pop n F hn hle =>
    rw [← show σ.setReg STACK_PTR (σ.regs STACK_PTR - σ.regs SCRATCH_1) = σ' from Except.ok.inj he]
    refine ⟨hF.zero, ?_, hF.scratch, Nat.le_trans (Nat.sub_le _ _) hin, hF.room⟩
    have hdiff : (σ.regs STACK_PTR - σ.regs SCRATCH_1).toInt = ((b + (F.offset - n) : ℕ) : ℤ) := by
      rw [BitVec.toInt_sub, hF.pointer, hF.scratch n hn, toInt_ofInt_of_lt (by omega), Int.bmod_def]
      omega
    rw [Cells.setReg_self]
    exact hdiff

/-- Where a store of emitted code goes: to an absolute address, or above the invocation's stack
pointer. -/
theorem Frame.Step.store_address (h : Step i F F') (hop : i.op = .store) (hF : F.Holds m b σ) :
    i.absolute = some (σ.address i.a i.imm) ∨ (b : ℤ) ≤ σ.address i.a i.imm := by
  cases h with
  | plain h F =>
    cases h with
    | store hr addr =>
      left
      rw [hF.zero.address]
      rfl
    | bin op hr ha hb => cases op <;> cases hop
    | _ => cases hop
  | save r off F =>
    right
    simp only [Cells.address, hF.pointer]
    omega
  | _ => cases hop

end Exec

/-! ### Programs whose blocks agree on the stack pointer -/

section Run

/-- How a block may be left with the stack pointer at a given distance, `n` being the block's
position and `enters` saying at which distances blocks are entered. A call leaves its function's
frame behind for the block the callee returns to. -/
inductive Departs (enters : ℕ → ℕ → Prop) (n : ℕ) : ℕ → Instr → Prop where
  | jmp {k : ℕ} (target : enters k 0) : Departs enters n 0 ⟨.jmp, 0, 0, 0, (k : ℤ)⟩
  | jz {k : ℕ} (r : ℕ) (target : enters k 0) (next : enters (n + 1) 0) :
      Departs enters n 0 ⟨.jz, 0, r, 0, (k : ℤ)⟩
  | call {k o : ℕ} (target : enters k 0) (back : enters (n + 1) o) :
      Departs enters n o ⟨.call, 0, 0, 0, (k : ℤ)⟩
  | ret : Departs enters n 0 ⟨.ret, 0, 0, 0, 0⟩

/-- The absolute addresses of a piece of code lie below the stack. -/
def BelowStack (code : List Instr) : Prop := ∀ a ∈ absolutes code, a + 8 ≤ STACK_BASE

/-- A block that is entered at a distance is there, and its code and its terminator go on from that
distance. -/
def FrameTyped (P : Program) (enters : ℕ → ℕ → Prop) : Prop :=
  ∀ n o, enters n o → ∃ blk code t F, P.blocks[n]? = some blk ∧ blk.instructions = code ++ [t] ∧
    (Frame.ofOffset o).Steps code F ∧ BelowStack code ∧ Departs enters n F.offset t

/-- The return positions of an invocation's callees, and the stack pointer of the innermost: every
one of these functions waits to be returned to at the distance its block expects. -/
inductive Callers (enters : ℕ → ℕ → Prop) (b₁ : ℕ) : List ℕ → ℕ → Prop where
  | nil : Callers enters b₁ [] b₁
  | cons {r o b : ℕ} {outer : List ℕ} (back : enters r o) (h : Callers enters b₁ outer b) :
      Callers enters b₁ (r :: outer) (b + o)

/-- The rest of the block from where the machine is. -/
def AtCode (P : Program) (s : State) (code : List Instr) (t : Instr) : Prop :=
  ∃ blk, P.blocks[s.block]? = some blk ∧ blk.instructions.drop s.index = code ++ [t]

/-- The machine is inside an invocation that started with stack pointer `b₁` and return positions
`calls₁`: it is in a function that started with stack pointer `b`, at a place with frame `F`. -/
structure Running (P : Program) (m : MemorySize) (enters : ℕ → ℕ → Prop) (b₁ : ℕ)
    (calls₁ : List ℕ) (s : State) (outer : List ℕ) (b : ℕ) (F F' : Frame) (code : List Instr)
    (t : Instr) : Prop where
  calls : s.calls = outer ++ calls₁
  callers : Callers enters b₁ outer b
  here : AtCode P s code t
  steps : F.Steps code F'
  below : BelowStack code
  departs : Departs enters s.block F'.offset t
  holds : F.Holds m b s.cells

variable {P : Program} {m : MemorySize} {enters : ℕ → ℕ → Prop} {b₁ : ℕ} {calls₁ : List ℕ}
  {s s' : State} {outer : List ℕ} {b : ℕ} {F F' : Frame} {code : List Instr} {t i : Instr}

theorem AtCode.instrAt_nil (h : AtCode P s [] t) : P.instrAt s = some t := by
  obtain ⟨blk, hblk, hdrop⟩ := h
  rw [Program.instrAt, hblk, Option.bind_some, ← Nat.add_zero s.index, ← List.getElem?_drop, hdrop]
  rfl

theorem AtCode.instrAt_cons (h : AtCode P s (i :: code) t) : P.instrAt s = some i := by
  obtain ⟨blk, hblk, hdrop⟩ := h
  rw [Program.instrAt, hblk, Option.bind_some, ← Nat.add_zero s.index, ← List.getElem?_drop, hdrop]
  rfl

theorem AtCode.next (h : AtCode P s (i :: code) t) (σ : Cells) :
    AtCode P { s with cells := σ, index := s.index + 1 } code t := by
  obtain ⟨blk, hblk, hdrop⟩ := h
  refine ⟨blk, hblk, ?_⟩
  rw [← List.drop_drop, hdrop]
  rfl

/-- An instruction that does not transfer control moves on to the next one. -/
theorem Program.step_exec (hi : P.instrAt s = some i) (hc : i.op.isControl = false)
    (h : P.step m s = .running s') :
    ∃ σ, i.exec m s.cells = .ok σ ∧ s' = { s with cells := σ, index := s.index + 1 } := by
  unfold Program.step at h
  rw [hi] at h
  cases he : i.exec m s.cells with
  | ok σ =>
    have heq : Outcome.running { s with cells := σ, index := s.index + 1 } = .running s' := by
      cases hop : i.op <;> simp_all [Opcode.isControl]
    exact ⟨σ, rfl, (Outcome.running.inj heq).symm⟩
  | error t =>
    have heq : Outcome.trapped t = .running s' := by
      cases hop : i.op <;> simp_all [Opcode.isControl]
    cases heq

/-- Where no function of the invocation is left out, the innermost one is at or above its stack
pointer. -/
theorem Callers.le (h : Callers enters b₁ outer b) : b₁ ≤ b := by
  induction h with
  | nil => exact Nat.le_refl _
  | cons _ _ ih => exact Nat.le_trans ih (Nat.le_add_right _ _)

/-- Control enters a block. -/
theorem FrameTyped.running (ht : FrameTyped P enters) {o : ℕ} (hb : enters s.block o)
    (hidx : s.index = 0) (hcalls : s.calls = outer ++ calls₁) (hout : Callers enters b₁ outer b)
    (hF : (Frame.ofOffset o).Holds m b s.cells) :
    ∃ F' code t, Running P m enters b₁ calls₁ s outer b (Frame.ofOffset o) F' code t := by
  obtain ⟨blk, code, t, F', hblk, hinst, hsteps, hbelow, hdep⟩ := ht _ _ hb
  refine ⟨F', code, t, hcalls, hout, ⟨blk, hblk, ?_⟩, hsteps, hbelow, hdep, hF⟩
  rw [hidx, hinst]
  rfl

/-- With the stack pointer where the function started, its frame is empty again. -/
theorem Frame.Holds.enter {σ : Cells} (h : F.Holds m b σ) :
    (Frame.ofOffset 0).Holds m (b + F.offset) σ := by
  have hin := h.inside
  have hroom := h.room
  refine ⟨h.zero, h.pointer, fun n hn => (nomatch hn), Nat.le_refl _, ?_⟩
  show b + F.offset + 0 ≤ max m.bytes STACK_BASE
  omega

/-- The same stack pointer, seen from further below. -/
theorem Frame.Holds.resume {σ : Cells} {o : ℕ} (h : F.Holds m (b + o) σ) (hoff : F.offset = 0) :
    (Frame.ofOffset o).Holds m b σ := by
  have hroom := h.room
  refine ⟨h.zero, ?_, fun n hn => (nomatch hn), Nat.le_refl _, ?_⟩
  · rw [h.pointer, hoff]
    rfl
  · show b + o ≤ max m.bytes STACK_BASE
    omega

/-- A step that does not return from the invocation stays inside it. -/
theorem Running.step (ht : FrameTyped P enters)
    (h : Running P m enters b₁ calls₁ s outer b F F' code t) (hstep : P.step m s = .running s')
    (hkeep : calls₁ <:+ s'.calls) :
    ∃ outer b F F' code t, Running P m enters b₁ calls₁ s' outer b F F' code t := by
  obtain ⟨hcalls, hout, hcode, hsteps, hbelow, hdep, hF⟩ := h
  cases hsteps with
  | cons hi hrest =>
    -- in the middle of the block
    obtain ⟨σ, he, rfl⟩ := Program.step_exec hcode.instrAt_cons hi.not_control hstep
    refine ⟨outer, b, _, F', _, t, hcalls, hout, hcode.next σ, hrest, fun a ha => ?_, hdep,
      hi.exec hF he⟩
    obtain ⟨j, hj, hja⟩ := List.mem_filterMap.mp ha
    exact hbelow a (List.mem_filterMap.mpr ⟨j, List.mem_cons_of_mem _ hj, hja⟩)
  | nil =>
    -- at the terminator, which keeps registers and memory
    have hi := hcode.instrAt_nil
    simp only [Program.step, hi] at hstep
    generalize hoff : F.offset = o at hdep
    have hhere : o = 0 → (Frame.ofOffset 0).Holds m b s.cells := by
      intro ho
      have := hF.enter
      rwa [hoff, ho, Nat.add_zero] at this
    cases hdep with
    | @jmp k target =>
      rw [← Outcome.running.inj hstep]
      exact ⟨outer, b, _, ht.running (s := s.goto k) target rfl hcalls hout (hhere rfl)⟩
    | @jz k r target next =>
      rw [← Outcome.running.inj hstep]
      dsimp only
      split
      · exact ⟨outer, b, _, ht.running (s := s.goto k) target rfl hcalls hout (hhere rfl)⟩
      · exact ⟨outer, b, _, ht.running (s := s.goto (s.block + 1)) next rfl hcalls hout (hhere rfl)⟩
    | @call k o target back =>
      rw [← Outcome.running.inj hstep]
      refine ⟨(s.block + 1) :: outer, b + o, _, ht.running target rfl ?_ (.cons back hout)
        (hoff ▸ hF.enter)⟩
      rw [List.cons_append, ← hcalls]
    | ret =>
      cases hout with
      | nil =>
        -- that would return from the invocation
        cases hc : calls₁ with
        | nil =>
          rw [hcalls, hc] at hstep
          cases hstep
        | cons r rest =>
          rw [hcalls, hc] at hstep
          rw [← Outcome.running.inj hstep, hc] at hkeep
          exact absurd hkeep.length_le (Nat.not_succ_le_self _)
      | @cons r o b outer back hout =>
        rw [hcalls] at hstep
        rw [← Outcome.running.inj hstep]
        exact ⟨outer, b, _, ht.running back rfl rfl hout (hF.resume hoff)⟩

/-- A run inside the invocation stays inside it. -/
theorem Running.within (ht : FrameTyped P enters) {s₁ : State}
    (h : ∃ outer b F F' code t, Running P m enters b₁ s₁.calls s₁ outer b F F' code t)
    (hs : P.Within m s₁ s) :
    ∃ outer b F F' code t, Running P m enters b₁ s₁.calls s outer b F F' code t := by
  induction hs with
  | refl => exact h
  | tail _ hstep ih =>
    obtain ⟨outer, b, F, F', code, t, hrun⟩ := ih
    exact hrun.step ht hstep.1 hstep.2

end Run

end Codegen
end Chakobsa
