import Chakobsa.Codegen.Runs
import Chakobsa.Codegen.BranchLowering

/-!
# What the code of one instruction does

The code of an instruction other than a call reloads the spilled operands, computes, and stores the
result if it is spilled. Run in a state that has the operands' values at their locations it does what
the interpreter does with the instruction (`instCode_run`): it writes the result to the location of
the value that is defined, and otherwise only to the scratch registers (`Wrote`); and it traps on a
zero divisor, where the interpreter returns an error.
-/

namespace Chakobsa
namespace Codegen

open Ir ExceptLemmas

/-! ### Reloading and writing back -/

/-- After the reload of a value that may be spilled. -/
def Cells.loaded (σ : Cells) (scratch : ℕ) (l : Loc) : Cells :=
  match l with
  | .reg _ => σ
  | .spill a => σ.setReg scratch (σ.mem a)

/-- The same but for the scratch registers. -/
structure Scratched (σ σ' : Cells) : Prop where
  regs : ∀ r, r ≠ SCRATCH_1 → r ≠ SCRATCH_2 → σ'.regs r = σ.regs r
  mem : σ'.mem = σ.mem

/-- The value has been written to the location, and otherwise only to scratch registers. -/
structure Wrote (dst : Loc) (v : I64) (σ τ : Cells) : Prop where
  value : τ.read dst = v
  regs : ∀ r, dst ≠ .reg r → r ≠ SCRATCH_1 → r ≠ SCRATCH_2 → τ.regs r = σ.regs r
  mem : ∀ a : ℤ, (∀ b : ℕ, dst = .spill b → a ≠ b) → τ.mem a = σ.mem a

section Registers

variable {r : ℕ}

/-- The allocatable registers are none of those with a purpose of their own. -/
theorem ne_of_lt_gp (h : r < NUM_GP_REGS) : r ≠ SCRATCH_1 ∧ r ≠ SCRATCH_2 ∧ r ≠ RET_REG ∧
    r ≠ STACK_PTR ∧ r ≠ ZERO_REG := by
  have : r < 27 := h
  unfold SCRATCH_1 SCRATCH_2 RET_REG STACK_PTR ZERO_REG
  omega

end Registers

section Pieces

variable {m : MemorySize} {σ σ' τ : Cells} {l dst : Loc} {scratch : ℕ} {v : I64}

theorem Scratched.refl (σ : Cells) : Scratched σ σ := ⟨fun _ _ _ => rfl, rfl⟩

theorem Scratched.trans (h : Scratched σ σ') (h' : Scratched σ' τ) : Scratched σ τ :=
  ⟨fun r h₁ h₂ => (h'.regs r h₁ h₂).trans (h.regs r h₁ h₂), h'.mem.trans h.mem⟩

theorem Scratched.zero (h : Scratched σ σ') (hz : σ.Zero) : σ'.Zero :=
  (h.regs ZERO_REG (by decide) (by decide)).trans hz

theorem Scratched.read (h : Scratched σ σ') (hl : l.Below) : σ'.read l = σ.read l := by
  cases l with
  | reg r =>
    obtain ⟨h₁, h₂, -⟩ := ne_of_lt_gp hl
    exact h.regs r h₁ h₂
  | spill a => exact congrFun h.mem a

/-- A reload changes the scratch register it goes to. -/
theorem Scratched.loaded (hs : scratch = SCRATCH_1 ∨ scratch = SCRATCH_2) (l : Loc) :
    Scratched σ (σ.loaded scratch l) := by
  cases l with
  | reg r => exact .refl σ
  | spill a =>
    refine ⟨fun r h₁ h₂ => Cells.setReg_of_ne ?_, rfl⟩
    rintro rfl
    exact hs.elim h₁ h₂

theorem loaded_regOr (σ : Cells) (scratch : ℕ) (l : Loc) :
    (σ.loaded scratch l).regs (l.regOr scratch) = σ.read l := by
  cases l with
  | reg r => rfl
  | spill a => exact Cells.setReg_self

/-- The other scratch register keeps its value. -/
theorem loaded_of_ne {r : ℕ} (h : r ≠ scratch) : (σ.loaded scratch l).regs r = σ.regs r := by
  cases l with
  | reg s => rfl
  | spill a => exact Cells.setReg_of_ne h

theorem loadCode_exec (hz : σ.Zero) (hin : m.Holds l) (scratch : ℕ) :
    execAll m (l.loadCode scratch) σ = .ok (σ.loaded scratch l) := by
  cases l with
  | reg r => rfl
  | spill a =>
    rw [Loc.loadCode, execAll_cons (hz.load hin scratch)]
    rfl

/-- Computing a value into the register that a definition writes, and completing the definition. -/
theorem compute_exec {i : Instr} (hi : i.exec m σ = .ok (σ.setReg (dst.regOr SCRATCH_1) v))
    (hz : σ.Zero) (hin : m.Holds dst) :
    execAll m (i :: dst.storeCode (dst.regOr SCRATCH_1)) σ = .ok (σ.write dst v) := by
  rw [execAll_cons hi]
  cases dst with
  | reg r => rfl
  | spill a =>
    have hz' : (σ.setReg SCRATCH_1 v).Zero := hz.setReg scratch1_ne_zero
    rw [Loc.storeCode, Loc.regOr, execAll_cons (hz'.store hin SCRATCH_1), Cells.setReg_self]
    rfl

theorem wrote_write (σ : Cells) (dst : Loc) (v : I64) : Wrote dst v σ (σ.write dst v) := by
  refine ⟨σ.write_read dst v, fun r hr h₁ _ => ?_, fun a ha => ?_⟩
  · cases dst with
    | reg s => exact Cells.setReg_of_ne fun he => hr (he ▸ rfl)
    | spill a => exact Cells.setReg_of_ne h₁
  · cases dst with
    | reg s => rfl
    | spill b => exact Cells.setMem_of_ne (ha b rfl)

theorem Scratched.wrote (h : Scratched σ σ') (hw : Wrote dst v σ' τ) : Wrote dst v σ τ :=
  ⟨hw.value, fun r hr h₁ h₂ => (hw.regs r hr h₁ h₂).trans (h.regs r h₁ h₂),
    fun a ha => (hw.mem a ha).trans (congrFun h.mem a)⟩

/-- What is elsewhere stays. -/
theorem Wrote.read (h : Wrote dst v σ τ) (hl : l.Below) (hne : l ≠ dst) : τ.read l = σ.read l := by
  cases l with
  | reg r =>
    obtain ⟨h₁, h₂, -⟩ := ne_of_lt_gp hl
    exact h.regs r hne.symm h₁ h₂
  | spill a =>
    refine h.mem a fun b hb he => hne ?_
    rw [hb, Int.ofNat_inj.mp he]

theorem Wrote.zero (h : Wrote dst v σ τ) (hdst : dst.Below) (hz : σ.Zero) : τ.Zero := by
  refine (h.regs ZERO_REG ?_ (by decide) (by decide)).trans hz
  rintro rfl
  exact (ne_of_lt_gp hdst).2.2.2.2 rfl

theorem Wrote.pointer (h : Wrote dst v σ τ) (hdst : dst.Below) :
    τ.regs STACK_PTR = σ.regs STACK_PTR := by
  refine h.regs STACK_PTR ?_ (by decide) (by decide)
  rintro rfl
  exact (ne_of_lt_gp hdst).2.2.2.1 rfl

end Pieces

/-! ### Arithmetic -/

section Operators

variable {m : MemorySize} {σ : Cells} {x y : RtValue} {a d ra rb : ℕ}

theorem flag_and (p q : Bool) : flag p &&& flag q = flag (p && q) := by
  cases p <;> cases q <;> decide

theorem flag_or (p q : Bool) : flag p ||| flag q = flag (p || q) := by
  cases p <;> cases q <;> decide

theorem flag_eq_zero (p : Bool) : flag p = 0 ↔ p = false := by
  cases p <;> decide

/-- An operation of the machine does what the interpreter does, on operands of its type. -/
theorem binop_exec {op : BinOp} (hx : x.ty = op.operandType) (hy : y.ty = op.operandType) (d : ℕ)
    (ha : σ.regs ra = word x) (hb : σ.regs rb = word y) :
    (∃ z, evalBin op x y = .ok z ∧
      Instr.exec m ⟨binopOpcode op, d, ra, rb, 0⟩ σ = .ok (σ.setReg d (word z))) ∨
    evalBin op x y = Comp.fail .divideByZero ∧
      Instr.exec m ⟨binopOpcode op, d, ra, rb, 0⟩ σ = .error .divideByZero := by
  cases x with
  | i64 p =>
    cases y with
    | bool q => cases op <;> simp [RtValue.ty, BinOp.operandType] at hx hy
    | i64 q =>
      simp only [word] at ha hb
      cases op with
      | and | or => simp [RtValue.ty, BinOp.operandType] at hx
      | div | mod =>
        -- both look at the divisor first
        by_cases hq : q = 0#64
        · right
          simp [evalBin, RtValue.asI64, Instr.exec, binopOpcode, hb, hq]
        · left
          simp [evalBin, RtValue.asI64, Instr.exec, binopOpcode, ha, hb, hq, Cells.combine, word]
      | _ =>
        left
        simp [evalBin, RtValue.asI64, Instr.exec, binopOpcode, ha, hb, Cells.combine, word]
  | bool p =>
    cases y with
    | i64 q => cases op <;> simp [RtValue.ty, BinOp.operandType] at hx hy
    | bool q =>
      simp only [word] at ha hb
      left
      cases op with
      | and =>
        refine ⟨.bool (p && q), ?_, ?_⟩
        · cases p <;> rfl
        · simp [Instr.exec, binopOpcode, Cells.combine, ha, hb, flag_and, word]
      | or =>
        refine ⟨.bool (p || q), ?_, ?_⟩
        · cases p <;> rfl
        · simp [Instr.exec, binopOpcode, Cells.combine, ha, hb, flag_or, word]
      | _ => simp [RtValue.ty, BinOp.operandType] at hx

/-- A negation is a subtraction from the register that holds zero. -/
theorem neg_exec (hz : σ.Zero) (hx : x.ty = .i64) (d : ℕ) (ha : σ.regs ra = word x) :
    ∃ z, evalUn .neg x = .ok z ∧
      Instr.exec m ⟨.sub, d, ZERO_REG, ra, 0⟩ σ = .ok (σ.setReg d (word z)) := by
  cases x with
  | bool p => simp [RtValue.ty] at hx
  | i64 p =>
    refine ⟨.i64 (-p), rfl, ?_⟩
    simp only [word] at ha
    have hz' : σ.regs ZERO_REG = 0 := hz
    simp [Instr.exec, Cells.combine, hz', ha, word]

/-- A logical `not` is a comparison with the register that holds zero. -/
theorem not_exec (hz : σ.Zero) (hx : x.ty = .bool) (d : ℕ) (ha : σ.regs ra = word x) :
    ∃ z, evalUn .not x = .ok z ∧
      Instr.exec m ⟨.cmpEq, d, ra, ZERO_REG, 0⟩ σ = .ok (σ.setReg d (word z)) := by
  cases x with
  | i64 p => simp [RtValue.ty] at hx
  | bool p =>
    refine ⟨.bool !p, rfl, ?_⟩
    simp only [word] at ha
    have hz' : σ.regs ZERO_REG = 0 := hz
    have hflag : (flag p == 0#64) = !p := by cases p <;> decide
    simp [Instr.exec, Cells.combine, hz', ha, word, hflag]

end Operators

/-! ### Instructions -/

section Instructions

variable {M : Module} {callee : Function → List RtValue → InterpM (Option RtValue)} {f : Function}
  {defs : Defs} {b : BlockId} {inst : Instruction} {env : Env} {loc : ValueId → Loc}
  {m : MemorySize} {σ : Cells}

/-- A value that is read is bound to a value of its declared type, or the interpreter panics. -/
theorem get_cases {v : ValueId} {ty : Ty} (hty : TypedEnv defs env) (hv : defs v = some ty) :
    (∃ x, env.get v = .ok x ∧ env v = some x ∧ x.ty = ty) ∨
      env.get v = .error (.panic .valueMissing) := by
  unfold Env.get
  cases hx : env v with
  | none => exact .inr rfl
  | some x => exact .inl ⟨x, rfl, rfl, Option.some.inj ((hty v x hx).symm.trans hv)⟩

/-- **One instruction.** Its code does what the interpreter does with it. -/
theorem instCode_run (hz : σ.Zero) (hbelow : ∀ v, (loc v).Below)
    (hin : ∀ v ∈ inst.id :: instUses inst.kind, m.Holds (loc v))
    (hplaced : ∀ v ∈ instUses inst.kind, ∀ x, env v = some x → σ.read (loc v) = word x)
    (hty : TypedEnv defs env) (hok : InstOk f defs b inst) (hphi : inst.kind.isPhi = false)
    (hcall : inst.kind.isCall = false) :
    (∃ x τ, execInst M callee env inst = .ok (env.insert inst.id x) ∧
      execAll m (instCode loc inst) σ = .ok τ ∧ Wrote (loc inst.id) (word x) σ τ) ∨
    (execInst M callee env inst = Comp.fail .divideByZero ∧
      execAll m (instCode loc inst) σ = .error .divideByZero) ∨
    ∃ p, execInst M callee env inst = .error (.panic p) := by
  have hdst : m.Holds (loc inst.id) := hin inst.id List.mem_cons_self
  unfold execInst instCode
  unfold InstOk at hok
  cases hk : inst.kind with
  | phi incoming => simp [hk, InstKind.isPhi] at hphi
  | call name args => simp [hk, InstKind.isCall] at hcall
  | constI64 n =>
    refine .inl ⟨.i64 n, _, rfl, compute_exec (v := n) ?_ hz hdst, wrote_write σ _ _⟩
    simp only [Instr.exec, BitVec.ofInt_toInt]
  | constBool p =>
    refine .inl ⟨.bool p, _, rfl, compute_exec (v := flag p) ?_ hz hdst, wrote_write σ _ _⟩
    cases p <;> rfl
  | bin op lhs rhs =>
    rw [hk] at hok hin hplaced
    have hl : m.Holds (loc lhs) := hin lhs (by simp [instUses])
    have hr : m.Holds (loc rhs) := hin rhs (by simp [instUses])
    rcases get_cases hty hok.1 with ⟨x, hx, hxenv, hxty⟩ | hx
    · rcases get_cases hty hok.2.1 with ⟨y, hy, hyenv, hyty⟩ | hy
      · -- the operands, each in a register
        -- `SCRATCH_2` is loaded after `SCRATCH_1`, and neither is the place of a value
        have hs₁ : Scratched σ (σ.loaded SCRATCH_1 (loc lhs)) := .loaded (.inl rfl) _
        generalize hσ₁ : σ.loaded SCRATCH_1 (loc lhs) = σ₁ at hs₁
        have hs₂ : Scratched σ₁ (σ₁.loaded SCRATCH_2 (loc rhs)) := .loaded (.inr rfl) _
        have hra : (σ₁.loaded SCRATCH_2 (loc rhs)).regs ((loc lhs).regOr SCRATCH_1) = word x := by
          rw [← hplaced lhs (by simp [instUses]) x hxenv, ← loaded_regOr σ SCRATCH_1, hσ₁]
          refine loaded_of_ne ?_
          have hb := hbelow lhs
          cases hll : loc lhs with
          | reg r =>
            rw [hll] at hb
            exact (ne_of_lt_gp hb).2.1
          | spill a => exact (by decide : SCRATCH_1 ≠ SCRATCH_2)
        have hrb : (σ₁.loaded SCRATCH_2 (loc rhs)).regs ((loc rhs).regOr SCRATCH_2) = word y := by
          rw [loaded_regOr, hs₁.read (hbelow rhs), hplaced rhs (by simp [instUses]) y hyenv]
        have hcode : ∀ code : List Instr, execAll m ((loc lhs).loadCode SCRATCH_1 ++
            ((loc rhs).loadCode SCRATCH_2 ++ code)) σ =
              execAll m code (σ₁.loaded SCRATCH_2 (loc rhs)) := fun code => by
          rw [execAll_append (hσ₁ ▸ loadCode_exec hz hl SCRATCH_1),
            execAll_append (loadCode_exec (hs₁.zero hz) hr SCRATCH_2)]
        have hz₂ := hs₂.zero (hs₁.zero hz)
        simp only [hx, hy, ok_bind, hcode]
        -- the operator has a value, or it divides by zero on both sides
        rcases binop_exec (m := m) hxty hyty ((loc inst.id).regOr SCRATCH_1) hra hrb with
          ⟨z, hz', hex⟩ | ⟨hdiv, hex⟩
        · rw [hz']
          exact .inl ⟨z, _, rfl, compute_exec hex hz₂ hdst,
            (hs₁.trans hs₂).wrote (wrote_write _ _ _)⟩
        · rw [hdiv]
          refine .inr (.inl ⟨rfl, ?_⟩)
          rw [execAll, List.foldlM_cons, hex]
          rfl
      · simp only [hx, hy, ok_bind, error_bind]
        exact .inr (.inr ⟨_, rfl⟩)
    · simp only [hx, error_bind]
      exact .inr (.inr ⟨_, rfl⟩)
  | un op operand =>
    rw [hk] at hok hin hplaced
    have ho : m.Holds (loc operand) := hin operand (by simp [instUses])
    rcases get_cases hty hok.1 with ⟨x, hx, hxenv, hxty⟩ | hx
    -- the operand, in a register
    · have hs : Scratched σ (σ.loaded SCRATCH_1 (loc operand)) := .loaded (.inl rfl) _
      have hra : (σ.loaded SCRATCH_1 (loc operand)).regs ((loc operand).regOr SCRATCH_1) = word x := by
        rw [loaded_regOr, hplaced operand (by simp [instUses]) x hxenv]
      have hcode : ∀ code : List Instr, execAll m ((loc operand).loadCode SCRATCH_1 ++ code) σ =
          execAll m code (σ.loaded SCRATCH_1 (loc operand)) := fun code =>
        execAll_append (loadCode_exec hz ho SCRATCH_1)
      left
      cases op with
      | neg =>
        obtain ⟨z, hz', hex⟩ := neg_exec (m := m) (hs.zero hz) hxty
          ((loc inst.id).regOr SCRATCH_1) hra
        simp only [hx, ok_bind, hcode, hz']
        exact ⟨z, _, rfl, compute_exec hex (hs.zero hz) hdst, hs.wrote (wrote_write _ _ _)⟩
      | not =>
        obtain ⟨z, hz', hex⟩ := not_exec (m := m) (hs.zero hz) hxty
          ((loc inst.id).regOr SCRATCH_1) hra
        simp only [hx, ok_bind, hcode, hz']
        exact ⟨z, _, rfl, compute_exec hex (hs.zero hz) hdst, hs.wrote (wrote_write _ _ _)⟩
    · simp only [hx, error_bind]
      exact .inr (.inr ⟨_, rfl⟩)

/-- The code that leaves a function puts its value into the result register. -/
theorem retCode_exec {l : Loc} (hz : σ.Zero) (hl : l.Below) (hin : m.Holds l) :
    ∃ τ, execAll m (retCode l) σ = .ok τ ∧ τ.regs RET_REG = σ.read l ∧ τ.mem = σ.mem ∧
      ∀ r, r ≠ SCRATCH_1 → r ≠ RET_REG → τ.regs r = σ.regs r := by
  have hs : Scratched σ (σ.loaded SCRATCH_1 l) := .loaded (.inl rfl) _
  have hne : l.regOr SCRATCH_1 ≠ RET_REG := by
    cases l with
    | reg r => exact (ne_of_lt_gp hl).2.2.1
    | spill a => exact (by decide : SCRATCH_1 ≠ RET_REG)
  refine ⟨(σ.loaded SCRATCH_1 l).setReg RET_REG (σ.read l), ?_, Cells.setReg_self, hs.mem,
    fun r h₁ h₂ => ?_⟩
  · have hmove : Instr.exec m ⟨.mov, RET_REG, l.regOr SCRATCH_1, 0, 0⟩ (σ.loaded SCRATCH_1 l) =
        .ok ((σ.loaded SCRATCH_1 l).setReg RET_REG (σ.read l)) := by
      simp only [Instr.exec, loaded_regOr]
    rw [retCode, execAll_append (loadCode_exec hz hin SCRATCH_1), if_pos hne, execAll_cons hmove]
    rfl
  · rw [Cells.setReg_of_ne h₂, loaded_of_ne h₁]

end Instructions

end Codegen
end Chakobsa
