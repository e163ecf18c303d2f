import Chakobsa.Ir.Progress
import Chakobsa.Codegen.EdgeRun

/-!
# Compiled modules do what the interpreter does

`callsCarriedOut` is the induction over the fuel of the interpreter: a block goes through its
instructions, whose calls have the fuel that is left, and on to the next block, which costs the
machine at least a step.

Called by the driver, a function of a compiled module ends as the interpreter ends, with the same
value or the same division by zero, unless the software stack runs into the end of the memory
(`compiled_run`). The other way round, however the machine ends, other than out of memory, the
interpreter ends as well, and with the same result (`compiled_only`).
-/

namespace Chakobsa
namespace Codegen

open Ir ExceptLemmas

/-! ### Blocks -/

/-- Following a terminator ends in an exit or in a panic. -/
theorem execTerminator_branch_cases (env : Env) (cond : ValueId) (t e : BlockId) :
    (∃ bit, env cond = some (.bool bit) ∧
      execTerminator env (.branch cond t e) = .ok (.goto (if bit then t else e))) ∨
    ∃ p, execTerminator env (.branch cond t e) = .error (.panic p) := by
  cases hx : env cond with
  | none => exact .inr ⟨.valueMissing, by simp [execTerminator, Env.get, hx]⟩
  | some x =>
    have hget : env.get cond = .ok x := Env.get_eq_ok.mpr hx
    cases x with
    | i64 v => exact .inr ⟨.asBool, by rw [execTerminator, hget]; rfl⟩
    | bool bit =>
      refine .inl ⟨bit, rfl, ?_⟩
      cases bit <;> simp [execTerminator, hget, RtValue.asBool]

section Loops

variable {M : Module} {c : CompiledModule} {lowered : List (String × Lowered)} {P : Program}
  {m : MemorySize} {k j n : ℕ} {f : Function} {defs : Defs} {l : Lowered} {liveness : Liveness}
  {b : BasicBlock} {ps : List PendingBlock} {st : LowerState} {temp : Temps} {env : Env}
  {b₀ r : ℕ} {calls : List ℕ} {σ : Cells} {s : State}

/-- **The terminator of a block**: on to the head of the next block, or back to the caller. -/
theorem term_run (hload : Loaded M c lowered P m) (hf : CompiledAs M lowered k f defs l liveness)
    (hB : CompiledBlock M k f l liveness j b ps) {term : Terminator} (hterm : b.terminator = some term)
    (hcode : TermCode f l.alloc ((k + 1) * FUNCTION_REGION_BYTES) b.id st term ps temp)
    (htemp : k * FUNCTION_REGION_BYTES + l.alloc.spills.length * 8 ≤ st.temp.next)
    (hpoint : AtPoint M k j st s)
    (hact : Activation l.alloc (Tracked liveness b b.instructions) env b₀ (r :: calls) s)
    (hkept : Kept M k b₀ σ s.cells) :
    (∃ target s', execTerminator env term = .ok (.goto target) ∧ LeadsOn (P.next m) s s' ∧
      Kept M k b₀ σ s'.cells ∧
      AtTarget M k f l.alloc liveness b.id target b₀ (r :: calls) env s') ∨
    (∃ v s', execTerminator env term = .ok (.done v) ∧ Leads (P.next m) s s' ∧
      Returned M k b₀ r calls σ v s') ∨
    ∃ p, execTerminator env term = .error (.panic p) := by
  cases hcode with
  | jump edge =>
    obtain ⟨s', hleads, hk, htarget⟩ :=
      jump_leads hload hf hB hterm edge htemp (by simp) hpoint hact
    exact .inl ⟨_, s', rfl, hleads, hkept.trans hk, htarget⟩
  | branch located else' then' =>
    rcases execTerminator_branch_cases env _ _ _ with ⟨bit, hbit, hexec⟩ | ⟨p, hp⟩
    · obtain ⟨s', hleads, hk, htarget⟩ := branch_leads hload hf hB hterm located else' then' htemp
        (by simp) (by simp) hpoint hact hbit
      exact .inl ⟨_, s', hexec, hleads, hkept.trans hk, htarget⟩
    · exact .inr (.inr ⟨p, hp⟩)
  | retNone =>
    obtain ⟨s', hleads, hret⟩ := retNone_leads hload hf hB (by simp) hpoint hact hkept
    exact .inr (.inl ⟨none, s', rfl, hleads, hret⟩)
  | ret located =>
    rename_i v
    cases hx : env v with
    | none => exact .inr (.inr ⟨.valueMissing, by simp [execTerminator, Env.get, hx]⟩)
    | some x =>
      have hget : env.get v = .ok x := Env.get_eq_ok.mpr hx
      obtain ⟨s', hleads, hret⟩ :=
        ret_leads hload hf hB hterm located (by simp) hpoint hact hkept hx
      exact .inr (.inl ⟨some x, s', by simp [execTerminator, hget], hleads, hret⟩)

/-- From the head of every block, the interpreter's loop with `n` units of fuel is carried out. -/
def LoopsCarriedOut (M : Module) (lowered : List (String × Lowered)) (P : Program) (m : MemorySize)
    (n : ℕ) : Prop :=
  ∀ (k : ℕ) (f : Function) (defs : Defs) (l : Lowered) (liveness : Liveness),
    CompiledAs M lowered k f defs l liveness →
    ∀ (j : ℕ) (b : BasicBlock) (cameFrom : Option BlockId) (env : Env) (b₀ r : ℕ) (calls : List ℕ)
      (σ : Cells) (s : State), f.blocks[j]? = some b →
      AtHead M k j l.alloc liveness b cameFrom b₀ (r :: calls) env s → TypedEnv defs env →
      Kept M k b₀ σ s.cells → STACK_BASE ≤ b₀ → b₀ ≤ m.bytes →
        CarriesOut (P.next m) Shows (OutOfStack m (b₀ + FRAME_BYTES * n)) n s
          (loop M n f b.id cameFrom env) (Returned M k b₀ r calls σ)

/-- Without a predecessor no phi has a value. -/
theorem phiResults_none {insts : List Instruction} {rs : List (ValueId × RtValue)}
    (h : phiResults env none insts = .ok rs) : rs = [] := by
  have hids := phiResults_ids h
  have hnone : insts.filter (·.kind.isPhi) = [] := by
    refine List.filter_eq_nil_iff.mpr fun i hi hphi => ?_
    obtain ⟨incoming, hk⟩ := InstKind.isPhi_iff.mp hphi
    obtain ⟨x, hx, -⟩ := phiResults_mem h hi hk
    cases hx
  rw [hnone] at hids
  exact List.map_eq_nil_iff.mp hids

/-- A function starts at the head of its entry block, with the parameters in their registers. -/
theorem Invoked.atHead (hload : Loaded M c lowered P m)
    (hf : CompiledAs M lowered k f defs l liveness) {xs : List RtValue} (hxs : TypedArgs f xs)
    (hinv : Invoked M k xs b₀ r calls s) :
    ∃ b, f.blocks[0]? = some b ∧ b.id = f.entry ∧
      AtHead M k 0 l.alloc liveness b none b₀ (r :: calls) (Env.ofArgs xs) s := by
  obtain ⟨b, hb, hid⟩ := hload.compilable.entry f hf.mem
  refine ⟨b, hb, hid, hinv.block, hinv.index, fun rs hrs => ?_⟩
  obtain rfl := phiResults_none hrs
  refine ⟨hinv.zero, hinv.pointer, hinv.calls, fun v _ x hx => ?_⟩
  have hx' : xs[v]? = some x := hx
  have hlt : v < f.params.length := hxs.length ▸ (List.getElem?_eq_some_iff.mp hx').1
  have hloc : l.alloc.loc v = .reg v := by rw [Allocation.loc, hf.prepared.sound.param v hlt]
  rw [hloc]
  exact hinv.args v x hx'

/-- A call goes through the loop from the entry block. -/
theorem callsCarriedOut_of_loops (hload : Loaded M c lowered P m)
    (hloops : LoopsCarriedOut M lowered P m n) : CallsCarriedOut M P m n := by
  intro k g xs b₀ r calls s hg hxs hinv hbase hb₀
  obtain ⟨defs, l, liveness, hf⟩ := hload.function hg
  obtain ⟨b, hb, hid, hhead⟩ := hinv.atHead hload hf hxs
  rw [callWith, if_neg (not_not.mpr hxs.length), ← hid]
  exact hloops k g defs l liveness hf 0 b none (Env.ofArgs xs) b₀ r calls s.cells s hb hhead
    (TypedEnv.ofArgs hf.prepared.valid.collect hxs) (.refl _) hbase hb₀

/-- One block, and whatever follows it with the fuel that is left. -/
theorem LoopsCarriedOut.succ (hload : Loaded M c lowered P m)
    (hloops : LoopsCarriedOut M lowered P m n) : LoopsCarriedOut M lowered P m (n + 1) := by
  intro k f defs l liveness hf j b cameFrom env b₀ r calls σ s hb hhead hty hkept hbase hb₀
  obtain ⟨ps, hB⟩ := hf.block hb
  obtain ⟨t, t', ht, hlow⟩ := hB.lowered
  obtain ⟨st, term, hsteps, hterm, hcode⟩ := lowerBlock_ok hlow
  have hnext : t.next ≤ st.temp.next := by
    rw [lowerSteps_next hsteps]
    exact Nat.le_add_right _ _
  have hblock : f.block b.id = some b := Function.block_of_mem hf.prepared.valid.nodup hB.mem
  simp only [loop, hblock, Comp.expect_some, ok_bind]
  rcases phiResults_cases env cameFrom b.instructions with ⟨rs, hrs⟩ | ⟨p, hp⟩
  swap
  · rw [hp]
    exact .panic p
  have hphis := phiResults_sound hf.prepared.valid hB.mem hty cameFrom b.instructions fun i hi => hi
  rw [hrs] at hphis
  rw [hrs, ok_bind]
  refine CarriesOut.bind (insts_carriedOut hload hf hB (List.nil_append _).symm hsteps ht hcode.before
    ⟨hhead.block, hhead.index⟩ (hhead.act rs hrs) (hty.insertAll hphis) hbase hb₀
    (callsCarriedOut_of_loops hload hloops)) fun env' s' _ hreached => ?_
  obtain ⟨hr, hty'⟩ := hreached
  rw [hterm, Comp.expect_some, ok_bind]
  rcases term_run hload hf hB hterm hcode (ht.trans hnext) hr.point hr.act (hkept.trans hr.kept) with
    ⟨target, s₁, hexec, hleads, hkept₁, j', blk, hblk, rfl, hhead₁⟩ | ⟨v, s₁, hexec, hleads, hret⟩ | ⟨p, hp⟩
  · -- the step to the next block pays for its unit of fuel
    rw [hexec, ok_bind]
    refine .of_leadsOn hleads ((hloops k f defs l liveness hf j' blk (some b.id) env' b₀ r calls σ s₁ hblk
      hhead₁ hty' hkept₁ hbase hb₀).mono_gaveUp (OutOfStack.mono ?_))
    rw [Nat.mul_add_one FRAME_BYTES]
    omega
  · rw [hexec, ok_bind]
    exact .of_leads hleads (.ok hret)
  · rw [hp]
    exact .panic p

/-- **Calls are carried out**, with any fuel. -/
theorem callsCarriedOut (hload : Loaded M c lowered P m) (n : ℕ) : CallsCarriedOut M P m n := by
  refine callsCarriedOut_of_loops hload ?_
  induction n with
  | zero =>
    intro k f defs l liveness hf j b cameFrom env b₀ r calls σ s hb hhead hty hkept hbase hb₀
    exact .outOfFuel
  | succ n ih => exact ih.succ hload

end Loops

/-! ### The driver -/

section Driver

variable {M : Module} {c : CompiledModule} {m : MemorySize} {σ : Cells} {k n : ℕ}

/-- Constants loaded into consecutive registers. -/
theorem loads_exec (m : MemorySize) (args : List ℤ) (o : ℕ) (σ : Cells) :
    ∃ τ, execAll m (args.mapIdx fun i v => Instr.mk .loadI (o + i) 0 0 (asI32 v)) σ = .ok τ ∧
      (∀ (i : ℕ) (v : ℤ), args[i]? = some v → τ.regs (o + i) = BitVec.ofInt 64 (asI32 v)) ∧
      ∀ r, r < o ∨ o + args.length ≤ r → τ.regs r = σ.regs r := by
  induction args generalizing o σ with
  | nil => exact ⟨σ, rfl, by simp, fun _ _ => rfl⟩
  | cons a args ih =>
    obtain ⟨τ, hτ, hvals, hother⟩ := ih (o + 1) (σ.setReg o (BitVec.ofInt 64 (asI32 a)))
    have hfirst : Instr.exec m ⟨.loadI, o, 0, 0, asI32 a⟩ σ = .ok (σ.setReg o (BitVec.ofInt 64 (asI32 a))) := rfl
    have hshift : (fun i v => Instr.mk .loadI (o + (i + 1)) 0 0 (asI32 v)) =
        fun i v => Instr.mk .loadI (o + 1 + i) 0 0 (asI32 v) := by
      funext i v
      rw [Nat.add_assoc, Nat.add_comm 1]
    refine ⟨τ, ?_, fun i v hi => ?_, fun r hr => ?_⟩
    · rw [List.mapIdx_cons, hshift]
      exact (execAll_cons hfirst).trans hτ
    · cases i with
      | zero =>
        obtain rfl : a = v := by simpa using hi
        rw [Nat.add_zero, hother o (.inl (Nat.lt_succ_self o))]
        exact Cells.setReg_self
      | succ i =>
        have hi' : args[i]? = some v := by simpa using hi
        have := hvals i v hi'
        rwa [Nat.add_right_comm] at this
    · rw [List.length_cons] at hr
      rw [hother r (by omega)]
      exact Cells.setReg_of_ne (by omega)

/-- The instructions of a driver in front of the call: the stack pointer is set to the bottom of the
stack, and argument `i` is loaded into register `i`, as an immediate. -/
def driverCode (args : List RtValue) : List Instr :=
  ⟨.loadI, STACK_PTR, 0, 0, STACK_BASE⟩ ::
    (args.map fun x => (word x).toInt).mapIdx fun i v => ⟨.loadI, i, 0, 0, asI32 v⟩

/-- The argument fits in an immediate. -/
def FitsI32 (x : RtValue) : Prop := -2 ^ 31 ≤ (word x).toInt ∧ (word x).toInt < 2 ^ 31

instance (x : RtValue) : Decidable (FitsI32 x) := inferInstanceAs (Decidable (_ ∧ _))

/-- The program has the compiled one in it, and starts with a block that calls the function at the
given entry, followed by one that halts. A driver has immediates for its arguments only. -/
structure Drives (c : CompiledModule) (P : Program) (entry : ℕ) (args : List RtValue) : Prop where
  program : c.program.blocks <+: P.blocks
  fits : ∀ x ∈ args, FitsI32 x
  call : ∃ blk, P.blocks[P.entry]? = some blk ∧
    blk.instructions = driverCode args ++ [⟨.call, 0, 0, 0, (entry : ℤ)⟩]
  halt : ∃ blk, P.blocks[P.entry + 1]? = some blk ∧ blk.instructions = [⟨.halt, 0, 0, 0, 0⟩]

/-- The machine before the first instruction. -/
def Program.boot (P : Program) (σ : Cells) : State := ⟨σ, P.entry, 0, []⟩

/-- The driver of the tests is one, where the arguments fit. -/
theorem CompiledModule.driver_is (c : CompiledModule) (entry : ℕ) {args : List RtValue}
    (hfits : ∀ x ∈ args, FitsI32 x) :
    Drives c (c.driver entry (args.map fun x => (word x).toInt)) entry args := by
  refine ⟨List.prefix_append _ _, hfits,
    ⟨⟨"driver_call", driverCode args ++ [⟨.call, 0, 0, 0, (entry : ℤ)⟩]⟩, ?_, rfl⟩,
    ⟨⟨"driver_halt", [⟨.halt, 0, 0, 0, 0⟩]⟩, ?_, rfl⟩⟩
  · exact List.getElem?_append_right (Nat.le_refl _) |>.trans (by simp [driverCode])
  · exact List.getElem?_append_right (Nat.le_succ _) |>.trans (by simp)

/-- A driver calls its function with the arguments in the argument registers. -/
theorem Drives.invokes {P : Program} {xs : List RtValue} (hP : Drives c P (start M k 0) xs)
    (m : MemorySize) (hz : σ.Zero) (hlen : xs.length ≤ NUM_GP_REGS) :
    ∃ s, LeadsOn (P.next m) (P.boot σ) s ∧ Invoked M k xs STACK_BASE (P.entry + 1) [] s := by
  obtain ⟨blk, hblk, hinstrs⟩ := hP.call
  have hat : AtCode P (P.boot σ) (driverCode xs ++ []) ⟨.call, 0, 0, 0, (start M k 0 : ℤ)⟩ :=
    ⟨blk, hblk, by rw [List.append_nil]; exact hinstrs⟩
  have hplain : ∀ i ∈ driverCode xs, i.op.isControl = false := fun i hi => by
    rcases List.mem_cons.mp hi with rfl | hi
    · rfl
    · obtain ⟨j, hj, rfl⟩ := List.mem_mapIdx.mp hi
      rfl
  obtain ⟨τ, hτ, hvals, hother⟩ := loads_exec m (xs.map fun x => (word x).toInt) 0
    (σ.setReg STACK_PTR (BitVec.ofInt 64 STACK_BASE))
  simp only [Nat.zero_add] at hτ hvals hother
  have hall : execAll m (driverCode xs) σ = .ok τ := (execAll_cons rfl).trans hτ
  have hhigh : ∀ r, NUM_GP_REGS ≤ r → τ.regs r =
      (σ.setReg STACK_PTR (BitVec.ofInt 64 STACK_BASE)).regs r := fun r hr =>
    hother r (.inr (by rw [List.length_map]; omega))
  refine ⟨_, .tail' (hat.leads hplain hall) (hat.behind τ).next_call, rfl, rfl, ?_, ?_, rfl,
    fun i x hi => ?_⟩
  · show τ.regs ZERO_REG = 0
    rw [hhigh ZERO_REG (by decide), Cells.setReg_of_ne (by decide)]
    exact hz
  · show (τ.regs STACK_PTR).toInt = STACK_BASE
    rw [hhigh STACK_PTR (by decide), Cells.setReg_self]
    exact toInt_ofInt_of_lt (by decide)
  · show τ.regs i = word x
    -- the immediate is the argument itself
    obtain ⟨hlo, hhi⟩ := hP.fits x (List.mem_of_getElem? hi)
    rw [hvals i (word x).toInt (by rw [List.getElem?_map, hi]; rfl), asI32_eq hlo hhi]
    exact BitVec.ofInt_toInt

end Driver

/-! ### Compiler correctness -/

/-- The machine ends as the interpreter does: with the same value, the result register being of no
interest where there is none, or with the same error. -/
inductive Agrees : InterpM (Option RtValue) → Result → Prop where
  | value (x : RtValue) : Agrees (.ok (some x)) (.value (word x))
  | void (w : I64) : Agrees (.ok none) (.value w)
  | divideByZero : Agrees (.error (.err .divideByZero)) (.trap .divideByZero)

section Correctness

variable {M : Module} {c : CompiledModule} (hM : Compilable M) (hc : compileModule M = .ok c)
  {f : Function} (hf : f ∈ M.functions) {entry : ℕ} (hentry : c.entryOf f.name = some entry)
  {xs : List RtValue} (hxs : TypedArgs f xs) {P : Program} (hP : Drives c P entry xs)
  {m : MemorySize} (hm : STACK_BASE ≤ m.bytes) {σ : Cells} (hz : σ.Zero)
include hM hc hf hentry hxs hP hm hz

/-- The driver starts the function. -/
theorem driver_enters : ∃ lowered k, M.functions[k]? = some f ∧ Loaded M c lowered P m ∧
    ∃ s, LeadsOn (P.next m) (P.boot σ) s ∧ Invoked M k xs STACK_BASE (P.entry + 1) [] s := by
  obtain ⟨lowered, hlayout⟩ := compileModule_ok hc
  obtain ⟨k, hk⟩ := List.mem_iff_getElem?.mp hf
  obtain rfl : entry = start M k 0 := by
    have hstart := Pass1.moduleEntry hlayout.pass1 hM.names hk
    rw [CompiledModule.entryOf, hlayout.entry, hstart] at hentry
    exact (Option.some.inj hentry).symm
  have hload : Loaded M c lowered P m := ⟨hM, hlayout, hP.program, hm⟩
  obtain ⟨defs, l, liveness, hfk⟩ := hload.function hk
  have hlen : xs.length ≤ NUM_GP_REGS := hxs.length ▸ (allocate_ok hfk.low.alloc).1
  exact ⟨lowered, k, hk, hload, hP.invokes m hz hlen⟩

/-- It carries out the run. -/
theorem driver_carriedOut (n : ℕ) :
    CarriesOut (P.next m) Shows (OutOfStack m (STACK_BASE + FRAME_BYTES * n)) n (P.boot σ)
      (run M n f.name xs) fun v s =>
        ∃ w, P.next m s = .inr (.value w) ∧ ∀ x, v = some x → w = word x := by
  obtain ⟨lowered, k, hk, hload, s, hleads, hinv⟩ := driver_enters hM hc hf hentry hxs hP hm hz
  have hrun : run M n f.name xs = callWith (loop M n) f xs := by
    rw [run, Module.function_of_mem hM.names hf]
    rfl
  rw [hrun]
  refine .of_leads hleads.to_reflTransGen ?_
  refine (callsCarriedOut hload n k f xs STACK_BASE _ [] s hk hxs hinv (Nat.le_refl _) hm).mono
    fun v s' _ hret => ⟨s'.cells.regs RET_REG, ?_, hret.value⟩
  -- the block behind the call halts
  obtain ⟨blk, hblk, hinstrs⟩ := hP.halt
  have hat : AtCode P s' [] ⟨.halt, 0, 0, 0, 0⟩ :=
    ⟨blk, by rw [hret.block]; exact hblk, by rw [hret.index, hinstrs]; rfl⟩
  exact hat.next_halt

/-- If the interpreter ends after `n` units of fuel, and not in a panic, the machine ends as well, in
the same way, unless its memory ends less than `n` frames behind the bottom of the stack. -/
theorem compiled_run {n : ℕ} {r : InterpM (Option RtValue)} (hr : run M n f.name xs = r)
    (hend : r ≠ .error .outOfFuel) (hpanic : ∀ p, r ≠ .error (.panic p)) :
    ∃ res, Finishes (P.next m) (P.boot σ) res ∧
      (Agrees r res ∨ res = .trap .outOfBounds ∧ m.bytes < STACK_BASE + FRAME_BYTES * n) := by
  have h := driver_carriedOut hM hc hf hentry hxs hP hm hz n
  rw [hr] at h
  rcases h with ⟨res, hres, hout⟩ | h
  · exact ⟨res, hres, .inr hout⟩
  · cases r with
    | ok v =>
      obtain ⟨s, hleads, w, hw, hval⟩ := h
      refine ⟨.value w, ⟨s, hleads, hw⟩, .inl ?_⟩
      cases v with
      | none => exact .void w
      | some x =>
        rw [hval x rfl]
        exact .value x
    | error e =>
      cases e with
      | err e =>
        obtain ⟨res, hres, rfl, rfl⟩ := h
        exact ⟨_, hres, .inl .divideByZero⟩
      | panic p => exact absurd rfl (hpanic p)
      | outOfFuel => exact absurd rfl hend

/-- If the machine ends, and not for want of memory, the interpreter ends as well, in the same way,
where it does not panic. -/
theorem compiled_only (hpanic : ∀ n p, run M n f.name xs ≠ .error (.panic p)) {res : Result}
    (hres : Finishes (P.next m) (P.boot σ) res)
    (hmem : res ≠ .trap .outOfBounds) : ∃ r, Runs M f.name xs r ∧ Agrees r res := by
  obtain ⟨n, ⟨v, s, hok, hleads, w, hw, hval⟩ | ⟨e, herr, rfl, rfl⟩⟩ :=
    CarriesOut.converse (driver_carriedOut hM hc hf hentry hxs hP hm hz) hres
      (fun _ hout => hmem hout.1) hpanic
  · obtain rfl : res = .value w := hres.unique ⟨s, hleads, hw⟩
    refine ⟨.ok v, ⟨by simp, n, hok⟩, ?_⟩
    cases v with
    | none => exact .void w
    | some x =>
      rw [hval x rfl]
      exact .value x
  · exact ⟨_, ⟨by simp, n, herr⟩, .divideByZero⟩

/-- **Compiled code does what the interpreter does, and nothing else.** Where the interpreter ends
after `n` units of fuel the machine ends in the same way, in a panic never, unless its memory ends
less than `n` frames behind the bottom of the stack. And where the machine ends, not for want of
memory, so does the interpreter. -/
theorem compiled_correct (hssa : ∀ f ∈ M.functions, f.Ssa) :
    (∀ n, run M n f.name xs ≠ .error .outOfFuel → ∃ res, Finishes (P.next m) (P.boot σ) res ∧
      (Agrees (run M n f.name xs) res ∨
        res = .trap .outOfBounds ∧ m.bytes < STACK_BASE + FRAME_BYTES * n)) ∧
    ∀ res, Finishes (P.next m) (P.boot σ) res → res ≠ .trap .outOfBounds →
      ∃ r, Runs M f.name xs r ∧ Agrees r res := by
  have hpanic : ∀ n p, run M n f.name xs ≠ .error (.panic p) := fun n p => by
    rw [run, Module.function_of_mem hM.names hf]
    exact call_progress hM.valid hM.names hssa hf hxs n p
  exact ⟨fun n hend => compiled_run hM hc hf hentry hxs hP hm hz rfl hend (hpanic n),
    fun res hres hmem => compiled_only hM hc hf hentry hxs hP hm hz hpanic hres hmem⟩

end Correctness

/-- No function spills anything. -/
def Unspilled (M : Module) : Prop :=
  ∀ p ∈ M.functions.zipIdx, Except.map Allocation.spills
    (allocate p.1 (p.2 * FUNCTION_REGION_BYTES) (reservedArgRegisters M)) = .ok []

instance (M : Module) : Decidable (Unspilled M) := inferInstanceAs (Decidable (∀ p ∈ _, _))

theorem Unspilled.spills {M : Module} (h : Unspilled M) {k : ℕ} {f : Function} {alloc : Allocation}
    (hf : M.functions[k]? = some f)
    (halloc : allocate f (k * FUNCTION_REGION_BYTES) (reservedArgRegisters M) = .ok alloc) :
    alloc.spills = [] := by
  have hnone := h (f, k) (List.mem_zipIdx_iff_getElem?.mpr hf)
  rw [halloc] at hnone
  exact Except.ok.inj hnone

theorem Unspilled.inside {M : Module} (h : Unspilled M) : SpillsInside M := by
  intro k f alloc hf halloc a ha
  rw [h.spills hf halloc] at ha
  cases ha

theorem countModule_compilable : Compilable countModule := by
  have hunspilled : Unspilled countModule := by decide +kernel
  -- the targets of the branches
  have hnophi : ∀ f ∈ countModule.functions, ∀ b ∈ f.blocks, b.successors.length = 2 →
      ∀ s ∈ b.successors, ∀ blk ∈ f.blocks, blk.id = s →
        ∀ i ∈ blk.instructions, i.kind.isPhi = false := by decide +kernel
  refine ⟨rfl, by decide, by decide, fun f hf b hb c t e hterm => ?_, hunspilled.inside,
    fun k f alloc hf _ halloc => hunspilled.spills hf halloc⟩
  · have hsucc : b.successors = [t, e] := by simp [BasicBlock.successors, hterm, Terminator.successors]
    have hno : ∀ s ∈ b.successors, ¬ HasPhi f s := by
      rintro s hs ⟨blk, hblk, i, hi, hphi⟩
      obtain ⟨hmem, hid⟩ := Function.block_some hblk
      rw [hnophi f hf b hb (by rw [hsucc]; rfl) s hs blk hmem hid i hi] at hphi
      cases hphi
    exact ⟨hno t (by simp [hsucc]), hno e (by simp [hsucc])⟩

theorem countModule_ssa : ∀ f ∈ countModule.functions, f.Ssa := by
  intro f hf
  have h : f = countModule.functions[0] ∨ f = countModule.functions[1] := by
    simpa [countModule] using hf
  obtain rfl | rfl := h
  · refine .of_dominators (fun b => if b ≤ 1 then List.range (b + 1) else [0, 1, b]) ?_ ?_ ?_ ?_ ?_ <;>
      decide
  · refine .of_dominators (fun b => if b = 0 then [0] else [0, b]) ?_ ?_ ?_ ?_ ?_ <;> decide

theorem compiled_correct_countModule : ∃ c entry, compileModule countModule = .ok c ∧
    c.entryOf "main" = some entry ∧
    Finishes ((c.driver entry [3]).next ⟨0x100000, by decide⟩)
      ((c.driver entry [3]).boot ⟨fun _ => 0, fun _ => 0⟩) (.value 3) := by
  obtain ⟨c, hc⟩ : ∃ c, compileModule countModule = .ok c := exists_of_isSome (by decide +kernel)
  obtain ⟨entry, hentry⟩ : ∃ entry, c.entryOf "main" = some entry := by
    obtain ⟨lowered, h⟩ := compileModule_ok hc
    refine ⟨start countModule 1 0, ?_⟩
    rw [CompiledModule.entryOf, h.entry]
    exact Pass1.moduleEntry (k := 1) h.pass1 (by decide) rfl
  refine ⟨c, entry, hc, hentry, ?_⟩
  have hrun : run countModule 10 "main" [.i64 3] = .ok (some (.i64 3)) := by decide +kernel
  obtain ⟨hforward, -⟩ := compiled_correct (f := countModule.functions[1])
    countModule_compilable hc (by decide) hentry (show TypedArgs countModule.functions[1] [.i64 3] from rfl)
    (c.driver_is entry (by decide))
    (m := ⟨0x100000, by decide⟩) (by decide) (σ := ⟨fun _ => 0, fun _ => 0⟩) rfl countModule_ssa
  have hname : countModule.functions[1].name = "main" := rfl
  obtain ⟨res, hres, hagrees | ⟨-, hsmall⟩⟩ := hforward 10 (by rw [hname, hrun]; simp)
  · rw [hname, hrun] at hagrees
    cases hagrees
    exact hres
  · exact absurd hsmall (by decide)

end Codegen
end Chakobsa
