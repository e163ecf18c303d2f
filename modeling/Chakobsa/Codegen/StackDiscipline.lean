import Chakobsa.Codegen.FrameLowering

/-!
# The software stack and the zero register

A driver sets the stack pointer to the bottom of the software stack and calls a function of the
compiled program. From then on, and until that function returns, `ZERO_REG` is zero; every function
leaves the stack pointer as it found it; and nothing is stored between the bottom of the stack and the
stack pointer that a function found, until it returns (`stackDiscipline`). That is for any run,
whatever it calls and however often, as long as the slots of spilled values are below the stack.
-/

namespace Chakobsa
namespace Codegen

open Ir ExceptLemmas Chakobsa.Comp

/-- The slots of the values that a function spills lie in the function's own region. -/
def SpillsInside (M : Module) : Prop :=
  ∀ i f alloc, M.functions[i]? = some f →
    allocate f (i * FUNCTION_REGION_BYTES) (reservedArgRegisters M) = .ok alloc →
      ∀ a ∈ alloc.spills.map Prod.snd,
        i * FUNCTION_REGION_BYTES ≤ a ∧ a + 8 ≤ (i + 1) * FUNCTION_REGION_BYTES

/-- The driver of `crates/codegen/tests/programs.rs`: behind the compiled program a block that sets
the stack pointer, loads the arguments, as `i32`, and calls the function at `entry`, and one that
halts. -/
def CompiledModule.driver (c : CompiledModule) (entry : ℕ) (args : List ℤ) : Program where
  blocks := c.program.blocks ++
    [⟨"driver_call", ⟨.loadI, STACK_PTR, 0, 0, STACK_BASE⟩ ::
      args.mapIdx (fun i v => ⟨.loadI, i, 0, 0, asI32 v⟩) ++ [⟨.call, 0, 0, 0, entry⟩]⟩,
     ⟨"driver_halt", [⟨.halt, 0, 0, 0, 0⟩]⟩]
  entry := c.program.blocks.length

/-- A driver has called a function of the compiled program, with the stack pointer at the bottom of
the stack. The machine starts with zero in every register. -/
structure Driven (c : CompiledModule) (P : Program) (s : State) : Prop where
  /-- The blocks of the driver stand behind those of the program. -/
  program : c.program.blocks <+: P.blocks
  function : ∃ name, c.entryOf name = some s.block
  first : s.index = 0
  zero : s.cells.regs ZERO_REG = 0
  stack : s.cells.regs STACK_PTR = BitVec.ofNat 64 STACK_BASE

/-- The discipline, in the run from `s₀`. -/
structure StackDiscipline (P : Program) (m : MemorySize) (s₀ : State) : Prop where
  /-- `ZERO_REG` is zero at every step. -/
  zero : ∀ s, P.Within m s₀ s → s.cells.regs ZERO_REG = 0
  /-- At its `Ret` a function has the stack pointer it had at its entry. -/
  balanced : ∀ s₁ s i, P.Invocation m s₀ s₁ → P.Within m s₁ s → s.calls = s₁.calls →
    P.instrAt s = some i → i.op = .ret → s.cells.regs STACK_PTR = s₁.cells.regs STACK_PTR
  /-- Until it returns no store touches what is on the stack at its entry. -/
  untouched : ∀ s₁ s i, P.Invocation m s₀ s₁ → P.Within m s₁ s → P.instrAt s = some i →
    i.op = .store → s.cells.address i.a i.imm + 8 ≤ STACK_BASE ∨
      (s₁.cells.regs STACK_PTR).toInt ≤ s.cells.address i.a i.imm

section Run

variable {P : Program} {m : MemorySize} {enters : ℕ → ℕ → Prop} {b₁ : ℕ} {calls₁ : List ℕ}
  {s s₁ : State} {outer : List ℕ} {b : ℕ} {F F' : Frame} {code : List Instr} {t i : Instr}

/-- The instruction the machine is at is the next one of the code, or the block's terminator. -/
theorem Running.instr (h : Running P m enters b₁ calls₁ s outer b F F' code t)
    (hi : P.instrAt s = some i) :
    (∃ F₁, F.Step i F₁ ∧ ∀ a, i.absolute = some a → a + 8 ≤ STACK_BASE) ∨
      Departs enters s.block F.offset i := by
  have hhere := h.here
  have hbelow := h.below
  have hdep := h.departs
  cases h.steps with
  | nil =>
    rw [hhere.instrAt_nil] at hi
    exact .inr (Option.some.inj hi ▸ hdep)
  | cons hstep hrest =>
    rw [hhere.instrAt_cons] at hi
    obtain rfl := Option.some.inj hi
    refine .inl ⟨_, hstep, fun a ha => hbelow a ?_⟩
    exact List.mem_filterMap.mpr ⟨_, List.mem_cons_self, ha⟩

/-- At the `Ret` of the invocation the stack pointer is where it was. -/
theorem Running.ret (h : Running P m enters b₁ calls₁ s outer b F F' code t)
    (hcalls : s.calls = calls₁) (hi : P.instrAt s = some i) (hop : i.op = .ret) :
    (s.cells.regs STACK_PTR).toInt = b₁ := by
  have hout : outer = [] := List.append_left_eq_self.mp (h.calls.symm.trans hcalls)
  subst hout
  rcases h.instr hi with ⟨F₁, hstep, -⟩ | hdep
  · have := hstep.not_control
    rw [hop] at this
    cases this
  · have hptr := h.holds.pointer
    cases h.callers
    generalize hoff : F.offset = o at hdep hptr
    cases hdep with
    | ret => exact hptr
    | _ => cases hop

/-- A store of the invocation goes below the stack or above the invocation's stack pointer. -/
theorem Running.store (h : Running P m enters b₁ calls₁ s outer b F F' code t)
    (hi : P.instrAt s = some i) (hop : i.op = .store) :
    s.cells.address i.a i.imm + 8 ≤ STACK_BASE ∨ (b₁ : ℤ) ≤ s.cells.address i.a i.imm := by
  rcases h.instr hi with ⟨F₁, hstep, hbelow⟩ | hdep
  · refine (hstep.store_address hop h.holds).imp (hbelow _) fun hge => ?_
    exact Int.le_trans (Int.ofNat_le.mpr h.callers.le) hge
  · generalize F.offset = o at hdep
    cases hdep <;> cases hop

/-- A call starts an invocation. -/
theorem Running.call (ht : FrameTyped P enters)
    (h : Running P m enters b₁ calls₁ s outer b F F' code t) (hi : P.instrAt s = some i)
    (hop : i.op = .call) (hstep : P.step m s = .running s₁) :
    ∃ b₂ : ℕ, (s₁.cells.regs STACK_PTR).toInt = b₂ ∧
      ∃ outer b F F' code t, Running P m enters b₂ s₁.calls s₁ outer b F F' code t := by
  rcases h.instr hi with ⟨F₁, hcode, -⟩ | hdep
  · have := hcode.not_control
    rw [hop] at this
    cases this
  · have hF := h.holds.enter
    have hptr := h.holds.pointer
    generalize F.offset = o at hdep hF hptr
    cases hdep with
    | @call k o target back =>
      simp only [Program.step, hi] at hstep
      obtain rfl := Outcome.running.inj hstep
      exact ⟨b + o, hptr, [], b + o, _, ht.running target rfl rfl .nil hF⟩
    | _ => cases hop

/-- Every invocation of a run runs inside itself. -/
theorem FrameTyped.invocation (ht : FrameTyped P enters) {s₀ : State} {b₀ : ℕ}
    (hptr : (s₀.cells.regs STACK_PTR).toInt = b₀)
    (h : ∃ outer b F F' code t, Running P m enters b₀ s₀.calls s₀ outer b F F' code t)
    (hs : P.Invocation m s₀ s₁) :
    ∃ b₁ : ℕ, (s₁.cells.regs STACK_PTR).toInt = b₁ ∧
      ∃ outer b F F' code t, Running P m enters b₁ s₁.calls s₁ outer b F F' code t := by
  cases hs with
  | entry => exact ⟨b₀, hptr, h⟩
  | call hwithin hi hop hstep =>
    obtain ⟨outer, b, F, F', code, t, hrun⟩ := Running.within ht h hwithin
    exact hrun.call ht hi hop hstep

/-- A program whose blocks agree on the stack pointer keeps the discipline. -/
theorem FrameTyped.discipline (ht : FrameTyped P enters) {s₀ : State}
    (hblock : enters s₀.block 0) (hidx : s₀.index = 0) (hz : s₀.cells.regs ZERO_REG = 0)
    (hptr : s₀.cells.regs STACK_PTR = BitVec.ofNat 64 STACK_BASE) : StackDiscipline P m s₀ := by
  have hbase : (s₀.cells.regs STACK_PTR).toInt = (STACK_BASE : ℕ) := by
    rw [hptr]
    decide
  have hF : (Frame.ofOffset 0).Holds m STACK_BASE s₀.cells :=
    ⟨hz, hbase, fun n hn => (nomatch hn), Nat.le_refl _, Nat.le_max_right _ _⟩
  have hrun : ∃ outer b F F' code t,
      Running P m enters STACK_BASE s₀.calls s₀ outer b F F' code t :=
    ⟨[], STACK_BASE, _, ht.running hblock hidx rfl .nil hF⟩
  refine ⟨fun s hs => ?_, fun s₁ s i hinv hs hcalls hi hop => ?_, fun s₁ s i hinv hs hi hop => ?_⟩
  · obtain ⟨outer, b, F, F', code, t, h⟩ := Running.within ht hrun hs
    exact h.holds.zero
  · obtain ⟨b₁, hb₁, h₁⟩ := ht.invocation hbase hrun hinv
    obtain ⟨outer, b, F, F', code, t, h⟩ := Running.within ht h₁ hs
    exact BitVec.eq_of_toInt_eq ((h.ret hcalls hi hop).trans hb₁.symm)
  · obtain ⟨b₁, hb₁, h₁⟩ := ht.invocation hbase hrun hinv
    obtain ⟨outer, b, F, F', code, t, h⟩ := Running.within ht h₁ hs
    rw [hb₁]
    exact h.store hi hop

end Run

/-! ### The driver -/

section Driver

variable {P : Program} {m : MemorySize} {s : State} {t : Instr}

/-- Constants loaded into allocatable registers change no other register. -/
theorem loads_run {loads : List Instr} (h : ∀ i ∈ loads, i.op = .loadI ∧ i.a < NUM_GP_REGS)
    (hs : AtCode P s loads t) :
    ∃ s', P.Reaches m s s' ∧ AtCode P s' [] t ∧
      ∀ r, NUM_GP_REGS ≤ r → s'.cells.regs r = s.cells.regs r := by
  induction loads generalizing s with
  | nil => exact ⟨s, .refl, hs, fun r _ => rfl⟩
  | cons i loads ih =>
    obtain ⟨hop, ha⟩ := h i List.mem_cons_self
    have hstep : P.step m s = .running
        { s with cells := s.cells.setReg i.a (BitVec.ofInt 64 i.imm), index := s.index + 1 } := by
      simp only [Program.step, hs.instrAt_cons, hop, Instr.exec]
    obtain ⟨s', hreach, hcode, hregs⟩ := ih (fun j hj => h j (List.mem_cons_of_mem _ hj)) (hs.next _)
    refine ⟨s', .head hstep hreach, hcode, fun r hr => (hregs r hr).trans ?_⟩
    exact Cells.setReg_of_ne (Nat.ne_of_gt (Nat.lt_of_lt_of_le ha hr))

/-- The driver calls its function with the stack pointer at the bottom of the stack. -/
theorem driver_drives {c : CompiledModule} {name : String} {n : ℕ} (hn : c.entryOf name = some n)
    (args : List ℤ) (hargs : args.length ≤ NUM_GP_REGS) (m : MemorySize) {σ : Cells} (hz : σ.Zero) :
    ∃ s, (c.driver n args).Reaches m ⟨σ, (c.driver n args).entry, 0, []⟩ s ∧
      Driven c (c.driver n args) s := by
  have hloads : ∀ i ∈ args.mapIdx (fun i v => Instr.mk .loadI i 0 0 (asI32 v)),
      i.op = .loadI ∧ i.a < NUM_GP_REGS := by
    intro i hi
    obtain ⟨k, hk, rfl⟩ := List.mem_mapIdx.mp hi
    exact ⟨rfl, Nat.lt_of_lt_of_le hk hargs⟩
  generalize hP : c.driver n args = P
  have hblk : P.blocks[P.entry]? = some ⟨"driver_call", ⟨.loadI, STACK_PTR, 0, 0, STACK_BASE⟩ ::
      args.mapIdx (fun i v => Instr.mk .loadI i 0 0 (asI32 v)) ++ [⟨.call, 0, 0, 0, n⟩]⟩ := by
    rw [← hP]
    exact List.getElem?_append_right (Nat.le_refl _) |>.trans (by simp)
  have hcode : AtCode P ⟨σ, P.entry, 0, []⟩ (⟨.loadI, STACK_PTR, 0, 0, STACK_BASE⟩ ::
      args.mapIdx (fun i v => Instr.mk .loadI i 0 0 (asI32 v))) ⟨.call, 0, 0, 0, n⟩ := ⟨_, hblk, rfl⟩
  have hfirst : P.step m ⟨σ, P.entry, 0, []⟩ =
      .running ⟨σ.setReg STACK_PTR (BitVec.ofInt 64 STACK_BASE), P.entry, 1, []⟩ := by
    simp only [Program.step, hcode.instrAt_cons, Instr.exec, Nat.zero_add]
  obtain ⟨s, hreach, hend, hregs⟩ :=
    loads_run (m := m) hloads (hcode.next (σ.setReg STACK_PTR (BitVec.ofInt 64 STACK_BASE)))
  have hcall : P.step m s = .running { s.goto n with calls := (s.block + 1) :: s.calls } := by
    simp only [Program.step, hend.instrAt_nil, Int.toNat_natCast]
  have hall : P.Reaches m ⟨σ, P.entry, 0, []⟩ { s.goto n with calls := (s.block + 1) :: s.calls } :=
    .head hfirst (.tail hreach hcall)
  refine ⟨_, hall, ?_, ⟨name, hn⟩, rfl, ?_, ?_⟩
  · rw [← hP]
    exact List.prefix_append _ _
  · exact (hregs ZERO_REG (by decide)).trans hz
  · exact (hregs STACK_PTR (by decide)).trans Cells.setReg_self

end Driver

/-! ### The compiled program -/

/-- Spill slots that are inside the region fit it. -/
theorem SpillsInside.fits {M : Module} (h : SpillsInside M) {i : ℕ} {f : Function}
    {alloc : Allocation} (hf : M.functions[i]? = some f)
    (halloc : allocate f (i * FUNCTION_REGION_BYTES) (reservedArgRegisters M) = .ok alloc) :
    alloc.spills.length ≤ REGION_SLOTS := by
  unfold REGION_SLOTS FUNCTION_REGION_BYTES
  obtain ⟨-, _, _, -, -, hcol⟩ := allocate_ok halloc
  cases hlen : alloc.spills.length with
  | zero => exact Nat.zero_le _
  | succ n =>
    -- the last slot is inside
    have hn : n < alloc.spills.length := by omega
    have hslot := hcol.slot n _ (List.getElem?_eq_getElem hn)
    have hlast := (h i f alloc hf halloc _ (List.mem_map_of_mem (List.getElem_mem hn))).2
    rw [hslot, Nat.add_one_mul i] at hlast
    unfold FUNCTION_REGION_BYTES at hlast
    omega

/-- The absolute addresses of a compiled module lie below the stack. -/
theorem Layout.belowStack {M : Module} {c : CompiledModule} {lowered : List (String × Lowered)}
    (h : Layout M c lowered) (hfit : SpillsInside M) :
    ∀ q ∈ ownedPending lowered, BelowStack q.2.instructions := by
  intro q hq a ha
  obtain ⟨r, hr, hp⟩ := List.mem_flatMap.mp hq
  obtain ⟨p, hpending, rfl⟩ := List.mem_map.mp hp
  obtain ⟨k, hk⟩ := List.mem_iff_getElem?.mp hr
  obtain ⟨f, hf, -, hc⟩ := lowerAll_mem h.pass1 hk
  rw [Nat.zero_add] at hc
  have hslots := compileFunction_slots hc
  obtain ⟨s, hs, rfl⟩ := hslots.emitted p hpending a ha
  have hregion := (hslots.region (fun _ => hfit.fits hf (compileFunction_ok hc).1) hs).2
  have hbase := h.region_below (List.getElem?_eq_some_iff.mp hk).1
  exact Int.ofNat_le.mpr (Nat.le_trans hregion hbase)

/-- **Software stack and zero register.** Whatever a driver calls in a compiled module whose spill
slots lie in their functions' regions, the run keeps the stack discipline. -/
theorem stackDiscipline {M : Module} {c : CompiledModule} (hok : validateModule M = .ok ())
    (hc : compileModule M = .ok c) (hfit : SpillsInside M) {P : Program} {s₀ : State}
    (hs : Driven c P s₀) (m : MemorySize) : StackDiscipline P m s₀ := by
  obtain ⟨lowered, h⟩ := compileModule_ok hc
  have ht : FrameTyped P (Enters lowered) := h.frameTyped hok (h.belowStack hfit) hs.program
  have henter : Enters lowered s₀.block 0 := by
    obtain ⟨name, hname⟩ := hs.function
    rw [CompiledModule.entryOf, h.entry, lookupLast_map fun n => n + 1,
      Option.map_eq_some_iff] at hname
    obtain ⟨n, hn, heq⟩ := hname
    rw [← heq, Nat.add_comm]
    exact (h.allFramed hok).enters_function hn
  exact ht.discipline henter hs.first hs.zero hs.stack

theorem stackDiscipline_countModule : ∃ c n s, compileModule countModule = .ok c ∧
    c.entryOf "main" = some n ∧ Driven c (c.driver n [3]) s ∧
      StackDiscipline (c.driver n [3]) ⟨0x100000, by decide⟩ s := by
  obtain ⟨c, hc⟩ : ∃ c, compileModule countModule = .ok c := exists_of_isSome (by decide +kernel)
  have hsome : ∃ n, c.entryOf "main" = some n := by
    obtain ⟨lowered, h⟩ := compileModule_ok hc
    refine ⟨start countModule 1 0, ?_⟩
    rw [CompiledModule.entryOf, h.entry]
    exact Pass1.moduleEntry (k := 1) h.pass1 (by decide) rfl
  -- nothing is spilled
  have hfit : SpillsInside countModule := by
    intro i f alloc hf halloc a ha
    have heval : ∀ p ∈ countModule.functions.zipIdx, Except.map Allocation.spills
        (allocate p.1 (p.2 * FUNCTION_REGION_BYTES) (reservedArgRegisters countModule)) = .ok [] := by
      decide +kernel
    have hnone := heval (f, i) (List.mem_zipIdx_iff_getElem?.mpr hf)
    rw [halloc] at hnone
    rw [show alloc.spills = [] from Except.ok.inj hnone] at ha
    cases ha
  obtain ⟨n, hn⟩ := hsome
  have hz : Cells.Zero ⟨fun _ => 0, fun _ => 0⟩ := rfl
  obtain ⟨s, -, hs⟩ := driver_drives hn [3] (by decide) ⟨0x100000, by decide⟩ hz
  exact ⟨c, n, s, hc, hn, hs, stackDiscipline rfl hc hfit hs _⟩

end Codegen
end Chakobsa
