import Chakobsa.Codegen.Activation

/-!
# The machine carries out the instructions of a block

Where the machine carries out the calls of a smaller amount of fuel (`CallsCarriedOut`), it does with
the instructions of a block what the interpreter does (`insts_carriedOut`). One instruction is
`inst_carriedOut`, a call `callInst_carriedOut`.

The only thing that can come between the two is the end of the stack. An invocation pushes at most
`FRAME_BYTES`, so that with `n` units of fuel it happens only in a memory that does not reach
`FRAME_BYTES * n` bytes beyond the stack pointer.
-/

namespace Chakobsa
namespace Codegen

open Ir ExceptLemmas

/-- The result that stands for an error of the interpreter. -/
def Shows (e : InterpError) (r : Result) : Prop := e = .divideByZero ∧ r = .trap .divideByZero

/-- The stack has left the memory, which ends before `limit`. -/
def OutOfStack (m : MemorySize) (limit : ℕ) (r : Result) : Prop :=
  r = .trap .outOfBounds ∧ m.bytes < limit

theorem OutOfStack.mono {m : MemorySize} {limit limit' : ℕ} (hle : limit ≤ limit') (r : Result)
    (h : OutOfStack m limit r) : OutOfStack m limit' r := ⟨h.1, Nat.lt_of_lt_of_le h.2 hle⟩

/-- The most that is pushed for one call: the allocatable registers. -/
def FRAME_BYTES : ℕ := NUM_GP_REGS * 8

/-- The state in which function `k` starts on the arguments `xs`, to return to block `r`. -/
structure Invoked (M : Module) (k : ℕ) (xs : List RtValue) (b₀ r : ℕ) (calls : List ℕ) (s : State) :
    Prop where
  block : s.block = start M k 0
  index : s.index = 0
  zero : s.cells.Zero
  pointer : (s.cells.regs STACK_PTR).toInt = b₀
  calls : s.calls = r :: calls
  args : ∀ (i : ℕ) (x : RtValue), xs[i]? = some x → s.cells.regs i = word x

/-- The state after function `k` has returned, started with the cells `σ`. -/
structure Returned (M : Module) (k b₀ r : ℕ) (calls : List ℕ) (σ : Cells) (v : Option RtValue)
    (s : State) : Prop where
  block : s.block = r
  index : s.index = 0
  calls : s.calls = calls
  zero : s.cells.Zero
  pointer : (s.cells.regs STACK_PTR).toInt = b₀
  kept : Kept M k b₀ σ s.cells
  value : ∀ x, v = some x → s.cells.regs RET_REG = word x

/-- Calls with `n` units of fuel are carried out. -/
def CallsCarriedOut (M : Module) (P : Program) (m : MemorySize) (n : ℕ) : Prop :=
  ∀ (k : ℕ) (g : Function) (xs : List RtValue) (b₀ r : ℕ) (calls : List ℕ) (s : State),
    M.functions[k]? = some g → TypedArgs g xs → Invoked M k xs b₀ r calls s → STACK_BASE ≤ b₀ →
    b₀ ≤ m.bytes →
      CarriesOut (P.next m) Shows (OutOfStack m (b₀ + FRAME_BYTES * n)) n s (callWith (loop M n) g xs)
        (Returned M k b₀ r calls s.cells)

/-- A point of a block has been reached from `s₀`. -/
structure Reached (M : Module) (k j : ℕ) (alloc : Allocation) (liveness : Liveness) (b : BasicBlock)
    (b₀ : ℕ) (calls : List ℕ) (s₀ : State) (st : LowerState) (before : List Instruction) (env : Env)
    (s : State) : Prop where
  point : AtPoint M k j st s
  act : Activation alloc (Tracked liveness b before) env b₀ calls s
  kept : Kept M k b₀ s₀.cells s.cells

/-- The head of block `j`, entered from `cameFrom`: the machine has the values of the phis already. -/
structure AtHead (M : Module) (k j : ℕ) (alloc : Allocation) (liveness : Liveness) (b : BasicBlock)
    (cameFrom : Option BlockId) (b₀ : ℕ) (calls : List ℕ) (env : Env) (s : State) : Prop where
  block : s.block = start M k j
  index : s.index = 0
  act : ∀ rs, phiResults env cameFrom b.instructions = .ok rs →
    Activation alloc (Tracked liveness b []) (env.insertAll rs) b₀ calls s

/-! ### One instruction -/

section Inst

variable {M : Module} {c : CompiledModule} {lowered : List (String × Lowered)} {P : Program}
  {m : MemorySize} {k j : ℕ} {f : Function} {defs : Defs} {l : Lowered} {liveness : Liveness}
  {b : BasicBlock} {ps : List PendingBlock} {before after : List Instruction} {i : Instruction}
  {st st' : LowerState} {env : Env} {b₀ limit n : ℕ} {calls : List ℕ} {s : State}

theorem mem_of_before (heq : b.instructions = before ++ i :: after) {i' : Instruction}
    (h : i' ∈ before ++ [i]) : i' ∈ b.instructions := by
  rw [heq, List.append_cons]
  exact List.mem_append_left _ h

/-- A value that has been written is where it was allocated, and the others are where they were. -/
theorem Activation.wrote (hact : Activation l.alloc (Tracked liveness b before) env b₀ calls s)
    (hf : CompiledAs M lowered k f defs l liveness) (hb : b ∈ f.blocks)
    (heq : b.instructions = before ++ i :: after) {x : RtValue} {τ : Cells} {N : ℕ}
    (hw : Wrote (l.alloc.loc i.id) (word x) s.cells τ) :
    Activation l.alloc (Tracked liveness b (before ++ [i])) (env.insert i.id x) b₀ calls
      (s.behind τ N) := by
  have hbelow := hf.prepared.below.loc
  have hsub : ∀ i' ∈ before ++ [i], i' ∈ b.instructions := fun i' => mem_of_before heq
  have hself : Tracked liveness b (before ++ [i]) i.id := Tracked.append.mpr (.inr rfl)
  refine ⟨hw.zero (hbelow _) hact.zero, ?_, hact.calls, fun v hv y hy => ?_⟩
  · show (τ.regs STACK_PTR).toInt = b₀
    rw [hw.pointer (hbelow _)]
    exact hact.pointer
  · show τ.read (l.alloc.loc v) = word y
    by_cases hvi : v = i.id
    · subst hvi
      rw [Env.insert_self] at hy
      obtain rfl := Option.some.inj hy
      exact hw.value
    · rw [Env.insert_of_ne env hvi] at hy
      rw [hw.read (hbelow v) (hf.prepared.tracked_ne hb hv hself hsub hvi)]
      exact hact.placed v ((Tracked.append.mp hv).resolve_right fun h => hvi h.symm) y hy

/-- **An instruction other than a call.** -/
theorem inst_carriedOut (hload : Loaded M c lowered P m)
    (hf : CompiledAs M lowered k f defs l liveness) (hB : CompiledBlock M k f l liveness j b ps)
    (heq : b.instructions = before ++ i :: after) (hcall : i.kind.isCall = false)
    (hstep : lowerStep f l.alloc liveness ((k + 1) * FUNCTION_REGION_BYTES) b.id st i = .ok st')
    (hps : st'.Before ps) (hpoint : AtPoint M k j st s)
    (hact : Activation l.alloc (Tracked liveness b before) env b₀ calls s)
    (hty : TypedEnv defs env) (callee : Function → List RtValue → InterpM (Option RtValue)) :
    CarriesOut (P.next m) Shows (OutOfStack m limit) n s (execInst M callee env i)
      (Reached M k j l.alloc liveness b b₀ calls s st' (before ++ [i])) := by
  have hi : i ∈ b.instructions := by simp [heq]
  rcases lowerStep_ok hstep with ⟨callee, args, saved, hk, -⟩ | ⟨-, rfl, huses, hid, -⟩
  · simp [hk, InstKind.isCall] at hcall
  obtain ⟨-, p, rest, hp, hcode⟩ := hps
  obtain ⟨t, hat, -, hplain⟩ := hB.at hf hload hp (hcode.trans (List.append_assoc _ _ _))
    hpoint.block hpoint.index
  have hplain' : ∀ x ∈ instCode l.alloc.loc i, x.op.isControl = false := fun x hx =>
    hplain x (List.mem_append_left _ hx)
  cases hphi : i.kind.isPhi with
  | true =>
    -- its value has come with the edge, and it has no code
    obtain ⟨incoming, hk⟩ := InstKind.isPhi_iff.mp hphi
    have hexec : execInst M callee env i = .ok env := by rw [execInst, hk]
    have hnil : instCode l.alloc.loc i = [] := by simp only [instCode, hk]
    rw [hexec]
    refine .ok ⟨⟨hpoint.block, ?_⟩, ?_, .refl _⟩
    · simpa [hnil] using hpoint.index
    · refine ⟨hact.zero, hact.pointer, hact.calls, fun v hv => hact.placed v ?_⟩
      rcases Tracked.append.mp hv with hv | rfl
      · exact hv
      · exact .inr (.inl ⟨i, hi, hphi, rfl⟩)
  | false =>
    have hin : ∀ v ∈ i.id :: instUses i.kind, m.Holds (l.alloc.loc v) := fun v hv => by
      refine hf.holds hload ?_
      rcases List.mem_cons.mp hv with rfl | hv
      · exact hid hphi
      · exact huses v hv
    have hplaced : ∀ v ∈ instUses i.kind, ∀ x, env v = some x →
        s.cells.read (l.alloc.loc v) = word x := fun v hv x hx =>
      hact.placed v (hf.prepared.tracked_use hB.mem heq hv) x hx
    rcases @instCode_run M callee f defs b.id i env l.alloc.loc m s.cells hact.zero
        hf.prepared.below.loc hin hplaced hty (hf.prepared.valid.insts b hB.mem i hi) hphi hcall with
      ⟨x, τ, hexec, hrun, hw⟩ | ⟨hexec, htrap⟩ | ⟨q, hexec⟩
    · rw [hexec]
      refine .of_leads (hat.leads hplain' hrun) (.ok ⟨⟨hpoint.block, ?_⟩, ?_, ?_⟩)
      · show s.index + _ = (st.cur ++ instCode l.alloc.loc i).length
        rw [hpoint.index, List.length_append]
      · exact hact.wrote hf hB.mem heq hw
      · refine fun a ha => hw.mem a fun a' ha' he => ha (.own hf.lt ?_)
        rw [he]
        exact hf.spill hload.compilable (hid hphi) ha'
    · rw [hexec]
      exact .err (hat.traps hplain' htrap) ⟨rfl, rfl⟩
    · rw [hexec]
      exact .panic q

end Inst

/-! ### A call -/

section Call

variable {M : Module} {c : CompiledModule} {lowered : List (String × Lowered)} {P : Program}
  {m : MemorySize} {k j : ℕ} {f : Function} {defs : Defs} {l : Lowered} {liveness : Liveness}
  {b : BasicBlock} {ps : List PendingBlock} {before after : List Instruction} {i : Instruction}
  {st st' : LowerState} {env : Env} {b₀ n : ℕ} {calls : List ℕ} {s : State}

/-- Reading the arguments of a call ends in their values or in a panic. -/
theorem mapM_get_cases (env : Env) (args : List ValueId) :
    (∃ xs, args.mapM env.get = .ok xs ∧ List.Forall₂ (fun a x => env a = some x) args xs) ∨
      ∃ p, args.mapM env.get = .error (.panic p) := by
  induction args with
  | nil => exact .inl ⟨[], rfl, .nil⟩
  | cons a args ih =>
    rw [List.mapM_cons]
    cases ha : env a with
    | none => exact .inr ⟨.valueMissing, by simp [Env.get, ha]⟩
    | some x =>
      have hget : env.get a = .ok x := Env.get_eq_ok.mpr ha
      rcases ih with ⟨xs, hxs, hall⟩ | ⟨p, hp⟩
      · exact .inl ⟨x :: xs, by simp [hget, hxs], .cons ha hall⟩
      · exact .inr ⟨p, by simp [hget, hp]⟩

/-- The registers saved around a call are distinct. -/
theorem saved_nodup (hf : CompiledAs M lowered k f defs l liveness) (hb : b ∈ f.blocks)
    {self : ValueId} {saved : List (ValueId × ℕ)}
    (h : saveRegs f l.alloc liveness b.id self = .ok saved) : (saved.map Prod.snd).Nodup := by
  obtain ⟨live, hlive, hmem⟩ := saveRegs_ok h
  have hnd : saved.Nodup := (saveRegs_sorted h).imp fun {p q} (hlt : p.1 < q.1) he =>
    Nat.lt_irrefl _ (he ▸ hlt)
  refine hnd.map_on ?_
  rintro ⟨v, r⟩ hp ⟨w, r'⟩ hq (rfl : r = r')
  obtain ⟨hv, -, hlv⟩ := (hmem v r).mp hp
  obtain ⟨hw, -, hlw⟩ := (hmem w r).mp hq
  by_contra hne
  have hvw : v ≠ w := fun he => hne (he ▸ rfl)
  exact hf.prepared.sound.loc_ne hf.prepared.live hb hlive hv hw (hf.prepared.located hb hlive hv)
    (hf.prepared.located hb hlive hw) hvw (hlv.trans hlw.symm)

/-- A frame holds no more than the allocatable registers. -/
theorem saved_length (hf : CompiledAs M lowered k f defs l liveness) (hb : b ∈ f.blocks)
    {self : ValueId} {saved : List (ValueId × ℕ)}
    (h : saveRegs f l.alloc liveness b.id self = .ok saved) : saved.length * 8 ≤ FRAME_BYTES := by
  have hsub : saved.map Prod.snd ⊆ List.range NUM_GP_REGS := fun r hr => by
    obtain ⟨p, hp, rfl⟩ := List.mem_map.mp hr
    exact List.mem_range.mpr (saveRegs_below hf.prepared.below h p hp)
  have hle := ((saved_nodup hf hb h).subperm hsub).length_le
  rw [List.length_map, List.length_range] at hle
  exact Nat.mul_le_mul_right 8 hle

/-- What the caller's frame and its region hold is not written by its callee: the values saved, and
those that are spilled, since a function that spills is not called again. -/
theorem not_mayWrite (hM : Compilable M) (hbudget : M.functions.length * FUNCTION_REGION_BYTES ≤ STACK_BASE)
    (hf : CompiledAs M lowered k f defs l liveness) {k' : ℕ} (hcall : Calls M k k') {b₁ : ℕ}
    (hb₁ : STACK_BASE ≤ b₁) :
    (∀ a : ℤ, (STACK_BASE : ℤ) ≤ a → a < b₁ → ¬ MayWrite M k' b₁ a) ∧
      ∀ v a, l.alloc.Located v → l.alloc.loc v = .spill a → ¬ MayWrite M k' b₁ (a : ℤ) := by
  constructor
  · rintro a hlow hhigh (⟨i, hi, -, hin⟩ | hle)
    · have := hin.below hi hbudget
      omega
    · omega
  · rintro v a hv ha (⟨i, hi, hreach, hin⟩ | hle)
    · -- a region the callee gets to is the caller's own only if the caller is called again
      obtain rfl := hin.unique (hf.spill hM hv ha)
      have hcycle : Relation.TransGen (Calls M) i i := Relation.TransGen.head' hcall hreach
      have hnil := hM.recursion i f l.alloc hf.low.function hcycle hf.low.alloc
      have hmem := spillOf_some (loc_of_spilled hv ha).2
      rw [hnil] at hmem
      cases hmem
    · have := (hf.spill hM hv ha).below hf.lt hbudget
      omega

/-- What a call is lowered to: the open block ends in the call, and the code behind the call opens the
next one. -/
structure CallLowered (f : Function) (l : Lowered) (liveness : Liveness) (k : ℕ) (b : BasicBlock)
    (i : Instruction) (name : String) (args : List ValueId) (st st' : LowerState)
    (saved : List (ValueId × ℕ)) : Prop where
  kind : i.kind = .call name args
  saves : saveRegs f l.alloc liveness b.id i.id = .ok saved
  after : st' = ⟨st.pending ++ [⟨st.cur ++ prologueCode l.alloc.loc st.temp.next saved args, .call name⟩],
    epilogueCode (l.alloc.loc i.id) saved, st.temp.take args.length⟩
  room : args ≠ [] → st.temp.next + args.length * 8 ≤ (k + 1) * FUNCTION_REGION_BYTES
  located : ∀ a ∈ args, l.alloc.Located a
  result : l.alloc.Located i.id

theorem callLowered {name : String} {args : List ValueId} (hk : i.kind = .call name args)
    (hstep : lowerStep f l.alloc liveness ((k + 1) * FUNCTION_REGION_BYTES) b.id st i = .ok st') :
    ∃ saved, CallLowered f l liveness k b i name args st st' saved := by
  rcases lowerStep_ok hstep with ⟨name', args', saved, hk', hsaved, rfl, hfit, hargs, hid⟩ | ⟨hcall, -⟩
  · obtain ⟨rfl, rfl⟩ : name = name' ∧ args = args' := by simpa using hk.symm.trans hk'
    exact ⟨saved, hk, hsaved, rfl, hfit, hargs, hid⟩
  · simp [hk, InstKind.isCall] at hcall

/-- The callee has been entered from `s`, with the caller's registers in its frame. -/
structure Entered (M : Module) (k k' : ℕ) (alloc : Allocation) (base : ℕ) (saved : List (ValueId × ℕ))
    (args : List ValueId) (xs : List RtValue) (b₀ : ℕ) (calls : List ℕ) (m : MemorySize)
    (s s₁ : State) : Prop where
  edge : Calls M k k'
  called : Called alloc.loc b₀ base saved args s.cells s₁.cells
  room : b₀ + saved.length * 8 ≤ m.bytes
  invoked : Invoked M k' xs (b₀ + saved.length * 8) (s.block + 1) calls s₁

/-- **Into a call**: the registers are saved and the callee starts on the arguments, or the stack
leaves the memory. -/
theorem call_enters (hload : Loaded M c lowered P m)
    (hf : CompiledAs M lowered k f defs l liveness) (hB : CompiledBlock M k f l liveness j b ps)
    (heq : b.instructions = before ++ i :: after) {name : String} {args : List ValueId}
    {saved : List (ValueId × ℕ)} (hlow : CallLowered f l liveness k b i name args st st' saved)
    (htemp : k * FUNCTION_REGION_BYTES + l.alloc.spills.length * 8 ≤ st.temp.next)
    (hps : st'.Before ps) (hpoint : AtPoint M k j st s)
    (hact : Activation l.alloc (Tracked liveness b before) env b₀ calls s)
    (hbase : STACK_BASE ≤ b₀) (hb₀ : b₀ ≤ m.bytes) {g : Function} (hg : M.function name = some g)
    {xs : List RtValue} (hall : List.Forall₂ (fun a x => env a = some x) args xs) :
    (∃ k' s₁, M.functions[k']? = some g ∧ LeadsOn (P.next m) s s₁ ∧
      Entered M k k' l.alloc st.temp.next saved args xs b₀ calls m s s₁) ∨
    Finishes (P.next m) s (.trap .outOfBounds) ∧ m.bytes < b₀ + saved.length * 8 := by
  have hi : i ∈ b.instructions := by simp [heq]
  have hk := hlow.kind
  -- the block that ends in the call, and the callee as the linker finds it
  obtain ⟨⟨more, hclosed⟩, -⟩ := hps
  have hp : ps[st.pending.length]? = some ⟨st.cur ++
      prologueCode l.alloc.loc st.temp.next saved args, .call name⟩ := by
    rw [← hclosed, hlow.after]
    simp
  obtain ⟨t, hat, hres, hplain⟩ := hB.at hf hload hp rfl hpoint.block hpoint.index
  obtain ⟨k', g', hg', hname, rfl⟩ : ∃ k' g', M.functions[k']? = some g' ∧ g'.name = name ∧
      t = ⟨.call, 0, 0, 0, (start M k' 0 : ℤ)⟩ := by
    cases hres with
    | call hfound => exact ⟨_, _, hfound, rfl, rfl⟩
  obtain rfl : g = g' := by
    have := Module.function_of_mem hload.compilable.names (List.mem_of_getElem? hg')
    rw [hname] at this
    exact Option.some.inj (hg.symm.trans this)
  have hedge : Calls M k k' :=
    ⟨f, g, hf.low.function, hg', b, hB.mem, i, hi, args, hname ▸ hk⟩
  -- the code in front of the call
  have hregion := hload.region hf.lt
  have hspill : ∀ v, l.alloc.Located v → ∀ a, l.alloc.loc v = .spill a → a + 8 ≤ STACK_BASE := by
    intro v hv a ha
    have := (hf.spill hload.compilable hv ha).below hf.lt hload.layout.budget
    omega
  have hslots : args ≠ [] → st.temp.next + args.length * 8 ≤ STACK_BASE := fun hne =>
    (hlow.room hne).trans hregion
  have hmem : ∀ a ∈ args, st.temp.next ≤ m.bytes := fun a ha => by
    have := hslots (List.ne_nil_of_mem ha)
    have := hload.memory
    omega
  have hat' : AtCode P s (prologueCode l.alloc.loc st.temp.next saved args ++ [])
      ⟨.call, 0, 0, 0, (start M k' 0 : ℤ)⟩ := by
    rw [List.append_nil]
    exact hat
  have hprologue : (∃ τ, execAll m (prologueCode l.alloc.loc st.temp.next saved args) s.cells = .ok τ ∧
      Called l.alloc.loc b₀ st.temp.next saved args s.cells τ ∧ b₀ + saved.length * 8 ≤ m.bytes) ∨
      execAll m (prologueCode l.alloc.loc st.temp.next saved args) s.cells = .error .outOfBounds ∧
        m.bytes < b₀ + saved.length * 8 :=
    prologue_run hact.zero hact.pointer hbase hb₀ (fun a _ => hf.prepared.below.loc a)
      (fun a ha => hf.prepared.sound.loc_apart hf.prepared.below (hlow.located a ha) htemp (hmem a ha) _)
      (fun a ha => hspill a (hlow.located a ha))
      (argsFit hload.layout.pass1 hload.compilable.valid hf.mem hB.mem i hi name args hk) hslots
  rcases hprologue with ⟨τ, hτ, hcalled, hroom⟩ | ⟨htrap, hsize⟩
  swap
  · exact .inr ⟨hat'.traps hplain htrap, hsize⟩
  have hnext := (hat'.behind τ).next_call (m := m)
  refine .inl ⟨k', _, hg', .tail' (hat'.leads hplain hτ) hnext, hedge, hcalled, hroom,
    rfl, rfl, hcalled.zero, hcalled.pointer, congrArg _ hact.calls, fun idx x hx => ?_⟩
  -- an argument is in its register
  have hlt := (List.getElem?_eq_some_iff.mp hx).1
  have hlt' : idx < args.length := hall.length_eq ▸ hlt
  have ha : args[idx]? = some args[idx] := List.getElem?_eq_getElem hlt'
  have hax : env args[idx] = some x := by
    rw [← (List.getElem?_eq_some_iff.mp hx).2]
    exact (List.forall₂_iff_get.mp hall).2 idx hlt' hlt
  have hause : args[idx] ∈ instUses i.kind := by
    rw [hk]
    exact List.mem_of_getElem? ha
  show τ.regs idx = word x
  rw [hcalled.passed idx _ ha]
  exact hact.placed _ (hf.prepared.tracked_use hB.mem heq hause) x hax

/-- **Out of a call**: the result is where its value lives, and every other value is where it was. -/
theorem call_returns (hload : Loaded M c lowered P m)
    (hf : CompiledAs M lowered k f defs l liveness) (hB : CompiledBlock M k f l liveness j b ps)
    (heq : b.instructions = before ++ i :: after) {name : String} {args : List ValueId}
    {saved : List (ValueId × ℕ)} (hlow : CallLowered f l liveness k b i name args st st' saved)
    (htemp : k * FUNCTION_REGION_BYTES + l.alloc.spills.length * 8 ≤ st.temp.next)
    (hps : st'.Before ps) (hpoint : AtPoint M k j st s)
    (hact : Activation l.alloc (Tracked liveness b before) env b₀ calls s)
    (hbase : STACK_BASE ≤ b₀) {k' : ℕ} {xs : List RtValue} {s₁ s₃ : State}
    (henter : Entered M k k' l.alloc st.temp.next saved args xs b₀ calls m s s₁) {x : RtValue}
    (hret : Returned M k' (b₀ + saved.length * 8) (s.block + 1) calls s₁.cells (some x) s₃) :
    ∃ s', Leads (P.next m) s₃ s' ∧
      Reached M k j l.alloc liveness b b₀ calls s st' (before ++ [i]) (env.insert i.id x) s' := by
  have hbudget := hload.layout.budget
  have hbelow := hf.prepared.below.loc
  have hcalled := henter.called
  obtain ⟨live, hlive, hsavemem⟩ := saveRegs_ok hlow.saves
  -- the block behind the call
  obtain ⟨-, p₁, rest, hp₁, hcode₁⟩ := hps
  have hlen : st'.pending.length = st.pending.length + 1 := by
    rw [hlow.after, List.length_append]
    rfl
  have hcur : st'.cur = epilogueCode (l.alloc.loc i.id) saved := by rw [hlow.after]
  rw [hcur] at hcode₁
  obtain ⟨t₁, hat₁, -, hplain₁⟩ := hB.at (s := s₃) hf hload hp₁
    (show p₁.instructions = [] ++ _ from hcode₁)
    (by rw [hret.block, hpoint.block, hlen, Nat.add_assoc]) hret.index
  obtain ⟨τ', hτ', hz', hptr', hval', hregs', hmem'⟩ := epilogue_run (m := m) hret.zero
    hret.pointer henter.room (saveRegs_below hf.prepared.below hlow.saves)
    (saved_nodup hf hB.mem hlow.saves) (hbelow i.id) (hf.holds hload hlow.result)
  have hleads₁ := hat₁.leads (fun y hy => hplain₁ y (List.mem_append_left _ hy)) hτ'
  obtain ⟨hframe, hown⟩ := not_mayWrite hload.compilable hbudget hf henter.edge
    (hbase.trans (Nat.le_add_right b₀ (saved.length * 8)))
  have hsub : ∀ i' ∈ before ++ [i], i' ∈ b.instructions := fun i' => mem_of_before heq
  have hself : Tracked liveness b (before ++ [i]) i.id := Tracked.append.mpr (.inr rfl)
  refine ⟨_, hleads₁, ⟨?_, ?_⟩, ⟨hz', hptr', hret.calls, fun v hv y hy => ?_⟩, ?_⟩
  · show s₃.block = _
    rw [hret.block, hpoint.block, hlen, Nat.add_assoc]
  · show s₃.index + _ = _
    rw [hret.index, Nat.zero_add, hcur]
  · show τ'.read (l.alloc.loc v) = word y
    by_cases hvi : v = i.id
    · subst hvi
      rw [Env.insert_self] at hy
      obtain rfl := Option.some.inj hy
      rw [hval']
      exact hret.value x rfl
    · -- another value, in the frame or in its spill slot during the call
      rw [Env.insert_of_ne env hvi] at hy
      have hbefore := hact.placed v ((Tracked.append.mp hv).resolve_right fun h => hvi h.symm) y hy
      have hne := hf.prepared.tracked_ne hB.mem hv hself hsub hvi
      have hloc := hv.located hf.prepared hB.mem hsub
      have hvlive := hv.liveWithin hf.prepared.valid.nodup hB.mem hsub hlive
      cases hl : l.alloc.loc v with
      | reg r =>
        rw [hl] at hne hbefore
        obtain ⟨idx, hidx⟩ := List.mem_iff_getElem?.mp ((hsavemem v r).mpr ⟨hvlive, hvi, hl⟩)
        have hlt := (List.getElem?_eq_some_iff.mp hidx).1
        show τ'.regs r = word y
        rw [hregs' idx (v, r) hidx hne.symm, hret.kept _ (hframe _ ?_ ?_)]
        · exact (hcalled.slots idx (v, r) hidx).trans hbefore
        · unfold slot
          omega
        · unfold slot
          omega
      | spill a =>
        rw [hl] at hne hbefore
        have hlow' := (hf.spill hload.compilable hloc hl).below hf.lt hbudget
        show τ'.mem a = word y
        rw [hmem' a fun a' ha' he => hne (by rw [ha', Int.ofNat_inj.mp he]), hret.kept _ (hown v a hloc hl)]
        refine (hcalled.mem a (by omega) fun idx hidx he => ?_).trans hbefore
        -- staging slots are behind the spill slots
        obtain ⟨q, hq, rfl⟩ := hf.prepared.sound.spilled v a (loc_of_spilled hloc hl).2
        unfold slot at he
        omega
  · intro a ha
    have hab : a < b₀ := by
      by_contra hle
      exact ha (.inr (by omega))
    have hnotin : ¬ InRegion k a := fun hin => ha (.own hf.lt hin)
    have hmid : Kept M k b₀ s₁.cells s₃.cells := hret.kept.callee henter.edge (Nat.le_add_right _ _)
    show τ'.mem a = s.cells.mem a
    rw [hmem' a fun a' ha' he => hnotin (he ▸ hf.spill hload.compilable hlow.result ha'), hmid a ha]
    refine hcalled.mem a hab fun idx hidx he => hnotin ?_
    have hne : args ≠ [] := by
      rintro rfl
      cases hidx
    have := hlow.room hne
    unfold InRegion
    unfold slot at he
    omega

/-- **A call.** If calls are carried out with the fuel that is left, so is the instruction. -/
theorem callInst_carriedOut (hload : Loaded M c lowered P m)
    (hf : CompiledAs M lowered k f defs l liveness) (hB : CompiledBlock M k f l liveness j b ps)
    (heq : b.instructions = before ++ i :: after) {name : String} {args : List ValueId}
    (hk : i.kind = .call name args)
    (hstep : lowerStep f l.alloc liveness ((k + 1) * FUNCTION_REGION_BYTES) b.id st i = .ok st')
    (htemp : k * FUNCTION_REGION_BYTES + l.alloc.spills.length * 8 ≤ st.temp.next)
    (hps : st'.Before ps) (hpoint : AtPoint M k j st s)
    (hact : Activation l.alloc (Tracked liveness b before) env b₀ calls s)
    (hty : TypedEnv defs env) (hbase : STACK_BASE ≤ b₀) (hb₀ : b₀ ≤ m.bytes)
    (hcalls : CallsCarriedOut M P m n) :
    CarriesOut (P.next m) Shows (OutOfStack m (b₀ + FRAME_BYTES * (n + 1))) (n + 1) s
      (execInst M (callWith (loop M n)) env i)
      (Reached M k j l.alloc liveness b b₀ calls s st' (before ++ [i])) := by
  have hi : i ∈ b.instructions := by simp [heq]
  obtain ⟨saved, hlow⟩ := callLowered hk hstep
  have hlen := saved_length hf hB.mem hlow.saves
  obtain ⟨g, ty, hg, hglen, hgargs, -⟩ := hf.calls b hB.mem i hi name args hk
  simp only [execInst, hk, hg]
  rcases mapM_get_cases env args with ⟨xs, hxs, hall⟩ | ⟨q, hq⟩
  swap
  · rw [hq]
    exact .panic q
  rw [hxs, ok_bind]
  have hxsty : TypedArgs g xs := by
    have hs := mapM_get_sound hty hglen hgargs
    rw [hxs] at hs
    exact hs
  rcases call_enters hload hf hB heq hlow htemp hps hpoint hact hbase hb₀ hg hall with
    ⟨k', s₁, hg', hleads, henter⟩ | ⟨htrap, hsize⟩
  swap
  · refine .giveUp htrap ⟨rfl, ?_⟩
    rw [Nat.mul_add_one FRAME_BYTES]
    omega
  -- the callee, from its first block to its return, with the fuel that is left
  have hcallee := hcalls k' g xs _ _ _ _ hg' hxsty henter.invoked
    (hbase.trans (Nat.le_add_right _ _)) henter.room
  refine CarriesOut.bind ((CarriesOut.of_leadsOn hleads hcallee).mono_gaveUp (OutOfStack.mono ?_))
    fun v s₃ _ hret => ?_
  · rw [Nat.mul_add_one FRAME_BYTES]
    omega
  cases v with
  | none => exact .panic _
  | some x =>
    obtain ⟨s', hleads', hreached⟩ :=
      call_returns hload hf hB heq hlow htemp hps hpoint hact hbase henter hret
    exact .of_leads hleads' (.ok hreached)

end Call

/-! ### The instructions of a block -/

section Instructions

variable {M : Module} {c : CompiledModule} {lowered : List (String × Lowered)} {P : Program}
  {m : MemorySize} {k j : ℕ} {f : Function} {defs : Defs} {l : Lowered} {liveness : Liveness}
  {b : BasicBlock} {ps : List PendingBlock} {before insts : List Instruction}
  {st st' : LowerState} {env : Env} {b₀ n : ℕ} {calls : List ℕ} {s : State}

/-- A block gets on by any of its instructions. -/
theorem step_carriedOut (hload : Loaded M c lowered P m)
    (hf : CompiledAs M lowered k f defs l liveness) (hB : CompiledBlock M k f l liveness j b ps)
    {after : List Instruction} {i : Instruction} (heq : b.instructions = before ++ i :: after)
    (hstep : lowerStep f l.alloc liveness ((k + 1) * FUNCTION_REGION_BYTES) b.id st i = .ok st')
    (htemp : k * FUNCTION_REGION_BYTES + l.alloc.spills.length * 8 ≤ st.temp.next)
    (hps : st'.Before ps) (hpoint : AtPoint M k j st s)
    (hact : Activation l.alloc (Tracked liveness b before) env b₀ calls s)
    (hty : TypedEnv defs env) (hbase : STACK_BASE ≤ b₀) (hb₀ : b₀ ≤ m.bytes)
    (hcalls : CallsCarriedOut M P m n) :
    CarriesOut (P.next m) Shows (OutOfStack m (b₀ + FRAME_BYTES * (n + 1))) (n + 1) s
      (execInst M (callWith (loop M n)) env i)
      (Reached M k j l.alloc liveness b b₀ calls s st' (before ++ [i])) := by
  cases hk : i.kind with
  | call name args =>
    exact callInst_carriedOut hload hf hB heq hk hstep htemp hps hpoint hact hty hbase hb₀ hcalls
  | _ =>
    have hcall : i.kind.isCall = false := by rw [hk]; rfl
    exact inst_carriedOut hload hf hB heq hcall hstep hps hpoint hact hty _

/-- **The instructions of a block**, from any point of it on. -/
theorem insts_carriedOut (hload : Loaded M c lowered P m)
    (hf : CompiledAs M lowered k f defs l liveness) (hB : CompiledBlock M k f l liveness j b ps)
    (heq : b.instructions = before ++ insts)
    (hsteps : insts.foldlM (lowerStep f l.alloc liveness ((k + 1) * FUNCTION_REGION_BYTES) b.id) st =
      .ok st')
    (htemp : k * FUNCTION_REGION_BYTES + l.alloc.spills.length * 8 ≤ st.temp.next)
    (hps : st'.Before ps) (hpoint : AtPoint M k j st s)
    (hact : Activation l.alloc (Tracked liveness b before) env b₀ calls s)
    (hty : TypedEnv defs env) (hbase : STACK_BASE ≤ b₀) (hb₀ : b₀ ≤ m.bytes)
    (hcalls : CallsCarriedOut M P m n) :
    CarriesOut (P.next m) Shows (OutOfStack m (b₀ + FRAME_BYTES * (n + 1))) (n + 1) s
      (insts.foldlM (execInst M (callWith (loop M n))) env) fun env' s' =>
        Reached M k j l.alloc liveness b b₀ calls s st' b.instructions env' s' ∧
          TypedEnv defs env' := by
  induction insts generalizing before st env s with
  | nil =>
    obtain rfl : st = st' := by simpa using hsteps
    rw [List.append_nil] at heq
    exact .ok ⟨⟨hpoint, heq ▸ hact, .refl _⟩, hty⟩
  | cons i insts ih =>
    rw [List.foldlM_cons, bind_eq_ok] at hsteps
    obtain ⟨st₁, hstep, hsteps⟩ := hsteps
    have hi : i ∈ b.instructions := by simp [heq]
    rw [List.foldlM_cons]
    refine CarriesOut.bind (step_carriedOut hload hf hB heq hstep htemp (hps.of_steps hsteps) hpoint
      hact hty hbase hb₀ hcalls) fun env₁ s₁ hok h₁ => ?_
    -- the environment stays typed, since the callee's is
    have hsound : Sound (TypedEnv defs) (execInst M (callWith (loop M n)) env i) :=
      execInst_sound hf.prepared.valid (fun g hg xs hxs => call_sound hload.compilable.valid
        hload.compilable.names n hg hxs) hB.mem hi (hf.calls b hB.mem i hi) hty
    rw [hok] at hsound
    have hnext : st.temp.next ≤ st₁.temp.next := by
      rw [lowerStep_next hstep]
      exact Nat.le_add_right _ _
    have hrest := ih (by rw [heq, List.append_cons]) hsteps (htemp.trans hnext) h₁.point h₁.act hsound
    exact hrest.mono fun env' s' _ h' => ⟨⟨h'.1.point, h'.1.act, h₁.kept.trans h'.1.kept⟩, h'.2⟩

end Instructions

end Codegen
end Chakobsa
