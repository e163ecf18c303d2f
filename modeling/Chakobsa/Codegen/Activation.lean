import Chakobsa.Codegen.CallRun
import Chakobsa.Codegen.Restaged
import Chakobsa.Ir.PhiOrder

/-!
# Activations on the machine

What the machine's state has to do with an activation of the interpreter. The values that matter at a
point of a block are those live into it, its phis, and what the instructions before the point define
(`Tracked`); an `Activation` has every one of them that is bound at the place the allocator gave it,
its stack pointer at a fixed place, and the return positions of its callers.

A function in turn writes only to the regions of the functions it can get to by calls, and to the
stack from its stack pointer on (`MayWrite`), so what its callers keep below, and in their own
regions, stays as it is (`Kept`).
-/

namespace Chakobsa
namespace Codegen

open Ir ExceptLemmas

/-! ### What a function may write -/

/-- Function `k` has a call of function `j`. -/
def Calls (M : Module) (k j : ℕ) : Prop :=
  ∃ f g, M.functions[k]? = some f ∧ M.functions[j]? = some g ∧
    ∃ b ∈ f.blocks, ∃ i ∈ b.instructions, ∃ args, i.kind = .call g.name args

/-- The cell lies in the region of function `k`. -/
def InRegion (k : ℕ) (a : ℤ) : Prop :=
  (k * FUNCTION_REGION_BYTES : ℕ) ≤ a ∧ a + 8 ≤ ((k + 1) * FUNCTION_REGION_BYTES : ℕ)

/-- The cells that an invocation of function `k` with its stack pointer at `b` may write: those in
the regions of the functions that calls lead to, and those of the stack above. -/
def MayWrite (M : Module) (k b : ℕ) (a : ℤ) : Prop :=
  (∃ j < M.functions.length, Relation.ReflTransGen (Calls M) k j ∧ InRegion j a) ∨ (b : ℤ) ≤ a

/-- All other cells are as they were. -/
def Kept (M : Module) (k b : ℕ) (σ τ : Cells) : Prop := ∀ a, ¬ MayWrite M k b a → τ.mem a = σ.mem a

section Memory

variable {M : Module} {j k b b' : ℕ} {a : ℤ} {σ σ' τ : Cells}

theorem Calls.lt (h : Calls M k j) : j < M.functions.length := by
  obtain ⟨f, g, -, hg, -⟩ := h
  exact (List.getElem?_eq_some_iff.mp hg).1

/-- Regions do not overlap. -/
theorem InRegion.unique (h : InRegion j a) (h' : InRegion k a) : j = k := by
  unfold InRegion FUNCTION_REGION_BYTES at h h'
  omega

theorem InRegion.below (h : InRegion k a) (hk : k < M.functions.length)
    (hM : M.functions.length * FUNCTION_REGION_BYTES ≤ STACK_BASE) : a + 8 ≤ STACK_BASE := by
  unfold InRegion FUNCTION_REGION_BYTES at h
  unfold FUNCTION_REGION_BYTES at hM
  omega

theorem MayWrite.own (hk : k < M.functions.length) (h : InRegion k a) : MayWrite M k b a :=
  .inl ⟨k, hk, .refl, h⟩

theorem Kept.refl (σ : Cells) : Kept M k b σ σ := fun _ _ => rfl

theorem Kept.trans (h : Kept M k b σ σ') (h' : Kept M k b σ' τ) : Kept M k b σ τ :=
  fun a ha => (h' a ha).trans (h a ha)

/-- What a callee may write, its caller may. -/
theorem Kept.callee (h : Kept M j b' σ τ) (hcall : Calls M k j) (hb : b ≤ b') :
    Kept M k b σ τ := by
  refine fun a ha => h a fun hw => ha ?_
  rcases hw with ⟨i, hi, hreach, hin⟩ | hstack
  · exact .inl ⟨i, hi, .head hcall hreach, hin⟩
  · exact .inr (by omega)

end Memory

/-! ### Compiled functions -/

/-- The modules whose meaning the code generator preserves. The first four conditions are what the
front end makes sure of; the last two are the documented limits of spill slots, which are static. -/
structure Compilable (M : Module) : Prop where
  valid : validateModule M = .ok ()
  names : (M.functions.map (·.name)).Nodup
  /-- The entry block is the first one. -/
  entry : ∀ f ∈ M.functions, ∃ b, f.blocks[0]? = some b ∧ b.id = f.entry
  /-- The targets of a branch have no phis. -/
  split : ∀ f ∈ M.functions, ∀ b ∈ f.blocks, ∀ c t e, b.terminator = some (.branch c t e) →
    ¬ HasPhi f t ∧ ¬ HasPhi f e
  /-- Spill slots are inside their functions' regions. -/
  spills : SpillsInside M
  /-- Functions that can be called again while they run spill nothing. -/
  recursion : ∀ k f alloc, M.functions[k]? = some f → Relation.TransGen (Calls M) k k →
    allocate f (k * FUNCTION_REGION_BYTES) (reservedArgRegisters M) = .ok alloc → alloc.spills = []

/-- A program with a compiled module in it, and a machine that has the static memory. -/
structure Loaded (M : Module) (c : CompiledModule) (lowered : List (String × Lowered))
    (P : Program) (m : MemorySize) : Prop where
  compilable : Compilable M
  layout : Layout M c lowered
  program : c.program.blocks <+: P.blocks
  memory : STACK_BASE ≤ m.bytes

/-- Function `k` of the module, with everything its code is made from. -/
structure CompiledAs (M : Module) (lowered : List (String × Lowered)) (k : ℕ) (f : Function)
    (defs : Defs) (l : Lowered) (liveness : Liveness) : Prop where
  position : lowered[k]? = some (f.name, l)
  low : LoweredAs M k f l liveness
  prepared : Prepared f defs (k * FUNCTION_REGION_BYTES) (reservedArgRegisters M) l.alloc liveness
  calls : ∀ b ∈ f.blocks, ∀ i ∈ b.instructions, CallOk M defs i
  /-- The staging slots of every block are behind the spill slots. -/
  staged : List.Forall₂ (fun b q => q.1 = b.id ∧ ∃ t t',
    k * FUNCTION_REGION_BYTES + l.alloc.spills.length * 8 ≤ t.next ∧
      lowerBlock f l.alloc liveness ((k + 1) * FUNCTION_REGION_BYTES) t b = .ok (q.2, t'))
    f.blocks l.blocks

section Functions

variable {M : Module} {c : CompiledModule} {lowered : List (String × Lowered)} {P : Program}
  {m : MemorySize} {k : ℕ} {f : Function} {defs : Defs} {l : Lowered} {liveness : Liveness}
  {v : ValueId}

theorem Loaded.function (h : Loaded M c lowered P m) (hf : M.functions[k]? = some f) :
    ∃ defs l liveness, CompiledAs M lowered k f defs l liveness := by
  obtain ⟨defs, hv, hcalls⟩ := validateModule_function h.compilable.valid h.compilable.names
    (List.mem_of_getElem? hf)
  obtain ⟨l, hl, hc⟩ := (lowerAll_ok h.layout.pass1).2 k f hf
  rw [Nat.zero_add] at hc
  obtain ⟨halloc, liveness, hlive, hblocks⟩ := compileFunction_ok hc
  refine ⟨defs, l, liveness, hl, ⟨hf, halloc, hlive, lowerBlocks_ok hblocks⟩,
    Codegen.prepared hv halloc hlive, hcalls, lowerBlocks_from ?_ hblocks⟩
  rw [Nat.mul_comm l.alloc.spills.length]

theorem CompiledAs.mem (h : CompiledAs M lowered k f defs l liveness) : f ∈ M.functions :=
  List.mem_of_getElem? h.low.function

theorem CompiledAs.lt (h : CompiledAs M lowered k f defs l liveness) : k < M.functions.length :=
  (List.getElem?_eq_some_iff.mp h.low.function).1

/-- The region of a function is in memory, below the stack. -/
theorem Loaded.region (h : Loaded M c lowered P m) (hk : k < M.functions.length) :
    (k + 1) * FUNCTION_REGION_BYTES ≤ STACK_BASE :=
  Nat.le_trans (Nat.mul_le_mul_right _ hk) h.layout.budget

/-- A spilled value is in the function's region. -/
theorem CompiledAs.spill (h : CompiledAs M lowered k f defs l liveness) (hM : Compilable M)
    (hv : l.alloc.Located v) {a : ℕ} (ha : l.alloc.loc v = .spill a) : InRegion k a := by
  have hmem : a ∈ l.alloc.spills.map Prod.snd :=
    List.mem_map_of_mem (spillOf_some (loc_of_spilled hv ha).2)
  obtain ⟨hlow, hhigh⟩ := hM.spills k f l.alloc h.low.function h.low.alloc a hmem
  exact ⟨Int.ofNat_le.mpr hlow, by exact_mod_cast hhigh⟩

/-- Every location of a value is there. -/
theorem CompiledAs.holds (h : CompiledAs M lowered k f defs l liveness)
    (hload : Loaded M c lowered P m) (hv : l.alloc.Located v) : m.Holds (l.alloc.loc v) := by
  cases ha : l.alloc.loc v with
  | reg r => trivial
  | spill a =>
    have hin := (h.spill hload.compilable hv ha).below h.lt hload.layout.budget
    have := hload.memory
    exact ⟨Int.natCast_nonneg a, by omega⟩

end Functions

/-! ### Lowered blocks and the states of the lowering -/

/-- The lowered blocks go on from a state of the lowering: those it has closed come first, and the
next one starts with its open block. -/
structure LowerState.Before (st : LowerState) (ps : List PendingBlock) : Prop where
  closed : st.pending <+: ps
  opened : ∃ p rest, ps[st.pending.length]? = some p ∧ p.instructions = st.cur ++ rest

section Before

variable {f : Function} {alloc : Allocation} {liveness : Liveness} {regionEnd : ℕ} {block : BlockId}
  {st st' : LowerState} {ps : List PendingBlock}

theorem TermCode.before {term : Terminator} {temp : Temps}
    (h : TermCode f alloc regionEnd block st term ps temp) : st.Before ps := by
  have hlast : ∀ (more : List Instr) (t : PendingTerm) (qs : List PendingBlock),
      st.Before (st.pending ++ (⟨st.cur ++ more, t⟩ :: qs)) := fun more t qs =>
    ⟨List.prefix_append _ _, ⟨st.cur ++ more, t⟩, more, by simp, rfl⟩
  cases h with
  | jump edge => exact hlast _ _ _
  | branch located else' then' =>
    rw [List.append_assoc]
    exact hlast _ _ _
  | retNone => simpa using hlast [] .ret []
  | ret located => exact hlast _ _ _

/-- What comes after an instruction comes after what is before it. -/
theorem LowerState.Before.of_step {i : Instruction}
    (hstep : lowerStep f alloc liveness regionEnd block st i = .ok st') (h : st'.Before ps) :
    st.Before ps := by
  obtain ⟨hclosed, p, rest, hp, hcode⟩ := h
  rcases lowerStep_ok hstep with ⟨callee, args, saved, -, -, rfl, -⟩ | ⟨-, rfl, -⟩
  · -- the open block has been closed by a call
    obtain ⟨qs, rfl⟩ := hclosed
    refine ⟨(List.prefix_append _ _).trans (List.prefix_append _ _),
      ⟨st.cur ++ prologueCode alloc.loc st.temp.next saved args, .call callee⟩, _, ?_, rfl⟩
    simp
  · exact ⟨hclosed, p, _, hp, by rw [hcode, List.append_assoc]⟩

theorem LowerState.Before.of_steps {insts : List Instruction}
    (hsteps : insts.foldlM (lowerStep f alloc liveness regionEnd block) st = .ok st')
    (h : st'.Before ps) : st.Before ps := by
  induction insts generalizing st with
  | nil =>
    obtain rfl : st = st' := by simpa using hsteps
    exact h
  | cons i insts ih =>
    rw [List.foldlM_cons, bind_eq_ok] at hsteps
    obtain ⟨st₁, h₁, hsteps⟩ := hsteps
    exact (ih hsteps).of_step h₁

end Before

/-- Block `j` of function `k` and the blocks it is lowered to. -/
structure CompiledBlock (M : Module) (k : ℕ) (f : Function) (l : Lowered) (liveness : Liveness)
    (j : ℕ) (b : BasicBlock) (ps : List PendingBlock) : Prop where
  here : f.blocks[j]? = some b
  position : l.blocks[j]? = some (b.id, ps)
  lowered : ∃ t t', k * FUNCTION_REGION_BYTES + l.alloc.spills.length * 8 ≤ t.next ∧
    lowerBlock f l.alloc liveness ((k + 1) * FUNCTION_REGION_BYTES) t b = .ok (ps, t')

section Blocks

variable {M : Module} {c : CompiledModule} {lowered : List (String × Lowered)} {P : Program}
  {m : MemorySize} {k j : ℕ} {f : Function} {defs : Defs} {l : Lowered} {liveness : Liveness}
  {b : BasicBlock} {ps : List PendingBlock} {s : State}

theorem CompiledAs.block (h : CompiledAs M lowered k f defs l liveness)
    (hb : f.blocks[j]? = some b) : ∃ ps, CompiledBlock M k f l liveness j b ps := by
  have hj : j < f.blocks.length := (List.getElem?_eq_some_iff.mp hb).1
  have hj' : j < l.blocks.length := h.staged.length_eq ▸ hj
  obtain ⟨hid, t, t', ht, hlow⟩ := List.forall₂_iff_get.mp h.staged |>.2 j hj hj'
  have hbj : f.blocks.get ⟨j, hj⟩ = b := (List.getElem?_eq_some_iff.mp hb).2
  rw [hbj] at hid hlow
  refine ⟨(l.blocks.get ⟨j, hj'⟩).2, hb, ?_, t, t', ht, hlow⟩
  rw [List.getElem?_eq_getElem hj', ← hid]
  rfl

theorem CompiledBlock.mem (h : CompiledBlock M k f l liveness j b ps) : b ∈ f.blocks :=
  List.mem_of_getElem? h.here

/-- No control instruction stands in front of a terminator. -/
theorem CompiledBlock.plain (h : CompiledBlock M k f l liveness j b ps)
    (hf : CompiledAs M lowered k f defs l liveness) (hload : Loaded M c lowered P m)
    {p : PendingBlock} (hp : p ∈ ps) : ∀ i ∈ p.instructions, i.op.isControl = false := by
  obtain ⟨t, t', -, hlow⟩ := h.lowered
  have hargs := argsFit hload.layout.pass1 hload.compilable.valid hf.mem h.mem
  exact fun i hi => (emitted_lowerBlock hf.prepared.below hargs hlow p hp i hi).not_control

/-- The machine in a lowered block, behind the code `pre` of it. -/
theorem CompiledBlock.at (h : CompiledBlock M k f l liveness j b ps)
    (hf : CompiledAs M lowered k f defs l liveness) (hload : Loaded M c lowered P m) {n : ℕ}
    {p : PendingBlock} (hp : ps[n]? = some p) {pre code : List Instr}
    (hcode : p.instructions = pre ++ code) (hblock : s.block = start M k j + n)
    (hindex : s.index = pre.length) :
    ∃ t, AtCode P s code t ∧ Resolved M k f p.term t ∧ ∀ i ∈ code, i.op.isControl = false := by
  obtain ⟨blk, t, hblk, hinst, hres⟩ := hload.layout.at hload.compilable.names hf.position hf.low
    hf.prepared.valid.nodup h.position hp
  refine ⟨t, ⟨blk, ?_, ?_⟩, hres, fun i hi => h.plain hf hload (List.mem_of_getElem? hp) i ?_⟩
  · obtain ⟨more, hmore⟩ := hload.program
    rw [hblock, ← hmore, List.getElem?_append_left (List.getElem?_eq_some_iff.mp hblk).1]
    exact hblk
  · rw [hinst, hcode, hindex, List.append_assoc, List.drop_left]
  · rw [hcode]
    exact List.mem_append_right _ hi

end Blocks

/-! ### The values that matter -/

/-- The values that matter behind the instructions `before` of a block. -/
def Tracked (liveness : Liveness) (b : BasicBlock) (before : List Instruction) (v : ValueId) : Prop :=
  v ∈ liveness.liveIn b.id ∨ (∃ i ∈ b.instructions, i.kind.isPhi = true ∧ i.id = v) ∨
    ∃ i ∈ before, i.id = v

section Tracked

variable {f : Function} {defs : Defs} {base reserved : ℕ} {alloc : Allocation} {liveness : Liveness}
  {b : BasicBlock} {before after : List Instruction} {v : ValueId} {live : ValueSet}

/-- They are live in the block. -/
theorem Tracked.liveWithin (h : Tracked liveness b before v) (hnd : (f.blocks.map (·.id)).Nodup)
    (hb : b ∈ f.blocks) (hsub : ∀ i ∈ before, i ∈ b.instructions)
    (hlive : liveWithinBlock f b.id liveness = .ok live) : v ∈ live := by
  rw [mem_liveWithin hnd hb hlive]
  rcases h with h | ⟨i, hi, -, rfl⟩ | ⟨i, hi, rfl⟩
  · exact .inl h
  · exact .inr (.inr (.inl ⟨i, hi, rfl⟩))
  · exact .inr (.inr (.inl ⟨i, hsub i hi, rfl⟩))

theorem Tracked.located (h : Tracked liveness b before v)
    (hp : Prepared f defs base reserved alloc liveness) (hb : b ∈ f.blocks)
    (hsub : ∀ i ∈ before, i ∈ b.instructions) : alloc.Located v := by
  obtain ⟨live, hlive⟩ := liveWithin_exists liveness hp.valid.nodup hb
  exact hp.located hb hlive (h.liveWithin hp.valid.nodup hb hsub hlive)

/-- Two of them are in different places. -/
theorem Prepared.tracked_ne (hp : Prepared f defs base reserved alloc liveness) (hb : b ∈ f.blocks)
    {w : ValueId} (hv : Tracked liveness b before v) (hw : Tracked liveness b before w)
    (hsub : ∀ i ∈ before, i ∈ b.instructions) (hne : v ≠ w) : alloc.loc v ≠ alloc.loc w := by
  obtain ⟨live, hlive⟩ := liveWithin_exists liveness hp.valid.nodup hb
  exact hp.sound.loc_ne hp.live hb hlive (hv.liveWithin hp.valid.nodup hb hsub hlive)
    (hw.liveWithin hp.valid.nodup hb hsub hlive) (hv.located hp hb hsub) (hw.located hp hb hsub) hne

/-- An instruction reads what matters in front of it. -/
theorem Prepared.tracked_use (hp : Prepared f defs base reserved alloc liveness) (hb : b ∈ f.blocks)
    {i : Instruction} (heq : b.instructions = before ++ i :: after) (hv : v ∈ instUses i.kind) :
    Tracked liveness b before v := by
  by_cases hdef : ∃ j ∈ before, j.id = v
  · exact .inr (.inr hdef)
  · refine .inl ((hp.exact.liveIn b hb v).mpr (.inl (.inl ⟨before, i, after, heq, hv, ?_⟩)))
    exact fun j hj he => hdef ⟨j, hj, he⟩

theorem Prepared.tracked_term (hp : Prepared f defs base reserved alloc liveness) (hb : b ∈ f.blocks)
    (hv : v ∈ termUses b.terminator) : Tracked liveness b b.instructions v := by
  by_cases hdef : ∃ j ∈ b.instructions, j.id = v
  · exact .inr (.inr hdef)
  · refine .inl ((hp.exact.liveIn b hb v).mpr (.inl (.inr ⟨hv, ?_⟩)))
    exact fun j hj he => hdef ⟨j, hj, he⟩

/-- What is live out of the block matters at its end. -/
theorem Prepared.tracked_out (hp : Prepared f defs base reserved alloc liveness) (hb : b ∈ f.blocks)
    (hv : v ∈ liveness.liveOut b.id) : Tracked liveness b b.instructions v := by
  by_cases hdef : Defines b v
  · exact .inr (.inr hdef)
  · exact .inl ((hp.exact.liveIn b hb v).mpr (.inr ⟨hv, hdef⟩))

theorem Tracked.append {i : Instruction} :
    Tracked liveness b (before ++ [i]) v ↔ Tracked liveness b before v ∨ i.id = v := by
  simp only [Tracked, List.mem_append, List.mem_singleton]
  constructor
  · rintro (h | h | ⟨j, hj | rfl, rfl⟩)
    · exact .inl (.inl h)
    · exact .inl (.inr (.inl h))
    · exact .inl (.inr (.inr ⟨j, hj, rfl⟩))
    · exact .inr rfl
  · rintro ((h | h | ⟨j, hj, rfl⟩) | rfl)
    · exact .inl h
    · exact .inr (.inl h)
    · exact .inr (.inr ⟨j, .inl hj, rfl⟩)
    · exact .inr (.inr ⟨i, .inr rfl, rfl⟩)

end Tracked

/-- An activation with its stack pointer at `b₀` and the return positions `calls`: the values `vs`
that are bound are where they were allocated. -/
structure Activation (alloc : Allocation) (vs : ValueId → Prop) (env : Env) (b₀ : ℕ)
    (calls : List ℕ) (s : State) : Prop where
  zero : s.cells.Zero
  pointer : (s.cells.regs STACK_PTR).toInt = b₀
  calls : s.calls = calls
  placed : ∀ v, vs v → ∀ x, env v = some x → s.cells.read (alloc.loc v) = word x

/-- The machine behind the code of a state of the lowering. -/
structure AtPoint (M : Module) (k j : ℕ) (st : LowerState) (s : State) : Prop where
  block : s.block = start M k j + st.pending.length
  index : s.index = st.cur.length

end Codegen
end Chakobsa
