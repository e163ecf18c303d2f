import Chakobsa.Codegen.Placement

/-!
# Emitted programs are structurally sound

For a non-empty validated module with distinct function names and phis that cover their
predecessors, `compile_module` ends with a program or an error, never in a panic, and a program it
returns is put together as its consumers assume: `compileModule_structure`. `StructurallySound`
says what that is, in terms of the exits of the IR blocks and of their positions (`start`).
-/

namespace Chakobsa
namespace Codegen

open Ir ExceptLemmas Chakobsa.Comp

/-- The instruction transfers control. -/
def Opcode.isControl : Opcode → Bool
  | .jmp | .jz | .call | .ret | .halt => true
  | _ => false

/-- The immediate of the instruction is a position in the program. -/
def Opcode.isTransfer : Opcode → Bool
  | .jmp | .jz | .call => true
  | _ => false

/-- The control instruction that leaves a lowered block of function `k` by the given exit: a jump
goes to the first lowered block of the IR block it names, a call to the first lowered block of the
function it names. -/
def Leaves (M : Module) (k : ℕ) (f : Function) : Exit → Instr → Prop
  | .jmp target, t => t.op = .jmp ∧
      ∃ j b, f.blocks[j]? = some b ∧ b.id = target ∧ t.imm = (start M k j : ℤ)
  | .jz target, t => t.op = .jz ∧
      ∃ j b, f.blocks[j]? = some b ∧ b.id = target ∧ t.imm = (start M k j : ℤ)
  | .call callee, t => t.op = .call ∧
      ∃ k' g, M.functions[k']? = some g ∧ g.name = callee ∧ t.imm = (start M k' 0 : ℤ)
  | .ret, t => t.op = .ret

/-- The code of the instructions up to the next call. -/
def plainCode (loc : ValueId → Loc) (insts : List Instruction) : List Instr :=
  (insts.takeWhile fun i => !i.kind.isCall).flatMap (instCode loc)

/-- The block at a position starts with the given code. -/
def CompiledModule.StartsWith (c : CompiledModule) (n : ℕ) (code : List Instr) : Prop :=
  ∃ blk, c.program.blocks[n]? = some blk ∧ code <+: blk.instructions

/-- What a compiled module has to satisfy. -/
structure StructurallySound (M : Module) (c : CompiledModule) : Prop where
  /-- A block ends in its only control instruction. -/
  control : ∀ blk ∈ c.program.blocks, ∃ code t, blk.instructions = code ++ [t] ∧
    t.op.isControl = true ∧ ∀ i ∈ code, i.op.isControl = false
  /-- The block in front jumps to the first function. -/
  init : ∃ rest, c.program.blocks = initBlock (start M 0 0) :: rest
  /-- Every other block is lowered from one IR block. -/
  covered : ∀ n, 0 < n → n < c.program.blocks.length → ∃ k f j b m, M.functions[k]? = some f ∧
    f.blocks[j]? = some b ∧ m < (exits b).length ∧ n = start M k j + m
  /-- The lowered blocks of an IR block stand one after the other and are left as `exits` says: a
  call's block is followed by the next block of the same IR block, a `Jz` by the jump to the
  then-target. -/
  leaves : ∀ k f j b m e, M.functions[k]? = some f → f.blocks[j]? = some b →
    (exits b)[m]? = some e → ∃ blk code t, c.program.blocks[start M k j + m]? = some blk ∧
      blk.instructions = code ++ [t] ∧ Leaves M k f e t
  /-- The first of them starts with the instructions up to the first call. -/
  opens : ∀ k f j b alloc, M.functions[k]? = some f → f.blocks[j]? = some b →
    allocate f (k * FUNCTION_REGION_BYTES) (reservedArgRegisters M) = .ok alloc →
      c.StartsWith (start M k j) (plainCode alloc.loc b.instructions)
  /-- The block behind a call completes the call and goes on with the instructions behind it. -/
  continues : ∀ k f j b alloc before i after callee args, M.functions[k]? = some f →
    f.blocks[j]? = some b →
    allocate f (k * FUNCTION_REGION_BYTES) (reservedArgRegisters M) = .ok alloc →
    b.instructions = before ++ i :: after → i.kind = .call callee args →
      (exits b)[(callExits before).length]? = some (.call callee) ∧
      ∃ saved, c.StartsWith (start M k j + (callExits before).length + 1)
        (epilogueCode (alloc.loc i.id) saved ++ plainCode alloc.loc after)
  /-- Targets are positions of blocks. -/
  inRange : ∀ blk ∈ c.program.blocks, ∀ i ∈ blk.instructions, i.op.isTransfer = true →
    ∃ n : ℕ, i.imm = n ∧ n < c.program.blocks.length
  /-- The machine has the registers. -/
  registers : ∀ blk ∈ c.program.blocks, ∀ i ∈ blk.instructions, i.a < 32 ∧ i.b < 32 ∧ i.c < 32
  /-- `function_entry` gives every function its first lowered block. -/
  entries : ∀ k f, M.functions[k]? = some f → c.entryOf f.name = some (start M k 0)

/-! ### No panic -/

section Graceful

variable {M : Module}

theorem lowerAll_graceful {fs : List Function} (reserved i : ℕ)
    (h : ∀ f ∈ fs, ∃ defs, Validated f defs) (hphis : ∀ f ∈ fs, PhisCover f) :
    (lowerAll reserved i fs).Graceful := by
  induction fs generalizing i with
  | nil => exact .ok
  | cons f fs ih =>
    obtain ⟨defs, hv⟩ := h f List.mem_cons_self
    exact (compileFunction_graceful hv (hphis f List.mem_cons_self) reserved i).bind fun _ _ =>
      (ih (i + 1) (fun g hg => h g (List.mem_cons_of_mem _ hg)) fun g hg =>
        hphis g (List.mem_cons_of_mem _ hg)).bind fun _ _ => .ok

/-- The jumps of an IR block's lowered blocks go to its successors. -/
theorem successor_of_exit {b : BasicBlock} {target : BlockId}
    (h : .jmp target ∈ exits b ∨ .jz target ∈ exits b) : target ∈ b.successors := by
  have hcalls : ∀ e ∈ callExits b.instructions, ∃ callee, e = .call callee := by
    intro e he
    obtain ⟨i, -, hi⟩ := List.mem_filterMap.mp he
    cases hk : i.kind with
    | call callee args => exact ⟨callee, by simpa [hk] using hi.symm⟩
    | _ => simp [hk] at hi
  have hterm : .jmp target ∈ termExits b.terminator ∨ .jz target ∈ termExits b.terminator := by
    refine h.imp (fun h => (List.mem_append.mp h).resolve_left fun hc => ?_)
      fun h => (List.mem_append.mp h).resolve_left fun hc => ?_ <;>
    · obtain ⟨callee, hcallee⟩ := hcalls _ hc
      cases hcallee
  unfold BasicBlock.successors
  cases ht : b.terminator with
  | none => simp [ht, termExits] at hterm
  | some term =>
    cases term with
    | jump t => simpa [ht, termExits, Terminator.successors] using hterm
    | branch cond t e => simpa [ht, termExits, Terminator.successors] using hterm
    | ret v => simp [ht, termExits] at hterm

/-- Every owned block belongs to a function, and its jumps go to blocks of that function. -/
theorem Pass1.owned {lowered : List (String × Lowered)} (h : Pass1 M lowered) {owner : String}
    {p : PendingBlock} (hp : (owner, p) ∈ ownedPending lowered) :
    ∃ k f l liveness b, lowered[k]? = some (owner, l) ∧ f.name = owner ∧
      LoweredAs M k f l liveness ∧ b ∈ f.blocks ∧ p.term.exit ∈ exits b := by
  obtain ⟨q, hq, hp⟩ := List.mem_flatMap.mp hp
  obtain ⟨p', hp', heq⟩ := List.mem_map.mp hp
  obtain ⟨rfl, rfl⟩ : q.1 = owner ∧ p' = p := by simpa using heq
  obtain ⟨k, hk⟩ := List.mem_iff_getElem?.mp hq
  obtain ⟨f, hf, hname, -⟩ := lowerAll_mem h hk
  obtain ⟨l, liveness, hl, hlow⟩ := h.function hf
  obtain rfl : l = q.2 := congrArg Prod.snd (Option.some.inj (hl.symm.trans hk))
  obtain ⟨r, hr, hpr⟩ := List.mem_flatMap.mp hp'
  obtain ⟨j, hj⟩ := List.mem_iff_getElem?.mp hr
  have hjlt : j < f.blocks.length := hlow.blocks.length_eq ▸ (List.getElem?_eq_some_iff.mp hj).1
  obtain ⟨ps, t, t', hps, hblock⟩ := hlow.block (List.getElem?_eq_getElem hjlt)
  obtain rfl : r = _ := Option.some.inj (hj.symm.trans hps)
  refine ⟨k, f, q.2, liveness, f.blocks[j], hk, hname, hlow, List.getElem_mem hjlt, ?_⟩
  rw [← lowerBlock_exits hblock]
  exact List.mem_map_of_mem hpr

theorem resolveAll_graceful {lowered : List (String × Lowered)} {entries : List (String × ℕ)}
    {owned : List (String × PendingBlock)} (i : ℕ)
    (h : ∀ q ∈ owned, (resolveTerm entries q.1
      (localIndex (((lookupLast lowered q.1).map Lowered.blocks).getD [])) q.2.term).Graceful) :
    (resolveAll lowered entries i owned).Graceful := by
  induction owned generalizing i with
  | nil => exact .ok
  | cons q owned ih =>
    exact ((h q List.mem_cons_self).bind fun _ _ => .ok).bind fun _ _ =>
      (ih (i + 1) fun q' hq => h q' (List.mem_cons_of_mem _ hq)).bind fun _ _ => .ok

/-- Every target that pass 2 looks up is there. -/
theorem Pass1.resolveTerm {lowered : List (String × Lowered)} (h : Pass1 M lowered)
    (hnd : (M.functions.map (·.name)).Nodup) (hv : ∀ f ∈ M.functions, ∃ defs, Validated f defs)
    {q : String × PendingBlock} (hq : q ∈ ownedPending lowered) :
    (resolveTerm (entriesFrom 0 lowered) q.1
      (localIndex (((lookupLast lowered q.1).map Lowered.blocks).getD [])) q.2.term).Graceful := by
  obtain ⟨owner, p⟩ := q
  obtain ⟨k, f, l, liveness, b, hk, rfl, hlow, hb, hexit⟩ := h.owned hq
  obtain ⟨defs, hf⟩ := hv f (List.mem_of_getElem? hlow.function)
  have hentry := h.entry_eq hnd hlow.function
  have hlocal : ∀ target ∈ b.successors, ∃ idx, localIndex l.blocks target = some idx := by
    intro target ht
    obtain ⟨blk, hblk⟩ := Option.isSome_iff_exists.mp (hf.succ_isSome hb ht)
    obtain ⟨hmem, rfl⟩ := Function.block_some hblk
    obtain ⟨j, hj⟩ := List.mem_iff_getElem?.mp hmem
    exact ⟨_, localIndex_eq hlow.sizes hf.nodup hj⟩
  rw [h.blocks_of hnd hk]
  unfold Codegen.resolveTerm
  cases hterm : p.term with
  | jmp target =>
    rw [hterm] at hexit
    obtain ⟨idx, hidx⟩ := hlocal target (successor_of_exit (.inl hexit))
    simp only [hentry, hidx, expect_some, ok_bind]
    exact .ok
  | jz r target =>
    rw [hterm] at hexit
    obtain ⟨idx, hidx⟩ := hlocal target (successor_of_exit (.inr hexit))
    simp only [hentry, hidx, expect_some, ok_bind]
    exact .ok
  | call callee =>
    dsimp only
    split
    · exact .fail
    · exact .ok
  | ret => exact .ok

theorem Pass1.moduleEntry {lowered : List (String × Lowered)} (h : Pass1 M lowered)
    (hnd : (M.functions.map (·.name)).Nodup) {k : ℕ} {f : Function} (hf : M.functions[k]? = some f) :
    lookupLast ((entriesFrom 0 lowered).map fun p => (p.1, p.2 + 1)) f.name = some (start M k 0) := by
  obtain ⟨l, liveness, hl, -⟩ := h.function hf
  have hentry := entriesFrom_getElem 0 hl
  rw [Nat.zero_add, offset_congr h.lengths] at hentry
  refine lookupLast_of_getElem (k := k) ?_ ?_
  · rw [List.map_map]
    have := entriesFrom_names 0 lowered
    rw [h.names] at this
    exact this ▸ hnd
  · rw [List.getElem?_map, hentry, start_zero, Nat.add_comm 1]
    rfl

/-- `compile_module` does not panic. -/
theorem compileModule_graceful (hnd : (M.functions.map (·.name)).Nodup)
    (hv : ∀ f ∈ M.functions, ∃ defs, Validated f defs) (hphis : ∀ f ∈ M.functions, PhisCover f) :
    (compileModule M).Graceful := by
  unfold compileModule
  split
  · exact .fail
  · refine (lowerAll_graceful _ _ hv hphis).bind fun lowered hpass => ?_
    have hpass : Pass1 M lowered := hpass
    refine (resolveAll_graceful 0 fun q hq => hpass.resolveTerm hnd hv hq).bind fun blocks _ => ?_
    cases hfs : M.functions with
    | nil => exact .ok
    | cons f fs =>
      have := hpass.moduleEntry hnd (k := 0) (f := f) (by rw [hfs]; rfl)
      dsimp only
      rw [this, expect_some, ok_bind]
      exact .ok

end Graceful

/-! ### The code of consecutive blocks -/

section Code

variable {f : Function} {alloc : Allocation} {liveness : Liveness} {regionEnd : ℕ}

/-- The code of the blocks lowered so far, the open one last. -/
def LowerState.codes (st : LowerState) : List (List Instr) :=
  st.pending.map (·.instructions) ++ [st.cur]

/-- The open block goes on with the instructions up to the next call. -/
theorem foldlM_open {block : BlockId} {st st' : LowerState} {insts : List Instruction}
    (h : insts.foldlM (lowerStep f alloc liveness regionEnd block) st = .ok st') :
    ∃ code, st'.codes[st.pending.length]? = some code ∧
      st.cur ++ plainCode alloc.loc insts <+: code := by
  -- blocks once closed stay where they are
  have hkeep : ∀ {insts : List Instruction} {st st' : LowerState},
      insts.foldlM (lowerStep f alloc liveness regionEnd block) st = .ok st' →
        st.pending <+: st'.pending := by
    intro insts st st' h
    refine foldlM_invariant (fun st' => st.pending <+: st'.pending) (fun st₁ i st₂ _ hpre hstep => ?_)
      List.prefix_rfl h
    rcases lowerStep_ok hstep with ⟨callee, args, saved, -, -, rfl, -⟩ | ⟨-, rfl, -⟩
    · exact hpre.trans (List.prefix_append _ _)
    · exact hpre
  induction insts generalizing st with
  | nil =>
    obtain rfl : st = st' := by simpa using h
    exact ⟨st.cur, by simp [LowerState.codes], by simp [plainCode]⟩
  | cons i insts ih =>
    rw [List.foldlM_cons, bind_eq_ok] at h
    obtain ⟨st₁, h₁, h⟩ := h
    rcases lowerStep_ok h₁ with ⟨callee, args, saved, hk, -, rfl, -⟩ | ⟨hcall, rfl, -⟩
    · obtain ⟨more, hmore⟩ := hkeep h
      refine ⟨st.cur ++ prologueCode alloc.loc st.temp.next saved args, ?_, ?_⟩
      · simp [LowerState.codes, ← hmore]
      · simp [plainCode, hk, InstKind.isCall]
    · obtain ⟨code, hcode, hpre⟩ := ih h
      refine ⟨code, hcode, ?_⟩
      simpa [plainCode, hcall, List.append_assoc] using hpre

/-- The terminator closes the open block and leaves the others alone. -/
theorem TermCode.codes {block : BlockId} {st : LowerState} {term : Terminator}
    {pending : List PendingBlock} {temp : Temps}
    (h : TermCode f alloc regionEnd block st term pending temp) {n : ℕ} {code : List Instr}
    (hn : st.codes[n]? = some code) : ∃ p, pending[n]? = some p ∧ code <+: p.instructions := by
  have hlast : ∀ (more : List Instr) (t : PendingTerm) (ps : List PendingBlock),
      ∃ p, (st.pending ++ (⟨st.cur ++ more, t⟩ :: ps))[n]? = some p ∧ code <+: p.instructions := by
    intro more t ps
    unfold LowerState.codes at hn
    rcases Nat.lt_trichotomy n st.pending.length with hlt | rfl | hgt
    · rw [List.getElem?_append_left (by simpa using hlt), List.getElem?_map,
        List.getElem?_eq_getElem hlt] at hn
      refine ⟨st.pending[n], ?_, ?_⟩
      · rw [List.getElem?_append_left hlt, List.getElem?_eq_getElem hlt]
      · exact (Option.some.inj hn) ▸ List.prefix_rfl
    · obtain rfl : st.cur = code := by simpa using hn
      exact ⟨⟨st.cur ++ more, t⟩, by simp, List.prefix_append _ _⟩
    · rw [List.getElem?_eq_none (by simpa using Nat.succ_le_of_lt hgt)] at hn
      cases hn
  cases h with
  | jump edge => exact hlast _ _ _
  | branch located else' then' =>
    rw [List.append_assoc]
    exact hlast _ _ _
  | retNone => simpa using hlast [] .ret []
  | ret located => exact hlast _ _ _

/-- The first lowered block of an IR block starts with its instructions up to the first call. -/
theorem lowerBlock_opens {temp : Temps} {b : BasicBlock} {r : List PendingBlock × Temps}
    (h : lowerBlock f alloc liveness regionEnd temp b = .ok r) :
    ∃ p, r.1[0]? = some p ∧ plainCode alloc.loc b.instructions <+: p.instructions := by
  obtain ⟨st, term, hst, -, hcode⟩ := lowerBlock_ok h
  obtain ⟨code, hc, hpre⟩ := foldlM_open hst
  obtain ⟨p, hp, hpp⟩ := hcode.codes hc
  exact ⟨p, hp, hpre.trans hpp⟩

/-- The block behind a call's starts with the rest of the call and goes on from there. -/
theorem lowerBlock_continues {temp : Temps} {b : BasicBlock} {r : List PendingBlock × Temps}
    (h : lowerBlock f alloc liveness regionEnd temp b = .ok r) {before after : List Instruction}
    {i : Instruction} (heq : b.instructions = before ++ i :: after) {callee : String}
    {args : List ValueId} (hk : i.kind = .call callee args) :
    ∃ saved p, r.1[(callExits before).length + 1]? = some p ∧
      epilogueCode (alloc.loc i.id) saved ++ plainCode alloc.loc after <+: p.instructions := by
  obtain ⟨st, term, hst, -, hcode⟩ := lowerBlock_ok h
  rw [heq, List.foldlM_append, bind_eq_ok] at hst
  obtain ⟨st₁, h₁, hst⟩ := hst
  rw [List.foldlM_cons, bind_eq_ok] at hst
  obtain ⟨st₂, h₂, hst⟩ := hst
  have hlen : st₁.pending.length = (callExits before).length := by
    have := congrArg List.length (foldlM_exits h₁)
    simpa using this
  rcases lowerStep_ok h₂ with ⟨c, a, saved, hk', -, rfl, -⟩ | ⟨hcall, -⟩
  · obtain ⟨code, hc, hpre⟩ := foldlM_open hst
    obtain ⟨p, hp, hpp⟩ := hcode.codes hc
    refine ⟨saved, p, ?_, hpre.trans hpp⟩
    rw [List.length_append, hlen] at hp
    exact hp
  · simp [hk, InstKind.isCall] at hcall

end Code

/-! ### The program -/

theorem Emitted.not_control {i : Instr} (h : Emitted i) : i.op.isControl = false := by
  cases h with
  | bin op hr ha hb => cases op <;> rfl
  | _ => rfl

theorem Emitted.registers {i : Instr} (h : Emitted i) : i.a < 32 ∧ i.b < 32 ∧ i.c < 32 := by
  have h0 : 0 < 32 := by decide
  have hz : ZERO_REG < 32 := by decide
  have hp : STACK_PTR < 32 := by decide
  have hs : SCRATCH_1 < 32 := by decide
  cases h with
  | load hr _ => exact ⟨hr.lt, hz, h0⟩
  | store hr _ => exact ⟨hz, hr.lt, h0⟩
  | restore hr _ => exact ⟨hr.lt, hp, h0⟩
  | save hr _ => exact ⟨hp, hr.lt, h0⟩
  | const hr _ => exact ⟨hr.lt, h0, h0⟩
  | mov hr ha => exact ⟨hr.lt, ha.lt, h0⟩
  | bin op hr ha hb => exact ⟨hr.lt, ha.lt, hb.lt⟩
  | neg hr ha => exact ⟨hr.lt, hz, ha.lt⟩
  | not hr ha => exact ⟨hr.lt, ha.lt, hz⟩
  | push => exact ⟨hp, hp, hs⟩
  | pop => exact ⟨hp, hp, hs⟩

section Program

variable {M : Module} {c : CompiledModule} {k j m : ℕ} {f : Function}

theorem Resolved.leaves {term : PendingTerm} {t : Instr} (h : Resolved M k f term t) :
    Leaves M k f term.exit t := by
  cases h with
  | jmp hb => exact ⟨rfl, _, _, hb, rfl, rfl⟩
  | jz hb => exact ⟨rfl, _, _, hb, rfl, rfl⟩
  | call hg => exact ⟨rfl, _, _, hg, rfl, rfl⟩
  | ret => rfl

theorem Resolved.control {term : PendingTerm} {t : Instr} (h : Resolved M k f term t) :
    t.op.isControl = true := by
  cases h <;> rfl

/-- Every call of an accepted module passes its arguments in registers. -/
theorem argsFit {lowered : List (String × Lowered)} (h : Pass1 M lowered)
    (hok : validateModule M = .ok ()) {b : BasicBlock} (hf : f ∈ M.functions) (hb : b ∈ f.blocks) :
    ArgsFit b := by
  intro i hi callee args hk
  obtain ⟨g, t, hg, hlen, -⟩ := (validateModule_ok_iff.mp hok).2 f hf b hb i hi callee args hk
  obtain ⟨k', hk'⟩ := List.mem_iff_getElem?.mp (Module.function_some hg).1
  obtain ⟨l, liveness, -, hlow⟩ := h.function hk'
  exact hlen ▸ (allocate_ok hlow.alloc).1

/-- The lowered block at a position, with everything the program's block is made of. -/
theorem Layout.block {lowered : List (String × Lowered)} (h : Layout M c lowered)
    (hok : validateModule M = .ok ()) (hnd : (M.functions.map (·.name)).Nodup)
    (hf : M.functions[k]? = some f) {b : BasicBlock} (hb : f.blocks[j]? = some b) :
    ∃ alloc liveness ps t t', allocate f (k * FUNCTION_REGION_BYTES) (reservedArgRegisters M) =
        .ok alloc ∧
      lowerBlock f alloc liveness ((k + 1) * FUNCTION_REGION_BYTES) t b = .ok (ps, t') ∧
      ∀ m p, ps[m]? = some p → (∀ i ∈ p.instructions, Emitted i) ∧
        (∀ r target, p.term = .jz r target → Writable r) ∧ ∃ blk t, c.program.blocks[start M k j + m]? = some blk ∧
          blk.instructions = p.instructions ++ [t] ∧ Resolved M k f p.term t := by
  have hfm : f ∈ M.functions := List.mem_of_getElem? hf
  obtain ⟨defs, hv⟩ := validateFunction_ok_iff.mp ((validateModule_ok_iff.mp hok).1 f hfm)
  obtain ⟨l, liveness, hl, hlow⟩ := Pass1.function h.pass1 hf
  obtain ⟨ps, t, t', hps, hblock⟩ := hlow.block hb
  refine ⟨l.alloc, liveness, ps, t, t', hlow.alloc, hblock, fun m p hp => ⟨?_, ?_, ?_⟩⟩
  · exact emitted_lowerBlock (allocate_below hlow.alloc)
      (argsFit h.pass1 hok hfm (List.mem_of_getElem? hb)) hblock p (List.mem_of_getElem? hp)
  · exact fun r target => writable_jz (allocate_below hlow.alloc) hblock (List.mem_of_getElem? hp)
  · exact h.at hnd hl hlow hv.nodup hps hp

/-- A block of the program is the first one, or a lowered block with its terminator. -/
theorem Layout.block_cases {lowered : List (String × Lowered)} (h : Layout M c lowered)
    (hok : validateModule M = .ok ()) (hnd : (M.functions.map (·.name)).Nodup) {blk : Block}
    (hblk : blk ∈ c.program.blocks) :
    (∃ start rest, c.program.blocks = initBlock start :: rest ∧ blk = initBlock start) ∨
      ∃ k f, ∃ p : PendingBlock, ∃ t, M.functions[k]? = some f ∧ blk.instructions = p.instructions ++ [t] ∧
        (∀ i ∈ p.instructions, Emitted i) ∧ (∀ r target, p.term = .jz r target → Writable r) ∧
        Resolved M k f p.term t := by
  obtain ⟨n, hn⟩ := List.mem_iff_getElem?.mp hblk
  obtain ⟨first, rest, hblocks, -⟩ := h.blocks
  cases n with
  | zero =>
    rw [hblocks] at hn
    exact .inl ⟨first, rest, hblocks, (Option.some.inj hn).symm⟩
  | succ n =>
    have hlt := (List.getElem?_eq_some_iff.mp hn).1
    rw [h.blocks_length] at hlt
    obtain ⟨k, f, j, b, m, hf, hb, hm, heq⟩ := exists_start (Nat.succ_pos n) hlt
    obtain ⟨alloc, liveness, ps, t, t', -, hlower, hall⟩ := h.block hok hnd hf hb
    have hmps : m < ps.length := by
      have := congrArg List.length (lowerBlock_exits hlower)
      rw [List.length_map] at this
      exact this ▸ hm
    obtain ⟨hemit, hjz, blk', t, hblk', hinst, hres⟩ := hall m ps[m] (List.getElem?_eq_getElem hmps)
    rw [← heq, hn] at hblk'
    obtain rfl := Option.some.inj hblk'
    exact .inr ⟨k, f, ps[m], t, hf, hinst, hemit, hjz, hres⟩

/-- The block in front jumps to the first function. -/
theorem compileModule_init {lowered : List (String × Lowered)} (hpass : Pass1 M lowered)
    (h : compileModule M = .ok c) (hne : M.functions ≠ [])
    (hnd : (M.functions.map (·.name)).Nodup) :
    ∃ rest, c.program.blocks = initBlock (start M 0 0) :: rest := by
  unfold compileModule at h
  split at h
  · simp at h
  · simp only [bind_eq_ok] at h
    obtain ⟨lowered', hl, blocks, -, h⟩ := h
    obtain rfl : lowered' = lowered := Except.ok.inj (hl.symm.trans hpass)
    cases hfs : M.functions with
    | nil => exact absurd hfs hne
    | cons f fs =>
      have hentry := Pass1.moduleEntry (k := 0) (f := f) hpass hnd (by rw [hfs]; rfl)
      rw [hfs] at h
      dsimp only at h
      rw [hentry, expect_some, ok_bind] at h
      exact ⟨blocks, by rw [← Except.ok.inj h]⟩

end Program

/-- **Emitted programs are structurally sound.** `compile_module` does not panic, and what it
returns is put together as `StructurallySound` says. -/
theorem compileModule_structure {M : Module} (hne : M.functions ≠ [])
    (hok : validateModule M = .ok ()) (hnd : (M.functions.map (·.name)).Nodup)
    (hphis : ∀ f ∈ M.functions, PhisCover f) :
    (compileModule M).Graceful ∧ ∀ c, compileModule M = .ok c → StructurallySound M c := by
  have hv : ∀ f ∈ M.functions, ∃ defs, Validated f defs := fun f hf =>
    validateFunction_ok_iff.mp ((validateModule_ok_iff.mp hok).1 f hf)
  refine ⟨compileModule_graceful hnd hv hphis, fun c hc => ?_⟩
  obtain ⟨lowered, h⟩ := compileModule_ok hc
  have hinit := compileModule_init h.pass1 hc hne hnd
  have hlen := h.blocks_length
  -- the positions that control instructions name are those of blocks
  have htarget : ∀ {k j : ℕ} {f : Function} {b : BasicBlock}, M.functions[k]? = some f →
      f.blocks[j]? = some b → start M k j < c.program.blocks.length := by
    intro k j f b hf hb
    obtain ⟨alloc, liveness, ps, t, t', -, hlower, -⟩ := h.block hok hnd hf hb
    obtain ⟨p, hp, -⟩ := lowerBlock_opens hlower
    have hpos : 0 < (exits b).length := by
      rw [← lowerBlock_exits hlower, List.length_map]
      exact (List.getElem?_eq_some_iff.mp hp).1
    exact hlen ▸ start_lt hf hb hpos
  have hentry : ∀ {k : ℕ} {f : Function}, M.functions[k]? = some f →
      start M k 0 < c.program.blocks.length := by
    intro k f hf
    obtain ⟨defs, hval⟩ := hv f (List.mem_of_getElem? hf)
    obtain ⟨b, hb⟩ := Option.isSome_iff_exists.mp hval.entry
    obtain ⟨j, hj⟩ := List.mem_iff_getElem?.mp (Function.block_some hb).1
    have hpos : 0 < f.blocks.length := Nat.lt_of_le_of_lt (Nat.zero_le j) (List.getElem?_eq_some_iff.mp hj).1
    exact htarget hf (List.getElem?_eq_getElem hpos)
  refine ⟨?_, hinit, ?_, ?_, ?_, ?_, ?_, ?_, ?_⟩
  · -- the first block is that of the stack pointer, every other one was lowered and resolved
    intro blk hblk
    rcases h.block_cases hok hnd hblk with ⟨first, rest, -, rfl⟩ | ⟨k, f, p, t, -, heq, hemit, hjz, hres⟩
    · exact ⟨[⟨.loadI, STACK_PTR, 0, 0, STACK_BASE⟩], _, rfl, rfl, List.forall_mem_singleton.mpr rfl⟩
    · exact ⟨p.instructions, t, heq, hres.control, fun i hi => (hemit i hi).not_control⟩
  · intro n hn hlt
    rw [hlen] at hlt
    exact exists_start hn hlt
  · -- a piece of a lowered block leaves it as the exits of the block say
    intro k f j b m e hf hb he
    obtain ⟨alloc, liveness, ps, t, t', -, hlower, hall⟩ := h.block hok hnd hf hb
    rw [← lowerBlock_exits hlower, List.getElem?_map] at he
    obtain ⟨p, hp, rfl⟩ := Option.map_eq_some_iff.mp he
    obtain ⟨-, -, blk, t, hblk, hinst, hres⟩ := hall m p hp
    exact ⟨blk, p.instructions, t, hblk, hinst, hres.leaves⟩
  · intro k f j b alloc hf hb halloc
    obtain ⟨alloc', liveness, ps, t, t', halloc', hlower, hall⟩ := h.block hok hnd hf hb
    obtain rfl : alloc = alloc' := Except.ok.inj (halloc.symm.trans halloc')
    obtain ⟨p, hp, hpre⟩ := lowerBlock_opens hlower
    obtain ⟨-, -, blk, t, hblk, hinst, -⟩ := hall 0 p hp
    exact ⟨blk, hblk, hinst ▸ hpre.trans (List.prefix_append _ _)⟩
  · -- behind a call the code goes on in the next block, with the registers restored
    intro k f j b alloc before i after callee args hf hb halloc heq hk
    obtain ⟨alloc', liveness, ps, t, t', halloc', hlower, hall⟩ := h.block hok hnd hf hb
    obtain rfl : alloc = alloc' := Except.ok.inj (halloc.symm.trans halloc')
    obtain ⟨saved, p, hp, hpre⟩ := lowerBlock_continues hlower heq hk
    obtain ⟨-, -, blk, t, hblk, hinst, -⟩ := hall _ p hp
    refine ⟨?_, saved, blk, hblk, hinst ▸ hpre.trans (List.prefix_append _ _)⟩
    simp [exits, heq, callExits, hk]
  · -- what transfers control is the end of a block, and it was resolved
    intro blk hblk i hi htr
    rcases h.block_cases hok hnd hblk with ⟨first, rest, hfirst, rfl⟩ |
      ⟨k, f, p, t, hf, heq, hemit, -, hres⟩
    · obtain ⟨rest', hrest⟩ := hinit
      obtain rfl : first = start M 0 0 := by
        rw [hfirst] at hrest
        exact_mod_cast (by simpa [initBlock] using hrest : (first : ℤ) = start M 0 0 ∧ _).1
      rcases List.mem_cons.mp hi with rfl | hi
      · cases htr
      · rw [List.mem_singleton.mp hi]
        cases hfs : M.functions with
        | nil => exact absurd hfs hne
        | cons g fs => exact ⟨_, rfl, hentry (f := g) (by rw [hfs]; rfl)⟩
    · rw [heq] at hi
      rcases List.mem_append.mp hi with hi | hi
      · have := (hemit i hi).not_control
        cases hop : i.op <;> simp [hop, Opcode.isControl, Opcode.isTransfer] at this htr
      · rw [List.mem_singleton.mp hi] at htr ⊢
        generalize p.term = term at hres
        cases hres with
        | jmp hb => exact ⟨_, rfl, htarget hf hb⟩
        | jz hb => exact ⟨_, rfl, htarget hf hb⟩
        | call hg => exact ⟨_, rfl, hentry hg⟩
        | ret => cases htr
  · intro blk hblk i hi
    have h0 : 0 < 32 := by decide
    rcases h.block_cases hok hnd hblk with ⟨first, rest, -, rfl⟩ | ⟨k, f, p, t, -, heq, hemit, hjz, hres⟩
    · rcases List.mem_cons.mp hi with rfl | hi
      · decide
      · rw [List.mem_singleton.mp hi]
        exact ⟨h0, h0, h0⟩
    · rw [heq] at hi
      rcases List.mem_append.mp hi with hi | hi
      · exact (hemit i hi).registers
      · rw [List.mem_singleton.mp hi]
        generalize p.term = term at hres hjz
        cases hres with
        | jmp hb => exact ⟨h0, h0, h0⟩
        | jz hb => exact ⟨h0, (hjz _ _ rfl).lt, h0⟩
        | call hg => exact ⟨h0, h0, h0⟩
        | ret => exact ⟨h0, h0, h0⟩
  · intro k f hf
    rw [CompiledModule.entryOf, h.entry]
    exact Pass1.moduleEntry h.pass1 hnd hf

/-- A loop, and a function that calls it and then branches on the result. -/
def countModule : Module where
  functions := [countUp,
    ⟨"main", [("x", .i64)], some .i64,
      [⟨0, [⟨1, .i64, .call "count" [0]⟩, ⟨2, .bool, .bin .cmpLt 0 1⟩], some (.branch 2 1 2)⟩,
       ⟨1, [], some (.ret (some 1))⟩, ⟨2, [], some (.ret (some 0))⟩], 0⟩]

theorem compileModule_structure_countModule :
    ∃ c, compileModule countModule = .ok c ∧ StructurallySound countModule c := by
  have hphis : ∀ f ∈ countModule.functions, PhisCover f := by
    unfold PhisCover
    decide
  obtain ⟨c, hc⟩ : ∃ c, compileModule countModule = .ok c := exists_of_isSome (by decide +kernel)
  exact ⟨c, hc, (compileModule_structure (by decide) rfl (by decide) hphis).2 c hc⟩

end Codegen
end Chakobsa
