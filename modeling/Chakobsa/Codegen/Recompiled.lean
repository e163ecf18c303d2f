import Chakobsa.Codegen.Restaged
import Chakobsa.Codegen.StackDiscipline

/-!
# Compiling a reordered module

Whether a module compiles does not depend on the order of its blocks: the slots that the blocks of a
function take add up to the same number, and what else can go wrong has to do with one instruction.
-/

namespace Chakobsa
namespace Codegen

open Ir ExceptLemmas

/-- What belongs to an element. -/
theorem exists_of_forall₂ {α β : Type} {R : α → β → Prop} {l : List α} {l' : List β}
    (h : List.Forall₂ R l l') {a : α} (ha : a ∈ l) : ∃ b ∈ l', R a b := by
  induction h with
  | nil => cases ha
  | cons hab _ ih =>
    rcases List.mem_cons.mp ha with rfl | ha
    · exact ⟨_, List.mem_cons_self, hab⟩
    · obtain ⟨b, hb, hR⟩ := ih ha
      exact ⟨b, List.mem_cons_of_mem _ hb, hR⟩

/-! ### A function -/

section Function

variable {f g : Function} {defs : Defs} {alloc : Allocation} {liveness liveness' : Liveness}
  {low high : ℕ}

theorem blockSlots_reordered (h : f.Reordered g) (hnd : (f.blocks.map (·.id)).Nodup) :
    blockSlots g = blockSlots f := by
  funext b
  have : edgeSlots g = edgeSlots f := by
    funext target
    rw [edgeSlots, edgeSlots, h.block hnd]
  rw [blockSlots, blockSlots, this]

/-- Blocks that can be lowered somewhere can be lowered one after the other, if there is room for
all of them. -/
theorem lowerBlocks_exists (h : f.Reordered g) (hnd : (f.blocks.map (·.id)).Nodup)
    (hb : alloc.Below) {bs : List BasicBlock} (hhigh : high ≤ 2 ^ 31)
    (hbs : ∀ b ∈ bs, ArgsFit b ∧
      (∀ self saved, saveRegs f alloc liveness b.id self = .ok saved →
        saveRegs g alloc liveness' b.id self = .ok saved) ∧
      ∃ t r, low ≤ t.next ∧ lowerBlock f alloc liveness high t b = .ok r)
    {temp : Temps} (hlow : low ≤ temp.next) (hroom : temp.Room high (bs.map (blockSlots f)).sum) :
    ∃ r, lowerBlocks g alloc liveness' high temp bs = .ok r := by
  induction bs generalizing temp with
  | nil => exact ⟨_, rfl⟩
  | cons b bs ih =>
    rw [List.map_cons, List.sum_cons] at hroom
    obtain ⟨hargs, hsave, t, r, ht, hr⟩ := hbs b List.mem_cons_self
    obtain ⟨x, hx, -⟩ := lowerBlock_reordered h hnd hb hargs hsave hr hhigh ht hlow hroom.left
    have hnext := lowerBlock_next hx
    rw [blockSlots_reordered h hnd] at hnext
    obtain ⟨y, hy⟩ := ih (fun c hc => hbs c (List.mem_cons_of_mem _ hc)) (by omega)
      (hroom.right hnext)
    refine ⟨((b.id, x.1) :: y.1, y.2), ?_⟩
    simp only [lowerBlocks, hx, hy, ok_bind]
    rfl

/-- The registers saved at the calls of a reordered function. -/
theorem saveRegs_same (h : f.Reordered g) {base reserved : ℕ}
    (hf : Prepared f defs base reserved alloc liveness) (hg : analyze g = .ok liveness')
    {b : BasicBlock} (hb : b ∈ f.blocks) (self : ValueId) (saved : List (ValueId × ℕ))
    (hsaved : saveRegs f alloc liveness b.id self = .ok saved) :
    saveRegs g alloc liveness' b.id self = .ok saved := by
  obtain ⟨l, hl, hexact⟩ := analyze_valid (h.validated hf.valid)
  obtain rfl := Except.ok.inj (hl.symm.trans hg)
  exact saveRegs_reordered h hf.valid.nodup hf.exact hexact hb
    (fun live hlive v hv => hf.located hb hlive hv) hsaved

theorem compileFunction_reordered (h : f.Reordered g) (hv : Validated f defs)
    (hargs : ∀ b ∈ f.blocks, ArgsFit b) {reserved i : ℕ} {l : Lowered}
    (hend : (i + 1) * FUNCTION_REGION_BYTES ≤ STACK_BASE) (hl : compileFunction reserved i f = .ok l) :
    ∃ l', compileFunction reserved i g = .ok l' := by
  obtain ⟨halloc, liveness, hlive, hblocks⟩ := compileFunction_ok hl
  have hf := prepared hv halloc hlive
  obtain ⟨liveness', hlive', -⟩ := analyze_valid (h.validated hv)
  -- the slots of all blocks add up to the same number
  have hroom := lowerBlocks_room hblocks
  rw [(h.perm.map (blockSlots f)).sum_eq] at hroom
  have hlowered := lowerBlocks_from (Nat.le_refl _) hblocks
  have hbs : ∀ b ∈ g.blocks, ArgsFit b ∧
      (∀ self saved, saveRegs f l.alloc liveness b.id self = .ok saved →
        saveRegs g l.alloc liveness' b.id self = .ok saved) ∧
      ∃ t r, i * FUNCTION_REGION_BYTES + 8 * l.alloc.spills.length ≤ t.next ∧
        lowerBlock f l.alloc liveness ((i + 1) * FUNCTION_REGION_BYTES) t b = .ok r := by
    intro b hb
    have hbf := h.mem.mp hb
    obtain ⟨q, -, -, t, t', ht, hlow⟩ := exists_of_forall₂ hlowered hbf
    exact ⟨hargs b hbf, saveRegs_same h hf hlive' hbf, t, _, ht, hlow⟩
  have hhigh : (i + 1) * FUNCTION_REGION_BYTES ≤ 2 ^ 31 := Nat.le_trans hend (by decide)
  obtain ⟨r, hr⟩ := lowerBlocks_exists h hv.nodup hf.below hhigh hbs (Nat.le_refl _) hroom
  refine ⟨⟨r.1, l.alloc, r.2⟩, ?_⟩
  rw [Nat.succ_mul, Nat.mul_comm 8] at hr
  simp only [compileFunction, lowerFunction, allocate_reordered h hv halloc, hlive', ok_bind, hr]
  rfl

end Function

/-! ### A module -/

section Module

variable {M N : Module}

theorem reservedArgRegisters_reordered (h : M.Reordered N) :
    reservedArgRegisters N = reservedArgRegisters M := by
  have : N.functions.map (fun f => f.params.length) = M.functions.map fun f => f.params.length := by
    unfold Module.Reordered at h
    generalize M.functions = fs at h ⊢
    generalize N.functions = gs at h ⊢
    induction h with
    | nil => rfl
    | cons hf _ ih => rw [List.map_cons, List.map_cons, hf.params, ih]
  rw [reservedArgRegisters, reservedArgRegisters, this]

theorem lowerAll_reordered {fs gs : List Function} (h : List.Forall₂ Function.Reordered fs gs)
    (hv : ∀ f ∈ fs, (∃ defs, Validated f defs) ∧ ∀ b ∈ f.blocks, ArgsFit b) {reserved i : ℕ}
    (hend : (i + fs.length) * FUNCTION_REGION_BYTES ≤ STACK_BASE) {lowered : List (String × Lowered)}
    (hl : lowerAll reserved i fs = .ok lowered) : ∃ lowered', lowerAll reserved i gs = .ok lowered' := by
  induction h generalizing i lowered with
  | nil => exact ⟨_, rfl⟩
  | @cons f g fs gs hfg _ ih =>
    simp only [lowerAll, bind_eq_ok] at hl
    obtain ⟨l, hc, ls, hls, -⟩ := hl
    rw [List.length_cons] at hend
    obtain ⟨⟨defs, hdefs⟩, hargs⟩ := hv f List.mem_cons_self
    have hregion : (i + 1) * FUNCTION_REGION_BYTES ≤ STACK_BASE := by
      have hle : i + 1 ≤ i + (fs.length + 1) := by omega
      exact Nat.le_trans (Nat.mul_le_mul_right _ hle) hend
    obtain ⟨l', hl'⟩ := compileFunction_reordered hfg hdefs hargs hregion hc
    have hrest : (i + 1 + fs.length) * FUNCTION_REGION_BYTES ≤ STACK_BASE := by
      have heq : i + 1 + fs.length = i + (fs.length + 1) := by omega
      rw [heq]
      exact hend
    obtain ⟨ls', hls'⟩ := ih (fun f hf => hv f (List.mem_cons_of_mem _ hf)) hrest hls
    refine ⟨(g.name, l') :: ls', ?_⟩
    simp only [lowerAll, hl', hls', ok_bind]
    rfl

/-- Every target is found if every callee is a function of the module. -/
theorem Pass1.resolveTerm_exists {lowered : List (String × Lowered)} (h : Pass1 M lowered)
    (hnd : (M.functions.map (·.name)).Nodup) (hv : ∀ f ∈ M.functions, ∃ defs, Validated f defs)
    (hcalls : ∀ f ∈ M.functions, ∀ b ∈ f.blocks, ∀ i ∈ b.instructions, ∀ callee args,
      i.kind = .call callee args → callee ∈ M.functions.map (·.name))
    {q : String × PendingBlock} (hq : q ∈ ownedPending lowered) :
    ∃ t, Codegen.resolveTerm (entriesFrom 0 lowered) q.1
      (localIndex (((lookupLast lowered q.1).map Lowered.blocks).getD [])) q.2.term = .ok t := by
  rcases h.resolveTerm hnd hv hq with hok | ⟨e, he⟩
  · exact hok
  · -- an error could only be an unknown callee
    obtain ⟨owner, p⟩ := q
    obtain ⟨k, f, l, liveness, b, -, -, hlow, hb, hexit⟩ := h.owned hq
    unfold Codegen.resolveTerm at he ⊢
    cases hterm : p.term with
    | call callee =>
      rw [hterm] at hexit
      have hmem : Exit.call callee ∈ callExits b.instructions := by
        refine (List.mem_append.mp hexit).resolve_right fun ht => ?_
        cases hbt : b.terminator with
        | none => simp [hbt, termExits] at ht
        | some term => cases term <;> simp [hbt, termExits, PendingTerm.exit] at ht
      -- the exit is that of a call in the source, whose callee is a function
      obtain ⟨i, hi, hcall⟩ := List.mem_filterMap.mp hmem
      have hname : callee ∈ M.functions.map (·.name) := by
        cases hk : i.kind with
        | call callee' args =>
          obtain rfl : callee' = callee := by simpa [hk] using hcall
          exact hcalls f (List.mem_of_getElem? hlow.function) b hb i hi callee' args hk
        | _ => simp [hk] at hcall
      obtain ⟨g, hg, rfl⟩ := List.mem_map.mp hname
      obtain ⟨k', hk'⟩ := List.mem_iff_getElem?.mp hg
      dsimp only
      rw [h.entry_eq hnd hk']
      exact ⟨_, rfl⟩
    | jmp target =>
      simp only [hterm] at he
      cases hbase : lookupLast (entriesFrom 0 lowered) owner <;>
        cases hidx : localIndex (((lookupLast lowered owner).map Lowered.blocks).getD []) target <;>
        simp_all [Comp.expect, Comp.fail, bind, Except.bind, pure, Except.pure]
    | jz r target =>
      simp only [hterm] at he
      cases hbase : lookupLast (entriesFrom 0 lowered) owner <;>
        cases hidx : localIndex (((lookupLast lowered owner).map Lowered.blocks).getD []) target <;>
        simp_all [Comp.expect, Comp.fail, bind, Except.bind, pure, Except.pure]
    | ret => exact ⟨_, rfl⟩

theorem resolveAll_exists {lowered : List (String × Lowered)} {entries : List (String × ℕ)}
    {owned : List (String × PendingBlock)} (i : ℕ)
    (h : ∀ q ∈ owned, ∃ t, resolveTerm entries q.1
      (localIndex (((lookupLast lowered q.1).map Lowered.blocks).getD [])) q.2.term = .ok t) :
    ∃ blocks, resolveAll lowered entries i owned = .ok blocks := by
  induction owned generalizing i with
  | nil => exact ⟨_, rfl⟩
  | cons q owned ih =>
    obtain ⟨t, ht⟩ := h q List.mem_cons_self
    obtain ⟨bs, hbs⟩ := ih (i + 1) fun q' hq => h q' (List.mem_cons_of_mem _ hq)
    refine ⟨⟨q.1 ++ "::" ++ toString i, q.2.instructions ++ [t]⟩ :: bs, ?_⟩
    simp only [resolveAll, resolveBlock, ht, hbs, ok_bind, pure_eq_ok]

/-- **A reordered module compiles if the module does.** -/
theorem compileModule_reordered (h : M.Reordered N) (hok : validateModule M = .ok ())
    (hnd : (M.functions.map (·.name)).Nodup) {c : CompiledModule} (hc : compileModule M = .ok c) :
    ∃ c', compileModule N = .ok c' := by
  obtain ⟨lowered, hlayout⟩ := compileModule_ok hc
  have hpass : Pass1 M lowered := hlayout.pass1
  have hlen : N.functions.length = M.functions.length := h.length_eq.symm
  have hndN : (N.functions.map (·.name)).Nodup := h.names ▸ hnd
  have hvalid : ∀ f ∈ M.functions, ∃ defs, Validated f defs := fun f hf =>
    validateFunction_ok_iff.mp ((validateModule_ok_iff.mp hok).1 f hf)
  have hbudget : (0 + M.functions.length) * FUNCTION_REGION_BYTES ≤ STACK_BASE := by
    rw [Nat.zero_add]
    exact hlayout.budget
  obtain ⟨lowered', hl'⟩ := lowerAll_reordered h
    (fun f hf => ⟨hvalid f hf, fun b hb => argsFit hpass hok hf hb⟩) hbudget hpass
  have hpassN : Pass1 N lowered' := by
    rw [Pass1, reservedArgRegisters_reordered h]
    exact hl'
  -- a function of `N` is one of `M`, so it is accepted and calls functions of the module
  have hback : ∀ g ∈ N.functions, ∃ f ∈ M.functions, f.Reordered g := by
    intro g hg
    obtain ⟨f, hf, hgf⟩ := exists_of_forall₂ h.symm hg
    exact ⟨f, hf, Function.Reordered.symm hgf⟩
  have hvalidN : ∀ g ∈ N.functions, ∃ defs, Validated g defs := by
    intro g hg
    obtain ⟨f, hf, hfg⟩ := hback g hg
    obtain ⟨defs, hdefs⟩ := hvalid f hf
    exact ⟨defs, hfg.validated hdefs⟩
  have hcalls : ∀ g ∈ N.functions, ∀ b ∈ g.blocks, ∀ i ∈ b.instructions, ∀ callee args,
      i.kind = .call callee args → callee ∈ N.functions.map (·.name) := by
    intro g hg b hb i hi callee args hk
    obtain ⟨f, hf, hfg⟩ := hback g hg
    obtain ⟨f', t, hf', -⟩ :=
      (validateModule_ok_iff.mp hok).2 f hf b (hfg.mem.mp hb) i hi callee args hk
    rw [h.names, ← (Module.function_some hf').2]
    exact List.mem_map_of_mem (Module.function_some hf').1
  obtain ⟨blocks, hblocks⟩ := resolveAll_exists 0 fun q hq =>
    Pass1.resolveTerm_exists hpassN hndN hvalidN hcalls hq
  have hle : ¬ N.functions.length * FUNCTION_REGION_BYTES > STACK_BASE := by
    rw [hlen]
    exact Nat.not_lt.mpr hlayout.budget
  unfold compileModule
  rw [if_neg hle, show lowerAll (reservedArgRegisters N) 0 N.functions = .ok lowered' from hpassN,
    ok_bind]
  dsimp only
  rw [show resolveAll lowered' (entriesFrom 0 lowered') 0
    (lowered'.flatMap fun p => p.2.pending.map fun b => (p.1, b)) = .ok blocks from hblocks, ok_bind]
  cases hfs : N.functions with
  | nil => exact ⟨_, rfl⟩
  | cons g gs =>
    have := hpassN.moduleEntry hndN (k := 0) (f := g) (by rw [hfs]; rfl)
    dsimp only
    rw [this, Comp.expect_some, ok_bind]
    exact ⟨_, rfl⟩

end Module

end Codegen
end Chakobsa
