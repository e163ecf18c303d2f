import Chakobsa.Codegen.Structural

/-!
# When phi resolution is total

`insert_phi_copies` resolves a phi for every edge that is lowered, whether it can be reached or not,
and the interpreter for every edge that it takes. The validator compares the length of a phi's list
with the number of predecessors and looks the blocks it names up among them. So it accepts a list that
names one predecessor twice and another not at all, and it accepts a phi in the entry block, which is
entered over no edge when the function starts.

`phiResolution_iff` says which accepted functions the two consumers can rely on: those without a
repetition in any block's phis, and without a phi in the entry block. In a module of such functions no
run and no compilation fires one of the expects.
-/

namespace Chakobsa
namespace Codegen

open Ir ExceptLemmas Chakobsa.Comp

/-- Not the expect of `insert_phi_copies`. -/
def NotPhiExpect : Fault CodegenError CodegenPanic → Prop
  | .panic .phiUncovered => False
  | _ => True

/-- Phi resolution is total for a function. -/
structure PhiTotal (f : Function) : Prop where
  /-- Every phi on every walk from the entry is resolved by the edge it is entered over, and has one
  entry for every predecessor and none twice. -/
  walks : PhiResolution f
  /-- There the interpreter reads the phis without firing one of its expects. -/
  interp : ∀ π b, f.Walk π b → ∀ blk, f.block b = some blk → ∀ env,
    (phiResults env π.head? blk.instructions).Faults Ir.NotPhiExpect
  /-- Every edge, reachable or not, has one entry in every phi of the block it leads to. -/
  edges : ∀ p b, f.Edge p b → ∀ blk, f.block b = some blk → ∀ incoming ∈ blk.phis,
    (incoming.map Prod.fst).count p = 1
  /-- It is lowered without firing the expect of the code generator. -/
  lowers : ∀ p b, f.Edge p b → ∀ alloc regionEnd temp,
    (insertPhiCopies f alloc regionEnd temp p b).Faults NotPhiExpect

/-- No phi names a block twice, and the entry block has no phi. -/
def PhisSingle (f : Function) : Prop :=
  ∀ b blk, f.block b = some blk → ∀ incoming ∈ blk.phis,
    (incoming.map Prod.fst).Nodup ∧ b ≠ f.entry

section PhiTotal

variable {f : Function} {alloc : Allocation} {regionEnd : ℕ}

theorem locOf_faults (v : ValueId) : (locOf alloc v).Faults NotPhiExpect := by
  unfold locOf
  split
  · exact .ok
  · exact (Faults.expect fun _ => trivial).bind fun _ _ => .ok

/-- Where every phi has an entry for the edge, only a missing location can end the moves. -/
theorem phiMoves_faults {from' : BlockId} {insts : List Instruction}
    (h : ∀ i ∈ insts, ∀ incoming, i.kind = .phi incoming → from' ∈ incoming.map Prod.fst) :
    (phiMoves alloc from' insts).Faults NotPhiExpect := by
  induction insts with
  | nil => exact .ok
  | cons i insts ih =>
    have ih := ih fun j hj => h j (List.mem_cons_of_mem _ hj)
    unfold phiMoves
    split
    · next incoming hk =>
      obtain ⟨p, hp, rfl⟩ := List.mem_map.mp (h i List.mem_cons_self incoming hk)
      have hsome : (incoming.find? fun q => q.1 == p.1).isSome :=
        List.find?_isSome.mpr ⟨p, hp, by simp⟩
      obtain ⟨e, he⟩ := Option.isSome_iff_exists.mp hsome
      rw [he, expect_some, ok_bind]
      exact (locOf_faults _).bind fun _ _ => (locOf_faults _).bind fun _ _ => ih.bind fun _ _ => .ok
    · exact ih

theorem insertPhiCopies_faults {p b : BlockId} {blk : BasicBlock} (hb : f.block b = some blk)
    (h : ∀ incoming ∈ blk.phis, p ∈ incoming.map Prod.fst) (temp : Temps) :
    (insertPhiCopies f alloc regionEnd temp p b).Faults NotPhiExpect := by
  unfold insertPhiCopies
  rw [hb, expect_some, ok_bind]
  refine (phiMoves_faults fun i hi incoming hk => ?_).bind fun _ _ =>
    (parallelMove_graceful _ _).faults fun _ => trivial
  exact h incoming (BasicBlock.mem_phis.mpr ⟨i, hi, hk⟩)

theorem PhisSingle.phisDistinct (h : PhisSingle f) : PhisDistinct f :=
  fun _ b _ blk hb incoming hi => h b blk hb incoming hi

/-- Without repetitions the phis cover the predecessors. -/
theorem PhisSingle.phisCover (h : PhisSingle f) (hok : validateFunction f = .ok ()) : PhisCover f := by
  obtain ⟨defs, hv⟩ := validateFunction_ok_iff.mp hok
  intro blk hblk incoming hi p hp
  have hb := Function.block_of_mem hv.nodup hblk
  exact (hv.phi_cover hb hi (h _ blk hb incoming hi).1 p).mpr hp

theorem PhisSingle.phiTotal (h : PhisSingle f) (hok : validateFunction f = .ok ()) : PhiTotal f := by
  have hwalks := h.phisDistinct.phiResolution hok
  have hcover : ∀ p b, f.Edge p b → ∀ blk, f.block b = some blk → ∀ incoming ∈ blk.phis,
      p ∈ incoming.map Prod.fst := by
    intro p b he blk hb incoming hi
    obtain ⟨hmem, rfl⟩ := Function.block_some hb
    exact h.phisCover hok blk hmem incoming hi p he.mem_predecessors
  refine ⟨hwalks, fun π b hw blk hb env => hwalks.phiResults hw hb env,
    fun p b he blk hb incoming hi => ?_, fun p b he alloc regionEnd temp => ?_⟩
  · exact List.count_eq_one_of_mem (h b blk hb incoming hi).1 (hcover p b he blk hb incoming hi)
  · obtain ⟨defs, hv⟩ := validateFunction_ok_iff.mp hok
    obtain ⟨c, hc, hs⟩ := he
    obtain ⟨blk, hb⟩ := Option.isSome_iff_exists.mp (hv.succ_isSome (Function.block_some hc).1 hs)
    exact insertPhiCopies_faults hb (hcover p b ⟨c, hc, hs⟩ blk hb) temp

/-- Where every edge has one entry only, no block is named twice: the blocks named are predecessors. -/
theorem PhiTotal.phisSingle (h : PhiTotal f) (hok : validateFunction f = .ok ()) : PhisSingle f := by
  obtain ⟨defs, hv⟩ := validateFunction_ok_iff.mp hok
  intro b blk hb incoming hi
  constructor
  · refine List.nodup_iff_count_le_one.mpr fun p => ?_
    by_cases hp : p ∈ incoming.map Prod.fst
    · obtain ⟨e, he, rfl⟩ := List.mem_map.mp hp
      obtain ⟨c, hc, hid, hs⟩ := Function.mem_predecessors.mp ((hv.phi hb hi).2 e he)
      have hedge : f.Edge e.1 b := ⟨c, hid ▸ Function.block_of_mem hv.nodup hc, hs⟩
      exact Nat.le_of_eq (h.edges e.1 b hedge blk hb incoming hi)
    · rw [List.count_eq_zero_of_not_mem hp]
      exact Nat.zero_le 1
  · rintro rfl
    -- the walk that has not taken a step yet has no block to come from
    obtain ⟨⟨p, π', v, hπ, -⟩, -⟩ := h.walks [] f.entry .start blk hb incoming hi
    cases hπ

end PhiTotal

section Compile

variable {M : Module}

theorem resolveTerm_faults (entries : List (String × ℕ)) (owner : String)
    (local' : BlockId → Option ℕ) (term : PendingTerm) :
    (resolveTerm entries owner local' term).Faults NotPhiExpect := by
  cases term with
  | jmp target | jz condReg target =>
    exact (Faults.expect fun _ => trivial).bind fun _ _ =>
      (Faults.expect fun _ => trivial).bind fun _ _ => .ok
  | call callee =>
    unfold resolveTerm
    dsimp only
    split
    · exact .error trivial
    · exact .ok
  | ret => exact .ok

theorem resolveAll_faults (lowered : List (String × Lowered)) (entries : List (String × ℕ)) (i : ℕ)
    (owned : List (String × PendingBlock)) :
    (resolveAll lowered entries i owned).Faults NotPhiExpect := by
  induction owned generalizing i with
  | nil => exact .ok
  | cons q owned ih =>
    obtain ⟨owner, p⟩ := q
    exact ((resolveTerm_faults _ _ _ _).bind fun _ _ => .ok).bind fun _ _ =>
      (ih (i + 1)).bind fun _ _ => .ok

/-- Compiling a module of accepted functions whose phis cover their edges does not fire the expect,
also where two functions have one name. -/
theorem compileModule_faults (hok : ∀ f ∈ M.functions, validateFunction f = .ok ())
    (hphis : ∀ f ∈ M.functions, PhisCover f) : (compileModule M).Faults NotPhiExpect := by
  unfold compileModule
  split
  · exact .error trivial
  · have hv : ∀ f ∈ M.functions, ∃ defs, Validated f defs := fun f hf =>
      validateFunction_ok_iff.mp (hok f hf)
    refine ((lowerAll_graceful _ _ hv hphis).faults fun _ => trivial).bind fun lowered _ => ?_
    refine (resolveAll_faults _ _ _ _).bind fun blocks _ => ?_
    cases M.functions with
    | nil => exact .ok
    | cons f fs => exact (Faults.expect fun _ => trivial).bind fun _ _ => .ok

end Compile

/-- **Phi resolution.** For an accepted function it is total exactly when no phi names a block twice
and the entry block has no phi. If that holds of all functions of a module, then no run of the
interpreter and no compilation panics for lack of a phi operand. -/
theorem phiResolution_iff (M : Module) (hok : ∀ f ∈ M.functions, validateFunction f = .ok ()) :
    (∀ f ∈ M.functions, PhiTotal f ↔ PhisSingle f) ∧
      ((∀ f ∈ M.functions, PhisSingle f) →
        (∀ n entry args, (run M n entry args).Faults Ir.NotPhiExpect) ∧
          (compileModule M).Faults NotPhiExpect) := by
  refine ⟨fun f hf => ⟨fun h => h.phisSingle (hok f hf), fun h => h.phiTotal (hok f hf)⟩,
    fun h => ⟨?_, compileModule_faults hok fun f hf => (h f hf).phisCover (hok f hf)⟩⟩
  exact run_faults fun f hf => (h f hf).phisDistinct.phiResolution (hok f hf)

theorem phiResolution_iff_distinctIncoming :
    PhiTotal distinctIncoming ∧
      ∀ n args, (run ⟨[distinctIncoming]⟩ n "f" args).Faults Ir.NotPhiExpect := by
  have hsingle : PhisSingle distinctIncoming := by
    intro b blk hb incoming hi
    obtain ⟨hmem, rfl⟩ := Function.block_some hb
    revert incoming
    revert blk
    decide
  obtain ⟨hiff, hfaults⟩ := phiResolution_iff ⟨[distinctIncoming]⟩ (by decide)
  refine ⟨(hiff _ List.mem_cons_self).mpr hsingle, fun n => ?_⟩
  exact (hfaults (List.forall_mem_singleton.mpr hsingle)).1 n "f"

/-- The diamond that names one arm twice is accepted. Entering its join over the other arm is a panic
of the interpreter, and lowering that edge one of the code generator. -/
theorem repeatedIncoming_unresolved :
    validateFunction repeatedIncoming = .ok () ∧ ¬ PhiTotal repeatedIncoming ∧
      run ⟨[repeatedIncoming]⟩ 3 "f" [.bool false] = .error (.panic .phiUncovered) ∧
      compileModule ⟨[repeatedIncoming]⟩ = .error (.panic .phiUncovered) := by
  refine ⟨by decide, fun h => ?_, by decide, rfl⟩
  have hone := h.edges 2 3 ⟨_, rfl, by decide⟩ _ rfl [(1, 1), (1, 1)] (by decide)
  exact absurd hone (by decide)

end Codegen
end Chakobsa
