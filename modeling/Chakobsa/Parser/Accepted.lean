import Chakobsa.Parser.Consistency
import Chakobsa.Parser.Preservation

/-!
# The phis of accepted modules

Where `validate_module` accepts what `parse` returns, every function has a history in which no terminator
was lost (`finished_of_validate`). So its phis have one operand for each predecessor of their blocks
(`parse_phis`). The validator does not see to that itself: it counts the operands and looks each block
up among the predecessors, and would accept a block named twice in another's place.
-/

namespace Chakobsa
namespace Parser

open Ir Lexer Chakobsa.Comp ExceptLemmas FnContext SsaBuilder

section Phis

variable {source : String} {M : Module} {f : Function} {G : Ghost} {B : SsaBuilder} {b : BlockId}
  {incoming : List (BlockId × ValueId)}

/-- The functions of an accepted source are left behind by the builder. -/
theorem parse_steady (h : parse source = .ok M) (hf : f ∈ M.functions) :
    ∃ B : SsaBuilder, B.Steady ∧ f = B.func := by
  obtain ⟨n, sigs, start, rest, hfn⟩ := parse_function_of_mem h hf
  obtain ⟨B, hB, hfunc⟩ := parseFunction_ok hfn
  have hfollows := Backend.strict_follows fun _ _ => .error .outOfFuel
  exact ⟨B, (hfollows.parseFunction n sigs start).2 B rest hB, hfunc⟩

/-- A function of an accepted module has a history without lost terminators. -/
theorem finished_of_validate (hp : parse source = .ok M) (hM : validateModule M = .ok ())
    (hf : f ∈ M.functions) : ∃ G : Ghost, G.Finished ∧ G.builder.func = f := by
  obtain ⟨P, hr⟩ := parse_ok hp
  obtain ⟨-, hok⟩ := (parse_renders hr).mp hp
  obtain ⟨d, -, helab⟩ := related_of_mem_right (mapM_eq_ok.mp hok) hf
  obtain ⟨-, G, hG, hfunc, -⟩ := elabFn_finished helab (plain_of_elabFn helab (terminated_of_validate hM hf))
  exact ⟨G, hG, hfunc⟩

/-- A phi of a finished function has one operand for each predecessor of its block. -/
theorem Ghost.Finished.phi_perm (hG : G.Finished) {i : Instruction} (hi : i ∈ G.builder.func.instsAt b)
    (hk : i.kind = .phi incoming) :
    (incoming.map Prod.fst).Perm (G.builder.func.predecessors b) := by
  by_cases hlog : i ∈ instsOf (G.log b)
  · obtain ⟨-, heq, -⟩ := hG.phis b i hlog incoming hk
    rw [heq]
    exact hG.preds b
  · obtain ⟨-, hperm⟩ := hG.toExact.readPhi_perm hG.allSealed (mem_readPhis.mpr ⟨hi, hlog⟩)
    rwa [hk] at hperm

/-- No block is a predecessor twice, since the targets of a branch differ. -/
theorem SsaBuilder.Steady.predecessors_nodup (h : B.Steady) (b : BlockId) :
    (B.func.predecessors b).Nodup := by
  rw [h.sound.indexed.predecessors_eq, List.nodup_flatMap]
  constructor
  · intro p _
    have hnd : (succsOfTerm (B.func.termAt p)).Nodup := by
      cases ht : B.func.termAt p with
      | none => exact List.nodup_nil
      | some t =>
        cases t with
        | jump s => exact List.nodup_singleton s
        | branch c s₁ s₂ =>
          have hne : s₁ ≠ s₂ := (h.forked.fork p c s₁ s₂ ht).1
          simpa [succsOfTerm, Terminator.successors] using hne
        | ret v => exact List.nodup_nil
    -- so a terminator names `b` once at most
    have hle : ((succsOfTerm (B.func.termAt p)).filter (· == b)).length ≤ 1 := by
      rw [← List.count_eq_length_filter]
      exact List.nodup_iff_count_le_one.mp hnd b
    generalize (succsOfTerm (B.func.termAt p)).filter (· == b) = l at hle
    cases l with
    | nil => exact List.nodup_nil
    | cons s l =>
      obtain rfl : l = [] := List.length_eq_zero_iff.mp (Nat.le_zero.mp (Nat.le_of_succ_le_succ hle))
      exact List.nodup_singleton p
  -- different blocks contribute different predecessors
  · refine List.nodup_range.imp fun {p q} hne x hx hy => hne ?_
    obtain ⟨-, -, rfl⟩ := List.mem_map.mp hx
    obtain ⟨-, -, rfl⟩ := List.mem_map.mp hy
    rfl

/-- The phis of a block are instructions at its id. -/
theorem mem_instsAt_of_phis {f : Function} (h : f.Indexed) {blk : BasicBlock} (hblk : f.block b = some blk)
    (hin : incoming ∈ blk.phis) : ∃ i ∈ f.instsAt b, i.kind = .phi incoming := by
  obtain ⟨i, hi, hk⟩ := BasicBlock.mem_phis.mp hin
  rw [(h.block_some_iff.mp hblk).2] at hi
  exact ⟨i, hi, hk⟩

theorem phi_perm_of_validate (hp : parse source = .ok M) (hM : validateModule M = .ok ())
    (hf : f ∈ M.functions) {blk : BasicBlock} (hblk : f.block b = some blk) (hin : incoming ∈ blk.phis) :
    (incoming.map Prod.fst).Perm (f.predecessors b) := by
  obtain ⟨G, hG, rfl⟩ := finished_of_validate hp hM hf
  obtain ⟨i, hi, hk⟩ := mem_instsAt_of_phis hG.ok.graph.indexed hblk hin
  exact hG.phi_perm hi hk

theorem not_entry_of_validate (hp : parse source = .ok M) (hM : validateModule M = .ok ())
    (hf : f ∈ M.functions) {blk : BasicBlock} (hblk : f.block b = some blk) (hin : incoming ∈ blk.phis) :
    b ≠ f.entry := by
  obtain ⟨G, hG, rfl⟩ := finished_of_validate hp hM hf
  obtain ⟨i, hi, hk⟩ := mem_instsAt_of_phis hG.ok.graph.indexed hblk hin
  -- a phi of the entry block would be an instruction of it
  rintro rfl
  rw [hG.ok.graph.entry] at hi
  have hphi := hG.entry i hi
  rw [hk] at hphi
  cases hphi

/-- No block is a predecessor of another twice, and every phi has one operand for each predecessor of
its block and no other, and is not in the entry block. -/
def ExactPhis (f : Function) : Prop :=
  (∀ b, (f.predecessors b).Nodup) ∧
    ∀ b blk, f.block b = some blk → ∀ incoming ∈ blk.phis,
      (incoming.map Prod.fst).Perm (f.predecessors b) ∧ b ≠ f.entry

/-- **Phis of accepted modules.** The phis of every function of an accepted module are exact. -/
theorem parse_phis (hp : parse source = .ok M) (hM : validateModule M = .ok ()) :
    ∀ f ∈ M.functions, ExactPhis f := by
  intro f hf
  constructor
  · obtain ⟨B, hB, rfl⟩ := parse_steady hp hf
    exact hB.predecessors_nodup
  · intro b blk hblk incoming hin
    exact ⟨phi_perm_of_validate hp hM hf hblk hin, not_entry_of_validate hp hM hf hblk hin⟩

theorem parse_phis_gcd : ∃ M, parse gcdSource = .ok M ∧ ∀ f ∈ M.functions, ExactPhis f := by
  obtain ⟨M, hM, hvalid⟩ := gcdSource_accepted
  exact ⟨M, hM, parse_phis hM hvalid⟩

end Phis

end Parser
end Chakobsa
