import Chakobsa.Codegen.AllocSound
import Chakobsa.Lib.FirstFit

/-!
# The allocator as a first-fit colouring

Which values get a register does not depend on where their spill slots would be. The registers
`allocate` chooses are the first-fit colouring of the interference graph: values in ascending order, the
parameters with their positional registers in front, and the registers from the reserved ones on as the
palette (`allocate_registers`). So `spillCount`, the number of values the colouring leaves without a
register, is the number of spill slots (`allocate_spills`).
-/

namespace Chakobsa
namespace Codegen

open Ir ExceptLemmas

/-- Two values are live in one block. -/
def Interfere (f : Function) (v w : ValueId) : Prop :=
  w ≠ v ∧ ∃ l b s, analyze f = .ok l ∧ b ∈ f.blocks ∧ liveWithinBlock f b.id l = .ok s ∧ v ∈ s ∧ w ∈ s

/-- The first-fit colouring of the interference graph with the registers from `reserved` on. -/
noncomputable def colouring (f : Function) (reserved : ℕ) : ValueId → Option ℕ :=
  firstFit (Set.Ico reserved NUM_GP_REGS) (Interfere f) {v | v ∈ others f} (paramRegisters f)

/-- The number of values the colouring leaves without a register. -/
noncomputable def spillCount (f : Function) (reserved : ℕ) : ℕ :=
  ((others f).filter fun v => colouring f reserved v = none).length

section Colouring

variable {reserved base : ℕ} {neighbours : ValueId → ValueSet} {given : ValueId → Option ℕ}
  {done : List ValueId} {alloc : Allocation} {v : ValueId}

/-- The register chosen is the least one that is available. -/
theorem chooseRegister_eq_some {ns : ValueSet} {registers : ValueId → Option ℕ} {r : ℕ} :
    chooseRegister reserved ns registers = some r ↔
      IsLeast {r | r ∈ Set.Ico reserved NUM_GP_REGS ∧ ∀ n ∈ ns, registers n ≠ some r} r := by
  unfold chooseRegister
  rw [List.find?_range'_eq_some, List.mem_range'_1]
  simp only [List.all_eq_true, decide_eq_true_eq, Bool.not_eq_true', List.all_eq_false, IsLeast,
    lowerBounds, Set.mem_ofPred_eq, Set.mem_Ico]
  constructor
  · rintro ⟨hfree, hr, hless⟩
    refine ⟨⟨by omega, hfree⟩, fun s ⟨hs, hsfree⟩ => ?_⟩
    by_contra hlt
    obtain ⟨n, hn, hns⟩ := hless s hs.1 (Nat.not_le.mp hlt)
    exact hns (hsfree n hn)
  · rintro ⟨⟨hr, hfree⟩, hleast⟩
    refine ⟨hfree, by omega, fun s hs hlt => ?_⟩
    by_contra hall
    push Not at hall
    exact absurd (hleast ⟨⟨hs, by omega⟩, hall⟩) (Nat.not_le.mpr hlt)

/-- The values of `done`, which are the least of those to be coloured, are coloured first-fit. -/
structure Fitted (reserved : ℕ) (neighbours : ValueId → ValueSet) (given : ValueId → Option ℕ)
    (done : List ValueId) (registers : ValueId → Option ℕ) : Prop where
  first : ∀ v ∈ done, ∀ r, registers v = some r ↔
    IsLeast (available (Set.Ico reserved NUM_GP_REGS) (fun v w => w ∈ neighbours v) registers v) r
  rest : ∀ v ∉ done, registers v = given v

theorem allocateValue_registers (w : ValueId) :
    (allocateValue reserved base neighbours alloc v).registers w =
      if w = v then (chooseRegister reserved (neighbours v) alloc.registers).or (alloc.registers v)
      else alloc.registers w := by
  unfold allocateValue
  cases chooseRegister reserved (neighbours v) alloc.registers with
  | some r => rfl
  | none =>
    show alloc.registers w = if w = v then alloc.registers v else alloc.registers w
    split
    · next h => rw [h]
    · rfl

theorem Fitted.allocateValue (h : Fitted reserved neighbours given done alloc.registers)
    (hdone : ∀ w ∈ done, w < v) (hgiven : ∀ w, v ≤ w → given w = none) (hself : v ∉ neighbours v) :
    Fitted reserved neighbours given (v :: done)
      (allocateValue reserved base neighbours alloc v).registers := by
  have hkeep : ∀ w, w ≠ v →
      (Codegen.allocateValue reserved base neighbours alloc v).registers w = alloc.registers w :=
    fun w hw => (allocateValue_registers w).trans (if_neg hw)
  have hlater : ∀ w, v ≤ w → alloc.registers w = none := fun w hw =>
    (h.rest w fun hm => absurd (hdone w hm) (Nat.not_lt.mpr hw)).trans (hgiven w hw)
  refine ⟨fun w hw r => ?_, fun w hw => ?_⟩
  · rcases List.mem_cons.mp hw with rfl | hw
    · rw [allocateValue_registers, if_pos rfl, hlater w (Nat.le_refl w), Option.or_none,
        chooseRegister_eq_some]
      -- the neighbours behind it have no register yet
      have hset : {r | r ∈ Set.Ico reserved NUM_GP_REGS ∧ ∀ n ∈ neighbours w, alloc.registers n ≠ some r} =
          available (Set.Ico reserved NUM_GP_REGS) (fun v w => w ∈ neighbours v)
            (Codegen.allocateValue reserved base neighbours alloc w).registers w := by
        ext r
        refine and_congr_right fun _ => ⟨fun hr n hn hmem => ?_, fun hr n hmem => ?_⟩
        · rw [hkeep n (Nat.ne_of_lt hn)]
          exact hr n hmem
        · rcases Nat.lt_trichotomy n w with hn | rfl | hn
          · rw [← hkeep n (Nat.ne_of_lt hn)]
            exact hr n hn hmem
          · exact absurd hmem hself
          · rw [hlater n (Nat.le_of_lt hn)]
            exact nofun
      rw [hset]
    · have hwv := hdone w hw
      rw [hkeep w (Nat.ne_of_lt hwv), h.first w hw, available_congr fun x hx =>
        (hkeep x (Nat.ne_of_lt (Nat.lt_trans hx hwv))).symm]
  · rw [List.mem_cons, not_or] at hw
    rw [hkeep w hw.1]
    exact h.rest w hw.2

/-- The loop colours ascending values first-fit. -/
theorem Fitted.foldl {vs : List ValueId} (h : Fitted reserved neighbours given done alloc.registers)
    (hsorted : vs.Pairwise (· < ·)) (hdone : ∀ v ∈ vs, ∀ w ∈ done, w < v)
    (hgiven : ∀ v ∈ vs, ∀ w, v ≤ w → given w = none) (hself : ∀ v ∈ vs, v ∉ neighbours v) :
    Fitted reserved neighbours given (vs.reverse ++ done)
      (vs.foldl (Codegen.allocateValue reserved base neighbours) alloc).registers := by
  induction vs generalizing done alloc with
  | nil => simpa using h
  | cons v vs ih =>
    obtain ⟨hlt, hsorted⟩ := List.pairwise_cons.mp hsorted
    rw [List.foldl_cons, List.reverse_cons, List.append_assoc]
    refine ih (h.allocateValue (hdone v List.mem_cons_self) (hgiven v List.mem_cons_self)
      (hself v List.mem_cons_self)) hsorted (fun x hx w hw => ?_)
      (fun x hx => hgiven x (List.mem_cons_of_mem _ hx)) fun x hx => hself x (List.mem_cons_of_mem _ hx)
    rw [List.singleton_append] at hw
    rcases List.mem_cons.mp hw with rfl | hw
    · exact hlt x hx
    · exact hdone x (List.mem_cons_of_mem _ hx) w hw

end Colouring

theorem others_sorted (f : Function) : (others f).Pairwise (· < ·) := by
  have hle : (others f).Pairwise (· ≤ ·) := List.pairwise_insertionSort _ _
  exact hle.imp₂ (fun _ _ => Nat.lt_of_le_of_ne) (others_nodup f)

section Allocate

variable {f : Function} {base reserved : ℕ} {alloc : Allocation}

/-- The interference relation of the source. -/
theorem mem_interferes_iff {l : Liveness} {live : List (BlockId × ValueSet)} (hl : analyze f = .ok l)
    (hlive : List.Forall₂ (fun b p => p.1 = b.id ∧ liveWithinBlock f b.id l = .ok p.2) f.blocks live)
    {v w : ValueId} : w ∈ interferes f (withinOf live) v ↔ Interfere f v w := by
  rw [mem_interferes]
  constructor
  · rintro ⟨b, hb, hv, hw, hne⟩
    obtain ⟨p, -, -, hp⟩ := related_of_mem_left hlive hb
    rw [withinOf_eq hlive hb hp] at hv hw
    exact ⟨hne, l, b, p.2, hl, hb, hp, hv, hw⟩
  · rintro ⟨hne, l', b, s, hl', hb, hs, hv, hw⟩
    obtain rfl : l' = l := Except.ok.inj (hl'.symm.trans hl)
    have hwithin := withinOf_eq hlive hb hs
    exact ⟨b, hb, hwithin ▸ hv, hwithin ▸ hw, hne⟩

/-- **The registers `allocate` chooses are the first-fit colouring of the interference graph.** -/
theorem allocate_registers (h : allocate f base reserved = .ok alloc) :
    alloc.registers = colouring f reserved := by
  unfold allocate withInterference at h
  split at h
  · simp at h
  · simp only [bind_eq_ok, mapM_eq_ok] at h
    obtain ⟨l, hl, live, hlive, h⟩ := h
    obtain rfl := Except.ok.inj h
    have hlive : List.Forall₂ (fun b p => p.1 = b.id ∧ liveWithinBlock f b.id l = .ok p.2) f.blocks
        live := by
      refine hlive.imp ?_
      rintro b p ⟨s, hs, hsp⟩
      obtain rfl := Except.ok.inj hsp
      exact ⟨rfl, hs⟩
    -- nothing is coloured but the parameters
    have hfit : Fitted reserved (interferes f (withinOf live)) (paramRegisters f) []
        (paramRegisters f) := ⟨fun v hv => absurd hv List.not_mem_nil, fun v _ => rfl⟩
    have hfit := @Fitted.foldl reserved base _ _ [] ⟨paramRegisters f, []⟩ _ hfit (others_sorted f)
      (fun _ _ w hw => absurd hw List.not_mem_nil) (fun v hv w hw => ?_) (fun v _ hm => ?_)
    · rw [List.append_nil] at hfit
      refine FirstFit.eq_firstFit ⟨fun v hv => hfit.rest v fun hm => hv (List.mem_reverse.mp hm), ?_⟩
      intro v hv r
      refine (hfit.first v (List.mem_reverse.mpr hv) r).trans (iff_of_eq ?_)
      congr 2
      funext v w
      exact propext (mem_interferes_iff hl hlive)
    · -- nothing is given to the values behind the parameters
      exact if_neg (Nat.not_lt.mpr (Nat.le_trans (mem_others.mp hv).1 hw))
    · exact ((mem_interferes_iff hl hlive).mp hm).1 rfl

/-- Its spill slots are as many as the values the colouring leaves without a register. -/
theorem allocate_spills (h : allocate f base reserved = .ok alloc) :
    alloc.spills.length = spillCount f reserved := by
  obtain ⟨-, l, live, -, -, hcol⟩ := allocate_ok h
  have hperm : (alloc.spills.map Prod.fst).Perm
      ((others f).filter fun v => colouring f reserved v = none) := by
    rw [List.perm_ext_iff_of_nodup hcol.spillNodup ((others_nodup f).filter _)]
    intro v
    rw [List.mem_filter, decide_eq_true_eq, ← allocate_registers h]
    constructor
    · intro hv
      obtain ⟨hdone, hnone⟩ := hcol.spilled v hv
      exact ⟨List.mem_reverse.mp hdone, hnone⟩
    · rintro ⟨hv, hnone⟩
      exact (hcol.located v (List.mem_reverse.mpr hv)).resolve_left (by simp [hnone])
  have hlen := hperm.length_eq
  rwa [List.length_map] at hlen

end Allocate

end Codegen
end Chakobsa
