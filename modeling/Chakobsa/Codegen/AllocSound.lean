import Chakobsa.Codegen.AllocFacts
import Chakobsa.Codegen.LivenessExact

/-!
# Register allocation is sound

On a validated function with no more parameters than there are registers `allocate` ends well
(`allocate_valid`), and the allocation it returns gives every value one place and keeps values that
are live in one block apart (`soundAllocation_of_allocate`). The colouring itself is treated in `Chakobsa.Codegen.AllocFacts`; here the
interference relation it works with is connected to the live sets.

The source counts the addresses of spill slots in a `u64`. So it returns this allocation exactly if
the address behind the last slot is one (`allocate64_eq`, `allocate_sound`).
-/

namespace Chakobsa
namespace Codegen

open Ir ExceptLemmas

/-- What an allocation has to satisfy. -/
structure SoundAllocation (f : Function) (spillBase reserved : ℕ) (alloc : Allocation) : Prop where
  /-- Every value has a register or a spill slot, and not both. -/
  located : ∀ v, v < f.params.length ∨ v ∈ f.insts.map (·.id) →
    ((alloc.registers v).isSome ∧ alloc.spillOf v = none) ∨
      (alloc.registers v = none ∧ (alloc.spillOf v).isSome)
  /-- Values live in one block have different registers. -/
  apart : ∀ l b s, analyze f = .ok l → b ∈ f.blocks → liveWithinBlock f b.id l = .ok s →
    ∀ v ∈ s, ∀ w ∈ s, v ≠ w → ∀ r, alloc.registers v = some r → alloc.registers w ≠ some r
  /-- Spill slots are 8 bytes apart, from the base on. -/
  spilled : ∀ v a, alloc.spillOf v = some a → ∃ k < alloc.spills.length, a = spillBase + 8 * k
  distinct : ∀ v w a, alloc.spillOf v = some a → alloc.spillOf w = some a → v = w
  param : ∀ i < f.params.length, alloc.registers i = some i
  register : ∀ v r, f.params.length ≤ v → alloc.registers v = some r → reserved ≤ r ∧ r < NUM_GP_REGS

section Interference

variable {f : Function} {within : BlockId → ValueSet} {v w : ValueId}

theorem mem_interferes : w ∈ interferes f within v ↔
    ∃ b ∈ f.blocks, v ∈ within b.id ∧ w ∈ within b.id ∧ w ≠ v := by
  have hfold : ∀ (bs : List BasicBlock) (acc : ValueSet), w ∈ bs.foldl (fun acc b =>
      if v ∈ within b.id then acc ∪ (within b.id).filter (· ≠ v) else acc) acc ↔
        w ∈ acc ∨ ∃ b ∈ bs, v ∈ within b.id ∧ w ∈ within b.id ∧ w ≠ v := by
    intro bs
    induction bs with
    | nil => simp
    | cons b bs ih =>
      intro acc
      rw [List.foldl_cons, ih, List.exists_mem_cons_iff, ← or_assoc]
      refine or_congr_left ?_
      split
      · next hv => simp [List.mem_union_iff, hv]
      · next hv => simp [hv]
  exact (hfold f.blocks []).trans (or_iff_right List.not_mem_nil)

/-- The live set recorded for a block is that of the block. -/
theorem withinOf_eq {bs : List BasicBlock} {live : List (BlockId × ValueSet)} {l : Liveness}
    (h : List.Forall₂ (fun b p => p.1 = b.id ∧ liveWithinBlock f b.id l = .ok p.2) bs live)
    {b : BasicBlock} (hb : b ∈ bs) {s : ValueSet} (hs : liveWithinBlock f b.id l = .ok s) :
    withinOf live b.id = s := by
  obtain ⟨q, hq, hqb, -⟩ := related_of_mem_left h hb
  obtain ⟨p, hp⟩ : ∃ p, live.find? (fun p => p.1 == b.id) = some p :=
    Option.isSome_iff_exists.mp (List.find?_isSome.mpr ⟨q, hq, by simp [hqb]⟩)
  have hpb : p.1 = b.id := by simpa using List.find?_some hp
  -- the entry found is that of a block with the same id
  obtain ⟨c, -, hpc, hps⟩ := related_of_mem_right h (List.mem_of_find?_eq_some hp)
  rw [← hpc, hpb] at hps
  unfold withinOf
  rw [hp]
  exact Except.ok.inj (hps.symm.trans hs)

end Interference

section Spills

variable {params reserved base : ℕ} {neighbours : ValueId → ValueSet} {done : List ValueId}
  {alloc : Allocation} {v : ValueId}

theorem spillOf_some {a : ℕ} (h : alloc.spillOf v = some a) : (v, a) ∈ alloc.spills := by
  obtain ⟨p, hp, rfl⟩ := Option.map_eq_some_iff.mp h
  have hv : p.1 = v := by simpa using List.find?_some hp
  exact hv ▸ List.mem_of_find?_eq_some hp

theorem spillOf_isSome : (alloc.spillOf v).isSome ↔ v ∈ alloc.spills.map Prod.fst := by
  simp [Allocation.spillOf]

/-- A spill slot is that of its position. -/
theorem Colored.spillOf (h : Colored params reserved base neighbours done alloc) {a : ℕ}
    (ha : alloc.spillOf v = some a) : ∃ k, alloc.spills[k]? = some (v, a) ∧ a = base + 8 * k := by
  obtain ⟨k, hk⟩ := List.mem_iff_getElem?.mp (spillOf_some ha)
  exact ⟨k, hk, h.slot k _ hk⟩

end Spills

/-- What `allocate` returns is sound. -/
theorem soundAllocation_of_allocate {f : Function} {spillBase reserved : ℕ} {alloc : Allocation}
    (h : allocate f spillBase reserved = .ok alloc) : SoundAllocation f spillBase reserved alloc := by
  obtain ⟨-, l, live, hl, hlive, hcolored⟩ := allocate_ok h
  refine ⟨fun v hdef => ?_, fun l₁ b s hl₁ hb hs v hvs w hws hne r hr hr' => ?_, fun v a ha => ?_,
    fun v w a ha hb => ?_, hcolored.param, fun v r hp hr => (hcolored.register v r hp hr).2⟩
  · by_cases hp : v < f.params.length
    · refine .inl ⟨by rw [hcolored.param v hp]; rfl, Option.not_isSome_iff_eq_none.mp fun hs => ?_⟩
      have hmem := (hcolored.spilled v (spillOf_isSome.mp hs)).1
      exact absurd (mem_others.mp (List.mem_reverse.mp hmem)).1 (Nat.not_le.mpr hp)
    · have hdone : v ∈ (others f).reverse :=
        List.mem_reverse.mpr (mem_others.mpr ⟨Nat.not_lt.mp hp, hdef.resolve_left hp⟩)
      cases hr : alloc.registers v with
      | none =>
        have := (hcolored.located v hdone).resolve_left (by simp [hr])
        exact .inr ⟨rfl, spillOf_isSome.mpr this⟩
      | some r =>
        refine .inl ⟨rfl, Option.not_isSome_iff_eq_none.mp fun hs => ?_⟩
        have := (hcolored.spilled v (spillOf_isSome.mp hs)).2
        rw [hr] at this
        cases this
  · -- values that are live in one block are neighbours, on either side
    obtain rfl : l₁ = l := Except.ok.inj (hl₁.symm.trans hl)
    have hwithin := withinOf_eq hlive hb hs
    have hint : ∀ u x, u ∈ s → x ∈ s → x ≠ u → x ∈ interferes f (withinOf live) u := by
      intro u x hu hx hxu
      exact mem_interferes.mpr ⟨b, hb, by rw [hwithin]; exact hu, by rw [hwithin]; exact hx, hxu⟩
    rcases hcolored.apart v w r hne hr hr' with h | h
    · exact h (hint v w hvs hws hne.symm)
    · exact h (hint w v hws hvs hne)
  · obtain ⟨k, hk, rfl⟩ := hcolored.spillOf ha
    exact ⟨k, (List.getElem?_eq_some_iff.mp hk).1, rfl⟩
  · obtain ⟨k, hk, hak⟩ := hcolored.spillOf ha
    obtain ⟨m, hm, ham⟩ := hcolored.spillOf hb
    obtain rfl : k = m := by omega
    exact congrArg Prod.fst (Option.some.inj (hk.symm.trans hm))

/-- An accepted function with few enough parameters is allocated. -/
theorem allocate_valid {f : Function} {defs : Defs} (hv : Validated f defs)
    (hparams : f.params.length ≤ NUM_GP_REGS) (spillBase reserved : ℕ) :
    ∃ alloc, allocate f spillBase reserved = .ok alloc := by
  obtain ⟨l, hl, -⟩ := analyze_valid hv
  have hwithin : ∀ b ∈ f.blocks, ∃ s, liveWithinBlock f b.id l = .ok s := by
    intro b hb
    unfold liveWithinBlock usedAndDefinedInBlock
    rw [Function.block_of_mem hv.nodup hb]
    exact ⟨_, rfl⟩
  obtain ⟨live, hlive⟩ := mapM_exists (l := f.blocks)
    (f := fun b => do return (b.id, ← liveWithinBlock f b.id l)) fun b hb => by
      obtain ⟨s, hs⟩ := hwithin b hb
      exact ⟨(b.id, s), by rw [hs]; rfl⟩
  unfold allocate withInterference
  rw [if_neg (Nat.not_lt.mpr hparams), hl, ok_bind, hlive, ok_bind]
  exact ⟨_, rfl⟩

section Addresses

variable {reserved base : ℕ} {neighbours : ValueId → ValueSet} {alloc : Allocation} {vs : List ValueId}

theorem spills_length_le_foldl (reserved base : ℕ) (neighbours : ValueId → ValueSet)
    (vs : List ValueId) (alloc : Allocation) :
    alloc.spills.length ≤ (vs.foldl (allocateValue reserved base neighbours) alloc).spills.length := by
  induction vs generalizing alloc with
  | nil => exact Nat.le_refl _
  | cons v vs ih =>
    refine Nat.le_trans ?_ (ih _)
    unfold allocateValue
    split
    · exact Nat.le_refl _
    · simp

/-- The address behind the slots handed out so far. -/
def Allocation.nextAddr (base : ℕ) (alloc : Allocation) : ℕ := base + 8 * alloc.spills.length

/-- One value: the address that follows has to be a `u64`. -/
theorem allocateValue64_eq (v : ValueId) (h : alloc.nextAddr base < 2 ^ 64) :
    allocateValue64 reserved neighbours (alloc, alloc.nextAddr base) v =
      let alloc' := allocateValue reserved base neighbours alloc v
      if alloc'.nextAddr base < 2 ^ 64 then .ok (alloc', alloc'.nextAddr base)
      else Comp.panic .spillAddrOverflow := by
  cases hc : chooseRegister reserved (neighbours v) alloc.registers with
  | some r =>
    simp only [allocateValue64, allocateValue, hc]
    exact (if_pos h).symm
  | none =>
    have hv : allocateValue reserved base neighbours alloc v =
        { alloc with spills := alloc.spills ++ [(v, alloc.nextAddr base)] } := by
      simp only [allocateValue, hc, Allocation.nextAddr]
    have hnext : (allocateValue reserved base neighbours alloc v).nextAddr base =
        alloc.nextAddr base + 8 := by
      rw [hv]
      simp only [Allocation.nextAddr, List.length_append, List.length_singleton]
      omega
    simp only [allocateValue64, hc, bumpSpillAddr, hnext]
    rw [hv]
    by_cases hfit : alloc.nextAddr base + 8 < 2 ^ 64
    · rw [if_pos hfit, if_pos hfit, Comp.expect_some, ok_bind]
      rfl
    · rw [if_neg hfit, if_neg hfit, Comp.expect_none]
      rfl

/-- The loop over `u64` addresses does what the loop over natural numbers does, as long as the next
address is a `u64`. -/
theorem foldlM_allocateValue64 (vs : List ValueId) (h : alloc.nextAddr base < 2 ^ 64) :
    vs.foldlM (allocateValue64 reserved neighbours) (alloc, alloc.nextAddr base) =
      let alloc' := vs.foldl (allocateValue reserved base neighbours) alloc
      if alloc'.nextAddr base < 2 ^ 64 then .ok (alloc', alloc'.nextAddr base)
      else Comp.panic .spillAddrOverflow := by
  induction vs generalizing alloc with
  | nil => exact (if_pos h).symm
  | cons v vs ih =>
    rw [List.foldlM_cons, List.foldl_cons, allocateValue64_eq v h]
    generalize allocateValue reserved base neighbours alloc v = alloc₁
    by_cases hfit : alloc₁.nextAddr base < 2 ^ 64
    · simp only [if_pos hfit]
      exact ih hfit
    · -- the first slot that does not fit ends the loop; the one over naturals only grows
      have hle := spills_length_le_foldl reserved base neighbours vs alloc₁
      have hbig : ¬ (vs.foldl (allocateValue reserved base neighbours) alloc₁).nextAddr base <
          2 ^ 64 := by
        unfold Allocation.nextAddr at hfit ⊢
        omega
      simp only [if_neg hfit, if_neg hbig]
      rfl

/-- `allocate64` is `allocate` if the address behind the last slot is a `u64`, and overflows
otherwise. -/
theorem allocate64_eq {f : Function} {alloc : Allocation} (hbase : base < 2 ^ 64)
    (h : allocate f base reserved = .ok alloc) :
    allocate64 f base reserved =
      if alloc.nextAddr base < 2 ^ 64 then .ok alloc else Comp.panic .spillAddrOverflow := by
  unfold allocate withInterference at h
  unfold allocate64 withInterference
  split at h
  · simp at h
  · next hp =>
    simp only [bind_eq_ok] at h
    obtain ⟨l, hl, live, hlive, h⟩ := h
    obtain rfl := Except.ok.inj h
    have hstart : Allocation.nextAddr base ⟨paramRegisters f, []⟩ = base := rfl
    have hloop : _ = _ := @foldlM_allocateValue64 reserved base (interferes f (withinOf live))
      ⟨paramRegisters f, []⟩ (others f) (hstart ▸ hbase)
    rw [if_neg hp, hl, ok_bind, hlive, ok_bind]
    rw [hstart] at hloop
    unfold withinOf at hloop
    simp only [hloop]
    generalize (others f).foldl _ _ = alloc
    by_cases hfit : alloc.nextAddr base < 2 ^ 64
    · rw [if_pos hfit, if_pos hfit]
      rfl
    · rw [if_neg hfit, if_neg hfit]
      rfl

/-- Only values that instructions define are spilled. -/
theorem spills_length_le {f : Function} (h : allocate f base reserved = .ok alloc) :
    alloc.spills.length ≤ f.insts.length := by
  obtain ⟨-, l, live, -, -, hcol⟩ := allocate_ok h
  have hsub : alloc.spills.map Prod.fst ⊆ f.insts.map (·.id) := fun v hv =>
    (mem_others.mp (List.mem_reverse.mp (hcol.spilled v hv).1)).2
  simpa using (hcol.spillNodup.subperm hsub).length_le

end Addresses

/-- **Register allocation is sound.** There is one sound allocation that `allocate` returns if the
address behind its last spill slot is still a `u64`; otherwise it panics when it counts on to that
address. -/
theorem allocate_sound {f : Function} (hok : validateFunction f = .ok ())
    (hparams : f.params.length ≤ NUM_GP_REGS) (spillBase reserved : ℕ) (hbase : spillBase < 2 ^ 64) :
    ∃ alloc, SoundAllocation f spillBase reserved alloc ∧ alloc.spills.length ≤ f.insts.length ∧
      allocate64 f spillBase reserved =
        if spillBase + 8 * alloc.spills.length < 2 ^ 64 then .ok alloc
        else Comp.panic .spillAddrOverflow := by
  obtain ⟨defs, hv⟩ := validateFunction_ok_iff.mp hok
  obtain ⟨alloc, halloc⟩ := allocate_valid hv hparams spillBase reserved
  exact ⟨alloc, soundAllocation_of_allocate halloc, spills_length_le halloc, allocate64_eq hbase halloc⟩

theorem allocate_sound_countUp :
    ∃ alloc, SoundAllocation countUp 4096 2 alloc ∧ alloc.spills.length ≤ countUp.insts.length ∧
      allocate64 countUp 4096 2 =
        if 4096 + 8 * alloc.spills.length < 2 ^ 64 then .ok alloc
        else Comp.panic .spillAddrOverflow :=
  allocate_sound rfl (by decide) 4096 2 (by decide)

/-- `return 1 + 2;`, whose operands are live together. -/
def onePlusTwo : Function where
  name := "f"
  params := []
  retTy := some .i64
  entry := 0
  blocks := [⟨0, [⟨0, .i64, .constI64 1⟩, ⟨1, .i64, .constI64 2⟩, ⟨2, .i64, .bin .add 0 1⟩],
    some (.ret (some 2))⟩]

/-- From the last multiple of 8 below 2^64 on there is no room for two slots. -/
theorem onePlusTwo_overflow : validateFunction onePlusTwo = .ok () ∧
    allocate64 onePlusTwo (2 ^ 64 - 8) NUM_GP_REGS = Comp.panic .spillAddrOverflow := by
  exact ⟨by decide, rfl⟩

end Codegen
end Chakobsa
