import Chakobsa.Codegen.Code
import Mathlib.Data.List.Dedup

/-!
# What the register allocator guarantees

`allocate` colours the values that are not parameters one after the other. `Colored` is what the
allocation satisfies once the values of a list have been treated: parameters keep their positional
register, other values have a register from the reserved ones on or a spill slot, spill slots are
handed out from the base on without a gap, and two interfering values never share a register.
-/

namespace Chakobsa
namespace Codegen

open Ir ExceptLemmas

/-- The allocation after the values of `done` have been treated. -/
structure Colored (params reserved base : ℕ) (neighbours : ValueId → ValueSet)
    (done : List ValueId) (alloc : Allocation) : Prop where
  param : ∀ v, v < params → alloc.registers v = some v
  register : ∀ v r, params ≤ v → alloc.registers v = some r →
    v ∈ done ∧ reserved ≤ r ∧ r < NUM_GP_REGS
  /-- Spill slots stand one after the other from the base on. -/
  slot : ∀ k p, alloc.spills[k]? = some p → p.2 = base + 8 * k
  spillNodup : (alloc.spills.map Prod.fst).Nodup
  spilled : ∀ v ∈ alloc.spills.map Prod.fst, v ∈ done ∧ alloc.registers v = none
  located : ∀ v ∈ done, (alloc.registers v).isSome ∨ v ∈ alloc.spills.map Prod.fst
  /-- Of two values with one register, one is no neighbour of the other. -/
  apart : ∀ v w r, v ≠ w → alloc.registers v = some r → alloc.registers w = some r →
    w ∉ neighbours v ∨ v ∉ neighbours w

section Color

variable {params reserved base : ℕ} {neighbours : ValueId → ValueSet} {done : List ValueId}
  {alloc : Allocation} {v : ValueId}

theorem chooseRegister_some {ns : ValueSet} {registers : ValueId → Option ℕ} {r : ℕ}
    (h : chooseRegister reserved ns registers = some r) :
    reserved ≤ r ∧ r < NUM_GP_REGS ∧ ∀ n ∈ ns, registers n ≠ some r := by
  unfold chooseRegister at h
  have hmem := List.mem_of_find?_eq_some h
  have hall := List.find?_some h
  rw [List.mem_range'] at hmem
  obtain ⟨i, hi, rfl⟩ := hmem
  refine ⟨by omega, by omega, ?_⟩
  simpa using hall

/-- Treating one more value. -/
theorem Colored.allocateValue (h : Colored params reserved base neighbours done alloc)
    (hv : v ∉ done) (hp : params ≤ v) :
    Colored params reserved base neighbours (v :: done)
      (allocateValue reserved base neighbours alloc v) := by
  have hnone : alloc.registers v = none := by
    cases hr : alloc.registers v with
    | none => rfl
    | some r => exact absurd (h.register v r hp hr).1 hv
  have hspill : v ∉ alloc.spills.map Prod.fst := fun hm => hv (h.spilled v hm).1
  unfold Codegen.allocateValue
  cases hc : chooseRegister reserved (neighbours v) alloc.registers with
  | some r =>
    -- a register that no neighbour has
    obtain ⟨hlo, hhi, hfree⟩ := chooseRegister_some hc
    refine ⟨fun w hw => ?_, fun w s hw hs => ?_, h.slot, h.spillNodup, fun w hw => ?_,
      fun w hw => ?_, fun w x s hne hws hxs => ?_⟩
    · simp only [if_neg (show w ≠ v by omega), h.param w hw]
    · by_cases hwv : w = v
      · obtain rfl : r = s := by simpa [hwv] using hs
        exact ⟨hwv ▸ List.mem_cons_self, hlo, hhi⟩
      · obtain ⟨hd, hb⟩ := h.register w s hw (by simpa [hwv] using hs)
        exact ⟨List.mem_cons_of_mem _ hd, hb⟩
    · have hwv : w ≠ v := fun he => hspill (he ▸ hw)
      obtain ⟨hd, hn⟩ := h.spilled w hw
      exact ⟨List.mem_cons_of_mem _ hd, by simpa [hwv] using hn⟩
    · by_cases hwv : w = v
      · simp [hwv]
      · have := h.located w ((List.mem_cons.mp hw).resolve_left hwv)
        simpa [hwv] using this
    · by_cases hwv : w = v
      · have hxv : x ≠ v := fun he => hne (hwv.trans he.symm)
        obtain rfl : r = s := by simpa [hwv] using hws
        exact .inl fun hm => hfree x (hwv ▸ hm) (by simpa [hxv] using hxs)
      · by_cases hxv : x = v
        · obtain rfl : r = s := by simpa [hxv] using hxs
          exact .inr fun hm => hfree w (hxv ▸ hm) (by simpa [hwv] using hws)
        · exact h.apart w x s hne (by simpa [hwv] using hws) (by simpa [hxv] using hxs)
  | none =>
    -- no register is free: the next spill slot, behind all others
    refine ⟨h.param, fun w s hw hs => ?_, fun k p hk => ?_, ?_, fun w hw => ?_, fun w hw => ?_,
      h.apart⟩
    · obtain ⟨hd, hb⟩ := h.register w s hw hs
      exact ⟨List.mem_cons_of_mem _ hd, hb⟩
    · rw [List.getElem?_append] at hk
      split at hk
      · exact h.slot k p hk
      · obtain ⟨hz, rfl⟩ : k - alloc.spills.length = 0 ∧ _ = p := by
          simpa [List.getElem?_singleton] using hk
        show base + 8 * alloc.spills.length = base + 8 * k
        omega
    · rw [List.map_append, List.nodup_append]
      refine ⟨h.spillNodup, by simp, fun a ha b hb => ?_⟩
      obtain rfl : b = v := by simpa using hb
      exact fun he => hspill (he ▸ ha)
    · rw [List.map_append, List.mem_append] at hw
      rcases hw with hw | hw
      · obtain ⟨hd, hn⟩ := h.spilled w hw
        exact ⟨List.mem_cons_of_mem _ hd, hn⟩
      · obtain rfl : w = v := by simpa using hw
        exact ⟨List.mem_cons_self, hnone⟩
    · rcases List.mem_cons.mp hw with rfl | hw
      · simp
      · rcases h.located w hw with hl | hl
        · exact .inl hl
        · exact .inr (by simp [hl])

/-- Treating a list of further values. -/
theorem Colored.foldl (h : Colored params reserved base neighbours done alloc) {vs : List ValueId}
    (hnd : vs.Nodup) (hv : ∀ v ∈ vs, v ∉ done ∧ params ≤ v) :
    Colored params reserved base neighbours (vs.reverse ++ done)
      (vs.foldl (Codegen.allocateValue reserved base neighbours) alloc) := by
  induction vs generalizing done alloc with
  | nil => simpa using h
  | cons v vs ih =>
    obtain ⟨hnot, hnd⟩ := List.nodup_cons.mp hnd
    obtain ⟨hvd, hvp⟩ := hv v List.mem_cons_self
    rw [List.foldl_cons, List.reverse_cons, List.append_assoc]
    refine ih (h.allocateValue hvd hvp) hnd fun w hw => ?_
    obtain ⟨hwd, hwp⟩ := hv w (List.mem_cons_of_mem _ hw)
    refine ⟨?_, hwp⟩
    rw [List.singleton_append, List.mem_cons, not_or]
    exact ⟨fun he => hnot (he ▸ hw), hwd⟩

end Color

/-- The values to be coloured are the ids of instructions that are not parameters. -/
theorem mem_others {f : Function} {v : ValueId} :
    v ∈ others f ↔ f.params.length ≤ v ∧ v ∈ f.insts.map (·.id) := by
  unfold others paramRegisters
  rw [List.mem_insertionSort, List.mem_filter, List.mem_dedup, List.mem_append, List.mem_range]
  by_cases hv : v < f.params.length
  · simp [hv, Nat.not_le.mpr hv]
  · simp [hv, Nat.not_lt.mp hv]

theorem others_nodup (f : Function) : (others f).Nodup := by
  unfold others
  exact (List.perm_insertionSort _ _).nodup_iff.mpr ((List.nodup_dedup _).filter _)

/-- The live sets the interference relation is built from. -/
def withinOf (live : List (BlockId × ValueSet)) (b : BlockId) : ValueSet :=
  ((live.find? fun p => p.1 == b).map Prod.snd).getD []

/-- What a successful allocation guarantees. -/
theorem allocate_ok {f : Function} {base reserved : ℕ} {alloc : Allocation}
    (h : allocate f base reserved = .ok alloc) :
    f.params.length ≤ NUM_GP_REGS ∧ ∃ l live, analyze f = .ok l ∧
      List.Forall₂ (fun b p => p.1 = b.id ∧ liveWithinBlock f b.id l = .ok p.2) f.blocks live ∧
      Colored f.params.length reserved base (interferes f (withinOf live)) (others f).reverse
        alloc := by
  unfold allocate withInterference at h
  split at h
  · simp at h
  · next hp =>
    simp only [bind_eq_ok, mapM_eq_ok] at h
    obtain ⟨l, hl, live, hlive, h⟩ := h
    obtain rfl := Except.ok.inj h
    refine ⟨by omega, l, live, hl, hlive.imp ?_, ?_⟩
    · rintro b p ⟨s, hs, hsp⟩
      obtain rfl := Except.ok.inj hsp
      exact ⟨rfl, hs⟩
    · have hstart : Colored f.params.length reserved base (interferes f (withinOf live)) []
          ⟨paramRegisters f, []⟩ := by
        refine ⟨fun v hv => by simp [paramRegisters, hv], fun v r hv hr => ?_, by simp, by simp,
          by simp, by simp, fun v w r hne hv hw => absurd ?_ hne⟩
        · simp [paramRegisters, Nat.not_lt.mpr hv] at hr
        · -- two parameters with one register are at one position
          have hreg : ∀ u s, paramRegisters f u = some s → u = s := by
            intro u s hu
            unfold paramRegisters at hu
            split at hu
            · exact Option.some.inj hu
            · cases hu
          exact (hreg v _ hv).trans (hreg w _ hw).symm
      have := hstart.foldl (others_nodup f) fun v hv => ⟨by simp, (mem_others.mp hv).1⟩
      rw [List.append_nil] at this
      exact this

end Codegen
end Chakobsa
