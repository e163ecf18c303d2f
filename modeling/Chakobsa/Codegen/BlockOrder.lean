import Chakobsa.Codegen.BranchLowering
import Chakobsa.Ir.BlockOrder

/-!
# Allocation does not depend on the order of blocks

The liveness sweeps visit the blocks in order, but what they end with is given by the paths of the
control-flow graph, and these do not change with the order. Everything the allocator and the lowering
read from the sets is a matter of membership: the neighbours of a value, the values to be coloured in
ascending order, the registers to be saved around a call in ascending order of their values. So a
reordered function gets the same allocation, and the same registers are saved at each of its calls.
-/

namespace Chakobsa
namespace Codegen

open Ir ExceptLemmas Chakobsa.Comp

section Liveness

variable {f g : Function} {defs : Defs} {l l' : Liveness} {v : ValueId} {b : BasicBlock}

/-- Paths are the same in both orders. -/
theorem liveAlong_reordered (h : f.Reordered g) (hnd : (f.blocks.map (·.id)).Nodup) (p : BlockId)
    (path : List BlockId) : LiveAlong g v p path ↔ LiveAlong f v p path := by
  have hedge : ∀ p s, g.Edge p s ↔ f.Edge p s := by
    intro p s
    unfold Function.Edge
    rw [h.block hnd]
  induction path generalizing p with
  | nil => exact Iff.rfl
  | cons s rest ih =>
    cases rest with
    | nil => simp only [LiveAlong, hedge, h.block hnd]
    | cons t rest => simp only [LiveAlong, hedge, h.block hnd, ih]

theorem liveOut_reordered (h : f.Reordered g) (hnd : (f.blocks.map (·.id)).Nodup)
    (hl : LivenessExact f l) (hl' : LivenessExact g l') (hb : b ∈ f.blocks) :
    v ∈ l'.liveOut b.id ↔ v ∈ l.liveOut b.id := by
  rw [hl'.liveOut b (h.mem.mpr hb), hl.liveOut b hb]
  exact exists_congr fun path => liveAlong_reordered h hnd b.id path

/-- The values live in a block are the same. -/
theorem liveWithin_reordered (h : f.Reordered g) (hnd : (f.blocks.map (·.id)).Nodup)
    (hl : LivenessExact f l) (hl' : LivenessExact g l') (hb : b ∈ f.blocks) {s s' : ValueSet}
    (hs : liveWithinBlock f b.id l = .ok s) (hs' : liveWithinBlock g b.id l' = .ok s') :
    v ∈ s' ↔ v ∈ s := by
  have hout := liveOut_reordered (v := v) h hnd hl hl' hb
  have hin : v ∈ l'.liveIn b.id ↔ v ∈ l.liveIn b.id := by
    rw [hl'.liveIn b (h.mem.mpr hb), hl.liveIn b hb, hout]
  rw [mem_liveWithin hnd hb hs, mem_liveWithin (h.nodup hnd) (h.mem.mpr hb) hs', hin, hout]

end Liveness

/-! ### The allocation -/

section Allocation

variable {f g : Function} {defs : Defs} {base reserved : ℕ} {alloc : Allocation}

/-- The values to be coloured are listed in ascending order. -/
theorem others_reordered (h : f.Reordered g) : others g = others f := by
  have hsorted : ∀ f : Function, (others f).Pairwise (· ≤ ·) := fun f =>
    List.pairwise_insertionSort _ _
  refine List.Perm.eq_of_pairwise' (hsorted g) (hsorted f) ?_
  refine (List.perm_ext_iff_of_nodup (others_nodup g) (others_nodup f)).mpr fun v => ?_
  have hinsts : f.insts.Perm g.insts := h.perm.flatMap_right _
  rw [mem_others, mem_others, h.params, (hinsts.map (·.id)).mem_iff]

/-- Only the members of the neighbours count. -/
theorem allocateValue_congr {neighbours neighbours' : ValueId → ValueSet}
    (h : ∀ v w, w ∈ neighbours' v ↔ w ∈ neighbours v) :
    allocateValue reserved base neighbours' = allocateValue reserved base neighbours := by
  have hall : ∀ v (p : ValueId → Bool), (neighbours' v).all p = (neighbours v).all p := by
    intro v p
    rw [Bool.eq_iff_iff, List.all_eq_true, List.all_eq_true]
    exact forall_congr' fun w => by rw [h]
  funext alloc v
  simp only [allocateValue, chooseRegister, hall]

/-- What `allocate` computes. -/
theorem allocate_eq (h : allocate f base reserved = .ok alloc) : ∃ l live, analyze f = .ok l ∧
    List.Forall₂ (fun b p => p.1 = b.id ∧ liveWithinBlock f b.id l = .ok p.2) f.blocks live ∧
    alloc = (others f).foldl (allocateValue reserved base (interferes f (withinOf live)))
      ⟨paramRegisters f, []⟩ := by
  unfold allocate withInterference at h
  split at h
  · simp at h
  · simp only [bind_eq_ok, mapM_eq_ok] at h
    obtain ⟨l, hl, live, hlive, h⟩ := h
    refine ⟨l, live, hl, hlive.imp ?_, (Except.ok.inj h).symm⟩
    rintro b p ⟨s, hs, hsp⟩
    obtain rfl := Except.ok.inj hsp
    exact ⟨rfl, hs⟩

/-- **A reordered function gets the same allocation.** -/
theorem allocate_reordered (h : f.Reordered g) (hv : Validated f defs)
    (halloc : allocate f base reserved = .ok alloc) : allocate g base reserved = .ok alloc := by
  have hvg := h.validated hv
  have hparams : g.params.length ≤ NUM_GP_REGS := h.params ▸ (allocate_ok halloc).1
  obtain ⟨alloc', halloc'⟩ := allocate_valid hvg hparams base reserved
  obtain ⟨l, live, hl, hlive, rfl⟩ := allocate_eq halloc
  obtain ⟨l', live', hl', hlive', rfl⟩ := allocate_eq halloc'
  obtain ⟨_, hla, hexact⟩ := analyze_valid hv
  obtain rfl := Except.ok.inj (hla.symm.trans hl)
  obtain ⟨_, hla', hexact'⟩ := analyze_valid hvg
  obtain rfl := Except.ok.inj (hla'.symm.trans hl')
  -- the recorded sets have the same members, so the neighbours are the same
  have hwithin : ∀ b ∈ f.blocks, ∀ v, v ∈ withinOf live' b.id ↔ v ∈ withinOf live b.id := by
    intro b hb v
    obtain ⟨s, hs⟩ := liveWithin_exists _ hv.nodup hb
    obtain ⟨s', hs'⟩ := liveWithin_exists _ hvg.nodup (h.mem.mpr hb)
    rw [withinOf_eq hlive hb hs, withinOf_eq hlive' (h.mem.mpr hb) hs']
    exact liveWithin_reordered h hv.nodup hexact hexact' hb hs hs'
  have hneighbours : ∀ v w, w ∈ interferes g (withinOf live') v ↔ w ∈ interferes f (withinOf live) v := by
    intro v w
    rw [mem_interferes, mem_interferes]
    refine exists_congr fun b => ?_
    rw [h.mem]
    refine and_congr_right fun hb => ?_
    rw [hwithin b hb, hwithin b hb]
  have hregs : paramRegisters g = paramRegisters f := by
    unfold paramRegisters
    rw [h.params]
  rw [halloc', others_reordered h, allocateValue_congr hneighbours, hregs]

end Allocation

/-! ### The saved registers -/

section Saved

variable {f g : Function} {alloc : Allocation} {liveness liveness' : Liveness} {block : BlockId}
  {self : ValueId} {saved : List (ValueId × ℕ)}

/-- Two lists in ascending order of their keys with the same members are the same. -/
theorem sorted_ext {l l' : List (ValueId × ℕ)} (hl : l.Pairwise fun p q => p.1 < q.1)
    (hl' : l'.Pairwise fun p q => p.1 < q.1) (h : ∀ v r, (v, r) ∈ l' ↔ (v, r) ∈ l) : l' = l := by
  have hnd : ∀ l : List (ValueId × ℕ), (l.Pairwise fun p q => p.1 < q.1) → l.Nodup := by
    intro l hl
    exact hl.imp fun {p q} hlt heq => Nat.ne_of_lt hlt (congrArg Prod.fst heq)
  refine List.Perm.eq_of_pairwise (fun p q _ _ hpq hqp => ?_) hl' hl
    ((List.perm_ext_iff_of_nodup (hnd l' hl') (hnd l hl)).mpr fun p => h p.1 p.2)
  exact absurd (Nat.lt_trans hpq hqp) (Nat.lt_irrefl _)

/-- The registers to be saved exist if the live values have locations. -/
theorem saveRegs_exists {live : ValueSet} (hlive : liveWithinBlock f block liveness = .ok live)
    (h : ∀ v ∈ live, v ≠ self → alloc.Located v) :
    ∃ saved, saveRegs f alloc liveness block self = .ok saved := by
  have hlocs : ((live.filter (· ≠ self)).mapM fun v => do return (v, ← locOf alloc v)) =
      (.ok ((live.filter (· ≠ self)).map fun v => (v, alloc.loc v)) : CodegenM _) := by
    rw [mapM_eq_ok]
    generalize hvs : live.filter (· ≠ self) = vs
    have hvs : ∀ v ∈ vs, alloc.Located v := by
      intro v hv
      rw [← hvs, List.mem_filter, decide_eq_true_eq] at hv
      exact h v hv.1 hv.2
    clear * - hvs
    induction vs with
    | nil => exact .nil
    | cons v vs ih =>
      rw [List.map_cons]
      refine .cons ?_ (ih fun w hw => hvs w (List.mem_cons_of_mem _ hw))
      rw [locOf_located (hvs v List.mem_cons_self)]
      rfl
  simp only [saveRegs, hlive, ok_bind, hlocs]
  exact ⟨_, rfl⟩

/-- **The same registers are saved at a call of a reordered function.** -/
theorem saveRegs_reordered (h : f.Reordered g) (hnd : (f.blocks.map (·.id)).Nodup)
    (hl : LivenessExact f liveness) (hl' : LivenessExact g liveness') {b : BasicBlock}
    (hb : b ∈ f.blocks) (hlocated : ∀ live, liveWithinBlock f b.id liveness = .ok live →
      ∀ v ∈ live, alloc.Located v)
    (hsaved : saveRegs f alloc liveness b.id self = .ok saved) :
    saveRegs g alloc liveness' b.id self = .ok saved := by
  obtain ⟨live, hlive, hmem⟩ := saveRegs_ok hsaved
  obtain ⟨live', hlive'⟩ := liveWithin_exists liveness' (h.nodup hnd) (h.mem.mpr hb)
  have hsame : ∀ v, v ∈ live' ↔ v ∈ live := fun v =>
    liveWithin_reordered h hnd hl hl' hb hlive hlive'
  obtain ⟨saved', hsaved'⟩ : ∃ saved', saveRegs g alloc liveness' b.id self = .ok saved' :=
    saveRegs_exists hlive' fun v hv _ => hlocated live hlive v ((hsame v).mp hv)
  obtain ⟨_, hlive'', hmem'⟩ := saveRegs_ok hsaved'
  obtain rfl := Except.ok.inj (hlive''.symm.trans hlive')
  rw [hsaved', sorted_ext (saveRegs_sorted hsaved) (saveRegs_sorted hsaved') fun v r => ?_]
  rw [hmem', hmem, hsame]

end Saved

end Codegen
end Chakobsa
