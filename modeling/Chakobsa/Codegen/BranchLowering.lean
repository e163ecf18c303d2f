import Chakobsa.Codegen.ParallelMove
import Chakobsa.Codegen.LowerTotal
import Chakobsa.Codegen.Emitted
import Chakobsa.Codegen.Regions
import Chakobsa.Ir.Dominance
import Chakobsa.Ir.TypeSoundness

/-!
# When the lowering of a branch is correct

The code of a `Branch` reads the condition, makes the copies for the else-edge, tests the condition
and makes the copies for the then-edge in the thunk. So the copies for the else-edge are made on
both paths, and before the test. `branchLowering_iff` says exactly when the result is what the
interpreter does: no phi of the else-target may be allocated where the condition is tested, or where
a value is that the then-edge still needs, unless it has that very value.
-/

namespace Chakobsa
namespace Codegen

open Ir ExceptLemmas

/-! ### Running a tail -/

/-- The pending blocks after a branch one after the other, up to the block of the function control
goes to: a `Jz` that is not taken falls through to the next of them. -/
def runPending (m : MemorySize) : List PendingBlock → Cells → Except Trap (BlockId × Cells)
  | [], _ => .error .noInstruction
  | p :: rest, σ => do
    let σ ← execAll m p.instructions σ
    match p.term with
    | .jmp target => .ok (target, σ)
    | .jz r target => if σ.regs r = 0 then .ok (target, σ) else runPending m rest σ
    | .call _ | .ret => .error .noInstruction

/-- `st` is the state of the lowering at the terminator of `b`, in a function whose blocks are
lowered one after the other from the end of its spill slots on. -/
def AtTerminator (f : Function) (alloc : Allocation) (liveness : Liveness) (base regionEnd : ℕ)
    (b : BasicBlock) (st : LowerState) : Prop :=
  ∃ before after lowered temp, f.blocks = before ++ b :: after ∧
    lowerBlocks f alloc liveness regionEnd ⟨base + alloc.spills.length * 8, []⟩ before =
      .ok (lowered, temp) ∧
    b.instructions.foldlM (lowerStep f alloc liveness regionEnd b.id) ⟨[], [], temp⟩ = .ok st

/-- What the lowering emits for a terminator, apart from what it has emitted before. -/
def lowerTail (f : Function) (alloc : Allocation) (regionEnd : ℕ) (b : BasicBlock) (st : LowerState)
    (term : Terminator) : CodegenM (List PendingBlock) := do
  let (tail, _) ← lowerTerm f alloc regionEnd b.id ⟨[], [], st.temp⟩ term
  return tail

/-! ### Correctness -/

/-- The word that stands for a value. -/
def word : RtValue → I64
  | .i64 n => n
  | .bool b => flag b

/-- The state holds the values of a set where they are allocated. -/
structure Holds (m : MemorySize) (alloc : Allocation) (s : ValueSet) (env : Env) (σ : Cells) :
    Prop where
  zero : σ.Zero
  value : ∀ v ∈ s, ∃ x, env v = some x ∧ σ.read (alloc.loc v) = word x
  inMemory : ∀ v ∈ s, ∀ a : ℕ, alloc.loc v = .spill a → m.Contains a

/-- After the tail control is where the interpreter goes, the phis of that block have their values
for this edge, and every other value that is live there is where it was. -/
def Arrives (f : Function) (alloc : Allocation) (liveness : Liveness) (from' target : BlockId)
    (env : Env) (σ σ' : Cells) : Prop :=
  ∃ blk rs, f.block target = some blk ∧
    phiResults env (some from') blk.instructions = .ok rs ∧
    (∀ r ∈ rs, σ'.read (alloc.loc r.1) = word r.2) ∧
    ∀ v ∈ liveness.liveIn target, v ∉ rs.map Prod.fst →
      σ'.read (alloc.loc v) = σ.read (alloc.loc v)

/-- From every state that holds the live values of the block, the tail does what the interpreter
does with the terminator. -/
def TailCorrect (f : Function) (defs : Defs) (alloc : Allocation) (liveness : Liveness)
    (m : MemorySize) (b : BasicBlock) (term : Terminator) (tail : List PendingBlock) : Prop :=
  ∀ live, liveWithinBlock f b.id liveness = .ok live → ∀ env σ, TypedEnv defs env →
    Holds m alloc live env σ → ∀ target, execTerminator env term = .ok (.goto target) →
      ∃ σ', runPending m tail σ = .ok (target, σ') ∧
        Arrives f alloc liveness b.id target env σ σ'

/-- The phis among some instructions, each with the value it takes on the edge from `from'`. -/
def phiPairs (from' : BlockId) (insts : List Instruction) : List (ValueId × ValueId) :=
  insts.filterMap fun inst => match inst.kind with
    | .phi incoming => (incoming.find? fun p => p.1 == from').map fun e => (e.2, inst.id)
    | _ => none

/-- The value that is in the register of the test once the copies have been made: the condition, or
what a copy has put there. A spilled condition is tested in the scratch register, through which
every spilled destination goes, and before them every spilled source. -/
def testedValue (loc : ValueId → Loc) (cond : ValueId) (pairs : List (ValueId × ValueId)) : ValueId :=
  match loc cond with
  | .reg r => ((pairs.find? fun p => loc p.2 = .reg r).map Prod.fst).getD cond
  | .spill _ => (((pairs.reverse.find? fun p => (loc p.2).isSpill).or
      (pairs.reverse.find? fun p => (loc p.1).isSpill)).map Prod.fst).getD cond

/-- The copies for the else-edge disturb neither the test nor what the then-edge needs: the values
live into its target and those its own copies read. -/
def Undisturbed (f : Function) (alloc : Allocation) (liveness : Liveness) (from' : BlockId)
    (cond : ValueId) (thenBlock elseBlock : BlockId) : Prop :=
  ∀ t e, f.block thenBlock = some t → f.block elseBlock = some e →
    (thenBlock ≠ elseBlock →
      testedValue alloc.loc cond (phiPairs from' e.instructions) = cond) ∧
    ∀ p ∈ phiPairs from' e.instructions, ∀ v,
      (v ∈ liveness.liveIn thenBlock ∧ v ∉ (phiPairs from' t.instructions).map Prod.snd) ∨
        v ∈ (phiPairs from' t.instructions).map Prod.fst →
      alloc.loc p.2 = alloc.loc v → p.1 = v

/-! ### Locations -/

section Locations

variable {f : Function} {defs : Defs} {base reserved : ℕ} {alloc : Allocation}
  {liveness : Liveness} {b : BasicBlock} {live : ValueSet} {v w : ValueId} {m : MemorySize}

theorem loc_of_spilled {a : ℕ} (hv : alloc.Located v) (h : alloc.loc v = .spill a) :
    alloc.registers v = none ∧ alloc.spillOf v = some a := by
  unfold Allocation.loc at h
  cases hr : alloc.registers v with
  | some r => simp [hr] at h
  | none =>
    refine ⟨rfl, ?_⟩
    rcases hv with hv | hv
    · simp [hr] at hv
    · obtain ⟨a', ha'⟩ := Option.isSome_iff_exists.mp hv
      simp only [hr, ha', Option.getD_some, Loc.spill.injEq] at h
      rw [ha', h]

theorem loc_of_reg {r : ℕ} (h : alloc.loc v = .reg r) : alloc.registers v = some r := by
  unfold Allocation.loc at h
  cases hr : alloc.registers v with
  | some x =>
    rw [hr] at h
    rw [Loc.reg.inj h]
  | none => simp [hr] at h

/-- Values live in one block are in different places. -/
theorem SoundAllocation.loc_ne (hs : SoundAllocation f base reserved alloc)
    (hl : analyze f = .ok liveness) (hb : b ∈ f.blocks)
    (hlive : liveWithinBlock f b.id liveness = .ok live) (hv : v ∈ live) (hw : w ∈ live)
    (hlv : alloc.Located v) (hlw : alloc.Located w) (hne : v ≠ w) : alloc.loc v ≠ alloc.loc w := by
  intro heq
  cases hloc : alloc.loc v with
  | reg r =>
    have hr := loc_of_reg hloc
    have hr' := loc_of_reg (heq.symm.trans hloc)
    exact hs.apart liveness b live hl hb hlive v hv w hw hne r hr hr'
  | spill a =>
    have ha := (loc_of_spilled hlv hloc).2
    have ha' := (loc_of_spilled hlw (heq.symm.trans hloc)).2
    exact hne (hs.distinct v w a ha ha')

/-- A value is not where staging slots behind the spill slots are. -/
theorem SoundAllocation.loc_apart (hs : SoundAllocation f base reserved alloc) (hbelow : alloc.Below)
    (hv : alloc.Located v) {next : ℕ} (hnext : base + alloc.spills.length * 8 ≤ next)
    (hmem : next ≤ m.bytes) (n : ℕ) : (alloc.loc v).Apart m next n := by
  cases hloc : alloc.loc v with
  | reg r => exact hbelow v r (loc_of_reg hloc)
  | spill a =>
    obtain ⟨k, hk, rfl⟩ := hs.spilled v a (loc_of_spilled hv hloc).2
    refine ⟨?_, fun i _ he => ?_⟩
    · simp only [MemorySize.Contains]
      omega
    · simp only [slot] at he
      omega

end Locations

/-- What the code generator works with: an accepted function, its allocation and its liveness. -/
structure Prepared (f : Function) (defs : Defs) (base reserved : ℕ) (alloc : Allocation)
    (liveness : Liveness) : Prop where
  valid : Validated f defs
  sound : SoundAllocation f base reserved alloc
  below : alloc.Below
  live : analyze f = .ok liveness
  exact : LivenessExact f liveness

theorem prepared {f : Function} {defs : Defs} {base reserved : ℕ} {alloc : Allocation}
    {liveness : Liveness} (hv : Validated f defs) (halloc : allocate f base reserved = .ok alloc)
    (hl : analyze f = .ok liveness) : Prepared f defs base reserved alloc liveness := by
  obtain ⟨l, hl', hexact⟩ := analyze_valid hv
  obtain rfl : l = liveness := Except.ok.inj (hl'.symm.trans hl)
  exact ⟨hv, soundAllocation_of_allocate halloc, allocate_below halloc, hl, hexact⟩

section Edges

variable {f : Function} {defs : Defs} {base reserved : ℕ} {alloc : Allocation}
  {liveness : Liveness} {b blk : BasicBlock} {live : ValueSet} {v w : ValueId} {m : MemorySize}

theorem mem_liveWithin (hnd : (f.blocks.map (·.id)).Nodup) (hb : b ∈ f.blocks)
    (h : liveWithinBlock f b.id liveness = .ok live) :
    v ∈ live ↔ v ∈ liveness.liveIn b.id ∨ Exposed b v ∨ Defines b v ∨ v ∈ liveness.liveOut b.id := by
  simp only [liveWithinBlock, usedAndDefinedInBlock, Function.block_of_mem hnd hb, Comp.expect_some,
    ok_bind, pure_eq_ok, Except.ok.injEq] at h
  subst h
  simp only [List.mem_union_iff, mem_used, mem_defined, or_assoc]

theorem liveWithin_exists (liveness : Liveness) (hnd : (f.blocks.map (·.id)).Nodup) (hb : b ∈ f.blocks) :
    ∃ live, liveWithinBlock f b.id liveness = .ok live := by
  unfold liveWithinBlock usedAndDefinedInBlock
  rw [Function.block_of_mem hnd hb]
  exact ⟨_, rfl⟩

theorem mem_phiPairs {from' : BlockId} {insts : List Instruction} {p : ValueId × ValueId} :
    p ∈ phiPairs from' insts ↔ ∃ i ∈ insts, ∃ incoming, i.kind = .phi incoming ∧ i.id = p.2 ∧
      (incoming.find? fun e => e.1 == from').map Prod.snd = some p.1 := by
  obtain ⟨s, d⟩ := p
  simp only [phiPairs, List.mem_filterMap]
  refine exists_congr fun i => and_congr_right fun _ => ?_
  cases hk : i.kind with
  | phi incoming => simp [and_comm]
  | _ => simp

theorem phiMoveList_eq (loc : ValueId → Loc) (from' : BlockId) (insts : List Instruction) :
    phiMoveList loc from' insts = (phiPairs from' insts).map fun p => (loc p.1, loc p.2) := by
  unfold phiMoveList phiPairs
  rw [List.map_filterMap]
  refine List.filterMap_congr fun i _ => ?_
  cases i.kind with
  | phi incoming => simp only [Option.map_map, Function.comp_def]
  | _ => rfl

/-- The phis of a block are distinct. -/
theorem Validated.phiPairs_nodup (hv : Validated f defs) (hb : b ∈ f.blocks) (from' : BlockId) :
    ((phiPairs from' b.instructions).map Prod.snd).Nodup := by
  have hsub : ∀ insts : List Instruction,
      ((phiPairs from' insts).map Prod.snd).Sublist (insts.map (·.id)) := by
    intro insts
    induction insts with
    | nil => exact List.Sublist.slnil
    | cons i insts ih =>
      unfold phiPairs at ih ⊢
      rw [List.filterMap_cons, List.map_cons]
      split
      · exact ih.cons _
      · next p hp =>
        have hid : p.2 = i.id := by
          cases hk : i.kind with
          | phi incoming =>
            simp only [hk, Option.map_eq_some_iff] at hp
            obtain ⟨e, -, rfl⟩ := hp
            rfl
          | _ => simp [hk] at hp
        rw [List.map_cons, hid]
        exact ih.cons_cons _
  have hinsts : (b.instructions.map (·.id)).Sublist (f.insts.map (·.id)) := by
    obtain ⟨before, after, hblocks⟩ := List.append_of_mem hb
    rw [Function.insts, hblocks, List.flatMap_append, List.flatMap_cons]
    exact ((List.sublist_append_left _ _).trans (List.sublist_append_right _ _)).map _
  exact (collectDefinitions_ok hv.collect).1.sublist ((hsub b.instructions).trans hinsts)

/-- A phi reads its operand at the end of the predecessor. -/
theorem Prepared.source_live (h : Prepared f defs base reserved alloc liveness) (hb : b ∈ f.blocks)
    {target : BlockId} (hs : target ∈ b.successors) (hblk : f.block target = some blk)
    {p : ValueId × ValueId} (hp : p ∈ phiPairs b.id blk.instructions) :
    p.1 ∈ liveness.liveOut b.id := by
  obtain ⟨i, hi, incoming, hk, -, hfind⟩ := mem_phiPairs.mp hp
  have hedge : f.Edge b.id target := ⟨b, Function.block_of_mem h.valid.nodup hb, hs⟩
  exact (h.exact.liveOut b hb p.1).mpr ⟨[target], hedge, blk, hblk, .inr ⟨i, hi, incoming, hk, hfind⟩⟩

/-- What is live into a successor is live out of the block. -/
theorem Prepared.liveIn_liveOut (h : Prepared f defs base reserved alloc liveness)
    (hb : b ∈ f.blocks) {target : BlockId} (hs : target ∈ b.successors)
    (hv : v ∈ liveness.liveIn target) : v ∈ liveness.liveOut b.id := by
  have hedge : f.Edge b.id target := ⟨b, Function.block_of_mem h.valid.nodup hb, hs⟩
  obtain ⟨blk, hblk⟩ := Option.isSome_iff_exists.mp (h.valid.succ_isSome hb hs)
  obtain ⟨hmem, rfl⟩ := Function.block_some hblk
  rw [h.exact.liveOut b hb]
  rcases (h.exact.liveIn blk hmem v).mp hv with hexp | ⟨hout, hdef⟩
  · exact ⟨[blk.id], hedge, blk, hblk, .inl hexp⟩
  · obtain ⟨path, hpath⟩ := (h.exact.liveOut blk hmem v).mp hout
    cases path with
    | nil => exact hpath.elim
    | cons t rest => exact ⟨blk.id :: t :: rest, hedge, ⟨blk, hblk, hdef⟩, hpath⟩

theorem Prepared.located (h : Prepared f defs base reserved alloc liveness) (hb : b ∈ f.blocks)
    (hlive : liveWithinBlock f b.id liveness = .ok live) (hv : v ∈ live) : alloc.Located v :=
  h.sound.has ((defined_iff h.valid).mp (defined_of_live h.valid h.exact hb hlive hv))

/-- A phi is in another place than any other value live in its block. -/
theorem Prepared.phi_ne (h : Prepared f defs base reserved alloc liveness) (hb : b ∈ f.blocks)
    (hlive : liveWithinBlock f b.id liveness = .ok live) {i : Instruction} (hi : i ∈ b.instructions)
    (hv : v ∈ live) (hne : i.id ≠ v) : alloc.loc i.id ≠ alloc.loc v := by
  have hid : i.id ∈ live :=
    (mem_liveWithin h.valid.nodup hb hlive).mpr (.inr (.inr (.inl ⟨i, hi, rfl⟩)))
  exact h.sound.loc_ne h.live hb hlive hid hv (h.located hb hlive hid) (h.located hb hlive hv) hne

/-- What the copies of an edge have done. -/
structure Copied (alloc : Allocation) (pairs : List (ValueId × ValueId)) (σ σ' : Cells) : Prop where
  zero : σ'.Zero
  phis : ∀ p ∈ pairs, σ'.read (alloc.loc p.2) = σ.read (alloc.loc p.1)
  others : ∀ v, alloc.Located v → (∀ p ∈ pairs, alloc.loc p.2 ≠ alloc.loc v) →
    σ'.read (alloc.loc v) = σ.read (alloc.loc v)
  scratch : σ'.regs SCRATCH_1 = (((pairs.reverse.find? fun p => (alloc.loc p.2).isSpill).or
    (pairs.reverse.find? fun p => (alloc.loc p.1).isSpill)).map
      fun p => σ.read (alloc.loc p.1)).getD (σ.regs SCRATCH_1)

theorem Copied.refl {σ : Cells} (hz : σ.Zero) : Copied alloc [] σ σ :=
  ⟨hz, by simp, fun _ _ _ => rfl, rfl⟩

theorem lastThrough_map (loc : ValueId → Loc) (through : Loc × Loc → Bool)
    (pairs : List (ValueId × ValueId)) :
    lastThrough through (pairs.map fun p => (loc p.1, loc p.2)) =
      (pairs.reverse.find? fun p => through (loc p.1, loc p.2)).map fun p => loc p.1 := by
  rw [lastThrough, ← List.map_reverse, List.find?_map, Option.map_map]
  rfl

/-- The copies of an edge on the machine. -/
theorem Prepared.copied (h : Prepared f defs base reserved alloc liveness) (hb : b ∈ f.blocks)
    {target : BlockId} (hs : target ∈ b.successors) {temp temp' : Temps} {regionEnd : ℕ}
    {copies : List Instr} (he : EdgeCode f alloc regionEnd temp b.id target copies temp')
    (htemp : base + alloc.spills.length * 8 ≤ temp.next) (hmem : regionEnd ≤ m.bytes) {σ : Cells}
    (hz : σ.Zero) :
    ∃ blk σ', f.block target = some blk ∧ execAll m copies σ = .ok σ' ∧
      Copied alloc (phiPairs b.id blk.instructions) σ σ' := by
  obtain ⟨blk, hblk, rfl, -, hfit, -⟩ := he
  refine ⟨blk, ?_⟩
  obtain ⟨hblkmem, rfl⟩ := Function.block_some hblk
  obtain ⟨live, hlive⟩ := liveWithin_exists liveness h.valid.nodup hb
  obtain ⟨live', hlive'⟩ := liveWithin_exists liveness h.valid.nodup hblkmem
  rw [phiMoveList_eq] at hfit ⊢
  generalize hpairs : phiPairs b.id blk.instructions = pairs at hfit ⊢
  cases hnil : pairs with
  | nil => exact ⟨σ, hblk, rfl, .refl hz⟩
  | cons q rest =>
    rw [← hnil]
    have hfit' := hfit (by simp [hnil])
    have hmem' : temp.next ≤ m.bytes := by omega
    -- sources are live at the end of the block, destinations are defined in the target
    have hsrc : ∀ p ∈ pairs, alloc.Located p.1 := fun p hp =>
      h.located hb hlive ((mem_liveWithin h.valid.nodup hb hlive).mpr
        (.inr (.inr (.inr (h.source_live hb hs hblk (hpairs ▸ hp))))))
    have hphi : ∀ p ∈ pairs, ∃ i ∈ blk.instructions, i.id = p.2 := fun p hp => by
      obtain ⟨i, hi, -, -, hid, -⟩ := mem_phiPairs.mp (hpairs ▸ hp)
      exact ⟨i, hi, hid⟩
    have hdef : ∀ p ∈ pairs, p.2 ∈ live' := fun p hp =>
      (mem_liveWithin h.valid.nodup hblkmem hlive').mpr (.inr (.inr (.inl (hphi p hp))))
    have hdst : ∀ p ∈ pairs, alloc.Located p.2 := fun p hp => h.located hblkmem hlive' (hdef p hp)
    have hapart : ∀ v, alloc.Located v → ∀ n, (alloc.loc v).Apart m temp.next n := fun v hv n =>
      h.sound.loc_apart h.below hv htemp hmem' n
    have hnd : ((pairs.map fun p => (alloc.loc p.1, alloc.loc p.2)).map Prod.snd).Nodup := by
      rw [List.map_map]
      show (pairs.map (alloc.loc ∘ Prod.snd)).Nodup
      rw [← List.map_map]
      refine List.Nodup.map_on (fun v hv w hw he => ?_) (hpairs ▸ Validated.phiPairs_nodup h.valid hblkmem b.id)
      obtain ⟨p, hp, rfl⟩ := List.mem_map.mp hv
      obtain ⟨q, hq, rfl⟩ := List.mem_map.mp hw
      by_contra hne
      exact h.sound.loc_ne h.live hblkmem hlive' (hdef p hp) (hdef q hq) (hdst p hp) (hdst q hq) hne he
    have hsrcs : ∀ x ∈ pairs.map fun p => (alloc.loc p.1, alloc.loc p.2), x.1.Apart m temp.next
        (pairs.map fun p => (alloc.loc p.1, alloc.loc p.2)).length :=
      List.forall_mem_map.mpr fun p hp => hapart p.1 (hsrc p hp) _
    have hdsts : ∀ x ∈ pairs.map fun p => (alloc.loc p.1, alloc.loc p.2), x.2.Apart m temp.next
        (pairs.map fun p => (alloc.loc p.1, alloc.loc p.2)).length :=
      List.forall_mem_map.mpr fun p hp => hapart p.2 (hdst p hp) _
    obtain ⟨σ', hok, hmoved⟩ := execAll_moveCode hz hsrcs hdsts hnd (Nat.le_trans hfit' hmem)
    refine ⟨σ', hblk, hok, ?_, fun p hp => ?_, fun v hv hne => ?_, ?_⟩
    · refine (hmoved.regs ZERO_REG scratch1_ne_zero.symm (List.forall_mem_map.mpr fun p hp he => ?_)).trans hz
      have hzero : (Loc.reg ZERO_REG).Apart m temp.next 0 := he ▸ hapart p.2 (hdst p hp) 0
      exact absurd hzero (by simp only [Loc.Apart]; decide)
    · exact hmoved.dests _ (List.mem_map_of_mem hp)
    · have hv' := hapart v hv (pairs.map fun p => (alloc.loc p.1, alloc.loc p.2)).length
      cases hloc : alloc.loc v with
      | reg r =>
        rw [hloc] at hv' hne
        have hr : r ≠ SCRATCH_1 := Nat.ne_of_lt (Nat.lt_trans hv' (by decide))
        exact hmoved.regs r hr (List.forall_mem_map.mpr hne)
      | spill a =>
        rw [hloc] at hv' hne
        refine hmoved.mem a (List.forall_mem_map.mpr fun p hp c hc he => ?_) fun k hk he =>
          hv'.2 k hk (Int.ofNat_inj.mp he)
        exact hne p hp (by rw [Int.ofNat_inj.mp he]; exact hc)
    · rw [hmoved.scratch, lastThrough_map, lastThrough_map]
      cases pairs.reverse.find? fun p => (alloc.loc p.2).isSpill with
      | some p => rfl
      | none => cases pairs.reverse.find? fun p => (alloc.loc p.1).isSpill <;> rfl

/-- The phis of a block take the values of their operands. -/
theorem phiResults_pairs (env : Env) {from' : BlockId} {insts : List Instruction}
    (hcover : ∀ i ∈ insts, ∀ incoming, i.kind = .phi incoming →
      ∃ v, incoming.find? (fun p => p.1 == from') = some (from', v))
    (henv : ∀ p ∈ phiPairs from' insts, ∃ x, env p.1 = some x) :
    ∃ rs, phiResults env (some from') insts = .ok rs ∧
      List.Forall₂ (fun p r => r.1 = p.2 ∧ env p.1 = some r.2) (phiPairs from' insts) rs := by
  induction insts with
  | nil => exact ⟨[], rfl, .nil⟩
  | cons i insts ih =>
    have hcover' := fun j hj => hcover j (List.mem_cons_of_mem i hj)
    cases hk : i.kind with
    | phi incoming =>
      obtain ⟨v, hfind⟩ := hcover i List.mem_cons_self incoming hk
      have hpairs : phiPairs from' (i :: insts) = (v, i.id) :: phiPairs from' insts := by
        simp [phiPairs, hk, hfind]
      rw [hpairs] at henv ⊢
      obtain ⟨x, hx⟩ := henv (v, i.id) List.mem_cons_self
      obtain ⟨rs, hrs, hall⟩ := ih hcover' fun p hp => henv p (List.mem_cons_of_mem _ hp)
      have hvalue : phiValue env (some from') incoming = .ok x := by
        simp [phiValue, hfind, hx]
      exact ⟨(i.id, x) :: rs, by simp [phiResults, hk, hvalue, hrs], .cons ⟨rfl, hx⟩ hall⟩
    | _ =>
      have hpairs : phiPairs from' (i :: insts) = phiPairs from' insts := by
        simp [phiPairs, hk]
      rw [hpairs] at henv ⊢
      obtain ⟨rs, hrs, hall⟩ := ih hcover' henv
      exact ⟨rs, by simp [phiResults, hk, hrs], hall⟩

/-- The condition in the register of the test. -/
theorem loadCode_run {l : Loc} {σ : Cells} (hz : σ.Zero)
    (hin : ∀ a : ℕ, l = .spill a → m.Contains a) :
    ∃ σ', execAll m (l.loadCode SCRATCH_1) σ = .ok σ' ∧ σ'.Zero ∧
      (∀ k : Loc, k.Below → σ'.read k = σ.read k) ∧ σ'.regs (l.regOr SCRATCH_1) = σ.read l := by
  cases l with
  | reg r => exact ⟨σ, rfl, hz, fun _ _ => rfl, rfl⟩
  | spill a =>
    refine ⟨_, execAll_cons (hz.load (hin a rfl) SCRATCH_1), hz.setReg scratch1_ne_zero, fun k hk => ?_,
      Cells.setReg_self⟩
    cases k with
    | reg x =>
      have hx : x ≠ SCRATCH_1 := Nat.ne_of_lt (Nat.lt_trans hk (by decide))
      exact Cells.setReg_of_ne hx
    | spill b => rfl

theorem testedValue_reg {loc : ValueId → Loc} {cond : ValueId} {r : ℕ} (h : loc cond = .reg r)
    (pairs : List (ValueId × ValueId)) : testedValue loc cond pairs =
      ((pairs.find? fun p => loc p.2 = .reg r).map Prod.fst).getD cond := by
  simp only [testedValue, h]

theorem testedValue_spill {loc : ValueId → Loc} {cond : ValueId} {a : ℕ} (h : loc cond = .spill a)
    (pairs : List (ValueId × ValueId)) : testedValue loc cond pairs =
      (((pairs.reverse.find? fun p => (loc p.2).isSpill).or
        (pairs.reverse.find? fun p => (loc p.1).isSpill)).map Prod.fst).getD cond := by
  simp only [testedValue, h]

/-- The test reads the tested value. -/
theorem Copied.tested {pairs : List (ValueId × ValueId)} {σ σ' : Cells}
    (hc : Copied alloc pairs σ σ') {cond : ValueId} (hcond : alloc.Located cond)
    (hreg : σ.regs ((alloc.loc cond).regOr SCRATCH_1) = σ.read (alloc.loc cond)) :
    σ'.regs ((alloc.loc cond).regOr SCRATCH_1) =
      σ.read (alloc.loc (testedValue alloc.loc cond pairs)) := by
  cases hloc : alloc.loc cond with
  | reg r =>
    rw [testedValue_reg hloc]
    show σ'.read (.reg r) = _
    cases hfind : pairs.find? fun p => alloc.loc p.2 = .reg r with
    | some p =>
      have hp : alloc.loc p.2 = .reg r := by simpa using List.find?_some hfind
      rw [← hp]
      exact hc.phis p (List.mem_of_find?_eq_some hfind)
    | none =>
      have hne : ∀ p ∈ pairs, alloc.loc p.2 ≠ alloc.loc cond := fun p hp => by
        rw [hloc]
        simpa using List.find?_eq_none.mp hfind p hp
      rw [← hloc]
      exact hc.others cond hcond hne
  | spill a =>
    rw [testedValue_spill hloc]
    rw [hloc] at hreg
    show σ'.regs SCRATCH_1 = _
    rw [hc.scratch, show σ.regs SCRATCH_1 = _ from hreg, ← hloc]
    cases (pairs.reverse.find? fun p => (alloc.loc p.2).isSpill).or
        (pairs.reverse.find? fun p => (alloc.loc p.1).isSpill) <;> rfl

theorem testedValue_mem (loc : ValueId → Loc) (cond : ValueId) (pairs : List (ValueId × ValueId)) :
    testedValue loc cond pairs = cond ∨ ∃ p ∈ pairs, testedValue loc cond pairs = p.1 := by
  have hget : ∀ o : Option (ValueId × ValueId), (∀ p, o = some p → p ∈ pairs) →
      (o.map Prod.fst).getD cond = cond ∨ ∃ p ∈ pairs, (o.map Prod.fst).getD cond = p.1 := by
    intro o ho
    cases o with
    | none => exact .inl rfl
    | some p => exact .inr ⟨p, ho p rfl, rfl⟩
  unfold testedValue
  split
  · exact hget _ fun p hp => List.mem_of_find?_eq_some hp
  · refine hget _ fun p hp => ?_
    rcases Option.or_eq_some_iff.mp hp with hp | ⟨-, hp⟩ <;>
      exact List.mem_reverse.mp (List.mem_of_find?_eq_some hp)

end Edges

/-! ### A branch -/

/-- What the tail of a branch does from `σ`: `σe` is the state after the copies for the else-edge,
`σt` the one after those for the then-edge, which are only made if the test falls through. -/
structure BranchRun (m : MemorySize) (alloc : Allocation) (from' : BlockId) (cond : ValueId)
    (t e : BasicBlock) (tail : List PendingBlock) (σ σe σt : Cells) : Prop where
  run : runPending m tail σ = .ok
    (if σ.read (alloc.loc (testedValue alloc.loc cond (phiPairs from' e.instructions))) = 0
      then (e.id, σe) else (t.id, σt))
  elsePhis : ∀ p ∈ phiPairs from' e.instructions,
    σe.read (alloc.loc p.2) = σ.read (alloc.loc p.1)
  elseOthers : ∀ v, alloc.Located v →
    (∀ p ∈ phiPairs from' e.instructions, alloc.loc p.2 ≠ alloc.loc v) →
      σe.read (alloc.loc v) = σ.read (alloc.loc v)
  thenCopied : Copied alloc (phiPairs from' t.instructions) σe σt

/-- A branch of an accepted function and the tail lowered for it. -/
structure LoweredBranch (f : Function) (defs : Defs) (base reserved regionEnd : ℕ)
    (alloc : Allocation) (liveness : Liveness) (b : BasicBlock) (cond : ValueId) (t e : BasicBlock)
    (tail : List PendingBlock) : Prop where
  prepared : Prepared f defs base reserved alloc liveness
  mem : b ∈ f.blocks
  term : b.terminator = some (.branch cond t.id e.id)
  thenBlock : f.block t.id = some t
  elseBlock : f.block e.id = some e
  code : ∃ temp temp' temp'' elseCopies thenCopies, base + alloc.spills.length * 8 ≤ temp.next ∧
    EdgeCode f alloc regionEnd temp b.id e.id elseCopies temp' ∧
    EdgeCode f alloc regionEnd temp' b.id t.id thenCopies temp'' ∧
    tail = [⟨(alloc.loc cond).loadCode SCRATCH_1 ++ elseCopies,
      .jz ((alloc.loc cond).regOr SCRATCH_1) e.id⟩, ⟨thenCopies, .jmp t.id⟩]

section Branch

variable {f : Function} {defs : Defs} {base reserved regionEnd : ℕ} {alloc : Allocation}
  {liveness : Liveness} {b t e : BasicBlock} {cond v : ValueId} {tail : List PendingBlock}
  {live : ValueSet} {m : MemorySize} {env : Env} {σ : Cells}

theorem Temps.le_take (temp : Temps) (count : ℕ) : temp.next ≤ (temp.take count).next := by
  unfold Temps.take
  split
  · exact Nat.le_refl _
  · exact Nat.le_add_right _ _

theorem LoweredBranch.then_succ
    (h : LoweredBranch f defs base reserved regionEnd alloc liveness b cond t e tail) :
    t.id ∈ b.successors := by
  simp [BasicBlock.successors, h.term, Terminator.successors]

theorem LoweredBranch.else_succ
    (h : LoweredBranch f defs base reserved regionEnd alloc liveness b cond t e tail) :
    e.id ∈ b.successors := by
  simp [BasicBlock.successors, h.term, Terminator.successors]

theorem LoweredBranch.cond_live
    (h : LoweredBranch f defs base reserved regionEnd alloc liveness b cond t e tail)
    (hlive : liveWithinBlock f b.id liveness = .ok live) : cond ∈ live := by
  rw [mem_liveWithin h.prepared.valid.nodup h.mem hlive]
  by_cases hdef : Defines b cond
  · exact .inr (.inr (.inl hdef))
  · refine .inr (.inl (.inr ⟨by simp [h.term, termUses], fun j hj he => hdef ⟨j, hj, he⟩⟩))

/-- What a successor needs is live in the block. -/
theorem LoweredBranch.out_live
    (h : LoweredBranch f defs base reserved regionEnd alloc liveness b cond t e tail)
    (hlive : liveWithinBlock f b.id liveness = .ok live) (hv : v ∈ liveness.liveOut b.id) : v ∈ live :=
  (mem_liveWithin h.prepared.valid.nodup h.mem hlive).mpr (.inr (.inr (.inr hv)))

theorem LoweredBranch.run
    (h : LoweredBranch f defs base reserved regionEnd alloc liveness b cond t e tail)
    (hmem : regionEnd ≤ m.bytes) (hlive : liveWithinBlock f b.id liveness = .ok live)
    (hholds : Holds m alloc live env σ) :
    ∃ σe σt, BranchRun m alloc b.id cond t e tail σ σe σt := by
  obtain ⟨temp, temp', temp'', elseCopies, thenCopies, htemp, helse, hthen, rfl⟩ := h.code
  have hp := h.prepared
  have hcond := h.cond_live hlive
  have hcondloc := hp.located h.mem hlive hcond
  obtain ⟨σ₁, hok₁, hz₁, hread₁, hreg₁⟩ := loadCode_run hholds.zero (hholds.inMemory cond hcond)
  have hread : ∀ v, σ₁.read (alloc.loc v) = σ.read (alloc.loc v) := fun v =>
    hread₁ _ (hp.below.loc v)
  obtain ⟨blk, σe, hblk, hoke, hce⟩ := hp.copied h.mem h.else_succ helse htemp hmem hz₁
  obtain rfl : e = blk := Option.some.inj (h.elseBlock.symm.trans hblk)
  have htemp' : base + alloc.spills.length * 8 ≤ temp'.next := by
    obtain ⟨_, -, -, rfl, -⟩ := helse
    exact htemp.trans (temp.le_take _)
  obtain ⟨blk, σt, hblk, hokt, hct⟩ := hp.copied h.mem h.then_succ hthen htemp' hmem hce.zero
  obtain rfl : t = blk := Option.some.inj (h.thenBlock.symm.trans hblk)
  refine ⟨σe, σt, ?_, fun p hp => ?_, fun v hv hne => ?_, hct⟩
  · have htest := hce.tested hcondloc (hreg₁.trans (hread cond).symm)
    rw [hread] at htest
    simp only [runPending, execAll_append hok₁, hoke, hokt, ok_bind, htest]
    split <;> rfl
  · rw [hce.phis p hp, hread]
  · rw [hce.others v hv hne, hread]

/-- The state after the copies of an edge is the one the interpreter's step asks for. -/
theorem LoweredBranch.arrives
    (h : LoweredBranch f defs base reserved regionEnd alloc liveness b cond t e tail)
    (hlive : liveWithinBlock f b.id liveness = .ok live) (hholds : Holds m alloc live env σ)
    {blk : BasicBlock} (hs : blk.id ∈ b.successors) (hblk : f.block blk.id = some blk)
    (hcover : ∀ i ∈ blk.instructions, ∀ incoming, i.kind = .phi incoming →
      ∃ v, incoming.find? (fun p => p.1 == b.id) = some (b.id, v)) {σ' : Cells} :
    Arrives f alloc liveness b.id blk.id env σ σ' ↔
      (∀ p ∈ phiPairs b.id blk.instructions, σ'.read (alloc.loc p.2) = σ.read (alloc.loc p.1)) ∧
      ∀ v ∈ liveness.liveIn blk.id, v ∉ (phiPairs b.id blk.instructions).map Prod.snd →
        σ'.read (alloc.loc v) = σ.read (alloc.loc v) := by
  have hsource : ∀ p ∈ phiPairs b.id blk.instructions,
      ∃ x, env p.1 = some x ∧ σ.read (alloc.loc p.1) = word x := fun p hp =>
    hholds.value p.1 (h.out_live hlive (h.prepared.source_live h.mem hs hblk hp))
  obtain ⟨rs, hrs, hall⟩ := phiResults_pairs env hcover fun p hp => by
    obtain ⟨x, hx, -⟩ := hsource p hp
    exact ⟨x, hx⟩
  -- the results of the interpreter and the moves of the code are the phis of the target, in order
  have hids : rs.map Prod.fst = (phiPairs b.id blk.instructions).map Prod.snd := by
    generalize phiPairs b.id blk.instructions = pairs at hall
    clear hrs hsource hcover
    induction hall with
    | nil => rfl
    | cons hpr _ ih => rw [List.map_cons, List.map_cons, hpr.1, ih]
  have hphis : (∀ r ∈ rs, σ'.read (alloc.loc r.1) = word r.2) ↔
      ∀ p ∈ phiPairs b.id blk.instructions, σ'.read (alloc.loc p.2) = σ.read (alloc.loc p.1) := by
    generalize phiPairs b.id blk.instructions = pairs at hall hsource
    clear hrs hids hcover
    induction hall with
    | nil => simp
    | @cons p r ps rs hpr _ ih =>
      obtain ⟨x, hx, hword⟩ := hsource p List.mem_cons_self
      obtain rfl : x = r.2 := Option.some.inj (hx.symm.trans hpr.2)
      rw [List.forall_mem_cons, List.forall_mem_cons,
        ih fun q hq => hsource q (List.mem_cons_of_mem _ hq), hpr.1, hword]
  constructor
  · rintro ⟨blk', rs', hblk', hrs', hval, hother⟩
    obtain rfl : blk = blk' := Option.some.inj (hblk.symm.trans hblk')
    obtain rfl : rs = rs' := Except.ok.inj (hrs.symm.trans hrs')
    exact ⟨hphis.mp hval, hids ▸ hother⟩
  · rintro ⟨hval, hother⟩
    exact ⟨blk, rs, hblk, hrs, hphis.mpr hval, hids ▸ hother⟩

/-- The operands of the phis of a target of an edge. -/
theorem EdgeCode.cover {temp temp' : Temps} {from' : BlockId} {blk : BasicBlock}
    {copies : List Instr} (h : EdgeCode f alloc regionEnd temp from' blk.id copies temp')
    (hblk : f.block blk.id = some blk) :
    ∀ i ∈ blk.instructions, ∀ incoming, i.kind = .phi incoming →
      ∃ v, incoming.find? (fun p => p.1 == from') = some (from', v) := by
  obtain ⟨blk', hblk', -, -, -, hphi⟩ := h
  obtain rfl : blk = blk' := Option.some.inj (hblk.symm.trans hblk')
  intro i hi incoming hk
  obtain ⟨-, v, hfind, -⟩ := hphi i hi incoming hk
  exact ⟨v, hfind⟩

/-- If an edge copies, there is room for the spill slots. -/
theorem EdgeCode.room {temp temp' : Temps} {from' : BlockId} {blk : BasicBlock}
    {copies : List Instr} (h : EdgeCode f alloc regionEnd temp from' blk.id copies temp')
    (hblk : f.block blk.id = some blk) (hne : phiPairs from' blk.instructions ≠ []) :
    temp.next ≤ regionEnd := by
  obtain ⟨blk', hblk', -, -, hfit, -⟩ := h
  obtain rfl : blk = blk' := Option.some.inj (hblk.symm.trans hblk')
  have := hfit (by simpa [phiMoveList_eq] using hne)
  omega

/-- Live values, each zero or one, in a state. -/
def cellsOf (loc : ValueId → Loc) (live : ValueSet) (bit : ValueId → Bool) : Cells where
  regs r := ((live.find? fun v => loc v = .reg r).map fun v => flag (bit v)).getD 0
  mem a := ((live.find? fun v => loc v = .spill a.toNat).map fun v => flag (bit v)).getD 0

/-- The value of a type that is zero or one. -/
def bitValue (ty : Ty) (bit : Bool) : RtValue :=
  match ty with
  | .i64 => .i64 (flag bit)
  | .bool => .bool bit

/-- The live values of a block can be any bits. -/
theorem Prepared.exists_holds (h : Prepared f defs base reserved alloc liveness) (hb : b ∈ f.blocks)
    (hlive : liveWithinBlock f b.id liveness = .ok live)
    (hroom : base + alloc.spills.length * 8 ≤ m.bytes) (bit : ValueId → Bool) :
    Holds m alloc live (fun v => (defs v).map fun ty => bitValue ty (bit v))
      (cellsOf alloc.loc live bit) := by
  have hloc : ∀ v ∈ live, alloc.Located v := fun v hv => h.located hb hlive hv
  have hfind : ∀ v ∈ live, (live.find? fun w => alloc.loc w = alloc.loc v) = some v := by
    intro v hv
    have hsome : (live.find? fun w => alloc.loc w = alloc.loc v).isSome :=
      List.find?_isSome.mpr ⟨v, hv, by simp⟩
    obtain ⟨w, hw⟩ := Option.isSome_iff_exists.mp hsome
    have heq : alloc.loc w = alloc.loc v := by simpa using List.find?_some hw
    have hwl := List.mem_of_find?_eq_some hw
    by_contra hne
    have hwv : w ≠ v := fun he => hne (he ▸ hw)
    exact h.sound.loc_ne h.live hb hlive hwl hv (hloc w hwl) (hloc v hv) hwv heq
  refine ⟨?_, fun v hv => ?_, fun v hv a ha => ?_⟩
  · have hnone : (live.find? fun v => alloc.loc v = .reg ZERO_REG) = none := by
      refine List.find?_eq_none.mpr fun v hv he => ?_
      have hlt := h.below v ZERO_REG (loc_of_reg (by simpa using he))
      exact absurd hlt (by decide)
    simp [Cells.Zero, cellsOf, hnone]
  · obtain ⟨ty, hty⟩ := Option.ne_none_iff_exists'.mp (defined_of_live h.valid h.exact hb hlive hv)
    refine ⟨bitValue ty (bit v), by rw [hty]; rfl, ?_⟩
    have hword : word (bitValue ty (bit v)) = flag (bit v) := by cases ty <;> rfl
    have hv' := hfind v hv
    rw [hword]
    cases hl : alloc.loc v with
    | reg r =>
      rw [hl] at hv'
      simp [Cells.read, cellsOf, hv']
    | spill a =>
      rw [hl] at hv'
      simp [Cells.read, cellsOf, hv']
  · obtain ⟨k, hk, rfl⟩ := h.sound.spilled v a (loc_of_spilled (hloc v hv) ha).2
    simp only [MemorySize.Contains]
    omega

theorem typedEnv_bits (defs : Defs) (bit : ValueId → Bool) :
    TypedEnv defs fun v => (defs v).map fun ty => bitValue ty (bit v) := by
  intro v x hx
  obtain ⟨ty, hty, rfl⟩ := Option.map_eq_some_iff.mp hx
  rw [hty]
  cases ty <;> rfl

theorem execTerminator_branch {t e target : BlockId} :
    execTerminator env (.branch cond t e) = .ok (.goto target) ↔
      ∃ bit, env cond = some (.bool bit) ∧ target = if bit then t else e := by
  simp only [execTerminator, bind_eq_ok, Env.get_eq_ok]
  constructor
  · rintro ⟨c, hc, bit, hbit, h⟩
    cases c with
    | i64 n => cases hbit
    | bool x =>
      obtain rfl : x = bit := Except.ok.inj hbit
      refine ⟨x, hc, ?_⟩
      cases x <;> simpa [eq_comm] using h
  · rintro ⟨bit, hc, rfl⟩
    refine ⟨_, hc, bit, rfl, ?_⟩
    cases bit <;> rfl

/-- The values the then-edge needs: those live into its target, apart from its phis, and those its
copies read. -/
def Needed (liveness : Liveness) (from' : BlockId) (t : BasicBlock) (v : ValueId) : Prop :=
  (v ∈ liveness.liveIn t.id ∧ v ∉ (phiPairs from' t.instructions).map Prod.snd) ∨
    v ∈ (phiPairs from' t.instructions).map Prod.fst

theorem LoweredBranch.needed_live
    (h : LoweredBranch f defs base reserved regionEnd alloc liveness b cond t e tail)
    (hlive : liveWithinBlock f b.id liveness = .ok live) (hv : Needed liveness b.id t v) :
    v ∈ live := by
  refine h.out_live hlive ?_
  rcases hv with ⟨hv, -⟩ | hv
  · exact h.prepared.liveIn_liveOut h.mem h.then_succ hv
  · obtain ⟨p, hp, rfl⟩ := List.mem_map.mp hv
    exact h.prepared.source_live h.mem h.then_succ h.thenBlock hp

/-- A value that is live into a block and no phi of it is where no copy for its phis goes. -/
theorem Prepared.apart_phis (h : Prepared f defs base reserved alloc liveness) (hb : b ∈ f.blocks)
    {from' : BlockId} (hv : v ∈ liveness.liveIn b.id)
    (hphi : v ∉ (phiPairs from' b.instructions).map Prod.snd) :
    alloc.Located v ∧ ∀ p ∈ phiPairs from' b.instructions, alloc.loc p.2 ≠ alloc.loc v := by
  obtain ⟨live, hlive⟩ := liveWithin_exists liveness h.valid.nodup hb
  have hv' : v ∈ live := (mem_liveWithin h.valid.nodup hb hlive).mpr (.inl hv)
  refine ⟨h.located hb hlive hv', fun p hp => ?_⟩
  obtain ⟨i, hi, -, -, hid, -⟩ := mem_phiPairs.mp hp
  rw [← hid]
  refine h.phi_ne hb hlive hi hv' fun he => hphi ?_
  exact List.mem_map.mpr ⟨p, hp, hid.symm.trans he⟩

/-- The copies leave what the then-edge needs, and the test, alone. -/
theorem LoweredBranch.correct_of_undisturbed
    (h : LoweredBranch f defs base reserved regionEnd alloc liveness b cond t e tail)
    (hmem : regionEnd ≤ m.bytes)
    (hund : Undisturbed f alloc liveness b.id cond t.id e.id) :
    TailCorrect f defs alloc liveness m b (.branch cond t.id e.id) tail := by
  obtain ⟨htest, hkeep⟩ := hund t e h.thenBlock h.elseBlock
  intro live hlive env σ _ hholds target hterm
  obtain ⟨bit, hcond, rfl⟩ := execTerminator_branch.mp hterm
  obtain ⟨σe, σt, hrun⟩ := h.run hmem hlive hholds
  obtain ⟨temp, temp', temp'', elseCopies, thenCopies, -, helse, hthen, -⟩ := h.code
  have htb := (Function.block_some h.thenBlock).1
  have heb := (Function.block_some h.elseBlock).1
  have harriveElse : Arrives f alloc liveness b.id e.id env σ σe := by
    refine (h.arrives hlive hholds h.else_succ h.elseBlock (helse.cover h.elseBlock)).mpr
      ⟨hrun.elsePhis, fun v hv hphi => ?_⟩
    obtain ⟨hloc, hne⟩ := h.prepared.apart_phis heb hv hphi
    exact hrun.elseOthers v hloc hne
  -- what a copy for the else-edge overwrites gets the value it has
  have hkept : ∀ v, Needed liveness b.id t v → σe.read (alloc.loc v) = σ.read (alloc.loc v) := by
    intro v hv
    by_cases hdst : ∃ p ∈ phiPairs b.id e.instructions, alloc.loc p.2 = alloc.loc v
    · obtain ⟨p, hp, hloc⟩ := hdst
      rw [← hloc, hrun.elsePhis p hp, hkeep p hp v hv hloc, hloc]
    · have hloc := h.prepared.located h.mem hlive (h.needed_live hlive hv)
      exact hrun.elseOthers v hloc fun p hp he => hdst ⟨p, hp, he⟩
  have harriveThen : Arrives f alloc liveness b.id t.id env σ σt := by
    refine (h.arrives hlive hholds h.then_succ h.thenBlock (hthen.cover h.thenBlock)).mpr
      ⟨fun p hp => ?_, fun v hv hphi => ?_⟩
    · rw [hrun.thenCopied.phis p hp, hkept p.1 (.inr (List.mem_map_of_mem hp))]
    · obtain ⟨hloc, hne⟩ := h.prepared.apart_phis htb hv hphi
      rw [hrun.thenCopied.others v hloc hne, hkept v (.inl ⟨hv, hphi⟩)]
  by_cases hsame : t.id = e.id
  · -- both edges lead to the same block, so it does not matter which one is taken
    have htarget : (if bit then t.id else e.id) = t.id := by rw [hsame, ite_self]
    rw [htarget]
    by_cases hzero : σ.read (alloc.loc (testedValue alloc.loc cond (phiPairs b.id e.instructions))) = 0
    · refine ⟨σe, ?_, hsame ▸ harriveElse⟩
      rw [hrun.run, if_pos hzero, hsame]
    · refine ⟨σt, ?_, harriveThen⟩
      rw [hrun.run, if_neg hzero]
  · have hword : σ.read (alloc.loc cond) = flag bit := by
      obtain ⟨x, hx, hread⟩ := hholds.value cond (h.cond_live hlive)
      obtain rfl : x = .bool bit := Option.some.inj (hx.symm.trans hcond)
      exact hread
    have hok := hrun.run
    rw [htest hsame, hword] at hok
    cases bit with
    | true => exact ⟨σt, hok, harriveThen⟩
    | false => exact ⟨σe, hok, harriveElse⟩

/-- The values a copy for the else-edge must leave alone are told apart by some state. -/
theorem LoweredBranch.undisturbed_of_correct
    (h : LoweredBranch f defs base reserved regionEnd alloc liveness b cond t e tail)
    (hmem : regionEnd ≤ m.bytes)
    (hcorrect : TailCorrect f defs alloc liveness m b (.branch cond t.id e.id) tail) :
    Undisturbed f alloc liveness b.id cond t.id e.id := by
  obtain ⟨temp, temp', temp'', elseCopies, thenCopies, htemp, helse, hthen, -⟩ := h.code
  obtain ⟨live, hlive⟩ := liveWithin_exists liveness h.prepared.valid.nodup h.mem
  have htb := (Function.block_some h.thenBlock).1
  have hcondty : defs cond = some .bool := by
    obtain ⟨term, hterm, hok⟩ := h.prepared.valid.term b h.mem
    obtain rfl := Option.some.inj (h.term.symm.trans hterm)
    exact hok.1
  have hbits : ∀ bit : ValueId → Bool, phiPairs b.id e.instructions ≠ [] →
      ∃ env σ σe σt, TypedEnv defs env ∧ Holds m alloc live env σ ∧
        BranchRun m alloc b.id cond t e tail σ σe σt ∧
        (∀ v ∈ live, σ.read (alloc.loc v) = flag (bit v)) ∧
        execTerminator env (.branch cond t.id e.id) = .ok (.goto (if bit cond then t.id else e.id)) := by
    intro bit hne
    have hroom := helse.room h.elseBlock hne
    have hholds := h.prepared.exists_holds (m := m) h.mem hlive (by omega) bit
    obtain ⟨σe, σt, hrun⟩ := h.run hmem hlive hholds
    refine ⟨_, _, σe, σt, typedEnv_bits defs bit, hholds, hrun, fun v hv => ?_,
      execTerminator_branch.mpr ⟨bit cond, by rw [hcondty]; rfl, rfl⟩⟩
    obtain ⟨x, hx, hread⟩ := hholds.value v hv
    obtain ⟨ty, -, rfl⟩ := Option.map_eq_some_iff.mp hx
    rw [hread]
    cases ty <;> rfl
  have hsource : ∀ p ∈ phiPairs b.id e.instructions, p.1 ∈ live := fun p hp =>
    h.out_live hlive (h.prepared.source_live h.mem h.else_succ h.elseBlock hp)
  have htested : testedValue alloc.loc cond (phiPairs b.id e.instructions) ∈ live := by
    rcases testedValue_mem alloc.loc cond (phiPairs b.id e.instructions) with hw | ⟨p, hp, hw⟩
    · rw [hw]
      exact h.cond_live hlive
    · rw [hw]
      exact hsource p hp
  have htest : t.id ≠ e.id → testedValue alloc.loc cond (phiPairs b.id e.instructions) = cond := by
    intro hne
    by_contra hw
    have hpairs : phiPairs b.id e.instructions ≠ [] := by
      rcases testedValue_mem alloc.loc cond (phiPairs b.id e.instructions) with hw' | ⟨p, hp, -⟩
      · exact absurd hw' hw
      · exact List.ne_nil_of_mem hp
    -- the condition holds, but what is tested is zero
    obtain ⟨env, σ, σe, σt, henv, hholds, hrun, hread, hterm⟩ := hbits (fun v => v = cond) hpairs
    rw [if_pos (by simp)] at hterm
    obtain ⟨σ', hok, -⟩ := hcorrect live hlive env σ henv hholds t.id hterm
    have hzero : σ.read (alloc.loc (testedValue alloc.loc cond (phiPairs b.id e.instructions))) = 0 := by
      rw [hread _ htested]
      simp [flag, hw]
    have hok' := hrun.run
    rw [if_pos hzero, hok, Except.ok.injEq, Prod.mk.injEq] at hok'
    exact hne hok'.1
  intro t' e' ht' he'
  obtain rfl : t = t' := Option.some.inj (h.thenBlock.symm.trans ht')
  obtain rfl : e = e' := Option.some.inj (h.elseBlock.symm.trans he')
  refine ⟨htest, fun p hp v hv hloc => ?_⟩
  by_contra hne
  have hneeded : Needed liveness b.id t v := hv
  -- the tested value is one, and the copied value and the one it overwrites are different bits
  obtain ⟨w, hw⟩ : ∃ w, testedValue alloc.loc cond (phiPairs b.id e.instructions) = w := ⟨_, rfl⟩
  obtain ⟨env, σ, σe, σt, henv, hholds, hrun, hread, hterm⟩ :=
    hbits (fun x => x = w ∨ x = v ∧ p.1 ≠ w) (List.ne_nil_of_mem hp)
  have htarget : (if decide (cond = w ∨ cond = v ∧ p.1 ≠ w) then t.id else e.id) = t.id := by
    by_cases hsame : t.id = e.id
    · rw [hsame, ite_self]
    · rw [if_pos (by simp [← hw, htest hsame])]
  rw [htarget] at hterm
  obtain ⟨σ', hok, harrives⟩ := hcorrect live hlive env σ henv hholds t.id hterm
  have hone : ¬ σ.read (alloc.loc (testedValue alloc.loc cond (phiPairs b.id e.instructions))) = 0 := by
    rw [hread _ htested, hw]
    simp [flag]
  have hok' := hrun.run
  rw [if_neg hone, hok, Except.ok.injEq, Prod.mk.injEq] at hok'
  obtain rfl : σ' = σt := hok'.2
  have hdiffer : σe.read (alloc.loc v) ≠ σ.read (alloc.loc v) := by
    rw [← hloc, hrun.elsePhis p hp, hloc, hread _ (hsource p hp), hread _ (h.needed_live hlive hneeded)]
    by_cases hpw : p.1 = w
    · simp [flag, hpw, show ¬ v = w from fun hvw => hne (hpw.trans hvw.symm)]
    · simp [flag, hpw, hne]
  obtain ⟨hphis, hothers⟩ := (h.arrives hlive hholds h.then_succ h.thenBlock
    (hthen.cover h.thenBlock)).mp harrives
  rcases hneeded with ⟨hin, hphi⟩ | hin
  · obtain ⟨hlocated, hapart⟩ := h.prepared.apart_phis htb hin hphi
    exact hdiffer ((hrun.thenCopied.others v hlocated hapart).symm.trans (hothers v hin hphi))
  · obtain ⟨q, hq, rfl⟩ := List.mem_map.mp hin
    exact hdiffer ((hrun.thenCopied.phis q hq).symm.trans (hphis q hq))

end Branch

/-! ### The lowering of a function -/

section Function

variable {f : Function} {defs : Defs} {base reserved regionEnd : ℕ} {alloc : Allocation}
  {liveness : Liveness} {b : BasicBlock} {st : LowerState} {term : Terminator}
  {tail : List PendingBlock}

/-- The tail is what the terminator adds to the code before it. -/
theorem lowerTerm_tail (h : lowerTail f alloc regionEnd b st term = .ok tail) :
    ∃ p rest temp, tail = p :: rest ∧ lowerTerm f alloc regionEnd b.id st term =
      .ok (st.pending ++ ⟨st.cur ++ p.instructions, p.term⟩ :: rest, temp) := by
  simp only [lowerTail, bind_eq_ok] at h
  obtain ⟨⟨ps, temp⟩, hterm, h⟩ := h
  obtain rfl : ps = tail := Except.ok.inj h
  cases term with
  | jump target =>
    simp only [lowerTerm, bind_eq_ok] at hterm
    obtain ⟨c, hc, hterm⟩ := hterm
    obtain ⟨rfl, rfl⟩ := Prod.mk.inj (Except.ok.inj hterm)
    exact ⟨_, _, c.2, rfl, by simp only [lowerTerm, hc, ok_bind, List.nil_append]; rfl⟩
  | branch cond t e =>
    simp only [lowerTerm, bind_eq_ok] at hterm
    obtain ⟨r, hr, c, hc, d, hd, hterm⟩ := hterm
    obtain ⟨rfl, rfl⟩ := Prod.mk.inj (Except.ok.inj hterm)
    refine ⟨_, _, d.2, rfl, ?_⟩
    simp only [lowerTerm, hr, hc, hd, ok_bind, List.nil_append, List.append_assoc]
    rfl
  | ret value =>
    cases value with
    | none =>
      obtain ⟨rfl, rfl⟩ := Prod.mk.inj (Except.ok.inj hterm)
      exact ⟨_, _, st.temp, rfl, by simp [lowerTerm]⟩
    | some v =>
      simp only [lowerTerm, bind_eq_ok] at hterm
      obtain ⟨r, hr, hterm⟩ := hterm
      obtain ⟨rfl, rfl⟩ := Prod.mk.inj (Except.ok.inj hterm)
      refine ⟨_, _, st.temp, rfl, ?_⟩
      simp only [lowerTerm, hr, ok_bind, List.nil_append, List.append_assoc]
      rfl

/-- The staging slots at a terminator are behind the spill slots. -/
theorem AtTerminator.temp_le (h : AtTerminator f alloc liveness base regionEnd b st) :
    base + alloc.spills.length * 8 ≤ st.temp.next := by
  obtain ⟨before, after, lowered, temp, -, hbefore, hst⟩ := h
  obtain ⟨_, -, hblocks, -⟩ := Extends.blocks hbefore
  obtain ⟨_, -, hinsts, -⟩ := Extends.steps (Extends.nil temp) hst
  exact hblocks.le.trans hinsts.le

theorem loweredBranch (hp : Prepared f defs base reserved alloc liveness) {cond : ValueId}
    {t e : BlockId} (hterm : b.terminator = some (.branch cond t e))
    (hat : AtTerminator f alloc liveness base regionEnd b st)
    (htail : lowerTail f alloc regionEnd b st (.branch cond t e) = .ok tail) :
    ∃ tb eb, tb.id = t ∧ eb.id = e ∧
      LoweredBranch f defs base reserved regionEnd alloc liveness b cond tb eb tail := by
  have hmem : b ∈ f.blocks := by
    obtain ⟨before, after, -, -, hblocks, -⟩ := hat
    exact hblocks ▸ List.mem_append_right _ List.mem_cons_self
  simp only [lowerTail, bind_eq_ok] at htail
  obtain ⟨r, hr, htail⟩ := htail
  obtain rfl := Except.ok.inj htail
  have hcode := lowerTerm_ok hr
  generalize r.1 = ps at hcode ⊢
  generalize r.2 = temp' at hcode
  cases hcode with
  | @branch _ _ _ thenCopies elseCopies temp₁ _ _ helse hthen =>
    obtain ⟨eb, heb, -⟩ := id helse
    obtain ⟨tb, htb, -⟩ := id hthen
    obtain ⟨-, rfl⟩ := Function.block_some heb
    obtain ⟨-, rfl⟩ := Function.block_some htb
    exact ⟨tb, eb, rfl, rfl, hp, hmem, hterm, htb, heb, st.temp, temp₁, temp', elseCopies, thenCopies,
      hat.temp_le, helse, hthen, rfl⟩

theorem Prepared.tailCorrect_iff (hp : Prepared f defs base reserved alloc liveness)
    {m : MemorySize} (hmem : regionEnd ≤ m.bytes) {cond : ValueId} {t e : BlockId}
    (hterm : b.terminator = some (.branch cond t e))
    (hat : AtTerminator f alloc liveness base regionEnd b st)
    (htail : lowerTail f alloc regionEnd b st (.branch cond t e) = .ok tail) :
    TailCorrect f defs alloc liveness m b (.branch cond t e) tail ↔
      Undisturbed f alloc liveness b.id cond t e := by
  obtain ⟨tb, eb, rfl, rfl, hb⟩ := loweredBranch hp hterm hat htail
  exact ⟨hb.undisturbed_of_correct hmem, hb.correct_of_undisturbed hmem⟩

/-- **The lowering of a branch is correct if and only if the copies for its else-edge disturb neither
the test nor what the then-edge needs.** -/
theorem branchLowering_iff (hok : validateFunction f = .ok ())
    (hdefs : collectDefinitions f = .ok defs) (halloc : allocate f base reserved = .ok alloc)
    (hlive : analyze f = .ok liveness) {m : MemorySize} (hmem : regionEnd ≤ m.bytes)
    {cond : ValueId} {t e : BlockId} (hterm : b.terminator = some (.branch cond t e))
    (hat : AtTerminator f alloc liveness base regionEnd b st)
    (htail : lowerTail f alloc regionEnd b st (.branch cond t e) = .ok tail) :
    TailCorrect f defs alloc liveness m b (.branch cond t e) tail ↔
      Undisturbed f alloc liveness b.id cond t e := by
  obtain ⟨defs', hv⟩ := validateFunction_ok_iff.mp hok
  obtain rfl : defs' = defs := Except.ok.inj (hv.collect.symm.trans hdefs)
  exact (prepared hv halloc hlive).tailCorrect_iff hmem hterm hat htail

end Function

/-- The else-edge of block `0` enters block `2`, which has another predecessor and a phi. -/
def criticalEdge : Function where
  name := "f"
  params := [("a", .bool)]
  retTy := some .bool
  blocks := [⟨0, [⟨1, .bool, .un .not 0⟩], some (.branch 1 1 2)⟩,
    ⟨1, [⟨2, .bool, .constBool true⟩], some (.jump 2)⟩,
    ⟨2, [⟨3, .bool, .phi [(0, 0), (1, 2)]⟩], some (.ret (some 3))⟩]
  entry := 0

theorem criticalEdge_dominated : criticalEdge.DefsDominate := by
  have hentry : ∀ b, Dominates criticalEdge.Edge criticalEdge.entry 0 b := .of_root
  have hsplit : ∀ {x i : Instruction} {before after : List Instruction},
      [x] = before ++ i :: after → before = [] ∧ i = x := by
    rintro x i (_ | ⟨y, before⟩) after h
    · simp at h
      exact ⟨rfl, h.1.symm⟩
    · simp at h
  refine ⟨fun b hb before i after heq v hv => ?_, fun b hb t ht v hv => ?_, fun b hb incoming hi p hp => ?_⟩
  · simp only [criticalEdge, List.mem_cons, List.not_mem_nil, or_false] at hb
    rcases hb with rfl | rfl | rfl
    · obtain ⟨rfl, rfl⟩ := hsplit heq
      obtain rfl : v = 0 := by simpa [InstKind.operands] using hv
      exact .inl Nat.one_pos
    · obtain ⟨-, rfl⟩ := hsplit heq
      simp [InstKind.operands] at hv
    · obtain ⟨-, rfl⟩ := hsplit heq
      simp [InstKind.operands] at hv
  · simp only [criticalEdge, List.mem_cons, List.not_mem_nil, or_false] at hb
    rcases hb with rfl | rfl | rfl
    · obtain rfl := Option.some.inj ht
      exact .inr (.inl (by simpa [Terminator.operands] using hv))
    · obtain rfl := Option.some.inj ht
      simp [Terminator.operands] at hv
    · obtain rfl := Option.some.inj ht
      exact .inr (.inl (by simpa [Terminator.operands] using hv))
  · simp only [criticalEdge, List.mem_cons, List.not_mem_nil, or_false] at hb
    rcases hb with rfl | rfl | rfl
    · simp [BasicBlock.phis] at hi
    · simp [BasicBlock.phis] at hi
    · obtain rfl : incoming = [(0, 0), (1, 2)] := by simpa [BasicBlock.phis] using hi
      simp only [List.mem_cons, List.not_mem_nil, or_false] at hp
      rcases hp with rfl | rfl
      · exact .inl Nat.one_pos
      · exact .inr ⟨⟨1, [⟨2, .bool, .constBool true⟩], some (.jump 2)⟩, by simp [criticalEdge],
          by simp [BasicBlock.Defines], .refl _⟩

theorem criticalEdge_phis : criticalEdge.PhisExact := by
  intro b hb incoming hi
  simp only [criticalEdge, List.mem_cons, List.not_mem_nil, or_false] at hb
  rcases hb with rfl | rfl | rfl
  · simp [BasicBlock.phis] at hi
  · simp [BasicBlock.phis] at hi
  · obtain rfl : incoming = [(0, 0), (1, 2)] := by simpa [BasicBlock.phis] using hi
    refine ⟨by decide, fun q => ?_⟩
    rw [show criticalEdge.predecessors 2 = [0, 1] from rfl]
    rfl

/-- The condition and the phi have the same register, so the copy overwrites the condition. -/
theorem criticalEdge_lost : validateFunction criticalEdge = .ok () ∧ criticalEdge.DefsDominate ∧
    criticalEdge.PhisExact ∧
    ∃ defs alloc liveness b st tail, collectDefinitions criticalEdge = .ok defs ∧
      allocate criticalEdge 0 1 = .ok alloc ∧ analyze criticalEdge = .ok liveness ∧
      b.terminator = some (.branch 1 1 2) ∧
      AtTerminator criticalEdge alloc liveness 0 4096 b st ∧
      lowerTail criticalEdge alloc 4096 b st (.branch 1 1 2) = .ok tail ∧
      ∀ m : MemorySize, 4096 ≤ m.bytes →
        ¬ TailCorrect criticalEdge defs alloc liveness m b (.branch 1 1 2) tail := by
  refine ⟨rfl, criticalEdge_dominated, criticalEdge_phis, ?_⟩
  obtain ⟨defs, hv⟩ := validateFunction_ok_iff.mp (rfl : validateFunction criticalEdge = .ok ())
  have hat : ∃ alloc liveness st tail, allocate criticalEdge 0 1 = .ok alloc ∧
      analyze criticalEdge = .ok liveness ∧
      AtTerminator criticalEdge alloc liveness 0 4096
        ⟨0, [⟨1, .bool, .un .not 0⟩], some (.branch 1 1 2)⟩ st ∧
      lowerTail criticalEdge alloc 4096 ⟨0, [⟨1, .bool, .un .not 0⟩], some (.branch 1 1 2)⟩ st
        (.branch 1 1 2) = .ok tail ∧ testedValue alloc.loc 1 [(0, 3)] = 0 :=
    ⟨_, _, _, _, rfl, rfl, ⟨[], _, _, _, rfl, rfl, rfl⟩, rfl, rfl⟩
  obtain ⟨alloc, liveness, st, tail, halloc, hlive, hat, htail, htested⟩ := hat
  refine ⟨defs, alloc, liveness, _, st, tail, hv.collect, halloc, hlive, rfl, hat, htail,
    fun m hm hcorrect => ?_⟩
  have hund := ((prepared hv halloc hlive).tailCorrect_iff hm rfl hat htail).mp hcorrect
  have hcond : testedValue alloc.loc 1 [(0, 3)] = 1 := (hund _ _ rfl rfl).1 (by decide)
  rw [htested] at hcond
  exact absurd hcond (by decide)

/-- The same edge, but the condition is read again behind it, so that the phi has another register. -/
def keptCondition : Function :=
  { criticalEdge with
    blocks := [⟨0, [⟨1, .bool, .un .not 0⟩], some (.branch 1 1 2)⟩,
      ⟨1, [⟨2, .bool, .constBool true⟩], some (.jump 2)⟩,
      ⟨2, [⟨3, .bool, .phi [(0, 0), (1, 2)]⟩, ⟨4, .bool, .bin .and 3 1⟩], some (.ret (some 4))⟩] }

/-- The only copy goes from the parameter to the phi, and the then-edge needs the condition at most. -/
theorem undisturbed_keptCondition {alloc : Allocation} {liveness : Liveness}
    (hcond : alloc.loc 1 = .reg 1) (hphi : alloc.loc 3 = .reg 2) (hin : liveness.liveIn 1 = [1]) :
    Undisturbed keptCondition alloc liveness 0 1 1 2 := by
  intro t e ht he
  obtain rfl := Option.some.inj ht
  obtain rfl := Option.some.inj he
  have hpairs : phiPairs 0 [⟨3, .bool, .phi [(0, 0), (1, 2)]⟩, ⟨4, .bool, .bin .and 3 1⟩] = [(0, 3)] :=
    rfl
  simp only [hpairs]
  refine ⟨fun _ => by simp [testedValue, hcond, hphi], fun p hp v hv hloc => ?_⟩
  obtain ⟨hv, -⟩ | hv := hv
  · rw [hin, List.mem_singleton] at hv
    rw [List.mem_singleton.mp hp, hv, hphi, hcond] at hloc
    exact absurd hloc (by decide)
  · simp [phiPairs] at hv

/-- The code of its branch. -/
theorem keptCondition_branch : ∃ defs alloc liveness st tail,
    collectDefinitions keptCondition = .ok defs ∧ allocate keptCondition 0 1 = .ok alloc ∧
      analyze keptCondition = .ok liveness ∧
      AtTerminator keptCondition alloc liveness 0 4096
        ⟨0, [⟨1, .bool, .un .not 0⟩], some (.branch 1 1 2)⟩ st ∧
      lowerTail keptCondition alloc 4096 ⟨0, [⟨1, .bool, .un .not 0⟩], some (.branch 1 1 2)⟩ st
        (.branch 1 1 2) = .ok tail :=
  ⟨_, _, _, _, _, rfl, rfl, rfl, ⟨[], _, _, _, rfl, rfl, rfl⟩, rfl⟩

theorem keptCondition_places {alloc : Allocation} {liveness : Liveness}
    (halloc : allocate keptCondition 0 1 = .ok alloc) (hlive : analyze keptCondition = .ok liveness) :
    alloc.loc 1 = .reg 1 ∧ alloc.loc 3 = .reg 2 ∧ liveness.liveIn 1 = [1] := by
  have hloc : (allocate keptCondition 0 1).toOption.map (fun a => (a.loc 1, a.loc 3)) =
    some (.reg 1, .reg 2) := by decide +kernel
  have hin : (analyze keptCondition).toOption.map (fun l => l.liveIn 1) = some [1] := by decide +kernel
  rw [halloc] at hloc
  rw [hlive] at hin
  simp only [Except.toOption, Option.map_some, Option.some.injEq, Prod.mk.injEq] at hloc hin
  exact ⟨hloc.1, hloc.2, hin⟩

theorem branchLowering_iff_keptCondition :
    ∃ defs alloc liveness b tail, collectDefinitions keptCondition = .ok defs ∧
      allocate keptCondition 0 1 = .ok alloc ∧ analyze keptCondition = .ok liveness ∧
      b ∈ keptCondition.blocks ∧
      TailCorrect keptCondition defs alloc liveness ⟨4096, by decide⟩ b (.branch 1 1 2) tail := by
  obtain ⟨defs, alloc, liveness, st, tail, hdefs, halloc, hlive, hat, htail⟩ := keptCondition_branch
  obtain ⟨hcond, hphi, hin⟩ := keptCondition_places halloc hlive
  have hok : validateFunction keptCondition = .ok () := by decide
  refine ⟨defs, alloc, liveness, ⟨0, [⟨1, .bool, .un .not 0⟩], some (.branch 1 1 2)⟩, tail, hdefs,
    halloc, hlive, List.mem_cons_self, ?_⟩
  have hund := undisturbed_keptCondition hcond hphi hin
  exact (branchLowering_iff (m := ⟨4096, by decide⟩) hok hdefs halloc hlive (Nat.le_refl _) rfl hat
    htail).mpr hund

end Codegen
end Chakobsa
