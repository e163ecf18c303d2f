import Chakobsa.Codegen.Colouring
import Chakobsa.Codegen.SpaceErrors

/-!
# Static memory regions

Function number `i` of a module owns the addresses from `i * 4096` up to `(i + 1) * 4096`. Two
allocators share that region: `allocate` hands out spill slots from its start, and `lower`
continues behind them with the staging slots of its parallel moves. Only the second one compares
what it hands out with the end of the region.

`Extends` says what one piece of the lowering adds: how many staging slots it takes and the absolute
addresses its code uses. It composes along the lowering, so that the addresses used by a function
are slots it owns, and slots stand one after the other. A function so takes a slot for every value
that the first-fit colouring of its interference graph leaves without a register (`spillCount`), and
one for every argument of a call and every phi at the end of an edge (`stagingCount`).

`staticMemory_iff` says exactly when the regions are kept: a function that takes no staging slot, so
that nothing is compared with the end of its region, may leave at most 512 values without a register.
-/

namespace Chakobsa
namespace Codegen

open Ir ExceptLemmas

/-- The address of a load or store relative to `ZERO_REG`. -/
def Instr.absolute (i : Instr) : Option ℤ :=
  match i.op with
  | .load => if i.b = ZERO_REG then some i.imm else none
  | .store => if i.a = ZERO_REG then some i.imm else none
  | _ => none

/-- The absolute addresses a piece of code uses. -/
def absolutes (code : List Instr) : List ℤ := code.filterMap Instr.absolute

/-- The slots of the staging ranges. -/
def stagingSlots (taken : List (ℕ × ℕ)) : List ℕ :=
  taken.flatMap fun p => (List.range p.2).map fun i => p.1 + i * 8

/-- Every slot of a function: those of its spilled values, then its staging slots. -/
def Lowered.slots (l : Lowered) : List ℕ :=
  l.alloc.spills.map Prod.snd ++ stagingSlots l.temps.taken

/-- Two 8-byte slots do not overlap. -/
def SlotsDisjoint (a b : ℕ) : Prop := a + 8 ≤ b ∨ b + 8 ≤ a

/-- The static memory of lowered functions is laid out as documented. -/
structure StaticMemory (lowered : List (String × Lowered)) : Prop where
  /-- Every absolute address of function `i` lies in region `i`. -/
  emitted : ∀ (i : ℕ) (name : String) (l : Lowered), lowered[i]? = some (name, l) →
    ∀ p ∈ l.pending, ∀ a ∈ absolutes p.instructions,
      (i * FUNCTION_REGION_BYTES : ℕ) ≤ a ∧ a + 8 ≤ ((i + 1) * FUNCTION_REGION_BYTES : ℕ)
  /-- Every slot of function `i` lies in region `i`. -/
  slots : ∀ (i : ℕ) (name : String) (l : Lowered), lowered[i]? = some (name, l) →
    ∀ a ∈ l.slots, i * FUNCTION_REGION_BYTES ≤ a ∧ a + 8 ≤ (i + 1) * FUNCTION_REGION_BYTES
  /-- Every slot is aligned to its 8 bytes. -/
  aligned : ∀ (i : ℕ) (name : String) (l : Lowered), lowered[i]? = some (name, l) →
    ∀ a ∈ l.slots, 8 ∣ a
  /-- Distinct spilled values have distinct entries, and no two slots of a function overlap. -/
  apart : ∀ (i : ℕ) (name : String) (l : Lowered), lowered[i]? = some (name, l) →
    (l.alloc.spills.map Prod.fst).Nodup ∧ l.slots.Pairwise SlotsDisjoint
  /-- No two functions share a slot. -/
  unshared : ∀ (i j : ℕ) (name name' : String) (l l' : Lowered), i ≠ j →
    lowered[i]? = some (name, l) → lowered[j]? = some (name', l') →
    ∀ a ∈ l.slots, ∀ b ∈ l'.slots, SlotsDisjoint a b
  /-- No slot reaches the software stack. -/
  below : ∀ (i : ℕ) (name : String) (l : Lowered), lowered[i]? = some (name, l) →
    ∀ a ∈ l.slots, a + 8 ≤ STACK_BASE

/-- The static memory of a compiled module: what was lowered for its functions is the code of the
program, and its slots are laid out as documented. -/
def CompiledModule.StaticMemory (M : Module) (c : CompiledModule) : Prop :=
  ∃ lowered, lowerAll (reservedArgRegisters M) 0 M.functions = .ok lowered ∧
    (c.program.blocks.tail.map fun b => b.instructions.dropLast) =
      (ownedPending lowered).map (fun p => p.2.instructions) ∧
    Codegen.StaticMemory lowered

/-- The block has phis. -/
def HasPhi (f : Function) (b : BlockId) : Prop :=
  ∃ t, f.block b = some t ∧ ∃ i ∈ t.instructions, i.kind.isPhi = true

/-- The staging slots for the arguments of a call. -/
def argSlots (inst : Instruction) : ℕ :=
  match inst.kind with
  | .call _ args => args.length
  | _ => 0

/-- The staging slots for an edge into a block: one for every phi. -/
def edgeSlots (f : Function) (target : BlockId) : ℕ :=
  ((f.block target).map fun b => b.phis.length).getD 0

/-- The staging slots that lowering a block takes. -/
def blockSlots (f : Function) (b : BasicBlock) : ℕ :=
  (b.instructions.map argSlots).sum + (b.successors.map (edgeSlots f)).sum

/-- The staging slots that lowering a function takes: one for every value that it moves in parallel. -/
def stagingCount (f : Function) : ℕ := (f.blocks.map (blockSlots f)).sum

/-- The number of slots in a region. -/
def REGION_SLOTS : ℕ := FUNCTION_REGION_BYTES / 8

/-- Every function that moves nothing in parallel leaves no more values without a register than its
region has slots. -/
def RegionsSuffice (M : Module) : Prop :=
  ∀ f ∈ M.functions, stagingCount f = 0 → spillCount f (reservedArgRegisters M) ≤ REGION_SLOTS

/-- Nothing but its space can keep the function from being lowered: it is accepted, its phis cover
their edges, and its parameters and constants fit. -/
structure Lowers (f : Function) : Prop where
  valid : validateFunction f = .ok ()
  phis : PhisCover f
  params : f.params.length ≤ NUM_GP_REGS
  consts : ∀ i ∈ f.insts, ConstFits i

/-- The regions of a module are kept. -/
structure RegionsKept (M : Module) : Prop where
  /-- The static memory of what is compiled is laid out as documented. -/
  laid : ∀ c, compileModule M = .ok c → c.StaticMemory M
  /-- A function that needs more slots than its region has is refused, if it is the first one that is. -/
  refused : ∀ i f, M.functions[i]? = some f → Lowers f →
    REGION_SLOTS < spillCount f (reservedArgRegisters M) + stagingCount f →
    M.functions.length * FUNCTION_REGION_BYTES ≤ STACK_BASE →
    (∀ j < i, ∀ g, M.functions[j]? = some g → ∃ l, compileFunction (reservedArgRegisters M) j g = .ok l) →
    compileModule M = Comp.fail (.outOfSpillSpace f.name)

/-! ### The staging slots -/

/-- The ranges stand one after the other from `a` to `b`. -/
def Contiguous : ℕ → List (ℕ × ℕ) → ℕ → Prop
  | a, [], b => a = b
  | a, p :: rest, b => p.1 = a ∧ Contiguous (a + p.2 * 8) rest b

theorem Contiguous.append {a b c : ℕ} {xs ys : List (ℕ × ℕ)} (hx : Contiguous a xs b)
    (hy : Contiguous b ys c) : Contiguous a (xs ++ ys) c := by
  induction xs generalizing a with
  | nil =>
    obtain rfl : a = b := hx
    exact hy
  | cons p xs ih => exact ⟨hx.1, ih hx.2⟩

theorem Contiguous.le {a b : ℕ} {xs : List (ℕ × ℕ)} (h : Contiguous a xs b) : a ≤ b := by
  induction xs generalizing a with
  | nil => exact Nat.le_of_eq h
  | cons p xs ih =>
    have := ih h.2
    omega

theorem Contiguous.mem {a b : ℕ} {xs : List (ℕ × ℕ)} (h : Contiguous a xs b) :
    ∀ s ∈ stagingSlots xs, a ≤ s ∧ s + 8 ≤ b := by
  induction xs generalizing a with
  | nil => simp [stagingSlots]
  | cons p xs ih =>
    obtain ⟨hp, hrest⟩ := h
    intro s hs
    rw [stagingSlots, List.flatMap_cons, List.mem_append] at hs
    rcases hs with hs | hs
    · obtain ⟨i, hi, rfl⟩ := List.mem_map.mp hs
      have := List.mem_range.mp hi
      have := hrest.le
      omega
    · have := ih hrest s hs
      omega

theorem Contiguous.aligned {a b : ℕ} {xs : List (ℕ × ℕ)} (h : Contiguous a xs b) (ha : 8 ∣ a) :
    ∀ s ∈ stagingSlots xs, 8 ∣ s := by
  induction xs generalizing a with
  | nil => simp [stagingSlots]
  | cons p xs ih =>
    obtain ⟨rfl, hrest⟩ := h
    intro s hs
    rw [stagingSlots, List.flatMap_cons, List.mem_append] at hs
    rcases hs with hs | hs
    · obtain ⟨i, -, rfl⟩ := List.mem_map.mp hs
      exact Nat.dvd_add ha (Nat.dvd_mul_left 8 i)
    · exact ih hrest (Nat.dvd_add ha (Nat.dvd_mul_left 8 p.2)) s hs

theorem range_slots_pairwise (a n : ℕ) :
    ((List.range n).map fun i => a + i * 8).Pairwise SlotsDisjoint := by
  rw [List.pairwise_map]
  refine List.pairwise_lt_range.imp fun {i j} hij => .inl ?_
  omega

theorem Contiguous.pairwise {a b : ℕ} {xs : List (ℕ × ℕ)} (h : Contiguous a xs b) :
    (stagingSlots xs).Pairwise SlotsDisjoint := by
  induction xs generalizing a with
  | nil => simp [stagingSlots]
  | cons p xs ih =>
    obtain ⟨hp, hrest⟩ := h
    rw [stagingSlots, List.flatMap_cons, List.pairwise_append]
    refine ⟨range_slots_pairwise _ _, ih hrest, fun s hs t ht => .inl ?_⟩
    obtain ⟨i, hi, rfl⟩ := List.mem_map.mp hs
    have := List.mem_range.mp hi
    have := hrest.mem t ht
    omega

/-! ### How many slots a piece of the lowering takes -/

@[simp] theorem Temps.take_next (temp : Temps) (n : ℕ) : (temp.take n).next = temp.next + n * 8 := by
  unfold Temps.take
  split
  · next h => rw [h, Nat.zero_mul, Nat.add_zero]
  · rfl

section Slots

variable {f : Function} {alloc : Allocation} {liveness : Liveness} {high : ℕ}

theorem lowerStep_next {block : BlockId} {st st' : LowerState} {inst : Instruction}
    (h : lowerStep f alloc liveness high block st inst = .ok st') :
    st'.temp.next = st.temp.next + argSlots inst * 8 := by
  rcases lowerStep_ok h with ⟨callee, args, saved, hk, -, rfl, -⟩ | ⟨hcall, rfl, -⟩
  · rw [argSlots, hk]
    exact Temps.take_next _ _
  · have : argSlots inst = 0 := by
      unfold argSlots
      cases hk : inst.kind <;> simp_all [InstKind.isCall]
    rw [this, Nat.zero_mul, Nat.add_zero]

theorem lowerSteps_next {block : BlockId} {st st' : LowerState} {insts : List Instruction}
    (h : insts.foldlM (lowerStep f alloc liveness high block) st = .ok st') :
    st'.temp.next = st.temp.next + (insts.map argSlots).sum * 8 := by
  induction insts generalizing st with
  | nil =>
    obtain rfl : st = st' := by simpa using h
    simp
  | cons i insts ih =>
    rw [List.foldlM_cons, bind_eq_ok] at h
    obtain ⟨st₁, h₁, h⟩ := h
    rw [ih h, lowerStep_next h₁, List.map_cons, List.sum_cons, Nat.add_mul, Nat.add_assoc]

/-- An edge has a move for every phi. -/
theorem phiMoveList_length {loc : ValueId → Loc} {from' : BlockId} {b : BasicBlock}
    (h : ∀ i ∈ b.instructions, ∀ incoming, i.kind = .phi incoming →
      (incoming.find? fun p => p.1 == from').isSome) :
    (phiMoveList loc from' b.instructions).length = b.phis.length := by
  unfold phiMoveList BasicBlock.phis
  generalize b.instructions = insts at h ⊢
  induction insts with
  | nil => rfl
  | cons i insts ih =>
    have hrest := ih fun j hj => h j (List.mem_cons_of_mem _ hj)
    cases hk : i.kind with
    | phi incoming =>
      obtain ⟨e, he⟩ := Option.isSome_iff_exists.mp (h i List.mem_cons_self incoming hk)
      simpa [hk, he] using hrest
    | _ => simpa [hk] using hrest

theorem EdgeCode.slots {temp temp' : Temps} {from' target : BlockId} {copies : List Instr}
    (h : EdgeCode f alloc high temp from' target copies temp') :
    ∃ b, f.block target = some b ∧
      (phiMoveList alloc.loc from' b.instructions).length = edgeSlots f target ∧
      temp'.next = temp.next + edgeSlots f target * 8 := by
  obtain ⟨b, hb, -, rfl, -, hphi⟩ := h
  have hlen : (phiMoveList alloc.loc from' b.instructions).length = edgeSlots f target := by
    rw [edgeSlots, hb]
    refine phiMoveList_length fun i hi incoming hk => ?_
    obtain ⟨-, v, hv, -⟩ := hphi i hi incoming hk
    exact Option.isSome_iff_exists.mpr ⟨_, hv⟩
  exact ⟨b, hb, hlen, by rw [Temps.take_next, hlen]⟩

/-- Lowering a block takes its slots. -/
theorem lowerBlock_next {temp : Temps} {b : BasicBlock} {r : List PendingBlock × Temps}
    (h : lowerBlock f alloc liveness high temp b = .ok r) :
    r.2.next = temp.next + blockSlots f b * 8 := by
  obtain ⟨st, term, hst, hterm, hcode⟩ := lowerBlock_ok h
  have hinsts := lowerSteps_next hst
  have hsucc : b.successors = term.successors := by simp [BasicBlock.successors, hterm]
  generalize r.1 = pending at hcode
  generalize r.2 = temp' at hcode ⊢
  rw [blockSlots, hsucc, Nat.add_mul, ← Nat.add_assoc]
  rw [← show st.temp.next = _ from hinsts]
  cases hcode with
  | jump edge =>
    obtain ⟨-, -, -, hnext⟩ := edge.slots
    rw [hnext]
    simp [Terminator.successors]
  | branch _ else' then' =>
    obtain ⟨-, -, -, helse⟩ := else'.slots
    obtain ⟨-, -, -, hthen⟩ := then'.slots
    rw [hthen, helse]
    simp only [Terminator.successors, List.map_cons, List.map_nil, List.sum_cons, List.sum_nil]
    omega
  | retNone => simp [Terminator.successors]
  | ret => simp [Terminator.successors]

theorem lowerBlocks_next {temp : Temps} {bs : List BasicBlock}
    {r : List (BlockId × List PendingBlock) × Temps}
    (h : lowerBlocks f alloc liveness high temp bs = .ok r) :
    r.2.next = temp.next + (bs.map (blockSlots f)).sum * 8 := by
  induction bs generalizing temp r with
  | nil =>
    obtain rfl := Except.ok.inj h
    simp
  | cons b bs ih =>
    simp only [lowerBlocks, bind_eq_ok] at h
    obtain ⟨x, hx, y, hy, h⟩ := h
    obtain rfl := Except.ok.inj h
    rw [show y.2.next = _ from ih hy, lowerBlock_next hx, List.map_cons, List.sum_cons, Nat.add_mul,
      Nat.add_assoc]

end Slots

/-! ### What a piece of the lowering adds -/

section Extends

variable {f : Function} {alloc : Allocation} {liveness : Liveness} {regionEnd : ℕ}

/-- From the bump pointer `t` to `t'`, the lowering has taken further staging slots in sequence,
checked against the end of the region if there are any, and has emitted code whose absolute
addresses are slots of the function. -/
def Extends (alloc : Allocation) (regionEnd : ℕ) (t : Temps) (code : List Instr) (t' : Temps) : Prop :=
  ∃ extra, t'.taken = t.taken ++ extra ∧ Contiguous t.next extra t'.next ∧
    (extra ≠ [] → t'.next ≤ regionEnd) ∧
    ∀ a ∈ absolutes code, ∃ s ∈ alloc.spills.map Prod.snd ++ stagingSlots extra, a = (s : ℕ)

theorem Extends.nil (t : Temps) : Extends alloc regionEnd t [] t :=
  ⟨[], by simp, rfl, by simp, by simp [absolutes]⟩

theorem Extends.append {t t₁ t₂ : Temps} {c₁ c₂ : List Instr}
    (h₁ : Extends alloc regionEnd t c₁ t₁) (h₂ : Extends alloc regionEnd t₁ c₂ t₂) :
    Extends alloc regionEnd t (c₁ ++ c₂) t₂ := by
  obtain ⟨e₁, htaken₁, hcont₁, hle₁, haddr₁⟩ := h₁
  obtain ⟨e₂, htaken₂, hcont₂, hle₂, haddr₂⟩ := h₂
  refine ⟨e₁ ++ e₂, by rw [htaken₂, htaken₁, List.append_assoc], hcont₁.append hcont₂,
    fun hne => ?_, fun a ha => ?_⟩
  · cases e₂ with
    | nil =>
      rw [← show t₁.next = t₂.next from hcont₂]
      exact hle₁ (by simpa using hne)
    | cons p e₂ => exact hle₂ (by simp)
  · rw [absolutes, List.filterMap_append, List.mem_append] at ha
    simp only [stagingSlots, List.flatMap_append, List.mem_append] at haddr₁ haddr₂ ⊢
    rcases ha with ha | ha
    · obtain ⟨s, hs, rfl⟩ := haddr₁ a ha
      exact ⟨s, by tauto, rfl⟩
    · obtain ⟨s, hs, rfl⟩ := haddr₂ a ha
      exact ⟨s, by tauto, rfl⟩

theorem Extends.congr {t t' : Temps} {c c' : List Instr} (h : Extends alloc regionEnd t c t')
    (hc : absolutes c = absolutes c') : Extends alloc regionEnd t c' t' := by
  obtain ⟨e, htaken, hcont, hle, haddr⟩ := h
  exact ⟨e, htaken, hcont, hle, hc ▸ haddr⟩

/-- Code whose absolute addresses are spill slots. -/
theorem Extends.ofSpills {t : Temps} {code : List Instr}
    (h : ∀ a ∈ absolutes code, ∃ s ∈ alloc.spills.map Prod.snd, a = (s : ℕ)) :
    Extends alloc regionEnd t code t := by
  refine ⟨[], by simp, rfl, by simp, fun a ha => ?_⟩
  simpa [stagingSlots] using h a ha

/-! ### The absolute addresses of the pieces -/

@[simp] theorem absolutes_nil : absolutes [] = [] := rfl

@[simp] theorem absolutes_append (c d : List Instr) :
    absolutes (c ++ d) = absolutes c ++ absolutes d := List.filterMap_append

theorem absolutes_cons (i : Instr) (code : List Instr) :
    absolutes (i :: code) = i.absolute.toList ++ absolutes code := by
  rw [absolutes, List.filterMap_cons]
  cases i.absolute <;> rfl

/-- The address of a spilled location. -/
def Loc.address : Loc → List ℤ
  | .reg _ => []
  | .spill addr => [(addr : ℤ)]

theorem absolutes_loadCode (l : Loc) (scratch : ℕ) :
    absolutes (l.loadCode scratch) = l.address := by
  cases l <;> rfl

theorem absolutes_storeCode (l : Loc) (r : ℕ) : absolutes (l.storeCode r) = l.address := by
  cases l <;> rfl

/-- The address of a located value is a spill slot. -/
theorem Allocation.Located.address {v : ValueId} (h : alloc.Located v) :
    ∀ a ∈ (alloc.loc v).address, ∃ s ∈ alloc.spills.map Prod.snd, a = (s : ℕ) := by
  unfold Allocation.loc
  cases hr : alloc.registers v with
  | some r => simp [Loc.address]
  | none =>
    rcases h with h | h
    · simp [hr] at h
    · obtain ⟨s, hs⟩ := Option.isSome_iff_exists.mp h
      obtain ⟨p, hp, rfl⟩ := Option.map_eq_some_iff.mp hs
      simp only [hs, Loc.address, List.mem_singleton]
      rintro a rfl
      exact ⟨p.2, List.mem_map_of_mem (List.mem_of_find?_eq_some hp), rfl⟩

theorem absolutes_instCode (inst : Instruction)
    (hcall : inst.kind.isCall = false) (hphi : inst.kind.isPhi = false) :
    ∀ a ∈ absolutes (instCode alloc.loc inst),
      ∃ v ∈ inst.id :: instUses inst.kind, a ∈ (alloc.loc v).address := by
  unfold instCode
  cases hk : inst.kind with
  | phi incoming => simp [hk, InstKind.isPhi] at hphi
  | call callee args => simp [hk, InstKind.isCall] at hcall
  | constI64 n => simp +contextual [absolutes_cons, Instr.absolute, absolutes_storeCode]
  | constBool b => simp +contextual [absolutes_cons, Instr.absolute, absolutes_storeCode]
  | bin op lhs rhs =>
    have hop : ∀ d x y : ℕ, (⟨binopOpcode op, d, x, y, 0⟩ : Instr).absolute = none := by
      cases op <;> simp [binopOpcode, Instr.absolute]
    simp only [absolutes_append, absolutes_cons, hop, absolutes_storeCode, absolutes_loadCode,
      instUses, List.mem_append, List.mem_cons]
    intro a ha
    aesop
  | un op x =>
    cases op <;>
    · simp only [absolutes_append, absolutes_cons, Instr.absolute, absolutes_storeCode,
        absolutes_loadCode, instUses, List.mem_append, List.mem_cons]
      intro a ha
      aesop

/-- The addresses of the locations a list of moves mentions. -/
def moveAddresses (moves : List (Loc × Loc)) : List ℤ :=
  moves.flatMap fun m => m.1.address ++ m.2.address

theorem absolutes_stageAll {base i : ℕ} {moves : List (Loc × Loc)} :
    ∀ a ∈ absolutes (stageAll base i moves), a ∈ moveAddresses moves ∨
      ∃ k, i ≤ k ∧ k < i + moves.length ∧ a = ((base + k * 8 : ℕ) : ℤ) := by
  induction moves generalizing i with
  | nil => simp [stageAll]
  | cons m moves ih =>
    intro a ha
    simp only [stageAll, stageCode, absolutes_append, absolutes_loadCode, absolutes_cons,
      Instr.absolute, List.mem_append] at ha
    rcases ha with (ha | ha) | ha
    · exact .inl (by simp [moveAddresses, ha])
    · exact .inr ⟨i, le_refl _, by simp, by simpa using ha⟩
    · rcases ih a ha with h | ⟨k, h₁, h₂, rfl⟩
      · exact .inl (by simp only [moveAddresses, List.flatMap_cons]; exact List.mem_append_right _ h)
      · exact .inr ⟨k, by omega, by simp only [List.length_cons]; omega, rfl⟩

theorem absolutes_unstageAll {base i : ℕ} {moves : List (Loc × Loc)} :
    ∀ a ∈ absolutes (unstageAll base i moves), a ∈ moveAddresses moves ∨
      ∃ k, i ≤ k ∧ k < i + moves.length ∧ a = ((base + k * 8 : ℕ) : ℤ) := by
  induction moves generalizing i with
  | nil => simp [unstageAll]
  | cons m moves ih =>
    obtain ⟨src, dst⟩ := m
    intro a ha
    rw [unstageAll, absolutes_append, List.mem_append] at ha
    rcases ha with ha | ha
    · cases dst with
      | reg r =>
        exact .inr ⟨i, le_refl _, by simp, by simpa [unstageCode, absolutes, Instr.absolute] using ha⟩
      | spill addr =>
        have ha : a = ((base + i * 8 : ℕ) : ℤ) ∨ a = addr := by
          simpa [unstageCode, absolutes, Instr.absolute] using ha
        rcases ha with rfl | rfl
        · exact .inr ⟨i, le_refl _, by simp, rfl⟩
        · exact .inl (by simp [moveAddresses, Loc.address])
    · rcases ih a ha with h | ⟨k, h₁, h₂, rfl⟩
      · exact .inl (by simp only [moveAddresses, List.flatMap_cons]; exact List.mem_append_right _ h)
      · exact .inr ⟨k, by omega, by simp only [List.length_cons]; omega, rfl⟩

/-- A parallel move takes its slots and uses them and the locations it moves between. -/
theorem Extends.move {t : Temps} {moves : List (Loc × Loc)}
    (haddr : ∀ a ∈ moveAddresses moves, ∃ s ∈ alloc.spills.map Prod.snd, a = (s : ℕ))
    (hle : moves ≠ [] → t.next + moves.length * 8 ≤ regionEnd) :
    Extends alloc regionEnd t (moveCode t.next moves) (t.take moves.length) := by
  by_cases hm : moves = []
  · subst hm
    exact (Extends.nil t).congr rfl
  · -- the slots follow each other, and an address is a slot or one of the moves' own
    have htake : t.take moves.length =
        ⟨t.next + moves.length * 8, t.taken ++ [(t.next, moves.length)]⟩ := by
      simp [Temps.take, hm]
    refine ⟨[(t.next, moves.length)], by rw [htake], ?_, fun _ => by rw [htake]; exact hle hm,
      fun a ha => ?_⟩
    · rw [htake]
      exact ⟨rfl, rfl⟩
    · have ha : a ∈ moveAddresses moves ∨
          ∃ k, 0 ≤ k ∧ k < 0 + moves.length ∧ a = ((t.next + k * 8 : ℕ) : ℤ) := by
        rw [moveCode, absolutes_append, List.mem_append] at ha
        rcases ha with ha | ha
        · exact absolutes_stageAll a ha
        · exact absolutes_unstageAll a ha
      rcases ha with ha | ⟨k, -, hk, rfl⟩
      · obtain ⟨s, hs, rfl⟩ := haddr a ha
        exact ⟨s, List.mem_append_left _ hs, rfl⟩
      · refine ⟨_, List.mem_append_right _ ?_, rfl⟩
        simp only [stagingSlots, List.flatMap_cons, List.flatMap_nil, List.append_nil,
          List.mem_map, List.mem_range]
        exact ⟨k, by omega, rfl⟩

/-- The stack-relative code around a call uses no absolute address. -/
theorem absolutes_saveAll (i : ℕ) (saved : List (ValueId × ℕ)) :
    absolutes (saveAll i saved) = [] := by
  induction saved generalizing i with
  | nil => rfl
  | cons p saved ih => simp [saveAll, absolutes_cons, Instr.absolute, STACK_PTR, ZERO_REG, ih]

theorem absolutes_restoreAll (i : ℕ) (saved : List (ValueId × ℕ)) :
    absolutes (restoreAll i saved) = [] := by
  induction saved generalizing i with
  | nil => rfl
  | cons p saved ih => simp [restoreAll, absolutes_cons, Instr.absolute, STACK_PTR, ZERO_REG, ih]

theorem absolutes_bumpCode {op : Opcode} (hop : op = .add ∨ op = .sub) (bytes : ℕ) :
    absolutes (bumpCode op bytes) = [] := by
  unfold bumpCode
  rcases hop with rfl | rfl <;> split <;> simp [absolutes_cons, Instr.absolute]

theorem absolutes_resultCode (dst : Loc) : absolutes (resultCode dst) = dst.address := by
  unfold resultCode
  split <;> simp [absolutes_cons, Instr.absolute, absolutes_storeCode]

theorem absolutes_retCode (l : Loc) : absolutes (retCode l) = l.address := by
  unfold retCode
  split <;> simp [absolutes_cons, Instr.absolute, absolutes_loadCode]

theorem moveAddresses_argMoveList {i : ℕ} {args : List ValueId}
    (h : ∀ a ∈ args, alloc.Located a) :
    ∀ a ∈ moveAddresses (argMoveList alloc.loc i args),
      ∃ s ∈ alloc.spills.map Prod.snd, a = (s : ℕ) := by
  induction args generalizing i with
  | nil => simp [argMoveList, moveAddresses]
  | cons v args ih =>
    intro a ha
    simp only [argMoveList, moveAddresses, List.flatMap_cons, List.mem_append] at ha
    rcases ha with (ha | ha) | ha
    · exact (h v List.mem_cons_self).address a ha
    · simp [Loc.address] at ha
    · exact ih (fun b hb => h b (List.mem_cons_of_mem _ hb)) a ha

/-! ### The lowering of a function -/

theorem moveAddresses_phiMoveList {from' : BlockId} {insts : List Instruction}
    (hphi : ∀ i ∈ insts, ∀ incoming, i.kind = .phi incoming → alloc.Located i.id ∧
      ∃ v, incoming.find? (fun p => p.1 == from') = some (from', v) ∧ alloc.Located v) :
    ∀ a ∈ moveAddresses (phiMoveList alloc.loc from' insts),
      ∃ s ∈ alloc.spills.map Prod.snd, a = (s : ℕ) := by
  intro a ha
  simp only [moveAddresses, phiMoveList, List.mem_flatMap, List.mem_filterMap] at ha
  obtain ⟨m, ⟨i, hi, hm⟩, ha⟩ := ha
  split at hm
  · next incoming hk =>
    obtain ⟨hid, v, hfind, hv⟩ := hphi i hi incoming hk
    obtain rfl : (alloc.loc v, alloc.loc i.id) = m := by simpa [hfind] using hm
    rcases List.mem_append.mp ha with ha | ha
    · exact hv.address a ha
    · exact hid.address a ha
  · simp at hm

/-- The code of a block under construction. -/
def LowerState.code (st : LowerState) : List Instr :=
  st.pending.flatMap (·.instructions) ++ st.cur

/-- The code of an instruction uses the slots of the values it reads and of the one it defines. -/
theorem instCode_spills {inst : Instruction} (hcall : inst.kind.isCall = false)
    (huses : ∀ v ∈ instUses inst.kind, alloc.Located v)
    (hid : inst.kind.isPhi = false → alloc.Located inst.id) :
    ∀ a ∈ absolutes (instCode alloc.loc inst), ∃ s ∈ alloc.spills.map Prod.snd, a = (s : ℕ) := by
  intro a ha
  cases hphi : inst.kind.isPhi with
  | true =>
    -- a phi has no code
    unfold instCode at ha
    cases hk : inst.kind <;> simp_all [InstKind.isPhi]
  | false =>
    obtain ⟨v, hv, hav⟩ := absolutes_instCode inst hcall hphi a ha
    rcases List.mem_cons.mp hv with rfl | hv
    · exact (hid hphi).address a hav
    · exact (huses v hv).address a hav

/-- One instruction. -/
theorem Extends.step {t : Temps} {block : BlockId} {st st' : LowerState}
    {inst : Instruction} (hst : Extends alloc regionEnd t st.code st.temp)
    (h : lowerStep f alloc liveness regionEnd block st inst = .ok st') :
    Extends alloc regionEnd t st'.code st'.temp := by
  rcases lowerStep_ok h with ⟨callee, args, saved, hk, -, rfl, hle, hargs, hid⟩ |
    ⟨hcall, rfl, huses, hid, -⟩
  · have hmove : Extends alloc regionEnd st.temp
        (prologueCode alloc.loc st.temp.next saved args) (st.temp.take args.length) := by
      have := @Extends.move _ regionEnd st.temp _ (moveAddresses_argMoveList (i := 0) hargs)
        (fun hne => by simpa using hle (by rintro rfl; exact hne rfl))
      rw [argMoveList_length] at this
      refine this.congr ?_
      simp [prologueCode, absolutes_saveAll, absolutes_bumpCode]
    have hend : Extends alloc regionEnd (st.temp.take args.length)
        (epilogueCode (alloc.loc inst.id) saved) (st.temp.take args.length) := by
      refine .ofSpills fun a ha => hid.address a ?_
      simpa [epilogueCode, absolutes_bumpCode, absolutes_restoreAll, absolutes_resultCode] using ha
    refine ((hst.append hmove).append hend).congr ?_
    simp [LowerState.code]
  · have hinst : Extends alloc regionEnd st.temp (instCode alloc.loc inst) st.temp :=
      .ofSpills (instCode_spills hcall huses hid)
    refine (hst.append hinst).congr ?_
    simp [LowerState.code]

/-- All instructions of a block. -/
theorem Extends.steps {t : Temps} {block : BlockId} {st st' : LowerState}
    {insts : List Instruction} (hst : Extends alloc regionEnd t st.code st.temp)
    (h : insts.foldlM (lowerStep f alloc liveness regionEnd block) st = .ok st') :
    Extends alloc regionEnd t st'.code st'.temp :=
  foldlM_invariant (fun st => Extends alloc regionEnd t st.code st.temp)
    (fun _ _ _ _ hst h => hst.step h) hst h

/-- An edge. -/
theorem Extends.edge {t t' : Temps} {from' target : BlockId} {copies : List Instr}
    (h : EdgeCode f alloc regionEnd t from' target copies t') :
    Extends alloc regionEnd t copies t' := by
  obtain ⟨b, -, rfl, rfl, hle, hphi⟩ := h
  exact Extends.move (moveAddresses_phiMoveList hphi) hle

/-- A block with its terminator. -/
theorem Extends.block {t : Temps} {b : BasicBlock} {r : List PendingBlock × Temps}
    (h : lowerBlock f alloc liveness regionEnd t b = .ok r) :
    Extends alloc regionEnd t (r.1.flatMap (·.instructions)) r.2 := by
  obtain ⟨st, term, hst, -, hcode⟩ := lowerBlock_ok h
  have hinst := Extends.steps (Extends.nil t) hst
  generalize r.1 = pending at hcode ⊢
  generalize r.2 = t' at hcode ⊢
  cases hcode with
  | jump edge =>
    refine (hinst.append (.edge edge)).congr ?_
    simp [LowerState.code]
  | @branch cond tb eb tc ec t₁ _ hloc else' then' =>
    have hcond : Extends alloc regionEnd st.temp ((alloc.loc cond).loadCode SCRATCH_1)
        st.temp := .ofSpills fun a ha => hloc.address a (by rwa [absolutes_loadCode] at ha)
    refine (((hinst.append hcond).append (.edge else')).append (.edge then')).congr ?_
    simp [LowerState.code]
  | retNone =>
    refine hinst.congr ?_
    simp [LowerState.code]
  | @ret v hloc =>
    have hret : Extends alloc regionEnd st.temp (retCode (alloc.loc v)) st.temp :=
      .ofSpills fun a ha => hloc.address a (by rwa [absolutes_retCode] at ha)
    refine (hinst.append hret).congr ?_
    simp [LowerState.code]

/-- All blocks. -/
theorem Extends.blocks {t : Temps} {bs : List BasicBlock}
    {r : List (BlockId × List PendingBlock) × Temps}
    (h : lowerBlocks f alloc liveness regionEnd t bs = .ok r) :
    Extends alloc regionEnd t ((r.1.flatMap Prod.snd).flatMap (·.instructions)) r.2 := by
  induction bs generalizing t r with
  | nil =>
    obtain rfl : ([], t) = r := by simpa [lowerBlocks] using h
    exact Extends.nil t
  | cons b bs ih =>
    simp only [lowerBlocks, bind_eq_ok] at h
    obtain ⟨x, hx, y, hy, h⟩ := h
    obtain rfl := Except.ok.inj h
    exact ((Extends.block hx).append (ih hy)).congr (by simp)

end Extends

/-! ### The slots of a function -/

section Spilled

variable {params reserved base : ℕ} {neighbours : ValueId → ValueSet} {done : List ValueId}
  {alloc : Allocation}

/-- The spill slots follow the base. -/
theorem Colored.spill_addr (h : Colored params reserved base neighbours done alloc) {a : ℕ}
    (ha : a ∈ alloc.spills.map Prod.snd) : ∃ k, k < alloc.spills.length ∧ a = base + 8 * k := by
  obtain ⟨k, hk⟩ := List.mem_iff_getElem?.mp ha
  rw [List.getElem?_map, Option.map_eq_some_iff] at hk
  obtain ⟨p, hp, rfl⟩ := hk
  exact ⟨k, (List.getElem?_eq_some_iff.mp hp).1, h.slot k p hp⟩

theorem Colored.spill_pairwise (h : Colored params reserved base neighbours done alloc) :
    (alloc.spills.map Prod.snd).Pairwise SlotsDisjoint := by
  rw [List.pairwise_iff_getElem]
  intro j k hj hk hjk
  simp only [List.getElem_map]
  have h₁ := h.slot j _ (List.getElem?_eq_getElem (by simpa using hj))
  have h₂ := h.slot k _ (List.getElem?_eq_getElem (by simpa using hk))
  exact .inl (by omega)

end Spilled

/-- The slots of a lowered function, wherever they end. -/
structure FunctionSlots (f : Function) (base regionEnd : ℕ) (l : Lowered) : Prop where
  values : (l.alloc.spills.map Prod.fst).Nodup
  pairwise : l.slots.Pairwise SlotsDisjoint
  bounds : ∀ a ∈ l.slots, base ≤ a ∧ a + 8 ≤ l.temps.next
  aligned : ∀ a ∈ l.slots, 8 ∣ a
  emitted : ∀ p ∈ l.pending, ∀ a ∈ absolutes p.instructions, ∃ s ∈ l.slots, a = (s : ℕ)
  next : l.temps.next = base + 8 * (l.alloc.spills.length + stagingCount f)
  checked : stagingCount f ≠ 0 → l.temps.next ≤ regionEnd
  /-- The first slot behind the region, if so many values are spilled. -/
  spill : ∀ k, k < l.alloc.spills.length → base + 8 * k ∈ l.slots

theorem compileFunction_slots {reserved i : ℕ} {f : Function} {l : Lowered}
    (h : compileFunction reserved i f = .ok l) :
    FunctionSlots f (i * FUNCTION_REGION_BYTES) ((i + 1) * FUNCTION_REGION_BYTES) l := by
  obtain ⟨halloc, liveness, -, hblocks⟩ := compileFunction_ok h
  obtain ⟨-, _, _, -, -, hcol⟩ := allocate_ok halloc
  obtain ⟨extra, htaken, hcont, hle, haddr⟩ := Extends.blocks hblocks
  have hnext := lowerBlocks_next hblocks
  rw [List.nil_append] at htaken
  simp only at hnext hcont
  -- the spill slots come first, the staging slots behind them
  have hslots : l.slots = l.alloc.spills.map Prod.snd ++ stagingSlots extra := by
    rw [Lowered.slots, htaken]
  have hregion : 8 ∣ i * FUNCTION_REGION_BYTES := Nat.dvd_mul_left_of_dvd (by decide) i
  refine ⟨hcol.spillNodup, ?_, fun a ha => ?_, fun a ha => ?_, fun p hp a ha => ?_, ?_,
    fun hm => hle ?_, fun k hk => ?_⟩
  · rw [hslots, List.pairwise_append]
    refine ⟨hcol.spill_pairwise, hcont.pairwise, fun a ha b hb => .inl ?_⟩
    obtain ⟨k, hk, rfl⟩ := hcol.spill_addr ha
    have := (hcont.mem b hb).1
    omega
  · rw [hslots, List.mem_append] at ha
    rcases ha with ha | ha
    · obtain ⟨k, hk, rfl⟩ := hcol.spill_addr ha
      have := hcont.le
      omega
    · have := hcont.mem a ha
      omega
  · rw [hslots, List.mem_append] at ha
    rcases ha with ha | ha
    · obtain ⟨k, -, rfl⟩ := hcol.spill_addr ha
      exact Nat.dvd_add hregion (Nat.dvd_mul_right 8 k)
    · exact hcont.aligned (Nat.dvd_add hregion (Nat.dvd_mul_right 8 _)) a ha
  · rw [hslots]
    refine haddr a ?_
    obtain ⟨c, hc, ha⟩ := List.mem_filterMap.mp ha
    refine List.mem_filterMap.mpr ⟨c, ?_, ha⟩
    exact List.mem_flatMap.mpr ⟨p, hp, hc⟩
  · rw [stagingCount]
    omega
  · -- slots have been taken
    rintro rfl
    have hsame := hcont
    unfold Contiguous at hsame
    rw [stagingCount] at hm
    omega
  · rw [hslots, List.mem_append]
    refine .inl (List.mem_map.mpr ⟨_, List.getElem_mem hk, ?_⟩)
    exact hcol.slot k _ (List.getElem?_eq_getElem hk)

/-- The slots are in the region if the staging slots are checked or the spill slots fit. -/
theorem FunctionSlots.region {f : Function} {i : ℕ} {l : Lowered}
    (h : FunctionSlots f (i * FUNCTION_REGION_BYTES) ((i + 1) * FUNCTION_REGION_BYTES) l)
    (hfit : stagingCount f = 0 → l.alloc.spills.length ≤ REGION_SLOTS) {a : ℕ} (ha : a ∈ l.slots) :
    i * FUNCTION_REGION_BYTES ≤ a ∧ a + 8 ≤ (i + 1) * FUNCTION_REGION_BYTES := by
  obtain ⟨hlo, hhi⟩ := h.bounds a ha
  refine ⟨hlo, hhi.trans ?_⟩
  by_cases hm : stagingCount f = 0
  · have hspills : 8 * l.alloc.spills.length ≤ FUNCTION_REGION_BYTES :=
      Nat.le_trans (Nat.mul_le_mul_left 8 (hfit hm)) (by decide)
    rw [h.next, hm, Nat.add_one_mul i]
    omega
  · exact h.checked hm

/-- The regions lie below the stack. -/
theorem Layout.region_below {M : Module} {c : CompiledModule} {lowered : List (String × Lowered)}
    (h : Layout M c lowered) {i : ℕ} (hi : i < lowered.length) :
    (i + 1) * FUNCTION_REGION_BYTES ≤ STACK_BASE := by
  rw [(lowerAll_ok h.pass1).1] at hi
  exact Nat.le_trans (Nat.mul_le_mul_right _ hi) h.budget

section Module

variable {M : Module} {c : CompiledModule} {lowered : List (String × Lowered)}

/-- What has been lowered at a position is the function at it, with its slots. -/
theorem slots_of_lowerAll (h : lowerAll (reservedArgRegisters M) 0 M.functions = .ok lowered) {i : ℕ}
    {name : String} {l : Lowered} (hl : lowered[i]? = some (name, l)) :
    ∃ f, M.functions[i]? = some f ∧
      FunctionSlots f (i * FUNCTION_REGION_BYTES) ((i + 1) * FUNCTION_REGION_BYTES) l ∧
      l.alloc.spills.length = spillCount f (reservedArgRegisters M) := by
  obtain ⟨f, hf, -, hc⟩ := lowerAll_mem h hl
  rw [Nat.zero_add] at hc
  exact ⟨f, hf, compileFunction_slots hc, allocate_spills (compileFunction_ok hc).1⟩

/-- If every function keeps to its region, then the static memory is laid out as documented. -/
theorem RegionsSuffice.laid (h : RegionsSuffice M) (hok : compileModule M = .ok c) :
    c.StaticMemory M := by
  obtain ⟨lowered, hlay⟩ := compileModule_ok hok
  have hregion : ∀ (i : ℕ) (name : String) (l : Lowered), lowered[i]? = some (name, l) →
      ∀ a ∈ l.slots, i * FUNCTION_REGION_BYTES ≤ a ∧ a + 8 ≤ (i + 1) * FUNCTION_REGION_BYTES := by
    intro i name l hl a ha
    obtain ⟨f, hf, hslots, hcount⟩ := slots_of_lowerAll hlay.pass1 hl
    exact hslots.region (fun hm => hcount ▸ h f (List.mem_of_getElem? hf) hm) ha
  -- all else follows: what is emitted is a slot, and regions neither meet nor reach the stack
  refine ⟨lowered, hlay.pass1, hlay.code, ⟨?_, hregion, ?_, ?_, ?_, ?_⟩⟩
  · intro i name l hl p hp a ha
    obtain ⟨f, -, hslots, -⟩ := slots_of_lowerAll hlay.pass1 hl
    obtain ⟨s, hs, rfl⟩ := hslots.emitted p hp a ha
    have := hregion i name l hl s hs
    omega
  · intro i name l hl
    obtain ⟨f, -, hslots, -⟩ := slots_of_lowerAll hlay.pass1 hl
    exact hslots.aligned
  · intro i name l hl
    obtain ⟨f, -, hslots, -⟩ := slots_of_lowerAll hlay.pass1 hl
    exact ⟨hslots.values, hslots.pairwise⟩
  · intro i j name name' l l' hij hl hl' a ha b hb
    have h₁ := hregion i name l hl a ha
    have h₂ := hregion j name' l' hl' b hb
    unfold SlotsDisjoint FUNCTION_REGION_BYTES at *
    omega
  · intro i name l hl a ha
    have hend := hlay.region_below (List.getElem?_eq_some_iff.mp hl).1
    exact Nat.le_trans (hregion i name l hl a ha).2 hend

/-- And a function does so if the static memory is. -/
theorem CompiledModule.StaticMemory.suffice (h : c.StaticMemory M) : RegionsSuffice M := by
  obtain ⟨lowered, hl, -, hstatic⟩ := h
  intro f hf _
  obtain ⟨i, hi⟩ := List.mem_iff_getElem?.mp hf
  obtain ⟨l, hli, -⟩ := (lowerAll_ok hl).2 i f hi
  obtain ⟨f', hf', hslots, hcount⟩ := slots_of_lowerAll hl hli
  obtain rfl : f = f' := by simpa [hi] using hf'
  rw [← hcount]
  -- otherwise the slot at the end of the region is taken
  by_contra hgt
  have hmem := hslots.spill REGION_SLOTS (Nat.not_le.mp hgt)
  have := (hstatic.slots i f.name l hli _ hmem).2
  unfold REGION_SLOTS FUNCTION_REGION_BYTES at this
  omega

/-- The first function that cannot be lowered ends pass 1. -/
theorem lowerAll_error {reserved k : ℕ} {fs : List Function} {i : ℕ} {f : Function}
    {e : Fault CodegenError CodegenPanic} (hf : fs[i]? = some f)
    (hbefore : ∀ j < i, ∀ g, fs[j]? = some g → ∃ l, compileFunction reserved (k + j) g = .ok l)
    (he : compileFunction reserved (k + i) f = .error e) : lowerAll reserved k fs = .error e := by
  induction fs generalizing k i with
  | nil => simp at hf
  | cons g fs ih =>
    unfold lowerAll
    cases i with
    | zero =>
      obtain rfl : g = f := by simpa using hf
      rw [Nat.add_zero] at he
      rw [he]
      rfl
    | succ i =>
      obtain ⟨l, hl⟩ := hbefore 0 (Nat.succ_pos i) g rfl
      rw [Nat.add_zero] at hl
      have hrest : lowerAll reserved (k + 1) fs = .error e := by
        refine ih (by simpa using hf) (fun j hj g hg => ?_) ?_
        · have hok := hbefore (j + 1) (Nat.succ_lt_succ hj) g (by simpa using hg)
          rwa [show k + (j + 1) = k + 1 + j by omega] at hok
        · rwa [show k + (i + 1) = k + 1 + i by omega] at he
      rw [hl, ok_bind, hrest]
      rfl

/-- A function that needs more slots than its region has is refused, where nothing else is wrong. -/
theorem RegionsSuffice.compileFunction (h : RegionsSuffice M) {i : ℕ} {f : Function}
    (hf : M.functions[i]? = some f) (hl : Lowers f)
    (hneed : REGION_SLOTS < spillCount f (reservedArgRegisters M) + stagingCount f) :
    compileFunction (reservedArgRegisters M) i f = Comp.fail (.outOfSpillSpace f.name) := by
  refine (compileFunction_outOfSpace hl.valid hl.phis hl.params hl.consts _ i).resolve_left ?_
  rintro ⟨l, hok⟩
  have hslots := compileFunction_slots hok
  have hcount := allocate_spills (compileFunction_ok hok).1
  -- it moves something, since its spill slots alone fit, and so its slots have been checked
  have hmove : stagingCount f ≠ 0 := by
    intro hm
    have := h f (List.mem_of_getElem? hf) hm
    omega
  have hend := hslots.checked hmove
  rw [hslots.next, hcount] at hend
  unfold REGION_SLOTS FUNCTION_REGION_BYTES at *
  omega

theorem RegionsSuffice.refused (h : RegionsSuffice M) {i : ℕ} {f : Function}
    (hf : M.functions[i]? = some f) (hl : Lowers f)
    (hneed : REGION_SLOTS < spillCount f (reservedArgRegisters M) + stagingCount f)
    (hlen : M.functions.length * FUNCTION_REGION_BYTES ≤ STACK_BASE)
    (hbefore : ∀ j < i, ∀ g, M.functions[j]? = some g →
      ∃ l, Codegen.compileFunction (reservedArgRegisters M) j g = .ok l) :
    compileModule M = Comp.fail (.outOfSpillSpace f.name) := by
  have hpass : lowerAll (reservedArgRegisters M) 0 M.functions =
      .error (.err (.outOfSpillSpace f.name)) := by
    refine lowerAll_error hf (fun j hj g hg => ?_) ?_
    · rw [Nat.zero_add]
      exact hbefore j hj g hg
    · rw [Nat.zero_add]
      exact h.compileFunction hf hl hneed
  unfold compileModule
  rw [if_neg (Nat.not_lt.mpr hlen), hpass]
  rfl

end Module

/-- **Static memory regions.** The regions of a module are kept if every function that moves nothing
in parallel leaves no more than 512 values without a register, and in a module that is compiled they
are kept only then. -/
theorem staticMemory_iff (M : Module) :
    (RegionsSuffice M → RegionsKept M) ∧
      ∀ c, compileModule M = .ok c → (RegionsKept M ↔ RegionsSuffice M) := by
  have hkept : RegionsSuffice M → RegionsKept M := fun h =>
    ⟨fun c hc => h.laid hc, fun i f hf hl hneed hlen hbefore => h.refused hf hl hneed hlen hbefore⟩
  exact ⟨hkept, fun c hc => ⟨fun h => (h.laid c hc).suffice, hkept⟩⟩

/-- A function with so many parameters that no register is left for anything else. -/
def wide : Function where
  name := "g"
  params := List.replicate 27 ("x", .i64)
  retTy := none
  entry := 0
  blocks := [⟨0, [], some (.ret none)⟩]

/-- `wide` after a function that keeps two values in spill slots and one that stages an argument. -/
def spilling : Module where
  functions :=
    [⟨"two", [], some .i64, [⟨0, [⟨0, .i64, .constI64 1⟩, ⟨1, .i64, .bin .add 0 0⟩], some (.ret (some 1))⟩], 0⟩,
     ⟨"main", [("x", .i64)], some .i64,
      [⟨0, [⟨1, .i64, .constI64 7⟩, ⟨2, .i64, .call "main" [1]⟩], some (.ret (some 2))⟩], 0⟩,
     wide]

theorem staticMemory_spilling : ∃ c lowered, compileModule spilling = .ok c ∧
    lowerAll (reservedArgRegisters spilling) 0 spilling.functions = .ok lowered ∧
    lowered.map (fun p => p.2.slots) = [[0, 8], [4096, 4104, 4112], []] ∧ RegionsKept spilling := by
  obtain ⟨c, hc⟩ := exists_of_isSome (show (compileModule spilling).toOption.isSome = true by
    decide +kernel)
  obtain ⟨lowered, hlay⟩ := compileModule_ok hc
  have hslots : (lowerAll (reservedArgRegisters spilling) 0 spilling.functions).toOption.map
      (fun lowered => lowered.map fun p => p.2.slots) = some [[0, 8], [4096, 4104, 4112], []] := by
    decide +kernel
  rw [hlay.pass1] at hslots
  refine ⟨c, lowered, hc, hlay.pass1, Option.some.inj hslots, (staticMemory_iff spilling).1 fun f hf _ => ?_⟩
  -- no function has that many values
  have hfew : (others f).length ≤ REGION_SLOTS := by
    revert f
    decide
  exact Nat.le_trans (List.length_filter_le _ _) hfew

/-! ### A module that overruns a region -/

/-- A function of `n` constants. -/
def constants (n : ℕ) : Function where
  name := "f"
  params := []
  retTy := none
  entry := 0
  blocks := [⟨0, (List.range n).map fun i => ⟨i, .i64, .constI64 1⟩, some (.ret none)⟩]

theorem scanConstants (ids : List ℕ) (u d : ValueSet) :
    ((ids.map fun i => Instruction.mk i .i64 (.constI64 1)).foldl scanInst (u, d)).1 = u := by
  induction ids generalizing d with
  | nil => rfl
  | cons i ids ih => exact ih _

theorem usedAndDefined_constants (n : ℕ) :
    ∃ d, usedAndDefinedInBlock (constants n) 0 = .ok ([], d) := by
  refine ⟨(((List.range n).map fun i => Instruction.mk i .i64 (.constI64 1)).foldl
    scanInst ([], [])).2, ?_⟩
  show Except.ok (_, _) = _
  rw [Except.ok.injEq, Prod.mk.injEq]
  exact ⟨scanConstants _ _ _, rfl⟩

theorem analyze_constants (n : ℕ) :
    analyze (constants n) = .ok ⟨fun _ => [], fun _ => []⟩ := by
  obtain ⟨d, hd⟩ := usedAndDefined_constants n
  have hf : flowOut (constants n) (fun _ => []) 0 = .ok [] := rfl
  have hb : (constants n).blocks.foldlM (sweepBlock (constants n))
      ⟨⟨fun _ => [], fun _ => []⟩, false⟩ = .ok ⟨⟨fun _ => [], fun _ => []⟩, false⟩ := by
    simp only [constants, List.foldlM_cons, List.foldlM_nil, sweepBlock] at hd hf ⊢
    simp only [hd, hf, ok_bind]
    rfl
  simp only [analyze, analyzeLoop, hb, ok_bind]
  rfl

theorem others_constants (n : ℕ) : (others (constants n)).Perm (List.range n) := by
  refine (List.perm_ext_iff_of_nodup (others_nodup _) List.nodup_range).mpr fun v => ?_
  rw [mem_others]
  simp [constants, Function.insts]

/-- With every register reserved nothing but parameters is coloured. -/
theorem spillAll (base : ℕ) (neighbours : ValueId → ValueSet) (vs : List ValueId)
    (alloc : Allocation) :
    (vs.foldl (allocateValue NUM_GP_REGS base neighbours) alloc).registers = alloc.registers ∧
    (vs.foldl (allocateValue NUM_GP_REGS base neighbours) alloc).spills.length =
      alloc.spills.length + vs.length := by
  induction vs generalizing alloc with
  | nil => exact ⟨rfl, rfl⟩
  | cons v vs ih =>
    have hv : allocateValue NUM_GP_REGS base neighbours alloc v =
        { alloc with spills := alloc.spills ++ [(v, base + 8 * alloc.spills.length)] } := rfl
    rw [List.foldl_cons, hv]
    obtain ⟨h₁, h₂⟩ :=
      ih { alloc with spills := alloc.spills ++ [(v, base + 8 * alloc.spills.length)] }
    refine ⟨h₁, h₂.trans ?_⟩
    simp only [List.length_append, List.length_cons, List.length_nil]
    omega

theorem allocate_constants (n base : ℕ) :
    ∃ alloc, allocate (constants n) base NUM_GP_REGS = .ok alloc ∧
      (∀ v, alloc.registers v = none) ∧ alloc.spills.length = n := by
  obtain ⟨d, hd⟩ := usedAndDefined_constants n
  have hlive : ∃ live, (constants n).blocks.mapM (fun b => do
      return (b.id, ← liveWithinBlock (constants n) b.id ⟨fun _ => [], fun _ => []⟩)) =
        (.ok live : CodegenM _) := by
    refine ⟨[(0, (([] ∪ []) ∪ d) ∪ [])], ?_⟩
    simp only [constants, List.mapM_cons, List.mapM_nil, liveWithinBlock] at hd ⊢
    simp only [hd, ok_bind, pure_eq_ok]
  obtain ⟨live, hlive⟩ := hlive
  obtain ⟨hregs, hlen⟩ := spillAll base (interferes (constants n) (withinOf live))
    (others (constants n)) ⟨paramRegisters (constants n), []⟩
  refine ⟨(others (constants n)).foldl (allocateValue NUM_GP_REGS base
    (interferes (constants n) (withinOf live))) ⟨paramRegisters (constants n), []⟩, ?_,
    fun v => ?_, ?_⟩
  · unfold allocate withInterference
    rw [if_neg (by simp [constants]), analyze_constants]
    simp only [ok_bind, hlive]
    rfl
  · rw [hregs]
    rfl
  · rw [hlen, (others_constants n).length_eq]
    simp

/-- A spilled constant is lowered to a load and a store. -/
theorem lowerConstant {f : Function} {alloc : Allocation} {liveness : Liveness} {regionEnd : ℕ}
    {block : BlockId} {st : LowerState} {v a : ℕ} (hr : alloc.registers v = none)
    (hs : alloc.spillOf v = some a) (ha : a < 2 ^ 31) :
    lowerStep f alloc liveness regionEnd block st ⟨v, .i64, .constI64 1⟩ =
      .ok { st with cur := st.cur ++ instCode alloc.loc ⟨v, .i64, .constI64 1⟩ } := by
  have hl : locOf alloc v = .ok (.spill a) := by simp [locOf, hr, hs]
  have hloc : alloc.loc v = .spill a := by simp [Allocation.loc, hr, hs]
  have hone : ¬ ((1 : I64).toInt < -2 ^ 31 ∨ 2 ^ 31 ≤ (1 : I64).toInt) := by decide
  simp only [lowerStep, lowerInst, if_neg hone, writeTarget, finishWrite, hl, ok_bind, pure_eq_ok,
    addrI32, if_pos ha, instCode, hloc, Loc.regOr, Loc.storeCode]

/-- Instructions that only add code to the open block. -/
theorem lowerSteps_code {f : Function} {alloc : Allocation} {liveness : Liveness} {regionEnd : ℕ}
    {block : BlockId} {is : List Instruction} (h : ∀ i ∈ is, ∀ st : LowerState,
      lowerStep f alloc liveness regionEnd block st i =
        .ok { st with cur := st.cur ++ instCode alloc.loc i }) (st : LowerState) :
    is.foldlM (lowerStep f alloc liveness regionEnd block) st =
      .ok { st with cur := st.cur ++ is.flatMap (instCode alloc.loc) } := by
  induction is generalizing st with
  | nil => simp
  | cons i is ih =>
    obtain ⟨hi, his⟩ := List.forall_mem_cons.mp h
    rw [List.foldlM_cons, hi st, ok_bind, ih his]
    simp

/-- A constant of the function is lowered so, for it has a spill slot. -/
theorem lowerStep_constants {n base : ℕ} {alloc : Allocation} {liveness : Liveness} {regionEnd : ℕ}
    (halloc : allocate (constants n) base NUM_GP_REGS = .ok alloc) (hregs : ∀ v, alloc.registers v = none)
    (hlen : alloc.spills.length = n) (hn : base + 8 * n < 2 ^ 31) {v : ValueId} (hv : v ∈ List.range n)
    (st : LowerState) :
    lowerStep (constants n) alloc liveness regionEnd 0 st ⟨v, .i64, .constI64 1⟩ =
      .ok { st with cur := st.cur ++ instCode alloc.loc ⟨v, .i64, .constI64 1⟩ } := by
  obtain ⟨-, _, _, -, -, hcol⟩ := allocate_ok halloc
  have hmem : v ∈ (others (constants n)).reverse := by
    rw [List.mem_reverse, (others_constants n).mem_iff]
    exact hv
  have hsp : v ∈ alloc.spills.map Prod.fst := by
    rcases hcol.located v hmem with h | h
    · simp [hregs v] at h
    · exact h
  obtain ⟨p, hp⟩ : ∃ p, alloc.spills.find? (fun p => p.1 == v) = some p := by
    obtain ⟨q, hq, rfl⟩ := List.mem_map.mp hsp
    exact Option.isSome_iff_exists.mp (by simpa using ⟨q.2, hq⟩)
  obtain ⟨k, hk, ha⟩ := hcol.spill_addr (List.mem_map.mpr ⟨p, List.mem_of_find?_eq_some hp, rfl⟩)
  refine lowerConstant (hregs v) (by rw [Allocation.spillOf, hp]; rfl) ?_
  omega

theorem compile_constants (n i : ℕ) (hn : (i * FUNCTION_REGION_BYTES) + 8 * n < 2 ^ 31) :
    ∃ l p, compileFunction NUM_GP_REGS i (constants n) = .ok l ∧ l.pending = [p] ∧ p.term = .ret ∧
      l.alloc.spills.length = n := by
  obtain ⟨alloc, halloc, hregs, hlen⟩ := allocate_constants n (i * FUNCTION_REGION_BYTES)
  let insts : List Instruction := (List.range n).map fun v => ⟨v, .i64, .constI64 1⟩
  have hstep : ∀ j ∈ insts, ∀ st : LowerState, lowerStep (constants n) alloc ⟨fun _ => [], fun _ => []⟩
      (i * FUNCTION_REGION_BYTES + FUNCTION_REGION_BYTES) 0 st j =
        .ok { st with cur := st.cur ++ instCode alloc.loc j } := by
    intro j hj
    obtain ⟨v, hv, rfl⟩ := List.mem_map.mp hj
    exact lowerStep_constants halloc hregs hlen hn hv
  have hcode := lowerSteps_code hstep
  refine ⟨⟨[(0, [⟨insts.flatMap (instCode alloc.loc), .ret⟩])], alloc,
    ⟨i * FUNCTION_REGION_BYTES + alloc.spills.length * 8, []⟩⟩, _, ?_, rfl, rfl, hlen⟩
  simp only [compileFunction, halloc, ok_bind, lowerFunction, analyze_constants]
  simp only [insts, constants, lowerBlocks, lowerBlock] at hcode ⊢
  simp only [hcode, ok_bind, Comp.expect_some, lowerTerm, pure_eq_ok, List.nil_append]

/-- 513 constants beside a function that takes all registers: every constant is spilled, no move is
made, and the last spill slot is the first slot of the other function's region. -/
def manySpills : Module := ⟨[constants 513, wide]⟩

theorem manySpills_overrun :
    ∃ c, compileModule manySpills = .ok c ∧ ¬ RegionsKept manySpills := by
  obtain ⟨l, p, hl, hp, hterm, hlen⟩ := compile_constants 513 0 (by decide)
  obtain ⟨l', hl', hp'⟩ : ∃ l', compileFunction NUM_GP_REGS (0 + 1) wide = .ok l' ∧
      l'.pending = [⟨[], .ret⟩] := ⟨_, rfl, rfl⟩
  have hlow : lowerAll (reservedArgRegisters manySpills) 0 manySpills.functions =
      .ok [("f", l), ("g", l')] := by
    have hr : reservedArgRegisters manySpills = NUM_GP_REGS := rfl
    rw [hr]
    simp only [manySpills, lowerAll, hl, hl', ok_bind, pure_eq_ok]
    rfl
  obtain ⟨c, hc⟩ : ∃ c, compileModule manySpills = .ok c := by
    unfold compileModule
    rw [if_neg (by decide), hlow]
    simp only [ok_bind, List.flatMap_cons, hp, hp']
    exact ⟨_, by simp [resolveAll, resolveBlock, hterm, resolveTerm]; rfl⟩
  refine ⟨c, hc, fun hkept => ?_⟩
  obtain ⟨lowered, hlow', -, hstatic⟩ := hkept.laid c hc
  obtain rfl : [("f", l), ("g", l')] = lowered := by simpa [hlow] using hlow'
  have hslots := compileFunction_slots hl
  have := (hstatic.slots 0 "f" l rfl _ (hslots.spill 512 (by omega))).2
  simp [FUNCTION_REGION_BYTES] at this

end Codegen
end Chakobsa
