import Chakobsa.Codegen.LowerTotal

/-!
# The instructions that are emitted

The code generator emits a handful of instruction forms: loads and stores with an absolute address
(base `ZERO_REG`) or in the frame being saved (base `STACK_PTR`), constants, moves and arithmetic
into a register of a value or a scratch register, and the bump of the stack pointer. `Emitted` lists
them, and the theorems below go through the pieces of the lowering once and for all.
-/

namespace Chakobsa
namespace Codegen

open Ir ExceptLemmas

/-- The registers that emitted code computes into: those of values, the scratch registers and the
result register. `STACK_PTR` and `ZERO_REG` are not among them. -/
def Writable (r : ℕ) : Prop := r < NUM_GP_REGS ∨ r = SCRATCH_2 ∨ r = SCRATCH_1 ∨ r = RET_REG

/-- The forms of the instructions that do not touch the software stack, other than to read a saved
register. -/
inductive Plain : Instr → Prop where
  | load {r : ℕ} (hr : Writable r) (addr : ℤ) : Plain ⟨.load, r, ZERO_REG, 0, addr⟩
  | store {r : ℕ} (hr : Writable r) (addr : ℤ) : Plain ⟨.store, ZERO_REG, r, 0, addr⟩
  | restore {r : ℕ} (hr : Writable r) (off : ℤ) : Plain ⟨.load, r, STACK_PTR, 0, off⟩
  | const {r : ℕ} (hr : Writable r) (n : ℤ) : Plain ⟨.loadI, r, 0, 0, n⟩
  | mov {r s : ℕ} (hr : Writable r) (hs : Writable s) : Plain ⟨.mov, r, s, 0, 0⟩
  | bin {r a b : ℕ} (op : BinOp) (hr : Writable r) (ha : Writable a) (hb : Writable b) :
      Plain ⟨binopOpcode op, r, a, b, 0⟩
  | neg {r a : ℕ} (hr : Writable r) (ha : Writable a) : Plain ⟨.sub, r, ZERO_REG, a, 0⟩
  | not {r a : ℕ} (hr : Writable r) (ha : Writable a) : Plain ⟨.cmpEq, r, a, ZERO_REG, 0⟩

/-- The forms of the instructions in front of a block's terminator. -/
inductive Emitted : Instr → Prop where
  | load {r : ℕ} (hr : Writable r) (addr : ℤ) : Emitted ⟨.load, r, ZERO_REG, 0, addr⟩
  | store {r : ℕ} (hr : Writable r) (addr : ℤ) : Emitted ⟨.store, ZERO_REG, r, 0, addr⟩
  | restore {r : ℕ} (hr : Writable r) (off : ℤ) : Emitted ⟨.load, r, STACK_PTR, 0, off⟩
  | save {r : ℕ} (hr : Writable r) (off : ℤ) : Emitted ⟨.store, STACK_PTR, r, 0, off⟩
  | const {r : ℕ} (hr : Writable r) (n : ℤ) : Emitted ⟨.loadI, r, 0, 0, n⟩
  | mov {r s : ℕ} (hr : Writable r) (hs : Writable s) : Emitted ⟨.mov, r, s, 0, 0⟩
  | bin {r a b : ℕ} (op : BinOp) (hr : Writable r) (ha : Writable a) (hb : Writable b) :
      Emitted ⟨binopOpcode op, r, a, b, 0⟩
  | neg {r a : ℕ} (hr : Writable r) (ha : Writable a) : Emitted ⟨.sub, r, ZERO_REG, a, 0⟩
  | not {r a : ℕ} (hr : Writable r) (ha : Writable a) : Emitted ⟨.cmpEq, r, a, ZERO_REG, 0⟩
  | push : Emitted ⟨.add, STACK_PTR, STACK_PTR, SCRATCH_1, 0⟩
  | pop : Emitted ⟨.sub, STACK_PTR, STACK_PTR, SCRATCH_1, 0⟩

theorem Plain.emitted {i : Instr} (h : Plain i) : Emitted i := by
  cases h with
  | load hr addr => exact .load hr addr
  | store hr addr => exact .store hr addr
  | restore hr off => exact .restore hr off
  | const hr n => exact .const hr n
  | mov hr hs => exact .mov hr hs
  | bin op hr ha hb => exact .bin op hr ha hb
  | neg hr ha => exact .neg hr ha
  | not hr ha => exact .not hr ha

theorem writable_scratch1 : Writable SCRATCH_1 := .inr (.inr (.inl rfl))

theorem writable_scratch2 : Writable SCRATCH_2 := .inr (.inl rfl)

theorem writable_ret : Writable RET_REG := .inr (.inr (.inr rfl))

theorem Writable.lt {r : ℕ} (h : Writable r) : r < 32 := by
  rcases h with h | rfl | rfl | rfl
  · exact Nat.lt_trans h (by decide)
  all_goals decide

/-- The registers of an allocation are allocatable ones. -/
def Allocation.Below (alloc : Allocation) : Prop := ∀ v r, alloc.registers v = some r → r < NUM_GP_REGS

/-- The register of a location, if it has one, is an allocatable one. -/
def Loc.Below : Loc → Prop
  | .reg r => r < NUM_GP_REGS
  | .spill _ => True

theorem Allocation.Below.loc {alloc : Allocation} (h : alloc.Below) (v : ValueId) :
    (alloc.loc v).Below := by
  unfold Allocation.loc
  cases hr : alloc.registers v with
  | none => trivial
  | some r => exact h v r hr

theorem allocate_below {f : Function} {base reserved : ℕ} {alloc : Allocation}
    (h : allocate f base reserved = .ok alloc) : alloc.Below := by
  obtain ⟨hp, l, live, -, -, hcol⟩ := allocate_ok h
  intro v r hr
  by_cases hv : v < f.params.length
  · rw [hcol.param v hv] at hr
    exact Option.some.inj hr ▸ Nat.lt_of_lt_of_le hv hp
  · exact (hcol.register v r (Nat.not_lt.mp hv) hr).2.2

section Pieces

variable {l l' : Loc} {scratch : ℕ}

theorem Loc.Below.regOr (h : l.Below) (hs : Writable scratch) : Writable (l.regOr scratch) := by
  cases l with
  | reg r => exact .inl h
  | spill a => exact hs

theorem plain_loadCode (l : Loc) (hs : Writable scratch) : ∀ i ∈ l.loadCode scratch, Plain i := by
  cases l with
  | reg r => simp [Loc.loadCode]
  | spill a => simpa [Loc.loadCode] using Plain.load hs a

theorem plain_storeCode (l : Loc) {r : ℕ} (hr : Writable r) : ∀ i ∈ l.storeCode r, Plain i := by
  cases l with
  | reg s => simp [Loc.storeCode]
  | spill a => simpa [Loc.storeCode] using Plain.store hr a

theorem plain_stageAll {base i : ℕ} {moves : List (Loc × Loc)} (h : ∀ p ∈ moves, p.1.Below) :
    ∀ x ∈ stageAll base i moves, Plain x := by
  induction moves generalizing i with
  | nil => simp [stageAll]
  | cons p moves ih =>
    obtain ⟨src, dst⟩ := p
    have hsrc : src.Below := h _ List.mem_cons_self
    intro x hx
    rcases List.mem_append.mp hx with hx | hx
    · rcases List.mem_append.mp hx with hx | hx
      · exact plain_loadCode src writable_scratch1 x hx
      · rw [List.mem_singleton.mp hx]
        exact .store (hsrc.regOr writable_scratch1) _
    · exact ih (fun q hq => h q (List.mem_cons_of_mem _ hq)) x hx

theorem plain_unstageAll {base i : ℕ} {moves : List (Loc × Loc)} (h : ∀ p ∈ moves, p.2.Below) :
    ∀ x ∈ unstageAll base i moves, Plain x := by
  induction moves generalizing i with
  | nil => simp [unstageAll]
  | cons p moves ih =>
    obtain ⟨src, dst⟩ := p
    have hdst : dst.Below := h _ List.mem_cons_self
    intro x hx
    rcases List.mem_append.mp hx with hx | hx
    · cases dst with
      | reg r =>
        rw [List.mem_singleton.mp hx]
        exact .load (.inl hdst) _
      | spill a =>
        rcases List.mem_cons.mp hx with rfl | hx
        · exact .load writable_scratch1 _
        · rw [List.mem_singleton.mp hx]
          exact .store writable_scratch1 _
    · exact ih (fun q hq => h q (List.mem_cons_of_mem _ hq)) x hx

theorem plain_moveCode {base : ℕ} {moves : List (Loc × Loc)}
    (h : ∀ p ∈ moves, p.1.Below ∧ p.2.Below) : ∀ x ∈ moveCode base moves, Plain x := by
  intro x hx
  rcases List.mem_append.mp hx with hx | hx
  · exact plain_stageAll (fun p hp => (h p hp).1) x hx
  · exact plain_unstageAll (fun p hp => (h p hp).2) x hx

theorem emitted_saveAll {i : ℕ} {saved : List (ValueId × ℕ)} (h : ∀ p ∈ saved, p.2 < NUM_GP_REGS) :
    ∀ x ∈ saveAll i saved, Emitted x := by
  induction saved generalizing i with
  | nil => simp [saveAll]
  | cons p saved ih =>
    intro x hx
    rcases List.mem_cons.mp hx with rfl | hx
    · exact .save (.inl (h p List.mem_cons_self)) _
    · exact ih (fun q hq => h q (List.mem_cons_of_mem _ hq)) x hx

theorem plain_restoreAll {i : ℕ} {saved : List (ValueId × ℕ)} (h : ∀ p ∈ saved, p.2 < NUM_GP_REGS) :
    ∀ x ∈ restoreAll i saved, Plain x := by
  induction saved generalizing i with
  | nil => simp [restoreAll]
  | cons p saved ih =>
    intro x hx
    rcases List.mem_cons.mp hx with rfl | hx
    · exact .restore (.inl (h p List.mem_cons_self)) _
    · exact ih (fun q hq => h q (List.mem_cons_of_mem _ hq)) x hx

theorem emitted_bumpCode {op : Opcode} (hop : op = .add ∨ op = .sub) (bytes : ℕ) :
    ∀ x ∈ bumpCode op bytes, Emitted x := by
  intro x hx
  unfold bumpCode at hx
  split at hx
  · rcases List.mem_cons.mp hx with rfl | hx
    · exact .const writable_scratch1 _
    · rw [List.mem_singleton.mp hx]
      rcases hop with rfl | rfl
      · exact .push
      · exact .pop
  · cases hx

theorem plain_resultCode (h : l.Below) : ∀ x ∈ resultCode l, Plain x := by
  have hw := h.regOr writable_scratch1
  intro x hx
  rcases List.mem_append.mp hx with hx | hx
  · split at hx
    · rw [List.mem_singleton.mp hx]
      exact .mov hw writable_ret
    · cases hx
  · exact plain_storeCode l hw x hx

theorem plain_retCode (h : l.Below) : ∀ x ∈ retCode l, Plain x := by
  intro x hx
  rcases List.mem_append.mp hx with hx | hx
  · exact plain_loadCode l writable_scratch1 x hx
  · split at hx
    · rw [List.mem_singleton.mp hx]
      exact .mov writable_ret (h.regOr writable_scratch1)
    · cases hx

theorem plain_instCode {loc : ValueId → Loc} (h : ∀ v, (loc v).Below) (inst : Instruction) :
    ∀ x ∈ instCode loc inst, Plain x := by
  have hd := (h inst.id).regOr writable_scratch1
  have hstore := plain_storeCode (loc inst.id) hd
  have hload : ∀ v s, Writable s → ∀ x ∈ (loc v).loadCode s, Plain x :=
    fun v s hs => plain_loadCode (loc v) hs
  have hreg : ∀ v s, Writable s → Writable ((loc v).regOr s) := fun v s hs => (h v).regOr hs
  intro x hx
  unfold instCode at hx
  cases hk : inst.kind with
  | phi incoming => simp [hk] at hx
  | call callee args => simp [hk] at hx
  | constI64 n =>
    rw [hk] at hx
    rcases List.mem_cons.mp hx with rfl | hx
    · exact .const hd _
    · exact hstore x hx
  | constBool b =>
    rw [hk] at hx
    rcases List.mem_cons.mp hx with rfl | hx
    · exact .const hd _
    · exact hstore x hx
  | bin op lhs rhs =>
    rw [hk] at hx
    rcases List.mem_append.mp hx with hx | hx
    · exact hload _ _ writable_scratch1 x hx
    rcases List.mem_append.mp hx with hx | hx
    · exact hload _ _ writable_scratch2 x hx
    rcases List.mem_cons.mp hx with rfl | hx
    · exact .bin op hd (hreg _ _ writable_scratch1) (hreg _ _ writable_scratch2)
    · exact hstore x hx
  | un op a =>
    rw [hk] at hx
    cases op with
    | neg =>
      rcases List.mem_append.mp hx with hx | hx
      · exact hload _ _ writable_scratch1 x hx
      rcases List.mem_cons.mp hx with rfl | hx
      · exact .neg hd (hreg _ _ writable_scratch1)
      · exact hstore x hx
    | not =>
      rcases List.mem_append.mp hx with hx | hx
      · exact hload _ _ writable_scratch1 x hx
      rcases List.mem_cons.mp hx with rfl | hx
      · exact .not hd (hreg _ _ writable_scratch1)
      · exact hstore x hx

theorem below_argMoveList {loc : ValueId → Loc} (h : ∀ v, (loc v).Below) {i : ℕ} {args : List ValueId}
    (hlen : i + args.length ≤ NUM_GP_REGS) :
    ∀ p ∈ argMoveList loc i args, p.1.Below ∧ p.2.Below := by
  induction args generalizing i with
  | nil => simp [argMoveList]
  | cons a args ih =>
    intro p hp
    rw [List.length_cons] at hlen
    rcases List.mem_cons.mp hp with rfl | hp
    · exact ⟨h a, show i < NUM_GP_REGS by omega⟩
    · exact ih (by omega) p hp

theorem below_phiMoveList {loc : ValueId → Loc} (h : ∀ v, (loc v).Below) (from' : BlockId)
    (insts : List Instruction) : ∀ p ∈ phiMoveList loc from' insts, p.1.Below ∧ p.2.Below := by
  intro p hp
  obtain ⟨i, -, hi⟩ := List.mem_filterMap.mp hp
  split at hi
  · obtain ⟨e, -, rfl⟩ := Option.map_eq_some_iff.mp hi
    exact ⟨h _, h _⟩
  · cases hi

end Pieces

section Lowering

variable {f : Function} {alloc : Allocation} {liveness : Liveness} {regionEnd : ℕ}

/-- Every value paired with its location. -/
theorem pairs_eq {vs : List ValueId} {ls : List (ValueId × Loc)}
    (h : List.Forall₂ (fun v l => ∃ a, locOf alloc v = .ok a ∧ (.ok (v, a) : CodegenM _) = .ok l) vs ls) :
    ls = vs.map fun v => (v, alloc.loc v) := by
  induction h with
  | nil => rfl
  | cons hv _ ih =>
    obtain ⟨l, hl, heq⟩ := hv
    rw [List.map_cons, ← ih, ← (locOf_ok hl).1, Except.ok.inj heq]

/-- Where entries with one key are one entry, dropping repeated keys loses none. -/
theorem mem_destutter_key {l : List (ValueId × ℕ)}
    (hkey : ∀ p ∈ l, ∀ q ∈ l, p.1 = q.1 → p = q) {x : ValueId × ℕ} :
    x ∈ l.destutter (fun p q => p.1 ≠ q.1) ↔ x ∈ l := by
  refine ⟨fun h => (List.destutter_sublist _ l).mem h, fun h => ?_⟩
  cases l with
  | nil => exact h
  | cons a l =>
    rw [List.destutter_cons']
    induction l generalizing a with
    | nil => exact h
    | cons b l ih =>
      by_cases hab : a.1 = b.1
      · -- the second entry is the first one again
        obtain rfl := hkey a List.mem_cons_self b (List.mem_cons_of_mem _ List.mem_cons_self) hab
        rw [List.destutter'_cons_neg l (by simp)]
        refine ih a (fun p hp q hq => hkey p (List.mem_cons_of_mem _ hp) q
          (List.mem_cons_of_mem _ hq)) ?_
        exact (List.mem_cons.mp h).elim (fun hx => hx ▸ List.mem_cons_self) id
      · rw [List.destutter'_cons_pos l hab, List.mem_cons]
        refine (List.mem_cons.mp h).imp_right fun hx => ?_
        exact ih b (fun p hp q hq => hkey p (List.mem_cons_of_mem _ hp) q
          (List.mem_cons_of_mem _ hq)) hx

/-- Ascending keys of which no two neighbours are equal are strictly ascending. -/
theorem pairwise_lt_of {l : List (ValueId × ℕ)} (hle : l.Pairwise fun p q => p.1 ≤ q.1)
    (hne : l.IsChain fun p q => p.1 ≠ q.1) : l.Pairwise fun p q => p.1 < q.1 := by
  induction l with
  | nil => exact .nil
  | cons p l ih =>
    rw [List.pairwise_cons] at hle ⊢
    refine ⟨fun r hr => ?_, ih hle.2 hne.tail⟩
    cases l with
    | nil => cases hr
    | cons q l =>
      have hpq : p.1 < q.1 :=
        Nat.lt_of_le_of_ne (hle.1 q List.mem_cons_self) (List.isChain_cons_cons.mp hne).1
      rcases List.mem_cons.mp hr with rfl | hr
      · exact hpq
      · exact Nat.lt_of_lt_of_le hpq ((List.pairwise_cons.mp hle.2).1 r hr)

/-- The registers saved around a call are those of the other values live in the block. -/
theorem saveRegs_ok {block : BlockId} {self : ValueId} {saved : List (ValueId × ℕ)}
    (h : saveRegs f alloc liveness block self = .ok saved) :
    ∃ live, liveWithinBlock f block liveness = .ok live ∧
      ∀ v r, (v, r) ∈ saved ↔ v ∈ live ∧ v ≠ self ∧ alloc.loc v = .reg r := by
  simp only [saveRegs, bind_eq_ok, mapM_eq_ok] at h
  obtain ⟨live, hlive, locs, hlocs, h⟩ := h
  obtain rfl := Except.ok.inj h
  refine ⟨live, hlive, ?_⟩
  generalize hregs : List.filterMap _ locs = regs
  have hmem : ∀ v r, (v, r) ∈ regs ↔ v ∈ live ∧ v ≠ self ∧ alloc.loc v = .reg r := by
    intro v r
    rw [← hregs, List.mem_filterMap, pairs_eq hlocs]
    simp only [List.mem_map, List.mem_filter, decide_eq_true_eq]
    constructor
    · rintro ⟨p, ⟨w, ⟨hw, hne⟩, rfl⟩, hp⟩
      dsimp only at hp
      cases hl : alloc.loc w with
      | reg s =>
        rw [hl] at hp
        obtain ⟨rfl, rfl⟩ : w = v ∧ s = r := by simpa using hp
        exact ⟨hw, hne, hl⟩
      | spill a => simp [hl] at hp
    · rintro ⟨hv, hne, hl⟩
      exact ⟨(v, alloc.loc v), ⟨v, ⟨hv, hne⟩, rfl⟩, by simp [hl]⟩
  intro v r
  rw [mem_destutter_key, List.mem_insertionSort, hmem]
  -- a value has one register
  rintro ⟨w, s⟩ hp ⟨w', s'⟩ hq heq
  rw [List.mem_insertionSort, hmem] at hp hq
  obtain rfl : w = w' := heq
  have := hp.2.2.symm.trans hq.2.2
  rw [Loc.reg.inj this]

/-- They are listed in ascending order of their values, each once. -/
theorem saveRegs_sorted {block : BlockId} {self : ValueId} {saved : List (ValueId × ℕ)}
    (h : saveRegs f alloc liveness block self = .ok saved) :
    saved.Pairwise fun p q => p.1 < q.1 := by
  simp only [saveRegs, bind_eq_ok] at h
  obtain ⟨live, -, locs, -, h⟩ := h
  rw [← Except.ok.inj h]
  generalize List.filterMap _ locs = regs
  have : Std.Total fun p q : ValueId × ℕ => p.1 ≤ q.1 := ⟨fun p q => Nat.le_total p.1 q.1⟩
  have : IsTrans (ValueId × ℕ) fun p q => p.1 ≤ q.1 := ⟨fun _ _ _ => Nat.le_trans⟩
  refine pairwise_lt_of ?_ (List.isChain_destutter _ _)
  exact (List.pairwise_insertionSort _ regs).sublist (List.destutter_sublist _ _)

theorem saveRegs_below (hb : alloc.Below) {block : BlockId} {self : ValueId}
    {saved : List (ValueId × ℕ)} (h : saveRegs f alloc liveness block self = .ok saved) :
    ∀ p ∈ saved, p.2 < NUM_GP_REGS := by
  obtain ⟨live, -, hmem⟩ := saveRegs_ok h
  rintro ⟨v, r⟩ hp
  have := hb.loc v
  rw [((hmem v r).mp hp).2.2] at this
  exact this

/-- Every call of the block has at most as many arguments as there are registers. -/
def ArgsFit (b : BasicBlock) : Prop :=
  ∀ i ∈ b.instructions, ∀ callee args, i.kind = .call callee args → args.length ≤ NUM_GP_REGS

/-- All code of the block under construction has the emitted forms. -/
structure LowerState.AllEmitted (st : LowerState) : Prop where
  pending : ∀ p ∈ st.pending, ∀ i ∈ p.instructions, Emitted i
  cur : ∀ i ∈ st.cur, Emitted i

theorem LowerState.AllEmitted.step {block : BlockId} {st st' : LowerState} {inst : Instruction}
    (hb : alloc.Below) (hst : st.AllEmitted)
    (hargs : ∀ callee args, inst.kind = .call callee args → args.length ≤ NUM_GP_REGS)
    (h : lowerStep f alloc liveness regionEnd block st inst = .ok st') : st'.AllEmitted := by
  rcases lowerStep_ok h with ⟨callee, args, saved, hk, hsaved, rfl, -⟩ | ⟨-, rfl, -⟩
  · have hregs := saveRegs_below hb hsaved
    refine ⟨fun p hp i hi => ?_, fun i hi => ?_⟩
    · rcases List.mem_append.mp hp with hp | hp
      · exact hst.pending p hp i hi
      · rw [List.mem_singleton.mp hp] at hi
        rcases List.mem_append.mp hi with hi | hi
        · exact hst.cur i hi
        rcases List.mem_append.mp hi with hi | hi
        · rcases List.mem_append.mp hi with hi | hi
          · exact emitted_saveAll hregs i hi
          · exact emitted_bumpCode (.inl rfl) _ i hi
        · exact (plain_moveCode (below_argMoveList hb.loc (by simpa using hargs callee args hk)) i hi).emitted
    · rcases List.mem_append.mp hi with hi | hi
      · rcases List.mem_append.mp hi with hi | hi
        · exact emitted_bumpCode (.inr rfl) _ i hi
        · exact (plain_restoreAll hregs i hi).emitted
      · exact (plain_resultCode (hb.loc _) i hi).emitted
  · refine ⟨hst.pending, fun i hi => ?_⟩
    rcases List.mem_append.mp hi with hi | hi
    · exact hst.cur i hi
    · exact (plain_instCode hb.loc inst i hi).emitted

theorem plain_edge {temp temp' : Temps} {from' target : BlockId} {copies : List Instr}
    (hb : alloc.Below) (h : EdgeCode f alloc regionEnd temp from' target copies temp') :
    ∀ i ∈ copies, Plain i := by
  obtain ⟨b, -, rfl, -⟩ := h
  exact plain_moveCode (below_phiMoveList hb.loc _ _)

/-- All code of a lowered block has the emitted forms. -/
theorem emitted_lowerBlock {temp : Temps} {b : BasicBlock} {r : List PendingBlock × Temps}
    (hb : alloc.Below) (hargs : ArgsFit b)
    (h : lowerBlock f alloc liveness regionEnd temp b = .ok r) :
    ∀ p ∈ r.1, ∀ i ∈ p.instructions, Emitted i := by
  obtain ⟨st, term, hst, -, hcode⟩ := lowerBlock_ok h
  have hall : st.AllEmitted :=
    foldlM_invariant LowerState.AllEmitted (fun st i st' hi hinv hstep => hinv.step hb (hargs i hi) hstep)
      ⟨by simp, by simp⟩ hst
  -- the last blocks hold the open block's code, and the code of the terminator behind it
  have hlast : ∀ (ps : List PendingBlock), (∀ p ∈ ps, ∀ i ∈ p.instructions, Emitted i) →
      ∀ p ∈ st.pending ++ ps, ∀ i ∈ p.instructions, Emitted i := by
    intro ps hps p hp
    exact (List.mem_append.mp hp).elim (hall.pending p) (hps p)
  have hcur : ∀ {code : List Instr}, (∀ i ∈ code, Emitted i) → ∀ i ∈ st.cur ++ code, Emitted i :=
    fun hc i hi => (List.mem_append.mp hi).elim (hall.cur i) (hc i)
  generalize r.1 = pending at hcode ⊢
  generalize r.2 = temp' at hcode
  cases hcode with
  | jump edge =>
    refine hlast _ (List.forall_mem_singleton.mpr ?_)
    exact hcur fun i hi => (plain_edge hb edge i hi).emitted
  | @branch cond tb eb tc ec t₁ _ hloc else' then' =>
    refine hlast _ (List.forall_mem_cons.mpr ⟨?_, List.forall_mem_singleton.mpr fun i hi =>
      (plain_edge hb then' i hi).emitted⟩)
    dsimp only
    rw [List.append_assoc]
    refine hcur fun i hi => (List.mem_append.mp hi).elim (fun hi => ?_) fun hi =>
      (plain_edge hb else' i hi).emitted
    exact (plain_loadCode _ writable_scratch1 i hi).emitted
  | retNone => exact hlast _ (List.forall_mem_singleton.mpr hall.cur)
  | ret hloc =>
    refine hlast _ (List.forall_mem_singleton.mpr ?_)
    exact hcur fun i hi => (plain_retCode (hb.loc _) i hi).emitted

/-- The condition register of a lowered branch. -/
theorem writable_jz {temp : Temps} {b : BasicBlock} {r : List PendingBlock × Temps}
    (hb : alloc.Below) (h : lowerBlock f alloc liveness regionEnd temp b = .ok r) {p : PendingBlock}
    (hp : p ∈ r.1) {reg : ℕ} {target : BlockId} (hterm : p.term = .jz reg target) : Writable reg := by
  obtain ⟨st, term, hst, -, hcode⟩ := lowerBlock_ok h
  -- the blocks in front of the last ones end in calls
  have hcalls : ∀ p ∈ st.pending, ∃ callee, p.term = .call callee := by
    refine foldlM_invariant (fun st => ∀ p ∈ st.pending, ∃ callee, p.term = .call callee)
      (fun st₁ i st₂ _ hinv hstep => ?_) (by simp) hst
    rcases lowerStep_ok hstep with ⟨callee, args, saved, -, -, rfl, -⟩ | ⟨-, rfl, -⟩
    · intro p hp
      rcases List.mem_append.mp hp with hp | hp
      · exact hinv p hp
      · exact ⟨callee, by rw [List.mem_singleton.mp hp]⟩
    · exact hinv
  have hlast : ∀ {ps : List PendingBlock}, p ∈ st.pending ++ ps → p ∈ ps := by
    intro ps hp
    refine (List.mem_append.mp hp).resolve_left fun hp => ?_
    obtain ⟨callee, hcallee⟩ := hcalls p hp
    rw [hterm] at hcallee
    cases hcallee
  generalize r.1 = pending at hcode hp
  generalize r.2 = temp' at hcode
  cases hcode with
  | jump edge =>
    rw [List.mem_singleton.mp (hlast hp)] at hterm
    cases hterm
  | @branch cond tb eb tc ec t₁ _ hloc else' then' =>
    rcases List.mem_cons.mp (hlast hp) with rfl | hp
    · obtain ⟨rfl, -⟩ : _ = reg ∧ eb = target := by simpa using hterm
      exact (hb.loc cond).regOr writable_scratch1
    · rw [List.mem_singleton.mp hp] at hterm
      cases hterm
  | retNone =>
    rw [List.mem_singleton.mp (hlast hp)] at hterm
    cases hterm
  | ret hloc =>
    rw [List.mem_singleton.mp (hlast hp)] at hterm
    cases hterm

end Lowering

end Codegen
end Chakobsa
