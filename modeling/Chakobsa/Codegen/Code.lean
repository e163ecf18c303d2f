import Chakobsa.Codegen.Compile

/-!
# The code each piece of the lowering emits

The functions of `Codegen.Lower` can fail, so what they emit is only known through the fact that
they succeeded. This module says once, for each of them, what the emitted code is: a plain
function of the locations of the values (`Allocation.loc`), of the saved registers and of the base
of the staging slots. Everything proved about emitted code starts from the `_ok` lemmas here.
-/

namespace Chakobsa
namespace Codegen

open Ir ExceptLemmas

/-- The location of a value; a value without one counts as spilled to address `0`. -/
def Allocation.loc (alloc : Allocation) (v : ValueId) : Loc :=
  match alloc.registers v with
  | some r => .reg r
  | none => .spill ((alloc.spillOf v).getD 0)

/-- The value has a location. -/
def Allocation.Located (alloc : Allocation) (v : ValueId) : Prop :=
  (alloc.registers v).isSome ∨ (alloc.spillOf v).isSome

/-! ### The code as a function of the locations -/

/-- The reload of a spilled value. -/
def Loc.loadCode (l : Loc) (scratch : ℕ) : List Instr :=
  match l with
  | .reg _ => []
  | .spill addr => [⟨.load, scratch, ZERO_REG, 0, addr⟩]

/-- The register that holds the value after `loadCode`, and the one a definition writes. -/
def Loc.regOr (l : Loc) (scratch : ℕ) : ℕ :=
  match l with
  | .reg r => r
  | .spill _ => scratch

/-- The store that completes a definition. -/
def Loc.storeCode (l : Loc) (r : ℕ) : List Instr :=
  match l with
  | .reg _ => []
  | .spill addr => [⟨.store, ZERO_REG, r, 0, addr⟩]

/-- One source into its staging slot. -/
def stageCode (slot : ℕ) (src : Loc) : List Instr :=
  src.loadCode SCRATCH_1 ++ [⟨.store, ZERO_REG, src.regOr SCRATCH_1, 0, slot⟩]

/-- One destination from its staging slot. -/
def unstageCode (slot : ℕ) (dst : Loc) : List Instr :=
  match dst with
  | .reg r => [⟨.load, r, ZERO_REG, 0, slot⟩]
  | .spill addr => [⟨.load, SCRATCH_1, ZERO_REG, 0, slot⟩, ⟨.store, ZERO_REG, SCRATCH_1, 0, addr⟩]

/-- All sources into their staging slots, slot `i` on. -/
def stageAll (base : ℕ) : ℕ → List (Loc × Loc) → List Instr
  | _, [] => []
  | i, (src, _) :: rest => stageCode (base + i * 8) src ++ stageAll base (i + 1) rest

/-- All destinations from their staging slots, slot `i` on. -/
def unstageAll (base : ℕ) : ℕ → List (Loc × Loc) → List Instr
  | _, [] => []
  | i, (_, dst) :: rest => unstageCode (base + i * 8) dst ++ unstageAll base (i + 1) rest

/-- The code of a parallel move with the given staging base. -/
def moveCode (base : ℕ) (moves : List (Loc × Loc)) : List Instr :=
  stageAll base 0 moves ++ unstageAll base 0 moves

/-- The stores of saved registers. -/
def saveAll : ℕ → List (ValueId × ℕ) → List Instr
  | _, [] => []
  | i, (_, reg) :: rest => ⟨.store, STACK_PTR, reg, 0, ((i * 8 : ℕ) : ℤ)⟩ :: saveAll (i + 1) rest

/-- The loads of saved registers. -/
def restoreAll : ℕ → List (ValueId × ℕ) → List Instr
  | _, [] => []
  | i, (_, reg) :: rest => ⟨.load, reg, STACK_PTR, 0, ((i * 8 : ℕ) : ℤ)⟩ :: restoreAll (i + 1) rest

/-- The change of the stack pointer by `bytes`. -/
def bumpCode (op : Opcode) (bytes : ℕ) : List Instr :=
  if bytes > 0 then [⟨.loadI, SCRATCH_1, 0, 0, bytes⟩, ⟨op, STACK_PTR, STACK_PTR, SCRATCH_1, 0⟩]
  else []

/-- The moves of arguments into the registers from `i` on. -/
def argMoveList (loc : ValueId → Loc) : ℕ → List ValueId → List (Loc × Loc)
  | _, [] => []
  | i, a :: rest => (loc a, .reg i) :: argMoveList loc (i + 1) rest

/-- The code of a `Call` up to the control transfer. -/
def prologueCode (loc : ValueId → Loc) (base : ℕ) (saved : List (ValueId × ℕ))
    (args : List ValueId) : List Instr :=
  saveAll 0 saved ++ bumpCode .add (saved.length * 8) ++ moveCode base (argMoveList loc 0 args)

/-- The move of a call's result out of `RET_REG`. -/
def resultCode (dst : Loc) : List Instr :=
  (if dst.regOr SCRATCH_1 ≠ RET_REG then [⟨.mov, dst.regOr SCRATCH_1, RET_REG, 0, 0⟩] else []) ++
    dst.storeCode (dst.regOr SCRATCH_1)

/-- The code of a `Call` after control is back. -/
def epilogueCode (dst : Loc) (saved : List (ValueId × ℕ)) : List Instr :=
  bumpCode .sub (saved.length * 8) ++ restoreAll 0 saved ++ resultCode dst

/-- The code of an instruction other than `Call`. -/
def instCode (loc : ValueId → Loc) (inst : Instruction) : List Instr :=
  let dst := loc inst.id
  let d := dst.regOr SCRATCH_1
  match inst.kind with
  | .phi _ | .call _ _ => []
  | .constI64 n => ⟨.loadI, d, 0, 0, n.toInt⟩ :: dst.storeCode d
  | .constBool b => ⟨.loadI, d, 0, 0, if b then 1 else 0⟩ :: dst.storeCode d
  | .bin op lhs rhs =>
    (loc lhs).loadCode SCRATCH_1 ++ ((loc rhs).loadCode SCRATCH_2 ++
      ⟨binopOpcode op, d, (loc lhs).regOr SCRATCH_1, (loc rhs).regOr SCRATCH_2, 0⟩ ::
        dst.storeCode d)
  | .un .neg a =>
    (loc a).loadCode SCRATCH_1 ++
      ⟨.sub, d, ZERO_REG, (loc a).regOr SCRATCH_1, 0⟩ :: dst.storeCode d
  | .un .not a =>
    (loc a).loadCode SCRATCH_1 ++
      ⟨.cmpEq, d, (loc a).regOr SCRATCH_1, ZERO_REG, 0⟩ :: dst.storeCode d

/-- The code that leaves a function with the value `v`. -/
def retCode (l : Loc) : List Instr :=
  l.loadCode SCRATCH_1 ++
    if l.regOr SCRATCH_1 ≠ RET_REG then [⟨.mov, RET_REG, l.regOr SCRATCH_1, 0, 0⟩] else []

/-- The moves an edge makes for the phis of its target. -/
def phiMoveList (loc : ValueId → Loc) (from' : BlockId) (insts : List Instruction) :
    List (Loc × Loc) :=
  insts.filterMap fun inst => match inst.kind with
    | .phi incoming =>
      (incoming.find? fun p => p.1 == from').map fun e => (loc e.2, loc inst.id)
    | _ => none

/-! ### Inversion of the failing functions -/

section Inversion

variable {f : Function} {alloc : Allocation} {liveness : Liveness} {regionEnd : ℕ}

theorem locOf_ok {v : ValueId} {l : Loc} (h : locOf alloc v = .ok l) :
    l = alloc.loc v ∧ alloc.Located v := by
  unfold locOf at h
  unfold Allocation.loc Allocation.Located
  cases hr : alloc.registers v with
  | some r =>
    rw [hr] at h
    obtain rfl : Loc.reg r = l := by simpa using h
    simp
  | none =>
    simp only [hr, bind_eq_ok, Comp.expect_eq_ok] at h
    obtain ⟨a, ha, h⟩ := h
    obtain rfl : Loc.spill a = l := by simpa using h
    simp [ha]

theorem addrI32_ok {addr : ℕ} {i : ℤ} (h : addrI32 f addr = .ok i) :
    i = addr ∧ addr < 2 ^ 31 := by
  unfold addrI32 at h
  split at h
  · next hlt =>
    obtain rfl : (addr : ℤ) = i := by simpa using h
    exact ⟨rfl, hlt⟩
  · simp at h

theorem readInto_ok {v : ValueId} {scratch : ℕ} {r : List Instr × ℕ}
    (h : readInto f alloc v scratch = .ok r) :
    r = ((alloc.loc v).loadCode scratch, (alloc.loc v).regOr scratch) ∧ alloc.Located v := by
  simp only [readInto, bind_eq_ok] at h
  obtain ⟨l, hl, h⟩ := h
  obtain ⟨rfl, hloc⟩ := locOf_ok hl
  refine ⟨?_, hloc⟩
  cases hk : alloc.loc v with
  | reg x =>
    simp only [hk] at h
    simpa [Loc.loadCode, Loc.regOr] using h.symm
  | spill a =>
    simp only [hk, bind_eq_ok] at h
    obtain ⟨i, hi, h⟩ := h
    obtain ⟨rfl, -⟩ := addrI32_ok hi
    simpa [Loc.loadCode, Loc.regOr] using h.symm

theorem writeTarget_ok {v : ValueId} {scratch r : ℕ}
    (h : writeTarget alloc v scratch = .ok r) :
    r = (alloc.loc v).regOr scratch ∧ alloc.Located v := by
  simp only [writeTarget, bind_eq_ok] at h
  obtain ⟨l, hl, h⟩ := h
  obtain ⟨rfl, hloc⟩ := locOf_ok hl
  refine ⟨?_, hloc⟩
  cases hk : alloc.loc v <;> simp only [hk] at h <;> simpa [Loc.regOr] using h.symm

theorem finishWrite_ok {v : ValueId} {r : ℕ} {code : List Instr}
    (h : finishWrite f alloc v r = .ok code) : code = (alloc.loc v).storeCode r := by
  simp only [finishWrite, bind_eq_ok] at h
  obtain ⟨l, hl, h⟩ := h
  obtain ⟨rfl, -⟩ := locOf_ok hl
  cases hk : alloc.loc v with
  | reg x =>
    simp only [hk] at h
    simpa [Loc.storeCode] using h.symm
  | spill a =>
    simp only [hk, bind_eq_ok] at h
    obtain ⟨i, hi, h⟩ := h
    obtain ⟨rfl, -⟩ := addrI32_ok hi
    simpa [Loc.storeCode] using h.symm

theorem stageSources_ok {base i : ℕ} {moves : List (Loc × Loc)} {code : List Instr}
    (h : stageSources f base i moves = .ok code) : code = stageAll base i moves := by
  induction moves generalizing i code with
  | nil => simpa [stageSources, stageAll] using h.symm
  | cons m moves ih =>
    obtain ⟨src, dst⟩ := m
    cases src with
    | reg r =>
      simp only [stageSources, pure_eq_ok, ok_bind, bind_eq_ok] at h
      obtain ⟨s, hs, c, hc, h⟩ := h
      obtain ⟨rfl, -⟩ := addrI32_ok hs
      rw [← Except.ok.inj h, ih hc]
      rfl
    | spill a =>
      simp only [stageSources, pure_eq_ok, ok_bind, bind_eq_ok] at h
      obtain ⟨ai, ha, s, hs, c, hc, h⟩ := h
      obtain ⟨rfl, -⟩ := addrI32_ok ha
      obtain ⟨rfl, -⟩ := addrI32_ok hs
      rw [← Except.ok.inj h, ih hc]
      rfl

theorem unstageDests_ok {base i : ℕ} {moves : List (Loc × Loc)} {code : List Instr}
    (h : unstageDests f base i moves = .ok code) : code = unstageAll base i moves := by
  induction moves generalizing i code with
  | nil => simpa [unstageDests, unstageAll] using h.symm
  | cons m moves ih =>
    obtain ⟨src, dst⟩ := m
    cases dst with
    | reg r =>
      simp only [unstageDests, pure_eq_ok, ok_bind, bind_eq_ok] at h
      obtain ⟨s, hs, c, hc, h⟩ := h
      obtain ⟨rfl, -⟩ := addrI32_ok hs
      rw [← Except.ok.inj h, ih hc]
      rfl
    | spill a =>
      simp only [unstageDests, pure_eq_ok, ok_bind, bind_eq_ok] at h
      obtain ⟨s, hs, ai, ha, c, hc, h⟩ := h
      obtain ⟨rfl, -⟩ := addrI32_ok ha
      obtain ⟨rfl, -⟩ := addrI32_ok hs
      rw [← Except.ok.inj h, ih hc]
      rfl

/-- A parallel move takes its staging slots from the bump pointer, unless there is nothing to
move. -/
def Temps.take (temp : Temps) (count : ℕ) : Temps :=
  if count = 0 then temp else ⟨temp.next + count * 8, temp.taken ++ [(temp.next, count)]⟩

theorem parallelMove_ok {temp : Temps} {moves : List (Loc × Loc)} {r : List Instr × Temps}
    (h : parallelMove f regionEnd temp moves = .ok r) :
    r = (moveCode temp.next moves, temp.take moves.length) ∧
      (moves ≠ [] → temp.next + moves.length * 8 ≤ regionEnd) := by
  unfold parallelMove at h
  split at h
  · next hm =>
    subst hm
    exact ⟨by simpa [moveCode, stageAll, unstageAll, Temps.take] using h.symm, by simp⟩
  · next hm =>
    simp only [allocTempSlots, bind_eq_ok] at h
    obtain ⟨bt, hbt, stage, hstage, unstage, hunstage, h⟩ := h
    split at hbt
    · simp at hbt
    · next hle =>
      obtain rfl := Except.ok.inj hbt
      rw [← Except.ok.inj h, stageSources_ok hstage, unstageDests_ok hunstage]
      refine ⟨?_, fun _ => by omega⟩
      rw [Temps.take, if_neg (by simpa using hm)]
      rfl

theorem phiMoves_ok {from' : BlockId} {insts : List Instruction} {moves : List (Loc × Loc)}
    (h : phiMoves alloc from' insts = .ok moves) :
    moves = phiMoveList alloc.loc from' insts ∧
      ∀ i ∈ insts, ∀ incoming, i.kind = .phi incoming → alloc.Located i.id ∧
        ∃ v, incoming.find? (fun p => p.1 == from') = some (from', v) ∧ alloc.Located v := by
  induction insts generalizing moves with
  | nil => simpa [phiMoves, phiMoveList] using h.symm
  | cons i insts ih =>
    unfold phiMoves at h
    cases hk : i.kind with
    | phi incoming =>
      simp only [hk, bind_eq_ok, Comp.expect_eq_ok] at h
      obtain ⟨e, he, l₁, h₁, l₂, h₂, ms, hms, h⟩ := h
      obtain ⟨rfl, hl₁⟩ := locOf_ok h₁
      obtain ⟨rfl, hl₂⟩ := locOf_ok h₂
      obtain ⟨rfl, hrest⟩ := ih hms
      have hfst : e.1 = from' := by simpa using List.find?_some he
      refine ⟨?_, ?_⟩
      · rw [← Except.ok.inj h]
        simp [phiMoveList, hk, he]
      · intro j hj inc hkj
        rcases List.mem_cons.mp hj with rfl | hj
        · obtain rfl : incoming = inc := by simpa [hk] using hkj
          exact ⟨hl₂, e.2, by rw [he, ← hfst], hl₁⟩
        · exact hrest j hj inc hkj
    | _ =>
      simp only [hk] at h
      obtain ⟨rfl, hrest⟩ := ih h
      refine ⟨by simp [phiMoveList, hk], ?_⟩
      intro j hj inc hkj
      rcases List.mem_cons.mp hj with rfl | hj
      · simp [hk] at hkj
      · exact hrest j hj inc hkj

theorem insertPhiCopies_ok {temp : Temps} {from' target : BlockId} {r : List Instr × Temps}
    (h : insertPhiCopies f alloc regionEnd temp from' target = .ok r) :
    ∃ b, f.block target = some b ∧
      r = (moveCode temp.next (phiMoveList alloc.loc from' b.instructions),
        temp.take (phiMoveList alloc.loc from' b.instructions).length) ∧
      (phiMoveList alloc.loc from' b.instructions ≠ [] →
        temp.next + (phiMoveList alloc.loc from' b.instructions).length * 8 ≤ regionEnd) ∧
      ∀ i ∈ b.instructions, ∀ incoming, i.kind = .phi incoming → alloc.Located i.id ∧
        ∃ v, incoming.find? (fun p => p.1 == from') = some (from', v) ∧ alloc.Located v := by
  simp only [insertPhiCopies, bind_eq_ok, Comp.expect_eq_ok] at h
  obtain ⟨b, hb, moves, hmoves, h⟩ := h
  obtain ⟨rfl, hphi⟩ := phiMoves_ok hmoves
  obtain ⟨hr, hle⟩ := parallelMove_ok h
  exact ⟨b, hb, hr, hle, hphi⟩

theorem saveCode_ok {i : ℕ} {saved : List (ValueId × ℕ)} {code : List Instr}
    (h : saveCode f i saved = .ok code) : code = saveAll i saved := by
  induction saved generalizing i code with
  | nil => simpa [saveCode, saveAll] using h.symm
  | cons p saved ih =>
    simp only [saveCode, bind_eq_ok] at h
    obtain ⟨s, hs, c, hc, h⟩ := h
    obtain ⟨rfl, -⟩ := addrI32_ok hs
    rw [← Except.ok.inj h, ih hc]
    rfl

theorem restoreCode_ok {i : ℕ} {saved : List (ValueId × ℕ)} {code : List Instr}
    (h : restoreCode f i saved = .ok code) : code = restoreAll i saved := by
  induction saved generalizing i code with
  | nil => simpa [restoreCode, restoreAll] using h.symm
  | cons p saved ih =>
    simp only [restoreCode, bind_eq_ok] at h
    obtain ⟨s, hs, c, hc, h⟩ := h
    obtain ⟨rfl, -⟩ := addrI32_ok hs
    rw [← Except.ok.inj h, ih hc]
    rfl

theorem bumpStack_ok {op : Opcode} {bytes : ℕ} {code : List Instr}
    (h : bumpStack f op bytes = .ok code) : code = bumpCode op bytes := by
  unfold bumpStack at h
  unfold bumpCode
  split at h
  · next hb =>
    simp only [bind_eq_ok] at h
    obtain ⟨s, hs, h⟩ := h
    obtain ⟨rfl, -⟩ := addrI32_ok hs
    rw [if_pos hb, ← Except.ok.inj h]
  · next hb => rw [if_neg hb, ← Except.ok.inj h]

theorem argMoves_ok {i : ℕ} {args : List ValueId} {moves : List (Loc × Loc)}
    (h : argMoves alloc i args = .ok moves) :
    moves = argMoveList alloc.loc i args ∧ ∀ a ∈ args, alloc.Located a := by
  induction args generalizing i moves with
  | nil => simpa [argMoves, argMoveList] using h.symm
  | cons a args ih =>
    simp only [argMoves, bind_eq_ok] at h
    obtain ⟨l, hl, ms, hms, h⟩ := h
    obtain ⟨rfl, hloc⟩ := locOf_ok hl
    obtain ⟨rfl, hrest⟩ := ih hms
    refine ⟨by rw [← Except.ok.inj h]; rfl, ?_⟩
    intro b hb
    rcases List.mem_cons.mp hb with rfl | hb
    · exact hloc
    · exact hrest b hb

@[simp] theorem argMoveList_length (loc : ValueId → Loc) (i : ℕ) (args : List ValueId) :
    (argMoveList loc i args).length = args.length := by
  induction args generalizing i with
  | nil => rfl
  | cons a args ih => simp [argMoveList, ih]

theorem callPrologue_ok {temp : Temps} {saved : List (ValueId × ℕ)} {args : List ValueId}
    {r : List Instr × Temps} (h : callPrologue f alloc regionEnd temp saved args = .ok r) :
    r = (prologueCode alloc.loc temp.next saved args, temp.take args.length) ∧
      (args ≠ [] → temp.next + args.length * 8 ≤ regionEnd) ∧ ∀ a ∈ args, alloc.Located a := by
  simp only [callPrologue, bind_eq_ok] at h
  obtain ⟨save, hsave, push, hpush, moves, hmoves, x, hx, h⟩ := h
  obtain ⟨rfl, hloc⟩ := argMoves_ok hmoves
  obtain ⟨rfl, hle⟩ := parallelMove_ok hx
  rw [← Except.ok.inj h, saveCode_ok hsave, bumpStack_ok hpush]
  refine ⟨by simp [prologueCode], fun hne => ?_, hloc⟩
  have := hle (by cases args <;> simp_all [argMoveList])
  simpa using this

theorem callEpilogue_ok {saved : List (ValueId × ℕ)} {id : ValueId} {code : List Instr}
    (h : callEpilogue f alloc saved id = .ok code) :
    code = epilogueCode (alloc.loc id) saved ∧ alloc.Located id := by
  simp only [callEpilogue, bind_eq_ok] at h
  obtain ⟨pop, hpop, restore, hrestore, dst, hdst, fin, hfin, h⟩ := h
  obtain ⟨rfl, hloc⟩ := writeTarget_ok hdst
  rw [← Except.ok.inj h, bumpStack_ok hpop, restoreCode_ok hrestore, finishWrite_ok hfin]
  exact ⟨by simp [epilogueCode, resultCode, List.append_assoc], hloc⟩

/-- The operands of an instruction that the code reads from their locations. -/
theorem lowerInst_ok {inst : Instruction} {code : List Instr}
    (h : lowerInst f alloc inst = .ok code) :
    code = instCode alloc.loc inst ∧
      (∀ v ∈ instUses inst.kind, inst.kind.isCall = false → alloc.Located v) ∧
      (inst.kind.isPhi = false → inst.kind.isCall = false → alloc.Located inst.id) ∧
      ∀ n, inst.kind = .constI64 n → -2 ^ 31 ≤ n.toInt ∧ n.toInt < 2 ^ 31 := by
  unfold lowerInst at h
  unfold instCode
  cases hk : inst.kind with
  | phi incoming => simpa [hk, instUses, InstKind.isPhi, InstKind.isCall] using h.symm
  | call name args => simpa [hk, instUses, InstKind.isPhi, InstKind.isCall] using h.symm
  | constI64 n =>
    simp only [hk] at h
    split at h
    · simp at h
    · next hn =>
      simp only [bind_eq_ok] at h
      obtain ⟨dst, hdst, fin, hfin, h⟩ := h
      obtain ⟨rfl, hloc⟩ := writeTarget_ok hdst
      rw [← Except.ok.inj h, finishWrite_ok hfin]
      refine ⟨rfl, by simp [instUses], fun _ _ => hloc, ?_⟩
      intro m hm
      obtain rfl : n = m := by simpa using hm
      omega
  | constBool b =>
    simp only [hk, bind_eq_ok] at h
    obtain ⟨dst, hdst, fin, hfin, h⟩ := h
    obtain ⟨rfl, hloc⟩ := writeTarget_ok hdst
    rw [← Except.ok.inj h, finishWrite_ok hfin]
    exact ⟨rfl, by simp [instUses], fun _ _ => hloc, by simp⟩
  | bin op lhs rhs =>
    simp only [hk, bind_eq_ok] at h
    obtain ⟨a, ha, b, hb, dst, hdst, fin, hfin, h⟩ := h
    obtain ⟨rfl, hla⟩ := readInto_ok ha
    obtain ⟨rfl, hlb⟩ := readInto_ok hb
    obtain ⟨rfl, hloc⟩ := writeTarget_ok hdst
    rw [← Except.ok.inj h, finishWrite_ok hfin]
    refine ⟨by simp [List.append_assoc], ?_, fun _ _ => hloc, by simp⟩
    intro v hv _
    rcases List.mem_cons.mp hv with rfl | hv
    · exact hla
    · obtain rfl : v = rhs := by simpa using hv
      exact hlb
  | un op a =>
    cases op <;>
    · simp only [hk, bind_eq_ok] at h
      obtain ⟨x, hx, dst, hdst, fin, hfin, h⟩ := h
      obtain ⟨rfl, hla⟩ := readInto_ok hx
      obtain ⟨rfl, hloc⟩ := writeTarget_ok hdst
      rw [← Except.ok.inj h, finishWrite_ok hfin]
      refine ⟨rfl, ?_, fun _ _ => hloc, by simp⟩
      intro v hv _
      obtain rfl : v = a := by simpa [instUses] using hv
      exact hla

/-- What one instruction does to the block under construction. -/
theorem lowerStep_ok {block : BlockId} {st st' : LowerState} {inst : Instruction}
    (h : lowerStep f alloc liveness regionEnd block st inst = .ok st') :
    (∃ callee args saved, inst.kind = .call callee args ∧
      saveRegs f alloc liveness block inst.id = .ok saved ∧
      st' = ⟨st.pending ++ [⟨st.cur ++ prologueCode alloc.loc st.temp.next saved args,
          .call callee⟩],
        epilogueCode (alloc.loc inst.id) saved, st.temp.take args.length⟩ ∧
      (args ≠ [] → st.temp.next + args.length * 8 ≤ regionEnd) ∧
      (∀ a ∈ args, alloc.Located a) ∧ alloc.Located inst.id) ∨
    (inst.kind.isCall = false ∧ st' = { st with cur := st.cur ++ instCode alloc.loc inst } ∧
      (∀ v ∈ instUses inst.kind, alloc.Located v) ∧
      (inst.kind.isPhi = false → alloc.Located inst.id) ∧
      ∀ n, inst.kind = .constI64 n → -2 ^ 31 ≤ n.toInt ∧ n.toInt < 2 ^ 31) := by
  unfold lowerStep at h
  split at h
  · next callee args hk =>
    simp only [bind_eq_ok] at h
    obtain ⟨saved, hsaved, pr, hpr, ep, hep, h⟩ := h
    obtain ⟨rfl, hle, hargs⟩ := callPrologue_ok hpr
    obtain ⟨rfl, hid⟩ := callEpilogue_ok hep
    exact .inl ⟨callee, args, saved, hk, hsaved, (Except.ok.inj h).symm, hle, hargs, hid⟩
  · next hk =>
    simp only [bind_eq_ok] at h
    obtain ⟨code, hcode, h⟩ := h
    obtain ⟨rfl, huses, hid, hrange⟩ := lowerInst_ok hcode
    have hcall : inst.kind.isCall = false := by
      cases hi : inst.kind <;> simp_all [InstKind.isCall]
    exact .inr ⟨hcall, (Except.ok.inj h).symm, fun v hv => huses v hv hcall,
      fun hphi => hid hphi hcall, hrange⟩

/-- What an edge of the control-flow graph emits: the parallel move for the phis of its target. -/
def EdgeCode (f : Function) (alloc : Allocation) (regionEnd : ℕ) (temp : Temps)
    (from' target : BlockId) (copies : List Instr) (temp' : Temps) : Prop :=
  ∃ b, f.block target = some b ∧
    copies = moveCode temp.next (phiMoveList alloc.loc from' b.instructions) ∧
    temp' = temp.take (phiMoveList alloc.loc from' b.instructions).length ∧
    (phiMoveList alloc.loc from' b.instructions ≠ [] →
      temp.next + (phiMoveList alloc.loc from' b.instructions).length * 8 ≤ regionEnd) ∧
    ∀ i ∈ b.instructions, ∀ incoming, i.kind = .phi incoming → alloc.Located i.id ∧
      ∃ v, incoming.find? (fun p => p.1 == from') = some (from', v) ∧ alloc.Located v

theorem edgeCode {temp : Temps} {from' target : BlockId} {r : List Instr × Temps}
    (h : insertPhiCopies f alloc regionEnd temp from' target = .ok r) :
    EdgeCode f alloc regionEnd temp from' target r.1 r.2 := by
  obtain ⟨b, hb, rfl, hle, hphi⟩ := insertPhiCopies_ok h
  exact ⟨b, hb, rfl, rfl, hle, hphi⟩

/-- The pending blocks a terminator closes the block with. -/
inductive TermCode (f : Function) (alloc : Allocation) (regionEnd : ℕ) (block : BlockId)
    (st : LowerState) : Terminator → List PendingBlock → Temps → Prop where
  | jump {target : BlockId} {copies : List Instr} {temp : Temps}
      (edge : EdgeCode f alloc regionEnd st.temp block target copies temp) :
      TermCode f alloc regionEnd block st (.jump target)
        (st.pending ++ [⟨st.cur ++ copies, .jmp target⟩]) temp
  | branch {cond : ValueId} {thenBlock elseBlock : BlockId}
      {thenCopies elseCopies : List Instr} {temp temp' : Temps} (located : alloc.Located cond)
      (else' : EdgeCode f alloc regionEnd st.temp block elseBlock elseCopies temp)
      (then' : EdgeCode f alloc regionEnd temp block thenBlock thenCopies temp') :
      TermCode f alloc regionEnd block st (.branch cond thenBlock elseBlock)
        (st.pending ++ [⟨st.cur ++ (alloc.loc cond).loadCode SCRATCH_1 ++ elseCopies,
          .jz ((alloc.loc cond).regOr SCRATCH_1) elseBlock⟩, ⟨thenCopies, .jmp thenBlock⟩]) temp'
  | retNone : TermCode f alloc regionEnd block st (.ret none) (st.pending ++ [⟨st.cur, .ret⟩])
      st.temp
  | ret {v : ValueId} (located : alloc.Located v) :
      TermCode f alloc regionEnd block st (.ret (some v))
        (st.pending ++ [⟨st.cur ++ retCode (alloc.loc v), .ret⟩]) st.temp

theorem lowerTerm_ok {block : BlockId} {st : LowerState} {term : Terminator}
    {r : List PendingBlock × Temps} (h : lowerTerm f alloc regionEnd block st term = .ok r) :
    TermCode f alloc regionEnd block st term r.1 r.2 := by
  cases term with
  | jump target =>
    simp only [lowerTerm, bind_eq_ok] at h
    obtain ⟨x, hx, h⟩ := h
    obtain rfl := Except.ok.inj h
    exact .jump (edgeCode hx)
  | branch cond thenBlock elseBlock =>
    simp only [lowerTerm, bind_eq_ok] at h
    obtain ⟨c, hc, x, hx, y, hy, h⟩ := h
    obtain ⟨rfl, hloc⟩ := readInto_ok hc
    obtain rfl := Except.ok.inj h
    exact .branch hloc (edgeCode hx) (edgeCode hy)
  | ret v =>
    cases v with
    | none =>
      obtain rfl := Except.ok.inj h
      exact .retNone
    | some v =>
      simp only [lowerTerm, bind_eq_ok] at h
      obtain ⟨c, hc, h⟩ := h
      obtain ⟨rfl, hloc⟩ := readInto_ok hc
      obtain rfl := Except.ok.inj h
      have : TermCode f alloc regionEnd block st (.ret (some v)) _ _ := .ret hloc
      rwa [retCode, ← List.append_assoc] at this

/-- The pending blocks of one IR block. -/
theorem lowerBlock_ok {temp : Temps} {b : BasicBlock} {r : List PendingBlock × Temps}
    (h : lowerBlock f alloc liveness regionEnd temp b = .ok r) :
    ∃ st term, b.instructions.foldlM (lowerStep f alloc liveness regionEnd b.id)
        ⟨[], [], temp⟩ = .ok st ∧ b.terminator = some term ∧
      TermCode f alloc regionEnd b.id st term r.1 r.2 := by
  simp only [lowerBlock, bind_eq_ok, Comp.expect_eq_ok] at h
  obtain ⟨st, hst, term, hterm, h⟩ := h
  exact ⟨st, term, hst, hterm, lowerTerm_ok h⟩

end Inversion

end Codegen
end Chakobsa
