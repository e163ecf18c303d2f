import Chakobsa.Codegen.BlockOrder

/-!
# The same code at other staging slots

Staging slots are handed out in the order in which blocks are lowered, and that order is all that the
lowering of one block sees of the others. `Restaged` relates two pieces of code that are the same up
to the slots of their parallel moves. Lowering an IR block again, in a reordered function and from
another value of the bump pointer, gives the same pending blocks in this sense
(`lowerBlock_reordered`), as long as there is room for the slots it takes (`blockSlots`).
-/

namespace Chakobsa
namespace Codegen

open Ir ExceptLemmas

/-- The moves are between locations that an allocation gives. -/
structure MovesIn (alloc : Allocation) (moves : List (Loc × Loc)) : Prop where
  below : ∀ p ∈ moves, p.1.Below ∧ p.2.Below
  spills : ∀ a ∈ moveAddresses moves, ∃ s ∈ alloc.spills.map Prod.snd, a = (s : ℕ)

/-- The slots that some moves take from `base` on are between `low` and `high`. -/
def StagedIn (low high base : ℕ) (moves : List (Loc × Loc)) : Prop :=
  low ≤ base ∧ (moves ≠ [] → base + moves.length * 8 ≤ high)

/-- Code that is the same but for the slots of parallel moves, all between `low` and `high`. Apart
from these it uses spill slots of the allocation. -/
inductive Restaged (alloc : Allocation) (low high : ℕ) : List Instr → List Instr → Prop where
  | nil : Restaged alloc low high [] []
  | code {code rest rest' : List Instr}
      (spills : ∀ a ∈ absolutes code, ∃ s ∈ alloc.spills.map Prod.snd, a = (s : ℕ))
      (tail : Restaged alloc low high rest rest') :
      Restaged alloc low high (code ++ rest) (code ++ rest')
  | move {base base' : ℕ} {moves : List (Loc × Loc)} {rest rest' : List Instr}
      (locs : MovesIn alloc moves) (here : StagedIn low high base moves)
      (there : StagedIn low high base' moves) (tail : Restaged alloc low high rest rest') :
      Restaged alloc low high (moveCode base moves ++ rest) (moveCode base' moves ++ rest')

section Restaged

variable {alloc : Allocation} {low high base base' : ℕ} {code code' rest rest' : List Instr}
  {moves : List (Loc × Loc)}

theorem Restaged.append (h : Restaged alloc low high code code')
    (h' : Restaged alloc low high rest rest') :
    Restaged alloc low high (code ++ rest) (code' ++ rest') := by
  induction h with
  | nil => exact h'
  | code spills _ ih =>
    rw [List.append_assoc, List.append_assoc]
    exact .code spills ih
  | move locs here there _ ih =>
    rw [List.append_assoc, List.append_assoc]
    exact .move locs here there ih

theorem Restaged.same (spills : ∀ a ∈ absolutes code, ∃ s ∈ alloc.spills.map Prod.snd, a = (s : ℕ)) :
    Restaged alloc low high code code := by
  have := Restaged.code spills (.nil : Restaged alloc low high [] [])
  rwa [List.append_nil] at this

theorem Restaged.moved (locs : MovesIn alloc moves) (here : StagedIn low high base moves)
    (there : StagedIn low high base' moves) :
    Restaged alloc low high (moveCode base moves) (moveCode base' moves) := by
  have := Restaged.move locs here there .nil
  rwa [List.append_nil, List.append_nil] at this

end Restaged

/-- Pending blocks with restaged code, left in the same way. -/
def PendingBlock.Restaged (alloc : Allocation) (low high : ℕ) (p q : PendingBlock) : Prop :=
  Codegen.Restaged alloc low high p.instructions q.instructions ∧ q.term = p.term

/-- Two states of the lowering that differ in the staging slots only. -/
structure LowerState.Restaged (alloc : Allocation) (low high : ℕ) (st st' : LowerState) : Prop where
  pending : List.Forall₂ (PendingBlock.Restaged alloc low high) st.pending st'.pending
  cur : Codegen.Restaged alloc low high st.cur st'.cur

/-! ### Room for the slots -/

/-- From the bump pointer on there is room for some slots, if there are any. -/
def Temps.Room (temp : Temps) (high n : ℕ) : Prop := n ≠ 0 → temp.next + n * 8 ≤ high

theorem Temps.Room.left {temp : Temps} {high m n : ℕ} (h : temp.Room high (m + n)) :
    temp.Room high m := by
  intro hm
  have := h (by omega)
  omega

theorem Temps.Room.right {temp temp' : Temps} {high m n : ℕ} (h : temp.Room high (m + n))
    (hnext : temp'.next = temp.next + m * 8) : temp'.Room high n := by
  intro hn
  have := h (by omega)
  omega

section Slots

variable {f : Function} {alloc : Allocation} {liveness : Liveness} {high : ℕ}

/-- The blocks of a function are lowered one by one, each behind the ones before it. -/
theorem lowerBlocks_from {low : ℕ} {temp : Temps} {bs : List BasicBlock}
    {r : List (BlockId × List PendingBlock) × Temps} (hlow : low ≤ temp.next)
    (h : lowerBlocks f alloc liveness high temp bs = .ok r) :
    List.Forall₂ (fun b q => q.1 = b.id ∧ ∃ t t', low ≤ t.next ∧
      lowerBlock f alloc liveness high t b = .ok (q.2, t')) bs r.1 := by
  induction bs generalizing temp r with
  | nil =>
    obtain rfl := Except.ok.inj h
    exact .nil
  | cons b bs ih =>
    simp only [lowerBlocks, bind_eq_ok] at h
    obtain ⟨x, hx, y, hy, h⟩ := h
    obtain rfl := Except.ok.inj h
    refine .cons ⟨rfl, temp, x.2, hlow, hx⟩ (ih ?_ hy)
    rw [lowerBlock_next hx]
    omega

/-- Whatever was lowered had room. -/
theorem lowerBlocks_room {temp : Temps} {bs : List BasicBlock}
    {r : List (BlockId × List PendingBlock) × Temps}
    (h : lowerBlocks f alloc liveness high temp bs = .ok r) :
    temp.Room high (bs.map (blockSlots f)).sum := by
  intro hne
  have hnext := lowerBlocks_next h
  obtain ⟨extra, -, hcont, hle, -⟩ := Extends.blocks h
  rw [← hnext]
  refine hle ?_
  rintro rfl
  have : temp.next = r.2.next := hcont
  omega

end Slots

/-! ### Lowering a block again -/

section Again

variable {f g : Function} {alloc : Allocation} {liveness liveness' : Liveness} {low high : ℕ}

/-- Code without staging slots does not depend on the order: the lowering of a function reads its
name, for the errors. -/
theorem lowerInst_reordered (h : f.Reordered g) (inst : Instruction) :
    lowerInst g alloc inst = lowerInst f alloc inst := by
  obtain ⟨bs, -, rfl⟩ := h
  rfl

theorem readInto_reordered (h : f.Reordered g) (v : ValueId) (scratch : ℕ) :
    readInto g alloc v scratch = readInto f alloc v scratch := by
  obtain ⟨bs, -, rfl⟩ := h
  rfl

theorem bumpStack_reordered (h : f.Reordered g) (op : Opcode) (bytes : ℕ) :
    bumpStack g op bytes = bumpStack f op bytes := by
  obtain ⟨bs, -, rfl⟩ := h
  rfl

theorem addrI32_reordered (h : f.Reordered g) (addr : ℕ) : addrI32 g addr = addrI32 f addr := by
  obtain ⟨bs, -, rfl⟩ := h
  rfl

theorem saveCode_reordered (h : f.Reordered g) (i : ℕ) (saved : List (ValueId × ℕ)) :
    saveCode g i saved = saveCode f i saved := by
  induction saved generalizing i with
  | nil => rfl
  | cons p saved ih => simp only [saveCode, addrI32_reordered h, ih]

theorem restoreCode_reordered (h : f.Reordered g) (i : ℕ) (saved : List (ValueId × ℕ)) :
    restoreCode g i saved = restoreCode f i saved := by
  induction saved generalizing i with
  | nil => rfl
  | cons p saved ih => simp only [restoreCode, addrI32_reordered h, ih]

theorem callEpilogue_reordered (h : f.Reordered g) (saved : List (ValueId × ℕ)) (id : ValueId) :
    callEpilogue g alloc saved id = callEpilogue f alloc saved id := by
  simp only [callEpilogue, bumpStack_reordered h, restoreCode_reordered h, finishWrite,
    addrI32_reordered h]

theorem addrI32_of_lt {addr : ℕ} (h : addr < 2 ^ 31) : addrI32 f addr = .ok (addr : ℤ) := if_pos h

/-- Sources are staged anywhere else as well. -/
theorem stageSources_at {base base' i : ℕ} {moves : List (Loc × Loc)} {code : List Instr}
    (h : stageSources f base i moves = .ok code) (hfit : base' + (i + moves.length) * 8 ≤ 2 ^ 31) :
    stageSources g base' i moves = .ok (stageAll base' i moves) := by
  induction moves generalizing i code with
  | nil => rfl
  | cons m moves ih =>
    obtain ⟨src, dst⟩ := m
    rw [List.length_cons] at hfit
    have hslot : addrI32 g (base' + i * 8) = .ok ((base' + i * 8 : ℕ) : ℤ) :=
      addrI32_of_lt (by omega)
    cases src with
    | reg r =>
      simp only [stageSources, pure_eq_ok, ok_bind, bind_eq_ok] at h
      obtain ⟨s, -, c, hc, -⟩ := h
      simp only [stageSources, pure_eq_ok, ok_bind, hslot, ih hc (by omega)]
      rfl
    | spill a =>
      simp only [stageSources, pure_eq_ok, ok_bind, bind_eq_ok] at h
      obtain ⟨ai, ha, s, -, c, hc, -⟩ := h
      have haddr : addrI32 g a = .ok (a : ℤ) := addrI32_of_lt (addrI32_ok ha).2
      simp only [stageSources, pure_eq_ok, ok_bind, hslot, haddr, ih hc (by omega)]
      rfl

theorem unstageDests_at {base base' i : ℕ} {moves : List (Loc × Loc)} {code : List Instr}
    (h : unstageDests f base i moves = .ok code) (hfit : base' + (i + moves.length) * 8 ≤ 2 ^ 31) :
    unstageDests g base' i moves = .ok (unstageAll base' i moves) := by
  induction moves generalizing i code with
  | nil => rfl
  | cons m moves ih =>
    obtain ⟨src, dst⟩ := m
    rw [List.length_cons] at hfit
    have hslot : addrI32 g (base' + i * 8) = .ok ((base' + i * 8 : ℕ) : ℤ) :=
      addrI32_of_lt (by omega)
    cases dst with
    | reg r =>
      simp only [unstageDests, pure_eq_ok, ok_bind, bind_eq_ok] at h
      obtain ⟨s, -, c, hc, -⟩ := h
      simp only [unstageDests, pure_eq_ok, ok_bind, hslot, ih hc (by omega)]
      rfl
    | spill a =>
      simp only [unstageDests, pure_eq_ok, ok_bind, bind_eq_ok] at h
      obtain ⟨s, -, ai, ha, c, hc, -⟩ := h
      have haddr : addrI32 g a = .ok (a : ℤ) := addrI32_of_lt (addrI32_ok ha).2
      simp only [unstageDests, pure_eq_ok, ok_bind, hslot, haddr, ih hc (by omega)]
      rfl

/-- A parallel move can be made wherever there is room for its slots. -/
theorem parallelMove_at {temp temp' : Temps} {moves : List (Loc × Loc)} {r : List Instr × Temps}
    (h : parallelMove f high temp moves = .ok r) (hhigh : high ≤ 2 ^ 31)
    (hroom : temp'.Room high moves.length) : parallelMove g high temp' moves =
      .ok (moveCode temp'.next moves, temp'.take moves.length) := by
  unfold parallelMove at h ⊢
  split at h
  · next hm =>
    subst hm
    rfl
  · next hm =>
    simp only [bind_eq_ok] at h
    obtain ⟨bt, -, stage, hstage, unstage, hunstage, -⟩ := h
    have hne : moves.length ≠ 0 := by simpa using hm
    have hle := hroom hne
    rw [if_neg hm, allocTempSlots, if_neg (Nat.not_lt.mpr hle)]
    simp only [ok_bind]
    rw [stageSources_at hstage (by omega), unstageDests_at hunstage (by omega), ok_bind, ok_bind,
      Temps.take, if_neg hne]
    rfl

theorem insertPhiCopies_at (h : f.Reordered g) (hnd : (f.blocks.map (·.id)).Nodup)
    (hb : alloc.Below) {temp temp' : Temps} {from' target : BlockId} {r : List Instr × Temps}
    (hr : insertPhiCopies f alloc high temp from' target = .ok r) (hhigh : high ≤ 2 ^ 31)
    (hlow : low ≤ temp.next) (hlow' : low ≤ temp'.next)
    (hroom : temp'.Room high (edgeSlots f target)) : ∃ r',
      insertPhiCopies g alloc high temp' from' target = .ok r' ∧
        Restaged alloc low high r.1 r'.1 ∧ r'.2.next = temp'.next + edgeSlots f target * 8 := by
  have hedge := edgeCode hr
  obtain ⟨b, hblk, hlen, -⟩ := hedge.slots
  obtain ⟨b', hblk', hcode, -, hle, hphi⟩ := hedge
  obtain rfl := Option.some.inj (hblk.symm.trans hblk')
  simp only [insertPhiCopies, hblk, Comp.expect_some, ok_bind, bind_eq_ok] at hr
  obtain ⟨moves, hmoves, hmove⟩ := hr
  obtain ⟨rfl, -⟩ := phiMoves_ok hmoves
  refine ⟨(moveCode temp'.next (phiMoveList alloc.loc from' b.instructions),
    temp'.take (phiMoveList alloc.loc from' b.instructions).length), ?_, ?_, ?_⟩
  · simp only [insertPhiCopies, h.block hnd, hblk, Comp.expect_some, ok_bind, hmoves]
    exact parallelMove_at hmove hhigh (hlen ▸ hroom)
  · rw [hcode]
    refine .moved ⟨below_phiMoveList hb.loc from' _, moveAddresses_phiMoveList hphi⟩ ⟨hlow, hle⟩
      ⟨hlow', fun hne => ?_⟩
    rw [hlen]
    exact hroom fun hzero => hne (List.length_eq_zero_iff.mp (hlen.trans hzero))
  · exact (Temps.take_next _ _).trans (by rw [hlen])

theorem callPrologue_at (h : f.Reordered g) (hb : alloc.Below) {temp temp' : Temps}
    {saved : List (ValueId × ℕ)} {args : List ValueId} {r : List Instr × Temps}
    (hr : callPrologue f alloc high temp saved args = .ok r) (hargs : args.length ≤ NUM_GP_REGS)
    (hhigh : high ≤ 2 ^ 31) (hlow : low ≤ temp.next) (hlow' : low ≤ temp'.next)
    (hroom : temp'.Room high args.length) : ∃ r',
      callPrologue g alloc high temp' saved args = .ok r' ∧
        Restaged alloc low high r.1 r'.1 ∧ r'.2.next = temp'.next + args.length * 8 := by
  obtain ⟨rfl, hle, hlocated⟩ := callPrologue_ok hr
  simp only [callPrologue, bind_eq_ok] at hr
  obtain ⟨save, hsave, push, hpush, moves, hmoves, x, hx, -⟩ := hr
  obtain ⟨rfl, -⟩ := argMoves_ok hmoves
  have hlen := argMoveList_length alloc.loc 0 args
  have hmove := parallelMove_at (g := g) hx hhigh (hlen.symm ▸ hroom)
  refine ⟨(prologueCode alloc.loc temp'.next saved args, temp'.take args.length), ?_, ?_,
    Temps.take_next _ _⟩
  · simp only [callPrologue, saveCode_reordered h, bumpStack_reordered h, hsave, hpush, hmoves, hmove,
      ok_bind]
    rw [saveCode_ok hsave, bumpStack_ok hpush, hlen]
    rfl
  · unfold prologueCode
    refine .code ?_ (.moved ⟨below_argMoveList hb.loc (by omega), moveAddresses_argMoveList hlocated⟩
      ⟨hlow, fun hne => ?_⟩ ⟨hlow', fun hne => ?_⟩)
    · simp [absolutes_saveAll, absolutes_bumpCode]
    · rw [hlen]
      exact hle (by rintro rfl; exact hne rfl)
    · rw [hlen]
      exact hroom fun hzero => hne (List.length_eq_zero_iff.mp (hlen.trans hzero))

/-- One instruction. The registers saved around a call are the same. -/
theorem lowerStep_reordered (h : f.Reordered g) (hb : alloc.Below) {block : BlockId}
    (hsave : ∀ self saved, saveRegs f alloc liveness block self = .ok saved →
      saveRegs g alloc liveness' block self = .ok saved)
    {st st' st₂ : LowerState} {inst : Instruction}
    (hargs : ∀ callee args, inst.kind = .call callee args → args.length ≤ NUM_GP_REGS)
    (hstep : lowerStep f alloc liveness high block st inst = .ok st')
    (hst : st.Restaged alloc low high st₂) (hhigh : high ≤ 2 ^ 31) (hlow : low ≤ st.temp.next)
    (hlow₂ : low ≤ st₂.temp.next) (hroom : st₂.temp.Room high (argSlots inst)) :
    ∃ st₂', lowerStep g alloc liveness' high block st₂ inst = .ok st₂' ∧
      st'.Restaged alloc low high st₂' ∧ st₂'.temp.next = st₂.temp.next + argSlots inst * 8 := by
  obtain ⟨hpending, hcur⟩ := hst
  have hok := lowerStep_ok hstep
  unfold lowerStep at hstep ⊢
  cases hk : inst.kind with
  | call callee args =>
    simp only [hk, bind_eq_ok] at hstep
    obtain ⟨saved, hsaved, r, hr, after, hafter, hst'⟩ := hstep
    rw [argSlots, hk] at hroom
    obtain ⟨r', hr', hcode, hnext⟩ :=
      callPrologue_at h hb hr (hargs callee args hk) hhigh hlow hlow₂ hroom
    refine ⟨⟨st₂.pending ++ [⟨st₂.cur ++ r'.1, .call callee⟩], after, r'.2⟩, ?_, ?_, ?_⟩
    · simp only [hsave _ _ hsaved, hr', callEpilogue_reordered h, hafter, ok_bind]
      rfl
    · rw [← Except.ok.inj hst']
      refine ⟨List.rel_append hpending (.cons ⟨hcur.append hcode, rfl⟩ .nil), .same ?_⟩
      obtain ⟨rfl, hid⟩ := callEpilogue_ok hafter
      intro a ha
      refine hid.address a ?_
      simpa [epilogueCode, absolutes_bumpCode, absolutes_restoreAll, absolutes_resultCode] using ha
    · rw [argSlots, hk]
      exact hnext
  | _ =>
    rcases hok with ⟨callee, args, -, hcall, -⟩ | ⟨hcall, rfl, huses, hid, -⟩
    · rw [hk] at hcall
      cases hcall
    · simp only [hk, bind_eq_ok] at hstep
      obtain ⟨code, hcode, -⟩ := hstep
      obtain ⟨rfl, -⟩ := lowerInst_ok hcode
      refine ⟨{ st₂ with cur := st₂.cur ++ instCode alloc.loc inst }, ?_, ?_, ?_⟩
      · simp only [lowerInst_reordered h, hcode, ok_bind]
        rfl
      · exact ⟨hpending, hcur.append (.same (instCode_spills hcall huses hid))⟩
      · simp [argSlots, hk]

theorem lowerSteps_reordered (h : f.Reordered g) (hb : alloc.Below) {block : BlockId}
    (hsave : ∀ self saved, saveRegs f alloc liveness block self = .ok saved →
      saveRegs g alloc liveness' block self = .ok saved)
    {st st' st₂ : LowerState} {insts : List Instruction}
    (hargs : ∀ i ∈ insts, ∀ callee args, i.kind = .call callee args → args.length ≤ NUM_GP_REGS)
    (hsteps : insts.foldlM (lowerStep f alloc liveness high block) st = .ok st')
    (hst : st.Restaged alloc low high st₂) (hhigh : high ≤ 2 ^ 31) (hlow : low ≤ st.temp.next)
    (hlow₂ : low ≤ st₂.temp.next) (hroom : st₂.temp.Room high (insts.map argSlots).sum) :
    ∃ st₂', insts.foldlM (lowerStep g alloc liveness' high block) st₂ = .ok st₂' ∧
      st'.Restaged alloc low high st₂' ∧
      st₂'.temp.next = st₂.temp.next + (insts.map argSlots).sum * 8 := by
  induction insts generalizing st st₂ with
  | nil =>
    obtain rfl : st = st' := by simpa using hsteps
    exact ⟨st₂, rfl, hst, by simp⟩
  | cons i insts ih =>
    rw [List.foldlM_cons, bind_eq_ok] at hsteps
    obtain ⟨st₁, h₁, hsteps⟩ := hsteps
    rw [List.map_cons, List.sum_cons] at hroom
    obtain ⟨t₁, ht₁, hst₁, hnext₁⟩ := lowerStep_reordered h hb hsave (hargs i List.mem_cons_self) h₁
      hst hhigh hlow hlow₂ hroom.left
    have hlow₁ : low ≤ st₁.temp.next := by
      rw [lowerStep_next h₁]
      omega
    obtain ⟨t, ht, hstt, hnext⟩ := ih (fun j hj => hargs j (List.mem_cons_of_mem _ hj)) hsteps hst₁ hlow₁
      (by omega) (hroom.right hnext₁)
    refine ⟨t, ?_, hstt, ?_⟩
    · rw [List.foldlM_cons, ht₁, ok_bind]
      exact ht
    · rw [hnext, hnext₁, List.map_cons, List.sum_cons, Nat.add_mul, Nat.add_assoc]

/-- The terminator, with the copies for its edges. -/
theorem lowerTerm_reordered (h : f.Reordered g) (hnd : (f.blocks.map (·.id)).Nodup)
    (hb : alloc.Below) {block : BlockId} {st st₂ : LowerState} {term : Terminator}
    {r : List PendingBlock × Temps} (hr : lowerTerm f alloc high block st term = .ok r)
    (hhigh : high ≤ 2 ^ 31) (hlow : low ≤ st.temp.next) (hlow₂ : low ≤ st₂.temp.next)
    (hroom : st₂.temp.Room high (term.successors.map (edgeSlots f)).sum)
    (hst : st.Restaged alloc low high st₂) : ∃ r',
      lowerTerm g alloc high block st₂ term = .ok r' ∧
        List.Forall₂ (PendingBlock.Restaged alloc low high) r.1 r'.1 := by
  obtain ⟨hpending, hcur⟩ := hst
  cases term with
  | jump target =>
    simp only [Terminator.successors, List.map_cons, List.map_nil, List.sum_cons, List.sum_nil,
      Nat.add_zero] at hroom
    simp only [lowerTerm, bind_eq_ok] at hr
    obtain ⟨x, hx, hr⟩ := hr
    obtain rfl := Except.ok.inj hr
    obtain ⟨x', hx', hcode, -⟩ := insertPhiCopies_at h hnd hb hx hhigh hlow hlow₂ hroom
    refine ⟨(st₂.pending ++ [⟨st₂.cur ++ x'.1, .jmp target⟩], x'.2), ?_, ?_⟩
    · simp only [lowerTerm, hx', ok_bind]
      rfl
    · exact List.rel_append hpending (.cons ⟨hcur.append hcode, rfl⟩ .nil)
  | branch cond thenBlock elseBlock =>
    simp only [Terminator.successors, List.map_cons, List.map_nil, List.sum_cons, List.sum_nil,
      Nat.add_zero] at hroom
    rw [Nat.add_comm] at hroom
    simp only [lowerTerm, bind_eq_ok] at hr
    obtain ⟨c, hc, x, hx, y, hy, hr⟩ := hr
    obtain rfl := Except.ok.inj hr
    obtain ⟨rfl, hlocated⟩ := readInto_ok hc
    obtain ⟨x', hx', helse, hnext⟩ := insertPhiCopies_at h hnd hb hx hhigh hlow hlow₂ hroom.left
    -- the copies of the then-edge take their slots behind those of the else-edge
    have hlow₁ : low ≤ x.2.next := by
      obtain ⟨-, -, -, hx₂⟩ := (edgeCode hx).slots
      omega
    obtain ⟨y', hy', hthen, -⟩ :=
      insertPhiCopies_at h hnd hb hy hhigh hlow₁ (by omega) (hroom.right hnext)
    refine ⟨(st₂.pending ++ [⟨st₂.cur ++ (alloc.loc cond).loadCode SCRATCH_1 ++ x'.1,
      .jz ((alloc.loc cond).regOr SCRATCH_1) elseBlock⟩, ⟨y'.1, .jmp thenBlock⟩], y'.2), ?_, ?_⟩
    · simp only [lowerTerm, readInto_reordered h, hc, hx', hy', ok_bind]
      rfl
    · refine List.rel_append hpending (.cons ⟨?_, rfl⟩ (.cons ⟨hthen, rfl⟩ .nil))
      refine (hcur.append (.same fun a ha => hlocated.address a ?_)).append helse
      rwa [absolutes_loadCode] at ha
  | ret v =>
    cases v with
    | none =>
      obtain rfl := Except.ok.inj hr
      exact ⟨_, rfl, List.rel_append hpending (.cons ⟨hcur, rfl⟩ .nil)⟩
    | some v =>
      simp only [lowerTerm, bind_eq_ok] at hr
      obtain ⟨c, hc, hr⟩ := hr
      obtain rfl := Except.ok.inj hr
      obtain ⟨rfl, hlocated⟩ := readInto_ok hc
      refine ⟨(st₂.pending ++ [⟨st₂.cur ++ retCode (alloc.loc v), .ret⟩], st₂.temp), ?_, ?_⟩
      · simp only [lowerTerm, readInto_reordered h, hc, ok_bind]
        rw [retCode, ← List.append_assoc]
        rfl
      · have hcode : Restaged alloc low high (retCode (alloc.loc v)) (retCode (alloc.loc v)) :=
          .same fun a ha => hlocated.address a (by rwa [absolutes_retCode] at ha)
        refine List.rel_append hpending (.cons ⟨?_, rfl⟩ .nil)
        rw [List.append_assoc]
        exact hcur.append hcode

/-- **Lowering a block again.** From any value of the bump pointer that leaves room for its slots a
block is lowered to the same pending blocks, at other staging slots. -/
theorem lowerBlock_reordered (h : f.Reordered g) (hnd : (f.blocks.map (·.id)).Nodup)
    (hb : alloc.Below) {b : BasicBlock} (hargs : ArgsFit b)
    (hsave : ∀ self saved, saveRegs f alloc liveness b.id self = .ok saved →
      saveRegs g alloc liveness' b.id self = .ok saved)
    {temp temp' : Temps} {r : List PendingBlock × Temps}
    (hr : lowerBlock f alloc liveness high temp b = .ok r) (hhigh : high ≤ 2 ^ 31)
    (hlow : low ≤ temp.next) (hlow' : low ≤ temp'.next)
    (hroom : temp'.Room high (blockSlots f b)) : ∃ r',
      lowerBlock g alloc liveness' high temp' b = .ok r' ∧
        List.Forall₂ (PendingBlock.Restaged alloc low high) r.1 r'.1 := by
  simp only [lowerBlock, bind_eq_ok, Comp.expect_eq_ok] at hr
  obtain ⟨st, hst, term, hterm, hr⟩ := hr
  have hsucc : b.successors = term.successors := by simp [BasicBlock.successors, hterm]
  rw [blockSlots, hsucc] at hroom
  have hstart : LowerState.Restaged alloc low high ⟨[], [], temp⟩ ⟨[], [], temp'⟩ := ⟨.nil, .nil⟩
  obtain ⟨st', hst', hrel, hnext⟩ :=
    lowerSteps_reordered h hb hsave hargs hst hstart hhigh hlow hlow' hroom.left
  have hlow₁ : low ≤ st.temp.next := by
    have := lowerSteps_next hst
    dsimp only at this
    omega
  obtain ⟨r', hr', hpending⟩ := lowerTerm_reordered h hnd hb hr hhigh hlow₁
    (by dsimp only at hnext; omega) (hroom.right hnext) hrel
  refine ⟨r', ?_, hpending⟩
  simp only [lowerBlock, hst', hterm, Comp.expect_some, ok_bind]
  exact hr'

end Again

end Codegen
end Chakobsa
