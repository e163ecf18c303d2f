import Chakobsa.Codegen.Frames

/-!
# The lowered blocks agree on the stack pointer

What the lowering of a call emits, in two blocks: the registers saved and the stack pointer moved
past them in the first, moved back by as much and the registers restored in the second. `Framed` says
of pending blocks that the distances of the stack pointer fit one another, and `lowerBlock_framed`
that those of an IR block do. Jumps go to the first pending block of an IR block and calls to that of
a function, so the blocks of the program agree: `Layout.frameTyped`. Nothing here depends on names or
ids being distinct: a name that two functions have is looked up the same way everywhere.
-/

namespace Chakobsa
namespace Codegen

open Ir ExceptLemmas

/-- Pending blocks one behind the other fit together, the first being entered with the stack pointer
at the given distance. A call passes its distance on to the block behind it; everything else leaves a
block with the stack pointer where the function started. -/
inductive Framed : ℕ → List PendingBlock → Prop where
  | nil : Framed 0 []
  | call {o : ℕ} {p : PendingBlock} {ps : List PendingBlock} {F : Frame} {callee : String}
      (hp : p.term = .call callee) (code : (Frame.ofOffset o).Steps p.instructions F)
      (back : ps ≠ []) (rest : Framed F.offset ps) : Framed o (p :: ps)
  | leave {o : ℕ} {p : PendingBlock} {ps : List PendingBlock} {F : Frame}
      (hp : ∀ callee, p.term ≠ .call callee) (code : (Frame.ofOffset o).Steps p.instructions F)
      (ground : F.offset = 0) (next : ∀ r target, p.term = .jz r target → ps ≠ [])
      (rest : Framed 0 ps) : Framed o (p :: ps)

theorem Framed.append {o : ℕ} {ps qs : List PendingBlock} (h : Framed o ps) (hq : Framed 0 qs) :
    Framed o (ps ++ qs) := by
  induction h with
  | nil => exact hq
  | call hp code back _ ih => exact .call hp code (fun he => back (List.append_eq_nil_iff.mp he).1) ih
  | leave hp code ground next _ ih =>
    exact .leave hp code ground
      (fun r target ht he => next r target ht (List.append_eq_nil_iff.mp he).1) ih

theorem Framed.flatMap {α : Type} {l : List α} {g : α → List PendingBlock}
    (h : ∀ x ∈ l, Framed 0 (g x)) : Framed 0 (l.flatMap g) := by
  induction l with
  | nil => exact .nil
  | cons x l ih =>
    rw [List.flatMap_cons]
    exact (h x List.mem_cons_self).append (ih fun y hy => h y (List.mem_cons_of_mem _ hy))

/-! ### The code of a call -/

section Call

variable {F : Frame} {saved : List (ValueId × ℕ)}

/-- The memory is there up to behind the last register saved. -/
theorem steps_saveAll (saved : List (ValueId × ℕ)) {i : ℕ} (h : F.offset + i * 8 ≤ F.covered) :
    ∃ F', F.Steps (saveAll i saved) F' ∧ F'.offset = F.offset ∧
      F.offset + (i + saved.length) * 8 ≤ F'.covered := by
  induction saved generalizing i F with
  | nil => exact ⟨F, .nil F, rfl, h⟩
  | cons p saved ih =>
    obtain ⟨v, r⟩ := p
    have hsave := Frame.Step.save r (i * 8) F
    obtain ⟨F', hsteps, hoff, hcov⟩ :=
      ih (F := { F with covered := max F.covered (F.offset + i * 8 + 8) }) (i := i + 1)
        (show F.offset + (i + 1) * 8 ≤ max F.covered (F.offset + i * 8 + 8) by omega)
    refine ⟨F', .cons hsave hsteps, hoff, ?_⟩
    dsimp only at hcov
    rw [List.length_cons]
    omega

/-- The stack pointer is moved past what was saved. -/
theorem steps_push {n : ℕ} (h : F.offset + n ≤ F.covered) :
    ∃ F', F.Steps (bumpCode .add n) F' ∧ F'.offset = F.offset + n := by
  unfold bumpCode
  split
  · exact ⟨_, .cons (.const n F) (.cons (.push rfl h) (.nil _)), rfl⟩
  · exact ⟨F, .nil F, by omega⟩

/-- It is moved back. -/
theorem steps_pop {n : ℕ} (h : n ≤ F.offset) :
    ∃ F', F.Steps (bumpCode .sub n) F' ∧ F'.offset = F.offset - n := by
  unfold bumpCode
  split
  · exact ⟨_, .cons (.const n F) (.cons (.pop rfl h) (.nil _)), rfl⟩
  · exact ⟨F, .nil F, by omega⟩

theorem steps_prologueCode {loc : ValueId → Loc} (hloc : ∀ v, (loc v).Below) (base : ℕ)
    (saved : List (ValueId × ℕ)) {args : List ValueId} (hargs : args.length ≤ NUM_GP_REGS)
    (hF : F.offset = 0) :
    ∃ F', F.Steps (prologueCode loc base saved args) F' ∧ F'.offset = saved.length * 8 := by
  have hcov : F.offset + 0 * 8 ≤ F.covered := by omega
  obtain ⟨F₁, hsave, hoff₁, hcov₁⟩ := steps_saveAll saved hcov
  obtain ⟨F₂, hpush, hoff₂⟩ := steps_push (F := F₁) (n := saved.length * 8) (by omega)
  have hmoves : ∀ p ∈ argMoveList loc 0 args, p.1.Below ∧ p.2.Below :=
    below_argMoveList hloc (by rwa [Nat.zero_add])
  have hplain : ∀ i ∈ moveCode base (argMoveList loc 0 args), Plain i := plain_moveCode hmoves
  obtain ⟨F₃, hmove, hoff₃⟩ := Frame.Steps.plain hplain F₂
  exact ⟨F₃, (hsave.append hpush).append hmove, by omega⟩

theorem steps_epilogueCode {dst : Loc} (hdst : dst.Below) (hregs : ∀ p ∈ saved, p.2 < NUM_GP_REGS) :
    ∃ F', (Frame.ofOffset (saved.length * 8)).Steps (epilogueCode dst saved) F' ∧ F'.offset = 0 := by
  obtain ⟨F₁, hpop, hoff₁⟩ :=
    steps_pop (F := Frame.ofOffset (saved.length * 8)) (n := saved.length * 8) (Nat.le_refl _)
  obtain ⟨F₂, hrestore, hoff₂⟩ := Frame.Steps.plain (plain_restoreAll (i := 0) hregs) F₁
  obtain ⟨F₃, hresult, hoff₃⟩ := Frame.Steps.plain (plain_resultCode hdst) F₂
  refine ⟨F₃, (hpop.append hrestore).append hresult, ?_⟩
  rw [hoff₃, hoff₂, hoff₁]
  exact Nat.sub_self _

end Call

/-! ### The blocks of an IR block -/

section Lowering

variable {f : Function} {alloc : Allocation} {liveness : Liveness} {regionEnd : ℕ}

/-- The blocks closed so far fit whatever the open block becomes the first of, and the open block has
the stack pointer where the function started. -/
def LowerState.Grounded (st : LowerState) : Prop :=
  ∃ o F, (∀ ps, ps ≠ [] → Framed o ps → Framed 0 (st.pending ++ ps)) ∧
    (Frame.ofOffset o).Steps st.cur F ∧ F.offset = 0

theorem LowerState.Grounded.step {block : BlockId} {st st' : LowerState} {inst : Instruction}
    (hb : alloc.Below) (hst : st.Grounded)
    (hargs : ∀ callee args, inst.kind = .call callee args → args.length ≤ NUM_GP_REGS)
    (h : lowerStep f alloc liveness regionEnd block st inst = .ok st') : st'.Grounded := by
  obtain ⟨o, F, hclosed, hcur, hF⟩ := hst
  rcases lowerStep_ok h with ⟨callee, args, saved, hk, hsaved, rfl, -⟩ | ⟨-, rfl, -⟩
  · obtain ⟨F₁, hpro, hoff₁⟩ := steps_prologueCode hb.loc st.temp.next saved
      (hargs callee args hk) hF
    obtain ⟨F₂, hepi, hoff₂⟩ := steps_epilogueCode (hb.loc inst.id) (saveRegs_below hb hsaved)
    refine ⟨saved.length * 8, F₂, fun ps hne hps => ?_, hepi, hoff₂⟩
    rw [List.append_assoc]
    refine hclosed _ (List.cons_ne_nil _ _) ?_
    exact .call rfl (hcur.append hpro) hne (hoff₁ ▸ hps)
  · obtain ⟨F', hinst, hoff⟩ := Frame.Steps.plain (plain_instCode hb.loc inst) F
    exact ⟨o, F', hclosed, hcur.append hinst, hoff.trans hF⟩

/-- The open block, closed with plain code and without a call. -/
theorem LowerState.Grounded.close {st : LowerState} (h : st.Grounded) {code : List Instr}
    (hcode : ∀ i ∈ code, Plain i) {term : PendingTerm} (hterm : ∀ callee, term ≠ .call callee)
    {ps : List PendingBlock} (hps : Framed 0 ps) (next : ∀ r target, term = .jz r target → ps ≠ []) :
    Framed 0 (st.pending ++ ⟨st.cur ++ code, term⟩ :: ps) := by
  obtain ⟨o, F, hclosed, hcur, hF⟩ := h
  obtain ⟨F', hsteps, hoff⟩ := Frame.Steps.plain hcode F
  exact hclosed _ (List.cons_ne_nil _ _)
    (.leave hterm (hcur.append hsteps) (hoff.trans hF) next hps)

/-- The blocks an IR block is lowered to. -/
theorem lowerBlock_framed {temp : Temps} {b : BasicBlock} {r : List PendingBlock × Temps}
    (hb : alloc.Below) (hargs : ArgsFit b)
    (h : lowerBlock f alloc liveness regionEnd temp b = .ok r) : Framed 0 r.1 ∧ r.1 ≠ [] := by
  obtain ⟨p, hp, -⟩ := lowerBlock_opens h
  refine ⟨?_, List.ne_nil_of_mem (List.mem_of_getElem? hp)⟩
  obtain ⟨st, term, hst, -, hcode⟩ := lowerBlock_ok h
  have hempty : LowerState.Grounded ⟨[], [], temp⟩ :=
    ⟨0, Frame.ofOffset 0, fun ps _ hps => hps, .nil _, rfl⟩
  have hground : st.Grounded :=
    foldlM_invariant LowerState.Grounded
      (fun st i st' hi hinv hstep => hinv.step hb (hargs i hi) hstep) hempty hst
  generalize r.1 = pending at hcode ⊢
  generalize r.2 = temp' at hcode
  cases hcode with
  | jump edge => exact hground.close (plain_edge hb edge) (by simp) .nil (by simp)
  | @branch cond tb eb tc ec t₁ _ hloc else' then' =>
    rw [List.append_assoc]
    obtain ⟨F', hthen, hoff⟩ := Frame.Steps.plain (plain_edge hb then') (Frame.ofOffset 0)
    refine hground.close (fun i hi => ?_) (by simp) (.leave (by simp) hthen hoff (by simp) .nil)
      fun _ _ _ => List.cons_ne_nil _ _
    exact (List.mem_append.mp hi).elim (plain_loadCode _ writable_scratch1 i) (plain_edge hb else' i)
  | retNone =>
    have hret : Framed 0 (st.pending ++ [⟨st.cur ++ [], .ret⟩]) :=
      hground.close (List.forall_mem_nil Plain) (by simp) .nil (by simp)
    rwa [List.append_nil] at hret
  | ret hloc => exact hground.close (plain_retCode (hb.loc _)) (by simp) .nil (by simp)

end Lowering

/-! ### Looking up functions and blocks -/

section Lookup

theorem lookupLast_cons {α : Type} (p : String × α) (m : List (String × α)) (name : String) :
    lookupLast (p :: m) name =
      (lookupLast m name).or (if p.1 == name then some p.2 else none) := by
  unfold lookupLast
  rw [List.reverse_cons, List.find?_append]
  cases m.reverse.find? fun q => q.1 == name with
  | some q => rfl
  | none =>
    rw [Option.none_or, List.find?_singleton]
    by_cases h : (p.1 == name) = true <;> simp [h]

theorem lookupLast_map {α β : Type} (g : α → β) (m : List (String × α)) (name : String) :
    lookupLast (m.map fun p => (p.1, g p.2)) name = (lookupLast m name).map g := by
  induction m with
  | nil => rfl
  | cons p m ih =>
    rw [List.map_cons, lookupLast_cons, lookupLast_cons, ih]
    cases lookupLast m name with
    | some a => rfl
    | none =>
      dsimp only [Option.none_or, Option.map_none]
      split <;> rfl

/-- The entry and the blocks that a name stands for are those of the same function, the last one of
that name. -/
theorem lookupLast_entries (base : ℕ) (lowered : List (String × Lowered)) (name : String) :
    (lookupLast (entriesFrom base lowered) name = none ∧ lookupLast lowered name = none) ∨
      ∃ k l, lowered[k]? = some (name, l) ∧ lookupLast lowered name = some l ∧
        lookupLast (entriesFrom base lowered) name =
          some (base + offset (fun p => p.2.pending) lowered k) := by
  induction lowered generalizing base with
  | nil => exact .inl ⟨rfl, rfl⟩
  | cons p lowered ih =>
    obtain ⟨name₀, l₀⟩ := p
    rw [entriesFrom, lookupLast_cons, lookupLast_cons]
    rcases ih (base + l₀.pending.length) with ⟨hentry, hlow⟩ | ⟨k, l, hk, hlow, hentry⟩
    · rw [hentry, hlow]
      by_cases hn : name₀ = name
      · refine .inr ⟨0, l₀, by rw [← hn]; rfl, ?_, ?_⟩ <;> simp [hn]
      · exact .inl (by simp [hn])
    · refine .inr ⟨k + 1, l, hk, ?_, ?_⟩
      · rw [hlow]
        rfl
      · rw [hentry, offset_cons_succ, Nat.add_assoc]
        rfl

theorem lookupLast_entry {base n : ℕ} {lowered : List (String × Lowered)} {name : String}
    (h : lookupLast (entriesFrom base lowered) name = some n) :
    ∃ k l, lowered[k]? = some (name, l) ∧ lookupLast lowered name = some l ∧
      n = base + offset (fun p => p.2.pending) lowered k := by
  rcases lookupLast_entries base lowered name with ⟨hnone, -⟩ | ⟨k, l, hk, hlow, hentry⟩
  · rw [hnone] at h
    cases h
  · rw [hentry] at h
    exact ⟨k, l, hk, hlow, (Option.some.inj h).symm⟩

/-- A block id stands for the first pending block of an IR block. -/
theorem localIndex_some {qs : List (BlockId × List PendingBlock)} {target : BlockId} {idx : ℕ}
    (h : localIndex qs target = some idx) :
    ∃ j ps, qs[j]? = some (target, ps) ∧ idx = offset Prod.snd qs j := by
  induction qs generalizing idx with
  | nil => cases h
  | cons q qs ih =>
    obtain ⟨id, ps⟩ := q
    rw [localIndex] at h
    split at h
    · next i hi =>
      obtain ⟨j, ps', hj, rfl⟩ := ih hi
      exact ⟨j + 1, ps', hj, by rw [offset_cons_succ, ← Option.some.inj h]⟩
    · split at h
      · next hid =>
        exact ⟨0, ps, by rw [← hid]; rfl, by rw [offset_zero, ← Option.some.inj h]⟩
      · cases h

end Lookup

/-! ### The program -/

section Program

variable {M : Module} {c : CompiledModule} {lowered : List (String × Lowered)}

/-- Every function has pending blocks, those of an IR block fit together and there is at least one. -/
def AllFramed (lowered : List (String × Lowered)) : Prop :=
  ∀ q ∈ lowered, q.2.blocks ≠ [] ∧ ∀ b ∈ q.2.blocks, Framed 0 b.2 ∧ b.2 ≠ []

/-- All pending blocks, in the order of the program. -/
def allPending (lowered : List (String × Lowered)) : List PendingBlock :=
  lowered.flatMap fun p => p.2.pending

/-- The distances at which a block of the program is entered: the pending blocks from the one it was
made of fit together from there. The first block of the program is made of none. -/
def Enters (lowered : List (String × Lowered)) (n o : ℕ) : Prop :=
  ∃ i, n = i + 1 ∧ i < (allPending lowered).length ∧ Framed o ((allPending lowered).drop i)

theorem Layout.allFramed (h : Layout M c lowered) (hok : validateModule M = .ok ()) :
    AllFramed lowered := by
  intro q hq
  obtain ⟨k, hk⟩ := List.mem_iff_getElem?.mp hq
  obtain ⟨f, hf, -, -⟩ := lowerAll_mem h.pass1 hk
  have hfm : f ∈ M.functions := List.mem_of_getElem? hf
  obtain ⟨defs, hv⟩ := validateFunction_ok_iff.mp ((validateModule_ok_iff.mp hok).1 f hfm)
  obtain ⟨l, liveness, hl, hlow⟩ := Pass1.function h.pass1 hf
  obtain rfl : l = q.2 := congrArg Prod.snd (Option.some.inj (hl.symm.trans hk))
  constructor
  · -- the entry block is one of them
    obtain ⟨b, hb⟩ := Option.isSome_iff_exists.mp hv.entry
    obtain ⟨j, hj⟩ := List.mem_iff_getElem?.mp (Function.block_some hb).1
    obtain ⟨ps, t, t', hps, -⟩ := hlow.block hj
    exact List.ne_nil_of_mem (List.mem_of_getElem? hps)
  · intro b hb
    obtain ⟨j, hj⟩ := List.mem_iff_getElem?.mp hb
    have hjlt : j < f.blocks.length := hlow.blocks.length_eq ▸ (List.getElem?_eq_some_iff.mp hj).1
    obtain ⟨ps, t, t', hps, hblock⟩ := hlow.block (List.getElem?_eq_getElem hjlt)
    obtain rfl : b = _ := Option.some.inj (hj.symm.trans hps)
    exact lowerBlock_framed (allocate_below hlow.alloc)
      (argsFit h.pass1 hok hfm (List.getElem_mem hjlt)) hblock

/-- The first pending block of an IR block is entered with the stack pointer where the function
started. -/
theorem AllFramed.enters (h : AllFramed lowered) {k j : ℕ} {name : String} {l : Lowered}
    {id : BlockId} {ps : List PendingBlock} (hl : lowered[k]? = some (name, l))
    (hps : l.blocks[j]? = some (id, ps)) :
    Enters lowered (1 + (offset (fun p => p.2.pending) lowered k + offset Prod.snd l.blocks j)) 0 := by
  obtain ⟨hk, hkl⟩ := List.getElem?_eq_some_iff.mp hl
  have hlmem : (name, l) ∈ lowered := List.mem_of_getElem? hl
  have hblocks := (h _ hlmem).2
  -- from there on stand the rest of the function and the functions behind it
  have hdrop : (allPending lowered).drop
      (offset (fun p => p.2.pending) lowered k + offset Prod.snd l.blocks j) =
        (l.blocks.drop j).flatMap Prod.snd ++ (lowered.drop (k + 1)).flatMap (fun p => p.2.pending) := by
    have hle : offset Prod.snd l.blocks j ≤ l.pending.length := offset_le _ _ _
    rw [allPending, ← List.drop_drop, drop_offset, List.drop_eq_getElem_cons hk, hkl,
      List.flatMap_cons, List.drop_append_of_le_length hle, Lowered.pending, drop_offset]
  have hframed : Framed 0 ((l.blocks.drop j).flatMap Prod.snd ++
      (lowered.drop (k + 1)).flatMap (fun p => p.2.pending)) := by
    refine Framed.append (.flatMap fun b hb => (hblocks b (List.mem_of_mem_drop hb)).1) (.flatMap ?_)
    intro q hq
    exact .flatMap fun b hb => ((h q (List.mem_of_mem_drop hq)).2 b hb).1
  refine ⟨_, Nat.add_comm 1 _, ?_, hdrop ▸ hframed⟩
  obtain ⟨p, hp⟩ := List.exists_mem_of_ne_nil _ (hblocks _ (List.mem_of_getElem? hps)).2
  have hin : p ∈ (l.blocks.drop j).flatMap Prod.snd := by
    refine List.mem_flatMap.mpr ⟨(id, ps), List.mem_of_getElem? (i := 0) ?_, hp⟩
    rw [List.getElem?_drop, Nat.add_zero]
    exact hps
  by_contra hge
  rw [List.drop_eq_nil_of_le (Nat.not_lt.mp hge)] at hdrop
  rw [(List.append_eq_nil_iff.mp hdrop.symm).1] at hin
  cases hin

/-- So is the first pending block of a function. -/
theorem AllFramed.enters_function (h : AllFramed lowered) {name : String} {n : ℕ}
    (hn : lookupLast (entriesFrom 0 lowered) name = some n) : Enters lowered (1 + n) 0 := by
  obtain ⟨k, l, hk, -, rfl⟩ := lookupLast_entry hn
  cases hblocks : l.blocks with
  | nil => exact absurd hblocks (h _ (List.mem_of_getElem? hk)).1
  | cons b bs =>
    have hfirst : l.blocks[0]? = some (b.1, b.2) := by
      rw [hblocks]
      rfl
    have := h.enters hk hfirst
    rwa [offset_zero, Nat.add_zero, ← Nat.zero_add (offset _ _ _)] at this

/-- So is the block that a jump is resolved to. -/
theorem AllFramed.enters_local (h : AllFramed lowered) {owner : String} {target : BlockId}
    {base idx : ℕ} (hbase : lookupLast (entriesFrom 0 lowered) owner = some base)
    (hidx : localIndex (((lookupLast lowered owner).map Lowered.blocks).getD []) target = some idx) :
    Enters lowered (1 + base + idx) 0 := by
  obtain ⟨k, l, hk, hlow, rfl⟩ := lookupLast_entry hbase
  rw [hlow] at hidx
  obtain ⟨j, ps, hj, rfl⟩ := localIndex_some hidx
  have := h.enters hk hj
  rwa [Nat.zero_add, Nat.add_assoc]

/-- A terminator is resolved to where the blocks agree on the stack pointer: the block goes on with
its distance behind a call, and at the function's start otherwise. -/
theorem AllFramed.departs (h : AllFramed lowered) {i o : ℕ} {owner : String} {p : PendingBlock}
    {ps : List PendingBlock} (hdrop : (allPending lowered).drop i = p :: ps)
    (hframed : Framed o (p :: ps)) {t : Instr}
    (ht : resolveTerm (entriesFrom 0 lowered) owner
      (localIndex (((lookupLast lowered owner).map Lowered.blocks).getD [])) p.term = .ok t) :
    ∃ F, (Frame.ofOffset o).Steps p.instructions F ∧ Departs (Enters lowered) (i + 1) F.offset t := by
  -- the block behind this one
  have hnext : ∀ {o : ℕ}, ps ≠ [] → Framed o ps → Enters lowered (i + 1 + 1) o := by
    intro o hne hps
    have hdrop' : (allPending lowered).drop (i + 1) = ps := by
      rw [← List.drop_drop, hdrop]
      rfl
    refine ⟨i + 1, rfl, ?_, hdrop' ▸ hps⟩
    by_contra hge
    exact hne (hdrop' ▸ List.drop_eq_nil_of_le (Nat.not_lt.mp hge))
  cases hframed with
  | @call _ _ _ F callee hp code back rest =>
    refine ⟨F, code, ?_⟩
    rw [hp] at ht
    simp only [resolveTerm] at ht
    split at ht
    · cases ht
    · next base hbase =>
      rw [← Except.ok.inj ht]
      exact .call (h.enters_function hbase) (hnext back rest)
  | @leave _ _ _ F hp code ground next rest =>
    refine ⟨F, code, ?_⟩
    rw [ground]
    cases hterm : p.term with
    | jmp target =>
      rw [hterm] at ht
      simp only [resolveTerm, bind_eq_ok, Comp.expect_eq_ok] at ht
      obtain ⟨base, hbase, idx, hidx, ht⟩ := ht
      rw [← Except.ok.inj ht]
      exact .jmp (h.enters_local hbase hidx)
    | jz r target =>
      rw [hterm] at ht
      simp only [resolveTerm, bind_eq_ok, Comp.expect_eq_ok] at ht
      obtain ⟨base, hbase, idx, hidx, ht⟩ := ht
      rw [← Except.ok.inj ht]
      exact .jz r (h.enters_local hbase hidx) (hnext (next r target hterm) rest)
    | call callee => exact absurd hterm (hp callee)
    | ret =>
      rw [hterm] at ht
      rw [← Except.ok.inj ht]
      exact .ret

/-- The blocks of a compiled module agree on the stack pointer, also with further blocks behind
them. -/
theorem Layout.frameTyped (h : Layout M c lowered) (hok : validateModule M = .ok ())
    (hbelow : ∀ q ∈ ownedPending lowered, BelowStack q.2.instructions) {P : Program}
    (hP : c.program.blocks <+: P.blocks) : FrameTyped P (Enters lowered) := by
  rintro n o ⟨i, rfl, hi, hframed⟩
  have hall : (ownedPending lowered).map Prod.snd = allPending lowered := by
    simp [ownedPending, allPending, List.map_flatMap]
  obtain ⟨q, hq, hqp⟩ : ∃ q, (ownedPending lowered)[i]? = some q ∧ q.2 = (allPending lowered)[i] := by
    have hsome : ((ownedPending lowered).map Prod.snd)[i]? = some (allPending lowered)[i] := by
      rw [hall, List.getElem?_eq_getElem hi]
    rw [List.getElem?_map, Option.map_eq_some_iff] at hsome
    exact hsome
  obtain ⟨first, rest, hblocks, hres⟩ := h.blocks
  obtain ⟨blk, hblk, hb⟩ := (resolveAll_ok hres).2 i q.1 q.2 hq
  obtain ⟨t, ht, hinst⟩ := resolveBlock_ok hb
  have hdrop := List.drop_eq_getElem_cons hi
  rw [← hqp] at hdrop
  rw [hdrop] at hframed
  obtain ⟨F, hsteps, hdep⟩ := (h.allFramed hok).departs hdrop hframed ht
  refine ⟨blk, q.2.instructions, t, F, ?_, hinst, hsteps, hbelow q (List.mem_of_getElem? hq), hdep⟩
  have hc : c.program.blocks[i + 1]? = some blk := by
    rw [hblocks]
    exact hblk
  obtain ⟨more, hmore⟩ := hP
  rw [← hmore, List.getElem?_append_left (List.getElem?_eq_some_iff.mp hc).1]
  exact hc

end Program

end Codegen
end Chakobsa
