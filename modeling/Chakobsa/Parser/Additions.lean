import Chakobsa.Parser.Stage

/-!
# What look-ups add

A look-up adds phis and fills phis in, and does neither in the entry block: that block is sealed
and has no predecessors, and a look-up that is not lost asks for nothing there that it does not
have. Phis that are added have ids that were not in use, and what a variable is bound to is in use
(`Adds`).
-/

namespace Chakobsa
namespace Parser

open Ir ExceptLemmas

namespace SsaBuilder

variable {ε : Type}

/-- The entry block is as it was in the beginning, as far as look-ups go. -/
structure Rooted (B : SsaBuilder) : Prop where
  indexed : B.func.Indexed
  isSealed : B.isSealed 0 = true
  preds : B.preds 0 = []

/-- Variables are bound to ids in use. -/
def Below (B : SsaBuilder) : Prop := ∀ b x v, B.currentDef b x = some v → v < B.nextValue

/-- What a look-up changes in the instructions: the entry block keeps its own, and another block gets
new ones at most. -/
structure Adds (B B' : SsaBuilder) : Prop where
  rooted : B'.Rooted
  nextValue : B.nextValue ≤ B'.nextValue
  insts : ∀ b, ∀ i ∈ B'.func.instsAt b, i ∈ B.func.instsAt b ∨
    b ≠ 0 ∧ ((∃ j ∈ B.func.instsAt b, j.id = i.id) ∨ B.nextValue ≤ i.id)
  below : B.Below → B'.Below

section Adds

variable {B B' B'' : SsaBuilder} {b : BlockId} {x : String} {v : ValueId}

theorem Adds.refl (h : B.Rooted) : Adds B B := ⟨h, Nat.le_refl _, fun _ _ hi => .inl hi, id⟩

theorem Adds.trans (h : Adds B B') (h' : Adds B' B'') : Adds B B'' := by
  refine ⟨h'.rooted, Nat.le_trans h.nextValue h'.nextValue, fun b i hi => ?_,
    fun hb => h'.below (h.below hb)⟩
  rcases h'.insts b i hi with hi | ⟨hne, ⟨j, hj, hid⟩ | hle⟩
  · exact h.insts b i hi
  · -- an instruction that has been there under this id since `B'`
    rcases h.insts b j hj with hj | ⟨-, ⟨k, hk, hkj⟩ | hle⟩
    · exact .inr ⟨hne, .inl ⟨j, hj, hid⟩⟩
    · exact .inr ⟨hne, .inl ⟨k, hk, hkj.trans hid⟩⟩
    · exact .inr ⟨hne, .inr (hid ▸ hle)⟩
  · exact .inr ⟨hne, .inr (Nat.le_trans h.nextValue hle)⟩

/-- The block that is changed exists. -/
theorem lt_of_modifyBlock {g : BasicBlock → BasicBlock} {l l' : List BasicBlock}
    (h : modifyBlock g b l = some l') (hl : ∀ (k : ℕ) (blk : BasicBlock), l[k]? = some blk → blk.id = k) :
    b < l.length := by
  by_contra hlt
  have hne : ∀ blk ∈ l, blk.id ≠ b := by
    intro blk hblk
    obtain ⟨k, hk, hget⟩ := List.getElem_of_mem hblk
    rw [hl k blk (by rw [List.getElem?_eq_getElem hk, hget])]
    exact Nat.ne_of_lt (Nat.lt_of_lt_of_le hk (Nat.not_lt.mp hlt))
  clear hl hlt
  induction l generalizing l' with
  | nil => cases h
  | cons blk l ih =>
    rw [modifyBlock, if_neg (hne blk List.mem_cons_self)] at h
    obtain ⟨l'', h', -⟩ := Option.map_eq_some_iff.mp h
    exact ih h' fun c hc => hne c (List.mem_cons_of_mem _ hc)

/-- The effect of `block_mut`, where it has one. -/
theorem blockMut_effect (h : B.func.Indexed) {g : BasicBlock → BasicBlock}
    (hok : (B.blockMut b g : BuildM ε _) = .ok B') :
    b < B.func.blocks.length ∧ B' = { B with func := B.func.modify b g } := by
  obtain ⟨blocks, hblocks, -⟩ := bind_eq_ok.mp hok
  have hb := lt_of_modifyBlock (Comp.expect_eq_ok.mp hblocks) h
  exact ⟨hb, (Except.ok.inj ((blockMut_ok h hb g).symm.trans hok)).symm⟩

/-- Another phi outside the entry block. -/
theorem Adds.emit (h : B.Rooted) (hne : b ≠ 0) {ty : Ty} {kind : InstKind} {r : ValueId × SsaBuilder}
    (hok : (B.emit b ty kind : BuildM ε _) = .ok r) : Adds B r.2 ∧ r.1 < r.2.nextValue := by
  obtain ⟨next, hnext, hret⟩ := bind_eq_ok.mp hok
  obtain rfl : B.nextValue + 1 = next := Except.ok.inj hnext
  obtain ⟨B₁, h₁, hret⟩ := bind_eq_ok.mp hret
  have hb : b < B.func.blocks.length := (blockMut_effect (B := { B with
    nextValue := B.nextValue + 1
    valueTypes := insertAt B.valueTypes B.nextValue (some ty) }) h.indexed h₁).1
  obtain rfl := Except.ok.inj (hok.symm.trans (emit_ok h.indexed hb ty kind))
  refine ⟨⟨⟨h.indexed.modify fun _ => rfl, h.isSealed, h.preds⟩, Nat.le_succ _, fun c i hi => ?_,
    fun hbel c y w hw => Nat.lt_succ_of_lt (hbel c y w hw)⟩, Nat.lt_succ_self _⟩
  change i ∈ (B.emitted b ty kind).func.instsAt c at hi
  rw [instsAt_emitted hb] at hi
  split at hi
  · next hc =>
    subst hc
    rcases List.mem_append.mp hi with hi | hi
    · exact .inl hi
    · obtain rfl := List.mem_singleton.mp hi
      exact .inr ⟨hne, .inr (Nat.le_refl _)⟩
  · exact .inl hi

theorem Adds.write (h : B.Rooted) (hv : B.Below → v < B.nextValue) :
    Adds B (B.writeVariable x b v) := by
  refine ⟨⟨h.indexed, h.isSealed, h.preds⟩, Nat.le_refl _, fun _ _ hi => .inl hi, fun hbel c y w hw => ?_⟩
  change insertAt B.currentDef b (insertAt (B.currentDef b) x (some v)) c y = some w at hw
  unfold insertAt at hw
  split at hw
  · next hc =>
    subst hc
    change (if y = x then some v else B.currentDef c y) = some w at hw
    split at hw
    · exact Option.some.inj hw ▸ hv hbel
    · exact hbel c y w hw
  · exact hbel c y w hw

theorem Adds.park (h : B.Rooted) : Adds B (B.park b x v) :=
  ⟨⟨h.indexed, h.isSealed, h.preds⟩, Nat.le_refl _, fun _ _ hi => .inl hi, id⟩

theorem setKind_ids {kind : InstKind} {l l' : List Instruction} (h : setKind v kind l = some l') :
    ∀ i ∈ l', ∃ j ∈ l, j.id = i.id := by
  induction l generalizing l' with
  | nil => cases h
  | cons j l ih =>
    rw [setKind] at h
    split at h
    · obtain rfl := Option.some.inj h
      intro i hi
      rcases List.mem_cons.mp hi with rfl | hi
      · exact ⟨j, List.mem_cons_self, rfl⟩
      · exact ⟨i, List.mem_cons_of_mem _ hi, rfl⟩
    · obtain ⟨l'', h'', rfl⟩ := Option.map_eq_some_iff.mp h
      intro i hi
      rcases List.mem_cons.mp hi with rfl | hi
      · exact ⟨i, List.mem_cons_self, rfl⟩
      · obtain ⟨k, hk, hid⟩ := ih h'' i hi
        exact ⟨k, List.mem_cons_of_mem _ hk, hid⟩

/-! ### Look-ups -/

/-- A reader that only adds, and returns an id in use. -/
def ReadsAdd (read : SsaBuilder → BlockId → BuildM ε (ValueId × SsaBuilder)) : Prop :=
  ∀ B b r, B.Rooted → read B b = .ok r → Adds B r.2 ∧ (B.Below → r.1 < r.2.nextValue)

section

variable {read : SsaBuilder → BlockId → BuildM ε (ValueId × SsaBuilder)}

theorem readPreds_adds (hread : ReadsAdd read) {ps : List BlockId}
    {r : List (BlockId × ValueId) × SsaBuilder} (h : B.Rooted) (hok : readPreds read B ps = .ok r) :
    Adds B r.2 := by
  induction ps generalizing B r with
  | nil =>
    obtain rfl := Except.ok.inj hok
    exact .refl h
  | cons p ps ih =>
    obtain ⟨⟨v, B₁⟩, h₁, hok⟩ := bind_eq_ok.mp hok
    obtain ⟨⟨incoming, B₂⟩, h₂, hok⟩ := bind_eq_ok.mp hok
    obtain rfl := Except.ok.inj hok
    have hadds : Adds B B₁ := (hread B p _ h h₁).1
    exact hadds.trans (ih (r := (incoming, B₂)) hadds.rooted h₂)

theorem addPhiOperands_adds (hread : ReadsAdd read) {phi : ValueId} (h : B.Rooted) (hne : b ≠ 0)
    (hok : addPhiOperands read B phi b = .ok B') : Adds B B' := by
  obtain ⟨⟨incoming, B₁⟩, h₁, hok⟩ := bind_eq_ok.mp hok
  obtain ⟨blk, hblk, hok⟩ := bind_eq_ok.mp hok
  obtain ⟨insts, hinsts, hok⟩ := bind_eq_ok.mp hok
  have hadds := readPreds_adds hread h h₁
  obtain ⟨hb, rfl⟩ := blockMut_effect hadds.rooted.indexed hok
  have hblk' := (hadds.rooted.indexed.block_some_iff.mp (Comp.expect_eq_ok.mp hblk)).2
  refine hadds.trans ⟨⟨hadds.rooted.indexed.modify fun _ => rfl, hadds.rooted.isSealed,
    hadds.rooted.preds⟩, Nat.le_refl _, fun c i hi => ?_, id⟩
  rw [Function.instsAt_modify b (fun _ => insts) hb] at hi
  split at hi
  · next hc =>
    subst hc
    obtain ⟨j, hj, hid⟩ := setKind_ids (Comp.expect_eq_ok.mp hinsts) i hi
    rw [hblk'] at hj
    exact .inr ⟨hne, .inl ⟨j, hj, hid⟩⟩
  · exact .inl hi

/-- One level of the recursion, in a block that the look-up is not lost in. -/
theorem readVariableRecursive_adds (hread : ReadsAdd read) {ty : Ty} {r : ValueId × SsaBuilder}
    (h : B.Rooted) (hlost : ¬ (B.isSealed b = true ∧ B.preds b = []))
    (hok : readVariableRecursive read x ty B b = .ok r) :
    Adds B r.2 ∧ (B.Below → r.1 < r.2.nextValue) := by
  have hne : b ≠ 0 := fun hb => hlost (hb ▸ ⟨h.isSealed, h.preds⟩)
  unfold readVariableRecursive at hok
  dsimp only at hok
  split at hok
  · obtain ⟨⟨phi, B₁⟩, h₁, hok⟩ := bind_eq_ok.mp hok
    obtain rfl := Except.ok.inj hok
    obtain ⟨hadds, hlt⟩ := Adds.emit h hne h₁
    have hpark := hadds.trans (Adds.park (b := b) (x := x) (v := phi) hadds.rooted)
    exact ⟨hpark.trans (.write hpark.rooted fun _ => hlt), fun _ => hlt⟩
  · next hs =>
    have hs : B.isSealed b = true := by simpa using hs
    split at hok
    · next hp => exact absurd ⟨hs, hp⟩ hlost
    · next p hp =>
      obtain ⟨⟨v, B₁⟩, h₁, hok⟩ := bind_eq_ok.mp hok
      obtain rfl := Except.ok.inj hok
      obtain ⟨hadds, hlt⟩ := hread B p _ h h₁
      refine ⟨⟨⟨hadds.rooted.indexed, hadds.rooted.isSealed, hadds.rooted.preds⟩, hadds.nextValue,
        hadds.insts, fun hbel => ?_⟩, hlt⟩
      exact (Adds.write (x := x) (b := b) hadds.rooted fun _ => hlt hbel).below (hadds.below hbel)
    · obtain ⟨⟨phi, B₁⟩, h₁, hok⟩ := bind_eq_ok.mp hok
      obtain ⟨B₂, h₂, hok⟩ := bind_eq_ok.mp hok
      obtain rfl := Except.ok.inj hok
      obtain ⟨hadds, hlt⟩ := Adds.emit h hne h₁
      have hbound := hadds.trans (.write (x := x) (b := b) (v := phi) hadds.rooted fun _ => hlt)
      have hfilled := addPhiOperands_adds hread hbound.rooted hne h₂
      have hlt₂ : phi < B₂.nextValue := Nat.lt_of_lt_of_le hlt hfilled.nextValue
      have hall := hbound.trans hfilled
      exact ⟨hall.trans (.write hall.rooted fun _ => hlt₂), fun _ => hlt₂⟩

end

/-- Lost look-ups end without a value. -/
abbrev lost : SsaBuilder → BlockId → BuildM ε (ValueId × SsaBuilder) := fun _ _ => .error .outOfFuel

theorem strictRead_adds (x : String) (ty : Ty) (n : ℕ) :
    ReadsAdd (strictRead lost x ty n : _ → _ → BuildM ε _) := by
  induction n with
  | zero =>
    intro B b r _ hok
    cases hok
  | succ n ih =>
    intro B b r h hok
    rw [strictRead] at hok
    split at hok
    · next v hv =>
      obtain rfl := Except.ok.inj hok
      exact ⟨.refl h, fun hbel => hbel b x v hv⟩
    · split at hok
      · cases hok
      · next hlost => exact readVariableRecursive_adds ih h hlost hok

theorem strictFill_adds {pending : List (String × ValueId)} (h : B.Rooted) (hne : b ≠ 0)
    (hok : (strictFill lost b B pending : BuildM ε _) = .ok B') : Adds B B' := by
  induction pending generalizing B with
  | nil =>
    obtain rfl := Except.ok.inj hok
    exact .refl h
  | cons e pending ih =>
    obtain ⟨ty, -, hok⟩ := bind_eq_ok.mp hok
    obtain ⟨B₁, h₁, hok⟩ := bind_eq_ok.mp hok
    have hadds := addPhiOperands_adds (strictRead_adds _ _ _) h hne h₁
    exact hadds.trans (ih hadds.rooted hok)

/-- A look-up of a variable that is known. -/
theorem Adds.read (h : B.Sound) (hroot : B.Rooted) (hr : B.Reach b) (hx : B.Known x b) {ty : Ty}
    {r : ValueId × SsaBuilder} (hok : (B.read x b ty : BuildM ε _) = .ok r) :
    Adds B r.2 ∧ (B.Below → r.1 < r.2.nextValue) :=
  strictRead_adds x ty _ B b r hroot (read_strict lost h hr hx hok).1

/-- The look-ups of a block that is sealed. -/
theorem Adds.sealBlock (h : B.Sound) (hroot : B.Rooted) (hne : b ≠ 0) (hg : B.GroundedAt b)
    (hok : (B.sealBlock b : BuildM ε _) = .ok B') : Adds B B' := by
  obtain ⟨hok', -⟩ := seal_strict lost h hg hok
  obtain ⟨B₁, h₁, hret⟩ := bind_eq_ok.mp hok'
  obtain rfl := Except.ok.inj hret
  have hroot' : Rooted { B with incompletePhis := insertAt B.incompletePhis b [] } :=
    ⟨hroot.indexed, hroot.isSealed, hroot.preds⟩
  have hadds := strictFill_adds hroot' hne h₁
  refine ⟨⟨hadds.rooted.indexed, ?_, hadds.rooted.preds⟩, hadds.nextValue, hadds.insts, hadds.below⟩
  show insertAt B₁.isSealed b true 0 = true
  rw [insertAt, if_neg hne.symm]
  exact hadds.rooted.isSealed

end Adds

end SsaBuilder

end Parser
end Chakobsa
