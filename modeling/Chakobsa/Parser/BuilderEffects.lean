import Chakobsa.Parser.SsaBuilder
import Mathlib.Data.List.Perm.Basic

/-!
# What the builder's operations do

The blocks of a function under construction carry their position as id (`Indexed`). On such a
function no operation of the builder fails, and each is a plain update of the record: `emitted`,
`filled` and `terminated` below. The instructions and the terminator of a block are read with
`instsAt` and `termAt`, which the updates change at one block only.
-/

namespace Chakobsa

namespace Ir

/-- The block at position `k` has id `k`. -/
def Function.Indexed (f : Function) : Prop :=
  ∀ (k : ℕ) (blk : BasicBlock), f.blocks[k]? = some blk → blk.id = k

/-- The instructions of a block; none if there is no such block. -/
def Function.instsAt (f : Function) (b : BlockId) : List Instruction :=
  ((f.blocks[b]?).map (·.instructions)).getD []

/-- The terminator of a block. -/
def Function.termAt (f : Function) (b : BlockId) : Option Terminator :=
  (f.blocks[b]?).bind (·.terminator)

/-- The successors a terminator has, if there is one. -/
def succsOfTerm (t : Option Terminator) : List BlockId := (t.map Terminator.successors).getD []

/-- `f` with the block at position `b` changed by `g`. -/
def Function.modify (f : Function) (b : BlockId) (g : BasicBlock → BasicBlock) : Function :=
  { f with blocks := f.blocks.modify b g }

namespace Function

variable {f : Function}

theorem find_indexed {l : List BasicBlock} (off : ℕ)
    (h : ∀ k blk, l[k]? = some blk → blk.id = off + k) (b : ℕ) :
    l.find? (fun blk => blk.id == off + b) = l[b]? := by
  induction l generalizing off b with
  | nil => simp
  | cons blk l ih =>
    have hid : blk.id = off := h 0 blk rfl
    have htail : ∀ k c, l[k]? = some c → c.id = (off + 1) + k := by
      intro k c hc
      have := h (k + 1) c (by simpa using hc)
      omega
    cases b with
    | zero => simp [hid]
    | succ b =>
      rw [List.find?_cons_of_neg (by simp [hid]), List.getElem?_cons_succ, ← ih _ htail b]
      congr 1
      funext c
      rw [show off + (b + 1) = off + 1 + b by omega]

theorem Indexed.block_eq (h : f.Indexed) (b : BlockId) : f.block b = f.blocks[b]? := by
  have := find_indexed 0 (fun k blk hk => by simpa using h k blk hk) b
  simpa [block] using this

/-- A block of an indexed function, in terms of `instsAt` and `termAt`. -/
theorem Indexed.block_some_iff (h : f.Indexed) {b : BlockId} {blk : BasicBlock} :
    f.block b = some blk ↔ b < f.blocks.length ∧ blk = ⟨b, f.instsAt b, f.termAt b⟩ := by
  rw [h.block_eq]
  constructor
  · intro hb
    have hinsts : f.instsAt b = blk.instructions := by simp [instsAt, hb]
    have hterm : f.termAt b = blk.terminator := by simp [termAt, hb]
    rw [hinsts, hterm, ← h b blk hb]
    exact ⟨(h b blk hb).symm ▸ (List.getElem?_eq_some_iff.mp hb).1, rfl⟩
  · rintro ⟨hlt, rfl⟩
    obtain ⟨blk, hb⟩ : ∃ blk, f.blocks[b]? = some blk := ⟨_, List.getElem?_eq_getElem hlt⟩
    have hinsts : f.instsAt b = blk.instructions := by simp [instsAt, hb]
    have hterm : f.termAt b = blk.terminator := by simp [termAt, hb]
    rw [hinsts, hterm, hb, Option.some.injEq]
    exact congrArg (fun id => BasicBlock.mk id blk.instructions blk.terminator) (h b blk hb)

theorem termAt_of_length_le {b : BlockId} (h : f.blocks.length ≤ b) : f.termAt b = none := by
  simp [termAt, List.getElem?_eq_none h]

@[simp] theorem modify_length (b : BlockId) (g : BasicBlock → BasicBlock) :
    (f.modify b g).blocks.length = f.blocks.length := by
  simp [modify]

@[simp] theorem modify_params (b : BlockId) (g : BasicBlock → BasicBlock) :
    (f.modify b g).params = f.params := rfl

@[simp] theorem modify_retTy (b : BlockId) (g : BasicBlock → BasicBlock) :
    (f.modify b g).retTy = f.retTy := rfl

@[simp] theorem modify_name (b : BlockId) (g : BasicBlock → BasicBlock) :
    (f.modify b g).name = f.name := rfl

@[simp] theorem modify_entry (b : BlockId) (g : BasicBlock → BasicBlock) :
    (f.modify b g).entry = f.entry := rfl

theorem modify_getElem? (b : BlockId) (g : BasicBlock → BasicBlock) (c : BlockId) :
    (f.modify b g).blocks[c]? = if c = b then (f.blocks[c]?).map g else f.blocks[c]? := by
  simp only [modify, List.getElem?_modify]
  by_cases hc : c = b
  · simp [hc]
  · simp [hc, Ne.symm hc]

theorem Indexed.modify (h : f.Indexed) {b : BlockId} {g : BasicBlock → BasicBlock}
    (hg : ∀ blk, (g blk).id = blk.id) : (f.modify b g).Indexed := by
  intro k blk hk
  rw [modify_getElem?] at hk
  split at hk
  · obtain ⟨c, hc, rfl⟩ := Option.map_eq_some_iff.mp hk
    rw [hg]
    exact h k c hc
  · exact h k blk hk

/-- The change of a block's instructions. -/
theorem instsAt_modify (b : BlockId) (g : List Instruction → List Instruction)
    (hb : b < f.blocks.length) (c : BlockId) :
    (f.modify b fun blk => { blk with instructions := g blk.instructions }).instsAt c =
      if c = b then g (f.instsAt b) else f.instsAt c := by
  rw [instsAt, modify_getElem?]
  split
  · next hc =>
    subst hc
    simp [instsAt, List.getElem?_eq_getElem hb]
  · rfl

theorem termAt_modify_insts (b : BlockId) (g : List Instruction → List Instruction)
    (c : BlockId) :
    (f.modify b fun blk => { blk with instructions := g blk.instructions }).termAt c =
      f.termAt c := by
  rw [termAt, modify_getElem?]
  split
  · rw [termAt, Option.bind_map]
    rfl
  · rfl

/-- The change of a block's terminator. -/
theorem termAt_modify (b : BlockId) (t : Terminator) (hb : b < f.blocks.length) (c : BlockId) :
    (f.modify b fun blk => { blk with terminator := some t }).termAt c =
      if c = b then some t else f.termAt c := by
  rw [termAt, modify_getElem?]
  split
  · next hc =>
    subst hc
    simp [List.getElem?_eq_getElem hb]
  · rfl

theorem instsAt_modify_term (b : BlockId) (t : Terminator) (c : BlockId) :
    (f.modify b fun blk => { blk with terminator := some t }).instsAt c = f.instsAt c := by
  rw [instsAt, modify_getElem?]
  split
  · rw [instsAt, Option.map_map]
    rfl
  · rfl

/-- The predecessors, block by block. -/
theorem Indexed.predecessors_eq (h : f.Indexed) (b : BlockId) :
    f.predecessors b = (List.range f.blocks.length).flatMap fun p =>
      ((succsOfTerm (f.termAt p)).filter (· == b)).map fun _ => p := by
  have hblocks : f.blocks = (List.range f.blocks.length).map fun p =>
      ⟨p, f.instsAt p, f.termAt p⟩ := by
    apply List.ext_getElem?
    intro k
    by_cases hk : k < f.blocks.length
    · rw [← h.block_eq, List.getElem?_map, List.getElem?_range hk]
      exact h.block_some_iff.mpr ⟨hk, rfl⟩
    · rw [List.getElem?_eq_none (by omega), List.getElem?_eq_none (by simpa using hk)]
  rw [predecessors]
  conv_lhs => rw [hblocks]
  rw [List.flatMap_map]
  rfl

theorem Indexed.mem_predecessors (h : f.Indexed) {p b : BlockId} :
    p ∈ f.predecessors b ↔ p < f.blocks.length ∧ b ∈ succsOfTerm (f.termAt p) := by
  rw [h.predecessors_eq]
  simp only [List.mem_flatMap, List.mem_range, List.mem_map, List.mem_filter, beq_iff_eq]
  constructor
  · rintro ⟨q, hq, s, ⟨hs, rfl⟩, rfl⟩
    exact ⟨hq, hs⟩
  · rintro ⟨hp, hs⟩
    exact ⟨p, hp, b, ⟨hs, rfl⟩, rfl⟩

/-- Giving a block its terminator adds an edge to each of its successors. -/
theorem Indexed.predecessors_terminated (h : f.Indexed) {p : BlockId} (t : Terminator)
    (hp : p < f.blocks.length) (hterm : f.termAt p = none) (b : BlockId) :
    ((f.modify p fun blk => { blk with terminator := some t }).predecessors b).Perm
      (f.predecessors b ++ (t.successors.filter (· == b)).map fun _ => p) := by
  have h' : (f.modify p fun blk => { blk with terminator := some t }).Indexed :=
    h.modify fun _ => rfl
  rw [h'.predecessors_eq, h.predecessors_eq, modify_length]
  obtain ⟨l₁, l₂, hl⟩ := List.append_of_mem (List.mem_range.mpr hp)
  have hnd : (l₁ ++ p :: l₂).Nodup := hl ▸ List.nodup_range
  have hnot : ∀ q ∈ l₁ ++ l₂, q ≠ p := by
    intro q hq he
    subst he
    simp only [List.nodup_append, List.nodup_cons, List.mem_cons] at hnd
    rcases List.mem_append.mp hq with hq | hq
    · exact hnd.2.2 q hq q (.inl rfl) rfl
    · exact hnd.2.1.1 hq
  have hsame : ∀ l : List ℕ, (∀ q ∈ l, q ≠ p) →
      l.flatMap (fun q => ((succsOfTerm ((f.modify p fun blk =>
          { blk with terminator := some t }).termAt q)).filter (· == b)).map fun _ => q) =
        l.flatMap fun q => ((succsOfTerm (f.termAt q)).filter (· == b)).map fun _ => q := by
    intro l hl
    refine List.flatMap_congr fun q hq => ?_
    rw [termAt_modify p t hp, if_neg (hl q hq)]
  rw [hl, List.flatMap_append, List.flatMap_append, List.flatMap_cons, List.flatMap_cons,
    hsame l₁ fun q hq => hnot q (List.mem_append_left _ hq),
    hsame l₂ fun q hq => hnot q (List.mem_append_right _ hq), termAt_modify p t hp, if_pos rfl,
    hterm]
  simp only [succsOfTerm, Option.map_some, Option.getD_some, Option.map_none, Option.getD_none,
    List.filter_nil, List.map_nil, List.nil_append, List.append_assoc]
  exact List.Perm.append_left _ List.perm_append_comm

/-- Changes that keep the terminators keep the predecessors. -/
theorem Indexed.predecessors_congr {f' : Function} (h : f.Indexed) (h' : f'.Indexed)
    (hlen : f'.blocks.length = f.blocks.length) (hterm : ∀ p, f'.termAt p = f.termAt p)
    (b : BlockId) : f'.predecessors b = f.predecessors b := by
  rw [h.predecessors_eq, h'.predecessors_eq, hlen]
  simp only [hterm]

end Function

end Ir

namespace Parser

open Ir ExceptLemmas

namespace SsaBuilder

variable {ε : Type} {B : SsaBuilder}

/-- The effect of `emit`. -/
def emitted (B : SsaBuilder) (b : BlockId) (ty : Ty) (kind : InstKind) : SsaBuilder :=
  { B with
    nextValue := B.nextValue + 1
    valueTypes := insertAt B.valueTypes B.nextValue (some ty)
    func := B.func.modify b fun blk =>
      { blk with instructions := blk.instructions ++ [⟨B.nextValue, ty, kind⟩] } }

/-- The effect of filling in a phi's operands. -/
def filled (B : SsaBuilder) (b : BlockId) (phi : ValueId) (incoming : List (BlockId × ValueId)) :
    SsaBuilder :=
  { B with
    func := B.func.modify b fun blk =>
      { blk with instructions := blk.instructions.map fun i =>
          if i.id = phi then { i with kind := .phi incoming } else i } }

/-- The effect of `terminate`. -/
def terminated (B : SsaBuilder) (b : BlockId) (term : Terminator) : SsaBuilder :=
  { B with
    preds := term.successors.foldl (fun m s => insertAt m s (m s ++ [b])) B.preds
    func := B.func.modify b fun blk => { blk with terminator := some term } }

theorem modifyBlock_eq {g : BasicBlock → BasicBlock} {l : List BasicBlock} (off : ℕ) {b : ℕ}
    (h : ∀ k blk, l[k]? = some blk → blk.id = off + k) (hb : b < l.length) :
    modifyBlock g (off + b) l = some (l.modify b g) := by
  induction l generalizing off b with
  | nil => simp at hb
  | cons blk l ih =>
    have hid : blk.id = off := h 0 blk rfl
    have htail : ∀ k c, l[k]? = some c → c.id = (off + 1) + k := by
      intro k c hc
      have := h (k + 1) c (by simpa using hc)
      omega
    cases b with
    | zero => simp [modifyBlock, hid]
    | succ b =>
      have hne : ¬ blk.id = off + (b + 1) := by
        rw [hid]
        exact fun he => by simp at he
      rw [modifyBlock, if_neg hne, show off + (b + 1) = off + 1 + b from
        (Nat.add_right_comm off 1 b).symm, ih _ htail (Nat.lt_of_succ_lt_succ hb)]
      rfl

theorem blockMut_ok (h : B.func.Indexed) {b : BlockId} (hb : b < B.func.blocks.length)
    (g : BasicBlock → BasicBlock) :
    (B.blockMut b g : BuildM ε SsaBuilder) = .ok { B with func := B.func.modify b g } := by
  have := modifyBlock_eq (g := g) 0 (fun k blk hk => by simpa using h k blk hk) hb
  rw [Nat.zero_add] at this
  simp only [blockMut, this, Comp.expect_some, ok_bind]
  rfl

theorem emit_ok (h : B.func.Indexed) {b : BlockId} (hb : b < B.func.blocks.length) (ty : Ty)
    (kind : InstKind) :
    (B.emit b ty kind : BuildM ε _) = .ok (B.nextValue, B.emitted b ty kind) := by
  have hB := blockMut_ok (ε := ε) (B := { B with
    nextValue := B.nextValue + 1
    valueTypes := insertAt B.valueTypes B.nextValue (some ty) }) h hb fun blk =>
      { blk with instructions := blk.instructions ++ [⟨B.nextValue, ty, kind⟩] }
  simp only [emit, Counter.succ_unbounded, Comp.expect_some, hB, ok_bind]
  rfl

theorem terminate_ok (h : B.func.Indexed) {b : BlockId} (hb : b < B.func.blocks.length)
    (term : Terminator) :
    (B.terminate b term : BuildM ε _) = .ok (B.terminated b term) := by
  exact blockMut_ok (B := { B with
    preds := term.successors.foldl (fun m s => insertAt m s (m s ++ [b])) B.preds }) h hb fun blk =>
      { blk with terminator := some term }

theorem isTerminated_eq (h : B.func.Indexed) (b : BlockId) :
    B.isTerminated b = (B.func.termAt b).isSome := by
  rw [isTerminated, h.block_eq]
  unfold Function.termAt
  cases B.func.blocks[b]? <;> rfl

theorem setKind_eq {phi : ValueId} {kind : InstKind} {l : List Instruction}
    (hnd : (l.map (·.id)).Nodup) (hm : phi ∈ l.map (·.id)) :
    setKind phi kind l = some (l.map fun i => if i.id = phi then { i with kind := kind } else i) := by
  induction l with
  | nil => simp at hm
  | cons i l ih =>
    rw [List.map_cons, List.nodup_cons] at hnd
    rw [setKind, List.map_cons]
    split
    · next hi =>
      -- no later instruction has the id
      have : l.map (fun j => if j.id = phi then { j with kind := kind } else j) = l := by
        refine (List.map_congr_left fun j hj => if_neg fun he => ?_).trans (List.map_id _)
        exact hnd.1 (hi ▸ he ▸ List.mem_map_of_mem hj)
      rw [this]
    · next hi =>
      rw [List.map_cons, List.mem_cons] at hm
      rw [ih hnd.2 (hm.resolve_left (Ne.symm hi))]
      rfl

/-- `add_phi_operands`, once the operands are read. -/
theorem addPhiOperands_eq {read : SsaBuilder → BlockId → BuildM ε (ValueId × SsaBuilder)}
    {phi : ValueId} {b : BlockId} {incoming : List (BlockId × ValueId)} {B' : SsaBuilder}
    (hread : readPreds read B (B.preds b) = .ok (incoming, B')) (h : B'.func.Indexed)
    (hb : b < B'.func.blocks.length) (hnd : ((B'.func.instsAt b).map (·.id)).Nodup)
    (hm : phi ∈ (B'.func.instsAt b).map (·.id)) :
    addPhiOperands read B phi b = .ok (B'.filled b phi incoming) := by
  have hblk : B'.func.block b = some ⟨b, B'.func.instsAt b, B'.func.termAt b⟩ :=
    h.block_some_iff.mpr ⟨hb, rfl⟩
  simp only [addPhiOperands, hread, ok_bind, hblk, Comp.expect_some, setKind_eq hnd hm]
  rw [blockMut_ok h hb, filled]
  congr 2
  -- the block changed is the one that was read
  simp only [Function.modify]
  congr 1
  apply List.ext_getElem?
  intro k
  simp only [List.getElem?_modify]
  by_cases hk : b = k
  · subst hk
    rw [← h.block_eq, hblk]
    simp
  · simp [hk]

theorem preds_terminated (b : BlockId) (term : Terminator) (c : BlockId) :
    (B.terminated b term).preds c = B.preds c ++ (term.successors.filter (· == c)).map fun _ => b := by
  have hfold : ∀ (l : List BlockId) (m : BlockId → List BlockId),
      l.foldl (fun m s => insertAt m s (m s ++ [b])) m c =
        m c ++ (l.filter (· == c)).map fun _ => b := by
    intro l
    induction l with
    | nil => intro m; simp
    | cons s l ih =>
      intro m
      rw [List.foldl_cons, ih]
      by_cases hs : s = c
      · subst hs
        simp [insertAt]
      · simp [insertAt, Ne.symm hs, hs]
  exact hfold _ _

/-- Binding a variable to the value it is bound to changes nothing. -/
theorem writeVariable_self {x : String} {b : BlockId} {v : ValueId}
    (h : B.currentDef b x = some v) : B.writeVariable x b v = B := by
  have : insertAt B.currentDef b (insertAt (B.currentDef b) x (some v)) = B.currentDef := by
    funext c y
    unfold insertAt
    by_cases hc : c = b
    · by_cases hy : y = x
      · simp [hc, hy, h]
      · simp [hc, hy]
    · simp [hc]
  rw [writeVariable, this]

end SsaBuilder

end Parser
end Chakobsa
