import Chakobsa.Parser.BuilderEffects

/-!
# The invariant of the builder

A `Ghost` state is a builder together with what the builder itself does not keep: for each block
the `log` of what its caller did there (`emit`, `write_variable`, `read_variable`), and for each
block and variable the definition that was found to reach the block's entry. Such an entry
definition is a phi the builder created in the block, or a copy of what reaches the end of its
only predecessor.

`BuilderInv` relates the two: `current_def` is the last write in the log or else the entry
definition, every instruction of a block is in its log or is such a phi, and a phi of a sealed
block lists for every predecessor the definition that reaches the end of it. While operands are
being read, some phis are still empty: the invariant is relative to the phis in `Open` and to the
block `Closing` that is being sealed.
-/

namespace Chakobsa
namespace Parser

open Ir ExceptLemmas

/-- What the caller of the builder does in a block. -/
inductive Event where
  | inst (i : Instruction)
  | write (x : String) (v : ValueId)
  | read (x : String) (v : ValueId) (ty : Ty)
  deriving DecidableEq, Repr

/-- The definition of a variable that reaches a block's entry. -/
inductive EntryDef where
  /-- A phi created in the block. -/
  | phi (v : ValueId)
  /-- What reaches the end of the block's only predecessor. -/
  | copy (v : ValueId)
  deriving DecidableEq, Repr

/-- The value of an entry definition. -/
def EntryDef.val : EntryDef → ValueId
  | .phi v => v
  | .copy v => v

/-- The value last written to `x`. -/
def lastWrite (x : String) : List Event → Option ValueId
  | [] => none
  | e :: rest => (lastWrite x rest).or <| match e with
    | .write y v => if y = x then some v else none
    | _ => none

/-- The instructions emitted. -/
def instsOf (l : List Event) : List Instruction :=
  l.filterMap fun e => match e with
    | .inst i => some i
    | _ => none

/-- A builder with the history of its blocks. -/
structure Ghost where
  builder : SsaBuilder
  log : BlockId → List Event
  entryDef : BlockId → String → Option EntryDef

/-- The value of `x` after the events `l` in a block with the given entry definitions. -/
def defAfter (entry : String → Option EntryDef) (l : List Event) (x : String) : Option ValueId :=
  (lastWrite x l).or ((entry x).map EntryDef.val)

/-- The value of `x` at the end of the block. -/
def Ghost.outDef (g : Ghost) (b : BlockId) (x : String) : Option ValueId :=
  defAfter (g.entryDef b) (g.log b) x

/-! ### Logs -/

section Log

variable {x y : String} {v : ValueId} {ty : Ty} {l m : List Event} {entry : String → Option EntryDef}

theorem lastWrite_append : lastWrite x (l ++ m) = (lastWrite x m).or (lastWrite x l) := by
  induction l with
  | nil => simp [lastWrite]
  | cons e l ih => simp [lastWrite, ih, Option.or_assoc]

@[simp] theorem lastWrite_snoc_inst (i : Instruction) :
    lastWrite x (l ++ [.inst i]) = lastWrite x l := by simp [lastWrite_append, lastWrite]

@[simp] theorem lastWrite_snoc_read : lastWrite x (l ++ [.read y v ty]) = lastWrite x l := by
  simp [lastWrite_append, lastWrite]

@[simp] theorem lastWrite_snoc_write :
    lastWrite x (l ++ [.write y v]) = if y = x then some v else lastWrite x l := by
  by_cases h : y = x <;> simp [lastWrite_append, lastWrite, h]

@[simp] theorem defAfter_snoc_inst (i : Instruction) :
    defAfter entry (l ++ [.inst i]) x = defAfter entry l x := by simp [defAfter]

@[simp] theorem defAfter_snoc_read :
    defAfter entry (l ++ [.read y v ty]) x = defAfter entry l x := by simp [defAfter]

@[simp] theorem defAfter_snoc_write :
    defAfter entry (l ++ [.write y v]) x = if y = x then some v else defAfter entry l x := by
  by_cases h : y = x <;> simp [defAfter, h]

@[simp] theorem instsOf_append : instsOf (l ++ m) = instsOf l ++ instsOf m := by
  simp [instsOf]

@[simp] theorem instsOf_inst (i : Instruction) : instsOf [.inst i] = [i] := rfl

@[simp] theorem instsOf_write : instsOf [.write x v] = [] := rfl

@[simp] theorem instsOf_read : instsOf [.read x v ty] = [] := rfl

theorem mem_instsOf {i : Instruction} : i ∈ instsOf l ↔ Event.inst i ∈ l := by
  simp only [instsOf, List.mem_filterMap]
  constructor
  · rintro ⟨e, he, hi⟩
    cases e <;> simp_all
  · exact fun h => ⟨_, h, rfl⟩

end Log

/-! ### The invariant -/

/-- The control-flow graph of the builder. -/
structure GraphInv (B : SsaBuilder) : Prop where
  indexed : B.func.Indexed
  entry : B.func.entry = 0
  pos : 0 < B.func.blocks.length
  /-- A recorded edge is between blocks, and the first has a terminator. (It need not be the one
  the edge was recorded for: a `while` may terminate its header twice.) -/
  edges : ∀ b p : ℕ, p ∈ B.preds b →
    p < B.func.blocks.length ∧ b < B.func.blocks.length ∧ B.func.termAt p ≠ none
  entryPreds : B.preds 0 = []
  entrySealed : B.isSealed 0 = true
  sealedLt : ∀ b : ℕ, B.isSealed b = true → b < B.func.blocks.length

/-- The values of the builder. -/
structure ValueInv (B : SsaBuilder) : Prop where
  ids : ∀ b, ∀ i ∈ B.func.instsAt b, B.func.params.length ≤ i.id ∧ i.id < B.nextValue
  block : ∀ b c, ∀ i ∈ B.func.instsAt b, ∀ j ∈ B.func.instsAt c, i.id = j.id → b = c
  nodup : ∀ b, ((B.func.instsAt b).map (·.id)).Nodup
  params : B.func.params.length ≤ B.nextValue
  types : ∀ b, ∀ i ∈ B.func.instsAt b, B.valueTypes i.id = some i.ty
  paramTypes : ∀ v, v < B.func.params.length → B.valueTypes v = (B.func.params[v]?).map Prod.snd

/-- The log explains the current definitions and the instructions. -/
structure LogInv (g : Ghost) : Prop where
  cur : ∀ b x, g.builder.currentDef b x = g.outDef b x
  outside : ∀ b, g.builder.func.blocks.length ≤ b →
    g.log b = [] ∧ (∀ x, g.entryDef b x = none) ∧ g.builder.incompletePhis b = []
  /-- The instructions other than phis are the emitted ones, in order. -/
  body : ∀ b, (g.builder.func.instsAt b).filter (!·.kind.isPhi) =
    (instsOf (g.log b)).filter (!·.kind.isPhi)
  emitted : ∀ b, ∀ i ∈ instsOf (g.log b), i ∈ g.builder.func.instsAt b
  phis : ∀ b, ∀ i ∈ g.builder.func.instsAt b,
    i ∈ instsOf (g.log b) ∨ ∃ x, g.entryDef b x = some (.phi i.id)
  reads : ∀ b l x v ty r, g.log b = l ++ .read x v ty :: r → defAfter (g.entryDef b) l x = some v
  nodup : ∀ b, (instsOf (g.log b)).Nodup

/-- The operands of a phi for `x` are the definitions of `x` at the end of the predecessors. -/
def PhiMatches (g : Ghost) (b : BlockId) (x : String) (incoming : List (BlockId × ValueId)) :
    Prop :=
  List.Forall₂ (fun p e => e.1 = p ∧ g.outDef p x = some e.2) (g.builder.preds b) incoming

/-- A phi is parked until its block is sealed, or its operands are being read, or it has them. -/
def PhiState (g : Ghost) (Open : BlockId → String → ValueId → Prop) (Closing : BlockId → Prop)
    (b : BlockId) (x : String) (v : ValueId) (incoming : List (BlockId × ValueId)) : Prop :=
  (((x, v) ∈ g.builder.incompletePhis b ∨ Open b x v) ∧ incoming = []) ∨
    ((g.builder.isSealed b = true ∨ Closing b) ∧ PhiMatches g b x incoming)

/-- The entry definitions are what the builder found. -/
structure EntryInv (g : Ghost) (Open : BlockId → String → ValueId → Prop)
    (Closing : BlockId → Prop) : Prop where
  phi : ∀ b x v, g.entryDef b x = some (.phi v) → ∃ i ∈ g.builder.func.instsAt b, i.id = v ∧
    i ∉ instsOf (g.log b) ∧ ∃ incoming, i.kind = .phi incoming ∧
      PhiState g Open Closing b x v incoming
  inj : ∀ b x y v, g.entryDef b x = some (.phi v) → g.entryDef b y = some (.phi v) → x = y
  copy : ∀ b x v, g.entryDef b x = some (.copy v) → g.builder.isSealed b = true ∧
    ∃ p, g.builder.preds b = [p] ∧ g.outDef p x = some v
  incomplete : ∀ b x v, (x, v) ∈ g.builder.incompletePhis b →
    g.entryDef b x = some (.phi v) ∧ g.builder.isSealed b = false

/-- The invariant of the builder, relative to the phis whose operands are being read and the block
that is being sealed. -/
structure BuilderInv (g : Ghost) (Open : BlockId → String → ValueId → Prop)
    (Closing : BlockId → Prop) : Prop where
  graph : GraphInv g.builder
  values : ValueInv g.builder
  logs : LogInv g
  entries : EntryInv g Open Closing

/-- Between two calls no operand is being read. -/
abbrev Ghost.Ok (g : Ghost) : Prop := BuilderInv g (fun _ _ _ => False) (fun _ => False)

section Effects

variable {B : SsaBuilder} {b : BlockId}

/-! ### The graph and the values under the updates -/

/-- A predecessor has a terminator. -/
theorem GraphInv.pred_terminated (h : GraphInv B) {p : BlockId} (hp : p ∈ B.preds b) :
    B.func.termAt p ≠ none := (h.edges b p hp).2.2

theorem GraphInv.pred_lt (h : GraphInv B) {p : BlockId} (hp : p ∈ B.preds b) :
    p < B.func.blocks.length := (h.edges b p hp).1

theorem GraphInv.lt_of_pred (h : GraphInv B) {p : BlockId} (hp : p ∈ B.preds b) :
    b < B.func.blocks.length := (h.edges b p hp).2.1

theorem GraphInv.congr {B' : SsaBuilder} (h : GraphInv B) (hfunc : B'.func = B.func)
    (hpreds : B'.preds = B.preds) (hseal : B'.isSealed = B.isSealed) : GraphInv B' := by
  refine ⟨?_, ?_, ?_, ?_, ?_, ?_, ?_⟩ <;> simp only [hfunc, hpreds, hseal]
  exacts [h.indexed, h.entry, h.pos, h.edges, h.entryPreds, h.entrySealed, h.sealedLt]

theorem ValueInv.congr {B' : SsaBuilder} (h : ValueInv B) (hfunc : B'.func = B.func)
    (hnext : B'.nextValue = B.nextValue) (htypes : B'.valueTypes = B.valueTypes) :
    ValueInv B' := by
  refine ⟨?_, ?_, ?_, ?_, ?_, ?_⟩ <;> simp only [hfunc, hnext, htypes]
  exacts [h.ids, h.block, h.nodup, h.params, h.types, h.paramTypes]

/-- Changing the instructions of a block leaves the graph alone. -/
theorem GraphInv.modifyInsts {B' : SsaBuilder} (h : GraphInv B)
    {u : List Instruction → List Instruction}
    (hfunc : B'.func = B.func.modify b fun blk => { blk with instructions := u blk.instructions })
    (hpreds : B'.preds = B.preds) (hseal : B'.isSealed = B.isSealed) : GraphInv B' := by
  have hidx : B'.func.Indexed := hfunc ▸ h.indexed.modify fun _ => rfl
  have hlen : B'.func.blocks.length = B.func.blocks.length := by rw [hfunc]; simp
  have hterm : ∀ p, B'.func.termAt p = B.func.termAt p := fun p => by
    rw [hfunc, Function.termAt_modify_insts]
  refine ⟨hidx, by rw [hfunc]; exact h.entry, hlen ▸ h.pos, fun c p hp => ?_,
    hpreds ▸ h.entryPreds, hseal ▸ h.entrySealed, fun c hc => ?_⟩
  · rw [hlen, hterm]
    exact h.edges c p (hpreds ▸ hp)
  · rw [hlen]
    exact h.sealedLt c (hseal ▸ hc)

theorem GraphInv.emitted (h : GraphInv B) (ty : Ty) (kind : InstKind) :
    GraphInv (B.emitted b ty kind) :=
  h.modifyInsts (u := fun l => l ++ [Instruction.mk B.nextValue ty kind]) rfl rfl rfl

theorem GraphInv.filled (h : GraphInv B) (phi : ValueId) (incoming : List (BlockId × ValueId)) :
    GraphInv (B.filled b phi incoming) :=
  h.modifyInsts (u := List.map fun i => if i.id = phi then { i with kind := .phi incoming } else i)
    rfl rfl rfl

theorem instsAt_emitted (hb : b < B.func.blocks.length) (ty : Ty) (kind : InstKind) (c : BlockId) :
    (B.emitted b ty kind).func.instsAt c =
      if c = b then B.func.instsAt b ++ [⟨B.nextValue, ty, kind⟩] else B.func.instsAt c :=
  Function.instsAt_modify b (fun l => l ++ [Instruction.mk B.nextValue ty kind]) hb c

theorem instsAt_filled (hb : b < B.func.blocks.length) (phi : ValueId)
    (incoming : List (BlockId × ValueId)) (c : BlockId) :
    (B.filled b phi incoming).func.instsAt c =
      if c = b then (B.func.instsAt b).map fun i =>
        if i.id = phi then { i with kind := .phi incoming } else i
      else B.func.instsAt c :=
  Function.instsAt_modify b _ hb c

theorem ValueInv.emitted (h : ValueInv B) (hb : b < B.func.blocks.length) (ty : Ty)
    (kind : InstKind) : ValueInv (B.emitted b ty kind) := by
  have hmem : ∀ c, ∀ i ∈ (B.emitted b ty kind).func.instsAt c,
      i ∈ B.func.instsAt c ∨ c = b ∧ i = ⟨B.nextValue, ty, kind⟩ := by
    intro c i hi
    rw [instsAt_emitted hb] at hi
    split at hi
    · next hc =>
      subst hc
      rcases List.mem_append.mp hi with hi | hi
      · exact .inl hi
      · exact .inr ⟨rfl, by simpa using hi⟩
    · exact .inl hi
  refine ⟨fun c i hi => ?_, fun c d i hi j hj hij => ?_, fun c => ?_, ?_, fun c i hi => ?_,
    fun v hv => ?_⟩
  · show B.func.params.length ≤ i.id ∧ i.id < B.nextValue + 1
    rcases hmem c i hi with hi | ⟨-, rfl⟩
    · exact ⟨(h.ids c i hi).1, Nat.lt_succ_of_lt (h.ids c i hi).2⟩
    · exact ⟨h.params, Nat.lt_succ_self _⟩
  · -- the new id is greater than any other
    rcases hmem c i hi with hi' | ⟨hc, hi'⟩ <;> rcases hmem d j hj with hj' | ⟨hd, hj'⟩
    · exact h.block c d i hi' j hj' hij
    · subst hj'
      exact absurd hij (Nat.ne_of_lt (h.ids c i hi').2)
    · subst hi'
      exact absurd hij.symm (Nat.ne_of_lt (h.ids d j hj').2)
    · exact hc.trans hd.symm
  · rw [instsAt_emitted hb]
    split
    · rw [List.map_append, List.nodup_append]
      refine ⟨h.nodup b, by simp, fun v hv w hw => ?_⟩
      obtain ⟨i, hi, rfl⟩ := List.mem_map.mp hv
      obtain rfl : w = B.nextValue := by simpa using hw
      exact Nat.ne_of_lt (h.ids b i hi).2
    · exact h.nodup c
  · exact Nat.le_succ_of_le h.params
  · show insertAt B.valueTypes B.nextValue (some ty) i.id = some i.ty
    rcases hmem c i hi with hi | ⟨-, rfl⟩
    · rw [insertAt, if_neg (Nat.ne_of_lt (h.ids c i hi).2)]
      exact h.types c i hi
    · simp [insertAt]
  · show insertAt B.valueTypes B.nextValue (some ty) v = _
    have hlt : v ≠ B.nextValue := Nat.ne_of_lt (Nat.lt_of_lt_of_le hv h.params)
    rw [insertAt, if_neg hlt]
    exact h.paramTypes v hv

theorem ValueInv.filled (h : ValueInv B) (hb : b < B.func.blocks.length) (phi : ValueId)
    (incoming : List (BlockId × ValueId)) : ValueInv (B.filled b phi incoming) := by
  have hmem : ∀ c, ∀ i ∈ (B.filled b phi incoming).func.instsAt c,
      ∃ j ∈ B.func.instsAt c, j.id = i.id ∧ j.ty = i.ty := by
    intro c i hi
    rw [instsAt_filled hb] at hi
    split at hi
    · next hc =>
      subst hc
      obtain ⟨j, hj, rfl⟩ := List.mem_map.mp hi
      exact ⟨j, hj, by split <;> rfl, by split <;> rfl⟩
    · exact ⟨i, hi, rfl, rfl⟩
  refine ⟨fun c i hi => ?_, fun c d i hi j hj hij => ?_, fun c => ?_, h.params, fun c i hi => ?_,
    h.paramTypes⟩
  · obtain ⟨j, hj, hid, -⟩ := hmem c i hi
    exact hid ▸ h.ids c j hj
  · obtain ⟨i', hi', hid, -⟩ := hmem c i hi
    obtain ⟨j', hj', hjd, -⟩ := hmem d j hj
    exact h.block c d i' hi' j' hj' (by rw [hid, hjd, hij])
  · rw [instsAt_filled hb]
    split
    · rw [List.map_map]
      have : ((fun i : Instruction => i.id) ∘ fun i =>
          if i.id = phi then { i with kind := .phi incoming } else i) = (·.id) := by
        funext i
        simp only [Function.comp]
        split <;> rfl
      rw [this]
      exact h.nodup b
    · exact h.nodup c
  · obtain ⟨j, hj, hid, hty⟩ := hmem c i hi
    rw [← hid, ← hty]
    exact h.types c j hj

end Effects

end Parser
end Chakobsa
