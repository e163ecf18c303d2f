import Mathlib.Data.Finset.Card
import Mathlib.Data.Finset.Prod
import Mathlib.Data.Finset.Range
import Chakobsa.Lib.Limit
import Chakobsa.Parser.Additions

/-!
# The builder with numbers of 32 bits

Over `u32`s the builder does what it does over natural numbers, or panics because `next_value` has
run out. How many values it gives out is bounded by what it has been asked for: the parser asks for
an instruction now and then, and every other value is a phi that a look-up puts into a block for a
variable without a value there, which the variable has from then on. So there are no more of these
than pairs of blocks and variables (`SsaBuilder.bound`).

`Budget` says so, with `v` values and `c` blocks still to be asked for. Every call keeps it, over
either numbers (`Budget.emit`, `Budget.newBlock`, `Budget.read`, `Budget.sealBlock`).
-/

namespace Chakobsa
namespace Parser

open Ir ExceptLemmas

namespace SsaBuilder

/-- The variables of `V` that have a value in a block. -/
def bound (V : Finset String) (B : SsaBuilder) : Finset (BlockId × String) :=
  (Finset.range B.size ×ˢ V).filter fun p => (B.currentDef p.1 p.2).isSome

/-- The values given out so far. -/
abbrev given (B : SsaBuilder) : ℕ := B.nextValue

/-- With the names of `V` for variables, at most `N` values beside the phis that look-ups make, and at
most `K` blocks, `v` values and `c` blocks more are within bounds. -/
structure Budget (V : Finset String) (N K v c : ℕ) (B : SsaBuilder) : Prop where
  indexed : B.func.Indexed
  values : B.given + v ≤ N + (B.bound V).card
  blocks : B.size + c ≤ K
  parked : ∀ b, ∀ p ∈ B.incompletePhis b, p.1 ∈ V
  small : B.given < 2 ^ 32

/-- The bounds fit in a `u32`, or `A` holds. -/
structure Bounds (V : Finset String) (N K : ℕ) (A : Prop) : Prop where
  values : 2 ^ 32 ≤ N + K * V.card + 1 → A
  blocks : K ≤ 2 ^ 32

section Budget

variable {ε : Type} {V : Finset String} {N K v c : ℕ} {A : Prop} {B B' : SsaBuilder} {b : BlockId}
  {x : String} {ty : Ty} {u : ValueId}

theorem card_bound_le (V : Finset String) (B : SsaBuilder) : (B.bound V).card ≤ B.size * V.card := by
  refine (Finset.card_filter_le _ _).trans ?_
  rw [Finset.card_product, Finset.card_range]

theorem mem_bound : (b, x) ∈ B.bound V ↔ (b < B.size ∧ x ∈ V) ∧ (B.currentDef b x).isSome := by
  rw [bound, Finset.mem_filter, Finset.mem_product, Finset.mem_range]

/-- Where more variables have a value in more blocks. -/
theorem bound_mono (hsize : B.size ≤ B'.size)
    (h : ∀ b x, b < B.size → (B.currentDef b x).isSome → (B'.currentDef b x).isSome) :
    B.bound V ⊆ B'.bound V := by
  rintro ⟨b, x⟩ hp
  obtain ⟨⟨hb, hx⟩, hdef⟩ := mem_bound.mp hp
  exact mem_bound.mpr ⟨⟨hb.trans_le hsize, hx⟩, h b x hb hdef⟩

/-- A write leaves no variable without its value. -/
theorem isSome_write (B : SsaBuilder) (x : String) (b : BlockId) (u : ValueId) {a : BlockId} {y : String}
    (h : (B.currentDef a y).isSome) : ((B.writeVariable x b u).currentDef a y).isSome := by
  show (insertAt B.currentDef b (insertAt (B.currentDef b) x (some u)) a y).isSome
  by_cases ha : a = b
  · subst ha
    rw [insertAt, if_pos rfl]
    by_cases hy : y = x
    · rw [insertAt, if_pos hy]
      rfl
    · rw [insertAt, if_neg hy]
      exact h
  · rw [insertAt, if_neg ha]
    exact h

theorem size_newBlock (B : SsaBuilder) : B.newBlock.2.size = B.size + 1 := by
  simp [SsaBuilder.newBlock, size]

namespace Budget

/-- What the budget does not look at. -/
theorem congr (h : Budget V N K v c B) (hfunc : B'.func.Indexed) (hsize : B'.size = B.size)
    (hnext : B'.given = B.given) (hdef : B'.currentDef = B.currentDef)
    (hparked : ∀ b, ∀ p ∈ B'.incompletePhis b, p.1 ∈ V) : Budget V N K v c B' := by
  have hbound : B'.bound V = B.bound V := by rw [bound, bound, hsize, hdef]
  refine ⟨hfunc, ?_, ?_, hparked, ?_⟩
  · rw [hnext, hbound]
    exact h.values
  · rw [hsize]
    exact h.blocks
  · rw [hnext]
    exact h.small

theorem weaken {v' c' : ℕ} (h : Budget V N K v c B) (hv : v' ≤ v) (hc : c' ≤ c) :
    Budget V N K v' c' B :=
  ⟨h.indexed, (Nat.add_le_add_left hv _).trans h.values, (Nat.add_le_add_left hc _).trans h.blocks,
    h.parked, h.small⟩

theorem write (h : Budget V N K v c B) (x : String) (b : BlockId) (u : ValueId) :
    Budget V N K v c (B.writeVariable x b u) := by
  have hsub : B.bound V ⊆ (B.writeVariable x b u).bound V :=
    bound_mono (Nat.le_refl _) fun _ _ _ hdef => isSome_write B x b u hdef
  exact ⟨h.indexed, h.values.trans (Nat.add_le_add_left (Finset.card_le_card hsub) _), h.blocks,
    h.parked, h.small⟩

/-- A variable gets its first value in a block: that pays for a phi. -/
theorem write_first (h : Budget V (N + 1) K v c B) (hb : b < B.size) (hx : x ∈ V)
    (hnone : B.currentDef b x = none) (u : ValueId) : Budget V N K v c (B.writeVariable x b u) := by
  have hsub : B.bound V ⊆ (B.writeVariable x b u).bound V :=
    bound_mono (Nat.le_refl _) fun _ _ _ hdef => isSome_write B x b u hdef
  have hnew : (b, x) ∉ B.bound V := fun hp => by
    rw [mem_bound, hnone] at hp
    exact Bool.noConfusion hp.2
  have hmem : (b, x) ∈ (B.writeVariable x b u).bound V := by
    refine mem_bound.mpr ⟨⟨hb, hx⟩, ?_⟩
    show (insertAt B.currentDef b (insertAt (B.currentDef b) x (some u)) b x).isSome
    rw [insertAt, if_pos rfl, insertAt, if_pos rfl]
    rfl
  have hcard : (B.bound V).card < ((B.writeVariable x b u).bound V).card :=
    Finset.card_lt_card ⟨hsub, fun hback => hnew (hback hmem)⟩
  refine ⟨h.indexed, ?_, h.blocks, h.parked, h.small⟩
  have hvalues := h.values
  show B.given + v ≤ _
  omega

theorem park (h : Budget V N K v c B) (hx : x ∈ V) (b : BlockId) (u : ValueId) :
    Budget V N K v c (B.park b x u) := by
  refine h.congr h.indexed rfl rfl rfl fun a p hp => ?_
  change p ∈ insertAt B.incompletePhis b (B.incompletePhis b ++ [(x, u)]) a at hp
  unfold insertAt at hp
  split at hp
  · rcases List.mem_append.mp hp with hp | hp
    · exact h.parked b p hp
    · obtain rfl := List.mem_singleton.mp hp
      exact hx
  · exact h.parked a p hp

theorem blockMut (h : Budget V N K v c B) {g : BasicBlock → BasicBlock}
    (hok : (B.blockMut b g : BuildM ε _) = .ok B') (hg : ∀ blk, (g blk).id = blk.id) :
    Budget V N K v c B' := by
  obtain ⟨-, rfl⟩ := blockMut_effect h.indexed hok
  refine h.congr (h.indexed.modify hg) ?_ rfl rfl h.parked
  exact List.length_modify _ _ _

/-- `new_block`, over either numbers. -/
theorem newBlock (hK : Bounds V N K A) (h : Budget V N K v (c + 1) B) :
    @SsaBuilder.newBlock .u32 B = B.newBlock ∧ Budget V N K v c B.newBlock.2 := by
  have hsize : B.size < 2 ^ 32 := by
    have := h.blocks
    have := hK.blocks
    omega
  have hcast : Counter.u32.cast B.size = B.size := Nat.mod_eq_of_lt hsize
  refine ⟨?_, indexed_newBlock h.indexed, ?_, ?_, h.parked, h.small⟩
  · unfold SsaBuilder.newBlock
    rw [hcast]
    rfl
  · -- no variable has a value in the new block, and none loses one elsewhere
    have hsub : B.bound V ⊆ B.newBlock.2.bound V := by
      refine bound_mono ?_ fun b x hb hdef => ?_
      · rw [size_newBlock]
        exact Nat.le_succ _
      · show (insertAt B.currentDef B.size (fun _ => none) b x).isSome
        rw [insertAt, if_neg hb.ne]
        exact hdef
    exact h.values.trans (Nat.add_le_add_left (Finset.card_le_card hsub) _)
  · have := h.blocks
    rw [size_newBlock]
    omega

/-- A value more, for which nothing has been paid yet. -/
theorem emit_debt (hK : Bounds V N K A) (h : Budget V N K v c B) (b : BlockId) (ty : Ty) (kind : InstKind) :
    Comp.Limited .valueOverflow A (@SsaBuilder.emit ε .u32 B b ty kind) (B.emit b ty kind) fun r =>
      b < r.2.size ∧ r.2.currentDef = B.currentDef ∧ Budget V (N + 1) K v c r.2 := by
  by_cases hlt : B.given + 1 < 2 ^ 32
  · -- the addition does not overflow
    have hsucc : Counter.u32.succ B.nextValue = some (B.nextValue + 1) := if_pos hlt
    have heq : (@SsaBuilder.emit ε .u32 B b ty kind) = B.emit b ty kind := by
      show (Comp.expect BuilderPanic.valueOverflow (Counter.u32.succ B.nextValue) >>= _) = _
      rw [hsucc]
      rfl
    rw [heq]
    refine .same fun r hr => ?_
    obtain ⟨next, hnext, hret⟩ := bind_eq_ok.mp hr
    obtain rfl : B.nextValue + 1 = next := Except.ok.inj hnext
    obtain ⟨B₁, h₁, hret⟩ := bind_eq_ok.mp hret
    obtain ⟨hb, rfl⟩ := blockMut_effect (B := { B with
      nextValue := B.nextValue + 1
      valueTypes := insertAt B.valueTypes B.nextValue (some ty) }) h.indexed h₁
    obtain rfl := Except.ok.inj hret
    have hsize : (B.func.modify b fun blk =>
        { blk with instructions := blk.instructions ++ [⟨B.nextValue, ty, kind⟩] }).blocks.length =
          B.size := List.length_modify _ _ _
    have hindexed := h.indexed.modify (b := b) (g := fun blk =>
      { blk with instructions := blk.instructions ++ [⟨B.nextValue, ty, kind⟩] }) fun _ => rfl
    -- the counter alone is not what it was
    have hcount : Budget V (N + 1) K v c { B with nextValue := B.nextValue + 1 } := by
      refine ⟨h.indexed, ?_, h.blocks, h.parked, hlt⟩
      have hvalues := h.values
      show B.given + 1 + v ≤ N + 1 + (B.bound V).card
      omega
    exact ⟨hb.trans_eq hsize.symm, rfl, hcount.congr hindexed hsize rfl rfl h.parked⟩
  · -- it does, and so many values are more than the bounds have room for
    have hsucc : Counter.u32.succ B.nextValue = none := if_neg hlt
    have heq : (@SsaBuilder.emit ε .u32 B b ty kind) = Comp.panic .valueOverflow := by
      show (Comp.expect BuilderPanic.valueOverflow (Counter.u32.succ B.nextValue) >>= _) = _
      rw [hsucc]
      rfl
    rw [heq]
    refine .stop (hK.values ?_)
    have hvalues := h.values
    have hcard := (card_bound_le V B).trans
      (Nat.mul_le_mul_right V.card ((Nat.le_add_right _ _).trans h.blocks))
    omega

/-- A value that has been asked for. -/
theorem emit (hK : Bounds V N K A) (h : Budget V N K (v + 1) c B) (b : BlockId) (ty : Ty)
    (kind : InstKind) :
    Comp.Limited .valueOverflow A (@SsaBuilder.emit ε .u32 B b ty kind) (B.emit b ty kind) fun r =>
      Budget V N K v c r.2 :=
  (emit_debt hK h b ty kind).mono fun r ⟨_, _, hr⟩ =>
    ⟨hr.indexed, by have := hr.values; omega, hr.blocks, hr.parked, hr.small⟩

theorem terminate (h : Budget V N K v c B) {t : Terminator}
    (hok : (B.terminate b t : BuildM ε _) = .ok B') : Budget V N K v c B' := by
  refine blockMut (B := { B with
    preds := t.successors.foldl (fun m s => insertAt m s (m s ++ [b])) B.preds }) ?_ hok fun _ => rfl
  exact h.congr h.indexed rfl rfl rfl h.parked

end Budget

/-! ### Look-ups -/

/-- The readers do the same and keep to the budget, or the numbers run out. -/
def ReadsLimited (V : Finset String) (N K : ℕ) (A : Prop)
    (read' read : SsaBuilder → BlockId → BuildM ε (ValueId × SsaBuilder)) : Prop :=
  ∀ {v c : ℕ} {B : SsaBuilder} (b : BlockId), Budget V N K v c B →
    Comp.Limited .valueOverflow A (read' B b) (read B b) fun r => Budget V N K v c r.2

section Read

variable {read' read : SsaBuilder → BlockId → BuildM ε (ValueId × SsaBuilder)}

theorem ReadsLimited.preds (hread : ReadsLimited V N K A read' read) (h : Budget V N K v c B)
    (ps : List BlockId) :
    Comp.Limited .valueOverflow A (readPreds read' B ps) (readPreds read B ps) fun r =>
      Budget V N K v c r.2 := by
  induction ps generalizing B with
  | nil => exact .ok h
  | cons p ps ih =>
    exact (hread p h).bind fun r hr => (ih hr).bind fun r' hr' => .ok hr'

theorem ReadsLimited.operands (hread : ReadsLimited V N K A read' read) (h : Budget V N K v c B)
    (phi : ValueId) (b : BlockId) :
    Comp.Limited .valueOverflow A (addPhiOperands read' B phi b) (addPhiOperands read B phi b)
      (Budget V N K v c) := by
  refine (hread.preds h _).bind fun r hr => ?_
  refine .bind_same fun blk _ => .bind_same fun insts _ => .same fun B' hok => ?_
  exact hr.blockMut hok fun _ => rfl

/-- A phi that is made pays for itself: the variable had no value in the block. -/
theorem ReadsLimited.recursive (hK : Bounds V N K A) (hread : ReadsLimited V N K A read' read)
    (hx : x ∈ V) (ty : Ty) (h : Budget V N K v c B) (b : BlockId) (hnone : B.currentDef b x = none) :
    Comp.Limited .valueOverflow A (@readVariableRecursive ε .u32 read' x ty B b)
      (readVariableRecursive read x ty B b) fun r => Budget V N K v c r.2 := by
  have hemit := h.emit_debt (ε := ε) hK b ty (.phi [])
  unfold readVariableRecursive
  by_cases hsealed : B.isSealed b = false
  · -- a block that is not sealed gets a phi to be filled in later
    rw [if_pos hsealed, if_pos hsealed]
    refine hemit.bind fun ⟨phi, B₁⟩ ⟨hb, hdef, h₁⟩ => ?_
    exact .ok ((h₁.park hx b phi).write_first hb hx ((congrFun (congrFun hdef b) x).trans hnone) phi)
  · rw [if_neg hsealed, if_neg hsealed]
    match B.preds b with
    | [] =>
      refine hemit.bind fun ⟨phi, B₁⟩ ⟨hb, hdef, h₁⟩ => ?_
      exact .ok (h₁.write_first hb hx ((congrFun (congrFun hdef b) x).trans hnone) phi)
    | [only] => exact (hread only h).bind fun ⟨u, B₁⟩ h₁ => .ok (h₁.write x b u)
    | _ :: _ :: _ =>
      -- the phi is the value before its operands are read, so the debt is paid by then
      refine hemit.bind fun ⟨phi, B₁⟩ ⟨hb, hdef, h₁⟩ => ?_
      have hfirst := h₁.write_first hb hx ((congrFun (congrFun hdef b) x).trans hnone) phi
      exact (hread.operands hfirst phi b).bind fun B₂ h₂ => .ok (h₂.write x b phi)

theorem readsLimited (hK : Bounds V N K A) (hx : x ∈ V) (ty : Ty) (n : ℕ) :
    ReadsLimited (ε := ε) V N K A (@readVariable ε .u32 x ty n) (readVariable x ty n) := by
  induction n with
  | zero => exact fun b _ => .error
  | succ n ih =>
    intro v c B b h
    unfold readVariable
    cases hdef : B.currentDef b x with
    | some u => exact .ok h
    | none => exact ReadsLimited.recursive hK ih hx ty h b hdef

end Read

theorem Budget.read (hK : Bounds V N K A) (h : Budget V N K v c B) (hx : x ∈ V) (b : BlockId) (ty : Ty) :
    Comp.Limited .valueOverflow A (@SsaBuilder.read ε .u32 B x b ty) (B.read x b ty) fun r =>
      Budget V N K v c r.2 := readsLimited hK hx ty _ b h

/-- The variables of parked phis are looked up when their block is sealed. -/
theorem Budget.fillPhis (hK : Bounds V N K A) (h : Budget V N K v c B) (b : BlockId)
    {pending : List (String × ValueId)} (hp : ∀ p ∈ pending, p.1 ∈ V) :
    Comp.Limited .valueOverflow A (@SsaBuilder.fillPhis ε .u32 b B pending)
      (SsaBuilder.fillPhis b B pending) (Budget V N K v c) := by
  induction pending generalizing B with
  | nil => exact .ok h
  | cons p pending ih =>
    obtain ⟨hx, hp⟩ := List.forall_mem_cons.mp hp
    refine .bind_same fun ty _ => ?_
    refine (ReadsLimited.operands (readsLimited hK hx ty _) h p.2 b).bind fun B₁ h₁ => ih h₁ hp

theorem Budget.sealBlock (hK : Bounds V N K A) (h : Budget V N K v c B) (b : BlockId) :
    Comp.Limited .valueOverflow A (@SsaBuilder.sealBlock ε .u32 B b) (B.sealBlock b)
      (Budget V N K v c) := by
  have hempty : Budget V N K v c { B with incompletePhis := insertAt B.incompletePhis b [] } := by
    refine h.congr h.indexed rfl rfl rfl fun a p hp => ?_
    change p ∈ insertAt B.incompletePhis b [] a at hp
    unfold insertAt at hp
    split at hp
    · cases hp
    · exact h.parked a p hp
  refine (hempty.fillPhis hK b fun p hp => h.parked b p hp).bind fun B₁ h₁ => ?_
  exact .ok (h₁.congr h₁.indexed rfl rfl rfl h₁.parked)

end Budget

end SsaBuilder

end Parser
end Chakobsa
