import Chakobsa.Parser.Lookup
import Chakobsa.Parser.Discipline

/-!
# The graph under construction

What holds of the builder between two calls of the parser, beyond the soundness of each call.
`Grounded`: a variable for which a phi is parked is bound on every way to the recorded
predecessors of the block, so that the look-ups that fill the phi in will find it. `Forked`: the
targets of a branch have one predecessor, are sealed and hold no phi.

`Since B₀ b` relates the builder to an earlier one whose current block was `b`: of the blocks there
were then only `b` may have got a terminator, none has got a predecessor, and what is new is
entered from `b` alone. So every way into the new blocks leads through `b`, and what was known
there is known in all of them (`Since.known`).
-/

namespace Chakobsa
namespace Parser

open Ir ExceptLemmas

namespace SsaBuilder

/-- `x` is bound on every way from the entry to `b`. -/
def Known (B : SsaBuilder) (x : String) (b : BlockId) : Prop :=
  Meets B.Edge 0 (fun c => B.currentDef c x ≠ none) b

/-- The variables with a phi parked in `h` are known at the ends of its predecessors. -/
def GroundedAt (B : SsaBuilder) (h : BlockId) : Prop :=
  ∀ e ∈ B.incompletePhis h, ∀ p ∈ B.preds h, B.Known e.1 p

def Grounded (B : SsaBuilder) : Prop := ∀ h, B.GroundedAt h

/-- A sealed block with one predecessor and without phis. -/
def NoPhis (B : SsaBuilder) (b : BlockId) : Prop :=
  B.isSealed b = true ∧ (∃ p, B.preds b = [p]) ∧
    ∀ i ∈ B.func.instsAt b, i.kind.isPhi = false

/-- The edges of the terminators are recorded, and the two targets of a branch have no other edge
into them, and no phis. -/
structure Forked (B : SsaBuilder) : Prop where
  recorded : ∀ p t, B.func.termAt p = some t → ∀ s ∈ t.successors, p ∈ B.preds s
  fork : ∀ p c s₁ s₂, B.func.termAt p = some (.branch c s₁ s₂) →
    s₁ ≠ s₂ ∧ B.NoPhis s₁ ∧ B.NoPhis s₂

/-- What holds of the builder between two calls. -/
structure Steady (B : SsaBuilder) : Prop where
  sound : B.Sound
  grounded : B.Grounded
  forked : B.Forked

/-- No block has got a terminator twice. -/
def Exact (B : SsaBuilder) : Prop := ∃ g : Ghost, g.Exact ∧ g.builder = B

/-- From `B₀`, with `b` as its current block, to `B`. -/
structure Since (B₀ : SsaBuilder) (b : BlockId) (B : SsaBuilder) : Prop where
  size : B₀.size ≤ B.size
  preds : ∀ c < B₀.size, B.preds c = B₀.preds c
  /-- The new blocks are entered from `b`. -/
  entered : ∀ c p, B₀.size ≤ c → p ∈ B.preds c → p < B₀.size → p = b
  defs : ∀ c y, B₀.currentDef c y ≠ none → B.currentDef c y ≠ none
  term : ∀ c < B₀.size, c ≠ b → B.func.termAt c = B₀.func.termAt c
  closed : ∀ c < B₀.size, B.isSealed c = B₀.isSealed c
  /-- Phis are parked in blocks that the current block is reached from. -/
  quiet : ∀ c < B₀.size, c ≠ b → B₀.func.termAt c = none →
    B.incompletePhis c = B₀.incompletePhis c

section Basics

variable {B B' B₀ B₁ : SsaBuilder} {b b₁ c p : BlockId} {x : String}

theorem size_emitted (ty : Ty) (kind : InstKind) : (B.emitted b ty kind).size = B.size :=
  Function.modify_length _ _

theorem size_terminated (t : Terminator) : (B.terminated b t).size = B.size :=
  Function.modify_length _ _

theorem termAt_emitted (ty : Ty) (kind : InstKind) :
    (B.emitted b ty kind).func.termAt c = B.func.termAt c :=
  Function.termAt_modify_insts b (fun l => l ++ [Instruction.mk B.nextValue ty kind]) c

theorem termAt_terminated (hb : b < B.size) (t : Terminator) :
    (B.terminated b t).func.termAt c = if c = b then some t else B.func.termAt c :=
  Function.termAt_modify b t hb c

theorem Sound.indexed (h : B.Sound) : B.func.Indexed := by
  obtain ⟨g, hs, rfl⟩ := h
  exact hs.ok.graph.indexed

theorem Sound.edges (h : B.Sound) (hp : p ∈ B.preds c) :
    p < B.size ∧ c < B.size ∧ B.func.termAt p ≠ none := by
  obtain ⟨g, hs, rfl⟩ := h
  exact hs.ok.graph.edges c p hp

/-- Predecessors can be reached. -/
theorem Sound.reach_pred (h : B.Sound) (hp : p ∈ B.preds c) : B.Reach p := by
  have ht := (h.edges hp).2.2
  obtain ⟨g, hs, rfl⟩ := h
  exact hs.reach p ht

/-- A block that does not exist has no predecessors. -/
theorem Sound.preds_outside (h : B.Sound) (hc : B.size ≤ c) : B.preds c = [] := by
  rw [List.eq_nil_iff_forall_not_mem]
  exact fun p hp => absurd (h.edges hp).2.1 (Nat.not_lt.mpr hc)

theorem Sound.parked_outside (h : B.Sound) (hc : B.size ≤ c) : B.incompletePhis c = [] := by
  obtain ⟨g, hs, rfl⟩ := h
  exact (hs.ok.logs.outside c hc).2.2

theorem Sound.def_outside (h : B.Sound) (hc : B.size ≤ c) (y : String) : B.currentDef c y = none := by
  obtain ⟨g, hs, rfl⟩ := h
  obtain ⟨hl, he, -⟩ := hs.ok.logs.outside c hc
  rw [hs.ok.logs.cur]
  simp [Ghost.outDef, defAfter, hl, he, lastWrite]

/-- Nothing is parked in a sealed block. -/
theorem Sound.parked_sealed (h : B.Sound) (hc : B.isSealed c = true) : B.incompletePhis c = [] := by
  obtain ⟨g, hs, rfl⟩ := h
  rw [List.eq_nil_iff_forall_not_mem]
  rintro ⟨y, v⟩ hm
  have := (hs.ok.entries.incomplete c y v hm).2
  simp [hc] at this

theorem Sound.isTerminated_iff (h : B.Sound) : B.isTerminated c = false ↔ B.func.termAt c = none := by
  rw [isTerminated_eq h.indexed]
  simp

/-- The root has no predecessors, and what can be reached without one is the root. -/
theorem Reach.eq_zero (h : B.Reach c) (hp : B.preds c = []) : c = 0 := by
  obtain ⟨π, hw⟩ := h
  cases hw with
  | start => rfl
  | step _ he =>
    rw [Edge, hp] at he
    exact absurd he List.not_mem_nil

/-- What is known in a block and not bound there is known in its predecessors. -/
theorem Known.pred (h : B.Known x c) (hc : B.currentDef c x = none) (hp : p ∈ B.preds c) :
    B.Known x p := Meets.pred h (fun hne => hne hc) hp

/-- A block where `x` is known and not bound has a predecessor. -/
theorem Known.entered (h : B.Known x c) (hc : B.currentDef c x = none) (hr : B.Reach c) :
    B.preds c ≠ [] := by
  intro hp
  obtain rfl := Reach.eq_zero hr hp
  obtain ⟨d, hd, hne⟩ := h [] .start
  obtain rfl : d = 0 := by simpa using hd
  exact hne hc

theorem Known.here (hx : B.currentDef c x ≠ none) : B.Known x c :=
  fun _ _ => ⟨c, List.mem_cons_self, hx⟩

theorem Since.refl (h : B.Sound) : Since B b B := by
  refine ⟨Nat.le_refl _, fun _ _ => rfl, fun c p hc hp _ => ?_, fun _ _ h => h, fun _ _ _ => rfl,
    fun _ _ => rfl, fun _ _ _ _ => rfl⟩
  rw [h.preds_outside hc] at hp
  exact absurd hp List.not_mem_nil

/-- The next current block is the old one or a new one. -/
theorem Since.trans (h : Since B₀ b B₁) (h' : Since B₁ b₁ B) (hb : b₁ = b ∨ B₀.size ≤ b₁) :
    Since B₀ b B := by
  have hlt : ∀ c < B₀.size, c < B₁.size := fun c hc => Nat.lt_of_lt_of_le hc h.size
  have hne : ∀ c < B₀.size, c ≠ b → c ≠ b₁ := by
    rintro c hc hcb rfl
    rcases hb with he | he
    · exact hcb he
    · exact absurd hc (Nat.not_lt.mpr he)
  refine ⟨h.size.trans h'.size, fun c hc => (h'.preds c (hlt c hc)).trans (h.preds c hc),
    fun c p hc hp hpb => ?_, fun c y hy => h'.defs c y (h.defs c y hy),
    fun c hc hcb => (h'.term c (hlt c hc) (hne c hc hcb)).trans (h.term c hc hcb),
    fun c hc => (h'.closed c (hlt c hc)).trans (h.closed c hc), fun c hc hcb ht => ?_⟩
  · by_cases hc' : c < B₁.size
    · exact h.entered c p hc (h'.preds c hc' ▸ hp) hpb
    · -- a block newer than `B₁` is entered from `b₁`
      obtain rfl := h'.entered c p (Nat.le_of_not_lt hc') hp (hlt p hpb)
      exact hb.resolve_right (Nat.not_le.mpr hpb)
  · rw [h'.quiet c (hlt c hc) (hne c hc hcb) ((h.term c hc hcb).trans ht), h.quiet c hc hcb ht]

/-- The old blocks are reached as before, and the new ones through the block that was current. -/
theorem Since.covers (h : Since B₀ b B) (h₀ : B₀.Sound) :
    (c < B₀.size → Covers B₀.Edge B.Edge 0 c c) ∧ (B₀.size ≤ c → Covers B₀.Edge B.Edge 0 b c) := by
  have hpos : 0 < B₀.size := by
    obtain ⟨g, hs, rfl⟩ := h₀
    exact hs.ok.graph.pos
  have hold : ∀ p c, B.Edge p c → c < B₀.size → p < B₀.size ∧ B₀.Edge p c := by
    intro p c hp hc
    have hp₀ : p ∈ B₀.preds c := h.preds c hc ▸ hp
    exact ⟨(h₀.edges hp₀).1, hp₀⟩
  have hnew : ∀ p c, B.Edge p c → p < B₀.size → ¬ c < B₀.size → p = b := fun p c hp hlt hc =>
    h.entered c p (Nat.le_of_not_lt hc) hp hlt
  have hcov : (c < B₀.size → Covers B₀.Edge B.Edge 0 c c) ∧
      (¬ c < B₀.size → Covers B₀.Edge B.Edge 0 b c) :=
    @Covers.enter _ B₀.Edge 0 B.Edge b (fun c => c < B₀.size) hpos hold hnew c
  exact ⟨hcov.1, fun hc => hcov.2 (Nat.not_lt.mpr hc)⟩

/-- What was known in the current block is known in it and in the new blocks. -/
theorem Since.known (h : Since B₀ b B) (h₀ : B₀.Sound) (hx : B₀.Known x b) (hb : b < B₀.size)
    (hc : c = b ∨ B₀.size ≤ c) : B.Known x c := by
  refine Meets.covers hx ?_ fun d hd => h.defs d x hd
  rcases hc with rfl | hc
  · exact (h.covers h₀).1 hb
  · exact (h.covers h₀).2 hc

end Basics

/-! ### Calls that leave the graph alone -/

/-- The graph is as before, or has further blocks without edges, and no phi is new in a block that
may not have one. -/
structure Calm (B B' : SsaBuilder) : Prop where
  size : B.size ≤ B'.size
  preds : B'.preds = B.preds
  isSealed : B'.isSealed = B.isSealed
  term : ∀ c, B'.func.termAt c = B.func.termAt c
  defs : ∀ c y, B.currentDef c y ≠ none → B'.currentDef c y ≠ none
  noPhis : ∀ c, B.NoPhis c → B'.NoPhis c

/-- Further phis are parked, for `y` in `c` only if `N y c`. -/
def Parks (N : String → BlockId → Prop) (B B' : SsaBuilder) : Prop :=
  ∀ c, ∃ new, B'.incompletePhis c = B.incompletePhis c ++ new ∧ ∀ e ∈ new, N e.1 c

section Calm

variable {ε : Type} {B B' B₀ : SsaBuilder} {b c d : BlockId} {x : String} {v : ValueId}
  {N : String → BlockId → Prop}

theorem Parks.none (h : B'.incompletePhis = B.incompletePhis) : Parks N B B' :=
  fun c => ⟨[], by simp [h]⟩

theorem Calm.known (h : Calm B B') (hx : B.Known x c) : B'.Known x c := by
  refine Meets.covers hx ?_ fun d hd => h.defs d x hd
  have hedge : B'.Edge = B.Edge := by
    funext p c
    rw [Edge, Edge, h.preds]
  rw [hedge]
  exact .refl

theorem Steady.calm (h : B.Steady) (hs : B'.Sound) (hc : Calm B B') (hp : Parks N B B')
    (hN : ∀ y c, N y c → ∀ p ∈ B.preds c, B.Known y p) : B'.Steady := by
  refine ⟨hs, fun c e he p hpc => ?_, ⟨fun p t ht s hm => ?_, fun p k s₁ s₂ ht => ?_⟩⟩
  · rw [hc.preds] at hpc
    obtain ⟨new, hnew, hall⟩ := hp c
    rw [hnew, List.mem_append] at he
    rcases he with he | he
    · exact hc.known (h.grounded c e he p hpc)
    · exact hc.known (hN e.1 c (hall e he) p hpc)
  · rw [hc.preds]
    exact h.forked.recorded p t (hc.term p ▸ ht) s hm
  · obtain ⟨hne, h₁, h₂⟩ := h.forked.fork p k s₁ s₂ (hc.term p ▸ ht)
    exact ⟨hne, hc.noPhis s₁ h₁, hc.noPhis s₂ h₂⟩

theorem Since.calm (h : Since B₀ b B) (hc : Calm B B') (hp : Parks N B B')
    (hN : ∀ y c, N y c → c < B₀.size → c ≠ b → B.func.termAt c ≠ none) : Since B₀ b B' := by
  refine ⟨h.size.trans hc.size, fun c hlt => by rw [hc.preds, h.preds c hlt],
    fun c p hle hpc => h.entered c p hle (hc.preds ▸ hpc), fun c y hy => hc.defs c y (h.defs c y hy),
    fun c hlt hcb => (hc.term c).trans (h.term c hlt hcb),
    fun c hlt => by rw [hc.isSealed, h.closed c hlt], fun c hlt hcb ht => ?_⟩
  obtain ⟨new, hnew, hall⟩ := hp c
  rw [hnew, h.quiet c hlt hcb ht]
  -- nothing is parked in a block without a terminator
  have hnil : new = [] := by
    rw [List.eq_nil_iff_forall_not_mem]
    exact fun e he => hN e.1 c (hall e he) hlt hcb ((h.term c hlt hcb).trans ht)
  rw [hnil, List.append_nil]

theorem Calm.newBlock (h : B.Sound) : Calm B B.newBlock.2 := by
  have hpreds : B.newBlock.2.preds = B.preds := by
    funext c
    show insertAt B.preds B.size [] c = B.preds c
    unfold insertAt
    split
    · next hc => rw [h.preds_outside (Nat.le_of_eq hc.symm)]
    · rfl
  refine ⟨(Nat.le_succ _).trans_eq h.newBlock.2.size.symm, hpreds, rfl, newBlock_termAt B,
    fun c y hc => ?_, fun c hc => ?_⟩
  · show insertAt B.currentDef B.size (fun _ => none) c y ≠ none
    unfold insertAt
    split
    · next he => exact absurd (h.def_outside (Nat.le_of_eq he.symm) y) hc
    · exact hc
  · obtain ⟨hs, hp, hi⟩ := hc
    exact ⟨hs, by rw [hpreds]; exact hp, by rw [newBlock_instsAt]; exact hi⟩

theorem Calm.write : Calm B (B.writeVariable x b v) :=
  ⟨Nat.le_refl _, rfl, rfl, fun _ => rfl, (Kept.write (N := fun _ _ => False) v).defs, fun _ h => h⟩

/-- An instruction is emitted; a phi only where phis may be. -/
theorem Calm.emit (hb : b < B.size) {ty : Ty} {kind : InstKind}
    (hk : kind.isPhi = true → ¬ B.NoPhis b) : Calm B (B.emitted b ty kind) := by
  refine ⟨Nat.le_of_eq (size_emitted ty kind).symm, rfl, rfl, fun _ => termAt_emitted ty kind,
    fun _ _ h => h, fun c hc => ⟨hc.1, hc.2.1, fun i hi => ?_⟩⟩
  rw [instsAt_emitted hb] at hi
  split at hi
  · next he =>
    subst he
    rcases List.mem_append.mp hi with hi | hi
    · exact hc.2.2 i hi
    · obtain rfl : i = ⟨B.nextValue, ty, kind⟩ := by simpa using hi
      exact Bool.eq_false_iff.mpr fun hphi => hk hphi hc
  · exact hc.2.2 i hi

theorem Steady.newBlock (h : B.Steady) : B.newBlock.2.Steady :=
  h.calm h.sound.newBlock.1 (Calm.newBlock h.sound) (N := fun _ _ => False) (.none rfl)
    fun _ _ hN => hN.elim

theorem Since.newBlock (h : Since B₀ b B) (hs : B.Sound) : Since B₀ b B.newBlock.2 :=
  h.calm (Calm.newBlock hs) (N := fun _ _ => False) (.none rfl) fun _ _ hN => hN.elim

theorem Sound.emitted (h : B.Sound) (hb : b < B.size) (ht : B.func.termAt b = none) (ty : Ty)
    (kind : InstKind) : (B.emitted b ty kind).Sound := by
  obtain ⟨v, B', hok, hs', -⟩ := h.emit (ε := Empty) hb (h.isTerminated_iff.mpr ht) ty kind
  rw [emit_ok h.indexed hb] at hok
  obtain ⟨-, rfl⟩ := Prod.mk.inj (Except.ok.inj hok)
  exact hs'

theorem Steady.emitted (h : B.Steady) (hb : b < B.size) (ht : B.func.termAt b = none) (ty : Ty)
    {kind : InstKind} (hk : kind.isPhi = true → ¬ B.NoPhis b) : (B.emitted b ty kind).Steady :=
  h.calm (h.sound.emitted hb ht ty kind) (.emit hb hk) (N := fun _ _ => False) (.none rfl) fun _ _ hN => hN.elim

theorem Since.emitted (h : Since B₀ b B) (hd : d < B.size) (ty : Ty) {kind : InstKind}
    (hk : kind.isPhi = true → ¬ B.NoPhis d) : Since B₀ b (B.emitted d ty kind) :=
  h.calm (.emit hd hk) (N := fun _ _ => False) (.none rfl) fun _ _ hN => hN.elim

/-- Where a look-up that starts in blocks of which `Start` holds may park phis for `y`. -/
def MayPark (B : SsaBuilder) (Start : BlockId → Prop) (y : String) (c : BlockId) : Prop :=
  (∀ p ∈ B.preds c, B.Known y p) ∧ (Start c ∨ B.func.termAt c ≠ none)

/-- Where a look-up of `x` goes from blocks of which `Start` holds. -/
theorem sought (h : B.Sound) (Start : BlockId → Prop) :
    Sought B x (fun c => B.Known x c ∧ (Start c ∨ B.func.termAt c ≠ none) ∧ B.Reach c)
      (B.MayPark Start) :=
  ⟨fun _ hc hn _ hp => ⟨hc.1.pred hn hp, .inr (h.edges hp).2.2, h.reach_pred hp⟩,
    fun _ hc hn => hc.1.entered hn hc.2.2,
    fun _ hc hn => ⟨fun _ hp => hc.1.pred hn hp, hc.2.1⟩⟩

/-- A variable that is known in a block under construction is looked up there. -/
theorem read_strict (other : SsaBuilder → BlockId → BuildM ε (ValueId × SsaBuilder)) (h : B.Sound)
    (hr : B.Reach b) (hx : B.Known x b) {ty : Ty} {r : ValueId × SsaBuilder}
    (hok : (B.read x b ty : BuildM ε _) = .ok r) :
    strictRead other x ty B.readFuel B b = .ok r ∧ Kept (B.MayPark (· = b)) B r.2 :=
  readVariable_finds other ty _ B b r (sought h (· = b)) ⟨hx, .inl rfl, hr⟩ hok

theorem Calm.read (h : B.Sound) (hb : b < B.size) (ht : B.isTerminated b = false) (hr : B.Reach b)
    (hx : B.Known x b) {ty : Ty} {r : ValueId × SsaBuilder}
    (hok : (B.read x b ty : BuildM ε _) = .ok r) :
    Calm B r.2 ∧ Parks (B.MayPark (· = b)) B r.2 := by
  obtain ⟨-, hk⟩ := read_strict (fun _ _ => .error .outOfFuel) h hr hx hok
  obtain ⟨g, hs, rfl⟩ := h
  rw [isTerminated_eq hs.ok.graph.indexed] at ht
  obtain ⟨v, g', hok', -, -, hsame, -, hno⟩ := hs.read (ε := ε) hb (by simpa using ht) x ty
  obtain rfl := Except.ok.inj (hok'.symm.trans hok)
  exact ⟨⟨Nat.le_of_eq hsame.size.symm, hk.preds, hk.isSealed, hsame.term, hk.defs, hno⟩, hk.parked⟩

end Calm

/-! ### Edges -/

/-- A block that an edge from `d` may go to: nothing goes on from it, and nothing is parked in it;
or it is on every way to `d` already. -/
def Target (B : SsaBuilder) (d s : BlockId) : Prop :=
  B.func.termAt s = none ∧ s ≠ d ∧ B.incompletePhis s = [] ∨ Dominates B.Edge 0 s d

section Edges

variable {ε : Type} {B B' B₀ : SsaBuilder} {b c d s s₁ s₂ : BlockId} {t : Terminator} {x : String}

theorem mem_preds_terminated : b ∈ (B.terminated d t).preds c ↔
    b ∈ B.preds c ∨ b = d ∧ c ∈ t.successors := by
  rw [preds_terminated, List.mem_append]
  refine or_congr_right ?_
  simp only [List.mem_map, List.mem_filter, beq_iff_eq]
  constructor
  · rintro ⟨s, ⟨hs, rfl⟩, rfl⟩
    exact ⟨rfl, hs⟩
  · rintro ⟨rfl, hs⟩
    exact ⟨c, ⟨hs, rfl⟩, rfl⟩

theorem Since.terminate (h : Since B₀ b B) (hd : d < B.size) (hdb : d = b ∨ B₀.size ≤ d)
    (hs : ∀ s ∈ t.successors, B₀.size ≤ s) : Since B₀ b (B.terminated d t) := by
  refine ⟨h.size.trans_eq (size_terminated t).symm, fun c hc => ?_, fun c p hc hp hlt => ?_,
    h.defs, fun c hc hcb => ?_, h.closed, h.quiet⟩
  · have hnot : t.successors.filter (· == c) = [] := by
      rw [List.filter_eq_nil_iff]
      rintro s hm he
      obtain rfl : s = c := by simpa using he
      exact absurd hc (Nat.not_lt.mpr (hs s hm))
    rw [preds_terminated, hnot, List.map_nil, List.append_nil, h.preds c hc]
  · rcases mem_preds_terminated.mp hp with hp | ⟨rfl, -⟩
    · exact h.entered c p hc hp hlt
    · exact hdb.resolve_right (Nat.not_le.mpr hlt)
  · have hcd : c ≠ d := by
      rintro rfl
      exact hdb.elim hcb (Nat.not_le.mpr hc)
    rw [termAt_terminated hd, if_neg hcd, h.term c hc hcb]

/-- With the new edges the other blocks are reached as before. -/
theorem Covers.terminate (h : B.Sound) (ht : ∀ s ∈ t.successors, B.Target d s)
    (hc : B.func.termAt c ≠ none ∨ c = d) : Covers B.Edge (B.terminated d t).Edge 0 c c := by
  have hextend := @Covers.extend _ B.Edge 0 (B.terminated d t).Edge c
    fun c => c ∈ t.successors ∧ B.func.termAt c = none ∧ c ≠ d
  refine hextend (fun p c hp => ?_) (fun c e hdead he => ?_) fun hdead => ?_
  · rcases mem_preds_terminated.mp hp with hp | ⟨rfl, hm⟩
    · exact .inl hp
    · rcases ht c hm with ⟨hterm, hne, -⟩ | hdom
      · exact .inr (.inl ⟨hm, hterm, hne⟩)
      · exact .inr (.inr hdom)
  · -- nothing goes on from a target without terminator
    rcases mem_preds_terminated.mp he with he | ⟨hcd, -⟩
    · exact (h.edges he).2.2 hdead.2.1
    · exact hdead.2.2 hcd
  · rcases hc with hc | hc
    · exact hc hdead.2.1
    · exact hdead.2.2 hc

theorem Known.terminate (h : B.Sound) (ht : ∀ s ∈ t.successors, B.Target d s)
    (hc : B.func.termAt c ≠ none ∨ c = d) (hx : B.Known x c) : (B.terminated d t).Known x c :=
  Meets.covers hx (Covers.terminate h ht hc) fun _ hd => hd

/-- A variable with a phi parked in `s` is known wherever every way leads through `s`. -/
theorem Grounded.dominated (h : B.Grounded) (hs : B.Sound) {e : String × ValueId}
    (he : e ∈ B.incompletePhis s) (hdom : Dominates B.Edge 0 s d) : B.Known e.1 d := by
  intro π hw
  obtain ⟨π₀, hw₀, hsuf⟩ := hw.prefix (hdom π hw)
  cases hw₀ with
  | start =>
    -- the entry is sealed from the beginning
    obtain ⟨g, hg, rfl⟩ := hs
    rw [Sound.parked_sealed ⟨g, hg, rfl⟩ hg.ok.graph.entrySealed] at he
    exact absurd he List.not_mem_nil
  | @step π₀ p _ hw₀ hp =>
    obtain ⟨c, hc, hne⟩ := h s e he p hp π₀ hw₀
    exact ⟨c, hsuf.subset (List.mem_cons_of_mem _ hc), hne⟩

theorem Grounded.terminate (h : B.Grounded) (hs : B.Sound)
    (ht : ∀ s ∈ t.successors, B.Target d s) : (B.terminated d t).Grounded := by
  intro c e he p hp
  rcases mem_preds_terminated.mp hp with hp | ⟨rfl, hm⟩
  · exact (h c e he p hp).terminate hs ht (.inl (hs.edges hp).2.2)
  · rcases ht c hm with ⟨-, -, hnil⟩ | hdom
    · change e ∈ B.incompletePhis c at he
      rw [hnil] at he
      exact absurd he List.not_mem_nil
    · exact (h.dominated hs he hdom).terminate hs ht (.inr rfl)

theorem NoPhis.terminate (h : B.NoPhis c) (hs : ∀ s ∈ t.successors, B.isSealed s = false) :
    (B.terminated d t).NoPhis c := by
  refine ⟨h.1, ?_, fun i hi => h.2.2 i ?_⟩
  · have hnot : t.successors.filter (· == c) = [] := by
      rw [List.filter_eq_nil_iff]
      rintro s hm he
      obtain rfl : s = c := by simpa using he
      exact Bool.false_ne_true ((hs s hm).symm.trans h.1)
    rw [preds_terminated, hnot, List.map_nil, List.append_nil]
    exact h.2.1
  · rwa [← Function.instsAt_modify_term d t]

theorem Sound.terminated (h : B.Sound) (hd : d < B.size) (hr : B.Reach d)
    (hs : ∀ s ∈ t.successors, s < B.size ∧ s ≠ 0 ∧ B.isSealed s = false) :
    (B.terminated d t).Sound := by
  obtain ⟨B', hok, hs', -⟩ := h.terminate (ε := Empty) hd hr hs
  rw [terminate_ok h.indexed hd t] at hok
  obtain rfl := Except.ok.inj hok
  exact hs'

/-- The recorded edges of a terminator that is no branch. -/
theorem Steady.terminate (h : B.Steady) (hd : d < B.size) (hr : B.Reach d)
    (hs : ∀ s ∈ t.successors, s < B.size ∧ s ≠ 0 ∧ B.isSealed s = false)
    (ht : ∀ s ∈ t.successors, B.Target d s) (hbr : ∀ k s₁ s₂, t ≠ .branch k s₁ s₂) :
    (B.terminated d t).Steady := by
  have hterm := fun c => termAt_terminated (c := c) hd t
  refine ⟨h.sound.terminated hd hr hs, h.grounded.terminate h.sound ht,
    ⟨fun p t' hp s hm => ?_, fun p k s₁ s₂ hp => ?_⟩⟩
  · rw [hterm] at hp
    split at hp
    · next hpd =>
      obtain rfl := Option.some.inj hp
      exact mem_preds_terminated.mpr (.inr ⟨hpd, hm⟩)
    · exact mem_preds_terminated.mpr (.inl (h.forked.recorded p t' hp s hm))
  · rw [hterm] at hp
    split at hp
    · exact absurd (Option.some.inj hp) (hbr k s₁ s₂)
    · obtain ⟨hne, h₁, h₂⟩ := h.forked.fork p k s₁ s₂ hp
      exact ⟨hne, h₁.terminate fun s hm => (hs s hm).2.2, h₂.terminate fun s hm => (hs s hm).2.2⟩

end Edges

/-! ### Sealing -/

/-- Sealing a block in which nothing is parked. -/
def sealed (B : SsaBuilder) (b : BlockId) : SsaBuilder :=
  { B with isSealed := insertAt B.isSealed b true }

/-- A new block. -/
structure Fresh (B : SsaBuilder) (s : BlockId) : Prop where
  lt : s < B.size
  ne_zero : s ≠ 0
  notSealed : B.isSealed s = false
  noPreds : B.preds s = []
  open_ : B.func.termAt s = none
  nothing : B.incompletePhis s = []
  empty : B.func.instsAt s = []

section Seal

variable {ε : Type} {B B' B₀ : SsaBuilder} {b c d s s₁ s₂ : BlockId} {t : Terminator} {x : String}

theorem sealBlock_nil (h : B.incompletePhis b = []) :
    (B.sealBlock b : BuildM ε _) = .ok (B.sealed b) := by
  have hsame : insertAt B.incompletePhis b [] = B.incompletePhis := by
    funext c
    unfold insertAt
    split
    · next hc => rw [hc, h]
    · rfl
  simp only [sealBlock, h, hsame, fillPhis, ok_bind]
  rfl

theorem Sound.sealed (h : B.Sound) (hb : b < B.size) (hs : B.isSealed b = false)
    (hnil : B.incompletePhis b = []) : (B.sealed b).Sound := by
  obtain ⟨B', hok, hs', -⟩ := h.sealBlock (ε := Empty) hb hs
  rw [sealBlock_nil hnil] at hok
  obtain rfl := Except.ok.inj hok
  exact hs'

theorem NoPhis.sealed (h : B.NoPhis c) : (B.sealed b).NoPhis c := by
  refine ⟨?_, h.2⟩
  show insertAt B.isSealed b true c = true
  unfold insertAt
  split
  · rfl
  · exact h.1

theorem Steady.sealed (h : B.Steady) (hb : b < B.size) (hs : B.isSealed b = false)
    (hnil : B.incompletePhis b = []) : (B.sealed b).Steady :=
  ⟨h.sound.sealed hb hs hnil, h.grounded, h.forked.recorded, fun p k s₁ s₂ hp => by
    obtain ⟨hne, h₁, h₂⟩ := h.forked.fork p k s₁ s₂ hp
    exact ⟨hne, h₁.sealed, h₂.sealed⟩⟩

theorem Since.sealed (h : Since B₀ b B) (hd : B₀.size ≤ d) : Since B₀ b (B.sealed d) := by
  refine ⟨h.size, h.preds, h.entered, h.defs, h.term, fun c hc => ?_, h.quiet⟩
  show insertAt B.isSealed d true c = _
  rw [insertAt, if_neg, h.closed c hc]
  rintro rfl
  exact absurd hc (Nat.not_lt.mpr hd)

theorem Sound.newBlock_fresh (h : B.Sound) : B.newBlock.2.Fresh B.size := by
  obtain ⟨hopen, hseal, hne⟩ := h.fresh (Nat.le_refl B.size)
  have hcalm := Calm.newBlock h
  refine ⟨(Nat.lt_succ_self _).trans_eq h.newBlock.2.size.symm, hne, hseal, ?_, ?_, ?_, ?_⟩
  · rw [hcalm.preds]
    exact h.preds_outside (Nat.le_refl _)
  · rw [hcalm.term]
    exact h.isTerminated_iff.mp hopen
  · exact h.parked_outside (Nat.le_refl _)
  · rw [newBlock_instsAt]
    simp [Function.instsAt]

theorem Fresh.newBlock (h : B.Fresh s) (hs : B.Sound) : B.newBlock.2.Fresh s := by
  have hcalm := Calm.newBlock hs
  exact ⟨Nat.lt_of_lt_of_le h.lt hcalm.size, h.ne_zero, h.notSealed, by rw [hcalm.preds, h.noPreds],
    by rw [hcalm.term, h.open_], h.nothing, by rw [newBlock_instsAt, h.empty]⟩

theorem Fresh.target (h : B.Fresh s) (hd : s ≠ d) : B.Target d s :=
  .inl ⟨h.open_, hd, h.nothing⟩

/-- A branch to two new blocks, which are then sealed. -/
def forked (B : SsaBuilder) (d : BlockId) (t : Terminator) (s₁ s₂ : BlockId) : SsaBuilder :=
  ((B.terminated d t).sealed s₁).sealed s₂

/-- The conditions of a branch in `d` to the new blocks `s₁` and `s₂`. -/
structure Fork (B : SsaBuilder) (d : BlockId) (t : Terminator) (s₁ s₂ : BlockId) : Prop where
  lt : d < B.size
  reach : B.Reach d
  branch : ∃ k, t = .branch k s₁ s₂ ∨ t = .branch k s₂ s₁
  ne : s₁ ≠ s₂
  fresh₁ : B.Fresh s₁
  fresh₂ : B.Fresh s₂
  ne₁ : s₁ ≠ d
  ne₂ : s₂ ≠ d

section Fork

variable (h : B.Fork d t s₁ s₂)
include h

theorem Fork.mem : s ∈ t.successors ↔ s = s₁ ∨ s = s₂ := by
  obtain ⟨k, rfl | rfl⟩ := h.branch
  · simp [Terminator.successors]
  · simp [Terminator.successors, or_comm]

theorem Fork.target : ∀ s ∈ t.successors, B.Target d s := by
  intro s hm
  rcases h.mem.mp hm with rfl | rfl
  · exact h.fresh₁.target h.ne₁
  · exact h.fresh₂.target h.ne₂

theorem Fork.successors : ∀ s ∈ t.successors, s < B.size ∧ s ≠ 0 ∧ B.isSealed s = false := by
  intro s hm
  rcases h.mem.mp hm with rfl | rfl
  · exact ⟨h.fresh₁.lt, h.fresh₁.ne_zero, h.fresh₁.notSealed⟩
  · exact ⟨h.fresh₂.lt, h.fresh₂.ne_zero, h.fresh₂.notSealed⟩

omit h in
theorem Fork.sealed_apply (c : BlockId) :
    (B.forked d t s₁ s₂).isSealed c = if c = s₂ then true else if c = s₁ then true else B.isSealed c :=
  rfl

theorem Fork.sound : (B.terminated d t).Sound → (B.forked d t s₁ s₂).Sound := by
  intro hs
  have hsize := size_terminated (B := B) (b := d) t
  have hs₁ := hs.sealed (h.fresh₁.lt.trans_eq hsize.symm) h.fresh₁.notSealed h.fresh₁.nothing
  refine hs₁.sealed (h.fresh₂.lt.trans_eq hsize.symm) ?_ h.fresh₂.nothing
  show (if s₂ = s₁ then true else B.isSealed s₂) = false
  rw [if_neg h.ne.symm, h.fresh₂.notSealed]

/-- Each of the two blocks has one predecessor and no phi. -/
theorem Fork.noPhis (hs : s = s₁ ∨ s = s₂) : (B.forked d t s₁ s₂).NoPhis s := by
  have hfresh : B.Fresh s := by
    rcases hs with rfl | rfl
    · exact h.fresh₁
    · exact h.fresh₂
  refine ⟨?_, ⟨d, ?_⟩, fun i hi => ?_⟩
  · rw [Fork.sealed_apply]
    rcases hs with rfl | rfl <;> simp
  · show (B.terminated d t).preds s = [d]
    rw [preds_terminated, hfresh.noPreds, List.nil_append]
    obtain ⟨k, rfl | rfl⟩ := h.branch <;> rcases hs with rfl | rfl <;>
      simp [Terminator.successors, h.ne, h.ne.symm]
  · change i ∈ (B.func.modify d _).instsAt s at hi
    rw [Function.instsAt_modify_term d t, hfresh.empty] at hi
    exact absurd hi List.not_mem_nil

theorem Steady.fork (hst : B.Steady) : (B.forked d t s₁ s₂).Steady := by
  have hterm : ∀ c, (B.forked d t s₁ s₂).func.termAt c = if c = d then some t else B.func.termAt c :=
    fun c => termAt_terminated h.lt t
  refine ⟨h.sound (hst.sound.terminated h.lt h.reach h.successors),
    hst.grounded.terminate hst.sound h.target, ⟨fun p t' hp s hm => ?_, fun p k r₁ r₂ hp => ?_⟩⟩
  · show p ∈ (B.terminated d t).preds s
    rw [hterm] at hp
    split at hp
    · next hpd =>
      obtain rfl := Option.some.inj hp
      exact mem_preds_terminated.mpr (.inr ⟨hpd, hm⟩)
    · exact mem_preds_terminated.mpr (.inl (hst.forked.recorded p t' hp s hm))
  · rw [hterm] at hp
    split at hp
    · -- the branch itself, with its targets in either order
      obtain rfl := Option.some.inj hp
      have hmem : ∀ s, s = r₁ ∨ s = r₂ → s = s₁ ∨ s = s₂ := fun s hs =>
        h.mem.mp (by simpa [Terminator.successors] using hs)
      refine ⟨?_, h.noPhis (hmem r₁ (.inl rfl)), h.noPhis (hmem r₂ (.inr rfl))⟩
      obtain ⟨k', he | he⟩ := h.branch
      · cases he
        exact h.ne
      · cases he
        exact h.ne.symm
    · obtain ⟨hne, h₁, h₂⟩ := hst.forked.fork p k r₁ r₂ hp
      have hun : ∀ s ∈ t.successors, B.isSealed s = false := fun s hm => (h.successors s hm).2.2
      exact ⟨hne, (h₁.terminate hun).sealed.sealed, (h₂.terminate hun).sealed.sealed⟩

theorem Since.fork (hsn : Since B₀ b B) (hdb : d = b ∨ B₀.size ≤ d) (h₁ : B₀.size ≤ s₁)
    (h₂ : B₀.size ≤ s₂) : Since B₀ b (B.forked d t s₁ s₂) := by
  refine ((hsn.terminate h.lt hdb fun s hm => ?_).sealed h₁).sealed h₂
  rcases h.mem.mp hm with rfl | rfl
  · exact h₁
  · exact h₂

end Fork

theorem Reach.mono (h : B.Reach c) (hp : ∀ p c, p ∈ B.preds c → p ∈ B'.preds c) : B'.Reach c := by
  obtain ⟨π, hw⟩ := h
  exact ⟨π, hw.mono hp⟩

theorem Reach.step (h : B.Reach d) (hp : d ∈ B.preds c) : B.Reach c := by
  obtain ⟨π, hw⟩ := h
  exact ⟨d :: π, .step hw hp⟩

theorem Reach.terminated (h : B.Reach c) : (B.terminated d t).Reach c :=
  h.mono fun _ _ hp => mem_preds_terminated.mpr (.inl hp)

theorem Reach.target (h : B.Reach d) (hs : s ∈ t.successors) : (B.terminated d t).Reach s :=
  (Reach.terminated h).step (mem_preds_terminated.mpr (.inr ⟨rfl, hs⟩))

/-- Two new blocks, and a branch to them. -/
theorem Sound.fork (h : B.Sound) (hd : d < B.size) (hr : B.Reach d) {k : ValueId}
    (ht : t = .branch k B.size (B.size + 1) ∨ t = .branch k (B.size + 1) B.size) :
    B.newBlock.2.newBlock.2.Fork d t B.size (B.size + 1) := by
  obtain ⟨hs₁, h₁⟩ := h.newBlock
  obtain ⟨-, h₂⟩ := hs₁.newBlock
  have hc := h₁.trans h₂
  have hfresh₁ := h.newBlock_fresh.newBlock hs₁
  have hfresh₂ := hs₁.newBlock_fresh
  rw [h₁.size] at hfresh₂
  exact ⟨hc.lt hd, hc.reach d hr, ⟨k, ht⟩, Nat.ne_of_lt (Nat.lt_succ_self _), hfresh₁, hfresh₂,
    Nat.ne_of_gt hd, Nat.ne_of_gt (Nat.lt_succ_of_lt hd)⟩

theorem Fork.newBlock (h : B.Fork d t s₁ s₂) (hs : B.Sound) : B.newBlock.2.Fork d t s₁ s₂ := by
  obtain ⟨-, hc⟩ := hs.newBlock
  exact ⟨hc.lt h.lt, hc.reach d h.reach, h.branch, h.ne, h.fresh₁.newBlock hs, h.fresh₂.newBlock hs,
    h.ne₁, h.ne₂⟩

theorem Fork.termAt (h : B.Fork d t s₁ s₂) (c : BlockId) :
    (B.forked d t s₁ s₂).func.termAt c = if c = d then some t else B.func.termAt c :=
  Function.termAt_modify d t h.lt c

/-- The targets are entered from the branch. -/
theorem Fork.entered (h : B.Fork d t s₁ s₂) (hs : s = s₁ ∨ s = s₂) :
    d ∈ (B.forked d t s₁ s₂).preds s := mem_preds_terminated.mpr (.inr ⟨rfl, h.mem.mpr hs⟩)

theorem Fork.reached (h : B.Fork d t s₁ s₂) (hs : s = s₁ ∨ s = s₂) :
    (B.forked d t s₁ s₂).Reach s :=
  Reach.mono (B := B.terminated d t) (Reach.target h.reach (h.mem.mpr hs)) fun _ _ hp => hp

/-- A block that is not one of the targets stays new. -/
theorem Fork.fresh (h : B.Fork d t s₁ s₂) (hs : B.Fresh s) (hd : s ≠ d) (h₁ : s ≠ s₁)
    (h₂ : s ≠ s₂) : (B.forked d t s₁ s₂).Fresh s := by
  refine ⟨hs.lt.trans_eq (size_terminated t).symm, hs.ne_zero, ?_, ?_, ?_, hs.nothing, ?_⟩
  · rw [Fork.sealed_apply, if_neg h₂, if_neg h₁, hs.notSealed]
  · rw [List.eq_nil_iff_forall_not_mem]
    intro p hp
    rcases mem_preds_terminated.mp hp with hp | ⟨-, hm⟩
    · rw [hs.noPreds] at hp
      exact absurd hp List.not_mem_nil
    · exact (h.mem.mp hm).elim h₁ h₂
  · rw [h.termAt, if_neg hd, hs.open_]
  · show (B.func.modify d _).instsAt s = []
    rw [Function.instsAt_modify_term d t, hs.empty]

theorem Fresh.emitted (h : B.Fresh s) (hb : b < B.size) (hs : s ≠ b) (ty : Ty) (kind : InstKind) :
    (B.emitted b ty kind).Fresh s := by
  refine ⟨h.lt.trans_eq (size_emitted ty kind).symm, h.ne_zero, h.notSealed, h.noPreds, ?_,
    h.nothing, ?_⟩
  · rw [termAt_emitted, h.open_]
  · rw [instsAt_emitted hb, if_neg hs, h.empty]

/-- Sealing a block in which phis are parked: the variables are known at the ends of its
predecessors, so none of the look-ups is lost. -/
theorem seal_strict (other : SsaBuilder → BlockId → BuildM ε (ValueId × SsaBuilder)) (h : B.Sound)
    (hg : B.GroundedAt b) (hok : (B.sealBlock b : BuildM ε _) = .ok B') :
    strictSeal other B b = .ok B' ∧ B'.preds = B.preds ∧
      B'.isSealed = insertAt B.isSealed b true ∧
      (∀ c y, B.currentDef c y ≠ none → B'.currentDef c y ≠ none) ∧
      ∀ c, ∃ new, B'.incompletePhis c = (if c = b then [] else B.incompletePhis c) ++ new ∧
        ∀ e ∈ new, B.MayPark (fun _ => False) e.1 c := by
  obtain ⟨B₁, h₁, hok⟩ := bind_eq_ok.mp hok
  obtain rfl := Except.ok.inj hok
  have hfind := fillPhis_finds (B := { B with incompletePhis := insertAt B.incompletePhis b [] })
    (N := B.MayPark fun _ => False)
    (S := fun y c => B.Known y c ∧ (False ∨ B.func.termAt c ≠ none) ∧ B.Reach c) other
    (fun e he => by
      have hs := sought (x := e.1) h fun _ => False
      exact ⟨⟨hs.back, hs.entered, hs.parks⟩,
        fun p hp => ⟨hg e he p hp, .inr (h.edges hp).2.2, h.reach_pred hp⟩⟩) h₁
  obtain ⟨h₁', hk⟩ := hfind
  refine ⟨?_, hk.preds, ?_, hk.defs, fun c => hk.parked c⟩
  · simp only [strictSeal, h₁', ok_bind]
    rfl
  · show insertAt B₁.isSealed b true = _
    rw [hk.isSealed]

/-- What sealing leaves alone. -/
theorem seal_same (h : B.Sound) (hb : b < B.size) (hs : B.isSealed b = false)
    (hok : (B.sealBlock b : BuildM ε _) = .ok B') :
    B'.Sound ∧ B'.size = B.size ∧ (∀ c, B'.func.termAt c = B.func.termAt c) ∧
      (∀ c, B.NoPhis c → B'.NoPhis c) ∧ (B.Exact → B'.Exact) := by
  have hexact : B.Exact → B'.Exact := by
    rintro ⟨g, hg, rfl⟩
    obtain ⟨g', hok', hg', -, hsize, hterm, hpreds, -⟩ := hg.toSound.sealBlock (ε := ε) hb hs
    obtain rfl := Except.ok.inj (hok'.symm.trans hok)
    exact ⟨g', hg.of_same hg' hsize hterm hpreds, rfl⟩
  obtain ⟨g, hg, rfl⟩ := h
  obtain ⟨g', hok', hg', -, hsize, hterm, -, -, -, hno, -⟩ := hg.sealBlock (ε := ε) hb hs
  obtain rfl := Except.ok.inj (hok'.symm.trans hok)
  exact ⟨⟨g', hg', rfl⟩, hsize, hterm, hno, hexact⟩

theorem Steady.sealBlock (h : B.Steady) (hb : b < B.size) (hs : B.isSealed b = false)
    (hok : (B.sealBlock b : BuildM ε _) = .ok B') : B'.Steady := by
  obtain ⟨hs', -, hterm, hno, -⟩ := seal_same h.sound hb hs hok
  obtain ⟨-, hpreds, -, hdefs, hparked⟩ :=
    seal_strict (fun _ _ => .error .outOfFuel) h.sound (h.grounded b) hok
  have hknown : ∀ {y c}, B.Known y c → B'.Known y c := by
    intro y c hy
    refine Meets.covers hy ?_ fun d hd => hdefs d y hd
    rw [show B'.Edge = B.Edge by funext p c; rw [Edge, Edge, hpreds]]
    exact .refl
  refine ⟨hs', fun c e he p hp => ?_, ⟨fun p t ht s hm => ?_, fun p k s₁ s₂ ht => ?_⟩⟩
  · rw [hpreds] at hp
    obtain ⟨new, hnew, hall⟩ := hparked c
    rw [hnew, List.mem_append] at he
    rcases he with he | he
    · split at he
      · exact absurd he List.not_mem_nil
      · exact hknown (h.grounded c e he p hp)
    · exact hknown ((hall e he).1 p hp)
  · rw [hpreds]
    exact h.forked.recorded p t (hterm p ▸ ht) s hm
  · obtain ⟨hne, h₁, h₂⟩ := h.forked.fork p k s₁ s₂ (hterm p ▸ ht)
    exact ⟨hne, hno s₁ h₁, hno s₂ h₂⟩

theorem Since.sealBlock (h : Since B₀ b B) (hst : B.Steady) (hd : d < B.size) (hdb : B₀.size ≤ d)
    (hs : B.isSealed d = false) (hok : (B.sealBlock d : BuildM ε _) = .ok B') : Since B₀ b B' := by
  obtain ⟨-, hsize, hterm, -, -⟩ := seal_same hst.sound hd hs hok
  obtain ⟨-, hpreds, hseal, hdefs, hparked⟩ :=
    seal_strict (fun _ _ => .error .outOfFuel) hst.sound (hst.grounded d) hok
  have hne : ∀ c < B₀.size, c ≠ d := fun c hc he => Nat.not_lt.mpr hdb (he ▸ hc)
  refine ⟨h.size.trans_eq hsize.symm, fun c hc => by rw [hpreds, h.preds c hc],
    fun c p hc hp => h.entered c p hc (hpreds ▸ hp), fun c y hy => hdefs c y (h.defs c y hy),
    fun c hc hcb => (hterm c).trans (h.term c hc hcb), fun c hc => ?_, fun c hc hcb ht => ?_⟩
  · rw [hseal, insertAt, if_neg (hne c hc), h.closed c hc]
  · obtain ⟨new, hnew, hall⟩ := hparked c
    have hnil : new = [] := by
      rw [List.eq_nil_iff_forall_not_mem]
      exact fun e he => (hall e he).2.resolve_left id ((h.term c hc hcb).trans ht)
    rw [hnew, if_neg (hne c hc), hnil, List.append_nil, h.quiet c hc hcb ht]

end Seal

/-! ### One terminator for each block -/

section Exact

variable {ε : Type} {B B' : SsaBuilder} {b d s₁ s₂ : BlockId} {t : Terminator} {x : String}

theorem Exact.newBlock (h : B.Exact) : B.newBlock.2.Exact := by
  obtain ⟨g, hg, rfl⟩ := h
  exact ⟨g.newBlock, hg.newBlock, rfl⟩

theorem Exact.emitted (h : B.Exact) (hb : b < B.size) (ht : B.func.termAt b = none) (ty : Ty)
    (kind : InstKind) : (B.emitted b ty kind).Exact := by
  obtain ⟨g, hg, rfl⟩ := h
  obtain ⟨-, hg', -, hsame⟩ := hg.toSound.emit (ε := Empty) hb ht ty kind
  exact ⟨_, hg.of_same hg' hsame.size hsame.term hsame.preds, rfl⟩

theorem Exact.write (h : B.Exact) (hb : b < B.size) (ht : B.func.termAt b = none) (v : ValueId) :
    (B.writeVariable x b v).Exact := by
  obtain ⟨g, hg, rfl⟩ := h
  obtain ⟨hg', -, hsame⟩ := hg.toSound.write hb ht x v
  exact ⟨_, hg.of_same hg' hsame.size hsame.term hsame.preds, rfl⟩

theorem Exact.read (h : B.Exact) (hb : b < B.size) (ht : B.func.termAt b = none) {ty : Ty}
    {r : ValueId × SsaBuilder} (hok : (B.read x b ty : BuildM ε _) = .ok r) : r.2.Exact := by
  obtain ⟨g, hg, rfl⟩ := h
  obtain ⟨v, g', hok', hg', -, hsame, -⟩ := hg.toSound.read (ε := ε) hb ht x ty
  obtain rfl := Except.ok.inj (hok'.symm.trans hok)
  exact ⟨_, hg.of_same hg' hsame.size hsame.term hsame.preds, rfl⟩

theorem Exact.terminated (h : B.Exact) (hd : d < B.size) (ht : B.func.termAt d = none)
    (hr : B.Reach d) (hs : ∀ s ∈ t.successors, s < B.size ∧ s ≠ 0 ∧ B.isSealed s = false) :
    (B.terminated d t).Exact := by
  obtain ⟨g, hg, rfl⟩ := h
  exact ⟨g.terminate d t, hg.terminate hd ht hr hs, rfl⟩

theorem Exact.sealed (h : B.Exact) (hb : b < B.size) (hs : B.isSealed b = false)
    (hnil : B.incompletePhis b = []) : (B.sealed b).Exact := by
  have hsound : B.Sound := by
    obtain ⟨g, hg, rfl⟩ := h
    exact ⟨g, hg.toSound, rfl⟩
  exact (seal_same (ε := Empty) hsound hb hs (sealBlock_nil hnil)).2.2.2.2 h

theorem Exact.fork (h : B.Exact) (hf : B.Fork d t s₁ s₂) (ht : B.func.termAt d = none) :
    (B.forked d t s₁ s₂).Exact := by
  have hsize := size_terminated (B := B) (b := d) t
  have h₁ := (h.terminated hf.lt ht hf.reach hf.successors).sealed
    (hf.fresh₁.lt.trans_eq hsize.symm) hf.fresh₁.notSealed hf.fresh₁.nothing
  refine h₁.sealed (hf.fresh₂.lt.trans_eq hsize.symm) ?_ hf.fresh₂.nothing
  show (if s₂ = s₁ then true else B.isSealed s₂) = false
  rw [if_neg hf.ne.symm, hf.fresh₂.notSealed]

/-- An exact builder has recorded no edge that its terminators do not have. -/
theorem Exact.edge (h : B.Exact) (hd : b ∈ B.preds d) :
    ∃ t, B.func.termAt b = some t ∧ d ∈ t.successors := by
  obtain ⟨g, hg, rfl⟩ := h
  have hmem := (hg.preds d).mem_iff.mp hd
  obtain ⟨-, hs⟩ := hg.ok.graph.indexed.mem_predecessors.mp hmem
  cases ht : g.builder.func.termAt b with
  | none =>
    rw [ht] at hs
    exact absurd hs List.not_mem_nil
  | some t =>
    rw [ht] at hs
    exact ⟨t, rfl, hs⟩

end Exact

end SsaBuilder

end Parser
end Chakobsa
