import Chakobsa.Parser.BuilderSeal
import Chakobsa.Parser.Actions

/-!
# The discipline of the parser

The parser calls the builder in the way the builder relies on. `Tame` is what holds of a context
between two actions: the builder is sound, and the current block exists and can be reached from
the entry. From there every action of the parser ends with a value (none of them fails or panics),
and `Later` says what it may have changed: of the blocks there were before, it has terminated the
current one at most and sealed none.
-/

namespace Chakobsa
namespace Parser

open Ir ExceptLemmas

/-! ### Calls of the builder -/

namespace SsaBuilder

/-- The number of blocks. -/
abbrev size (B : SsaBuilder) : ℕ := B.func.blocks.length

/-- The builder has a history that the invariant holds of. -/
def Sound (B : SsaBuilder) : Prop := ∃ g : Ghost, g.Sound ∧ g.builder = B

/-- `B'` has `n` blocks more than `B`; since `B` the blocks `ended` have got terminators, and the
blocks `closed` have been sealed. -/
structure Changed (B B' : SsaBuilder) (n : ℕ) (ended closed : List BlockId) : Prop where
  size : B'.size = B.size + n
  ended : ∀ b, B'.isTerminated b = true ↔ B.isTerminated b = true ∨ b ∈ ended
  closed : ∀ b, B'.isSealed b = true ↔ B.isSealed b = true ∨ b ∈ closed
  reach : ∀ b, B.Reach b → B'.Reach b

section Calls

variable {ε : Type} {B B' B'' : SsaBuilder} {n n' : ℕ} {e e' c c' : List BlockId} {b : BlockId}

theorem Changed.trans (h : Changed B B' n e c) (h' : Changed B' B'' n' e' c') :
    Changed B B'' (n + n') (e ++ e') (c ++ c') := by
  refine ⟨?_, fun b => ?_, fun b => ?_, fun b hb => h'.reach b (h.reach b hb)⟩
  · rw [h'.size, h.size, Nat.add_assoc]
  · rw [h'.ended, h.ended, List.mem_append, or_assoc]
  · rw [h'.closed, h.closed, List.mem_append, or_assoc]

theorem Changed.lt (h : Changed B B' n e c) (hb : b < B.size) : b < B'.size :=
  Nat.lt_of_lt_of_le hb ((Nat.le_add_right _ _).trans_eq h.size.symm)

/-- The new blocks. -/
theorem Changed.lt_add (h : Changed B B' n e c) {i : ℕ} (hi : i < n) : B.size + i < B'.size :=
  (Nat.add_lt_add_left hi _).trans_eq h.size.symm

/-- A block that has not been terminated since. -/
theorem Changed.not_ended (h : Changed B B' n e c) (hb : B.isTerminated b = false) (he : b ∉ e) :
    B'.isTerminated b = false := by
  by_contra hn
  have := (h.ended b).mp (by simpa using hn)
  simp [hb, he] at this

theorem Changed.not_closed (h : Changed B B' n e c) (hb : B.isSealed b = false) (hc : b ∉ c) :
    B'.isSealed b = false := by
  by_contra hn
  have := (h.closed b).mp (by simpa using hn)
  simp [hb, hc] at this

/-- Blocks that do not exist yet are open. -/
theorem Sound.fresh (h : B.Sound) (hb : B.size ≤ b) :
    B.isTerminated b = false ∧ B.isSealed b = false ∧ b ≠ 0 := by
  obtain ⟨g, hs, rfl⟩ := h
  refine ⟨?_, ?_, ?_⟩
  · rw [isTerminated_eq hs.ok.graph.indexed, Function.termAt_of_length_le hb]
    rfl
  · by_contra hn
    exact absurd (hs.ok.graph.sealedLt b (by simpa using hn)) (Nat.not_lt.mpr hb)
  · rintro rfl
    exact absurd hs.ok.graph.pos (Nat.not_lt.mpr hb)

/-- A call that leaves the graph alone. -/
theorem Changed.of_same {g g' : Ghost} (hs : g.Sound) (hs' : g'.Sound) (h : SameGraph g g') :
    Changed g.builder g'.builder 0 [] [] := by
  refine ⟨h.size, fun b => ?_, fun b => ?_, fun b ⟨π, hw⟩ => ⟨π, hw.mono fun p c hp => ?_⟩⟩
  · rw [isTerminated_eq hs.ok.graph.indexed, isTerminated_eq hs'.ok.graph.indexed,
      show g'.builder.func.termAt b = g.builder.func.termAt b from h.term b]
    simp
  · rw [h.isSealed]
    simp
  · rw [Edge, h.preds]
    exact hp

theorem Sound.newBlock (h : B.Sound) :
    B.newBlock.2.Sound ∧ Changed B B.newBlock.2 1 [] [] := by
  obtain ⟨g, hs, rfl⟩ := h
  obtain ⟨hs', -, hsize, hterm, hpreds⟩ := hs.newBlock
  refine ⟨⟨_, hs', rfl⟩, hsize, fun b => ?_, fun b => ?_, fun b ⟨π, hw⟩ =>
    ⟨π, hw.mono fun p c hp => ?_⟩⟩
  · have ht : g.builder.newBlock.2.func.termAt b = g.builder.func.termAt b := hterm b
    have hidx : g.builder.newBlock.2.func.Indexed := hs'.ok.graph.indexed
    rw [isTerminated_eq hs.ok.graph.indexed, isTerminated_eq hidx, ht]
    simp
  · simp [SsaBuilder.newBlock]
  · show p ∈ g.newBlock.builder.preds c
    rw [hpreds]
    exact hp

theorem Sound.emit (h : B.Sound) (hb : b < B.size) (ht : B.isTerminated b = false) (ty : Ty)
    (kind : InstKind) :
    ∃ v B', (B.emit b ty kind : BuildM ε _) = .ok (v, B') ∧ B'.Sound ∧ Changed B B' 0 [] [] := by
  obtain ⟨g, hs, rfl⟩ := h
  rw [isTerminated_eq hs.ok.graph.indexed] at ht
  obtain ⟨hok, hs', -, hsame⟩ := hs.emit (ε := ε) hb (by simpa using ht) ty kind
  exact ⟨_, _, hok, ⟨_, hs', rfl⟩, .of_same hs hs' hsame⟩

theorem Sound.writeVariable (h : B.Sound) (hb : b < B.size) (ht : B.isTerminated b = false)
    (x : String) (v : ValueId) :
    (B.writeVariable x b v).Sound ∧ Changed B (B.writeVariable x b v) 0 [] [] := by
  obtain ⟨g, hs, rfl⟩ := h
  rw [isTerminated_eq hs.ok.graph.indexed] at ht
  obtain ⟨hs', -, hsame⟩ := hs.write hb (by simpa using ht) x v
  exact ⟨⟨_, hs', rfl⟩, .of_same hs hs' hsame⟩

theorem Sound.read (h : B.Sound) (hb : b < B.size) (ht : B.isTerminated b = false) (x : String)
    (ty : Ty) :
    ∃ v B', (B.read x b ty : BuildM ε _) = .ok (v, B') ∧ B'.Sound ∧ Changed B B' 0 [] [] := by
  obtain ⟨g, hs, rfl⟩ := h
  rw [isTerminated_eq hs.ok.graph.indexed] at ht
  obtain ⟨v, g', hok, hs', -, hsame, -⟩ := hs.read (ε := ε) hb (by simpa using ht) x ty
  exact ⟨v, _, hok, ⟨_, hs', rfl⟩, .of_same hs hs' hsame⟩

/-- A block that can be reached may be terminated, by edges to blocks that are not sealed. -/
theorem Sound.terminate (h : B.Sound) (hb : b < B.size) (hr : B.Reach b) {t : Terminator}
    (hs : ∀ s ∈ t.successors, s < B.size ∧ s ≠ 0 ∧ B.isSealed s = false) :
    ∃ B', (B.terminate b t : BuildM ε _) = .ok B' ∧ B'.Sound ∧ Changed B B' 0 [b] [] ∧
      ∀ s ∈ t.successors, B'.Reach s := by
  obtain ⟨g, hg, rfl⟩ := h
  obtain ⟨hok, hg', -, hsize, hterm, hpreds⟩ := hg.terminate (ε := ε) hb hr hs
  have hmono : ∀ c p, p ∈ g.builder.preds c → p ∈ (g.terminate b t).builder.preds c :=
    fun c p hp => by
      rw [hpreds]
      exact List.mem_append_left _ hp
  have hreach : ∀ c, g.builder.Reach c → (g.terminate b t).builder.Reach c :=
    fun c ⟨π, hw⟩ => ⟨π, hw.mono fun p d hp => hmono d p hp⟩
  refine ⟨_, hok, ⟨_, hg', rfl⟩, ⟨hsize, fun c => ?_, fun c => ?_, hreach⟩, fun s hs' => ?_⟩
  · have ht : (g.terminate b t).builder.func.termAt c = _ := hterm c
    rw [isTerminated_eq hg.ok.graph.indexed, isTerminated_eq hg'.ok.graph.indexed, ht]
    by_cases hc : c = b <;> simp [hc]
  · simp [Ghost.terminate, terminated]
  · obtain ⟨π, hw⟩ := hreach b hr
    refine ⟨b :: π, .step hw ?_⟩
    show b ∈ (g.terminate b t).builder.preds s
    rw [hpreds]
    exact List.mem_append_right _ (List.mem_map.mpr ⟨s, List.mem_filter.mpr ⟨hs', by simp⟩, rfl⟩)

theorem Sound.sealBlock (h : B.Sound) (hb : b < B.size) (hs : B.isSealed b = false) :
    ∃ B', (B.sealBlock b : BuildM ε _) = .ok B' ∧ B'.Sound ∧ Changed B B' 0 [] [b] := by
  obtain ⟨g, hg, rfl⟩ := h
  obtain ⟨g', hok, hg', -, hsize, hterm, hpreds, hseal, -⟩ := hg.sealBlock (ε := ε) hb hs
  refine ⟨_, hok, ⟨g', hg', rfl⟩, hsize, fun c => ?_, fun c => ?_, fun c ⟨π, hw⟩ =>
    ⟨π, hw.mono fun p d hp => ?_⟩⟩
  · rw [isTerminated_eq hg.ok.graph.indexed, isTerminated_eq hg'.ok.graph.indexed,
      show g'.builder.func.termAt c = _ from hterm c]
    simp
  · rw [hseal]
    by_cases hc : c = b <;> simp [insertAt, hc]
  · rw [Edge, hpreds]
    exact hp

end Calls

end SsaBuilder

/-! ### Contexts -/

namespace FnContext

abbrev size (ctx : FnContext) : ℕ := ctx.builder.size

/-- What holds of a context between two actions. -/
structure Tame (ctx : FnContext) : Prop where
  sound : ctx.builder.Sound
  here : ctx.currentBlock < ctx.size
  reach : ctx.builder.Reach ctx.currentBlock
  scopes : ctx.scopes ≠ []

/-- The current block has no terminator. -/
def Open (ctx : FnContext) : Prop := ctx.builder.isTerminated ctx.currentBlock = false

theorem Tame.ne_new {ctx : FnContext} (h : ctx.Tame) (i : ℕ) : ctx.size + i ≠ ctx.currentBlock :=
  fun he => Nat.not_lt.mpr (he ▸ Nat.le_add_right ctx.size i) h.here

/-- From one context to a later one. -/
structure Later (ctx ctx' : FnContext) : Prop where
  size : ctx.size ≤ ctx'.size
  ended : ∀ b < ctx.size, b ≠ ctx.currentBlock →
    ctx'.builder.isTerminated b = ctx.builder.isTerminated b
  closed : ∀ b < ctx.size, ctx'.builder.isSealed b = ctx.builder.isSealed b
  reach : ∀ b, ctx.builder.Reach b → ctx'.builder.Reach b
  here : ctx'.currentBlock = ctx.currentBlock ∨ ctx.size ≤ ctx'.currentBlock
  retTy : ctx'.retTy = ctx.retTy
  sigs : ctx'.sigs = ctx.sigs

/-- From an open context to an open one with the same scopes, as while an expression is read. -/
structure Evaluated (ctx ctx' : FnContext) : Prop extends Later ctx ctx' where
  tame : ctx'.Tame
  isOpen : ctx'.Open
  scopes : ctx'.scopes = ctx.scopes

section Later

variable {ctx ctx' ctx'' : FnContext} {b : BlockId}

theorem Later.refl : Later ctx ctx :=
  ⟨Nat.le_refl _, fun _ _ _ => rfl, fun _ _ => rfl, fun _ h => h, .inl rfl, rfl, rfl⟩

/-- A block that is not the current one does not become it. -/
theorem Later.ne_here (h : Later ctx ctx') (hb : b < ctx.size) (hne : b ≠ ctx.currentBlock) :
    b ≠ ctx'.currentBlock := by
  rintro rfl
  rcases h.here with he | he
  · exact hne he
  · exact absurd hb (Nat.not_lt.mpr he)

theorem Later.trans (h : Later ctx ctx') (h' : Later ctx' ctx'') : Later ctx ctx'' := by
  refine ⟨h.size.trans h'.size, fun b hb hne => ?_, fun b hb => ?_,
    fun b hb => h'.reach b (h.reach b hb), ?_, h'.retTy.trans h.retTy, h'.sigs.trans h.sigs⟩
  · have hlt := Nat.lt_of_lt_of_le hb h.size
    rw [h'.ended b hlt (h.ne_here hb hne), h.ended b hb hne]
  · rw [h'.closed b (Nat.lt_of_lt_of_le hb h.size), h.closed b hb]
  · rcases h'.here with he | he
    · rw [he]
      exact h.here
    · exact .inr (h.size.trans he)

theorem Evaluated.refl (ht : ctx.Tame) (ho : ctx.Open) : Evaluated ctx ctx := ⟨.refl, ht, ho, rfl⟩

theorem Evaluated.trans (h : Evaluated ctx ctx') (h' : Evaluated ctx' ctx'') : Evaluated ctx ctx'' :=
  ⟨h.toLater.trans h'.toLater, h'.tame, h'.isOpen, h'.scopes.trans h.scopes⟩

/-- Further calls, that terminate the current block or new ones and seal new ones. -/
theorem Later.then_changed {B' : SsaBuilder} {n : ℕ} {e c : List BlockId} {scopes : List Scope}
    (h : Later ctx ctx') (hch : SsaBuilder.Changed ctx'.builder B' n e c)
    (he : ∀ b ∈ e, b = ctx'.currentBlock ∨ ctx.size ≤ b) (hc : ∀ b ∈ c, ctx.size ≤ b)
    (hb : b = ctx'.currentBlock ∨ ctx.size ≤ b) :
    Later ctx { ctx' with builder := B', scopes := scopes, currentBlock := b } := by
  refine ⟨h.size.trans ((Nat.le_add_right _ _).trans_eq hch.size.symm), fun d hd hne => ?_,
    fun d hd => ?_, fun d hd => hch.reach d (h.reach d hd), ?_, h.retTy, h.sigs⟩
  · have hnot : d ∉ e := fun hm => (he d hm).elim (h.ne_here hd hne) (Nat.not_le.mpr hd)
    rw [← h.ended d hd hne, Bool.eq_iff_iff, hch.ended]
    simp [hnot]
  · have hnot : d ∉ c := fun hm => Nat.not_le.mpr hd (hc d hm)
    rw [← h.closed d hd, Bool.eq_iff_iff, hch.closed]
    simp [hnot]
  · rcases hb with rfl | hb
    · exact h.here
    · exact .inr hb

end Later

end FnContext

/-! ### Actions -/

section Actions

open FnContext

variable {α β : Type} {ctx ctx' c₁ c₂ : FnContext}

theorem act_run {x : ActM α} {f : α → ActM β} {a : α} (h : x ctx = .ok (a, ctx')) :
    (x >>= f) ctx = f a ctx' := by
  show (x ctx >>= fun p => f p.1 p.2) = _
  rw [h]
  rfl

/-- A call of the builder that ends with a value. -/
theorem build_run {f : SsaBuilder → BuildM ParseError (α × SsaBuilder)} {a : α} {B' : SsaBuilder}
    (h : f ctx.builder = .ok (a, B')) : build f ctx = .ok (a, { ctx with builder := B' }) :=
  build_ok.mpr ⟨B', h, rfl⟩

theorem newBlock_run {b : BlockId} (h : ctx.size = b) :
    newBlock ctx = .ok (b, { ctx with builder := ctx.builder.newBlock.2 }) := by
  subst h
  rfl

theorem currentBlock_run : currentBlock ctx = .ok (ctx.currentBlock, ctx) := rfl

theorem enterBlock_run (b : BlockId) :
    enterBlock b ctx = .ok ((), { ctx with currentBlock := b }) := rfl

theorem terminate_run {b : BlockId} {t : Terminator} {B' : SsaBuilder}
    (h : (ctx.builder.terminate b t : BuildM ParseError _) = .ok B') :
    terminate b t ctx = .ok ((), { ctx with builder := B' }) := by
  rw [terminate_eq]
  exact build_run (by simp only [h, ok_bind]; rfl)

theorem sealBlock_run {b : BlockId} {B' : SsaBuilder}
    (h : (ctx.builder.sealBlock b : BuildM ParseError _) = .ok B') :
    sealBlock b ctx = .ok ((), { ctx with builder := B' }) := by
  rw [sealBlock_eq]
  exact build_run (by simp only [h, ok_bind]; rfl)

theorem readVariable_run {x : String} {b : BlockId} {ty : Ty} {v : ValueId} {B' : SsaBuilder}
    (h : (ctx.builder.read x b ty : BuildM ParseError _) = .ok (v, B')) :
    readVariable x b ty ctx = .ok (v, { ctx with builder := B' }) := by
  rw [readVariable_eq]
  exact build_run h

/-- The call leaves the current block open. -/
theorem FnContext.Evaluated.of_changed {B' : SsaBuilder} (ht : ctx.Tame) (ho : ctx.Open)
    (hs : B'.Sound) (h : SsaBuilder.Changed ctx.builder B' 0 [] []) :
    Evaluated ctx { ctx with builder := B' } := by
  refine ⟨Later.refl.then_changed h (by simp) (by simp) (.inl rfl), ⟨hs, ht.here.trans_eq h.size.symm,
    h.reach _ ht.reach, ht.scopes⟩, h.not_ended ho (by simp), rfl⟩

theorem emitHere_run (ht : ctx.Tame) (ho : ctx.Open) (ty : Ty) (kind : InstKind) :
    ∃ v ctx', emitHere ty kind ctx = .ok (v, ctx') ∧ Evaluated ctx ctx' := by
  obtain ⟨v, B', hok, hs, h⟩ := ht.sound.emit (ε := ParseError) ht.here ho ty kind
  exact ⟨v, _, (act_run currentBlock_run).trans (build_run hok), .of_changed ht ho hs h⟩

theorem emitConst_run (ht : ctx.Tame) (ho : ctx.Open) (ty : Ty) (kind : InstKind) :
    ∃ v ctx', emitConst ty kind ctx = .ok ((v, ty), ctx') ∧ Evaluated ctx ctx' := by
  obtain ⟨v, ctx', hok, h⟩ := emitHere_run ht ho ty kind
  exact ⟨v, ctx', act_run hok, h⟩

/-- A variable in scope can be read. -/
theorem readName_run (ht : ctx.Tame) (ho : ctx.Open) {name : String} {ty : Ty}
    (hty : lookupVar ctx.scopes name = some ty) (span : Lexer.Span) :
    ∃ v ctx', readName name span ctx = .ok ((v, ty), ctx') ∧ Evaluated ctx ctx' := by
  obtain ⟨v, B', hok, hs, h⟩ := ht.sound.read (ε := ParseError) ht.here ho name ty
  refine ⟨v, _, ?_, .of_changed ht ho hs h⟩
  have hread : readVariable name ctx.currentBlock ty ctx = .ok (v, { ctx with builder := B' }) :=
    readVariable_run hok
  rw [readName, act_run (rfl : (get : ActM FnContext) ctx = .ok (ctx, ctx))]
  simp only [hty]
  exact act_run hread

theorem writeVariable_run (ht : ctx.Tame) (ho : ctx.Open) (name : String) (v : ValueId) :
    ∃ ctx', writeVariable name ctx.currentBlock v ctx = .ok ((), ctx') ∧ Evaluated ctx ctx' := by
  obtain ⟨hs, h⟩ := ht.sound.writeVariable ht.here ho name v
  exact ⟨_, rfl, .of_changed ht ho hs h⟩

/-- A call that passes the checks. -/
theorem emitCall_run (ht : ctx.Tame) (ho : ctx.Open) {name : String} {args : List (ValueId × Ty)}
    {span : Lexer.Span} {ty : Ty} (hargs : checkArgs ctx.sigs name args span = .ok ty) :
    ∃ v ctx', emitCall name args span ctx = .ok ((v, ty), ctx') ∧ Evaluated ctx ctx' := by
  obtain ⟨v, ctx', hok, h⟩ := emitHere_run ht ho ty (.call name (args.map Prod.fst))
  refine ⟨v, ctx', ?_, h⟩
  have hlift : (liftM (checkArgs ctx.sigs name args span) : ActM Ty) ctx = .ok (ty, ctx) :=
    act_lift.mpr ⟨hargs, rfl⟩
  exact (act_run (rfl : (get : ActM FnContext) ctx = .ok (ctx, ctx))).trans <|
    (act_run hlift).trans <| (act_run hok).trans rfl

/-! ### Simple statements -/

/-- A declaration goes to the innermost scope. -/
theorem writeLet_run (ht : ctx.Tame) (ho : ctx.Open) {s : Scope} {rest : List Scope}
    (hscopes : ctx.scopes = s :: rest) (name : String) (value : ValueId × Ty) :
    ∃ ctx', writeLet name value ctx = .ok ((), ctx') ∧ ctx'.Tame ∧ ctx'.Open ∧ Later ctx ctx' ∧
      ctx'.scopes = insertAt s name (some value.2) :: rest := by
  have hdecl : declare name value.2 ctx =
      .ok ((), { ctx with scopes := insertAt s name (some value.2) :: rest }) := by
    unfold declare
    rw [hscopes]
  have ht' : Tame { ctx with scopes := insertAt s name (some value.2) :: rest } :=
    ⟨ht.sound, ht.here, ht.reach, by simp⟩
  obtain ⟨ctx', hok, h⟩ := writeVariable_run ht' ho name value.1
  refine ⟨ctx', (act_run hdecl).trans ((act_run currentBlock_run).trans hok), h.tame, h.isOpen, ?_,
    h.scopes⟩
  exact ⟨h.size, h.ended, h.closed, h.reach, h.here, h.retTy, h.sigs⟩

theorem writeAssign_run (ht : ctx.Tame) (ho : ctx.Open) {name : String} {value : ValueId × Ty}
    (hty : lookupVar ctx.scopes name = some value.2) (span : Lexer.Span) :
    ∃ ctx', writeAssign name value span ctx = .ok ((), ctx') ∧ Evaluated ctx ctx' := by
  obtain ⟨ctx', hok, h⟩ := writeVariable_run ht ho name value.1
  refine ⟨ctx', ?_, h⟩
  rw [writeAssign, act_run (rfl : (get : ActM FnContext) ctx = .ok (ctx, ctx))]
  simpa [hty] using hok

/-- A `return` terminates the current block. -/
theorem ret_run (ht : ctx.Tame) (value : Option ValueId) :
    ∃ ctx', (do terminate (← currentBlock) (.ret value) : ActM Unit) ctx = .ok ((), ctx') ∧
      ctx'.Tame ∧ Later ctx ctx' ∧ ctx'.scopes = ctx.scopes ∧
      ctx'.builder.isTerminated ctx'.currentBlock = true := by
  obtain ⟨B', hok, hs, h, -⟩ := ht.sound.terminate (ε := ParseError) (t := .ret value) ht.here
    ht.reach (by simp [Terminator.successors])
  refine ⟨{ ctx with builder := B' }, (act_run currentBlock_run).trans (terminate_run hok),
    ⟨hs, h.lt ht.here, h.reach _ ht.reach, ht.scopes⟩,
    Later.refl.then_changed h (by simp) (by simp) (.inl rfl), rfl, (h.ended _).mpr (.inr (by simp))⟩

theorem isTerminated_run (b : BlockId) :
    isTerminated b ctx = .ok (ctx.builder.isTerminated b, ctx) := rfl

/-! ### Short-circuit operators -/

/-- In `ctx'`, what `openShortCircuit` has set up since `ctx`. -/
structure ShortCircuit.Opened (s : ShortCircuit) (ctx ctx' : FnContext) : Prop
    extends Evaluated ctx ctx' where
  new : ctx.size ≤ s.join
  lt : s.join < ctx'.size
  ne : s.join ≠ ctx'.currentBlock
  notEnded : ctx'.builder.isTerminated s.join = false
  notClosed : ctx'.builder.isSealed s.join = false
  ne_zero : s.join ≠ 0

/-- The right operand leaves the join alone. -/
theorem ShortCircuit.Opened.trans {s : ShortCircuit} (h : s.Opened ctx c₁) (h' : Evaluated c₁ c₂) :
    s.Opened ctx c₂ :=
  ⟨h.toEvaluated.trans h', h.new, Nat.lt_of_lt_of_le h.lt h'.size, h'.ne_here h.lt h.ne,
    (h'.ended _ h.lt h.ne).trans h.notEnded, (h'.closed _ h.lt).trans h.notClosed, h.ne_zero⟩

theorem openShortCircuit_run (ht : ctx.Tame) (short : Bool) (lhs : ValueId) :
    ∃ s ctx', openShortCircuit short lhs ctx = .ok (s, ctx') ∧ s.Opened ctx ctx' := by
  have hfresh := fun i : ℕ => ht.sound.fresh (Nat.le_add_right ctx.size i)
  have hne : ∀ i : ℕ, ctx.size + i ≠ ctx.currentBlock := fun i => ht.ne_new i
  obtain ⟨hs₁, h₁⟩ := ht.sound.newBlock
  obtain ⟨hs₂, h₂⟩ := hs₁.newBlock
  obtain ⟨hs₃, h₃⟩ := hs₂.newBlock
  have hc₃ := (h₁.trans h₂).trans h₃
  -- the current block ends in the branch
  obtain ⟨t, ht₄⟩ : ∃ t, t = if short then Terminator.branch lhs ctx.size (ctx.size + 1)
    else .branch lhs (ctx.size + 1) ctx.size := ⟨_, rfl⟩
  have hsucc : ∀ s ∈ t.successors, s = ctx.size + 0 ∨ s = ctx.size + 1 := by
    rw [ht₄]
    cases short <;> simp [Terminator.successors]
  have hmem : ctx.size ∈ t.successors ∧ ctx.size + 1 ∈ t.successors := by
    rw [ht₄]
    cases short <;> simp [Terminator.successors]
  obtain ⟨B₄, hok₄, hs₄, h₄, hr₄⟩ := hs₃.terminate (ε := ParseError) (b := ctx.currentBlock) (t := t)
    (hc₃.lt ht.here) (hc₃.reach _ ht.reach) (by
      intro s hs
      rcases hsucc s hs with rfl | rfl
      · exact ⟨hc₃.lt_add (by decide), (hfresh 0).2.2, hc₃.not_closed (hfresh 0).2.1 (by simp)⟩
      · exact ⟨hc₃.lt_add (by decide), (hfresh 1).2.2, hc₃.not_closed (hfresh 1).2.1 (by simp)⟩)
  have hc₄ := hc₃.trans h₄
  -- both blocks of the branch have all their predecessors
  obtain ⟨B₅, hok₅, hs₅, h₅⟩ := hs₄.sealBlock (ε := ParseError) (b := ctx.size)
    (hc₄.lt_add (i := 0) (by decide)) (hc₄.not_closed (hfresh 0).2.1 (by simp))
  have hc₅ := hc₄.trans h₅
  obtain ⟨B₆, hok₆, hs₆, h₆⟩ := hs₅.sealBlock (ε := ParseError) (b := ctx.size + 1)
    (hc₅.lt_add (by decide)) (hc₅.not_closed (hfresh 1).2.1 (by simp))
  have hc₆ := hc₅.trans h₆
  -- the short block jumps to the join
  obtain ⟨v, B₇, hok₇, hs₇, h₇⟩ := hs₆.emit (ε := ParseError) (b := ctx.size)
    (hc₆.lt_add (i := 0) (by decide)) (hc₆.not_ended (hfresh 0).1 (by simpa using hne 0)) .bool
    (.constBool short)
  have hc₇ := hc₆.trans h₇
  have hr₇ : ∀ b ∈ t.successors, B₇.Reach b := fun b hb =>
    h₇.reach _ (h₆.reach _ (h₅.reach _ (hr₄ _ hb)))
  obtain ⟨B₈, hok₈, hs₈, h₈, -⟩ := hs₇.terminate (ε := ParseError) (b := ctx.size)
    (t := .jump (ctx.size + 2)) (hc₇.lt_add (i := 0) (by decide)) (hr₇ _ hmem.1) (by
      intro s hs
      obtain rfl : s = ctx.size + 2 := by simpa [Terminator.successors] using hs
      exact ⟨hc₇.lt_add (by decide), (hfresh 2).2.2, hc₇.not_closed (hfresh 2).2.1 (by simp)⟩)
  have hc₈ := hc₇.trans h₈
  refine ⟨⟨ctx.size, v, ctx.size + 2⟩, { ctx with builder := B₈, currentBlock := ctx.size + 1 }, ?_,
    ⟨Later.refl.then_changed hc₈ ?_ ?_ (.inr (Nat.le_add_right _ _)), ?_, ?_, rfl⟩, ?_, ?_, ?_, ?_, ?_, ?_⟩
  · subst ht₄
    exact (act_run (newBlock_run rfl)).trans <| (act_run (newBlock_run h₁.size)).trans <|
      (act_run (newBlock_run (h₁.trans h₂).size)).trans <| (act_run currentBlock_run).trans <|
      (act_run (terminate_run hok₄)).trans <| (act_run (sealBlock_run hok₅)).trans <|
      (act_run (sealBlock_run hok₆)).trans <| (act_run (build_run hok₇)).trans <|
      (act_run (terminate_run hok₈)).trans rfl
  · simp
  · simp
  · exact ⟨hs₈, hc₈.lt_add (by decide), h₈.reach _ (hr₇ _ hmem.2), ht.scopes⟩
  · exact hc₈.not_ended (hfresh 1).1 (by simpa using hne 1)
  · exact Nat.le_add_right _ _
  · exact hc₈.lt_add (by decide)
  · simp
  · exact hc₈.not_ended (hfresh 2).1 (by simpa using hne 2)
  · exact hc₈.not_closed (hfresh 2).2.1 (by simp)
  · exact (hfresh 2).2.2

theorem closeShortCircuit_run {s : ShortCircuit} (h : s.Opened ctx c₁) (rval : ValueId) :
    ∃ v ctx', closeShortCircuit s rval c₁ = .ok (v, ctx') ∧ Evaluated ctx ctx' := by
  obtain ⟨B₁, hok₁, hs₁, h₁, hr₁⟩ := h.tame.sound.terminate (ε := ParseError) (t := .jump s.join)
    h.tame.here h.tame.reach (by
      intro b hb
      obtain rfl : b = s.join := by simpa [Terminator.successors] using hb
      exact ⟨h.lt, h.ne_zero, h.notClosed⟩)
  obtain ⟨B₂, hok₂, hs₂, h₂⟩ := hs₁.sealBlock (ε := ParseError) (b := s.join) (h₁.lt h.lt)
    (h₁.not_closed h.notClosed (by simp))
  have hc₂ := h₁.trans h₂
  obtain ⟨v, B₃, hok₃, hs₃, h₃⟩ := hs₂.emit (ε := ParseError) (b := s.join) (hc₂.lt h.lt)
    (hc₂.not_ended h.notEnded (by simpa using h.ne)) .bool
    (.phi [(s.shortBlock, s.shortVal), (c₁.currentBlock, rval)])
  have hc₃ := hc₂.trans h₃
  refine ⟨v, { c₁ with builder := B₃, currentBlock := s.join }, ?_, ?_, ?_, ?_, h.scopes⟩
  · exact (act_run currentBlock_run).trans <| (act_run (terminate_run hok₁)).trans <|
      (act_run (sealBlock_run hok₂)).trans <| (act_run (build_run hok₃)).trans rfl
  · refine h.toLater.then_changed hc₃ (by simp) (fun b hb => ?_) (.inr h.new)
    obtain rfl : b = s.join := by simpa using hb
    exact h.new
  · exact ⟨hs₃, hc₃.lt h.lt, h₃.reach _ (h₂.reach _ (hr₁ _ (by simp [Terminator.successors]))),
      h.tame.scopes⟩
  · exact hc₃.not_ended h.notEnded (by simpa using h.ne)

/-! ### Conditionals -/

/-- In `ctx'`, the block `b` has been set up since `ctx` and waits for its statements. -/
structure Waiting (b : BlockId) (ctx ctx' : FnContext) : Prop extends Later ctx ctx' where
  new : ctx.size ≤ b
  lt : b < ctx'.size
  ne : b ≠ ctx'.currentBlock
  notEnded : ctx'.builder.isTerminated b = false
  reached : ctx'.builder.Reach b

theorem Waiting.trans {b : BlockId} (h : Waiting b ctx c₁) (h' : Later c₁ c₂) : Waiting b ctx c₂ :=
  ⟨h.toLater.trans h', h.new, Nat.lt_of_lt_of_le h.lt h'.size, h'.ne_here h.lt h.ne,
    (h'.ended _ h.lt h.ne).trans h.notEnded, h'.reach _ h.reached⟩

/-- Going to the block that waits. -/
theorem Waiting.enter {b : BlockId} (h : Waiting b ctx c₁) (ht : c₁.Tame) :
    Later ctx { c₁ with currentBlock := b } ∧ Tame { c₁ with currentBlock := b } ∧
      Open { c₁ with currentBlock := b } :=
  ⟨⟨h.size, h.ended, h.closed, h.reach, .inr h.new, h.retTy, h.sigs⟩,
    ⟨ht.sound, h.lt, h.reached, ht.scopes⟩, h.notEnded⟩

theorem openIf_run (ht : ctx.Tame) (cond : ValueId) :
    ∃ elseBlock ctx', openIf cond ctx = .ok (elseBlock, ctx') ∧ ctx'.Tame ∧ ctx'.Open ∧
      ctx'.scopes = ctx.scopes ∧ ctx.size ≤ ctx'.currentBlock ∧ Waiting elseBlock ctx ctx' := by
  have hfresh := fun i : ℕ => ht.sound.fresh (Nat.le_add_right ctx.size i)
  have hne : ∀ i : ℕ, ctx.size + i ≠ ctx.currentBlock := fun i => ht.ne_new i
  obtain ⟨hs₁, h₁⟩ := ht.sound.newBlock
  obtain ⟨hs₂, h₂⟩ := hs₁.newBlock
  have hc₂ := h₁.trans h₂
  obtain ⟨B₃, hok₃, hs₃, h₃, hr₃⟩ := hs₂.terminate (ε := ParseError) (b := ctx.currentBlock)
    (t := .branch cond ctx.size (ctx.size + 1)) (hc₂.lt ht.here) (hc₂.reach _ ht.reach) (by
      intro s hs
      have hs : s = ctx.size + 0 ∨ s = ctx.size + 1 := by simpa [Terminator.successors] using hs
      rcases hs with rfl | rfl
      · exact ⟨hc₂.lt_add (by decide), (hfresh 0).2.2, hc₂.not_closed (hfresh 0).2.1 (by simp)⟩
      · exact ⟨hc₂.lt_add (by decide), (hfresh 1).2.2, hc₂.not_closed (hfresh 1).2.1 (by simp)⟩)
  have hc₃ := hc₂.trans h₃
  obtain ⟨B₄, hok₄, hs₄, h₄⟩ := hs₃.sealBlock (ε := ParseError) (b := ctx.size)
    (hc₃.lt_add (i := 0) (by decide)) (hc₃.not_closed (hfresh 0).2.1 (by simp))
  have hc₄ := hc₃.trans h₄
  obtain ⟨B₅, hok₅, hs₅, h₅⟩ := hs₄.sealBlock (ε := ParseError) (b := ctx.size + 1)
    (hc₄.lt_add (by decide)) (hc₄.not_closed (hfresh 1).2.1 (by simp))
  have hc₅ := hc₄.trans h₅
  refine ⟨ctx.size + 1, { ctx with builder := B₅, currentBlock := ctx.size }, ?_, ?_, ?_, rfl,
    Nat.le_refl _, Later.refl.then_changed hc₅ ?_ ?_ (.inr (Nat.le_refl _)), ?_, ?_, ?_, ?_, ?_⟩
  · exact (act_run (newBlock_run rfl)).trans <| (act_run (newBlock_run h₁.size)).trans <|
      (act_run currentBlock_run).trans <| (act_run (terminate_run hok₃)).trans <|
      (act_run (sealBlock_run hok₄)).trans <| (act_run (sealBlock_run hok₅)).trans rfl
  · exact ⟨hs₅, hc₅.lt_add (i := 0) (by decide), h₅.reach _ (h₄.reach _
      (hr₃ _ (by simp [Terminator.successors]))), ht.scopes⟩
  · exact hc₅.not_ended (hfresh 0).1 (by simpa using hne 0)
  · simp
  · simp
  · exact Nat.le_add_right _ _
  · exact hc₅.lt_add (by decide)
  · simp
  · exact hc₅.not_ended (hfresh 1).1 (by simpa using hne 1)
  · exact h₅.reach _ (h₄.reach _ (hr₃ _ (by simp [Terminator.successors])))

/-- A jump from the end of an arm to the join, unless the end is terminated. -/
def jumpUnless (ended : Bool) (b join : BlockId) : ActM Unit :=
  if ended = false then terminate b (.jump join) else pure ()

theorem jumpUnless_run (ended : Bool) {b : BlockId} (join : BlockId) (hs : ctx.builder.Sound)
    (hb : b < ctx.size) (hr : ctx.builder.Reach b)
    (hj : join < ctx.size ∧ join ≠ 0 ∧ ctx.builder.isSealed join = false) :
    ∃ B', jumpUnless ended b join ctx = .ok ((), { ctx with builder := B' }) ∧ B'.Sound ∧
      SsaBuilder.Changed ctx.builder B' 0 (if ended = false then [b] else []) [] ∧
      (ended = false → B'.Reach join) := by
  cases ended with
  | true => exact ⟨ctx.builder, rfl, hs, ⟨rfl, by simp, by simp, fun _ h => h⟩, by simp⟩
  | false =>
    obtain ⟨B', hok, hs', h, hr'⟩ := hs.terminate (ε := ParseError) (t := .jump join) hb hr (by
      intro s hm
      obtain rfl : s = join := by simpa [Terminator.successors] using hm
      exact hj)
    exact ⟨B', terminate_run hok, hs', h, fun _ => hr' _ (by simp [Terminator.successors])⟩

/-- The jumps to the join one after the other. -/
theorem closeIf_eq {thenTail : BlockId} {thenTerminated elseTerminated : Bool}
    (h : ¬ (thenTerminated = true ∧ elseTerminated = true)) :
    closeIf thenTail thenTerminated elseTerminated = (do
      let elseTail ← currentBlock
      let join ← newBlock
      jumpUnless thenTerminated thenTail join
      jumpUnless elseTerminated elseTail join
      sealBlock join
      enterBlock join) := by
  cases thenTerminated <;> cases elseTerminated
  all_goals first | exact absurd ⟨rfl, rfl⟩ h | rfl

/-- The end of an `if`: the current block is terminated exactly if both arms are. -/
theorem closeIf_run {thenTail : BlockId} {thenTerminated : Bool} (elseTerminated : Bool)
    (h : Later ctx c₁) (ht : c₁.Tame)
    (hthen : ctx.size ≤ thenTail ∧ thenTail < c₁.size ∧ c₁.builder.Reach thenTail)
    (hended : c₁.builder.isTerminated thenTail = thenTerminated) :
    ∃ ctx', closeIf thenTail thenTerminated elseTerminated c₁ = .ok ((), ctx') ∧ ctx'.Tame ∧
      Later ctx ctx' ∧ ctx'.scopes = c₁.scopes ∧
      ctx'.builder.isTerminated ctx'.currentBlock = (thenTerminated && elseTerminated) := by
  by_cases hboth : thenTerminated = true ∧ elseTerminated = true
  · obtain ⟨rfl, rfl⟩ := hboth
    refine ⟨{ c₁ with currentBlock := thenTail }, rfl, ⟨ht.sound, hthen.2.1, hthen.2.2, ht.scopes⟩,
      ?_, rfl, hended⟩
    exact ⟨h.size, h.ended, h.closed, h.reach, .inr hthen.1, h.retTy, h.sigs⟩
  · rw [closeIf_eq hboth]
    have hfresh := ht.sound.fresh (Nat.le_refl c₁.size)
    obtain ⟨hs₁, h₁⟩ := ht.sound.newBlock
    obtain ⟨B₂, hok₂, hs₂, h₂, hr₂⟩ := jumpUnless_run thenTerminated c₁.size
      (show ({ c₁ with builder := c₁.builder.newBlock.2 } : FnContext).builder.Sound from hs₁) (h₁.lt hthen.2.1)
      (h₁.reach _ hthen.2.2)
      ⟨h₁.lt_add (i := 0) (by decide), hfresh.2.2, h₁.not_closed hfresh.2.1 (by simp)⟩
    have hc₂ := h₁.trans h₂
    obtain ⟨B₃, hok₃, hs₃, h₃, hr₃⟩ := jumpUnless_run elseTerminated c₁.size
      (show ({ c₁ with builder := B₂ } : FnContext).builder.Sound from hs₂) (hc₂.lt ht.here) (hc₂.reach _ ht.reach)
      ⟨hc₂.lt_add (i := 0) (by decide), hfresh.2.2, hc₂.not_closed hfresh.2.1 (by simp)⟩
    have hc₃ := hc₂.trans h₃
    obtain ⟨B₄, hok₄, hs₄, h₄⟩ := hs₃.sealBlock (ε := ParseError) (b := c₁.size)
      (hc₃.lt_add (i := 0) (by decide)) (hc₃.not_closed hfresh.2.1 (by simp))
    have hc₄ := hc₃.trans h₄
    -- one of the arms reaches the join
    have hreach : B₄.Reach c₁.size := by
      refine h₄.reach _ ?_
      cases thenTerminated with
      | false => exact h₃.reach _ (hr₂ rfl)
      | true => exact hr₃ (by simpa using hboth)
    have hends : ∀ b ∈ ([] ++ if thenTerminated = false then [thenTail] else []) ++
        (if elseTerminated = false then [c₁.currentBlock] else []) ++ [],
        b = thenTail ∨ b = c₁.currentBlock := by
      intro b hb
      simp only [List.nil_append, List.append_nil, List.mem_append] at hb
      rcases hb with hb | hb
      · split at hb <;> simp_all
      · split at hb <;> simp_all
    have hopen : c₁.size ∉ ([] ++ if thenTerminated = false then [thenTail] else []) ++
        (if elseTerminated = false then [c₁.currentBlock] else []) ++ [] := by
      intro hm
      rcases hends _ hm with he | he
      · exact absurd hthen.2.1 (Nat.not_lt.mpr he.le)
      · exact absurd ht.here (Nat.not_lt.mpr he.le)
    refine ⟨{ c₁ with builder := B₄, currentBlock := c₁.size }, ?_,
      ⟨hs₄, hc₄.lt_add (i := 0) (by decide), hreach, ht.scopes⟩,
      h.then_changed hc₄ ?_ ?_ (.inr h.size), rfl, ?_⟩
    · exact (act_run currentBlock_run).trans <| (act_run (newBlock_run rfl)).trans <|
        (act_run hok₂).trans <| (act_run hok₃).trans <| (act_run (sealBlock_run hok₄)).trans rfl
    · intro b hb
      rcases hends b hb with rfl | rfl
      · exact .inr hthen.1
      · exact .inl rfl
    · simpa using h.size
    · rw [hc₄.not_ended hfresh.1 hopen]
      simpa using hboth

/-! ### Loops -/

/-- In `ctx'`, the header of a `while` has been set up since `ctx` and is not sealed. -/
structure Looping (header : BlockId) (ctx ctx' : FnContext) : Prop extends Later ctx ctx' where
  new : ctx.size ≤ header
  lt : header < ctx'.size
  notClosed : ctx'.builder.isSealed header = false
  reached : ctx'.builder.Reach header
  ne_zero : header ≠ 0

theorem Looping.trans {b : BlockId} (h : Looping b ctx c₁) (h' : Later c₁ c₂) : Looping b ctx c₂ :=
  ⟨h.toLater.trans h', h.new, Nat.lt_of_lt_of_le h.lt h'.size,
    (h'.closed _ h.lt).trans h.notClosed, h'.reach _ h.reached, h.ne_zero⟩

theorem openWhile_run (ht : ctx.Tame) :
    ∃ header ctx', openWhile ctx = .ok (header, ctx') ∧ Looping header ctx ctx' ∧ ctx'.Tame ∧
      ctx'.Open ∧ ctx'.scopes = ctx.scopes ∧ ctx'.currentBlock = header := by
  have hfresh := ht.sound.fresh (Nat.le_refl ctx.size)
  obtain ⟨hs₁, h₁⟩ := ht.sound.newBlock
  obtain ⟨B₂, hok₂, hs₂, h₂, hr₂⟩ := hs₁.terminate (ε := ParseError) (b := ctx.currentBlock)
    (t := .jump ctx.size) (h₁.lt ht.here) (h₁.reach _ ht.reach) (by
      intro s hs
      obtain rfl : s = ctx.size := by simpa [Terminator.successors] using hs
      exact ⟨h₁.lt_add (i := 0) (by decide), hfresh.2.2, h₁.not_closed hfresh.2.1 (by simp)⟩)
  have hc₂ := h₁.trans h₂
  have hreach : B₂.Reach ctx.size := hr₂ _ (by simp [Terminator.successors])
  refine ⟨ctx.size, { ctx with builder := B₂, currentBlock := ctx.size }, ?_,
    ⟨Later.refl.then_changed hc₂ (by simp) (by simp) (.inr (Nat.le_refl _)), Nat.le_refl _,
      hc₂.lt_add (i := 0) (by decide), hc₂.not_closed hfresh.2.1 (by simp), hreach, hfresh.2.2⟩,
    ⟨hs₂, hc₂.lt_add (i := 0) (by decide), hreach, ht.scopes⟩,
    hc₂.not_ended hfresh.1 (by simpa using ht.ne_new 0), rfl, rfl⟩
  exact (act_run (newBlock_run rfl)).trans <| (act_run currentBlock_run).trans <|
    (act_run (terminate_run hok₂)).trans rfl

/-- The header gets its branch, for the second time if the condition has ended it already. -/
theorem openBody_run {header : BlockId} (h : Looping header ctx c₁) (ht : c₁.Tame) (cond : ValueId) :
    ∃ exit ctx', openBody header cond c₁ = .ok (exit, ctx') ∧ ctx'.Tame ∧ ctx'.Open ∧
      ctx'.scopes = c₁.scopes ∧ Looping header ctx ctx' ∧ Waiting exit ctx ctx' := by
  have hfresh := fun i : ℕ => ht.sound.fresh (Nat.le_add_right c₁.size i)
  have hne : ∀ i : ℕ, c₁.size + i ≠ header := fun i he =>
    Nat.not_lt.mpr (he ▸ Nat.le_add_right c₁.size i) h.lt
  -- the five calls of the builder, each from what the one before leaves
  obtain ⟨hs₁, h₁⟩ := ht.sound.newBlock
  obtain ⟨hs₂, h₂⟩ := hs₁.newBlock
  have hc₂ := h₁.trans h₂
  obtain ⟨B₃, hok₃, hs₃, h₃, hr₃⟩ := hs₂.terminate (ε := ParseError) (b := header)
    (t := .branch cond c₁.size (c₁.size + 1)) (hc₂.lt h.lt) (hc₂.reach _ h.reached) (by
      intro s hs
      have hs : s = c₁.size + 0 ∨ s = c₁.size + 1 := by simpa [Terminator.successors] using hs
      rcases hs with rfl | rfl
      · exact ⟨hc₂.lt_add (by decide), (hfresh 0).2.2, hc₂.not_closed (hfresh 0).2.1 (by simp)⟩
      · exact ⟨hc₂.lt_add (by decide), (hfresh 1).2.2, hc₂.not_closed (hfresh 1).2.1 (by simp)⟩)
  have hc₃ := hc₂.trans h₃
  obtain ⟨B₄, hok₄, hs₄, h₄⟩ := hs₃.sealBlock (ε := ParseError) (b := c₁.size)
    (hc₃.lt_add (i := 0) (by decide)) (hc₃.not_closed (hfresh 0).2.1 (by simp))
  have hc₄ := hc₃.trans h₄
  obtain ⟨B₅, hok₅, hs₅, h₅⟩ := hs₄.sealBlock (ε := ParseError) (b := c₁.size + 1)
    (hc₄.lt_add (by decide)) (hc₄.not_closed (hfresh 1).2.1 (by simp))
  have hc₅ := hc₄.trans h₅
  have hreach : ∀ s, s = c₁.size ∨ s = c₁.size + 1 → B₅.Reach s := fun s hs =>
    h₅.reach _ (h₄.reach _ (hr₃ _ (by simpa [Terminator.successors] using hs)))
  have hlater : Later ctx { c₁ with builder := B₅, currentBlock := c₁.size } := by
    refine h.toLater.then_changed hc₅ (fun b hb => ?_) (fun b hb => ?_) (.inr h.size)
    · obtain rfl : b = header := by simpa using hb
      exact .inr h.new
    · have hb : b = c₁.size ∨ b = c₁.size + 1 := by simpa using hb
      rcases hb with rfl | rfl
      · exact h.size
      · exact h.size.trans (Nat.le_succ _)
  refine ⟨c₁.size + 1, { c₁ with builder := B₅, currentBlock := c₁.size }, ?_,
    ⟨hs₅, hc₅.lt_add (i := 0) (by decide), hreach _ (.inl rfl), ht.scopes⟩,
    hc₅.not_ended (hfresh 0).1 (by simpa using hne 0), rfl,
    ⟨hlater, h.new, hc₅.lt h.lt, hc₅.not_closed h.notClosed ?_, hc₅.reach _ h.reached, h.ne_zero⟩,
    ⟨hlater, h.size.trans (Nat.le_succ _), hc₅.lt_add (by decide), by simp,
      hc₅.not_ended (hfresh 1).1 (by simpa using hne 1), hreach _ (.inr rfl)⟩⟩
  · exact (act_run (newBlock_run rfl)).trans <| (act_run (newBlock_run h₁.size)).trans <|
      (act_run (terminate_run hok₃)).trans <| (act_run (sealBlock_run hok₄)).trans <|
      (act_run (sealBlock_run hok₅)).trans rfl
  · simpa using ⟨(hne 0).symm, (hne 1).symm⟩

/-- The loop before its header is sealed. -/
theorem closeWhile_eq {header exit : BlockId} :
    closeWhile header exit = (do
      let bodyTail ← currentBlock
      let ended ← isTerminated bodyTail
      jumpUnless ended bodyTail header
      sealBlock header
      enterBlock exit) := by
  unfold closeWhile
  congr 1
  funext b
  congr 1
  funext ended
  cases ended <;> rfl

theorem closeWhile_run {header exit : BlockId} (h : Looping header ctx c₁) (he : Waiting exit ctx c₁)
    (ht : c₁.Tame) :
    ∃ ctx', closeWhile header exit c₁ = .ok ((), ctx') ∧ ctx'.Tame ∧ ctx'.Open ∧ Later ctx ctx' ∧
      ctx'.scopes = c₁.scopes := by
  obtain ⟨B₁, hok₁, hs₁, h₁, -⟩ := jumpUnless_run
    (c₁.builder.isTerminated c₁.currentBlock) header ht.sound ht.here ht.reach
    ⟨h.lt, h.ne_zero, h.notClosed⟩
  obtain ⟨B₂, hok₂, hs₂, h₂⟩ := hs₁.sealBlock (ε := ParseError) (b := header) (h₁.lt h.lt)
    (h₁.not_closed h.notClosed (by simp))
  have hc₂ := h₁.trans h₂
  have hends : ∀ b ∈ (if c₁.builder.isTerminated c₁.currentBlock = false then [c₁.currentBlock]
      else []) ++ [], b = c₁.currentBlock := by
    intro b hb
    split at hb <;> simp_all
  refine ⟨{ c₁ with builder := B₂, currentBlock := exit }, ?_,
    ⟨hs₂, hc₂.lt he.lt, hc₂.reach _ he.reached, ht.scopes⟩,
    hc₂.not_ended he.notEnded fun hm => he.ne (hends _ hm),
    h.toLater.then_changed hc₂ (fun b hb => .inl (hends b hb)) ?_ (.inr he.new), rfl⟩
  · rw [closeWhile_eq]
    exact (act_run currentBlock_run).trans <| (act_run rfl).trans <| (act_run hok₁).trans <|
      (act_run (sealBlock_run hok₂)).trans rfl
  · intro b hb
    obtain rfl : b = header := by simpa using hb
    exact h.new

end Actions

end Parser
end Chakobsa
