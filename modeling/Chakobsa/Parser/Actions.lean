import Chakobsa.Parser.Surface

/-!
# What the actions of the parser do

Inversion lemmas for the actions on a context: a sequence (`act_bind`) and a call of the builder
(`build_ok`). No action changes the return type or the signatures of a context, or the name, the
parameters and the return type of the function under construction (`Keeps`).
-/

namespace Chakobsa
namespace Parser

open Ir Lexer ExceptLemmas

section Run

variable {α β : Type} {ctx ctx' ctx'' : FnContext} {a : α} {b : β}

theorem act_bind {x : ActM α} {f : α → ActM β} :
    (x >>= f) ctx = .ok (b, ctx'') ↔
      ∃ a ctx', x ctx = .ok (a, ctx') ∧ f a ctx' = .ok (b, ctx'') := by
  show (x ctx >>= fun p => f p.1 p.2) = _ ↔ _
  rw [bind_eq_ok]
  constructor
  · rintro ⟨⟨a, ctx'⟩, hx, hf⟩
    exact ⟨a, ctx', hx, hf⟩
  · rintro ⟨a, ctx', hx, hf⟩
    exact ⟨(a, ctx'), hx, hf⟩

theorem act_pure {a' : α} : (pure a : ActM α) ctx = .ok (a', ctx') ↔ a' = a ∧ ctx' = ctx := by
  show Except.ok (a, ctx) = _ ↔ _
  simp only [Except.ok.injEq, Prod.mk.injEq]
  tauto

theorem act_get {c : FnContext} : (get : ActM FnContext) ctx = .ok (c, ctx') ↔ c = ctx ∧ ctx' = ctx := by
  show Except.ok (ctx, ctx) = _ ↔ _
  simp only [Except.ok.injEq, Prod.mk.injEq]
  tauto

theorem act_lift {m : ParseM α} : (liftM m : ActM α) ctx = .ok (a, ctx') ↔ m = .ok a ∧ ctx' = ctx := by
  show (m >>= fun a => .ok (a, ctx)) = _ ↔ _
  rw [bind_eq_ok]
  constructor
  · rintro ⟨a', hm, hp⟩
    obtain ⟨rfl, rfl⟩ := Prod.mk.inj (Except.ok.inj hp)
    exact ⟨hm, rfl⟩
  · rintro ⟨hm, rfl⟩
    exact ⟨a, hm, rfl⟩

/-- A call of the builder changes the builder alone. -/
theorem build_ok {f : SsaBuilder → BuildM ParseError (α × SsaBuilder)} :
    build f ctx = .ok (a, ctx') ↔
      ∃ B, f ctx.builder = .ok (a, B) ∧ ctx' = { ctx with builder := B } := by
  unfold build
  cases hf : f ctx.builder with
  | ok r =>
    obtain ⟨a', B⟩ := r
    simp only [Except.ok.injEq, Prod.mk.injEq]
    constructor
    · rintro ⟨rfl, rfl⟩
      exact ⟨B, ⟨rfl, rfl⟩, rfl⟩
    · rintro ⟨B', ⟨rfl, rfl⟩, rfl⟩
      exact ⟨rfl, rfl⟩
  | error e =>
    simp only [reduceCtorEq, false_and, exists_false, iff_false]
    cases e <;> simp [Comp.fail, Comp.panic]

theorem needTy_ok {expected actual : Ty} {u : Unit} :
    needTy expected actual ctx = .ok (u, ctx') ↔ actual = expected ∧ ctx' = ctx := by
  unfold needTy
  by_cases h : actual = expected
  · simp only [h, ne_eq, not_true, if_false, Except.ok.injEq, Prod.mk.injEq, true_and]
    exact eq_comm
  · simp [h, Comp.fail]

end Run

/-! ### What an elaboration consists of -/

section Elab

variable {ctx ctx' : FnContext} {r : ValueId × Ty} {e e₁ e₂ : Expr}

theorem elabExpr_un_ok {op : UnOp} :
    elabExpr (.un op e) ctx = .ok (r, ctx') ↔
      ∃ v c w, elabExpr e ctx = .ok ((v, op.operandType), c) ∧
        emitHere op.resultType (.un op v) c = .ok (w, ctx') ∧ r = (w, op.resultType) := by
  rw [elabExpr, act_bind]
  constructor
  · rintro ⟨⟨v, ty⟩, c, he, h₁⟩
    obtain ⟨_, c₁, hn, h₂⟩ := act_bind.mp h₁
    obtain ⟨rfl, rfl⟩ := needTy_ok.mp hn
    obtain ⟨w, c₂, hw, h₃⟩ := act_bind.mp h₂
    obtain ⟨rfl, rfl⟩ := act_pure.mp h₃
    exact ⟨v, _, w, he, hw, rfl⟩
  · rintro ⟨v, c, w, he, hw, rfl⟩
    exact ⟨_, c, he, act_bind.mpr ⟨(), c, needTy_ok.mpr ⟨rfl, rfl⟩,
      act_bind.mpr ⟨w, ctx', hw, act_pure.mpr ⟨rfl, rfl⟩⟩⟩⟩

theorem elabExpr_bin_ok {op : Operator} :
    elabExpr (.bin op e₁ e₂) ctx = .ok (r, ctx') ↔
      ∃ v₁ c₁ v₂ c₂ w, elabExpr e₁ ctx = .ok ((v₁, .i64), c₁) ∧
        elabExpr e₂ c₁ = .ok ((v₂, .i64), c₂) ∧
        emitHere op.binOp.resultType (.bin op.binOp v₁ v₂) c₂ = .ok (w, ctx') ∧
        r = (w, op.binOp.resultType) := by
  rw [elabExpr, act_bind]
  constructor
  · rintro ⟨⟨v₁, t₁⟩, c₁, he₁, h₁⟩
    obtain ⟨_, c₂, hn, h₂⟩ := act_bind.mp h₁
    obtain ⟨rfl, rfl⟩ := needTy_ok.mp hn
    obtain ⟨⟨v₂, t₂⟩, c₃, he₂, h₃⟩ := act_bind.mp h₂
    obtain ⟨_, c₄, hn', h₄⟩ := act_bind.mp h₃
    obtain ⟨rfl, rfl⟩ := needTy_ok.mp hn'
    obtain ⟨w, c₅, hw, h₅⟩ := act_bind.mp h₄
    obtain ⟨rfl, rfl⟩ := act_pure.mp h₅
    exact ⟨v₁, _, v₂, _, w, he₁, he₂, hw, rfl⟩
  · rintro ⟨v₁, c₁, v₂, c₂, w, he₁, he₂, hw, rfl⟩
    exact ⟨_, c₁, he₁, act_bind.mpr ⟨(), c₁, needTy_ok.mpr ⟨rfl, rfl⟩,
      act_bind.mpr ⟨_, c₂, he₂, act_bind.mpr ⟨(), c₂, needTy_ok.mpr ⟨rfl, rfl⟩,
      act_bind.mpr ⟨w, ctx', hw, act_pure.mpr ⟨rfl, rfl⟩⟩⟩⟩⟩⟩

theorem elabExpr_logic_ok {op : Connective} :
    elabExpr (.logic op e₁ e₂) ctx = .ok (r, ctx') ↔
      ∃ v₁ c₁ s c₂ v₂ c₃ w, elabExpr e₁ ctx = .ok ((v₁, .bool), c₁) ∧
        openShortCircuit op.short v₁ c₁ = .ok (s, c₂) ∧
        elabExpr e₂ c₂ = .ok ((v₂, .bool), c₃) ∧
        closeShortCircuit s v₂ c₃ = .ok (w, ctx') ∧ r = (w, .bool) := by
  rw [elabExpr, act_bind]
  constructor
  · rintro ⟨⟨v₁, t₁⟩, c₁, he₁, h₁⟩
    obtain ⟨_, c₂, hn, h₂⟩ := act_bind.mp h₁
    obtain ⟨rfl, rfl⟩ := needTy_ok.mp hn
    obtain ⟨s, c₃, hs, h₃⟩ := act_bind.mp h₂
    obtain ⟨⟨v₂, t₂⟩, c₄, he₂, h₄⟩ := act_bind.mp h₃
    obtain ⟨_, c₅, hn', h₅⟩ := act_bind.mp h₄
    obtain ⟨rfl, rfl⟩ := needTy_ok.mp hn'
    obtain ⟨w, c₆, hw, h₆⟩ := act_bind.mp h₅
    obtain ⟨rfl, rfl⟩ := act_pure.mp h₆
    exact ⟨v₁, _, s, c₃, v₂, _, w, he₁, hs, he₂, hw, rfl⟩
  · rintro ⟨v₁, c₁, s, c₂, v₂, c₃, w, he₁, hs, he₂, hw, rfl⟩
    exact ⟨_, c₁, he₁, act_bind.mpr ⟨(), c₁, needTy_ok.mpr ⟨rfl, rfl⟩,
      act_bind.mpr ⟨s, c₂, hs, act_bind.mpr ⟨_, c₃, he₂,
      act_bind.mpr ⟨(), c₃, needTy_ok.mpr ⟨rfl, rfl⟩,
      act_bind.mpr ⟨w, ctx', hw, act_pure.mpr ⟨rfl, rfl⟩⟩⟩⟩⟩⟩⟩

theorem elabExpr_call_ok {f : String} {args : List Expr} :
    elabExpr (.call f args) ctx = .ok (r, ctx') ↔
      ∃ vs c, elabExprs args ctx = .ok (vs, c) ∧ emitCall f vs noSpan c = .ok (r, ctx') := by
  rw [elabExpr, act_bind]

theorem elabExprs_cons_ok {es : List Expr} {vs : List (ValueId × Ty)} :
    elabExprs (e :: es) ctx = .ok (vs, ctx') ↔
      ∃ v c rest, elabExpr e ctx = .ok (v, c) ∧ elabExprs es c = .ok (rest, ctx') ∧
        vs = v :: rest := by
  rw [elabExprs, act_bind]
  constructor
  · rintro ⟨v, c, he, h₁⟩
    obtain ⟨rest, c', hes, h₂⟩ := act_bind.mp h₁
    obtain ⟨rfl, rfl⟩ := act_pure.mp h₂
    exact ⟨v, c, rest, he, hes, rfl⟩
  · rintro ⟨v, c, rest, he, hes, rfl⟩
    exact ⟨v, c, he, act_bind.mpr ⟨rest, ctx', hes, act_pure.mpr ⟨rfl, rfl⟩⟩⟩

end Elab

/-! ### The header of the function stays -/

namespace SsaBuilder

variable {ε : Type} {B B' : SsaBuilder}

/-- What `new` sets and no call changes. -/
def header (B : SsaBuilder) : String × List (String × Ty) × Option Ty × BlockId :=
  (B.func.name, B.func.params, B.func.retTy, B.func.entry)

theorem blockMut_header {b : BlockId} {g : BasicBlock → BasicBlock}
    (h : (B.blockMut b g : BuildM ε _) = .ok B') : B'.header = B.header := by
  obtain ⟨blocks, -, h⟩ := bind_eq_ok.mp h
  obtain rfl := Except.ok.inj h
  rfl

theorem emit_header {b : BlockId} {ty : Ty} {kind : InstKind} {r : ValueId × SsaBuilder}
    (h : (B.emit b ty kind : BuildM ε _) = .ok r) : r.2.header = B.header := by
  obtain ⟨next, -, h⟩ := bind_eq_ok.mp h
  obtain ⟨B₁, h₁, h⟩ := bind_eq_ok.mp h
  obtain rfl := Except.ok.inj h
  exact (blockMut_header h₁ : B₁.header = _)

theorem terminate_header {b : BlockId} {term : Terminator}
    (h : (B.terminate b term : BuildM ε _) = .ok B') : B'.header = B.header := by
  unfold terminate at h
  exact (blockMut_header h : B'.header = _)

/-- A reader that leaves the header alone. -/
def ReadsHeader (read : SsaBuilder → BlockId → BuildM ε (ValueId × SsaBuilder)) : Prop :=
  ∀ B b r, read B b = .ok r → r.2.header = B.header

theorem readPreds_header {read : SsaBuilder → BlockId → BuildM ε (ValueId × SsaBuilder)}
    (hread : ReadsHeader read) {ps : List BlockId} {r : List (BlockId × ValueId) × SsaBuilder}
    (h : readPreds read B ps = .ok r) : r.2.header = B.header := by
  induction ps generalizing B r with
  | nil =>
    obtain rfl := Except.ok.inj h
    rfl
  | cons p ps ih =>
    obtain ⟨⟨v, B₁⟩, h₁, h⟩ := bind_eq_ok.mp h
    obtain ⟨⟨incoming, B₂⟩, h₂, h⟩ := bind_eq_ok.mp h
    obtain rfl := Except.ok.inj h
    exact (ih h₂).trans (hread B p _ h₁)

theorem addPhiOperands_header {read : SsaBuilder → BlockId → BuildM ε (ValueId × SsaBuilder)}
    (hread : ReadsHeader read) {phi : ValueId} {b : BlockId}
    (h : addPhiOperands read B phi b = .ok B') : B'.header = B.header := by
  obtain ⟨⟨incoming, B₁⟩, h₁, h⟩ := bind_eq_ok.mp h
  obtain ⟨blk, -, h⟩ := bind_eq_ok.mp h
  obtain ⟨insts, -, h⟩ := bind_eq_ok.mp h
  exact (blockMut_header h).trans (readPreds_header hread h₁)

theorem readVariable_header (x : String) (ty : Ty) (n : ℕ) :
    ReadsHeader (readVariable x ty n : _ → _ → BuildM ε _) := by
  induction n with
  | zero => intro B b r h; cases h
  | succ n ih =>
    intro B b r h
    rw [readVariable] at h
    split at h
    · obtain rfl := Except.ok.inj h
      rfl
    · unfold readVariableRecursive at h
      dsimp only at h
      split at h
      · obtain ⟨⟨phi, B₁⟩, h₁, h⟩ := bind_eq_ok.mp h
        obtain rfl := Except.ok.inj h
        exact (emit_header h₁ : B₁.header = _)
      · split at h
        · obtain ⟨⟨phi, B₁⟩, h₁, h⟩ := bind_eq_ok.mp h
          obtain rfl := Except.ok.inj h
          exact (emit_header h₁ : B₁.header = _)
        · obtain ⟨⟨v, B₁⟩, h₁, h⟩ := bind_eq_ok.mp h
          obtain rfl := Except.ok.inj h
          exact (ih _ _ _ h₁ : B₁.header = _)
        · obtain ⟨⟨phi, B₁⟩, h₁, h⟩ := bind_eq_ok.mp h
          obtain ⟨B₂, h₂, h⟩ := bind_eq_ok.mp h
          obtain rfl := Except.ok.inj h
          have hfill : B₂.header = (B₁.writeVariable x b phi).header := addPhiOperands_header ih h₂
          exact hfill.trans (emit_header h₁)

theorem read_header {x : String} {b : BlockId} {ty : Ty} {r : ValueId × SsaBuilder}
    (h : (B.read x b ty : BuildM ε _) = .ok r) : r.2.header = B.header :=
  readVariable_header x ty _ _ _ _ h

theorem fillPhis_header {b : BlockId} {pending : List (String × ValueId)}
    (h : (fillPhis b B pending : BuildM ε _) = .ok B') : B'.header = B.header := by
  induction pending generalizing B with
  | nil =>
    obtain rfl := Except.ok.inj h
    rfl
  | cons p pending ih =>
    obtain ⟨ty, -, h⟩ := bind_eq_ok.mp h
    obtain ⟨B₁, h₁, h⟩ := bind_eq_ok.mp h
    exact (ih h).trans (addPhiOperands_header (readVariable_header _ _ _) h₁)

theorem sealBlock_header {b : BlockId} (h : (B.sealBlock b : BuildM ε _) = .ok B') :
    B'.header = B.header := by
  obtain ⟨B₁, h₁, h⟩ := bind_eq_ok.mp h
  obtain rfl := Except.ok.inj h
  exact (fillPhis_header h₁ : B₁.header = _)

end SsaBuilder

/-- The action leaves the return type, the signatures and the header of the function alone. -/
def Keeps {α : Type} (m : ActM α) : Prop :=
  ∀ ⦃ctx a ctx'⦄, m ctx = .ok (a, ctx') → ctx'.retTy = ctx.retTy ∧ ctx'.sigs = ctx.sigs ∧
    ctx'.builder.header = ctx.builder.header

section Keeps

variable {α β : Type}

theorem Keeps.bind {x : ActM α} {f : α → ActM β} (hx : Keeps x) (hf : ∀ a, Keeps (f a)) :
    Keeps (x >>= f) := by
  intro ctx b ctx'' h
  obtain ⟨a, ctx', hxa, hfa⟩ := act_bind.mp h
  obtain ⟨hr, hs, hh⟩ := hx hxa
  obtain ⟨hr', hs', hh'⟩ := hf a hfa
  exact ⟨hr'.trans hr, hs'.trans hs, hh'.trans hh⟩

theorem Keeps.pure (a : α) : Keeps (Pure.pure a : ActM α) := by
  intro ctx b ctx' h
  obtain ⟨-, rfl⟩ := act_pure.mp h
  exact ⟨rfl, rfl, rfl⟩

theorem Keeps.fail (e : ParseError) : Keeps (fun _ => Comp.fail e : ActM α) := by
  intro ctx b ctx' h
  cases h

theorem Keeps.ite {c : Prop} [Decidable c] {x y : ActM α} (hx : Keeps x) (hy : Keeps y) :
    Keeps (if c then x else y) := by
  split <;> assumption

/-- A call of the builder that leaves the header alone. -/
theorem Keeps.build {f : SsaBuilder → BuildM ParseError (α × SsaBuilder)}
    (hf : ∀ B r, f B = .ok r → r.2.header = B.header) : Keeps (build f) := by
  intro ctx a ctx' h
  obtain ⟨B, hB, rfl⟩ := build_ok.mp h
  exact ⟨rfl, rfl, hf _ _ hB⟩

theorem keeps_newBlock : Keeps newBlock := by
  refine .build fun B r h => ?_
  obtain rfl := Except.ok.inj h
  rfl

theorem keeps_emit (b : BlockId) (ty : Ty) (kind : InstKind) : Keeps (emit b ty kind) :=
  .build fun _ _ h => SsaBuilder.emit_header h

theorem keeps_terminate (b : BlockId) (term : Terminator) : Keeps (terminate b term) := by
  rw [terminate_eq]
  refine .build fun B r h => ?_
  obtain ⟨B', h', h⟩ := bind_eq_ok.mp h
  obtain rfl := Except.ok.inj h
  exact SsaBuilder.terminate_header h'

theorem keeps_sealBlock (b : BlockId) : Keeps (sealBlock b) := by
  rw [sealBlock_eq]
  refine .build fun B r h => ?_
  obtain ⟨B', h', h⟩ := bind_eq_ok.mp h
  obtain rfl := Except.ok.inj h
  exact SsaBuilder.sealBlock_header h'

theorem keeps_writeVariable (x : String) (b : BlockId) (v : ValueId) : Keeps (writeVariable x b v) := by
  refine .build fun B r h => ?_
  obtain rfl := Except.ok.inj h
  rfl

theorem keeps_readVariable (x : String) (b : BlockId) (ty : Ty) : Keeps (readVariable x b ty) :=
  .build fun _ _ h => SsaBuilder.read_header h

theorem Keeps.get : Keeps (get : ActM FnContext) := by
  intro ctx a ctx' h
  obtain ⟨-, rfl⟩ := act_get.mp h
  exact ⟨rfl, rfl, rfl⟩

/-- An action that changes scopes and current block at most. -/
theorem Keeps.of_eq {m : ActM α}
    (h : ∀ ctx, ∃ a scopes b, m ctx = .ok (a, { ctx with scopes := scopes, currentBlock := b })) :
    Keeps m := by
  intro ctx a ctx' hm
  obtain ⟨a', scopes, b, heq⟩ := h ctx
  rw [heq] at hm
  obtain ⟨-, rfl⟩ := Prod.mk.inj (Except.ok.inj hm)
  exact ⟨rfl, rfl, rfl⟩

theorem keeps_isTerminated (b : BlockId) : Keeps (isTerminated b) :=
  .of_eq fun ctx => ⟨_, ctx.scopes, ctx.currentBlock, rfl⟩

theorem keeps_currentBlock : Keeps currentBlock :=
  .of_eq fun ctx => ⟨_, ctx.scopes, ctx.currentBlock, rfl⟩

theorem keeps_enterBlock (b : BlockId) : Keeps (enterBlock b) :=
  .of_eq fun ctx => ⟨_, ctx.scopes, b, rfl⟩

theorem keeps_pushScope : Keeps pushScope := .of_eq fun ctx => ⟨_, _, ctx.currentBlock, rfl⟩

theorem keeps_popScope : Keeps popScope := .of_eq fun ctx => ⟨_, _, ctx.currentBlock, rfl⟩

theorem keeps_declare (name : String) (ty : Ty) : Keeps (declare name ty) := by
  intro ctx a ctx' h
  unfold declare at h
  split at h
  · cases h
  · obtain ⟨-, rfl⟩ := Prod.mk.inj (Except.ok.inj h)
    exact ⟨rfl, rfl, rfl⟩

theorem keeps_needTy (expected actual : Ty) : Keeps (needTy expected actual) := by
  intro ctx a ctx' h
  obtain ⟨-, rfl⟩ := needTy_ok.mp h
  exact ⟨rfl, rfl, rfl⟩

theorem keeps_hereTerminated : Keeps hereTerminated := .bind keeps_currentBlock keeps_isTerminated

theorem keeps_emitHere (ty : Ty) (kind : InstKind) : Keeps (emitHere ty kind) :=
  .bind keeps_currentBlock fun _ => keeps_emit _ _ _

theorem keeps_emitConst (ty : Ty) (kind : InstKind) : Keeps (emitConst ty kind) :=
  .bind (keeps_emitHere _ _) fun _ => .pure _

theorem keeps_readName (name : String) (span : Span) : Keeps (readName name span) := by
  refine .bind .get fun ctx => ?_
  split
  · exact .fail _
  · exact .bind (keeps_readVariable _ _ _) fun _ => .pure _

theorem keeps_emitCall (name : String) (args : List (ValueId × Ty)) (span : Span) :
    Keeps (emitCall name args span) := by
  refine .bind .get fun ctx => .bind ?_ fun _ => .bind (keeps_emitHere _ _) fun _ => .pure _
  intro c a c' h
  obtain ⟨-, rfl⟩ := act_lift.mp h
  exact ⟨rfl, rfl, rfl⟩

theorem keeps_openShortCircuit (short : Bool) (lhs : ValueId) : Keeps (openShortCircuit short lhs) :=
  .bind keeps_newBlock fun _ => .bind keeps_newBlock fun _ => .bind keeps_newBlock fun _ =>
    .bind keeps_currentBlock fun _ => .bind (keeps_terminate _ _) fun _ =>
    .bind (keeps_sealBlock _) fun _ => .bind (keeps_sealBlock _) fun _ =>
    .bind (keeps_emit _ _ _) fun _ => .bind (keeps_terminate _ _) fun _ =>
    .bind (keeps_enterBlock _) fun _ => .pure _

theorem keeps_closeShortCircuit (s : ShortCircuit) (rval : ValueId) :
    Keeps (closeShortCircuit s rval) :=
  .bind keeps_currentBlock fun _ => .bind (keeps_terminate _ _) fun _ =>
    .bind (keeps_sealBlock _) fun _ => .bind (keeps_emit _ _ _) fun _ =>
    .bind (keeps_enterBlock _) fun _ => .pure _

theorem keeps_openIf (cond : ValueId) : Keeps (openIf cond) :=
  .bind keeps_newBlock fun _ => .bind keeps_newBlock fun _ => .bind keeps_currentBlock fun _ =>
    .bind (keeps_terminate _ _) fun _ => .bind (keeps_sealBlock _) fun _ =>
    .bind (keeps_sealBlock _) fun _ => .bind (keeps_enterBlock _) fun _ => .pure _

theorem keeps_closeIf (thenTail : BlockId) (thenTerminated elseTerminated : Bool) :
    Keeps (closeIf thenTail thenTerminated elseTerminated) := by
  refine .bind keeps_currentBlock fun _ => .ite (keeps_enterBlock _)
    (.bind keeps_newBlock fun join => ?_)
  have hend : Keeps (do sealBlock join; enterBlock join) :=
    .bind (keeps_sealBlock _) fun _ => keeps_enterBlock _
  exact .ite (.bind (keeps_terminate _ _) fun _ => .ite (.bind (keeps_terminate _ _) fun _ => hend) hend)
    (.ite (.bind (keeps_terminate _ _) fun _ => hend) hend)

theorem keeps_openWhile : Keeps openWhile :=
  .bind keeps_newBlock fun _ => .bind keeps_currentBlock fun _ => .bind (keeps_terminate _ _) fun _ =>
    .bind (keeps_enterBlock _) fun _ => .pure _

theorem keeps_openBody (header : BlockId) (cond : ValueId) : Keeps (openBody header cond) :=
  .bind keeps_newBlock fun _ => .bind keeps_newBlock fun _ => .bind (keeps_terminate _ _) fun _ =>
    .bind (keeps_sealBlock _) fun _ => .bind (keeps_sealBlock _) fun _ =>
    .bind (keeps_enterBlock _) fun _ => .pure _

theorem keeps_closeWhile (header exit : BlockId) : Keeps (closeWhile header exit) := by
  have hend : Keeps (do sealBlock header; enterBlock exit) :=
    .bind (keeps_sealBlock _) fun _ => keeps_enterBlock _
  exact .bind keeps_currentBlock fun _ => .bind (keeps_isTerminated _) fun _ =>
    .ite (.bind (keeps_terminate _ _) fun _ => hend) hend

theorem keeps_writeLet (name : String) (value : ValueId × Ty) : Keeps (writeLet name value) :=
  .bind (keeps_declare _ _) fun _ => .bind keeps_currentBlock fun _ => keeps_writeVariable _ _ _

theorem keeps_writeAssign (name : String) (value : ValueId × Ty) (span : Span) :
    Keeps (writeAssign name value span) := by
  refine .bind .get fun ctx => ?_
  split
  · exact .fail _
  · exact .ite (.fail _) (keeps_writeVariable _ _ _)

end Keeps

end Parser
end Chakobsa
