import Chakobsa.Parser.Actions

/-!
# What the parser accepts is a program

Whenever the parser succeeds, the tokens it has taken are those of a program of the surface
language whose operands are in parentheses where they have to be. `Takes` says this of one parsing
function; there is one lemma for each, in the order of the functions.
-/

namespace Chakobsa
namespace Parser

open Ir Lexer ExceptLemmas

/-- The kinds of some tokens. -/
def kinds (toks : List Token) : List TokenKind := toks.map Token.kind

@[simp] theorem kinds_cons (t : Token) (toks : List Token) : kinds (t :: toks) = t.kind :: kinds toks :=
  rfl

section Bind

variable {α β : Type} {ctx ctx' ctx'' : FnContext} {toks toks' toks'' : List Token}

theorem cursor_bind {x : CursorM α} {f : α → CursorM β} {b : β} :
    (x >>= f) toks = .ok (b, toks'') ↔
      ∃ a toks', x toks = .ok (a, toks') ∧ f a toks' = .ok (b, toks'') := by
  show (x toks >>= fun p => f p.1 p.2) = _ ↔ _
  rw [bind_eq_ok]
  constructor
  · rintro ⟨⟨a, toks'⟩, hx, hf⟩
    exact ⟨a, toks', hx, hf⟩
  · rintro ⟨a, toks', hx, hf⟩
    exact ⟨(a, toks'), hx, hf⟩

theorem body_bind {x : BodyM α} {f : α → BodyM β} {b : β} :
    (x >>= f) ctx toks = .ok ((b, ctx''), toks'') ↔
      ∃ a ctx' toks', x ctx toks = .ok ((a, ctx'), toks') ∧
        f a ctx' toks' = .ok ((b, ctx''), toks'') := by
  show (x ctx >>= fun p => f p.1 p.2) toks = _ ↔ _
  rw [cursor_bind]
  constructor
  · rintro ⟨⟨a, ctx'⟩, toks', hx, hf⟩
    exact ⟨a, ctx', toks', hx, hf⟩
  · rintro ⟨a, ctx', toks', hx, hf⟩
    exact ⟨(a, ctx'), toks', hx, hf⟩

theorem body_lift {m : CursorM α} {a : α} :
    (liftM m : BodyM α) ctx toks = .ok ((a, ctx'), toks') ↔ m toks = .ok (a, toks') ∧ ctx' = ctx := by
  show (m >>= fun a => pure (a, ctx)) toks = _ ↔ _
  rw [cursor_bind]
  constructor
  · rintro ⟨a', toks₁, hm, hp⟩
    obtain ⟨h, rfl⟩ := Prod.mk.inj (Except.ok.inj hp)
    obtain ⟨rfl, rfl⟩ := Prod.mk.inj h
    exact ⟨hm, rfl⟩
  · rintro ⟨hm, rfl⟩
    exact ⟨a, toks', hm, rfl⟩

theorem act_ok {m : ActM α} {a : α} :
    act m ctx toks = .ok ((a, ctx'), toks') ↔ m ctx = .ok (a, ctx') ∧ toks' = toks := by
  unfold act
  rw [bind_eq_ok]
  constructor
  · rintro ⟨⟨a', c⟩, hm, hp⟩
    obtain ⟨h, rfl⟩ := Prod.mk.inj (Except.ok.inj hp)
    obtain ⟨rfl, rfl⟩ := Prod.mk.inj h
    exact ⟨hm, rfl⟩
  · rintro ⟨hm, rfl⟩
    exact ⟨(a, ctx'), hm, rfl⟩

theorem body_pure {a b : α} :
    (pure a : BodyM α) ctx toks = .ok ((b, ctx'), toks') ↔ b = a ∧ ctx' = ctx ∧ toks' = toks := by
  show Except.ok ((a, ctx), toks) = _ ↔ _
  simp only [Except.ok.injEq, Prod.mk.injEq]
  constructor
  · rintro ⟨⟨rfl, rfl⟩, rfl⟩
    exact ⟨rfl, rfl, rfl⟩
  · rintro ⟨rfl, rfl, rfl⟩
    exact ⟨⟨rfl, rfl⟩, rfl⟩

end Bind

section Cursor

variable {t : Token} {toks toks' : List Token} {kind : TokenKind}

theorem peek_ok : peek toks = .ok (t, toks') ↔ toks' = toks ∧ ∃ rest, toks = t :: rest := by
  cases toks with
  | nil => simp [peek]
  | cons u rest =>
    simp only [peek, Except.ok.injEq, Prod.mk.injEq, List.cons.injEq]
    constructor
    · rintro ⟨rfl, rfl⟩
      exact ⟨rfl, rest, rfl, rfl⟩
    · rintro ⟨rfl, _, rfl, rfl⟩
      exact ⟨rfl, rfl⟩

theorem advance_cons (h : toks ≠ []) : advance (t :: toks) = .ok (t, toks) := by
  cases toks with
  | nil => exact absurd rfl h
  | cons u rest => rfl

theorem expect_ok (hend : HasEof toks) (hkind : kind ≠ .eof)
    (h : expect kind toks = .ok (t, toks')) :
    toks = t :: toks' ∧ t.kind = kind ∧ HasEof toks' := by
  obtain ⟨u, toks₁, hpeek, hif⟩ := cursor_bind.mp h
  obtain ⟨rfl, rest, rfl⟩ := peek_ok.mp hpeek
  split at hif
  · next hk =>
    obtain ⟨hne, hend'⟩ := hend.tail (hk ▸ hkind)
    rw [advance_cons hne] at hif
    obtain ⟨rfl, rfl⟩ := Prod.mk.inj (Except.ok.inj hif)
    exact ⟨rfl, hk, hend'⟩
  · cases hif

end Cursor

section BodyCursor

variable {ctx ctx' : FnContext} {t : Token} {toks toks' : List Token} {kind : TokenKind}

theorem body_peek :
    (liftM peek : BodyM Token) ctx toks = .ok ((t, ctx'), toks') ↔
      ctx' = ctx ∧ toks' = toks ∧ ∃ rest, toks = t :: rest := by
  rw [body_lift, peek_ok]
  tauto

theorem body_expect (hend : HasEof toks) (hkind : kind ≠ .eof)
    (h : (liftM (expect kind) : BodyM Token) ctx toks = .ok ((t, ctx'), toks')) :
    ctx' = ctx ∧ toks = t :: toks' ∧ t.kind = kind ∧ HasEof toks' := by
  obtain ⟨hexp, rfl⟩ := body_lift.mp h
  exact ⟨rfl, expect_ok hend hkind hexp⟩

theorem body_advance {u : Token} (hend : HasEof (t :: toks)) (hkind : t.kind ≠ .eof)
    (h : (liftM advance : BodyM Token) ctx (t :: toks) = .ok ((u, ctx'), toks')) :
    ctx' = ctx ∧ toks' = toks ∧ HasEof toks := by
  obtain ⟨hne, hend'⟩ := hend.tail hkind
  obtain ⟨hadv, rfl⟩ := body_lift.mp h
  rw [advance_cons hne] at hadv
  obtain ⟨-, rfl⟩ := Prod.mk.inj (Except.ok.inj hadv)
  exact ⟨rfl, rfl, hend'⟩

theorem body_checkTy {expected actual : Ty} {span : Span} {u : Unit} :
    (liftM (checkTy expected actual span) : BodyM Unit) ctx toks = .ok ((u, ctx'), toks') ↔
      actual = expected ∧ ctx' = ctx ∧ toks' = toks := by
  rw [body_lift]
  unfold checkTy
  by_cases h : actual = expected
  · simp only [h, ne_eq, not_true, if_false, true_and]
    show Except.ok (_, _) = _ ∧ _ ↔ _
    simp only [Except.ok.injEq, Prod.mk.injEq]
    tauto
  · simp only [h, ne_eq, not_false_iff, if_true, false_and, iff_false]
    rintro ⟨h, -⟩
    cases h

end BodyCursor

/-! ### The return type stays -/

/-- `p` leaves the return type of the context alone. -/
def KeepsRet {α : Type} (p : BodyM α) : Prop :=
  ∀ ⦃ctx toks r ctx' toks'⦄, p ctx toks = .ok ((r, ctx'), toks') → ctx'.retTy = ctx.retTy

section KeepsRet

variable {α β : Type} {n : ℕ} {p : BodyM α}

theorem KeepsRet.bind {f : α → BodyM β} (hp : KeepsRet p) (hf : ∀ a, KeepsRet (f a)) :
    KeepsRet (p >>= f) := by
  intro ctx toks r ctx' toks' h
  obtain ⟨a, c, t, ha, hb⟩ := body_bind.mp h
  exact (hf a hb).trans (hp ha)

theorem KeepsRet.pure (a : α) : KeepsRet (Pure.pure a : BodyM α) := by
  intro ctx toks r ctx' toks' h
  obtain ⟨-, rfl, -⟩ := body_pure.mp h
  rfl

theorem KeepsRet.lift (m : CursorM α) : KeepsRet (liftM m : BodyM α) := by
  intro ctx toks r ctx' toks' h
  obtain ⟨-, rfl⟩ := body_lift.mp h
  rfl

theorem KeepsRet.act {m : ActM α} (hm : Keeps m) : KeepsRet (Parser.act m) := by
  intro ctx toks r ctx' toks' h
  exact (hm (act_ok.mp h).1).1

theorem KeepsRet.ite {c : Prop} [Decidable c] {q : BodyM α} (hp : KeepsRet p) (hq : KeepsRet q) :
    KeepsRet (if c then p else q) := by
  split <;> assumption

variable {expr operand : ExprM}

theorem keepsRet_args (h : KeepsRet expr) (args : List (ValueId × Ty)) :
    KeepsRet (parseArgs expr n args) := by
  induction n generalizing args with
  | zero => exact .lift _
  | succ n ih =>
    exact .bind h fun _ => .bind (.lift _) fun _ => .ite (.bind (.lift _) fun _ => ih _) (.pure _)

theorem keepsRet_call (h : KeepsRet expr) (name : String) (span : Span) :
    KeepsRet (parseCall n expr name span) := by
  have hend : ∀ args, KeepsRet (do
      let _ ← (liftM (expect .rParen) : BodyM Token)
      Parser.act (emitCall name args span)) :=
    fun _ => .bind (.lift _) fun _ => .act (keeps_emitCall _ _ _)
  exact .bind (.lift _) fun _ => .bind (.lift _) fun _ =>
    .ite (.bind (keepsRet_args h _) fun _ => hend _) (.bind (.pure _) fun _ => hend _)

theorem keepsRet_primary (h : KeepsRet expr) : KeepsRet (parsePrimary n expr) := by
  refine .bind (.lift _) fun t => ?_
  cases t.kind with
  | int | trueKw | falseKw => exact .bind (.lift _) fun _ => .act (keeps_emitConst _ _)
  | lParen => exact .bind (.lift _) fun _ => .bind h fun _ => .bind (.lift _) fun _ => .pure _
  | ident name =>
    exact .bind (.lift _) fun _ => .bind (.lift _) fun _ =>
      .ite (keepsRet_call h _ _) (.act (keeps_readName _ _))
  | _ => exact .lift _

theorem keepsRet_unary (h : KeepsRet operand) : KeepsRet (parseUnary operand n) := by
  induction n with
  | zero => exact .lift _
  | succ n ih =>
    exact .bind (.lift _) fun _ => .ite (.bind (.lift _) fun _ => .bind ih fun _ =>
      .bind (.lift _) fun _ => .bind (.act (keeps_emitHere _ _)) fun _ => .pure _) h

theorem keepsRet_not (h : KeepsRet operand) : KeepsRet (parseNot operand n) := by
  induction n with
  | zero => exact .lift _
  | succ n ih =>
    exact .bind (.lift _) fun _ => .ite (.bind (.lift _) fun _ => .bind ih fun _ =>
      .bind (.lift _) fun _ => .bind (.act (keeps_emitHere _ _)) fun _ => .pure _) h

theorem keepsRet_arithLoop {ops : TokenKind → Option BinOp} (h : KeepsRet operand)
    (lhs : ValueId × Ty) : KeepsRet (arithLoop ops operand n lhs) := by
  induction n generalizing lhs with
  | zero => exact .lift _
  | succ n ih =>
    refine .bind (.lift _) fun t => ?_
    cases ops t.kind with
    | none => exact .pure _
    | some op =>
      exact .bind (.lift _) fun _ => .bind (.lift _) fun _ => .bind h fun _ =>
        .bind (.lift _) fun _ => .bind (.act (keeps_emitHere _ _)) fun _ => ih _

theorem keepsRet_cmp (h : KeepsRet operand) : KeepsRet (parseCmp operand) := by
  refine .bind h fun _ => .bind (.lift _) fun t => ?_
  cases cmpOps t.kind with
  | none => exact .pure _
  | some op =>
    exact .bind (.lift _) fun _ => .bind (.lift _) fun _ => .bind h fun _ =>
      .bind (.lift _) fun _ => .bind (.act (keeps_emitHere _ _)) fun _ => .pure _

theorem keepsRet_shortCircuitLoop {kind : TokenKind} {short : Bool} (h : KeepsRet operand)
    (lhs : ValueId × Ty) : KeepsRet (shortCircuitLoop kind short operand n lhs) := by
  induction n generalizing lhs with
  | zero => exact .lift _
  | succ n ih =>
    exact .bind (.lift _) fun _ => .ite (.bind (.lift _) fun _ => .bind (.lift _) fun _ =>
      .bind (.act (keeps_openShortCircuit _ _)) fun _ => .bind h fun _ => .bind (.lift _) fun _ =>
      .bind (.act (keeps_closeShortCircuit _ _)) fun _ => ih _) (.pure _)

theorem keepsRet_mul (h : KeepsRet operand) : KeepsRet (parseMul n operand) :=
  .bind h fun _ => keepsRet_arithLoop h _

theorem keepsRet_add (h : KeepsRet operand) : KeepsRet (parseAdd n operand) :=
  .bind h fun _ => keepsRet_arithLoop h _

theorem keepsRet_and (h : KeepsRet operand) : KeepsRet (parseAnd n operand) :=
  .bind h fun _ => keepsRet_shortCircuitLoop h _

theorem keepsRet_or (h : KeepsRet operand) : KeepsRet (parseOr n operand) :=
  .bind h fun _ => keepsRet_shortCircuitLoop h _

theorem keepsRet_expr : KeepsRet (parseExpr n) := by
  induction n with
  | zero => exact .lift _
  | succ n ih =>
    exact keepsRet_or (keepsRet_and (keepsRet_not (keepsRet_cmp (keepsRet_add (keepsRet_mul
      (keepsRet_unary (keepsRet_primary ih)))))))

variable {block statement : BodyM Unit}

theorem keepsRet_if (h : KeepsRet block) : KeepsRet (parseIf block n) := by
  induction n with
  | zero => exact .lift _
  | succ n ih =>
    refine .bind (.lift _) fun _ => .bind (.lift _) fun _ => .bind keepsRet_expr fun _ =>
      .bind (.lift _) fun _ => .bind (.act (keeps_openIf _)) fun _ => .bind h fun _ =>
      .bind (.act keeps_currentBlock) fun _ => .bind (.act (keeps_isTerminated _)) fun _ =>
      .bind (.act (keeps_enterBlock _)) fun _ => .bind (.lift _) fun _ => ?_
    have hend : ∀ (p : BodyM Unit) (thenTail : BlockId) (terminated : Bool), KeepsRet p →
        KeepsRet (do
          p
          let elseTerminated ← Parser.act do isTerminated (← currentBlock)
          Parser.act (closeIf thenTail terminated elseTerminated)) :=
      fun p _ _ hp => .bind hp fun _ => .bind (.act keeps_hereTerminated) fun _ =>
        .act (keeps_closeIf _ _ _)
    exact .ite (.bind (.lift _) fun _ => .bind (.lift _) fun _ =>
      .ite (hend _ _ _ ih) (hend _ _ _ h)) (.bind (.pure _) fun _ => .act (keeps_closeIf _ _ _))

theorem keepsRet_while (h : KeepsRet block) : KeepsRet (parseWhile block n) :=
  .bind (.act keeps_openWhile) fun _ => .bind (.lift _) fun _ => .bind (.lift _) fun _ =>
    .bind keepsRet_expr fun _ => .bind (.lift _) fun _ => .bind (.act (keeps_openBody _ _)) fun _ =>
    .bind h fun _ => .act (keeps_closeWhile _ _)

theorem keepsRet_return : KeepsRet (parseReturn n) := by
  refine .bind (.lift _) fun _ => .bind (.lift _) fun _ => .bind ?_ fun ctx => ?_
  · intro ctx toks r ctx' toks' h
    obtain ⟨h, -⟩ := Prod.mk.inj (Except.ok.inj h)
    rw [(Prod.mk.inj h).2]
  · have hret : ∀ value, Keeps (do terminate (← currentBlock) (.ret value)) := fun _ =>
      .bind keeps_currentBlock fun _ => keeps_terminate _ _
    cases ctx.retTy with
    | none => exact .bind (.lift _) fun _ => .act (hret _)
    | some expected =>
      exact .bind keepsRet_expr fun _ => .bind (.lift _) fun _ => .bind (.lift _) fun _ =>
        .act (hret _)

theorem keepsRet_statement (h : KeepsRet block) : KeepsRet (parseStatement block n) := by
  have hexpr : KeepsRet (parseExprStmt n) :=
    .bind keepsRet_expr fun _ => .bind (.lift _) fun _ => .pure _
  refine .bind (.lift _) fun t => ?_
  cases t.kind with
  | letKw =>
    exact .bind (.lift _) fun _ => .bind (.lift _) fun _ => .bind (.lift _) fun _ =>
      .bind keepsRet_expr fun _ => .bind (.lift _) fun _ => .act (keeps_writeLet _ _)
  | ifKw => exact keepsRet_if h
  | whileKw => exact keepsRet_while h
  | returnKw => exact keepsRet_return
  | ident name =>
    exact .bind (.lift _) fun _ => .ite (.bind (.lift _) fun _ => .bind (.lift _) fun _ =>
      .bind (.lift _) fun _ => .bind keepsRet_expr fun _ => .bind (.lift _) fun _ =>
      .act (keeps_writeAssign _ _ _)) hexpr
  | _ => exact hexpr

theorem keepsRet_blockLoop (h : KeepsRet statement) : KeepsRet (blockLoop statement n) := by
  induction n with
  | zero => exact .lift _
  | succ n ih =>
    exact .bind (.lift _) fun _ => .ite (.bind (.act keeps_hereTerminated) fun _ =>
      .ite (.bind (.lift _) fun _ => .bind h fun _ => ih) (.bind h fun _ => ih)) (.pure _)

theorem keepsRet_block : KeepsRet (parseBlockBody n) := by
  induction n with
  | zero => exact .lift _
  | succ n ih =>
    exact .bind (.lift _) fun _ => .bind (.act keeps_pushScope) fun _ =>
      .bind (keepsRet_blockLoop (keepsRet_statement ih)) fun _ => .bind (.lift _) fun _ =>
      .act keeps_popScope

end KeepsRet

/-! ### The tokens taken -/

/-- Whenever `p` succeeds, the tokens it has taken are those of some `a` with `P a`. -/
def Takes {α A : Type} (p : BodyM α) (tok : A → List TokenKind) (P : A → Prop) : Prop :=
  ∀ ⦃ctx toks r ctx' toks'⦄, HasEof toks → p ctx toks = .ok ((r, ctx'), toks') →
    HasEof toks' ∧ ∃ a, P a ∧ kinds toks = tok a ++ kinds toks'

/-- `p` takes a shaped expression that binds at least as tightly as `level`. -/
abbrev TakesExpr (level : ℕ) (p : ExprM) : Prop :=
  Takes p Expr.tokens fun e => e.shaped = true ∧ level ≤ e.level

section Expr

variable {n : ℕ} {expr operand : ExprM}

/-- Arguments, with `sep` before the first. -/
theorem takes_args (hexpr : TakesExpr 0 expr) (args : List (ValueId × Ty)) :
    Takes (parseArgs expr n args) (exprsTokens []) fun es => es ≠ [] ∧ exprsShaped es = true := by
  induction n generalizing args with
  | zero => intro _ _ _ _ _ _ h; cases h
  | succ n ih =>
    intro ctx toks r ctx' toks' hend h
    obtain ⟨arg, c₁, t₁, harg, h₁⟩ := body_bind.mp h
    obtain ⟨hend₁, e, ⟨hshape, -⟩, hk⟩ := hexpr hend harg
    obtain ⟨t, c₂, t₂, hpeek, h₂⟩ := body_bind.mp h₁
    obtain ⟨rfl, rfl, rest, rfl⟩ := body_peek.mp hpeek
    split at h₂
    · next hcomma =>
      obtain ⟨_, c₃, t₃, hadv, h₃⟩ := body_bind.mp h₂
      obtain ⟨rfl, rfl, hend₂⟩ := body_advance hend₁ (by rw [hcomma]; decide) hadv
      obtain ⟨hend', es, ⟨hne, hes⟩, hk'⟩ := ih _ hend₂ h₃
      refine ⟨hend', e :: es, ⟨by simp, by simp [exprsShaped, hshape, hes]⟩, ?_⟩
      cases es with
      | nil => exact absurd rfl hne
      | cons e' es =>
        rw [hk, kinds_cons, hcomma, hk']
        simp [exprsTokens]
    · obtain ⟨-, rfl, rfl⟩ := body_pure.mp h₂
      exact ⟨hend₁, [e], ⟨by simp, by simp [exprsShaped, hshape]⟩, by simpa [exprsTokens] using hk⟩

/-- A call, after its name. -/
theorem takes_call (hexpr : TakesExpr 0 expr) (name : String) (span : Span) :
    Takes (parseCall n expr name span)
      (fun args => .lParen :: (exprsTokens [] args ++ [.rParen])) fun args => exprsShaped args = true := by
  intro ctx toks r ctx' toks' hend h
  obtain ⟨u, c₁, t₁, hexp, h₁⟩ := body_bind.mp h
  obtain ⟨rfl, rfl, hparen, hend₁⟩ := body_expect hend (by decide) hexp
  obtain ⟨t, c₂, t₂, hpeek, h₂⟩ := body_bind.mp h₁
  obtain ⟨rfl, rfl, rest, rfl⟩ := body_peek.mp hpeek
  -- the end of the call, after the arguments
  have hclose : ∀ (args : List Expr) {vs : List (ValueId × Ty)} {c₃ t₃}, HasEof t₃ →
      exprsShaped args = true → kinds (t :: rest) = exprsTokens [] args ++ kinds t₃ →
      (do
        let _ ← (liftM (expect .rParen) : BodyM Token)
        act (emitCall name vs span)) c₃ t₃ = .ok ((r, ctx'), toks') →
      HasEof toks' ∧ ∃ args : List Expr, exprsShaped args = true ∧
        kinds (u :: t :: rest) = .lParen :: (exprsTokens [] args ++ [.rParen]) ++ kinds toks' := by
    intro args vs c₃ t₃ hend₂ hshape hk h₃
    obtain ⟨_, c₄, t₄, hexp', h₄⟩ := body_bind.mp h₃
    obtain ⟨rfl, rfl, hparen', hend₃⟩ := body_expect hend₂ (by decide) hexp'
    obtain ⟨-, rfl⟩ := act_ok.mp h₄
    refine ⟨hend₃, args, hshape, ?_⟩
    rw [kinds_cons, hparen, hk, kinds_cons, hparen']
    simp
  split at h₂
  · obtain ⟨vs, c₃, t₃, hargs, h₃⟩ := body_bind.mp h₂
    obtain ⟨hend₂, args, ⟨-, hshape⟩, hk⟩ := takes_args hexpr [] hend₁ hargs
    exact hclose args hend₂ hshape hk h₃
  · obtain ⟨vs, c₃, t₃, hargs, h₃⟩ := body_bind.mp h₂
    obtain ⟨-, -, rfl⟩ := body_pure.mp hargs
    exact hclose [] hend₁ rfl (by simp [exprsTokens]) h₃

theorem takes_primary (hexpr : TakesExpr 0 expr) : TakesExpr 7 (parsePrimary n expr) := by
  intro ctx toks r ctx' toks' hend h
  obtain ⟨t, c₁, t₁, hpeek, h₁⟩ := body_bind.mp h
  obtain ⟨rfl, rfl, rest, rfl⟩ := body_peek.mp hpeek
  generalize hkind : t.kind = k at h₁
  cases k with
  | int value =>
    obtain ⟨_, c₂, t₂, hadv, h₂⟩ := body_bind.mp h₁
    obtain ⟨rfl, rfl, hend'⟩ := body_advance hend (by rw [hkind]; simp) hadv
    obtain ⟨-, rfl⟩ := act_ok.mp h₂
    exact ⟨hend', .int value, ⟨rfl, Nat.le_refl 7⟩, by simp [Expr.tokens, hkind]⟩
  | trueKw =>
    obtain ⟨_, c₂, t₂, hadv, h₂⟩ := body_bind.mp h₁
    obtain ⟨rfl, rfl, hend'⟩ := body_advance hend (by rw [hkind]; simp) hadv
    obtain ⟨-, rfl⟩ := act_ok.mp h₂
    exact ⟨hend', .bool true, ⟨rfl, Nat.le_refl 7⟩, by simp [Expr.tokens, hkind]⟩
  | falseKw =>
    obtain ⟨_, c₂, t₂, hadv, h₂⟩ := body_bind.mp h₁
    obtain ⟨rfl, rfl, hend'⟩ := body_advance hend (by rw [hkind]; simp) hadv
    obtain ⟨-, rfl⟩ := act_ok.mp h₂
    exact ⟨hend', .bool false, ⟨rfl, Nat.le_refl 7⟩, by simp [Expr.tokens, hkind]⟩
  | lParen =>
    obtain ⟨_, c₂, t₂, hadv, h₂⟩ := body_bind.mp h₁
    obtain ⟨rfl, rfl, hend'⟩ := body_advance hend (by rw [hkind]; simp) hadv
    obtain ⟨v, c₃, t₃, hinner, h₃⟩ := body_bind.mp h₂
    obtain ⟨hend₃, e, ⟨hshape, -⟩, hk⟩ := hexpr hend' hinner
    obtain ⟨_, c₄, t₄, hclose, h₄⟩ := body_bind.mp h₃
    obtain ⟨rfl, rfl, hparen, hend₄⟩ := body_expect hend₃ (by decide) hclose
    obtain ⟨-, -, rfl⟩ := body_pure.mp h₄
    refine ⟨hend₄, .paren e, ⟨hshape, Nat.le_refl 7⟩, ?_⟩
    rw [kinds_cons, hkind, hk, kinds_cons, hparen]
    simp [Expr.tokens]
  | ident name =>
    obtain ⟨_, c₂, t₂, hadv, h₂⟩ := body_bind.mp h₁
    obtain ⟨rfl, rfl, hend'⟩ := body_advance hend (by rw [hkind]; simp) hadv
    obtain ⟨next, c₃, t₃, hpeek', h₃⟩ := body_bind.mp h₂
    obtain ⟨rfl, rfl, rest', rfl⟩ := body_peek.mp hpeek'
    split at h₃
    · obtain ⟨hend'', args, hshape, hk⟩ := takes_call hexpr name t.span hend' h₃
      exact ⟨hend'', .call name args, ⟨hshape, Nat.le_refl 7⟩, by
        rw [kinds_cons, hkind, hk]
        simp [Expr.tokens]⟩
    · obtain ⟨-, rfl⟩ := act_ok.mp h₃
      exact ⟨hend', .var name, ⟨rfl, Nat.le_refl 7⟩, by simp [Expr.tokens, hkind]⟩
  | _ => cases h₁

theorem TakesExpr.mono {level level' : ℕ} (h : TakesExpr level' operand) (hle : level ≤ level') :
    TakesExpr level operand := by
  intro ctx toks r ctx' toks' hend hok
  obtain ⟨hend', e, ⟨hshape, hlevel⟩, hk⟩ := h hend hok
  exact ⟨hend', e, ⟨hshape, Nat.le_trans hle hlevel⟩, hk⟩

/-- A prefix operator, checked and emitted like those of `parse_not` and `parse_unary`. -/
theorem takes_un {level : ℕ} (op : UnOp) (hop : TakesExpr level operand) (hlevel : level = unLevel op)
    {ctx ctx' : FnContext} {t : Token} {toks toks' : List Token} {r : ValueId × Ty} {ty ty' : Ty}
    (hend : HasEof (t :: toks)) (hkind : t.kind = unToken op)
    (h : (do
      let _ ← (liftM advance : BodyM Token)
      let (v, actual) ← operand
      checkTy ty actual t.span
      let result ← act (emitHere ty' (.un op v))
      return (result, ty') : ExprM) ctx (t :: toks) = .ok ((r, ctx'), toks')) :
    HasEof toks' ∧ ∃ e : Expr, (e.shaped = true ∧ level ≤ e.level) ∧
      kinds (t :: toks) = e.tokens ++ kinds toks' := by
  obtain ⟨_, c₁, t₁, hadv, h₁⟩ := body_bind.mp h
  obtain ⟨rfl, rfl, hend₁⟩ := body_advance hend (by rw [hkind]; cases op <;> simp [unToken]) hadv
  obtain ⟨v, c₂, t₂, hoperand, h₂⟩ := body_bind.mp h₁
  obtain ⟨hend₂, e, ⟨hshape, hle⟩, hk⟩ := hop hend₁ hoperand
  obtain ⟨_, c₃, t₃, hcheck, h₃⟩ := body_bind.mp h₂
  obtain ⟨-, -, rfl⟩ := body_checkTy.mp hcheck
  obtain ⟨_, c₄, t₄, hact, h₄⟩ := body_bind.mp h₃
  obtain ⟨-, rfl⟩ := act_ok.mp hact
  obtain ⟨-, -, rfl⟩ := body_pure.mp h₄
  refine ⟨hend₂, .un op e, ⟨?_, by rw [hlevel]; exact Nat.le_refl _⟩, ?_⟩
  · simp [Expr.shaped, hshape, ← hlevel, hle]
  · rw [kinds_cons, hkind, hk]
    rfl

theorem takes_unary (hprimary : TakesExpr 7 operand) : TakesExpr 6 (parseUnary operand n) := by
  induction n with
  | zero => intro _ _ _ _ _ _ h; cases h
  | succ n ih =>
    intro ctx toks r ctx' toks' hend h
    obtain ⟨t, c₁, t₁, hpeek, h₁⟩ := body_bind.mp h
    obtain ⟨rfl, rfl, rest, rfl⟩ := body_peek.mp hpeek
    split at h₁
    · next hkind => exact takes_un .neg ih rfl hend hkind h₁
    · exact hprimary.mono (by decide) hend h₁

theorem takes_not (hcmp : TakesExpr 3 operand) : TakesExpr 2 (parseNot operand n) := by
  induction n with
  | zero => intro _ _ _ _ _ _ h; cases h
  | succ n ih =>
    intro ctx toks r ctx' toks' hend h
    obtain ⟨t, c₁, t₁, hpeek, h₁⟩ := body_bind.mp h
    obtain ⟨rfl, rfl, rest, rfl⟩ := body_peek.mp hpeek
    split at h₁
    · next hkind => exact takes_un .not ih rfl hend hkind h₁
    · exact hcmp.mono (by decide) hend h₁

/-- The tokens of the operators of one level. -/
def IsOps (ops : TokenKind → Option BinOp) (level : ℕ) : Prop :=
  ∀ k op, ops k = some op ↔ ∃ o : Operator, o.token = k ∧ o.binOp = op ∧ o.level = level

theorem isOps_mul : IsOps mulOps 5 := by
  intro k op
  constructor
  · unfold mulOps
    intro h
    split at h
    case h_4 => cases h
    all_goals
      obtain rfl := Option.some.inj h
      first
      | exact ⟨.mul, rfl, rfl, rfl⟩
      | exact ⟨.div, rfl, rfl, rfl⟩
      | exact ⟨.mod, rfl, rfl, rfl⟩
  · rintro ⟨o, rfl, rfl, h⟩
    cases o <;> first | rfl | simp [Operator.level] at h

theorem isOps_add : IsOps addOps 4 := by
  intro k op
  constructor
  · unfold addOps
    intro h
    split at h
    case h_3 => cases h
    all_goals
      obtain rfl := Option.some.inj h
      first
      | exact ⟨.add, rfl, rfl, rfl⟩
      | exact ⟨.sub, rfl, rfl, rfl⟩
  · rintro ⟨o, rfl, rfl, h⟩
    cases o <;> first | rfl | simp [Operator.level] at h

theorem isOps_cmp : IsOps cmpOps 3 := by
  intro k op
  constructor
  · unfold cmpOps
    intro h
    split at h
    case h_7 => cases h
    all_goals
      obtain rfl := Option.some.inj h
      first
      | exact ⟨.eq, rfl, rfl, rfl⟩
      | exact ⟨.ne, rfl, rfl, rfl⟩
      | exact ⟨.lt, rfl, rfl, rfl⟩
      | exact ⟨.le, rfl, rfl, rfl⟩
      | exact ⟨.gt, rfl, rfl, rfl⟩
      | exact ⟨.ge, rfl, rfl, rfl⟩
  · rintro ⟨o, rfl, rfl, h⟩
    cases o <;> first | rfl | simp [Operator.level] at h

theorem Operator.token_ne_eof (o : Operator) : o.token ≠ .eof := by
  cases o <;> simp [Operator.token]

theorem Operator.leftLevel_eq {o : Operator} (h : o.level ≠ 3) : o.leftLevel = o.level := if_neg h

theorem takes_arithLoop {ops : TokenKind → Option BinOp} {level : ℕ} (hops : IsOps ops level)
    (hlevel : level ≠ 3) (hop : TakesExpr (level + 1) operand) (lhs : ValueId × Ty) {e₀ : Expr}
    (hshape₀ : e₀.shaped = true) (hle₀ : level ≤ e₀.level) {ctx ctx' : FnContext}
    {toks toks' : List Token} {r : ValueId × Ty} (hend : HasEof toks)
    (h : arithLoop ops operand n lhs ctx toks = .ok ((r, ctx'), toks')) :
    HasEof toks' ∧ ∃ (e : Expr) (mid : List TokenKind), (e.shaped = true ∧ level ≤ e.level) ∧
      e.tokens = e₀.tokens ++ mid ∧ kinds toks = mid ++ kinds toks' := by
  induction n generalizing lhs e₀ ctx toks with
  | zero => cases h
  | succ n ih =>
    obtain ⟨t, c₁, t₁, hpeek, h₁⟩ := body_bind.mp h
    obtain ⟨rfl, rfl, rest, rfl⟩ := body_peek.mp hpeek
    generalize hsome : ops t.kind = found at h₁
    cases found with
    | none =>
      obtain ⟨-, -, rfl⟩ := body_pure.mp h₁
      exact ⟨hend, e₀, [], ⟨hshape₀, hle₀⟩, by simp, by simp⟩
    | some op =>
      obtain ⟨o, htok, rfl, rfl⟩ := (hops _ _).mp hsome
      obtain ⟨_, c₂, t₂, hadv, h₂⟩ := body_bind.mp h₁
      obtain ⟨rfl, rfl, hend₁⟩ := body_advance hend (htok ▸ o.token_ne_eof) hadv
      obtain ⟨_, c₃, t₃, hcheck, h₃⟩ := body_bind.mp h₂
      obtain ⟨-, rfl, rfl⟩ := body_checkTy.mp hcheck
      obtain ⟨rhs, c₄, t₄, hrhs, h₄⟩ := body_bind.mp h₃
      obtain ⟨hend₂, e₁, ⟨hshape₁, hle₁⟩, hk₁⟩ := hop hend₁ hrhs
      obtain ⟨_, c₅, t₅, hcheck', h₅⟩ := body_bind.mp h₄
      obtain ⟨-, rfl, rfl⟩ := body_checkTy.mp hcheck'
      obtain ⟨v, c₆, t₆, hact, h₆⟩ := body_bind.mp h₅
      obtain ⟨-, rfl⟩ := act_ok.mp hact
      have hshape : (Expr.bin o e₀ e₁).shaped = true := by
        simp only [Expr.shaped, hshape₀, hshape₁, Bool.true_and, Bool.and_eq_true,
          decide_eq_true_eq, Operator.leftLevel_eq hlevel]
        exact ⟨hle₀, hle₁⟩
      obtain ⟨hend', e, mid, he, htoks, hk⟩ := ih (v, .i64) hshape (Nat.le_refl _) hend₂ h₆
      refine ⟨hend', e, o.token :: (e₁.tokens ++ mid), he, ?_, ?_⟩
      · rw [htoks]
        simp [Expr.tokens]
      · rw [kinds_cons, ← htok, hk₁, hk]
        simp

theorem takes_mul (hunary : TakesExpr 6 operand) : TakesExpr 5 (parseMul n operand) := by
  intro ctx toks r ctx' toks' hend h
  obtain ⟨lhs, c₁, t₁, hlhs, h₁⟩ := body_bind.mp h
  obtain ⟨hend₁, e₀, ⟨hshape, hle⟩, hk⟩ := hunary hend hlhs
  obtain ⟨hend', e, mid, he, htoks, hk'⟩ :=
    takes_arithLoop isOps_mul (by decide) hunary lhs hshape (Nat.le_of_succ_le hle) hend₁ h₁
  exact ⟨hend', e, he, by rw [hk, htoks, hk', List.append_assoc]⟩

theorem takes_add (hmul : TakesExpr 5 operand) : TakesExpr 4 (parseAdd n operand) := by
  intro ctx toks r ctx' toks' hend h
  obtain ⟨lhs, c₁, t₁, hlhs, h₁⟩ := body_bind.mp h
  obtain ⟨hend₁, e₀, ⟨hshape, hle⟩, hk⟩ := hmul hend hlhs
  obtain ⟨hend', e, mid, he, htoks, hk'⟩ :=
    takes_arithLoop isOps_add (by decide) hmul lhs hshape (Nat.le_of_succ_le hle) hend₁ h₁
  exact ⟨hend', e, he, by rw [hk, htoks, hk', List.append_assoc]⟩

theorem takes_cmp (hadd : TakesExpr 4 operand) : TakesExpr 3 (parseCmp operand) := by
  intro ctx toks r ctx' toks' hend h
  obtain ⟨lhs, c₁, t₁, hlhs, h₁⟩ := body_bind.mp h
  obtain ⟨hend₁, e₀, ⟨hshape₀, hle₀⟩, hk₀⟩ := hadd hend hlhs
  obtain ⟨t, c₂, t₂, hpeek, h₂⟩ := body_bind.mp h₁
  obtain ⟨rfl, rfl, rest, rfl⟩ := body_peek.mp hpeek
  generalize hsome : cmpOps t.kind = found at h₂
  cases found with
  | none =>
    obtain ⟨-, -, rfl⟩ := body_pure.mp h₂
    exact ⟨hend₁, e₀, ⟨hshape₀, Nat.le_of_succ_le hle₀⟩, hk₀⟩
  | some op =>
    obtain ⟨o, htok, rfl, ho⟩ := (isOps_cmp _ _).mp hsome
    obtain ⟨_, c₃, t₃, hadv, h₃⟩ := body_bind.mp h₂
    obtain ⟨rfl, rfl, hend₂⟩ := body_advance hend₁ (htok ▸ o.token_ne_eof) hadv
    obtain ⟨_, c₄, t₄, hcheck, h₄⟩ := body_bind.mp h₃
    obtain ⟨-, rfl, rfl⟩ := body_checkTy.mp hcheck
    obtain ⟨rhs, c₅, t₅, hrhs, h₅⟩ := body_bind.mp h₄
    obtain ⟨hend₃, e₁, ⟨hshape₁, hle₁⟩, hk₁⟩ := hadd hend₂ hrhs
    obtain ⟨_, c₆, t₆, hcheck', h₆⟩ := body_bind.mp h₅
    obtain ⟨-, rfl, rfl⟩ := body_checkTy.mp hcheck'
    obtain ⟨v, c₇, t₇, hact, h₇⟩ := body_bind.mp h₆
    obtain ⟨-, rfl⟩ := act_ok.mp hact
    obtain ⟨-, -, rfl⟩ := body_pure.mp h₇
    refine ⟨hend₃, .bin o e₀ e₁, ⟨?_, Nat.le_of_eq ho.symm⟩, ?_⟩
    · simp only [Expr.shaped, hshape₀, hshape₁, Bool.true_and, Bool.and_eq_true,
        decide_eq_true_eq, Operator.leftLevel, ho]
      exact ⟨hle₀, hle₁⟩
    · rw [hk₀, kinds_cons, ← htok, hk₁]
      simp [Expr.tokens]

theorem Connective.token_ne_eof (o : Connective) : o.token ≠ .eof := by
  cases o <;> simp [Connective.token]

theorem takes_shortCircuitLoop (o : Connective) (hop : TakesExpr (o.level + 1) operand)
    (lhs : ValueId × Ty) {e₀ : Expr} (hshape₀ : e₀.shaped = true) (hle₀ : o.level ≤ e₀.level)
    {ctx ctx' : FnContext} {toks toks' : List Token} {r : ValueId × Ty} (hend : HasEof toks)
    (h : shortCircuitLoop o.token o.short operand n lhs ctx toks = .ok ((r, ctx'), toks')) :
    HasEof toks' ∧ ∃ (e : Expr) (mid : List TokenKind), (e.shaped = true ∧ o.level ≤ e.level) ∧
      e.tokens = e₀.tokens ++ mid ∧ kinds toks = mid ++ kinds toks' := by
  induction n generalizing lhs e₀ ctx toks with
  | zero => cases h
  | succ n ih =>
    obtain ⟨t, c₁, t₁, hpeek, h₁⟩ := body_bind.mp h
    obtain ⟨rfl, rfl, rest, rfl⟩ := body_peek.mp hpeek
    split at h₁
    · next htok =>
      obtain ⟨_, c₂, t₂, hadv, h₂⟩ := body_bind.mp h₁
      obtain ⟨rfl, rfl, hend₁⟩ := body_advance hend (htok ▸ o.token_ne_eof) hadv
      obtain ⟨_, c₃, t₃, hcheck, h₃⟩ := body_bind.mp h₂
      obtain ⟨-, rfl, rfl⟩ := body_checkTy.mp hcheck
      obtain ⟨s, c₄, t₄, hopen, h₄⟩ := body_bind.mp h₃
      obtain ⟨-, rfl⟩ := act_ok.mp hopen
      obtain ⟨rhs, c₅, t₅, hrhs, h₅⟩ := body_bind.mp h₄
      obtain ⟨hend₂, e₁, ⟨hshape₁, hle₁⟩, hk₁⟩ := hop hend₁ hrhs
      obtain ⟨_, c₆, t₆, hcheck', h₆⟩ := body_bind.mp h₅
      obtain ⟨-, rfl, rfl⟩ := body_checkTy.mp hcheck'
      obtain ⟨v, c₇, t₇, hclose, h₇⟩ := body_bind.mp h₆
      obtain ⟨-, rfl⟩ := act_ok.mp hclose
      have hshape : (Expr.logic o e₀ e₁).shaped = true := by
        simp only [Expr.shaped, hshape₀, hshape₁, Bool.true_and, Bool.and_eq_true,
          decide_eq_true_eq]
        exact ⟨hle₀, hle₁⟩
      obtain ⟨hend', e, mid, he, htoks, hk⟩ := ih (v, .bool) hshape (Nat.le_refl _) hend₂ h₇
      refine ⟨hend', e, o.token :: (e₁.tokens ++ mid), he, ?_, ?_⟩
      · rw [htoks]
        simp [Expr.tokens]
      · rw [kinds_cons, htok, hk₁, hk]
        simp
    · obtain ⟨-, -, rfl⟩ := body_pure.mp h₁
      exact ⟨hend, e₀, [], ⟨hshape₀, hle₀⟩, by simp, by simp⟩

theorem takes_and (hnot : TakesExpr 2 operand) : TakesExpr 1 (parseAnd n operand) := by
  intro ctx toks r ctx' toks' hend h
  obtain ⟨lhs, c₁, t₁, hlhs, h₁⟩ := body_bind.mp h
  obtain ⟨hend₁, e₀, ⟨hshape, hle⟩, hk⟩ := hnot hend hlhs
  obtain ⟨hend', e, mid, he, htoks, hk'⟩ :=
    takes_shortCircuitLoop .and hnot lhs hshape (Nat.le_of_succ_le hle) hend₁ h₁
  exact ⟨hend', e, he, by rw [hk, htoks, hk', List.append_assoc]⟩

theorem takes_or (hand : TakesExpr 1 operand) : TakesExpr 0 (parseOr n operand) := by
  intro ctx toks r ctx' toks' hend h
  obtain ⟨lhs, c₁, t₁, hlhs, h₁⟩ := body_bind.mp h
  obtain ⟨hend₁, e₀, ⟨hshape, hle⟩, hk⟩ := hand hend hlhs
  obtain ⟨hend', e, mid, he, htoks, hk'⟩ :=
    takes_shortCircuitLoop .or hand lhs hshape (Nat.le_of_succ_le hle) hend₁ h₁
  exact ⟨hend', e, he, by rw [hk, htoks, hk', List.append_assoc]⟩

theorem takes_expr : TakesExpr 0 (parseExpr n) := by
  induction n with
  | zero => intro _ _ _ _ _ _ h; cases h
  | succ n ih =>
    exact takes_or (takes_and (takes_not (takes_cmp (takes_add (takes_mul (takes_unary
      (takes_primary ih)))))))

end Expr

section Stmt

variable {n : ℕ} {block statement : BodyM Unit} {ctx ctx' : FnContext} {t : Token}
  {toks toks' : List Token}

theorem expectIdent_ok {name : String} (hend : HasEof toks)
    (h : expectIdent toks = .ok (name, toks')) :
    ∃ t, toks = t :: toks' ∧ t.kind = .ident name ∧ HasEof toks' := by
  obtain ⟨t, toks₁, hpeek, hmatch⟩ := cursor_bind.mp h
  obtain ⟨rfl, rest, rfl⟩ := peek_ok.mp hpeek
  generalize hkind : t.kind = k at hmatch
  cases k with
  | ident x =>
    obtain ⟨hne, hend'⟩ := hend.tail (by rw [hkind]; simp)
    obtain ⟨_, toks₂, hadv, hpure⟩ := cursor_bind.mp hmatch
    rw [advance_cons hne] at hadv
    obtain ⟨-, rfl⟩ := Prod.mk.inj (Except.ok.inj hadv)
    obtain ⟨rfl, rfl⟩ := Prod.mk.inj (Except.ok.inj hpure)
    exact ⟨t, rfl, hkind, hend'⟩
  | _ => cases hmatch

theorem expectType_ok {ty : Ty} (hend : HasEof toks) (h : expectType toks = .ok (ty, toks')) :
    ∃ t, toks = t :: toks' ∧ t.kind = tyToken ty ∧ HasEof toks' := by
  obtain ⟨t, toks₁, hpeek, hmatch⟩ := cursor_bind.mp h
  obtain ⟨rfl, rest, rfl⟩ := peek_ok.mp hpeek
  generalize hkind : t.kind = k at hmatch
  cases k with
  | i64Kw | boolKw =>
    obtain ⟨hne, hend'⟩ := hend.tail (by rw [hkind]; simp)
    obtain ⟨_, toks₂, hadv, hpure⟩ := cursor_bind.mp hmatch
    rw [advance_cons hne] at hadv
    obtain ⟨-, rfl⟩ := Prod.mk.inj (Except.ok.inj hadv)
    obtain ⟨rfl, rfl⟩ := Prod.mk.inj (Except.ok.inj hpure)
    exact ⟨t, rfl, hkind, hend'⟩
  | _ => cases hmatch

theorem body_expectIdent {name : String} (hend : HasEof toks)
    (h : (liftM expectIdent : BodyM String) ctx toks = .ok ((name, ctx'), toks')) :
    ctx' = ctx ∧ ∃ t, toks = t :: toks' ∧ t.kind = .ident name ∧ HasEof toks' := by
  obtain ⟨hexp, rfl⟩ := body_lift.mp h
  exact ⟨rfl, expectIdent_ok hend hexp⟩

/-- `p` takes a statement. -/
abbrev TakesStmt (p : BodyM Unit) : Prop := Takes p Stmt.tokens fun s => s.shaped = true

theorem takes_let : TakesStmt (parseLet n) := by
  intro ctx toks r ctx' toks' hend h
  obtain ⟨t, c₁, t₁, hlet, h₁⟩ := body_bind.mp h
  obtain ⟨rfl, rfl, hk, hend₁⟩ := body_expect hend (by decide) hlet
  obtain ⟨name, c₂, t₂, hname, h₂⟩ := body_bind.mp h₁
  obtain ⟨rfl, t', rfl, hk', hend₂⟩ := body_expectIdent hend₁ hname
  obtain ⟨u, c₃, t₃, heq, h₃⟩ := body_bind.mp h₂
  obtain ⟨rfl, rfl, hk'', hend₃⟩ := body_expect hend₂ (by decide) heq
  obtain ⟨value, c₄, t₄, hvalue, h₄⟩ := body_bind.mp h₃
  obtain ⟨hend₄, e, ⟨hshape, -⟩, hke⟩ := takes_expr hend₃ hvalue
  obtain ⟨u', c₅, t₅, hsemi, h₅⟩ := body_bind.mp h₄
  obtain ⟨rfl, rfl, hks, hend₅⟩ := body_expect hend₄ (by decide) hsemi
  obtain ⟨-, rfl⟩ := act_ok.mp h₅
  refine ⟨hend₅, .letVar name e, hshape, ?_⟩
  rw [kinds_cons, kinds_cons, kinds_cons, hk, hk', hk'', hke, kinds_cons, hks]
  simp [Stmt.tokens]

theorem takes_assign : TakesStmt (parseAssign n) := by
  intro ctx toks r ctx' toks' hend h
  obtain ⟨t, c₁, t₁, hpeek, h₁⟩ := body_bind.mp h
  obtain ⟨rfl, rfl, -⟩ := body_peek.mp hpeek
  obtain ⟨name, c₂, t₂, hname, h₂⟩ := body_bind.mp h₁
  obtain ⟨rfl, t', rfl, hk', hend₂⟩ := body_expectIdent hend hname
  obtain ⟨u, c₃, t₃, heq, h₃⟩ := body_bind.mp h₂
  obtain ⟨rfl, rfl, hk'', hend₃⟩ := body_expect hend₂ (by decide) heq
  obtain ⟨value, c₄, t₄, hvalue, h₄⟩ := body_bind.mp h₃
  obtain ⟨hend₄, e, ⟨hshape, -⟩, hke⟩ := takes_expr hend₃ hvalue
  obtain ⟨u', c₅, t₅, hsemi, h₅⟩ := body_bind.mp h₄
  obtain ⟨rfl, rfl, hks, hend₅⟩ := body_expect hend₄ (by decide) hsemi
  obtain ⟨-, rfl⟩ := act_ok.mp h₅
  refine ⟨hend₅, .assign name e, hshape, ?_⟩
  rw [kinds_cons, kinds_cons, hk', hk'', hke, kinds_cons, hks]
  simp [Stmt.tokens]

theorem takes_exprStmt : TakesStmt (parseExprStmt n) := by
  intro ctx toks r ctx' toks' hend h
  obtain ⟨value, c₁, t₁, hvalue, h₁⟩ := body_bind.mp h
  obtain ⟨hend₁, e, ⟨hshape, -⟩, hke⟩ := takes_expr hend hvalue
  obtain ⟨u, c₂, t₂, hsemi, h₂⟩ := body_bind.mp h₁
  obtain ⟨rfl, rfl, hks, hend₂⟩ := body_expect hend₁ (by decide) hsemi
  obtain ⟨-, -, rfl⟩ := body_pure.mp h₂
  refine ⟨hend₂, .expr e, hshape, ?_⟩
  rw [hke, kinds_cons, hks]
  simp [Stmt.tokens]

theorem takes_return (hret : ctx.retTy.isSome) (hend : HasEof toks) {r : Unit}
    (h : parseReturn n ctx toks = .ok ((r, ctx'), toks')) :
    HasEof toks' ∧ ∃ s : Stmt, s.shaped = true ∧ kinds toks = s.tokens ++ kinds toks' := by
  obtain ⟨t, c₁, t₁, hpeek, h₁⟩ := body_bind.mp h
  obtain ⟨rfl, rfl, -⟩ := body_peek.mp hpeek
  obtain ⟨u, c₂, t₂, hret', h₂⟩ := body_bind.mp h₁
  obtain ⟨rfl, rfl, hk, hend₁⟩ := body_expect hend (by decide) hret'
  obtain ⟨c, c₃, t₃, hget, h₃⟩ := body_bind.mp h₂
  obtain ⟨hc, rfl⟩ := Prod.mk.inj (Except.ok.inj hget)
  obtain ⟨rfl, rfl⟩ := Prod.mk.inj hc
  obtain ⟨expected, hexpected⟩ := Option.isSome_iff_exists.mp hret
  rw [hexpected] at h₃
  obtain ⟨value, c₄, t₄, hvalue, h₄⟩ := body_bind.mp h₃
  obtain ⟨hend₂, e, ⟨hshape, -⟩, hke⟩ := takes_expr hend₁ hvalue
  obtain ⟨_, c₅, t₅, hcheck, h₅⟩ := body_bind.mp h₄
  obtain ⟨-, rfl, rfl⟩ := body_checkTy.mp hcheck
  obtain ⟨u', c₆, t₆, hsemi, h₆⟩ := body_bind.mp h₅
  obtain ⟨rfl, rfl, hks, hend₃⟩ := body_expect hend₂ (by decide) hsemi
  obtain ⟨-, rfl⟩ := act_ok.mp h₆
  refine ⟨hend₃, .ret e, hshape, ?_⟩
  rw [kinds_cons, hk, hke, kinds_cons, hks]
  simp [Stmt.tokens]

/-- Whenever `p` succeeds in a function with a return type, the tokens it has taken are those of
some `a` with `P a`. -/
def TakesIn {α A : Type} (p : BodyM α) (tok : A → List TokenKind) (P : A → Prop) : Prop :=
  ∀ ⦃ctx toks r ctx' toks'⦄, ctx.retTy.isSome → HasEof toks →
    p ctx toks = .ok ((r, ctx'), toks') →
    HasEof toks' ∧ ∃ a, P a ∧ kinds toks = tok a ++ kinds toks'

/-- `p` takes a block with its braces. -/
abbrev TakesBlock (p : BodyM Unit) : Prop :=
  TakesIn p (fun ss => .lBrace :: (stmtsTokens ss ++ [.rBrace])) fun ss => stmtsShaped ss = true

theorem takes_if (hkeeps : KeepsRet block) (hblock : TakesBlock block) :
    TakesIn (parseIf block n)
      (fun (s : Expr × List Stmt × Else) =>
        .ifKw :: (s.1.tokens ++ (.lBrace :: (stmtsTokens s.2.1 ++ .rBrace :: s.2.2.tokens))))
      fun s => s.1.shaped = true ∧ stmtsShaped s.2.1 = true ∧ s.2.2.shaped = true := by
  induction n with
  | zero => intro _ _ _ _ _ _ _ h; cases h
  | succ n ih =>
    intro ctx toks r ctx' toks' hret hend h
    obtain ⟨t, c₁, t₁, hpeek, h₁⟩ := body_bind.mp h
    obtain ⟨rfl, rfl, -⟩ := body_peek.mp hpeek
    obtain ⟨u, c₂, t₂, hif, h₂⟩ := body_bind.mp h₁
    obtain ⟨rfl, rfl, hkif, hend₂⟩ := body_expect hend (by decide) hif
    obtain ⟨cond, c₃, t₃, hcond, h₃⟩ := body_bind.mp h₂
    obtain ⟨hend₃, c, ⟨hc, -⟩, hkc⟩ := takes_expr hend₂ hcond
    have hret₃ := keepsRet_expr hcond
    obtain ⟨_, c₄, t₄, hcheck, h₄⟩ := body_bind.mp h₃
    obtain ⟨-, rfl, rfl⟩ := body_checkTy.mp hcheck
    obtain ⟨elseBlock, c₅, t₅, hopen, h₅⟩ := body_bind.mp h₄
    obtain ⟨hopened, rfl⟩ := act_ok.mp hopen
    have hret₅ := (keeps_openIf _ hopened).1
    obtain ⟨_, c₆, t₆, hthen, h₆⟩ := body_bind.mp h₅
    have hret₆ := hkeeps hthen
    obtain ⟨hend₆, thn, hthn, hkthn⟩ :=
      hblock (by rw [hret₅, hret₃]; exact hret) hend₃ hthen
    obtain ⟨thenTail, c₇, t₇, htail, h₇⟩ := body_bind.mp h₆
    obtain ⟨htail', rfl⟩ := act_ok.mp htail
    obtain ⟨terminated, c₈, t₈, hterm, h₈⟩ := body_bind.mp h₇
    obtain ⟨hterm', rfl⟩ := act_ok.mp hterm
    obtain ⟨_, c₉, t₉, henter, h₉⟩ := body_bind.mp h₈
    obtain ⟨henter', rfl⟩ := act_ok.mp henter
    have hret₉ : c₉.retTy.isSome := by
      rw [(keeps_enterBlock _ henter').1, (keeps_isTerminated _ hterm').1,
        (keeps_currentBlock htail').1, hret₆, hret₅, hret₃]
      exact hret
    -- an `else if`, an `else` with a block, or neither
    obtain ⟨next, c₁₀, t₁₀, hpeek', h₁₀⟩ := body_bind.mp h₉
    obtain ⟨rfl, rfl, rest, rfl⟩ := body_peek.mp hpeek'
    split at h₁₀
    · next helse =>
      obtain ⟨_, c₁₁, t₁₁, hadv, h₁₁⟩ := body_bind.mp h₁₀
      obtain ⟨rfl, rfl, hend₁₁⟩ := body_advance hend₆ (by rw [helse]; decide) hadv
      obtain ⟨afterElse, c₁₂, t₁₂, hpeek'', h₁₂⟩ := body_bind.mp h₁₁
      obtain ⟨rfl, rfl, rest', rfl⟩ := body_peek.mp hpeek''
      split at h₁₂
      · obtain ⟨_, c₁₃, t₁₃, helif, h₁₃⟩ := body_bind.mp h₁₂
        obtain ⟨hend', ⟨c', thn', els⟩, hels, hk⟩ := ih hret₉ hend₁₁ helif
        obtain ⟨_, c₁₄, t₁₄, helseTerm, h₁₄⟩ := body_bind.mp h₁₃
        obtain ⟨-, rfl⟩ := act_ok.mp helseTerm
        obtain ⟨-, rfl⟩ := act_ok.mp h₁₄
        refine ⟨hend', ⟨c, thn, .elif c' thn' els⟩, ⟨hc, hthn, ?_⟩, ?_⟩
        · simpa [Else.shaped, and_assoc] using hels
        · rw [kinds_cons, hkif, hkc, hkthn, kinds_cons, helse, hk]
          simp [Else.tokens]
      · obtain ⟨_, c₁₃, t₁₃, hels, h₁₃⟩ := body_bind.mp h₁₂
        obtain ⟨hend', els, hshape, hk⟩ := hblock hret₉ hend₁₁ hels
        obtain ⟨_, c₁₄, t₁₄, helseTerm, h₁₄⟩ := body_bind.mp h₁₃
        obtain ⟨-, rfl⟩ := act_ok.mp helseTerm
        obtain ⟨-, rfl⟩ := act_ok.mp h₁₄
        refine ⟨hend', ⟨c, thn, .block els⟩, ⟨hc, hthn, hshape⟩, ?_⟩
        rw [kinds_cons, hkif, hkc, hkthn, kinds_cons, helse, hk]
        simp [Else.tokens]
    · obtain ⟨_, c₁₁, t₁₁, hpure, h₁₁⟩ := body_bind.mp h₁₀
      obtain ⟨-, -, rfl⟩ := body_pure.mp hpure
      obtain ⟨-, rfl⟩ := act_ok.mp h₁₁
      refine ⟨hend₆, ⟨c, thn, .none⟩, ⟨hc, hthn, rfl⟩, ?_⟩
      rw [kinds_cons, hkif, hkc, hkthn]
      simp [Else.tokens]

theorem takes_while (hblock : TakesBlock block) :
    TakesIn (parseWhile block n) Stmt.tokens fun s => s.shaped = true := by
  intro ctx toks r ctx' toks' hret hend h
  obtain ⟨header, c₁, t₁, hopen, h₁⟩ := body_bind.mp h
  obtain ⟨hopened, rfl⟩ := act_ok.mp hopen
  have hret₁ := (keeps_openWhile hopened).1
  obtain ⟨u, c₂, t₂, hwhile, h₂⟩ := body_bind.mp h₁
  obtain ⟨rfl, rfl, hk, hend₂⟩ := body_expect hend (by decide) hwhile
  obtain ⟨t, c₃, t₃, hpeek, h₃⟩ := body_bind.mp h₂
  obtain ⟨rfl, rfl, -⟩ := body_peek.mp hpeek
  obtain ⟨cond, c₄, t₄, hcond, h₄⟩ := body_bind.mp h₃
  obtain ⟨hend₄, c, ⟨hc, -⟩, hkc⟩ := takes_expr hend₂ hcond
  have hret₄ := keepsRet_expr hcond
  obtain ⟨_, c₅, t₅, hcheck, h₅⟩ := body_bind.mp h₄
  obtain ⟨-, rfl, rfl⟩ := body_checkTy.mp hcheck
  obtain ⟨exit, c₆, t₆, hbody, h₆⟩ := body_bind.mp h₅
  obtain ⟨hbody', rfl⟩ := act_ok.mp hbody
  have hret₆ := (keeps_openBody _ _ hbody').1
  obtain ⟨_, c₇, t₇, hblk, h₇⟩ := body_bind.mp h₆
  obtain ⟨hend₇, body, hshape, hkb⟩ :=
    hblock (by rw [hret₆, hret₄, hret₁]; exact hret) hend₄ hblk
  obtain ⟨-, rfl⟩ := act_ok.mp h₇
  refine ⟨hend₇, .while c body, by simp [Stmt.shaped, hc, hshape], ?_⟩
  rw [kinds_cons, hk, hkc, hkb]
  simp [Stmt.tokens]

theorem peekIsAssignment_ok {assigns : Bool} (h : peekIsAssignment toks = .ok (assigns, toks')) :
    toks' = toks := by
  unfold peekIsAssignment at h
  split at h
  · cases h
  · split at h <;> exact (Prod.mk.inj (Except.ok.inj h)).2.symm

theorem takes_statement (hkeeps : KeepsRet block) (hblock : TakesBlock block) :
    TakesIn (parseStatement block n) Stmt.tokens fun s => s.shaped = true := by
  intro ctx toks r ctx' toks' hret hend h
  obtain ⟨t, c₁, t₁, hpeek, h₁⟩ := body_bind.mp h
  obtain ⟨rfl, rfl, -⟩ := body_peek.mp hpeek
  generalize t.kind = k at h₁
  cases k with
  | letKw => exact takes_let hend h₁
  | ifKw =>
    obtain ⟨hend', ⟨c, thn, els⟩, hshape, hk⟩ := takes_if hkeeps hblock hret hend h₁
    exact ⟨hend', .cond c thn els, by simpa [Stmt.shaped, and_assoc] using hshape, hk⟩
  | whileKw => exact takes_while hblock hret hend h₁
  | returnKw => exact takes_return hret hend h₁
  | ident name =>
    obtain ⟨assigns, c₂, t₂, hassign, h₂⟩ := body_bind.mp h₁
    obtain ⟨hpeek', rfl⟩ := body_lift.mp hassign
    obtain rfl := peekIsAssignment_ok hpeek'
    split at h₂
    · exact takes_assign hend h₂
    · exact takes_exprStmt hend h₂
  | _ => exact takes_exprStmt hend h₁

theorem takes_blockLoop (hkeeps : KeepsRet statement)
    (hstmt : TakesIn statement Stmt.tokens fun s => s.shaped = true) :
    TakesIn (blockLoop statement n) stmtsTokens fun ss => stmtsShaped ss = true := by
  induction n with
  | zero => intro _ _ _ _ _ _ _ h; cases h
  | succ n ih =>
    intro ctx toks r ctx' toks' hret hend h
    obtain ⟨t, c₁, t₁, hpeek, h₁⟩ := body_bind.mp h
    obtain ⟨rfl, rfl, -⟩ := body_peek.mp hpeek
    split at h₁
    · obtain ⟨terminated, c₂, t₂, hterm, h₂⟩ := body_bind.mp h₁
      obtain ⟨hterm', rfl⟩ := act_ok.mp hterm
      have hret₂ := (keeps_hereTerminated hterm').1
      split at h₂
      · obtain ⟨_, c₃, t₃, hfail, -⟩ := body_bind.mp h₂
        cases (body_lift.mp hfail).1
      · obtain ⟨_, c₃, t₃, hs, h₃⟩ := body_bind.mp h₂
        obtain ⟨hend₃, s, hshape, hk⟩ := hstmt (by rw [hret₂]; exact hret) hend hs
        have hret₃ := hkeeps hs
        obtain ⟨hend', ss, hshapes, hks⟩ := ih (by rw [hret₃, hret₂]; exact hret) hend₃ h₃
        refine ⟨hend', s :: ss, by simp [stmtsShaped, hshape, hshapes], ?_⟩
        rw [hk, hks]
        simp [stmtsTokens]
    · obtain ⟨-, -, rfl⟩ := body_pure.mp h₁
      exact ⟨hend, [], rfl, by simp [stmtsTokens]⟩

theorem takes_block : TakesBlock (parseBlockBody n) := by
  induction n with
  | zero => intro _ _ _ _ _ _ _ h; cases h
  | succ n ih =>
    intro ctx toks r ctx' toks' hret hend h
    obtain ⟨u, c₁, t₁, hopen, h₁⟩ := body_bind.mp h
    obtain ⟨rfl, rfl, hk, hend₁⟩ := body_expect hend (by decide) hopen
    obtain ⟨_, c₂, t₂, hpush, h₂⟩ := body_bind.mp h₁
    obtain ⟨hpush', rfl⟩ := act_ok.mp hpush
    have hret₂ := (keeps_pushScope hpush').1
    obtain ⟨_, c₃, t₃, hloop, h₃⟩ := body_bind.mp h₂
    obtain ⟨hend₃, ss, hshape, hks⟩ :=
      takes_blockLoop (keepsRet_statement keepsRet_block) (takes_statement keepsRet_block ih)
        (by rw [hret₂]; exact hret) hend₁ hloop
    obtain ⟨u', c₄, t₄, hclose, h₄⟩ := body_bind.mp h₃
    obtain ⟨rfl, rfl, hk', hend₄⟩ := body_expect hend₃ (by decide) hclose
    obtain ⟨-, rfl⟩ := act_ok.mp h₄
    refine ⟨hend₄, ss, hshape, ?_⟩
    rw [kinds_cons, hk, hks, kinds_cons, hk']
    simp

end Stmt

end Parser
end Chakobsa
