import Chakobsa.Parser.Rendering

/-!
# Reading statements back

On the tokens of a statement the parser does what `elabStmt` does, and it succeeds exactly when
that does (`reads_statement`); likewise for a block with its braces (`reads_block`). `Does` says so
of one parsing function and one action. It asks for a return type, which every function of the
surface language has: without one `parse_return` would read no expression.
-/

namespace Chakobsa
namespace Parser

open Ir Lexer ExceptLemmas

/-- `p` does on tokens of the given kinds, followed by `rest`, what `m` does, and succeeds when it
does. -/
def Does {α : Type} (p : BodyM α) (m : ActM α) (ks : List TokenKind) (rest : List Token) : Prop :=
  ∀ ⦃ctx ts⦄, ctx.retTy.isSome → kinds ts = ks → ∀ a ctx' toks',
    p ctx (ts ++ rest) = .ok ((a, ctx'), toks') ↔ m ctx = .ok (a, ctx') ∧ toks' = rest

/-- What can follow a statement: something, but no `else`. -/
def Follows (rest : List Token) : Prop := ∃ t rest', rest = t :: rest' ∧ t.kind ≠ .elseKw

section Does

variable {α β : Type} {p : BodyM α} {m : ActM α} {ks : List TokenKind} {rest ts toks' : List Token}
  {ctx ctx' : FnContext} {b : β}

theorem Follows.ne_nil (h : Follows rest) : rest ≠ [] := by
  obtain ⟨t, rest', rfl, -⟩ := h
  simp

theorem Does.bind {f : α → BodyM β} (h : Does p m ks rest) (hret : ctx.retTy.isSome)
    (hts : kinds ts = ks) :
    (p >>= f) ctx (ts ++ rest) = .ok ((b, ctx'), toks') ↔
      ∃ a c, m ctx = .ok (a, c) ∧ f a c rest = .ok ((b, ctx'), toks') := by
  rw [body_bind]
  constructor
  · rintro ⟨a, c, t, ha, hf⟩
    obtain ⟨hm, rfl⟩ := (h hret hts a c t).mp ha
    exact ⟨a, c, hm, hf⟩
  · rintro ⟨a, c, hm, hf⟩
    exact ⟨a, c, rest, (h hret hts a c rest).mpr ⟨hm, rfl⟩, hf⟩

theorem expectIdent_cons {t : Token} {toks : List Token} {x : String} (hkind : t.kind = .ident x)
    (h : toks ≠ []) : expectIdent (t :: toks) = .ok (x, toks) := by
  obtain ⟨k, sp⟩ := t
  obtain rfl : k = .ident x := hkind
  show (advance >>= fun _ => pure x) _ = _
  show (advance (_ :: toks) >>= fun r => .ok (x, r.2)) = _
  rw [advance_cons h]
  rfl

theorem expectIdent_bind {t : Token} {toks : List Token} {x : String} (hkind : t.kind = .ident x)
    (h : toks ≠ []) (f : String → BodyM β) :
    (liftM expectIdent >>= f) ctx (t :: toks) = f x ctx toks := by
  show ((expectIdent (t :: toks) >>= fun r => .ok ((r.1, ctx), r.2)) >>= fun r =>
    f r.1.1 r.1.2 r.2) = _
  rw [expectIdent_cons hkind h]
  rfl

/-- The end of a statement: a semicolon, and an action. -/
theorem semicolon_bind {t : Token} (ht : t.kind = .semicolon) (hrest : rest ≠ []) {a : α} :
    (do
      let _ ← (liftM (expect .semicolon) : BodyM Token)
      act m) ctx (t :: rest) = .ok ((a, ctx'), toks') ↔ m ctx = .ok (a, ctx') ∧ toks' = rest := by
  rw [expect_bind ht hrest, act_ok]

end Does

section Stmt

variable {n : ℕ} {block : BodyM Unit} {rest : List Token} {e : Expr}

/-- An expression holds no `=`. -/
theorem Expr.eq_notMem (e : Expr) : TokenKind.eq ∉ e.tokens := by
  induction e with
  | int | var => simp [Expr.tokens]
  | bool b => cases b <;> simp [Expr.tokens]
  | call f args ih =>
    have hargs : ∀ sep, TokenKind.eq ∉ sep → TokenKind.eq ∉ exprsTokens sep args := by
      induction args with
      | nil => simp [exprsTokens]
      | cons e es ihes =>
        intro sep hsep
        have hes := ihes (fun e he => ih e (List.mem_cons_of_mem _ he)) [.comma] (by simp)
        simp [exprsTokens, hsep, ih e List.mem_cons_self, hes]
    simp [Expr.tokens, hargs [] (by simp)]
  | paren e ih => simp [Expr.tokens, ih]
  | un op e ih => cases op <;> simp [Expr.tokens, unToken, ih]
  | bin op l r ihl ihr => cases op <;> simp [Expr.tokens, Operator.token, ihl, ihr]
  | logic op l r ihl ihr => cases op <;> simp [Expr.tokens, Connective.token, ihl, ihr]

/-- An expression, and what is done with it before the token that follows. -/
theorem reads_bind {β : Type} (hs : e.shaped = true) (hn : e.tokens.length < n) {t : Token}
    (ht : t.kind ∈ [TokenKind.semicolon, .comma, .rParen, .lBrace]) {te : List Token}
    (hte : kinds te = e.tokens) {f : ValueId × Ty → BodyM β} {ctx ctx' : FnContext} {b : β}
    {toks' : List Token} :
    (parseExpr n >>= f) ctx (te ++ t :: rest) = .ok ((b, ctx'), toks') ↔
      ∃ v c, elabExpr e ctx = .ok (v, c) ∧ f v c (t :: rest) = .ok ((b, ctx'), toks') :=
  (reads_expr hs hn _ (Stops.mark ht)).bind hte

/-- An expression with its semicolon, and what is done with its value. -/
theorem reads_value (hs : e.shaped = true) (hn : e.tokens.length < n) (hrest : rest ≠ [])
    {ts : List Token} (hts : kinds ts = e.tokens ++ [.semicolon]) {m : ValueId × Ty → ActM Unit}
    {ctx ctx' : FnContext} {u : Unit} {toks' : List Token} :
    (parseExpr n >>= fun v => do
      let _ ← (liftM (expect .semicolon) : BodyM Token)
      act (m v)) ctx (ts ++ rest) = .ok ((u, ctx'), toks') ↔
      (elabExpr e >>= m) ctx = .ok (u, ctx') ∧ toks' = rest := by
  obtain ⟨te, tl, rfl, hte, htl⟩ := kinds_append_split hts
  obtain ⟨t, tl', rfl, ht, htl'⟩ := kinds_cons_split htl
  obtain rfl := kinds_nil_split htl'
  rw [List.append_assoc, List.cons_append, List.nil_append, reads_bind hs hn (by simp [ht]) hte,
    act_bind]
  constructor
  · rintro ⟨v, c, hv, h⟩
    obtain ⟨hm, rfl⟩ := (semicolon_bind ht hrest).mp h
    exact ⟨⟨v, c, hv, hm⟩, rfl⟩
  · rintro ⟨⟨v, c, hv, hm⟩, rfl⟩
    exact ⟨v, c, hv, (semicolon_bind ht hrest).mpr ⟨hm, rfl⟩⟩

theorem reads_let {x : String} (hs : e.shaped = true) (hn : e.tokens.length < n) (hrest : rest ≠ []) :
    Does (parseLet n) (elabStmt (.letVar x e)) (Stmt.letVar x e).tokens rest := by
  intro ctx ts hret hts u ctx' toks'
  obtain ⟨t₁, ts₁, rfl, ht₁, hts₁⟩ := kinds_cons_split hts
  obtain ⟨t₂, ts₂, rfl, ht₂, hts₂⟩ := kinds_cons_split hts₁
  obtain ⟨t₃, ts₃, rfl, ht₃, hts₃⟩ := kinds_cons_split hts₂
  rw [parseLet, List.cons_append, expect_bind ht₁ (by simp), List.cons_append,
    expectIdent_bind ht₂ (by simp), List.cons_append, expect_bind ht₃ (by simp [hrest]),
    reads_value hs hn hrest hts₃, elabStmt]

/-- The span of an error does not matter to a success. -/
theorem writeAssign_ok_iff (x : String) (v : ValueId × Ty) (sp sp' : Span) {ctx : FnContext}
    {r : Unit × FnContext} : writeAssign x v sp ctx = .ok r ↔ writeAssign x v sp' ctx = .ok r := by
  obtain ⟨u, c'⟩ := r
  unfold writeAssign
  rw [act_bind, act_bind]
  constructor <;>
  · rintro ⟨c, c₁, hget, h⟩
    obtain ⟨rfl, rfl⟩ := act_get.mp hget
    refine ⟨_, _, act_get.mpr ⟨rfl, rfl⟩, ?_⟩
    cases hlookup : lookupVar c₁.scopes x with
    | none =>
      rw [hlookup] at h
      cases h
    | some expected =>
      rw [hlookup] at h
      by_cases hty : expected = v.2
      · simpa [hty] using h
      · simp only [ne_eq, hty, not_false_iff, if_true] at h
        cases h

theorem reads_assign {x : String} (hs : e.shaped = true) (hn : e.tokens.length < n)
    (hrest : rest ≠ []) :
    Does (parseAssign n) (elabStmt (.assign x e)) (Stmt.assign x e).tokens rest := by
  intro ctx ts hret hts u ctx' toks'
  obtain ⟨t₂, ts₂, rfl, ht₂, hts₂⟩ := kinds_cons_split hts
  obtain ⟨t₃, ts₃, rfl, ht₃, hts₃⟩ := kinds_cons_split hts₂
  rw [parseAssign, List.cons_append, peek_bind, expectIdent_bind ht₂ (by simp), List.cons_append,
    expect_bind ht₃ (by simp [hrest]), reads_value hs hn hrest hts₃, elabStmt, act_bind, act_bind]
  refine and_congr_left fun _ => exists_congr fun v => exists_congr fun c => and_congr_right fun _ => ?_
  exact writeAssign_ok_iff x v _ _

theorem reads_exprStmt (hs : e.shaped = true) (hn : e.tokens.length < n) (hrest : rest ≠ []) :
    Does (parseExprStmt n) (elabStmt (.expr e)) (Stmt.expr e).tokens rest := by
  intro ctx ts hret hts u ctx' toks'
  obtain ⟨te, tl, rfl, hte, htl⟩ := kinds_append_split hts
  obtain ⟨t, tl', rfl, ht, htl'⟩ := kinds_cons_split htl
  obtain rfl := kinds_nil_split htl'
  rw [parseExprStmt, List.append_assoc, List.cons_append, List.nil_append,
    reads_bind hs hn (by simp [ht]) hte, elabStmt, act_bind]
  constructor
  · rintro ⟨v, c, hv, h⟩
    rw [expect_bind ht hrest] at h
    obtain ⟨-, rfl, rfl⟩ := body_pure.mp h
    exact ⟨⟨v, _, hv, rfl⟩, rfl⟩
  · rintro ⟨⟨v, c, hv, hm⟩, rfl⟩
    obtain ⟨-, rfl⟩ := act_pure.mp hm
    refine ⟨v, ctx', hv, ?_⟩
    rw [expect_bind ht hrest]
    exact body_pure.mpr ⟨rfl, rfl, rfl⟩

theorem reads_return (hs : e.shaped = true) (hn : e.tokens.length < n) (hrest : rest ≠ []) :
    Does (parseReturn n) (elabStmt (.ret e)) (Stmt.ret e).tokens rest := by
  intro ctx ts hret hts u ctx' toks'
  obtain ⟨t₁, ts₁, rfl, ht₁, hts₁⟩ := kinds_cons_split hts
  obtain ⟨te, tl, rfl, hte, htl⟩ := kinds_append_split hts₁
  obtain ⟨t, tl', rfl, ht, htl'⟩ := kinds_cons_split htl
  obtain rfl := kinds_nil_split htl'
  obtain ⟨expected, hexpected⟩ := Option.isSome_iff_exists.mp hret
  rw [parseReturn, List.cons_append, peek_bind, expect_bind ht₁ (by simp), elabStmt, elabReturn,
    act_bind]
  have hparse : ∀ f : FnContext → BodyM Unit,
      ((get : BodyM FnContext) >>= f) ctx (te ++ [t] ++ rest) = f ctx ctx (te ++ [t] ++ rest) :=
    fun f => rfl
  rw [hparse]
  simp only [hexpected]
  rw [List.append_assoc, List.cons_append, List.nil_append, reads_bind hs hn (by simp [ht]) hte]
  constructor
  · rintro ⟨⟨v, ty⟩, c, hv, h⟩
    obtain ⟨hty, h₁⟩ := checkTy_bind.mp h
    obtain ⟨hm, rfl⟩ := (semicolon_bind ht hrest).mp h₁
    refine ⟨⟨ctx, ctx, act_get.mpr ⟨rfl, rfl⟩, ?_⟩, rfl⟩
    simp only [hexpected]
    exact act_bind.mpr ⟨_, c, hv, act_bind.mpr ⟨(), c, needTy_ok.mpr ⟨hty, rfl⟩, hm⟩⟩
  · rintro ⟨⟨_, _, hget, h⟩, rfl⟩
    obtain ⟨rfl, rfl⟩ := act_get.mp hget
    simp only [hexpected] at h
    obtain ⟨⟨v, ty⟩, c, hv, h₁⟩ := act_bind.mp h
    obtain ⟨_, c₁, hn, hm⟩ := act_bind.mp h₁
    obtain ⟨hty, rfl⟩ := needTy_ok.mp hn
    exact ⟨_, _, hv, checkTy_bind.mpr ⟨hty, (semicolon_bind ht hrest).mpr ⟨hm, rfl⟩⟩⟩

/-! ### Blocks, conditions and loops -/

/-- A step that both sides take. -/
theorem exists_step {α β : Type} {P Q R : α → β → Prop} {T : Prop}
    (h : ∀ a b, P a b → (Q a b ↔ R a b ∧ T)) :
    (∃ a b, P a b ∧ Q a b) ↔ (∃ a b, P a b ∧ R a b) ∧ T := by
  constructor
  · rintro ⟨a, b, hp, hq⟩
    obtain ⟨hr, ht⟩ := (h a b hp).mp hq
    exact ⟨⟨a, b, hp, hr⟩, ht⟩
  · rintro ⟨⟨a, b, hp, hr⟩, ht⟩
    exact ⟨a, b, hp, (h a b hp).mpr ⟨hr, ht⟩⟩

theorem needTy_bind {β : Type} {expected actual : Ty} {f : Unit → ActM β} {ctx : FnContext}
    {r : β × FnContext} :
    (needTy expected actual >>= f) ctx = .ok r ↔ actual = expected ∧ f () ctx = .ok r := by
  obtain ⟨b, ctx'⟩ := r
  rw [act_bind]
  constructor
  · rintro ⟨_, c, hn, hf⟩
    obtain ⟨hty, rfl⟩ := needTy_ok.mp hn
    exact ⟨hty, hf⟩
  · rintro ⟨hty, hf⟩
    exact ⟨(), ctx, needTy_ok.mpr ⟨hty, rfl⟩, hf⟩

theorem needOpen_bind {β : Type} {f : Unit → ActM β} {ctx : FnContext} {r : β × FnContext} :
    (needOpen >>= f) ctx = .ok r ↔ ∃ c, hereTerminated ctx = .ok (false, c) ∧ f () c = .ok r := by
  obtain ⟨b, ctx'⟩ := r
  rw [needOpen, act_bind]
  constructor
  · rintro ⟨_, c, hn, hf⟩
    obtain ⟨terminated, c', hterm, hif⟩ := act_bind.mp hn
    cases terminated with
    | true => cases hif
    | false =>
      obtain ⟨-, rfl⟩ := act_pure.mp hif
      exact ⟨_, hterm, hf⟩
  · rintro ⟨c, hterm, hf⟩
    exact ⟨(), c, act_bind.mpr ⟨false, c, hterm, rfl⟩, hf⟩

theorem Keeps.isSome {α : Type} {m : ActM α} (hk : Keeps m) {ctx ctx' : FnContext} {a : α}
    (h : m ctx = .ok (a, ctx')) (hret : ctx.retTy.isSome) : ctx'.retTy.isSome := by
  rwa [(hk h).1]

/-- The tokens of a block with its braces. -/
def blockTokens (ss : List Stmt) : List TokenKind := .lBrace :: (stmtsTokens ss ++ [.rBrace])

/-- `block` reads every block of at most `n` tokens. -/
def ReadsBlocks (n : ℕ) (block : BodyM Unit) : Prop :=
  ∀ ss, stmtsShaped ss = true → (blockTokens ss).length ≤ n → ∀ rest, rest ≠ [] →
    Does block (inScope (elabStmts ss)) (blockTokens ss) rest

/-- The tokens of an `if`. -/
def condTokens (c : Expr) (thn : List Stmt) (els : Else) : List TokenKind :=
  .ifKw :: (c.tokens ++ (blockTokens thn ++ els.tokens))

theorem Stmt.cond_tokens (c : Expr) (thn : List Stmt) (els : Else) :
    (Stmt.cond c thn els).tokens = condTokens c thn els := by
  simp [Stmt.tokens, condTokens, blockTokens]

theorem Else.elif_tokens (c : Expr) (thn : List Stmt) (els : Else) :
    (Else.elif c thn els).tokens = .elseKw :: condTokens c thn els := by
  simp [Else.tokens, condTokens, blockTokens]

theorem Stmt.while_tokens (c : Expr) (body : List Stmt) :
    (Stmt.while c body).tokens = .whileKw :: (c.tokens ++ blockTokens body) := by
  simp [Stmt.tokens, blockTokens]

/-- The first token of a block. -/
theorem blockTokens_split {ss : List Stmt} {ts : List Token} (h : kinds ts = blockTokens ss) :
    ∃ t ts', ts = t :: ts' ∧ t.kind = .lBrace := by
  obtain ⟨t, ts', rfl, ht, -⟩ := kinds_cons_split h
  exact ⟨t, ts', rfl, ht⟩

theorem keeps_elabExpr (e : Expr) : Keeps (elabExpr e) := by
  induction e with
  | int | bool => exact keeps_emitConst _ _
  | var x => exact keeps_readName x noSpan
  | call f args ih =>
    have hargs : Keeps (elabExprs args) := by
      induction args with
      | nil => exact .pure _
      | cons e es ihes =>
        exact .bind (ih e List.mem_cons_self) fun _ =>
          .bind (ihes fun e he => ih e (List.mem_cons_of_mem _ he)) fun _ => .pure _
    exact .bind hargs fun _ => keeps_emitCall _ _ _
  | paren e ih => exact ih
  | un op e ih =>
    exact .bind ih fun _ => .bind (keeps_needTy _ _) fun _ => .bind (keeps_emitHere _ _) fun _ =>
      .pure _
  | bin op l r ihl ihr =>
    exact .bind ihl fun _ => .bind (keeps_needTy _ _) fun _ => .bind ihr fun _ =>
      .bind (keeps_needTy _ _) fun _ => .bind (keeps_emitHere _ _) fun _ => .pure _
  | logic op l r ihl ihr =>
    exact .bind ihl fun _ => .bind (keeps_needTy _ _) fun _ =>
      .bind (keeps_openShortCircuit _ _) fun _ => .bind ihr fun _ => .bind (keeps_needTy _ _) fun _ =>
      .bind (keeps_closeShortCircuit _ _) fun _ => .pure _

theorem Keeps.inScope {m : ActM Unit} (hm : Keeps m) : Keeps (inScope m) :=
  .bind keeps_pushScope fun _ => .bind hm fun _ => keeps_popScope

theorem Keeps.elabIf {c : ActM (ValueId × Ty)} {thn : ActM Unit} {els : ActM Bool} (hc : Keeps c)
    (hthn : Keeps thn) (hels : Keeps els) : Keeps (elabIf c thn els) :=
  .bind hc fun _ => .bind (keeps_needTy _ _) fun _ => .bind (keeps_openIf _) fun _ =>
    .bind hthn fun _ => .bind keeps_currentBlock fun _ => .bind (keeps_isTerminated _) fun _ =>
    .bind (keeps_enterBlock _) fun _ => .bind hels fun _ => keeps_closeIf _ _ _

theorem keeps_needOpen : Keeps needOpen :=
  .bind keeps_hereTerminated fun _ => .ite (.fail _) (.pure _)

mutual

theorem keeps_elabStmt : (s : Stmt) → Keeps (elabStmt s)
  | .letVar _ e => .bind (keeps_elabExpr e) fun _ => keeps_writeLet _ _
  | .assign _ e => .bind (keeps_elabExpr e) fun _ => keeps_writeAssign _ _ _
  | .ret e => by
    refine .bind .get fun ctx => ?_
    split
    · exact .bind (keeps_elabExpr e) fun _ => .bind (keeps_needTy _ _) fun _ =>
        .bind keeps_currentBlock fun _ => keeps_terminate _ _
    · exact .fail _
  | .expr e => .bind (keeps_elabExpr e) fun _ => .pure _
  | .cond c thn els =>
    .elabIf (keeps_elabExpr c) (.inScope (keeps_elabStmts thn)) (keeps_elabElse els)
  | .while c body => .bind keeps_openWhile fun _ => .bind (keeps_elabExpr c) fun _ =>
      .bind (keeps_needTy _ _) fun _ => .bind (keeps_openBody _ _) fun _ =>
      .bind (.inScope (keeps_elabStmts body)) fun _ => keeps_closeWhile _ _

theorem keeps_elabElse : (els : Else) → Keeps (elabElse els)
  | .none => .pure _
  | .block b => .bind (.inScope (keeps_elabStmts b)) fun _ => keeps_hereTerminated
  | .elif c thn els =>
    .bind (.elabIf (keeps_elabExpr c) (.inScope (keeps_elabStmts thn)) (keeps_elabElse els)) fun _ =>
      keeps_hereTerminated

theorem keeps_elabStmts : (ss : List Stmt) → Keeps (elabStmts ss)
  | [] => .pure _
  | s :: rest => .bind keeps_needOpen fun _ => .bind (keeps_elabStmt s) fun _ => keeps_elabStmts rest

end

theorem reads_if {N : ℕ} (hblock : ReadsBlocks N block) {c : Expr} {thn : List Stmt} {els : Else}
    (hc : c.shaped = true) (hthn : stmtsShaped thn = true) (hels : els.shaped = true)
    (hn : (condTokens c thn els).length ≤ n) (hN : n ≤ N) (hrest : Follows rest) :
    Does (parseIf block n) (elabIf (elabExpr c) (inScope (elabStmts thn)) (elabElse els))
      (condTokens c thn els) rest := by
  induction n generalizing c thn els with
  | zero => simp [condTokens] at hn
  | succ n ih =>
    intro ctx ts hret hts u ctx' toks'
    have hlen : c.tokens.length + (blockTokens thn).length + els.tokens.length ≤ n := by
      simp only [condTokens, List.length_cons, List.length_append] at hn
      omega
    have hpos : 0 < (blockTokens thn).length := by simp [blockTokens]
    obtain ⟨t₁, ts₁, rfl, ht₁, hts₁⟩ := kinds_cons_split hts
    obtain ⟨tc, ts₂, rfl, htc, hts₂⟩ := kinds_append_split hts₁
    obtain ⟨tb, te, rfl, htb, hte⟩ := kinds_append_split hts₂
    obtain ⟨b, tb', htb', hb⟩ := blockTokens_split htb
    have hcond : ∀ {f : ValueId × Ty → BodyM Unit},
        (parseExpr n >>= f) ctx (tc ++ (tb ++ (te ++ rest))) = .ok ((u, ctx'), toks') ↔
          ∃ v c₁, elabExpr c ctx = .ok (v, c₁) ∧ f v c₁ (tb ++ (te ++ rest)) = .ok ((u, ctx'), toks') := by
      intro f
      rw [htb', List.cons_append]
      exact reads_bind hc (by omega) (by simp [hb]) htc
    -- the parser and the elaboration do the same, step by step: the condition and its type
    rw [parseIf, List.cons_append, peek_bind, expect_bind ht₁ (by simp [htb']), List.append_assoc,
      List.append_assoc, hcond, elabIf, act_bind]
    refine exists_step fun v c₁ hv => ?_
    have hret₁ := (keeps_elabExpr c).isSome hv hret
    rw [checkTy_bind, needTy_bind, and_assoc]
    refine and_congr_right fun _ => ?_
    rw [action_bind, act_bind]
    refine exists_step fun elseBlock c₂ hopen => ?_
    have hret₂ := (keeps_openIf _).isSome hopen hret₁
    -- the first arm
    rw [(hblock thn hthn (by omega) (te ++ rest) (by simp [hrest.ne_nil])).bind hret₂ htb, act_bind]
    refine exists_step fun _ c₃ hthn' => ?_
    have hret₃ := (Keeps.inScope (keeps_elabStmts thn)).isSome hthn' hret₂
    rw [action_bind, act_bind]
    refine exists_step fun thenTail c₄ htail => ?_
    have hret₄ := keeps_currentBlock.isSome htail hret₃
    rw [action_bind, act_bind]
    refine exists_step fun terminated c₅ hterm => ?_
    have hret₅ := (keeps_isTerminated _).isSome hterm hret₄
    rw [action_bind, act_bind]
    refine exists_step fun _ c₆ henter => ?_
    have hret₆ := (keeps_enterBlock _).isSome henter hret₅
    -- the other arm; an `else if` is another `if`, of fewer tokens
    cases els with
    | none =>
      obtain rfl := kinds_nil_split hte
      obtain ⟨t, rest', rfl, ht⟩ := hrest
      rw [List.nil_append, peek_bind, if_neg ht]
      exact act_ok
    | block ss =>
      obtain ⟨t, tb₂, rfl, ht, htb₂⟩ := kinds_cons_split hte
      obtain ⟨b₂, tb₂', rfl, hb₂⟩ := blockTokens_split htb₂
      have hlen₂ : (blockTokens ss).length + 1 ≤ N := by
        have : (Else.block ss).tokens.length = (blockTokens ss).length + 1 := rfl
        omega
      rw [List.cons_append, peek_bind, if_pos ht, advance_bind (by simp), List.cons_append, peek_bind,
        if_neg (by rw [hb₂]; decide), ← List.cons_append,
        (hblock ss hels (by omega) rest hrest.ne_nil).bind hret₆ htb₂, elabElse, bind_assoc, act_bind]
      refine exists_step fun _ c₇ hels' => ?_
      rw [action_bind, act_bind]
      exact exists_step fun elseTerminated c₈ _ => act_ok
    | elif c' thn' els' =>
      have hels' : c'.shaped = true ∧ stmtsShaped thn' = true ∧ els'.shaped = true := by
        simpa [Else.shaped, and_assoc] using hels
      have hlen₂ : (condTokens c' thn' els').length + 1 ≤ n := by
        rw [Else.elif_tokens, List.length_cons] at hlen
        omega
      obtain ⟨t, ti, rfl, ht, hti⟩ := kinds_cons_split (hte.trans (Else.elif_tokens c' thn' els'))
      obtain ⟨i, ti', rfl, hi, -⟩ := kinds_cons_split hti
      rw [List.cons_append, peek_bind, if_pos ht, advance_bind (by simp), List.cons_append, peek_bind,
        if_pos hi, ← List.cons_append,
        (ih hels'.1 hels'.2.1 hels'.2.2 (by omega) (by omega)).bind hret₆ hti, elabElse, bind_assoc,
        act_bind]
      refine exists_step fun _ c₇ helif => ?_
      rw [action_bind, act_bind]
      exact exists_step fun elseTerminated c₈ _ => act_ok

theorem reads_while (hblock : ReadsBlocks n block) {c : Expr} {body : List Stmt}
    (hc : c.shaped = true) (hbody : stmtsShaped body = true)
    (hn : (Stmt.while c body).tokens.length ≤ n) (hrest : rest ≠ []) :
    Does (parseWhile block n) (elabStmt (.while c body)) (Stmt.while c body).tokens rest := by
  intro ctx ts hret hts u ctx' toks'
  rw [Stmt.while_tokens] at hts hn
  have hlen : c.tokens.length + (blockTokens body).length + 1 ≤ n := by
    simpa only [List.length_cons, List.length_append] using hn
  obtain ⟨t₁, ts₁, rfl, ht₁, hts₁⟩ := kinds_cons_split hts
  obtain ⟨tc, tb, rfl, htc, htb⟩ := kinds_append_split hts₁
  obtain ⟨b, tb', rfl, hb⟩ := blockTokens_split htb
  obtain ⟨d, tc', htc', -⟩ : ∃ d tc', tc = d :: tc' ∧ True := by
    obtain ⟨k, ks, hk, -⟩ := Expr.tokens_head hc
    obtain ⟨d, tc', rfl, -⟩ := kinds_cons_split (htc.trans hk)
    exact ⟨d, tc', rfl, trivial⟩
  rw [parseWhile, List.cons_append, elabStmt, elabWhile, action_bind, act_bind]
  refine exists_step fun header c₁ hopen => ?_
  have hret₁ := keeps_openWhile.isSome hopen hret
  rw [expect_bind ht₁ (by simp), htc', List.cons_append, List.cons_append, peek_bind,
    ← List.cons_append, ← List.cons_append, ← htc', List.append_assoc, List.cons_append,
    reads_bind hc (by omega) (by simp [hb]) htc, act_bind]
  refine exists_step fun v c₂ hv => ?_
  have hret₂ := (keeps_elabExpr c).isSome hv hret₁
  rw [checkTy_bind, needTy_bind, and_assoc]
  refine and_congr_right fun _ => ?_
  rw [action_bind, act_bind]
  refine exists_step fun exit c₃ hbody' => ?_
  have hret₃ := (keeps_openBody _ _).isSome hbody' hret₂
  rw [← List.cons_append, (hblock body hbody (by omega) rest hrest).bind hret₃ htb, act_bind]
  exact exists_step fun _ c₄ _ => act_ok

/-- The first token of a statement ends no block and follows no arm of an `if`. -/
theorem Stmt.tokens_head {s : Stmt} (hs : s.shaped = true) :
    ∃ k ks, s.tokens = k :: ks ∧ k ≠ .rBrace ∧ k ≠ .elseKw := by
  cases s with
  | letVar x e => exact ⟨.letKw, _, rfl, by decide, by decide⟩
  | assign x e => exact ⟨.ident x, _, rfl, by simp, by simp⟩
  | ret e => exact ⟨.returnKw, _, rfl, by decide, by decide⟩
  | expr e =>
    obtain ⟨k, ks, hk, -, -, hmarks⟩ := Expr.tokens_head (show e.shaped = true from hs)
    refine ⟨k, ks ++ [.semicolon], by simp [Stmt.tokens, hk], ?_, ?_⟩ <;>
    · rintro rfl
      simp at hmarks
  | cond c thn els => exact ⟨.ifKw, _, rfl, by decide, by decide⟩
  | «while» c body => exact ⟨.whileKw, _, rfl, by decide, by decide⟩

theorem peekIsAssignment_bind {β : Type} {t : Token} {toks : List Token} {x : String}
    (hkind : t.kind = .ident x) {assigns : Bool} (h : (toks.head?.map Token.kind == some .eq) = assigns)
    {ctx : FnContext} (f : Bool → BodyM β) :
    (liftM peekIsAssignment >>= f) ctx (t :: toks) = f assigns ctx (t :: toks) := by
  obtain ⟨k, sp⟩ := t
  obtain rfl : k = .ident x := hkind
  obtain rfl := h
  rfl

theorem reads_statement (hblock : ReadsBlocks n block) {s : Stmt} (hs : s.shaped = true)
    (hn : s.tokens.length ≤ n) (hrest : Follows rest) :
    Does (parseStatement block n) (elabStmt s) s.tokens rest := by
  have hne := hrest.ne_nil
  intro ctx ts hret hts u ctx' toks'
  cases s with
  | letVar x e =>
    have hlen : e.tokens.length < n := by
      simp only [Stmt.tokens, List.length_cons, List.length_append] at hn
      omega
    rw [← reads_let hs hlen hne hret hts]
    obtain ⟨⟨k, sp⟩, ts', rfl, rfl, -⟩ := kinds_cons_split hts
    rw [parseStatement, List.cons_append, peek_bind]
  | assign x e =>
    have hlen : e.tokens.length < n := by
      simp only [Stmt.tokens, List.length_cons, List.length_append] at hn
      omega
    rw [← reads_assign hs hlen hne hret hts]
    obtain ⟨⟨k, sp⟩, ts', rfl, rfl, hts'⟩ := kinds_cons_split hts
    obtain ⟨⟨k, sp'⟩, ts'', rfl, rfl, -⟩ := kinds_cons_split hts'
    rw [parseStatement, List.cons_append, peek_bind]
    show ((liftM peekIsAssignment : BodyM Bool) >>= fun _ => _) ctx _ = _ ↔ _
    rw [peekIsAssignment_bind rfl rfl]
    rfl
  | ret e =>
    have hlen : e.tokens.length < n := by
      simp only [Stmt.tokens, List.length_cons, List.length_append] at hn
      omega
    rw [← reads_return hs hlen hne hret hts]
    obtain ⟨⟨k, sp⟩, ts', rfl, rfl, -⟩ := kinds_cons_split hts
    rw [parseStatement, List.cons_append, peek_bind]
  | expr e =>
    have hlen : e.tokens.length < n := by
      simp only [Stmt.tokens, List.length_cons, List.length_append, List.length_nil] at hn
      omega
    rw [← reads_exprStmt hs hlen hne hret hts]
    obtain ⟨k, ks, hk, -, -, hmarks⟩ := Expr.tokens_head (show e.shaped = true from hs)
    obtain ⟨te, tl, rfl, hte, htl⟩ := kinds_append_split hts
    obtain ⟨semi, tl', rfl, hsemi, htl'⟩ := kinds_cons_split htl
    obtain rfl := kinds_nil_split htl'
    obtain ⟨⟨k', sp⟩, te', rfl, rfl, hte'⟩ := kinds_cons_split (hte.trans hk)
    -- no `=` comes next
    have hassign : ((te' ++ [semi] ++ rest).head?.map Token.kind == some .eq) = false := by
      cases te' with
      | nil => simp [hsemi]
      | cons t te' =>
        have hmem : t.kind ∈ e.tokens := by
          rw [hk, ← hte']
          simp [kinds]
        have : t.kind ≠ .eq := fun h => Expr.eq_notMem e (h ▸ hmem)
        simpa using this
    rw [parseStatement, List.cons_append, List.cons_append, peek_bind]
    cases k' with
    | letKw | ifKw | whileKw | returnKw => simp at hmarks
    | ident x =>
      show ((liftM peekIsAssignment : BodyM Bool) >>= fun _ => _) ctx _ = _ ↔ _
      rw [peekIsAssignment_bind rfl hassign]
      rfl
    | _ => rfl
  | cond c thn els =>
    have hs' : c.shaped = true ∧ stmtsShaped thn = true ∧ els.shaped = true := by
      simpa [Stmt.shaped, and_assoc] using hs
    rw [Stmt.cond_tokens] at hts hn
    rw [elabStmt, ← reads_if hblock hs'.1 hs'.2.1 hs'.2.2 hn (Nat.le_refl n) hrest hret hts]
    obtain ⟨⟨k, sp⟩, ts', rfl, rfl, -⟩ := kinds_cons_split hts
    rw [parseStatement, List.cons_append, peek_bind]
  | «while» c body =>
    have hs' : c.shaped = true ∧ stmtsShaped body = true := by
      simpa [Stmt.shaped] using hs
    rw [← reads_while hblock hs'.1 hs'.2 hn hne hret hts]
    obtain ⟨⟨k, sp⟩, ts', rfl, rfl, -⟩ := kinds_cons_split hts
    rw [parseStatement, List.cons_append, peek_bind]

theorem Follows.stmts {ss : List Stmt} (hs : stmtsShaped ss = true) {ts : List Token}
    (hts : kinds ts = stmtsTokens ss) {t : Token} (ht : t.kind ≠ .elseKw) :
    Follows (ts ++ t :: rest) := by
  cases ss with
  | nil =>
    obtain rfl := kinds_nil_split hts
    exact ⟨t, rest, rfl, ht⟩
  | cons s ss =>
    simp only [stmtsShaped, Bool.and_eq_true] at hs
    obtain ⟨k, ks, hk, -, helse⟩ := Stmt.tokens_head hs.1
    obtain ⟨u, ts', rfl, hu, -⟩ := kinds_cons_split (hts.trans (show stmtsTokens (s :: ss) =
      k :: (ks ++ stmtsTokens ss) by simp [stmtsTokens, hk]))
    exact ⟨u, ts' ++ t :: rest, rfl, hu ▸ helse⟩

theorem reads_blockLoop {N : ℕ} (hblock : ReadsBlocks N block) {ss : List Stmt}
    (hs : stmtsShaped ss = true) (hn : (stmtsTokens ss).length < n)
    (hN : (stmtsTokens ss).length ≤ N) {t : Token} (ht : t.kind = .rBrace) :
    Does (blockLoop (parseStatement block N) n) (elabStmts ss) (stmtsTokens ss) (t :: rest) := by
  induction ss generalizing n with
  | nil =>
    obtain ⟨n, rfl⟩ : ∃ m, n = m + 1 := ⟨n - 1, by omega⟩
    intro ctx ts hret hts u ctx' toks'
    obtain rfl := kinds_nil_split hts
    rw [List.nil_append, blockLoop, peek_bind, if_neg (by simp [ht]), body_pure, elabStmts, act_pure,
      and_assoc]
  | cons s ss ih =>
    obtain ⟨n, rfl⟩ : ∃ m, n = m + 1 := ⟨n - 1, by omega⟩
    simp only [stmtsShaped, Bool.and_eq_true] at hs
    have hlen : s.tokens.length + (stmtsTokens ss).length ≤ n := by
      simp only [stmtsTokens, List.length_append] at hn
      omega
    have hlenN : s.tokens.length + (stmtsTokens ss).length ≤ N := by
      simpa only [stmtsTokens, List.length_append] using hN
    obtain ⟨k, ks, hk, hbrace, -⟩ := Stmt.tokens_head hs.1
    have hpos : 0 < s.tokens.length := by simp [hk]
    intro ctx ts hret hts u ctx' toks'
    obtain ⟨ts₁, ts₂, rfl, hts₁, hts₂⟩ := kinds_append_split (show kinds ts = s.tokens ++
      stmtsTokens ss from hts)
    obtain ⟨d, ts₁', hd, hdk⟩ : ∃ d ts₁', ts₁ = d :: ts₁' ∧ d.kind ≠ .rBrace := by
      obtain ⟨d, ts₁', rfl, hd, -⟩ := kinds_cons_split (hts₁.trans hk)
      exact ⟨d, ts₁', rfl, hd ▸ hbrace⟩
    rw [hd, List.cons_append, List.cons_append, blockLoop, peek_bind, if_pos hdk, action_bind,
      elabStmts, needOpen_bind, ← List.cons_append, ← List.cons_append, ← hd]
    have hfollows : Follows (ts₂ ++ t :: rest) := .stmts hs.2 hts₂ (by simp [ht])
    constructor
    · rintro ⟨terminated, c, hterm, h⟩
      cases terminated with
      | true =>
        obtain ⟨_, _, _, hfail, -⟩ := body_bind.mp h
        cases (body_lift.mp hfail).1
      | false =>
        have hret₁ := keeps_hereTerminated.isSome hterm hret
        rw [List.append_assoc] at h
        obtain ⟨_, c₁, hs', h₁⟩ :=
          ((reads_statement hblock hs.1 (by omega) hfollows).bind hret₁ hts₁).mp h
        have hret₂ := (keeps_elabStmt s).isSome hs' hret₁
        obtain ⟨hss, rfl⟩ := (ih hs.2 (by omega) (by omega) hret₂ hts₂ _ _ _).mp h₁
        exact ⟨⟨c, hterm, act_bind.mpr ⟨(), c₁, hs', hss⟩⟩, rfl⟩
    · rintro ⟨⟨c, hterm, h⟩, rfl⟩
      obtain ⟨_, c₁, hs', hss⟩ := act_bind.mp h
      have hret₁ := keeps_hereTerminated.isSome hterm hret
      have hret₂ := (keeps_elabStmt s).isSome hs' hret₁
      refine ⟨false, c, hterm, ?_⟩
      rw [List.append_assoc]
      exact ((reads_statement hblock hs.1 (by omega) hfollows).bind hret₁ hts₁).mpr
        ⟨(), c₁, hs', (ih hs.2 (by omega) (by omega) hret₂ hts₂ _ _ _).mpr ⟨hss, rfl⟩⟩

/-- `parse_block_body` reads every block it has fuel for. -/
theorem reads_block (n : ℕ) : ReadsBlocks n (parseBlockBody n) := by
  induction n with
  | zero => exact fun ss _ hn => by simp [blockTokens] at hn
  | succ n ih =>
    intro ss hs hn rest hrest ctx ts hret hts u ctx' toks'
    have hlen : (stmtsTokens ss).length + 2 ≤ n + 1 := by
      simpa [blockTokens] using hn
    obtain ⟨t, ts', rfl, ht, hts'⟩ := kinds_cons_split hts
    obtain ⟨tb, tl, rfl, htb, htl⟩ := kinds_append_split hts'
    obtain ⟨d, tl', rfl, hd, htl'⟩ := kinds_cons_split htl
    obtain rfl := kinds_nil_split htl'
    rw [parseBlockBody, List.cons_append, expect_bind ht (by simp), List.append_assoc,
      List.cons_append, List.nil_append, action_bind, inScope, act_bind]
    refine exists_step fun _ c₁ hpush => ?_
    have hret₁ := keeps_pushScope.isSome hpush hret
    rw [(reads_blockLoop ih hs (by omega) (by omega) hd).bind hret₁ htb, act_bind]
    refine exists_step fun _ c₂ hss => ?_
    rw [expect_bind hd hrest, act_ok]

end Stmt

end Parser
end Chakobsa
