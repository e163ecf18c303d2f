import Chakobsa.Parser.Consistency
import Chakobsa.Parser.StaticSemantics

/-!
# The second terminator of a header

`parse_while` puts the branch of a loop into its header, not into the block in which the condition
ends. The two are different exactly when the condition has a short-circuit operator: such an
operator ends the block it begins in and goes on in a new one (`traced_expr`), and all the others
stay where they are.

A function is `plain` if none of its loops has such a condition. In a plain function no block gets
a terminator twice, and the recorded predecessors are those of the function; in any other the
header of a loop gets two, and the edges of the first stay recorded (`walked_stmt`).
-/

namespace Chakobsa
namespace Parser

open Ir Lexer FnContext ExceptLemmas

/-! ### Conditions -/

mutual

/-- The expression has no short-circuit operator. -/
def Expr.straight : Expr → Bool
  | .int _ | .bool _ | .var _ => true
  | .call _ args => exprsStraight args
  | .paren e | .un _ e => e.straight
  | .bin _ l r => l.straight && r.straight
  | .logic _ _ _ => false

def exprsStraight : List Expr → Bool
  | [] => true
  | e :: es => e.straight && exprsStraight es

end

mutual

/-- No condition of a loop in the statement has a short-circuit operator. -/
def Stmt.plain : Stmt → Bool
  | .letVar _ _ | .assign _ _ | .ret _ | .expr _ => true
  | .cond _ thn els => stmtsPlain thn && els.plain
  | .while c body => c.straight && stmtsPlain body

def Else.plain : Else → Bool
  | .none => true
  | .block b => stmtsPlain b
  | .elif _ thn els => stmtsPlain thn && els.plain

def stmtsPlain : List Stmt → Bool
  | [] => true
  | s :: rest => s.plain && stmtsPlain rest

end

section

-- the equations are derived once here, not again in each proof that rewrites with them
attribute [local simp] Expr.straight exprsStraight Stmt.plain Else.plain stmtsPlain

end

/-- No condition of a loop in the function has a short-circuit operator. -/
def FnDecl.plain (d : FnDecl) : Bool := stmtsPlain d.body

/-! ### Actions that stay in their block -/

/-- The current block is the same afterwards. -/
def Stays {α : Type} (m : ActM α) : Prop :=
  ∀ ⦃ctx a c⦄, m ctx = .ok (a, c) → c.currentBlock = ctx.currentBlock

section Stays

variable {α β : Type}

theorem Stays.bind {m : ActM α} {f : α → ActM β} (hm : Stays m) (hf : ∀ a, Stays (f a)) :
    Stays (m >>= f) := by
  intro ctx b c h
  obtain ⟨a, c₁, h₁, h₂⟩ := act_bind.mp h
  exact (hf a h₂).trans (hm h₁)

theorem Stays.pure (a : α) : Stays (Pure.pure a : ActM α) := by
  intro ctx b c h
  obtain ⟨-, rfl⟩ := act_pure.mp h
  rfl

theorem Stays.get : Stays (get : ActM FnContext) := by
  intro ctx b c h
  obtain ⟨-, rfl⟩ := act_get.mp h
  rfl

theorem Stays.lift (m : ParseM α) : Stays (liftM m : ActM α) := by
  intro ctx b c h
  obtain ⟨-, rfl⟩ := act_lift.mp h
  rfl

/-- A call of the builder changes the builder alone. -/
theorem Stays.build (f : SsaBuilder → BuildM ParseError (α × SsaBuilder)) : Stays (build f) := by
  intro ctx a c h
  obtain ⟨B, -, rfl⟩ := build_ok.mp h
  rfl

theorem Stays.emitHere (ty : Ty) (kind : InstKind) : Stays (emitHere ty kind) := by
  intro ctx v c h
  rw [Parser.emitHere, act_run currentBlock_run] at h
  exact Stays.build _ h

theorem Stays.emitConst (ty : Ty) (kind : InstKind) : Stays (emitConst ty kind) :=
  (Stays.emitHere ty kind).bind fun _ => .pure _

theorem Stays.emitCall (name : String) (args : List (ValueId × Ty)) (span : Span) :
    Stays (emitCall name args span) :=
  Stays.get.bind fun _ => (Stays.lift _).bind fun _ => (Stays.emitHere _ _).bind fun _ => .pure _

theorem Stays.readName (name : String) (span : Span) : Stays (readName name span) := by
  refine Stays.get.bind fun ctx => ?_
  split
  · exact fun _ _ _ h => nomatch h
  · rw [readVariable_eq]
    exact (Stays.build _).bind fun _ => .pure _

end Stays

/-- After a short-circuit operator its join is the current block. -/
theorem closeShortCircuit_here {s : ShortCircuit} {rval v : ValueId} {ctx c : FnContext}
    (h : closeShortCircuit s rval ctx = .ok (v, c)) : c.currentBlock = s.join := by
  obtain ⟨tail, c₁, -, h⟩ := act_bind.mp h
  obtain ⟨_, c₂, -, h⟩ := act_bind.mp h
  obtain ⟨_, c₃, -, h⟩ := act_bind.mp h
  obtain ⟨phi, c₄, -, h⟩ := act_bind.mp h
  obtain ⟨_, c₅, henter, h⟩ := act_bind.mp h
  obtain ⟨-, rfl⟩ := act_pure.mp h
  obtain ⟨-, rfl⟩ := Prod.mk.inj (Except.ok.inj henter)
  rfl

/-! ### Expressions -/

/-- What an expression leaves behind: the current block is the one there was if the expression is
straight, and a new one otherwise. -/
structure FnContext.Traced (straight : Bool) (ctx c : FnContext) : Prop extends Valued ctx c where
  stays : straight = true → c.currentBlock = ctx.currentBlock
  moves : straight = false → ctx.size ≤ c.currentBlock

section Expr

variable {ctx c c' : FnContext} {s s' : Bool}

theorem FnContext.Valued.traced (h : Valued ctx c) (hhere : c.currentBlock = ctx.currentBlock) :
    Traced true ctx c := ⟨h, fun _ => hhere, nofun⟩

theorem FnContext.Traced.trans (h : Traced s ctx c) (h' : Traced s' c c') :
    Traced (s && s') ctx c' := by
  refine ⟨h.toValued.trans h'.toValued, fun hs => ?_, fun hs => ?_⟩
  · obtain ⟨rfl, rfl⟩ := (Bool.and_eq_true s s').mp hs
    exact (h'.stays rfl).trans (h.stays rfl)
  · cases s with
    | true => exact h.toValued.toEvaluated.size.trans (h'.moves hs)
    | false =>
      -- the new block is left for a newer one at most
      have hnew := h.moves rfl
      rcases h'.toValued.toEvaluated.here with he | he
      · exact he ▸ hnew
      · exact h.toValued.toEvaluated.size.trans he

/-- What the elaboration of `e` leaves behind. -/
def ExprTraced (e : Expr) : Prop :=
  ∀ ⦃ctx⦄, ctx.Settled → ctx.Open → ∀ ⦃v c⦄, elabExpr e ctx = .ok (v, c) → Traced e.straight ctx c

theorem traced_const {e : Expr} {ty : Ty} {kind : InstKind} (he : elabExpr e = emitConst ty kind)
    (hk : kind.isPhi = false) (hs : e.straight = true) : ExprTraced e := by
  intro ctx hset ho v c hok
  rw [he] at hok
  rw [hs]
  exact (emitConst_valued hset ho hk hok).traced (Stays.emitConst ty kind hok)

theorem traced_var (x : String) : ExprTraced (.var x) := by
  intro ctx hset ho v c hok
  rw [elabExpr] at hok
  rw [Expr.straight]
  exact ((Backend.standard_follows.readName hset ho x noSpan).2 v c hok).traced
    (Stays.readName x noSpan hok)

/-- A value whose type is the one that was asked for. -/
theorem typed_ok {α : Type} {m : ActM (ValueId × Ty)} {τ : Ty} {f : ValueId × Ty → ActM α}
    {k : ValueId → ActM α} {a : α} (h : (m >>= f) ctx = .ok (a, c))
    (hf : ∀ v σ, f (v, σ) = needTy τ σ >>= fun _ => k v) :
    ∃ v c₁, m ctx = .ok ((v, τ), c₁) ∧ k v c₁ = .ok (a, c) := by
  obtain ⟨⟨v, σ⟩, c₁, hm, h₁⟩ := act_bind.mp h
  rw [hf] at h₁
  obtain ⟨u, c₂, hty, h₂⟩ := act_bind.mp h₁
  obtain ⟨rfl, rfl⟩ := needTy_ok.mp hty
  exact ⟨v, c₂, hm, h₂⟩

theorem traced_un (op : UnOp) {e : Expr} (h : ExprTraced e) : ExprTraced (.un op e) := by
  intro ctx hset ho v c hok
  rw [elabExpr] at hok
  obtain ⟨w, c₁, hok₁, hrest⟩ := typed_ok hok fun _ _ => rfl
  obtain ⟨u, c₂, hemit, hret⟩ := act_bind.mp hrest
  obtain ⟨-, rfl⟩ := act_pure.mp hret
  have h₁ := h hset ho hok₁
  have h₂ := (emitHere_valued h₁.settled h₁.isOpen rfl hemit).traced (Stays.emitHere _ _ hemit)
  rw [Expr.straight, ← Bool.and_true e.straight]
  exact h₁.trans h₂

theorem traced_bin (op : Operator) {l r : Expr} (hl : ExprTraced l) (hr : ExprTraced r) :
    ExprTraced (.bin op l r) := by
  intro ctx hset ho v c hok
  rw [elabExpr] at hok
  obtain ⟨lhs, c₁, hok₁, hright⟩ := typed_ok hok fun _ _ => rfl
  obtain ⟨rhs, c₂, hok₂, hrest⟩ := typed_ok hright fun _ _ => rfl
  obtain ⟨u, c₃, hemit, hret⟩ := act_bind.mp hrest
  obtain ⟨-, rfl⟩ := act_pure.mp hret
  have h₁ := hl hset ho hok₁
  have h₂ := h₁.trans (hr h₁.settled h₁.isOpen hok₂)
  have h₃ := (emitHere_valued h₂.settled h₂.isOpen rfl hemit).traced (Stays.emitHere _ _ hemit)
  rw [Expr.straight, ← Bool.and_true (l.straight && r.straight)]
  exact h₂.trans h₃

theorem traced_logic (op : Connective) {l r : Expr} (hl : ExprTraced l) (hr : ExprTraced r) :
    ExprTraced (.logic op l r) := by
  intro ctx hset ho v c hok
  rw [elabExpr] at hok
  obtain ⟨lhs, c₁, hok₁, hright⟩ := typed_ok hok fun _ _ => rfl
  have h₁ := hl hset ho hok₁
  obtain ⟨s, c₂, -, hopen, hjoin⟩ :=
    Backend.standard_follows.openShortCircuit h₁.settled h₁.isOpen op.short lhs
  rw [act_run hopen] at hright
  obtain ⟨rhs, c₃, hok₃, hrest⟩ := typed_ok hright fun _ _ => rfl
  have hjoin₃ := hjoin.trans (hr hjoin.settled hjoin.isOpen hok₃).toValued
  obtain ⟨phi, c₄, -, hclose, hv⟩ :=
    Backend.standard_follows.closeShortCircuit h₁.settled hjoin₃ rhs
  rw [act_run hclose] at hrest
  obtain ⟨-, rfl⟩ := act_pure.mp hrest
  -- the join is a block of the operator
  have hnew : ctx.size ≤ c.currentBlock := by
    rw [closeShortCircuit_here hclose]
    exact h₁.toEvaluated.size.trans hjoin.new
  rw [Expr.straight]
  exact ⟨h₁.toValued.trans hv, fun h => absurd h Bool.false_ne_true, fun _ => hnew⟩

theorem traced_args {es : List Expr} (h : ∀ e ∈ es, ExprTraced e) :
    ∀ ⦃ctx⦄, ctx.Settled → ctx.Open → ∀ ⦃vs c⦄, elabExprs es ctx = .ok (vs, c) →
      Traced (exprsStraight es) ctx c := by
  induction es with
  | nil =>
    intro ctx hset ho vs c hok
    rw [elabExprs] at hok
    obtain ⟨-, rfl⟩ := act_pure.mp hok
    rw [exprsStraight]
    exact (Valued.refl hset ho).traced rfl
  | cons e es ih =>
    intro ctx hset ho vs c hok
    rw [elabExprs] at hok
    obtain ⟨v, c₁, hok₁, hok⟩ := act_bind.mp hok
    obtain ⟨ws, c₂, hok₂, hret⟩ := act_bind.mp hok
    obtain ⟨-, rfl⟩ := act_pure.mp hret
    have h₁ := h e List.mem_cons_self hset ho hok₁
    have h₂ := ih (fun e' he' => h e' (List.mem_cons_of_mem _ he')) h₁.settled h₁.isOpen hok₂
    rw [exprsStraight]
    exact h₁.trans h₂

theorem traced_call (func : String) {args : List Expr} (h : ∀ e ∈ args, ExprTraced e) :
    ExprTraced (.call func args) := by
  intro ctx hset ho v c hok
  rw [elabExpr] at hok
  obtain ⟨vs, c₁, hok₁, hcall⟩ := act_bind.mp hok
  have h₁ := traced_args h hset ho hok₁
  have h₂ := (emitCall_valued h₁.settled h₁.isOpen hcall).traced (Stays.emitCall _ _ _ hcall)
  rw [Expr.straight, ← Bool.and_true (exprsStraight args)]
  exact h₁.trans h₂

theorem traced_expr (e : Expr) : ExprTraced e := by
  induction e with
  | int n => exact traced_const (by rw [elabExpr]) rfl (by rw [Expr.straight])
  | bool b => exact traced_const (by rw [elabExpr]) rfl (by rw [Expr.straight])
  | var x => exact traced_var x
  | call func args ih => exact traced_call func ih
  | paren e ih =>
    intro ctx hset ho v c hok
    rw [elabExpr] at hok
    rw [Expr.straight]
    exact ih hset ho hok
  | un op e ih => exact traced_un op ih
  | bin op l r ihl ihr => exact traced_bin op ihl ihr
  | logic op l r ihl ihr => exact traced_logic op ihl ihr

end Expr

/-! ### Statements -/

/-- What a statement leaves behind: the graph is exact still if the statement is plain, and broken
otherwise. -/
structure FnContext.Walked (plain : Bool) (ctx c : FnContext) : Prop extends Grown ctx c where
  exact : plain = true → ctx.builder.Exact → c.builder.Exact
  broken : plain = false → c.builder.Broken

/-- What the elaboration of a statement leaves behind. -/
def StmtWalked (s : Stmt) : Prop :=
  ∀ ⦃ctx⦄, ctx.Settled → ctx.Open → ∀ ⦃u c⦄, elabStmt s ctx = .ok (u, c) →
    Walked s.plain ctx c ∧ c.scopes.tail = ctx.scopes.tail

def StmtsWalked (ss : List Stmt) : Prop :=
  ∀ ⦃ctx⦄, ctx.Settled → ctx.Open → ∀ ⦃u c⦄, elabStmts ss ctx = .ok (u, c) →
    Walked (stmtsPlain ss) ctx c ∧ c.scopes.tail = ctx.scopes.tail

/-- The same for an arm of an `if`, which says whether its end is terminated. -/
def ElseWalked (els : Else) : Prop :=
  ∀ ⦃ctx⦄, ctx.Settled → ctx.Open → ∀ ⦃ended c⦄, elabElse els ctx = .ok (ended, c) →
    Walked els.plain ctx c ∧ c.scopes = ctx.scopes ∧
      ended = c.builder.isTerminated c.currentBlock

section Stmt

variable {ctx c c' : FnContext} {p p' : Bool}

theorem FnContext.Walked.refl (h : ctx.Settled) : Walked true ctx ctx :=
  ⟨.refl h, fun _ he => he, nofun⟩

theorem FnContext.Noted.walked (h : Noted ctx c) : Walked true ctx c :=
  ⟨h.toGrown, fun _ he => h.exact he, nofun⟩

/-- What the first part breaks, the second, which begins in an open block, does not repair. -/
theorem FnContext.Walked.trans (h : Walked p ctx c) (ho : c.Open) (h' : Walked p' c c') :
    Walked (p && p') ctx c' := by
  refine ⟨h.toGrown.trans h'.toGrown, fun hp he => ?_, fun hp => ?_⟩
  · obtain ⟨rfl, rfl⟩ := (Bool.and_eq_true p p').mp hp
    exact h'.exact rfl (h.exact rfl he)
  · cases p with
    | true => exact h'.broken hp
    | false => exact (h.broken rfl).grown h.settled.sound ho h'.toGrown

theorem walked_let (x : String) (e : Expr) : StmtWalked (.letVar x e) := by
  intro ctx hset ho u c hok
  rw [elabStmt] at hok
  obtain ⟨v, c₁, hok₁, hlet⟩ := act_bind.mp hok
  have hv := (traced_expr e hset ho hok₁).toValued
  have hn := writeLet_noted hv.settled hv.isOpen hlet
  rw [Stmt.plain]
  exact ⟨hv.noted.walked.trans hv.isOpen hn.walked, hn.outer.trans (by rw [hv.scopes])⟩

theorem walked_assign (x : String) (e : Expr) : StmtWalked (.assign x e) := by
  intro ctx hset ho u c hok
  rw [elabStmt] at hok
  obtain ⟨v, c₁, hok₁, hassign⟩ := act_bind.mp hok
  have hv := (traced_expr e hset ho hok₁).toValued
  have hv' := hv.trans (writeAssign_valued hv.settled hv.isOpen hassign)
  rw [Stmt.plain]
  exact ⟨hv'.noted.walked, by rw [hv'.scopes]⟩

theorem walked_ret (e : Expr) : StmtWalked (.ret e) := by
  intro ctx hset ho u c hok
  have hget : (get : ActM FnContext) ctx = .ok (ctx, ctx) := rfl
  rw [elabStmt, elabReturn, act_run hget] at hok
  cases hret : ctx.retTy with
  | none =>
    rw [hret] at hok
    exact absurd hok Comp.fail_ne_ok
  | some expected =>
    rw [hret] at hok
    obtain ⟨v, c₁, hok₁, hterm⟩ := typed_ok
      (k := fun v => do terminate (← currentBlock) (.ret (some v))) hok fun _ _ => rfl
    have hv := (traced_expr e hset ho hok₁).toValued
    obtain ⟨c₂, -, hok₂, hn⟩ := Backend.standard_follows.ret hv.settled hv.isOpen (some v)
    obtain ⟨-, rfl⟩ := Prod.mk.inj (Except.ok.inj (hok₂.symm.trans hterm))
    rw [Stmt.plain]
    exact ⟨hv.noted.walked.trans hv.isOpen hn.walked, hn.outer.trans (by rw [hv.scopes])⟩

theorem walked_exprStmt (e : Expr) : StmtWalked (.expr e) := by
  intro ctx hset ho u c hok
  rw [elabStmt] at hok
  obtain ⟨v, c₁, hok₁, hret⟩ := act_bind.mp hok
  obtain ⟨-, rfl⟩ := act_pure.mp hret
  have hv := (traced_expr e hset ho hok₁).toValued
  rw [Stmt.plain]
  exact ⟨hv.noted.walked, by rw [hv.scopes]⟩

/-- A block is read in a scope of its own, which its end drops. -/
theorem inScope_ok {m : ActM Unit} {u : Unit} (hok : inScope m ctx = .ok (u, c)) :
    ∃ c₁, m { ctx with scopes := (fun _ => none) :: ctx.scopes } = .ok ((), c₁) ∧
      c = { c₁ with scopes := c₁.scopes.tail } := by
  have hpush : pushScope ctx = .ok ((), { ctx with scopes := (fun _ => none) :: ctx.scopes }) := rfl
  rw [inScope, act_run hpush] at hok
  obtain ⟨_, c₁, hok₁, hpop⟩ := act_bind.mp hok
  exact ⟨c₁, hok₁, (Prod.mk.inj (Except.ok.inj hpop)).2.symm⟩

theorem walked_block {ss : List Stmt} (h : StmtsWalked ss) (hset : ctx.Settled) (ho : ctx.Open)
    {u : Unit} (hok : inScope (elabStmts ss) ctx = .ok (u, c)) :
    Walked (stmtsPlain ss) ctx c ∧ c.scopes = ctx.scopes := by
  obtain ⟨c₁, hok₁, rfl⟩ := inScope_ok hok
  obtain ⟨hw, hscopes⟩ := h hset.scope ho hok₁
  exact ⟨⟨hw.toGrown.unscope hset hscopes, hw.exact, hw.broken⟩, hscopes⟩

/-- An `if` breaks nothing that its arms do not break. -/
theorem walked_if {e : Expr} {thn : List Stmt} {els : Else} (hthn : StmtsWalked thn)
    (hels : ElseWalked els) (hset : ctx.Settled) (ho : ctx.Open) {u : Unit}
    (hok : elabIf (elabExpr e) (inScope (elabStmts thn)) (elabElse els) ctx = .ok (u, c)) :
    Walked (stmtsPlain thn && els.plain) ctx c ∧ c.scopes = ctx.scopes := by
  obtain ⟨v, c₁, hok₁, hrest₁⟩ := typed_ok hok fun _ _ => rfl
  have hv := (traced_expr e hset ho hok₁).toValued
  obtain ⟨elseBlock, c₂, -, hok₂, hbr⟩ := Backend.standard_follows.openIf hv.settled hv.isOpen v
  rw [act_run hok₂] at hrest₁
  obtain ⟨_, c₃, hok₃, hrest₃⟩ := act_bind.mp hrest₁
  obtain ⟨hw₃, hscopes₃⟩ := walked_block hthn hbr.settled hbr.isOpen hok₃
  rw [act_run currentBlock_run, act_run (isTerminated_run _), act_run (enterBlock_run _)] at hrest₃
  obtain ⟨hgrown₄, ho₄⟩ := hbr.enter hv.settled hw₃.toGrown hscopes₃
  obtain ⟨ended, c₅, hok₅, hclose⟩ := act_bind.mp hrest₃
  obtain ⟨hw₅, hscopes₅, rfl⟩ := hels hgrown₄.settled ho₄ hok₅
  have hwait := hbr.toWaiting.trans hw₃.toLater
  -- the first arm ends in a new block, which the other arm does not touch
  have htail : c₁.size ≤ c₃.currentBlock := by
    rcases hw₃.here with he | he
    · exact he ▸ hbr.fresh
    · exact hbr.toGrown.size.trans he
  have hkept : c₅.builder.isTerminated c₃.currentBlock = c₃.builder.isTerminated c₃.currentBlock :=
    hw₅.ended _ hw₃.settled.here hwait.ne.symm
  obtain ⟨c₆, -, hok₆, hgrown₆, hscopes₆, hexact, hbroken⟩ := Backend.standard_follows.closeIf
    hv.settled (hgrown₄.trans hw₅.toGrown) (hscopes₅.trans (hscopes₃.trans hbr.scopes))
    ⟨htail, Nat.lt_of_lt_of_le hw₃.settled.here hw₅.size, hw₅.reach _ hw₃.settled.reach⟩
    (hw₅.ne_here hw₃.settled.here hwait.ne.symm)
  rw [hkept] at hok₆
  obtain ⟨-, rfl⟩ := Prod.mk.inj (Except.ok.inj (hok₆.symm.trans hclose))
  refine ⟨⟨hv.toGrown.trans hgrown₆, fun hp he => ?_, fun hp => hbroken ?_⟩, hscopes₆.trans hv.scopes⟩
  · obtain ⟨hthen, helse⟩ := (Bool.and_eq_true _ _).mp hp
    exact hexact (hw₅.exact helse (hw₃.exact hthen (hbr.exact (hv.exact he))))
  · rcases Bool.and_eq_false_iff.mp hp with hthen | helse
    · -- what the first arm breaks, the other one does not repair
      have hb₄ : ({ c₃ with currentBlock := elseBlock } : FnContext).builder.Broken :=
        hw₃.broken hthen
      exact hb₄.grown hgrown₄.settled.sound ho₄ hw₅.toGrown
    · exact hw₅.broken helse

/-- A `while`: the header is broken by a condition that does not end in it. -/
theorem walked_while {e : Expr} {body : List Stmt} (hbody : StmtsWalked body) :
    StmtWalked (.while e body) := by
  intro ctx hset ho u c hok
  rw [elabStmt, elabWhile] at hok
  obtain ⟨header, c₁, -, hok₁, hhead⟩ := Backend.standard_follows.openWhile hset ho
  rw [act_run hok₁] at hok
  obtain ⟨v, c₂, hok₂, hrest₂⟩ := typed_ok hok fun _ _ => rfl
  have ht := traced_expr e hhead.settled hhead.isOpen hok₂
  have htested := hhead.trans ht.toValued
  obtain ⟨exit, c₃, hok₃, hopen₃, hcircling, -, hstays, hmoves⟩ :=
    Backend.standard_follows.openBody hset htested v
  rw [act_run hok₃] at hrest₂
  obtain ⟨_, c₄, hok₄, hclose⟩ := act_bind.mp hrest₂
  obtain ⟨hw₄, hscopes₄⟩ := walked_block hbody hcircling.settled hopen₃ hok₄
  obtain ⟨c₅, -, hok₅, hgrown₅, -, hscopes₅, hexact, hbroken⟩ :=
    Backend.standard_follows.closeWhile hset (hcircling.trans hw₄.toGrown hscopes₄)
  obtain ⟨-, rfl⟩ := Prod.mk.inj (Except.ok.inj (hok₅.symm.trans hclose))
  rw [Stmt.plain]
  refine ⟨⟨hgrown₅, fun hp he => ?_, fun hp => ?_⟩, by rw [hscopes₅]⟩
  · obtain ⟨hstraight, hplain⟩ := (Bool.and_eq_true _ _).mp hp
    have hhere : c₂.currentBlock = header := (ht.stays hstraight).trans hhead.here_eq
    exact hexact (hw₄.exact hplain (hstays hhere (htested.exact he)))
  · refine hbroken ?_
    rcases Bool.and_eq_false_iff.mp hp with hlogic | hplain
    · have hne : c₂.currentBlock ≠ header := fun heq => by
        have hnew := ht.moves hlogic
        rw [heq, ← hhead.here_eq] at hnew
        exact Nat.not_lt.mpr hnew hhead.settled.here
      exact .inr ((hmoves hne).grown hcircling.settled.sound hcircling.header_ne hw₄.toGrown)
    · exact .inl (hw₄.broken hplain)

mutual

theorem walked_stmt : (s : Stmt) → StmtWalked s
  | .letVar x e => walked_let x e
  | .assign x e => walked_assign x e
  | .ret e => walked_ret e
  | .expr e => walked_exprStmt e
  | .cond e thn els => by
    intro ctx hset ho u c hok
    rw [elabStmt] at hok
    obtain ⟨hw, hscopes⟩ := walked_if (walked_stmts thn) (walked_else els) hset ho hok
    rw [Stmt.plain]
    exact ⟨hw, by rw [hscopes]⟩
  | .while _ body => walked_while (walked_stmts body)

theorem walked_else : (els : Else) → ElseWalked els
  | .none => by
    intro ctx hset ho ended c hok
    rw [elabElse] at hok
    obtain ⟨rfl, rfl⟩ := act_pure.mp hok
    rw [Else.plain]
    exact ⟨.refl hset, rfl, ho.symm⟩
  | .block b => by
    intro ctx hset ho ended c hok
    rw [elabElse] at hok
    obtain ⟨_, c₁, hok₁, hend⟩ := act_bind.mp hok
    obtain ⟨hw, hscopes⟩ := walked_block (walked_stmts b) hset ho hok₁
    obtain ⟨rfl, rfl⟩ := Prod.mk.inj (Except.ok.inj hend)
    rw [Else.plain]
    exact ⟨hw, hscopes, rfl⟩
  | .elif e thn els => by
    intro ctx hset ho ended c hok
    rw [elabElse] at hok
    obtain ⟨_, c₁, hok₁, hend⟩ := act_bind.mp hok
    obtain ⟨hw, hscopes⟩ := walked_if (walked_stmts thn) (walked_else els) hset ho hok₁
    obtain ⟨rfl, rfl⟩ := Prod.mk.inj (Except.ok.inj hend)
    rw [Else.plain]
    exact ⟨hw, hscopes, rfl⟩

theorem walked_stmts : (ss : List Stmt) → StmtsWalked ss
  | [] => by
    intro ctx hset ho u c hok
    rw [elabStmts] at hok
    obtain ⟨-, rfl⟩ := act_pure.mp hok
    rw [stmtsPlain]
    exact ⟨.refl hset, rfl⟩
  | s :: rest => by
    intro ctx hset ho u c hok
    rw [elabStmts, act_run (needOpen_run ho)] at hok
    obtain ⟨_, c₁, hok₁, hrest⟩ := act_bind.mp hok
    obtain ⟨hw, hscopes⟩ := walked_stmt s hset ho hok₁
    cases rest with
    | nil =>
      rw [elabStmts] at hrest
      obtain ⟨-, rfl⟩ := act_pure.mp hrest
      rw [stmtsPlain, stmtsPlain, Bool.and_true]
      exact ⟨hw, hscopes⟩
    | cons s' rest =>
      have hopen : c₁.Open := open_of_elabStmts hrest
      obtain ⟨hw', hscopes'⟩ := walked_stmts (s' :: rest) hw.settled hopen hrest
      rw [stmtsPlain]
      exact ⟨hw.trans hopen hw', hscopes'.trans hscopes⟩

end

end Stmt

/-! ### Functions -/

/-- `terminate`, with something else where the block has a terminator already. -/
def Backend.checked (other : BlockId → Terminator → ActM Unit) : Backend where
  terminate := fun b t ctx =>
    if ctx.builder.isTerminated b = true then other b t ctx else Parser.terminate b t ctx
  sealBlock := Parser.sealBlock
  readVariable := Parser.readVariable

theorem Backend.checked_follows (other : BlockId → Terminator → ActM Unit) :
    (Backend.checked other).Follows True where
  terminate := fun hopen => if_neg (Bool.eq_false_iff.mp hopen)
  again := fun _ _ _ => .inr trivial
  sealBlock := fun _ _ _ _ => rfl
  readVariable := fun _ _ _ _ _ => rfl

/-- While the function at `start` is read no block gets a terminator twice: whatever is done in
that case, the parser does the same. At the end the recorded predecessors are those of the
function, as multisets. -/
structure ConsistentCfg (n : ℕ) (sigs : Sigs) (start : List Token) : Prop where
  once : ∀ other, (Backend.checked other).parseFunction n sigs start = parseFunction n sigs start
  preds : ∀ B rest, parseBuilder n sigs start = .ok (B, rest) →
    ∀ b, (B.preds b).Perm (B.func.predecessors b)

section Function

variable {n : ℕ} {sigs : Sigs} {ts rest toks' : List Token} {d : FnDecl} {B : SsaBuilder}
  {f : Function}

theorem SsaBuilder.Exact.new (name : String) (params : List (String × Ty)) (retTy : Option Ty) :
    (SsaBuilder.new name params retTy).Exact :=
  ⟨Ghost.new name params retTy, Ghost.Exact.new name params retTy, rfl⟩

theorem SsaBuilder.Exact.preds (h : B.Exact) (b : BlockId) :
    (B.preds b).Perm (B.func.predecessors b) := by
  obtain ⟨g, hg, rfl⟩ := h
  exact hg.preds b

theorem SsaBuilder.Broken.not_preds (h : B.Broken) (hs : B.Sound) :
    ¬ ∀ b, (B.preds b).Perm (B.func.predecessors b) := by
  intro hall
  obtain ⟨p, -, t, ht, s, hp, hst⟩ := h
  obtain ⟨-, hsucc⟩ := hs.indexed.mem_predecessors.mp ((hall s).mem_iff.mp hp)
  exact hst (by simpa [succsOfTerm, ht] using hsucc)

/-- On the tokens of a declaration the builder is what its elaboration leaves behind. -/
theorem parseBuilder_reads (hs : stmtsShaped d.body = true) (hn : d.tokens.length ≤ n)
    (hts : kinds ts = d.tokens) (hrest : rest ≠ [])
    (h : parseBuilder n sigs (ts ++ rest) = .ok (B, toks')) :
    ∃ ctx, inScope (elabStmts d.body) (FnContext.new d.header sigs) = .ok ((), ctx) ∧
      B = ctx.builder := by
  obtain ⟨th, tb, rfl, hth, htb⟩ := kinds_append_split (hts.trans d.tokens_eq)
  rw [FnDecl.tokens_eq, List.length_append] at hn
  have hparams := d.params_lt
  rw [List.append_assoc] at h
  obtain ⟨hd, toks₁, ctx, hheader, hbody, rfl⟩ := parseBuilder_ok.mp h
  obtain ⟨-, rfl, rfl⟩ := (parseFnHeader_ok_iff (by omega) hth (by simp [hrest])).mp hheader
  obtain ⟨hm, -⟩ := (reads_block n d.body hs (by omega) rest hrest
    (show (FnContext.new d.header sigs).retTy.isSome from rfl) htb () ctx toks').mp hbody
  exact ⟨ctx, hm, rfl⟩

/-- The graph of a function is consistent exactly if the function is plain. -/
theorem consistentCfg_iff (hs : stmtsShaped d.body = true) (hn : d.tokens.length ≤ n)
    (hts : kinds ts = d.tokens) (hrest : rest ≠ [])
    (h : parseFunction n sigs (ts ++ rest) = .ok (f, toks')) :
    ConsistentCfg n sigs (ts ++ rest) ↔ d.plain = true := by
  have hwalked : ∀ B t, parseBuilder n sigs (ts ++ rest) = .ok (B, t) →
      B.Sound ∧ (d.plain = true → B.Exact) ∧ (d.plain = false → B.Broken) := by
    intro B t hB
    obtain ⟨ctx, hm, rfl⟩ := parseBuilder_reads hs hn hts hrest hB
    obtain ⟨hw, -⟩ := walked_block (walked_stmts d.body) (Settled.new d.header sigs) rfl hm
    exact ⟨hw.settled.sound, fun hp => hw.exact hp (.new _ _ _), hw.broken⟩
  obtain ⟨B, hB, -⟩ := parseFunction_ok h
  obtain ⟨hsound, hexact, hbroken⟩ := hwalked B toks' hB
  constructor
  · intro hc
    by_contra hp
    exact (hbroken (Bool.eq_false_iff.mpr hp)).not_preds hsound (hc.preds B toks' hB)
  · intro hp
    refine ⟨fun other => ?_, fun B' t hB' => ((hwalked B' t hB').2.1 hp).preds⟩
    rcases ((Backend.checked_follows other).parseFunction n sigs (ts ++ rest)).1 with heq | ⟨-, hlost⟩
    · exact heq
    · obtain ⟨p, -, hl⟩ := hlost B toks' hB
      exact absurd (hexact hp) hl.not_exact

end Function

/-! ### Programs -/

/-- The second pass of `parse` over `source`: with `n` and `sigs` it reads a function of `M` from
each of `starts`. -/
structure SecondPass (source : String) (M : Module) (n : ℕ) (sigs : Sigs)
    (starts : List (List Token)) : Prop where
  scanned : ∃ toks rest, lex source = .ok toks ∧ n = toks.length + 1 ∧
    scanSignatures n (fun _ => none) [] toks = .ok ((sigs, starts), rest)
  functions : List.Forall₂ (fun start f => ∃ rest, parseFunction n sigs start = .ok (f, rest)) starts
    M.functions

theorem parse_secondPass {source : String} {M : Module} (h : parse source = .ok M) :
    ∃ n sigs starts, SecondPass source M n sigs starts := by
  obtain ⟨toks, hlex, -⟩ := bind_eq_ok.mp h
  have hlex' := lexTokens_lex.mp hlex
  obtain ⟨toks', hM⟩ := (parse_iff_of_lex hlex').mp h
  obtain ⟨⟨sigs, starts⟩, toks₁, hscan, h₂⟩ := cursor_bind.mp hM
  obtain ⟨fs, toks₂, hfs, hret⟩ := cursor_bind.mp h₂
  obtain ⟨rfl, -⟩ := cursor_pure.mp hret
  exact ⟨_, sigs, starts, ⟨toks, toks₁, hlex', rfl, hscan⟩, parseFunctions_forall₂ hfs⟩

/-- The declarations, each where it starts. -/
theorem consistentCfg_starts {P : Program} {n : ℕ} {sigs : Sigs} {toks : List Token}
    (hs : P.shaped = true) (hn : toks.length ≤ n) (hk : kinds toks = P.tokens)
    (hall : ∀ start ∈ startsOf P toks, ∃ f rest, parseFunction n sigs start = .ok (f, rest)) :
    List.Forall₂ (fun (d : FnDecl) start => ConsistentCfg n sigs start ↔ d.plain = true) P
      (startsOf P toks) := by
  induction P generalizing toks with
  | nil => exact .nil
  | cons d P ih =>
    obtain ⟨th, tb, rest, rfl, hth, htb, hrest, hne, hdrop⟩ := program_split hk
    rw [Program.shaped, List.all_cons, Bool.and_eq_true] at hs
    have hkd : kinds (th ++ tb) = d.tokens := by
      rw [kinds, List.map_append]
      exact (congrArg₂ _ hth htb).trans d.tokens_eq.symm
    have hlen : d.tokens.length + rest.length ≤ n := by
      rw [← hkd, kinds, List.length_map]
      simpa [Nat.add_assoc] using hn
    rw [startsOf, hdrop] at hall ⊢
    obtain ⟨⟨f, toks', hf⟩, hall'⟩ := List.forall_mem_cons.mp hall
    refine .cons ?_ (ih hs.2 (by omega) hrest hall')
    rw [← List.append_assoc] at hf ⊢
    exact consistentCfg_iff hs.1 (by omega) hkd hne hf

/-- The functions of a source, read one by one. -/
theorem SecondPass.consistentCfg {source : String} {M : Module} {n : ℕ} {sigs : Sigs}
    {starts : List (List Token)} (h : SecondPass source M n sigs starts) {P : Program}
    (hr : Renders source P) :
    List.Forall₂ (fun (d : FnDecl) start => ConsistentCfg n sigs start ↔ d.plain = true) P starts := by
  obtain ⟨toks, hlex, hk, hs⟩ := hr
  obtain ⟨toks', rest, hlex', rfl, hscan⟩ := h.scanned
  obtain rfl := Except.ok.inj (hlex.symm.trans hlex')
  obtain ⟨-, -, rfl⟩ := (scanSignatures_ok_iff hs (Nat.le_succ _) hk).mp ⟨rest, hscan⟩
  rw [List.nil_append] at h ⊢
  refine consistentCfg_starts hs (Nat.le_succ _) hk fun start hstart => ?_
  obtain ⟨f, -, t, hf⟩ := related_of_mem_left h.functions hstart
  exact ⟨f, t, hf⟩

/-- Of the functions of an accepted source those have a consistent graph in which no condition of a
loop has a short-circuit operator. -/
theorem parse_consistentCfg {source : String} {M : Module} (h : parse source = .ok M) :
    ∃ n sigs starts, SecondPass source M n sigs starts ∧ (∃ P, Renders source P) ∧
      ∀ P, Renders source P →
        List.Forall₂ (fun (d : FnDecl) start => ConsistentCfg n sigs start ↔ d.plain = true) P
          starts := by
  obtain ⟨n, sigs, starts, hpass⟩ := parse_secondPass h
  exact ⟨n, sigs, starts, hpass, parse_ok h, fun P hr => hpass.consistentCfg hr⟩

/-- A loop whose condition has a short-circuit operator. -/
def boundedLoop : String :=
  "fn f(n: i64) -> i64 \x7b while n < 9 and 0 < n \x7b n = n + 1; \x7d return n; \x7d"

theorem parse_consistentCfg_loop :
    ∃ M, parse boundedLoop = .ok M ∧ ∃ n sigs starts, SecondPass boundedLoop M n sigs starts ∧
      (∃ P, Renders boundedLoop P) ∧ ∀ P, Renders boundedLoop P →
        List.Forall₂ (fun (d : FnDecl) start => ConsistentCfg n sigs start ↔ d.plain = true) P
          starts := by
  obtain ⟨M, hM⟩ := exists_of_isSome (show (parse boundedLoop).toOption.isSome = true by
    decide +kernel)
  exact ⟨M, hM, parse_consistentCfg hM⟩

/-- Its tree. -/
def boundedLoopTree : FnDecl where
  name := "f"
  params := [("n", .i64)]
  retTy := .i64
  body := [
    .while (.logic .and (.bin .lt (.var "n") (.int 9)) (.bin .lt (.int 0) (.var "n")))
      [.assign "n" (.bin .add (.var "n") (.int 1))],
    .ret (.var "n")]

/-- Not every function of an accepted source has a consistent graph. -/
theorem not_consistentCfg : ¬ ∀ source M, parse source = .ok M → ∀ n sigs starts,
    SecondPass source M n sigs starts → ∀ start ∈ starts, ConsistentCfg n sigs start := by
  intro hall
  obtain ⟨M, hM⟩ := exists_of_isSome (show (parse boundedLoop).toOption.isSome = true by
    decide +kernel)
  obtain ⟨n, sigs, starts, hpass⟩ := parse_secondPass hM
  have hr : Renders boundedLoop [boundedLoopTree] := ⟨_, rfl, rfl, rfl⟩
  have hcons := hall boundedLoop M hM n sigs starts hpass
  obtain _ | ⟨hiff, -⟩ := hpass.consistentCfg hr
  have hplain : boundedLoopTree.plain = true := hiff.mp (hcons _ List.mem_cons_self)
  exact absurd hplain (by decide)

end Parser
end Chakobsa
