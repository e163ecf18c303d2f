import Chakobsa.Parser.Parser

/-!
# The surface language

The parser builds no tree. This module has one: the abstract programs of the surface language,
the tokens they are written with, and `elabExpr` and `elabStmt`, what the parser does to its
context while it reads them. Parentheses are among the constructors of an expression, so that its
tokens are those of its parts in order; `Expr.shaped` says that an operand that binds more loosely
than its operator is in parentheses.
-/

namespace Chakobsa
namespace Parser

open Ir Lexer

/-! ### Programs -/

/-- The infix operators that evaluate both operands. -/
inductive Operator where
  | add | sub | mul | div | mod
  | eq | ne | lt | le | gt | ge
  deriving DecidableEq, Repr

/-- The short-circuit operators. -/
inductive Connective where
  | and | or
  deriving DecidableEq, Repr

inductive Expr where
  | int (n : I64)
  | bool (b : Bool)
  | var (x : String)
  | call (func : String) (args : List Expr)
  | paren (e : Expr)
  | un (op : UnOp) (e : Expr)
  | bin (op : Operator) (l r : Expr)
  | logic (op : Connective) (l r : Expr)
  deriving Repr

mutual

inductive Stmt where
  | letVar (x : String) (e : Expr)
  | assign (x : String) (e : Expr)
  | ret (e : Expr)
  | expr (e : Expr)
  | cond (c : Expr) (thn : List Stmt) (els : Else)
  | while (c : Expr) (body : List Stmt)

/-- What follows the first arm of an `if`. -/
inductive Else where
  | none
  | block (b : List Stmt)
  | elif (c : Expr) (thn : List Stmt) (els : Else)

end

/-- A function. -/
structure FnDecl where
  name : String
  params : List (String × Ty)
  retTy : Ty
  body : List Stmt

/-- A program. -/
abbrev Program : Type := List FnDecl

/-- Induction on expressions. -/
@[induction_eliminator]
theorem Expr.ind {motive : Expr → Prop} (int : ∀ n, motive (.int n)) (bool : ∀ b, motive (.bool b))
    (var : ∀ x, motive (.var x))
    (call : ∀ func args, (∀ e ∈ args, motive e) → motive (.call func args))
    (paren : ∀ e, motive e → motive (.paren e)) (un : ∀ op e, motive e → motive (.un op e))
    (bin : ∀ op l r, motive l → motive r → motive (.bin op l r))
    (logic : ∀ op l r, motive l → motive r → motive (.logic op l r)) : ∀ e, motive e
  | .int n => int n
  | .bool b => bool b
  | .var x => var x
  | .call func args => call func args fun e _ => Expr.ind int bool var call paren un bin logic e
  | .paren e => paren e (Expr.ind int bool var call paren un bin logic e)
  | .un op e => un op e (Expr.ind int bool var call paren un bin logic e)
  | .bin op l r => bin op l r (Expr.ind int bool var call paren un bin logic l)
      (Expr.ind int bool var call paren un bin logic r)
  | .logic op l r => logic op l r (Expr.ind int bool var call paren un bin logic l)
      (Expr.ind int bool var call paren un bin logic r)

/-! ### Tokens -/

/-- The instruction of an operator. -/
def Operator.binOp : Operator → BinOp
  | .add => .add
  | .sub => .sub
  | .mul => .mul
  | .div => .div
  | .mod => .mod
  | .eq => .cmpEq
  | .ne => .cmpNe
  | .lt => .cmpLt
  | .le => .cmpLe
  | .gt => .cmpGt
  | .ge => .cmpGe

def Operator.token : Operator → TokenKind
  | .add => .plus
  | .sub => .minus
  | .mul => .star
  | .div => .slash
  | .mod => .percent
  | .eq => .eqEq
  | .ne => .notEq
  | .lt => .lt
  | .le => .le
  | .gt => .gt
  | .ge => .ge

def Connective.token : Connective → TokenKind
  | .and => .andKw
  | .or => .orKw

/-- The value of the left operand that decides. -/
def Connective.short : Connective → Bool
  | .and => false
  | .or => true

def unToken : UnOp → TokenKind
  | .neg => .minus
  | .not => .notKw

def tyToken : Ty → TokenKind
  | .i64 => .i64Kw
  | .bool => .boolKw

mutual

def Expr.tokens : Expr → List TokenKind
  | .int n => [.int n]
  | .bool b => [if b then .trueKw else .falseKw]
  | .var x => [.ident x]
  | .call f args => .ident f :: .lParen :: (exprsTokens [] args ++ [.rParen])
  | .paren e => .lParen :: (e.tokens ++ [.rParen])
  | .un op e => unToken op :: e.tokens
  | .bin op l r => l.tokens ++ op.token :: r.tokens
  | .logic op l r => l.tokens ++ op.token :: r.tokens

/-- A list of expressions, with `sep` before the first and a comma before any other. -/
def exprsTokens (sep : List TokenKind) : List Expr → List TokenKind
  | [] => []
  | e :: es => sep ++ (e.tokens ++ exprsTokens [.comma] es)

end

mutual

def Stmt.tokens : Stmt → List TokenKind
  | .letVar x e => .letKw :: .ident x :: .eq :: (e.tokens ++ [.semicolon])
  | .assign x e => .ident x :: .eq :: (e.tokens ++ [.semicolon])
  | .ret e => .returnKw :: (e.tokens ++ [.semicolon])
  | .expr e => e.tokens ++ [.semicolon]
  | .cond c thn els =>
    .ifKw :: (c.tokens ++ (.lBrace :: (stmtsTokens thn ++ .rBrace :: els.tokens)))
  | .while c body => .whileKw :: (c.tokens ++ (.lBrace :: (stmtsTokens body ++ [.rBrace])))

def Else.tokens : Else → List TokenKind
  | .none => []
  | .block b => .elseKw :: .lBrace :: (stmtsTokens b ++ [.rBrace])
  | .elif c thn els =>
    .elseKw :: .ifKw :: (c.tokens ++ (.lBrace :: (stmtsTokens thn ++ .rBrace :: els.tokens)))

def stmtsTokens : List Stmt → List TokenKind
  | [] => []
  | s :: rest => s.tokens ++ stmtsTokens rest

end

/-- The parameters, with `sep` before the first and a comma before any other. -/
def paramsTokens (sep : List TokenKind) : List (String × Ty) → List TokenKind
  | [] => []
  | p :: rest => sep ++ (.ident p.1 :: .colon :: tyToken p.2 :: paramsTokens [.comma] rest)

def FnDecl.headerTokens (d : FnDecl) : List TokenKind :=
  .fnKw :: .ident d.name :: .lParen :: (paramsTokens [] d.params ++ [.rParen, .arrow, tyToken d.retTy])

def FnDecl.tokens (d : FnDecl) : List TokenKind :=
  d.headerTokens ++ .lBrace :: (stmtsTokens d.body ++ [.rBrace])

/-- The tokens of a program, up to the end of input. -/
def Program.tokens (P : Program) : List TokenKind := P.flatMap FnDecl.tokens ++ [.eof]

/-! ### Precedence -/

/-- How tightly an operator binds. -/
def Operator.level : Operator → ℕ
  | .eq | .ne | .lt | .le | .gt | .ge => 3
  | .add | .sub => 4
  | .mul | .div | .mod => 5

/-- The level of a left operand: comparisons do not associate, the others do to the left. -/
def Operator.leftLevel (op : Operator) : ℕ := if op.level = 3 then 4 else op.level

def Connective.level : Connective → ℕ
  | .or => 0
  | .and => 1

def unLevel : UnOp → ℕ
  | .not => 2
  | .neg => 6

def Expr.level : Expr → ℕ
  | .un op _ => unLevel op
  | .bin op _ _ => op.level
  | .logic op _ _ => op.level
  | _ => 7

mutual

/-- No operand binds more loosely than its operator. -/
def Expr.shaped : Expr → Bool
  | .int _ | .bool _ | .var _ => true
  | .call _ args => exprsShaped args
  | .paren e => e.shaped
  | .un op e => e.shaped && unLevel op ≤ e.level
  | .bin op l r => l.shaped && r.shaped && op.leftLevel ≤ l.level && op.level < r.level
  | .logic op l r => l.shaped && r.shaped && op.level ≤ l.level && op.level < r.level

def exprsShaped : List Expr → Bool
  | [] => true
  | e :: es => e.shaped && exprsShaped es

end

mutual

/-- The expressions of a statement are shaped. -/
def Stmt.shaped : Stmt → Bool
  | .letVar _ e | .assign _ e | .ret e | .expr e => e.shaped
  | .cond c thn els => c.shaped && stmtsShaped thn && els.shaped
  | .while c body => c.shaped && stmtsShaped body

def Else.shaped : Else → Bool
  | .none => true
  | .block b => stmtsShaped b
  | .elif c thn els => c.shaped && stmtsShaped thn && els.shaped

def stmtsShaped : List Stmt → Bool
  | [] => true
  | s :: rest => s.shaped && stmtsShaped rest

end

/-- The expressions of a program are shaped. -/
def Program.shaped (P : Program) : Bool := P.all fun d => stmtsShaped d.body

/-! ### What the parser does -/

/-- The span of an error that has none. -/
def noSpan : Span := ⟨0, 0⟩

/-- The check that a type is the one expected. -/
def needTy (expected actual : Ty) : ActM Unit := fun ctx =>
  if actual ≠ expected then Comp.fail (.typeMismatch expected actual noSpan) else .ok ((), ctx)

mutual

/-- What the parser does while it reads an expression. -/
def elabExpr : Expr → ActM (ValueId × Ty)
  | .int n => emitConst .i64 (.constI64 n)
  | .bool b => emitConst .bool (.constBool b)
  | .var x => readName x noSpan
  | .call f args => do
    let vs ← elabExprs args
    emitCall f vs noSpan
  | .paren e => elabExpr e
  | .un op e => do
    let (v, ty) ← elabExpr e
    needTy op.operandType ty
    let result ← emitHere op.resultType (.un op v)
    return (result, op.resultType)
  | .bin op l r => do
    let (lhs, lty) ← elabExpr l
    needTy .i64 lty
    let (rhs, rty) ← elabExpr r
    needTy .i64 rty
    let result ← emitHere op.binOp.resultType (.bin op.binOp lhs rhs)
    return (result, op.binOp.resultType)
  | .logic op l r => do
    let (lhs, lty) ← elabExpr l
    needTy .bool lty
    let s ← openShortCircuit op.short lhs
    let (rhs, rty) ← elabExpr r
    needTy .bool rty
    let phi ← closeShortCircuit s rhs
    return (phi, .bool)

def elabExprs : List Expr → ActM (List (ValueId × Ty))
  | [] => pure []
  | e :: es => do
    let v ← elabExpr e
    let vs ← elabExprs es
    return v :: vs

end

/-- The statements of a block, in a scope of their own. -/
def inScope (stmts : ActM Unit) : ActM Unit := do
  pushScope
  stmts
  popScope

/-- An `if`; `els` does the other arm and says whether its end is terminated. -/
def elabIf (cond : ActM (ValueId × Ty)) (thn : ActM Unit) (els : ActM Bool) : ActM Unit := do
  let (c, ty) ← cond
  needTy .bool ty
  let elseBlock ← openIf c
  thn
  let thenTail ← currentBlock
  let thenTerminated ← isTerminated thenTail
  enterBlock elseBlock
  let elseTerminated ← els
  closeIf thenTail thenTerminated elseTerminated

/-- A `while`. -/
def elabWhile (cond : ActM (ValueId × Ty)) (body : ActM Unit) : ActM Unit := do
  let header ← openWhile
  let (c, ty) ← cond
  needTy .bool ty
  let exit ← openBody header c
  body
  closeWhile header exit

/-- A `return`. -/
def elabReturn (value : ActM (ValueId × Ty)) : ActM Unit := do
  let ctx ← get
  match ctx.retTy with
  | some expected => do
    let (v, ty) ← value
    needTy expected ty
    terminate (← currentBlock) (.ret (some v))
  | none => fun _ => Comp.fail (.unexpectedToken "" .eof noSpan)

/-- Whether the current block has got its terminator. -/
def hereTerminated : ActM Bool := do
  let b ← currentBlock
  isTerminated b

/-- The check before a statement. -/
def needOpen : ActM Unit := do
  if ← hereTerminated then fun _ => Comp.fail (.unreachableCode noSpan)

mutual

/-- What the parser does while it reads a statement. -/
def elabStmt : Stmt → ActM Unit
  | .letVar x e => do
    let value ← elabExpr e
    writeLet x value
  | .assign x e => do
    let value ← elabExpr e
    writeAssign x value noSpan
  | .ret e => elabReturn (elabExpr e)
  | .expr e => do
    let _ ← elabExpr e
  | .cond c thn els => elabIf (elabExpr c) (inScope (elabStmts thn)) (elabElse els)
  | .while c body => elabWhile (elabExpr c) (inScope (elabStmts body))

def elabElse : Else → ActM Bool
  | .none => pure false
  | .block b => do
    inScope (elabStmts b)
    hereTerminated
  | .elif c thn els => do
    elabIf (elabExpr c) (inScope (elabStmts thn)) (elabElse els)
    hereTerminated

def elabStmts : List Stmt → ActM Unit
  | [] => pure ()
  | s :: rest => do
    needOpen
    elabStmt s
    elabStmts rest

end

section

-- the equations are derived once here, not again in each proof that rewrites with them
attribute [local simp] Expr.tokens Stmt.tokens Expr.shaped Stmt.shaped elabExpr elabExprs elabStmt
  elabElse elabStmts

end

/-- The header of a declaration. -/
def FnDecl.header (d : FnDecl) : FnHeader := ⟨d.name, d.params, some d.retTy⟩

/-- The signature of a declaration. -/
def FnDecl.sig (d : FnDecl) : FnSig := ⟨d.params.map Prod.snd, some d.retTy⟩

/-- The signatures of a program. -/
def Program.sigs (P : Program) : Sigs := fun name => (P.find? fun d => d.name == name).map FnDecl.sig

/-- What the parser does while it reads a function. -/
def elabFn (sigs : Sigs) (d : FnDecl) : ParseM Function := do
  let ((), ctx) ← inScope (elabStmts d.body) (FnContext.new d.header sigs)
  return ctx.builder.func

/-- The names of the functions, and of the parameters of each, are distinct. -/
def Program.Distinct (P : Program) : Prop :=
  (P.map FnDecl.name).Nodup ∧ ∀ d ∈ P, (d.params.map Prod.fst).Nodup

end Parser
end Chakobsa
