import Chakobsa.Parser.Surface

/-!
# Rendering by precedence

An abstract program need not have the parentheses its source needs. `Program.parenthesized` puts a
pair around every operand that binds more loosely than its operator, and adds no other. The result
is shaped, and the parser does the same for it: a pair of parentheses leaves no trace.
-/

namespace Chakobsa
namespace Parser

open Ir Lexer

/-! ### Parentheses -/

/-- An operand in a place where only an expression of `level` may stand. -/
def Expr.atLevel (level : ℕ) (e : Expr) : Expr := if level ≤ e.level then e else .paren e

mutual

def Expr.parenthesized : Expr → Expr
  | .int n => .int n
  | .bool b => .bool b
  | .var x => .var x
  | .call f args => .call f (exprsParenthesized args)
  | .paren e => .paren e.parenthesized
  | .un op e => .un op (e.parenthesized.atLevel (unLevel op))
  | .bin op l r =>
    .bin op (l.parenthesized.atLevel op.leftLevel) (r.parenthesized.atLevel (op.level + 1))
  | .logic op l r =>
    .logic op (l.parenthesized.atLevel op.level) (r.parenthesized.atLevel (op.level + 1))

def exprsParenthesized : List Expr → List Expr
  | [] => []
  | e :: es => e.parenthesized :: exprsParenthesized es

end

mutual

def Stmt.parenthesized : Stmt → Stmt
  | .letVar x e => .letVar x e.parenthesized
  | .assign x e => .assign x e.parenthesized
  | .ret e => .ret e.parenthesized
  | .expr e => .expr e.parenthesized
  | .cond c thn els => .cond c.parenthesized (stmtsParenthesized thn) els.parenthesized
  | .while c body => .while c.parenthesized (stmtsParenthesized body)

def Else.parenthesized : Else → Else
  | .none => .none
  | .block b => .block (stmtsParenthesized b)
  | .elif c thn els => .elif c.parenthesized (stmtsParenthesized thn) els.parenthesized

def stmtsParenthesized : List Stmt → List Stmt
  | [] => []
  | s :: rest => s.parenthesized :: stmtsParenthesized rest

end

def FnDecl.parenthesized (d : FnDecl) : FnDecl := { d with body := stmtsParenthesized d.body }

/-- The program with the parentheses its source needs. -/
def Program.parenthesized (P : Program) : Program := P.map FnDecl.parenthesized

/-! ### The result is shaped -/

@[simp] theorem Expr.level_paren (e : Expr) : (Expr.paren e).level = 7 := rfl

theorem Expr.le_level_atLevel {level : ℕ} (e : Expr) (h : level ≤ 7) :
    level ≤ (e.atLevel level).level := by
  unfold Expr.atLevel
  split
  · assumption
  · exact h

@[simp] theorem Expr.shaped_atLevel (level : ℕ) (e : Expr) :
    (e.atLevel level).shaped = e.shaped := by
  unfold Expr.atLevel
  split
  · rfl
  · rw [Expr.shaped]

theorem Operator.level_lt (op : Operator) : op.level < 7 := by cases op <;> decide

theorem Operator.leftLevel_le (op : Operator) : op.leftLevel ≤ 7 := by cases op <;> decide

theorem Connective.level_lt (op : Connective) : op.level < 7 := by cases op <;> decide

theorem unLevel_le (op : UnOp) : unLevel op ≤ 7 := by cases op <;> decide

theorem exprsShaped_parenthesized {es : List Expr} (h : ∀ e ∈ es, e.parenthesized.shaped = true) :
    exprsShaped (exprsParenthesized es) = true := by
  induction es with
  | nil => rfl
  | cons e es ih =>
    rw [exprsParenthesized, exprsShaped, h e List.mem_cons_self,
      ih fun e' he' => h e' (List.mem_cons_of_mem _ he')]
    rfl

theorem Expr.shaped_parenthesized (e : Expr) : e.parenthesized.shaped = true := by
  induction e with
  | int n => rfl
  | bool b => rfl
  | var x => rfl
  | call f args ih => simpa only [Expr.parenthesized, Expr.shaped] using exprsShaped_parenthesized ih
  | paren e ih => simpa only [Expr.parenthesized, Expr.shaped] using ih
  | un op e ih =>
    have hle := e.parenthesized.le_level_atLevel (unLevel_le op)
    simp only [Expr.parenthesized, Expr.shaped, Expr.shaped_atLevel, ih, hle, decide_true,
      Bool.and_self]
  | bin op l r ihl ihr =>
    have hl := l.parenthesized.le_level_atLevel op.leftLevel_le
    have hr : op.level < _ := r.parenthesized.le_level_atLevel (Nat.succ_le_of_lt op.level_lt)
    simp only [Expr.parenthesized, Expr.shaped, Expr.shaped_atLevel, ihl, ihr, hl, hr, decide_true,
      Bool.and_self]
  | logic op l r ihl ihr =>
    have hl := l.parenthesized.le_level_atLevel (Nat.le_of_lt op.level_lt)
    have hr : op.level < _ := r.parenthesized.le_level_atLevel (Nat.succ_le_of_lt op.level_lt)
    simp only [Expr.parenthesized, Expr.shaped, Expr.shaped_atLevel, ihl, ihr, hl, hr, decide_true,
      Bool.and_self]

mutual

theorem Stmt.shaped_parenthesized : (s : Stmt) → s.parenthesized.shaped = true
  | .letVar _ e | .assign _ e | .ret e | .expr e => by
    rw [Stmt.parenthesized, Stmt.shaped, e.shaped_parenthesized]
  | .cond c thn els => by
    rw [Stmt.parenthesized, Stmt.shaped, c.shaped_parenthesized, stmtsShaped_parenthesized thn,
      els.shaped_parenthesized]
    rfl
  | .while c body => by
    rw [Stmt.parenthesized, Stmt.shaped, c.shaped_parenthesized, stmtsShaped_parenthesized body]
    rfl

theorem Else.shaped_parenthesized : (els : Else) → els.parenthesized.shaped = true
  | .none => rfl
  | .block b => by rw [Else.parenthesized, Else.shaped, stmtsShaped_parenthesized b]
  | .elif c thn els => by
    rw [Else.parenthesized, Else.shaped, c.shaped_parenthesized, stmtsShaped_parenthesized thn,
      els.shaped_parenthesized]
    rfl

theorem stmtsShaped_parenthesized : (ss : List Stmt) → stmtsShaped (stmtsParenthesized ss) = true
  | [] => rfl
  | s :: rest => by
    rw [stmtsParenthesized, stmtsShaped, s.shaped_parenthesized, stmtsShaped_parenthesized rest]
    rfl

end

theorem Program.shaped_parenthesized (P : Program) : P.parenthesized.shaped = true := by
  simp [Program.shaped, Program.parenthesized, FnDecl.parenthesized, stmtsShaped_parenthesized]

/-! ### Parentheses leave no trace -/

@[simp] theorem elabExpr_atLevel (level : ℕ) (e : Expr) : elabExpr (e.atLevel level) = elabExpr e := by
  unfold Expr.atLevel
  split
  · rfl
  · rw [elabExpr]

theorem elabExprs_parenthesized {es : List Expr}
    (h : ∀ e ∈ es, elabExpr e.parenthesized = elabExpr e) :
    elabExprs (exprsParenthesized es) = elabExprs es := by
  induction es with
  | nil => rfl
  | cons e es ih =>
    rw [exprsParenthesized, elabExprs, elabExprs, h e List.mem_cons_self,
      ih fun e' he' => h e' (List.mem_cons_of_mem _ he')]

theorem elabExpr_parenthesized (e : Expr) : elabExpr e.parenthesized = elabExpr e := by
  induction e with
  | int n => rfl
  | bool b => rfl
  | var x => rfl
  | call f args ih => rw [Expr.parenthesized, elabExpr, elabExpr, elabExprs_parenthesized ih]
  | paren e ih => rw [Expr.parenthesized, elabExpr, elabExpr, ih]
  | un op e ih => rw [Expr.parenthesized, elabExpr, elabExpr, elabExpr_atLevel, ih]
  | bin op l r ihl ihr =>
    rw [Expr.parenthesized, elabExpr, elabExpr, elabExpr_atLevel, elabExpr_atLevel, ihl, ihr]
  | logic op l r ihl ihr =>
    rw [Expr.parenthesized, elabExpr, elabExpr, elabExpr_atLevel, elabExpr_atLevel, ihl, ihr]

mutual

theorem elabStmt_parenthesized : (s : Stmt) → elabStmt s.parenthesized = elabStmt s
  | .letVar _ e | .assign _ e | .ret e | .expr e => by
    rw [Stmt.parenthesized, elabStmt, elabStmt, elabExpr_parenthesized e]
  | .cond c thn els => by
    rw [Stmt.parenthesized, elabStmt, elabStmt, elabExpr_parenthesized c,
      elabStmts_parenthesized thn, elabElse_parenthesized els]
  | .while c body => by
    rw [Stmt.parenthesized, elabStmt, elabStmt, elabExpr_parenthesized c,
      elabStmts_parenthesized body]

theorem elabElse_parenthesized : (els : Else) → elabElse els.parenthesized = elabElse els
  | .none => rfl
  | .block b => by rw [Else.parenthesized, elabElse, elabElse, elabStmts_parenthesized b]
  | .elif c thn els => by
    rw [Else.parenthesized, elabElse, elabElse, elabExpr_parenthesized c,
      elabStmts_parenthesized thn, elabElse_parenthesized els]

theorem elabStmts_parenthesized : (ss : List Stmt) →
    elabStmts (stmtsParenthesized ss) = elabStmts ss
  | [] => rfl
  | s :: rest => by
    rw [stmtsParenthesized, elabStmts, elabStmts, elabStmt_parenthesized s,
      elabStmts_parenthesized rest]

end

end Parser
end Chakobsa
