import Chakobsa.Parser.StaticSemantics
import Chakobsa.Ir.Interp
import Chakobsa.Lib.Fueled

/-!
# What programs mean

A direct evaluation of the abstract programs of the surface language, which knows nothing of blocks
and SSA values: variables are mutable, operands are evaluated from left to right, a short-circuit
operator leaves out its right operand if the left one decides, arithmetic wraps, and division by
zero is the only error. What a block declares is gone at its end.

Loops and calls take fuel. Where the rules say nothing a program is `Stuck`, and `evalCall_safe` says
that a well-formed program whose functions all return never is.
-/

namespace Chakobsa
namespace Parser

open Ir Chakobsa.Comp

/-! ### Evaluation -/

/-- Where evaluation has no rule. -/
inductive Stuck where
  /-- A variable or a function that is not declared. -/
  | unbound (name : String)
  | arity (func : String)
  | illTyped
  /-- The end of a function is reached without a `return`. -/
  | noReturn (func : String)
  deriving DecidableEq, Repr

/-- The errors of a program. -/
inductive EvalError where
  | divideByZero
  deriving DecidableEq, Repr

abbrev EvalM (α : Type) : Type := Comp EvalError Stuck α

/-- The variables in scope with their values; the latest declaration comes first. -/
abbrev Vars : Type := List (String × RtValue)

/-- Give the variable another value. -/
def Vars.assign (x : String) (a : RtValue) : Vars → Option Vars
  | [] => none
  | (y, b) :: ρ => if x = y then some ((y, a) :: ρ) else (assign x a ρ).map ((y, b) :: ·)

def asInt : RtValue → EvalM I64
  | .i64 n => .ok n
  | .bool _ => Comp.panic .illTyped

def asBit : RtValue → EvalM Bool
  | .bool b => .ok b
  | .i64 _ => Comp.panic .illTyped

def Operator.eval (op : Operator) (a b : I64) : EvalM RtValue :=
  match op with
  | .add => .ok (.i64 (a + b))
  | .sub => .ok (.i64 (a - b))
  | .mul => .ok (.i64 (a * b))
  | .div => if b = 0 then Comp.fail .divideByZero else .ok (.i64 (a.sdiv b))
  | .mod => if b = 0 then Comp.fail .divideByZero else .ok (.i64 (a.srem b))
  | .eq => .ok (.bool (a == b))
  | .ne => .ok (.bool (a != b))
  | .lt => .ok (.bool (a.slt b))
  | .le => .ok (.bool (a.sle b))
  | .gt => .ok (.bool (b.slt a))
  | .ge => .ok (.bool (b.sle a))

def evalUnary (op : UnOp) (a : RtValue) : EvalM RtValue :=
  match op with
  | .neg => do return .i64 (-(← asInt a))
  | .not => do return .bool (!(← asBit a))

section Eval

variable (callee : String → List RtValue → EvalM RtValue)

mutual

/-- The value of an expression; `callee` does the calls. -/
def evalExpr (ρ : Vars) : Expr → EvalM RtValue
  | .int n => .ok (.i64 n)
  | .bool b => .ok (.bool b)
  | .var x => Comp.expect (.unbound x) (ρ.lookup x)
  | .call f args => do callee f (← evalExprs ρ args)
  | .paren e => evalExpr ρ e
  | .un op e => do evalUnary op (← evalExpr ρ e)
  | .bin op l r => do
    let a ← asInt (← evalExpr ρ l)
    let b ← asInt (← evalExpr ρ r)
    op.eval a b
  | .logic op l r => do
    let a ← asBit (← evalExpr ρ l)
    -- the right operand is left out if the left one decides
    if a = op.short then return .bool a
    else return .bool (← asBit (← evalExpr ρ r))

def evalExprs (ρ : Vars) : List Expr → EvalM (List RtValue)
  | [] => .ok []
  | e :: es => do
    let a ← evalExpr ρ e
    let as ← evalExprs ρ es
    return a :: as

end

/-- How a statement ends: the next one follows, or the function returns. -/
inductive Flow where
  | next (ρ : Vars)
  | returned (a : RtValue)
  deriving DecidableEq, Repr

/-- What comes after a statement. -/
def Flow.onward (after : Vars → EvalM Flow) : Flow → EvalM Flow
  | .next ρ => after ρ
  | .returned a => .ok (.returned a)

/-- The statements of a block; what they declare is gone afterwards. -/
def evalBlock (stmts : Vars → EvalM Flow) (ρ : Vars) : EvalM Flow := do
  (← stmts ρ).onward fun ρ' => .ok (.next (ρ'.drop (ρ'.length - ρ.length)))

/-- A condition. -/
def evalCond (c : Expr) (ρ : Vars) : EvalM Bool := do asBit (← evalExpr callee ρ c)

def evalIf (cond : Vars → EvalM Bool) (thn els : Vars → EvalM Flow) (ρ : Vars) : EvalM Flow := do
  if ← cond ρ then thn ρ else els ρ

/-- At most `n - 1` rounds of a loop. -/
def whileLoop (cond : Vars → EvalM Bool) (body : Vars → EvalM Flow) : ℕ → Vars → EvalM Flow
  | 0, _ => .error .outOfFuel
  | n + 1, ρ => do
    if ← cond ρ then (← body ρ).onward (whileLoop cond body n) else return .next ρ

mutual

/-- A statement; `n` is the fuel of the loops in it. -/
def evalStmt (n : ℕ) : Stmt → Vars → EvalM Flow
  | .letVar x e, ρ => do return .next ((x, ← evalExpr callee ρ e) :: ρ)
  | .assign x e, ρ => do
    let a ← evalExpr callee ρ e
    return .next (← Comp.expect (.unbound x) (ρ.assign x a))
  | .ret e, ρ => do return .returned (← evalExpr callee ρ e)
  | .expr e, ρ => do
    let _ ← evalExpr callee ρ e
    return .next ρ
  | .cond c thn els, ρ =>
    evalIf (evalCond callee c) (evalBlock (evalStmts n thn)) (evalElse n els) ρ
  | .while c body, ρ => whileLoop (evalCond callee c) (evalBlock (evalStmts n body)) n ρ

def evalElse (n : ℕ) : Else → Vars → EvalM Flow
  | .none, ρ => .ok (.next ρ)
  | .block b, ρ => evalBlock (evalStmts n b) ρ
  | .elif c thn els, ρ =>
    evalIf (evalCond callee c) (evalBlock (evalStmts n thn)) (evalElse n els) ρ

def evalStmts (n : ℕ) : List Stmt → Vars → EvalM Flow
  | [], ρ => .ok (.next ρ)
  | s :: rest, ρ => do (← evalStmt n s ρ).onward (evalStmts n rest)

end

end Eval

/-- The parameters with the values of the arguments. -/
def FnDecl.bind (d : FnDecl) (args : List RtValue) : Vars := ((d.params.map Prod.fst).zip args).reverse

/-- A call of a function of the program. -/
def evalCall (P : Program) : ℕ → String → List RtValue → EvalM RtValue
  | 0, _, _ => .error .outOfFuel
  | n + 1, f, args =>
    match P.find? fun d => d.name == f with
    | none => Comp.panic (.unbound f)
    | some d =>
      if args.length ≠ d.params.length then Comp.panic (.arity f)
      else do
        match ← evalStmts (evalCall P n) n d.body (d.bind args) with
        | .returned a => return a
        | .next _ => Comp.panic (.noReturn f)

/-- The call ends, with result `r`. -/
def Evaluates (P : Program) (f : String) (args : List RtValue) (r : EvalM RtValue) : Prop :=
  r ≠ .error .outOfFuel ∧ ∃ n, evalCall P n f args = r

/-! ### Well-formed programs do not get stuck -/

/-- The variables have values of their types. -/
def Typed (ρ : Vars) (Γ : Env) : Prop := ρ.map (fun p => (p.1, p.2.ty)) = Γ

/-- The calls of well-typed functions are safe. -/
def SafeCallee (P : Program) (callee : String → List RtValue → EvalM RtValue) : Prop :=
  ∀ f d, (P.find? fun d => d.name == f) = some d → ∀ args,
    args.map RtValue.ty = d.params.map Prod.snd → Safe (·.ty = d.retTy) (callee f args)

/-- What is left behind for the next statement satisfies `Q`, and a value returned has type `ret`. -/
def Flow.Fits (ret : Ty) (Q : Vars → Prop) : Flow → Prop
  | .next ρ => Q ρ
  | .returned a => a.ty = ret

section Safe

variable {P : Program} {callee : String → List RtValue → EvalM RtValue} {Γ : Env} {ρ : Vars} {x : String}
  {τ ret : Ty} {a : RtValue} {n : ℕ} {Q Q' : Vars → Prop}

theorem Typed.lookup (h : Typed ρ Γ) (hx : Γ.lookup x = some τ) :
    ∃ a, ρ.lookup x = some a ∧ a.ty = τ := by
  subst h
  induction ρ with
  | nil => cases hx
  | cons p ρ ih =>
    rw [List.map_cons, List.lookup_cons] at hx
    rw [List.lookup_cons]
    cases hname : x == p.1 with
    | true =>
      rw [hname] at hx
      exact ⟨p.2, rfl, Option.some.inj hx⟩
    | false =>
      rw [hname] at hx
      exact ih hx

/-- An assignment of a value of the right type. -/
theorem Typed.assign (h : Typed ρ Γ) (hx : Γ.lookup x = some a.ty) :
    ∃ ρ', ρ.assign x a = some ρ' ∧ Typed ρ' Γ := by
  subst h
  induction ρ with
  | nil => cases hx
  | cons p ρ ih =>
    rw [List.map_cons, List.lookup_cons] at hx
    rw [Vars.assign]
    by_cases hname : x = p.1
    · rw [if_pos hname]
      rw [beq_iff_eq.mpr hname] at hx
      refine ⟨_, rfl, ?_⟩
      rw [Typed, List.map_cons, List.map_cons, ← Option.some.inj hx]
    · rw [if_neg hname]
      rw [beq_eq_false_iff_ne.mpr hname] at hx
      obtain ⟨ρ', hρ', ht⟩ := ih hx
      refine ⟨p :: ρ', by rw [hρ']; rfl, ?_⟩
      rw [Typed, List.map_cons, List.map_cons, ht]

theorem safe_asInt (h : a.ty = .i64) : Safe (fun _ => True) (asInt a) := by
  cases a with
  | i64 n => trivial
  | bool b => cases h

theorem safe_asBit (h : a.ty = .bool) : Safe (fun _ => True) (asBit a) := by
  cases a with
  | i64 n => cases h
  | bool b => trivial

theorem Operator.safe_eval (op : Operator) (a b : I64) :
    Safe (·.ty = op.binOp.resultType) (op.eval a b) := by
  cases op with
  | div | mod =>
    dsimp only [Operator.eval]
    split
    · exact .fail
    · exact .ok rfl
  | _ => exact .ok rfl

theorem safe_unary {op : UnOp} (h : a.ty = op.operandType) :
    Safe (·.ty = op.resultType) (evalUnary op a) := by
  cases op with
  | neg => exact (safe_asInt h).bind fun _ _ => .ok rfl
  | not => exact (safe_asBit h).bind fun _ _ => .ok rfl

/-- An expression of type `τ` has a value of type `τ`, if it has one. -/
theorem safe_expr (hc : SafeCallee P callee) (hρ : Typed ρ Γ) {e : Expr}
    (he : e.typeOf P Γ = some τ) : Safe (·.ty = τ) (evalExpr callee ρ e) := by
  induction e generalizing τ with
  | int n | bool b =>
    rw [Expr.typeOf] at he
    rw [evalExpr]
    exact .ok (Option.some.inj he)
  | var x =>
    rw [Expr.typeOf] at he
    obtain ⟨a, ha, hty⟩ := hρ.lookup he
    rw [evalExpr, ha]
    exact .ok hty
  | call f args ih =>
    rw [Expr.typeOf] at he
    cases hd : P.find? fun d => d.name == f with
    | none =>
      rw [hd] at he
      cases he
    | some d =>
      rw [hd] at he
      obtain ⟨htypes, hret⟩ : typesOf P Γ args = some (d.params.map Prod.snd) ∧ d.retTy = τ := by
        simpa using he
      -- the arguments, by an induction of their own
      have hargs : ∀ τs, typesOf P Γ args = some τs →
          Safe (fun as => as.map RtValue.ty = τs) (evalExprs callee ρ args) := by
        clear he htypes
        induction args with
        | nil =>
          intro τs hτs
          rw [typesOf] at hτs
          rw [evalExprs]
          exact .ok (Option.some.inj hτs)
        | cons e es ihes =>
          intro τs hτs
          rw [typesOf] at hτs
          split at hτs
          · next σ σs hσ hσs =>
            obtain rfl := Option.some.inj hτs
            rw [evalExprs]
            refine (ih e List.mem_cons_self hσ).bind fun a ha => ?_
            refine (ihes (fun e he => ih e (List.mem_cons_of_mem _ he)) σs hσs).bind fun as has => ?_
            exact .ok (by rw [List.map_cons, ha, has])
          · cases hτs
      rw [evalExpr]
      exact (hargs _ htypes).bind fun as has => (hc f d hd as has).mono fun _ h => h.trans hret
  | paren e ih =>
    rw [Expr.typeOf] at he
    rw [evalExpr]
    exact ih he
  | un op e ih =>
    obtain ⟨hop, rfl⟩ : e.typeOf P Γ = some op.operandType ∧ op.resultType = τ := by
      simpa [Expr.typeOf] using he
    rw [evalExpr]
    exact (ih hop).bind fun _ ha => safe_unary ha
  | bin op l r ihl ihr =>
    obtain ⟨⟨hl, hr⟩, rfl⟩ : (l.typeOf P Γ = some .i64 ∧ r.typeOf P Γ = some .i64) ∧
        op.binOp.resultType = τ := by simpa [Expr.typeOf] using he
    rw [evalExpr]
    refine (ihl hl).bind fun a ha => (safe_asInt ha).bind fun a _ => ?_
    exact (ihr hr).bind fun b hb => (safe_asInt hb).bind fun b _ => op.safe_eval a b
  | logic op l r ihl ihr =>
    obtain ⟨⟨hl, hr⟩, rfl⟩ : (l.typeOf P Γ = some .bool ∧ r.typeOf P Γ = some .bool) ∧
        Ty.bool = τ := by simpa [Expr.typeOf] using he
    rw [evalExpr]
    refine (ihl hl).bind fun a ha => (safe_asBit ha).bind fun a _ => ?_
    -- the right operand is not evaluated where the left one decides
    split
    · exact .ok rfl
    · exact (ihr hr).bind fun b hb => (safe_asBit hb).bind fun b _ => .ok rfl

theorem Flow.Fits.mono {fl : Flow} (h : fl.Fits ret Q) (hQ : ∀ ρ, Q ρ → Q' ρ) : fl.Fits ret Q' := by
  cases fl with
  | next ρ => exact hQ ρ h
  | returned a => exact h

/-- What comes after a statement, if anything does. -/
theorem Flow.Fits.onward {fl : Flow} (h : fl.Fits ret Q) {after : Vars → EvalM Flow}
    (hafter : ∀ ρ, Q ρ → Safe (Flow.Fits ret Q') (after ρ)) :
    Safe (Flow.Fits ret Q') (fl.onward after) := by
  cases fl with
  | next ρ => exact hafter ρ h
  | returned a => exact .ok h

theorem safe_cond (hc : SafeCallee P callee) (hρ : Typed ρ Γ) {c : Expr}
    (h : c.typeOf P Γ = some .bool) : Safe (fun _ => True) (evalCond callee c ρ) :=
  (safe_expr hc hρ h).bind fun _ ha => safe_asBit ha

theorem safe_if {cond : Vars → EvalM Bool} {thn els : Vars → EvalM Flow}
    (h : Safe (fun _ => True) (cond ρ)) (hthn : Safe (Flow.Fits ret Q) (thn ρ))
    (hels : Safe (Flow.Fits ret Q) (els ρ)) : Safe (Flow.Fits ret Q) (evalIf cond thn els ρ) := by
  refine h.bind fun b _ => ?_
  cases b with
  | true => exact hthn
  | false => exact hels

/-- A block leaves the variables there were. -/
theorem safe_block {stmts : Vars → EvalM Flow} {p : Prop} (hρ : Typed ρ Γ)
    (h : Safe (Flow.Fits ret fun ρ' => (∃ ds, Typed ρ' (ds ++ Γ)) ∧ p) (stmts ρ)) :
    Safe (Flow.Fits ret fun ρ' => Typed ρ' Γ ∧ p) (evalBlock stmts ρ) := by
  refine h.bind fun fl hfl => hfl.onward fun ρ' ⟨⟨ds, hds⟩, hp⟩ => .ok ⟨?_, hp⟩
  have hlen : ρ'.length - ρ.length = ds.length := by
    have h₁ := congrArg List.length hds
    have h₂ := congrArg List.length hρ
    rw [List.length_map, List.length_append] at h₁
    rw [List.length_map] at h₂
    omega
  rw [Typed, List.map_drop, hlen, show ρ'.map _ = ds ++ Γ from hds, List.drop_left]

/-- A loop keeps what its condition and its body keep. -/
theorem safe_loop {cond : Vars → EvalM Bool} {body : Vars → EvalM Flow}
    (hcond : ∀ ρ, Q ρ → Safe (fun _ => True) (cond ρ))
    (hbody : ∀ ρ, Q ρ → Safe (Flow.Fits ret Q) (body ρ)) (n : ℕ) (hρ : Q ρ) :
    Safe (Flow.Fits ret Q) (whileLoop cond body n ρ) := by
  induction n generalizing ρ with
  | zero => trivial
  | succ n ih =>
    rw [whileLoop]
    refine (hcond ρ hρ).bind fun b _ => ?_
    cases b with
    | true => exact (hbody ρ hρ).bind fun fl hfl => hfl.onward fun ρ' hρ' => ih hρ'
    | false => exact .ok hρ

variable (n)

mutual

theorem safe_stmt (hc : SafeCallee P callee) : ∀ (s : Stmt) {Γ : Env} {ρ : Vars}, s.Legal P ret Γ →
    Typed ρ Γ → Safe (Flow.Fits ret fun ρ' => Typed ρ' (s.envAfter P Γ) ∧ s.terminates = false)
      (evalStmt callee n s ρ)
  | .letVar x e, Γ, ρ, h, hρ => by
    rw [Stmt.Legal] at h
    obtain ⟨τ, hτ⟩ := h
    rw [evalStmt, Stmt.envAfter, hτ]
    exact (safe_expr hc hρ hτ).bind fun a ha => .ok ⟨by rw [Typed, List.map_cons, ha, hρ], rfl⟩
  | .assign x e, Γ, ρ, h, hρ => by
    rw [Stmt.Legal] at h
    obtain ⟨τ, hx, hτ⟩ := h
    rw [evalStmt]
    refine (safe_expr hc hρ hτ).bind fun a ha => ?_
    obtain ⟨ρ', hρ', ht⟩ := hρ.assign (ha.symm ▸ hx)
    rw [hρ']
    exact .ok ⟨ht, rfl⟩
  | .ret e, Γ, ρ, h, hρ => by
    rw [Stmt.Legal] at h
    rw [evalStmt]
    exact (safe_expr hc hρ h).bind fun a ha => .ok ha
  | .expr e, Γ, ρ, h, hρ => by
    rw [Stmt.Legal] at h
    obtain ⟨τ, hτ⟩ := h
    rw [evalStmt]
    exact (safe_expr hc hρ hτ).bind fun a _ => .ok ⟨hρ, rfl⟩
  | .cond c thn els, Γ, ρ, h, hρ => by
    rw [Stmt.Legal] at h
    obtain ⟨hcond, hthn, hels⟩ := h
    rw [evalStmt, show (Stmt.cond c thn els).envAfter P Γ = Γ from rfl, Stmt.terminates]
    refine safe_if (safe_cond hc hρ hcond) ?_ ?_
    · refine (safe_block hρ (safe_stmts hc thn hthn hρ)).mono fun fl h => h.mono fun ρ' h => ?_
      exact ⟨h.1, by rw [h.2, Bool.false_and]⟩
    · refine (safe_else hc els hels hρ).mono fun fl h => h.mono fun ρ' h => ?_
      exact ⟨h.1, by rw [h.2, Bool.and_false]⟩
  | .while c body, Γ, ρ, h, hρ => by
    rw [Stmt.Legal] at h
    obtain ⟨hcond, hbody⟩ := h
    rw [evalStmt, show (Stmt.while c body).envAfter P Γ = Γ from rfl]
    have hloop : Safe (Flow.Fits ret fun ρ => Typed ρ Γ)
        (whileLoop (evalCond callee c) (evalBlock (evalStmts callee n body)) n ρ) :=
      safe_loop (fun ρ hρ => safe_cond hc hρ hcond)
        (fun ρ hρ => (safe_block hρ (safe_stmts hc body hbody hρ)).mono fun fl h => h.mono fun _ h => h.1)
        n hρ
    exact hloop.mono fun fl h => h.mono fun ρ' h => ⟨h, rfl⟩

theorem safe_else (hc : SafeCallee P callee) : ∀ (els : Else) {Γ : Env} {ρ : Vars}, els.Legal P ret Γ →
    Typed ρ Γ → Safe (Flow.Fits ret fun ρ' => Typed ρ' Γ ∧ els.terminates = false)
      (evalElse callee n els ρ)
  | .none, Γ, ρ, h, hρ => by
    rw [evalElse]
    exact .ok ⟨hρ, rfl⟩
  | .block b, Γ, ρ, h, hρ => by
    rw [Else.Legal] at h
    rw [evalElse, Else.terminates]
    exact safe_block hρ (safe_stmts hc b h hρ)
  | .elif c thn els, Γ, ρ, h, hρ => by
    rw [Else.Legal] at h
    obtain ⟨hcond, hthn, hels⟩ := h
    rw [evalElse, Else.terminates]
    refine safe_if (safe_cond hc hρ hcond) ?_ ?_
    · refine (safe_block hρ (safe_stmts hc thn hthn hρ)).mono fun fl h => h.mono fun ρ' h => ?_
      exact ⟨h.1, by rw [h.2, Bool.false_and]⟩
    · refine (safe_else hc els hels hρ).mono fun fl h => h.mono fun ρ' h => ?_
      exact ⟨h.1, by rw [h.2, Bool.and_false]⟩

theorem safe_stmts (hc : SafeCallee P callee) : ∀ (ss : List Stmt) {Γ : Env} {ρ : Vars},
    stmtsLegal P ret Γ ss → Typed ρ Γ → Safe (Flow.Fits ret fun ρ' =>
      (∃ ds, Typed ρ' (ds ++ Γ)) ∧ stmtsTerminate ss = false) (evalStmts callee n ss ρ)
  | [], Γ, ρ, h, hρ => by
    rw [evalStmts]
    exact .ok ⟨⟨[], hρ⟩, rfl⟩
  | s :: rest, Γ, ρ, h, hρ => by
    rw [stmtsLegal] at h
    obtain ⟨hs, hlast, hrest⟩ := h
    rw [evalStmts]
    refine (safe_stmt hc s hs hρ).bind fun fl hfl => hfl.onward fun ρ₁ ⟨hρ₁, hopen⟩ => ?_
    refine (safe_stmts hc rest hrest hρ₁).mono fun fl h => h.mono fun ρ₂ ⟨⟨ds, hds⟩, hterm⟩ => ?_
    constructor
    · -- the declarations of the first statement are under those of the others
      obtain ⟨ds', hds'⟩ : ∃ ds', s.envAfter P Γ = ds' ++ Γ := by
        cases s with
        | letVar x e =>
          rw [Stmt.envAfter]
          split
          · exact ⟨[_], rfl⟩
          · exact ⟨[], rfl⟩
        | _ => exact ⟨[], rfl⟩
      rw [hds', ← List.append_assoc] at hds
      exact ⟨_, hds⟩
    · rw [stmtsTerminate]
      split
      · exact hopen
      · exact hterm

end

end Safe

/-- A function of the program is found by its name. -/
theorem Program.find_of_mem {P : Program} (h : (P.map FnDecl.name).Nodup) {d : FnDecl} (hd : d ∈ P) :
    (P.find? fun e => e.name == d.name) = some d := by
  have hsome : (P.find? fun e => e.name == d.name).isSome := by
    rw [List.find?_isSome]
    exact ⟨d, hd, beq_self_eq_true _⟩
  obtain ⟨e, he⟩ := Option.isSome_iff_exists.mp hsome
  have hname : e.name = d.name := by simpa using List.find?_some he
  rw [he, List.inj_on_of_nodup_map h (List.mem_of_find?_eq_some he) hd hname]

/-- The parameters have the types of the arguments. -/
theorem Typed.bind {d : FnDecl} {args : List RtValue}
    (h : args.map RtValue.ty = d.params.map Prod.snd) : Typed (d.bind args) d.params.reverse := by
  rw [Typed, FnDecl.bind, List.map_reverse]
  congr 1
  generalize d.params = params at h
  induction params generalizing args with
  | nil => rfl
  | cons p params ih =>
    cases args with
    | nil => cases h
    | cons a args =>
      obtain ⟨hp, hrest⟩ := List.cons.inj h
      rw [List.map_cons, List.zip_cons_cons, List.map_cons, ih hrest, hp]

/-- Every function of the program ends in a `return`, whichever way it goes. -/
def Program.Returns (P : Program) : Prop := ∀ d ∈ P, stmtsTerminate d.body = true

/-- **A well-formed program does not get stuck.** A call of one of its functions with arguments of
the right types ends with a value of its return type or in a division by zero, if it ends. -/
theorem evalCall_safe {P : Program} (hP : P.WellFormed) (hret : P.Returns) (n : ℕ) {d : FnDecl}
    (hd : d ∈ P) {args : List RtValue} (hargs : args.map RtValue.ty = d.params.map Prod.snd) :
    Safe (·.ty = d.retTy) (evalCall P n d.name args) := by
  induction n generalizing d args with
  | zero => trivial
  | succ n ih =>
    have hfind := Program.find_of_mem hP.functions hd
    have hlen : args.length = d.params.length := by
      simpa using congrArg List.length hargs
    rw [evalCall, hfind]
    dsimp only
    rw [if_neg (not_not.mpr hlen)]
    have hcallee : SafeCallee P (evalCall P n) := by
      intro f e he as has
      obtain rfl : e.name = f := by simpa using List.find?_some he
      exact ih (List.mem_of_find?_eq_some he) has
    refine (safe_stmts n hcallee d.body (hP.bodies d hd) (.bind hargs)).bind fun fl hfl => ?_
    cases fl with
    | returned a => exact .ok hfl
    | next ρ => exact absurd hfl.2 (by rw [hret d hd]; simp)

/-! ### Shadowing -/

/-- The names a statement adds to its scope. -/
def Stmt.declared : Stmt → List String
  | .letVar x _ => [x]
  | _ => []

/-- The same for the statements of a block, the latest first. -/
def stmtsDeclared : List Stmt → List String
  | [] => []
  | s :: rest => stmtsDeclared rest ++ s.declared

mutual

/-- No nested block declares a name of an enclosing one: `outer` are the names of the blocks around
the one the statement is in, and `here` those of that block. -/
def Stmt.unshadowed (outer here : List String) : Stmt → Bool
  | .letVar x _ => !outer.contains x
  | .assign _ _ | .ret _ | .expr _ => true
  | .cond _ thn els => stmtsUnshadowed (here ++ outer) [] thn && els.unshadowed (here ++ outer)
  | .while _ body => stmtsUnshadowed (here ++ outer) [] body

def Else.unshadowed (outer : List String) : Else → Bool
  | .none => true
  | .block b => stmtsUnshadowed outer [] b
  | .elif _ thn els => stmtsUnshadowed outer [] thn && els.unshadowed outer

def stmtsUnshadowed (outer here : List String) : List Stmt → Bool
  | [] => true
  | s :: rest => s.unshadowed outer here && stmtsUnshadowed outer (s.declared ++ here) rest

end

/-- No nested block of the function declares a name of an enclosing one. -/
def FnDecl.unshadowed (d : FnDecl) : Bool :=
  stmtsUnshadowed [] (d.params.reverse.map Prod.fst) d.body

/-- What a block declares is not a name of the blocks around it. -/
theorem not_mem_outer {outer here : List String} {ss : List Stmt}
    (h : stmtsUnshadowed outer here ss = true) : ∀ x ∈ stmtsDeclared ss, x ∉ outer := by
  induction ss generalizing here with
  | nil => simp [stmtsDeclared]
  | cons s rest ih =>
    obtain ⟨hs, hrest⟩ := (Bool.and_eq_true _ _).mp (by rwa [stmtsUnshadowed] at h)
    intro x hx
    rcases List.mem_append.mp (by rwa [stmtsDeclared] at hx) with hx | hx
    · exact ih hrest x hx
    · cases s with
      | letVar y e =>
        obtain rfl : x = y := by simpa [Stmt.declared] using hx
        simpa [Stmt.unshadowed] using hs
      | _ => exact absurd hx List.not_mem_nil

section Names

variable {callee : String → List RtValue → EvalM RtValue} {ρ ρ' : Vars} {x : String} {a : RtValue}
  {ns : List String}

/-- The variables left behind have the given names. -/
def Flow.Names (ns : List String) : Flow → Prop
  | .next ρ => ρ.map Prod.fst = ns
  | .returned _ => True

theorem assign_names (h : ρ.assign x a = some ρ') : ρ'.map Prod.fst = ρ.map Prod.fst := by
  induction ρ generalizing ρ' with
  | nil => cases h
  | cons p ρ ih =>
    rw [Vars.assign] at h
    split at h
    · obtain rfl := Option.some.inj h
      rfl
    · obtain ⟨ρ₁, h₁, rfl⟩ := Option.map_eq_some_iff.mp h
      rw [List.map_cons, List.map_cons, ih h₁]

theorem names_onward {fl : Flow} {after : Vars → EvalM Flow}
    (h : ∀ ρ, fl = .next ρ → Yields (Flow.Names ns) (after ρ)) :
    Yields (Flow.Names ns) (fl.onward after) := by
  cases fl with
  | next ρ => exact h ρ rfl
  | returned a => exact .ok trivial

theorem names_block {stmts : Vars → EvalM Flow}
    (h : Yields (Flow.Names (ns ++ ρ.map Prod.fst)) (stmts ρ)) :
    Yields (Flow.Names (ρ.map Prod.fst)) (evalBlock stmts ρ) := by
  refine .bind fun fl hfl => names_onward fun ρ' hρ' => .ok ?_
  have hnames : ρ'.map Prod.fst = ns ++ ρ.map Prod.fst := h _ (hfl.trans (congrArg _ hρ'))
  have hlen : ρ'.length - ρ.length = ns.length := by
    have := congrArg List.length hnames
    rw [List.length_map, List.length_append, List.length_map] at this
    omega
  rw [Flow.Names, List.map_drop, hlen, hnames, List.drop_left]

theorem names_if {cond : Vars → EvalM Bool} {thn els : Vars → EvalM Flow}
    (hthn : Yields (Flow.Names ns) (thn ρ)) (hels : Yields (Flow.Names ns) (els ρ)) :
    Yields (Flow.Names ns) (evalIf cond thn els ρ) := by
  refine .bind fun b _ => ?_
  cases b with
  | true => exact hthn
  | false => exact hels

theorem names_loop {cond : Vars → EvalM Bool} {body : Vars → EvalM Flow}
    (hbody : ∀ ρ : Vars, ρ.map Prod.fst = ns → Yields (Flow.Names ns) (body ρ)) (n : ℕ)
    (hρ : ρ.map Prod.fst = ns) : Yields (Flow.Names ns) (whileLoop cond body n ρ) := by
  induction n generalizing ρ with
  | zero => exact fun _ => nofun
  | succ n ih =>
    rw [whileLoop]
    refine .bind fun b _ => ?_
    cases b with
    | true =>
      refine .bind fun fl hfl => names_onward fun ρ' hρ' => ?_
      have hnames : ρ'.map Prod.fst = ns := hbody ρ hρ _ (hfl.trans (congrArg _ hρ'))
      exact ih hnames
    | false => exact .ok hρ

variable (callee) (n : ℕ)

mutual

/-- A statement adds the names it declares. -/
theorem names_stmt : ∀ (s : Stmt) (ρ : Vars),
    Yields (Flow.Names (s.declared ++ ρ.map Prod.fst)) (evalStmt callee n s ρ)
  | .letVar x e, ρ => by
    rw [evalStmt]
    exact .bind fun a _ => .ok rfl
  | .assign x e, ρ => by
    rw [evalStmt]
    exact .bind fun a _ => .bind fun ρ' hρ' => .ok (assign_names (Comp.expect_eq_ok.mp hρ'))
  | .ret e, ρ => by
    rw [evalStmt]
    exact .bind fun a _ => .ok trivial
  | .expr e, ρ => by
    rw [evalStmt]
    exact .bind fun a _ => .ok rfl
  | .cond c thn els, ρ => by
    rw [evalStmt]
    exact names_if (names_block (names_stmts thn ρ)) (names_else els ρ)
  | .while c body, ρ => by
    rw [evalStmt]
    exact names_loop (fun ρ' hρ' => hρ' ▸ names_block (names_stmts body ρ')) n rfl

theorem names_else : ∀ (els : Else) (ρ : Vars),
    Yields (Flow.Names (ρ.map Prod.fst)) (evalElse callee n els ρ)
  | .none, ρ => by
    rw [evalElse]
    exact .ok rfl
  | .block b, ρ => by
    rw [evalElse]
    exact names_block (names_stmts b ρ)
  | .elif c thn els, ρ => by
    rw [evalElse]
    exact names_if (names_block (names_stmts thn ρ)) (names_else els ρ)

theorem names_stmts : ∀ (ss : List Stmt) (ρ : Vars),
    Yields (Flow.Names (stmtsDeclared ss ++ ρ.map Prod.fst)) (evalStmts callee n ss ρ)
  | [], ρ => by
    rw [evalStmts]
    exact .ok rfl
  | s :: rest, ρ => by
    rw [evalStmts, stmtsDeclared, List.append_assoc]
    refine .bind fun fl hfl => names_onward fun ρ₁ hρ₁ => ?_
    have hnames : ρ₁.map Prod.fst = s.declared ++ ρ.map Prod.fst :=
      names_stmt s ρ _ (hfl.trans (congrArg _ hρ₁))
    exact hnames ▸ names_stmts rest ρ₁

end

end Names

end Parser
end Chakobsa
