import Chakobsa.Lexer.Lexer
import Chakobsa.Parser.SsaBuilder

/-!
# The parser

`crates/parser/src/parser.rs`: one recursive descent over the tokens that drives the SSA builder
as it goes, with no tree in between. A first pass over the tokens records the signature of every
function and skips the bodies, a second pass parses the bodies against the complete table.

A `CursorM` computation moves through the tokens; its state is what is left of them, the last
token being never passed. `ActM` is what the parser does to the context of the function it is in,
and a `BodyM` computation does both. The recursion of the source is bounded by fuel: a level of
nesting and a round of a loop both take a token, so that the number of tokens is enough for all
of it.
-/

namespace Chakobsa
namespace Parser

open Ir Lexer

structure FnSig where
  params : List Ty
  retTy : Option Ty
  deriving DecidableEq, Repr

inductive ParseError where
  | lex (e : LexError)
  | unexpectedToken (expected : String) (found : TokenKind) (span : Span)
  | duplicateFunction (name : String)
  | duplicateParameter (func name : String)
  | undefinedVariable (name : String) (span : Span)
  | undefinedFunction (name : String) (span : Span)
  | argCountMismatch (func : String) (expected given : ℕ) (span : Span)
  | typeMismatch (expected actual : Ty) (span : Span)
  | unreachableCode (span : Span)
  deriving DecidableEq, Repr

/-- The places where `parse` panics. -/
inductive ParserPanic where
  | lex (p : LexPanic)
  | builder (p : BuilderPanic)
  /-- `self.tokens[self.pos]` without tokens -/
  | tokenIndex
  /-- `ctx.scopes.last_mut().unwrap()` -/
  | scopesEmpty
  deriving DecidableEq, Repr

abbrev ParseM (α : Type) : Type := Comp ParseError ParserPanic α

/-- The types of the names one scope declares. -/
abbrev Scope : Type := String → Option Ty

abbrev Sigs : Type := String → Option FnSig

/-- Per-function parsing state; the innermost scope comes first. -/
structure FnContext where
  builder : SsaBuilder
  scopes : List Scope
  currentBlock : BlockId
  retTy : Option Ty
  sigs : Sigs

/-- The type of a name in the innermost scope that declares it. -/
def lookupVar (scopes : List Scope) (name : String) : Option Ty := scopes.findSome? fun s => s name

abbrev CursorM : Type → Type := StateT (List Token) (Comp ParseError ParserPanic)

abbrev ActM : Type → Type := StateT FnContext (Comp ParseError ParserPanic)

abbrev BodyM : Type → Type := StateT FnContext CursorM

/-- Do something to the context. -/
def act {α : Type} (m : ActM α) : BodyM α := fun ctx toks => do
  let (a, ctx) ← m ctx
  return ((a, ctx), toks)

section Cursor

variable {α : Type}

def outOfFuel : CursorM α := fun _ => .error .outOfFuel

def parseError (e : ParseError) : CursorM α := fun _ => Comp.fail e

def peek : CursorM Token := fun toks =>
  match toks with
  | [] => Comp.panic .tokenIndex
  | t :: _ => .ok (t, toks)

def advance : CursorM Token := fun toks =>
  match toks with
  | [] => Comp.panic .tokenIndex
  | [t] => .ok (t, [t])
  | t :: rest => .ok (t, rest)

def expect (kind : TokenKind) : CursorM Token := do
  let t ← peek
  if t.kind = kind then advance
  else parseError (.unexpectedToken kind.display t.kind t.span)

def expectIdent : CursorM String := do
  let t ← peek
  match t.kind with
  | .ident name => do
    let _ ← advance
    return name
  | other => parseError (.unexpectedToken "an identifier" other t.span)

def expectType : CursorM Ty := do
  let t ← peek
  match t.kind with
  | .i64Kw => do
    let _ ← advance
    return .i64
  | .boolKw => do
    let _ ← advance
    return .bool
  | other => parseError (.unexpectedToken "a type ('i64' or 'bool')" other t.span)

/-- The check that a type is the one expected. -/
def checkTy (expected actual : Ty) (span : Span) : CursorM Unit :=
  if actual ≠ expected then parseError (.typeMismatch expected actual span) else pure ()

/-- The loop of `parse_fn_header` over the parameters. -/
def parseParams (func : String) : ℕ → List (String × Ty) → CursorM (List (String × Ty))
  | 0, _ => outOfFuel
  | n + 1, params => do
    let pname ← expectIdent
    let _ ← expect .colon
    let pty ← expectType
    if params.any fun p => p.1 == pname then
      parseError (.duplicateParameter func pname)
    let params := params ++ [(pname, pty)]
    let t ← peek
    if t.kind = .comma then do
      let _ ← advance
      parseParams func n params
    else return params

/-- A parsed function header: name, parameters and return type. -/
structure FnHeader where
  name : String
  params : List (String × Ty)
  retTy : Option Ty

/-- `parse_fn_header`: `fn name(params) -> type`, leaving the cursor at the following brace. -/
def parseFnHeader (n : ℕ) : CursorM FnHeader := do
  let _ ← expect .fnKw
  let name ← expectIdent
  let _ ← expect .lParen
  let t ← peek
  let params ← if t.kind ≠ .rParen then parseParams name n [] else pure []
  let _ ← expect .rParen
  let _ ← expect .arrow
  let retTy ← expectType
  return ⟨name, params, some retTy⟩

/-- The loop of `skip_block`, inside `depth` braces. -/
def skipLoop : ℕ → ℕ → CursorM Unit
  | _, 0 => pure ()
  | 0, _ + 1 => outOfFuel
  | n + 1, depth + 1 => do
    let t ← peek
    match t.kind with
    | .lBrace => do
      let _ ← advance
      skipLoop n (depth + 2)
    | .rBrace => do
      let _ ← advance
      skipLoop n depth
    | .eof => parseError (.unexpectedToken "'\x7d'" .eof t.span)
    | _ => do
      let _ ← advance
      skipLoop n (depth + 1)

/-- `skip_block`. -/
def skipBlock (n : ℕ) : CursorM Unit := do
  let _ ← expect .lBrace
  skipLoop n 1

end Cursor

section Actions

variable {α : Type}

/-- A call of the builder. -/
def build (f : SsaBuilder → BuildM ParseError (α × SsaBuilder)) : ActM α := fun ctx =>
  match f ctx.builder with
  | .ok (a, B) => .ok (a, { ctx with builder := B })
  | .error (.err e) => Comp.fail e
  | .error (.panic p) => Comp.panic (.builder p)
  | .error .outOfFuel => .error .outOfFuel

/-- The calls through which the parser makes edges and looks up variables. A property of every such
call, made while any tokens are parsed, is said by a backend whose calls do something else where the
property fails: that they never do is that the parser does the same over this backend. -/
structure Backend where
  terminate : BlockId → Terminator → ActM Unit
  sealBlock : BlockId → ActM Unit
  readVariable : String → BlockId → Ty → ActM ValueId

/-- The calls as the builder has them. -/
def Backend.standard [Counter] : Backend where
  terminate := fun b term => build fun B => do return ((), ← B.terminate b term)
  sealBlock := fun b => build fun B => do return ((), ← B.sealBlock b)
  readVariable := fun x b ty => build fun B => B.read x b ty

/-- The backend of the parser. -/
class HasBackend where
  backend : Backend

instance HasBackend.standard [Counter] : HasBackend := ⟨.standard⟩

variable [Counter] [HasBackend]

def newBlock : ActM BlockId := build fun B => .ok B.newBlock

def emit (b : BlockId) (ty : Ty) (kind : InstKind) : ActM ValueId := build fun B => B.emit b ty kind

def terminate : BlockId → Terminator → ActM Unit := HasBackend.backend.terminate

def sealBlock : BlockId → ActM Unit := HasBackend.backend.sealBlock

def writeVariable (x : String) (b : BlockId) (v : ValueId) : ActM Unit :=
  build fun B => .ok ((), B.writeVariable x b v)

def readVariable : String → BlockId → Ty → ActM ValueId := HasBackend.backend.readVariable

def isTerminated (b : BlockId) : ActM Bool := fun ctx => .ok (ctx.builder.isTerminated b, ctx)

def currentBlock : ActM BlockId := fun ctx => .ok (ctx.currentBlock, ctx)

/-- `ctx.current_block = b`. -/
def enterBlock (b : BlockId) : ActM Unit := fun ctx => .ok ((), { ctx with currentBlock := b })

/-- Emit into the current block. -/
def emitHere (ty : Ty) (kind : InstKind) : ActM ValueId := do
  let b ← currentBlock
  emit b ty kind

/-- `ctx.scopes.push(HashMap::new())`. -/
def pushScope : ActM Unit := fun ctx => .ok ((), { ctx with scopes := (fun _ => none) :: ctx.scopes })

/-- `ctx.scopes.pop()`. -/
def popScope : ActM Unit := fun ctx => .ok ((), { ctx with scopes := ctx.scopes.tail })

/-- `ctx.scopes.last_mut().unwrap().insert(name, ty)`. -/
def declare (name : String) (ty : Ty) : ActM Unit := fun ctx =>
  match ctx.scopes with
  | [] => Comp.panic .scopesEmpty
  | s :: rest => .ok ((), { ctx with scopes := insertAt s name (some ty) :: rest })

/-- The blocks of a short-circuit operator, and the value that decides in the first. -/
structure ShortCircuit where
  shortBlock : BlockId
  shortVal : ValueId
  join : BlockId

/-- The blocks of `lhs and ..` (`short` false) or `lhs or ..` (`short` true), with the block of the
right operand as the current one. -/
def openShortCircuit (short : Bool) (lhs : ValueId) : ActM ShortCircuit := do
  let shortBlock ← newBlock
  let rhsBlock ← newBlock
  let join ← newBlock
  let here ← currentBlock
  terminate here <|
    if short then .branch lhs shortBlock rhsBlock else .branch lhs rhsBlock shortBlock
  sealBlock shortBlock
  sealBlock rhsBlock
  let shortVal ← emit shortBlock .bool (.constBool short)
  terminate shortBlock (.jump join)
  enterBlock rhsBlock
  return ⟨shortBlock, shortVal, join⟩

/-- The join of a short-circuit operator whose right operand is `rval`. -/
def closeShortCircuit (s : ShortCircuit) (rval : ValueId) : ActM ValueId := do
  let rhsTail ← currentBlock
  terminate rhsTail (.jump s.join)
  sealBlock s.join
  let phi ← emit s.join .bool (.phi [(s.shortBlock, s.shortVal), (rhsTail, rval)])
  enterBlock s.join
  return phi

/-- The two arms of an `if` on `cond`, with the first as the current block; the other one is
returned. -/
def openIf (cond : ValueId) : ActM BlockId := do
  let thenBlock ← newBlock
  let elseBlock ← newBlock
  let here ← currentBlock
  terminate here (.branch cond thenBlock elseBlock)
  sealBlock thenBlock
  sealBlock elseBlock
  enterBlock thenBlock
  return elseBlock

/-- The end of an `if` whose first arm ends in `thenTail`, in the block the other arm ends in. -/
def closeIf (thenTail : BlockId) (thenTerminated elseTerminated : Bool) : ActM Unit := do
  let elseTail ← currentBlock
  if thenTerminated ∧ elseTerminated then
    -- a join block would have no predecessor and no terminator
    enterBlock thenTail
  else do
    let join ← newBlock
    if thenTerminated = false then terminate thenTail (.jump join)
    if elseTerminated = false then terminate elseTail (.jump join)
    sealBlock join
    enterBlock join

/-- The header of a `while`, as the current block. -/
def openWhile : ActM BlockId := do
  let header ← newBlock
  let here ← currentBlock
  terminate here (.jump header)
  enterBlock header
  return header

/-- The body and the exit of a `while` on `cond`, with the body as the current block. -/
def openBody (header : BlockId) (cond : ValueId) : ActM BlockId := do
  let body ← newBlock
  let exit ← newBlock
  terminate header (.branch cond body exit)
  sealBlock body
  sealBlock exit
  enterBlock body
  return exit

/-- The end of a `while`, in the block its body ends in. -/
def closeWhile (header exit : BlockId) : ActM Unit := do
  let bodyTail ← currentBlock
  if (← isTerminated bodyTail) = false then terminate bodyTail (.jump header)
  sealBlock header
  enterBlock exit

end Actions

/-! The calls, where the backend is the builder. -/

theorem terminate_eq [Counter] (b : BlockId) (term : Terminator) :
    terminate b term = build fun B => do return ((), ← B.terminate b term) := rfl

theorem sealBlock_eq [Counter] (b : BlockId) :
    sealBlock b = build fun B => do return ((), ← B.sealBlock b) := rfl

theorem readVariable_eq [Counter] (x : String) (b : BlockId) (ty : Ty) :
    readVariable x b ty = build fun B => B.read x b ty := rfl

/-! ### Expressions -/

/-- The parser of an expression: its value and type. -/
abbrev ExprM : Type := BodyM (ValueId × Ty)

section Expr

variable [Counter] [HasBackend]

/-- The loop of `parse_or` and `parse_and` over the operators `kind`; a left operand `short`
decides. -/
def shortCircuitLoop (kind : TokenKind) (short : Bool) (operand : ExprM) :
    ℕ → ValueId × Ty → ExprM
  | 0, _ => outOfFuel
  | n + 1, (lhs, lty) => do
    let t ← peek
    if t.kind = kind then do
      let _ ← advance
      checkTy .bool lty t.span
      let s ← act (openShortCircuit short lhs)
      let (rval, rty) ← operand
      checkTy .bool rty t.span
      let phi ← act (closeShortCircuit s rval)
      shortCircuitLoop kind short operand n (phi, .bool)
    else return (lhs, lty)

/-- The loop of `parse_add` and `parse_mul` over the operators `ops`. -/
def arithLoop (ops : TokenKind → Option BinOp) (operand : ExprM) : ℕ → ValueId × Ty → ExprM
  | 0, _ => outOfFuel
  | n + 1, (lhs, lty) => do
    let t ← peek
    match ops t.kind with
    | none => return (lhs, lty)
    | some op => do
      let _ ← advance
      checkTy .i64 lty t.span
      let (rhs, rty) ← operand
      checkTy .i64 rty t.span
      let v ← act (emitHere .i64 (.bin op lhs rhs))
      arithLoop ops operand n (v, .i64)

/-- The loop of `parse_call` over the arguments. -/
def parseArgs (expr : ExprM) : ℕ → List (ValueId × Ty) → BodyM (List (ValueId × Ty))
  | 0, _ => outOfFuel
  | n + 1, args => do
    let arg ← expr
    let args := args ++ [arg]
    let t ← peek
    if t.kind = .comma then do
      let _ ← advance
      parseArgs expr n args
    else return args

/-- The checks of a call against the signature of its callee. -/
def checkArgs (sigs : Sigs) (name : String) (args : List (ValueId × Ty)) (span : Span) :
    ParseM Ty :=
  match sigs name with
  | none => Comp.fail (.undefinedFunction name span)
  | some sig =>
    if sig.params.length ≠ args.length then
      Comp.fail (.argCountMismatch name sig.params.length args.length span)
    else do
      forM (args.zip sig.params) fun p =>
        if p.1.2 ≠ p.2 then Comp.fail (.typeMismatch p.2 p.1.2 span) else .ok ()
      return sig.retTy.getD .i64

/-- The end of `parse_call`: the checks, and the instruction. -/
def emitCall (name : String) (args : List (ValueId × Ty)) (span : Span) : ActM (ValueId × Ty) := do
  let ctx ← get
  let retTy ← checkArgs ctx.sigs name args span
  let v ← emitHere retTy (.call name (args.map Prod.fst))
  return (v, retTy)

/-- `parse_call`. -/
def parseCall (n : ℕ) (expr : ExprM) (name : String) (span : Span) : ExprM := do
  let _ ← expect .lParen
  let t ← peek
  let args ← if t.kind ≠ .rParen then parseArgs expr n [] else pure []
  let _ ← expect .rParen
  act (emitCall name args span)

/-- A variable as an expression. -/
def readName (name : String) (span : Span) : ActM (ValueId × Ty) := do
  let ctx ← get
  match lookupVar ctx.scopes name with
  | none => fun _ => Comp.fail (.undefinedVariable name span)
  | some ty => do
    let v ← readVariable name ctx.currentBlock ty
    return (v, ty)

/-- A constant as an expression. -/
def emitConst (ty : Ty) (kind : InstKind) : ActM (ValueId × Ty) := do
  let v ← emitHere ty kind
  return (v, ty)

/-- `parse_primary`. -/
def parsePrimary (n : ℕ) (expr : ExprM) : ExprM := do
  let t ← peek
  match t.kind with
  | .int value => do
    let _ ← advance
    act (emitConst .i64 (.constI64 value))
  | .trueKw => do
    let _ ← advance
    act (emitConst .bool (.constBool true))
  | .falseKw => do
    let _ ← advance
    act (emitConst .bool (.constBool false))
  | .lParen => do
    let _ ← advance
    let e ← expr
    let _ ← expect .rParen
    return e
  | .ident name => do
    let _ ← advance
    let next ← peek
    if next.kind = .lParen then parseCall n expr name t.span
    else act (readName name t.span)
  | other => parseError (.unexpectedToken "an expression" other t.span)

/-- `parse_unary`. -/
def parseUnary (primary : ExprM) : ℕ → ExprM
  | 0 => outOfFuel
  | n + 1 => do
    let t ← peek
    if t.kind = .minus then do
      let _ ← advance
      let (v, ty) ← parseUnary primary n
      checkTy .i64 ty t.span
      let result ← act (emitHere .i64 (.un .neg v))
      return (result, .i64)
    else primary

def mulOps : TokenKind → Option BinOp
  | .star => some .mul
  | .slash => some .div
  | .percent => some .mod
  | _ => none

def addOps : TokenKind → Option BinOp
  | .plus => some .add
  | .minus => some .sub
  | _ => none

def cmpOps : TokenKind → Option BinOp
  | .eqEq => some .cmpEq
  | .notEq => some .cmpNe
  | .lt => some .cmpLt
  | .le => some .cmpLe
  | .gt => some .cmpGt
  | .ge => some .cmpGe
  | _ => none

/-- `parse_mul`. -/
def parseMul (n : ℕ) (unary : ExprM) : ExprM := do
  let lhs ← unary
  arithLoop mulOps unary n lhs

/-- `parse_add`. -/
def parseAdd (n : ℕ) (mul : ExprM) : ExprM := do
  let lhs ← mul
  arithLoop addOps mul n lhs

/-- `parse_cmp`. -/
def parseCmp (add : ExprM) : ExprM := do
  let (lhs, lty) ← add
  let t ← peek
  match cmpOps t.kind with
  | none => return (lhs, lty)
  | some op => do
    let _ ← advance
    checkTy .i64 lty t.span
    let (rhs, rty) ← add
    checkTy .i64 rty t.span
    let v ← act (emitHere .bool (.bin op lhs rhs))
    return (v, .bool)

/-- `parse_not`. -/
def parseNot (cmp : ExprM) : ℕ → ExprM
  | 0 => outOfFuel
  | n + 1 => do
    let t ← peek
    if t.kind = .notKw then do
      let _ ← advance
      let (v, ty) ← parseNot cmp n
      checkTy .bool ty t.span
      let result ← act (emitHere .bool (.un .not v))
      return (result, .bool)
    else cmp

/-- `parse_and`. -/
def parseAnd (n : ℕ) (notExpr : ExprM) : ExprM := do
  let lhs ← notExpr
  shortCircuitLoop .andKw false notExpr n lhs

/-- `parse_or`. -/
def parseOr (n : ℕ) (andExpr : ExprM) : ExprM := do
  let lhs ← andExpr
  shortCircuitLoop .orKw true andExpr n lhs

/-- `parse_expr`, with fuel for the expressions in parentheses and among arguments. -/
def parseExpr : ℕ → ExprM
  | 0 => outOfFuel
  | n + 1 =>
    parseOr n (parseAnd n (parseNot (parseCmp (parseAdd n (parseMul n
      (parseUnary (parsePrimary n (parseExpr n)) n)))) n))

end Expr

/-! ### Statements -/

section Stmt

variable [Counter] [HasBackend]

/-- `parse_let`, after `let` and the name. -/
def writeLet (name : String) (value : ValueId × Ty) : ActM Unit := do
  declare name value.2
  let b ← currentBlock
  writeVariable name b value.1

/-- `parse_let`. -/
def parseLet (n : ℕ) : BodyM Unit := do
  let _ ← expect .letKw
  let name ← expectIdent
  let _ ← expect .eq
  let value ← parseExpr n
  let _ ← expect .semicolon
  act (writeLet name value)

/-- The end of `parse_assign`. -/
def writeAssign (name : String) (value : ValueId × Ty) (span : Span) : ActM Unit := do
  let ctx ← get
  match lookupVar ctx.scopes name with
  | none => fun _ => Comp.fail (.undefinedVariable name span)
  | some expected =>
    if expected ≠ value.2 then fun _ => Comp.fail (.typeMismatch expected value.2 span)
    else writeVariable name ctx.currentBlock value.1

/-- `parse_assign`. -/
def parseAssign (n : ℕ) : BodyM Unit := do
  let t ← peek
  let name ← expectIdent
  let _ ← expect .eq
  let value ← parseExpr n
  let _ ← expect .semicolon
  act (writeAssign name value t.span)

/-- `parse_return`. -/
def parseReturn (n : ℕ) : BodyM Unit := do
  let t ← peek
  let _ ← expect .returnKw
  let ctx ← get
  match ctx.retTy with
  | some expected => do
    let (value, actual) ← parseExpr n
    checkTy expected actual t.span
    let _ ← expect .semicolon
    act do terminate (← currentBlock) (.ret (some value))
  | none => do
    let _ ← expect .semicolon
    act do terminate (← currentBlock) (.ret none)

/-- `parse_if`; `block` parses a block body. -/
def parseIf (block : BodyM Unit) : ℕ → BodyM Unit
  | 0 => outOfFuel
  | n + 1 => do
    let t ← peek
    let _ ← expect .ifKw
    let (cond, condTy) ← parseExpr n
    checkTy .bool condTy t.span
    let elseBlock ← act (openIf cond)
    block
    let thenTail ← act currentBlock
    let thenTerminated ← act (isTerminated thenTail)
    act (enterBlock elseBlock)
    let next ← peek
    let elseTerminated ←
      if next.kind = .elseKw then do
        let _ ← advance
        let afterElse ← peek
        if afterElse.kind = .ifKw then parseIf block n else block
        act do isTerminated (← currentBlock)
      else pure false
    act (closeIf thenTail thenTerminated elseTerminated)

/-- `parse_while`; `block` parses a block body. -/
def parseWhile (block : BodyM Unit) (n : ℕ) : BodyM Unit := do
  let header ← act openWhile
  let _ ← expect .whileKw
  let t ← peek
  let (cond, condTy) ← parseExpr n
  checkTy .bool condTy t.span
  let exit ← act (openBody header cond)
  block
  act (closeWhile header exit)

/-- `peek_is_assignment`. -/
def peekIsAssignment : CursorM Bool := fun toks =>
  match toks with
  | [] => Comp.panic .tokenIndex
  | t :: rest =>
    match t.kind with
    | .ident _ => .ok (rest.head?.map Token.kind == some .eq, toks)
    | _ => .ok (false, toks)

/-- An expression as a statement. -/
def parseExprStmt (n : ℕ) : BodyM Unit := do
  let _ ← parseExpr n
  let _ ← expect .semicolon

/-- `parse_statement`; `block` parses a block body. -/
def parseStatement (block : BodyM Unit) (n : ℕ) : BodyM Unit := do
  let t ← peek
  match t.kind with
  | .letKw => parseLet n
  | .ifKw => parseIf block n
  | .whileKw => parseWhile block n
  | .returnKw => parseReturn n
  | .ident _ => do
    if ← peekIsAssignment then parseAssign n else parseExprStmt n
  | _ => parseExprStmt n

/-- The loop of `parse_block_body`. -/
def blockLoop (statement : BodyM Unit) : ℕ → BodyM Unit
  | 0 => outOfFuel
  | n + 1 => do
    let t ← peek
    if t.kind ≠ .rBrace then do
      let terminated ← act do isTerminated (← currentBlock)
      if terminated then parseError (.unreachableCode t.span)
      statement
      blockLoop statement n

/-- `parse_block_body`, with fuel for the blocks inside. -/
def parseBlockBody : ℕ → BodyM Unit
  | 0 => outOfFuel
  | n + 1 => do
    let _ ← expect .lBrace
    act pushScope
    blockLoop (parseStatement (parseBlockBody n) n) n
    let _ ← expect .rBrace
    act popScope

end Stmt

/-! ### The two passes -/

section Module

variable [Counter] [HasBackend]

/-- The context in which the body of a function is parsed. -/
def FnContext.new (h : FnHeader) (sigs : Sigs) : FnContext where
  builder := SsaBuilder.new h.name h.params h.retTy
  scopes := [fun x => (h.params.reverse.find? fun p => p.1 == x).map Prod.snd]
  currentBlock := 0
  retTy := h.retTy
  sigs := sigs

/-- `parse_function`. -/
def parseFunction (n : ℕ) (sigs : Sigs) : CursorM Function := do
  let h ← parseFnHeader n
  let ((), ctx) ← parseBlockBody n (FnContext.new h sigs)
  return ctx.builder.func

/-- The first pass of `parse_module`: the signatures, and where each function starts. -/
def scanSignatures : ℕ → Sigs → List (List Token) → CursorM (Sigs × List (List Token))
  | 0, _, _ => outOfFuel
  | n + 1, sigs, starts => do
    let t ← peek
    if t.kind ≠ .eof then do
      let start ← get
      let h ← parseFnHeader n
      if (sigs h.name).isSome then parseError (.duplicateFunction h.name)
      skipBlock n
      scanSignatures n (insertAt sigs h.name (some ⟨h.params.map Prod.snd, h.retTy⟩))
        (starts ++ [start])
    else return (sigs, starts)

/-- The second pass of `parse_module`: the functions, each from where it starts. -/
def parseFunctions (n : ℕ) (sigs : Sigs) : List (List Token) → CursorM (List Function)
  | [] => pure []
  | start :: starts => do
    set start
    let f ← parseFunction n sigs
    let fs ← parseFunctions n sigs starts
    return f :: fs

/-- `parse_module`. -/
def parseModule (n : ℕ) : CursorM Module := do
  let (sigs, starts) ← scanSignatures n (fun _ => none) []
  let functions ← parseFunctions n sigs starts
  return ⟨functions⟩

/-- `lex`, with its faults as the parser's. -/
def lexTokens (source : String) : ParseM (List Token) :=
  match Lexer.lex source with
  | .ok tokens => .ok tokens
  | .error (.err e) => Comp.fail (.lex e)
  | .error (.panic p) => Comp.panic (.lex p)
  | .error .outOfFuel => .error .outOfFuel

/-- `parse`. -/
def parse (source : String) : ParseM Module := do
  let tokens ← lexTokens source
  let (M, _) ← parseModule (tokens.length + 1) tokens
  return M

end Module

/-- `parse`, with values and blocks numbered as in the source. -/
def parse32 (source : String) : ParseM Module := @parse .u32 (@HasBackend.standard .u32) source

end Parser
end Chakobsa
