import Chakobsa.Parser.Parser

/-!
# The parser over other builder calls

The parser makes edges and looks up variables through a backend, which is the builder
(`Backend.standard`). Here its functions get the names they have over any other backend.
-/

namespace Chakobsa
namespace Parser

open Ir Lexer

namespace Backend

variable (K : Backend)

/-! ### Actions -/

def openShortCircuit : Bool → ValueId → ActM ShortCircuit := @Parser.openShortCircuit _ ⟨K⟩

def closeShortCircuit : ShortCircuit → ValueId → ActM ValueId := @Parser.closeShortCircuit _ ⟨K⟩

def openIf : ValueId → ActM BlockId := @Parser.openIf _ ⟨K⟩

def closeIf : BlockId → Bool → Bool → ActM Unit := @Parser.closeIf _ ⟨K⟩

def openWhile : ActM BlockId := @Parser.openWhile _ ⟨K⟩

def openBody : BlockId → ValueId → ActM BlockId := @Parser.openBody _ ⟨K⟩

def closeWhile : BlockId → BlockId → ActM Unit := @Parser.closeWhile ⟨K⟩

def readName : String → Span → ActM (ValueId × Ty) := @Parser.readName ⟨K⟩

/-! ### Expressions -/

def shortCircuitLoop : TokenKind → Bool → ExprM → ℕ → ValueId × Ty → ExprM :=
  @Parser.shortCircuitLoop _ ⟨K⟩

def parsePrimary : ℕ → ExprM → ExprM := @Parser.parsePrimary _ ⟨K⟩

def parseAnd : ℕ → ExprM → ExprM := @Parser.parseAnd _ ⟨K⟩

def parseOr : ℕ → ExprM → ExprM := @Parser.parseOr _ ⟨K⟩

def parseExpr : ℕ → ExprM := @Parser.parseExpr _ ⟨K⟩

/-! ### Statements -/

def parseLet : ℕ → BodyM Unit := @Parser.parseLet _ ⟨K⟩

def parseAssign : ℕ → BodyM Unit := @Parser.parseAssign _ ⟨K⟩

def parseReturn : ℕ → BodyM Unit := @Parser.parseReturn _ ⟨K⟩

def parseIf : BodyM Unit → ℕ → BodyM Unit := @Parser.parseIf _ ⟨K⟩

def parseWhile : BodyM Unit → ℕ → BodyM Unit := @Parser.parseWhile _ ⟨K⟩

def parseExprStmt : ℕ → BodyM Unit := @Parser.parseExprStmt _ ⟨K⟩

def parseStatement : BodyM Unit → ℕ → BodyM Unit := @Parser.parseStatement _ ⟨K⟩

def parseBlockBody : ℕ → BodyM Unit := @Parser.parseBlockBody _ ⟨K⟩

/-! ### The two passes -/

def parseFunction : ℕ → Sigs → CursorM Function := @Parser.parseFunction _ ⟨K⟩

def parseFunctions : ℕ → Sigs → List (List Token) → CursorM (List Function) :=
  @Parser.parseFunctions _ ⟨K⟩

def parseModule : ℕ → CursorM Module := @Parser.parseModule _ ⟨K⟩

def parse : String → ParseM Module := @Parser.parse _ ⟨K⟩

end Backend

end Parser
end Chakobsa
