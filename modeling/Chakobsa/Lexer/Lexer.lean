import Chakobsa.Ir.Syntax
import Chakobsa.Lib.Fault
import Mathlib.Algebra.Group.Nat.Defs

/-!
# The lexer

`crates/lexer/src/lib.rs`: source text to a flat list of tokens, each with its byte span. The
source scans bytes and takes each byte for the character of that code, so `bytes[pos] as char` is
a byte here too, and the character of an `unexpectedChar` is that of the byte. Instead of an index
into the text the model keeps what is left of the bytes, and the offset for the spans. Slicing the
text panics in the source when an end is inside a character; `slice` keeps that panic.
-/

namespace Chakobsa
namespace Lexer

open Ir

/-- A byte-offset range into the source text, `[start, stop)`. -/
structure Span where
  start : ℕ
  stop : ℕ
  deriving DecidableEq, Repr

inductive TokenKind where
  -- Literals and identifiers.
  | ident (name : String)
  | int (n : I64)
  | trueKw | falseKw
  -- Keywords.
  | letKw | fnKw | ifKw | elseKw | whileKw | returnKw | andKw | orKw | notKw | i64Kw | boolKw
  -- Operators.
  | plus | minus | star | slash | percent
  | eqEq | notEq | lt | le | gt | ge | eq
  -- Punctuation.
  | lParen | rParen | lBrace | rBrace | comma | semicolon | colon | arrow
  | eof
  deriving DecidableEq, Repr

/-- `Display` of a token kind. -/
def TokenKind.display : TokenKind → String
  | .ident name => "identifier '" ++ name ++ "'"
  | .int n => "integer " ++ toString n.toInt
  | .trueKw => "'true'"
  | .falseKw => "'false'"
  | .letKw => "'let'"
  | .fnKw => "'fn'"
  | .ifKw => "'if'"
  | .elseKw => "'else'"
  | .whileKw => "'while'"
  | .returnKw => "'return'"
  | .andKw => "'and'"
  | .orKw => "'or'"
  | .notKw => "'not'"
  | .i64Kw => "'i64'"
  | .boolKw => "'bool'"
  | .plus => "'+'"
  | .minus => "'-'"
  | .star => "'*'"
  | .slash => "'/'"
  | .percent => "'%'"
  | .eqEq => "'=='"
  | .notEq => "'!='"
  | .lt => "'<'"
  | .le => "'<='"
  | .gt => "'>'"
  | .ge => "'>='"
  | .eq => "'='"
  | .lParen => "'('"
  | .rParen => "')'"
  | .lBrace => "'\x7b'"
  | .rBrace => "'\x7d'"
  | .comma => "','"
  | .semicolon => "';'"
  | .colon => "':'"
  | .arrow => "'->'"
  | .eof => "end of input"

structure Token where
  kind : TokenKind
  span : Span
  deriving DecidableEq, Repr

inductive LexError where
  | unexpectedChar (ch : Char) (pos : ℕ)
  | integerOverflow (pos : ℕ)
  | loneBang (pos : ℕ)
  deriving DecidableEq, Repr

/-- The panic of the lexer: a slice of the text that ends inside a character. -/
inductive LexPanic where
  | notCharBoundary
  deriving DecidableEq, Repr

abbrev LexM (α : Type) : Type := Comp LexError LexPanic α

/-- `byte as char`. -/
def byteChar (b : UInt8) : Char := Char.ofNat b.toNat

/-- `char::is_whitespace` on a byte. -/
def isWhitespace (b : UInt8) : Bool :=
  (9 ≤ b.toNat && b.toNat ≤ 13) || b.toNat == 32 || b.toNat == 133 || b.toNat == 160

/-- `char::is_ascii_digit`. -/
def isAsciiDigit (b : UInt8) : Bool := 48 ≤ b.toNat && b.toNat ≤ 57

/-- `char::is_ascii_alphabetic`. -/
def isAsciiAlphabetic (b : UInt8) : Bool :=
  (65 ≤ b.toNat && b.toNat ≤ 90) || (97 ≤ b.toNat && b.toNat ≤ 122)

/-- A byte an identifier starts with. -/
def isIdentStart (b : UInt8) : Bool := isAsciiAlphabetic b || b.toNat == 95

/-- A byte an identifier goes on with. -/
def isIdentPart (b : UInt8) : Bool := isAsciiAlphabetic b || isAsciiDigit b || b.toNat == 95

/-- `str::is_char_boundary`, for the position before the bytes: not before a continuation byte. -/
def isCharBoundary : List UInt8 → Bool
  | [] => true
  | b :: _ => !(128 ≤ b.toNat && b.toNat < 192)

/-- The slice `text` of the source, followed by `rest`. -/
def slice (text rest : List UInt8) : LexM String :=
  if isCharBoundary (text ++ rest) && isCharBoundary rest then
    .ok (String.ofList (text.map byteChar))
  else
    Comp.panic .notCharBoundary

def keyword : String → Option TokenKind
  | "let" => some .letKw
  | "fn" => some .fnKw
  | "if" => some .ifKw
  | "else" => some .elseKw
  | "while" => some .whileKw
  | "return" => some .returnKw
  | "and" => some .andKw
  | "or" => some .orKw
  | "not" => some .notKw
  | "i64" => some .i64Kw
  | "bool" => some .boolKw
  | "true" => some .trueKw
  | "false" => some .falseKw
  | _ => none

/-- The value of a run of digits. -/
def digitsValue (digits : List UInt8) : ℕ :=
  digits.foldl (fun n b => 10 * n + (b.toNat - 48)) 0

/-- `str::parse::<i64>` of a run of digits: `none` above `i64::MAX`. -/
def parseI64 (digits : List UInt8) : Option I64 :=
  if digitsValue digits < 2 ^ 63 then some (BitVec.ofNat 64 (digitsValue digits)) else none

/-- An operator or a punctuation mark: its kind and length, from its first byte and the bytes
after it. -/
def symbol (pos : ℕ) (b : UInt8) (rest : List UInt8) : LexM (TokenKind × ℕ) :=
  let next (c : Char) : Bool := rest.head?.map byteChar == some c
  match byteChar b with
  | '+' => .ok (.plus, 1)
  | '-' => if next '>' then .ok (.arrow, 2) else .ok (.minus, 1)
  | '*' => .ok (.star, 1)
  | '/' => .ok (.slash, 1)
  | '%' => .ok (.percent, 1)
  | '=' => if next '=' then .ok (.eqEq, 2) else .ok (.eq, 1)
  | '!' => if next '=' then .ok (.notEq, 2) else Comp.fail (.loneBang pos)
  | '<' => if next '=' then .ok (.le, 2) else .ok (.lt, 1)
  | '>' => if next '=' then .ok (.ge, 2) else .ok (.gt, 1)
  | '(' => .ok (.lParen, 1)
  | ')' => .ok (.rParen, 1)
  | '\x7b' => .ok (.lBrace, 1)
  | '\x7d' => .ok (.rBrace, 1)
  | ',' => .ok (.comma, 1)
  | ';' => .ok (.semicolon, 1)
  | ':' => .ok (.colon, 1)
  | other => Comp.fail (.unexpectedChar other pos)

/-- The loop of `lex`, at offset `pos` with the bytes `bs` left. Every round takes a byte, so the
number of bytes is fuel enough. -/
def lexLoop : ℕ → ℕ → List UInt8 → LexM (List Token)
  | _, pos, [] => .ok [⟨.eof, ⟨pos, pos⟩⟩]
  | 0, _, _ :: _ => .error .outOfFuel
  | n + 1, pos, b :: rest =>
    if isWhitespace b then
      lexLoop n (pos + 1) rest
    else if byteChar b = '/' ∧ rest.head?.map byteChar = some '/' then
      let comment := (b :: rest).takeWhile fun c => byteChar c != '\n'
      lexLoop n (pos + comment.length) ((b :: rest).drop comment.length)
    else if isAsciiDigit b then do
      let digits := (b :: rest).takeWhile isAsciiDigit
      let after := (b :: rest).drop digits.length
      let _ ← slice digits after
      match parseI64 digits with
      | none => Comp.fail (.integerOverflow pos)
      | some value =>
        let tokens ← lexLoop n (pos + digits.length) after
        return ⟨.int value, ⟨pos, pos + digits.length⟩⟩ :: tokens
    else if isIdentStart b then do
      let name := (b :: rest).takeWhile isIdentPart
      let after := (b :: rest).drop name.length
      let text ← slice name after
      let tokens ← lexLoop n (pos + name.length) after
      return ⟨(keyword text).getD (.ident text), ⟨pos, pos + name.length⟩⟩ :: tokens
    else do
      let (kind, len) ← symbol pos b rest
      let tokens ← lexLoop n (pos + len) ((b :: rest).drop len)
      return ⟨kind, ⟨pos, pos + len⟩⟩ :: tokens

/-- `lex`. -/
def lex (source : String) : LexM (List Token) :=
  let bytes := source.toUTF8.data.toList
  lexLoop bytes.length 0 bytes

/-- A list of tokens as `lex` returns them: only the last one is `Eof`. -/
def EndsInEof (tokens : List Token) : Prop :=
  ∃ init last, tokens = init ++ [last] ∧ last.kind = .eof ∧ ∀ t ∈ init, t.kind ≠ .eof

/-- A token of the text is not `Eof`. -/
theorem symbol_ne_eof {pos len : ℕ} {b : UInt8} {rest : List UInt8} {kind : TokenKind}
    (h : symbol pos b rest = .ok (kind, len)) : kind ≠ .eof := by
  rintro rfl
  unfold symbol at h
  simp only at h
  split at h <;> first | cases h | (split at h <;> cases h)

theorem keyword_ne_eof {text : String} : (keyword text).getD (.ident text) ≠ .eof := by
  unfold keyword
  split <;> simp

theorem EndsInEof.cons {t : Token} {tokens : List Token} (ht : t.kind ≠ .eof)
    (h : EndsInEof tokens) : EndsInEof (t :: tokens) := by
  obtain ⟨init, last, rfl, hlast, hinit⟩ := h
  exact ⟨t :: init, last, rfl, hlast, by simpa [ht] using hinit⟩

/-- A token that is not the last one is followed by others. -/
theorem EndsInEof.tail {t : Token} {toks : List Token} (h : EndsInEof (t :: toks)) (ht : t.kind ≠ .eof) :
    toks ≠ [] ∧ EndsInEof toks := by
  obtain ⟨init, last, heq, hlast, hinit⟩ := h
  cases init with
  | nil =>
    obtain ⟨rfl, -⟩ := List.cons.inj heq
    exact absurd hlast ht
  | cons u init =>
    obtain ⟨-, rfl⟩ := List.cons.inj heq
    exact ⟨by simp, init, last, rfl, hlast, fun v hv => hinit v (List.mem_cons_of_mem _ hv)⟩

theorem EndsInEof.suffix {toks rest : List Token} (h : EndsInEof (toks ++ rest)) (hne : rest ≠ []) :
    EndsInEof rest := by
  induction toks with
  | nil => exact h
  | cons t toks ih =>
    have ht : t.kind ≠ .eof := by
      obtain ⟨init, last, heq, -, hinit⟩ := h
      cases init with
      | nil => simp [hne] at heq
      | cons u init =>
        obtain ⟨rfl, -⟩ := List.cons.inj heq
        exact hinit t List.mem_cons_self
    exact ih (h.tail ht).2

/-- Tokens among which there is an `Eof`: a cursor that never takes one stays inside them. -/
def HasEof (tokens : List Token) : Prop := ∃ t ∈ tokens, t.kind = .eof

theorem EndsInEof.hasEof {tokens : List Token} (h : EndsInEof tokens) : HasEof tokens := by
  obtain ⟨init, last, rfl, hlast, -⟩ := h
  exact ⟨last, by simp, hlast⟩

theorem HasEof.ne_nil {tokens : List Token} (h : HasEof tokens) : tokens ≠ [] := by
  obtain ⟨t, ht, -⟩ := h
  exact List.ne_nil_of_mem ht

theorem HasEof.tail {t : Token} {toks : List Token} (h : HasEof (t :: toks)) (ht : t.kind ≠ .eof) :
    toks ≠ [] ∧ HasEof toks := by
  obtain ⟨u, hu, heof⟩ := h
  obtain rfl | hu := List.mem_cons.mp hu
  · exact absurd heof ht
  · exact ⟨List.ne_nil_of_mem hu, u, hu, heof⟩

open ExceptLemmas in
theorem lexLoop_endsInEof {n pos : ℕ} {bs : List UInt8} {tokens : List Token}
    (h : lexLoop n pos bs = .ok tokens) : EndsInEof tokens := by
  induction n generalizing pos bs tokens with
  | zero =>
    cases bs with
    | nil =>
      obtain rfl := Except.ok.inj h
      exact ⟨[], _, rfl, rfl, by simp⟩
    | cons b rest => cases h
  | succ n ih =>
    cases bs with
    | nil =>
      obtain rfl := Except.ok.inj h
      exact ⟨[], _, rfl, rfl, by simp⟩
    | cons b rest =>
      rw [lexLoop] at h
      split at h
      · exact ih h
      split at h
      · exact ih h
      split at h
      · obtain ⟨_, -, h⟩ := bind_eq_ok.mp h
        split at h
        · cases h
        · obtain ⟨tokens', ht, h⟩ := bind_eq_ok.mp h
          obtain rfl := Except.ok.inj h
          exact (ih ht).cons (by simp)
      split at h
      · obtain ⟨text, -, h⟩ := bind_eq_ok.mp h
        obtain ⟨tokens', ht, h⟩ := bind_eq_ok.mp h
        obtain rfl := Except.ok.inj h
        exact (ih ht).cons keyword_ne_eof
      · obtain ⟨⟨kind, len⟩, hs, h⟩ := bind_eq_ok.mp h
        obtain ⟨tokens', ht, h⟩ := bind_eq_ok.mp h
        obtain rfl := Except.ok.inj h
        exact (ih ht).cons (symbol_ne_eof hs)

/-- `lex` ends its tokens with the only `Eof`. -/
theorem lex_endsInEof {source : String} {tokens : List Token} (h : lex source = .ok tokens) :
    EndsInEof tokens := lexLoop_endsInEof h

end Lexer
end Chakobsa
