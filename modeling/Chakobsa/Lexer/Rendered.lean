import Chakobsa.Lexer.Lossless

/-!
# Rendering and lexing again

Tokens written one after the other, with white space and comments between them, are read back:
`lex_render`. A separator begins with a white space character, which no token goes on with, so the
text of a token ends where it was written to end whatever comes later.
-/

namespace Chakobsa
namespace Lexer

open Ir

/-- The text a token is written as. -/
def lexeme : TokenKind → List Char
  | .ident name => name.toList
  | .int n => (toString n.toNat).toList
  | .trueKw => ['t', 'r', 'u', 'e']
  | .falseKw => ['f', 'a', 'l', 's', 'e']
  | .letKw => ['l', 'e', 't']
  | .fnKw => ['f', 'n']
  | .ifKw => ['i', 'f']
  | .elseKw => ['e', 'l', 's', 'e']
  | .whileKw => ['w', 'h', 'i', 'l', 'e']
  | .returnKw => ['r', 'e', 't', 'u', 'r', 'n']
  | .andKw => ['a', 'n', 'd']
  | .orKw => ['o', 'r']
  | .notKw => ['n', 'o', 't']
  | .i64Kw => ['i', '6', '4']
  | .boolKw => ['b', 'o', 'o', 'l']
  | .plus => ['+']
  | .minus => ['-']
  | .star => ['*']
  | .slash => ['/']
  | .percent => ['%']
  | .eqEq => ['=', '=']
  | .notEq => ['!', '=']
  | .lt => ['<']
  | .le => ['<', '=']
  | .gt => ['>']
  | .ge => ['>', '=']
  | .eq => ['=']
  | .lParen => ['(']
  | .rParen => [')']
  | .lBrace => ['\x7b']
  | .rBrace => ['\x7d']
  | .comma => [',']
  | .semicolon => [';']
  | .colon => [':']
  | .arrow => ['-', '>']
  | .eof => []

/-- The tokens a source can have: an integer fits into an `i64` and has no sign, a name is made of
the characters of names and is not reserved, and `Eof` is none. -/
def Lexical : TokenKind → Prop
  | .int n => n.toNat < 2 ^ 63
  | .ident name => keyword name = none ∧
      ∃ c cs, name.toList = c :: cs ∧ startsName c = true ∧ ∀ d ∈ cs, inName d = true
  | .eof => False
  | _ => True

/-- What may stand between two tokens: white space, then white space and comments. -/
def Separator (cs : List Char) : Prop := ∃ c rest, cs = c :: rest ∧ isSpace c = true ∧ Blank rest

/-- Tokens written one after the other; a space stands for a separator that is not given. -/
def render : List TokenKind → List (List Char) → List Char
  | [], _ => []
  | [kind], _ => lexeme kind
  | kind :: kinds, [] => lexeme kind ++ (' ' :: render kinds [])
  | kind :: kinds, sep :: seps => lexeme kind ++ (sep ++ render kinds seps)

section Lexemes

variable {kind : TokenKind} {c : Char} {pos : ℕ} {cs gap : List Char} {tokens : List Token}

/-- No token goes on with white space. -/
theorem goesOn_space (hc : isSpace c = true) : goesOn kind c = false := by
  have hc' := isSpace_iff.mp hc
  have hdigit : c.isDigit = false := by
    rw [← Bool.not_eq_true, isDigit_iff]
    omega
  have hname : inName c = false := by
    rw [← Bool.not_eq_true, inName_iff, startsName_iff, hdigit]
    simp only [Bool.false_eq_true, or_false]
    omega
  have hne : ∀ d : Char, 32 < d.toNat → (c == d) = false := by
    rintro d hd
    rw [beq_eq_false_iff_ne]
    rintro rfl
    omega
  cases kind <;> first | exact hname | exact hdigit | rfl | exact hne _ (by decide)

/-- The decimal digits of a number. -/
theorem int_spells {n : I64} (hn : n.toNat < 2 ^ 63) : Spells (.int n) (toString n.toNat).toList := by
  have hdigits : (toString n.toNat).toList = Nat.toDigits 10 n.toNat := by
    rw [Nat.toString_eq_repr, Nat.repr, String.toList_ofList]
  have hvalue : Nat.ofDigitChars 10 (Nat.toDigits 10 n.toNat) 0 = n.toNat :=
    Nat.ofDigitChars_ten_toDigits
  have h := @Spells.int (Nat.toDigits 10 n.toNat) Nat.toDigits_ne_nil
    (fun d hd => Nat.isDigit_of_mem_toDigits (by decide) (by decide) hd) (by rw [hvalue]; exact hn)
  rw [hvalue, BitVec.ofNat_toNat, BitVec.setWidth_eq] at h
  rw [hdigits]
  exact h

theorem keyword_spells (hkey : keyword (String.ofList (c :: cs)) = some kind)
    (hc : startsName c = true) (hcs : cs.all inName = true) : Spells kind (c :: cs) := by
  have hspells := Spells.word hc (List.all_eq_true.mp hcs)
  rw [hkey] at hspells
  exact hspells

/-- The text a token is written as is a text of it. -/
theorem lexeme_spells (h : Lexical kind) : Spells kind (lexeme kind) := by
  cases kind with
  | ident name =>
    obtain ⟨hkey, c, cs, hname, hc, hcs⟩ := h
    have hspells := Spells.word hc hcs
    rw [← hname, String.ofList_toList, hkey] at hspells
    exact hspells
  | int n => exact int_spells h
  | eof => exact h.elim
  | trueKw | falseKw | letKw | fnKw | ifKw | elseKw | whileKw | returnKw | andKw | orKw | notKw
  | i64Kw | boolKw => exact keyword_spells rfl rfl rfl
  | _ => exact .mark (by decide)

/-- Blank text before a text that has been cut. -/
theorem Cuts.blank (hgap : Blank gap) (h : Cuts (pos + size gap) cs tokens) :
    Cuts pos (gap ++ cs) tokens := by
  induction hgap generalizing pos with
  | nil => exact h
  | @space c gap hc _ ih =>
    refine .space hc (ih ?_)
    rw [size_space _ hc] at h
    rwa [Nat.add_right_comm, Nat.add_assoc]
  | @comment body gap hbody _ ih =>
    rw [List.append_assoc]
    refine .comment hbody (ih ?_)
    rw [size_append, size_space _ (c := '\n') (by decide)] at h
    rw [show pos + size ('/' :: '/' :: body) + 1 + size gap =
      pos + (size ('/' :: '/' :: body) + (size gap + 1)) by omega]
    exact h

end Lexemes

theorem Separator.blank {sep : List Char} (h : Separator sep) : Blank sep := by
  obtain ⟨c, rest, rfl, hc, hrest⟩ := h
  exact .space hc hrest

/-- No token goes on with a separator. -/
theorem Separator.stops {kind : TokenKind} {sep rest : List Char} (h : Separator sep) :
    Stops kind (sep ++ rest) := by
  obtain ⟨c, cs, rfl, hc, -⟩ := h
  intro d hd
  obtain rfl := Option.some.inj hd
  exact goesOn_space hc

theorem render_cuts {kinds : List TokenKind} {seps : List (List Char)} (pos : ℕ)
    (hk : ∀ k ∈ kinds, Lexical k) (hs : ∀ sep ∈ seps, Separator sep) :
    ∃ tokens, Cuts pos (render kinds seps) tokens ∧ tokens.map Token.kind = kinds ++ [.eof] := by
  induction kinds generalizing seps pos with
  | nil => exact ⟨_, .nil, rfl⟩
  | cons kind kinds ih =>
    have hspells := lexeme_spells (hk kind List.mem_cons_self)
    cases kinds with
    | nil =>
      have hcut := @Cuts.token pos _ _ _ _ hspells (by simp [Stops]) .nil
      rw [List.append_nil] at hcut
      exact ⟨_, hcut, rfl⟩
    | cons next kinds =>
      have hstep : ∀ sep seps', Separator sep → (∀ s ∈ seps', Separator s) →
          ∃ tokens, Cuts pos (lexeme kind ++ (sep ++ render (next :: kinds) seps')) tokens ∧
            tokens.map Token.kind = kind :: next :: kinds ++ [.eof] := by
        intro sep seps' hsep hseps
        obtain ⟨tokens, hcut, hkinds⟩ := ih (pos + size (lexeme kind) + size sep)
          (fun k h => hk k (List.mem_cons_of_mem _ h)) hseps
        exact ⟨_, .token hspells hsep.stops (.blank hsep.blank hcut), congrArg (kind :: ·) hkinds⟩
      cases seps with
      | nil => exact hstep [' '] [] ⟨' ', [], rfl, rfl, .nil⟩ (by simp)
      | cons sep seps =>
        exact hstep sep seps (hs sep List.mem_cons_self) fun s h => hs s (List.mem_cons_of_mem _ h)

/-- Rendering tokens and lexing them again gives the same tokens. -/
theorem lex_render {kinds : List TokenKind} {seps : List (List Char)}
    (hk : ∀ k ∈ kinds, Lexical k) (hs : ∀ sep ∈ seps, Separator sep) :
    ∃ tokens, lex (String.ofList (render kinds seps)) = .ok tokens ∧
      tokens.map Token.kind = kinds ++ [.eof] := by
  obtain ⟨tokens, hcut, hkinds⟩ := render_cuts 0 hk hs
  exact ⟨tokens, hcut.lexed, hkinds⟩

theorem lex_render_let : ∃ tokens, lex (String.ofList (render [.letKw, .ident "x", .slash, .int 7]
    [['\t'], ['\n', '/', '/', 'é', '\n', ' '], [' ']])) = .ok tokens ∧
      tokens.map Token.kind = [.letKw, .ident "x", .slash, .int 7] ++ [.eof] := by
  refine lex_render (fun k hk => ?_) fun sep hs => ?_
  · simp only [List.mem_cons, List.not_mem_nil, or_false] at hk
    rcases hk with rfl | rfl | rfl | rfl
    · trivial
    · exact ⟨rfl, 'x', [], rfl, rfl, by simp⟩
    · trivial
    · show (7 : I64).toNat < 2 ^ 63
      decide
  · simp only [List.mem_cons, List.not_mem_nil, or_false] at hs
    rcases hs with rfl | rfl | rfl
    · exact ⟨'\t', [], rfl, rfl, .nil⟩
    · exact ⟨'\n', _, rfl, rfl, .comment (show '\n' ∉ ['é'] by decide) (.space rfl .nil)⟩
    · exact ⟨' ', [], rfl, rfl, .nil⟩

end Lexer
end Chakobsa
