import Chakobsa.Lexer.Lossless

/-!
# What an error of the lexer says

`cut_or_stuck` finds the place an error is about: pieces of the source lead to it, and there is no
piece at the front of what is left. The text before that place is lexed without an error, because
a token that the source does not go on with is not gone on with at the end of a text either.

An `unexpectedChar` carries the first byte of the character as a character. Above ASCII that is
another character, with the exception of `Ã`, whose first byte is its own code. `lexErrors_iff`
says that this is the only way in which an error is wrong.
-/

namespace Chakobsa
namespace Lexer

/-- The byte offset an error carries. -/
def LexError.pos : LexError → ℕ
  | .unexpectedChar _ pos | .integerOverflow pos | .loneBang pos => pos

/-- The error is right about the source: its offset is a character boundary, the text before it
is lexed, and what starts there is what the error says. -/
def Faithful (source : String) (e : LexError) : Prop :=
  ∃ before after : String, source = before ++ after ∧ before.utf8ByteSize = e.pos ∧
    (∃ tokens, lex before = .ok tokens) ∧
    match e with
    | .unexpectedChar ch _ => after.toList.head? = some ch ∧ StartsNothing ch
    | .loneBang _ => ∃ rest, after.toList = '!' :: rest ∧ rest.head? ≠ some '='
    | .integerOverflow _ =>
      2 ^ 63 ≤ Nat.ofDigitChars 10 (after.toList.takeWhile Char.isDigit) 0

/-- Cutting the source from its start into white space, comments and tokens never leads to a
character above ASCII other than `Ã`. -/
def LeadsToAscii (source : String) : Prop :=
  ∀ before c after, source.toList = before ++ c :: after → Pieces (c :: after) before →
    128 ≤ c.toNat → c = 'Ã'

section Places

variable {before rest cs ds cs' ds' : List Char} {c : Char} {e : ℕ → LexError}

/-- The pieces alone are a text that is cut into tokens. -/
theorem Pieces.cuts (h : Pieces rest before) (pos : ℕ) : ∃ tokens, Cuts pos before tokens := by
  induction h generalizing pos with
  | nil => exact ⟨_, .nil⟩
  | space hc _ ih =>
    obtain ⟨tokens, hcut⟩ := ih (pos + 1)
    exact ⟨tokens, .space hc hcut⟩
  | @comment body cs hbody _ ih =>
    obtain ⟨tokens, hcut⟩ := ih (pos + size ('/' :: '/' :: body) + 1)
    exact ⟨tokens, .comment hbody hcut⟩
  | @token kind text cs hs hstop _ ih =>
    obtain ⟨tokens, hcut⟩ := ih (pos + size text)
    have hstop' : Stops kind cs := by
      intro c hc
      cases cs with
      | nil => cases hc
      | cons d ds => exact hstop c hc
    exact ⟨_, .token hs hstop' hcut⟩

theorem eq_nil_of_size (h : size cs = 0) : cs = [] := by
  cases cs with
  | nil => rfl
  | cons c cs =>
    rw [size, utf8_cons, List.length_append, String.length_utf8EncodeChar] at h
    exact absurd c.utf8Size_pos (by omega)

/-- A text is split in one way at an offset. -/
theorem split_unique (h : cs ++ ds = cs' ++ ds') (hsize : size cs = size cs') :
    cs = cs' ∧ ds = ds' := by
  obtain ⟨as, rfl, rfl⟩ | ⟨as, rfl, rfl⟩ := List.append_eq_append_iff.mp h
  · rw [size_append] at hsize
    obtain rfl := @eq_nil_of_size as (by omega)
    exact ⟨(List.append_nil _).symm, rfl⟩
  · rw [size_append] at hsize
    obtain rfl := @eq_nil_of_size as (by omega)
    exact ⟨List.append_nil _, rfl⟩

/-- Above ASCII only `Ã` is the character of its first byte. -/
theorem leadByte_eq (hc : 128 ≤ c.toNat) (h : byteChar (leadByte c) = c) : c = 'Ã' := by
  have hall : ∀ n < 256, 128 ≤ (Char.ofNat n).toNat →
      byteChar (leadByte (Char.ofNat n)) = Char.ofNat n → Char.ofNat n = 'Ã' := by
    decide +kernel
  have hofNat : Char.ofNat (leadByte c).toNat = c := h
  have hlead := hall (leadByte c).toNat (leadByte c).toNat_lt
  rw [hofNat] at hlead
  exact hlead hc h

/-- The error of a text without a piece at its front is right, unless it is about a character
above ASCII other than `Ã`. -/
theorem StuckWith.faithful (h : StuckWith rest e) (hp : Pieces rest before)
    (hhigh : ∀ c cs, rest = c :: cs → 128 ≤ c.toNat → c = 'Ã') :
    Faithful (String.ofList (before ++ rest)) (e (size before)) := by
  obtain ⟨tokens, hcut⟩ := hp.cuts 0
  refine ⟨String.ofList before, String.ofList rest, String.ofList_append, ?_, ⟨tokens, ?_⟩, ?_⟩
  · rw [size_ofList]
    cases h <;> rfl
  · rwa [lex_iff, String.toList_ofList]
  · rw [String.toList_ofList]
    cases h with
    | @char c cs hc =>
      have hlead : byteChar (leadByte c) = c := by
        by_cases hlow : c.toNat < 128
        · rw [leadByte_ascii hlow, byteChar_charByte hlow]
        · obtain rfl := hhigh c cs rfl (Nat.le_of_not_lt hlow)
          decide
      simp only [hlead]
      exact ⟨rfl, hc⟩
    | bang hhead => exact ⟨_, rfl, hhead⟩
    | @overflow ds cs _ hds hcs hge =>
      have htake : (ds ++ cs).takeWhile Char.isDigit = ds := by
        rw [List.takeWhile_append_of_pos hds]
        cases cs with
        | nil => simp
        | cons c cs => simp [hcs c rfl]
      simp only [htake]
      exact hge

end Places

/-- **Lexical errors are faithful**, for exactly the sources whose first error is not at a
character above ASCII other than `Ã`. -/
theorem lexErrors_iff (source : String) :
    (∀ e, lex source = Comp.fail e → Faithful source e) ↔ LeadsToAscii source := by
  constructor
  · intro h before c after hsource hp hc
    have hlex : lex source = Comp.fail (.unexpectedChar (byteChar (leadByte c)) (size before)) := by
      have hloop := @lexLoop_pieces _ 0 _ _ _ hp (.char (startsNothing_high hc)) (Nat.le_refl _)
      rwa [lex_eq, hsource, ← Nat.zero_add (size before)]
    obtain ⟨before', after', rfl, hpos, -, hch, -⟩ := h _ hlex
    -- the error names the place before `c`, so the character it should name is `c`
    rw [String.toList_append] at hsource
    have hsize : size before'.toList = size before := (utf8_length before').trans hpos
    obtain ⟨-, hafter⟩ := split_unique hsource hsize
    rw [hafter, List.head?_cons, Option.some_inj] at hch
    exact leadByte_eq hc hch.symm
  · intro h e he
    rcases lexLoop_cases 0 (Nat.le_refl (size source.toList)) with
      ⟨tokens, hok, -⟩ | ⟨before, rest, e', hsource, hp, hstuck, herr⟩
    · rw [lex_eq, hok] at he
      cases he
    · rw [lex_eq, herr, Nat.zero_add] at he
      obtain rfl : e' (size before) = e := by simpa [Comp.fail] using he
      have hfaithful := hstuck.faithful hp fun c cs hrest => by
        subst hrest
        exact h before c cs hsource hp
      rwa [← hsource, String.ofList_toList] at hfaithful

/-- The first byte of `é` is the code of `Ã`, and the error names `Ã`. -/
theorem lexErrors_e :
    lex "é" = Comp.fail (.unexpectedChar 'Ã' 0) ∧ ¬ Faithful "é" (.unexpectedChar 'Ã' 0) := by
  have hlex : lex "é" = Comp.fail (.unexpectedChar 'Ã' 0) := by rfl
  refine ⟨hlex, ?_⟩
  rintro ⟨before, after, heq, hpos, -, hhead, -⟩
  have hbefore : before.toList = [] := eq_nil_of_size ((utf8_length before).trans hpos)
  have hafter : after.toList = ['é'] := by
    have := congrArg String.toList heq
    rw [String.toList_append, hbefore] at this
    exact this.symm
  rw [hafter, List.head?_cons, Option.some_inj] at hhead
  exact absurd hhead (by decide)

end Lexer
end Chakobsa
