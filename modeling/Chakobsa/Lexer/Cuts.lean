import Chakobsa.Lexer.Utf8
import Mathlib.Data.List.TakeWhile

/-!
# How a text is cut into tokens

`Spells kind text` says which texts are tokens of a kind, and `Stops kind rest` that the text
after such a token does not go on with it. `Cuts` cuts a text into tokens, white space and
comments with them, without fuel, bytes or slices. `lex_iff` is the connection with the source:
`lex` returns the tokens of the cut, and nothing else; `lex_total` adds that it always ends and
never panics.
-/

namespace Chakobsa
namespace Lexer

open Ir ExceptLemmas

/-- The operators and punctuation marks. -/
def marks : List (List Char × TokenKind) :=
  [(['+'], .plus), (['-'], .minus), (['*'], .star), (['/'], .slash), (['%'], .percent),
    (['=', '='], .eqEq), (['!', '='], .notEq), (['<'], .lt), (['<', '='], .le), (['>'], .gt),
    (['>', '='], .ge), (['='], .eq), (['('], .lParen), ([')'], .rParen), (['\x7b'], .lBrace),
    (['\x7d'], .rBrace), ([','], .comma), ([';'], .semicolon), ([':'], .colon),
    (['-', '>'], .arrow)]

/-- The texts of the tokens of a kind. -/
inductive Spells : TokenKind → List Char → Prop where
  | int {ds : List Char} : ds ≠ [] → (∀ c ∈ ds, c.isDigit = true) → Nat.ofDigitChars 10 ds 0 < 2 ^ 63 →
      Spells (.int (BitVec.ofNat 64 (Nat.ofDigitChars 10 ds 0))) ds
  | word {c : Char} {cs : List Char} : startsName c = true → (∀ d ∈ cs, inName d = true) →
      Spells ((keyword (String.ofList (c :: cs))).getD (.ident (String.ofList (c :: cs)))) (c :: cs)
  | mark {kind : TokenKind} {text : List Char} : (text, kind) ∈ marks → Spells kind text

/-- A token of the kind takes a following `c` in. -/
def goesOn : TokenKind → Char → Bool
  | .int _, c => c.isDigit
  | .minus, c => c == '>'
  | .slash, c => c == '/'
  | .eq, c | .lt, c | .gt, c => c == '='
  | .plus, _ | .star, _ | .percent, _ | .eqEq, _ | .notEq, _ | .le, _ | .ge, _ | .lParen, _
  | .rParen, _ | .lBrace, _ | .rBrace, _ | .comma, _ | .semicolon, _ | .colon, _ | .arrow, _
  | .eof, _ => false
  -- names and keywords
  | _, c => inName c

/-- What follows a token is not taken into it. -/
def Stops (kind : TokenKind) (rest : List Char) : Prop := ∀ c ∈ rest.head?, goesOn kind c = false

/-- The length in bytes. -/
def size (cs : List Char) : ℕ := (utf8 cs).length

/-- A text, from the offset `pos` on, cut into tokens. -/
inductive Cuts : ℕ → List Char → List Token → Prop where
  | nil {pos : ℕ} : Cuts pos [] [⟨.eof, ⟨pos, pos⟩⟩]
  | space {pos : ℕ} {c : Char} {cs : List Char} {tokens : List Token} : isSpace c = true →
      Cuts (pos + 1) cs tokens → Cuts pos (c :: cs) tokens
  | comment {pos : ℕ} {body cs : List Char} {tokens : List Token} : '\n' ∉ body →
      Cuts (pos + size ('/' :: '/' :: body) + 1) cs tokens →
      Cuts pos ('/' :: '/' :: body ++ '\n' :: cs) tokens
  | lastComment {pos : ℕ} {body : List Char} : '\n' ∉ body →
      Cuts pos ('/' :: '/' :: body)
        [⟨.eof, ⟨pos + size ('/' :: '/' :: body), pos + size ('/' :: '/' :: body)⟩⟩]
  | token {pos : ℕ} {kind : TokenKind} {text cs : List Char} {tokens : List Token} :
      Spells kind text → Stops kind cs → Cuts (pos + size text) cs tokens →
      Cuts pos (text ++ cs) (⟨kind, ⟨pos, pos + size text⟩⟩ :: tokens)

/-- The first byte of a character. -/
def leadByte (c : Char) : UInt8 := (String.utf8EncodeChar c).headD 0

/-- Nothing starts with the character: no white space, no comment and no token. -/
def StartsNothing (c : Char) : Prop :=
  isSpace c = false ∧ c ≠ '/' ∧ ∀ kind text, ¬ Spells kind (c :: text)

/-- The text has no piece at its front: the error for it, as a function of the offset. -/
inductive StuckWith : List Char → (ℕ → LexError) → Prop where
  | char {c : Char} {cs : List Char} : StartsNothing c →
      StuckWith (c :: cs) (.unexpectedChar (byteChar (leadByte c)))
  | bang {cs : List Char} : cs.head? ≠ some '=' → StuckWith ('!' :: cs) .loneBang
  | overflow {ds cs : List Char} : ds ≠ [] → (∀ c ∈ ds, c.isDigit = true) →
      (∀ c ∈ cs.head?, c.isDigit = false) → 2 ^ 63 ≤ Nat.ofDigitChars 10 ds 0 →
      StuckWith (ds ++ cs) .integerOverflow

/-- A text that is cut into pieces, `rest` being the text after it. -/
inductive Pieces (rest : List Char) : List Char → Prop where
  | nil : Pieces rest []
  | space {c : Char} {cs : List Char} : isSpace c = true → Pieces rest cs → Pieces rest (c :: cs)
  | comment {body cs : List Char} : '\n' ∉ body → Pieces rest cs →
      Pieces rest ('/' :: '/' :: body ++ '\n' :: cs)
  | token {kind : TokenKind} {text cs : List Char} : Spells kind text → Stops kind (cs ++ rest) →
      Pieces rest cs → Pieces rest (text ++ cs)

section Spelling

variable {kind : TokenKind} {text : List Char}

theorem Spells.ne_nil (h : Spells kind text) : text ≠ [] := by
  cases h with
  | int h => exact h
  | word => exact List.cons_ne_nil _ _
  | mark h =>
    rintro rfl
    revert h
    unfold marks
    simp

theorem Spells.ascii (h : Spells kind text) : ∀ c ∈ text, c.toNat < 128 := by
  cases h with
  | int _ h => exact fun c hc => isDigit_lt (h c hc)
  | word hc hcs => exact List.forall_mem_cons.mpr ⟨startsName_lt hc, fun d hd => inName_lt (hcs d hd)⟩
  | mark h =>
    have hall : ∀ m ∈ marks, (m.1.all fun c => c.toNat < 128) = true := by decide
    simpa using hall _ h

theorem Spells.ne_eof (h : Spells kind text) : kind ≠ .eof := by
  cases h with
  | int => simp
  | word => exact keyword_ne_eof
  | mark h =>
    have hall : ∀ m ∈ marks, m.2 ≠ .eof := by decide
    exact hall _ h

theorem size_append (cs ds : List Char) : size (cs ++ ds) = size cs + size ds := by
  rw [size, utf8_append, List.length_append]
  rfl

theorem size_eq_length (h : ∀ c ∈ text, c.toNat < 128) : size text = text.length :=
  utf8_length_ascii h

theorem Spells.size_pos (h : Spells kind text) : 0 < size text := by
  rw [size_eq_length h.ascii]
  exact List.length_pos_iff.mpr h.ne_nil

/-- The names that are not reserved go on with the characters of names. -/
theorem goesOn_word (s : String) (c : Char) : goesOn ((keyword s).getD (.ident s)) c = inName c := by
  unfold keyword
  split <;> rfl

theorem digitsValue_utf8 (h : ∀ c ∈ text, c.isDigit = true) :
    digitsValue (utf8 text) = Nat.ofDigitChars 10 text 0 := by
  rw [digitsValue, Nat.ofDigitChars_eq_foldl]
  generalize 0 = n
  induction text generalizing n with
  | nil => rfl
  | cons c cs ih =>
    have hc := isDigit_lt (h c List.mem_cons_self)
    rw [utf8_cons_ascii hc, List.foldl_cons, List.foldl_cons, charByte_toNat hc]
    exact ih (fun d hd => h d (List.mem_cons_of_mem _ hd)) _

end Spelling

/-! ### One round of the loop -/

section Rounds

variable {n pos : ℕ} {c : Char} {cs body text : List Char} {kind : TokenKind}

theorem lexLoop_space (h : isSpace c = true) :
    lexLoop (n + 1) pos (utf8 (c :: cs)) = lexLoop n (pos + 1) (utf8 cs) := by
  have hc := isSpace_lt h
  rw [utf8_cons_ascii hc, lexLoop, isWhitespace_charByte hc, if_pos h]

/-- The first character after some bytes. -/
theorem head_utf8 {d : Char} (hd : d.toNat < 128) :
    (utf8 cs).head?.map byteChar = some d ↔ cs.head? = some d := by
  cases cs with
  | nil => simp
  | cons c cs =>
    by_cases hc : c.toNat < 128
    · simp [utf8_cons_ascii hc, hc]
    · obtain ⟨b, bs, h, hb⟩ := utf8_high cs (Nat.le_of_not_lt hc)
      rw [h, List.head?_cons, List.head?_cons, Option.map_some, Option.some_inj, Option.some_inj]
      constructor
      · rintro rfl
        exact absurd hd (Nat.not_lt.mpr (byteChar_high (Nat.le_trans (by decide) hb)))
      · rintro rfl
        exact absurd hd hc

theorem lexLoop_comment (hbody : '\n' ∉ body) (hcs : ∀ c ∈ cs.head?, c = '\n') :
    lexLoop (n + 1) pos (utf8 ('/' :: '/' :: body ++ cs)) =
      lexLoop n (pos + size ('/' :: '/' :: body)) (utf8 cs) := by
  have htake : ('/' :: '/' :: body ++ cs).takeWhile (· != '\n') = '/' :: '/' :: body := by
    rw [List.takeWhile_append_of_pos]
    · cases cs with
      | nil => simp
      | cons c cs =>
        obtain rfl := hcs c (by simp)
        simp
    · intro c hc
      rw [bne_iff_ne]
      rintro rfl
      simp [hbody] at hc
  have hrest : utf8 ('/' :: '/' :: body ++ cs) = charByte '/' :: utf8 ('/' :: body ++ cs) :=
    utf8_cons_ascii (by decide)
  rw [hrest, lexLoop, if_neg (by decide), if_pos ⟨rfl, (head_utf8 (by decide)).mpr rfl⟩]
  simp only
  rw [← hrest, takeWhile_line, htake, drop_utf8]
  rfl

theorem lexLoop_int {ds : List Char} (hne : ds ≠ []) (hds : ∀ c ∈ ds, c.isDigit = true)
    (hcs : ∀ c ∈ cs.head?, c.isDigit = false) :
    lexLoop (n + 1) pos (utf8 (ds ++ cs)) =
      if Nat.ofDigitChars 10 ds 0 < 2 ^ 63 then do
        let tokens ← lexLoop n (pos + size ds) (utf8 cs)
        return ⟨.int (BitVec.ofNat 64 (Nat.ofDigitChars 10 ds 0)), ⟨pos, pos + size ds⟩⟩ :: tokens
      else Comp.fail (.integerOverflow pos) := by
  have htake : (ds ++ cs).takeWhile Char.isDigit = ds := by
    rw [List.takeWhile_append_of_pos hds]
    cases cs with
    | nil => simp
    | cons c cs => simp [hcs c rfl]
  obtain ⟨d, ds', rfl⟩ := List.exists_cons_of_ne_nil hne
  have hdigit := hds d List.mem_cons_self
  have hd := isDigit_lt hdigit
  have hiff := isDigit_iff.mp hdigit
  have hspace : isSpace d = false := by
    rw [← Bool.not_eq_true, isSpace_iff]
    omega
  have hslash : d ≠ '/' := by
    rintro rfl
    exact absurd hdigit (by decide)
  have hrest : utf8 (d :: ds' ++ cs) = charByte d :: utf8 (ds' ++ cs) := utf8_cons_ascii hd
  rw [hrest, lexLoop, if_neg (by rw [isWhitespace_charByte hd, hspace]; decide),
    if_neg (fun h => hslash (byteChar_charByte hd ▸ h.1)), if_pos (by rw [isAsciiDigit_charByte hd, hdigit])]
  simp only
  rw [← hrest, takeWhile_digits, htake, drop_utf8, slice_utf8 fun c hc => isDigit_lt (hds c hc), ok_bind,
    parseI64, digitsValue_utf8 hds]
  by_cases hlt : Nat.ofDigitChars 10 (d :: ds') 0 < 2 ^ 63
  · rw [if_pos hlt, if_pos hlt]
    rfl
  · rw [if_neg hlt, if_neg hlt]

theorem lexLoop_word (hc : startsName c = true) (hbody : ∀ d ∈ body, inName d = true)
    (hcs : ∀ d ∈ cs.head?, inName d = false) :
    lexLoop (n + 1) pos (utf8 (c :: body ++ cs)) = do
      let tokens ← lexLoop n (pos + size (c :: body)) (utf8 cs)
      return ⟨(keyword (String.ofList (c :: body))).getD (.ident (String.ofList (c :: body))),
        ⟨pos, pos + size (c :: body)⟩⟩ :: tokens := by
  have hall : ∀ d ∈ c :: body, inName d = true :=
    List.forall_mem_cons.mpr ⟨inName_iff.mpr (.inl hc), hbody⟩
  have htake : (c :: body ++ cs).takeWhile inName = c :: body := by
    rw [List.takeWhile_append_of_pos hall]
    cases cs with
    | nil => simp
    | cons d cs => simp [hcs d rfl]
  have hlow := startsName_lt hc
  have hiff := startsName_iff.mp hc
  have hspace : isSpace c = false := by
    rw [← Bool.not_eq_true, isSpace_iff]
    omega
  have hslash : c ≠ '/' := by
    rintro rfl
    exact absurd hc (by decide)
  have hdigit : c.isDigit = false := by
    rw [← Bool.not_eq_true, isDigit_iff]
    omega
  have hrest : utf8 (c :: body ++ cs) = charByte c :: utf8 (body ++ cs) := utf8_cons_ascii hlow
  rw [hrest, lexLoop, if_neg (by rw [isWhitespace_charByte hlow, hspace]; decide),
    if_neg (fun h => hslash (byteChar_charByte hlow ▸ h.1)),
    if_neg (by rw [isAsciiDigit_charByte hlow, hdigit]; decide),
    if_pos (by rw [isIdentStart_charByte hlow, hc])]
  simp only
  rw [← hrest, takeWhile_name, htake, drop_utf8, slice_utf8 fun d hd => inName_lt (hall d hd), ok_bind]
  rfl

/-- The character after the first one of a mark. -/
theorem next_utf8 {d : Char} (hd : d.toNat < 128) :
    ((utf8 cs).head?.map byteChar == some d) = (cs.head? == some d) := by
  rw [Bool.eq_iff_iff, beq_iff_eq, beq_iff_eq]
  exact head_utf8 hd

/-- A mark that the text after it does not go on with is what `symbol` finds. -/
theorem symbol_mark {text : List Char} (hm : (c :: text, kind) ∈ marks) (hcs : Stops kind cs) :
    symbol pos (charByte c) (utf8 (text ++ cs)) = .ok (kind, (c :: text).length) := by
  have hnext : ∀ d, goesOn kind d = true → d.toNat < 128 →
      ((utf8 cs).head?.map byteChar == some d) = false := by
    intro d hd hlow
    rw [next_utf8 hlow, beq_eq_false_iff_ne]
    intro heq
    exact absurd (hcs d heq) (by simp [hd])
  have hcases : ∀ m ∈ marks, ∀ d ds, m.1 = d :: ds → m.2 = kind →
      symbol pos (charByte d) (utf8 (ds ++ cs)) = .ok (kind, (d :: ds).length) := by
    simp only [marks, List.forall_mem_cons, List.not_mem_nil, false_imp_iff, implies_true, and_true,
      List.cons.injEq, and_imp, List.nil_eq]
    refine ⟨?_, ?_, ?_, ?_, ?_, ?_, ?_, ?_, ?_, ?_, ?_, ?_, ?_, ?_, ?_, ?_, ?_, ?_, ?_, ?_⟩ <;>
    · rintro d ds rfl rfl rfl
      first
      | rfl
      | show (if (_ : Bool) = true then _ else _) = _
        exact (if_neg (Bool.eq_false_iff.mp (hnext _ rfl (by decide)))).trans rfl
  exact hcases _ hm c text rfl rfl

/-- What `symbol` finds is a mark that the text after it does not go on with; otherwise there is
a `!` without its `=`, or a character that no mark starts with. -/
theorem symbol_cases (pos : ℕ) (hc : c.toNat < 128) (hslash : c = '/' → cs.head? ≠ some '/') :
    (∃ kind text rest, c :: cs = text ++ rest ∧ (text, kind) ∈ marks ∧ Stops kind rest ∧
      symbol pos (charByte c) (utf8 cs) = .ok (kind, text.length)) ∨
    (c = '!' ∧ cs.head? ≠ some '=' ∧
      symbol pos (charByte c) (utf8 cs) = Comp.fail (.loneBang pos)) ∨
    (∀ m ∈ marks, m.1.head? ≠ some c) ∧
      symbol pos (charByte c) (utf8 cs) = Comp.fail (.unexpectedChar c pos) := by
  -- a mark of one character, and one whose second character is `d`
  have hone : ∀ kind, ([c], kind) ∈ marks → Stops kind cs →
      symbol pos (charByte c) (utf8 cs) = .ok (kind, 1) →
      ∃ kind text rest, c :: cs = text ++ rest ∧ (text, kind) ∈ marks ∧ Stops kind rest ∧
        symbol pos (charByte c) (utf8 cs) = .ok (kind, text.length) :=
    fun kind hm hs h => ⟨kind, [c], cs, rfl, hm, hs, h⟩
  have htwo : ∀ kind d, ([c, d], kind) ∈ marks → (∀ e, goesOn kind e = false) → cs.head? = some d →
      symbol pos (charByte c) (utf8 cs) = .ok (kind, 2) →
      ∃ kind text rest, c :: cs = text ++ rest ∧ (text, kind) ∈ marks ∧ Stops kind rest ∧
        symbol pos (charByte c) (utf8 cs) = .ok (kind, text.length) := by
    intro kind d hm hs hd h
    obtain ⟨ds, rfl⟩ := List.head?_eq_some_iff.mp hd
    exact ⟨kind, [c, d], ds, rfl, hm, fun e _ => hs e, h⟩
  have hnext : ∀ d, d.toNat < 128 →
      ((utf8 cs).head?.map byteChar == some d) = (cs.head? == some d) := fun d => next_utf8
  have hstops : ∀ kind d, goesOn kind = (· == d) → cs.head? ≠ some d → Stops kind cs := by
    intro kind d hg hd e he
    rw [hg, beq_eq_false_iff_ne]
    rintro rfl
    exact hd he
  generalize hr : symbol pos (charByte c) (utf8 cs) = r at hone htwo ⊢
  unfold symbol at hr
  simp only [byteChar_charByte hc] at hr
  -- a mark that goes on with `d` if that follows
  have hboth : ∀ one two d, ([c], one) ∈ marks → goesOn one = (· == d) → ([c, d], two) ∈ marks →
      (∀ e, goesOn two e = false) → d.toNat < 128 →
      (if ((utf8 cs).head?.map byteChar == some d) = true then .ok (two, 2) else .ok (one, 1)) = r →
      ∃ kind text rest, c :: cs = text ++ rest ∧ (text, kind) ∈ marks ∧ Stops kind rest ∧
        r = .ok (kind, text.length) := by
    intro one two d hm₁ hg hm₂ hs hd h
    rw [hnext d hd] at h
    split at h
    · next heq => exact htwo two d hm₂ hs (beq_iff_eq.mp heq) h.symm
    · next hne => exact hone one hm₁ (hstops one d hg fun heq => hne (beq_iff_eq.mpr heq)) h.symm
  split at hr
  case h_2 => exact .inl (hboth _ _ '>' (by decide) rfl (by decide) (fun _ => rfl) (by decide) hr)
  case h_6 | h_8 | h_9 =>
    exact .inl (hboth _ _ '=' (by decide) rfl (by decide) (fun _ => rfl) (by decide) hr)
  case h_7 =>
    split at hr
    · next heq =>
      have hd : cs.head? = some '=' := beq_iff_eq.mp ((hnext '=' (by decide)).symm.trans heq)
      exact .inl (htwo .notEq '=' (by decide) (fun _ => rfl) hd hr.symm)
    · next hne =>
      refine .inr (.inl ⟨rfl, fun hd => ?_, hr.symm⟩)
      rw [hnext '=' (by decide), hd] at hne
      exact hne (by decide)
  case h_4 => exact .inl (hone _ (by decide) (hstops _ '/' rfl (hslash rfl)) hr.symm)
  case h_17 =>
    refine .inr (.inr ⟨?_, hr.symm⟩)
    intro m hm hhead
    have hmem : some c ∈ marks.map fun m => m.1.head? := List.mem_map.mpr ⟨m, hm, hhead⟩
    simp only [marks, List.map_cons, List.map_nil, List.head?_cons, List.mem_cons,
      List.not_mem_nil, Option.some.injEq, or_false] at hmem
    tauto
  -- the other marks stand for themselves
  all_goals exact .inl (hone _ (by decide) (fun _ _ => rfl) hr.symm)

/-- A round in which the loop takes an operator or a punctuation mark. -/
theorem lexLoop_symbol (hlow : c.toNat < 128) (hspace : isSpace c = false)
    (hslash : c = '/' → cs.head? ≠ some '/') (hdigit : c.isDigit = false)
    (hname : startsName c = false) :
    lexLoop (n + 1) pos (utf8 (c :: cs)) = do
      let (kind, len) ← symbol pos (charByte c) (utf8 cs)
      let tokens ← lexLoop n (pos + len) ((utf8 (c :: cs)).drop len)
      return ⟨kind, ⟨pos, pos + len⟩⟩ :: tokens := by
  have hcomment : ¬ (byteChar (charByte c) = '/' ∧ (utf8 cs).head?.map byteChar = some '/') := by
    rintro ⟨hc, hd⟩
    rw [byteChar_charByte hlow] at hc
    exact hslash hc ((head_utf8 (by decide)).mp hd)
  rw [utf8_cons_ascii hlow, lexLoop, if_neg (by rw [isWhitespace_charByte hlow, hspace]; decide),
    if_neg hcomment, if_neg (by rw [isAsciiDigit_charByte hlow, hdigit]; decide),
    if_neg (by rw [isIdentStart_charByte hlow, hname]; decide)]

/-- What a mark starts with is in no class of characters. -/
theorem marks_head : ∀ m ∈ marks, ∀ c ∈ m.1.head?, c.toNat < 128 ∧ isSpace c = false ∧
    c.isDigit = false ∧ startsName c = false := by
  have hall : ∀ m ∈ marks, (m.1.head?.all fun c => c.toNat < 128 && !isSpace c && !c.isDigit &&
      !startsName c) = true := by
    decide
  intro m hm c hc
  have := hall m hm
  rw [Option.mem_def.mp hc] at this
  simpa [and_assoc] using this

/-- No mark starts a comment. -/
theorem marks_slash : ∀ m ∈ marks, m.1.head? = some '/' → m = (['/'], .slash) := by
  decide

/-- A `!` is only part of a mark before its `=`. -/
theorem marks_bang : ∀ m ∈ marks, m.1.head? = some '!' → m = (['!', '='], .notEq) := by
  decide

/-- A round in which the loop takes a token. -/
theorem lexLoop_token (h : Spells kind text) (hcs : Stops kind cs) :
    lexLoop (n + 1) pos (utf8 (text ++ cs)) = do
      let tokens ← lexLoop n (pos + size text) (utf8 cs)
      return ⟨kind, ⟨pos, pos + size text⟩⟩ :: tokens := by
  cases h with
  | int hne hds hlt => rw [lexLoop_int hne hds hcs, if_pos hlt]
  | word hc hbody =>
    exact lexLoop_word hc hbody fun d hd => (goesOn_word _ d).symm.trans (hcs d hd)
  | mark hm =>
    obtain ⟨c, text, rfl⟩ := List.exists_cons_of_ne_nil (Spells.mark hm).ne_nil
    obtain ⟨hlow, hspace, hdigit, hname⟩ := marks_head _ hm c rfl
    have hslash : c = '/' → (text ++ cs).head? ≠ some '/' := by
      rintro rfl heq
      obtain ⟨rfl, rfl⟩ : text = [] ∧ kind = .slash := by simpa using marks_slash _ hm rfl
      exact absurd (hcs '/' heq) (by decide)
    have hlen : size (c :: text) = (c :: text).length := size_eq_length (Spells.mark hm).ascii
    rw [List.cons_append, lexLoop_symbol hlow hspace hslash hdigit hname, symbol_mark hm hcs, ok_bind]
    show (do
      let tokens ← lexLoop n (pos + (c :: text).length) ((utf8 (c :: text ++ cs)).drop (c :: text).length)
      return _ :: tokens) = _
    rw [← hlen]
    show (do
      let tokens ← lexLoop n _ ((utf8 (c :: text ++ cs)).drop (utf8 (c :: text)).length)
      return _ :: tokens) = _
    rw [drop_utf8]

/-- No mark starts with a byte above ASCII. -/
theorem symbol_high {b : UInt8} {bs : List UInt8} (hb : 128 ≤ b.toNat) :
    symbol pos b bs = Comp.fail (.unexpectedChar (byteChar b) pos) := by
  have hne : ∀ d : Char, d.toNat < 128 → byteChar b ≠ d := by
    rintro d hd rfl
    exact absurd hd (Nat.not_lt.mpr (byteChar_high hb))
  unfold symbol
  simp only
  split
  case h_17 => rfl
  all_goals
    next heq => exact absurd heq (hne _ (by decide))

/-- Below ASCII the first byte is the character. -/
theorem leadByte_ascii (hc : c.toNat < 128) : leadByte c = charByte c := by
  rw [leadByte, encode_ascii hc]
  rfl

/-- A character that is not ASCII starts nothing. -/
theorem startsNothing_high (hc : 128 ≤ c.toNat) : StartsNothing c := by
  refine ⟨?_, ?_, ?_⟩
  · rw [← Bool.not_eq_true]
    exact fun h => absurd (isSpace_lt h) (Nat.not_lt.mpr hc)
  · rintro rfl
    exact absurd hc (by decide)
  · exact fun kind text h => absurd (h.ascii c List.mem_cons_self) (Nat.not_lt.mpr hc)

theorem lexLoop_high (hc : 128 ≤ c.toNat) :
    lexLoop (n + 1) pos (utf8 (c :: cs)) =
      Comp.fail (.unexpectedChar (byteChar (leadByte c)) pos) := by
  obtain ⟨b, bs, h, hb, -⟩ := encode_high hc
  obtain ⟨hspace, hdigit, hname, -⟩ := high_not_classified hb
  have hlow : 128 ≤ b.toNat := Nat.le_trans (by decide) hb
  have hcomment : ¬ (byteChar b = '/' ∧ (bs ++ utf8 cs).head?.map byteChar = some '/') := by
    rintro ⟨heq, -⟩
    have := byteChar_high hlow
    rw [heq] at this
    exact absurd this (by decide)
  rw [utf8_cons, leadByte, h, List.cons_append, lexLoop, if_neg (by simp [hspace]), if_neg hcomment,
    if_neg (by simp [hdigit]), if_neg (by simp [hname]), symbol_high hlow]
  rfl

/-- A character of ASCII that starts nothing is in no class and starts no mark. -/
theorem StartsNothing.ascii (h : StartsNothing c) :
    isSpace c = false ∧ c ≠ '/' ∧ c.isDigit = false ∧ startsName c = false ∧
      ∀ m ∈ marks, m.1.head? ≠ some c := by
  obtain ⟨hspace, hslash, hspells⟩ := h
  refine ⟨hspace, hslash, ?_, ?_, ?_⟩
  · rw [← Bool.not_eq_true]
    intro hdigit
    have hval : Nat.ofDigitChars 10 [c] 0 = c.toNat - 48 := by simp [Nat.ofDigitChars_eq_foldl]
    have hle := (isDigit_iff.mp hdigit).2
    exact hspells _ [] (.int (List.cons_ne_nil _ _) (by simpa using hdigit) (by omega))
  · rw [← Bool.not_eq_true]
    exact fun hname => hspells _ [] (.word hname (by simp))
  · rintro ⟨text, kind⟩ hm hhead
    obtain ⟨cs, rfl⟩ := List.head?_eq_some_iff.mp hhead
    exact hspells _ _ (.mark hm)

theorem StuckWith.size_pos {cs : List Char} {e : ℕ → LexError} (h : StuckWith cs e) : 0 < size cs := by
  obtain ⟨c, cs, rfl⟩ : ∃ c ds, cs = c :: ds := by
    cases h with
    | char | bang => exact ⟨_, _, rfl⟩
    | overflow hne =>
      obtain ⟨d, ds, rfl⟩ := List.exists_cons_of_ne_nil hne
      exact ⟨d, _, rfl⟩
  rw [size, utf8_cons, List.length_append, String.length_utf8EncodeChar]
  exact Nat.add_pos_left c.utf8Size_pos _

/-- The loop ends with the error. -/
theorem StuckWith.lexLoop {cs : List Char} {e : ℕ → LexError} (h : StuckWith cs e) (n pos : ℕ) :
    Lexer.lexLoop (n + 1) pos (utf8 cs) = Comp.fail (e pos) := by
  cases h with
  | @char c cs h =>
    by_cases hlow : c.toNat < 128
    swap
    · exact lexLoop_high (Nat.le_of_not_lt hlow)
    obtain ⟨hspace, hslash, hdigit, hname, hmarks⟩ := h.ascii
    have hslash' : c = '/' → cs.head? ≠ some '/' := fun hc => absurd hc hslash
    rw [leadByte_ascii hlow, byteChar_charByte hlow, lexLoop_symbol hlow hspace hslash' hdigit hname]
    rcases symbol_cases pos hlow hslash' with ⟨kind, text, rest, heq, hm, -⟩ | ⟨rfl, -⟩ | ⟨-, he⟩
    · obtain ⟨d, ds, rfl⟩ := List.exists_cons_of_ne_nil (Spells.mark hm).ne_nil
      obtain ⟨rfl, -⟩ := List.cons.inj heq
      exact absurd rfl (hmarks _ hm)
    · exact absurd rfl (hmarks (['!', '='], .notEq) (by decide))
    · rw [he]
      rfl
  | @bang cs hhead =>
    rw [lexLoop_symbol (by decide) (by decide) (fun hc => absurd hc (by decide)) (by decide) (by decide)]
    rcases @symbol_cases '!' cs pos (by decide) (fun hc => absurd hc (by decide)) with
      ⟨kind, text, rest, heq, hm, -⟩ | ⟨-, -, he⟩ | ⟨hmarks, -⟩
    · obtain ⟨d, ds, rfl⟩ := List.exists_cons_of_ne_nil (Spells.mark hm).ne_nil
      obtain ⟨rfl, rfl⟩ := List.cons.inj heq
      obtain ⟨rfl, -⟩ : ds = ['='] ∧ kind = .notEq := by simpa using marks_bang _ hm rfl
      exact absurd rfl hhead
    · rw [he]
      rfl
    · exact absurd rfl (hmarks (['!', '='], .notEq) (by decide))
  | overflow hne hds hcs hge => rw [lexLoop_int hne hds hcs, if_neg (Nat.not_lt.mpr hge)]

/-- Nothing of a class follows a maximal run of that class. -/
theorem head_dropWhile {q : Char → Bool} : ∀ d ∈ (cs.dropWhile q).head?, q d = false := by
  intro d hd
  have := List.head?_dropWhile_not q cs
  rw [Option.mem_def.mp hd] at this
  exact this

/-- What the loop finds at the front of a text. -/
theorem round_cases (c : Char) (cs : List Char) :
    isSpace c = true ∨
    (∃ body rest, c :: cs = '/' :: '/' :: body ++ rest ∧ '\n' ∉ body ∧ ∀ d ∈ rest.head?, d = '\n') ∨
    (∃ kind text rest, c :: cs = text ++ rest ∧ Spells kind text ∧ Stops kind rest) ∨
    ∃ e, StuckWith (c :: cs) e := by
  -- the order of the cases is that of the tests in the loop of `lex`
  by_cases hlow : c.toNat < 128
  swap
  · exact .inr (.inr (.inr ⟨_, .char (startsNothing_high (Nat.le_of_not_lt hlow))⟩))
  cases hspace : isSpace c with
  | true => exact .inl rfl
  | false =>
  by_cases hslash : c = '/' ∧ cs.head? = some '/'
  · obtain ⟨rfl, hhead⟩ := hslash
    obtain ⟨ds, rfl⟩ := List.head?_eq_some_iff.mp hhead
    refine .inr (.inl ⟨ds.takeWhile (· != '\n'), ds.dropWhile (· != '\n'), ?_, ?_, fun d hd => ?_⟩)
    · rw [List.cons_append, List.cons_append, List.takeWhile_append_dropWhile]
    · intro hm
      simpa using List.mem_takeWhile_imp hm
    · simpa using head_dropWhile d hd
  refine .inr (.inr ?_)
  cases hdigit : c.isDigit with
  | true =>
    have hsplit : (c :: cs).takeWhile Char.isDigit ++ (c :: cs).dropWhile Char.isDigit = c :: cs :=
      List.takeWhile_append_dropWhile
    have hne : (c :: cs).takeWhile Char.isDigit ≠ [] := by simp [hdigit]
    have hds : ∀ d ∈ (c :: cs).takeWhile Char.isDigit, d.isDigit = true :=
      fun d hd => List.mem_takeWhile_imp hd
    by_cases hlt : Nat.ofDigitChars 10 ((c :: cs).takeWhile Char.isDigit) 0 < 2 ^ 63
    · exact .inl ⟨_, _, _, hsplit.symm, .int hne hds hlt, head_dropWhile⟩
    · have hstuck : StuckWith ((c :: cs).takeWhile Char.isDigit ++ (c :: cs).dropWhile Char.isDigit)
          .integerOverflow := .overflow hne hds head_dropWhile (Nat.le_of_not_lt hlt)
      rw [hsplit] at hstuck
      exact .inr ⟨_, hstuck⟩
  | false =>
  cases hname : startsName c with
  | true =>
    have hstops : Stops ((keyword (String.ofList (c :: cs.takeWhile inName))).getD
        (.ident (String.ofList (c :: cs.takeWhile inName)))) (cs.dropWhile inName) :=
      fun d hd => (goesOn_word _ d).trans (head_dropWhile d hd)
    refine .inl ⟨_, c :: cs.takeWhile inName, cs.dropWhile inName, ?_,
      .word hname fun d hd => List.mem_takeWhile_imp hd, hstops⟩
    rw [List.cons_append, List.takeWhile_append_dropWhile]
  | false =>
  -- a mark, a `!` on its own, or nothing that starts a token
  have hslash' : c = '/' → cs.head? ≠ some '/' := fun hc hhead => hslash ⟨hc, hhead⟩
  rcases symbol_cases 0 hlow hslash' with ⟨kind, text, rest, heq, hm, hs, -⟩ | ⟨rfl, hhead, -⟩ | ⟨hmarks, -⟩
  · exact .inl ⟨kind, text, rest, heq, .mark hm, hs⟩
  · exact .inr ⟨_, .bang hhead⟩
  · refine .inr ⟨_, .char ⟨hspace, ?_, ?_⟩⟩
    · rintro rfl
      exact hmarks (['/'], .slash) (by decide) rfl
    · intro kind text h
      cases h with
      | int _ hds => simp [hdigit] at hds
      | word hc => simp [hname] at hc
      | mark hm => exact hmarks _ hm rfl

end Rounds

/-! ### The whole text -/

section Text

variable {n pos : ℕ} {cs : List Char} {tokens : List Token}

theorem size_space (cs : List Char) {c : Char} (hc : isSpace c = true) : size (c :: cs) = size cs + 1 := by
  rw [size, utf8_cons_ascii (isSpace_lt hc), List.length_cons]
  rfl

theorem size_slash (cs : List Char) : 0 < size ('/' :: cs) := by
  rw [size, utf8_cons_ascii (by decide)]
  exact Nat.succ_pos _

/-- The tokens of a cut are what the loop returns. -/
theorem lexLoop_cuts (h : Cuts pos cs tokens) (hn : size cs ≤ n) :
    lexLoop n pos (utf8 cs) = .ok tokens := by
  induction h generalizing n with
  | nil =>
    rw [utf8_nil]
    cases n <;> rfl
  | @space pos c cs tokens hc _ ih =>
    have hlen := size_space cs hc
    obtain ⟨m, rfl⟩ : ∃ m, n = m + 1 := ⟨n - 1, by omega⟩
    rw [lexLoop_space hc]
    exact ih (by omega)
  | @comment pos body cs tokens hbody _ ih =>
    have hlen := size_append ('/' :: '/' :: body) ('\n' :: cs)
    have hnl := size_space cs (c := '\n') (by decide)
    have hpos := size_slash ('/' :: body)
    obtain ⟨m, rfl⟩ : ∃ m, n = m + 2 := ⟨n - 2, by omega⟩
    rw [lexLoop_comment hbody (by simp), lexLoop_space (by decide)]
    exact ih (by omega)
  | @lastComment pos body hbody =>
    have hpos := size_slash ('/' :: body)
    obtain ⟨m, rfl⟩ : ∃ m, n = m + 1 := ⟨n - 1, by omega⟩
    have h := @lexLoop_comment m pos [] body hbody (by simp)
    rw [List.append_nil] at h
    rw [h]
    cases m <;> rfl
  | @token pos kind text cs tokens hs hstop _ ih =>
    have hpos := hs.size_pos
    have hlen := size_append text cs
    obtain ⟨m, rfl⟩ : ∃ m, n = m + 1 := ⟨n - 1, by omega⟩
    rw [lexLoop_token hs hstop, ih (by omega)]
    rfl

/-- The loop ends with the error of the text that the pieces before it lead to. -/
theorem lexLoop_pieces {before rest : List Char} {e : ℕ → LexError} (h : Pieces rest before)
    (hstuck : StuckWith rest e) (hn : size (before ++ rest) ≤ n) :
    lexLoop n pos (utf8 (before ++ rest)) = Comp.fail (e (pos + size before)) := by
  induction h generalizing n pos with
  | nil =>
    have hpos := hstuck.size_pos
    obtain ⟨m, rfl⟩ : ∃ m, n = m + 1 := ⟨n - 1, by rw [List.nil_append] at hn; omega⟩
    exact hstuck.lexLoop m pos
  | @space c cs hc _ ih =>
    have hlen := size_space cs hc
    have hlen' := size_space (cs ++ rest) hc
    rw [List.cons_append] at hn ⊢
    obtain ⟨m, rfl⟩ : ∃ m, n = m + 1 := ⟨n - 1, by omega⟩
    rw [lexLoop_space hc, ih (by omega), hlen, Nat.add_assoc, Nat.add_comm 1]
  | @comment body cs hbody _ ih =>
    have hlen := size_append ('/' :: '/' :: body) ('\n' :: cs)
    have hlen' := size_append ('/' :: '/' :: body) ('\n' :: (cs ++ rest))
    have hnl := size_space cs (c := '\n') (by decide)
    have hnl' := size_space (cs ++ rest) (c := '\n') (by decide)
    have hpos := size_slash ('/' :: body)
    have hassoc : '/' :: '/' :: body ++ '\n' :: cs ++ rest =
        '/' :: '/' :: body ++ '\n' :: (cs ++ rest) := List.append_assoc _ _ _
    rw [hassoc] at hn ⊢
    obtain ⟨m, rfl⟩ : ∃ m, n = m + 2 := ⟨n - 2, by omega⟩
    rw [lexLoop_comment hbody (by simp), lexLoop_space (by decide), ih (by omega), hlen, hnl]
    simp only [Nat.add_assoc, Nat.add_comm 1]
  | @token kind text cs hs hstop _ ih =>
    have hpos := hs.size_pos
    have hlen := size_append text (cs ++ rest)
    rw [List.append_assoc] at hn ⊢
    obtain ⟨m, rfl⟩ : ∃ m, n = m + 1 := ⟨n - 1, by omega⟩
    rw [lexLoop_token hs hstop, ih (by omega), size_append, Nat.add_assoc]
    rfl

/-- A text can be cut, or pieces of it lead to a place where there is none. -/
theorem cut_or_stuck (pos : ℕ) (cs : List Char) :
    (∃ tokens, Cuts pos cs tokens) ∨
      ∃ before rest e, cs = before ++ rest ∧ Pieces rest before ∧ StuckWith rest e := by
  induction hlen : cs.length using Nat.strongRecOn generalizing pos cs with
  | ind n ih =>
  subst hlen
  cases cs with
  | nil => exact .inl ⟨_, .nil⟩
  | cons c cs =>
  rcases round_cases c cs with hc | ⟨body, rest, heq, hbody, hrest⟩ |
    ⟨kind, text, rest, heq, hs, hstop⟩ | ⟨e, hstuck⟩
  · rcases ih _ (Nat.lt_succ_self _) (pos + 1) cs rfl with
      ⟨tokens, hcut⟩ | ⟨before, rest, e, rfl, hp, hstuck⟩
    · exact .inl ⟨tokens, .space hc hcut⟩
    · exact .inr ⟨c :: before, rest, e, rfl, .space hc hp, hstuck⟩
  · cases rest with
    | nil =>
      rw [heq, List.append_nil]
      exact .inl ⟨_, .lastComment hbody⟩
    | cons d rest =>
      obtain rfl : d = '\n' := hrest d rfl
      have hlt : rest.length < (c :: cs).length := by
        have hcons : ('\n' :: rest).length = rest.length + 1 := List.length_cons
        rw [heq, List.length_append, hcons]
        omega
      rcases ih _ hlt (pos + size ('/' :: '/' :: body) + 1) rest rfl with
        ⟨tokens, hcut⟩ | ⟨before, rest', e, rfl, hp, hstuck⟩
      · rw [heq]
        exact .inl ⟨tokens, .comment hbody hcut⟩
      · refine .inr ⟨'/' :: '/' :: body ++ '\n' :: before, rest', e, ?_, .comment hbody hp, hstuck⟩
        exact heq.trans (List.append_assoc _ ('\n' :: before) rest').symm
  · have hpos := List.length_pos_iff.mpr hs.ne_nil
    have hlt : rest.length < (c :: cs).length := by
      rw [heq, List.length_append]
      omega
    rcases ih _ hlt (pos + size text) rest rfl with
      ⟨tokens, hcut⟩ | ⟨before, rest', e, rfl, hp, hstuck⟩
    · rw [heq]
      exact .inl ⟨_, .token hs hstop hcut⟩
    · refine .inr ⟨text ++ before, rest', e, ?_, .token hs hstop hp, hstuck⟩
      rw [heq, List.append_assoc]
  · exact .inr ⟨[], c :: cs, e, rfl, .nil, hstuck⟩

/-- The loop ends, with the tokens of a cut or with the error at the end of some pieces. -/
theorem lexLoop_cases (pos : ℕ) (hn : size cs ≤ n) :
    (∃ tokens, lexLoop n pos (utf8 cs) = .ok tokens ∧ Cuts pos cs tokens) ∨
      ∃ before rest e, cs = before ++ rest ∧ Pieces rest before ∧ StuckWith rest e ∧
        lexLoop n pos (utf8 cs) = Comp.fail (e (pos + size before)) := by
  rcases cut_or_stuck pos cs with ⟨tokens, hcut⟩ | ⟨before, rest, e, rfl, hp, hstuck⟩
  · exact .inl ⟨tokens, lexLoop_cuts hcut hn, hcut⟩
  · exact .inr ⟨before, rest, e, rfl, hp, hstuck, lexLoop_pieces hp hstuck hn⟩

end Text

theorem lex_eq (source : String) : lex source = lexLoop (size source.toList) 0 (utf8 source.toList) := by
  rw [lex, toUTF8_eq]
  rfl

/-- `lex` returns the tokens of the cut. -/
theorem lex_iff {source : String} {tokens : List Token} :
    lex source = .ok tokens ↔ Cuts 0 source.toList tokens := by
  rw [lex_eq]
  constructor
  · intro h
    rcases lexLoop_cases 0 (Nat.le_refl (size source.toList)) with
      ⟨tokens', hok, hcut⟩ | ⟨_, _, _, -, -, -, he⟩
    · rw [hok] at h
      exact Except.ok.inj h ▸ hcut
    · rw [he] at h
      cases h
  · exact fun h => lexLoop_cuts h (Nat.le_refl _)

theorem Cuts.lexed {cs : List Char} {tokens : List Token} (h : Cuts 0 cs tokens) :
    lex (String.ofList cs) = .ok tokens := by
  rw [lex_iff, String.toList_ofList]
  exact h

/-- `lex` ends, with tokens or with an error. -/
theorem lex_total (source : String) :
    (∃ tokens, lex source = .ok tokens) ∨ ∃ e, lex source = Comp.fail e := by
  rw [lex_eq]
  rcases lexLoop_cases 0 (Nat.le_refl (size source.toList)) with
    ⟨tokens, hok, -⟩ | ⟨_, _, _, -, -, -, he⟩
  · exact .inl ⟨tokens, hok⟩
  · exact .inr ⟨_, he⟩

end Lexer
end Chakobsa
