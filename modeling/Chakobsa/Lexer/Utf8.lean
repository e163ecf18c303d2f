import Chakobsa.Lexer.Lexer

/-!
# The bytes the lexer scans, as characters

The lexer takes every byte for a character of its own. On the UTF-8 bytes of a text this is right
as long as the characters are ASCII, and a byte of any other character can only be met at the
start of one (`utf8_high`): so every run the lexer takes, and every comment it skips, consists of
whole characters (`takeWhile_utf8`).
-/

namespace Chakobsa
namespace Lexer

/-- The UTF-8 bytes of some characters. -/
def utf8 (cs : List Char) : List UInt8 := cs.flatMap String.utf8EncodeChar

/-- The byte of an ASCII character. -/
def charByte (c : Char) : UInt8 := UInt8.ofNat c.toNat

/-- A character `char::is_whitespace` holds of and that is ASCII. -/
def isSpace (c : Char) : Bool := (9 ≤ c.toNat && c.toNat ≤ 13) || c.toNat == 32

section Encoding

variable {c : Char} {cs ds : List Char}

theorem toUTF8_eq (s : String) : s.toUTF8.data.toList = utf8 s.toList := by
  conv => lhs; rw [← String.ofList_toList (s := s)]
  rw [String.toUTF8_eq_toByteArray, String.toByteArray_ofList]
  exact congrArg Array.toList List.data_toByteArray

@[simp] theorem utf8_nil : utf8 [] = [] := rfl

theorem utf8_cons : utf8 (c :: cs) = String.utf8EncodeChar c ++ utf8 cs := List.flatMap_cons

@[simp] theorem utf8_append : utf8 (cs ++ ds) = utf8 cs ++ utf8 ds := List.flatMap_append

theorem utf8_length (s : String) : (utf8 s.toList).length = s.utf8ByteSize := by
  rw [← toUTF8_eq]
  rfl

/-- An ASCII character is its own byte. -/
theorem encode_ascii (hc : c.toNat < 128) : String.utf8EncodeChar c = [charByte c] := by
  have hsize : c.utf8Size = 1 :=
    Char.utf8Size_eq_one_iff.mpr (UInt32.le_iff_toNat_le.mpr (Nat.le_of_lt_succ hc))
  rw [String.utf8EncodeChar_eq_singleton hsize]
  rfl

theorem utf8_cons_ascii (hc : c.toNat < 128) : utf8 (c :: cs) = charByte c :: utf8 cs := by
  rw [utf8_cons, encode_ascii hc]
  rfl

theorem charByte_toNat (hc : c.toNat < 128) : (charByte c).toNat = c.toNat :=
  UInt8.toNat_ofNat_of_lt' (Nat.lt_trans hc (by decide))

@[simp] theorem byteChar_charByte (hc : c.toNat < 128) : byteChar (charByte c) = c := by
  rw [byteChar, charByte_toNat hc, Char.ofNat_toNat]

theorem le_or_right (a b : UInt8) : b.toNat ≤ (a ||| b).toNat := by
  rw [UInt8.toNat_or]
  exact Nat.right_le_or

/-- The bytes of a character that is not ASCII: none is one of ASCII, and the first one is not
a continuation byte. -/
theorem encode_high (hc : 128 ≤ c.toNat) :
    ∃ b bs, String.utf8EncodeChar c = b :: bs ∧ 192 ≤ b.toNat ∧ ∀ x ∈ bs, 128 ≤ x.toNat := by
  rcases c.utf8Size_eq with h | h | h | h
  · have := UInt32.le_iff_toNat_le.mp (Char.utf8Size_eq_one_iff.mp h)
    exact absurd (Nat.lt_succ_of_le this) (Nat.not_lt.mpr hc)
  · refine ⟨_, _, String.utf8EncodeChar_eq_cons_cons h, le_or_right _ 192, ?_⟩
    simp only [List.mem_singleton, forall_eq]
    exact le_or_right _ 128
  · refine ⟨_, _, String.utf8EncodeChar_eq_cons_cons_cons h,
      Nat.le_trans (by decide) (le_or_right _ 224), ?_⟩
    simp only [List.mem_cons, List.not_mem_nil, or_false, forall_eq_or_imp, forall_eq]
    exact ⟨le_or_right _ 128, le_or_right _ 128⟩
  · refine ⟨_, _, String.utf8EncodeChar_eq_cons_cons_cons_cons h,
      Nat.le_trans (by decide) (le_or_right _ 240), ?_⟩
    simp only [List.mem_cons, List.not_mem_nil, or_false, forall_eq_or_imp, forall_eq]
    exact ⟨le_or_right _ 128, le_or_right _ 128, le_or_right _ 128⟩

theorem utf8_high (cs : List Char) (hc : 128 ≤ c.toNat) : ∃ b bs, utf8 (c :: cs) = b :: bs ∧ 192 ≤ b.toNat := by
  obtain ⟨b, bs, h, hb, -⟩ := encode_high hc
  exact ⟨b, bs ++ utf8 cs, by rw [utf8_cons, h]; rfl, hb⟩

/-- The bytes of ASCII text are as many as its characters. -/
theorem utf8_length_ascii (h : ∀ c ∈ cs, c.toNat < 128) : (utf8 cs).length = cs.length := by
  induction cs with
  | nil => rfl
  | cons c cs ih =>
    rw [utf8_cons_ascii (h c List.mem_cons_self), List.length_cons, List.length_cons,
      ih fun d hd => h d (List.mem_cons_of_mem _ hd)]

theorem utf8_map_byteChar (h : ∀ c ∈ cs, c.toNat < 128) : (utf8 cs).map byteChar = cs := by
  induction cs with
  | nil => rfl
  | cons c cs ih =>
    have hc := h c List.mem_cons_self
    rw [utf8_cons_ascii hc, List.map_cons, byteChar_charByte hc,
      ih fun d hd => h d (List.mem_cons_of_mem _ hd)]

/-- Every character starts at a boundary. -/
theorem isCharBoundary_utf8 : isCharBoundary (utf8 cs) = true := by
  cases cs with
  | nil => rfl
  | cons c cs =>
    by_cases hc : c.toNat < 128
    · rw [utf8_cons_ascii hc, isCharBoundary, charByte_toNat hc]
      simp only [Bool.not_eq_true', Bool.and_eq_false_iff, decide_eq_false_iff_not]
      exact .inl (Nat.not_le.mpr hc)
    · obtain ⟨b, bs, h, hb⟩ := utf8_high cs (Nat.le_of_not_lt hc)
      rw [h, isCharBoundary]
      simp only [Bool.not_eq_true', Bool.and_eq_false_iff, decide_eq_false_iff_not]
      exact .inr (Nat.not_lt.mpr hb)

/-- Slicing ASCII text out of the source never panics. -/
theorem slice_utf8 (h : ∀ c ∈ cs, c.toNat < 128) :
    slice (utf8 cs) (utf8 ds) = .ok (String.ofList cs) := by
  rw [slice, ← utf8_append, isCharBoundary_utf8, isCharBoundary_utf8, utf8_map_byteChar h]
  rfl

/-- A run of bytes that satisfy `p` is a run of whole characters that satisfy `q`, when `p` holds
of all bytes of such a character and fails of the first byte of any other. -/
theorem takeWhile_utf8 {p : UInt8 → Bool} {q : Char → Bool}
    (hq : ∀ c, q c = true → ∀ b ∈ String.utf8EncodeChar c, p b = true)
    (hn : ∀ c, q c = false → ∃ b bs, String.utf8EncodeChar c = b :: bs ∧ p b = false) :
    (utf8 cs).takeWhile p = utf8 (cs.takeWhile q) := by
  induction cs with
  | nil => rfl
  | cons c cs ih =>
    cases hc : q c with
    | true =>
      rw [utf8_cons, List.takeWhile_append_of_pos (hq c hc), ih, List.takeWhile_cons_of_pos hc,
        utf8_cons]
    | false =>
      obtain ⟨b, bs, h, hb⟩ := hn c hc
      rw [utf8_cons, h, List.cons_append, List.takeWhile_cons_of_neg (by simp [hb]),
        List.takeWhile_cons_of_neg (by simp [hc])]
      rfl

/-- The bytes after the bytes of the first of two texts. -/
theorem drop_utf8 : (utf8 (cs ++ ds)).drop (utf8 cs).length = utf8 ds := by
  rw [utf8_append, List.drop_left]

end Encoding

/-! ### Classes of characters -/

section Classes

variable {c : Char} {cs : List Char}

/-- A class of bytes that has only bytes of ASCII, as a class of characters. -/
theorem takeWhile_ascii {p : UInt8 → Bool} {q : Char → Bool}
    (hlt : ∀ c, q c = true → c.toNat < 128) (hhigh : ∀ b, 192 ≤ b.toNat → p b = false)
    (heq : ∀ c, c.toNat < 128 → p (charByte c) = q c) :
    (utf8 cs).takeWhile p = utf8 (cs.takeWhile q) := by
  refine takeWhile_utf8 (fun c hc b hb => ?_) fun c hc => ?_
  · rw [encode_ascii (hlt c hc)] at hb
    rw [List.mem_singleton.mp hb, heq c (hlt c hc), hc]
  · by_cases hlow : c.toNat < 128
    · exact ⟨_, _, encode_ascii hlow, by rw [heq c hlow, hc]⟩
    · obtain ⟨b, bs, h, hb, -⟩ := encode_high (Nat.le_of_not_lt hlow)
      exact ⟨b, bs, h, hhigh b hb⟩

theorem isDigit_iff : c.isDigit = true ↔ 48 ≤ c.toNat ∧ c.toNat ≤ 57 := by
  simp [Char.isDigit, UInt32.le_iff_toNat_le]

theorem isAlpha_iff :
    c.isAlpha = true ↔ (65 ≤ c.toNat ∧ c.toNat ≤ 90) ∨ (97 ≤ c.toNat ∧ c.toNat ≤ 122) := by
  have hval : c.isAlpha = (decide (c.val ≥ 'A'.val ∧ c.val ≤ 'Z'.val) ||
      (decide (c.val ≥ 'a'.val) && decide (c.val ≤ 'z'.val))) := rfl
  rw [hval]
  simp [UInt32.le_iff_toNat_le]

/-- A character a name starts with. -/
def startsName (c : Char) : Bool := c.isAlpha || c == '_'

/-- A character a name goes on with. -/
def inName (c : Char) : Bool := c.isAlphanum || c == '_'

theorem eq_underscore_iff : (c == '_') = true ↔ c.toNat = 95 := by
  rw [beq_iff_eq]
  exact ⟨fun h => h ▸ rfl, fun h => Char.toNat_inj.mp h⟩

theorem startsName_iff : startsName c = true ↔
    ((65 ≤ c.toNat ∧ c.toNat ≤ 90) ∨ (97 ≤ c.toNat ∧ c.toNat ≤ 122)) ∨ c.toNat = 95 := by
  rw [startsName, Bool.or_eq_true, isAlpha_iff, eq_underscore_iff]

theorem inName_iff : inName c = true ↔ startsName c = true ∨ c.isDigit = true := by
  rw [inName, startsName, Char.isAlphanum, Bool.or_eq_true, Bool.or_eq_true, Bool.or_eq_true]
  tauto

theorem isSpace_iff : isSpace c = true ↔ (9 ≤ c.toNat ∧ c.toNat ≤ 13) ∨ c.toNat = 32 := by
  simp [isSpace]

theorem isSpace_lt (h : isSpace c = true) : c.toNat < 128 := by
  have := isSpace_iff.mp h
  omega

theorem isDigit_lt (h : c.isDigit = true) : c.toNat < 128 := by
  have := isDigit_iff.mp h
  omega

theorem startsName_lt (h : startsName c = true) : c.toNat < 128 := by
  have := startsName_iff.mp h
  omega

theorem inName_lt (h : inName c = true) : c.toNat < 128 :=
  (inName_iff.mp h).elim startsName_lt isDigit_lt

theorem isWhitespace_charByte (hc : c.toNat < 128) : isWhitespace (charByte c) = isSpace c := by
  rw [Bool.eq_iff_iff, isSpace_iff]
  simp only [isWhitespace, charByte_toNat hc, Bool.or_eq_true, Bool.and_eq_true, decide_eq_true_eq,
    beq_iff_eq]
  omega

theorem isAsciiDigit_charByte (hc : c.toNat < 128) : isAsciiDigit (charByte c) = c.isDigit := by
  rw [Bool.eq_iff_iff, isDigit_iff]
  simp [isAsciiDigit, charByte_toNat hc]

theorem isIdentStart_charByte (hc : c.toNat < 128) : isIdentStart (charByte c) = startsName c := by
  rw [Bool.eq_iff_iff, startsName_iff]
  simp [isIdentStart, isAsciiAlphabetic, charByte_toNat hc]

theorem isIdentPart_charByte (hc : c.toNat < 128) : isIdentPart (charByte c) = inName c := by
  rw [Bool.eq_iff_iff, inName_iff, startsName_iff, isDigit_iff]
  simp only [isIdentPart, isAsciiAlphabetic, isAsciiDigit, charByte_toNat hc, Bool.or_eq_true,
    Bool.and_eq_true, decide_eq_true_eq, beq_iff_eq]
  tauto

/-- No class of the lexer has a byte above ASCII that a character starts with. -/
theorem high_not_classified {b : UInt8} (hb : 192 ≤ b.toNat) : isWhitespace b = false ∧
    isAsciiDigit b = false ∧ isIdentStart b = false ∧ isIdentPart b = false := by
  refine ⟨?_, ?_, ?_, ?_⟩ <;>
    simp only [isWhitespace, isAsciiDigit, isIdentStart, isIdentPart, isAsciiAlphabetic,
      Bool.or_eq_false_iff, Bool.and_eq_false_iff, decide_eq_false_iff_not, beq_eq_false_iff_ne] <;>
    omega

theorem takeWhile_digits : (utf8 cs).takeWhile isAsciiDigit = utf8 (cs.takeWhile Char.isDigit) :=
  takeWhile_ascii (fun _ => isDigit_lt) (fun _ hb => (high_not_classified hb).2.1)
    fun _ => isAsciiDigit_charByte

theorem takeWhile_name : (utf8 cs).takeWhile isIdentPart = utf8 (cs.takeWhile inName) :=
  takeWhile_ascii (fun _ => inName_lt) (fun _ hb => (high_not_classified hb).2.2.2)
    fun _ => isIdentPart_charByte

/-- A byte above ASCII stands for a character above ASCII. -/
theorem byteChar_high {b : UInt8} (hb : 128 ≤ b.toNat) : 128 ≤ (byteChar b).toNat := by
  have hlt : b.toNat < 256 := b.toNat_lt
  rw [byteChar, Char.ofNat, dif_pos (Or.inl (by omega))]
  exact hb

theorem takeWhile_line :
    (utf8 cs).takeWhile (fun b => byteChar b != '\n') = utf8 (cs.takeWhile (· != '\n')) := by
  have hnl : ∀ {b : UInt8}, 128 ≤ b.toNat → (byteChar b != '\n') = true := by
    intro b hb
    rw [bne_iff_ne]
    intro h
    have := byteChar_high hb
    rw [h] at this
    exact absurd this (by decide)
  refine takeWhile_utf8 (fun c hc b hb => ?_) fun c hc => ?_
  · by_cases hlow : c.toNat < 128
    · rw [encode_ascii hlow] at hb
      rw [List.mem_singleton.mp hb, byteChar_charByte hlow]
      exact hc
    · obtain ⟨b', bs, h, hb', hbs⟩ := encode_high (Nat.le_of_not_lt hlow)
      rw [h, List.mem_cons] at hb
      rcases hb with rfl | hb
      · exact hnl (Nat.le_trans (by decide) hb')
      · exact hnl (hbs b hb)
  · obtain rfl : c = '\n' := by simpa using hc
    exact ⟨_, _, encode_ascii (by decide), by decide⟩

end Classes

end Lexer
end Chakobsa
