import Chakobsa.Lexer.Cuts

/-!
# Lexing is lossless

The spans of the tokens are disjoint pieces of the source in order, what is between them is blank,
and the text of a span is a text of its token: `lex_lossless`. The other way round, tokens written
one after the other with blanks between them are read back: `lex_render`.

Both follow from `lex_iff`. For the first the induction is on the cut of the source; the blank text
since the last token is carried along until the next one ends it.
-/

namespace Chakobsa
namespace Lexer

open Ir

/-- White space, and comments that run to the end of their line. -/
inductive Blank : List Char → Prop where
  | nil : Blank []
  | space {c : Char} {cs : List Char} : isSpace c = true → Blank cs → Blank (c :: cs)
  | comment {body cs : List Char} : '\n' ∉ body → Blank cs →
      Blank ('/' :: '/' :: body ++ '\n' :: cs)

/-- Blank text at the end of the source, where a comment needs no end of line. -/
def BlankToEnd (cs : List Char) : Prop :=
  Blank cs ∨ ∃ before body, cs = before ++ '/' :: '/' :: body ∧ Blank before ∧ '\n' ∉ body

/-- `source[start..stop]` is `text`. -/
def Slice (source : String) (start stop : ℕ) (text : String) : Prop :=
  ∃ before after, source = before ++ text ++ after ∧ before.utf8ByteSize = start ∧
    start + text.utf8ByteSize = stop

/-- Where the last of some tokens ends. -/
def endOf (start : ℕ) (tokens : List Token) : ℕ := (tokens.getLast?.map fun t => t.span.stop).getD start

/-- The tokens account for the source from the offset `start` on. -/
structure Lossless (source : String) (start : ℕ) (tokens : List Token) : Prop where
  /-- The last token is the only `Eof`, at the end. -/
  last : ∃ init, tokens = init ++ [⟨.eof, ⟨source.utf8ByteSize, source.utf8ByteSize⟩⟩] ∧
    ∀ t ∈ init, t.kind ≠ .eof
  ordered : tokens.Pairwise fun t u => t.span.stop ≤ u.span.start
  /-- The span of a token is not empty, and the text in it is that token. -/
  text : ∀ t ∈ tokens, t.kind ≠ .eof → start ≤ t.span.start ∧ t.span.start < t.span.stop ∧
    ∃ text, Slice source t.span.start t.span.stop text ∧
      lex text = .ok [⟨t.kind, ⟨0, text.utf8ByteSize⟩⟩,
        ⟨.eof, ⟨text.utf8ByteSize, text.utf8ByteSize⟩⟩]
  /-- What is before a token, back to the one before it, is blank. -/
  gaps : ∀ before t after, tokens = before ++ t :: after → ∃ gap,
    Slice source (endOf start before) t.span.start gap ∧
      if t.kind = .eof then BlankToEnd gap.toList else Blank gap.toList

section Pieces

variable {source : String} {start stop pos : ℕ} {cs ds : List Char} {tokens : List Token} {t : Token}

theorem Blank.append (h : Blank cs) (h' : Blank ds) : Blank (cs ++ ds) := by
  induction h with
  | nil => exact h'
  | space hc _ ih => exact .space hc ih
  | @comment body cs hbody _ ih =>
    rw [List.append_assoc]
    exact .comment hbody ih

theorem size_ofList (cs : List Char) : (String.ofList cs).utf8ByteSize = size cs := by
  rw [← utf8_length, String.toList_ofList]
  rfl

/-- A piece of the characters is a slice. -/
theorem Slice.of_append (h : source.toList = cs ++ ds) (text : List Char) {rest : List Char}
    (hds : ds = text ++ rest) : Slice source (size cs) (size cs + size text) (String.ofList text) := by
  refine ⟨String.ofList cs, String.ofList rest, ?_, size_ofList cs, by rw [size_ofList]⟩
  rw [← String.ofList_append, ← String.ofList_append, List.append_assoc, ← hds, ← h, String.ofList_toList]

theorem Slice.stop_le {text : String} (h : Slice source start stop text) :
    stop ≤ source.utf8ByteSize := by
  obtain ⟨before, after, rfl, rfl, rfl⟩ := h
  rw [String.utf8ByteSize_append, String.utf8ByteSize_append]
  exact Nat.le_add_right _ _

/-- A token's text is that token. -/
theorem Spells.lex {kind : TokenKind} {text : List Char} (h : Spells kind text) :
    Lexer.lex (String.ofList text) = .ok [⟨kind, ⟨0, (String.ofList text).utf8ByteSize⟩⟩,
      ⟨.eof, ⟨(String.ofList text).utf8ByteSize, (String.ofList text).utf8ByteSize⟩⟩] := by
  rw [lex_iff, String.toList_ofList, size_ofList]
  have hcut : Cuts (0 + size text) [] _ := .nil
  have htoken := Cuts.token h (by simp [Stops]) hcut
  rw [List.append_nil, Nat.zero_add] at htoken
  exact htoken

theorem Lossless.nil {gap : String} (hgap : Slice source start source.utf8ByteSize gap)
    (hblank : BlankToEnd gap.toList) :
    Lossless source start [⟨.eof, ⟨source.utf8ByteSize, source.utf8ByteSize⟩⟩] := by
  refine ⟨⟨[], rfl, by simp⟩, List.pairwise_singleton _ _, fun t ht hne => ?_, fun before t after heq => ?_⟩
  · obtain rfl := List.mem_singleton.mp ht
    exact absurd rfl hne
  · cases before with
    | nil =>
      obtain ⟨rfl, -⟩ := List.cons.inj heq
      exact ⟨gap, hgap, by rw [if_pos rfl]; exact hblank⟩
    | cons u before => simp at heq

theorem Lossless.cons {gap text : String} (h : Lossless source t.span.stop tokens)
    (hgap : Slice source start t.span.start gap) (hblank : Blank gap.toList) (hkind : t.kind ≠ .eof)
    (hlt : t.span.start < t.span.stop) (htext : Slice source t.span.start t.span.stop text)
    (hlex : lex text = .ok [⟨t.kind, ⟨0, text.utf8ByteSize⟩⟩,
      ⟨.eof, ⟨text.utf8ByteSize, text.utf8ByteSize⟩⟩]) : Lossless source start (t :: tokens) := by
  have hstart : start ≤ t.span.start := by
    obtain ⟨_, _, -, rfl, heq⟩ := hgap
    omega
  obtain ⟨init, rfl, hinit⟩ := h.last
  refine ⟨⟨t :: init, rfl, List.forall_mem_cons.mpr ⟨hkind, hinit⟩⟩, ?_, ?_, ?_⟩
  · refine List.pairwise_cons.mpr ⟨fun u hu => ?_, h.ordered⟩
    by_cases hu' : u.kind = .eof
    · rcases List.mem_append.mp hu with hu | hu
      · exact absurd hu' (hinit u hu)
      · rw [List.mem_singleton.mp hu]
        exact htext.stop_le
    · exact (h.text u hu hu').1
  · rintro u hu hne
    rcases List.mem_cons.mp hu with rfl | hu
    · exact ⟨hstart, hlt, text, htext, hlex⟩
    · obtain ⟨hle, hrest⟩ := h.text u hu hne
      exact ⟨Nat.le_trans hstart (Nat.le_trans (Nat.le_of_lt hlt) hle), hrest⟩
  · intro before u after heq
    cases before with
    | nil =>
      obtain ⟨rfl, -⟩ := List.cons.inj heq
      exact ⟨gap, hgap, by rw [if_neg hkind]; exact hblank⟩
    | cons v before =>
      obtain ⟨rfl, hrest⟩ := List.cons.inj heq
      have hend : endOf start (t :: before) = endOf t.span.stop before := by
        unfold endOf
        rw [List.getLast?_cons]
        cases before.getLast? <;> rfl
      rw [hend]
      exact h.gaps before u after hrest

end Pieces

/-- The tokens of a cut account for the text cut, `gap` being the blank text since the last
token. -/
theorem lossless_of_cuts {source : String} {pos : ℕ} {before gap cs : List Char} {tokens : List Token}
    (h : Cuts pos cs tokens) (hsource : source.toList = before ++ (gap ++ cs))
    (hpos : size before + size gap = pos) (hgap : Blank gap) :
    Lossless source (size before) tokens := by
  have htotal : source.utf8ByteSize = size before + (size gap + size cs) := by
    rw [← utf8_length, hsource, ← size_append, ← size_append]
    rfl
  induction h generalizing before gap with
  | @nil pos =>
    have hstop : pos = source.utf8ByteSize := by
      rw [htotal, ← hpos]
      rfl
    have hslice := Slice.of_append hsource gap rfl
    rw [hpos, hstop] at hslice
    rw [hstop]
    exact .nil hslice (by rw [String.toList_ofList]; exact .inl hgap)
  | @space pos c cs tokens hc _ ih =>
    -- blank text goes into the gap
    have hsize : size [c] = 1 := size_space [] hc
    have hsource' : source.toList = before ++ ((gap ++ [c]) ++ cs) := by
      rw [hsource]
      simp
    refine ih hsource' ?_ (hgap.append (.space hc .nil)) ?_
    · rw [size_append, hsize, ← Nat.add_assoc, hpos]
    · rw [htotal, size_append, hsize, size_space _ hc]
      omega
  | @comment pos body cs tokens hbody _ ih =>
    have hsize : size ('/' :: '/' :: body ++ ['\n']) = size ('/' :: '/' :: body) + 1 := size_append _ _
    have hsource' : source.toList =
        before ++ ((gap ++ ('/' :: '/' :: body ++ ['\n'])) ++ cs) := by
      rw [hsource]
      simp
    refine ih hsource' ?_
      (hgap.append (.comment hbody .nil)) ?_
    · rw [size_append, hsize]
      omega
    · rw [htotal, size_append, size_append, size_append, size_space _ (c := '\n') (by decide)]
      have : size ['\n'] = 1 := rfl
      omega
  | @lastComment pos body hbody =>
    -- a comment that the end of the source ends is part of the last gap
    have hstop : pos + size ('/' :: '/' :: body) = source.utf8ByteSize := by
      rw [htotal, ← hpos, Nat.add_assoc]
    have hslice := Slice.of_append hsource (gap ++ '/' :: '/' :: body) (List.append_nil _).symm
    rw [size_append, ← Nat.add_assoc, hpos, hstop] at hslice
    rw [hstop]
    exact .nil hslice (by rw [String.toList_ofList]; exact .inr ⟨gap, body, rfl, hgap, hbody⟩)
  | @token pos kind text cs tokens hs hstop _ ih =>
    -- after a token the gap is empty again
    have hrest : Lossless source (size (before ++ (gap ++ text))) tokens := by
      have hsource' : source.toList = (before ++ (gap ++ text)) ++ ([] ++ cs) := by
        rw [hsource]
        simp
      refine ih hsource' ?_ .nil ?_
      · rw [size_append, size_append, ← hpos]
        exact Nat.add_assoc _ _ _ |>.symm
      · rw [htotal, size_append, size_append, size_append]
        have : size [] = 0 := rfl
        omega
    have hend : size (before ++ (gap ++ text)) = pos + size text := by
      rw [size_append, size_append, ← hpos, Nat.add_assoc]
    rw [hend] at hrest
    have hslice := Slice.of_append hsource gap rfl
    rw [hpos] at hslice
    have hsource' : source.toList = (before ++ gap) ++ (text ++ cs) := by
      rw [hsource, List.append_assoc]
    have htext := Slice.of_append hsource' text rfl
    rw [size_append, hpos] at htext
    exact .cons (t := ⟨kind, ⟨pos, pos + size text⟩⟩) hrest hslice
      (by rw [String.toList_ofList]; exact hgap) hs.ne_eof (Nat.lt_add_of_pos_right hs.size_pos) htext
      hs.lex

/-- Lexing is lossless. -/
theorem lex_lossless {source : String} {tokens : List Token} (h : lex source = .ok tokens) :
    Lossless source 0 tokens :=
  @lossless_of_cuts source 0 [] [] source.toList tokens (lex_iff.mp h) rfl rfl .nil

/-- A source with a comment of more than ASCII. -/
theorem lex_sum : lex "a+12 // é" = .ok [⟨.ident "a", ⟨0, 1⟩⟩, ⟨.plus, ⟨1, 2⟩⟩, ⟨.int 12, ⟨2, 4⟩⟩,
    ⟨.eof, ⟨10, 10⟩⟩] := by
  rfl

theorem lex_lossless_sum : Lossless "a+12 // é" 0 [⟨.ident "a", ⟨0, 1⟩⟩, ⟨.plus, ⟨1, 2⟩⟩,
    ⟨.int 12, ⟨2, 4⟩⟩, ⟨.eof, ⟨10, 10⟩⟩] :=
  lex_lossless lex_sum

end Lexer
end Chakobsa
