import Chakobsa.Lexer.Cuts
import Chakobsa.Parser.Spending
import Chakobsa.Parser.Totality

/-!
# How much source the numbers of 32 bits are enough for

What a source asks of a builder is bounded by its tokens (`demand`), and the tokens by its bytes.
So `parse32` is `parse` on every source that is short enough, and on a longer one it is `parse` or
stops where a builder runs out of values.
-/

namespace Chakobsa
namespace Parser

open Ir Lexer ExceptLemmas

/-- The name that a token is. -/
def nameOf : TokenKind → Option String
  | .ident x => some x
  | _ => none

/-- The names among some tokens. -/
def names (toks : List Token) : Finset String := (toks.filterMap fun t => nameOf t.kind).toFinset

/-- The most values that the parser asks for, over these tokens: two for each, and a phi for each
name in each block. -/
def demand (toks : List Token) : ℕ := 2 * toks.length + (1 + 3 * branchings toks) * (names toks).card + 1

/-- The blocks and the parameters of a function have numbers of 32 bits. -/
structure Countable (toks : List Token) : Prop where
  blocks : 1 + 3 * branchings toks ≤ 2 ^ 32
  params : toks.length ≤ 2 ^ 32

theorem mem_names {toks : List Token} {x : String} : x ∈ names toks ↔ ∃ t ∈ toks, t.kind = .ident x := by
  rw [names, List.mem_toFinset, List.mem_filterMap]
  refine exists_congr fun t => and_congr_right fun _ => ?_
  cases t.kind <;> simp [nameOf]

/-- A token is a name or a branching keyword, or neither. -/
theorem names_branchings_le (toks : List Token) : (names toks).card + branchings toks ≤ toks.length := by
  refine (Nat.add_le_add_right (List.toFinset_card_le _) _).trans ?_
  induction toks with
  | nil => exact Nat.le_refl _
  | cons t toks ih =>
    have hcount : branchings (t :: toks) = branchings toks + if branching t.kind = true then 1 else 0 :=
      List.countP_cons
    have hone : ∀ k, (if branching k = true then 1 else 0) ≤ 1 := fun k => by split <;> decide
    rw [hcount, List.filterMap_cons, List.length_cons]
    cases t.kind with
    | ident x =>
      show _ + 1 + (_ + 0) ≤ _
      omega
    | _ => exact (Nat.add_le_add_left (Nat.add_le_add_left (hone _) _) _).trans (Nat.succ_le_succ ih)

/-! ### The two passes -/

section Passes

variable {n : ℕ} {sigs : Sigs} {toks start last : List Token} {starts : List (List Token)}

theorem Countable.bounds (h : Countable toks) :
    SsaBuilder.Bounds (names toks) (2 * toks.length) (1 + 3 * branchings toks) (2 ^ 32 ≤ demand toks) :=
  ⟨id, h.blocks⟩

/-- The header of a function pays for its parameters. -/
theorem Countable.affords (hc : Countable toks) (sigs : Sigs) (hstart : start <:+ toks) (hend : HasEof start)
    {h : FnHeader} {body : List Token} (hheader : parseFnHeader n start = .ok (h, body)) :
    Affords (names toks) (2 * toks.length) (1 + 3 * branchings toks) 0 0 (FnContext.new h sigs) body := by
  obtain ⟨hend', ty, -, hk⟩ := takes_header hend hheader
  have hparams := (FnDecl.mk h.name h.params ty []).params_lt
  have hlen := congrArg List.length (hk [])
  have hsub := hstart.length_le
  simp only [kinds, List.length_map, List.length_append] at hlen hparams
  have hsuffix : body <:+ toks := (forward_parseFnHeader hheader).trans hstart
  refine ⟨hend', fun t ht x hx => mem_names.mpr ⟨t, hsuffix.subset ht, hx⟩, ?_, ?_, ?_, ?_, ?_⟩
  · exact (Ghost.Sound.new h.name h.params h.retTy).ok.graph.indexed
  · show h.params.length + (2 * body.length + 0) ≤ _
    omega
  · have hle : branchings body ≤ branchings toks := hsuffix.sublist.countP_le
    show 1 + (3 * branchings body + 0) ≤ _
    omega
  · rintro b p ⟨⟩
  · have := hc.params
    show h.params.length < 2 ^ 32
    omega

/-- `parse_function`. -/
theorem Countable.parseFunction (hc : Countable toks) (hstart : start <:+ toks) (hend : HasEof start) :
    Comp.Limited (.builder .valueOverflow) (2 ^ 32 ≤ demand toks)
      (@Parser.parseFunction .u32 (@HasBackend.standard .u32) n sigs start)
      (Parser.parseFunction n sigs start) fun _ => True := by
  refine Comp.Limited.bind_same fun r hheader => ?_
  have hbody := paysFor_block hc.bounds n (hc.affords sigs hstart hend hheader)
  exact Comp.Limited.bind hbody fun _ _ => .ok trivial

/-- Every function starts within the tokens. -/
theorem Rounds.starts_suffix {sigs : Sigs} (h : Rounds sigs last toks starts) :
    ∀ s ∈ starts, s <:+ toks ∧ HasEof s := by
  induction h with
  | done => exact fun s hs => nomatch hs
  | round hm hheader hskip hsig hrest ih =>
    have hend := (Rounds.round hm hheader hskip hsig hrest).hasEof
    have hsuffix := (forward_skipBlock hskip).trans (forward_parseFnHeader hheader)
    exact List.forall_mem_cons.mpr ⟨⟨List.suffix_rfl, hend⟩, fun s hs =>
      ⟨(ih s hs).1.trans hsuffix, (ih s hs).2⟩⟩

theorem Countable.parseFunctions (hc : Countable toks) (hstarts : ∀ s ∈ starts, s <:+ toks ∧ HasEof s)
    (toks' : List Token) :
    Comp.Limited (.builder .valueOverflow) (2 ^ 32 ≤ demand toks)
      (@Parser.parseFunctions .u32 (@HasBackend.standard .u32) n sigs starts toks')
      (Parser.parseFunctions n sigs starts toks') fun _ => True := by
  induction starts generalizing toks' with
  | nil => exact .ok trivial
  | cons s starts ih =>
    obtain ⟨⟨hs, hend⟩, hstarts⟩ := List.forall_mem_cons.mp hstarts
    exact Comp.Limited.bind (hc.parseFunction hs hend) fun r _ =>
      Comp.Limited.bind (ih hstarts r.2) fun _ _ => .ok trivial

theorem Countable.parseModule (hc : Countable toks) (hn : toks.length ≤ n) :
    Comp.Limited (.builder .valueOverflow) (2 ^ 32 ≤ demand toks)
      (@Parser.parseModule .u32 (@HasBackend.standard .u32) n toks) (Parser.parseModule n toks)
      fun _ => True := by
  refine Comp.Limited.bind_same fun ⟨⟨sigs, starts⟩, last⟩ hscan => ?_
  obtain ⟨more, rfl, hrounds⟩ := scan_rounds hn hscan
  exact Comp.Limited.bind (hc.parseFunctions hrounds.starts_suffix last) fun _ _ => .ok trivial

end Passes

/-! ### Bytes -/

section Bytes

variable {kind : TokenKind} {text : List Char} {toks : List Token} {source : String}

theorem length_keyword {s : String} (h : keyword s = some kind) : 2 ≤ s.toList.length := by
  unfold keyword at h
  split at h <;> first | decide +kernel | cases h

/-- A branching keyword has two characters or more. -/
theorem size_branching (h : Spells kind text) (hk : branching kind = true) : 2 ≤ size text := by
  cases h with
  | int => cases hk
  | @word c cs hc hcs =>
    rw [size_eq_length (Spells.word hc hcs).ascii]
    cases cs with
    | nil =>
      -- no reserved word has one character
      cases hkey : keyword (String.ofList [c]) with
      | none =>
        rw [hkey] at hk
        cases hk
      | some k => exact (length_keyword hkey).trans_eq (congrArg List.length String.toList_ofList)
    | cons d cs => simp
  | mark h =>
    have hall : ∀ m ∈ marks, branching m.2 = false := by decide
    rw [hall _ h] at hk
    cases hk

/-- What the bytes of a text leave for its tokens; the `Eof` has none. -/
theorem Cuts.le_size {pos : ℕ} {cs : List Char} (h : Cuts pos cs toks) :
    toks.length + branchings toks ≤ size cs + 1 := by
  induction h with
  | nil => exact Nat.le_refl _
  | space hc _ ih =>
    rw [size_space _ hc]
    omega
  | @comment pos body cs tokens _ _ ih =>
    rw [size_append, size_space cs (c := '\n') (by decide)]
    omega
  | lastComment =>
    show 1 + 0 ≤ _
    omega
  | @token pos kind text cs tokens hspells _ _ ih =>
    have hpos := hspells.size_pos
    rw [size_append, List.length_cons]
    by_cases hk : branching kind = true
    · have hcount : branchings (⟨kind, ⟨pos, pos + size text⟩⟩ :: tokens) = branchings tokens + 1 :=
        List.countP_cons_of_pos (p := fun u : Token => branching u.kind) hk
      have := size_branching hspells hk
      omega
    · have hcount : branchings (⟨kind, ⟨pos, pos + size text⟩⟩ :: tokens) = branchings tokens :=
        List.countP_cons_of_neg (p := fun u : Token => branching u.kind) hk
      omega

theorem lex_le_size (h : lex source = .ok toks) : toks.length + branchings toks ≤ source.utf8ByteSize + 1 := by
  rw [← utf8_length]
  exact Cuts.le_size (lex_iff.mp h)

/-- Short sources are within all bounds: there is no room for many names and many branches. -/
theorem demand_lt (h : lex source = .ok toks) (hsize : source.utf8ByteSize < 2 ^ 16) :
    demand toks < 2 ^ 32 := by
  have hle := lex_le_size h
  have hnames := names_branchings_le toks
  have hcases : (names toks).card ≤ 2 ^ 15 ∧ branchings toks ≤ 2 ^ 15 ∨
      (names toks).card ≤ 2 ^ 16 ∧ branchings toks ≤ 2 ^ 14 := by omega
  have hmul : (1 + 3 * branchings toks) * (names toks).card ≤ 3 * 2 ^ 30 + 2 ^ 16 := by
    rcases hcases with ⟨hn, hb⟩ | ⟨hn, hb⟩
    · exact (Nat.mul_le_mul (show 1 + 3 * branchings toks ≤ 1 + 3 * 2 ^ 15 by omega) hn).trans (by decide)
    · exact (Nat.mul_le_mul (show 1 + 3 * branchings toks ≤ 1 + 3 * 2 ^ 14 by omega) hn).trans (by decide)
  unfold demand
  omega

theorem countable_of_lex (h : lex source = .ok toks) (hsize : source.utf8ByteSize < 2 ^ 31) :
    Countable toks := by
  have hle := lex_le_size h
  have hnames := names_branchings_le toks
  exact ⟨by omega, by omega⟩

end Bytes

/-- A builder may run out of values: the tokens of the source do not rule it out. -/
def Exhausting (source : String) : Prop := ∃ toks, lex source = .ok toks ∧ 2 ^ 32 ≤ demand toks

theorem not_exhausting {source : String} (hsize : source.utf8ByteSize < 2 ^ 16) : ¬ Exhausting source :=
  fun ⟨_, hlex, hdemand⟩ => absurd (demand_lt hlex hsize) (Nat.not_lt.mpr hdemand)

/-- Over numbers of 32 bits `parse` does what it does over natural numbers, or runs out of values. -/
theorem parse32_limited {source : String} (hsize : source.utf8ByteSize < 2 ^ 31) :
    Comp.Limited (.builder .valueOverflow) (Exhausting source) (parse32 source) (parse source)
      fun _ => True := by
  refine Comp.Limited.bind_same fun toks htoks => ?_
  have hlex := lexTokens_lex.mp htoks
  have hmodule := (countable_of_lex hlex hsize).parseModule (Nat.le_succ _)
  exact Comp.Limited.bind (hmodule.because fun h => ⟨toks, hlex, h⟩) fun _ _ => .ok trivial

/-- The front end ends with a value or a typed error, unless a builder runs out of its `2 ^ 32`
values; and no source of less than `2 ^ 16` bytes asks for so many. -/
theorem frontEnd_limited {source : String} (hsize : source.utf8ByteSize < 2 ^ 31) :
    (lex source).Graceful ∧
      ((parse32 source).Graceful ∨
        parse32 source = Comp.panic (.builder .valueOverflow) ∧ Exhausting source) ∧
      (source.utf8ByteSize < 2 ^ 16 → (parse32 source).Graceful) := by
  have htotal := frontEnd_total source
  have hlimited := parse32_limited hsize
  refine ⟨htotal.1, hlimited.graceful htotal.2, fun hshort => ?_⟩
  exact hlimited.eq (not_exhausting hshort) ▸ htotal.2

/-- `parse` ends on a source that breaks off in a condition. -/
theorem frontEnd_limited_brokenOff :
    (lex "fn f(n: i64) -> i64 \x7b while n < ").Graceful ∧
      (parse32 "fn f(n: i64) -> i64 \x7b while n < ").Graceful :=
  ⟨(frontEnd_limited (by decide)).1, (frontEnd_limited (by decide)).2.2 (by decide)⟩

end Parser
end Chakobsa
