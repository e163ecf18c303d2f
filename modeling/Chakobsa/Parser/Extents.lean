import Chakobsa.Parser.DeclOrder

/-!
# The two passes agree on where functions end

The first pass finds the end of a function by counting braces (`skip_block`), the second by
parsing its body, and nothing compares the two. `round_extent` is the reason why they agree: the
tokens of a declaration are a header and one block with balanced braces, and both passes take
exactly these.

`Rounds` says what the first pass did function by function; what is left of the input stands for
the position of the cursor. Whatever pass 1 succeeds on has an `Eof` that no function reaches
(`scan_hasEof`), so that nothing needs to be assumed of the tokens.
-/

namespace Chakobsa
namespace Parser

open Ir Lexer ExceptLemmas

/-! ### The cursor moves forward -/

/-- What `p` leaves of the tokens is their end. -/
def Forward {α : Type} (p : CursorM α) : Prop :=
  ∀ ⦃toks a toks'⦄, p toks = .ok (a, toks') → toks' <:+ toks

section Forward

variable {α β : Type} {n : ℕ}

theorem Forward.bind {p : CursorM α} {f : α → CursorM β} (hp : Forward p)
    (hf : ∀ a, Forward (f a)) : Forward (p >>= f) := by
  intro toks b toks' h
  obtain ⟨a, toks₁, ha, hb⟩ := cursor_bind.mp h
  exact (hf a hb).trans (hp ha)

theorem Forward.pure (a : α) : Forward (Pure.pure a : CursorM α) := by
  intro toks b toks' h
  obtain ⟨-, rfl⟩ := cursor_pure.mp h
  exact List.suffix_rfl

theorem Forward.fail (e : ParseError) : Forward (parseError e : CursorM α) := by
  intro toks b toks' h
  cases h

theorem Forward.ite {c : Prop} [Decidable c] {p q : CursorM α} (hp : Forward p)
    (hq : Forward q) : Forward (if c then p else q) := by
  split <;> assumption

theorem forward_peek : Forward peek := by
  intro toks t toks' h
  obtain ⟨rfl, -⟩ := peek_ok.mp h
  exact List.suffix_rfl

theorem forward_advance : Forward advance := by
  intro toks t toks' h
  match toks, h with
  | [u], h =>
    obtain ⟨-, rfl⟩ := Prod.mk.inj (Except.ok.inj h)
    exact List.suffix_rfl
  | u :: v :: rest, h =>
    obtain ⟨-, rfl⟩ := Prod.mk.inj (Except.ok.inj h)
    exact List.suffix_cons _ _

theorem forward_expect (kind : TokenKind) : Forward (expect kind) :=
  .bind forward_peek fun _ => .ite forward_advance (.fail _)

theorem forward_expectIdent : Forward expectIdent := by
  refine .bind forward_peek fun t => ?_
  cases t.kind with
  | ident name => exact .bind forward_advance fun _ => .pure _
  | _ => exact .fail _

theorem forward_expectType : Forward expectType := by
  refine .bind forward_peek fun t => ?_
  cases t.kind with
  | i64Kw | boolKw => exact .bind forward_advance fun _ => .pure _
  | _ => exact .fail _

theorem forward_parseParams (func : String) (params : List (String × Ty)) :
    Forward (parseParams func n params) := by
  induction n generalizing params with
  | zero =>
    intro toks a toks' h
    cases h
  | succ n ih =>
    have hrest : ∀ params, Forward (do
        let t ← peek
        if t.kind = .comma then do
          let _ ← advance
          parseParams func n params
        else return params) := fun params =>
      .bind forward_peek fun _ => .ite (.bind forward_advance fun _ => ih _) (.pure _)
    exact .bind forward_expectIdent fun _ => .bind (forward_expect _) fun _ =>
      .bind forward_expectType fun _ => .ite (.bind (.fail _) fun _ => hrest _) (hrest _)

theorem forward_parseFnHeader : Forward (parseFnHeader n) := by
  have hrest : ∀ name params, Forward (do
      let _ ← expect .rParen
      let _ ← expect .arrow
      let retTy ← expectType
      return (⟨name, params, some retTy⟩ : FnHeader)) := fun _ _ =>
    .bind (forward_expect _) fun _ => .bind (forward_expect _) fun _ =>
      .bind forward_expectType fun _ => .pure _
  exact .bind (forward_expect _) fun _ => .bind forward_expectIdent fun _ =>
    .bind (forward_expect _) fun _ => .bind forward_peek fun _ =>
    .ite (.bind (forward_parseParams _ _) fun _ => hrest _ _) (.bind (.pure _) fun _ => hrest _ _)

theorem forward_skipLoop (depth : ℕ) : Forward (skipLoop n depth) := by
  induction n generalizing depth with
  | zero =>
    cases depth with
    | zero => exact .pure _
    | succ depth =>
      intro toks a toks' h
      cases h
  | succ n ih =>
    cases depth with
    | zero => exact .pure _
    | succ depth =>
      refine .bind forward_peek fun t => ?_
      cases t.kind with
      | eof => exact .fail _
      | _ => exact .bind forward_advance fun _ => ih _

theorem forward_skipBlock : Forward (skipBlock n) :=
  .bind (forward_expect _) fun _ => forward_skipLoop _

end Forward

/-! ### The first pass, function by function -/

/-- What pass 1 does to the tokens `toks`: it goes over a header and skips a block for every
start, and enters the header's signature, until it finds an `Eof` at `last`. `sigs` are the
signatures it has entered in the end. -/
inductive Rounds (sigs : Sigs) (last : List Token) : List Token → List (List Token) → Prop where
  | done {t : Token} {tl : List Token} : t.kind = .eof → last = t :: tl → Rounds sigs last last []
  | round {m : ℕ} {toks body after : List Token} {h : FnHeader} {starts : List (List Token)} :
      toks.length ≤ m + 1 → parseFnHeader m toks = .ok (h, body) →
      skipBlock m body = .ok ((), after) →
      sigs h.name = some ⟨h.params.map Prod.snd, h.retTy⟩ → Rounds sigs last after starts →
      Rounds sigs last toks (toks :: starts)

section Rounds

variable {n N : ℕ} {sigs sigs' : Sigs} {toks last rest : List Token}
  {starts starts' : List (List Token)}

/-- A signature that is entered stays, because no other is entered under its name. -/
theorem scan_keeps (h : scanSignatures n sigs starts toks = .ok ((sigs', starts'), last)) {x : String}
    {s : FnSig} (hx : sigs x = some s) : sigs' x = some s := by
  induction n generalizing sigs starts toks with
  | zero => cases h
  | succ n ih =>
    cases toks with
    | nil => cases h
    | cons t toks =>
      by_cases ht : t.kind = .eof
      · rw [scanSignatures, cursor_peek, if_neg (by simp [ht])] at h
        obtain ⟨heq, -⟩ := cursor_pure.mp h
        obtain ⟨rfl, -⟩ := Prod.mk.inj heq
        exact hx
      · obtain ⟨hd, body, after, -, -, hfresh, h₂⟩ := scan_step ht h
        refine ih h₂ ?_
        have hne : x ≠ hd.name := by
          rintro rfl
          rw [hfresh] at hx
          cases hx
        rwa [insertAt, if_neg hne]

/-- A pass that succeeds has found an `Eof`. -/
theorem scan_hasEof (h : scanSignatures n sigs starts toks = .ok ((sigs', starts'), last)) :
    HasEof toks := by
  induction n generalizing sigs starts toks with
  | zero => cases h
  | succ n ih =>
    cases toks with
    | nil => cases h
    | cons t toks =>
      by_cases ht : t.kind = .eof
      · exact ⟨t, List.mem_cons_self, ht⟩
      · obtain ⟨hd, body, after, hheader, hskip, -, h₂⟩ := scan_step ht h
        obtain ⟨u, hu, heof⟩ := ih h₂
        have hsuffix := (forward_skipBlock hskip).trans (forward_parseFnHeader hheader)
        exact ⟨u, hsuffix.subset hu, heof⟩

/-- The rounds of a pass that succeeds; the fuel is enough for every one of them. -/
theorem scan_rounds (hn : toks.length ≤ n)
    (h : scanSignatures n sigs starts toks = .ok ((sigs', starts'), last)) :
    ∃ more, starts' = starts ++ more ∧ Rounds sigs' last toks more := by
  induction n generalizing sigs starts toks with
  | zero => cases h
  | succ n ih =>
    have hend := scan_hasEof h
    cases toks with
    | nil => cases h
    | cons t toks =>
      by_cases ht : t.kind = .eof
      · rw [scanSignatures, cursor_peek, if_neg (by simp [ht])] at h
        obtain ⟨heq, rfl⟩ := cursor_pure.mp h
        obtain ⟨rfl, rfl⟩ := Prod.mk.inj heq
        exact ⟨[], by simp, .done ht rfl⟩
      · obtain ⟨hd, body, after, hheader, hskip, -, h₂⟩ := scan_step ht h
        have hafter : after.length ≤ n := by
          obtain ⟨-, ty, -, hk⟩ := takes_header hend hheader
          have hlen := congrArg List.length (hk [])
          have hparams := (FnDecl.mk hd.name hd.params ty []).params_lt
          have hbody := (forward_skipBlock hskip).length_le
          simp only [kinds, List.length_map, List.length_append] at hlen
          omega
        obtain ⟨more, rfl, hrounds⟩ := ih hafter h₂
        have hsig : sigs' hd.name = some ⟨hd.params.map Prod.snd, hd.retTy⟩ :=
          scan_keeps h₂ (by rw [insertAt, if_pos rfl])
        exact ⟨(t :: toks) :: more, by simp, .round hn hheader hskip hsig hrounds⟩

/-- Pass 1 leaves the end of the tokens it starts from. -/
theorem Rounds.suffix (h : Rounds sigs last toks starts) : last <:+ toks := by
  induction h with
  | done => exact List.suffix_rfl
  | round _ hheader hskip _ _ ih =>
    exact ih.trans ((forward_skipBlock hskip).trans (forward_parseFnHeader hheader))

/-- Pass 1 stops at an `Eof`. -/
theorem Rounds.stops (h : Rounds sigs last toks starts) : ∃ t tl, last = t :: tl ∧ t.kind = .eof := by
  induction h with
  | done ht hlast => exact ⟨_, _, hlast, ht⟩
  | round _ _ _ _ _ ih => exact ih

theorem Rounds.hasEof (h : Rounds sigs last toks starts) : HasEof toks := by
  obtain ⟨t, tl, rfl, ht⟩ := h.stops
  exact ⟨t, h.suffix.subset List.mem_cons_self, ht⟩

/-- In tokens as `lex` returns them, that is the last token. -/
theorem Rounds.last_eq (h : Rounds sigs last toks starts) (hend : EndsInEof toks) :
    ∃ e, e.kind = .eof ∧ last = [e] := by
  obtain ⟨t, tl, rfl, ht⟩ := h.stops
  obtain ⟨before, rfl⟩ := h.suffix
  obtain ⟨init, u, heq, -, hinit⟩ := hend.suffix (List.cons_ne_nil t tl)
  cases init with
  | nil =>
    obtain ⟨rfl, rfl⟩ := List.cons.inj heq
    exact ⟨t, ht, rfl⟩
  | cons v init =>
    obtain ⟨rfl, -⟩ := List.cons.inj heq
    exact absurd ht (hinit t List.mem_cons_self)

/-- Both passes take the tokens of one declaration. -/
theorem round_extent {m : ℕ} {body after : List Token} {h : FnHeader} {f : Function}
    (hend : HasEof toks) (hm : toks.length ≤ m + 1) (hN : toks.length ≤ N)
    (hheader : parseFnHeader m toks = .ok (h, body)) (hskip : skipBlock m body = .ok ((), after))
    (hf : parseFunction N sigs toks = .ok (f, rest)) :
    rest = after ∧ f.name = h.name ∧ f.params = h.params ∧ f.retTy = h.retTy := by
  obtain ⟨hend', d, hshaped, hk⟩ := takes_function hend hf
  obtain ⟨td, rfl, htd, hrest, rfl⟩ := round_takes hk hend'.ne_nil hm hheader hskip
  have hne : after ≠ [] := by
    rintro rfl
    exact hend'.ne_nil (List.map_eq_nil_iff.mp hrest.symm)
  have hlen : d.tokens.length ≤ N := by
    rw [← htd, kinds, List.length_map]
    exact (List.length_append ▸ Nat.le_add_right _ _ : _ ≤ (td ++ after).length).trans hN
  obtain ⟨-, helab, rfl⟩ := (parseFunction_ok_iff hshaped hlen htd hne).mp hf
  exact ⟨rfl, elabFn_header helab⟩

/-- The second pass takes from `start` up to `rest` what the first one has gone over there, and
makes of it a function with the name, the parameters and the return type that the first one has
read and recorded. -/
def SameExtent (sigs : Sigs) (start rest : List Token) (f : Function) : Prop :=
  (∃ m body h, parseFnHeader m start = .ok (h, body) ∧ skipBlock m body = .ok ((), rest) ∧
    f.name = h.name ∧ f.params = h.params ∧ f.retTy = h.retTy) ∧
  sigs f.name = some ⟨f.params.map Prod.snd, f.retTy⟩

/-- Function `i` of a pass. -/
theorem Rounds.extent (h : Rounds sigs last toks starts) (hN : toks.length ≤ N) {i : ℕ}
    {start : List Token} (hi : starts[i]? = some start) {f : Function}
    (hf : parseFunction N sigs' start = .ok (f, rest)) :
    SameExtent sigs start rest f ∧
      (starts[i + 1]? = some rest ∨ i + 1 = starts.length ∧ rest = last) := by
  induction h generalizing i with
  | done => simp at hi
  | @round m toks body after hd starts hm hheader hskip hsig hrest ih =>
    cases i with
    | zero =>
      obtain rfl : toks = start := by simpa using hi
      have hend := (Rounds.round hm hheader hskip hsig hrest).hasEof
      obtain ⟨rfl, hname, hparams, hret⟩ := round_extent hend hm hN hheader hskip hf
      refine ⟨⟨⟨m, body, hd, hheader, hskip, hname, hparams, hret⟩, ?_⟩, ?_⟩
      · rw [hname, hparams, hret, hsig]
      · cases hrest with
        | done => exact .inr ⟨rfl, rfl⟩
        | round => exact .inl rfl
    | succ i =>
      have hafter : after.length ≤ N :=
        ((forward_skipBlock hskip).trans (forward_parseFnHeader hheader)).length_le.trans hN
      obtain ⟨hsame, hnext⟩ := ih hafter (by simpa using hi)
      exact ⟨hsame, hnext.imp (by simp) (by simp)⟩

/-- The tokens up to `last` are those of the functions, one after the other. -/
theorem Rounds.segments (h : Rounds sigs last toks starts) (hN : toks.length ≤ N)
    {fs : List Function} (hfs : List.Forall₂ (fun start f => ∃ rest,
      parseFunction N sigs' start = .ok (f, rest)) starts fs) :
    ∃ segments : List (List Token), toks = segments.flatten ++ last ∧
      segments.length = fs.length ∧ ∀ i f, fs[i]? = some f →
        parseFunction N sigs' ((segments.drop i).flatten ++ last) =
          .ok (f, (segments.drop (i + 1)).flatten ++ last) := by
  induction h generalizing fs with
  | done =>
    cases hfs
    exact ⟨[], rfl, rfl, by simp⟩
  | @round m toks body after hd starts hm hheader hskip hsig hrest ih =>
    cases hfs with
    | @cons _ f _ fs hf hfs =>
      obtain ⟨rest, hf⟩ := hf
      have hend := (Rounds.round hm hheader hskip hsig hrest).hasEof
      obtain ⟨rfl, -⟩ := round_extent hend hm hN hheader hskip hf
      have hsuffix := (forward_skipBlock hskip).trans (forward_parseFnHeader hheader)
      obtain ⟨segments, heq, hlen, hall⟩ := ih (hsuffix.length_le.trans hN) hfs
      obtain ⟨taken, htaken⟩ := hsuffix
      have hflat : toks = (taken :: segments).flatten ++ last := by
        rw [List.flatten_cons, List.append_assoc, ← heq, htaken]
      refine ⟨taken :: segments, hflat, by simp [hlen], fun i g hg => ?_⟩
      cases i with
      | zero =>
        obtain rfl : f = g := by simpa using hg
        rw [List.drop_zero, ← hflat, hf, heq]
        rfl
      | succ i => exact hall i g (by simpa using hg)

end Rounds

theorem parseFunctions_forall₂ {N : ℕ} {sigs : Sigs} {starts : List (List Token)}
    {toks toks' : List Token} {fs : List Function}
    (h : parseFunctions N sigs starts toks = .ok (fs, toks')) :
    List.Forall₂ (fun start f => ∃ rest, parseFunction N sigs start = .ok (f, rest)) starts fs := by
  induction starts generalizing toks toks' fs with
  | nil =>
    obtain ⟨rfl, -⟩ := cursor_pure.mp h
    exact .nil
  | cons start starts ih =>
    obtain ⟨f, toks₁, hf, h₁⟩ := cursor_bind.mp (show (do
        let f ← parseFunction N sigs
        let fs ← parseFunctions N sigs starts
        return f :: fs : CursorM _) start = .ok (fs, toks') from h)
    obtain ⟨gs, toks₂, hgs, h₂⟩ := cursor_bind.mp h₁
    obtain ⟨rfl, -⟩ := cursor_pure.mp h₂
    exact .cons ⟨toks₁, hf⟩ (ih hgs)

/-- The tokens of an accepted source are cut into one segment for each function and the `Eof`:
parsing function `i` starts at segment `i` and ends at segment `i + 1`. -/
def Partitioned (source : String) (M : Module) : Prop :=
  ∃ toks sigs segments e, lex source = .ok toks ∧ toks = List.flatten segments ++ [e] ∧
    e.kind = .eof ∧ segments.length = M.functions.length ∧
    ∀ i f, M.functions[i]? = some f →
      parseFunction (toks.length + 1) sigs ((segments.drop i).flatten ++ [e]) =
        .ok (f, (segments.drop (i + 1)).flatten ++ [e])

/-- **The two passes agree on extents.** -/
theorem passes_agree :
    (∀ toks sigs starts last,
      scanSignatures (toks.length + 1) (fun _ => none) [] toks = .ok ((sigs, starts), last) →
      (∃ t tl, last = t :: tl ∧ t.kind = .eof) ∧
      ∀ i start f rest, starts[i]? = some start →
        parseFunction (toks.length + 1) sigs start = .ok (f, rest) →
        SameExtent sigs start rest f ∧
          (starts[i + 1]? = some rest ∨ i + 1 = starts.length ∧ rest = last)) ∧
    ∀ source M, parse source = .ok M → Partitioned source M := by
  constructor
  · intro toks sigs starts last hscan
    obtain ⟨_, rfl, hrounds⟩ := scan_rounds (Nat.le_succ _) hscan
    exact ⟨hrounds.stops, fun i start f rest hi hf => hrounds.extent (Nat.le_succ _) hi hf⟩
  · intro source M hparse
    obtain ⟨toks, hlex, -⟩ := bind_eq_ok.mp hparse
    have hlex' := lexTokens_lex.mp hlex
    obtain ⟨toks', hM⟩ := (parse_iff_of_lex hlex').mp hparse
    obtain ⟨⟨sigs, starts⟩, last, hscan, h₂⟩ := cursor_bind.mp hM
    obtain ⟨fs, toks₂, hfs, h₃⟩ := cursor_bind.mp h₂
    obtain ⟨rfl, -⟩ := cursor_pure.mp h₃
    obtain ⟨_, rfl, hrounds⟩ := scan_rounds (Nat.le_succ _) hscan
    obtain ⟨segments, heq, hlen, hall⟩ :=
      hrounds.segments (Nat.le_succ _) (parseFunctions_forall₂ hfs)
    obtain ⟨e, he, rfl⟩ := hrounds.last_eq (lex_endsInEof hlex')
    exact ⟨toks, sigs, segments, e, hlex', heq, he, hlen, hall⟩

/-- The tokens of `fn f() -> i64 { }`, without their places. -/
def emptyFn : List Token :=
  [.fnKw, .ident "f", .lParen, .rParen, .arrow, .i64Kw, .lBrace, .rBrace, .eof].map fun k =>
    ⟨k, noSpan⟩

theorem passes_agree_two :
    (∃ sigs f rest, SameExtent sigs emptyFn rest f) ∧
      ∃ M, Partitioned "fn f() -> i64 \x7b return g(); \x7d fn g() -> i64 \x7b return 1; \x7d" M := by
  constructor
  · have hscan : scanSignatures (emptyFn.length + 1) (fun _ => none) [] emptyFn =
        .ok ((insertAt (fun _ => none) "f" (some ⟨[], some .i64⟩), [emptyFn]),
          [⟨.eof, noSpan⟩]) := by rfl
    obtain ⟨⟨f, rest⟩, hf⟩ := exists_of_isSome (show (parseFunction (emptyFn.length + 1)
      (insertAt (fun _ => none) "f" (some ⟨[], some .i64⟩)) emptyFn).toOption.isSome = true by
        decide +kernel)
    exact ⟨_, f, rest, ((passes_agree.1 _ _ _ _ hscan).2 0 emptyFn f rest rfl hf).1⟩
  · obtain ⟨M, hM⟩ := exists_of_isSome (show (parse
      "fn f() -> i64 \x7b return g(); \x7d fn g() -> i64 \x7b return 1; \x7d").toOption.isSome =
        true by decide +kernel)
    exact ⟨M, passes_agree.2 _ M hM⟩

end Parser
end Chakobsa
