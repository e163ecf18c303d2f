import Chakobsa.Parser.Statements

/-!
# What `parse` does

The first pass skips bodies by counting braces, so it depends on the tokens having balanced ones
(`Balanced`): `skip_block` passes over such tokens without leaving the braces it is in, and the
tokens of every statement are like that.

`parseModule_ok_iff`: on the tokens of a program the two passes succeed exactly when the functions
have distinct names, each has distinct parameters, and each can be elaborated against the
signatures of all. `parse_renders` says so of `parse`, and `parse_ok` that whatever `parse` accepts
is such a program.
-/

namespace Chakobsa
namespace Parser

open Ir Lexer ExceptLemmas

section Cursor

variable {α β : Type} {t : Token} {toks : List Token}

theorem cursor_peek (f : Token → CursorM β) : (peek >>= f) (t :: toks) = f t (t :: toks) := rfl

theorem cursor_advance (h : toks ≠ []) (f : Token → CursorM β) :
    (advance >>= f) (t :: toks) = f t toks := by
  show (advance (t :: toks) >>= fun r => f r.1 r.2) = _
  rw [advance_cons h]
  rfl

theorem cursor_expect {kind : TokenKind} (hkind : t.kind = kind) (h : toks ≠ [])
    (f : Token → CursorM β) : (expect kind >>= f) (t :: toks) = f t toks := by
  show (expect kind (t :: toks) >>= fun r => f r.1 r.2) = _
  rw [expect_cons hkind h]
  rfl

theorem cursor_expectIdent {x : String} (hkind : t.kind = .ident x) (h : toks ≠ [])
    (f : String → CursorM β) : (expectIdent >>= f) (t :: toks) = f x toks := by
  show (expectIdent (t :: toks) >>= fun r => f r.1 r.2) = _
  rw [expectIdent_cons hkind h]
  rfl

theorem cursor_expectType {ty : Ty} (hkind : t.kind = tyToken ty) (h : toks ≠ [])
    (f : Ty → CursorM β) : (expectType >>= f) (t :: toks) = f ty toks := by
  obtain ⟨k, sp⟩ := t
  obtain rfl : k = tyToken ty := hkind
  have hok : expectType (⟨tyToken ty, sp⟩ :: toks) = .ok (ty, toks) := by
    cases ty <;>
    · show (advance (_ :: toks) >>= fun r => _) = _
      rw [advance_cons h]
      rfl
  show (expectType (_ :: toks) >>= fun r => f r.1 r.2) = _
  rw [hok]
  rfl

theorem cursor_pure {a b : α} {toks' : List Token} :
    (pure a : CursorM α) toks = .ok (b, toks') ↔ b = a ∧ toks' = toks := by
  show Except.ok (a, toks) = _ ↔ _
  simp only [Except.ok.injEq, Prod.mk.injEq]
  tauto

end Cursor

/-! ### Skipping a body -/

/-- Tokens with balanced braces, none of them the end of input. -/
inductive Balanced : List TokenKind → Prop where
  | nil : Balanced []
  | cons {k : TokenKind} {ks : List TokenKind} (hk : k ∉ [TokenKind.lBrace, .rBrace, .eof])
      (h : Balanced ks) : Balanced (k :: ks)
  | braces {ks ks' : List TokenKind} (h : Balanced ks) (h' : Balanced ks') :
      Balanced (.lBrace :: (ks ++ .rBrace :: ks'))

section Balanced

theorem Balanced.append {ks ks' : List TokenKind} (h : Balanced ks) (h' : Balanced ks') :
    Balanced (ks ++ ks') := by
  induction h with
  | nil => exact h'
  | cons hk _ ih => exact .cons hk ih
  | @braces ks₁ ks₂ h₁ _ _ ih₂ =>
    rw [List.cons_append, List.append_assoc, List.cons_append]
    exact .braces h₁ ih₂

theorem Balanced.single {k : TokenKind} (hk : k ∉ [TokenKind.lBrace, .rBrace, .eof]) : Balanced [k] :=
  .cons hk .nil

theorem balanced_expr (e : Expr) : Balanced e.tokens := by
  induction e with
  | int n => exact .single (by simp)
  | bool b => exact .single (by cases b <;> simp)
  | var x => exact .single (by simp)
  | call f args ih =>
    have hargs : ∀ sep, Balanced sep → Balanced (exprsTokens sep args) := by
      induction args with
      | nil => exact fun _ _ => .nil
      | cons e es ihes =>
        intro sep hsep
        exact hsep.append ((ih e List.mem_cons_self).append
          (ihes (fun e he => ih e (List.mem_cons_of_mem _ he)) [.comma] (.single (by simp))))
    exact .cons (by simp) (.cons (by simp) ((hargs [] .nil).append (.single (by simp))))
  | paren e ih => exact .cons (by simp) (ih.append (.single (by simp)))
  | un op e ih => exact .cons (by cases op <;> simp [unToken]) ih
  | bin op l r ihl ihr => exact ihl.append (.cons (by cases op <;> simp [Operator.token]) ihr)
  | logic op l r ihl ihr => exact ihl.append (.cons (by cases op <;> simp [Connective.token]) ihr)

theorem balanced_semicolon : Balanced [.semicolon] := .single (by simp)

mutual

theorem balanced_stmt : (s : Stmt) → Balanced s.tokens
  | .letVar x e =>
    .cons (by simp) (.cons (by simp) (.cons (by simp) ((balanced_expr e).append balanced_semicolon)))
  | .assign x e => .cons (by simp) (.cons (by simp) ((balanced_expr e).append balanced_semicolon))
  | .ret e => .cons (by simp) ((balanced_expr e).append balanced_semicolon)
  | .expr e => (balanced_expr e).append balanced_semicolon
  | .cond c thn els => .cons (by simp) ((balanced_expr c).append
      (.braces (balanced_stmts thn) (balanced_else els)))
  | .while c body => .cons (by simp) ((balanced_expr c).append (.braces (balanced_stmts body) .nil))

theorem balanced_else : (els : Else) → Balanced els.tokens
  | .none => .nil
  | .block b => .cons (by simp) (.braces (balanced_stmts b) .nil)
  | .elif c thn els => .cons (by simp) (.cons (by simp) ((balanced_expr c).append
      (.braces (balanced_stmts thn) (balanced_else els))))

theorem balanced_stmts : (ss : List Stmt) → Balanced (stmtsTokens ss)
  | [] => .nil
  | s :: rest => (balanced_stmt s).append (balanced_stmts rest)

end

/-- `skip_block` passes over tokens with balanced braces without leaving the braces it is in. -/
theorem skipLoop_balanced {ks : List TokenKind} (h : Balanced ks) {ts rest : List Token}
    (hts : kinds ts = ks) (hrest : rest ≠ []) (m depth : ℕ) :
    skipLoop (ks.length + m) (depth + 1) (ts ++ rest) = skipLoop m (depth + 1) rest := by
  induction h generalizing m depth ts rest with
  | nil =>
    obtain rfl := kinds_nil_split hts
    rw [List.length_nil, Nat.zero_add, List.nil_append]
  | @cons k ks hk _ ih =>
    obtain ⟨⟨k', sp⟩, t₂, rfl, rfl, ht₂⟩ := kinds_cons_split hts
    have hstep : skipLoop (ks.length + m + 1) (depth + 1) (⟨k', sp⟩ :: (t₂ ++ rest)) =
        skipLoop (ks.length + m) (depth + 1) (t₂ ++ rest) := by
      rw [skipLoop, cursor_peek]
      have hadv := cursor_advance (t := ⟨k', sp⟩) (show t₂ ++ rest ≠ [] by simp [hrest])
        fun _ => skipLoop (ks.length + m) (depth + 1)
      cases k' with
      | lBrace | rBrace | eof => simp at hk
      | _ => exact hadv
    rw [List.cons_append, List.length_cons, Nat.add_right_comm, hstep]
    exact ih ht₂ hrest m depth
  | @braces ks ks' _ _ ih ih' =>
    obtain ⟨⟨k, sp⟩, t₂, rfl, rfl, ht₂⟩ := kinds_cons_split hts
    obtain ⟨t₃, t₄, rfl, ht₃, ht₄⟩ := kinds_append_split ht₂
    obtain ⟨⟨k, sp'⟩, t₅, rfl, rfl, ht₅⟩ := kinds_cons_split ht₄
    have hlen : (TokenKind.lBrace :: (ks ++ .rBrace :: ks')).length + m =
        ks.length + (ks'.length + m + 1) + 1 := by
      simp only [List.length_cons, List.length_append]
      omega
    rw [hlen, List.cons_append, List.append_assoc, skipLoop, cursor_peek]
    show (advance >>= fun _ => skipLoop (ks.length + (ks'.length + m + 1)) (depth + 2)) _ = _
    rw [cursor_advance (by simp), ih ht₃ (by simp) _ (depth + 1), List.cons_append, skipLoop,
      cursor_peek]
    show (advance >>= fun _ => skipLoop (ks'.length + m) (depth + 1)) _ = _
    rw [cursor_advance (by simp [hrest]), ih' ht₅ hrest m depth]

/-- `skip_block` passes over a block. -/
theorem skipBlock_ok {n : ℕ} {ss : List Stmt} {ts rest : List Token}
    (hts : kinds ts = blockTokens ss) (hn : (blockTokens ss).length ≤ n) (hrest : rest ≠ []) :
    skipBlock n (ts ++ rest) = .ok ((), rest) := by
  obtain ⟨t, ts', rfl, ht, hts'⟩ := kinds_cons_split hts
  obtain ⟨tb, tl, rfl, htb, htl⟩ := kinds_append_split hts'
  obtain ⟨⟨k, sp⟩, tl', rfl, rfl, htl'⟩ := kinds_cons_split htl
  obtain rfl := kinds_nil_split htl'
  obtain ⟨m, rfl⟩ : ∃ m, n = (stmtsTokens ss).length + (m + 1) := by
    simp only [blockTokens, List.length_cons, List.length_append, List.length_nil] at hn
    exact ⟨n - (stmtsTokens ss).length - 1, by omega⟩
  rw [skipBlock, List.cons_append, cursor_expect ht (by simp), List.append_assoc,
    skipLoop_balanced (balanced_stmts ss) htb (by simp) (m + 1) 0, List.cons_append, skipLoop, cursor_peek]
  show (advance >>= fun _ => skipLoop m 0) _ = _
  rw [cursor_advance (by simpa using hrest)]
  cases m <;> rfl

end Balanced

/-! ### Headers -/

section Header

variable {n : ℕ} {func : String} {ts rest toks' : List Token}

theorem any_name_iff {ps : List (String × Ty)} {x : String} :
    (ps.any fun p => p.1 == x) = true ↔ x ∈ ps.map Prod.fst := by
  simp only [List.any_eq_true, beq_iff_eq, List.mem_map]

theorem nodup_names_snoc {acc : List (String × Ty)} {p : String × Ty}
    (hacc : (acc.map Prod.fst).Nodup) :
    ((acc ++ [p]).map Prod.fst).Nodup ↔ p.1 ∉ acc.map Prod.fst := by
  rw [List.map_append, List.nodup_append]
  simp only [hacc, List.map_cons, List.map_nil, List.nodup_cons, List.not_mem_nil, not_false_iff,
    List.nodup_nil, List.mem_cons, or_false, true_and, and_self]
  constructor
  · exact fun h hm => h _ hm _ rfl rfl
  · rintro h a ha b rfl rfl
    exact h ha

/-- A parameter, and what follows it: a comma with further ones, or the end. -/
theorem parseParams_step {acc : List (String × Ty)} {p : String × Ty} {tx tc ty : Token}
    (hx : tx.kind = .ident p.1) (hc : tc.kind = .colon) (hty : ty.kind = tyToken p.2)
    {t : Token} {toks : List Token} :
    parseParams func (n + 1) acc (tx :: tc :: ty :: t :: toks) =
      if p.1 ∈ acc.map Prod.fst then .error (.err (.duplicateParameter func p.1))
      else if t.kind = .comma then
        (advance >>= fun _ => parseParams func n (acc ++ [p])) (t :: toks)
      else .ok (acc ++ [p], t :: toks) := by
  rw [parseParams, cursor_expectIdent hx (by simp), cursor_expect hc (by simp),
    cursor_expectType hty (by simp)]
  by_cases hdup : p.1 ∈ acc.map Prod.fst
  · rw [if_pos hdup, if_pos (any_name_iff.mpr hdup)]
    rfl
  · rw [if_neg hdup, if_neg (mt any_name_iff.mp hdup)]
    show (peek >>= fun t => if t.kind = .comma then
      advance >>= fun _ => parseParams func n (acc ++ [p]) else pure (acc ++ [p])) _ = _
    rw [cursor_peek]
    by_cases ht : t.kind = .comma
    · rw [if_pos ht, if_pos ht]
    · rw [if_neg ht, if_neg ht]
      rfl

theorem parseParams_ok_iff {ps acc qs : List (String × Ty)} (hne : ps ≠ []) (hn : ps.length ≤ n)
    (hacc : (acc.map Prod.fst).Nodup) (hts : kinds ts = paramsTokens [] ps) {t : Token}
    (ht : t.kind = .rParen) :
    parseParams func n acc (ts ++ t :: rest) = .ok (qs, toks') ↔
      ((acc ++ ps).map Prod.fst).Nodup ∧ qs = acc ++ ps ∧ toks' = t :: rest := by
  induction ps generalizing n acc ts with
  | nil => exact absurd rfl hne
  | cons p ps ih =>
    obtain ⟨n, rfl⟩ : ∃ m, n = m + 1 := ⟨n - 1, by simp at hn; omega⟩
    obtain ⟨tx, ts₁, rfl, hx, hts₁⟩ := kinds_cons_split hts
    obtain ⟨tc, ts₂, rfl, hc, hts₂⟩ := kinds_cons_split hts₁
    obtain ⟨ty, ts₃, rfl, hty, hts₃⟩ := kinds_cons_split hts₂
    have hsnoc := nodup_names_snoc (p := p) hacc
    cases ps with
    | nil =>
      obtain rfl := kinds_nil_split hts₃
      simp only [List.cons_append, List.nil_append]
      rw [parseParams_step hx hc hty, if_neg (show ¬ t.kind = .comma by simp [ht])]
      by_cases hdup : p.1 ∈ acc.map Prod.fst
      · rw [if_pos hdup]
        simp only [reduceCtorEq, false_iff, not_and]
        exact fun h => absurd hdup (hsnoc.mp h)
      · rw [if_neg hdup]
        simp only [Except.ok.injEq, Prod.mk.injEq, hsnoc.mpr hdup, true_and]
        exact and_congr eq_comm eq_comm
    | cons p' ps =>
      obtain ⟨u, ts₄, rfl, hu, hts₄⟩ := kinds_cons_split hts₃
      simp only [List.cons_append]
      rw [parseParams_step hx hc hty, if_pos (show u.kind = .comma from hu)]
      by_cases hdup : p.1 ∈ acc.map Prod.fst
      · rw [if_pos hdup]
        simp only [reduceCtorEq, false_iff, not_and]
        intro h
        rw [List.append_cons, List.map_append] at h
        exact absurd hdup (hsnoc.mp (List.nodup_append.mp h).1)
      · rw [if_neg hdup, cursor_advance (by simp),
          ih (by simp) (by simpa using hn) (hsnoc.mpr hdup) hts₄, List.append_assoc]
        rfl

theorem parseFnHeader_ok_iff {d : FnDecl} (hn : d.params.length ≤ n)
    (hts : kinds ts = d.headerTokens) (hrest : rest ≠ []) {h : FnHeader} :
    parseFnHeader n (ts ++ rest) = .ok (h, toks') ↔
      (d.params.map Prod.fst).Nodup ∧ h = d.header ∧ toks' = rest := by
  obtain ⟨t₁, ts₁, rfl, ht₁, hts₁⟩ := kinds_cons_split hts
  obtain ⟨t₂, ts₂, rfl, ht₂, hts₂⟩ := kinds_cons_split hts₁
  obtain ⟨t₃, ts₃, rfl, ht₃, hts₃⟩ := kinds_cons_split hts₂
  obtain ⟨tp, ts₄, rfl, htp, hts₄⟩ := kinds_append_split hts₃
  obtain ⟨t₅, ts₅, rfl, ht₅, hts₅⟩ := kinds_cons_split hts₄
  obtain ⟨t₆, ts₆, rfl, ht₆, hts₆⟩ := kinds_cons_split hts₅
  obtain ⟨t₇, ts₇, rfl, ht₇, hts₇⟩ := kinds_cons_split hts₆
  obtain rfl := kinds_nil_split hts₇
  have hend : ∀ ps : List (String × Ty), (do
      let _ ← expect .rParen
      let _ ← expect .arrow
      let retTy ← expectType
      return (⟨d.name, ps, some retTy⟩ : FnHeader)) (t₅ :: t₆ :: t₇ :: rest) =
      .ok (⟨d.name, ps, some d.retTy⟩, rest) := by
    intro ps
    rw [cursor_expect ht₅ (by simp), cursor_expect ht₆ (by simp), cursor_expectType ht₇ hrest]
    rfl
  -- the header is returned as it stands
  have hres : ∀ ps, ps = d.params →
      ((.ok (⟨d.name, ps, some d.retTy⟩, rest) : Comp ParseError ParserPanic _) = .ok (h, toks') ↔
        h = d.header ∧ toks' = rest) := by
    rintro ps rfl
    simp only [Except.ok.injEq, Prod.mk.injEq]
    exact and_congr eq_comm eq_comm
  simp only [List.cons_append, List.append_assoc, List.nil_append]
  rw [parseFnHeader, cursor_expect ht₁ (by simp), cursor_expectIdent ht₂ (by simp),
    cursor_expect ht₃ (by simp)]
  by_cases hps : d.params = []
  · rw [hps] at htp
    obtain rfl := kinds_nil_split htp
    rw [List.nil_append, cursor_peek, if_neg (by simp [ht₅])]
    refine (Eq.congr_left (hend [])).trans ?_
    rw [hres [] hps.symm, hps]
    exact ⟨fun h => ⟨List.nodup_nil, h⟩, fun h => h.2⟩
  · -- the first token of the parameters is a name
    obtain ⟨t, tp', htp', ht⟩ : ∃ t tp', tp = t :: tp' ∧ t.kind ≠ .rParen := by
      cases hd : d.params with
      | nil => exact absurd hd hps
      | cons p ps =>
        rw [hd] at htp
        obtain ⟨t, tp', rfl, ht, -⟩ := kinds_cons_split htp
        exact ⟨t, tp', rfl, by simp [ht]⟩
    rw [htp', List.cons_append, cursor_peek, if_pos ht, ← List.cons_append, ← htp', cursor_bind]
    have hnil : (([] : List (String × Ty)).map Prod.fst).Nodup := List.nodup_nil
    constructor
    · rintro ⟨qs, toks₁, hqs, h₁⟩
      obtain ⟨hnd, rfl, rfl⟩ := (parseParams_ok_iff hps hn hnil htp ht₅).mp hqs
      exact ⟨hnd, (hres _ (List.nil_append _)).mp ((hend _).symm.trans h₁)⟩
    · rintro ⟨hnd, h₁⟩
      exact ⟨[] ++ d.params, _, (parseParams_ok_iff hps hn hnil htp ht₅).mpr ⟨hnd, rfl, rfl⟩,
        (hend _).trans ((hres _ (List.nil_append _)).mpr h₁)⟩

/-- The parameters the loop takes. -/
theorem takes_params {acc qs : List (String × Ty)} {toks : List Token} (hend : HasEof toks)
    (h : parseParams func n acc toks = .ok (qs, toks')) :
    HasEof toks' ∧ ∃ ps, ps ≠ [] ∧ qs = acc ++ ps ∧
      kinds toks = paramsTokens [] ps ++ kinds toks' := by
  induction n generalizing acc toks with
  | zero => cases h
  | succ n ih =>
    obtain ⟨x, toks₁, hx, h₁⟩ := cursor_bind.mp h
    obtain ⟨tx, rfl, htx, hend₁⟩ := expectIdent_ok hend hx
    obtain ⟨tc, toks₂, hc, h₂⟩ := cursor_bind.mp h₁
    obtain ⟨rfl, htc, hend₂⟩ := expect_ok hend₁ (by decide) hc
    obtain ⟨ty, toks₃, hty, h₃⟩ := cursor_bind.mp h₂
    obtain ⟨tt, rfl, htt, hend₃⟩ := expectType_ok hend₂ hty
    split at h₃
    · obtain ⟨_, _, hfail, -⟩ := cursor_bind.mp h₃
      cases hfail
    · obtain ⟨t, toks₄, hpeek, h₄⟩ := cursor_bind.mp h₃
      obtain ⟨rfl, rest, rfl⟩ := peek_ok.mp hpeek
      split at h₄
      · next hcomma =>
        obtain ⟨_, toks₅, hadv, h₅⟩ := cursor_bind.mp h₄
        obtain ⟨hne, hend₅⟩ := hend₃.tail (hcomma ▸ by decide)
        rw [advance_cons hne] at hadv
        obtain ⟨-, rfl⟩ := Prod.mk.inj (Except.ok.inj hadv)
        obtain ⟨hend', ps, hps, rfl, hk⟩ := ih hend₅ h₅
        refine ⟨hend', (x, ty) :: ps, by simp, by simp, ?_⟩
        rw [kinds_cons, kinds_cons, kinds_cons, kinds_cons, htx, htc, htt, hcomma, hk]
        cases ps with
        | nil => exact absurd rfl hps
        | cons p ps => simp [paramsTokens]
      · obtain ⟨rfl, rfl⟩ := cursor_pure.mp h₄
        refine ⟨hend₃, [(x, ty)], by simp, rfl, ?_⟩
        rw [kinds_cons, kinds_cons, kinds_cons, htx, htc, htt]
        simp [paramsTokens]

/-- The header of a declaration with any body. -/
theorem takes_header {toks : List Token} {h : FnHeader} (hend : HasEof toks)
    (hok : parseFnHeader n toks = .ok (h, toks')) :
    HasEof toks' ∧ ∃ ty, h.retTy = some ty ∧
      ∀ body, kinds toks = (FnDecl.mk h.name h.params ty body).headerTokens ++ kinds toks' := by
  obtain ⟨t₁, toks₁, hfn, h₁⟩ := cursor_bind.mp hok
  obtain ⟨rfl, ht₁, hend₁⟩ := expect_ok hend (by decide) hfn
  obtain ⟨name, toks₂, hname, h₂⟩ := cursor_bind.mp h₁
  obtain ⟨t₂, rfl, ht₂, hend₂⟩ := expectIdent_ok hend₁ hname
  obtain ⟨t₃, toks₃, hparen, h₃⟩ := cursor_bind.mp h₂
  obtain ⟨rfl, ht₃, hend₃⟩ := expect_ok hend₂ (by decide) hparen
  obtain ⟨t₄, toks₄, hpeek, h₄⟩ := cursor_bind.mp h₃
  obtain ⟨rfl, rest, rfl⟩ := peek_ok.mp hpeek
  -- the end of the header, after the parameters
  have hclose : ∀ {ps : List (String × Ty)} {toks₅ : List Token}, HasEof toks₅ →
      kinds (t₄ :: rest) = paramsTokens [] ps ++ kinds toks₅ →
      (do
        let _ ← expect .rParen
        let _ ← expect .arrow
        let retTy ← expectType
        return (⟨name, ps, some retTy⟩ : FnHeader)) toks₅ = .ok (h, toks') →
      HasEof toks' ∧ ∃ ty, h.retTy = some ty ∧ ∀ body,
        kinds (t₁ :: t₂ :: t₃ :: t₄ :: rest) =
          (FnDecl.mk h.name h.params ty body).headerTokens ++ kinds toks' := by
    intro ps toks₅ hend₅ hk h₅
    obtain ⟨t₆, toks₆, hclose, h₆⟩ := cursor_bind.mp h₅
    obtain ⟨rfl, ht₆, hend₆⟩ := expect_ok hend₅ (by decide) hclose
    obtain ⟨t₇, toks₇, harrow, h₇⟩ := cursor_bind.mp h₆
    obtain ⟨rfl, ht₇, hend₇⟩ := expect_ok hend₆ (by decide) harrow
    obtain ⟨ty, toks₈, hty, h₈⟩ := cursor_bind.mp h₇
    obtain ⟨t₈, rfl, ht₈, hend₈⟩ := expectType_ok hend₇ hty
    obtain ⟨rfl, rfl⟩ := cursor_pure.mp h₈
    refine ⟨hend₈, ty, rfl, fun body => ?_⟩
    rw [kinds_cons, kinds_cons, kinds_cons, ht₁, ht₂, ht₃, hk, kinds_cons, kinds_cons, kinds_cons,
      ht₆, ht₇, ht₈]
    simp [FnDecl.headerTokens]
  split at h₄
  · obtain ⟨ps, toks₅, hps, h₅⟩ := cursor_bind.mp h₄
    obtain ⟨hend₅, ps', -, rfl, hk⟩ := takes_params hend₃ hps
    exact hclose hend₅ hk h₅
  · obtain ⟨ps, toks₅, hps, h₅⟩ := cursor_bind.mp h₄
    obtain ⟨rfl, rfl⟩ := cursor_pure.mp hps
    exact hclose hend₃ rfl h₅

end Header

/-! ### Functions -/

section Function

variable {n : ℕ} {sigs : Sigs} {d : FnDecl} {f : Function} {ts rest toks toks' : List Token}

theorem FnDecl.tokens_eq (d : FnDecl) : d.tokens = d.headerTokens ++ blockTokens d.body := rfl

theorem FnDecl.params_lt (d : FnDecl) : d.params.length < d.headerTokens.length := by
  have hlen : ∀ sep, d.params.length ≤ (paramsTokens sep d.params).length := by
    induction d.params with
    | nil => exact fun _ => Nat.zero_le _
    | cons p ps ih =>
      intro sep
      have := ih [.comma]
      simp only [paramsTokens, List.length_append, List.length_cons]
      omega
  have := hlen []
  simp only [FnDecl.headerTokens, List.length_cons, List.length_append]
  omega

/-- `parse_function` on the tokens of a declaration. -/
theorem parseFunction_ok_iff (hs : stmtsShaped d.body = true) (hn : d.tokens.length ≤ n)
    (hts : kinds ts = d.tokens) (hrest : rest ≠ []) :
    parseFunction n sigs (ts ++ rest) = .ok (f, toks') ↔
      (d.params.map Prod.fst).Nodup ∧ elabFn sigs d = .ok f ∧ toks' = rest := by
  obtain ⟨th, tb, rfl, hth, htb⟩ := kinds_append_split (hts.trans d.tokens_eq)
  rw [FnDecl.tokens_eq, List.length_append] at hn
  have hparams := d.params_lt
  have hblock := fun ctx' toks' => reads_block n d.body hs (by omega) rest hrest
    (show (FnContext.new d.header sigs).retTy.isSome from rfl) htb () ctx' toks'
  have hne : tb ++ rest ≠ [] := by simp [hrest]
  rw [parseFunction, List.append_assoc, cursor_bind]
  constructor
  · rintro ⟨h, toks₁, hheader, h₁⟩
    obtain ⟨hnd, rfl, rfl⟩ := (parseFnHeader_ok_iff (by omega) hth hne).mp hheader
    obtain ⟨⟨_, ctx⟩, toks₂, hbody, h₂⟩ := cursor_bind.mp h₁
    obtain ⟨hm, rfl⟩ := (hblock ctx toks₂).mp hbody
    obtain ⟨rfl, rfl⟩ := cursor_pure.mp h₂
    refine ⟨hnd, ?_, rfl⟩
    rw [elabFn, hm]
    rfl
  · rintro ⟨hnd, hmean, rfl⟩
    obtain ⟨⟨_, ctx⟩, hm, hf⟩ := bind_eq_ok.mp hmean
    obtain rfl := Except.ok.inj hf
    exact ⟨d.header, _, (parseFnHeader_ok_iff (by omega) hth hne).mpr ⟨hnd, rfl, rfl⟩,
      cursor_bind.mpr ⟨((), ctx), _, (hblock ctx _).mpr ⟨hm, rfl⟩, rfl⟩⟩

/-- What `parse_function` takes is a declaration. -/
theorem takes_function (hend : HasEof toks) (h : parseFunction n sigs toks = .ok (f, toks')) :
    HasEof toks' ∧ ∃ d : FnDecl, stmtsShaped d.body = true ∧
      kinds toks = d.tokens ++ kinds toks' := by
  obtain ⟨hd, toks₁, hheader, h₁⟩ := cursor_bind.mp h
  obtain ⟨hend₁, ty, hret, hk⟩ := takes_header hend hheader
  obtain ⟨⟨_, ctx⟩, toks₂, hbody, h₂⟩ := cursor_bind.mp h₁
  obtain ⟨hend₂, ss, hs, hks⟩ := takes_block (show (FnContext.new hd sigs).retTy.isSome by
    simp [FnContext.new, hret]) hend₁ hbody
  obtain ⟨-, rfl⟩ := cursor_pure.mp h₂
  refine ⟨hend₂, ⟨hd.name, hd.params, ty, ss⟩, hs, ?_⟩
  rw [hk ss, hks, FnDecl.tokens_eq, List.append_assoc]
  rfl

end Function

/-! ### The two passes -/

section Passes

variable {n N : ℕ} {sigs sigs' : Sigs} {P : Program} {toks toks' : List Token}
  {starts starts' : List (List Token)} {fs : List Function}

/-- Where each declaration starts. -/
def startsOf : Program → List Token → List (List Token)
  | [], _ => []
  | d :: P, toks => toks :: startsOf P (toks.drop d.tokens.length)

/-- The signatures of some declarations, entered one after the other. -/
def enterSigs (sigs : Sigs) (P : Program) : Sigs :=
  P.foldl (fun sigs d => insertAt sigs d.name (some d.sig)) sigs

/-- Every declaration has a name that is not taken yet, and distinct parameters. -/
def Enterable (sigs : Sigs) : Program → Prop
  | [] => True
  | d :: P => (d.params.map Prod.fst).Nodup ∧ sigs d.name = none ∧
      Enterable (insertAt sigs d.name (some d.sig)) P

/-- The tokens of a program, split after the first declaration. -/
theorem program_split {d : FnDecl} (hk : kinds toks = Program.tokens (d :: P)) :
    ∃ th tb rest, toks = th ++ (tb ++ rest) ∧ kinds th = d.headerTokens ∧
      kinds tb = blockTokens d.body ∧ kinds rest = P.tokens ∧ rest ≠ [] ∧
      toks.drop d.tokens.length = rest := by
  obtain ⟨td, rest, rfl, htd, hrest⟩ := kinds_append_split (show kinds toks = d.tokens ++ P.tokens by
    rw [hk, Program.tokens, List.flatMap_cons, List.append_assoc]
    rfl)
  obtain ⟨th, tb, rfl, hth, htb⟩ := kinds_append_split (htd.trans d.tokens_eq)
  refine ⟨th, tb, rest, List.append_assoc _ _ _, hth, htb, hrest, ?_, ?_⟩
  · rintro rfl
    simp [Program.tokens, kinds] at hrest
  · rw [← htd, kinds, List.length_map, List.drop_left]

theorem scanSignatures_ok_iff (hs : P.shaped = true) (hn : toks.length ≤ n)
    (hk : kinds toks = P.tokens) :
    (∃ toks', scanSignatures n sigs starts toks = .ok ((sigs', starts'), toks')) ↔
      Enterable sigs P ∧ sigs' = enterSigs sigs P ∧ starts' = starts ++ startsOf P toks := by
  induction P generalizing n sigs starts toks with
  | nil =>
    obtain ⟨t, tl, rfl, ht, htl⟩ := kinds_cons_split hk
    obtain rfl := kinds_nil_split htl
    obtain ⟨n, rfl⟩ : ∃ m, n = m + 1 := ⟨n - 1, by simp at hn; omega⟩
    rw [scanSignatures, cursor_peek, if_neg (by simp [ht])]
    simp only [cursor_pure, Prod.mk.injEq, exists_and_left, exists_eq, and_true, Enterable, true_and]
    simp [enterSigs, startsOf]
  | cons d P ih =>
    obtain ⟨th, tb, rest, rfl, hth, htb, hrest, hne, hdrop⟩ := program_split hk
    -- one round for each declaration, and a declaration has a token at least
    obtain ⟨n, rfl⟩ : ∃ m, n = m + 1 := ⟨n - 1, by
      have : 0 < rest.length := List.length_pos_iff.mpr hne
      simp only [List.length_append] at hn
      omega⟩
    have hparams := d.params_lt
    have hlh : th.length = d.headerTokens.length := by rw [← hth, kinds, List.length_map]
    have hlb : tb.length = (blockTokens d.body).length := by rw [← htb, kinds, List.length_map]
    simp only [List.length_append] at hn
    obtain ⟨t, th', hth', ht⟩ : ∃ t th', th = t :: th' ∧ t.kind ≠ .eof := by
      obtain ⟨t, th', rfl, ht, -⟩ := kinds_cons_split hth
      exact ⟨t, th', rfl, by simp [ht]⟩
    have hscan : scanSignatures (n + 1) sigs starts (th ++ (tb ++ rest)) = (do
        let h ← parseFnHeader n
        if (sigs h.name).isSome then parseError (.duplicateFunction h.name)
        skipBlock n
        scanSignatures n (insertAt sigs h.name (some ⟨h.params.map Prod.snd, h.retTy⟩))
          (starts ++ [th ++ (tb ++ rest)])) (th ++ (tb ++ rest)) := by
      rw [hth', List.cons_append, scanSignatures, cursor_peek, if_pos ht]
      rfl
    rw [Program.shaped, List.all_cons, Bool.and_eq_true] at hs
    -- the rest of the program, with this signature entered
    have hih : (∃ toks', scanSignatures n (insertAt sigs d.name (some d.sig))
          (starts ++ [th ++ (tb ++ rest)]) rest = .ok ((sigs', starts'), toks')) ↔
        Enterable (insertAt sigs d.name (some d.sig)) P ∧
          sigs' = enterSigs (insertAt sigs d.name (some d.sig)) P ∧
          starts' = starts ++ [th ++ (tb ++ rest)] ++ startsOf P rest :=
      ih hs.2 (by have := d.params_lt; omega) hrest
    rw [hscan, startsOf, hdrop]
    constructor
    · rintro ⟨toks', h⟩
      obtain ⟨h', toks₁, hheader, h₁⟩ := cursor_bind.mp h
      obtain ⟨hnd, rfl, rfl⟩ := (parseFnHeader_ok_iff (by omega) hth (by simp [hne])).mp hheader
      split at h₁
      -- a second function of the name
      · obtain ⟨_, _, hfail, -⟩ := cursor_bind.mp h₁
        cases hfail
      · next hfresh =>
        obtain ⟨_, toks₂, hskip, h₂⟩ := cursor_bind.mp h₁
        rw [skipBlock_ok htb (by omega) hne] at hskip
        obtain ⟨-, rfl⟩ := Prod.mk.inj (Except.ok.inj hskip)
        obtain ⟨hent, hsigs, hstarts⟩ := hih.mp ⟨_, h₂⟩
        have hnone : sigs d.name = none := by
          simpa using show ¬ (sigs d.name).isSome = true from hfresh
        exact ⟨⟨hnd, hnone, hent⟩, hsigs, by simpa using hstarts⟩
    · rintro ⟨⟨hnd, hfresh, hent⟩, hsigs, hstarts⟩
      obtain ⟨toks', h⟩ := hih.mpr ⟨hent, hsigs, by simpa using hstarts⟩
      refine ⟨toks', cursor_bind.mpr ⟨d.header, tb ++ rest,
        (parseFnHeader_ok_iff (by omega) hth (by simp [hne])).mpr ⟨hnd, rfl, rfl⟩, ?_⟩⟩
      show (if (sigs d.name).isSome = true then _ else _ : CursorM _) _ = _
      rw [if_neg (by simp [hfresh])]
      exact cursor_bind.mpr ⟨(), rest, skipBlock_ok htb (by omega) hne, h⟩

/-- Declarations can be entered when names and parameters are distinct. -/
theorem enterable_iff : Enterable sigs P ↔
    (∀ d ∈ P, (d.params.map Prod.fst).Nodup ∧ sigs d.name = none) ∧ (P.map FnDecl.name).Nodup := by
  induction P generalizing sigs with
  | nil => simp [Enterable]
  | cons d P ih =>
    rw [Enterable, ih, List.map_cons, List.nodup_cons, List.forall_mem_cons]
    constructor
    · rintro ⟨hnd, hnone, hP, hnames⟩
      refine ⟨⟨⟨hnd, hnone⟩, fun e he => ⟨(hP e he).1, ?_⟩⟩, fun hm => ?_, hnames⟩
      · have := (hP e he).2
        unfold insertAt at this
        split at this
        · cases this
        · exact this
      · obtain ⟨e, he, heq⟩ := List.mem_map.mp hm
        have := (hP e he).2
        rw [insertAt, if_pos heq] at this
        cases this
    · rintro ⟨⟨⟨hnd, hnone⟩, hP⟩, hnew, hnames⟩
      refine ⟨hnd, hnone, fun e he => ⟨(hP e he).1, ?_⟩, hnames⟩
      rw [insertAt, if_neg fun heq : e.name = d.name =>
        hnew (List.mem_map.mpr ⟨e, he, heq⟩)]
      exact (hP e he).2

theorem enterable_none_iff : Enterable (fun _ => none) P ↔ P.Distinct := by
  rw [enterable_iff, Program.Distinct]
  constructor
  · exact fun h => ⟨h.2, fun d hd => (h.1 d hd).1⟩
  · exact fun h => ⟨fun d hd => ⟨h.2 d hd, rfl⟩, h.1⟩

/-- The signatures entered are those of the declarations. -/
theorem enterSigs_eq (hnames : (P.map FnDecl.name).Nodup) (x : String) :
    enterSigs sigs P x = ((P.find? fun d => d.name == x).map FnDecl.sig).or (sigs x) := by
  induction P generalizing sigs with
  | nil => rfl
  | cons d P ih =>
    rw [List.map_cons, List.nodup_cons] at hnames
    show enterSigs (insertAt sigs d.name (some d.sig)) P x = _
    rw [ih hnames.2, insertAt]
    by_cases hx : x = d.name
    · subst hx
      have hnone : P.find? (fun e => e.name == d.name) = none :=
        List.find?_eq_none.mpr fun e he heq =>
          hnames.1 (List.mem_map.mpr ⟨e, he, by simpa using heq⟩)
      simp [hnone]
    · rw [if_neg hx, List.find?_cons_of_neg (by simpa using Ne.symm hx)]

theorem enterSigs_none (h : P.Distinct) : enterSigs (fun _ => none) P = P.sigs := by
  funext x
  rw [enterSigs_eq h.1, Program.sigs, Option.or_none]

theorem parseFunctions_ok_iff (hs : P.shaped = true) (hN : toks.length ≤ N)
    (hk : kinds toks = P.tokens) (hnd : ∀ d ∈ P, (d.params.map Prod.fst).Nodup) {toks₀ : List Token} :
    (∃ toks', parseFunctions N sigs (startsOf P toks) toks₀ = .ok (fs, toks')) ↔
      P.mapM (elabFn sigs) = .ok fs := by
  induction P generalizing toks toks₀ fs with
  | nil =>
    simp only [startsOf, parseFunctions, cursor_pure, exists_and_left, exists_eq, and_true,
      List.mapM_nil, pure_eq_ok, Except.ok.injEq]
    exact eq_comm
  | cons d P ih =>
    obtain ⟨th, tb, rest, rfl, hth, htb, hrest, hne, hdrop⟩ := program_split hk
    rw [Program.shaped, List.all_cons, Bool.and_eq_true] at hs
    have hkd : kinds (th ++ tb) = d.tokens := by
      rw [kinds, List.map_append]
      exact (congrArg₂ _ hth htb).trans d.tokens_eq.symm
    have hlen : d.tokens.length + rest.length ≤ N := by
      rw [← hkd, kinds, List.length_map]
      simpa [Nat.add_assoc] using hN
    have hf : ∀ {f toks'}, parseFunction N sigs (th ++ (tb ++ rest)) = .ok (f, toks') ↔
        (d.params.map Prod.fst).Nodup ∧ elabFn sigs d = .ok f ∧ toks' = rest := by
      intro f toks'
      rw [← List.append_assoc]
      exact parseFunction_ok_iff hs.1 (by omega) hkd hne
    have hih : ∀ gs, (∃ toks', parseFunctions N sigs (startsOf P rest) rest = .ok (gs, toks')) ↔
        P.mapM (elabFn sigs) = .ok gs := fun gs =>
      ih hs.2 (by omega) hrest fun e he => hnd e (List.mem_cons_of_mem _ he)
    have hstep : parseFunctions N sigs (startsOf (d :: P) (th ++ (tb ++ rest))) toks₀ = (do
        let f ← parseFunction N sigs
        let fs ← parseFunctions N sigs (startsOf P rest)
        return f :: fs) (th ++ (tb ++ rest)) := by
      rw [startsOf, hdrop]
      rfl
    rw [hstep, List.mapM_cons, bind_eq_ok]
    constructor
    · rintro ⟨toks', h⟩
      obtain ⟨f, toks₁, hparse, h₁⟩ := cursor_bind.mp h
      obtain ⟨-, hmean, rfl⟩ := hf.mp hparse
      obtain ⟨gs, toks₂, hgs, h₂⟩ := cursor_bind.mp h₁
      obtain ⟨rfl, rfl⟩ := cursor_pure.mp h₂
      exact ⟨f, hmean, bind_eq_ok.mpr ⟨gs, (hih gs).mp ⟨_, hgs⟩, rfl⟩⟩
    · rintro ⟨f, hmean, h⟩
      obtain ⟨gs, hgs, h₁⟩ := bind_eq_ok.mp h
      obtain rfl := Except.ok.inj h₁
      obtain ⟨toks', hparse⟩ := (hih gs).mpr hgs
      exact ⟨toks', cursor_bind.mpr ⟨f, rest, hf.mpr ⟨hnd d List.mem_cons_self, hmean, rfl⟩,
        cursor_bind.mpr ⟨gs, toks', hparse, rfl⟩⟩⟩

/-- The two passes over the tokens of a program. -/
theorem parseModule_ok_iff (hs : P.shaped = true) (hn : toks.length ≤ n) (hk : kinds toks = P.tokens)
    {M : Module} :
    (∃ toks', parseModule n toks = .ok (M, toks')) ↔
      P.Distinct ∧ P.mapM (elabFn P.sigs) = .ok M.functions := by
  constructor
  · rintro ⟨toks', h⟩
    obtain ⟨⟨sigs, starts⟩, toks₁, hscan, h₁⟩ := cursor_bind.mp h
    obtain ⟨hent, rfl, rfl⟩ := (scanSignatures_ok_iff hs hn hk).mp ⟨_, hscan⟩
    have hdist := enterable_none_iff.mp hent
    obtain ⟨fs, toks₂, hfs, h₂⟩ := cursor_bind.mp h₁
    obtain ⟨rfl, rfl⟩ := cursor_pure.mp h₂
    rw [← enterSigs_none hdist]
    exact ⟨hdist, (parseFunctions_ok_iff hs hn hk hdist.2).mp ⟨_, hfs⟩⟩
  · rintro ⟨hdist, hmean⟩
    rw [← enterSigs_none hdist] at hmean
    obtain ⟨toks₁, hscan⟩ := (scanSignatures_ok_iff hs hn hk).mpr
      ⟨enterable_none_iff.mpr hdist, rfl, (List.nil_append _).symm⟩
    have hfunctions : ∃ toks₂, parseFunctions n (enterSigs (fun _ => none) P) (startsOf P toks) toks₁ =
        .ok (M.functions, toks₂) := (parseFunctions_ok_iff hs hn hk hdist.2).mpr hmean
    obtain ⟨toks₂, hfs⟩ := hfunctions
    exact ⟨toks₂, cursor_bind.mpr ⟨_, toks₁, hscan, cursor_bind.mpr ⟨_, toks₂, hfs, rfl⟩⟩⟩

/-- One round of the first pass. -/
theorem scan_step {t : Token} (ht : t.kind ≠ .eof)
    (h : scanSignatures (n + 1) sigs starts (t :: toks) = .ok ((sigs', starts'), toks')) :
    ∃ hd toks₁ toks₂, parseFnHeader n (t :: toks) = .ok (hd, toks₁) ∧
      skipBlock n toks₁ = .ok ((), toks₂) ∧ sigs hd.name = none ∧
      scanSignatures n (insertAt sigs hd.name (some ⟨hd.params.map Prod.snd, hd.retTy⟩))
        (starts ++ [t :: toks]) toks₂ = .ok ((sigs', starts'), toks') := by
  rw [scanSignatures, cursor_peek, if_pos ht] at h
  obtain ⟨start, toks₀, hget, h₀⟩ := cursor_bind.mp h
  obtain ⟨rfl, rfl⟩ := Prod.mk.inj (Except.ok.inj hget)
  obtain ⟨hd, toks₁, hheader, h₁⟩ := cursor_bind.mp h₀
  split at h₁
  · obtain ⟨_, _, hfail, -⟩ := cursor_bind.mp h₁
    cases hfail
  · next hfresh =>
    obtain ⟨_, toks₂, hskip, h₂⟩ := cursor_bind.mp h₁
    have hnone : sigs hd.name = none := by
      simpa using show ¬ (sigs hd.name).isSome = true from hfresh
    exact ⟨hd, toks₁, toks₂, hheader, hskip, hnone, h₂⟩

/-- The first pass only adds to the starts. -/
theorem scan_starts (h : scanSignatures n sigs starts toks = .ok ((sigs', starts'), toks')) :
    ∃ more, starts' = starts ++ more := by
  induction n generalizing sigs starts toks with
  | zero => cases h
  | succ n ih =>
    cases toks with
    | nil => cases h
    | cons t toks =>
      by_cases ht : t.kind = .eof
      · rw [scanSignatures, cursor_peek, if_neg (by simp [ht])] at h
        obtain ⟨heq, -⟩ := cursor_pure.mp h
        exact ⟨[], by simp [(Prod.mk.inj heq).2]⟩
      · obtain ⟨hd, toks₁, toks₂, -, -, -, h₂⟩ := scan_step ht h
        obtain ⟨more, rfl⟩ := ih h₂
        exact ⟨[t :: toks] ++ more, by simp⟩

/-- A round of the first pass takes the tokens of a declaration: the header, and then the block,
whose braces are balanced. -/
theorem round_takes {d : FnDecl} {hd : FnHeader} {rest toks₁ toks₂ : List Token}
    (hk : kinds toks = d.tokens ++ kinds rest) (hrest : rest ≠ []) (hn : toks.length ≤ n + 1)
    (hheader : parseFnHeader n toks = .ok (hd, toks₁)) (hskip : skipBlock n toks₁ = .ok ((), toks₂)) :
    ∃ td, toks = td ++ toks₂ ∧ kinds td = d.tokens ∧ kinds toks₂ = kinds rest ∧ hd = d.header := by
  obtain ⟨td, rest', heq, htd, hkinds⟩ := kinds_append_split hk
  obtain ⟨th, tb, rfl, hth, htb⟩ := kinds_append_split (htd.trans d.tokens_eq)
  have hne : rest' ≠ [] := by
    rintro rfl
    exact hrest (List.map_eq_nil_iff.mp hkinds.symm)
  have hlen : th.length + tb.length + rest'.length ≤ n + 1 := by
    rw [heq] at hn
    simpa only [List.length_append] using hn
  have hlenh : th.length = d.headerTokens.length := by rw [← hth, kinds, List.length_map]
  have hlenb : tb.length = (blockTokens d.body).length := by rw [← htb, kinds, List.length_map]
  have hparams := d.params_lt
  have hpos : 0 < rest'.length := List.length_pos_iff.mpr hne
  rw [heq, List.append_assoc] at hheader
  obtain ⟨-, rfl, rfl⟩ := (parseFnHeader_ok_iff (by omega) hth (by simp [hne])).mp hheader
  rw [skipBlock_ok htb (by omega) hne] at hskip
  obtain ⟨-, rfl⟩ := Prod.mk.inj (Except.ok.inj hskip)
  exact ⟨th ++ tb, heq, htd, hkinds, rfl⟩

/-- What the two passes accept is a program. -/
theorem takes_module (hend : EndsInEof toks) (hn : toks.length ≤ n)
    (hscan : scanSignatures n sigs starts toks = .ok ((sigs', starts'), toks'))
    (hparse : ∀ start ∈ starts', ∃ f t, parseFunction N sigs' start = .ok (f, t)) :
    ∃ P : Program, P.shaped = true ∧ kinds toks = P.tokens := by
  induction n generalizing sigs starts toks with
  | zero => cases hscan
  | succ n ih =>
    cases toks with
    | nil => cases hscan
    | cons t toks =>
      by_cases ht : t.kind = .eof
      · obtain ⟨init, last, heq, -, hinit⟩ := hend
        cases init with
        | nil =>
          obtain ⟨rfl, rfl⟩ := List.cons.inj heq
          exact ⟨[], rfl, by simp [Program.tokens, kinds, ht]⟩
        | cons u init =>
          obtain ⟨rfl, -⟩ := List.cons.inj heq
          exact absurd ht (hinit t List.mem_cons_self)
      · obtain ⟨hd, toks₁, toks₂, hheader, hskip, -, h₂⟩ := scan_step ht hscan
        obtain ⟨more, rfl⟩ := scan_starts h₂
        obtain ⟨f, rest, hf⟩ := hparse (t :: toks) (by simp)
        obtain ⟨hend', d, hshaped, hk⟩ := takes_function hend.hasEof hf
        -- the first pass ends where the second one does
        obtain ⟨td, heq, htd, hrest, -⟩ := round_takes hk hend'.ne_nil hn hheader hskip
        have hpos : 0 < td.length := by
          have := congrArg List.length htd
          rw [kinds, List.length_map, FnDecl.tokens_eq, List.length_append] at this
          have := d.params_lt
          omega
        have hlen : td.length + toks₂.length ≤ n + 1 := by
          rw [heq, List.length_append] at hn
          exact hn
        have hend₂ : EndsInEof toks₂ := by
          rw [heq] at hend
          refine hend.suffix ?_
          rintro rfl
          exact hend'.ne_nil (List.map_eq_nil_iff.mp hrest.symm)
        obtain ⟨P, hP, hkP⟩ := ih hend₂ (by omega) h₂
        refine ⟨d :: P, by rw [Program.shaped, List.all_cons, hshaped, Bool.true_and]; exact hP, ?_⟩
        calc
          kinds (t :: toks) = kinds td ++ kinds toks₂ := by
            rw [heq]
            exact List.map_append
          _ = d.tokens ++ P.tokens := by rw [htd, hkP]
          _ = Program.tokens (d :: P) := by
            rw [Program.tokens, Program.tokens, List.flatMap_cons, List.append_assoc]

theorem parseFunctions_each (h : parseFunctions N sigs starts toks = .ok (fs, toks')) :
    ∀ start ∈ starts, ∃ f t, parseFunction N sigs start = .ok (f, t) := by
  induction starts generalizing toks toks' fs with
  | nil => simp
  | cons start starts ih =>
    obtain ⟨f, toks₁, hf, h₁⟩ := cursor_bind.mp (show (do
        let f ← parseFunction N sigs
        let fs ← parseFunctions N sigs starts
        return f :: fs : CursorM _) start = .ok (fs, toks') from h)
    obtain ⟨gs, toks₂, hgs, -⟩ := cursor_bind.mp h₁
    exact List.forall_mem_cons.mpr ⟨⟨f, toks₁, hf⟩, ih hgs⟩

end Passes

theorem lexTokens_lex {source : String} {toks : List Token} :
    lexTokens source = .ok toks ↔ lex source = .ok toks := by
  unfold lexTokens
  cases lex source with
  | ok tokens => simp
  | error e => cases e <;> simp [Comp.fail, Comp.panic]

/-- A source that lexes to the tokens of a program. -/
def Renders (source : String) (P : Program) : Prop :=
  ∃ toks, lex source = .ok toks ∧ kinds toks = P.tokens ∧ P.shaped = true

theorem parse_iff_of_lex {source : String} {toks : List Token} {M : Module}
    (hlex : lex source = .ok toks) :
    parse source = .ok M ↔ ∃ toks', parseModule (toks.length + 1) toks = .ok (M, toks') := by
  rw [parse, lexTokens_lex.mpr hlex]
  show (parseModule (toks.length + 1) toks >>= fun r => _) = _ ↔ _
  rw [bind_eq_ok]
  constructor
  · rintro ⟨⟨M', toks'⟩, h, h₁⟩
    obtain rfl := Except.ok.inj h₁
    exact ⟨toks', h⟩
  · rintro ⟨toks', h⟩
    exact ⟨(M, toks'), h, rfl⟩

/-- `parse` on the rendering of a program. -/
theorem parse_renders {source : String} {P : Program} {M : Module} (h : Renders source P) :
    parse source = .ok M ↔ P.Distinct ∧ P.mapM (elabFn P.sigs) = .ok M.functions := by
  obtain ⟨toks, hlex, hk, hs⟩ := h
  rw [parse_iff_of_lex hlex, parseModule_ok_iff hs (by omega) hk]

/-- What `parse` accepts renders a program. -/
theorem parse_ok {source : String} {M : Module} (h : parse source = .ok M) :
    ∃ P, Renders source P := by
  obtain ⟨toks, hlex, h₁⟩ := bind_eq_ok.mp h
  have hlex' := lexTokens_lex.mp hlex
  obtain ⟨toks', hM⟩ := (parse_iff_of_lex hlex').mp h
  obtain ⟨⟨sigs, starts⟩, toks₁, hscan, h₂⟩ := cursor_bind.mp hM
  obtain ⟨fs, toks₂, hfs, -⟩ := cursor_bind.mp h₂
  obtain ⟨P, hs, hk⟩ := takes_module (lex_endsInEof hlex') (Nat.le_succ _) hscan
    (parseFunctions_each hfs)
  exact ⟨P, toks, hlex', hk, hs⟩

end Parser
end Chakobsa
