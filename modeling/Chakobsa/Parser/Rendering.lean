import Chakobsa.Parser.Grammar

/-!
# Reading a program back

On the tokens of an expression the parser does what `elabExpr` does, and it succeeds exactly when
`elabExpr` does. `Reads` says so of one parsing function and one expression. The parsers of
the levels of precedence read an expression whenever it binds tightly enough for the level and the
token that follows does not go on with it (`Stops`). A loop over operators reads the left spine of
an expression one operator at a time: `Spine` is the statement about the loop that goes through by
induction on the spine.
-/

namespace Chakobsa
namespace Parser

open Ir Lexer ExceptLemmas

section Steps

variable {α β : Type} {ctx ctx' : FnContext} {t : Token} {toks toks' : List Token} {b : β}

theorem peek_bind (f : Token → BodyM β) :
    (liftM peek >>= f) ctx (t :: toks) = f t ctx (t :: toks) := rfl

theorem advance_bind (h : toks ≠ []) (f : Token → BodyM β) :
    (liftM advance >>= f) ctx (t :: toks) = f t ctx toks := by
  cases toks with
  | nil => exact absurd rfl h
  | cons u rest => rfl

theorem expect_cons {kind : TokenKind} (hkind : t.kind = kind) (h : toks ≠ []) :
    expect kind (t :: toks) = .ok (t, toks) := by
  show (if t.kind = kind then advance else _) (t :: toks) = _
  rw [if_pos hkind, advance_cons h]

theorem expect_bind {kind : TokenKind} (hkind : t.kind = kind) (h : toks ≠ [])
    (f : Token → BodyM β) : (liftM (expect kind) >>= f) ctx (t :: toks) = f t ctx toks := by
  show ((expect kind >>= fun a => pure (a, ctx)) >>= fun p => f p.1 p.2) (t :: toks) = _
  show ((expect kind (t :: toks) >>= fun p => .ok ((p.1, ctx), p.2)) >>= fun p =>
    f p.1.1 p.1.2 p.2) = _
  rw [expect_cons hkind h]
  rfl

theorem checkTy_bind {expected actual : Ty} {span : Span} {f : Unit → BodyM β} :
    (liftM (checkTy expected actual span) >>= f) ctx toks = .ok ((b, ctx'), toks') ↔
      actual = expected ∧ f () ctx toks = .ok ((b, ctx'), toks') := by
  rw [body_bind]
  constructor
  · rintro ⟨_, c, t, hc, hf⟩
    obtain ⟨heq, rfl, rfl⟩ := body_checkTy.mp hc
    exact ⟨heq, hf⟩
  · rintro ⟨heq, hf⟩
    exact ⟨(), ctx, toks, body_checkTy.mpr ⟨heq, rfl, rfl⟩, hf⟩

theorem action_bind {m : ActM α} {f : α → BodyM β} :
    (act m >>= f) ctx toks = .ok ((b, ctx'), toks') ↔
      ∃ a c, m ctx = .ok (a, c) ∧ f a c toks = .ok ((b, ctx'), toks') := by
  rw [body_bind]
  constructor
  · rintro ⟨a, c, t, ha, hf⟩
    obtain ⟨hm, rfl⟩ := act_ok.mp ha
    exact ⟨a, c, hm, hf⟩
  · rintro ⟨a, c, hm, hf⟩
    exact ⟨a, c, toks, act_ok.mpr ⟨hm, rfl⟩, hf⟩

end Steps

/-! ### What can follow an expression -/

/-- `rest` begins with a token that does not go on with an expression of the given level. -/
def Stops (level : ℕ) (rest : List Token) : Prop :=
  ∃ t rest', rest = t :: rest' ∧ t.kind ≠ .lParen ∧
    (∀ o : Operator, t.kind = o.token → o.level < level) ∧
    ∀ o : Connective, t.kind = o.token → o.level < level

section Stops

variable {level : ℕ} {t : Token} {rest : List Token}

theorem Stops.ne_nil (h : Stops level rest) : rest ≠ [] := by
  obtain ⟨t, rest', rfl, -⟩ := h
  simp

theorem Stops.mono {level' : ℕ} (h : Stops level rest) (hle : level ≤ level') : Stops level' rest := by
  obtain ⟨t, rest', rfl, hp, ho, hc⟩ := h
  exact ⟨t, rest', rfl, hp, fun o ht => Nat.lt_of_lt_of_le (ho o ht) hle,
    fun o ht => Nat.lt_of_lt_of_le (hc o ht) hle⟩

/-- After an operator of a lower level. -/
theorem Stops.operator {o : Operator} (ht : t.kind = o.token) (hlevel : o.level < level) :
    Stops level (t :: rest) := by
  refine ⟨t, rest, rfl, ?_, fun o' ho' => ?_, fun o' ho' => ?_⟩
  · rw [ht]
    cases o <;> simp [Operator.token]
  · rw [ht] at ho'
    cases o <;> cases o' <;> first | exact hlevel | simp [Operator.token] at ho'
  · rw [ht] at ho'
    cases o <;> cases o' <;> simp [Operator.token, Connective.token] at ho'

theorem Stops.connective {o : Connective} (ht : t.kind = o.token) (hlevel : o.level < level) :
    Stops level (t :: rest) := by
  refine ⟨t, rest, rfl, ?_, fun o' ho' => ?_, fun o' ho' => ?_⟩
  · rw [ht]
    cases o <;> simp [Connective.token]
  · rw [ht] at ho'
    cases o <;> cases o' <;> simp [Operator.token, Connective.token] at ho'
  · rw [ht] at ho'
    cases o <;> cases o' <;> first | exact hlevel | simp [Connective.token] at ho'

/-- A mark that is no operator stops every expression. -/
theorem Stops.mark (h : t.kind ∈ [TokenKind.semicolon, .comma, .rParen, .lBrace]) :
    Stops level (t :: rest) := by
  refine ⟨t, rest, rfl, ?_, fun o ho => ?_, fun o ho => ?_⟩
  · intro hp
    simp [hp] at h
  · rw [ho] at h
    cases o <;> simp [Operator.token] at h
  · rw [ho] at h
    cases o <;> simp [Connective.token] at h

/-- The loop over the operators of a level ends before `rest`. -/
theorem Stops.ops_none {ops : TokenKind → Option BinOp} (hops : IsOps ops level)
    (h : Stops level (t :: rest)) : ops t.kind = none := by
  obtain ⟨t', rest', heq, -, ho, -⟩ := h
  obtain ⟨rfl, -⟩ := List.cons.inj heq
  by_contra hne
  obtain ⟨op, hop⟩ := Option.ne_none_iff_exists'.mp hne
  obtain ⟨o, htok, -, hlevel⟩ := (hops _ _).mp hop
  exact absurd (ho o htok.symm) (by simp [hlevel])

theorem Stops.ne_token {o : Connective} (h : Stops o.level (t :: rest)) : t.kind ≠ o.token := by
  obtain ⟨t', rest', heq, -, -, hc⟩ := h
  obtain ⟨rfl, -⟩ := List.cons.inj heq
  exact fun ht => Nat.lt_irrefl _ (hc o ht)

end Stops

/-! ### Reading one expression -/

/-- `p` does on the tokens of `e`, followed by `rest`, what `elabExpr e` does, and succeeds when it
does. -/
def Reads (p : ExprM) (e : Expr) (rest : List Token) : Prop :=
  ∀ ⦃ctx ts⦄, kinds ts = e.tokens → ∀ r ctx' toks',
    p ctx (ts ++ rest) = .ok ((r, ctx'), toks') ↔ elabExpr e ctx = .ok (r, ctx') ∧ toks' = rest

theorem Reads.bind {β : Type} {p : ExprM} {e : Expr} {rest ts toks' : List Token}
    {ctx ctx' : FnContext} {b : β} {f : ValueId × Ty → BodyM β} (h : Reads p e rest)
    (hts : kinds ts = e.tokens) :
    (p >>= f) ctx (ts ++ rest) = .ok ((b, ctx'), toks') ↔
      ∃ r c, elabExpr e ctx = .ok (r, c) ∧ f r c rest = .ok ((b, ctx'), toks') := by
  rw [body_bind]
  constructor
  · rintro ⟨r, c, t, hr, hf⟩
    obtain ⟨he, rfl⟩ := (h hts r c t).mp hr
    exact ⟨r, c, he, hf⟩
  · rintro ⟨r, c, he, hf⟩
    exact ⟨r, c, rest, (h hts r c rest).mpr ⟨he, rfl⟩, hf⟩

/-- The tokens of a sequence, split. -/
theorem kinds_append_split {ts : List Token} {k₁ k₂ : List TokenKind} (h : kinds ts = k₁ ++ k₂) :
    ∃ t₁ t₂, ts = t₁ ++ t₂ ∧ kinds t₁ = k₁ ∧ kinds t₂ = k₂ := List.map_eq_append_iff.mp h

theorem kinds_cons_split {ts : List Token} {k : TokenKind} {k₂ : List TokenKind}
    (h : kinds ts = k :: k₂) : ∃ t t₂, ts = t :: t₂ ∧ t.kind = k ∧ kinds t₂ = k₂ :=
  List.map_eq_cons_iff.mp h

theorem kinds_nil_split {ts : List Token} (h : kinds ts = []) : ts = [] := List.map_eq_nil_iff.mp h

/-- The first token of an expression, and what it is not. -/
theorem Expr.tokens_head {e : Expr} (hs : e.shaped = true) : ∃ k ks, e.tokens = k :: ks ∧
    (3 ≤ e.level → k ≠ .notKw) ∧ (7 ≤ e.level → k ≠ .minus) ∧
    k ∉ [TokenKind.semicolon, .rParen, .rBrace, .letKw, .ifKw, .elseKw, .whileKw, .returnKw] := by
  induction e with
  | int n => exact ⟨.int n, [], rfl, by simp, by simp, by simp⟩
  | bool b => cases b <;> exact ⟨_, [], rfl, by simp, by simp, by simp⟩
  | var x => exact ⟨.ident x, [], rfl, by simp, by simp, by simp⟩
  | call f args => exact ⟨.ident f, _, rfl, by simp, by simp, by simp⟩
  | paren e _ => exact ⟨.lParen, _, rfl, by simp, by simp, by simp⟩
  | un op e _ =>
    refine ⟨unToken op, e.tokens, rfl, ?_, ?_, ?_⟩ <;> cases op <;>
      simp [unToken, Expr.level, unLevel]
  | bin op l r ihl _ =>
    simp only [Expr.shaped, Bool.and_eq_true, decide_eq_true_eq] at hs
    obtain ⟨k, ks, hk, hnot, -, hmarks⟩ := ihl hs.1.1.1
    have hlevel : 3 ≤ l.level := by
      refine Nat.le_trans ?_ hs.1.2
      cases op <;> decide
    refine ⟨k, ks ++ op.token :: r.tokens, by simp [Expr.tokens, hk], fun _ => hnot hlevel,
      fun h => ?_, hmarks⟩
    have : op.level ≤ 5 := by cases op <;> decide
    exact absurd (Nat.le_trans h this) (by decide)
  | logic op l r ihl _ =>
    simp only [Expr.shaped, Bool.and_eq_true, decide_eq_true_eq] at hs
    obtain ⟨k, ks, hk, -, -, hmarks⟩ := ihl hs.1.1.1
    have : op.level ≤ 1 := by cases op <;> decide
    refine ⟨k, ks ++ op.token :: r.tokens, by simp [Expr.tokens, hk],
      fun h => absurd (Nat.le_trans h this) (by decide),
      fun h => absurd (Nat.le_trans h this) (by decide), hmarks⟩

/-! ### The levels -/

/-- The parsers of the levels of precedence, with fuel `n`. -/
abbrev atPrimary (n : ℕ) : ExprM := parsePrimary n (parseExpr n)

abbrev atUnary (n : ℕ) : ExprM := parseUnary (atPrimary n) n

abbrev atMul (n : ℕ) : ExprM := parseMul n (atUnary n)

abbrev atAdd (n : ℕ) : ExprM := parseAdd n (atMul n)

abbrev atCmp (n : ℕ) : ExprM := parseCmp (atAdd n)

abbrev atNot (n : ℕ) : ExprM := parseNot (atCmp n) n

abbrev atAnd (n : ℕ) : ExprM := parseAnd n (atNot n)

abbrev atOr (n : ℕ) : ExprM := parseOr n (atAnd n)

/-- `p` reads `e` before every token that stops the level. -/
abbrev ReadsAt (level : ℕ) (p : ExprM) (e : Expr) : Prop := ∀ rest, Stops level rest → Reads p e rest

/-- The number of operators of a level on the left spine. -/
def Expr.spine (level : ℕ) : Expr → ℕ
  | .bin op l _ => if op.level = level then l.spine level + 1 else 0
  | _ => 0

/-- The number of connectives `o` on the left spine. -/
def Expr.chain (o : Connective) : Expr → ℕ
  | .logic op l _ => if op = o then l.chain o + 1 else 0
  | _ => 0

theorem Expr.tokens_pos {e : Expr} (hs : e.shaped = true) : 0 < e.tokens.length := by
  obtain ⟨k, ks, hk, -⟩ := Expr.tokens_head hs
  simp [hk]

theorem Expr.spine_lt {e : Expr} (level : ℕ) (hs : e.shaped = true) :
    e.spine level < e.tokens.length := by
  induction e with
  | bin op l r ihl ihr =>
    simp only [Expr.shaped, Bool.and_eq_true] at hs
    have := ihl hs.1.1.1
    simp only [Expr.spine, Expr.tokens, List.length_append, List.length_cons]
    split <;> omega
  | _ => exact Expr.tokens_pos hs

theorem Expr.chain_lt {e : Expr} (o : Connective) (hs : e.shaped = true) :
    e.chain o < e.tokens.length := by
  induction e with
  | logic op l r ihl ihr =>
    simp only [Expr.shaped, Bool.and_eq_true] at hs
    have := ihl hs.1.1.1
    simp only [Expr.chain, Expr.tokens, List.length_append, List.length_cons]
    split <;> omega
  | _ => exact Expr.tokens_pos hs

theorem Expr.spine_eq_zero {e : Expr} {level : ℕ} (h : level < e.level) : e.spine level = 0 := by
  cases e with
  | bin op l r => exact if_neg (Nat.ne_of_gt h)
  | _ => rfl

theorem Expr.chain_eq_zero {e : Expr} {o : Connective} (h : o.level < e.level) : e.chain o = 0 := by
  cases e with
  | logic op l r =>
    refine if_neg fun heq => ?_
    subst heq
    exact Nat.lt_irrefl _ h
  | _ => rfl

/-! ### Loops over operators -/

section Loops

variable {n level : ℕ} {operand : ExprM} {ops : TokenKind → Option BinOp} {e l r : Expr}

/-- The loop over the operators of a level, begun before `e`, reads the spine of `e` and goes on
after it. -/
def Spine (ops : TokenKind → Option BinOp) (level : ℕ) (operand : ExprM) (e : Expr) : Prop :=
  ∀ ⦃m ctx ts rest⦄, kinds ts = e.tokens → Stops (level + 1) rest → ∀ r ctx' toks',
    (operand >>= arithLoop ops operand (e.spine level + m)) ctx (ts ++ rest) =
        .ok ((r, ctx'), toks') ↔
      ∃ v c, elabExpr e ctx = .ok (v, c) ∧ arithLoop ops operand m v c rest = .ok ((r, ctx'), toks')

theorem spine_of_reads (hlevel : level < e.level) (h : ReadsAt (level + 1) operand e) :
    Spine ops level operand e := by
  intro m ctx ts rest hts hstop r ctx' toks'
  rw [(h rest hstop).bind hts, Expr.spine_eq_zero hlevel, Nat.zero_add]

theorem arithLoop_step {m : ℕ} {op : BinOp} {v : ValueId × Ty} {t : Token} {toks toks' : List Token}
    {ctx ctx' : FnContext} {x : ValueId × Ty} (hop : ops t.kind = some op) (h : toks ≠ []) :
    arithLoop ops operand (m + 1) v ctx (t :: toks) = .ok ((x, ctx'), toks') ↔
      v.2 = .i64 ∧ (operand >>= fun w => do
        checkTy .i64 w.2 t.span
        let u ← act (emitHere .i64 (.bin op v.1 w.1))
        arithLoop ops operand m (u, .i64)) ctx toks = .ok ((x, ctx'), toks') := by
  obtain ⟨lhs, lty⟩ := v
  rw [arithLoop, peek_bind]
  simp only [hop]
  rw [advance_bind h, checkTy_bind]

theorem spine_bin (hops : IsOps ops level) (hne : level ≠ 3) {op : Operator} (hop : op.level = level)
    (hl : Spine ops level operand l) (hr : ReadsAt (level + 1) operand r) :
    Spine ops level operand (.bin op l r) := by
  intro m ctx ts rest hts hstop x ctx' toks'
  obtain ⟨tl, t₁, rfl, htl, ht₁⟩ := kinds_append_split (by simpa [Expr.tokens] using hts)
  obtain ⟨t, tr, rfl, ht, htr⟩ := kinds_cons_split ht₁
  have hres : op.binOp.resultType = .i64 := by
    cases op <;> first | rfl | exact absurd (hop.symm.trans rfl) hne
  have hspine : (Expr.bin op l r).spine level + m = l.spine level + (m + 1) := by
    rw [Expr.spine, if_pos hop]
    omega
  have hsome : ops t.kind = some op.binOp := (hops _ _).mpr ⟨op, ht.symm, rfl, hop⟩
  rw [hspine, List.append_assoc, List.cons_append,
    hl htl (Stops.operator ht (by rw [hop]; exact Nat.lt_succ_self _))]
  have hne' : tr ++ rest ≠ [] := by simp [hstop.ne_nil]
  constructor
  · rintro ⟨v, c, hv, h⟩
    obtain ⟨hv2, h₁⟩ := (arithLoop_step hsome hne').mp h
    obtain ⟨w, c₁, hw, h₂⟩ := ((hr rest hstop).bind htr).mp h₁
    obtain ⟨hw2, h₃⟩ := checkTy_bind.mp h₂
    obtain ⟨u, c₂, hu, h₄⟩ := action_bind.mp h₃
    obtain ⟨v, ty⟩ := v
    obtain ⟨w, ty'⟩ := w
    obtain rfl : ty = .i64 := hv2
    obtain rfl : ty' = .i64 := hw2
    exact ⟨(u, .i64), c₂, elabExpr_bin_ok.mpr ⟨v, c, w, c₁, u, hv, hw, by rw [hres]; exact hu,
      by rw [hres]⟩, h₄⟩
  · rintro ⟨v, c, hv, h⟩
    obtain ⟨v₁, c₁, v₂, c₂, w, h₁, h₂, hw, rfl⟩ := elabExpr_bin_ok.mp hv
    rw [hres] at hw h
    refine ⟨_, c₁, h₁, (arithLoop_step hsome hne').mpr ⟨rfl, ((hr rest hstop).bind htr).mpr
      ⟨_, c₂, h₂, checkTy_bind.mpr ⟨rfl, action_bind.mpr ⟨w, c, hw, h⟩⟩⟩⟩⟩

/-- A loop ends before a token that stops the level. -/
theorem arithLoop_stop {m : ℕ} (hops : IsOps ops level) {v : ValueId × Ty} {ctx : FnContext}
    {rest : List Token} (h : Stops level rest) :
    arithLoop ops operand (m + 1) v ctx rest = .ok ((v, ctx), rest) := by
  obtain ⟨lhs, lty⟩ := v
  obtain ⟨t, rest', rfl, -⟩ := id h
  rw [arithLoop, peek_bind]
  simp only [h.ops_none hops]
  rfl

theorem Spine.reads (hops : IsOps ops level) (h : Spine ops level operand e)
    (hlt : e.spine level < n) : ReadsAt level (operand >>= arithLoop ops operand n) e := by
  intro rest hstop ctx ts hts r ctx' toks'
  obtain ⟨m, hm⟩ : ∃ m, n = e.spine level + (m + 1) := ⟨n - e.spine level - 1, by omega⟩
  rw [hm, h hts (hstop.mono (Nat.le_succ _))]
  constructor
  · rintro ⟨v, c, hv, h'⟩
    rw [arithLoop_stop hops hstop] at h'
    simp only [Except.ok.injEq, Prod.mk.injEq] at h'
    obtain ⟨⟨rfl, rfl⟩, rfl⟩ := h'
    exact ⟨hv, rfl⟩
  · rintro ⟨hv, rfl⟩
    exact ⟨r, ctx', hv, arithLoop_stop hops hstop⟩

/-- The loop over a connective, begun before `e`, reads the spine of `e` and goes on after it. -/
def Chain (o : Connective) (operand : ExprM) (e : Expr) : Prop :=
  ∀ ⦃m ctx ts rest⦄, kinds ts = e.tokens → Stops (o.level + 1) rest → ∀ r ctx' toks',
    (operand >>= shortCircuitLoop o.token o.short operand (e.chain o + m)) ctx (ts ++ rest) =
        .ok ((r, ctx'), toks') ↔
      ∃ v c, elabExpr e ctx = .ok (v, c) ∧
        shortCircuitLoop o.token o.short operand m v c rest = .ok ((r, ctx'), toks')

theorem chain_of_reads {o : Connective} (hlevel : o.level < e.level)
    (h : ReadsAt (o.level + 1) operand e) : Chain o operand e := by
  intro m ctx ts rest hts hstop r ctx' toks'
  rw [(h rest hstop).bind hts, Expr.chain_eq_zero hlevel, Nat.zero_add]

theorem shortCircuitLoop_step {m : ℕ} {o : Connective} {v : ValueId × Ty} {t : Token}
    {toks toks' : List Token} {ctx ctx' : FnContext} {x : ValueId × Ty} (ht : t.kind = o.token)
    (h : toks ≠ []) :
    shortCircuitLoop o.token o.short operand (m + 1) v ctx (t :: toks) = .ok ((x, ctx'), toks') ↔
      v.2 = .bool ∧ ∃ s c, openShortCircuit o.short v.1 ctx = .ok (s, c) ∧
        (operand >>= fun w => do
          checkTy .bool w.2 t.span
          let u ← act (closeShortCircuit s w.1)
          shortCircuitLoop o.token o.short operand m (u, .bool)) c toks =
            .ok ((x, ctx'), toks') := by
  obtain ⟨lhs, lty⟩ := v
  rw [shortCircuitLoop, peek_bind]
  simp only [ht, if_true]
  rw [advance_bind h, checkTy_bind, action_bind]

theorem chain_logic {o : Connective} (hl : Chain o operand l) (hr : ReadsAt (o.level + 1) operand r) :
    Chain o operand (.logic o l r) := by
  intro m ctx ts rest hts hstop x ctx' toks'
  obtain ⟨tl, t₁, rfl, htl, ht₁⟩ := kinds_append_split (by simpa [Expr.tokens] using hts)
  obtain ⟨t, tr, rfl, ht, htr⟩ := kinds_cons_split ht₁
  have hchain : (Expr.logic o l r).chain o + m = l.chain o + (m + 1) := by
    rw [Expr.chain, if_pos rfl]
    omega
  rw [hchain, List.append_assoc, List.cons_append,
    hl htl (Stops.connective ht (Nat.lt_succ_self _))]
  have hne' : tr ++ rest ≠ [] := by simp [hstop.ne_nil]
  constructor
  · rintro ⟨v, c, hv, h⟩
    obtain ⟨hv2, s, c₁, hs, h₁⟩ := (shortCircuitLoop_step ht hne').mp h
    obtain ⟨w, c₂, hw, h₂⟩ := ((hr rest hstop).bind htr).mp h₁
    obtain ⟨hw2, h₃⟩ := checkTy_bind.mp h₂
    obtain ⟨u, c₃, hu, h₄⟩ := action_bind.mp h₃
    obtain ⟨v, ty⟩ := v
    obtain ⟨w, ty'⟩ := w
    obtain rfl : ty = .bool := hv2
    obtain rfl : ty' = .bool := hw2
    exact ⟨(u, .bool), c₃, elabExpr_logic_ok.mpr ⟨v, c, s, c₁, w, c₂, u, hv, hs, hw, hu, rfl⟩, h₄⟩
  · rintro ⟨v, c, hv, h⟩
    obtain ⟨v₁, c₁, s, c₂, v₂, c₃, w, h₁, hs, h₂, hw, rfl⟩ := elabExpr_logic_ok.mp hv
    exact ⟨_, c₁, h₁, (shortCircuitLoop_step ht hne').mpr ⟨rfl, s, c₂, hs,
      ((hr rest hstop).bind htr).mpr ⟨_, c₃, h₂, checkTy_bind.mpr ⟨rfl,
      action_bind.mpr ⟨w, c, hw, h⟩⟩⟩⟩⟩

theorem shortCircuitLoop_stop {m : ℕ} {o : Connective} {v : ValueId × Ty} {ctx : FnContext}
    {rest : List Token} (h : Stops o.level rest) :
    shortCircuitLoop o.token o.short operand (m + 1) v ctx rest = .ok ((v, ctx), rest) := by
  obtain ⟨lhs, lty⟩ := v
  obtain ⟨t, rest', rfl, -⟩ := id h
  rw [shortCircuitLoop, peek_bind]
  simp only [if_neg h.ne_token]
  rfl

theorem Chain.reads {o : Connective} (h : Chain o operand e) (hlt : e.chain o < n) :
    ReadsAt o.level (operand >>= shortCircuitLoop o.token o.short operand n) e := by
  intro rest hstop ctx ts hts r ctx' toks'
  obtain ⟨m, hm⟩ : ∃ m, n = e.chain o + (m + 1) := ⟨n - e.chain o - 1, by omega⟩
  rw [hm, h hts (hstop.mono (Nat.le_succ _))]
  constructor
  · rintro ⟨v, c, hv, h'⟩
    rw [shortCircuitLoop_stop hstop] at h'
    simp only [Except.ok.injEq, Prod.mk.injEq] at h'
    obtain ⟨⟨rfl, rfl⟩, rfl⟩ := h'
    exact ⟨hv, rfl⟩
  · rintro ⟨hv, rfl⟩
    exact ⟨r, ctx', hv, shortCircuitLoop_stop hstop⟩

end Loops

/-! ### All levels -/

section Complete

variable {n : ℕ} {e e' l r : Expr}

/-- The parsers of all levels that `e` binds tightly enough for read it. The unary parsers do so
with any fuel that is enough for the tokens of `e`. -/
structure Complete (n : ℕ) (e : Expr) : Prop where
  primary : 7 ≤ e.level → ReadsAt 7 (atPrimary n) e
  unary : 6 ≤ e.level → ∀ m, e.tokens.length ≤ m → ReadsAt 6 (parseUnary (atPrimary n) m) e
  mul : 5 ≤ e.level → Spine mulOps 5 (atUnary n) e
  add : 4 ≤ e.level → Spine addOps 4 (atMul n) e
  cmp : 3 ≤ e.level → ReadsAt 3 (atCmp n) e
  not : 2 ≤ e.level → ∀ m, e.tokens.length ≤ m → ReadsAt 2 (parseNot (atCmp n) m) e
  and : 1 ≤ e.level → Chain .and (atNot n) e
  or : Chain .or (atAnd n) e

variable (hs : e.shaped = true) (hn : e.tokens.length ≤ n)
include hs hn

theorem readsAt_mul (h : Spine mulOps 5 (atUnary n) e) : ReadsAt 5 (atMul n) e :=
  h.reads isOps_mul (Nat.lt_of_lt_of_le (Expr.spine_lt 5 hs) hn)

theorem readsAt_add (h : Spine addOps 4 (atMul n) e) : ReadsAt 4 (atAdd n) e :=
  h.reads isOps_add (Nat.lt_of_lt_of_le (Expr.spine_lt 4 hs) hn)

theorem readsAt_and (h : Chain .and (atNot n) e) : ReadsAt 1 (atAnd n) e :=
  h.reads (Nat.lt_of_lt_of_le (Expr.chain_lt .and hs) hn)

theorem readsAt_or (h : Chain .or (atAnd n) e) : ReadsAt 0 (atOr n) e :=
  h.reads (Nat.lt_of_lt_of_le (Expr.chain_lt .or hs) hn)

omit hn in
/-- A prefix parser passes on to its operand an expression that does not begin with its
operator. -/
theorem readsAt_unary {m : ℕ} (hlevel : 7 ≤ e.level) (hm : e.tokens.length ≤ m)
    (h : ReadsAt 7 (atPrimary n) e) : ReadsAt 6 (parseUnary (atPrimary n) m) e := by
  intro rest hstop ctx ts hts x ctx' toks'
  obtain ⟨k, ks, hk, -, hminus, -⟩ := Expr.tokens_head hs
  rw [← h rest (hstop.mono (by decide)) hts]
  obtain ⟨t, tl, rfl, ht, -⟩ := kinds_cons_split (hts.trans hk)
  cases m with
  | zero => simp [hk] at hm
  | succ m => rw [parseUnary, List.cons_append, peek_bind, if_neg (ht ▸ hminus hlevel)]

omit hn in
theorem readsAt_not {m : ℕ} (hlevel : 3 ≤ e.level) (hm : e.tokens.length ≤ m)
    (h : ReadsAt 3 (atCmp n) e) : ReadsAt 2 (parseNot (atCmp n) m) e := by
  intro rest hstop ctx ts hts x ctx' toks'
  obtain ⟨k, ks, hk, hnot, -, -⟩ := Expr.tokens_head hs
  rw [← h rest (hstop.mono (by decide)) hts]
  obtain ⟨t, tl, rfl, ht, -⟩ := kinds_cons_split (hts.trans hk)
  cases m with
  | zero => simp [hk] at hm
  | succ m => rw [parseNot, List.cons_append, peek_bind, if_neg (ht ▸ hnot hlevel)]

omit hs hn in
/-- A comparison without an operator. -/
theorem cmp_stop {rest : List Token} (hstop : Stops 3 rest) (v : ValueId × Ty) (c : FnContext) : (do
    let t ← (liftM peek : BodyM Token)
    match cmpOps t.kind with
      | none => pure (v.1, v.2)
      | some op => do
        let _ ← (liftM advance : BodyM Token)
        checkTy .i64 v.2 t.span
        let (rhs, rty) ← atAdd n
        checkTy .i64 rty t.span
        let u ← act (emitHere .bool (.bin op v.1 rhs))
        return (u, .bool)) c rest = .ok ((v, c), rest) := by
  obtain ⟨t, rest', rfl, -⟩ := id hstop
  rw [peek_bind]
  simp only [hstop.ops_none isOps_cmp]
  rfl

omit hs hn in
/-- A comparison parser reads an expression without a comparison at the top. -/
theorem readsAt_cmp (h : ReadsAt 4 (atAdd n) e) : ReadsAt 3 (atCmp n) e := by
  intro rest hstop ctx ts hts x ctx' toks'
  rw [atCmp, parseCmp, (h rest (hstop.mono (by decide))).bind hts]
  have hend := cmp_stop (n := n) hstop
  constructor
  · rintro ⟨v, c, hv, h'⟩
    have h₁ := (hend v c).symm.trans h'
    simp only [Except.ok.injEq, Prod.mk.injEq] at h₁
    obtain ⟨⟨rfl, rfl⟩, rfl⟩ := h₁
    exact ⟨hv, rfl⟩
  · rintro ⟨hv, rfl⟩
    exact ⟨x, ctx', hv, hend x ctx'⟩

/-! From the level of an expression down to the lowest. -/

omit hs hn in
theorem Complete.of_or (hlevel : e.level = 0) (h : Chain .or (atAnd n) e) : Complete n e := by
  refine ⟨fun h => ?_, fun h => ?_, fun h => ?_, fun h => ?_, fun h => ?_, fun h => ?_,
    fun h => ?_, h⟩ <;> omega

theorem Complete.of_and (hlevel : e.level = 1) (h : Chain .and (atNot n) e) : Complete n e := by
  refine ⟨fun h => ?_, fun h => ?_, fun h => ?_, fun h => ?_, fun h => ?_, fun h => ?_,
    fun _ => h, chain_of_reads (o := .or) (by rw [hlevel]; decide) (readsAt_and hs hn h)⟩ <;> omega

theorem Complete.of_not (hlevel : 2 ≤ e.level)
    (h : ∀ m, e.tokens.length ≤ m → ReadsAt 2 (parseNot (atCmp n) m) e)
    (hcmp : 3 ≤ e.level → ReadsAt 3 (atCmp n) e) (hadd : 4 ≤ e.level → Spine addOps 4 (atMul n) e)
    (hmul : 5 ≤ e.level → Spine mulOps 5 (atUnary n) e)
    (hunary : 6 ≤ e.level → ∀ m, e.tokens.length ≤ m → ReadsAt 6 (parseUnary (atPrimary n) m) e)
    (hprimary : 7 ≤ e.level → ReadsAt 7 (atPrimary n) e) : Complete n e := by
  have hand : Chain .and (atNot n) e := chain_of_reads (o := .and) hlevel (h n hn)
  exact ⟨hprimary, hunary, hmul, hadd, hcmp, fun _ => h, fun _ => hand,
    chain_of_reads (o := .or) (Nat.lt_of_lt_of_le (by decide) hlevel) (readsAt_and hs hn hand)⟩

theorem Complete.of_cmp (hlevel : 3 ≤ e.level) (h : ReadsAt 3 (atCmp n) e)
    (hadd : 4 ≤ e.level → Spine addOps 4 (atMul n) e)
    (hmul : 5 ≤ e.level → Spine mulOps 5 (atUnary n) e)
    (hunary : 6 ≤ e.level → ∀ m, e.tokens.length ≤ m → ReadsAt 6 (parseUnary (atPrimary n) m) e)
    (hprimary : 7 ≤ e.level → ReadsAt 7 (atPrimary n) e) : Complete n e :=
  .of_not hs hn (Nat.le_of_succ_le hlevel) (fun _ hm => readsAt_not hs hlevel hm h) (fun _ => h)
    hadd hmul hunary hprimary

theorem Complete.of_add (hlevel : 4 ≤ e.level) (h : Spine addOps 4 (atMul n) e)
    (hmul : 5 ≤ e.level → Spine mulOps 5 (atUnary n) e)
    (hunary : 6 ≤ e.level → ∀ m, e.tokens.length ≤ m → ReadsAt 6 (parseUnary (atPrimary n) m) e)
    (hprimary : 7 ≤ e.level → ReadsAt 7 (atPrimary n) e) : Complete n e :=
  .of_cmp hs hn (Nat.le_of_succ_le hlevel) (readsAt_cmp (readsAt_add hs hn h)) (fun _ => h) hmul
    hunary hprimary

theorem Complete.of_mul (hlevel : 5 ≤ e.level) (h : Spine mulOps 5 (atUnary n) e)
    (hunary : 6 ≤ e.level → ∀ m, e.tokens.length ≤ m → ReadsAt 6 (parseUnary (atPrimary n) m) e)
    (hprimary : 7 ≤ e.level → ReadsAt 7 (atPrimary n) e) : Complete n e :=
  .of_add hs hn (Nat.le_of_succ_le hlevel) (spine_of_reads hlevel (readsAt_mul hs hn h))
    (fun _ => h) hunary hprimary

theorem Complete.of_unary (hlevel : 6 ≤ e.level)
    (h : ∀ m, e.tokens.length ≤ m → ReadsAt 6 (parseUnary (atPrimary n) m) e)
    (hprimary : 7 ≤ e.level → ReadsAt 7 (atPrimary n) e) : Complete n e :=
  .of_mul hs hn (Nat.le_of_succ_le hlevel) (spine_of_reads hlevel (h n hn)) (fun _ => h) hprimary

theorem Complete.of_primary (hlevel : 7 ≤ e.level) (h : ReadsAt 7 (atPrimary n) e) : Complete n e :=
  .of_unary hs hn (Nat.le_of_succ_le hlevel) (fun _ hm => readsAt_unary hs hlevel hm h) fun _ => h

end Complete

section Complete

variable {n : ℕ} {e : Expr}

theorem exprsTokens_cons (e : Expr) {es : List Expr} (h : es ≠ []) :
    exprsTokens [] (e :: es) = e.tokens ++ TokenKind.comma :: exprsTokens [] es := by
  cases es with
  | nil => exact absurd rfl h
  | cons e' es => simp [exprsTokens]

theorem length_le_exprsTokens {es : List Expr} (hs : exprsShaped es = true) :
    es.length ≤ (exprsTokens [] es).length := by
  induction es with
  | nil => simp
  | cons e es ih =>
    simp only [exprsShaped, Bool.and_eq_true] at hs
    have h := ih hs.2
    have hpos := Expr.tokens_pos hs.1
    by_cases hes : es = []
    · subst hes
      simp only [exprsTokens, List.nil_append, List.append_nil, List.length_cons, List.length_nil]
      omega
    · rw [exprsTokens_cons e hes]
      simp only [List.length_append, List.length_cons]
      omega

/-- The loop over arguments reads a list of expressions. -/
theorem reads_args {expr : ExprM} {es : List Expr} (hne : es ≠ [])
    (hexpr : ∀ e ∈ es, ReadsAt 0 expr e) {m : ℕ} (hm : es.length ≤ m) (acc : List (ValueId × Ty))
    (ctx : FnContext) {ts rest : List Token} (hts : kinds ts = exprsTokens [] es)
    {t : Token} {rest' : List Token} (hrest : rest = t :: rest') (ht : t.kind = .rParen)
    (vs : List (ValueId × Ty)) (ctx' : FnContext) (toks' : List Token) :
    parseArgs expr m acc ctx (ts ++ rest) = .ok ((vs, ctx'), toks') ↔
      ∃ ws, elabExprs es ctx = .ok (ws, ctx') ∧ vs = acc ++ ws ∧ toks' = rest := by
  induction es generalizing m acc ctx ts with
  | nil => exact absurd rfl hne
  | cons e es ih =>
    obtain ⟨m, rfl⟩ : ∃ m', m = m' + 1 := ⟨m - 1, by simp at hm; omega⟩
    have he := hexpr e List.mem_cons_self
    by_cases hes : es = []
    · subst hes
      have hstop : Stops 0 rest := hrest ▸ Stops.mark (by simp [ht])
      rw [parseArgs, (he rest hstop).bind (by simpa [exprsTokens] using hts)]
      subst hrest
      constructor
      · rintro ⟨v, c, hv, h⟩
        rw [peek_bind, if_neg (by rw [ht]; decide)] at h
        obtain ⟨rfl, rfl, rfl⟩ := body_pure.mp h
        exact ⟨[v], elabExprs_cons_ok.mpr ⟨v, _, [], hv, rfl, rfl⟩, rfl, rfl⟩
      · rintro ⟨ws, hws, rfl, rfl⟩
        obtain ⟨v, c, rest, hv, hnil, rfl⟩ := elabExprs_cons_ok.mp hws
        obtain ⟨rfl, rfl⟩ := act_pure.mp hnil
        refine ⟨v, _, hv, ?_⟩
        rw [peek_bind, if_neg (by rw [ht]; decide)]
        rfl
    · rw [exprsTokens_cons e hes] at hts
      obtain ⟨te, t₁, rfl, hte, ht₁⟩ := kinds_append_split hts
      obtain ⟨u, tr, rfl, hu, htr⟩ := kinds_cons_split ht₁
      have hstop : Stops 0 (u :: (tr ++ rest)) := Stops.mark (by simp [hu])
      rw [parseArgs, List.append_assoc, List.cons_append, (he _ hstop).bind hte]
      have hstep : ∀ (v : ValueId × Ty) (c : FnContext), (do
          let t ← (liftM peek : BodyM Token)
          if t.kind = TokenKind.comma then do
            let _ ← (liftM advance : BodyM Token)
            parseArgs expr m (acc ++ [v])
          else return acc ++ [v]) c (u :: (tr ++ rest)) =
          parseArgs expr m (acc ++ [v]) c (tr ++ rest) := by
        intro v c
        rw [peek_bind, if_pos hu, advance_bind (by simp [hrest])]
      have ih' := fun acc c => ih hes (fun e he => hexpr e (List.mem_cons_of_mem _ he))
        (m := m) (by simp at hm; omega) acc c htr
      constructor
      · rintro ⟨v, c, hv, h⟩
        obtain ⟨ws, hws, rfl, rfl⟩ := (ih' _ c).mp ((hstep v c).symm.trans h)
        exact ⟨v :: ws, elabExprs_cons_ok.mpr ⟨v, c, ws, hv, hws, rfl⟩, by simp, rfl⟩
      · rintro ⟨ws, hws, rfl, rfl⟩
        obtain ⟨v, c, rest, hv, hrest', rfl⟩ := elabExprs_cons_ok.mp hws
        exact ⟨v, c, hv, (hstep v c).trans ((ih' _ c).mpr ⟨rest, hrest', by simp, rfl⟩)⟩

/-- The span of an error does not matter to a success. -/
theorem emitCall_span (name : String) (args : List (ValueId × Ty)) (sp sp' : Span) {ctx : FnContext}
    {r : (ValueId × Ty) × FnContext} (h : emitCall name args sp ctx = .ok r) :
    emitCall name args sp' ctx = .ok r := by
  obtain ⟨⟨v, ty⟩, c'⟩ := r
  obtain ⟨c, c₁, hget, h₁⟩ := act_bind.mp h
  obtain ⟨rfl, rfl⟩ := act_get.mp hget
  obtain ⟨retTy, c₂, hcheck, h₂⟩ := act_bind.mp h₁
  obtain ⟨hcheck, rfl⟩ := act_lift.mp hcheck
  refine act_bind.mpr ⟨_, _, act_get.mpr ⟨rfl, rfl⟩, act_bind.mpr ⟨retTy, _, act_lift.mpr ⟨?_, rfl⟩, h₂⟩⟩
  unfold checkArgs at hcheck ⊢
  split at hcheck
  · cases hcheck
  · split at hcheck
    · cases hcheck
    · next hlen =>
      rw [if_neg hlen]
      obtain ⟨hall, hpure⟩ := seq_eq_ok.mp hcheck
      refine seq_eq_ok.mpr ⟨forM_eq_ok.mpr fun p hp => ?_, hpure⟩
      have := forM_eq_ok.mp hall p hp
      split at this
      · cases this
      · next heq => rw [if_neg heq]

theorem emitCall_ok_iff (name : String) (args : List (ValueId × Ty)) (sp sp' : Span)
    {ctx : FnContext} {r : (ValueId × Ty) × FnContext} :
    emitCall name args sp ctx = .ok r ↔ emitCall name args sp' ctx = .ok r :=
  ⟨emitCall_span _ _ _ _, emitCall_span _ _ _ _⟩

theorem readName_ok_iff (name : String) (sp sp' : Span) {ctx : FnContext}
    {r : (ValueId × Ty) × FnContext} :
    readName name sp ctx = .ok r ↔ readName name sp' ctx = .ok r := by
  obtain ⟨v, c'⟩ := r
  unfold readName
  rw [act_bind, act_bind]
  constructor <;>
  · rintro ⟨c, c₁, hget, h⟩
    obtain ⟨rfl, rfl⟩ := act_get.mp hget
    refine ⟨_, _, act_get.mpr ⟨rfl, rfl⟩, ?_⟩
    cases hlookup : lookupVar c₁.scopes name with
    | none =>
      rw [hlookup] at h
      cases h
    | some ty =>
      rw [hlookup] at h
      exact h

/-- One token, and an action. -/
theorem reads_atom {expr : ExprM} {k : TokenKind} {m : Span → ActM (ValueId × Ty)}
    (htoks : e.tokens = [k])
    (hparse : ∀ (t : Token) (rest : List Token) (ctx : FnContext), t.kind = k → Stops 7 rest →
      parsePrimary n expr ctx (t :: rest) = act (m t.span) ctx rest)
    (hmean : ∀ sp ctx r, m sp ctx = .ok r ↔ elabExpr e ctx = .ok r) :
    ReadsAt 7 (parsePrimary n expr) e := by
  intro rest hstop ctx ts hts r ctx' toks'
  obtain ⟨t, tl, rfl, ht, htl⟩ := kinds_cons_split (hts.trans htoks)
  obtain rfl := kinds_nil_split htl
  rw [List.cons_append, List.nil_append, hparse t rest ctx ht hstop, act_ok, hmean]

theorem reads_int (expr : ExprM) (i : I64) : ReadsAt 7 (parsePrimary n expr) (.int i) := by
  refine reads_atom (m := fun _ => emitConst .i64 (.constI64 i)) rfl ?_ fun _ _ _ => Iff.rfl
  rintro ⟨k, sp⟩ rest ctx rfl hstop
  rw [parsePrimary, peek_bind]
  exact advance_bind hstop.ne_nil _

theorem reads_bool (expr : ExprM) (b : Bool) : ReadsAt 7 (parsePrimary n expr) (.bool b) := by
  cases b with
  | true =>
    refine reads_atom (m := fun _ => emitConst .bool (.constBool true)) rfl ?_ fun _ _ _ => Iff.rfl
    rintro ⟨k, sp⟩ rest ctx rfl hstop
    rw [parsePrimary, peek_bind]
    exact advance_bind hstop.ne_nil _
  | false =>
    refine reads_atom (m := fun _ => emitConst .bool (.constBool false)) rfl ?_ fun _ _ _ => Iff.rfl
    rintro ⟨k, sp⟩ rest ctx rfl hstop
    rw [parsePrimary, peek_bind]
    exact advance_bind hstop.ne_nil _

theorem reads_var (expr : ExprM) (x : String) : ReadsAt 7 (parsePrimary n expr) (.var x) := by
  refine reads_atom (m := fun sp => readName x sp) rfl ?_ fun sp ctx r => readName_ok_iff x sp noSpan
  rintro ⟨k, sp⟩ rest ctx rfl hstop
  rw [parsePrimary, peek_bind]
  show ((liftM advance : BodyM Token) >>= fun _ => _) ctx _ = _
  rw [advance_bind hstop.ne_nil]
  obtain ⟨t, rest', rfl, hp, -⟩ := hstop
  rw [peek_bind, if_neg hp]

theorem reads_paren {expr : ExprM} (h : ReadsAt 0 expr e) :
    ReadsAt 7 (parsePrimary n expr) (.paren e) := by
  intro rest hstop ctx ts hts r ctx' toks'
  obtain ⟨⟨k, sp⟩, t₁, rfl, rfl, ht₁⟩ := kinds_cons_split (by simpa [Expr.tokens] using hts)
  obtain ⟨te, tl, rfl, hte, htl⟩ := kinds_append_split ht₁
  obtain ⟨u, tl', rfl, hu, htl'⟩ := kinds_cons_split htl
  obtain rfl := kinds_nil_split htl'
  rw [parsePrimary, List.cons_append, peek_bind, elabExpr]
  show ((liftM advance : BodyM Token) >>= fun _ => _) ctx _ = _ ↔ _
  rw [advance_bind (by simp), List.append_assoc,
    (h ([u] ++ rest) (Stops.mark (by simp [hu]))).bind hte]
  have hend : ∀ (v : ValueId × Ty) (c : FnContext), (do
      let _ ← (liftM (expect .rParen) : BodyM Token)
      return v) c ([u] ++ rest) = .ok ((v, c), rest) := fun v c =>
    expect_bind hu hstop.ne_nil _
  constructor
  · rintro ⟨v, c, hv, h'⟩
    have h₁ := (hend v c).symm.trans h'
    simp only [Except.ok.injEq, Prod.mk.injEq] at h₁
    obtain ⟨⟨rfl, rfl⟩, rfl⟩ := h₁
    exact ⟨hv, rfl⟩
  · rintro ⟨hv, rfl⟩
    exact ⟨r, ctx', hv, hend r ctx'⟩

theorem reads_call {expr : ExprM} {f : String} {args : List Expr} (hs : exprsShaped args = true)
    (hn : (exprsTokens [] args).length ≤ n) (h : ∀ e ∈ args, ReadsAt 0 expr e) :
    ReadsAt 7 (parsePrimary n expr) (.call f args) := by
  intro rest hstop ctx ts hts r ctx' toks'
  obtain ⟨⟨k, sp⟩, t₁, rfl, rfl, ht₁⟩ := kinds_cons_split (by simpa [Expr.tokens] using hts)
  obtain ⟨u, t₂, rfl, hu, ht₂⟩ := kinds_cons_split ht₁
  obtain ⟨ta, tl, rfl, hta, htl⟩ := kinds_append_split ht₂
  obtain ⟨w, tl', rfl, hw, htl'⟩ := kinds_cons_split htl
  obtain rfl := kinds_nil_split htl'
  rw [parsePrimary, List.cons_append, List.cons_append, peek_bind]
  show ((liftM advance : BodyM Token) >>= fun _ => _) ctx _ = _ ↔ _
  rw [advance_bind (by simp), peek_bind, if_pos hu, parseCall, List.append_assoc,
    expect_bind hu (by simp), elabExpr_call_ok]
  -- the end of the call
  have hend : ∀ (vs : List (ValueId × Ty)) (c : FnContext), (do
      let _ ← (liftM (expect .rParen) : BodyM Token)
      act (emitCall f vs sp)) c ([w] ++ rest) = act (emitCall f vs sp) c rest := fun vs c =>
    expect_bind hw hstop.ne_nil _
  by_cases hargs : args = []
  · subst hargs
    obtain rfl := kinds_nil_split (by simpa [exprsTokens] using hta)
    rw [List.nil_append, List.cons_append, peek_bind, if_neg (by simp [hw])]
    show (do
      let _ ← (liftM (expect .rParen) : BodyM Token)
      act (emitCall f [] sp)) ctx ([w] ++ rest) = _ ↔ _
    rw [hend, act_ok, emitCall_ok_iff f [] sp noSpan]
    constructor
    · rintro ⟨hm, rfl⟩
      exact ⟨⟨[], ctx, rfl, hm⟩, rfl⟩
    · rintro ⟨⟨vs, c, hvs, hm⟩, rfl⟩
      obtain ⟨rfl, rfl⟩ := act_pure.mp hvs
      exact ⟨hm, rfl⟩
  · -- the first token of the arguments does not close the call
    obtain ⟨t, ta', rfl, ht⟩ : ∃ t ta', ta = t :: ta' ∧ t.kind ≠ .rParen := by
      cases args with
      | nil => exact absurd rfl hargs
      | cons e es =>
        simp only [exprsShaped, Bool.and_eq_true] at hs
        obtain ⟨k, ks, hk, -, -, hmarks⟩ := Expr.tokens_head hs.1
        obtain ⟨t, ta', rfl, ht, -⟩ := kinds_cons_split (hta.trans
          (show exprsTokens [] (e :: es) = k :: (ks ++ exprsTokens [.comma] es) by
            simp [exprsTokens, hk]))
        exact ⟨t, ta', rfl, fun hr => hmarks (by simp [← ht, hr])⟩
    rw [List.cons_append, peek_bind, if_pos ht, ← List.cons_append, body_bind]
    have hread := reads_args hargs h (Nat.le_trans (length_le_exprsTokens hs) hn) [] ctx hta
      (rfl : [w] ++ rest = w :: rest) hw
    constructor
    · rintro ⟨vs, c, toks, hvs, h'⟩
      obtain ⟨ws, hws, hvs', rfl⟩ := (hread vs c toks).mp hvs
      obtain rfl : vs = ws := hvs'
      obtain ⟨hm, rfl⟩ := act_ok.mp ((hend _ c).symm.trans h')
      exact ⟨⟨vs, c, hws, (emitCall_ok_iff _ _ _ _).mp hm⟩, rfl⟩
    · rintro ⟨⟨vs, c, hvs, hm⟩, rfl⟩
      exact ⟨vs, c, _, (hread vs c _).mpr ⟨vs, hvs, rfl, rfl⟩,
        (hend vs c).trans (act_ok.mpr ⟨(emitCall_ok_iff _ _ _ _).mp hm, rfl⟩)⟩

/-- A prefix operator, and the action that emits it. -/
theorem reads_prefix (op : UnOp) {p operand : ExprM}
    (hstep : ∀ (t : Token) (toks : List Token) (ctx : FnContext), t.kind = unToken op → toks ≠ [] →
      p ctx (t :: toks) = (do
        let v ← operand
        checkTy op.operandType v.2 t.span
        let u ← act (emitHere op.resultType (.un op v.1))
        return (u, op.resultType)) ctx toks)
    (h : ReadsAt (unLevel op) operand e) : ReadsAt (unLevel op) p (.un op e) := by
  intro rest hstop ctx ts hts r ctx' toks'
  obtain ⟨t, te, rfl, ht, hte⟩ := kinds_cons_split (by simpa [Expr.tokens] using hts)
  rw [List.cons_append, hstep t _ ctx ht (by simp [hstop.ne_nil]), (h rest hstop).bind hte,
    elabExpr_un_ok]
  constructor
  · rintro ⟨⟨v, ty⟩, c, hv, h₁⟩
    obtain ⟨rfl, h₂⟩ := checkTy_bind.mp h₁
    obtain ⟨u, c₂, hu, h₃⟩ := action_bind.mp h₂
    obtain ⟨rfl, rfl, rfl⟩ := body_pure.mp h₃
    exact ⟨⟨v, c, u, hv, hu, rfl⟩, rfl⟩
  · rintro ⟨⟨v, c, u, hv, hu, rfl⟩, rfl⟩
    exact ⟨_, c, hv, checkTy_bind.mpr ⟨rfl, action_bind.mpr ⟨u, ctx', hu,
      body_pure.mpr ⟨rfl, rfl, rfl⟩⟩⟩⟩

theorem readsAt_neg {m : ℕ} (h : ReadsAt 6 (parseUnary (atPrimary n) m) e) :
    ReadsAt 6 (parseUnary (atPrimary n) (m + 1)) (.un .neg e) := by
  refine reads_prefix .neg (fun t toks ctx ht hne => ?_) h
  rw [parseUnary, peek_bind, if_pos (show t.kind = .minus from ht), advance_bind hne]
  rfl

theorem readsAt_lnot {m : ℕ} (h : ReadsAt 2 (parseNot (atCmp n) m) e) :
    ReadsAt 2 (parseNot (atCmp n) (m + 1)) (.un .not e) := by
  refine reads_prefix .not (fun t toks ctx ht hne => ?_) h
  rw [parseNot, peek_bind, if_pos (show t.kind = .notKw from ht), advance_bind hne]
  rfl

/-- A comparison. -/
theorem readsAt_compare {op : Operator} {l r : Expr} (hop : op.level = 3)
    (hl : ReadsAt 4 (atAdd n) l) (hr : ReadsAt 4 (atAdd n) r) :
    ReadsAt 3 (atCmp n) (.bin op l r) := by
  intro rest hstop ctx ts hts x ctx' toks'
  obtain ⟨tl, t₁, rfl, htl, ht₁⟩ := kinds_append_split (by simpa [Expr.tokens] using hts)
  obtain ⟨t, tr, rfl, ht, htr⟩ := kinds_cons_split ht₁
  have hres : op.binOp.resultType = .bool := by
    cases op <;> first | rfl | cases hop
  have hsome : cmpOps t.kind = some op.binOp := (isOps_cmp _ _).mpr ⟨op, ht.symm, rfl, hop⟩
  have hne : tr ++ rest ≠ [] := by simp [hstop.ne_nil]
  have hstep : ∀ (v : ValueId × Ty) (c : FnContext), (do
      let t ← (liftM peek : BodyM Token)
      match cmpOps t.kind with
        | none => pure (v.1, v.2)
        | some op => do
          let _ ← (liftM advance : BodyM Token)
          checkTy .i64 v.2 t.span
          let (rhs, rty) ← atAdd n
          checkTy .i64 rty t.span
          let u ← act (emitHere .bool (.bin op v.1 rhs))
          return (u, .bool)) c (t :: (tr ++ rest)) = .ok ((x, ctx'), toks') ↔
      v.2 = .i64 ∧ ∃ w c₂, elabExpr r c = .ok (w, c₂) ∧ w.2 = .i64 ∧ ∃ u,
        emitHere .bool (.bin op.binOp v.1 w.1) c₂ = .ok (u, ctx') ∧ x = (u, .bool) ∧ toks' = rest := by
    intro v c
    rw [peek_bind]
    simp only [hsome]
    rw [advance_bind hne, checkTy_bind, (hr rest (hstop.mono (by decide))).bind htr]
    constructor
    · rintro ⟨hv, w, c₂, hw, h₁⟩
      obtain ⟨hw2, h₂⟩ := checkTy_bind.mp h₁
      obtain ⟨u, c₃, hu, h₃⟩ := action_bind.mp h₂
      obtain ⟨rfl, rfl, rfl⟩ := body_pure.mp h₃
      exact ⟨hv, w, c₂, hw, hw2, u, hu, rfl, rfl⟩
    · rintro ⟨hv, w, c₂, hw, hw2, u, hu, rfl, rfl⟩
      exact ⟨hv, w, c₂, hw, checkTy_bind.mpr ⟨hw2, action_bind.mpr ⟨u, ctx', hu,
        body_pure.mpr ⟨rfl, rfl, rfl⟩⟩⟩⟩
  rw [List.append_assoc, List.cons_append, atCmp, parseCmp,
    (hl _ (Stops.operator ht (by rw [hop]; decide))).bind htl, elabExpr_bin_ok, hres]
  constructor
  · rintro ⟨⟨v, ty⟩, c, hv, h₁⟩
    obtain ⟨hty, ⟨w, ty'⟩, c₂, hw, hty', u, hu, rfl, rfl⟩ := (hstep (v, ty) c).mp h₁
    obtain rfl : ty = .i64 := hty
    obtain rfl : ty' = .i64 := hty'
    exact ⟨⟨v, c, w, c₂, u, hv, hw, hu, rfl⟩, rfl⟩
  · rintro ⟨⟨v, c, w, c₂, u, hv, hw, hu, rfl⟩, rfl⟩
    exact ⟨_, c, hv, (hstep (v, .i64) c).mpr ⟨rfl, _, c₂, hw, rfl, u, hu, rfl, rfl⟩⟩

theorem exprsTokens_le {es : List Expr} (he : e ∈ es) :
    e.tokens.length ≤ (exprsTokens [] es).length := by
  induction es with
  | nil => cases he
  | cons e' es ih =>
    by_cases hes : es = []
    · subst hes
      obtain rfl := List.mem_singleton.mp he
      simp [exprsTokens]
    · rw [exprsTokens_cons e' hes]
      rcases List.mem_cons.mp he with rfl | he
      · simp
      · have := ih he
        simp only [List.length_append, List.length_cons]
        omega

theorem exprsShaped_mem {es : List Expr} (hs : exprsShaped es = true) (he : e ∈ es) :
    e.shaped = true := by
  induction es with
  | nil => cases he
  | cons e' es ih =>
    simp only [exprsShaped, Bool.and_eq_true] at hs
    rcases List.mem_cons.mp he with rfl | he
    · exact hs.1
    · exact ih hs.2 he

/-- The parsers of all levels read every shaped expression, with fuel for its tokens. -/
theorem complete (hs : e.shaped = true) (hn : e.tokens.length ≤ n) : Complete n e := by
  induction e generalizing n with
  | int i => exact .of_primary hs hn (Nat.le_refl 7) (reads_int _ i)
  | bool b => exact .of_primary hs hn (Nat.le_refl 7) (reads_bool _ b)
  | var x => exact .of_primary hs hn (Nat.le_refl 7) (reads_var _ x)
  | call f args ih =>
    obtain ⟨n, rfl⟩ : ∃ m, n = m + 1 := ⟨n - 1, by simp [Expr.tokens] at hn; omega⟩
    have hlen : (exprsTokens [] args).length + 3 ≤ n + 1 := by
      simp only [Expr.tokens, List.length_cons, List.length_append, List.length_nil] at hn
      omega
    refine .of_primary hs hn (Nat.le_refl 7) (reads_call hs (by omega) fun e he => ?_)
    have hle := exprsTokens_le he
    have hshape := exprsShaped_mem (show exprsShaped args = true from hs) he
    exact readsAt_or hshape (by omega) (ih e he hshape (by omega)).or
  | paren e ih =>
    obtain ⟨n, rfl⟩ : ∃ m, n = m + 1 := ⟨n - 1, by simp [Expr.tokens] at hn; omega⟩
    have hlen : e.tokens.length + 2 ≤ n + 1 := by
      simp only [Expr.tokens, List.length_cons, List.length_append, List.length_nil] at hn
      omega
    have hshape : e.shaped = true := hs
    exact .of_primary hs hn (Nat.le_refl 7)
      (reads_paren (readsAt_or hshape (by omega) (ih hshape (by omega)).or))
  | un op e ih =>
    have hs' : e.shaped = true ∧ unLevel op ≤ e.level := by
      simpa [Expr.shaped] using hs
    have hlen : e.tokens.length + 1 ≤ n := hn
    have hc := ih hs'.1 (Nat.le_of_succ_le hlen)
    have hpos : ∀ {m : ℕ}, (Expr.un op e).tokens.length ≤ m →
        ∃ m', m = m' + 1 ∧ e.tokens.length ≤ m' := by
      intro m hm
      have : e.tokens.length + 1 ≤ m := hm
      exact ⟨m - 1, by omega, by omega⟩
    cases op with
    | neg =>
      refine .of_unary hs hn (Nat.le_refl 6) (fun m hm => ?_)
        fun h => absurd (show 7 ≤ 6 from h) (by decide)
      obtain ⟨m, rfl, hm'⟩ := hpos hm
      exact readsAt_neg (hc.unary hs'.2 m hm')
    | not =>
      refine .of_not hs hn (Nat.le_refl 2) (fun m hm => ?_)
        (fun h => absurd (show 3 ≤ 2 from h) (by decide))
        (fun h => absurd (show 4 ≤ 2 from h) (by decide))
        (fun h => absurd (show 5 ≤ 2 from h) (by decide))
        (fun h => absurd (show 6 ≤ 2 from h) (by decide))
        (fun h => absurd (show 7 ≤ 2 from h) (by decide))
      obtain ⟨m, rfl, hm'⟩ := hpos hm
      exact readsAt_lnot (hc.not hs'.2 m hm')
  | bin op l r ihl ihr =>
    have hs' : ((l.shaped = true ∧ r.shaped = true) ∧ op.leftLevel ≤ l.level) ∧
        op.level < r.level := by
      simpa [Expr.shaped] using hs
    obtain ⟨⟨⟨hsl, hsr⟩, hl⟩, hr⟩ := hs'
    have hlen : l.tokens.length + r.tokens.length + 1 ≤ n := by
      simp only [Expr.tokens, List.length_append, List.length_cons] at hn
      omega
    have hnl : l.tokens.length ≤ n := by omega
    have hnr : r.tokens.length ≤ n := by omega
    have hcl := ihl hsl hnl
    have hcr := ihr hsr hnr
    -- nothing that binds tighter reads the whole expression
    have hnot : ∀ k {P : Prop}, op.level < k → k ≤ (Expr.bin op l r).level → P :=
      fun k P hlt hle => absurd (Nat.lt_of_lt_of_le hlt hle) (Nat.lt_irrefl _)
    rcases (show op.level = 3 ∨ op.level = 4 ∨ op.level = 5 by cases op <;> decide) with h | h | h
    · -- comparisons do not associate, so both operands are sums
      rw [Operator.leftLevel, if_pos h] at hl
      rw [h] at hr
      exact .of_cmp hs hn (Nat.le_of_eq h.symm)
        (readsAt_compare h (readsAt_add hsl hnl (hcl.add hl)) (readsAt_add hsr hnr (hcr.add hr)))
        (hnot 4 (by omega)) (hnot 5 (by omega)) (hnot 6 (by omega)) (hnot 7 (by omega))
    · rw [Operator.leftLevel, if_neg (by rw [h]; decide), h] at hl
      rw [h] at hr
      exact .of_add hs hn (Nat.le_of_eq h.symm)
        (spine_bin isOps_add (by decide) h (hcl.add hl) (readsAt_mul hsr hnr (hcr.mul hr)))
        (hnot 5 (by omega)) (hnot 6 (by omega)) (hnot 7 (by omega))
    · rw [Operator.leftLevel, if_neg (by rw [h]; decide), h] at hl
      rw [h] at hr
      exact .of_mul hs hn (Nat.le_of_eq h.symm)
        (spine_bin isOps_mul (by decide) h (hcl.mul hl) (hcr.unary hr n hnr))
        (hnot 6 (by omega)) (hnot 7 (by omega))
  | logic op l r ihl ihr =>
    have hs' : ((l.shaped = true ∧ r.shaped = true) ∧ op.level ≤ l.level) ∧
        op.level < r.level := by
      simpa [Expr.shaped] using hs
    obtain ⟨⟨⟨hsl, hsr⟩, hl⟩, hr⟩ := hs'
    have hlen : l.tokens.length + r.tokens.length + 1 ≤ n := by
      simp only [Expr.tokens, List.length_append, List.length_cons] at hn
      omega
    have hnl : l.tokens.length ≤ n := by omega
    have hnr : r.tokens.length ≤ n := by omega
    have hcl := ihl hsl hnl
    have hcr := ihr hsr hnr
    cases op with
    | or => exact .of_or rfl (chain_logic hcl.or (readsAt_and hsr hnr (hcr.and hr)))
    | and => exact .of_and hs hn rfl (chain_logic (hcl.and hl) (hcr.not hr n hnr))

/-- `parse_expr` reads every shaped expression. -/
theorem reads_expr (hs : e.shaped = true) (hn : e.tokens.length < n) :
    ReadsAt 0 (parseExpr n) e := by
  obtain ⟨n, rfl⟩ : ∃ m, n = m + 1 := ⟨n - 1, by omega⟩
  exact readsAt_or hs (Nat.lt_succ_iff.mp hn) (complete hs (Nat.lt_succ_iff.mp hn)).or

end Complete

end Parser
end Chakobsa
