import Chakobsa.Parser.Discipline
import Chakobsa.Parser.Grammar
import Chakobsa.Lexer.Cuts

/-!
# The front end is total

On any input the lexer and the parser end with a value or a typed error. Each parsing function is
shown to end in this way from a tame context and any tokens that end in `Eof`, as long as there
are fewer of them than its fuel. A function that succeeds has taken a token, has left `Eof` where
it is, and leaves a tame context behind; so there is a token for every round of a loop and for
every level of the recursion.
-/

namespace Chakobsa
namespace Parser

open Ir Lexer FnContext

/-! ### The cursor -/

/-- Some of the tokens are left, `Eof` among them. -/
structure Left (toks toks' : List Token) : Prop where
  ends : EndsInEof toks'
  le : toks'.length ≤ toks.length

/-- At least one token has been taken. -/
structure Taken (toks toks' : List Token) : Prop where
  ends : EndsInEof toks'
  lt : toks'.length < toks.length

/-- From `toks`, `m` ends gracefully, and as `P` says if it succeeds. -/
def CursorEnds {α : Type} (m : CursorM α) (toks : List Token) (P : α → List Token → Prop) : Prop :=
  Comp.Ends (m toks) fun r => P r.1 r.2

section Cursor

variable {α β : Type} {toks toks₁ toks₂ : List Token} {t : Token}

theorem Left.refl (h : EndsInEof toks) : Left toks toks := ⟨h, Nat.le_refl _⟩

theorem Taken.left (h : Taken toks toks₁) : Left toks toks₁ := ⟨h.ends, Nat.le_of_lt h.lt⟩

theorem Left.trans (h : Left toks toks₁) (h' : Left toks₁ toks₂) : Left toks toks₂ :=
  ⟨h'.ends, h'.le.trans h.le⟩

theorem Taken.trans_left (h : Taken toks toks₁) (h' : Left toks₁ toks₂) : Taken toks toks₂ :=
  ⟨h'.ends, Nat.lt_of_le_of_lt h'.le h.lt⟩

theorem Left.trans_taken (h : Left toks toks₁) (h' : Taken toks₁ toks₂) : Taken toks toks₂ :=
  ⟨h'.ends, Nat.lt_of_lt_of_le h'.lt h.le⟩

theorem Taken.trans (h : Taken toks toks₁) (h' : Taken toks₁ toks₂) : Taken toks toks₂ :=
  h.trans_left h'.left

theorem length_pos (h : EndsInEof toks) : 0 < toks.length := by
  obtain ⟨init, last, rfl, -⟩ := h
  simp

theorem CursorEnds.bind {x : CursorM α} {f : α → CursorM β} {P : α → List Token → Prop}
    {Q : β → List Token → Prop} (hx : CursorEnds x toks P)
    (hf : ∀ a toks', P a toks' → CursorEnds (f a) toks' Q) : CursorEnds (x >>= f) toks Q :=
  Comp.Ends.bind hx fun r h => hf r.1 r.2 h

theorem CursorEnds.mono {x : CursorM α} {P Q : α → List Token → Prop} (hx : CursorEnds x toks P)
    (h : ∀ a toks', P a toks' → Q a toks') : CursorEnds x toks Q :=
  Comp.Ends.mono hx fun r hr => h r.1 r.2 hr

theorem CursorEnds.pure {a : α} {P : α → List Token → Prop} (h : P a toks) :
    CursorEnds (Pure.pure a) toks P := .ok h

theorem CursorEnds.fail {e : ParseError} {P : α → List Token → Prop} :
    CursorEnds (parseError e) toks P := Comp.Ends.fail

/-- There is always a token to look at. -/
theorem CursorEnds.peek {f : Token → CursorM β} {Q : β → List Token → Prop} (h : EndsInEof toks)
    (hf : ∀ t rest, toks = t :: rest → CursorEnds (f t) toks Q) :
    CursorEnds (Parser.peek >>= f) toks Q := by
  cases toks with
  | nil => exact absurd (length_pos h) (Nat.lt_irrefl 0)
  | cons t rest => exact hf t rest rfl

/-- A token other than `Eof` is passed. -/
theorem advance_ends (h : EndsInEof (t :: toks)) (ht : t.kind ≠ .eof) :
    CursorEnds advance (t :: toks) fun _ toks' => Taken (t :: toks) toks' := by
  obtain ⟨hne, hend⟩ := h.tail ht
  exact .of_ok (advance_cons hne) ⟨hend, Nat.lt_succ_self _⟩

theorem expect_ends {kind : TokenKind} (h : EndsInEof toks) (hk : kind ≠ .eof) :
    CursorEnds (expect kind) toks fun _ toks' => Taken toks toks' := by
  refine .peek h ?_
  rintro t rest rfl
  split
  · next heq => exact advance_ends h (heq ▸ hk)
  · exact .fail

theorem expectIdent_ends (h : EndsInEof toks) :
    CursorEnds expectIdent toks fun _ toks' => Taken toks toks' := by
  refine .peek h ?_
  rintro t rest rfl
  split
  · next heq => exact (advance_ends h (by simp [heq])).bind fun _ _ h₁ => .pure h₁
  · exact .fail

theorem expectType_ends (h : EndsInEof toks) :
    CursorEnds expectType toks fun _ toks' => Taken toks toks' := by
  refine .peek h ?_
  rintro t rest rfl
  split
  · next heq => exact (advance_ends h (by simp [heq])).bind fun _ _ h₁ => .pure h₁
  · next heq => exact (advance_ends h (by simp [heq])).bind fun _ _ h₁ => .pure h₁
  · exact .fail

theorem checkTy_ends (expected actual : Ty) (span : Span) :
    CursorEnds (checkTy expected actual span) toks fun _ toks' => toks' = toks := by
  unfold checkTy
  split
  · exact .fail
  · exact .pure rfl

theorem parseParams_ends {func : String} {n : ℕ} (params : List (String × Ty)) (h : EndsInEof toks)
    (hn : toks.length ≤ n) :
    CursorEnds (parseParams func n params) toks fun _ toks' => Taken toks toks' := by
  induction n generalizing params toks with
  | zero => exact absurd (length_pos h) (Nat.not_lt.mpr hn)
  | succ n ih =>
    refine (expectIdent_ends h).bind fun name toks₁ h₁ => ?_
    refine (expect_ends h₁.ends (by simp)).bind fun _ toks₂ h₂ => ?_
    refine (expectType_ends h₂.ends).bind fun ty toks₃ h₃ => ?_
    have hl₃ := h₁.trans (h₂.trans h₃)
    split
    · exact .fail
    · refine .peek h₃.ends ?_
      rintro t rest rfl
      split
      · next heq =>
        refine (advance_ends h₃.ends (by simp [heq])).bind fun _ toks₄ h₄ => ?_
        have hl₄ := hl₃.trans h₄
        exact (ih _ h₄.ends (Nat.le_of_lt_succ (Nat.lt_of_lt_of_le hl₄.lt hn))).mono
          fun _ _ h₅ => hl₄.trans h₅
      · exact .pure hl₃

theorem parseFnHeader_ends {n : ℕ} (h : EndsInEof toks) (hn : toks.length ≤ n) :
    CursorEnds (parseFnHeader n) toks fun _ toks' => Taken toks toks' := by
  refine (expect_ends h (by simp)).bind fun _ toks₁ h₁ => ?_
  refine (expectIdent_ends h₁.ends).bind fun name toks₂ h₂ => ?_
  refine (expect_ends h₂.ends (by simp)).bind fun _ toks₃ h₃ => ?_
  have hl₃ := h₁.trans (h₂.trans h₃)
  have hend : ∀ (params : List (String × Ty)) toks₄, Left toks₃ toks₄ →
      CursorEnds (do
        let _ ← expect .rParen
        let _ ← expect .arrow
        let retTy ← expectType
        return (⟨name, params, some retTy⟩ : FnHeader)) toks₄ fun _ toks' => Taken toks toks' := by
    intro params toks₄ h₄
    refine (expect_ends h₄.ends (by simp)).bind fun _ toks₅ h₅ => ?_
    refine (expect_ends h₅.ends (by simp)).bind fun _ toks₆ h₆ => ?_
    refine (expectType_ends h₆.ends).bind fun ty toks₇ h₇ => ?_
    exact .pure (hl₃.trans (h₄.trans_taken (h₅.trans (h₆.trans h₇))))
  refine .peek h₃.ends ?_
  rintro t rest rfl
  split
  · exact (parseParams_ends _ h₃.ends (hl₃.left.le.trans hn)).bind fun params toks₄ h₄ =>
      hend params toks₄ h₄.left
  · exact hend _ _ (.refl h₃.ends)

theorem skipLoop_ends {n depth : ℕ} (h : EndsInEof toks) (hn : toks.length ≤ n) :
    CursorEnds (skipLoop n depth) toks fun _ toks' => Left toks toks' := by
  induction n generalizing depth toks with
  | zero => exact absurd (length_pos h) (Nat.not_lt.mpr hn)
  | succ n ih =>
    cases depth with
    | zero => exact .pure (.refl h)
    | succ depth =>
      refine .peek h ?_
      rintro t rest rfl
      have hnext : ∀ depth', t.kind ≠ .eof → CursorEnds (do
          let _ ← advance
          skipLoop n depth') (t :: rest) fun _ toks' => Left (t :: rest) toks' := by
        intro depth' hk
        refine (advance_ends h hk).bind fun _ toks₁ h₁ => ?_
        exact (ih h₁.ends (Nat.le_of_lt_succ (Nat.lt_of_lt_of_le h₁.lt hn))).mono
          fun _ _ h₂ => h₁.left.trans h₂
      split
      · next heq => exact hnext _ (by simp [heq])
      · next heq => exact hnext _ (by simp [heq])
      · exact .fail
      · next heq => exact hnext _ heq

theorem skipBlock_ends {n : ℕ} (h : EndsInEof toks) (hn : toks.length ≤ n) :
    CursorEnds (skipBlock n) toks fun _ toks' => Taken toks toks' := by
  refine (expect_ends h (by simp)).bind fun _ toks₁ h₁ => ?_
  exact (skipLoop_ends h₁.ends (h₁.left.le.trans hn)).mono fun _ _ h₂ => h₁.trans_left h₂

end Cursor

/-! ### Expressions -/

/-- From `ctx` and `toks`, `m` ends gracefully, and as `P` says if it succeeds. -/
def BodyEnds {α : Type} (m : BodyM α) (ctx : FnContext) (toks : List Token)
    (P : α → FnContext → List Token → Prop) : Prop :=
  Comp.Ends (m ctx toks) fun r => P r.1.1 r.1.2 r.2

section Body

variable {α β : Type} {ctx ctx' : FnContext} {toks : List Token} {f : α → BodyM β}
  {P : α → FnContext → List Token → Prop} {Q : β → FnContext → List Token → Prop}

theorem BodyEnds.bind {x : BodyM α} (hx : BodyEnds x ctx toks P)
    (hf : ∀ a ctx' toks', P a ctx' toks' → BodyEnds (f a) ctx' toks' Q) :
    BodyEnds (x >>= f) ctx toks Q :=
  Comp.Ends.bind hx fun r h => hf r.1.1 r.1.2 r.2 h

theorem BodyEnds.mono {x : BodyM α} {P' : α → FnContext → List Token → Prop}
    (hx : BodyEnds x ctx toks P) (h : ∀ a ctx' toks', P a ctx' toks' → P' a ctx' toks') :
    BodyEnds x ctx toks P' :=
  Comp.Ends.mono hx fun r hr => h r.1.1 r.1.2 r.2 hr

theorem BodyEnds.pure {a : α} (h : P a ctx toks) : BodyEnds (Pure.pure a) ctx toks P := .ok h

theorem BodyEnds.fail {e : ParseError} : BodyEnds (liftM (parseError e : CursorM α)) ctx toks P :=
  Comp.Ends.fail

/-- A move of the cursor. -/
theorem BodyEnds.lift {m : CursorM α} {R : α → List Token → Prop} (hm : CursorEnds m toks R)
    (hf : ∀ a toks', R a toks' → BodyEnds (f a) ctx toks' Q) :
    BodyEnds (liftM m >>= f) ctx toks Q := by
  refine BodyEnds.bind (P := fun a c toks' => c = ctx ∧ R a toks') ?_ ?_
  · exact Comp.Ends.bind hm fun r hr => .ok ⟨rfl, hr⟩
  · rintro a c toks' ⟨rfl, hr⟩
    exact hf a toks' hr

theorem BodyEnds.peek {f : Token → BodyM β} (h : EndsInEof toks)
    (hf : ∀ t rest, toks = t :: rest → BodyEnds (f t) ctx toks Q) :
    BodyEnds (liftM Parser.peek >>= f) ctx toks Q := by
  cases toks with
  | nil => exact absurd (length_pos h) (Nat.lt_irrefl 0)
  | cons t rest => exact hf t rest rfl

/-- An action on the context. -/
theorem BodyEnds.act {m : ActM α} {a : α} (hm : m ctx = .ok (a, ctx'))
    (hf : BodyEnds (f a) ctx' toks Q) : BodyEnds (Parser.act m >>= f) ctx toks Q := by
  refine BodyEnds.bind (P := fun b c toks' => b = a ∧ c = ctx' ∧ toks' = toks) ?_ ?_
  · unfold BodyEnds Parser.act
    rw [hm]
    exact .ok ⟨rfl, rfl, rfl⟩
  · rintro b c toks' ⟨rfl, rfl, rfl⟩
    exact hf

theorem BodyEnds.last {m : ActM α} (hm : Comp.Ends (m ctx) fun r => P r.1 r.2 toks) :
    BodyEnds (Parser.act m) ctx toks P :=
  Comp.Ends.bind hm fun _ hr => .ok hr

end Body

/-- With fewer than `n` tokens the parser `p` of expressions ends gracefully; if it succeeds, it
has taken a token. -/
def EndsExpr (n : ℕ) (p : ExprM) : Prop :=
  ∀ ⦃ctx toks⦄, ctx.Tame → ctx.Open → EndsInEof toks → toks.length < n →
    BodyEnds p ctx toks fun _ ctx' toks' => Evaluated ctx ctx' ∧ Taken toks toks'

section Expr

variable {ctx : FnContext} {toks : List Token} {n : ℕ} {expr operand : ExprM}

theorem parseArgs_ends (hexpr : EndsExpr n expr) {k : ℕ} (args : List (ValueId × Ty))
    (ht : ctx.Tame) (ho : ctx.Open) (h : EndsInEof toks) (hk : toks.length ≤ k)
    (hn : toks.length < n) :
    BodyEnds (parseArgs expr k args) ctx toks fun _ ctx' toks' =>
      Evaluated ctx ctx' ∧ Taken toks toks' := by
  induction k generalizing args ctx toks with
  | zero => exact absurd (length_pos h) (Nat.not_lt.mpr hk)
  | succ k ih =>
    refine (hexpr ht ho h hn).bind fun arg c₁ toks₁ h₁ => ?_
    refine .peek h₁.2.ends ?_
    rintro t rest rfl
    split
    · next heq =>
      refine .lift (advance_ends h₁.2.ends (by simp [heq])) fun _ toks₂ h₂ => ?_
      have hl₂ := h₁.2.trans h₂
      exact (ih _ h₁.1.tame h₁.1.isOpen h₂.ends (Nat.le_of_lt_succ (Nat.lt_of_lt_of_le hl₂.lt hk))
        (hl₂.lt.trans hn)).mono fun _ _ _ h₃ => ⟨h₁.1.trans h₃.1, hl₂.trans h₃.2⟩
    · exact .pure h₁

/-- The checks of a call end gracefully. -/
theorem checkArgs_ends (sigs : Sigs) (name : String) (args : List (ValueId × Ty)) (span : Span) :
    (checkArgs sigs name args span).Graceful := by
  unfold checkArgs
  split
  · exact .fail
  · split
    · exact .fail
    · refine .bind (.forM fun p _ => ?_) fun _ _ => .ok
      split
      · exact .fail
      · exact .ok

theorem emitCall_ends (ht : ctx.Tame) (ho : ctx.Open) (name : String) (args : List (ValueId × Ty))
    (span : Span) : Comp.Ends (emitCall name args span ctx) fun r => Evaluated ctx r.2 := by
  rcases checkArgs_ends ctx.sigs name args span with ⟨ty, hty⟩ | ⟨e, he⟩
  · obtain ⟨v, ctx', hok, h⟩ := emitCall_run ht ho hty
    exact .of_ok hok h
  · refine .inr ⟨e, ?_⟩
    rw [emitCall, act_run (rfl : (get : ActM FnContext) ctx = .ok (ctx, ctx))]
    show ((checkArgs ctx.sigs name args span >>= fun ty => Except.ok (ty, ctx)) >>= fun _ => _) = _
    rw [he]
    rfl

theorem parseCall_ends (hexpr : EndsExpr n expr) (name : String) (span : Span)
    (ht : ctx.Tame) (ho : ctx.Open) (h : EndsInEof toks) (hn : toks.length ≤ n) :
    BodyEnds (parseCall n expr name span) ctx toks fun _ ctx' toks' =>
      Evaluated ctx ctx' ∧ Taken toks toks' := by
  refine .lift (expect_ends h (by simp)) fun _ toks₁ h₁ => ?_
  have hend : ∀ args c₁ toks₂, Evaluated ctx c₁ → Left toks₁ toks₂ →
      BodyEnds (do
        let _ ← (liftM (expect .rParen) : BodyM Token)
        Parser.act (emitCall name args span)) c₁ toks₂ fun _ ctx' toks' =>
          Evaluated ctx ctx' ∧ Taken toks toks' := by
    intro args c₁ toks₂ hc₁ h₂
    refine .lift (expect_ends h₂.ends (by simp)) fun _ toks₃ h₃ => ?_
    exact .last ((emitCall_ends hc₁.tame hc₁.isOpen name args span).mono fun r hr =>
      ⟨hc₁.trans hr, h₁.trans (h₂.trans_taken h₃)⟩)
  refine .peek h₁.ends ?_
  rintro t rest rfl
  split
  · have hlt := Nat.lt_of_lt_of_le h₁.lt hn
    exact (parseArgs_ends hexpr [] ht ho h₁.ends hlt.le hlt).bind fun args c₁ toks₂ h₂ =>
      hend args c₁ toks₂ h₂.1 h₂.2.left
  · exact .bind (.pure (P := fun args c toks' => c = ctx ∧ toks' = t :: rest) ⟨rfl, rfl⟩) (by
      rintro args c toks' ⟨rfl, rfl⟩
      exact hend args c _ (.refl ht ho) (.refl h₁.ends))

theorem readName_ends (ht : ctx.Tame) (ho : ctx.Open) (name : String) (span : Span) :
    Comp.Ends (readName name span ctx) fun r => Evaluated ctx r.2 := by
  cases hty : lookupVar ctx.scopes name with
  | some ty =>
    obtain ⟨v, ctx', hok, h⟩ := readName_run ht ho hty span
    exact .of_ok hok h
  | none =>
    rw [readName, act_run (rfl : (get : ActM FnContext) ctx = .ok (ctx, ctx))]
    simp only [hty]
    exact .fail

theorem emitConst_ends (ht : ctx.Tame) (ho : ctx.Open) (ty : Ty) (kind : InstKind) :
    Comp.Ends (emitConst ty kind ctx) fun r => Evaluated ctx r.2 := by
  obtain ⟨v, ctx', hok, h⟩ := emitConst_run ht ho ty kind
  exact .of_ok hok h

theorem parsePrimary_ends (hexpr : EndsExpr n expr) : EndsExpr (n + 1) (parsePrimary n expr) := by
  intro ctx toks ht ho h hn
  have hle := Nat.le_of_lt_succ hn
  refine .peek h ?_
  rintro t rest rfl
  have hconst : ∀ (ty : Ty) (kind : InstKind), t.kind ≠ .eof → BodyEnds (do
      let _ ← (liftM advance : BodyM Token)
      Parser.act (emitConst ty kind)) ctx (t :: rest) fun _ ctx' toks' =>
        Evaluated ctx ctx' ∧ Taken (t :: rest) toks' := fun ty kind hk =>
    .lift (advance_ends h hk) fun _ toks₁ h₁ =>
      .last ((emitConst_ends ht ho ty kind).mono fun r hr => ⟨hr, h₁⟩)
  cases heq : t.kind with
  | int | trueKw | falseKw => exact hconst _ _ (by simp [heq])
  | lParen =>
    refine .lift (advance_ends h (by simp [heq])) fun _ toks₁ h₁ => ?_
    refine (hexpr ht ho h₁.ends (Nat.lt_of_lt_of_le h₁.lt hle)).bind fun e c₁ toks₂ h₂ => ?_
    refine .lift (expect_ends h₂.2.ends (by simp)) fun _ toks₃ h₃ => ?_
    exact .pure ⟨h₂.1, h₁.trans (h₂.2.trans h₃)⟩
  | ident name =>
    refine .lift (advance_ends h (by simp [heq])) fun _ toks₁ h₁ => ?_
    refine .peek h₁.ends ?_
    rintro u rest₁ rfl
    split
    · exact (parseCall_ends hexpr name t.span ht ho h₁.ends (h₁.left.le.trans hle)).mono
        fun _ _ _ h₂ => ⟨h₂.1, h₁.trans h₂.2⟩
    · exact .last ((readName_ends ht ho name t.span).mono fun r hr => ⟨hr, h₁⟩)
  | _ => exact .fail

/-- A prefix operator, whose operand may begin with it again. -/
theorem parseUnary_ends (hop : EndsExpr n operand) {k : ℕ} (ht : ctx.Tame) (ho : ctx.Open)
    (h : EndsInEof toks) (hk : toks.length ≤ k) (hn : toks.length < n) :
    BodyEnds (parseUnary operand k) ctx toks fun _ ctx' toks' =>
      Evaluated ctx ctx' ∧ Taken toks toks' := by
  induction k generalizing ctx toks with
  | zero => exact absurd (length_pos h) (Nat.not_lt.mpr hk)
  | succ k ih =>
    refine .peek h ?_
    rintro t rest rfl
    split
    · next heq =>
      refine .lift (advance_ends h (by simp [heq])) fun _ toks₁ h₁ => ?_
      refine (ih ht ho h₁.ends (Nat.le_of_lt_succ (Nat.lt_of_lt_of_le h₁.lt hk))
        (h₁.lt.trans hn)).bind fun v c₁ toks₂ h₂ => ?_
      refine .lift (checkTy_ends _ _ _) fun _ toks₃ h₃ => ?_
      subst h₃
      obtain ⟨w, c₂, hok, hc₂⟩ := emitHere_run h₂.1.tame h₂.1.isOpen .i64 (.un .neg v.1)
      exact .act hok (.pure ⟨h₂.1.trans hc₂, h₁.trans h₂.2⟩)
    · exact hop ht ho h hn

theorem parseNot_ends (hop : EndsExpr n operand) {k : ℕ} (ht : ctx.Tame) (ho : ctx.Open)
    (h : EndsInEof toks) (hk : toks.length ≤ k) (hn : toks.length < n) :
    BodyEnds (parseNot operand k) ctx toks fun _ ctx' toks' =>
      Evaluated ctx ctx' ∧ Taken toks toks' := by
  induction k generalizing ctx toks with
  | zero => exact absurd (length_pos h) (Nat.not_lt.mpr hk)
  | succ k ih =>
    refine .peek h ?_
    rintro t rest rfl
    split
    · next heq =>
      refine .lift (advance_ends h (by simp [heq])) fun _ toks₁ h₁ => ?_
      refine (ih ht ho h₁.ends (Nat.le_of_lt_succ (Nat.lt_of_lt_of_le h₁.lt hk))
        (h₁.lt.trans hn)).bind fun v c₁ toks₂ h₂ => ?_
      refine .lift (checkTy_ends _ _ _) fun _ toks₃ h₃ => ?_
      subst h₃
      obtain ⟨w, c₂, hok, hc₂⟩ := emitHere_run h₂.1.tame h₂.1.isOpen .bool (.un .not v.1)
      exact .act hok (.pure ⟨h₂.1.trans hc₂, h₁.trans h₂.2⟩)
    · exact hop ht ho h hn

theorem arithLoop_ends (hop : EndsExpr n operand) {ops : TokenKind → Option BinOp}
    (hops : ops .eof = none) {k : ℕ} (lhs : ValueId × Ty) (ht : ctx.Tame) (ho : ctx.Open)
    (h : EndsInEof toks) (hk : toks.length ≤ k) (hn : toks.length < n) :
    BodyEnds (arithLoop ops operand k lhs) ctx toks fun _ ctx' toks' =>
      Evaluated ctx ctx' ∧ Left toks toks' := by
  induction k generalizing lhs ctx toks with
  | zero => exact absurd (length_pos h) (Nat.not_lt.mpr hk)
  | succ k ih =>
    refine .peek h ?_
    rintro t rest rfl
    split
    · exact .pure ⟨.refl ht ho, .refl h⟩
    · next op heq =>
      have hne : t.kind ≠ .eof := by
        intro he
        rw [he, hops] at heq
        cases heq
      refine .lift (advance_ends h hne) fun _ toks₁ h₁ => ?_
      refine .lift (checkTy_ends _ _ _) fun _ toks₂ h₂ => ?_
      subst h₂
      refine (hop ht ho h₁.ends (h₁.lt.trans hn)).bind fun rhs c₁ toks₃ h₃ => ?_
      refine .lift (checkTy_ends _ _ _) fun _ toks₄ h₄ => ?_
      subst h₄
      obtain ⟨v, c₂, hok, hc₂⟩ := emitHere_run h₃.1.tame h₃.1.isOpen .i64 (.bin op lhs.1 rhs.1)
      have hl := h₁.trans h₃.2
      have hc := h₃.1.trans hc₂
      exact .act hok ((ih _ hc₂.tame hc₂.isOpen hl.ends
        (Nat.le_of_lt_succ (Nat.lt_of_lt_of_le hl.lt hk)) (hl.lt.trans hn)).mono
          fun _ _ _ h₅ => ⟨hc.trans h₅.1, hl.left.trans h₅.2⟩)

theorem shortCircuitLoop_ends (hop : EndsExpr n operand) {kind : TokenKind} (hkind : kind ≠ .eof)
    {short : Bool} {k : ℕ} (lhs : ValueId × Ty) (ht : ctx.Tame) (ho : ctx.Open)
    (h : EndsInEof toks) (hk : toks.length ≤ k) (hn : toks.length < n) :
    BodyEnds (shortCircuitLoop kind short operand k lhs) ctx toks fun _ ctx' toks' =>
      Evaluated ctx ctx' ∧ Left toks toks' := by
  induction k generalizing lhs ctx toks with
  | zero => exact absurd (length_pos h) (Nat.not_lt.mpr hk)
  | succ k ih =>
    refine .peek h ?_
    rintro t rest rfl
    split
    · next heq =>
      refine .lift (advance_ends h (heq ▸ hkind)) fun _ toks₁ h₁ => ?_
      refine .lift (checkTy_ends _ _ _) fun _ toks₂ h₂ => ?_
      subst h₂
      obtain ⟨s, c₁, hok₁, hs⟩ := openShortCircuit_run ht short lhs.1
      refine .act hok₁ ?_
      refine (hop hs.tame hs.isOpen h₁.ends (h₁.lt.trans hn)).bind fun rhs c₂ toks₃ h₃ => ?_
      refine .lift (checkTy_ends _ _ _) fun _ toks₄ h₄ => ?_
      subst h₄
      obtain ⟨v, c₃, hok₃, hc₃⟩ := closeShortCircuit_run (hs.trans h₃.1) rhs.1
      have hl := h₁.trans h₃.2
      exact .act hok₃ ((ih _ hc₃.tame hc₃.isOpen hl.ends
        (Nat.le_of_lt_succ (Nat.lt_of_lt_of_le hl.lt hk)) (hl.lt.trans hn)).mono
          fun _ _ _ h₅ => ⟨hc₃.trans h₅.1, hl.left.trans h₅.2⟩)
    · exact .pure ⟨.refl ht ho, .refl h⟩

theorem parseCmp_ends (hop : EndsExpr n operand) : EndsExpr n (parseCmp operand) := by
  intro ctx toks ht ho h hn
  refine (hop ht ho h hn).bind fun lhs c₁ toks₁ h₁ => ?_
  refine .peek h₁.2.ends ?_
  rintro t rest rfl
  split
  · exact .pure h₁
  · next op heq =>
    have hne : t.kind ≠ .eof := by
      intro he
      rw [he] at heq
      cases heq
    refine .lift (advance_ends h₁.2.ends hne) fun _ toks₂ h₂ => ?_
    refine .lift (checkTy_ends _ _ _) fun _ toks₃ h₃ => ?_
    subst h₃
    have hl₂ := h₁.2.trans h₂
    refine (hop h₁.1.tame h₁.1.isOpen h₂.ends (hl₂.lt.trans hn)).bind fun rhs c₂ toks₄ h₄ => ?_
    refine .lift (checkTy_ends _ _ _) fun _ toks₅ h₅ => ?_
    subst h₅
    obtain ⟨v, c₃, hok, hc₃⟩ := emitHere_run h₄.1.tame h₄.1.isOpen .bool (.bin op lhs.1 rhs.1)
    exact .act hok (.pure ⟨(h₁.1.trans h₄.1).trans hc₃, hl₂.trans h₄.2⟩)

/-- Operands, and the loop over the operators between them. -/
theorem EndsExpr.loop (hop : EndsExpr n operand) {loop : ValueId × Ty → ExprM}
    (hloop : ∀ lhs ⦃ctx toks⦄, ctx.Tame → ctx.Open → EndsInEof toks → toks.length < n →
      BodyEnds (loop lhs) ctx toks fun _ ctx' toks' => Evaluated ctx ctx' ∧ Left toks toks') :
    EndsExpr n (operand >>= loop) := by
  intro ctx toks ht ho h hn
  refine (hop ht ho h hn).bind fun lhs c₁ toks₁ h₁ => ?_
  exact (hloop lhs h₁.1.tame h₁.1.isOpen h₁.2.ends (h₁.2.lt.trans hn)).mono
    fun _ _ _ h₂ => ⟨h₁.1.trans h₂.1, h₁.2.trans_left h₂.2⟩

/-- `parse_expr` ends gracefully with more fuel than there are tokens. -/
theorem parseExpr_ends (n : ℕ) : EndsExpr n (parseExpr n) := by
  induction n with
  | zero => exact fun ctx toks _ _ _ hn => absurd hn (Nat.not_lt_zero _)
  | succ n ih =>
    have hunary : EndsExpr (n + 1) (parseUnary (parsePrimary n (parseExpr n)) n) :=
      fun _ _ ht ho h hn =>
        parseUnary_ends (parsePrimary_ends ih) ht ho h (Nat.le_of_lt_succ hn) hn
    have hmul : EndsExpr (n + 1) (parseMul n _) := hunary.loop fun lhs _ _ ht ho h hn =>
      arithLoop_ends hunary rfl lhs ht ho h (Nat.le_of_lt_succ hn) hn
    have hadd : EndsExpr (n + 1) (parseAdd n _) := hmul.loop fun lhs _ _ ht ho h hn =>
      arithLoop_ends hmul rfl lhs ht ho h (Nat.le_of_lt_succ hn) hn
    have hnot : EndsExpr (n + 1) (parseNot (parseCmp _) n) := fun _ _ ht ho h hn =>
      parseNot_ends (parseCmp_ends hadd) ht ho h (Nat.le_of_lt_succ hn) hn
    have hand : EndsExpr (n + 1) (parseAnd n _) := hnot.loop fun lhs _ _ ht ho h hn =>
      shortCircuitLoop_ends hnot (by simp) lhs ht ho h (Nat.le_of_lt_succ hn) hn
    exact hand.loop fun lhs _ _ ht ho h hn =>
      shortCircuitLoop_ends hand (by simp) lhs ht ho h (Nat.le_of_lt_succ hn) hn

end Expr

/-! ### Statements -/

/-- What a statement leaves behind: the scopes around the innermost one are those there were. -/
structure Executed (ctx ctx' : FnContext) : Prop extends Later ctx ctx' where
  tame : ctx'.Tame
  outer : ctx'.scopes.tail = ctx.scopes.tail

/-- With fewer than `n` tokens the parser `p` of statements ends gracefully; if it succeeds, it has
taken a token. -/
def EndsStmt (n : ℕ) (p : BodyM Unit) : Prop :=
  ∀ ⦃ctx toks⦄, ctx.Tame → ctx.Open → EndsInEof toks → toks.length < n →
    BodyEnds p ctx toks fun _ ctx' toks' => Executed ctx ctx' ∧ Taken toks toks'

/-- The same for a block, which has a scope of its own. -/
def EndsBlock (n : ℕ) (p : BodyM Unit) : Prop :=
  ∀ ⦃ctx toks⦄, ctx.Tame → EndsInEof toks → toks.length < n →
    BodyEnds p ctx toks fun _ ctx' toks' =>
      Later ctx ctx' ∧ ctx'.Tame ∧ ctx'.scopes = ctx.scopes ∧ Taken toks toks'

section Stmt

variable {ctx ctx' : FnContext} {toks : List Token} {n k : ℕ} {block : BodyM Unit}

theorem FnContext.Evaluated.executed (h : Evaluated ctx ctx') : Executed ctx ctx' :=
  ⟨h.toLater, h.tame, by rw [h.scopes]⟩

theorem parseLet_ends (hle : k ≤ n) : EndsStmt k (parseLet n) := by
  intro ctx toks ht ho h hn
  replace hn := Nat.lt_of_lt_of_le hn hle
  refine .lift (expect_ends h (by simp)) fun _ toks₁ h₁ => ?_
  refine .lift (expectIdent_ends h₁.ends) fun name toks₂ h₂ => ?_
  refine .lift (expect_ends h₂.ends (by simp)) fun _ toks₃ h₃ => ?_
  have hl₃ := h₁.trans (h₂.trans h₃)
  refine (parseExpr_ends n ht ho h₃.ends (hl₃.lt.trans hn)).bind fun value c₁ toks₄ h₄ => ?_
  refine .lift (expect_ends h₄.2.ends (by simp)) fun _ toks₅ h₅ => ?_
  obtain ⟨s, rest, hs⟩ := List.exists_cons_of_ne_nil h₄.1.tame.scopes
  obtain ⟨c₂, hok, ht₂, -, hlater, hscopes⟩ := writeLet_run h₄.1.tame h₄.1.isOpen hs name value
  refine .last (.of_ok hok ⟨⟨h₄.1.toLater.trans hlater, ht₂, ?_⟩,
    hl₃.trans (h₄.2.trans h₅)⟩)
  rw [hscopes, ← h₄.1.scopes, hs]
  rfl

theorem writeAssign_ends (ht : ctx.Tame) (ho : ctx.Open) (name : String) (value : ValueId × Ty)
    (span : Span) : Comp.Ends (writeAssign name value span ctx) fun r => Evaluated ctx r.2 := by
  by_cases hty : lookupVar ctx.scopes name = some value.2
  · obtain ⟨ctx', hok, h⟩ := writeAssign_run ht ho hty span
    exact .of_ok hok h
  · rw [writeAssign, act_run (rfl : (get : ActM FnContext) ctx = .ok (ctx, ctx))]
    cases hname : lookupVar ctx.scopes name with
    | none =>
      exact .fail
    | some expected =>
      have hne : expected ≠ value.2 := fun he => hty (by rw [hname, he])
      simp only [if_pos hne]
      exact .fail

theorem parseAssign_ends (hle : k ≤ n) : EndsStmt k (parseAssign n) := by
  intro ctx toks ht ho h hn
  replace hn := Nat.lt_of_lt_of_le hn hle
  refine .peek h fun t _ _ => ?_
  refine .lift (expectIdent_ends h) fun name toks₁ h₁ => ?_
  refine .lift (expect_ends h₁.ends (by simp)) fun _ toks₂ h₂ => ?_
  have hl₂ := h₁.trans h₂
  refine (parseExpr_ends n ht ho h₂.ends (hl₂.lt.trans hn)).bind fun value c₁ toks₃ h₃ => ?_
  refine .lift (expect_ends h₃.2.ends (by simp)) fun _ toks₄ h₄ => ?_
  exact .last ((writeAssign_ends h₃.1.tame h₃.1.isOpen name value t.span).mono fun r hr =>
    ⟨(h₃.1.trans hr).executed, hl₂.trans (h₃.2.trans h₄)⟩)

theorem parseReturn_ends (hle : k ≤ n) : EndsStmt k (parseReturn n) := by
  intro ctx toks ht ho h hn
  replace hn := Nat.lt_of_lt_of_le hn hle
  refine .peek h fun t _ _ => ?_
  refine .lift (expect_ends h (by simp)) fun _ toks₁ h₁ => ?_
  refine BodyEnds.bind (P := fun c c' toks' => c = ctx ∧ c' = ctx ∧ toks' = toks₁)
    (.ok ⟨rfl, rfl, rfl⟩) ?_
  rintro c c' toks' ⟨rfl, rfl, rfl⟩
  split
  · refine (parseExpr_ends n ht ho h₁.ends (h₁.lt.trans hn)).bind fun value c₁ toks₂ h₂ => ?_
    refine .lift (checkTy_ends _ _ _) fun _ toks₃ h₃ => ?_
    subst h₃
    refine .lift (expect_ends h₂.2.ends (by simp)) fun _ toks₄ h₄ => ?_
    obtain ⟨c₂, hok, ht₂, hlater, hscopes, -⟩ := ret_run h₂.1.tame (some value.1)
    exact .last (.of_ok hok ⟨⟨h₂.1.toLater.trans hlater, ht₂, by rw [hscopes, h₂.1.scopes]⟩,
      h₁.trans (h₂.2.trans h₄)⟩)
  · refine .lift (expect_ends h₁.ends (by simp)) fun _ toks₂ h₂ => ?_
    obtain ⟨c₂, hok, ht₂, hlater, hscopes, -⟩ := ret_run ht none
    exact .last (.of_ok hok ⟨⟨hlater, ht₂, by rw [hscopes]⟩, h₁.trans h₂⟩)

theorem parseExprStmt_ends (hle : k ≤ n) : EndsStmt k (parseExprStmt n) := by
  intro ctx toks ht ho h hn
  refine (parseExpr_ends n ht ho h (Nat.lt_of_lt_of_le hn hle)).bind fun value c₁ toks₁ h₁ => ?_
  refine .lift (expect_ends h₁.2.ends (by simp)) fun _ toks₂ h₂ => ?_
  exact .pure ⟨h₁.1.executed, h₁.2.trans h₂⟩

/-- An `if`: the scopes stay as they are. -/
theorem parseIf_ends (hblock : EndsBlock n block) (ht : ctx.Tame) (ho : ctx.Open)
    (h : EndsInEof toks) (hk : toks.length < k) (hn : toks.length < n) :
    BodyEnds (parseIf block k) ctx toks fun _ ctx' toks' =>
      Later ctx ctx' ∧ ctx'.Tame ∧ ctx'.scopes = ctx.scopes ∧ Taken toks toks' := by
  induction k generalizing ctx toks with
  | zero => exact absurd hk (Nat.not_lt_zero _)
  | succ k ih =>
    replace hk := Nat.le_of_lt_succ hk
    refine .peek h fun t _ _ => ?_
    refine .lift (expect_ends h (by simp)) fun _ toks₁ h₁ => ?_
    refine (parseExpr_ends k ht ho h₁.ends (Nat.lt_of_lt_of_le h₁.lt hk)).bind
      fun cond c₁ toks₂ h₂ => ?_
    refine .lift (checkTy_ends _ _ _) fun _ toks₃ h₃ => ?_
    subst h₃
    obtain ⟨elseBlock, c₂, hok₂, ht₂, -, hs₂, hnew₂, hwait₂⟩ := openIf_run h₂.1.tame cond.1
    refine .act hok₂ ?_
    have hl₂ := h₁.trans h₂.2
    refine (hblock ht₂ hl₂.ends (hl₂.lt.trans hn)).bind fun _ c₃ toks₃ h₃ => ?_
    obtain ⟨hlater₃, ht₃, hs₃, hl₃⟩ := h₃
    have hl := hl₂.trans hl₃
    refine .act currentBlock_run ?_
    refine .act (isTerminated_run _) ?_
    refine .act (enterBlock_run _) ?_
    obtain ⟨hlater₄, ht₄, ho₄⟩ := (hwait₂.trans hlater₃).enter ht₃
    -- the first arm ends in a new block, which the other arm does not touch
    have htail : c₁.size ≤ c₃.currentBlock := by
      rcases hlater₃.here with he | he
      · exact he ▸ hnew₂
      · exact hwait₂.size.trans he
    have hne : c₃.currentBlock ≠ elseBlock := (hwait₂.trans hlater₃).ne.symm
    have hend : ∀ (elseTerminated : Bool) c₅ toks₅,
        Later { c₃ with currentBlock := elseBlock } c₅ → c₅.Tame → c₅.scopes = c₃.scopes →
        Left toks₃ toks₅ →
        BodyEnds (Parser.act (closeIf c₃.currentBlock (c₃.builder.isTerminated c₃.currentBlock)
          elseTerminated)) c₅ toks₅ fun _ ctx' toks' =>
            Later ctx ctx' ∧ ctx'.Tame ∧ ctx'.scopes = ctx.scopes ∧ Taken toks toks' := by
      intro elseTerminated c₅ toks₅ hlater₅ ht₅ hs₅ hl₅
      obtain ⟨c₆, hok₆, ht₆, hlater₆, hs₆, -⟩ := closeIf_run elseTerminated
        (hlater₄.trans hlater₅) ht₅
        ⟨htail, Nat.lt_of_lt_of_le ht₃.here hlater₅.size, hlater₅.reach _ ht₃.reach⟩
        (hlater₅.ended _ ht₃.here hne)
      exact .last (.of_ok hok₆ ⟨h₂.1.toLater.trans hlater₆, ht₆,
        by rw [hs₆, hs₅, hs₃, hs₂, h₂.1.scopes], hl.trans_left hl₅⟩)
    refine .peek hl₃.ends ?_
    rintro next rest rfl
    split
    · next heq =>
      refine .lift (advance_ends hl₃.ends (by simp [heq])) fun _ toks₄ h₄ => ?_
      have hl₄ := hl.trans h₄
      refine .peek h₄.ends ?_
      rintro after rest₁ rfl
      split
      · -- `else if`
        refine (ih ht₄ ho₄ h₄.ends (Nat.lt_of_lt_of_le hl₄.lt hk) (hl₄.lt.trans hn)).bind
          fun _ c₅ toks₅ h₅ => ?_
        obtain ⟨hlater₅, ht₅, hs₅, hl₅⟩ := h₅
        exact .act ((act_run currentBlock_run).trans (isTerminated_run _))
          (hend _ c₅ toks₅ hlater₅ ht₅ hs₅ (h₄.trans hl₅).left)
      · refine (hblock ht₄ h₄.ends (hl₄.lt.trans hn)).bind fun _ c₅ toks₅ h₅ => ?_
        obtain ⟨hlater₅, ht₅, hs₅, hl₅⟩ := h₅
        exact .act ((act_run currentBlock_run).trans (isTerminated_run _))
          (hend _ c₅ toks₅ hlater₅ ht₅ hs₅ (h₄.trans hl₅).left)
    · exact .bind (.pure (P := fun b c toks' => b = false ∧ c = _ ∧ toks' = next :: rest)
        ⟨rfl, rfl, rfl⟩) (by
          rintro b c toks' ⟨rfl, rfl, rfl⟩
          exact hend false _ _ .refl ht₄ rfl (.refl hl₃.ends))

theorem parseWhile_ends (hle : k ≤ n) (hblock : EndsBlock n block) :
    EndsStmt k (parseWhile block n) := by
  intro ctx toks ht ho h hn
  replace hn := Nat.lt_of_lt_of_le hn hle
  obtain ⟨header, c₁, hok₁, hloop₁, ht₁, ho₁, hs₁, -⟩ := openWhile_run ht
  refine .act hok₁ ?_
  refine .lift (expect_ends h (by simp)) fun _ toks₁ h₁ => ?_
  refine .peek h₁.ends fun t _ _ => ?_
  refine (parseExpr_ends n ht₁ ho₁ h₁.ends (h₁.lt.trans hn)).bind fun cond c₂ toks₂ h₂ => ?_
  refine .lift (checkTy_ends _ _ _) fun _ toks₃ h₃ => ?_
  subst h₃
  obtain ⟨exit, c₃, hok₃, ht₃, -, hs₃, hloop₃, hexit₃⟩ :=
    openBody_run (hloop₁.trans h₂.1.toLater) h₂.1.tame cond.1
  refine .act hok₃ ?_
  have hl₂ := h₁.trans h₂.2
  refine (hblock ht₃ hl₂.ends (hl₂.lt.trans hn)).bind fun _ c₄ toks₄ h₄ => ?_
  obtain ⟨hlater₄, ht₄, hs₄, hl₄⟩ := h₄
  obtain ⟨c₅, hok₅, ht₅, -, hlater₅, hs₅⟩ :=
    closeWhile_run (hloop₃.trans hlater₄) (hexit₃.trans hlater₄) ht₄
  exact .last (.of_ok hok₅ ⟨⟨hlater₅, ht₅, by rw [hs₅, hs₄, hs₃, h₂.1.scopes, hs₁]⟩,
    hl₂.trans hl₄⟩)

/-- Looking two tokens ahead takes none. -/
theorem peekIsAssignment_ends (h : EndsInEof toks) :
    CursorEnds peekIsAssignment toks fun _ toks' => toks' = toks := by
  cases toks with
  | nil => exact absurd (length_pos h) (Nat.lt_irrefl 0)
  | cons t rest =>
    unfold CursorEnds peekIsAssignment
    dsimp only
    split
    · exact .ok rfl
    · exact .ok rfl

theorem parseStatement_ends (hblock : EndsBlock n block) : EndsStmt n (parseStatement block n) := by
  intro ctx toks ht ho h hn
  refine .peek h fun t _ _ => ?_
  cases t.kind with
  | letKw => exact parseLet_ends (Nat.le_refl n) ht ho h hn
  | ifKw =>
    refine (parseIf_ends hblock ht ho h hn hn).mono fun _ ctx' toks' h₁ => ?_
    obtain ⟨hlater, ht', hs, hl⟩ := h₁
    exact ⟨⟨hlater, ht', by rw [hs]⟩, hl⟩
  | whileKw => exact parseWhile_ends (Nat.le_refl n) hblock ht ho h hn
  | returnKw => exact parseReturn_ends (Nat.le_refl n) ht ho h hn
  | ident name =>
    refine .lift (peekIsAssignment_ends h) ?_
    · rintro b toks' rfl
      split
      · exact parseAssign_ends (Nat.le_refl n) ht ho h hn
      · exact parseExprStmt_ends (Nat.le_refl n) ht ho h hn
  | _ => exact parseExprStmt_ends (Nat.le_refl n) ht ho h hn

theorem blockLoop_ends {statement : BodyM Unit} (hstmt : EndsStmt n statement) (ht : ctx.Tame)
    (h : EndsInEof toks) (hk : toks.length ≤ k) (hn : toks.length < n) :
    BodyEnds (blockLoop statement k) ctx toks fun _ ctx' toks' =>
      Executed ctx ctx' ∧ Left toks toks' := by
  induction k generalizing ctx toks with
  | zero => exact absurd (length_pos h) (Nat.not_lt.mpr hk)
  | succ k ih =>
    refine .peek h fun t _ _ => ?_
    split
    · refine .act ((act_run currentBlock_run).trans (isTerminated_run _)) ?_
      cases ho : ctx.builder.isTerminated ctx.currentBlock with
      | true => exact .fail
      | false =>
        refine (hstmt ht ho h hn).bind fun _ c₁ toks₁ h₁ => ?_
        exact (ih h₁.1.tame h₁.2.ends (Nat.le_of_lt_succ (Nat.lt_of_lt_of_le h₁.2.lt hk))
          (h₁.2.lt.trans hn)).mono fun _ _ _ h₂ =>
            ⟨⟨h₁.1.toLater.trans h₂.1.toLater, h₂.1.tame, h₂.1.outer.trans h₁.1.outer⟩,
              h₁.2.left.trans h₂.2⟩
    · exact .pure ⟨⟨.refl, ht, rfl⟩, .refl h⟩

theorem parseBlockBody_ends (n : ℕ) : EndsBlock n (parseBlockBody n) := by
  induction n with
  | zero => exact fun ctx toks _ _ hn => absurd hn (Nat.not_lt_zero _)
  | succ n ih =>
    intro ctx toks ht h hn
    have hle := Nat.le_of_lt_succ hn
    refine .lift (expect_ends h (by simp)) fun _ toks₁ h₁ => ?_
    have hlt := Nat.lt_of_lt_of_le h₁.lt hle
    have hpush : pushScope ctx = .ok ((), { ctx with scopes := (fun _ => none) :: ctx.scopes }) := rfl
    refine .act hpush ?_
    have ht₀ : Tame { ctx with scopes := (fun _ => none) :: ctx.scopes } :=
      ⟨ht.sound, ht.here, ht.reach, List.cons_ne_nil _ _⟩
    refine (blockLoop_ends (parseStatement_ends ih) ht₀ h₁.ends hlt.le hlt).bind fun _ c₁ toks₂ h₂ => ?_
    obtain ⟨⟨hlater, ht₁, houter⟩, hl₂⟩ := h₂
    refine .lift (expect_ends hl₂.ends (by simp)) fun _ toks₃ h₃ => ?_
    have hs : c₁.scopes.tail = ctx.scopes := houter
    refine .last (.of_ok (a := ((), { c₁ with scopes := c₁.scopes.tail })) rfl ⟨?_, ?_, hs,
      h₁.trans (hl₂.trans_taken h₃)⟩)
    · exact ⟨hlater.size, hlater.ended, hlater.closed, hlater.reach, hlater.here, hlater.retTy,
        hlater.sigs⟩
    · exact ⟨ht₁.sound, ht₁.here, ht₁.reach, hs ▸ ht.scopes⟩

end Stmt

/-! ### The two passes -/

section Module

variable {toks : List Token} {n : ℕ} {sigs : Sigs}

/-- A function begins in its entry block, with its parameters in scope. -/
theorem FnContext.Tame.new (h : FnHeader) (sigs : Sigs) : (FnContext.new h sigs).Tame :=
  ⟨⟨_, Ghost.Sound.new h.name h.params h.retTy, rfl⟩, Nat.one_pos, ⟨[], .start⟩, List.cons_ne_nil _ _⟩

theorem parseFunction_ends (h : EndsInEof toks) (hn : toks.length < n) :
    CursorEnds (parseFunction n sigs) toks fun _ _ => True := by
  refine (parseFnHeader_ends h hn.le).bind fun header toks₁ h₁ => ?_
  have hbody : CursorEnds (parseBlockBody n (FnContext.new header sigs)) toks₁ fun _ _ => True :=
    (parseBlockBody_ends n (.new header sigs) h₁.ends (h₁.lt.trans hn)).mono fun _ _ _ _ => trivial
  exact hbody.bind fun _ _ _ => .pure trivial

theorem scanSignatures_ends {k : ℕ} (starts : List (List Token)) (h : EndsInEof toks)
    (hk : toks.length < k) (hn : toks.length < n)
    (hstarts : ∀ s ∈ starts, EndsInEof s ∧ s.length < n) :
    CursorEnds (scanSignatures k sigs starts) toks fun r _ =>
      ∀ s ∈ r.2, EndsInEof s ∧ s.length < n := by
  induction k generalizing sigs starts toks with
  | zero => exact absurd hk (Nat.not_lt_zero _)
  | succ k ih =>
    replace hk := Nat.le_of_lt_succ hk
    refine .peek h fun t _ _ => ?_
    split
    · refine CursorEnds.bind (P := fun s toks' => s = toks ∧ toks' = toks) (.ok ⟨rfl, rfl⟩) ?_
      rintro start toks' ⟨rfl, rfl⟩
      refine (parseFnHeader_ends h hk).bind fun header toks₁ h₁ => ?_
      split
      · exact .fail
      · refine (skipBlock_ends h₁.ends (h₁.left.le.trans hk)).bind fun _ toks₂ h₂ => ?_
        have hl₂ := h₁.trans h₂
        refine ih _ h₂.ends (Nat.lt_of_lt_of_le hl₂.lt hk) (hl₂.lt.trans hn) fun s hs => ?_
        rcases List.mem_append.mp hs with hs | hs
        · exact hstarts s hs
        · rw [List.mem_singleton.mp hs]
          exact ⟨h, hn⟩
    · exact .pure hstarts

theorem parseFunctions_ends {starts : List (List Token)}
    (hstarts : ∀ s ∈ starts, EndsInEof s ∧ s.length < n) :
    CursorEnds (parseFunctions n sigs starts) toks fun _ _ => True := by
  induction starts generalizing toks with
  | nil => exact .pure trivial
  | cons start starts ih =>
    obtain ⟨hend, hlt⟩ := hstarts start List.mem_cons_self
    refine CursorEnds.bind (P := fun _ toks' => toks' = start) (.ok rfl) ?_
    rintro _ toks' rfl
    refine (parseFunction_ends hend hlt).bind fun _ _ _ => ?_
    exact (ih fun s hs => hstarts s (List.mem_cons_of_mem _ hs)).bind fun _ _ _ => .pure trivial

theorem parseModule_ends (h : EndsInEof toks) (hn : toks.length < n) :
    CursorEnds (parseModule n) toks fun _ _ => True := by
  refine (scanSignatures_ends (n := n) [] h hn hn (by simp)).bind fun r _ hr => ?_
  exact (parseFunctions_ends hr).bind fun _ _ _ => .pure trivial

end Module

/-- On every source `lex` and `parse` end with a value or a typed error, as long as values and blocks
are numbered without bound: no slice cuts a character, the cursor stays in the tokens, there is a
scope at every `let`, no access of the builder fails, and the fuel, one more than the number of
tokens, lasts. -/
theorem frontEnd_total (source : String) :
    (lex source).Graceful ∧ (parse source).Graceful := by
  rcases lex_total source with ⟨tokens, hlex⟩ | ⟨e, hlex⟩
  · refine ⟨.of_ok hlex, ?_⟩
    have hend := lex_endsInEof hlex
    have hparse : Comp.Graceful (parseModule (tokens.length + 1) tokens) :=
      Comp.Ends.graceful (parseModule_ends hend (Nat.lt_succ_self _))
    have htokens : lexTokens source = .ok tokens := by simp only [lexTokens, hlex]
    rw [parse, htokens]
    exact hparse.bind fun _ _ => .ok
  · refine ⟨.inr ⟨e, hlex⟩, ?_⟩
    have htokens : lexTokens source = Comp.fail (.lex e) := by
      simp only [lexTokens, hlex]
      rfl
    rw [parse, htokens]
    exact .fail

end Parser
end Chakobsa
