import Chakobsa.Parser.Constructs
import Chakobsa.Parser.Grammar

/-!
# The parser over a backend that follows the builder

From a settled context the parser does the same over any backend that follows the builder, whatever
the tokens are. For expressions this is `Agrees`. A statement may contain a `while` whose condition
has ended the header already: there the backend may do something else, and what the parser leaves
behind is broken. For statements the two ways are `Watches`.
-/

namespace Chakobsa
namespace Parser

open Ir Lexer FnContext

/-- From `ctx` and any tokens `m'` does what `m` does, and `P` holds of what they leave behind; or
else `A` holds, and `L` holds of what `m` leaves behind. -/
def Watches {α : Type} (A : Prop) (L : FnContext → Prop) (P : α → FnContext → Prop)
    (m' m : BodyM α) (ctx : FnContext) : Prop :=
  ∀ toks, (m' ctx toks = m ctx toks ∨
      A ∧ ∀ a c toks', m ctx toks = .ok ((a, c), toks') → L c) ∧
    ∀ a c toks', m ctx toks = .ok ((a, c), toks') → P a c

/-- The first of these for certain. -/
abbrev Agrees {α : Type} (P : α → FnContext → Prop) (m' m : BodyM α) (ctx : FnContext) : Prop :=
  Watches False (fun _ => False) P m' m ctx

section Rules

variable {α β : Type} {ctx c : FnContext} {A : Prop} {L L₁ : FnContext → Prop}
  {P P' : α → FnContext → Prop} {Q : β → FnContext → Prop} {x' x : BodyM α} {f' f : α → BodyM β}

theorem Watches.mono (hx : Watches A L P x' x ctx) (h : ∀ a c, P a c → P' a c) :
    Watches A L P' x' x ctx :=
  fun toks => ⟨(hx toks).1, fun a c toks' hok => h a c ((hx toks).2 a c toks' hok)⟩

theorem Agrees.eq (hx : Agrees P x' x ctx) (toks : List Token) : x' ctx toks = x ctx toks :=
  (hx toks).1.resolve_right And.left

theorem Agrees.watches (hx : Agrees P x' x ctx) : Watches A L P x' x ctx :=
  fun toks => ⟨.inl (Agrees.eq hx toks), (hx toks).2⟩

/-- The second part keeps what the first has lost. -/
theorem Watches.bind (hx : Watches A L₁ P x' x ctx)
    (hf : ∀ a c, P a c → Watches A L (fun b c' => Q b c' ∧ (L₁ c → L c')) (f' a) (f a) c) :
    Watches A L Q (x' >>= f') (x >>= f) ctx := by
  intro toks
  obtain ⟨heq, hP⟩ := hx toks
  have hrun₀ : (x >>= f) ctx toks = x ctx toks >>= fun r => f r.1.1 r.1.2 r.2 := rfl
  refine ⟨?_, fun b c' toks' h => ?_⟩
  · rcases heq with heq | ⟨hA, hL⟩
    · have hrun : (x' >>= f') ctx toks = x ctx toks >>= fun r => f' r.1.1 r.1.2 r.2 := heq ▸ rfl
      rw [hrun, hrun₀]
      cases hok : x ctx toks with
      | error e => exact .inl rfl
      | ok r => exact (hf r.1.1 r.1.2 (hP _ _ _ hok) r.2).1
    · refine .inr ⟨hA, fun b c' toks' h => ?_⟩
      obtain ⟨a, c, toks₁, hok, h⟩ := body_bind.mp h
      exact ((hf a c (hP _ _ _ hok) toks₁).2 b c' toks' h).2 (hL _ _ _ hok)
  · obtain ⟨a, c, toks₁, hok, h⟩ := body_bind.mp h
    exact ((hf a c (hP _ _ _ hok) toks₁).2 b c' toks' h).1

/-- The first part is the same for certain. -/
theorem Agrees.bind (hx : Agrees P x' x ctx) (hf : ∀ a c, P a c → Watches A L Q (f' a) (f a) c) :
    Watches A L Q (x' >>= f') (x >>= f) ctx :=
  Watches.bind (Agrees.watches (L := fun _ => False) hx) fun a c hP =>
    (hf a c hP).mono fun _ _ hQ => ⟨hQ, False.elim⟩

/-- The parts that both parsers have in common. -/
theorem Watches.same (h : ∀ toks a c toks', x ctx toks = .ok ((a, c), toks') → P a c) :
    Watches A L P x x ctx := fun toks => ⟨.inl rfl, h toks⟩

theorem Watches.pure {a : α} (h : P a ctx) : Watches A L P (Pure.pure a) (Pure.pure a) ctx := by
  refine .same fun toks b c toks' hok => ?_
  obtain ⟨rfl, rfl, -⟩ := body_pure.mp hok
  exact h

theorem Watches.fail {e : ParseError} : Watches A L P (liftM (parseError e : CursorM α))
    (liftM (parseError e : CursorM α)) ctx := .same fun _ _ _ _ hok => nomatch hok

theorem Watches.outOfFuel : Watches A L P (liftM (Parser.outOfFuel : CursorM α))
    (liftM (Parser.outOfFuel : CursorM α)) ctx := .same fun _ _ _ _ hok => nomatch hok

/-- A move of the cursor. -/
theorem Watches.lift {m : CursorM α} (hf : ∀ a, Watches A L Q (f' a) (f a) ctx) :
    Watches A L Q (liftM m >>= f') (liftM m >>= f) ctx := by
  refine Agrees.bind (P := fun _ c => c = ctx) (.same fun toks a c toks' hok => ?_) ?_
  · exact (body_lift.mp hok).2
  · rintro a c rfl
    exact hf a

/-- An action that is the same over both backends. -/
theorem Watches.act {m' m : ActM α} (heq : m' ctx = m ctx) (h : ∀ a c, m ctx = .ok (a, c) → P a c) :
    Watches A L P (Parser.act m') (Parser.act m) ctx := by
  refine fun toks => ⟨.inl (by rw [Parser.act, Parser.act, heq]), fun a c toks' hok => ?_⟩
  exact h a c (act_ok.mp hok).1

/-- An action that ends with a value over both, and what comes then. -/
theorem Watches.run {m' m : ActM α} {a : α} (h' : m' ctx = .ok (a, c)) (h : m ctx = .ok (a, c))
    (hf : Watches A L Q (f' a) (f a) c) :
    Watches A L Q (Parser.act m' >>= f') (Parser.act m >>= f) ctx := by
  refine Agrees.bind (P := fun b d => b = a ∧ d = c) (.act (h'.trans h.symm) fun b d hok => ?_) ?_
  · exact Prod.mk.inj (Except.ok.inj (hok.symm.trans h))
  · rintro b d ⟨rfl, rfl⟩
    exact hf

/-- An action that need not be the same over both. -/
theorem Watches.act_or {m' m : ActM α} {a : α} (L : FnContext → Prop) (h : m ctx = .ok (a, c))
    (h' : m' ctx = .ok (a, c) ∨ A ∧ L c) :
    Watches A L (fun b d => b = a ∧ d = c) (Parser.act m') (Parser.act m) ctx := by
  have hout : ∀ b d, m ctx = .ok (b, d) → b = a ∧ d = c := fun b d hok =>
    Prod.mk.inj (Except.ok.inj (hok.symm.trans h))
  rcases h' with h' | ⟨hA, hL⟩
  · exact .act (h'.trans h.symm) hout
  · refine fun toks => ⟨.inr ⟨hA, fun b d toks' hok => ?_⟩, fun b d toks' hok => ?_⟩
    · rw [(hout b d (act_ok.mp hok).1).2]
      exact hL
    · exact hout b d (act_ok.mp hok).1

end Rules

/-! ### Expressions -/

/-- From a settled context with an open block, the parsers `p'` and `p` of expressions agree. -/
def AgreesExpr {α : Type} (p' p : BodyM α) : Prop :=
  ∀ ⦃ctx⦄, ctx.Settled → ctx.Open → Agrees (fun _ c => Valued ctx c) p' p ctx

section Expr

variable {α : Type} {K : Backend} {A : Prop} {ctx c : FnContext} {p' p operand' operand : ExprM}
  {n : ℕ}

theorem AgreesExpr.args (h : AgreesExpr p' p) (args : List (ValueId × Ty)) :
    AgreesExpr (parseArgs p' n args) (parseArgs p n args) := by
  induction n generalizing args with
  | zero => exact fun ctx _ _ => .outOfFuel
  | succ n ih =>
    intro ctx hs ho
    refine (h hs ho).bind fun arg c hv => ?_
    refine .lift fun t => ?_
    split
    · exact .lift fun _ => (ih _ hv.settled hv.isOpen).mono fun _ _ => hv.trans
    · exact .pure hv

theorem AgreesExpr.call (h : AgreesExpr p' p) (name : String) (span : Span) :
    AgreesExpr (parseCall n p' name span) (parseCall n p name span) := by
  intro ctx hs ho
  refine .lift fun _ => .lift fun t => ?_
  have hend : ∀ (args : List (ValueId × Ty)) c, Valued ctx c → Agrees (fun _ c => Valued ctx c)
      (do
        let _ ← (liftM (expect .rParen) : BodyM Token)
        Parser.act (emitCall name args span))
      (do
        let _ ← (liftM (expect .rParen) : BodyM Token)
        Parser.act (emitCall name args span)) c := fun args c hv =>
    .lift fun _ => .act rfl fun _ _ hok => hv.trans (emitCall_valued hv.settled hv.isOpen hok)
  split
  · exact (h.args [] hs ho).bind fun args c hv => hend args c hv
  · exact Agrees.bind (.pure (Valued.refl hs ho)) fun args c hv => hend args c hv

theorem AgreesExpr.primary (hK : K.Follows A) (h : AgreesExpr p' p) :
    AgreesExpr (K.parsePrimary n p') (parsePrimary n p) := by
  intro ctx hs ho
  have hconst : ∀ (ty : Ty) (kind : InstKind), kind.isPhi = false →
      Agrees (fun _ c => Valued ctx c) (Parser.act (emitConst ty kind))
        (Parser.act (emitConst ty kind)) ctx := fun ty kind hk =>
    .act rfl fun _ _ hok => emitConst_valued hs ho hk hok
  refine .lift fun t => ?_
  cases t.kind with
  | int | trueKw | falseKw => exact .lift fun _ => hconst _ _ rfl
  | lParen => exact .lift fun _ => (h hs ho).bind fun e c hv => .lift fun _ => .pure hv
  | ident name =>
    refine .lift fun _ => .lift fun next => ?_
    split
    · exact h.call name t.span hs ho
    · obtain ⟨heq, hv⟩ := hK.readName hs ho name t.span
      exact .act heq hv
  | _ => exact .fail

theorem AgreesExpr.unary (h : AgreesExpr operand' operand) :
    AgreesExpr (parseUnary operand' n) (parseUnary operand n) := by
  induction n with
  | zero => exact fun ctx _ _ => .outOfFuel
  | succ n ih =>
    intro ctx hs ho
    refine .lift fun t => ?_
    split
    · refine .lift fun _ => (ih hs ho).bind fun v c hv => .lift fun _ => ?_
      refine Agrees.bind (.act rfl fun _ _ hok =>
        hv.trans (emitHere_valued hv.settled hv.isOpen rfl hok)) fun _ _ hv' => .pure hv'
    · exact h hs ho

theorem AgreesExpr.arithLoop (h : AgreesExpr operand' operand) (ops : TokenKind → Option BinOp)
    (v : ValueId × Ty) :
    AgreesExpr (Parser.arithLoop ops operand' n v) (Parser.arithLoop ops operand n v) := by
  induction n generalizing v with
  | zero => exact fun ctx _ _ => .outOfFuel
  | succ n ih =>
    intro ctx hs ho
    refine .lift fun t => ?_
    cases ops t.kind with
    | none => exact .pure (.refl hs ho)
    | some op =>
      refine .lift fun _ => .lift fun _ => (h hs ho).bind fun rhs c hv => .lift fun _ => ?_
      refine Agrees.bind (.act rfl fun _ _ hok =>
        hv.trans (emitHere_valued hv.settled hv.isOpen rfl hok)) fun u c' hv' => ?_
      exact (ih _ hv'.settled hv'.isOpen).mono fun _ _ => hv'.trans

theorem AgreesExpr.cmp (h : AgreesExpr operand' operand) :
    AgreesExpr (parseCmp operand') (parseCmp operand) := by
  intro ctx hs ho
  refine (h hs ho).bind fun lhs c hv => .lift fun t => ?_
  cases cmpOps t.kind with
  | none => exact .pure hv
  | some op =>
    refine .lift fun _ => .lift fun _ => (h hv.settled hv.isOpen).bind fun rhs c' hv' => .lift fun _ => ?_
    refine Agrees.bind (.act rfl fun _ _ hok => (hv.trans hv').trans
      (emitHere_valued hv'.settled hv'.isOpen rfl hok)) fun _ _ hv'' => .pure hv''

theorem AgreesExpr.not (h : AgreesExpr operand' operand) :
    AgreesExpr (parseNot operand' n) (parseNot operand n) := by
  induction n with
  | zero => exact fun ctx _ _ => .outOfFuel
  | succ n ih =>
    intro ctx hs ho
    refine .lift fun t => ?_
    split
    · refine .lift fun _ => (ih hs ho).bind fun v c hv => .lift fun _ => ?_
      refine Agrees.bind (.act rfl fun _ _ hok =>
        hv.trans (emitHere_valued hv.settled hv.isOpen rfl hok)) fun _ _ hv' => .pure hv'
    · exact h hs ho

/-- The short-circuit operators. -/
theorem AgreesExpr.shortCircuitLoop (hK : K.Follows A) (h : AgreesExpr operand' operand)
    (kind : TokenKind) (short : Bool) (v : ValueId × Ty) :
    AgreesExpr (K.shortCircuitLoop kind short operand' n v)
      (Parser.shortCircuitLoop kind short operand n v) := by
  induction n generalizing v with
  | zero => exact fun ctx _ _ => .outOfFuel
  | succ n ih =>
    intro ctx hs ho
    refine .lift fun t => ?_
    split
    · refine .lift fun _ => .lift fun _ => ?_
      obtain ⟨s, c₁, hok', hok, hjoining⟩ := hK.openShortCircuit hs ho short v.1
      refine .run hok' hok ?_
      refine (h hjoining.settled hjoining.isOpen).bind fun rhs c₂ hv₂ => .lift fun _ => ?_
      obtain ⟨w, c₃, hclose', hclose, hv₃⟩ := hK.closeShortCircuit hs (hjoining.trans hv₂) rhs.1
      refine .run hclose' hclose ?_
      exact (ih _ hv₃.settled hv₃.isOpen).mono fun _ _ => hv₃.trans
    · exact .pure (.refl hs ho)

/-- An operand, and a loop over its operators. -/
theorem AgreesExpr.loop (h : AgreesExpr operand' operand) {loop' loop : ValueId × Ty → ExprM}
    (hloop : ∀ v, AgreesExpr (loop' v) (loop v)) :
    AgreesExpr (do let v ← operand'; loop' v) (do let v ← operand; loop v) := by
  intro ctx hs ho
  refine (h hs ho).bind fun v c hv => ?_
  exact (hloop v hv.settled hv.isOpen).mono fun _ _ => hv.trans

theorem agreesExpr (hK : K.Follows A) (n : ℕ) : AgreesExpr (K.parseExpr n) (parseExpr n) := by
  induction n with
  | zero => exact fun ctx _ _ => .outOfFuel
  | succ n ih =>
    have hunary := (AgreesExpr.primary (n := n) hK ih).unary (n := n)
    have hmul := hunary.loop fun v => hunary.arithLoop (n := n) mulOps v
    have hadd := hmul.loop fun v => hmul.arithLoop (n := n) addOps v
    have hnot := hadd.cmp.not (n := n)
    have hand := hnot.loop fun v => hnot.shortCircuitLoop (n := n) hK .andKw false v
    exact hand.loop fun v => hand.shortCircuitLoop hK .orKw true v

end Expr

/-! ### Statements -/

/-- From a settled context with an open block, the parsers `p'` and `p` of statements do the same,
or else `A` holds and `p` leaves a broken builder behind. -/
def WatchesStmt (A : Prop) (p' p : BodyM Unit) : Prop :=
  ∀ ⦃ctx⦄, ctx.Settled → ctx.Open → Watches A (fun c => c.builder.Broken)
    (fun _ c => Grown ctx c ∧ c.scopes.tail = ctx.scopes.tail) p' p ctx

/-- The same for blocks, after which the scopes are those there were. -/
def WatchesBlock (A : Prop) (p' p : BodyM Unit) : Prop :=
  ∀ ⦃ctx⦄, ctx.Settled → ctx.Open → Watches A (fun c => c.builder.Broken)
    (fun _ c => Grown ctx c ∧ c.scopes = ctx.scopes) p' p ctx

section Stmt

variable {K : Backend} {A : Prop} {ctx c : FnContext} {block' block : BodyM Unit} {n : ℕ}

theorem WatchesBlock.stmt (h : WatchesBlock A block' block) : WatchesStmt A block' block :=
  fun _ hs ho => (h hs ho).mono fun _ _ hg => ⟨hg.1, by rw [hg.2]⟩

theorem watches_let (hK : K.Follows A) : WatchesStmt A (K.parseLet n) (parseLet n) := by
  intro ctx hs ho
  refine .lift fun _ => .lift fun name => .lift fun _ => ?_
  refine (agreesExpr hK n hs ho).bind fun value c hv => .lift fun _ => .act rfl fun _ c' hok => ?_
  have hn := writeLet_noted hv.settled hv.isOpen hok
  exact ⟨hv.toGrown.trans hn.toGrown, hn.outer.trans (by rw [hv.scopes])⟩

theorem watches_assign (hK : K.Follows A) : WatchesStmt A (K.parseAssign n) (parseAssign n) := by
  intro ctx hs ho
  refine .lift fun t => .lift fun name => .lift fun _ => ?_
  refine (agreesExpr hK n hs ho).bind fun value c hv => .lift fun _ => .act rfl fun _ c' hok => ?_
  have hv' := hv.trans (writeAssign_valued hv.settled hv.isOpen hok)
  exact ⟨hv'.toGrown, by rw [hv'.scopes]⟩

theorem watches_return (hK : K.Follows A) : WatchesStmt A (K.parseReturn n) (parseReturn n) := by
  intro ctx hs ho
  have hret : ∀ (value : Option ValueId) c, Valued ctx c → Watches A (fun c => c.builder.Broken)
      (fun _ c => Grown ctx c ∧ c.scopes.tail = ctx.scopes.tail)
      (Parser.act do K.terminate (← currentBlock) (.ret value))
      (Parser.act do terminate (← currentBlock) (.ret value)) c := by
    intro value c hv
    obtain ⟨c', hok', hok, hn⟩ := hK.ret hv.settled hv.isOpen value
    refine .act (hok'.trans hok.symm) fun _ d hd => ?_
    obtain ⟨-, rfl⟩ := Prod.mk.inj (Except.ok.inj (hok.symm.trans hd))
    exact ⟨hv.toGrown.trans hn.toGrown, hn.outer.trans (by rw [hv.scopes])⟩
  refine .lift fun t => .lift fun _ => ?_
  refine Agrees.bind (P := fun c c' => c = ctx ∧ c' = ctx) (.same fun toks a c toks' hok => ?_) ?_
  · obtain ⟨h, -⟩ := Prod.mk.inj (Except.ok.inj hok)
    obtain ⟨rfl, rfl⟩ := Prod.mk.inj h
    exact ⟨rfl, rfl⟩
  · rintro c c' ⟨rfl, rfl⟩
    cases c'.retTy with
    | none => exact .lift fun _ => hret none c' (.refl hs ho)
    | some expected =>
      exact (agreesExpr hK n hs ho).bind fun value c₁ hv => .lift fun _ => .lift fun _ =>
        hret (some value.1) c₁ hv

theorem watches_exprStmt (hK : K.Follows A) :
    WatchesStmt A (K.parseExprStmt n) (parseExprStmt n) := by
  intro ctx hs ho
  refine (agreesExpr hK n hs ho).bind fun value c hv => .lift fun _ => .pure ?_
  exact ⟨hv.toGrown, by rw [hv.scopes]⟩

/-- A `while`: the one construct over which the two may part. -/
theorem watches_while (hK : K.Follows A) (hblock : WatchesBlock A block' block) :
    WatchesStmt A (K.parseWhile block' n) (parseWhile block n) := by
  intro ctx hs ho
  obtain ⟨header, c₁, hok₁', hok₁, hhead⟩ := hK.openWhile hs ho
  refine .run hok₁' hok₁ (.lift fun _ => .lift fun t => ?_)
  refine (agreesExpr hK n hhead.settled hhead.isOpen).bind fun cond c₂ hv => .lift fun _ => ?_
  obtain ⟨exit, c₃, hok₃, hopen₃, hcircling, hagree, -, -⟩ := hK.openBody hs (hhead.trans hv) cond.1
  refine Watches.bind (.act_or (fun c => c.builder.Lost header) hok₃ hagree) ?_
  rintro e c ⟨rfl, rfl⟩
  refine Watches.bind (hblock hcircling.settled hopen₃) fun _ c₄ hg => ?_
  obtain ⟨c₅, hok₅', hok₅, hgrown, -, hscopes, -, hbroken⟩ :=
    hK.closeWhile hs (hcircling.trans hg.1 hg.2)
  refine .act (hok₅'.trans hok₅.symm) fun _ d hd => ?_
  obtain ⟨-, rfl⟩ := Prod.mk.inj (Except.ok.inj (hok₅.symm.trans hd))
  -- what the header has lost it does not get back
  refine ⟨⟨⟨hgrown, by rw [hscopes]⟩, fun hlost => hbroken (.inr ?_)⟩, fun hb => hbroken (.inl hb)⟩
  exact hlost.grown hcircling.settled.sound hcircling.header_ne hg.1

/-- An `if`: the scopes stay as they are. -/
theorem watches_if (hK : K.Follows A) (hblock : WatchesBlock A block' block) :
    WatchesBlock A (K.parseIf block' n) (parseIf block n) := by
  induction n with
  | zero => exact fun ctx _ _ => .outOfFuel
  | succ n ih =>
    intro ctx hs ho
    refine .lift fun t => .lift fun _ => ?_
    refine (agreesExpr hK n hs ho).bind fun cond c₁ hv => .lift fun _ => ?_
    obtain ⟨elseBlock, c₂, hok₂', hok₂, hbr⟩ := hK.openIf hv.settled hv.isOpen cond.1
    refine .run hok₂' hok₂ (Watches.bind (hblock hbr.settled hbr.isOpen) fun _ c₃ hg => ?_)
    refine .run currentBlock_run currentBlock_run <| .run (isTerminated_run _) (isTerminated_run _) <|
      .run (enterBlock_run _) (enterBlock_run _) ?_
    obtain ⟨hgrown₄, ho₄⟩ := hbr.enter hv.settled hg.1 hg.2
    have hwait := hbr.toWaiting.trans hg.1.toLater
    -- the first arm ends in a new block, which the other arm does not touch
    have htail : c₁.size ≤ c₃.currentBlock := by
      rcases hg.1.here with he | he
      · exact he ▸ hbr.fresh
      · exact hbr.toGrown.size.trans he
    have hend : ∀ c₅, Grown { c₃ with currentBlock := elseBlock } c₅ → c₅.scopes = c₃.scopes →
        Watches A (fun c => c.builder.Broken)
          (fun _ c => ((Grown ctx c ∧ c.scopes = ctx.scopes) ∧ (c₃.builder.Broken → c.builder.Broken)) ∧
            (c₅.builder.Broken → c.builder.Broken))
          (Parser.act (K.closeIf c₃.currentBlock (c₃.builder.isTerminated c₃.currentBlock)
            (c₅.builder.isTerminated c₅.currentBlock)))
          (Parser.act (closeIf c₃.currentBlock (c₃.builder.isTerminated c₃.currentBlock)
            (c₅.builder.isTerminated c₅.currentBlock))) c₅ := by
      intro c₅ hg₅ hscopes₅
      have hkept : c₅.builder.isTerminated c₃.currentBlock = c₃.builder.isTerminated c₃.currentBlock :=
        hg₅.ended _ hg.1.settled.here hwait.ne.symm
      obtain ⟨c₆, hok₆', hok₆, hgrown₆, hscopes₆, -, hbroken⟩ := hK.closeIf hv.settled
        (hgrown₄.trans hg₅) (hscopes₅.trans (hg.2.trans hbr.scopes))
        ⟨htail, Nat.lt_of_lt_of_le hg.1.settled.here hg₅.size, hg₅.reach _ hg.1.settled.reach⟩
        (hg₅.ne_here hg.1.settled.here hwait.ne.symm)
      rw [hkept] at hok₆' hok₆
      refine .act (hok₆'.trans hok₆.symm) fun _ d hd => ?_
      obtain ⟨-, rfl⟩ := Prod.mk.inj (Except.ok.inj (hok₆.symm.trans hd))
      refine ⟨⟨⟨hv.toGrown.trans hgrown₆, hscopes₆.trans hv.scopes⟩, fun hb => hbroken ?_⟩, hbroken⟩
      have hb₄ : ({ c₃ with currentBlock := elseBlock } : FnContext).builder.Broken := hb
      exact hb₄.grown hgrown₄.settled.sound ho₄ hg₅
    have helse : ∀ {p' p : BodyM Unit}, WatchesBlock A p' p → Watches A (fun c => c.builder.Broken)
        (fun _ c => (Grown ctx c ∧ c.scopes = ctx.scopes) ∧ (c₃.builder.Broken → c.builder.Broken))
        (do
          p'
          let elseTerminated ← Parser.act do isTerminated (← currentBlock)
          Parser.act (K.closeIf c₃.currentBlock (c₃.builder.isTerminated c₃.currentBlock)
            elseTerminated))
        (do
          p
          let elseTerminated ← Parser.act do isTerminated (← currentBlock)
          Parser.act (closeIf c₃.currentBlock (c₃.builder.isTerminated c₃.currentBlock)
            elseTerminated)) { c₃ with currentBlock := elseBlock } := fun hp =>
      Watches.bind (hp hgrown₄.settled ho₄) fun _ c₅ hg₅ =>
        .run ((act_run currentBlock_run).trans (isTerminated_run _))
          ((act_run currentBlock_run).trans (isTerminated_run _)) (hend c₅ hg₅.1 hg₅.2)
    refine .lift fun next => ?_
    split
    · refine .lift fun _ => .lift fun after => ?_
      split
      · exact helse ih
      · exact helse hblock
    · -- there is no other arm, and its end is open
      refine Agrees.bind (P := fun b c => b = c.builder.isTerminated c.currentBlock ∧
        c = { c₃ with currentBlock := elseBlock }) (.pure ⟨ho₄.symm, rfl⟩) ?_
      rintro b c ⟨rfl, rfl⟩
      exact (hend _ (.refl hgrown₄.settled) rfl).mono fun _ _ => And.left

theorem watches_statement (hK : K.Follows A) (hblock : WatchesBlock A block' block) :
    WatchesStmt A (K.parseStatement block' n) (parseStatement block n) := by
  intro ctx hs ho
  refine .lift fun t => ?_
  cases t.kind with
  | letKw => exact watches_let hK hs ho
  | ifKw => exact (watches_if hK hblock).stmt hs ho
  | whileKw => exact watches_while hK hblock hs ho
  | returnKw => exact watches_return hK hs ho
  | ident name =>
    refine .lift fun b => ?_
    split
    · exact watches_assign hK hs ho
    · exact watches_exprStmt hK hs ho
  | _ => exact watches_exprStmt hK hs ho

/-- The statements of a block: one is read only if the block is open. -/
theorem watches_blockLoop {statement' statement : BodyM Unit}
    (hstmt : WatchesStmt A statement' statement) (hs : ctx.Settled) :
    Watches A (fun c => c.builder.Broken) (fun _ c => (Grown ctx c ∧ c.scopes.tail = ctx.scopes.tail) ∧
      (ctx.builder.Broken → c.builder.Broken)) (blockLoop statement' n) (blockLoop statement n) ctx := by
  induction n generalizing ctx with
  | zero => exact .outOfFuel
  | succ n ih =>
    refine .lift fun t => ?_
    split
    · refine .run ((act_run currentBlock_run).trans (isTerminated_run _))
        ((act_run currentBlock_run).trans (isTerminated_run _)) ?_
      cases ho : ctx.builder.isTerminated ctx.currentBlock with
      | true => exact .fail
      | false =>
        refine Watches.bind (hstmt hs ho) fun _ c₁ hg₁ => ?_
        refine (ih hg₁.1.settled).mono fun _ c₂ hg₂ => ?_
        refine ⟨⟨⟨hg₁.1.trans hg₂.1.1, hg₂.1.2.trans hg₁.2⟩, fun hb => hg₂.2 ?_⟩, hg₂.2⟩
        exact SsaBuilder.Broken.grown hb hs.sound ho hg₁.1
    · exact .pure ⟨⟨.refl hs, rfl⟩, id⟩

theorem watches_block (hK : K.Follows A) (n : ℕ) :
    WatchesBlock A (K.parseBlockBody n) (parseBlockBody n) := by
  induction n with
  | zero => exact fun ctx _ _ => .outOfFuel
  | succ n ih =>
    intro ctx hs ho
    refine .lift fun _ => ?_
    have hpush : pushScope ctx = .ok ((), { ctx with scopes := (fun _ => none) :: ctx.scopes }) := rfl
    refine .run hpush hpush ?_
    refine Watches.bind (watches_blockLoop (watches_statement hK ih) hs.scope) fun _ c hg => .lift fun _ => ?_
    refine .act rfl fun _ d hd => ?_
    obtain ⟨-, rfl⟩ := Prod.mk.inj (Except.ok.inj hd)
    have hscopes : c.scopes.tail = ctx.scopes := hg.1.2
    exact ⟨⟨hg.1.1.unscope hs hscopes, hscopes⟩, id⟩

end Stmt

end Parser
end Chakobsa
