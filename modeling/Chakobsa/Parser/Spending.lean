import Chakobsa.Parser.Extents
import Chakobsa.Parser.Numbers

/-!
# The parser with numbers of 32 bits

Every token that the parser takes pays for the values it asks the builder for, two at most, and a
keyword that branches for three blocks (`Affords`). So the tokens bound what the parser asks for,
whatever they are and wherever it stops, and over `u32`s it does what it does over natural numbers, or
stops where the values run out: `Pays`, for one parsing function after the other.
-/

namespace Chakobsa
namespace Parser

open Ir Lexer

/-- The keywords that make blocks. -/
def branching : TokenKind → Bool
  | .ifKw | .whileKw | .andKw | .orKw => true
  | _ => false

/-- The keywords that make blocks, among some tokens. -/
def branchings (toks : List Token) : ℕ := toks.countP fun t => branching t.kind

/-- The tokens that are left, and `v` values and `c` blocks beside them, are paid for. -/
structure Affords (V : Finset String) (N K v c : ℕ) (ctx : FnContext) (toks : List Token) : Prop where
  eof : HasEof toks
  names : ∀ t ∈ toks, ∀ x, t.kind = .ident x → x ∈ V
  budget : ctx.builder.Budget V N K (2 * toks.length + v) (3 * branchings toks + c)

/-- From `ctx`, `m'` does what `m` does and keeps to the budget, or the values run out. -/
abbrev Acts {α : Type} (A : Prop) (m' m : ActM α) (ctx : FnContext) (P : α → FnContext → Prop) : Prop :=
  Comp.Limited (.builder .valueOverflow) A (m' ctx) (m ctx) fun r => P r.1 r.2

/-- The same for what takes tokens. -/
abbrev Pays {α : Type} (A : Prop) (m' m : BodyM α) (ctx : FnContext) (toks : List Token)
    (P : α → FnContext → List Token → Prop) : Prop :=
  Comp.Limited (.builder .valueOverflow) A (m' ctx toks) (m ctx toks) fun r => P r.1.1 r.1.2 r.2

/-! ### Actions -/

section Actions

variable {α β : Type} {V : Finset String} {N K v c : ℕ} {A : Prop} {ctx : FnContext}

theorem Acts.bind {m' m : ActM α} {f' f : α → ActM β} {P : α → FnContext → Prop}
    {Q : β → FnContext → Prop} (hm : Acts A m' m ctx P)
    (hf : ∀ a ctx', P a ctx' → Acts A (f' a) (f a) ctx' Q) : Acts A (m' >>= f') (m >>= f) ctx Q :=
  Comp.Limited.bind hm fun r hr => hf r.1 r.2 hr

/-- An action that both have in common, and what comes then. -/
theorem Acts.run {m : ActM α} {f' f : α → ActM β} {Q : β → FnContext → Prop} {a : α} {ctx' : FnContext}
    (hm : m ctx = .ok (a, ctx')) (hf : Acts A (f' a) (f a) ctx' Q) :
    Acts A (m >>= f') (m >>= f) ctx Q := by
  refine Comp.Limited.bind_same (x := m ctx) fun r hr => ?_
  obtain rfl := Except.ok.inj (hm.symm.trans hr)
  exact hf

/-- A call of the builder. -/
theorem Acts.build {f' f : SsaBuilder → BuildM ParseError (α × SsaBuilder)}
    (h : Comp.Limited .valueOverflow A (f' ctx.builder) (f ctx.builder) fun r => r.2.Budget V N K v c) :
    Acts A (build f') (build f) ctx fun _ ctx' => ctx'.builder.Budget V N K v c := by
  obtain ⟨heq, hP⟩ := h
  refine ⟨?_, fun r hr => ?_⟩
  · rcases heq with heq | ⟨heq, hA⟩
    · exact .inl (by rw [Parser.build, Parser.build, heq])
    · exact .inr ⟨by rw [Parser.build, heq]; rfl, hA⟩
  · obtain ⟨B, hB, hctx⟩ := build_ok.mp hr
    rw [hctx]
    exact hP _ hB

/-- What both have in common at the end. -/
theorem Acts.same {m : ActM α} {P : α → FnContext → Prop}
    (h : ∀ a ctx', m ctx = .ok (a, ctx') → P a ctx') : Acts A m m ctx P :=
  Comp.Limited.same fun r hr => h r.1 r.2 hr

theorem acts_terminate (h : ctx.builder.Budget V N K v c) (b : BlockId) (t : Terminator) :
    Acts A (@terminate (@HasBackend.standard .u32) b t) (terminate b t) ctx fun _ ctx' =>
      ctx'.builder.Budget V N K v c := by
  rw [terminate_eq, @terminate_eq .u32]
  refine .build (Comp.Limited.same fun r hr => ?_)
  obtain ⟨B, hB, hret⟩ := ExceptLemmas.bind_eq_ok.mp hr
  obtain rfl := Except.ok.inj hret
  exact h.terminate hB

theorem acts_writeVariable (h : ctx.builder.Budget V N K v c) (x : String) (b : BlockId) (u : ValueId) :
    Acts A (writeVariable x b u) (writeVariable x b u) ctx fun _ ctx' =>
      ctx'.builder.Budget V N K v c := .build (.ok (h.write x b u))

theorem acts_writeLet (h : ctx.builder.Budget V N K v c) (name : String) (value : ValueId × Ty) :
    Acts A (writeLet name value) (writeLet name value) ctx fun _ ctx' =>
      ctx'.builder.Budget V N K v c := by
  refine Acts.bind (P := fun _ ctx' => ctx'.builder = ctx.builder) (.same fun _ ctx' hok => ?_)
    fun _ ctx' hctx => .run currentBlock_run (acts_writeVariable (hctx ▸ h) _ _ _)
  unfold declare at hok
  split at hok
  · cases hok
  · obtain ⟨-, rfl⟩ := Prod.mk.inj (Except.ok.inj hok)
    rfl

theorem acts_writeAssign (h : ctx.builder.Budget V N K v c) (name : String) (value : ValueId × Ty)
    (span : Span) :
    Acts A (writeAssign name value span) (writeAssign name value span) ctx fun _ ctx' =>
      ctx'.builder.Budget V N K v c := by
  refine .run (rfl : (get : ActM FnContext) ctx = .ok (ctx, ctx)) ?_
  cases lookupVar ctx.scopes name with
  | none => exact .error
  | some expected =>
    dsimp only
    split
    · exact .error
    · exact acts_writeVariable h _ _ _

variable (hK : SsaBuilder.Bounds V N K A)
include hK

theorem acts_newBlock (h : ctx.builder.Budget V N K v (c + 1)) :
    Acts A (@newBlock .u32) newBlock ctx fun _ ctx' => ctx'.builder.Budget V N K v c := by
  obtain ⟨heq, hbudget⟩ := h.newBlock hK
  refine .build ?_
  rw [heq]
  exact .ok hbudget

theorem acts_emit (h : ctx.builder.Budget V N K (v + 1) c) (b : BlockId) (ty : Ty) (kind : InstKind) :
    Acts A (@emit .u32 b ty kind) (emit b ty kind) ctx fun _ ctx' => ctx'.builder.Budget V N K v c :=
  .build (h.emit hK b ty kind)

theorem acts_sealBlock (h : ctx.builder.Budget V N K v c) (b : BlockId) :
    Acts A (@sealBlock (@HasBackend.standard .u32) b) (sealBlock b) ctx fun _ ctx' =>
      ctx'.builder.Budget V N K v c := by
  rw [sealBlock_eq, @sealBlock_eq .u32]
  exact .build ((h.sealBlock hK b).bind fun B hB => .ok hB)

theorem acts_readVariable {x : String} (h : ctx.builder.Budget V N K v c) (hx : x ∈ V) (b : BlockId)
    (ty : Ty) :
    Acts A (@readVariable (@HasBackend.standard .u32) x b ty) (readVariable x b ty) ctx fun _ ctx' =>
      ctx'.builder.Budget V N K v c := by
  rw [readVariable_eq, @readVariable_eq .u32]
  exact .build (h.read hK hx b ty)

theorem acts_emitHere (h : ctx.builder.Budget V N K (v + 1) c) (ty : Ty) (kind : InstKind) :
    Acts A (@emitHere .u32 ty kind) (emitHere ty kind) ctx fun _ ctx' =>
      ctx'.builder.Budget V N K v c :=
  .run currentBlock_run (acts_emit hK h _ ty kind)

theorem acts_emitConst (h : ctx.builder.Budget V N K (v + 1) c) (ty : Ty) (kind : InstKind) :
    Acts A (@emitConst .u32 ty kind) (emitConst ty kind) ctx fun _ ctx' =>
      ctx'.builder.Budget V N K v c :=
  (acts_emitHere hK h ty kind).bind fun _ _ h₁ => .ok h₁

theorem acts_emitCall (h : ctx.builder.Budget V N K (v + 1) c) (name : String)
    (args : List (ValueId × Ty)) (span : Span) :
    Acts A (@emitCall .u32 name args span) (emitCall name args span) ctx fun _ ctx' =>
      ctx'.builder.Budget V N K v c := by
  refine .run (rfl : (get : ActM FnContext) ctx = .ok (ctx, ctx)) ?_
  refine Acts.bind (P := fun _ ctx' => ctx' = ctx) (.same fun a ctx' hok => ?_) ?_
  · exact (act_lift.mp hok).2
  · rintro retTy _ rfl
    exact (acts_emitHere hK h _ _).bind fun _ _ h₁ => .ok h₁

theorem acts_readName {name : String} (h : ctx.builder.Budget V N K v c) (hx : name ∈ V) (span : Span) :
    Acts A (@readName (@HasBackend.standard .u32) name span) (readName name span) ctx fun _ ctx' =>
      ctx'.builder.Budget V N K v c := by
  refine .run (rfl : (get : ActM FnContext) ctx = .ok (ctx, ctx)) ?_
  cases lookupVar ctx.scopes name with
  | none => exact .error
  | some ty => exact (acts_readVariable hK h hx _ ty).bind fun _ _ h₁ => .ok h₁

/-- A branch to two new blocks, and their seals. -/
theorem acts_fork (h : ctx.builder.Budget V N K v c) (b : BlockId) (t : Terminator) (s₁ s₂ : BlockId)
    {m' m : ActM α} {P : α → FnContext → Prop}
    (hm : ∀ ctx', ctx'.builder.Budget V N K v c → Acts A m' m ctx' P) :
    Acts A (do
        @terminate (@HasBackend.standard .u32) b t
        @sealBlock (@HasBackend.standard .u32) s₁
        @sealBlock (@HasBackend.standard .u32) s₂
        m') (do
        terminate b t
        sealBlock s₁
        sealBlock s₂
        m) ctx P :=
  (acts_terminate h b t).bind fun _ _ h₁ => (acts_sealBlock hK h₁ s₁).bind fun _ _ h₂ =>
    (acts_sealBlock hK h₂ s₂).bind fun _ _ h₃ => hm _ h₃

theorem acts_openShortCircuit (h : ctx.builder.Budget V N K (v + 1) (c + 3)) (short : Bool) (lhs : ValueId) :
    Acts A (@openShortCircuit .u32 (@HasBackend.standard .u32) short lhs) (openShortCircuit short lhs) ctx
      fun _ ctx' => ctx'.builder.Budget V N K v c := by
  refine (acts_newBlock hK h).bind fun s₁ _ h₁ => (acts_newBlock hK h₁).bind fun s₂ _ h₂ =>
    (acts_newBlock hK h₂).bind fun join _ h₃ => .run currentBlock_run ?_
  refine acts_fork hK h₃ _ _ _ _ fun _ h₄ => ?_
  refine (acts_emit hK h₄ _ _ _).bind fun val _ h₅ => ?_
  exact (acts_terminate h₅ _ _).bind fun _ _ h₆ => .run (enterBlock_run _) (.ok h₆)

theorem acts_closeShortCircuit (h : ctx.builder.Budget V N K (v + 1) c) (s : ShortCircuit) (rval : ValueId) :
    Acts A (@closeShortCircuit .u32 (@HasBackend.standard .u32) s rval) (closeShortCircuit s rval) ctx
      fun _ ctx' => ctx'.builder.Budget V N K v c := by
  refine .run currentBlock_run ((acts_terminate h _ _).bind fun _ _ h₁ => ?_)
  refine (acts_sealBlock hK h₁ _).bind fun _ _ h₂ => (acts_emit hK h₂ _ _ _).bind fun phi _ h₃ => ?_
  exact .run (enterBlock_run _) (.ok h₃)

theorem acts_openIf (h : ctx.builder.Budget V N K v (c + 2)) (cond : ValueId) :
    Acts A (@openIf .u32 (@HasBackend.standard .u32) cond) (openIf cond) ctx fun _ ctx' =>
      ctx'.builder.Budget V N K v c := by
  refine (acts_newBlock hK h).bind fun s₁ _ h₁ => (acts_newBlock hK h₁).bind fun s₂ _ h₂ =>
    .run currentBlock_run ?_
  exact acts_fork hK h₂ _ _ _ _ fun _ h₃ => .run (enterBlock_run _) (.ok h₃)

theorem acts_closeIf (h : ctx.builder.Budget V N K v (c + 1)) (thenTail : BlockId)
    (thenTerminated elseTerminated : Bool) :
    Acts A (@closeIf .u32 (@HasBackend.standard .u32) thenTail thenTerminated elseTerminated)
      (closeIf thenTail thenTerminated elseTerminated) ctx fun _ ctx' =>
        ctx'.builder.Budget V N K v c := by
  refine .run currentBlock_run ?_
  have hjoin : ∀ (b join : BlockId) {v c : ℕ} {d : FnContext}, d.builder.Budget V N K v c →
      Acts A (@terminate (@HasBackend.standard .u32) b (.jump join)) (terminate b (.jump join)) d
        fun _ ctx' => ctx'.builder.Budget V N K v c := fun b join _ _ _ h => acts_terminate h b _
  have hseal : ∀ (join : BlockId) {d : FnContext}, d.builder.Budget V N K v c →
      Acts A (do
        @sealBlock (@HasBackend.standard .u32) join
        enterBlock join) (do
        sealBlock join
        enterBlock join) d fun _ ctx' => ctx'.builder.Budget V N K v c := fun join _ h =>
    (acts_sealBlock hK h join).bind fun _ _ h₁ => .ok h₁
  cases thenTerminated <;> cases elseTerminated
  · exact (acts_newBlock hK h).bind fun join _ h₁ => (hjoin _ _ h₁).bind fun _ _ h₂ =>
      (hjoin _ _ h₂).bind fun _ _ h₃ => hseal join h₃
  · exact (acts_newBlock hK h).bind fun join _ h₁ => (hjoin _ _ h₁).bind fun _ _ h₂ => hseal join h₂
  · exact (acts_newBlock hK h).bind fun join _ h₁ => (hjoin _ _ h₁).bind fun _ _ h₂ => hseal join h₂
  · exact .ok (h.weaken (Nat.le_refl _) (Nat.le_succ _))

theorem acts_openWhile (h : ctx.builder.Budget V N K v (c + 1)) :
    Acts A (@openWhile .u32 (@HasBackend.standard .u32)) openWhile ctx fun _ ctx' =>
      ctx'.builder.Budget V N K v c :=
  (acts_newBlock hK h).bind fun _ _ h₁ => .run currentBlock_run <|
    (acts_terminate h₁ _ _).bind fun _ _ h₂ => .run (enterBlock_run _) (.ok h₂)

theorem acts_openBody (h : ctx.builder.Budget V N K v (c + 2)) (header : BlockId) (cond : ValueId) :
    Acts A (@openBody .u32 (@HasBackend.standard .u32) header cond) (openBody header cond) ctx
      fun _ ctx' => ctx'.builder.Budget V N K v c := by
  refine (acts_newBlock hK h).bind fun s₁ _ h₁ => (acts_newBlock hK h₁).bind fun s₂ _ h₂ => ?_
  exact acts_fork hK h₂ _ _ _ _ fun _ h₃ => .run (enterBlock_run _) (.ok h₃)

theorem acts_closeWhile (h : ctx.builder.Budget V N K v c) (header exit : BlockId) :
    Acts A (@closeWhile (@HasBackend.standard .u32) header exit) (closeWhile header exit) ctx
      fun _ ctx' => ctx'.builder.Budget V N K v c := by
  refine .run currentBlock_run (.run (isTerminated_run _) ?_)
  have hend : ∀ {d : FnContext}, d.builder.Budget V N K v c → Acts A (do
      @sealBlock (@HasBackend.standard .u32) header
      enterBlock exit) (do
      sealBlock header
      enterBlock exit) d fun _ ctx' => ctx'.builder.Budget V N K v c := fun h =>
    (acts_sealBlock hK h header).bind fun _ _ h₁ => .ok h₁
  cases ctx.builder.isTerminated ctx.currentBlock with
  | false => exact (acts_terminate h _ _).bind fun _ _ h₁ => hend h₁
  | true => exact hend h

end Actions

/-! ### Tokens -/

section Tokens

variable {α β : Type} {V : Finset String} {N K v c : ℕ} {A : Prop} {ctx : FnContext}
  {toks toks' : List Token} {t : Token} {f' f : α → BodyM β} {P : α → FnContext → List Token → Prop}
  {Q : β → FnContext → List Token → Prop}

theorem Affords.weaken {v' c' : ℕ} (h : Affords V N K v c ctx toks) (hv : v' ≤ v) (hc : c' ≤ c) :
    Affords V N K v' c' ctx toks :=
  ⟨h.eof, h.names, h.budget.weaken (Nat.add_le_add_left hv _) (Nat.add_le_add_left hc _)⟩

/-- A token pays for two values. -/
theorem Affords.take (h : Affords V N K v c ctx (t :: toks)) (ht : t.kind ≠ .eof) :
    Affords V N K (v + 2) c ctx toks := by
  refine ⟨(h.eof.tail ht).2, fun u hu => h.names u (List.mem_cons_of_mem _ hu), h.budget.weaken ?_ ?_⟩
  · rw [List.length_cons]
    omega
  · have hle : branchings toks ≤ branchings (t :: toks) :=
      (List.sublist_cons_self t toks).countP_le
    omega

/-- A branching one for three blocks as well. -/
theorem Affords.take_branching (h : Affords V N K v c ctx (t :: toks)) (ht : branching t.kind = true) :
    Affords V N K (v + 2) (c + 3) ctx toks := by
  have hne : t.kind ≠ .eof := by
    intro he
    rw [he] at ht
    cases ht
  refine ⟨(h.eof.tail hne).2, fun u hu => h.names u (List.mem_cons_of_mem _ hu), h.budget.weaken ?_ ?_⟩
  · rw [List.length_cons]
    omega
  · have hcount : branchings (t :: toks) = branchings toks + 1 :=
      List.countP_cons_of_pos (p := fun u : Token => branching u.kind) ht
    omega

theorem Pays.bind {m' m : BodyM α} (hm : Pays A m' m ctx toks P)
    (hf : ∀ a ctx' toks', P a ctx' toks' → Pays A (f' a) (f a) ctx' toks' Q) :
    Pays A (m' >>= f') (m >>= f) ctx toks Q :=
  Comp.Limited.bind hm fun r hr => hf r.1.1 r.1.2 r.2 hr

/-- A move of the cursor. -/
theorem Pays.lift {m : CursorM α}
    (hf : ∀ a toks', m toks = .ok (a, toks') → Pays A (f' a) (f a) ctx toks' Q) :
    Pays A (liftM m >>= f') (liftM m >>= f) ctx toks Q := by
  refine Comp.Limited.bind_same (x := (liftM m : BodyM α) ctx toks) fun ⟨⟨a, d⟩, toks'⟩ hr => ?_
  obtain ⟨hok, rfl⟩ := body_lift.mp hr
  exact hf a toks' hok

theorem Pays.peek {f' f : Token → BodyM β} (hf : ∀ t rest, toks = t :: rest → Pays A (f' t) (f t) ctx toks Q) :
    Pays A (liftM Parser.peek >>= f') (liftM Parser.peek >>= f) ctx toks Q := by
  refine .lift fun t toks' hok => ?_
  obtain ⟨rfl, rest, hrest⟩ := peek_ok.mp hok
  exact hf t rest hrest

/-- The token at the cursor is taken. -/
theorem Pays.advance {f' f : Token → BodyM β} (h : HasEof (t :: toks)) (ht : t.kind ≠ .eof)
    (hf : Pays A (f' t) (f t) ctx toks Q) :
    Pays A (liftM Parser.advance >>= f') (liftM Parser.advance >>= f) ctx (t :: toks) Q := by
  refine .lift fun u toks' hok => ?_
  rw [advance_cons (h.tail ht).1] at hok
  obtain ⟨rfl, rfl⟩ := Prod.mk.inj (Except.ok.inj hok)
  exact hf

theorem Pays.expect {kind : TokenKind} {f' f : Token → BodyM β} (h : HasEof toks) (hk : kind ≠ .eof)
    (hf : ∀ t toks', toks = t :: toks' → t.kind = kind → Pays A (f' t) (f t) ctx toks' Q) :
    Pays A (liftM (Parser.expect kind) >>= f') (liftM (Parser.expect kind) >>= f) ctx toks Q := by
  refine .lift fun t toks' hok => ?_
  obtain ⟨htoks, ht, -⟩ := expect_ok h hk hok
  exact hf t toks' htoks ht

/-- A token that stands for nothing but itself. -/
theorem Affords.expect {kind : TokenKind} {f' f : Token → BodyM β} (h : Affords V N K v c ctx toks)
    (hk : kind ≠ .eof)
    (hf : ∀ t toks', Affords V N K (v + 2) c ctx toks' → Pays A (f' t) (f t) ctx toks' Q) :
    Pays A (liftM (Parser.expect kind) >>= f') (liftM (Parser.expect kind) >>= f) ctx toks Q := by
  refine .expect h.eof hk fun t toks' htoks ht => ?_
  subst htoks
  exact hf t toks' (h.take (ht ▸ hk))

theorem Affords.expectIdent {f' f : String → BodyM β} (h : Affords V N K v c ctx toks)
    (hf : ∀ x toks', Affords V N K (v + 2) c ctx toks' → Pays A (f' x) (f x) ctx toks' Q) :
    Pays A (liftM Parser.expectIdent >>= f') (liftM Parser.expectIdent >>= f) ctx toks Q := by
  refine .lift fun x toks' hok => ?_
  obtain ⟨t, rfl, ht, -⟩ := expectIdent_ok h.eof hok
  exact hf x toks' (h.take (by simp [ht]))

theorem Pays.checkTy {expected actual : Ty} {span : Span} {f' f : Unit → BodyM β}
    (hf : Pays A (f' ()) (f ()) ctx toks Q) :
    Pays A (liftM (Parser.checkTy expected actual span) >>= f')
      (liftM (Parser.checkTy expected actual span) >>= f) ctx toks Q := by
  refine Comp.Limited.bind_same
    (x := (liftM (Parser.checkTy expected actual span) : BodyM Unit) ctx toks)
    fun ⟨⟨_, d⟩, toks'⟩ hr => ?_
  obtain ⟨-, rfl, rfl⟩ := body_checkTy.mp hr
  exact hf

/-- An action that keeps to the budget. -/
theorem Affords.act {w d : ℕ} {m' m : ActM α} (h : Affords V N K v c ctx toks)
    (hm : Acts A m' m ctx fun _ ctx' =>
      ctx'.builder.Budget V N K (2 * toks.length + w) (3 * branchings toks + d))
    (hf : ∀ a ctx', Affords V N K w d ctx' toks → Pays A (f' a) (f a) ctx' toks Q) :
    Pays A (Parser.act m' >>= f') (Parser.act m >>= f) ctx toks Q := by
  refine Pays.bind (P := fun _ ctx' toks' => toks' = toks ∧ Affords V N K w d ctx' toks')
    (Comp.Limited.bind hm fun r hr => .ok ⟨rfl, h.eof, h.names, hr⟩) ?_
  rintro a ctx' toks' ⟨rfl, h'⟩
  exact hf a ctx' h'

/-- An action that both have in common and that leaves the builder alone. -/
theorem Affords.run {m : ActM α} {a : α} {d : FnContext} (h : Affords V N K v c ctx toks)
    (hm : m ctx = .ok (a, d)) (hd : d.builder = ctx.builder)
    (hf : Affords V N K v c d toks → Pays A (f' a) (f a) d toks Q) :
    Pays A (Parser.act m >>= f') (Parser.act m >>= f) ctx toks Q := by
  refine Pays.bind (P := fun b d' toks' => b = a ∧ d' = d ∧ toks' = toks) ?_ ?_
  · refine Comp.Limited.same fun ⟨⟨b, d'⟩, toks'⟩ hr => ?_
    obtain ⟨hok, htoks⟩ := act_ok.mp hr
    obtain ⟨hb, hd'⟩ := Prod.mk.inj (Except.ok.inj (hok.symm.trans hm))
    exact ⟨hb, hd', htoks⟩
  · rintro _ _ _ ⟨rfl, rfl, rfl⟩
    exact hf ⟨h.eof, h.names, hd ▸ h.budget⟩

/-- The last action of a parsing function. -/
theorem Affords.last {v' c' : ℕ} {m' m : ActM α} (h : Affords V N K v c ctx toks)
    (hm : Acts A m' m ctx fun _ ctx' =>
      ctx'.builder.Budget V N K (2 * toks.length + v') (3 * branchings toks + c')) :
    Pays A (Parser.act m') (Parser.act m) ctx toks fun _ ctx' toks' => Affords V N K v' c' ctx' toks' :=
  Comp.Limited.bind hm fun _ hr => .ok ⟨h.eof, h.names, hr⟩

end Tokens

/-! ### Expressions -/

/-- Both parsers do the same, and what they take pays for what they ask for; or values run out. -/
def PaysFor {α : Type} (V : Finset String) (N K : ℕ) (A : Prop) (p' p : BodyM α) : Prop :=
  ∀ ⦃v c ctx toks⦄, Affords V N K v c ctx toks →
    Pays A p' p ctx toks fun _ ctx' toks' => Affords V N K v c ctx' toks'

section Expr

variable {V : Finset String} {N K n : ℕ} {A : Prop} {p' p : ExprM}
  (hK : SsaBuilder.Bounds V N K A)

theorem PaysFor.args (h : PaysFor V N K A p' p) (args : List (ValueId × Ty)) :
    PaysFor V N K A (parseArgs p' n args) (parseArgs p n args) := by
  induction n generalizing args with
  | zero => exact fun _ _ _ _ _ => .error
  | succ n ih =>
    intro v c ctx toks ha
    refine (h ha).bind fun arg c₁ toks₁ h₁ => .peek ?_
    rintro t rest rfl
    split
    · next ht =>
      exact .advance h₁.eof (by simp [ht]) (ih _ ((h₁.take (by simp [ht])).weaken (by omega) (Nat.le_refl _)))
    · exact .ok h₁

include hK

theorem PaysFor.call (h : PaysFor V N K A p' p) (name : String) (span : Span) :
    PaysFor V N K A (@parseCall .u32 n p' name span) (parseCall n p name span) := by
  intro v c ctx toks ha
  refine ha.expect (by simp) fun _ toks₁ h₁ => .peek ?_
  rintro t rest rfl
  have hend : ∀ (args : List (ValueId × Ty)) {d : FnContext} {toks : List Token},
      Affords V N K (v + 2) c d toks → Pays A (do
        let _ ← (liftM (expect .rParen) : BodyM Token)
        Parser.act (@emitCall .u32 name args span)) (do
        let _ ← (liftM (expect .rParen) : BodyM Token)
        Parser.act (emitCall name args span)) d toks fun _ ctx' toks' => Affords V N K v c ctx' toks' :=
    fun args d toks h => h.expect (by simp) fun _ _ h' => h'.last <|
      acts_emitCall hK (h'.budget.weaken (by omega) (Nat.le_refl _)) name args span
  split
  · exact (h.args [] h₁).bind fun args _ _ h₂ => hend args h₂
  · exact hend [] h₁

theorem PaysFor.primary (h : PaysFor V N K A p' p) :
    PaysFor V N K A (@parsePrimary .u32 (@HasBackend.standard .u32) n p') (parsePrimary n p) := by
  intro v c ctx toks ha
  refine .peek ?_
  rintro t rest rfl
  have hconst : ∀ (ty : Ty) (kind : InstKind), t.kind ≠ .eof → Pays A (do
      let _ ← (liftM advance : BodyM Token)
      Parser.act (@emitConst .u32 ty kind)) (do
      let _ ← (liftM advance : BodyM Token)
      Parser.act (emitConst ty kind)) ctx (t :: rest) fun _ ctx' toks' => Affords V N K v c ctx' toks' :=
    fun ty kind hk => .advance ha.eof hk <| (ha.take hk).last <|
      acts_emitConst hK ((ha.take hk).budget.weaken (by omega) (Nat.le_refl _)) ty kind
  cases hkind : t.kind with
  | int | trueKw | falseKw => exact hconst _ _ (by simp [hkind])
  | lParen =>
    have hk : t.kind ≠ .eof := by simp [hkind]
    refine .advance ha.eof hk ((h (ha.take hk)).bind fun e _ _ h₁ => ?_)
    exact h₁.expect (by simp) fun _ _ h₂ => .ok (h₂.weaken (by omega) (Nat.le_refl _))
  | ident name =>
    have hk : t.kind ≠ .eof := by simp [hkind]
    have h₁ := (ha.take hk).weaken (Nat.le_add_right v 2) (Nat.le_refl c)
    refine .advance ha.eof hk (.peek fun next _ _ => ?_)
    -- a call if the name is followed by a parenthesis, a variable otherwise
    split
    · exact h.call hK name t.span h₁
    · have hx : name ∈ V := ha.names t List.mem_cons_self name hkind
      exact h₁.last (acts_readName hK h₁.budget hx t.span)
  | _ => exact .error

/-- A value for an operator that has been taken. -/
theorem Affords.emitHere {β : Type} {v c : ℕ} {ctx : FnContext} {toks : List Token} {f' f : ValueId → BodyM β}
    {Q : β → FnContext → List Token → Prop} (h : Affords V N K (v + 2) c ctx toks) (ty : Ty) (kind : InstKind)
    (hf : ∀ u ctx', Affords V N K v c ctx' toks → Pays A (f' u) (f u) ctx' toks Q) :
    Pays A (Parser.act (@emitHere .u32 ty kind) >>= f') (Parser.act (emitHere ty kind) >>= f) ctx toks Q :=
  h.act (acts_emitHere hK (h.budget.weaken (by omega) (Nat.le_refl _)) ty kind) hf

theorem PaysFor.unary (h : PaysFor V N K A p' p) :
    PaysFor V N K A (@parseUnary .u32 p' n) (parseUnary p n) := by
  induction n with
  | zero => exact fun _ _ _ _ _ => .error
  | succ n ih =>
    intro v c ctx toks ha
    refine .peek ?_
    rintro t rest rfl
    split
    · next ht =>
      have hk : t.kind ≠ .eof := by simp [ht]
      refine .advance ha.eof hk ((ih (ha.take hk)).bind fun u _ _ h₁ => .checkTy ?_)
      exact h₁.emitHere hK _ _ fun _ _ h₂ => .ok h₂
    · exact h ha

theorem PaysFor.not (h : PaysFor V N K A p' p) :
    PaysFor V N K A (@parseNot .u32 p' n) (parseNot p n) := by
  induction n with
  | zero => exact fun _ _ _ _ _ => .error
  | succ n ih =>
    intro v c ctx toks ha
    refine .peek ?_
    rintro t rest rfl
    split
    · next ht =>
      have hk : t.kind ≠ .eof := by simp [ht]
      refine .advance ha.eof hk ((ih (ha.take hk)).bind fun u _ _ h₁ => .checkTy ?_)
      exact h₁.emitHere hK _ _ fun _ _ h₂ => .ok h₂
    · exact h ha

theorem PaysFor.arithLoop (h : PaysFor V N K A p' p) {ops : TokenKind → Option BinOp}
    (hops : ops .eof = none) (lhs : ValueId × Ty) :
    PaysFor V N K A (@Parser.arithLoop .u32 ops p' n lhs) (Parser.arithLoop ops p n lhs) := by
  induction n generalizing lhs with
  | zero => exact fun _ _ _ _ _ => .error
  | succ n ih =>
    intro v c ctx toks ha
    refine .peek ?_
    rintro t rest rfl
    cases hop : ops t.kind with
    | none => exact .ok ha
    | some op =>
      have hk : t.kind ≠ .eof := by
        intro he
        rw [he, hops] at hop
        cases hop
      refine .advance ha.eof hk (.checkTy ((h (ha.take hk)).bind fun rhs _ _ h₁ => .checkTy ?_))
      exact h₁.emitHere hK _ _ fun _ _ h₂ => ih _ h₂

theorem PaysFor.cmp (h : PaysFor V N K A p' p) : PaysFor V N K A (@parseCmp .u32 p') (parseCmp p) := by
  intro v c ctx toks ha
  refine (h ha).bind fun lhs d toks₁ h₁ => .peek ?_
  rintro t rest rfl
  cases hop : cmpOps t.kind with
  | none => exact .ok h₁
  | some op =>
    have hk : t.kind ≠ .eof := by
      intro he
      rw [he] at hop
      cases hop
    refine .advance h₁.eof hk (.checkTy ((h (h₁.take hk)).bind fun rhs _ _ h₂ => .checkTy ?_))
    exact h₂.emitHere hK _ _ fun _ _ h₃ => .ok h₃

/-- A short-circuit operator pays for its three blocks, its constant and its phi. -/
theorem PaysFor.shortCircuitLoop (h : PaysFor V N K A p' p) {kind : TokenKind} (hkind : branching kind = true)
    (short : Bool) (lhs : ValueId × Ty) :
    PaysFor V N K A (@Parser.shortCircuitLoop .u32 (@HasBackend.standard .u32) kind short p' n lhs)
      (Parser.shortCircuitLoop kind short p n lhs) := by
  induction n generalizing lhs with
  | zero => exact fun _ _ _ _ _ => .error
  | succ n ih =>
    intro v c ctx toks ha
    refine .peek ?_
    rintro t rest rfl
    split
    · next ht =>
      have hb : branching t.kind = true := ht ▸ hkind
      have hk : t.kind ≠ .eof := by
        intro he
        rw [he] at hb
        cases hb
      have h₁ := ha.take_branching hb
      refine .advance ha.eof hk (.checkTy (h₁.act (w := v + 1) (d := c)
        (acts_openShortCircuit hK h₁.budget short lhs.1) fun s _ h₂ => ?_))
      refine (h h₂).bind fun rhs _ _ h₃ => .checkTy ?_
      exact h₃.act (w := v) (d := c) (acts_closeShortCircuit hK h₃.budget s rhs.1) fun phi _ h₄ => ih _ h₄
    · exact .ok ha

omit hK in
/-- An operand, and a loop over its operators. -/
theorem PaysFor.loop (h : PaysFor V N K A p' p) {loop' loop : ValueId × Ty → ExprM}
    (hloop : ∀ u, PaysFor V N K A (loop' u) (loop u)) :
    PaysFor V N K A (do let u ← p'; loop' u) (do let u ← p; loop u) :=
  fun _ _ _ _ ha => (h ha).bind fun u _ _ h₁ => hloop u h₁

theorem paysFor_expr (n : ℕ) :
    PaysFor V N K A (@parseExpr .u32 (@HasBackend.standard .u32) n) (parseExpr n) := by
  induction n with
  | zero => exact fun _ _ _ _ _ => .error
  | succ n ih =>
    have hunary := (ih.primary (n := n) hK).unary (n := n) hK
    have hmul := hunary.loop fun u => hunary.arithLoop (n := n) hK (show mulOps .eof = none from rfl) u
    have hadd := hmul.loop fun u => hmul.arithLoop (n := n) hK (show addOps .eof = none from rfl) u
    have hnot := (hadd.cmp hK).not (n := n) hK
    have hand := hnot.loop fun u => hnot.shortCircuitLoop (n := n) hK (show branching .andKw = true from rfl) false u
    exact hand.loop fun u => hand.shortCircuitLoop hK (show branching .orKw = true from rfl) true u

end Expr

/-! ### Statements -/

section Stmt

variable {V : Finset String} {N K n : ℕ} {A : Prop} {block' block : BodyM Unit}
  (hK : SsaBuilder.Bounds V N K A)
include hK

theorem paysFor_let :
    PaysFor V N K A (@parseLet .u32 (@HasBackend.standard .u32) n) (parseLet n) := by
  intro v c ctx toks ha
  refine ha.expect (by simp) fun _ _ h₁ => h₁.expectIdent fun name _ h₂ => h₂.expect (by simp) fun _ _ h₃ => ?_
  refine (paysFor_expr hK n h₃).bind fun value _ _ h₄ => h₄.expect (by simp) fun _ _ h₅ => ?_
  exact h₅.last (acts_writeLet (h₅.budget.weaken (by omega) (Nat.le_refl _)) name value)

theorem paysFor_assign :
    PaysFor V N K A (@parseAssign .u32 (@HasBackend.standard .u32) n) (parseAssign n) := by
  intro v c ctx toks ha
  refine .peek fun t _ _ => ha.expectIdent fun name _ h₁ => h₁.expect (by simp) fun _ _ h₂ => ?_
  refine (paysFor_expr hK n h₂).bind fun value _ _ h₃ => h₃.expect (by simp) fun _ _ h₄ => ?_
  exact h₄.last (acts_writeAssign (h₄.budget.weaken (by omega) (Nat.le_refl _)) name value t.span)

theorem paysFor_exprStmt :
    PaysFor V N K A (@parseExprStmt .u32 (@HasBackend.standard .u32) n) (parseExprStmt n) := by
  intro v c ctx toks ha
  refine (paysFor_expr hK n ha).bind fun value _ _ h₁ => h₁.expect (by simp) fun _ _ h₂ => ?_
  exact .ok (h₂.weaken (by omega) (Nat.le_refl _))

theorem paysFor_return :
    PaysFor V N K A (@parseReturn .u32 (@HasBackend.standard .u32) n) (parseReturn n) := by
  intro v c ctx toks ha
  have hret : ∀ (value : Option ValueId) {d : FnContext} {toks : List Token},
      Affords V N K (v + 2) c d toks →
      Pays A (Parser.act do @terminate (@HasBackend.standard .u32) (← currentBlock) (.ret value))
        (Parser.act do terminate (← currentBlock) (.ret value)) d toks
        fun _ ctx' toks' => Affords V N K v c ctx' toks' := fun value d toks h =>
    h.last (.run currentBlock_run (acts_terminate (h.budget.weaken (by omega) (Nat.le_refl _)) _ _))
  refine .peek fun t _ _ => ha.expect (by simp) fun _ toks₁ h₁ => ?_
  refine Pays.bind (P := fun a d toks' => a = ctx ∧ d = ctx ∧ toks' = toks₁) (.ok ⟨rfl, rfl, rfl⟩) ?_
  rintro _ _ _ ⟨rfl, rfl, rfl⟩
  split
  · refine (paysFor_expr hK n h₁).bind fun value _ _ h₂ => .checkTy (h₂.expect (by simp) fun _ _ h₃ => ?_)
    exact hret (some value.1) (h₃.weaken (by omega) (Nat.le_refl _))
  · exact h₁.expect (by simp) fun _ _ h₂ => hret none (h₂.weaken (by omega) (Nat.le_refl _))

/-- An `if` pays for its arms and its join. -/
theorem PaysFor.ifStmt (hblock : PaysFor V N K A block' block) :
    PaysFor V N K A (@parseIf .u32 (@HasBackend.standard .u32) block' n) (parseIf block n) := by
  induction n with
  | zero => exact fun _ _ _ _ _ => .error
  | succ n ih =>
    intro v c ctx toks ha
    refine .peek fun t _ _ => .expect ha.eof (by simp) fun u toks₁ htoks hu => ?_
    subst htoks
    have h₁ := ha.take_branching (show branching u.kind = true by rw [hu]; rfl)
    refine (paysFor_expr hK n h₁).bind fun cond _ _ h₂ => .checkTy ?_
    refine h₂.act (w := v) (d := c + 1)
      ((acts_openIf hK h₂.budget cond.1).mono fun _ h => h.weaken (by omega) (Nat.le_refl _)) fun elseBlock _ h₃ => ?_
    refine (hblock h₃).bind fun _ d _ h₄ => h₄.run currentBlock_run rfl fun h₅ =>
      h₅.run (isTerminated_run _) rfl fun h₆ => h₆.run (enterBlock_run _) rfl fun h₇ => ?_
    -- the block of the join has been paid for with the arms
    have hend : ∀ (elseTerminated : Bool) {e : FnContext} {toks : List Token},
        Affords V N K v (c + 1) e toks → Pays A
          (Parser.act (@closeIf .u32 (@HasBackend.standard .u32) d.currentBlock
            (d.builder.isTerminated d.currentBlock) elseTerminated))
          (Parser.act (closeIf d.currentBlock (d.builder.isTerminated d.currentBlock) elseTerminated)) e toks
          fun _ ctx' toks' => Affords V N K v c ctx' toks' := fun elseTerminated e toks h =>
      h.last (acts_closeIf hK h.budget _ _ _)
    have helse : ∀ {p' p : BodyM Unit} {e : FnContext} {toks : List Token}, PaysFor V N K A p' p →
        Affords V N K v (c + 1) e toks → Pays A (do
          p'
          let elseTerminated ← Parser.act do isTerminated (← currentBlock)
          Parser.act (@closeIf .u32 (@HasBackend.standard .u32) d.currentBlock
            (d.builder.isTerminated d.currentBlock) elseTerminated)) (do
          p
          let elseTerminated ← Parser.act do isTerminated (← currentBlock)
          Parser.act (closeIf d.currentBlock (d.builder.isTerminated d.currentBlock) elseTerminated)) e toks
          fun _ ctx' toks' => Affords V N K v c ctx' toks' := fun hp h =>
      (hp h).bind fun _ _ _ h' => h'.run ((act_run currentBlock_run).trans (isTerminated_run _)) rfl fun h'' =>
        hend _ h''
    refine .peek ?_
    rintro next rest rfl
    split
    · next hnext =>
      have hk : next.kind ≠ .eof := by simp [hnext]
      refine .advance h₇.eof hk (.peek fun after _ _ => ?_)
      have h₈ := (h₇.take hk).weaken (Nat.le_add_right v 2) (Nat.le_refl _)
      split
      · exact helse ih h₈
      · exact helse hblock h₈
    · exact hend false h₇

/-- A `while` pays for its three blocks, the first of which is made before the keyword is taken. -/
theorem PaysFor.whileStmt (hblock : PaysFor V N K A block' block) {v c : ℕ} {ctx : FnContext} {t : Token}
    {rest : List Token} (ha : Affords V N K v c ctx (t :: rest)) (ht : t.kind = .whileKw) :
    Pays A (@parseWhile .u32 (@HasBackend.standard .u32) block' n) (parseWhile block n) ctx (t :: rest)
      fun _ ctx' toks' => Affords V N K v c ctx' toks' := by
  have h₀ := ha.take_branching (show branching t.kind = true by rw [ht]; rfl)
  have hbudget : ctx.builder.Budget V N K (2 * rest.length + (v + 2)) (3 * branchings rest + (c + 2) + 1) :=
    h₀.budget
  refine Pays.bind (P := fun _ ctx' toks' => toks' = t :: rest ∧ Affords V N K (v + 2) (c + 2) ctx' rest)
    (Comp.Limited.bind (acts_openWhile hK hbudget) fun r hr => .ok ⟨rfl, h₀.eof, h₀.names, hr⟩) ?_
  rintro header d _ ⟨rfl, h₁⟩
  refine .expect ha.eof (by simp) fun u toks₁ htoks _ => ?_
  obtain ⟨-, rfl⟩ := List.cons.inj htoks
  refine .peek fun t' _ _ => (paysFor_expr hK n h₁).bind fun cond _ _ h₂ => .checkTy ?_
  refine h₂.act (w := v) (d := c)
    ((acts_openBody hK h₂.budget header cond.1).mono fun _ h => h.weaken (by omega) (Nat.le_refl _)) fun exit _ h₃ => ?_
  exact (hblock h₃).bind fun _ _ _ h₄ => h₄.last (acts_closeWhile hK h₄.budget header exit)

theorem PaysFor.statement (hblock : PaysFor V N K A block' block) :
    PaysFor V N K A (@parseStatement .u32 (@HasBackend.standard .u32) block' n) (parseStatement block n) := by
  intro v c ctx toks ha
  refine .peek ?_
  rintro t rest rfl
  cases hk : t.kind with
  | letKw => exact paysFor_let hK ha
  | ifKw => exact hblock.ifStmt hK ha
  | whileKw => exact hblock.whileStmt hK ha hk
  | returnKw => exact paysFor_return hK ha
  | ident name =>
    refine .lift fun b toks' hok => ?_
    obtain rfl : toks' = t :: rest := by
      unfold peekIsAssignment at hok
      simp only [hk] at hok
      exact (Prod.mk.inj (Except.ok.inj hok)).2.symm
    split
    · exact paysFor_assign hK ha
    · exact paysFor_exprStmt hK ha
  | _ => exact paysFor_exprStmt hK ha

omit hK in
theorem PaysFor.blockLoop {statement' statement : BodyM Unit} (h : PaysFor V N K A statement' statement) :
    PaysFor V N K A (blockLoop statement' n) (blockLoop statement n) := by
  induction n with
  | zero => exact fun _ _ _ _ _ => .error
  | succ n ih =>
    intro v c ctx toks ha
    refine .peek fun t _ _ => ?_
    split
    · refine ha.run ((act_run currentBlock_run).trans (isTerminated_run _)) rfl fun h₁ => ?_
      cases ctx.builder.isTerminated ctx.currentBlock with
      | true => exact .error
      | false => exact (h h₁).bind fun _ _ _ h₂ => ih h₂
    · exact .ok ha

theorem paysFor_block (n : ℕ) :
    PaysFor V N K A (@parseBlockBody .u32 (@HasBackend.standard .u32) n) (parseBlockBody n) := by
  induction n with
  | zero => exact fun _ _ _ _ _ => .error
  | succ n ih =>
    intro v c ctx toks ha
    refine ha.expect (by simp) fun _ _ h₁ => ?_
    have hpush : ∀ d : FnContext,
        pushScope d = .ok ((), { d with scopes := (fun _ => none) :: d.scopes }) := fun _ => rfl
    refine h₁.run (hpush _) rfl fun h₂ => ?_
    refine ((ih.statement (n := n) hK).blockLoop (n := n) h₂).bind fun _ d _ h₃ => ?_
    refine h₃.expect (by simp) fun _ _ h₄ => h₄.last (.same fun _ ctx' hok => ?_)
    obtain rfl : { d with scopes := d.scopes.tail } = ctx' := (Prod.mk.inj (Except.ok.inj hok)).2
    exact h₄.budget.weaken (by omega) (Nat.le_refl _)

end Stmt

end Parser
end Chakobsa
