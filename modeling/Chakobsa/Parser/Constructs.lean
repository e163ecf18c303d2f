import Chakobsa.Parser.Stage
import Chakobsa.Parser.Backend

/-!
# The constructs of the language, call by call

What the actions around expressions and statements make of the builder, as explicit states, over
any backend that follows the builder where the parser keeps to its discipline
(`Backend.Follows`). From the states it is read off that the builder stays steady, that nothing but
new blocks is touched since the construct began, and that no block gets two terminators. There is
one exception, the header of a `while` whose condition has already ended it.
-/

namespace Chakobsa
namespace Parser

open Ir ExceptLemmas FnContext SsaBuilder

/-- The backend does what the builder does: where a block without terminator gets one, where the
variables with a parked phi are known, and where the variable looked up is known. With `A` it may
do something else where a block gets a terminator again. -/
structure Backend.Follows (K : Backend) (A : Prop) : Prop where
  terminate : ∀ {ctx b t}, ctx.builder.isTerminated b = false →
    K.terminate b t ctx = Parser.terminate b t ctx
  again : ∀ ctx b t, K.terminate b t ctx = Parser.terminate b t ctx ∨ A
  sealBlock : ∀ {ctx b}, ctx.builder.Sound → b < ctx.size → ctx.builder.isSealed b = false →
    ctx.builder.GroundedAt b → K.sealBlock b ctx = Parser.sealBlock b ctx
  readVariable : ∀ {ctx x b ty}, ctx.builder.Sound → b < ctx.size →
    ctx.builder.isTerminated b = false → ctx.builder.Reach b → ctx.builder.Known x b →
    K.readVariable x b ty ctx = Parser.readVariable x b ty ctx

theorem Backend.standard_follows : Backend.standard.Follows False :=
  ⟨fun _ => rfl, fun _ _ _ => .inl rfl, fun _ _ _ _ => rfl, fun _ _ _ _ _ => rfl⟩

section Run

variable {α : Type} (ctx : FnContext) {K : Backend} {A : Prop} {b d s s₁ s₂ : BlockId}
  {t : Terminator}

/-- The context with another builder. -/
abbrev FnContext.withBuilder (ctx : FnContext) (B : SsaBuilder) : FnContext :=
  { ctx with builder := B }

theorem emit_explicit (h : ctx.builder.Sound) (hb : b < ctx.size) (ty : Ty) (kind : InstKind) :
    emit b ty kind ctx =
      .ok (ctx.builder.nextValue, ctx.withBuilder (ctx.builder.emitted b ty kind)) :=
  build_run (emit_ok h.indexed hb ty kind)

theorem terminate_explicit (h : ctx.builder.Sound) (hb : b < ctx.size) (t : Terminator) :
    terminate b t ctx = .ok ((), ctx.withBuilder (ctx.builder.terminated b t)) :=
  terminate_run (terminate_ok h.indexed hb t)

theorem Backend.Follows.terminated (hK : K.Follows A) (h : ctx.builder.Sound) (hb : b < ctx.size)
    (ht : ctx.builder.func.termAt b = none) (t : Terminator) :
    K.terminate b t ctx = .ok ((), ctx.withBuilder (ctx.builder.terminated b t)) :=
  (hK.terminate (h.isTerminated_iff.mpr ht)).trans (terminate_explicit ctx h hb t)

theorem Backend.Follows.sealed (hK : K.Follows A) (h : ctx.builder.Sound) (hb : b < ctx.size)
    (hs : ctx.builder.isSealed b = false) (hnil : ctx.builder.incompletePhis b = []) :
    K.sealBlock b ctx = .ok ((), ctx.withBuilder (ctx.builder.sealed b)) := by
  rw [hK.sealBlock h hb hs fun e he => by rw [hnil] at he; exact absurd he List.not_mem_nil]
  exact sealBlock_run (sealBlock_nil hnil)

/-- A branch to two new blocks, and their seals. -/
theorem Backend.Follows.fork (hK : K.Follows A) (h : ctx.builder.Sound)
    (hf : ctx.builder.Fork d t s₁ s₂) (hd : K.terminate d t ctx = Parser.terminate d t ctx)
    (f : Unit → ActM α) :
    (do K.terminate d t; K.sealBlock s₁; K.sealBlock s₂; f ()) ctx =
      f () (ctx.withBuilder (ctx.builder.forked d t s₁ s₂)) := by
  have hsize : (ctx.builder.terminated d t).size = ctx.size := size_terminated t
  have hs₁ := h.terminated hf.lt hf.reach hf.successors
  have hlt₁ := hf.fresh₁.lt.trans_eq hsize.symm
  have hrun₁ := hK.sealed (ctx.withBuilder (ctx.builder.terminated d t)) hs₁ hlt₁
    hf.fresh₁.notSealed hf.fresh₁.nothing
  have hs₂ := hs₁.sealed hlt₁ hf.fresh₁.notSealed hf.fresh₁.nothing
  have hnot : ((ctx.builder.terminated d t).sealed s₁).isSealed s₂ = false := by
    show (if s₂ = s₁ then true else ctx.builder.isSealed s₂) = false
    rw [if_neg hf.ne.symm, hf.fresh₂.notSealed]
  have hrun₂ := hK.sealed (ctx.withBuilder ((ctx.builder.terminated d t).sealed s₁)) hs₂
    (hf.fresh₂.lt.trans_eq hsize.symm) hnot hf.fresh₂.nothing
  rw [act_run (hd.trans (terminate_explicit ctx h hf.lt t)), act_run hrun₁, act_run hrun₂]
  rfl

end Run

/-! ### Settled contexts -/

namespace FnContext

/-- What holds of a context between two constructs: the variables in scope are known in the current
block. -/
structure Settled (ctx : FnContext) : Prop extends Tame ctx where
  steady : ctx.builder.Steady
  visible : ∀ x ty, lookupVar ctx.scopes x = some ty → ctx.builder.Known x ctx.currentBlock

/-- From one settled context to a later one. -/
structure Grown (ctx ctx' : FnContext) : Prop extends Later ctx ctx' where
  settled : ctx'.Settled
  since : Since ctx.builder ctx.currentBlock ctx'.builder

/-- The same for an expression. If the current block is not the one there was, then an edge leads
on from there. -/
structure Valued (ctx ctx' : FnContext) : Prop extends Evaluated ctx ctx', Grown ctx ctx' where
  left : ctx'.currentBlock = ctx.currentBlock ∨ ∃ s, ctx.currentBlock ∈ ctx'.builder.preds s
  exact : ctx.builder.Exact → ctx'.builder.Exact

section Settled

variable {ctx ctx' ctx'' : FnContext} {B' : SsaBuilder} {b : BlockId} {x : String} {ty : Ty}

/-- A variable in scope is known in the current block later on, and in every new one. -/
theorem Settled.known (h : ctx.Settled) (hs : Since ctx.builder ctx.currentBlock B')
    (hb : b = ctx.currentBlock ∨ ctx.size ≤ b) (hx : lookupVar ctx.scopes x = some ty) :
    B'.Known x b := hs.known h.sound (h.visible x ty hx) h.here hb

theorem Grown.of_scopes (h : ctx.Settled) (hl : Later ctx ctx') (ht : ctx'.Tame)
    (hst : ctx'.builder.Steady) (hs : Since ctx.builder ctx.currentBlock ctx'.builder)
    (hscopes : ctx'.scopes = ctx.scopes) : Grown ctx ctx' :=
  ⟨hl, ⟨ht, hst, fun _ _ hx => h.known hs hl.here (hscopes ▸ hx)⟩, hs⟩

/-- The scope of a block has no variables yet. -/
theorem Settled.scope (h : ctx.Settled) :
    Settled { ctx with scopes := (fun _ => none) :: ctx.scopes } :=
  ⟨⟨h.sound, h.here, h.reach, List.cons_ne_nil _ _⟩, h.steady, fun x ty hx =>
    h.visible x ty (by simpa [lookupVar] using hx)⟩

/-- The end of a block drops its scope. -/
theorem Grown.unscope (hs : ctx.Settled)
    (h : Grown { ctx with scopes := (fun _ => none) :: ctx.scopes } ctx')
    (hscopes : ctx'.scopes.tail = ctx.scopes) : Grown ctx { ctx' with scopes := ctx'.scopes.tail } := by
  have hlater : Later ctx { ctx' with scopes := ctx'.scopes.tail } :=
    ⟨h.size, h.ended, h.closed, h.reach, h.here, h.retTy, h.sigs⟩
  have ht := h.settled
  have htame : Tame { ctx' with scopes := ctx'.scopes.tail } :=
    ⟨ht.sound, ht.here, ht.reach, hscopes ▸ hs.scopes⟩
  exact .of_scopes hs hlater htame ht.steady h.since hscopes

theorem Grown.trans (h : Grown ctx ctx') (h' : Grown ctx' ctx'') : Grown ctx ctx'' :=
  ⟨h.toLater.trans h'.toLater, h'.settled, h.since.trans h'.since h.here⟩

theorem Grown.refl (h : ctx.Settled) : Grown ctx ctx := ⟨.refl, h, .refl h.sound⟩

/-- Edges are not lost. -/
theorem Since.edge {B₀ B : SsaBuilder} {b s : BlockId} (h : Since B₀ b B) (hs : B₀.Sound)
    {p : BlockId} (hp : p ∈ B₀.preds s) : p ∈ B.preds s := by
  rw [h.preds s (hs.edges hp).2.1]
  exact hp

theorem Valued.refl (h : ctx.Settled) (ho : ctx.Open) : Valued ctx ctx :=
  ⟨.refl h.toTame ho, h, .refl h.sound, .inl rfl, id⟩

theorem Valued.trans (h : Valued ctx ctx') (h' : Valued ctx' ctx'') : Valued ctx ctx'' := by
  refine ⟨h.toEvaluated.trans h'.toEvaluated, h'.settled, h.since.trans h'.since h.here, ?_,
    fun he => h'.exact (h.exact he)⟩
  rcases h.left with hl | ⟨s, hs⟩
  · rcases h'.left with hl' | ⟨s, hs⟩
    · exact .inl (hl'.trans hl)
    · exact .inr ⟨s, hl ▸ hs⟩
  · exact .inr ⟨s, Since.edge h'.since h.settled.sound hs⟩

/-- A call that leaves the graph alone. -/
theorem Valued.of_calm (h : ctx.Settled) (he : Evaluated ctx ctx')
    (hhere : ctx'.currentBlock = ctx.currentBlock) (hc : SsaBuilder.Calm ctx.builder ctx'.builder)
    (hp : SsaBuilder.Parks (ctx.builder.MayPark (· = ctx.currentBlock)) ctx.builder ctx'.builder)
    (hex : ctx.builder.Exact → ctx'.builder.Exact) : Valued ctx ctx' := by
  have hsince : Since ctx.builder ctx.currentBlock ctx'.builder :=
    (Since.refl h.sound).calm hc hp fun _ _ hN _ hne => hN.2.resolve_left hne
  have hsteady := h.steady.calm he.tame.sound hc hp fun _ _ hN => hN.1
  exact ⟨he, (Grown.of_scopes h he.toLater he.tame hsteady hsince he.scopes).settled, hsince,
    .inl hhere, hex⟩

end Settled

end FnContext

/-! ### Instructions and variables -/

section Simple

open FnContext

variable {ctx c : FnContext} {K : Backend} {A : Prop} {v : ValueId} {ty : Ty} {kind : InstKind}

theorem emitHere_valued (h : ctx.Settled) (ho : ctx.Open) (hk : kind.isPhi = false)
    (hok : emitHere ty kind ctx = .ok (v, c)) : Valued ctx c := by
  obtain ⟨v', c', hok', he⟩ := emitHere_run h.toTame ho ty kind
  obtain ⟨rfl, rfl⟩ := Prod.mk.inj (Except.ok.inj (hok'.symm.trans hok))
  have hexplicit : emitHere ty kind ctx = _ :=
    (act_run currentBlock_run).trans (emit_explicit ctx h.sound h.here ty kind)
  obtain ⟨rfl, rfl⟩ := Prod.mk.inj (Except.ok.inj (hexplicit.symm.trans hok))
  exact .of_calm h he rfl (.emit h.here fun hphi => absurd hk (by simp [hphi])) (.none rfl)
    fun hex => hex.emitted h.here (h.sound.isTerminated_iff.mp ho) ty kind

theorem emitConst_valued (h : ctx.Settled) (ho : ctx.Open) (hk : kind.isPhi = false)
    {r : ValueId × Ty} (hok : emitConst ty kind ctx = .ok (r, c)) : Valued ctx c := by
  obtain ⟨v, c', hok', hret⟩ := act_bind.mp hok
  obtain ⟨-, rfl⟩ := act_pure.mp hret
  exact emitHere_valued h ho hk hok'

theorem emitCall_valued (h : ctx.Settled) (ho : ctx.Open) {name : String}
    {args : List (ValueId × Ty)} {span : Lexer.Span} {r : ValueId × Ty}
    (hok : emitCall name args span ctx = .ok (r, c)) : Valued ctx c := by
  have hget : (get : ActM FnContext) ctx = .ok (ctx, ctx) := rfl
  rw [emitCall, act_run hget] at hok
  obtain ⟨τ, c₁, hargs, hcall⟩ := act_bind.mp hok
  obtain ⟨-, rfl⟩ := act_lift.mp hargs
  obtain ⟨v, c₂, hemit, hret⟩ := act_bind.mp hcall
  obtain ⟨-, rfl⟩ := act_pure.mp hret
  exact emitHere_valued h ho rfl hemit

/-- Look-ups of variables in scope are not lost. -/
theorem Backend.Follows.readName (hK : K.Follows A) (h : ctx.Settled) (ho : ctx.Open) (name : String)
    (span : Lexer.Span) :
    K.readName name span ctx = Parser.readName name span ctx ∧
      ∀ r c, Parser.readName name span ctx = .ok (r, c) → Valued ctx c := by
  have hget : (get : ActM FnContext) ctx = .ok (ctx, ctx) := rfl
  unfold Backend.readName Parser.readName
  rw [act_run hget, act_run hget]
  cases hty : lookupVar ctx.scopes name with
  | none => exact ⟨rfl, fun r c hok => absurd hok Comp.fail_ne_ok⟩
  | some ty =>
    have hknown := h.visible name ty hty
    obtain ⟨v, B', hok', -, -⟩ := h.sound.read (ε := ParseError) h.here ho name ty
    have hrun : Parser.readVariable name ctx.currentBlock ty ctx = .ok (v, ctx.withBuilder B') :=
      readVariable_run hok'
    have hrun' : @Parser.readVariable ⟨K⟩ name ctx.currentBlock ty ctx = .ok (v, ctx.withBuilder B') :=
      (hK.readVariable h.sound h.here ho h.reach hknown).trans hrun
    simp only
    rw [act_run hrun, act_run hrun']
    refine ⟨rfl, fun r c hok => ?_⟩
    obtain ⟨-, rfl⟩ := act_pure.mp hok
    obtain ⟨v₁, c₁, hok₁, he⟩ := readName_run h.toTame ho hty span
    have hread : Parser.readName name span ctx = .ok ((v, ty), ctx.withBuilder B') := by
      rw [Parser.readName, act_run hget]
      simp only [hty]
      exact act_run hrun
    obtain ⟨-, rfl⟩ := Prod.mk.inj (Except.ok.inj (hok₁.symm.trans hread))
    obtain ⟨hcalm, hparks⟩ := SsaBuilder.Calm.read h.sound h.here ho h.reach hknown hok'
    exact .of_calm h he rfl hcalm hparks fun hex =>
      hex.read h.here (h.sound.isTerminated_iff.mp ho) hok'

end Simple

/-! ### Short-circuit operators -/

section ShortCircuit

open FnContext SsaBuilder

variable {ctx c c₁ c₂ : FnContext} {K : Backend} {A : Prop} {B : SsaBuilder} {d : BlockId}
  {short : Bool} {lhs rval : ValueId} {s : ShortCircuit}

theorem forall_jump {b : BlockId} {P : BlockId → Prop} :
    (∀ s ∈ (Terminator.jump b).successors, P s) ↔ P b := by
  simp [Terminator.successors]

/-- The branch on a left operand, to a block for the case that it decides, and one for the right
operand. -/
def shortBranch (short : Bool) (lhs : ValueId) (shortBlock rhsBlock : BlockId) : Terminator :=
  if short then .branch lhs shortBlock rhsBlock else .branch lhs rhsBlock shortBlock

/-- The builder in `openShortCircuit`, once the two blocks of the branch in `d` are sealed. -/
def SsaBuilder.branched (B : SsaBuilder) (d : BlockId) (short : Bool) (lhs : ValueId) : SsaBuilder :=
  B.newBlock.2.newBlock.2.newBlock.2.forked d (shortBranch short lhs B.size (B.size + 1)) B.size
    (B.size + 1)

/-- The builder after `openShortCircuit` in `d`. -/
def SsaBuilder.openedShort (B : SsaBuilder) (d : BlockId) (short : Bool) (lhs : ValueId) :
    SsaBuilder :=
  ((B.branched d short lhs).emitted B.size .bool (.constBool short)).terminated B.size
    (.jump (B.size + 2))

/-- The three new blocks and the branch. -/
theorem SsaBuilder.Sound.shortFork (h : B.Sound) (hd : d < B.size) (hr : B.Reach d) (short : Bool)
    (lhs : ValueId) :
    B.newBlock.2.newBlock.2.newBlock.2.Sound ∧
      B.newBlock.2.newBlock.2.newBlock.2.Fork d (shortBranch short lhs B.size (B.size + 1)) B.size
        (B.size + 1) ∧
      B.newBlock.2.newBlock.2.newBlock.2.Fresh (B.size + 2) := by
  obtain ⟨hs₁, h₁⟩ := h.newBlock
  obtain ⟨hs₂, h₂⟩ := hs₁.newBlock
  obtain ⟨hs₃, -⟩ := hs₂.newBlock
  have hbranch : shortBranch short lhs B.size (B.size + 1) = .branch lhs B.size (B.size + 1) ∨
      shortBranch short lhs B.size (B.size + 1) = .branch lhs (B.size + 1) B.size := by
    cases short <;> simp [shortBranch]
  have hfresh := hs₂.newBlock_fresh
  rw [(h₁.trans h₂).size] at hfresh
  exact ⟨hs₃, (h.fork hd hr hbranch).newBlock hs₂, hfresh⟩

/-- The short block, before it jumps to the join. -/
theorem SsaBuilder.Sound.branched (h : B.Sound) (hd : d < B.size) (hr : B.Reach d) (short : Bool)
    (lhs : ValueId) :
    (B.branched d short lhs).Sound ∧ B.size < (B.branched d short lhs).size ∧
      (B.branched d short lhs).func.termAt B.size = none ∧
      (B.branched d short lhs).Reach B.size ∧ (B.branched d short lhs).Fresh (B.size + 2) := by
  obtain ⟨hs₃, hfork, hfresh⟩ := h.shortFork hd hr short lhs
  refine ⟨hfork.sound (hs₃.terminated hfork.lt hfork.reach hfork.successors),
    hfork.fresh₁.lt.trans_eq (size_terminated _).symm, ?_, hfork.reached (.inl rfl),
    hfork.fresh hfresh (Nat.ne_of_gt (Nat.lt_add_right 2 hd)) (Nat.ne_of_gt (Nat.lt_add_of_pos_right
      Nat.two_pos)) (Nat.ne_of_gt (Nat.lt_succ_self _))⟩
  exact (hfork.termAt _).trans ((if_neg hfork.ne₁).trans hfork.fresh₁.open_)

theorem SsaBuilder.Steady.openedShort (h : B.Steady) (hd : d < B.size) (hr : B.Reach d) (short : Bool)
    (lhs : ValueId) :
    (B.openedShort d short lhs).Steady ∧ Since B d (B.openedShort d short lhs) ∧
      (B.Exact → B.func.termAt d = none → (B.openedShort d short lhs).Exact) := by
  obtain ⟨hs₃, hfork, -⟩ := h.sound.shortFork hd hr short lhs
  obtain ⟨hs₄, hlt, hterm, hreach, hjoin⟩ := h.sound.branched hd hr short lhs
  have hconst : (InstKind.constBool short).isPhi = true → ¬ (B.branched d short lhs).NoPhis B.size :=
    fun hphi => nomatch hphi
  have hs₁ := h.sound.newBlock.1
  -- the branch, and the constant
  have hst₅ : ((B.branched d short lhs).emitted B.size .bool (.constBool short)).Steady :=
    (h.newBlock.newBlock.newBlock.fork hfork).emitted hlt hterm .bool hconst
  have hsince₃ : Since B d B.newBlock.2.newBlock.2.newBlock.2 :=
    (((Since.refl h.sound).newBlock h.sound).newBlock hs₁).newBlock hs₁.newBlock.1
  have hsince₅ : Since B d ((B.branched d short lhs).emitted B.size .bool (.constBool short)) :=
    (hsince₃.fork hfork (.inl rfl) (Nat.le_refl _) (Nat.le_succ _)).emitted hlt .bool hconst
  -- the jump to the join
  have hne : B.size + 2 ≠ B.size := Nat.ne_of_gt (Nat.lt_add_of_pos_right Nat.two_pos)
  have hfresh := hjoin.emitted hlt hne .bool (.constBool short)
  have hlt₅ : B.size < ((B.branched d short lhs).emitted B.size .bool (.constBool short)).size :=
    hlt.trans_eq (size_emitted .bool (.constBool short)).symm
  have hready := And.intro hfresh.lt (And.intro hfresh.ne_zero hfresh.notSealed)
  refine ⟨hst₅.terminate hlt₅ hreach (forall_jump.mpr hready) (forall_jump.mpr (hfresh.target hne))
    (fun _ _ _ => nofun), hsince₅.terminate hlt₅ (.inr (Nat.le_refl _))
    (forall_jump.mpr (Nat.le_add_right _ _)), fun hex ht => ?_⟩
  · have hterm₃ : B.newBlock.2.newBlock.2.newBlock.2.func.termAt d = none := by
      simp only [newBlock_termAt, ht]
    have hex₄ : (B.branched d short lhs).Exact := hex.newBlock.newBlock.newBlock.fork hfork hterm₃
    exact (hex₄.emitted hlt hterm .bool _).terminated hlt₅
      ((termAt_emitted _ _).trans hterm) hreach (forall_jump.mpr hready)

/-- What `openShortCircuit` leaves behind, while the right operand is read: nothing is parked in the
join, and it has a predecessor. -/
structure ShortCircuit.Joining (s : ShortCircuit) (ctx c : FnContext) : Prop
    extends s.Opened ctx c, Valued ctx c where
  joined : c.builder.preds s.join ≠ []
  nothing : c.builder.incompletePhis s.join = []

theorem ShortCircuit.Joining.trans (h : s.Joining ctx c₁) (h' : Valued c₁ c₂) :
    s.Joining ctx c₂ := by
  have ho := h.toOpened.trans h'.toEvaluated
  have hv := h.toValued.trans h'
  refine ⟨ho, hv.settled, hv.since, hv.left, hv.exact, ?_, ?_⟩
  · rw [h'.since.preds _ h.lt]
    exact h.joined
  · rw [h'.since.quiet _ h.lt h.ne (h.tame.sound.isTerminated_iff.mp h.notEnded)]
    exact h.nothing

theorem Backend.Follows.openShortCircuit_eq (hK : K.Follows A) (h : ctx.Settled) (ho : ctx.Open)
    (short : Bool) (lhs : ValueId) :
    K.openShortCircuit short lhs ctx =
      .ok (⟨ctx.size, ctx.builder.nextValue, ctx.size + 2⟩,
        { ctx with
          builder := ctx.builder.openedShort ctx.currentBlock short lhs
          currentBlock := ctx.size + 1 }) := by
  obtain ⟨hs₁, h₁⟩ := h.sound.newBlock
  obtain ⟨hs₂, h₂⟩ := hs₁.newBlock
  obtain ⟨hs₃, h₃⟩ := hs₂.newBlock
  obtain ⟨-, hfork, -⟩ := h.sound.shortFork h.here h.reach short lhs
  obtain ⟨hs₄, hlt, hterm, -, -⟩ := h.sound.branched h.here h.reach short lhs
  have hopen := ((h₁.trans h₂).trans h₃).not_ended ho (by simp)
  have hrun := hK.fork (ctx.withBuilder ctx.builder.newBlock.2.newBlock.2.newBlock.2) hs₃ hfork
    (hK.terminate hopen) fun _ => do
      let shortVal ← emit ctx.size .bool (.constBool short)
      K.terminate ctx.size (.jump (ctx.size + 2))
      enterBlock (ctx.size + 1)
      return (⟨ctx.size, shortVal, ctx.size + 2⟩ : Parser.ShortCircuit)
  -- the constant of the short block, and its jump
  have hemit := emit_explicit (ctx.withBuilder (ctx.builder.branched ctx.currentBlock short lhs)) hs₄
    hlt .bool (.constBool short)
  have hjump := hK.terminated (ctx.withBuilder ((ctx.builder.branched ctx.currentBlock short
    lhs).emitted ctx.size .bool (.constBool short))) (hs₄.emitted hlt hterm _ _)
    (hlt.trans_eq (size_emitted _ _).symm) ((termAt_emitted _ _).trans hterm) (.jump (ctx.size + 2))
  exact (act_run (newBlock_run rfl)).trans <| (act_run (newBlock_run h₁.size)).trans <|
    (act_run (newBlock_run (h₁.trans h₂).size)).trans <| (act_run currentBlock_run).trans <|
    hrun.trans <| (act_run hemit).trans (act_run hjump)

/-- The operator up to its right operand. -/
theorem Backend.Follows.openShortCircuit (hK : K.Follows A) (h : ctx.Settled) (ho : ctx.Open)
    (short : Bool) (lhs : ValueId) :
    ∃ s c, K.openShortCircuit short lhs ctx = .ok (s, c) ∧
      Parser.openShortCircuit short lhs ctx = .ok (s, c) ∧ s.Joining ctx c := by
  have hrun := Backend.standard_follows.openShortCircuit_eq h ho short lhs
  refine ⟨_, _, hK.openShortCircuit_eq h ho short lhs, hrun, ?_⟩
  obtain ⟨s, c, hok, hopened⟩ := openShortCircuit_run h.toTame short lhs
  obtain ⟨rfl, rfl⟩ := Prod.mk.inj (Except.ok.inj (hok.symm.trans hrun))
  obtain ⟨hst, hsince, hex⟩ := h.steady.openedShort h.here h.reach short lhs
  obtain ⟨-, hfork, -⟩ := h.sound.shortFork h.here h.reach short lhs
  have hgrown := Grown.of_scopes h hopened.toLater hopened.tame hst hsince rfl
  obtain ⟨hs₄, hlt, -, -, hjoin⟩ := h.sound.branched h.here h.reach short lhs
  refine ⟨hopened, hgrown.settled, hsince, .inr ⟨ctx.size, ?_⟩,
    fun he => hex he (h.sound.isTerminated_iff.mp ho), ?_, hjoin.nothing⟩
  · exact mem_preds_terminated.mpr (.inl (hfork.entered (.inl rfl)))
  · refine List.ne_nil_of_mem (a := ctx.size) (mem_preds_terminated.mpr (.inr ⟨rfl, ?_⟩))
    simp [Terminator.successors]

/-- The builder after `closeShortCircuit` with the right operand in `tail`. -/
def SsaBuilder.closedShort (B : SsaBuilder) (tail : BlockId) (s : ShortCircuit) (rval : ValueId) :
    SsaBuilder :=
  ((B.terminated tail (.jump s.join)).sealed s.join).emitted s.join .bool
    (.phi [(s.shortBlock, s.shortVal), (tail, rval)])

/-- The jump to the join, which is then sealed. -/
theorem ShortCircuit.Joining.sealed (h : s.Joining ctx c) :
    ((c.builder.terminated c.currentBlock (.jump s.join)).sealed s.join).Steady ∧
      Since ctx.builder ctx.currentBlock
        ((c.builder.terminated c.currentBlock (.jump s.join)).sealed s.join) ∧
      (c.builder.Exact →
        ((c.builder.terminated c.currentBlock (.jump s.join)).sealed s.join).Exact) := by
  have hready := And.intro h.lt (And.intro h.ne_zero h.notClosed)
  have hopen := h.tame.sound.isTerminated_iff.mp h.notEnded
  have hlt := h.lt.trans_eq (size_terminated (b := c.currentBlock) (.jump s.join)).symm
  refine ⟨(h.settled.steady.terminate h.tame.here h.tame.reach (forall_jump.mpr hready)
    (forall_jump.mpr (.inl ⟨hopen, h.ne, h.nothing⟩)) fun _ _ _ => nofun).sealed hlt h.notClosed h.nothing,
    (h.since.terminate h.tame.here h.here (forall_jump.mpr h.new)).sealed h.new, fun hex => ?_⟩
  · exact (hex.terminated h.tame.here (h.tame.sound.isTerminated_iff.mp h.isOpen) h.tame.reach
      (forall_jump.mpr hready)).sealed hlt h.notClosed h.nothing

/-- The phi of the join: there are two predecessors. -/
theorem ShortCircuit.Joining.not_noPhis (h : s.Joining ctx c) :
    ¬ ((c.builder.terminated c.currentBlock (.jump s.join)).sealed s.join).NoPhis s.join := by
  rintro ⟨-, ⟨p, hp⟩, -⟩
  have hpreds : c.builder.preds s.join ++ [c.currentBlock] = [p] := by
    rw [← hp]
    show _ = (c.builder.terminated c.currentBlock (.jump s.join)).preds s.join
    rw [preds_terminated]
    simp [Terminator.successors]
  have hlen := congrArg List.length hpreds
  rw [List.length_append, List.length_singleton, List.length_singleton] at hlen
  exact h.joined (List.length_eq_zero_iff.mp (Nat.succ.inj hlen))

/-- The operator after its right operand. -/
theorem Backend.Follows.closeShortCircuit (hK : K.Follows A) (hs : ctx.Settled)
    (h : s.Joining ctx c) (rval : ValueId) :
    ∃ v c', K.closeShortCircuit s rval c = .ok (v, c') ∧
      Parser.closeShortCircuit s rval c = .ok (v, c') ∧ Valued ctx c' := by
  obtain ⟨hst, hsince, hex⟩ := h.sealed
  have hopen := h.tame.sound.isTerminated_iff.mp h.isOpen
  have hterm : ((c.builder.terminated c.currentBlock (.jump s.join)).sealed s.join).func.termAt
      s.join = none := by
    show (c.builder.terminated c.currentBlock (.jump s.join)).func.termAt s.join = none
    rw [termAt_terminated h.tame.here, if_neg h.ne]
    exact h.tame.sound.isTerminated_iff.mp h.notEnded
  have hlt : s.join < (c.builder.terminated c.currentBlock (.jump s.join)).size :=
    h.lt.trans_eq (size_terminated _).symm
  have hrun : ∀ {K : Backend} {A : Prop}, K.Follows A → K.closeShortCircuit s rval c =
      .ok (c.builder.nextValue, { c with
        builder := c.builder.closedShort c.currentBlock s rval
        currentBlock := s.join }) := by
    intro K A hK
    have hjump := hK.terminated c h.tame.sound h.tame.here hopen (.jump s.join)
    have hseal := hK.sealed (c.withBuilder (c.builder.terminated c.currentBlock (.jump s.join)))
      (h.tame.sound.terminated h.tame.here h.tame.reach
        (forall_jump.mpr ⟨h.lt, h.ne_zero, h.notClosed⟩)) hlt h.notClosed h.nothing
    have hphi := emit_explicit (c.withBuilder ((c.builder.terminated c.currentBlock
      (.jump s.join)).sealed s.join)) hst.sound hlt .bool
      (.phi [(s.shortBlock, s.shortVal), (c.currentBlock, rval)])
    exact (act_run currentBlock_run).trans <| (act_run hjump).trans <| (act_run hseal).trans <|
      act_run hphi
  have hstd := hrun Backend.standard_follows
  obtain ⟨v, c', hok, he⟩ := closeShortCircuit_run h.toOpened rval
  obtain ⟨rfl, rfl⟩ := Prod.mk.inj (Except.ok.inj (hok.symm.trans hstd))
  have hnot := h.not_noPhis
  have hgrown := Grown.of_scopes hs he.toLater he.tame (hst.emitted hlt hterm .bool fun _ => hnot)
    (hsince.emitted hlt .bool fun _ => hnot) he.scopes
  refine ⟨_, _, hrun hK, hstd, he, hgrown.settled, hgrown.since, ?_, fun hex₀ =>
    (hex (h.exact hex₀)).emitted hlt hterm _ _⟩
  rcases h.left with hl | ⟨b, hb⟩
  · refine .inr ⟨s.join, ?_⟩
    rw [← hl]
    exact mem_preds_terminated.mpr (.inr ⟨rfl, by simp [Terminator.successors]⟩)
  · exact .inr ⟨b, mem_preds_terminated.mpr (.inl hb)⟩

end ShortCircuit

/-! ### Simple statements -/

section Simple

open FnContext SsaBuilder

variable {ctx c : FnContext} {K : Backend} {A : Prop}

/-- What a simple statement leaves behind: no block is new, and the scopes around the innermost one
are those there were. -/
structure FnContext.Noted (ctx ctx' : FnContext) : Prop extends Grown ctx ctx' where
  outer : ctx'.scopes.tail = ctx.scopes.tail
  exact : ctx.builder.Exact → ctx'.builder.Exact

theorem FnContext.Valued.noted (h : Valued ctx c) : Noted ctx c :=
  ⟨h.toGrown, by rw [h.scopes], h.exact⟩

/-- A declared variable is bound in the current block. -/
theorem writeLet_noted (h : ctx.Settled) (ho : ctx.Open) {name : String} {value : ValueId × Ty}
    {u : Unit} (hok : writeLet name value ctx = .ok (u, c)) : Noted ctx c := by
  obtain ⟨s, rest, hs⟩ := List.exists_cons_of_ne_nil h.scopes
  obtain ⟨c', hok', ht', -, hlater, hscopes⟩ := writeLet_run h.toTame ho hs name value
  obtain ⟨-, rfl⟩ := Prod.mk.inj (Except.ok.inj (hok'.symm.trans hok))
  have hbuilder : c'.builder = ctx.builder.writeVariable name ctx.currentBlock value.1 ∧
      c'.currentBlock = ctx.currentBlock := by
    have hdecl : declare name value.2 ctx =
        .ok ((), { ctx with scopes := insertAt s name (some value.2) :: rest }) := by
      rw [declare, hs]
    have hexplicit : writeLet name value ctx = _ :=
      (act_run hdecl).trans ((act_run currentBlock_run).trans rfl)
    obtain ⟨-, rfl⟩ := Prod.mk.inj (Except.ok.inj (hexplicit.symm.trans hok))
    exact ⟨rfl, rfl⟩
  obtain ⟨hB, hhere⟩ := hbuilder
  have hcalm : Calm ctx.builder c'.builder := hB ▸ .write
  have hparks : Parks (fun _ _ => False) ctx.builder c'.builder := .none (by rw [hB]; rfl)
  have hsince := (Since.refl (b := ctx.currentBlock) h.sound).calm hcalm hparks
    fun _ _ hN => hN.elim
  refine ⟨⟨hlater, ⟨ht', h.steady.calm ht'.sound hcalm hparks fun _ _ hN => hN.elim,
    fun x ty hx => ?_⟩, hsince⟩, by rw [hscopes, hs]; rfl, fun hex => ?_⟩
  · by_cases hname : x = name
    · subst hname
      refine Known.here ?_
      rw [hB, hhere]
      simp [SsaBuilder.writeVariable, insertAt]
    · rw [hscopes] at hx
      have hold : lookupVar ctx.scopes x = some ty := by
        rw [hs, ← hx]
        simp only [lookupVar, List.findSome?_cons, insertAt, if_neg hname]
      exact h.known hsince (.inl hhere) hold
  · rw [hB]
    exact hex.write h.here (h.sound.isTerminated_iff.mp ho) value.1

theorem writeAssign_valued (h : ctx.Settled) (ho : ctx.Open) {name : String} {value : ValueId × Ty}
    {span : Lexer.Span} {u : Unit} (hok : writeAssign name value span ctx = .ok (u, c)) :
    Valued ctx c := by
  have hget : (get : ActM FnContext) ctx = .ok (ctx, ctx) := rfl
  have hty : lookupVar ctx.scopes name = some value.2 ∧
      c = ctx.withBuilder (ctx.builder.writeVariable name ctx.currentBlock value.1) := by
    rw [writeAssign, act_run hget] at hok
    cases hname : lookupVar ctx.scopes name with
    | none =>
      rw [hname] at hok
      exact absurd hok Comp.fail_ne_ok
    | some expected =>
      rw [hname] at hok
      dsimp only at hok
      split at hok
      · exact absurd hok Comp.fail_ne_ok
      · next heq =>
        obtain ⟨-, rfl⟩ := Prod.mk.inj (Except.ok.inj hok)
        exact ⟨congrArg some (not_not.mp heq), rfl⟩
  obtain ⟨hname, rfl⟩ := hty
  obtain ⟨c', hok', he⟩ := writeAssign_run h.toTame ho hname span
  obtain ⟨-, rfl⟩ := Prod.mk.inj (Except.ok.inj (hok'.symm.trans hok))
  exact .of_calm h he rfl .write (.none rfl) fun hex =>
    hex.write h.here (h.sound.isTerminated_iff.mp ho) value.1

/-- A `return` in an open block. -/
theorem Backend.Follows.ret (hK : K.Follows A) (h : ctx.Settled) (ho : ctx.Open)
    (value : Option ValueId) :
    ∃ c, (do K.terminate (← currentBlock) (.ret value) : ActM Unit) ctx = .ok ((), c) ∧
      (do Parser.terminate (← currentBlock) (.ret value) : ActM Unit) ctx = .ok ((), c) ∧
      Noted ctx c := by
  have hopen := h.sound.isTerminated_iff.mp ho
  have hstd := (act_run (f := fun b => Parser.terminate b (.ret value)) currentBlock_run).trans
    (terminate_explicit ctx h.sound h.here (.ret value))
  refine ⟨_, (act_run currentBlock_run).trans (hK.terminated ctx h.sound h.here hopen (.ret value)),
    hstd, ?_⟩
  obtain ⟨c, hok, ht, hlater, hscopes, -⟩ := ret_run h.toTame value
  obtain ⟨-, rfl⟩ := Prod.mk.inj (Except.ok.inj (hok.symm.trans hstd))
  have hnone : ∀ P : BlockId → Prop, ∀ s ∈ (Terminator.ret value).successors, P s := by
    simp [Terminator.successors]
  have hsince := (Since.refl (b := ctx.currentBlock) h.sound).terminate h.here (.inl rfl) (hnone _)
  have hst := h.steady.terminate h.here h.reach (hnone _) (hnone _) fun _ _ _ => Terminator.noConfusion
  exact ⟨.of_scopes h hlater ht hst hsince rfl, rfl, fun hex =>
    hex.terminated h.here hopen h.reach (hnone _)⟩

end Simple

/-! ### Conditionals -/

section If

open FnContext SsaBuilder

variable {ctx c c' : FnContext} {K : Backend} {A : Prop} {B B₀ : SsaBuilder} {b d join : BlockId}

/-- In `c`, the two arms of an `if` that began in `ctx` are set up: the first is the current block,
and `elseBlock` is the other one. -/
structure FnContext.Branching (elseBlock : BlockId) (ctx c : FnContext) : Prop
    extends Waiting elseBlock ctx c, Grown ctx c where
  isOpen : c.Open
  scopes : c.scopes = ctx.scopes
  fresh : ctx.size ≤ c.currentBlock
  exact : ctx.builder.Exact → c.builder.Exact

theorem Backend.Follows.openIf (hK : K.Follows A) (h : ctx.Settled) (ho : ctx.Open) (cond : ValueId) :
    ∃ elseBlock c, K.openIf cond ctx = .ok (elseBlock, c) ∧
      Parser.openIf cond ctx = .ok (elseBlock, c) ∧ Branching elseBlock ctx c := by
  obtain ⟨hs₁, h₁⟩ := h.sound.newBlock
  obtain ⟨hs₂, h₂⟩ := hs₁.newBlock
  have hopen := (h₁.trans h₂).not_ended ho (by simp)
  have hfork := h.sound.fork (t := .branch cond ctx.size (ctx.size + 1)) h.here h.reach (.inl rfl)
  have hrun : ∀ {K : Backend} {A : Prop}, K.Follows A → K.openIf cond ctx = .ok (ctx.size + 1,
      { ctx with
        builder := ctx.builder.newBlock.2.newBlock.2.forked ctx.currentBlock
          (.branch cond ctx.size (ctx.size + 1)) ctx.size (ctx.size + 1)
        currentBlock := ctx.size }) := by
    intro K A hK
    have hbranch := hK.fork (ctx.withBuilder ctx.builder.newBlock.2.newBlock.2) hs₂ hfork
      (hK.terminate hopen) fun _ => do
        enterBlock ctx.size
        return ctx.size + 1
    exact (act_run (newBlock_run rfl)).trans <| (act_run (newBlock_run h₁.size)).trans <|
      (act_run currentBlock_run).trans hbranch
  have hstd := hrun Backend.standard_follows
  refine ⟨_, _, hrun hK, hstd, ?_⟩
  obtain ⟨e, c, hok, ht, hopen', hscopes, hnew, hwait⟩ := openIf_run h.toTame cond
  obtain ⟨rfl, rfl⟩ := Prod.mk.inj (Except.ok.inj (hok.symm.trans hstd))
  have hsince := (((Since.refl (b := ctx.currentBlock) h.sound).newBlock h.sound).newBlock hs₁).fork
    hfork (.inl rfl) (Nat.le_refl _) (Nat.le_succ _)
  have hgrown := Grown.of_scopes h hwait.toLater ht (h.steady.newBlock.newBlock.fork hfork) hsince
    hscopes
  refine ⟨hwait, hgrown.settled, hsince, hopen', hscopes, hnew, fun hex => ?_⟩
  refine hex.newBlock.newBlock.fork hfork ?_
  rw [newBlock_termAt, newBlock_termAt]
  exact h.sound.isTerminated_iff.mp ho

/-- The other arm, once the first one is read. -/
theorem FnContext.Branching.enter {elseBlock : BlockId} (h : Branching elseBlock ctx c)
    (hs : ctx.Settled) (hg : Grown c c') (hscopes : c'.scopes = c.scopes) :
    Grown ctx { c' with currentBlock := elseBlock } ∧ Open { c' with currentBlock := elseBlock } := by
  obtain ⟨hlater, ht, hopen⟩ := (h.toWaiting.trans hg.toLater).enter hg.settled.toTame
  have hsince := (h.toGrown.trans hg).since
  exact ⟨.of_scopes hs hlater ht hg.settled.steady hsince (hscopes.trans h.scopes), hopen⟩

/-! A jump, unless the block has its terminator. -/

/-- The builder after `jumpUnless`. -/
def SsaBuilder.jumped (B : SsaBuilder) (ended : Bool) (b join : BlockId) : SsaBuilder :=
  if ended = false then B.terminated b (.jump join) else B

/-- `jumpUnless` over other calls. -/
def Backend.jumpUnless (K : Backend) (ended : Bool) (b join : BlockId) : ActM Unit :=
  if ended = false then K.terminate b (.jump join) else pure ()

/-- The conditions of a jump. -/
structure SsaBuilder.Jump (B : SsaBuilder) (b join : BlockId) : Prop where
  lt : b < B.size
  reach : B.Reach b
  join_lt : join < B.size
  ne_zero : join ≠ 0
  notSealed : B.isSealed join = false
  target : B.Target b join

theorem Backend.Follows.jumpUnless (hK : K.Follows A) (ctx : FnContext) (join : BlockId)
    (h : ctx.builder.Sound) (hb : b < ctx.size) : K.jumpUnless (ctx.builder.isTerminated b) b join ctx =
      .ok ((), ctx.withBuilder (ctx.builder.jumped (ctx.builder.isTerminated b) b join)) := by
  unfold Backend.jumpUnless SsaBuilder.jumped
  split
  · next hopen => exact hK.terminated ctx h hb (h.isTerminated_iff.mp hopen) (.jump join)
  · rfl

section Jump

variable (hj : B.Jump b join)
include hj

theorem SsaBuilder.Jump.ready :
    ∀ s ∈ (Terminator.jump join).successors, s < B.size ∧ s ≠ 0 ∧ B.isSealed s = false :=
  forall_jump.mpr ⟨hj.join_lt, hj.ne_zero, hj.notSealed⟩

theorem SsaBuilder.Steady.jumped (h : B.Steady) (ended : Bool) : (B.jumped ended b join).Steady := by
  unfold SsaBuilder.jumped
  split
  · exact h.terminate hj.lt hj.reach hj.ready (forall_jump.mpr hj.target) fun _ _ _ => nofun
  · exact h

theorem SsaBuilder.Since.jumped (h : Since B₀ d B) (hb : b = d ∨ B₀.size ≤ b) (hn : B₀.size ≤ join)
    (ended : Bool) : Since B₀ d (B.jumped ended b join) := by
  unfold SsaBuilder.jumped
  split
  · exact h.terminate hj.lt hb (forall_jump.mpr hn)
  · exact h

theorem SsaBuilder.Exact.jumped (h : B.Exact) (hs : B.Sound) :
    (B.jumped (B.isTerminated b) b join).Exact := by
  unfold SsaBuilder.jumped
  split
  · next hopen => exact h.terminated hj.lt (hs.isTerminated_iff.mp hopen) hj.reach hj.ready
  · exact h

end Jump

section Jumped

variable {c : BlockId} (ended : Bool)

theorem SsaBuilder.size_jumped : (B.jumped ended b join).size = B.size := by
  unfold SsaBuilder.jumped
  split
  · exact size_terminated _
  · rfl

theorem SsaBuilder.isSealed_jumped : (B.jumped ended b join).isSealed = B.isSealed := by
  unfold SsaBuilder.jumped
  split <;> rfl

theorem SsaBuilder.parked_jumped : (B.jumped ended b join).incompletePhis = B.incompletePhis := by
  unfold SsaBuilder.jumped
  split <;> rfl

theorem SsaBuilder.termAt_jumped (hb : b < B.size) (hc : c ≠ b) :
    (B.jumped ended b join).func.termAt c = B.func.termAt c := by
  unfold SsaBuilder.jumped
  split
  · rw [termAt_terminated hb, if_neg hc]
  · rfl

theorem SsaBuilder.Reach.jumped (h : B.Reach c) : (B.jumped ended b join).Reach c := by
  unfold SsaBuilder.jumped
  split
  · exact h.terminated
  · exact h

end Jumped

theorem SsaBuilder.isTerminated_congr {B' : SsaBuilder} (h : B.Sound) (h' : B'.Sound)
    (ht : B'.func.termAt b = B.func.termAt b) : B'.isTerminated b = B.isTerminated b := by
  rw [isTerminated_eq h.indexed, isTerminated_eq h'.indexed, ht]

/-! What an `if` or a loop does not repair. -/

section Lost

variable {p : BlockId}

/-- An edge from `p` is recorded that the terminator of `p` does not have. -/
def SsaBuilder.Lost (B : SsaBuilder) (p : BlockId) : Prop :=
  ∃ t, B.func.termAt p = some t ∧ ∃ s, p ∈ B.preds s ∧ s ∉ t.successors

/-- The same, in a block whose terminator is not replaced any more. -/
def SsaBuilder.Broken (B : SsaBuilder) : Prop := ∃ p, B.isSealed p = true ∧ B.Lost p

theorem SsaBuilder.Lost.lt (h : B.Lost p) (hs : B.Sound) : p < B.size := by
  obtain ⟨-, -, s, hp, -⟩ := h
  exact (hs.edges hp).1

theorem SsaBuilder.Lost.ne_open (h : B.Lost p) (hs : B.Sound) (ho : B.isTerminated b = false) :
    p ≠ b := by
  rintro rfl
  obtain ⟨t, ht, -⟩ := h
  exact Option.some_ne_none t (ht.symm.trans (hs.isTerminated_iff.mp ho))

theorem SsaBuilder.Lost.not_exact (h : B.Lost p) : ¬ B.Exact := by
  intro hex
  obtain ⟨t, ht, s, hp, hs⟩ := h
  obtain ⟨t', ht', hs'⟩ := hex.edge hp
  obtain rfl := Option.some.inj (ht.symm.trans ht')
  exact hs hs'

theorem SsaBuilder.Lost.grown (h : ctx.builder.Lost p) (hs : ctx.builder.Sound)
    (hne : p ≠ ctx.currentBlock) (hg : Grown ctx c) : c.builder.Lost p := by
  have hlt := h.lt hs
  obtain ⟨t, ht, s, hp, hst⟩ := h
  exact ⟨t, (hg.since.term p hlt hne).trans ht, s, Since.edge hg.since hs hp, hst⟩

/-- From an open block on, what is lost stays lost. -/
theorem SsaBuilder.Broken.grown (h : ctx.builder.Broken) (hs : ctx.builder.Sound) (ho : ctx.Open)
    (hg : Grown ctx c) : c.builder.Broken := by
  obtain ⟨p, hseal, hl⟩ := h
  refine ⟨p, ?_, hl.grown hs (hl.ne_open hs ho) hg⟩
  rw [hg.closed p (hl.lt hs), hseal]

theorem SsaBuilder.Lost.jumped (h : B.Lost p) (hs : B.Sound) (hb : b < B.size) (join : BlockId) :
    (B.jumped (B.isTerminated b) b join).Lost p := by
  unfold SsaBuilder.jumped
  split
  · next hopen =>
    have hne := h.ne_open hs hopen
    obtain ⟨t, ht, s, hp, hst⟩ := h
    refine ⟨t, ?_, s, mem_preds_terminated.mpr (.inl hp), hst⟩
    rw [termAt_terminated hb, if_neg hne, ht]
  · exact h

end Lost

/-- The ends of the two arms jump to a new block, unless they are terminated. -/
def SsaBuilder.joined (B : SsaBuilder) (thenTail elseTail : BlockId) : SsaBuilder :=
  (B.newBlock.2.jumped (B.isTerminated thenTail) thenTail B.size).jumped (B.isTerminated elseTail)
    elseTail B.size

section Join

variable {thenTail elseTail : BlockId} (h : B.Steady) (hthen : thenTail < B.size ∧ B.Reach thenTail)
  (helse : elseTail < B.size ∧ B.Reach elseTail) (hne : thenTail ≠ elseTail)
include h hthen helse hne

/-- Both jumps can be made, and the second end is as it was before the first. -/
theorem SsaBuilder.Steady.jumps :
    B.newBlock.2.Jump thenTail B.size ∧
      (B.newBlock.2.jumped (B.isTerminated thenTail) thenTail B.size).Jump elseTail B.size ∧
      B.newBlock.2.isTerminated thenTail = B.isTerminated thenTail ∧
      (B.newBlock.2.jumped (B.isTerminated thenTail) thenTail B.size).isTerminated elseTail =
        B.isTerminated elseTail := by
  obtain ⟨hs₁, h₁⟩ := h.sound.newBlock
  have hfresh := h.sound.newBlock_fresh
  have hlt := h₁.lt hthen.1
  have hjoin : B.size ≠ thenTail := Nat.ne_of_gt hthen.1
  have hjump : B.newBlock.2.Jump thenTail B.size :=
    ⟨hlt, h₁.reach _ hthen.2, hfresh.lt, hfresh.ne_zero, hfresh.notSealed, hfresh.target hjoin⟩
  have hst₂ := h.newBlock.jumped hjump (B.isTerminated thenTail)
  refine ⟨hjump, ⟨(h₁.lt helse.1).trans_eq (size_jumped _).symm, (h₁.reach _ helse.2).jumped _,
    hfresh.lt.trans_eq (size_jumped _).symm, hfresh.ne_zero, ?_, .inl ⟨?_, Nat.ne_of_gt helse.1, ?_⟩⟩,
    isTerminated_congr h.sound hs₁ (newBlock_termAt _ _), isTerminated_congr h.sound hst₂.sound ?_⟩
  · rw [isSealed_jumped, hfresh.notSealed]
  · rw [termAt_jumped _ hlt hjoin, hfresh.open_]
  · rw [parked_jumped, hfresh.nothing]
  · rw [termAt_jumped _ hlt hne.symm, newBlock_termAt]

theorem SsaBuilder.Steady.joined : (B.joined thenTail elseTail).Steady ∧
    (B.Exact → (B.joined thenTail elseTail).Exact) := by
  obtain ⟨hj₁, hj₂, htt, het⟩ := h.jumps hthen helse hne
  have hst₂ := h.newBlock.jumped hj₁ (B.isTerminated thenTail)
  refine ⟨hst₂.jumped hj₂ _, fun hex => ?_⟩
  have hex₂ := hex.newBlock.jumped hj₁ h.sound.newBlock.1
  rw [htt] at hex₂
  have hex₃ := hex₂.jumped hj₂ hst₂.sound
  rwa [het] at hex₃

theorem SsaBuilder.Lost.joined {p : BlockId} (hl : B.Lost p) : (B.joined thenTail elseTail).Lost p := by
  obtain ⟨hj₁, hj₂, htt, het⟩ := h.jumps hthen helse hne
  have hl₁ : B.newBlock.2.Lost p := by
    obtain ⟨t, ht, s, hp, hst⟩ := hl
    exact ⟨t, (newBlock_termAt B p).trans ht, s, (Calm.newBlock h.sound).preds ▸ hp, hst⟩
  have hl₂ := hl₁.jumped h.sound.newBlock.1 hj₁.lt B.size
  rw [htt] at hl₂
  have hl₃ := hl₂.jumped (h.newBlock.jumped hj₁ _).sound hj₂.lt B.size
  rwa [het] at hl₃

theorem SsaBuilder.Since.joined (hs : Since B₀ d B) (h₁ : thenTail = d ∨ B₀.size ≤ thenTail)
    (h₂ : elseTail = d ∨ B₀.size ≤ elseTail) : Since B₀ d (B.joined thenTail elseTail) := by
  obtain ⟨hj₁, hj₂, -, -⟩ := h.jumps hthen helse hne
  exact ((hs.newBlock h.sound).jumped hj₁ h₁ hs.size _).jumped hj₂ h₂ hs.size _

end Join

/-- The new block is ready to be sealed. -/
theorem SsaBuilder.Steady.join_new (h : B.Steady) (thenTail elseTail : BlockId) :
    B.size < (B.joined thenTail elseTail).size ∧
      (B.joined thenTail elseTail).isSealed B.size = false ∧
      (B.joined thenTail elseTail).incompletePhis B.size = [] := by
  have hfresh := h.sound.newBlock_fresh
  unfold SsaBuilder.joined
  rw [size_jumped, size_jumped, isSealed_jumped, isSealed_jumped, parked_jumped, parked_jumped]
  exact ⟨hfresh.lt, hfresh.notSealed, hfresh.nothing⟩

/-- The jumps to the join one after the other. -/
theorem Backend.closeIf_eq (K : Backend) {thenTail : BlockId} {thenTerminated elseTerminated : Bool}
    (h : ¬ (thenTerminated = true ∧ elseTerminated = true)) :
    K.closeIf thenTail thenTerminated elseTerminated = (do
      let elseTail ← currentBlock
      let join ← newBlock
      K.jumpUnless thenTerminated thenTail join
      K.jumpUnless elseTerminated elseTail join
      K.sealBlock join
      enterBlock join) := by
  cases thenTerminated <;> cases elseTerminated
  all_goals first | exact absurd ⟨rfl, rfl⟩ h | rfl

/-- The join of two arms of which one goes on. -/
theorem Backend.Follows.joinArms (hK : K.Follows A) (h : c.Settled) {thenTail : BlockId}
    (hthen : thenTail < c.size ∧ c.builder.Reach thenTail) (hne : thenTail ≠ c.currentBlock)
    (hsome : ¬ (c.builder.isTerminated thenTail = true ∧
      c.builder.isTerminated c.currentBlock = true)) :
    K.closeIf thenTail (c.builder.isTerminated thenTail) (c.builder.isTerminated c.currentBlock) c =
      .ok ((), { c with
        builder := (c.builder.joined thenTail c.currentBlock).sealed c.size
        currentBlock := c.size }) := by
  obtain ⟨hj₁, hj₂, htt, het⟩ := h.steady.jumps hthen ⟨h.here, h.reach⟩ hne
  obtain ⟨hlt, hnot, hnil⟩ := h.steady.join_new thenTail c.currentBlock
  have hst₂ := h.steady.newBlock.jumped hj₁ (c.builder.isTerminated thenTail)
  have h₁ := hK.jumpUnless (c.withBuilder c.builder.newBlock.2) c.size h.sound.newBlock.1
    hj₁.lt
  have h₂ := hK.jumpUnless (c.withBuilder (c.builder.newBlock.2.jumped
    (c.builder.isTerminated thenTail) thenTail c.size)) c.size hst₂.sound hj₂.lt
  rw [htt] at h₁
  rw [het] at h₂
  have h₃ := hK.sealed (c.withBuilder (c.builder.joined thenTail c.currentBlock))
    (hst₂.jumped hj₂ _).sound hlt hnot hnil
  rw [K.closeIf_eq hsome]
  exact (act_run currentBlock_run).trans <| (act_run (newBlock_run rfl)).trans <|
    (act_run h₁).trans <| (act_run h₂).trans (act_run h₃)

/-- The end of an `if` that began in `ctx`. -/
theorem Backend.Follows.closeIf (hK : K.Follows A) (hs : ctx.Settled) (h : Grown ctx c)
    (hscopes : c.scopes = ctx.scopes) {thenTail : BlockId}
    (hthen : ctx.size ≤ thenTail ∧ thenTail < c.size ∧ c.builder.Reach thenTail)
    (hne : thenTail ≠ c.currentBlock) :
    ∃ c', K.closeIf thenTail (c.builder.isTerminated thenTail)
        (c.builder.isTerminated c.currentBlock) c = .ok ((), c') ∧
      Parser.closeIf thenTail (c.builder.isTerminated thenTail)
        (c.builder.isTerminated c.currentBlock) c = .ok ((), c') ∧
      Grown ctx c' ∧ c'.scopes = ctx.scopes ∧ (c.builder.Exact → c'.builder.Exact) ∧
      (c.builder.Broken → c'.builder.Broken) := by
  have ht := h.settled
  obtain ⟨c', hok, ht', hlater, hscopes', -⟩ := closeIf_run (c.builder.isTerminated c.currentBlock)
    h.toLater ht.toTame hthen rfl
  by_cases hboth : c.builder.isTerminated thenTail = true ∧
      c.builder.isTerminated c.currentBlock = true
  · -- no join
    have hrun : ∀ K : Backend, K.closeIf thenTail (c.builder.isTerminated thenTail)
        (c.builder.isTerminated c.currentBlock) c = .ok ((), { c with currentBlock := thenTail }) := by
      intro K
      rw [hboth.1, hboth.2]
      rfl
    obtain ⟨-, rfl⟩ := Prod.mk.inj (Except.ok.inj (hok.symm.trans (hrun Backend.standard)))
    exact ⟨_, hrun K, hok, .of_scopes hs hlater ht' ht.steady h.since (hscopes'.trans hscopes),
      hscopes'.trans hscopes, id, id⟩
  · have hstd := Backend.standard_follows.joinArms ht hthen.2 hne hboth
    obtain ⟨-, rfl⟩ := Prod.mk.inj (Except.ok.inj (hok.symm.trans hstd))
    obtain ⟨hst, hex⟩ := ht.steady.joined hthen.2 ⟨ht.here, ht.reach⟩ hne
    obtain ⟨hlt, hnot, hnil⟩ := ht.steady.join_new thenTail c.currentBlock
    have hsince := (Since.joined ht.steady hthen.2 ⟨ht.here, ht.reach⟩ hne h.since (.inr hthen.1)
      h.here).sealed (d := c.size) h.size
    refine ⟨_, hK.joinArms ht hthen.2 hne hboth, hstd, .of_scopes hs hlater ht' (hst.sealed hlt hnot hnil)
      hsince hscopes, hscopes, fun he => (hex he).sealed hlt hnot hnil, fun hb => ?_⟩
    obtain ⟨p, hp, hl⟩ := hb
    refine ⟨p, ?_, Lost.joined ht.steady hthen.2 ⟨ht.here, ht.reach⟩ hne hl⟩
    show (if p = c.size then true else (c.builder.joined thenTail c.currentBlock).isSealed p) = true
    rw [SsaBuilder.joined, isSealed_jumped, isSealed_jumped]
    split
    · rfl
    · exact hp

end If

/-! ### Loops -/

section While

open FnContext SsaBuilder

variable {ctx c c' : FnContext} {K : Backend} {A : Prop} {header exit : BlockId}

/-- In `c`, the header of a `while` that began in `ctx` is the current block. -/
structure FnContext.Heading (header : BlockId) (ctx c : FnContext) : Prop
    extends Looping header ctx c, Grown ctx c where
  isOpen : c.Open
  scopes : c.scopes = ctx.scopes
  here_eq : c.currentBlock = header
  exact : ctx.builder.Exact → c.builder.Exact

theorem Backend.Follows.openWhile (hK : K.Follows A) (h : ctx.Settled) (ho : ctx.Open) :
    ∃ header c, K.openWhile ctx = .ok (header, c) ∧ Parser.openWhile ctx = .ok (header, c) ∧
      Heading header ctx c := by
  obtain ⟨hs₁, h₁⟩ := h.sound.newBlock
  have hfresh := h.sound.newBlock_fresh
  have hopen : ctx.builder.newBlock.2.func.termAt ctx.currentBlock = none := by
    rw [newBlock_termAt]
    exact h.sound.isTerminated_iff.mp ho
  have hjump : ctx.builder.newBlock.2.Jump ctx.currentBlock ctx.size :=
    ⟨h₁.lt h.here, h₁.reach _ h.reach, hfresh.lt, hfresh.ne_zero, hfresh.notSealed,
      hfresh.target (Nat.ne_of_gt h.here)⟩
  have hrun : ∀ {K : Backend} {A : Prop}, K.Follows A → K.openWhile ctx = .ok (ctx.size, { ctx with
      builder := ctx.builder.newBlock.2.terminated ctx.currentBlock (.jump ctx.size)
      currentBlock := ctx.size }) := by
    intro K A hK
    have hterm := hK.terminated (ctx.withBuilder ctx.builder.newBlock.2) hs₁ hjump.lt hopen
      (.jump ctx.size)
    exact (act_run (newBlock_run rfl)).trans <| (act_run currentBlock_run).trans (act_run hterm)
  have hstd := hrun Backend.standard_follows
  refine ⟨_, _, hrun hK, hstd, ?_⟩
  obtain ⟨header, c, hok, hloop, ht, hopen', hscopes, hhere⟩ := openWhile_run h.toTame
  obtain ⟨rfl, rfl⟩ := Prod.mk.inj (Except.ok.inj (hok.symm.trans hstd))
  have hst := h.steady.newBlock.jumped hjump false
  have hsince := ((Since.refl h.sound).newBlock h.sound).jumped hjump (.inl rfl) (Nat.le_refl _) false
  have hgrown := Grown.of_scopes h hloop.toLater ht hst hsince hscopes
  exact ⟨hloop, hgrown.settled, hsince, hopen', hscopes, hhere, fun hex =>
    hex.newBlock.terminated hjump.lt hopen hjump.reach hjump.ready⟩

/-- The header once the condition is read. If the condition has ended it, then by a branch. -/
structure FnContext.Tested (header : BlockId) (ctx c : FnContext) : Prop
    extends Looping header ctx c, Grown ctx c where
  isOpen : c.Open
  scopes : c.scopes = ctx.scopes
  left : c.currentBlock = header ∨ ∃ s, header ∈ c.builder.preds s
  exact : ctx.builder.Exact → c.builder.Exact

theorem FnContext.Heading.trans (h : Heading header ctx c) (hv : Valued c c') :
    Tested header ctx c' :=
  ⟨h.toLooping.trans hv.toLater, (h.toGrown.trans hv.toGrown).settled,
    (h.toGrown.trans hv.toGrown).since, hv.isOpen, hv.scopes.trans h.scopes, h.here_eq ▸ hv.left,
    fun hex => hv.exact (h.exact hex)⟩

/-- In `c`, the body of a `while` that began in `ctx` is read. -/
structure FnContext.Circling (header exit : BlockId) (ctx c : FnContext) : Prop
    extends Looping header ctx c, Grown ctx c where
  waits : Waiting exit ctx c
  scopes : c.scopes = ctx.scopes
  /-- Every way to the current block leads through the header. -/
  dominated : Dominates c.builder.Edge 0 header c.currentBlock
  header_ne : header ≠ c.currentBlock

/-- The branch of the header, which may be its second terminator. -/
theorem Backend.Follows.openBody (hK : K.Follows A) (hs : ctx.Settled) (h : Tested header ctx c)
    (cond : ValueId) :
    ∃ exit c', Parser.openBody header cond c = .ok (exit, c') ∧ c'.Open ∧
      Circling header exit ctx c' ∧
      (K.openBody header cond c = .ok (exit, c') ∨ A ∧ c'.builder.Lost header) ∧
      (c.currentBlock = header → c.builder.Exact → c'.builder.Exact) ∧
      (c.currentBlock ≠ header → c'.builder.Lost header) := by
  have ht := h.settled
  obtain ⟨hs₁, h₁⟩ := ht.sound.newBlock
  obtain ⟨hs₂, h₂⟩ := hs₁.newBlock
  have hfork := ht.sound.fork (t := .branch cond c.size (c.size + 1)) h.lt h.reached (.inl rfl)
  have hrun : ∀ {K : Backend} {A : Prop}, K.Follows A →
      K.terminate header (.branch cond c.size (c.size + 1))
        (c.withBuilder c.builder.newBlock.2.newBlock.2) =
          Parser.terminate header (.branch cond c.size (c.size + 1))
            (c.withBuilder c.builder.newBlock.2.newBlock.2) →
      K.openBody header cond c = .ok (c.size + 1, { c with
        builder := c.builder.newBlock.2.newBlock.2.forked header
          (.branch cond c.size (c.size + 1)) c.size (c.size + 1)
        currentBlock := c.size }) := by
    intro K A hK hbranch
    have hfork := hK.fork (c.withBuilder c.builder.newBlock.2.newBlock.2) hs₂ hfork hbranch fun _ => do
      enterBlock c.size
      return c.size + 1
    exact (act_run (newBlock_run rfl)).trans <| (act_run (newBlock_run h₁.size)).trans hfork
  have hstd := hrun Backend.standard_follows rfl
  obtain ⟨exit, c', hok, ht', hopen', hscopes', hloop, hwait⟩ := openBody_run h.toLooping ht.toTame cond
  obtain ⟨rfl, rfl⟩ := Prod.mk.inj (Except.ok.inj (hok.symm.trans hstd))
  have hsince := ((h.since.newBlock ht.sound).newBlock hs₁).fork hfork (.inr h.new) h.size
    (h.size.trans (Nat.le_succ _))
  have hgrown := Grown.of_scopes hs hloop.toLater ht' (ht.steady.newBlock.newBlock.fork hfork) hsince
    (hscopes'.trans h.scopes)
  -- the body is entered from the header only
  have hentered : ∀ p, (c.builder.newBlock.2.newBlock.2.forked header
      (.branch cond c.size (c.size + 1)) c.size (c.size + 1)).Edge p c.size → p = header := by
    intro p hp
    rcases mem_preds_terminated.mp hp with hp | ⟨rfl, -⟩
    · rw [hfork.fresh₁.noPreds] at hp
      exact absurd hp List.not_mem_nil
    · rfl
  have hcircling : Circling header (c.size + 1) ctx _ :=
    ⟨hloop, hgrown.settled, hsince, hwait, hscopes'.trans h.scopes,
      .of_pred hfork.fresh₁.ne_zero hentered, hfork.ne₁.symm⟩
  have hlost : c.currentBlock ≠ header → (c.builder.newBlock.2.newBlock.2.forked header
      (.branch cond c.size (c.size + 1)) c.size (c.size + 1)).Lost header := by
    intro hne
    obtain ⟨s, hps⟩ := h.left.resolve_left hne
    refine ⟨_, (hfork.termAt header).trans (if_pos rfl), s, ?_, ?_⟩
    · refine mem_preds_terminated.mpr (.inl ?_)
      rw [(Calm.newBlock hs₁).preds, (Calm.newBlock ht.sound).preds]
      exact hps
    · -- the earlier edge goes to an older block
      have hlt := (ht.sound.edges hps).2.1
      simp only [Terminator.successors, List.mem_cons, List.not_mem_nil, or_false, not_or]
      exact ⟨Nat.ne_of_lt hlt, Nat.ne_of_lt (Nat.lt_succ_of_lt hlt)⟩
  refine ⟨_, _, hstd, hopen', hcircling, ?_, fun heq hex => ?_, hlost⟩
  · by_cases heq : c.currentBlock = header
    · -- the condition has left the header open
      have hopen : c.builder.isTerminated header = false := heq ▸ h.isOpen
      exact .inl (hrun hK (hK.terminate ((h₁.trans h₂).not_ended hopen (by simp))))
    · rcases hK.again (c.withBuilder c.builder.newBlock.2.newBlock.2) header
        (.branch cond c.size (c.size + 1)) with he | hA
      · exact .inl (hrun hK he)
      · exact .inr ⟨hA, hlost heq⟩
  · refine hex.newBlock.newBlock.fork hfork ?_
    rw [newBlock_termAt, newBlock_termAt]
    exact ht.sound.isTerminated_iff.mp (heq ▸ h.isOpen)

/-- The body leaves the loop as it is. -/
theorem FnContext.Circling.trans (h : Circling header exit ctx c) (hg : Grown c c')
    (hscopes : c'.scopes = c.scopes) : Circling header exit ctx c' := by
  have hgrown := h.toGrown.trans hg
  refine ⟨h.toLooping.trans hg.toLater, hgrown.settled, hgrown.since, h.waits.trans hg.toLater,
    hscopes.trans h.scopes, h.dominated.covers ?_, hg.ne_here h.lt h.header_ne⟩
  rcases hg.here with he | he
  · rw [he]
    exact (hg.since.covers h.settled.sound).1 h.settled.here
  · exact (hg.since.covers h.settled.sound).2 he

/-- The loop before its header is sealed. -/
theorem Backend.closeWhile_eq (K : Backend) :
    K.closeWhile header exit = (do
      let bodyTail ← currentBlock
      let ended ← isTerminated bodyTail
      K.jumpUnless ended bodyTail header
      K.sealBlock header
      enterBlock exit) := by
  unfold Backend.closeWhile Parser.closeWhile
  congr 1
  funext b
  congr 1
  funext ended
  cases ended <;> rfl

/-- The end of a `while` that began in `ctx`. -/
theorem Backend.Follows.closeWhile (hK : K.Follows A) (hs : ctx.Settled)
    (h : Circling header exit ctx c) :
    ∃ c', K.closeWhile header exit c = .ok ((), c') ∧
      Parser.closeWhile header exit c = .ok ((), c') ∧ Grown ctx c' ∧ c'.Open ∧
      c'.scopes = ctx.scopes ∧ (c.builder.Exact → c'.builder.Exact) ∧
      (c.builder.Broken ∨ c.builder.Lost header → c'.builder.Broken) := by
  have ht := h.settled
  have hjump : c.builder.Jump c.currentBlock header :=
    ⟨ht.here, ht.reach, h.lt, h.ne_zero, h.notClosed, .inr h.dominated⟩
  obtain ⟨B₁, hB₁⟩ : ∃ B₁, B₁ = c.builder.jumped (c.builder.isTerminated c.currentBlock)
    c.currentBlock header := ⟨_, rfl⟩
  have hst₁ : B₁.Steady := hB₁ ▸ ht.steady.jumped hjump _
  have hlt : header < B₁.size := by
    rw [hB₁, size_jumped]
    exact h.lt
  have hnot : B₁.isSealed header = false := by
    rw [hB₁, isSealed_jumped, h.notClosed]
  have hsince₁ : Since ctx.builder ctx.currentBlock B₁ := hB₁ ▸ h.since.jumped hjump h.here h.new _
  -- the phis of the header are filled in
  obtain ⟨B₂, hok₂, -⟩ := hst₁.sound.sealBlock (ε := ParseError) hlt hnot
  have hrun : ∀ {K : Backend} {A : Prop}, K.Follows A → K.closeWhile header exit c =
      .ok ((), { c with builder := B₂, currentBlock := exit }) := by
    intro K A hK
    have h₁ := hK.jumpUnless c header ht.sound ht.here
    rw [← hB₁] at h₁
    have h₂ : K.sealBlock header (c.withBuilder B₁) = .ok ((), c.withBuilder B₂) :=
      (hK.sealBlock hst₁.sound hlt hnot (hst₁.grounded header)).trans (sealBlock_run hok₂)
    rw [K.closeWhile_eq]
    exact (act_run currentBlock_run).trans <| (act_run (isTerminated_run _)).trans <|
      (act_run h₁).trans (act_run h₂)
  have hstd := hrun Backend.standard_follows
  obtain ⟨c', hok, ht', hopen, hlater, hscopes⟩ := closeWhile_run h.toLooping h.waits ht.toTame
  obtain ⟨-, rfl⟩ := Prod.mk.inj (Except.ok.inj (hok.symm.trans hstd))
  obtain ⟨-, hsize, hterm, -, hexact⟩ := seal_same hst₁.sound hlt hnot hok₂
  obtain ⟨-, hpreds, hseal, -⟩ := seal_strict (fun _ _ => .error .outOfFuel) hst₁.sound
    (hst₁.grounded header) hok₂
  refine ⟨_, hrun hK, hstd, .of_scopes hs hlater ht' (hst₁.sealBlock hlt hnot hok₂)
    (hsince₁.sealBlock hst₁ hlt h.new hnot hok₂) (hscopes.trans h.scopes), hopen,
    hscopes.trans h.scopes, fun hex => hexact (hB₁ ▸ hex.jumped hjump ht.sound), ?_⟩
  have hlost : ∀ p, c.builder.Lost p → B₂.Lost p := by
    intro p hp
    obtain ⟨t, hpt, s, hps, hst⟩ := hB₁ ▸ hp.jumped ht.sound ht.here header
    exact ⟨t, (hterm p).trans hpt, s, hpreds ▸ hps, hst⟩
  have hclosed : ∀ p, B₂.isSealed p = if p = header then true else c.builder.isSealed p := by
    intro p
    rw [hseal, hB₁, isSealed_jumped]
    rfl
  rintro (⟨p, hp, hl⟩ | hl)
  · refine ⟨p, ?_, hlost p hl⟩
    show B₂.isSealed p = true
    rw [hclosed, hp, ite_self]
  · refine ⟨header, ?_, hlost header hl⟩
    show B₂.isSealed header = true
    rw [hclosed, if_pos rfl]

end While

end Parser
end Chakobsa
