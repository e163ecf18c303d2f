import Chakobsa.Parser.Histories
import Chakobsa.Parser.LoopHeaders

/-!
# Constructs and their histories

The constructs of `Chakobsa.Parser.Constructs` once more, this time with the history of the blocks.
`Logged` pairs a context with a tidy history of its builder, and `Advances` relates two such pairs:
old blocks other than the current one keep their logs. At the end of a construct its blocks are
sealed (`Completes`).
-/

namespace Chakobsa
namespace Parser

open Ir ExceptLemmas FnContext SsaBuilder

/-- The history of a context. -/
structure FnContext.Logged (ctx : FnContext) (g : Ghost) : Prop where
  tidy : g.Tidy
  builder : g.builder = ctx.builder

/-- From one context to a later one, with their histories. -/
structure Advances (ctx : FnContext) (g : Ghost) (c : FnContext) (g' : Ghost) : Prop
    extends c.Logged g', Extends g g' where
  here : c.currentBlock = ctx.currentBlock ∨ g.size ≤ c.currentBlock
  /-- Of the old blocks only the current one has got further events. -/
  others : ∀ b < g.size, b ≠ ctx.currentBlock → g'.log b = g.log b

/-- The same for a complete construct: the new blocks are sealed. -/
structure Completes (ctx : FnContext) (g : Ghost) (c : FnContext) (g' : Ghost) : Prop
    extends Advances ctx g c g' where
  closed : ∀ b, g.size ≤ b → b < g'.size → g'.builder.isSealed b = true

section Basics

variable {ctx c c' : FnContext} {g g' g'' G : Ghost} {b d s₁ s₂ : BlockId} {t : Terminator} {x : String}
  {v : ValueId} {ty : Ty} {kind : InstKind}

theorem FnContext.Logged.size (h : ctx.Logged g) : g.size = ctx.size := by
  rw [Ghost.size, h.builder]

theorem FnContext.Logged.lt (h : ctx.Logged g) (hs : ctx.Tame) : ctx.currentBlock < g.size :=
  hs.here.trans_eq h.size.symm

theorem FnContext.Logged.term (h : ctx.Logged g) (hb : ctx.builder.isTerminated b = false) :
    g.term b = none := by
  rw [Ghost.term, h.builder]
  exact (SsaBuilder.Sound.isTerminated_iff ⟨g, h.tidy.toSound, h.builder⟩).mp hb

theorem FnContext.Logged.reach (h : ctx.Logged g) (hb : ctx.builder.Reach b) : g.builder.Reach b := by
  rw [h.builder]
  exact hb

theorem Advances.refl (h : ctx.Logged g) : Advances ctx g ctx g :=
  ⟨h, .refl, .inl rfl, fun _ _ _ => rfl⟩

theorem Advances.trans (h : Advances ctx g c g') (h' : Advances c g' c' g'') : Advances ctx g c' g'' := by
  refine ⟨h'.toLogged, h.toExtends.trans h'.toExtends, ?_, fun b hb hne => ?_⟩
  · rcases h'.here with he | he
    · exact he ▸ h.here
    · exact .inr (h.size.trans he)
  · refine (h'.others b (Nat.lt_of_lt_of_le hb h.size) ?_).trans (h.others b hb hne)
    rcases h.here with he | he
    · exact he ▸ hne
    · exact Nat.ne_of_lt (Nat.lt_of_lt_of_le hb he)

/-- No further events in the old blocks, and a new block becomes the current one. -/
theorem Advances.enter (h : Advances ctx g c g') (hl : c'.Logged g'') (hx : Extends g' g'')
    (hlog : ∀ b < g.size, g''.log b = g'.log b) (hnew : g.size ≤ c'.currentBlock) :
    Advances ctx g c' g'' :=
  ⟨hl, h.toExtends.trans hx, .inr hnew, fun b hb hne => (hlog b hb).trans (h.others b hb hne)⟩

theorem Completes.refl (h : ctx.Logged g) : Completes ctx g ctx g :=
  ⟨.refl h, fun _ hle hlt => absurd hlt (Nat.not_lt.mpr hle)⟩

/-- Scopes do not matter. -/
theorem Completes.rescope (h : Completes ctx g c g') (s s' : List Scope) :
    Completes { ctx with scopes := s } g { c with scopes := s' } g' :=
  ⟨⟨⟨h.tidy, h.builder⟩, h.toExtends, h.here, h.others⟩, h.closed⟩

theorem Completes.trans (h : Completes ctx g c g') (h' : Completes c g' c' g'') :
    Completes ctx g c' g'' := by
  refine ⟨h.toAdvances.trans h'.toAdvances, fun b hle hlt => ?_⟩
  by_cases hlt' : b < g'.size
  · exact (h'.isSealed b (h.closed b hle hlt')).1
  · exact h'.closed b (Nat.not_lt.mp hlt') hlt

/-- With a new block as the next current one, where further blocks are sealed. -/
theorem Completes.enter (h : Completes ctx g c g') (hl : c'.Logged g'') (hx : Extends g' g'')
    (hlog : ∀ b < g.size, g''.log b = g'.log b) (hnew : g.size ≤ c'.currentBlock)
    (hclosed : ∀ b, g'.size ≤ b → b < g''.size → g''.builder.isSealed b = true) :
    Completes ctx g c' g'' := by
  refine ⟨h.toAdvances.enter hl hx hlog hnew, fun b hle hlt => ?_⟩
  by_cases hlt' : b < g'.size
  · exact (hx.isSealed b (h.closed b hle hlt')).1
  · exact hclosed b (Nat.not_lt.mp hlt') hlt

/-- A block with a terminator is finished. -/
theorem Extends.finished (h : Extends g G) (ht : g.term b = some t) :
    G.term b = some t ∧ G.log b = g.log b :=
  ⟨h.ended b t ht, (h.done b (by rw [ht]; exact Option.some_ne_none t)).1⟩

/-- The instructions of blocks that are new have new ids. -/
theorem Extends.fresh (h : Extends g G) (hb : g.size ≤ b) :
    ∀ i ∈ G.builder.func.instsAt b, g.builder.nextValue ≤ i.id := by
  intro i hi
  rcases h.insts b i hi with ⟨j, hj, -⟩ | hle
  · rw [Function.instsAt, List.getElem?_eq_none hb] at hj
    cases hj
  · exact hle

/-- A block that does not exist yet has no events. -/
theorem Ghost.Sound.log_new (h : g.Sound) (hb : g.size ≤ b) : g.log b = [] :=
  (h.ok.logs.outside b hb).1

/-! ### Sealing new blocks -/

theorem Ghost.Tidy.sealed (h : g.Tidy) (hb : b < g.size) (hs : g.builder.isSealed b = false)
    (hnil : g.builder.incompletePhis b = []) :
    ∃ g' : Ghost, g'.builder = g.builder.sealed b ∧ g'.Tidy ∧ Extends g g' ∧ g'.log = g.log := by
  have hg : g.builder.GroundedAt b := by
    intro e he
    rw [hnil] at he
    cases he
  obtain ⟨g', hok, ht, hx, -, -, -, -, hlog⟩ := h.sealBlock (ε := Empty) hb hs hg
  rw [sealBlock_nil hnil] at hok
  exact ⟨g', (Except.ok.inj hok).symm, ht, hx, hlog⟩

/-- A branch to two new blocks, and their seals. -/
theorem Ghost.Tidy.fork (h : g.Tidy) (hf : g.builder.Fork d t s₁ s₂) (ht : g.term d = none) :
    ∃ g' : Ghost, g'.builder = g.builder.forked d t s₁ s₂ ∧ g'.Tidy ∧ Extends g g' ∧ g'.log = g.log := by
  obtain ⟨h₁, hx₁⟩ := h.terminate hf.lt ht hf.reach hf.successors
  have hlt : ∀ {s}, s < g.size → s < (g.terminate d t).size := fun hs =>
    hs.trans_eq (size_terminated t).symm
  obtain ⟨g₂, hB₂, h₂, hx₂, hlog₂⟩ := h₁.sealed (hlt hf.fresh₁.lt) hf.fresh₁.notSealed hf.fresh₁.nothing
  have hB : g₂.builder = (g.builder.terminated d t).sealed s₁ := hB₂
  have hseal : g₂.builder.isSealed s₂ = false := by
    rw [hB]
    show (if s₂ = s₁ then true else g.builder.isSealed s₂) = false
    rw [if_neg hf.ne.symm]
    exact hf.fresh₂.notSealed
  have hlt₂ : s₂ < g₂.size := by
    rw [Ghost.size, hB]
    exact hlt hf.fresh₂.lt
  have hnil : g₂.builder.incompletePhis s₂ = [] := by
    rw [hB]
    exact hf.fresh₂.nothing
  obtain ⟨g₃, hB₃, h₃, hx₃, hlog₃⟩ := h₂.sealed hlt₂ hseal hnil
  exact ⟨g₃, by rw [hB₃, hB]; rfl, h₃, (hx₁.trans hx₂).trans hx₃, hlog₃.trans hlog₂⟩

/-! ### Instructions and variables -/

/-- An instruction that is no phi is emitted into the current block. -/
theorem FnContext.Logged.emitHere (h : ctx.Logged g) (hs : ctx.Settled) (ho : ctx.Open)
    (hk : kind.isPhi = false) (hok : emitHere ty kind ctx = .ok (v, c)) :
    v = g.builder.nextValue ∧ c.currentBlock = ctx.currentBlock ∧
      Completes ctx g c (g.emit ctx.currentBlock ty kind) := by
  have hexplicit : Parser.emitHere ty kind ctx = _ :=
    (act_run currentBlock_run).trans (emit_explicit ctx hs.sound hs.here ty kind)
  obtain ⟨rfl, rfl⟩ := Prod.mk.inj (Except.ok.inj (hexplicit.symm.trans hok))
  obtain ⟨ht, hx⟩ := h.tidy.emit (h.lt hs.toTame) (h.term ho) ty kind fun incoming hphi => by
    rw [hphi] at hk
    cases hk
  refine ⟨by rw [h.builder], rfl, ⟨⟨ht, by rw [← h.builder]; rfl⟩, hx, .inl rfl, fun b _ hne => if_neg hne⟩,
    fun b hle hlt => ?_⟩
  exact absurd (hlt.trans_eq (size_emitted ty kind)) (Nat.not_lt.mpr hle)

/-- A variable in scope is read in the current block. -/
theorem FnContext.Logged.readName (h : ctx.Logged g) (hs : ctx.Settled) (ho : ctx.Open)
    {span : Lexer.Span} (hok : readName x span ctx = .ok ((v, ty), c)) :
    c.currentBlock = ctx.currentBlock ∧ ∃ g', Completes ctx g c g' ∧
      g'.log ctx.currentBlock = g.log ctx.currentBlock ++ [.read x v ty] := by
  have hget : (get : ActM FnContext) ctx = .ok (ctx, ctx) := rfl
  rw [Parser.readName, act_run hget] at hok
  cases hty : lookupVar ctx.scopes x with
  | none =>
    rw [hty] at hok
    exact absurd hok Comp.fail_ne_ok
  | some τ =>
    rw [hty] at hok
    obtain ⟨w, c₁, hread, hret⟩ := act_bind.mp hok
    obtain ⟨hv, rfl⟩ := act_pure.mp hret
    obtain ⟨rfl, rfl⟩ := Prod.mk.inj hv
    rw [readVariable_eq] at hread
    obtain ⟨B', hB', rfl⟩ := build_ok.mp hread
    have hknown : g.builder.Known x ctx.currentBlock := by
      rw [h.builder]
      exact hs.visible x ty hty
    obtain ⟨w', g', hok', ht, hx, hsame, hlog⟩ :=
      h.tidy.read (ε := ParseError) (h.lt hs.toTame) (h.term ho) hknown (h.reach hs.reach) ty
    rw [h.builder] at hok'
    obtain ⟨rfl, hB⟩ := Prod.mk.inj (Except.ok.inj (hok'.symm.trans hB'))
    refine ⟨rfl, g', ⟨⟨⟨ht, hB⟩, hx, .inl rfl, fun b _ hne => ?_⟩, fun b hle hlt => ?_⟩, ?_⟩
    · rw [hlog]
      exact if_neg hne
    · exact absurd (hlt.trans_eq hsame.size) (Nat.not_lt.mpr hle)
    · rw [hlog]
      exact if_pos rfl

/-- The value just computed is written to a variable, by a declaration or an assignment. -/
theorem FnContext.Logged.write (h : ctx.Logged g) (hs : ctx.Tame) (ho : ctx.Open) {scopes : List Scope}
    (hv : lastValue (g.log ctx.currentBlock) = some v) :
    Completes ctx g
      { ctx with builder := ctx.builder.writeVariable x ctx.currentBlock v, scopes := scopes }
      (g.write x ctx.currentBlock v) := by
  obtain ⟨ht, hx⟩ := h.tidy.write (h.lt hs) (h.term ho) x hv
  refine ⟨⟨⟨ht, by rw [← h.builder]; rfl⟩, hx, .inl rfl, fun b _ hne => if_neg hne⟩, fun b hle hlt => ?_⟩
  exact absurd hlt (Nat.not_lt.mpr hle)

theorem FnContext.Logged.writeLet (h : ctx.Logged g) (hs : ctx.Tame) (ho : ctx.Open)
    {value : ValueId × Ty} (hv : lastValue (g.log ctx.currentBlock) = some value.1) {u : Unit}
    (hok : Parser.writeLet x value ctx = .ok (u, c)) :
    c.currentBlock = ctx.currentBlock ∧ c.Open ∧
      Completes ctx g c (g.write x ctx.currentBlock value.1) := by
  obtain ⟨_, c₁, hdecl, hrest⟩ := act_bind.mp hok
  unfold declare at hdecl
  split at hdecl
  · cases hdecl
  · obtain ⟨-, rfl⟩ := Prod.mk.inj (Except.ok.inj hdecl)
    rw [act_run currentBlock_run] at hrest
    obtain ⟨-, rfl⟩ := Prod.mk.inj (Except.ok.inj hrest)
    exact ⟨rfl, ho, h.write hs ho hv⟩

theorem FnContext.Logged.writeAssign (h : ctx.Logged g) (hs : ctx.Tame) (ho : ctx.Open)
    {value : ValueId × Ty} (hv : lastValue (g.log ctx.currentBlock) = some value.1) {span : Lexer.Span}
    {u : Unit} (hok : Parser.writeAssign x value span ctx = .ok (u, c)) :
    c.currentBlock = ctx.currentBlock ∧ c.Open ∧
      Completes ctx g c (g.write x ctx.currentBlock value.1) := by
  have hget : (get : ActM FnContext) ctx = .ok (ctx, ctx) := rfl
  rw [Parser.writeAssign, act_run hget] at hok
  cases hname : lookupVar ctx.scopes x with
  | none =>
    rw [hname] at hok
    exact absurd hok Comp.fail_ne_ok
  | some expected =>
    rw [hname] at hok
    dsimp only at hok
    split at hok
    · exact absurd hok Comp.fail_ne_ok
    · obtain ⟨-, rfl⟩ := Prod.mk.inj (Except.ok.inj hok)
      exact ⟨rfl, ho, h.write hs ho hv⟩

/-- The current block gets a terminator without successors. -/
theorem FnContext.Logged.ret (h : ctx.Logged g) (hs : ctx.Tame) (ho : ctx.Open)
    (hsucc : t.successors = []) :
    Completes ctx g { ctx with builder := ctx.builder.terminated ctx.currentBlock t }
      (g.terminate ctx.currentBlock t) := by
  obtain ⟨ht, hx⟩ := h.tidy.terminate (h.lt hs) (h.term ho) (h.reach hs.reach) (t := t) fun s hm => by
    rw [hsucc] at hm
    cases hm
  refine ⟨⟨⟨ht, by rw [← h.builder]; rfl⟩, hx, .inl rfl, fun b _ _ => rfl⟩, fun b hle hlt => ?_⟩
  exact absurd (hlt.trans_eq (size_terminated t)) (Nat.not_lt.mpr hle)

end Basics

/-! ### Short-circuit operators -/

section ShortCircuit

variable {ctx c c' c₁ : FnContext} {g g' g'' : Ghost} {short : Bool} {lhs rval v : ValueId}
  {s : ShortCircuit}

/-- The blocks of a short-circuit operator: in the one for the case that the left operand decides, its
value is emitted. -/
theorem FnContext.Logged.openShort (h : ctx.Logged g) (hs : ctx.Settled) (ho : ctx.Open) (short : Bool)
    (lhs : ValueId) :
    ∃ g' : Ghost, g'.builder = ctx.builder.openedShort ctx.currentBlock short lhs ∧ g'.Tidy ∧
      Extends g g' ∧ ∀ b, g'.log b = if b = ctx.size
        then [.inst ⟨ctx.builder.nextValue, .bool, .constBool short⟩] else g.log b := by
  obtain ⟨h₁, hx₁⟩ := h.tidy.newBlock
  obtain ⟨h₂, hx₂⟩ := h₁.newBlock
  obtain ⟨h₃, hx₃⟩ := h₂.newBlock
  have hB₃ : g.newBlock.newBlock.newBlock.builder = ctx.builder.newBlock.2.newBlock.2.newBlock.2 := by
    rw [← h.builder]
    rfl
  obtain ⟨-, hfork, -⟩ := hs.sound.shortFork hs.here hs.reach short lhs
  obtain ⟨hs₄, hlt, hterm, hreach, hjoin⟩ := hs.sound.branched hs.here hs.reach short lhs
  have hopen : g.newBlock.newBlock.newBlock.term ctx.currentBlock = none := by
    rw [Ghost.term, hB₃, newBlock_termAt, newBlock_termAt, newBlock_termAt]
    exact hs.sound.isTerminated_iff.mp ho
  obtain ⟨g₄, hB₄, h₄, hx₄, hlog₄⟩ := h₃.fork (hB₃ ▸ hfork) hopen
  have hB₄ : g₄.builder = ctx.builder.branched ctx.currentBlock short lhs := by
    rw [hB₄, hB₃]
    rfl
  -- the constant
  have hlt₄ : ctx.size < g₄.size := by
    rw [Ghost.size, hB₄]
    exact hlt
  have hterm₄ : g₄.term ctx.size = none := by
    rw [Ghost.term, hB₄]
    exact hterm
  obtain ⟨h₅, hx₅⟩ := h₄.emit hlt₄ hterm₄ .bool (.constBool short) fun _ hk => nomatch hk
  have hB₅ : (g₄.emit ctx.size .bool (.constBool short)).builder =
      (ctx.builder.branched ctx.currentBlock short lhs).emitted ctx.size .bool (.constBool short) := by
    rw [← hB₄]
    rfl
  -- the jump to the join
  have hne : ctx.size + 2 ≠ ctx.size := Nat.ne_of_gt (Nat.lt_add_of_pos_right Nat.two_pos)
  have hfresh := hjoin.emitted hlt hne .bool (.constBool short)
  obtain ⟨h₆, hx₆⟩ := h₅.terminate (t := .jump (ctx.size + 2))
    (hlt₄.trans_eq (size_emitted .bool (.constBool short)).symm)
    ((termAt_emitted .bool (.constBool short)).trans hterm₄) (by rw [hB₅]; exact hreach)
    (forall_jump.mpr (by rw [Ghost.size, hB₅]; exact ⟨hfresh.lt, hfresh.ne_zero, hfresh.notSealed⟩))
  refine ⟨_, ?_, h₆, ((((hx₁.trans hx₂).trans hx₃).trans hx₄).trans hx₅).trans hx₆, fun b => ?_⟩
  · show (g₄.emit ctx.size .bool (.constBool short)).builder.terminated _ _ = _
    rw [hB₅]
    rfl
  · show (if b = ctx.size then g₄.log ctx.size ++ [.inst ⟨g₄.builder.nextValue, _, _⟩] else g₄.log b) = _
    have hnew : g.newBlock.newBlock.newBlock.log ctx.size = [] :=
      h.tidy.toSound.log_new (Nat.le_of_eq h.size)
    have hnext : g₄.builder.nextValue = ctx.builder.nextValue := by
      rw [hB₄]
      rfl
    rw [hlog₄, hnew, hnext]
    rfl

/-- The join of a short-circuit operator, with its phi. -/
theorem FnContext.Logged.closeShort (h : c.Logged g) (hj : s.Joining ctx c)
    (hpreds : c.builder.preds s.join = [s.shortBlock])
    (hshort : lastValue (g.log s.shortBlock) = some s.shortVal)
    (hr : lastValue (g.log c.currentBlock) = some rval) :
    ∃ g' : Ghost, g'.builder = c.builder.closedShort c.currentBlock s rval ∧ g'.Tidy ∧ Extends g g' ∧
      g'.term c.currentBlock = some (.jump s.join) ∧ ∀ b, g'.log b = if b = s.join
        then g.log b ++ [.inst ⟨c.builder.nextValue, .bool,
          .phi [(s.shortBlock, s.shortVal), (c.currentBlock, rval)]⟩]
        else g.log b := by
  have hlt : s.join < g.size := hj.lt.trans_eq h.size.symm
  have hseal : g.builder.isSealed s.join = false := by
    rw [h.builder]
    exact hj.notClosed
  have hhere := h.lt hj.tame
  -- the right operand ends with a jump to the join
  obtain ⟨h₁, hx₁⟩ := h.tidy.terminate hhere (h.term hj.isOpen) (h.reach hj.tame.reach)
    (t := .jump s.join) (forall_jump.mpr ⟨hlt, hj.ne_zero, hseal⟩)
  have hlt₁ : s.join < (g.terminate c.currentBlock (.jump s.join)).size :=
    hlt.trans_eq (size_terminated _).symm
  -- the join is sealed, and no phi waits there
  obtain ⟨g₂, hB₂, h₂, hx₂, hlog₂⟩ := h₁.sealed hlt₁ hseal (by
    show g.builder.incompletePhis s.join = []
    rw [h.builder]
    exact hj.nothing)
  have hB₂ : g₂.builder = (c.builder.terminated c.currentBlock (.jump s.join)).sealed s.join := by
    rw [hB₂, ← h.builder]
    rfl
  have hlt₂ : s.join < g₂.size := by
    rw [Ghost.size, hB₂]
    exact hj.lt.trans_eq (size_terminated _).symm
  have hterm₂ : ∀ b, g₂.term b =
      if b = c.currentBlock then some (.jump s.join) else c.builder.func.termAt b := by
    intro b
    rw [Ghost.term, hB₂]
    exact termAt_terminated hj.tame.here (.jump s.join)
  -- the phi, whose operands are the last values of the two predecessors
  obtain ⟨h₃, hx₃⟩ := h₂.emit hlt₂ (by
    rw [hterm₂, if_neg hj.ne]
    exact hj.tame.sound.isTerminated_iff.mp hj.notEnded) .bool
    (.phi [(s.shortBlock, s.shortVal), (c.currentBlock, rval)]) (by
      intro incoming hk
      obtain rfl := InstKind.phi.inj hk
      refine ⟨hj.ne_zero, by rw [hB₂]; exact if_pos rfl, ?_, fun e he => ?_⟩
      · -- the short block, and the end of the right operand
        rw [hB₂]
        show _ = (c.builder.terminated c.currentBlock (.jump s.join)).preds s.join
        rw [preds_terminated, hpreds]
        simp [Terminator.successors]
      · rw [hlog₂]
        show lastValue (g.log e.1) = some e.2
        rcases List.mem_cons.mp he with rfl | he
        · exact hshort
        · obtain rfl := List.mem_singleton.mp he
          exact hr)
  refine ⟨_, ?_, h₃, (hx₁.trans hx₂).trans hx₃, ?_, fun b => ?_⟩
  · show g₂.builder.emitted _ _ _ = _
    rw [hB₂]
    rfl
  · exact (termAt_emitted _ _).trans ((hterm₂ _).trans (if_pos rfl))
  · show (if b = s.join then g₂.log s.join ++ [.inst ⟨g₂.builder.nextValue, _, _⟩] else g₂.log b) = _
    have hnext : g₂.builder.nextValue = c.builder.nextValue := by
      rw [hB₂]
      rfl
    rw [hlog₂, hnext]
    split
    · next hb =>
      subst hb
      rfl
    · rfl

/-- A short-circuit operator that began in `ctx`, up to its right operand. -/
structure Begun (ctx : FnContext) (g : Ghost) (short : Bool) (lhs : ValueId) (c : FnContext)
    (g' : Ghost) : Prop extends Advances ctx g c g' where
  isHere : c.currentBlock = ctx.size + 1
  blocks : g'.size = ctx.size + 3
  logs : ∀ b, g'.log b = if b = ctx.size
    then [.inst ⟨ctx.builder.nextValue, .bool, .constBool short⟩] else g.log b
  branch : g'.term ctx.currentBlock = some (shortBranch short lhs ctx.size (ctx.size + 1))
  jump : g'.term ctx.size = some (.jump (ctx.size + 2))
  entered : c.builder.preds (ctx.size + 2) = [ctx.size]
  closed : ∀ b, b = ctx.size ∨ b = ctx.size + 1 → g'.builder.isSealed b = true

theorem FnContext.Logged.openShortCircuit (h : ctx.Logged g) (hs : ctx.Settled) (ho : ctx.Open)
    (short : Bool) (lhs : ValueId) :
    ∃ c g', Parser.openShortCircuit short lhs ctx =
      .ok (⟨ctx.size, ctx.builder.nextValue, ctx.size + 2⟩, c) ∧ Begun ctx g short lhs c g' := by
  obtain ⟨g', hB, ht, hx, hlog⟩ := h.openShort hs ho short lhs
  obtain ⟨hs₁, hc₁⟩ := hs.sound.newBlock
  obtain ⟨hs₂, hc₂⟩ := hs₁.newBlock
  obtain ⟨hs₃, hc₃⟩ := hs₂.newBlock
  obtain ⟨-, hfork, -⟩ := hs.sound.shortFork hs.here hs.reach short lhs
  obtain ⟨-, hlt, -, -, hjoin⟩ := hs.sound.branched hs.here hs.reach short lhs
  have hlt₅ : ctx.size < ((ctx.builder.branched ctx.currentBlock short lhs).emitted ctx.size .bool
      (.constBool short)).size := hlt.trans_eq (size_emitted .bool (.constBool short)).symm
  have hsealed : ∀ b, g'.builder.isSealed b =
      if b = ctx.size + 1 then true else if b = ctx.size then true else ctx.builder.isSealed b := by
    rw [hB]
    exact fun _ => rfl
  refine ⟨_, g', Backend.standard_follows.openShortCircuit_eq hs ho short lhs,
    (Advances.refl h).enter ⟨ht, hB⟩ hx (fun b hb => ?_) (h.size.trans_le (Nat.le_succ _)), rfl, ?_, hlog,
    ?_, ?_, ?_, fun b hb => ?_⟩
  · rw [hlog, if_neg (Nat.ne_of_lt (hb.trans_eq h.size))]
  · rw [Ghost.size, hB]
    refine (size_terminated _).trans ((size_emitted _ _).trans ((size_terminated _).trans ?_))
    exact ((hc₁.trans hc₂).trans hc₃).size
  · rw [Ghost.term, hB]
    refine (termAt_terminated hlt₅ _).trans ?_
    rw [if_neg (Nat.ne_of_lt hs.here), termAt_emitted]
    exact (hfork.termAt _).trans (if_pos rfl)
  · rw [Ghost.term, hB]
    exact (termAt_terminated hlt₅ _).trans (if_pos rfl)
  · show (SsaBuilder.terminated _ _ _).preds (ctx.size + 2) = _
    rw [preds_terminated]
    show (ctx.builder.branched ctx.currentBlock short lhs).preds (ctx.size + 2) ++ _ = _
    rw [hjoin.noPreds]
    simp [Terminator.successors]
  · rw [hsealed]
    rcases hb with rfl | rfl
    · rw [if_neg (Nat.ne_of_lt (Nat.lt_succ_self _)), if_pos rfl]
    · rw [if_pos rfl]

/-- The operator after its right operand: the two ways meet in the join, which has a phi. -/
theorem Begun.close (hl : ctx.Logged g) (h : Begun ctx g short lhs c g') (h' : Completes c g' c' g'')
    (hj : ShortCircuit.Joining ⟨ctx.size, ctx.builder.nextValue, ctx.size + 2⟩ ctx c') (hv : Valued c c')
    (hr : lastValue (g''.log c'.currentBlock) = some rval)
    (hok : Parser.closeShortCircuit ⟨ctx.size, ctx.builder.nextValue, ctx.size + 2⟩ rval c' = .ok (v, c₁)) :
    ∃ G, Completes ctx g c₁ G ∧ Extends g'' G ∧ c₁.currentBlock = ctx.size + 2 ∧
      G.term c'.currentBlock = some (.jump (ctx.size + 2)) ∧
      G.log c'.currentBlock = g''.log c'.currentBlock ∧
      G.log (ctx.size + 2) = [.inst ⟨v, .bool,
        .phi [(ctx.size, ctx.builder.nextValue), (c'.currentBlock, rval)]⟩] := by
  have hopen := hj.tame.sound.isTerminated_iff.mp hj.isOpen
  obtain ⟨hst, -, -⟩ := hj.sealed
  have hlt : ctx.size + 2 < (c'.builder.terminated c'.currentBlock (.jump (ctx.size + 2))).size :=
    hj.lt.trans_eq (size_terminated _).symm
  have hrun : Parser.closeShortCircuit ⟨ctx.size, ctx.builder.nextValue, ctx.size + 2⟩ rval c' =
      .ok (c'.builder.nextValue, { c' with
        builder := c'.builder.closedShort c'.currentBlock
          ⟨ctx.size, ctx.builder.nextValue, ctx.size + 2⟩ rval
        currentBlock := ctx.size + 2 }) := by
    have hjump := terminate_explicit c' hj.tame.sound hj.tame.here (.jump (ctx.size + 2))
    have hseal := Backend.standard_follows.sealed (c'.withBuilder (c'.builder.terminated c'.currentBlock
      (.jump (ctx.size + 2)))) (hj.tame.sound.terminated hj.tame.here hj.tame.reach
        (forall_jump.mpr ⟨hj.lt, hj.ne_zero, hj.notClosed⟩)) hlt hj.notClosed hj.nothing
    have hphi := emit_explicit (c'.withBuilder ((c'.builder.terminated c'.currentBlock
      (.jump (ctx.size + 2))).sealed (ctx.size + 2))) hst.sound hlt .bool
      (.phi [(ctx.size, ctx.builder.nextValue), (c'.currentBlock, rval)])
    exact (act_run currentBlock_run).trans <| (act_run hjump).trans <| (act_run hseal).trans <|
      act_run hphi
  obtain ⟨rfl, rfl⟩ := Prod.mk.inj (Except.ok.inj (hok.symm.trans hrun))
  -- the short block is finished, and nothing has happened in the join
  have hshort : lastValue (g''.log ctx.size) = some ctx.builder.nextValue := by
    rw [(h'.toExtends.finished h.jump).2, h.logs, if_pos rfl]
    rfl
  have hlt' : ctx.size + 2 < g'.size := (Nat.lt_succ_self _).trans_eq h.blocks.symm
  have hempty : g''.log (ctx.size + 2) = [] := by
    have hne : ctx.size + 2 ≠ c.currentBlock := by
      rw [h.isHere]
      exact Nat.ne_of_gt (Nat.lt_succ_self _)
    rw [h'.others _ hlt' hne, h.logs, if_neg (Nat.ne_of_gt (Nat.lt_add_of_pos_right Nat.two_pos))]
    exact hl.tidy.toSound.log_new (hl.size.trans_le (Nat.le_add_right _ _))
  have hpreds : c'.builder.preds (ctx.size + 2) = [ctx.size] := by
    rw [hv.since.preds _ (hlt'.trans_eq h.toLogged.size), h.entered]
  obtain ⟨G, hB, ht, hx, hterm, hlog⟩ := h'.toLogged.closeShort hj hpreds hshort hr
  refine ⟨G, ⟨(h.toAdvances.trans h'.toAdvances).enter ⟨ht, hB⟩ hx (fun b hb => ?_) ?_, fun b hle hlt => ?_⟩,
    hx, rfl, hterm, (hlog _).trans (if_neg hj.ne.symm), ?_⟩
  · rw [hlog, if_neg (Nat.ne_of_lt (hb.trans_le (hl.size.trans_le (Nat.le_add_right _ _))))]
  · exact hl.size.trans_le (Nat.le_add_right _ _)
  · -- the three blocks of the operator, and those of its right operand
    have hsize : G.size = g''.size := by
      rw [Ghost.size, hB, h'.toLogged.size]
      exact (size_emitted _ _).trans (size_terminated _)
    rw [hl.size] at hle
    rw [hsize] at hlt
    by_cases hnew : b < g'.size
    · rw [h.blocks] at hnew
      by_cases hjoin : b = ctx.size + 2
      · subst hjoin
        rw [hB]
        exact if_pos rfl
      · exact ((h'.toExtends.trans hx).isSealed b (h.closed b (by omega))).1
    · exact (hx.isSealed b (h'.closed b (Nat.not_lt.mp hnew) hlt)).1
  · rw [hlog, if_pos rfl, hempty]
    rfl

end ShortCircuit

/-! ### Conditionals -/

section If

variable {ctx c c' : FnContext} {g g' g'' : Ghost} {b join thenTail : BlockId}

/-- The branch of an `if`, to two new blocks. -/
theorem FnContext.Logged.openIf (h : ctx.Logged g) (hs : ctx.Settled) (ho : ctx.Open) (cond : ValueId) :
    ∃ c g', Parser.openIf cond ctx = .ok (ctx.size + 1, c) ∧ c.currentBlock = ctx.size ∧
      Completes ctx g c g' ∧ g'.log = g.log ∧
      g'.term ctx.currentBlock = some (.branch cond ctx.size (ctx.size + 1)) := by
  obtain ⟨hs₁, hc₁⟩ := hs.sound.newBlock
  obtain ⟨hs₂, hc₂⟩ := hs₁.newBlock
  have hfork := hs.sound.fork (t := .branch cond ctx.size (ctx.size + 1)) hs.here hs.reach (.inl rfl)
  have hrun := Backend.standard_follows.fork (ctx.withBuilder ctx.builder.newBlock.2.newBlock.2) hs₂ hfork
    rfl fun _ => do
      enterBlock ctx.size
      return ctx.size + 1
  have hok : Parser.openIf cond ctx = .ok (ctx.size + 1, { ctx with
      builder := ctx.builder.newBlock.2.newBlock.2.forked ctx.currentBlock
        (.branch cond ctx.size (ctx.size + 1)) ctx.size (ctx.size + 1)
      currentBlock := ctx.size }) :=
    (act_run (newBlock_run rfl)).trans <| (act_run (newBlock_run hc₁.size)).trans <|
      (act_run currentBlock_run).trans hrun
  obtain ⟨h₁, hx₁⟩ := h.tidy.newBlock
  obtain ⟨h₂, hx₂⟩ := h₁.newBlock
  have hB₂ : g.newBlock.newBlock.builder = ctx.builder.newBlock.2.newBlock.2 := by
    rw [← h.builder]
    rfl
  have hopen : g.newBlock.newBlock.term ctx.currentBlock = none := by
    rw [Ghost.term, hB₂, newBlock_termAt, newBlock_termAt]
    exact hs.sound.isTerminated_iff.mp ho
  obtain ⟨g₃, hB₃, h₃, hx₃, hlog⟩ := h₂.fork (hB₂ ▸ hfork) hopen
  rw [hB₂] at hB₃
  refine ⟨_, g₃, hok, rfl, ?_, hlog, ?_⟩
  · refine (Completes.refl h).enter ⟨h₃, hB₃⟩ ((hx₁.trans hx₂).trans hx₃)
      (fun b _ => congrFun hlog b) (Nat.le_of_eq h.size) fun b hle hlt => ?_
    -- the two targets
    have hsize : g₃.size = ctx.size + 2 := by
      rw [Ghost.size, hB₃]
      exact (size_terminated _).trans (hc₁.trans hc₂).size
    rw [h.size] at hle
    rw [hB₃, Fork.sealed_apply]
    split
    · rfl
    · next hne =>
      have hne : b ≠ ctx.size + 1 := hne
      exact if_pos (show b = ctx.size by omega)
  · rw [Ghost.term, hB₃]
    exact (hfork.termAt _).trans (if_pos rfl)

/-- A jump to the join, unless the block has a terminator. -/
theorem Ghost.Tidy.jumped (h : g.Tidy) (hj : g.builder.Jump b join) :
    ∃ g' : Ghost, g'.builder = g.builder.jumped (g.builder.isTerminated b) b join ∧ g'.Tidy ∧
      Extends g g' ∧ g'.log = g.log ∧ (g.term b = none → g'.term b = some (.jump join)) := by
  have hterm : g.builder.isTerminated b = false ↔ g.term b = none :=
    SsaBuilder.Sound.isTerminated_iff ⟨g, h.toSound, rfl⟩
  unfold SsaBuilder.jumped
  split
  · next hopen =>
    obtain ⟨h₁, hx⟩ := h.terminate hj.lt (hterm.mp hopen) hj.reach hj.ready
    exact ⟨g.terminate b (.jump join), rfl, h₁, hx, rfl, fun _ =>
      (termAt_terminated hj.lt _).trans (if_pos rfl)⟩
  · next hended => exact ⟨g, rfl, h, .refl, rfl, fun ht => absurd (hterm.mpr ht) hended⟩

/-- The join of two arms of which one goes on. -/
theorem FnContext.Logged.joinArms (h : c.Logged g) (hs : c.Settled)
    (hthen : thenTail < c.size ∧ c.builder.Reach thenTail) (hne : thenTail ≠ c.currentBlock) :
    ∃ g' : Ghost, g'.builder = (c.builder.joined thenTail c.currentBlock).sealed c.size ∧ g'.Tidy ∧
      Extends g g' ∧ g'.log = g.log ∧
      (c.builder.isTerminated thenTail = false → g'.term thenTail = some (.jump c.size)) ∧
      (c.Open → g'.term c.currentBlock = some (.jump c.size)) := by
  obtain ⟨hj₁, hj₂, htt, het⟩ := hs.steady.jumps hthen ⟨hs.here, hs.reach⟩ hne
  obtain ⟨hlt, hnot, hnil⟩ := hs.steady.join_new thenTail c.currentBlock
  obtain ⟨h₁, hx₁⟩ := h.tidy.newBlock
  have hB₁ : g.newBlock.builder = c.builder.newBlock.2 := by
    rw [← h.builder]
    rfl
  obtain ⟨g₂, hB₂, h₂, hx₂, hlog₂, hterm₂⟩ := h₁.jumped (hB₁ ▸ hj₁)
  rw [hB₁, htt] at hB₂
  obtain ⟨g₃, hB₃, h₃, hx₃, hlog₃, hterm₃⟩ := h₂.jumped (hB₂ ▸ hj₂)
  rw [hB₂, het] at hB₃
  change g₃.builder = c.builder.joined thenTail c.currentBlock at hB₃
  obtain ⟨g₄, hB₄, h₄, hx₄, hlog₄⟩ := h₃.sealed (b := c.size) (by rw [Ghost.size, hB₃]; exact hlt)
    (by rw [hB₃]; exact hnot) (by rw [hB₃]; exact hnil)
  have hopen : ∀ {b}, c.builder.isTerminated b = false → g.newBlock.term b = none := by
    intro b hb
    rw [Ghost.term, hB₁, newBlock_termAt]
    exact hs.sound.isTerminated_iff.mp hb
  refine ⟨g₄, by rw [hB₄, hB₃], h₄, ((hx₁.trans hx₂).trans hx₃).trans hx₄,
    hlog₄.trans (hlog₃.trans hlog₂), fun ht => ?_, fun ho => ?_⟩
  · exact (hx₃.trans hx₄).ended _ _ (hterm₂ (hopen ht))
  · refine hx₄.ended _ _ (hterm₃ ?_)
    rw [Ghost.term, hB₂]
    exact (termAt_jumped _ hj₁.lt hne.symm).trans (hB₁ ▸ hopen ho)

/-- The end of an `if` that began in `ctx`: the current block is a new one, to which the arms jump
that go on, if there is one. -/
theorem Completes.closeIf (h : Completes ctx g c g') (hs : c.Settled)
    (hthen : thenTail < c.size ∧ c.builder.Reach thenTail) (hne : thenTail ≠ c.currentBlock)
    (hnew : g.size ≤ thenTail)
    (hok : Parser.closeIf thenTail (c.builder.isTerminated thenTail)
      (c.builder.isTerminated c.currentBlock) c = .ok ((), c')) :
    ∃ g'', Completes ctx g c' g'' ∧ Extends g' g'' ∧ g''.log = g'.log ∧
      (c.builder.isTerminated thenTail = false → g''.log c'.currentBlock = [] ∧ c'.Open ∧
        g''.term thenTail = some (.jump c'.currentBlock)) ∧
      (c.Open → g''.log c'.currentBlock = [] ∧ c'.Open ∧
        g''.term c.currentBlock = some (.jump c'.currentBlock)) := by
  by_cases hboth : c.builder.isTerminated thenTail = true ∧ c.builder.isTerminated c.currentBlock = true
  · -- no join
    have hrun : Parser.closeIf thenTail (c.builder.isTerminated thenTail)
        (c.builder.isTerminated c.currentBlock) c = .ok ((), { c with currentBlock := thenTail }) := by
      rw [hboth.1, hboth.2]
      rfl
    obtain ⟨-, rfl⟩ := Prod.mk.inj (Except.ok.inj (hok.symm.trans hrun))
    refine ⟨g', h.enter ⟨h.tidy, h.builder⟩ .refl (fun _ _ => rfl) hnew fun b hle hlt =>
      absurd hlt (Nat.not_lt.mpr hle), .refl, rfl, fun ht => ?_, fun ho => ?_⟩
    · exact absurd hboth.1 (Bool.eq_false_iff.mp ht)
    · exact absurd hboth.2 (Bool.eq_false_iff.mp ho)
  · -- a new block, into which every arm that goes on jumps
    have hrun := Backend.standard_follows.joinArms hs hthen hne hboth
    obtain ⟨-, rfl⟩ := Prod.mk.inj (Except.ok.inj (hok.symm.trans hrun))
    obtain ⟨g'', hB, ht, hx, hlog, hterm₁, hterm₂⟩ := h.toLogged.joinArms hs hthen hne
    have hempty : g''.log c.size = [] := by
      rw [hlog]
      exact h.tidy.toSound.log_new (Nat.le_of_eq h.toLogged.size)
    obtain ⟨hj₁, hj₂, -, -⟩ := hs.steady.jumps hthen ⟨hs.here, hs.reach⟩ hne
    have hfresh := hs.sound.newBlock_fresh
    have hopen : FnContext.Open { c with
        builder := (c.builder.joined thenTail c.currentBlock).sealed c.size
        currentBlock := c.size } := by
      refine (SsaBuilder.Sound.isTerminated_iff ⟨g'', ht.toSound, hB⟩).mpr ?_
      show (c.builder.joined thenTail c.currentBlock).func.termAt c.size = none
      rw [SsaBuilder.joined, termAt_jumped _ hj₂.lt (Nat.ne_of_gt hs.here),
        termAt_jumped _ hj₁.lt (Nat.ne_of_gt hthen.1)]
      exact hfresh.open_
    refine ⟨g'', h.enter ⟨ht, hB⟩ hx (fun b _ => congrFun hlog b) ?_ fun b hle hlt => ?_, hx, hlog,
      fun ho => ⟨hempty, hopen, hterm₁ ho⟩, fun ho => ⟨hempty, hopen, hterm₂ ho⟩⟩
    · exact h.size.trans_eq h.toLogged.size
    · have hsize : g''.size = c.size + 1 := by
        rw [Ghost.size, hB]
        show (c.builder.joined thenTail c.currentBlock).size = _
        rw [SsaBuilder.joined, size_jumped, size_jumped]
        exact hs.sound.newBlock.2.size
      have hb : b = c.size := by
        rw [h.toLogged.size] at hle
        omega
      rw [hB]
      exact if_pos hb

end If

/-! ### Loops -/

section While

variable {ctx c c' : FnContext} {g g' : Ghost} {header exit : BlockId}

/-- The header of a loop, and the jump to it. -/
theorem FnContext.Logged.openWhile (h : ctx.Logged g) (hs : ctx.Settled) (ho : ctx.Open) :
    ∃ c g', Parser.openWhile ctx = .ok (ctx.size, c) ∧ c.currentBlock = ctx.size ∧
      Advances ctx g c g' ∧ g'.log = g.log ∧ g'.size = ctx.size + 1 ∧
      g'.term ctx.currentBlock = some (.jump ctx.size) := by
  obtain ⟨hs₁, hc₁⟩ := hs.sound.newBlock
  have hfresh := hs.sound.newBlock_fresh
  have hlt : ctx.currentBlock < ctx.builder.newBlock.2.size := hc₁.lt hs.here
  have hopen : ctx.builder.newBlock.2.func.termAt ctx.currentBlock = none := by
    rw [newBlock_termAt]
    exact hs.sound.isTerminated_iff.mp ho
  have hterm := Backend.standard_follows.terminated (ctx.withBuilder ctx.builder.newBlock.2) hs₁ hlt hopen
    (.jump ctx.size)
  have hok : Parser.openWhile ctx = .ok (ctx.size, { ctx with
      builder := ctx.builder.newBlock.2.terminated ctx.currentBlock (.jump ctx.size)
      currentBlock := ctx.size }) :=
    (act_run (newBlock_run rfl)).trans <| (act_run currentBlock_run).trans (act_run hterm)
  obtain ⟨h₁, hx₁⟩ := h.tidy.newBlock
  have hB₁ : g.newBlock.builder = ctx.builder.newBlock.2 := by
    rw [← h.builder]
    rfl
  have hlt₁ : ctx.currentBlock < g.newBlock.size := by
    rw [Ghost.size, hB₁]
    exact hlt
  obtain ⟨h₂, hx₂⟩ := h₁.terminate hlt₁ (by rw [Ghost.term, hB₁]; exact hopen)
    (by rw [hB₁]; exact hc₁.reach _ hs.reach) (t := .jump ctx.size) (forall_jump.mpr (by
      rw [Ghost.size, hB₁]
      exact ⟨hfresh.lt, hfresh.ne_zero, hfresh.notSealed⟩))
  refine ⟨_, _, hok, rfl, (Advances.refl h).enter ⟨h₂, ?_⟩ (hx₁.trans hx₂) (fun _ _ => rfl)
    (Nat.le_of_eq h.size), rfl, ?_, ?_⟩
  · show g.newBlock.builder.terminated _ _ = _
    rw [hB₁]
  · show (g.newBlock.builder.terminated _ _).size = _
    rw [hB₁, size_terminated]
    exact hc₁.size
  · exact (termAt_terminated hlt₁ _).trans (if_pos rfl)

/-- The branch of a loop is that of an `if` if the condition has ended in the header. -/
theorem openBody_here (cond : ValueId) : openBody c.currentBlock cond c = Parser.openIf cond c := rfl

/-- The end of a loop: its body jumps to the header, unless it returns, and the header is sealed. -/
theorem FnContext.Logged.closeWhile (h : c.Logged g) (hl : Circling header exit ctx c)
    (hok : Parser.closeWhile header exit c = .ok ((), c')) :
    ∃ g', c'.Logged g' ∧ Extends g g' ∧ g'.log = g.log ∧ g'.size = g.size ∧ c'.currentBlock = exit ∧
      g'.builder.isSealed header = true ∧
      (c.Open → g'.term c.currentBlock = some (.jump header)) := by
  have ht := hl.settled
  have hjump : c.builder.Jump c.currentBlock header :=
    ⟨ht.here, ht.reach, hl.lt, hl.ne_zero, hl.notClosed, .inr hl.dominated⟩
  obtain ⟨g₁, hB₁, h₁, hx₁, hlog₁, hterm₁⟩ := h.tidy.jumped (h.builder ▸ hjump)
  rw [h.builder] at hB₁
  have hst₁ : g₁.builder.Steady := hB₁ ▸ ht.steady.jumped hjump _
  have hsize₁ : g₁.size = g.size := by
    rw [Ghost.size, hB₁, h.size]
    exact size_jumped _
  have hlt : header < g₁.size := by
    rw [hsize₁, h.size]
    exact hl.lt
  have hnot : g₁.builder.isSealed header = false := by
    rw [hB₁, isSealed_jumped, hl.notClosed]
  obtain ⟨g₂, hok₂, h₂, hx₂, hsize₂, -, -, hseal, hlog₂⟩ :=
    h₁.sealBlock (ε := ParseError) hlt hnot (hst₁.grounded header)
  have hjumped := Backend.standard_follows.jumpUnless c header ht.sound ht.here
  rw [← hB₁] at hjumped
  have hrun : Parser.closeWhile header exit c =
      .ok ((), { c with builder := g₂.builder, currentBlock := exit }) := by
    refine (congrFun (Backend.standard.closeWhile_eq) c).trans ?_
    exact (act_run currentBlock_run).trans <| (act_run (isTerminated_run _)).trans <|
      (act_run hjumped).trans (act_run (sealBlock_run hok₂))
  obtain ⟨-, rfl⟩ := Prod.mk.inj (Except.ok.inj (hok.symm.trans hrun))
  refine ⟨g₂, ⟨h₂, rfl⟩, hx₁.trans hx₂, hlog₂.trans hlog₁, hsize₂.trans hsize₁, rfl, ?_, fun ho => ?_⟩
  · rw [hseal]
    exact if_pos rfl
  · exact hx₂.ended _ _ (hterm₁ (h.term ho))

end While

end Parser
end Chakobsa
