import Chakobsa.Ir.Validate
import Chakobsa.Parser.LoopHeaders

/-!
# Loops that are not accepted

The parser ends a loop whose condition has a short-circuit operator in the wrong block: the branch goes
to the header, although the condition is known only in the join of the operator, and the join never
gets a terminator. The block is left behind (`LeftBehind`), and nothing that follows it reaches it, so
that `validate_module` accepts no module with such a loop (`validateModule_rejects`).
-/

namespace Chakobsa
namespace Parser

open Ir Lexer Chakobsa.Comp ExceptLemmas FnContext SsaBuilder

/-! ### Blocks that are left behind -/

/-- A block that has been set up since `ctx` is not the current one and has no terminator. -/
def LeftBehind (ctx c : FnContext) : Prop := ∃ p, Waiting p ctx c

section LeftBehind

variable {ctx ctx' c c' : FnContext} {header exit thenTail p : BlockId}

/-- It stays behind. -/
theorem LeftBehind.later (h : LeftBehind ctx c) (hl : Later c c') : LeftBehind ctx c' := by
  obtain ⟨p, hp⟩ := h
  exact ⟨p, hp.trans hl⟩

theorem LeftBehind.since (hl : Later ctx ctx') (h : LeftBehind ctx' c) : LeftBehind ctx c := by
  obtain ⟨p, hp⟩ := h
  exact ⟨p, hl.trans hp.toLater, hl.size.trans hp.new, hp.lt, hp.ne, hp.notEnded, hp.reached⟩

/-- The builder of a loop whose branch stands in the header. -/
theorem openBody_changed (h : Looping header ctx c) (ht : c.Tame) (cond : ValueId) :
    ∃ B' closed, openBody header cond c =
        .ok (c.size + 1, { c with builder := B', currentBlock := c.size }) ∧
      Changed c.builder B' 2 [header] closed := by
  have hfresh := fun i : ℕ => ht.sound.fresh (Nat.le_add_right c.size i)
  -- the body and the exit are the two new blocks, neither of them sealed
  obtain ⟨hs₁, h₁⟩ := ht.sound.newBlock
  obtain ⟨hs₂, h₂⟩ := hs₁.newBlock
  have hc₂ := h₁.trans h₂
  have hready : ∀ s ∈ (Terminator.branch cond c.size (c.size + 1)).successors,
      s < c.builder.newBlock.2.newBlock.2.size ∧ s ≠ 0 ∧
        c.builder.newBlock.2.newBlock.2.isSealed s = false := by
    intro s hs
    have hs : s = c.size + 0 ∨ s = c.size + 1 := by simpa [Terminator.successors] using hs
    rcases hs with rfl | rfl
    · exact ⟨hc₂.lt_add (by decide), (hfresh 0).2.2, hc₂.not_closed (hfresh 0).2.1 (by simp)⟩
    · exact ⟨hc₂.lt_add (by decide), (hfresh 1).2.2, hc₂.not_closed (hfresh 1).2.1 (by simp)⟩
  -- the branch closes the header, and only then the two are sealed
  obtain ⟨B₃, hok₃, hs₃, h₃, -⟩ := hs₂.terminate (ε := ParseError) (hc₂.lt h.lt) (hc₂.reach _ h.reached) hready
  have hc₃ := hc₂.trans h₃
  obtain ⟨B₄, hok₄, hs₄, h₄⟩ := hs₃.sealBlock (ε := ParseError) (b := c.size)
    (hc₃.lt_add (i := 0) (by decide)) (hc₃.not_closed (hfresh 0).2.1 (by simp))
  have hc₄ := hc₃.trans h₄
  obtain ⟨B₅, hok₅, -, h₅⟩ := hs₄.sealBlock (ε := ParseError) (b := c.size + 1)
    (hc₄.lt_add (by decide)) (hc₄.not_closed (hfresh 1).2.1 (by simp))
  refine ⟨B₅, _, ?_, hc₄.trans h₅⟩
  exact (act_run (newBlock_run rfl)).trans <| (act_run (newBlock_run h₁.size)).trans <|
    (act_run (terminate_run hok₃)).trans <| (act_run (sealBlock_run hok₄)).trans <|
    (act_run (sealBlock_run hok₅)).trans rfl

/-- The block a condition ends in is left behind if it is not the header. -/
theorem openBody_leftBehind (h : Looping header ctx c) (ht : c.Tame) (ho : c.Open)
    (hnew : ctx.size ≤ c.currentBlock) (hne : c.currentBlock ≠ header) {cond : ValueId}
    (hl : Later ctx c') (hok : openBody header cond c = .ok (exit, c')) :
    Waiting c.currentBlock ctx c' ∧ c.currentBlock ≠ exit := by
  obtain ⟨B', closed, hok', hch⟩ := openBody_changed h ht cond
  obtain ⟨rfl, rfl⟩ := Prod.mk.inj (Except.ok.inj (hok'.symm.trans hok))
  -- the branch is written to the header, so the current block stays as it was
  refine ⟨⟨hl, hnew, hch.lt ht.here, Nat.ne_of_lt ht.here, hch.not_ended ho (by simpa using hne),
    hch.reach _ ht.reach⟩, Nat.ne_of_lt (Nat.lt_succ_of_lt ht.here)⟩

/-- What follows a loop does not matter for its end. -/
theorem closeWhile_enter (header exit exit' : BlockId) :
    closeWhile header exit' = (do
      closeWhile header exit
      enterBlock exit') := by
  simp only [closeWhile_eq, bind_assoc]
  rfl

theorem waiting_closeWhile (hp : Waiting p ctx c) (h : Looping header ctx c) (ht : c.Tame) (hne : p ≠ exit)
    (hl : Later ctx c') (hok : closeWhile header exit c = .ok ((), c')) : Waiting p ctx c' := by
  -- if the loop went on in `p`, that block would be open
  obtain ⟨c₁, hok₁, ht₁, hopen, -⟩ := closeWhile_run h hp ht
  have hexit : closeWhile header exit c = .ok ((), { c₁ with currentBlock := exit }) := by
    rw [closeWhile_enter header p exit, act_run hok₁]
    rfl
  have hhere : c₁ = { c₁ with currentBlock := p } := by
    have hagain : closeWhile header p c = .ok ((), { c₁ with currentBlock := p }) := by
      rw [closeWhile_enter header p p, act_run hok₁]
      rfl
    exact (Prod.mk.inj (Except.ok.inj (hok₁.symm.trans hagain))).2
  have hp₁ : c₁.currentBlock = p := by rw [hhere]
  obtain ⟨-, rfl⟩ := Prod.mk.inj (Except.ok.inj (hexit.symm.trans hok))
  exact ⟨hl, hp.new, hp₁ ▸ ht₁.here, hne, hp₁ ▸ hopen, hp₁ ▸ ht₁.reach⟩

/-- The ends of the arms are the only blocks that get a terminator at the end of an `if`. -/
theorem waiting_closeIf {elseTerminated : Bool} (hp : Waiting p ctx c) (ht : c.Tame)
    (hthen : thenTail < c.size ∧ c.builder.Reach thenTail) (hne : p ≠ thenTail) (hl : Later ctx c')
    (hok : closeIf thenTail (c.builder.isTerminated thenTail) elseTerminated c = .ok ((), c')) :
    Waiting p ctx c' := by
  by_cases hboth : c.builder.isTerminated thenTail = true ∧ elseTerminated = true
  -- both arms have returned: no join is made
  · rw [hboth.1, hboth.2] at hok
    obtain ⟨-, rfl⟩ := Prod.mk.inj (Except.ok.inj hok)
    exact ⟨hl, hp.new, hp.lt, hne, hp.notEnded, hp.reached⟩
  · rw [closeIf_eq hboth] at hok
    -- a join is made, and the arms that go on jump there
    have hfresh := ht.sound.fresh (Nat.le_refl c.size)
    obtain ⟨hs₁, h₁⟩ := ht.sound.newBlock
    obtain ⟨B₂, hok₂, hs₂, h₂, -⟩ := jumpUnless_run (c.builder.isTerminated thenTail) c.size
      (show ({ c with builder := c.builder.newBlock.2 } : FnContext).builder.Sound from hs₁)
      (h₁.lt hthen.1) (h₁.reach _ hthen.2)
      ⟨h₁.lt_add (i := 0) (by decide), hfresh.2.2, h₁.not_closed hfresh.2.1 (by simp)⟩
    have hc₂ := h₁.trans h₂
    obtain ⟨B₃, hok₃, hs₃, h₃, -⟩ := jumpUnless_run elseTerminated c.size
      (show ({ c with builder := B₂ } : FnContext).builder.Sound from hs₂) (hc₂.lt ht.here)
      (hc₂.reach _ ht.reach)
      ⟨hc₂.lt_add (i := 0) (by decide), hfresh.2.2, hc₂.not_closed hfresh.2.1 (by simp)⟩
    have hc₃ := hc₂.trans h₃
    obtain ⟨B₄, hok₄, -, h₄⟩ := hs₃.sealBlock (ε := ParseError) (b := c.size)
      (hc₃.lt_add (i := 0) (by decide)) (hc₃.not_closed hfresh.2.1 (by simp))
    have hc₄ := hc₃.trans h₄
    rw [act_run currentBlock_run, act_run (newBlock_run rfl), act_run hok₂, act_run hok₃,
      act_run (sealBlock_run hok₄)] at hok
    obtain ⟨-, rfl⟩ := Prod.mk.inj (Except.ok.inj hok)
    refine ⟨hl, hp.new, hc₄.lt hp.lt, Nat.ne_of_lt hp.lt, hc₄.not_ended hp.notEnded fun hm => ?_,
      hc₄.reach _ hp.reached⟩
    simp only [List.nil_append, List.append_nil, List.mem_append] at hm
    -- an arm jumps from its own end, which is not `p`
    rcases hm with hm | hm
    · split at hm
      · exact hne (List.mem_singleton.mp hm)
      · cases hm
    · split at hm
      · exact hp.ne (List.mem_singleton.mp hm)
      · cases hm

end LeftBehind

/-! ### Statements that are not plain -/

/-- A statement that is not plain leaves a block behind. -/
def StmtLeaves (s : Stmt) : Prop :=
  ∀ ⦃ctx⦄, ctx.Settled → ctx.Open → s.plain = false → ∀ ⦃u c⦄, elabStmt s ctx = .ok (u, c) →
    LeftBehind ctx c

def StmtsLeave (ss : List Stmt) : Prop :=
  ∀ ⦃ctx⦄, ctx.Settled → ctx.Open → stmtsPlain ss = false → ∀ ⦃u c⦄, elabStmts ss ctx = .ok (u, c) →
    LeftBehind ctx c

def ElseLeaves (els : Else) : Prop :=
  ∀ ⦃ctx⦄, ctx.Settled → ctx.Open → els.plain = false → ∀ ⦃ended c⦄, elabElse els ctx = .ok (ended, c) →
    LeftBehind ctx c

section Leaves

variable {ctx c : FnContext}

theorem leaves_block {ss : List Stmt} (h : StmtsLeave ss) (hset : ctx.Settled) (ho : ctx.Open)
    (hp : stmtsPlain ss = false) {u : Unit} (hok : inScope (elabStmts ss) ctx = .ok (u, c)) :
    LeftBehind ctx c := by
  obtain ⟨hw, -⟩ := walked_block (walked_stmts ss) hset ho hok
  obtain ⟨c₁, hok₁, rfl⟩ := inScope_ok hok
  obtain ⟨p, hwait⟩ := h hset.scope ho hp hok₁
  -- the end of the block changes the scopes and nothing that is said of `p`
  exact ⟨p, hw.toLater, hwait.new, hwait.lt, hwait.ne, hwait.notEnded, hwait.reached⟩

/-- What an arm leaves behind is no end of an arm. -/
theorem leaves_if {e : Expr} {thn : List Stmt} {els : Else} (hthn : StmtsLeave thn)
    (hels : ElseLeaves els) (hset : ctx.Settled) (ho : ctx.Open)
    (hp : (stmtsPlain thn && els.plain) = false) {u : Unit}
    (hok : elabIf (elabExpr e) (inScope (elabStmts thn)) (elabElse els) ctx = .ok (u, c)) :
    LeftBehind ctx c := by
  obtain ⟨hw, -⟩ := walked_if (walked_stmts thn) (walked_else els) hset ho hok
  obtain ⟨v, c₁, hok₁, hrest₁⟩ := typed_ok hok fun _ _ => rfl
  have hv := (traced_expr e hset ho hok₁).toValued
  obtain ⟨elseBlock, c₂, -, hok₂, hbr⟩ := Backend.standard_follows.openIf hv.settled hv.isOpen v
  rw [act_run hok₂] at hrest₁
  obtain ⟨_, c₃, hok₃, hrest₃⟩ := act_bind.mp hrest₁
  obtain ⟨hw₃, hscopes₃⟩ := walked_block (walked_stmts thn) hbr.settled hbr.isOpen hok₃
  rw [act_run currentBlock_run, act_run (isTerminated_run _), act_run (enterBlock_run _)] at hrest₃
  obtain ⟨hgrown₄, ho₄⟩ := hbr.enter hv.settled hw₃.toGrown hscopes₃
  obtain ⟨ended, c₅, hok₅, hclose⟩ := act_bind.mp hrest₃
  obtain ⟨hw₅, -, rfl⟩ := walked_else els hgrown₄.settled ho₄ hok₅
  have hwait := hbr.toWaiting.trans hw₃.toLater
  have hlater₂ : Later ctx c₂ := hv.toLater.trans hbr.toLater
  have hlater₄ : Later ctx { c₃ with currentBlock := elseBlock } := hv.toLater.trans hgrown₄.toLater
  have hkept : c₅.builder.isTerminated c₃.currentBlock = c₃.builder.isTerminated c₃.currentBlock :=
    hw₅.ended _ hw₃.settled.here hwait.ne.symm
  rw [← hkept] at hclose
  have hends : c₃.currentBlock < c₅.size ∧ c₅.builder.Reach c₃.currentBlock :=
    ⟨Nat.lt_of_lt_of_le hw₃.settled.here hw₅.size, hw₅.reach _ hw₃.settled.reach⟩
  -- a block that is left behind when the other arm has been read
  obtain ⟨p, hp₅, hne⟩ : ∃ p, Waiting p ctx c₅ ∧ p ≠ c₃.currentBlock := by
    rcases Bool.and_eq_false_iff.mp hp with hthen | helse
    -- by the first arm: the other one does not touch what it left
    · obtain ⟨p, hp₃⟩ := leaves_block hthn hbr.settled hbr.isOpen hthen hok₃
      have hne : p ≠ elseBlock := by
        have := Nat.lt_of_lt_of_le hbr.toWaiting.lt hp₃.new
        exact Nat.ne_of_gt this
      have hp₄ : Waiting p ctx { c₃ with currentBlock := elseBlock } :=
        ⟨hlater₄, hlater₂.size.trans hp₃.new, hp₃.lt, hne, hp₃.notEnded, hp₃.reached⟩
      exact ⟨p, hp₄.trans hw₅.toLater, hp₃.ne⟩
    -- by the other arm, whose blocks are newer than the end of the first
    · obtain ⟨p, hp₅⟩ := hels hgrown₄.settled ho₄ helse hok₅
      have hlt : c₃.currentBlock < p := Nat.lt_of_lt_of_le hw₃.settled.here hp₅.new
      exact ⟨p, ⟨hlater₄.trans hw₅.toLater, hlater₄.size.trans hp₅.new, hp₅.lt, hp₅.ne, hp₅.notEnded,
        hp₅.reached⟩, Nat.ne_of_gt hlt⟩
  exact ⟨p, waiting_closeIf hp₅ hw₅.settled.toTame hends hne hw.toLater hclose⟩

/-- A condition that ends in another block than the header leaves that one behind. -/
theorem leaves_while {e : Expr} {body : List Stmt} (hbody : StmtsLeave body) :
    StmtLeaves (.while e body) := by
  intro ctx hset ho hp u c hok
  obtain ⟨hw, -⟩ := walked_stmt (.while e body) hset ho hok
  rw [elabStmt, elabWhile] at hok
  -- the header and the condition
  obtain ⟨header, c₁, -, hok₁, hhead⟩ := Backend.standard_follows.openWhile hset ho
  rw [act_run hok₁] at hok
  obtain ⟨v, c₂, hok₂, hrest₂⟩ := typed_ok hok fun _ _ => rfl
  have ht := traced_expr e hhead.settled hhead.isOpen hok₂
  have htested := hhead.trans ht.toValued
  -- the branch and the body
  obtain ⟨exit, c₃, hok₃, hopen₃, hcircling, -⟩ := Backend.standard_follows.openBody hset htested v
  rw [act_run hok₃] at hrest₂
  obtain ⟨_, c₄, hok₄, hclose⟩ := act_bind.mp hrest₂
  obtain ⟨hw₄, hscopes₄⟩ := walked_block (walked_stmts body) hcircling.settled hopen₃ hok₄
  have hcircling₄ := hcircling.trans hw₄.toGrown hscopes₄
  obtain ⟨p, hp₄, hne⟩ : ∃ p, Waiting p ctx c₄ ∧ p ≠ exit := by
    rw [Stmt.plain] at hp
    rcases Bool.and_eq_false_iff.mp hp with hlogic | hplain
    -- a short-circuit operator in the condition: the block it ends in gets no branch
    · have hnew : c₁.size ≤ c₂.currentBlock := ht.moves hlogic
      have hne : c₂.currentBlock ≠ header := by
        rintro heq
        rw [heq, ← hhead.here_eq] at hnew
        exact Nat.not_lt.mpr hnew hhead.settled.here
      obtain ⟨hwait, hne'⟩ := openBody_leftBehind htested.toLooping ht.settled.toTame ht.isOpen
        (hhead.toLooping.size.trans hnew) hne hcircling.toLooping.toLater hok₃
      exact ⟨_, hwait.trans hw₄.toLater, hne'⟩
    -- something in the body, in blocks newer than the exit
    · obtain ⟨p, hp₄⟩ := leaves_block hbody hcircling.settled hopen₃ hplain hok₄
      have hlt : exit < p := Nat.lt_of_lt_of_le hcircling.waits.lt hp₄.new
      exact ⟨p, ⟨hcircling₄.toLooping.toLater, hcircling.toLooping.size.trans hp₄.new, hp₄.lt, hp₄.ne,
        hp₄.notEnded, hp₄.reached⟩, Nat.ne_of_gt hlt⟩
  exact ⟨p, waiting_closeWhile hp₄ hcircling₄.toLooping hw₄.settled.toTame hne hw.toLater hclose⟩

mutual

theorem leaves_stmt : (s : Stmt) → StmtLeaves s
  | .letVar x e => fun _ _ _ hp => absurd hp (by rw [Stmt.plain]; simp)
  | .assign x e => fun _ _ _ hp => absurd hp (by rw [Stmt.plain]; simp)
  | .ret e => fun _ _ _ hp => absurd hp (by rw [Stmt.plain]; simp)
  | .expr e => fun _ _ _ hp => absurd hp (by rw [Stmt.plain]; simp)
  | .cond e thn els => by
    intro ctx hset ho hp u c hok
    rw [elabStmt] at hok
    rw [Stmt.plain] at hp
    exact leaves_if (leaves_stmts thn) (leaves_else els) hset ho hp hok
  | .while _ body => leaves_while (leaves_stmts body)

theorem leaves_else : (els : Else) → ElseLeaves els
  | .none => fun _ _ _ hp => absurd hp (by rw [Else.plain]; simp)
  | .block b => by
    intro ctx hset ho hp ended c hok
    rw [elabElse] at hok
    rw [Else.plain] at hp
    obtain ⟨_, c₁, hok₁, hend⟩ := act_bind.mp hok
    obtain ⟨rfl, rfl⟩ := Prod.mk.inj (Except.ok.inj hend)
    exact leaves_block (leaves_stmts b) hset ho hp hok₁
  | .elif e thn els => by
    intro ctx hset ho hp ended c hok
    rw [elabElse] at hok
    rw [Else.plain] at hp
    obtain ⟨_, c₁, hok₁, hend⟩ := act_bind.mp hok
    obtain ⟨rfl, rfl⟩ := Prod.mk.inj (Except.ok.inj hend)
    exact leaves_if (leaves_stmts thn) (leaves_else els) hset ho hp hok₁

theorem leaves_stmts : (ss : List Stmt) → StmtsLeave ss
  | [] => fun _ _ _ hp => absurd hp (by rw [stmtsPlain]; simp)
  | s :: rest => by
    intro ctx hset ho hp u c hok
    rw [elabStmts, act_run (needOpen_run ho)] at hok
    obtain ⟨_, c₁, hok₁, hrest⟩ := act_bind.mp hok
    obtain ⟨hw, -⟩ := walked_stmt s hset ho hok₁
    rw [stmtsPlain] at hp
    cases rest with
    | nil =>
      rw [elabStmts] at hrest
      obtain ⟨-, rfl⟩ := act_pure.mp hrest
      rw [stmtsPlain, Bool.and_true] at hp
      exact leaves_stmt s hset ho hp hok₁
    | cons s' rest =>
      have hopen : c₁.Open := open_of_elabStmts hrest
      obtain ⟨hw', -⟩ := walked_stmts (s' :: rest) hw.settled hopen hrest
      rcases Bool.and_eq_false_iff.mp hp with hfirst | hothers
      · exact (leaves_stmt s hset ho hfirst hok₁).later hw'.toLater
      · exact .since hw.toLater (leaves_stmts (s' :: rest) hw.settled hopen hothers hrest)

end

end Leaves

/-! ### Accepted modules -/

section Accepted

variable {P : Program} {d : FnDecl} {f : Function} {source : String} {M : Module}

/-- A function without an open block is plain. -/
theorem plain_of_elabFn {sigs : Sigs} (hf : elabFn sigs d = .ok f)
    (hterm : ∀ b ∈ f.blocks, b.terminator.isSome) : d.plain = true := by
  by_contra hplain
  unfold elabFn at hf
  obtain ⟨⟨_, c⟩, hscope, hret⟩ := bind_eq_ok.mp hf
  obtain rfl := Except.ok.inj hret
  have hnew := Settled.new d.header sigs
  obtain ⟨p, hp⟩ := leaves_block (leaves_stmts d.body) hnew rfl (Bool.eq_false_iff.mpr hplain) hscope
  obtain ⟨hw, -⟩ := walked_block (walked_stmts d.body) hnew rfl hscope
  have hidx := hw.settled.sound.indexed
  obtain ⟨blk, hblk⟩ : ∃ blk, c.builder.func.block p = some blk :=
    ⟨_, hidx.block_some_iff.mpr ⟨hp.lt, rfl⟩⟩
  have hsome := hterm blk (List.mem_of_find?_eq_some hblk)
  rw [(hidx.block_some_iff.mp hblk).2] at hsome
  have hopen := hp.notEnded
  rw [isTerminated_eq hidx] at hopen
  exact absurd hsome (Bool.eq_false_iff.mp hopen)

/-- In an accepted module every block has a terminator. -/
theorem terminated_of_validate {f : Function} (hM : validateModule M = .ok ()) (hf : f ∈ M.functions) :
    ∀ b ∈ f.blocks, b.terminator.isSome := by
  intro b hb
  obtain ⟨defs, hv⟩ := validateFunction_ok_iff.mp ((validateModule_ok_iff.mp hM).1 f hf)
  obtain ⟨t, ht, -⟩ := hv.term b hb
  rw [ht]
  rfl

/-- The function that a declaration was read as. -/
theorem function_of_mem_program (hr : Renders source P) (hp : parse source = .ok M) (hd : d ∈ P) :
    ∃ f ∈ M.functions, elabFn P.sigs d = .ok f := by
  obtain ⟨-, hok⟩ := (parse_renders hr).mp hp
  exact related_of_mem_left (mapM_eq_ok.mp hok) hd

theorem plain_of_validate (hr : Renders source P) (hp : parse source = .ok M)
    (hM : validateModule M = .ok ()) : ∀ d ∈ P, d.plain = true := by
  intro d hd
  obtain ⟨f, hf, helab⟩ := function_of_mem_program hr hp hd
  exact plain_of_elabFn helab (terminated_of_validate hM hf)

/-- **A loop with a short-circuit operator in its condition is not accepted.** A function that has one,
however deep, has a block without a terminator, and `validate_module` fails on the module. -/
theorem validateModule_rejects (hr : Renders source P) (hp : parse source = .ok M) (hd : d ∈ P)
    (hplain : d.plain = false) :
    (∃ f ∈ M.functions, f.name = d.name ∧ ∃ b ∈ f.blocks, b.terminator = none) ∧
      ∃ e, validateModule M = .error e := by
  obtain ⟨f, hf, helab⟩ := function_of_mem_program hr hp hd
  constructor
  · refine ⟨f, hf, (elabFn_header helab).1, ?_⟩
    by_contra hnone
    have hall : ∀ b ∈ f.blocks, b.terminator.isSome := fun b hb =>
      Option.isSome_iff_ne_none.mpr fun ht => hnone ⟨b, hb, ht⟩
    have hplain' := plain_of_elabFn helab hall
    rw [hplain] at hplain'
    cases hplain'
  · cases hM : validateModule M with
    | error e => exact ⟨e, rfl⟩
    | ok u =>
      have hall := plain_of_validate hr hp hM d hd
      rw [hplain] at hall
      cases hall

theorem validateModule_rejects_boundedLoop :
    ∃ M, parse boundedLoop = .ok M ∧ ∃ e, validateModule M = .error e := by
  obtain ⟨M, hM⟩ := exists_of_isSome (show (parse boundedLoop).toOption.isSome = true by
    decide +kernel)
  have hr : Renders boundedLoop [boundedLoopTree] := ⟨_, rfl, rfl, rfl⟩
  obtain ⟨-, herr⟩ := validateModule_rejects hr hM List.mem_cons_self (by decide)
  exact ⟨M, hM, herr⟩

end Accepted

end Parser
end Chakobsa
