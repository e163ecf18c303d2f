import Chakobsa.Parser.ExprMeaning

/-!
# Statements keep their meaning

The code of a statement does what the statement does (`stmtMeans`): where evaluation goes on with the
next statement the run comes to the place where the parser goes on, with the variables in its store;
where evaluation returns the run ends with the same value. An arm of an `if` ends with a jump to the
join, if it does not return, and the body of a `while` with a jump to the header; there the induction
on the fuel of the loop takes over (`while_runs`).

The store of a run has one entry for each name. What a block declares is therefore not to be the
name of a variable around it; then the variables there were are still in the store at its end.
-/

namespace Chakobsa
namespace Parser

open Ir Chakobsa.Comp ExceptLemmas FnContext SsaBuilder

/-! ### Variables and the store -/

section InStore

variable {ρ ρ' : Vars} {σ : Store} {x : String} {a : RtValue} {ds ns : List String}

theorem InStore.declare (h : InStore ρ σ) (x : String) (a : RtValue) :
    InStore ((x, a) :: ρ) (insertAt σ x (some a)) := by
  intro y b hy
  unfold insertAt
  rw [List.lookup_cons] at hy
  by_cases hyx : y = x
  · rw [if_pos hyx]
    rwa [beq_iff_eq.mpr hyx] at hy
  · rw [if_neg hyx]
    rw [beq_eq_false_iff_ne.mpr hyx] at hy
    exact h y b hy

/-- The variable that is assigned to is the one that is looked up. -/
theorem lookup_assign (h : ρ.assign x a = some ρ') (y : String) :
    ρ'.lookup y = if y = x then some a else ρ.lookup y := by
  induction ρ generalizing ρ' with
  | nil => cases h
  | cons p ρ ih =>
    rw [Vars.assign] at h
    split at h
    · next hx =>
      obtain rfl := Option.some.inj h
      rw [List.lookup_cons, List.lookup_cons, hx]
      by_cases hy : y = p.1
      · rw [beq_iff_eq.mpr hy, if_pos hy]
      · rw [beq_eq_false_iff_ne.mpr hy, if_neg hy]
    · next hx =>
      obtain ⟨ρ₁, h₁, rfl⟩ := Option.map_eq_some_iff.mp h
      rw [List.lookup_cons, List.lookup_cons, ih h₁]
      by_cases hy : y = p.1
      · have hne : y ≠ x := fun hyx => hx (hyx.symm.trans hy)
        rw [beq_iff_eq.mpr hy, if_neg hne, if_neg hne]
      · rw [beq_eq_false_iff_ne.mpr hy]

theorem InStore.assign (h : InStore ρ σ) (hρ : ρ.assign x a = some ρ') :
    InStore ρ' (insertAt σ x (some a)) := by
  intro y b hy
  rw [lookup_assign hρ] at hy
  unfold insertAt
  split at hy
  · next hyx => rwa [if_pos hyx]
  · next hyx =>
    rw [if_neg hyx]
    exact h y b hy

/-- A variable has a name. -/
theorem mem_names_of_lookup (h : ρ.lookup x = some a) : x ∈ ρ.map Prod.fst := by
  by_contra hx
  have hnone : ρ.lookup x = none := List.lookup_eq_none_iff.mpr fun p hp => by
    rw [bne_iff_ne]
    rintro rfl
    exact hx (List.mem_map_of_mem hp)
  rw [h] at hnone
  cases hnone

/-- At the end of a block its variables are dropped. -/
theorem InStore.drop (h : InStore ρ' σ) (hnames : ρ'.map Prod.fst = ds ++ ns) (hdisj : ∀ x ∈ ds, x ∉ ns) :
    InStore (ρ'.drop ds.length) σ := by
  intro x a hx
  have hmem : x ∈ ns := by
    have := mem_names_of_lookup hx
    rwa [List.map_drop, hnames, List.drop_left] at this
  refine h x a ?_
  rw [← List.take_append_drop ds.length ρ', List.lookup_append]
  cases hlook : (ρ'.take ds.length).lookup x with
  | none => rwa [Option.none_or]
  | some b =>
    have := mem_names_of_lookup hlook
    rw [List.map_take, hnames, List.take_left] at this
    exact absurd hmem (hdisj x this)

end InStore

/-! ### What a run makes of a statement -/

/-- The run goes on at `p`, with the variables in its store. -/
def At (M : Module) (G : Ghost) (p : Place) (ρ : Vars) (F : ℕ → InterpM (Option RtValue)) : Prop :=
  ∃ env σ, F = resume M G p env ∧ InStore ρ σ ∧ Holds G p env σ

/-- How a statement ends in a run: at the end of the block under construction, or with a value. -/
def Flow.Reaches (M : Module) (G : Ghost) (c : FnContext) (g : Ghost) :
    Flow → (ℕ → InterpM (Option RtValue)) → Prop
  | .next ρ, F => c.Open ∧ At M G (g.place c.currentBlock) ρ F
  | .returned a, F => F = fun _ => .ok (some a)

/-- From `p` on a run does what `x` does, on variables with the names `ns`. -/
def StmtRuns (M : Module) (G : Ghost) (sigs : Sigs)
    (x : (String → List RtValue → EvalM RtValue) → ℕ → Vars → EvalM Flow) (ns : List String) (p : Place)
    (c : FnContext) (g : Ghost) : Prop :=
  ∀ ⦃N callee⦄, Linked M sigs N callee → ∀ ⦃ρ F⦄, ρ.map Prod.fst = ns → At M G p ρ F →
    Tracks EvalError.out N (x callee N ρ) F (Flow.Reaches M G c g)

/-- What the elaboration of `s` leaves behind, and what a run makes of it. -/
def StmtMeans (s : Stmt) : Prop :=
  ∀ ⦃ctx g⦄, ctx.Logged g → ctx.Settled → ctx.Open → s.plain = true →
    ∀ ⦃u c⦄, elabStmt s ctx = .ok (u, c) → ∃ g', Completes ctx g c g' ∧
      ∀ ⦃outer here⦄, s.unshadowed outer here = true → ∀ M G, G.Finished → Extends g' G →
        StmtRuns M G ctx.sigs (fun callee N => evalStmt callee N s) (here ++ outer)
          (g.place ctx.currentBlock) c g'

def StmtsMean (ss : List Stmt) : Prop :=
  ∀ ⦃ctx g⦄, ctx.Logged g → ctx.Settled → ctx.Open → stmtsPlain ss = true →
    ∀ ⦃u c⦄, elabStmts ss ctx = .ok (u, c) → ∃ g', Completes ctx g c g' ∧
      ∀ ⦃outer here⦄, stmtsUnshadowed outer here ss = true → ∀ M G, G.Finished → Extends g' G →
        StmtRuns M G ctx.sigs (fun callee N => evalStmts callee N ss) (here ++ outer)
          (g.place ctx.currentBlock) c g'

def ElseMeans (els : Else) : Prop :=
  ∀ ⦃ctx g⦄, ctx.Logged g → ctx.Settled → ctx.Open → els.plain = true →
    ∀ ⦃ended c⦄, elabElse els ctx = .ok (ended, c) → ∃ g', Completes ctx g c g' ∧
      ∀ ⦃outer⦄, els.unshadowed outer = true → ∀ M G, G.Finished → Extends g' G →
        StmtRuns M G ctx.sigs (fun callee N => evalElse callee N els) outer
          (g.place ctx.currentBlock) c g'

section Stmt

variable {ctx c d : FnContext} {g g' G : Ghost} {M : Module} {N : ℕ} {p q : Place} {σ : Store} {env : Ir.Env}
  {e : Expr} {x : String} {v : ValueId} {outer : List String} {callee : String → List RtValue → EvalM RtValue}
  {ρ : Vars}

/-- The events of a block as far as it has been written, in the finished function. -/
theorem Extends.log_place (hx : Extends g' G) {b : BlockId} {l : List Event} {e : Event}
    (h : g'.log b = l ++ [e]) : ∃ r, G.log b = l ++ e :: r := by
  obtain ⟨more, hmore⟩ := hx.log b
  rw [h, List.append_assoc] at hmore
  exact ⟨more, hmore⟩

/-- The value of an expression is written to a variable. -/
theorem Holds.store (hx : Extends g' G) {b : BlockId} {l : List Event}
    (hlog : g'.log b = l ++ [.write x v]) {n : ValueId} (h : Holds G ⟨b, l, n⟩ env σ) {a : RtValue}
    (hv : env v = some a) :
    resume M G ⟨b, l, n⟩ env = resume M G (g'.place b) env ∧
      Holds G (g'.place b) env (insertAt σ x (some a)) := by
  obtain ⟨r, hr⟩ := hx.log_place hlog
  rw [Ghost.place, hlog]
  exact ⟨resume_skip (e := [.write x v]) hr rfl _, h.write hv x _⟩

/-- An expression, and what follows in the same block: after it `after` reaches the end in each
environment that holds. -/
theorem ExprRuns.then {sigs : Sigs} (h : ExprRuns M G sigs e p q v) (hc : Linked M sigs N callee)
    (hρ : InStore ρ σ) (hp : Holds G p env σ) {after : RtValue → EvalM Flow}
    (hafter : ∀ a env', Holds G q env' σ → env' v = some a →
      Tracks EvalError.out N (after a) (resume M G q env') (Flow.Reaches M G c g)) :
    Tracks EvalError.out N (evalExpr callee ρ e >>= after) (resume M G p env) (Flow.Reaches M G c g) := by
  refine (h hc hρ hp).bind fun a F _ hF => ?_
  obtain ⟨env', rfl, hq, -, ha⟩ := hF
  exact hafter a env' hq ha

theorem stmtMeans_let (x : String) (e : Expr) : StmtMeans (.letVar x e) := by
  intro ctx g hg hs ho _ u c hok
  rw [elabStmt] at hok
  obtain ⟨⟨v, τ⟩, c₁, hok₁, hlet⟩ := act_bind.mp hok
  obtain ⟨g₁, hcomp₁, hlast, hrun⟩ := exprMeans e hg hs ho hok₁
  have ht := traced_expr e hs ho hok₁
  obtain ⟨hhere, hopen, hcomp₂⟩ := hcomp₁.toLogged.writeLet ht.settled.toTame ht.isOpen hlast hlet
  refine ⟨_, hcomp₁.trans hcomp₂, fun outer here _ M G hG hx N callee hc ρ F hnames hF => ?_⟩
  obtain ⟨env, σ, rfl, hρ, hp⟩ := hF
  beta_reduce
  rw [evalStmt]
  refine (hrun M G hG (hcomp₂.toExtends.trans hx)).then hc hρ hp fun a env₁ hp₁ ha => ?_
  obtain ⟨hres, hp₂⟩ := hp₁.store (M := M) hx (if_pos rfl) ha
  refine .ok ?_
  rw [Flow.Reaches, hhere]
  exact ⟨hopen, env₁, _, hres, hρ.declare x a, hp₂⟩

theorem stmtMeans_assign (x : String) (e : Expr) : StmtMeans (.assign x e) := by
  intro ctx g hg hs ho _ u c hok
  rw [elabStmt] at hok
  obtain ⟨⟨v, τ⟩, c₁, hok₁, hassign⟩ := act_bind.mp hok
  obtain ⟨g₁, hcomp₁, hlast, hrun⟩ := exprMeans e hg hs ho hok₁
  have ht := traced_expr e hs ho hok₁
  obtain ⟨hhere, hopen, hcomp₂⟩ := hcomp₁.toLogged.writeAssign ht.settled.toTame ht.isOpen hlast hassign
  refine ⟨_, hcomp₁.trans hcomp₂, fun outer here _ M G hG hx N callee hc ρ F hnames hF => ?_⟩
  obtain ⟨env, σ, rfl, hρ, hp⟩ := hF
  beta_reduce
  rw [evalStmt]
  refine (hrun M G hG (hcomp₂.toExtends.trans hx)).then hc hρ hp fun a env₁ hp₁ ha => ?_
  cases hρ' : ρ.assign x a with
  | none => exact .panic _
  | some ρ' =>
    obtain ⟨hres, hp₂⟩ := hp₁.store (M := M) hx (if_pos rfl) ha
    refine .ok ?_
    rw [Flow.Reaches, hhere]
    exact ⟨hopen, env₁, _, hres, hρ.assign hρ', hp₂⟩

theorem stmtMeans_ret (e : Expr) : StmtMeans (.ret e) := by
  intro ctx g hg hs ho _ u c hok
  have hget : (get : ActM FnContext) ctx = .ok (ctx, ctx) := rfl
  rw [elabStmt, elabReturn, act_run hget] at hok
  cases hret : ctx.retTy with
  | none =>
    rw [hret] at hok
    exact absurd hok Comp.fail_ne_ok
  | some expected =>
    rw [hret] at hok
    obtain ⟨v, c₁, hok₁, hterm⟩ := typed_ok
      (k := fun v => do terminate (← currentBlock) (.ret (some v))) hok fun _ _ => rfl
    obtain ⟨g₁, hcomp₁, hlast, hrun⟩ := exprMeans e hg hs ho hok₁
    have ht := traced_expr e hs ho hok₁
    have hrun₂ := (act_run (f := fun b => Parser.terminate b (.ret (some v))) currentBlock_run).trans
      (terminate_explicit c₁ ht.settled.sound ht.settled.here (.ret (some v)))
    obtain ⟨-, rfl⟩ := Prod.mk.inj (Except.ok.inj (hterm.symm.trans hrun₂))
    have hcomp₂ := hcomp₁.toLogged.ret (t := .ret (some v)) ht.settled.toTame ht.isOpen rfl
    refine ⟨_, hcomp₁.trans hcomp₂, fun outer here _ M G hG hx N callee hc ρ F hnames hF => ?_⟩
    obtain ⟨env, σ, rfl, hρ, hp⟩ := hF
    beta_reduce
    rw [evalStmt]
    refine (hrun M G hG (hcomp₂.toExtends.trans hx)).then hc hρ hp fun a env₁ hp₁ ha => ?_
    -- nothing more happens in the block
    have hend : (g₁.terminate c₁.currentBlock (.ret (some v))).term c₁.currentBlock = some (.ret (some v)) :=
      (termAt_terminated (hcomp₁.toLogged.lt ht.settled.toTame) _).trans (if_pos rfl)
    obtain ⟨hend, hlog⟩ := hx.finished hend
    refine .ok ?_
    rw [Flow.Reaches, Ghost.place, ← show G.log c₁.currentBlock = g₁.log c₁.currentBlock from hlog,
      resume_end hend]
    funext k
    simp [leave, execTerminator, Ir.Env.get, ha]

theorem stmtMeans_expr (e : Expr) : StmtMeans (.expr e) := by
  intro ctx g hg hs ho _ u c hok
  rw [elabStmt] at hok
  obtain ⟨⟨v, τ⟩, c₁, hok₁, hret⟩ := act_bind.mp hok
  obtain ⟨-, rfl⟩ := act_pure.mp hret
  obtain ⟨g₁, hcomp₁, -, hrun⟩ := exprMeans e hg hs ho hok₁
  have hopen := (traced_expr e hs ho hok₁).isOpen
  refine ⟨g₁, hcomp₁, fun outer here _ M G hG hx N callee hc ρ F hnames hF => ?_⟩
  obtain ⟨env, σ, rfl, hρ, hp⟩ := hF
  beta_reduce
  rw [evalStmt]
  exact (hrun M G hG hx).then hc hρ hp fun a env₁ hp₁ _ => .ok ⟨hopen, env₁, σ, rfl, hρ, hp₁⟩

/-- A block: its variables are gone at the end, and those there were are still in the store. -/
theorem block_means {ss : List Stmt} (h : StmtsMean ss) (hg : ctx.Logged g) (hs : ctx.Settled)
    (ho : ctx.Open) (hplain : stmtsPlain ss = true) {u : Unit}
    (hok : inScope (elabStmts ss) ctx = .ok (u, c)) :
    ∃ g', Completes ctx g c g' ∧ ∀ ⦃outer⦄, stmtsUnshadowed outer [] ss = true →
      ∀ M G, G.Finished → Extends g' G → StmtRuns M G ctx.sigs (fun callee N => evalBlock (evalStmts callee N ss)) outer
        (g.place ctx.currentBlock) c g' := by
  obtain ⟨c₁, hok₁, rfl⟩ := inScope_ok hok
  have hg₁ : Logged { ctx with scopes := (fun _ => none) :: ctx.scopes } g := ⟨hg.tidy, hg.builder⟩
  -- a scope has no part in the history, so the history goes on from `g`
  obtain ⟨g', hcomp, hrun⟩ := h hg₁ hs.scope ho hplain hok₁
  refine ⟨g', hcomp.rescope ctx.scopes c₁.scopes.tail,
    fun outer hsh M G hG hx N callee hc ρ F hnames hF => ?_⟩
  refine (hrun hsh M G hG hx hc hnames hF).bind fun fl F hfl hF => ?_
  cases fl with
  | returned a => exact .ok hF
  | next ρ' =>
    -- the variables of the block are dropped by their number, which its declarations give
    have hnames' : ρ'.map Prod.fst = stmtsDeclared ss ++ ρ.map Prod.fst :=
      names_stmts callee N ss ρ _ hfl
    obtain ⟨hopen, env', σ', rfl, hρ', hp'⟩ := hF
    have hlen : ρ'.length - ρ.length = (stmtsDeclared ss).length := by
      have := congrArg List.length hnames'
      rw [List.length_map, List.length_append, List.length_map] at this
      omega
    refine .ok ⟨hopen, env', σ', rfl, ?_, hp'⟩
    rw [hlen]
    exact hρ'.drop hnames' (hnames ▸ not_mem_outer hsh)

/-- A condition. -/
theorem ExprRuns.cond {sigs : Sigs} (h : ExprRuns M G sigs e p q v) (hc : Linked M sigs N callee)
    (hρ : InStore ρ σ) (hp : Holds G p env σ) :
    Tracks EvalError.out N (evalCond callee e ρ) (resume M G p env) fun b =>
      GoesOn M G q σ p.next env fun env' => env' v = some (.bool b) := by
  refine (h hc hρ hp).bind fun a F _ hF => ?_
  cases a with
  | i64 a => exact .panic _
  | bool b => exact .ok hF

theorem exec_branch {b : Bool} (s₁ s₂ : BlockId) (h : env v = some (.bool b)) :
    execTerminator env (.branch v s₁ s₂) = .ok (.goto (if b then s₁ else s₂)) := by
  cases b <;> simp [execTerminator, Ir.Env.get, h, RtValue.asBool]

/-- A jump from the end of a block. -/
theorem At.jump (hG : G.Finished) {F : ℕ → InterpM (Option RtValue)} {b s : BlockId} {n : ValueId}
    (h : At M G ⟨b, G.log b, n⟩ ρ F) (ht : G.term b = some (.jump s)) (m : ValueId) :
    F 0 = .error .outOfFuel ∧ ∃ F', At M G ⟨s, [], m⟩ ρ F' ∧
      ∀ {N : ℕ} {α : Type} {x : EvalM α} {Q : α → (ℕ → InterpM (Option RtValue)) → Prop},
        Tracks EvalError.out N x F' Q → Tracks EvalError.out (N + 1) x F Q := by
  obtain ⟨env, σ, rfl, hρ, hp⟩ := h
  obtain ⟨env', hp', -, -, hgoto⟩ := hp.goto hG ht rfl (by simp [Terminator.successors]) m
  refine ⟨?_, _, ⟨env', σ, rfl, hρ, hp'⟩, hgoto⟩
  rw [resume_end ht]
  rfl

/-- What has reached the end of `c` jumps on to that of `d`. -/
theorem Flow.Reaches.jump (hG : G.Finished) {fl : Flow} {F : ℕ → InterpM (Option RtValue)}
    (h : fl.Reaches M G c g F)
    (hjump : c.Open → G.log c.currentBlock = g.log c.currentBlock ∧
      G.term c.currentBlock = some (.jump d.currentBlock) ∧ g'.log d.currentBlock = [] ∧ d.Open) :
    Tracks EvalError.out N (.ok fl : EvalM Flow) F (Flow.Reaches M G d g') := by
  cases fl with
  | returned a => exact .ok h
  | next ρ =>
    obtain ⟨hopen, hat⟩ := h
    obtain ⟨hlog, hterm, hempty, hopen'⟩ := hjump hopen
    rw [Ghost.place, ← hlog] at hat
    obtain ⟨-, F', hat', hgoto⟩ := hat.jump hG hterm g'.builder.nextValue
    refine (hgoto (.ok ⟨hopen', ?_⟩)).le (Nat.le_succ N)
    rwa [Ghost.place, hempty]

/-- An `if`: the arms meet in the join, if any goes on. -/
theorem if_means {thn : List Stmt} {els : Else} (hthn : StmtsMean thn) (hels : ElseMeans els)
    (hg : ctx.Logged g) (hs : ctx.Settled) (ho : ctx.Open) (hplain : (stmtsPlain thn && els.plain) = true) {u : Unit}
    (hok : elabIf (elabExpr e) (inScope (elabStmts thn)) (elabElse els) ctx = .ok (u, c)) :
    ∃ g', Completes ctx g c g' ∧
      ∀ ⦃outer⦄, (stmtsUnshadowed outer [] thn && els.unshadowed outer) = true →
      ∀ M G, G.Finished → Extends g' G → StmtRuns M G ctx.sigs (fun callee N =>
        evalIf (evalCond callee e) (evalBlock (evalStmts callee N thn)) (evalElse callee N els)) outer
        (g.place ctx.currentBlock) c g' := by
  obtain ⟨hplain₁, hplain₂⟩ := (Bool.and_eq_true _ _).mp hplain
  -- the condition
  obtain ⟨v, c₁, hok₁, hrest₁⟩ := typed_ok hok fun _ _ => rfl
  obtain ⟨g₁, hcomp₁, -, hrun₁⟩ := exprMeans e hg hs ho hok₁
  have ht₁ := traced_expr e hs ho hok₁
  -- the first arm
  obtain ⟨elseBlock, c₂, -, hok₂, hbr⟩ := Backend.standard_follows.openIf ht₁.settled ht₁.isOpen v
  obtain ⟨c₂', g₂, hok₂', hhere₂, hcomp₂, hlog₂, hbranch⟩ := hcomp₁.toLogged.openIf ht₁.settled ht₁.isOpen v
  obtain ⟨rfl, rfl⟩ := Prod.mk.inj (Except.ok.inj (hok₂.symm.trans hok₂'))
  rw [act_run hok₂] at hrest₁
  obtain ⟨_, c₃, hok₃, hrest₃⟩ := act_bind.mp hrest₁
  obtain ⟨hw₃, hscopes₃⟩ := walked_block (walked_stmts thn) hbr.settled hbr.isOpen hok₃
  obtain ⟨g₃, hcomp₃, hrun₃⟩ := block_means hthn hcomp₂.toLogged hbr.settled hbr.isOpen hplain₁ hok₃
  rw [act_run currentBlock_run, act_run (isTerminated_run _), act_run (enterBlock_run _)] at hrest₃
  -- the other arm
  obtain ⟨hgrown₄, ho₄⟩ := hbr.enter ht₁.settled hw₃.toGrown hscopes₃
  obtain ⟨ended, c₅, hok₅, hclose⟩ := act_bind.mp hrest₃
  obtain ⟨hw₅, -, rfl⟩ := walked_else els hgrown₄.settled ho₄ hok₅
  have hg₄ : Logged { c₃ with currentBlock := c₁.size + 1 } g₃ := ⟨hcomp₃.tidy, hcomp₃.builder⟩
  obtain ⟨g₅, hcomp₅, hrun₅⟩ := hels hg₄ hgrown₄.settled ho₄ hplain₂ hok₅
  have hcomp₄ : Completes c₁ g₁ { c₃ with currentBlock := c₁.size + 1 } g₃ :=
    (hcomp₂.trans hcomp₃).enter hg₄ .refl (fun _ _ => rfl) (hcomp₁.toLogged.size.trans_le (Nat.le_succ _))
      fun b hle hlt => absurd hlt (Nat.not_lt.mpr hle)
  -- the first arm ends in a new block, which the other arm does not touch
  have hwait := hbr.toWaiting.trans hw₃.toLater
  have htail : g₁.size ≤ c₃.currentBlock := by
    rcases hcomp₃.here with he | he
    · exact he ▸ hcomp₁.toLogged.size.trans_le hbr.fresh
    · exact hcomp₂.size.trans he
  have hkept : c₅.builder.isTerminated c₃.currentBlock = c₃.builder.isTerminated c₃.currentBlock :=
    hw₅.ended _ hw₃.settled.here hwait.ne.symm
  rw [← hkept] at hclose
  obtain ⟨g₆, hcomp₆, hx₆, hlog₆, hthen, helse⟩ := (hcomp₄.trans hcomp₅).closeIf hw₅.settled
    ⟨Nat.lt_of_lt_of_le hw₃.settled.here hw₅.size, hw₅.reach _ hw₃.settled.reach⟩
    (hw₅.ne_here hw₃.settled.here hwait.ne.symm) htail hclose
  -- nothing has happened where the arms begin
  have hempty : ∀ b, c₁.size ≤ b → g₂.log b = [] := fun b hb => by
    rw [hlog₂, hcomp₁.tidy.toSound.log_new (hcomp₁.toLogged.size.trans_le hb)]
  have hq₂ : g₂.place c₂.currentBlock = ⟨c₁.size, [], g₂.builder.nextValue⟩ := by
    rw [Ghost.place, hhere₂, hempty _ (Nat.le_refl _)]
  have hq₄ : g₃.place (c₁.size + 1) = ⟨c₁.size + 1, [], g₃.builder.nextValue⟩ := by
    have hlt : c₁.size + 1 < g₂.size := hbr.toWaiting.lt.trans_eq hcomp₂.toLogged.size.symm
    rw [Ghost.place, hcomp₃.others _ hlt hbr.toWaiting.ne, hempty _ (Nat.le_succ _)]
  have htail₃ : g₆.log c₃.currentBlock = g₃.log c₃.currentBlock := by
    rw [hlog₆, hcomp₅.others _ (hcomp₃.toLogged.lt hw₃.settled.toTame) hwait.ne.symm]
  have hsigs₂ : c₂.sigs = ctx.sigs := hbr.sigs.trans ht₁.sigs
  -- the run, in any finished history that extends this one
  refine ⟨g₆, hcomp₁.trans hcomp₆, fun outer hsh M G hG hx N callee hc ρ F hnames hF => ?_⟩
  obtain ⟨hsh₁, hsh₂⟩ := (Bool.and_eq_true _ _).mp hsh
  obtain ⟨env, σ, rfl, hρ, hp⟩ := hF
  have hx₅ := hx₆.trans hx
  have hx₃ := hcomp₅.toExtends.trans hx₅
  have hx₂ := hcomp₃.toExtends.trans hx₃
  obtain ⟨hterm₁, hlog₁⟩ := hx₂.finished hbranch
  rw [hlog₂] at hlog₁
  refine ((hrun₁ M G hG (hcomp₂.toExtends.trans hx₂)).cond hc hρ hp).bind fun b F _ hF => ?_
  obtain ⟨env₁, rfl, hp₁, -, hb⟩ := hF
  rw [Ghost.place, ← hlog₁] at hp₁ ⊢
  -- the branch takes the arm that the condition chooses
  have hexec := exec_branch c₁.size (c₁.size + 1) hb
  cases b with
  | true =>
    rw [if_pos rfl] at hexec
    obtain ⟨env₂, hp₂, -, -, hgoto⟩ := hp₁.goto hG hterm₁ hexec (by simp [Terminator.successors])
      g₂.builder.nextValue
    refine (hgoto ?_).le (Nat.le_succ N)
    rw [← hq₂] at hp₂ ⊢
    refine (hrun₃ hsh₁ M G hG hx₃ (hsigs₂ ▸ hc) hnames ⟨env₂, σ, rfl, hρ, hp₂⟩).onward fun fl F _ hF =>
      hF.jump hG fun hopen => ?_
    -- if the arm goes on, it jumps to the join, where the statement ends
    obtain ⟨hjoin, hopen', hterm⟩ := hthen (hkept.trans hopen)
    obtain ⟨hterm, hlog⟩ := hx.finished hterm
    exact ⟨hlog.trans htail₃, hterm, hjoin, hopen'⟩
  | false =>
    rw [if_neg Bool.false_ne_true] at hexec
    obtain ⟨env₂, hp₂, -, -, hgoto⟩ := hp₁.goto hG hterm₁ hexec (by simp [Terminator.successors])
      g₃.builder.nextValue
    refine (hgoto ?_).le (Nat.le_succ N)
    rw [← hq₄] at hp₂ ⊢
    refine (hrun₅ hsh₂ M G hG hx₅ ((hw₃.sigs.trans hsigs₂) ▸ hc) hnames ⟨env₂, σ, rfl, hρ, hp₂⟩).onward
      fun fl F _ hF => hF.jump hG fun hopen => ?_
    obtain ⟨hjoin, hopen', hterm⟩ := helse hopen
    obtain ⟨hterm, hlog⟩ := hx.finished hterm
    exact ⟨hlog.trans (by rw [hlog₆]), hterm, hjoin, hopen'⟩

/-- The loop rule. `S` is what holds before the header is entered, which takes a unit of fuel, `T`
before the condition, and `B` before the body. -/
theorem while_runs {cond : Vars → EvalM Bool} {body : Vars → EvalM Flow}
    {S T B : Vars → (ℕ → InterpM (Option RtValue)) → Prop}
    {Q : Flow → (ℕ → InterpM (Option RtValue)) → Prop}
    (henter : ∀ ρ F, S ρ F → F 0 = .error .outOfFuel ∧ ∃ F', T ρ F' ∧
      ∀ {n : ℕ} {x : EvalM Flow}, Tracks EvalError.out n x F' Q → Tracks EvalError.out (n + 1) x F Q)
    (hcond : ∀ ρ F, T ρ F → Tracks EvalError.out N (cond ρ) F fun b F =>
      if b then B ρ F else Q (.next ρ) F)
    (hbody : ∀ ρ F, B ρ F → Tracks EvalError.out N (body ρ) F fun fl F =>
      match fl with
      | .next ρ' => S ρ' F
      | .returned a => Q (.returned a) F)
    {n : ℕ} (hn : n ≤ N) {F : ℕ → InterpM (Option RtValue)} (h : S ρ F) :
    Tracks EvalError.out n (whileLoop cond body n ρ) F Q := by
  induction n generalizing ρ F with
  | zero =>
    intro k hk
    rw [Nat.le_zero.mp hk]
    exact (henter ρ F h).1
  | succ n ih =>
    obtain ⟨-, F', htest, hfuel⟩ := henter ρ F h
    have hn' : n ≤ N := Nat.le_of_succ_le hn
    rw [whileLoop]
    -- a round takes its unit of fuel where the header is entered
    refine hfuel (((hcond ρ F' htest).le hn').bind fun b F _ hF => ?_)
    cases b with
    | false => exact .ok hF
    | true =>
      refine ((hbody ρ F hF).le hn').bind fun fl F _ hF => ?_
      cases fl with
      | next ρ' => exact ih hn' hF
      | returned a => exact .ok hF

theorem stmtMeans_while (e : Expr) {body : List Stmt} (hmeans : StmtsMean body) :
    StmtMeans (.while e body) := by
  intro ctx g hg hs ho hplain u c hok
  rw [elabStmt, elabWhile] at hok
  obtain ⟨hstraight, hplain⟩ := (Bool.and_eq_true _ _).mp (by rwa [Stmt.plain] at hplain)
  -- the header and the condition, which ends in the header
  obtain ⟨header, c₁, -, hok₁, hhead⟩ := Backend.standard_follows.openWhile hs ho
  obtain ⟨c₁', g₁, hok₁', hhere₁, hadv₁, hlog₁, hsize₁, hjump₁⟩ := hg.openWhile hs ho
  obtain ⟨rfl, rfl⟩ := Prod.mk.inj (Except.ok.inj (hok₁.symm.trans hok₁'))
  rw [act_run hok₁] at hok
  obtain ⟨v, c₂, hok₂, hrest₂⟩ := typed_ok hok fun _ _ => rfl
  have ht := traced_expr e hhead.settled hhead.isOpen hok₂
  obtain ⟨g₂, hcomp₂, -, hrun₂⟩ := exprMeans e hadv₁.toLogged hhead.settled hhead.isOpen hok₂
  have hhere₂ : c₂.currentBlock = ctx.size := (ht.stays hstraight).trans hhere₁
  -- the branch and the body
  obtain ⟨exit, c₃, hok₃, hopen₃, hcircling, -⟩ :=
    Backend.standard_follows.openBody hs (hhead.trans ht.toValued) v
  obtain ⟨c₃', g₃, hok₃', hhere₃, hcomp₃, hlog₃, hbranch⟩ :=
    hcomp₂.toLogged.openIf ht.settled ht.isOpen v
  rw [← openBody_here, hhere₂] at hok₃'
  obtain ⟨rfl, rfl⟩ := Prod.mk.inj (Except.ok.inj (hok₃.symm.trans hok₃'))
  rw [act_run hok₃] at hrest₂
  obtain ⟨_, c₄, hok₄, hclose⟩ := act_bind.mp hrest₂
  obtain ⟨hw₄, hscopes₄⟩ := walked_block (walked_stmts body) hcircling.settled hopen₃ hok₄
  obtain ⟨g₄, hcomp₄, hrun₄⟩ := block_means hmeans hcomp₃.toLogged hcircling.settled hopen₃ hplain hok₄
  -- the jump back
  have hcircling₄ := hcircling.trans hw₄.toGrown hscopes₄
  obtain ⟨c₅, -, hok₅, -, hopen₅, -⟩ := Backend.standard_follows.closeWhile hs hcircling₄
  obtain ⟨-, rfl⟩ := Prod.mk.inj (Except.ok.inj (hclose.symm.trans hok₅))
  obtain ⟨g₅, hl₅, hx₅, hlog₅, hsize₅, hhere₅, hsealed, hback⟩ := hcomp₄.toLogged.closeWhile hcircling₄ hclose
  have hadv₄ := hadv₁.trans ((hcomp₂.trans hcomp₃).trans hcomp₄).toAdvances
  have hsize : ctx.size ≤ c₂.size := (hhead.trans ht.toValued).toLooping.size
  -- the header is sealed last, when the jump back is an edge to it
  have hcomp : Completes ctx g c g₅ := by
    refine ⟨hadv₄.enter hl₅ hx₅ (fun b _ => congrFun hlog₅ b) ?_, fun b hle hlt => ?_⟩
    · rw [hhere₅, hg.size]
      exact hsize.trans (Nat.le_succ _)
    · by_cases hb : b = ctx.size
      · exact hb ▸ hsealed
      · have hle' : g₁.size ≤ b := by
          rw [hsize₁]
          exact Nat.lt_of_le_of_ne (hg.size ▸ hle) (Ne.symm hb)
        exact (hx₅.isSealed b (((hcomp₂.trans hcomp₃).trans hcomp₄).closed b hle' (hsize₅ ▸ hlt))).1
  -- nothing has happened where the condition, the body and the rest begin
  have hempty : ∀ b, c₂.size ≤ b → g₃.log b = [] := fun b hb => by
    rw [hlog₃, hcomp₂.tidy.toSound.log_new (hcomp₂.toLogged.size.trans_le hb)]
  have hq₁ : g₁.place c₁.currentBlock = ⟨ctx.size, [], g₁.builder.nextValue⟩ := by
    rw [Ghost.place, hhere₁, hlog₁, hg.tidy.toSound.log_new (Nat.le_of_eq hg.size)]
  have hq₃ : g₃.place c₃.currentBlock = ⟨c₂.size, [], g₃.builder.nextValue⟩ := by
    rw [Ghost.place, hhere₃, hempty _ (Nat.le_refl _)]
  have hq₅ : g₅.place c.currentBlock = ⟨c₂.size + 1, [], g₅.builder.nextValue⟩ := by
    have hlt : c₂.size + 1 < g₃.size := hcircling.waits.lt.trans_eq hcomp₃.toLogged.size.symm
    rw [Ghost.place, hhere₅, hlog₅, hcomp₄.others _ hlt hcircling.waits.ne, hempty _ (Nat.le_succ _)]
  refine ⟨g₅, hcomp, fun outer here hsh M G hG hx N callee hc ρ F hnames hF => ?_⟩
  rw [Stmt.unshadowed] at hsh
  have hx₄ := hx₅.trans hx
  have hx₃ := hcomp₄.toExtends.trans hx₄
  have hx₂ := hcomp₃.toExtends.trans hx₃
  obtain ⟨hterm₂, hlog₂⟩ := hx₃.finished hbranch
  rw [hlog₃] at hlog₂
  obtain ⟨hterm₀, hlog₀⟩ := (hcomp₂.toExtends.trans hx₂).finished hjump₁
  beta_reduce
  rw [evalStmt]
  -- the header is entered from before the loop or from the end of the body
  refine while_runs (S := fun ρ F => ρ.map Prod.fst = here ++ outer ∧ ∃ b n,
      G.term b = some (.jump ctx.size) ∧ At M G ⟨b, G.log b, n⟩ ρ F)
    (T := fun ρ F => ρ.map Prod.fst = here ++ outer ∧ At M G (g₁.place c₁.currentBlock) ρ F)
    (B := fun ρ F => ρ.map Prod.fst = here ++ outer ∧ At M G (g₃.place c₃.currentBlock) ρ F)
    ?_ ?_ ?_ (Nat.le_refl N) ?_
  -- over the edge to the header
  · rintro ρ F ⟨hnames, b, n, hterm, hat⟩
    obtain ⟨hzero, F', hat', hfuel⟩ := hat.jump hG hterm g₁.builder.nextValue
    exact ⟨hzero, F', ⟨hnames, hq₁ ▸ hat'⟩, hfuel⟩
  -- the condition, and the branch it decides
  · rintro ρ F ⟨hnames, env, σ, rfl, hρ, hp⟩
    refine ((hrun₂ M G hG hx₂).cond (hhead.sigs ▸ hc) hρ hp).onward fun b F _ hF => ?_
    obtain ⟨env₁, rfl, hp₁, -, hb⟩ := hF
    rw [Ghost.place, ← hlog₂] at hp₁ ⊢
    have hexec := exec_branch c₂.size (c₂.size + 1) hb
    cases b with
    | true =>
      rw [if_pos rfl] at hexec
      obtain ⟨env₂, hp₂, -, -, hgoto⟩ := hp₁.goto hG hterm₂ hexec (by simp [Terminator.successors])
        g₃.builder.nextValue
      refine (hgoto (.ok ⟨hnames, env₂, σ, ?_, hρ, ?_⟩)).le (Nat.le_succ N)
      · rw [hq₃]
      · rwa [hq₃]
    | false =>
      rw [if_neg Bool.false_ne_true] at hexec
      obtain ⟨env₂, hp₂, -, -, hgoto⟩ := hp₁.goto hG hterm₂ hexec (by simp [Terminator.successors])
        g₅.builder.nextValue
      refine (hgoto (.ok ⟨hopen₅, env₂, σ, ?_, hρ, ?_⟩)).le (Nat.le_succ N)
      · rw [hq₅]
      · rwa [hq₅]
  -- the body, which jumps back if it does not return
  · rintro ρ F ⟨hnames, hat⟩
    refine (hrun₄ hsh M G hG hx₄ (hcircling.sigs ▸ hc) hnames hat).mono fun fl F hfl hF => ?_
    cases fl with
    | returned a => exact hF
    | next ρ' =>
      obtain ⟨hopen₄, hat'⟩ := hF
      obtain ⟨hterm, hlog⟩ := hx.finished (hback hopen₄)
      have hnames' : ρ'.map Prod.fst = ρ.map Prod.fst := names_block (names_stmts callee N body ρ) _ hfl
      refine ⟨hnames'.trans hnames, c₄.currentBlock, g₄.builder.nextValue, hterm, ?_⟩
      rw [hlog, hlog₅]
      exact hat'
  -- the jump into the loop
  · refine ⟨hnames, ctx.currentBlock, g.builder.nextValue, hterm₀, ?_⟩
    rw [hlog₀, hlog₁]
    exact hF

mutual

theorem stmtMeans : (s : Stmt) → StmtMeans s
  | .letVar x e => stmtMeans_let x e
  | .assign x e => stmtMeans_assign x e
  | .ret e => stmtMeans_ret e
  | .expr e => stmtMeans_expr e
  | .cond e thn els => by
    intro ctx g hg hs ho hplain u c hok
    rw [elabStmt] at hok
    rw [Stmt.plain] at hplain
    obtain ⟨g', hcomp, hrun⟩ :=
      if_means (stmtsMean thn) (elseMeans els) hg hs ho hplain hok
    refine ⟨g', hcomp, fun outer here hsh M G hG hx N callee hc ρ F hnames hF => ?_⟩
    rw [Stmt.unshadowed] at hsh
    beta_reduce
    rw [evalStmt]
    exact hrun hsh M G hG hx hc hnames hF
  | .while e body => stmtMeans_while e (stmtsMean body)

theorem elseMeans : (els : Else) → ElseMeans els
  | .none => by
    intro ctx g hg hs ho hplain ended c hok
    rw [elabElse] at hok
    obtain ⟨-, rfl⟩ := act_pure.mp hok
    refine ⟨g, .refl hg, fun outer _ M G hG hx N callee hc ρ F hnames hF => ?_⟩
    beta_reduce
    rw [evalElse]
    exact .ok ⟨ho, hF⟩
  | .block b => by
    intro ctx g hg hs ho hplain ended c hok
    rw [elabElse] at hok
    rw [Else.plain] at hplain
    obtain ⟨_, c₁, hok₁, hend⟩ := act_bind.mp hok
    obtain ⟨-, rfl⟩ := Prod.mk.inj (Except.ok.inj hend)
    obtain ⟨g', hcomp, hrun⟩ := block_means (stmtsMean b) hg hs ho hplain hok₁
    refine ⟨g', hcomp, fun outer hsh M G hG hx N callee hc ρ F hnames hF => ?_⟩
    rw [Else.unshadowed] at hsh
    beta_reduce
    rw [evalElse]
    exact hrun hsh M G hG hx hc hnames hF
  | .elif e thn els => by
    intro ctx g hg hs ho hplain ended c hok
    rw [elabElse] at hok
    rw [Else.plain] at hplain
    obtain ⟨_, c₁, hok₁, hend⟩ := act_bind.mp hok
    obtain ⟨-, rfl⟩ := Prod.mk.inj (Except.ok.inj hend)
    obtain ⟨g', hcomp, hrun⟩ :=
      if_means (stmtsMean thn) (elseMeans els) hg hs ho hplain hok₁
    refine ⟨g', hcomp, fun outer hsh M G hG hx N callee hc ρ F hnames hF => ?_⟩
    rw [Else.unshadowed] at hsh
    beta_reduce
    rw [evalElse]
    exact hrun hsh M G hG hx hc hnames hF

theorem stmtsMean : (ss : List Stmt) → StmtsMean ss
  | [] => by
    intro ctx g hg hs ho hplain u c hok
    rw [elabStmts] at hok
    obtain ⟨-, rfl⟩ := act_pure.mp hok
    refine ⟨g, .refl hg, fun outer here _ M G hG hx N callee hc ρ F hnames hF => ?_⟩
    beta_reduce
    rw [evalStmts]
    exact .ok ⟨ho, hF⟩
  | s :: rest => by
    intro ctx g hg hs ho hplain u c hok
    rw [elabStmts, act_run (needOpen_run ho)] at hok
    rw [stmtsPlain] at hplain
    obtain ⟨hplain₁, hplain₂⟩ := (Bool.and_eq_true _ _).mp hplain
    obtain ⟨_, c₁, hok₁, hrest⟩ := act_bind.mp hok
    obtain ⟨hw, -⟩ := walked_stmt s hs ho hok₁
    obtain ⟨g₁, hcomp₁, hrun₁⟩ := stmtMeans s hg hs ho hplain₁ hok₁
    -- the last statement may terminate the block, the others do not
    cases rest with
    | nil =>
      rw [elabStmts] at hrest
      obtain ⟨-, rfl⟩ := act_pure.mp hrest
      refine ⟨g₁, hcomp₁, fun outer here hsh M G hG hx N callee hc ρ F hnames hF => ?_⟩
      rw [stmtsUnshadowed] at hsh
      obtain ⟨hsh₁, -⟩ := (Bool.and_eq_true _ _).mp hsh
      beta_reduce
      rw [evalStmts]
      refine (hrun₁ hsh₁ M G hG hx hc hnames hF).bind fun fl F _ hF => ?_
      cases fl with
      | returned a => exact .ok hF
      | next ρ' =>
        rw [Flow.onward, evalStmts]
        exact .ok hF
    | cons s' rest =>
      have hopen : c₁.Open := open_of_elabStmts hrest
      obtain ⟨g₂, hcomp₂, hrun₂⟩ := stmtsMean (s' :: rest) hcomp₁.toLogged hw.settled hopen hplain₂ hrest
      refine ⟨g₂, hcomp₁.trans hcomp₂, fun outer here hsh M G hG hx N callee hc ρ F hnames hF => ?_⟩
      rw [stmtsUnshadowed] at hsh
      obtain ⟨hsh₁, hsh₂⟩ := (Bool.and_eq_true _ _).mp hsh
      beta_reduce
      rw [evalStmts]
      refine (hrun₁ hsh₁ M G hG (hcomp₂.toExtends.trans hx) hc hnames hF).bind fun fl F hfl hF => ?_
      cases fl with
      | returned a => exact .ok hF
      | next ρ' =>
        have hnames' : ρ'.map Prod.fst = s.declared ++ ρ.map Prod.fst := names_stmt callee N s ρ _ hfl
        rw [hnames, ← List.append_assoc] at hnames'
        exact hrun₂ hsh₂ M G hG hx (hw.sigs ▸ hc) hnames' hF.2

end


end Stmt

end Parser
end Chakobsa
