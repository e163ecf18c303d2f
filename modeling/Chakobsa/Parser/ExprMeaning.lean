import Chakobsa.Parser.Evaluation
import Chakobsa.Parser.HistorySteps
import Chakobsa.Parser.Resumption

/-!
# Expressions keep their meaning

The code of an expression does what evaluating it does. `ExprRuns` says so for a finished function:
a run that comes to the place where the parser began to read the expression goes on at the place
where it stopped, with the value of the expression in the value the parser returned, and with all
the values there were. The value of a left operand therefore survives the right one.

The proof (`exprMeans`) is by induction on the expression. The two ways through a short-circuit
operator meet in its join, where the phi takes the value of the way that was taken (`Holds.meet`).
-/

namespace Chakobsa
namespace Parser

open Ir Chakobsa.Comp ExceptLemmas FnContext SsaBuilder

/-- How the interpreter reports the error of a program. -/
def EvalError.out : EvalError → InterpError
  | .divideByZero => .divideByZero

/-- The variables in scope have their values in the store. -/
def InStore (ρ : Vars) (σ : Store) : Prop := ∀ x a, ρ.lookup x = some a → σ x = some a

/-- A call of a function that has a signature, with as many arguments as it has parameters, is run by
the interpreter. -/
def Linked (M : Module) (sigs : Sigs) (N : ℕ) (callee : String → List RtValue → EvalM RtValue) : Prop :=
  ∀ f sig, sigs f = some sig → ∀ args, args.length = sig.params.length →
    Tracks EvalError.out N (callee f args) (fun k => run M k f args) fun a F => F = fun _ => .ok (some a)

/-- The run goes on at `q`, with the values below `m` as in `env`. -/
def GoesOn (M : Module) (G : Ghost) (q : Place) (σ : Store) (m : ValueId) (env : Ir.Env) (Q : Ir.Env → Prop)
    (F : ℕ → InterpM (Option RtValue)) : Prop :=
  ∃ env', F = resume M G q env' ∧ Holds G q env' σ ∧ (∀ w < m, env' w = env w) ∧ Q env'

/-- From `p` to `q` a run does what the evaluation of `e` does, and `v` gets the value. -/
def ExprRuns (M : Module) (G : Ghost) (sigs : Sigs) (e : Expr) (p q : Place) (v : ValueId) : Prop :=
  ∀ ⦃N callee⦄, Linked M sigs N callee → ∀ ⦃ρ env σ⦄, InStore ρ σ → Holds G p env σ →
    Tracks EvalError.out N (evalExpr callee ρ e) (resume M G p env) fun a =>
      GoesOn M G q σ p.next env fun env' => env' v = some a

/-- The same for the arguments of a call. -/
def ArgsRun (M : Module) (G : Ghost) (sigs : Sigs) (es : List Expr) (p q : Place) (vs : List ValueId) :
    Prop :=
  ∀ ⦃N callee⦄, Linked M sigs N callee → ∀ ⦃ρ env σ⦄, InStore ρ σ → Holds G p env σ →
    Tracks EvalError.out N (evalExprs callee ρ es) (resume M G p env) fun as =>
      GoesOn M G q σ p.next env fun env' => List.Forall₂ (fun v a => env' v = some a) vs as

section Steps

variable {α β : Type} {M : Module} {G : Ghost} {sigs : Sigs} {e : Expr} {p q q' : Place} {b s : BlockId}
  {l r : List Event} {n m k : ValueId} {env env' : Ir.Env} {σ : Store} {v : ValueId} {a : RtValue} {N : ℕ}
  {t : Terminator} {i : Instruction}

theorem GoesOn.refl {Q : Ir.Env → Prop} (h : Holds G p env σ) (hQ : Q env) :
    GoesOn M G p σ m env Q (resume M G p env) := ⟨env, rfl, h, fun _ _ => rfl, hQ⟩

/-- What follows keeps the values there were as well. -/
theorem GoesOn.after {Q : Ir.Env → Prop} {F : ℕ → InterpM (Option RtValue)} (h : GoesOn M G q σ n env' Q F)
    (hmn : m ≤ n) (henv : ∀ w < m, env' w = env w) : GoesOn M G q σ m env Q F := by
  obtain ⟨env'', hF, hh, hkeep, hQ⟩ := h
  exact ⟨env'', hF, hh, fun w hw => (hkeep w (Nat.lt_of_lt_of_le hw hmn)).trans (henv w hw), hQ⟩

/-- An expression is evaluated first. -/
theorem ExprRuns.bind (h : ExprRuns M G sigs e p q v) {callee : String → List RtValue → EvalM RtValue}
    (hc : Linked M sigs N callee) {ρ : Vars} (hρ : InStore ρ σ) (hp : Holds G p env σ) (hpq : p.next ≤ q.next)
    {f : RtValue → EvalM β} {R : β → Ir.Env → Prop}
    (hf : ∀ a env', Holds G q env' σ → env' v = some a → (∀ w < p.next, env' w = env w) →
      Tracks EvalError.out N (f a) (resume M G q env') fun b => GoesOn M G q' σ q.next env' (R b)) :
    Tracks EvalError.out N (evalExpr callee ρ e >>= f) (resume M G p env) fun b =>
      GoesOn M G q' σ p.next env (R b) := by
  refine (h hc hρ hp).bind fun a F _ hF => ?_
  obtain ⟨env', rfl, hq, hkeep, hv⟩ := hF
  exact (hf a env' hq hv hkeep).mono fun b F _ hF => hF.after hpq hkeep

/-- An instruction that cannot fail. -/
theorem resume_const (hl : G.log b = l ++ .inst i :: r) (m : ValueId)
    (hexec : ∀ callee, execInst M callee env i = .ok env') :
    resume M G ⟨b, l, n⟩ env = resume M G ⟨b, l ++ [.inst i], m⟩ env' := by
  rw [resume_inst hl m]
  funext k
  rw [hexec, ok_bind]

/-- An instruction with the value of `y`. -/
theorem Holds.compute (hG : G.Finished) (h : Holds G ⟨b, l, n⟩ env σ) (hl : G.log b = l ++ .inst i :: r)
    (m : ValueId) {y : ℕ → InterpM RtValue} (hy : Rising y)
    (hexec : ∀ k, execInst M (callWith (loop M k)) env i = y k >>= fun a => .ok (env.insert i.id a))
    {x : EvalM RtValue} (hx : Tracks EvalError.out N x y fun a F => F = fun _ => .ok a) :
    Tracks EvalError.out N x (resume M G ⟨b, l, n⟩ env) fun a =>
      GoesOn M G ⟨b, l ++ [.inst i], m⟩ σ i.id env fun env' => env' i.id = some a := by
  -- what runs is the instruction and then the rest
  have hF : resume M G ⟨b, l, n⟩ env = fun k => y k >>= fun a =>
      resume M G ⟨b, l ++ [.inst i], m⟩ (env.insert i.id a) k := by
    rw [resume_inst hl m]
    funext k
    rw [hexec, bind_assoc]
    rfl
  have hbind : Tracks EvalError.out N (x >>= pure) (fun k => y k >>= fun a =>
      resume M G ⟨b, l ++ [.inst i], m⟩ (env.insert i.id a) k) fun a =>
        GoesOn M G ⟨b, l ++ [.inst i], m⟩ σ i.id env fun env' => env' i.id = some a := by
    refine Tracks.call hy (fun a => resume_rising _ _)
      (P := fun a c => a = c) (hx.mono fun a F _ hF => ⟨a, rfl, hF⟩) ?_
    rintro a _ - rfl
    refine .ok ⟨_, rfl, ?_, fun w hw => Ir.Env.insert_of_ne env (Nat.ne_of_lt hw) a, Ir.Env.insert_self _ _ _⟩
    exact h.inst hG hl (fun w hw => Ir.Env.insert_of_ne env hw a) (by simp) m
  rw [hF]
  rwa [bind_pure] at hbind

/-- Over an edge to another block. -/
theorem Holds.goto (hG : G.Finished) (h : Holds G ⟨b, G.log b, n⟩ env σ) (ht : G.term b = some t)
    (hexec : execTerminator env t = .ok (.goto s)) (hs : s ∈ t.successors) (m : ValueId) :
    ∃ env', Holds G ⟨s, [], m⟩ env' σ ∧
      (∀ i ∈ instsOf (G.log s), i.kind.isPhi = true → ∀ w, lastValue (G.log b) = some w →
        env' i.id = env w) ∧
      (∀ v, (∀ i ∈ G.builder.func.instsAt s, i.id ≠ v) → env' v = env v) ∧
      ∀ {M : Module} {N : ℕ} {α : Type} {x : EvalM α} {Q : α → (ℕ → InterpM (Option RtValue)) → Prop},
        Tracks EvalError.out N x (resume M G ⟨s, [], m⟩ env') Q →
          Tracks EvalError.out (N + 1) x (resume M G ⟨b, G.log b, n⟩ env) Q := by
  obtain ⟨env', hloop, hs', hphi, hframe⟩ := h.arrive hG (hG.toExact.pred_of_succ ht hs) m
  refine ⟨env', hs', hphi, hframe, fun {M N α x Q} hx => ?_⟩
  have hleave : ∀ k, leave M G b env k t = loop M k G.builder.func s (some b) env := by
    intro k
    unfold leave
    rw [hexec, ok_bind]
  -- the edge costs a unit of fuel
  rw [resume_end ht]
  exact Tracks.unfold (resume_rising _ _) (hleave 0) (fun k => (hleave (k + 1)).trans (hloop M k)) hx

/-- A way ends in the join of a short-circuit operator: the phi gets the value last computed. -/
theorem Holds.meet (hG : G.Finished) (h : Holds G ⟨b, G.log b, n⟩ env σ) (ht : G.term b = some (.jump s))
    (hl : G.log s = .inst i :: r) (hi : i.kind.isPhi = true) (hlast : lastValue (G.log b) = some v)
    (hv : env v = some a) (hnew : ∀ j ∈ G.builder.func.instsAt s, k ≤ j.id) (m : ValueId) :
    Tracks EvalError.out N (.ok a : EvalM RtValue) (resume M G ⟨b, G.log b, n⟩ env) fun a =>
      GoesOn M G ⟨s, [.inst i], m⟩ σ k env fun env' => env' i.id = some a := by
  obtain ⟨env', hs, hphi, hframe, hgoto⟩ := h.goto hG ht rfl (by simp [Terminator.successors]) m
  have hia : env' i.id = some a := by
    rw [hphi i (by rw [hl]; exact List.mem_cons_self) hi v hlast, hv]
  -- the phi was computed on entry, so in its place nothing is executed
  have hexec : ∀ callee, execInst M callee env' i = .ok env' := by
    intro callee
    unfold execInst
    split
    · rfl
    all_goals simp_all [InstKind.isPhi]
  refine (hgoto ?_).le (Nat.le_succ N)
  rw [resume_const (l := []) hl m hexec]
  refine .ok ⟨env', rfl, ?_, fun w hw => hframe w fun j hj => ?_, hia⟩
  · exact hs.inst hG hl (fun _ _ => rfl) (by rw [hia]; exact Option.some_ne_none a) m
  · exact Nat.ne_of_gt (Nat.lt_of_lt_of_le hw (hnew j hj))

end Steps

/-! ### The expressions one by one -/

/-- What the elaboration of `e` leaves behind, and what a run makes of it. -/
def ExprMeans (e : Expr) : Prop :=
  ∀ ⦃ctx g⦄, ctx.Logged g → ctx.Settled → ctx.Open → ∀ ⦃v τ c⦄, elabExpr e ctx = .ok ((v, τ), c) →
    ∃ g', Completes ctx g c g' ∧ lastValue (g'.log c.currentBlock) = some v ∧
      ∀ M G, G.Finished → Extends g' G →
        ExprRuns M G ctx.sigs e (g.place ctx.currentBlock) (g'.place c.currentBlock) v

section Means

variable {ctx c : FnContext} {g g' G : Ghost} {M : Module} {v : ValueId} {ty : Ty} {kind : InstKind}
  {N : ℕ} {σ : Store} {env : Ir.Env} {e l r : Expr}

/-- An instruction that is emitted is executed there. -/
theorem emitHere_means (h : ctx.Logged g) (hs : ctx.Settled) (ho : ctx.Open) (hk : kind.isPhi = false)
    (hok : emitHere ty kind ctx = .ok (v, c)) :
    ∃ g', Completes ctx g c g' ∧ lastValue (g'.log c.currentBlock) = some v ∧
      ∀ M G, G.Finished → Extends g' G →
        ∀ {env σ N} {x : EvalM RtValue} {y : ℕ → InterpM RtValue}, Holds G (g.place ctx.currentBlock) env σ →
          Rising y → (∀ k, execInst M (callWith (loop M k)) env ⟨v, ty, kind⟩ =
            y k >>= fun a => .ok (env.insert v a)) →
        Tracks EvalError.out N x y (fun a F => F = fun _ => .ok a) →
        Tracks EvalError.out N x (resume M G (g.place ctx.currentBlock) env) fun a =>
          GoesOn M G (g'.place c.currentBlock) σ g.builder.nextValue env fun env' => env' v = some a := by
  obtain ⟨rfl, hhere, hcomp⟩ := h.emitHere hs ho hk hok
  have hlog : (g.emit ctx.currentBlock ty kind).log ctx.currentBlock =
      g.log ctx.currentBlock ++ [.inst ⟨g.builder.nextValue, ty, kind⟩] := if_pos rfl
  refine ⟨_, hcomp, by rw [hhere, hlog, lastValue_snoc_inst], fun M G hG hx env σ N x y hp hy hexec hxy => ?_⟩
  -- the instruction stands in the log of every extension, with more behind it
  obtain ⟨more, hmore⟩ := hx.log ctx.currentBlock
  rw [hlog, List.append_assoc] at hmore
  rw [hhere, Ghost.place, Ghost.place, hlog]
  exact hp.compute hG hmore _ hy hexec hxy

theorem exprMeans_const (hk : kind.isPhi = false) {a : RtValue} (he : elabExpr e = emitConst ty kind)
    (heval : ∀ callee ρ, evalExpr callee ρ e = .ok a)
    (hexec : ∀ M callee env v, execInst M callee env ⟨v, ty, kind⟩ = .ok (env.insert v a)) :
    ExprMeans e := by
  intro ctx g hl hs ho v τ c hok
  rw [he] at hok
  obtain ⟨w, c₁, hemit, hret⟩ := act_bind.mp hok
  obtain ⟨hvw, rfl⟩ := act_pure.mp hret
  obtain ⟨rfl, -⟩ := Prod.mk.inj hvw
  obtain ⟨g', hcomp, hlast, hrun⟩ := emitHere_means hl hs ho hk hemit
  refine ⟨g', hcomp, hlast, fun M G hG hx N callee hc ρ env σ hρ hp => ?_⟩
  rw [heval]
  exact hrun M G hG hx hp (.const (.ok a)) (fun k => hexec M _ env v) (.ok rfl)

theorem exprMeans_var (x : String) : ExprMeans (.var x) := by
  intro ctx g hl hs ho v τ c hok
  rw [elabExpr] at hok
  obtain ⟨hhere, g', hcomp, hlog⟩ := hl.readName hs ho hok
  refine ⟨g', hcomp, by rw [hhere, hlog, lastValue_snoc_read], fun M G hG hx N callee hc ρ env σ hρ hp => ?_⟩
  obtain ⟨more, hmore⟩ := hx.log ctx.currentBlock
  rw [hlog, List.append_assoc] at hmore
  rw [hhere, Ghost.place, Ghost.place, hlog, evalExpr]
  -- a read leaves no instruction: the id it found has the value already
  cases hlook : ρ.lookup x with
  | none => exact .panic _
  | some a =>
    obtain ⟨a', hv, hσ, hp'⟩ := hp.read hG hmore g'.builder.nextValue
    obtain rfl := Option.some.inj ((hρ x a hlook).symm.trans hσ)
    rw [resume_skip (e := [.read x v τ]) hmore rfl g'.builder.nextValue]
    exact .ok (.refl hp' hv)

/-- The interpreter computes what the operator means. -/
theorem Operator.tracks_eval (op : Operator) (a b : I64) :
    Tracks EvalError.out N (op.eval a b) (fun _ => evalBin op.binOp (.i64 a) (.i64 b))
      fun v F => F = fun _ => .ok v := by
  cases op with
  | div | mod =>
    dsimp only [Operator.eval]
    split
    · next hb => exact ⟨0, by subst hb; rfl⟩
    · next hb => exact ⟨_, .refl _, funext fun _ => if_neg hb⟩
  | _ => exact .ok rfl

theorem tracks_unary (op : UnOp) (a : RtValue) :
    Tracks EvalError.out N (evalUnary op a) (fun _ => evalUn op a) fun v F => F = fun _ => .ok v := by
  cases op <;> cases a
  all_goals first | exact .panic _ | exact .ok rfl

theorem exprMeans_un (op : UnOp) (h : ExprMeans e) : ExprMeans (.un op e) := by
  intro ctx g hl hs ho v τ c hok
  obtain ⟨w, c₁, u, hok₁, hemit, hret⟩ := elabExpr_un_ok.mp hok
  obtain ⟨rfl, -⟩ := Prod.mk.inj hret
  obtain ⟨g₁, hcomp₁, hlast₁, hrun₁⟩ := h hl hs ho hok₁
  have ht := traced_expr e hs ho hok₁
  obtain ⟨g₂, hcomp₂, hlast₂, hrun₂⟩ := emitHere_means hcomp₁.toLogged ht.settled ht.isOpen rfl hemit
  refine ⟨g₂, hcomp₁.trans hcomp₂, hlast₂, fun M G hG hx N callee hc ρ env σ hρ hp => ?_⟩
  rw [evalExpr]
  refine (hrun₁ M G hG (hcomp₂.toExtends.trans hx)).bind hc hρ hp hcomp₁.nextValue
    fun a env₁ hp₁ ha _ => ?_
  refine hrun₂ M G hG hx hp₁ (.const _) (fun k => ?_) (tracks_unary op a)
  rw [execInst]
  dsimp only
  rw [Ir.Env.get_eq_ok.mpr ha]
  rfl

theorem exprMeans_bin (op : Operator) (hl : ExprMeans l) (hr : ExprMeans r) : ExprMeans (.bin op l r) := by
  intro ctx g hg hs ho v τ c hok
  obtain ⟨lhs, c₁, rhs, c₂, u, hok₁, hok₂, hemit, hret⟩ := elabExpr_bin_ok.mp hok
  obtain ⟨rfl, -⟩ := Prod.mk.inj hret
  obtain ⟨g₁, hcomp₁, hlast₁, hrun₁⟩ := hl hg hs ho hok₁
  have ht₁ := traced_expr l hs ho hok₁
  obtain ⟨g₂, hcomp₂, hlast₂, hrun₂⟩ := hr hcomp₁.toLogged ht₁.settled ht₁.isOpen hok₂
  have ht₂ := traced_expr r ht₁.settled ht₁.isOpen hok₂
  obtain ⟨g₃, hcomp₃, hlast₃, hrun₃⟩ := emitHere_means hcomp₂.toLogged ht₂.settled ht₂.isOpen rfl hemit
  refine ⟨g₃, (hcomp₁.trans hcomp₂).trans hcomp₃, hlast₃, fun M G hG hx N callee hc ρ env σ hρ hp => ?_⟩
  have hx₂ := hcomp₃.toExtends.trans hx
  rw [evalExpr]
  refine (hrun₁ M G hG (hcomp₂.toExtends.trans hx₂)).bind hc hρ hp hcomp₁.nextValue
    fun a env₁ hp₁ ha _ => ?_
  cases a with
  | bool b => exact .panic _
  | i64 a =>
    refine (hrun₂ M G hG hx₂).bind (ht₁.sigs ▸ hc) hρ hp₁ hcomp₂.nextValue fun b env₂ hp₂ hb hkeep => ?_
    cases b with
    | bool b => exact .panic _
    | i64 b =>
      -- the left operand is still there after the right one
      have ha₂ : env₂ lhs = some (.i64 a) := (hkeep lhs (hcomp₁.tidy.last _ _ hlast₁)).trans ha
      refine hrun₃ M G hG hx hp₂ (.const _) (fun k => ?_) (op.tracks_eval a b)
      rw [execInst]
      dsimp only
      rw [Ir.Env.get_eq_ok.mpr ha₂, Ir.Env.get_eq_ok.mpr hb]
      rfl

/-- The arguments of a call, from left to right. -/
theorem argsMean {es : List Expr} (h : ∀ e ∈ es, ExprMeans e) :
    ∀ ⦃ctx g⦄, ctx.Logged g → ctx.Settled → ctx.Open → ∀ ⦃vs c⦄, elabExprs es ctx = .ok (vs, c) →
      ∃ g', Completes ctx g c g' ∧ ∀ M G, G.Finished → Extends g' G →
        ArgsRun M G ctx.sigs es (g.place ctx.currentBlock) (g'.place c.currentBlock) (vs.map Prod.fst) := by
  induction es with
  | nil =>
    intro ctx g hg hs ho vs c hok
    rw [elabExprs] at hok
    obtain ⟨rfl, rfl⟩ := act_pure.mp hok
    refine ⟨g, .refl hg, fun M G hG hx N callee hc ρ env σ hρ hp => ?_⟩
    rw [evalExprs]
    exact .ok (.refl hp .nil)
  | cons e es ih =>
    intro ctx g hg hs ho vs c hok
    obtain ⟨⟨v, τ⟩, c₁, ws, hok₁, hok₂, rfl⟩ := elabExprs_cons_ok.mp hok
    obtain ⟨g₁, hcomp₁, hlast, hrun₁⟩ := h e List.mem_cons_self hg hs ho hok₁
    have ht := traced_expr e hs ho hok₁
    obtain ⟨g₂, hcomp₂, hrun₂⟩ := ih (fun e' he' => h e' (List.mem_cons_of_mem _ he')) hcomp₁.toLogged
      ht.settled ht.isOpen hok₂
    refine ⟨g₂, hcomp₁.trans hcomp₂, fun M G hG hx N callee hc ρ env σ hρ hp => ?_⟩
    rw [evalExprs]
    refine (hrun₁ M G hG (hcomp₂.toExtends.trans hx)).bind hc hρ hp hcomp₁.nextValue
      fun a env₁ hp₁ ha _ => ?_
    refine (hrun₂ M G hG hx (ht.sigs ▸ hc) hρ hp₁).bind fun as F _ hF => .ok ?_
    obtain ⟨env₂, rfl, hp₂, hkeep, has⟩ := hF
    -- the first argument is still there after the others
    exact ⟨env₂, rfl, hp₂, hkeep, .cons ((hkeep v (hcomp₁.tidy.last _ _ hlast)).trans ha) has⟩

theorem exprMeans_call (f : String) {args : List Expr} (h : ∀ e ∈ args, ExprMeans e) :
    ExprMeans (.call f args) := by
  intro ctx g hg hs ho v τ c hok
  obtain ⟨vs, c₁, hok₁, hcall⟩ := elabExpr_call_ok.mp hok
  obtain ⟨g₁, hcomp₁, hrun₁⟩ := argsMean h hg hs ho hok₁
  have ht := traced_args (fun e _ => traced_expr e) hs ho hok₁
  -- the call has passed the checks
  rw [emitCall, act_run (rfl : (get : ActM FnContext) c₁ = .ok (c₁, c₁))] at hcall
  obtain ⟨τ', c₂, hcheck, hrest⟩ := act_bind.mp hcall
  obtain ⟨hcheck, rfl⟩ := act_lift.mp hcheck
  obtain ⟨u, c₃, hemit, hret⟩ := act_bind.mp hrest
  obtain ⟨huv, rfl⟩ := act_pure.mp hret
  obtain ⟨rfl, -⟩ := Prod.mk.inj huv
  obtain ⟨sig, hsig, hparams⟩ : ∃ sig, c₂.sigs f = some sig ∧ vs.map Prod.snd = sig.params := by
    rcases checkArgs_decides c₂.sigs f vs noSpan with ⟨hsig, -⟩ | ⟨-, e, he⟩
    · exact hsig
    · cases hcheck.symm.trans he
  obtain ⟨g₂, hcomp₂, hlast₂, hrun₂⟩ := emitHere_means hcomp₁.toLogged ht.settled ht.isOpen rfl hemit
  refine ⟨g₂, hcomp₁.trans hcomp₂, hlast₂, fun M G hG hx N callee hc ρ env σ hρ hp => ?_⟩
  rw [evalExpr]
  refine (hrun₁ M G hG (hcomp₂.toExtends.trans hx) hc hρ hp).bind fun as F _ hF => ?_
  obtain ⟨env₁, rfl, hp₁, hkeep, has⟩ := hF
  have hlen : as.length = sig.params.length := by
    rw [← hparams, List.length_map, ← has.length_eq, List.length_map]
  refine (hrun₂ M G hG hx hp₁ (y := fun k => run M k f as >>= Comp.expect .voidCall) ?_ (fun k => ?_) ?_).mono
    fun a F _ hF => hF.after hcomp₁.nextValue hkeep
  · exact .bind (run_rising M f as) fun _ => .const _
  · have hargs : (vs.map Prod.fst).mapM env₁.get = .ok as :=
      mapM_eq_ok.mpr (has.imp fun _ _ => Ir.Env.get_eq_ok.mpr)
    rw [execInst, run]
    dsimp only
    cases M.function f with
    | none => rfl
    | some d =>
      dsimp only
      rw [hargs, ok_bind, bind_assoc]
      rfl
  · have hbind := Tracks.call (run_rising M f as) (H := fun c _ => Comp.expect .voidCall c)
      (f := pure) (P := fun a c => c = some a) (R := fun a F => F = fun _ => .ok a) (fun _ => .const _)
      (((ht.sigs ▸ hc) f sig hsig as hlen).mono fun a F _ hF => ⟨_, rfl, hF⟩) fun a c _ hac => by
        subst hac
        exact .ok rfl
    rwa [bind_pure] at hbind

/-- The branch on a left operand. -/
theorem exec_shortBranch (short : Bool) {b : Bool} {lhs : ValueId} (s₁ s₂ : BlockId)
    (h : env lhs = some (.bool b)) :
    execTerminator env (shortBranch short lhs s₁ s₂) = .ok (.goto (if b = short then s₁ else s₂)) := by
  cases short <;> cases b <;> simp [shortBranch, execTerminator, Ir.Env.get, h, RtValue.asBool]

theorem mem_shortBranch {short : Bool} {lhs : ValueId} {s₁ s₂ s : BlockId} :
    s ∈ (shortBranch short lhs s₁ s₂).successors ↔ s = s₁ ∨ s = s₂ := by
  cases short <;> simp [shortBranch, Terminator.successors, or_comm]

theorem exprMeans_logic (op : Connective) (hl : ExprMeans l) (hr : ExprMeans r) :
    ExprMeans (.logic op l r) := by
  intro ctx g hg hs ho v τ c hok
  obtain ⟨lhs, c₁, s, c₂, rhs, c₃, u, hok₁, hopen, hok₂, hclose, hret⟩ := elabExpr_logic_ok.mp hok
  obtain ⟨rfl, -⟩ := Prod.mk.inj hret
  obtain ⟨g₁, hcomp₁, hlast₁, hrun₁⟩ := hl hg hs ho hok₁
  have ht₁ := traced_expr l hs ho hok₁
  -- the three blocks
  obtain ⟨s', c₂', -, hopen', hjoin⟩ :=
    Backend.standard_follows.openShortCircuit ht₁.settled ht₁.isOpen op.short lhs
  obtain ⟨rfl, rfl⟩ := Prod.mk.inj (Except.ok.inj (hopen.symm.trans hopen'))
  obtain ⟨c₂', g₂, hopen', hbegun⟩ :=
    hcomp₁.toLogged.openShortCircuit ht₁.settled ht₁.isOpen op.short lhs
  obtain ⟨rfl, rfl⟩ := Prod.mk.inj (Except.ok.inj (hopen.symm.trans hopen'))
  obtain ⟨g₃, hcomp₃, hlast₃, hrun₃⟩ := hr hbegun.toLogged hjoin.settled hjoin.isOpen hok₂
  have ht₃ := traced_expr r hjoin.settled hjoin.isOpen hok₂
  obtain ⟨g₄, hcomp₄, hx₄, hhere, hjump, hkept, hphi⟩ := hbegun.close hcomp₁.toLogged hcomp₃
    (hjoin.trans ht₃.toValued) ht₃.toValued hlast₃ hclose
  refine ⟨g₄, hcomp₁.trans hcomp₄, by rw [hhere, hphi]; rfl,
    fun M G hG hx N callee hc ρ env σ hρ hp => ?_⟩
  have hx₃ := hx₄.trans hx
  have hx₂ := hcomp₃.toExtends.trans hx₃
  have hx₁ := hbegun.toExtends.trans hx₂
  -- the blocks in the finished function
  obtain ⟨hbranch, hlog₁⟩ := hx₂.finished hbegun.branch
  rw [hbegun.logs, if_neg (Nat.ne_of_lt ht₁.settled.here)] at hlog₁
  obtain ⟨hshort, hlogS⟩ := hx₂.finished hbegun.jump
  rw [hbegun.logs, if_pos rfl] at hlogS
  obtain ⟨htail, hlog₃⟩ := hx.finished hjump
  rw [hkept] at hlog₃
  obtain ⟨more, hlogJ⟩ := hx.log (c₁.size + 2)
  rw [hphi] at hlogJ
  have hnew : ∀ b, c₁.size ≤ b → ∀ j ∈ G.builder.func.instsAt b, g₁.builder.nextValue ≤ j.id := fun b hb =>
    hx₁.fresh (hcomp₁.toLogged.size.trans_le hb)
  have hjoinIds := hnew (c₁.size + 2) (Nat.le_add_right _ _)
  have hq : g₄.place c.currentBlock = ⟨c₁.size + 2, [.inst ⟨v, .bool, .phi [(c₁.size, c₁.builder.nextValue),
      (c₃.currentBlock, rhs)]⟩], g₄.builder.nextValue⟩ := by
    rw [Ghost.place, hhere, hphi]
  rw [hq, evalExpr]
  refine (hrun₁ M G hG hx₁).bind hc hρ hp hcomp₁.nextValue fun a env₁ hp₁ ha _ => ?_
  rw [Ghost.place, ← hlog₁] at hp₁ ⊢
  cases a with
  | i64 a => exact .panic _
  | bool b =>
    show Tracks EvalError.out N (if b = op.short then _ else _) _ _
    have hexec := exec_shortBranch op.short c₁.size (c₁.size + 1) ha
    by_cases hb : b = op.short
    · -- the left operand decides
      rw [if_pos hb] at hexec ⊢
      rw [hb]
      obtain ⟨env₂, hp₂, -, hframe, hgoto⟩ := hp₁.goto hG hbranch hexec (mem_shortBranch.mpr (.inl rfl)) 0
      have hlog : G.log c₁.size =
          [] ++ .inst ⟨c₁.builder.nextValue, .bool, .constBool op.short⟩ :: [] := hlogS
      have hp₃ := hp₂.inst hG hlog (fun w hw => Ir.Env.insert_of_ne env₂ hw (.bool op.short)) (by simp) 0
      rw [List.nil_append, ← hlogS] at hp₃
      refine (hgoto ?_).le (Nat.le_succ N)
      rw [resume_const hlog 0 fun _ => rfl, List.nil_append, ← hlogS]
      refine (hp₃.meet hG hshort hlogJ rfl (by rw [hlogS]; rfl) (Ir.Env.insert_self _ _ _) hjoinIds _).mono
        fun a F _ hF => hF.after (Nat.le_refl _) fun w hw => ?_
      have hne : w ≠ c₁.builder.nextValue := Nat.ne_of_lt (hw.trans_eq (by rw [← hcomp₁.builder]))
      rw [Ir.Env.insert_of_ne env₂ hne]
      exact hframe w fun j hj => Nat.ne_of_gt (Nat.lt_of_lt_of_le hw (hnew _ (Nat.le_refl _) j hj))
    · rw [if_neg hb] at hexec ⊢
      obtain ⟨env₂, hp₂, -, hframe, hgoto⟩ :=
        hp₁.goto hG hbranch hexec (mem_shortBranch.mpr (.inr rfl)) g₂.builder.nextValue
      refine (hgoto ?_).le (Nat.le_succ N)
      have hq₂ : g₂.place c₂.currentBlock = ⟨c₁.size + 1, [], g₂.builder.nextValue⟩ := by
        rw [Ghost.place, hbegun.isHere, hbegun.logs, if_neg (Nat.ne_of_gt (Nat.lt_succ_self _)),
          hcomp₁.tidy.toSound.log_new (hcomp₁.toLogged.size.trans_le (Nat.le_succ _))]
      rw [← hq₂] at hp₂ ⊢
      refine (hrun₃ M G hG hx₃ ((hjoin.sigs.trans ht₁.sigs) ▸ hc) hρ hp₂).bind fun a F _ hF => ?_
      obtain ⟨env₃, rfl, hp₃, hkeep, ha₃⟩ := hF
      rw [Ghost.place, ← hlog₃] at hp₃ ⊢
      cases a with
      | i64 a => exact .panic _
      | bool a =>
        refine (hp₃.meet hG htail hlogJ rfl (by rw [hlog₃]; exact hlast₃) ha₃ hjoinIds _).mono
          fun a F _ hF => hF.after (Nat.le_refl _) fun w hw => ?_
        rw [hkeep w (Nat.lt_of_lt_of_le hw hbegun.nextValue)]
        exact hframe w fun j hj => Nat.ne_of_gt (Nat.lt_of_lt_of_le hw (hnew _ (Nat.le_succ _) j hj))

theorem exprMeans (e : Expr) : ExprMeans e := by
  induction e with
  | int n =>
    exact exprMeans_const rfl (by rw [elabExpr]) (fun _ _ => by rw [evalExpr]) fun _ _ _ _ => rfl
  | bool b =>
    exact exprMeans_const rfl (by rw [elabExpr]) (fun _ _ => by rw [evalExpr]) fun _ _ _ _ => rfl
  | var x => exact exprMeans_var x
  | call f args ih => exact exprMeans_call f ih
  | paren e ih =>
    intro ctx g hg hs ho v τ c hok
    rw [elabExpr] at hok
    obtain ⟨g', hcomp, hlast, hrun⟩ := ih hg hs ho hok
    refine ⟨g', hcomp, hlast, fun M G hG hx N callee hc ρ env σ hρ hp => ?_⟩
    rw [evalExpr]
    exact hrun M G hG hx hc hρ hp
  | un op e ih => exact exprMeans_un op ih
  | bin op l r ihl ihr => exact exprMeans_bin op ihl ihr
  | logic op l r ihl ihr => exact exprMeans_logic op ihl ihr

end Means

end Parser
end Chakobsa
