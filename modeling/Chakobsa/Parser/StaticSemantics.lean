import Chakobsa.Parser.Totality
import Chakobsa.Parser.Precedence
import Chakobsa.Parser.Program
import Chakobsa.Lexer.Rendered

/-!
# The parser accepts exactly the static semantics

The static semantics of the surface language, stated without the parser: the type of an expression
in an environment that lists the declarations in scope, the latest first, and which statements are
legal. `parse_iff_wellFormed` says that `parse` returns `Ok` on the rendering of a program exactly
when the program is well formed.

The parser decides all of this while it emits code. Whether a statement can be reached it reads off
the block it is in, so the induction carries along that the current block is terminated exactly if
the statements so far are.
-/

namespace Chakobsa
namespace Parser

open Ir Lexer ExceptLemmas FnContext

/-! ### The static semantics -/

/-- The variables in scope with their types; the latest declaration comes first. -/
abbrev Env : Type := List (String × Ty)

mutual

/-- The type of an expression in a program, if it has one. -/
def Expr.typeOf (P : Program) (Γ : Env) : Expr → Option Ty
  | .int _ => some .i64
  | .bool _ => some .bool
  | .var x => Γ.lookup x
  | .call f args =>
    match P.find? fun d => d.name == f with
    | none => none
    | some callee =>
      if typesOf P Γ args = some (callee.params.map Prod.snd) then some callee.retTy else none
  | .paren e => e.typeOf P Γ
  | .un op e => if e.typeOf P Γ = some op.operandType then some op.resultType else none
  | .bin op l r =>
    if l.typeOf P Γ = some .i64 ∧ r.typeOf P Γ = some .i64 then some op.binOp.resultType else none
  | .logic _ l r =>
    if l.typeOf P Γ = some .bool ∧ r.typeOf P Γ = some .bool then some .bool else none

def typesOf (P : Program) (Γ : Env) : List Expr → Option (List Ty)
  | [] => some []
  | e :: es =>
    match e.typeOf P Γ, typesOf P Γ es with
    | some τ, some τs => some (τ :: τs)
    | _, _ => none

end

mutual

/-- The statement ends in a `return` whichever way it goes. -/
def Stmt.terminates : Stmt → Bool
  | .ret _ => true
  | .cond _ thn els => stmtsTerminate thn && els.terminates
  | _ => false

def Else.terminates : Else → Bool
  | .none => false
  | .block b => stmtsTerminate b
  | .elif _ thn els => stmtsTerminate thn && els.terminates

/-- The last of the statements terminates. -/
def stmtsTerminate : List Stmt → Bool
  | [] => false
  | s :: rest => if rest.isEmpty then s.terminates else stmtsTerminate rest

end

/-- The environment after a statement: a `let` is in scope from there on. -/
def Stmt.envAfter (P : Program) (Γ : Env) : Stmt → Env
  | .letVar x e =>
    match e.typeOf P Γ with
    | some τ => (x, τ) :: Γ
    | none => Γ
  | _ => Γ

mutual

/-- A statement is legal in a function that returns `ret`. -/
def Stmt.Legal (P : Program) (ret : Ty) (Γ : Env) : Stmt → Prop
  | .letVar _ e => ∃ τ, e.typeOf P Γ = some τ
  | .assign x e => ∃ τ, Γ.lookup x = some τ ∧ e.typeOf P Γ = some τ
  | .ret e => e.typeOf P Γ = some ret
  | .expr e => ∃ τ, e.typeOf P Γ = some τ
  | .cond c thn els => c.typeOf P Γ = some .bool ∧ stmtsLegal P ret Γ thn ∧ els.Legal P ret Γ
  | .while c body => c.typeOf P Γ = some .bool ∧ stmtsLegal P ret Γ body

def Else.Legal (P : Program) (ret : Ty) (Γ : Env) : Else → Prop
  | .none => True
  | .block b => stmtsLegal P ret Γ b
  | .elif c thn els => c.typeOf P Γ = some .bool ∧ stmtsLegal P ret Γ thn ∧ els.Legal P ret Γ

/-- The statements of a block are legal, and none follows one that terminates. -/
def stmtsLegal (P : Program) (ret : Ty) (Γ : Env) : List Stmt → Prop
  | [] => True
  | s :: rest => s.Legal P ret Γ ∧ (s.terminates = true → rest = []) ∧
      stmtsLegal P ret (s.envAfter P Γ) rest

end

section

-- the equations are derived once here, not again in each proof that rewrites with them
attribute [local simp] Expr.typeOf typesOf Stmt.terminates Else.terminates stmtsTerminate
  Stmt.envAfter Stmt.Legal Else.Legal stmtsLegal

end

/-- A well-formed program: distinct functions with distinct parameters, and legal bodies. -/
structure Program.WellFormed (P : Program) : Prop where
  functions : (P.map FnDecl.name).Nodup
  params : ∀ d ∈ P, (d.params.map Prod.fst).Nodup
  bodies : ∀ d ∈ P, stmtsLegal P d.retTy d.params.reverse d.body

/-! ### Actions that decide -/

/-- From `ctx`, `m` succeeds if and only if `p` holds, and then as `Q` says. -/
def ActDecides {α : Type} (m : ActM α) (ctx : FnContext) (p : Prop) (Q : α → FnContext → Prop) :
    Prop :=
  Comp.Decides (m ctx) p fun r => Q r.1 r.2

section Decides

variable {α β : Type} {ctx ctx' : FnContext} {p r : Prop} {m : ActM α} {f : α → ActM β}
  {R : α → FnContext → Prop} {Q : β → FnContext → Prop}

theorem ActDecides.bind (hm : ActDecides m ctx p R) (hp : r → p)
    (hf : ∀ a ctx', p → R a ctx' → ActDecides (f a) ctx' r Q) : ActDecides (m >>= f) ctx r Q :=
  Comp.Decides.bind hm hp fun a h ha => hf a.1 a.2 h ha

theorem ActDecides.run {a : α} (hm : m ctx = .ok (a, ctx')) (hf : ActDecides (f a) ctx' r Q) :
    ActDecides (m >>= f) ctx r Q := by
  unfold ActDecides
  rw [act_run hm]
  exact hf

/-- The last action, which succeeds. -/
theorem ActDecides.last {a : α} (hm : m ctx = .ok (a, ctx')) (hp : p) (hR : R a ctx') :
    ActDecides m ctx p R := .inl ⟨hp, _, hm, hR⟩

theorem ActDecides.fail {e : ParseError} (hp : ¬ p) :
    ActDecides (fun _ => Comp.fail e : ActM α) ctx p R := .inr ⟨hp, e, rfl⟩

theorem ActDecides.congr {q : Prop} (hm : ActDecides m ctx p R) (h : p ↔ q) :
    ActDecides m ctx q R := propext h ▸ hm

theorem ActDecides.mono {R' : α → FnContext → Prop} (hm : ActDecides m ctx p R)
    (h : ∀ a ctx', p → R a ctx' → R' a ctx') : ActDecides m ctx p R' := by
  rcases hm with ⟨hp, a, hok, ha⟩ | hf
  · exact .inl ⟨hp, a, hok, h a.1 a.2 hp ha⟩
  · exact .inr hf

end Decides

/-! ### Expressions -/

/-- The context is that of a function which returns `ret`, with the variables of `Γ` in scope. -/
structure Scoped (P : Program) (ret : Ty) (Γ : Env) (ctx : FnContext) : Prop where
  tame : ctx.Tame
  lookup : ∀ x, lookupVar ctx.scopes x = Γ.lookup x
  retTy : ctx.retTy = some ret
  sigs : ctx.sigs = P.sigs

section Expr

variable {P : Program} {ret : Ty} {Γ : Env} {ctx ctx' : FnContext}

theorem Scoped.evaluated (h : Scoped P ret Γ ctx) (he : Evaluated ctx ctx') :
    Scoped P ret Γ ctx' :=
  ⟨he.tame, fun x => he.scopes ▸ h.lookup x, he.retTy.trans h.retTy, he.sigs.trans h.sigs⟩

/-- The elaboration of `e` decides whether it has a type. -/
def ExprDecides (P : Program) (ret : Ty) (e : Expr) : Prop :=
  ∀ ⦃Γ ctx⦄, Scoped P ret Γ ctx → ctx.Open →
    ActDecides (elabExpr e) ctx (∃ τ, e.typeOf P Γ = some τ) fun v ctx' =>
      e.typeOf P Γ = some v.2 ∧ Evaluated ctx ctx'

/-- An expression, and the check of its type. -/
theorem ExprDecides.typed {e : Expr} (h : ExprDecides P ret e) (hs : Scoped P ret Γ ctx)
    (ho : ctx.Open) {τ : Ty} {α : Type} {f : ValueId × Ty → ActM α} {k : ValueId → ActM α}
    (hf : ∀ v σ, f (v, σ) = needTy τ σ >>= fun _ => k v) {r : Prop} {Q : α → FnContext → Prop}
    (hr : r → e.typeOf P Γ = some τ)
    (hk : e.typeOf P Γ = some τ → ∀ v c, Evaluated ctx c → ActDecides (k v) c r Q) :
    ActDecides (elabExpr e >>= f) ctx r Q := by
  refine (h hs ho).bind (fun hr' => ⟨τ, hr hr'⟩) fun v c _ hv => ?_
  rw [hf v.1 v.2]
  by_cases hτ : v.2 = τ
  · exact .run (a := ()) (needTy_ok.mpr ⟨hτ, rfl⟩) (hk (hτ ▸ hv.1) v.1 c hv.2)
  · refine .inr ⟨fun hr' => hτ (Option.some.inj (hv.1.symm.trans (hr hr'))),
      .typeMismatch τ v.2 noSpan, ?_⟩
    show (needTy τ v.2 c >>= fun _ => _) = _
    rw [needTy, if_pos hτ]
    rfl

theorem decides_const {e : Expr} {ty : Ty} {kind : InstKind} (he : elabExpr e = emitConst ty kind)
    (hty : ∀ Γ, e.typeOf P Γ = some ty) : ExprDecides P ret e := by
  intro Γ ctx hs ho
  rw [he]
  obtain ⟨v, ctx', hok, h⟩ := emitConst_run hs.tame ho ty kind
  exact .last hok ⟨ty, hty Γ⟩ ⟨hty Γ, h⟩

theorem decides_var (x : String) : ExprDecides P ret (.var x) := by
  intro Γ ctx hs ho
  rw [elabExpr]
  have hty : (Expr.var x).typeOf P Γ = lookupVar ctx.scopes x := by
    rw [hs.lookup, Expr.typeOf]
  rw [hty]
  cases hx : lookupVar ctx.scopes x with
  | some τ =>
    obtain ⟨v, ctx', hok, h⟩ := readName_run hs.tame ho hx noSpan
    exact .last hok ⟨τ, rfl⟩ ⟨rfl, h⟩
  | none =>
    refine .run (rfl : (get : ActM FnContext) ctx = .ok (ctx, ctx)) ?_
    simp only [hx]
    exact .fail (by simp)

theorem decides_un (op : UnOp) {e : Expr} (h : ExprDecides P ret e) :
    ExprDecides P ret (.un op e) := by
  intro Γ ctx hs ho
  rw [elabExpr]
  refine h.typed hs ho (fun _ _ => rfl) (fun hr => ?_) fun hty v c hc => ?_
  · obtain ⟨τ, hτ⟩ := hr
    rw [Expr.typeOf] at hτ
    by_contra hne
    simp [hne] at hτ
  · have hun : (Expr.un op e).typeOf P Γ = some op.resultType := by rw [Expr.typeOf, if_pos hty]
    obtain ⟨w, c', hok, hc'⟩ := emitHere_run hc.tame hc.isOpen op.resultType (.un op v)
    exact .last ((act_run hok).trans rfl) ⟨_, hun⟩ ⟨hun, hc.trans hc'⟩

theorem decides_bin (op : Operator) {l r : Expr} (hl : ExprDecides P ret l)
    (hr : ExprDecides P ret r) : ExprDecides P ret (.bin op l r) := by
  intro Γ ctx hs ho
  rw [elabExpr]
  have hboth : (∃ τ, (Expr.bin op l r).typeOf P Γ = some τ) →
      l.typeOf P Γ = some .i64 ∧ r.typeOf P Γ = some .i64 := by
    rintro ⟨τ, hτ⟩
    rw [Expr.typeOf] at hτ
    by_contra hne
    simp [hne] at hτ
  refine hl.typed hs ho (fun _ _ => rfl) (fun h => (hboth h).1) fun htyl v c hc => ?_
  refine hr.typed (hs.evaluated hc) hc.isOpen (fun _ _ => rfl) (fun h => (hboth h).2)
    fun htyr w c' hc' => ?_
  have hbin : (Expr.bin op l r).typeOf P Γ = some op.binOp.resultType := by
    rw [Expr.typeOf, if_pos ⟨htyl, htyr⟩]
  obtain ⟨u, c'', hok, hc''⟩ := emitHere_run hc'.tame hc'.isOpen op.binOp.resultType
    (.bin op.binOp v w)
  exact .last ((act_run hok).trans rfl) ⟨_, hbin⟩ ⟨hbin, (hc.trans hc').trans hc''⟩

theorem decides_logic (op : Connective) {l r : Expr} (hl : ExprDecides P ret l)
    (hr : ExprDecides P ret r) : ExprDecides P ret (.logic op l r) := by
  intro Γ ctx hs ho
  rw [elabExpr]
  have hboth : (∃ τ, (Expr.logic op l r).typeOf P Γ = some τ) →
      l.typeOf P Γ = some .bool ∧ r.typeOf P Γ = some .bool := by
    rintro ⟨τ, hτ⟩
    rw [Expr.typeOf] at hτ
    by_contra hne
    simp [hne] at hτ
  refine hl.typed hs ho (fun _ _ => rfl) (fun h => (hboth h).1) fun htyl v c hc => ?_
  obtain ⟨s, c₁, hok₁, h₁⟩ := openShortCircuit_run hc.tame op.short v
  refine .run hok₁ ?_
  have hc₁ := hc.trans h₁.toEvaluated
  refine hr.typed (hs.evaluated hc₁) hc₁.isOpen (fun _ _ => rfl) (fun h => (hboth h).2)
    fun htyr w c₂ hc₂ => ?_
  have hlogic : (Expr.logic op l r).typeOf P Γ = some .bool := by
    rw [Expr.typeOf, if_pos ⟨htyl, htyr⟩]
  obtain ⟨u, c₃, hok₃, hc₃⟩ := closeShortCircuit_run (h₁.trans hc₂) w
  exact .last ((act_run hok₃).trans rfl) ⟨_, hlogic⟩ ⟨hlogic, hc.trans hc₃⟩

/-- The arguments of a call. -/
def ArgsDecide (P : Program) (ret : Ty) (es : List Expr) : Prop :=
  ∀ ⦃Γ ctx⦄, Scoped P ret Γ ctx → ctx.Open →
    ActDecides (elabExprs es) ctx (∃ τs, typesOf P Γ es = some τs) fun vs ctx' =>
      typesOf P Γ es = some (vs.map Prod.snd) ∧ Evaluated ctx ctx'

theorem decides_args {es : List Expr} (h : ∀ e ∈ es, ExprDecides P ret e) :
    ArgsDecide P ret es := by
  induction es with
  | nil =>
    intro Γ ctx hs ho
    exact .last rfl ⟨[], rfl⟩ ⟨rfl, .refl hs.tame ho⟩
  | cons e es ih =>
    intro Γ ctx hs ho
    rw [elabExprs]
    have hcons : (∃ τs, typesOf P Γ (e :: es) = some τs) →
        (∃ τ, e.typeOf P Γ = some τ) ∧ ∃ τs, typesOf P Γ es = some τs := by
      rintro ⟨τs, hτs⟩
      rw [typesOf] at hτs
      split at hτs
      · next τ τs' he hes => exact ⟨⟨τ, he⟩, τs', hes⟩
      · cases hτs
    refine (h e List.mem_cons_self hs ho).bind (fun hr => (hcons hr).1) fun v c _ hv => ?_
    refine (ih (fun e' he' => h e' (List.mem_cons_of_mem _ he')) (hs.evaluated hv.2)
      hv.2.isOpen).bind (fun hr => (hcons hr).2) fun vs c' _ hvs => ?_
    have htys : typesOf P Γ (e :: es) = some ((v :: vs).map Prod.snd) := by
      rw [typesOf, hv.1, hvs.1]
      rfl
    exact .last rfl ⟨_, htys⟩ ⟨htys, hv.2.trans hvs.2⟩

/-- The checks of a call pass if the arguments have the types of the parameters. -/
theorem checkArgs_decides (sigs : Sigs) (name : String) (args : List (ValueId × Ty)) (span : Span) :
    (checkArgs sigs name args span).Decides
      (∃ sig, sigs name = some sig ∧ args.map Prod.snd = sig.params) fun τ =>
        ∃ sig, sigs name = some sig ∧ τ = sig.retTy.getD .i64 := by
  unfold checkArgs
  cases hsig : sigs name with
  | none => exact .inr ⟨by simp, _, rfl⟩
  | some sig =>
    have hiff : (∃ sig', some sig = some sig' ∧ args.map Prod.snd = sig'.params) ↔
        args.map Prod.snd = sig.params := by simp
    dsimp only
    by_cases hlen : sig.params.length = args.length
    · rw [if_neg (show ¬ sig.params.length ≠ args.length from not_not.mpr hlen)]
      -- the types are compared one by one
      have hall : ∀ (args : List (ValueId × Ty)) (params : List Ty), params.length = args.length →
          ((∀ p ∈ args.zip params, p.1.2 = p.2) ↔ args.map Prod.snd = params) := by
        intro args
        induction args with
        | nil =>
          intro params h
          simp [List.length_eq_zero_iff.mp h]
        | cons a args ih =>
          rintro (_ | ⟨ty, params⟩) h
          · simp at h
          · simp only [List.zip_cons_cons, List.forall_mem_cons, List.map_cons, List.cons.injEq,
              ih params (by simpa using h)]
      have hforM : ∀ l : List ((ValueId × Ty) × Ty), Comp.Decides (forM l fun p =>
          if p.1.2 ≠ p.2 then (Comp.fail (.typeMismatch p.2 p.1.2 span) : ParseM Unit) else .ok ())
          (∀ p ∈ l, p.1.2 = p.2) fun _ => True := by
        intro l
        induction l with
        | nil => exact .inl ⟨by simp, (), rfl, trivial⟩
        | cons p l ih =>
          rw [List.forM_cons]
          by_cases hp : p.1.2 = p.2
          · rw [if_neg (not_not.mpr hp)]
            refine Comp.Decides.bind (p := True) (.inl ⟨trivial, (), rfl, trivial⟩)
              (P := fun _ => True) (fun _ => trivial) fun _ _ _ => ?_
            have hcons : (∀ q ∈ p :: l, q.1.2 = q.2) ↔ ∀ q ∈ l, q.1.2 = q.2 := by simp [hp]
            rw [hcons]
            exact ih
          · rw [if_pos hp]
            exact .inr ⟨fun hall => hp (hall p List.mem_cons_self), _, rfl⟩
      refine (hforM _).bind (fun hr => (hall _ _ hlen).mpr (hiff.mp hr)) fun _ h _ => ?_
      exact .inl ⟨hiff.mpr ((hall _ _ hlen).mp h), _, rfl, sig, rfl, rfl⟩
    · rw [if_pos (show sig.params.length ≠ args.length from hlen)]
      refine .inr ⟨fun hr => hlen ?_, _, rfl⟩
      rw [← hiff.mp hr, List.length_map]

theorem decides_call (func : String) {args : List Expr} (h : ∀ e ∈ args, ExprDecides P ret e) :
    ExprDecides P ret (.call func args) := by
  intro Γ ctx hs ho
  rw [elabExpr]
  have htype : ∀ τ, (Expr.call func args).typeOf P Γ = some τ ↔
      ∃ d, P.find? (fun d => d.name == func) = some d ∧
        typesOf P Γ args = some (d.params.map Prod.snd) ∧ d.retTy = τ := by
    intro τ
    rw [Expr.typeOf]
    cases P.find? fun d => d.name == func with
    | none => simp
    | some d => by_cases hd : typesOf P Γ args = some (d.params.map Prod.snd) <;> simp [hd]
  refine (decides_args h hs ho).bind (fun hr => ?_) fun vs c _ hvs => ?_
  · obtain ⟨τ, hτ⟩ := hr
    obtain ⟨d, -, htys, -⟩ := (htype τ).mp hτ
    exact ⟨_, htys⟩
  · have hsigs : c.sigs = P.sigs := hvs.2.sigs.trans hs.sigs
    rcases checkArgs_decides c.sigs func vs noSpan with ⟨⟨sig, hsig, hargs⟩, τ, hok, hret⟩ | ⟨hne, e, he⟩
    · obtain ⟨d, hd, rfl⟩ : ∃ d, P.find? (fun d => d.name == func) = some d ∧ d.sig = sig := by
        rw [hsigs, Program.sigs, Option.map_eq_some_iff] at hsig
        exact hsig
      obtain rfl : d.retTy = τ := by
        obtain ⟨sig', hsig', rfl⟩ := hret
        obtain rfl := Option.some.inj (hsig.symm.trans hsig')
        rfl
      have hcall : (Expr.call func args).typeOf P Γ = some d.retTy :=
        (htype _).mpr ⟨d, hd, by rw [hvs.1, hargs]; rfl, rfl⟩
      obtain ⟨v, c', hok', hc'⟩ := emitCall_run hvs.2.tame hvs.2.isOpen hok
      exact .last hok' ⟨_, hcall⟩ ⟨hcall, hvs.2.trans hc'⟩
    · refine .inr ⟨?_, e, ?_⟩
      · rintro ⟨τ, hτ⟩
        obtain ⟨d, hd, htys, -⟩ := (htype τ).mp hτ
        refine hne ⟨d.sig, by rw [hsigs, Program.sigs, hd]; rfl, ?_⟩
        exact Option.some.inj (hvs.1.symm.trans htys)
      · rw [emitCall, act_run (rfl : (get : ActM FnContext) c = .ok (c, c))]
        show ((checkArgs c.sigs func vs noSpan >>= fun ty => Except.ok (ty, c)) >>= fun _ => _) = _
        rw [he]
        rfl

theorem decides_expr (e : Expr) : ExprDecides P ret e := by
  induction e with
  | int n => exact decides_const (by rw [elabExpr]) fun _ => by rw [Expr.typeOf]
  | bool b => exact decides_const (by rw [elabExpr]) fun _ => by rw [Expr.typeOf]
  | var x => exact decides_var x
  | call func args ih => exact decides_call func ih
  | paren e ih =>
    intro Γ ctx hs ho
    rw [elabExpr, Expr.typeOf]
    exact ih hs ho
  | un op e ih => exact decides_un op ih
  | bin op l r ihl ihr => exact decides_bin op ihl ihr
  | logic op l r ihl ihr => exact decides_logic op ihl ihr

end Expr

/-! ### Statements -/

section Stmt

variable {P : Program} {ret : Ty} {Γ : Env} {ctx ctx' : FnContext}

/-- What a statement leaves behind: the variables of `Γ` are in scope, and the current block is
terminated if `done` says so. -/
structure Ran (P : Program) (ret : Ty) (Γ : Env) (done : Bool) (ctx ctx' : FnContext) : Prop
    extends Later ctx ctx' where
  vars : Scoped P ret Γ ctx'
  outer : ctx'.scopes.tail = ctx.scopes.tail
  here_done : ctx'.builder.isTerminated ctx'.currentBlock = done

/-- The same for a block or an `if`, after which the scopes are those there were. -/
structure RanBlock (done : Bool) (ctx ctx' : FnContext) : Prop extends Later ctx ctx' where
  tame : ctx'.Tame
  scopes : ctx'.scopes = ctx.scopes
  here_done : ctx'.builder.isTerminated ctx'.currentBlock = done

def StmtDecides (P : Program) (ret : Ty) (s : Stmt) : Prop :=
  ∀ ⦃Γ ctx⦄, Scoped P ret Γ ctx → ctx.Open →
    ActDecides (elabStmt s) ctx (s.Legal P ret Γ) fun _ ctx' =>
      Ran P ret (s.envAfter P Γ) s.terminates ctx ctx'

def StmtsDecide (P : Program) (ret : Ty) (ss : List Stmt) : Prop :=
  ∀ ⦃Γ ctx⦄, Scoped P ret Γ ctx → ctx.Open →
    ActDecides (elabStmts ss) ctx (stmtsLegal P ret Γ ss) fun _ ctx' =>
      ∃ Γ', Ran P ret Γ' (stmtsTerminate ss) ctx ctx'

/-- An arm of an `if`, which says whether it ends in a terminated block. -/
def ElseDecides (P : Program) (ret : Ty) (els : Else) : Prop :=
  ∀ ⦃Γ ctx⦄, Scoped P ret Γ ctx → ctx.Open →
    ActDecides (elabElse els) ctx (els.Legal P ret Γ) fun ended ctx' =>
      ended = els.terminates ∧ RanBlock els.terminates ctx ctx'

theorem Scoped.ran {done : Bool} (h : Scoped P ret Γ ctx) (hr : RanBlock done ctx ctx') :
    Scoped P ret Γ ctx' :=
  ⟨hr.tame, fun x => hr.scopes ▸ h.lookup x, hr.retTy.trans h.retTy, hr.sigs.trans h.sigs⟩

theorem RanBlock.ran {done : Bool} (h : RanBlock done ctx ctx') (hs : Scoped P ret Γ ctx) :
    Ran P ret Γ done ctx ctx' :=
  ⟨h.toLater, hs.ran h, by rw [h.scopes], h.here_done⟩

theorem FnContext.Evaluated.ran (h : Evaluated ctx ctx') (hs : Scoped P ret Γ ctx) :
    Ran P ret Γ false ctx ctx' :=
  ⟨h.toLater, hs.evaluated h, by rw [h.scopes], h.isOpen⟩

/-- A declaration hides the earlier ones of its name. -/
theorem lookup_declare {s : Scope} {rest : List Scope} {x y : String} {τ : Ty}
    (h : lookupVar (s :: rest) y = Γ.lookup y) :
    lookupVar (insertAt s x (some τ) :: rest) y = List.lookup y ((x, τ) :: Γ) := by
  rw [List.lookup_cons]
  by_cases hy : y = x
  · subst hy
    simp [lookupVar, insertAt]
  · rw [show (y == x) = false by simpa using hy, ← h]
    simp only [lookupVar, List.findSome?_cons, insertAt, if_neg hy]

theorem decides_let (x : String) (e : Expr) : StmtDecides P ret (.letVar x e) := by
  intro Γ ctx hs ho
  rw [elabStmt]
  refine (decides_expr e hs ho).bind (fun hr => by rwa [Stmt.Legal] at hr) fun v c h hv => ?_
  obtain ⟨s, rest, hscopes⟩ := List.exists_cons_of_ne_nil hv.2.tame.scopes
  obtain ⟨c', hok, ht', ho', hlater, hscopes'⟩ := writeLet_run hv.2.tame hv.2.isOpen hscopes x v
  refine .last hok (by rwa [Stmt.Legal]) ⟨hv.2.toLater.trans hlater, ⟨ht', fun y => ?_, ?_, ?_⟩,
    ?_, ho'⟩
  · have hold : lookupVar (s :: rest) y = Γ.lookup y := by
      rw [← hscopes, hv.2.scopes]
      exact hs.lookup y
    rw [hscopes', Stmt.envAfter, hv.1]
    exact lookup_declare hold
  · exact hlater.retTy.trans (hv.2.retTy.trans hs.retTy)
  · exact hlater.sigs.trans (hv.2.sigs.trans hs.sigs)
  · rw [hscopes', ← hv.2.scopes, hscopes]
    rfl

theorem decides_assign (x : String) (e : Expr) : StmtDecides P ret (.assign x e) := by
  intro Γ ctx hs ho
  rw [elabStmt]
  refine (decides_expr e hs ho).bind (fun hr => ?_) fun v c _ hv => ?_
  · rw [Stmt.Legal] at hr
    obtain ⟨τ, -, hτ⟩ := hr
    exact ⟨τ, hτ⟩
  · have hlookup : lookupVar c.scopes x = Γ.lookup x := (hs.evaluated hv.2).lookup x
    have hlegal : (Stmt.assign x e).Legal P ret Γ ↔ lookupVar c.scopes x = some v.2 := by
      rw [Stmt.Legal, hlookup, hv.1]
      simp
    rw [hlegal]
    by_cases hx : lookupVar c.scopes x = some v.2
    · obtain ⟨c', hok, hc'⟩ := writeAssign_run hv.2.tame hv.2.isOpen hx noSpan
      exact .last hok hx ((hv.2.trans hc').ran hs)
    · refine .run (rfl : (get : ActM FnContext) c = .ok (c, c)) ?_
      cases hname : lookupVar c.scopes x with
      | none => exact .fail (by simp)
      | some expected =>
        have hne : expected ≠ v.2 := fun he => hx (by rw [hname, he])
        simp only [if_pos hne]
        exact .fail (by simpa using hne)

theorem decides_ret (e : Expr) : StmtDecides P ret (.ret e) := by
  intro Γ ctx hs ho
  rw [elabStmt, elabReturn]
  refine .run (rfl : (get : ActM FnContext) ctx = .ok (ctx, ctx)) ?_
  simp only [hs.retTy]
  refine (decides_expr e).typed (k := fun v => do terminate (← currentBlock) (.ret (some v))) hs ho
    (fun _ _ => rfl) (fun hr => by rwa [Stmt.Legal] at hr) fun hty v c hc => ?_
  obtain ⟨c', hok, ht', hlater, hscopes, hend⟩ := ret_run hc.tame (some v)
  have hran : RanBlock true ctx c' :=
    ⟨hc.toLater.trans hlater, ht', hscopes.trans hc.scopes, hend⟩
  exact .last hok (by rwa [Stmt.Legal]) (hran.ran hs)

theorem decides_exprStmt (e : Expr) : StmtDecides P ret (.expr e) := by
  intro Γ ctx hs ho
  rw [elabStmt]
  refine (decides_expr e hs ho).bind (fun hr => by rwa [Stmt.Legal] at hr) fun v c h hv => ?_
  exact .last rfl (by rwa [Stmt.Legal]) (hv.2.ran hs)

/-- A block decides as its statements do. -/
theorem decides_block {ss : List Stmt} (h : StmtsDecide P ret ss) (hs : Scoped P ret Γ ctx)
    (ho : ctx.Open) :
    ActDecides (inScope (elabStmts ss)) ctx (stmtsLegal P ret Γ ss) fun _ ctx' =>
      RanBlock (stmtsTerminate ss) ctx ctx' := by
  have hs₁ : Scoped P ret Γ { ctx with scopes := (fun _ => none) :: ctx.scopes } :=
    ⟨⟨hs.tame.sound, hs.tame.here, hs.tame.reach, List.cons_ne_nil _ _⟩,
      fun x => (by simp [lookupVar] : lookupVar ((fun _ => none) :: ctx.scopes) x =
        lookupVar ctx.scopes x).trans (hs.lookup x), hs.retTy, hs.sigs⟩
  have hpush : pushScope ctx = .ok ((), { ctx with scopes := (fun _ => none) :: ctx.scopes }) := rfl
  refine .run hpush ?_
  refine (h hs₁ ho).bind id fun _ c hlegal hr => ?_
  obtain ⟨Γ', hr⟩ := hr
  have hpop : popScope c = .ok ((), { c with scopes := c.scopes.tail }) := rfl
  have htail : c.scopes.tail = ctx.scopes := hr.outer
  refine .last hpop hlegal ⟨?_, ?_, htail, hr.here_done⟩
  · exact ⟨hr.size, hr.ended, hr.closed, hr.reach, hr.here, hr.retTy, hr.sigs⟩
  · have ht := hr.vars.tame
    exact ⟨ht.sound, ht.here, ht.reach, htail ▸ hs.tame.scopes⟩

/-- An `if` decides as its parts do. -/
theorem decides_if {c : Expr} {thn : List Stmt} {els : Else} (hthn : StmtsDecide P ret thn)
    (hels : ElseDecides P ret els) (hs : Scoped P ret Γ ctx) (ho : ctx.Open) :
    ActDecides (elabIf (elabExpr c) (inScope (elabStmts thn)) (elabElse els)) ctx
      (c.typeOf P Γ = some .bool ∧ stmtsLegal P ret Γ thn ∧ els.Legal P ret Γ) fun _ ctx' =>
        RanBlock (stmtsTerminate thn && els.terminates) ctx ctx' := by
  refine (decides_expr c).typed hs ho (fun _ _ => rfl) And.left fun hty v c₁ h₁ => ?_
  obtain ⟨elseBlock, c₂, hok₂, ht₂, ho₂, hs₂, hnew₂, hwait₂⟩ := openIf_run h₁.tame v
  refine .run hok₂ ?_
  have hscoped₁ := hs.evaluated h₁
  have hscoped₂ : Scoped P ret Γ c₂ := ⟨ht₂, fun x => hs₂ ▸ hscoped₁.lookup x,
    hwait₂.retTy.trans hscoped₁.retTy, hwait₂.sigs.trans hscoped₁.sigs⟩
  refine (decides_block hthn hscoped₂ ho₂).bind (fun hr => hr.2.1) fun _ c₃ hlegal₃ h₃ => ?_
  refine .run currentBlock_run ?_
  refine .run (isTerminated_run _) ?_
  refine .run (enterBlock_run _) ?_
  have hwait₃ := hwait₂.trans h₃.toLater
  obtain ⟨hlater₄, ht₄, ho₄⟩ := hwait₃.enter h₃.tame
  have hscoped₃ := hscoped₂.ran h₃
  have hscoped₄ : Scoped P ret Γ { c₃ with currentBlock := elseBlock } :=
    ⟨ht₄, hscoped₃.lookup, hscoped₃.retTy, hscoped₃.sigs⟩
  refine (hels hscoped₄ ho₄).bind (fun hr => hr.2.2) fun elseTerminated c₅ hlegal₅ h₅ => ?_
  obtain ⟨rfl, h₅⟩ := h₅
  -- the first arm ends in a new block, which the other arm does not touch
  have htail : c₁.size ≤ c₃.currentBlock := by
    rcases h₃.here with he | he
    · exact he ▸ hnew₂
    · exact hwait₂.size.trans he
  obtain ⟨c₆, hok₆, ht₆, hlater₆, hs₆, hend₆⟩ := closeIf_run els.terminates
    (hlater₄.trans h₅.toLater) h₅.tame
    ⟨htail, Nat.lt_of_lt_of_le h₃.tame.here h₅.size, h₅.reach _ h₃.tame.reach⟩
    (h₅.ended _ h₃.tame.here hwait₃.ne.symm)
  refine .last hok₆ ⟨hty, hlegal₃, hlegal₅⟩ ⟨h₁.toLater.trans hlater₆, ht₆, ?_, ?_⟩
  · rw [hs₆, h₅.scopes, show ({ c₃ with currentBlock := elseBlock } : FnContext).scopes = c₃.scopes
      from rfl, h₃.scopes, hs₂, h₁.scopes]
  · rw [hend₆]
    exact congrArg (· && els.terminates) h₃.here_done

theorem decides_while {c : Expr} {body : List Stmt} (hbody : StmtsDecide P ret body) :
    StmtDecides P ret (.while c body) := by
  intro Γ ctx hs ho
  rw [elabStmt, elabWhile]
  obtain ⟨header, c₁, hok₁, hloop₁, ht₁, ho₁, hs₁, -⟩ := openWhile_run hs.tame
  refine .run hok₁ ?_
  have hscoped₁ : Scoped P ret Γ c₁ := ⟨ht₁, fun x => hs₁ ▸ hs.lookup x,
    hloop₁.retTy.trans hs.retTy, hloop₁.sigs.trans hs.sigs⟩
  refine (decides_expr c).typed hscoped₁ ho₁ (fun _ _ => rfl)
    (fun hr => by rw [Stmt.Legal] at hr; exact hr.1) fun hty v c₂ h₂ => ?_
  obtain ⟨exit, c₃, hok₃, ht₃, ho₃, hs₃, hloop₃, hexit₃⟩ :=
    openBody_run (hloop₁.trans h₂.toLater) h₂.tame v
  refine .run hok₃ ?_
  have hscoped₃ : Scoped P ret Γ c₃ := ⟨ht₃, fun x => by
    rw [hs₃, h₂.scopes]
    exact hscoped₁.lookup x, hloop₃.retTy.trans hs.retTy, hloop₃.sigs.trans hs.sigs⟩
  refine (decides_block hbody hscoped₃ ho₃).bind
    (fun hr => by rw [Stmt.Legal] at hr; exact hr.2) fun _ c₄ hlegal₄ h₄ => ?_
  obtain ⟨c₅, hok₅, ht₅, ho₅, hlater₅, hs₅⟩ :=
    closeWhile_run (hloop₃.trans h₄.toLater) (hexit₃.trans h₄.toLater) h₄.tame
  have hran : RanBlock false ctx c₅ :=
    ⟨hlater₅, ht₅, by rw [hs₅, h₄.scopes, hs₃, h₂.scopes, hs₁], ho₅⟩
  exact .last hok₅ (by rw [Stmt.Legal]; exact ⟨hty, hlegal₄⟩) (hran.ran hs)

/-- The check before a statement passes in an open block. -/
theorem needOpen_run (ho : ctx.Open) : needOpen ctx = .ok ((), ctx) := by
  have hopen : hereTerminated ctx = .ok (false, ctx) := by
    rw [hereTerminated, act_run currentBlock_run, isTerminated_run, ho]
  exact act_run hopen

/-- Another statement is read only in an open block. -/
theorem open_of_elabStmts {s : Stmt} {rest : List Stmt} {u : Unit} {c : FnContext}
    (hok : elabStmts (s :: rest) ctx = .ok (u, c)) : ctx.Open := by
  have hhere : hereTerminated ctx = .ok (ctx.builder.isTerminated ctx.currentBlock, ctx) := rfl
  rw [elabStmts] at hok
  obtain ⟨c', hopen, -⟩ := needOpen_bind.mp hok
  exact (Prod.mk.inj (Except.ok.inj (hhere.symm.trans hopen))).1

mutual

theorem decides_stmt : (s : Stmt) → StmtDecides P ret s
  | .letVar x e => decides_let x e
  | .assign x e => decides_assign x e
  | .ret e => decides_ret e
  | .expr e => decides_exprStmt e
  | .cond c thn els => by
    intro Γ ctx hs ho
    rw [elabStmt, Stmt.Legal]
    exact (decides_if (decides_stmts thn) (decides_else els) hs ho).mono fun _ _ _ h => by
      rw [Stmt.terminates]
      exact h.ran hs
  | .while _ body => decides_while (decides_stmts body)

theorem decides_else : (els : Else) → ElseDecides P ret els
  | .none => by
    intro Γ ctx hs ho
    rw [elabElse, Else.Legal]
    exact .last rfl trivial ⟨by rw [Else.terminates], .refl, hs.tame, rfl, by rw [Else.terminates]; exact ho⟩
  | .block b => by
    intro Γ ctx hs ho
    rw [elabElse, Else.Legal]
    refine (decides_block (decides_stmts b) hs ho).bind id fun _ c hlegal h => ?_
    have hend : hereTerminated c = .ok (stmtsTerminate b, c) := by
      rw [hereTerminated, act_run currentBlock_run, isTerminated_run, h.here_done]
    exact .last hend hlegal ⟨by rw [Else.terminates], by rwa [Else.terminates]⟩
  | .elif c thn els => by
    intro Γ ctx hs ho
    rw [elabElse, Else.Legal]
    refine (decides_if (decides_stmts thn) (decides_else els) hs ho).bind id fun _ c hlegal h => ?_
    have hend : hereTerminated c = .ok (stmtsTerminate thn && els.terminates, c) := by
      rw [hereTerminated, act_run currentBlock_run, isTerminated_run, h.here_done]
    exact .last hend hlegal ⟨by rw [Else.terminates], by rwa [Else.terminates]⟩

theorem decides_stmts : (ss : List Stmt) → StmtsDecide P ret ss
  | [] => by
    intro Γ ctx hs ho
    rw [elabStmts, stmtsLegal]
    exact .last rfl trivial ⟨Γ, .refl, hs, rfl, by rw [stmtsTerminate]; exact ho⟩
  | s :: rest => by
    intro Γ ctx hs ho
    rw [elabStmts, stmtsLegal]
    refine .run (needOpen_run ho) ?_
    refine (decides_stmt s hs ho).bind And.left fun _ c hlegal h => ?_
    cases rest with
    | nil =>
      rw [elabStmts, stmtsTerminate, stmtsLegal]
      exact .last rfl ⟨hlegal, fun _ => rfl, trivial⟩ ⟨_, h⟩
    | cons s' rest =>
      cases hend : s.terminates with
      | true =>
        -- the block is terminated, and there is another statement
        refine .inr ⟨fun hr => absurd (hr.2.1 rfl) (List.cons_ne_nil _ _),
          .unreachableCode noSpan, ?_⟩
        rw [hend] at h
        have hclosed : hereTerminated c = .ok (true, c) := by
          rw [hereTerminated, act_run currentBlock_run, isTerminated_run, h.here_done]
        have hstop : needOpen c = Comp.fail (.unreachableCode noSpan) := act_run hclosed
        rw [elabStmts]
        show (needOpen c >>= fun _ => _) = _
        rw [hstop]
        rfl
      | false =>
        rw [hend] at h
        refine ((decides_stmts (s' :: rest) h.vars h.here_done).mono
          fun _ c' _ hr => ?_).congr ?_
        · obtain ⟨Γ', hr⟩ := hr
          exact ⟨Γ', h.toLater.trans hr.toLater, hr.vars, hr.outer.trans h.outer, hr.here_done⟩
        · simp [hlegal]

end

end Stmt

/-! ### Programs -/

theorem lookup_params (ps : List (String × Ty)) (x : String) :
    (ps.find? fun p => p.1 == x).map Prod.snd = ps.lookup x := by
  induction ps with
  | nil => rfl
  | cons p ps ih =>
    obtain ⟨y, τ⟩ := p
    rw [List.find?_cons, List.lookup_cons]
    by_cases hx : y = x
    · simp [hx]
    · rw [show (y == x) = false by simpa using hx, show (x == y) = false by simpa using Ne.symm hx]
      exact ih

/-- The variables of a new function are its parameters. -/
theorem Scoped.new (P : Program) (d : FnDecl) :
    Scoped P d.retTy d.params.reverse (FnContext.new d.header P.sigs) := by
  refine ⟨FnContext.Tame.new d.header P.sigs, fun x => ?_, rfl, rfl⟩
  rw [← lookup_params]
  simp [lookupVar, FnContext.new, FnDecl.header]

/-- A function is accepted if its body is legal. -/
theorem elabFn_iff (P : Program) (d : FnDecl) :
    (∃ f, elabFn P.sigs d = .ok f) ↔ stmtsLegal P d.retTy d.params.reverse d.body := by
  have hscoped := Scoped.new P d
  have hopen : (FnContext.new d.header P.sigs).Open := rfl
  unfold elabFn
  rcases decides_block (decides_stmts d.body) hscoped hopen with ⟨hlegal, ⟨u, c⟩, hok, -⟩ | ⟨hno, e, he⟩
  · exact ⟨fun _ => hlegal, fun _ => ⟨c.builder.func, by rw [hok]; rfl⟩⟩
  · constructor
    · rintro ⟨f, hf⟩
      rw [he] at hf
      cases hf
    · exact fun hlegal => absurd hlegal hno

/-- A program whose tokens can be written has a rendering. -/
theorem exists_renders {P : Program} {ks : List TokenKind} (h : P.parenthesized.tokens = ks ++ [.eof])
    (hlex : ∀ k ∈ ks, Lexical k) {seps : List (List Char)} (hseps : ∀ sep ∈ seps, Separator sep) :
    Renders (String.ofList (render ks seps)) P.parenthesized := by
  obtain ⟨toks, hcut, hkinds⟩ := render_cuts 0 hlex hseps
  exact ⟨toks, hcut.lexed, hkinds.trans h.symm, P.shaped_parenthesized⟩

end Parser
end Chakobsa
