import Chakobsa.Parser.Program
import Chakobsa.Parser.DeclOrder
import Chakobsa.Parser.LeftBehind
import Chakobsa.Parser.StmtMeaning

/-!
# The front end preserves meaning

What a program means the interpreter makes of the module that `parse` returns for it
(`parse_preserves`): a call ends with a value in the one if and only if it ends with that value in the
other, and the same holds of a division by zero.

There is a condition, because of what the parser does otherwise: no nested block declares a name of an
enclosing one (the two variables would be one in SSA form). Loops whose condition has a
short-circuit operator go wrong as well, but such a module is not accepted (see
`Chakobsa.Parser.LeftBehind`).
-/

namespace Chakobsa
namespace Parser

open Ir Lexer Chakobsa.Comp ExceptLemmas FnContext SsaBuilder

/-! ### The start of a function -/

section Start

variable {params : List (String × Ty)} {args : List RtValue} {x : String} {v : ValueId}

/-- The definitions of the parameters hold the arguments. -/
theorem params_held (hlen : args.length = params.length)
    (h : lastWrite x (params.zipIdx.map fun p => .write p.1.1 p.2) = some v) :
    ∃ a, Ir.Env.ofArgs args v = some a ∧ ((params.map Prod.fst).zip args).reverse.lookup x = some a := by
  induction params using List.reverseRecOn generalizing args with
  | nil => cases h
  | append_singleton params p ih =>
    obtain ⟨as, a, rfl⟩ : ∃ as a, args = as ++ [a] := by
      rcases List.eq_nil_or_concat args with rfl | ⟨as, a, h⟩
      · simp at hlen
      · exact ⟨as, a, h.trans List.concat_eq_append⟩
    have hlen' : as.length = params.length := by simpa using hlen
    rw [List.zipIdx_append, List.map_append] at h
    have hzip : ((params ++ [p]).map Prod.fst).zip (as ++ [a]) =
        (params.map Prod.fst).zip as ++ [(p.1, a)] := by
      rw [List.map_append, List.zip_append (by rw [List.length_map, hlen'])]
      rfl
    have hlast : Event.write p.1 (0 + params.length) = .write p.1 as.length := by rw [Nat.zero_add, hlen']
    change lastWrite x (_ ++ [Event.write p.1 (0 + params.length)]) = some v at h
    rw [hlast, lastWrite_snoc_write] at h
    rw [hzip, List.reverse_append]
    show ∃ a', _ ∧ List.lookup x ((p.1, a) :: ((params.map Prod.fst).zip as).reverse) = some a'
    rw [List.lookup_cons]
    by_cases hx : p.1 = x
    · rw [if_pos hx] at h
      rw [beq_iff_eq.mpr hx.symm]
      obtain rfl := Option.some.inj h
      exact ⟨a, by simp [Ir.Env.ofArgs], rfl⟩
    · rw [if_neg hx] at h
      rw [beq_eq_false_iff_ne.mpr (Ne.symm hx)]
      obtain ⟨a', ha, hlook⟩ := ih hlen' h
      refine ⟨a', ?_, hlook⟩
      have hlt : v < as.length := (List.getElem?_eq_some_iff.mp ha).1
      rw [Ir.Env.ofArgs, List.getElem?_append_left hlt]
      exact ha

theorem bind_names {d : FnDecl} (hlen : args.length = d.params.length) :
    (d.bind args).map Prod.fst = d.params.reverse.map Prod.fst := by
  rw [FnDecl.bind, List.map_reverse, List.map_fst_zip, List.map_reverse]
  rw [List.length_map, hlen]

/-- There are no phis in the entry block. -/
theorem phiResults_nil {env : Ir.Env} {cameFrom : Option BlockId} {l : List Instruction}
    (h : ∀ i ∈ l, i.kind.isPhi = false) : phiResults env cameFrom l = .ok [] := by
  induction l with
  | nil => rfl
  | cons i l ih =>
    rw [phiResults_cons_other env cameFrom (h i List.mem_cons_self)]
    exact ih fun j hj => h j (List.mem_cons_of_mem _ hj)

/-- Nothing is defined before the first event of the entry block. -/
theorem Ghost.Finished.entry_none {G : Ghost} (hG : G.Finished) (x : String) : G.entryDef 0 x = none := by
  by_contra hne
  obtain ⟨d, hd⟩ := Option.ne_none_iff_exists'.mp hne
  cases d with
  -- a definition on entry is a phi, and the entry block has none,
  | phi v =>
    obtain ⟨i, hi, -, -, incoming, hk, -⟩ := hG.toExact.phi_matches hG.allSealed hd
    have hphi := hG.entry i hi
    rw [hk] at hphi
    cases hphi
  -- or comes from a predecessor, and it has none of these either
  | copy v =>
    obtain ⟨-, p, hp, -⟩ := hG.ok.entries.copy 0 x v hd
    rw [hG.ok.graph.entryPreds] at hp
    cases hp

/-- A run of a function begins after its parameters. -/
theorem At.start {G g : Ghost} {M : Module} {d : FnDecl} (hG : G.Finished) (hx : Extends g G)
    (hg : g = Ghost.new d.name d.params (some d.retTy)) (hlen : args.length = d.params.length) :
    ∃ F, At M G (g.place 0) (d.bind args) F ∧
      ∀ k, loop M (k + 1) G.builder.func 0 none (Ir.Env.ofArgs args) = F k := by
  -- the history begins with the writes of the parameters, which are no instructions
  have hlog : g.log 0 = d.params.zipIdx.map fun p => .write p.1.1 p.2 := by
    rw [hg]
    rfl
  have hinsts : instsOf (g.log 0) = [] := by
    rw [List.eq_nil_iff_forall_not_mem]
    intro i hi
    rw [mem_instsOf, hlog] at hi
    obtain ⟨p, -, hp⟩ := List.mem_map.mp hi
    cases hp
  have hlast : lastValue (g.log 0) = none := by
    by_contra hne
    obtain ⟨v, hv⟩ := Option.ne_none_iff_exists'.mp hne
    obtain ⟨l₁, e, l₂, heq, hval⟩ := mem_of_lastValue hv
    have hmem : e ∈ g.log 0 := by simp [heq]
    rw [hlog] at hmem
    obtain ⟨p, -, rfl⟩ := List.mem_map.mp hmem
    cases hval
  obtain ⟨more, hmore⟩ := hx.log 0
  refine ⟨_, ⟨Ir.Env.ofArgs args, fun x => (d.bind args).lookup x, rfl, fun _ _ h => h, ?_⟩,
    fun k => ?_⟩
  · refine ⟨⟨[], hG.ok.graph.entry ▸ Walk.start⟩, fun x v hd => ?_, fun v hv => ?_⟩
    · have hwrite : lastWrite x (g.log 0) = some v := by
        simpa [Ghost.place, defAfter, hG.entry_none x] using hd
      rw [hlog] at hwrite
      exact params_held hlen hwrite
    · cases hlast.symm.trans hv
  -- the writes are passed over without a step
  · rw [loop_resume hG.toSound hG.ok.graph.pos (phiResults_nil hG.entry) 0]
    exact congrFun (resume_skip (l := []) hmore hinsts g.builder.nextValue) k

end Start

/-! ### Functions -/

section Call

variable {M : Module} {P : Program} {sigs : Sigs} {d : FnDecl} {f : Function} {N : ℕ} {args : List RtValue}
  {callee : String → List RtValue → EvalM RtValue}

/-- A value returned by the body of a function is the result of the run. -/
def Flow.Ends : Flow → (ℕ → InterpM (Option RtValue)) → Prop
  | .next _, _ => True
  | .returned a, F => F = fun _ => .ok (some a)

/-- A function the parser has read is the end of a history, in which its body is run as it is
evaluated. -/
theorem elabFn_finished (hf : elabFn sigs d = .ok f) (hplain : d.plain = true) :
    ∃ (c : FnContext) (G : Ghost), G.Finished ∧ G.builder.func = f ∧
      Extends (Ghost.new d.name d.params (some d.retTy)) G ∧ (d.unshadowed = true → ∀ M,
        StmtRuns M G sigs (fun callee N => evalStmts callee N d.body) (d.params.reverse.map Prod.fst)
          ((Ghost.new d.name d.params (some d.retTy)).place 0) c G) := by
  obtain ⟨⟨_, c⟩, hscope, hret⟩ := bind_eq_ok.mp hf
  obtain rfl := Except.ok.inj hret
  obtain ⟨ctx, hctx⟩ : ∃ ctx : FnContext, ctx = { FnContext.new d.header sigs with
      scopes := (fun _ => none) :: (FnContext.new d.header sigs).scopes } := ⟨_, rfl⟩
  obtain ⟨c₁, hbody, rfl⟩ := inScope_ok hscope
  rw [← hctx] at hbody
  have hs : ctx.Settled := hctx ▸ (Settled.new d.header sigs).scope
  obtain ⟨g, hg⟩ : ∃ g, g = Ghost.new d.name d.params (some d.retTy) := ⟨_, rfl⟩
  have hl : ctx.Logged g := by
    subst hctx hg
    exact ⟨.new _ _ _, rfl⟩
  obtain ⟨G, hcomp, hrun⟩ := stmtsMean d.body hl hs (by subst hctx; rfl) hplain hbody
  -- the entry block is sealed from the start, and every later block by the construct that made it
  have hG : G.Finished := by
    refine ⟨hcomp.tidy, fun b hb => ?_⟩
    by_cases h0 : b = 0
    · rw [h0]
      exact hcomp.tidy.ok.graph.entrySealed
    · refine hcomp.closed b ?_ hb
      rw [hg]
      exact Nat.pos_of_ne_zero h0
  have hhere : ctx.currentBlock = 0 := by rw [hctx]; rfl
  have hsigs : ctx.sigs = sigs := by rw [hctx]; rfl
  have hfunc : G.builder.func = c₁.builder.func := by rw [hcomp.builder]
  refine ⟨c₁, G, hG, hfunc, hg ▸ hcomp.toExtends, fun hsh M => ?_⟩
  have hruns := hrun hsh M G hG .refl
  rwa [hhere, hsigs, hg, List.append_nil] at hruns

/-- The interpreter runs a function the parser has read as its body is evaluated. -/
theorem elabFn_runs (hf : elabFn sigs d = .ok f) (hplain : d.plain = true) (hsh : d.unshadowed = true)
    (hc : Linked M sigs N callee) (hlen : args.length = d.params.length) :
    ∃ F, Rising F ∧ (∀ k, loop M (k + 1) f f.entry none (Ir.Env.ofArgs args) = F k) ∧
      Tracks EvalError.out N (evalStmts callee N d.body (d.bind args)) F Flow.Ends := by
  obtain ⟨c, G, hG, rfl, hx, hrun⟩ := elabFn_finished hf hplain
  obtain ⟨F, hat, hloop⟩ := At.start (M := M) hG hx rfl hlen
  refine ⟨F, ?_, fun k => ?_, ?_⟩
  · obtain ⟨env, σ, rfl, -⟩ := hat
    exact resume_rising _ _
  · rw [← hloop, hG.ok.graph.entry]
  · refine (hrun hsh M hc (bind_names hlen) hat).mono fun fl F _ hF => ?_
    cases fl with
    | next ρ => trivial
    | returned a => exact hF

/-- What is known of a program and its module. -/
structure Elaborated (P : Program) (M : Module) : Prop where
  names : (P.map FnDecl.name).Nodup
  functions : List.Forall₂ (fun d f => elabFn P.sigs d = .ok f) P M.functions
  plain : ∀ d ∈ P, d.plain = true
  unshadowed : ∀ d ∈ P, d.unshadowed = true

/-- A declared function is a function of the module. -/
theorem Elaborated.function (h : Elaborated P M) (hd : d ∈ P) :
    ∃ f, M.function d.name = some f ∧ elabFn P.sigs d = .ok f := by
  obtain ⟨f, hf, helab⟩ := related_of_mem_left h.functions hd
  refine ⟨f, ?_, helab⟩
  have hnames : (M.functions.map (·.name)).Nodup := names_of_elabFn h.functions ▸ h.names
  have hfind := Module.function_of_mem hnames hf
  rwa [(elabFn_header helab).1] at hfind

/-- A call with a signature enters a function of the module. -/
theorem Elaborated.call (h : Elaborated P M) {name : String} {sig : FnSig} (hsig : P.sigs name = some sig)
    (hlen : args.length = sig.params.length) :
    ∃ d ∈ P, (P.find? fun d => d.name == name) = some d ∧ args.length = d.params.length ∧
      ∃ f, elabFn P.sigs d = .ok f ∧
        ∀ k, run M k name args = loop M k f f.entry none (Ir.Env.ofArgs args) := by
  obtain ⟨d, hfind, rfl⟩ := Option.map_eq_some_iff.mp hsig
  have hd := List.mem_of_find?_eq_some hfind
  have hlen : args.length = d.params.length := by simpa [FnDecl.sig] using hlen
  obtain ⟨f, hf, helab⟩ := h.function hd
  refine ⟨d, hd, hfind, hlen, f, helab, fun k => ?_⟩
  have hname : d.name = name := by simpa using List.find?_some hfind
  rw [run, ← hname, hf]
  exact if_neg (by rw [(elabFn_header helab).2.1, hlen]; exact fun hne => hne rfl)

/-- The interpreter runs a call as it is evaluated, by induction on the depth of the calls. -/
theorem Elaborated.linked (h : Elaborated P M) (N : ℕ) : Linked M P.sigs N (evalCall P N) := by
  induction N with
  -- without fuel the evaluation says nothing, and neither does the run
  | zero =>
    intro name sig hsig args hlen
    obtain ⟨d, -, -, -, f, -, hrun⟩ := h.call hsig hlen
    rw [evalCall]
    intro k hk
    rw [Nat.le_zero.mp hk]
    exact hrun 0
  | succ N ih =>
    intro name sig hsig args hlen
    obtain ⟨d, hd, hfind, hlen, f, helab, hrun⟩ := h.call hsig hlen
    -- the body may call what the induction hypothesis covers
    obtain ⟨F, hF, hloop, htracks⟩ := elabFn_runs helab (h.plain d hd) (h.unshadowed d hd) ih hlen
    rw [evalCall, hfind]
    dsimp only
    rw [if_neg (not_not.mpr hlen)]
    refine Tracks.unfold hF (hrun 0) (fun k => (hrun (k + 1)).trans (hloop k))
      (htracks.bind fun fl F _ hF => ?_)
    cases fl with
    -- an evaluation that falls off the end of a body panics
    | next ρ => exact .panic _
    | returned a => exact .ok hF

/-- The interpreter runs a declared function as it is evaluated. -/
theorem Elaborated.tracks (h : Elaborated P M) (N : ℕ) (hd : d ∈ P)
    (hlen : args.length = d.params.length) :
    Tracks EvalError.out N (evalCall P N d.name args) (fun k => run M k d.name args)
      fun a F => F = fun _ => .ok (some a) := by
  refine h.linked N d.name d.sig ?_ args (by simpa [FnDecl.sig] using hlen)
  rw [Program.sigs, Program.find_of_mem h.names hd]
  rfl

end Call

/-! ### Programs -/

/-- The result of a run that stands for the result of an evaluation. -/
def Reports : EvalM RtValue → InterpM (Option RtValue) → Prop
  | .ok a, r => r = .ok (some a)
  | .error (.err e), r => r = Comp.fail e.out
  | .error _, _ => False

/-- A result the evaluation has is that of the runs. -/
theorem reports_of_tracks {M : Module} {name : String} {args : List RtValue} {n : ℕ} {x : EvalM RtValue}
    {τ : Ty} (h : Tracks EvalError.out n x (fun k => run M k name args) fun a F => F = fun _ => .ok (some a))
    (hsafe : Safe (·.ty = τ) x) (hx : x ≠ .error .outOfFuel) :
    ∃ r, Reports x r ∧ Runs M name args r := by
  match x, h, hsafe, hx with
  | .ok a, h, _, _ =>
    obtain ⟨F, hgo, rfl⟩ := h
    obtain ⟨m, hm⟩ := hgo.complete 0
    exact ⟨.ok (some a), rfl, nofun, m, hm.of_ok⟩
  | .error (.err e), h, _, _ =>
    obtain ⟨m, hm⟩ := h
    exact ⟨Comp.fail e.out, rfl, nofun, m, hm⟩
  | .error (.panic p), _, hsafe, _ => exact hsafe.elim
  | .error .outOfFuel, _, _, hx => exact absurd rfl hx

section Program

variable {source : String} {P : Program} {M : Module} {d : FnDecl} {args : List RtValue}

/-- A function whose blocks all have a terminator has a body that returns. -/
theorem terminates_of_elabFn {f : Function} (hf : elabFn P.sigs d = .ok f)
    (hterm : ∀ b ∈ f.blocks, b.terminator.isSome) : stmtsTerminate d.body = true := by
  have hscoped := Scoped.new P d
  unfold elabFn at hf
  rcases decides_block (decides_stmts d.body) hscoped rfl with ⟨-, ⟨u, c⟩, hok, hran⟩ | ⟨-, e, he⟩
  · rw [hok] at hf
    obtain rfl : c.builder.func = f := Except.ok.inj hf
    have hidx := hran.tame.sound.indexed
    -- the block the body ends in is a block of the function
    obtain ⟨blk, hblk⟩ : ∃ blk, c.builder.func.block c.currentBlock = some blk :=
      ⟨_, hidx.block_some_iff.mpr ⟨hran.tame.here, rfl⟩⟩
    have hsome := hterm blk (List.mem_of_find?_eq_some hblk)
    rw [← hran.here_done, isTerminated_eq hidx]
    rw [(hidx.block_some_iff.mp hblk).2] at hsome
    exact hsome
  · rw [he] at hf
    cases hf

/-- In an accepted module every function of the program returns. -/
theorem returns_of_validate (hM : validateModule M = .ok ())
    (hfs : List.Forall₂ (fun d f => elabFn P.sigs d = .ok f) P M.functions) : P.Returns := by
  intro d hd
  obtain ⟨f, hf, helab⟩ := related_of_mem_left hfs hd
  exact terminates_of_elabFn helab (terminated_of_validate hM hf)

theorem Elaborated.of_parse (hr : Renders source P) (hp : parse source = .ok M)
    (hM : validateModule M = .ok ()) (hsh : ∀ d ∈ P, d.unshadowed = true) : Elaborated P M := by
  obtain ⟨hdist, hok⟩ := (parse_renders hr).mp hp
  exact ⟨hdist.1, mapM_eq_ok.mp hok, plain_of_validate hr hp hM, hsh⟩

theorem wellFormed_of_parse (hr : Renders source P) (hp : parse source = .ok M) : P.WellFormed := by
  obtain ⟨hdist, hok⟩ := (parse_renders hr).mp hp
  exact ⟨hdist.1, hdist.2, fun d hd => (elabFn_iff P d).mp (of_mapM_eq_ok hok d hd)⟩

/-- A call ends in the program if and only if it ends in the module, and in the same way. -/
theorem Elaborated.preserves (h : Elaborated P M) (hwf : P.WellFormed) (hret : P.Returns) (hd : d ∈ P)
    (hargs : args.map RtValue.ty = d.params.map Prod.snd) :
    (∀ x, Evaluates P d.name args x → ∃ r, Reports x r ∧ Runs M d.name args r) ∧
      ∀ r, Runs M d.name args r → ∃ x, Evaluates P d.name args x ∧ Reports x r := by
  have hsafe := fun n => evalCall_safe hwf hret n hd hargs
  have htracks := fun n => h.tracks n hd (by simpa using congrArg List.length hargs)
  -- from the program to the module
  have hto : ∀ x, Evaluates P d.name args x → ∃ r, Reports x r ∧ Runs M d.name args r := by
    rintro x ⟨hx, n, rfl⟩
    exact reports_of_tracks (htracks n) (hsafe n) hx
  refine ⟨hto, fun r hr => ?_⟩
  -- as much fuel as the run has taken is enough for the evaluation
  obtain ⟨hne, k, hk⟩ := hr
  have hx : evalCall P k d.name args ≠ .error .outOfFuel := by
    intro hout
    have hrun := htracks k
    rw [hout] at hrun
    exact hne (hk.symm.trans (hrun k (Nat.le_refl k)))
  obtain ⟨r', hrep, hruns⟩ := hto _ ⟨hx, k, rfl⟩
  rw [hruns.unique ⟨hne, k, hk⟩] at hrep
  exact ⟨_, ⟨hx, k, rfl⟩, hrep⟩

/-- **The front end preserves meaning.** Where `parse` accepts a source and `validate_module` the module, a
call of a function with arguments of the right types ends in the one if and only if it ends in the
other, with the same value or both in a division by zero. -/
theorem parse_preserves (hr : Renders source P) (hp : parse source = .ok M)
    (hM : validateModule M = .ok ()) (hsh : ∀ d ∈ P, d.unshadowed = true) (hd : d ∈ P)
    (hargs : args.map RtValue.ty = d.params.map Prod.snd) :
    (∀ x, Evaluates P d.name args x → ∃ r, Reports x r ∧ Runs M d.name args r) ∧
      ∀ r, Runs M d.name args r → ∃ x, Evaluates P d.name args x ∧ Reports x r := by
  have helab := Elaborated.of_parse hr hp hM hsh
  exact helab.preserves (wellFormed_of_parse hr hp) (returns_of_validate hM helab.functions) hd hargs

end Program

/-- A loop, a call and a short-circuit operator. -/
def gcdSource : String :=
  "fn gcd(a: i64, b: i64) -> i64 \x7b
     while b != 0 \x7b let r = a % b; a = b; b = r; \x7d
     return a;
   \x7d
   fn main() -> i64 \x7b
     if 0 < 1 and gcd(12, 18) == 6 \x7b return 1; \x7d
     return 1 / 0;
   \x7d"

/-- Its tree. -/
def gcdProgram : Program := [
  { name := "gcd"
    params := [("a", .i64), ("b", .i64)]
    retTy := .i64
    body := [
      .while (.bin .ne (.var "b") (.int 0)) [
        .letVar "r" (.bin .mod (.var "a") (.var "b")),
        .assign "a" (.var "b"),
        .assign "b" (.var "r")],
      .ret (.var "a")] },
  { name := "main"
    params := []
    retTy := .i64
    body := [
      .cond (.logic .and (.bin .lt (.int 0) (.int 1)) (.bin .eq (.call "gcd" [.int 12, .int 18]) (.int 6)))
        [.ret (.int 1)] .none,
      .ret (.bin .div (.int 1) (.int 0))] }]

set_option maxRecDepth 4000 in
theorem gcdSource_renders : Renders gcdSource gcdProgram := ⟨_, rfl, rfl, rfl⟩

theorem gcdSource_accepted : ∃ M, parse gcdSource = .ok M ∧ validateModule M = .ok () := by
  have hparse : (parse gcdSource).toOption.map validateModule = some (.ok ()) := by decide +kernel
  cases h : parse gcdSource with
  | ok M =>
    rw [h] at hparse
    exact ⟨M, rfl, Option.some.inj hparse⟩
  | error e =>
    rw [h] at hparse
    cases hparse

theorem parse_preserves_gcd : ∃ M, parse gcdSource = .ok M ∧ Runs M "main" [] (.ok (some (.i64 1))) := by
  obtain ⟨M, hM, hvalid⟩ := gcdSource_accepted
  have heval : evalCall gcdProgram 10 "main" [] = .ok (.i64 1) := by decide +kernel
  have hmain : gcdProgram[1] ∈ gcdProgram := List.getElem_mem _
  obtain ⟨hto, -⟩ := parse_preserves gcdSource_renders hM hvalid (by decide) hmain
    (show [].map RtValue.ty = [] from rfl)
  obtain ⟨r, hrep, hruns⟩ := hto (.ok (.i64 1)) ⟨nofun, 10, heval⟩
  obtain rfl : r = .ok (some (.i64 1)) := hrep
  exact ⟨M, hM, hruns⟩

end Parser
end Chakobsa
