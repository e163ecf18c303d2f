import Chakobsa.Ir.Interp
import Chakobsa.Ir.Validate
import Mathlib.Logic.Relation

/-!
# Type soundness of the IR

On a module `validateModule` accepts, every value an activation binds has the type its id is
declared with. A `Point` is a point of a run: an activation at the head of a block or before one
of its instructions. `Next` goes from a point to the next one of the same activation, or into an
activation a `Call` starts; where `loop` returns it has come through such points (`loop_visits`).
`PointTyped` holds at the start of a run on well-typed arguments and `PointTyped.next` carries it
along.

The result of a run is treated with `Sound P`: a value satisfies `P`, the only error is a
division by zero, and none of the panics that a well-typed environment excludes occurs.
`Sound.bind` composes it along the interpreter's sequences, and `loop_sound` is the induction on
the fuel, which covers loops and nested calls at once.
-/

namespace Chakobsa
namespace Ir

open ExceptLemmas

/-- The panics that types exclude: `as_i64`, `as_bool`, the expect on a non-void callee, and
those on the structure of a function (a block that does not resolve, a missing terminator). -/
def InterpPanic.ofTypes : InterpPanic → Bool
  | .asI64 | .asBool | .voidCall | .blockUnresolved | .terminatorMissing => true
  | .phiInEntry | .phiUncovered | .valueMissing => false

/-- A computation whose value satisfies `P`, whose only error is a division by zero, and which
reaches none of the panics of `InterpPanic.ofTypes`. -/
def Sound {α : Type} (P : α → Prop) : InterpM α → Prop
  | .ok a => P a
  | .error (.err e) => e = .divideByZero
  | .error (.panic p) => p.ofTypes = false
  | .error .outOfFuel => True

namespace Sound

variable {α β : Type} {P : α → Prop} {Q : β → Prop}

theorem ok {a : α} (h : P a) : Sound P (.ok a) := h

theorem bind {x : InterpM α} {f : α → InterpM β} (hx : Sound P x)
    (hf : ∀ a, x = .ok a → P a → Sound Q (f a)) : Sound Q (x >>= f) := by
  cases x with
  | ok a => exact hf a rfl hx
  | error e =>
    cases e with
    | err e => exact hx
    | panic p => exact hx
    | outOfFuel => trivial

theorem expect {p : InterpPanic} {o : Option α} (hp : p.ofTypes = false)
    (h : ∀ a, o = some a → P a) : Sound P (Comp.expect p o) := by
  cases o with
  | none => exact hp
  | some a => exact h a rfl

/-- An `expect` whose argument is there. -/
theorem expect_isSome {p : InterpPanic} {o : Option α} (ho : o.isSome)
    (h : ∀ a, o = some a → P a) : Sound P (Comp.expect p o) := by
  cases o with
  | none => simp at ho
  | some a => exact h a rfl

end Sound

/-! ### Operators -/

theorem asI64_sound {x : RtValue} (h : x.ty = .i64) : Sound (fun _ => True) x.asI64 := by
  cases x with
  | i64 v => exact .ok trivial
  | bool b => simp [RtValue.ty] at h

theorem asBool_sound {x : RtValue} (h : x.ty = .bool) : Sound (fun _ => True) x.asBool := by
  cases x with
  | bool b => exact .ok trivial
  | i64 v => simp [RtValue.ty] at h

theorem evalBin_sound {op : BinOp} {a b : RtValue} (ha : a.ty = op.operandType)
    (hb : b.ty = op.operandType) : Sound (fun x => x.ty = op.resultType) (evalBin op a b) := by
  cases op with
  | div | mod =>
    refine (asI64_sound ha).bind fun x _ _ => (asI64_sound hb).bind fun y _ _ => ?_
    by_cases hy : y = 0
    · simp only [hy, if_true]
      exact rfl
    · simp only [hy, if_false]
      exact rfl
  | and =>
    refine (asBool_sound ha).bind fun x _ _ => ?_
    cases x with
    | true => exact (asBool_sound hb).bind fun _ _ _ => rfl
    | false => exact rfl
  | or =>
    refine (asBool_sound ha).bind fun x _ _ => ?_
    cases x with
    | true => exact rfl
    | false => exact (asBool_sound hb).bind fun _ _ _ => rfl
  | _ =>
    exact (asI64_sound ha).bind fun _ _ _ => (asI64_sound hb).bind fun _ _ _ => rfl

theorem evalUn_sound {op : UnOp} {a : RtValue} (ha : a.ty = op.operandType) :
    Sound (fun x => x.ty = op.resultType) (evalUn op a) := by
  cases op with
  | neg => exact (asI64_sound ha).bind fun _ _ _ => rfl
  | not => exact (asBool_sound ha).bind fun _ _ _ => rfl

/-! ### Environments -/

/-- Every bound value has the type its id is declared with. -/
def TypedEnv (defs : Defs) (env : Env) : Prop := ∀ v x, env v = some x → defs v = some x.ty

/-- Arguments of the right number and types. -/
def TypedArgs (f : Function) (args : List RtValue) : Prop :=
  args.map RtValue.ty = f.params.map Prod.snd

theorem TypedArgs.length {f : Function} {args : List RtValue} (h : TypedArgs f args) :
    args.length = f.params.length := by
  simpa using congrArg List.length h

theorem TypedEnv.ofArgs {f : Function} {defs : Defs} (hd : collectDefinitions f = .ok defs)
    {args : List RtValue} (h : TypedArgs f args) : TypedEnv defs (Env.ofArgs args) := by
  intro v x hx
  refine ((collectDefinitions_ok hd).2.2 v x.ty).mpr (.inl ?_)
  have hget : (args.map RtValue.ty)[v]? = some x.ty := by
    rw [List.getElem?_map]
    exact congrArg (Option.map RtValue.ty) hx
  rw [h, List.getElem?_map] at hget
  exact hget

theorem TypedEnv.insert {defs : Defs} {env : Env} (h : TypedEnv defs env) {v : ValueId}
    {x : RtValue} (hx : defs v = some x.ty) : TypedEnv defs (env.insert v x) := by
  intro w y hy
  by_cases hw : w = v
  · subst hw
    rw [Env.insert_self] at hy
    obtain rfl := Option.some.inj hy
    exact hx
  · rw [Env.insert_of_ne env hw] at hy
    exact h w y hy

theorem TypedEnv.insertAll {defs : Defs} {env : Env} (h : TypedEnv defs env)
    {rs : List (ValueId × RtValue)} (hrs : ∀ r ∈ rs, defs r.1 = some r.2.ty) :
    TypedEnv defs (env.insertAll rs) := by
  intro w y hy
  rcases Env.insertAll_some hy with hm | hm
  · exact hrs _ hm
  · exact h w y hm

theorem TypedEnv.get_sound {defs : Defs} {env : Env} (h : TypedEnv defs env) {v : ValueId}
    {t : Ty} (hv : defs v = some t) : Sound (fun x => x.ty = t) (env.get v) := by
  refine .expect rfl fun x hx => ?_
  exact Option.some.inj ((h v x hx).symm.trans hv)

/-! ### Blocks -/

section Block

variable {f : Function} {defs : Defs} (hv : Validated f defs)
include hv

/-- The phis of a block bind values of their declared types. -/
theorem phiResults_sound {blk : BasicBlock} (hb : blk ∈ f.blocks) {env : Env}
    (he : TypedEnv defs env) (cameFrom : Option BlockId) (insts : List Instruction)
    (hsub : ∀ i ∈ insts, i ∈ blk.instructions) :
    Sound (fun rs => ∀ r ∈ rs, defs r.1 = some r.2.ty) (phiResults env cameFrom insts) := by
  induction insts with
  | nil => exact .ok (by simp)
  | cons i insts ih =>
    have hrest := ih fun j hj => hsub j (List.mem_cons_of_mem _ hj)
    unfold phiResults
    cases hk : i.kind with
    | phi incoming =>
      have hok := hv.insts blk hb i (hsub i List.mem_cons_self)
      simp only [InstOk, hk] at hok
      have hphi : Sound (fun x => x.ty = i.ty) (phiValue env cameFrom incoming) := by
        refine Sound.bind (P := fun _ => True) (.expect rfl fun _ _ => trivial) fun p _ _ => ?_
        refine Sound.bind (P := fun e => e ∈ incoming)
          (.expect rfl fun e h => List.mem_of_find?_eq_some h) fun e _ hmem => ?_
        exact he.get_sound (hok.2 e hmem).2
      refine hphi.bind fun x _ hx => hrest.bind fun rs _ hrs => .ok ?_
      intro r hr
      rcases List.mem_cons.mp hr with rfl | hr
      · exact (defs_of_inst hv.collect hb (hsub i List.mem_cons_self)).trans (by rw [hx])
      · exact hrs r hr
    | _ => exact hrest

omit hv in
/-- What a terminator of the function does with a well-typed environment: it goes on to a block
that resolves, or returns a value of the return type. -/
theorem execTerminator_sound {env : Env} (he : TypedEnv defs env) {t : Terminator}
    (ht : TermOk f defs t) :
    Sound (fun e => match e with
      | .goto target => (f.block target).isSome
      | .done v => v.map RtValue.ty = f.retTy) (execTerminator env t) := by
  cases t with
  | jump target => exact .ok ht
  | branch cond thenBlock elseBlock =>
    refine (he.get_sound ht.1).bind fun c _ hc => (asBool_sound hc).bind fun b _ _ => ?_
    cases b with
    | true => exact .ok ht.2.1
    | false => exact .ok ht.2.2
  | ret value =>
    cases value with
    | none => exact .ok ht.symm
    | some v =>
      obtain ⟨t, hr, hd⟩ := ht
      exact (he.get_sound hd).bind fun x _ hx => .ok (by simp [hr, hx])

end Block

/-- What acceptance of a module says about each of its functions: its definitions, its own
checks and its call sites. -/
theorem validateModule_function {M : Module} (hok : validateModule M = .ok ())
    (hnd : (M.functions.map (·.name)).Nodup) {f : Function} (hf : f ∈ M.functions) :
    ∃ defs, Validated f defs ∧
      ∀ b ∈ f.blocks, ∀ i ∈ b.instructions, CallOk M defs i := by
  obtain ⟨hfs, hcalls⟩ := validateModule_ok_iff.mp hok
  obtain ⟨defs, hv⟩ := validateFunction_ok_iff.mp (hfs f hf)
  refine ⟨defs, hv, fun b hb i hi => ?_⟩
  have h := hcalls f hf b hb i hi
  rwa [defsByFunc_eq hnd hf hv.collect] at h

section Module

variable {M : Module} {f : Function} {defs : Defs} (hv : Validated f defs)

/-- The arguments of a checked call are well typed for its callee. -/
theorem mapM_get_sound {env : Env} (he : TypedEnv defs env) {args : List ValueId}
    {params : List (String × Ty)} (hlen : args.length = params.length)
    (hargs : ∀ p ∈ args.zip params, defs p.1 = some p.2.2) :
    Sound (fun xs : List RtValue => xs.map RtValue.ty = params.map Prod.snd)
      (args.mapM env.get) := by
  induction args generalizing params with
  | nil =>
    obtain rfl : params = [] := List.length_eq_zero_iff.mp hlen.symm
    exact .ok rfl
  | cons a args ih =>
    obtain ⟨p, params, rfl⟩ := List.exists_cons_of_length_eq_add_one hlen.symm
    rw [List.mapM_cons]
    refine (he.get_sound (hargs (a, p) (by simp))).bind fun x _ hx => ?_
    refine (ih (by simpa using hlen) fun q hq => hargs q (by simp [hq])).bind fun xs _ hxs => ?_
    exact .ok (by simp [hx, hxs])

include hv

/-- One instruction binds a value of its declared type, provided a nested call on well-typed
arguments is sound. -/
theorem execInst_sound {callee : Function → List RtValue → InterpM (Option RtValue)}
    (hcallee : ∀ g ∈ M.functions, ∀ xs, TypedArgs g xs →
      Sound (fun r => r.map RtValue.ty = g.retTy) (callee g xs))
    {blk : BasicBlock} (hb : blk ∈ f.blocks) {i : Instruction} (hi : i ∈ blk.instructions)
    (hcall : CallOk M defs i) {env : Env} (he : TypedEnv defs env) :
    Sound (TypedEnv defs) (execInst M callee env i) := by
  have hok := hv.insts blk hb i hi
  have hid := defs_of_inst hv.collect hb hi
  have hbind : ∀ x : RtValue, x.ty = i.ty → TypedEnv defs (env.insert i.id x) :=
    fun x hx => he.insert (hid.trans (by rw [hx]))
  unfold execInst
  unfold InstOk at hok
  cases hk : i.kind with
  | phi incoming => exact .ok he
  | constI64 n => rw [hk] at hok; exact .ok (hbind _ hok.symm)
  | constBool b => rw [hk] at hok; exact .ok (hbind _ hok.symm)
  | bin op lhs rhs =>
    rw [hk] at hok
    refine (he.get_sound hok.1).bind fun a _ ha => (he.get_sound hok.2.1).bind fun b _ hb => ?_
    exact (evalBin_sound ha hb).bind fun x _ hx => .ok (hbind x (hx.trans hok.2.2.symm))
  | un op operand =>
    rw [hk] at hok
    refine (he.get_sound hok.1).bind fun a _ ha => ?_
    exact (evalUn_sound ha).bind fun x _ hx => .ok (hbind x (hx.trans hok.2.symm))
  | call name args =>
    obtain ⟨g, t, hg, hlen, hargs, hret, hty⟩ := hcall name args hk
    simp only [hg]
    refine (mapM_get_sound he hlen hargs).bind fun xs _ hxs => ?_
    refine (hcallee g (Module.function_some hg).1 xs hxs).bind fun r _ hr => ?_
    rw [hret] at hr
    obtain ⟨x, rfl, hx⟩ : ∃ x, r = some x ∧ x.ty = t := by
      simpa [Option.map_eq_some_iff] using hr
    exact .ok (hbind x (hx.trans hty.symm))

/-- A list of instructions of one block keeps the environment well typed. -/
theorem foldlM_execInst_sound {callee : Function → List RtValue → InterpM (Option RtValue)}
    (hcallee : ∀ g ∈ M.functions, ∀ xs, TypedArgs g xs →
      Sound (fun r => r.map RtValue.ty = g.retTy) (callee g xs))
    (hcalls : ∀ b ∈ f.blocks, ∀ i ∈ b.instructions, CallOk M defs i)
    {blk : BasicBlock} (hb : blk ∈ f.blocks) {insts : List Instruction}
    (hsub : ∀ i ∈ insts, i ∈ blk.instructions) {env : Env} (he : TypedEnv defs env) :
    Sound (TypedEnv defs) (insts.foldlM (execInst M callee) env) := by
  induction insts generalizing env with
  | nil => exact .ok he
  | cons i insts ih =>
    have hi := hsub i List.mem_cons_self
    rw [List.foldlM_cons]
    refine (execInst_sound hv hcallee hb hi (hcalls blk hb i hi) he).bind fun env' _ he' => ?_
    exact ih (fun j hj => hsub j (List.mem_cons_of_mem _ hj)) he'

end Module

/-! ### Runs -/

section Run

variable {M : Module} (hok : validateModule M = .ok ())
  (hnd : (M.functions.map (·.name)).Nodup)
include hok hnd

/-- The loop of an activation with a well-typed environment is sound, for any fuel: by induction
on the fuel, which bounds the blocks still to be entered and the depth of the calls. -/
theorem loop_sound (n : ℕ) {f : Function} (hf : f ∈ M.functions) {defs : Defs}
    (hd : collectDefinitions f = .ok defs) {current : BlockId}
    (hcur : (f.block current).isSome) (cameFrom : Option BlockId) {env : Env}
    (he : TypedEnv defs env) :
    Sound (fun r => r.map RtValue.ty = f.retTy) (loop M n f current cameFrom env) := by
  induction n generalizing f defs current cameFrom env with
  | zero => trivial
  | succ n ih =>
    obtain ⟨defs', hv, hcalls⟩ := validateModule_function hok hnd hf
    obtain rfl : defs' = defs := Except.ok.inj (hv.collect.symm.trans hd)
    -- a nested call runs on the remaining fuel
    have hcallee : ∀ g ∈ M.functions, ∀ xs, TypedArgs g xs →
        Sound (fun r => r.map RtValue.ty = g.retTy) (callWith (loop M n) g xs) := by
      intro g hg xs hxs
      obtain ⟨dg, hvg, -⟩ := validateModule_function hok hnd hg
      rw [callWith, if_neg (not_not.mpr hxs.length)]
      exact ih hg hvg.collect hvg.entry none (.ofArgs hvg.collect hxs)
    unfold loop
    refine Sound.bind (P := fun blk => blk ∈ f.blocks) (.expect_isSome hcur fun blk h =>
      (Function.block_some h).1) fun blk _ hb => ?_
    refine (phiResults_sound hv hb he cameFrom _ fun _ h => h).bind fun phis _ hphis => ?_
    refine (foldlM_execInst_sound hv hcallee hcalls hb (fun _ h => h)
      (he.insertAll hphis)).bind fun env' _ he' => ?_
    obtain ⟨t, ht, htok⟩ := hv.term blk hb
    rw [ht]
    refine (execTerminator_sound he' htok).bind fun e _ hexit => ?_
    cases e with
    | goto target => exact ih hf hd hexit (some current) he'
    | done v => exact .ok hexit

/-- A call on well-typed arguments is sound. -/
theorem call_sound (n : ℕ) {f : Function} (hf : f ∈ M.functions) {args : List RtValue}
    (hargs : TypedArgs f args) :
    Sound (fun r => r.map RtValue.ty = f.retTy) (call M n f args) := by
  obtain ⟨defs, hv, -⟩ := validateModule_function hok hnd hf
  rw [call, callWith, if_neg (not_not.mpr hargs.length)]
  exact loop_sound hok hnd n hf hv.collect hv.entry none (.ofArgs hv.collect hargs)

end Run

/-- A point of a run: an activation of `func` at block `current`, entered from `cameFrom`. With
`pending = none` it is at the head of the block, before its phis; otherwise `pending` are the
instructions of the block still to be executed. -/
structure Point where
  func : Function
  current : BlockId
  cameFrom : Option BlockId
  env : Env
  pending : Option (List Instruction)

/-- The first point of a call of `f`. -/
def Point.start (f : Function) (args : List RtValue) : Point :=
  ⟨f, f.entry, none, Env.ofArgs args, none⟩

/-- From one point of a run to the next one of the same activation, or to the first one of an
activation that a `Call` starts. -/
inductive Next (M : Module) : Point → Point → Prop where
  /-- The phis of a block are bound all at once. -/
  | enter {f : Function} {b : BlockId} {p : Option BlockId} {env : Env} {blk : BasicBlock}
      {phis : List (ValueId × RtValue)} :
      f.block b = some blk → phiResults env p blk.instructions = .ok phis →
      Next M ⟨f, b, p, env, none⟩ ⟨f, b, p, env.insertAll phis, some blk.instructions⟩
  /-- An instruction is executed; a call among them returns after `n` units of fuel. -/
  | inst {f : Function} {b : BlockId} {p : Option BlockId} {env env' : Env} {i : Instruction}
      {rest : List Instruction} (n : ℕ) :
      execInst M (call M n) env i = .ok env' →
      Next M ⟨f, b, p, env, some (i :: rest)⟩ ⟨f, b, p, env', some rest⟩
  /-- A `Call` enters its callee. -/
  | invoke {f g : Function} {b : BlockId} {p : Option BlockId} {env : Env} {i : Instruction}
      {rest : List Instruction} {name : String} {args : List ValueId} {xs : List RtValue} :
      i.kind = .call name args → M.function name = some g → args.mapM env.get = .ok xs →
      Next M ⟨f, b, p, env, some (i :: rest)⟩ (.start g xs)
  /-- The terminator goes on to a successor. -/
  | goto {f : Function} {b : BlockId} {p : Option BlockId} {env : Env} {blk : BasicBlock}
      {t : Terminator} {target : BlockId} :
      f.block b = some blk → blk.terminator = some t →
      execTerminator env t = .ok (.goto target) →
      Next M ⟨f, b, p, env, some []⟩ ⟨f, target, some b, env, none⟩

/-- The points of the run of `f` on `args`, nested calls included. -/
def Visited (M : Module) (f : Function) (args : List RtValue) (q : Point) : Prop :=
  Relation.ReflTransGen (Next M) (.start f args) q

section Reached

variable {M : Module} {f : Function} {b : BlockId} {p : Option BlockId} {env env' : Env}

/-- The environments `loop` computes in a block are those of points, one for each instruction. -/
theorem Next.body {insts : List Instruction} {n : ℕ}
    (h : insts.foldlM (execInst M (callWith (loop M n))) env = .ok env') :
    Relation.ReflTransGen (Next M) ⟨f, b, p, env, some insts⟩ ⟨f, b, p, env', some []⟩ := by
  induction insts generalizing env with
  | nil =>
    obtain rfl : env = env' := by simpa using h
    exact .refl
  | cons i insts ih =>
    rw [List.foldlM_cons, bind_eq_ok] at h
    obtain ⟨env₁, hi, h⟩ := h
    exact .head (.inst n hi) (ih h)

/-- Where `loop` returns, it has come through points to one whose terminator returns, with the value it
returns. -/
theorem loop_visits {n : ℕ} {v : Option RtValue} (h : loop M n f b p env = .ok v) :
    ∃ b' p' env' blk t,
      Relation.ReflTransGen (Next M) ⟨f, b, p, env, none⟩ ⟨f, b', p', env', some []⟩ ∧
        f.block b' = some blk ∧ blk.terminator = some t ∧ execTerminator env' t = .ok (.done v) := by
  induction n generalizing b p env with
  | zero => cases h
  | succ n ih =>
    simp only [loop, bind_eq_ok, Comp.expect_eq_ok] at h
    obtain ⟨blk, hblk, phis, hphis, env₁, hbody, t, ht, exit, hexit, h⟩ := h
    have hblock : Relation.ReflTransGen (Next M) ⟨f, b, p, env, none⟩ ⟨f, b, p, env₁, some []⟩ :=
      .head (.enter hblk hphis) (Next.body hbody)
    cases exit with
    | goto target =>
      obtain ⟨b', p', env', blk', t', hpath, hend⟩ := ih h
      exact ⟨b', p', env', blk', t', (hblock.tail (.goto hblk ht hexit)).trans hpath, hend⟩
    | done w =>
      obtain rfl : w = v := Except.ok.inj h
      exact ⟨b, p, env₁, blk, t, hblock, hblk, ht, hexit⟩

/-- What a run returns, it returns at a point that it visits. -/
theorem call_visits {n : ℕ} {args : List RtValue} {v : Option RtValue}
    (h : call M n f args = .ok v) :
    ∃ q blk t, Visited M f args q ∧ q.func = f ∧ q.pending = some [] ∧
      f.block q.current = some blk ∧ blk.terminator = some t ∧
        execTerminator q.env t = .ok (.done v) := by
  unfold call callWith at h
  split at h
  · cases h
  · obtain ⟨b', p', env', blk, t, hpath, hend⟩ := loop_visits h
    exact ⟨⟨f, b', p', env', some []⟩, blk, t, hpath, rfl, rfl, hend⟩

end Reached

/-- The invariant of the points of a run: the activation is one of a function of the module, its
block resolves and holds the pending instructions, and the environment is well typed. -/
structure PointTyped (M : Module) (q : Point) : Prop where
  func : q.func ∈ M.functions
  block : (q.func.block q.current).isSome
  pending : ∀ blk, q.func.block q.current = some blk → ∀ l, q.pending = some l →
    ∀ i ∈ l, i ∈ blk.instructions
  env : ∀ defs, collectDefinitions q.func = .ok defs → TypedEnv defs q.env

section Points

variable {M : Module} (hok : validateModule M = .ok ())
  (hnd : (M.functions.map (·.name)).Nodup)
include hok hnd

theorem PointTyped.start {f : Function} (hf : f ∈ M.functions) {args : List RtValue}
    (hargs : TypedArgs f args) : PointTyped M (.start f args) := by
  obtain ⟨defs, hv, -⟩ := validateModule_function hok hnd hf
  exact ⟨hf, hv.entry, fun _ _ _ h => absurd h (by simp [Point.start]),
    fun defs' hd => .ofArgs hd hargs⟩

/-- **Preservation.** One step keeps the environments well typed. -/
theorem PointTyped.next {q r : Point} (hq : PointTyped M q) (hstep : Next M q r) :
    PointTyped M r := by
  obtain ⟨defs, hv, hcalls⟩ := validateModule_function hok hnd hq.func
  have he := hq.env defs hv.collect
  have huniq : ∀ d, collectDefinitions q.func = .ok d → d = defs :=
    fun d hd => Except.ok.inj (hd.symm.trans hv.collect)
  cases hstep with
  | @enter f b p env blk phis hb hphis =>
    have hmem := (Function.block_some hb).1
    -- all phis are read before any of them is bound
    have hs := phiResults_sound hv hmem he p blk.instructions fun _ h => h
    rw [hphis] at hs
    refine ⟨hq.func, hq.block, ?_, fun d hd => ?_⟩
    · intro blk' hb' l hl i hi
      obtain rfl : blk = blk' := Option.some.inj (hb.symm.trans hb')
      obtain rfl : blk.instructions = l := by simpa using hl
      exact hi
    · rw [huniq d hd]
      exact he.insertAll hs
  | @inst f b p env env' i rest n hexec =>
    obtain ⟨blk, hb⟩ := Option.isSome_iff_exists.mp hq.block
    have hmem := (Function.block_some hb).1
    have hi := hq.pending blk hb (i :: rest) rfl i List.mem_cons_self
    have hs := execInst_sound hv (fun g hg xs hxs => call_sound hok hnd n hg hxs) hmem hi
      (hcalls blk hmem i hi) he
    rw [hexec] at hs
    refine ⟨hq.func, hq.block, ?_, fun d hd => by rw [huniq d hd]; exact hs⟩
    intro blk' hb' l hl j hj
    obtain rfl : rest = l := by simpa using hl
    exact hq.pending blk' hb' (i :: rest) rfl j (List.mem_cons_of_mem _ hj)
  | @invoke f g b p env i rest name args xs hk hg hxs =>
    obtain ⟨blk, hb⟩ := Option.isSome_iff_exists.mp hq.block
    have hi := hq.pending blk hb (i :: rest) rfl i List.mem_cons_self
    obtain ⟨g', t, hg', hlen, hargs, -⟩ :=
      hcalls blk (Function.block_some hb).1 i hi name args hk
    obtain rfl : g = g' := Option.some.inj (hg.symm.trans hg')
    -- the call was checked, so the arguments have the types of the parameters
    have hs := mapM_get_sound he hlen hargs
    rw [hxs] at hs
    exact .start hok hnd (Module.function_some hg).1 hs
  | @goto f b p env blk t target hb ht hexit =>
    obtain ⟨t', ht', htok⟩ := hv.term blk (Function.block_some hb).1
    obtain rfl : t = t' := Option.some.inj (ht.symm.trans ht')
    have hs := execTerminator_sound he htok
    rw [hexit] at hs
    exact ⟨hq.func, hs, fun _ _ _ h => absurd h (by simp), hq.env⟩

/-- Every environment of a run on well-typed arguments is well typed. -/
theorem PointTyped.visited {f : Function} (hf : f ∈ M.functions) {args : List RtValue}
    (hargs : TypedArgs f args) {q : Point} (h : Visited M f args q) : PointTyped M q := by
  induction h with
  | refl => exact .start hok hnd hf hargs
  | tail _ hstep ih => exact ih.next hok hnd hstep

end Points

/-- **Type soundness.** On a module the validator accepts, with distinct function names, a run
of any of its functions on well-typed arguments binds every value at its declared type, in every
activation and at every point; it reaches none of the panics types exclude, returns no error but
a division by zero, and a value it returns has the function's return type (none exactly when
there is no return type). -/
theorem run_typeSound (M : Module) (hok : validateModule M = .ok ())
    (hnd : (M.functions.map (·.name)).Nodup) (f : Function) (hf : f ∈ M.functions)
    (args : List RtValue) (hargs : args.map RtValue.ty = f.params.map Prod.snd) :
    (∀ q, Visited M f args q → ∀ defs, collectDefinitions q.func = .ok defs →
      ∀ v x, q.env v = some x → defs v = some x.ty) ∧
    ∀ n, (∀ p, run M n f.name args = .error (.panic p) →
        p ≠ .asI64 ∧ p ≠ .asBool ∧ p ≠ .voidCall) ∧
      (∀ e, run M n f.name args = .error (.err e) → e = .divideByZero) ∧
      ∀ r, run M n f.name args = .ok r → r.map RtValue.ty = f.retTy := by
  refine ⟨fun q hq => (PointTyped.visited hok hnd hf hargs hq).env, fun n => ?_⟩
  have hs := call_sound hok hnd n hf hargs
  have hrun : run M n f.name args = call M n f args := by
    rw [run, Module.function_of_mem hnd hf]
  rw [hrun]
  refine ⟨fun p hp => ?_, fun e he => ?_, fun r hr => ?_⟩
  · rw [hp] at hs
    refine ⟨?_, ?_, ?_⟩ <;> rintro rfl <;> simp [Sound, InterpPanic.ofTypes] at hs
  · rw [he] at hs
    exact hs
  · rw [hr] at hs
    exact hs

/-- `fn half(x: i64) -> i64 { return x / 2; }`, and `main`, which counts in a loop how often its
argument can be halved until it is 1. -/
def halfModule : Module where
  functions :=
    [⟨"half", [("x", .i64)], some .i64,
      [⟨0, [⟨1, .i64, .constI64 2⟩, ⟨2, .i64, .bin .div 0 1⟩], some (.ret (some 2))⟩], 0⟩,
     ⟨"main", [("x", .i64)], some .i64,
      [⟨0, [⟨1, .i64, .constI64 0⟩], some (.jump 1)⟩,
       ⟨1, [⟨2, .i64, .phi [(0, 0), (2, 6)]⟩, ⟨3, .i64, .phi [(0, 1), (2, 8)]⟩, ⟨4, .i64, .constI64 1⟩,
          ⟨5, .bool, .bin .cmpLt 4 2⟩], some (.branch 5 2 3)⟩,
       ⟨2, [⟨6, .i64, .call "half" [2]⟩, ⟨7, .i64, .constI64 1⟩, ⟨8, .i64, .bin .add 3 7⟩],
          some (.jump 1)⟩,
       ⟨3, [], some (.ret (some 3))⟩], 0⟩]

theorem run_typeSound_halfModule :
    run halfModule 8 "main" [.i64 7] = .ok (some (.i64 2)) ∧
      (some (RtValue.i64 2)).map RtValue.ty = some Ty.i64 := by
  have hrun : run halfModule 8 "main" [.i64 7] = .ok (some (.i64 2)) := by decide
  have hsound := run_typeSound halfModule (by decide) (by decide) (halfModule.functions[1])
    (by decide) [.i64 7] (by decide)
  exact ⟨hrun, (hsound.2 8).2.2 _ hrun⟩

end Ir
end Chakobsa
