import Chakobsa.Ir.Dominance
import Chakobsa.Ir.PhiOrder
import Chakobsa.Ir.TypeSoundness

/-!
# Well-formed functions do not panic

What the validator leaves unchecked is all that is missing: if in an accepted module definitions
dominate their uses, no phi names a block twice, and no entry block has a phi, then the interpreter
never panics (`run_progress`).

Types exclude the panics of `InterpPanic.ofTypes`. The others are excluded along the walk that an
activation takes through its function: every value of a block on the walk is bound (`Bound`), and the
block of a definition that dominates a use is on every walk to it.
-/

namespace Chakobsa
namespace Ir

open ExceptLemmas

/-- The form `validate.rs` takes for granted. -/
structure Function.Ssa (f : Function) : Prop where
  dominate : f.DefsDominate
  phis : PhisDistinct f

/-- A computation that panics only for reasons of types, and whose value satisfies `P`. -/
def Binds {α : Type} (P : α → Prop) : InterpM α → Prop
  | .ok a => P a
  | .error (.err _) => True
  | .error (.panic p) => p.ofTypes = true
  | .error .outOfFuel => True

namespace Binds

variable {α β : Type} {P : α → Prop} {Q : β → Prop}

theorem ok {a : α} (h : P a) : Binds P (.ok a) := h

theorem bind {x : InterpM α} {f : α → InterpM β} (hx : Binds P x)
    (hf : ∀ a, P a → Binds Q (f a)) : Binds Q (x >>= f) := by
  cases x with
  | ok a => exact hf a hx
  | error e => cases e <;> exact hx

/-- A panic of types. -/
theorem expect {p : InterpPanic} {o : Option α} (hp : p.ofTypes = true) :
    Binds (fun a => o = some a) (Comp.expect p o) := by
  cases o with
  | none => exact hp
  | some a => exact rfl

/-- An `expect` whose argument is there. -/
theorem expect_isSome {p : InterpPanic} {o : Option α} (ho : o.isSome) :
    Binds (fun a => o = some a) (Comp.expect p o) := by
  obtain ⟨a, rfl⟩ := Option.isSome_iff_exists.mp ho
  exact rfl

end Binds

theorem asI64_binds (x : RtValue) : Binds (fun _ => True) x.asI64 := by
  cases x <;> trivial

theorem asBool_binds (x : RtValue) : Binds (fun _ => True) x.asBool := by
  cases x <;> trivial

theorem evalBin_binds (op : BinOp) (a b : RtValue) : Binds (fun _ => True) (evalBin op a b) := by
  cases op with
  | and =>
    refine (asBool_binds a).bind fun x _ => ?_
    cases x with
    | true => exact (asBool_binds b).bind fun _ _ => trivial
    | false => trivial
  | or =>
    refine (asBool_binds a).bind fun x _ => ?_
    cases x with
    | true => trivial
    | false => exact (asBool_binds b).bind fun _ _ => trivial
  | div | mod =>
    refine (asI64_binds a).bind fun x _ => (asI64_binds b).bind fun y _ => ?_
    split <;> trivial
  | _ => exact (asI64_binds a).bind fun x _ => (asI64_binds b).bind fun y _ => trivial

theorem evalUn_binds (op : UnOp) (a : RtValue) : Binds (fun _ => True) (evalUn op a) := by
  cases op with
  | neg => exact (asI64_binds a).bind fun _ _ => trivial
  | not => exact (asBool_binds a).bind fun _ _ => trivial

theorem get_binds {env : Env} {v : ValueId} (h : (env v).isSome) :
    Binds (fun _ => True) (env.get v) := by
  obtain ⟨x, hx⟩ := Option.isSome_iff_exists.mp h
  rw [Env.get_eq_ok.mpr hx]
  trivial

/-! ### Along a walk -/

/-- The walk of an activation: to the block it is in, with the block before. -/
inductive Along (f : Function) : List BlockId → Option BlockId → BlockId → Prop where
  | start : Along f [] none f.entry
  | step {π : List BlockId} {p b : BlockId} (walk : Walk f.Edge f.entry π p) (edge : f.Edge p b) :
      Along f (p :: π) (some p) b

/-- The parameters and the values of the blocks on the walk are bound. -/
structure Bound (f : Function) (π : List BlockId) (env : Env) : Prop where
  params : ∀ v < f.params.length, (env v).isSome
  walk : ∀ d ∈ f.blocks, d.id ∈ π → ∀ v, d.Defines v → (env v).isSome

/-- So are the values the block has defined itself, its phis first. -/
structure BoundIn (f : Function) (π : List BlockId) (b : BasicBlock) (before : List Instruction)
    (env : Env) : Prop extends Bound f π env where
  phis : ∀ i ∈ b.instructions, i.kind.isPhi = true → (env i.id).isSome
  before : ∀ i ∈ before, (env i.id).isSome

section Function

variable {f : Function} {defs : Defs} {π : List BlockId} {cameFrom : Option BlockId} {b : BasicBlock}
  {env : Env} {before : List Instruction} {v : ValueId}

theorem Along.walk {c : BlockId} (h : Along f π cameFrom c) : Walk f.Edge f.entry π c := by
  cases h with
  | start => exact .start
  | step hw he => exact .step hw he

/-- More bindings do no harm. -/
theorem Bound.mono {env' : Env} (h : Bound f π env) (hle : ∀ v, (env v).isSome → (env' v).isSome) :
    Bound f π env' :=
  ⟨fun v hv => hle v (h.params v hv), fun d hd hid v hv => hle v (h.walk d hd hid v hv)⟩

/-- A definition that dominates a use has been executed before it. -/
theorem BoundIn.available (h : BoundIn f π b before env) (hw : Walk f.Edge f.entry π b.id)
    (hv : f.Available b before v) : (env v).isSome := by
  rcases hv with hv | hv | ⟨d, hd, hdef, hne, hdom⟩
  · exact h.params v hv
  · obtain ⟨i, hi, rfl⟩ := List.mem_map.mp hv
    exact h.before i hi
  · exact h.walk d hd ((List.mem_cons.mp (hdom π hw)).resolve_left hne) v hdef

/-- The end of a block is the next step of the walk. -/
theorem BoundIn.leave (hnd : (f.blocks.map (·.id)).Nodup) (hb : b ∈ f.blocks)
    (h : BoundIn f π b b.instructions env) : Bound f (b.id :: π) env := by
  refine ⟨h.params, fun d hd hid v hdef => ?_⟩
  rcases List.mem_cons.mp hid with hid | hid
  · obtain rfl : d = b := by
      have h₁ := Function.block_of_mem hnd hd
      rw [hid, Function.block_of_mem hnd hb] at h₁
      exact (Option.some.inj h₁).symm
    obtain ⟨i, hi, rfl⟩ := List.mem_map.mp hdef
    exact h.before i hi
  · exact h.walk d hd hid v hdef

/-- The operand of a phi for the edge taken is bound. -/
theorem phiValue_binds (hv : Validated f defs) (hs : f.Ssa) (hb : f.block b.id = some b)
    (ha : Along f π cameFrom b.id) (henv : Bound f π env) {incoming : List (BlockId × ValueId)}
    (hin : incoming ∈ b.phis) :
    Binds (fun _ => True) (phiValue env cameFrom incoming) := by
  have hmem := (Function.block_some hb).1
  obtain ⟨hnd, hne⟩ := hs.phis π b.id ha.walk b hb incoming hin
  generalize hid : b.id = c at ha
  cases ha with
  | start => exact absurd hid hne
  | @step π p _ walk edge =>
    have hpred : p ∈ f.predecessors b.id := hid ▸ edge.mem_predecessors
    obtain ⟨e, he, hep⟩ := List.mem_map.mp ((hv.phi_cover hb hin hnd p).mpr hpred)
    have hfind : (incoming.find? fun q => q.1 == p).isSome :=
      List.find?_isSome.mpr ⟨e, he, by simp [hep]⟩
    refine (Binds.expect_isSome rfl).bind fun q hq => ?_
    obtain rfl := Option.some.inj hq
    refine (Binds.expect_isSome hfind).bind fun w hw => ?_
    have hwmem := List.mem_of_find?_eq_some hw
    have hwp : w.1 = p := by simpa using List.find?_some hw
    refine get_binds ?_
    rcases hs.dominate.phi b hmem incoming hin w hwmem with hv | ⟨d, hd, hdef, hdom⟩
    · exact henv.params _ hv
    · rw [hwp] at hdom
      exact henv.walk d hd (hdom π walk) w.2 hdef

/-- The phis of a block are all resolved. -/
theorem phiResults_binds (hv : Validated f defs) (hs : f.Ssa) (hb : f.block b.id = some b)
    (ha : Along f π cameFrom b.id) (henv : Bound f π env) (insts : List Instruction)
    (hsub : ∀ i ∈ insts, i ∈ b.instructions) :
    Binds (fun _ => True) (phiResults env cameFrom insts) := by
  induction insts with
  | nil => trivial
  | cons i insts ih =>
    have hrest := ih fun j hj => hsub j (List.mem_cons_of_mem _ hj)
    rw [phiResults]
    split
    · next incoming hk =>
      have hphi := phiValue_binds hv hs hb ha henv
        (BasicBlock.mem_phis.mpr ⟨i, hsub i List.mem_cons_self, hk⟩)
      refine hphi.bind fun x _ => ?_
      exact hrest.bind fun _ _ => trivial
    · exact hrest

end Function

/-! ### Runs -/

section Run

variable {M : Module} {f : Function} {π : List BlockId} {b : BasicBlock} {env : Env}
  {callee : Function → List RtValue → InterpM (Option RtValue)}

theorem mapM_get_binds {args : List ValueId} (h : ∀ a ∈ args, (env a).isSome) :
    Binds (fun _ => True) (args.mapM env.get) := by
  induction args with
  | nil => trivial
  | cons a args ih =>
    rw [List.mapM_cons]
    refine (get_binds (h a List.mem_cons_self)).bind fun x _ => ?_
    exact (ih fun c hc => h c (List.mem_cons_of_mem _ hc)).bind fun _ _ => trivial

/-- A binding more. -/
theorem insert_isSome (v : ValueId) (x : RtValue) {w : ValueId} (h : (env w).isSome) :
    ((env.insert v x) w).isSome := by
  by_cases hw : w = v
  · rw [hw, Env.insert_self]
    rfl
  · rw [Env.insert_of_ne env hw]
    exact h

theorem insert_isSome_self (v : ValueId) (x : RtValue) : ((env.insert v x) v).isSome := by
  rw [Env.insert_self]
  rfl

/-- What was bound or is on the list. -/
theorem insertAll_isSome (rs : List (ValueId × RtValue)) {env : Env} {w : ValueId}
    (h : (env w).isSome ∨ w ∈ rs.map Prod.fst) : ((env.insertAll rs) w).isSome := by
  induction rs generalizing env with
  | nil => exact h.resolve_right List.not_mem_nil
  | cons r rs ih =>
    refine ih ?_
    rcases h with h | h
    · exact .inl (insert_isSome r.1 r.2 h)
    · rcases List.mem_cons.mp h with rfl | h
      · exact .inl (insert_isSome_self r.1 r.2)
      · exact .inr h

/-- An instruction whose operands are bound keeps what is bound, and binds its own value. -/
theorem execInst_binds (hcallee : ∀ g ∈ M.functions, ∀ xs, Binds (fun _ => True) (callee g xs))
    {i : Instruction} (hops : ∀ v ∈ i.kind.operands, (env v).isSome) :
    Binds (fun env' => (∀ v, (env v).isSome → (env' v).isSome) ∧
      (i.kind.isPhi = false → (env' i.id).isSome)) (execInst M callee env i) := by
  have hinsert : ∀ x, (∀ v, (env v).isSome → ((env.insert i.id x) v).isSome) ∧
      (i.kind.isPhi = false → ((env.insert i.id x) i.id).isSome) :=
    fun x => ⟨fun v hv => insert_isSome i.id x hv, fun _ => insert_isSome_self i.id x⟩
  unfold execInst
  generalize i.kind = k at hops hinsert
  cases k with
  | phi incoming => exact ⟨fun v hv => hv, fun h => by cases h⟩
  | constI64 n => exact hinsert _
  | constBool p => exact hinsert _
  | bin op lhs rhs =>
    refine (get_binds (hops lhs (by simp [InstKind.operands]))).bind fun x _ => ?_
    refine (get_binds (hops rhs (by simp [InstKind.operands]))).bind fun y _ => ?_
    exact (evalBin_binds op x y).bind fun z _ => hinsert z
  | un op operand =>
    refine (get_binds (hops operand (by simp [InstKind.operands]))).bind fun x _ => ?_
    exact (evalUn_binds op x).bind fun z _ => hinsert z
  | call name args =>
    simp only
    cases hg : M.function name with
    | none => exact True.intro
    | some g =>
      simp only
      refine (mapM_get_binds hops).bind fun xs _ => ?_
      refine (hcallee g (Module.function_some hg).1 xs).bind fun r _ => ?_
      exact (Binds.expect rfl).bind fun z _ => hinsert z

/-- The instructions of a block, from any point of it on. -/
theorem insts_binds (hcallee : ∀ g ∈ M.functions, ∀ xs, Binds (fun _ => True) (callee g xs))
    (hs : f.Ssa) (hb : b ∈ f.blocks) (hw : Walk f.Edge f.entry π b.id) {before insts : List Instruction}
    (heq : b.instructions = before ++ insts) (henv : BoundIn f π b before env) :
    Binds (BoundIn f π b b.instructions) (insts.foldlM (execInst M callee) env) := by
  induction insts generalizing before env with
  | nil =>
    rw [List.append_nil] at heq
    exact heq ▸ henv
  | cons i insts ih =>
    rw [List.foldlM_cons]
    refine (execInst_binds hcallee fun v hv =>
      henv.available hw (hs.dominate.inst b hb before i insts heq v hv)).bind fun env' henv' => ?_
    have hi : i ∈ b.instructions := by simp [heq]
    refine ih (by rw [heq, List.append_cons]) ⟨henv.toBound.mono henv'.1,
      fun j hj hphi => henv'.1 _ (henv.phis j hj hphi), fun j hj => ?_⟩
    rcases List.mem_append.mp hj with hj | hj
    · exact henv'.1 _ (henv.before j hj)
    · obtain rfl := List.mem_singleton.mp hj
      cases hphi : j.kind.isPhi with
      | true => exact henv'.1 _ (henv.phis j hi hphi)
      | false => exact henv'.2 hphi

theorem execTerminator_binds {t : Terminator} (hops : ∀ v ∈ t.operands, (env v).isSome) :
    Binds (fun e => ∀ target, e = .goto target → target ∈ t.successors) (execTerminator env t) := by
  cases t with
  | jump target =>
    rintro c ⟨rfl⟩
    exact List.mem_singleton_self _
  | branch cond t e =>
    refine (get_binds (hops cond (by simp [Terminator.operands]))).bind fun x _ => ?_
    refine (asBool_binds x).bind fun bit _ => ?_
    cases bit with
    | true =>
      rintro c ⟨rfl⟩
      simp [Terminator.successors]
    | false =>
      rintro c ⟨rfl⟩
      simp [Terminator.successors]
  | ret v =>
    cases v with
    | none =>
      rintro c ⟨⟩
    | some v =>
      refine (get_binds (hops v (by simp [Terminator.operands]))).bind fun x _ => ?_
      rintro c ⟨⟩

/-- A loop along a walk on which everything is bound. -/
theorem loop_binds (hvalid : ∀ f ∈ M.functions, ∃ defs, Validated f defs)
    (hssa : ∀ f ∈ M.functions, f.Ssa) (n : ℕ) {f : Function} (hf : f ∈ M.functions)
    {π : List BlockId} {cameFrom : Option BlockId} {current : BlockId} {env : Env}
    (ha : Along f π cameFrom current) (henv : Bound f π env) :
    Binds (fun _ => True) (loop M n f current cameFrom env) := by
  induction n generalizing f π cameFrom current env with
  | zero => trivial
  | succ n ih =>
    have hcallee : ∀ g ∈ M.functions, ∀ xs, Binds (fun _ => True) (callWith (loop M n) g xs) := by
      intro g hg xs
      unfold callWith
      split
      · trivial
      · next hlen =>
        refine ih hg .start ⟨fun v hv => ?_, fun _ _ h => by cases h⟩
        show (xs[v]?).isSome
        rw [List.getElem?_eq_getElem (not_not.mp hlen ▸ hv)]
        rfl
    obtain ⟨defs, hv⟩ := hvalid f hf
    have hs := hssa f hf
    rw [loop]
    refine (Binds.expect rfl).bind fun b hb => ?_
    obtain ⟨hmem, rfl⟩ := Function.block_some hb
    have hphis := phiResults_binds hv hs hb ha henv b.instructions fun i hi => hi
    cases hrs : phiResults env cameFrom b.instructions with
    | error e =>
      rw [hrs] at hphis
      cases e <;> exact hphis
    | ok rs =>
      rw [ok_bind]
      -- the phis are bound, and nothing is unbound
      have hin : BoundIn f π b [] (env.insertAll rs) := by
        refine ⟨henv.mono fun v hv => insertAll_isSome rs (.inl hv), fun i hi hphi => ?_,
          fun i hi => by cases hi⟩
        refine insertAll_isSome rs (.inr ?_)
        rw [phiResults_ids hrs]
        exact List.mem_map_of_mem (List.mem_filter.mpr ⟨hi, hphi⟩)
      refine (insts_binds hcallee hs hmem ha.walk (List.nil_append _).symm hin).bind fun env' henv' => ?_
      refine (Binds.expect rfl).bind fun t ht => ?_
      refine (execTerminator_binds fun v hv =>
        henv'.available ha.walk (hs.dominate.term b hmem t ht v hv)).bind fun e he => ?_
      cases e with
      | done v => trivial
      | goto target =>
        have hsucc : target ∈ b.successors := by
          rw [BasicBlock.successors, ht]
          exact he target rfl
        exact ih hf (.step ha.walk ⟨b, hb, hsucc⟩) (henv'.leave hv.nodup hmem)

/-- A call on well-typed arguments does not panic. -/
theorem call_progress (hok : validateModule M = .ok ()) (hnd : (M.functions.map (·.name)).Nodup)
    (hssa : ∀ f ∈ M.functions, f.Ssa) {f : Function} (hf : f ∈ M.functions) {args : List RtValue}
    (hargs : TypedArgs f args) (n : ℕ) (p : InterpPanic) : call M n f args ≠ .error (.panic p) := by
  intro hp
  have hvalid : ∀ g ∈ M.functions, ∃ defs, Validated g defs := fun g hg => by
    obtain ⟨defs, hv, -⟩ := validateModule_function hok hnd hg
    exact ⟨defs, hv⟩
  have hbound : Bound f [] (Env.ofArgs args) := by
    refine ⟨fun v hv => ?_, fun _ _ h => by cases h⟩
    show (args[v]?).isSome
    rw [List.getElem?_eq_getElem (hargs.length ▸ hv)]
    rfl
  -- types exclude some panics, the walk excludes the others
  have hsound := call_sound hok hnd n hf hargs
  have hbinds := loop_binds hvalid hssa n hf .start hbound
  have hcall : call M n f args = loop M n f f.entry none (Env.ofArgs args) :=
    if_neg (not_not.mpr hargs.length)
  rw [hp] at hsound
  rw [← hcall, hp] at hbinds
  exact absurd (hsound.symm.trans hbinds) (by decide)

end Run

/-- **Progress.** On an accepted module with distinct function names, whose functions have the form
the validator takes for granted, a run on well-typed arguments ends with a value of the return type
or in a division by zero, if it ends. -/
theorem run_progress {M : Module} (hok : validateModule M = .ok ())
    (hnd : (M.functions.map (·.name)).Nodup) (hssa : ∀ f ∈ M.functions, f.Ssa) {f : Function}
    (hf : f ∈ M.functions) {args : List RtValue} (hargs : TypedArgs f args)
    {r : InterpM (Option RtValue)} (hr : Runs M f.name args r) :
    (∃ v, r = .ok v ∧ v.map RtValue.ty = f.retTy) ∨ r = .error (.err .divideByZero) := by
  obtain ⟨hend, n, hr⟩ := hr
  have hcall : call M n f args = r := by rw [← hr, run, Module.function_of_mem hnd hf]
  have hsound := call_sound hok hnd n hf hargs
  rw [hcall] at hsound
  cases r with
  | ok v => exact .inl ⟨v, rfl, hsound⟩
  | error e =>
    cases e with
    | err e =>
      obtain rfl : e = .divideByZero := hsound
      exact .inr rfl
    | panic p => exact absurd hcall (call_progress hok hnd hssa hf hargs n p)
    | outOfFuel => exact absurd rfl hend

/-- A function is in the form the validator takes for granted if `D` lists dominators, and they define
what is used. -/
theorem Function.Ssa.of_dominators {f : Function} (D : BlockId → List BlockId)
    (hentry : ∀ d ∈ D f.entry, d = f.entry)
    (hedge : ∀ b ∈ f.blocks, ∀ s ∈ b.successors, ∀ d ∈ D s, d = s ∨ d ∈ D b.id)
    (hinst : ∀ b ∈ f.blocks, ∀ p ∈ b.instructions.zipIdx, ∀ v ∈ p.1.kind.operands,
      v < f.params.length ∨ v ∈ (b.instructions.take p.2).map (·.id) ∨
        ∃ d ∈ f.blocks, v ∈ d.instructions.map (·.id) ∧ d.id ≠ b.id ∧ d.id ∈ D b.id)
    (hterm : ∀ b ∈ f.blocks, ∀ t ∈ b.terminator, ∀ v ∈ t.operands,
      v < f.params.length ∨ v ∈ b.instructions.map (·.id) ∨
        ∃ d ∈ f.blocks, v ∈ d.instructions.map (·.id) ∧ d.id ≠ b.id ∧ d.id ∈ D b.id)
    (hphi : ∀ b ∈ f.blocks, ∀ incoming ∈ b.phis, ((incoming.map Prod.fst).Nodup ∧ b.id ≠ f.entry) ∧
      ∀ p ∈ incoming, p.2 < f.params.length ∨
        ∃ d ∈ f.blocks, p.2 ∈ d.instructions.map (·.id) ∧ d.id ∈ D p.1) : f.Ssa := by
  -- the listed dominators are dominators: a walk cannot gain one on the way
  have hdom : ∀ b d, d ∈ D b → Dominates f.Edge f.entry d b := by
    intro b d hd π hw
    induction hw generalizing d with
    | start => exact List.mem_cons.mpr (.inl (hentry d hd))
    | @step π p b _ he ih =>
      obtain ⟨blk, hblk, hs⟩ := he
      obtain ⟨hmem, rfl⟩ := Function.block_some hblk
      exact List.mem_cons.mpr ((hedge blk hmem b hs d hd).imp_right fun hd => ih d hd)
  refine ⟨⟨fun b hb before i after heq v hv => ?_, fun b hb t ht v hv => ?_,
    fun b hb incoming hin p hp => ?_⟩, fun π b _ blk hblk incoming hin => ?_⟩
  · have hi : (i, before.length) ∈ b.instructions.zipIdx := by
      refine List.mem_zipIdx_iff_getElem?.mpr ?_
      rw [heq]
      exact List.getElem?_append_right (Nat.le_refl _) |>.trans (by simp)
    rcases hinst b hb _ hi v hv with h | h | ⟨d, hd, hdef, hne, hmem⟩
    · exact .inl h
    · rw [heq, List.take_left] at h
      exact .inr (.inl h)
    · exact .inr (.inr ⟨d, hd, hdef, hne, hdom _ _ hmem⟩)
  · rcases hterm b hb t ht v hv with h | h | ⟨d, hd, hdef, hne, hmem⟩
    · exact .inl h
    · exact .inr (.inl h)
    · exact .inr (.inr ⟨d, hd, hdef, hne, hdom _ _ hmem⟩)
  · rcases (hphi b hb incoming hin).2 p hp with h | ⟨d, hd, hdef, hmem⟩
    · exact .inl h
    · exact .inr ⟨d, hd, hdef, hdom _ _ hmem⟩
  · obtain ⟨hmem, rfl⟩ := Function.block_some hblk
    exact (hphi blk hmem incoming hin).1

theorem run_progress_halfModule : run halfModule 8 "main" [.i64 7] = .ok (some (.i64 2)) ∧
    ∃ v, (.ok (some (.i64 2)) : InterpM (Option RtValue)) = .ok v ∧ v.map RtValue.ty = some Ty.i64 := by
  have hssa : ∀ f ∈ halfModule.functions, f.Ssa := by
    intro f hf
    have h : f = halfModule.functions[0] ∨ f = halfModule.functions[1] := by
      simpa [halfModule] using hf
    obtain rfl | rfl := h
    · exact .of_dominators (fun _ => [0]) (by decide) (by decide) (by decide) (by decide) (by decide)
    -- the loop's header dominates its body and the block behind it
    · exact .of_dominators (fun b => if b = 0 then [0] else [0, 1, b]) (by decide) (by decide)
        (by decide) (by decide) (by decide)
  have hrun : run halfModule 8 "main" [.i64 7] = .ok (some (.i64 2)) := by decide
  have hargs : TypedArgs halfModule.functions[1] [.i64 7] := rfl
  exact ⟨hrun, (run_progress (by decide) (by decide) hssa (by decide) hargs
    ⟨by simp, 8, hrun⟩).resolve_right (by simp)⟩

end Ir
end Chakobsa
