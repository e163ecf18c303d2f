import Chakobsa.Ir.Validate

/-!
# What the checks of call sites establish

`validate_module` looks the type of an argument up in a map keyed by the name of the calling
function, which it has collected from the list of functions: under one name the map holds the
definitions of the last function. The module that runs resolves a name to the first one. Nothing
checks that names are distinct, so that of two functions of one name the first is checked against
the values of the last.

`callChecks_iff` says exactly when acceptance means what it is meant to mean.
-/

namespace Chakobsa
namespace Ir

open ExceptLemmas

/-- The function defines the value with the given type, as a parameter or by an instruction. -/
def Function.Types (f : Function) (v : ValueId) (t : Ty) : Prop :=
  paramDefs f v = some t ∨ ∃ i ∈ f.insts, i.id = v ∧ i.ty = t

/-- Every `Call` names a function, has as many arguments as it has parameters, each a value of the
calling function with the type of the parameter, and has its return type. -/
def CallsAgree (M : Module) : Prop :=
  ∀ f ∈ M.functions, ∀ i ∈ f.insts, ∀ callee args, i.kind = .call callee args →
    ∃ g, M.function callee = some g ∧ args.length = g.params.length ∧
      (∀ p ∈ args.zip g.params, f.Types p.1 p.2.2) ∧ g.retTy = some i.ty

/-- A value that a function passes to a call has in it the types it has in the last function of the
same name. -/
def ArgsShared (M : Module) : Prop :=
  ∀ f ∈ M.functions, ∀ i ∈ f.insts, ∀ callee args, i.kind = .call callee args →
    ∀ last, M.functions.reverse.find? (fun g => g.name == f.name) = some last →
      ∀ a ∈ args, ∀ t, f.Types a t ↔ last.Types a t

/-- The definition map holds the types. -/
theorem defs_iff_types {f : Function} {defs : Defs} (h : collectDefinitions f = .ok defs)
    {v : ValueId} {t : Ty} : defs v = some t ↔ f.Types v t := (collectDefinitions_ok h).2.2 v t

/-- A value of an accepted function has one type. -/
theorem Function.Types.unique {f : Function} (hok : validateFunction f = .ok ()) {v : ValueId}
    {t t' : Ty} (h : f.Types v t) (h' : f.Types v t') : t = t' := by
  obtain ⟨defs, hv⟩ := validateFunction_ok_iff.mp hok
  rw [← defs_iff_types hv.collect] at h h'
  exact Option.some.inj (h.symm.trans h')

/-- In an accepted module a name of a function is that of a last one, and `defs_by_func` holds its
types. -/
theorem exists_last {M : Module} (hfs : ∀ f ∈ M.functions, validateFunction f = .ok ())
    {f : Function} (hf : f ∈ M.functions) :
    ∃ last, M.functions.reverse.find? (fun g => g.name == f.name) = some last ∧
      validateFunction last = .ok () ∧
      ∀ v t, defsByFunc M f.name v = some t ↔ last.Types v t := by
  obtain ⟨last, hlast⟩ : ∃ last, M.functions.reverse.find? (fun g => g.name == f.name) = some last := by
    apply Option.isSome_iff_exists.mp
    simp only [List.find?_isSome, List.mem_reverse, beq_iff_eq]
    exact ⟨f, hf, rfl⟩
  have hmem : last ∈ M.functions := List.mem_reverse.mp (List.mem_of_find?_eq_some hlast)
  have hok := hfs last hmem
  refine ⟨last, hlast, hok, fun v t => ?_⟩
  obtain ⟨defs, hv⟩ := validateFunction_ok_iff.mp hok
  rw [defsByFunc, hlast]
  simp only [hv.collect, Except.toOption, Option.getD_some]
  exact defs_iff_types hv.collect

/-- In a list of arguments as long as the list of parameters every argument meets a parameter. -/
theorem exists_mem_zip {α β : Type} {as : List α} {bs : List β} (h : as.length = bs.length) {a : α}
    (ha : a ∈ as) : ∃ b, (a, b) ∈ as.zip bs := by
  induction as generalizing bs with
  | nil => cases ha
  | cons a' as ih =>
    cases bs with
    | nil => cases h
    | cons b bs =>
      rcases List.mem_cons.mp ha with rfl | ha
      · exact ⟨b, List.mem_cons_self⟩
      · obtain ⟨b', hb'⟩ := ih (Nat.succ.inj h) ha
        exact ⟨b', List.mem_cons_of_mem _ hb'⟩

/-- The calls of an accepted module agree with their callees exactly when every argument has in its
own function the type it has in the last function of that name. -/
theorem callChecks_iff (M : Module) (hok : validateModule M = .ok ()) :
    CallsAgree M ↔ ArgsShared M := by
  obtain ⟨hfs, hcalls⟩ := validateModule_ok_iff.mp hok
  -- what the module pass has seen of a call
  have hcall : ∀ f ∈ M.functions, ∀ i ∈ f.insts, CallOk M (defsByFunc M f.name) i := by
    intro f hf i hi
    obtain ⟨b, hb, hib⟩ := mem_insts.mp hi
    exact hcalls f hf b hb i hib
  constructor
  · intro h f hf i hi callee args hk last hlast a ha t
    obtain ⟨g, hg, hlen, hargs, -⟩ := h f hf i hi callee args hk
    obtain ⟨g', t', hg', -, hargs', -⟩ := hcall f hf i hi callee args hk
    obtain rfl : g = g' := Option.some.inj (hg.symm.trans hg')
    obtain ⟨last', hlast', hlastOk, hdefs⟩ := exists_last hfs hf
    obtain rfl : last = last' := Option.some.inj (hlast.symm.trans hlast')
    obtain ⟨param, hparam⟩ := exists_mem_zip hlen ha
    have hown : f.Types a param.2 := hargs _ hparam
    have hother : last.Types a param.2 := (hdefs a _).mp (hargs' _ hparam)
    constructor
    · intro ht
      rw [ht.unique (hfs f hf) hown]
      exact hother
    · intro ht
      rw [ht.unique hlastOk hother]
      exact hown
  · intro h f hf i hi callee args hk
    obtain ⟨g, t, hg, hlen, hargs, hret, hty⟩ := hcall f hf i hi callee args hk
    obtain ⟨last, hlast, -, hdefs⟩ := exists_last hfs hf
    refine ⟨g, hg, hlen, fun p hp => ?_, hty ▸ hret⟩
    have ha : p.1 ∈ args := (List.of_mem_zip hp).1
    exact (h f hf i hi callee args hk last hlast p.1 ha p.2.2).mpr ((hdefs _ _).mp (hargs p hp))

/-- Distinct names are enough. -/
theorem ArgsShared.of_nodup {M : Module} (hnd : (M.functions.map (·.name)).Nodup) : ArgsShared M := by
  intro f hf i _ callee args _ last hlast a _ t
  have hmem : last ∈ M.functions := List.mem_reverse.mp (List.mem_of_find?_eq_some hlast)
  have hname : last.name = f.name := by simpa using List.find?_some hlast
  rw [List.inj_on_of_nodup_map hnd hmem hf hname]

/-- `fn id(x: i64) -> i64` and two functions `f`; the first passes a `bool` to `id`, under an id that
is an `i64` in the second. -/
def twiceNamed : Module where
  functions :=
    [⟨"id", [("x", .i64)], some .i64, [⟨0, [], some (.ret (some 0))⟩], 0⟩,
     ⟨"f", [("b", .bool)], some .i64, [⟨0, [⟨1, .i64, .call "id" [0]⟩], some (.ret (some 1))⟩], 0⟩,
     ⟨"f", [("n", .i64)], some .i64, [⟨0, [⟨1, .i64, .call "id" [0]⟩], some (.ret (some 1))⟩], 0⟩]

/-- The same with distinct names and types that agree. -/
def onceNamed : Module where
  functions :=
    [⟨"id", [("x", .i64)], some .i64, [⟨0, [], some (.ret (some 0))⟩], 0⟩,
     ⟨"f", [("n", .i64)], some .i64, [⟨0, [⟨1, .i64, .call "id" [0]⟩], some (.ret (some 1))⟩], 0⟩]

theorem callChecks_iff_onceNamed : CallsAgree onceNamed ↔ ArgsShared onceNamed :=
  callChecks_iff onceNamed (by decide)

/-- Of two functions of one name the first is accepted with an argument of the wrong type. -/
theorem twiceNamed_accepted : validateModule twiceNamed = .ok () ∧ ¬ CallsAgree twiceNamed := by
  refine ⟨by decide, fun h => ?_⟩
  obtain ⟨g, hg, -, hargs, -⟩ := h _ (List.mem_cons_of_mem _ List.mem_cons_self)
    ⟨1, .i64, .call "id" [0]⟩ (by decide) "id" [0] rfl
  obtain rfl := Option.some.inj hg
  rcases hargs (0, ("x", .i64)) (by decide) with hparam | ⟨i, hi, hid, -⟩
  · exact absurd hparam (by decide)
  · have hne : ∀ j ∈ (twiceNamed.functions[1]).insts, j.id ≠ 0 := by decide
    exact hne i hi hid

end Ir
end Chakobsa
