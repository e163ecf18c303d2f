import Chakobsa.Codegen.Correctness
import Chakobsa.Codegen.Recompiled

/-!
# Compiled code and the order of blocks

Since compiled code does what the interpreter does, and the interpreter does not look at the order of
blocks, neither does the machine: the two programs compiled from a module and from a reordered one
end alike (`compiled_reordered`). What the order may not do is move the entry block from its place,
for a call enters the first block of its callee.
-/

namespace Chakobsa
namespace Codegen

open Ir ExceptLemmas

section Reordered

variable {M N : Module}

/-- A call agrees with the signature of its callee in the one module if it does in the other. -/
theorem callOk_reordered (h : M.Reordered N) {defs : Defs} {i : Instruction} (hi : CallOk M defs i) :
    CallOk N defs i := by
  intro callee args hk
  obtain ⟨g, t, hg, hlen, hargs, hret, hty⟩ := hi callee args hk
  have hrel := h.function callee
  rw [hg] at hrel
  cases hN : N.function callee with
  | none =>
    rw [hN] at hrel
    cases hrel
  | some g' =>
    rw [hN] at hrel
    cases hrel with
    | some hgg =>
      obtain ⟨bs, -, rfl⟩ := hgg
      exact ⟨_, t, rfl, hlen, hargs, hret, hty⟩

/-- An accepted module is accepted in any order of blocks. -/
theorem validateModule_reordered (h : M.Reordered N) (hnd : (M.functions.map (·.name)).Nodup)
    (hok : validateModule M = .ok ()) : validateModule N = .ok () := by
  have hndN : (N.functions.map (·.name)).Nodup := h.names ▸ hnd
  have hfn : ∀ g ∈ N.functions, ∃ f ∈ M.functions, f.Reordered g := fun g hg => by
    obtain ⟨f, hf, hr⟩ := exists_of_forall₂ h.symm hg
    exact ⟨f, hf, hr.symm⟩
  refine validateModule_ok_iff.mpr ⟨fun g hg => ?_, fun g hg b hb i hi => ?_⟩
  · obtain ⟨f, hf, hr⟩ := hfn g hg
    obtain ⟨defs, hv, -⟩ := validateModule_function hok hnd hf
    exact validateFunction_ok_iff.mpr ⟨defs, hr.validated hv⟩
  · obtain ⟨f, hf, hr⟩ := hfn g hg
    obtain ⟨defs, hv, hcalls⟩ := validateModule_function hok hnd hf
    rw [defsByFunc_eq hndN hg (hr.collect hv.collect)]
    exact callOk_reordered h (hcalls b (hr.mem.mp hb) i hi)

theorem calls_reordered (h : M.Reordered N) {k j : ℕ} (hcall : Calls N k j) : Calls M k j := by
  obtain ⟨f, g, hf, hg, b, hb, i, hi, args, hk⟩ := hcall
  obtain ⟨f', hf', hff⟩ := h.symm.getElem? hf
  obtain ⟨g', hg', hgg⟩ := h.symm.getElem? hg
  exact ⟨f', g', hf', hg', b, hff.mem.mpr hb, i, hi, args, by rw [hgg.name]; exact hk⟩

/-- What is compiled faithfully in one order of blocks is so in every other with the entry blocks in
front. -/
theorem Compilable.reordered (hM : Compilable M) (h : M.Reordered N)
    (hentry : ∀ g ∈ N.functions, ∃ b, g.blocks[0]? = some b ∧ b.id = g.entry) : Compilable N := by
  have hvalid := validateModule_reordered h hM.names hM.valid
  have hnames : (N.functions.map (·.name)).Nodup := h.names ▸ hM.names
  -- the allocation of a function is that of its original
  have halloc : ∀ k g alloc, N.functions[k]? = some g →
      allocate g (k * FUNCTION_REGION_BYTES) (reservedArgRegisters N) = .ok alloc →
      ∃ f, M.functions[k]? = some f ∧
        allocate f (k * FUNCTION_REGION_BYTES) (reservedArgRegisters M) = .ok alloc := by
    intro k g alloc hg ha
    obtain ⟨f, hf, hgf⟩ := h.symm.getElem? hg
    obtain ⟨defs, hv, -⟩ := validateModule_function hvalid hnames (List.mem_of_getElem? hg)
    rw [reservedArgRegisters_reordered h] at ha
    exact ⟨f, hf, allocate_reordered hgf hv ha⟩
  refine ⟨hvalid, hnames, hentry, fun g hg b hb c t e hterm => ?_, fun k g alloc hg ha => ?_,
    fun k g alloc hg hcycle ha => ?_⟩
  · obtain ⟨f, hf, hgf⟩ := exists_of_forall₂ h.symm hg
    obtain ⟨defs, hv, -⟩ := validateModule_function hM.valid hM.names hf
    obtain ⟨ht, he⟩ := hM.split f hf b (hgf.mem.mpr hb) c t e hterm
    simp only [HasPhi, hgf.symm.block hv.nodup] at ht he ⊢
    exact ⟨ht, he⟩
  · obtain ⟨f, hf, ha'⟩ := halloc k g alloc hg ha
    exact hM.spills k f alloc hf ha'
  · obtain ⟨f, hf, ha'⟩ := halloc k g alloc hg ha
    exact hM.recursion k f alloc hf (hcycle.lift id fun _ _ => calls_reordered h) ha'

/-- **Whether a module compiles does not depend on the order of blocks.** -/
theorem compileModule_ok_reordered (h : M.Reordered N) (hok : validateModule M = .ok ())
    (hnd : (M.functions.map (·.name)).Nodup) :
    (∃ c, compileModule M = .ok c) ↔ ∃ c, compileModule N = .ok c := by
  have hndN : (N.functions.map (·.name)).Nodup := h.names ▸ hnd
  constructor
  · rintro ⟨c, hc⟩
    exact compileModule_reordered h hok hnd hc
  · rintro ⟨c, hc⟩
    exact compileModule_reordered h.symm (validateModule_reordered h hnd hok) hndN hc

/-- **The machine does not depend on the order of blocks.** Where the interpreter ends, the programs
compiled from a module and from a reordered one end alike, as the interpreter does, in every memory
that is large enough for the run. -/
theorem compiled_reordered (hM : Compilable M) (h : M.Reordered N)
    (hentry : ∀ g ∈ N.functions, ∃ b, g.blocks[0]? = some b ∧ b.id = g.entry)
    {c : CompiledModule} (hc : compileModule M = .ok c) :
    ∃ c', compileModule N = .ok c' ∧ ∀ f ∈ M.functions, ∀ xs, TypedArgs f xs →
      ∀ entry entry', c.entryOf f.name = some entry → c'.entryOf f.name = some entry' →
      ∀ P P', Drives c P entry xs → Drives c' P' entry' xs →
      ∀ n r, run M n f.name xs = r → r ≠ .error .outOfFuel → (∀ p, r ≠ .error (.panic p)) →
      ∀ m : MemorySize, STACK_BASE + FRAME_BYTES * n ≤ m.bytes → ∀ σ : Cells, σ.Zero →
        ∃ res res', Finishes (P.next m) (P.boot σ) res ∧ Finishes (P'.next m) (P'.boot σ) res' ∧
          Agrees r res ∧ Agrees r res' := by
  obtain ⟨c', hc'⟩ := compileModule_reordered h hM.valid hM.names hc
  have hN := hM.reordered h hentry
  refine ⟨c', hc', fun f hf xs hxs entry entry' he he' P P' hP hP' n r hr hend hpanic m hm σ hz => ?_⟩
  obtain ⟨g, hg, hfg⟩ := exists_of_forall₂ h hf
  have hxs' : TypedArgs g xs := by
    rw [TypedArgs, hfg.params]
    exact hxs
  have hm' : STACK_BASE ≤ m.bytes := (Nat.le_add_right _ _).trans hm
  have hr' : run N n g.name xs = r := by
    rw [run, Module.function_of_mem hN.names hg]
    rw [run, Module.function_of_mem hM.names hf] at hr
    exact (call_reordered h hM.valid n hf hfg xs).trans hr
  obtain ⟨res, hres, hag⟩ := compiled_run hM hc hf he hxs hP hm' hz hr hend hpanic
  obtain ⟨res', hres', hag'⟩ :=
    compiled_run hN hc' hg (hfg.name ▸ he') hxs' hP' hm' hz hr' hend hpanic
  exact ⟨res, res', hres, hres', hag.resolve_right fun hout => Nat.not_lt.mpr hm hout.2,
    hag'.resolve_right fun hout => Nat.not_lt.mpr hm hout.2⟩

end Reordered

/-- `countModule` with the body of the loop in front of its header, and the branches exchanged. -/
def countReordered : Module where
  functions := countModule.functions.map fun f =>
    { f with blocks := [0, 2, 1, 3].filterMap fun i => f.blocks[i]? }

theorem countModule_reordered : countModule.Reordered countReordered := by
  refine .cons ⟨_, ?_, rfl⟩ (.cons ⟨_, ?_, rfl⟩ .nil) <;> decide

theorem compileModule_ok_reordered_count : ∃ c, compileModule countReordered = .ok c := by
  refine (compileModule_ok_reordered countModule_reordered (by decide) (by decide)).mp ?_
  exact exists_of_isSome (by decide +kernel)

theorem compiled_reordered_count : ∃ c entry, compileModule countReordered = .ok c ∧
    c.entryOf "main" = some entry ∧
    Finishes ((c.driver entry [3]).next ⟨0x200000, by decide⟩)
      ((c.driver entry [3]).boot ⟨fun _ => 0, fun _ => 0⟩) (.value 3) := by
  obtain ⟨c, hc⟩ : ∃ c, compileModule countModule = .ok c := exists_of_isSome (by decide +kernel)
  obtain ⟨c', hc', h⟩ := compiled_reordered countModule_compilable countModule_reordered (by decide) hc
  -- both modules have a function of this name
  have hentry : ∀ M c, compileModule M = .ok c → (M.functions.map (·.name)).Nodup →
      (M.functions[1]?.map (·.name)) = some "main" → ∃ entry, c.entryOf "main" = some entry := by
    intro M c hc hnd hname
    obtain ⟨lowered, hlayout⟩ := compileModule_ok hc
    obtain ⟨f, hf, hfn⟩ := Option.map_eq_some_iff.mp hname
    refine ⟨start M 1 0, ?_⟩
    rw [CompiledModule.entryOf, hlayout.entry, ← hfn]
    exact Pass1.moduleEntry hlayout.pass1 hnd hf
  obtain ⟨entry, he⟩ := hentry _ c hc (by decide) rfl
  obtain ⟨entry', he'⟩ := hentry _ c' hc' (by decide) rfl
  have hrun : run countModule 10 "main" [.i64 3] = .ok (some (.i64 3)) := by decide +kernel
  obtain ⟨res, res', -, hres', -, hagrees⟩ := h (countModule.functions[1]) (by decide) [.i64 3] rfl
    entry entry' he he' _ _ (c.driver_is entry (by decide)) (c'.driver_is entry' (by decide)) 10 _ hrun
    (by simp) (by simp) ⟨0x200000, by decide⟩ (by decide) ⟨fun _ => 0, fun _ => 0⟩ rfl
  cases hagrees
  exact ⟨c', entry', hc', he', hres'⟩

end Codegen
end Chakobsa
