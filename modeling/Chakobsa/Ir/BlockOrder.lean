import Chakobsa.Ir.PhiResolution
import Mathlib.Data.List.Perm.Lattice

/-!
# Blocks in another order

Blocks refer to each other by id, so the order in which a function lists them should not matter. For
the interpreter and for the checks of a function it does not: both look blocks up by id, and ids are
distinct.
-/

namespace Chakobsa
namespace Ir

open ExceptLemmas

/-- `g` is `f` with its blocks in another order. -/
def Function.Reordered (f g : Function) : Prop :=
  ∃ bs : List BasicBlock, f.blocks.Perm bs ∧ g = { f with blocks := bs }

/-- `N` is `M` with the blocks of its functions in other orders. -/
def Module.Reordered (M N : Module) : Prop := List.Forall₂ Function.Reordered M.functions N.functions

section Function

variable {f g : Function} {defs : Defs}

theorem Function.Reordered.perm (h : f.Reordered g) : f.blocks.Perm g.blocks := by
  obtain ⟨bs, hbs, rfl⟩ := h
  exact hbs

theorem Function.Reordered.symm (h : f.Reordered g) : g.Reordered f := by
  obtain ⟨bs, hbs, rfl⟩ := h
  exact ⟨f.blocks, hbs.symm, rfl⟩

theorem Function.Reordered.name (h : f.Reordered g) : g.name = f.name := by
  obtain ⟨bs, -, rfl⟩ := h
  rfl

theorem Function.Reordered.params (h : f.Reordered g) : g.params = f.params := by
  obtain ⟨bs, -, rfl⟩ := h
  rfl

theorem Function.Reordered.mem (h : f.Reordered g) {b : BasicBlock} :
    b ∈ g.blocks ↔ b ∈ f.blocks := h.perm.symm.mem_iff

theorem Function.Reordered.nodup (h : f.Reordered g) (hnd : (f.blocks.map (·.id)).Nodup) :
    (g.blocks.map (·.id)).Nodup := (h.perm.map _).nodup_iff.mp hnd

/-- Under distinct ids a block is found wherever it stands. -/
theorem Function.Reordered.block (h : f.Reordered g) (hnd : (f.blocks.map (·.id)).Nodup)
    (id : BlockId) : g.block id = f.block id := by
  cases hb : g.block id with
  | some b =>
    obtain ⟨hmem, rfl⟩ := block_some hb
    exact (block_of_mem hnd (h.mem.mp hmem)).symm
  | none =>
    by_contra hne
    obtain ⟨b, hb'⟩ := Option.ne_none_iff_exists'.mp (Ne.symm hne)
    obtain ⟨hmem, rfl⟩ := block_some hb'
    rw [block_of_mem (h.nodup hnd) (h.mem.mpr hmem)] at hb
    cases hb

theorem Function.Reordered.predecessors (h : f.Reordered g) (id : BlockId) :
    (f.predecessors id).Perm (g.predecessors id) :=
  h.perm.flatMap_right _

/-- A list of definitions with distinct new ids is accepted. -/
theorem foldlM_defineInst_of {func : String} {l : List Instruction} {d : Defs}
    (hnd : (l.map (·.id)).Nodup) (hnew : ∀ i ∈ l, d i.id = none) :
    ∃ d', l.foldlM (defineInst func) d = .ok d' := by
  induction l generalizing d with
  | nil => exact ⟨d, rfl⟩
  | cons i l ih =>
    rw [List.map_cons, List.nodup_cons] at hnd
    have hi : defineInst func d i = .ok fun v => if v = i.id then some i.ty else d v := by
      rw [defineInst, hnew i List.mem_cons_self]
    rw [List.foldlM_cons, hi, ok_bind]
    refine ih hnd.2 fun j hj => ?_
    have hne : j.id ≠ i.id := fun he => hnd.1 (he ▸ List.mem_map_of_mem hj)
    rw [if_neg hne]
    exact hnew j (List.mem_cons_of_mem _ hj)

/-- The definitions of a function do not depend on the order of its blocks. -/
theorem Function.Reordered.collect (h : f.Reordered g) (hd : collectDefinitions f = .ok defs) :
    collectDefinitions g = .ok defs := by
  have hinsts : f.insts.Perm g.insts := h.perm.flatMap_right _
  have hparams : paramDefs g = paramDefs f := by
    unfold paramDefs
    rw [h.params]
  obtain ⟨hnd, hfresh, hmem⟩ := collectDefinitions_ok hd
  obtain ⟨defs', hd'⟩ : ∃ defs', collectDefinitions g = .ok defs' := by
    refine foldlM_defineInst_of ((hinsts.map _).nodup_iff.mp hnd) fun i hi => ?_
    have hnone : f.params[i.id]? = none :=
      List.getElem?_eq_none (hfresh i (hinsts.mem_iff.mpr hi))
    rw [hparams, paramDefs, hnone]
    rfl
  obtain ⟨-, -, hmem'⟩ := collectDefinitions_ok hd'
  rw [hd']
  congr 1
  funext v
  apply Option.ext
  intro t
  rw [hmem', hmem, hparams]
  simp only [hinsts.mem_iff]

/-- So an accepted function is accepted in any order. -/
theorem Function.Reordered.validated (h : f.Reordered g) (hv : Validated f defs) :
    Validated g defs := by
  have hblock := h.block hv.nodup
  have hret : g.retTy = f.retTy := by
    obtain ⟨bs, -, rfl⟩ := h
    rfl
  have hentry : g.entry = f.entry := by
    obtain ⟨bs, -, rfl⟩ := h
    rfl
  refine ⟨?_, h.nodup hv.nodup, h.collect hv.collect, fun b hb i hi => ?_, fun b hb => ?_⟩
  · rw [hentry, hblock]
    exact hv.entry
  · have hok := hv.insts b (h.mem.mp hb) i hi
    unfold InstOk at hok ⊢
    cases hk : i.kind with
    | phi incoming =>
      -- the predecessors are the same, in another order
      simp only [hk] at hok ⊢
      rw [← (h.predecessors b.id).length_eq]
      simpa only [(h.predecessors b.id).mem_iff] using hok
    | _ => simpa only [hk] using hok
  · obtain ⟨t, ht, hok⟩ := hv.term b (h.mem.mp hb)
    refine ⟨t, ht, ?_⟩
    cases t with
    | jump target =>
      rw [TermOk, hblock]
      exact hok
    | branch cond t e =>
      rw [TermOk, hblock, hblock]
      exact hok
    | ret v =>
      cases v with
      | none => exact hret.trans hok
      | some v =>
        rw [TermOk, hret]
        exact hok

end Function

section Module

variable {M N : Module}

theorem Module.Reordered.symm (h : M.Reordered N) : N.Reordered M :=
  h.flip.imp fun _ _ hf => Function.Reordered.symm hf

theorem Module.Reordered.names (h : M.Reordered N) :
    N.functions.map (·.name) = M.functions.map (·.name) := by
  unfold Module.Reordered at h
  generalize M.functions = fs at h
  generalize N.functions = gs at h
  induction h with
  | nil => rfl
  | cons hf _ ih => rw [List.map_cons, List.map_cons, hf.name, ih]

/-- The functions of one position belong together. -/
theorem Module.Reordered.getElem? (h : M.Reordered N) {k : ℕ} {f : Function}
    (hf : M.functions[k]? = some f) : ∃ g, N.functions[k]? = some g ∧ f.Reordered g := by
  obtain ⟨hk, rfl⟩ := List.getElem?_eq_some_iff.mp hf
  have hk' : k < N.functions.length := h.length_eq ▸ hk
  exact ⟨N.functions[k], List.getElem?_eq_getElem hk', List.forall₂_iff_get.mp h |>.2 k hk hk'⟩

/-- So do those found under one name. -/
theorem Module.Reordered.function (h : M.Reordered N) (name : String) :
    Option.Rel Function.Reordered (M.function name) (N.function name) := by
  unfold Module.Reordered at h
  unfold Module.function
  generalize M.functions = fs at h ⊢
  generalize N.functions = gs at h ⊢
  induction h with
  | nil => exact .none
  | @cons f g fs gs hf _ ih =>
    rw [List.find?_cons, List.find?_cons, hf.name]
    cases f.name == name with
    | true => exact .some hf
    | false => exact ih

/-- An instruction does the same in both modules if a call does. -/
theorem execInst_reordered (h : M.Reordered N)
    {callee callee' : Function → List RtValue → InterpM (Option RtValue)}
    (hcallee : ∀ f ∈ M.functions, ∀ g, f.Reordered g → ∀ xs, callee' g xs = callee f xs) (env : Env)
    (inst : Instruction) : execInst N callee' env inst = execInst M callee env inst := by
  unfold execInst
  cases inst.kind with
  | call name args =>
    dsimp only
    have hrel := h.function name
    cases hf : M.function name with
    | none =>
      rw [hf] at hrel
      cases hg : N.function name with
      | none => rfl
      | some g =>
        rw [hg] at hrel
        cases hrel
    | some f =>
      rw [hf] at hrel
      cases hg : N.function name with
      | none =>
        rw [hg] at hrel
        cases hrel
      | some g =>
        rw [hg] at hrel
        cases hrel with
        | some hfg => simp only [hcallee f (Module.function_some hf).1 g hfg]
  | _ => rfl

/-- The interpreter follows ids: it takes the same blocks, whatever their order. -/
theorem loop_reordered (h : M.Reordered N)
    (hnd : ∀ f ∈ M.functions, (f.blocks.map (·.id)).Nodup) (n : ℕ) {f g : Function}
    (hf : f ∈ M.functions) (hfg : f.Reordered g) (current : BlockId) (cameFrom : Option BlockId)
    (env : Env) : loop N n g current cameFrom env = loop M n f current cameFrom env := by
  induction n generalizing f g current cameFrom env with
  | zero => rfl
  | succ n ih =>
    have hcallee : ∀ f ∈ M.functions, ∀ g, f.Reordered g → ∀ xs,
        callWith (loop N n) g xs = callWith (loop M n) f xs := by
      intro f hf g hfg xs
      have henter := ih hf hfg
      obtain ⟨bs, -, rfl⟩ := hfg
      simp only [callWith, henter]
    have hexec : execInst N (callWith (loop N n)) = execInst M (callWith (loop M n)) :=
      funext fun env => funext fun inst => execInst_reordered h hcallee env inst
    simp only [loop, hfg.block (hnd f hf), hexec, ih hf hfg]

theorem call_reordered (h : M.Reordered N) (hok : validateModule M = .ok ()) (n : ℕ)
    {f g : Function} (hf : f ∈ M.functions) (hfg : f.Reordered g) (args : List RtValue) :
    call N n g args = call M n f args := by
  have hnd : ∀ f ∈ M.functions, (f.blocks.map (·.id)).Nodup := by
    intro f hf
    obtain ⟨defs, hv⟩ := validateFunction_ok_iff.mp ((validateModule_ok_iff.mp hok).1 f hf)
    exact hv.nodup
  have hloop := loop_reordered h hnd n hf hfg
  obtain ⟨bs, -, rfl⟩ := hfg
  simp only [call, callWith, hloop]

/-- **The interpreter does not depend on the order of blocks.** -/
theorem run_reordered (h : M.Reordered N) (hok : validateModule M = .ok ()) (n : ℕ) (entry : String)
    (args : List RtValue) : run N n entry args = run M n entry args := by
  have hrel := h.function entry
  unfold run
  cases hf : M.function entry with
  | none =>
    rw [hf] at hrel
    cases hg : N.function entry with
    | none => rfl
    | some g =>
      rw [hg] at hrel
      cases hrel
  | some f =>
    rw [hf] at hrel
    cases hg : N.function entry with
    | none =>
      rw [hg] at hrel
      cases hrel
    | some g =>
      rw [hg] at hrel
      cases hrel with
      | some hfg => exact call_reordered h hok n (Module.function_some hf).1 hfg args

end Module

theorem run_reordered_distinctIncoming :
    run ⟨[{ distinctIncoming with blocks := distinctIncoming.blocks.reverse }]⟩ 5 "f" [.bool true] =
      .ok (some (.i64 1)) := by
  have h : Module.Reordered ⟨[distinctIncoming]⟩
      ⟨[{ distinctIncoming with blocks := distinctIncoming.blocks.reverse }]⟩ :=
    .cons ⟨_, (List.reverse_perm _).symm, rfl⟩ .nil
  have hrun : run ⟨[distinctIncoming]⟩ 5 "f" [.bool true] = .ok (some (.i64 1)) := by decide
  exact (run_reordered h (by decide) 5 "f" [.bool true]).trans hrun

end Ir
end Chakobsa
