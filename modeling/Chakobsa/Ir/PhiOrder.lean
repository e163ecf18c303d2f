import Chakobsa.Ir.PhiResolution
import Mathlib.Data.List.Perm.Basic

/-!
# The order of phis

`call` reads the values of all phis of a block before it binds the first of them, and skips the
phis when it executes the block. So what it computes depends neither on the order of the phis
among themselves nor on where they stand between the other instructions.

`Rearranged` relates two modules that differ in nothing else, and `run_rearranged` says that
their runs end alike. The argument is a simulation: the two runs are in the same block with the
same environment whenever they enter a block, at every depth of nested calls.
-/

namespace Chakobsa
namespace Ir

open Chakobsa.Comp

/-- The second block is the first with its phis reordered among themselves and moved between
the other instructions, which keep their order. -/
structure BasicBlock.Rearranged (b b' : BasicBlock) : Prop where
  id : b'.id = b.id
  terminator : b'.terminator = b.terminator
  phis : (b.instructions.filter (·.kind.isPhi)).Perm (b'.instructions.filter (·.kind.isPhi))
  rest : b.instructions.filter (!·.kind.isPhi) = b'.instructions.filter (!·.kind.isPhi)

/-- The second function is the first with the phis of any of its blocks rearranged. -/
structure Function.Rearranged (f f' : Function) : Prop where
  name : f'.name = f.name
  params : f'.params = f.params
  retTy : f'.retTy = f.retTy
  entry : f'.entry = f.entry
  blocks : List.Forall₂ BasicBlock.Rearranged f.blocks f'.blocks

/-- The second module is the first with the phis of any blocks of any functions rearranged. -/
def Module.Rearranged (M M' : Module) : Prop :=
  List.Forall₂ Function.Rearranged M.functions M'.functions

/-- A search by a key that the relation keeps ends alike in both lists. -/
theorem find?_forall₂ {α : Type} {R : α → α → Prop} {p : α → Bool} (hp : ∀ a b, R a b → p a = p b)
    {l l' : List α} (h : List.Forall₂ R l l') :
    (l.find? p = none ∧ l'.find? p = none) ∨
      ∃ a b, l.find? p = some a ∧ l'.find? p = some b ∧ R a b := by
  induction h with
  | nil => exact .inl ⟨rfl, rfl⟩
  | @cons a b _ _ hab _ ih =>
    rw [List.find?_cons, List.find?_cons, ← hp a b hab]
    cases p a with
    | true => exact .inr ⟨a, b, rfl, rfl, hab⟩
    | false => exact ih

theorem Function.Rearranged.block {f f' : Function} (h : f.Rearranged f') (b : BlockId) :
    (f.block b = none ∧ f'.block b = none) ∨
      ∃ c c', f.block b = some c ∧ f'.block b = some c' ∧ c.Rearranged c' :=
  find?_forall₂ (fun a c hac => by rw [hac.id]) h.blocks

theorem Module.Rearranged.function {M M' : Module} (h : M.Rearranged M') (name : String) :
    (M.function name = none ∧ M'.function name = none) ∨
      ∃ g g', M.function name = some g ∧ M'.function name = some g' ∧ g.Rearranged g' :=
  find?_forall₂ (fun a c hac => by rw [hac.name]) h

/-! ### Entering a block -/

/-- Under distinct names, `insertAll` binds exactly what the list says and leaves the rest of
the environment alone. -/
theorem Env.insertAll_eq_some_iff {rs : List (ValueId × RtValue)} (hnd : (rs.map Prod.fst).Nodup)
    {env : Env} {w : ValueId} {x : RtValue} :
    env.insertAll rs w = some x ↔ (w, x) ∈ rs ∨ w ∉ rs.map Prod.fst ∧ env w = some x := by
  induction rs generalizing env with
  | nil => simp [insertAll]
  | cons r rs ih =>
    obtain ⟨v, y⟩ := r
    obtain ⟨hv, hnd⟩ := List.nodup_cons.mp hnd
    rw [insertAll, ih hnd]
    by_cases hw : w = v
    · subst hw
      have hno : (w, x) ∉ rs := fun hx => hv (List.mem_map.mpr ⟨_, hx, rfl⟩)
      simp [hno, hv, eq_comm]
    · simp [insert_of_ne env hw, hw]

/-- Bindings of distinct names can be made in any order. -/
theorem Env.insertAll_perm {rs rs' : List (ValueId × RtValue)} (h : rs.Perm rs')
    (hnd : (rs.map Prod.fst).Nodup) (env : Env) : env.insertAll rs = env.insertAll rs' := by
  have hnd' : (rs'.map Prod.fst).Nodup := (h.map Prod.fst).nodup_iff.mp hnd
  funext w
  apply Option.ext
  intro x
  rw [insertAll_eq_some_iff hnd, insertAll_eq_some_iff hnd', h.mem_iff, (h.map Prod.fst).mem_iff]

/-- Reading the value of a phi ends in a value or in a panic. -/
theorem phiValue_cases (env : Env) (cameFrom : Option BlockId)
    (incoming : List (BlockId × ValueId)) :
    (∃ x, phiValue env cameFrom incoming = .ok x) ∨
      ∃ p, phiValue env cameFrom incoming = .error (.panic p) := by
  unfold phiValue
  cases cameFrom with
  | none => exact .inr ⟨_, rfl⟩
  | some from' =>
    rw [expect_some, ExceptLemmas.ok_bind]
    cases incoming.find? fun p => p.1 == from' with
    | none => exact .inr ⟨_, rfl⟩
    | some w =>
      rw [expect_some, ExceptLemmas.ok_bind, Env.get]
      cases env w.2 with
      | none => exact .inr ⟨_, rfl⟩
      | some x => exact .inl ⟨x, rfl⟩

theorem phiResults_cons_phi (env : Env) (cameFrom : Option BlockId) {i : Instruction}
    {incoming : List (BlockId × ValueId)} (hi : i.kind = .phi incoming) (l : List Instruction) :
    phiResults env cameFrom (i :: l) = (do
      let x ← phiValue env cameFrom incoming
      let rs ← phiResults env cameFrom l
      return (i.id, x) :: rs) := by
  rw [phiResults, hi]

theorem phiResults_cons_other (env : Env) (cameFrom : Option BlockId) {i : Instruction}
    (hi : i.kind.isPhi = false) (l : List Instruction) :
    phiResults env cameFrom (i :: l) = phiResults env cameFrom l := by
  rw [phiResults]
  cases hk : i.kind <;> simp_all [InstKind.isPhi]

/-- Only the phis among the instructions matter when the phis are read. -/
theorem phiResults_filter (env : Env) (cameFrom : Option BlockId) (l : List Instruction) :
    phiResults env cameFrom (l.filter (·.kind.isPhi)) = phiResults env cameFrom l := by
  induction l with
  | nil => rfl
  | cons i l ih =>
    cases hk : i.kind.isPhi with
    | false => rw [List.filter_cons_of_neg (by simp [hk]), phiResults_cons_other _ _ hk, ih]
    | true =>
      obtain ⟨incoming, hi⟩ := InstKind.isPhi_iff.mp hk
      rw [List.filter_cons_of_pos (by simp [hk]), phiResults_cons_phi _ _ hi,
        phiResults_cons_phi _ _ hi, ih]

/-- The values read belong to the phis, one each. -/
theorem phiResults_ids {env : Env} {cameFrom : Option BlockId} {l : List Instruction}
    {rs : List (ValueId × RtValue)} (h : phiResults env cameFrom l = .ok rs) :
    rs.map Prod.fst = (l.filter (·.kind.isPhi)).map (·.id) := by
  rw [← phiResults_filter] at h
  have hphi : ∀ i ∈ l.filter (·.kind.isPhi), i.kind.isPhi = true :=
    fun i hi => (List.mem_filter.mp hi).2
  generalize l.filter (·.kind.isPhi) = m at h hphi
  induction m generalizing rs with
  | nil =>
    obtain rfl : rs = [] := by simpa [phiResults, eq_comm] using h
    rfl
  | cons i m ih =>
    obtain ⟨incoming, hi⟩ := InstKind.isPhi_iff.mp (hphi i List.mem_cons_self)
    rw [phiResults_cons_phi _ _ hi] at h
    obtain ⟨x, -, h⟩ := ExceptLemmas.bind_eq_ok.mp h
    obtain ⟨rs', hrs', h⟩ := ExceptLemmas.bind_eq_ok.mp h
    obtain rfl : (i.id, x) :: rs' = rs := by simpa using h
    rw [List.map_cons, List.map_cons, ih hrs' fun j hj => hphi j (List.mem_cons_of_mem _ hj)]

/-- So does reading all of them. -/
theorem phiResults_cases (env : Env) (cameFrom : Option BlockId) (l : List Instruction) :
    (∃ rs, phiResults env cameFrom l = .ok rs) ∨
      ∃ p, phiResults env cameFrom l = .error (.panic p) := by
  induction l with
  | nil => exact .inl ⟨[], rfl⟩
  | cons i l ih =>
    cases hk : i.kind.isPhi with
    | false => rwa [phiResults_cons_other _ _ hk]
    | true =>
      obtain ⟨incoming, hi⟩ := InstKind.isPhi_iff.mp hk
      rw [phiResults_cons_phi _ _ hi]
      rcases phiValue_cases env cameFrom incoming with ⟨x, hx⟩ | ⟨p, hp⟩
      · rcases ih with ⟨rs, hrs⟩ | ⟨q, hq⟩
        · exact .inl ⟨(i.id, x) :: rs, by rw [hx, hrs]; rfl⟩
        · exact .inr ⟨q, by rw [hx, hq]; rfl⟩
      · exact .inr ⟨p, by rw [hp]; rfl⟩

/-- What is read for a phi is among the values read. -/
theorem phiResults_mem {env : Env} {cameFrom : Option BlockId} {l : List Instruction}
    {rs : List (ValueId × RtValue)} (h : phiResults env cameFrom l = .ok rs) {i : Instruction}
    (hi : i ∈ l) {incoming : List (BlockId × ValueId)} (hk : i.kind = .phi incoming) :
    ∃ x, phiValue env cameFrom incoming = .ok x ∧ (i.id, x) ∈ rs := by
  induction l generalizing rs with
  | nil => cases hi
  | cons j l ih =>
    cases hj : j.kind.isPhi with
    | false =>
      rw [phiResults_cons_other _ _ hj] at h
      obtain rfl | hi := List.mem_cons.mp hi
      · simp [hk, InstKind.isPhi] at hj
      · exact ih h hi
    | true =>
      obtain ⟨w, hw⟩ := InstKind.isPhi_iff.mp hj
      rw [phiResults_cons_phi _ _ hw] at h
      obtain ⟨x, hx, h⟩ := ExceptLemmas.bind_eq_ok.mp h
      obtain ⟨rs', hrs', h⟩ := ExceptLemmas.bind_eq_ok.mp h
      obtain rfl : (j.id, x) :: rs' = rs := by simpa using h
      obtain rfl | hi := List.mem_cons.mp hi
      · obtain rfl : w = incoming := by simpa [hw] using hk
        exact ⟨x, hx, List.mem_cons_self⟩
      · obtain ⟨y, hy, hmem⟩ := ih hrs' hi
        exact ⟨y, hy, List.mem_cons_of_mem _ hmem⟩

/-- Reading the phis in another order reads the same values, or panics as well. -/
theorem phiResults_perm (env : Env) (cameFrom : Option BlockId) {l l' : List Instruction}
    (h : l.Perm l') :
    Alike List.Perm (phiResults env cameFrom l) (phiResults env cameFrom l') := by
  induction h with
  | nil => exact .ok .nil
  | @cons i l l' _ ih =>
    cases hk : i.kind.isPhi with
    | false => rwa [phiResults_cons_other _ _ hk, phiResults_cons_other _ _ hk]
    | true =>
      obtain ⟨incoming, hi⟩ := InstKind.isPhi_iff.mp hk
      rw [phiResults_cons_phi _ _ hi, phiResults_cons_phi _ _ hi]
      refine (Alike.refl (R := Eq) (fun _ => rfl) _).bind ?_
      rintro x _ - rfl
      exact ih.bind fun rs rs' _ hrs => .ok (hrs.cons _)
  | swap i j l =>
    cases hi : i.kind.isPhi with
    | false =>
      have hij : phiResults env cameFrom (j :: i :: l) = phiResults env cameFrom (i :: j :: l) := by
        cases hj : j.kind.isPhi with
        | false => simp only [phiResults_cons_other _ _ hi, phiResults_cons_other _ _ hj]
        | true =>
          obtain ⟨w, hw⟩ := InstKind.isPhi_iff.mp hj
          rw [phiResults_cons_phi _ _ hw]
          simp only [phiResults_cons_other _ _ hi, phiResults_cons_phi _ _ hw]
      rw [hij]
      exact Alike.refl List.Perm.refl _
    | true =>
      obtain ⟨v, hv⟩ := InstKind.isPhi_iff.mp hi
      cases hj : j.kind.isPhi with
      | false =>
        simp only [phiResults_cons_other _ _ hj, phiResults_cons_phi _ _ hv]
        exact Alike.refl List.Perm.refl _
      | true =>
        -- two phis: each of the three reads panics or not, whichever comes first
        obtain ⟨w, hw⟩ := InstKind.isPhi_iff.mp hj
        simp only [phiResults_cons_phi _ _ hv, phiResults_cons_phi _ _ hw]
        rcases phiValue_cases env cameFrom v with ⟨x, hx⟩ | ⟨p, hx⟩ <;>
          rcases phiValue_cases env cameFrom w with ⟨y, hy⟩ | ⟨q, hy⟩ <;>
            rcases phiResults_cases env cameFrom l with ⟨rs, hrs⟩ | ⟨r, hrs⟩ <;>
              simp only [hx, hy, hrs, ExceptLemmas.ok_bind, ExceptLemmas.error_bind,
                ExceptLemmas.pure_eq_ok]
        · exact .ok (.swap _ _ _)
        all_goals exact .panic _ _
  | trans _ _ ih ih' => exact ih.trans ih' fun _ _ _ h h' => h.trans h'

/-- **Entering a block.** When the phis of a block have been read, binding them gives every phi
the value it reads in the environment at the end of the predecessor, whatever the other phis of
the block are, and leaves every other value alone. -/
theorem phis_at_once {env : Env} {cameFrom : Option BlockId} {l : List Instruction}
    (hnd : ((l.filter (·.kind.isPhi)).map (·.id)).Nodup) {rs : List (ValueId × RtValue)}
    (h : phiResults env cameFrom l = .ok rs) :
    (∀ i ∈ l, ∀ incoming, i.kind = .phi incoming →
        (env.insertAll rs).get i.id = phiValue env cameFrom incoming) ∧
      ∀ v, (∀ i ∈ l, i.kind.isPhi = true → i.id ≠ v) → env.insertAll rs v = env v := by
  have hids := phiResults_ids h
  have hrs : (rs.map Prod.fst).Nodup := hids ▸ hnd
  constructor
  · intro i hi incoming hk
    obtain ⟨x, hx, hmem⟩ := phiResults_mem h hi hk
    rw [hx]
    exact Env.get_eq_ok.mpr ((Env.insertAll_eq_some_iff hrs).mpr (.inl hmem))
  · intro v hv
    have hno : v ∉ rs.map Prod.fst := by
      rw [hids]
      intro hmem
      obtain ⟨i, hi, rfl⟩ := List.mem_map.mp hmem
      exact hv i (List.mem_filter.mp hi).1 (List.mem_filter.mp hi).2 rfl
    apply Option.ext
    intro x
    rw [Env.insertAll_eq_some_iff hrs]
    constructor
    · rintro (hmem | ⟨-, hx⟩)
      · exact absurd (List.mem_map_of_mem hmem) hno
      · exact hx
    · exact fun hx => .inr ⟨hno, hx⟩

/-! ### Executing a block -/

/-- A block is executed as if its phis were not there. -/
theorem foldlM_execInst_filter (M : Module)
    (callee : Function → List RtValue → InterpM (Option RtValue)) (l : List Instruction)
    (env : Env) :
    (l.filter (!·.kind.isPhi)).foldlM (execInst M callee) env =
      l.foldlM (execInst M callee) env := by
  induction l generalizing env with
  | nil => rfl
  | cons i l ih =>
    cases hk : i.kind.isPhi with
    | false =>
      rw [List.filter_cons_of_pos (by simp [hk]), List.foldlM_cons, List.foldlM_cons]
      exact congrArg _ (funext fun env => ih env)
    | true =>
      obtain ⟨incoming, hi⟩ := InstKind.isPhi_iff.mp hk
      have hskip : execInst M callee env i = .ok env := by rw [execInst, hi]
      rw [List.filter_cons_of_neg (by simp [hk]), List.foldlM_cons, hskip, ih]
      rfl

/-- An instruction does the same in the rearranged module if nested calls do. -/
theorem execInst_rearranged {M M' : Module} (hM : M.Rearranged M')
    {callee callee' : Function → List RtValue → InterpM (Option RtValue)}
    (hcall : ∀ f f', f ∈ M.functions → f.Rearranged f' → ∀ args,
      Alike Eq (callee f args) (callee' f' args)) (env : Env) (i : Instruction) :
    Alike Eq (execInst M callee env i) (execInst M' callee' env i) := by
  cases hk : i.kind with
  | call name args =>
    simp only [execInst, hk]
    obtain ⟨hg, hg'⟩ | ⟨g, g', hg, hg', hgg⟩ := hM.function name
    · rw [hg, hg']
      exact .err _
    · rw [hg, hg']
      refine (Alike.refl (R := Eq) (fun _ => rfl) _).bind ?_
      rintro xs _ - rfl
      refine (hcall g g' (Module.function_some hg).1 hgg xs).bind ?_
      rintro r _ - rfl
      exact Alike.refl (fun _ => rfl) _
  | _ =>
    simp only [execInst, hk]
    exact Alike.refl (fun _ => rfl) _

/-- A call checks the same argument count, and enters the same block with the same environment. -/
theorem callWith_rearranged {M : Module}
    {enter enter' : Function → BlockId → Option BlockId → Env → InterpM (Option RtValue)}
    (henter : ∀ {f f'}, f ∈ M.functions → f.Rearranged f' → ∀ b cameFrom env,
      Alike Eq (enter f b cameFrom env) (enter' f' b cameFrom env))
    {f f' : Function} (hf : f ∈ M.functions) (hff : f.Rearranged f') (args : List RtValue) :
    Alike Eq (callWith enter f args) (callWith enter' f' args) := by
  simp only [callWith, hff.params, hff.name, hff.entry]
  split
  · exact .err _
  · exact henter hf hff _ _ _

/-- The phis of a block are among the instructions of the function, in their order. -/
theorem phis_sublist {f : Function} {c : BasicBlock} (hc : c ∈ f.blocks) :
    (c.instructions.filter (·.kind.isPhi)).Sublist f.insts :=
  List.filter_sublist.trans (List.sublist_flatten_of_mem (List.mem_map_of_mem hc))

/-- The step of the simulation: from the head of one block, with the same environment, the
rearranged function runs as the original does. -/
theorem loop_rearranged {M M' : Module} (hM : M.Rearranged M')
    (hnd : ∀ f ∈ M.functions, (f.insts.map (·.id)).Nodup) (n : ℕ) {f f' : Function}
    (hf : f ∈ M.functions) (hff : f.Rearranged f') (b : BlockId) (cameFrom : Option BlockId)
    (env : Env) : Alike Eq (loop M n f b cameFrom env) (loop M' n f' b cameFrom env) := by
  induction n generalizing f f' b cameFrom env with
  | zero => exact .outOfFuel
  | succ n ih =>
    have hcall : ∀ g g', g ∈ M.functions → g.Rearranged g' → ∀ args,
        Alike Eq (callWith (loop M n) g args) (callWith (loop M' n) g' args) :=
      fun g g' hg hgg => callWith_rearranged ih hg hgg
    rw [loop, loop]
    refine Alike.bind (R := fun c c' => c ∈ f.blocks ∧ c.Rearranged c') ?_ ?_
    · obtain ⟨hc, hc'⟩ | ⟨c, c', hc, hc', hcc⟩ := hff.block b
      · rw [hc, hc']
        exact .panic _ _
      · rw [hc, hc']
        exact .ok ⟨(Function.block_some hc).1, hcc⟩
    · rintro c c' - ⟨hc, hcc⟩
      -- the phis: the same bindings in some order, and the order does not matter
      have hphis := phiResults_perm env cameFrom hcc.phis
      rw [phiResults_filter, phiResults_filter] at hphis
      refine hphis.bind fun rs rs' hrs hperm => ?_
      have hids : (rs.map Prod.fst).Nodup := by
        rw [phiResults_ids hrs]
        exact ((phis_sublist hc).map _).nodup (hnd f hf)
      rw [← Env.insertAll_perm hperm hids]
      -- the other instructions: the same list
      rw [← foldlM_execInst_filter M, ← foldlM_execInst_filter M', ← hcc.rest, hcc.terminator]
      refine (Alike.foldlM (fun env i _ => execInst_rearranged hM hcall env i) _).bind ?_
      rintro env' _ - rfl
      refine (Alike.refl (R := Eq) (fun _ => rfl) _).bind ?_
      rintro term _ - rfl
      refine (Alike.refl (R := Eq) (fun _ => rfl) _).bind ?_
      rintro exit _ - rfl
      cases exit with
      | goto target => exact ih hf hff _ _ _
      | done v => exact .ok rfl

/-- **Phis are resolved simultaneously.** In a module whose value ids are distinct within every
function, reordering the phis of any blocks among themselves and moving them between the other
instructions changes no run: with any fuel, and so also without an end, the run of the
rearranged module ends as the run of the original does. -/
theorem run_rearranged (M M' : Module) (hnd : ∀ f ∈ M.functions, (f.insts.map (·.id)).Nodup)
    (hM : M.Rearranged M') (n : ℕ) (entry : String) (args : List RtValue) :
    Alike Eq (run M n entry args) (run M' n entry args) := by
  obtain ⟨hf, hf'⟩ | ⟨f, f', hf, hf', hff⟩ := hM.function entry
  · rw [run, run, hf, hf']
    exact .err _
  · rw [run, run, hf, hf']
    exact callWith_rearranged (fun hg hgg => loop_rearranged hM hnd n hg hgg)
      (Module.function_some hf).1 hff args

/-- A loop whose header has the given instructions. -/
def loopWithHeader (header : List Instruction) : Function where
  name := "f"
  params := []
  retTy := some .i64
  entry := 0
  blocks :=
    [⟨0, [⟨0, .i64, .constI64 0⟩], some (.jump 1)⟩,
     ⟨1, header, some (.branch 2 2 3)⟩,
     ⟨2, [⟨3, .i64, .constI64 1⟩, ⟨4, .i64, .bin .add 10 3⟩, ⟨5, .i64, .bin .add 12 3⟩],
      some (.jump 1)⟩,
     ⟨3, [], some (.ret (some 11))⟩]

/-- The phi 11 takes over the back edge what the phi 10 was in the iteration before. -/
def phisFirst : Module :=
  ⟨[loopWithHeader
    [⟨10, .i64, .phi [(0, 0), (2, 4)]⟩, ⟨11, .i64, .phi [(0, 0), (2, 10)]⟩,
     ⟨12, .i64, .phi [(0, 0), (2, 5)]⟩, ⟨1, .i64, .constI64 2⟩, ⟨2, .bool, .bin .cmpLt 12 1⟩]]⟩

/-- The same loop with the phis in another order, two of them behind other instructions. -/
def phisMoved : Module :=
  ⟨[loopWithHeader
    [⟨12, .i64, .phi [(0, 0), (2, 5)]⟩, ⟨1, .i64, .constI64 2⟩,
     ⟨11, .i64, .phi [(0, 0), (2, 10)]⟩, ⟨2, .bool, .bin .cmpLt 12 1⟩,
     ⟨10, .i64, .phi [(0, 0), (2, 4)]⟩]]⟩

theorem phisMoved_rearranged : phisFirst.Rearranged phisMoved := by
  have hkeep : ∀ b : BasicBlock, b.Rearranged b := fun b => ⟨rfl, rfl, .rfl, rfl⟩
  refine .cons ⟨rfl, rfl, rfl, rfl, ?_⟩ .nil
  exact .cons (hkeep _) (.cons ⟨rfl, rfl, by decide, rfl⟩ (.cons (hkeep _) (.cons (hkeep _) .nil)))

theorem run_rearranged_phisMoved :
    run phisFirst 7 "f" [] = .ok (some (.i64 1)) ∧
      Alike Eq (run phisFirst 7 "f" []) (run phisMoved 7 "f" []) :=
  ⟨by decide, run_rearranged phisFirst phisMoved (by decide) phisMoved_rearranged 7 "f" []⟩

end Ir
end Chakobsa
