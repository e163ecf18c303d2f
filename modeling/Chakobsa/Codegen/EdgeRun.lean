import Chakobsa.Codegen.Simulation

/-!
# Leaving a block on the machine

The code behind the instructions of a block makes the copies for the phis of the block control goes
to, or moves the value that is returned to the result register. Run from the end of a block it takes
the machine to the head of the next one, where the phis have their values already (`jump_leads`,
`branch_leads`), or back to the caller (`ret_leads`).

The copies for the else-edge of a branch come before the test and are also made when the then-edge is
taken. Both are right here because the targets of a branch have no phis.
-/

namespace Chakobsa
namespace Codegen

open Ir ExceptLemmas

/-! ### Plain code -/

section Plain

variable {m : MemorySize} {σ σ' : Cells} {i : Instr} {code : List Instr}

/-- A plain instruction writes to no address but its own. -/
theorem Plain.exec_mem (h : Plain i) (hz : σ.Zero) (he : i.exec m σ = .ok σ') {a : ℤ}
    (ha : i.absolute ≠ some a) : σ'.mem a = σ.mem a := by
  have hset : ∀ {r : ℕ} {v : I64}, .ok (σ.setReg r v) = (.ok σ' : Except Trap Cells) →
      σ'.mem a = σ.mem a := fun heq => by rw [← Except.ok.inj heq]; rfl
  cases h with
  | store hr addr =>
    simp only [Instr.exec, hz.address] at he
    split at he
    · rw [← Except.ok.inj he]
      refine Cells.setMem_of_ne fun hadr => ha ?_
      rw [hadr]
      rfl
    · cases he
  | load | restore =>
    simp only [Instr.exec] at he
    split at he
    · exact hset he
    · cases he
  | const | mov | neg | not => exact hset he
  | bin op hr ha hb =>
    cases op with
    | div | mod =>
      simp only [Instr.exec, binopOpcode] at he
      split at he
      · cases he
      · exact hset he
    | _ => exact hset he

/-- Plain code changes the registers that code computes into, and the memory at its addresses. -/
theorem plain_execAll (h : ∀ i ∈ code, Plain i) (hz : σ.Zero) (he : execAll m code σ = .ok σ') :
    (∀ r, ¬ Writable r → σ'.regs r = σ.regs r) ∧ ∀ a ∉ absolutes code, σ'.mem a = σ.mem a := by
  induction code generalizing σ with
  | nil =>
    obtain rfl : σ = σ' := Except.ok.inj he
    exact ⟨fun _ _ => rfl, fun _ _ => rfl⟩
  | cons i code ih =>
    obtain ⟨τ, hi, hrest⟩ := execAll_cons_ok he
    have hplain := h i List.mem_cons_self
    have hregs : ∀ r, ¬ Writable r → τ.regs r = σ.regs r := fun r hr => hplain.exec_regs hi hr
    have hzτ : τ.Zero := (hregs ZERO_REG not_writable_zero).trans hz
    obtain ⟨hr, hm⟩ := ih (fun j hj => h j (List.mem_cons_of_mem _ hj)) hzτ hrest
    refine ⟨fun r hw => (hr r hw).trans (hregs r hw), fun a ha => ?_⟩
    rw [absolutes_cons, List.mem_append, not_or] at ha
    exact (hm a ha.2).trans (hplain.exec_mem hz hi fun habs => ha.1 (by rw [habs]; exact List.mem_cons_self))

end Plain

/-! ### Edges -/

section Edge

variable {M : Module} {c : CompiledModule} {lowered : List (String × Lowered)} {P : Program}
  {m : MemorySize} {k j : ℕ} {f : Function} {defs : Defs} {l : Lowered} {liveness : Liveness}
  {b : BasicBlock} {ps : List PendingBlock} {st : LowerState} {temp temp' : Temps} {env : Env}
  {b₀ : ℕ} {calls : List ℕ} {s : State} {target : BlockId} {copies : List Instr}

/-- Code of a compiled function uses addresses in the function's region. -/
theorem CompiledAs.absolute (hf : CompiledAs M lowered k f defs l liveness)
    (hload : Loaded M c lowered P m) {p : PendingBlock} (hp : p ∈ l.pending) {a : ℤ}
    (ha : a ∈ absolutes p.instructions) : InRegion k a := by
  obtain ⟨f', hf', -, hc⟩ := lowerAll_mem hload.layout.pass1 hf.position
  obtain rfl : f' = f := Option.some.inj (hf'.symm.trans hf.low.function)
  rw [Nat.zero_add] at hc
  have hslots := compileFunction_slots hc
  obtain ⟨slot', hmem, rfl⟩ := hslots.emitted p hp a ha
  have hfits : l.alloc.spills.length ≤ REGION_SLOTS :=
    hload.compilable.spills.fits hf' (compileFunction_ok hc).1
  obtain ⟨hlow, hhigh⟩ := hslots.region (fun _ => hfits) hmem
  exact ⟨Int.ofNat_le.mpr hlow, by exact_mod_cast hhigh⟩

theorem CompiledBlock.absolute (hB : CompiledBlock M k f l liveness j b ps)
    (hf : CompiledAs M lowered k f defs l liveness) (hload : Loaded M c lowered P m)
    {p : PendingBlock} (hp : p ∈ ps) {a : ℤ} (ha : a ∈ absolutes p.instructions) : InRegion k a :=
  hf.absolute hload (List.mem_flatMap.mpr ⟨_, List.mem_of_getElem? hB.position, hp⟩) ha

/-- The scratch registers hold no value of an activation. -/
theorem Activation.scratched {alloc : Allocation} {vs : ValueId → Prop} (hbelow : alloc.Below)
    (hact : Activation alloc vs env b₀ calls s) {τ : Cells} (hs : Scratched s.cells τ) (n : ℕ) :
    Activation alloc vs env b₀ calls (s.behind τ n) := by
  refine ⟨hs.zero hact.zero, ?_, hact.calls, fun v hv x hx => ?_⟩
  · show (τ.regs STACK_PTR).toInt = b₀
    rw [hs.regs STACK_PTR (by decide) (by decide)]
    exact hact.pointer
  · exact (hs.read (hbelow.loc v)).trans (hact.placed v hv x hx)

/-- **An edge.** The copies give every phi of the target the value it has for this edge, and leave
what else is live there alone. -/
theorem edge_run (hload : Loaded M c lowered P m) (hf : CompiledAs M lowered k f defs l liveness)
    (hb : b ∈ f.blocks) (hs : target ∈ b.successors)
    (he : EdgeCode f l.alloc ((k + 1) * FUNCTION_REGION_BYTES) temp b.id target copies temp')
    (htemp : k * FUNCTION_REGION_BYTES + l.alloc.spills.length * 8 ≤ temp.next)
    (hin : ∀ a ∈ absolutes copies, InRegion k a)
    (hact : Activation l.alloc (Tracked liveness b b.instructions) env b₀ calls s) :
    ∃ blk τ, f.block target = some blk ∧ execAll m copies s.cells = .ok τ ∧
      Kept M k b₀ s.cells τ ∧ ∀ rs, phiResults env (some b.id) blk.instructions = .ok rs →
        ∀ n t, Activation l.alloc (Tracked liveness blk []) (env.insertAll rs) b₀ calls
          ((s.behind τ n).goto t) := by
  have hmem : (k + 1) * FUNCTION_REGION_BYTES ≤ m.bytes := (hload.region hf.lt).trans hload.memory
  -- the copies run, and write nothing but registers and cells of the function
  obtain ⟨blk, τ, hblk, hτ, hcopied⟩ := hf.prepared.copied hb hs he htemp hmem hact.zero
  obtain ⟨hregs, hcells⟩ := plain_execAll (plain_edge hf.prepared.below he) hact.zero hτ
  refine ⟨blk, τ, hblk, hτ, fun a ha => hcells a fun h => ha (.own hf.lt (hin a h)), ?_⟩
  obtain ⟨hblkmem, hid⟩ := Function.block_some hblk
  subst hid
  intro rs hrs n t
  -- the ids of the phis are distinct, since the module is valid
  have hids := phiResults_ids hrs
  have hnd : (rs.map Prod.fst).Nodup := by
    rw [hids]
    exact ((phis_sublist hblkmem).map _).nodup (collectDefinitions_ok hf.prepared.valid.collect).1
  refine ⟨hcopied.zero, ?_, hact.calls, fun v hv x hx => ?_⟩
  · show (τ.regs STACK_PTR).toInt = b₀
    rw [hregs STACK_PTR not_writable_ptr]
    exact hact.pointer
  show τ.read (l.alloc.loc v) = word x
  rcases (Env.insertAll_eq_some_iff hnd).mp hx with hmemrs | ⟨hnot, hx⟩
  · -- a phi has the value of its operand at the end of the block
    have hphi : v ∈ (blk.instructions.filter (·.kind.isPhi)).map (·.id) :=
      hids ▸ List.mem_map_of_mem hmemrs
    obtain ⟨i, hi, rfl⟩ := List.mem_map.mp hphi
    rw [List.mem_filter] at hi
    obtain ⟨incoming, hk⟩ := InstKind.isPhi_iff.mp hi.2
    obtain ⟨y, hy, hyrs⟩ := phiResults_mem hrs hi.1 hk
    obtain rfl : x = y :=
      Option.some.inj (hx.symm.trans ((Env.insertAll_eq_some_iff hnd).mpr (.inl hyrs)))
    simp only [phiValue, bind_eq_ok, Comp.expect_eq_ok, Option.some.injEq] at hy
    obtain ⟨_, rfl, w, hw, hget⟩ := hy
    have hpair : (w.2, i.id) ∈ phiPairs b.id blk.instructions :=
      mem_phiPairs.mpr ⟨i, hi.1, incoming, hk, rfl, by rw [hw]; rfl⟩
    rw [hcopied.phis _ hpair]
    exact hact.placed w.2 (hf.prepared.tracked_out hb (hf.prepared.source_live hb hs hblk hpair)) x
      (Env.get_eq_ok.mp hget)
  · -- what else is live into the target is live out of the block
    have hlive : v ∈ liveness.liveIn blk.id := by
      rcases hv with hv | ⟨i, hi, hphi, rfl⟩ | ⟨i, hi, -⟩
      · exact hv
      · refine absurd ?_ hnot
        rw [hids]
        exact List.mem_map_of_mem (List.mem_filter.mpr ⟨hi, hphi⟩)
      · cases hi
    have hnophi : v ∉ (phiPairs b.id blk.instructions).map Prod.snd := fun h => by
      obtain ⟨p, hp, rfl⟩ := List.mem_map.mp h
      obtain ⟨i, hi, incoming, hk, hidp, -⟩ := mem_phiPairs.mp hp
      refine hnot ?_
      rw [hids, ← hidp]
      exact List.mem_map_of_mem (List.mem_filter.mpr ⟨hi, InstKind.isPhi_iff.mpr ⟨_, hk⟩⟩)
    obtain ⟨hloc, hapart⟩ := hf.prepared.apart_phis hblkmem hlive hnophi
    rw [hcopied.others v hloc hapart]
    exact hact.placed v (hf.prepared.tracked_out hb (hf.prepared.liveIn_liveOut hb hs hlive)) x hx

/-- The edge to a block without phis has no code. -/
theorem EdgeCode.nil_of_no_phi
    (he : EdgeCode f l.alloc ((k + 1) * FUNCTION_REGION_BYTES) temp b.id target copies temp')
    (hphi : ¬ HasPhi f target) : copies = [] ∧ temp' = temp := by
  obtain ⟨blk, hblk, rfl, rfl, -⟩ := he
  have hnil : phiMoveList l.alloc.loc b.id blk.instructions = [] := by
    refine List.filterMap_eq_nil_iff.mpr fun i hi => ?_
    cases hk : i.kind with
    | phi incoming =>
      exact absurd ⟨blk, hblk, i, hi, InstKind.isPhi_iff.mpr ⟨incoming, hk⟩⟩ hphi
    | _ => rfl
  rw [hnil]
  exact ⟨rfl, rfl⟩

end Edge

/-! ### Terminators -/

/-- The head of the block with the given id, entered from `from'`. -/
def AtTarget (M : Module) (k : ℕ) (f : Function) (alloc : Allocation) (liveness : Liveness)
    (from' target : BlockId) (b₀ : ℕ) (calls : List ℕ) (env : Env) (s : State) : Prop :=
  ∃ j blk, f.blocks[j]? = some blk ∧ blk.id = target ∧
    AtHead M k j alloc liveness blk (some from') b₀ calls env s

section Terminators

variable {M : Module} {c : CompiledModule} {lowered : List (String × Lowered)} {P : Program}
  {m : MemorySize} {k j : ℕ} {f : Function} {defs : Defs} {l : Lowered} {liveness : Liveness}
  {b : BasicBlock} {ps : List PendingBlock} {st : LowerState} {temp temp' : Temps} {env : Env}
  {b₀ r : ℕ} {calls : List ℕ} {s : State} {target : BlockId} {copies : List Instr}

/-- The machine at the head of the target, the copies made. -/
theorem atTarget (hload : Loaded M c lowered P m) (hf : CompiledAs M lowered k f defs l liveness)
    (hb : b ∈ f.blocks) (hs : target ∈ b.successors)
    (he : EdgeCode f l.alloc ((k + 1) * FUNCTION_REGION_BYTES) temp b.id target copies temp')
    (htemp : k * FUNCTION_REGION_BYTES + l.alloc.spills.length * 8 ≤ temp.next)
    (hin : ∀ a ∈ absolutes copies, InRegion k a)
    (hact : Activation l.alloc (Tracked liveness b b.instructions) env b₀ calls s) {j' : ℕ}
    {blk : BasicBlock} (hblk : f.blocks[j']? = some blk) (hid : blk.id = target) :
    ∃ τ, execAll m copies s.cells = .ok τ ∧ Kept M k b₀ s.cells τ ∧ ∀ n,
      AtTarget M k f l.alloc liveness b.id target b₀ calls env ((s.behind τ n).goto (start M k j')) := by
  obtain ⟨blk', τ, hblk', hτ, hkept, hphis⟩ := edge_run hload hf hb hs he htemp hin hact
  obtain rfl : blk' = blk := by
    have := Function.block_of_mem hf.prepared.valid.nodup (List.mem_of_getElem? hblk)
    rw [hid] at this
    exact Option.some.inj (hblk'.symm.trans this)
  exact ⟨τ, hτ, hkept, fun n => ⟨j', blk', hblk, hid, rfl, rfl, fun rs hrs => hphis rs hrs n _⟩⟩

/-- **A jump** makes the copies and goes on to its target. -/
theorem jump_leads (hload : Loaded M c lowered P m) (hf : CompiledAs M lowered k f defs l liveness)
    (hB : CompiledBlock M k f l liveness j b ps) (hterm : b.terminator = some (.jump target))
    (he : EdgeCode f l.alloc ((k + 1) * FUNCTION_REGION_BYTES) temp b.id target copies temp')
    (htemp : k * FUNCTION_REGION_BYTES + l.alloc.spills.length * 8 ≤ temp.next)
    (hp : ps[st.pending.length]? = some ⟨st.cur ++ copies, .jmp target⟩) (hpoint : AtPoint M k j st s)
    (hact : Activation l.alloc (Tracked liveness b b.instructions) env b₀ calls s) :
    ∃ s', LeadsOn (P.next m) s s' ∧ Kept M k b₀ s.cells s'.cells ∧
      AtTarget M k f l.alloc liveness b.id target b₀ calls env s' := by
  obtain ⟨t, hat, hres, hplain⟩ := hB.at hf hload hp rfl hpoint.block hpoint.index
  have hs : target ∈ b.successors := by simp [BasicBlock.successors, hterm, Terminator.successors]
  have hin : ∀ a ∈ absolutes copies, InRegion k a := fun a ha =>
    hB.absolute hf hload (List.mem_of_getElem? hp) (by
      rw [absolutes_append]
      exact List.mem_append_right _ ha)
  rw [← List.append_nil copies] at hat
  cases hres with
  | jmp hblk =>
    obtain ⟨τ, hτ, hkept, htarget⟩ := atTarget hload hf hB.mem hs he htemp hin hact hblk rfl
    exact ⟨_, .tail' (hat.leads hplain hτ) (hat.behind τ).next_jmp, hkept, htarget _⟩

/-- **A branch** tests its condition and goes on to the target the interpreter goes on to. -/
theorem branch_leads (hload : Loaded M c lowered P m) (hf : CompiledAs M lowered k f defs l liveness)
    (hB : CompiledBlock M k f l liveness j b ps) {cond : ValueId} {thenBlock elseBlock : BlockId}
    (hterm : b.terminator = some (.branch cond thenBlock elseBlock))
    (hlocated : l.alloc.Located cond) {thenCopies elseCopies : List Instr} {temp₁ temp₂ : Temps}
    (helse : EdgeCode f l.alloc ((k + 1) * FUNCTION_REGION_BYTES) temp b.id elseBlock elseCopies temp₁)
    (hthen : EdgeCode f l.alloc ((k + 1) * FUNCTION_REGION_BYTES) temp₁ b.id thenBlock thenCopies temp₂)
    (htemp : k * FUNCTION_REGION_BYTES + l.alloc.spills.length * 8 ≤ temp.next)
    (hp : ps[st.pending.length]? = some ⟨st.cur ++ (l.alloc.loc cond).loadCode SCRATCH_1 ++ elseCopies,
      .jz ((l.alloc.loc cond).regOr SCRATCH_1) elseBlock⟩)
    (hp₁ : ps[st.pending.length + 1]? = some ⟨thenCopies, .jmp thenBlock⟩)
    (hpoint : AtPoint M k j st s)
    (hact : Activation l.alloc (Tracked liveness b b.instructions) env b₀ calls s) {bit : Bool}
    (hbit : env cond = some (.bool bit)) :
    ∃ s', LeadsOn (P.next m) s s' ∧ Kept M k b₀ s.cells s'.cells ∧
      AtTarget M k f l.alloc liveness b.id (if bit then thenBlock else elseBlock) b₀ calls env s' := by
  obtain ⟨hnothen, hnoelse⟩ :=
    hload.compilable.split f hf.mem b hB.mem cond thenBlock elseBlock hterm
  obtain ⟨rfl, rfl⟩ := helse.nil_of_no_phi hnoelse
  obtain ⟨rfl, rfl⟩ := hthen.nil_of_no_phi hnothen
  have hsucc : ∀ target, target = thenBlock ∨ target = elseBlock → target ∈ b.successors := by
    intro target h
    simpa [BasicBlock.successors, hterm, Terminator.successors] using h
  have hnil : ∀ a ∈ absolutes [], InRegion k a := fun a ha => by cases ha
  -- the condition, in the register of the test
  have hload' : execAll m ((l.alloc.loc cond).loadCode SCRATCH_1) s.cells =
      .ok (s.cells.loaded SCRATCH_1 (l.alloc.loc cond)) :=
    loadCode_exec hact.zero (hf.holds hload hlocated) SCRATCH_1
  have hscratched : Scratched s.cells (s.cells.loaded SCRATCH_1 (l.alloc.loc cond)) :=
    .loaded (.inl rfl) _
  have hact₁ := hact.scratched hf.prepared.below hscratched
    ((l.alloc.loc cond).loadCode SCRATCH_1).length
  have hvalue : (s.cells.loaded SCRATCH_1 (l.alloc.loc cond)).regs
      ((l.alloc.loc cond).regOr SCRATCH_1) = flag bit := by
    rw [loaded_regOr, hact.placed cond (hf.prepared.tracked_term hB.mem (by
      rw [hterm]
      exact List.mem_singleton_self cond)) _ hbit]
    rfl
  generalize s.cells.loaded SCRATCH_1 (l.alloc.loc cond) = τ at *
  obtain ⟨t, hat, hres, hplain⟩ := hB.at hf hload hp (by rw [List.append_nil]) hpoint.block hpoint.index
  rw [← List.append_nil ((l.alloc.loc cond).loadCode SCRATCH_1)] at hat
  have hleads := hat.leads hplain hload'
  have hkeptτ : Kept M k b₀ s.cells τ := fun a _ => congrFun hscratched.mem a
  cases hres with
  | jz helseblk =>
    have hjz := (hat.behind τ).next_jz (m := m)
    rw [show ((s.behind τ ((l.alloc.loc cond).loadCode SCRATCH_1).length).cells.regs
      ((l.alloc.loc cond).regOr SCRATCH_1)) = flag bit from hvalue] at hjz
    cases bit with
    | false =>
      -- the condition is zero
      obtain ⟨τ', hτ', hkept, htarget⟩ := atTarget hload hf hB.mem (hsucc _ (.inr rfl)) helse htemp
        hnil hact₁ helseblk rfl
      obtain rfl : τ = τ' := Except.ok.inj hτ'
      rw [if_pos ((flag_eq_zero false).mpr rfl)] at hjz
      exact ⟨_, .tail' hleads hjz, hkeptτ, htarget 0⟩
    | true =>
      -- the block behind, which jumps to the then-target
      rw [if_neg (fun h => Bool.noConfusion ((flag_eq_zero true).mp h))] at hjz
      obtain ⟨t₁, hat₁, hres₁, -⟩ := hB.at (s := (s.behind τ
        ((l.alloc.loc cond).loadCode SCRATCH_1).length).goto (s.block + 1)) hf hload hp₁
        (List.nil_append []).symm (by
          show s.block + 1 = _
          rw [hpoint.block, Nat.add_assoc]) rfl
      cases hres₁ with
      | jmp hthenblk =>
        obtain ⟨τ', hτ', hkept, htarget⟩ := atTarget hload hf hB.mem (hsucc _ (.inl rfl)) hthen htemp
          hnil hact₁ hthenblk rfl
        obtain rfl : τ = τ' := Except.ok.inj hτ'
        exact ⟨_, .tail (.tail' hleads hjz) hat₁.next_jmp, hkeptτ, htarget 0⟩

/-- **A return** goes back to the caller, with the value in the result register. -/
theorem ret_leads (hload : Loaded M c lowered P m) (hf : CompiledAs M lowered k f defs l liveness)
    (hB : CompiledBlock M k f l liveness j b ps) {v : ValueId}
    (hterm : b.terminator = some (.ret (some v))) (hlocated : l.alloc.Located v)
    (hp : ps[st.pending.length]? = some ⟨st.cur ++ retCode (l.alloc.loc v), .ret⟩)
    (hpoint : AtPoint M k j st s)
    (hact : Activation l.alloc (Tracked liveness b b.instructions) env b₀ (r :: calls) s)
    {σ : Cells} (hkept : Kept M k b₀ σ s.cells) {x : RtValue} (hx : env v = some x) :
    ∃ s', Leads (P.next m) s s' ∧ Returned M k b₀ r calls σ (some x) s' := by
  obtain ⟨t, hat, hres, hplain⟩ := hB.at hf hload hp rfl hpoint.block hpoint.index
  rw [← List.append_nil (retCode _)] at hat
  obtain ⟨τ, hτ, hret, hmem, hregs⟩ := retCode_exec (m := m) hact.zero (hf.prepared.below.loc v)
    (hf.holds hload hlocated)
  have hplaced := hact.placed v (hf.prepared.tracked_term hB.mem (by
    rw [hterm]
    exact List.mem_singleton_self v)) x hx
  cases hres with
  | ret =>
    have hnext := (hat.behind τ).next_ret (m := m) hact.calls
    refine ⟨_, .tail (hat.leads hplain hτ) hnext, rfl, rfl, rfl, ?_, ?_, ?_, fun y hy => ?_⟩
    · exact (hregs ZERO_REG (by decide) (by decide)).trans hact.zero
    · show (τ.regs STACK_PTR).toInt = b₀
      rw [hregs STACK_PTR (by decide) (by decide)]
      exact hact.pointer
    · exact hkept.trans fun a _ => congrFun hmem a
    · obtain rfl := Option.some.inj hy
      exact hret.trans hplaced

/-- A return without a value. -/
theorem retNone_leads (hload : Loaded M c lowered P m) (hf : CompiledAs M lowered k f defs l liveness)
    (hB : CompiledBlock M k f l liveness j b ps)
    (hp : ps[st.pending.length]? = some ⟨st.cur, .ret⟩) (hpoint : AtPoint M k j st s)
    (hact : Activation l.alloc (Tracked liveness b b.instructions) env b₀ (r :: calls) s)
    {σ : Cells} (hkept : Kept M k b₀ σ s.cells) :
    ∃ s', Leads (P.next m) s s' ∧ Returned M k b₀ r calls σ none s' := by
  obtain ⟨t, hat, hres, -⟩ := hB.at hf hload hp (List.append_nil _).symm hpoint.block hpoint.index
  cases hres with
  | ret =>
    exact ⟨_, .single (hat.next_ret hact.calls), rfl, rfl, rfl, hact.zero, hact.pointer, hkept,
      fun y hy => by cases hy⟩

end Terminators

end Codegen
end Chakobsa
