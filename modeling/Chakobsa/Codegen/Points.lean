import Chakobsa.Codegen.Correctness

/-!
# The machine at the points of a run

The run of the interpreter goes through the points of `Visited`: those of the function that is called
and those of all functions called from it. The machine's run gets to every one of them, in the code
of the same function, with every value the activation still needs where it was allocated
(`Stands.next`, `visited_stands`), unless it runs out of memory before. How many frames it needs for
that is settled by the way to the point, in the interpreter: every machine with as much memory gets
there.

A call, in particular, leaves its caller's values where they are, however deep the calls below it are
nested and whether or not they come back into the same function (`call_preserves`).
-/

namespace Chakobsa
namespace Codegen

open Ir ExceptLemmas

/-- The machine stands at a point of the interpreter's run: at the head of its block, or behind the
instructions that have been executed, with the values of the activation in their places and at most
`d` frames on the stack. -/
inductive Stands (M : Module) (lowered : List (String × Lowered)) (m : MemorySize) (d : ℕ) :
    Point → State → Prop where
  | head {k j : ℕ} {f : Function} {defs : Defs} {l : Lowered} {liveness : Liveness} {b : BasicBlock}
      {cameFrom : Option BlockId} {env : Env} {b₀ r : ℕ} {calls : List ℕ} {s : State}
      (compiled : CompiledAs M lowered k f defs l liveness) (block : f.blocks[j]? = some b)
      (base : STACK_BASE ≤ b₀) (inside : b₀ ≤ m.bytes) (deep : b₀ ≤ STACK_BASE + FRAME_BYTES * d)
      (here : AtHead M k j l.alloc liveness b cameFrom b₀ (r :: calls) env s) :
      Stands M lowered m d ⟨f, b.id, cameFrom, env, none⟩ s
  | within {k j : ℕ} {f : Function} {defs : Defs} {l : Lowered} {liveness : Liveness} {b : BasicBlock}
      {ps : List PendingBlock} {before rest : List Instruction} {start st st' : LowerState}
      {term : Terminator} {temp : Temps} {cameFrom : Option BlockId} {env : Env} {b₀ r : ℕ}
      {calls : List ℕ} {s : State} (compiled : CompiledAs M lowered k f defs l liveness)
      (block : CompiledBlock M k f l liveness j b ps) (base : STACK_BASE ≤ b₀) (inside : b₀ ≤ m.bytes)
      (deep : b₀ ≤ STACK_BASE + FRAME_BYTES * d)
      (split : b.instructions = before ++ rest)
      (opened : start.pending = [] ∧
        k * FUNCTION_REGION_BYTES + l.alloc.spills.length * 8 ≤ start.temp.next)
      (done : before.foldlM (lowerStep f l.alloc liveness ((k + 1) * FUNCTION_REGION_BYTES) b.id)
        start = .ok st)
      (ahead : rest.foldlM (lowerStep f l.alloc liveness ((k + 1) * FUNCTION_REGION_BYTES) b.id)
        st = .ok st')
      (terminated : b.terminator = some term)
      (code : TermCode f l.alloc ((k + 1) * FUNCTION_REGION_BYTES) b.id st' term ps temp)
      (here : AtPoint M k j st s)
      (act : Activation l.alloc (Tracked liveness b before) env b₀ (r :: calls) s) :
      Stands M lowered m d ⟨f, b.id, cameFrom, env, some rest⟩ s

section Points

variable {M : Module} {c : CompiledModule} {lowered : List (String × Lowered)} {P : Program}
  {m : MemorySize} {k d : ℕ} {f : Function} {b₀ r : ℕ} {calls : List ℕ} {s : State}

/-- The staging slots of a state of the lowering are behind the spill slots. -/
theorem temp_le_of_steps {alloc : Allocation} {liveness : Liveness} {high lo : ℕ} {b : BlockId}
    {start st : LowerState} {insts : List Instruction} (hlo : lo ≤ start.temp.next)
    (h : insts.foldlM (lowerStep f alloc liveness high b) start = .ok st) : lo ≤ st.temp.next := by
  rw [lowerSteps_next h]
  exact hlo.trans (Nat.le_add_right _ _)

/-- A block is closed at every call. -/
theorem pending_length {alloc : Allocation} {liveness : Liveness} {high : ℕ} {b : BlockId}
    {start st : LowerState} {insts : List Instruction}
    (h : insts.foldlM (lowerStep f alloc liveness high b) start = .ok st) :
    st.pending.length = start.pending.length + (callExits insts).length := by
  have hexits := congrArg List.length (foldlM_exits h)
  rwa [List.length_append, List.length_map, List.length_map] at hexits

/-- A function that is invoked stands at its first point. -/
theorem Invoked.stands (hload : Loaded M c lowered P m) (hf : M.functions[k]? = some f)
    {xs : List RtValue} (hxs : TypedArgs f xs) (hinv : Invoked M k xs b₀ r calls s)
    (hbase : STACK_BASE ≤ b₀) (hb₀ : b₀ ≤ m.bytes) (hd : b₀ ≤ STACK_BASE + FRAME_BYTES * d) :
    Stands M lowered m d (.start f xs) s := by
  obtain ⟨defs, l, liveness, hfk⟩ := hload.function hf
  obtain ⟨b, hb, hid, hhead⟩ := hinv.atHead hload hfk hxs
  rw [Point.start, ← hid]
  exact .head hfk hb hbase hb₀ hd hhead

/-- A bound on the stack still holds of more frames. -/
theorem FRAME_BYTES_add {n : ℕ} (hd : b₀ ≤ STACK_BASE + FRAME_BYTES * d) :
    b₀ + FRAME_BYTES * n ≤ STACK_BASE + FRAME_BYTES * (d + n) := by
  rw [Nat.mul_add]
  omega

/-- The machine gets to the point, with at most `d` frames on the stack, or its memory ends before
them. -/
def GetsTo (M : Module) (lowered : List (String × Lowered)) (P : Program) (m : MemorySize) (d : ℕ)
    (q : Point) (s : State) : Prop :=
  (∃ s', Leads (P.next m) s s' ∧ Stands M lowered m d q s') ∨
    Finishes (P.next m) s (.trap .outOfBounds) ∧ m.bytes < STACK_BASE + FRAME_BYTES * d

/-- **The machine follows the interpreter** from any point to the next one, or runs out of memory. The
frames it takes for the step are those of the interpreter's step, whatever the machine. -/
theorem Stands.next {q q' : Point} (hq : PointTyped M q) (hstep : Next M q q') :
    ∃ n, ∀ {c : CompiledModule} {lowered : List (String × Lowered)} {P : Program} {m : MemorySize}
      {d : ℕ} {s : State}, Loaded M c lowered P m → Stands M lowered m d q s →
        GetsTo M lowered P m (d + n) q' s := by
  cases hstep with
  | enter hblk hphis =>
    -- the phis have been done on the edge: no step of the machine
    refine ⟨0, fun hload hs => ?_⟩
    cases hs with | head hf hb hbase hb₀ hd hhead =>
    obtain ⟨ps, hB⟩ := hf.block hb
    obtain rfl := Option.some.inj ((Function.block_of_mem hf.prepared.valid.nodup hB.mem).symm.trans hblk)
    obtain ⟨t, t', ht, hlow⟩ := hB.lowered
    obtain ⟨st, term, hsteps, hterm, hcode⟩ := lowerBlock_ok hlow
    exact .inl ⟨_, .refl, .within hf hB hbase hb₀ hd (List.nil_append _).symm ⟨rfl, ht⟩ rfl hsteps hterm
      hcode ⟨hhead.block, hhead.index⟩ (hhead.act _ hphis)⟩
  | @inst _ _ _ _ env' i rest n hexec =>
    -- an instruction, which may be a call that returns: its frames are paid by its fuel
    refine ⟨n + 1, fun {c lowered P m d s} hload hs => ?_⟩
    cases hs with | within hf hB hbase hb₀ hd heq hopen hdone hahead hterm hcode hpoint hact =>
    rw [List.foldlM_cons, bind_eq_ok] at hahead
    obtain ⟨st₁, hlower, hahead⟩ := hahead
    have hexec' : execInst M (callWith (loop M n)) _ i = .ok env' := hexec
    have hmore := FRAME_BYTES_add (n := n + 1) hd
    have hcarried := step_carriedOut hload hf hB heq hlower (temp_le_of_steps hopen.2 hdone)
      (hcode.before.of_steps hahead) hpoint hact (hq.env _ hf.prepared.valid.collect) hbase hb₀
      (callsCarriedOut hload n)
    rw [hexec'] at hcarried
    rcases hcarried with ⟨res, hres, rfl, hout⟩ | ⟨s', hleads, hreached⟩
    · exact .inr ⟨hres, hout.trans_le hmore⟩
    · refine .inl ⟨s', hleads, .within hf hB hbase hb₀ ((Nat.le_add_right _ _).trans hmore)
        (by rw [heq, List.append_cons]) hopen ?_ hahead hterm hcode hreached.point hreached.act⟩
      rw [List.foldlM_append, hdone, ok_bind, List.foldlM_cons, hlower]
      rfl
  | @invoke _ g _ _ _ i rest name args xs hk hg hxs =>
    -- a call that is entered: the machine stands at the head of the callee, a frame deeper
    refine ⟨1, fun {c lowered P m d s} hload hs => ?_⟩
    cases hs with | within hf hB hbase hb₀ hd heq hopen hdone hahead hterm hcode hpoint hact =>
    rw [List.foldlM_cons, bind_eq_ok] at hahead
    obtain ⟨st₁, hlower, hahead⟩ := hahead
    obtain ⟨saved, hlow⟩ := callLowered hk hlower
    have hi : i ∈ _ := heq ▸ List.mem_append_right _ List.mem_cons_self
    obtain ⟨g', ty, hg', hglen, hgargs, -⟩ := hf.calls _ hB.mem _ hi _ _ hk
    obtain rfl := Option.some.inj (hg.symm.trans hg')
    have hall := mapM_eq_ok.mp hxs
    have hall' := hall.imp fun a x h => Env.get_eq_ok.mp h
    have hxsty : TypedArgs g xs := by
      have hsound := mapM_get_sound (hq.env _ hf.prepared.valid.collect) hglen hgargs
      rw [hxs] at hsound
      exact hsound
    have hframe : _ ≤ STACK_BASE + FRAME_BYTES * (d + 1) :=
      (Nat.add_le_add_left (saved_length hf hB.mem hlow.saves) _).trans (FRAME_BYTES_add (n := 1) hd)
    rcases call_enters hload hf hB heq hlow (temp_le_of_steps hopen.2 hdone)
        (hcode.before.of_steps hahead) hpoint hact hbase hb₀ hg hall' with
      ⟨k', s₁, hg', hleads, henter⟩ | ⟨htrap, hout⟩
    · exact .inl ⟨s₁, hleads.to_reflTransGen, henter.invoked.stands hload hg' hxsty
        (hbase.trans (Nat.le_add_right _ _)) henter.room hframe⟩
    · exact .inr ⟨htrap, hout.trans_le hframe⟩
  | goto hblk hblkterm hexec =>
    refine ⟨0, fun hload hs => ?_⟩
    cases hs with | within hf hB hbase hb₀ hd heq hopen hdone hahead hterm hcode hpoint hact =>
    obtain rfl := Option.some.inj ((Function.block_of_mem hf.prepared.valid.nodup hB.mem).symm.trans hblk)
    obtain rfl := Option.some.inj (hterm.symm.trans hblkterm)
    obtain rfl := Except.ok.inj hahead
    rw [List.append_nil] at heq
    -- the terminator goes where the interpreter goes, the copies of the edge included
    rcases term_run hload hf hB hterm hcode (temp_le_of_steps hopen.2 hdone) hpoint (heq ▸ hact)
        (.refl _) with
      ⟨target, s₁, hexec', hleads, -, j', blk, hblk', rfl, hhead⟩ | ⟨v, s₁, hexec', -⟩ | ⟨p, hexec'⟩
    · obtain rfl := Exit.goto.inj (Except.ok.inj (hexec.symm.trans hexec'))
      exact .inl ⟨s₁, hleads.to_reflTransGen, .head hf hblk' hbase hb₀ hd hhead⟩
    · rw [hexec] at hexec'
      cases hexec'
    · rw [hexec] at hexec'
      cases hexec'

/-- The machine gets to every point of the run, unless it runs out of memory before. -/
theorem visited_stands (hvalid : validateModule M = .ok ())
    (hnames : (M.functions.map (·.name)).Nodup) (hf : f ∈ M.functions) {xs : List RtValue}
    (hxs : TypedArgs f xs) {q : Point} (hq : Visited M f xs q) :
    ∃ d, ∀ {c : CompiledModule} {lowered : List (String × Lowered)} {P : Program} {m : MemorySize}
      {s : State}, Loaded M c lowered P m → Stands M lowered m 0 (.start f xs) s →
        GetsTo M lowered P m d q s := by
  induction hq with
  | refl => exact ⟨0, fun _ hs => .inl ⟨_, .refl, hs⟩⟩
  | @tail q q' hvisited hstep ih =>
    obtain ⟨d, hd⟩ := ih
    obtain ⟨n, hn⟩ := Stands.next (.visited hvalid hnames hf hxs hvisited) hstep
    refine ⟨d + n, fun {c lowered P m s} hload hs => ?_⟩
    rcases hd hload hs with ⟨s₁, hleads, hs₁⟩ | ⟨hout, hsmall⟩
    · rcases hn hload hs₁ with ⟨s₂, hleads₂, hs₂⟩ | ⟨hout, hsmall⟩
      · exact .inl ⟨s₂, hleads.trans hleads₂, hs₂⟩
      · exact .inr ⟨.of_leads hleads hout, hsmall⟩
    · exact .inr ⟨hout, hsmall.trans_le ((Nat.le_add_right _ _).trans
        (FRAME_BYTES_add (n := n) (Nat.le_refl _)))⟩

end Points

/-! ### The values at a point -/

/-- The point is behind the instructions `before` of block `j` of function `k`, for which the code
generator has the allocation and the liveness. -/
structure PlacedAt (M : Module) (q : Point) (k j : ℕ) (alloc : Allocation) (liveness : Liveness)
    (b : BasicBlock) (before rest : List Instruction) : Prop where
  function : M.functions[k]? = some q.func
  block : q.func.blocks[j]? = some b
  current : b.id = q.current
  pending : q.pending = some rest
  split : b.instructions = before ++ rest
  alloc : allocate q.func (k * FUNCTION_REGION_BYTES) (reservedArgRegisters M) = .ok alloc
  live : analyze q.func = .ok liveness

/-- Every value that is live into the block, a phi of it, or defined by an instruction before the
point, is where it was allocated. -/
def InPlace (alloc : Allocation) (liveness : Liveness) (b : BasicBlock) (before : List Instruction)
    (env : Env) (s : State) : Prop :=
  ∀ v, Tracked liveness b before v → ∀ x, env v = some x → s.cells.read (alloc.loc v) = word x

section Driver

variable {M : Module} {f : Function} {xs : List RtValue}

/-- A driver starts the function on the arguments, in the compiled module: the memory goes as far as
the bottom of the stack at least, and register 30 is zero. -/
structure Started (M : Module) (f : Function) (xs : List RtValue) (P : Program) (m : MemorySize)
    (σ : Cells) : Prop where
  driver : ∃ c entry, compileModule M = .ok c ∧ c.entryOf f.name = some entry ∧ Drives c P entry xs
  memory : STACK_BASE ≤ m.bytes
  zero : σ.Zero

/-- It stands at the first point, with nothing on the stack. -/
theorem Started.stands (hM : Compilable M) (hf : f ∈ M.functions) (hxs : TypedArgs f xs)
    {P : Program} {m : MemorySize} {σ : Cells} (h : Started M f xs P m σ) :
    ∃ c lowered s₀, Loaded M c lowered P m ∧ LeadsOn (P.next m) (P.boot σ) s₀ ∧
      Stands M lowered m 0 (.start f xs) s₀ := by
  obtain ⟨c, entry, hc, hentry, hP⟩ := h.driver
  obtain ⟨lowered, k, hk, hload, s₀, hleads₀, hinv⟩ :=
    driver_enters hM hc hf hentry hxs hP h.memory h.zero
  exact ⟨c, lowered, s₀, hload, hleads₀,
    hinv.stands hload hk hxs (Nat.le_refl _) h.memory (Nat.le_add_right _ _)⟩

variable (hM : Compilable M) (hf : f ∈ M.functions) (hxs : TypedArgs f xs)
include hM hf hxs

/-- **Values are in their places.** At every point of every activation in a run the machine has the
values the activation needs where they were allocated, in the block that the point's code is in. For
every point there is a number of frames that are enough: a machine that does not get to it has no
memory for them. -/
theorem points_inPlace {q : Point} (hq : Visited M f xs q) {rest : List Instruction}
    (hrest : q.pending = some rest) :
    ∃ n, ∀ P m σ, Started M f xs P m σ →
      (∃ k j alloc liveness b before s, PlacedAt M q k j alloc liveness b before rest ∧
        Leads (P.next m) (P.boot σ) s ∧
        s.block = start M k j + (callExits before).length ∧
        InPlace alloc liveness b before q.env s) ∨
      Finishes (P.next m) (P.boot σ) (.trap .outOfBounds) ∧
        m.bytes < STACK_BASE + FRAME_BYTES * n := by
  obtain ⟨n, hn⟩ := visited_stands hM.valid hM.names hf hxs hq
  refine ⟨n, fun P m σ hstarted => ?_⟩
  obtain ⟨c, lowered, s₀, hload, hleads₀, hstart⟩ := hstarted.stands hM hf hxs
  rcases hn hload hstart with ⟨s, hleads, hs⟩ | ⟨hout, hsmall⟩
  swap
  · exact .inr ⟨.of_leads hleads₀.to_reflTransGen hout, hsmall⟩
  cases hs with
  | head => cases hrest
  | within hfq hB hbase hb₀ hd heq hopen hdone hahead hterm hcode hpoint hact =>
    obtain rfl := Option.some.inj hrest
    refine .inl ⟨_, _, _, _, _, _, s, ⟨hfq.low.function, hB.here, rfl, rfl, heq, hfq.low.alloc,
      hfq.low.live⟩, hleads₀.to_reflTransGen.trans hleads, ?_, hact.placed⟩
    rw [hpoint.block, pending_length hdone, hopen.1, List.length_nil, Nat.zero_add]

/-- **A call preserves its caller.** However a call in the run comes back, the machine gets from the
end of one block to the start of the next in the same activation, the result is where its value was
allocated, and every other value the caller may still need is where it was before the call. -/
theorem call_preserves {q : Point} (hq : Visited M f xs q) {i : Instruction} {rest : List Instruction}
    (hrest : q.pending = some (i :: rest)) {name : String} {args : List ValueId}
    (hk : i.kind = .call name args) {fuel : ℕ} {env' : Env}
    (hexec : execInst M (call M fuel) q.env i = .ok env') :
    ∃ n, ∀ P m σ, Started M f xs P m σ →
      (∃ k j alloc liveness b before s s', PlacedAt M q k j alloc liveness b before (i :: rest) ∧
        Leads (P.next m) (P.boot σ) s ∧
        Leads (P.next m) s s' ∧
        s.block = start M k j + (callExits before).length ∧ s'.block = s.block + 1 ∧
        s'.calls = s.calls ∧ InPlace alloc liveness b before q.env s ∧
        (∀ v, Tracked liveness b before v → v ≠ i.id → ∀ x, q.env v = some x →
          s'.cells.read (alloc.loc v) = s.cells.read (alloc.loc v)) ∧
        ∀ x, env' i.id = some x → s'.cells.read (alloc.loc i.id) = word x) ∨
      Finishes (P.next m) (P.boot σ) (.trap .outOfBounds) ∧
        m.bytes < STACK_BASE + FRAME_BYTES * n := by
  have hty : PointTyped M q := .visited hM.valid hM.names hf hxs hq
  obtain ⟨d, hd⟩ := visited_stands hM.valid hM.names hf hxs hq
  -- the frames of the way to the point, and those of the call
  refine ⟨d + (fuel + 1), fun P m σ hstarted => ?_⟩
  obtain ⟨c, lowered, s₀, hload, hleads₀, hstart⟩ := hstarted.stands hM hf hxs
  rcases hd hload hstart with ⟨s, hleads, hs⟩ | ⟨hout, hsmall⟩
  swap
  · exact .inr ⟨.of_leads hleads₀.to_reflTransGen hout, hsmall.trans_le
      ((Nat.le_add_right _ _).trans (FRAME_BYTES_add (n := fuel + 1) (Nat.le_refl _)))⟩
  cases hs with
  | head => cases hrest
  | within hfq hB hbase hb₀ hdeep heq hopen hdone hahead hterm hcode hpoint hact =>
    obtain rfl := Option.some.inj hrest
    rw [List.foldlM_cons, bind_eq_ok] at hahead
    obtain ⟨st₁, hlower, hahead⟩ := hahead
    have htemp := temp_le_of_steps hopen.2 hdone
    have hexec' : execInst M (callWith (loop M fuel)) _ i = .ok env' := hexec
    have hcarried := step_carriedOut hload hfq hB heq hlower htemp (hcode.before.of_steps hahead) hpoint
      hact (hty.env _ hfq.prepared.valid.collect) hbase hb₀ (callsCarriedOut hload fuel)
    rw [hexec'] at hcarried
    have hboot := hleads₀.to_reflTransGen.trans hleads
    rcases hcarried with ⟨res, hres, rfl, hsmall⟩ | ⟨s', hleads', hreached⟩
    · exact .inr ⟨.of_leads hboot hres, hsmall.trans_le (FRAME_BYTES_add hdeep)⟩
    obtain ⟨saved, hlow⟩ := callLowered hk hlower
    refine .inl ⟨_, _, _, _, _, _, s, s', ⟨hfq.low.function, hB.here, rfl, rfl, heq, hfq.low.alloc,
      hfq.low.live⟩, hboot, hleads', ?_, ?_, ?_, hact.placed, fun v hv hne x hx => ?_, fun x hx => ?_⟩
    · rw [hpoint.block, pending_length hdone, hopen.1, List.length_nil, Nat.zero_add]
    · rw [hreached.point.block, hpoint.block, hlow.after, List.length_append]
      rfl
    · rw [hreached.act.calls, hact.calls]
    · -- the call binds its own result only
      have henv : env' v = some x := by
        simp only [execInst, hk] at hexec'
        split at hexec'
        · cases hexec'
        · simp only [bind_eq_ok] at hexec'
          obtain ⟨_, -, _, -, _, -, henv⟩ := hexec'
          rw [← Except.ok.inj henv, Env.insert_of_ne _ hne]
          exact hx
      rw [hact.placed v hv x hx]
      exact hreached.act.placed v (Tracked.append.mpr (.inl hv)) x henv
    · exact hreached.act.placed _ (Tracked.append.mpr (.inr rfl)) x hx

end Driver

/-! ### A run of `countModule` -/

/-- The first point of `main(3)` with instructions. -/
def countPoint : Point :=
  ⟨countModule.functions[1], 0, none, Env.ofArgs [.i64 3],
    some [⟨1, .i64, .call "count" [0]⟩, ⟨2, .bool, .bin .cmpLt 0 1⟩]⟩

theorem countPoint_visited : Visited countModule countModule.functions[1] [.i64 3] countPoint :=
  .single (@Next.enter countModule countModule.functions[1] 0 none (Env.ofArgs [.i64 3]) _ [] rfl rfl)

/-- The compiled program, started on a machine that has memory enough for the run. -/
theorem countModule_starts : ∃ c entry, compileModule countModule = .ok c ∧
    c.entryOf "main" = some entry ∧
    Started countModule countModule.functions[1] [.i64 3] (c.driver entry [3]) ⟨0x100000, by decide⟩
      ⟨fun _ => 0, fun _ => 0⟩ ∧
    ¬ Finishes ((c.driver entry [3]).next ⟨0x100000, by decide⟩)
      ((c.driver entry [3]).boot ⟨fun _ => 0, fun _ => 0⟩) (.trap .outOfBounds) := by
  obtain ⟨c, hc⟩ : ∃ c, compileModule countModule = .ok c := exists_of_isSome (by decide +kernel)
  obtain ⟨entry, hentry⟩ : ∃ entry, c.entryOf "main" = some entry := by
    obtain ⟨lowered, h⟩ := compileModule_ok hc
    refine ⟨start countModule 1 0, ?_⟩
    rw [CompiledModule.entryOf, h.entry]
    exact Pass1.moduleEntry (k := 1) h.pass1 (by decide) rfl
  have hfits : ∀ x ∈ [RtValue.i64 3], FitsI32 x := by decide
  have hdrives : Drives c (c.driver entry [3]) entry [.i64 3] := c.driver_is entry hfits
  refine ⟨c, entry, hc, hentry, ⟨⟨c, entry, hc, hentry, hdrives⟩, by decide, rfl⟩, fun hout => ?_⟩
  have hrun : run countModule 10 "main" [.i64 3] = .ok (some (.i64 3)) := by decide +kernel
  obtain ⟨res, hres, hagrees | ⟨-, hsmall⟩⟩ := compiled_run (f := countModule.functions[1])
    countModule_compilable hc (by decide) hentry (show TypedArgs countModule.functions[1] [.i64 3] from rfl)
    hdrives (m := ⟨0x100000, by decide⟩) (by decide) (σ := ⟨fun _ => 0, fun _ => 0⟩) rfl hrun (by simp)
    (by simp)
  · cases hagrees
    cases hres.unique hout
  · exact absurd hsmall (by decide)

theorem points_inPlace_count : ∃ c entry k j alloc liveness b before s,
    compileModule countModule = .ok c ∧ c.entryOf "main" = some entry ∧
    PlacedAt countModule countPoint k j alloc liveness b before
      [⟨1, .i64, .call "count" [0]⟩, ⟨2, .bool, .bin .cmpLt 0 1⟩] ∧
    Leads ((c.driver entry [3]).next ⟨0x100000, by decide⟩)
      ((c.driver entry [3]).boot ⟨fun _ => 0, fun _ => 0⟩) s ∧
    InPlace alloc liveness b before countPoint.env s := by
  obtain ⟨c, entry, hc, hentry, hstarted, hmem⟩ := countModule_starts
  obtain ⟨n, hn⟩ := points_inPlace (f := countModule.functions[1]) countModule_compilable (by decide)
    (show TypedArgs countModule.functions[1] [.i64 3] from rfl) countPoint_visited rfl
  obtain ⟨k, j, alloc, liveness, b, before, s, hplaced, hleads, -, hin⟩ :=
    (hn _ _ _ hstarted).resolve_right fun hout => hmem hout.1
  exact ⟨c, entry, k, j, alloc, liveness, b, before, s, hc, hentry, hplaced, hleads, hin⟩

theorem call_preserves_count : ∃ c entry alloc liveness b before s s',
    compileModule countModule = .ok c ∧ c.entryOf "main" = some entry ∧
    Leads ((c.driver entry [3]).next ⟨0x100000, by decide⟩)
      ((c.driver entry [3]).boot ⟨fun _ => 0, fun _ => 0⟩) s ∧
    Leads ((c.driver entry [3]).next ⟨0x100000, by decide⟩) s s' ∧
    InPlace alloc liveness b before countPoint.env s ∧
    s'.cells.read (alloc.loc 1) = word (.i64 3) := by
  obtain ⟨c, entry, hc, hentry, hstarted, hmem⟩ := countModule_starts
  obtain ⟨env', henv⟩ : ∃ env', execInst countModule (call countModule 10) countPoint.env
      ⟨1, .i64, .call "count" [0]⟩ = .ok env' := ⟨_, rfl⟩
  have hval : env' 1 = some (.i64 3) := by
    have heval : (execInst countModule (call countModule 10) countPoint.env
        ⟨1, .i64, .call "count" [0]⟩).map (fun e => e 1) = .ok (some (.i64 3)) := by decide +kernel
    rw [henv] at heval
    exact Except.ok.inj heval
  obtain ⟨n, hn⟩ := call_preserves (f := countModule.functions[1]) countModule_compilable (by decide)
    (show TypedArgs countModule.functions[1] [.i64 3] from rfl) countPoint_visited rfl rfl henv
  obtain ⟨k, j, alloc, liveness, b, before, s, s', -, hboot, hleads, -, -, -, hin, -, hres⟩ :=
    (hn _ _ _ hstarted).resolve_right fun hout => hmem hout.1
  exact ⟨c, entry, alloc, liveness, b, before, s, s', hc, hentry, hboot, hleads, hin, hres _ hval⟩

end Codegen
end Chakobsa
