import Chakobsa.Parser.BuilderTotal

/-!
# The calls of the builder

What each call of the builder does to a ghost state: the invariant holds after it (`Ghost.Sound`),
the state only grows (`Grows`), and the call ends. The conditions under which this is so are those
of the parser: a block is written to as long as it has no terminator, an edge goes to a block that
is not sealed, and a block that gets a terminator can be reached. A block may get a terminator
twice; as long as none does, the recorded predecessors are those of the function (`Ghost.Exact`).
-/

namespace Chakobsa
namespace Parser

open Ir ExceptLemmas

/-- A read of `x` with type `ty` asks for the definition of `x` at the block's entry. -/
inductive Demanded (g : Ghost) (x : String) (ty : Ty) : BlockId → Prop where
  | read {b : BlockId} {l r : List Event} {v : ValueId} :
      g.log b = l ++ .read x v ty :: r → lastWrite x l = none → Demanded g x ty b
  | pred {c p : BlockId} : Demanded g x ty c → p ∈ g.builder.preds c →
      lastWrite x (g.log p) = none → Demanded g x ty p

/-- Entry definitions are found on demand, and a phi has the type it was demanded with. -/
def DemandInv (g : Ghost) : Prop :=
  ∀ c y d, g.entryDef c y = some d → ∃ ty, Demanded g y ty c ∧
    ∀ v, d = .phi v → g.builder.valueTypes v = some ty

/-- What holds between two calls. -/
structure Ghost.Sound (g : Ghost) : Prop where
  ok : g.Ok
  demand : DemandInv g
  reach : ReachInv g.builder

/-- The number of blocks. -/
abbrev Ghost.size (g : Ghost) : ℕ := g.builder.func.blocks.length

/-- The terminator of a block. -/
abbrev Ghost.term (g : Ghost) (b : BlockId) : Option Terminator := g.builder.func.termAt b

/-- From one state to a later one. -/
structure Grows (g g' : Ghost) : Prop where
  size : g.size ≤ g'.size
  name : g'.builder.func.name = g.builder.func.name
  params : g'.builder.func.params = g.builder.func.params
  retTy : g'.builder.func.retTy = g.builder.func.retTy
  log : ∀ b, ∃ more, g'.log b = g.log b ++ more
  /-- A block with a terminator is done. -/
  done : ∀ b, g.term b ≠ none → g'.log b = g.log b ∧ g'.term b ≠ none
  isSealed : ∀ b, g.builder.isSealed b = true →
    g'.builder.isSealed b = true ∧ g'.builder.preds b = g.builder.preds b
  preds : ∀ b p, p ∈ g.builder.preds b → p ∈ g'.builder.preds b
  entries : ∀ c y d, g.entryDef c y = some d → g'.entryDef c y = some d
  types : ∀ v ty, v < g.builder.nextValue → g.builder.valueTypes v = some ty →
    g'.builder.valueTypes v = some ty
  nextValue : g.builder.nextValue ≤ g'.builder.nextValue

/-- The call has left the control-flow graph alone. -/
structure SameGraph (g g' : Ghost) : Prop where
  size : g'.size = g.size
  term : ∀ b, g'.term b = g.term b
  isSealed : g'.builder.isSealed = g.builder.isSealed
  preds : g'.builder.preds = g.builder.preds

namespace Ghost

/-- `new`: the parameters are written in the entry block. -/
def new (name : String) (params : List (String × Ty)) (retTy : Option Ty) : Ghost where
  builder := SsaBuilder.new name params retTy
  log := fun b => if b = 0 then params.zipIdx.map fun p => .write p.1.1 p.2 else []
  entryDef := fun _ _ => none

/-- `new_block`. -/
def newBlock (g : Ghost) : Ghost := { g with builder := g.builder.newBlock.2 }

/-- A further event in `b`. -/
def note (g : Ghost) (b : BlockId) (e : Event) : Ghost :=
  { g with log := insertAt g.log b (g.log b ++ [e]) }

/-- `emit`. -/
def emit (g : Ghost) (b : BlockId) (ty : Ty) (kind : InstKind) : Ghost where
  builder := g.builder.emitted b ty kind
  log := insertAt g.log b (g.log b ++ [.inst ⟨g.builder.nextValue, ty, kind⟩])
  entryDef := g.entryDef

/-- `write_variable`. -/
def write (g : Ghost) (x : String) (b : BlockId) (v : ValueId) : Ghost where
  builder := g.builder.writeVariable x b v
  log := insertAt g.log b (g.log b ++ [.write x v])
  entryDef := g.entryDef

/-- `terminate`. -/
def terminate (g : Ghost) (b : BlockId) (t : Terminator) : Ghost :=
  { g with builder := g.builder.terminated b t }

end Ghost

section Growth

variable {g g' g'' : Ghost} {b c : BlockId} {x y : String} {v : ValueId} {ty : Ty}

theorem Grows.refl : Grows g g :=
  ⟨Nat.le_refl _, rfl, rfl, rfl, fun _ => ⟨[], by simp⟩, fun _ h => ⟨rfl, h⟩,
    fun _ h => ⟨h, rfl⟩, fun _ _ h => h, fun _ _ _ h => h, fun _ _ _ h => h, Nat.le_refl _⟩

theorem Grows.trans (h : Grows g g') (h' : Grows g' g'') : Grows g g'' := by
  refine ⟨Nat.le_trans h.size h'.size, h'.name.trans h.name, h'.params.trans h.params,
    h'.retTy.trans h.retTy, fun b => ?_, fun b hb => ?_, fun b hb => ?_,
    fun b p hp => h'.preds b p (h.preds b p hp), fun c y d hd => h'.entries c y d (h.entries c y d hd),
    fun v ty hv ht => h'.types v ty (Nat.lt_of_lt_of_le hv h.nextValue) (h.types v ty hv ht),
    Nat.le_trans h.nextValue h'.nextValue⟩
  · obtain ⟨m, hm⟩ := h.log b
    obtain ⟨m', hm'⟩ := h'.log b
    exact ⟨m ++ m', by rw [hm', hm, List.append_assoc]⟩
  · obtain ⟨hl, ht⟩ := h.done b hb
    obtain ⟨hl', ht'⟩ := h'.done b ht
    exact ⟨hl'.trans hl, ht'⟩
  · obtain ⟨hs, hp⟩ := h.isSealed b hb
    obtain ⟨hs', hp'⟩ := h'.isSealed b hs
    exact ⟨hs', hp'.trans hp⟩

/-- A demand stays a demand. -/
theorem Demanded.mono (hgraph : GraphInv g.builder) (hg : Grows g g')
    (h : Demanded g x ty c) : Demanded g' x ty c := by
  induction h with
  | @read b l r v hl hw =>
    obtain ⟨more, hm⟩ := hg.log b
    exact .read (r := r ++ more) (v := v) (by rw [hm, hl]; simp) hw
  | @pred c p _ hp hw ih =>
    refine .pred ih (hg.preds c p hp) ?_
    rw [(hg.done p (hgraph.pred_terminated hp)).1]
    exact hw

theorem Demanded.lt (h : g.Sound) (hd : Demanded g x ty c) : c < g.size := by
  cases hd with
  | read hl _ =>
    by_contra hn
    have := (h.ok.logs.outside c (Nat.le_of_not_lt hn)).1
    simp [this] at hl
  | pred _ hp _ => exact h.ok.graph.pred_lt hp

/-- The demands of entry definitions that were there before. -/
theorem DemandInv.mono {Open : BlockId → String → ValueId → Prop} {Closing : BlockId → Prop}
    (h : BuilderInv g Open Closing) (hdem : DemandInv g) (hg : Grows g g') {d : EntryDef}
    (hd : g.entryDef c y = some d) : ∃ ty, Demanded g' y ty c ∧
      ∀ v, d = .phi v → g'.builder.valueTypes v = some ty := by
  obtain ⟨ty, hdem, hty⟩ := hdem c y d hd
  refine ⟨ty, hdem.mono h.graph hg, fun v hv => ?_⟩
  subst hv
  exact hg.types v ty (h.phi_lt hd) (hty v rfl)

theorem DemandInv.grow (h : g.Sound) (hg : Grows g g') (hentry : g'.entryDef = g.entryDef) :
    DemandInv g' := fun _ _ _ hd => DemandInv.mono h.ok h.demand hg (hentry ▸ hd)

theorem ReachInv.grow {B B' : SsaBuilder} (h : ReachInv B)
    (hterm : ∀ b, B'.func.termAt b = B.func.termAt b)
    (hpreds : ∀ b p, p ∈ B.preds b → p ∈ B'.preds b) : ReachInv B' := by
  intro b hb
  obtain ⟨π, hw⟩ := h b (hterm b ▸ hb)
  exact ⟨π, hw.mono fun p c hp => hpreds c p hp⟩

/-- Entry definitions under a change that keeps what they rest on. -/
theorem EntryInv.grow {Open : BlockId → String → ValueId → Prop} {Closing : BlockId → Prop}
    (h : EntryInv g Open Closing) (hentry : g'.entryDef = g.entryDef)
    (hinc : g'.builder.incompletePhis = g.builder.incompletePhis)
    (hseal : g'.builder.isSealed = g.builder.isSealed)
    (hpreds : ∀ c, g.builder.isSealed c = true ∨ Closing c →
      g'.builder.preds c = g.builder.preds c)
    (hout : ∀ c, ∀ p ∈ g.builder.preds c, ∀ y u, g.outDef p y = some u → g'.outDef p y = some u)
    (hinsts : ∀ c, ∀ i ∈ g.builder.func.instsAt c, i ∈ g'.builder.func.instsAt c ∧
      (i ∈ instsOf (g'.log c) → i ∈ instsOf (g.log c))) : EntryInv g' Open Closing := by
  refine ⟨fun c y w hd => ?_, fun c y z w hy hz => ?_, fun c y w hd => ?_, fun c y w hm => ?_⟩
  · obtain ⟨i, hi, hid, hlog, incoming, hk, hs⟩ := h.phi c y w (hentry ▸ hd)
    obtain ⟨hi', hlog'⟩ := hinsts c i hi
    exact ⟨i, hi', hid, fun hm => hlog (hlog' hm), incoming, hk,
      hs.mono (by rw [hinc]; exact id) (fun hs => ⟨hseal ▸ hs, hpreds c hs⟩)
        fun p hp u hu => hout c p hp y u hu⟩
  · exact h.inj c y z w (hentry ▸ hy) (hentry ▸ hz)
  · obtain ⟨hs, p, hp, ho⟩ := h.copy c y w (hentry ▸ hd)
    refine ⟨hseal ▸ hs, p, (hpreds c (.inl hs)).trans hp, hout c p (by simp [hp]) y w ho⟩
  · rw [hinc] at hm
    rw [hentry, hseal]
    exact h.incomplete c y w hm

end Growth

/-! ### The simple calls -/

section Calls

variable {ε : Type} {g : Ghost} {b : BlockId} {x : String} {v : ValueId} {ty : Ty}

theorem newBlock_instsAt (B : SsaBuilder) (c : BlockId) :
    B.newBlock.2.func.instsAt c = B.func.instsAt c := by
  simp only [SsaBuilder.newBlock, Function.instsAt, List.getElem?_append]
  split
  · rfl
  · next hc =>
    rw [List.getElem?_eq_none (by omega : B.func.blocks.length ≤ c), List.getElem?_singleton]
    split <;> rfl

theorem newBlock_termAt (B : SsaBuilder) (c : BlockId) :
    B.newBlock.2.func.termAt c = B.func.termAt c := by
  simp only [SsaBuilder.newBlock, Function.termAt, List.getElem?_append]
  split
  · rfl
  · next hc =>
    rw [List.getElem?_eq_none (by omega : B.func.blocks.length ≤ c), List.getElem?_singleton]
    split <;> rfl

theorem indexed_newBlock {B : SsaBuilder} (h : B.func.Indexed) : B.newBlock.2.func.Indexed := by
  intro k blk hk
  simp only [SsaBuilder.newBlock, List.getElem?_append] at hk
  split at hk
  · exact h k blk hk
  · next hc =>
    rw [List.getElem?_singleton] at hk
    split at hk
    · next h0 =>
      obtain rfl := Option.some.inj hk
      show B.func.blocks.length = k
      omega
    · simp at hk

theorem GraphInv.newBlock {B : SsaBuilder} (h : GraphInv B) : GraphInv B.newBlock.2 := by
  have hlen : B.newBlock.2.func.blocks.length = B.func.blocks.length + 1 := by
    simp [SsaBuilder.newBlock]
  have hpreds : ∀ c, B.newBlock.2.preds c = B.preds c := by
    intro c
    show insertAt B.preds B.func.blocks.length [] c = B.preds c
    unfold insertAt
    split
    · next hc =>
      subst hc
      rw [eq_comm, List.eq_nil_iff_forall_not_mem]
      exact fun p hp => absurd (h.lt_of_pred hp) (Nat.lt_irrefl _)
    · rfl
  refine ⟨indexed_newBlock h.indexed, h.entry, by omega, fun c p hp => ?_, ?_, h.entrySealed,
    fun c hc => by have := h.sealedLt c hc; omega⟩
  · obtain ⟨hlt, hc, ht⟩ := h.edges c p (hpreds c ▸ hp)
    rw [newBlock_termAt, hlen]
    exact ⟨Nat.lt_succ_of_lt hlt, Nat.lt_succ_of_lt hc, ht⟩
  · rw [hpreds]
    exact h.entryPreds

theorem ValueInv.newBlock {B : SsaBuilder} (h : ValueInv B) : ValueInv B.newBlock.2 := by
  refine ⟨?_, ?_, ?_, h.params, ?_, h.paramTypes⟩ <;> simp only [newBlock_instsAt]
  exacts [h.ids, h.block, h.nodup, h.types]

theorem Ghost.Sound.newBlock (h : g.Sound) : g.newBlock.Sound ∧ Grows g g.newBlock ∧
    g.newBlock.size = g.size + 1 ∧ (∀ c, g.newBlock.term c = g.term c) ∧
    g.newBlock.builder.preds = g.builder.preds := by
  have hsize : g.newBlock.size = g.size + 1 := by
    simp [Ghost.newBlock, Ghost.size, SsaBuilder.newBlock]
  have hpreds : g.newBlock.builder.preds = g.builder.preds := by
    funext c
    show insertAt g.builder.preds g.builder.func.blocks.length [] c = g.builder.preds c
    unfold insertAt
    split
    · next hc =>
      subst hc
      rw [eq_comm, List.eq_nil_iff_forall_not_mem]
      exact fun p hp => absurd (h.ok.graph.lt_of_pred hp) (Nat.lt_irrefl _)
    · rfl
  have hterm : ∀ c, g.newBlock.term c = g.term c := newBlock_termAt g.builder
  have hgrow : Grows g g.newBlock :=
    ⟨by omega, rfl, rfl, rfl, fun _ => ⟨[], by simp [Ghost.newBlock]⟩,
      fun c hc => ⟨rfl, by rwa [hterm c]⟩, fun c hc => ⟨hc, by rw [hpreds]⟩, fun c p hp => by rwa [hpreds],
      fun _ _ _ hd => hd, fun _ _ _ ht => ht, Nat.le_refl _⟩
  refine ⟨⟨⟨h.ok.graph.newBlock, h.ok.values.newBlock, ⟨fun c y => ?_, fun c hc => ?_, ?_, ?_, ?_,
    h.ok.logs.reads, h.ok.logs.nodup⟩, ?_⟩, DemandInv.grow h hgrow rfl, h.reach.grow hterm fun c p hp => by
      rwa [hpreds]⟩, hgrow, hsize, hterm, hpreds⟩
  -- the new block has no instructions and no values; the others are as they were
  · show insertAt g.builder.currentDef g.builder.func.blocks.length (fun _ => none) c y = _
    unfold insertAt
    split
    · next hc =>
      subst hc
      obtain ⟨hl, he, -⟩ := h.ok.logs.outside _ (Nat.le_refl _)
      show none = g.outDef _ _
      simp [Ghost.outDef, defAfter, hl, he, lastWrite]
    · exact h.ok.logs.cur c y
  · exact h.ok.logs.outside c (Nat.le_of_succ_le (hsize.symm.le.trans hc : g.size + 1 ≤ c))
  · intro c
    show (g.builder.newBlock.2.func.instsAt c).filter _ = _
    rw [newBlock_instsAt]
    exact h.ok.logs.body c
  · intro c i hi
    show i ∈ g.builder.newBlock.2.func.instsAt c
    rw [newBlock_instsAt]
    exact h.ok.logs.emitted c i hi
  · intro c i hi
    change i ∈ g.builder.newBlock.2.func.instsAt c at hi
    rw [newBlock_instsAt] at hi
    exact h.ok.logs.phis c i hi
  · refine h.ok.entries.grow rfl rfl rfl (fun c _ => by rw [hpreds]) (fun _ _ _ _ _ hu => hu)
      fun c i hi => ⟨?_, id⟩
    show i ∈ g.builder.newBlock.2.func.instsAt c
    rwa [newBlock_instsAt]

/-- A log with one more event. -/
theorem insertAt_log (l : BlockId → List Event) (b : BlockId) (e : Event) (c : BlockId) :
    insertAt l b (l b ++ [e]) c = if c = b then l b ++ [e] else l c := rfl

/-- The reads in a log with one more event. -/
theorem LogInv.reads_note {entry : String → Option EntryDef} {l : List Event} {e : Event}
    (h : ∀ l' x v ty r, l = l' ++ .read x v ty :: r → defAfter entry l' x = some v)
    (he : ∀ x v ty, e = .read x v ty → defAfter entry l x = some v) :
    ∀ l' x v ty r, l ++ [e] = l' ++ .read x v ty :: r → defAfter entry l' x = some v := by
  intro l' x v ty r heq
  rcases List.eq_nil_or_concat r with rfl | ⟨r, e', rfl⟩
  · obtain ⟨rfl, hee⟩ := List.append_inj' heq rfl
    exact he x v ty (by simpa using hee)
  · have : l ++ [e] = (l' ++ .read x v ty :: r) ++ [e'] := by simpa using heq
    obtain ⟨rfl, -⟩ := List.append_inj' this rfl
    exact h l' x v ty r rfl

theorem Ghost.Sound.emit (h : g.Sound) (hb : b < g.size) (ht : g.term b = none) (ty : Ty)
    (kind : InstKind) :
    (g.builder.emit b ty kind : BuildM ε _) = .ok (g.builder.nextValue, (g.emit b ty kind).builder) ∧
      (g.emit b ty kind).Sound ∧ Grows g (g.emit b ty kind) ∧ SameGraph g (g.emit b ty kind) := by
  have hinsts := instsAt_emitted (B := g.builder) hb ty kind
  have hsize : (g.emit b ty kind).size = g.size := Function.modify_length _ _
  have hterm : ∀ c, (g.emit b ty kind).term c = g.term c := fun c =>
    Function.termAt_modify_insts b (fun l => l ++ [Instruction.mk g.builder.nextValue ty kind]) c
  have hlog : ∀ c, (g.emit b ty kind).log c =
      if c = b then g.log b ++ [.inst ⟨g.builder.nextValue, ty, kind⟩] else g.log c :=
    insertAt_log _ _ _
  -- the event is no write, so what is defined at the end of a block stays
  have hout : ∀ c y, (g.emit b ty kind).outDef c y = g.outDef c y := by
    intro c y
    unfold Ghost.outDef
    rw [hlog]
    split
    · next hc =>
      subst hc
      exact defAfter_snoc_inst _
    · rfl
  have hgrow : Grows g (g.emit b ty kind) := by
    refine ⟨Nat.le_of_eq hsize.symm, rfl, rfl, rfl, fun c => ?_,
      fun c hc => ⟨?_, by rwa [hterm c]⟩, fun c hc => ⟨hc, rfl⟩, fun _ _ hp => hp, fun _ _ _ hd => hd, fun w τ hw hτ => ?_,
      Nat.le_succ _⟩
    · rw [hlog]
      split
      · next hc =>
        subst hc
        exact ⟨_, rfl⟩
      · exact ⟨[], by simp⟩
    · rw [hlog, if_neg]
      rintro rfl
      exact hc ht
    · show insertAt g.builder.valueTypes g.builder.nextValue (some ty) w = some τ
      rw [insertAt, if_neg (Nat.ne_of_lt hw), hτ]
  -- the id is new, so no instruction is the one that is added
  have hfresh : ∀ c, ∀ i ∈ g.builder.func.instsAt c, i ≠ ⟨g.builder.nextValue, ty, kind⟩ := by
    rintro c i hi rfl
    exact absurd (h.ok.values.ids c _ hi).2 (Nat.lt_irrefl _)
  -- what is left are the parts of the invariant that mention the log of `b` or its instructions
  refine ⟨SsaBuilder.emit_ok h.ok.graph.indexed hb ty kind, ⟨⟨h.ok.graph.emitted ty kind,
    h.ok.values.emitted hb ty kind, ⟨fun c y => ?_, fun c hc => ?_, fun c => ?_, fun c i hi => ?_,
    fun c i hi => ?_, fun c l y w τ r hl => ?_, fun c => ?_⟩, ?_⟩, DemandInv.grow h hgrow rfl,
    h.reach.grow hterm fun _ _ hp => hp⟩, hgrow, ⟨hsize, hterm, rfl, rfl⟩⟩
  · rw [hout]
    exact h.ok.logs.cur c y
  · have hc' : g.size ≤ c := hsize ▸ hc
    obtain ⟨hl, he, hi⟩ := h.ok.logs.outside c hc'
    refine ⟨?_, he, hi⟩
    rw [hlog, if_neg, hl]
    rintro rfl
    exact absurd hb (Nat.not_lt.mpr hc')
  · show ((g.builder.emitted b ty kind).func.instsAt c).filter _ = _
    rw [hinsts, hlog]
    split
    · next hc =>
      subst hc
      rw [instsOf_append, List.filter_append, List.filter_append, h.ok.logs.body]
      rfl
    · exact h.ok.logs.body c
  · show i ∈ (g.builder.emitted b ty kind).func.instsAt c
    rw [hlog] at hi
    rw [hinsts]
    split at hi
    · next hc =>
      rw [if_pos hc]
      rw [instsOf_append, List.mem_append] at hi
      exact List.mem_append.mpr (hi.imp_left (h.ok.logs.emitted b i))
    · next hc =>
      rw [if_neg hc]
      exact h.ok.logs.emitted c i hi
  · change i ∈ (g.builder.emitted b ty kind).func.instsAt c at hi
    rw [hinsts] at hi
    rw [hlog]
    split at hi
    · next hc =>
      subst hc
      rw [if_pos rfl, instsOf_append, List.mem_append]
      rcases List.mem_append.mp hi with hi | hi
      · exact (h.ok.logs.phis c i hi).imp_left .inl
      · exact .inl (.inr hi)
    · next hc =>
      rw [if_neg hc]
      exact h.ok.logs.phis c i hi
  · rw [hlog] at hl
    split at hl
    · next hc =>
      subst hc
      exact LogInv.reads_note (h.ok.logs.reads c) (by simp) l y w τ r hl
    · exact h.ok.logs.reads c l y w τ r hl
  · rw [hlog]
    split
    · rw [instsOf_append, List.nodup_append]
      refine ⟨h.ok.logs.nodup b, by simp, fun i hi j hj => ?_⟩
      obtain rfl : j = ⟨g.builder.nextValue, ty, kind⟩ := by simpa using hj
      exact hfresh b i (h.ok.logs.emitted b i hi)
    · exact h.ok.logs.nodup c
  · refine h.ok.entries.grow rfl rfl rfl (fun _ _ => rfl) (fun c p _ y u hu => by rwa [hout])
      fun c i hi => ⟨?_, fun hm => ?_⟩
    · show i ∈ (g.builder.emitted b ty kind).func.instsAt c
      rw [hinsts]
      split
      · next hc => exact List.mem_append_left _ (hc ▸ hi)
      · exact hi
    · rw [hlog] at hm
      split at hm
      · next hc =>
        subst hc
        rw [instsOf_append, List.mem_append] at hm
        rcases hm with hm | hm
        · exact hm
        · exact absurd (by simpa using hm) (hfresh c i hi)
      · exact hm

theorem Ghost.Sound.write (h : g.Sound) (hb : b < g.size) (ht : g.term b = none) (x : String)
    (v : ValueId) :
    (g.write x b v).Sound ∧ Grows g (g.write x b v) ∧ SameGraph g (g.write x b v) := by
  have hlog : ∀ c, (g.write x b v).log c = if c = b then g.log b ++ [.write x v] else g.log c :=
    insertAt_log _ _ _
  have hout : ∀ c y, (g.write x b v).outDef c y =
      if c = b ∧ y = x then some v else g.outDef c y := by
    intro c y
    unfold Ghost.outDef
    rw [hlog]
    by_cases hc : c = b
    · subst hc
      rw [if_pos rfl, defAfter_snoc_write]
      by_cases hy : y = x
      · simp [hy]
      · rw [if_neg (Ne.symm hy), if_neg (by simp [hy])]
        rfl
    · rw [if_neg hc, if_neg (by simp [hc])]
      rfl
  have hgrow : Grows g (g.write x b v) := by
    refine ⟨Nat.le_refl _, rfl, rfl, rfl, fun c => ?_, fun c hc => ⟨?_, hc⟩, fun c hc => ⟨hc, rfl⟩,
      fun _ _ hp => hp, fun _ _ _ hd => hd, fun _ _ _ hτ => hτ, Nat.le_refl _⟩
    · rw [hlog]
      split
      · next hc =>
        subst hc
        exact ⟨_, rfl⟩
      · exact ⟨[], by simp⟩
    · rw [hlog, if_neg]
      rintro rfl
      exact hc ht
  -- a write is an event but no instruction
  have hinsts : ∀ c, instsOf ((g.write x b v).log c) = instsOf (g.log c) := by
    intro c
    rw [hlog]
    split
    · next hc =>
      subst hc
      simp
    · rfl
  refine ⟨⟨⟨h.ok.graph.congr rfl rfl rfl, h.ok.values.congr rfl rfl rfl, ⟨fun c y => ?_,
    fun c hc => ?_, fun c => ?_, fun c i hi => h.ok.logs.emitted c i (hinsts c ▸ hi),
    fun c i hi => hinsts c ▸ h.ok.logs.phis c i hi, fun c l y w τ r hl => ?_,
    fun c => hinsts c ▸ h.ok.logs.nodup c⟩, ?_⟩, DemandInv.grow h hgrow rfl, h.reach.grow (fun _ => rfl) fun _ _ hp => hp⟩, hgrow,
    ⟨rfl, fun _ => rfl, rfl, rfl⟩⟩
  · rw [hout]
    show insertAt g.builder.currentDef b (insertAt (g.builder.currentDef b) x (some v)) c y = _
    unfold insertAt
    by_cases hc : c = b
    · by_cases hy : y = x
      · simp [hc, hy]
      · simp [hc, hy, h.ok.logs.cur]
    · simp [hc, h.ok.logs.cur]
  · obtain ⟨hl, he, hi⟩ := h.ok.logs.outside c hc
    refine ⟨?_, he, hi⟩
    rw [hlog, if_neg, hl]
    rintro rfl
    exact absurd hb (Nat.not_lt.mpr hc)
  · rw [hinsts]
    exact h.ok.logs.body c
  · rw [hlog] at hl
    split at hl
    · next hc =>
      subst hc
      exact LogInv.reads_note (h.ok.logs.reads c) (by simp) l y w τ r hl
    · exact h.ok.logs.reads c l y w τ r hl
  · refine h.ok.entries.grow rfl rfl rfl (fun _ _ => rfl) (fun c p hp y u hu => ?_)
      fun c i hi => ⟨hi, fun hm => hinsts c ▸ hm⟩
    rw [hout, if_neg, hu]
    rintro ⟨rfl, -⟩
    -- a block that is left by an edge has its terminator, and `b` has none
    exact h.ok.graph.pred_terminated hp ht

theorem Ghost.Sound.terminate (h : g.Sound) (hb : b < g.size)
    (hr : g.builder.Reach b) {t : Terminator}
    (hs : ∀ s ∈ t.successors, s < g.size ∧ s ≠ 0 ∧ g.builder.isSealed s = false) :
    (g.builder.terminate b t : BuildM ε _) = .ok (g.terminate b t).builder ∧
      (g.terminate b t).Sound ∧ Grows g (g.terminate b t) ∧ (g.terminate b t).size = g.size ∧
      (∀ c, (g.terminate b t).term c = if c = b then some t else g.term c) ∧
      ∀ c, (g.terminate b t).builder.preds c =
        g.builder.preds c ++ (t.successors.filter (· == c)).map fun _ => b := by
  have hsize : (g.terminate b t).size = g.size := Function.modify_length _ _
  have hterm : ∀ c, (g.terminate b t).term c = if c = b then some t else g.term c :=
    Function.termAt_modify b t hb
  have hinsts : ∀ c, (g.terminate b t).builder.func.instsAt c = g.builder.func.instsAt c :=
    Function.instsAt_modify_term b t
  have hpreds : ∀ c, (g.terminate b t).builder.preds c =
      g.builder.preds c ++ (t.successors.filter (· == c)).map fun _ => b :=
    SsaBuilder.preds_terminated b t
  -- the new edges lead to blocks that are not sealed
  have hold : ∀ c, g.builder.isSealed c = true →
      (g.terminate b t).builder.preds c = g.builder.preds c := by
    intro c hc
    have : t.successors.filter (· == c) = [] := by
      rw [List.filter_eq_nil_iff]
      intro s hs'
      have := (hs s hs').2.2
      rintro he
      obtain rfl : s = c := by simpa using he
      simp [hc] at this
    rw [hpreds, this]
    simp
  have hgrow : Grows g (g.terminate b t) := by
    refine ⟨Nat.le_of_eq hsize.symm, rfl, rfl, rfl, fun c => ⟨[], by simp [Ghost.terminate]⟩,
      fun c hc => ⟨rfl, ?_⟩, fun c hc => ⟨hc, hold c hc⟩, fun c p hp => ?_, fun _ _ _ hd => hd,
      fun _ _ _ hτ => hτ, Nat.le_refl _⟩
    · rw [hterm]
      split
      · simp
      · exact hc
    · rw [hpreds]
      exact List.mem_append_left _ hp
  have hindexed : (g.terminate b t).builder.func.Indexed := h.ok.graph.indexed.modify fun _ => rfl
  refine ⟨SsaBuilder.terminate_ok h.ok.graph.indexed hb t, ⟨⟨⟨hindexed, h.ok.graph.entry,
    h.ok.graph.pos.trans_eq hsize.symm, fun c p hp => ?_, ?_, h.ok.graph.entrySealed,
    fun c hc => (h.ok.graph.sealedLt c hc).trans_eq hsize.symm⟩, ⟨?_, ?_, ?_, h.ok.values.params, ?_,
      h.ok.values.paramTypes⟩, ⟨h.ok.logs.cur, fun c hc => h.ok.logs.outside c (hsize.symm.le.trans hc),
      fun c => ?_, fun c i hi => ?_, fun c i hi => ?_, h.ok.logs.reads, h.ok.logs.nodup⟩, ?_⟩,
    DemandInv.grow h hgrow rfl, fun c hc => ?_⟩, hgrow, hsize, hterm, hpreds⟩
  · show p < (g.terminate b t).size ∧ c < (g.terminate b t).size ∧ (g.terminate b t).term p ≠ none
    rw [hsize, hterm]
    rw [hpreds] at hp
    rcases List.mem_append.mp hp with hp | hp
    · -- an edge that was there
      obtain ⟨hlt, hc, ht⟩ := h.ok.graph.edges c p hp
      refine ⟨hlt, hc, ?_⟩
      split
      · simp
      · exact ht
    -- a new edge
    · obtain ⟨s, hm, rfl⟩ := List.mem_map.mp hp
      obtain ⟨hm', he⟩ := List.mem_filter.mp hm
      obtain rfl : s = c := by simpa using he
      exact ⟨hb, (hs s hm').1, by simp⟩
  · rw [hpreds, h.ok.graph.entryPreds, List.nil_append, List.map_eq_nil_iff, List.filter_eq_nil_iff]
    intro s hs'
    simpa using (hs s hs').2.1
  · intro c i hi
    exact h.ok.values.ids c i (hinsts c ▸ hi)
  · intro c d i hi j hj
    exact h.ok.values.block c d i (hinsts c ▸ hi) j (hinsts d ▸ hj)
  · intro c
    rw [hinsts]
    exact h.ok.values.nodup c
  · intro c i hi
    exact h.ok.values.types c i (hinsts c ▸ hi)
  · rw [hinsts]
    exact h.ok.logs.body c
  · rw [hinsts]
    exact h.ok.logs.emitted c i hi
  · exact h.ok.logs.phis c i (hinsts c ▸ hi)
  · exact h.ok.entries.grow rfl rfl rfl (fun c hc => hold c (hc.resolve_right id))
      (fun _ _ _ _ _ hu => hu) fun c i hi => ⟨hinsts c ▸ hi, id⟩
  -- a block with a terminator is reached: `b` was, and edges are only added
  · have hreach : ∀ c, g.builder.Reach c → (g.terminate b t).builder.Reach c :=
      fun c ⟨π, hw⟩ => ⟨π, hw.mono fun p d hp => hgrow.preds d p hp⟩
    change (g.terminate b t).term c ≠ none at hc
    rw [hterm] at hc
    split at hc
    · next he => exact hreach c (he ▸ hr)
    · exact hreach c (h.reach c hc)

/-! ### Exact graphs -/

/-- No block has got a terminator twice: the recorded predecessors are those of the function. -/
structure Ghost.Exact (g : Ghost) : Prop extends Ghost.Sound g where
  preds : ∀ c, (g.builder.preds c).Perm (g.builder.func.predecessors c)

theorem Ghost.Exact.of_same {g' : Ghost} (h : g.Exact) (h' : g'.Sound) (hsize : g'.size = g.size)
    (hterm : ∀ c, g'.term c = g.term c) (hpreds : g'.builder.preds = g.builder.preds) :
    g'.Exact := by
  refine ⟨h', fun c => ?_⟩
  rw [hpreds, h.ok.graph.indexed.predecessors_congr h'.ok.graph.indexed hsize hterm]
  exact h.preds c

theorem Ghost.Exact.newBlock (h : g.Exact) : g.newBlock.Exact := by
  obtain ⟨h', -, hsize, hterm, hpreds⟩ := h.toSound.newBlock
  refine ⟨h', fun c => ?_⟩
  have hlast : g.newBlock.term g.size = none :=
    (hterm _).trans (Function.termAt_of_length_le (Nat.le_refl _))
  rw [hpreds, h'.ok.graph.indexed.predecessors_eq,
    show g.newBlock.builder.func.blocks.length = g.size + 1 from hsize, List.range_succ,
    List.flatMap_append, List.flatMap_singleton, show g.newBlock.builder.func.termAt g.size = none
    from hlast]
  simp only [show ∀ c, g.newBlock.builder.func.termAt c = g.term c from hterm]
  rw [← h.ok.graph.indexed.predecessors_eq]
  simpa [succsOfTerm] using h.preds c

theorem Ghost.Exact.terminate (h : g.Exact) (hb : b < g.size) (ht : g.term b = none)
    (hr : g.builder.Reach b) {t : Terminator}
    (hs : ∀ s ∈ t.successors, s < g.size ∧ s ≠ 0 ∧ g.builder.isSealed s = false) :
    (g.terminate b t).Exact := by
  obtain ⟨-, h', -, -, -, hpreds⟩ := h.toSound.terminate (ε := Empty) hb hr hs
  refine ⟨h', fun c => ?_⟩
  rw [hpreds]
  refine ((h.preds c).append_right _).trans ?_
  exact (h.ok.graph.indexed.predecessors_terminated t hb ht c).symm

end Calls

/-! ### A new builder -/

section Start

variable (name : String) (params : List (String × Ty)) (retTy : Option Ty)

theorem instsAt_new (b : BlockId) : (SsaBuilder.new name params retTy).func.instsAt b = [] := by
  unfold Function.instsAt SsaBuilder.new
  rcases b with - | b <;> simp

theorem termAt_new (b : BlockId) : (SsaBuilder.new name params retTy).func.termAt b = none := by
  unfold Function.termAt SsaBuilder.new
  rcases b with - | b <;> simp

/-- The last write of a name among the parameters is that of its last position. -/
theorem lastWrite_params (l : List ((String × Ty) × ℕ)) (x : String) :
    lastWrite x (l.map fun p => .write p.1.1 p.2) =
      (l.reverse.find? fun p => p.1.1 == x).map Prod.snd := by
  induction l with
  | nil => rfl
  | cons p l ih =>
    rw [List.map_cons, List.reverse_cons, List.find?_append, lastWrite, ih]
    by_cases hp : p.1.1 = x <;> cases hf : l.reverse.find? fun p => p.1.1 == x <;> simp [hp]

/-- The invariant holds of a new builder. -/
theorem Ghost.Sound.new : (Ghost.new name params retTy).Sound := by
  have hinsts : ∀ b, (Ghost.new name params retTy).builder.func.instsAt b = [] :=
    instsAt_new name params retTy
  have hterm : ∀ b, (Ghost.new name params retTy).builder.func.termAt b = none :=
    termAt_new name params retTy
  have hlog : ∀ b, ∀ e ∈ (Ghost.new name params retTy).log b, ∃ x v, e = .write x v := by
    intro b e he
    change e ∈ if b = 0 then _ else _ at he
    split at he
    · obtain ⟨p, -, rfl⟩ := List.mem_map.mp he
      exact ⟨_, _, rfl⟩
    · cases he
  have hnoinst : ∀ b, instsOf ((Ghost.new name params retTy).log b) = [] := fun b =>
    List.eq_nil_iff_forall_not_mem.mpr fun i hi => by
      obtain ⟨x, v, he⟩ := hlog b _ (mem_instsOf.mp hi)
      cases he
  have hindexed : (Ghost.new name params retTy).builder.func.Indexed := by
    intro k blk hk
    rcases k with - | k
    · obtain rfl := Option.some.inj hk
      rfl
    · cases hk
  refine ⟨⟨⟨hindexed, rfl, Nat.one_pos, fun b p hp => ?_, rfl, rfl, fun b hb => ?_⟩,
    ⟨fun b i hi => ?_, fun b c i hi => ?_, fun b => ?_, Nat.le_refl _, fun b i hi => ?_,
      fun v _ => rfl⟩,
    ⟨fun b x => ?_, fun b hb => ⟨?_, fun _ => rfl, rfl⟩, fun b => ?_, fun b i hi => ?_,
      fun b i hi => ?_, fun b l x v ty r hl => ?_, fun b => ?_⟩,
    ⟨fun b x v hd => ?_, fun b x y v hd => ?_, fun b x v hd => ?_, fun b x v hm => ?_⟩⟩,
    fun c y d hd => ?_, fun b hb => ?_⟩
  · cases hp
  · obtain rfl : b = 0 := by simpa [Ghost.new, SsaBuilder.new] using hb
    exact Nat.one_pos
  · rw [hinsts] at hi
    cases hi
  · rw [hinsts] at hi
    cases hi
  · rw [hinsts]
    exact List.nodup_nil
  · rw [hinsts] at hi
    cases hi
  · show (if b = 0 then _ else _) = _
    unfold Ghost.outDef defAfter
    by_cases hb : b = 0
    · subst hb
      rw [if_pos rfl, show (Ghost.new name params retTy).log 0 =
        params.zipIdx.map fun p => .write p.1.1 p.2 from rfl, lastWrite_params]
      simp [Ghost.new]
    · rw [if_neg hb, show (Ghost.new name params retTy).log b = [] from if_neg hb]
      rfl
  · refine if_neg (Nat.pos_iff_ne_zero.mp ?_)
    exact Nat.lt_of_lt_of_le Nat.one_pos hb
  · rw [hnoinst]
    rw [hinsts]
  · rw [hnoinst] at hi
    cases hi
  · rw [hinsts] at hi
    cases hi
  · obtain ⟨_, _, he⟩ := hlog b (.read x v ty) (by rw [hl]; simp)
    cases he
  · rw [hnoinst]
    exact List.nodup_nil
  -- no variable has been read
  · cases hd
  · cases hd
  · cases hd
  · cases hm
  · cases hd
  · exact absurd (hterm b) hb

theorem Ghost.Exact.new : (Ghost.new name params retTy).Exact := by
  have h := Ghost.Sound.new name params retTy
  refine ⟨h, fun b => .of_eq (Eq.symm (List.eq_nil_iff_forall_not_mem.mpr fun p hp => ?_))⟩
  rw [h.ok.graph.indexed.mem_predecessors, show (Ghost.new name params retTy).builder.func.termAt p
    = none from termAt_new name params retTy p] at hp
  simp [succsOfTerm] at hp

end Start

end Parser
end Chakobsa
