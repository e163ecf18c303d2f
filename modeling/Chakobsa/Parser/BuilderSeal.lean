import Chakobsa.Parser.BuilderCalls

/-!
# Reading and sealing

The two calls that create and fill phis. Both end, keep the invariant and only let the state
grow.
-/

namespace Chakobsa
namespace Parser

open Ir ExceptLemmas

/-- A sealed block with one predecessor and without phis. -/
def Ghost.NoPhis (g : Ghost) (b : BlockId) : Prop :=
  g.builder.isSealed b = true ∧ (∃ p, g.builder.preds b = [p]) ∧
    ∀ i ∈ g.builder.func.instsAt b, i.kind.isPhi = false

section Frame

variable {g g' : Ghost} {x : String} {ty : Ty} {Q : BlockId → Prop} {b : BlockId}
  {Open Open' : BlockId → String → ValueId → Prop} {Closing : BlockId → Prop}

theorem ReadFrame.grows (h : ReadFrame x ty Q g g') : Grows g g' :=
  ⟨Nat.le_of_eq h.length.symm, h.name, h.params, h.retTy, fun b => ⟨[], by simp [h.log]⟩,
    fun b hb => ⟨by rw [h.log], (h.term b).trans_ne hb⟩, fun b hb => ⟨h.isSealed ▸ hb, by rw [h.preds]⟩,
    fun b p hp => h.preds ▸ hp, h.entries, fun v ty hv ht => (h.types v hv).trans ht, h.nextValue⟩

theorem ReadFrame.noPhis (h : ReadFrame x ty Q g g') (hb : g.NoPhis b) : g'.NoPhis b := by
  obtain ⟨hs, hp, hi⟩ := hb
  obtain ⟨new, heq, -, hnew⟩ := h.insts b
  obtain rfl : new = [] := by
    by_contra hne
    exact hnew hne ⟨hs, hp⟩
  exact ⟨h.isSealed ▸ hs, h.preds ▸ hp, by rw [heq, List.append_nil]; exact hi⟩

theorem BuilderInv.openMono (h : BuilderInv g Open Closing)
    (hopen : ∀ c y w, Open c y w → Open' c y w) : BuilderInv g Open' Closing := by
  refine ⟨h.graph, h.values, h.logs, ⟨fun c y w hd => ?_, h.entries.inj, h.entries.copy,
    h.entries.incomplete⟩⟩
  obtain ⟨i, hi, hid, hlog, incoming, hk, hs⟩ := h.entries.phi c y w hd
  exact ⟨i, hi, hid, hlog, incoming, hk, hs.mono (fun ho => ho.imp_right (hopen c y w))
    (fun hs => ⟨hs, rfl⟩) fun _ _ _ hu => hu⟩

/-- The entry definitions found by a read were demanded. -/
theorem ReadFrame.demand (hf : ReadFrame x ty Q g g') (h : BuilderInv g Open Closing)
    (hdem : DemandInv g) (h' : BuilderInv g' Open' Closing) {g'' : Ghost} (hg : Grows g g'')
    (hentry : g''.entryDef = g'.entryDef)
    (htypes : g''.builder.valueTypes = g'.builder.valueTypes)
    (hQ : ∀ c, Q c → Demanded g'' x ty c) : DemandInv g'' := by
  intro c y d hd
  rw [hentry] at hd
  rcases hf.found c y d hd with hold | ⟨rfl, hq, hnone⟩
  · exact DemandInv.mono h hdem hg hold
  · refine ⟨ty, hQ c hq, fun v hv => ?_⟩
    subst hv
    obtain ⟨i, hi, rfl, hlog, -⟩ := h'.entries.phi c y v hd
    rw [htypes, h'.values.types c i hi]
    obtain ⟨new, heq, hnew, -⟩ := hf.insts c
    rw [heq, List.mem_append] at hi
    rcases hi with hi | hi
    · -- an instruction that was there would be the phi of another variable
      obtain ⟨z, hz⟩ := (h.logs.phis c i hi).resolve_left (hf.log ▸ hlog)
      obtain rfl := h'.entries.inj c y z i.id hd (hf.entries c z _ hz)
      simp [hnone] at hz
    · rw [(hnew i hi).2.1]

end Frame

section Read

variable {ε : Type} {g : Ghost} {b : BlockId} {x : String} {ty : Ty}

/-- A demand depends on the logs and the edges only. -/
theorem Demanded.congr {g g' : Ghost} {c : BlockId} (hlog : g'.log = g.log)
    (hpreds : g'.builder.preds = g.builder.preds) (h : Demanded g x ty c) :
    Demanded g' x ty c := by
  induction h with
  | read hl hw => exact .read (hlog ▸ hl) hw
  | pred _ hp hw ih => exact .pred ih (hpreds ▸ hp) (hlog ▸ hw)

theorem note_log (g : Ghost) (b : BlockId) (e : Event) (c : BlockId) :
    (g.note b e).log c = if c = b then g.log b ++ [e] else g.log c := rfl

/-- Noting a read keeps the invariant. -/
theorem BuilderInv.note {Open : BlockId → String → ValueId → Prop} {Closing : BlockId → Prop}
    (h : BuilderInv g Open Closing) (hb : b < g.size) {v : ValueId}
    (hv : g.outDef b x = some v) : BuilderInv (g.note b (.read x v ty)) Open Closing := by
  have hout : ∀ c y, (g.note b (.read x v ty)).outDef c y = g.outDef c y := by
    intro c y
    unfold Ghost.outDef
    rw [note_log]
    split
    · next hc =>
      subst hc
      exact defAfter_snoc_read
    · rfl
  have hinsts : ∀ c, instsOf ((g.note b (.read x v ty)).log c) = instsOf (g.log c) := by
    intro c
    rw [note_log]
    split
    · next hc =>
      subst hc
      simp
    · rfl
  refine ⟨h.graph, h.values, ⟨fun c y => (h.logs.cur c y).trans (hout c y).symm,
    fun c hc => ?_, fun c => (hinsts c).symm ▸ h.logs.body c,
    fun c i hi => h.logs.emitted c i (hinsts c ▸ hi),
    fun c i hi => (hinsts c).symm ▸ h.logs.phis c i hi, fun c l y w τ r hl => ?_,
    fun c => (hinsts c).symm ▸ h.logs.nodup c⟩, ?_⟩
  · obtain ⟨hl, he, hi⟩ := h.logs.outside c hc
    refine ⟨?_, he, hi⟩
    rw [note_log, if_neg, hl]
    rintro rfl
    exact absurd hb (Nat.not_lt.mpr hc)
  · rw [note_log] at hl
    split at hl
    · next hc =>
      subst hc
      refine LogInv.reads_note (h.logs.reads c) (fun y' w' τ' he => ?_) l y w τ r hl
      obtain ⟨rfl, rfl, rfl⟩ : x = y' ∧ v = w' ∧ ty = τ' := by simpa using he
      exact hv
    · exact h.logs.reads c l y w τ r hl
  · exact h.entries.grow rfl rfl rfl (fun _ _ => rfl) (fun c p _ y u hu => by rwa [hout])
      fun c i hi => ⟨hi, fun hm => hinsts c ▸ hm⟩

theorem Grows.note (ht : g.term b = none) (e : Event) : Grows g (g.note b e) := by
  refine ⟨Nat.le_refl _, rfl, rfl, rfl, fun c => ?_, fun c hc => ⟨?_, hc⟩, fun c hc => ⟨hc, rfl⟩,
    fun _ _ hp => hp, fun _ _ _ hd => hd, fun _ _ _ hτ => hτ, Nat.le_refl _⟩
  · rw [note_log]
    split
    · next hc =>
      subst hc
      exact ⟨_, rfl⟩
    · exact ⟨[], by simp⟩
  · rw [note_log, if_neg]
    rintro rfl
    exact hc ht

/-- `read_variable` in a block under construction. -/
theorem Ghost.Sound.read (h : g.Sound) (hb : b < g.size) (ht : g.term b = none) (x : String)
    (ty : Ty) :
    ∃ (v : ValueId) (g' : Ghost),
      (g.builder.read x b ty : BuildM ε _) = .ok (v, g'.builder) ∧ g'.Sound ∧ Grows g g' ∧
      SameGraph g g' ∧ g'.log = insertAt g.log b (g.log b ++ [.read x v ty]) ∧
      ∀ c, g.NoPhis c → g'.NoPhis c := by
  obtain ⟨⟨v, B'⟩, hok⟩ := read_total (ε := ε) (x := x) ty h.ok h.reach
    (fun _ hc => hc.elim) hb
  -- the demands once the read is noted
  have hclosed : ClosedBack g x (Demanded (g.note b (.read x v ty)) x ty) := by
    intro c p hc hp hw
    refine .pred hc hp ?_
    rw [note_log]
    split
    · next hpb => rw [lastWrite_snoc_read]; exact hpb ▸ hw
    · exact hw
  obtain ⟨g₁, rfl, h₁, hf, hv⟩ := readVariable_spec ty _ g _ _ _ b v B' h.ok (fun _ hc => hc.elim)
    hclosed (fun hn => .read (l := g.log b) (r := []) (v := v)
      (by rw [note_log, if_pos rfl]) (outDef_eq_none.mp hn).1) hb hok
  have hsize : g₁.size = g.size := hf.length
  have hgrow : Grows g (g₁.note b (.read x v ty)) :=
    hf.grows.trans (Grows.note ((hf.term b).trans ht) _)
  have hlog : (g₁.note b (.read x v ty)).log = (g.note b (.read x v ty)).log := by
    funext c
    rw [note_log, note_log, hf.log]
  exact ⟨v, g₁.note b (.read x v ty), hok, ⟨h₁.note (hb.trans_eq hsize.symm) hv,
    hf.demand h.ok h.demand h₁ hgrow rfl rfl fun c hc => hc.congr hlog hf.preds,
    hf.reachInv h.reach⟩, hgrow, ⟨hf.length, hf.term, hf.isSealed, hf.preds⟩, hlog,
    fun c hc => hf.noPhis hc⟩

end Read

/-! ### Sealing a block -/

section Seal

variable {ε : Type} {g : Ghost} {b : BlockId}

/-- The phis of `b` that still wait for their operands. -/
def Pending (b : BlockId) (pending : List (String × ValueId)) :
    BlockId → String → ValueId → Prop :=
  fun c y w => c = b ∧ (y, w) ∈ pending

/-- What filling in the pending phis of `b` changes. -/
structure FillFrame (g g' : Ghost) : Prop where
  grows : Grows g g'
  sameGraph : SameGraph g g'
  log : g'.log = g.log
  noPhis : ∀ c, g.NoPhis c → g'.NoPhis c

theorem fillPhis_spec {pending : List (String × ValueId)}
    (h : BuilderInv g (Pending b pending) (· = b)) (hdem : DemandInv g)
    (hreach : ReachInv g.builder) (hs : g.builder.isSealed b = false)
    (hpend : ∀ y w, (y, w) ∈ pending → g.entryDef b y = some (.phi w))
    (hinc : g.builder.incompletePhis b = []) :
    ∃ g' : Ghost, (SsaBuilder.fillPhis b g.builder pending : BuildM ε _) = .ok g'.builder ∧
      BuilderInv g' (fun _ _ _ => False) (· = b) ∧ DemandInv g' ∧ ReachInv g'.builder ∧
      g'.builder.incompletePhis b = [] ∧ FillFrame g g' := by
  induction pending generalizing g with
  | nil =>
    refine ⟨g, rfl, h.openMono ?_, hdem, hreach, hinc, .refl, ⟨rfl, fun _ => rfl, rfl, rfl⟩, rfl,
      fun _ hc => hc⟩
    rintro c y w ⟨-, hm⟩
    simp at hm
  | cons p pending ih =>
    obtain ⟨y, w⟩ := p
    have hd := hpend y w List.mem_cons_self
    obtain ⟨ty, hdemand, hty⟩ := hdem b y _ hd
    -- the first pending phi is the one that is open now, the others wait
    have hopen : BuilderInv g (WithOpen (Pending b pending) b y w) (· = b) := by
      refine h.openMono ?_
      rintro c z u ⟨rfl, hm⟩
      rcases List.mem_cons.mp hm with he | hm
      · obtain ⟨rfl, rfl⟩ := Prod.mk.inj he
        exact .inr ⟨rfl, rfl, rfl⟩
      · exact .inl ⟨rfl, hm⟩
    have hclosing : ∀ c, c = b → g.outDef c y ≠ none := by
      rintro c rfl hn
      simp [(outDef_eq_none.mp hn).2] at hd
    -- a read visits a block without a definition once, so the fuel is enough
    have hcard : (unknown g y).card * (g.size + 1) + g.size ≤ g.builder.readFuel := by
      have hle : (unknown g y).card ≤ g.size := by
        refine (Finset.card_filter_le _ _).trans ?_
        rw [Finset.card_range]
      have := Nat.mul_le_mul_right (g.size + 1) hle
      have hfuel : g.builder.readFuel = g.size * (g.size + 1) + 2 * (g.size + 1) := by
        unfold SsaBuilder.readFuel
        ring
      omega
    -- the operands are read, and the phi gets them
    obtain ⟨B₁, hB₁⟩ := addPhiOperands_total (ε := ε) (readVariable_spec ty _)
      (readVariable_total ty _) hopen hreach hclosing hd hcard
    obtain ⟨g₁, incoming, hf, h₁, hd₁, rfl, hinv⟩ := addPhiOperands_spec (readVariable_spec ty _) hopen
      hclosing (fun c p hc hp hw => Demanded.pred hc hp hw) hdemand hd (.inr rfl) hB₁
    have hgrow₁ : Grows g₁ (g₁.fill b w incoming) := by
      refine ⟨(Function.modify_length _ _).ge, rfl, rfl, rfl, fun c => ⟨[], by simp [Ghost.fill]⟩,
        fun c hc => ⟨rfl, (Function.termAt_modify_insts _ _ _).trans_ne hc⟩, fun c hc => ⟨hc, rfl⟩,
        fun _ _ hp => hp, fun _ _ _ hd => hd, fun _ _ _ hτ => hτ, Nat.le_refl _⟩
    have hgrow := hf.grows.trans hgrow₁
    have hdem₁ : DemandInv (g₁.fill b w incoming) := hf.demand hopen hdem h₁ hgrow rfl rfl
      fun c hc => hc.mono h.graph hgrow
    have hsame : SameGraph g (g₁.fill b w incoming) :=
      ⟨(Function.modify_length _ _).trans hf.length,
        fun c => (Function.termAt_modify_insts _ _ _).trans (hf.term c), hf.isSealed, hf.preds⟩
    have hreach₁ : ReachInv (g₁.fill b w incoming).builder := by
      refine hreach.grow (fun c => hsame.term c) fun c p hp => hgrow.preds c p hp
    have hnoPhis : ∀ c, g.NoPhis c → (g₁.fill b w incoming).NoPhis c := by
      intro c hc
      obtain ⟨hs₁, hp₁, hi₁⟩ := hf.noPhis hc
      refine ⟨hs₁, hp₁, fun i hi => ?_⟩
      change i ∈ (g₁.builder.filled b w incoming).func.instsAt c at hi
      rw [instsAt_filled (h₁.lt_of_entryDef hd₁), if_neg] at hi
      · exact hi₁ i hi
      · rintro rfl
        simp [hc.1] at hs
    -- then the rest, in the builder with this phi filled in
    obtain ⟨g₂, hB₂, h₂, hdem₂, hreach₂, hinc₂, hframe⟩ := ih hinv hdem₁ hreach₁
      (hsame.isSealed ▸ hs) (fun z u hm => hf.entries b z _ (hpend z u (List.mem_cons_of_mem _ hm)))
      ((hf.parked b (hclosing b rfl)).trans hinc)
    refine ⟨g₂, ?_, h₂, hdem₂, hreach₂, hinc₂, hgrow.trans hframe.grows,
      ⟨hframe.sameGraph.size.trans hsame.size,
        fun c => (hframe.sameGraph.term c).trans (hsame.term c),
        hframe.sameGraph.isSealed.trans hsame.isSealed,
        hframe.sameGraph.preds.trans hsame.preds⟩, hframe.log.trans hf.log,
      fun c hc => hframe.noPhis c (hnoPhis c hc)⟩
    simp only [SsaBuilder.fillPhis, hty w rfl, Comp.expect_some, ok_bind, hB₁]
    exact hB₂

/-- `seal_block`. -/
theorem Ghost.Sound.sealBlock (h : g.Sound) (hb : b < g.size)
    (hs : g.builder.isSealed b = false) :
    ∃ g' : Ghost, (g.builder.sealBlock b : BuildM ε _) = .ok g'.builder ∧ g'.Sound ∧ Grows g g' ∧
      g'.size = g.size ∧ (∀ c, g'.term c = g.term c) ∧ g'.builder.preds = g.builder.preds ∧
      g'.builder.isSealed = insertAt g.builder.isSealed b true ∧ g'.log = g.log ∧
      (∀ c, g.NoPhis c → g'.NoPhis c) ∧
      (g.builder.incompletePhis b = [] → g'.builder.func = g.builder.func) := by
  set pending := g.builder.incompletePhis b with hpending
  -- first the phis that were waiting are taken out
  let g₀ : Ghost := { g with builder :=
    { g.builder with incompletePhis := insertAt g.builder.incompletePhis b [] } }
  have hinc₀ : ∀ c, g₀.builder.incompletePhis c =
      if c = b then [] else g.builder.incompletePhis c := fun _ => rfl
  have h₀ : BuilderInv g₀ (Pending b pending) (· = b) := by
    refine ⟨h.ok.graph.congr rfl rfl rfl, h.ok.values.congr rfl rfl rfl, ⟨h.ok.logs.cur,
      fun c hc => ?_, h.ok.logs.body, h.ok.logs.emitted, h.ok.logs.phis, h.ok.logs.reads,
      h.ok.logs.nodup⟩,
      ⟨fun c y w hd => ?_, h.ok.entries.inj, h.ok.entries.copy, fun c y w hm => ?_⟩⟩
    · obtain ⟨hl, he, hi⟩ := h.ok.logs.outside c hc
      refine ⟨hl, he, ?_⟩
      rw [hinc₀, hi]
      split <;> rfl
    · obtain ⟨i, hi, hid, hlog, incoming, hk, hst⟩ := h.ok.entries.phi c y w hd
      refine ⟨i, hi, hid, hlog, incoming, hk, ?_⟩
      rcases hst with ⟨hp | hp, rfl⟩ | ⟨hp | hp, hm⟩
      · refine .inl ⟨?_, rfl⟩
        rw [hinc₀]
        split
        · next hc =>
          subst hc
          exact .inr ⟨rfl, hp⟩
        · exact .inl hp
      · exact hp.elim
      · exact .inr ⟨.inl hp, hm⟩
      · exact hp.elim
    · rw [hinc₀] at hm
      split at hm
      · simp at hm
      · exact h.ok.entries.incomplete c y w hm
  have hgrow₀ : Grows g g₀ := ⟨Nat.le_refl _, rfl, rfl, rfl, fun c => ⟨[], by simp [g₀]⟩,
    fun _ hc => ⟨rfl, hc⟩, fun _ hc => ⟨hc, rfl⟩, fun _ _ hp => hp, fun _ _ _ hd => hd,
    fun _ _ _ hτ => hτ, Nat.le_refl _⟩
  -- then they are filled in, while the block still counts as open
  obtain ⟨g₁, hB₁, h₁, hdem₁, hreach₁, hinc₁, hframe⟩ := fillPhis_spec (ε := ε) h₀
    (DemandInv.grow h hgrow₀ rfl) h.reach hs
    (fun y w hm => (h.ok.entries.incomplete b y w hm).1) (by rw [hinc₀, if_pos rfl])
  -- and only then the block is marked as sealed
  let g₂ : Ghost := { g₁ with builder :=
    { g₁.builder with isSealed := insertAt g₁.builder.isSealed b true } }
  have hseal₂ : ∀ c, g₂.builder.isSealed c = if c = b then true else g₁.builder.isSealed c :=
    fun _ => rfl
  have hsize₁ : g₁.size = g.size := hframe.sameGraph.size
  have hgrow₂ : Grows g₁ g₂ := by
    refine ⟨Nat.le_refl _, rfl, rfl, rfl, fun c => ⟨[], by simp [g₂]⟩,
      fun _ hc => ⟨rfl, hc⟩, fun c hc => ⟨?_, rfl⟩, fun _ _ hp => hp, fun _ _ _ hd => hd,
      fun _ _ _ hτ => hτ, Nat.le_refl _⟩
    rw [hseal₂, hc]
    split <;> rfl
  have hgrow := (hgrow₀.trans hframe.grows).trans hgrow₂
  refine ⟨g₂, ?_, ⟨⟨⟨h₁.graph.indexed, h₁.graph.entry, h₁.graph.pos, h₁.graph.edges,
    h₁.graph.entryPreds, ?_, fun c hc => ?_⟩, h₁.values.congr rfl rfl rfl,
    ⟨h₁.logs.cur, h₁.logs.outside, h₁.logs.body, h₁.logs.emitted, h₁.logs.phis, h₁.logs.reads,
      h₁.logs.nodup⟩,
    ⟨fun c y w hd => ?_, h₁.entries.inj, fun c y w hd => ?_, fun c y w hm => ?_⟩⟩,
    fun c y d hd => ?_, hreach₁⟩, hgrow, hsize₁, hframe.sameGraph.term, hframe.sameGraph.preds, ?_,
    hframe.log, fun c hc => ?_, fun hnil => ?_⟩
  · simp only [SsaBuilder.sealBlock]
    rw [show SsaBuilder.fillPhis b { g.builder with
      incompletePhis := insertAt g.builder.incompletePhis b [] } (g.builder.incompletePhis b) =
        (.ok g₁.builder : BuildM ε _) from hB₁]
    rfl
  · rw [hseal₂, h₁.graph.entrySealed]
    split <;> rfl
  · rw [hseal₂] at hc
    split at hc
    · next he => exact he ▸ hb.trans_eq hsize₁.symm
    · exact h₁.graph.sealedLt c hc
  · obtain ⟨i, hi, hid, hlog, incoming, hk, hst⟩ := h₁.entries.phi c y w hd
    refine ⟨i, hi, hid, hlog, incoming, hk, ?_⟩
    rcases hst with ⟨hp | hp, rfl⟩ | ⟨hp, hm⟩
    · exact .inl ⟨.inl hp, rfl⟩
    · exact hp.elim
    · refine .inr ⟨.inl ?_, hm⟩
      rw [hseal₂]
      split
      · rfl
      · next hne => exact hp.resolve_right hne
  · obtain ⟨hsc, p, hp, ho⟩ := h₁.entries.copy c y w hd
    exact ⟨(hgrow₂.isSealed c hsc).1, p, hp, ho⟩
  · obtain ⟨he, hsc⟩ := h₁.entries.incomplete c y w hm
    refine ⟨he, ?_⟩
    rw [hseal₂, if_neg, hsc]
    rintro rfl
    change (y, w) ∈ g₁.builder.incompletePhis c at hm
    simp [hinc₁] at hm
  · exact DemandInv.mono h₁ hdem₁ hgrow₂ hd
  · show insertAt g₁.builder.isSealed b true = _
    rw [hframe.sameGraph.isSealed]
  · obtain ⟨hs₁, hp₁, hi₁⟩ := hframe.noPhis c hc
    exact ⟨(hgrow₂.isSealed c hs₁).1, hp₁, hi₁⟩
  · -- nothing was pending
    rw [hnil] at hB₁
    have := Except.ok.inj hB₁
    show g₁.builder.func = _
    rw [← this]

end Seal

end Parser
end Chakobsa
