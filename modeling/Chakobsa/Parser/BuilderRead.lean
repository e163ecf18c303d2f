import Chakobsa.Parser.BuilderInv

/-!
# Reading a variable

The recursion of `read_variable` is made of three moves: a new phi is bound in a block
(`Ghost.addPhi`), a phi gets its operands (`Ghost.fill`), a block takes over the definition of its
only predecessor (`Ghost.copyDef`). Each keeps `BuilderInv`, and from them `readVariable_spec`
follows by induction on the fuel: reading returns the definition of the variable at the end of
the block, and all it changes is described by `ReadFrame`.
-/

namespace Chakobsa
namespace Parser

open Ir ExceptLemmas

/-- A further phi whose operands are being read. -/
def WithOpen (Open : BlockId → String → ValueId → Prop) (b : BlockId) (x : String) (v : ValueId) :
    BlockId → String → ValueId → Prop :=
  fun c y w => Open c y w ∨ c = b ∧ y = x ∧ w = v

/-- A further entry definition. -/
def setEntry (e : BlockId → String → Option EntryDef) (b : BlockId) (x : String) (d : EntryDef) :
    BlockId → String → Option EntryDef :=
  insertAt e b (insertAt (e b) x (some d))

theorem setEntry_apply (e : BlockId → String → Option EntryDef) (b : BlockId) (x : String)
    (d : EntryDef) (c : BlockId) (y : String) :
    setEntry e b x d c y = if c = b ∧ y = x then some d else e c y := by
  unfold setEntry insertAt
  by_cases hc : c = b
  · subst hc
    by_cases hy : y = x <;> simp [hy]
  · simp [hc]

namespace Ghost

/-- A new phi for `x` in `b`. -/
def addPhi (g : Ghost) (b : BlockId) (x : String) (ty : Ty) : Ghost where
  builder := (g.builder.emitted b ty (.phi [])).writeVariable x b g.builder.nextValue
  log := g.log
  entryDef := setEntry g.entryDef b x (.phi g.builder.nextValue)

/-- The definition `v` of the only predecessor of `b`. -/
def copyDef (g : Ghost) (b : BlockId) (x : String) (v : ValueId) : Ghost where
  builder := g.builder.writeVariable x b v
  log := g.log
  entryDef := setEntry g.entryDef b x (.copy v)

/-- The operands of the phi `v` in `b`. -/
def fill (g : Ghost) (b : BlockId) (v : ValueId) (incoming : List (BlockId × ValueId)) : Ghost :=
  { g with builder := g.builder.filled b v incoming }

/-- The phi `v` for `x` waits for `b` to be sealed. -/
def park (g : Ghost) (b : BlockId) (x : String) (v : ValueId) : Ghost :=
  { g with builder := g.builder.park b x v }

end Ghost

section Moves

variable {g : Ghost} {Open : BlockId → String → ValueId → Prop} {Closing : BlockId → Prop}
  {b : BlockId} {x : String} {ty : Ty} {v : ValueId}

/-! ### Definitions only grow -/

/-- Nothing is written in the block and nothing is known at its entry. -/
theorem outDef_eq_none : g.outDef b x = none ↔
    lastWrite x (g.log b) = none ∧ g.entryDef b x = none := by
  unfold Ghost.outDef defAfter
  cases lastWrite x (g.log b) <;> cases g.entryDef b x <;> simp

theorem defAfter_mono {e e' : String → Option EntryDef} (h : ∀ y d, e y = some d → e' y = some d)
    {l : List Event} {y : String} {w : ValueId} (hd : defAfter e l y = some w) :
    defAfter e' l y = some w := by
  unfold defAfter at hd ⊢
  cases hl : lastWrite y l with
  | some u => simpa [hl] using hd
  | none =>
    simp only [hl, Option.none_or, Option.map_eq_some_iff] at hd ⊢
    obtain ⟨d, hd, rfl⟩ := hd
    exact ⟨d, h y d hd, rfl⟩

/-- The entry definitions of `g` are among those of `g'`, and the logs are the same. -/
theorem outDef_mono (g' : Ghost) (hlog : g'.log = g.log)
    (hentry : ∀ c y d, g.entryDef c y = some d → g'.entryDef c y = some d) {c : BlockId}
    {y : String} {w : ValueId} (hd : g.outDef c y = some w) : g'.outDef c y = some w := by
  unfold Ghost.outDef at hd ⊢
  rw [hlog]
  exact defAfter_mono (fun y d => hentry c y d) hd

theorem setEntry_mono {d : EntryDef} (hnone : g.entryDef b x = none) :
    ∀ c y e, g.entryDef c y = some e → setEntry g.entryDef b x d c y = some e := by
  intro c y e he
  rw [setEntry_apply, if_neg, he]
  rintro ⟨rfl, rfl⟩
  simp [hnone] at he

theorem outDef_setEntry {B : SsaBuilder} {d : EntryDef} (hnone : g.outDef b x = none)
    (c : BlockId) (y : String) :
    Ghost.outDef ⟨B, g.log, setEntry g.entryDef b x d⟩ c y =
      if c = b ∧ y = x then some d.val else g.outDef c y := by
  obtain ⟨hw, he⟩ := outDef_eq_none.mp hnone
  unfold Ghost.outDef defAfter
  simp only [setEntry_apply]
  split
  · next h =>
    obtain ⟨rfl, rfl⟩ := h
    simp [hw]
  · rfl

theorem PhiState.mono {g' : Ghost} {Open' : BlockId → String → ValueId → Prop} {c : BlockId}
    {y : String} {w : ValueId} {incoming : List (BlockId × ValueId)}
    (h : PhiState g Open Closing c y w incoming)
    (hopen : (y, w) ∈ g.builder.incompletePhis c ∨ Open c y w →
      (y, w) ∈ g'.builder.incompletePhis c ∨ Open' c y w)
    (hseal : g.builder.isSealed c = true ∨ Closing c →
      (g'.builder.isSealed c = true ∨ Closing c) ∧ g'.builder.preds c = g.builder.preds c)
    (hout : ∀ p ∈ g.builder.preds c, ∀ u, g.outDef p y = some u → g'.outDef p y = some u) :
    PhiState g' Open' Closing c y w incoming := by
  rcases h with ⟨h, rfl⟩ | ⟨h, hm⟩
  · exact .inl ⟨hopen h, rfl⟩
  · obtain ⟨hs, hp⟩ := hseal h
    refine .inr ⟨hs, ?_⟩
    unfold PhiMatches at hm ⊢
    rw [hp]
    refine List.forall₂_iff_get.mpr ⟨hm.length_eq, fun i h₁ h₂ => ?_⟩
    obtain ⟨he, hd⟩ := (List.forall₂_iff_get.mp hm).2 i h₁ h₂
    exact ⟨he, hout _ (List.get_mem _ _) _ hd⟩

/-- A phi's id is below the next value. -/
theorem BuilderInv.phi_lt (h : BuilderInv g Open Closing) (hd : g.entryDef b x = some (.phi v)) :
    v < g.builder.nextValue := by
  obtain ⟨i, hi, rfl, -⟩ := h.entries.phi b x v hd
  exact (h.values.ids b i hi).2

theorem BuilderInv.lt_of_entryDef (h : BuilderInv g Open Closing) {d : EntryDef}
    (hd : g.entryDef b x = some d) : b < g.builder.func.blocks.length := by
  by_contra hn
  have := (h.logs.outside b (Nat.le_of_not_lt hn)).2.1 x
  simp [this] at hd

/-! ### The moves keep the invariant -/

theorem BuilderInv.addPhi (h : BuilderInv g Open Closing) (ty : Ty)
    (hb : b < g.builder.func.blocks.length) (hnone : g.outDef b x = none) :
    BuilderInv (g.addPhi b x ty) (WithOpen Open b x g.builder.nextValue) Closing := by
  obtain ⟨-, hentry⟩ := outDef_eq_none.mp hnone
  have hmono := setEntry_mono (d := .phi g.builder.nextValue) hentry
  -- an entry definition is new only for `x` in `b`, which had none, so what was defined stays so
  have hout : ∀ c y w, g.outDef c y = some w → (g.addPhi b x ty).outDef c y = some w :=
    fun c y w => outDef_mono (g := g) (g.addPhi b x ty) rfl hmono
  have hinsts : ∀ c, (g.addPhi b x ty).builder.func.instsAt c =
      if c = b then g.builder.func.instsAt b ++ [⟨g.builder.nextValue, ty, .phi []⟩]
      else g.builder.func.instsAt c := instsAt_emitted hb ty _
  have hlen : (g.addPhi b x ty).builder.func.blocks.length = g.builder.func.blocks.length :=
    Function.modify_length _ _
  have hmem : ∀ c, ∀ i ∈ g.builder.func.instsAt c, i ∈ (g.addPhi b x ty).builder.func.instsAt c := by
    intro c i hi
    rw [hinsts]
    split
    · next hc => exact List.mem_append_left _ (hc ▸ hi)
    · exact hi
  refine ⟨(h.graph.emitted (b := b) ty (.phi [])).congr rfl rfl rfl,
    (h.values.emitted hb ty (.phi [])).congr rfl rfl rfl, ⟨fun c y => ?_, fun c hc => ?_,
    fun c => ?_, fun c i hi => hmem c i (h.logs.emitted c i hi), fun c i hi => ?_,
    fun c l y w τ r hl => ?_, h.logs.nodup⟩, ⟨fun c y w hd => ?_, fun c y z w hy hz => ?_,
    fun c y w hd => ?_, fun c y w hm => ?_⟩⟩
  · rw [Ghost.addPhi, outDef_setEntry hnone]
    show insertAt g.builder.currentDef b (insertAt (g.builder.currentDef b) x _) c y = _
    unfold insertAt
    by_cases hc : c = b
    · subst hc
      by_cases hy : y = x
      · simp [hy, EntryDef.val]
      · simp [hy, h.logs.cur]
    · simp [hc, h.logs.cur]
  · rw [hlen] at hc
    obtain ⟨hl, he, hi⟩ := h.logs.outside c hc
    refine ⟨hl, fun y => ?_, hi⟩
    show setEntry _ _ _ _ _ _ = _
    rw [setEntry_apply, if_neg, he]
    rintro ⟨rfl, -⟩
    exact absurd hb (Nat.not_lt.mpr hc)
  · rw [hinsts]
    split
    · next hc =>
      subst hc
      rw [List.filter_append, h.logs.body]
      simp [Ghost.addPhi, InstKind.isPhi]
    · exact h.logs.body c
  · rw [hinsts] at hi
    split at hi
    · next hc =>
      subst hc
      rcases List.mem_append.mp hi with hi | hi
      · exact (h.logs.phis c i hi).imp_right (.imp fun y hy => hmono c y _ hy)
      · obtain rfl : i = ⟨g.builder.nextValue, ty, .phi []⟩ := by simpa using hi
        exact .inr ⟨x, by simp [Ghost.addPhi, setEntry_apply]⟩
    · exact (h.logs.phis c i hi).imp_right (.imp fun y hy => hmono c y _ hy)
  · exact defAfter_mono (fun y d => hmono c y d) (h.logs.reads c l y w τ r hl)
  · change setEntry _ _ _ _ c y = _ at hd
    rw [setEntry_apply] at hd
    split at hd
    · next hcy =>
      obtain ⟨rfl, rfl⟩ := hcy
      obtain rfl : g.builder.nextValue = w := by simpa using hd
      -- the new phi: still without operands, and open
      refine ⟨⟨g.builder.nextValue, ty, .phi []⟩, by rw [hinsts]; simp, rfl, fun hm => ?_, [],
        rfl, .inl ⟨.inr (.inr ⟨rfl, rfl, rfl⟩), rfl⟩⟩
      exact absurd (h.values.ids c _ (h.logs.emitted c _ hm)).2 (Nat.lt_irrefl _)
    · obtain ⟨i, hi, hid, hlog, incoming, hk, hs⟩ := h.entries.phi c y w hd
      exact ⟨i, hmem c i hi, hid, hlog, incoming, hk,
        hs.mono (fun ho => ho.imp_right .inl) (fun hs => ⟨hs, rfl⟩) fun p _ u => hout p y u⟩
  · change setEntry _ _ _ _ c y = _ at hy
    change setEntry _ _ _ _ c z = _ at hz
    rw [setEntry_apply] at hy hz
    -- the id of the new phi is not that of an older one
    split at hy <;> split at hz
    · next h₁ h₂ => exact h₁.2.trans h₂.2.symm
    · obtain rfl : g.builder.nextValue = w := by simpa using hy
      exact absurd (h.phi_lt hz) (Nat.lt_irrefl _)
    · obtain rfl : g.builder.nextValue = w := by simpa using hz
      exact absurd (h.phi_lt hy) (Nat.lt_irrefl _)
    · exact h.entries.inj c y z w hy hz
  · change setEntry _ _ _ _ c y = _ at hd
    rw [setEntry_apply] at hd
    split at hd
    · simp at hd
    · obtain ⟨hs, p, hp, ho⟩ := h.entries.copy c y w hd
      exact ⟨hs, p, hp, hout p y w ho⟩
  · obtain ⟨he, hs⟩ := h.entries.incomplete c y w hm
    exact ⟨hmono c y _ he, hs⟩

theorem BuilderInv.copyDef (h : BuilderInv g Open Closing) {p : BlockId}
    (hseal : g.builder.isSealed b = true) (hpreds : g.builder.preds b = [p])
    (hp : g.outDef p x = some v) (hnone : g.outDef b x = none) :
    BuilderInv (g.copyDef b x v) Open Closing := by
  obtain ⟨-, hentry⟩ := outDef_eq_none.mp hnone
  have hmono := setEntry_mono (d := .copy v) hentry
  have hout : ∀ c y w, g.outDef c y = some w → (g.copyDef b x v).outDef c y = some w :=
    fun c y w => outDef_mono (g := g) (g.copyDef b x v) rfl hmono
  refine ⟨h.graph.congr rfl rfl rfl, h.values.congr rfl rfl rfl, ⟨fun c y => ?_, fun c hc => ?_, h.logs.body, h.logs.emitted,
      fun c i hi => ?_, fun c l y w τ r hl => ?_, h.logs.nodup⟩, ⟨fun c y w hd => ?_, fun c y z w hy hz => ?_,
      fun c y w hd => ?_, fun c y w hm => ?_⟩⟩
  · -- the builder's map and the log say the same of `x` in `b`
    rw [Ghost.copyDef, outDef_setEntry hnone]
    show insertAt g.builder.currentDef b (insertAt (g.builder.currentDef b) x _) c y = _
    unfold insertAt
    by_cases hc : c = b
    · subst hc
      by_cases hy : y = x
      · simp [hy, EntryDef.val]
      · simp [hy, h.logs.cur]
    · simp [hc, h.logs.cur]
  · obtain ⟨hl, he, hi⟩ := h.logs.outside c hc
    refine ⟨hl, fun y => ?_, hi⟩
    show setEntry _ _ _ _ _ _ = _
    rw [setEntry_apply, if_neg, he]
    rintro ⟨rfl, -⟩
    exact absurd (h.graph.sealedLt c hseal) (Nat.not_lt.mpr hc)
  · exact (h.logs.phis c i hi).imp_right (.imp fun y hy => hmono c y _ hy)
  · exact defAfter_mono (fun y d => hmono c y d) (h.logs.reads c l y w τ r hl)
  · change setEntry _ _ _ _ c y = _ at hd
    rw [setEntry_apply] at hd
    split at hd
    · simp at hd
    · obtain ⟨i, hi, hid, hlog, incoming, hk, hs⟩ := h.entries.phi c y w hd
      exact ⟨i, hi, hid, hlog, incoming, hk,
        hs.mono id (fun hs => ⟨hs, rfl⟩) fun p _ u => hout p y u⟩
  · change setEntry _ _ _ _ c y = _ at hy
    change setEntry _ _ _ _ c z = _ at hz
    rw [setEntry_apply] at hy hz
    split at hy
    · simp at hy
    · split at hz
      · simp at hz
      · exact h.entries.inj c y z w hy hz
  · change setEntry _ _ _ _ c y = _ at hd
    rw [setEntry_apply] at hd
    split at hd
    · -- the new entry copies what the only predecessor ends with
      next hcy =>
      obtain ⟨rfl, rfl⟩ := hcy
      obtain rfl : v = w := by simpa using hd
      exact ⟨hseal, p, hpreds, hout p y v hp⟩
    · obtain ⟨hs, q, hq, ho⟩ := h.entries.copy c y w hd
      exact ⟨hs, q, hq, hout q y w ho⟩
  · obtain ⟨he, hs⟩ := h.entries.incomplete c y w hm
    exact ⟨hmono c y _ he, hs⟩

/-- A phi that is parked need not stay open. -/
theorem BuilderInv.park (h : BuilderInv g (WithOpen Open b x v) Closing)
    (hd : g.entryDef b x = some (.phi v)) (hseal : g.builder.isSealed b = false) :
    BuilderInv (g.park b x v) Open Closing := by
  have hb := h.lt_of_entryDef hd
  have hparked : ∀ c, (g.park b x v).builder.incompletePhis c =
      if c = b then g.builder.incompletePhis b ++ [(x, v)] else g.builder.incompletePhis c :=
    fun c => rfl
  refine ⟨h.graph.congr rfl rfl rfl, h.values.congr rfl rfl rfl, ⟨h.logs.cur, fun c hc => ?_, h.logs.body, h.logs.emitted, h.logs.phis,
      h.logs.reads, h.logs.nodup⟩, ⟨fun c y w hc => ?_, h.entries.inj, h.entries.copy, fun c y w hm => ?_⟩⟩
  · obtain ⟨hl, he, hi⟩ := h.logs.outside c hc
    refine ⟨hl, he, ?_⟩
    rw [hparked, if_neg, hi]
    rintro rfl
    exact absurd hb (Nat.not_lt.mpr hc)
  · obtain ⟨i, hi, hid, hlog, incoming, hk, hs⟩ := h.entries.phi c y w hc
    refine ⟨i, hi, hid, hlog, incoming, hk,
      hs.mono (fun ho => ?_) (fun hs => ⟨hs, rfl⟩) fun p _ u hu => hu⟩
    rw [hparked]
    rcases ho with ho | ho | ⟨rfl, rfl, rfl⟩
    · left
      split
      · next hcb => exact List.mem_append_left _ (hcb ▸ ho)
      · exact ho
    · exact .inr ho
    · left
      simp
  · rw [hparked] at hm
    split at hm
    · next hcb =>
      subst hcb
      rcases List.mem_append.mp hm with hm | hm
      · exact h.entries.incomplete c y w hm
      · obtain ⟨rfl, rfl⟩ : y = x ∧ w = v := by simpa using hm
        exact ⟨hd, hseal⟩
    · exact h.entries.incomplete c y w hm

/-- A phi whose operands are the definitions at the end of the predecessors need not stay open. -/
theorem BuilderInv.fill (h : BuilderInv g (WithOpen Open b x v) Closing)
    (hd : g.entryDef b x = some (.phi v))
    (hseal : g.builder.isSealed b = true ∨ Closing b) {incoming : List (BlockId × ValueId)}
    (hm : PhiMatches g b x incoming) : BuilderInv (g.fill b v incoming) Open Closing := by
  have hb := h.lt_of_entryDef hd
  have hinsts := instsAt_filled hb v incoming
  obtain ⟨i₀, hi₀, hid₀, hlog₀, inc₀, hk₀, -⟩ := h.entries.phi b x v hd
  -- the phi is the only instruction with its id
  have huniq : ∀ c, ∀ i ∈ g.builder.func.instsAt c, i.id = v → c = b ∧ i = i₀ := by
    intro c i hi hid
    obtain rfl : c = b := h.values.block c b i hi i₀ hi₀ (hid.trans hid₀.symm)
    exact ⟨rfl, List.inj_on_of_nodup_map (h.values.nodup c) hi hi₀ (hid.trans hid₀.symm)⟩
  have hkeep : ∀ c, ∀ i ∈ g.builder.func.instsAt c, i.id ≠ v →
      i ∈ (g.fill b v incoming).builder.func.instsAt c := by
    intro c i hi hne
    show i ∈ (g.builder.filled b v incoming).func.instsAt c
    rw [hinsts]
    split
    · next hc =>
      subst hc
      exact List.mem_map.mpr ⟨i, hi, if_neg hne⟩
    · exact hi
  refine ⟨h.graph.filled v incoming, h.values.filled hb v incoming, ⟨h.logs.cur, fun c hc => ?_,
    fun c => ?_, fun c i hi => ?_, fun c i hi => ?_, h.logs.reads, h.logs.nodup⟩,
    ⟨fun c y w hc => ?_, h.entries.inj, h.entries.copy, h.entries.incomplete⟩⟩
  · exact h.logs.outside c (by rwa [← Function.modify_length (f := g.builder.func) b])
  · show ((g.builder.filled b v incoming).func.instsAt c).filter _ = _
    rw [hinsts]
    split
    · next hc =>
      subst hc
      refine Eq.trans ?_ (h.logs.body c)
      rw [List.filter_map]
      -- what is changed is a phi before and after
      have hsame : ∀ i ∈ g.builder.func.instsAt c,
          ((!·.kind.isPhi) ∘ fun i : Instruction =>
            if i.id = v then { i with kind := .phi incoming } else i) i = !i.kind.isPhi := by
        intro i hi
        by_cases hid : i.id = v
        · obtain ⟨-, rfl⟩ := huniq c i hi hid
          simp [hid, hk₀, InstKind.isPhi]
        · simp [hid]
      rw [List.filter_congr hsame]
      refine (List.map_congr_left fun i hi => if_neg fun hid => ?_).trans (List.map_id _)
      obtain ⟨hi, hphi⟩ := List.mem_filter.mp hi
      obtain ⟨-, rfl⟩ := huniq c i hi hid
      simp [hk₀, InstKind.isPhi] at hphi
    · exact h.logs.body c
  · have hi' := h.logs.emitted c i hi
    refine hkeep c i hi' fun hid => ?_
    obtain ⟨rfl, rfl⟩ := huniq c i hi' hid
    exact hlog₀ hi
  · change i ∈ (g.builder.filled b v incoming).func.instsAt c at hi
    rw [hinsts] at hi
    split at hi
    · next hc =>
      subst hc
      obtain ⟨j, hj, rfl⟩ := List.mem_map.mp hi
      by_cases hid : j.id = v
      · have : (if j.id = v then { j with kind := .phi incoming } else j).id = v := by
          rw [if_pos hid]
          exact hid
        exact .inr ⟨x, this.symm ▸ hd⟩
      · simp only [if_neg hid]
        exact h.logs.phis c j hj
    · exact h.logs.phis c i hi
  · obtain ⟨i, hi, hid, hlog, inc, hk, hs⟩ := h.entries.phi c y w hc
    by_cases hw : w = v
    · subst hw
      obtain ⟨rfl, rfl⟩ := huniq c i hi hid
      obtain rfl := h.entries.inj c y x w hc hd
      refine ⟨{ i with kind := .phi incoming }, ?_, hid, fun hm => ?_, incoming, rfl,
        .inr ⟨hseal, hm⟩⟩
      · show _ ∈ (g.builder.filled c w incoming).func.instsAt c
        rw [hinsts, if_pos rfl]
        exact List.mem_map.mpr ⟨i, hi, if_pos hid⟩
      · -- a logged instruction with this id would be the phi itself
        have hmem := h.logs.emitted c _ hm
        have := (huniq c _ hmem hid).2
        exact hlog (this ▸ hm)
    · refine ⟨i, hkeep c i hi (hid ▸ hw), hid, hlog, inc, hk,
        hs.mono (fun ho => ?_) (fun hs => ⟨hs, rfl⟩) fun p _ u hu => hu⟩
      rcases ho with ho | ho | ⟨-, -, rfl⟩
      · exact .inl ho
      · exact .inr ho
      · exact absurd rfl hw

/-- A phi in a sealed block without predecessors has all its operands. -/
theorem BuilderInv.closeEmpty (h : BuilderInv g (WithOpen Open b x v) Closing)
    (hseal : g.builder.isSealed b = true) (hpreds : g.builder.preds b = []) :
    BuilderInv g Open Closing := by
  refine ⟨h.graph, h.values, h.logs, ⟨fun c y w hc => ?_, h.entries.inj, h.entries.copy,
    h.entries.incomplete⟩⟩
  obtain ⟨i, hi, hid, hlog, inc, hk, hs⟩ := h.entries.phi c y w hc
  refine ⟨i, hi, hid, hlog, inc, hk, ?_⟩
  rcases hs with ⟨ho | ho | ⟨rfl, rfl, rfl⟩, rfl⟩ | hs
  · exact .inl ⟨.inl ho, rfl⟩
  · exact .inl ⟨.inr ho, rfl⟩
  · exact .inr ⟨.inl hseal, by simp [PhiMatches, hpreds]⟩
  · exact .inr hs

end Moves

/-! ### The recursion -/

/-- The blocks in `Q` are closed under going to a predecessor that does not write `x`. -/
def ClosedBack (g : Ghost) (x : String) (Q : BlockId → Prop) : Prop :=
  ∀ c p, Q c → p ∈ g.builder.preds c → lastWrite x (g.log p) = none → Q p

/-- What reading `x` with type `ty` changes: phis of that type are appended to blocks, and entry
definitions of `x` are found for blocks in `Q`. -/
structure ReadFrame (x : String) (ty : Ty) (Q : BlockId → Prop) (g g' : Ghost) : Prop where
  log : g'.log = g.log
  length : g'.builder.func.blocks.length = g.builder.func.blocks.length
  params : g'.builder.func.params = g.builder.func.params
  name : g'.builder.func.name = g.builder.func.name
  retTy : g'.builder.func.retTy = g.builder.func.retTy
  term : ∀ b, g'.builder.func.termAt b = g.builder.func.termAt b
  isSealed : g'.builder.isSealed = g.builder.isSealed
  preds : g'.builder.preds = g.builder.preds
  /-- Only blocks in which nothing is known about `x` get something parked. -/
  parked : ∀ c, g.outDef c x ≠ none →
    g'.builder.incompletePhis c = g.builder.incompletePhis c
  entries : ∀ c y d, g.entryDef c y = some d → g'.entryDef c y = some d
  found : ∀ c y d, g'.entryDef c y = some d →
    g.entryDef c y = some d ∨ y = x ∧ Q c ∧ g.entryDef c x = none
  nextValue : g.builder.nextValue ≤ g'.builder.nextValue
  types : ∀ v, v < g.builder.nextValue → g'.builder.valueTypes v = g.builder.valueTypes v
  /-- No block that was sealed with a single predecessor gets a phi. -/
  insts : ∀ c, ∃ new, g'.builder.func.instsAt c = g.builder.func.instsAt c ++ new ∧
    (∀ i ∈ new, i.kind.isPhi = true ∧ i.ty = ty ∧ g.builder.nextValue ≤ i.id) ∧
    (new ≠ [] → ¬ (g.builder.isSealed c = true ∧ ∃ p, g.builder.preds c = [p]))

section Frame

variable {x : String} {ty : Ty} {Q : BlockId → Prop} {g g' g'' : Ghost}

theorem ReadFrame.refl : ReadFrame x ty Q g g :=
  ⟨rfl, rfl, rfl, rfl, rfl, fun _ => rfl, rfl, rfl, fun _ _ => rfl, fun _ _ _ h => h,
    fun _ _ _ h => .inl h, Nat.le_refl _, fun _ _ => rfl, fun _ => ⟨[], by simp⟩⟩

theorem ReadFrame.outDef (h : ReadFrame x ty Q g g') {c : BlockId} {y : String} {w : ValueId}
    (hd : g.outDef c y = some w) : g'.outDef c y = some w := outDef_mono g' h.log h.entries hd

theorem ReadFrame.trans (h : ReadFrame x ty Q g g') (h' : ReadFrame x ty Q g' g'') :
    ReadFrame x ty Q g g'' := by
  refine ⟨h'.log.trans h.log, h'.length.trans h.length, h'.params.trans h.params,
    h'.name.trans h.name, h'.retTy.trans h.retTy, fun b => (h'.term b).trans (h.term b),
    h'.isSealed.trans h.isSealed, h'.preds.trans h.preds, fun c hc => ?_,
    fun c y d hd => h'.entries c y d (h.entries c y d hd), fun c y d hd => ?_,
    Nat.le_trans h.nextValue h'.nextValue, fun v hv =>
      (h'.types v (Nat.lt_of_lt_of_le hv h.nextValue)).trans (h.types v hv), fun c => ?_⟩
  · obtain ⟨w, hw⟩ := Option.ne_none_iff_exists'.mp hc
    rw [h'.parked c (by rw [h.outDef hw]; simp), h.parked c hc]
  · rcases h'.found c y d hd with hd | ⟨rfl, hq, hn⟩
    · exact h.found c y d hd
    · refine .inr ⟨rfl, hq, ?_⟩
      cases he : g.entryDef c y with
      | none => rfl
      | some e => simp [h.entries c y e he] at hn
  · obtain ⟨new, hnew, hphi, hs⟩ := h.insts c
    obtain ⟨new', hnew', hphi', hs'⟩ := h'.insts c
    refine ⟨new ++ new', by rw [hnew', hnew, List.append_assoc], fun i hi => ?_, fun hne => ?_⟩
    · rcases List.mem_append.mp hi with hi | hi
      · exact hphi i hi
      · obtain ⟨h₁, h₂, h₃⟩ := hphi' i hi
        exact ⟨h₁, h₂, Nat.le_trans h.nextValue h₃⟩
    · by_cases hn : new = []
      · rw [← h.isSealed, ← h.preds]
        exact hs' (by rintro rfl; exact hne (by simp [hn]))
      · exact hs hn

end Frame

section Spec

variable {ε : Type} {x : String} {ty : Ty}

/-- A reader returns the definition of `x` at the end of the block and keeps the invariant. -/
def ReadSpec (x : String) (ty : Ty)
    (read : SsaBuilder → BlockId → BuildM ε (ValueId × SsaBuilder)) : Prop :=
  ∀ (g : Ghost) Open Closing Q b v B', BuilderInv g Open Closing →
    (∀ c, Closing c → g.outDef c x ≠ none) → ClosedBack g x Q → (g.outDef b x = none → Q b) →
    b < g.builder.func.blocks.length → read g.builder b = .ok (v, B') →
    ∃ g' : Ghost, g'.builder = B' ∧ BuilderInv g' Open Closing ∧ ReadFrame x ty Q g g' ∧
      g'.outDef b x = some v

/-- Reading `x` in all predecessors of a block. -/
theorem readPreds_spec {read : SsaBuilder → BlockId → BuildM ε (ValueId × SsaBuilder)}
    (hread : ReadSpec x ty read) {g : Ghost} {Open : BlockId → String → ValueId → Prop}
    {Closing Q : BlockId → Prop} {ps : List BlockId} {incoming : List (BlockId × ValueId)}
    {B' : SsaBuilder} (h : BuilderInv g Open Closing)
    (hclosing : ∀ c, Closing c → g.outDef c x ≠ none) (hQ : ClosedBack g x Q)
    (hps : ∀ p ∈ ps, p < g.builder.func.blocks.length ∧ (g.outDef p x = none → Q p))
    (hok : SsaBuilder.readPreds read g.builder ps = .ok (incoming, B')) :
    ∃ g' : Ghost, g'.builder = B' ∧ BuilderInv g' Open Closing ∧ ReadFrame x ty Q g g' ∧
      List.Forall₂ (fun p e => e.1 = p ∧ g'.outDef p x = some e.2) ps incoming := by
  induction ps generalizing g incoming with
  | nil =>
    obtain ⟨rfl, rfl⟩ : [] = incoming ∧ g.builder = B' := by
      simpa [SsaBuilder.readPreds] using hok
    exact ⟨g, rfl, h, .refl, .nil⟩
  | cons p ps ih =>
    simp only [SsaBuilder.readPreds, bind_eq_ok] at hok
    obtain ⟨⟨v, B₁⟩, hv, ⟨inc, B₂⟩, hinc, hok⟩ := hok
    obtain ⟨rfl, rfl⟩ : (p, v) :: inc = incoming ∧ B₂ = B' := by simpa using hok
    obtain ⟨hp, hpQ⟩ := hps p List.mem_cons_self
    obtain ⟨g₁, rfl, h₁, hf₁, hd₁⟩ := hread g Open Closing Q p v B₁ h hclosing hQ hpQ hp hv
    have hmono : ∀ c, g₁.outDef c x = none → g.outDef c x = none := by
      intro c hc
      cases hd : g.outDef c x with
      | none => rfl
      | some w => simp [hf₁.outDef hd] at hc
    obtain ⟨g₂, rfl, h₂, hf₂, hd₂⟩ := ih h₁ (fun c hc hn => hclosing c hc (hmono c hn))
      (fun c q hc hq hw => hQ c q hc (hf₁.preds ▸ hq) (hf₁.log ▸ hw))
      (fun q hq => ⟨hf₁.length ▸ (hps q (List.mem_cons_of_mem _ hq)).1,
        fun hn => (hps q (List.mem_cons_of_mem _ hq)).2 (hmono q hn)⟩) hinc
    exact ⟨g₂, rfl, h₂, hf₁.trans hf₂, .cons ⟨rfl, hf₂.outDef hd₁⟩ hd₂⟩

/-- Filling in the operands of an open phi. -/
theorem addPhiOperands_spec {read : SsaBuilder → BlockId → BuildM ε (ValueId × SsaBuilder)}
    (hread : ReadSpec x ty read) {g : Ghost} {Open : BlockId → String → ValueId → Prop}
    {Closing Q : BlockId → Prop} {b : BlockId} {phi : ValueId} {B' : SsaBuilder}
    (h : BuilderInv g (WithOpen Open b x phi) Closing)
    (hclosing : ∀ c, Closing c → g.outDef c x ≠ none) (hQ : ClosedBack g x Q) (hbQ : Q b)
    (hd : g.entryDef b x = some (.phi phi)) (hseal : g.builder.isSealed b = true ∨ Closing b)
    (hok : SsaBuilder.addPhiOperands read g.builder phi b = .ok B') :
    ∃ (g₁ : Ghost) (incoming : List (BlockId × ValueId)), ReadFrame x ty Q g g₁ ∧
      BuilderInv g₁ (WithOpen Open b x phi) Closing ∧ g₁.entryDef b x = some (.phi phi) ∧
      (g₁.fill b phi incoming).builder = B' ∧ BuilderInv (g₁.fill b phi incoming) Open Closing := by
  have hok' := hok
  simp only [SsaBuilder.addPhiOperands, bind_eq_ok] at hok'
  obtain ⟨⟨incoming, B₁⟩, hinc, -⟩ := hok'
  obtain ⟨g₁, rfl, h₁, hf₁, hm⟩ := readPreds_spec hread h hclosing hQ (fun p hp =>
    ⟨h.graph.pred_lt hp, fun hn => hQ b p hbQ hp (outDef_eq_none.mp hn).1⟩) hinc
  have hd₁ := hf₁.entries b x _ hd
  obtain ⟨i, hi, hid, -⟩ := h₁.entries.phi b x phi hd₁
  have heq := SsaBuilder.addPhiOperands_eq hinc h₁.graph.indexed (h₁.lt_of_entryDef hd₁)
    (h₁.values.nodup b) (List.mem_map.mpr ⟨i, hi, hid⟩)
  rw [hok] at heq
  refine ⟨g₁, incoming, hf₁, h₁, hd₁, (Except.ok.inj heq).symm, h₁.fill hd₁ ?_ ?_⟩
  · exact hf₁.isSealed ▸ hseal
  · unfold PhiMatches
    rw [hf₁.preds]
    exact hm

/-- The frame of creating a phi. -/
theorem ReadFrame.addPhi (ty : Ty) {g : Ghost} {Q : BlockId → Prop} {b : BlockId}
    (hb : b < g.builder.func.blocks.length) (hnone : g.outDef b x = none) (hQ : Q b)
    (hs : ¬ (g.builder.isSealed b = true ∧ ∃ p, g.builder.preds b = [p])) :
    ReadFrame x ty Q g (g.addPhi b x ty) := by
  obtain ⟨-, hentry⟩ := outDef_eq_none.mp hnone
  refine ⟨rfl, Function.modify_length _ _, rfl, rfl, rfl,
    fun c => Function.termAt_modify_insts b
      (fun l => l ++ [Instruction.mk g.builder.nextValue ty (.phi [])]) c, rfl, rfl, fun _ _ => rfl,
    setEntry_mono hentry, fun c y d hd => ?_, Nat.le_succ _,
    fun v hv => if_neg (Nat.ne_of_lt hv), fun c => ?_⟩
  · change setEntry _ _ _ _ c y = _ at hd
    rw [setEntry_apply] at hd
    split at hd
    · next h =>
      obtain ⟨rfl, rfl⟩ := h
      exact .inr ⟨rfl, hQ, hentry⟩
    · exact .inl hd
  · have hinsts := instsAt_emitted (B := g.builder) hb ty (.phi []) c
    by_cases hc : c = b
    · subst hc
      rw [if_pos rfl] at hinsts
      exact ⟨[⟨g.builder.nextValue, ty, .phi []⟩], hinsts, by simp [InstKind.isPhi], fun _ => hs⟩
    · rw [if_neg hc] at hinsts
      exact ⟨[], hinsts.trans (List.append_nil _).symm, by simp, by simp⟩

/-- What a read has appended stays appended when the phi it created is filled in. -/
theorem ReadFrame.fill {g g₁ : Ghost} {Q : BlockId → Prop} {b : BlockId} {phi : ValueId}
    (hf : ReadFrame x ty Q g g₁) (hb : b < g₁.builder.func.blocks.length)
    (hnew : ∀ i ∈ g.builder.func.instsAt b, i.id ≠ phi) (incoming : List (BlockId × ValueId)) :
    ReadFrame x ty Q g (g₁.fill b phi incoming) := by
  refine ⟨hf.log, (Function.modify_length _ _).trans hf.length, hf.params, hf.name, hf.retTy,
    fun c => (Function.termAt_modify_insts b (List.map fun i =>
      if i.id = phi then { i with kind := .phi incoming } else i) c).trans (hf.term c), hf.isSealed,
    hf.preds, hf.parked, hf.entries, hf.found, hf.nextValue, hf.types, fun c => ?_⟩
  obtain ⟨new, heq, hphi, hs⟩ := hf.insts c
  have hinsts := instsAt_filled (B := g₁.builder) hb phi incoming c
  by_cases hc : c = b
  · subst hc
    refine ⟨new.map fun i => if i.id = phi then { i with kind := .phi incoming } else i, ?_, ?_,
      fun hne => hs (by simpa using hne)⟩
    · rw [if_pos rfl, heq, List.map_append] at hinsts
      refine hinsts.trans (congrArg (· ++ _) ?_)
      exact (List.map_congr_left fun i hi => if_neg (hnew i hi)).trans (List.map_id _)
    · intro i hi
      obtain ⟨j, hj, rfl⟩ := List.mem_map.mp hi
      obtain ⟨h₁, h₂, h₃⟩ := hphi j hj
      split
      · exact ⟨rfl, h₂, h₃⟩
      · exact ⟨h₁, h₂, h₃⟩
  · rw [if_neg hc] at hinsts
    exact ⟨new, hinsts.trans heq, hphi, hs⟩

/-- The recursive part of a read. -/
theorem readVariableRecursive_spec
    {read : SsaBuilder → BlockId → BuildM ε (ValueId × SsaBuilder)} (hread : ReadSpec x ty read)
    {g : Ghost} {Open : BlockId → String → ValueId → Prop} {Closing Q : BlockId → Prop}
    {b : BlockId} {v : ValueId} {B' : SsaBuilder} (h : BuilderInv g Open Closing)
    (hclosing : ∀ c, Closing c → g.outDef c x ≠ none) (hQ : ClosedBack g x Q) (hbQ : Q b)
    (hb : b < g.builder.func.blocks.length) (hnone : g.outDef b x = none)
    (hok : SsaBuilder.readVariableRecursive read x ty g.builder b = .ok (v, B')) :
    ∃ g' : Ghost, g'.builder = B' ∧ BuilderInv g' Open Closing ∧ ReadFrame x ty Q g g' ∧
      g'.outDef b x = some v := by
  have hnc : ¬ Closing b := fun hc => hclosing b hc hnone
  have hadd := h.addPhi ty hb hnone
  have hdef : (g.addPhi b x ty).entryDef b x = some (.phi g.builder.nextValue) := by
    simp [Ghost.addPhi, setEntry_apply]
  have hout : (g.addPhi b x ty).outDef b x = some g.builder.nextValue := by
    rw [Ghost.addPhi, outDef_setEntry hnone]
    simp [EntryDef.val]
  have hfresh : ∀ i ∈ g.builder.func.instsAt b, i.id ≠ g.builder.nextValue :=
    fun i hi => Nat.ne_of_lt (h.values.ids b i hi).2
  simp only [SsaBuilder.readVariableRecursive, SsaBuilder.emit_ok h.graph.indexed hb,
    ok_bind] at hok
  split at hok
  · next hs =>
    -- the block is not sealed: the phi is parked
    obtain ⟨rfl, rfl⟩ : g.builder.nextValue = v ∧ ((g.addPhi b x ty).park b x
        g.builder.nextValue).builder = B' := Prod.mk.inj (Except.ok.inj hok)
    refine ⟨_, rfl, hadd.park hdef hs, ?_, hout⟩
    have hf := ReadFrame.addPhi ty hb hnone hbQ (by simp [hs])
    refine ⟨hf.log, hf.length, hf.params, hf.name, hf.retTy, hf.term, hf.isSealed, hf.preds,
      fun c hc => ?_, hf.entries, hf.found, hf.nextValue, hf.types, hf.insts⟩
    show insertAt g.builder.incompletePhis b _ c = _
    rw [insertAt, if_neg]
    rintro rfl
    exact hc hnone
  · next hs =>
    have hs : g.builder.isSealed b = true := by simpa using hs
    split at hok
    · next hp =>
      -- no predecessor: an empty phi
      obtain ⟨rfl, rfl⟩ : g.builder.nextValue = v ∧ (g.addPhi b x ty).builder = B' :=
        Prod.mk.inj (Except.ok.inj hok)
      exact ⟨_, rfl, hadd.closeEmpty hs hp,
        ReadFrame.addPhi ty hb hnone hbQ (by simp [hp]), hout⟩
    · next p hp =>
      -- one predecessor: its definition
      simp only [bind_eq_ok] at hok
      obtain ⟨⟨w, B₁⟩, hw, hok⟩ := hok
      obtain ⟨rfl, rfl⟩ : w = v ∧ B₁.writeVariable x b w = B' := by simpa using hok
      have hmem : p ∈ g.builder.preds b := by simp [hp]
      obtain ⟨g₁, rfl, h₁, hf₁, hd₁⟩ := hread g Open Closing Q p w B₁ h hclosing hQ
        (fun hn => hQ b p hbQ hmem (outDef_eq_none.mp hn).1) (h.graph.pred_lt hmem) hw
      cases hn₁ : g₁.outDef b x with
      | none =>
        have hcopy := h₁.copyDef (hf₁.isSealed ▸ hs) (hf₁.preds ▸ hp) hd₁ hn₁
        refine ⟨_, rfl, hcopy, hf₁.trans ?_, ?_⟩
        · obtain ⟨-, hentry⟩ := outDef_eq_none.mp hn₁
          refine ⟨rfl, rfl, rfl, rfl, rfl, fun _ => rfl, rfl, rfl, fun _ _ => rfl,
            setEntry_mono hentry, fun c y d hd => ?_, Nat.le_refl _, fun _ _ => rfl,
            fun c => ⟨[], by simp; rfl⟩⟩
          change setEntry _ _ _ _ c y = _ at hd
          rw [setEntry_apply] at hd
          split at hd
          · next hcy =>
            obtain ⟨rfl, rfl⟩ := hcy
            exact .inr ⟨rfl, hbQ, hentry⟩
          · exact .inl hd
        · rw [Ghost.copyDef, outDef_setEntry hn₁]
          simp [EntryDef.val]
      | some u =>
        -- the recursion has come back to the block and has already taken over the definition
        have hu : u = w := by
          obtain ⟨hw, hentry⟩ := outDef_eq_none.mp hnone
          have hmap : (g₁.entryDef b x).map EntryDef.val = some u := by
            simpa [Ghost.outDef, defAfter, hf₁.log, hw] using hn₁
          obtain ⟨d, hd, hdu⟩ := Option.map_eq_some_iff.mp hmap
          subst hdu
          cases d with
          | copy u =>
            obtain ⟨-, q, hq, ho⟩ := h₁.entries.copy b x u hd
            obtain rfl : p = q := by simpa [hf₁.preds, hp] using hq
            exact Option.some.inj (ho.symm.trans hd₁)
          | phi u =>
            -- a sealed block with one predecessor gets no new phi
            obtain ⟨i, hi, rfl, hlog, -⟩ := h₁.entries.phi b x u hd
            obtain ⟨new, heq, -, hnew⟩ := hf₁.insts b
            obtain rfl : new = [] := by
              by_contra hne
              exact hnew hne ⟨hs, p, hp⟩
            rw [heq, List.append_nil] at hi
            obtain ⟨y, hy⟩ := (h.logs.phis b i hi).resolve_left (hf₁.log ▸ hlog)
            obtain rfl := h₁.entries.inj b x y i.id hd (hf₁.entries b y _ hy)
            simp [hentry] at hy
        subst hu
        refine ⟨g₁, ?_, h₁, hf₁, hn₁⟩
        rw [SsaBuilder.writeVariable_self]
        rw [h₁.logs.cur, hn₁]
    · next hp₁ hp₂ =>
      obtain ⟨B₁, hB₁, hok⟩ := bind_eq_ok.mp hok
      obtain ⟨rfl, rfl⟩ : g.builder.nextValue = v ∧
          B₁.writeVariable x b g.builder.nextValue = B' := Prod.mk.inj (Except.ok.inj hok)
      have hf := ReadFrame.addPhi ty hb hnone hbQ
        (by rintro ⟨-, p, hp⟩; exact hp₂ p hp)
      have hB₁' : SsaBuilder.addPhiOperands read (g.addPhi b x ty).builder g.builder.nextValue b =
          .ok B₁ := hB₁
      obtain ⟨g₁, incoming, hf₁, h₁, hd₁, rfl, hinv⟩ := addPhiOperands_spec hread hadd
        (fun c hc hn => hclosing c hc (by
          cases hd : g.outDef c x with
          | none => rfl
          | some w => simp [hf.outDef hd] at hn)) hQ hbQ hdef (.inl hs) hB₁'
      have hframe := (hf.trans hf₁).fill (h₁.lt_of_entryDef hd₁) hfresh incoming
      have hout' : (g₁.fill b g.builder.nextValue incoming).outDef b x =
          some g.builder.nextValue := hf₁.outDef hout
      refine ⟨_, ?_, hinv, hframe, hout'⟩
      -- the phi is bound a second time
      rw [SsaBuilder.writeVariable_self]
      rw [hinv.logs.cur, hout']

/-- `read_variable` returns the definition of the variable at the end of the block. -/
theorem readVariable_spec (ty : Ty) (n : ℕ) :
    ReadSpec x ty (SsaBuilder.readVariable x ty n : _ → _ → BuildM ε _) := by
  induction n with
  | zero =>
    intro g Open Closing Q b v B' _ _ _ _ _ hok
    simp [SsaBuilder.readVariable] at hok
  | succ n ih =>
    intro g Open Closing Q b v B' h hclosing hQ hbQ hb hok
    rw [SsaBuilder.readVariable] at hok
    cases hcur : g.builder.currentDef b x with
    | some w =>
      rw [hcur] at hok
      obtain ⟨rfl, rfl⟩ : w = v ∧ g.builder = B' := Prod.mk.inj (Except.ok.inj hok)
      exact ⟨g, rfl, h, .refl, h.logs.cur b x ▸ hcur⟩
    | none =>
      rw [hcur] at hok
      have hnone : g.outDef b x = none := h.logs.cur b x ▸ hcur
      exact readVariableRecursive_spec ih h hclosing hQ (hbQ hnone) hb hnone hok

end Spec

end Parser
end Chakobsa
