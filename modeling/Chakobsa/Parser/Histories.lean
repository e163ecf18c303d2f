import Chakobsa.Parser.Additions

/-!
# Tidy histories

What the parser does beyond the discipline of the builder, as far as the log of a block shows it.
It binds a variable to the value it has just computed; it emits a phi of its own only at the join
of a short-circuit operator, with the values last computed in the predecessors as operands
(`Ghost.Tidy`). There is a lemma for each call of the builder. Besides, each says that nothing is
undone: what a later state has, compared with an earlier one, is said by `Extends`.
-/

namespace Chakobsa
namespace Parser

open Ir ExceptLemmas

/-! ### The value last computed -/

/-- The value an event makes available. -/
def Event.value : Event → Option ValueId
  | .inst i => some i.id
  | .read _ v _ => some v
  | .write _ _ => none

/-- The value last computed. -/
def lastValue : List Event → Option ValueId
  | [] => none
  | e :: rest => (lastValue rest).or e.value

section LastValue

variable {l r : List Event} {x : String} {v w : ValueId} {ty : Ty} {n : ℕ}

theorem lastValue_append : lastValue (l ++ r) = (lastValue r).or (lastValue l) := by
  induction l with
  | nil => simp [lastValue]
  | cons e l ih => simp [lastValue, ih, Option.or_assoc]

@[simp] theorem lastValue_snoc_inst (i : Instruction) : lastValue (l ++ [.inst i]) = some i.id := by
  simp [lastValue_append, lastValue, Event.value]

@[simp] theorem lastValue_snoc_read : lastValue (l ++ [.read x v ty]) = some v := by
  simp [lastValue_append, lastValue, Event.value]

@[simp] theorem lastValue_snoc_write : lastValue (l ++ [.write x v]) = lastValue l := by
  simp [lastValue_append, lastValue, Event.value]

/-- The value last computed was computed by an event. -/
theorem mem_of_lastValue (h : lastValue l = some v) : ∃ l₁ e l₂, l = l₁ ++ e :: l₂ ∧ e.value = some v := by
  induction l with
  | nil => cases h
  | cons e l ih =>
    rw [lastValue, Option.or_eq_some_iff] at h
    rcases h with h | ⟨-, h⟩
    · obtain ⟨l₁, e', l₂, rfl, hv⟩ := ih h
      exact ⟨e :: l₁, e', l₂, rfl, hv⟩
    · exact ⟨[], e, l, rfl, h⟩

/-- A value that is written has just been computed, or is one of the `n` parameters. -/
def WritesLast (n : ℕ) (L : List Event) : Prop :=
  ∀ l x w r, L = l ++ .write x w :: r → lastValue l = some w ∨ w < n

theorem WritesLast.snoc {e : Event} (h : WritesLast n l)
    (he : ∀ x w, e = .write x w → lastValue l = some w ∨ w < n) : WritesLast n (l ++ [e]) := by
  intro l' x w r heq
  rcases List.eq_nil_or_concat r with rfl | ⟨r, e', rfl⟩
  · obtain ⟨rfl, hee⟩ := List.append_inj' heq rfl
    exact he x w (List.cons.inj hee).1
  · have hinit : l ++ [e] = (l' ++ .write x w :: r) ++ [e'] := by simpa using heq
    obtain ⟨rfl, -⟩ := List.append_inj' hinit rfl
    exact h l' x w r rfl

end LastValue

/-! ### Tidy states -/

/-- What holds of the parser's state between two calls of the builder. -/
structure Ghost.Tidy (g : Ghost) : Prop extends g.Exact where
  writes : ∀ b, WritesLast g.builder.func.params.length (g.log b)
  /-- The operands of an emitted phi are what the predecessors computed last. -/
  phis : ∀ b, ∀ i ∈ instsOf (g.log b), ∀ incoming, i.kind = .phi incoming →
    g.builder.isSealed b = true ∧ incoming.map Prod.fst = g.builder.preds b ∧
      ∀ e ∈ incoming, lastValue (g.log e.1) = some e.2
  entry : ∀ i ∈ g.builder.func.instsAt 0, i.kind.isPhi = false
  below : g.builder.Below
  last : ∀ b v, lastValue (g.log b) = some v → v < g.builder.nextValue

/-- From one state to a later one, in which terminators are kept as well. -/
structure Extends (g g' : Ghost) : Prop extends Grows g g' where
  ended : ∀ b t, g.term b = some t → g'.term b = some t
  /-- Instructions have new ids, apart from those there were. -/
  insts : ∀ b, ∀ i ∈ g'.builder.func.instsAt b,
    (∃ j ∈ g.builder.func.instsAt b, j.id = i.id) ∨ g.builder.nextValue ≤ i.id

section Extends

variable {g g' g'' : Ghost}

theorem Extends.refl : Extends g g := ⟨.refl, fun _ _ h => h, fun _ i hi => .inl ⟨i, hi, rfl⟩⟩

theorem Extends.trans (h : Extends g g') (h' : Extends g' g'') : Extends g g'' := by
  refine ⟨h.toGrows.trans h'.toGrows, fun b t ht => h'.ended b t (h.ended b t ht), fun b i hi => ?_⟩
  rcases h'.insts b i hi with ⟨j, hj, hid⟩ | hle
  · rcases h.insts b j hj with ⟨k, hk, hkj⟩ | hle
    · exact .inl ⟨k, hk, hkj.trans hid⟩
    · exact .inr (hid ▸ hle)
  · exact .inr (Nat.le_trans h.nextValue hle)

/-- A call that leaves the terminators alone, and adds what a look-up adds at most. -/
theorem Extends.of_adds (h : Grows g g') (hterm : ∀ b, g'.term b = g.term b)
    (hadds : SsaBuilder.Adds g.builder g'.builder) : Extends g g' := by
  refine ⟨h, fun b t ht => (hterm b).trans ht, fun b i hi => ?_⟩
  rcases hadds.insts b i hi with hi | ⟨-, hi⟩
  · exact .inl ⟨i, hi, rfl⟩
  · exact hi

end Extends

section Tidy

variable {ε : Type} {g g' : Ghost} {b : BlockId} {x : String} {v : ValueId} {ty : Ty}

theorem Ghost.Sound.rooted (h : g.Sound) : g.builder.Rooted :=
  ⟨h.ok.graph.indexed, h.ok.graph.entrySealed, h.ok.graph.entryPreds⟩

/-- Phis that were emitted keep their predecessors and operands. -/
theorem Ghost.Tidy.phis_grow (h : g.Tidy) (hg : Grows g g')
    (hnew : ∀ b, ∀ i ∈ instsOf (g'.log b), i ∈ instsOf (g.log b) ∨
      ∀ incoming, i.kind = .phi incoming → g'.builder.isSealed b = true ∧
        incoming.map Prod.fst = g'.builder.preds b ∧ ∀ e ∈ incoming, lastValue (g'.log e.1) = some e.2) :
    ∀ b, ∀ i ∈ instsOf (g'.log b), ∀ incoming, i.kind = .phi incoming →
      g'.builder.isSealed b = true ∧ incoming.map Prod.fst = g'.builder.preds b ∧
        ∀ e ∈ incoming, lastValue (g'.log e.1) = some e.2 := by
  intro b i hi incoming hk
  rcases hnew b i hi with hold | hnew
  · obtain ⟨hs, hp, hl⟩ := h.phis b i hold incoming hk
    obtain ⟨hs', hp'⟩ := hg.isSealed b hs
    refine ⟨hs', hp.trans hp'.symm, fun e he => ?_⟩
    -- nothing is added to a block with a terminator
    have hpred : e.1 ∈ g.builder.preds b := hp ▸ List.mem_map_of_mem he
    rw [(hg.done e.1 (h.ok.graph.pred_terminated hpred)).1]
    exact hl e he
  · exact hnew incoming hk

/-- The variables of a block with an additional definition. -/
theorem currentDef_write {B : SsaBuilder} {c : BlockId} {y : String} {w : ValueId}
    (h : (B.writeVariable x b v).currentDef c y = some w) : w = v ∨ B.currentDef c y = some w := by
  change insertAt B.currentDef b (insertAt (B.currentDef b) x (some v)) c y = some w at h
  unfold insertAt at h
  split at h
  · next hc =>
    subst hc
    change (if y = x then some v else B.currentDef c y) = some w at h
    split at h
    · exact .inl (Option.some.inj h).symm
    · exact .inr h
  · exact .inr h

theorem Ghost.Tidy.newBlock (h : g.Tidy) : g.newBlock.Tidy ∧ Extends g g.newBlock := by
  obtain ⟨-, hg, -, hterm, -⟩ := h.toSound.newBlock
  have hinsts : ∀ c, g.newBlock.builder.func.instsAt c = g.builder.func.instsAt c :=
    newBlock_instsAt g.builder
  refine ⟨⟨h.toExact.newBlock, h.writes, h.phis_grow hg fun c i hi => .inl hi, ?_, fun c y w hw => ?_,
    h.last⟩, hg, fun c t ht => (hterm c).trans ht, fun c i hi => .inl ⟨i, hinsts c ▸ hi, rfl⟩⟩
  · rw [hinsts]
    exact h.entry
  · change insertAt g.builder.currentDef g.size (fun _ => none) c y = some w at hw
    unfold insertAt at hw
    split at hw
    · cases hw
    · exact h.below c y w hw

/-- An instruction is emitted; a phi only in a sealed block, with operands that its predecessors
have just computed. -/
theorem Ghost.Tidy.emit (h : g.Tidy) (hb : b < g.size) (ht : g.term b = none) (ty : Ty)
    (kind : InstKind) (hphi : ∀ incoming, kind = .phi incoming → b ≠ 0 ∧ g.builder.isSealed b = true ∧
      incoming.map Prod.fst = g.builder.preds b ∧ ∀ e ∈ incoming, lastValue (g.log e.1) = some e.2) :
    (g.emit b ty kind).Tidy ∧ Extends g (g.emit b ty kind) := by
  obtain ⟨-, hs, hg, hsame⟩ := h.toSound.emit (ε := Empty) hb ht ty kind
  have hlog : ∀ c, (g.emit b ty kind).log c =
      if c = b then g.log b ++ [.inst ⟨g.builder.nextValue, ty, kind⟩] else g.log c :=
    insertAt_log _ _ _
  have hinsts : ∀ c, (g.emit b ty kind).builder.func.instsAt c =
      if c = b then g.builder.func.instsAt b ++ [⟨g.builder.nextValue, ty, kind⟩]
      else g.builder.func.instsAt c := instsAt_emitted hb ty kind
  refine ⟨⟨h.toExact.of_same hs hsame.size hsame.term hsame.preds, fun c => ?_,
    h.phis_grow hg fun c i hi => ?_, fun i hi => ?_, fun c y w hw => Nat.lt_succ_of_lt (h.below c y w hw),
    fun c w hw => ?_⟩, hg, fun c t ht => (hsame.term c).trans ht, fun c i hi => ?_⟩
  · rw [hlog]
    split
    · exact (h.writes b).snoc fun _ _ he => nomatch he
    · exact h.writes c
  · rw [hlog] at hi
    split at hi
    · next hc =>
      subst hc
      rw [instsOf_append, List.mem_append] at hi
      refine hi.imp_right fun hi incoming hk => ?_
      obtain rfl := List.mem_singleton.mp hi
      obtain ⟨-, hseal, hpreds, hvals⟩ := hphi incoming hk
      refine ⟨hseal, hpreds, fun e he => ?_⟩
      -- the predecessors have terminators, and `b` has none
      have hpred : e.1 ∈ g.builder.preds c := hpreds ▸ List.mem_map_of_mem he
      rw [(hg.done e.1 (h.ok.graph.pred_terminated hpred)).1]
      exact hvals e he
    · exact .inl hi
  · rw [hinsts] at hi
    split at hi
    · next hc =>
      subst hc
      rcases List.mem_append.mp hi with hi | hi
      · exact h.entry i hi
      · obtain rfl := List.mem_singleton.mp hi
        cases kind with
        | phi incoming => exact absurd rfl (hphi incoming rfl).1
        | _ => rfl
    · exact h.entry i hi
  · rw [hlog] at hw
    show w < g.builder.nextValue + 1
    split at hw
    · rw [lastValue_snoc_inst] at hw
      exact Option.some.inj hw ▸ Nat.lt_succ_self _
    · exact Nat.lt_succ_of_lt (h.last c w hw)
  · rw [hinsts] at hi
    split at hi
    · next hc =>
      subst hc
      rcases List.mem_append.mp hi with hi | hi
      · exact .inl ⟨i, hi, rfl⟩
      · obtain rfl := List.mem_singleton.mp hi
        exact .inr (Nat.le_refl _)
    · exact .inl ⟨i, hi, rfl⟩

/-- The value just computed is written to a variable. -/
theorem Ghost.Tidy.write (h : g.Tidy) (hb : b < g.size) (ht : g.term b = none) (x : String)
    (hv : lastValue (g.log b) = some v) : (g.write x b v).Tidy ∧ Extends g (g.write x b v) := by
  obtain ⟨hs, hg, hsame⟩ := h.toSound.write hb ht x v
  have hlog : ∀ c, (g.write x b v).log c = if c = b then g.log b ++ [.write x v] else g.log c :=
    insertAt_log _ _ _
  refine ⟨⟨h.toExact.of_same hs hsame.size hsame.term hsame.preds, fun c => ?_,
    h.phis_grow hg fun c i hi => ?_, h.entry, fun c y w hw => ?_, fun c w hw => ?_⟩, hg,
    fun c t ht => ht, fun c i hi => .inl ⟨i, hi, rfl⟩⟩
  · rw [hlog]
    split
    · refine (h.writes b).snoc fun y w he => .inl ?_
      obtain ⟨-, rfl⟩ := Event.write.inj he
      exact hv
    · exact h.writes c
  · rw [hlog] at hi
    split at hi
    · next hc =>
      subst hc
      rw [instsOf_append, instsOf_write, List.append_nil] at hi
      exact .inl hi
    · exact .inl hi
  · rcases currentDef_write hw with rfl | hw
    · exact h.last b w hv
    · exact h.below c y w hw
  · rw [hlog] at hw
    split at hw
    · rw [lastValue_snoc_write] at hw
      exact h.last b w hw
    · exact h.last c w hw

/-- A block gets its terminator. -/
theorem Ghost.Tidy.terminate (h : g.Tidy) (hb : b < g.size) (ht : g.term b = none)
    (hr : g.builder.Reach b) {t : Terminator}
    (hs : ∀ s ∈ t.successors, s < g.size ∧ s ≠ 0 ∧ g.builder.isSealed s = false) :
    (g.terminate b t).Tidy ∧ Extends g (g.terminate b t) := by
  obtain ⟨-, -, hg, -, hterm, -⟩ := h.toSound.terminate (ε := Empty) hb hr hs
  have hinsts : ∀ c, (g.terminate b t).builder.func.instsAt c = g.builder.func.instsAt c :=
    Function.instsAt_modify_term b t
  refine ⟨⟨h.toExact.terminate hb ht hr hs, h.writes, h.phis_grow hg fun c i hi => .inl hi, ?_, h.below,
    h.last⟩, hg, fun c u hu => ?_, fun c i hi => .inl ⟨i, hinsts c ▸ hi, rfl⟩⟩
  · rw [hinsts]
    exact h.entry
  · rw [hterm, if_neg, hu]
    rintro rfl
    rw [ht] at hu
    cases hu

/-- What looking up adds leaves a state tidy if the logs do. -/
theorem Ghost.Tidy.of_adds (h : g.Tidy) (hex : g'.Exact) (hg : Grows g g')
    (hadds : SsaBuilder.Adds g.builder g'.builder)
    (hwrites : ∀ c, WritesLast g.builder.func.params.length (g'.log c))
    (hinsts : ∀ c, instsOf (g'.log c) = instsOf (g.log c))
    (hlast : ∀ c v, lastValue (g'.log c) = some v → v < g'.builder.nextValue) : g'.Tidy := by
  refine ⟨hex, fun c => ?_, h.phis_grow hg fun c i hi => .inl (hinsts c ▸ hi), fun i hi => ?_,
    hadds.below h.below, hlast⟩
  · rw [hg.params]
    exact hwrites c
  · rcases hadds.insts 0 i hi with hi | ⟨hne, -⟩
    · exact h.entry i hi
    · exact absurd rfl hne

/-- A variable that is known is read. -/
theorem Ghost.Tidy.read (h : g.Tidy) (hb : b < g.size) (ht : g.term b = none)
    (hx : g.builder.Known x b) (hr : g.builder.Reach b) (ty : Ty) :
    ∃ (v : ValueId) (g' : Ghost),
      (g.builder.read x b ty : BuildM ε _) = .ok (v, g'.builder) ∧ g'.Tidy ∧ Extends g g' ∧
      SameGraph g g' ∧ g'.log = insertAt g.log b (g.log b ++ [.read x v ty]) := by
  obtain ⟨v, g', hok, hs, hg, hsame, hlog, -⟩ := h.toSound.read (ε := ε) hb ht x ty
  obtain ⟨hadds, hv⟩ := SsaBuilder.Adds.read ⟨g, h.toSound, rfl⟩ h.toSound.rooted hr hx hok
  have hlog' : ∀ c, g'.log c = if c = b then g.log b ++ [.read x v ty] else g.log c := by
    rw [hlog]
    exact insertAt_log _ _ _
  refine ⟨v, g', hok, h.of_adds (h.toExact.of_same hs hsame.size hsame.term hsame.preds) hg hadds
    (fun c => ?_) (fun c => ?_) fun c w hw => ?_, .of_adds hg hsame.term hadds, hsame, hlog⟩
  · rw [hlog']
    split
    · exact (h.writes b).snoc fun _ _ he => nomatch he
    · exact h.writes c
  · rw [hlog']
    split
    · next hc => rw [instsOf_append, instsOf_read, List.append_nil, hc]
    · rfl
  · rw [hlog'] at hw
    split at hw
    · rw [lastValue_snoc_read] at hw
      exact Option.some.inj hw ▸ hv h.below
    · exact Nat.lt_of_lt_of_le (h.last c w hw) hadds.nextValue

/-- A block is sealed. -/
theorem Ghost.Tidy.sealBlock (h : g.Tidy) (hb : b < g.size) (hs : g.builder.isSealed b = false)
    (hg : g.builder.GroundedAt b) :
    ∃ g' : Ghost, (g.builder.sealBlock b : BuildM ε _) = .ok g'.builder ∧ g'.Tidy ∧ Extends g g' ∧
      g'.size = g.size ∧ (∀ c, g'.term c = g.term c) ∧ g'.builder.preds = g.builder.preds ∧
      g'.builder.isSealed = insertAt g.builder.isSealed b true ∧ g'.log = g.log := by
  obtain ⟨g', hok, hs', hgrow, hsize, hterm, hpreds, hseal, hlog, -⟩ := h.toSound.sealBlock (ε := ε) hb hs
  have hne : b ≠ 0 := by
    rintro rfl
    rw [h.ok.graph.entrySealed] at hs
    cases hs
  have hadds := SsaBuilder.Adds.sealBlock ⟨g, h.toSound, rfl⟩ h.toSound.rooted hne hg hok
  refine ⟨g', hok, h.of_adds (h.toExact.of_same hs' hsize hterm hpreds) hgrow hadds (fun c => ?_)
    (fun c => ?_) fun c w hw => ?_, .of_adds hgrow hterm hadds, hsize, hterm, hpreds, hseal, hlog⟩
  · rw [hlog]
    exact h.writes c
  · rw [hlog]
  · rw [hlog] at hw
    exact Nat.lt_of_lt_of_le (h.last c w hw) hadds.nextValue

end Tidy

/-! ### A new function -/

/-- A new builder has a tidy history. -/
theorem Ghost.Tidy.new (name : String) (params : List (String × Ty)) (retTy : Option Ty) :
    (Ghost.new name params retTy).Tidy := by
  have hlog : ∀ b, ∀ e ∈ (Ghost.new name params retTy).log b, ∃ x v, v < params.length ∧ e = .write x v := by
    intro b e he
    change e ∈ if b = 0 then _ else _ at he
    split at he
    · obtain ⟨p, hp, rfl⟩ := List.mem_map.mp he
      exact ⟨_, _, (List.mem_zipIdx' hp).1, rfl⟩
    · cases he
  have hlast : ∀ b, lastValue ((Ghost.new name params retTy).log b) = none := by
    intro b
    by_contra hne
    obtain ⟨v, hv⟩ := Option.ne_none_iff_exists'.mp hne
    obtain ⟨l₁, e, l₂, heq, hval⟩ := mem_of_lastValue hv
    obtain ⟨x, w, -, rfl⟩ := hlog b e (by rw [heq]; simp)
    cases hval
  refine ⟨.new name params retTy, fun b l x w r heq => ?_, fun b i hi => ?_, fun i hi => ?_,
    fun b x v hv => ?_, fun b v hv => ?_⟩
  · obtain ⟨y, u, hu, he⟩ := hlog b (.write x w) (by rw [heq]; simp)
    obtain ⟨-, rfl⟩ := Event.write.inj he
    exact .inr hu
  · obtain ⟨y, u, -, he⟩ := hlog b _ (mem_instsOf.mp hi)
    cases he
  · rw [show (Ghost.new name params retTy).builder.func.instsAt 0 = [] from
      instsAt_new name params retTy 0] at hi
    cases hi
  · change (if b = 0 then _ else none) = some v at hv
    split at hv
    · obtain ⟨p, hp, rfl⟩ := Option.map_eq_some_iff.mp hv
      exact (List.mem_zipIdx' (List.mem_reverse.mp (List.mem_of_find?_eq_some hp))).1
    · cases hv
  · rw [hlast] at hv
    cases hv

end Parser
end Chakobsa
